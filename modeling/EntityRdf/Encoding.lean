import EntityRdf.Config
import EntityRdf.Document
import EntityRdf.Instance
import EntityRdf.Registry

/-!
# Encoding: instances to documents

Every instance becomes one block: its type tag, then one pair per mapped value
in the order of the fields of its class (`Registry.ownBlock`). Nested entities
get blocks of their own after their parent's and are linked by their subjects.
A block that the document has already is not written twice and its children
are not visited again; another block for the same subject is an error. Fields
without a mapping stay behind.
-/

namespace EntityRdf

/-- The subject of an instance: the nonempty string in the identity field. -/
def ClassDescriptor.subjectOf (d : ClassDescriptor) (e : Instance) :
    Except MappingError String :=
  match d.identity? with
  | none => .error (.missingIdentity d.name "")
  | some f =>
    match e.getStr? f.name with
    | none => .error (.missingIdentity d.name f.name)
    | some s => if s.isEmpty then .error (.missingIdentity d.name f.name) else .ok s

/-- The subject of an instance of a registered class. -/
def Registry.subjectOf (R : Registry) (e : Instance) : Except MappingError String := do
  let d ← R.describe e.className
  d.subjectOf e

namespace FieldDescriptor

/-- A sequence on a field for one value: several elements break its
cardinality, a single one only its shape. -/
def sequenceError (f : FieldDescriptor) (subject : String) (count : Nat)
    (expected : Expected) : MappingError :=
  if count > 1 then .tooManyValues subject f.name f.predicateText count
  else .wrongObject subject f.name expected

/-- The literals that a value gives a literal field. -/
def literalsOf (f : FieldDescriptor) (subject : String) (v : Value) :
    Except MappingError (List String) :=
  match v, f.multiplicity with
  | .str s, .single => .ok [s]
  | .strs l, .multi => .ok l
  | .strs l, .single => .error (f.sequenceError subject l.length .singleLiteral)
  | .str _, .multi => .error (.wrongObject subject f.name .literalSequence)
  | .entity _, _ | .entities _, _ => .error (.wrongObject subject f.name .literal)

/-- The nested instances that a value gives an entity field. -/
def entitiesOf (f : FieldDescriptor) (subject : String) (v : Value) :
    Except MappingError (List Instance) :=
  match v, f.multiplicity with
  | .entity e, .single => .ok [e]
  | .entities l, .multi => .ok l
  | .entities l, .single => .error (f.sequenceError subject l.length .singleEntity)
  | .entity _, .multi => .error (.wrongObject subject f.name .entitySequence)
  | .str _, _ | .strs _, _ => .error (.wrongObject subject f.name .entity)

end FieldDescriptor

/-- The instances nested in the entity fields of a class, in field order and
then in sequence order. -/
def ClassDescriptor.nestedIn (d : ClassDescriptor) (e : Instance) : List Instance :=
  d.predicateFields.flatMap fun f =>
    if f.range? = some .entity then ((e.get? f.name).map Value.nested).getD [] else []

/-- The encoder descends to smaller instances. -/
theorem ClassDescriptor.sizeOf_lt_of_mem_nestedIn {d : ClassDescriptor} {e c : Instance}
    (h : c ∈ d.nestedIn e) : sizeOf c < sizeOf e := by
  obtain ⟨f, -, hc⟩ := List.mem_flatMap.mp h
  split at hc
  · cases hv : e.get? f.name with
    | none => simp [hv] at hc
    | some v =>
      simp only [hv, Option.map_some, Option.getD_some] at hc
      exact Nat.lt_trans (Instance.sizeOf_lt_of_mem_nested hc) (Instance.sizeOf_lt_of_get? hv)
  · simp at hc

namespace Registry

/-- The pairs that one value of a field contributes to the block of its
subject. -/
def valuePairs (R : Registry) (subject : String) (f : FieldDescriptor) (v : Value) :
    Except MappingError (List (String × Object)) :=
  match f.mapping with
  | .identity => .ok []
  | .predicate iri .literal => do
    let texts ← f.literalsOf subject v
    return texts.map fun s => (iri, .literal s)
  | .predicate iri .entity => do
    let children ← f.entitiesOf subject v
    let targets ← children.mapM R.subjectOf
    return targets.map fun t => (iri, .iri t)

/-- The pairs of one field of an instance; none if the field is not set. -/
def fieldPairs (R : Registry) (subject : String) (e : Instance) (f : FieldDescriptor) :
    Except MappingError (List (String × Object)) :=
  match e.get? f.name with
  | none => .ok []
  | some v => R.valuePairs subject f v

/-- The block of an instance alone: its type, then the pairs of its fields. -/
def ownBlock (R : Registry) (d : ClassDescriptor) (subject : String) (e : Instance) :
    Except MappingError Block := do
  let pairs ← d.predicateFields.mapM (R.fieldPairs subject e)
  return ⟨subject, (Vocabulary.rdfType, .iri d.tag) :: pairs.flatten⟩

/-- The class and the block of an instance found at some depth. -/
def blockAt (R : Registry) (maxDepth depth : Nat) (e : Instance) :
    Except MappingError (ClassDescriptor × Block) := do
  let d ← R.describe e.className
  let subject ← d.subjectOf e
  -- an instance without a subject is reported as such at any depth
  if depth > maxDepth then throw (.tooDeep subject maxDepth)
  let b ← R.ownBlock d subject e
  return (d, b)

/-- Writes an instance found at some depth, then the instances nested in it. -/
def encodeInto (R : Registry) (maxDepth depth : Nat) (doc : Document) (e : Instance) :
    Except MappingError Document :=
  match R.blockAt maxDepth depth e with
  | .error err => .error err
  | .ok (d, b) =>
    match doc.block? b.subject with
    -- below a block that is there already nothing is compared
    | some old => if old = b then .ok doc else .error (.duplicateSubject b.subject)
    | none =>
      (d.nestedIn e).attach.foldlM (fun doc c => R.encodeInto maxDepth (depth + 1) doc c.1)
        (doc.push b)
termination_by sizeOf e
decreasing_by exact ClassDescriptor.sizeOf_lt_of_mem_nestedIn c.2

/-- The encoder without the termination argument: children are encoded one level deeper,
and only below a new block. -/
theorem encodeInto_eq (R : Registry) (maxDepth depth : Nat) (doc : Document) (e : Instance) :
    R.encodeInto maxDepth depth doc e =
      match R.blockAt maxDepth depth e with
      | .error err => .error err
      | .ok (d, b) =>
        match doc.block? b.subject with
        | some old => if old = b then .ok doc else .error (.duplicateSubject b.subject)
        | none => (d.nestedIn e).foldlM (R.encodeInto maxDepth (depth + 1)) (doc.push b) := by
  rw [encodeInto]
  split
  · rfl
  · split
    · rfl
    · simp

/-- Encodes several instances, with all that is nested in them, into one
document. -/
def encodeAll (R : Registry) (cfg : Config) (es : List Instance) :
    Except MappingError Document :=
  es.foldlM (R.encodeInto cfg.maxDepth 0) .empty

/-- Encodes one instance with all that is nested in it. -/
def encode (R : Registry) (cfg : Config) (e : Instance) : Except MappingError Document :=
  R.encodeAll cfg [e]

end Registry

end EntityRdf

import EntityRdf.Config
import EntityRdf.Document
import EntityRdf.Grouping
import EntityRdf.Instance
import EntityRdf.Registry

/-!
# Decoding: documents to instances

The class of a block comes from its types. Values are grouped by field in
document order; a reference from an entity field to another block of the
document is decoded in place, once per reference. The subjects between the
root and the current block form the active path: meeting one of them again is
a cycle, so the path never repeats and the recursion ends (`offPath` counts
the blocks that are still off it).

`Registry.decode` decodes the subjects that nothing refers to, in document
order, and then whatever no root has reached, which only a cycle can hold.
-/

namespace EntityRdf

/-- What one decoding has built so far. -/
structure Progress where
  /-- The number of entities begun. -/
  built : Nat
  done : List String
deriving DecidableEq, Repr

namespace Progress

def start : Progress := ⟨0, []⟩

def begin (p : Progress) : Progress := { p with built := p.built + 1 }

def complete (p : Progress) (subject : String) : Progress :=
  if p.done.contains subject then p else { p with done := subject :: p.done }

end Progress

/-! ## One block -/

/-- The class of a block: the owner of the first of its types that has one. -/
def Registry.blockClass? (R : Registry) (b : Block) : Option ClassDescriptor :=
  (b.types R.context).findSome? R.classForTag?

/-- The class of a block, which it must have. -/
def Registry.classOf (R : Registry) (b : Block) : Except MappingError ClassDescriptor :=
  match R.blockClass? b with
  | some d => .ok d
  | none =>
    -- of several unknown types the first is named
    match b.types R.context with
    | [] => .error (.missingType b.subject)
    | tag :: _ => .error (.unknownType b.subject tag)

/-- The pairs of a block with the fields they belong to. Types belong to none;
an unmapped predicate is dropped, or refused in strict mode. -/
def Registry.fieldObjects (R : Registry) (strict : Bool) (d : ClassDescriptor) (subject : String) :
    List (String × Object) → Except MappingError (List (FieldDescriptor × Object))
  | [] => .ok []
  | (predicate, object) :: rest =>
    if R.context.expand predicate = Vocabulary.rdfType then
      R.fieldObjects strict d subject rest
    else match d.fieldForPredicate? (R.context.expand predicate) with
      | some f => do
        let l ← R.fieldObjects strict d subject rest
        return (f, object) :: l
      | none =>
        if strict then .error (.unmappedPredicate subject predicate d.name)
        else R.fieldObjects strict d subject rest

/-- The value that objects give a literal field. A reference counts as its
IRI. -/
def FieldDescriptor.literalValue (f : FieldDescriptor) (objects : List Object) : Value :=
  match f.multiplicity with
  | .multi => .strs (objects.map Object.text)
  | .single => .str ((objects.head?.map Object.text).getD "")

/-- The value that decoded entities give an entity field, if any. -/
def FieldDescriptor.entityValue? (f : FieldDescriptor) (children : List Instance) : Option Value :=
  match f.multiplicity with
  | .multi => some (.entities children)
  | .single => children.getLast?.map .entity

/-- The instance of a block before its fields: the class, and the subject in
the identity field. -/
def ClassDescriptor.blank (d : ClassDescriptor) (subject : String) : Instance :=
  match d.identity? with
  | some f => (Instance.new d.name).set f.name (.str subject)
  | none => Instance.new d.name

/-- How to decode one nested subject, given what has been built. -/
abbrev DecodeChild := Progress → String → Except MappingError (Instance × Progress)

/-- Decodes the targets of an entity field in order. A reference to no block of
the document is dropped, or refused in strict mode. -/
def decodeTargets (child : DecodeChild) (strict : Bool) (doc : Document) (subject field : String) :
    Progress → List Object → Except MappingError (List Instance × Progress)
  | p, [] => .ok ([], p)
  | _, .literal _ :: _ => .error (.wrongObject subject field .reference)
  | p, .iri target :: rest =>
    if doc.hasSubject target then do
      -- the child counts against the limit before its later siblings do
      let (c, p) ← child p target
      let (cs, p) ← decodeTargets child strict doc subject field p rest
      return (c :: cs, p)
    else if strict then .error (.unresolvedReference subject field target)
    else decodeTargets child strict doc subject field p rest

/-- Decodes the value of one field. -/
def decodeField (child : DecodeChild) (strict : Bool) (doc : Document) (subject : String)
    (p : Progress) (f : FieldDescriptor) (objects : List Object) :
    Except MappingError (Option Value × Progress) :=
  -- every object counts here, also a reference that would be dropped
  if f.multiplicity = .single ∧ objects.length > 1 then
    .error (.tooManyValues subject f.name f.predicateText objects.length)
  else if f.range? = some .entity then do
    let (children, p) ← decodeTargets child strict doc subject f.name p objects
    return (f.entityValue? children, p)
  else .ok (some (f.literalValue objects), p)

/-- Decodes the fields of a block in order into an instance. -/
def decodeFields (child : DecodeChild) (strict : Bool) (doc : Document) (subject : String) :
    Progress → Instance → List (FieldDescriptor × List Object) →
    Except MappingError (Instance × Progress)
  | p, e, [] => .ok (e, p)
  | p, e, (f, objects) :: rest => do
    let (v?, p) ← decodeField child strict doc subject p f objects
    let e := match v? with
      | some v => e.set f.name v
      | none => e
    decodeFields child strict doc subject p e rest

/-! ## The recursion -/

/-- The number of blocks whose subject is not on the path. -/
def offPath (doc : Document) (path : List String) : Nat :=
  (doc.blocks.filter fun b => !path.contains b.subject).length

/-- Entering a block that is off the path leaves fewer blocks off it. -/
theorem offPath_lt {doc : Document} {path : List String} {subject : String} {b : Block}
    (hb : doc.block? subject = some b) (hp : path.contains subject = false) :
    offPath doc (path ++ [subject]) < offPath doc path := by
  have hmem : b ∈ doc.blocks := List.mem_of_find?_eq_some hb
  have hsub : b.subject = subject := by simpa using List.find?_some hb
  have hp' : subject ∉ path := by simpa using hp
  have hsplit : doc.blocks.filter (fun b => !(path ++ [subject]).contains b.subject) =
      (doc.blocks.filter fun b => !path.contains b.subject).filter
        fun b => b.subject != subject := by
    rw [List.filter_filter]
    refine List.filter_congr fun x _ => ?_
    by_cases h₁ : x.subject ∈ path <;> by_cases h₂ : x.subject = subject <;> simp [h₁, h₂, hp']
  rw [offPath, hsplit]
  refine List.length_filter_lt_length_iff_exists.mpr ⟨b, ?_, by simp [hsub]⟩
  exact List.mem_filter.mpr ⟨hmem, by simpa [hsub] using hp'⟩

namespace Registry

set_option linter.unusedVariables false in
/-- Decodes the block of a subject below the subjects on a path. -/
def decodeAt (R : Registry) (cfg : Config) (doc : Document) (path : List String) (p : Progress)
    (subject : String) : Except MappingError (Instance × Progress) :=
  -- the limits come before the cycle, so that a long cycle is reported as too deep
  if path.length > cfg.maxDepth then .error (.tooDeep subject cfg.maxDepth)
  else if p.built + 1 > cfg.maxNodes then .error (.tooManyEntities subject cfg.maxNodes)
  else if hp : path.contains subject then .error (.cycle subject path)
  else match hb : doc.block? subject with
    | none => .error (.unresolvedReference subject "" subject)
    | some b => do
      let d ← R.classOf b
      let pairs ← R.fieldObjects cfg.strict d subject b.pairs
      let (e, p) ← decodeFields (fun p s => R.decodeAt cfg doc (path ++ [subject]) p s) cfg.strict
        doc subject p.begin (d.blank subject) (groupByKey pairs)
      return (e, p.complete subject)
termination_by offPath doc path
decreasing_by exact offPath_lt hb (by simpa using hp)

/-- Decodes subjects as roots, one after the other. -/
def decodeRoots (R : Registry) (cfg : Config) (doc : Document) :
    Progress → List String → Except MappingError (List Instance × Progress)
  | p, [] => .ok ([], p)
  | p, s :: rest => do
    let (e, p) ← R.decodeAt cfg doc [] p s
    let (es, p) ← R.decodeRoots cfg doc p rest
    return (e :: es, p)

/-- Decodes as roots the subjects that are not completed when their turn
comes. -/
def decodeLeftovers (R : Registry) (cfg : Config) (doc : Document) :
    Progress → List String → Except MappingError (List Instance × Progress)
  | p, [] => .ok ([], p)
  | p, s :: rest =>
    if p.done.contains s then R.decodeLeftovers cfg doc p rest
    else do
      let (e, p) ← R.decodeAt cfg doc [] p s
      let (es, p) ← R.decodeLeftovers cfg doc p rest
      return (e :: es, p)

end Registry

/-- The IRIs that a block of a class holds in entity fields. -/
def ClassDescriptor.targets (ctx : Context) (d : ClassDescriptor) (b : Block) : List String :=
  b.pairs.filterMap fun (predicate, object) =>
    match object with
    | .literal _ => none
    | .iri target =>
      if ((d.fieldForPredicate? (ctx.expand predicate)).bind (·.range?)) = some .entity
      then some target else none

/-- Refuses a document with two blocks for one subject. -/
def Document.checkSubjects (doc : Document) : Except MappingError Unit :=
  match doc.repeatedSubjects with
  | s :: _ => .error (.duplicateSubject s)
  | [] => .ok ()

namespace Registry

/-- The IRIs that the blocks of a document hold in entity fields. -/
def referenced (R : Registry) (doc : Document) : Except MappingError (List String) := do
  let targets ← doc.blocks.mapM fun b => do
    let d ← R.classOf b
    return d.targets R.context b
  return targets.flatten

/-- Decodes the entities of a document that no other entity refers to, each
with all that is nested in it. -/
def decode (R : Registry) (cfg : Config) (doc : Document) :
    Except MappingError (List Instance) := do
  doc.checkSubjects
  -- this needs the class of every block, also of those that are never reached
  let targets ← R.referenced doc
  let (roots, p) ← R.decodeRoots cfg doc .start (doc.subjects.filter (!targets.contains ·))
  -- what no root reaches lies on a cycle or behind one
  let (rest, _) ← R.decodeLeftovers cfg doc p doc.subjects
  return roots ++ rest

/-- Decodes the entity of one subject, if the document has a block for it. -/
def decodeSubject (R : Registry) (cfg : Config) (doc : Document) (subject : String) :
    Except MappingError (Option Instance) := do
  doc.checkSubjects
  if doc.hasSubject subject then do
    let (e, _) ← R.decodeAt cfg doc [] .start subject
    return some e
  else return none

end Registry

end EntityRdf

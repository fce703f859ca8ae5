import EntityRdf.Proofs.BuiltInstance
import EntityRdf.Proofs.OwnBlock

/-!
# Pruning: what an encoding keeps of an instance

Encoding leaves behind the fields that the class of an instance does not map.
`Registry.prune` removes them, in the instance and in what its entity fields
nest. What the encoder looks at is the same before and after: the subject
(`subjectOf_prune`), the nested instances (`nested_prune`) and the block
(`blockOf_prune`).
-/

namespace EntityRdf

namespace Registry

mutual

/-- A value with everything nested in it pruned. -/
def pruneValue (R : Registry) : Value → Value
  | .str s => .str s
  | .strs l => .strs l
  | .entity e => .entity (R.prune e)
  | .entities l => .entities (R.pruneAll l)

/-- The instance without the fields that its class does not map, recursively
through the entity fields. -/
def prune (R : Registry) : Instance → Instance
  | .mk c fields => .mk c (R.pruneFields (R.classes.get? c) fields)

/-- The members of a sequence, pruned. -/
def pruneAll (R : Registry) : List Instance → List Instance
  | [] => []
  | e :: rest => R.prune e :: R.pruneAll rest

/-- The fields that a class has, with entity fields pruned. -/
def pruneFields (R : Registry) (d? : Option ClassDescriptor) :
    List (String × Value) → List (String × Value)
  | [] => []
  | (n, v) :: rest =>
    match d?.bind (·.field? n) with
    | none => R.pruneFields d? rest
    | some f => (n, if f.range? = some .entity then R.pruneValue v else v) :: R.pruneFields d? rest

end

/-- The value of a field, pruned if the field is an entity field. -/
def pruneHeld (R : Registry) (f : FieldDescriptor) (v : Value) : Value :=
  if f.range? = some .entity then R.pruneValue v else v

variable {R : Registry} {e : Instance} {v : Value} {f : FieldDescriptor} {d : ClassDescriptor}
  {n s : String}

/-! ## Values -/

theorem pruneAll_eq_map (R : Registry) (l : List Instance) : R.pruneAll l = l.map R.prune := by
  induction l with
  | nil => rfl
  | cons e rest ih => rw [pruneAll, ih, List.map_cons]

/-- A pruned value nests the pruned instances. -/
theorem nested_pruneValue (R : Registry) (v : Value) :
    (R.pruneValue v).nested = v.nested.map R.prune := by
  cases v with
  | str s => rfl
  | strs l => rfl
  | entity e => rfl
  | entities l => exact R.pruneAll_eq_map l

/-- Pruning neither empties a sequence nor fills one. -/
@[simp] theorem isEmptySequence_pruneHeld (R : Registry) (f : FieldDescriptor) (v : Value) :
    (R.pruneHeld f v).isEmptySequence = v.isEmptySequence := by
  rw [pruneHeld]
  split
  · cases v with
    | entities l => simp [pruneValue, Value.isEmptySequence, pruneAll_eq_map]
    | str s => rfl
    | strs l => rfl
    | entity e => rfl
  · rfl

/-- A value nesting only pruned instances is pruned. -/
theorem pruneValue_eq_self (h : ∀ c ∈ v.nested, R.prune c = c) : R.pruneValue v = v := by
  cases v with
  | str s => rfl
  | strs l => rfl
  | entity e => rw [pruneValue, h e (by simp [Value.nested])]
  | entities l =>
    have hid : l.map R.prune = l.map id := List.map_congr_left h
    rw [pruneValue, pruneAll_eq_map, hid, List.map_id]

/-! ## Lookups -/

@[simp] theorem className_prune (R : Registry) (e : Instance) :
    (R.prune e).className = e.className := by
  cases e
  rfl

/-- A name is kept if the class has a field of that name, with the value pruned where it
is an entity field. -/
theorem lookup_pruneFields (R : Registry) (d? : Option ClassDescriptor)
    (l : List (String × Value)) (n : String) :
    (R.pruneFields d? l).lookup n =
      (d?.bind (·.field? n)).bind fun f => (l.lookup n).map (R.pruneHeld f) := by
  induction l with
  | nil => simp [pruneFields]
  | cons p rest ih =>
    obtain ⟨m, w⟩ := p
    rw [pruneFields]
    -- the head is the binding looked for, or it does not matter whether it is kept
    by_cases hn : n = m
    · subst hn
      cases hf : d?.bind (·.field? n) with
      | none => simp [ih, hf]
      | some f => simp [pruneHeld]
    · rw [List.lookup_cons, beq_false_of_ne hn]
      cases hf : d?.bind (·.field? m) with
      | none => exact ih
      | some f =>
        rw [List.lookup_cons, beq_false_of_ne hn]
        exact ih

/-- The same for the fields of an instance of whatever class. -/
theorem get?_prune (R : Registry) (e : Instance) (n : String) :
    (R.prune e).get? n = ((R.classes.get? e.className).bind (·.field? n)).bind fun f =>
      (e.get? n).map (R.pruneHeld f) := by
  obtain ⟨c, fields⟩ := e
  exact R.lookup_pruneFields (R.classes.get? c) fields n

/-- A field of the class keeps its value, pruned if it is an entity field. -/
theorem get?_prune_field (hclass : R.classes.get? e.className = some d)
    (hd : d.Coherent R.context) (hf : f ∈ d.fields) :
    (R.prune e).get? f.name = (e.get? f.name).map (R.pruneHeld f) := by
  rw [get?_prune, hclass, Option.bind_some, hd.field?_name hf, Option.bind_some]

/-- What a pruned instance holds, it holds in a field of its class. -/
theorem get?_prune_eq_some (h : (R.prune e).get? n = some v) :
    ∃ d f w, R.classes.get? e.className = some d ∧ d.field? n = some f ∧
      e.get? n = some w ∧ v = R.pruneHeld f w := by
  rw [get?_prune] at h
  obtain ⟨f, hf, h⟩ := Option.bind_eq_some_iff.mp h
  obtain ⟨d, hd, hf⟩ := Option.bind_eq_some_iff.mp hf
  obtain ⟨w, hw, rfl⟩ := Option.map_eq_some_iff.mp h
  exact ⟨d, f, w, hd, hf, hw, rfl⟩

/-! ## Canonical instances -/

/-- Pruning only leaves names out. -/
theorem keys_pruneFields (R : Registry) (d? : Option ClassDescriptor)
    (l : List (String × Value)) :
    ((R.pruneFields d? l).map (·.1)).Sublist (l.map (·.1)) := by
  induction l with
  | nil => exact .slnil
  | cons p rest ih =>
    obtain ⟨m, w⟩ := p
    rw [pruneFields]
    cases d?.bind (·.field? m) with
    | none => exact ih.cons _
    | some f => exact ih.cons_cons _

/-- So the names stay in order. -/
theorem increasing_prune (h : Entries.Increasing e.fields) :
    Entries.Increasing (R.prune e).fields := by
  obtain ⟨c, fields⟩ := e
  exact List.pairwise_map.mp ((List.pairwise_map.mpr h).sublist (R.keys_pruneFields _ fields))

/-- Pruning keeps an instance canonical. -/
theorem prune_canonical (h : e.Canonical) : (R.prune e).Canonical := by
  induction h with
  | @intro e order filled deep ih =>
    refine .intro (increasing_prune order) ?_ ?_
    · intro n v hv
      obtain ⟨d, f, w, -, -, hw, rfl⟩ := get?_prune_eq_some hv
      rw [isEmptySequence_pruneHeld]
      exact filled n w hw
    · intro n v hv c hc
      obtain ⟨d, f, w, -, -, hw, rfl⟩ := get?_prune_eq_some hv
      rw [pruneHeld] at hc
      split at hc
      · -- an entity field nests pruned instances, any other field what it nested before
        rw [nested_pruneValue] at hc
        obtain ⟨c', hc', rfl⟩ := List.mem_map.mp hc
        exact ih n w hw c' hc'
      · exact deep n w hw c hc

/-- A canonical instance is pruned, if it holds fields of its class only and its
entity fields nest pruned instances. -/
theorem prune_eq_self (h : e.Canonical) (hclass : R.classes.get? e.className = some d)
    (hfields : ∀ n v, e.get? n = some v → ∃ f, d.field? n = some f ∧
      (f.range? = some .entity → ∀ c ∈ v.nested, R.prune c = c)) : R.prune e = e := by
  -- both are canonical, so it is enough to compare lookups
  refine (prune_canonical h).ext h (R.className_prune e) fun n => ?_
  rw [get?_prune, hclass, Option.bind_some]
  cases hv : e.get? n with
  | none => simp
  | some v =>
    obtain ⟨f, hf, hkids⟩ := hfields n v hv
    rw [hf, Option.bind_some, Option.map_some, pruneHeld]
    split
    · rename_i hr
      rw [pruneValue_eq_self (hkids hr)]
    · rfl

/-! ## What the encoder sees -/

/-- The encoder finds in a pruned instance the pruned instances that it found before. -/
theorem nested_prune (hR : R.Coherent) (e : Instance) :
    R.nested (R.prune e) = (R.nested e).map R.prune := by
  cases hclass : R.classes.get? e.className with
  | none => simp [nested, hclass]
  | some d =>
    have hfield : ∀ f ∈ d.predicateFields,
        (if f.range? = some .entity then
          (((R.prune e).get? f.name).map Value.nested).getD [] else []) =
        (if f.range? = some .entity then
          ((e.get? f.name).map Value.nested).getD [] else []).map R.prune := by
      intro f hf
      -- only entity fields are looked into, by the encoder as by pruning
      by_cases hr : f.range? = some .entity
      · rw [if_pos hr, if_pos hr,
          get?_prune_field hclass (hR.fields hclass) (ClassDescriptor.mem_predicateFields.mp hf).1]
        cases e.get? f.name with
        | none => rfl
        | some v =>
          rw [Option.map_some, pruneHeld, if_pos hr]
          exact R.nested_pruneValue v
      · rw [if_neg hr, if_neg hr]
        rfl
    rw [nested_eq hclass, nested_eq (by rwa [className_prune]), ClassDescriptor.nestedIn,
      ClassDescriptor.nestedIn, List.map_flatMap]
    exact List.flatMap_congr hfield

/-- Pruning leaves the identity as it is. -/
theorem classSubject_prune (hR : R.Coherent) (hclass : R.classes.get? e.className = some d) :
    d.subjectOf (R.prune e) = d.subjectOf e := by
  rw [ClassDescriptor.subjectOf, ClassDescriptor.subjectOf]
  cases hid : d.identity? with
  | none => rfl
  | some f =>
    -- the identity is no entity field, so its value stays as it is
    have hf : f ∈ d.fields := List.mem_of_find?_eq_some hid
    have hmapping : f.isIdentity = true := List.find?_some hid
    have hr : f.range? ≠ some .entity := by
      have hm : f.mapping = .identity := by simpa [FieldDescriptor.isIdentity] using hmapping
      simp [FieldDescriptor.range?, hm]
    have hget : (R.prune e).get? f.name = e.get? f.name := by
      rw [get?_prune_field hclass (hR.fields hclass) hf]
      have hsame : R.pruneHeld f = id := funext fun v => if_neg hr
      rw [hsame, Option.map_id]
      rfl
    simp only [Instance.getStr?, hget]

/-- Pruning leaves the subject as it is, or the error for want of one. -/
theorem subjectOf_prune (hR : R.Coherent) (e : Instance) :
    R.subjectOf (R.prune e) = R.subjectOf e := by
  rw [subjectOf, subjectOf, className_prune, describe]
  cases hclass : R.classes.get? e.className with
  | none => rfl
  | some d => exact classSubject_prune hR hclass

/-- A field contributes the same pairs, or fails in the same way. -/
theorem fieldPairs_prune (hR : R.Coherent) (hclass : R.classes.get? e.className = some d)
    (hf : f ∈ d.fields) (s : String) :
    R.fieldPairs s (R.prune e) f = R.fieldPairs s e f := by
  rw [fieldPairs, fieldPairs, get?_prune_field hclass (hR.fields hclass) hf]
  cases e.get? f.name with
  | none => rfl
  | some v =>
    show R.valuePairs s f (R.pruneHeld f v) = R.valuePairs s f v
    rw [pruneHeld]
    split
    · rename_i hr
      have hsubjects : ∀ l : List Instance,
          (l.map R.prune).mapM R.subjectOf = l.mapM R.subjectOf := by
        intro l
        rw [List.mapM_map]
        exact mapM_congr fun c _ => subjectOf_prune hR c
      -- the shape of a value is that of the pruned value, and so is the error if it is wrong
      have hentities : f.entitiesOf s (R.pruneValue v) =
          (f.entitiesOf s v).map (·.map R.prune) := by
        cases v <;> cases hm : f.multiplicity <;>
          simp [FieldDescriptor.entitiesOf, FieldDescriptor.sequenceError, pruneValue,
            pruneAll_eq_map, hm, Except.map]
      rw [FieldDescriptor.range?] at hr
      rw [valuePairs, valuePairs]
      cases hm : f.mapping with
      | identity => rfl
      | predicate iri range =>
        rw [hm] at hr
        obtain rfl := Option.some.inj hr
        rw [hentities]
        cases f.entitiesOf s v with
        | error err => rfl
        | ok l =>
          show (do let targets ← (l.map R.prune).mapM R.subjectOf; pure _) = _
          rw [hsubjects]
          rfl
    · rfl

/-- The fields together make the same block, or fail in the same way. -/
theorem ownBlock_prune (hR : R.Coherent) (hclass : R.classes.get? e.className = some d)
    (s : String) : R.ownBlock d s (R.prune e) = R.ownBlock d s e := by
  have hpairs : d.predicateFields.mapM (R.fieldPairs s (R.prune e)) =
      d.predicateFields.mapM (R.fieldPairs s e) := by
    refine mapM_congr fun f hf => ?_
    exact fieldPairs_prune hR hclass (ClassDescriptor.mem_predicateFields.mp hf).1 s
  rw [ownBlock, ownBlock, hpairs]

/-- The block of an instance is that of the pruned instance. -/
theorem blockOf_prune (hR : R.Coherent) (e : Instance) :
    R.blockOf (R.prune e) = R.blockOf e := by
  rw [blockOf, blockOf, className_prune, describe]
  cases hclass : R.classes.get? e.className with
  | none => rfl
  | some d => simp only [ok_bind, classSubject_prune hR hclass, ownBlock_prune hR hclass]

end Registry

end EntityRdf

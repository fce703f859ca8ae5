import EntityRdf.Proofs.DocumentDecoding

/-!
# Fields that are mapped to the type predicate

Nothing forbids to map a field to the type predicate. Such a field is written, but it
is never read: the decoder takes every pair with the type predicate for a type.
`Registry.leaveTypes` is the registry without these fields. It decodes every subject
in the same way, errors included (`decodeAt_leaveTypes`), and what is known of
registries that leave types alone holds of it (`leaveTypes_leavesTypes`).

What remains of such a field is a trace in the references of a document
(`Registry.referenced`): a type that happens to name a subject counts as a reference
to it.
-/

namespace EntityRdf

/-- The class without the fields that are mapped to the type predicate. -/
def ClassDescriptor.leaveTypes (d : ClassDescriptor) : ClassDescriptor :=
  { d with fields := d.fields.filter fun f => f.expanded != some Vocabulary.rdfType }

/-- The registry without the fields that are mapped to the type predicate. -/
def Registry.leaveTypes (R : Registry) : Registry :=
  { R with classes := R.classes.map ClassDescriptor.leaveTypes }

/-- Dropping elements that a search passes over does not change what it finds. -/
theorem find?_filter_of_imp {α : Type*} {p q : α → Bool} {l : List α}
    (h : ∀ a ∈ l, q a = true → p a = true) : (l.filter p).find? q = l.find? q := by
  induction l with
  | nil => rfl
  | cons a rest ih =>
    obtain ⟨ha, hrest⟩ := List.forall_mem_cons.mp h
    by_cases hq : q a = true
    · rw [List.filter_cons_of_pos (ha hq), List.find?_cons_of_pos hq, List.find?_cons_of_pos hq]
    · rw [List.find?_cons_of_neg hq, ← ih hrest]
      by_cases hp : p a = true
      · rw [List.filter_cons_of_pos hp, List.find?_cons_of_neg hq]
      · rw [List.filter_cons_of_neg hp]

/-! ## One class -/

namespace ClassDescriptor

variable {ctx : Context} {d : ClassDescriptor} {f : FieldDescriptor} {iri : String}

/-- The fields that stay are mapped to other predicates, or are the identity. -/
theorem mem_leaveTypes :
    f ∈ d.leaveTypes.fields ↔ f ∈ d.fields ∧ f.expanded ≠ some Vocabulary.rdfType := by
  unfold leaveTypes
  rw [List.mem_filter, bne_iff_ne]

/-- Names and predicates that differ still differ among fewer fields. -/
theorem Coherent.leaveTypes (hd : d.Coherent ctx) : d.leaveTypes.Coherent ctx := by
  refine ⟨hd.names.filter _, hd.predicates.filter _, ?_⟩
  intro f hf
  exact hd.expanded f (mem_leaveTypes.mp hf).1

/-- Every other predicate keeps its field. -/
theorem fieldForPredicate?_leaveTypes (h : iri ≠ Vocabulary.rdfType) :
    d.leaveTypes.fieldForPredicate? iri = d.fieldForPredicate? iri := by
  refine find?_filter_of_imp fun f _ hf => ?_
  obtain hf : f.expanded = some iri := by simpa using hf
  simp [hf, h]

/-- No field reads the type predicate. -/
theorem fieldForPredicate?_leaveTypes_type (d : ClassDescriptor) :
    d.leaveTypes.fieldForPredicate? Vocabulary.rdfType = none := by
  refine List.find?_eq_none.mpr fun f hf => ?_
  simpa using (mem_leaveTypes.mp hf).2

/-- The identity has no predicate, so it stays. -/
theorem identity?_leaveTypes (hd : d.Coherent ctx) : d.leaveTypes.identity? = d.identity? := by
  refine find?_filter_of_imp fun f hf hid => ?_
  simp [(hd.expanded_eq_none_iff hf).mpr hid]

/-- The identity is no mapped field, so a new instance has it as before. -/
theorem blank_leaveTypes (hd : d.Coherent ctx) (s : String) :
    d.leaveTypes.blank s = d.blank s := by
  unfold blank
  rw [identity?_leaveTypes hd]
  rfl

end ClassDescriptor

/-! ## The registry -/

namespace Registry

open ClassDescriptor

variable {R : Registry} {cfg : Config} {doc : Document} {path : List String} {p : Progress}
  {s : String} {b : Block} {d : ClassDescriptor}

@[simp] theorem context_leaveTypes (R : Registry) : R.leaveTypes.context = R.context := rfl

/-- The classes are registered under the names that they had. -/
theorem get?_leaveTypes (R : Registry) (c : String) :
    R.leaveTypes.classes.get? c = (R.classes.get? c).map ClassDescriptor.leaveTypes :=
  StringMap.get?_map ..

/-- The registry stays coherent: tags are as they were, and so is what is expanded. -/
theorem leaveTypes_coherent (hR : R.Coherent) : R.leaveTypes.Coherent := by
  have hclass : ∀ {c d}, R.leaveTypes.classes.get? c = some d →
      ∃ d', R.classes.get? c = some d' ∧ d'.leaveTypes = d := by
    intro c d hd
    rw [get?_leaveTypes] at hd
    exact Option.map_eq_some_iff.mp hd
  refine ⟨fun hd => ?_, fun hd => ?_, fun hd => ?_⟩
  · obtain ⟨d', hd', rfl⟩ := hclass hd
    show d'.name = _
    exact hR.named hd'
  · obtain ⟨d', hd', rfl⟩ := hclass hd
    exact (hR.fields hd').leaveTypes
  · obtain ⟨d', hd', rfl⟩ := hclass hd
    show R.owners.get? (R.context.expand d'.tag) = _
    exact hR.owned hd'

/-- What is left has no field for the type predicate. -/
theorem leaveTypes_leavesTypes (hR : R.Coherent) : R.leaveTypes.LeavesTypes := by
  intro d hd f hf iri hiri htype
  obtain ⟨c, hc⟩ := mem_classList.mp hd
  have hexp := ((leaveTypes_coherent hR).fields hc).expanded f hf
  rw [get?_leaveTypes] at hc
  obtain ⟨d', -, rfl⟩ := Option.map_eq_some_iff.mp hc
  refine (mem_leaveTypes.mp hf).2 ?_
  rw [hexp, FieldDeclaration.expandedIn]
  -- only a mapped field has a predicate
  cases hm : f.mapping with
  | identity => simp [FieldDescriptor.predicate?, hm] at hiri
  | predicate iri' range =>
    obtain rfl : iri' = iri := by simpa [FieldDescriptor.predicate?, hm] using hiri
    exact congrArg some htype

/-! ## Blocks -/

theorem blockClass?_leaveTypes (R : Registry) (b : Block) :
    R.leaveTypes.blockClass? b = (R.blockClass? b).map ClassDescriptor.leaveTypes := by
  have htag : R.leaveTypes.classForTag? =
      fun tag => (R.classForTag? tag).map ClassDescriptor.leaveTypes := by
    funext tag
    unfold classForTag?
    show (R.owners.get? (R.context.expand tag)).bind R.leaveTypes.classes.get? = _
    cases R.owners.get? (R.context.expand tag) with
    | none => rfl
    | some c => exact get?_leaveTypes R c
  unfold blockClass?
  rw [context_leaveTypes, htag]
  induction b.types R.context with
  | nil => rfl
  | cons tag rest ih =>
    rw [List.findSome?_cons, List.findSome?_cons, ih]
    cases R.classForTag? tag <;> rfl

/-- A block is taken for the same class, or fails in the same way. -/
theorem classOf_leaveTypes (R : Registry) (b : Block) :
    R.leaveTypes.classOf b = (R.classOf b).map ClassDescriptor.leaveTypes := by
  unfold classOf
  rw [blockClass?_leaveTypes, context_leaveTypes]
  cases R.blockClass? b with
  | some d => rfl
  | none => cases b.types R.context <;> rfl

/-- Types belong to no field anyway. -/
theorem fieldObjects_leaveTypes (R : Registry) (strict : Bool) (d : ClassDescriptor) (s : String)
    (l : List (String × Object)) :
    R.leaveTypes.fieldObjects strict d.leaveTypes s l = R.fieldObjects strict d s l := by
  induction l with
  | nil => rfl
  | cons q rest ih =>
    obtain ⟨iri, o⟩ := q
    rw [fieldObjects, fieldObjects, context_leaveTypes, ih]
    by_cases hiri : R.context.expand iri = Vocabulary.rdfType
    · rw [if_pos hiri, if_pos hiri]
    · rw [if_neg hiri, if_neg hiri, fieldForPredicate?_leaveTypes hiri]
      rfl

/-! ## Runs -/

/-- Without the fields that are mapped to the type predicate every subject is decoded
in the same way. -/
theorem decodeAt_leaveTypes (hR : R.Coherent) :
    R.leaveTypes.decodeAt cfg doc path p s = R.decodeAt cfg doc path p s := by
  -- on the number of blocks off the path, as the recursion itself
  induction hoff : offPath doc path using Nat.strongRecOn generalizing path p s with
  | ind off ih =>
    rw [decodeAt, decodeAt]
    split
    · rfl
    split
    · rfl
    split
    · rfl
    rename_i hpath
    split
    · rfl
    rename_i b hb
    have hchild : (fun p t => R.leaveTypes.decodeAt cfg doc (path ++ [s]) p t) =
        fun p t => R.decodeAt cfg doc (path ++ [s]) p t := by
      funext p' t
      exact ih _ (hoff ▸ offPath_lt hb (by simpa using hpath)) rfl
    rw [classOf_leaveTypes, hchild]
    cases hclass : R.classOf b with
    | error err => rfl
    | ok d =>
      have hd : d.Coherent R.context := hR.fields (hR.get?_of_blockClass? (classOf_eq_ok.mp hclass))
      show (R.leaveTypes.fieldObjects cfg.strict d.leaveTypes s b.pairs >>= _) = _
      rw [fieldObjects_leaveTypes, blank_leaveTypes hd]
      rfl

/-- A run over given subjects is one run over each of them. -/
theorem decodeRoots_leaveTypes (hR : R.Coherent) (l : List String) :
    R.leaveTypes.decodeRoots cfg doc p l = R.decodeRoots cfg doc p l := by
  induction l generalizing p with
  | nil => rfl
  | cons s rest ih =>
    rw [decodeRoots, decodeRoots, decodeAt_leaveTypes hR]
    simp only [ih]

/-- The subjects that are left over are those that no run has reached, which are the
same. -/
theorem decodeLeftovers_leaveTypes (hR : R.Coherent) (l : List String) :
    R.leaveTypes.decodeLeftovers cfg doc p l = R.decodeLeftovers cfg doc p l := by
  induction l generalizing p with
  | nil => rfl
  | cons s rest ih =>
    rw [decodeLeftovers, decodeLeftovers, decodeAt_leaveTypes hR]
    simp only [ih]

end Registry

end EntityRdf

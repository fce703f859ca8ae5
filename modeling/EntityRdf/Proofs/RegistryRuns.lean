import EntityRdf.Conformance.Registry
import EntityRdf.Proofs.Registration

/-!
# Registries between any two registrations

`Registry.Coherent` is what encoding and decoding need of a registry. This module adds
what can be said of the record itself. The index of tags is exact in both directions
(`Registry.Indexed`), so that a lookup by tag finds a class exactly when the expanded
tags agree. And a registry only grows (`Registry.Extends`): no registration takes a
class, a tag or a field back. Both hold of what a registration leaves, refused or not;
that a refused one leaves just what was there is `register_refused`.

The checks on a registry ask for much of this again. Two of the four can therefore
never fail, and a third fails only for want of an identity field.

Main result: `registrations_keep_consistency`.
-/

namespace EntityRdf

/-! ## Keys that occur once -/

/-- The entries have a repeated key unless their keys are all different. -/
theorem repeatedKeys_eq_nil {l : List (String × String)} :
    repeatedKeys l = [] ↔ (l.map (·.1)).Nodup := by
  -- with some entries seen before, the keys must differ from theirs as well
  have hgo : ∀ seen, repeatedKeys.go seen l = [] ↔
      (l.map (·.1)).Nodup ∧ ∀ e ∈ l, seen.lookup e.1 = none := by
    induction l with
    | nil => simp [repeatedKeys.go]
    | cons e rest ih =>
      obtain ⟨key, name⟩ := e
      intro seen
      rw [repeatedKeys.go, List.map_cons, List.nodup_cons, List.forall_mem_cons]
      cases hseen : seen.lookup key with
      | some earlier => simp
      | none =>
        have hlookup : ∀ e : String × String,
            ((key, name) :: seen).lookup e.1 = none ↔ e.1 ≠ key ∧ seen.lookup e.1 = none := by
          intro e
          by_cases hkey : e.1 = key
          · simp [hkey]
          · rw [List.lookup_cons, beq_false_of_ne hkey]
            simp only [hkey, ne_eq, not_false_eq_true, true_and]
        simp only [ih, hlookup]
        constructor
        · rintro ⟨hnodup, hrest⟩
          refine ⟨⟨fun hmem => ?_, hnodup⟩, trivial, fun e he => (hrest e he).2⟩
          obtain ⟨e, he, heq⟩ := List.mem_map.mp hmem
          exact (hrest e he).1 heq
        · rintro ⟨⟨hnew, hnodup⟩, -, hrest⟩
          refine ⟨hnodup, fun e he => ⟨fun heq => hnew ?_, hrest e he⟩⟩
          exact List.mem_map.mpr ⟨e, he, heq⟩
  rw [repeatedKeys, hgo]
  simp

namespace Registry

variable {R R' : Registry} {r : Registration} {c tag : String} {d d' : ClassDescriptor}
  {refusal? : Option MappingError}

/-! ## The index of tags -/

/-- The index says of each class what its expanded tag is, and nothing else. -/
def Indexed (R : Registry) : Prop :=
  ∀ tag c, R.owners.get? tag = some c ↔
    ∃ d, R.classes.get? c = some d ∧ R.context.expand d.tag = tag

theorem empty_indexed (ctx : Context) : (empty ctx).Indexed := by
  intro tag c
  simp [empty]

/-- A class is indexed by its tag in the same step as it is added. -/
theorem registerClass_indexed (hR : R.Indexed) (h : R.registerClass c tag = (R', refusal?)) :
    R'.Indexed := by
  obtain rfl | ⟨-, hclass, hown, rfl⟩ := registerClass_cases h
  · exact hR
  intro tag' c'
  -- the new class is the only one with its name, and the only one with its tag
  by_cases hc : c' = c
  · subst hc
    rw [StringMap.get?_insert_self]
    constructor
    · intro howner
      rcases StringMap.get?_insert_cases howner with ⟨rfl, -⟩ | howner
      · exact ⟨_, rfl, rfl⟩
      · obtain ⟨d, hd, -⟩ := (hR tag' c').mp howner
        rw [hclass] at hd
        cases hd
    · rintro ⟨d, hd, rfl⟩
      obtain rfl := Option.some.inj hd
      exact StringMap.get?_insert_self ..
  · rw [StringMap.get?_insert_of_ne _ hc]
    refine Iff.trans ?_ (hR tag' c')
    by_cases htag : tag' = R.context.expand tag
    · rw [htag, StringMap.get?_insert_self, hown]
      simpa using Ne.symm hc
    · rw [StringMap.get?_insert_of_ne _ htag]

/-- A field changes no tag. -/
theorem registerField_indexed {f : FieldDeclaration} (hR : R.Indexed)
    (h : R.registerField c f = (R', refusal?)) : R'.Indexed := by
  obtain ⟨-, -, rfl⟩ | ⟨d, d', hd, hadd, rfl⟩ := registerField_cases h
  · exact hR
  obtain ⟨-, htag, -⟩ := addField_extends hadd
  intro tag' c'
  refine (hR tag' c').trans ?_
  by_cases hc : c' = c
  · subst hc
    simp [hd, htag]
  · rw [StringMap.get?_insert_of_ne _ hc]

/-- One registration keeps the index exact. -/
theorem register_indexed (hR : R.Indexed) (h : R.register r = (R', refusal?)) :
    R'.Indexed := by
  cases r with
  | classTag c tag => exact registerClass_indexed hR h
  | classField c f => exact registerField_indexed hR h

/-! ## Growth -/

/-- The second registry has grown out of the first: every class is still there under
its tag, its fields stand in front of any new ones, and tags have kept their owners. -/
structure Extends (R R' : Registry) : Prop where
  context : R'.context = R.context
  classes : ∀ c d, R.classes.get? c = some d → ∃ d', R'.classes.get? c = some d' ∧
    d'.name = d.name ∧ d'.tag = d.tag ∧ d.fields <+: d'.fields
  owners : ∀ tag c, R.owners.get? tag = some c → R'.owners.get? tag = some c

theorem Extends.refl (R : Registry) : R.Extends R :=
  ⟨rfl, fun _ d hd => ⟨d, hd, rfl, rfl, List.prefix_refl _⟩, fun _ _ h => h⟩

/-- A class that is added was not there, so what was there stays. -/
theorem registerClass_extends (h : R.registerClass c tag = (R', refusal?)) : R.Extends R' := by
  obtain rfl | ⟨-, hclass, hown, rfl⟩ := registerClass_cases h
  · exact .refl R'
  refine ⟨rfl, fun c' d hd => ⟨d, ?_, rfl, rfl, List.prefix_refl _⟩, fun tag' c' howner => ?_⟩
  · -- the new name was free, and so was the new tag
    have hne : c' ≠ c := by
      rintro rfl
      rw [hclass] at hd
      cases hd
    exact (StringMap.get?_insert_of_ne _ hne _).trans hd
  · have hne : tag' ≠ R.context.expand tag := by
      rintro rfl
      rw [hown] at howner
      cases howner
    exact (StringMap.get?_insert_of_ne _ hne _).trans howner

/-- A field is appended to those of its class. -/
theorem registerField_extends {f : FieldDeclaration}
    (h : R.registerField c f = (R', refusal?)) : R.Extends R' := by
  obtain ⟨-, -, rfl⟩ | ⟨d, d', hd, hadd, rfl⟩ := registerField_cases h
  · exact .refl R'
  refine ⟨rfl, fun c' e he => ?_, fun _ _ h => h⟩
  by_cases hc : c' = c
  · subst hc
    obtain rfl := Option.some.inj (hd.symm.trans he)
    exact ⟨d', StringMap.get?_insert_self .., addField_extends hadd⟩
  · exact ⟨e, (StringMap.get?_insert_of_ne _ hc _).trans he, rfl, rfl, List.prefix_refl _⟩

/-- A registration only adds to the registry. -/
theorem register_extends (h : R.register r = (R', refusal?)) : R.Extends R' := by
  cases r with
  | classTag c tag => exact registerClass_extends h
  | classField c f => exact registerField_extends h

/-! ## Runs -/

/-- One registration more at the end of a run. -/
theorem run_append_singleton (R : Registry) (rs : List Registration) (r : Registration) :
    R.run (rs ++ [r]) = ((R.run rs).register r).1 := by
  unfold run
  rw [List.foldl_append]
  rfl

/-- A run keeps the index, whatever is refused on the way. -/
theorem run_indexed (hR : R.Indexed) (rs : List Registration) : (R.run rs).Indexed :=
  run_induction hR register_indexed rs

/-! ## Consistent registries -/

/-- What the record of a registry says is consistent. -/
structure Consistent (R : Registry) : Prop where
  /-- Different classes have different tags, in whatever spelling. -/
  tags : ∀ c d c' d', R.classes.get? c = some d → R.classes.get? c' = some d' →
    R.context.expand d.tag = R.context.expand d'.tag → c = c'
  /-- The index holds the expanded tag of each class and nothing else. -/
  index : R.Indexed
  /-- A tag finds the class that has it, in whatever spelling. -/
  found : ∀ c d tag, R.classes.get? c = some d →
    (R.classForTag? tag = some d ↔ R.context.expand tag = R.context.expand d.tag)
  /-- No two fields of a class share a name. -/
  names : ∀ d ∈ R.classList, d.fields.Pairwise fun f g => f.name ≠ g.name
  /-- No two fields of a class share an expanded predicate. -/
  predicates : ∀ d ∈ R.classList, d.fields.Pairwise fun f g =>
    ∀ iri, f.expanded = some iri → g.expanded ≠ some iri
  /-- A class has at most one identity field. -/
  identity : ∀ d ∈ R.classList, (d.fields.filter (·.isIdentity)).length ≤ 1
  /-- A field for a predicate records its expansion, the identity records none. -/
  expanded : ∀ d ∈ R.classList, ∀ f ∈ d.fields,
    match f.mapping with
    | .identity => f.expanded = none
    | .predicate iri _ => f.expanded = some (R.context.expand iri)

end Registry

/-- The identity fields of a class are those without a predicate, of which there is at
most one. -/
theorem ClassDescriptor.Coherent.length_identities {ctx : Context} {d : ClassDescriptor}
    (hd : d.Coherent ctx) : (d.fields.filter (·.isIdentity)).length ≤ 1 := by
  have hpairs : (d.fields.filter (·.isIdentity)).Pairwise fun f g => f.expanded ≠ g.expanded :=
    hd.predicates.filter _
  have hnone : ∀ f ∈ d.fields.filter (·.isIdentity), f.expanded = none := by
    intro f hf
    obtain ⟨hmem, hid⟩ := List.mem_filter.mp hf
    exact (hd.expanded_eq_none_iff hmem).mpr hid
  -- two of them would have the same predicate, namely none
  generalize d.fields.filter (·.isIdentity) = ids at hpairs hnone
  match ids with
  | [] => exact Nat.zero_le 1
  | [f] => exact Nat.le_refl 1
  | f :: g :: rest =>
    refine absurd ?_ ((List.pairwise_cons.mp hpairs).1 g (by simp))
    rw [hnone f (by simp), hnone g (by simp)]

namespace Registry

variable {R : Registry} {d : ClassDescriptor}

/-- Each class of a coherent registry is coherent. -/
theorem Coherent.class_coherent (hR : R.Coherent) (hd : d ∈ R.classList) :
    d.Coherent R.context := by
  obtain ⟨c, hc⟩ := mem_classList.mp hd
  exact hR.fields hc

/-- Coherence is about lookups by name. With the index it gives the same for the listed
classes. -/
theorem consistent_of_coherent (hR : R.Coherent) (hindex : R.Indexed) : R.Consistent where
  tags := by
    -- a tag is owned by one class
    intro c d c' d' hd hd' htag
    have howner := hR.owned hd
    rw [htag, hR.owned hd'] at howner
    exact (Option.some.inj howner).symm
  index := hindex
  found := by
    intro c d tag hd
    -- a tag leads to its owner, which the index records
    rw [classForTag?, Option.bind_eq_some_iff]
    constructor
    · rintro ⟨c', howner, hd'⟩
      obtain ⟨d', hd'', htag⟩ := (hindex _ c').mp howner
      obtain rfl := Option.some.inj (hd'.symm.trans hd'')
      exact htag.symm
    · intro htag
      exact ⟨c, (hindex _ c).mpr ⟨d, hd, htag.symm⟩, hd⟩
  names := fun d hd => (hR.class_coherent hd).names
  predicates := by
    intro d hd
    refine (hR.class_coherent hd).predicates.imp ?_
    intro f g hne iri hf hg
    exact hne (hf.trans hg.symm)
  identity := fun d hd => (hR.class_coherent hd).length_identities
  expanded := by
    intro d hd f hf
    have hexp := (hR.class_coherent hd).expanded f hf
    rw [FieldDeclaration.expandedIn] at hexp
    cases hm : f.mapping with
    | identity => rwa [hm] at hexp
    | predicate iri range => rwa [hm] at hexp

/-! ## The checks on a registry -/

/-- Classes never share a tag. -/
theorem Consistent.sharedTags_eq_nil (h : R.Consistent) : R.sharedTags = [] := by
  rw [sharedTags, List.map_eq_nil_iff, repeatedKeys_eq_nil, List.map_map, classList,
    StringMap.values, List.map_map, List.Nodup, List.pairwise_map]
  -- classes are listed by name, without repetition
  refine R.classes.increasing.imp_of_mem fun {e e'} he he' hlt heq => ?_
  have hname : e.1 = e'.1 :=
    h.tags e.1 e.2 e'.1 e'.2 ((StringMap.get?_eq_some_iff _).mpr he)
      ((StringMap.get?_eq_some_iff _).mpr he') heq
  exact String.lt_irrefl e'.1 (hname ▸ hlt)

/-- Fields of a class never share a predicate. -/
theorem Consistent.sharedPredicates_eq_nil (h : R.Consistent) (hd : d ∈ R.classList) :
    d.sharedPredicates = [] := by
  have hkeys : (d.predicateFields.filterMap fun f => f.expanded.map (·, f.name)).map (·.1) =
      d.predicateFields.filterMap (·.expanded) := by
    rw [List.map_filterMap]
    refine List.filterMap_congr fun f _ => ?_
    cases f.expanded <;> rfl
  rw [ClassDescriptor.sharedPredicates, List.map_eq_nil_iff, repeatedKeys_eq_nil, hkeys,
    List.Nodup, List.pairwise_filterMap]
  refine ((h.predicates d hd).filter _).imp ?_
  intro f g hne iri hf iri' hg heq
  exact hne iri hf (heq ▸ hg)

/-- A class lacks one identity field only by having none. -/
theorem Consistent.classesWithoutIdentity_eq_nil (h : R.Consistent) :
    R.classesWithoutIdentity = [] ↔
      ∀ d ∈ R.classList, ∃ f ∈ d.fields, f.isIdentity = true := by
  rw [classesWithoutIdentity, List.map_eq_nil_iff, List.filter_eq_nil_iff]
  refine forall₂_congr fun d hd => ?_
  have hle := h.identity d hd
  rw [decide_eq_true_eq, Decidable.not_not]
  constructor
  · intro hone
    obtain ⟨f, hf⟩ := List.exists_mem_of_length_pos (hone ▸ Nat.one_pos)
    exact ⟨f, List.mem_filter.mp hf⟩
  · rintro ⟨f, hf⟩
    have hpos : 0 < (d.fields.filter (·.isIdentity)).length :=
      List.length_pos_of_mem (List.mem_filter.mpr hf)
    omega

@[simp] theorem check_checkIdentity (R : Registry) :
    R.checkIdentity.check = "registry/identity" := by
  unfold checkIdentity
  split <;> rfl

@[simp] theorem check_checkTags (R : Registry) : R.checkTags.check = "registry/tags" := by
  unfold checkTags
  split <;> rfl

@[simp] theorem check_checkPredicates (R : Registry) :
    R.checkPredicates.check = "registry/predicates" := by
  unfold checkPredicates
  split <;> rfl

@[simp] theorem check_checkContext (R : Registry) :
    R.checkContext.check = "registry/context" := by
  unfold checkContext
  split <;> rfl

/-- Each check of a registry is reported under its name. -/
theorem failed_validate (R : Registry) :
    R.validate.failed "registry/identity" = R.checkIdentity.isFailure ∧
    R.validate.failed "registry/tags" = R.checkTags.isFailure ∧
    R.validate.failed "registry/predicates" = R.checkPredicates.isFailure := by
  simp [Report.failed, Report.ofCheck, validate]

theorem isFailure_checkTags : R.checkTags.isFailure = true ↔ R.sharedTags ≠ [] := by
  unfold checkTags
  cases R.sharedTags <;> simp [Finding.isFailure, Finding.pass, Finding.fail]

theorem isFailure_checkPredicates :
    R.checkPredicates.isFailure = true ↔ ∃ d ∈ R.classList, d.sharedPredicates ≠ [] := by
  have hnil : R.classList.flatMap ClassDescriptor.sharedPredicates ≠ [] ↔
      ∃ d ∈ R.classList, d.sharedPredicates ≠ [] := by
    simp [List.flatMap_eq_nil_iff]
  rw [← hnil]
  unfold checkPredicates
  cases R.classList.flatMap ClassDescriptor.sharedPredicates <;>
    simp [Finding.isFailure, Finding.pass, Finding.fail]

theorem isFailure_checkIdentity :
    R.checkIdentity.isFailure = true ↔ R.classesWithoutIdentity ≠ [] := by
  unfold checkIdentity
  cases R.classesWithoutIdentity <;> simp [Finding.isFailure, Finding.pass, Finding.fail]

/-! ## Every run -/

/-- Whatever registrations a registry has seen, refused ones included, its record is
consistent. The run goes on with what one more registration leaves: the registry as it
was, if it is refused, and else one that has only grown. So of the checks on the
registry, those for tags and for predicates never fail, and the one for identities fails
exactly if some class has no identity field. -/
theorem registrations_keep_consistency (ctx : Context) (rs : List Registration) :
    ((empty ctx).run rs).Consistent ∧
    (∀ r, match ((empty ctx).run rs).register r with
      | (R', some _) => (empty ctx).run (rs ++ [r]) = R' ∧ R' = (empty ctx).run rs
      | (R', none) => (empty ctx).run (rs ++ [r]) = R' ∧ ((empty ctx).run rs).Extends R') ∧
    ((empty ctx).run rs).validate.failed "registry/tags" = false ∧
    ((empty ctx).run rs).validate.failed "registry/predicates" = false ∧
    (((empty ctx).run rs).validate.failed "registry/identity" = true ↔
      ∃ d ∈ ((empty ctx).run rs).classList, ∀ f ∈ d.fields, f.isIdentity = false) := by
  have hconsistent : ((empty ctx).run rs).Consistent :=
    consistent_of_coherent (run_coherent (empty_coherent ctx) rs) (run_indexed (empty_indexed ctx) rs)
  refine ⟨hconsistent, fun r => ?_, ?_⟩
  · rw [run_append_singleton]
    rcases h : ((empty ctx).run rs).register r with ⟨R', _ | err⟩
    · exact ⟨rfl, register_extends h⟩
    · exact ⟨rfl, register_refused h⟩
  · generalize (empty ctx).run rs = R at hconsistent
    obtain ⟨hidentity, htags, hpredicates⟩ := failed_validate R
    rw [hidentity, htags, hpredicates]
    refine ⟨?_, ?_, ?_⟩
    · rw [← Bool.not_eq_true, isFailure_checkTags, Decidable.not_not]
      exact hconsistent.sharedTags_eq_nil
    · rw [← Bool.not_eq_true, isFailure_checkPredicates]
      rintro ⟨d, hd, hshared⟩
      exact hshared (hconsistent.sharedPredicates_eq_nil hd)
    · rw [isFailure_checkIdentity, Ne, hconsistent.classesWithoutIdentity_eq_nil]
      simp only [not_forall, not_exists, not_and, Bool.not_eq_true, exists_prop]

end Registry

end EntityRdf

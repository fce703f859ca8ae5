import EntityRdf.Decoding
import EntityRdf.Proofs.Fallible
import EntityRdf.Proofs.Registration
import Mathlib.Data.List.Induction
import Mathlib.Data.List.Nodup

/-!
# What a decoder reads in one block

The decoder sorts the pairs of a block by field. `ClassDescriptor.readPairs` is
the outcome as a total function, and `ClassDescriptor.objectsFor` are the
objects of one field, in document order. `Registry.Readable` collects what a
block must satisfy for its class: mapped predicates in strict mode, one value
for a single-valued field, and references in entity fields, which resolve in
strict mode.

Main results: `mem_groupByKey` (the groups of a list are the nonempty lists of
values of its keys) and `fieldObjects_eq_ok`.
-/

namespace EntityRdf

/-! ## Groups -/

section Groups

variable {κ : Type u} {α : Type v} [DecidableEq κ] {k : κ} {v : α} {l : List (κ × α)}

/-- The values under one key, in order. -/
def valuesOf (k : κ) (l : List (κ × α)) : List α := (l.filter (·.1 = k)).map (·.2)

/-- The values under a key are those that are paired with it. -/
theorem mem_valuesOf : v ∈ valuesOf k l ↔ (k, v) ∈ l := by
  simp only [valuesOf, List.mem_map, List.mem_filter, decide_eq_true_eq]
  constructor
  · rintro ⟨⟨k', v'⟩, ⟨hmem, rfl⟩, rfl⟩
    exact hmem
  · intro hmem
    exact ⟨(k, v), ⟨hmem, rfl⟩, rfl⟩

theorem valuesOf_append (k : κ) (l l' : List (κ × α)) :
    valuesOf k (l ++ l') = valuesOf k l ++ valuesOf k l' := by
  rw [valuesOf, List.filter_append, List.map_append]
  rfl

theorem valuesOf_cons_self (k : κ) (v : α) (l : List (κ × α)) :
    valuesOf k ((k, v) :: l) = v :: valuesOf k l := by
  simp [valuesOf]

theorem valuesOf_cons_of_ne {p : κ × α} (h : p.1 ≠ k) (l : List (κ × α)) :
    valuesOf k (p :: l) = valuesOf k l := by
  simp [valuesOf, h]

theorem valuesOf_eq_nil (h : ∀ p ∈ l, p.1 ≠ k) : valuesOf k l = [] := by
  refine List.eq_nil_iff_forall_not_mem.mpr fun v hv => ?_
  exact h (k, v) (mem_valuesOf.mp hv) rfl

section FlatMap

variable {β : Type w} {m : List (κ × β)} {b : β}

/-- Where pairs are laid out key by key, none is laid out under a key that is not
listed. -/
theorem valuesOf_flatMap_of_not_mem (hk : k ∉ m.map (·.1)) (f : β → List α) :
    valuesOf k (m.flatMap fun p => (f p.2).map (p.1, ·)) = [] := by
  refine valuesOf_eq_nil fun q hq heq => ?_
  obtain ⟨p, hp, hq⟩ := List.mem_flatMap.mp hq
  obtain ⟨v, -, rfl⟩ := List.mem_map.mp hq
  exact hk (List.mem_map.mpr ⟨p, hp, heq⟩)

/-- Where no key comes twice, the values under a key are those laid out for it. -/
theorem valuesOf_flatMap (hkeys : (m.map (·.1)).Nodup) (hk : (k, b) ∈ m) (f : β → List α) :
    valuesOf k (m.flatMap fun p => (f p.2).map (p.1, ·)) = f b := by
  induction m with
  | nil => simp at hk
  | cons p rest ih =>
    obtain ⟨hp, hrest⟩ := List.nodup_cons.mp hkeys
    rw [List.flatMap_cons, valuesOf_append]
    rcases List.mem_cons.mp hk with rfl | hk
    · -- the rest lays out nothing under the key of the head
      rw [valuesOf_flatMap_of_not_mem hp, List.append_nil]
      simp [valuesOf, List.filter_map, Function.comp_def]
    · have hne : p.1 ≠ k := fun heq => hp (List.mem_map.mpr ⟨_, hk, heq.symm⟩)
      have hfirst : valuesOf k ((f p.2).map (p.1, ·)) = [] := by
        refine valuesOf_eq_nil fun q hq heq => ?_
        obtain ⟨v, -, rfl⟩ := List.mem_map.mp hq
        exact hne heq
      rw [hfirst, List.nil_append, ih hrest hk]

end FlatMap

/-- One more value keeps the keys of the groups, or puts a new key at the end. -/
theorem keys_addToGroup (k : κ) (v : α) (groups : List (κ × List α)) :
    (addToGroup k v groups).map (·.1) =
      if k ∈ groups.map (·.1) then groups.map (·.1) else groups.map (·.1) ++ [k] := by
  induction groups with
  | nil => rfl
  | cons g rest ih =>
    obtain ⟨k', vs⟩ := g
    rw [addToGroup]
    by_cases hk : k' = k
    · -- the first group has the key, and takes the value in
      rw [if_pos hk]
      simp [hk]
    · have hne : ¬ k = k' := fun h => hk h.symm
      rw [if_neg hk, List.map_cons, List.map_cons, ih]
      simp only [List.mem_cons, hne, false_or]
      split <;> rfl

/-- A group after one more value: another key's group as it was, or the group of
the key with the value at its end. -/
theorem mem_addToGroup {groups : List (κ × List α)} (hkeys : (groups.map (·.1)).Nodup)
    {k' : κ} {ws : List α} :
    (k', ws) ∈ addToGroup k v groups ↔
      (k' ≠ k ∧ (k', ws) ∈ groups) ∨
      (k' = k ∧ ((∃ vs, (k, vs) ∈ groups ∧ ws = vs ++ [v]) ∨
        (k ∉ groups.map (·.1) ∧ ws = [v]))) := by
  induction groups with
  | nil => simp [addToGroup]
  | cons g rest ih =>
    obtain ⟨j, vs⟩ := g
    obtain ⟨hj, hrest⟩ := List.nodup_cons.mp hkeys
    have hnot : ∀ us, (j, us) ∉ rest := fun us hmem => hj (List.mem_map.mpr ⟨_, hmem, rfl⟩)
    rw [addToGroup]
    -- either the first group takes the value, or the search goes on in the rest
    by_cases hjk : j = k
    · subst hjk
      rw [if_pos rfl]
      by_cases hk' : k' = j
      · subst hk'
        simp [hnot]
      · simp [hk']
    · rw [if_neg hjk, List.mem_cons, ih hrest]
      by_cases hk' : k' = j
      · subst hk'
        simp [hjk]
      · have hne : ¬ k = j := fun h => hjk h.symm
        simp [hk', hne]

/-- A further pair goes into the groups of the pairs before it. -/
theorem groupByKey_append_singleton (l : List (κ × α)) (p : κ × α) :
    groupByKey (l ++ [p]) = addToGroup p.1 p.2 (groupByKey l) := by
  rw [groupByKey, List.foldl_append]
  rfl

/-- There is one group for each key. -/
theorem groupByKey_keys_nodup (l : List (κ × α)) : ((groupByKey l).map (·.1)).Nodup := by
  induction l using List.reverseRecOn with
  | nil => exact List.nodup_nil
  | append_singleton l p ih =>
    rw [groupByKey_append_singleton, keys_addToGroup]
    split
    · exact ih
    · rename_i hnew
      refine List.nodup_append.mpr ⟨ih, List.nodup_singleton _, ?_⟩
      rintro a ha b hb rfl
      obtain rfl := List.mem_singleton.mp hb
      exact hnew ha

/-- The groups are the nonempty lists of values of the keys. -/
theorem mem_groupByKey {vs : List α} :
    (k, vs) ∈ groupByKey l ↔ vs = valuesOf k l ∧ vs ≠ [] := by
  -- on the end of the list, where the fold adds its last pair
  induction l using List.reverseRecOn generalizing vs with
  | nil => simp [groupByKey, valuesOf]
  | append_singleton l p ih =>
    obtain ⟨j, v⟩ := p
    rw [groupByKey_append_singleton, mem_addToGroup (groupByKey_keys_nodup l), valuesOf_append]
    by_cases hk : k = j
    · subst hk
      -- by induction there is a group already exactly when there are earlier values
      have hnone : k ∉ (groupByKey l).map (·.1) ↔ valuesOf k l = [] := by
        constructor
        · intro hnot
          by_contra hne
          exact hnot (List.mem_map.mpr ⟨_, ih.mpr ⟨rfl, hne⟩, rfl⟩)
        · rintro hnil hmem
          obtain ⟨⟨k', us⟩, hus, rfl⟩ := List.mem_map.mp hmem
          obtain ⟨heq, hne⟩ := ih.mp hus
          exact hne (heq.trans hnil)
      have hlast : valuesOf k [(k, v)] = [v] := by simp [valuesOf]
      rw [hnone, hlast]
      have hne : vs = valuesOf k l ++ [v] → vs ≠ [] := by
        rintro rfl
        simp
      by_cases hnil : valuesOf k l = []
      · simpa [ih, hnil] using hne
      · simpa [ih, hnil] using hne
    · -- the pair is another key's
      have hlast : valuesOf k [(j, v)] = [] := by simp [valuesOf, Ne.symm hk]
      rw [hlast, List.append_nil]
      simp [ih, hk]

end Groups

/-! ## The pairs of a block by field -/

namespace ClassDescriptor

variable {ctx : Context} {d : ClassDescriptor} {b : Block} {f : FieldDescriptor}

/-- The pairs of a block whose predicates the class maps, with their fields. -/
def readPairs (ctx : Context) (d : ClassDescriptor) (b : Block) :
    List (FieldDescriptor × Object) :=
  b.pairs.filterMap fun p => (d.fieldForPredicate? (ctx.expand p.1)).map (·, p.2)

/-- The objects that a block has for a field. -/
def objectsFor (ctx : Context) (d : ClassDescriptor) (b : Block) (f : FieldDescriptor) :
    List Object :=
  valuesOf f (d.readPairs ctx b)

/-- The pairs that are read are those whose predicate belongs to a field of the class. -/
theorem mem_readPairs {o : Object} :
    (f, o) ∈ d.readPairs ctx b ↔
      ∃ iri, (iri, o) ∈ b.pairs ∧ d.fieldForPredicate? (ctx.expand iri) = some f := by
  simp only [readPairs, List.mem_filterMap, Option.map_eq_some_iff, Prod.mk.injEq]
  constructor
  · rintro ⟨⟨iri, o'⟩, hp, f', hf, rfl, rfl⟩
    exact ⟨iri, hp, hf⟩
  · rintro ⟨iri, hp, hf⟩
    exact ⟨(iri, o), hp, f, hf, rfl, rfl⟩

/-- The objects of a field are those that are read under it. -/
theorem mem_objectsFor {o : Object} :
    o ∈ d.objectsFor ctx b f ↔ (f, o) ∈ d.readPairs ctx b := mem_valuesOf

/-- The fields that a block has pairs for are mapped fields of the class. -/
theorem field_of_mem_readPairs {o : Object} (h : (f, o) ∈ d.readPairs ctx b) :
    f ∈ d.fields ∧ f.expanded ≠ none := by
  obtain ⟨iri, -, hf⟩ := mem_readPairs.mp h
  obtain ⟨hmem, hexp⟩ := Coherent.mem_of_fieldForPredicate? hf
  exact ⟨hmem, by simp [hexp]⟩

/-- The targets of a block are its references in entity fields. -/
theorem mem_targets {t : String} :
    t ∈ d.targets ctx b ↔ ∃ f, f.range? = some .entity ∧ .iri t ∈ d.objectsFor ctx b f := by
  simp only [targets, List.mem_filterMap, mem_objectsFor, mem_readPairs]
  -- a pair gives a target if its predicate is an entity field's and its object a reference
  constructor
  · rintro ⟨⟨iri, o⟩, hp, ht⟩
    cases o with
    | literal text => simp at ht
    | iri u =>
      dsimp only at ht
      split at ht
      · rename_i hr
        obtain rfl := Option.some.inj ht
        obtain ⟨f, hf, hr⟩ := Option.bind_eq_some_iff.mp hr
        exact ⟨f, hr, iri, hp, hf⟩
      · cases ht
  · rintro ⟨f, hr, iri, hp, hf⟩
    exact ⟨(iri, .iri t), hp, by simp [hf, hr]⟩

end ClassDescriptor

namespace Registry

variable {R : Registry} {strict : Bool} {d : ClassDescriptor} {b : Block}

/-- What the decoder demands of a block, given its class. -/
structure Readable (R : Registry) (strict : Bool) (doc : Document) (d : ClassDescriptor)
    (b : Block) : Prop where
  /-- In strict mode every predicate but the type is mapped. -/
  mapped : strict = true → ∀ p ∈ b.pairs, R.context.expand p.1 ≠ Vocabulary.rdfType →
    (d.fieldForPredicate? (R.context.expand p.1)).isSome
  /-- A field for one value has at most one. -/
  single : ∀ f, f.multiplicity = .single → (d.objectsFor R.context b f).length ≤ 1
  /-- An entity field has references, which resolve in strict mode. -/
  references : ∀ f, f.range? = some .entity → ∀ o ∈ d.objectsFor R.context b f,
    ∃ t, o = .iri t ∧ (strict = true → t ∈ doc.subjects)

/-- The decoder finds the class that the types of the block name. It fails where they
name none. -/
theorem classOf_eq_ok : R.classOf b = .ok d ↔ R.blockClass? b = some d := by
  rw [classOf]
  cases R.blockClass? b with
  | none => cases b.types R.context <;> simp
  | some d' => simp

/-- The class of a block is registered under its name. -/
theorem Coherent.get?_of_blockClass? (hR : R.Coherent) (h : R.blockClass? b = some d) :
    R.classes.get? d.name = some d := by
  obtain ⟨tag, -, htag⟩ := List.exists_of_findSome?_eq_some h
  obtain ⟨c, hc⟩ := get?_of_classForTag? htag
  rwa [hR.named hc]

/-- The decoder reads the pairs of the class, and in strict mode refuses all
others but types. -/
theorem fieldObjects_eq_ok {s : String} {pairs : List (FieldDescriptor × Object)}
    (htype : d.fieldForPredicate? Vocabulary.rdfType = none) :
    R.fieldObjects strict d s b.pairs = .ok pairs ↔
      (strict = true → ∀ p ∈ b.pairs, R.context.expand p.1 ≠ Vocabulary.rdfType →
        (d.fieldForPredicate? (R.context.expand p.1)).isSome) ∧
      pairs = d.readPairs R.context b := by
  rw [ClassDescriptor.readPairs]
  induction b.pairs generalizing pairs with
  | nil =>
    rw [fieldObjects, Except.ok.injEq, List.filterMap_nil]
    constructor
    · rintro rfl
      simp
    · rintro ⟨-, rfl⟩
      rfl
  | cons p rest ih =>
    obtain ⟨iri, o⟩ := p
    rw [fieldObjects]
    by_cases hiri : R.context.expand iri = Vocabulary.rdfType
    · -- a type belongs to no field
      rw [if_pos hiri, ih]
      simp [hiri, htype]
    · rw [if_neg hiri]
      cases hf : d.fieldForPredicate? (R.context.expand iri) with
      | some f =>
        simp only [bind_eq_ok, ih]
        constructor
        · rintro ⟨l, ⟨hmapped, rfl⟩, hl⟩
          cases hl
          refine ⟨fun hs => ?_, by simp [hf]⟩
          exact List.forall_mem_cons.mpr ⟨fun _ => by simp [hf], hmapped hs⟩
        · rintro ⟨hmapped, rfl⟩
          refine ⟨_, ⟨fun hs => (List.forall_mem_cons.mp (hmapped hs)).2, rfl⟩, ?_⟩
          simp [hf]
      | none =>
        -- an unmapped predicate is refused in strict mode and skipped otherwise
        cases strict with
        | true => simp [hiri, hf]
        | false => simp [ih, hf]

end Registry

end EntityRdf

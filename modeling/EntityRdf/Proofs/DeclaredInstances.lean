import EntityRdf.Proofs.BuiltInstance
import EntityRdf.Proofs.DeclaredClasses
import EntityRdf.Proofs.Pruning

/-!
# Instances laid out as declared

A typed value becomes an instance by filling the fields of its class one after the
other. A slot is a field with the value that goes there, if there is one. When the slots follow the fields
of a registered declaration and each value has the form its field admits, the
registry sees what the slots say: the subject (`subjectOf_ofSlots`), a value that
fits in each field (`fits_ofSlots`), what is nested in order (`nested_ofSlots`),
and no unmapped field (`prune_ofSlots`).
-/

namespace EntityRdf

/-- A field with what an instance holds in it. -/
abbrev Slot := FieldDeclaration × Option Value

namespace Instance

/-- The instance of a class with the values of the slots. -/
def ofSlots (className : String) (slots : List Slot) : Instance :=
  (new className).fill (slots.map fun p => (p.1.name, p.2))

/-- The instances nested in the slots, in order. -/
def nestedInSlots (slots : List Slot) : List Instance := slots.flatMap fun p => nestedInOption p.2

variable {slots : List Slot}

@[simp] theorem className_ofSlots (className : String) (slots : List Slot) :
    (ofSlots className slots).className = className := className_fill ..

/-- An instance laid out by slots is canonical if all that they nest is. -/
theorem canonical_ofSlots (className : String) (h : ∀ c ∈ nestedInSlots slots, c.Canonical) :
    (ofSlots className slots).Canonical := by
  refine canonical_fill (.new className) ?_
  rwa [List.flatMap_map]

end Instance

/-- Elements that contribute nothing may be kept. -/
theorem flatMap_filter_eq {α β : Type*} {l : List α} {q : α → Bool} {f : α → List β}
    (h : ∀ x ∈ l, q x = false → f x = []) : (l.filter q).flatMap f = l.flatMap f := by
  induction l with
  | nil => rfl
  | cons x rest ih =>
    obtain ⟨hx, hrest⟩ := List.forall_mem_cons.mp h
    cases hq : q x with
    | true => rw [List.filter_cons_of_pos hq, List.flatMap_cons, List.flatMap_cons, ih hrest]
    | false =>
      rw [List.filter_cons_of_neg (by simp [hq]), List.flatMap_cons, hx hq, List.nil_append,
        ih hrest]

/-! ## Slots that follow a declaration -/

/-- The value has the form that the field is declared for. -/
def FieldDeclaration.Admits (f : FieldDeclaration) (v : Value) : Prop :=
  match f.mapping, f.multiplicity, v with
  | .identity, .single, .str _ => True
  | .predicate _ .literal, .single, .str _ => True
  | .predicate _ .literal, .multi, .strs _ => True
  | .predicate _ .entity, .single, .entity _ => True
  | .predicate _ .entity, .multi, .entities _ => True
  | _, _, _ => False

/-- The slots are the fields of the declaration, in order, each with a value that
it admits or none. -/
structure Follows (slots : List Slot) (c : ClassDeclaration) : Prop where
  fields : slots.map (·.1) = c.fields
  admits : ∀ p ∈ slots, ∀ v ∈ p.2, p.1.Admits v

/-- Values listed in the order of the fields make slots that follow the declaration. -/
theorem Follows.zip {c : ClassDeclaration} {values : List (Option Value)}
    (h : List.Forall₂ (fun f v? => ∀ v ∈ v?, f.Admits v) c.fields values) :
    Follows (c.fields.zip values) c := by
  refine ⟨List.map_fst_zip (Nat.le_of_eq h.length_eq), ?_⟩
  rintro ⟨f, v?⟩ hp
  exact (List.forall₂_iff_zip.mp h).2 hp

namespace Registry

open Instance

variable {R : Registry} {c : ClassDeclaration} {slots : List Slot} {s : String}

/-- The registry records the class as it is declared. -/
def Declares (R : Registry) (c : ClassDeclaration) : Prop :=
  R.classes.get? c.name = some (c.descriptor R.context)

/-- Slots and fields of the class correspond. -/
theorem mem_fields_of_slot (hslots : Follows slots c) (ctx : Context) {p : Slot} (hp : p ∈ slots) :
    (⟨p.1, p.1.expandedIn ctx⟩ : FieldDescriptor) ∈ (c.descriptor ctx).fields := by
  refine List.mem_map.mpr ⟨p.1, ?_, rfl⟩
  rw [← hslots.fields]
  exact List.mem_map.mpr ⟨p, hp, rfl⟩

/-- Only entity fields nest instances, and an empty sequence nests none. -/
theorem nestedInOption_filter {f : FieldDeclaration} {expanded : Option String} {v? : Option Value}
    (hadmits : ∀ v ∈ v?, f.Admits v) :
    (if (⟨f, expanded⟩ : FieldDescriptor).range? = some .entity then
      nestedInOption (v?.filter (!·.isEmptySequence)) else []) = nestedInOption v? := by
  cases v? with
  | none => simp [nestedInOption]
  | some v =>
    have hv : f.Admits v := hadmits v rfl
    -- one case for each form that a field admits
    unfold FieldDeclaration.Admits at hv
    split at hv
    · rename_i hm _
      exact if_neg (by simp [FieldDescriptor.range?, hm])
    · rename_i hm _
      exact if_neg (by simp [FieldDescriptor.range?, hm])
    · rename_i hm _
      exact if_neg (by simp [FieldDescriptor.range?, hm])
    · rename_i hm _
      exact if_pos (by simp [FieldDescriptor.range?, hm])
    · rename_i l hm _
      refine (if_pos (by simp [FieldDescriptor.range?, hm])).trans ?_
      cases l <;> rfl
    · exact hv.elim

section Declared

variable (hR : R.Coherent) (hc : R.Declares c) (hslots : Follows slots c)
include hR hc hslots

/-- Slots have different names, since the class was registered with its fields. -/
theorem slot_names : slots.Pairwise fun p q => p.1.name ≠ q.1.name := by
  have hfields : (c.fields.map fun f => (⟨f, f.expandedIn R.context⟩ : FieldDescriptor)).Pairwise
      fun f g => f.name ≠ g.name := (hR.fields hc).names
  rw [List.pairwise_map, ← hslots.fields, List.pairwise_map] at hfields
  exact hfields

/-- The same, in the form in which `fill` asks for it. -/
theorem slotMap_names :
    (slots.map fun p => (p.1.name, p.2)).Pairwise fun p q => p.1 ≠ q.1 :=
  List.pairwise_map.mpr (slot_names hR hc hslots)

/-- A field holds what its slot says, except that an empty sequence is not set. -/
theorem get?_ofSlots {p : Slot} (hp : p ∈ slots) :
    (ofSlots c.name slots).get? p.1.name = p.2.filter (!·.isEmptySequence) :=
  get?_fill (slotMap_names hR hc hslots) (List.mem_map.mpr ⟨p, hp, rfl⟩) rfl

/-- The instance holds one instance more than its slots nest. -/
theorem count_ofSlots : (ofSlots c.name slots).count = 1 + countAll (nestedInSlots slots) := by
  have hfill := count_fill (e := new c.name) (slotMap_names hR hc hslots) fun _ _ => rfl
  rwa [List.flatMap_map] at hfill

/-- What an instance holds in a field stands in the slot of the field. -/
theorem exists_slot {n : String} {v : Value} (hv : (ofSlots c.name slots).get? n = some v) :
    ∃ p ∈ slots, p.1.name = n ∧ p.2 = some v := by
  by_cases hn : ∃ p ∈ slots, p.1.name = n
  · obtain ⟨p, hp, rfl⟩ := hn
    rw [get?_ofSlots hR hc hslots hp] at hv
    exact ⟨p, hp, rfl, (Option.filter_eq_some_iff.mp hv).1⟩
  · have hother : ∀ q ∈ slots.map (fun p => (p.1.name, p.2)), q.1 ≠ n := by
      intro q hq heq
      obtain ⟨p, hp, rfl⟩ := List.mem_map.mp hq
      exact hn ⟨p, hp, heq⟩
    have hnone : (ofSlots c.name slots).get? n = (new c.name).get? n := get?_fill_of_ne hother
    rw [hnone] at hv
    cases hv

/-- The text in the slot of the identity is the subject, unless it is empty. -/
theorem subjectOf_ofSlots {n : String} (hid : (.identity n, some (.str s)) ∈ slots) (hs : s ≠ "") :
    R.subjectOf (ofSlots c.name slots) = .ok s := by
  have hclass : R.classes.get? (ofSlots c.name slots).className = some (c.descriptor R.context) := by
    rw [className_ofSlots]
    exact hc
  have hidentity := (hR.fields hc).identity?_eq (mem_fields_of_slot hslots R.context hid) rfl
  have hget : (ofSlots c.name slots).get? n = some (.str s) := get?_ofSlots hR hc hslots hid
  refine subjectOf_eq_ok.mpr ⟨_, hclass, ?_⟩
  refine ClassDescriptor.subjectOf_eq_ok.mpr ⟨_, hidentity, ?_, ?_⟩
  · -- the identity holds a text
    show ((ofSlots c.name slots).get? n).bind Value.str? = some s
    rw [hget]
    rfl
  · rw [← Bool.not_eq_true, String.isEmpty_iff]
    exact hs

/-- What is held fits, if what is nested has subjects. -/
theorem fits_ofSlots (hkids : ∀ k ∈ nestedInSlots slots, ∃ t, R.subjectOf k = .ok t) :
    ∀ p ∈ (c.descriptor R.context).held (ofSlots c.name slots), R.Fits p.1 p.2 := by
  rintro ⟨f, v⟩ hheld
  obtain ⟨hf, hv⟩ := ClassDescriptor.mem_held.mp hheld
  obtain ⟨hmem, hmapped⟩ := ClassDescriptor.mem_predicateFields.mp hf
  obtain ⟨p, hp, hname, hpv⟩ := exists_slot hR hc hslots hv
  -- the slot is that of this very field
  obtain rfl := (hR.fields hc).eq_of_name_eq (mem_fields_of_slot hslots R.context hp) hmem hname
  have hadmits : p.1.Admits v := hslots.admits p hp v hpv
  have hnested : ∀ k ∈ v.nested, ∃ t, R.subjectOf k = .ok t := by
    intro k hk
    refine hkids k (List.mem_flatMap.mpr ⟨p, hp, ?_⟩)
    rw [hpv]
    exact hk
  -- one case for each form that a field admits
  unfold FieldDeclaration.Admits at hadmits
  split at hadmits
  · rename_i hm _
    simp [FieldDescriptor.isIdentity, hm] at hmapped
  · rename_i hm hmult
    exact ⟨by simp [FieldDescriptor.range?, hm], hmult⟩
  · rename_i hm hmult
    exact ⟨by simp [FieldDescriptor.range?, hm], hmult⟩
  · rename_i hm hmult
    exact ⟨by simp [FieldDescriptor.range?, hm], hmult, hnested _ (List.mem_singleton_self _)⟩
  · rename_i hm hmult
    exact ⟨by simp [FieldDescriptor.range?, hm], hmult, hnested⟩
  · exact hadmits.elim

/-- What is nested stands in the slots, in the same order. -/
theorem nested_ofSlots : R.nested (ofSlots c.name slots) = nestedInSlots slots := by
  have hclass : R.classes.get? (ofSlots c.name slots).className = some (c.descriptor R.context) := by
    rw [className_ofSlots]
    exact hc
  -- the value of a field is that of its slot, up to an empty sequence
  have hslot : ∀ p ∈ slots,
      (if (⟨p.1, p.1.expandedIn R.context⟩ : FieldDescriptor).range? = some .entity then
        nestedInOption ((ofSlots c.name slots).get? p.1.name) else []) = nestedInOption p.2 := by
    intro p hp
    rw [get?_ofSlots hR hc hslots hp]
    exact nestedInOption_filter (hslots.admits p hp)
  -- the identity nests nothing, so that it may stay in the list of fields
  have hidentity : ∀ f ∈ (c.descriptor R.context).fields, (!f.isIdentity) = false →
      (if f.range? = some .entity then nestedInOption ((ofSlots c.name slots).get? f.name)
        else []) = [] := by
    intro f _ hf
    have hm : f.mapping = .identity := by simpa [FieldDescriptor.isIdentity] using hf
    exact if_neg (by simp [FieldDescriptor.range?, hm])
  rw [nested_eq hclass]
  refine (flatMap_filter_eq hidentity).trans ?_
  show (c.fields.map fun f => (⟨f, f.expandedIn R.context⟩ : FieldDescriptor)).flatMap _ = _
  rw [← hslots.fields, List.map_map, List.flatMap_map]
  exact List.flatMap_congr hslot

/-- All fields are declared, so pruning changes nothing if it changes nothing below. -/
theorem prune_ofSlots (hkids : ∀ k ∈ nestedInSlots slots, k.Canonical ∧ R.prune k = k) :
    R.prune (ofSlots c.name slots) = ofSlots c.name slots := by
  have hclass : R.classes.get? (ofSlots c.name slots).className = some (c.descriptor R.context) := by
    rw [className_ofSlots]
    exact hc
  have hcanonical : (ofSlots c.name slots).Canonical :=
    canonical_ofSlots c.name fun k hk => (hkids k hk).1
  -- a field that is set has a slot, and the slot a field of the class
  refine prune_eq_self hcanonical hclass fun n v hv => ?_
  obtain ⟨p, hp, rfl, hpv⟩ := exists_slot hR hc hslots hv
  refine ⟨_, (hR.fields hc).field?_name (mem_fields_of_slot hslots R.context hp), fun _ k hk => ?_⟩
  refine (hkids k (List.mem_flatMap.mpr ⟨p, hp, ?_⟩)).2
  rw [hpv]
  exact hk

end Declared

end Registry

end EntityRdf

/-!
# Entries: finite maps from strings as ordered lists

A finite map keyed by strings is kept as the list of its entries in strictly
increasing key order. Strings are compared by code point, which is also the
order of their UTF-8 bytes. Each map then has exactly one list, so equality of
maps is equality of lists, and a walk over the list is a walk in key order.

The operations here act on bare lists, because instances and JSON values nest
such lists inside themselves; `StringMap` bundles a list with its order.
Main statements: `lookup_insert_self` and `lookup_insert_of_ne` say what an
insertion does to a lookup, `Increasing.insert` and `Increasing.erase` that the
order is kept, and `Increasing.ext` that equal lookups mean equal lists.
-/

namespace EntityRdf.Entries

variable {α : Type u}

/-- The keys occur in strictly increasing order. -/
def Increasing (l : List (String × α)) : Prop :=
  l.Pairwise fun a b => a.1 < b.1

/-- Binds a key to a value at its place in the order, replacing an earlier
binding of the same key. -/
def insert (k : String) (v : α) : List (String × α) → List (String × α)
  | [] => [(k, v)]
  | (k', v') :: rest =>
    if k < k' then (k, v) :: (k', v') :: rest
    else if k = k' then (k, v) :: rest
    else (k', v') :: insert k v rest

/-- Drops the binding of a key. -/
def erase (k : String) (l : List (String × α)) : List (String × α) :=
  l.filter fun e => e.1 != k

/-! ## Lookups -/

@[simp] theorem lookup_insert_self (k : String) (v : α) (l : List (String × α)) :
    (insert k v l).lookup k = some v := by
  induction l with
  | nil => simp [insert]
  | cons e rest ih =>
    obtain ⟨k', v'⟩ := e
    rw [insert]
    split
    · simp
    · split
      · simp
      · rename_i hne
        rw [List.lookup_cons, beq_false_of_ne hne]
        exact ih

theorem lookup_insert_of_ne {k k' : String} (h : k' ≠ k) (v : α)
    (l : List (String × α)) : (insert k v l).lookup k' = l.lookup k' := by
  induction l with
  | nil => simp [insert, h]
  | cons e rest ih =>
    obtain ⟨j, w⟩ := e
    rw [insert]
    split
    · rw [List.lookup_cons, beq_false_of_ne h]
    · split
      · rename_i hj
        subst hj
        rw [List.lookup_cons, List.lookup_cons, beq_false_of_ne h]
      · rw [List.lookup_cons, List.lookup_cons, ih]

@[simp] theorem lookup_erase_self (k : String) (l : List (String × α)) :
    (erase k l).lookup k = none := by
  rw [List.lookup_eq_none_iff]
  intro e he
  have := (List.mem_filter.mp he).2
  simp only [bne_iff_ne, ne_eq] at this
  simpa using fun h => this h.symm

theorem lookup_erase_of_ne {k k' : String} (h : k' ≠ k) (l : List (String × α)) :
    (erase k l).lookup k' = l.lookup k' := by
  induction l with
  | nil => rfl
  | cons e rest ih =>
    obtain ⟨j, w⟩ := e
    by_cases hj : j = k
    · subst hj
      rw [erase, List.filter_cons_of_neg (by simp), ← erase, ih, List.lookup_cons,
        beq_false_of_ne h]
    · rw [erase, List.filter_cons_of_pos (by simp [hj]), ← erase,
        List.lookup_cons, List.lookup_cons, ih]

/-- A found value stands in the list under its key. -/
theorem mem_of_lookup {k : String} {v : α} {l : List (String × α)}
    (h : l.lookup k = some v) : (k, v) ∈ l := by
  obtain ⟨l₁, l₂, rfl, -⟩ := List.lookup_eq_some_iff.mp h
  simp

/-! ## Order -/

theorem increasing_nil : Increasing ([] : List (String × α)) := List.Pairwise.nil

/-- What an insertion leaves in the list was there before, or is the new entry. -/
theorem mem_insert {k : String} {v : α} {e : String × α} {l : List (String × α)}
    (h : e ∈ insert k v l) : e = (k, v) ∨ e ∈ l := by
  induction l with
  | nil => simpa [insert] using h
  | cons e' rest ih =>
    obtain ⟨k', v'⟩ := e'
    rw [insert] at h
    split at h
    · simpa using h
    · split at h
      · rcases List.mem_cons.mp h with h | h
        · exact Or.inl h
        · exact Or.inr (List.mem_cons_of_mem _ h)
      · rcases List.mem_cons.mp h with h | h
        · exact Or.inr (h ▸ List.mem_cons_self ..)
        · exact (ih h).imp id (List.mem_cons_of_mem _)

/-- Inserting keeps the keys in order. -/
theorem Increasing.insert {l : List (String × α)} (h : Increasing l) (k : String)
    (v : α) : Increasing (Entries.insert k v l) := by
  induction l with
  | nil => simp [Entries.insert, Increasing]
  | cons e rest ih =>
    obtain ⟨k', v'⟩ := e
    obtain ⟨hHead, hRest⟩ := List.pairwise_cons.mp h
    rw [Entries.insert]
    split
    · -- a smaller key goes in front
      rename_i hlt
      refine List.pairwise_cons.mpr ⟨fun e he => ?_, h⟩
      rcases List.mem_cons.mp he with rfl | he
      · exact hlt
      · exact String.lt_trans hlt (hHead e he)
    · split
      · -- the same key has its value replaced
        rename_i heq
        subst heq
        exact List.pairwise_cons.mpr ⟨hHead, hRest⟩
      · rename_i hlt hne
        refine List.pairwise_cons.mpr ⟨fun e he => ?_, ih hRest⟩
        rcases mem_insert he with rfl | he
        · -- the remaining order case: `k` lies above `k'`
          exact Std.lt_of_le_of_ne (Std.not_lt.mp hlt) (Ne.symm hne)
        · exact hHead e he

theorem Increasing.erase {l : List (String × α)} (h : Increasing l) (k : String) :
    Increasing (Entries.erase k l) :=
  List.Pairwise.filter _ h

/-- In an ordered list an entry is found under its own key. -/
theorem Increasing.lookup_of_mem {l : List (String × α)} (h : Increasing l)
    {k : String} {v : α} (hm : (k, v) ∈ l) : l.lookup k = some v := by
  induction l with
  | nil => simp at hm
  | cons e rest ih =>
    obtain ⟨k', v'⟩ := e
    obtain ⟨hHead, hRest⟩ := List.pairwise_cons.mp h
    rcases List.mem_cons.mp hm with heq | hm
    · obtain ⟨rfl, rfl⟩ := Prod.mk.inj heq
      simp
    · have hne : k ≠ k' := fun heq =>
        String.lt_irrefl k' (by simpa [heq] using hHead _ hm)
      rw [List.lookup_cons, beq_false_of_ne hne]
      exact ih hRest hm

/-- Ordered lists with the same lookups are the same list. -/
theorem Increasing.ext {l₁ l₂ : List (String × α)} (h₁ : Increasing l₁)
    (h₂ : Increasing l₂) (h : ∀ k, l₁.lookup k = l₂.lookup k) : l₁ = l₂ := by
  induction l₁ generalizing l₂ with
  | nil =>
    cases l₂ with
    | nil => rfl
    | cons e rest => exact absurd (h e.1) (by obtain ⟨k, v⟩ := e; simp)
  | cons e₁ r₁ ih =>
    obtain ⟨k₁, v₁⟩ := e₁
    cases l₂ with
    | nil => exact absurd (h k₁) (by simp)
    | cons e₂ r₂ =>
      obtain ⟨k₂, v₂⟩ := e₂
      obtain ⟨hHead₁, hRest₁⟩ := List.pairwise_cons.mp h₁
      obtain ⟨hHead₂, hRest₂⟩ := List.pairwise_cons.mp h₂
      -- each head is found on the other side, so neither key lies below the other
      have hmem₁ : (k₁, v₁) ∈ (k₂, v₂) :: r₂ := mem_of_lookup ((h k₁).symm.trans (by simp))
      have hmem₂ : (k₂, v₂) ∈ (k₁, v₁) :: r₁ := mem_of_lookup ((h k₂).trans (by simp))
      have heq : (k₁, v₁) = (k₂, v₂) := by
        rcases List.mem_cons.mp hmem₁ with heq | hm₁
        · exact heq
        · rcases List.mem_cons.mp hmem₂ with heq | hm₂
          · exact heq.symm
          · exact absurd (hHead₁ _ hm₂) (String.lt_asymm (hHead₂ _ hm₁))
      obtain ⟨rfl, rfl⟩ := Prod.mk.inj heq
      congr 1
      refine ih hRest₁ hRest₂ fun k => ?_
      by_cases hk : k = k₁
      · have hnone : ∀ {r : List (String × α)}, (∀ e ∈ r, k₁ < e.1) →
            r.lookup k = none := by
          intro r hr
          rw [List.lookup_eq_none_iff]
          intro e he
          have hne : k ≠ e.1 := fun heq =>
            String.lt_irrefl k₁ ((hk.symm.trans heq) ▸ hr e he)
          simpa using hne
        rw [hnone hHead₁, hnone hHead₂]
      · have := h k
        rwa [List.lookup_cons, List.lookup_cons, beq_false_of_ne hk] at this

end EntityRdf.Entries

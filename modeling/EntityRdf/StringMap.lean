import EntityRdf.Entries

/-!
# Maps from strings

A `StringMap α` is a list of entries together with the fact that its keys
strictly increase. Two maps with the same lookups are equal (`StringMap.ext`),
so maps can be compared with `=`.
-/

namespace EntityRdf

/-- A finite map from strings, walked in increasing key order. -/
structure StringMap (α : Type u) where
  /-- The bindings, in key order. -/
  entries : List (String × α)
  increasing : Entries.Increasing entries
deriving Repr

namespace StringMap

variable {α : Type u}

instance [DecidableEq α] : DecidableEq (StringMap α) := fun a b =>
  if h : a.entries = b.entries then
    .isTrue (by cases a; cases b; cases h; rfl)
  else
    .isFalse fun heq => h (heq ▸ rfl)

def empty : StringMap α := ⟨[], Entries.increasing_nil⟩

instance : Inhabited (StringMap α) := ⟨empty⟩

/-- The value bound to a key. -/
def get? (m : StringMap α) (k : String) : Option α := m.entries.lookup k

def contains (m : StringMap α) (k : String) : Bool := (m.get? k).isSome

/-- Binds a key, replacing an earlier binding. -/
def insert (m : StringMap α) (k : String) (v : α) : StringMap α :=
  ⟨Entries.insert k v m.entries, m.increasing.insert k v⟩

/-- The map that a list of bindings describes when later ones win. -/
def ofList (l : List (String × α)) : StringMap α :=
  l.foldl (fun m e => m.insert e.1 e.2) empty

/-- Adds every binding of `other`, which wins over bindings of `m`. -/
def merge (m other : StringMap α) : StringMap α :=
  other.entries.foldl (fun m e => m.insert e.1 e.2) m

/-- Applies a function to every value. -/
def map {β : Type v} (f : α → β) (m : StringMap α) : StringMap β :=
  ⟨m.entries.map fun e => (e.1, f e.2), by
    rw [Entries.Increasing, List.pairwise_map]
    exact m.increasing⟩

/-- The bound keys, in order. -/
def keys (m : StringMap α) : List String := m.entries.map (·.1)

/-- The bound values, in key order. -/
def values (m : StringMap α) : List α := m.entries.map (·.2)

def size (m : StringMap α) : Nat := m.entries.length

/-- Maps with the same lookups are equal. -/
@[ext] theorem ext {a b : StringMap α} (h : ∀ k, a.get? k = b.get? k) : a = b := by
  have := a.increasing.ext b.increasing h
  cases a
  cases b
  cases this
  rfl

@[simp] theorem get?_empty (k : String) : (empty : StringMap α).get? k = none := rfl

@[simp] theorem get?_insert_self (m : StringMap α) (k : String) (v : α) :
    (m.insert k v).get? k = some v :=
  Entries.lookup_insert_self ..

theorem get?_insert_of_ne (m : StringMap α) {k k' : String} (h : k' ≠ k) (v : α) :
    (m.insert k v).get? k' = m.get? k' :=
  Entries.lookup_insert_of_ne h ..

/-- After an insertion a bound key is the inserted one or was bound before. -/
theorem get?_insert_cases {m : StringMap α} {k k' : String} {v w : α}
    (h : (m.insert k v).get? k' = some w) : (k' = k ∧ w = v) ∨ m.get? k' = some w := by
  by_cases hk : k' = k
  · subst hk
    rw [get?_insert_self] at h
    exact Or.inl ⟨rfl, (Option.some.inj h).symm⟩
  · rw [get?_insert_of_ne m hk] at h
    exact Or.inr h

/-- Binding a key to the value it has changes nothing. -/
theorem insert_of_get? {m : StringMap α} {k : String} {v : α} (h : m.get? k = some v) :
    m.insert k v = m := by
  refine ext fun k' => ?_
  by_cases hk : k' = k
  · rw [hk, get?_insert_self, h]
  · exact get?_insert_of_ne m hk v

/-- Of two bindings of one key the later one stays. -/
theorem insert_insert (m : StringMap α) (k : String) (v w : α) :
    (m.insert k v).insert k w = m.insert k w := by
  refine ext fun k' => ?_
  by_cases hk : k' = k
  · rw [hk, get?_insert_self, get?_insert_self]
  · rw [get?_insert_of_ne _ hk, get?_insert_of_ne m hk, get?_insert_of_ne m hk]

/-- Keys occur once, so what a key is mapped to is its entry. -/
theorem get?_eq_some_iff (m : StringMap α) {k : String} {v : α} :
    m.get? k = some v ↔ (k, v) ∈ m.entries :=
  ⟨Entries.mem_of_lookup, m.increasing.lookup_of_mem⟩

@[simp] theorem get?_map {β : Type v} (f : α → β) (m : StringMap α) (k : String) :
    (m.map f).get? k = (m.get? k).map f := by
  obtain ⟨l, hl⟩ := m
  show (l.map fun e => (e.1, f e.2)).lookup k = (l.lookup k).map f
  clear hl
  induction l with
  | nil => rfl
  | cons e rest ih =>
    rw [List.map_cons, List.lookup_cons, List.lookup_cons, ih]
    cases k == e.1 <;> rfl

/-- A merged map binds what either map binds; the second one wins. -/
theorem get?_merge (m other : StringMap α) (k : String) :
    (m.merge other).get? k = (other.get? k).or (m.get? k) := by
  rw [merge, get?]
  obtain ⟨l, hl⟩ := other
  show _ = (l.lookup k).or _
  induction l generalizing m with
  | nil => rfl
  | cons e rest ih =>
    obtain ⟨k', v⟩ := e
    obtain ⟨hhead, hrest⟩ := List.pairwise_cons.mp hl
    have hstep := ih (m.insert k' v) hrest
    by_cases hk : k = k'
    · -- keys increase, so the rest does not bind this key again
      subst hk
      have hnone : rest.lookup k = none := by
        rw [List.lookup_eq_none_iff]
        intro e he
        have hne : k ≠ e.1 := fun heq => String.lt_irrefl k (heq ▸ hhead e he)
        simpa using hne
      rw [hnone, get?_insert_self] at hstep
      simpa using hstep
    · rw [get?_insert_of_ne m hk] at hstep
      rw [List.lookup_cons, beq_false_of_ne hk]
      exact hstep

end StringMap

end EntityRdf

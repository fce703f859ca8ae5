import EntityRdf.Instance
import Mathlib.Tactic.TypeStar

/-!
# Instances that can be built

`Instance.Built` holds of what `Instance.new`, `Instance.set` and
`Instance.remove` produce at every level of nesting. Such an instance is
*canonical*: its fields stand in strictly increasing name order and no field
holds an empty sequence, so two canonical instances with the same class and the
same lookups are equal (`Instance.Canonical.ext`).

`Instance.count` is the number of instances in an instance. Setting a field that
was not set adds the instances of its value (`Instance.count_set`).
-/

namespace EntityRdf

/-! ## Counting -/

mutual

/-- The number of instances in a value. -/
def Value.count : Value → Nat
  | .str _ | .strs _ => 0
  | .entity e => e.count
  | .entities l => Instance.countAll l

/-- The number of instances in an instance, itself included. -/
def Instance.count : Instance → Nat
  | .mk _ fields => Value.countFields fields + 1

/-- The number of instances in a sequence of instances. -/
def Instance.countAll : List Instance → Nat
  | [] => 0
  | e :: rest => e.count + Instance.countAll rest

/-- The number of instances in the values of a list of fields. -/
def Value.countFields : List (String × Value) → Nat
  | [] => 0
  | (_, v) :: rest => v.count + Value.countFields rest

end

/-- Sequences of instances are counted part by part. -/
theorem Instance.countAll_append (l r : List Instance) :
    Instance.countAll (l ++ r) = Instance.countAll l + Instance.countAll r := by
  induction l with
  | nil => rw [List.nil_append, Instance.countAll, Nat.zero_add]
  | cons e rest ih =>
    rw [List.cons_append, Instance.countAll, ih, Instance.countAll, Nat.add_assoc]

/-- The instances in a value are those nested directly in it, each with all that it
holds. -/
theorem Value.count_eq_countAll (v : Value) : v.count = Instance.countAll v.nested := by
  cases v with
  | str s => rfl
  | strs l => rfl
  | entity e => rfl
  | entities l => rfl

/-- A binding of a new key adds the instances of its value. -/
theorem Value.countFields_insert {n : String} {v : Value} {l : List (String × Value)}
    (h : l.lookup n = none) :
    Value.countFields (Entries.insert n v l) = Value.countFields l + v.count := by
  induction l with
  | nil => simp [Entries.insert, Value.countFields]
  | cons e rest ih =>
    obtain ⟨m, w⟩ := e
    -- the key is not bound, so that the insertion replaces nothing
    have hne : n ≠ m := by
      rintro rfl
      simp at h
    have hrest : rest.lookup n = none := by
      rwa [List.lookup_cons, beq_false_of_ne hne] at h
    rw [Entries.insert]
    split
    · -- it goes in front
      rw [Value.countFields, Nat.add_comm]
    · rw [Value.countFields, ih hrest, Value.countFields, Nat.add_assoc]

/-- An empty sequence nests nothing, so no instance is lost by leaving it unset. -/
theorem Value.nested_eq_nil_of_isEmptySequence {v : Value} (h : v.isEmptySequence = true) :
    v.nested = [] := by
  cases v with
  | str s => rfl
  | strs l => rfl
  | entity e => simp [Value.isEmptySequence] at h
  | entities l => simpa [Value.isEmptySequence, Value.nested] using h

namespace Instance

variable {e : Instance} {n m : String} {v : Value}

/-! ## Lookups after setting and removing -/

@[simp] theorem className_new (c : String) : (new c).className = c := rfl

@[simp] theorem get?_new (c n : String) : (new c).get? n = none := rfl

@[simp] theorem className_remove (e : Instance) (n : String) :
    (e.remove n).className = e.className := rfl

/-- The class stays, also where the value is an empty sequence and the field is removed
instead. -/
@[simp] theorem className_set (e : Instance) (n : String) (v : Value) :
    (e.set n v).className = e.className := by
  rw [set]
  split <;> rfl

@[simp] theorem get?_remove_self (e : Instance) (n : String) : (e.remove n).get? n = none :=
  Entries.lookup_erase_self ..

theorem get?_remove_of_ne (e : Instance) (h : m ≠ n) : (e.remove n).get? m = e.get? m :=
  Entries.lookup_erase_of_ne h _

/-- What a set field holds: nothing, if the value was an empty sequence. -/
theorem get?_set_self (e : Instance) (n : String) (v : Value) :
    (e.set n v).get? n = if v.isEmptySequence then none else some v := by
  rw [set]
  split
  · exact get?_remove_self e n
  · exact Entries.lookup_insert_self ..

/-- Setting a field leaves the others as they are, whether it stores the value or removes
the field. -/
theorem get?_set_of_ne (e : Instance) (v : Value) (h : m ≠ n) :
    (e.set n v).get? m = e.get? m := by
  rw [set]
  split
  · exact get?_remove_of_ne e h
  · exact Entries.lookup_insert_of_ne h ..

@[simp] theorem count_new (c : String) : (new c).count = 1 := rfl

/-- Setting a field that was not set adds the instances of its value. -/
theorem count_set (h : e.get? n = none) (v : Value) :
    (e.set n v).count = e.count + v.count := by
  obtain ⟨c, fields⟩ := e
  rw [set]
  split
  · -- an empty sequence is not set, and there is nothing to remove
    rename_i hv
    have hkeep : Entries.erase n fields = fields := by
      refine List.filter_eq_self.mpr fun p hp => ?_
      have : (n == p.1) = false := by simpa using List.lookup_eq_none_iff.mp h p hp
      exact bne_iff_ne.mpr fun heq => by simp [heq] at this
    have hzero : v.count = 0 := by
      rw [Value.count_eq_countAll, Value.nested_eq_nil_of_isEmptySequence hv]
      rfl
    show (mk c (Entries.erase n fields)).count = _
    rw [hkeep, hzero, Nat.add_zero]
  · show Value.countFields (Entries.insert n v fields) + 1 = Value.countFields fields + 1 + v.count
    have hcount : Value.countFields (Entries.insert n v fields) = _ := Value.countFields_insert h
    omega

/-! ## Canonical instances -/

/-- Fields stand in strictly increasing name order and hold no empty sequence,
here and in everything nested. -/
inductive Canonical : Instance → Prop
  | intro {e : Instance} (order : Entries.Increasing e.fields)
      (filled : ∀ n v, e.get? n = some v → v.isEmptySequence = false)
      (deep : ∀ n v, e.get? n = some v → ∀ c ∈ v.nested, Canonical c) : Canonical e

/-- The fields of a canonical instance stand in name order. As `Canonical` speaks of what
is nested it is inductive; this and the next two lemmas are its projections. -/
theorem Canonical.order (h : Canonical e) : Entries.Increasing e.fields := by
  cases h with
  | intro order _ _ => exact order

/-- No field of a canonical instance holds an empty sequence. -/
theorem Canonical.filled (h : Canonical e) (hv : e.get? n = some v) :
    v.isEmptySequence = false := by
  cases h with
  | intro _ filled _ => exact filled n v hv

/-- What a canonical instance nests is canonical as well. -/
theorem Canonical.deep (h : Canonical e) (hv : e.get? n = some v) {c : Instance}
    (hc : c ∈ v.nested) : Canonical c := by
  cases h with
  | intro _ _ deep => exact deep n v hv c hc

/-- Canonical instances of one class with the same lookups are equal. -/
theorem Canonical.ext {a b : Instance} (ha : a.Canonical) (hb : b.Canonical)
    (hclass : a.className = b.className) (h : ∀ n, a.get? n = b.get? n) : a = b := by
  have := ha.order.ext hb.order h
  cases a
  cases b
  cases this
  cases hclass
  rfl

theorem Canonical.new (c : String) : (new c).Canonical :=
  .intro Entries.increasing_nil (by simp) (by simp)

/-- Removing a field keeps an instance canonical. -/
theorem Canonical.remove (h : e.Canonical) (n : String) : (e.remove n).Canonical := by
  -- what is still set was set before
  have hold : ∀ {m w}, (e.remove n).get? m = some w → e.get? m = some w := by
    intro m w hw
    by_cases hm : m = n
    · subst hm
      rw [get?_remove_self] at hw
      cases hw
    · rwa [get?_remove_of_ne e hm] at hw
  exact .intro (h.order.erase n) (fun m w hw => h.filled (hold hw))
    (fun m w hw c hc => h.deep (hold hw) hc)

/-- Setting a field keeps an instance canonical if all that the value nests is. The value
itself may be an empty sequence, as `set` does not store one. -/
theorem Canonical.set (h : e.Canonical) (n : String) (hv : ∀ c ∈ v.nested, Canonical c) :
    (e.set n v).Canonical := by
  -- a field that is set now holds the new value, or what it held before
  have hcases : ∀ {m w}, (e.set n v).get? m = some w →
      (w = v ∧ v.isEmptySequence = false) ∨ e.get? m = some w := by
    intro m w hw
    by_cases hm : m = n
    · subst hm
      rw [get?_set_self] at hw
      split at hw
      · cases hw
      · rename_i hfull
        exact Or.inl ⟨(Option.some.inj hw).symm, by simpa using hfull⟩
    · rw [get?_set_of_ne e v hm] at hw
      exact Or.inr hw
  refine .intro ?_ ?_ ?_
  · rw [Instance.set]
    split
    · exact h.order.erase n
    · exact h.order.insert n v
  · intro m w hw
    rcases hcases hw with ⟨rfl, hfull⟩ | hw
    · exact hfull
    · exact h.filled hw
  · intro m w hw c hc
    rcases hcases hw with ⟨rfl, -⟩ | hw
    · exact hv c hc
    · exact h.deep hw hc

/-! ## Filling fields -/

/-- Sets a field if there is a value for it. -/
def setOption (e : Instance) (n : String) : Option Value → Instance
  | some v => e.set n v
  | none => e

/-- Sets the fields that have a value, one after the other. -/
def fill (e : Instance) (l : List (String × Option Value)) : Instance :=
  l.foldl (fun e p => e.setOption p.1 p.2) e

/-- The instances nested in a value that may be missing. -/
def nestedInOption (v? : Option Value) : List Instance := (v?.map Value.nested).getD []

section Filling

variable {v? : Option Value} {l : List (String × Option Value)}

/-- An optional text is set as any other optional value. -/
theorem setStr?_eq (e : Instance) (n : String) (s? : Option String) :
    e.setStr? n s? = e.setOption n (s?.map .str) := by
  cases s? <;> rfl

@[simp] theorem nestedInOption_str (s? : Option String) : nestedInOption (s?.map .str) = [] := by
  cases s? <;> rfl

@[simp] theorem className_setOption (e : Instance) (n : String) (v? : Option Value) :
    (e.setOption n v?).className = e.className := by
  cases v? with
  | none => rfl
  | some v => exact className_set e n v

/-- Setting an optional value leaves the other fields as they are. -/
theorem get?_setOption_of_ne (e : Instance) (v? : Option Value) (h : m ≠ n) :
    (e.setOption n v?).get? m = e.get? m := by
  cases v? with
  | none => rfl
  | some v => exact get?_set_of_ne e v h

/-- A free field into which an optional value is set holds just that value afterwards, if
it is there and no empty sequence. -/
theorem get?_setOption_self (hfree : e.get? n = none) (v? : Option Value) :
    (e.setOption n v?).get? n = v?.filter (!·.isEmptySequence) := by
  cases v? with
  | none => exact hfree
  | some v =>
    show (e.set n v).get? n = _
    rw [get?_set_self]
    cases hv : v.isEmptySequence <;> simp [Option.filter, hv]

/-- Setting an optional value keeps an instance canonical, on the same condition as
`Canonical.set`. -/
theorem canonical_setOption (he : e.Canonical) (h : ∀ c ∈ nestedInOption v?, c.Canonical) :
    (e.setOption n v?).Canonical := by
  cases v? with
  | none => exact he
  | some v => exact he.set n h

/-- An optional value that is set into a free field adds its own instances. -/
theorem count_setOption (hfree : e.get? n = none) (v? : Option Value) :
    (e.setOption n v?).count = e.count + countAll (nestedInOption v?) := by
  cases v? with
  | none => rfl
  | some v =>
    show (e.set n v).count = e.count + countAll v.nested
    rw [count_set hfree, Value.count_eq_countAll]

@[simp] theorem className_fill (e : Instance) (l : List (String × Option Value)) :
    (e.fill l).className = e.className := by
  induction l generalizing e with
  | nil => rfl
  | cons p rest ih => exact (ih _).trans (className_setOption ..)

/-- Filling leaves a field as it is that is not in the list. -/
theorem get?_fill_of_ne (hn : ∀ p ∈ l, p.1 ≠ n) : (e.fill l).get? n = e.get? n := by
  induction l generalizing e with
  | nil => rfl
  | cons p rest ih =>
    obtain ⟨hp, hrest⟩ := List.forall_mem_cons.mp hn
    exact (ih hrest).trans (get?_setOption_of_ne e p.2 hp.symm)

/-- Where names are distinct, no value is replaced by a later one: each field holds the
value listed for it, if it is there and no empty sequence. -/
theorem get?_fill (hnames : l.Pairwise fun p q => p.1 ≠ q.1) (hp : (n, v?) ∈ l)
    (hfree : e.get? n = none) : (e.fill l).get? n = v?.filter (!·.isEmptySequence) := by
  induction l generalizing e with
  | nil => simp at hp
  | cons q rest ih =>
    obtain ⟨hq, hrest⟩ := List.pairwise_cons.mp hnames
    rcases List.mem_cons.mp hp with rfl | hp
    · -- the later fields have other names
      have hlater : ∀ q ∈ rest, q.1 ≠ n := fun q hq' => (hq q hq').symm
      exact (get?_fill_of_ne hlater).trans (get?_setOption_self hfree v?)
    · have hne : n ≠ q.1 := (hq _ hp).symm
      exact ih hrest hp ((get?_setOption_of_ne e q.2 hne).trans hfree)

/-- An instance that is filled with canonical values is canonical. -/
theorem canonical_fill (he : e.Canonical)
    (h : ∀ c ∈ l.flatMap fun p => nestedInOption p.2, c.Canonical) : (e.fill l).Canonical := by
  induction l generalizing e with
  | nil => exact he
  | cons p rest ih =>
    rw [List.flatMap_cons] at h
    refine ih (canonical_setOption he fun c hc => ?_) fun c hc => ?_
    · exact h c (List.mem_append_left _ hc)
    · exact h c (List.mem_append_right _ hc)

/-- A filled instance holds the instances it had and those of all listed values. Names
must be distinct and free, since a value that replaces another would take its place in
the count. -/
theorem count_fill (hnames : l.Pairwise fun p q => p.1 ≠ q.1)
    (hfree : ∀ p ∈ l, e.get? p.1 = none) :
    (e.fill l).count = e.count + countAll (l.flatMap fun p => nestedInOption p.2) := by
  induction l generalizing e with
  | nil => rfl
  | cons p rest ih =>
    obtain ⟨hp, hrest⟩ := List.pairwise_cons.mp hnames
    obtain ⟨hpfree, hfree⟩ := List.forall_mem_cons.mp hfree
    -- a later field is still free after the first is set
    have hstill : ∀ q ∈ rest, (e.setOption p.1 p.2).get? q.1 = none := by
      intro q hq
      rw [get?_setOption_of_ne e p.2 (hp q hq).symm, hfree q hq]
    have hfill := ih hrest hstill
    rw [count_setOption hpfree] at hfill
    rw [List.flatMap_cons, countAll_append, ← Nat.add_assoc]
    exact hfill

end Filling

/-! ## Built instances -/

/-- The instances that `new`, `set` and `remove` build, at every level of
nesting. -/
inductive Built : Instance → Prop
  | new (c : String) : Built (new c)
  | set {e : Instance} {v : Value} (n : String) (he : Built e) (hv : ∀ c ∈ v.nested, Built c) :
      Built (e.set n v)
  | remove {e : Instance} (n : String) (he : Built e) : Built (e.remove n)

/-- Whatever the operations on instances build is canonical. -/
theorem Built.canonical (h : e.Built) : e.Canonical := by
  induction h with
  | new c => exact .new c
  | set n _ _ ih ihv => exact ih.set n ihv
  | remove n _ ih => exact ih.remove n

end Instance

end EntityRdf

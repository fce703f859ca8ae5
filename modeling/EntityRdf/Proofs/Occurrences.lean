import EntityRdf.Encoding
import Mathlib.Data.List.Basic

/-!
# The instances that occur in an instance

Encoding and decoding follow the entity fields of a class and nothing else.
`Registry.nested` lists the instances one step down, `Registry.preorder` an
instance with everything below it, parents first, each with its depth, and
`Registry.occurrences` does so for a list of instances, whose members have depth
zero. `Registry.roots` are the members that a decoder has to give back: the
first of each subject, where no instance nested in the list has that subject.

`preorder_induction` and `occurrences_induction` are the way to prove something
of all occurrences: show it at the top and pass it on one step down.
-/

namespace EntityRdf.Registry

/-- The instances nested directly in an instance, through the entity fields of
its class. -/
def nested (R : Registry) (e : Instance) : List Instance :=
  match R.classes.get? e.className with
  | some d => d.nestedIn e
  | none => []

variable {R : Registry}

/-- What is nested in an instance is found with its registered class. -/
theorem nested_eq {e : Instance} {d : ClassDescriptor}
    (hd : R.classes.get? e.className = some d) : R.nested e = d.nestedIn e := by
  rw [nested, hd]

/-- Nested instances are smaller, so what recurses on them ends. -/
theorem sizeOf_lt_of_mem_nested {e c : Instance} (h : c ∈ R.nested e) :
    sizeOf c < sizeOf e := by
  rw [nested] at h
  split at h
  · exact ClassDescriptor.sizeOf_lt_of_mem_nestedIn h
  · simp at h

/-- An instance found at some depth, followed by everything nested in it. -/
def preorder (R : Registry) (depth : Nat) (e : Instance) : List (Nat × Instance) :=
  (depth, e) :: (R.nested e).attach.flatMap fun c => R.preorder (depth + 1) c.1
termination_by sizeOf e
decreasing_by exact sizeOf_lt_of_mem_nested c.2

/-- All instances that occur in a list of instances, each with its depth. -/
def occurrences (R : Registry) (l : List Instance) : List (Nat × Instance) :=
  l.flatMap (R.preorder 0)

/-- The instance occurs in the list, at the top or nested. -/
def OccursIn (R : Registry) (l : List Instance) (e : Instance) : Prop :=
  ∃ n, (n, e) ∈ R.occurrences l

/-- The subjects of the instances that are nested in members of a list. -/
def nestedSubjects (R : Registry) (l : List Instance) : List String :=
  ((R.occurrences l).filter (0 < ·.1)).filterMap fun p => (R.subjectOf p.2).toOption

/-- The instances of a list whose subjects are not among some seen before, each
subject once. -/
def firsts (R : Registry) (seen : List String) : List Instance → List Instance
  | [] => []
  | e :: rest =>
    match R.subjectOf e with
    | .error _ => R.firsts seen rest
    | .ok s => if s ∈ seen then R.firsts seen rest else e :: R.firsts (s :: seen) rest

/-- The first instance of each subject that no nested instance has. -/
def roots (R : Registry) (l : List Instance) : List Instance := R.firsts (R.nestedSubjects l) l

/-! ## Membership -/

/-- An instance comes first, then what is nested in it, one level deeper. -/
theorem preorder_eq (n : Nat) (e : Instance) :
    R.preorder n e = (n, e) :: (R.nested e).flatMap (R.preorder (n + 1)) := by
  rw [preorder]
  simp

/-- What occurs in an instance is the instance itself, or occurs in one that is nested in
it. -/
theorem mem_preorder {k n : Nat} {e x : Instance} :
    (n, x) ∈ R.preorder k e ↔
      (n = k ∧ x = e) ∨ ∃ c ∈ R.nested e, (n, x) ∈ R.preorder (k + 1) c := by
  rw [preorder_eq, List.mem_cons, List.mem_flatMap, Prod.mk.injEq]

theorem mem_preorder_self (k : Nat) (e : Instance) : (k, e) ∈ R.preorder k e :=
  mem_preorder.mpr (Or.inl ⟨rfl, rfl⟩)

/-- To prove something of everything in an instance, prove it of the instance
and pass it on from each instance to those nested directly in it. -/
theorem preorder_induction {motive : Nat → Instance → Prop} {k : Nat} {e : Instance}
    (base : motive k e)
    (step : ∀ n x y, (n, x) ∈ R.preorder k e → motive n x → y ∈ R.nested x → motive (n + 1) y) :
    ∀ {n x}, (n, x) ∈ R.preorder k e → motive n x := by
  -- on the size of the instance, since `nested` follows no constructor
  induction hsize : sizeOf e using Nat.strongRecOn generalizing k e with
  | ind size ih =>
    intro n x hx
    rcases mem_preorder.mp hx with ⟨rfl, rfl⟩ | ⟨c, hc, hx⟩
    · exact base
    · refine ih (sizeOf c) (hsize ▸ sizeOf_lt_of_mem_nested hc)
        (step k e c (mem_preorder_self k e) base hc) ?_ rfl hx
      intro m y z hy
      exact step m y z (mem_preorder.mpr (Or.inr ⟨c, hc, hy⟩))

/-- What is nested in something that occurs in an instance occurs in it too. -/
theorem mem_preorder_of_mem_nested {k n : Nat} {e x y : Instance} (hx : (n, x) ∈ R.preorder k e)
    (hy : y ∈ R.nested x) : (n + 1, y) ∈ R.preorder k e := by
  induction hsize : sizeOf e using Nat.strongRecOn generalizing k e with
  | ind size ih =>
    rcases mem_preorder.mp hx with ⟨rfl, rfl⟩ | ⟨c, hc, hx⟩
    · exact mem_preorder.mpr (Or.inr ⟨y, hy, mem_preorder_self ..⟩)
    · refine mem_preorder.mpr (Or.inr ⟨c, hc, ?_⟩)
      exact ih (sizeOf c) (hsize ▸ sizeOf_lt_of_mem_nested hc) hx rfl

theorem mem_occurrences {l : List Instance} {p : Nat × Instance} :
    p ∈ R.occurrences l ↔ ∃ e ∈ l, p ∈ R.preorder 0 e := List.mem_flatMap

theorem mem_occurrences_of_mem {l : List Instance} {e : Instance} (h : e ∈ l) :
    (0, e) ∈ R.occurrences l :=
  mem_occurrences.mpr ⟨e, h, mem_preorder_self 0 e⟩

/-- What is nested in an occurrence occurs one level deeper. -/
theorem mem_occurrences_of_mem_nested {l : List Instance} {n : Nat} {e c : Instance}
    (h : (n, e) ∈ R.occurrences l) (hc : c ∈ R.nested e) : (n + 1, c) ∈ R.occurrences l := by
  obtain ⟨r, hr, h⟩ := mem_occurrences.mp h
  exact mem_occurrences.mpr ⟨r, hr, mem_preorder_of_mem_nested h hc⟩

theorem OccursIn.of_mem {l : List Instance} {e : Instance} (h : e ∈ l) : R.OccursIn l e :=
  ⟨0, mem_occurrences_of_mem h⟩

theorem OccursIn.nested {l : List Instance} {e c : Instance} (h : R.OccursIn l e)
    (hc : c ∈ R.nested e) : R.OccursIn l c := by
  obtain ⟨n, h⟩ := h
  exact ⟨n + 1, mem_occurrences_of_mem_nested h hc⟩

/-- To prove something of all occurrences in a list, prove it of the members and
pass it on from each occurrence to the instances nested directly in it. -/
theorem occurrences_induction {motive : Nat → Instance → Prop} {l : List Instance}
    (top : ∀ e ∈ l, motive 0 e)
    (step : ∀ n x y, (n, x) ∈ R.occurrences l → motive n x → y ∈ R.nested x → motive (n + 1) y)
    {n : Nat} {x : Instance} (h : (n, x) ∈ R.occurrences l) : motive n x := by
  obtain ⟨e, he, h⟩ := mem_occurrences.mp h
  refine preorder_induction (top e he) ?_ h
  intro m y z hy
  exact step m y z (mem_occurrences.mpr ⟨e, he, hy⟩)

/-- The same without depths. -/
theorem OccursIn.induction {motive : Instance → Prop} {l : List Instance}
    (top : ∀ e ∈ l, motive e)
    (step : ∀ x y, R.OccursIn l x → motive x → y ∈ R.nested x → motive y)
    {x : Instance} (h : R.OccursIn l x) : motive x := by
  obtain ⟨n, h⟩ := h
  exact occurrences_induction (motive := fun _ => motive) top
    (fun m y z hy => step y z ⟨m, hy⟩) h

/-- The subjects of nested instances are those of the instances one step below an
occurrence. -/
theorem mem_nestedSubjects {l : List Instance} {s : String} :
    s ∈ R.nestedSubjects l ↔
      ∃ e c, R.OccursIn l e ∧ c ∈ R.nested e ∧ R.subjectOf c = .ok s := by
  have hsome : ∀ {x : Instance}, (R.subjectOf x).toOption = some s ↔ R.subjectOf x = .ok s := by
    intro x
    cases R.subjectOf x <;> simp [Except.toOption]
  simp only [nestedSubjects, List.mem_filterMap, List.mem_filter, decide_eq_true_eq, hsome]
  constructor
  · rintro ⟨⟨n, c⟩, ⟨hc, hn⟩, hs⟩
    -- a nested occurrence has a parent
    have hparent : n = 0 ∨ ∃ e, R.OccursIn l e ∧ c ∈ R.nested e :=
      occurrences_induction (motive := fun n x => n = 0 ∨ ∃ e, R.OccursIn l e ∧ x ∈ R.nested e)
        (fun _ _ => Or.inl rfl) (fun m x y hx _ hy => Or.inr ⟨x, ⟨m, hx⟩, hy⟩) hc
    rcases hparent with rfl | ⟨e, he, hc⟩
    · simp at hn
    · exact ⟨e, c, he, hc, hs⟩
  · rintro ⟨e, c, ⟨n, he⟩, hc, hs⟩
    exact ⟨(n + 1, c), ⟨mem_occurrences_of_mem_nested he hc, by simp⟩, hs⟩

end EntityRdf.Registry

import Mathlib.Data.List.Forall2

/-!
# Success of fallible computations

Encoding and decoding are chains of steps in `Except`. A chain succeeds exactly
when each of its steps does; these lemmas turn the success of a chain into the
successes of its parts, so that no later proof opens the monad.
-/

namespace EntityRdf

variable {ε : Type u} {α β : Type v}

/-- A chain of two steps succeeds when the first does and the second does on its
result. -/
theorem bind_eq_ok {x : Except ε α} {f : α → Except ε β} {b : β} :
    x >>= f = .ok b ↔ ∃ a, x = .ok a ∧ f a = .ok b := by
  cases x with
  | error e => simp [bind, Except.bind]
  | ok a => simp [bind, Except.bind]

/-- A chain of two steps fails where its first failing step does. -/
theorem bind_eq_error {x : Except ε α} {f : α → Except ε β} {e : ε} :
    x >>= f = .error e ↔ x = .error e ∨ ∃ a, x = .ok a ∧ f a = .error e := by
  cases x with
  | error e' => simp [bind, Except.bind]
  | ok a => simp [bind, Except.bind]

/-- A result comes from a result of the computation that is mapped. -/
theorem map_eq_ok {x : Except ε α} {f : α → β} {b : β} :
    f <$> x = .ok b ↔ ∃ a, x = .ok a ∧ f a = b := by
  cases x with
  | error e => simp [Functor.map, Except.map]
  | ok a => simp [Functor.map, Except.map]

@[simp] theorem ok_bind (a : α) (f : α → Except ε β) : (Except.ok a >>= f) = f a := rfl

@[simp] theorem pure_eq_ok (a : α) : (pure a : Except ε α) = .ok a := rfl

/-- A computation that is seen to succeed has a result. -/
theorem exists_of_isOk {x : Except ε α} (h : x.isOk = true) : ∃ a, x = .ok a := by
  cases x with
  | error e => cases h
  | ok a => exact ⟨a, rfl⟩

/-- Mapping a fallible function over a list succeeds when it succeeds on every
element. -/
theorem mapM_eq_ok {f : α → Except ε β} {l : List α} {ys : List β} :
    l.mapM f = .ok ys ↔ List.Forall₂ (fun a b => f a = .ok b) l ys := by
  induction l generalizing ys with
  | nil => cases ys <;> simp
  | cons a rest ih =>
    rw [List.mapM_cons, bind_eq_ok]
    constructor
    · rintro ⟨b, hb, h⟩
      obtain ⟨bs, hbs, h⟩ := bind_eq_ok.mp h
      cases h
      exact .cons hb (ih.mp hbs)
    · intro h
      cases h with
      | cons hb hbs => exact ⟨_, hb, bind_eq_ok.mpr ⟨_, ih.mpr hbs, rfl⟩⟩

/-- Where mapping over a list fails, it fails on an element. -/
theorem exists_of_mapM_eq_error {f : α → Except ε β} {l : List α} {e : ε}
    (h : l.mapM f = .error e) : ∃ a ∈ l, f a = .error e := by
  induction l with
  | nil => cases h
  | cons a rest ih =>
    rw [List.mapM_cons] at h
    rcases bind_eq_error.mp h with ha | ⟨b, -, h⟩
    · exact ⟨a, List.mem_cons_self .., ha⟩
    · rcases bind_eq_error.mp h with hrest | ⟨_, -, h⟩
      · obtain ⟨a', ha', he⟩ := ih hrest
        exact ⟨a', List.mem_cons_of_mem _ ha', he⟩
      · cases h

/-- Functions that agree on a list map it alike, errors included. -/
theorem mapM_congr {f g : α → Except ε β} {l : List α} (h : ∀ a ∈ l, f a = g a) :
    l.mapM f = l.mapM g := by
  induction l with
  | nil => rfl
  | cons a rest ih =>
    obtain ⟨ha, hrest⟩ := List.forall_mem_cons.mp h
    rw [List.mapM_cons, List.mapM_cons, ha, ih hrest]

/-- Steps that agree on a list fold over it alike, errors included. -/
theorem foldlM_congr {σ : Type v} {f g : σ → α → Except ε σ} {l : List α} {s : σ}
    (h : ∀ a ∈ l, ∀ s, f s a = g s a) : l.foldlM f s = l.foldlM g s := by
  induction l generalizing s with
  | nil => rfl
  | cons a rest ih =>
    obtain ⟨ha, hrest⟩ := List.forall_mem_cons.mp h
    rw [List.foldlM_cons, List.foldlM_cons, ha s]
    exact congrArg (g s a >>= ·) (funext fun _ => ih hrest)

/-- A fold whose steps are those of another fold, seen through a function, is that fold. -/
theorem map_foldlM {σ τ : Type v} {f : σ → α → Except ε σ} {g : τ → α → Except ε τ} {φ : σ → τ}
    {l : List α} (h : ∀ a ∈ l, ∀ s, (f s a).map φ = g (φ s) a) (s : σ) :
    (l.foldlM f s).map φ = l.foldlM g (φ s) := by
  induction l generalizing s with
  | nil => rfl
  | cons a rest ih =>
    obtain ⟨ha, hrest⟩ := List.forall_mem_cons.mp h
    rw [List.foldlM_cons, List.foldlM_cons, ← ha s]
    cases f s a with
    | error e => rfl
    | ok next => exact ih hrest next

/-- A fold of which no step changes anything. -/
theorem foldlM_eq_self {σ : Type v} {f : σ → α → Except ε σ} {l : List α} {s : σ}
    (h : ∀ a ∈ l, f s a = .ok s) : l.foldlM f s = .ok s := by
  induction l with
  | nil => rfl
  | cons a rest ih =>
    obtain ⟨ha, hrest⟩ := List.forall_mem_cons.mp h
    rw [List.foldlM_cons, ha, ok_bind, ih hrest]

/-- Folding over lists in a row is folding over each of them in turn. -/
theorem foldlM_flatMap {σ : Type v} {f : α → List β} {step : σ → β → Except ε σ} {l : List α}
    {s : σ} : (l.flatMap f).foldlM step s = l.foldlM (fun s a => (f a).foldlM step s) s := by
  induction l generalizing s with
  | nil => rfl
  | cons a rest ih =>
    rw [List.flatMap_cons, List.foldlM_append, List.foldlM_cons]
    exact congrArg ((f a).foldlM step s >>= ·) (funext fun _ => ih)

/-- Mapping a function that succeeds under a condition, and then with a known
result. -/
theorem mapM_eq_ok_iff {f : α → Except ε β} {P : α → Prop} {g : α → β} {l : List α} {ys : List β}
    (h : ∀ a ∈ l, ∀ b, f a = .ok b ↔ P a ∧ b = g a) :
    l.mapM f = .ok ys ↔ (∀ a ∈ l, P a) ∧ ys = l.map g := by
  rw [mapM_eq_ok]
  constructor
  · intro hall
    induction hall with
    | nil => simp
    | @cons a b rest bs hb _ ih =>
      obtain ⟨hP, rfl⟩ := (h a (List.mem_cons_self ..) b).mp hb
      obtain ⟨hrest, rfl⟩ := ih fun a' ha' => h a' (List.mem_cons_of_mem _ ha')
      exact ⟨List.forall_mem_cons.mpr ⟨hP, hrest⟩, rfl⟩
  · rintro ⟨hP, rfl⟩
    rw [List.forall₂_map_right_iff, List.forall₂_same]
    exact fun a ha => (h a ha _).mpr ⟨hP a ha, rfl⟩

/-- In matched lists each element of the first has a partner in the second. -/
theorem exists_partner {P : α → β → Prop} {l : List α} {ys : List β} (h : List.Forall₂ P l ys)
    {a : α} (ha : a ∈ l) : ∃ b ∈ ys, P a b := by
  induction h with
  | nil => simp at ha
  | @cons a' b rest bs hb _ ih =>
    rcases List.mem_cons.mp ha with rfl | ha
    · exact ⟨b, List.mem_cons_self .., hb⟩
    · obtain ⟨b', hb', hab⟩ := ih ha
      exact ⟨b', List.mem_cons_of_mem _ hb', hab⟩

/-! ## Failing for a reason only -/

/-- If the computation fails, then with one of these errors. -/
def FailsOnly (P : ε → Prop) (x : Except ε α) : Prop := ∀ err, x = .error err → P err

namespace FailsOnly

variable {P Q : ε → Prop} {x : Except ε α}

/-- A success gives no reason, so any will do. -/
theorem ok (a : α) : FailsOnly P (.ok a) := by
  intro err h
  cases h

/-- A failure with one of the errors. -/
theorem error {err : ε} (h : P err) : FailsOnly P (.error err : Except ε α) := by
  intro err' h'
  cases h'
  exact h

/-- The reasons may be widened. -/
theorem imp (hx : FailsOnly P x) (h : ∀ err, P err → Q err) : FailsOnly Q x :=
  fun err herr => h err (hx err herr)

/-- A chain fails for the reasons of its steps. -/
theorem bind {f : α → Except ε β} (hx : FailsOnly P x) (hf : ∀ a, FailsOnly P (f a)) :
    FailsOnly P (x >>= f) := by
  intro err h
  rcases bind_eq_error.mp h with h | ⟨a, -, h⟩
  · exact hx err h
  · exact hf a err h

/-- What is done with the result makes no difference to the failure. -/
theorem map (f : α → β) (hx : FailsOnly P x) : FailsOnly P (f <$> x) := by
  cases x with
  | ok a => exact .ok (f a)
  | error err => exact .error (hx err rfl)

/-- Mapping over a list fails for the reasons of its elements. -/
theorem mapM {f : α → Except ε β} {l : List α} (h : ∀ a ∈ l, FailsOnly P (f a)) :
    FailsOnly P (l.mapM f) := by
  intro err herr
  obtain ⟨a, ha, hfail⟩ := exists_of_mapM_eq_error herr
  exact h a ha err hfail

end FailsOnly

/-! ## Succeeding under a condition only -/

/-- If the computation succeeds, then the condition holds. -/
def Requires (p : Prop) (x : Except ε α) : Prop := ∀ a, x = .ok a → p

namespace Requires

variable {p : Prop} {x : Except ε α}

/-- A failure meets every condition. -/
theorem error {err : ε} : Requires p (.error err : Except ε α) := by
  intro a h
  cases h

/-- A chain needs what its first step needs. -/
theorem first {f : α → Except ε β} (h : Requires p x) : Requires p (x >>= f) := by
  intro b hb
  obtain ⟨a, ha, -⟩ := bind_eq_ok.mp hb
  exact h a ha

/-- A chain needs what its later steps need. -/
theorem rest {f : α → Except ε β} (h : ∀ a, Requires p (f a)) : Requires p (x >>= f) := by
  intro b hb
  obtain ⟨a, -, ha⟩ := bind_eq_ok.mp hb
  exact h a b ha

/-- What is done with the result makes no difference to what is needed. -/
theorem map (f : α → β) (h : Requires p x) : Requires p (f <$> x) := by
  cases x with
  | ok a => exact fun _ _ => h a rfl
  | error err => exact .error

/-- Mapping over a list needs what any of its elements needs. -/
theorem mapM {f : α → Except ε β} {l : List α} {a : α} (ha : a ∈ l) (h : Requires p (f a)) :
    Requires p (l.mapM f) := by
  intro bs hbs
  obtain ⟨b, -, hb⟩ := exists_partner (mapM_eq_ok.mp hbs) ha
  exact h b hb

end Requires

end EntityRdf

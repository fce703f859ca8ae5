import EntityRdf.Proofs.EncoderRun

/-!
# The order of the roots

The roots of a list are the first instances of the subjects that nothing nested
has (`Registry.roots`). The encoder does not know them: it writes blocks from the
top down, so that what is nested in an instance comes between it and the next
member of the list. Leaving out the nested subjects leaves the roots, in the
order of the list.

Main result: `encodeAll_filter_subjects`.
-/

namespace EntityRdf.Registry

variable {R : Registry} {cfg : Config} {l rest : List Instance} {doc : Document} {e : Instance}
  {seen seen' nested : List String} {s : String}

/-! ## First instances -/

/-- An instance of a subject that was seen is passed over. -/
theorem firsts_cons_of_mem (hs : R.subjectOf e = .ok s) (hmem : s ∈ seen) :
    R.firsts seen (e :: rest) = R.firsts seen rest := by
  rw [firsts, hs]
  exact if_pos hmem

/-- An instance of a new subject is the first one. -/
theorem firsts_cons_of_not_mem (hs : R.subjectOf e = .ok s) (hnot : s ∉ seen) :
    R.firsts seen (e :: rest) = e :: R.firsts (s :: seen) rest := by
  rw [firsts, hs]
  exact if_neg hnot

theorem mem_firsts (h : e ∈ R.firsts seen l) : e ∈ l := by
  induction l generalizing seen with
  | nil => simp [firsts] at h
  | cons x rest ih =>
    rw [firsts] at h
    split at h
    · exact List.mem_cons_of_mem _ (ih h)
    · split at h
      · exact List.mem_cons_of_mem _ (ih h)
      · rcases List.mem_cons.mp h with rfl | h
        · exact List.mem_cons_self ..
        · exact List.mem_cons_of_mem _ (ih h)

/-- Only membership counts in what has been seen. -/
theorem firsts_congr (h : ∀ s, s ∈ seen ↔ s ∈ seen') : R.firsts seen l = R.firsts seen' l := by
  induction l generalizing seen seen' with
  | nil => rfl
  | cons e rest ih =>
    cases hs : R.subjectOf e with
    | error err =>
      rw [firsts, firsts, hs]
      exact ih h
    | ok s =>
      by_cases hmem : s ∈ seen
      · rw [firsts_cons_of_mem hs hmem, firsts_cons_of_mem hs ((h s).mp hmem)]
        exact ih h
      · have hnot : s ∉ seen' := fun hmem' => hmem ((h s).mpr hmem')
        rw [firsts_cons_of_not_mem hs hmem, firsts_cons_of_not_mem hs hnot]
        have hcons : ∀ t, t ∈ s :: seen ↔ t ∈ s :: seen' := by
          intro t
          rw [List.mem_cons, List.mem_cons, h t]
        rw [ih hcons]

/-- Instances whose subjects have been seen are skipped. -/
theorem firsts_append_of_seen (hseen : ∀ e ∈ l, ∃ s ∈ seen, R.subjectOf e = .ok s) :
    R.firsts seen (l ++ rest) = R.firsts seen rest := by
  induction l with
  | nil => rfl
  | cons e es ih =>
    obtain ⟨⟨s, hmem, hs⟩, htail⟩ := List.forall_mem_cons.mp hseen
    rw [List.cons_append, firsts_cons_of_mem hs hmem, ih htail]

/-- Instances with different subjects, none of which has been seen, are all
kept. -/
theorem firsts_eq_self (hsub : ∀ e ∈ l, R.subjectOf e = .ok (R.subject e))
    (hnew : ∀ e ∈ l, R.subject e ∉ seen) (hnodup : (l.map R.subject).Nodup) :
    R.firsts seen l = l := by
  induction l generalizing seen with
  | nil => rfl
  | cons e rest ih =>
    obtain ⟨hs, hsrest⟩ := List.forall_mem_cons.mp hsub
    obtain ⟨he, hrest⟩ := List.forall_mem_cons.mp hnew
    obtain ⟨hnot, hnodup⟩ := List.nodup_cons.mp hnodup
    have hnew' : ∀ x ∈ rest, R.subject x ∉ R.subject e :: seen := by
      intro x hx hmem
      rcases List.mem_cons.mp hmem with heq | hmem
      · exact hnot (heq ▸ List.mem_map.mpr ⟨x, hx, rfl⟩)
      · exact hrest x hx hmem
    rw [firsts_cons_of_not_mem hs he, ih hsrest hnew' hnodup]

/-! ## Nested subjects of pending instances -/

/-- All that is nested in the pending instances has subjects of the list. -/
def Covers (R : Registry) (nested : List String) (work : List (Nat × Instance)) : Prop :=
  ∀ w ∈ work, ∀ k y, (k, y) ∈ R.preorder w.1 w.2 → ∀ c ∈ R.nested y, ∀ s,
    R.subjectOf c = .ok s → s ∈ nested

namespace Covers

variable {n : Nat} {work : List (Nat × Instance)}

theorem tail (h : R.Covers nested ((n, e) :: work)) : R.Covers nested work :=
  (List.forall_mem_cons.mp h).2

theorem nested_mem (h : R.Covers nested ((n, e) :: work)) {c : Instance} (hc : c ∈ R.nested e)
    (hs : R.subjectOf c = .ok s) : s ∈ nested :=
  (List.forall_mem_cons.mp h).1 n e (mem_preorder_self n e) c hc s hs

/-- An instance may be replaced by what is nested in it. -/
theorem children (h : R.Covers nested ((n, e) :: work)) :
    R.Covers nested ((R.nested e).map (n + 1, ·) ++ work) := by
  intro w hw
  rcases List.mem_append.mp hw with hw | hw
  · obtain ⟨c, hc, rfl⟩ := List.mem_map.mp hw
    intro k y hy
    exact (List.forall_mem_cons.mp h).1 k y (mem_preorder.mpr (Or.inr ⟨c, hc, hy⟩))
  · exact h.tail w hw

/-- What is nested in an instance with a block has been seen, if its subjects
have. -/
theorem firsts_children {b : Block} (h : R.Covers nested ((n, e) :: work))
    (hb : R.blockOf e = .ok b) (hseen : ∀ s ∈ nested, s ∈ seen) :
    R.firsts seen (((R.nested e).map (n + 1, ·) ++ work).map (·.2)) =
      R.firsts seen (work.map (·.2)) := by
  rw [List.map_append, List.map_map]
  refine firsts_append_of_seen fun x hx => ?_
  obtain ⟨c, hc, rfl⟩ := List.mem_map.mp hx
  obtain ⟨s, -, hs, -⟩ := blockOf_nested hb hc
  exact ⟨s, hseen s (h.nested_mem hc hs), hs⟩

end Covers

/-! ## The subjects of a document -/

/-- The encoder adds the subjects that nothing nested has in the order of their
first instances. -/
theorem Writes.filter_subjects {m : Nat} {doc' : Document} {work : List (Nat × Instance)}
    (h : R.Writes m doc work doc') (hcovers : R.Covers nested work) :
    doc'.subjects.filter (· ∉ nested) = doc.subjects.filter (· ∉ nested) ++
      (R.firsts (nested ++ doc.subjects) (work.map (·.2))).map R.subject := by
  induction h with
  | done doc => simp [firsts]
  | @again doc doc' n e b rest _ hb hold _ ih =>
    -- the subject has a block, so that it has been seen
    have hs : R.subjectOf e = .ok b.subject := subjectOf_of_blockOf hb
    have hmem : b.subject ∈ nested ++ doc.subjects :=
      List.mem_append_right _ (List.mem_map.mpr ⟨b, (Document.mem_of_block? hold).1, rfl⟩)
    rw [ih hcovers.tail, List.map_cons, firsts_cons_of_mem hs hmem]
  | @fresh doc doc' n e b rest _ hb hnew _ ih =>
    have hs : R.subjectOf e = .ok b.subject := subjectOf_of_blockOf hb
    have hold : b.subject ∉ doc.subjects := Document.block?_eq_none_iff.mp hnew
    -- what is nested in the instance comes next, but its subjects do not count
    have hskip := hcovers.firsts_children hb fun s hs =>
      List.mem_append_left (doc.push b).subjects hs
    rw [ih hcovers.children, hskip, List.map_cons, Document.subjects_push, List.filter_append]
    by_cases hmem : b.subject ∈ nested
    · have hseen : ∀ s, s ∈ nested ++ (doc.subjects ++ [b.subject]) ↔
          s ∈ nested ++ doc.subjects := by
        intro s
        have hlast : s = b.subject → s ∈ nested := fun heq => heq ▸ hmem
        simp only [List.mem_append, List.mem_singleton]
        tauto
      rw [firsts_congr hseen, firsts_cons_of_mem hs (List.mem_append_left _ hmem)]
      simp [hmem]
    · have hseen : ∀ s, s ∈ nested ++ (doc.subjects ++ [b.subject]) ↔
          s ∈ b.subject :: (nested ++ doc.subjects) := by
        intro s
        simp only [List.mem_append, List.mem_cons, List.not_mem_nil, or_false]
        tauto
      have hnot : b.subject ∉ nested ++ doc.subjects := by
        rw [List.mem_append]
        exact not_or.mpr ⟨hmem, hold⟩
      rw [firsts_congr hseen, firsts_cons_of_not_mem hs hnot, List.map_cons, subject_eq hs]
      simp [hmem]

/-- The subjects of an encoded document that nothing nested has are those of the
roots, in order. -/
theorem encodeAll_filter_subjects (h : R.encodeAll cfg l = .ok doc) :
    doc.subjects.filter (· ∉ R.nestedSubjects l) = (R.roots l).map R.subject := by
  have hcovers : R.Covers (R.nestedSubjects l) (l.map (0, ·)) := by
    intro w hw k y hy c hc s hs
    obtain ⟨e, he, rfl⟩ := List.mem_map.mp hw
    exact mem_nestedSubjects.mpr ⟨y, c, ⟨k, mem_occurrences.mpr ⟨e, he, hy⟩⟩, hc, hs⟩
  have hmembers : (l.map ((0 : Nat), ·)).map (·.2) = l := by
    rw [List.map_map]
    exact List.map_id l
  rw [(encodeAll_eq_ok.mp h).filter_subjects hcovers, hmembers]
  show [] ++ (R.firsts (R.nestedSubjects l ++ []) l).map R.subject = _
  rw [List.nil_append, List.append_nil, roots]

end EntityRdf.Registry

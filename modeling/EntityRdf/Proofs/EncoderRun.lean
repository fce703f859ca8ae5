import EntityRdf.Proofs.OwnBlock
import Mathlib.Data.List.Nodup

/-!
# Runs of the encoder

The encoder recurses into what is nested in an instance before it goes on with
the rest of its list. `Registry.Writes` tells the same story with a single list
of pending instances: the first one is either known, and dropped, or new, and
then its block is appended and the instances nested in it take its place.
`encodeAll_eq_ok` says that the two agree on success, so that facts about an
encoded document follow by induction on a list of steps.

Main results: blocks are never changed or removed (`Writes.block?_mono`), all
that was pending is in the document (`Writes.keeps`), and each block belongs to
an instance whose nested instances are in the document too (`Writes.source`).
-/

namespace EntityRdf

namespace Registry

variable {R : Registry} {m n : Nat} {doc doc' : Document} {e : Instance}
  {work : List (Nat × Instance)}

/-- The document has the block of the instance. -/
def Keeps (R : Registry) (doc : Document) (e : Instance) : Prop :=
  ∃ b, R.blockOf e = .ok b ∧ doc.block? b.subject = some b

/-! ## The pending list -/

/-- From the first document and the pending instances, each with its depth, the
encoder reaches the second document. -/
inductive Writes (R : Registry) (m : Nat) :
    Document → List (Nat × Instance) → Document → Prop
  /-- Nothing is pending. -/
  | done (doc : Document) : Writes R m doc [] doc
  /-- The block is there: what is nested in the instance is not looked at. -/
  | again {doc doc' : Document} {n : Nat} {e : Instance} {b : Block} {rest : List (Nat × Instance)}
      (hn : n ≤ m) (hb : R.blockOf e = .ok b) (hold : doc.block? b.subject = some b)
      (hrest : Writes R m doc rest doc') : Writes R m doc ((n, e) :: rest) doc'
  /-- The block is new: what is nested in the instance comes next. -/
  | fresh {doc doc' : Document} {n : Nat} {e : Instance} {b : Block} {rest : List (Nat × Instance)}
      (hn : n ≤ m) (hb : R.blockOf e = .ok b) (hnew : doc.block? b.subject = none)
      (hrest : Writes R m (doc.push b) ((R.nested e).map (n + 1, ·) ++ rest) doc') :
      Writes R m doc ((n, e) :: rest) doc'

/-- One instance is written when it is within the depth limit and its block is
there already or can be added with all that is nested. -/
theorem encodeInto_eq_ok :
    R.encodeInto m n doc e = .ok doc' ↔ n ≤ m ∧ ∃ b, R.blockOf e = .ok b ∧
      ((doc.block? b.subject = some b ∧ doc' = doc) ∨
        (doc.block? b.subject = none ∧
          (R.nested e).foldlM (R.encodeInto m (n + 1)) (doc.push b) = .ok doc')) := by
  rw [encodeInto_eq]
  cases hat : R.blockAt m n e with
  | error err =>
    -- an instance within the limit that has a block would not be refused
    constructor
    · rintro ⟨⟩
    · rintro ⟨hn, b, hb, -⟩
      obtain ⟨d, s, hd, -⟩ := blockOf_eq_ok.mp hb
      rw [blockAt_eq_ok.mpr ⟨hd, hn, hb⟩] at hat
      cases hat
  | ok db =>
    obtain ⟨d, b⟩ := db
    obtain ⟨hd, hn, hb⟩ := blockAt_eq_ok.mp hat
    simp only [hn, true_and, nested_eq hd, hb, Except.ok.injEq, exists_eq_left']
    cases hold : doc.block? b.subject with
    | none => simp
    | some old =>
      by_cases hsame : old = b
      · simp [hsame, eq_comm]
      · simp [hsame]

/-- Writing one instance and then the rest is a run over both. -/
private theorem writes_of_encodeInto {mid : Document} {rest : List (Nat × Instance)}
    (h : R.encodeInto m n doc e = .ok mid) (hrest : R.Writes m mid rest doc') :
    R.Writes m doc ((n, e) :: rest) doc' := by
  induction hsize : sizeOf e using Nat.strongRecOn generalizing n doc e mid rest with
  | ind size ih =>
    obtain ⟨hn, b, hb, ⟨hold, rfl⟩ | ⟨hnew, hfold⟩⟩ := encodeInto_eq_ok.mp h
    · exact .again hn hb hold hrest
    · refine .fresh hn hb hnew ?_
      -- the nested instances are smaller; they are written one after the other
      have hsub : ∀ c ∈ R.nested e, sizeOf c < size := fun c hc =>
        hsize ▸ sizeOf_lt_of_mem_nested hc
      generalize doc.push b = start at hfold ⊢
      generalize R.nested e = l at hfold hsub ⊢
      induction l generalizing start with
      | nil =>
        cases hfold
        exact hrest
      | cons c cs ihc =>
        rw [List.foldlM_cons, bind_eq_ok] at hfold
        obtain ⟨next, hc, hcs⟩ := hfold
        exact ih (sizeOf c) (hsub c (List.mem_cons_self ..)) hc
          (ihc next hcs fun c' hc' => hsub c' (List.mem_cons_of_mem _ hc')) rfl

/-- The encoder succeeds exactly when there is a run over the pending list. -/
theorem writes_iff :
    R.Writes m doc work doc' ↔
      work.foldlM (fun doc w => R.encodeInto m w.1 doc w.2) doc = .ok doc' := by
  constructor
  · intro h
    induction h with
    | done doc => rfl
    | again hn hb hold _ ih =>
      rw [List.foldlM_cons, bind_eq_ok]
      exact ⟨_, encodeInto_eq_ok.mpr ⟨hn, _, hb, Or.inl ⟨hold, rfl⟩⟩, ih⟩
    | fresh hn hb hnew _ ih =>
      -- the fold over the nested instances comes first, then the rest
      rw [List.foldlM_append, bind_eq_ok] at ih
      obtain ⟨mid, hnested, hrest⟩ := ih
      rw [List.foldlM_map] at hnested
      rw [List.foldlM_cons, bind_eq_ok]
      exact ⟨mid, encodeInto_eq_ok.mpr ⟨hn, _, hb, Or.inr ⟨hnew, hnested⟩⟩, hrest⟩
  · intro h
    induction work generalizing doc with
    | nil =>
      cases h
      exact .done _
    | cons w rest ih =>
      rw [List.foldlM_cons, bind_eq_ok] at h
      obtain ⟨mid, hw, hrest⟩ := h
      exact writes_of_encodeInto hw (ih hrest)

/-- Encoding a list is a run from the empty document, with the whole list pending at the
top level. -/
theorem encodeAll_eq_ok {cfg : Config} {l : List Instance} :
    R.encodeAll cfg l = .ok doc ↔ R.Writes cfg.maxDepth .empty (l.map (0, ·)) doc := by
  rw [writes_iff, List.foldlM_map]
  rfl

/-! ## What a run keeps -/

/-- A block stays as it was written. -/
theorem Writes.block?_mono (h : R.Writes m doc work doc') {s : String} {x : Block}
    (hx : doc.block? s = some x) : doc'.block? s = some x := by
  induction h with
  | done doc => exact hx
  | again _ _ _ _ ih => exact ih hx
  | fresh _ _ _ _ ih => exact ih (Document.block?_push_of_some hx _)

/-- A run never writes a second block for a subject. -/
theorem Writes.nodup_subjects (h : R.Writes m doc work doc') (hdoc : doc.subjects.Nodup) :
    doc'.subjects.Nodup := by
  induction h with
  | done doc => exact hdoc
  | again _ _ _ _ ih => exact ih hdoc
  | fresh _ _ hnew _ ih =>
    refine ih ?_
    -- the pushed subject is new
    rw [Document.subjects_push, List.nodup_append]
    refine ⟨hdoc, List.nodup_singleton _, ?_⟩
    rintro s hs t ht rfl
    obtain rfl := List.mem_singleton.mp ht
    exact Document.block?_eq_none_iff.mp hnew hs

/-- All that was pending is in the document at the end. -/
theorem Writes.keeps (h : R.Writes m doc work doc') : ∀ w ∈ work, R.Keeps doc' w.2 := by
  induction h with
  | done doc => simp
  | again _ hb hold hrest ih =>
    exact List.forall_mem_cons.mpr ⟨⟨_, hb, hrest.block?_mono hold⟩, ih⟩
  | fresh _ hb hnew hrest ih =>
    refine List.forall_mem_cons.mpr ⟨⟨_, hb, ?_⟩, fun w hw => ih w (List.mem_append_right _ hw)⟩
    exact hrest.block?_mono (Document.block?_push_self hnew)

/-- Each new block belongs to an instance that occurs in what was pending, within the
limit, and the instances nested directly in that one are in the document as well. -/
theorem Writes.source (h : R.Writes m doc work doc') :
    ∀ b ∈ doc'.blocks, b ∈ doc.blocks ∨
      ∃ w ∈ work, ∃ n e, (n, e) ∈ R.preorder w.1 w.2 ∧ n ≤ m ∧ R.blockOf e = .ok b ∧
        ∀ c ∈ R.nested e, R.Keeps doc' c := by
  induction h with
  | done doc => exact fun b hb => Or.inl hb
  | again _ _ _ _ ih =>
    intro b hb
    refine (ih b hb).imp id ?_
    rintro ⟨w, hw, hfound⟩
    exact ⟨w, List.mem_cons_of_mem _ hw, hfound⟩
  | @fresh doc doc' n e b rest hn hb _ hrest ih =>
    intro x hx
    have hkids : ∀ c ∈ R.nested e, R.Keeps doc' c := fun c hc =>
      hrest.keeps (n + 1, c) (List.mem_append_left _ (List.mem_map.mpr ⟨c, hc, rfl⟩))
    -- the block was there, is the pushed one, or comes later in the run
    rcases ih x hx with hx | ⟨w, hw, k, y, hy, hfound⟩
    · rcases List.mem_append.mp hx with hx | hx
      · exact Or.inl hx
      · obtain rfl := List.mem_singleton.mp hx
        exact Or.inr ⟨(n, e), List.mem_cons_self .., n, e, mem_preorder_self n e, hn, hb, hkids⟩
    · refine Or.inr ?_
      rcases List.mem_append.mp hw with hw | hw
      · -- a nested instance, which occurs in the one that was pending
        obtain ⟨c, hc, rfl⟩ := List.mem_map.mp hw
        exact ⟨(n, e), List.mem_cons_self .., k, y, mem_preorder.mpr (Or.inr ⟨c, hc, hy⟩), hfound⟩
      · exact ⟨w, List.mem_cons_of_mem _ hw, k, y, hy, hfound⟩

/-! ## Encoded documents -/

section EncodeAll

variable {cfg : Config} {l : List Instance}

/-- An encoded document has one block for each subject. -/
theorem encodeAll_nodup_subjects (h : R.encodeAll cfg l = .ok doc) : doc.subjects.Nodup :=
  (encodeAll_eq_ok.mp h).nodup_subjects List.nodup_nil

/-- Every instance of the list has its block in the document. -/
theorem encodeAll_keeps (h : R.encodeAll cfg l = .ok doc) (he : e ∈ l) : R.Keeps doc e :=
  (encodeAll_eq_ok.mp h).keeps (0, e) (List.mem_map.mpr ⟨e, he, rfl⟩)

/-- Each block of an encoded document belongs to an occurrence within the depth limit,
whose nested instances are in the document as well. -/
theorem encodeAll_source_depth (h : R.encodeAll cfg l = .ok doc) {b : Block}
    (hb : b ∈ doc.blocks) :
    ∃ n e, (n, e) ∈ R.occurrences l ∧ n ≤ cfg.maxDepth ∧ R.blockOf e = .ok b ∧
      ∀ c ∈ R.nested e, R.Keeps doc c := by
  rcases (encodeAll_eq_ok.mp h).source b hb with hb | ⟨w, hw, n, e, he, hfound⟩
  · simp [Document.empty] at hb
  · obtain ⟨r, hr, rfl⟩ := List.mem_map.mp hw
    exact ⟨n, e, mem_occurrences.mpr ⟨r, hr, he⟩, hfound⟩

/-- The same without depths. -/
theorem encodeAll_source (h : R.encodeAll cfg l = .ok doc) {b : Block} (hb : b ∈ doc.blocks) :
    ∃ e, R.OccursIn l e ∧ R.blockOf e = .ok b ∧ ∀ c ∈ R.nested e, R.Keeps doc c := by
  obtain ⟨n, e, he, -, hfound⟩ := encodeAll_source_depth h hb
  exact ⟨e, ⟨n, he⟩, hfound⟩

end EncodeAll

end Registry

end EntityRdf

import EntityRdf.Conformance.Document
import EntityRdf.Proofs.DocumentChecks
import EntityRdf.Proofs.FailedRuns

/-!
# Documents with one block for each subject

Merging a block into a document adds its triples to the block of its subject, or adds the
block. So the subjects stay distinct, the document gains the subject and the triples of the
block and nothing else (`mem_subjects_mergeAll`, `mem_triples_mergeAll`), and a block of
which everything is there already changes nothing (`merge_eq_self`).

Main results: `nodup_mergeAll` and `mergeAll_again`, and `decode_ne_duplicateSubject` for the
decoding of such a document.
-/

namespace EntityRdf

/-! ## Merging blocks -/

namespace Block

variable {b : Block} {pairs : List (String × Object)} {p : String × Object}

/-- A block that takes in pairs remains the block of its subject. -/
@[simp] theorem subject_addMissing (b : Block) (pairs : List (String × Object)) :
    (b.addMissing pairs).subject = b.subject := by
  unfold addMissing
  induction pairs generalizing b with
  | nil => rfl
  | cons q rest ih =>
    rw [List.foldl_cons, ih]
    split <;> rfl

/-- A block that takes in pairs has those it had and those it took in. That a pair is not
taken in twice does not show here, as only membership is asked. -/
theorem mem_addMissing : p ∈ (b.addMissing pairs).pairs ↔ p ∈ b.pairs ∨ p ∈ pairs := by
  unfold addMissing
  induction pairs generalizing b with
  | nil => simp
  | cons q rest ih =>
    rw [List.foldl_cons, ih, List.mem_cons]
    split
    · rename_i hq
      constructor
      · rintro (hp | hp)
        · exact Or.inl hp
        · exact Or.inr (Or.inr hp)
      · -- a pair that is there is not added again
        rintro (hp | rfl | hp)
        · exact Or.inl hp
        · exact Or.inl hq
        · exact Or.inr hp
    · simp [push, or_assoc]

/-- A block that takes in only what it has is unchanged. -/
theorem addMissing_eq_self (h : ∀ p ∈ pairs, p ∈ b.pairs) : b.addMissing pairs = b := by
  unfold addMissing
  induction pairs with
  | nil => rfl
  | cons q rest ih =>
    obtain ⟨hq, hrest⟩ := List.forall_mem_cons.mp h
    rw [List.foldl_cons, if_pos hq, ih hrest]

/-- A triple of a block has its subject, and its predicate and object form one of the
pairs. -/
theorem mem_triples {t : Triple} :
    t ∈ b.triples ↔ b.subject = t.subject ∧ (t.predicate, t.object) ∈ b.pairs := by
  rw [triples, List.mem_map]
  constructor
  · rintro ⟨p, hp, rfl⟩
    exact ⟨rfl, hp⟩
  · rintro ⟨hs, hp⟩
    exact ⟨_, hp, by rw [hs]⟩

end Block

namespace Document

variable {doc : Document} {b : Block} {bs : List Block} {s : String} {t : Triple}

/-- A triple of a document stands in one of its blocks. -/
theorem mem_triples : t ∈ doc.triples ↔ ∃ b ∈ doc.blocks, t ∈ b.triples := List.mem_flatMap

/-- Merging a block adds its subject at the end, unless it is there: then a block is
found, and no other is added. -/
theorem subjects_merge (doc : Document) (b : Block) :
    (doc.merge b).subjects =
      if b.subject ∈ doc.subjects then doc.subjects else doc.subjects ++ [b.subject] := by
  rw [subjects, subjects, merge]
  induction doc.blocks with
  | nil => rfl
  | cons a rest ih =>
    -- the search for the subject stops at the first block that has it
    rw [mergeInto]
    by_cases ha : a.subject = b.subject
    · rw [if_pos ha]
      simp [ha]
    · have hne : ¬ b.subject = a.subject := fun heq => ha heq.symm
      rw [if_neg ha, List.map_cons, ih, List.map_cons]
      simp only [List.mem_cons, hne, false_or]
      split <;> rfl

/-- The subjects after a merge are those before and that of the block. -/
theorem mem_subjects_merge : s ∈ (doc.merge b).subjects ↔ s ∈ doc.subjects ∨ s = b.subject := by
  rw [subjects_merge]
  split
  · rename_i hb
    exact ⟨Or.inl, fun h => h.elim id fun heq => heq ▸ hb⟩
  · simp

/-- The triples after a merge are those before and those of the block, whether its pairs
went into a block that was there or into a new one. -/
theorem mem_triples_merge : t ∈ (doc.merge b).triples ↔ t ∈ doc.triples ∨ t ∈ b.triples := by
  rw [triples, triples, merge]
  induction doc.blocks with
  | nil => simp [mergeInto]
  | cons a rest ih =>
    rw [mergeInto]
    split
    · -- the first block of the subject takes in the pairs
      rename_i ha
      simp only [List.flatMap_cons, List.mem_append, Block.mem_triples, Block.subject_addMissing,
        Block.mem_addMissing, ha]
      tauto
    · rw [List.flatMap_cons, List.mem_append, ih, List.flatMap_cons, List.mem_append, or_assoc]

/-- A block whose subject and triples are there already changes nothing. -/
theorem merge_eq_self (hnodup : doc.subjects.Nodup) (hs : b.subject ∈ doc.subjects)
    (ht : ∀ t ∈ b.triples, t ∈ doc.triples) : doc.merge b = doc := by
  unfold merge
  refine congrArg Document.mk ?_
  rw [subjects] at hnodup hs
  simp only [mem_triples] at ht
  generalize doc.blocks = blocks at hnodup hs ht
  induction blocks with
  | nil => simp at hs
  | cons a rest ih =>
    obtain ⟨ha, hrest⟩ := List.nodup_cons.mp hnodup
    rw [mergeInto]
    split
    · -- no later block has the subject, so the triples are those of this one
      rename_i heq
      rw [Block.addMissing_eq_self]
      intro p hp
      obtain ⟨c, hc, hpc⟩ := ht ⟨b.subject, p.1, p.2⟩ (Block.mem_triples.mpr ⟨rfl, hp⟩)
      obtain ⟨hsubject, hpair⟩ := Block.mem_triples.mp hpc
      rcases List.mem_cons.mp hc with rfl | hc
      · exact hpair
      · exact absurd (List.mem_map.mpr ⟨c, hc, hsubject.trans heq.symm⟩) ha
    · rename_i hne
      rw [List.map_cons, List.mem_cons] at hs
      -- the first block is of another subject, so the triples are in the rest
      refine congrArg (a :: ·) (ih hrest (hs.resolve_left (Ne.symm hne)) fun t htb => ?_)
      obtain ⟨c, hc, htc⟩ := ht t htb
      rcases List.mem_cons.mp hc with rfl | hc
      · have hbt := (Block.mem_triples.mp htb).1
        exact absurd ((Block.mem_triples.mp htc).1.trans hbt.symm) hne
      · exact ⟨c, hc, htc⟩

/-! ### Several blocks -/

/-- Merges blocks one after the other. -/
def mergeAll (doc : Document) (bs : List Block) : Document := bs.foldl merge doc

theorem mergeAll_append (doc : Document) (bs bs' : List Block) :
    doc.mergeAll (bs ++ bs') = (doc.mergeAll bs).mergeAll bs' := List.foldl_append

/-- Merging never makes a second block for a subject. -/
theorem nodup_mergeAll (h : doc.subjects.Nodup) (bs : List Block) :
    (doc.mergeAll bs).subjects.Nodup := by
  unfold mergeAll
  induction bs generalizing doc with
  | nil => exact h
  | cons b rest ih =>
    -- one merge keeps the subjects distinct, and then the rest does
    refine ih ?_
    rw [subjects_merge]
    split
    · exact h
    · rename_i hb
      refine List.nodup_append.mpr ⟨h, List.nodup_singleton _, ?_⟩
      rintro s hs _ hmem rfl
      exact hb (List.mem_singleton.mp hmem ▸ hs)

/-- A document without blocks repeats no subject; this is where merging starts. -/
theorem nodup_subjects_empty : empty.subjects.Nodup := List.nodup_nil

/-- The subjects after merging several blocks are those before and those of the
blocks. -/
theorem mem_subjects_mergeAll :
    s ∈ (doc.mergeAll bs).subjects ↔ s ∈ doc.subjects ∨ ∃ b ∈ bs, s = b.subject := by
  unfold mergeAll
  induction bs generalizing doc with
  | nil => simp
  | cons b rest ih => simp [ih, mem_subjects_merge, or_assoc]

/-- The triples after merging several blocks are those before and those of the blocks. -/
theorem mem_triples_mergeAll :
    t ∈ (doc.mergeAll bs).triples ↔ t ∈ doc.triples ∨ ∃ b ∈ bs, t ∈ b.triples := by
  unfold mergeAll
  induction bs generalizing doc with
  | nil => simp
  | cons b rest ih => simp [ih, mem_triples_merge, or_assoc]

/-- Blocks that were merged already change nothing. -/
theorem mergeAll_again (hnodup : doc.subjects.Nodup) {again : List Block}
    (h : ∀ b ∈ again, b ∈ bs) : (doc.mergeAll bs).mergeAll again = doc.mergeAll bs := by
  -- the subject and the triples of a merged block are there
  have hstable : ∀ b ∈ bs, (doc.mergeAll bs).merge b = doc.mergeAll bs := fun b hb =>
    merge_eq_self (nodup_mergeAll hnodup bs) (mem_subjects_mergeAll.mpr (Or.inr ⟨b, hb, rfl⟩))
      fun t ht => mem_triples_mergeAll.mpr (Or.inr ⟨b, hb, ht⟩)
  generalize doc.mergeAll bs = start at hstable ⊢
  unfold mergeAll
  induction again with
  | nil => rfl
  | cons b rest ih =>
    obtain ⟨hb, hrest⟩ := List.forall_mem_cons.mp h
    rw [List.foldl_cons, hstable b hb, ih hrest]

end Document

/-! ## Decoding with distinct subjects -/

namespace Registry

variable {R : Registry} {cfg : Config} {strict : Bool} {doc : Document} {b : Block} {s u : String}
  {path : List String} {err : MappingError}

/-- What can be wrong with a single block is never that a subject is repeated. -/
theorem BlockFault.ne_duplicateSubject (h : R.BlockFault strict doc b err) :
    err ≠ .duplicateSubject u := by
  cases h with
  | types h =>
    obtain rfl | ⟨tag, rfl⟩ := error_of_classOf h
    · simp
    · simp
  | pairs _ h =>
    obtain ⟨-, p, -, -, -, rfl⟩ := error_of_fieldObjects h
    simp
  | group _ _ _ h =>
    cases h with
    | count => simp
    | reference _ h => cases h <;> simp

/-- What can be wrong on the way down to a block is never that a subject is repeated. -/
theorem ne_duplicateSubject_of_runFault (h : RunFault cfg path s err) :
    err ≠ .duplicateSubject u := by
  cases h <;> simp

/-- Where the subjects are distinct, decoding never says that one is not. -/
theorem decode_ne_duplicateSubject (h : doc.subjects.Nodup) :
    R.decode cfg doc ≠ .error (.duplicateSubject u) := by
  intro herr
  -- only the check of the subjects fails with this error, and it does not fail
  rcases fault_of_decode herr with hcheck | ⟨b, -, hfault⟩ | ⟨path, s, -, hrun⟩
  · have hok : doc.checkSubjects = .ok () := Document.checkSubjects_eq_ok.mpr h
    rw [hok] at hcheck
    cases hcheck
  · exact hfault.ne_duplicateSubject rfl
  · exact ne_duplicateSubject_of_runFault hrun rfl

/-- The same holds when only one subject is decoded. -/
theorem decodeSubject_ne_duplicateSubject (h : doc.subjects.Nodup) :
    R.decodeSubject cfg doc s ≠ .error (.duplicateSubject u) := by
  intro herr
  have hok : doc.checkSubjects = .ok () := Document.checkSubjects_eq_ok.mpr h
  rw [decodeSubject, hok, ok_bind] at herr
  split at herr
  · rcases bind_eq_error.mp herr with herr | ⟨_, -, herr⟩
    · -- as for a whole document, except that there is only one place to start from
      rcases fault_of_decodeAt (.nil R doc s) herr with
        ⟨-, heq⟩ | ⟨b, -, hfault⟩ | ⟨path, s', -, hrun⟩
      · cases heq
      · exact hfault.ne_duplicateSubject rfl
      · exact ne_duplicateSubject_of_runFault hrun rfl
    · cases herr
  · cases herr

/-- The check of subjects passes on a document that repeats none. -/
theorem severity_checkSubjects (h : doc.subjects.Nodup) :
    (checkSubjects doc).severity = .pass := by
  rw [checkSubjects, Document.repeatedSubjects_eq_nil.mpr h]
  rfl

end Registry

end EntityRdf

import EntityRdf.Proofs.Merging

/-!
# Encoding in steps

The encoder threads one output through its list. Blocks are only appended to it
(`Writes.blocks_prefix`), so what a list begins with gives the blocks that its
document begins with. An instance whose block is there changes nothing
(`Keeps.encodeInto_eq`), no matter whether the block was written for a member of
the list or for what is nested in one.

An `Output` has, beside the document, the position of the block of each subject.
The two stay in step, and the encoder that looks blocks up by position is the same
function (`outputAll_eq`).

Main result: `encodeAll_incremental`.
-/

namespace EntityRdf

@[simp, grind =] theorem Document.length_subjects (doc : Document) :
    doc.subjects.length = doc.blocks.length := List.length_map ..

/-- A pushed block takes the next position and leaves the others. -/
theorem Document.getElem?_subjects_push (doc : Document) (b : Block) (i : Nat) :
    (doc.push b).subjects[i]? =
      if i = doc.blocks.length then some b.subject else doc.subjects[i]? := by
  rw [Document.subjects_push]
  grind

/-- A document with the positions of its blocks. -/
structure Output where
  document : Document
  /-- Each subject with the position of its block. -/
  index : StringMap Nat
  /-- The index has the position of each block, and no subject has two. -/
  inStep : ∀ s i, index.get? s = some i ↔ document.subjects[i]? = some s

namespace Output

def empty : Output := ⟨.empty, .empty, by simp [Document.subjects, Document.empty]⟩

/-- The position of a block that is appended is the number of blocks before it. -/
theorem inStep_push (out : Output) {b : Block} (hnew : out.index.get? b.subject = none)
    (s : String) (i : Nat) :
    (out.index.insert b.subject out.document.blocks.length).get? s = some i ↔
      (out.document.push b).subjects[i]? = some s := by
  rw [Document.getElem?_subjects_push]
  by_cases hs : s = b.subject
  · -- the subject is new, so that it stands at no position before
    subst hs
    have hbefore : out.document.subjects[i]? ≠ some b.subject := by
      simp [← out.inStep, hnew]
    rw [StringMap.get?_insert_self]
    split
    · rename_i hi
      simp [hi]
    · rename_i hi
      simp [hbefore, Ne.symm hi]
  · rw [StringMap.get?_insert_of_ne _ hs, out.inStep]
    split
    · rename_i hi
      have hnone : out.document.subjects[i]? = none := List.getElem?_eq_none (by simp [hi])
      simp [hnone, Ne.symm hs]
    · rfl

/-- Appends a block with a new subject. -/
def push (out : Output) (b : Block) (hnew : out.index.get? b.subject = none) : Output where
  document := out.document.push b
  index := out.index.insert b.subject out.document.blocks.length
  inStep := out.inStep_push hnew

/-- Appends a block unless it is there, and says whether it did. -/
def insert (out : Output) (b : Block) : Except MappingError (Bool × Output) :=
  match h : out.index.get? b.subject with
  | some i =>
    if out.document.blocks[i]? = some b then .ok (false, out)
    else .error (.duplicateSubject b.subject)
  | none => .ok (true, out.push b h)

/-- At the position of a subject there is a block with that subject. -/
theorem exists_block {out : Output} {s : String} {i : Nat} (h : out.index.get? s = some i) :
    ∃ b, out.document.blocks[i]? = some b ∧ b.subject = s := by
  have hs := (out.inStep s i).mp h
  rwa [Document.subjects, List.getElem?_map, Option.map_eq_some_iff] at hs

/-- It is the first one with that subject. -/
theorem block?_eq (out : Output) (s : String) :
    out.document.block? s = (out.index.get? s).bind (out.document.blocks[·]?) := by
  cases hi : out.index.get? s with
  | none =>
    rw [Option.bind_none, Document.block?_eq_none_iff]
    intro hs
    obtain ⟨i, hi'⟩ := List.getElem?_of_mem hs
    rw [(out.inStep s i).mpr hi'] at hi
    cases hi
  | some i =>
    obtain ⟨b, hb, hbs⟩ := exists_block hi
    obtain ⟨hlt, hget⟩ := List.getElem?_eq_some_iff.mp hb
    rw [Option.bind_some, hb, Document.block?, List.find?_eq_some_iff_getElem]
    refine ⟨by simpa using hbs, i, hlt, hget, fun j hj => ?_⟩
    -- an earlier block of the subject would have the same position
    have hne : (out.document.blocks[j]).subject ≠ s := by
      intro hjs
      have hpos : out.index.get? s = some j := by
        rw [out.inStep, Document.subjects, List.getElem?_map,
          List.getElem?_eq_getElem (Nat.lt_trans hj hlt)]
        exact congrArg some hjs
      rw [hi, Option.some.injEq] at hpos
      omega
    simpa using hne

/-- A block whose subject has one is compared with it. -/
theorem insert_of_some {out : Output} {b old : Block}
    (h : out.document.block? b.subject = some old) :
    out.insert b = if old = b then .ok (false, out) else .error (.duplicateSubject b.subject) := by
  rw [block?_eq, Option.bind_eq_some_iff] at h
  obtain ⟨i, hi, hold⟩ := h
  rw [insert]
  split
  · rename_i j hj
    rw [hi] at hj
    cases hj
    rw [hold]
    simp only [Option.some.injEq]
  · rename_i hnew
    rw [hi] at hnew
    cases hnew

/-- A block with a new subject is appended. -/
theorem insert_of_none {out : Output} {b : Block} (h : out.document.block? b.subject = none) :
    ∃ next, out.insert b = .ok (true, next) ∧ next.document = out.document.push b := by
  rw [insert]
  split
  · rename_i i hi
    obtain ⟨old, hold, -⟩ := exists_block hi
    rw [block?_eq, hi, Option.bind_some, hold] at h
    cases h
  · exact ⟨_, rfl, rfl⟩

end Output

namespace Registry

variable {R : Registry} {cfg : Config} {m n : Nat} {doc doc' : Document} {e : Instance}
  {l l' : List Instance} {work : List (Nat × Instance)}

/-! ## The indexed output -/

/-- Writes an instance found at some depth to an output, then the instances nested in
it. -/
def outputInto (R : Registry) (maxDepth depth : Nat) (out : Output) (e : Instance) :
    Except MappingError Output :=
  match R.blockAt maxDepth depth e with
  | .error err => .error err
  | .ok (d, b) =>
    match out.insert b with
    | .error err => .error err
    | .ok (false, out) => .ok out
    | .ok (true, out) =>
      (d.nestedIn e).attach.foldlM (fun out c => R.outputInto maxDepth (depth + 1) out c.1) out
termination_by sizeOf e
decreasing_by exact ClassDescriptor.sizeOf_lt_of_mem_nestedIn c.2

/-- The document of all instances, with positions kept along the way. -/
def outputAll (R : Registry) (cfg : Config) (es : List Instance) : Except MappingError Document :=
  (es.foldlM (R.outputInto cfg.maxDepth 0) .empty).map (·.document)

/-- The recursion of the indexed output, with the measure out of the way. -/
theorem outputInto_eq (R : Registry) (m n : Nat) (out : Output) (e : Instance) :
    R.outputInto m n out e =
      match R.blockAt m n e with
      | .error err => .error err
      | .ok (d, b) =>
        match out.insert b with
        | .error err => .error err
        | .ok (false, out) => .ok out
        | .ok (true, out) => (d.nestedIn e).foldlM (R.outputInto m (n + 1)) out := by
  rw [outputInto]
  split
  · rfl
  · split
    · rfl
    · rfl
    · simp

/-- The output of an instance has the document that the encoder makes. -/
theorem outputInto_document (out : Output) (e : Instance) :
    (R.outputInto m n out e).map (·.document) = R.encodeInto m n out.document e := by
  induction hsize : sizeOf e using Nat.strongRecOn generalizing n out e with
  | ind size ih =>
    rw [outputInto_eq, encodeInto_eq]
    cases R.blockAt m n e with
    | error err => rfl
    | ok db =>
      obtain ⟨d, b⟩ := db
      dsimp only
      cases hold : out.document.block? b.subject with
      | some old =>
        rw [Output.insert_of_some hold]
        by_cases hsame : old = b
        · simp [hsame, Except.map]
        · simp [hsame, Except.map]
      | none =>
        obtain ⟨next, hinsert, hnext⟩ := Output.insert_of_none hold
        rw [hinsert, ← hnext]
        -- the nested instances are smaller
        exact map_foldlM (fun c hc out' => ih (sizeOf c)
          (hsize ▸ ClassDescriptor.sizeOf_lt_of_mem_nestedIn hc) out' c rfl) next

/-- Looking blocks up by position gives the same document, or the same error. -/
theorem outputAll_eq (R : Registry) (cfg : Config) (l : List Instance) :
    R.outputAll cfg l = R.encodeAll cfg l :=
  map_foldlM (fun e _ out => outputInto_document out e) .empty

/-! ## Growing lists -/

/-- Blocks are only appended. -/
theorem Writes.blocks_prefix (h : R.Writes m doc work doc') : doc.blocks <+: doc'.blocks := by
  induction h with
  | done doc => exact List.prefix_rfl
  | again _ _ _ _ ih => exact ih
  | fresh _ _ _ _ ih => exact (List.prefix_append ..).trans ih

/-- An instance whose block is there changes nothing. -/
theorem Keeps.encodeInto_eq (h : R.Keeps doc e) (hn : n ≤ m) :
    R.encodeInto m n doc e = .ok doc := by
  obtain ⟨b, hb, hdoc⟩ := h
  exact encodeInto_eq_ok.mpr ⟨hn, b, hb, Or.inl ⟨hdoc, rfl⟩⟩

/-- A longer list is encoded by going on with the document of its first part. -/
theorem encodeAll_append :
    R.encodeAll cfg (l ++ l') = .ok doc' ↔ ∃ doc, R.encodeAll cfg l = .ok doc ∧
      R.Writes cfg.maxDepth doc (l'.map (0, ·)) doc' := by
  simp only [writes_iff, List.foldlM_map]
  rw [encodeAll, List.foldlM_append, bind_eq_ok]
  rfl

/-- The document of a list, whether blocks are looked up by position or not, begins with the
blocks of any first part of the list, and it stays as it is when members of the list come
again. -/
theorem encodeAll_incremental (R : Registry) (cfg : Config) (l l' : List Instance) :
    (∀ es, R.outputAll cfg es = R.encodeAll cfg es) ∧
    (∀ doc, R.encodeAll cfg (l ++ l') = .ok doc →
      ∃ start, R.encodeAll cfg l = .ok start ∧ start.blocks <+: doc.blocks) ∧
    ∀ doc, R.encodeAll cfg l = .ok doc → (∀ e ∈ l', e ∈ l) →
      R.encodeAll cfg (l ++ l') = .ok doc := by
  refine ⟨outputAll_eq R cfg, ?_, ?_⟩
  · intro doc h
    obtain ⟨start, hstart, hrest⟩ := encodeAll_append.mp h
    exact ⟨start, hstart, hrest.blocks_prefix⟩
  · intro doc h hagain
    -- the members are there, whichever of them wrote their blocks
    have hkept : ∀ e ∈ l', R.Keeps doc e := fun e he => encodeAll_keeps h (hagain e he)
    refine encodeAll_append.mpr ⟨doc, h, ?_⟩
    rw [writes_iff, List.foldlM_map]
    exact foldlM_eq_self fun e he => (hkept e he).encodeInto_eq (Nat.zero_le _)

/-- A part after the asset that it is nested in, then both of them again. -/
theorem encodeAll_incremental_parts :
    ∃ doc start,
      assets.encodeAll .default ([asset "urn:a" [part "urn:c" "x"]] ++ [part "urn:c" "x"]) =
        .ok doc ∧
      assets.outputAll .default ([asset "urn:a" [part "urn:c" "x"]] ++ [part "urn:c" "x"]) =
        .ok doc ∧
      assets.encodeAll .default (([asset "urn:a" [part "urn:c" "x"]] ++ [part "urn:c" "x"]) ++
        [part "urn:c" "x", asset "urn:a" [part "urn:c" "x"], part "urn:c" "x"]) = .ok doc ∧
      assets.encodeAll .default [asset "urn:a" [part "urn:c" "x"]] = .ok start ∧
      start.blocks <+: doc.blocks := by
  have hrun : ∃ doc, assets.encodeAll .default
      ([asset "urn:a" [part "urn:c" "x"]] ++ [part "urn:c" "x"]) = .ok doc :=
    exists_of_isOk (by decide +kernel)
  obtain ⟨doc, hdoc⟩ := hrun
  obtain ⟨hindexed, hfirst, -⟩ := encodeAll_incremental assets .default
    [asset "urn:a" [part "urn:c" "x"]] [part "urn:c" "x"]
  obtain ⟨start, hstart, hprefix⟩ := hfirst doc hdoc
  obtain ⟨-, -, hagain⟩ := encodeAll_incremental assets .default
    ([asset "urn:a" [part "urn:c" "x"]] ++ [part "urn:c" "x"])
    [part "urn:c" "x", asset "urn:a" [part "urn:c" "x"], part "urn:c" "x"]
  exact ⟨doc, start, hdoc, (hindexed _).trans hdoc, hagain doc hdoc (by decide +kernel), hstart,
    hprefix⟩

end Registry

end EntityRdf

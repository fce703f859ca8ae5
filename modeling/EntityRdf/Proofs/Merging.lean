import EntityRdf.Proofs.EncoderRun

/-!
# Which conflicts the encoder notices

The encoder compares a block with the block that its subject already has, but it
does not look below a block that is there already. So a conflict is noticed
where blocks meet, and missed where two instances with one and the same block
nest instances that differ.

`Registry.Agrees` says that occurrences of one subject have one block, which is
what a document without silent merges needs. `Registry.Transparent` is the local
form: instances with one block nest, under each subject, instances with one
block.

Main results: `encodeAll_keeps_iff` (an encoded document has the block of every
occurrence exactly when the list is transparent), `encodeAll_settled` (with
nothing else wrong the encoder succeeds or reports a subject that two
occurrences disagree about), and `encodeAll_exposes_conflicts`, which puts them
together. `unnoticed_conflict` is a list on which the encoder drops a label.
-/

namespace EntityRdf.Registry

/-- Occurrences of one subject have one block. -/
def Agrees (R : Registry) (l : List Instance) : Prop :=
  ∀ x y s, R.OccursIn l x → R.OccursIn l y → R.subjectOf x = .ok s → R.subjectOf y = .ok s →
    R.blockOf x = R.blockOf y

/-- Occurrences with one block nest, under each subject, instances with one
block. -/
def Transparent (R : Registry) (l : List Instance) : Prop :=
  ∀ x y b, R.OccursIn l x → R.OccursIn l y → R.blockOf x = .ok b → R.blockOf y = .ok b →
    ∀ c ∈ R.nested x, ∀ c' ∈ R.nested y, R.subjectOf c = R.subjectOf c' →
      R.blockOf c = R.blockOf c'

/-- Two occurrences of the subject have different blocks. -/
def Conflict (R : Registry) (l : List Instance) (s : String) : Prop :=
  ∃ x y, R.OccursIn l x ∧ R.OccursIn l y ∧ R.subjectOf x = .ok s ∧ R.subjectOf y = .ok s ∧
    R.blockOf x ≠ R.blockOf y

variable {R : Registry} {cfg : Config} {l : List Instance} {doc : Document}

theorem agrees_iff_no_conflict : R.Agrees l ↔ ∀ s, ¬ R.Conflict l s := by
  constructor
  · rintro h s ⟨x, y, hx, hy, hxs, hys, hne⟩
    exact hne (h x y s hx hy hxs hys)
  · intro h x y s hx hy hxs hys
    by_contra hne
    exact h s ⟨x, y, hx, hy, hxs, hys, hne⟩

/-! ## What a document keeps -/

/-- Kept instances with one subject have one block. -/
theorem Keeps.blockOf_eq {x y : Instance} {s : String} (hx : R.Keeps doc x) (hy : R.Keeps doc y)
    (hxs : R.subjectOf x = .ok s) (hys : R.subjectOf y = .ok s) : R.blockOf x = R.blockOf y := by
  obtain ⟨b, hb, hdoc⟩ := hx
  obtain ⟨b', hb', hdoc'⟩ := hy
  -- a document has one block under a subject
  have hs : b.subject = s := Except.ok.inj ((subjectOf_of_blockOf hb).symm.trans hxs)
  have hs' : b'.subject = s := Except.ok.inj ((subjectOf_of_blockOf hb').symm.trans hys)
  rw [hs] at hdoc
  rw [hs', hdoc] at hdoc'
  rw [hb, hb', Option.some.inj hdoc']

/-- If the block of an instance is kept, so is each instance nested in it that
agrees with its counterparts elsewhere. -/
theorem keeps_nested (h : R.encodeAll cfg l = .ok doc) (hl : R.Transparent l) {x c : Instance}
    (hx : R.OccursIn l x) (hkeep : R.Keeps doc x) (hc : c ∈ R.nested x) : R.Keeps doc c := by
  obtain ⟨b, hb, hdoc⟩ := hkeep
  -- the block may have been written for another occurrence `y`, whose nested instances are kept
  obtain ⟨y, hy, hyb, hkids⟩ := encodeAll_source h (Document.mem_of_block? hdoc).1
  obtain ⟨s, iri, hcs, hiri⟩ := blockOf_nested hb hc
  obtain ⟨c', hc', hcs'⟩ := nested_of_blockOf hyb hiri
  have heq : R.blockOf c = R.blockOf c' := hl x y b hx hy hb hyb c hc c' hc' (hcs.trans hcs'.symm)
  obtain ⟨b', hb', hdoc'⟩ := hkids c' hc'
  exact ⟨b', heq.trans hb', hdoc'⟩

/-- An encoded document has the block of every occurrence exactly when the list
is transparent. -/
theorem encodeAll_keeps_iff (h : R.encodeAll cfg l = .ok doc) :
    (∀ e, R.OccursIn l e → R.Keeps doc e) ↔ R.Transparent l := by
  constructor
  · intro hall x y b hx hy hb hyb c hc c' hc' hcs
    obtain ⟨s, iri, hs, -⟩ := blockOf_nested hb hc
    exact (hall c (hx.nested hc)).blockOf_eq (hall c' (hy.nested hc')) hs (hcs ▸ hs)
  · intro hl e he
    -- from the members downwards
    refine OccursIn.induction (fun e he => encodeAll_keeps h he) ?_ he
    intro x c hx hkeep hc
    exact keeps_nested h hl hx hkeep hc

/-- Where all occurrences agree, equal blocks hide nothing. -/
theorem Agrees.transparent (h : R.Agrees l) : R.Transparent l := by
  intro x y b hx hy hb hyb c hc c' hc' hcs
  obtain ⟨s, iri, hs, -⟩ := blockOf_nested hb hc
  exact h c c' s (hx.nested hc) (hy.nested hc') hs (hcs ▸ hs)

/-- A transparent list that the encoder accepts has no conflict. -/
theorem Transparent.agrees (hl : R.Transparent l) (h : R.encodeAll cfg l = .ok doc) :
    R.Agrees l := by
  have hall := (encodeAll_keeps_iff h).mpr hl
  intro x y s hx hy hxs hys
  exact (hall x hx).blockOf_eq (hall y hy) hxs hys

/-! ## How the encoder can fail -/

/-- The outcome of an encoding with nothing wrong but conflicts: a document made
of blocks of occurrences, or a conflict. -/
def Settled (R : Registry) (l : List Instance) : Except MappingError Document → Prop
  | .ok doc => ∀ b ∈ doc.blocks, ∃ x, R.OccursIn l x ∧ R.blockOf x = .ok b
  | .error err => ∃ s, err = .duplicateSubject s ∧ R.Conflict l s

/-- A fold is settled if each of its steps is. -/
private theorem settled_foldlM {f : Document → Instance → Except MappingError Document}
    {es : List Instance} (hf : ∀ e ∈ es, ∀ doc, R.Settled l (.ok doc) → R.Settled l (f doc e))
    (hdoc : R.Settled l (.ok doc)) : R.Settled l (es.foldlM f doc) := by
  induction es generalizing doc with
  | nil => exact hdoc
  | cons e rest ih =>
    have hfirst := hf e (List.mem_cons_self ..) doc hdoc
    rw [List.foldlM_cons]
    cases hres : f doc e with
    | error err =>
      rw [hres] at hfirst
      exact hfirst
    | ok mid =>
      rw [hres] at hfirst
      exact ih (fun e' he' => hf e' (List.mem_cons_of_mem _ he')) hfirst

/-- One instance of which every part has a block within the depth limit. -/
private theorem settled_encodeInto {m n : Nat} {e : Instance}
    (hparts : ∀ k x, (k, x) ∈ R.preorder n e →
      R.OccursIn l x ∧ k ≤ m ∧ ∃ b, R.blockOf x = .ok b)
    (hdoc : R.Settled l (.ok doc)) : R.Settled l (R.encodeInto m n doc e) := by
  induction hsize : sizeOf e using Nat.strongRecOn generalizing n e doc with
  | ind size ih =>
    obtain ⟨he, hn, b, hb⟩ := hparts n e (mem_preorder_self n e)
    obtain ⟨d, s, hd, -⟩ := blockOf_eq_ok.mp hb
    rw [encodeInto_eq, blockAt_eq_ok.mpr ⟨hd, hn, hb⟩]
    dsimp only
    cases hold : doc.block? b.subject with
    | some old =>
      show R.Settled l (if old = b then .ok doc else .error (.duplicateSubject b.subject))
      by_cases hsame : old = b
      · rw [if_pos hsame]
        exact hdoc
      · -- the block that is there was written for an occurrence with another block
        rw [if_neg hsame]
        obtain ⟨hmem, hsub⟩ := Document.mem_of_block? hold
        obtain ⟨y, hy, hyb⟩ := hdoc old hmem
        refine ⟨b.subject, rfl, y, e, hy, he, ?_, subjectOf_of_blockOf hb, ?_⟩
        · rw [← hsub]
          exact subjectOf_of_blockOf hyb
        · rw [hyb, hb]
          exact fun heq => hsame (Except.ok.inj heq)
    | none =>
      rw [← nested_eq hd]
      refine settled_foldlM ?_ ?_
      · -- the nested instances are smaller
        intro c hc doc' hdoc'
        refine ih (sizeOf c) (hsize ▸ sizeOf_lt_of_mem_nested hc) ?_ hdoc' rfl
        exact fun k x hx => hparts k x (mem_preorder.mpr (Or.inr ⟨c, hc, hx⟩))
      · -- and they start from the document with the new block
        intro x hx
        rcases List.mem_append.mp hx with hx | hx
        · exact hdoc x hx
        · obtain rfl := List.mem_singleton.mp hx
          exact ⟨e, he, hb⟩

/-- If every occurrence has a block and lies within the depth limit, then the
encoder succeeds or reports a conflict. -/
theorem encodeAll_settled
    (h : ∀ n e, (n, e) ∈ R.occurrences l → n ≤ cfg.maxDepth ∧ ∃ b, R.blockOf e = .ok b) :
    R.Settled l (R.encodeAll cfg l) := by
  refine settled_foldlM ?_ ?_
  · intro e he doc hdoc
    refine settled_encodeInto ?_ hdoc
    intro k x hx
    have hocc : (k, x) ∈ R.occurrences l := mem_occurrences.mpr ⟨e, he, hx⟩
    exact ⟨⟨k, hocc⟩, h k x hocc⟩
  · intro b hb
    simp [Document.empty] at hb

/-- Instances that agree, each with a block within the depth limit, are
encoded. -/
theorem Agrees.encodeAll_eq_ok (hagree : R.Agrees l)
    (h : ∀ n e, (n, e) ∈ R.occurrences l → n ≤ cfg.maxDepth ∧ ∃ b, R.blockOf e = .ok b) :
    ∃ doc, R.encodeAll cfg l = .ok doc := by
  have hsettled := encodeAll_settled h
  cases hres : R.encodeAll cfg l with
  | ok doc => exact ⟨doc, rfl⟩
  | error err =>
    rw [hres] at hsettled
    obtain ⟨s, -, hconflict⟩ := hsettled
    exact absurd hconflict (agrees_iff_no_conflict.mp hagree s)

/-! ## Conflicts exposed and missed -/

/-- What an encoded document says about its list. The blocks of the members are
in it. The blocks of all occurrences are, and no subject is in conflict, exactly
when the list is transparent: below equal blocks a conflict goes unnoticed. When
nothing else is wrong, a failure names a subject in conflict. -/
theorem encodeAll_exposes_conflicts (R : Registry) (cfg : Config) (l : List Instance) :
    (∀ doc, R.encodeAll cfg l = .ok doc →
      (∀ e ∈ l, R.Keeps doc e) ∧
      ((∀ e, R.OccursIn l e → R.Keeps doc e) ↔ R.Transparent l) ∧
      ((∀ s, ¬ R.Conflict l s) ↔ R.Transparent l)) ∧
    ((∀ n e, (n, e) ∈ R.occurrences l → n ≤ cfg.maxDepth ∧ ∃ b, R.blockOf e = .ok b) →
      ∀ err, R.encodeAll cfg l = .error err → ∃ s, err = .duplicateSubject s ∧ R.Conflict l s) := by
  constructor
  · intro doc h
    refine ⟨fun e he => encodeAll_keeps h he, encodeAll_keeps_iff h, ?_⟩
    rw [← agrees_iff_no_conflict]
    exact ⟨Agrees.transparent, fun hl => hl.agrees h⟩
  · intro hparts err herr
    have hsettled : R.Settled l (R.encodeAll cfg l) := encodeAll_settled hparts
    rwa [herr] at hsettled

/-- A labelled part. -/
def part (id label : String) : Instance :=
  ((Instance.new "Part").set "id" (.str id)).set "label" (.str label)

/-- An asset with its parts. -/
def asset (id : String) (parts : List Instance) : Instance :=
  ((Instance.new "Asset").set "id" (.str id)).set "parts" (.entities parts)

/-- One asset twice, its part under two labels: the encoder accepts the list and
drops the second label. -/
theorem unnoticed_conflict :
    ¬ ∀ (R : Registry) (cfg : Config) (l : List Instance) (doc : Document), R.Reachable →
      R.encodeAll cfg l = .ok doc → ∀ e, R.OccursIn l e → R.Keeps doc e := by
  intro h
  have hrun : assets.encodeAll .default
      [asset "urn:a" [part "urn:c" "x"], asset "urn:a" [part "urn:c" "y"]] = .ok ⟨[
        ⟨"urn:a", [(Vocabulary.rdfType, .iri "urn:Asset"), ("urn:part", .iri "urn:c")]⟩,
        ⟨"urn:c", [(Vocabulary.rdfType, .iri "urn:Part"), ("urn:label", .literal "x")]⟩]⟩ := by
    decide +kernel
  -- the second part occurs, but its block is not the one in the document
  have hocc : assets.OccursIn
      [asset "urn:a" [part "urn:c" "x"], asset "urn:a" [part "urn:c" "y"]] (part "urn:c" "y") := by
    have hmem : part "urn:c" "y" ∈ assets.nested (asset "urn:a" [part "urn:c" "y"]) := by
      decide +kernel
    exact (OccursIn.of_mem (by simp)).nested hmem
  have hblock : assets.blockOf (part "urn:c" "y") = .ok
      ⟨"urn:c", [(Vocabulary.rdfType, .iri "urn:Part"), ("urn:label", .literal "y")]⟩ := by
    decide +kernel
  obtain ⟨b, hb, hdoc⟩ := h assets .default _ _ ⟨.streamPipes, _, rfl⟩ hrun _ hocc
  obtain rfl := Except.ok.inj (hblock.symm.trans hb)
  simp [Document.block?] at hdoc

end EntityRdf.Registry

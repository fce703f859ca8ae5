import EntityRdf.Proofs.CycleDetection
import EntityRdf.Proofs.DocumentChecks

/-!
# Errors of the decoder and the checks that report them

The decoder stops at its first error, somewhere along the references; the checks list
what is wrong with each block. An error about the content of a document is among what
its check lists, on a line that starts with the subject of the error. So a document on
which these checks find no failure decodes, unless it runs into a cycle or a limit.

`fault_of_decode` tells where a failing run stopped. Here each such place is matched to a
line of a check. The checks look up the class of a block by its subject, which finds the
class of the block itself because the decoder refuses repeated subjects first. What the
decoder reads of a block is part of what the checks look at (`sublist_readPairs`).

Main result: `decode_error_reported`.
-/

namespace EntityRdf

open ClassDescriptor

/-- The check that reports an error about the content of a document, with the subject of
the error. -/
def MappingError.check? : MappingError → Option (String × String)
  | .duplicateSubject s => some ("document/subjects", s)
  | .missingType s | .unknownType s _ => some ("document/types", s)
  | .unmappedPredicate s _ _ => some ("document/predicates", s)
  | .tooManyValues s _ _ _ => some ("document/cardinality", s)
  | .wrongObject s _ _ => some ("document/objects", s)
  | .unresolvedReference s _ _ => some ("document/references", s)
  | _ => none

/-- The checks of a document that look at its content. -/
def contentChecks : List String :=
  ["document/subjects", "document/types", "document/predicates", "document/cardinality",
    "document/objects", "document/references"]

/-- The checks that errors belong to are those on the content of blocks. -/
theorem MappingError.mem_contentChecks {err : MappingError} {check s : String}
    (h : err.check? = some (check, s)) : check ∈ contentChecks := by
  cases err <;> simp_all [check?, contentChecks]

/-- Going too far along a trail is nothing that a check of the content reports. -/
theorem RunFault.check?_eq_none {cfg : Config} {path : List String} {s : String}
    {err : MappingError} (h : RunFault cfg path s err) : err.check? = none := by
  cases h <;> rfl

/-- A check has failed with a line about a subject. -/
def Report.Blames (r : Report) (check s : String) : Prop :=
  ∃ f ∈ r.findings, f.check = check ∧ f.severity = .failure ∧
    ∃ line ∈ f.details, line.startsWith s = true

/-! ## Failures -/

theorem Report.Blames.failed {r : Report} {check s : String} (h : r.Blames check s) :
    r.failed check = true := by
  obtain ⟨f, hf, hcheck, hfail, -⟩ := h
  exact failed_iff.mpr ⟨f, hf, hcheck, hfail⟩

/-- A check that takes its problems seriously fails with each of them. -/
theorem Report.blames_of_mem {r : Report} {check ok what line s : String}
    {problems : List String} {severity : Severity}
    (hf : Finding.ofProblems check problems ok what severity ∈ r.findings)
    (hsev : severity = .failure) (hline : line ∈ problems) (hs : line.startsWith s = true) :
    r.Blames check s := by
  refine ⟨_, hf, ?_⟩
  -- with a problem the finding has the severity of the check
  cases problems with
  | nil => simp at hline
  | cons problem rest => exact ⟨rfl, hsev, line, hline, hs⟩

namespace Registry

variable {R : Registry} {cfg : Config} {strict : Bool} {doc : Document} {d : ClassDescriptor}
  {b : Block} {pairs : List (FieldDescriptor × Object)} {f : FieldDescriptor} {err : MappingError}

theorem dropSeverity_eq_failure (h : cfg.strict = true) : dropSeverity cfg = .failure :=
  if_pos h

/-! ## What the decoder reads and what the checks look at -/

/-- The checks find the class of every block that has one. -/
theorem subjectClass?_of_blockClass? (hnodup : doc.subjects.Nodup) (hb : b ∈ doc.blocks)
    (hd : R.blockClass? b = some d) : R.subjectClass? doc b.subject = some d := by
  cases hclass : R.subjectClass? doc b.subject with
  | none =>
    -- the block is among those of its subject
    have hmem : b ∈ doc.blocks.reverse.filter (·.subject == b.subject) := by simpa using hb
    rw [List.findSome?_eq_none_iff.mp hclass b hmem] at hd
    cases hd
  | some d' =>
    rw [← hd]
    exact (blockClass?_of_subjectClass? hnodup hb hclass).symm

/-- What a finder says about a block it says about the document. -/
theorem mem_problems (hnodup : doc.subjects.Nodup) (hb : b ∈ doc.blocks)
    (hd : R.blockClass? b = some d) {find : ClassDescriptor → Block → List String} {line : String}
    (hline : line ∈ find d b) : line ∈ R.problems doc find := by
  refine List.mem_flatMap.mpr ⟨b, hb, ?_⟩
  rwa [subjectClass?_of_blockClass? hnodup hb hd]

/-- The decoder reads the mapped pairs that are no types. -/
theorem sublist_readPairs {s : String} (h : R.fieldObjects strict d s b.pairs = .ok pairs) :
    pairs.Sublist (d.readPairs R.context b) := by
  have hfilter : pairs =
      (b.pairs.filter fun p => R.context.expand p.1 ≠ Vocabulary.rdfType).filterMap fun p =>
        (d.fieldForPredicate? (R.context.expand p.1)).map (·, p.2) := by
    rw [eq_of_fieldObjects h, List.filterMap_filter]
    simp only [ne_eq, decide_not, Bool.not_eq_true', decide_eq_false_iff_not, ite_not]
  rw [hfilter]
  exact List.filter_sublist.filterMap _

/-- The objects of a group are objects that the block has for the field. -/
theorem sublist_objectsFor {s : String} (h : R.fieldObjects strict d s b.pairs = .ok pairs)
    {os : List Object} (hg : (f, os) ∈ groupByKey pairs) :
    os.Sublist (d.objectsFor R.context b f) := by
  obtain ⟨rfl, -⟩ := mem_groupByKey.mp hg
  exact ((sublist_readPairs h).filter _).map _

/-- A group belongs to a field with a predicate. -/
theorem mem_predicateFields_of_group (hd : d.Coherent R.context) {s : String}
    (h : R.fieldObjects strict d s b.pairs = .ok pairs) {os : List Object}
    (hg : (f, os) ∈ groupByKey pairs) : f ∈ d.predicateFields := by
  obtain ⟨rfl, hne⟩ := mem_groupByKey.mp hg
  obtain ⟨o, ho⟩ := List.exists_mem_of_ne_nil _ hne
  have hread := (sublist_readPairs h).subset (mem_valuesOf.mp ho)
  obtain ⟨hf, hexp⟩ := field_of_mem_readPairs hread
  refine mem_predicateFields.mpr ⟨hf, ?_⟩
  rw [← Bool.not_eq_true]
  exact fun hid => hexp ((hd.expanded_eq_none_iff hf).mpr hid)

/-! ## Lines about a block -/

/-- A block without a class has a line about its types. -/
theorem exists_typeProblem (h : R.blockClass? b = none) :
    ∃ line ∈ R.typeProblems b, line.startsWith b.subject = true := by
  rw [typeProblems, h]
  cases b.types R.context with
  | nil => exact ⟨_, List.mem_singleton_self _, by simp [toString]⟩
  | cons tag tags =>
    exact ⟨_, List.mem_singleton_self _, by simp [toString]⟩

/-- A pair that no field reads has its line. -/
theorem mem_unmappedProblems {p : String × Object} (hp : p ∈ b.pairs)
    (hne : R.context.expand p.1 ≠ Vocabulary.rdfType)
    (hnone : d.fieldForPredicate? (R.context.expand p.1) = none) :
    s!"{b.subject}: {p.1} is not mapped by {d.name}" ∈ R.unmappedProblems d b := by
  refine List.mem_map.mpr ⟨p, List.mem_filter.mpr ⟨hp, ?_⟩, rfl⟩
  simp [hne, hnone]

/-- A single field with several values has its line. -/
theorem mem_cardinalityProblems (hf : f ∈ d.predicateFields) (hm : f.multiplicity = .single)
    (hmany : R.valueCount b f > 1) :
    s!"{b.subject}: {f.name} has " ++ toString (R.valueCount b f) ++ " values" ∈
      R.cardinalityProblems d b := by
  refine List.mem_map.mpr ⟨f, List.mem_filter.mpr ⟨hf, ?_⟩, rfl⟩
  simp [hm, hmany]

/-- A literal in an entity field has its line. -/
theorem mem_objectProblems {text : String} (h : (f, .literal text) ∈ R.entityObjects d b) :
    s!"{b.subject}: {f.name} holds literal " ++ showQuoted text ∈ R.objectProblems d b :=
  List.mem_filterMap.mpr ⟨_, h, rfl⟩

/-- A reference to no subject has its line. -/
theorem mem_referenceProblems {t : String} (h : (f, .iri t) ∈ R.entityObjects d b)
    (ht : t ∉ doc.subjects) :
    s!"{b.subject}: {f.name} -> {t}" ∈ R.referenceProblems doc d b := by
  have hnone : ¬ doc.hasSubject t = true := fun hsub => ht (Document.hasSubject_iff_mem.mp hsub)
  exact List.mem_filterMap.mpr ⟨_, h, if_neg hnone⟩

/-! ## Faults and their lines -/

/-- A check of the report that finds a line about a block, and takes it seriously, has
failed with it. -/
theorem blames_of_line (hnodup : doc.subjects.Nodup) (hb : b ∈ doc.blocks)
    (hd : R.blockClass? b = some d) {find : ClassDescriptor → Block → List String}
    {check ok what line : String} {severity : Severity}
    (hf : Finding.ofProblems check (R.problems doc find) ok what severity ∈
      (R.validateDocument cfg doc).findings)
    (hsev : severity = .failure) (hline : line ∈ find d b)
    (hs : line.startsWith b.subject = true) :
    (R.validateDocument cfg doc).Blames check b.subject :=
  Report.blames_of_mem hf hsev (mem_problems hnodup hb hd hline) hs

/-- What is wrong with the objects of a field stands in the report. -/
theorem blames_of_groupFault (hd : d.Coherent R.context) (hnodup : doc.subjects.Nodup)
    (hb : b ∈ doc.blocks) (hclass : R.blockClass? b = some d)
    (hpairs : R.fieldObjects cfg.strict d b.subject b.pairs = .ok pairs)
    {g : FieldDescriptor × List Object} (hg : g ∈ groupByKey pairs)
    (h : GroupFault cfg.strict doc b.subject g err) :
    ∃ check, err.check? = some (check, b.subject) ∧
      (R.validateDocument cfg doc).Blames check b.subject := by
  obtain ⟨f, os⟩ := g
  -- whatever is wrong with the objects of the group is wrong with those that are checked
  have hobjects := sublist_objectsFor hpairs hg
  cases h with
  | count hm hlen =>
    have hf := mem_predicateFields_of_group hd hpairs hg
    obtain ⟨hfield, hid⟩ := mem_predicateFields.mp hf
    have hmany : R.valueCount b f > 1 := by
      rw [valueCount_eq hd hfield hid]
      exact Nat.lt_of_lt_of_le hlen hobjects.length_le
    have hcheck : R.checkCardinality doc ∈ (R.validateDocument cfg doc).findings := by
      simp [validateDocument]
    exact ⟨_, rfl, blames_of_line hnodup hb hclass hcheck rfl
      (mem_cardinalityProblems hf hm hmany) (by simp [toString])⟩
  | reference hr h =>
    cases h with
    | literal ho =>
      have hline := mem_objectProblems (mem_entityObjects.mpr ⟨hr, hobjects.subset ho⟩)
      have hcheck : R.checkObjects doc ∈ (R.validateDocument cfg doc).findings := by
        simp [validateDocument]
      exact ⟨_, rfl, blames_of_line hnodup hb hclass hcheck rfl hline
        (by simp [toString])⟩
    | unresolved hs ho ht =>
      have hline := mem_referenceProblems (mem_entityObjects.mpr ⟨hr, hobjects.subset ho⟩) ht
      have hcheck : R.checkReferences cfg doc ∈ (R.validateDocument cfg doc).findings := by
        simp [validateDocument]
      exact ⟨_, rfl, blames_of_line hnodup hb hclass hcheck (dropSeverity_eq_failure hs) hline
        (by simp [toString])⟩

/-- What is wrong with a block stands in the report. -/
theorem blames_of_blockFault (hR : R.Coherent) (hnodup : doc.subjects.Nodup) (hb : b ∈ doc.blocks)
    (h : R.BlockFault cfg.strict doc b err) :
    ∃ check, err.check? = some (check, b.subject) ∧
      (R.validateDocument cfg doc).Blames check b.subject := by
  cases h with
  | types h =>
    -- an error about types means that the block is of no class
    have hclass : R.blockClass? b = none := by
      cases hd : R.blockClass? b with
      | none => rfl
      | some d =>
        rw [classOf_eq_ok.mpr hd] at h
        cases h
    obtain ⟨line, hline, hs⟩ := exists_typeProblem hclass
    have hcheck : R.checkTypes doc ∈ (R.validateDocument cfg doc).findings := by
      simp [validateDocument]
    have hblames := Report.blames_of_mem hcheck rfl (List.mem_flatMap.mpr ⟨b, hb, hline⟩) hs
    obtain rfl | ⟨tag, rfl⟩ := error_of_classOf h
    · exact ⟨_, rfl, hblames⟩
    · exact ⟨_, rfl, hblames⟩
  | pairs hd h =>
    -- an unmapped pair is an error in strict mode only, where its line is a failure
    obtain ⟨hs, p, hp, hne, hnone, rfl⟩ := error_of_fieldObjects h
    have hcheck : R.checkMapped cfg doc ∈ (R.validateDocument cfg doc).findings := by
      simp [validateDocument]
    exact ⟨_, rfl, blames_of_line hnodup hb hd hcheck (dropSeverity_eq_failure hs)
      (mem_unmappedProblems hp hne hnone) (by simp [toString])⟩
  | group hd hpairs hg h =>
    exact blames_of_groupFault (hR.fields (hR.get?_of_blockClass? hd)) hnodup hb hd hpairs hg h

/-! ## Decoding -/

/-- A repeated subject is refused first and stands in the report. -/
theorem blames_repeatedSubject (R : Registry) (cfg : Config)
    (h : doc.checkSubjects = .error err) :
    ∃ s, err = .duplicateSubject s ∧ (R.validateDocument cfg doc).Blames "document/subjects" s := by
  rw [Document.checkSubjects] at h
  split at h
  · rename_i s rest hrepeated
    cases h
    have hcheck : checkSubjects doc ∈ (R.validateDocument cfg doc).findings := by
      simp [validateDocument]
    have hline : s ∈ doc.repeatedSubjects := hrepeated ▸ List.mem_cons_self ..
    exact ⟨s, rfl, Report.blames_of_mem hcheck rfl hline (by simp)⟩
  · cases h

/-- A decoding fails on something that the report has a line about, or further along some
trail than it may go. -/
theorem blamed_or_runFault (hR : R.Coherent) (h : R.decode cfg doc = .error err) :
    (∃ check s, err.check? = some (check, s) ∧ (R.validateDocument cfg doc).Blames check s) ∨
      ∃ path s, RunFault cfg path s err := by
  cases hcheck : doc.checkSubjects with
  | error err' =>
    -- then this is the error of the decoding
    rw [decode, hcheck] at h
    cases h
    obtain ⟨s, rfl, hblames⟩ := blames_repeatedSubject R cfg hcheck
    exact Or.inl ⟨_, s, rfl, hblames⟩
  | ok =>
    -- from here on every subject has one block, so the checks know the class of each block
    have hnodup := Document.checkSubjects_eq_ok.mp hcheck
    rcases fault_of_decode h with hsubjects | ⟨b, hb, hfault⟩ | ⟨path, s, -, hrun⟩
    · rw [hcheck] at hsubjects
      cases hsubjects
    · obtain ⟨check, hkind, hblames⟩ := blames_of_blockFault hR hnodup hb hfault
      exact Or.inl ⟨check, _, hkind, hblames⟩
    · exact Or.inr ⟨path, s, hrun⟩

/-- The check that is responsible for an error of the decoder has failed with a line that
starts with the subject of the error. Where no check of the content has failed, decoding
succeeds unless it meets a cycle or a limit. -/
theorem decode_error_reported (hR : R.Reachable) (cfg : Config) (doc : Document) :
    (∀ err check s, R.decode cfg doc = .error err → err.check? = some (check, s) →
      (R.validateDocument cfg doc).Blames check s) ∧
    ((∀ check ∈ contentChecks, (R.validateDocument cfg doc).failed check = false) →
      (∃ es, R.decode cfg doc = .ok es) ∨
      (∃ s path, R.decode cfg doc = .error (.cycle s path)) ∨
      (∃ s, R.decode cfg doc = .error (.tooDeep s cfg.maxDepth)) ∨
      ∃ s, R.decode cfg doc = .error (.tooManyEntities s cfg.maxNodes)) := by
  constructor
  · intro err check s herr hcheck
    rcases blamed_or_runFault hR.coherent herr with ⟨check', s', hcheck', hblames⟩ | ⟨path, t, hrun⟩
    · obtain ⟨rfl, rfl⟩ := Prod.mk.inj (Option.some.inj (hcheck.symm.trans hcheck'))
      exact hblames
    · rw [hrun.check?_eq_none] at hcheck
      cases hcheck
  · intro hnone
    cases hres : R.decode cfg doc with
    | ok es => exact Or.inl ⟨es, rfl⟩
    | error err =>
      rcases blamed_or_runFault hR.coherent hres with ⟨check, s, hcheck, hblames⟩ | ⟨path, s, hrun⟩
      · have hfailed := hblames.failed
        rw [hnone check (MappingError.mem_contentChecks hcheck)] at hfailed
        cases hfailed
      · cases hrun with
        | depth => exact Or.inr (Or.inr (Or.inl ⟨s, rfl⟩))
        | nodes => exact Or.inr (Or.inr (Or.inr ⟨s, rfl⟩))
        | cycle => exact Or.inr (Or.inl ⟨s, path, rfl⟩)

/-- Strict decoding refuses the scattered asset for a predicate, which the check of
predicates reports. The content of the knot is as it should be, so decoding it can only
have met a cycle or a limit. -/
theorem decode_error_reported_scattered :
    assets.decode .strictDefault scattered =
        .error (.unmappedPredicate "urn:a" "urn:seen" "Asset") ∧
      (assets.validateDocument .strictDefault scattered).Blames "document/predicates" "urn:a" ∧
      (∀ check ∈ contentChecks, (assets.validateDocument .default knot).failed check = false) ∧
      ((∃ es, assets.decode .default knot = .ok es) ∨
        (∃ s path, assets.decode .default knot = .error (.cycle s path)) ∨
        (∃ s, assets.decode .default knot = .error (.tooDeep s Config.default.maxDepth)) ∨
        ∃ s, assets.decode .default knot = .error (.tooManyEntities s Config.default.maxNodes)) := by
  have hrefused : assets.decode .strictDefault scattered =
      .error (.unmappedPredicate "urn:a" "urn:seen" "Asset") := by decide +kernel
  have hsilent : ∀ check ∈ contentChecks,
      (assets.validateDocument .default knot).failed check = false := by decide +kernel
  exact ⟨hrefused, (decode_error_reported assets_reachable _ _).1 _ _ _ hrefused rfl,
    hsilent, (decode_error_reported assets_reachable _ _).2 hsilent⟩

end Registry

end EntityRdf

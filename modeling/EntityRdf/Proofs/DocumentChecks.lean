import EntityRdf.Conformance.Document
import EntityRdf.Proofs.DocumentDecoding

/-!
# The checks on a document and the decoder

The checks of `Registry.validateDocument` walk all blocks, the decoder follows
references. They agree, because a decoding that succeeds has read every block
(`DecodesTo.readable`), and a readable block gives no problem finder anything to
report.

Main result: `allPassed_iff_decode`. A report has no failure exactly when the
document decodes.
-/

namespace EntityRdf

open ClassDescriptor

/-! ## Failures in a report -/

/-- A report counts as passed as long as no finding in it is a failure; warnings do not
count. -/
theorem Report.allPassed_iff {r : Report} :
    r.allPassed = true ↔ ∀ f ∈ r.findings, f.severity ≠ .failure := by
  simp [allPassed, count, List.filter_eq_nil_iff]

/-- A check without problems does not fail. -/
theorem Finding.severity_ofProblems_nil {check ok what : String} {severity : Severity} :
    (Finding.ofProblems check [] ok what severity).severity ≠ .failure := by
  show Severity.pass ≠ .failure
  decide

/-- A check that only warns does not fail. -/
theorem Finding.severity_ofProblems_warning {check ok what : String} {problems : List String} :
    (Finding.ofProblems check problems ok what .warning).severity ≠ .failure := by
  cases problems with
  | nil => exact severity_ofProblems_nil
  | cons problem rest =>
    show Severity.warning ≠ .failure
    decide

namespace Registry

variable {R : Registry} {cfg : Config} {strict : Bool} {doc : Document} {d : ClassDescriptor}
  {b : Block} {es : List Instance}

/-! ## Blocks of a document that decodes -/

/-- The checks use the class of a block itself, where no subject is repeated. -/
theorem blockClass?_of_subjectClass? (hnodup : doc.subjects.Nodup) (hb : b ∈ doc.blocks)
    (h : R.subjectClass? doc b.subject = some d) : R.blockClass? b = some d := by
  obtain ⟨b', hb', hd⟩ := List.exists_of_findSome?_eq_some h
  obtain ⟨hmem, hsub⟩ := List.mem_filter.mp hb'
  have hsub : b'.subject = b.subject := by simpa using hsub
  have hfound := Document.block?_of_mem hnodup (List.mem_reverse.mp hmem)
  rw [hsub, Document.block?_of_mem hnodup hb] at hfound
  rwa [Option.some.inj hfound]

/-- A finder that is silent on readable blocks is silent on the document. -/
theorem DecodesTo.problems_eq_nil (h : R.DecodesTo cfg doc es)
    {find : ClassDescriptor → Block → List String}
    (hfind : ∀ b d, R.blockClass? b = some d → R.Readable cfg.strict doc d b → find d b = []) :
    R.problems doc find = [] := by
  refine List.flatMap_eq_nil_iff.mpr fun b hb => ?_
  cases hclass : R.subjectClass? doc b.subject with
  | none => rfl
  | some d =>
    obtain ⟨d', hd', hread⟩ := h.readable hb
    have hd := blockClass?_of_subjectClass? h.nodup hb hclass
    obtain rfl := Option.some.inj (hd'.symm.trans hd)
    exact hfind b d' hd' hread

/-! ## Readable blocks and the problem finders -/

/-- In strict mode a readable block has no unmapped predicate to report. -/
theorem unmappedProblems_eq_nil (hread : R.Readable true doc d b) :
    R.unmappedProblems d b = [] := by
  rw [unmappedProblems, List.map_eq_nil_iff, List.filter_eq_nil_iff]
  intro p hp hproblem
  obtain ⟨hne, hnone⟩ := Bool.and_eq_true_iff.mp hproblem
  have hsome := hread.mapped rfl p hp (by simpa using hne)
  rw [Option.isNone_iff_eq_none] at hnone
  rw [hnone] at hsome
  cases hsome

/-- The checks count as many values for a field as the decoder finds objects. -/
theorem valueCount_eq (hd : d.Coherent R.context) {f : FieldDescriptor} (hf : f ∈ d.fields)
    (hmapped : f.isIdentity = false) :
    R.valueCount b f = (d.objectsFor R.context b f).length := by
  -- the checks compare predicates, the decoder looks up fields
  have hiff : ∀ iri, f.expanded = some iri ↔ d.fieldForPredicate? iri = some f := by
    intro iri
    constructor
    · exact fun h => hd.fieldForPredicate?_expanded hf h
    · exact fun h => (Coherent.mem_of_fieldForPredicate? h).2
  rw [valueCount, objectsFor, valuesOf, readPairs, List.length_map]
  induction b.pairs with
  | nil => rfl
  | cons p rest ih =>
    rw [List.filter_cons, List.filterMap_cons]
    cases hg : d.fieldForPredicate? (R.context.expand p.1) with
    | none =>
      -- neither side counts an unmapped predicate
      have hne : ¬ f.expanded = some (R.context.expand p.1) := by
        rw [hiff, hg]
        simp
      simpa [hne] using ih
    | some g =>
      by_cases hgf : g = f
      · subst hgf
        have heq : g.expanded = some (R.context.expand p.1) := (hiff _).mpr hg
        simpa [heq] using ih
      · have hne : ¬ f.expanded = some (R.context.expand p.1) := by
          rw [hiff, hg, Option.some.injEq]
          exact hgf
        simpa [hne, hgf] using ih

/-- A readable block has no field with too many values to report. -/
theorem cardinalityProblems_eq_nil (hd : d.Coherent R.context)
    (hread : R.Readable strict doc d b) : R.cardinalityProblems d b = [] := by
  rw [cardinalityProblems, List.map_eq_nil_iff, List.filter_eq_nil_iff]
  intro f hf hproblem
  obtain ⟨hmem, hid⟩ := mem_predicateFields.mp hf
  obtain ⟨hm, hmany⟩ := Bool.and_eq_true_iff.mp hproblem
  have hle := hread.single f (by simpa using hm)
  rw [← valueCount_eq hd hmem hid] at hle
  have hmany : R.valueCount b f > 1 := by simpa using hmany
  omega

/-- The objects in entity fields that the checks look at. -/
theorem mem_entityObjects {f : FieldDescriptor} {o : Object} :
    (f, o) ∈ R.entityObjects d b ↔
      f.range? = some .entity ∧ o ∈ d.objectsFor R.context b f := by
  rw [mem_objectsFor, mem_readPairs, entityObjects, List.mem_filterMap]
  constructor
  · rintro ⟨⟨iri, o'⟩, hp, h⟩
    -- the checks look up the field of each pair, and then ask whether it is for entities
    dsimp only at h
    split at h
    · rename_i g hg
      split at h
      · rename_i hr
        obtain ⟨rfl, rfl⟩ := Prod.mk.inj (Option.some.inj h)
        exact ⟨hr, iri, hp, hg⟩
      · cases h
    · cases h
  · rintro ⟨hr, iri, hp, hf⟩
    exact ⟨(iri, o), hp, by simp [hf, hr]⟩

/-- A readable block has no text in place of a reference to report. -/
theorem objectProblems_eq_nil (hread : R.Readable strict doc d b) :
    R.objectProblems d b = [] := by
  rw [objectProblems, List.filterMap_eq_nil_iff]
  rintro ⟨f, o⟩ hp
  obtain ⟨hr, ho⟩ := mem_entityObjects.mp hp
  obtain ⟨t, rfl, -⟩ := hread.references f hr o ho
  rfl

/-- In strict mode a readable block has no reference to report that does not resolve. -/
theorem referenceProblems_eq_nil (hread : R.Readable true doc d b) :
    R.referenceProblems doc d b = [] := by
  rw [referenceProblems, List.filterMap_eq_nil_iff]
  rintro ⟨f, o⟩ hp
  obtain ⟨hr, ho⟩ := mem_entityObjects.mp hp
  obtain ⟨t, rfl, hsub⟩ := hread.references f hr o ho
  have hmem : doc.hasSubject t = true := Document.hasSubject_iff_mem.mpr (hsub rfl)
  simp [hmem]

/-! ## The report -/

/-- Where the decoder succeeds, no other check fails. -/
theorem DecodesTo.no_failure (hR : R.Coherent) (h : R.DecodesTo cfg doc es) :
    ∀ f ∈ [checkSubjects doc, R.checkTypes doc, R.checkMapped cfg doc, R.checkCardinality doc,
      R.checkObjects doc, R.checkReferences cfg doc], f.severity ≠ .failure := by
  have hsubjects : doc.repeatedSubjects = [] := Document.repeatedSubjects_eq_nil.mpr h.nodup
  have htypes : doc.blocks.flatMap R.typeProblems = [] := by
    refine List.flatMap_eq_nil_iff.mpr fun b hb => ?_
    obtain ⟨d, hd, -⟩ := h.readable hb
    rw [typeProblems, hd]
  have hcardinality : R.problems doc R.cardinalityProblems = [] := by
    refine h.problems_eq_nil fun b d hd hread => ?_
    exact cardinalityProblems_eq_nil (hR.fields (hR.get?_of_blockClass? hd)) hread
  have hobjects : R.problems doc R.objectProblems = [] :=
    h.problems_eq_nil fun _ _ _ hread => objectProblems_eq_nil hread
  -- what lenient decoding drops is only a warning; in strict mode there is none of it
  have hmapped : (R.checkMapped cfg doc).severity ≠ .failure := by
    rw [checkMapped, dropSeverity]
    cases hstrict : cfg.strict with
    | false => exact Finding.severity_ofProblems_warning
    | true =>
      have hnil : R.problems doc R.unmappedProblems = [] :=
        h.problems_eq_nil fun _ _ _ hread => unmappedProblems_eq_nil (hstrict ▸ hread)
      rw [hnil]
      exact Finding.severity_ofProblems_nil
  have hreferences : (R.checkReferences cfg doc).severity ≠ .failure := by
    rw [checkReferences, dropSeverity]
    cases hstrict : cfg.strict with
    | false => exact Finding.severity_ofProblems_warning
    | true =>
      have hnil : R.problems doc (R.referenceProblems doc) = [] :=
        h.problems_eq_nil fun _ _ _ hread => referenceProblems_eq_nil (hstrict ▸ hread)
      rw [hnil]
      exact Finding.severity_ofProblems_nil
  intro f hf
  simp only [List.mem_cons, List.not_mem_nil, or_false] at hf
  -- one case for each check, in the order of the report
  rcases hf with rfl | rfl | rfl | rfl | rfl | rfl
  · rw [checkSubjects, hsubjects]
    exact Finding.severity_ofProblems_nil
  · rw [checkTypes, htypes]
    exact Finding.severity_ofProblems_nil
  · exact hmapped
  · rw [checkCardinality, hcardinality]
    exact Finding.severity_ofProblems_nil
  · rw [checkObjects, hobjects]
    exact Finding.severity_ofProblems_nil
  · exact hreferences

/-- A report on a document has no failure exactly when the document decodes. -/
theorem allPassed_iff_decode (hR : R.Reachable) (hT : R.LeavesTypes) (cfg : Config)
    (doc : Document) :
    (R.validateDocument cfg doc).allPassed = true ↔ ∃ es, R.decode cfg doc = .ok es := by
  rw [Report.allPassed_iff]
  constructor
  · intro hnone
    have hdecode := hnone (R.checkDecode cfg doc) (by simp [validateDocument])
    rw [checkDecode] at hdecode
    cases hres : R.decode cfg doc with
    | ok es => exact ⟨es, rfl⟩
    | error err =>
      rw [hres] at hdecode
      exact absurd rfl hdecode
  · rintro ⟨es, hes⟩ f hf
    have hdec : R.DecodesTo cfg doc es := (decode_eq_ok hR.coherent hT).mp hes
    -- the last check is the decoding itself
    have hfindings : (R.validateDocument cfg doc).findings =
        [checkSubjects doc, R.checkTypes doc, R.checkMapped cfg doc, R.checkCardinality doc,
          R.checkObjects doc, R.checkReferences cfg doc] ++ [R.checkDecode cfg doc] := rfl
    rw [hfindings] at hf
    rcases List.mem_append.mp hf with hf | hf
    · exact hdec.no_failure hR.coherent f hf
    · obtain rfl := List.mem_singleton.mp hf
      rw [checkDecode, hes]
      show Severity.pass ≠ .failure
      decide

/-- The lenient report passes, as the lenient decoder does; the strict one does
not. -/
theorem allPassed_scattered :
    (assets.validateDocument .default scattered).allPassed = true ∧
      ¬ (assets.validateDocument .strictDefault scattered).allPassed = true := by
  have hlenient : (assets.decode .default scattered).isOk = true := by decide +kernel
  have hstrict : (assets.decode .strictDefault scattered).isOk = false := by decide +kernel
  constructor
  · refine (allPassed_iff_decode assets_reachable assets_leavesTypes _ _).mpr ?_
    cases hres : assets.decode .default scattered with
    | ok es => exact ⟨es, rfl⟩
    | error err =>
      rw [hres] at hlenient
      cases hlenient
  · rw [allPassed_iff_decode assets_reachable assets_leavesTypes]
    rintro ⟨es, hes⟩
    rw [hes] at hstrict
    cases hstrict

end Registry

end EntityRdf

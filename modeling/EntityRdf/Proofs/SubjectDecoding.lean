import EntityRdf.Proofs.DocumentDecoding
import EntityRdf.Proofs.OwnBlock

/-!
# Decoding subject by subject

A decoding carries a path, a depth and what it has built so far through all its calls.
None of this shows in a result: where a document decodes, each of its subjects has one
instance, which decoding that subject alone returns as well, and which stands wherever
a reference to the subject was followed. The instances of the subjects thus determine
one another. An entity field holds the instances of the subjects it refers to, and the
result are the instances of the roots.

The limits allow a subject because they allow the root above it: its chains are no
longer (`Reaches.append`) and its instance counts no more (`Decodes.count_le`).

Main result: `decode_by_subject`.
-/

namespace EntityRdf

/-! ## Counting what is nested -/

/-- A member of a list counts no more than the list. -/
theorem Instance.count_le_countAll {e : Instance} {l : List Instance} (h : e ∈ l) :
    e.count ≤ countAll l := by
  induction l with
  | nil => simp at h
  | cons c rest ih =>
    rw [countAll]
    rcases List.mem_cons.mp h with rfl | h
    · exact Nat.le_add_right ..
    · exact Nat.le_trans (ih h) (Nat.le_add_left ..)

/-- The value of a field counts no more than the fields. -/
theorem Value.count_le_countFields {n : String} {v : Value} {l : List (String × Value)}
    (h : (n, v) ∈ l) : v.count ≤ countFields l := by
  induction l with
  | nil => simp at h
  | cons p rest ih =>
    obtain ⟨m, w⟩ := p
    rw [countFields]
    rcases List.mem_cons.mp h with heq | h
    · obtain ⟨rfl, rfl⟩ := Prod.mk.inj heq
      exact Nat.le_add_right ..
    · exact Nat.le_trans (ih h) (Nat.le_add_left ..)

/-! ## Entity fields -/

namespace FieldDescriptor

variable {f : FieldDescriptor} {doc : Document} {kids : String → Instance} {os : List Object}

/-- What an entity field holds when some instances belong there: one of them, or all of
them in order, and nothing where there are none. -/
def holding (f : FieldDescriptor) : List Instance → Option Value
  | [] => none
  | e :: rest =>
    match f.multiplicity with
    | .single => some (.entity e)
    | .multi => some (.entities (e :: rest))

/-- The value of an entity field are the instances of what resolves in it. -/
theorem valueFor_eq_holding (hr : f.range? = some .entity)
    (hsingle : f.multiplicity = .single → os.length ≤ 1) :
    f.valueFor doc kids os = f.holding ((doc.resolved os).map kids) := by
  have hle : f.multiplicity = .single → (doc.resolved os).length ≤ 1 :=
    fun hm => Nat.le_trans (doc.length_resolved_le os) (hsingle hm)
  rw [valueFor, assembled, if_pos hr, entityValue?]
  cases hres : doc.resolved os with
  | nil =>
    -- neither no instance nor an empty sequence of them is a value
    cases f.multiplicity <;> simp [holding, Value.isEmptySequence, Option.filter]
  | cons t rest =>
    have hne : os ≠ [] := by
      rintro rfl
      cases hres
    rw [if_neg hne]
    cases hm : f.multiplicity with
    | multi => simp [holding, hm, Value.isEmptySequence, Option.filter]
    | single =>
      have hone := hle hm
      rw [hres] at hone
      obtain rfl : rest = [] := List.length_eq_zero_iff.mp (by simpa using hone)
      simp [holding, hm, Value.isEmptySequence, Option.filter]

end FieldDescriptor

namespace Registry

variable {R : Registry} {cfg : Config} {strict : Bool} {doc : Document} {s t u : String}
  {e c y : Instance} {es : List Instance} {k n m : Nat}

/-! ## Below a subject -/

/-- What a block names as a target is a reference if it is a subject. -/
theorem refers_of_mem_targetsOf {b : Block} (hb : doc.block? s = some b) (ht : t ∈ doc.subjects)
    (h : t ∈ R.targetsOf b) : R.Refers doc s t := by
  rw [targetsOf] at h
  split at h
  · rename_i d hd
    exact ⟨ht, b, d, hb, hd, h⟩
  · simp at h

/-- One chain after another. -/
theorem Reaches.append (h : R.Reaches doc m s t) (h' : R.Reaches doc n t u) :
    R.Reaches doc (m + n) s u := by
  induction h with
  | self s => rwa [Nat.zero_add]
  | @step m _ _ _ hst _ ih =>
    rw [Nat.add_right_comm]
    exact .step hst (ih h')

/-- A nested instance counts fewer instances. -/
theorem count_lt_of_mem_nested (h : c ∈ R.nested e) : c.count < e.count := by
  unfold nested at h
  split at h
  · rename_i d hd
    obtain ⟨f, v, hp, -, hc⟩ := (mem_nested hd).mp (by rwa [nested_eq hd])
    have hv : (f.name, v) ∈ e.fields := Entries.mem_of_lookup (ClassDescriptor.mem_held.mp hp).2
    obtain ⟨name, fields⟩ := e
    calc c.count ≤ Instance.countAll v.nested := Instance.count_le_countAll hc
      _ = v.count := v.count_eq_countAll.symm
      _ ≤ Value.countFields fields := Value.count_le_countFields hv
      _ < (Instance.mk name fields).count := Nat.lt_succ_self _
  · simp at h

/-- What a chain leads to counts no more instances than where the chain starts. -/
theorem Decodes.count_le (hR : R.Coherent) (h : R.Decodes strict doc s e)
    (hu : R.Reaches doc n s u) (hy : R.Decodes strict doc u y) : y.count ≤ e.count := by
  induction hu generalizing e with
  | self s =>
    obtain rfl := h.unique hy
    exact Nat.le_refl _
  | step hst _ ih =>
    obtain ⟨c, hc, ht⟩ := h.refers hR hst
    exact Nat.le_trans (ih ht hy) (Nat.le_of_lt (count_lt_of_mem_nested hc))

/-- What a chain leads to occurs as deep as the chain is long. -/
theorem Decodes.mem_preorder_of_reaches (hR : R.Coherent) (h : R.Decodes strict doc s e)
    (hu : R.Reaches doc n s u) (hy : R.Decodes strict doc u y) :
    (k + n, y) ∈ R.preorder k e := by
  induction hu generalizing e k with
  | self s =>
    rw [h.unique hy]
    exact mem_preorder_self k y
  | @step n _ _ _ hst _ ih =>
    obtain ⟨c, hc, ht⟩ := h.refers hR hst
    refine Registry.mem_preorder.mpr (Or.inr ⟨c, hc, ?_⟩)
    rw [Nat.add_comm n 1, ← Nat.add_assoc]
    exact ih ht hy

/-- A decoded instance has no other subject than the one it was decoded from. -/
theorem Decodes.eq_of_subjectOf (hR : R.Coherent) (h : R.Decodes strict doc s e)
    (ht : R.subjectOf e = .ok t) : t = s := by
  cases h with
  | @intro _ b d kids _ hb hd hread hkids he =>
    obtain ⟨d', hd', hsub⟩ := subjectOf_eq_ok.mp ht
    rw [he.className, hR.get?_of_blockClass? hd] at hd'
    obtain rfl := Option.some.inj hd'
    obtain ⟨f, hf, hget, -⟩ := ClassDescriptor.subjectOf_eq_ok.mp hsub
    -- the identity field holds the subject of the block
    have hid := he.identity f (List.mem_of_find?_eq_some hf) (List.find?_some hf)
    rw [Instance.getStr?, hid] at hget
    rw [← Option.some.inj hget]
    exact (Document.mem_of_block? hb).2

/-! ## Documents that decode -/

/-- In a document that decodes each subject does. -/
theorem DecodesTo.decodes (h : R.DecodesTo cfg doc es) (hs : s ∈ doc.subjects) :
    R.Decodes cfg.strict doc s (R.decoded cfg.strict doc s) := by
  obtain ⟨e, he⟩ := h.all s hs
  rwa [he.decoded_eq]

/-- The result are the instances of the roots. -/
theorem DecodesTo.eq_map (h : R.DecodesTo cfg doc es) :
    es = (R.rootSubjects doc).map (R.decoded cfg.strict doc) := by
  have hroots : List.Forall₂ (fun r e => R.decoded cfg.strict doc r = e) (R.rootSubjects doc) es :=
    h.roots.imp fun _ _ he => he.decoded_eq
  rw [← List.forall₂_eq_eq_eq, List.forall₂_map_right_iff]
  exact (hroots.flip).imp fun _ _ heq => heq.symm

/-- Decoding one subject alone stays within the limits. -/
theorem DecodesTo.decodeSubject_eq (hR : R.Coherent) (hT : R.LeavesTypes)
    (h : R.DecodesTo cfg doc es) (hs : s ∈ doc.subjects) :
    R.decodeSubject cfg doc s = .ok (some (R.decoded cfg.strict doc s)) := by
  obtain ⟨r, hr, m, hrs⟩ := exists_root hR h.nodup h.all hs
  obtain ⟨e, he, hre⟩ := exists_partner h.roots hr
  have hdec := h.decodes hs
  -- a chain from the subject goes on one from a root, so it is no longer
  have hchains : ∀ n u, R.Reaches doc n s u →
      ([] : List String).length + n ≤ cfg.maxDepth ∧ u ∉ ([] : List String) := by
    intro n u hu
    have hdeep : m + n ≤ cfg.maxDepth := h.depth r hr _ u (hrs.append hu)
    exact ⟨by simp only [List.length_nil]; omega, by simp⟩
  -- and the instance is part of a decoded one
  have hcount : (R.decoded cfg.strict doc s).count ≤ cfg.maxNodes :=
    calc (R.decoded cfg.strict doc s).count ≤ e.count := hre.count_le hR hrs hdec
      _ ≤ Instance.countAll es := Instance.count_le_countAll he
      _ ≤ cfg.maxNodes := h.nodes
  obtain ⟨q, hq⟩ := decodeAt_complete (p := .start) hR hT hdec hchains
    (by simpa [Progress.start] using hcount)
  rw [decodeSubject, (Document.checkSubjects_eq_ok (x := ())).mpr h.nodup, ok_bind,
    if_pos (Document.hasSubject_iff_mem.mpr hs), hq]
  rfl

/-- What occurs in the result, and how deep, is what chains from the roots lead to. -/
theorem DecodesTo.mem_occurrences_iff (hR : R.Coherent) (h : R.DecodesTo cfg doc es) :
    (n, y) ∈ R.occurrences es ↔ ∃ r ∈ R.rootSubjects doc, ∃ u, R.Reaches doc n r u ∧
      y = R.decoded cfg.strict doc u := by
  rw [mem_occurrences]
  constructor
  · rintro ⟨e, he, hy⟩
    obtain ⟨r, hr, hre⟩ := exists_partner h.roots.flip he
    obtain ⟨m, u, rfl, hru, hu⟩ := hre.mem_preorder hR hy
    rw [Nat.zero_add]
    exact ⟨r, hr, u, hru, hu.decoded_eq.symm⟩
  · rintro ⟨r, hr, u, hru, rfl⟩
    obtain ⟨e, he, hre⟩ := exists_partner h.roots hr
    obtain ⟨x, hx, -⟩ := hre.reaches hR hru
    rw [hx.decoded_eq]
    have hy := hre.mem_preorder_of_reaches (k := 0) hR hru hx
    rw [Nat.zero_add] at hy
    exact ⟨e, he, hy⟩

/-- What a block says about the instance of its subject, once the instances of the
subjects it refers to are known. -/
structure Composed (R : Registry) (doc : Document) (inst : String → Instance) (b : Block)
    (d : ClassDescriptor) : Prop where
  classed : R.blockClass? b = some d
  className : (inst b.subject).className = d.name
  /-- The identity field holds the subject. -/
  identity : ∀ f ∈ d.fields, f.isIdentity = true →
    (inst b.subject).get? f.name = some (.str b.subject)
  /-- An entity field for one value refers to one subject at most. -/
  single : ∀ f ∈ d.fields, f.range? = some .entity → f.multiplicity = .single →
    (doc.resolved (d.objectsFor R.context b f)).length ≤ 1
  /-- An entity field holds the instances of the subjects it refers to, in order. -/
  entities : ∀ f ∈ d.fields, f.range? = some .entity →
    (inst b.subject).get? f.name =
      f.holding ((doc.resolved (d.objectsFor R.context b f)).map inst)

/-- What a block is decoded to is composed of what its targets are decoded to. -/
theorem DecodesTo.composed (h : R.DecodesTo cfg doc es) {b : Block} (hb : b ∈ doc.blocks) :
    ∃ d, R.Composed doc (R.decoded cfg.strict doc) b d := by
  have hdec := h.decodes (List.mem_map.mpr ⟨b, hb, rfl⟩)
  cases hinst : hdec with
  | @intro _ b' d kids _ hb' hd hread hkids he =>
    rw [Document.block?_of_mem h.nodup hb] at hb'
    obtain rfl := Option.some.inj hb'
    refine ⟨d, hd, he.className, he.identity, fun f _ _ hm => ?_, fun f hf hr => ?_⟩
    · exact Nat.le_trans (doc.length_resolved_le _) (hread.single f hm)
    · have hmapped := (ClassDescriptor.mem_predicateFields.mp
        (ClassDescriptor.mem_predicateFields_of_entity hf hr)).2
      rw [he.mapped f hf hmapped, FieldDescriptor.valueFor_eq_holding hr (hread.single f)]
      congr 1
      refine List.map_congr_left fun t ht => ?_
      obtain ⟨hos, hsub⟩ := Document.mem_resolved.mp ht
      exact (hkids t (ClassDescriptor.mem_targets.mpr ⟨f, hr, hos⟩) hsub).decoded_eq.symm

/-- A document that decodes gives each subject one instance. Decoding that subject alone
returns it; the instances of the subjects that nothing refers to are the result, in
document order; and an entity field holds the instances of the subjects that it refers
to. What occurs in the result, at whatever depth, is the instance of a subject, so that
copies of a shared subject are all the same, and every subject occurs. -/
theorem decode_by_subject (hR : R.Reachable) (hT : R.LeavesTypes) (cfg : Config) (doc : Document)
    (es : List Instance) (h : R.decode cfg doc = .ok es) :
    ∃ inst : String → Instance,
      (∀ s ∈ doc.subjects, R.decodeSubject cfg doc s = .ok (some (inst s))) ∧
      es = (R.rootSubjects doc).map inst ∧
      (∀ s, s ∈ R.rootSubjects doc ↔ s ∈ doc.subjects ∧ ∀ t, ¬ R.Refers doc t s) ∧
      (∀ b ∈ doc.blocks, ∃ d, R.Composed doc inst b d) ∧
      (∀ n y, (n, y) ∈ R.occurrences es ↔
        ∃ r ∈ R.rootSubjects doc, ∃ u, R.Reaches doc n r u ∧ y = inst u) ∧
      (∀ y s, R.OccursIn es y → R.subjectOf y = .ok s → y = inst s) ∧
      ∀ s ∈ doc.subjects, R.OccursIn es (inst s) := by
  have hcoherent : R.Coherent := hR.coherent
  have hdec : R.DecodesTo cfg doc es := (decode_eq_ok hcoherent hT).mp h
  refine ⟨R.decoded cfg.strict doc, fun s hs => hdec.decodeSubject_eq hcoherent hT hs,
    hdec.eq_map, fun s => mem_rootSubjects hdec.nodup, fun b hb => hdec.composed hb,
    fun n y => hdec.mem_occurrences_iff hcoherent, ?_, fun s hs => ?_⟩
  · rintro y s ⟨n, hy⟩ hs
    obtain ⟨r, hr, u, hru, rfl⟩ := (hdec.mem_occurrences_iff hcoherent).mp hy
    have hsub : u ∈ doc.subjects := hru.mem_subjects (List.mem_of_mem_filter hr)
    rw [(hdec.decodes hsub).eq_of_subjectOf hcoherent hs]
  · obtain ⟨r, hr, n, hrs⟩ := exists_root hcoherent hdec.nodup hdec.all hs
    exact ⟨n, (hdec.mem_occurrences_iff hcoherent).mpr ⟨r, hr, s, hrs, rfl⟩⟩

/-- A part of an asset that is also a part of another part of it. -/
def shared : Document := ⟨[
  ⟨"urn:p", [("rdf:type", .iri "urn:Part"), ("urn:label", .literal "x")]⟩,
  ⟨"urn:a", [("rdf:type", .iri "urn:Asset"), ("urn:part", .iri "urn:b"),
    ("urn:part", .iri "urn:p")]⟩,
  ⟨"urn:b", [("rdf:type", .iri "urn:Asset"), ("urn:part", .iri "urn:p")]⟩]⟩

/-- The part is the same one level and two levels deep. -/
theorem decode_by_subject_shared :
    ∃ inst : String → Instance,
      assets.decode .default shared = .ok [inst "urn:a"] ∧
      assets.decodeSubject .default shared "urn:p" = .ok (some (inst "urn:p")) ∧
      (1, inst "urn:p") ∈ assets.occurrences [inst "urn:a"] ∧
      (2, inst "urn:p") ∈ assets.occurrences [inst "urn:a"] := by
  obtain ⟨es, hes⟩ : ∃ es, assets.decode .default shared = .ok es :=
    exists_of_isOk (by decide +kernel)
  obtain ⟨inst, halone, rfl, hroots, -, hocc, -⟩ :=
    decode_by_subject assets_reachable assets_leavesTypes .default shared es hes
  have htop : assets.rootSubjects shared = ["urn:a"] := by decide +kernel
  have hap : assets.Refers shared "urn:a" "urn:p" :=
    refers_of_mem_targetsOf (b := shared.blocks[1]) rfl (by decide) (by decide +kernel)
  have hab : assets.Refers shared "urn:a" "urn:b" :=
    refers_of_mem_targetsOf (b := shared.blocks[1]) rfl (by decide) (by decide +kernel)
  have hbp : assets.Refers shared "urn:b" "urn:p" :=
    refers_of_mem_targetsOf (b := shared.blocks[2]) rfl (by decide) (by decide +kernel)
  rw [htop] at hes hocc
  refine ⟨inst, hes, halone "urn:p" (by decide +kernel), ?_, ?_⟩
  · exact (hocc 1 _).mpr ⟨"urn:a", by simp, "urn:p", .step hap (.self _), rfl⟩
  · exact (hocc 2 _).mpr ⟨"urn:a", by simp, "urn:p", .step hab (.step hbp (.self _)), rfl⟩

end Registry

end EntityRdf

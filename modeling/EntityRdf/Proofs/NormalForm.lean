import EntityRdf.Proofs.RoundTrip

/-!
# Encoding what was decoded

Where every class has an identity field, a decoded instance is one that the
encoder accepts: it has the subject it was decoded from (`Decodes.subjectOf_eq`),
what it holds fits its fields (`Decodes.fits`), and it has no unmapped fields
(`Decodes.prune_eq`). A shared subject is decoded to one instance on every path,
so the encoder meets no conflict, and the roots stay the roots.

Main result: `decode_normalizes`. One round of decoding and encoding reaches a
document that further rounds leave as it is.
-/

namespace EntityRdf.Registry

open ClassDescriptor FieldDescriptor

variable {R : Registry} {cfg : Config} {strict : Bool} {doc : Document} {s : String}
  {e : Instance} {es : List Instance}

/-- Every class declares an identity field. -/
def HasIdentities (R : Registry) : Prop :=
  ∀ d ∈ R.classList, ∃ f ∈ d.fields, f.isIdentity = true

/-! ## Decoded instances -/

/-- A decoded instance belongs to a registered class. -/
theorem Decodes.class_eq (hR : R.Coherent) (h : R.Decodes strict doc s e) :
    ∃ d b kids, R.classes.get? e.className = some d ∧ b.subject = s ∧
      R.Readable strict doc d b ∧ R.Assembled doc d b kids e ∧
      ∀ t ∈ d.targets R.context b, t ∈ doc.subjects → R.Decodes strict doc t (kids t) := by
  cases h with
  | @intro _ b d kids _ hb hd hread hkids he =>
    have hname : R.classes.get? e.className = some d := by
      rw [he.className]
      exact hR.get?_of_blockClass? hd
    exact ⟨d, b, kids, hname, (Document.mem_of_block? hb).2, hread, he, hkids⟩

/-- A decoded instance has the subject that it was decoded from. -/
theorem Decodes.subjectOf_eq (hR : R.Coherent) (hid : R.HasIdentities)
    (h : R.Decodes strict doc s e) (hs : s ≠ "") : R.subjectOf e = .ok s := by
  obtain ⟨d, b, kids, hclass, rfl, -, he, -⟩ := h.class_eq hR
  obtain ⟨f, hf, hfid⟩ := hid d (mem_classList.mpr ⟨_, hclass⟩)
  have hget : e.getStr? f.name = some b.subject := by
    rw [Instance.getStr?, he.identity f hf hfid]
    rfl
  have hne : b.subject.isEmpty = false := by
    rw [← Bool.not_eq_true, String.isEmpty_iff]
    exact hs
  refine subjectOf_eq_ok.mpr ⟨d, hclass, ClassDescriptor.subjectOf_eq_ok.mpr ?_⟩
  exact ⟨f, (hR.fields hclass).identity?_eq hf hfid, hget, hne⟩

/-- A mapped field that is no entity field is a literal field. -/
theorem range?_of_mem_predicateFields {d : ClassDescriptor} {f : FieldDescriptor}
    (hf : f ∈ d.predicateFields) : f.range? = some .literal ∨ f.range? = some .entity := by
  have hid := (mem_predicateFields.mp hf).2
  rw [FieldDescriptor.range?]
  cases hm : f.mapping with
  | identity => simp [FieldDescriptor.isIdentity, hm] at hid
  | predicate iri range => cases range <;> simp

/-- What objects give a field has the form that the field is for. -/
theorem form_valueFor {d : ClassDescriptor} {f : FieldDescriptor} {v : Value} {os : List Object}
    {kids : String → Instance} (hf : f ∈ d.predicateFields)
    (hv : f.valueFor doc kids os = some v) :
    f.range? = some v.range ∧ f.multiplicity = v.multiplicity := by
  rw [valueFor] at hv
  split at hv
  · cases hv
  · obtain ⟨hv, -⟩ := Option.filter_eq_some_iff.mp hv
    rw [assembled] at hv
    -- a literal field takes texts in the form of its multiplicity, an entity field instances
    rcases range?_of_mem_predicateFields hf with hr | hr
    · rw [if_neg (by simp [hr])] at hv
      obtain rfl := Option.some.inj hv
      rw [literalValue]
      cases hm : f.multiplicity <;> exact ⟨hr, rfl⟩
    · rw [if_pos hr, entityValue?] at hv
      cases hm : f.multiplicity with
      | single =>
        rw [hm] at hv
        obtain ⟨c, -, rfl⟩ := Option.map_eq_some_iff.mp hv
        exact ⟨hr, rfl⟩
      | multi =>
        rw [hm] at hv
        obtain rfl := Option.some.inj hv
        exact ⟨hr, rfl⟩

/-- What is nested in it are instances of what the objects refer to. -/
theorem mem_nested_valueFor {f : FieldDescriptor} {v : Value} {os : List Object}
    {kids : String → Instance} {c : Instance} (hv : f.valueFor doc kids os = some v)
    (hc : c ∈ v.nested) : f.range? = some .entity ∧ ∃ t ∈ doc.resolved os, kids t = c := by
  rw [valueFor] at hv
  split at hv
  · cases hv
  · obtain ⟨hv, -⟩ := Option.filter_eq_some_iff.mp hv
    rw [assembled] at hv
    split at hv
    · rename_i hr
      refine ⟨hr, List.mem_map.mp ?_⟩
      rw [entityValue?] at hv
      cases hm : f.multiplicity with
      | single =>
        rw [hm] at hv
        obtain ⟨c', hc', rfl⟩ := Option.map_eq_some_iff.mp hv
        rw [List.mem_singleton.mp hc]
        exact List.mem_of_getLast? hc'
      | multi =>
        rw [hm] at hv
        obtain rfl := Option.some.inj hv
        exact hc
    · -- texts nest nothing
      obtain rfl := Option.some.inj hv
      rw [f.nested_literalValue os] at hc
      cases hc

/-- What objects give a field fits the field, if what they refer to has
subjects. -/
theorem fits_valueFor {d : ClassDescriptor} {f : FieldDescriptor} {v : Value} {os : List Object}
    {kids : String → Instance} (hf : f ∈ d.predicateFields)
    (hv : f.valueFor doc kids os = some v)
    (hkids : f.range? = some .entity →
      ∀ t ∈ doc.resolved os, ∃ u, R.subjectOf (kids t) = .ok u) : R.Fits f v := by
  refine fits_iff.mpr ⟨form_valueFor hf hv, fun c hc => ?_⟩
  obtain ⟨hr, t, ht, rfl⟩ := mem_nested_valueFor hv hc
  exact hkids hr t ht

/-- What a decoded instance holds fits its fields. -/
theorem Decodes.fits (hR : R.Coherent) (hid : R.HasIdentities) (hempty : "" ∉ doc.subjects)
    (h : R.Decodes strict doc s e) {d : ClassDescriptor}
    (hclass : R.classes.get? e.className = some d) : ∀ p ∈ d.held e, R.Fits p.1 p.2 := by
  obtain ⟨d', b, kids, hclass', -, -, he, hkids⟩ := h.class_eq hR
  obtain rfl := Option.some.inj (hclass.symm.trans hclass')
  rintro ⟨f, v⟩ hp
  obtain ⟨hf, hv⟩ := mem_held.mp hp
  obtain ⟨hmem, hmapped⟩ := mem_predicateFields.mp hf
  rw [he.mapped f hmem hmapped] at hv
  refine fits_valueFor hf hv fun hr t ht => ?_
  obtain ⟨hos, hsub⟩ := Document.mem_resolved.mp ht
  have hne : t ≠ "" := fun heq => hempty (heq ▸ hsub)
  exact ⟨t, (hkids t (mem_targets.mpr ⟨f, hr, hos⟩) hsub).subjectOf_eq hR hid hne⟩

/-- A decoded instance has a block. -/
theorem Decodes.blockOf_eq (hR : R.Coherent) (hid : R.HasIdentities) (hempty : "" ∉ doc.subjects)
    (h : R.Decodes strict doc s e) : ∃ b, R.blockOf e = .ok b := by
  have hne : s ≠ "" := fun heq => hempty (heq ▸ h.mem_subjects)
  obtain ⟨d, hclass, hs⟩ := subjectOf_eq_ok.mp (h.subjectOf_eq hR hid hne)
  exact ⟨_, blockOf_eq_ok.mpr ⟨d, s, hclass, hs, h.fits hR hid hempty hclass, rfl⟩⟩

/-- A decoded instance has no unmapped fields. -/
theorem Decodes.prune_eq (hR : R.Coherent) (h : R.Decodes strict doc s e) : R.prune e = e := by
  induction hsize : sizeOf e using Nat.strongRecOn generalizing s e with
  | ind size ih =>
    obtain ⟨d, b, kids, hclass, -, -, he, -⟩ := h.class_eq hR
    refine prune_eq_self h.canonical hclass fun n v hv => ?_
    by_cases hn : ∃ f ∈ d.fields, f.name = n
    · obtain ⟨f, hf, rfl⟩ := hn
      refine ⟨f, (hR.fields hclass).field?_name hf, fun hr c hc => ?_⟩
      -- what an entity field nests was decoded, and is smaller
      have hheld : (f, v) ∈ d.held e := mem_held.mpr ⟨mem_predicateFields_of_entity hf hr, hv⟩
      have hnested : c ∈ R.nested e := (mem_nested hclass).mpr ⟨f, v, hheld, hr, hc⟩
      obtain ⟨t, -, ht⟩ := (h.mem_nested_iff hR).mp hnested
      exact ih (sizeOf c) (hsize ▸ sizeOf_lt_of_mem_nested hnested) ht rfl
    · rw [he.unknown n fun f hf hname => hn ⟨f, hf, hname⟩] at hv
      cases hv

/-! ## Decoded lists -/

namespace DecodesTo

/-- What occurs in a decoded list was decoded from the end of a chain from a
root. -/
theorem exists_chain (hR : R.Coherent) (h : R.DecodesTo cfg doc es) {n : Nat} {x : Instance}
    (hx : (n, x) ∈ R.occurrences es) :
    ∃ r ∈ R.rootSubjects doc, ∃ u, R.Reaches doc n r u ∧ R.Decodes cfg.strict doc u x := by
  obtain ⟨e, he, hx⟩ := mem_occurrences.mp hx
  obtain ⟨r, hr, hdec⟩ := exists_partner h.roots.flip he
  obtain ⟨m, u, hn, hu, hdecu⟩ := Decodes.mem_preorder hR hdec hx
  rw [Nat.zero_add] at hn
  exact ⟨r, hr, u, hn ▸ hu, hdecu⟩

variable (hR : R.Coherent) (hid : R.HasIdentities) (hempty : "" ∉ doc.subjects)
include hR hid hempty

theorem subject_occurrence (h : R.DecodesTo cfg doc es) {x : Instance} (hx : R.OccursIn es x) :
    R.subjectOf x = .ok (R.subject x) ∧ R.Decodes cfg.strict doc (R.subject x) x := by
  obtain ⟨n, hx⟩ := hx
  obtain ⟨r, hr, u, -, hdec⟩ := h.exists_chain hR hx
  have hne : u ≠ "" := fun heq => hempty (heq ▸ hdec.mem_subjects)
  have hs : R.subjectOf x = .ok u := hdec.subjectOf_eq hR hid hne
  rw [subject_eq hs]
  exact ⟨hs, hdec⟩

/-- Occurrences of one subject are one instance, whatever chain leads there. -/
theorem agrees (h : R.DecodesTo cfg doc es) : R.Agrees es := by
  intro x y s hx hy hxs hys
  obtain ⟨-, hdecx⟩ := h.subject_occurrence hR hid hempty hx
  obtain ⟨-, hdecy⟩ := h.subject_occurrence hR hid hempty hy
  rw [subject_eq hxs] at hdecx
  rw [subject_eq hys] at hdecy
  rw [hdecx.unique hdecy]

/-- The encoder accepts what was decoded. -/
theorem encodes (h : R.DecodesTo cfg doc es) : ∃ doc', R.Encodes cfg es doc' := by
  -- depths in the list are lengths of chains, which the decoder has limited
  have hparts : ∀ n x, (n, x) ∈ R.occurrences es →
      n ≤ cfg.maxDepth ∧ ∃ b, R.blockOf x = .ok b := by
    intro n x hx
    obtain ⟨r, hr, u, hu, hdec⟩ := h.exists_chain hR hx
    exact ⟨h.depth r hr n u hu, hdec.blockOf_eq hR hid hempty⟩
  have hagrees : R.Agrees es := h.agrees hR hid hempty
  obtain ⟨doc', hdoc'⟩ := hagrees.encodeAll_eq_ok hparts
  refine ⟨doc', hdoc', fun e he => ?_, hagrees.transparent⟩
  exact (h.subject_occurrence hR hid hempty (.of_mem he)).2.canonical

/-- The subjects of a decoded list are the roots of its document. -/
theorem map_subject (h : R.DecodesTo cfg doc es) : es.map R.subject = R.rootSubjects doc := by
  -- member by member along the roots
  obtain ⟨-, -, hroots, -, -⟩ := h
  generalize R.rootSubjects doc = roots at hroots
  induction hroots with
  | nil => rfl
  | @cons r e rest es' hdec _ ih =>
    have hne : r ≠ "" := fun heq => hempty (heq ▸ hdec.mem_subjects)
    rw [List.map_cons, ih, subject_eq (hdec.subjectOf_eq hR hid hne)]

/-- All members of a decoded list are roots of it. -/
theorem roots_eq (h : R.DecodesTo cfg doc es) : R.roots es = es := by
  have hsubjects := h.map_subject hR hid hempty
  refine firsts_eq_self (fun e he => ?_) (fun e he hmem => ?_) ?_
  · exact (h.subject_occurrence hR hid hempty (.of_mem he)).1
  · -- a nested instance was decoded from a subject that something refers to
    obtain ⟨y, c, hy, hc, hcs⟩ := mem_nestedSubjects.mp hmem
    obtain ⟨-, hdecy⟩ := h.subject_occurrence hR hid hempty hy
    obtain ⟨t, hyt, ht⟩ := (hdecy.mem_nested_iff hR).mp hc
    have hne : t ≠ "" := fun heq => hempty (heq ▸ ht.mem_subjects)
    have heq : t = R.subject e := Except.ok.inj ((ht.subjectOf_eq hR hid hne).symm.trans hcs)
    have hroot : R.subject e ∈ R.rootSubjects doc := by
      rw [← hsubjects]
      exact List.mem_map.mpr ⟨e, he, rfl⟩
    exact ((mem_rootSubjects h.nodup).mp hroot).2 _ (heq ▸ hyt)
  · rw [hsubjects]
    exact h.nodup.filter _

/-- The encoded document decodes to the same list. -/
theorem decodesTo_again (hT : R.LeavesTypes) (h : R.DecodesTo cfg doc es) {cfg' : Config}
    {doc' : Document} (henc : R.Encodes cfg' es doc') (hdepth : cfg'.maxDepth = cfg.maxDepth)
    (hnodes : cfg'.maxNodes = cfg.maxNodes) : R.DecodesTo cfg' doc' es := by
  have hself : ∀ e ∈ es, R.prune e = e := fun e he =>
    (h.subject_occurrence hR hid hempty (.of_mem he)).2.prune_eq hR
  have hprune : es.map R.prune = es := (List.map_congr_left hself).trans (List.map_id es)
  have hagain := henc.decodesTo hR hT ?_ ?_
  · rwa [h.roots_eq hR hid hempty, hprune] at hagain
  · intro n y hy
    obtain ⟨r, hr, u, hu, -⟩ := h.exists_chain hR hy
    rw [hdepth]
    exact h.depth r hr n u hu
  · rw [h.roots_eq hR hid hempty, hprune, hnodes]
    exact h.nodes

end DecodesTo

/-! ## The normal form -/

/-- Encoding what was decoded succeeds and reaches a normal form: the document
decodes to the same instances again, in strict mode as well, and they are
encoded to the same document. -/
theorem decode_normalizes (hR : R.Reachable) (hT : R.LeavesTypes) (hid : R.HasIdentities)
    (hempty : "" ∉ doc.subjects) (h : R.decode cfg doc = .ok es) :
    ∃ doc', R.encodeAll cfg es = .ok doc' ∧
      R.decode cfg doc' = .ok es ∧ R.decode { cfg with strict := true } doc' = .ok es ∧
      (R.decode cfg doc' >>= R.encodeAll cfg) = .ok doc' := by
  have hcoherent : R.Coherent := hR.coherent
  have hdec : R.DecodesTo cfg doc es := (decode_eq_ok hcoherent hT).mp h
  obtain ⟨doc', henc⟩ := hdec.encodes hcoherent hid hempty
  -- the encoder looks at the depth limit only, so strictness makes no difference to it
  have hstrict : R.Encodes { cfg with strict := true } es doc' :=
    ⟨henc.encoded, henc.canonical, henc.transparent⟩
  have hagain : R.decode cfg doc' = .ok es :=
    (decode_eq_ok hcoherent hT).mpr (hdec.decodesTo_again hcoherent hid hempty hT henc rfl rfl)
  refine ⟨doc', henc.encoded, hagain, ?_, ?_⟩
  · exact (decode_eq_ok hcoherent hT).mpr
      (hdec.decodesTo_again hcoherent hid hempty hT hstrict rfl rfl)
  · rw [hagain]
    exact henc.encoded

/-- The parts of a decoded asset are gathered under it, and written after it. -/
theorem decode_normalizes_scattered :
    ∃ doc', assets.encodeAll .default [asset "urn:a" [part "urn:p" "x", part "urn:p" "x"]] =
        .ok doc' ∧
      assets.decode .default doc' = .ok [asset "urn:a" [part "urn:p" "x", part "urn:p" "x"]] ∧
      assets.decode .strictDefault doc' =
        .ok [asset "urn:a" [part "urn:p" "x", part "urn:p" "x"]] ∧
      (assets.decode .default doc' >>= assets.encodeAll .default) = .ok doc' := by
  have hid : assets.HasIdentities := by
    unfold HasIdentities
    decide +kernel
  have hempty : "" ∉ scattered.subjects := by decide +kernel
  have hdecode : assets.decode .default scattered =
      .ok [asset "urn:a" [part "urn:p" "x", part "urn:p" "x"]] := by
    decide +kernel
  exact decode_normalizes assets_reachable assets_leavesTypes hid hempty hdecode

end EntityRdf.Registry

import EntityRdf.Proofs.DocumentDecoding
import EntityRdf.Proofs.Merging
import EntityRdf.Proofs.OwnBlockReading
import EntityRdf.Proofs.RootOrder

/-!
# Decoding what was encoded

If the encoder has dropped nothing, then every occurrence in its list decodes to
itself without unmapped fields (`Encodes.decodes`), chains of references follow
the nesting of the list (`Encodes.reaches`), and the subjects that no block
refers to are those of `Registry.roots`, in the same order
(`Encodes.rootSubjects_eq`). By `decode_eq_ok` the document then decodes to the
pruned roots, within the limits that the list itself keeps.

Main result: `decode_encodeAll`.
-/

namespace EntityRdf.Registry

variable {R : Registry} {cfg : Config} {l : List Instance} {doc : Document} {x : Instance}

/-- The list is encoded as the document, and nothing is dropped on the way. -/
structure Encodes (R : Registry) (cfg : Config) (l : List Instance) (doc : Document) : Prop where
  /-- The encoder returns the document. -/
  encoded : R.encodeAll cfg l = .ok doc
  /-- The members have their fields in order. -/
  canonical : ∀ e ∈ l, e.Canonical
  /-- Equal blocks hide no difference. -/
  transparent : R.Transparent l

/-- What a canonical instance nests is canonical. -/
theorem canonical_of_mem_nested {e c : Instance} (he : e.Canonical) (hc : c ∈ R.nested e) :
    c.Canonical := by
  rw [nested] at hc
  split at hc
  · obtain ⟨f, v, hp, -, hc⟩ := ClassDescriptor.mem_nestedIn.mp hc
    exact he.deep (ClassDescriptor.mem_held.mp hp).2 hc
  · simp at hc

namespace Encodes

theorem keeps (h : R.Encodes cfg l doc) (hx : R.OccursIn l x) : R.Keeps doc x :=
  (encodeAll_keeps_iff h.encoded).mpr h.transparent x hx

theorem canonical_occurrence (h : R.Encodes cfg l doc) (hx : R.OccursIn l x) : x.Canonical :=
  OccursIn.induction h.canonical (fun _ _ _ hy hc => canonical_of_mem_nested hy hc) hx

/-- Whatever occurs has a subject, as it was encoded. -/
theorem subjectOf_eq (h : R.Encodes cfg l doc) (hx : R.OccursIn l x) :
    R.subjectOf x = .ok (R.subject x) := by
  obtain ⟨b, hb, -⟩ := h.keeps hx
  have hs := subjectOf_of_blockOf hb
  rw [hs, subject_eq hs]

/-- The subject of whatever occurs has a block. -/
theorem subject_mem (h : R.Encodes cfg l doc) (hx : R.OccursIn l x) :
    R.subject x ∈ doc.subjects := by
  obtain ⟨b, hb, hdoc⟩ := h.keeps hx
  obtain ⟨hmem, -⟩ := Document.mem_of_block? hdoc
  rw [subject_eq (subjectOf_of_blockOf hb)]
  exact List.mem_map.mpr ⟨b, hmem, rfl⟩

/-- The block of an occurrence in the document is the layout of the occurrence. -/
theorem layout_eq (h : R.Encodes cfg l doc) (hx : R.OccursIn l x) :
    ∃ d, R.classes.get? x.className = some d ∧ d.subjectOf x = .ok (R.subject x) ∧
      (∀ p ∈ d.held x, R.Fits p.1 p.2) ∧
      doc.block? (R.subject x) = some (R.layout d (R.subject x) x) := by
  obtain ⟨b, hb, hdoc⟩ := h.keeps hx
  obtain ⟨d, s, hclass, hs, hfits, rfl⟩ := blockOf_eq_ok.mp hb
  obtain rfl : R.subject x = s := subject_eq (subjectOf_eq_ok.mpr ⟨d, hclass, hs⟩)
  exact ⟨d, hclass, hs, hfits, hdoc⟩

/-- Each subject of the document is that of an occurrence. -/
theorem exists_occurrence (h : R.Encodes cfg l doc) {s : String} (hs : s ∈ doc.subjects) :
    ∃ x, R.OccursIn l x ∧ R.subject x = s := by
  obtain ⟨b, hb, rfl⟩ := List.mem_map.mp hs
  obtain ⟨x, hx, hxb, -⟩ := encodeAll_source h.encoded hb
  exact ⟨x, hx, subject_eq (subjectOf_of_blockOf hxb)⟩

/-! ## Occurrences and references -/

/-- Every occurrence decodes to itself, pruned. -/
theorem decodes (hR : R.Coherent) (hT : R.LeavesTypes) (h : R.Encodes cfg l doc)
    (strict : Bool) (hx : R.OccursIn l x) :
    R.Decodes strict doc (R.subject x) (R.prune x) := by
  -- on the size, as nested instances decode first
  induction hsize : sizeOf x using Nat.strongRecOn generalizing x with
  | ind size ih =>
    obtain ⟨d, hclass, hs, hfits, hdoc⟩ := h.layout_eq hx
    have hkids : ∀ c ∈ R.nested x, R.Decodes strict doc (R.subject c) (R.prune c) :=
      fun c hc => ih (sizeOf c) (hsize ▸ sizeOf_lt_of_mem_nested hc) (hx.nested hc) rfl
    have hread : R.Readable strict doc d (R.layout d (R.subject x) x) :=
      readable_layout hR hT hclass hfits (fun c hc => h.subject_mem (hx.nested hc)) strict
    have htargets : ∀ t ∈ d.targets R.context (R.layout d (R.subject x) x), t ∈ doc.subjects →
        R.Decodes strict doc t (R.decoded strict doc t) := by
      intro t ht _
      obtain ⟨c, hc, hct⟩ := (mem_targets_layout hR hT hclass hfits).mp ht
      rw [← subject_eq hct, (hkids c hc).decoded_eq]
      exact hkids c hc
    have hassembled : R.Assembled doc d (R.layout d (R.subject x) x) (R.decoded strict doc)
        (R.prune x) := by
      refine assembled_layout hR hT (h.canonical_occurrence hx) hclass hs hfits fun c hc => ?_
      exact ⟨h.subject_mem (hx.nested hc), (hkids c hc).decoded_eq⟩
    exact .intro hdoc (blockClass?_layout hR hclass) hread htargets hassembled

/-- An occurrence refers to the subjects of what is nested in it. -/
theorem refers_iff (hR : R.Coherent) (hT : R.LeavesTypes) (h : R.Encodes cfg l doc)
    (hx : R.OccursIn l x) {t : String} :
    R.Refers doc (R.subject x) t ↔ ∃ c ∈ R.nested x, R.subject c = t := by
  obtain ⟨d, hclass, -, hfits, hdoc⟩ := h.layout_eq hx
  rw [refers_iff_of_block hdoc (blockClass?_layout hR hclass)]
  constructor
  · rintro ⟨ht, -⟩
    obtain ⟨c, hc, hct⟩ := (mem_targets_layout hR hT hclass hfits).mp ht
    exact ⟨c, hc, subject_eq hct⟩
  · rintro ⟨c, hc, rfl⟩
    refine ⟨(mem_targets_layout hR hT hclass hfits).mpr ⟨c, hc, ?_⟩, h.subject_mem (hx.nested hc)⟩
    exact h.subjectOf_eq (hx.nested hc)

/-- A chain of references from an occurrence leads as deep into the list as it is
long. -/
theorem reaches (hR : R.Coherent) (hT : R.LeavesTypes) (h : R.Encodes cfg l doc) {n k : Nat}
    {u : String} (hx : (k, x) ∈ R.occurrences l) (hu : R.Reaches doc n (R.subject x) u) :
    ∃ y, (k + n, y) ∈ R.occurrences l := by
  -- step by step: a reference from an occurrence leads to one nested in it
  generalize hs : R.subject x = s at hu
  induction hu generalizing x k with
  | self s => exact ⟨x, hx⟩
  | @step n s t u hst _ ih =>
    subst hs
    obtain ⟨c, hc, hct⟩ := (h.refers_iff hR hT ⟨k, hx⟩).mp hst
    obtain ⟨y, hy⟩ := ih (mem_occurrences_of_mem_nested hx hc) hct
    exact ⟨y, by rwa [Nat.add_assoc, Nat.add_comm 1 n] at hy⟩

/-- What an occurrence refers to are the subjects of nested instances. -/
theorem exists_refers_iff (hR : R.Coherent) (hT : R.LeavesTypes) (h : R.Encodes cfg l doc)
    {s : String} : (∃ t, R.Refers doc t s) ↔ s ∈ R.nestedSubjects l := by
  rw [mem_nestedSubjects]
  constructor
  · rintro ⟨t, hts⟩
    obtain ⟨y, hy, rfl⟩ := h.exists_occurrence hts.mem_subjects
    obtain ⟨c, hc, rfl⟩ := (h.refers_iff hR hT hy).mp hts
    exact ⟨y, c, hy, hc, h.subjectOf_eq (hy.nested hc)⟩
  · rintro ⟨y, c, hy, hc, hcs⟩
    exact ⟨R.subject y, (h.refers_iff hR hT hy).mpr ⟨c, hc, subject_eq hcs⟩⟩

/-! ## Roots -/

/-- The subjects that no block refers to are those of the roots. -/
theorem rootSubjects_eq (hR : R.Coherent) (hT : R.LeavesTypes) (h : R.Encodes cfg l doc) :
    R.rootSubjects doc = (R.roots l).map R.subject := by
  rw [rootSubjects, ← encodeAll_filter_subjects h.encoded]
  refine List.filter_congr fun s hs => ?_
  have hiff : s ∈ doc.blocks.flatMap R.targetsOf ↔ s ∈ R.nestedSubjects l :=
    (mem_targetsOf_iff (encodeAll_nodup_subjects h.encoded) hs).trans (h.exists_refers_iff hR hT)
  simp only [List.contains_eq_mem, hiff]
  by_cases hmem : s ∈ R.nestedSubjects l <;> simp [hmem]

/-! ## The round trip -/

/-- An encoded document decodes to the pruned roots, strictly or not. -/
theorem decodesTo (hR : R.Coherent) (hT : R.LeavesTypes) (h : R.Encodes cfg l doc)
    (hdepth : ∀ n y, (n, y) ∈ R.occurrences l → n ≤ cfg.maxDepth)
    (hnodes : Instance.countAll ((R.roots l).map R.prune) ≤ cfg.maxNodes) :
    R.DecodesTo cfg doc ((R.roots l).map R.prune) := by
  have hroot : ∀ e ∈ R.roots l, R.OccursIn l e := fun e he => .of_mem (mem_firsts he)
  refine ⟨encodeAll_nodup_subjects h.encoded, ?_, ?_, ?_, ?_⟩
  · intro s hs
    obtain ⟨y, hy, rfl⟩ := h.exists_occurrence hs
    exact ⟨R.prune y, h.decodes hR hT cfg.strict hy⟩
  · rw [h.rootSubjects_eq hR hT, List.forall₂_map_left_iff, List.forall₂_map_right_iff,
      List.forall₂_same]
    exact fun e he => h.decodes hR hT cfg.strict (hroot e he)
  · -- a chain from a root ends at an occurrence of the same depth
    intro r hr n u hu
    rw [h.rootSubjects_eq hR hT] at hr
    obtain ⟨e, he, rfl⟩ := List.mem_map.mp hr
    obtain ⟨y, hy⟩ := h.reaches hR hT (mem_occurrences_of_mem (mem_firsts he)) hu
    rw [Nat.zero_add] at hy
    exact hdepth n y hy
  · exact hnodes

end Encodes

/-- Decoding undoes encoding, up to unmapped fields. From a list without two
different instances under one subject, not too deep and not too large, the
decoder gives back the pruned roots: each top-level instance whose subject
nothing nested has, once and in order. -/
theorem decode_encodeAll (hR : R.Reachable) (hT : R.LeavesTypes) (hl : ∀ e ∈ l, e.Built)
    (h : R.encodeAll cfg l = .ok doc)
    (hsame : ∀ x y s, R.OccursIn l x → R.OccursIn l y → R.subjectOf x = .ok s →
      R.subjectOf y = .ok s → R.prune x = R.prune y)
    (hdepth : ∀ n x, (n, x) ∈ R.occurrences l → n ≤ cfg.maxDepth)
    (hnodes : Instance.countAll ((R.roots l).map R.prune) ≤ cfg.maxNodes) :
    R.decode cfg doc = .ok ((R.roots l).map R.prune) := by
  have hcoherent : R.Coherent := hR.coherent
  -- equal prunes have equal blocks, so the encoder has dropped nothing
  have hagrees : R.Agrees l := by
    intro x y s hx hy hxs hys
    rw [← blockOf_prune hcoherent x, hsame x y s hx hy hxs hys, blockOf_prune hcoherent]
  have hencodes : R.Encodes cfg l doc := ⟨h, fun e he => (hl e he).canonical, hagrees.transparent⟩
  exact (decode_eq_ok hcoherent hT).mpr (hencodes.decodesTo hcoherent hT hdepth hnodes)

/-- Assets that share a part: one of them twice, one with a field that its class
does not map, and the part by itself as well. -/
def inventory : List Instance :=
  [asset "urn:a" [part "urn:c" "x"], part "urn:c" "x",
    (asset "urn:b" [part "urn:c" "x"]).set "note" (.str "spare"),
    asset "urn:a" [part "urn:c" "x"]]

theorem built_part (id label : String) : (part id label).Built := by
  refine .set _ (.set _ (.new _) ?_) ?_ <;> simp [Value.nested]

theorem built_asset (id : String) {parts : List Instance} (h : ∀ c ∈ parts, c.Built) :
    (asset id parts).Built :=
  .set _ (.set _ (.new _) (by simp [Value.nested])) h

theorem built_inventory : ∀ e ∈ inventory, e.Built := by
  have hparts : ∀ c ∈ [part "urn:c" "x"], c.Built := by
    simpa using built_part "urn:c" "x"
  have hspare : ((asset "urn:b" [part "urn:c" "x"]).set "note" (.str "spare")).Built :=
    .set _ (built_asset _ hparts) (by simp [Value.nested])
  simp only [inventory, List.forall_mem_cons]
  exact ⟨built_asset _ hparts, built_part _ _, hspare, built_asset _ hparts, by simp⟩

/-- The shared part and the repeated asset come back in their places only, and
the note is gone. -/
theorem decode_encodeAll_inventory :
    ∃ doc, assets.encodeAll .default inventory = .ok doc ∧
      assets.decode .default doc =
        .ok [asset "urn:a" [part "urn:c" "x"], asset "urn:b" [part "urn:c" "x"]] := by
  have hroots : (assets.roots inventory).map assets.prune =
      [asset "urn:a" [part "urn:c" "x"], asset "urn:b" [part "urn:c" "x"]] := by
    decide +kernel
  have hpairs : ∀ p ∈ assets.occurrences inventory, ∀ q ∈ assets.occurrences inventory,
      assets.subjectOf p.2 = assets.subjectOf q.2 → assets.prune p.2 = assets.prune q.2 := by
    decide +kernel
  have hdepths : ∀ p ∈ assets.occurrences inventory, p.1 ≤ Config.default.maxDepth := by
    decide +kernel
  have hnodes : Instance.countAll ((assets.roots inventory).map assets.prune) ≤
      Config.default.maxNodes := by
    decide +kernel
  have hok : (assets.encodeAll .default inventory).isOk = true := by decide +kernel
  cases hdoc : assets.encodeAll .default inventory with
  | error err =>
    rw [hdoc] at hok
    cases hok
  | ok doc =>
    rw [← hroots]
    refine ⟨doc, rfl, decode_encodeAll assets_reachable assets_leavesTypes built_inventory hdoc
      ?_ (fun n x hx => hdepths (n, x) hx) hnodes⟩
    rintro x y s ⟨n, hx⟩ ⟨m, hy⟩ hxs hys
    exact hpairs (n, x) hx (m, y) hy (hxs.trans hys.symm)

end EntityRdf.Registry

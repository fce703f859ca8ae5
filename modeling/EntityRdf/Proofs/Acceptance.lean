import EntityRdf.Proofs.DepthBound

/-!
# What the encoder accepts

The encoder meets the shape of an instance in several places: the class and the subject
where it writes a block or refers to one, the form of each value where it lays the block
out, the depth where it goes down. `Registry.WellShaped` is the same said of one instance
at a time, without an encoder: a registered class, a nonempty string as its identity, and
in each mapped field a value of the form that the field is for.

Where no two occurrences have one subject (`Registry.Distinct`), no block is met twice.
A run then writes a block for every pending instance, in preorder
(`Writes.exists_blocks`), so that shape and depth decide everything.

Main result: `encodeAll_accepts_iff`.
-/

namespace EntityRdf

/-- The instance has a nonempty string as its identity, and each mapped field that is set
holds a value of the form that the field is for. -/
structure ClassDescriptor.Shapes (d : ClassDescriptor) (e : Instance) : Prop where
  subject : ∃ f ∈ d.fields, f.isIdentity = true ∧ ∃ s, e.get? f.name = some (.str s) ∧ s ≠ ""
  forms : ∀ f ∈ d.predicateFields, ∀ v, e.get? f.name = some v →
    f.range? = some v.range ∧ f.multiplicity = v.multiplicity

namespace Registry

/-- The instance has the shape that its class, which is registered, asks for. -/
def WellShaped (R : Registry) (e : Instance) : Prop :=
  ∃ d, R.classes.get? e.className = some d ∧ d.Shapes e

/-- The subjects among instances; one without a usable subject has none. -/
def subjectsIn (R : Registry) (occ : List (Nat × Instance)) : List String :=
  occ.filterMap fun p => (R.subjectOf p.2).toOption

/-- No two occurrences in the list have one subject. -/
def Distinct (R : Registry) (l : List Instance) : Prop := (R.subjectsIn (R.occurrences l)).Nodup

instance (R : Registry) (l : List Instance) : Decidable (R.Distinct l) :=
  inferInstanceAs (Decidable (List.Nodup _))

variable {R : Registry} {cfg : Config} {l : List Instance} {doc doc' : Document} {m n : Nat}
  {e : Instance} {work : List (Nat × Instance)}

/-! ## Shapes and blocks -/

/-- A nonempty string in the identity field is the subject. -/
theorem subjectOf_of_get? {d : ClassDescriptor} {f : FieldDescriptor} {s : String}
    (hR : R.Coherent) (hclass : R.classes.get? e.className = some d) (hf : f ∈ d.fields)
    (hid : f.isIdentity = true) (hget : e.get? f.name = some (.str s)) (hs : s ≠ "") :
    R.subjectOf e = .ok s := by
  refine subjectOf_eq_ok.mpr ⟨d, hclass, ClassDescriptor.subjectOf_eq_ok.mpr ?_⟩
  refine ⟨f, (hR.fields hclass).identity?_eq hf hid, ?_, ?_⟩
  · rw [Instance.getStr?, hget]
    rfl
  · rw [← Bool.not_eq_true, String.isEmpty_iff]
    exact hs

/-- A well shaped instance has a subject. -/
theorem WellShaped.subjectOf (hR : R.Coherent) (h : R.WellShaped e) :
    ∃ s, R.subjectOf e = .ok s := by
  obtain ⟨d, hclass, ⟨f, hf, hid, s, hget, hs⟩, -⟩ := h
  exact ⟨s, subjectOf_of_get? hR hclass hf hid hget hs⟩

/-- An instance has a block exactly when it is well shaped and what is nested in it has
subjects. -/
theorem exists_blockOf_iff (hR : R.Coherent) :
    (∃ b, R.blockOf e = .ok b) ↔
      R.WellShaped e ∧ ∀ c ∈ R.nested e, ∃ s, R.subjectOf c = .ok s := by
  constructor
  · rintro ⟨b, hb⟩
    obtain ⟨d, s, hclass, hs, hfits, -⟩ := blockOf_eq_ok.mp hb
    refine ⟨⟨d, hclass, ?_, fun f hf v hv => ?_⟩, fun c hc => ?_⟩
    · -- the identity is where the subject was read
      obtain ⟨f, hf, -, hne⟩ := ClassDescriptor.subjectOf_eq_ok.mp hs
      have hmem : f ∈ d.fields := List.mem_of_find?_eq_some hf
      have hid : f.isIdentity = true := List.find?_some hf
      refine ⟨f, hmem, hid, s, ClassDescriptor.get?_identity (hR.fields hclass) hs hmem hid, ?_⟩
      rintro rfl
      cases hne
    · exact (fits_iff.mp (hfits _ (ClassDescriptor.mem_held.mpr ⟨hf, hv⟩))).1
    · -- an entity field fits only if all that it nests has a subject
      obtain ⟨f, v, hp, -, hc⟩ := (mem_nested hclass).mp hc
      exact (fits_iff.mp (hfits _ hp)).2 c hc
  · rintro ⟨hshape, hkids⟩
    obtain ⟨s, hs⟩ := hshape.subjectOf hR
    obtain ⟨d, hclass, -, hforms⟩ := hshape
    obtain ⟨d', hclass', hs⟩ := subjectOf_eq_ok.mp hs
    obtain rfl := Option.some.inj (hclass.symm.trans hclass')
    refine ⟨_, blockOf_eq_ok.mpr ⟨d, s, hclass, hs, ?_, rfl⟩⟩
    -- the subject is there, so it is left to see that each value fits
    rintro ⟨f, v⟩ hp
    obtain ⟨hf, hv⟩ := ClassDescriptor.mem_held.mp hp
    have hform := hforms f hf v hv
    refine fits_iff.mpr ⟨hform, fun c hc => ?_⟩
    refine hkids c ((mem_nested hclass).mpr ⟨f, v, hp, ?_, hc⟩)
    rw [hform.1, Value.range_of_mem_nested hc]

/-- Where all occurrences have subjects, blocks and shapes are the same question. -/
theorem forall_blockOf_iff (hR : R.Coherent) :
    (∀ p ∈ R.occurrences l, ∃ b, R.blockOf p.2 = .ok b) ↔
      ∀ p ∈ R.occurrences l, R.WellShaped p.2 := by
  constructor
  · exact fun h p hp => ((exists_blockOf_iff hR).mp (h p hp)).1
  · rintro h ⟨n, e⟩ hp
    refine (exists_blockOf_iff hR).mpr ⟨h _ hp, fun c hc => ?_⟩
    exact (h _ (mem_occurrences_of_mem_nested hp hc)).subjectOf hR

/-! ## Runs over distinct subjects -/

/-- A run over subjects that are distinct and new writes a block for every pending
instance, parents first. -/
theorem Writes.exists_blocks (h : R.Writes m doc work doc')
    (hdistinct : (doc.subjects ++ R.subjectsIn (R.pending work)).Nodup) :
    ∃ bs, doc'.blocks = doc.blocks ++ bs ∧
      List.Forall₂ (fun p b => p.1 ≤ m ∧ R.blockOf p.2 = .ok b) (R.pending work) bs := by
  induction h with
  | done doc => exact ⟨[], (List.append_nil _).symm, .nil⟩
  | @again doc doc' n e b rest _ hb hold _ _ =>
    -- the subject would be in the document and pending
    rw [pending_cons_nested, subjectsIn, List.filterMap_cons_some (b := b.subject)
      (by rw [subjectOf_of_blockOf hb]; rfl), List.nodup_append] at hdistinct
    have hmem : b.subject ∈ doc.subjects :=
      List.mem_map.mpr ⟨b, (Document.mem_of_block? hold).1, rfl⟩
    exact absurd rfl (hdistinct.2.2 _ hmem _ (List.mem_cons_self ..))
  | @fresh doc doc' n e b rest hn hb _ _ ih =>
    rw [pending_cons_nested] at hdistinct ⊢
    rw [subjectsIn, List.filterMap_cons_some (b := b.subject)
      (by rw [subjectOf_of_blockOf hb]; rfl)] at hdistinct
    obtain ⟨bs, hblocks, hpairs⟩ := ih (by simpa [subjectsIn] using hdistinct)
    refine ⟨b :: bs, ?_, .cons ⟨hn, hb⟩ hpairs⟩
    rw [hblocks]
    simp [Document.push]

/-- Where subjects are distinct, an encoded document has the blocks of all occurrences, in
preorder and within the depth limit. -/
theorem Distinct.encodeAll_blocks (hdistinct : R.Distinct l) (h : R.encodeAll cfg l = .ok doc) :
    List.Forall₂ (fun p b => p.1 ≤ cfg.maxDepth ∧ R.blockOf p.2 = .ok b)
      (R.occurrences l) doc.blocks := by
  rw [Distinct, ← pending_top] at hdistinct
  obtain ⟨bs, hblocks, hpairs⟩ := (encodeAll_eq_ok.mp h).exists_blocks hdistinct
  rw [pending_top] at hpairs
  rw [hblocks]
  exact hpairs

/-- Distinct subjects are never in conflict. -/
theorem Distinct.agrees (hdistinct : R.Distinct l) : R.Agrees l := by
  rintro x y s ⟨n, hx⟩ ⟨k, hy⟩ hxs hys
  by_cases heq : (n, x) = (k, y)
  · rw [(Prod.mk.inj heq).2]
  · -- the subject would stand at two places in the list of subjects
    have hpairs := List.pairwise_filterMap.mp hdistinct
    have : Std.Symm fun p q : Nat × Instance => ∀ t, (R.subjectOf p.2).toOption = some t →
        ∀ u, (R.subjectOf q.2).toOption = some u → t ≠ u :=
      ⟨fun p q h t ht u hu => (h u hu t ht).symm⟩
    refine absurd rfl (hpairs.forall hx hy heq s ?_ s ?_)
    · rw [hxs]
      rfl
    · rw [hys]
      rfl

/-- Where subjects are distinct, the encoder accepts exactly what has blocks within the
depth limit. -/
theorem Distinct.encodeAll_iff (hdistinct : R.Distinct l) :
    (∃ doc, R.encodeAll cfg l = .ok doc) ↔
      ∀ p ∈ R.occurrences l, p.1 ≤ cfg.maxDepth ∧ ∃ b, R.blockOf p.2 = .ok b := by
  constructor
  · rintro ⟨doc, h⟩ p hp
    obtain ⟨b, -, hdepth, hb⟩ := exists_partner (hdistinct.encodeAll_blocks h) hp
    exact ⟨hdepth, b, hb⟩
  · intro h
    exact hdistinct.agrees.encodeAll_eq_ok fun n e he => h (n, e) he

/-- The blocks of the occurrences make up the encoded document. -/
theorem Distinct.encodeAll_eq_ok (hdistinct : R.Distinct l) :
    R.encodeAll cfg l = .ok doc ↔
      List.Forall₂ (fun p b => p.1 ≤ cfg.maxDepth ∧ R.blockOf p.2 = .ok b)
        (R.occurrences l) doc.blocks := by
  refine ⟨hdistinct.encodeAll_blocks, fun h => ?_⟩
  obtain ⟨doc', hdoc'⟩ : ∃ doc', R.encodeAll cfg l = .ok doc' := by
    refine hdistinct.encodeAll_iff.mpr fun p hp => ?_
    obtain ⟨b, -, hdepth, hb⟩ := exists_partner h hp
    exact ⟨hdepth, b, hb⟩
  -- an instance has one block
  have hunique : Relator.RightUnique fun (p : Nat × Instance) b =>
      p.1 ≤ cfg.maxDepth ∧ R.blockOf p.2 = .ok b :=
    fun p b b' hb hb' => Except.ok.inj (hb.2.symm.trans hb'.2)
  have hblocks := hunique.forall₂ (hdistinct.encodeAll_blocks hdoc') h
  obtain ⟨bs⟩ := doc'
  obtain rfl : bs = doc.blocks := hblocks
  exact hdoc'

/-! ## Unmapped fields -/

/-- The encoder does with a pruned instance what it does with the instance. -/
theorem blockAt_prune (hR : R.Coherent) (m n : Nat) (e : Instance) :
    R.blockAt m n (R.prune e) = R.blockAt m n e := by
  rw [blockAt, blockAt, className_prune, describe]
  cases hclass : R.classes.get? e.className with
  | none => rfl
  | some d => simp only [ok_bind, classSubject_prune hR hclass, ownBlock_prune hR hclass]

/-- Whatever is written before, an instance and what pruning leaves of it are encoded
alike: the encoder looks up mapped fields only, here and in what is nested. -/
theorem encodeInto_prune (hR : R.Coherent) (m n : Nat) (doc : Document) (e : Instance) :
    R.encodeInto m n doc (R.prune e) = R.encodeInto m n doc e := by
  induction hsize : sizeOf e using Nat.strongRecOn generalizing n doc e with
  | ind size ih =>
    rw [encodeInto_eq, encodeInto_eq, blockAt_prune hR]
    cases hat : R.blockAt m n e with
    | error err => rfl
    | ok db =>
      obtain ⟨d, b⟩ := db
      obtain ⟨hclass, -, -⟩ := blockAt_eq_ok.mp hat
      -- the nested instances are the pruned ones, and smaller than the instance
      have hkids : (d.nestedIn (R.prune e)).foldlM (R.encodeInto m (n + 1)) (doc.push b) =
          (d.nestedIn e).foldlM (R.encodeInto m (n + 1)) (doc.push b) := by
        rw [← nested_eq hclass, ← nested_eq (by rwa [className_prune]), nested_prune hR,
          List.foldlM_map]
        refine foldlM_congr fun c hc doc => ?_
        exact ih (sizeOf c) (hsize ▸ sizeOf_lt_of_mem_nested hc) (n + 1) doc c rfl
      dsimp only
      rw [hkids]

/-- Fields that a class does not map make no difference to the encoder, not even to its
errors. -/
theorem encodeAll_prune (hR : R.Coherent) (cfg : Config) (l : List Instance) :
    R.encodeAll cfg (l.map R.prune) = R.encodeAll cfg l := by
  rw [encodeAll, encodeAll, List.foldlM_map]
  exact foldlM_congr fun e _ doc => encodeInto_prune hR _ _ doc e

/-! ## Acceptance -/

/-- Where no two occurrences have one subject, the encoder accepts a list exactly when
everything in it is well shaped and within the depth limit. The document then has the
blocks of all occurrences in preorder, each laid out from the mapped fields of its
instance, and any list that differs in unmapped fields only gives the same document. -/
theorem encodeAll_accepts_iff (hR : R.Reachable) (hdistinct : R.Distinct l) :
    ((∃ doc, R.encodeAll cfg l = .ok doc) ↔
      ∀ p ∈ R.occurrences l, R.WellShaped p.2 ∧ p.1 ≤ cfg.maxDepth) ∧
    ∀ doc, R.encodeAll cfg l = .ok doc →
      List.Forall₂ (fun p b => ∃ d, R.classes.get? p.2.className = some d ∧
        b = R.layout d (R.subject p.2) p.2) (R.occurrences l) doc.blocks ∧
      ∀ l', l'.map R.prune = l.map R.prune → R.encodeAll cfg l' = .ok doc := by
  refine ⟨?_, fun doc h => ⟨?_, fun l' hl' => ?_⟩⟩
  · rw [hdistinct.encodeAll_iff, forall₂_and, forall_blockOf_iff hR.coherent, ← forall₂_and]
    exact forall₂_congr fun _ _ => and_comm
  · refine (hdistinct.encodeAll_blocks h).imp ?_
    rintro ⟨n, e⟩ b ⟨-, hb⟩
    obtain ⟨d, s, hclass, hs, -, rfl⟩ := blockOf_eq_ok.mp hb
    rw [subject_eq (subjectOf_eq_ok.mpr ⟨d, hclass, hs⟩)]
    exact ⟨d, hclass, rfl⟩
  · rw [← encodeAll_prune hR.coherent, hl', encodeAll_prune hR.coherent, h]

/-- Two assets with parts. A field that is not mapped would nest a third asset. -/
def stock : List Instance :=
  [(asset "urn:a" [part "urn:c" "x", part "urn:d" "y"]).set "spare" (.entity (asset "urn:c" [])),
    asset "urn:b" []]

/-- The stock needs a depth limit of one, and the third asset is no part of it. -/
theorem encodeAll_accepts_stock :
    assets.Reachable ∧ assets.Distinct stock ∧
      (∃ doc, assets.encodeAll { Config.default with maxDepth := 1 } stock = .ok doc ∧
        assets.encodeAll { Config.default with maxDepth := 1 } (stock.map assets.prune) =
          .ok doc) ∧
      ¬ ∃ doc, assets.encodeAll { Config.default with maxDepth := 0 } stock = .ok doc := by
  have hdistinct : assets.Distinct stock := by decide +kernel
  refine ⟨assets_reachable, hdistinct, ?_, fun h => ?_⟩
  · obtain ⟨doc, hdoc⟩ := exists_of_isOk
      (show (assets.encodeAll { Config.default with maxDepth := 1 } stock).isOk = true by
        decide +kernel)
    exact ⟨doc, hdoc,
      ((encodeAll_accepts_iff assets_reachable hdistinct).2 doc hdoc).2 _ (by decide +kernel)⟩
  · have hpart : (1, part "urn:c" "x") ∈ assets.occurrences stock := by decide +kernel
    have hdepth := (((encodeAll_accepts_iff assets_reachable hdistinct).1.mp h) _ hpart).2
    exact absurd hdepth (by decide)

end Registry

end EntityRdf

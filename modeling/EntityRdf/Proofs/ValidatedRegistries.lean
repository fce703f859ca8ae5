import EntityRdf.Proofs.Acceptance
import EntityRdf.Proofs.NormalForm
import EntityRdf.Proofs.RegistryRuns
import EntityRdf.Proofs.TopLevel
import EntityRdf.Proofs.WellFormedOutput

/-!
# What a registry that passes its checks can decode

The checks on a registry are to show that every class can be encoded and decoded. They
look at identities, tags, predicates and prefixes, but not at what a predicate means: a
field that is mapped to the type predicate passes, and is written, yet it is never read.

Without such a field nothing is lost. An instance that sets none of them
(`Registry.OmitsTypes`) has the same block, the same nested instances and the same pruned
form in the registry that leaves types alone, where decoding undoes encoding. Only the
roots can differ: a subject that is spelled like a class tag counts as referenced, and is
left to the sweep (`Recorded.tops_eq`).

Main results: `passing_registry_decodes_iff`, and `unread_field` for the promise that
does not hold.
-/

namespace EntityRdf

/-! ## Fields of a class -/

namespace ClassDescriptor

variable {ctx : Context} {d : ClassDescriptor} {f : FieldDescriptor} {e : Instance} {b : Block}

theorem subjectOf_leaveTypes (hd : d.Coherent ctx) (e : Instance) :
    d.leaveTypes.subjectOf e = d.subjectOf e := by
  rw [subjectOf, subjectOf, identity?_leaveTypes hd]
  rfl

/-- What is set is set in other fields. -/
theorem held_leaveTypes
    (h : ∀ f ∈ d.fields, f.expanded = some Vocabulary.rdfType → e.get? f.name = none) :
    d.leaveTypes.held e = d.held e := by
  have hfields : d.leaveTypes.predicateFields =
      d.predicateFields.filter fun f => f.expanded != some Vocabulary.rdfType :=
    List.filter_comm ..
  rw [held, held, hfields, List.filterMap_filter]
  refine List.filterMap_congr fun f hf => ?_
  split
  · rfl
  · rename_i htype
    rw [h f (mem_predicateFields.mp hf).1 (by simpa using htype)]
    rfl

/-- What an instance nests stands in its set entity fields. -/
theorem nestedIn_eq (d : ClassDescriptor) (e : Instance) :
    d.nestedIn e =
      (d.held e).flatMap fun p => if p.1.range? = some .entity then p.2.nested else [] := by
  rw [flatMap_held, nestedIn]
  refine List.flatMap_congr fun f _ => ?_
  split
  · rfl
  · cases e.get? f.name <;> rfl

/-- The objects of other fields stay theirs. -/
theorem mem_objectsFor_of_leaveTypes {o : Object} (h : o ∈ d.leaveTypes.objectsFor ctx b f) :
    o ∈ d.objectsFor ctx b f := by
  obtain ⟨iri, hp, hf⟩ := mem_readPairs.mp (mem_objectsFor.mp h)
  refine mem_objectsFor.mpr (mem_readPairs.mpr ⟨iri, hp, ?_⟩)
  rw [← fieldForPredicate?_leaveTypes, hf]
  intro hiri
  rw [hiri, fieldForPredicate?_leaveTypes_type] at hf
  cases hf

end ClassDescriptor

namespace Registry

open ClassDescriptor

variable {R : Registry} {cfg : Config} {doc : Document} {e x : Instance} {v : Value}
  {f : FieldDescriptor} {d : ClassDescriptor} {n : Nat} {b : Block} {strict : Bool} {s : String}

/-- The instance sets no field that is mapped to the type predicate. -/
def OmitsTypes (R : Registry) (e : Instance) : Prop :=
  ∀ d, R.classes.get? e.className = some d → ∀ f ∈ d.fields,
    f.expanded = some Vocabulary.rdfType → e.get? f.name = none

instance (R : Registry) (e : Instance) : Decidable (R.OmitsTypes e) :=
  inferInstanceAs (Decidable (∀ d ∈ R.classes.get? e.className, ∀ f ∈ d.fields,
    f.expanded = some Vocabulary.rdfType → e.get? f.name = none))

/-! ## What the encoder sees -/

theorem subjectOf_leaveTypes (hR : R.Coherent) (e : Instance) :
    R.leaveTypes.subjectOf e = R.subjectOf e := by
  rw [subjectOf, subjectOf, describe, describe, get?_leaveTypes]
  cases hclass : R.classes.get? e.className with
  | none => rfl
  | some d => exact ClassDescriptor.subjectOf_leaveTypes (hR.fields hclass) e

theorem subject_leaveTypes (hR : R.Coherent) (e : Instance) :
    R.leaveTypes.subject e = R.subject e := by
  rw [subject, subject, subjectOf_leaveTypes hR]

theorem objectsOf_leaveTypes (hR : R.Coherent) (v : Value) :
    R.leaveTypes.objectsOf v = R.objectsOf v := by
  cases v <;> simp only [objectsOf, subject_leaveTypes hR]

/-- Whether a value fits a field depends on the classes that are registered. -/
theorem fits_leaveTypes (hR : R.Coherent) : R.leaveTypes.Fits f v ↔ R.Fits f v := by
  simp only [fits_iff, subjectOf_leaveTypes hR]

/-- An instance that sets no field for types nests the same instances. -/
theorem OmitsTypes.nested_eq (h : R.OmitsTypes e) : R.leaveTypes.nested e = R.nested e := by
  rw [nested, nested, get?_leaveTypes]
  cases hclass : R.classes.get? e.className with
  | none => rfl
  | some d =>
    show d.leaveTypes.nestedIn e = d.nestedIn e
    rw [nestedIn_eq, nestedIn_eq, held_leaveTypes (h d hclass)]

/-- An instance that sets no field for types has the same block. -/
theorem OmitsTypes.blockOf_eq (h : R.OmitsTypes e) (hR : R.Coherent)
    (hb : R.blockOf e = .ok b) : R.leaveTypes.blockOf e = .ok b := by
  obtain ⟨d, s, hclass, hs, hfits, rfl⟩ := blockOf_eq_ok.mp hb
  have hheld : d.leaveTypes.held e = d.held e := held_leaveTypes (h d hclass)
  refine blockOf_eq_ok.mpr ⟨d.leaveTypes, s, ?_, ?_, fun p hp => ?_, ?_⟩
  · rw [get?_leaveTypes, hclass]
    rfl
  · rw [ClassDescriptor.subjectOf_leaveTypes (hR.fields hclass), hs]
  · rw [hheld] at hp
    exact (fits_leaveTypes hR).mpr (hfits p hp)
  · rw [layout, layout, hheld]
    simp only [objectsOf_leaveTypes hR]
    rfl

/-- In the absence of such values the encoder goes over the same instances. -/
theorem preorder_leaveTypes (h : ∀ p ∈ R.preorder n e, R.OmitsTypes p.2) :
    R.leaveTypes.preorder n e = R.preorder n e := by
  induction hsize : sizeOf e using Nat.strongRecOn generalizing n e with
  | ind size ih =>
    rw [preorder_eq, preorder_eq, (h _ (mem_preorder_self n e)).nested_eq]
    refine congrArg (_ :: ·) (List.flatMap_congr fun c hc => ?_)
    refine ih (sizeOf c) (hsize ▸ sizeOf_lt_of_mem_nested hc) (fun p hp => h p ?_) rfl
    exact mem_preorder.mpr (Or.inr ⟨c, hc, hp⟩)

theorem occurrences_leaveTypes {l : List Instance}
    (h : ∀ p ∈ R.occurrences l, R.OmitsTypes p.2) :
    R.leaveTypes.occurrences l = R.occurrences l :=
  List.flatMap_congr fun e he =>
    preorder_leaveTypes fun p hp => h p (mem_occurrences.mpr ⟨e, he, hp⟩)

/-! ## What pruning leaves -/

/-- Pruning a value is pruning what it nests. -/
theorem pruneValue_congr {R' : Registry} (h : ∀ c ∈ v.nested, R'.prune c = R.prune c) :
    R'.pruneValue v = R.pruneValue v := by
  cases v with
  | str s => rfl
  | strs l => rfl
  | entity c => rw [pruneValue, pruneValue, h c (List.mem_singleton_self c)]
  | entities l =>
    have hl : l.map R'.prune = l.map R.prune := List.map_congr_left h
    rw [pruneValue, pruneValue, pruneAll_eq_map, pruneAll_eq_map, hl]

/-- The fields that the registry loses are not set, so pruning removes the same. -/
theorem prune_leaveTypes (hR : R.Coherent) (he : e.Canonical)
    (h : ∀ p ∈ R.preorder n e, R.OmitsTypes p.2) : R.leaveTypes.prune e = R.prune e := by
  induction hsize : sizeOf e using Nat.strongRecOn generalizing n e with
  | ind size ih =>
    -- both are canonical, so it is enough to compare lookups
    refine (prune_canonical he).ext (prune_canonical he) (by simp) fun m => ?_
    rw [get?_prune, get?_prune, get?_leaveTypes]
    cases hclass : R.classes.get? e.className with
    | none => rfl
    | some d =>
      show (d.leaveTypes.field? m).bind _ = (d.field? m).bind _
      cases hv : e.get? m with
      | none => simp
      | some v =>
        have hd : d.Coherent R.context := hR.fields hclass
        -- a field that is set is a field of both classes or of neither
        have hsame : d.leaveTypes.field? m = d.field? m := by
          refine find?_filter_of_imp fun f hf hname => ?_
          obtain rfl : f.name = m := by simpa using hname
          have hne : f.expanded ≠ some Vocabulary.rdfType := by
            intro htype
            rw [h _ (mem_preorder_self n e) d hclass f hf htype] at hv
            cases hv
          simpa using hne
        rw [hsame]
        refine Option.bind_congr fun f hf => ?_
        have hmem : f ∈ d.fields := List.mem_of_find?_eq_some hf
        obtain rfl : f.name = m := by simpa using List.find?_some hf
        rw [Option.map_some, Option.map_some, pruneHeld, pruneHeld]
        split
        · rename_i hr
          refine congrArg some (pruneValue_congr fun c hc => ?_)
          have hnested : c ∈ R.nested e := (mem_nested hclass).mpr
            ⟨f, v, mem_held.mpr ⟨mem_predicateFields_of_entity hmem hr, hv⟩, hr, hc⟩
          have hbelow : ∀ p ∈ R.preorder (n + 1) c, R.OmitsTypes p.2 :=
            fun p hp => h p (mem_preorder.mpr (Or.inr ⟨c, hnested, hp⟩))
          exact ih (sizeOf c) (hsize ▸ sizeOf_lt_of_mem_nested hnested) (he.deep hv hc) hbelow rfl
        · rfl

/-! ## What the decoder takes for references -/

/-- Without the fields that are mapped to the type predicate no more is referenced. -/
theorem targetsOf_leaveTypes_subset (R : Registry) (b : Block) :
    R.leaveTypes.targetsOf b ⊆ R.targetsOf b := by
  rw [targetsOf, targetsOf, blockClass?_leaveTypes]
  cases R.blockClass? b with
  | none => exact List.Subset.refl []
  | some d =>
    intro t ht
    obtain ⟨f, hr, hos⟩ := mem_targets.mp ht
    exact mem_targets.mpr ⟨f, hr, mem_objectsFor_of_leaveTypes hos⟩

/-- So there are no fewer roots. -/
theorem rootSubjects_sublist (R : Registry) (doc : Document) :
    (R.rootSubjects doc).Sublist (R.leaveTypes.rootSubjects doc) := by
  refine List.monotone_filter_right _ fun s hs => ?_
  simp only [Bool.not_eq_true', List.contains_eq_mem, decide_eq_false_iff_not,
    List.mem_flatMap] at hs ⊢
  rintro ⟨b, hb, hmem⟩
  exact hs ⟨b, hb, R.targetsOf_leaveTypes_subset b hmem⟩

/-- No subject is left over when all are covered. -/
theorem leftovers_eq_nil {covered : String → Prop} {l : List String} (h : ∀ s ∈ l, covered s) :
    R.leftovers doc covered l = [] := by
  induction l with
  | nil => rfl
  | cons s rest ih =>
    obtain ⟨hs, hrest⟩ := List.forall_mem_cons.mp h
    rw [leftovers, if_pos hs, ih hrest]

/-! ## Documents that record an instance -/

/-- The document is the encoding of the instance, in which no subject occurs twice, and
the limits of the configuration leave room for it. -/
structure Recorded (R : Registry) (cfg : Config) (e : Instance) (doc : Document) : Prop where
  built : e.Built
  distinct : R.Distinct [e]
  encoded : ∃ cfg', R.encode cfg' e = .ok doc
  depth : ∀ p ∈ R.occurrences [e], p.1 ≤ cfg.maxDepth
  nodes : (R.prune e).count ≤ cfg.maxNodes

namespace Recorded

/-- The document has the blocks of all occurrences, which are within the limits. -/
theorem blocks (h : R.Recorded cfg e doc) :
    List.Forall₂ (fun p b => p.1 ≤ cfg.maxDepth ∧ R.blockOf p.2 = .ok b)
      (R.occurrences [e]) doc.blocks := by
  obtain ⟨cfg', hdoc⟩ := h.encoded
  exact (List.forall₂_and_left _ _).mpr
    ⟨h.depth, (h.distinct.encodeAll_blocks hdoc).imp fun _ _ hb => hb.2⟩

/-- The limits of the configuration would do for the encoder as well. -/
theorem encodes (h : R.Recorded cfg e doc) : R.Encodes cfg [e] doc where
  encoded := h.distinct.encodeAll_eq_ok.mpr h.blocks
  canonical := by simpa using h.built.canonical
  transparent := h.distinct.agrees.transparent

theorem mem_occurrences_self (R : Registry) (e : Instance) : (0, e) ∈ R.occurrences [e] :=
  mem_occurrences_of_mem (List.mem_singleton_self e)

theorem subjectOf_eq (h : R.Recorded cfg e doc) : R.subjectOf e = .ok (R.subject e) :=
  h.encodes.subjectOf_eq ⟨0, mem_occurrences_self R e⟩

/-- Nothing nested has the subject of the instance, so the instance is the root. -/
theorem roots_eq (h : R.Recorded cfg e doc) : R.roots [e] = [e] := by
  refine firsts_cons_of_not_mem h.subjectOf_eq fun hmem => ?_
  obtain ⟨y, c, ⟨n, hy⟩, hc, hcs⟩ := mem_nestedSubjects.mp hmem
  -- the subject would stand twice in the list of subjects
  have hdistinct : (R.subjectsIn (R.occurrences [e])).Nodup := h.distinct
  have hbelow : (n + 1, c) ∈ R.occurrences [e] := mem_occurrences_of_mem_nested hy hc
  rw [occurrences, List.flatMap_singleton, preorder_eq] at hdistinct hbelow
  rw [subjectsIn, List.filterMap_cons_some (b := R.subject e) (by rw [h.subjectOf_eq]; rfl),
    List.nodup_cons] at hdistinct
  refine hdistinct.1 (List.mem_filterMap.mpr ⟨(n + 1, c), ?_, by rw [hcs]; rfl⟩)
  rcases List.mem_cons.mp hbelow with heq | hrest
  · cases heq
  · exact hrest

/-- The block of the instance comes first. -/
theorem exists_subjects_eq (h : R.Recorded cfg e doc) :
    ∃ rest, doc.subjects = R.subject e :: rest := by
  have hblocks := h.blocks
  rw [occurrences, List.flatMap_singleton, preorder_eq] at hblocks
  obtain ⟨b, bs, ⟨-, hb⟩, -, hdoc⟩ := List.forall₂_cons_left_iff.mp hblocks
  refine ⟨bs.map (·.subject), ?_⟩
  rw [Document.subjects, hdoc, List.map_cons, subject_eq (subjectOf_of_blockOf hb)]

end Recorded

/-! ## Instances that omit types -/

namespace Recorded

variable (hR : R.Coherent) (h : R.Recorded cfg e doc)
  (homits : ∀ p ∈ R.occurrences [e], R.OmitsTypes p.2)

include hR h homits

theorem prune_eq : R.leaveTypes.prune e = R.prune e := by
  refine prune_leaveTypes (n := 0) hR h.built.canonical fun p hp => homits p ?_
  exact mem_occurrences.mpr ⟨e, List.mem_singleton_self e, hp⟩

/-- The document records the instance in the registry that leaves types alone. -/
theorem leaveTypes : R.leaveTypes.Recorded cfg e doc := by
  have hocc : R.leaveTypes.occurrences [e] = R.occurrences [e] := occurrences_leaveTypes homits
  have hdistinct : R.leaveTypes.Distinct [e] := by
    show (R.leaveTypes.subjectsIn (R.leaveTypes.occurrences [e])).Nodup
    rw [hocc, subjectsIn]
    simp only [subjectOf_leaveTypes hR]
    exact h.distinct
  refine ⟨h.built, hdistinct, ⟨cfg, hdistinct.encodeAll_eq_ok.mpr ?_⟩, ?_, ?_⟩
  · rw [hocc]
    -- occurrences that omit types keep their blocks
    have hboth := (List.forall₂_and_left _ _).mpr ⟨homits, h.blocks⟩
    exact hboth.imp fun p b hb => ⟨hb.2.1, hb.1.blockOf_eq hR hb.2.2⟩
  · rw [hocc]
    exact h.depth
  · rw [h.prune_eq hR homits]
    exact h.nodes

/-- Without fields for types, the root of the document is the instance itself. -/
theorem rootSubjects_leaveTypes : R.leaveTypes.rootSubjects doc = [R.subject e] := by
  have hS := h.leaveTypes hR homits
  rw [hS.encodes.rootSubjects_eq (leaveTypes_coherent hR) (leaveTypes_leavesTypes hR), hS.roots_eq,
    List.map_singleton, subject_leaveTypes hR]

/-- Nothing but the instance is at the top, even if its subject is spelled like a tag. -/
theorem tops_eq : R.tops doc = [R.subject e] := by
  have hS := (h.leaveTypes hR homits).encodes
  have hcoherent : R.leaveTypes.Coherent := leaveTypes_coherent hR
  have hroots : R.leaveTypes.rootSubjects doc = [R.subject e] := h.rootSubjects_leaveTypes hR homits
  -- without fields for types the instance is the only root, and it reaches every subject
  have hall : ∀ s ∈ doc.subjects, ∃ n, R.leaveTypes.Reaches doc n (R.subject e) s := by
    intro s hs
    have hdecodes : ∀ t ∈ doc.subjects, ∃ x, R.leaveTypes.Decodes true doc t x := by
      intro t ht
      obtain ⟨x, hx, rfl⟩ := hS.exists_occurrence ht
      exact ⟨_, hS.decodes hcoherent (leaveTypes_leavesTypes hR) true hx⟩
    obtain ⟨r, hr, n, hn⟩ := exists_root hcoherent (encodeAll_nodup_subjects hS.encoded) hdecodes hs
    rw [hroots, List.mem_singleton] at hr
    exact ⟨n, hr ▸ hn⟩
  have hsub : (R.rootSubjects doc).Sublist [R.subject e] := hroots ▸ R.rootSubjects_sublist doc
  rw [tops]
  rcases List.sublist_singleton.mp hsub with hnone | hone
  · -- the sweep takes the first subject, which leaves nothing over
    obtain ⟨rest, hrest⟩ := h.exists_subjects_eq
    rw [hnone, hrest, leftovers, if_neg (by simp), leftovers_eq_nil, List.nil_append]
    intro s hs
    exact Or.inr (hall s (hrest ▸ List.mem_cons_of_mem _ hs))
  · rw [hone, leftovers_eq_nil, List.append_nil]
    exact fun s hs => ⟨R.subject e, List.mem_singleton_self _, hall s hs⟩

/-- What the document records can be decoded from it. -/
theorem decode_eq : R.decode cfg doc = .ok [R.prune e] := by
  have hS := h.leaveTypes hR homits
  have hcoherent : R.leaveTypes.Coherent := leaveTypes_coherent hR
  have hT : R.leaveTypes.LeavesTypes := leaveTypes_leavesTypes hR
  -- the smaller registry decodes the instance, and this one decodes in the same way
  have hself : R.leaveTypes.OccursIn [e] e := ⟨0, mem_occurrences_self _ e⟩
  have hdecodes : R.leaveTypes.Decodes cfg.strict doc (R.subject e) (R.prune e) := by
    rw [← subject_leaveTypes hR, ← h.prune_eq hR homits]
    exact hS.encodes.decodes hcoherent hT cfg.strict hself
  have htops : R.tops doc = [R.subject e] := h.tops_eq hR homits
  refine (decode_eq_ok_iff hR).mpr ⟨encodeAll_nodup_subjects hS.encodes.encoded, ?_, ?_, ?_⟩
  · rw [htops]
    exact .cons hdecodes .nil
  · intro r hr n u hu
    rw [htops, List.mem_singleton] at hr
    subst hr
    rw [← subject_leaveTypes hR] at hu
    obtain ⟨y, hy⟩ := hS.encodes.reaches hcoherent hT (mem_occurrences_self _ e) hu
    exact Nat.zero_add n ▸ hS.depth _ hy
  · simpa [Instance.countAll] using h.nodes

end Recorded

/-! ## Instances that set types -/

/-- Pruning keeps the fields of the class, so it does not hide that one is set. -/
theorem omitsTypes_of_prune (hR : R.Coherent) (h : R.OmitsTypes (R.prune e)) :
    R.OmitsTypes e := by
  intro d hclass f hf htype
  have hnone := h d (by rwa [className_prune]) f hf htype
  rwa [get?_prune_field hclass (hR.fields hclass) hf, Option.map_eq_none_iff] at hnone

/-- What was decoded sets no type, since there is no field to place it in. -/
theorem omitsTypes_of_decodes (hR : R.Coherent) (h : R.leaveTypes.Decodes strict doc s e) :
    R.OmitsTypes e := by
  intro d hclass f hf htype
  obtain ⟨d', b, kids, hclass', -, -, he, -⟩ := h.class_eq (leaveTypes_coherent hR)
  rw [get?_leaveTypes, hclass] at hclass'
  obtain rfl := Option.some.inj hclass'
  refine he.unknown _ fun g hg hname => ?_
  obtain ⟨hmem, hne⟩ := mem_leaveTypes.mp hg
  obtain rfl := (hR.fields hclass).eq_of_name_eq hmem hf hname
  exact hne htype

/-- What comes back from the decoder sets no field for types, and this goes down to all
that is nested. -/
theorem omitsTypes_of_decode (hR : R.Coherent) (h : R.decode cfg doc = .ok [R.prune e]) :
    ∀ p ∈ R.occurrences [e], R.OmitsTypes p.2 := by
  obtain ⟨s, _, hs, -, -⟩ :=
    List.forall₂_cons_right_iff.mp ((decode_eq_ok_iff hR).mp h).tops
  -- every occurrence has been decoded from some subject
  have hdecoded : ∀ x, R.OccursIn [e] x →
      ∃ t, R.leaveTypes.Decodes cfg.strict doc t (R.prune x) := by
    intro x hx
    refine OccursIn.induction (motive := fun x =>
      ∃ t, R.leaveTypes.Decodes cfg.strict doc t (R.prune x)) ?_ ?_ hx
    · intro x hx
      rw [List.mem_singleton.mp hx]
      exact ⟨s, hs⟩
    · rintro x y - ⟨t, ht⟩ hy
      have hnested : R.prune y ∈ R.leaveTypes.nested (R.prune x) := by
        rw [(omitsTypes_of_decodes hR ht).nested_eq, nested_prune hR]
        exact List.mem_map_of_mem hy
      obtain ⟨u, -, hu⟩ := (ht.mem_nested_iff (leaveTypes_coherent hR)).mp hnested
      exact ⟨u, hu⟩
  rintro ⟨n, x⟩ hx
  obtain ⟨t, ht⟩ := hdecoded x ⟨n, hx⟩
  exact omitsTypes_of_prune hR (omitsTypes_of_decodes hR ht)

end Registry

/-! ## An instance that sets a given field -/

namespace ClassDescriptor

variable {ctx : Context} {d : ClassDescriptor} {f : FieldDescriptor} {v : Value} {s : String}

/-- The blank instance is well shaped. -/
theorem shapes_blank (hd : d.Coherent ctx) (hid : ∃ i ∈ d.fields, i.isIdentity = true)
    (hs : s ≠ "") : d.Shapes (d.blank s) := by
  obtain ⟨i, hi, hid⟩ := hid
  refine ⟨⟨i, hi, hid, s, get?_blank_identity hd hi hid, hs⟩, fun g hg v hv => ?_⟩
  rw [get?_blank_of_mapped hd hg] at hv
  cases hv

/-- It stays so when a mapped field is set to a value of its form. -/
theorem Shapes.set {e : Instance} (h : d.Shapes e) (hd : d.Coherent ctx)
    (hf : f ∈ d.predicateFields) (hrange : f.range? = some v.range)
    (hmultiplicity : f.multiplicity = v.multiplicity) : d.Shapes (e.set f.name v) := by
  obtain ⟨⟨i, hi, hid, s, hget, hs⟩, hforms⟩ := h
  refine ⟨⟨i, hi, hid, s, ?_, hs⟩, fun g hg w hw => ?_⟩
  · rw [Instance.get?_set_of_ne _ _ (name_ne_of_identity hd hi hid hf), hget]
  · -- the field that was set holds the value, any other field what it held
    by_cases heq : g = f
    · subst heq
      rw [Instance.get?_set_self] at hw
      split at hw
      · cases hw
      · obtain rfl := Option.some.inj hw
        exact ⟨hrange, hmultiplicity⟩
    · rw [Instance.get?_set_of_ne _ _ fun hname =>
        heq (hd.eq_of_name_eq (mem_predicateFields.mp hg).1 (mem_predicateFields.mp hf).1 hname)] at hw
      exact hforms g hg w hw

end ClassDescriptor

/-- A mapped field has a value, which nests the given instance or nothing. -/
theorem FieldDescriptor.exists_value {d : ClassDescriptor} {f : FieldDescriptor}
    (hf : f ∈ d.predicateFields) (c : Instance) :
    ∃ v : Value, f.range? = some v.range ∧ f.multiplicity = v.multiplicity ∧
      v.isEmptySequence = false ∧ (v.nested = [] ∨ v.nested = [c]) := by
  rcases Registry.range?_of_mem_predicateFields hf with hr | hr <;> cases hm : f.multiplicity
  · exact ⟨.str "x", hr, rfl, rfl, Or.inl rfl⟩
  · exact ⟨.strs ["x"], hr, rfl, rfl, Or.inl rfl⟩
  · exact ⟨.entity c, hr, rfl, rfl, Or.inr rfl⟩
  · exact ⟨.entities [c], hr, rfl, rfl, Or.inr rfl⟩

namespace Registry

open ClassDescriptor

variable {R : Registry} {d : ClassDescriptor} {f : FieldDescriptor} {v : Value}

/-- An instance with an identity only nests nothing. -/
theorem nested_blank (hR : R.Coherent) (hclass : R.classes.get? d.name = some d) (s : String) :
    R.nested (d.blank s) = [] := by
  have hclass' : R.classes.get? (d.blank s).className = some d := by rwa [className_blank]
  refine List.eq_nil_iff_forall_not_mem.mpr fun c hc => ?_
  obtain ⟨f, v, hp, -, -⟩ := (mem_nested hclass').mp hc
  obtain ⟨hf, hv⟩ := mem_held.mp hp
  rw [get?_blank_of_mapped (hR.fields hclass) hf] at hv
  cases hv

/-- Where one mapped field is set, what is nested is nested in its value. -/
theorem nested_set_blank (hR : R.Coherent) (hclass : R.classes.get? d.name = some d)
    (hf : f ∈ d.predicateFields) (hv : v.isEmptySequence = false)
    (hrange : f.range? = some v.range) (s : String) :
    R.nested ((d.blank s).set f.name v) = v.nested := by
  have hd : d.Coherent R.context := hR.fields hclass
  have hclass' : R.classes.get? ((d.blank s).set f.name v).className = some d := by
    rwa [Instance.className_set, className_blank]
  have hget : ((d.blank s).set f.name v).get? f.name = some v := by
    rw [Instance.get?_set_self, hv]
    rfl
  -- the field is the only mapped one that is set
  have hmem : ∀ p, p ∈ d.held ((d.blank s).set f.name v) ↔ p ∈ [(f, v)] := by
    rintro ⟨g, w⟩
    rw [mem_held, List.mem_singleton, Prod.mk.injEq]
    constructor
    · rintro ⟨hg, hw⟩
      obtain rfl : g = f := by
        by_contra hne
        have hname : g.name ≠ f.name := fun hname =>
          hne (hd.eq_of_name_eq (mem_predicateFields.mp hg).1 (mem_predicateFields.mp hf).1 hname)
        rw [Instance.get?_set_of_ne _ _ hname, get?_blank_of_mapped hd hg] at hw
        cases hw
      exact ⟨rfl, Option.some.inj (hw.symm.trans hget)⟩
    · rintro ⟨rfl, rfl⟩
      exact ⟨hf, hget⟩
  have hheld : d.held ((d.blank s).set f.name v) = [(f, v)] :=
    List.perm_singleton.mp ((List.perm_ext_iff_of_nodup (held_keys_nodup hR hclass').of_map
      (List.nodup_singleton _)).mpr hmem)
  rw [nested_eq hclass', nestedIn_eq, hheld, List.flatMap_singleton, hrange]
  cases v <;> rfl

/-- If the value nests a blank instance or nothing, there is no more below. -/
theorem occurrences_set_blank (hR : R.Coherent) (hclass : R.classes.get? d.name = some d)
    (hf : f ∈ d.predicateFields) (hv : v.isEmptySequence = false)
    (hrange : f.range? = some v.range) {s t : String}
    (hkids : v.nested = [] ∨ v.nested = [d.blank t]) :
    R.occurrences [(d.blank s).set f.name v] = [(0, (d.blank s).set f.name v)] ∨
      R.occurrences [(d.blank s).set f.name v] =
        [(0, (d.blank s).set f.name v), (1, d.blank t)] := by
  rw [occurrences, List.flatMap_singleton, preorder_eq, nested_set_blank hR hclass hf hv hrange]
  rcases hkids with hnone | hone
  · rw [hnone]
    exact Or.inl rfl
  · rw [hone, List.flatMap_singleton, preorder_eq, nested_blank hR hclass]
    exact Or.inr rfl

/-- An instance without repeated subjects is recorded if everything in it is well shaped:
the limits that just leave room for it will do. -/
theorem exists_recorded_of_wellShaped {e : Instance} {m : Nat} (hR : R.Coherent)
    (hbuilt : e.Built) (hdistinct : R.Distinct [e])
    (hall : ∀ p ∈ R.occurrences [e], p.1 ≤ m ∧ R.WellShaped p.2) :
    ∃ cfg doc, R.Recorded cfg e doc := by
  obtain ⟨cfg, hcfg⟩ : ∃ cfg : Config,
      cfg = { Config.default with maxDepth := m, maxNodes := (R.prune e).count } := ⟨_, rfl⟩
  have hblocks := (forall_blockOf_iff hR).mpr fun p hp => (hall p hp).2
  have hdepth : ∀ p ∈ R.occurrences [e], p.1 ≤ cfg.maxDepth := by
    rw [hcfg]
    exact fun p hp => (hall p hp).1
  obtain ⟨doc, hdoc⟩ : ∃ doc, R.encodeAll cfg [e] = .ok doc :=
    hdistinct.encodeAll_iff.mpr fun p hp => ⟨hdepth p hp, hblocks p hp⟩
  exact ⟨cfg, doc, hbuilt, hdistinct, ⟨cfg, hdoc⟩, hdepth, hcfg ▸ Nat.le_refl _⟩

/-- Each mapped field of a class with an identity is set by an instance that a document
records. -/
theorem exists_recorded (hR : R.Coherent) (hclass : R.classes.get? d.name = some d)
    (hid : ∃ i ∈ d.fields, i.isIdentity = true) (hf : f ∈ d.predicateFields) :
    ∃ cfg e doc, R.Recorded cfg e doc ∧ R.classes.get? e.className = some d ∧
      e.get? f.name ≠ none := by
  have hd : d.Coherent R.context := hR.fields hclass
  -- the instance `a`, which may nest the instance `b` of its own class
  obtain ⟨v, hrange, hmultiplicity, hfilled, hkids⟩ :=
    FieldDescriptor.exists_value hf (d.blank "b")
  obtain ⟨e, he⟩ : ∃ e, e = (d.blank "a").set f.name v := ⟨_, rfl⟩
  have hclass_e : R.classes.get? e.className = some d := by
    rwa [he, Instance.className_set, className_blank]
  have hclass_b : R.classes.get? (d.blank "b").className = some d := by rwa [className_blank]
  have hocc : R.occurrences [e] = [(0, e)] ∨ R.occurrences [e] = [(0, e), (1, d.blank "b")] :=
    he ▸ occurrences_set_blank hR hclass hf hfilled hrange hkids
  have hbuilt : e.Built := by
    rw [he]
    refine .set _ (d.built_blank "a") fun c hc => ?_
    rcases hkids with hnone | hone
    · simp [hnone] at hc
    · rw [hone, List.mem_singleton] at hc
      exact hc ▸ d.built_blank "b"
  have hdistinct : R.Distinct [e] := by
    obtain ⟨i, hi, hidentity⟩ := hid
    have hsubject_e : R.subjectOf e = .ok "a" := by
      refine subjectOf_of_get? hR hclass_e hi hidentity ?_ (by decide)
      rw [he, Instance.get?_set_of_ne _ _ (name_ne_of_identity hd hi hidentity hf),
        get?_blank_identity hd hi hidentity]
    have hsubject_b : R.subjectOf (d.blank "b") = .ok "b" :=
      subjectOf_of_get? hR hclass_b hi hidentity (get?_blank_identity hd hi hidentity) (by decide)
    show (R.subjectsIn (R.occurrences [e])).Nodup
    rcases hocc with hocc | hocc <;>
      simp [hocc, subjectsIn, hsubject_e, hsubject_b, Except.toOption]
  have hall : ∀ p ∈ R.occurrences [e], p.1 ≤ 1 ∧ R.WellShaped p.2 := by
    have htop : R.WellShaped e :=
      ⟨d, hclass_e, he ▸ (shapes_blank hd hid (by decide)).set hd hf hrange hmultiplicity⟩
    have hbelow : R.WellShaped (d.blank "b") := ⟨d, hclass_b, shapes_blank hd hid (by decide)⟩
    rcases hocc with hocc | hocc <;> simp [hocc, htop, hbelow]
  obtain ⟨cfg, doc, hrecorded⟩ := exists_recorded_of_wellShaped hR hbuilt hdistinct hall
  refine ⟨cfg, e, doc, hrecorded, hclass_e, ?_⟩
  rw [he, Instance.get?_set_self, hfilled]
  exact Option.some_ne_none v

/-! ## Registries that pass -/

/-- The checks on the registry find neither a failure nor anything to warn of. -/
def Passes (R : Registry) : Prop := ∀ f ∈ R.validate.findings, f.severity = .pass

instance (R : Registry) : Decidable R.Passes :=
  inferInstanceAs (Decidable (∀ f ∈ R.validate.findings, f.severity = .pass))

/-- In a registry that passes every class has an identity. -/
theorem Passes.hasIdentities (h : R.Passes) (hR : R.Reachable) : R.HasIdentities := by
  obtain ⟨ctx, rs, rfl⟩ := hR
  have hconsistent := consistent_of_coherent (run_coherent (empty_coherent ctx) rs)
    (run_indexed (empty_indexed ctx) rs)
  refine hconsistent.classesWithoutIdentity_eq_nil.mp (not_not.mp fun hsome => ?_)
  have hfail := isFailure_checkIdentity.mpr hsome
  rw [Finding.isFailure, h _ (List.mem_cons_self ..)] at hfail
  cases hfail

/-- A registry leaves types alone when it records the type predicate for no field. -/
theorem leavesTypes_iff (hR : R.Coherent) :
    R.LeavesTypes ↔ ∀ d ∈ R.classList, ∀ f ∈ d.fields, f.expanded ≠ some Vocabulary.rdfType := by
  refine forall₂_congr fun d hd => forall₂_congr fun f hf => ?_
  rw [(hR.class_coherent hd).expanded f hf, FieldDeclaration.expandedIn, FieldDescriptor.predicate?]
  cases f.mapping <;> simp

/-- Then no instance sets a type. -/
theorem omitsTypes_of_leavesTypes (hR : R.Coherent) (hT : R.LeavesTypes) (e : Instance) :
    R.OmitsTypes e := by
  intro d hclass f hf htype
  exact absurd htype ((leavesTypes_iff hR).mp hT d (mem_classList.mpr ⟨_, hclass⟩) f hf)

/-- In a registry that passes its checks, an instance without repeated subjects is decoded
from its encoding exactly if nothing in it sets a field that is mapped to the type
predicate. So the registry can decode all that it encodes exactly if no field is mapped to
that predicate, which none of the checks asks for. -/
theorem passing_registry_decodes_iff (hR : R.Reachable) (hpass : R.Passes) :
    (∀ cfg e doc, R.Recorded cfg e doc →
      (R.decode cfg doc = .ok [R.prune e] ↔ ∀ p ∈ R.occurrences [e], R.OmitsTypes p.2)) ∧
    ((∀ cfg e doc, R.Recorded cfg e doc → R.decode cfg doc = .ok [R.prune e]) ↔
      R.LeavesTypes) := by
  have hcoherent : R.Coherent := hR.coherent
  refine ⟨fun cfg e doc h => ⟨omitsTypes_of_decode hcoherent, h.decode_eq hcoherent⟩, ?_⟩
  rw [leavesTypes_iff hcoherent]
  constructor
  · -- a field with the type predicate could be set, in an instance that is not read back
    intro hall d hd f hf htype
    obtain ⟨c, hc⟩ := mem_classList.mp hd
    have hclass : R.classes.get? d.name = some d := by rwa [hcoherent.named hc]
    have hmapped : f ∈ d.predicateFields := by
      refine mem_predicateFields.mpr ⟨hf, ?_⟩
      rw [← Bool.not_eq_true, ← (hcoherent.fields hclass).expanded_eq_none_iff hf, htype]
      exact Option.some_ne_none _
    obtain ⟨cfg, e, doc, hrec, hclass', hset⟩ :=
      exists_recorded hcoherent hclass (hpass.hasIdentities hR d hd) hmapped
    have homits := omitsTypes_of_decode hcoherent (hall cfg e doc hrec)
    exact hset (homits (0, e) (Recorded.mem_occurrences_self R e) d hclass' f hf htype)
  · intro hT cfg e doc h
    exact h.decode_eq hcoherent fun p _ =>
      omitsTypes_of_leavesTypes hcoherent ((leavesTypes_iff hcoherent).mpr hT) p.2

theorem built_topic (id label : String) {above : List Instance} (h : ∀ c ∈ above, c.Built) :
    (topic id label above).Built :=
  .set _ (.set _ (.set _ (.new _) (by simp [Value.nested])) (by simp [Value.nested])) h

/-- A topic and the one above it come back side by side. -/
theorem recorded_oaks :
    ∃ doc, topics.Recorded .default (topic "urn:oaks" "Oaks" [topic "urn:trees" "Trees" []]) doc ∧
      topics.decode .default doc =
        .ok [topic "urn:oaks" "Oaks" [], topic "urn:trees" "Trees" []] := by
  have hrun : (topics.encode .default (topic "urn:oaks" "Oaks" [topic "urn:trees" "Trees" []]) >>=
      topics.decode .default) =
      .ok [topic "urn:oaks" "Oaks" [], topic "urn:trees" "Trees" []] := by decide +kernel
  obtain ⟨doc, hdoc, hdecode⟩ := bind_eq_ok.mp hrun
  refine ⟨doc, ⟨?_, by decide +kernel, ⟨_, hdoc⟩, by decide +kernel, by decide +kernel⟩, hdecode⟩
  refine built_topic _ _ fun c hc => ?_
  rw [List.mem_singleton.mp hc]
  exact built_topic _ _ (by simp)

/-- The topics pass the checks. One without others above it is read back, one with another
is not. -/
theorem passing_registry_decodes_topics :
    topics.Reachable ∧ topics.Passes ∧
      (∃ doc, topics.Recorded .default (topic "urn:trees" "Trees" []) doc ∧
        topics.decode .default doc = .ok [topics.prune (topic "urn:trees" "Trees" [])]) ∧
      (∃ doc, topics.Recorded .default
          (topic "urn:oaks" "Oaks" [topic "urn:trees" "Trees" []]) doc ∧
        topics.decode .default doc ≠
          .ok [topics.prune (topic "urn:oaks" "Oaks" [topic "urn:trees" "Trees" []])]) ∧
      ¬ topics.LeavesTypes := by
  have hR : topics.Reachable := ⟨.streamPipes, _, rfl⟩
  have hpass : topics.Passes := by decide +kernel
  have hlost : ¬ ∀ p ∈ topics.occurrences [topic "urn:oaks" "Oaks" [topic "urn:trees" "Trees" []]],
      topics.OmitsTypes p.2 := by decide +kernel
  obtain ⟨oaks, hoaks, -⟩ := recorded_oaks
  have hne := mt ((passing_registry_decodes_iff hR hpass).1 _ _ oaks hoaks).mp hlost
  refine ⟨hR, hpass, ?_, ⟨oaks, hoaks, hne⟩, fun hT => ?_⟩
  · obtain ⟨trees, htrees⟩ := exists_of_isOk
      (show (topics.encode .default (topic "urn:trees" "Trees" [])).isOk = true by decide +kernel)
    have hrecorded : topics.Recorded .default (topic "urn:trees" "Trees" []) trees :=
      ⟨built_topic _ _ (by simp), by decide +kernel, ⟨_, htrees⟩, by decide +kernel,
        by decide +kernel⟩
    exact ⟨trees, hrecorded,
      ((passing_registry_decodes_iff hR hpass).1 _ _ trees hrecorded).mpr (by decide +kernel)⟩
  · exact hne ((passing_registry_decodes_iff hR hpass).2.mpr hT _ _ oaks hoaks)

/-- The checks do not keep their promise: a registry passes that loses a field. -/
theorem unread_field :
    ¬ ∀ R : Registry, R.Reachable → R.Passes → ∀ cfg e doc, R.Recorded cfg e doc →
      R.decode cfg doc = .ok [R.prune e] := by
  intro h
  obtain ⟨doc, hrecorded, hdecode⟩ := recorded_oaks
  have hback := h topics ⟨.streamPipes, _, rfl⟩ (by decide +kernel) _ _ doc hrecorded
  rw [hdecode] at hback
  exact absurd (Except.ok.inj hback) (by decide +kernel)

end Registry

end EntityRdf

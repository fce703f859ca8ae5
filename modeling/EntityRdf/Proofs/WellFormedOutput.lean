import EntityRdf.Proofs.EncoderRun
import EntityRdf.Proofs.ReportedErrors

/-!
# The form of an encoded document

The encoder writes the block of an instance before the blocks that it refers to, and
does not look below a block that is there already. When it is done, every reference has
its block all the same: each block was written for some instance, and what is nested in
that one was written as well.

`ClassDescriptor.LaysOut` says what a block of a class looks like,
`Registry.WellFormed` what a document of such blocks is. The decoder finds no fault with
a block of this form, whatever fields of the class are mapped to
(`WellFormed.no_blockFault`), so that only a cycle or a limit is left to stop it.

Main result: `encodeAll_wellFormed`.
-/

namespace EntityRdf

/-- The block is one of the class: its tag as registered, then the objects that `os`
gives for each mapped field, in registration order and under the predicate as
registered. -/
structure ClassDescriptor.LaysOut (d : ClassDescriptor) (subjects : List String)
    (os : FieldDescriptor → List Object) (b : Block) : Prop where
  pairs : b.pairs = (Vocabulary.rdfType, .iri d.tag) ::
    d.predicateFields.flatMap fun f => (os f).map (f.predicateText, ·)
  literals : ∀ f ∈ d.predicateFields, f.range? = some .literal →
    ∀ o ∈ os f, ∃ text, o = .literal text
  /-- A reference is to one of the subjects. -/
  references : ∀ f ∈ d.predicateFields, f.range? = some .entity →
    ∀ o ∈ os f, ∃ t ∈ subjects, o = .iri t
  single : ∀ f ∈ d.predicateFields, f.multiplicity = .single → (os f).length ≤ 1

/-- One block for each subject, every one of them laid out for a registered class and
referring to subjects of the document only. -/
structure Registry.WellFormed (R : Registry) (doc : Document) : Prop where
  nonempty : ∀ s ∈ doc.subjects, s ≠ ""
  nodup : doc.subjects.Nodup
  blocks : ∀ b ∈ doc.blocks, ∃ d ∈ R.classList, ∃ os, d.LaysOut doc.subjects os b

/-! ## What the encoder writes -/

namespace Registry

variable {R : Registry} {cfg : Config} {l : List Instance} {doc : Document} {d : ClassDescriptor}
  {e : Instance} {b : Block} {err : MappingError}

/-- The block of an instance is laid out with the objects of what it holds. -/
theorem laysOut_layout {subjects : List String} (hclass : R.classes.get? e.className = some d)
    (hfits : ∀ p ∈ d.held e, R.Fits p.1 p.2)
    (hkids : ∀ c ∈ R.nested e, R.subject c ∈ subjects) (s : String) :
    d.LaysOut subjects (fun f => ((e.get? f.name).map R.objectsOf).getD []) (R.layout d s e) := by
  -- what is laid out for a field comes from the value that the instance holds for it
  have hheld : ∀ f ∈ d.predicateFields, ∀ o ∈ ((e.get? f.name).map R.objectsOf).getD [],
      ∃ v, (f, v) ∈ d.held e ∧ o ∈ R.objectsOf v := by
    intro f hf o ho
    cases hv : e.get? f.name with
    | none => simp [hv] at ho
    | some v =>
      rw [hv] at ho
      exact ⟨v, ClassDescriptor.mem_held.mpr ⟨hf, hv⟩, ho⟩
  refine ⟨?_, fun f hf hr o ho => ?_, fun f hf hr o ho => ?_, fun f hf hm => ?_⟩
  · rw [layout, ClassDescriptor.flatMap_held]
    refine congrArg (_ :: ·) (List.flatMap_congr fun f _ => ?_)
    cases e.get? f.name <;> rfl
  · obtain ⟨v, hp, ho⟩ := hheld f hf o ho
    rw [objectsOf_literal hr (hfits _ hp)] at ho
    obtain ⟨text, -, rfl⟩ := List.mem_map.mp ho
    exact ⟨text, rfl⟩
  · -- a reference is to the subject of a nested instance
    obtain ⟨v, hp, ho⟩ := hheld f hf o ho
    rw [objectsOf_entity hr (hfits _ hp)] at ho
    obtain ⟨c, hc, rfl⟩ := List.mem_map.mp ho
    exact ⟨R.subject c, hkids c ((mem_nested hclass).mpr ⟨f, v, hp, hr, hc⟩), rfl⟩
  · cases hv : e.get? f.name with
    | none => exact Nat.zero_le _
    | some v =>
      -- a value that fits a field for one value is no sequence
      have hfit : R.Fits f v := hfits _ (ClassDescriptor.mem_held.mpr ⟨hf, hv⟩)
      cases v with
      | str t => exact Nat.le_refl 1
      | entity c => exact Nat.le_refl 1
      | strs l => simp [Fits, hm] at hfit
      | entities l => simp [Fits, hm] at hfit

/-- An encoded document is well formed. -/
theorem wellFormed_of_encodeAll (h : R.encodeAll cfg l = .ok doc) : R.WellFormed doc := by
  -- each block was written for some instance, and so were those of what is nested in it
  have hsource : ∀ b ∈ doc.blocks, b.subject ≠ "" ∧
      ∃ d ∈ R.classList, ∃ os, d.LaysOut doc.subjects os b := by
    intro b hb
    obtain ⟨e, -, hblock, hkids⟩ := encodeAll_source h hb
    obtain ⟨d, s, hclass, hs, hfits, rfl⟩ := blockOf_eq_ok.mp hblock
    refine ⟨?_, d, mem_classList.mpr ⟨_, hclass⟩, _, laysOut_layout hclass hfits ?_ s⟩
    · obtain ⟨-, -, -, hempty⟩ := ClassDescriptor.subjectOf_eq_ok.mp hs
      show s ≠ ""
      rintro rfl
      cases hempty
    · intro c hc
      obtain ⟨x, hx, hdoc⟩ := hkids c hc
      rw [subject_eq (subjectOf_of_blockOf hx)]
      exact List.mem_map.mpr ⟨x, (Document.mem_of_block? hdoc).1, rfl⟩
  refine ⟨fun s hs => ?_, encodeAll_nodup_subjects h, fun b hb => (hsource b hb).2⟩
  obtain ⟨b, hb, rfl⟩ := List.mem_map.mp hs
  exact (hsource b hb).1

end Registry

/-! ## What the decoder makes of it -/

namespace ClassDescriptor.LaysOut

variable {R : Registry} {d : ClassDescriptor} {subjects : List String}
  {os : FieldDescriptor → List Object} {b : Block} {f : FieldDescriptor}

/-- The first type of the block is the tag of its class. -/
theorem blockClass?_eq (h : d.LaysOut subjects os b) (hR : R.Coherent) (hd : d ∈ R.classList) :
    R.blockClass? b = some d := by
  obtain ⟨c, hc⟩ := Registry.mem_classList.mp hd
  have htag : R.classForTag? (Object.iri d.tag).text = some d := hR.classForTag?_tag hc
  rw [Registry.blockClass?, Block.types, h.pairs,
    List.filter_cons_of_pos (by simp [Context.expand_rdfType]), List.map_cons]
  simp only [List.findSome?_cons, htag]

/-- Every pair but the type tag has a field. -/
theorem isSome_fieldForPredicate? (h : d.LaysOut subjects os b) (hd : d.Coherent R.context)
    {p : String × Object} (hp : p ∈ b.pairs) (hne : R.context.expand p.1 ≠ Vocabulary.rdfType) :
    (d.fieldForPredicate? (R.context.expand p.1)).isSome := by
  rw [h.pairs] at hp
  rcases List.mem_cons.mp hp with rfl | hp
  · exact absurd R.context.expand_rdfType hne
  · obtain ⟨f, hf, hp⟩ := List.mem_flatMap.mp hp
    obtain ⟨o, -, rfl⟩ := List.mem_map.mp hp
    rw [fieldForPredicate?_predicateText hd hf]
    rfl

/-- The objects of a field that is not mapped to the type predicate are those that were
laid out for it. -/
theorem objectsFor_eq (h : d.LaysOut subjects os b) (hd : d.Coherent R.context)
    (hf : f ∈ d.predicateFields) (htype : f.expanded ≠ some Vocabulary.rdfType) :
    d.objectsFor R.context b f = os f := by
  -- read back, each pair belongs to the field that it was laid out for
  have hrest : (d.predicateFields.flatMap fun g => (os g).map (g.predicateText, ·)).filterMap
      (fun q => (d.fieldForPredicate? (R.context.expand q.1)).map (·, q.2)) =
      (d.predicateFields.map fun g => (g, g)).flatMap fun p => (os p.2).map (p.1, ·) := by
    rw [List.filterMap_flatMap, List.flatMap_map]
    refine List.flatMap_congr fun g hg => ?_
    rw [List.filterMap_map, ← List.filterMap_eq_map]
    refine List.filterMap_congr fun o _ => ?_
    simp [fieldForPredicate?_predicateText hd hg]
  have hkeys : ((d.predicateFields.map fun g => (g, g)).map (·.1)).Nodup := by
    rw [List.map_map]
    exact (List.map_id d.predicateFields).symm ▸ nodup_predicateFields hd
  have hvalues := valuesOf_flatMap hkeys (List.mem_map.mpr ⟨f, hf, rfl⟩) os
  rw [objectsFor, readPairs, h.pairs, List.filterMap_cons, hrest, R.context.expand_rdfType]
  -- the tag belongs to a field that is mapped to the type predicate, if there is one
  cases hg : d.fieldForPredicate? Vocabulary.rdfType with
  | none => exact hvalues
  | some g =>
    have hne : g ≠ f := by
      rintro rfl
      exact htype (Coherent.mem_of_fieldForPredicate? hg).2
    exact (valuesOf_cons_of_ne (p := (g, Object.iri d.tag)) hne _).trans hvalues

end ClassDescriptor.LaysOut

namespace Registry

variable {R : Registry} {cfg : Config} {l : List Instance} {doc : Document} {strict : Bool}
  {b : Block} {err : MappingError}

/-- A group of objects that the decoder reads is what was laid out for a mapped field. -/
theorem group_of_laysOut {d : ClassDescriptor} {subjects : List String}
    {os : FieldDescriptor → List Object} {pairs : List (FieldDescriptor × Object)}
    {g : FieldDescriptor × List Object} (h : d.LaysOut subjects os b) (hd : d.Coherent R.context)
    (hpairs : R.fieldObjects strict d b.subject b.pairs = .ok pairs) (hg : g ∈ groupByKey pairs) :
    g.1 ∈ d.predicateFields ∧ g.2.Sublist (os g.1) := by
  obtain ⟨f, group⟩ := g
  have hf : f ∈ d.predicateFields := mem_predicateFields_of_group hd hpairs hg
  refine ⟨hf, ?_⟩
  -- types are not read, so the field is not mapped to their predicate
  have htype : f.expanded ≠ some Vocabulary.rdfType := by
    obtain ⟨rfl, hne⟩ := mem_groupByKey.mp hg
    obtain ⟨o, ho⟩ := List.exists_mem_of_ne_nil _ hne
    have hmem := mem_valuesOf.mp ho
    rw [eq_of_fieldObjects hpairs] at hmem
    obtain ⟨p, -, hp⟩ := List.mem_filterMap.mp hmem
    split at hp
    · cases hp
    · rename_i hiri
      obtain ⟨f', hf', heq⟩ := Option.map_eq_some_iff.mp hp
      cases heq
      rw [(ClassDescriptor.Coherent.mem_of_fieldForPredicate? hf').2]
      exact fun heq => hiri (Option.some.inj heq)
  rw [← h.objectsFor_eq hd hf htype]
  exact sublist_objectsFor hpairs hg

/-- The decoder finds no fault with a block of a well-formed document, strictly or
not. -/
theorem WellFormed.no_blockFault (h : R.WellFormed doc) (hR : R.Coherent) (hb : b ∈ doc.blocks) :
    ¬ R.BlockFault strict doc b err := by
  obtain ⟨d, hmem, os, hlaid⟩ := h.blocks b hb
  have hclass : R.blockClass? b = some d := hlaid.blockClass?_eq hR hmem
  have hd : d.Coherent R.context := hR.fields (hR.get?_of_blockClass? hclass)
  intro hfault
  cases hfault with
  | types hfail =>
    rw [classOf_eq_ok.mpr hclass] at hfail
    cases hfail
  | pairs hd' hfail =>
    -- a pair that is not a type belongs to a field
    obtain rfl := Option.some.inj (hclass.symm.trans hd')
    obtain ⟨-, p, hp, hne, hnone, -⟩ := error_of_fieldObjects hfail
    have hsome := hlaid.isSome_fieldForPredicate? hd hp hne
    rw [hnone] at hsome
    cases hsome
  | group hd' hpairs hg hfail =>
    -- what a group has was laid out for its field
    obtain rfl := Option.some.inj (hclass.symm.trans hd')
    obtain ⟨hf, hsub⟩ := group_of_laysOut hlaid hd hpairs hg
    cases hfail with
    | count hm hlen =>
      have hone := hlaid.single _ hf hm
      have hle := hsub.length_le
      omega
    | reference hr hfail =>
      cases hfail with
      | literal ho =>
        obtain ⟨t, -, heq⟩ := hlaid.references _ hf hr _ (hsub.subset ho)
        cases heq
      | unresolved _ ho ht =>
        obtain ⟨t, hmem, heq⟩ := hlaid.references _ hf hr _ (hsub.subset ho)
        cases heq
        exact ht hmem

/-- Decoding a well-formed document fails only where a run goes too far. -/
theorem WellFormed.runFault (h : R.WellFormed doc) (hR : R.Coherent)
    (herr : R.decode cfg doc = .error err) : ∃ path s, RunFault cfg path s err := by
  rcases fault_of_decode herr with hcheck | ⟨b, hb, hfault⟩ | ⟨path, s, -, hrun⟩
  · have hok : doc.checkSubjects = .ok () := Document.checkSubjects_eq_ok.mpr h.nodup
    rw [hok] at hcheck
    cases hcheck
  · exact absurd hfault (h.no_blockFault hR hb)
  · exact ⟨path, s, hrun⟩

/-- What the encoder returns is well formed: distinct subjects, each with a block that is
laid out for a registered class and refers to other blocks only. So decoding it, strictly
or not and under whatever limits, succeeds or stops at a cycle, at the depth limit or at
the limit on entities. -/
theorem encodeAll_wellFormed (hR : R.Reachable) (h : R.encodeAll cfg l = .ok doc) :
    R.WellFormed doc ∧ ∀ cfg', (∃ es, R.decode cfg' doc = .ok es) ∨
      ∃ s, (∃ path, R.decode cfg' doc = .error (.cycle s path)) ∨
        R.decode cfg' doc = .error (.tooDeep s cfg'.maxDepth) ∨
        R.decode cfg' doc = .error (.tooManyEntities s cfg'.maxNodes) := by
  have hwf : R.WellFormed doc := wellFormed_of_encodeAll h
  refine ⟨hwf, fun cfg' => ?_⟩
  cases hres : R.decode cfg' doc with
  | ok es => exact Or.inl ⟨es, rfl⟩
  | error err =>
    obtain ⟨path, s, hrun⟩ := hwf.runFault hR.coherent hres
    refine Or.inr ⟨s, ?_⟩
    cases hrun with
    | depth => exact Or.inr (Or.inl rfl)
    | nodes => exact Or.inr (Or.inr rfl)
    | cycle => exact Or.inl ⟨path, rfl⟩

/-- Topics that are filed under other topics. The field is mapped to the type predicate, so
that the topics above are types of the block. -/
def topics : Registry := (empty .streamPipes).run
  (ClassDeclaration.mk "Topic" "urn:Topic"
    [.identity "id", .entities "above" "rdf:type", .literal "label" "rdfs:label"]).registrations

def topic (id label : String) (above : List Instance) : Instance :=
  (((Instance.new "Topic").set "id" (.str id)).set "label" (.str label)).set "above"
    (.entities above)

/-- A topic below another one that is listed again by itself. -/
theorem encodeAll_wellFormed_topics :
    ∃ doc, topics.encodeAll .default
        [topic "urn:oaks" "Oaks" [topic "urn:trees" "Trees" []], topic "urn:trees" "Trees" []] =
      .ok doc ∧
      topics.WellFormed doc ∧ ∀ cfg', (∃ es, topics.decode cfg' doc = .ok es) ∨
        ∃ s, (∃ path, topics.decode cfg' doc = .error (.cycle s path)) ∨
          topics.decode cfg' doc = .error (.tooDeep s cfg'.maxDepth) ∨
          topics.decode cfg' doc = .error (.tooManyEntities s cfg'.maxNodes) := by
  obtain ⟨doc, hdoc⟩ : ∃ doc, topics.encodeAll .default
      [topic "urn:oaks" "Oaks" [topic "urn:trees" "Trees" []], topic "urn:trees" "Trees" []] =
      .ok doc := exists_of_isOk (by decide +kernel)
  exact ⟨doc, hdoc, encodeAll_wellFormed ⟨.streamPipes, _, rfl⟩ hdoc⟩

end Registry

end EntityRdf

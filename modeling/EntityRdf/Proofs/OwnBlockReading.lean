import EntityRdf.Proofs.Decodes
import EntityRdf.Proofs.Pruning

/-!
# Reading back the block of one instance

The decoder finds in the layout of an instance what the encoder put there: the
class by its tag (`blockClass?_layout`), the objects of each field
(`objectsFor_layout`), the subjects of the nested instances as targets
(`mem_targets_layout`), and nothing to complain about (`readable_layout`). The
instance that the layout becomes is the pruned instance (`assembled_layout`).
-/

namespace EntityRdf

namespace Registry

open ClassDescriptor FieldDescriptor

variable {R : Registry} {d : ClassDescriptor} {s : String} {e : Instance} {f : FieldDescriptor}
  {v : Value} {doc : Document} {kids : String → Instance}

/-! ## The pairs of the layout -/

theorem blockClass?_layout (hR : R.Coherent) (hclass : R.classes.get? e.className = some d) :
    R.blockClass? (R.layout d s e) = some d := by
  have htag : R.classForTag? (Object.iri d.tag).text = some d := hR.classForTag?_tag hclass
  rw [blockClass?, Block.types, layout,
    List.filter_cons_of_pos (by simp [Context.expand_rdfType]), List.map_cons]
  simp only [List.findSome?_cons, htag]

/-- The pairs of the layout belong to the fields they were made for. -/
theorem readPairs_layout (hR : R.Coherent) (hT : R.LeavesTypes)
    (hclass : R.classes.get? e.className = some d) :
    d.readPairs R.context (R.layout d s e) =
      (d.held e).flatMap fun p => (R.objectsOf p.2).map (p.1, ·) := by
  have hd : d.Coherent R.context := hR.fields hclass
  have hfield : ∀ p ∈ d.held e,
      ((R.objectsOf p.2).map (p.1.predicateText, ·)).filterMap (fun q =>
        (d.fieldForPredicate? (R.context.expand q.1)).map (·, q.2)) =
      (R.objectsOf p.2).map (p.1, ·) := by
    rintro ⟨f, v⟩ hp
    have hf : f ∈ d.predicateFields := (mem_held.mp hp).1
    rw [List.filterMap_map, ← List.filterMap_eq_map]
    refine List.filterMap_congr fun o _ => ?_
    simp [fieldForPredicate?_predicateText hd hf]
  -- the type comes first, and it is no field
  have htype : d.fieldForPredicate? (R.context.expand Vocabulary.rdfType) = none := by
    rw [Context.expand_rdfType]
    exact hT.fieldForPredicate?_eq_none hR hclass
  rw [readPairs, layout, List.filterMap_cons_none (by simp [htype]), List.filterMap_flatMap]
  exact List.flatMap_congr hfield

/-- No field holds two values. -/
theorem held_keys_nodup (hR : R.Coherent) (hclass : R.classes.get? e.className = some d) :
    ((d.held e).map (·.1)).Nodup := by
  -- each field of the class is held once or not at all
  have hkeys : ((d.held e).map (·.1)).Sublist d.predicateFields := by
    rw [held]
    induction d.predicateFields with
    | nil => exact .slnil
    | cons f rest ih =>
      rw [List.filterMap_cons]
      cases e.get? f.name with
      | none => exact ih.cons _
      | some v => exact ih.cons_cons _
  exact (nodup_predicateFields (hR.fields hclass)).sublist hkeys

/-- The objects of a field in the layout are those of its value. -/
theorem objectsFor_layout (hR : R.Coherent) (hT : R.LeavesTypes)
    (hclass : R.classes.get? e.className = some d) (hf : f ∈ d.predicateFields) :
    d.objectsFor R.context (R.layout d s e) f = ((e.get? f.name).map R.objectsOf).getD [] := by
  rw [objectsFor, readPairs_layout hR hT hclass]
  cases hv : e.get? f.name with
  | some v =>
    exact valuesOf_flatMap (held_keys_nodup hR hclass) (mem_held.mpr ⟨hf, hv⟩) R.objectsOf
  | none =>
    refine valuesOf_flatMap_of_not_mem (fun hmem => ?_) R.objectsOf
    obtain ⟨⟨g, v⟩, hp, rfl⟩ := List.mem_map.mp hmem
    rw [(mem_held.mp hp).2] at hv
    cases hv

/-- Where the layout has objects for a field, the instance holds a value that
gives them. -/
theorem exists_value_of_mem_objectsFor (hR : R.Coherent) (hT : R.LeavesTypes)
    (hclass : R.classes.get? e.className = some d) {o : Object}
    (ho : o ∈ d.objectsFor R.context (R.layout d s e) f) :
    ∃ v, (f, v) ∈ d.held e ∧ o ∈ R.objectsOf v ∧
      d.objectsFor R.context (R.layout d s e) f = R.objectsOf v := by
  have hmem := mem_objectsFor.mp ho
  rw [readPairs_layout hR hT hclass] at hmem
  obtain ⟨⟨g, v⟩, hp, hq⟩ := List.mem_flatMap.mp hmem
  obtain ⟨o', ho', heq⟩ := List.mem_map.mp hq
  obtain ⟨rfl, rfl⟩ := Prod.mk.inj heq
  obtain ⟨hf, hv⟩ := mem_held.mp hp
  refine ⟨v, hp, ho', ?_⟩
  rw [objectsFor_layout hR hT hclass hf, hv]
  rfl

/-- The targets of the layout are the subjects of the nested instances. -/
theorem mem_targets_layout (hR : R.Coherent) (hT : R.LeavesTypes)
    (hclass : R.classes.get? e.className = some d) (hfits : ∀ p ∈ d.held e, R.Fits p.1 p.2)
    {t : String} :
    t ∈ d.targets R.context (R.layout d s e) ↔ ∃ c ∈ R.nested e, R.subjectOf c = .ok t := by
  rw [mem_targets]
  constructor
  · rintro ⟨f, hr, hos⟩
    obtain ⟨v, hp, ho, -⟩ := exists_value_of_mem_objectsFor hR hT hclass hos
    -- an object of an entity field is the reference to a nested instance
    rcases (hfits _ hp).range with ⟨hlit, -⟩ | ⟨-, hobj, hsub⟩
    · rw [hr] at hlit
      cases hlit
    · rw [hobj] at ho
      obtain ⟨c, hc, hct⟩ := List.mem_map.mp ho
      have hnested : c ∈ R.nested e := (mem_nested hclass).mpr ⟨f, v, hp, hr, hc⟩
      exact ⟨c, hnested, Object.iri.inj hct ▸ hsub c hc⟩
  · rintro ⟨c, hc, hct⟩
    obtain ⟨f, v, hp, hr, hc⟩ := (mem_nested hclass).mp hc
    obtain ⟨hf, hv⟩ := mem_held.mp hp
    refine ⟨f, hr, ?_⟩
    rw [objectsFor_layout hR hT hclass hf, hv]
    show .iri t ∈ R.objectsOf v
    rw [objectsOf_entity hr (hfits _ hp)]
    exact List.mem_map.mpr ⟨c, hc, by rw [subject_eq hct]⟩

/-- The decoder has no objection to the layout, if the document has the subjects
of the nested instances. -/
theorem readable_layout (hR : R.Coherent) (hT : R.LeavesTypes)
    (hclass : R.classes.get? e.className = some d) (hfits : ∀ p ∈ d.held e, R.Fits p.1 p.2)
    (hkids : ∀ c ∈ R.nested e, R.subject c ∈ doc.subjects) (strict : Bool) :
    R.Readable strict doc d (R.layout d s e) := by
  refine ⟨fun _ p hp hne => ?_, fun f hm => ?_, fun f hr o ho => ?_⟩
  · -- the type is let through, and every other pair is under the predicate of its field
    rcases List.mem_cons.mp hp with rfl | hp
    · exact absurd R.context.expand_rdfType hne
    · obtain ⟨⟨f, v⟩, hheld, hp⟩ := List.mem_flatMap.mp hp
      obtain ⟨o, -, rfl⟩ := List.mem_map.mp hp
      rw [fieldForPredicate?_predicateText (hR.fields hclass) (mem_held.mp hheld).1]
      rfl
  · by_cases hnil : d.objectsFor R.context (R.layout d s e) f = []
    · rw [hnil]
      exact Nat.zero_le _
    · -- a value of a field for one value has one object
      obtain ⟨o, ho⟩ := List.exists_mem_of_ne_nil _ hnil
      obtain ⟨v, hp, -, hos⟩ := exists_value_of_mem_objectsFor hR hT hclass ho
      have hfit : R.Fits f v := hfits _ hp
      rw [hos]
      cases v with
      | str t => exact Nat.le_refl 1
      | entity c => exact Nat.le_refl 1
      | strs l => simp [Fits, hm] at hfit
      | entities l => simp [Fits, hm] at hfit
  · obtain ⟨v, hp, ho, -⟩ := exists_value_of_mem_objectsFor hR hT hclass ho
    rw [objectsOf_entity hr (hfits _ hp)] at ho
    obtain ⟨c, hc, rfl⟩ := List.mem_map.mp ho
    exact ⟨R.subject c, rfl, fun _ => hkids c ((mem_nested hclass).mpr ⟨f, v, hp, hr, hc⟩)⟩

/-! ## The instance of the layout -/

/-- A value that fits is assembled from its objects, with what is nested in it
replaced by the instances of the subjects. -/
theorem assembled_objectsOf (hfit : R.Fits f v)
    (hkids : f.range? = some .entity → ∀ c ∈ v.nested,
      R.subject c ∈ doc.subjects ∧ kids (R.subject c) = R.prune c) :
    f.assembled doc kids (R.objectsOf v) = some (R.pruneHeld f v) := by
  rw [assembled, pruneHeld]
  by_cases hr : f.range? = some .entity
  · -- every reference resolves, to the instance it was made from
    have hresolved : (doc.resolved (R.objectsOf v)).map kids = v.nested.map R.prune := by
      rw [objectsOf_entity hr hfit]
      have hall := hkids hr
      generalize v.nested = l at hall ⊢
      induction l with
      | nil => rfl
      | cons c rest ih =>
        obtain ⟨⟨hsub, hkid⟩, hrest⟩ := List.forall_mem_cons.mp hall
        rw [List.map_cons, Document.resolved_cons_iri,
          if_pos (Document.hasSubject_iff_mem.mpr hsub), List.map_cons, hkid, ih hrest,
          List.map_cons]
    rw [if_pos hr, if_pos hr, hresolved, entityValue?]
    cases v with
    | str t => simp [Fits, hr] at hfit
    | strs l => simp [Fits, hr] at hfit
    | entity c =>
      rw [hfit.2.1]
      rfl
    | entities l =>
      rw [hfit.2.1, pruneValue, pruneAll_eq_map]
      rfl
  · rw [if_neg hr, if_neg hr, literalValue]
    -- the encoder wrote the strings as they are, one by one
    cases v with
    | str t =>
      rw [hfit.2]
      rfl
    | strs l =>
      rw [hfit.2, objectsOf, List.map_map]
      exact congrArg (fun l => some (Value.strs l)) (List.map_id l)
    | entity c => exact absurd hfit.1 hr
    | entities l => exact absurd hfit.1 hr

/-- The objects of a value are missing only for an empty sequence. -/
theorem isEmptySequence_of_objectsOf_eq_nil (h : R.objectsOf v = []) :
    v.isEmptySequence = true := by
  cases v <;> simp_all [objectsOf, Value.isEmptySequence]

/-- The decoder makes of the objects of a mapped field what the pruned instance
holds. -/
theorem valueFor_layout (hR : R.Coherent) (hT : R.LeavesTypes) (he : e.Canonical)
    (hclass : R.classes.get? e.className = some d) (hfits : ∀ p ∈ d.held e, R.Fits p.1 p.2)
    (hkids : ∀ c ∈ R.nested e, R.subject c ∈ doc.subjects ∧ kids (R.subject c) = R.prune c)
    (hf : f ∈ d.predicateFields) :
    f.valueFor doc kids (d.objectsFor R.context (R.layout d s e) f) =
      (R.prune e).get? f.name := by
  rw [get?_prune_field hclass (hR.fields hclass) (mem_predicateFields.mp hf).1, valueFor,
    objectsFor_layout hR hT hclass hf]
  cases hv : e.get? f.name with
  | none => rfl
  | some v =>
    have hheld : (f, v) ∈ d.held e := mem_held.mpr ⟨hf, hv⟩
    -- a canonical instance holds no empty sequence, so there are objects
    have hne : R.objectsOf v ≠ [] := fun hnil => by
      have hempty : v.isEmptySequence = true := isEmptySequence_of_objectsOf_eq_nil hnil
      rw [he.filled hv] at hempty
      cases hempty
    have hnested : f.range? = some .entity → ∀ c ∈ v.nested,
        R.subject c ∈ doc.subjects ∧ kids (R.subject c) = R.prune c :=
      fun hr c hc => hkids c ((mem_nested hclass).mpr ⟨f, v, hheld, hr, hc⟩)
    show (if R.objectsOf v = [] then none else (f.assembled doc kids (R.objectsOf v)).filter _) =
      some (R.pruneHeld f v)
    rw [if_neg hne, assembled_objectsOf (hfits _ hheld) hnested]
    simp [Option.filter, he.filled hv]

/-- The layout of an instance becomes the pruned instance. -/
theorem assembled_layout (hR : R.Coherent) (hT : R.LeavesTypes) (he : e.Canonical)
    (hclass : R.classes.get? e.className = some d) (hs : d.subjectOf e = .ok s)
    (hfits : ∀ p ∈ d.held e, R.Fits p.1 p.2)
    (hkids : ∀ c ∈ R.nested e, R.subject c ∈ doc.subjects ∧ kids (R.subject c) = R.prune c) :
    R.Assembled doc d (R.layout d s e) kids (R.prune e) := by
  refine ⟨prune_canonical he, ?_, ?_, ?_, ?_⟩
  · rw [className_prune, hR.named hclass]
  · -- pruning leaves the subject alone
    have hpruned : R.subjectOf (R.prune e) = .ok s := by
      rw [subjectOf_prune hR]
      exact subjectOf_eq_ok.mpr ⟨d, hclass, hs⟩
    obtain ⟨d', hclass', hs'⟩ := subjectOf_eq_ok.mp hpruned
    rw [className_prune, hclass] at hclass'
    obtain rfl := Option.some.inj hclass'
    exact fun f hf hid => get?_identity (hR.fields hclass) hs' hf hid
  · intro f hf hid
    have hmapped : f ∈ d.predicateFields := mem_predicateFields.mpr ⟨hf, hid⟩
    exact (valueFor_layout hR hT he hclass hfits hkids hmapped).symm
  · intro n hn
    -- pruning drops what the class does not declare
    have hnone : d.field? n = none := List.find?_eq_none.mpr (by simpa using hn)
    rw [get?_prune, hclass, Option.bind_some, hnone]
    rfl

end Registry

end EntityRdf

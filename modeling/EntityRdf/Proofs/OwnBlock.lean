import EntityRdf.Proofs.Fallible
import EntityRdf.Proofs.Occurrences
import EntityRdf.Proofs.Registration

/-!
# The block of one instance

The encoder checks the shape of an instance while it lays out its block. Here
the two are taken apart. `Registry.Fits` says when a value has the shape its
field asks for, `Registry.layout` is the block that a well-shaped instance gets,
as a total function, and `ownBlock_eq_ok` says that the encoder's block exists
exactly when everything fits and is then that layout.

`Registry.blockOf` is the block of an instance whatever its depth. Its entity
references are the subjects of the instances nested directly in the instance
(`blockOf_nested`, `nested_of_blockOf`).
-/

namespace EntityRdf

/-- The strings in a value, in order. -/
def Value.texts : Value → List String
  | .str s => [s]
  | .strs l => l
  | .entity _ | .entities _ => []

/-- The range of the fields that a value is for. -/
def Value.range : Value → Range
  | .str _ | .strs _ => .literal
  | .entity _ | .entities _ => .entity

/-- The multiplicity of the fields that a value is for. -/
def Value.multiplicity : Value → Multiplicity
  | .str _ | .entity _ => .single
  | .strs _ | .entities _ => .multi

/-- What nests an instance is a value for entity fields. -/
theorem Value.range_of_mem_nested {v : Value} {c : Instance} (hc : c ∈ v.nested) :
    v.range = .entity := by
  cases v with
  | str s => cases hc
  | strs l => cases hc
  | entity c' => rfl
  | entities l => rfl

namespace ClassDescriptor

/-- The mapped fields of an instance that are set, in the order of its class. -/
def held (d : ClassDescriptor) (e : Instance) : List (FieldDescriptor × Value) :=
  d.predicateFields.filterMap fun f => (e.get? f.name).map (f, ·)

/-- The subject is the nonempty string of the identity field. -/
theorem subjectOf_eq_ok {d : ClassDescriptor} {e : Instance} {s : String} :
    d.subjectOf e = .ok s ↔
      ∃ f, d.identity? = some f ∧ e.getStr? f.name = some s ∧ s.isEmpty = false := by
  rw [subjectOf]
  cases d.identity? with
  | none => simp
  | some f =>
    cases hs : e.getStr? f.name with
    | none => simp [hs]
    | some t =>
      simp only [Option.some.injEq, exists_eq_left', hs]
      split
      · rename_i ht
        -- an identity that is set is no subject if it is empty
        constructor
        · rintro ⟨⟩
        · rintro ⟨rfl, h⟩
          simp [ht] at h
      · rename_i ht
        constructor
        · rintro ⟨⟩
          exact ⟨rfl, by simpa using ht⟩
        · rintro ⟨rfl, -⟩
          rfl

/-- An instance with a subject holds it in the identity field. -/
theorem get?_identity {ctx : Context} {d : ClassDescriptor} {e : Instance} {f : FieldDescriptor}
    {s : String} (hd : d.Coherent ctx) (hs : d.subjectOf e = .ok s) (hf : f ∈ d.fields)
    (hid : f.isIdentity = true) : e.get? f.name = some (.str s) := by
  obtain ⟨g, hg, hget, -⟩ := subjectOf_eq_ok.mp hs
  -- there is one identity field, and only a string gives a subject
  obtain rfl := Option.some.inj ((hd.identity?_eq hf hid).symm.trans hg)
  obtain ⟨v, hv, hstr⟩ := Option.bind_eq_some_iff.mp hget
  rw [hv]
  cases v with
  | str t =>
    obtain rfl := Option.some.inj hstr
    rfl
  | strs l => cases hstr
  | entity c => cases hstr
  | entities l => cases hstr

/-- An instance holds the values of the mapped fields that are set. -/
theorem mem_held {d : ClassDescriptor} {e : Instance} {f : FieldDescriptor} {v : Value} :
    (f, v) ∈ d.held e ↔ f ∈ d.predicateFields ∧ e.get? f.name = some v := by
  simp only [held, List.mem_filterMap, Option.map_eq_some_iff, Prod.mk.injEq]
  constructor
  · rintro ⟨f', hf', v', hv', rfl, rfl⟩
    exact ⟨hf', hv'⟩
  · rintro ⟨hf, hv⟩
    exact ⟨f, hf, v, hv, rfl, rfl⟩

/-- What is nested in an instance stands in the entity fields that are set. -/
theorem mem_nestedIn {d : ClassDescriptor} {e c : Instance} :
    c ∈ d.nestedIn e ↔
      ∃ f v, (f, v) ∈ d.held e ∧ f.range? = some .entity ∧ c ∈ v.nested := by
  rw [nestedIn, List.mem_flatMap]
  constructor
  · rintro ⟨f, hf, hc⟩
    split at hc
    · rename_i hr
      cases hv : e.get? f.name with
      | none => simp [hv] at hc
      | some v =>
        rw [hv] at hc
        exact ⟨f, v, mem_held.mpr ⟨hf, hv⟩, hr, hc⟩
    · simp at hc
  · rintro ⟨f, v, hp, hr, hc⟩
    obtain ⟨hf, hv⟩ := mem_held.mp hp
    refine ⟨f, hf, ?_⟩
    rw [if_pos hr, hv]
    exact hc

/-- What the held values contribute, field by field. -/
theorem flatMap_held {α : Type} (d : ClassDescriptor) (e : Instance)
    (g : FieldDescriptor × Value → List α) :
    (d.held e).flatMap g =
      d.predicateFields.flatMap fun f => ((e.get? f.name).map fun v => g (f, v)).getD [] := by
  rw [held]
  induction d.predicateFields with
  | nil => rfl
  | cons f rest ih =>
    rw [List.flatMap_cons, ← ih]
    cases hv : e.get? f.name with
    | none => simp [hv]
    | some v => simp [hv]

end ClassDescriptor

namespace Registry

/-- The subject of an instance, or nothing if it has no usable one. -/
def subject (R : Registry) (e : Instance) : String := (R.subjectOf e).toOption.getD ""

/-- The value has the shape that the range and the multiplicity of a field ask
for, and what is nested in it has subjects. -/
def Fits (R : Registry) (f : FieldDescriptor) : Value → Prop
  | .str _ => f.range? = some .literal ∧ f.multiplicity = .single
  | .strs _ => f.range? = some .literal ∧ f.multiplicity = .multi
  | .entity c => f.range? = some .entity ∧ f.multiplicity = .single ∧ ∃ s, R.subjectOf c = .ok s
  | .entities l => f.range? = some .entity ∧ f.multiplicity = .multi ∧
      ∀ c ∈ l, ∃ s, R.subjectOf c = .ok s

/-- The objects that a value becomes: its strings, or the subjects of its
entities. -/
def objectsOf (R : Registry) : Value → List Object
  | .str s => [.literal s]
  | .strs l => l.map .literal
  | .entity c => [.iri (R.subject c)]
  | .entities l => l.map fun c => .iri (R.subject c)

/-- The block of an instance: its type tag, then the objects of each mapped field
that is set. -/
def layout (R : Registry) (d : ClassDescriptor) (subject : String) (e : Instance) : Block :=
  ⟨subject, (Vocabulary.rdfType, .iri d.tag) ::
    (d.held e).flatMap fun p => (R.objectsOf p.2).map (p.1.predicateText, ·)⟩

/-- The block of an instance of a registered class. -/
def blockOf (R : Registry) (e : Instance) : Except MappingError Block := do
  let d ← R.describe e.className
  let subject ← d.subjectOf e
  R.ownBlock d subject e

variable {R : Registry}

/-! ## Subjects -/

theorem subjectOf_eq_ok {e : Instance} {s : String} :
    R.subjectOf e = .ok s ↔
      ∃ d, R.classes.get? e.className = some d ∧ d.subjectOf e = .ok s := by
  rw [subjectOf, bind_eq_ok]
  simp only [describe_eq_ok]

theorem subject_eq {e : Instance} {s : String} (h : R.subjectOf e = .ok s) : R.subject e = s := by
  rw [subject, h]
  rfl

/-- What is nested in an instance of a registered class stands in the entity fields that
are set. -/
theorem mem_nested {e c : Instance} {d : ClassDescriptor}
    (hd : R.classes.get? e.className = some d) :
    c ∈ R.nested e ↔ ∃ f v, (f, v) ∈ d.held e ∧ f.range? = some .entity ∧ c ∈ v.nested := by
  rw [nested_eq hd, ClassDescriptor.mem_nestedIn]

/-- A list of instances has subjects when each of them has one. -/
theorem mapM_subjectOf_eq_ok {l : List Instance} {ss : List String} :
    l.mapM R.subjectOf = .ok ss ↔
      (∀ c ∈ l, ∃ s, R.subjectOf c = .ok s) ∧ ss = l.map R.subject := by
  refine mapM_eq_ok_iff fun c _ s => ?_
  constructor
  · intro hs
    exact ⟨⟨s, hs⟩, (subject_eq hs).symm⟩
  · rintro ⟨⟨t, ht⟩, rfl⟩
    rwa [subject_eq ht]

/-! ## Values -/

/-- A value fits its field when it has the form of the field and what is nested in it has
subjects. -/
theorem fits_iff {f : FieldDescriptor} {v : Value} :
    R.Fits f v ↔ (f.range? = some v.range ∧ f.multiplicity = v.multiplicity) ∧
      ∀ c ∈ v.nested, ∃ s, R.subjectOf c = .ok s := by
  cases v <;> simp [Fits, Value.range, Value.multiplicity, Value.nested, and_assoc]

/-- A literal field takes the strings of a value that fits, and nothing else. -/
theorem literalsOf_eq_ok {f : FieldDescriptor} (hf : f.range? = some .literal) {s : String}
    {v : Value} {l : List String} :
    f.literalsOf s v = .ok l ↔ R.Fits f v ∧ v.texts = l := by
  cases v <;> cases hm : f.multiplicity <;>
    simp [FieldDescriptor.literalsOf, Fits, Value.texts, hf, hm]

/-- An entity field takes the entities of a value that fits, and nothing else. -/
theorem entitiesOf_eq_ok {f : FieldDescriptor} (hf : f.range? = some .entity) {s : String}
    {v : Value} {l : List Instance} :
    (f.entitiesOf s v = .ok l ∧ ∀ c ∈ l, ∃ t, R.subjectOf c = .ok t) ↔
      R.Fits f v ∧ v.nested = l := by
  cases v <;> cases hm : f.multiplicity <;>
    simp [FieldDescriptor.entitiesOf, Fits, Value.nested, hf, hm] <;>
    rw [and_comm, and_congr_left_iff] <;> rintro rfl <;> simp

/-- In a literal field a value becomes its strings. -/
theorem objectsOf_literal {f : FieldDescriptor} (hf : f.range? = some .literal) {v : Value}
    (h : R.Fits f v) : R.objectsOf v = v.texts.map .literal := by
  cases v <;> simp [Fits, hf] at h <;> rfl

/-- In an entity field a value becomes references to its entities. -/
theorem objectsOf_entity {f : FieldDescriptor} (hf : f.range? = some .entity) {v : Value}
    (h : R.Fits f v) : R.objectsOf v = v.nested.map fun c => .iri (R.subject c) := by
  cases v <;> simp [Fits, hf] at h <;> rfl

/-- A value that fits is the strings of a literal field, or the entities of an
entity field, which have subjects. -/
theorem Fits.range {f : FieldDescriptor} {v : Value} (h : R.Fits f v) :
    (f.range? = some .literal ∧ R.objectsOf v = v.texts.map .literal) ∨
      (f.range? = some .entity ∧ R.objectsOf v = (v.nested.map fun c => .iri (R.subject c)) ∧
        ∀ c ∈ v.nested, R.subjectOf c = .ok (R.subject c)) := by
  cases hf : f.range? with
  | none => cases v <;> simp [Fits, hf] at h
  | some range =>
    cases range with
    | literal => exact Or.inl ⟨rfl, objectsOf_literal hf h⟩
    | entity =>
      -- the texts of errors do not matter, so any subject will do
      obtain ⟨-, hsub⟩ := (entitiesOf_eq_ok (s := "") hf).mpr ⟨h, rfl⟩
      refine Or.inr ⟨rfl, objectsOf_entity hf h, fun c hc => ?_⟩
      obtain ⟨t, ht⟩ := hsub c hc
      rw [ht, subject_eq ht]

/-- A value gives pairs exactly when it fits its field. -/
theorem valuePairs_eq_ok {f : FieldDescriptor} (hf : f.isIdentity = false) {s : String} {v : Value}
    {pairs : List (String × Object)} :
    R.valuePairs s f v = .ok pairs ↔
      R.Fits f v ∧ pairs = (R.objectsOf v).map (f.predicateText, ·) := by
  cases hm : f.mapping with
  | identity => simp [FieldDescriptor.isIdentity, hm] at hf
  | predicate iri range =>
    have hiri : f.predicateText = iri := by
      simp [FieldDescriptor.predicateText, FieldDescriptor.predicate?, hm]
    have hrange : f.range? = some range := by simp [FieldDescriptor.range?, hm]
    rw [valuePairs, hm]
    cases range with
    | literal =>
      simp only [bind_eq_ok, literalsOf_eq_ok (R := R) hrange, hiri]
      constructor
      · rintro ⟨l, ⟨hfits, rfl⟩, hpairs⟩
        cases hpairs
        rw [objectsOf_literal hrange hfits, List.map_map]
        exact ⟨hfits, rfl⟩
      · rintro ⟨hfits, rfl⟩
        refine ⟨v.texts, ⟨hfits, rfl⟩, ?_⟩
        rw [objectsOf_literal hrange hfits, List.map_map]
        rfl
    | entity =>
      -- the shape is checked first, then the subjects; `Fits` is both
      simp only [bind_eq_ok, hiri, mapM_subjectOf_eq_ok]
      constructor
      · rintro ⟨l, hl, ss, ⟨hss, rfl⟩, hpairs⟩
        cases hpairs
        obtain ⟨hfits, rfl⟩ := (entitiesOf_eq_ok hrange).mp ⟨hl, hss⟩
        rw [objectsOf_entity hrange hfits, List.map_map, List.map_map]
        exact ⟨hfits, rfl⟩
      · rintro ⟨hfits, rfl⟩
        obtain ⟨hl, hss⟩ := (entitiesOf_eq_ok (s := s) hrange).mpr ⟨hfits, rfl⟩
        refine ⟨v.nested, hl, _, ⟨hss, rfl⟩, ?_⟩
        rw [objectsOf_entity hrange hfits, List.map_map, List.map_map]
        rfl

/-! ## Blocks -/

/-- A mapped field contributes pairs exactly when what it holds fits. -/
theorem fieldPairs_eq_ok {d : ClassDescriptor} {s : String} {e : Instance} {f : FieldDescriptor}
    (hf : f ∈ d.predicateFields) {pairs : List (String × Object)} :
    R.fieldPairs s e f = .ok pairs ↔
      (∀ v, e.get? f.name = some v → R.Fits f v) ∧
        pairs = ((e.get? f.name).map fun v =>
          (R.objectsOf v).map (f.predicateText, ·)).getD [] := by
  rw [fieldPairs]
  cases e.get? f.name with
  | none => simp [eq_comm]
  | some v => simp [valuePairs_eq_ok (ClassDescriptor.mem_predicateFields.mp hf).2]

/-- The encoder lays out a block exactly when everything held fits. -/
theorem ownBlock_eq_ok {d : ClassDescriptor} {s : String} {e : Instance} {b : Block} :
    R.ownBlock d s e = .ok b ↔ (∀ p ∈ d.held e, R.Fits p.1 p.2) ∧ b = R.layout d s e := by
  -- the encoder walks the fields of the class, `held` what is set of them
  have hfits : (∀ f ∈ d.predicateFields, ∀ v, e.get? f.name = some v → R.Fits f v) ↔
      ∀ p ∈ d.held e, R.Fits p.1 p.2 := by
    constructor
    · rintro h ⟨f, v⟩ hp
      obtain ⟨hf, hv⟩ := ClassDescriptor.mem_held.mp hp
      exact h f hf v hv
    · exact fun h f hf v hv => h (f, v) (ClassDescriptor.mem_held.mpr ⟨hf, hv⟩)
  rw [ownBlock, bind_eq_ok, layout, ClassDescriptor.flatMap_held, List.flatMap_def]
  -- field by field: each succeeds if its value fits, and then its pairs are known
  simp only [mapM_eq_ok_iff fun f hf pairs => fieldPairs_eq_ok (R := R) (s := s) (e := e) hf, hfits]
  constructor
  · rintro ⟨pairs, ⟨h, rfl⟩, hb⟩
    cases hb
    exact ⟨h, rfl⟩
  · rintro ⟨h, rfl⟩
    exact ⟨_, ⟨h, rfl⟩, rfl⟩

/-- An instance has a block when its class is registered, it has a subject and
everything it holds fits. -/
theorem blockOf_eq_ok {e : Instance} {b : Block} :
    R.blockOf e = .ok b ↔ ∃ d s, R.classes.get? e.className = some d ∧ d.subjectOf e = .ok s ∧
      (∀ p ∈ d.held e, R.Fits p.1 p.2) ∧ b = R.layout d s e := by
  simp only [blockOf, bind_eq_ok, describe_eq_ok, ownBlock_eq_ok]
  constructor
  · rintro ⟨d, hd, s, hs, h, hb⟩
    exact ⟨d, s, hd, hs, h, hb⟩
  · rintro ⟨d, s, hd, hs, h, hb⟩
    exact ⟨d, hd, s, hs, h, hb⟩

/-- The encoder's block at some depth is the block of the instance, refused below
the limit. -/
theorem blockAt_eq_ok {m n : Nat} {e : Instance} {d : ClassDescriptor} {b : Block} :
    R.blockAt m n e = .ok (d, b) ↔
      R.classes.get? e.className = some d ∧ n ≤ m ∧ R.blockOf e = .ok b := by
  simp only [blockAt, blockOf, bind_eq_ok, describe_eq_ok]
  constructor
  · rintro ⟨d', hd, s, hs, h⟩
    split at h
    · cases h
    · -- the limit is asked for after the subject and before the pairs
      rename_i hdepth
      obtain ⟨b', hb, h⟩ := bind_eq_ok.mp h
      cases h
      exact ⟨hd, by omega, d, hd, s, hs, hb⟩
  · rintro ⟨hd, hdepth, d', hd', s, hs, hb⟩
    obtain rfl : d = d' := Option.some.inj (hd.symm.trans hd')
    refine ⟨d, hd, s, hs, ?_⟩
    rw [if_neg (by omega)]
    exact bind_eq_ok.mpr ⟨b, hb, rfl⟩

/-- The block of an instance is under its subject. -/
theorem subjectOf_of_blockOf {e : Instance} {b : Block} (h : R.blockOf e = .ok b) :
    R.subjectOf e = .ok b.subject := by
  obtain ⟨d, s, hd, hs, -, rfl⟩ := blockOf_eq_ok.mp h
  exact subjectOf_eq_ok.mpr ⟨d, hd, hs⟩

/-- The instances nested in an instance that has a block have subjects, and the
block refers to them after its type. -/
theorem blockOf_nested {e c : Instance} {b : Block} (h : R.blockOf e = .ok b)
    (hc : c ∈ R.nested e) :
    ∃ s iri, R.subjectOf c = .ok s ∧ (iri, Object.iri s) ∈ b.pairs.tail := by
  obtain ⟨d, s, hd, -, hfits, rfl⟩ := blockOf_eq_ok.mp h
  obtain ⟨f, v, hp, hf, hc⟩ := (mem_nested hd).mp hc
  rcases (hfits _ hp).range with ⟨hlit, -⟩ | ⟨-, hobj, hsub⟩
  · rw [hf] at hlit
    cases hlit
  · refine ⟨R.subject c, f.predicateText, hsub c hc, List.mem_flatMap.mpr ⟨(f, v), hp, ?_⟩⟩
    refine List.mem_map.mpr ⟨.iri (R.subject c), ?_, rfl⟩
    rw [hobj]
    exact List.mem_map.mpr ⟨c, hc, rfl⟩

/-- What a block refers to after its type is the subject of a nested instance. -/
theorem nested_of_blockOf {e : Instance} {b : Block} {iri s : String} (h : R.blockOf e = .ok b)
    (hs : (iri, Object.iri s) ∈ b.pairs.tail) : ∃ c ∈ R.nested e, R.subjectOf c = .ok s := by
  obtain ⟨d, t, hd, -, hfits, rfl⟩ := blockOf_eq_ok.mp h
  obtain ⟨⟨f, v⟩, hp, ho⟩ := List.mem_flatMap.mp hs
  obtain ⟨o, ho, heq⟩ := List.mem_map.mp ho
  obtain rfl : o = .iri s := (Prod.mk.inj heq).2
  rcases (hfits _ hp).range with ⟨-, hobj⟩ | ⟨hrange, hobj, hsub⟩
  · rw [hobj] at ho
    simp at ho
  · rw [hobj] at ho
    obtain ⟨c, hc, hcs⟩ := List.mem_map.mp ho
    exact ⟨c, (mem_nested hd).mpr ⟨f, v, hp, hrange, hc⟩, Object.iri.inj hcs ▸ hsub c hc⟩

end Registry

end EntityRdf

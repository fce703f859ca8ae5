import EntityRdf.Proofs.ModelRoundTrip
import EntityRdf.Proofs.ReadableInstances

/-!
# Typed values and the instances that they are read from

A reader of the data model asks for each field of its class, in the form that the field
is declared for. So when it succeeds, the value has in each field what the instance holds
there (`Registry.Yields`), with what is nested read in turn; of the instance only the
fields that its class does not declare are left out. Writing the value gives them no
room, and therefore gives the pruned instance.

Main results: `Model.toInstance_of_ofInstance` and `Registry.withModel_converts`: to write
a value and to read an instance undo each other, up to undeclared fields.
-/

namespace EntityRdf

/-! ## What a reader has found -/

namespace Instance

variable {e : Instance} {n : String}

/-- An optional string that was read is what the field holds. -/
theorem get?_of_readString? {s? : Option String} (h : e.readString? n = .ok s?) :
    e.get? n = s?.map .str := by
  unfold readString? at h
  split at h <;> cases h
  · assumption
  · assumption

/-- A string that was read is what the field holds. -/
theorem get?_of_readString {s : String} (h : e.readString n = .ok s) :
    e.get? n = some (.str s) := by
  obtain ⟨s?, hs, h⟩ := bind_eq_ok.mp h
  rw [get?_of_readString? hs]
  cases s? with
  | none => cases h
  | some t =>
    cases h
    rfl

/-- Read strings were set, or nothing was. -/
theorem get?_of_readStrings {l : List String} (h : e.readStrings n = .ok l) :
    e.get? n = some (.strs l) ∨ (e.get? n = none ∧ l = []) := by
  unfold readStrings at h
  split at h <;> cases h
  · exact Or.inr ⟨by assumption, rfl⟩
  · exact Or.inl (by assumption)

section Nested

variable {α : Type} {read : (c : Instance) → sizeOf c < sizeOf e → Except MappingError α}

/-- A read entity was set, or nothing was. -/
theorem get?_of_readEntity? {a? : Option α} (h : e.readEntity? n read = .ok a?) :
    (e.get? n = none ∧ a? = none) ∨
      ∃ c a hlt, e.get? n = some (.entity c) ∧ read c hlt = .ok a ∧ a? = some a := by
  unfold readEntity? at h
  split at h
  · cases h
    exact Or.inl ⟨by assumption, rfl⟩
  · rename_i c hc
    obtain ⟨a, ha, h⟩ := bind_eq_ok.mp h
    cases h
    exact Or.inr ⟨c, a, _, hc, ha, rfl⟩
  all_goals cases h

/-- Read entities were set, in the same order, or nothing was. -/
theorem get?_of_readEntities {l : List α} (h : e.readEntities n read = .ok l) :
    (e.get? n = none ∧ l = []) ∨
      ∃ cs, e.get? n = some (.entities cs) ∧
        List.Forall₂ (fun c a => ∃ hlt, read c hlt = .ok a) cs l := by
  unfold readEntities at h
  split at h
  · cases h
    exact Or.inl ⟨by assumption, rfl⟩
  · rename_i cs hcs
    have hread := mapM_eq_ok.mp h
    refine Or.inr ⟨cs, hcs, ?_⟩
    rw [← List.attach_map_subtype_val cs, List.forall₂_map_left_iff]
    exact hread.imp fun c a hc => ⟨_, hc⟩
  all_goals cases h

end Nested

end Instance

/-! ## One field -/

namespace Registry

variable {R : Registry} {e : Instance} {n iri : String}

/-- What the instance holds in the field, pruned, is what setting the value leaves
there: the value, unless it is an empty sequence. -/
def Yields (R : Registry) (e : Instance) (f : FieldDeclaration) (v? : Option Value) : Prop :=
  (e.get? f.name).map (R.pruneHeld ⟨f, f.expandedIn R.context⟩) =
    v?.filter (!·.isEmptySequence)

/-- A field for texts is not touched by pruning. -/
theorem yields_of_literal {f : FieldDeclaration} {v? : Option Value}
    (hf : f.mapping.range? ≠ some .entity)
    (h : e.get? f.name = v?.filter (!·.isEmptySequence)) : R.Yields e f v? := by
  have hsame : R.pruneHeld ⟨f, f.expandedIn R.context⟩ = id := funext fun v => if_neg hf
  rw [Yields, hsame, Option.map_id]
  exact h

/-- In an entity field pruning reaches what the field nests. -/
theorem yields_of_entity {f : FieldDeclaration} {v? : Option Value}
    (hf : f.mapping.range? = some .entity)
    (h : (e.get? f.name).map R.pruneValue = v?.filter (!·.isEmptySequence)) : R.Yields e f v? := by
  have hsame : R.pruneHeld ⟨f, f.expandedIn R.context⟩ = R.pruneValue := funext fun v => if_pos hf
  rw [Yields, hsame]
  exact h

theorem yields_identity {s : String} (h : e.readString n = .ok s) :
    R.Yields e (.identity n) (some (.str s)) :=
  yields_of_literal nofun (Instance.get?_of_readString h)

theorem yields_required {s : String} (h : e.readString n = .ok s) :
    R.Yields e (.literal n iri) (some (.str s)) :=
  yields_of_literal nofun (Instance.get?_of_readString h)

/-- An optional string is written back as it was read, and its absence too. -/
theorem yields_literal {s? : Option String} (h : e.readString? n = .ok s?) :
    R.Yields e (.literal n iri) (s?.map .str) := by
  refine yields_of_literal nofun ((Instance.get?_of_readString? h).trans ?_)
  cases s? <;> rfl

/-- A value that is no empty sequence stays when it is set. -/
theorem filter_filled {v : Value} (h : v.isEmptySequence = false) :
    (some v).filter (!·.isEmptySequence) = some v := by
  simp [Option.filter, h]

/-- Strings are written back as they were read: no field holds an empty sequence, and
none is set. -/
theorem yields_literals (he : e.Canonical) {l : List String} (h : e.readStrings n = .ok l) :
    R.Yields e (.literals n iri) (some (.strs l)) := by
  refine yields_of_literal nofun ?_
  rcases Instance.get?_of_readStrings h with hl | ⟨hnone, rfl⟩
  · rw [filter_filled (he.filled hl)]
    exact hl
  · exact hnone

section Nested

variable {α : Type} {read : (c : Instance) → sizeOf c < sizeOf e → Except MappingError α}
  {write : α → Instance}
  (hread : ∀ v, e.get? n = some v → ∀ c ∈ v.nested, ∀ hlt a, read c hlt = .ok a →
    R.prune c = write a)
include hread

/-- An entity is written back pruned, if that is so for what was nested. -/
theorem yields_entity {a? : Option α} (h : e.readEntity? n read = .ok a?) :
    R.Yields e (.entity n iri) (a?.map fun a => .entity (write a)) := by
  refine yields_of_entity rfl ?_
  show (e.get? n).map R.pruneValue = _
  rcases Instance.get?_of_readEntity? h with ⟨hnone, rfl⟩ | ⟨c, a, hlt, hc, ha, rfl⟩
  · rw [hnone]
    rfl
  · have hwrite : R.prune c = write a := hread _ hc c (List.mem_singleton_self c) hlt a ha
    rw [hc, Option.map_some, pruneValue, hwrite]
    rfl

/-- Entities are written back pruned and in order, if that is so for each that was
nested. -/
theorem yields_entities (he : e.Canonical) {l : List α} (h : e.readEntities n read = .ok l) :
    R.Yields e (.entities n iri) (some (.entities (l.map write))) := by
  refine yields_of_entity rfl ?_
  show (e.get? n).map R.pruneValue = _
  rcases Instance.get?_of_readEntities h with ⟨hnone, rfl⟩ | ⟨cs, hcs, hl⟩
  · rw [hnone]
    rfl
  · have hwrite : cs.map R.prune = l.map write := by
      rw [← List.forall₂_eq_eq_eq, List.forall₂_map_left_iff, List.forall₂_map_right_iff]
      refine List.forall₂_iff_zip.mpr ⟨hl.length_eq, fun hp => ?_⟩
      obtain ⟨hlt, ha⟩ := (List.forall₂_iff_zip.mp hl).2 hp
      exact hread _ hcs _ (List.of_mem_zip hp).1 hlt _ ha
    -- a sequence that is held is not empty
    have hfilled : (Value.entities (cs.map R.prune)).isEmptySequence = false := by
      simpa [Value.isEmptySequence] using he.filled hcs
    rw [← hwrite, filter_filled hfilled, hcs, Option.map_some, pruneValue, pruneAll_eq_map]

end Nested

/-- The instance has in each field of the class of a value what the value puts there. -/
def YieldsAll (R : Registry) (e : Instance) (r : Model.Resource) : Prop :=
  List.Forall₂ (R.Yields e) r.declaration.fields r.values

end Registry

namespace Model

open Instance Registry

variable {R : Registry} {e : Instance}

/-! ## All fields of a class -/

/-- An instance that has in each field of its class what a value puts there is, when
pruned, the instance of the value. -/
theorem Resource.prune_eq_toInstance (hR : R.Coherent) (hM : ∀ c ∈ declarations, R.Declares c)
    {r : Resource} (he : e.Canonical) (hclass : e.className = r.declaration.name)
    (hyields : R.YieldsAll e r) : R.prune e = r.toInstance := by
  have hc := hM _ r.declaration_mem
  have hdescribed : R.classes.get? e.className = some (r.declaration.descriptor R.context) := by
    rw [hclass]
    exact hc
  refine (prune_canonical he).ext r.canonical_toInstance ?_ fun n => ?_
  · rw [className_prune, hclass, className_toInstance]
  rw [toInstance_eq]
  by_cases hn : ∃ p ∈ r.slots, p.1.name = n
  · obtain ⟨p, hp, rfl⟩ := hn
    -- a declared field holds what the value puts there
    rw [get?_ofSlots hR hc r.follows hp, get?_prune_field hdescribed (hR.fields hc)
      (mem_fields_of_slot r.follows R.context hp)]
    exact (List.forall₂_iff_zip.mp hyields).2 hp
  · -- a field that the class does not declare is set in neither of them
    have hright : (ofSlots r.declaration.name r.slots).get? n = none := by
      rw [Option.eq_none_iff_forall_ne_some]
      intro v hv
      obtain ⟨p, hp, hname, -⟩ := exists_slot hR hc r.follows hv
      exact hn ⟨p, hp, hname⟩
    have hleft : (R.prune e).get? n = none := by
      rw [Option.eq_none_iff_forall_ne_some]
      intro v hv
      obtain ⟨d, f, w, hd, hf, -, -⟩ := get?_prune_eq_some hv
      obtain rfl := Option.some.inj (hdescribed.symm.trans hd)
      obtain ⟨g, hg, rfl⟩ := List.mem_map.mp (List.mem_of_find?_eq_some hf)
      rw [← r.follows.fields] at hg
      obtain ⟨p, hp, rfl⟩ := List.mem_map.mp hg
      exact hn ⟨p, hp, by simpa using List.find?_some hf⟩
    rw [hleft, hright]

/-! ## Kinds of values

A reader that succeeds has made one step for the class and one for each field, in order.
-/

section Kinds

/-- What static properties share is written back field by field. -/
theorem StaticPropertyInfo.yields {i : StaticPropertyInfo}
    (h : StaticPropertyInfo.ofInstance e = .ok i) :
    List.Forall₂ (R.Yields e) StaticPropertyInfo.declarations (Resource.values.info i) := by
  obtain ⟨_, hid, h⟩ := bind_eq_ok.mp h
  obtain ⟨_, helement, h⟩ := bind_eq_ok.mp h
  obtain ⟨_, hlabel, h⟩ := bind_eq_ok.mp h
  obtain ⟨_, hdescription, h⟩ := bind_eq_ok.mp h
  obtain ⟨_, hinternal, h⟩ := bind_eq_ok.mp h
  cases h
  exact .cons (yields_identity hid) <| .cons (yields_literal helement) <|
    .cons (yields_literal hlabel) <| .cons (yields_literal hdescription) <|
    .cons (yields_literal hinternal) .nil

/-- What event properties share is written back field by field. -/
theorem EventPropertyInfo.yields {i : EventPropertyInfo}
    (h : EventPropertyInfo.ofInstance e = .ok i) :
    List.Forall₂ (R.Yields e) EventPropertyInfo.declarations (Resource.values.shared i) := by
  obtain ⟨_, hid, h⟩ := bind_eq_ok.mp h
  obtain ⟨_, hname, h⟩ := bind_eq_ok.mp h
  obtain ⟨_, hlabel, h⟩ := bind_eq_ok.mp h
  obtain ⟨_, hdescription, h⟩ := bind_eq_ok.mp h
  cases h
  exact .cons (yields_identity hid) <| .cons (yields_literal hname) <|
    .cons (yields_literal hlabel) <| .cons (yields_literal hdescription) .nil

/-- A property with several selected values is written back: the shared fields first,
then its own. -/
theorem MappingPropertyNary.yields (he : e.Canonical) {p : MappingPropertyNary}
    (h : Entity.ofInstance e = .ok p) : R.YieldsAll e (Kind.mappingNary.resource p) := by
  obtain ⟨_, -, h⟩ := bind_eq_ok.mp h
  obtain ⟨_, hinfo, h⟩ := bind_eq_ok.mp h
  obtain ⟨_, hselector, h⟩ := bind_eq_ok.mp h
  obtain ⟨_, hoptions, h⟩ := bind_eq_ok.mp h
  obtain ⟨_, hscope, h⟩ := bind_eq_ok.mp h
  obtain ⟨_, hselected, h⟩ := bind_eq_ok.mp h
  cases h
  exact List.rel_append (StaticPropertyInfo.yields hinfo) <| .cons (yields_literal hselector) <|
    .cons (yields_literals he hoptions) <| .cons (yields_literal hscope) <|
    .cons (yields_literals he hselected) .nil

/-- A property with one selected value is written back: the shared fields first, then its
own. -/
theorem MappingPropertyUnary.yields (he : e.Canonical) {p : MappingPropertyUnary}
    (h : Entity.ofInstance e = .ok p) : R.YieldsAll e (Kind.mappingUnary.resource p) := by
  obtain ⟨_, -, h⟩ := bind_eq_ok.mp h
  obtain ⟨_, hinfo, h⟩ := bind_eq_ok.mp h
  obtain ⟨_, hselector, h⟩ := bind_eq_ok.mp h
  obtain ⟨_, hoptions, h⟩ := bind_eq_ok.mp h
  obtain ⟨_, hscope, h⟩ := bind_eq_ok.mp h
  obtain ⟨_, hselected, h⟩ := bind_eq_ok.mp h
  cases h
  exact List.rel_append (StaticPropertyInfo.yields hinfo) <| .cons (yields_literal hselector) <|
    .cons (yields_literals he hoptions) <| .cons (yields_literal hscope) <|
    .cons (yields_literal hselected) .nil

/-- A free text is written back: the shared fields first, then its own. -/
theorem FreeTextStaticProperty.yields {p : FreeTextStaticProperty}
    (h : Entity.ofInstance e = .ok p) : R.YieldsAll e (Kind.freeText.resource p) := by
  obtain ⟨_, -, h⟩ := bind_eq_ok.mp h
  obtain ⟨_, hinfo, h⟩ := bind_eq_ok.mp h
  obtain ⟨_, hvalue, h⟩ := bind_eq_ok.mp h
  obtain ⟨_, hdatatype, h⟩ := bind_eq_ok.mp h
  cases h
  exact List.rel_append (StaticPropertyInfo.yields hinfo) <| .cons (yields_literal hvalue) <|
    .cons (yields_literal hdatatype) .nil

/-- A rule that adds a nested record is written back, identity and key. -/
theorem AddNestedRule.yields {r : AddNestedRule} (h : Entity.ofInstance e = .ok r) :
    R.YieldsAll e (Kind.addNested.resource r) := by
  obtain ⟨_, -, h⟩ := bind_eq_ok.mp h
  obtain ⟨_, hid, h⟩ := bind_eq_ok.mp h
  obtain ⟨_, hkey, h⟩ := bind_eq_ok.mp h
  cases h
  exact .cons (yields_identity hid) <| .cons (yields_required hkey) .nil

theorem RenameRule.yields {r : RenameRule} (h : Entity.ofInstance e = .ok r) :
    R.YieldsAll e (Kind.rename.resource r) := by
  obtain ⟨_, -, h⟩ := bind_eq_ok.mp h
  obtain ⟨_, hid, h⟩ := bind_eq_ok.mp h
  obtain ⟨_, hold, h⟩ := bind_eq_ok.mp h
  obtain ⟨_, hnew, h⟩ := bind_eq_ok.mp h
  cases h
  exact .cons (yields_identity hid) <| .cons (yields_required hold) <|
    .cons (yields_required hnew) .nil

theorem DeleteRule.yields {r : DeleteRule} (h : Entity.ofInstance e = .ok r) :
    R.YieldsAll e (Kind.delete.resource r) := by
  obtain ⟨_, -, h⟩ := bind_eq_ok.mp h
  obtain ⟨_, hid, h⟩ := bind_eq_ok.mp h
  obtain ⟨_, hkey, h⟩ := bind_eq_ok.mp h
  cases h
  exact .cons (yields_identity hid) <| .cons (yields_required hkey) .nil

/-- A primitive property is written back with its domain properties. -/
theorem EventPropertyPrimitive.yields (he : e.Canonical) {p : EventPropertyPrimitive}
    (h : Entity.ofInstance e = .ok p) : R.YieldsAll e (Kind.primitive.resource p) := by
  obtain ⟨_, -, h⟩ := bind_eq_ok.mp h
  obtain ⟨_, hinfo, h⟩ := bind_eq_ok.mp h
  obtain ⟨_, htype, h⟩ := bind_eq_ok.mp h
  obtain ⟨_, hdomain, h⟩ := bind_eq_ok.mp h
  cases h
  exact List.rel_append (EventPropertyInfo.yields hinfo) <| .cons (yields_literal htype) <|
    .cons (yields_literals he hdomain) .nil

section Nested

-- what is nested is written as it was read, but for undeclared fields
variable (hnested : ∀ {n v} {k : Kind}, e.get? n = some v → ∀ c ∈ v.nested, ∀ a : k.Carrier,
  Entity.ofInstance c = .ok a → R.prune c = Entity.toInstance a)
include hnested

/-- A nested property is written back, given that its event properties are. -/
theorem EventPropertyNested.yields (he : e.Canonical) {p : EventPropertyNested}
    (h : Entity.ofInstance e = .ok p) : R.YieldsAll e (Kind.nested.resource p) := by
  obtain ⟨_, -, h⟩ := bind_eq_ok.mp h
  obtain ⟨_, hinfo, h⟩ := bind_eq_ok.mp h
  obtain ⟨_, hproperties, h⟩ := bind_eq_ok.mp h
  cases h
  exact List.rel_append (EventPropertyInfo.yields hinfo) <| .cons (yields_entities
    (fun _ hv c hc _ => hnested (k := .property) hv c hc) he hproperties) .nil

/-- A list property is written back, given that its event property is. -/
theorem EventPropertyList.yields {p : EventPropertyList}
    (h : Entity.ofInstance e = .ok p) : R.YieldsAll e (Kind.list.resource p) := by
  obtain ⟨_, -, h⟩ := bind_eq_ok.mp h
  obtain ⟨_, hinfo, h⟩ := bind_eq_ok.mp h
  obtain ⟨_, hproperty, h⟩ := bind_eq_ok.mp h
  cases h
  exact List.rel_append (EventPropertyInfo.yields hinfo) <| .cons (yields_entity
    (fun _ hv c hc _ => hnested (k := .property) hv c hc) hproperty) .nil

theorem EventSchema.yields (he : e.Canonical) {s : EventSchema} (h : Entity.ofInstance e = .ok s) :
    R.YieldsAll e (Kind.schema.resource s) := by
  obtain ⟨_, -, h⟩ := bind_eq_ok.mp h
  obtain ⟨_, hid, h⟩ := bind_eq_ok.mp h
  obtain ⟨_, hproperties, h⟩ := bind_eq_ok.mp h
  cases h
  exact .cons (yields_identity hid) <| .cons (yields_entities
    (fun _ hv c hc _ => hnested (k := .property) hv c hc) he hproperties) .nil

theorem DataSetDescription.yields {d : DataSetDescription} (h : Entity.ofInstance e = .ok d) :
    R.YieldsAll e (Kind.dataSet.resource d) := by
  obtain ⟨_, -, h⟩ := bind_eq_ok.mp h
  obtain ⟨_, hid, h⟩ := bind_eq_ok.mp h
  obtain ⟨_, hlabel, h⟩ := bind_eq_ok.mp h
  obtain ⟨_, hdescription, h⟩ := bind_eq_ok.mp h
  obtain ⟨_, hschema, h⟩ := bind_eq_ok.mp h
  cases h
  exact .cons (yields_identity hid) <| .cons (yields_literal hlabel) <|
    .cons (yields_literal hdescription) <| .cons (yields_entity
    (fun _ hv c hc _ => hnested (k := .schema) hv c hc) hschema) .nil

/-- An invocation is written back, given that its static properties are. -/
theorem PipelineTemplateInvocation.yields (he : e.Canonical) {p : PipelineTemplateInvocation}
    (h : Entity.ofInstance e = .ok p) : R.YieldsAll e (Kind.invocation.resource p) := by
  obtain ⟨_, -, h⟩ := bind_eq_ok.mp h
  obtain ⟨_, hid, h⟩ := bind_eq_ok.mp h
  obtain ⟨_, hname, h⟩ := bind_eq_ok.mp h
  obtain ⟨_, hdataSet, h⟩ := bind_eq_ok.mp h
  obtain ⟨_, htemplate, h⟩ := bind_eq_ok.mp h
  obtain ⟨_, hproperties, h⟩ := bind_eq_ok.mp h
  cases h
  exact .cons (yields_identity hid) <| .cons (yields_literal hname) <|
    .cons (yields_literal hdataSet) <| .cons (yields_literal htemplate) <| .cons (yields_entities
    (fun _ hv c hc _ => hnested (k := .staticProperty) hv c hc) he hproperties) .nil

end Nested

end Kinds

/-! ## Instances in depth -/

/-- A value is written under one of the classes of its type. -/
theorem Kind.declaration_name_mem (k : Kind) (a : k.Carrier) :
    (k.resource a).declaration.name ∈ k.classNames := by
  cases k with
  | staticProperty | rule | property =>
    cases a <;> simp [classNames, resource, Resource.declaration, Entity.declarations]
  | _ => exact List.mem_singleton_self _

/-- The value that the reader for a class has read has in the fields of the class what the
instance holds there. -/
theorem Kind.yieldsAll {k : Kind} (hname : k.classNames = [e.className]) (he : e.Canonical)
    (hnested : ∀ {n v} {k : Kind}, e.get? n = some v → ∀ c ∈ v.nested, ∀ a : k.Carrier,
      Entity.ofInstance c = .ok a → R.prune c = Entity.toInstance a)
    {a : k.Carrier} (h : Entity.ofInstance e = .ok a) : R.YieldsAll e (k.resource a) := by
  cases k with
  | mappingNary => exact MappingPropertyNary.yields he h
  | mappingUnary => exact MappingPropertyUnary.yields he h
  | freeText => exact FreeTextStaticProperty.yields h
  | addNested => exact AddNestedRule.yields h
  | rename => exact RenameRule.yields h
  | delete => exact DeleteRule.yields h
  | primitive => exact EventPropertyPrimitive.yields he h
  | nested => exact EventPropertyNested.yields hnested he h
  | list => exact EventPropertyList.yields hnested h
  | schema => exact EventSchema.yields hnested he h
  | dataSet => exact DataSetDescription.yields hnested h
  | invocation => exact PipelineTemplateInvocation.yields hnested he h
  | staticProperty | rule | property =>
    -- a family has three classes
    have hlength : 3 = 1 := congrArg List.length hname
    cases hlength

/-- Writing what was read gives the instance without its undeclared fields. -/
theorem toInstance_of_ofInstance (hR : R.Coherent) (hM : ∀ c ∈ declarations, R.Declares c)
    (he : e.Canonical) : ∀ (k : Kind) (v : k.Carrier),
      Entity.ofInstance e = .ok v → R.prune e = Entity.toInstance v := by
  induction he with
  | @intro e order filled deep ih =>
    intro k v h
    have he : e.Canonical := .intro order filled deep
    have hnested : ∀ {n v} {k : Kind}, e.get? n = some v → ∀ c ∈ v.nested, ∀ a : k.Carrier,
        Entity.ofInstance c = .ok a → R.prune c = Entity.toInstance a :=
      fun hv c hc => ih _ _ hv c hc _
    -- a family reads with the reader for the class, and the value is the same resource
    obtain ⟨k', hname, f, hread, hsame⟩ := Kind.exists_reader (Kind.Reads.mem_classNames ⟨v, h⟩)
    rw [hread, map_eq_ok] at h
    obtain ⟨a, ha, rfl⟩ := h
    rw [← k.toInstance_resource, hsame]
    have hclass := k'.declaration_name_mem a
    rw [hname, List.mem_singleton] at hclass
    exact Resource.prune_eq_toInstance hR hM he hclass.symm (Kind.yieldsAll hname he hnested ha)

end Model

/-! ## Conversion -/

namespace Registry

open Model

/-- Typed conversion is a bijection. A value is read from the instance that it is written
as; an instance that is read is written again without its undeclared fields; and so the
instances of values are those that are read and have no such fields. -/
theorem withModel_converts (ctx : Context) :
    ∃ R, withModel ctx = .ok R ∧ ∀ k : Kind,
      (∀ v : k.Carrier, Entity.ofInstance (Entity.toInstance v) = .ok v) ∧
      (∀ e : Instance, e.Built → ∀ v : k.Carrier, Entity.ofInstance e = .ok v →
        Entity.toInstance v = R.prune e) ∧
      ∀ e : Instance, e.Built →
        ((∃ v : k.Carrier, Entity.toInstance v = e) ↔ k.Reads e ∧ R.prune e = e) := by
  obtain ⟨R, hrun, rfl, hreachable, -, hclasses⟩ := exists_withModel ctx
  have hR : R.Coherent := hreachable.coherent
  have hM : ∀ c ∈ Model.declarations, R.Declares c :=
    fun c hc => (hclasses _ _).mpr ⟨c, hc, rfl, rfl⟩
  have hwrite : ∀ (k : Kind) (e : Instance), e.Built → ∀ v : k.Carrier,
      Entity.ofInstance e = .ok v → Entity.toInstance v = R.prune e :=
    fun k e he v h => (toInstance_of_ofInstance hR hM he.canonical k v h).symm
  refine ⟨R, hrun, fun k => ⟨k.ofInstance_toInstance, hwrite k, fun e he => ⟨?_, ?_⟩⟩⟩
  · rintro ⟨v, rfl⟩
    refine ⟨⟨v, k.ofInstance_toInstance v⟩, ?_⟩
    rw [← k.toInstance_resource]
    exact Resource.prune_toInstance hR hM _
  · rintro ⟨⟨v, hv⟩, hself⟩
    exact ⟨v, (hwrite k e he v hv).trans hself⟩

/-- A property with a field that its class does not declare. -/
def speed : Instance :=
  ((Instance.new "EventPropertyPrimitive").set "id" (.str "urn:speed")).set "unit" (.str "m/s")

/-- A schema with such a property, and with a nested instance in such a field. -/
def annotatedSchema : Instance :=
  (((Instance.new "EventSchema").set "id" (.str "urn:schema")).set "eventProperties"
    (.entities [speed])).set "origin" (.entity (Instance.new "Sensor"))

theorem built_annotatedSchema : annotatedSchema.Built := by
  have hspeed : speed.Built := .set _ (.set _ (.new _) nofun) nofun
  refine .set _ (.set _ (.set _ (.new _) nofun) ?_) ?_
  · simpa [Value.nested] using hspeed
  · simpa [Value.nested] using Instance.Built.new "Sensor"

/-- What is read of it. -/
def plainSchema : EventSchema :=
  ⟨"urn:schema", [.primitive ⟨⟨"urn:speed", none, none, none⟩, none, []⟩]⟩

theorem ofInstance_annotatedSchema : Entity.ofInstance annotatedSchema = .ok plainSchema := by
  have hspeed : EventProperty.ofInstance speed =
      .ok (.primitive ⟨⟨"urn:speed", none, none, none⟩, none, []⟩) := by
    rw [EventProperty.ofInstance_eq_primitive (by decide +kernel)]
    rfl
  have hproperties : annotatedSchema.readEntities "eventProperties"
      (fun c _ => (Entity.ofInstance c : Except MappingError EventProperty)) =
        .ok plainSchema.eventProperties := by
    refine Instance.readEntities_eq (fun _ => speed) (by decide +kernel) fun a ha _ => ?_
    obtain rfl := List.mem_singleton.mp ha
    exact hspeed
  have hid : annotatedSchema.readString "id" = .ok "urn:schema" := rfl
  have hclass : annotatedSchema.expectClass "EventSchema" = .ok () := rfl
  show (Instance.expectClass _ _ >>= fun _ => Instance.readString _ _ >>= fun id => _ >>= fun l =>
    _) = _
  rw [hclass, ok_bind, hid, ok_bind, hproperties]
  rfl

/-- The schema is written again without the fields in question. -/
theorem withModel_converts_annotatedSchema :
    ∃ R, withModel .streamPipes = .ok R ∧ annotatedSchema.Built ∧
      Entity.ofInstance annotatedSchema = .ok plainSchema ∧
      Entity.ofInstance (Entity.toInstance plainSchema) = .ok plainSchema ∧
      Entity.toInstance plainSchema = R.prune annotatedSchema ∧
      R.prune annotatedSchema ≠ annotatedSchema := by
  obtain ⟨R, hrun, h⟩ := withModel_converts .streamPipes
  obtain ⟨hread, hwrite, -⟩ := h .schema
  have hpruned : Entity.toInstance plainSchema = R.prune annotatedSchema :=
    hwrite _ built_annotatedSchema plainSchema ofInstance_annotatedSchema
  refine ⟨R, hrun, built_annotatedSchema, ofInstance_annotatedSchema, hread plainSchema,
    hpruned, ?_⟩
  rw [← hpruned]
  decide +kernel

end Registry

end EntityRdf

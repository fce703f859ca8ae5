import EntityRdf.Proofs.DeclaredInstances
import EntityRdf.Proofs.TypedReading

/-!
# The resources of the data model

A resource is a value of the data model of whichever type. Its parts are the
values nested directly in it, so that `Resource.preorder` lists a value with
everything below it, as `Registry.preorder` does for instances. Every resource is
written as the slots of a declared class (`toInstance_eq` and `follows`), and
therefore the registry of the data model finds in the instance what the resource
has: the same tree (`preorder_toInstance`) of the same size (`count_toInstance`).

`Kind` names the types of values: every kind of its own, and the families.

Main results: `registrable_declarations`, `preorder_toInstance` and
`Kind.ofInstance_toInstance`.
-/

namespace EntityRdf.Model

open Instance

/-! ## Declarations -/

/-- All classes of the data model, in registration order. -/
def declarations : List ClassDeclaration :=
  Entity.declarations StaticProperty ++ Entity.declarations TransformationRule ++
  Entity.declarations EventProperty ++ Entity.declarations EventSchema ++
  Entity.declarations DataSetDescription ++ Entity.declarations PipelineTemplateInvocation

/-- The steps that register the data model are those of its declared classes. -/
theorem registrations_eq :
    registrations = declarations.flatMap ClassDeclaration.registrations := by
  simp only [registrations, declarations, Entity.registrations, List.flatMap_append]

/-- No context can make two terms of the data model clash. The condition is on the terms
alone and decided by evaluation. -/
theorem registrable_declarations : Registrable declarations := by decide +kernel

/-! ## Resources -/

/-- A value of the data model. -/
inductive Resource where
  | staticProperty (p : StaticProperty)
  | rule (r : TransformationRule)
  | property (p : EventProperty)
  | schema (s : EventSchema)
  | dataSet (d : DataSetDescription)
  | invocation (p : PipelineTemplateInvocation)
deriving DecidableEq

namespace Resource

def id : Resource → String
  | staticProperty p => p.info.id
  | rule r => r.id
  | property p => p.id
  | schema s => s.id
  | dataSet d => d.id
  | invocation p => p.id

def toInstance : Resource → Instance
  | staticProperty p => Entity.toInstance p
  | rule r => Entity.toInstance r
  | property p => p.toInstance
  | schema s => Entity.toInstance s
  | dataSet d => Entity.toInstance d
  | invocation p => Entity.toInstance p

/-- The values nested directly in a value, in order. -/
def parts : Resource → List Resource
  | property (.nested _ l) => l.map property
  | property (.list _ p?) => p?.toList.map property
  | schema s => s.eventProperties.map property
  | dataSet d => d.eventSchema.toList.map schema
  | invocation p => p.staticProperties.map staticProperty
  | staticProperty _ | rule _ | property (.primitive _) => []

/-- The parts of a value are smaller, so what recurses on them ends. -/
theorem sizeOf_lt_of_mem_parts {r q : Resource} (h : q ∈ r.parts) : sizeOf q < sizeOf r := by
  match r with
  -- kinds without parts, and values that leave theirs out
  | staticProperty _ | rule _ | property (.primitive _) | property (.list _ none)
  | dataSet ⟨_, _, _, none⟩ => simp [parts] at h
  | property (.nested i l) =>
    obtain ⟨p, hp, rfl⟩ := List.mem_map.mp h
    have hlt : sizeOf p < sizeOf l := List.sizeOf_lt_of_mem hp
    simp only [property.sizeOf_spec, EventProperty.nested.sizeOf_spec]
    omega
  | property (.list i (some p)) =>
    obtain rfl := List.mem_singleton.mp h
    simp only [property.sizeOf_spec, EventProperty.list.sizeOf_spec, Option.some.sizeOf_spec]
    omega
  | schema ⟨i, l⟩ =>
    obtain ⟨p, hp, rfl⟩ := List.mem_map.mp h
    have hlt : sizeOf p < sizeOf l := List.sizeOf_lt_of_mem hp
    simp only [property.sizeOf_spec, schema.sizeOf_spec, EventSchema.mk.sizeOf_spec]
    omega
  | dataSet ⟨i, label, description, some s⟩ =>
    obtain rfl := List.mem_singleton.mp h
    simp only [schema.sizeOf_spec, dataSet.sizeOf_spec, DataSetDescription.mk.sizeOf_spec,
      Option.some.sizeOf_spec]
    omega
  | invocation ⟨i, name, data, template, l⟩ =>
    obtain ⟨p, hp, rfl⟩ := List.mem_map.mp h
    have hlt : sizeOf p < sizeOf l := List.sizeOf_lt_of_mem hp
    simp only [staticProperty.sizeOf_spec, invocation.sizeOf_spec,
      PipelineTemplateInvocation.mk.sizeOf_spec]
    omega

/-- A value found at some depth, followed by everything nested in it. -/
def preorder (depth : Nat) (r : Resource) : List (Nat × Resource) :=
  (depth, r) :: r.parts.attach.flatMap fun q => preorder (depth + 1) q.1
termination_by sizeOf r
decreasing_by exact sizeOf_lt_of_mem_parts q.2

/-- A value comes first, then its parts one level deeper. -/
theorem preorder_eq (depth : Nat) (r : Resource) :
    r.preorder depth = (depth, r) :: r.parts.flatMap (preorder (depth + 1)) := by
  rw [preorder]
  simp

theorem mem_preorder_self (depth : Nat) (r : Resource) : (depth, r) ∈ r.preorder depth := by
  rw [preorder_eq]
  exact List.mem_cons_self ..

/-- To prove something of all values, pass it from the parts of a value to the
value. -/
theorem parts_induction {motive : Resource → Prop}
    (step : ∀ r, (∀ q ∈ r.parts, motive q) → motive r) (r : Resource) : motive r := by
  induction hsize : sizeOf r using Nat.strongRecOn generalizing r with
  | ind size ih =>
    subst hsize
    exact step r fun q hq => ih _ (sizeOf_lt_of_mem_parts hq) q rfl

/-- Below a value everything is smaller. -/
theorem eq_or_lt_of_mem_preorder {r : Resource} :
    ∀ {depth : Nat} {p : Nat × Resource}, p ∈ r.preorder depth →
      p.2 = r ∨ sizeOf p.2 < sizeOf r := by
  induction r using parts_induction with
  | step r ih =>
    intro depth p hp
    rw [preorder_eq, List.mem_cons, List.mem_flatMap] at hp
    rcases hp with rfl | ⟨q, hq, hp⟩
    · exact Or.inl rfl
    · have hlt : sizeOf q < sizeOf r := sizeOf_lt_of_mem_parts hq
      rcases ih q hq hp with heq | hsmall
      · exact Or.inr (by rw [heq]; exact hlt)
      · exact Or.inr (by omega)

/-- Wherever a value is found, its parts are found one level deeper. -/
theorem mem_preorder_of_mem_parts {r : Resource} :
    ∀ {depth : Nat} {p : Nat × Resource} {q : Resource}, p ∈ r.preorder depth → q ∈ p.2.parts →
      (p.1 + 1, q) ∈ r.preorder depth := by
  induction r using parts_induction with
  | step r ih =>
    intro depth p q hp hq
    rw [preorder_eq, List.mem_cons, List.mem_flatMap] at hp
    rw [preorder_eq, List.mem_cons, List.mem_flatMap]
    rcases hp with rfl | ⟨r', hr', hp⟩
    · exact Or.inr ⟨q, hq, mem_preorder_self ..⟩
    · exact Or.inr ⟨r', hr', ih r' hr' hp hq⟩

/-! ## Slots -/

/-- The class under which a value is written. -/
def declaration : Resource → ClassDeclaration
  | staticProperty (.mappingNary _) => (Entity.declarations MappingPropertyNary).head (List.cons_ne_nil _ _)
  | staticProperty (.mappingUnary _) => (Entity.declarations MappingPropertyUnary).head (List.cons_ne_nil _ _)
  | staticProperty (.freeText _) => (Entity.declarations FreeTextStaticProperty).head (List.cons_ne_nil _ _)
  | rule (.addNested _) => (Entity.declarations AddNestedRule).head (List.cons_ne_nil _ _)
  | rule (.rename _) => (Entity.declarations RenameRule).head (List.cons_ne_nil _ _)
  | rule (.delete _) => (Entity.declarations DeleteRule).head (List.cons_ne_nil _ _)
  | property (.primitive _) => (Entity.declarations EventPropertyPrimitive).head (List.cons_ne_nil _ _)
  | property (.nested ..) => (Entity.declarations EventPropertyNested).head (List.cons_ne_nil _ _)
  | property (.list ..) => (Entity.declarations EventPropertyList).head (List.cons_ne_nil _ _)
  | schema _ => (Entity.declarations EventSchema).head (List.cons_ne_nil _ _)
  | dataSet _ => (Entity.declarations DataSetDescription).head (List.cons_ne_nil _ _)
  | invocation _ => (Entity.declarations PipelineTemplateInvocation).head (List.cons_ne_nil _ _)

/-- What a value has in the fields of its class, in the same order. -/
def values : Resource → List (Option Value)
  | staticProperty (.mappingNary p) => info p.info ++ [p.requirementSelector.map .str,
      some (.strs p.mapsFromOptions), p.propertyScope.map .str, some (.strs p.selectedProperties)]
  | staticProperty (.mappingUnary p) => info p.info ++ [p.requirementSelector.map .str,
      some (.strs p.mapsFromOptions), p.propertyScope.map .str, p.selectedProperty.map .str]
  | staticProperty (.freeText p) => info p.info ++ [p.value.map .str, p.requiredDatatype.map .str]
  | rule (.addNested r) => [some (.str r.id), some (.str r.runtimeKey)]
  | rule (.rename r) => [some (.str r.id), some (.str r.oldRuntimeKey), some (.str r.newRuntimeKey)]
  | rule (.delete r) => [some (.str r.id), some (.str r.runtimeKey)]
  | property (.primitive p) => shared p.info ++ [p.runtimeType.map .str,
      some (.strs p.domainProperties)]
  | property (.nested i l) => shared i ++ [some (.entities (l.map EventProperty.toInstance))]
  | property (.list i p?) => shared i ++ [p?.map fun p => .entity p.toInstance]
  | schema s => [some (.str s.id), some (.entities (s.eventProperties.map EventProperty.toInstance))]
  | dataSet d => [some (.str d.id), d.label.map .str, d.description.map .str,
      d.eventSchema.map fun s => .entity (Entity.toInstance s)]
  | invocation p => [some (.str p.id), p.name.map .str, p.dataSetId.map .str,
      p.pipelineTemplateId.map .str, some (.entities (p.staticProperties.map Entity.toInstance))]
where
  info (i : StaticPropertyInfo) : List (Option Value) := [some (.str i.id), i.elementName.map .str,
    i.label.map .str, i.description.map .str, i.internalName.map .str]
  shared (i : EventPropertyInfo) : List (Option Value) := [some (.str i.id),
    i.runtimeName.map .str, i.label.map .str, i.description.map .str]

/-- The fields of the class with what the value has in them. -/
def slots (r : Resource) : List Slot := r.declaration.fields.zip r.values

/-- Each value is written under one of the declared classes. -/
theorem declaration_mem (r : Resource) : r.declaration ∈ declarations := by
  match r with
  | staticProperty (.mappingNary _) | staticProperty (.mappingUnary _)
  | staticProperty (.freeText _) | rule (.addNested _) | rule (.rename _) | rule (.delete _)
  | property (.primitive _) | property (.nested ..) | property (.list ..) | schema _ | dataSet _
  | invocation _ => simp [declaration, declarations, Entity.declarations]

/-- Writing a value sets the fields of its class, one after the other, to what the value
has in them. From here on the kinds need not be told apart. -/
theorem toInstance_eq (r : Resource) : r.toInstance = ofSlots r.declaration.name r.slots := by
  match r with
  | staticProperty (.mappingNary _) | staticProperty (.mappingUnary _)
  | staticProperty (.freeText _) | rule (.addNested _) | rule (.rename _) | rule (.delete _)
  | property (.primitive _) | property (.nested ..) | property (.list _ none)
  | property (.list _ (some _)) | schema _ | dataSet ⟨_, _, _, none⟩ | dataSet ⟨_, _, _, some _⟩ =>
    simp only [toInstance, Entity.toInstance, StaticPropertyInfo.toInstance,
      EventPropertyInfo.toInstance, EventProperty.toInstance, EventProperty.toInstances_eq_map,
      setStr?_eq]
    rfl
  | invocation ⟨id, name, data, template, l⟩ =>
    -- the instances of the parts stay folded
    show (((((new "PipelineTemplateInvocation").set "id" (.str id)).setStr? "name" name).setStr?
      "dataSetId" data).setStr? "pipelineTemplateId" template).set "staticProperties"
        (.entities (l.map Entity.toInstance)) = _
    simp only [setStr?_eq]
    rfl

/-- What a value has in a field is of the sort that the field declares. -/
theorem follows (r : Resource) : Follows r.slots r.declaration := by
  refine Follows.zip (c := r.declaration) ?_
  match r with
  | staticProperty (.mappingNary _) | staticProperty (.mappingUnary _)
  | staticProperty (.freeText _) | rule (.addNested _) | rule (.rename _) | rule (.delete _)
  | property (.primitive _) | property (.nested ..) | property (.list ..) | schema _ | dataSet _
  | invocation _ =>
    simp [values, values.info, values.shared, declaration, Entity.declarations,
      StaticPropertyInfo.declarations, EventPropertyInfo.declarations, FieldDeclaration.Admits,
      FieldDeclaration.identity, FieldDeclaration.literal, FieldDeclaration.literals,
      FieldDeclaration.entity, FieldDeclaration.entities]

/-- The id of a value is what its identity field holds. -/
theorem identity_mem_slots (r : Resource) : (.identity "id", some (.str r.id)) ∈ r.slots := by
  match r with
  | staticProperty (.mappingNary _) | staticProperty (.mappingUnary _)
  | staticProperty (.freeText _) | rule (.addNested _) | rule (.rename _) | rule (.delete _)
  | property (.primitive _) | property (.nested ..) | property (.list ..) | schema _ | dataSet _
  | invocation _ => exact List.mem_cons_self ..

/-- The instances nested in the slots of a value are those of its parts, in the same
order. -/
theorem nestedInSlots_slots (r : Resource) : nestedInSlots r.slots = r.parts.map toInstance := by
  match r with
  | staticProperty (.mappingNary _) | staticProperty (.mappingUnary _)
  | staticProperty (.freeText _) | rule (.addNested _) | rule (.rename _) | rule (.delete _)
  | property (.primitive _) | property (.nested ..) | property (.list _ none)
  | property (.list _ (some _)) | schema _ | dataSet ⟨_, _, _, none⟩ | dataSet ⟨_, _, _, some _⟩
  | invocation _ =>
    -- of the texts nothing is left, and of the parts their instances
    simp only [nestedInSlots, slots, values, values.info, values.shared, declaration,
      Entity.declarations, StaticPropertyInfo.declarations, EventPropertyInfo.declarations,
      List.head_cons, List.cons_append, List.nil_append, List.zip_cons_cons, List.zip_nil_left,
      List.flatMap_cons, List.flatMap_nil, nestedInOption_str, parts]
    simp [nestedInOption, Value.nested, Function.comp_def, toInstance]

/-! ## The same tree -/

theorem className_toInstance (r : Resource) : r.toInstance.className = r.declaration.name := by
  rw [toInstance_eq, className_ofSlots]

/-- The instance of a value is canonical, with all that is nested in it. -/
theorem canonical_toInstance (r : Resource) : r.toInstance.Canonical := by
  induction r using parts_induction with
  | step r ih =>
    rw [toInstance_eq]
    refine canonical_ofSlots _ fun c hc => ?_
    rw [nestedInSlots_slots] at hc
    obtain ⟨q, hq, rfl⟩ := List.mem_map.mp hc
    exact ih q hq

section Registered

variable {R : Registry} (hR : R.Coherent) (hM : ∀ c ∈ declarations, R.Declares c)
include hR hM

/-- A value with an id that is not empty has it as its subject. -/
theorem subjectOf_toInstance {r : Resource} (hid : r.id ≠ "") :
    R.subjectOf r.toInstance = .ok r.id := by
  rw [toInstance_eq]
  exact Registry.subjectOf_ofSlots hR (hM _ r.declaration_mem) r.follows r.identity_mem_slots hid

/-- A registry of the data model finds the parts of a value in its instance. -/
theorem nested_toInstance (r : Resource) : R.nested r.toInstance = r.parts.map toInstance := by
  rw [toInstance_eq, Registry.nested_ofSlots hR (hM _ r.declaration_mem) r.follows,
    nestedInSlots_slots]

/-- The instance of a value is a tree of the same shape: walking it gives the instances
of what walking the value gives, at the same depths. -/
theorem preorder_toInstance (r : Resource) : ∀ depth,
    R.preorder depth r.toInstance = (r.preorder depth).map fun p => (p.1, p.2.toInstance) := by
  induction r using parts_induction with
  | step r ih =>
    intro depth
    have hparts : r.parts.flatMap (fun q => R.preorder (depth + 1) q.toInstance) =
        r.parts.flatMap fun q => (q.preorder (depth + 1)).map fun p => (p.1, p.2.toInstance) :=
      List.flatMap_congr fun q hq => ih q hq (depth + 1)
    rw [Registry.preorder_eq, preorder_eq, nested_toInstance hR hM, List.flatMap_map, hparts,
      List.map_cons, List.map_flatMap]

/-- The instance of a value holds as many instances as there are values in the value. -/
theorem count_toInstance (r : Resource) : ∀ depth,
    r.toInstance.count = (r.preorder depth).length := by
  induction r using parts_induction with
  | step r ih =>
    intro depth
    have hfill : r.toInstance.count = 1 + countAll (nestedInSlots r.slots) := by
      rw [toInstance_eq]
      exact Registry.count_ofSlots hR (hM _ r.declaration_mem) r.follows
    -- both sides are sums over the parts
    have hparts : ∀ l : List Resource, (∀ q ∈ l, q ∈ r.parts) →
        countAll (l.map toInstance) = (l.flatMap (preorder (depth + 1))).length := by
      intro l hl
      induction l with
      | nil => rfl
      | cons q rest ihrest =>
        obtain ⟨hq, hrest⟩ := List.forall_mem_cons.mp hl
        rw [List.map_cons, countAll, ih q hq (depth + 1), ihrest hrest, List.flatMap_cons,
          List.length_append]
    rw [hfill, nestedInSlots_slots, hparts r.parts fun _ h => h, preorder_eq, List.length_cons]
    omega

/-- All that is written is declared, so pruning takes nothing away. -/
theorem prune_toInstance (r : Resource) : R.prune r.toInstance = r.toInstance := by
  induction r using parts_induction with
  | step r ih =>
    rw [toInstance_eq]
    refine Registry.prune_ofSlots hR (hM _ r.declaration_mem) r.follows fun c hc => ?_
    rw [nestedInSlots_slots] at hc
    obtain ⟨q, hq, rfl⟩ := List.mem_map.mp hc
    exact ⟨canonical_toInstance q, ih q hq⟩

/-- A value has a block when its parts have subjects. -/
theorem exists_blockOf_toInstance {r : Resource} (hid : r.id ≠ "")
    (hparts : ∀ q ∈ r.parts, q.id ≠ "") : ∃ b, R.blockOf r.toInstance = .ok b := by
  have hclass := hM _ r.declaration_mem
  have hsubject := subjectOf_toInstance hR hM hid
  obtain ⟨d, hd, hs⟩ := Registry.subjectOf_eq_ok.mp hsubject
  obtain rfl : r.declaration.descriptor R.context = d := by
    rw [className_toInstance, hclass] at hd
    exact Option.some.inj hd
  refine ⟨_, Registry.blockOf_eq_ok.mpr ⟨_, r.id, hd, hs, ?_, rfl⟩⟩
  rw [toInstance_eq]
  refine Registry.fits_ofSlots hR hclass r.follows fun c hc => ?_
  rw [nestedInSlots_slots] at hc
  obtain ⟨q, hq, rfl⟩ := List.mem_map.mp hc
  exact ⟨q.id, subjectOf_toInstance hR hM (hparts q hq)⟩

end Registered

end Resource

/-! ## Types of values -/

/-- The types of the data model: every kind of value, and the families of kinds. -/
inductive Kind where
  | mappingNary | mappingUnary | freeText | staticProperty
  | addNested | rename | delete | rule
  | primitive | nested | list | property
  | schema | dataSet | invocation
deriving DecidableEq, Repr

namespace Kind

/-- The values of a type. -/
def Carrier : Kind → Type
  | mappingNary => MappingPropertyNary
  | mappingUnary => MappingPropertyUnary
  | freeText => FreeTextStaticProperty
  | staticProperty => StaticProperty
  | addNested => AddNestedRule
  | rename => RenameRule
  | delete => DeleteRule
  | rule => TransformationRule
  | primitive => EventPropertyPrimitive
  | nested => EventPropertyNested
  | list => EventPropertyList
  | property => EventProperty
  | schema => EventSchema
  | dataSet => DataSetDescription
  | invocation => PipelineTemplateInvocation

instance (k : Kind) : Entity k.Carrier :=
  match k with
  | mappingNary => inferInstanceAs (Entity MappingPropertyNary)
  | mappingUnary => inferInstanceAs (Entity MappingPropertyUnary)
  | freeText => inferInstanceAs (Entity FreeTextStaticProperty)
  | staticProperty => inferInstanceAs (Entity StaticProperty)
  | addNested => inferInstanceAs (Entity AddNestedRule)
  | rename => inferInstanceAs (Entity RenameRule)
  | delete => inferInstanceAs (Entity DeleteRule)
  | rule => inferInstanceAs (Entity TransformationRule)
  | primitive => inferInstanceAs (Entity EventPropertyPrimitive)
  | nested => inferInstanceAs (Entity EventPropertyNested)
  | list => inferInstanceAs (Entity EventPropertyList)
  | property => inferInstanceAs (Entity EventProperty)
  | schema => inferInstanceAs (Entity EventSchema)
  | dataSet => inferInstanceAs (Entity DataSetDescription)
  | invocation => inferInstanceAs (Entity PipelineTemplateInvocation)

/-- A value of a type as a resource. -/
def resource : (k : Kind) → k.Carrier → Resource
  | mappingNary, p => .staticProperty (.mappingNary p)
  | mappingUnary, p => .staticProperty (.mappingUnary p)
  | freeText, p => .staticProperty (.freeText p)
  | staticProperty, p => .staticProperty p
  | addNested, r => .rule (.addNested r)
  | rename, r => .rule (.rename r)
  | delete, r => .rule (.delete r)
  | rule, r => .rule r
  | primitive, p => .property (.primitive p)
  | nested, p => .property (.nested p.info p.eventProperties)
  | list, p => .property (.list p.info p.eventProperty)
  | property, p => .property p
  | schema, s => .schema s
  | dataSet, d => .dataSet d
  | invocation, p => .invocation p

/-- As a resource a value is written as it is by itself. -/
theorem toInstance_resource (k : Kind) (v : k.Carrier) :
    (k.resource v).toInstance = Entity.toInstance v := by
  cases k <;> rfl

/-- A value of any type is read back from its instance as it was. -/
theorem ofInstance_toInstance (k : Kind) (v : k.Carrier) :
    Entity.ofInstance (Entity.toInstance v) = .ok v := by
  cases k with
  | mappingNary => exact MappingPropertyNary.ofInstance_toInstance v
  | mappingUnary => exact MappingPropertyUnary.ofInstance_toInstance v
  | freeText => exact FreeTextStaticProperty.ofInstance_toInstance v
  | staticProperty => exact StaticProperty.ofInstance_toInstance v
  | addNested => exact AddNestedRule.ofInstance_toInstance v
  | rename => exact RenameRule.ofInstance_toInstance v
  | delete => exact DeleteRule.ofInstance_toInstance v
  | rule => exact TransformationRule.ofInstance_toInstance v
  | primitive => exact EventPropertyPrimitive.ofInstance_toInstance v
  | nested => exact EventPropertyNested.ofInstance_toInstance v
  | list => exact EventPropertyList.ofInstance_toInstance v
  | property => exact EventProperty.ofInstance_toInstance v
  | schema => exact EventSchema.ofInstance_toInstance v
  | dataSet => exact DataSetDescription.ofInstance_toInstance v
  | invocation => exact PipelineTemplateInvocation.ofInstance_toInstance v

end Kind

end EntityRdf.Model

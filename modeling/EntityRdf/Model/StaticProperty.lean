import EntityRdf.Model.Entity
import EntityRdf.Vocabulary

/-!
# Static properties: the configuration slots of a pipeline element

The kinds share an identity and four optional texts. `StaticProperty` is the
family of all kinds; its reader goes by the class of the instance.
-/

namespace EntityRdf.Model

/-- What every kind of static property has. -/
structure StaticPropertyInfo where
  id : String
  elementName : Option String
  label : Option String
  description : Option String
  /-- The name that the runtime of the element uses. -/
  internalName : Option String
deriving DecidableEq, Repr

namespace StaticPropertyInfo

/-- The shared part with an identity only. -/
def new (id : String) : StaticPropertyInfo := ⟨id, none, none, none, none⟩

/-- The declarations of the shared fields. -/
def declarations : List FieldDeclaration := [
  .identity "id",
  .literal "elementName" "sp:elementName",
  .literal "label" Vocabulary.rdfsLabel,
  .literal "description" Vocabulary.rdfsDescription,
  .literal "internalName" "sp:internalName"]

/-- An instance of a class with the shared fields. -/
def toInstance (className : String) (i : StaticPropertyInfo) : Instance :=
  (Instance.new className).set "id" (.str i.id)
    |>.setStr? "elementName" i.elementName
    |>.setStr? "label" i.label
    |>.setStr? "description" i.description
    |>.setStr? "internalName" i.internalName

/-- The shared fields of an instance. -/
def ofInstance (e : Instance) : Except MappingError StaticPropertyInfo := do
  return ⟨← e.readString "id", ← e.readString? "elementName", ← e.readString? "label",
    ← e.readString? "description", ← e.readString? "internalName"⟩

end StaticPropertyInfo

/-- Maps any number of event properties onto one slot. -/
structure MappingPropertyNary where
  info : StaticPropertyInfo
  /-- The stream requirement that the mapping draws from. -/
  requirementSelector : Option String
  /-- The runtime names to choose from. -/
  mapsFromOptions : List String
  propertyScope : Option String
  /-- The selected runtime names. -/
  selectedProperties : List String
deriving DecidableEq, Repr

/-- A mapping with an identity only. -/
def MappingPropertyNary.new (id : String) : MappingPropertyNary := ⟨.new id, none, [], none, []⟩

instance : Entity MappingPropertyNary where
  declarations := [⟨"MappingPropertyNary", "sp:MappingPropertyNary",
    StaticPropertyInfo.declarations ++ [
      .literal "requirementSelector" "sp:mapsFrom",
      .literals "mapsFromOptions" "sp:mapsFromOptions",
      .literal "propertyScope" "sp:hasPropertyScope",
      .literals "selectedProperties" "sp:mapsTo"]⟩]
  toInstance p := (p.info.toInstance "MappingPropertyNary")
    |>.setStr? "requirementSelector" p.requirementSelector
    |>.set "mapsFromOptions" (.strs p.mapsFromOptions)
    |>.setStr? "propertyScope" p.propertyScope
    |>.set "selectedProperties" (.strs p.selectedProperties)
  ofInstance e := do
    e.expectClass "MappingPropertyNary"
    return ⟨← StaticPropertyInfo.ofInstance e, ← e.readString? "requirementSelector",
      ← e.readStrings "mapsFromOptions", ← e.readString? "propertyScope",
      ← e.readStrings "selectedProperties"⟩

/-- Maps one event property onto a slot. -/
structure MappingPropertyUnary where
  info : StaticPropertyInfo
  /-- The stream requirement that the mapping draws from. -/
  requirementSelector : Option String
  /-- The runtime names to choose from. -/
  mapsFromOptions : List String
  propertyScope : Option String
  /-- The selected runtime name. -/
  selectedProperty : Option String
deriving DecidableEq, Repr

instance : Entity MappingPropertyUnary where
  declarations := [⟨"MappingPropertyUnary", "sp:MappingPropertyUnary",
    StaticPropertyInfo.declarations ++ [
      .literal "requirementSelector" "sp:mapsFrom",
      .literals "mapsFromOptions" "sp:mapsFromOptions",
      .literal "propertyScope" "sp:hasPropertyScope",
      .literal "selectedProperty" "sp:mapsTo"]⟩]
  toInstance p := (p.info.toInstance "MappingPropertyUnary")
    |>.setStr? "requirementSelector" p.requirementSelector
    |>.set "mapsFromOptions" (.strs p.mapsFromOptions)
    |>.setStr? "propertyScope" p.propertyScope
    |>.setStr? "selectedProperty" p.selectedProperty
  ofInstance e := do
    e.expectClass "MappingPropertyUnary"
    return ⟨← StaticPropertyInfo.ofInstance e, ← e.readString? "requirementSelector",
      ← e.readStrings "mapsFromOptions", ← e.readString? "propertyScope",
      ← e.readString? "selectedProperty"⟩

/-- A slot for free text. -/
structure FreeTextStaticProperty where
  info : StaticPropertyInfo
  value : Option String
  /-- The datatype that the text must have. -/
  requiredDatatype : Option String
deriving DecidableEq, Repr

instance : Entity FreeTextStaticProperty where
  declarations := [⟨"FreeTextStaticProperty", "sp:FreeTextStaticProperty",
    StaticPropertyInfo.declarations ++ [
      .literal "value" "sp:hasValue",
      .literal "requiredDatatype" "sp:requiredDatatype"]⟩]
  toInstance p := (p.info.toInstance "FreeTextStaticProperty")
    |>.setStr? "value" p.value
    |>.setStr? "requiredDatatype" p.requiredDatatype
  ofInstance e := do
    e.expectClass "FreeTextStaticProperty"
    return ⟨← StaticPropertyInfo.ofInstance e, ← e.readString? "value",
      ← e.readString? "requiredDatatype"⟩

/-- Every kind of static property. -/
inductive StaticProperty where
  | mappingNary (p : MappingPropertyNary)
  | mappingUnary (p : MappingPropertyUnary)
  | freeText (p : FreeTextStaticProperty)
deriving DecidableEq, Repr

/-- The shared part of whichever kind it is. -/
def StaticProperty.info : StaticProperty → StaticPropertyInfo
  | .mappingNary p => p.info
  | .mappingUnary p => p.info
  | .freeText p => p.info

instance : Entity StaticProperty where
  declarations := Entity.declarations MappingPropertyNary ++
    Entity.declarations MappingPropertyUnary ++ Entity.declarations FreeTextStaticProperty
  toInstance
    | .mappingNary p => Entity.toInstance p
    | .mappingUnary p => Entity.toInstance p
    | .freeText p => Entity.toInstance p
  ofInstance e :=
    match e.className with
    | "MappingPropertyNary" => .mappingNary <$> Entity.ofInstance e
    | "MappingPropertyUnary" => .mappingUnary <$> Entity.ofInstance e
    | "FreeTextStaticProperty" => .freeText <$> Entity.ofInstance e
    | other => .error (.wrongField other "" .notStaticProperty)

end EntityRdf.Model

import EntityRdf.Model.Entity
import EntityRdf.Model.Identity
import EntityRdf.Vocabulary

/-!
# Event properties: the tree of a schema

An event property is a leaf with a runtime value, a group of properties, or a
list with the property of its elements. Groups and lists are read by recursion
on the instance; `EventPropertyNested` and `EventPropertyList` are the two
recursive kinds on their own.
-/

namespace EntityRdf.Model

/-- What every kind of event property has. -/
structure EventPropertyInfo where
  id : String
  /-- The key in runtime events. -/
  runtimeName : Option String
  label : Option String
  description : Option String
deriving DecidableEq, Repr

namespace EventPropertyInfo

/-- The declarations of the shared fields. -/
def declarations : List FieldDeclaration := [
  .identity "id",
  .literal "runtimeName" "sp:hasRuntimeName",
  .literal "label" Vocabulary.rdfsLabel,
  .literal "description" Vocabulary.rdfsDescription]

/-- An instance of a class with the shared fields. -/
def toInstance (className : String) (i : EventPropertyInfo) : Instance :=
  (Instance.new className).set "id" (.str i.id)
    |>.setStr? "runtimeName" i.runtimeName
    |>.setStr? "label" i.label
    |>.setStr? "description" i.description

/-- The shared fields of an instance. -/
def ofInstance (e : Instance) : Except MappingError EventPropertyInfo := do
  return ⟨← e.readString "id", ← e.readString? "runtimeName", ← e.readString? "label",
    ← e.readString? "description"⟩

end EventPropertyInfo

/-- A leaf that carries a runtime value. -/
structure EventPropertyPrimitive where
  info : EventPropertyInfo
  runtimeType : Option String
  domainProperties : List String
deriving DecidableEq, Repr

/-- A leaf with a new identity. -/
def EventPropertyPrimitive.new (bits : RandomBits) (runtimeName : Option String) :
    EventPropertyPrimitive :=
  ⟨⟨mint "urn:streampipes.org:spi:eventpropertyprimitive:" bits, runtimeName, none, none⟩, none, []⟩

instance : Entity EventPropertyPrimitive where
  declarations := [⟨"EventPropertyPrimitive", "sp:EventPropertyPrimitive",
    EventPropertyInfo.declarations ++ [
      .literal "runtimeType" "sp:hasRuntimeType",
      .literals "domainProperties" "sp:domainProperty"]⟩]
  toInstance p := (p.info.toInstance "EventPropertyPrimitive")
    |>.setStr? "runtimeType" p.runtimeType
    |>.set "domainProperties" (.strs p.domainProperties)
  ofInstance e := do
    e.expectClass "EventPropertyPrimitive"
    return ⟨← EventPropertyInfo.ofInstance e, ← e.readString? "runtimeType",
      ← e.readStrings "domainProperties"⟩

/-- Every kind of event property. -/
inductive EventProperty where
  | primitive (p : EventPropertyPrimitive)
  /-- A group of properties in display order. -/
  | nested (info : EventPropertyInfo) (eventProperties : List EventProperty)
  /-- A list, with the property of its elements. -/
  | list (info : EventPropertyInfo) (eventProperty : Option EventProperty)
deriving Repr

namespace EventProperty

instance : Inhabited EventProperty := ⟨.list ⟨"", none, none, none⟩ none⟩

/-- The identity of whichever kind it is. -/
def id : EventProperty → String
  | .primitive p => p.info.id
  | .nested info _ => info.id
  | .list info _ => info.id

/-- The runtime name of whichever kind it is. -/
def runtimeName : EventProperty → Option String
  | .primitive p => p.info.runtimeName
  | .nested info _ => info.runtimeName
  | .list info _ => info.runtimeName

mutual

/-- The instance of a property. -/
def toInstance : EventProperty → Instance
  | .primitive p => Entity.toInstance p
  | .nested info l => (info.toInstance "EventPropertyNested")
    |>.set "eventProperties" (.entities (toInstances l))
  | .list info none => info.toInstance "EventPropertyList"
  | .list info (some p) => (info.toInstance "EventPropertyList")
    |>.set "eventProperty" (.entity (toInstance p))

/-- The instances of several properties. -/
def toInstances : List EventProperty → List Instance
  | [] => []
  | p :: l => toInstance p :: toInstances l

end

/-- Event properties are written one by one. -/
theorem toInstances_eq_map (l : List EventProperty) : toInstances l = l.map toInstance := by
  induction l with
  | nil => rfl
  | cons p l ih => simp [toInstances, ih]

/-- The property of an instance. -/
def ofInstance (e : Instance) : Except MappingError EventProperty :=
  match e.className with
  | "EventPropertyPrimitive" => .primitive <$> Entity.ofInstance e
  | "EventPropertyNested" => do
    return .nested (← EventPropertyInfo.ofInstance e)
      (← e.readEntities "eventProperties" fun c _ => ofInstance c)
  | "EventPropertyList" => do
    return .list (← EventPropertyInfo.ofInstance e)
      (← e.readEntity? "eventProperty" fun c _ => ofInstance c)
  | other => .error (.wrongField other "" .notEventProperty)
termination_by sizeOf e

mutual

/-- Decides equality of properties. -/
def decEq : (a b : EventProperty) → Decidable (a = b)
  | .primitive p, .primitive q =>
    if h : p = q then .isTrue (h ▸ rfl) else .isFalse (by simp [h])
  | .nested i l, .nested j m =>
    if h : i = j then
      match decEqList l m with
      | .isTrue h' => .isTrue (h ▸ h' ▸ rfl)
      | .isFalse h' => .isFalse (by simp [h'])
    else .isFalse (by simp [h])
  | .list i none, .list j none =>
    if h : i = j then .isTrue (h ▸ rfl) else .isFalse (by simp [h])
  | .list i (some p), .list j (some q) =>
    if h : i = j then
      match decEq p q with
      | .isTrue h' => .isTrue (h ▸ h' ▸ rfl)
      | .isFalse h' => .isFalse (by simp [h'])
    else .isFalse (by simp [h])
  | .list _ none, .list _ (some _) | .list _ (some _), .list _ none => .isFalse (by simp)
  | .primitive _, .nested _ _ | .primitive _, .list _ _ | .nested _ _, .primitive _
  | .nested _ _, .list _ _ | .list _ _, .primitive _ | .list _ _, .nested _ _ =>
    .isFalse (by simp)

/-- Decides equality of sequences of properties. -/
def decEqList : (a b : List EventProperty) → Decidable (a = b)
  | [], [] => .isTrue rfl
  | [], _ :: _ | _ :: _, [] => .isFalse (by simp)
  | p :: l, q :: m =>
    match decEq p q with
    | .isFalse h => .isFalse (by simp [h])
    | .isTrue h =>
      match decEqList l m with
      | .isTrue h' => .isTrue (h ▸ h' ▸ rfl)
      | .isFalse h' => .isFalse (by simp [h'])

end

instance : DecidableEq EventProperty := decEq

end EventProperty

/-- A group of properties. -/
structure EventPropertyNested where
  info : EventPropertyInfo
  eventProperties : List EventProperty
deriving DecidableEq, Repr

/-- An empty group with a new identity. -/
def EventPropertyNested.new (bits : RandomBits) (runtimeName : Option String) :
    EventPropertyNested :=
  ⟨⟨mint "urn:streampipes.org:spi:eventpropertynested:" bits, runtimeName, none, none⟩, []⟩

/-- A list of values of one property. -/
structure EventPropertyList where
  info : EventPropertyInfo
  eventProperty : Option EventProperty
deriving DecidableEq, Repr

instance : Entity EventPropertyNested where
  declarations := [⟨"EventPropertyNested", "sp:EventPropertyNested",
    EventPropertyInfo.declarations ++ [.entities "eventProperties" "sp:hasEventProperty"]⟩]
  toInstance p := EventProperty.toInstance (.nested p.info p.eventProperties)
  ofInstance e := do
    e.expectClass "EventPropertyNested"
    return ⟨← EventPropertyInfo.ofInstance e,
      ← e.readEntities "eventProperties" fun c _ => EventProperty.ofInstance c⟩

instance : Entity EventPropertyList where
  declarations := [⟨"EventPropertyList", "sp:EventPropertyList",
    EventPropertyInfo.declarations ++ [.entity "eventProperty" "sp:hasEventProperty"]⟩]
  toInstance p := EventProperty.toInstance (.list p.info p.eventProperty)
  ofInstance e := do
    e.expectClass "EventPropertyList"
    return ⟨← EventPropertyInfo.ofInstance e,
      ← e.readEntity? "eventProperty" fun c _ => EventProperty.ofInstance c⟩

instance : Entity EventProperty where
  declarations := Entity.declarations EventPropertyPrimitive ++
    Entity.declarations EventPropertyNested ++ Entity.declarations EventPropertyList
  toInstance := EventProperty.toInstance
  ofInstance := EventProperty.ofInstance

end EntityRdf.Model

import EntityRdf.Model.EventProperty

/-!
# Event schemas

A schema lists the top-level event properties of a stream or data set. New
properties are appended under new identities.
-/

namespace EntityRdf.Model

/-- The schema of a stream or data set. -/
structure EventSchema where
  id : String
  /-- The top-level properties in display order. -/
  eventProperties : List EventProperty
deriving DecidableEq, Repr

namespace EventSchema

/-- An empty schema with a new identity. -/
def new (bits : RandomBits) : EventSchema := ⟨mint "urn:streampipes.org:spi:eventschema:" bits, []⟩

def add (s : EventSchema) (p : EventProperty) : EventSchema :=
  { s with eventProperties := s.eventProperties ++ [p] }

/-- Appends a leaf with a new identity, which is returned too. -/
def addPrimitive (s : EventSchema) (bits : RandomBits) : EventSchema × String :=
  let p := EventPropertyPrimitive.new bits none
  (s.add (.primitive p), p.info.id)

/-- Appends an empty group with a new identity, which is returned too. -/
def addNested (s : EventSchema) (bits : RandomBits) : EventSchema × String :=
  let p := EventPropertyNested.new bits none
  (s.add (.nested p.info p.eventProperties), p.info.id)

end EventSchema

instance : Entity EventSchema where
  declarations := [⟨"EventSchema", "sp:EventSchema", [
    .identity "id",
    .entities "eventProperties" "sp:hasEventProperty"]⟩]
  toInstance s := (Instance.new "EventSchema")
    |>.set "id" (.str s.id)
    |>.set "eventProperties" (.entities (s.eventProperties.map Entity.toInstance))
  ofInstance e := do
    e.expectClass "EventSchema"
    return ⟨← e.readString "id", ← e.readEntities "eventProperties" fun c _ => Entity.ofInstance c⟩

end EntityRdf.Model

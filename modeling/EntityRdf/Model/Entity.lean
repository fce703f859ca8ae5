import EntityRdf.Error
import EntityRdf.Instance
import EntityRdf.Schema

/-!
# Typed entities

A type of the data model is an `Entity`: it has declared classes, a form as an
instance, and a reader for such instances. A reader first checks the class and
then takes the fields in declaration order, so its error names the first field
that does not fit.
-/

namespace EntityRdf

/-- A type with declared classes whose values can be written as instances. -/
class Entity (α : Type) where
  /-- The classes of the type, in registration order. -/
  declarations : List ClassDeclaration
  toInstance : α → Instance
  ofInstance : Instance → Except MappingError α

namespace Instance

/-- Refuses an instance of another class. -/
def expectClass (e : Instance) (className : String) : Except MappingError Unit :=
  if e.className = className then .ok () else .error (.wrongField className "" .otherClass)

/-- The string of a field, if it is set. -/
def readString? (e : Instance) (field : String) : Except MappingError (Option String) :=
  match e.get? field with
  | none => .ok none
  | some (.str s) => .ok (some s)
  | some _ => .error (.wrongField e.className field .notString)

/-- The string of a field that must be set. -/
def readString (e : Instance) (field : String) : Except MappingError String := do
  match ← e.readString? field with
  | some s => .ok s
  | none => .error (.wrongField e.className field .missing)

/-- The strings of a field; an unset field has none. -/
def readStrings (e : Instance) (field : String) : Except MappingError (List String) :=
  match e.get? field with
  | none => .ok []
  | some (.strs l) => .ok l
  | some _ => .error (.wrongField e.className field .notStrings)

variable {α : Type}

/-- The entity of a field, if it is set. The reader learns that the nested
instance is smaller, so that it may be the caller itself. -/
def readEntity? (e : Instance) (field : String)
    (read : (c : Instance) → sizeOf c < sizeOf e → Except MappingError α) :
    Except MappingError (Option α) :=
  match h : e.get? field with
  | none => .ok none
  | some (.entity c) => do
    let a ← read c (Nat.lt_trans (sizeOf_lt_of_mem_nested (List.mem_singleton.mpr rfl))
      (sizeOf_lt_of_get? h))
    return some a
  | some (.str _) | some (.strs _) | some (.entities _) =>
    .error (.wrongField e.className field .notEntity)

/-- The entities of a field; an unset field has none. -/
def readEntities (e : Instance) (field : String)
    (read : (c : Instance) → sizeOf c < sizeOf e → Except MappingError α) :
    Except MappingError (List α) :=
  match h : e.get? field with
  | none => .ok []
  | some (.entities l) => l.attach.mapM fun c =>
    read c.1 (Nat.lt_trans (sizeOf_lt_of_mem_nested (v := .entities l) c.2) (sizeOf_lt_of_get? h))
  | some (.str _) | some (.strs _) | some (.entity _) =>
    .error (.wrongField e.className field .notEntities)

end Instance

end EntityRdf

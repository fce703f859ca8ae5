/-!
# Schemas: how the fields of a class map to predicates

A class has a semantic type tag and an ordered list of fields. One field may be
the identity, which holds the subject IRI; every other field maps to a
predicate with a range and a multiplicity. A `ClassDeclaration` is what an
author writes; a `ClassDescriptor` is what a registry records.
-/

namespace EntityRdf

/-- How many values a field holds. -/
inductive Multiplicity where
  | single
  | multi
deriving DecidableEq, Repr

/-- What kind of object a predicate points at. -/
inductive Range where
  | literal
  /-- Another entity, with a subject block of its own. -/
  | entity
deriving DecidableEq, Repr

/-- How a field appears in a document. -/
inductive Mapping where
  /-- The field holds the subject of the entity. -/
  | identity
  /-- The field is written under a predicate, spelled as declared. -/
  | predicate (iri : String) (range : Range)
deriving DecidableEq, Repr

/-- One field as its author declares it. -/
structure FieldDeclaration where
  name : String
  /-- The identity mark, or the predicate. -/
  mapping : Mapping
  multiplicity : Multiplicity
deriving DecidableEq, Repr

namespace FieldDeclaration

/-- The field that holds the subject. -/
def identity (name : String) : FieldDeclaration := ⟨name, .identity, .single⟩

def literal (name iri : String) : FieldDeclaration := ⟨name, .predicate iri .literal, .single⟩

/-- A field with a sequence of literals. -/
def literals (name iri : String) : FieldDeclaration := ⟨name, .predicate iri .literal, .multi⟩

/-- A field with one nested entity. -/
def entity (name iri : String) : FieldDeclaration := ⟨name, .predicate iri .entity, .single⟩

/-- A field with a sequence of nested entities. -/
def entities (name iri : String) : FieldDeclaration := ⟨name, .predicate iri .entity, .multi⟩

end FieldDeclaration

/-- One class as its author declares it. -/
structure ClassDeclaration where
  name : String
  /-- The semantic type tag, compact or absolute. -/
  tag : String
  fields : List FieldDeclaration
deriving DecidableEq, Repr

/-- One field as a registry records it. -/
structure FieldDescriptor extends FieldDeclaration where
  /-- The predicate in expanded form; none for the identity. -/
  expanded : Option String
deriving DecidableEq, Repr

namespace FieldDescriptor

/-- Whether the field holds the subject. -/
def isIdentity (f : FieldDescriptor) : Bool := f.mapping = .identity

def predicate? (f : FieldDescriptor) : Option String :=
  match f.mapping with
  | .identity => none
  | .predicate iri _ => some iri

/-- The kind of object the predicate points at. -/
def range? (f : FieldDescriptor) : Option Range :=
  match f.mapping with
  | .identity => none
  | .predicate _ range => some range

/-- The predicate as declared, or nothing for the identity. -/
def predicateText (f : FieldDescriptor) : String := f.predicate?.getD ""

end FieldDescriptor

/-- One class as a registry records it. -/
structure ClassDescriptor where
  name : String
  tag : String
  /-- The fields in registration order. -/
  fields : List FieldDescriptor
deriving DecidableEq, Repr

namespace ClassDescriptor

/-- The identity field, if one is declared. -/
def identity? (d : ClassDescriptor) : Option FieldDescriptor :=
  d.fields.find? (·.isIdentity)

/-- The field of a given name. -/
def field? (d : ClassDescriptor) (name : String) : Option FieldDescriptor :=
  d.fields.find? (·.name == name)

/-- The field mapped to a predicate given in expanded form. -/
def fieldForPredicate? (d : ClassDescriptor) (expanded : String) : Option FieldDescriptor :=
  d.fields.find? (·.expanded == some expanded)

/-- The fields other than the identity, in registration order. -/
def predicateFields (d : ClassDescriptor) : List FieldDescriptor :=
  d.fields.filter (!·.isIdentity)

end ClassDescriptor

end EntityRdf

import EntityRdf.Context
import EntityRdf.Error
import EntityRdf.Schema

/-!
# Registries of entity classes

A registry records, per class, its type tag and its fields, resolved against
one context. It grows by registrations, each of which names a class or adds one
field; a registration that would make a tag or a predicate ambiguous is
refused, and one that repeats what is recorded changes nothing.

A registration leaves a registry whether or not it is refused: it yields the
registry as it is afterwards, and the error of a refusal beside it.
-/

namespace EntityRdf

/-- The registered classes, with an index from expanded tags to class names. -/
structure Registry where
  /-- The context that resolves tags and predicates. -/
  context : Context
  classes : StringMap ClassDescriptor
  /-- The class that owns each expanded tag. -/
  owners : StringMap String
deriving DecidableEq, Repr

/-- One step of building a registry. -/
inductive Registration where
  /-- Names a class and its type tag. -/
  | classTag (className tag : String)
  | classField (className : String) (field : FieldDeclaration)
deriving DecidableEq, Repr

/-- The steps that register a declared class: its tag, then its fields. -/
def ClassDeclaration.registrations (c : ClassDeclaration) : List Registration :=
  .classTag c.name c.tag :: c.fields.map (.classField c.name)

namespace FieldDeclaration

/-- The predicate of a field in expanded form. -/
def expandedIn (ctx : Context) (f : FieldDeclaration) : Option String :=
  match f.mapping with
  | .identity => none
  | .predicate iri _ => some (ctx.expand iri)

end FieldDeclaration

/-- The field of a class that already plays the part a new field would play:
the identity, or the owner of the same expanded predicate. -/
def ClassDescriptor.rival? (d : ClassDescriptor) : Option String → Option FieldDescriptor
  | none => d.identity?
  | some predicate => d.fieldForPredicate? predicate

/-- Adds a field to a class, and yields the class as it is afterwards. A field
declared again in the same way changes nothing; declared in another way, or
taking a part that another field plays, it is refused. -/
def ClassDescriptor.addField (ctx : Context) (d : ClassDescriptor) (f : FieldDeclaration) :
    ClassDescriptor × Option MappingError :=
  match d.field? f.name with
  | some existing =>
    if existing.toFieldDeclaration = f then (d, none)
    else (d, some (.fieldConflict d.name f.name))
  | none =>
    match d.rival? (f.expandedIn ctx) with
    | some other =>
      match f.mapping with
      | .identity => (d, some (.secondIdentity d.name other.name f.name))
      | .predicate _ _ => (d, some (.fieldConflict d.name other.name))
    | none => ({ d with fields := d.fields ++ [⟨f, f.expandedIn ctx⟩] }, none)

namespace Registry

/-- The registry without classes. -/
def empty (ctx : Context) : Registry := ⟨ctx, .empty, .empty⟩

instance : Inhabited Registry := ⟨empty .streamPipes⟩

/-- Records the type tag of a class. -/
def registerClass (R : Registry) (className tag : String) : Registry × Option MappingError :=
  match R.classes.get? className with
  | some existing =>
    if existing.tag = tag then (R, none)
    else (R, some (.tagConflict className existing.tag tag))
  | none =>
    match R.owners.get? (R.context.expand tag) with
    | some owner => (R, some (.tagOwned className tag owner))
    | none =>
      ({ R with
        classes := R.classes.insert className ⟨className, tag, []⟩
        owners := R.owners.insert (R.context.expand tag) className }, none)

/-- Records one field of a class. The class is changed in place, so whatever
`addField` leaves of it is what the registry then holds. -/
def registerField (R : Registry) (className : String) (f : FieldDeclaration) :
    Registry × Option MappingError :=
  match R.classes.get? className with
  | none => (R, some (.unknownClass className))
  | some d =>
    match d.addField R.context f with
    | (d', refusal?) => ({ R with classes := R.classes.insert className d' }, refusal?)

/-- Carries out one registration. -/
def register (R : Registry) : Registration → Registry × Option MappingError
  | .classTag className tag => R.registerClass className tag
  | .classField className f => R.registerField className f

/-- Carries out registrations up to the first refused one; what came before it
stays. -/
def registerWhile (R : Registry) : List Registration → Registry × Option MappingError
  | [] => (R, none)
  | c :: cs =>
    match R.register c with
    | (R', none) => R'.registerWhile cs
    | (R', some e) => (R', some e)

/-- Carries out all registrations, or fails with the first refusal. -/
def registerAll (R : Registry) (cs : List Registration) : Except MappingError Registry :=
  match R.registerWhile cs with
  | (R', none) => .ok R'
  | (_, some e) => .error e

/-- The registry after a run of registrations, which goes on after a refused one
with whatever that has left. -/
def run (R : Registry) (cs : List Registration) : Registry :=
  cs.foldl (fun R c => (R.register c).1) R

def describe (R : Registry) (className : String) : Except MappingError ClassDescriptor :=
  match R.classes.get? className with
  | some d => .ok d
  | none => .error (.unknownClass className)

/-- The class that owns a type tag, compact or absolute. -/
def classForTag? (R : Registry) (tag : String) : Option ClassDescriptor :=
  (R.owners.get? (R.context.expand tag)).bind R.classes.get?

/-- All records, in order of class names. -/
def classList (R : Registry) : List ClassDescriptor := R.classes.values

def size (R : Registry) : Nat := R.classes.size

end Registry

end EntityRdf

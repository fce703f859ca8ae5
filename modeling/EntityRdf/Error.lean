/-!
# Errors of registration, encoding, decoding and typed reading

Each constructor of `MappingError` is one cause and carries what a reader of
the message needs to find it. The wording is in `MappingError.message` alone.
-/

namespace EntityRdf

/-- What a field should have held. -/
inductive Expected where
  | singleLiteral
  | literalSequence
  | literal
  | singleEntity
  | entitySequence
  | entity
  | reference
deriving DecidableEq, Repr

/-- The words for what was expected. -/
def Expected.message : Expected → String
  | .singleLiteral => "a single literal value"
  | .literalSequence => "a sequence of literal values"
  | .literal => "a literal value"
  | .singleEntity => "a single nested entity"
  | .entitySequence => "a sequence of nested entities"
  | .entity => "a nested entity"
  | .reference => "a reference to a nested entity"

/-- Why a field of an instance does not fit a typed value. -/
inductive FieldFault where
  | missing
  | notString
  | notStrings
  | notEntity
  | notEntities
  | otherClass
  | notStaticProperty
  | notTransformationRule
  | notEventProperty
deriving DecidableEq, Repr

/-- The words for a fault, to follow the name of the field. -/
def FieldFault.message : FieldFault → String
  | .missing => "is missing"
  | .notString => "is not a single string"
  | .notStrings => "is not a string sequence"
  | .notEntity => "is not a nested entity"
  | .notEntities => "is not a nested entity sequence"
  | .otherClass => "belongs to an instance of another class"
  | .notStaticProperty => "is not a static property kind"
  | .notTransformationRule => "is not a transformation rule kind"
  | .notEventProperty => "is not an event property kind"

/-- Why a registration, an encoding, a decoding or a typed reading failed. -/
inductive MappingError where
  /-- The class is registered with another tag. -/
  | tagConflict (className existing requested : String)
  /-- The tag belongs to another class. -/
  | tagOwned (className tag owner : String)
  /-- The class has an identity field already. -/
  | secondIdentity (className existing field : String)
  /-- The field, or the predicate it shares, is mapped differently already. -/
  | fieldConflict (className field : String)
  /-- The class is not registered. -/
  | unknownClass (className : String)
  /-- The instance has no usable subject. -/
  | missingIdentity (className field : String)
  /-- The block has no type. -/
  | missingType (subject : String)
  /-- No class owns a type of the block; the first one is named. -/
  | unknownType (subject tag : String)
  /-- The class of the block does not map the predicate. -/
  | unmappedPredicate (subject predicate className : String)
  /-- A field for one value has several. -/
  | tooManyValues (subject field predicate : String) (count : Nat)
  /-- The subject is reached again from itself along the path. -/
  | cycle (subject : String) (path : List String)
  /-- The nesting exceeds the limit. -/
  | tooDeep (subject : String) (limit : Nat)
  /-- Decoding builds more entities than the limit. -/
  | tooManyEntities (subject : String) (limit : Nat)
  /-- Two different entities share a subject. -/
  | duplicateSubject (subject : String)
  /-- The value does not have the shape its field asks for. -/
  | wrongObject (subject field : String) (expected : Expected)
  /-- The reference names no block of the document. -/
  | unresolvedReference (subject field target : String)
  /-- A field of an instance does not fit the typed value. -/
  | wrongField (className field : String) (fault : FieldFault)
deriving DecidableEq, Repr

/-- The text of an error. -/
def MappingError.message : MappingError → String
  | .tagConflict className existing requested =>
    s!"class `{className}` is already registered with type tag `{existing}` " ++
      s!"(requested `{requested}`)"
  | .tagOwned className tag owner =>
    s!"class `{className}` is already registered with type tag " ++
      s!"`{tag} (owned by `{owner}`)` (requested `{tag}`)"
  | .secondIdentity className existing field =>
    s!"class `{className}` already has identity field `{existing}`; cannot add `{field}`"
  | .fieldConflict className field =>
    s!"field `{field}` of class `{className}` is already registered with a different mapping"
  | .unknownClass className => s!"unknown entity class `{className}`"
  | .missingIdentity className field =>
    s!"instance of `{className}` has no identity value in field `{field}`"
  | .missingType subject => s!"subject `{subject}` has no rdf:type declaration"
  | .unknownType subject tag => s!"subject `{subject}` has unknown semantic type `{tag}`"
  | .unmappedPredicate subject predicate className =>
    s!"predicate `{predicate}` on subject `{subject}` is not mapped by class `{className}`"
  | .tooManyValues subject field predicate count =>
    s!"field `{field}` ({predicate}) on subject `{subject}` is single-valued but has {count} values"
  | .cycle subject path =>
    s!"cyclic reference to `{subject}` (path: " ++ " -> ".intercalate path ++ ")"
  | .tooDeep subject limit => s!"nesting depth limit {limit} exceeded at `{subject}`"
  | .tooManyEntities subject limit =>
    s!"decoding `{subject}` exceeds the limit of {limit} entities"
  | .duplicateSubject subject =>
    s!"subject `{subject}` appears more than once with different content"
  | .wrongObject subject field expected =>
    s!"field `{field}` on `{subject}` expects " ++ expected.message
  | .unresolvedReference subject field target =>
    s!"field `{field}` on `{subject}` references `{target}`, which is not in the document"
  | .wrongField className field fault =>
    s!"cannot build `{className}`: field `{field}` " ++ fault.message

end EntityRdf

import EntityRdf.Conformance.Report
import EntityRdf.Decoding
import EntityRdf.Text.Quoted

/-!
# Checking a document

Each check walks all blocks and lists every problem of one kind, unlike
decoding, which stops at the first error. Blocks without a registered type are
skipped by the checks that need their class. In lenient mode unmapped
predicates and unresolved references are warnings. The last check decodes.
-/

namespace EntityRdf

/-- The finding for a list of problems. -/
def Finding.ofProblems (check : String) (problems : List String) (ok what : String)
    (severity : Severity) : Finding :=
  match problems with
  | [] => .pass check ok
  | _ => ⟨check, s!"{problems.length} {what}", severity, problems⟩

namespace Registry

/-- The class that the blocks of a subject have: that of the last block with a
registered type. -/
def subjectClass? (R : Registry) (doc : Document) (subject : String) : Option ClassDescriptor :=
  (doc.blocks.reverse.filter (·.subject == subject)).findSome? R.blockClass?

/-- What a problem finder says about every block whose class is known. -/
def problems (R : Registry) (doc : Document) (find : ClassDescriptor → Block → List String) :
    List String :=
  doc.blocks.flatMap fun b =>
    match R.subjectClass? doc b.subject with
    | some d => find d b
    | none => []

/-- The severity of what lenient decoding drops. -/
def dropSeverity (cfg : Config) : Severity := if cfg.strict then .failure else .warning

/-- Checks that every subject has one block. -/
def checkSubjects (doc : Document) : Finding :=
  .ofProblems "document/subjects" doc.repeatedSubjects "Every subject has one block"
    "subjects appear in several blocks" .failure

/-- What is wrong with the types of a block. -/
def typeProblems (R : Registry) (b : Block) : List String :=
  match R.blockClass? b, b.types R.context with
  | some _, _ => []
  | none, [] => [s!"{b.subject}: no rdf:type"]
  | none, tags => [s!"{b.subject}: unknown type " ++ ", ".intercalate tags]

/-- Checks that every block has a registered type. -/
def checkTypes (R : Registry) (doc : Document) : Finding :=
  .ofProblems "document/types" (doc.blocks.flatMap R.typeProblems)
    "Every subject has a registered type" "subjects without a registered type" .failure

/-- The predicates of a block that its class does not map. -/
def unmappedProblems (R : Registry) (d : ClassDescriptor) (b : Block) : List String :=
  (b.pairs.filter fun p =>
    R.context.expand p.1 ≠ Vocabulary.rdfType &&
      (d.fieldForPredicate? (R.context.expand p.1)).isNone).map
    fun p => s!"{b.subject}: {p.1} is not mapped by {d.name}"

/-- Checks that every predicate is mapped. -/
def checkMapped (R : Registry) (cfg : Config) (doc : Document) : Finding :=
  .ofProblems "document/predicates" (R.problems doc R.unmappedProblems)
    "Every predicate is mapped" "unmapped predicates" (dropSeverity cfg)

/-- The number of values that a block has for a field. -/
def valueCount (R : Registry) (b : Block) (f : FieldDescriptor) : Nat :=
  (b.pairs.filter fun p => f.expanded == some (R.context.expand p.1)).length

/-- The single-valued fields of which a block has several values. -/
def cardinalityProblems (R : Registry) (d : ClassDescriptor) (b : Block) : List String :=
  (d.predicateFields.filter fun f => f.multiplicity = .single && R.valueCount b f > 1).map
    fun f => s!"{b.subject}: {f.name} has " ++ toString (R.valueCount b f) ++ " values"

/-- Checks that single-valued fields have at most one value. -/
def checkCardinality (R : Registry) (doc : Document) : Finding :=
  .ofProblems "document/cardinality" (R.problems doc R.cardinalityProblems)
    "Single-valued fields have at most one value" "single-valued fields with several values"
    .failure

/-- The objects of a block in entity fields, with their fields. -/
def entityObjects (R : Registry) (d : ClassDescriptor) (b : Block) :
    List (FieldDescriptor × Object) :=
  b.pairs.filterMap fun p =>
    match d.fieldForPredicate? (R.context.expand p.1) with
    | some f => if f.range? = some .entity then some (f, p.2) else none
    | none => none

/-- The literals of a block in entity fields. -/
def objectProblems (R : Registry) (d : ClassDescriptor) (b : Block) : List String :=
  (R.entityObjects d b).filterMap fun (f, object) =>
    match object with
    | .literal text => some (s!"{b.subject}: {f.name} holds literal " ++ showQuoted text)
    | .iri _ => none

/-- Checks that entity fields hold references. -/
def checkObjects (R : Registry) (doc : Document) : Finding :=
  .ofProblems "document/objects" (R.problems doc R.objectProblems)
    "Entity-ranged fields hold references" "entity-ranged fields holding literals" .failure

/-- The references of a block to subjects that have no block. -/
def referenceProblems (R : Registry) (doc : Document) (d : ClassDescriptor) (b : Block) :
    List String :=
  (R.entityObjects d b).filterMap fun (f, object) =>
    match object with
    | .literal _ => none
    | .iri target =>
      if doc.hasSubject target then none else some s!"{b.subject}: {f.name} -> {target}"

def checkReferences (R : Registry) (cfg : Config) (doc : Document) : Finding :=
  .ofProblems "document/references" (R.problems doc (R.referenceProblems doc))
    "Every reference resolves within the document" "references to subjects outside the document"
    (dropSeverity cfg)

def checkDecode (R : Registry) (cfg : Config) (doc : Document) : Finding :=
  match R.decode cfg doc with
  | .ok roots => .pass "document/decode"
    s!"Decoded {roots.length} root entities from {doc.blocks.length} subjects"
  | .error e => .fail "document/decode" e.message []

/-- Runs all checks on a document. -/
def validateDocument (R : Registry) (cfg : Config) (doc : Document) : Report :=
  ⟨[checkSubjects doc, R.checkTypes doc, R.checkMapped cfg doc, R.checkCardinality doc,
    R.checkObjects doc, R.checkReferences cfg doc, R.checkDecode cfg doc]⟩

end Registry

end EntityRdf

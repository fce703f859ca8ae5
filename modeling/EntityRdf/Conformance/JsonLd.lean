import EntityRdf.Conformance.Document
import EntityRdf.Conformance.Registry
import EntityRdf.FileAccess
import EntityRdf.Json.Reader
import EntityRdf.JsonLd.Reader

/-!
# Checking JSON-LD values and files

A file is checked after the registry; a missing file and a text that is no JSON
are failed checks, and only a file that exists but cannot be read is an error.
-/

namespace EntityRdf

/-- Checks how a value brings its `@context`. -/
def checkLocalContext (v : Json) : Finding :=
  match (JsonLd.membersOf v).lookup "@context" with
  | some (.obj _) => .pass "jsonld/context" "Local @context present"
  | some _ => .warn "jsonld/context" "Only object-valued @context entries are applied" []
  | none => .warn "jsonld/context"
    "No @context; terms are expanded with the default StreamPipes prefixes" []

namespace Registry

/-- Checks a JSON-LD value and the document it describes. -/
def validateValue (R : Registry) (cfg : Config) (v : Json) : Report :=
  match JsonLd.read R.context v with
  | .error e => ⟨[.fail "jsonld/structure" e.message []]⟩
  | .ok doc =>
    ⟨[.pass "jsonld/structure" s!"{doc.blocks.length} subjects, {doc.tripleCount} triples"]⟩ ++
      R.validateDocument cfg doc

/-- Checks the text of a file. -/
def validateText (R : Registry) (cfg : Config) (path text : String) : Report :=
  match Json.read text with
  | .error e => ⟨[.fail "jsonld/syntax" (s!"{path} is not valid JSON: " ++ e.message) []]⟩
  | .ok v =>
    ⟨[.pass "jsonld/syntax" "Valid JSON", checkLocalContext v]⟩ ++ R.validateValue cfg v

/-- Checks the registry, then what is found at a path; none if it cannot be
read. -/
def validateFile (R : Registry) (cfg : Config) (path : String) : FileContent → Option Report
  | .missing => some (R.validate ++ ⟨[.fail "jsonld/file" s!"{path} not found" []]⟩)
  | .unreadable => none
  | .text s => some (R.validate ++ R.validateText cfg path s)

end Registry

end EntityRdf

import EntityRdf.Conformance.Report
import EntityRdf.Registry

/-!
# Checking a registry

A registry can encode and decode every class it holds if every class has one
identity field, no tag and no predicate is ambiguous, and every term resolves
through the context.
-/

namespace EntityRdf

/-- The keys that occur again, each with the name it had last and the name it
has now. -/
def repeatedKeys (l : List (String × String)) : List (String × String × String) :=
  go [] l
where
  /-- Walks the entries with those seen before, last first. -/
  go (seen : List (String × String)) : List (String × String) → List (String × String × String)
    | [] => []
    | (key, name) :: rest =>
      match seen.lookup key with
      | some earlier => (key, earlier, name) :: go ((key, name) :: seen) rest
      | none => go ((key, name) :: seen) rest

namespace Registry

/-- The classes that do not have one identity field. -/
def classesWithoutIdentity (R : Registry) : List String :=
  (R.classList.filter fun d => (d.fields.filter (·.isIdentity)).length ≠ 1).map (·.name)

/-- Checks that every class has one identity field. -/
def checkIdentity (R : Registry) : Finding :=
  match R.classesWithoutIdentity with
  | [] => .pass "registry/identity" s!"All {R.size} classes declare one identity field"
  | bad => .fail "registry/identity"
    s!"{bad.length} classes cannot be encoded without an identity field" bad

/-- The tags that several classes share. -/
def sharedTags (R : Registry) : List String :=
  (repeatedKeys (R.classList.map fun d => (R.context.expand d.tag, d.name))).map
    fun (tag, earlier, name) => s!"{tag}: {earlier}, {name}"

def checkTags (R : Registry) : Finding :=
  match R.sharedTags with
  | [] => .pass "registry/tags" "Semantic type tags are unique"
  | bad => .fail "registry/tags" "Semantic type tags shared by several classes" bad

end Registry

/-- The predicates that several fields of a class share. -/
def ClassDescriptor.sharedPredicates (d : ClassDescriptor) : List String :=
  (repeatedKeys (d.predicateFields.filterMap fun f => f.expanded.map (·, f.name))).map
    fun (predicate, earlier, name) => s!"{d.name}: {earlier} and {name} map to {predicate}"

namespace Registry

/-- Checks that every predicate maps to one field per class. -/
def checkPredicates (R : Registry) : Finding :=
  match R.classList.flatMap ClassDescriptor.sharedPredicates with
  | [] => .pass "registry/predicates" "Every predicate maps to one field per class"
  | bad => .fail "registry/predicates" "Ambiguous predicate mappings" bad

/-- Whether a text contains `://`. -/
def hasAuthority : List Char → Bool
  | [] => false
  | c :: cs => ['/', '/'].isPrefixOf cs && c = ':' || hasAuthority cs

/-- Whether a term names an absolute IRI: expansion changes it, or it is
absolute as it stands. -/
def resolves (R : Registry) (term : String) : Bool :=
  R.context.expand term ≠ term || hasAuthority term.toList ||
    (afterStart? "urn:".toList term.toList).isSome

/-- The terms of a class that do not resolve. -/
def unresolvedTerms (R : Registry) (d : ClassDescriptor) : List String :=
  (if R.resolves d.tag then [] else [s!"{d.name}: type tag {d.tag}"]) ++
  (d.predicateFields.filter fun f => !R.resolves f.predicateText).map
    fun f => s!"{d.name}.{f.name}: {f.predicateText}"

def checkContext (R : Registry) : Finding :=
  match R.classList.flatMap R.unresolvedTerms with
  | [] => .pass "registry/context" "All CURIEs resolve through the context"
  | bad => .warn "registry/context" s!"{bad.length} terms use an unbound prefix" bad

/-- Runs all checks on a registry. -/
def validate (R : Registry) : Report :=
  ⟨[R.checkIdentity, R.checkTags, R.checkPredicates, R.checkContext]⟩

end Registry

end EntityRdf

import EntityRdf.Document
import EntityRdf.Grouping
import EntityRdf.Text.Term

/-!
# Writing Turtle

The prefixes of the context come first, padded to one width, then one statement
per block with its objects grouped by predicate. An IRI is written as a
prefixed name when what follows the prefix is a plain word, otherwise in angle
brackets; subjects and references always stand in angle brackets.
-/

namespace EntityRdf.Turtle

/-- Whether a local name needs no escapes. -/
def isPlain (cs : List Char) : Bool :=
  !cs.isEmpty && cs.all fun c => c.isAlphanum || c = '_' || c = '-'

/-- A prefixed name for an IRI, or the IRI in angle brackets. -/
def name (ctx : Context) (iri : String) : String :=
  let compact := ctx.compact iri
  match splitAtColon compact.toList with
  | some (_, rest) => if compact ≠ iri ∧ isPlain rest then compact else bracketIri iri
  | none => bracketIri iri

/-- The object of a predicate in expanded form. -/
def object (ctx : Context) (predicate : String) : Object → String
  | .literal s => quoteLiteral s
  | .iri target =>
    if predicate = Vocabulary.rdfType then name ctx (ctx.expand target)
    else bracketIri (ctx.expand target)

def verb (ctx : Context) (predicate : String) : String :=
  if predicate = Vocabulary.rdfType then "a" else name ctx predicate

/-- The objects of a block, grouped by predicate in expanded form. -/
def groups (ctx : Context) (b : Block) : List (String × List Object) :=
  groupByKey (b.pairs.map fun p => (ctx.expand p.1, p.2))

def groupLine (ctx : Context) (group : String × List Object) : String :=
  "  " ++ verb ctx group.1 ++ " " ++ " , ".intercalate (group.2.map (object ctx group.1))

def statement (ctx : Context) (b : Block) : String :=
  match groups ctx b with
  | [] => bracketIri (ctx.expand b.subject) ++ " .\n\n"
  | l => bracketIri (ctx.expand b.subject) ++ "\n" ++ " ;\n".intercalate (l.map (groupLine ctx)) ++
    " .\n\n"

/-- The declaration of a prefix, padded to a width in bytes. -/
def declaration (width : Nat) (binding : String × String) : String :=
  let pad := String.ofList (List.replicate (width - binding.1.utf8ByteSize + 1) ' ')
  "@prefix " ++ binding.1 ++ ":" ++ pad ++ " " ++ bracketIri binding.2 ++ " .\n"

def declarations (ctx : Context) : String :=
  let width := (ctx.toList.map (·.1.utf8ByteSize)).foldl max 0
  String.join (ctx.toList.map (declaration width))

def write (ctx : Context) (doc : Document) : String :=
  declarations ctx ++ "\n" ++ String.join (doc.blocks.map (statement ctx))

end EntityRdf.Turtle

import EntityRdf.Document
import EntityRdf.Json.Basic

/-!
# Writing JSON-LD

A document becomes an object with the context's prefixes under `@context` and
one node per block under `@graph`. Predicates and type tags are compacted;
subjects and references stand as they are. Values under the same key are
collected in an array, in order.
-/

namespace EntityRdf.JsonLd

/-- Adds a value under a key: alone if the key is new, else at the end of an
array. -/
def addValue (key : String) (v : Json) (members : List (String × Json)) :
    List (String × Json) :=
  match members.lookup key with
  | none => Entries.insert key v members
  | some (.arr items) => Entries.insert key (.arr (items ++ [v])) members
  | some old => Entries.insert key (.arr [old, v]) members

/-- The key and the value that a pair is written as. -/
def property (ctx : Context) (predicate : String) (object : Object) : String × Json :=
  if ctx.expand predicate = Vocabulary.rdfType then
    ("@type", .str (ctx.compact (ctx.expand object.text)))
  else (ctx.compact (ctx.expand predicate),
    match object with
    | .literal s => .str s
    | .iri target => .obj [("@id", .str target)])

/-- The members of the node object of a block. -/
def nodeMembers (ctx : Context) (b : Block) : List (String × Json) :=
  b.pairs.foldl
    (fun members p =>
      let (key, v) := property ctx p.1 p.2
      addValue key v members)
    [("@id", .str b.subject)]

/-- The node object of a block. -/
def node (ctx : Context) (b : Block) : Json := .obj (nodeMembers ctx b)

/-- The prefix table as an object. -/
def contextObject (ctx : Context) : Json :=
  .obj (ctx.toList.map fun e => (e.1, .str e.2))

def write (ctx : Context) (doc : Document) : Json :=
  .obj [("@context", contextObject ctx), ("@graph", .arr (doc.blocks.map (node ctx)))]

end EntityRdf.JsonLd

import EntityRdf.Document
import EntityRdf.Text.Term

/-!
# Writing N-Triples

One triple per line with absolute IRIs; literals have the string datatype.
-/

namespace EntityRdf.NTriples

def object (ctx : Context) : Object → String
  | .iri target => bracketIri (ctx.expand target)
  | .literal s => quoteLiteral s ++ "^^" ++ bracketIri Vocabulary.xsdString

def line (ctx : Context) (t : Triple) : String :=
  bracketIri (ctx.expand t.subject) ++ " " ++ bracketIri (ctx.expand t.predicate) ++ " " ++
    object ctx t.object ++ " .\n"

def write (ctx : Context) (doc : Document) : String := String.join (doc.triples.map (line ctx))

end EntityRdf.NTriples

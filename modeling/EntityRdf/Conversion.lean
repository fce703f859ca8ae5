import EntityRdf.Decoding
import EntityRdf.Encoding
import EntityRdf.Json.Printer
import EntityRdf.Json.Reader
import EntityRdf.JsonLd.Reader
import EntityRdf.JsonLd.Writer
import EntityRdf.NTriples
import EntityRdf.Turtle

/-!
# Conversion: from JSON-LD text to another text

A conversion reads a text as a document, decodes it, encodes the entities again
and writes the result. Each stage has its own error.
-/

namespace EntityRdf

/-- The formats a document can be written in. -/
inductive Format where
  /-- JSON-LD over several lines. -/
  | jsonld
  | turtle
  | ntriples
deriving DecidableEq, Repr

/-- The text of a document in a format. -/
def Format.write (ctx : Context) (doc : Document) : Format → String
  | .jsonld => (JsonLd.write ctx doc).pretty
  | .turtle => Turtle.write ctx doc
  | .ntriples => NTriples.write ctx doc

/-- Why a conversion failed. -/
inductive ConversionError where
  | syntaxError (e : Json.SyntaxError)
  | structureError (e : CodecError)
  | decodingError (e : MappingError)
  | encodingError (e : MappingError)
deriving DecidableEq, Repr

/-- What a conversion gives. -/
structure Conversion where
  entities : List Instance
  document : Document
  text : String

def Registry.convert (R : Registry) (cfg : Config) (format : Format) (text : String) :
    Except ConversionError Conversion := do
  let v ← (Json.read text).mapError .syntaxError
  let doc ← (JsonLd.read R.context v).mapError .structureError
  let es ← (R.decode cfg doc).mapError .decodingError
  let doc ← (R.encodeAll cfg es).mapError .encodingError
  return ⟨es, doc, format.write R.context doc⟩

end EntityRdf

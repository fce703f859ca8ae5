/-!
# Terms of Turtle and N-Triples

Both formats write an IRI in angle brackets and a literal in quotes. In a
literal, backslashes, quotes and line ends are escaped.
-/

namespace EntityRdf

def bracketIri (iri : String) : String := "<" ++ iri ++ ">"

/-- A character as it stands in a literal. -/
def escapeLiteralChar (c : Char) : List Char :=
  match c with
  | '\\' => ['\\', '\\']
  | '"' => ['\\', '"']
  | '\n' => ['\\', 'n']
  | '\r' => ['\\', 'r']
  | c => [c]

def quoteLiteral (s : String) : String :=
  String.ofList ('"' :: s.toList.flatMap escapeLiteralChar ++ ['"'])

end EntityRdf

import EntityRdf.Json.Basic

/-!
# Printing JSON

Values are printed over several lines, two blanks per level; empty arrays and
objects stay on one line. Only quotes, backslashes and control characters are
escaped.
-/

namespace EntityRdf.Json

/-- A character as it stands in a string. -/
def escapeChar (c : Char) : List Char :=
  match c with
  | '"' => ['\\', '"']
  | '\\' => ['\\', '\\']
  | '\x08' => ['\\', 'b']
  | '\x0c' => ['\\', 'f']
  | '\n' => ['\\', 'n']
  | '\r' => ['\\', 'r']
  | '\t' => ['\\', 't']
  | c =>
    if c < ' ' then '\\' :: 'u' :: hexDigits c.toNat 4 else [c]

def quote (s : String) : String :=
  String.ofList ('"' :: s.toList.flatMap escapeChar ++ ['"'])

/-- The line break before something at a level. -/
def newline (level : Nat) : String := String.ofList ('\n' :: List.replicate (2 * level) ' ')

mutual

/-- Prints a value that starts at a level. -/
def print (level : Nat) : Json → String
  | .null => "null"
  | .bool true => "true"
  | .bool false => "false"
  | .num n => n.text
  | .str s => quote s
  | .arr [] => "[]"
  | .arr (v :: items) =>
    "[" ++ newline (level + 1) ++ print (level + 1) v ++ printItems (level + 1) items ++
      newline level ++ "]"
  | .obj [] => "\x7b\x7d"
  | .obj ((k, v) :: members) =>
    "\x7b" ++ newline (level + 1) ++ quote k ++ ": " ++ print (level + 1) v ++
      printMembers (level + 1) members ++ newline level ++ "\x7d"

/-- Prints the items after the first. -/
def printItems (level : Nat) : List Json → String
  | [] => ""
  | v :: items => "," ++ newline level ++ print level v ++ printItems level items

/-- Prints the members after the first. -/
def printMembers (level : Nat) : List (String × Json) → String
  | [] => ""
  | (k, v) :: members =>
    "," ++ newline level ++ quote k ++ ": " ++ print level v ++ printMembers level members

end

/-- The text of a value, without a line break at its end. -/
def pretty (v : Json) : String := print 0 v

end EntityRdf.Json

import EntityRdf.Text.CodeShown

/-!
# Quoted text for reports

A text is shown in double quotes so that every character of it can be told
apart: quotes, backslashes and the common controls have short escapes, and
characters that would not be visible are shown by their code.
-/

namespace EntityRdf

/-- The code of a character in braces. -/
def codeEscape (c : Char) : List Char :=
  ['\\', 'u', '\x7b'] ++ Nat.toDigits 16 c.toNat ++ ['\x7d']

/-- A character as it is shown. -/
def showChar (c : Char) : List Char :=
  match c with
  | '\x00' => ['\\', '0']
  | '\t' => ['\\', 't']
  | '\n' => ['\\', 'n']
  | '\r' => ['\\', 'r']
  | '"' => ['\\', '"']
  | '\\' => ['\\', '\\']
  | c => if isCodeShown c then codeEscape c else [c]

/-- A text as it is shown. -/
def showQuoted (s : String) : String :=
  String.ofList ('"' :: s.toList.flatMap showChar ++ ['"'])

end EntityRdf

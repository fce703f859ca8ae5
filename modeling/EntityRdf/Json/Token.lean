import EntityRdf.Json.Number

/-!
# JSON tokens

The scanner takes one character at a time. Between tokens it waits for the next
one; inside a string it keeps the characters so far and where it stands in an
escape; inside a number or a word it collects characters and decides at the
end. `tokens?` folds the scanner over a text.
-/

namespace EntityRdf.Json

/-- Why a text is no JSON value. -/
inductive SyntaxError where
  /-- A character starts no token, or cannot stand inside one. -/
  | unexpectedCharacter (c : Char)
  /-- The text ends inside a token or a value. -/
  | unexpectedEnd
  /-- A number or word is not written as JSON requires. -/
  | malformed (text : String)
  /-- A number is too large for a double. -/
  | numberOutOfRange (text : String)
  /-- A token stands where the structure does not allow it. -/
  | misplaced (token : String)
  /-- Arrays and objects are nested too deeply. -/
  | tooDeep
deriving DecidableEq, Repr

/-- The text of a syntax error. -/
def SyntaxError.message : SyntaxError → String
  | .unexpectedCharacter c => s!"unexpected character " ++ c.toString
  | .unexpectedEnd => "unexpected end"
  | .malformed text => "malformed " ++ text
  | .numberOutOfRange text => "number out of range " ++ text
  | .misplaced token => "misplaced " ++ token
  | .tooDeep => "too many nested values"

/-- The units of JSON text. -/
inductive Token where
  | openObject
  | closeObject
  | openArray
  | closeArray
  | comma
  | colon
  /-- A string, with its escapes resolved. -/
  | str (s : String)
  | num (n : Number)
  | bool (b : Bool)
  | null
deriving DecidableEq, Repr

/-- A name of the kind of token, for messages. -/
def Token.text : Token → String
  | .openObject => "\x7b"
  | .closeObject => "\x7d"
  | .openArray => "["
  | .closeArray => "]"
  | .comma => ","
  | .colon => ":"
  | .str s => "string " ++ s
  | .num n => "number " ++ n.text
  | .bool true => "true"
  | .bool false => "false"
  | .null => "null"

/-- Where a scan stands inside a string. -/
inductive StringPart where
  | plain
  | escape
  /-- Inside a four-digit code; a high surrogate may have come before it. -/
  | code (high : Option Nat) (missing value : Nat)
  /-- After a high surrogate: a backslash must follow. -/
  | pair (high : Nat)
  /-- After a high surrogate and a backslash: the letter `u` must follow. -/
  | pairEscape (high : Nat)
deriving DecidableEq, Repr

/-- Where a scan stands; characters and tokens are kept last first. -/
inductive Scan where
  | between (done : List Token)
  | string (done : List Token) (chars : List Char) (part : StringPart)
  | number (done : List Token) (chars : List Char)
  | word (done : List Token) (chars : List Char)
deriving Repr

def isBlank (c : Char) : Bool := c = ' ' || c = '\t' || c = '\n' || c = '\r'

/-- Characters that can stand in a number. -/
def isNumberChar (c : Char) : Bool :=
  c.isDigit || c = '-' || c = '+' || c = '.' || c = 'e' || c = 'E'

/-- The character that a one-letter escape stands for. -/
def escaped? : Char → Option Char
  | '"' => some '"'
  | '\\' => some '\\'
  | '/' => some '/'
  | 'b' => some '\x08'
  | 'f' => some '\x0c'
  | 'n' => some '\n'
  | 'r' => some '\r'
  | 't' => some '\t'
  | _ => none

/-- The token that a single character is. -/
def punctuation? : Char → Option Token
  | '\x7b' => some .openObject
  | '\x7d' => some .closeObject
  | '[' => some .openArray
  | ']' => some .closeArray
  | ',' => some .comma
  | ':' => some .colon
  | _ => none

/-- The token that a word is. -/
def wordToken? : String → Option Token
  | "true" => some (.bool true)
  | "false" => some (.bool false)
  | "null" => some .null
  | _ => none

/-- The token of a complete number. -/
def numberToken (chars : List Char) : Except SyntaxError Token :=
  match NumberLexeme.ofChars? chars with
  | none => .error (.malformed (String.ofList chars))
  | some l =>
    match l.number? with
    | none => .error (.numberOutOfRange (String.ofList chars))
    | some n => .ok (.num n)

def stepBetween (done : List Token) (c : Char) : Except SyntaxError Scan :=
  if isBlank c then .ok (.between done)
  else if c = '"' then .ok (.string done [] .plain)
  else if c.isDigit || c = '-' then .ok (.number done [c])
  else if c.isAlpha then .ok (.word done [c])
  else match punctuation? c with
    | some t => .ok (.between (t :: done))
    | none => .error (.unexpectedCharacter c)

/-- What a complete four-digit code adds to a string. Surrogates stand for
something only as a pair, the high one first. -/
def endCode (done : List Token) (chars : List Char) (high : Option Nat) (value : Nat) :
    Except SyntaxError Scan :=
  match high with
  | some h =>
    if 0xDC00 ≤ value ∧ value ≤ 0xDFFF then
      let code := 0x10000 + (h - 0xD800) * 0x400 + (value - 0xDC00)
      .ok (.string done (Char.ofNat code :: chars) .plain)
    else .error (.malformed "surrogate pair")
  | none =>
    if 0xD800 ≤ value ∧ value ≤ 0xDBFF then .ok (.string done chars (.pair value))
    else if 0xDC00 ≤ value ∧ value ≤ 0xDFFF then .error (.malformed "surrogate pair")
    else .ok (.string done (Char.ofNat value :: chars) .plain)

def stepString (done : List Token) (chars : List Char) (part : StringPart) (c : Char) :
    Except SyntaxError Scan :=
  match part with
  | .plain =>
    if c = '"' then .ok (.between (.str (String.ofList chars.reverse) :: done))
    else if c = '\\' then .ok (.string done chars .escape)
    else if c < ' ' then .error (.unexpectedCharacter c)
    else .ok (.string done (c :: chars) .plain)
  | .escape =>
    if c = 'u' then .ok (.string done chars (.code none 4 0))
    else match escaped? c with
      | some d => .ok (.string done (d :: chars) .plain)
      | none => .error (.unexpectedCharacter c)
  | .code high missing value =>
    match hexValue? c with
    | none => .error (.unexpectedCharacter c)
    | some d =>
      if missing ≤ 1 then endCode done chars high (16 * value + d)
      else .ok (.string done chars (.code high (missing - 1) (16 * value + d)))
  | .pair high =>
    if c = '\\' then .ok (.string done chars (.pairEscape high))
    else .error (.unexpectedCharacter c)
  | .pairEscape high =>
    if c = 'u' then .ok (.string done chars (.code (some high) 4 0))
    else .error (.unexpectedCharacter c)

/-- Completes a number that the next character is no part of. -/
def endNumber (done : List Token) (chars : List Char) : Except SyntaxError (List Token) := do
  let t ← numberToken chars.reverse
  return t :: done

/-- Completes a word that the next character is no part of. -/
def endWord (done : List Token) (chars : List Char) : Except SyntaxError (List Token) :=
  match wordToken? (String.ofList chars.reverse) with
  | some t => .ok (t :: done)
  | none => .error (.malformed (String.ofList chars.reverse))

def Scan.step (s : Scan) (c : Char) : Except SyntaxError Scan :=
  match s with
  | .between done => stepBetween done c
  | .string done chars part => stepString done chars part c
  | .number done chars =>
    if isNumberChar c then .ok (.number done (c :: chars))
    else do stepBetween (← endNumber done chars) c
  | .word done chars =>
    if c.isAlpha then .ok (.word done (c :: chars))
    else do stepBetween (← endWord done chars) c

/-- The tokens of a scan at the end of the text. -/
def Scan.finish : Scan → Except SyntaxError (List Token)
  | .between done => .ok done.reverse
  | .string _ _ _ => .error .unexpectedEnd
  | .number done chars => do return (← endNumber done chars).reverse
  | .word done chars => do return (← endWord done chars).reverse

def tokens (text : String) : Except SyntaxError (List Token) := do
  let s ← text.toList.foldlM Scan.step (.between [])
  s.finish

end EntityRdf.Json

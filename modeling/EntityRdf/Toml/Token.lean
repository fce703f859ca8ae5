import EntityRdf.Numeral.Digits

/-!
# TOML tokens

The scanner takes one character at a time, like the reader of JSON tokens.
Blanks and line ends are tokens, because they separate values and entries;
comments are dropped. A string token says whether it may span lines, because
such strings cannot be keys.
-/

namespace EntityRdf.Toml

/-- The units of TOML text. -/
inductive Token where
  | blank (cs : List Char)
  | newline
  /-- Letters, digits, underscores and hyphens. -/
  | bare (cs : List Char)
  | text (s : String) (multiline : Bool)
  /-- A character with a meaning of its own. -/
  | mark (c : Char)
deriving DecidableEq, Repr

/-- The kinds of string: which quote, and whether it may span lines. -/
structure Quoting where
  /-- Double quotes, with escapes. -/
  basic : Bool
  multiline : Bool
deriving DecidableEq, Repr

/-- The quote of a kind of string. -/
def Quoting.quote (q : Quoting) : Char := if q.basic then '"' else '\''

/-- Where a scan stands inside a string. -/
inductive Part where
  /-- In the text, after so many quotes that may belong to the end. -/
  | plain (quotes : Nat)
  /-- At the very start of a string of several lines. -/
  | start
  /-- After a carriage return that a line feed must follow; it belongs to the
  text unless it stands at the very start. -/
  | carriage (kept : Bool)
  | escape
  /-- Inside a code with so many digits missing. -/
  | code (missing value : Nat)
  /-- After a backslash at the end of a line, before the next visible
  character. -/
  | continuation (ended carriage : Bool)
deriving DecidableEq, Repr

/-- Where a scan stands; characters and tokens are kept last first. -/
inductive Scan where
  | between (done : List Token)
  | blank (done : List Token) (cs : List Char)
  | bare (done : List Token) (cs : List Char)
  | comment (done : List Token)
  /-- After a carriage return that a line feed must follow. -/
  | carriage (done : List Token)
  | opening (done : List Token) (basic two : Bool)
  | string (done : List Token) (q : Quoting) (cs : List Char) (part : Part)
deriving Repr

/-- Whether a character can stand in a bare key. -/
def isBare (c : Char) : Bool := c.isAlphanum || c = '_' || c = '-'

/-- Whether a character can stand in text on one line: a tab or anything but a
control of ASCII. -/
def isVisible (c : Char) : Bool := c = '\t' || (' ' ≤ c && c ≠ '\x7f')

/-- Whether a character is a mark. -/
def isMark (c : Char) : Bool := "[]=,.+:".toList.contains c || c = '\x7b' || c = '\x7d'

/-- The character that a one-letter escape stands for. -/
def escaped? : Char → Option Char
  | 'b' => some '\x08'
  | 't' => some '\t'
  | 'n' => some '\n'
  | 'f' => some '\x0c'
  | 'r' => some '\r'
  | '"' => some '"'
  | '\\' => some '\\'
  | _ => none

/-- The token of a complete string. -/
def stringToken (q : Quoting) (cs : List Char) : Token :=
  .text (String.ofList cs.reverse) q.multiline

def stepBetween (done : List Token) (c : Char) : Option Scan :=
  if c = ' ' ∨ c = '\t' then some (.blank done [c])
  else if c = '\n' then some (.between (.newline :: done))
  else if c = '\r' then some (.carriage done)
  else if c = '#' then some (.comment done)
  else if c = '"' then some (.opening done true false)
  else if c = '\'' then some (.opening done false false)
  else if isBare c then some (.bare done [c])
  else if isMark c then some (.between (.mark c :: done))
  else none

/-- One step in the text of a string, not at a quote. -/
def stepText (done : List Token) (q : Quoting) (cs : List Char) (c : Char) : Option Scan :=
  if q.basic && c = '\\' then some (.string done q cs .escape)
  else if q.multiline && c = '\n' then some (.string done q (c :: cs) (.plain 0))
  else if q.multiline && c = '\r' then some (.string done q cs (.carriage true))
  else if isVisible c then some (.string done q (c :: cs) (.plain 0))
  else none

/-- One step in a string after some quotes that may belong to its end. Three
quotes end a string of several lines, and up to two more before them belong to
its text. -/
def stepPlain (done : List Token) (q : Quoting) (cs : List Char) (quotes : Nat) (c : Char) :
    Option Scan :=
  if c = q.quote then
    if !q.multiline then some (.between (stringToken q cs :: done))
    else if quotes = 4 then some (.between (stringToken q (c :: c :: cs) :: done))
    else some (.string done q cs (.plain (quotes + 1)))
  else if quotes ≥ 3 then
    stepBetween (stringToken q (List.replicate (quotes - 3) q.quote ++ cs) :: done) c
  else stepText done q (List.replicate quotes q.quote ++ cs) c

/-- One step in the blanks after a backslash that must end its line. -/
def stepContinuation (done : List Token) (q : Quoting) (cs : List Char) (ended carriage : Bool)
    (c : Char) : Option Scan :=
  if carriage then
    if c = '\n' then some (.string done q cs (.continuation true false)) else none
  else if c = ' ' ∨ c = '\t' then some (.string done q cs (.continuation ended false))
  else if c = '\n' then some (.string done q cs (.continuation true false))
  else if c = '\r' then some (.string done q cs (.continuation ended true))
  else if ended then stepPlain done q cs 0 c
  else none

def stepString (done : List Token) (q : Quoting) (cs : List Char) (part : Part) (c : Char) :
    Option Scan :=
  match part with
  | .plain quotes => stepPlain done q cs quotes c
  | .start =>
    if c = '\n' then some (.string done q cs (.plain 0))
    else if c = '\r' then some (.string done q cs (.carriage false))
    else stepPlain done q cs 0 c
  | .carriage kept =>
    if c = '\n' then some (.string done q (if kept then c :: cs else cs) (.plain 0)) else none
  | .escape =>
    if c = 'u' then some (.string done q cs (.code 4 0))
    else if c = 'U' then some (.string done q cs (.code 8 0))
    else match escaped? c with
      | some d => some (.string done q (d :: cs) (.plain 0))
      | none => if q.multiline then stepContinuation done q cs false false c else none
  | .code missing value => do
    let d ← hexValue? c
    let value := 16 * value + d
    if missing > 1 then return .string done q cs (.code (missing - 1) value)
    else if Nat.isValidChar value then return .string done q (Char.ofNat value :: cs) (.plain 0)
    else none
  | .continuation ended carriage => stepContinuation done q cs ended carriage c

/-- One step of a scan; none if the character cannot stand there. -/
def Scan.step (s : Scan) (c : Char) : Option Scan :=
  match s with
  | .between done => stepBetween done c
  | .blank done cs =>
    if c = ' ' ∨ c = '\t' then some (.blank done (c :: cs))
    else stepBetween (.blank cs.reverse :: done) c
  | .bare done cs =>
    if isBare c then some (.bare done (c :: cs)) else stepBetween (.bare cs.reverse :: done) c
  | .comment done =>
    if c = '\n' ∨ c = '\r' then stepBetween done c
    else if isVisible c then some (.comment done)
    else none
  | .carriage done => if c = '\n' then some (.between (.newline :: done)) else none
  | .opening done basic two =>
    let isQuote := c = Quoting.quote ⟨basic, false⟩
    if two then
      if isQuote then some (.string done ⟨basic, true⟩ [] .start)
      else stepBetween (.text "" false :: done) c
    else if isQuote then some (.opening done basic true)
    else stepPlain done ⟨basic, false⟩ [] 0 c
  | .string done q cs part => stepString done q cs part c

/-- The tokens of a scan at the end of the text. -/
def Scan.finish : Scan → Option (List Token)
  | .between done | .comment done => some done.reverse
  | .blank done cs => some (.blank cs.reverse :: done).reverse
  | .bare done cs => some (.bare cs.reverse :: done).reverse
  | .carriage _ => none
  | .opening done _ two => if two then some (.text "" false :: done).reverse else none
  | .string done q cs (.plain quotes) =>
    if quotes ≥ 3 then
      some (stringToken q (List.replicate (quotes - 3) q.quote ++ cs) :: done).reverse
    else none
  | .string _ _ _ _ => none

/-- The tokens of a text, which may start with a byte order mark. -/
def tokens? (text : String) : Option (List Token) := do
  let cs := match text.toList with
    | '\ufeff' :: cs => cs
    | cs => cs
  let s ← cs.foldlM Scan.step (.between [])
  s.finish

end EntityRdf.Toml

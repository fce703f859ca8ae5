import EntityRdf.Numeral.Layout

/-!
# JSON numbers

A number without fraction and exponent that fits a 64-bit integer is kept as an
integer. Every other number is a double: at most twenty leading digits are
collected into a 64-bit significand and scaled by a power of ten in double
arithmetic, so a long number may differ from the nearest double in its last
bit. A number too large for a double is refused.
-/

namespace EntityRdf.Json

/-- The value of a JSON number. -/
inductive Number where
  /-- A 64-bit integer, signed or unsigned. -/
  | integer (n : Int)
  /-- A double with its sign, which a zero has too. -/
  | double (negative : Bool) (magnitude : Magnitude)
deriving DecidableEq, Repr

/-- The canonical text of a number. -/
def Number.text : Number → String
  | .integer n => toString n
  | .double false m => m.text
  | .double true m => "-" ++ m.text

/-- The parts of a number as it is written. -/
structure NumberLexeme where
  /-- Whether a minus sign stands in front. -/
  negative : Bool
  whole : List Char
  /-- The digits after the point, if there is one. -/
  fraction : Option (List Char)
  exponent : Option Int
deriving DecidableEq, Repr

/-- The largest significand, `2 ^ 64 - 1`. -/
def significandLimit : Nat := 0xffffffffffffffff

/-- Appends digits to a significand as long as the result stays within the limit.
Gives the significand with the digits left over. -/
def collectDigits (significand : Nat) : List Char → Nat × List Char
  | [] => (significand, [])
  | c :: rest =>
    if 10 * significand + (hexValue? c).getD 0 > significandLimit then (significand, c :: rest)
    else collectDigits (10 * significand + (hexValue? c).getD 0) rest

/-- Scales by a power of ten. Exponents below `-308` take several divisions. -/
def scaleByTen (m : Magnitude) (exponent : Int) : Option Magnitude :=
  if exponent.natAbs ≤ 308 then do
    let power ← Magnitude.powerOfTen? exponent.natAbs
    if exponent ≥ 0 then m.mul? power else m.div? power
  else if m.isZero then some m
  else if exponent ≥ 0 then none
  else do
    let power ← Magnitude.powerOfTen? 308
    let m ← m.div? power
    scaleByTen m (exponent + 308)
termination_by exponent.natAbs

namespace NumberLexeme

/-- The double that the parts spell. -/
def double? (l : NumberLexeme) : Option Number := do
  let (significand, dropped) := collectDigits 0 l.whole
  let fraction := l.fraction.getD []
  let (significand, unused) := collectDigits significand fraction
  let exponent : Int := dropped.length - (fraction.length - unused.length : Nat) + l.exponent.getD 0
  let m ← Magnitude.ofNat? significand
  let m ← scaleByTen m exponent
  return .double l.negative m

/-- The number that the parts spell; none if it is too large. -/
def number? (l : NumberLexeme) : Option Number :=
  let n := naturalIn 10 l.whole
  if l.fraction.isNone && l.exponent.isNone then
    if l.negative then
      if 0 < n ∧ n ≤ 0x8000000000000000 then some (.integer (-n)) else l.double?
    else if n ≤ significandLimit then some (.integer n)
    else l.double?
  else l.double?

end NumberLexeme

/-! ## Reading the parts -/

/-- Splits off the digits at the front. -/
def spanDigits (cs : List Char) : List Char × List Char := cs.span Char.isDigit

/-- Digits that write a natural: no zero stands before other digits. -/
def isWhole : List Char → Bool
  | [] => false
  | ['0'] => true
  | c :: _ => c ≠ '0'

/-- Reads the exponent at the end of a number. -/
def exponent? : List Char → Option (Option Int)
  | [] => some none
  | e :: rest =>
    if e = 'e' ∨ e = 'E' then
      let (negative, digits) := match rest with
        | '-' :: digits => (true, digits)
        | '+' :: digits => (false, digits)
        | digits => (false, digits)
      if digits.isEmpty || !digits.all Char.isDigit then none
      else some (some (if negative then -naturalIn 10 digits else naturalIn 10 digits))
    else none

def fractionAndExponent? : List Char → Option (Option (List Char) × Option Int)
  | '.' :: rest => do
    let (digits, rest) := spanDigits rest
    if digits.isEmpty then none
    else return (some digits, ← exponent? rest)
  | rest => do return (none, ← exponent? rest)

/-- Reads the parts of a number from all of a text. -/
def NumberLexeme.ofChars? (cs : List Char) : Option NumberLexeme := do
  let (negative, cs) := match cs with
    | '-' :: rest => (true, rest)
    | cs => (false, cs)
  let (whole, rest) := spanDigits cs
  if isWhole whole then
    let (fraction, exponent) ← fractionAndExponent? rest
    return ⟨negative, whole, fraction, exponent⟩
  else none

end EntityRdf.Json

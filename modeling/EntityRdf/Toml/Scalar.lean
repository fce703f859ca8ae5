import EntityRdf.Numeral.Digits
import EntityRdf.Numeral.Magnitude
import EntityRdf.Toml.Value

/-!
# Unquoted TOML values

Truth values, integers, floats, dates and times are told apart by their form.
Integers are signed 64-bit numbers; a positive float that exceeds every finite
double is refused.
-/

namespace EntityRdf.Toml

/-- The digits of a text in which single underscores may stand between digits. -/
def groupedDigits? (isDigit : Char → Bool) (cs : List Char) : Option (List Char) :=
  go false cs
where
  /-- Reads on after a digit, or where a digit must follow. -/
  go : (afterDigit : Bool) → List Char → Option (List Char)
    | true, [] => some []
    | false, [] => none
    | afterDigit, c :: rest =>
      if isDigit c then (go true rest).map (c :: ·)
      else if afterDigit && c = '_' then go false rest
      else none

def splitSign : List Char → Bool × List Char
  | '-' :: rest => (true, rest)
  | '+' :: rest => (false, rest)
  | cs => (false, cs)

/-- The digits of a decimal natural without leading zeros. -/
def wholeDigits? (cs : List Char) : Option (List Char) :=
  match cs with
  | '0' :: _ :: _ => none
  | cs => groupedDigits? Char.isDigit cs

/-- An integer in the signed 64-bit range. -/
def inRange? (n : Int) : Option Toml :=
  if -0x8000000000000000 ≤ n ∧ n < 0x8000000000000000 then some (.integer n) else none

def integer? : List Char → Option Toml
  | '0' :: 'x' :: rest => do
    inRange? (naturalIn 16 (← groupedDigits? isHexDigit rest))
  | '0' :: 'o' :: rest => do
    inRange? (naturalIn 8 (← groupedDigits? (fun c => '0' ≤ c && c ≤ '7') rest))
  | '0' :: 'b' :: rest => do
    inRange? (naturalIn 2 (← groupedDigits? (fun c => c = '0' || c = '1') rest))
  | cs => do
    let (negative, rest) := splitSign cs
    let n : Int := naturalIn 10 (← wholeDigits? rest)
    inRange? (if negative then -n else n)

/-- Whether `n * 10 ^ exponent` rounds to a finite double. -/
def isFinite (n : Nat) (exponent : Int) : Bool :=
  let top : Int := (decimalDigits n).length + exponent
  if n = 0 ∨ top ≤ 308 then true
  else if top > 310 then false
  else match exponent with
    | .ofNat k => (Magnitude.ofRatio? (n * powerOfTen k) 1).isSome
    | .negSucc k => (Magnitude.ofRatio? n (powerOfTen (k + 1))).isSome

/-- Reads the exponent at the end of a float. -/
def exponent? : List Char → Option Int
  | [] => some 0
  | e :: rest =>
    if e = 'e' ∨ e = 'E' then do
      let (negative, rest) := splitSign rest
      let n : Int := naturalIn 10 (← groupedDigits? Char.isDigit rest)
      return if negative then -n else n
    else none

/-- Whether a character starts an exponent. -/
def startsExponent (c : Char) : Bool := c = 'e' || c = 'E'

def float? (cs : List Char) : Option Toml := do
  let (negative, rest) := splitSign cs
  if rest = ['i', 'n', 'f'] ∨ rest = ['n', 'a', 'n'] then return .float (String.ofList cs)
  else
    let (whole, rest) := rest.span fun c => c ≠ '.' && !startsExponent c
    let whole ← wholeDigits? whole
    let (fraction, rest) ← match rest with
      | '.' :: rest => do
        let (fraction, rest) := rest.span fun c => !startsExponent c
        pure (← groupedDigits? Char.isDigit fraction, rest)
      | [] => none
      | rest => pure ([], rest)
    let exponent ← exponent? rest
    let n := naturalIn 10 (whole ++ fraction)
    if negative || isFinite n (exponent - fraction.length) then return .float (String.ofList cs)
    else none

/-! ## Dates and times -/

/-- Reads a number of exactly so many digits. -/
def fixedDigits? : (count : Nat) → List Char → Option (List Char × List Char)
  | 0, cs => some ([], cs)
  | _ + 1, [] => none
  | count + 1, c :: cs =>
    if c.isDigit then (fixedDigits? count cs).map fun (ds, rest) => (c :: ds, rest) else none

/-- Reads a number of two digits within bounds. -/
def twoDigits? (low high : Nat) (cs : List Char) : Option (List Char × List Char) := do
  let (ds, rest) ← fixedDigits? 2 cs
  let n := naturalIn 10 ds
  if low ≤ n ∧ n ≤ high then return (ds, rest) else none

def expect? (c : Char) : List Char → Option (List Char)
  | d :: rest => if c = d then some rest else none
  | [] => none

/-- The number of days in a month. -/
def daysIn (year month : Nat) : Nat :=
  if month = 2 then
    if year % 4 = 0 ∧ (year % 100 ≠ 0 ∨ year % 400 = 0) then 29 else 28
  else if month = 4 ∨ month = 6 ∨ month = 9 ∨ month = 11 then 30
  else 31

/-- Reads a date that exists. -/
def date? (cs : List Char) : Option (List Char × List Char) := do
  let (year, rest) ← fixedDigits? 4 cs
  let (month, rest) ← twoDigits? 1 12 (← expect? '-' rest)
  let (day, rest) ← twoDigits? 1 (daysIn (naturalIn 10 year) (naturalIn 10 month))
    (← expect? '-' rest)
  return (year ++ '-' :: month ++ '-' :: day, rest)

/-- The canonical fraction of a second: at most nine digits, no zeros at the end. -/
def secondFraction (digits : List Char) : List Char :=
  match ((digits.take 9).reverse.dropWhile (· = '0')).reverse with
  | [] => []
  | ds => '.' :: ds

def time? (cs : List Char) : Option (List Char × List Char) := do
  let (hour, rest) ← twoDigits? 0 23 cs
  let (minute, rest) ← twoDigits? 0 59 (← expect? ':' rest)
  let (second, rest) ← twoDigits? 0 60 (← expect? ':' rest)
  let time := hour ++ ':' :: minute ++ ':' :: second
  match rest with
  | '.' :: rest =>
    let (digits, rest) := rest.span Char.isDigit
    if digits.isEmpty then none else return (time ++ secondFraction digits, rest)
  | rest => return (time, rest)

/-- Reads the offset at the end of a date and time; none at all is allowed. An
offset of zero is positive. -/
def offset? : List Char → Option (List Char)
  | [] => some []
  | ['Z'] | ['z'] => some ['Z']
  | sign :: rest =>
    if sign = '+' ∨ sign = '-' then do
      let (hour, rest) ← twoDigits? 0 23 rest
      let (minute, rest) ← twoDigits? 0 59 (← expect? ':' rest)
      if rest.isEmpty then
        let sign := if naturalIn 10 (hour ++ minute) = 0 then '+' else sign
        return sign :: hour ++ ':' :: minute
      else none
    else none

/-- Whether a text is a date alone. -/
def isDate (cs : List Char) : Bool :=
  match date? cs with
  | some (_, []) => true
  | _ => false

/-- Reads a date, a time, or both with an optional offset. -/
def dateTime? (cs : List Char) : Option Toml :=
  match date? cs with
  | some (date, []) => some (.dateTime (String.ofList date))
  | some (date, delimiter :: rest) =>
    if delimiter = 'T' ∨ delimiter = 't' ∨ delimiter = ' ' then do
      let (time, rest) ← time? rest
      let offset ← offset? rest
      return .dateTime (String.ofList (date ++ 'T' :: time ++ offset))
    else none
  | none =>
    match time? cs with
    | some (time, []) => some (.dateTime (String.ofList time))
    | _ => none

def scalar? (cs : List Char) : Option Toml :=
  if cs = "true".toList then some (.bool true)
  else if cs = "false".toList then some (.bool false)
  else dateTime? cs <|> float? cs <|> integer? cs

end EntityRdf.Toml

import EntityRdf.Numeral.Digits
import EntityRdf.Numeral.Magnitude

/-!
# Shortest: the fewest digits that read back

The reals that round to a positive magnitude form an interval around it. On
the grid of decimals with `n` significant digits the magnitude has two
neighbours; the first `n` with a neighbour inside the interval gives the
digits, the nearer neighbour if both are inside and the even one of two equally
near. The layout of the digits is a separate decision (`DecimalLayout`).
-/

namespace EntityRdf

/-- A positive decimal `0.d₁d₂… * 10 ^ (point + 1)`: the digits, and the power of
ten of the first one. -/
structure Decimal where
  digits : List Char
  /-- The power of ten of the first digit. -/
  point : Int
deriving DecidableEq, Repr

/-- A digit sequence without the zeros at its end. -/
def dropTrailingZeros (l : List Char) : List Char :=
  (l.reverse.dropWhile (· = '0')).reverse

/-- Fractions with a common denominator around a magnitude. -/
structure Interval where
  /-- The least real that rounds to the magnitude, times `scale`. -/
  low : Nat
  value : Nat
  /-- The largest real that rounds to the magnitude, times `scale`. -/
  high : Nat
  scale : Nat
  /-- Whether the ends round to the magnitude too. -/
  closed : Bool
deriving Repr

namespace Magnitude

/-- The reals that round to a positive magnitude. The gap below a power of two
is half the gap above it. -/
def interval (m : Magnitude) : Interval :=
  let below := if m.mantissa = hiddenBit ∧ m.exponent > -1074 then 1 else 2
  let unit := ratio 1 (m.exponent - 2)
  ⟨(4 * m.mantissa - below) * unit.1, 4 * m.mantissa * unit.1, (4 * m.mantissa + 2) * unit.1,
    unit.2, m.mantissa % 2 = 0⟩

end Magnitude

namespace Interval

/-- Whether `n / d` times the scale lies in the interval. -/
def contains (i : Interval) (n d : Nat) : Bool :=
  if i.closed then i.low * d ≤ n * i.scale && n * i.scale ≤ i.high * d
  else i.low * d < n * i.scale && n * i.scale < i.high * d

/-- The power of ten of the first digit of the value. The smallest positive
magnitude exceeds `10 ^ (-340)`. -/
def point (i : Interval) : Int :=
  ((decimalDigits (i.value * powerOfTen 340 / i.scale)).length : Int) - 341

/-- The decimal `c * 10 ^ e` in normal form, where the first digit of a `n`-digit
`c` stands at `e + n - 1`. -/
def decimal (c : Nat) (e : Int) : Decimal :=
  let digits := decimalDigits c
  ⟨dropTrailingZeros digits, e + digits.length - 1⟩

/-- The neighbour of the value with `n` significant digits that lies in the
interval; if both do, the nearer one, and the even one of two equally near. -/
def neighbour? (i : Interval) (n : Nat) : Option Decimal :=
  let e := i.point + 1 - n
  -- a grid step is `up / down`
  let (up, down) := match e with
    | .ofNat k => (powerOfTen k, 1)
    | .negSucc k => (1, powerOfTen (k + 1))
  let c := i.value * down / (i.scale * up)
  match i.contains (c * up) down, i.contains ((c + 1) * up) down with
  | true, false => some (decimal c e)
  | false, true => some (decimal (c + 1) e)
  | true, true =>
    let twice := 2 * i.value * down
    let half := (2 * c + 1) * up * i.scale
    if twice < half ∨ (twice = half ∧ c % 2 = 0) then some (decimal c e)
    else some (decimal (c + 1) e)
  | false, false => none

end Interval

/-- The fewest digits that read back as a positive magnitude; seventeen always
suffice. -/
def Magnitude.shortest (m : Magnitude) : Decimal :=
  ((List.range 17).findSome? fun n => m.interval.neighbour? (n + 1)).getD ⟨[], 0⟩

end EntityRdf

import EntityRdf.Numeral.Shortest

/-!
# Layout: how the digits of a number are written

A `DecimalLayout` says which numbers are written positionally; all others get
an exponent. A positional number always has a digit on both sides of its point.
-/

namespace EntityRdf

/-- The choices in writing a decimal. -/
structure DecimalLayout where
  /-- The least power of ten of the first digit that is written positionally. -/
  least : Int
  /-- The least power above `least` that is written with an exponent. -/
  bound : Int
deriving DecidableEq, Repr

namespace DecimalLayout

/-- Positional from `0.00001` up to, but not including, `1e+16`. -/
def literal : DecimalLayout := ⟨-5, 16⟩

/-- The digits around a point, with zeros where there are none. -/
def positional (digits : List Char) : (point : Int) → List Char
  | .negSucc k => '0' :: '.' :: List.replicate k '0' ++ digits
  | .ofNat k =>
    let whole := digits.take (k + 1) ++ List.replicate (k + 1 - digits.length) '0'
    let fraction := digits.drop (k + 1)
    whole ++ '.' :: (if fraction.isEmpty then ['0'] else fraction)

/-- One digit before the point, and the exponent with its sign. -/
def scientific (digits : List Char) (point : Int) : List Char :=
  let fraction := digits.drop 1
  let sign := if point < 0 then '-' else '+'
  digits.take 1 ++ (if fraction.isEmpty then [] else '.' :: fraction) ++
    'e' :: sign :: decimalDigits point.natAbs

def write (l : DecimalLayout) (d : Decimal) : List Char :=
  if l.least ≤ d.point ∧ d.point < l.bound then positional d.digits d.point
  else scientific d.digits d.point

end DecimalLayout

def Magnitude.text (m : Magnitude) : String :=
  if m.isZero then "0.0" else String.ofList (DecimalLayout.literal.write m.shortest)

end EntityRdf

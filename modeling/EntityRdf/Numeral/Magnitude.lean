import EntityRdf.Numeral.Digits

/-!
# Magnitudes: the nonnegative finite double-precision numbers

A magnitude is `mantissa * 2 ^ exponent` with a mantissa below `2 ^ 53` and an
exponent of at least `-1074`. Arithmetic is exact arithmetic on naturals
followed by one rounding to the nearest magnitude, ties to the even mantissa
(`Magnitude.ofRatio?`), so no operation goes through a hardware float.
-/

namespace EntityRdf

/-- A nonnegative finite double-precision number. -/
structure Magnitude where
  mantissa : Nat
  /-- The power of two of the last bit. -/
  exponent : Int
deriving DecidableEq, Repr

namespace Magnitude

def zero : Magnitude := ⟨0, -1074⟩

instance : Inhabited Magnitude := ⟨zero⟩

/-- The least mantissa with all bits in use, `2 ^ 52`. -/
def hiddenBit : Nat := 0x10000000000000

def isZero (m : Magnitude) : Bool := m.mantissa == 0

/-- The numerator and denominator of `n * 2 ^ e`. -/
def ratio (n : Nat) : (e : Int) → Nat × Nat
  | .ofNat k => (n <<< k, 1)
  | .negSucc k => (n, 1 <<< (k + 1))

def toRatio (m : Magnitude) : Nat × Nat := ratio m.mantissa m.exponent

/-- The quotient rounded to the nearest natural, a half to the even one. -/
def roundHalfEven (num den : Nat) : Nat :=
  let q := num / den
  let twice := 2 * (num % den)
  if twice > den ∨ (twice = den ∧ q % 2 = 1) then q + 1 else q

/-- Whether `num / den` is at least `2 ^ e`. -/
def atLeastPower (num den : Nat) : (e : Int) → Bool
  | .ofNat k => den <<< k ≤ num
  | .negSucc k => den ≤ num <<< (k + 1)

/-- The exponent of the leading bit of a positive fraction. -/
def leadingBit (num den : Nat) : Int :=
  let guess : Int := (num.log2 : Int) - den.log2
  if atLeastPower num den guess then guess else guess - 1

/-- The magnitude nearest to a fraction with positive denominator; none when it
is too large to be finite. -/
def ofRatio? (num den : Nat) : Option Magnitude :=
  if num = 0 then some zero
  else
    let e := max (leadingBit num den - 52) (-1074)
    let m := match e with
      | .ofNat k => roundHalfEven num (den <<< k)
      | .negSucc k => roundHalfEven (num <<< (k + 1)) den
    let rounded : Magnitude := if m = 2 * hiddenBit then ⟨hiddenBit, e + 1⟩ else ⟨m, e⟩
    if rounded.exponent > 971 then none else some rounded

/-- The magnitude nearest to a natural. -/
def ofNat? (n : Nat) : Option Magnitude := ofRatio? n 1

/-- The rounded product; none when it is too large. -/
def mul? (a b : Magnitude) : Option Magnitude :=
  ofRatio? (a.toRatio.1 * b.toRatio.1) (a.toRatio.2 * b.toRatio.2)

/-- The rounded quotient by a positive number; none when it is too large. -/
def div? (a b : Magnitude) : Option Magnitude :=
  ofRatio? (a.toRatio.1 * b.toRatio.2) (a.toRatio.2 * b.toRatio.1)

/-- The magnitude nearest to a power of ten. -/
def powerOfTen? (n : Nat) : Option Magnitude := ofNat? (powerOfTen n)

end Magnitude

end EntityRdf

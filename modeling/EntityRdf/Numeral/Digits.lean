/-!
# Digits

Powers of ten, digits up to base sixteen, and the naturals that sequences of
them spell.
-/

namespace EntityRdf

/-- The decimal digits of a natural. -/
def decimalDigits (n : Nat) : List Char := Nat.toDigits 10 n

def powerOfTen (k : Nat) : Nat := Nat.pow 10 k

/-- The value of a hexadecimal digit in either case. -/
def hexValue? (c : Char) : Option Nat :=
  if c.isDigit then some (c.toNat - '0'.toNat)
  else if 'a' ≤ c ∧ c ≤ 'f' then some (c.toNat - 'a'.toNat + 10)
  else if 'A' ≤ c ∧ c ≤ 'F' then some (c.toNat - 'A'.toNat + 10)
  else none

/-- Whether a character is a hexadecimal digit. -/
def isHexDigit (c : Char) : Bool := (hexValue? c).isSome

/-- The natural that digits spell in a base. -/
def naturalIn (base : Nat) (digits : List Char) : Nat :=
  digits.foldl (fun n c => base * n + (hexValue? c).getD 0) 0

/-- The lowest hexadecimal digits of a natural, a given count of them. -/
def hexDigits (n : Nat) : (count : Nat) → List Char
  | 0 => []
  | count + 1 => hexDigits (n / 16) count ++ [Nat.digitChar (n % 16)]

end EntityRdf

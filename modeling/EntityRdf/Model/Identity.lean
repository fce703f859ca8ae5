import EntityRdf.Numeral.Digits

/-!
# Identities for new entities

A new entity gets a namespace followed by a random UUID of version 4. The
random bits come from outside; everything else is decided here.
-/

namespace EntityRdf.Model

/-- The 122 random bits of a version 4 UUID. -/
abbrev RandomBits := BitVec 122

/-- The text of a version 4 UUID: 8, 4, 4, 4 and 12 digits, where the third group
starts with the version and the fourth with the variant. -/
def uuid (bits : RandomBits) : String :=
  let n := bits.toNat
  let variant := Nat.digitChar (8 + n >>> 120)
  String.ofList <|
    hexDigits (n >>> 88) 8 ++ '-' :: hexDigits (n >>> 72) 4 ++
    '-' :: '4' :: hexDigits (n >>> 60) 3 ++
    '-' :: variant :: hexDigits (n >>> 48) 3 ++ '-' :: hexDigits n 12

/-- A new identity in a namespace. -/
def mint (ns : String) (bits : RandomBits) : String := ns ++ uuid bits

end EntityRdf.Model

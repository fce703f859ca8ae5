import EntityRdf.Entries
import EntityRdf.Json.Number

/-!
# JSON values

The members of an object are a list of entries. A text that repeats a key
describes the object with the last value for it, and objects that are read or
built through `Entries.insert` keep their members in key order, so that equal
objects are equal lists; a printed object shows its members in list order.
-/

namespace EntityRdf

/-- A JSON value. -/
inductive Json where
  | null
  | bool (b : Bool)
  | num (n : Json.Number)
  | str (s : String)
  | arr (items : List Json)
  | obj (members : List (String × Json))
deriving Repr

namespace Json

instance : Inhabited Json := ⟨null⟩

mutual

def decEq : (a b : Json) → Decidable (a = b)
  | .null, .null => .isTrue rfl
  | .bool a, .bool b => if h : a = b then .isTrue (h ▸ rfl) else .isFalse (by simp [h])
  | .num a, .num b => if h : a = b then .isTrue (h ▸ rfl) else .isFalse (by simp [h])
  | .str a, .str b => if h : a = b then .isTrue (h ▸ rfl) else .isFalse (by simp [h])
  | .arr a, .arr b =>
    match decEqItems a b with
    | .isTrue h => .isTrue (h ▸ rfl)
    | .isFalse h => .isFalse (by simp [h])
  | .obj a, .obj b =>
    match decEqMembers a b with
    | .isTrue h => .isTrue (h ▸ rfl)
    | .isFalse h => .isFalse (by simp [h])
  | .null, .bool _ | .null, .num _ | .null, .str _ | .null, .arr _ | .null, .obj _
  | .bool _, .null | .bool _, .num _ | .bool _, .str _ | .bool _, .arr _ | .bool _, .obj _
  | .num _, .null | .num _, .bool _ | .num _, .str _ | .num _, .arr _ | .num _, .obj _
  | .str _, .null | .str _, .bool _ | .str _, .num _ | .str _, .arr _ | .str _, .obj _
  | .arr _, .null | .arr _, .bool _ | .arr _, .num _ | .arr _, .str _ | .arr _, .obj _
  | .obj _, .null | .obj _, .bool _ | .obj _, .num _ | .obj _, .str _ | .obj _, .arr _ =>
    .isFalse (by simp)

/-- Decides equality of sequences of values. -/
def decEqItems : (a b : List Json) → Decidable (a = b)
  | [], [] => .isTrue rfl
  | [], _ :: _ => .isFalse (by simp)
  | _ :: _, [] => .isFalse (by simp)
  | a :: as, b :: bs =>
    match decEq a b with
    | .isFalse h => .isFalse (by simp [h])
    | .isTrue h =>
      match decEqItems as bs with
      | .isTrue h' => .isTrue (h ▸ h' ▸ rfl)
      | .isFalse h' => .isFalse (by simp [h'])

def decEqMembers : (a b : List (String × Json)) → Decidable (a = b)
  | [], [] => .isTrue rfl
  | [], _ :: _ => .isFalse (by simp)
  | _ :: _, [] => .isFalse (by simp)
  | (k, a) :: as, (l, b) :: bs =>
    if h : k = l then
      match decEq a b with
      | .isFalse h' => .isFalse (by simp [h'])
      | .isTrue h' =>
        match decEqMembers as bs with
        | .isTrue h'' => .isTrue (h ▸ h' ▸ h'' ▸ rfl)
        | .isFalse h'' => .isFalse (by simp [h''])
    else .isFalse (by simp [h])

end

instance : DecidableEq Json := decEq

/-- The words for the kind of a value. -/
def kind : Json → String
  | .null => "null"
  | .bool _ => "a boolean"
  | .num _ => "a number"
  | .str _ => "a string"
  | .arr _ => "an array"
  | .obj _ => "an object"

/-- The string of a value that is one. -/
def str? : Json → Option String
  | .str s => some s
  | _ => none

/-- The text of a string, number or truth value. -/
def scalarText? : Json → Option String
  | .bool true => some "true"
  | .bool false => some "false"
  | .num n => some n.text
  | .str s => some s
  | .null | .arr _ | .obj _ => none

end Json

end EntityRdf

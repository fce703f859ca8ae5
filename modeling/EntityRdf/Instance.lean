import EntityRdf.Entries

/-!
# Instances: entities before they are written

An instance is a class name with a finite map from field names to values. A
value is a string, a sequence of strings, a nested entity or a sequence of
nested entities. An empty sequence counts as no value: setting a field to one
removes the field. Instances built with `Instance.new`, `Instance.set` and
`Instance.remove` keep their fields in name order, so they can be compared
with `=`.
-/

namespace EntityRdf

mutual

/-- The value of one field. -/
inductive Value where
  | str (s : String)
  | strs (l : List String)
  | entity (e : Instance)
  | entities (l : List Instance)

/-- An entity of a class. -/
inductive Instance where
  /-- The class name, and the set fields in name order. -/
  | mk (className : String) (fields : List (String × Value))

end

/-! ## Equality -/

mutual

def Value.decEq : (a b : Value) → Decidable (a = b)
  | .str a, .str b => if h : a = b then .isTrue (h ▸ rfl) else .isFalse (by simp [h])
  | .strs a, .strs b => if h : a = b then .isTrue (h ▸ rfl) else .isFalse (by simp [h])
  | .entity a, .entity b =>
    match Instance.decEq a b with
    | .isTrue h => .isTrue (h ▸ rfl)
    | .isFalse h => .isFalse (by simp [h])
  | .entities a, .entities b =>
    match Instance.decEqList a b with
    | .isTrue h => .isTrue (h ▸ rfl)
    | .isFalse h => .isFalse (by simp [h])
  | .str _, .strs _ | .str _, .entity _ | .str _, .entities _
  | .strs _, .str _ | .strs _, .entity _ | .strs _, .entities _
  | .entity _, .str _ | .entity _, .strs _ | .entity _, .entities _
  | .entities _, .str _ | .entities _, .strs _ | .entities _, .entity _ => .isFalse (by simp)

def Instance.decEq : (a b : Instance) → Decidable (a = b)
  | .mk c f, .mk d g =>
    if h : c = d then
      match Value.decEqFields f g with
      | .isTrue h' => .isTrue (h ▸ h' ▸ rfl)
      | .isFalse h' => .isFalse (by simp [h'])
    else .isFalse (by simp [h])

/-- Decides equality of sequences of instances. -/
def Instance.decEqList : (a b : List Instance) → Decidable (a = b)
  | [], [] => .isTrue rfl
  | [], _ :: _ => .isFalse (by simp)
  | _ :: _, [] => .isFalse (by simp)
  | a :: as, b :: bs =>
    match Instance.decEq a b with
    | .isFalse h => .isFalse (by simp [h])
    | .isTrue h =>
      match Instance.decEqList as bs with
      | .isTrue h' => .isTrue (h ▸ h' ▸ rfl)
      | .isFalse h' => .isFalse (by simp [h'])

def Value.decEqFields : (a b : List (String × Value)) → Decidable (a = b)
  | [], [] => .isTrue rfl
  | [], _ :: _ => .isFalse (by simp)
  | _ :: _, [] => .isFalse (by simp)
  | (n, v) :: as, (m, w) :: bs =>
    if h : n = m then
      match Value.decEq v w with
      | .isFalse h' => .isFalse (by simp [h'])
      | .isTrue h' =>
        match Value.decEqFields as bs with
        | .isTrue h'' => .isTrue (h ▸ h' ▸ h'' ▸ rfl)
        | .isFalse h'' => .isFalse (by simp [h''])
    else .isFalse (by simp [h])

end

instance : DecidableEq Value := Value.decEq
instance : DecidableEq Instance := Instance.decEq

/-! ## Operations -/

namespace Value

/-- The string of a value that is one string. -/
def str? : Value → Option String
  | .str s => some s
  | _ => none

/-- Whether the value is a sequence without elements. -/
def isEmptySequence : Value → Bool
  | .strs l => l.isEmpty
  | .entities l => l.isEmpty
  | .str _ | .entity _ => false

/-- The entities nested directly in a value, in order. -/
def nested : Value → List Instance
  | .entity e => [e]
  | .entities l => l
  | .str _ | .strs _ => []

end Value

namespace Instance

/-- An instance of a class with no field set. -/
def new (className : String) : Instance := .mk className []

def className : Instance → String
  | .mk c _ => c

/-- The set fields, in name order. -/
def fields : Instance → List (String × Value)
  | .mk _ f => f

instance : Inhabited Instance := ⟨new ""⟩

def get? (e : Instance) (field : String) : Option Value := e.fields.lookup field

/-- The string of a field that holds one string. -/
def getStr? (e : Instance) (field : String) : Option String := (e.get? field).bind Value.str?

def remove (e : Instance) (field : String) : Instance :=
  .mk e.className (Entries.erase field e.fields)

/-- Sets a field; an empty sequence unsets it. -/
def set (e : Instance) (field : String) (v : Value) : Instance :=
  if v.isEmptySequence then e.remove field
  else .mk e.className (Entries.insert field v e.fields)

/-- Sets a field if there is a string for it. -/
def setStr? (e : Instance) (field : String) : Option String → Instance
  | some s => e.set field (.str s)
  | none => e

/-! ## Nested instances are smaller -/

/-- A nested instance is smaller than the value it is in. -/
theorem sizeOf_lt_of_mem_nested {e : Instance} {v : Value} (h : e ∈ v.nested) :
    sizeOf e < sizeOf v := by
  cases v with
  | str s => simp [Value.nested] at h
  | strs l => simp [Value.nested] at h
  | entity a =>
    simp only [Value.nested, List.mem_singleton] at h
    subst h
    simp
  | entities l =>
    have hl : e ∈ l := h
    have := List.sizeOf_lt_of_mem hl
    simp only [Value.entities.sizeOf_spec]
    omega

/-- A value is smaller than the instance that holds it. -/
theorem sizeOf_lt_of_get? {e : Instance} {field : String} {v : Value}
    (h : e.get? field = some v) : sizeOf v < sizeOf e := by
  obtain ⟨c, f⟩ := e
  have hm : (field, v) ∈ f := Entries.mem_of_lookup h
  have := List.sizeOf_lt_of_mem hm
  simp only [Prod.mk.sizeOf_spec] at this
  simp only [mk.sizeOf_spec]
  omega

end Instance

end EntityRdf

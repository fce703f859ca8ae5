import EntityRdf.Entries

/-!
# TOML values and tables

A document is a tree of tables. A table remembers how it came to be, because
that decides how it may grow: a header may open a table that so far was only
implied by longer headers, and a dotted key may only add to tables that dotted
keys have made. Tables and arrays written inline never grow.
-/

namespace EntityRdf

/-- How a table came to be. -/
inductive Toml.Origin where
  /-- By a header of its own. -/
  | header
  /-- By the header of a table inside it. -/
  | implied
  | dotted
deriving DecidableEq, Repr

/-- A TOML value. -/
inductive Toml where
  | str (s : String)
  | integer (n : Int)
  /-- A number with fraction or exponent, infinity or no number, as written. -/
  | float (text : String)
  | bool (b : Bool)
  /-- A date, a time or both, in canonical form. -/
  | dateTime (text : String)
  | array (items : List Toml)
  | inline (entries : List (String × Toml))
  /-- A table made by headers or dotted keys. -/
  | table (origin : Toml.Origin) (entries : List (String × Toml))
  /-- An array of tables made by headers, last first. -/
  | tables (items : List (List (String × Toml)))
deriving Repr

namespace Toml

instance : Inhabited Toml := ⟨bool false⟩

/-- A table's entries in key order. -/
abbrev Table := List (String × Toml)

/-- Adds a value under a dotted key, given as the path to a table and a name in
it. The tables on the path are made if they are missing. Only the table itself
and tables made by dotted keys take new names. -/
def addValue (name : String) (v : Toml) : (takesNames : Bool) → Table → List String → Option Table
  | takesNames, t, [] =>
    if !takesNames || (t.lookup name).isSome then none else some (Entries.insert name v t)
  | _, t, k :: path =>
    match t.lookup k with
    | none => (addValue name v true [] path).map fun s => Entries.insert k (.table .dotted s) t
    | some (.table .dotted s) =>
      (addValue name v true s path).map fun s => Entries.insert k (.table .dotted s) t
    | some (.table .implied s) =>
      (addValue name v false s path).map fun s => Entries.insert k (.table .implied s) t
    | some (.tables (s :: rest)) =>
      (addValue name v false s path).map fun s => Entries.insert k (.tables (s :: rest)) t
    | some _ => none

/-- Changes the table that a header path leads to, through the last table of each
array of tables. Missing tables on the way are implied. -/
def changeAt (change : Table → Option Table) : Table → List String → Option Table
  | t, [] => change t
  | t, k :: path =>
    match t.lookup k with
    | none => (changeAt change [] path).map fun s => Entries.insert k (.table .implied s) t
    | some (.table origin s) =>
      (changeAt change s path).map fun s => Entries.insert k (.table origin s) t
    | some (.tables (s :: rest)) =>
      (changeAt change s path).map fun s => Entries.insert k (.tables (s :: rest)) t
    | some _ => none

/-- Opens a table by a header. -/
def openTable (name : String) (t : Table) : Option Table :=
  match t.lookup name with
  | none => some (Entries.insert name (.table .header []) t)
  | some (.table .implied s) => some (Entries.insert name (.table .header s) t)
  | some _ => none

/-- Opens the next table of an array of tables by a header. -/
def openElement (name : String) (t : Table) : Option Table :=
  match t.lookup name with
  | none => some (Entries.insert name (.tables [[]]) t)
  | some (.tables l) => some (Entries.insert name (.tables ([] :: l)) t)
  | some _ => none

end Toml

end EntityRdf

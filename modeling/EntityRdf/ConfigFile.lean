import EntityRdf.Config
import EntityRdf.FileAccess
import EntityRdf.Toml.Reader

/-!
# Configuration files

A configuration is a TOML document with the keys `strict`, `max_depth`,
`max_nodes` and `prefixes`, all of them optional; other keys are ignored.
-/

namespace EntityRdf.Config

/-- A truth value under a key. -/
def boolAt? (t : Toml.Table) (key : String) (default : Bool) : Option Bool :=
  match t.lookup key with
  | none => some default
  | some (.bool b) => some b
  | some _ => none

def natAt? (t : Toml.Table) (key : String) (default : Nat) : Option Nat :=
  match t.lookup key with
  | none => some default
  | some (.integer (.ofNat n)) => some n
  | some _ => none

/-- The key that stands for a date in a place for a table. -/
def dateKey : String := "$__toml_private_datetime"

/-- A table of strings under a key. A date counts as a table with one key. -/
def stringsAt? (t : Toml.Table) (key : String) : Option (List (String × String)) :=
  match t.lookup key with
  | none => some []
  | some (.inline entries) | some (.table _ entries) => entries.mapM fun e =>
    match e.2 with
    | .str s => some (e.1, s)
    | _ => none
  | some (.dateTime text) => some [(dateKey, text)]
  | some _ => none

/-- The configuration that a document describes, unless a key has a value of
another type. -/
def ofTable? (t : Toml.Table) : Option Config := do
  return ⟨← boolAt? t "strict" default.strict, ← natAt? t "max_depth" default.maxDepth,
    ← natAt? t "max_nodes" default.maxNodes, .ofList (← stringsAt? t "prefixes")⟩

def ofText (text : String) : Except ConfigError Config :=
  match (Toml.read? text).bind ofTable? with
  | none => .error .malformed
  | some c => c.validate

/-- Reads and validates what is found at the path of a configuration. -/
def ofFile : FileContent → Except ConfigError Config
  | .missing | .unreadable => .error .unreadable
  | .text s => ofText s

end EntityRdf.Config

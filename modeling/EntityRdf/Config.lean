import EntityRdf.Context

/-!
# Configuration of encoding and decoding
-/

namespace EntityRdf

/-- The options of encoding and decoding. -/
structure Config where
  /-- Refuse unmapped predicates and unresolved references instead of dropping
  them. -/
  strict : Bool
  /-- The deepest nesting of entities; a root has depth zero. -/
  maxDepth : Nat
  /-- The most entities one decoding may build, counting every copy. -/
  maxNodes : Nat
  /-- Prefixes added to the StreamPipes context. -/
  prefixes : StringMap String
deriving DecidableEq, Repr

/-- Why a configuration could not be used. -/
inductive ConfigError where
  /-- The file is missing or is no text. -/
  | unreadable
  /-- The text is no TOML of the expected shape. -/
  | malformed
  | zeroDepth
  | zeroNodes
  /-- A prefix has an empty name or namespace. -/
  | emptyPrefix (name : String)
deriving DecidableEq, Repr

/-- The text of a configuration error. -/
def ConfigError.message : ConfigError → String
  | .unreadable => "failed to read config file"
  | .malformed => "failed to parse config"
  | .zeroDepth => "invalid config value: max_depth must be > 0"
  | .zeroNodes => "invalid config value: max_nodes must be > 0"
  | .emptyPrefix name =>
    s!"invalid config value: prefix `{name}` must have a non-empty name and namespace"

namespace Config

/-- Lenient, at most 32 levels deep and 10000 entities large. -/
def default : Config := ⟨false, 32, 10000, .empty⟩

instance : Inhabited Config := ⟨default⟩

/-- The defaults with strict decoding. -/
def strictDefault : Config := { default with strict := true }

/-- Accepts positive limits and prefixes without empty parts. -/
def validate (c : Config) : Except ConfigError Config :=
  if c.maxDepth = 0 then .error .zeroDepth
  else if c.maxNodes = 0 then .error .zeroNodes
  else match c.prefixes.entries.find? (fun e => e.1.isEmpty || e.2.isEmpty) with
    | some e => .error (.emptyPrefix e.1)
    | none => .ok c

/-- The StreamPipes context with the configured prefixes, which win. -/
def context (c : Config) : Context := ⟨Context.streamPipes.bindings.merge c.prefixes⟩

end Config

end EntityRdf

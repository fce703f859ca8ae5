/-!
# Arguments of a command line

Arguments are read from left to right against a `CommandSpec`: long options,
with a value after `=` or in the next argument, clusters of one-letter options,
positional arguments, and at most one subcommand, which takes all arguments
after it. After `--` everything is positional. The first argument that decides
the outcome wins, so an error before a request for help is an error.
-/

namespace EntityRdf.CommandLine

/-- An option of a command. -/
structure OptionSpec where
  /-- The long name, without hyphens. -/
  long : String
  short : Option Char
  /-- The values it accepts; none for an option without value. -/
  accepts : Option (String → Bool)
  /-- Whether it may be given more than once. -/
  repeatable : Bool

/-- What a command accepts. -/
structure CommandSpec where
  options : List OptionSpec
  positionals : List (String → Bool)
  required : Nat
  subcommands : List String
  hasVersion : Bool

/-- Why reading stopped before the end. -/
inductive Stop where
  | usage
  | help
  | version
deriving DecidableEq, Repr

/-- What the arguments of one command say. -/
structure Matches where
  values : List (String × String)
  /-- Options without values. -/
  flags : List String
  /-- Positional arguments, in order. -/
  positionals : List String
deriving DecidableEq, Repr

namespace Matches

def empty : Matches := ⟨[], [], []⟩

def value? (m : Matches) (long : String) : Option String := m.values.lookup long

/-- Whether an option without value was given. -/
def hasFlag (m : Matches) (long : String) : Bool := m.flags.contains long

/-- Adds an option with a value. -/
def addValue (m : Matches) (o : OptionSpec) (accepts : String → Bool) (v : String) :
    Except Stop Matches :=
  if !accepts v || (!o.repeatable && (m.value? o.long).isSome) then .error .usage
  else .ok { m with values := (o.long, v) :: m.values }

/-- Adds an option without value. -/
def addFlag (m : Matches) (o : OptionSpec) : Except Stop Matches :=
  if !o.repeatable && m.hasFlag o.long then .error .usage
  else .ok { m with flags := o.long :: m.flags }

end Matches

/-- The forms of an argument. -/
inductive Shape where
  /-- A long option, perhaps with a value. -/
  | long (name : String) (value : Option String)
  | short (letters : List Char)
  /-- Anything else; a single hyphen too. -/
  | plain
deriving DecidableEq, Repr

/-- Splits off a value after `=`. -/
def splitValue (cs : List Char) : Shape :=
  match cs.span (· ≠ '=') with
  | (name, []) => .long (String.ofList name) none
  | (name, _ :: v) => .long (String.ofList name) (some (String.ofList v))

def shape (arg : String) : Shape :=
  match arg.toList with
  | '-' :: '-' :: cs => splitValue cs
  | '-' :: c :: cs => .short (c :: cs)
  | _ => .plain

namespace CommandSpec

/-- The option of a long name. -/
def option? (s : CommandSpec) (long : String) : Option OptionSpec :=
  s.options.find? (·.long == long)

/-- The option of a long name with the values it accepts, if it has a value. -/
def valued? (s : CommandSpec) (long : String) : Option (OptionSpec × (String → Bool)) := do
  let o ← s.option? long
  let accepts ← o.accepts
  return (o, accepts)

def addPositional (s : CommandSpec) (m : Matches) (arg : String) : Except Stop Matches :=
  match s.positionals[m.positionals.length]? with
  | none => .error .usage
  | some accepts =>
    if accepts arg then .ok { m with positionals := m.positionals ++ [arg] } else .error .usage

/-- Takes a cluster of one-letter options. -/
def addCluster (s : CommandSpec) (m : Matches) : List Char → Except Stop Matches
  | [] => .ok m
  | c :: cs =>
    if c = 'h' then .error .help
    else if s.hasVersion && c = 'V' then .error .version
    else match s.options.find? (·.short == some c) with
      | none => .error .usage
      | some o => do s.addCluster (← m.addFlag o) cs

/-- Takes a long option without value, among them help and version. -/
def addLong (s : CommandSpec) (m : Matches) (long : String) : Except Stop Matches :=
  if long = "help" then .error .help
  else if s.hasVersion && long = "version" then .error .version
  else match s.option? long with
    | none => .error .usage
    | some o => m.addFlag o

/-- Checks at the end that no required argument is missing. -/
def finish (s : CommandSpec) (m : Matches) : Except Stop Matches :=
  if m.positionals.length < s.required then .error .usage else .ok m

/-- Reads arguments up to a subcommand, which is returned with what follows. -/
def read (s : CommandSpec) (m : Matches) :
    List String → Except Stop (Matches × Option (String × List String))
  | [] => do return (← s.finish m, none)
  | arg :: rest =>
    if arg = "--" then do return (← s.finish (← rest.foldlM s.addPositional m), none)
    else if s.subcommands.contains arg then .ok (m, some (arg, rest))
    else match shape arg with
      | .plain => do s.read (← s.addPositional m arg) rest
      | .short letters => do s.read (← s.addCluster m letters) rest
      | .long name value? =>
        match s.valued? name, value? with
        | none, none => do s.read (← s.addLong m name) rest
        | none, some _ => .error .usage
        | some (o, accepts), some v => do s.read (← m.addValue o accepts v) rest
        | some (o, accepts), none =>
          match rest with
          | [] => .error .usage
          | v :: rest =>
            if shape v = .plain then do s.read (← m.addValue o accepts v) rest
            else .error .usage

end CommandSpec

end EntityRdf.CommandLine

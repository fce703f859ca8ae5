import EntityRdf.CommandLine.Invocation
import EntityRdf.ConfigFile
import EntityRdf.Conformance.JsonLd
import EntityRdf.Model.Catalogue

/-!
# The program behind the command line

The program reads its configuration, builds the registry of the data model and
carries out one command. It ends with an exit code and two texts: 0 for
success, 1 for an error or a failed check, 2 for misuse.
-/

namespace EntityRdf.CommandLine

/-- How the program ends. -/
structure Outcome where
  exitCode : Nat
  output : String
  errorOutput : String
deriving DecidableEq, Repr

namespace Outcome

def success (output : String) : Outcome := ⟨0, output, ""⟩

/-- A text with every line after the first indented. -/
def indentLines (s : String) : String := s.replace "\n" "\n    "

/-- An error, perhaps with the error behind it. -/
def failure (message : String) (cause : Option String) : Outcome :=
  ⟨1, "", "Error: " ++ message ++
    (match cause with
    | some c => "\n\nCaused by:\n    " ++ indentLines c
    | none => "") ++ "\n"⟩

def misuse : Outcome := ⟨2, "", "Usage: sp-mapper [OPTIONS] <COMMAND>\n"⟩

end Outcome

/-! ## Describing -/

/-- A text with blanks up to a width. -/
def padTo (width : Nat) (s : String) : String :=
  s ++ String.ofList (List.replicate (width - s.length) ' ')

def rangeWord : Range → String
  | .literal => "Literal"
  | .entity => "Entity"

def fieldLine (f : FieldDescriptor) : String :=
  let mapping := match f.mapping with
    | .identity => "subject"
    | .predicate iri range => s!"{iri} -> " ++ rangeWord range
  let multiplicity := match f.multiplicity with
    | .single => ""
    | .multi => " (multi)"
  "  " ++ padTo 24 f.name ++ " " ++ mapping ++ multiplicity ++ "\n"

def describeClass (d : ClassDescriptor) : String :=
  s!"{d.name} ({d.tag})\n" ++ String.join (d.fields.map fieldLine)

def describeAll (R : Registry) : String :=
  s!"{R.size} registered classes\n" ++
    String.join (R.classList.map fun d => "  " ++ padTo 28 d.name ++ " " ++ d.tag ++ "\n")

/-- Describes a class, or lists all. -/
def describe (R : Registry) : Option String → Outcome
  | none => .success (describeAll R)
  | some className =>
    match R.describe className with
    | .ok d => .success (describeClass d)
    | .error e => .failure e.message none

/-! ## Checking -/

def reportOutcome (file : String) (json : Bool) (r : Report) : Outcome :=
  let output := if json then r.toJson.pretty ++ "\n" else r.text file
  let failed := r.count .failure
  if failed = 0 then .success output
  else ⟨1, output, s!"Check FAILED: {failed} check(s) did not pass.\n"⟩

/-- Checks what is found at the path of a file. -/
def check (R : Registry) (cfg : Config) (file : String) (json : Bool) (found : FileContent) :
    Outcome :=
  match R.validateFile cfg file found with
  | some r => reportOutcome file json r
  | none => .failure s!"Failed to read {file}" none

/-! ## Converting -/

/-- The end of a conversion that failed. -/
def conversionFailure (file : String) : ConversionError → Outcome
  | .syntaxError _ => .failure s!"Failed to parse {file} as JSON" none
  | .structureError e => .failure s!"Failed to read JSON-LD from {file}" (some e.message)
  | .decodingError e => .failure s!"Failed to decode {file}" (some e.message)
  | .encodingError e => .failure e.message none

def deliver (text : String) : Option String → FileProgram Outcome
  | none => .done (.success text)
  | some out => .write out text fun written =>
    if written then
      .done (.success (s!"Wrote {out} (" ++ toString text.utf8ByteSize ++ " bytes)\n"))
    else .done (.failure s!"Failed to write {out}" none)

/-- Converts what is found at the path of a file. -/
def convert (R : Registry) (cfg : Config) (file : String) (format : Format) (out : Option String) :
    FileContent → FileProgram Outcome
  | .missing | .unreadable => .done (.failure s!"Failed to read {file}" none)
  | .text s =>
    match R.convert cfg format s with
    | .ok c => deliver c.text out
    | .error e => .done (conversionFailure file e)

/-! ## The program -/

def Command.program (R : Registry) (cfg : Config) : Command → FileProgram Outcome
  | .describe className => .done (CommandLine.describe R className)
  | .check file json => .read file fun found => .done (CommandLine.check R cfg file json found)
  | .convert file format out => .read file (CommandLine.convert R cfg file format out)

/-- Carries out a command under a configuration. -/
def Command.configured (c : Command) (cfg : Config) : FileProgram Outcome :=
  match Registry.withModel cfg.context with
  | .error e => .done (.failure "Failed to build the model registry" (some e.message))
  | .ok R => c.program R cfg

/-- The end of a program whose configuration could not be used. -/
def configFailure (path : String) (e : ConfigError) : Outcome :=
  .failure s!"Failed to load config {path}" <|
    match e with
    | .unreadable | .malformed => none
    | .zeroDepth | .zeroNodes | .emptyPrefix _ => some e.message

/-- Reads the configuration, if one is given, and carries out the command. -/
def Invocation.program (i : Invocation) : FileProgram Outcome :=
  match i.config with
  | none => i.command.configured .default
  | some path => .read path fun found =>
    match Config.ofFile found with
    | .ok cfg => i.command.configured cfg
    | .error e => .done (configFailure path e)

/-- The program for a command line. -/
def program (args : List String) : FileProgram Outcome :=
  match readRequest args with
  | .run i => i.program
  | .help topic => .done (.success topic.text)
  | .version => .done (.success versionText)
  | .misuse => .done .misuse

end EntityRdf.CommandLine

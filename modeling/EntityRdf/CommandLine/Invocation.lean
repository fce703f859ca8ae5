import EntityRdf.CommandLine.Arguments
import EntityRdf.CommandLine.Help
import EntityRdf.Conversion

/-!
# Invocations: what a command line asks for

The options for configuration and verbosity may stand before or after the
command; the configuration given last counts, the verbosity concerns logging
alone.
-/

namespace EntityRdf.CommandLine

/-- The commands of the program. -/
inductive Command where
  /-- Lists the classes, or the fields of one class. -/
  | describe (className : Option String)
  /-- Checks a file; the report may be JSON. -/
  | check (file : String) (json : Bool)
  /-- Converts a file, to a file or to the output. -/
  | convert (file : String) (format : Format) (out : Option String)
deriving DecidableEq, Repr

/-- A command with its configuration. -/
structure Invocation where
  config : Option String
  command : Command
deriving DecidableEq, Repr

/-- What a command line asks for. -/
inductive Request where
  | run (i : Invocation)
  | help (topic : Topic)
  | version
  | misuse
deriving DecidableEq, Repr

def isPath (s : String) : Bool := !s.isEmpty

def formatNamed? : String → Option Format
  | "jsonld" => some .jsonld
  | "turtle" => some .turtle
  | "ntriples" => some .ntriples
  | _ => none

def globalOptions : List OptionSpec :=
  [⟨"config", none, some isPath, false⟩, ⟨"verbose", some 'v', none, true⟩]

/-- The arguments before the command. -/
def programSpec : CommandSpec :=
  ⟨globalOptions, [], 0, ["describe", "check", "convert", "help"], true⟩

/-- The arguments of the describing command. -/
def describeSpec : CommandSpec := ⟨globalOptions, [fun _ => true], 0, [], false⟩

/-- The arguments of the checking command. -/
def checkSpec : CommandSpec :=
  ⟨⟨"json", none, none, false⟩ :: globalOptions, [isPath], 1, [], false⟩

/-- The arguments of the converting command. -/
def convertSpec : CommandSpec :=
  ⟨⟨"to", none, some fun s => (formatNamed? s).isSome, false⟩ ::
    ⟨"out", none, some isPath, false⟩ :: globalOptions, [isPath], 1, [], false⟩

/-- The request that reading ends with when it stops. -/
def Stop.request (topic : Topic) : Stop → Request
  | .usage => .misuse
  | .help => .help topic
  | .version => .version

/-- The command that its arguments describe. -/
def commandOf (topic : Topic) (m : Matches) : Option Command :=
  match topic, m.positionals with
  | .describe, [] => some (.describe none)
  | .describe, [className] => some (.describe (some className))
  | .check, [file] => some (.check file (m.hasFlag "json"))
  | .convert, [file] =>
    some (.convert file (((m.value? "to").bind formatNamed?).getD .jsonld) (m.value? "out"))
  | _, _ => none

def Topic.spec : Topic → CommandSpec
  | .program | .help => programSpec
  | .describe => describeSpec
  | .check => checkSpec
  | .convert => convertSpec

/-- Reads the arguments of a command. -/
def readCommand (topic : Topic) (config : Option String) (args : List String) : Request :=
  match topic.spec.read .empty args with
  | .error stop => stop.request topic
  | .ok (m, _) =>
    match commandOf topic m with
    | some c => .run ⟨m.value? "config" <|> config, c⟩
    | none => .misuse

/-- The help that is asked for by command names. -/
def readHelp : List String → Request
  | [] => .help .program
  | [name] =>
    match Topic.ofName? name with
    | some topic => .help topic
    | none => .misuse
  | _ => .misuse

def readRequest (args : List String) : Request :=
  match programSpec.read .empty args with
  | .error stop => stop.request .program
  | .ok (_, none) => .misuse
  | .ok (m, some (name, rest)) =>
    match Topic.ofName? name with
    | none => .misuse
    | some .help => readHelp rest
    | some topic => readCommand topic (m.value? "config") rest

end EntityRdf.CommandLine

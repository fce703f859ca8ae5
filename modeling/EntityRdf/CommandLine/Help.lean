/-!
# Help texts of the command line
-/

namespace EntityRdf.CommandLine

/-- What help can be asked about. -/
inductive Topic where
  | program
  | describe
  | check
  | convert
  | help
deriving DecidableEq, Repr

/-- The topic that a command name stands for. -/
def Topic.ofName? : String → Option Topic
  | "describe" => some .describe
  | "check" => some .check
  | "convert" => some .convert
  | "help" => some .help
  | _ => none

/-- The line of the option for the configuration. -/
def configLine : String := "      --config <CONFIG>  Mapper configuration file (TOML)"

/-- The line of the option for the verbosity. -/
def verboseLine : String :=
  "  -v, --verbose...       Increase log verbosity (-v info, -vv debug, -vvv trace)"

/-- The line of the option for help. -/
def helpLine : String := "  -h, --help             Print help"

/-- The lines of a help text. -/
def Topic.lines : Topic → List String
  | .program => [
    "StreamPipes entity-to-RDF mapper", "",
    "Usage: sp-mapper [OPTIONS] <COMMAND>", "",
    "Commands:",
    "  describe  List registered classes, or the field mappings of one class",
    "  check     Check a JSON-LD file against the registry",
    "  convert   Decode a JSON-LD file and re-encode it in another format",
    "  help      Print this message or the help of the given subcommand(s)", "",
    "Options:", configLine, verboseLine, helpLine, "  -V, --version          Print version"]
  | .describe => [
    "List registered classes, or the field mappings of one class", "",
    "Usage: sp-mapper describe [OPTIONS] [CLASS]", "",
    "Arguments:", "  [CLASS]  Class identity, e.g. `MappingPropertyNary`", "",
    "Options:", configLine, verboseLine, helpLine]
  | .check => [
    "Check a JSON-LD file against the registry", "",
    "Usage: sp-mapper check [OPTIONS] <FILE>", "",
    "Arguments:", "  <FILE>  JSON-LD file to check", "",
    "Options:", configLine, "      --json             Print the report as JSON", verboseLine,
    helpLine]
  | .convert => [
    "Decode a JSON-LD file and re-encode it in another format", "",
    "Usage: sp-mapper convert [OPTIONS] <FILE>", "",
    "Arguments:", "  <FILE>  JSON-LD file to convert", "",
    "Options:", configLine,
    "      --to <TO>          Output format [default: jsonld] " ++
      "[possible values: jsonld, turtle, ntriples]",
    "      --out <OUT>        Output file (default: stdout)", verboseLine, helpLine]
  | .help => [
    "Print this message or the help of the given subcommand(s)", "",
    "Usage: sp-mapper help [COMMAND]...", "",
    "Arguments:", "  [COMMAND]...  Print help for the subcommand(s)"]

def Topic.text (t : Topic) : String := String.join (t.lines.map (· ++ "\n"))

/-- The line that shows the version. -/
def versionText : String := "sp-mapper 0.1.0\n"

end EntityRdf.CommandLine

import RuneSolver.CommandLine.Request
import RuneSolver.Formula.Token
import RuneSolver.Settings.Schema

/-!
What the program tells about itself: its version, its help texts, and in columns the tokens of
formulas and the settings of jobs.
-/

namespace RuneSolver.CommandLine

def versionLine : String := "rune-decrypt 0.1.0"

def dataDirectoryLine : String :=
  "  -d, --data-dir <data-dir>  Directory every job path is relative to [default: data]"

def helpLine : String := "  -h, --help                 Print help"

/-- The help on the options that every command has. -/
def commonOptions : List String := [dataDirectoryLine, helpLine]

namespace Topic

def lines : Topic → List String
  | program =>
    ["Search postfix decryption formulas for rune cipher texts", "",
      "Usage: rune-decrypt [OPTIONS] <COMMAND>", "",
      "Commands:",
      "  tokens    List the supported grammar tokens",
      "  schema    List the job settings and their defaults",
      "  generate  Compile production rules into a job file's attempt list",
      "  decrypt   Run a decryption job",
      "  help      Print this message or the help of the given subcommand(s)", "",
      "Options:"] ++ commonOptions ++
    ["  -V, --version              Print version"]
  | tokens =>
    ["List the supported grammar tokens", "",
      "Usage: rune-decrypt tokens [OPTIONS]", "",
      "Options:"] ++ commonOptions
  | schema =>
    ["List the job settings and their defaults", "",
      "Usage: rune-decrypt schema [OPTIONS]", "",
      "Options:"] ++ commonOptions
  | generate =>
    ["Compile production rules into a job file's attempt list", "",
      "Usage: rune-decrypt generate [OPTIONS] --output <output>", "",
      "Options:",
      "  -d, --data-dir <data-dir>          Directory every job path is relative to " ++
        "[default: data]",
      "  -o, --output <output>              Job file to write",
      "      --rules <rules>                Production rules, relative to the data directory " ++
        "[default: grammar/ProductionRules.txt]",
      "      --replacements <replacements>  Logical replacements, relative to the data " ++
        "directory [default: grammar/LogicalReplacements.txt]",
      "  -t, --tokens <tokens>...           Comma separated tokens to enable, " ++
        "e.g. +,-,p,i (default: all)",
      "  -e, --eliminate-equivalent         Drop attempts that agree on a random sample of " ++
        "runes and positions. Probabilistic: distinct attempts may be dropped and equivalent " ++
        "ones kept; results vary between runs unless --seed is set",
      "      --seed <seed>                  Seed for the equivalence sample",
      "      --set <NAME=VALUE>             Override a job setting, " ++
        "e.g. --set IsShiftMode=true (repeatable)",
      "  -h, --help                         Print help"]
  | decrypt =>
    ["Run a decryption job", "",
      "Usage: rune-decrypt decrypt [OPTIONS] <job>", "",
      "Arguments:",
      "  <job>  Job file, or a name under <data-dir>/jobs/", "",
      "Options:",
      dataDirectoryLine,
      "      --set <NAME=VALUE>     Override a job setting, e.g. --set IsShiftMode=true " ++
        "(repeatable)",
      helpLine]
  | help =>
    ["Print this message or the help of the given subcommand(s)", "",
      "Usage: rune-decrypt help [COMMAND]...", "",
      "Arguments:",
      "  [COMMAND]...  Print help for the subcommand(s)"]

end Topic

/-! ### Listings -/

/-- The text with spaces after it up to a width. -/
def padded (width : Nat) (text : String) : String :=
  text ++ String.ofList (List.replicate (width - text.length) ' ')

def tokenTable : List String :=
  registry.map fun (symbol, category) => s!"{padded 8 symbol} {category.label}"

/-- The row of a setting: name, kind, default and label. -/
def settingRow (s : Setting) : String :=
  let shown := if s.defaultText.isEmpty then "(empty)" else s.defaultText
  s!"{padded 20 s.name} {padded 13 s.kind.name} {padded 22 shown} {s.label}"

def settingTable : List String := Setting.all.map settingRow

end RuneSolver.CommandLine

import RuneSolver.CommandLine.Option

/-!
What the program is asked to do, read from its arguments.
-/

namespace RuneSolver.CommandLine

/-- What help is about. -/
inductive Topic where
  | program | tokens | schema | generate | decrypt | help
  deriving DecidableEq, Repr

structure GenerateRequest where
  dataDirectory : String
  output : String
  rules : String
  replacements : String
  tokens : List String
  eliminate : Bool
  seed : Option UInt64
  overrides : List String
  deriving DecidableEq, Repr

structure DecryptRequest where
  dataDirectory : String
  job : String
  overrides : List String
  deriving DecidableEq, Repr

inductive Request where
  | help (topic : Topic)
  | version
  | tokens
  | schema
  | generate (request : GenerateRequest)
  | decrypt (request : DecryptRequest)
  deriving DecidableEq, Repr

def valued (name : String) (letter : Option Char) (arity : Arity) : OptionSpec :=
  ⟨name, letter, arity, fun _ => true⟩

def dataDirectoryOption : OptionSpec := valued "data-dir" (some 'd') .single

def setOption : OptionSpec := valued "set" none .repeated

def readSeed? (text : String) : Option UInt64 := (Text.readWord text.toList).toOption

/-- The options before a subcommand. -/
def programSpec : CommandSpec :=
  ⟨[dataDirectoryOption], 0, ["tokens", "schema", "generate", "decrypt", "help"], true⟩

def listingSpec : CommandSpec := ⟨[dataDirectoryOption], 0, [], false⟩

def generateSpec : CommandSpec :=
  ⟨[valued "output" (some 'o') .single, valued "rules" none .single,
    valued "replacements" none .single, valued "tokens" (some 't') .greedy,
    valued "eliminate-equivalent" (some 'e') .switch,
    ⟨"seed", none, .single, fun text => (readSeed? text).isSome⟩, setOption,
    dataDirectoryOption], 0, [], false⟩

def decryptSpec : CommandSpec := ⟨[setOption, dataDirectoryOption], 1, [], false⟩

/-- The arguments of a subcommand, or the help that they ask for. -/
def readSubcommand (spec : CommandSpec) (topic : Topic) (args : List String)
    (request : Matches → Option Request) : Option Request :=
  match Matches.empty.read spec args with
  | .ok (m, _) => request m
  | .error .help => some (.help topic)
  | .error _ => none

/-- The data directory that a subcommand names, or else the program's. -/
def dataDirectory (program sub : Matches) : String :=
  (sub.value? "data-dir").getD ((program.value? "data-dir").getD "data")

def generateRequest (program m : Matches) : Option Request := do
  let output ← m.value? "output"
  return .generate {
    dataDirectory := dataDirectory program m
    output := output
    rules := (m.value? "rules").getD "grammar/ProductionRules.txt"
    replacements := (m.value? "replacements").getD "grammar/LogicalReplacements.txt"
    tokens := m.values "tokens"
    eliminate := m.contains "eliminate-equivalent"
    seed := (m.value? "seed").bind readSeed?
    overrides := m.values "set" }

def decryptRequest (program m : Matches) : Option Request := do
  let job ← m.positionals.head?
  return .decrypt ⟨dataDirectory program m, job, m.values "set"⟩

def topic? : List String → Option Topic
  | [] => some .program
  | ["tokens"] => some .tokens
  | ["schema"] => some .schema
  | ["generate"] => some .generate
  | ["decrypt"] => some .decrypt
  | ["help"] => some .help
  | _ => none

namespace Request

/-- The request that arguments make, if they make one. Help on a subcommand comes before a fault
in the last option that stands before the subcommand. -/
def parse (args : List String) : Option Request :=
  match Matches.empty.read programSpec args with
  | .error .help => some (.help .program)
  | .error .version => some .version
  | .error .wrong => none
  | .ok (_, none) => none
  | .ok (m, some (name, rest)) =>
    let program := m.settle.toOption
    match name with
    | "tokens" => readSubcommand listingSpec .tokens rest fun _ => program.map fun _ => .tokens
    | "schema" => readSubcommand listingSpec .schema rest fun _ => program.map fun _ => .schema
    | "generate" =>
      readSubcommand generateSpec .generate rest fun sub => program.bind (generateRequest · sub)
    | "decrypt" =>
      readSubcommand decryptSpec .decrypt rest fun sub => program.bind (decryptRequest · sub)
    | _ => (topic? rest).map .help

end Request

end RuneSolver.CommandLine

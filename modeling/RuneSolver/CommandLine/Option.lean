import RuneSolver.Text.Numeral

/-!
Command-line options, and how the arguments of one command are read. An option has a long name
and perhaps a letter. Its value follows as the next argument, after `=`, or directly after the
letter; letters of options without a value may stand together. After `--` every argument is
positional. An option whose values follow it is entered when they are certain to be complete: when
something other than one of its values comes up, or the arguments end. A fault in it shows then.
-/

namespace RuneSolver.CommandLine

/-- How often an option is given and what it takes: nothing, one value, one value each time, or
all arguments up to the next option. -/
inductive Arity where
  | switch | single | repeated | greedy
  deriving DecidableEq, Repr

structure OptionSpec where
  name : String
  letter : Option Char
  arity : Arity
  accepts : String → Bool

/-- What a command takes. Reading stops at the first argument that names a subcommand. -/
structure CommandSpec where
  options : List OptionSpec
  positionals : Nat
  subcommands : List String
  version : Bool

/-- Why reading stops before the end. -/
inductive Stop where
  | help
  | version
  | wrong
  deriving DecidableEq, Repr

/-- The arguments read so far: options with their values, positional arguments, and the option
whose values are being collected. -/
structure Matches where
  given : List (String × List String)
  positionals : List String
  pending : Option (OptionSpec × List String)

namespace Matches

def empty : Matches := ⟨[], [], none⟩

def contains (m : Matches) (name : String) : Bool := m.given.any (·.1 == name)

/-- All values of an option. -/
def values (m : Matches) (name : String) : List String :=
  (m.given.filter (·.1 == name)).flatMap (·.2)

def value? (m : Matches) (name : String) : Option String := (m.values name).head?

/-- Enters an option with its values. Only a repeated option may come again. -/
def enter (m : Matches) (o : OptionSpec) (values : List String) : Except Stop Matches :=
  if o.arity ≠ .repeated ∧ m.contains o.name then .error .wrong
  else if values.all o.accepts then .ok { m with given := m.given ++ [(o.name, values)] }
  else .error .wrong

/-- The values of a greedy option are divided by commas. -/
def divided (o : OptionSpec) (values : List String) : List String :=
  if o.arity = .greedy then
    values.flatMap fun v => (v.toList.splitOn ',').map String.ofList
  else values

/-- Enters the option whose values are being collected; it needs one at least. -/
def settle (m : Matches) : Except Stop Matches :=
  match m.pending with
  | none => .ok m
  | some (o, values) =>
    if values.isEmpty then .error .wrong
    else { m with pending := none }.enter o (divided o values)

/-- The option that takes the next argument as a value, with the values it has. -/
def awaiting? (m : Matches) : Option (OptionSpec × List String) :=
  m.pending.filter fun (o, values) => values.isEmpty || o.arity = .greedy

/-- Takes an option, with the value attached to it or without one. -/
def take (m : Matches) (o : OptionSpec) (attached : Option String) : Except Stop Matches :=
  match m.settle with
  | .error stop => .error stop
  | .ok m =>
    match o.arity, attached with
    | .switch, none => m.enter o []
    | .switch, some _ => .error .wrong
    | _, some v => m.enter o (divided o [v])
    | _, none => .ok { m with pending := some (o, []) }

/-- Stops for help or for the version, once everything before is in order. -/
def stop (m : Matches) (reason : Stop) : Except Stop Matches :=
  match m.settle with
  | .error stop => .error stop
  | .ok _ => .error reason

/-- Takes `--name` or `--name=value`, without the dashes. -/
def takeLong (spec : CommandSpec) (m : Matches) (cs : List Char) : Except Stop Matches :=
  let name := String.ofList (cs.takeWhile (· != '='))
  let attached :=
    match cs.dropWhile (· != '=') with
    | _ :: v => some (String.ofList v)
    | [] => none
  match spec.options.find? (·.name == name) with
  | some o => m.take o attached
  | none =>
    if attached.isSome then .error .wrong
    else if name = "help" then m.stop .help
    else if name = "version" ∧ spec.version then m.stop .version
    else .error .wrong

/-- What is attached to a letter. -/
def attachedTo : List Char → Option String
  | [] => none
  | '=' :: v => some (String.ofList v)
  | v => some (String.ofList v)

/-- Takes the letters after a dash. -/
def takeLetters (spec : CommandSpec) : Matches → List Char → Except Stop Matches
  | m, [] => .ok m
  | m, c :: cs =>
    match spec.options.find? (·.letter == some c) with
    | some o =>
      if o.arity = .switch then
        match m.take o none with
        | .error stop => .error stop
        | .ok m => takeLetters spec m cs
      else m.take o (attachedTo cs)
    | none =>
      if c = 'h' then m.stop .help
      else if c = 'V' ∧ spec.version then m.stop .version
      else .error .wrong

def takePositional (spec : CommandSpec) (m : Matches) (arg : String) : Except Stop Matches :=
  match m.settle with
  | .error stop => .error stop
  | .ok m =>
    if m.positionals.length < spec.positionals then
      .ok { m with positionals := m.positionals ++ [arg] }
    else .error .wrong

/-- Reads positional arguments only. -/
def readPositionals (spec : CommandSpec) : Matches → List String → Except Stop Matches
  | m, [] => .ok m
  | m, arg :: args =>
    match m.takePositional spec arg with
    | .error stop => .error stop
    | .ok m => readPositionals spec m args

/-- Takes one argument that is neither `--` nor the name of a subcommand. -/
def takeArgument (spec : CommandSpec) (m : Matches) (arg : String) : Except Stop Matches :=
  match arg.toList with
  | '-' :: '-' :: cs => takeLong spec m cs
  | '-' :: c :: cs => takeLetters spec m (c :: cs)
  | _ =>
    match m.awaiting? with
    | some (o, values) => .ok { m with pending := some (o, values ++ [arg]) }
    | none => m.takePositional spec arg

/-- Reads arguments up to the name of a subcommand, which comes with the arguments after it. An
option before the name is not entered yet. -/
def read (spec : CommandSpec) :
    Matches → List String → Except Stop (Matches × Option (String × List String))
  | m, [] => m.settle.map (·, none)
  | m, arg :: args =>
    if m.awaiting?.isNone && spec.subcommands.contains arg then .ok (m, some (arg, args))
    else if arg = "--" then
      match readPositionals spec m args with
      | .error stop => .error stop
      | .ok m => m.settle.map (·, none)
    else
      match m.takeArgument spec arg with
      | .error stop => .error stop
      | .ok m => read spec m args

end Matches

end RuneSolver.CommandLine

import RuneSolver.Grammar.Replacements
import RuneSolver.Grammar.Resolution

/-!
The attempts of a grammar: the texts of its root nonterminal in order, each cleaned up by the
replacements when it is asked for. A data directory starts out with rules that build formulas of up
to three operands, each a single or a special of a single, and with replacements that write zero for
a single subtracted from itself or combined with itself by exclusive or.
-/

namespace RuneSolver.Grammar

structure Attempts where
  texts : Enumeration
  replacements : Replacements

namespace Attempts

/-- The attempts of rules over a vocabulary, and the names that are defined again. -/
def ofRules (v : Vocabulary) (rules : List Rule) (replacements : Replacements) :
    List String × Except ResolutionError Attempts :=
  let (again, texts) := resolve v rules
  (again, texts.map fun e => ⟨e, replacements⟩)

def size (a : Attempts) : Nat := a.texts.size

def get? (a : Attempts) (i : Nat) : Option String := (a.texts.get? i).map a.replacements.apply

end Attempts

/-- A pass over attempts, which stands before one of them or after the last. -/
structure Pass where
  attempts : Attempts
  next : Nat

namespace Pass

/-- The attempt that comes next, if one is left, and the pass after it. -/
def advance (p : Pass) : Option String × Pass :=
  if p.attempts.size ≤ p.next then (none, p)
  else (some (p.attempts.replacements.apply (p.attempts.texts.item p.next)),
    { p with next := p.next + 1 })

/-- The number of attempts that are left. -/
def remaining (p : Pass) : Nat := p.attempts.size - p.next

/-- Collects at most that many attempts behind others, which come with the last one first. -/
def collectOnto (collected : List String) : Nat → Pass → List String
  | 0, _ => collected.reverse
  | n + 1, p =>
    match p.advance with
    | (none, _) => collected.reverse
    | (some text, p') => collectOnto (text :: collected) n p'

end Pass

namespace Attempts

/-- A fresh pass, which stands before the first attempt. -/
def pass (a : Attempts) : Pass := ⟨a, 0⟩

/-- The first attempts, at most that many. -/
def take (a : Attempts) (n : Nat) : List String := Pass.collectOnto [] n a.pass

/-- All attempts in order. -/
def toList (a : Attempts) : List String := Pass.collectOnto [] a.size a.pass

end Attempts

/-! ### The grammar of a new data directory -/

def bundledRules : String :=
  "// Postfix decryption grammar: <Name>::=<alternative>|<alternative>\n" ++
  "// <op>, <single> and <special> are filled from the enabled tokens.\n" ++
  "<unary>::=<single>|<single><special>\n" ++
  "<binary>::=<unary><unary><op>\n" ++
  "<decryption>::=<unary>|<binary>|<binary><unary><op>\n"

def bundledReplacements : String :=
  "// <pattern>;<replacement>, applied in this order to every attempt\n" ++
  "p p -;0\n" ++
  "i i -;0\n" ++
  "pr pr -;0\n" ++
  "prevp prevp -;0\n" ++
  "prevpr prevpr -;0\n" ++
  "p p ^;0\n" ++
  "i i ^;0\n"

end RuneSolver.Grammar

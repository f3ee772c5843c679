/-!
The tokens of a JSON text, found in one pass over its characters. Blanks between tokens are
spaces, tabs, line feeds and carriage returns. Numbers and words end at the first character that
cannot continue them; strings end at their quote, with their escapes resolved.
-/

namespace RuneSolver.Json

inductive Token where
  | objectOpen | objectClose | arrayOpen | arrayClose | comma | colon
  | null
  | bool (value : Bool)
  | number (written : List Char)
  | string (text : Option String)
  deriving DecidableEq, Repr

def isBlank (c : Char) : Bool := c == ' ' || c == '\t' || c == '\n' || c == '\r'

def isNumberChar (c : Char) : Bool :=
  c.isDigit || c == '-' || c == '+' || c == '.' || c == 'e' || c == 'E'

/-- A nonempty run of digits and nothing else. -/
def isDigits (cs : List Char) : Bool := !cs.isEmpty && cs.all Char.isDigit

/-- Nothing, or the letter of an exponent with an exponent. -/
def isExponent : List Char → Bool
  | [] => true
  | c :: cs =>
    (c == 'e' || c == 'E') &&
      (match cs with
        | '+' :: ds => isDigits ds
        | '-' :: ds => isDigits ds
        | ds => isDigits ds)

/-- What may follow the whole part of a number. -/
def isFraction : List Char → Bool
  | '.' :: cs =>
    !(cs.takeWhile Char.isDigit).isEmpty && isExponent (cs.dropWhile Char.isDigit)
  | cs => isExponent cs

/-- A number without its sign: no zero stands before another digit. -/
def isUnsigned : List Char → Bool
  | '0' :: cs => isFraction cs
  | cs => !(cs.takeWhile Char.isDigit).isEmpty && isFraction (cs.dropWhile Char.isDigit)

/-- The form of a number. -/
def isNumber : List Char → Bool
  | '-' :: cs => isUnsigned cs
  | cs => isUnsigned cs

def isHighSurrogate (u : Nat) : Bool := 0xD800 ≤ u && u < 0xDC00

def isLowSurrogate (u : Nat) : Bool := 0xDC00 ≤ u && u < 0xE000

def joinSurrogates (high low : Nat) : Char :=
  Char.ofNat (0x10000 + (high - 0xD800) * 0x400 + (low - 0xDC00))

/-- The characters of code units, in which surrogates have to come in pairs. -/
def ofUnits? : List Nat → Option (List Char)
  | [] => some []
  | [u] => if isHighSurrogate u || isLowSurrogate u then none else some [Char.ofNat u]
  | u :: v :: us =>
    if isHighSurrogate u then
      if isLowSurrogate v then (ofUnits? us).map (joinSurrogates u v :: ·) else none
    else if isLowSurrogate u then none
    else (ofUnits? (v :: us)).map (Char.ofNat u :: ·)

def word? : List Char → Option Token
  | ['n', 'u', 'l', 'l'] => some .null
  | ['t', 'r', 'u', 'e'] => some (.bool true)
  | ['f', 'a', 'l', 's', 'e'] => some (.bool false)
  | _ => none

def number? (cs : List Char) : Option Token := if isNumber cs then some (.number cs) else none

def punctuation? : Char → Option Token
  | '\x7b' => some .objectOpen
  | '\x7d' => some .objectClose
  | '[' => some .arrayOpen
  | ']' => some .arrayClose
  | ',' => some .comma
  | ':' => some .colon
  | _ => none

/-- The character that a backslash and a letter stand for. -/
def escaped? : Char → Option Char
  | '"' => some '"'
  | '\\' => some '\\'
  | '/' => some '/'
  | 'b' => some '\x08'
  | 'f' => some '\x0c'
  | 'n' => some '\n'
  | 'r' => some '\r'
  | 't' => some '\t'
  | _ => none

def hexValue? (c : Char) : Option Nat :=
  if c.isDigit then some (c.toNat - '0'.toNat)
  else if 'a' ≤ c ∧ c ≤ 'f' then some (c.toNat - 'a'.toNat + 10)
  else if 'A' ≤ c ∧ c ≤ 'F' then some (c.toNat - 'A'.toNat + 10)
  else none

/-- What the scan is inside of. What it has read of that is kept from the last to the first. -/
inductive Inside where
  | nothing
  | word (letters : List Char)
  | number (chars : List Char)
  | string (units : List Nat)
  | escape (units : List Nat)
  | unit (units : List Nat) (digits value : Nat)
  deriving DecidableEq, Repr

/-- Where a scan stands: the tokens so far, the last one first, and what it is inside of. -/
structure Scan where
  tokens : List Token
  inside : Inside
  deriving DecidableEq, Repr

namespace Scan

def start : Scan := ⟨[], .nothing⟩

/-- A character that starts a token, or is one, or stands between tokens. -/
def enter (tokens : List Token) (c : Char) : Option Scan :=
  if isBlank c then some ⟨tokens, .nothing⟩
  else if c == '"' then some ⟨tokens, .string []⟩
  else if c.isLower then some ⟨tokens, .word [c]⟩
  else if c == '-' || c.isDigit then some ⟨tokens, .number [c]⟩
  else (punctuation? c).map fun token => ⟨token :: tokens, .nothing⟩

def step (s : Scan) (c : Char) : Option Scan :=
  match s.inside with
  | .nothing => enter s.tokens c
  | .word letters =>
    if c.isLower then some ⟨s.tokens, .word (c :: letters)⟩
    else (word? letters.reverse).bind fun token => enter (token :: s.tokens) c
  | .number chars =>
    if isNumberChar c then some ⟨s.tokens, .number (c :: chars)⟩
    else (number? chars.reverse).bind fun token => enter (token :: s.tokens) c
  | .string units =>
    if c == '"' then
      some ⟨.string ((ofUnits? units.reverse).map String.ofList) :: s.tokens, .nothing⟩
    else if c == '\\' then some ⟨s.tokens, .escape units⟩
    else if c.toNat < 0x20 then none
    else some ⟨s.tokens, .string (c.toNat :: units)⟩
  | .escape units =>
    if c == 'u' then some ⟨s.tokens, .unit units 0 0⟩
    else (escaped? c).map fun e => ⟨s.tokens, .string (e.toNat :: units)⟩
  | .unit units digits value =>
    (hexValue? c).map fun d =>
      if digits = 3 then ⟨s.tokens, .string ((16 * value + d) :: units)⟩
      else ⟨s.tokens, .unit units (digits + 1) (16 * value + d)⟩

/-- The scan after some characters, unless one of them fits nowhere. -/
def run : Scan → List Char → Option Scan
  | s, [] => some s
  | s, c :: cs => (s.step c).bind fun next => run next cs

@[simp] theorem run_nil (s : Scan) : s.run [] = some s := rfl

@[simp] theorem run_cons (s : Scan) (c : Char) (cs : List Char) :
    s.run (c :: cs) = (s.step c).bind fun next => next.run cs := rfl

theorem run_append (s : Scan) (cs ds : List Char) :
    s.run (cs ++ ds) = (s.run cs).bind fun next => next.run ds := by
  induction cs generalizing s with
  | nil => rfl
  | cons c cs ih =>
    simp only [List.cons_append, run_cons, Option.bind_assoc]
    exact congrArg _ (funext fun next => ih next)

/-- The tokens at the end of a text. -/
def finish (s : Scan) : Option (List Token) :=
  match s.inside with
  | .nothing => some s.tokens.reverse
  | .word letters => (word? letters.reverse).map fun token => (token :: s.tokens).reverse
  | .number chars => (number? chars.reverse).map fun token => (token :: s.tokens).reverse
  | _ => none

end Scan

/-- The tokens of a text. -/
def tokens? (cs : List Char) : Option (List Token) := (Scan.start.run cs).bind Scan.finish

end RuneSolver.Json

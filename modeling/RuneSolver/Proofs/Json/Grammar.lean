import Mathlib.Data.List.Basic
import RuneSolver.Json.Value

/-!
JSON texts as the standard describes them, and the values that they write. Nothing here depends on
how texts are read: numbers, strings and values each have the forms that the grammar gives them,
with blanks around every value and every key.
-/

namespace RuneSolver.Json

/-- Characters that mean nothing between tokens. -/
def Blanks (cs : List Char) : Prop := ∀ c ∈ cs, c = ' ' ∨ c = '\t' ∨ c = '\n' ∨ c = '\r'

lemma blanks_nil : Blanks [] := fun _ h => absurd h List.not_mem_nil

/-! ### Numbers -/

def Digits (cs : List Char) : Prop := cs ≠ [] ∧ ∀ c ∈ cs, c.isDigit = true

/-- Nothing, or a point and digits. -/
def FractionText (cs : List Char) : Prop := cs = [] ∨ ∃ ds, Digits ds ∧ cs = '.' :: ds

/-- Nothing, or the letter of an exponent with digits, which may have a sign. -/
def ExponentText (cs : List Char) : Prop :=
  cs = [] ∨ ∃ letter sign ds, (letter = 'e' ∨ letter = 'E') ∧
    (sign = [] ∨ sign = ['+'] ∨ sign = ['-']) ∧ Digits ds ∧ cs = letter :: (sign ++ ds)

/-- The whole part of a number: no zero stands before another digit. -/
def WholeText (cs : List Char) : Prop := cs = ['0'] ∨ Digits cs ∧ cs.head? ≠ some '0'

/-- A number in its four parts. -/
def NumberText (cs : List Char) : Prop :=
  ∃ sign whole fraction exponent, (sign = [] ∨ sign = ['-']) ∧ WholeText whole ∧
    FractionText fraction ∧ ExponentText exponent ∧
    cs = sign ++ (whole ++ (fraction ++ exponent))

/-! ### Strings -/

/-- The letters that may follow a backslash, and the characters that they stand for. -/
def shortEscapes : List (Char × Char) :=
  [('"', '"'), ('\\', '\\'), ('/', '/'), ('b', '\x08'), ('f', '\x0c'), ('n', '\n'), ('r', '\r'),
    ('t', '\t')]

def IsHexDigit (c : Char) (n : ℕ) : Prop :=
  "0123456789abcdef".toList[n]? = some c ∨ "0123456789ABCDEF".toList[n]? = some c

/-- What writes one code unit inside of a string. -/
inductive UnitText : List Char → ℕ → Prop where
  | plain {c : Char} (hquote : c ≠ '"') (hslash : c ≠ '\\') (hcontrol : 0x20 ≤ c.toNat) :
      UnitText [c] c.toNat
  | short {letter c : Char} (h : (letter, c) ∈ shortEscapes) : UnitText ['\\', letter] c.toNat
  | hexadecimal {a b c d : Char} {i j k l : ℕ} (ha : IsHexDigit a i) (hb : IsHexDigit b j)
      (hc : IsHexDigit c k) (hd : IsHexDigit d l) :
      UnitText ['\\', 'u', a, b, c, d] (16 * (16 * (16 * i + j) + k) + l)

/-- The characters of code units: a surrogate pair is one character, and half of a pair is none. -/
inductive Decodes : List ℕ → List Char → Prop where
  | nil : Decodes [] []
  | char (c : Char) {units : List ℕ} {cs : List Char} (h : Decodes units cs) :
      Decodes (c.toNat :: units) (c :: cs)
  | pair {high low : ℕ} {c : Char} {units : List ℕ} {cs : List Char}
      (hhigh : 0xD800 ≤ high ∧ high < 0xDC00) (hlow : 0xDC00 ≤ low ∧ low < 0xE000)
      (hc : c.toNat = 0x10000 + (high - 0xD800) * 0x400 + (low - 0xDC00))
      (h : Decodes units cs) : Decodes (high :: low :: units) (c :: cs)

/-- A string and its text, if it has one. -/
def StringText (cs : List Char) (text : Option String) : Prop :=
  ∃ pieces : List (List Char × ℕ), (∀ piece ∈ pieces, UnitText piece.1 piece.2) ∧
    (∀ t, text = some t ↔ Decodes (pieces.map Prod.snd) t.toList) ∧
    cs = '"' :: (pieces.flatMap Prod.fst ++ ['"'])

/-! ### Values -/

/-- A member of an object as it is written: a key and a value, with blanks around them. -/
structure MemberText where
  before : List Char
  keyText : List Char
  key : Option String
  after : List Char
  valueText : List Char
  value : Json

namespace MemberText

def text (m : MemberText) : List Char := m.before ++ m.keyText ++ m.after ++ ':' :: m.valueText

def member (m : MemberText) : Option String × Json := (m.key, m.value)

/-- The key is a string, with blanks around it. -/
structure HasKey (m : MemberText) : Prop where
  before : Blanks m.before
  keyText : StringText m.keyText m.key
  after : Blanks m.after

end MemberText

/-- What writes a value. The commas of an array or an object stand before all of its elements or
members but the first, and blanks may stand before its closing bracket. -/
inductive Writes : List Char → Json → Prop where
  | null : Writes ['n', 'u', 'l', 'l'] .null
  | true : Writes ['t', 'r', 'u', 'e'] (.bool true)
  | false : Writes ['f', 'a', 'l', 's', 'e'] (.bool false)
  | number {cs : List Char} (h : NumberText cs) : Writes cs (.number cs)
  | string {cs : List Char} {text : Option String} (h : StringText cs text) :
      Writes cs (.string text)
  | emptyArray {blanks : List Char} (h : Blanks blanks) :
      Writes ('[' :: (blanks ++ [']'])) (.array [])
  | array {first : List Char × Json} {rest : List (List Char × Json)} {blanks : List Char}
      (h : ∀ element ∈ first :: rest, Writes element.1 element.2) (hblanks : Blanks blanks) :
      Writes ('[' :: (first.1 ++ rest.flatMap (fun element => ',' :: element.1) ++
        (blanks ++ [']']))) (.array (first.2 :: rest.map Prod.snd))
  | emptyObject {blanks : List Char} (h : Blanks blanks) :
      Writes ('\x7b' :: (blanks ++ ['\x7d'])) (.object [])
  | object {first : MemberText} {rest : List MemberText} {blanks : List Char}
      (hkeys : ∀ m ∈ first :: rest, m.HasKey)
      (hvalues : ∀ m ∈ first :: rest, Writes m.valueText m.value) (hblanks : Blanks blanks) :
      Writes ('\x7b' :: (first.text ++ rest.flatMap (fun m => ',' :: m.text) ++
        (blanks ++ ['\x7d']))) (.object (first.member :: rest.map MemberText.member))
  | padded {before cs after : List Char} {v : Json} (hbefore : Blanks before) (h : Writes cs v)
      (hafter : Blanks after) : Writes (before ++ cs ++ after) v

/-- A number has its form wherever it stands. -/
lemma Writes.numberText {cs written : List Char} (h : Writes cs (.number written)) :
    NumberText written := by
  generalize hv : Json.number written = v at h
  induction h with
  | number h =>
    cases hv
    exact h
  | padded hbefore h hafter ih => exact ih hv
  | _ => cases hv

/-- The values of a written object are written. -/
lemma Writes.members {cs : List Char} {members : List (Option String × Json)}
    (h : Writes cs (.object members)) : ∀ m ∈ members, ∃ ds, Writes ds m.2 := by
  generalize hv : Json.object members = v at h
  induction h with
  | emptyObject h =>
    cases hv
    exact fun _ hm => absurd hm List.not_mem_nil
  | object hkeys hvalues hblanks ih =>
    cases hv
    intro m hm
    rw [← List.map_cons] at hm
    obtain ⟨text, htext, rfl⟩ := List.mem_map.mp hm
    exact ⟨text.valueText, hvalues text htext⟩
  | padded hbefore h hafter ih => exact ih hv
  | _ => cases hv

end RuneSolver.Json

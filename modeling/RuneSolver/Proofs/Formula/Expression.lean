import Mathlib.Data.List.Basic
import RuneSolver.Proofs.Formula.Machine
import RuneSolver.Proofs.Formula.Token

/-!
Formulas as expression trees. A tree is written with each operator behind its operands, and it has
a value of its own, computed from the values of its parts. Main statement: the stack machine
computes the values of trees, and a formula that is not written like a tree has no value anywhere.
-/

namespace RuneSolver

inductive Expression where
  | literal (value : Int32)
  | single (value : Single)
  | special (function : Special) (argument : Expression)
  | operation (operator : Operation) (left right : Expression)

/-- Operations over the integers, wrapped to thirty-two bits. Division and remainder go toward
zero, and only a zero divisor fails. -/
def Operation.wrapped (a b : Int32) : Operation → Except FormulaError Int32
  | add => .ok (.ofInt (a.toInt + b.toInt))
  | subtract => .ok (.ofInt (a.toInt - b.toInt))
  | multiply => .ok (.ofInt (a.toInt * b.toInt))
  | exclusiveOr => .ok (.ofBitVec (a.toBitVec ^^^ b.toBitVec))
  | divide => if b = 0 then .error .divisionByZero else .ok (.ofInt (a.toInt.tdiv b.toInt))
  | remainder => if b = 0 then .error .divisionByZero else .ok (.ofInt (a.toInt.tmod b.toInt))

lemma Operation.apply_eq_wrapped (o : Operation) (a b : Int32) : o.apply a b = o.wrapped a b := by
  have hdiv : Int32.ofInt (a.toInt.tdiv b.toInt) = a / b := by
    rw [Int32.ofInt_eq_iff_bmod_eq_toInt, Int32.toInt_div]
  have hmod : Int32.ofInt (a.toInt.tmod b.toInt) = a % b := by
    rw [← Int32.toInt_mod, Int32.ofInt_toInt]
  cases o with
  | add => simp [apply, wrapped]
  | subtract => simp [apply, wrapped]
  | multiply => simp [apply, wrapped]
  | exclusiveOr => rfl
  | divide => rw [apply, wrapped, hdiv]
  | remainder => rw [apply, wrapped, hmod]

/-- The one quotient that leaves the range comes back as the dividend, with no remainder. -/
example : Operation.divide.wrapped Int32.minValue (-1) = .ok Int32.minValue ∧
    Operation.remainder.wrapped Int32.minValue (-1) = .ok 0 := by decide

lemma Operation.eq_divisionByZero {o : Operation} {a b : Int32} {err : FormulaError}
    (h : o.wrapped a b = .error err) : err = .divisionByZero := by
  cases o <;> simp only [wrapped] at h
  case divide => split at h <;> cases h; rfl
  case remainder => split at h <;> cases h; rfl
  all_goals cases h

lemma Special.eq_outOfRange {t : NumberTables} {s : Special} {n : Int32} {err : FormulaError}
    (h : s.apply t n = .error err) : err = .outOfRange s n := by
  cases s with
  | prime =>
    rw [apply] at h
    cases hp : t.prime? n with
    | none => rw [hp] at h; cases h; rfl
    | some v => rw [hp] at h; cases h
  | totient => cases h
  | pi =>
    rw [apply] at h
    cases hp : t.digit? n with
    | none => rw [hp] at h; cases h; rfl
    | some v => rw [hp] at h; cases h

namespace Expression

/-- The tokens of a tree, every operator behind its operands. -/
def postorder : Expression → List Token
  | literal v => [.literal v]
  | single s => [.single s]
  | special s e => e.postorder ++ [.special s]
  | operation o l r => l.postorder ++ r.postorder ++ [.operation o]

/-- The value of a tree. Of two operands the left one comes first, and so do its failures. -/
def value (t : NumberTables) (c : Context) : Expression → Except FormulaError Int32
  | literal v => .ok v
  | single s => .ok (s.value c)
  | special s e => (e.value t c).bind fun n => s.apply t n
  | operation o l r => (l.value t c).bind fun a => (r.value t c).bind fun b => o.wrapped a b

/-- The words of a tree, with gaps between them. -/
def text (gaps : ℕ → Text.Gap) (e : Expression) : String :=
  String.ofList (Text.withGaps gaps (e.postorder.map (·.word.toList)))

lemma known_of_mem_postorder {e : Expression} {token : Token} (h : token ∈ e.postorder) :
    token.Known := by
  induction e with
  | literal v => rw [List.mem_singleton.mp h]; trivial
  | single s => rw [List.mem_singleton.mp h]; trivial
  | special s e ih =>
    rcases List.mem_append.mp h with h' | h'
    · exact ih h'
    · rw [List.mem_singleton.mp h']; trivial
  | operation o l r ihl ihr =>
    rcases List.mem_append.mp h with h' | h'
    · rcases List.mem_append.mp h' with h'' | h''
      · exact ihl h''
      · exact ihr h''
    · rw [List.mem_singleton.mp h']; trivial

theorem tokens_text (gaps : ℕ → Text.Gap) (e : Expression) :
    (Formula.ofText (e.text gaps)).tokens = e.postorder :=
  Token.tokens_ofText_withGaps gaps fun _ => known_of_mem_postorder

/-- A tree without a value has a division by zero in it, or a function outside of its table. -/
lemma error_of_value {t : NumberTables} {c : Context} {e : Expression} {err : FormulaError}
    (h : e.value t c = .error err) : err = .divisionByZero ∨ ∃ s n, err = .outOfRange s n := by
  induction e with
  | literal v => cases h
  | single s => cases h
  | special s e ih =>
    rw [value] at h
    cases he : e.value t c with
    | error err' => rw [he] at h; cases h; exact ih he
    | ok n =>
      rw [he] at h
      exact Or.inr ⟨s, n, Special.eq_outOfRange h⟩
  | operation o l r ihl ihr =>
    rw [value] at h
    cases hl : l.value t c with
    | error err' => rw [hl] at h; cases h; exact ihl hl
    | ok a =>
      cases hr : r.value t c with
      | error err' => rw [hl, hr] at h; cases h; exact ihr hr
      | ok b =>
        rw [hl, hr] at h
        exact Or.inl (Operation.eq_divisionByZero h)

/-! ### The machine computes the value of a tree -/

/-- What follows the tokens of a tree runs with the value of the tree on the stack. -/
theorem outcome_run_postorder {α : Type} (t : NumberTables) (c : Context) (e : Expression)
    (k : Unit → Machine α) (stack : Stack) :
    (Token.run t c e.postorder >>= k).outcome stack =
      (e.value t c).bind fun v => (k ()).outcome (v :: stack) := by
  induction e generalizing k stack with
  | literal v => rfl
  | single s => rfl
  | special s e ih =>
    rw [postorder, Token.run_append, Token.run_singleton, bind_assoc, ih, value]
    cases e.value t c with
    | error err => rfl
    | ok n => exact Token.outcome_step_special t c k stack s n
  | operation o l r ihl ihr =>
    rw [postorder, Token.run_append, Token.run_append, Token.run_singleton, bind_assoc, bind_assoc,
      ihl, value]
    cases l.value t c with
    | error err => rfl
    | ok a =>
      simp only [Except.bind]
      rw [ihr]
      cases r.value t c with
      | error err => rfl
      | ok b =>
        simp only [Except.bind]
        rw [← Operation.apply_eq_wrapped]
        exact Token.outcome_step_operation t c k stack o a b

/-- A formula whose tokens are those of a tree has the value of the tree, on any stack. -/
theorem outcome_evaluateOn {t : NumberTables} {c : Context} {f : Formula} {e : Expression}
    (h : f.tokens = e.postorder) (stack : Stack) :
    (f.evaluateOn t c).outcome stack = e.value t c := by
  have hrun := outcome_run_postorder t c e (fun _ => Machine.soleValue) []
  rw [← h] at hrun
  refine Eq.trans (b := _) hrun ?_
  cases e.value t c <;> rfl

end Expression

end RuneSolver

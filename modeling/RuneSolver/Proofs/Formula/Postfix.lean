import RuneSolver.Proofs.Formula.Expression

/-!
Reading trees back from their tokens. The reader works like the machine, with trees in place of
their values, so every run that succeeds has a tree behind each number it leaves. Main statement:
formulas with a value are exactly the written forms of trees, and have the values of the trees.
-/

namespace RuneSolver

/-- The trees that are waiting for an operator, the last one first. -/
abbrev Forest := List Expression

namespace Forest

/-- The forest after a token, unless an operand is missing or the token is unknown. -/
def step : Forest → Token → Option Forest
  | es, .literal v => some (.literal v :: es)
  | es, .single s => some (.single s :: es)
  | e :: es, .special s => some (.special s e :: es)
  | r :: l :: es, .operation o => some (.operation o l r :: es)
  | _, _ => none

def read : Forest → List Token → Option Forest
  | es, [] => some es
  | es, token :: tokens => (es.step token).bind fun next => next.read tokens

/-- The tokens of all trees, those of the last tree at the end. -/
def tokens (es : Forest) : List Token := es.reverse.flatMap Expression.postorder

@[simp] lemma tokens_nil : tokens [] = [] := rfl

@[simp] lemma tokens_cons (e : Expression) (es : Forest) :
    tokens (e :: es) = tokens es ++ e.postorder := by
  simp [tokens]

lemma read_append (es : Forest) (first second : List Token) :
    es.read (first ++ second) = (es.read first).bind fun next => next.read second := by
  induction first generalizing es with
  | nil => rfl
  | cons token first ih =>
    rw [List.cons_append, read, read]
    cases es.step token with
    | none => rfl
    | some next => exact ih next

/-- The tokens of a tree put the tree on the forest. -/
theorem read_postorder (e : Expression) (es : Forest) : es.read e.postorder = some (e :: es) := by
  induction e generalizing es with
  | literal v => rfl
  | single s => rfl
  | special s e ih => rw [Expression.postorder, read_append, ih]; rfl
  | operation o l r ihl ihr =>
    rw [Expression.postorder, read_append, read_append, ihl, Option.bind_some, ihr]
    rfl

/-- A step writes its token behind the forest. -/
lemma tokens_step {es next : Forest} {token : Token} (h : es.step token = some next) :
    next.tokens = es.tokens ++ [token] := by
  cases token with
  | literal v => cases h; rw [tokens_cons]; rfl
  | single s => cases h; rw [tokens_cons]; rfl
  | special s =>
    rcases es with _ | ⟨e, es⟩
    · cases h
    · cases h; simp [Expression.postorder]
  | operation o =>
    rcases es with _ | ⟨r, _ | ⟨l, es⟩⟩
    · cases h
    · cases h
    · cases h; simp [Expression.postorder]
  | unknown w => rcases es with _ | ⟨r, _ | ⟨l, es⟩⟩ <;> cases h

theorem tokens_read {es last : Forest} {ts : List Token} (h : es.read ts = some last) :
    last.tokens = es.tokens ++ ts := by
  induction ts generalizing es with
  | nil => cases h; simp
  | cons token ts ih =>
    rw [read] at h
    cases hstep : es.step token with
    | none => rw [hstep] at h; cases h
    | some next =>
      rw [hstep] at h
      rw [ih h, tokens_step hstep, List.append_assoc, List.singleton_append]

/-! ### The forest behind a stack -/

variable {t : NumberTables} {c : Context}

/-- The trees have the numbers of the stack as their values. -/
def Behind (t : NumberTables) (c : Context) (es : Forest) (stack : Stack) : Prop :=
  List.Forall₂ (fun e v => e.value t c = .ok v) es stack

/-- A step of the machine is a step of the forest behind its stack. -/
lemma step_behind {es : Forest} {stack next : Stack} {token : Token} (h : Behind t c es stack)
    (hstep : token.step t c stack = .ok () next) :
    ∃ es', es.step token = some es' ∧ Behind t c es' next := by
  obtain ⟨v, rfl, rfl⟩ | ⟨s, rfl, rfl⟩ | ⟨s, n, rest, v, rfl, rfl, happly, rfl⟩ |
    ⟨o, b, a, rest, v, rfl, rfl, happly, rfl⟩ := Token.step_ok t c hstep
  · exact ⟨_, rfl, .cons rfl h⟩
  · exact ⟨_, rfl, .cons rfl h⟩
  · obtain _ | ⟨he, hrest⟩ := h
    refine ⟨_, rfl, .cons ?_ hrest⟩
    rw [Expression.value, he]
    exact happly
  · obtain _ | ⟨hr, _ | ⟨hl, hrest⟩⟩ := h
    refine ⟨_, rfl, .cons ?_ hrest⟩
    rw [Expression.value, hl, hr, ← happly, Operation.apply_eq_wrapped]
    rfl

/-- A run of the machine reads the forest behind the stack that it leaves. -/
theorem run_behind {es : Forest} {stack last : Stack} {ts : List Token}
    (h : Behind t c es stack) (hrun : Token.run t c ts stack = .ok () last) :
    ∃ es', es.read ts = some es' ∧ Behind t c es' last := by
  induction ts generalizing es stack with
  | nil => cases hrun; exact ⟨es, rfl, h⟩
  | cons token ts ih =>
    rw [Token.run_cons, Machine.bind_apply] at hrun
    cases hstep : token.step t c stack with
    | error e stack' => rw [hstep] at hrun; cases hrun
    | ok u next =>
      rw [hstep] at hrun
      obtain ⟨es', hread, hbehind⟩ := step_behind h hstep
      obtain ⟨es'', hread', hbehind'⟩ := ih hbehind hrun
      exact ⟨es'', by rw [read, hread, Option.bind_some, hread'], hbehind'⟩

end Forest

namespace Expression

/-- A tree is determined by its tokens. -/
theorem postorder_injective : Function.Injective postorder := by
  intro e e' h
  have hread := Forest.read_postorder e []
  rw [h, Forest.read_postorder] at hread
  simpa using hread.symm

/-- Behind a formula with a value stands a tree. -/
theorem exists_of_outcome_evaluateOn {t : NumberTables} {c : Context} {f : Formula}
    {stack : Stack} {v : Int32} (h : (f.evaluateOn t c).outcome stack = .ok v) :
    ∃ e : Expression, f.tokens = e.postorder ∧ e.value t c = .ok v := by
  have hrun := Formula.run_of_outcome_evaluateOn h
  obtain ⟨es, hread, hbehind⟩ := Forest.run_behind List.Forall₂.nil hrun
  obtain _ | ⟨he, _ | _⟩ := hbehind
  refine ⟨_, ?_, he⟩
  simpa using (Forest.tokens_read hread).symm

end Expression

/-- **Formulas are trees.** The words of a tree, whatever blanks stand between them, are a formula
with the tokens of the tree. A formula with these tokens has the value of the tree, on any stack;
it fails with a division by zero or outside of a table, never for the way it is written. A formula
with a value anywhere has the tokens of exactly one tree, and the value of this tree; one that has
the tokens of no tree fails everywhere. -/
theorem evaluateOn_eq_value :
    (∀ (e : Expression) (gaps : ℕ → Text.Gap),
      (Formula.ofText (e.text gaps)).tokens = e.postorder) ∧
    (∀ (e : Expression) (text : String), (Formula.ofText text).tokens = e.postorder →
      ∀ (t : NumberTables) (c : Context) (stack : Stack),
        ((Formula.ofText text).evaluateOn t c).outcome stack = e.value t c ∧
        ∀ err, e.value t c = .error err →
          err = .divisionByZero ∨ ∃ s n, err = .outOfRange s n) ∧
    (∀ (text : String) (t : NumberTables) (c : Context) (stack : Stack) (v : Int32),
      ((Formula.ofText text).evaluateOn t c).outcome stack = .ok v →
      ∃ e : Expression, (Formula.ofText text).tokens = e.postorder ∧ e.value t c = .ok v ∧
        ∀ e' : Expression, (Formula.ofText text).tokens = e'.postorder → e' = e) ∧
    ∀ text : String, (∀ e : Expression, (Formula.ofText text).tokens ≠ e.postorder) →
      ∀ (t : NumberTables) (c : Context) (stack : Stack),
        ∃ err, ((Formula.ofText text).evaluateOn t c).outcome stack = .error err := by
  refine ⟨fun e gaps => e.tokens_text gaps, ?_, ?_, ?_⟩
  · intro e text htokens t c stack
    exact ⟨Expression.outcome_evaluateOn htokens stack, fun err => Expression.error_of_value⟩
  · intro text t c stack v h
    obtain ⟨e, htokens, hvalue⟩ := Expression.exists_of_outcome_evaluateOn h
    refine ⟨e, htokens, hvalue, fun e' htokens' => ?_⟩
    exact Expression.postorder_injective (htokens'.symm.trans htokens)
  · intro text hnone t c stack
    cases h : ((Formula.ofText text).evaluateOn t c).outcome stack with
    | error err => exact ⟨err, rfl⟩
    | ok v =>
      obtain ⟨e, htokens, -⟩ := Expression.exists_of_outcome_evaluateOn h
      exact absurd htokens (hnone e)

/-- A sign belongs to a literal where a digit follows it, and is an operator where none does. -/
theorem evaluateOn_eq_value_signs :
    (Formula.ofText "p -7 - +5 /").tokens =
      (Expression.operation .divide (.operation .subtract (.single .index) (.literal (-7)))
        (.literal 5)).postorder ∧
    ∀ (t : NumberTables) (c : Context),
      ((Formula.ofText "p -7 - +5 /").evaluateOn t c).outcome [1, 2] =
        .ok (Int32.ofInt ((Int32.ofInt (c.current.operand.toInt + 7)).toInt.tdiv 5)) := by
  have htokens : (Formula.ofText "p -7 - +5 /").tokens =
      (Expression.operation .divide (.operation .subtract (.single .index) (.literal (-7)))
        (.literal 5)).postorder := by decide +kernel
  refine ⟨htokens, fun t c => ?_⟩
  exact (evaluateOn_eq_value.2.1 _ _ htokens t c [1, 2]).1

end RuneSolver

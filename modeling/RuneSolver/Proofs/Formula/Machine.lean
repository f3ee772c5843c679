import Mathlib.Data.Nat.Notation
import Mathlib.Tactic.Lemma
import RuneSolver.Formula.Evaluation

/-!
The stack machine, one token at a time, seen through the results of what follows. An evaluation
drops whatever it finds on the stack, so its result is settled before it starts, and so is the
result of everything that uses the stack for evaluations only.
-/

namespace RuneSolver

namespace Machine

variable {α β : Type}

lemma bind_apply (m : Machine α) (k : α → Machine β) (stack : Stack) :
    (m >>= k) stack =
      match m stack with
      | .ok a stack' => k a stack'
      | .error e stack' => .error e stack' := by
  change EStateM.bind m k stack = _
  rw [EStateM.bind]
  cases m stack <;> rfl

lemma outcome_bind (m : Machine α) (k : α → Machine β) (stack : Stack) :
    (m >>= k).outcome stack =
      match m stack with
      | .ok a stack' => (k a).outcome stack'
      | .error e _ => .error e := by
  rw [outcome, bind_apply]
  cases m stack <;> rfl

/-- The result of a computation is the same on every stack. -/
def Settled (m : Machine α) (r : Except FormulaError α) : Prop := ∀ stack, m.outcome stack = r

lemma settled_pure (a : α) : Settled (pure a) (.ok a) := fun _ => rfl

/-- What follows a settled computation only has to be settled on what the computation can give. -/
lemma Settled.bind_map {γ : Type} {m : Machine α} {r : Except FormulaError γ} {g : γ → α}
    {k : α → Machine β} {q : γ → Except FormulaError β} (hm : Settled m (r.map g))
    (hk : ∀ x, Settled (k (g x)) (q x)) : Settled (m >>= k) (r.bind q) := by
  intro stack
  have h := hm stack
  rw [outcome_bind]
  rw [outcome] at h
  cases hrun : m stack with
  | ok a stack' =>
    simp only [hrun] at h
    cases r with
    | ok x => cases h; exact hk x stack'
    | error e => cases h
  | error e stack' =>
    simp only [hrun] at h
    cases r with
    | ok x => cases h
    | error e' => cases h; rfl

lemma Settled.bind {m : Machine α} {r : Except FormulaError α} {k : α → Machine β}
    {q : α → Except FormulaError β} (hm : Settled m r) (hk : ∀ a, Settled (k a) (q a)) :
    Settled (m >>= k) (r.bind q) := by
  have hid : r.map id = r := by cases r <;> rfl
  rw [← hid] at hm
  exact hm.bind_map hk

/-- Computations whose results are settled somehow make up one whose result is, too. -/
lemma exists_settled_bind {m : Machine α} {k : α → Machine β} (hm : ∃ r, Settled m r)
    (hk : ∀ a, ∃ q, Settled (k a) q) : ∃ r, Settled (m >>= k) r := by
  obtain ⟨r, hr⟩ := hm
  obtain ⟨q, hq⟩ := Classical.skolem.mp hk
  exact ⟨r.bind q, hr.bind hq⟩

end Machine

/-! ### One token -/

namespace Token

open Machine

variable {α : Type} (t : NumberTables) (c : Context) (k : Unit → Machine α) (stack : Stack)

lemma step_special (s : Special) (n : Int32) :
    step t c (.special s) (n :: stack) =
      match s.apply t n with
      | .ok v => .ok () (v :: stack)
      | .error e => .error e stack := by
  change (do push (← ofExcept (s.apply t n)) : Machine Unit) stack = _
  cases s.apply t n <;> rfl

lemma step_operation (o : Operation) (a b : Int32) :
    step t c (.operation o) (b :: a :: stack) =
      match o.apply a b with
      | .ok v => .ok () (v :: stack)
      | .error e => .error e stack := by
  change (do push (← ofExcept (o.apply a b)) : Machine Unit) stack = _
  cases o.apply a b <;> rfl

/-- A token that does not fail puts one number in the place of its operands. -/
lemma step_ok {token : Token} {stack next : Stack} (h : step t c token stack = .ok () next) :
    (∃ v, token = .literal v ∧ next = v :: stack) ∨
    (∃ s, token = .single s ∧ next = s.value c :: stack) ∨
    (∃ s n rest v, token = .special s ∧ stack = n :: rest ∧ s.apply t n = .ok v ∧
      next = v :: rest) ∨
    (∃ o b a rest v, token = .operation o ∧ stack = b :: a :: rest ∧ o.apply a b = .ok v ∧
      next = v :: rest) := by
  cases token with
  | literal v => cases h; exact Or.inl ⟨v, rfl, rfl⟩
  | single s => cases h; exact Or.inr (Or.inl ⟨s, rfl, rfl⟩)
  | special s =>
    rcases stack with _ | ⟨n, rest⟩
    · cases h
    · rw [step_special] at h
      cases hv : s.apply t n with
      | error e => simp only [hv] at h; cases h
      | ok v =>
        simp only [hv] at h
        cases h
        exact Or.inr (Or.inr (Or.inl ⟨s, n, rest, v, rfl, rfl, hv, rfl⟩))
  | operation o =>
    rcases stack with _ | ⟨b, _ | ⟨a, rest⟩⟩
    · cases h
    · cases h
    · rw [step_operation] at h
      cases hv : o.apply a b with
      | error e => simp only [hv] at h; cases h
      | ok v =>
        simp only [hv] at h
        cases h
        exact Or.inr (Or.inr (Or.inr ⟨o, b, a, rest, v, rfl, rfl, hv, rfl⟩))
  | unknown w => cases h

lemma outcome_step_special (s : Special) (n : Int32) :
    (step t c (.special s) >>= k).outcome (n :: stack) =
      (s.apply t n).bind fun v => (k ()).outcome (v :: stack) := by
  rw [outcome_bind, step_special]
  cases s.apply t n <;> rfl

lemma outcome_step_operation (o : Operation) (a b : Int32) :
    (step t c (.operation o) >>= k).outcome (b :: a :: stack) =
      (o.apply a b).bind fun v => (k ()).outcome (v :: stack) := by
  rw [outcome_bind, step_operation]
  cases o.apply a b <;> rfl

lemma run_cons (token : Token) (tokens : List Token) :
    run t c (token :: tokens) = (do step t c token; run t c tokens) := rfl

lemma run_singleton (token : Token) : run t c [token] = step t c token := by
  rw [run_cons]
  exact bind_pure_unit

lemma run_append (first second : List Token) :
    run t c (first ++ second) = (do run t c first; run t c second) := by
  induction first with
  | nil => rfl
  | cons token tokens ih => rw [List.cons_append, run_cons, run_cons, ih, bind_assoc]

end Token

/-! ### One formula -/

namespace Formula

variable (t : NumberTables) (c : Context)

/-- An evaluation gives the same on any stack as on a fresh one. -/
lemma settled_evaluateOn (f : Formula) : Machine.Settled (f.evaluateOn t c) (f.evaluate t c) :=
  fun _ => rfl

/-- A formula with a value leaves exactly this number behind its tokens. -/
lemma run_of_outcome_evaluateOn {t : NumberTables} {c : Context} {f : Formula} {stack : Stack}
    {v : Int32} (h : (f.evaluateOn t c).outcome stack = .ok v) :
    Token.run t c f.tokens [] = .ok () [v] := by
  have hrun : (f.evaluateOn t c).outcome stack =
      (Token.run t c f.tokens >>= fun _ => Machine.soleValue).outcome [] := rfl
  rw [hrun, Machine.outcome_bind] at h
  rcases hlast : Token.run t c f.tokens [] with ⟨u, _ | ⟨w, _ | ⟨w', rest⟩⟩⟩ | ⟨e, last⟩
  · rw [hlast] at h; cases h
  · rw [hlast] at h; cases h; rfl
  · rw [hlast] at h; cases h
  · rw [hlast] at h; cases h

lemma settled_target (size : ℕ) (f : Formula) :
    Machine.Settled (f.target t c size)
      ((f.evaluate t c).bind fun v => .ok (Number.residue v (Int32.ofNat size)).toNat) :=
  (f.settled_evaluateOn t c).bind fun _ => Machine.settled_pure _

end Formula

end RuneSolver

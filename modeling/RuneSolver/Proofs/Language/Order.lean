import Mathlib.Data.Int.Notation
import Mathlib.Data.Nat.Notation
import Mathlib.Tactic.Lemma

/-!
The order of scores. Every double that is a number has a place among kinds, exponents and
significands, and one is less than another if its place comes before. So all numbers can be
compared with each other; what is no number is less than nothing and above nothing.
-/

namespace RuneSolver.Language

open Float.Model (UnpackedFloat)

/-- A place in the order of the numbers: the kind with its sign, the exponent, the significand. -/
structure Rank where
  kind : ℤ
  exponent : ℤ
  significand : ℤ

namespace Rank

def compare (p q : Rank) : Ordering :=
  (Ord.compare p.kind q.kind).then
    ((Ord.compare p.exponent q.exponent).then (Ord.compare p.significand q.significand))

def Before (p q : Rank) : Prop :=
  p.kind < q.kind ∨ p.kind = q.kind ∧
    (p.exponent < q.exponent ∨ p.exponent = q.exponent ∧ p.significand < q.significand)

variable {p q r : Rank}

lemma compare_eq_lt : p.compare q = .lt ↔ p.Before q := by
  rw [compare, Ordering.then_eq_lt, Ordering.then_eq_lt, Int.compare_eq_lt, Int.compare_eq_eq,
    Int.compare_eq_lt, Int.compare_eq_eq, Int.compare_eq_lt]
  rfl

lemma compare_self (p : Rank) : p.compare p = .eq := by
  rw [compare, Ordering.then_eq_eq, Ordering.then_eq_eq]
  exact ⟨Int.compare_eq_eq.mpr rfl, Int.compare_eq_eq.mpr rfl, Int.compare_eq_eq.mpr rfl⟩

lemma compare_eq_eq : p.compare q = .eq ↔ p = q := by
  rw [compare, Ordering.then_eq_eq, Ordering.then_eq_eq, Int.compare_eq_eq, Int.compare_eq_eq,
    Int.compare_eq_eq]
  cases p
  cases q
  simp only [mk.injEq]

lemma Before.trans (h : p.Before q) (h' : q.Before r) : p.Before r := by
  unfold Before at h h' ⊢
  omega

/-- Of two places, one of which comes before the other, any third one divides the order. -/
lemma Before.split (h : p.Before q) (r : Rank) : p.Before r ∨ r.Before q := by
  unfold Before at h ⊢
  omega

lemma eq_of_not_before (h : ¬p.Before q) (h' : ¬q.Before p) : p = q := by
  cases p
  cases q
  simp only [Before] at h h'
  simp only [mk.injEq]
  omega

lemma not_before_self (p : Rank) : ¬p.Before p := by
  unfold Before
  omega

lemma isLE_compare_iff : (p.compare q).isLE ↔ ¬q.Before p := by
  cases h : p.compare q with
  | lt => exact iff_of_true rfl fun hqp => p.not_before_self ((compare_eq_lt.mp h).trans hqp)
  | eq =>
    obtain rfl := compare_eq_eq.mp h
    exact iff_of_true rfl p.not_before_self
  | gt =>
    refine iff_of_false Bool.false_ne_true fun hqp => ?_
    have hpq : ¬p.Before q := fun hb => by
      rw [compare_eq_lt.mpr hb] at h
      cases h
    rw [eq_of_not_before hpq hqp, compare_self] at h
    cases h

end Rank

/-- The place of a double, if it is a number. Both zeros have one place. -/
def rank? : UnpackedFloat → Option Rank
  | .notANumber => none
  | .infinity .negative => some ⟨-2, 0, 0⟩
  | .finite .negative m e _ => some ⟨-1, -e, -m⟩
  | .zero _ => some ⟨0, 0, 0⟩
  | .finite .positive m e _ => some ⟨1, e, m⟩
  | .infinity .positive => some ⟨2, 0, 0⟩

lemma compare_neg (m n : ℤ) : compare (-m) (-n) = (compare m n).swap := by
  rw [Int.compare_swap, Int.compare_eq_ite_lt, Int.compare_eq_ite_lt]
  simp only [Int.neg_lt_neg_iff]

lemma compare_natCast (m n : ℕ) : compare (m : ℤ) (n : ℤ) = compare m n := by
  rw [Int.compare_eq_ite_lt, Nat.compare_eq_ite_lt]
  simp only [Int.ofNat_lt]

/-- Doubles are compared by their places. -/
lemma compare_eq_rank (a b : UnpackedFloat) :
    a.compare b = (rank? a).bind fun p => (rank? b).map p.compare := by
  rcases a with ⟨_ | _⟩ | _ | _ | ⟨_ | _, m₁, e₁, -⟩ <;>
    rcases b with ⟨_ | _⟩ | _ | _ | ⟨_ | _, m₂, e₂, -⟩ <;> try rfl
  · -- the larger of two negative numbers is the one nearer to zero
    change some ((compare e₁ e₂).then (compare m₁ m₂)).swap = some ((compare (-1 : ℤ) (-1)).then
      ((compare (-e₁) (-e₂)).then (compare (-(m₁ : ℤ)) (-(m₂ : ℤ)))))
    rw [compare_neg e₁, compare_neg m₁, compare_natCast, Ordering.swap_then]
    rfl
  · change some ((compare e₁ e₂).then (compare m₁ m₂)) = some ((compare (1 : ℤ) 1).then
      ((compare e₁ e₂).then (compare (m₁ : ℤ) (m₂ : ℤ))))
    rw [compare_natCast]
    rfl

/-! ### Doubles -/

/-- The place of a score. -/
def rankOf? (x : Float) : Option Rank := rank? x.toModel.unpack

variable {x y z : Float}

lemma lt_iff_before : x < y ↔ ∃ p q, rankOf? x = some p ∧ rankOf? y = some q ∧ p.Before q := by
  have hlt : x < y ↔ x.toModel.unpack.compare y.toModel.unpack = some .lt := by
    change decide ((x.toModel.unpack.compare y.toModel.unpack == some .lt) = true) = true ↔ _
    rw [decide_eq_true_iff, beq_iff_eq]
  rw [hlt, compare_eq_rank, ← rankOf?, ← rankOf?]
  cases rankOf? x with
  | none => simp
  | some p =>
    cases rankOf? y with
    | none => simp
    | some q => simp [Rank.compare_eq_lt]

lemma lt_trans' (h : x < y) (h' : y < z) : x < z := by
  obtain ⟨p, q, hp, hq, hpq⟩ := lt_iff_before.mp h
  obtain ⟨q', r, hq', hr, hqr⟩ := lt_iff_before.mp h'
  rw [hq] at hq'
  cases hq'
  exact lt_iff_before.mpr ⟨p, r, hp, hr, hpq.trans hqr⟩

lemma not_lt_self (x : Float) : ¬x < x := by
  intro h
  obtain ⟨p, q, hp, hq, hpq⟩ := lt_iff_before.mp h
  rw [hp] at hq
  cases hq
  exact p.not_before_self hpq

/-- A number, that is, something above anything at all, divides the order. -/
lemma lt_or_lt_of_lt {w : Float} (hz : w < z) (h : x < y) : x < z ∨ z < y := by
  obtain ⟨-, r, -, hr, -⟩ := lt_iff_before.mp hz
  obtain ⟨p, q, hp, hq, hpq⟩ := lt_iff_before.mp h
  rcases hpq.split r with hpr | hrq
  · exact Or.inl (lt_iff_before.mpr ⟨p, r, hp, hr, hpr⟩)
  · exact Or.inr (lt_iff_before.mpr ⟨r, q, hr, hq, hrq⟩)

/-- Numbers neither of which is less than the other are equal. -/
lemma beq_of_not_lt {v w : Float} (hx : v < x) (hy : w < y) (h : ¬x < y) (h' : ¬y < x) :
    (x == y) = true := by
  obtain ⟨-, p, -, hp, -⟩ := lt_iff_before.mp hx
  obtain ⟨-, q, -, hq, -⟩ := lt_iff_before.mp hy
  have hpq : p = q := Rank.eq_of_not_before
    (fun hb => h (lt_iff_before.mpr ⟨p, q, hp, hq, hb⟩))
    (fun hb => h' (lt_iff_before.mpr ⟨q, p, hq, hp, hb⟩))
  have hcompare : x.toModel.unpack.compare y.toModel.unpack = some .eq := by
    rw [compare_eq_rank, ← rankOf?, ← rankOf?, hp, hq, hpq, Option.bind_some, Option.map_some,
      Rank.compare_self]
  change (x.toModel.unpack.compare y.toModel.unpack == some .eq) = true
  rw [hcompare]
  rfl

end RuneSolver.Language

import Mathlib.Algebra.Ring.Nat
import RuneSolver.Fault

/-!
Sums of words against exact sums. A sum of words is the exact sum, and there is none just where the
exact sum needs more than sixty-four bits.
-/

namespace RuneSolver.Word

variable {a b sum last : UInt64} {words : List UInt64}

lemma add?_eq_none_iff : add? a b = none ↔ 2 ^ 64 ≤ a.toNat + b.toNat := by
  rw [add?]
  split
  case isTrue hfits => exact iff_of_false (Option.some_ne_none _) (Nat.not_le_of_lt hfits)
  case isFalse hleaves => exact iff_of_true rfl (Nat.le_of_not_lt hleaves)

/-- Words that are added to a sum make their exact sum. -/
lemma foldlM_add?_eq_some_iff :
    words.foldlM add? sum = some last ↔
      last.toNat = sum.toNat + (words.map UInt64.toNat).sum := by
  induction words generalizing sum with
  | nil =>
    rw [List.foldlM_nil, List.map_nil, List.sum_nil, Nat.add_zero, UInt64.toNat_inj]
    exact Option.some_inj.trans eq_comm
  | cons word words ih =>
    rw [List.foldlM_cons, List.map_cons, List.sum_cons, ← Nat.add_assoc]
    cases hnext : add? sum word with
    | some next =>
      rw [← add?_eq_some_iff.mp hnext]
      exact ih
    | none =>
      have hleaves := add?_eq_none_iff.mp hnext
      have hlt := last.toNat_lt
      exact iff_of_false nofun (by omega)

lemma sum?_eq_some_iff :
    sum? words = some last ↔ last.toNat = (words.map UInt64.toNat).sum := by
  rw [sum?, foldlM_add?_eq_some_iff, UInt64.toNat_zero, Nat.zero_add]

lemma sum?_eq_none_iff : sum? words = none ↔ 2 ^ 64 ≤ (words.map UInt64.toNat).sum := by
  constructor
  · intro hnone
    refine Nat.le_of_not_lt fun hlt => ?_
    have hsum : sum? words = some (.ofNat (words.map UInt64.toNat).sum) :=
      sum?_eq_some_iff.mpr (UInt64.toNat_ofNat_of_lt' hlt)
    rw [hnone] at hsum
    cases hsum
  · intro hleaves
    refine Option.eq_none_iff_forall_ne_some.mpr fun last hsum => ?_
    have hlt := last.toNat_lt
    rw [sum?_eq_some_iff.mp hsum] at hlt
    omega

end RuneSolver.Word

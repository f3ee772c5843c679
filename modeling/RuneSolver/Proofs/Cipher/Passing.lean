import Mathlib.Data.Nat.Notation
import Mathlib.Tactic.Lemma
import RuneSolver.Cipher.Document

/-!
Which runes of a document pass through. A skip counts the runes that are evaluated before it, so
each skip that has happened moves the ones after it by one more rune. Main statement: at the rune
`j` the skips still to come are those after as many as have passed, and the rune passes just if
the first of them is its position.
-/

namespace RuneSolver.Cipher.Skips

variable (s : Skips)

/-- The numbers of the runes that pass through: the skip number `i` lets the rune through that
comes `i` runes after its position. -/
def passing : List ℕ := s.positions.mapIdx fun i position => position + i

/-- The number of runes before the rune `j` that pass through. -/
def passedBefore (j : ℕ) : ℕ := (List.range j).countP (· ∈ s.passing)

/-- The position of the rune `j`, which counts the runes that are evaluated before it. -/
def positionOf (j : ℕ) : ℕ := j - s.passedBefore j

variable {s}

lemma mem_passing {j : ℕ} : j ∈ s.passing ↔ ∃ i q, s.positions[i]? = some q ∧ q + i = j := by
  constructor
  · intro h
    obtain ⟨i, hi, rfl⟩ := List.mem_mapIdx.mp h
    exact ⟨i, _, List.getElem?_eq_getElem hi, rfl⟩
  · rintro ⟨i, q, hq, rfl⟩
    obtain ⟨hi, rfl⟩ := List.getElem?_eq_some_iff.mp hq
    exact List.mem_mapIdx.mpr ⟨i, hi, rfl⟩

/-- Skips that are farther on in the list are at higher positions. -/
lemma lt_of_getElem? {i k p q : ℕ} (hp : s.positions[i]? = some p) (hq : s.positions[k]? = some q)
    (h : i < k) : p < q := by
  obtain ⟨hi, rfl⟩ := List.getElem?_eq_some_iff.mp hp
  obtain ⟨hk, rfl⟩ := List.getElem?_eq_some_iff.mp hq
  exact List.pairwise_iff_getElem.mp s.ascending i k hi hk h

lemma passedBefore_succ (s : Skips) (j : ℕ) :
    s.passedBefore (j + 1) = s.passedBefore j + if j ∈ s.passing then 1 else 0 := by
  unfold passedBefore
  rw [List.range_succ, List.countP_append, List.countP_singleton]
  simp only [decide_eq_true_eq]

lemma passedBefore_le (s : Skips) (j : ℕ) : s.passedBefore j ≤ j := by
  have h := List.countP_le_length (p := (· ∈ s.passing)) (l := List.range j)
  rwa [List.length_range] at h

/-- The skips that have happened before the rune `j` are those that let an earlier rune pass. -/
lemma lt_passedBefore_iff {i q j : ℕ} (hq : s.positions[i]? = some q) :
    i < s.passedBefore j ↔ q + i < j := by
  induction j generalizing i q with
  | zero => simp [passedBefore]
  | succ j ih =>
    rw [passedBefore_succ]
    by_cases hj : j ∈ s.passing
    · -- the rune `j` passes by the skip `k`; those before `k` have happened, and no others
      obtain ⟨k, p, hp, rfl⟩ := mem_passing.mp hj
      have hk : s.passedBefore (p + k) = k := by
        have hp' := ih hp
        rcases Nat.lt_or_ge (s.passedBefore (p + k)) k with hlt | hge
        · obtain ⟨hlen, -⟩ := List.getElem?_eq_some_iff.mp hp
          have hr := List.getElem?_eq_getElem (Nat.lt_trans hlt hlen)
          have hpos := lt_of_getElem? hr hp hlt
          exact absurd ((ih hr).mpr (by omega)) (Nat.lt_irrefl _)
        · omega
      rw [if_pos hj, hk]
      rcases Nat.lt_trichotomy i k with h | rfl | h
      · have := lt_of_getElem? hq hp h
        omega
      · rw [hp] at hq
        cases hq
        omega
      · have := lt_of_getElem? hp hq h
        omega
    · have hne : q + i ≠ j := fun h => hj (mem_passing.mpr ⟨i, q, hq, h⟩)
      have hi := ih hq
      rw [if_neg hj]
      omega

/-- Skips after the first one that has not happened yet are at higher positions than the rune. -/
lemma positionOf_lt {i q j : ℕ} (hq : s.positions[i]? = some q) (h : s.passedBefore j < i) :
    s.positionOf j < q := by
  obtain ⟨hlen, -⟩ := List.getElem?_eq_some_iff.mp hq
  have hr := List.getElem?_eq_getElem (Nat.lt_trans h hlen)
  have hlt := lt_of_getElem? hr hq h
  have hpast := lt_passedBefore_iff (j := j) hr
  rw [positionOf]
  omega

/-- A rune passes if the first skip that has not happened yet is at its position. -/
lemma mem_passing_iff {j : ℕ} :
    j ∈ s.passing ↔ s.positions[s.passedBefore j]? = some (s.positionOf j) := by
  have hle : s.passedBefore j ≤ j := s.passedBefore_le j
  rw [mem_passing, positionOf]
  constructor
  · rintro ⟨i, q, hq, rfl⟩
    have hi : ¬i < s.passedBefore (q + i) :=
      fun h => absurd ((lt_passedBefore_iff hq).mp h) (by omega)
    rcases Nat.lt_or_ge (s.passedBefore (q + i)) i with h | h
    · have hlt := positionOf_lt hq h
      rw [positionOf] at hlt
      omega
    · rw [show s.passedBefore (q + i) = i by omega, hq, Nat.add_sub_cancel]
  · intro h
    exact ⟨_, _, h, by omega⟩

/-- The skips that are still to come at the rune `j`. -/
def pendingAt (s : Skips) (j : ℕ) : List ℕ := s.positions.drop (s.passedBefore j)

lemma pendingAt_zero : s.pendingAt 0 = s.positions := rfl

/-- A rune at a position that is still to be skipped is one that passes through. -/
lemma positionOf_mem_pendingAt {j : ℕ} : s.positionOf j ∈ s.pendingAt j ↔ j ∈ s.passing := by
  rw [mem_passing_iff, pendingAt]
  constructor
  · intro h
    obtain ⟨m, hm⟩ := List.mem_iff_getElem?.mp h
    rw [List.getElem?_drop] at hm
    rcases Nat.eq_zero_or_pos m with rfl | hpos
    · exact hm
    · exact absurd (positionOf_lt hm (by omega)) (Nat.lt_irrefl _)
  · intro h
    exact List.mem_iff_getElem?.mpr ⟨0, by rw [List.getElem?_drop, Nat.add_zero, h]⟩

lemma positionOf_zero : s.positionOf 0 = 0 := Nat.zero_sub _

/-- A rune that passes takes its skip away, and the next rune has the same position. -/
lemma next_of_mem {j : ℕ} (h : j ∈ s.passing) :
    s.positionOf (j + 1) = s.positionOf j ∧
      s.pendingAt (j + 1) = (s.pendingAt j).erase (s.positionOf j) := by
  have hsucc := s.passedBefore_succ j
  rw [if_pos h] at hsucc
  refine ⟨by rw [positionOf, positionOf, hsucc, Nat.add_sub_add_right], ?_⟩
  obtain ⟨hlen, hget⟩ := List.getElem?_eq_some_iff.mp (mem_passing_iff.mp h)
  rw [pendingAt, pendingAt, hsucc, List.drop_eq_getElem_cons hlen, hget, List.erase_cons_head]

/-- A rune that is evaluated leaves the skips as they are. -/
lemma next_of_not_mem {j : ℕ} (h : j ∉ s.passing) :
    s.positionOf (j + 1) = s.positionOf j + 1 ∧ s.pendingAt (j + 1) = s.pendingAt j := by
  have hsucc := s.passedBefore_succ j
  have hle := s.passedBefore_le j
  have hsame : s.passedBefore (j + 1) = s.passedBefore j := by rw [hsucc, if_neg h, Nat.add_zero]
  refine ⟨?_, by rw [pendingAt, pendingAt, hsame]⟩
  rw [positionOf, positionOf, hsame]
  omega

/-- Without skips the position of a rune is its number. -/
lemma positionOf_none (j : ℕ) : Skips.none.positionOf j = j := by
  induction j with
  | zero => exact positionOf_zero
  | succ j ih => rw [(next_of_not_mem List.not_mem_nil).1, ih]

end RuneSolver.Cipher.Skips

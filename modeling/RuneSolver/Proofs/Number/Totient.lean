import Mathlib.Data.Nat.Totient
import Mathlib.Logic.Relation
import RuneSolver.Number.Basic
import RuneSolver.Proofs.Number.Primes

/-!
The totient by trial division. At each divisor the number is a product of two coprime parts: one
whose totient is already a factor of the result, and the rest, whose prime divisors are all still
to come. Main statement: the result is the number of numbers up to `n` that are coprime to `n`,
every division on the way is exact, and nothing on the way leaves the range of its words.
-/

namespace RuneSolver.Number

open Nat (totient_mul totient_prime totient_prime_pow)

/-! ### One divisor -/

/-- What is left of a number without its factors `p`. -/
lemma exists_pow_mul_divideOut {p n : ℕ} (hp : 1 < p) (hn : 0 < n) :
    ∃ k, n = p ^ k * divideOut p n ∧ ¬p ∣ divideOut p n := by
  fun_induction divideOut p n with
  | case1 n h ih =>
    have hdvd : p ∣ n := Nat.dvd_of_mod_eq_zero h.2.2
    have hpos : 0 < n / p := Nat.div_pos (Nat.le_of_dvd hn hdvd) (by omega)
    obtain ⟨k, hk, hnot⟩ := ih hpos
    refine ⟨k + 1, ?_, hnot⟩
    calc n = p * (n / p) := (Nat.mul_div_cancel' hdvd).symm
      _ = p * (p ^ k * divideOut p (n / p)) := by rw [← hk]
      _ = p ^ (k + 1) * divideOut p (n / p) := by ring
  | case2 n h =>
    refine ⟨0, by simp, fun hdvd => h ⟨hp, hn, Nat.mod_eq_zero_of_dvd hdvd⟩⟩

/-- A share of the result is taken off for a prime that is divided out. -/
lemma sub_div_eq_totient {p k part rest : ℕ} (hp : p.Prime) (hk : 0 < k) :
    part * (p ^ k * rest) - part * (p ^ k * rest) / p = part * Nat.totient (p ^ k) * rest := by
  obtain ⟨j, rfl⟩ : ∃ j, k = j + 1 := ⟨k - 1, by omega⟩
  have hshare : part * (p ^ (j + 1) * rest) = p * (part * p ^ j * rest) := by ring
  rw [hshare, Nat.mul_div_cancel_left _ hp.pos, totient_prime_pow hp (by omega),
    Nat.add_sub_cancel]
  have hone : p = (p - 1) + 1 := by have := hp.pos; omega
  calc p * (part * p ^ j * rest) - part * p ^ j * rest
      = (p - 1) * (part * p ^ j * rest) := by rw [Nat.sub_mul, Nat.one_mul]
    _ = part * (p ^ j * (p - 1)) * rest := by ring

/-- A number all of whose prime divisors are `p` or more and that is less than the square of `p`
is one or prime. -/
lemma prime_of_lt_mul_self {p n : ℕ} (hn : 1 < n) (hlt : n < p * p)
    (hle : ∀ q, q.Prime → q ∣ n → p ≤ q) : n.Prime := by
  by_contra hnot
  have hfac := Nat.minFac_sq_le_self (by omega) hnot
  have hp := hle n.minFac (Nat.minFac_prime (by omega)) (Nat.minFac_dvd n)
  have hsq : p * p ≤ n.minFac * n.minFac := Nat.mul_le_mul hp hp
  rw [pow_two] at hfac
  omega

/-! ### The run -/

/-- Where a run stands: the next divisor, what is left of the number, and the result so far. -/
structure Factoring where
  divisor : ℕ
  rest : ℕ
  result : ℕ
  deriving DecidableEq

namespace Factoring

def start (n : ℕ) : Factoring := ⟨2, n, n⟩

/-- The run goes on while the divisor is not above the square root of what is left. -/
def next? (s : Factoring) : Option Factoring :=
  if s.divisor * s.divisor ≤ s.rest then
    if s.rest % s.divisor = 0 then
      some ⟨s.divisor + 1, divideOut s.divisor s.rest, s.result - s.result / s.divisor⟩
    else some ⟨s.divisor + 1, s.rest, s.result⟩
  else none

/-- The result at the end, when what is left is a prime divisor or one. -/
def close (s : Factoring) : ℕ := if 1 < s.rest then s.result - s.result / s.rest else s.result

/-- A run of the totient is made of these steps. -/
lemma totientFrom_eq (s : Factoring) :
    totientFrom s.divisor s.rest s.result =
      match s.next? with
      | some t => totientFrom t.divisor t.rest t.result
      | none => s.close := by
  rw [totientFrom, next?]
  by_cases hle : s.divisor * s.divisor ≤ s.rest
  · by_cases hdvd : s.rest % s.divisor = 0
    · simp [hle, hdvd]
    · simp [hle, hdvd]
  · simp [hle, close]

/-- The run from `n` comes to this. -/
def Reached (n : ℕ) (s : Factoring) : Prop :=
  Relation.ReflTransGen (fun s t => s.next? = some t) (start n) s

/-- The number is a product of two coprime parts, of which the result holds the totient of one and
the other itself; the prime divisors of the other are still to come. -/
structure Accounts (n : ℕ) (s : Factoring) : Prop where
  two_le : 2 ≤ s.divisor
  square_le : (s.divisor - 1) * (s.divisor - 1) ≤ n
  rest_pos : 0 < s.rest
  parts : ∃ part, n = part * s.rest ∧ part.Coprime s.rest ∧ s.result = Nat.totient part * s.rest
  le_prime : ∀ q, q.Prime → q ∣ s.rest → s.divisor ≤ q

variable {n : ℕ} {s t : Factoring}

lemma accounts_start (hn : 0 < n) : (start n).Accounts n where
  two_le := le_rfl
  square_le := by simp only [start]; omega
  rest_pos := hn
  parts := ⟨1, by simp [start], Nat.coprime_one_left n, by simp [start]⟩
  le_prime q hq _ := hq.two_le

namespace Accounts

lemma rest_le (h : s.Accounts n) : s.rest ≤ n := by
  obtain ⟨part, hn, -, -⟩ := h.parts
  have hpart : 0 < part := by
    by_contra hzero
    obtain rfl : part = 0 := by omega
    have hsquare := h.square_le
    have hone : 1 ≤ (s.divisor - 1) * (s.divisor - 1) :=
      Nat.mul_pos (by have := h.two_le; omega) (by have := h.two_le; omega)
    omega
  rw [hn]
  exact Nat.le_mul_of_pos_left _ hpart

lemma result_le (h : s.Accounts n) : s.result ≤ n := by
  obtain ⟨part, hn, -, hresult⟩ := h.parts
  rw [hn, hresult]
  exact Nat.mul_le_mul_right _ (Nat.totient_le part)

/-- What is left divides the result, and so does whatever divides what is left. -/
lemma rest_dvd_result (h : s.Accounts n) : s.rest ∣ s.result := by
  obtain ⟨part, -, -, hresult⟩ := h.parts
  exact hresult ▸ Nat.dvd_mul_left _ _

/-- The divisor is prime where it divides what is left. -/
lemma prime_divisor (h : s.Accounts n) (hdvd : s.divisor ∣ s.rest) : s.divisor.Prime := by
  have htwo := h.two_le
  have hprime : s.divisor.minFac.Prime := Nat.minFac_prime (by omega)
  have hle := h.le_prime _ hprime ((Nat.minFac_dvd _).trans hdvd)
  have heq : s.divisor.minFac = s.divisor := (Nat.minFac_le (by omega)).antisymm hle
  exact heq ▸ hprime

lemma next_square_le (h : s.Accounts n) (hle : s.divisor * s.divisor ≤ s.rest) :
    (s.divisor + 1 - 1) * (s.divisor + 1 - 1) ≤ n := by
  rw [Nat.add_sub_cancel]
  exact hle.trans h.rest_le

lemma divide (h : s.Accounts n) (hle : s.divisor * s.divisor ≤ s.rest)
    (hdvd : s.divisor ∣ s.rest) :
    Accounts n ⟨s.divisor + 1, divideOut s.divisor s.rest, s.result - s.result / s.divisor⟩ := by
  have hp := h.prime_divisor hdvd
  obtain ⟨k, hrest, hnot⟩ := exists_pow_mul_divideOut hp.one_lt h.rest_pos
  have hk : 0 < k := by
    by_contra hzero
    obtain rfl : k = 0 := by omega
    rw [pow_zero, one_mul] at hrest
    exact hnot (hrest ▸ hdvd)
  obtain ⟨part, hn, hcoprime, hresult⟩ := h.parts
  rw [hrest] at hcoprime
  have hpower : part.Coprime (s.divisor ^ k) := hcoprime.coprime_mul_right_right
  refine ⟨by have := h.two_le; simp only; omega, h.next_square_le hle, ?_, ?_, fun q hq hqdvd => ?_⟩
  · have := h.rest_pos
    rw [hrest] at this
    exact Nat.pos_of_mul_pos_left this
  · refine ⟨part * s.divisor ^ k, ?_, ?_, ?_⟩
    · calc n = part * (s.divisor ^ k * divideOut s.divisor s.rest) := by rw [← hrest, ← hn]
        _ = part * s.divisor ^ k * divideOut s.divisor s.rest := by ring
    · exact hcoprime.coprime_mul_left_right.mul_left
        (((Nat.Prime.coprime_iff_not_dvd hp).mpr hnot).pow_left k)
    · rw [totient_mul hpower, ← sub_div_eq_totient hp hk, ← hrest, ← hresult]
  · -- a prime divisor that is left divides the old rest, but is not the divisor itself
    have hold : s.divisor ≤ q := by
      refine h.le_prime q hq ?_
      rw [hrest]
      exact hqdvd.mul_left _
    have hne : s.divisor ≠ q := fun heq => hnot (heq ▸ hqdvd)
    simp only
    omega

lemma pass (h : s.Accounts n) (hle : s.divisor * s.divisor ≤ s.rest)
    (hdvd : ¬s.divisor ∣ s.rest) : Accounts n ⟨s.divisor + 1, s.rest, s.result⟩ := by
  refine ⟨by have := h.two_le; simp only; omega, h.next_square_le hle, h.rest_pos, h.parts,
    fun q hq hqdvd => ?_⟩
  have hold := h.le_prime q hq hqdvd
  have hne : s.divisor ≠ q := fun heq => hdvd (heq ▸ hqdvd)
  simp only
  omega

lemma step (h : s.Accounts n) (hstep : s.next? = some t) : t.Accounts n := by
  unfold next? at hstep
  split at hstep
  case isFalse => cases hstep
  case isTrue hle =>
    split at hstep
    case isTrue hmod =>
      cases hstep
      exact h.divide hle (Nat.dvd_of_mod_eq_zero hmod)
    case isFalse hmod =>
      cases hstep
      exact h.pass hle fun hdvd => hmod (Nat.mod_eq_zero_of_dvd hdvd)

lemma close_eq (h : s.Accounts n) (hend : s.next? = none) : s.close = Nat.totient n := by
  have hlt : s.rest < s.divisor * s.divisor := by
    by_contra hle
    rw [next?, if_pos (by omega)] at hend
    split at hend <;> cases hend
  obtain ⟨part, hn, hcoprime, hresult⟩ := h.parts
  rw [close, hn, totient_mul hcoprime, hresult]
  split
  · next hone =>
    -- what is left is one more prime divisor
    have hp := prime_of_lt_mul_self hone hlt h.le_prime
    have hshare := @sub_div_eq_totient s.rest 1 (Nat.totient part) 1 hp Nat.one_pos
    simpa using hshare
  · have hrest : s.rest = 1 := by have := h.rest_pos; omega
    simp [hrest]

lemma of_reached (hn : 0 < n) (h : Reached n s) : s.Accounts n := by
  induction h with
  | refl => exact accounts_start hn
  | tail _ hstep ih => exact ih.step hstep

end Accounts

/-- A step takes the divisor closer to what is left. -/
lemma next?_lt (hstep : s.next? = some t) : t.rest + 1 - t.divisor < s.rest + 1 - s.divisor := by
  have hroot : s.divisor ≤ s.divisor * s.divisor := Nat.le_mul_self s.divisor
  have hout := divideOut_le s.divisor s.rest
  unfold next? at hstep
  split at hstep
  case isFalse => cases hstep
  case isTrue hle =>
    split at hstep <;> cases hstep <;> simp only <;> omega

/-- From anywhere on its way the run ends with the totient of the number. -/
lemma Accounts.totientFrom_eq {s : Factoring} (h : s.Accounts n) :
    totientFrom s.divisor s.rest s.result = Nat.totient n := by
  rw [Factoring.totientFrom_eq]
  cases hnext : s.next? with
  | none => exact h.close_eq hnext
  | some t => exact (h.step hnext).totientFrom_eq
termination_by s.rest + 1 - s.divisor
decreasing_by exact next?_lt hnext

/-- The divisions at this point leave no remainder, and the words there do not overflow. -/
structure Exact (n : ℕ) (s : Factoring) : Prop where
  divides : s.divisor ∣ s.rest → s.divisor ∣ s.result
  divides_out : ∃ k, s.rest = s.divisor ^ k * divideOut s.divisor s.rest
  closes : s.rest ∣ s.result
  square_lt : s.divisor * s.divisor < 2 ^ 63
  rest_le : s.rest ≤ n
  result_le : s.result ≤ n

lemma Accounts.exact (h : s.Accounts n) (hn : n < 2 ^ 31) : s.Exact n where
  divides hdvd := hdvd.trans h.rest_dvd_result
  divides_out := by
    have hone : 1 < s.divisor := h.two_le
    obtain ⟨k, hk, -⟩ := exists_pow_mul_divideOut hone h.rest_pos
    exact ⟨k, hk⟩
  closes := h.rest_dvd_result
  square_lt := mul_self_lt h.two_le h.square_le hn
  rest_le := h.rest_le
  result_le := h.result_le

end Factoring

/-! ### Words -/

lemma toInt_totient {n : Int32} (hn : 0 < n.toInt) :
    (totient n).toInt = Nat.totient n.toInt.toNat := by
  have hlt := Int32.toInt_lt n
  obtain ⟨k, hk⟩ : ∃ k : ℕ, n.toInt = k := ⟨n.toInt.toNat, by omega⟩
  have hpos : 0 < k := by omega
  have hle : Nat.totient k < 2 ^ 31 := by have := Nat.totient_le k; omega
  have hrun : totient n = Int32.ofNat (totientFrom 2 k k) := by
    rw [totient, hk]
  have hend : totientFrom 2 k k = Nat.totient k := (Factoring.accounts_start hpos).totientFrom_eq
  rw [hrun, hend, Int32.toInt_ofNat_of_lt hle, hk, Int.toNat_natCast]

/-- **The totient counts the numbers that are coprime to the number.** A number below one is its own
totient; the totient of a prime is one less; the totient of a product of coprime numbers that is
in range is the product of their totients. Wherever a run comes to, it goes on to the totient, its
divisions are exact, and no word of it overflows. -/
theorem totient_counts_coprime (n : Int32) :
    (1 ≤ n.toInt → (totient n).toInt =
      ((Finset.Icc 1 n.toInt.toNat).filter n.toInt.toNat.Coprime).card) ∧
    (n.toInt ≤ 0 → totient n = n) ∧
    (n.toInt.toNat.Prime → (totient n).toInt = n.toInt - 1) ∧
    (∀ m : Int32, 1 ≤ m.toInt → 1 ≤ n.toInt → m.toInt.toNat.Coprime n.toInt.toNat →
      m.toInt * n.toInt < 2 ^ 31 →
        (totient (m * n)).toInt = (totient m).toInt * (totient n).toInt) ∧
    ∀ s, 1 ≤ n.toInt → Factoring.Reached n.toInt.toNat s →
      s.Exact n.toInt.toNat ∧ (totient n).toInt = totientFrom s.divisor s.rest s.result := by
  have hlt := Int32.toInt_lt n
  refine ⟨fun hn => ?_, fun hn => ?_, fun hp => ?_, fun m hm hn hcoprime hrange => ?_,
    fun s hn hs => ?_⟩
  · have hcount := Nat.filter_coprime_Ico_eq_totient n.toInt.toNat 1
    rw [toInt_totient hn, ← hcount, Nat.add_comm]
    rfl
  · cases hword : n.toInt with
    | ofNat k =>
      have hzero : n = 0 := by
        rw [hword, Int.ofNat_eq_natCast] at hn
        rw [← Int32.toInt_inj, hword, Int.ofNat_eq_natCast, Int32.toInt_zero]
        omega
      rw [hzero]
      decide +kernel
    | negSucc k => rw [totient, hword]
  · have hpos := hp.pos
    rw [toInt_totient (by omega), totient_prime hp]
    omega
  · have hpos : 0 < m.toInt * n.toInt := Int.mul_pos (by omega) (by omega)
    have hproduct : (m * n).toInt = m.toInt * n.toInt := by
      rw [Int32.toInt_mul, Int.bmod_eq_of_le (by omega) (by omega)]
    rw [toInt_totient (by omega), toInt_totient (by omega), toInt_totient (by omega), hproduct,
      Int.toNat_mul (by omega) (by omega), totient_mul hcoprime, Nat.cast_mul]
  · have haccounts := Factoring.Accounts.of_reached (by omega) hs
    exact ⟨haccounts.exact (by omega), by rw [toInt_totient hn, haccounts.totientFrom_eq]⟩

/-- Twelve and thirty-five are coprime, and thirty-five is divided out by five and closed by
seven. -/
theorem totient_counts_coprime_thirtyFive :
    (totient 35).toInt = 24 ∧ (totient (12 * 35)).toInt = (totient 12).toInt * 24 ∧
      Factoring.Exact 35 ⟨6, 7, 28⟩ ∧ totient (-5) = -5 ∧ (totient 7).toInt = 6 := by
  obtain ⟨hcount, -, -, hproduct, hexact⟩ := totient_counts_coprime 35
  have hvalue : (totient 35).toInt = 24 := by
    rw [hcount (by decide)]
    decide +kernel
  have hreached : Factoring.Reached 35 ⟨6, 7, 28⟩ := by
    have h₃ : Factoring.Reached 35 ⟨3, 35, 35⟩ := .single (by decide +kernel)
    have h₄ : Factoring.Reached 35 ⟨4, 35, 35⟩ := .tail h₃ (by decide +kernel)
    have h₅ : Factoring.Reached 35 ⟨5, 35, 35⟩ := .tail h₄ (by decide +kernel)
    exact .tail h₅ (by decide +kernel)
  refine ⟨hvalue, ?_, (hexact _ (by decide) hreached).1,
    (totient_counts_coprime (-5)).2.1 (by decide), (totient_counts_coprime 7).2.2.1 (by decide)⟩
  rw [hproduct 12 (by decide) (by decide) (by decide) (by decide), hvalue]

end RuneSolver.Number

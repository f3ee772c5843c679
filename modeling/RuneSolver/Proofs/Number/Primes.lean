import Mathlib.Data.List.Sort
import Mathlib.Data.Nat.Count
import Mathlib.Data.Nat.Prime.Basic
import Mathlib.Data.Nat.Sqrt
import Mathlib.Tactic.Ring
import RuneSolver.Number.Tables

/-!
The primes by trial division. Main statement: the table below a limit is the ascending list of the
primes there, in whatever order its candidates were found; the entry at a position is the prime
with that many primes before it; and a number is found to be prime when it is.
-/

namespace RuneSolver.Number

/-! ### One number -/

lemma noDivisorFrom_iff {d n : ℕ} :
    noDivisorFrom d n = true ↔ ∀ k, d ≤ k → k * k ≤ n → ¬k ∣ n := by
  fun_induction noDivisorFrom d n with
  | case1 d hle hmod =>
    have hdvd : d ∣ n := Nat.dvd_of_mod_eq_zero hmod
    simp only [Bool.false_eq_true, false_iff, not_forall]
    exact ⟨d, le_rfl, hle, fun hnot => hnot hdvd⟩
  | case2 d hle hmod ih =>
    rw [ih]
    constructor
    · intro h k hk hsquare
      rcases Nat.eq_or_lt_of_le hk with rfl | hlt
      · exact fun hdvd => hmod (Nat.mod_eq_zero_of_dvd hdvd)
      · exact h k hlt hsquare
    · exact fun h k hk => h k (by omega)
  | case3 d hle =>
    refine ⟨fun _ k hk hsquare => ?_, fun _ => rfl⟩
    have hmul : d * d ≤ k * k := Nat.mul_le_mul hk hk
    omega

/-- **A number without a divisor up to its square root is prime.** -/
lemma isPrime_iff (n : ℕ) : isPrime n = true ↔ n.Prime := by
  rw [isPrime, Bool.and_eq_true, decide_eq_true_eq, noDivisorFrom_iff, Nat.prime_def_le_sqrt]
  simp only [Nat.le_sqrt]

/-- The square of the first divisor above the square root of a number of thirty-two bits fits into
sixty-four. -/
lemma mul_self_lt {d n : ℕ} (hd : 2 ≤ d) (hsquare : (d - 1) * (d - 1) ≤ n) (hn : n < 2 ^ 31) :
    d * d < 2 ^ 63 := by
  obtain ⟨k, rfl⟩ : ∃ k, d = k + 1 := ⟨d - 1, by omega⟩
  have hle : k ≤ k * k := Nat.le_mul_self k
  have hexpand : (k + 1) * (k + 1) = k * k + 2 * k + 1 := by ring
  rw [Nat.add_sub_cancel] at hsquare
  rw [hexpand]
  omega

/-- The divisors that are tried on a number, from two upward. -/
inductive Tried (n : ℕ) : ℕ → Prop where
  | two : 2 ≤ n → Tried n 2
  | next {d : ℕ} : Tried n d → d * d ≤ n → n % d ≠ 0 → Tried n (d + 1)

namespace Tried

variable {n d : ℕ}

lemma bounds (h : Tried n d) : 2 ≤ d ∧ (d - 1) * (d - 1) ≤ n := by
  induction h with
  | two hn => omega
  | next _ hle _ ih => exact ⟨by omega, hle⟩

/-- What is still to be tried decides. -/
lemma isPrime_eq (h : Tried n d) : isPrime n = noDivisorFrom d n := by
  induction h with
  | two hn => simp [isPrime, hn]
  | next _ hle hmod ih => rw [ih, noDivisorFrom, if_pos hle, if_neg hmod]

end Tried

/-! ### All numbers below a limit -/

lemma mem_primesBelow {limit q : ℕ} : q ∈ primesBelow limit ↔ q.Prime ∧ q < limit := by
  rw [primesBelow, List.mem_filter, List.mem_range, isPrime_iff, and_comm]

lemma pairwise_primesBelow (limit : ℕ) : (primesBelow limit).Pairwise (· < ·) :=
  List.pairwise_lt_range.filter _

lemma primesBelow_succ (limit : ℕ) :
    primesBelow (limit + 1) = primesBelow limit ++ if limit.Prime then [limit] else [] := by
  rw [primesBelow, List.range_succ, List.filter_append, ← primesBelow]
  by_cases h : limit.Prime
  · rw [if_pos h, List.filter_singleton, (isPrime_iff limit).mpr h]
    rfl
  · rw [if_neg h, List.filter_singleton, Bool.eq_false_iff.mpr (mt (isPrime_iff limit).mp h)]
    rfl

lemma length_primesBelow (limit : ℕ) : (primesBelow limit).length = Nat.count Nat.Prime limit := by
  induction limit with
  | zero => rfl
  | succ limit ih =>
    rw [primesBelow_succ, List.length_append, ih, Nat.count_succ]
    split <;> rfl

lemma getElem?_primesBelow_count {limit q : ℕ} (hp : q.Prime) (hq : q < limit) :
    (primesBelow limit)[Nat.count Nat.Prime q]? = some q := by
  -- by the limit: the prime is the last entry just above it, and stays where it is afterwards
  induction limit, hq using Nat.le_induction with
  | base =>
    rw [primesBelow_succ, if_pos hp, List.getElem?_append_right (length_primesBelow q).le,
      length_primesBelow, Nat.sub_self]
    rfl
  | succ limit _ ih =>
    obtain ⟨hlt, -⟩ := List.getElem?_eq_some_iff.mp ih
    rw [primesBelow_succ, List.getElem?_append_left hlt, ih]

/-- The prime at a position has that many primes before it. -/
lemma getElem?_primesBelow {limit i q : ℕ} :
    (primesBelow limit)[i]? = some q ↔ q.Prime ∧ q < limit ∧ Nat.count Nat.Prime q = i := by
  constructor
  · intro h
    obtain ⟨hi, hget⟩ := List.getElem?_eq_some_iff.mp h
    obtain ⟨hp, hq⟩ := mem_primesBelow.mp (List.mem_of_getElem? h)
    obtain ⟨hj, hget'⟩ := List.getElem?_eq_some_iff.mp (getElem?_primesBelow_count hp hq)
    have hnodup : (primesBelow limit).Nodup := (pairwise_primesBelow limit).imp Nat.ne_of_lt
    exact ⟨hp, hq, hnodup.getElem_inj_iff.mp (hget'.trans hget.symm)⟩
  · rintro ⟨hp, hq, rfl⟩
    exact getElem?_primesBelow_count hp hq

/-- The primes that are found among the candidates from two upward, in whatever order, come out
ascending when they are sorted. -/
lemma mergeSort_eq_primesBelow {limit : ℕ} {found : List ℕ}
    (h : found.Perm ((List.range' 2 (limit - 2)).filter isPrime)) :
    found.mergeSort = primesBelow limit := by
  have hcandidates : ((List.range' 2 (limit - 2)).filter isPrime).Perm (primesBelow limit) := by
    have hnodup : (List.range' 2 (limit - 2)).Nodup := List.nodup_range'
    refine (List.perm_ext_iff_of_nodup (hnodup.filter _)
      ((pairwise_primesBelow limit).imp Nat.ne_of_lt)).mpr fun q => ?_
    rw [mem_primesBelow, List.mem_filter, List.mem_range'_1, isPrime_iff]
    constructor
    · rintro ⟨hq, hp⟩
      exact ⟨hp, by omega⟩
    · rintro ⟨hp, hq⟩
      have := hp.two_le
      exact ⟨by omega, hp⟩
  have hsorted : found.mergeSort.Pairwise (· ≤ ·) := List.pairwise_mergeSort' (· ≤ ·) found
  exact ((List.mergeSort_perm found _).trans (h.trans hcandidates)).eq_of_pairwise'
    hsorted ((pairwise_primesBelow limit).imp Nat.le_of_lt)

end RuneSolver.Number

namespace RuneSolver.NumberTables

open RuneSolver.Number

/-- The tables of a job, with digits that are read from a source or built in. -/
def HasLimit (t : NumberTables) (limit : Int32) : Prop :=
  (∃ source, generate limit source = .ok t) ∨ t = builtIn limit

lemma HasLimit.primes_eq {t : NumberTables} {limit : Int32} (h : t.HasLimit limit) :
    t.primes = (primesBelow limit).toArray := by
  rcases h with ⟨source, hsource⟩ | rfl
  · rw [generate] at hsource
    split at hsource <;> cases hsource
    rfl
  · rfl

/-- The prime at a position, as a word: the primes below a word do not leave its range. -/
lemma prime?_eq_some_iff {t : NumberTables} {limit n q : Int32} (h : t.HasLimit limit) :
    t.prime? n = some q ↔ ∃ p : ℕ, q.toInt = p ∧ p.Prime ∧ (p : ℤ) < limit.toInt ∧
      n.toInt = Nat.count Nat.Prime p := by
  have hlimit := Int32.toInt_lt limit
  rw [prime?, h.primes_eq, entry?]
  cases hn : n.toInt with
  | negSucc k =>
    simp only [reduceCtorEq, false_iff, not_exists]
    rintro p ⟨-, -, -, hcount⟩
    cases hcount
  | ofNat k =>
    simp only [List.getElem?_toArray, Option.map_eq_some_iff, primesBelow, getElem?_primesBelow]
    refine exists_congr fun p => ?_
    constructor
    · rintro ⟨⟨hp, hlt, rfl⟩, rfl⟩
      exact ⟨Int32.toInt_ofNat_of_lt (by omega), hp, by omega, rfl⟩
    · rintro ⟨hq, hp, hlt, hcount⟩
      refine ⟨⟨hp, by omega, (Int.ofNat.inj hcount).symm⟩, ?_⟩
      rw [← Int32.toInt_inj, hq, Int32.toInt_ofNat_of_lt (by omega)]

/-- **The tables enumerate the primes.** The table of a limit is the ascending list of the primes
below it, in whatever order its candidates were found; the entry at a position is the prime below
the limit that has this number of primes before it, and there is no other entry; and a word is
found to be prime when it is, with squares of divisors that fit into sixty-four bits. -/
theorem primes_enumerated (limit : Int32) :
    (primesBelow limit).Pairwise (· < ·) ∧
    (∀ q : ℕ, q ∈ primesBelow limit ↔ q.Prime ∧ (q : ℤ) < limit.toInt) ∧
    (∀ found : List ℕ, found.Perm ((List.range' 2 (limit.toInt.toNat - 2)).filter isPrime) →
      found.mergeSort = primesBelow limit) ∧
    (∀ t : NumberTables, t.HasLimit limit → ∀ n q : Int32,
      t.prime? n = some q ↔ 0 ≤ n.toInt ∧ ∃ p : ℕ, q.toInt = p ∧ p.Prime ∧
        (p : ℤ) < limit.toInt ∧ ((Finset.range p).filter Nat.Prime).card = n.toInt) ∧
    ∀ n : Int32, (isPrime n.toInt.toNat = true ↔ ∃ p : ℕ, p.Prime ∧ n.toInt = p) ∧
      ∀ d, Tried n.toInt.toNat d →
        d * d < 2 ^ 63 ∧ isPrime n.toInt.toNat = noDivisorFrom d n.toInt.toNat := by
  refine ⟨pairwise_primesBelow _, fun q => ?_, fun found h => mergeSort_eq_primesBelow h,
    fun t ht n q => ?_, fun n => ⟨?_, fun d hd => ⟨?_, hd.isPrime_eq⟩⟩⟩
  · rw [primesBelow, mem_primesBelow, Int.lt_toNat]
  · simp only [prime?_eq_some_iff ht, Nat.count_eq_card_filter_range]
    constructor
    · rintro ⟨p, hq, hp, hlt, hn⟩
      exact ⟨by omega, p, hq, hp, hlt, hn.symm⟩
    · rintro ⟨-, p, hq, hp, hlt, hn⟩
      exact ⟨p, hq, hp, hlt, hn.symm⟩
  · rw [isPrime_iff]
    constructor
    · intro hp
      have hpos := hp.pos
      exact ⟨n.toInt.toNat, hp, by omega⟩
    · rintro ⟨p, hp, hn⟩
      rwa [hn, Int.toNat_natCast]
  · have hn := Int32.toInt_lt n
    exact mul_self_lt hd.bounds.1 hd.bounds.2 (by omega)

/-- Four primes are below ten, found here in another order. -/
theorem primes_enumerated_ten :
    [5, 2, 7, 3].mergeSort = primesBelow 10 ∧ (builtIn 10).prime? 3 = some 7 ∧
      (builtIn 10).prime? 4 = none ∧ 2 * 2 < 2 ^ 63 := by
  obtain ⟨-, -, hsort, hentry, hword⟩ := primes_enumerated 10
  refine ⟨hsort _ (by decide +kernel), ?_, ?_, ((hword 4).2 2 (.two (by decide))).1⟩
  · rw [hentry _ (.inr rfl)]
    exact ⟨by decide, 7, rfl, by decide +kernel, by decide, by decide +kernel⟩
  · rw [Option.eq_none_iff_forall_ne_some]
    intro q hq
    obtain ⟨-, p, -, hp, hlt, hcount⟩ := (hentry _ (.inr rfl) 4 q).mp hq
    have hfewer : ∀ r < 10, r.Prime → ((Finset.range r).filter Nat.Prime).card < 4 := by
      decide +kernel
    exact (hfewer p (Int.ofNat_lt.mp hlt) hp).ne (Int.ofNat.inj hcount)

end RuneSolver.NumberTables

import Mathlib.Data.Int.Notation
import Mathlib.Data.List.Induction
import RuneSolver.Text.Numeral

/-!
Numerals that are read, and those that are written. Main statements: a reader takes the digits of a
number within its bounds and nothing else, so a number within the bounds is read from the digits
that write it.
-/

namespace RuneSolver.Text

lemma digitValue_of_isDigit {c : Char} (h : c.isDigit = true) :
    digitValue? c = some (c.toNat - '0'.toNat) := by
  rw [digitValue?, if_pos h]

lemma le_ofDigitChars (cs : List Char) (n : ℕ) : n ≤ Nat.ofDigitChars 10 cs n := by
  induction cs generalizing n with
  | nil => simp
  | cons c cs ih =>
    rw [Nat.ofDigitChars_cons]
    have := ih (10 * n + (c.toNat - '0'.toNat))
    omega

/-! ### Numerals that are read -/

/-- Digits stand for a number, with a plus sign before them or none. -/
def IsNumeral (cs : List Char) (n : ℕ) : Prop :=
  ∃ digits, (cs = digits ∨ cs = '+' :: digits) ∧ digits ≠ [] ∧ (∀ c ∈ digits, c.isDigit = true) ∧
    Nat.ofDigitChars 10 digits 0 = n

lemma readDigits_eq_ok_iff {limit n v : ℕ} {overflow : NumeralError} {cs : List Char}
    (hn : n ≤ limit) : readDigits limit overflow n cs = .ok v ↔
      (∀ c ∈ cs, c.isDigit = true) ∧ Nat.ofDigitChars 10 cs n = v ∧ v ≤ limit := by
  induction cs generalizing n with
  | nil =>
    rw [readDigits, Except.ok.injEq]
    constructor
    · rintro rfl
      exact ⟨nofun, rfl, hn⟩
    · exact fun h => h.2.1
  | cons c cs ih =>
    rw [readDigits, List.forall_mem_cons, Nat.ofDigitChars_cons]
    by_cases hc : c.isDigit = true
    · rw [digitValue_of_isDigit hc]
      by_cases hle : 10 * n + (c.toNat - '0'.toNat) ≤ limit
      · simp only [if_pos hle, ih hle, hc, true_and]
      · have hlarge := le_ofDigitChars cs (10 * n + (c.toNat - '0'.toNat))
        simp only [if_neg hle, reduceCtorEq, false_iff]
        rintro ⟨-, hv, hlimit⟩
        omega
    · simp [digitValue?, hc]

lemma readMagnitude_eq_ok_iff {limit v : ℕ} {overflow : NumeralError} {cs : List Char} :
    readMagnitude limit overflow cs = .ok v ↔ cs ≠ [] ∧ (∀ c ∈ cs, c.isDigit = true) ∧
      Nat.ofDigitChars 10 cs 0 = v ∧ v ≤ limit := by
  cases cs with
  | nil => simp [readMagnitude]
  | cons c cs =>
    rw [readMagnitude, if_neg (by simp), readDigits_eq_ok_iff (Nat.zero_le limit)]
    simp

/-- A number is read from its numerals and from nothing else. -/
lemma readNatural_eq_ok_iff {limit v : ℕ} {cs : List Char} :
    readNatural limit cs = .ok v ↔ IsNumeral cs v ∧ v ≤ limit := by
  have hplus : ¬('+').isDigit = true := by decide
  unfold readNatural
  split
  · simp [IsNumeral]
  · next rest =>
    rw [readMagnitude_eq_ok_iff]
    constructor
    · rintro ⟨hne, hdigits, hv, hle⟩
      exact ⟨⟨rest, .inr rfl, hne, hdigits, hv⟩, hle⟩
    · rintro ⟨⟨digits, rfl | hcons, hne, hdigits, hv⟩, hle⟩
      · exact absurd (hdigits '+' List.mem_cons_self) hplus
      · cases hcons
        exact ⟨hne, hdigits, hv, hle⟩
  · next hne hsign =>
    rw [readMagnitude_eq_ok_iff]
    constructor
    · rintro ⟨hne, hdigits, hv, hle⟩
      exact ⟨⟨cs, .inl rfl, hne, hdigits, hv⟩, hle⟩
    · rintro ⟨⟨digits, rfl | rfl, hne, hdigits, hv⟩, hle⟩
      · exact ⟨hne, hdigits, hv, hle⟩
      · exact absurd rfl (hsign digits)

lemma readWord_eq_ok_iff {cs : List Char} {v : UInt64} :
    readWord cs = .ok v ↔ IsNumeral cs v.toNat := by
  have hv := v.toNat_lt
  have hlimit : wordLimit = 2 ^ 64 - 1 := rfl
  constructor
  · intro h
    rw [readWord] at h
    cases hread : readNatural wordLimit cs with
    | error e => rw [hread] at h; cases h
    | ok n =>
      rw [hread] at h
      cases h
      obtain ⟨hnumeral, hle⟩ := readNatural_eq_ok_iff.mp hread
      rwa [UInt64.toNat_ofNat_of_lt' (by rw [UInt64.size]; omega)]
  · intro h
    rw [readWord, readNatural_eq_ok_iff.mpr ⟨h, by omega⟩]
    exact congrArg Except.ok (UInt64.ofNat_toNat)

/-! ### Numerals that are written -/

lemma isDigit_of_mem_natural {n : ℕ} {c : Char} (h : c ∈ natural n) : c.isDigit = true :=
  Nat.isDigit_of_mem_toDigits (by decide) (by decide) h

lemma natural_ne_nil (n : ℕ) : natural n ≠ [] := Nat.toDigits_ne_nil

lemma natural_ne_cons {n : ℕ} {c : Char} {cs : List Char} (hc : c.isDigit = false) :
    natural n ≠ c :: cs := by
  intro h
  have hdigit := isDigit_of_mem_natural (n := n) (c := c) (by simp [h])
  rw [hc] at hdigit
  cases hdigit

lemma ofDigitChars_natural (n : ℕ) : Nat.ofDigitChars 10 (natural n) 0 = n :=
  Nat.ofDigitChars_ten_toDigits

/-- **A numeral without a needless zero** is the one that its number is written with. -/
lemma natural_ofDigitChars {cs : List Char} (hne : cs ≠ [])
    (hdigits : ∀ c ∈ cs, c.isDigit = true) (hzero : cs.head? = some '0' → cs = ['0']) :
    natural (Nat.ofDigitChars 10 cs 0) = cs := by
  induction cs using List.reverseRecOn with
  | nil => exact absurd rfl hne
  | append_singleton init c ih =>
    obtain ⟨hinit, hc⟩ := List.forall_mem_append.mp hdigits
    have hdigit : (c.toNat - '0'.toNat) < 10 ∧ Nat.digitChar (c.toNat - '0'.toNat) = c := by
      have hrange : 48 ≤ c.toNat ∧ c.toNat ≤ 57 :=
        Char.isDigit_iff_toNat.mp (hc c List.mem_cons_self)
      have hbase : '0'.toNat = 48 := rfl
      refine ⟨by omega, Char.toNat_inj.mp ?_⟩
      rw [Nat.toNat_digitChar_of_lt_ten (by omega)]
      omega
    rw [Nat.ofDigitChars_append, Nat.ofDigitChars_cons, Nat.ofDigitChars_nil]
    by_cases hempty : init = []
    · rw [hempty, Nat.ofDigitChars_nil, Nat.mul_zero, Nat.zero_add, natural,
        Nat.toDigits_of_lt_base hdigit.1, hdigit.2]
      rfl
    · obtain ⟨d, rest, rfl⟩ := List.exists_cons_of_ne_nil hempty
      have hhead : d ≠ '0' := by
        rintro rfl
        simpa using hzero rfl
      have hsame := ih hempty hinit fun h => absurd (Option.some.inj h) hhead
      generalize Nat.ofDigitChars 10 (d :: rest) 0 = n at hsame ⊢
      have hpos : n ≠ 0 := by
        rintro rfl
        exact hhead (List.cons.inj hsame).1.symm
      rw [natural, Nat.toDigits_of_base_le (by decide) (by omega),
        Nat.mul_add_div (by decide), Nat.mul_add_mod, Nat.div_eq_of_lt hdigit.1,
        Nat.mod_eq_of_lt hdigit.1, hdigit.2, Nat.add_zero]
      exact congrArg (· ++ [c]) hsame

lemma readMagnitude_natural {limit n : ℕ} (overflow : NumeralError) (h : n ≤ limit) :
    readMagnitude limit overflow (natural n) = .ok n :=
  readMagnitude_eq_ok_iff.mpr ⟨natural_ne_nil n, fun _ => isDigit_of_mem_natural,
    ofDigitChars_natural n, h⟩

/-- **A number within the bounds is read from its numeral.** -/
theorem readInteger_integer {below above : ℕ} {i : ℤ} (hbelow : -(below : ℤ) ≤ i)
    (habove : i ≤ above) : readInteger below above (integer i) = .ok i := by
  cases i with
  | ofNat n =>
    have hn : n ≤ above := by simpa using habove
    simp only [integer]
    unfold readInteger
    split
    · next h => exact absurd h (natural_ne_nil n)
    · next h => exact absurd h (natural_ne_cons (by decide))
    · next h => exact absurd h (natural_ne_cons (by decide))
    · rw [readMagnitude_natural _ hn]; rfl
  | negSucc n =>
    have hn : n + 1 ≤ below := by rw [Int.negSucc_eq] at hbelow; omega
    simp only [integer, readInteger]
    rw [readMagnitude_natural _ hn]
    rfl

theorem readInt32_integer (v : Int32) : readInt32 (integer v.toInt) = .ok v := by
  have hlow := Int32.le_toInt v
  have hhigh := Int32.toInt_lt v
  rw [readInt32, readInteger_integer (by omega) (by omega)]
  exact congrArg Except.ok (Int32.ofInt_toInt v)

theorem readWord_natural (v : UInt64) : readWord (natural v.toNat) = .ok v :=
  readWord_eq_ok_iff.mpr ⟨natural v.toNat, .inl rfl, natural_ne_nil _,
    fun _ => isDigit_of_mem_natural, ofDigitChars_natural _⟩

/-- Every character of a numeral is a digit, or the minus sign it starts with. -/
lemma eq_minus_or_isDigit_of_mem_integer {i : ℤ} {c : Char} (h : c ∈ integer i) :
    c = '-' ∨ c.isDigit = true := by
  cases i with
  | ofNat n => exact Or.inr (isDigit_of_mem_natural h)
  | negSucc n =>
    rcases List.mem_cons.mp h with rfl | h'
    · exact Or.inl rfl
    · exact Or.inr (isDigit_of_mem_natural h')

lemma exists_digit_mem_integer (i : ℤ) : ∃ c ∈ integer i, c.isDigit = true := by
  cases i with
  | ofNat n =>
    obtain ⟨c, hc⟩ := List.exists_mem_of_ne_nil _ (natural_ne_nil n)
    exact ⟨c, hc, isDigit_of_mem_natural hc⟩
  | negSucc n =>
    obtain ⟨c, hc⟩ := List.exists_mem_of_ne_nil _ (natural_ne_nil (n + 1))
    exact ⟨c, List.mem_cons_of_mem _ hc, isDigit_of_mem_natural hc⟩

end RuneSolver.Text

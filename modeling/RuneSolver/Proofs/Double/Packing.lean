import RuneSolver.Proofs.Double.Rounding

/-!
The doubles as bits. Main statement: an unpacked double with a significand and an exponent of the
right size is the same after packing and unpacking, and every double is unpacked to such a one.
-/

namespace RuneSolver.Double

open Float.Model
open Float.Model.UnpackedFloat

lemma toNat_one_append (m : BitVec 52) : (1#1 ++ m).toNat = 2 ^ 52 + m.toNat := by
  rw [BitVec.toNat_append, ← Nat.shiftLeft_add_eq_or_of_lt m.isLt]
  rfl

lemma toNat_ofNat_of_lt {w n : ℕ} (hn : n < 2 ^ w) : (BitVec.ofNat w n).toNat = n := by
  rw [BitVec.toNat_ofNat, Nat.mod_eq_of_lt hn]

lemma ofNat_ne_of_lt {w n : ℕ} {b : BitVec w} (hn : n < 2 ^ w) (h : n ≠ b.toNat) :
    BitVec.ofNat w n ≠ b := by
  rintro rfl
  exact h (toNat_ofNat_of_lt hn).symm

/-- A significand with its first bit left out is read back behind an exponent field that is neither
the least nor the largest. -/
lemma unpack_normal (s : Sign) {m b : ℕ} (hb : 0 < b) (hb' : b < 2047) (hm : 2 ^ 52 ≤ m)
    (hm' : m < 2 ^ 53) :
    UnpackedFloat.unpack Format.binary64
      (packComponents Format.binary64 s (BitVec.ofNat 11 b) (BitVec.ofNat 52 m)) =
      .finite s m (b - 1075) (by omega) := by
  have hexp : (BitVec.ofNat 11 b).toNat = b := toNat_ofNat_of_lt (by omega)
  have hmant : (1#1 ++ BitVec.ofNat 52 m).toNat = m := by
    rw [toNat_one_append, BitVec.toNat_ofNat]
    omega
  have hones : BitVec.ofNat 11 b ≠ -1#11 := ofNat_ne_of_lt (by omega) (by simp; omega)
  have hzero : BitVec.ofNat 11 b ≠ 0#11 := ofNat_ne_of_lt (by omega) (by simp; omega)
  simp only [UnpackedFloat.unpack, unpackMantissa_packComponents, unpackExponent_packComponents,
    unpackSign_packComponents, Sign.ofBitVec_toBitVec, if_neg hones, if_neg hzero, hexp, hmant]
  rfl

/-- A significand of less than fifty-three bits is read back behind the least exponent field. -/
lemma unpack_subnormal (s : Sign) {m : ℕ} (hm : 0 < m) (hm' : m < 2 ^ 52) :
    UnpackedFloat.unpack Format.binary64
      (packComponents Format.binary64 s 0#11 (BitVec.ofNat 52 m)) = .finite s m (-1074) hm := by
  have hmant : (BitVec.ofNat 52 m).toNat = m := toNat_ofNat_of_lt hm'
  have hones : 0#11 ≠ -1#11 := by decide
  have hzero : BitVec.ofNat 52 m ≠ 0#52 := ofNat_ne_of_lt (by omega) (by simp; omega)
  simp only [UnpackedFloat.unpack, unpackMantissa_packComponents, unpackExponent_packComponents,
    unpackSign_packComponents, Sign.ofBitVec_toBitVec, if_neg hones, if_true, dif_neg hzero, hmant]
  rfl

/-- **A canonical double whose exponent is not too large is packed without a loss.** -/
theorem unpack_pack {s : Sign} {m : ℕ} {e : ℤ} {hm : 0 < m} (h : Canonical m e) (he : e ≤ 971) :
    (Float.Model.pack (.finite s m e hm)).unpack = .finite s m e hm := by
  have hlow := h.le_exponent
  have hlt := h.mantissa_lt
  -- the largest exponent field would mean infinity
  have hfield : ¬2 ^ 11 ≤ (e + (1023 : ℕ) + (52 : ℕ)).toNat + 1 := by omega
  change UnpackedFloat.unpack Format.binary64 (UnpackedFloat.pack Format.binary64 _) = _
  change UnpackedFloat.unpack Format.binary64
    (if 2 ^ 11 ≤ (e + (1023 : ℕ) + (52 : ℕ)).toNat + 1 then packedInfinity Format.binary64 s
    else if m.log2 + 1 = 53 then packComponents Format.binary64 s
      (BitVec.ofNat 11 (e + (1023 : ℕ) + (52 : ℕ)).toNat) (BitVec.ofNat 52 m)
    else packComponents Format.binary64 s 0#11 (BitVec.ofNat 52 m)) = _
  rw [if_neg hfield]
  have hlog : m.log2 < 53 := (Nat.log2_lt hm.ne').mpr hlt
  by_cases hnormal : 2 ^ 52 ≤ m
  · have hge : 52 ≤ m.log2 := (Nat.le_log2 hm.ne').mpr hnormal
    rw [if_pos (by omega), unpack_normal s (by omega) (by omega) hnormal hlt]
    congr 1
    omega
  · have hlt' : m.log2 < 52 := (Nat.log2_lt hm.ne').mpr (by omega)
    rw [if_neg (by omega), unpack_subnormal s hm (by omega), h.full.resolve_right hnormal]

/-- Every double is unpacked to a canonical one whose exponent is not too large. -/
lemma canonical_of_unpack {x : Float.Model} {s : Sign} {m : ℕ} {e : ℤ} {hm : 0 < m}
    (h : x.unpack = .finite s m e hm) : Canonical m e ∧ e ≤ 971 := by
  have hbias : Format.binary64.exponentBias = 1023 := rfl
  have hfield : (@unpackExponent Format.binary64 x.toBits.toBitVec).toNat < 2 ^ 11 :=
    BitVec.isLt _
  have hmant : (@unpackMantissa Format.binary64 x.toBits.toBitVec).toNat < 2 ^ 52 :=
    BitVec.isLt _
  rw [Float.Model.unpack, UnpackedFloat.unpack] at h
  simp only [hbias] at h
  split at h
  case isTrue => split at h <;> cases h
  case isFalse hones =>
    split at h
    case isTrue hzero =>
      split at h
      case isTrue => cases h
      case isFalse =>
        -- a subnormal number has the least exponent
        cases h
        rw [hzero]
        exact ⟨⟨by omega, by decide, Or.inl (by decide)⟩, by decide⟩
    case isFalse hzero =>
      cases h
      have hpos : (@unpackExponent Format.binary64 x.toBits.toBitVec).toNat ≠ 0 :=
        fun h => hzero (BitVec.eq_of_toNat_eq h)
      have hlast : (@unpackExponent Format.binary64 x.toBits.toBitVec).toNat ≠ 2047 :=
        fun h => hones (BitVec.eq_of_toNat_eq h)
      have hone := toNat_one_append (@unpackMantissa Format.binary64 x.toBits.toBitVec)
      exact ⟨⟨by omega, by omega, Or.inr (by omega)⟩, by omega⟩

end RuneSolver.Double

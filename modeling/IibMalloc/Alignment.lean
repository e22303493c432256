/-
# iibmalloc_common.h: the two ways to round up

`alignUpMask` clears the low bits and adds a unit of the alignment where they
were not all clear. `alignUpExp` has no branch: it negates, shifts the signed
value down and up again and negates. On 64-bit values both add the padding,
across the sign bit and with the wrap-around at `2 ^ 64` (`alignUpExp_eq`,
`alignUpMask_eq`).
-/
import IibMalloc.Common
import IibMalloc.Lib.Padding
import Mathlib.Data.BitVec

namespace IibMalloc

open Lib

variable {sz : BitVec 64} {e : ℕ}

/-- The low bits of a value are its remainder. -/
theorem and_expToMask (sz : BitVec 64) (he : e < 64) :
    sz &&& BitVec.ofNat 64 (expToMask e) = BitVec.ofNat 64 (sz.toNat % 2 ^ e) := by
  have hpow : 2 ^ e < 2 ^ 64 := Nat.pow_lt_pow_right (by norm_num) he
  apply BitVec.eq_of_toNat_eq
  rw [BitVec.toNat_and, BitVec.toNat_ofNat, BitVec.toNat_ofNat, expToMask, Nat.one_shiftLeft,
    Nat.mod_eq_of_lt (by omega), Nat.and_two_pow_sub_one_eq_mod]
  exact (Nat.mod_eq_of_lt (lt_trans (Nat.mod_lt _ (Nat.two_pow_pos e)) hpow)).symm

theorem alignDownExp_toNat (sz : BitVec 64) (e : ℕ) :
    (alignDownExp sz e).toNat = sz.toNat - sz.toNat % 2 ^ e := by
  have hdm := Nat.div_add_mod' sz.toNat (2 ^ e)
  rw [alignDownExp, BitVec.toNat_shiftLeft, BitVec.toNat_ushiftRight, Nat.shiftLeft_eq, Nat.shiftRight_eq_div_pow]
  rw [Nat.mod_eq_of_lt (by omega)]
  omega

theorem isAlignedExp_iff : isAlignedExp sz e = true ↔ 2 ^ e ∣ sz.toNat := by
  have hle := Nat.mod_le sz.toNat (2 ^ e)
  rw [isAlignedExp, beq_iff_eq, ← BitVec.toNat_inj, alignDownExp_toNat, Nat.dvd_iff_mod_eq_zero]
  omega

/-- The two predicates say the same. -/
theorem isAlignedMask_expToMask (sz : BitVec 64) (he : e < 64) :
    isAlignedMask sz (BitVec.ofNat 64 (expToMask e)) = isAlignedExp sz e := by
  have hpow : 2 ^ e < 2 ^ 64 := Nat.pow_lt_pow_right (by norm_num) he
  rw [Bool.eq_iff_iff, isAlignedExp_iff, isAlignedMask, and_expToMask sz he, beq_iff_eq, ← BitVec.toNat_inj,
    BitVec.toNat_ofNat, Nat.dvd_iff_mod_eq_zero, Nat.mod_eq_of_lt (by omega)]
  rfl

/-- Masking and adding a unit adds the padding. -/
theorem alignUpMask_eq (sz : BitVec 64) (he : e < 64) :
    alignUpMask sz (BitVec.ofNat 64 (expToMask e)) = sz + BitVec.ofNat 64 (padding sz.toNat (2 ^ e)) := by
  have hpos := Nat.two_pow_pos e
  have hr := Nat.mod_lt sz.toNat hpos
  have hzero : sz &&& BitVec.ofNat 64 (expToMask e) = 0 ↔ 2 ^ e ∣ sz.toNat := by
    rw [← isAlignedExp_iff, ← isAlignedMask_expToMask sz he, isAlignedMask, beq_iff_eq]
  unfold alignUpMask
  by_cases hd : 2 ^ e ∣ sz.toNat
  · rw [if_pos (hzero.mpr hd), padding_of_dvd hd]
    exact (BitVec.add_zero sz).symm
  · rw [if_neg (mt hzero.mp hd), and_expToMask sz he, padding_of_not_dvd hd hpos]
    -- the mask and 1 are a unit of the alignment
    have hunit : BitVec.ofNat 64 (expToMask e) + 1 = BitVec.ofNat 64 (2 ^ e) := by
      rw [show (1 : BitVec 64) = BitVec.ofNat 64 1 from rfl, ← BitVec.ofNat_add, expToMask, Nat.one_shiftLeft,
        Nat.sub_add_cancel hpos]
    have hsplit : BitVec.ofNat 64 (2 ^ e) =
        BitVec.ofNat 64 (sz.toNat % 2 ^ e) + BitVec.ofNat 64 (2 ^ e - sz.toNat % 2 ^ e) := by
      rw [← BitVec.ofNat_add, Nat.add_sub_cancel' hr.le]
    calc sz - BitVec.ofNat 64 (sz.toNat % 2 ^ e) + BitVec.ofNat 64 (expToMask e) + 1
        = sz - BitVec.ofNat 64 (sz.toNat % 2 ^ e) + BitVec.ofNat 64 (2 ^ e) := by rw [add_assoc, hunit]
      _ = sz + BitVec.ofNat 64 (2 ^ e - sz.toNat % 2 ^ e) := by rw [hsplit]; ring

/-- So does rounding the negative down. -/
theorem alignUpExp_eq (sz : BitVec 64) (he : e < 64) :
    alignUpExp sz e = sz + BitVec.ofNat 64 (padding sz.toNat (2 ^ e)) := by
  have hdvd : 2 ^ e ∣ 2 ^ 64 := Nat.pow_dvd_pow 2 he.le
  -- the remainder of the signed value is the one of the unsigned value
  have hnat : (-sz).toNat % 2 ^ e = padding sz.toNat (2 ^ e) := by
    rw [BitVec.toNat_neg, Nat.mod_mod_of_dvd _ hdvd]
    exact sub_mod (Nat.two_pow_pos e) hdvd sz.isLt.le
  have hmod : (-sz).toInt % 2 ^ e = (padding sz.toNat (2 ^ e) : ℕ) := by
    have hcast : ((-sz).toNat : ℤ) % 2 ^ e = (padding sz.toNat (2 ^ e) : ℕ) := by
      rw [← hnat]
      norm_cast
    rw [BitVec.toInt_eq_toNat_cond]
    split_ifs
    · exact hcast
    · obtain ⟨k, hk⟩ := hdvd
      rw [hk, Nat.cast_mul, Nat.cast_pow, Nat.cast_ofNat, Int.sub_mul_emod_self_left]
      exact hcast
  have hshift : (-sz).sshiftRight e = BitVec.ofInt 64 ((-sz).toInt / 2 ^ e) := by
    rw [← BitVec.ofInt_toInt (x := (-sz).sshiftRight e), BitVec.toInt_sshiftRight, Int.shiftRight_eq_div_pow]
    norm_cast
  have hunit : BitVec.twoPow 64 e = BitVec.ofInt 64 (2 ^ e) := by
    rw [show (2 ^ e : ℤ) = ((2 ^ e : ℕ) : ℤ) by norm_cast, BitVec.ofInt_natCast]
    exact BitVec.eq_of_toNat_eq (by rw [BitVec.toNat_twoPow, BitVec.toNat_ofNat])
  calc alignUpExp sz e = -(BitVec.ofInt 64 ((-sz).toInt / 2 ^ e)) * BitVec.ofInt 64 (2 ^ e) := by
        rw [alignUpExp, ceilShift, BitVec.shiftLeft_eq_mul_twoPow, hshift, hunit]
    _ = -BitVec.ofInt 64 ((-sz).toInt / 2 ^ e * 2 ^ e) := by rw [BitVec.neg_mul, BitVec.ofInt_mul]
    _ = -BitVec.ofInt 64 ((-sz).toInt + -((-sz).toInt % 2 ^ e)) := by
        rw [Int.emod_def, ← sub_eq_add_neg, sub_sub_cancel, mul_comm]
    _ = sz + BitVec.ofNat 64 (padding sz.toNat (2 ^ e)) := by
        rw [BitVec.ofInt_add, BitVec.ofInt_neg, BitVec.ofInt_toInt, hmod, BitVec.ofInt_natCast]
        ring

theorem alignUpExp_toNat (sz : BitVec 64) (he : e < 64) :
    (alignUpExp sz e).toNat = (sz.toNat + padding sz.toNat (2 ^ e)) % 2 ^ 64 := by
  rw [alignUpExp_eq sz he, BitVec.toNat_add, BitVec.toNat_ofNat, Nat.add_mod_mod]

theorem alignUpExp_aligned (sz : BitVec 64) (he : e < 64) : isAlignedExp (alignUpExp sz e) e = true := by
  rw [isAlignedExp_iff, alignUpExp_toNat sz he, Nat.dvd_mod_iff (Nat.pow_dvd_pow 2 he.le)]
  exact dvd_add_padding (Nat.two_pow_pos e)

/-- Exactly the aligned values stay. -/
theorem alignUpExp_eq_self (he : e < 64) : alignUpExp sz e = sz ↔ isAlignedExp sz e = true := by
  refine ⟨fun h => h ▸ alignUpExp_aligned sz he, fun h => ?_⟩
  rw [alignUpExp_eq sz he, padding_of_dvd (isAlignedExp_iff.mp h)]
  exact BitVec.add_zero sz

/-- From a value that is not aligned the two roundings are a unit apart. -/
theorem alignUpExp_ne_alignDownExp (he : e < 64) (h : ¬ isAlignedExp sz e = true) :
    alignUpExp sz e ≠ alignDownExp sz e := by
  have hpow : 2 ^ e < 2 ^ 64 := Nat.pow_lt_pow_right (by norm_num) he
  have hpos := Nat.two_pow_pos e
  intro heq
  have hnat := congrArg BitVec.toNat heq
  rw [alignUpExp_toNat sz he, alignDownExp_toNat, padding_of_not_dvd (mt isAlignedExp_iff.mpr h) hpos] at hnat
  -- one unit is not a multiple of `2 ^ 64`
  rcases Nat.lt_or_ge (sz.toNat + (2 ^ e - sz.toNat % 2 ^ e)) (2 ^ 64) with hs | hs
  · rw [Nat.mod_eq_of_lt hs] at hnat
    omega
  · rw [Nat.mod_eq_sub_mod hs, Nat.mod_eq_of_lt (by omega)] at hnat
    omega

/-- **The helpers agree** on every 64-bit value: rounding up is one function,
which adds the padding modulo `2 ^ 64`; its results are aligned and stay as they
are; rounding down stays within a unit, and the two meet in the aligned values
only. -/
theorem alignment_agree (sz : BitVec 64) (he : e < 64) :
    alignUpExp sz e = alignUpMask sz (BitVec.ofNat 64 (expToMask e)) ∧
      isAlignedExp (alignUpExp sz e) e = true ∧
      (alignUpExp sz e).toNat = (sz.toNat + (2 ^ e - sz.toNat % 2 ^ e) % 2 ^ e) % 2 ^ 64 ∧
      alignUpExp (alignUpExp sz e) e = alignUpExp sz e ∧
      ((alignDownExp sz e).toNat ≤ sz.toNat ∧ sz.toNat < (alignDownExp sz e).toNat + 2 ^ e) ∧
      (alignUpExp sz e = alignDownExp sz e ↔ isAlignedExp sz e = true) := by
  refine ⟨?_, alignUpExp_aligned sz he, alignUpExp_toNat sz he, ?_, ?_, ?_⟩
  · rw [alignUpExp_eq sz he, alignUpMask_eq sz he]
  · exact (alignUpExp_eq_self he).mpr (alignUpExp_aligned sz he)
  · have := Nat.mod_lt sz.toNat (Nat.two_pow_pos e)
    rw [alignDownExp_toNat]
    omega
  · refine ⟨fun h => ?_, fun h => ?_⟩
    · by_contra hn
      exact alignUpExp_ne_alignDownExp he hn h
    · rw [(alignUpExp_eq_self he).mpr h]
      exact (beq_iff_eq.mp h).symm

/-- The last page, rounded up, wraps around to 0. -/
theorem alignment_agree_wraps : alignUpExp (BitVec.ofNat 64 (2 ^ 64 - 1)) 12 = 0 ∧
    alignUpExp (BitVec.ofNat 64 (2 ^ 64 - 1)) 12 = alignUpMask (BitVec.ofNat 64 (2 ^ 64 - 1)) (BitVec.ofNat 64 (expToMask 12)) :=
  ⟨by decide, (alignment_agree _ (by decide)).1⟩

end IibMalloc

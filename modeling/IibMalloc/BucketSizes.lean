/-
# SerializableAllocatorBase: the bucket sizes

A request is rounded up to the size of a bucket. The index of the bucket is
read off the leading bit of `sz - 1` and the one or two bits after it, and the
size off the index, with one step or three between powers of two
(`…HalfExp`, `…QuarterExp`); the allocator is built with the first. Both are
`Lib.floatClass` and `Lib.classEnd` with the first classes left out and the
ends rounded up to 8, and that is how they are compared (`sizeClasses`).
-/
import IibMalloc.Alignment
import IibMalloc.Lib.SizeClass

namespace IibMalloc

open Lib

/-- An 8-bit result. -/
def u8 (x : ℕ) : ℕ := x % 2 ^ 8

/-- `__builtin_clzll`, of a value that is not 0. -/
def clzll (x : ℕ) : ℕ := 63 - Nat.log2 x

namespace SerializableAllocatorBase

/-! ### The schemas -/

def indexToBucketSizeHalfExp (ix : ℕ) : ℕ :=
  let ret := (1 <<< ((ix >>> 1) + 3)) +
    (u64 (((ix + 1) &&& 1) + (2 ^ 64 - 1)) &&& (1 <<< ((ix >>> 1) + 2)))
  (alignUpExp (BitVec.ofNat 64 ret) 3).toNat

def indexToBucketSizeQuarterExp (ix : ℕ) : ℕ :=
  let ix := u8 (ix + 3)
  let ret := (4 <<< (ix >>> 2)) + ((ix &&& 3) + 1) * (1 <<< (ix >>> 2))
  (alignUpExp (BitVec.ofNat 64 ret) 3).toNat

/-- The index of a request, from the leading bit of `sz - 1` and the `bits`
bits after it. -/
def sizeToIndexExp (bits sz : ℕ) : ℕ :=
  if sz ≤ 8 then 0
  else
    let sz := sz - 1
    let ix := 63 - clzll sz
    let addition := (2 ^ bits - 1) &&& (sz >>> (ix - bits))
    u8 (((ix - 2) <<< bits) + addition - (2 ^ bits - 1))

def sizeToIndexHalfExp (sz : ℕ) : ℕ := sizeToIndexExp 1 sz

def sizeToIndexQuarterExp (sz : ℕ) : ℕ := sizeToIndexExp 2 sz

/-! ### The schemas as classes -/

variable {s sz sz' ix i j v : ℕ}

/-- The number of the class before that of 8: its index is 0. -/
def firstClass (s : ℕ) : ℕ := 3 * 2 ^ s - 1

/-- The value whose class is that of a request. -/
def classValue (sz : ℕ) : ℕ := max (sz - 1) 7

/-- The end of the class with index `ix`, rounded up to 8. -/
def roundedEnd (s ix : ℕ) : ℕ := (classEnd s (ix + firstClass s) + 7) / 8 * 8

/-- A size is rounded up to 8 without wrapping around. -/
theorem roundUp8_toNat (hv : v ≤ 2 ^ 62) : (alignUpExp (BitVec.ofNat 64 v) 3).toNat = (v + 7) / 8 * 8 := by
  have hmod : (BitVec.ofNat 64 v).toNat = v := by
    rw [BitVec.toNat_ofNat]
    omega
  have hup : v + padding v 8 = (v + 7) / 8 * 8 := by
    unfold padding
    omega
  rw [alignUpExp_toNat _ (by norm_num), hmod, show (2 : ℕ) ^ 3 = 8 by norm_num, hup]
  omega

theorem firstClass_div (hs : s = 1 ∨ s = 2) : s ≤ (ix + firstClass s) / 2 ^ s := by
  rcases hs with rfl | rfl <;> simp only [firstClass] <;> omega

theorem classValue_ge (hs : s = 1 ∨ s = 2) : 2 ^ s ≤ classValue sz := by
  unfold classValue
  rcases hs with rfl | rfl <;> omega

/-- The leading bit of a request up to 2 ^ 62. -/
theorem log2_classValue (hsz : sz ≤ 2 ^ 62) : 2 ≤ Nat.log2 (classValue sz) ∧ Nat.log2 (classValue sz) ≤ 61 := by
  have h7 : 7 ≤ classValue sz := le_max_right _ _
  have hlt : classValue sz < 2 ^ 62 := max_lt (by omega) (by norm_num)
  obtain ⟨h1, h2⟩ := two_pow_log2_le (x := classValue sz) (by omega)
  constructor
  · have := (Nat.pow_lt_pow_iff_right (a := 2) (n := 2) (m := Nat.log2 (classValue sz) + 1) (by omega)).mp
      (by omega)
    omega
  · have := (Nat.pow_lt_pow_iff_right (a := 2) (by omega)).mp (h1.trans_lt hlt)
    omega

/-- The class of a request is none of those left out, and its index has 8 bits. -/
theorem floatClass_bounds (hs : s = 1 ∨ s = 2) (hsz : sz ≤ 2 ^ 62) :
    firstClass s ≤ floatClass s (classValue sz) ∧
      floatClass s (classValue sz) - firstClass s ≤ 59 * 2 ^ s := by
  obtain ⟨-, h61⟩ := log2_classValue hsz
  have h7 : floatClass s 7 ≤ floatClass s (classValue sz) :=
    floatClass_mono (by rcases hs with rfl | rfl <;> norm_num) (le_max_right _ _)
  have hf : floatClass s 7 = firstClass s := by rcases hs with rfl | rfl <;> rfl
  have hge : 2 ^ s ≤ classValue sz := classValue_ge hs
  obtain ⟨-, -, hq⟩ := mantissa_bounds hge
  refine ⟨hf ▸ h7, ?_⟩
  unfold floatClass firstClass
  rcases hs with rfl | rfl <;> omega

theorem sizeToIndexExp_eq (hs : s = 1 ∨ s = 2) (hsz : sz ≤ 2 ^ 62) :
    sizeToIndexExp s sz = floatClass s (classValue sz) - firstClass s := by
  obtain ⟨hlow, hhigh⟩ := floatClass_bounds hs hsz
  unfold sizeToIndexExp
  split_ifs with h8
  · rw [show classValue sz = 7 by unfold classValue; omega]
    rcases hs with rfl | rfl <;> rfl
  · have hcv : classValue sz = sz - 1 := by unfold classValue; omega
    obtain ⟨-, h61⟩ := log2_classValue hsz
    have hge : 2 ^ s ≤ classValue sz := classValue_ge hs
    obtain ⟨-, hq1, hq2⟩ := mantissa_bounds hge
    rw [← hcv]
    simp only [clzll, u8, Nat.shiftRight_eq_div_pow, Nat.shiftLeft_eq, Nat.and_comm (2 ^ s - 1),
      Nat.and_two_pow_sub_one_eq_mod, Nat.sub_sub_self (show Nat.log2 (classValue sz) ≤ 63 by omega)]
    unfold floatClass firstClass at *
    rcases hs with rfl | rfl <;> omega

/-- The end of the last class. -/
theorem classEnd_le_max (hs : s = 1 ∨ s = 2) (hix : ix ≤ 59 * 2 ^ s) : classEnd s (ix + firstClass s) ≤ 2 ^ 62 := by
  calc classEnd s (ix + firstClass s) ≤ classEnd s (59 * 2 ^ s + firstClass s) :=
        classEnd_mono (firstClass_div hs) (by omega)
    _ = 2 ^ 62 := by rcases hs with rfl | rfl <;> rfl

theorem indexToBucketSizeHalfExp_eq (hix : ix ≤ 118) : indexToBucketSizeHalfExp ix = roundedEnd 1 ix := by
  have hret : (1 <<< ((ix >>> 1) + 3)) + (u64 (((ix + 1) &&& 1) + (2 ^ 64 - 1)) &&& (1 <<< ((ix >>> 1) + 2))) =
      classEnd 1 (ix + firstClass 1) := by
    unfold classEnd firstClass
    have hand : (ix + 1) &&& 1 = (ix + 1) % 2 := Nat.and_one_is_mod _
    rw [hand, Nat.shiftRight_eq_div_pow, Nat.pow_one, Nat.one_shiftLeft, Nat.one_shiftLeft]
    obtain ⟨m, rfl | rfl⟩ := Nat.even_or_odd' ix
    · rw [show (2 * m + 1) % 2 = 1 by omega, show 2 * m / 2 = m by omega,
        show (2 * m + (3 * 2 - 1)) % 2 = 1 by omega, show (2 * m + (3 * 2 - 1)) / 2 - 1 = m + 1 by omega]
      simp only [u64, Nat.reduceAdd, Nat.reduceSub, Nat.reducePow, Nat.reduceMod, Nat.zero_and, Nat.add_zero]
      rw [Nat.pow_add, Nat.pow_add]
      omega
    · rw [show (2 * m + 1 + 1) % 2 = 0 by omega, show (2 * m + 1) / 2 = m by omega,
        show (2 * m + 1 + (3 * 2 - 1)) % 2 = 0 by omega,
        show (2 * m + 1 + (3 * 2 - 1)) / 2 - 1 = m + 2 by omega]
      have hall : u64 (0 + (2 ^ 64 - 1)) &&& 2 ^ (m + 2) = 2 ^ (m + 2) := by
        rw [show u64 (0 + (2 ^ 64 - 1)) = 2 ^ 64 - 1 from rfl, Nat.and_comm, Nat.and_two_pow_sub_one_eq_mod]
        exact Nat.mod_eq_of_lt (Nat.pow_lt_pow_right (by omega) (by omega))
      rw [hall, Nat.pow_add, Nat.pow_add]
      omega
  unfold indexToBucketSizeHalfExp roundedEnd
  simp only [hret]
  exact roundUp8_toNat (classEnd_le_max (Or.inl rfl) hix)

theorem indexToBucketSizeQuarterExp_eq (hix : ix ≤ 236) : indexToBucketSizeQuarterExp ix = roundedEnd 2 ix := by
  have hu : u8 (ix + 3) = ix + 3 := Nat.mod_eq_of_lt (by omega)
  have hret : (4 <<< ((ix + 3) >>> 2)) + (((ix + 3) &&& 3) + 1) * (1 <<< ((ix + 3) >>> 2)) =
      classEnd 2 (ix + firstClass 2) := by
    have hand : (ix + 3) &&& 3 = (ix + 3) % 4 := Nat.and_two_pow_sub_one_eq_mod (ix + 3) 2
    unfold classEnd firstClass
    rw [hand, Nat.shiftRight_eq_div_pow, Nat.shiftLeft_eq, Nat.one_shiftLeft]
    simp only [Nat.reducePow]
    rw [show (ix + (3 * 4 - 1)) % 4 = (ix + 3) % 4 by omega,
      show (ix + (3 * 4 - 1)) / 4 - 2 = (ix + 3) / 4 by omega]
    ring
  unfold indexToBucketSizeQuarterExp roundedEnd
  simp only [hu, hret]
  exact roundUp8_toNat (classEnd_le_max (Or.inr rfl) hix)

/-! ### Sizes fit and are tight -/

/-- What the two directions of a schema have to do with each other, for
requests up to 2 ^ 62. -/
structure SizeClasses (sizeToIndex indexToBucketSize : ℕ → ℕ) : Prop where
  fits : ∀ sz ≤ 2 ^ 62, sz ≤ indexToBucketSize (sizeToIndex sz) ∧ 8 ∣ indexToBucketSize (sizeToIndex sz)
  mono : ∀ sz sz', sz ≤ sz' → sz' ≤ 2 ^ 62 → sizeToIndex sz ≤ sizeToIndex sz'
  sizes : ∀ sz ≤ 2 ^ 62, ∀ sz' ≤ 2 ^ 62, sizeToIndex sz ≤ sizeToIndex sz' →
    indexToBucketSize (sizeToIndex sz) ≤ indexToBucketSize (sizeToIndex sz')
  tight : ∀ sz ≤ 2 ^ 62, ∀ j < sizeToIndex sz,
    indexToBucketSize j < sz ∨ indexToBucketSize j = indexToBucketSize (sizeToIndex sz)

/-- A request is in class `ix` or one before it exactly when it is at most the
end of that class. -/
theorem sizeToIndexExp_le_iff (hs : s = 1 ∨ s = 2) (hsz : sz ≤ 2 ^ 62) :
    sizeToIndexExp s sz ≤ ix ↔ sz ≤ classEnd s (ix + firstClass s) := by
  rw [sizeToIndexExp_eq hs hsz, Nat.sub_le_iff_le_add, floatClass_le_iff (classValue_ge hs) (firstClass_div hs)]
  have h8 : 8 ≤ classEnd s (ix + firstClass s) :=
    calc 8 = classEnd s (0 + firstClass s) := by rcases hs with rfl | rfl <;> rfl
      _ ≤ _ := classEnd_mono (firstClass_div hs) (by omega)
  unfold classValue
  omega

/-- The classes that do not end at a multiple of 8 end below 32. -/
theorem dvd_classEnd (hs : s = 1 ∨ s = 2) :
    8 ∣ classEnd s (ix + firstClass s) ∨ ix < 9 ∧ roundedEnd s ix ≤ 32 := by
  by_cases hix : 9 ≤ ix
  · left
    have hpow : (8 : ℕ) = 2 ^ 3 := by norm_num
    rw [hpow]
    refine Dvd.dvd.mul_left (Nat.pow_dvd_pow 2 ?_) _
    rcases hs with rfl | rfl <;> simp only [firstClass] <;> omega
  · have hlow : ∀ ix < 9, (8 ∣ classEnd 1 (ix + firstClass 1) ∨ roundedEnd 1 ix ≤ 32) ∧
        (8 ∣ classEnd 2 (ix + firstClass 2) ∨ roundedEnd 2 ix ≤ 32) := by decide
    have h9 : ix < 9 := by omega
    rcases hs with rfl | rfl
    · exact (hlow ix h9).1.imp_right fun h => ⟨h9, h⟩
    · exact (hlow ix h9).2.imp_right fun h => ⟨h9, h⟩

theorem sizeClasses_of (hs : s = 1 ∨ s = 2) {indexToBucketSize : ℕ → ℕ}
    (hsize : ∀ ix ≤ 59 * 2 ^ s, indexToBucketSize ix = roundedEnd s ix)
    (hlow : ∀ sz < 33, ∀ j < 9, j < sizeToIndexExp s sz →
      roundedEnd s j < sz ∨ roundedEnd s j = roundedEnd s (sizeToIndexExp s sz)) :
    SizeClasses (sizeToIndexExp s) indexToBucketSize := by
  have hmax : ∀ sz ≤ 2 ^ 62, sizeToIndexExp s sz ≤ 59 * 2 ^ s := fun sz hsz => by
    rw [sizeToIndexExp_eq hs hsz]
    exact (floatClass_bounds hs hsz).2
  have hend : ∀ ix, classEnd s (ix + firstClass s) ≤ roundedEnd s ix := fun ix => by
    unfold roundedEnd
    omega
  refine ⟨fun sz hsz => ?_, fun sz sz' hle hsz => ?_, fun sz hsz sz' hsz' hle => ?_, fun sz hsz j hj => ?_⟩
  · rw [hsize _ (hmax sz hsz)]
    exact ⟨((sizeToIndexExp_le_iff hs hsz).mp le_rfl).trans (hend _), Nat.dvd_mul_left _ _⟩
  · rw [sizeToIndexExp_le_iff hs (hle.trans hsz)]
    exact hle.trans ((sizeToIndexExp_le_iff hs hsz).mp le_rfl)
  · rw [hsize _ (hmax sz hsz), hsize _ (hmax sz' hsz')]
    have := classEnd_mono (m := sizeToIndexExp s sz + firstClass s) (firstClass_div hs)
      (Nat.add_le_add_right hle (firstClass s))
    unfold roundedEnd
    omega
  · rw [hsize _ (hmax sz hsz), hsize j (hj.le.trans (hmax sz hsz))]
    have hlt : classEnd s (j + firstClass s) < sz := by
      by_contra hn
      have hle : sizeToIndexExp s sz ≤ j := (sizeToIndexExp_le_iff hs hsz).mpr (by omega)
      omega
    have hj8 : 8 ∣ classEnd s (j + firstClass s) ∨ j < 9 ∧ roundedEnd s j ≤ 32 := dvd_classEnd hs
    rcases hj8 with hdvd | ⟨h9, h32⟩
    · left
      unfold roundedEnd
      omega
    · by_cases h33 : sz < 33
      · exact hlow sz h33 j h9 hj
      · left
        omega

theorem halfExp_classes : SizeClasses sizeToIndexHalfExp indexToBucketSizeHalfExp :=
  sizeClasses_of (Or.inl rfl) (fun ix hix => indexToBucketSizeHalfExp_eq hix) (by decide)

/-- **Size classes fit and are tight**, with either schema. -/
theorem sizeClasses : SizeClasses sizeToIndexHalfExp indexToBucketSizeHalfExp ∧
    SizeClasses sizeToIndexQuarterExp indexToBucketSizeQuarterExp := by
  constructor
  · exact halfExp_classes
  · exact sizeClasses_of (Or.inr rfl) (fun ix hix => indexToBucketSizeQuarterExp_eq hix) (by decide)

end SerializableAllocatorBase

end IibMalloc

/-
# allocator_tester.h: the choice of a slot

`Pareto_80_20_6_Init` cuts the slots into seven ranges and
`Pareto_80_20_6_Rand` picks a range by its first random number and a slot in
it by the second. The range picked most often has the smallest share of the
slots, which is less than one below 15625 slots: there the second number is
divided by 0. From 15625 slots on no range is empty, and every choice is a
slot (`pareto_total_iff`).

The products of a count and a `double` are exact here: the shares are in
units of `10 ^ -12`, the last decimal of the source.
-/
import IibMalloc.VirtualMemory

namespace IibMalloc

namespace AllocatorTester

def UINT32_MAX : ℕ := 2 ^ 32 - 1

/-- The shares, in units of `10 ^ -12`. -/
def Pareto_80_20_6 : ℕ → ℕ
  | 0 => 262144000000
  | 1 => 393216000000
  | 2 => 245760000000
  | 3 => 81920000000
  | 4 => 15360000000
  | 5 => 1536000000
  | _ => 64000000

/-- `(uint32_t)(n * p)` -/
def share (n p : ℕ) : ℕ := n * p / 10 ^ 12 % 2 ^ 32

structure Pareto_80_20_6_Data where
  /-- six of them -/
  probabilityRanges : ℕ → ℕ
  /-- eight -/
  offsets : ℕ → ℕ

/-- `probabilityRanges[i]`, `i < 5` -/
def rangesUpTo : ℕ → ℕ
  | 0 => share UINT32_MAX (Pareto_80_20_6 0)
  | i + 1 => (rangesUpTo i + share UINT32_MAX (Pareto_80_20_6 (i + 1))) % 2 ^ 32

/-- `offsets[i]`, `i < 7` -/
def offsetsUpTo (itemCount : ℕ) : ℕ → ℕ
  | 0 => 0
  | i + 1 => (offsetsUpTo itemCount i + share itemCount (Pareto_80_20_6 (6 - i))) % 2 ^ 32

def Pareto_80_20_6_Init (itemCount : ℕ) : Pareto_80_20_6_Data where
  probabilityRanges i := if i = 5 then share UINT32_MAX (10 ^ 12 - Pareto_80_20_6 6) else rangesUpTo i
  offsets i := if i = 7 then itemCount else offsetsUpTo itemCount i

/-- The range of `rnum1`, from the `i`th on: the first of `n` that it is
below, or the last. -/
def rangeOf (data : Pareto_80_20_6_Data) (rnum1 : ℕ) : ℕ → ℕ → ℕ
  | 0, i => i
  | n + 1, i => if rnum1 < data.probabilityRanges i then i else rangeOf data rnum1 n (i + 1)

/-- The slot; none where the source divides by 0. -/
def Pareto_80_20_6_Rand (data : Pareto_80_20_6_Data) (rnum1 rnum2 : ℕ) : Option ℕ :=
  let idx := rangeOf data rnum1 6 0
  let rangeSize := (data.offsets (idx + 1) + 2 ^ 32 - data.offsets idx) % 2 ^ 32
  if rangeSize = 0 then none
  else
    let offsetInRange := rnum2 % rangeSize
    some ((data.offsets idx + offsetInRange) % 2 ^ 32)

variable {data : Pareto_80_20_6_Data} {itemCount rnum1 rnum2 i n : ℕ}

theorem rangeOf_le : rangeOf data rnum1 n i ≤ i + n := by
  induction n generalizing i with
  | zero => exact le_rfl
  | succ n ih =>
    unfold rangeOf
    split_ifs
    · omega
    · have := ih (i := i + 1)
      omega

/-- The shares of the first `i` ranges. -/
def sharesUpTo : ℕ → ℕ
  | 0 => 0
  | i + 1 => sharesUpTo i + Pareto_80_20_6 (6 - i)

theorem sharesUpTo_le (hi : i ≤ 6) : sharesUpTo i + Pareto_80_20_6 0 ≤ 10 ^ 12 := by
  interval_cases i <;> decide

theorem Pareto_ge (i : ℕ) : 64000000 ≤ Pareto_80_20_6 i := by
  unfold Pareto_80_20_6
  split <;> norm_num

/-- The slots of the range `i`, but the last. -/
def rangeSlots (itemCount i : ℕ) : ℕ := itemCount * Pareto_80_20_6 (6 - i) / 10 ^ 12

/-- Where the first ranges have no more slots than their share, no sum
overflows. -/
theorem offsetsUpTo_succ (h : itemCount ≤ UINT32_MAX) (hi : i < 6)
    (hle : 10 ^ 12 * offsetsUpTo itemCount i ≤ itemCount * sharesUpTo i) :
    offsetsUpTo itemCount (i + 1) = offsetsUpTo itemCount i + rangeSlots itemCount i ∧
      10 ^ 12 * offsetsUpTo itemCount (i + 1) ≤ itemCount * sharesUpTo (i + 1) := by
  have hdiv : 10 ^ 12 * rangeSlots itemCount i ≤ itemCount * Pareto_80_20_6 (6 - i) := Nat.mul_div_le _ _
  have hsum : 10 ^ 12 * (offsetsUpTo itemCount i + rangeSlots itemCount i) ≤ itemCount * sharesUpTo (i + 1) := by
    rw [Nat.mul_add, sharesUpTo, Nat.mul_add]
    omega
  have hall : itemCount * sharesUpTo (i + 1) ≤ itemCount * 10 ^ 12 :=
    Nat.mul_le_mul_left itemCount ((Nat.le_add_right _ _).trans (sharesUpTo_le hi))
  have hlt : offsetsUpTo itemCount i + rangeSlots itemCount i < 2 ^ 32 := by
    unfold UINT32_MAX at h
    omega
  have heq : offsetsUpTo itemCount (i + 1) = offsetsUpTo itemCount i + rangeSlots itemCount i := by
    rw [offsetsUpTo, share, ← rangeSlots, Nat.mod_eq_of_lt (by omega : rangeSlots itemCount i < 2 ^ 32), Nat.mod_eq_of_lt hlt]
  exact ⟨heq, by rwa [heq]⟩

theorem offsetsUpTo_le (h : itemCount ≤ UINT32_MAX) (hi : i ≤ 6) :
    10 ^ 12 * offsetsUpTo itemCount i ≤ itemCount * sharesUpTo i := by
  induction i with
  | zero => exact le_rfl
  | succ i ih => exact (offsetsUpTo_succ h hi (ih (by omega))).2

/-- The first six ranges leave slots to the last. -/
theorem offsetsUpTo_lt (h : itemCount ≤ UINT32_MAX) (hpos : 0 < itemCount) (hi : i ≤ 6) :
    offsetsUpTo itemCount i < itemCount := by
  have hle := offsetsUpTo_le h hi
  have hshare : itemCount * (sharesUpTo i + Pareto_80_20_6 0) ≤ itemCount * 10 ^ 12 :=
    Nat.mul_le_mul_left itemCount (sharesUpTo_le hi)
  rw [Nat.mul_add] at hshare
  have hlast : itemCount * 1 ≤ itemCount * Pareto_80_20_6 0 := Nat.mul_le_mul_left itemCount (by decide)
  omega

/-- From 15625 slots on no range is empty; and none ends after the slots. -/
theorem offsets_lt (h : itemCount ≤ UINT32_MAX) (hmin : 15625 ≤ itemCount) (hi : i ≤ 6) :
    (Pareto_80_20_6_Init itemCount).offsets i < (Pareto_80_20_6_Init itemCount).offsets (i + 1) ∧
      (Pareto_80_20_6_Init itemCount).offsets (i + 1) ≤ itemCount := by
  simp only [Pareto_80_20_6_Init, if_neg (show i ≠ 7 by omega)]
  rcases Nat.eq_or_lt_of_le hi with rfl | hlt
  · exact ⟨offsetsUpTo_lt h (by omega) le_rfl, le_rfl⟩
  · have hslots : 1 ≤ rangeSlots itemCount i := by
      apply (Nat.one_le_div_iff (by norm_num)).mpr
      calc 10 ^ 12 = 15625 * 64000000 := by norm_num
        _ ≤ itemCount * Pareto_80_20_6 (6 - i) := Nat.mul_le_mul hmin (Pareto_ge _)
    have hnext := (offsetsUpTo_succ h hlt (offsetsUpTo_le h hi)).1
    rw [if_neg (by omega), hnext]
    refine ⟨by omega, ?_⟩
    rw [← hnext]
    exact (offsetsUpTo_lt h (by omega) hlt).le

/-- Below 15625 slots the first range has none. -/
theorem offsets_one (h : itemCount < 15625) : (Pareto_80_20_6_Init itemCount).offsets 1 = 0 := by
  have hlast : Pareto_80_20_6 6 = 64000000 := rfl
  have hzero : share itemCount (Pareto_80_20_6 6) = 0 := by
    rw [share, hlast, Nat.div_eq_of_lt (by omega), Nat.zero_mod]
  simp only [Pareto_80_20_6_Init, if_neg (show (1 : ℕ) ≠ 7 by decide), offsetsUpTo, Nat.sub_zero, hzero,
    Nat.zero_add, Nat.zero_mod]

/-- Two random numbers that are 0 choose the first slot of the first range. -/
theorem rand_zero (itemCount : ℕ) : Pareto_80_20_6_Rand (Pareto_80_20_6_Init itemCount) 0 0 =
    if (Pareto_80_20_6_Init itemCount).offsets 1 % 2 ^ 32 = 0 then none else some 0 := by
  have hrange : rangeOf (Pareto_80_20_6_Init itemCount) 0 6 0 = 0 := by
    have hpos : 0 < (Pareto_80_20_6_Init itemCount).probabilityRanges 0 := by
      show 0 < rangesUpTo 0
      decide
    unfold rangeOf
    rw [if_pos hpos]
  have hfirst : (Pareto_80_20_6_Init itemCount).offsets 0 = 0 := rfl
  unfold Pareto_80_20_6_Rand
  simp only [hrange, hfirst, Nat.zero_add, Nat.sub_zero, Nat.add_mod_right, Nat.zero_mod]

/-- Every pair of numbers chooses a slot, if and only if there are at least
15625. -/
theorem pareto_total_iff (hpos : 1 ≤ itemCount) (hmax : itemCount ≤ UINT32_MAX) :
    (∀ rnum1 rnum2 : UInt32, ∃ idx, Pareto_80_20_6_Rand (Pareto_80_20_6_Init itemCount) rnum1.toNat rnum2.toNat =
      some idx ∧ idx < itemCount) ↔ 15625 ≤ itemCount := by
  constructor
  · intro h
    by_contra hlt
    obtain ⟨idx, hidx, -⟩ := h 0 0
    have hnone : Pareto_80_20_6_Rand (Pareto_80_20_6_Init itemCount) 0 0 = none := by
      rw [rand_zero, offsets_one (by omega), Nat.zero_mod, if_pos rfl]
    cases hnone.symm.trans hidx
  · intro hmin rnum1 rnum2
    have hle : rangeOf (Pareto_80_20_6_Init itemCount) rnum1.toNat 6 0 ≤ 6 := rangeOf_le
    unfold Pareto_80_20_6_Rand
    dsimp only
    generalize rangeOf (Pareto_80_20_6_Init itemCount) rnum1.toNat 6 0 = i at hle
    obtain ⟨hlo, hhi⟩ := offsets_lt hmax hmin hle
    generalize (Pareto_80_20_6_Init itemCount).offsets i = lo at hlo
    generalize (Pareto_80_20_6_Init itemCount).offsets (i + 1) = hi at hlo hhi
    unfold UINT32_MAX at hmax
    have hsize : (hi + 2 ^ 32 - lo) % 2 ^ 32 = hi - lo := by omega
    rw [hsize, if_neg (by omega)]
    have hoff := Nat.mod_lt rnum2.toNat (show 0 < hi - lo by omega)
    generalize rnum2.toNat % (hi - lo) = off at hoff
    rw [Nat.mod_eq_of_lt (by omega)]
    exact ⟨lo + off, rfl, by omega⟩

theorem pareto_total_full : (∀ rnum1 rnum2 : UInt32, ∃ idx,
    Pareto_80_20_6_Rand (Pareto_80_20_6_Init (2 ^ 25)) rnum1.toNat rnum2.toNat = some idx ∧ idx < 2 ^ 25) ↔
      15625 ≤ 2 ^ 25 :=
  pareto_total_iff (by norm_num) (by decide)

/-- With one slot, the choice divides by 0. -/
theorem pareto_one_slot : ¬ ∀ itemCount, 1 ≤ itemCount → itemCount ≤ UINT32_MAX → ∀ rnum1 rnum2 : UInt32, ∃ idx,
    Pareto_80_20_6_Rand (Pareto_80_20_6_Init itemCount) rnum1.toNat rnum2.toNat = some idx ∧ idx < itemCount := by
  intro h
  obtain ⟨idx, hidx, -⟩ := h 1 le_rfl (by decide) 0 0
  have hnone : Pareto_80_20_6_Rand (Pareto_80_20_6_Init 1) 0 0 = none := by decide
  cases hnone.symm.trans hidx

end AllocatorTester

end IibMalloc

/-
# allocator_tester.h: how the sizes are distributed

`calcSizeWithStatsAdjustment` draws a size class from the low bits of its
random number and the offset in the class from the bits above them.
`calcSize_count` counts the 64-bit numbers that give a size: in the classes
`(2 ^ j, 2 ^ (j + 1)]` up to `2 ^ (maxSizeExp - 1)` each size has four times
as many as in the next class, and in the last class, which takes what is left,
`2 ^ (68 - 2 * maxSizeExp)`.
-/
import IibMalloc.Tester
import IibMalloc.Lib.Digits

namespace IibMalloc

open Lib

namespace AllocatorTester

/-- How many 64-bit numbers give the size `s`. -/
def sizeCount (maxSizeExp s : ℕ) : ℕ :=
  ((Finset.range (2 ^ 64)).filter fun randNum => calcSizeWithStatsAdjustment randNum maxSizeExp = s).card

variable {r m k l x j s maxSizeExp fuel : ℕ}

/-- Below the lowest bit that is set, `x` has zeros. -/
theorem ctz_spec (h0 : x ≠ 0) (hx : x < 2 ^ fuel) : x % 2 ^ (ctz fuel x + 1) = 2 ^ ctz fuel x := by
  induction fuel generalizing x with
  | zero => omega
  | succ fuel ih =>
    unfold ctz
    split_ifs with h
    · rw [zero_add, pow_one, h, pow_zero]
    · have hhalf := ih (x := x / 2) (by omega) (by rw [pow_succ] at hx; omega)
      rw [pow_succ' 2 (ctz fuel (x / 2) + 1), Nat.mod_mul, hhalf, pow_succ' 2 (ctz fuel (x / 2))]
      omega

/-- A number has one lowest bit. -/
theorem lowest_unique (hk : x % 2 ^ (k + 1) = 2 ^ k) (hl : x % 2 ^ (l + 1) = 2 ^ l) : k = l := by
  wlog h : k < l generalizing k l with hsymm
  · rcases Nat.eq_or_lt_of_le (not_lt.mp h) with rfl | hlt
    · rfl
    · exact (hsymm hl hk hlt).symm
  -- `2 ^ l` has no bit below `l`
  have hdvd : 2 ^ (k + 1) ∣ 2 ^ (l + 1) := pow_dvd_pow 2 (by omega)
  have hzero : 2 ^ l % 2 ^ (k + 1) = 0 := Nat.mod_eq_zero_of_dvd (pow_dvd_pow 2 h)
  rw [← Nat.mod_mod_of_dvd x hdvd, hl, hzero] at hk
  exact absurd hk.symm (Nat.two_pow_pos k).ne'

/-- The class that the low `m` bits of `r` choose, `m` for the last one. -/
def classOf (m r : ℕ) : ℕ := ctz 64 (r % 2 ^ m + 1)

theorem classOf_spec (hm : m ≤ 28) (r : ℕ) :
    (r % 2 ^ m + 1) % 2 ^ (classOf m r + 1) = 2 ^ classOf m r ∧ classOf m r ≤ m := by
  have hlt := Nat.mod_lt r (Nat.two_pow_pos m)
  have h28 : 2 ^ m ≤ 2 ^ 28 := Nat.pow_le_pow_right (by norm_num) hm
  refine ⟨ctz_spec (Nat.succ_ne_zero _) (by omega), ?_⟩
  have hle := Nat.le_of_dvd (Nat.succ_pos _) (ctz_dvd 64 (r % 2 ^ m + 1))
  exact (Nat.pow_le_pow_iff_right (by norm_num)).mp (hle.trans hlt)

/-- `k` low bits set and the next one clear. -/
theorem classOf_eq_iff (hm : m ≤ 28) (hk : k < m) : classOf m r = k ↔ r % 2 ^ (k + 1) = 2 ^ k - 1 := by
  obtain ⟨hspec, -⟩ := classOf_spec hm r
  have hdvd : 2 ^ (k + 1) ∣ 2 ^ m := pow_dvd_pow 2 hk
  have hmod : (r % 2 ^ m + 1) % 2 ^ (k + 1) = (r + 1) % 2 ^ (k + 1) := by
    rw [Nat.add_mod, Nat.mod_mod_of_dvd r hdvd, ← Nat.add_mod]
  constructor
  · rintro rfl
    rw [hmod] at hspec
    have hr := Nat.mod_lt r (Nat.two_pow_pos (classOf m r + 1))
    have hone : 1 % 2 ^ (classOf m r + 1) = 1 := Nat.mod_eq_of_lt (by omega)
    rw [Nat.add_mod, hone] at hspec
    rcases Nat.lt_or_ge (r % 2 ^ (classOf m r + 1) + 1) (2 ^ (classOf m r + 1)) with hlt | hge
    · rw [Nat.mod_eq_of_lt hlt] at hspec
      omega
    · rw [show r % 2 ^ (classOf m r + 1) + 1 = 2 ^ (classOf m r + 1) by omega, Nat.mod_self] at hspec
      omega
  · intro hr
    apply lowest_unique hspec
    rw [hmod, Nat.add_mod, hr, Nat.mod_eq_of_lt (a := 1) (by omega), Nat.mod_eq_of_lt (by omega)]
    omega

/-- All low bits set. -/
theorem classOf_last_iff (hm : m ≤ 28) : classOf m r = m ↔ r % 2 ^ m = 2 ^ m - 1 := by
  obtain ⟨hspec, -⟩ := classOf_spec hm r
  constructor
  · intro h
    rw [h, Nat.mod_eq_of_lt (by omega)] at hspec
    omega
  · intro hr
    apply lowest_unique hspec
    rw [hr, Nat.sub_add_cancel (Nat.two_pow_pos m), Nat.mod_eq_of_lt (by omega)]

/-- A size is its class's base and the offset in the class. -/
theorem calcSize_eq (m r : ℕ) :
    calcSizeWithStatsAdjustment r (m + 3) =
      r / 2 ^ m % 2 ^ (classOf m r + 2) + 1 + 2 ^ (classOf m r + 2) := by
  unfold calcSizeWithStatsAdjustment classOf
  simp only [Nat.add_sub_cancel, Nat.one_shiftLeft, Nat.and_two_pow_sub_one_eq_mod, Nat.shiftRight_eq_div_pow]

/-- The class of a size. -/
theorem class_unique (h1 : 2 ^ j < s) (h2 : s ≤ 2 ^ (j + 1)) (h3 : 2 ^ k < s) (h4 : s ≤ 2 ^ (k + 1)) : j = k := by
  have hjk : j < k + 1 := (Nat.pow_lt_pow_iff_right (by norm_num)).mp (h1.trans_le h4)
  have hkj : k < j + 1 := (Nat.pow_lt_pow_iff_right (by norm_num)).mp (h3.trans_le h2)
  omega

/-- The numbers that give a size of the class `k`. -/
theorem calcSize_eq_iff (h1 : 2 ^ (k + 2) < s) (h2 : s ≤ 2 ^ (k + 3)) :
    calcSizeWithStatsAdjustment r (m + 3) = s ↔
      classOf m r = k ∧ r / 2 ^ m % 2 ^ (k + 2) = s - 1 - 2 ^ (k + 2) := by
  rw [calcSize_eq]
  constructor
  · intro h
    have hoff := Nat.mod_lt (r / 2 ^ m) (Nat.two_pow_pos (classOf m r + 2))
    have hk : classOf m r + 2 = k + 2 := class_unique (s := s) (by omega) (by omega) h1 h2
    have hk : classOf m r = k := Nat.add_right_cancel hk
    rw [hk] at h
    exact ⟨hk, by omega⟩
  · intro hx
    obtain ⟨rfl, hoff⟩ := hx
    rw [hoff]
    omega

/-- A size of a class that the low bits `2 ^ k - 1` of `k + 1` choose. -/
theorem sizeCount_class (hm : m ≤ 28) (hk : k < m) (h1 : 2 ^ (k + 2) < s) (h2 : s ≤ 2 ^ (k + 3)) :
    sizeCount (m + 3) s = 2 ^ (61 - 2 * k) := by
  have hpow : 2 ^ (k + 3) = 2 * 2 ^ (k + 2) := pow_succ' 2 _
  have hpos := Nat.two_pow_pos k
  unfold sizeCount
  simp only [calcSize_eq_iff h1 h2, classOf_eq_iff hm hk]
  rw [card_bits hk (by omega) (by omega) (by omega), show 64 - (k + 1) - (k + 2) = 61 - 2 * k by omega]

/-- A size of the last class. -/
theorem sizeCount_last (hm : m ≤ 28) (h1 : 2 ^ (m + 2) < s) (h2 : s ≤ 2 ^ (m + 3)) :
    sizeCount (m + 3) s = 2 ^ (62 - 2 * m) := by
  have hpow : 2 ^ (m + 3) = 2 * 2 ^ (m + 2) := pow_succ' 2 _
  have hpos := Nat.two_pow_pos m
  unfold sizeCount
  simp only [calcSize_eq_iff h1 h2, classOf_last_iff hm]
  rw [card_bits le_rfl (by omega) (by omega) (by omega), show 64 - m - (m + 2) = 62 - 2 * m by omega]

/-- A size that some number gives is of a class. -/
theorem calcSize_class (hm : m ≤ 28) (r : ℕ) : ∃ k ≤ m, 2 ^ (k + 2) < calcSizeWithStatsAdjustment r (m + 3) ∧
    calcSizeWithStatsAdjustment r (m + 3) ≤ 2 ^ (k + 3) := by
  have hpow : 2 ^ (classOf m r + 3) = 2 * 2 ^ (classOf m r + 2) := pow_succ' 2 _
  rw [calcSize_eq]
  exact ⟨classOf m r, (classOf_spec hm r).2, by omega, by omega⟩

/-- For each size, the number of 64-bit numbers that give it. -/
theorem calcSize_count (h3 : 3 ≤ maxSizeExp) (h31 : maxSizeExp ≤ 31) :
    (∀ j s, 2 ≤ j → j ≤ maxSizeExp - 2 → 2 ^ j < s → s ≤ 2 ^ (j + 1) →
      sizeCount maxSizeExp s = 2 ^ (65 - 2 * j)) ∧
    (∀ s, 2 ^ (maxSizeExp - 1) < s → s ≤ 2 ^ maxSizeExp → sizeCount maxSizeExp s = 2 ^ (68 - 2 * maxSizeExp)) ∧
    ∀ s, (¬ ∃ j, 2 ≤ j ∧ j ≤ maxSizeExp - 2 ∧ 2 ^ j < s ∧ s ≤ 2 ^ (j + 1)) →
      ¬ (2 ^ (maxSizeExp - 1) < s ∧ s ≤ 2 ^ maxSizeExp) → sizeCount maxSizeExp s = 0 := by
  obtain ⟨m, rfl⟩ : ∃ m, maxSizeExp = m + 3 := ⟨maxSizeExp - 3, by omega⟩
  have hm : m ≤ 28 := by omega
  refine ⟨fun j s hj2 hjm h1 h2 => ?_, fun s h1 h2 => ?_, fun s hmid hlast => ?_⟩
  · obtain ⟨k, rfl⟩ : ∃ k, j = k + 2 := ⟨j - 2, by omega⟩
    rw [sizeCount_class hm (by omega) h1 h2, show 65 - 2 * (k + 2) = 61 - 2 * k by omega]
  · rw [sizeCount_last hm h1 h2, show 68 - 2 * (m + 3) = 62 - 2 * m by omega]
  · -- a number that gave `s` would put it in a class
    unfold sizeCount
    rw [Finset.card_eq_zero, Finset.filter_eq_empty_iff]
    rintro r - rfl
    obtain ⟨k, hk, h1, h2⟩ := calcSize_class hm r
    rcases Nat.eq_or_lt_of_le hk with rfl | hlt
    · exact hlast ⟨h1, h2⟩
    · exact hmid ⟨k + 2, by omega, by omega, h1, h2⟩

theorem calcSize_count_16 : sizeCount 16 5 = 2 ^ 61 ∧ sizeCount 16 65536 = 2 ^ 36 ∧ sizeCount 16 4 = 0 := by
  obtain ⟨hmid, hlast, hnone⟩ := @calcSize_count 16 (by norm_num) (by norm_num)
  refine ⟨hmid 2 5 (by norm_num) (by norm_num) (by norm_num) (by norm_num), hlast 65536 (by norm_num) (by norm_num),
    hnone 4 ?_ (by norm_num)⟩
  intro hx
  obtain ⟨j, hj, -, hlt, -⟩ := hx
  have := Nat.pow_le_pow_right (n := 2) (by norm_num) hj
  omega

end AllocatorTester

end IibMalloc

/-
# Size classes with a few bits of mantissa

`floatClass s x` numbers the values from `2 ^ s` on by their leading bit and
the `s` bits after it, and `classEnd s n` is the end of class number `n`, the
least value above it. The two determine each other: `x` is in class `n` or
below exactly when it is below the end of `n` (`floatClass_le_iff`), from
which monotonicity and tightness follow.
-/
import Mathlib.Data.Nat.Log
import Mathlib.Tactic

namespace Lib

/-- The class of `x`: its leading bit, and the `s` bits after it. -/
def floatClass (s x : ℕ) : ℕ := Nat.log2 x * 2 ^ s + (x / 2 ^ (Nat.log2 x - s) - 2 ^ s)

/-- The end of class number `n`. -/
def classEnd (s n : ℕ) : ℕ := (2 ^ s + n % 2 ^ s + 1) * 2 ^ (n / 2 ^ s - s)

variable {s x y m n : ℕ}

theorem two_pow_log2_le (hx : 0 < x) : 2 ^ Nat.log2 x ≤ x ∧ x < 2 ^ (Nat.log2 x + 1) :=
  (Nat.log2_eq_iff hx.ne').mp rfl

/-- The bits of a value from its leading bit on. -/
theorem mantissa_bounds (hx : 2 ^ s ≤ x) : s ≤ Nat.log2 x ∧ 2 ^ s ≤ x / 2 ^ (Nat.log2 x - s) ∧
    x / 2 ^ (Nat.log2 x - s) < 2 * 2 ^ s := by
  obtain ⟨h1, h2⟩ := two_pow_log2_le (x := x) (by have := Nat.two_pow_pos s; omega)
  have hs : s ≤ Nat.log2 x := by
    have := (Nat.pow_lt_pow_iff_right (a := 2) (by omega)).mp (hx.trans_lt h2)
    omega
  have hpos := Nat.two_pow_pos (Nat.log2 x - s)
  refine ⟨hs, (Nat.le_div_iff_mul_le hpos).mpr ?_, (Nat.div_lt_iff_lt_mul hpos).mpr ?_⟩
  · rwa [← Nat.pow_add, Nat.add_sub_cancel' hs]
  · rwa [Nat.mul_assoc, ← Nat.pow_add, Nat.add_sub_cancel' hs, Nat.mul_comm, ← Nat.pow_succ]

/-- A value is in class `n` or one before it exactly when it is below its end. -/
theorem floatClass_le_iff (hx : 2 ^ s ≤ x) (hn : s ≤ n / 2 ^ s) : floatClass s x ≤ n ↔ x < classEnd s n := by
  obtain ⟨h1, h2⟩ := two_pow_log2_le (x := x) (by have := Nat.two_pow_pos s; omega)
  obtain ⟨hs, hq1, hq2⟩ := mantissa_bounds hx
  have hdm := Nat.div_add_mod' n (2 ^ s)
  have hr := Nat.mod_lt n (Nat.two_pow_pos s)
  unfold floatClass classEnd
  generalize hm : n / 2 ^ s = m at *
  generalize n % 2 ^ s = r at *
  generalize he : Nat.log2 x = e at *
  have hsplit : 2 ^ m = 2 ^ s * 2 ^ (m - s) := by rw [← Nat.pow_add, Nat.add_sub_cancel' hn]
  rcases Nat.lt_trichotomy e m with hlt | rfl | hgt
  · -- the leading bit is lower
    have hle : (e + 1) * 2 ^ s ≤ m * 2 ^ s := Nat.mul_le_mul_right _ hlt
    rw [Nat.add_mul] at hle
    have hpow : 2 ^ (e + 1) ≤ 2 ^ m := Nat.pow_le_pow_right (by omega) hlt
    have hmul : 2 ^ s * 2 ^ (m - s) ≤ (2 ^ s + r + 1) * 2 ^ (m - s) := Nat.mul_le_mul_right _ (by omega)
    exact ⟨fun _ => by omega, fun _ => by omega⟩
  · rw [← Nat.div_lt_iff_lt_mul (Nat.two_pow_pos (e - s))]
    generalize x / 2 ^ (e - s) = q at *
    omega
  · have hle : (m + 1) * 2 ^ s ≤ e * 2 ^ s := Nat.mul_le_mul_right _ hgt
    rw [Nat.add_mul] at hle
    have hpow : 2 ^ (m + 1) ≤ 2 ^ e := Nat.pow_le_pow_right (by omega) hgt
    rw [Nat.pow_succ, hsplit, Nat.mul_right_comm] at hpow
    have hmul : (2 ^ s + r + 1) * 2 ^ (m - s) ≤ 2 ^ s * 2 * 2 ^ (m - s) := Nat.mul_le_mul_right _ (by omega)
    exact ⟨fun _ => by omega, fun _ => by omega⟩

/-- The class of a value has its leading bit. -/
theorem floatClass_div (hx : 2 ^ s ≤ x) : floatClass s x / 2 ^ s = Nat.log2 x := by
  obtain ⟨-, h1, h2⟩ := mantissa_bounds hx
  unfold floatClass
  exact Nat.div_eq_of_lt_le (by omega) (by rw [Nat.succ_mul]; omega)

theorem lt_classEnd (hx : 2 ^ s ≤ x) : x < classEnd s (floatClass s x) :=
  (floatClass_le_iff hx (by rw [floatClass_div hx]; exact (mantissa_bounds hx).1)).mp le_rfl

theorem floatClass_mono (hx : 2 ^ s ≤ x) (hxy : x ≤ y) : floatClass s x ≤ floatClass s y := by
  have hy := hx.trans hxy
  refine (floatClass_le_iff hx ?_).mpr (hxy.trans_lt (lt_classEnd hy))
  rw [floatClass_div hy]
  exact (mantissa_bounds hy).1

/-- A later class ends later. -/
theorem classEnd_mono (hm : s ≤ m / 2 ^ s) (hmn : m ≤ n) : classEnd s m ≤ classEnd s n := by
  have hn : s ≤ n / 2 ^ s := hm.trans (Nat.div_le_div_right hmn)
  have hpos := Nat.two_pow_pos (m / 2 ^ s - s)
  have hlow : 2 ^ s + 1 ≤ classEnd s m := by
    calc 2 ^ s + 1 ≤ (2 ^ s + m % 2 ^ s + 1) * 1 := by
          rw [Nat.mul_one]
          exact Nat.add_le_add_right (Nat.le_add_right _ _) 1
      _ ≤ classEnd s m := Nat.mul_le_mul_left _ hpos
  have hx : 2 ^ s ≤ classEnd s m - 1 := by omega
  have hs := Nat.two_pow_pos s
  have h1 := (floatClass_le_iff hx hm).mpr (by omega)
  have h2 := (floatClass_le_iff hx hn).mp (h1.trans hmn)
  omega

end Lib

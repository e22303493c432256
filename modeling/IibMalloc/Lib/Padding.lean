/-
# The distance to the next multiple

`padding n a` is what `n` lacks to the next multiple of `a`, so that `n +
padding n a` is the least multiple of `a` not below `n` (`add_padding_le`), and
that from below is `n - n % a`. Where `a` divides a modulus `m`, the remainder
of `m - n` is the padding of `n` (`sub_mod`): a number is rounded up by rounding
its negative down.
-/
import Mathlib.Data.Nat.Notation
import Mathlib.Tactic

namespace Lib

/-- What `n` lacks to the next multiple of `a`. -/
def padding (n a : ℕ) : ℕ := (a - n % a) % a

variable {n a m : ℕ}

theorem padding_lt (ha : 0 < a) : padding n a < a := Nat.mod_lt _ ha

theorem padding_of_dvd (h : a ∣ n) : padding n a = 0 := by
  unfold padding
  rw [Nat.mod_eq_zero_of_dvd h, Nat.sub_zero, Nat.mod_self]

theorem padding_of_not_dvd (h : ¬ a ∣ n) (ha : 0 < a) : padding n a = a - n % a := by
  exact Nat.mod_eq_of_lt (by omega)

theorem dvd_add_padding (ha : 0 < a) : a ∣ n + padding n a := by
  by_cases hd : a ∣ n
  · rw [padding_of_dvd hd]
    exact hd
  · have hr := Nat.mod_lt n ha
    have hn := Nat.div_add_mod n a
    rw [padding_of_not_dvd hd ha]
    exact ⟨n / a + 1, by rw [Nat.mul_succ]; omega⟩

/-- The next multiple is the least that is not below. -/
theorem add_padding_le (ha : 0 < a) (hm : a ∣ m) (hn : n ≤ m) : n + padding n a ≤ m := by
  by_contra hlt
  have hp := padding_lt (n := n) ha
  have hsub : a ∣ n + padding n a - m := Nat.dvd_sub (dvd_add_padding ha) hm
  have := Nat.le_of_dvd (by omega) hsub
  omega

/-- A negative number is rounded down by the padding of the positive. -/
theorem sub_mod (ha : 0 < a) (hm : a ∣ m) (hn : n ≤ m) : (m - n) % a = padding n a := by
  have hle := add_padding_le ha hm hn
  have hd : a ∣ m - n - padding n a := by
    rw [Nat.sub_sub]
    exact Nat.dvd_sub hm (dvd_add_padding ha)
  obtain ⟨q, hq⟩ := hd
  rw [show m - n = padding n a + a * q by omega, Nat.add_mul_mod_self_left]
  exact Nat.mod_eq_of_lt (padding_lt ha)

end Lib

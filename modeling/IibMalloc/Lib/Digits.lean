/-
# Counting numbers by their digits

A number below `A * N` is a low digit `r % A` and a rest `r / A` below `N`.
How many such numbers have a property of the rest: as many as there are
rests, if the digit is given (`card_digit`), and `A` times as many if it is
free (`card_free`). `card_bits` is the case of two runs of bits.
-/
import Mathlib.Data.Finset.Card
import Mathlib.Data.Finset.Prod
import Mathlib.Data.Nat.Notation
import Mathlib.Tactic

namespace Lib

variable {A N : ℕ} (P : ℕ → Prop) [DecidablePred P]

/-- The number with the digit `x` and the rest `q`. -/
theorem digit_lt {x q : ℕ} (hx : x < A) (hq : q < N) : A * q + x < A * N := by
  calc A * q + x < A * q + A := by omega
    _ = A * (q + 1) := (Nat.mul_succ A q).symm
    _ ≤ A * N := Nat.mul_le_mul_left A hq

theorem digit_mod {x q : ℕ} (hx : x < A) : (A * q + x) % A = x := by
  rw [Nat.mul_add_mod, Nat.mod_eq_of_lt hx]

theorem digit_div {x q : ℕ} (hx : x < A) : (A * q + x) / A = q := by
  rw [Nat.mul_add_div (by omega), Nat.div_eq_of_lt hx, Nat.add_zero]

/-- The digit is given. -/
theorem card_digit {x : ℕ} (hx : x < A) :
    ((Finset.range (A * N)).filter fun r => r % A = x ∧ P (r / A)).card = ((Finset.range N).filter P).card := by
  refine Finset.card_nbij' (fun r => r / A) (fun q => A * q + x) ?_ ?_ ?_ ?_
  · intro r hr
    obtain ⟨hlt, -, hP⟩ := Finset.mem_filter.mp hr
    exact Finset.mem_filter.mpr ⟨Finset.mem_range.mpr (Nat.div_lt_of_lt_mul (Finset.mem_range.mp hlt)), hP⟩
  · intro q hq
    obtain ⟨hlt, hP⟩ := Finset.mem_filter.mp hq
    refine Finset.mem_filter.mpr ⟨Finset.mem_range.mpr (digit_lt hx (Finset.mem_range.mp hlt)), digit_mod hx, ?_⟩
    rwa [digit_div hx]
  · intro r hr
    obtain ⟨-, hmod, -⟩ := Finset.mem_filter.mp hr
    show A * (r / A) + x = r
    rw [← hmod]
    exact Nat.div_add_mod r A
  · intro q _
    exact digit_div hx

/-- The digit is free. -/
theorem card_free (hA : 0 < A) :
    ((Finset.range (A * N)).filter fun r => P (r / A)).card = A * ((Finset.range N).filter P).card := by
  have hmaps : ∀ r ∈ (Finset.range (A * N)).filter fun r => P (r / A), r % A ∈ Finset.range A :=
    fun r _ => Finset.mem_range.mpr (Nat.mod_lt r hA)
  rw [Finset.card_eq_sum_card_fiberwise hmaps]
  have hfib : ∀ x ∈ Finset.range A, (((Finset.range (A * N)).filter fun r => P (r / A)).filter fun r => r % A = x).card =
      ((Finset.range N).filter P).card := by
    intro x hx
    rw [Finset.filter_filter, ← card_digit P (Finset.mem_range.mp hx)]
    simp only [and_comm]
  rw [Finset.sum_congr rfl hfib, Finset.sum_const, Finset.card_range, smul_eq_mul]

/-- The bits `[0, a)` and `[p, p + c)` of `n` are given. -/
theorem card_bits {a p c n x y : ℕ} (hap : a ≤ p) (hn : p + c ≤ n) (hx : x < 2 ^ a) (hy : y < 2 ^ c) :
    ((Finset.range (2 ^ n)).filter fun r => r % 2 ^ a = x ∧ r / 2 ^ p % 2 ^ c = y).card = 2 ^ (n - a - c) := by
  obtain ⟨b, rfl⟩ : ∃ b, p = a + b := ⟨p - a, by omega⟩
  obtain ⟨d, rfl⟩ : ∃ d, n = a + b + c + d := ⟨n - (a + b + c), by omega⟩
  calc ((Finset.range (2 ^ (a + b + c + d))).filter fun r => r % 2 ^ a = x ∧ r / 2 ^ (a + b) % 2 ^ c = y).card
      = ((Finset.range (2 ^ a * 2 ^ (b + c + d))).filter fun r =>
          r % 2 ^ a = x ∧ (r / 2 ^ a) / 2 ^ b % 2 ^ c = y).card := by
        simp only [Nat.div_div_eq_div_mul, ← pow_add, Nat.add_assoc]
    _ = ((Finset.range (2 ^ (b + c + d))).filter fun q => q / 2 ^ b % 2 ^ c = y).card :=
        card_digit (fun q => q / 2 ^ b % 2 ^ c = y) hx
    _ = ((Finset.range (2 ^ b * 2 ^ (c + d))).filter fun q => q / 2 ^ b % 2 ^ c = y).card := by
        rw [← pow_add, Nat.add_assoc]
    _ = 2 ^ b * ((Finset.range (2 ^ (c + d))).filter fun q => q % 2 ^ c = y).card :=
        card_free (fun q => q % 2 ^ c = y) (Nat.two_pow_pos b)
    _ = 2 ^ b * ((Finset.range (2 ^ c * 2 ^ d)).filter fun q => q % 2 ^ c = y ∧ True).card := by
        simp only [← pow_add, and_true]
    _ = 2 ^ b * 2 ^ d := by
        rw [card_digit (fun _ => True) hy, Finset.filter_true, Finset.card_range]
    _ = 2 ^ (a + b + c + d - a - c) := by
        rw [← pow_add, show a + b + c + d - a - c = b + d by omega]

end Lib

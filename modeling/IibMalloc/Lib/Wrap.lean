/-
# A window of residues

Among the `n` numbers `s, s + 1, …, s + n - 1` each residue modulo `n` occurs
once. `place n s o` is the one with residue `o`, computed from the start of
the period `s` lies in: the residues below `s % n` are one period further up.
So `o ↦ place n s o` is a bijection from the residues onto the window, and
going from `o` to `o + 1` goes one up, except at `o + 1 = s % n`, where the
window starts anew (`place_succ`, `place_wrap`).
-/
import Mathlib.Tactic

namespace Lib

/-- The number with residue `o` in the window of length `n` from `s`. -/
def place (n s o : ℕ) : ℕ := s / n * n + o + if o < s % n then n else 0

variable {n s o o' p : ℕ}

theorem place_mod (ho : o < n) : place n s o % n = o := by
  have h : ∀ k, (s / n * n + o + k * n) % n = o := fun k => by
    rw [Nat.add_mul_mod_self_right, Nat.mul_comm, Nat.mul_add_mod, Nat.mod_eq_of_lt ho]
  unfold place
  split_ifs
  · simpa using h 1
  · simpa using h 0

theorem le_place (ho : o < n) : s ≤ place n s o := by
  have h1 := Nat.div_add_mod' s n
  have h2 := Nat.mod_lt s (by omega : n > 0)
  unfold place
  split_ifs <;> omega

theorem place_lt (ho : o < n) : place n s o < s + n := by
  have h1 := Nat.div_add_mod' s n
  unfold place
  split_ifs <;> omega

/-- Two numbers of the window with one residue are equal. -/
theorem eq_of_window (hp : s ≤ p ∧ p < s + n) {q : ℕ} (hq : s ≤ q ∧ q < s + n) (h : p % n = q % n) :
    p = q := by
  have hpq : p ≡ q [MOD n] := h
  rcases Nat.le_total p q with hle | hle
  · have := (Nat.modEq_iff_dvd' hle).mp hpq
    have := Nat.eq_zero_of_dvd_of_lt this (by omega)
    omega
  · have := (Nat.modEq_iff_dvd' hle).mp hpq.symm
    have := Nat.eq_zero_of_dvd_of_lt this (by omega)
    omega

/-- Every number of the window is the place of its residue. -/
theorem place_of_mod (hp : s ≤ p ∧ p < s + n) : place n s (p % n) = p := by
  have hn : p % n < n := Nat.mod_lt _ (by omega)
  exact eq_of_window ⟨le_place hn, place_lt hn⟩ hp (place_mod hn)

theorem place_inj (ho : o < n) (ho' : o' < n) (h : place n s o = place n s o') : o = o' := by
  rw [← place_mod (s := s) ho, h, place_mod ho']

theorem place_succ (h : o + 1 ≠ s % n) : place n s (o + 1) = place n s o + 1 := by
  unfold place
  split_ifs <;> omega

/-- At the start of the window the places fall back by almost `n`. -/
theorem place_wrap (h : o + 1 = s % n) : place n s (o + 1) + n = place n s o + 1 := by
  unfold place
  split_ifs <;> omega

end Lib

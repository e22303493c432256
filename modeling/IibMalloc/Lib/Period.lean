/-
# The period of a linear map of words

A map `f` of words is linear if it commutes with exclusive or. `combo f n a x`
is the exclusive or of the `f^[i] x`, `i < n`, whose bit of `a` is set. Linear
maps commute with it, so a number that gives `f^[m] x` at `x` takes every
state of the orbit `m` steps on (`combo_iterate`), and numbers for
`m, 2 * m, 4 * m, …` jump over any number of steps (`jump_eq`). What is to be
computed may be computed on another representation of the words (`Represents`).

A point's period is `N` if it is back after `N` steps and not after `N / p`,
for the primes `p` of `N` (`minimalPeriod_of_primes`); and an orbit with as
many points as a set that holds it is that set (`orbit_eq`).
-/
import Mathlib.Dynamics.PeriodicPts.Defs
import Mathlib.Data.Nat.Prime.Basic
import Mathlib.Data.Finset.Card
import Mathlib.Tactic

namespace Lib

open Function

/-! ### Linear maps -/

variable {α : Type} [XorOp α] [Zero α] {f : α → α}

structure XorLinear (f : α → α) : Prop where
  zero : f 0 = 0
  xor : ∀ x y, f (x ^^^ y) = f x ^^^ f y

theorem XorLinear.comp {g : α → α} (hg : XorLinear g) (hf : XorLinear f) : XorLinear (g ∘ f) :=
  ⟨by rw [comp_apply, hf.zero, hg.zero], fun x y => by rw [comp_apply, hf.xor, hg.xor]; rfl⟩

/-- The exclusive or of the `f^[i] x`, `i < n`, with bit `i` of `a` set. -/
def combo (f : α → α) : ℕ → ℕ → α → α
  | 0, _, _ => 0
  | n + 1, a, x => (if a % 2 = 1 then x else 0) ^^^ f (combo f n (a / 2) x)

theorem XorLinear.iterate_zero (hf : XorLinear f) (m : ℕ) : f^[m] 0 = 0 := iterate_fixed hf.zero m

theorem map_combo (hf : XorLinear f) (n a : ℕ) (x : α) : f (combo f n a x) = combo f n a (f x) := by
  induction n generalizing a with
  | zero => exact hf.zero
  | succ n ih =>
    unfold combo
    rw [hf.xor, ih]
    split_ifs
    · rfl
    · rw [hf.zero]

theorem combo_iterate (hf : XorLinear f) (n a m : ℕ) (x : α) : f^[m] (combo f n a x) = combo f n a (f^[m] x) := by
  induction m generalizing x with
  | zero => rfl
  | succ m ih => rw [iterate_succ_apply, iterate_succ_apply, map_combo hf, ih]

/-- Each number of the list takes `x` twice as far as the one before it. -/
def Doubling (f : α → α) (n : ℕ) (x : α) (as : List ℕ) : Prop :=
  as.IsChain fun a b => combo f n b x = combo f n a (combo f n a x)

instance [DecidableEq α] (f : α → α) (n : ℕ) (x : α) (as : List ℕ) : Decidable (Doubling f n x as) :=
  inferInstanceAs (Decidable (List.IsChain _ _))

/-- `e` steps at once: the `i`th number is for the bit `i` of `e`. -/
def jump (f : α → α) (n : ℕ) : List ℕ → ℕ → α → α
  | [], _, y => y
  | a :: as, e, y => jump f n as (e / 2) (if e % 2 = 1 then combo f n a y else y)

theorem jump_eq (hf : XorLinear f) {n : ℕ} {x : α} {as : List ℕ} {a m e k : ℕ} (h : Doubling f n x (a :: as))
    (ha : combo f n a x = f^[m] x) (he : e < 2 ^ (as.length + 1)) :
    jump f n (a :: as) e (f^[k] x) = f^[k + m * e] x := by
  induction as generalizing a m e k with
  | nil =>
    have he : e < 2 := he
    unfold jump jump
    split_ifs with h1
    · rw [← combo_iterate hf, ha, ← iterate_add_apply, show e = 1 by omega, mul_one]
    · rw [show e = 0 by omega, mul_zero, add_zero]
  | cons b as ih =>
    obtain ⟨hab, h⟩ := List.isChain_cons_cons.mp h
    have hb : combo f n b x = f^[m + m] x := by
      rw [hab, ha, ← combo_iterate hf, ha, ← iterate_add_apply]
    have hy : (if e % 2 = 1 then combo f n a (f^[k] x) else f^[k] x) = f^[k + m * (e % 2)] x := by
      split_ifs with h1
      · rw [← combo_iterate hf, ha, ← iterate_add_apply, h1, mul_one]
      · rw [show e % 2 = 0 by omega, mul_zero, add_zero]
    have hlen : e / 2 < 2 ^ (as.length + 1) := by
      rw [List.length_cons, pow_succ] at he
      omega
    unfold jump
    rw [hy, ih h hb hlen]
    congr 1
    calc k + m * (e % 2) + (m + m) * (e / 2) = k + m * (e % 2 + 2 * (e / 2)) := by ring
      _ = k + m * e := by rw [Nat.mod_add_div]

/-! ### Another representation of the words -/

/-- `g` does on the images under `e` what `f` does. -/
structure Represents {β : Type} [XorOp β] [Zero β] (e : α → β) (f : α → α) (g : β → β) : Prop where
  inj : Injective e
  zero : e 0 = 0
  xor : ∀ x y, e (x ^^^ y) = e x ^^^ e y
  step : ∀ x, e (f x) = g (e x)

namespace Represents

variable {β : Type} [XorOp β] [Zero β] {e : α → β} {g : β → β} {n : ℕ} {x : α}

theorem combo (h : Represents e f g) (a : ℕ) : e (combo f n a x) = Lib.combo g n a (e x) := by
  induction n generalizing a with
  | zero => exact h.zero
  | succ n ih =>
    unfold Lib.combo
    rw [h.xor, h.step, ih]
    split_ifs
    · rfl
    · rw [h.zero]

theorem doubling (h : Represents e f g) {as : List ℕ} (hd : Doubling g n (e x) as) : Doubling f n x as := by
  refine hd.imp fun a b hab => h.inj ?_
  rw [h.combo, h.combo, h.combo, hab]

theorem jump (h : Represents e f g) (as : List ℕ) (k : ℕ) : e (jump f n as k x) = Lib.jump g n as k (e x) := by
  induction as generalizing k x with
  | nil => rfl
  | cons a as ih =>
    unfold Lib.jump
    rw [ih]
    split_ifs
    · rw [h.combo]
    · rfl

end Represents

/-! ### Periods -/

omit [XorOp α] [Zero α] in
/-- Back after `N` steps, and after no `N / p`. -/
theorem minimalPeriod_of_primes {x : α} {N : ℕ} (h : f^[N] x = x)
    (hp : ∀ p, p.Prime → p ∣ N → f^[N / p] x ≠ x) : minimalPeriod f x = N := by
  obtain ⟨q, hq⟩ : minimalPeriod f x ∣ N := IsPeriodicPt.minimalPeriod_dvd h
  by_contra hne
  have hq1 : q ≠ 1 := fun h1 => hne (by rw [hq, h1, mul_one])
  -- a prime of the quotient is one after which `x` is back too early
  obtain ⟨p, hprime, r, rfl⟩ := Nat.exists_prime_and_dvd hq1
  have hdiv : N / p = minimalPeriod f x * r := by
    rw [hq, ← mul_assoc, mul_right_comm]
    exact Nat.mul_div_cancel _ hprime.pos
  refine hp p hprime ⟨minimalPeriod f x * r, by rw [hq]; ring⟩ ?_
  rw [hdiv]
  exact (isPeriodicPt_minimalPeriod f x).mul_const r

/-- From a point that comes back no state on the way is 0. -/
theorem iterate_ne_zero (hf : XorLinear f) {x : α} (hx : x ≠ 0) {N : ℕ} (hN : 0 < N) (h : f^[N] x = x) (i : ℕ) :
    f^[i] x ≠ 0 := by
  intro h0
  have hback : f^[N * i] x = x := IsPeriodicPt.mul_const h i
  obtain ⟨d, hd⟩ : ∃ d, N * i = d + i := ⟨N * i - i, by have := Nat.le_mul_of_pos_left i hN; omega⟩
  rw [hd, iterate_add_apply, h0, hf.iterate_zero] at hback
  exact hx hback.symm

omit [XorOp α] [Zero α] in
/-- An orbit fills a set that has no more points. -/
theorem orbit_eq [DecidableEq α] {x y : α} {S : Finset α} (hS : ∀ i, f^[i] x ∈ S) (hcard : S.card ≤ minimalPeriod f x)
    (hy : y ∈ S) : ∃ i < minimalPeriod f x, f^[i] x = y := by
  have hinj : Set.InjOn (fun i => f^[i] x) (Finset.range (minimalPeriod f x)) := by
    rw [Finset.coe_range]
    exact iterate_injOn_Iio_minimalPeriod
  have himage : (Finset.range (minimalPeriod f x)).image (fun i => f^[i] x) = S := by
    refine Finset.eq_of_subset_of_card_le ?_ ?_
    · intro z hz
      obtain ⟨i, -, rfl⟩ := Finset.mem_image.mp hz
      exact hS i
    · rw [Finset.card_image_of_injOn hinj, Finset.card_range]
      exact hcard
  rw [← himage] at hy
  obtain ⟨i, hlt, hi⟩ := Finset.mem_image.mp hy
  exact ⟨i, Finset.mem_range.mp hlt, hi⟩

end Lib

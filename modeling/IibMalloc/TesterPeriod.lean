/-
# allocator_tester.h: the period of the generator

The state update of `rng32` is linear over exclusive or. Its characteristic
polynomial is `rng32Poly`; modulo this, the numbers `rng32Powers` are the
powers `x ^ 2 ^ k`, which take the state `2 ^ k` steps on. With them
`2 ^ 64 - 1` steps, and that over each of its primes, are evaluated at the
state 1, on natural numbers: all states but 0 are one cycle (`rng32_period`).
-/
import IibMalloc.Tester
import IibMalloc.Lib.Period
import Mathlib.Data.UInt

namespace IibMalloc

open Lib

namespace AllocatorTester

/-- The generator after a draw. -/
def PRNG.next (rng : PRNG) : PRNG := rng.rng32.2

/-- The state after a draw. -/
def nextState (seedVal : UInt64) : UInt64 := (PRNG.next ⟨seedVal⟩).seedVal

theorem PRNG.next_iterate (n : ℕ) (x : UInt64) : PRNG.next^[n] ⟨x⟩ = ⟨nextState^[n] x⟩ := by
  have hsemi : Function.Semiconj PRNG.mk nextState PRNG.next := fun _ => rfl
  exact ((hsemi.iterate_right n) x).symm

theorem shiftRight_linear (c : UInt64) : XorLinear fun x : UInt64 => x ^^^ x >>> c :=
  ⟨by simp, fun x y => by rw [UInt64.shiftRight_xor]; ac_rfl⟩

theorem shiftLeft_linear (c : UInt64) : XorLinear fun x : UInt64 => x ^^^ x <<< c :=
  ⟨by simp, fun x y => by rw [UInt64.shiftLeft_xor]; ac_rfl⟩

theorem nextState_linear : XorLinear nextState :=
  (shiftRight_linear 18).comp ((shiftLeft_linear 31).comp (shiftRight_linear 11))

/-- `nextState`, on numbers below `2 ^ 64`. -/
def nextNat (x : ℕ) : ℕ :=
  let x := x ^^^ x >>> 11
  let x := x ^^^ (x <<< 31 % 2 ^ 64)
  x ^^^ x >>> 18

theorem nextState_toNat : Represents UInt64.toNat nextState nextNat where
  inj _ _ := UInt64.toNat_inj.mp
  zero := rfl
  xor := UInt64.toNat_xor
  step x := by
    have h11 : (11 : UInt64).toNat % 64 = 11 := rfl
    have h31 : (31 : UInt64).toNat % 64 = 31 := rfl
    have h18 : (18 : UInt64).toNat % 64 = 18 := rfl
    show (((x ^^^ x >>> 11) ^^^ (x ^^^ x >>> 11) <<< 31) ^^^
      ((x ^^^ x >>> 11) ^^^ (x ^^^ x >>> 11) <<< 31) >>> 18).toNat = _
    simp only [UInt64.toNat_xor, UInt64.toNat_shiftRight, UInt64.toNat_shiftLeft, h11, h31, h18, nextNat]

def rng32Poly : ℕ := 0x101503d18a830d1d5

/-- The product of polynomials of degree below 64, modulo `rng32Poly`, by
`n` bits of `b`. -/
def mulMod : ℕ → ℕ → ℕ → ℕ
  | 0, _, _ => 0
  | n + 1, a, b =>
    let r := 2 * mulMod n a (b / 2)
    (if b % 2 = 1 then a else 0) ^^^ (if r < 2 ^ 64 then r else r ^^^ rng32Poly)

/-- `a`, its square, the square of that, … -/
def squares : ℕ → ℕ → List ℕ
  | 0, _ => []
  | n + 1, a => a :: squares n (mulMod 64 a a)

def rng32Powers : List ℕ := squares 64 2

theorem squares_length (n a : ℕ) : (squares n a).length = n := by
  induction n generalizing a with
  | zero => rfl
  | succ n ih => rw [squares, List.length_cons, ih]

theorem two_pow_squares (n a : ℕ) : 2 ^ ((squares n a).length + 1) = 2 ^ (n + 1) := by rw [squares_length]

theorem rng32Powers_doubling : Doubling nextState 64 1 rng32Powers := by
  have h : Doubling nextNat 64 1 rng32Powers := by decide +kernel
  exact nextState_toNat.doubling h

/-- `e` steps from the state 1. -/
theorem jump_one {e : ℕ} (he : e < 2 ^ 64) : jump nextState 64 rng32Powers e 1 = nextState^[e] 1 := by
  have h : Doubling nextState 64 1 (2 :: squares 63 (mulMod 64 2 2)) := rng32Powers_doubling
  have h2 : combo nextState 64 2 1 = nextState^[1] 1 := by decide +kernel
  have hlen : e < 2 ^ ((squares 63 (mulMod 64 2 2)).length + 1) := he.trans_eq (two_pow_squares 63 _).symm
  have hjump := jump_eq (k := 0) nextState_linear h h2 hlen
  rwa [Nat.zero_add, Nat.one_mul] at hjump

/-- The primes of `2 ^ 64 - 1`. -/
def periodPrimes : List ℕ := [3, 5, 17, 257, 641, 65537, 6700417]

theorem periodPrimes_prod : periodPrimes.prod = 2 ^ 64 - 1 := by decide +kernel

theorem mem_periodPrimes {p : ℕ} (hp : p.Prime) (hd : p ∣ 2 ^ 64 - 1) : p ∈ periodPrimes := by
  have hprimes : ∀ q ∈ periodPrimes, q.Prime := by
    unfold periodPrimes
    simp only [List.forall_mem_cons]
    norm_num
  rw [← periodPrimes_prod] at hd
  obtain ⟨q, hq, hpq⟩ := (Prime.dvd_prod_iff hp.prime).mp hd
  rwa [(Nat.prime_dvd_prime_iff_eq hp (hprimes q hq)).mp hpq]

theorem jump_back : jump nextState 64 rng32Powers (2 ^ 64 - 1) 1 = 1 ∧
    ∀ p ∈ periodPrimes, jump nextState 64 rng32Powers ((2 ^ 64 - 1) / p) 1 ≠ 1 := by
  have h : jump nextNat 64 rng32Powers (2 ^ 64 - 1) 1 = 1 ∧
      ∀ p ∈ periodPrimes, jump nextNat 64 rng32Powers ((2 ^ 64 - 1) / p) 1 ≠ 1 := by decide +kernel
  refine ⟨nextState_toNat.inj ?_, fun p hp heq => h.2 p hp ?_⟩
  · rw [nextState_toNat.jump]
    exact h.1
  · have heq' := congrArg UInt64.toNat heq
    rwa [nextState_toNat.jump] at heq'

theorem iterate_back : nextState^[2 ^ 64 - 1] 1 = 1 := by
  rw [← jump_one (by norm_num)]
  exact jump_back.1

theorem minimalPeriod_one : Function.minimalPeriod nextState 1 = 2 ^ 64 - 1 := by
  refine minimalPeriod_of_primes iterate_back fun p hp hd => ?_
  rw [← jump_one ((Nat.div_le_self _ p).trans_lt (by norm_num))]
  exact jump_back.2 p (mem_periodPrimes hp hd)

/-- The words but 0. -/
def nonzeroWords : Finset UInt64 := (Finset.Ico 1 (2 ^ 64)).image UInt64.ofNat

theorem mem_nonzeroWords {x : UInt64} (hx : x ≠ 0) : x ∈ nonzeroWords := by
  refine Finset.mem_image.mpr ⟨x.toNat, Finset.mem_Ico.mpr ⟨?_, x.toNat_lt⟩, UInt64.ofNat_toNat⟩
  exact Nat.pos_of_ne_zero fun h0 => hx (UInt64.toNat_inj.mp h0)

/-- A state with the full period is on the way to every other. -/
theorem orbit_full {s x : UInt64} (hs : s ≠ 0) (hper : Function.minimalPeriod nextState s = 2 ^ 64 - 1) (hx : x ≠ 0) :
    ∃ i < 2 ^ 64 - 1, nextState^[i] s = x := by
  have hback : nextState^[2 ^ 64 - 1] s = s := by
    rw [← hper]
    exact Function.iterate_minimalPeriod
  rw [← hper]
  refine orbit_eq (fun i => mem_nonzeroWords ?_) ?_ (mem_nonzeroWords hx)
  · exact iterate_ne_zero nextState_linear hs (by norm_num) hback i
  · rw [hper]
    exact Finset.card_image_le.trans (by rw [Nat.card_Ico])

theorem minimalPeriod_nextState {x : UInt64} (hx : x ≠ 0) : Function.minimalPeriod nextState x = 2 ^ 64 - 1 := by
  obtain ⟨i, -, rfl⟩ := orbit_full (by decide) minimalPeriod_one hx
  have hper : (1 : UInt64) ∈ Function.periodicPts nextState := ⟨2 ^ 64 - 1, by norm_num, iterate_back⟩
  rw [Function.minimalPeriod_apply_iterate hper, minimalPeriod_one]

/-- Every state but 0 comes back after `2 ^ 64 - 1` draws, not before, and
passes every other state but 0 on its way. -/
theorem rng32_period {seed : UInt64} (h : seed ≠ 0) :
    PRNG.next^[2 ^ 64 - 1] ⟨seed⟩ = ⟨seed⟩ ∧
      (∀ n, 0 < n → n < 2 ^ 64 - 1 → PRNG.next^[n] ⟨seed⟩ ≠ ⟨seed⟩) ∧
      ∀ x : UInt64, x ≠ 0 → ∃ n < 2 ^ 64 - 1, PRNG.next^[n] ⟨seed⟩ = ⟨x⟩ := by
  have hper := minimalPeriod_nextState h
  have hback : nextState^[2 ^ 64 - 1] seed = seed := by
    rw [← hper]
    exact Function.iterate_minimalPeriod
  simp only [PRNG.next_iterate, PRNG.mk.injEq, ne_eq]
  refine ⟨hback, fun n hpos hlt hn => ?_, fun x hx => orbit_full h hper hx⟩
  have hle := Function.IsPeriodicPt.minimalPeriod_le hpos hn
  omega

theorem rng32_period_one : PRNG.next^[2 ^ 64 - 1] ⟨1⟩ = ⟨1⟩ := (rng32_period (by decide)).1

end AllocatorTester

end IibMalloc

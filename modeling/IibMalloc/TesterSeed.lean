/-
# allocator_tester.h: the seed of a run

`randomPos_RandomSize` prints the `rnd_seed` it gets and draws from a
`PRNG rng` that it never seeds. The state of the generator is 0, which is the
one state that no draw leaves (`next_ne_zero_iff`): every number of the run is
0 (`workload_degenerate`), so that the setup fills no slot (`setup_zero`) and
every round of the main loop picks the same slot, with the same size.
-/
import IibMalloc.TesterPareto
import IibMalloc.TesterPeriod
import IibMalloc.TesterRuns

namespace IibMalloc

open Lib

namespace AllocatorTester

/-- `PRNG()` -/
def PRNG.unseeded : PRNG := ⟨0⟩

/-- The generator of a run. -/
def runRng (_rnd_seed : UInt64) : PRNG := PRNG.unseeded

/-- The numbers of a run. -/
def runNumbers (rnd_seed : UInt64) (n : ℕ) : UInt32 := (PRNG.next^[n] (runRng rnd_seed)).rng32.1

/-- Draws lead from a state to 0 only if it is 0. -/
theorem next_ne_zero_iff (seed : UInt64) : (∀ n, (PRNG.next^[n] ⟨seed⟩).seedVal ≠ 0) ↔ seed ≠ 0 := by
  refine ⟨fun h => h 0, fun h n => ?_⟩
  have hback : nextState^[2 ^ 64 - 1] seed = seed := by
    rw [← minimalPeriod_nextState h]
    exact Function.iterate_minimalPeriod
  rw [PRNG.next_iterate]
  exact iterate_ne_zero nextState_linear h (by norm_num) hback n

theorem runRng_state (rnd_seed : UInt64) (n : ℕ) : (PRNG.next^[n] (runRng rnd_seed)).seedVal = 0 := by
  show (PRNG.next^[n] ⟨0⟩).seedVal = 0
  rw [PRNG.next_iterate]
  exact nextState_linear.iterate_zero n

theorem runNumbers_zero (rnd_seed : UInt64) (n : ℕ) : runNumbers rnd_seed n = 0 := by
  have hstate : PRNG.next^[n] (runRng rnd_seed) = ⟨0⟩ := congrArg PRNG.mk (runRng_state rnd_seed n)
  rw [runNumbers, hstate]
  rfl

section Setup

variable {σ : Type} {A : AllocatorUnderTest σ} {maxItemSizeExp baseBuff i n j k : ℕ} {s : Tester σ}
  {numbers : ℕ → UInt32}

/-- No bit is set, so no slot is filled. -/
theorem setupBits_zero : Act.exec (setupBits A numbers maxItemSizeExp baseBuff i 0 n j) s = .ret () s := by
  induction n generalizing j with
  | zero => rfl
  | succ n ih =>
    have hbit : ¬ ((0 >>> j) &&& 1 ≠ 0) := by simp
    have hwhen : Act.exec (Act.when ((0 >>> j) &&& 1 ≠ 0) (fillSlot A numbers maxItemSizeExp baseBuff (i * 32 + j))) s =
        .ret () s := by
      rw [Act.when, if_neg hbit]
      rfl
    unfold setupBits
    rw [Act.exec_bind hwhen]
    exact ih

/-- With numbers that are 0 the setup draws, and does nothing else. -/
theorem setup_zero (hzero : ∀ k, numbers k = 0) :
    Act.exec (setup A numbers maxItemSizeExp baseBuff n i) s = .ret () { s with drawn := s.drawn + n } := by
  induction n generalizing i s with
  | zero => rfl
  | succ n ih =>
    have hdraw : Act.exec (rng32 numbers) s = .ret 0 { s with drawn := s.drawn + 1 } := by
      rw [← hzero s.drawn]
      rfl
    have hbits : (0 : UInt32).toNat = 0 := rfl
    unfold setup
    rw [Act.exec_bind hdraw, hbits, Act.exec_bind setupBits_zero, ih]
    simp only [Nat.add_assoc, Nat.add_comm 1 n]

end Setup

/-- The number 0 gives the least size. -/
theorem calcSize_zero (maxSizeExp : ℕ) : calcSizeWithStatsAdjustment 0 maxSizeExp = 5 := by
  have hctz : ctz 64 1 = 0 := rfl
  simp [calcSizeWithStatsAdjustment, hctz]

/-- Whatever `rnd_seed` is, the generator's state is 0 after any number of
draws, the setup fills no slot, and every choice of a slot and every size is
the same. -/
theorem workload_degenerate (rnd_seed : UInt64) :
    (¬ ∀ n, (PRNG.next^[n] (runRng rnd_seed)).seedVal ≠ 0) ∧
    (∀ n, (PRNG.next^[n] (runRng rnd_seed)).seedVal = 0) ∧
    (∀ {σ : Type} (A : AllocatorUnderTest σ) (maxItemSizeExp baseBuff n i : ℕ) (s : Tester σ),
      Act.exec (setup A (runNumbers rnd_seed) maxItemSizeExp baseBuff n i) s =
        .ret () { s with drawn := s.drawn + n }) ∧
    (∀ data n, Pareto_80_20_6_Rand data (runNumbers rnd_seed n).toNat (runNumbers rnd_seed (n + 1)).toNat =
      Pareto_80_20_6_Rand data 0 0) ∧
    ∀ n maxItemSizeExp, calcSizeWithStatsAdjustment
      (u64 ((runNumbers rnd_seed n).toNat <<< 32 + (runNumbers rnd_seed (n + 1)).toNat)) maxItemSizeExp = 5 := by
  have hzero := runNumbers_zero rnd_seed
  have hbits : (0 : UInt32).toNat = 0 := rfl
  refine ⟨fun h => h 0 rfl, runRng_state rnd_seed, fun _ _ _ _ _ _ => setup_zero hzero, fun data n => ?_,
    fun n maxItemSizeExp => ?_⟩
  · rw [hzero, hzero, hbits]
  · rw [hzero, hzero, hbits, Nat.zero_shiftLeft]
    exact calcSize_zero maxItemSizeExp

theorem workload_seed_one : ¬ ∀ rnd_seed n, (PRNG.next^[n] (runRng rnd_seed)).seedVal ≠ 0 := fun h => h 1 0 rfl

end AllocatorTester

end IibMalloc

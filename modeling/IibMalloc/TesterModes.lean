/-
# allocator_tester.h: the modes of memory access, and the counters

`randomPos_RandomSize` is a template over the way it accesses the memory of an
item: not at all, at one byte, at all of them, or filled and checked. It counts
the bytes it holds as it goes, and stores what it counted in its result.
`Counted` is the run with the counters. `run_check`: in the mode `check` it does
to the rest of its state what the run of `TesterRuns` does, so what is proved of
that one holds of it (`Counted.run_spec`).
-/
import IibMalloc.TesterRuns

namespace IibMalloc

open Lib

namespace AllocatorTester

/-! ### The program with its counters -/

inductive MEM_ACCESS_TYPE where
  | none
  | single
  | full
  | check
deriving DecidableEq

/-- A run with the counters of `COLLECT_USER_MAX_ALLOCATED`; the last two are
fields of its result. -/
structure Counted (σ : Type) where
  tester : Tester σ
  allocatedSz : ℕ
  allocatedSzMax : ℕ
  allocatedAfterSetupSz : ℕ
  allocatedMax : ℕ

namespace Counted

section Program

variable {σ : Type} (A : AllocatorUnderTest σ) (numbers : ℕ → UInt32) (slots : ℕ → ℕ) (mat : MEM_ACCESS_TYPE)
  (maxItemSizeExp baseBuff : ℕ)

/-- `a - b` on 64 bits. -/
def sub64 (a b : ℕ) : ℕ := u64 (a + 2 ^ 64 - b)

/-- A step that leaves the counters. -/
def onTester {α : Type} (x : Act (Tester σ) α) : Act (Counted σ) α :=
  Act.zoom (fun s => s.tester) (fun t s => { s with tester := t }) x

/-- A new item is written to, as `mat` says. -/
def accessNew (idx sz : ℕ) : Act (Tester σ) Unit := do
  let ptr ← Act.read fun s => binPtr s.mem baseBuff idx
  match mat with
  | .none => return ()
  | .full => onMem fun m x => if Within ptr sz x then sz % 256 else m x
  | .single => onMem fun m => writeLE m 1 (ptr + sz / 2) (sz % 256)
  | .check => do
    let reincarnation ← Act.read fun s => s.reincarnation
    onMem fun m => writeLE m 4 (baseBuff + idx * binSize + 12) reincarnation
    let ptr ← Act.read fun s => binPtr s.mem baseBuff idx
    onMem (fillSegmentWithRandomData ptr sz reincarnation)
    Act.update fun s => { s with reincarnation := (reincarnation + 1) % 2 ^ 32 }

/-- An item is read, as `mat` says; what is read is compared in the mode `check`
only. -/
def accessOld (idx : ℕ) : Act (Tester σ) Unit :=
  match mat with
  | .check => do
    let passes ← Act.read fun s => checkSegment (binPtr s.mem baseBuff idx) (binSz s.mem baseBuff idx)
      (binReincarnation s.mem baseBuff idx) s.mem
    if passes then return () else Act.throw
  | _ => return ()

/-- A slot gets an item, whose size is returned. -/
def newItem (idx : ℕ) : Act (Tester σ) ℕ := do
  let randNumSz ← rng64 numbers
  let sz := calcSizeWithStatsAdjustment randNumSz maxItemSizeExp
  onMem fun m => writeLE m 4 (baseBuff + idx * binSize + 8) (sz % 2 ^ 32)
  let ptr ← allocate A sz
  onMem fun m => writeLE m 8 (baseBuff + idx * binSize) ptr
  accessNew mat baseBuff idx sz
  return sz

/-- The slots `i * 32 + j` on, one for each of `n` bits of `randNum`. -/
def setupBits (i randNum : ℕ) : ℕ → ℕ → Act (Counted σ) Unit
  | 0, _ => return ()
  | n + 1, j => do
    Act.when ((randNum >>> j) &&& 1 ≠ 0) (do
      let sz ← onTester (newItem A numbers mat maxItemSizeExp baseBuff (i * 32 + j))
      Act.update fun s => { s with allocatedSz := u64 (s.allocatedSz + sz) })
    setupBits i randNum n (j + 1)

/-- The setup, from the `i`th 32 slots on. -/
def setup : ℕ → ℕ → Act (Counted σ) Unit
  | 0, _ => return ()
  | n + 1, i => do
    let randNum ← onTester (rng32 numbers)
    setupBits A numbers mat maxItemSizeExp baseBuff i randNum.toNat 32 0
    setup n (i + 1)

/-- A round of the main loop, at the slot `idx`. -/
def mainStep (idx : ℕ) : Act (Counted σ) Unit := do
  let _rnum1 ← onTester (rng32 numbers)
  let _rnum2 ← onTester (rng32 numbers)
  let ptr ← Act.read fun s => binPtr s.tester.mem baseBuff idx
  if ptr ≠ 0 then do
    onTester (accessOld mat baseBuff idx)
    let sz ← Act.read fun s => binSz s.tester.mem baseBuff idx
    Act.update fun s => { s with allocatedSz := sub64 s.allocatedSz sz }
    let ptr ← Act.read fun s => binPtr s.tester.mem baseBuff idx
    onTester (deallocate A ptr)
    onTester (onMem fun m => writeLE m 8 (baseBuff + idx * binSize) 0)
  else do
    let sz ← onTester (newItem A numbers mat maxItemSizeExp baseBuff idx)
    Act.update fun s => { s with allocatedSz := u64 (s.allocatedSz + sz) }
    Act.update fun s =>
      { s with allocatedSzMax := if s.allocatedSzMax < s.allocatedSz then s.allocatedSz else s.allocatedSzMax }

/-- `n` rounds, at the slots `slots k` on. -/
def mainRounds : ℕ → ℕ → Act (Counted σ) Unit
  | 0, _ => return ()
  | n + 1, k => do
    mainStep A numbers mat maxItemSizeExp baseBuff (slots k)
    mainRounds n (k + 1)

/-- The main loop, from the `k`th time on. -/
def mainLoop (rounds : ℕ) : ℕ → ℕ → Act (Counted σ) Unit
  | 0, _ => return ()
  | n + 1, k => do
    mainRounds A numbers slots mat maxItemSizeExp baseBuff rounds (k * rounds)
    mainLoop rounds n (k + 1)

/-- The setup and the main loop, until `allocatedMax` is stored; the table is
returned. -/
def setupAndMain (iterCount maxItems : ℕ) : Act (Counted σ) ℕ := do
  if maxItemSizeExp ≥ 32 then Act.throw else do
    Act.update fun s =>
      { s with
        tester := { s.tester with
          allocatorUnderTest := (A.init s.tester.allocatorUnderTest s.tester.mem).1
          mem := (A.init s.tester.allocatorUnderTest s.tester.mem).2, drawn := 0, reincarnation := 0 }
        allocatedSz := 0, allocatedSzMax := 0 }
    Act.need fun _ => decide (maxItems ≤ 2 ^ 32 - 1)
    let baseBuff ← onTester (allocate A (u64 (maxItems * binSize)))
    Act.need fun _ => decide (baseBuff ≠ 0)
    Act.update fun s => { s with allocatedSz := u64 (s.allocatedSz + u64 (maxItems * binSize)) }
    onTester (onMem fun m => zero m baseBuff (u64 (maxItems * binSize)))
    setup A numbers mat maxItemSizeExp baseBuff (maxItems / 32) 0
    Act.update fun s => { s with allocatedAfterSetupSz := s.allocatedSz }
    mainLoop A numbers slots mat maxItemSizeExp baseBuff (iterCount >>> 5) 32 0
    Act.update fun s => { s with allocatedMax := s.allocatedSzMax }
    return baseBuff

/-- The exit, from the slot `idx` on. -/
def exitLoop : ℕ → ℕ → Act (Tester σ) Unit
  | 0, _ => return ()
  | n + 1, idx => do
    let ptr ← Act.read fun s => binPtr s.mem baseBuff idx
    Act.when (ptr ≠ 0) (do
      accessOld mat baseBuff idx
      let ptr ← Act.read fun s => binPtr s.mem baseBuff idx
      deallocate A ptr)
    exitLoop n (idx + 1)

/-- The run: the exit gives back the items and the table. -/
def randomPos_RandomSize (iterCount maxItems : ℕ) : Act (Counted σ) Unit := do
  let baseBuff ← setupAndMain A numbers slots mat maxItemSizeExp iterCount maxItems
  onTester (exitLoop A mat baseBuff maxItems 0)
  onTester (deallocate A baseBuff)
  onTester (Act.update fun s =>
    { s with
      allocatorUnderTest := (A.deinit s.allocatorUnderTest s.mem).1
      mem := (A.deinit s.allocatorUnderTest s.mem).2, trace := .deinit :: s.trace })

end Program

end Counted

/-! ### The mode `check` -/

namespace Counted

variable {σ : Type} {A : AllocatorUnderTest σ} {numbers : ℕ → UInt32} {slots : ℕ → ℕ} {maxItemSizeExp baseBuff : ℕ}

/-- A new item is what fills a slot. -/
theorem newItem_check (idx : ℕ) :
    (newItem A numbers .check maxItemSizeExp baseBuff idx >>= fun _ => pure ()) =
      fillSlot A numbers maxItemSizeExp baseBuff idx := by
  unfold newItem accessNew fillSlot
  simp only [Act.bind_assoc, Act.pure_bind, Act.bind_unit, Act.read_bind]

/-- The check of an item, and what comes next if it passes. -/
theorem accessOld_check {α : Type} (idx : ℕ) (k : Unit → Act (Tester σ) α) :
    (accessOld .check baseBuff idx >>= k) =
      (Act.read fun s => checkSegment (binPtr s.mem baseBuff idx) (binSz s.mem baseBuff idx)
        (binReincarnation s.mem baseBuff idx) s.mem) >>= fun passes => if passes then k () else Act.throw := by
  unfold accessOld
  rw [Act.bind_assoc]
  congr 1
  funext passes
  cases passes <;> rfl

/-- An item that is checked and given back is what a slot gives back. -/
theorem releaseSlot_check (idx : ℕ) :
    (do
      accessOld .check baseBuff idx
      let ptr ← Act.read fun s => binPtr s.mem baseBuff idx
      deallocate A ptr) = releaseSlot A baseBuff idx := accessOld_check idx _

theorem onTester_shows {α : Type} (x : Act (Tester σ) α) : Act.Shows tester (onTester x) x :=
  .zoom (fun _ _ => rfl) x

theorem setupBits_shows (i randNum n j : ℕ) :
    Act.Shows tester (setupBits A numbers .check maxItemSizeExp baseBuff i randNum n j)
      (AllocatorTester.setupBits A numbers maxItemSizeExp baseBuff i randNum n j) := by
  induction n generalizing j with
  | zero => exact .pure ()
  | succ n ih =>
    refine .bind (.when ?_) fun _ => ih (j + 1)
    rw [← newItem_check]
    exact (onTester_shows _).bind fun sz => .rest fun _ => rfl

theorem setup_shows (n i : ℕ) :
    Act.Shows tester (setup A numbers .check maxItemSizeExp baseBuff n i)
      (AllocatorTester.setup A numbers maxItemSizeExp baseBuff n i) := by
  induction n generalizing i with
  | zero => exact .pure ()
  | succ n ih => exact (onTester_shows _).bind fun _ => (setupBits_shows _ _ _ _).bind fun _ => ih (i + 1)

theorem binPtr_shows (idx : ℕ) :
    Act.Shows tester (Act.read fun s : Counted σ => binPtr s.tester.mem baseBuff idx)
      (Act.read fun s => binPtr s.mem baseBuff idx) := .read fun s : Tester σ => binPtr s.mem baseBuff idx

theorem mainStep_shows (idx : ℕ) :
    Act.Shows tester (mainStep A numbers .check maxItemSizeExp baseBuff idx)
      (AllocatorTester.mainStep A numbers maxItemSizeExp baseBuff idx) := by
  refine (onTester_shows _).bind fun _ => (onTester_shows _).bind fun _ => ?_
  refine (binPtr_shows idx).bind fun ptr => .ite ?_ ?_
  · -- the item is counted off after its check, before it is given back
    rw [← releaseSlot_check]
    simp only [Act.bind_assoc]
    refine (onTester_shows _).bind fun _ => .read_rest fun sz => .update_rest (fun _ => rfl) ?_
    exact (binPtr_shows idx).bind fun ptr => (onTester_shows _).bind fun _ => onTester_shows _
  · rw [← newItem_check]
    refine (onTester_shows _).bind fun sz => .update_rest (fun _ => rfl) ?_
    exact .rest fun _ => rfl

theorem mainRounds_shows (n k : ℕ) :
    Act.Shows tester (mainRounds A numbers slots .check maxItemSizeExp baseBuff n k)
      (AllocatorTester.mainRounds A numbers slots maxItemSizeExp baseBuff n k) := by
  induction n generalizing k with
  | zero => exact .pure ()
  | succ n ih => exact (mainStep_shows _).bind fun _ => ih (k + 1)

theorem mainLoop_shows (rounds n k : ℕ) :
    Act.Shows tester (mainLoop A numbers slots .check maxItemSizeExp baseBuff rounds n k)
      (AllocatorTester.mainLoop A numbers slots maxItemSizeExp baseBuff rounds n k) := by
  induction n generalizing k with
  | zero => exact .pure ()
  | succ n ih => exact (mainRounds_shows _ _).bind fun _ => ih (k + 1)

theorem exitLoop_check (n idx : ℕ) :
    exitLoop A .check baseBuff n idx = AllocatorTester.exitLoop A baseBuff n idx := by
  induction n generalizing idx with
  | zero => rfl
  | succ n ih =>
    unfold exitLoop AllocatorTester.exitLoop
    rw [ih, releaseSlot_check]

/-- **The counters do not disturb the run**: in the mode `check` the run with them
makes the same calls, throws where the other throws, and leaves the same memory. -/
theorem run_check (iterCount maxItems : ℕ) :
    Act.Shows tester (randomPos_RandomSize A numbers slots .check maxItemSizeExp iterCount maxItems)
      (AllocatorTester.randomPos_RandomSize A numbers slots maxItemSizeExp iterCount maxItems) := by
  unfold randomPos_RandomSize setupAndMain AllocatorTester.randomPos_RandomSize
  split_ifs with hexp
  · exact .throw
  simp only [Act.bind_assoc, Act.pure_bind]
  refine .bind (.update fun _ => rfl) fun _ => .bind (.need _) fun _ => (onTester_shows _).bind fun baseBuff => ?_
  refine .bind (.need _) fun _ => .update_rest (fun _ => rfl) ((onTester_shows _).bind fun _ => ?_)
  refine (setup_shows _ _).bind fun _ => .update_rest (fun _ => rfl) ((mainLoop_shows _ _ _).bind fun _ => ?_)
  rw [← exitLoop_check]
  refine .update_rest (fun _ => rfl) ((onTester_shows _).bind fun _ => (onTester_shows _).bind fun _ => ?_)
  exact onTester_shows _

/-- So with an honest allocator no check throws, and `deinit` finds nothing held. -/
theorem run_spec {ok : σ → (ℕ → ℕ) → List (ℕ × ℕ) → Prop} {t : Counted σ} (hA : Honest A ok) {iterCount maxItems : ℕ}
    (h3 : 3 ≤ maxItemSizeExp) (h31 : maxItemSizeExp ≤ 31) (hmax : maxItems ≤ 2 ^ 32 - 1)
    (hslots : ∀ k < 32 * (iterCount >>> 5), slots k < maxItems) (hs : t.tester.trace = []) :
    Act.wp (randomPos_RandomSize A numbers slots .check maxItemSizeExp iterCount maxItems)
      (fun _ u => Ended A ok u.tester) (fun u => Refused u.tester) t :=
  (run_check iterCount maxItems).wp (AllocatorTester.run_spec hA numbers slots h3 h31 hmax hslots hs)

end Counted

end AllocatorTester

end IibMalloc

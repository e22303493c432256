/-
# allocator_tester.h: the test run

`randomPos_RandomSize` in the mode `check`, without the counters, which do not
disturb it (`TesterModes`), for an allocator that is a parameter: a table of
slots, itself obtained from the allocator, holds the pointer, the size and the
`reincarnation` of each segment. The setup fills some
slots; each round of the main loop picks a slot, and checks and gives back its
segment, or fills it; the exit gives back what is left, and the table.

The random numbers are any stream, and the slots picked any sequence.
`Honest` is what the run relies on: a region the allocator returns is not null
and apart from those held, and a call changes no byte of those held.
`Held` is the invariant: the table says what is held, and every segment passes
its check. `run_spec`: no check throws, and `deinit` finds the allocator in order
and nothing held; `balanced_run`: what was obtained is given back once.
-/
import IibMalloc.Tester

namespace IibMalloc

open Lib

namespace AllocatorTester

/-! ### The program -/

/-- A call to the allocator, with the pointer it returned. -/
inductive Event where
  | allocate (ptr sz : ℕ)
  /-- an `allocate` that threw -/
  | refused
  | deallocate (ptr : ℕ)
  | deinit
deriving DecidableEq

/-- The allocator: each call may change its own state and the memory, and
`allocate` may throw. -/
structure AllocatorUnderTest (σ : Type) where
  init : σ → (ℕ → ℕ) → σ × (ℕ → ℕ)
  allocate : ℕ → σ → (ℕ → ℕ) → Option (ℕ × σ × (ℕ → ℕ))
  deallocate : ℕ → σ → (ℕ → ℕ) → σ × (ℕ → ℕ)
  deinit : σ → (ℕ → ℕ) → σ × (ℕ → ℕ)

/-- The state of a run; the calls are listed latest first. -/
structure Tester (σ : Type) where
  allocatorUnderTest : σ
  mem : ℕ → ℕ
  drawn : ℕ
  reincarnation : ℕ
  trace : List Event

/-- `sizeof( TestBin )` -/
def binSize : ℕ := 16

/-- `baseBuff[idx].ptr` -/
def binPtr (mem : ℕ → ℕ) (baseBuff idx : ℕ) : ℕ := readLE mem 8 (baseBuff + idx * binSize)

/-- `baseBuff[idx].sz` -/
def binSz (mem : ℕ → ℕ) (baseBuff idx : ℕ) : ℕ := readLE mem 4 (baseBuff + idx * binSize + 8)

/-- `baseBuff[idx].reincarnation` -/
def binReincarnation (mem : ℕ → ℕ) (baseBuff idx : ℕ) : ℕ := readLE mem 4 (baseBuff + idx * binSize + 12)

section Program

variable {σ : Type} (A : AllocatorUnderTest σ) (numbers : ℕ → UInt32) (slots : ℕ → ℕ)
  (maxItemSizeExp baseBuff : ℕ)

/-- The memory is changed. -/
def onMem (f : (ℕ → ℕ) → (ℕ → ℕ)) : Act (Tester σ) Unit := Act.update fun s => { s with mem := f s.mem }

/-- The next number of the stream. -/
def rng32 : Act (Tester σ) UInt32 := do
  let i ← Act.read fun s => s.drawn
  Act.update fun s => { s with drawn := i + 1 }
  return numbers i

def rng64 : Act (Tester σ) ℕ := do
  let ret ← rng32 numbers
  let low ← rng32 numbers
  return u64 (ret.toNat <<< 32 + low.toNat)

def allocate (sz : ℕ) : Act (Tester σ) ℕ := do
  let r ← Act.read fun s => A.allocate sz s.allocatorUnderTest s.mem
  match r with
  | none => do
    Act.update fun s => { s with trace := .refused :: s.trace }
    Act.throw
  | some (ptr, a, m) => do
    Act.update fun s => { s with allocatorUnderTest := a, mem := m, trace := .allocate ptr sz :: s.trace }
    return ptr

def deallocate (ptr : ℕ) : Act (Tester σ) Unit :=
  Act.update fun s =>
    { s with
      allocatorUnderTest := (A.deallocate ptr s.allocatorUnderTest s.mem).1
      mem := (A.deallocate ptr s.allocatorUnderTest s.mem).2
      trace := .deallocate ptr :: s.trace }

/-- A slot gets a segment, filled. -/
def fillSlot (idx : ℕ) : Act (Tester σ) Unit := do
  let randNumSz ← rng64 numbers
  let sz := calcSizeWithStatsAdjustment randNumSz maxItemSizeExp
  onMem fun m => writeLE m 4 (baseBuff + idx * binSize + 8) (sz % 2 ^ 32)
  let ptr ← allocate A sz
  onMem fun m => writeLE m 8 (baseBuff + idx * binSize) ptr
  let reincarnation ← Act.read fun s => s.reincarnation
  onMem fun m => writeLE m 4 (baseBuff + idx * binSize + 12) reincarnation
  let ptr ← Act.read fun s => binPtr s.mem baseBuff idx
  onMem (fillSegmentWithRandomData ptr sz reincarnation)
  Act.update fun s => { s with reincarnation := (reincarnation + 1) % 2 ^ 32 }

/-- The segment of a slot is checked and given back. -/
def releaseSlot (idx : ℕ) : Act (Tester σ) Unit := do
  let passes ← Act.read fun s => checkSegment (binPtr s.mem baseBuff idx) (binSz s.mem baseBuff idx)
    (binReincarnation s.mem baseBuff idx) s.mem
  if passes then do
    let ptr ← Act.read fun s => binPtr s.mem baseBuff idx
    deallocate A ptr
  else Act.throw

/-- The slots `i * 32 + j` on, one for each of `n` bits of `randNum`. -/
def setupBits (i randNum : ℕ) : ℕ → ℕ → Act (Tester σ) Unit
  | 0, _ => return ()
  | n + 1, j => do
    Act.when ((randNum >>> j) &&& 1 ≠ 0) (fillSlot A numbers maxItemSizeExp baseBuff (i * 32 + j))
    setupBits i randNum n (j + 1)

/-- The setup, from the `i`th 32 slots on. -/
def setup : ℕ → ℕ → Act (Tester σ) Unit
  | 0, _ => return ()
  | n + 1, i => do
    let randNum ← rng32 numbers
    setupBits A numbers maxItemSizeExp baseBuff i randNum.toNat 32 0
    setup n (i + 1)

/-- A round of the main loop, at the slot `idx`. -/
def mainStep (idx : ℕ) : Act (Tester σ) Unit := do
  let _rnum1 ← rng32 numbers
  let _rnum2 ← rng32 numbers
  let ptr ← Act.read fun s => binPtr s.mem baseBuff idx
  if ptr ≠ 0 then do
    releaseSlot A baseBuff idx
    onMem fun m => writeLE m 8 (baseBuff + idx * binSize) 0
  else fillSlot A numbers maxItemSizeExp baseBuff idx

/-- `n` rounds, at the slots `slots k` on. -/
def mainRounds : ℕ → ℕ → Act (Tester σ) Unit
  | 0, _ => return ()
  | n + 1, k => do
    mainStep A numbers maxItemSizeExp baseBuff (slots k)
    mainRounds n (k + 1)

/-- The main loop, from the `k`th time on. -/
def mainLoop (rounds : ℕ) : ℕ → ℕ → Act (Tester σ) Unit
  | 0, _ => return ()
  | n + 1, k => do
    mainRounds A numbers slots maxItemSizeExp baseBuff rounds (k * rounds)
    mainLoop rounds n (k + 1)

/-- The exit, from the slot `idx` on. -/
def exitLoop : ℕ → ℕ → Act (Tester σ) Unit
  | 0, _ => return ()
  | n + 1, idx => do
    let ptr ← Act.read fun s => binPtr s.mem baseBuff idx
    Act.when (ptr ≠ 0) (releaseSlot A baseBuff idx)
    exitLoop n (idx + 1)

/-- The run, in the mode `check`: an assertion that is false stops it. -/
def randomPos_RandomSize (iterCount maxItems : ℕ) : Act (Tester σ) Unit := do
  if maxItemSizeExp ≥ 32 then Act.throw else do
    Act.update fun s =>
      { s with
        allocatorUnderTest := (A.init s.allocatorUnderTest s.mem).1
        mem := (A.init s.allocatorUnderTest s.mem).2, drawn := 0, reincarnation := 0 }
    Act.need fun _ => decide (maxItems ≤ 2 ^ 32 - 1)
    let baseBuff ← allocate A (u64 (maxItems * binSize))
    Act.need fun _ => decide (baseBuff ≠ 0)
    onMem fun m => zero m baseBuff (u64 (maxItems * binSize))
    setup A numbers maxItemSizeExp baseBuff (maxItems / 32) 0
    mainLoop A numbers slots maxItemSizeExp baseBuff (iterCount >>> 5) 32 0
    exitLoop A baseBuff maxItems 0
    deallocate A baseBuff
    Act.update fun s =>
      { s with
        allocatorUnderTest := (A.deinit s.allocatorUnderTest s.mem).1
        mem := (A.deinit s.allocatorUnderTest s.mem).2, trace := .deinit :: s.trace }

end Program

/-! ### What the run relies on, and what it keeps -/

/-- The regions held without the one at `p`. -/
def release (p : ℕ) (live : List (ℕ × ℕ)) : List (ℕ × ℕ) := live.eraseP fun e => e.1 = p

/-- The regions held after the calls, if each `deallocate` got the pointer of one
that was held. -/
def replay : List Event → Option (List (ℕ × ℕ))
  | [] => some []
  | .allocate p sz :: es => (replay es).map ((p, sz) :: ·)
  | .deallocate p :: es => (replay es).bind fun live => if p ∈ live.map Prod.fst then some (release p live) else none
  | .refused :: _ => none
  | .deinit :: _ => none

/-- The last call was an `allocate` that threw, and those before kept the rules. -/
def Refused {σ : Type} (s : Tester σ) : Prop := ∃ es live, s.trace = .refused :: es ∧ replay es = some live

/-- An allocator whose regions are not null and do not meet, and whose calls
change no byte of the regions held. `ok` is its own invariant, which its client
keeps by writing to what it holds only. -/
structure Honest {σ : Type} (A : AllocatorUnderTest σ) (ok : σ → (ℕ → ℕ) → List (ℕ × ℕ) → Prop) : Prop where
  init : ∀ a m, ok (A.init a m).1 (A.init a m).2 []
  allocate : ∀ a m live sz p a' m', ok a m live → A.allocate sz a m = some (p, a', m') →
    p ≠ 0 ∧ p + sz ≤ 2 ^ 64 ∧ (∀ e ∈ live, Apart (p, sz) e) ∧
      (∀ e ∈ live, ∀ x, Within e.1 e.2 x → m' x = m x) ∧ ok a' m' ((p, sz) :: live)
  deallocate : ∀ a m live, ok a m live → (live.map Prod.fst).Nodup → ∀ e ∈ live,
    (∀ e' ∈ live, e'.1 ≠ e.1 → ∀ x, Within e'.1 e'.2 x → (A.deallocate e.1 a m).2 x = m x) ∧
      ok (A.deallocate e.1 a m).1 (A.deallocate e.1 a m).2 (release e.1 live)
  write : ∀ a m m' live, ok a m live → (∀ x, (∀ e ∈ live, ¬ Within e.1 e.2 x) → m' x = m x) → ok a m' live

section Bins

variable {mem mem' : ℕ → ℕ} {baseBuff maxItems idx i n a v : ℕ}

/-- What a slot says, from the bytes of the table. -/
theorem bin_congr (h : ∀ x, Within (baseBuff + i * binSize) binSize x → mem' x = mem x) :
    binPtr mem' baseBuff i = binPtr mem baseBuff i ∧ binSz mem' baseBuff i = binSz mem baseBuff i ∧
      binReincarnation mem' baseBuff i = binReincarnation mem baseBuff i := by
  unfold binSize Within at h
  unfold binPtr binSz binReincarnation binSize
  refine ⟨readLE_congr fun x h1 h2 => h x ?_, readLE_congr fun x h1 h2 => h x ?_, readLE_congr fun x h1 h2 => h x ?_⟩
  all_goals omega

/-- A slot lies in the table, and apart from the others. -/
theorem bin_within (hi : i < maxItems) {x : ℕ} (hx : Within (baseBuff + i * binSize) binSize x) :
    Within baseBuff (maxItems * binSize) x := by
  have : (i + 1) * binSize ≤ maxItems * binSize := Nat.mul_le_mul_right _ hi
  unfold Within at *
  rw [Nat.add_mul] at this
  omega

theorem bin_apart (hne : i ≠ idx) {x : ℕ} (hx : Within (baseBuff + i * binSize) binSize x) :
    ¬ Within (baseBuff + idx * binSize) binSize x := by
  unfold Within binSize at *
  omega

/-- A table of zeros has no segments. -/
theorem binPtr_zero (hi : i < maxItems) : binPtr (zero mem baseBuff (maxItems * binSize)) baseBuff i = 0 := by
  have h : binPtr (zero mem baseBuff (maxItems * binSize)) baseBuff i = 0 / 256 ^ 0 % 256 ^ 8 :=
    readLE_digits fun j hj => by
      rw [Nat.zero_div, Nat.zero_mod]
      exact if_pos (bin_within hi ⟨by omega, by unfold binSize; omega⟩)
  simpa using h

end Bins

variable {σ : Type} {A : AllocatorUnderTest σ} {ok : σ → (ℕ → ℕ) → List (ℕ × ℕ) → Prop}
  {numbers : ℕ → UInt32} {slots : ℕ → ℕ} {maxItemSizeExp baseBuff maxItems idx i j p sz : ℕ} {s t : Tester σ}
  {live : List (ℕ × ℕ)} {P P' : ℕ → Prop}

theorem ptr_mem (h : (p, sz) ∈ live) : p ∈ live.map Prod.fst := List.mem_map_of_mem h

/-- Where no region is empty, a new one has a pointer of its own. -/
theorem new_ptr (hpos : ∀ e ∈ live, 0 < e.2) (hap : ∀ e ∈ live, Apart (p, sz) e) (hsz : 0 < sz) :
    p ∉ live.map Prod.fst := by
  intro hp
  obtain ⟨e, he, rfl⟩ := List.mem_map.mp hp
  have he0 := hpos e he
  exact hap e he e.1 ⟨le_rfl, by omega⟩ ⟨le_rfl, by omega⟩

/-- The segment of the slot `i`. -/
def segment (mem : ℕ → ℕ) (baseBuff i : ℕ) : ℕ × ℕ := (binPtr mem baseBuff i, binSz mem baseBuff i)

/-- A slot with a segment that is held, apart from the table, and passes. -/
structure GoodBin (mem : ℕ → ℕ) (baseBuff maxItems : ℕ) (live : List (ℕ × ℕ)) (i : ℕ) : Prop where
  held : segment mem baseBuff i ∈ live
  pos : 0 < binSz mem baseBuff i
  apart : Apart (segment mem baseBuff i) (baseBuff, maxItems * binSize)
  ne : binPtr mem baseBuff i ≠ baseBuff
  passes : checkSegment (binPtr mem baseBuff i) (binSz mem baseBuff i) (binReincarnation mem baseBuff i) mem = true

/-- The regions held are the table and the segments of the slots in `P`. -/
structure Bins (baseBuff maxItems : ℕ) (P : ℕ → Prop) (live : List (ℕ × ℕ)) (mem : ℕ → ℕ) : Prop where
  nodup : (live.map Prod.fst).Nodup
  table : (baseBuff, maxItems * binSize) ∈ live
  good : ∀ i < maxItems, P i → binPtr mem baseBuff i ≠ 0 → GoodBin mem baseBuff maxItems live i
  inj : ∀ i < maxItems, P i → ∀ j < maxItems, P j → binPtr mem baseBuff i ≠ 0 →
    binPtr mem baseBuff i = binPtr mem baseBuff j → i = j
  cover : ∀ e ∈ live, e = (baseBuff, maxItems * binSize) ∨
    ∃ i < maxItems, P i ∧ binPtr mem baseBuff i ≠ 0 ∧ e = segment mem baseBuff i

namespace Bins

variable {mem mem' : ℕ → ℕ}

/-- A slot without a segment does not count. -/
theorem congr (h : Bins baseBuff maxItems P live mem)
    (hP : ∀ i < maxItems, binPtr mem baseBuff i ≠ 0 → (P i ↔ P' i)) : Bins baseBuff maxItems P' live mem := by
  refine ⟨h.nodup, h.table, fun i hi hPi h0 => h.good i hi ((hP i hi h0).mpr hPi) h0,
    fun i hi hPi j hj hPj h0 he => ?_, fun e he => ?_⟩
  · exact h.inj i hi ((hP i hi h0).mpr hPi) j hj ((hP j hj (he ▸ h0)).mpr hPj) h0 he
  · apply (h.cover e he).imp_right
    intro hx
    obtain ⟨i, hi, hPi, h0, heq⟩ := hx
    exact ⟨i, hi, (hP i hi h0).mp hPi, h0, heq⟩

/-- Where the slots of `P` and their segments are as they were. -/
theorem transport (h : Bins baseBuff maxItems P live mem)
    (hbin : ∀ i < maxItems, P i → ∀ x, Within (baseBuff + i * binSize) binSize x → mem' x = mem x)
    (hseg : ∀ i < maxItems, P i → binPtr mem baseBuff i ≠ 0 → ∀ x,
      Within (binPtr mem baseBuff i) (binSz mem baseBuff i) x → mem' x = mem x) :
    Bins baseBuff maxItems P live mem' := by
  have hsame : ∀ i < maxItems, P i → binPtr mem' baseBuff i = binPtr mem baseBuff i ∧
      binSz mem' baseBuff i = binSz mem baseBuff i ∧
      binReincarnation mem' baseBuff i = binReincarnation mem baseBuff i := fun i hi hPi =>
    bin_congr (hbin i hi hPi)
  refine ⟨h.nodup, h.table, fun i hi hPi h0 => ?_, fun i hi hPi j hj hPj h0 he => ?_, fun e he => ?_⟩
  · obtain ⟨h1, h2, h3⟩ := hsame i hi hPi
    rw [h1] at h0
    obtain ⟨g1, g2, g3, g4, g5⟩ := h.good i hi hPi h0
    have hs : segment mem' baseBuff i = segment mem baseBuff i := congrArg₂ Prod.mk h1 h2
    refine ⟨by rw [hs]; exact g1, by rw [h2]; exact g2, by rw [hs]; exact g3, by rw [h1]; exact g4, ?_⟩
    rw [h1, h2, h3, checkSegment_congr (hseg i hi hPi h0)]
    exact g5
  · rw [(hsame i hi hPi).1] at h0 he
    rw [(hsame j hj hPj).1] at he
    exact h.inj i hi hPi j hj hPj h0 he
  · apply (h.cover e he).imp_right
    intro hx
    obtain ⟨i, hi, hPi, h0, heq⟩ := hx
    obtain ⟨h1, h2, -⟩ := hsame i hi hPi
    exact ⟨i, hi, hPi, by rwa [h1], heq.trans (congrArg₂ Prod.mk h1 h2).symm⟩

/-- A write to a slot that does not count. -/
theorem write (h : Bins baseBuff maxItems P live mem) (hidx : idx < maxItems) (hP : ¬ P idx)
    (hm : ∀ x, ¬ Within (baseBuff + idx * binSize) binSize x → mem' x = mem x) :
    Bins baseBuff maxItems P live mem' := by
  refine h.transport (fun i hi hPi x hx => hm x ?_) fun i hi hPi h0 x hx => hm x fun hw => ?_
  · have hne : i ≠ idx := fun he => hP (he ▸ hPi)
    exact bin_apart hne hx
  · exact (h.good i hi hPi h0).apart x hx (bin_within hidx hw)

theorem pos (h : Bins baseBuff maxItems P live mem) (hmax : 0 < maxItems) : ∀ e ∈ live, 0 < e.2 := by
  intro e he
  rcases h.cover e he with rfl | ⟨i, hi, hPi, h0, rfl⟩
  · exact Nat.mul_pos hmax (by decide)
  · exact (h.good i hi hPi h0).pos

/-- A slot gets a segment. -/
theorem add (h : Bins baseBuff maxItems P live mem) (hidx : idx < maxItems)
    (hap : ∀ e ∈ live, Apart (p, sz) e) (hsz : 0 < sz) (hp : p ≠ 0) (hseg : segment mem baseBuff idx = (p, sz))
    (hpass : checkSegment p sz (binReincarnation mem baseBuff idx) mem = true) :
    Bins baseBuff maxItems (fun i => P i ∨ i = idx) ((p, sz) :: live) mem := by
  have hnew := new_ptr (h.pos (by omega)) hap hsz
  obtain ⟨hptr, hsize⟩ := Prod.mk.inj hseg
  have hold : ∀ i < maxItems, P i → binPtr mem baseBuff i ≠ 0 → binPtr mem baseBuff i ≠ p := fun i hi hPi h0 he =>
    hnew (he ▸ ptr_mem (h.good i hi hPi h0).held)
  have hnodup : (((p, sz) :: live).map Prod.fst).Nodup := by
    rw [List.map_cons]
    exact List.nodup_cons.mpr ⟨hnew, h.nodup⟩
  refine ⟨hnodup, List.mem_cons_of_mem _ h.table, fun i hi hPi h0 => ?_,
    fun i hi hPi j hj hPj h0 he => ?_, fun e he => ?_⟩
  · rcases hPi with hPi | rfl
    · obtain ⟨g1, g2, g3, g4, g5⟩ := h.good i hi hPi h0
      exact ⟨List.mem_cons_of_mem _ g1, g2, g3, g4, g5⟩
    · refine ⟨by rw [hseg]; exact List.mem_cons_self, by rwa [hsize], by rw [hseg]; exact hap _ h.table,
        fun he => hnew ?_, ?_⟩
      · rw [← hptr, he]
        exact ptr_mem h.table
      · rw [hptr, hsize]
        exact hpass
  · rcases hPi with hPi | rfl <;> rcases hPj with hPj | rfl
    · exact h.inj i hi hPi j hj hPj h0 he
    · exact absurd (he.trans hptr) (hold i hi hPi h0)
    · exact absurd (he.symm.trans hptr) (hold j hj hPj (he ▸ h0))
    · rfl
  · rcases List.mem_cons.mp he with rfl | he
    · exact Or.inr ⟨idx, hidx, Or.inr rfl, by rwa [hptr], hseg.symm⟩
    · apply (h.cover e he).imp_right
      intro hx
      obtain ⟨i, hi, hPi, h0, heq⟩ := hx
      exact ⟨i, hi, Or.inl hPi, h0, heq⟩

theorem mem_release {e : ℕ × ℕ} (hn : (live.map Prod.fst).Nodup) : e ∈ release p live ↔ e ∈ live ∧ e.1 ≠ p := by
  unfold release
  induction live with
  | nil => simp
  | cons d live ih =>
    rw [List.map_cons] at hn
    obtain ⟨hd, hn⟩ := List.nodup_cons.mp hn
    by_cases hp : d.1 = p
    · rw [List.eraseP_cons_of_pos (by simpa using hp), List.mem_cons]
      constructor
      · intro he
        exact ⟨Or.inr he, fun h1 => hd (hp ▸ h1 ▸ List.mem_map_of_mem he)⟩
      · rintro ⟨rfl | he, h1⟩
        · exact absurd hp h1
        · exact he
    · rw [List.eraseP_cons_of_neg (by simpa using hp), List.mem_cons, List.mem_cons, ih hn]
      constructor
      · rintro (rfl | ⟨he, h1⟩)
        · exact ⟨Or.inl rfl, hp⟩
        · exact ⟨Or.inr he, h1⟩
      · rintro ⟨rfl | he, h1⟩
        · exact Or.inl rfl
        · exact Or.inr ⟨he, h1⟩

/-- The segment of a slot is given back. -/
theorem remove (h : Bins baseBuff maxItems P live mem) (hidx : idx < maxItems) (hP : P idx)
    (h0 : binPtr mem baseBuff idx ≠ 0) :
    Bins baseBuff maxItems (fun i => P i ∧ i ≠ idx) (release (binPtr mem baseBuff idx) live) mem := by
  have hG := h.good idx hidx hP h0
  refine ⟨?_, (mem_release h.nodup).mpr ⟨h.table, hG.ne.symm⟩, fun i hi hPi hi0 => ?_,
    fun i hi hPi j hj hPj => h.inj i hi hPi.1 j hj hPj.1, fun e he => ?_⟩
  · exact h.nodup.sublist ((List.eraseP_sublist).map Prod.fst)
  · obtain ⟨g1, g2, g3, g4, g5⟩ := h.good i hi hPi.1 hi0
    exact ⟨(mem_release h.nodup).mpr ⟨g1, fun he => hPi.2 (h.inj i hi hPi.1 idx hidx hP hi0 he)⟩, g2, g3, g4, g5⟩
  · obtain ⟨he, hne⟩ := (mem_release h.nodup).mp he
    apply (h.cover e he).imp_right
    intro hx
    obtain ⟨i, hi, hPi, hi0, rfl⟩ := hx
    exact ⟨i, hi, ⟨hPi, fun hii => hne (by rw [hii]; rfl)⟩, hi0, rfl⟩

end Bins

/-- What the run keeps: the calls made, and the table, say what is held. -/
structure Held (ok : σ → (ℕ → ℕ) → List (ℕ × ℕ) → Prop) (baseBuff maxItems : ℕ) (P : ℕ → Prop)
    (live : List (ℕ × ℕ)) (s : Tester σ) : Prop where
  replay : replay s.trace = some live
  ok : ok s.allocatorUnderTest s.mem live
  small : s.reincarnation < 2 ^ 32
  bins : Bins baseBuff maxItems P live s.mem

/-! ### The steps -/

@[simp] theorem wp_rng32 {Q : UInt32 → Tester σ → Prop} {E : Tester σ → Prop} :
    Act.wp (rng32 numbers) Q E s ↔ Q (numbers s.drawn) { s with drawn := s.drawn + 1 } := by
  simp [rng32]

@[simp] theorem wp_onMem (f : (ℕ → ℕ) → (ℕ → ℕ)) {Q : Unit → Tester σ → Prop} {E : Tester σ → Prop} :
    Act.wp (onMem f) Q E s ↔ Q () { s with mem := f s.mem } := by
  simp [onMem]

theorem wp_allocate {sz : ℕ} {Q : ℕ → Tester σ → Prop} {E : Tester σ → Prop}
    (hthrow : E { s with trace := .refused :: s.trace })
    (hret : ∀ p a m, A.allocate sz s.allocatorUnderTest s.mem = some (p, a, m) →
      Q p { s with allocatorUnderTest := a, mem := m, trace := .allocate p sz :: s.trace }) :
    Act.wp (allocate A sz) Q E s := by
  unfold allocate
  rw [Act.wp_bind, Act.wp_read]
  cases hr : A.allocate sz s.allocatorUnderTest s.mem with
  | none =>
    simp only [Act.wp_bind, Act.wp_update, Act.wp_throw]
    exact hthrow
  | some r =>
    simp only [Act.wp_bind, Act.wp_update, Act.wp_pure]
    exact hret r.1 r.2.1 r.2.2 hr

/-- Another position in the stream of numbers. -/
theorem Held.drawn (h : Held ok baseBuff maxItems P live s) (n : ℕ) :
    Held ok baseBuff maxItems P live { s with drawn := n } := ⟨h.replay, h.ok, h.small, h.bins⟩

/-- The memory after a slot was filled: its fields are written, then the segment
`p` that the allocator returned, where the memory was `m₂`. -/
def filled (baseBuff idx p sz reincarnation : ℕ) (m₂ : ℕ → ℕ) : ℕ → ℕ :=
  fillSegmentWithRandomData
    (binPtr (writeLE (writeLE m₂ 8 (baseBuff + idx * binSize) p) 4 (baseBuff + idx * binSize + 12) reincarnation)
      baseBuff idx) sz reincarnation
    (writeLE (writeLE m₂ 8 (baseBuff + idx * binSize) p) 4 (baseBuff + idx * binSize + 12) reincarnation)

/-- What the slot says, and where else the memory is as it was. -/
theorem filled_spec {m₂ : ℕ → ℕ} {reincarnation : ℕ} (hidx : idx < maxItems) (hp : p < 2 ^ 64)
    (hr : reincarnation < 2 ^ 32) (hsz : binSz m₂ baseBuff idx = sz)
    (hap : Apart (p, sz) (baseBuff, maxItems * binSize)) :
    segment (filled baseBuff idx p sz reincarnation m₂) baseBuff idx = (p, sz) ∧
      checkSegment p sz (binReincarnation (filled baseBuff idx p sz reincarnation m₂) baseBuff idx)
        (filled baseBuff idx p sz reincarnation m₂) = true ∧
      ∀ x, ¬ Within (baseBuff + idx * binSize) binSize x → ¬ Within p sz x →
        filled baseBuff idx p sz reincarnation m₂ x = m₂ x := by
  obtain ⟨m₃, hm₃⟩ : ∃ m₃, m₃ = writeLE m₂ 8 (baseBuff + idx * binSize) p := ⟨_, rfl⟩
  obtain ⟨m₄, hm₄⟩ : ∃ m₄, m₄ = writeLE m₃ 4 (baseBuff + idx * binSize + 12) reincarnation := ⟨_, rfl⟩
  have hptr : binPtr m₄ baseBuff idx = p := by
    unfold binPtr
    rw [hm₄, readLE_congr fun x h1 h2 => writeLE_of_not (by omega), hm₃]
    exact readLE_writeLE hp
  have hsize : binSz m₄ baseBuff idx = sz := by
    rw [← hsz, hm₄, hm₃]
    unfold binSz
    exact readLE_congr fun x h1 h2 => (writeLE_of_not (by omega)).trans (writeLE_of_not (by omega))
  have hre : binReincarnation m₄ baseBuff idx = reincarnation := by
    unfold binReincarnation
    rw [hm₄]
    exact readLE_writeLE hr
  have hfill : filled baseBuff idx p sz reincarnation m₂ = fillSegmentWithRandomData p sz reincarnation m₄ := by
    unfold filled
    rw [← hm₃, ← hm₄, hptr]
  -- the segment is apart from the table
  have htable : ∀ x, Within (baseBuff + idx * binSize) binSize x →
      fillSegmentWithRandomData p sz reincarnation m₄ x = m₄ x := fun x hx =>
    fillSegment_frame fun hw => hap x hw (bin_within hidx hx)
  obtain ⟨h1, h2, h3⟩ := bin_congr htable
  rw [hfill]
  refine ⟨congrArg₂ Prod.mk (h1.trans hptr) (h2.trans hsize), ?_, fun x hx hx' => ?_⟩
  · rw [h3, hre]
    exact checkSegment_fill
  · rw [fillSegment_frame hx', hm₄, hm₃]
    unfold Within binSize at hx
    unfold binSize
    exact (writeLE_of_not (by omega)).trans (writeLE_of_not (by omega))

/-- A slot without a segment is filled; the pointers of the others stay. -/
theorem fillSlot_spec (hA : Honest A ok) (h3 : 3 ≤ maxItemSizeExp) (h31 : maxItemSizeExp ≤ 31)
    (h : Held ok baseBuff maxItems (fun _ => True) live s) (hidx : idx < maxItems)
    (h0 : binPtr s.mem baseBuff idx = 0) :
    Act.wp (fillSlot A numbers maxItemSizeExp baseBuff idx)
      (fun _ t => (∃ live', Held ok baseBuff maxItems (fun _ => True) live' t) ∧
        ∀ i < maxItems, i ≠ idx → binPtr t.mem baseBuff i = binPtr s.mem baseBuff i) Refused s := by
  unfold fillSlot rng64
  simp only [Act.wp_bind, wp_rng32, wp_onMem, Act.wp_read, Act.wp_update, Act.wp_pure]
  obtain ⟨sz, hszr⟩ : ∃ sz, sz = calcSizeWithStatsAdjustment
    (u64 ((numbers s.drawn).toNat <<< 32 + (numbers (s.drawn + 1)).toNat)) maxItemSizeExp := ⟨_, rfl⟩
  obtain ⟨hsz, hsz'⟩ : 0 < sz ∧ sz < 2 ^ 32 := by
    obtain ⟨h4, h5⟩ := @calcSize_bounds (u64 ((numbers s.drawn).toNat <<< 32 + (numbers (s.drawn + 1)).toNat))
      maxItemSizeExp h3 h31
    have hle : 2 ^ maxItemSizeExp ≤ 2 ^ 31 := Nat.pow_le_pow_right (by norm_num) h31
    rw [← hszr] at h4 h5
    omega
  rw [← hszr, Nat.mod_eq_of_lt hsz']
  obtain ⟨m₁, hm₁⟩ : ∃ m₁, m₁ = writeLE s.mem 4 (baseBuff + idx * binSize + 8) sz := ⟨_, rfl⟩
  rw [← hm₁]
  have hout₁ : ∀ x, ¬ Within (baseBuff + idx * binSize) binSize x → m₁ x = s.mem x := fun x hx => by
    rw [hm₁]
    unfold Within binSize at hx
    unfold binSize
    exact writeLE_of_not (by omega)
  have hB₀ : Bins baseBuff maxItems (fun i => i ≠ idx) live s.mem := h.bins.congr fun i _ hi0 =>
    ⟨fun _ hii => hi0 (hii ▸ h0), fun _ => trivial⟩
  have hB₁ := hB₀.write hidx (not_not.mpr rfl) hout₁
  have hok₁ : ok s.allocatorUnderTest m₁ live := hA.write _ s.mem _ _ h.ok fun x hx =>
    hout₁ x fun hw => hx _ hB₀.table (bin_within hidx hw)
  refine wp_allocate ⟨_, live, rfl, h.replay⟩ fun p a m₂ hr => ?_
  obtain ⟨hp, hlt, hap, hkeep, hok₂⟩ := hA.allocate _ _ _ _ _ _ _ hok₁ hr
  have hszfield : binSz m₂ baseBuff idx = sz := by
    rw [(bin_congr fun x hx => hkeep _ hB₀.table x (bin_within hidx hx)).2.1, hm₁]
    exact readLE_writeLE (by omega)
  obtain ⟨hseg, hpass, hout⟩ := filled_spec hidx (by omega) h.small hszfield (hap _ hB₀.table)
  have hframe : ∀ e ∈ live, ∀ x, Within e.1 e.2 x → ¬ Within (baseBuff + idx * binSize) binSize x →
      filled baseBuff idx p sz s.reincarnation m₂ x = m₁ x := fun e he x hx hn =>
    (hout x hn fun hw => hap e he x hw hx).trans (hkeep e he x hx)
  have hB₂ : Bins baseBuff maxItems (fun i => i ≠ idx) live (filled baseBuff idx p sz s.reincarnation m₂) :=
    hB₁.transport (fun i hi hne x hx => hframe _ hB₁.table x (bin_within hi hx) (bin_apart hne hx))
      fun i hi hne hi0 x hx => by
        have hG := hB₁.good i hi hne hi0
        exact hframe _ hG.held x hx fun hw => hG.apart x hx (bin_within hidx hw)
  have hB₃ := hB₂.add hidx hap hsz hp hseg hpass
  refine ⟨⟨(p, sz) :: live, ?_, ?_, ?_, hB₃.congr fun i _ _ => ⟨fun _ => trivial, fun _ => (em (i = idx)).symm⟩⟩,
    fun i hi hne => ?_⟩
  · show (replay s.trace).map _ = _
    rw [h.replay]
    rfl
  · refine hA.write _ m₂ _ _ hok₂ fun x hx => hout x (fun hw => ?_) fun hw => hx _ List.mem_cons_self hw
    exact hx _ (List.mem_cons_of_mem _ hB₀.table) (bin_within hidx hw)
  · exact Nat.mod_lt _ (by norm_num)
  · have hbin : ∀ x, Within (baseBuff + i * binSize) binSize x →
        filled baseBuff idx p sz s.reincarnation m₂ x = s.mem x := fun x hx =>
      (hframe _ hB₁.table x (bin_within hi hx) (bin_apart hne hx)).trans (hout₁ x (bin_apart hne hx))
    exact (bin_congr hbin).1

/-- The segment of a slot passes, and is given back. -/
theorem releaseSlot_spec (hA : Honest A ok) (h : Held ok baseBuff maxItems P live s) (hidx : idx < maxItems)
    (hP : P idx) (h0 : binPtr s.mem baseBuff idx ≠ 0) :
    Act.wp (releaseSlot A baseBuff idx)
      (fun _ t => ∃ live', Held ok baseBuff maxItems (fun i => P i ∧ i ≠ idx) live' t) (fun _ => False) s := by
  have hG := h.bins.good idx hidx hP h0
  unfold releaseSlot deallocate
  simp only [Act.wp_bind, Act.wp_read, hG.passes, if_true, Act.wp_update]
  obtain ⟨hkeep, hok⟩ := hA.deallocate _ _ _ h.ok h.bins.nodup _ hG.held
  have hB := h.bins.remove hidx hP h0
  refine ⟨release (binPtr s.mem baseBuff idx) live, ?_, hok, h.small, hB.transport (fun i hi _ x hx => ?_)
    fun i hi hi' hi0 x hx => ?_⟩
  · show (replay s.trace).bind _ = _
    rw [h.replay]
    exact if_pos (ptr_mem hG.held)
  · exact hkeep _ h.bins.table hG.ne.symm x (bin_within hi hx)
  · obtain ⟨hmem, hne⟩ := (Bins.mem_release h.bins.nodup).mp (hB.good i hi hi' hi0).held
    exact hkeep _ hmem hne x hx

/-! ### The loops -/

/-- The table, whose slots from `n` on have no segment yet. -/
def Fresh (ok : σ → (ℕ → ℕ) → List (ℕ × ℕ) → Prop) (baseBuff maxItems n : ℕ) (s : Tester σ) : Prop :=
  (∃ live, Held ok baseBuff maxItems (fun _ => True) live s) ∧
    ∀ i < maxItems, n ≤ i → binPtr s.mem baseBuff i = 0

theorem setupBits_spec (hA : Honest A ok) (h3 : 3 ≤ maxItemSizeExp) (h31 : maxItemSizeExp ≤ 31) {i randNum : ℕ}
    (hi : i * 32 + 32 ≤ maxItems) (n j : ℕ) (hj : j + n = 32) (h : Fresh ok baseBuff maxItems (i * 32 + j) s) :
    Act.wp (setupBits A numbers maxItemSizeExp baseBuff i randNum n j)
      (fun _ t => Fresh ok baseBuff maxItems (i * 32 + 32) t) Refused s := by
  induction n generalizing j s with
  | zero =>
    rw [show j = 32 by omega] at h
    unfold setupBits
    rw [Act.wp_pure]
    exact h
  | succ n ih =>
    obtain ⟨⟨live, hH⟩, hnull⟩ := h
    unfold setupBits
    rw [Act.wp_bind, Act.wp_when]
    refine ⟨fun _ => ?_, fun _ => ?_⟩
    · refine Act.wp_mono (fillSlot_spec hA h3 h31 hH (by omega) (hnull _ (by omega) le_rfl)) ?_ fun _ ht => ht
      intro _ t ht
      obtain ⟨hH', hothers⟩ := ht
      refine ih (j + 1) (by omega) ⟨hH', fun k hk hle => ?_⟩
      rw [hothers k hk (by omega)]
      exact hnull k hk (by omega)
    · exact ih (j + 1) (by omega) ⟨⟨live, hH⟩, fun k hk hle => hnull k hk (by omega)⟩

theorem setup_spec (hA : Honest A ok) (h3 : 3 ≤ maxItemSizeExp) (h31 : maxItemSizeExp ≤ 31) (n i : ℕ)
    (hi : i + n = maxItems / 32) (h : Fresh ok baseBuff maxItems (i * 32) s) :
    Act.wp (setup A numbers maxItemSizeExp baseBuff n i)
      (fun _ t => ∃ live, Held ok baseBuff maxItems (fun _ => True) live t) Refused s := by
  induction n generalizing i s with
  | zero =>
    unfold setup
    rw [Act.wp_pure]
    exact h.1
  | succ n ih =>
    obtain ⟨⟨live, hH⟩, hnull⟩ := h
    unfold setup
    rw [Act.wp_bind, wp_rng32, Act.wp_bind]
    refine Act.wp_mono (setupBits_spec hA h3 h31 (by omega) 32 0 rfl ⟨⟨live, hH.drawn _⟩, hnull⟩) ?_ fun _ ht => ht
    rintro _ t ht
    exact ih (i + 1) (by omega) (by rwa [Nat.add_mul, Nat.one_mul])

/-- A round of the main loop. -/
theorem mainStep_spec (hA : Honest A ok) (h3 : 3 ≤ maxItemSizeExp) (h31 : maxItemSizeExp ≤ 31)
    (h : Held ok baseBuff maxItems (fun _ => True) live s) (hidx : idx < maxItems) :
    Act.wp (mainStep A numbers maxItemSizeExp baseBuff idx)
      (fun _ t => ∃ live', Held ok baseBuff maxItems (fun _ => True) live' t) Refused s := by
  unfold mainStep
  rw [Act.wp_bind, wp_rng32, Act.wp_bind, wp_rng32, Act.wp_bind, Act.wp_read]
  have hH := (h.drawn (s.drawn + 1)).drawn (s.drawn + 1 + 1)
  split_ifs with h0
  · rw [Act.wp_bind]
    refine Act.wp_mono (releaseSlot_spec hA hH hidx trivial h0) ?_ fun _ ht => ht.elim
    intro _ t ht
    obtain ⟨live', ht⟩ := ht
    rw [wp_onMem]
    -- the slot has no segment, and counts again
    have hout : ∀ x, ¬ Within (baseBuff + idx * binSize) binSize x →
        writeLE t.mem 8 (baseBuff + idx * binSize) 0 x = t.mem x := fun x hx => by
      unfold Within binSize at hx
      unfold binSize
      exact writeLE_of_not (by omega)
    have hnull : binPtr (writeLE t.mem 8 (baseBuff + idx * binSize) 0) baseBuff idx = 0 :=
      readLE_writeLE (by norm_num)
    have hB := ht.bins.write hidx (fun hc => hc.2 rfl) hout
    have hB' : Bins baseBuff maxItems (fun _ => True) live' (writeLE t.mem 8 (baseBuff + idx * binSize) 0) := by
      refine hB.congr fun i _ hi0 => ⟨fun _ => trivial, fun _ => ⟨trivial, fun hii => hi0 ?_⟩⟩
      rw [hii]
      exact hnull
    have hok' := hA.write _ t.mem _ _ ht.ok fun x hx => hout x fun hw => hx _ ht.bins.table (bin_within hidx hw)
    exact ⟨live', ht.replay, hok', ht.small, hB'⟩
  · exact Act.wp_mono (fillSlot_spec hA h3 h31 hH hidx (not_not.mp h0)) (fun _ _ ht => ht.1) fun _ ht => ht

theorem mainRounds_spec (hA : Honest A ok) (h3 : 3 ≤ maxItemSizeExp) (h31 : maxItemSizeExp ≤ 31) (n k : ℕ)
    (hslots : ∀ m < k + n, slots m < maxItems) (h : Held ok baseBuff maxItems (fun _ => True) live s) :
    Act.wp (mainRounds A numbers slots maxItemSizeExp baseBuff n k)
      (fun _ t => ∃ live', Held ok baseBuff maxItems (fun _ => True) live' t) Refused s := by
  induction n generalizing k s live with
  | zero =>
    unfold mainRounds
    rw [Act.wp_pure]
    exact ⟨live, h⟩
  | succ n ih =>
    unfold mainRounds
    rw [Act.wp_bind]
    refine Act.wp_mono (mainStep_spec hA h3 h31 h (hslots k (by omega))) ?_ fun _ ht => ht
    intro _ t ht
    obtain ⟨live', ht⟩ := ht
    exact ih (k + 1) (fun m hm => hslots m (by omega)) ht

theorem mainLoop_spec (hA : Honest A ok) (h3 : 3 ≤ maxItemSizeExp) (h31 : maxItemSizeExp ≤ 31) {rounds : ℕ}
    (n k : ℕ) (hslots : ∀ m < (k + n) * rounds, slots m < maxItems)
    (h : Held ok baseBuff maxItems (fun _ => True) live s) :
    Act.wp (mainLoop A numbers slots maxItemSizeExp baseBuff rounds n k)
      (fun _ t => ∃ live', Held ok baseBuff maxItems (fun _ => True) live' t) Refused s := by
  induction n generalizing k s live with
  | zero =>
    unfold mainLoop
    rw [Act.wp_pure]
    exact ⟨live, h⟩
  | succ n ih =>
    unfold mainLoop
    rw [Act.wp_bind]
    have hle : k * rounds + rounds ≤ (k + (n + 1)) * rounds := by
      rw [show k + (n + 1) = k + 1 + n by omega, Nat.add_mul (k + 1), Nat.add_mul, Nat.one_mul]
      omega
    refine Act.wp_mono (mainRounds_spec hA h3 h31 rounds (k * rounds) (fun m hm => hslots m (by omega)) h) ?_
      fun _ ht => ht
    intro _ t ht
    obtain ⟨live', ht⟩ := ht
    exact ih (k + 1) (fun m hm => hslots m (by rwa [show k + (n + 1) = k + 1 + n by omega])) ht

/-- The exit gives back the segments of the slots from `idx` on. -/
theorem exitLoop_spec (hA : Honest A ok) (n idx : ℕ) (hidx : idx + n = maxItems)
    (h : Held ok baseBuff maxItems (fun i => idx ≤ i) live s) :
    Act.wp (exitLoop A baseBuff n idx)
      (fun _ t => ∃ live', Held ok baseBuff maxItems (fun i => maxItems ≤ i) live' t) (fun _ => False) s := by
  induction n generalizing idx s live with
  | zero =>
    rw [show idx = maxItems by omega] at h
    unfold exitLoop
    rw [Act.wp_pure]
    exact ⟨live, h⟩
  | succ n ih =>
    unfold exitLoop
    rw [Act.wp_bind, Act.wp_read, Act.wp_bind, Act.wp_when]
    refine ⟨fun h0 => ?_, fun h0 => ?_⟩
    · refine Act.wp_mono (releaseSlot_spec hA h (by omega) le_rfl h0) ?_ fun _ ht => ht
      intro _ t ht
      obtain ⟨live', ht⟩ := ht
      exact ih (idx + 1) (by omega) ⟨ht.replay, ht.ok, ht.small, ht.bins.congr fun i _ _ => by omega⟩
    · refine ih (idx + 1) (by omega) ⟨h.replay, h.ok, h.small, h.bins.congr fun i _ hi0 => ?_⟩
      have hne : i ≠ idx := fun hii => h0 (hii ▸ hi0)
      omega

/-! ### The run -/

/-- Where only the slots past the last one count, only the table is held. -/
theorem Bins.only_table {mem : ℕ → ℕ} (h : Bins baseBuff maxItems (fun i => maxItems ≤ i) live mem) :
    live = [(baseBuff, maxItems * binSize)] := by
  have hall : ∀ e ∈ live, e = (baseBuff, maxItems * binSize) := fun e he =>
    (h.cover e he).resolve_right fun hslot => by
      obtain ⟨i, hi, hPi, -⟩ := hslot
      exact absurd hi (Nat.not_lt.mpr hPi)
  have hrep := List.eq_replicate_of_mem hall
  have hn := h.nodup.of_map
  rw [hrep] at hn ⊢
  have hlen := List.nodup_replicate.mp hn
  have hpos := List.length_pos_of_mem h.table
  rw [show live.length = 1 by omega]
  rfl

/-- The new table, filled with zeros. -/
theorem Fresh.table {a : σ} {m : ℕ → ℕ} {es : List Event} (hA : Honest A ok)
    (hok : ok a m [(baseBuff, maxItems * binSize)]) (hes : replay es = some []) :
    Fresh ok baseBuff maxItems 0 ⟨a, zero m baseBuff (maxItems * binSize), 0, 0,
      .allocate baseBuff (maxItems * binSize) :: es⟩ := by
  refine ⟨⟨[(baseBuff, maxItems * binSize)], ?_, ?_, by norm_num, ?_⟩, fun i hi _ => binPtr_zero hi⟩
  · show (replay es).map _ = _
    rw [hes]
    rfl
  · exact hA.write _ m _ _ hok fun x hx => zero_of_not (hx _ List.mem_cons_self)
  · exact ⟨List.nodup_singleton _, List.mem_cons_self, fun i hi _ h0 => absurd (binPtr_zero hi) h0,
      fun i hi _ j _ _ h0 => absurd (binPtr_zero hi) h0, fun e he => Or.inl (List.mem_singleton.mp he)⟩

/-- The run ends with `deinit` of an allocator that is in order and of which
nothing is held. -/
structure Ended (A : AllocatorUnderTest σ) (ok : σ → (ℕ → ℕ) → List (ℕ × ℕ) → Prop) (t : Tester σ) : Prop where
  deinit : ∃ a m, ok a m [] ∧ t.allocatorUnderTest = (A.deinit a m).1
  trace : ∃ es, t.trace = .deinit :: es ∧ replay es = some []

/-- The run in the mode `check`, with an honest allocator: only an `allocate` may
throw. -/
theorem run_spec (hA : Honest A ok) (numbers : ℕ → UInt32) (slots : ℕ → ℕ) {iterCount : ℕ}
    (h3 : 3 ≤ maxItemSizeExp) (h31 : maxItemSizeExp ≤ 31) (hmax : maxItems ≤ 2 ^ 32 - 1)
    (hslots : ∀ k < 32 * (iterCount >>> 5), slots k < maxItems) (hs : s.trace = []) :
    Act.wp (randomPos_RandomSize A numbers slots maxItemSizeExp iterCount maxItems)
      (fun _ t => Ended A ok t) Refused s := by
  unfold randomPos_RandomSize
  rw [if_neg (by omega), show u64 (maxItems * binSize) = maxItems * binSize from u64_of_lt (by unfold binSize; omega)]
  simp only [Act.wp_bind, Act.wp_update, Act.wp_need, wp_onMem]
  refine ⟨decide_eq_true hmax, ?_⟩
  refine wp_allocate ⟨s.trace, [], rfl, by rw [hs]; rfl⟩ fun baseBuff a m hr => ?_
  obtain ⟨hp, -, -, -, hok⟩ := hA.allocate _ _ _ _ _ _ _ (hA.init s.allocatorUnderTest s.mem) hr
  refine ⟨decide_eq_true hp, ?_⟩
  have hnone : replay s.trace = some [] := by rw [hs]; rfl
  have hstart := Fresh.table hA hok hnone
  refine Act.wp_mono (setup_spec hA h3 h31 (maxItems / 32) 0 (Nat.zero_add _) (by rwa [Nat.zero_mul])) ?_ fun _ ht => ht
  intro _ t₁ ht₁
  obtain ⟨live₁, h₁⟩ := ht₁
  refine Act.wp_mono (mainLoop_spec hA h3 h31 32 0 (by rwa [Nat.zero_add]) h₁) ?_ fun _ ht => ht
  intro _ t₂ ht₂
  obtain ⟨live₂, h₂⟩ := ht₂
  refine Act.wp_mono (exitLoop_spec hA maxItems 0 (Nat.zero_add _)
    ⟨h₂.replay, h₂.ok, h₂.small, h₂.bins.congr fun i _ _ => ⟨fun _ => Nat.zero_le i, fun _ => trivial⟩⟩) ?_
    fun _ ht => ht.elim
  intro _ t₃ ht₃
  obtain ⟨live₃, h₃⟩ := ht₃
  have hlive : live₃ = [(baseBuff, maxItems * binSize)] := h₃.bins.only_table
  have hrelease : release baseBuff [(baseBuff, maxItems * binSize)] = [] := by simp [release]
  obtain ⟨-, hok₃⟩ := hA.deallocate _ _ _ h₃.ok h₃.bins.nodup _ h₃.bins.table
  have hreplay := h₃.replay
  rw [hlive] at hreplay hok₃
  unfold deallocate
  simp only [Act.wp_update]
  rw [hrelease] at hok₃
  refine ⟨⟨_, _, hok₃, rfl⟩, _, rfl, ?_⟩
  show (replay t₃.trace).bind _ = _
  rw [hreplay, Option.bind_some, if_pos (ptr_mem List.mem_cons_self), hrelease]

/-- The run in the mode `check`, with an honest allocator: no check throws, and
before `deinit` every pointer obtained was given back once, and no other. Only
the allocator may throw, and no other pointer was given back until then. -/
theorem balanced_run (hA : Honest A ok) (numbers : ℕ → UInt32) (slots : ℕ → ℕ) {iterCount : ℕ}
    (h3 : 3 ≤ maxItemSizeExp) (h31 : maxItemSizeExp ≤ 31) (hmax : maxItems ≤ 2 ^ 32 - 1)
    (hslots : ∀ k < 32 * (iterCount >>> 5), slots k < maxItems) (hs : s.trace = []) :
    Act.wp (randomPos_RandomSize A numbers slots maxItemSizeExp iterCount maxItems)
      (fun _ t => ∃ es, t.trace = .deinit :: es ∧ replay es = some []) Refused s := by
  refine Act.wp_mono (run_spec hA numbers slots h3 h31 hmax hslots hs) ?_ fun _ ht => ht
  intro _ t ht
  exact ht.trace

/-- An allocator that never uses an address again. -/
def bump : AllocatorUnderTest ℕ where
  init _ m := (4096, m)
  allocate sz a m := if a + sz ≤ 2 ^ 64 then some (a, a + sz, m) else none
  deallocate _ a m := (a, m)
  deinit a m := (a, m)

theorem bump_honest : Honest bump fun a _ live => 4096 ≤ a ∧ ∀ e ∈ live, e.1 + e.2 ≤ a := by
  refine ⟨fun a m => ⟨le_rfl, by simp⟩, fun a m live sz p a' m' ⟨h1, h2⟩ hr => ?_,
    fun a m live ⟨h1, h2⟩ _ e _ => ⟨fun _ _ _ _ _ => rfl, h1, fun e' he' => h2 e' (List.mem_of_mem_eraseP he')⟩,
    fun a m m' live h _ => h⟩
  unfold bump at hr
  simp only at hr
  split_ifs at hr with hle
  cases hr
  refine ⟨by omega, hle, fun e he x hx hx' => ?_, fun _ _ _ _ => rfl, by omega, fun e he => ?_⟩
  · have := h2 e he
    unfold Within at hx hx'
    omega
  · rcases List.mem_cons.mp he with rfl | he
    · exact le_rfl
    · have := h2 e he
      omega

/-- Two slots are filled in the setup; of the 32 rounds, one at each slot, 30 fill
theirs and two give back. -/
theorem balanced_run_bump : Act.wp (randomPos_RandomSize bump (fun _ => 5) (fun k => k) 3 32 32)
    (fun _ t => ∃ es, t.trace = .deinit :: es ∧ replay es = some []) Refused ⟨0, fun _ => 7, 0, 0, []⟩ :=
  balanced_run bump_honest _ _ le_rfl (by norm_num) (by norm_num) (fun k hk => hk) rfl

end AllocatorTester

end IibMalloc

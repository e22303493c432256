/-
# PageAllocatorNoCachingForTestPurposes: one block, from the front

All requests are served from one block of `allocFixedSize` bytes: the next
region begins at `currentPtr`, and nothing is taken back. Each of the three
requests moves `currentPtr` on before it compares it with the end of the block,
and leaves it there where it throws.

So the block is handed out as it should be exactly in the runs whose requests
all fit in it (`bump_run`): after one that does not, `currentPtr` is past the
end, or, where the sum wrapped around, anywhere before it.
-/
import IibMalloc.PageAllocator
import IibMalloc.Lib.Run

namespace IibMalloc

open Lib

structure PageAllocatorNoCachingForTestPurposes where
  basePtr : ℕ
  currentPtr : ℕ
  stats : BlockStats
  blockSizeExp : ℕ
  allocFixedSize : ℕ

namespace PageAllocatorNoCachingForTestPurposes

/-- `initialize` -/
def init (os : Os) (blockSizeExp : ℕ) : Act (St PageAllocatorNoCachingForTestPurposes) Unit := do
  Act.onSelf fun c => { c with blockSizeExp := blockSizeExp }
  Act.onSelf fun c => { c with allocFixedSize := 1 <<< 30 }
  let allocFixedSize ← Act.read fun s => s.c.allocFixedSize
  let basePtr ← Act.onWorld (VirtualMemory.allocate os allocFixedSize)
  Act.onSelf fun c => { c with basePtr := basePtr }
  Act.onSelf fun c => { c with stats := c.stats.registerSysAlloc allocFixedSize }
  Act.onSelf fun c => { c with currentPtr := basePtr }

/-- The body of the three requests. -/
def bump (sz : ℕ) : Act (St PageAllocatorNoCachingForTestPurposes) ℕ := do
  let ret ← Act.read fun s => s.c.currentPtr
  Act.onSelf fun c => { c with currentPtr := u64 (c.currentPtr + sz) }
  let c ← Act.read St.c
  if c.currentPtr > u64 (c.basePtr + c.allocFixedSize) then Act.throw else return ret

def getFreeBlock (sz : ℕ) : Act (St PageAllocatorNoCachingForTestPurposes) ℕ := bump sz

def getFreeBlockNoCache (sz : ℕ) : Act (St PageAllocatorNoCachingForTestPurposes) ℕ := bump sz

def AllocateAddressSpace (size : ℕ) : Act (St PageAllocatorNoCachingForTestPurposes) ℕ := bump size

/-! ### Runs -/

inductive BumpOp where
  | getFreeBlock (sz : ℕ)
  | getFreeBlockNoCache (sz : ℕ)
  | AllocateAddressSpace (size : ℕ)

namespace BumpOp

def size : BumpOp → ℕ
  | getFreeBlock sz => sz
  | getFreeBlockNoCache sz => sz
  | AllocateAddressSpace size => size

def call : BumpOp → Act (St PageAllocatorNoCachingForTestPurposes) ℕ
  | getFreeBlock sz => PageAllocatorNoCachingForTestPurposes.getFreeBlock sz
  | getFreeBlockNoCache sz => PageAllocatorNoCachingForTestPurposes.getFreeBlockNoCache sz
  | AllocateAddressSpace size => PageAllocatorNoCachingForTestPurposes.AllocateAddressSpace size

theorem call_eq (q : BumpOp) : q.call = bump q.size := by
  cases q with
  | getFreeBlock => rfl
  | getFreeBlockNoCache => rfl
  | AllocateAddressSpace => rfl

end BumpOp

structure BumpRun where
  s : St PageAllocatorNoCachingForTestPurposes
  /-- the regions returned, with the sizes asked for, latest first -/
  regions : List (ℕ × ℕ)

namespace BumpRun

def step (r : BumpRun) (q : BumpOp) : Option BumpRun :=
  match Act.exec q.call r.s with
  | .ret p t => some ⟨t, (p, q.size) :: r.regions⟩
  | .throw t => some ⟨t, r.regions⟩
  | .stuck => none

/-- The bytes handed out. -/
def given (r : BumpRun) : ℕ := (r.regions.map Prod.snd).sum

/-- The bytes of the block that were not handed out. -/
def remaining (r : BumpRun) : ℕ := r.s.c.allocFixedSize - r.given

/-- The state after `initialize`, from any state. -/
def Starts (os : Os) (r : BumpRun) : Prop :=
  ∃ s blockSizeExp, Act.exec (init os blockSizeExp) s = .ret () r.s ∧ r.regions = []

end BumpRun

/-- What is asked of a request: the regions are apart and in the block, one that
throws leaves `currentPtr`, and one that fits in what remains does not throw. -/
structure Serves (r : BumpRun) (q : BumpOp) (r' : BumpRun) : Prop where
  apart : r'.regions.Pairwise Apart
  inside : ∀ e ∈ r'.regions, r'.s.c.basePtr ≤ e.1 ∧ e.1 + e.2 ≤ r'.s.c.basePtr + r'.s.c.allocFixedSize
  unchanged : Act.exec q.call r.s = .throw r'.s → r'.s.c.currentPtr = r.s.c.currentPtr
  succeeds : q.size ≤ r.remaining → ∃ p, Act.exec q.call r.s = .ret p r'.s

/-- The request fits in what remains. -/
def Fits (r : BumpRun) (q : BumpOp) : Prop := q.size ≤ r.remaining

/-- The regions returned are the front of the block, up to `currentPtr`. -/
structure BumpInv (r : BumpRun) : Prop where
  size : r.s.c.allocFixedSize = 2 ^ 30
  lt : r.s.c.basePtr + r.s.c.allocFixedSize < 2 ^ 64
  current : r.s.c.currentPtr = r.s.c.basePtr + r.given
  given_le : r.given ≤ r.s.c.allocFixedSize
  apart : r.regions.Pairwise Apart
  inside : ∀ e ∈ r.regions, r.s.c.basePtr ≤ e.1 ∧ e.1 + e.2 ≤ r.s.c.currentPtr

variable {os : Os} {r r' r₀ : BumpRun} {q : BumpOp} {qs : List BumpOp}

/-- What a request does, in any state. -/
theorem exec_call (s : St PageAllocatorNoCachingForTestPurposes) (q : BumpOp) : Act.exec q.call s =
    if u64 (s.c.currentPtr + q.size) > u64 (s.c.basePtr + s.c.allocFixedSize) then
      .throw { s with c.currentPtr := u64 (s.c.currentPtr + q.size) }
    else .ret s.c.currentPtr { s with c.currentPtr := u64 (s.c.currentPtr + q.size) } := by
  rw [BumpOp.call_eq]
  show (if _ then Act.throw else pure _ : Act (St PageAllocatorNoCachingForTestPurposes) ℕ) _ = _
  split_ifs
  · rfl
  · rfl

theorem BumpRun.Starts.inv (h : r₀.Starts os) : BumpInv r₀ ∧ r₀.given = 0 := by
  obtain ⟨s, e, hs, hl⟩ := h
  have hspec : Act.wp (init os e) (fun _ t => t.c.allocFixedSize = 2 ^ 30 ∧
      t.c.basePtr + t.c.allocFixedSize < 2 ^ 64 ∧ t.c.currentPtr = t.c.basePtr) (fun _ => True) s := by
    simp only [init, Act.wp_bind, Act.wp_onSelf, Act.wp_read, Act.wp_onWorld, VirtualMemory.wp_allocate]
    exact ⟨fun a ha => ⟨rfl, (os.fresh ha).lt, trivial⟩, fun _ => trivial⟩
  obtain ⟨h1, h2, h3⟩ := Act.exec_ret hspec hs
  have hg : r₀.given = 0 := by
    rw [BumpRun.given, hl]
    rfl
  refine ⟨⟨h1, h2, ?_, ?_, ?_, fun x hx => ?_⟩, hg⟩
  · rw [h3, hg, Nat.add_zero]
  · rw [hg]
    exact Nat.zero_le _
  · rw [hl]
    exact .nil
  · rw [hl] at hx
    cases hx

/-- The sum of `currentPtr` and the size that a request compares with the end of
the block. -/
theorem BumpInv.exec_call (hI : BumpInv r) (q : BumpOp) : Act.exec q.call r.s =
    if u64 (r.s.c.currentPtr + q.size) > r.s.c.basePtr + r.s.c.allocFixedSize then
      .throw { r.s with c.currentPtr := u64 (r.s.c.currentPtr + q.size) }
    else .ret r.s.c.currentPtr { r.s with c.currentPtr := u64 (r.s.c.currentPtr + q.size) } := by
  have hend : u64 (r.s.c.basePtr + r.s.c.allocFixedSize) = r.s.c.basePtr + r.s.c.allocFixedSize :=
    Nat.mod_eq_of_lt hI.lt
  rw [PageAllocatorNoCachingForTestPurposes.exec_call, hend]

/-- The run with the next region of `n` bytes handed out. -/
def BumpRun.give (r : BumpRun) (n : ℕ) : BumpRun :=
  ⟨{ r.s with c.currentPtr := r.s.c.currentPtr + n }, (r.s.c.currentPtr, n) :: r.regions⟩

theorem BumpRun.given_give (r : BumpRun) (n : ℕ) : (r.give n).given = r.given + n := by
  simp [BumpRun.give, BumpRun.given, Nat.add_comm]

theorem BumpInv.give (hI : BumpInv r) {n : ℕ} (hn : n ≤ r.remaining) : BumpInv (r.give n) := by
  have hcur := hI.current
  have hle := hI.given_le
  have hn' : n ≤ r.s.c.allocFixedSize - r.given := hn
  have hgiven := r.given_give n
  refine ⟨hI.size, hI.lt, ?_, ?_, ?_, fun e he => ?_⟩
  · show r.s.c.currentPtr + n = r.s.c.basePtr + (r.give n).given
    omega
  · show (r.give n).given ≤ r.s.c.allocFixedSize
    omega
  · refine .cons (fun e he x hx hx' => ?_) hI.apart
    have hend := (hI.inside e he).2
    exact absurd (hend.trans hx.1) (Nat.not_le.mpr hx'.2)
  · show r.s.c.basePtr ≤ e.1 ∧ e.1 + e.2 ≤ r.s.c.currentPtr + n
    rcases List.mem_cons.mp he with rfl | he
    · exact ⟨by omega, Nat.le_refl _⟩
    · have := hI.inside e he
      omega

/-- A request that fits gets the next region. -/
theorem exec_fits (hI : BumpInv r) (hfit : Fits r q) :
    Act.exec q.call r.s = .ret r.s.c.currentPtr (r.give q.size).s := by
  have hlt := hI.lt
  have hcur := hI.current
  have hle := hI.given_le
  have hsize : q.size ≤ r.s.c.allocFixedSize - r.given := hfit
  have hsum : u64 (r.s.c.currentPtr + q.size) = r.s.c.currentPtr + q.size := Nat.mod_eq_of_lt (by omega)
  rw [hI.exec_call, hsum, if_neg (by omega)]
  rfl

theorem serves_of_fits (hI : BumpInv r) (hfit : Fits r q) : Serves r q (r.give q.size) := by
  have hinv := hI.give hfit
  have hcur := hinv.current
  have hle := hinv.given_le
  have hcall := exec_fits hI hfit
  refine ⟨hinv.apart, fun e he => ?_, fun h => ?_, fun _ => ⟨_, hcall⟩⟩
  · have := hinv.inside e he
    omega
  · rw [hcall] at h
    cases h

/-- A request that does not fit and whose sum stays below `2 ^ 64` throws, with
`currentPtr` past the end of the block. -/
theorem exec_past (hI : BumpInv r) (hfit : ¬ Fits r q) (hlt : r.s.c.currentPtr + q.size < 2 ^ 64) :
    Act.exec q.call r.s = .throw { r.s with c.currentPtr := r.s.c.currentPtr + q.size } := by
  have hcur := hI.current
  have hsize : ¬ q.size ≤ r.s.c.allocFixedSize - r.given := hfit
  have hsum : u64 (r.s.c.currentPtr + q.size) = r.s.c.currentPtr + q.size := Nat.mod_eq_of_lt hlt
  rw [hI.exec_call, hsum, if_pos (by omega)]

/-- A request whose sum wraps around gets a region that ends outside the block. -/
theorem exec_wraps (hI : BumpInv r) (hq : q.size < 2 ^ 64) (hge : 2 ^ 64 ≤ r.s.c.currentPtr + q.size) :
    Act.exec q.call r.s =
      .ret r.s.c.currentPtr { r.s with c.currentPtr := u64 (r.s.c.currentPtr + q.size) } := by
  have hlt := hI.lt
  have hcur := hI.current
  have hle := hI.given_le
  have hsum : u64 (r.s.c.currentPtr + q.size) = r.s.c.currentPtr + q.size - 2 ^ 64 := by
    rw [u64, Nat.mod_eq_sub_mod hge, Nat.mod_eq_of_lt (by omega)]
  rw [hI.exec_call, if_neg (by rw [hsum]; omega)]

theorem step_spec (hI : BumpInv r) (hq : q.size < 2 ^ 64) : ∃ r', r.step q = some r' ∧
    (Serves r q r' ↔ Fits r q) ∧ (Fits r q → r' = r.give q.size) := by
  by_cases hfit : Fits r q
  · refine ⟨r.give q.size, by rw [BumpRun.step, exec_fits hI hfit]; rfl, ?_, fun _ => rfl⟩
    exact ⟨fun _ => hfit, fun _ => serves_of_fits hI hfit⟩
  have hsize : ¬ q.size ≤ r.s.c.allocFixedSize - r.given := hfit
  by_cases hwrap : r.s.c.currentPtr + q.size < 2 ^ 64
  · have hcall := exec_past hI hfit hwrap
    refine ⟨_, by rw [BumpRun.step, hcall], ⟨fun h => ?_, fun h => absurd h hfit⟩, fun h => absurd h hfit⟩
    have hmoved : r.s.c.currentPtr + q.size = r.s.c.currentPtr := h.unchanged hcall
    omega
  · have hcall := exec_wraps hI hq (Nat.not_lt.mp hwrap)
    refine ⟨_, by rw [BumpRun.step, hcall], ⟨fun h => ?_, fun h => absurd h hfit⟩, fun h => absurd h hfit⟩
    have hin : r.s.c.currentPtr + q.size ≤ r.s.c.basePtr + r.s.c.allocFixedSize :=
      (h.inside _ (List.mem_cons_self ..)).2
    have hlt := hI.lt
    omega

/-- The requests all fit, each in what the ones before it left, if and only if
their sum does. -/
theorem along_fits_iff : ∀ {qs : List BumpOp} {r : BumpRun}, BumpInv r → (∀ q ∈ qs, q.size < 2 ^ 64) →
    (Along BumpRun.step (fun r q _ => Fits r q) r qs ↔
      r.given + (qs.map BumpOp.size).sum ≤ r.s.c.allocFixedSize)
  | [], r, hI, _ => by simpa [Along] using hI.given_le
  | q :: qs, r, hI, hqs => by
    obtain ⟨r', hr', -, hgive⟩ := step_spec hI (hqs q (List.mem_cons_self ..))
    have hrest (h : Fits r q) : Along BumpRun.step (fun r q _ => Fits r q) r' qs ↔
        r.given + q.size + (qs.map BumpOp.size).sum ≤ r.s.c.allocFixedSize := by
      rw [hgive h, ← r.given_give]
      exact along_fits_iff (hI.give h) fun p hp => hqs p (List.mem_cons_of_mem _ hp)
    rw [List.map_cons, List.sum_cons, ← Nat.add_assoc]
    constructor
    · rintro ⟨u, hu, hfit, h⟩
      obtain rfl : r' = u := Option.some.inj (hr'.symm.trans hu)
      exact (hrest hfit).mp h
    · intro h
      have hfit : Fits r q := by
        show q.size ≤ r.s.c.allocFixedSize - r.given
        omega
      exact ⟨r', hr', hfit, (hrest hfit).mpr h⟩

theorem admits_of_sizes : ∀ {qs : List BumpOp} {r : BumpRun}, (∀ q ∈ qs, q.size < 2 ^ 64) →
    Admits BumpRun.step (fun _ q => q.size < 2 ^ 64) r qs
  | [], _, _ => trivial
  | q :: _, _, h => ⟨h q (List.mem_cons_self ..), fun _ _ =>
      admits_of_sizes fun p hp => h p (List.mem_cons_of_mem _ hp)⟩

/-- A fresh machine, before `initialize`. -/
def raw : St PageAllocatorNoCachingForTestPurposes := ⟨⟨[], fun _ => 7, true⟩, ⟨0, 0, {}, 0, 0⟩⟩

def BumpRun.fresh : BumpRun :=
  match Act.exec (init (Os.linear 0) 15) raw with
  | .ret _ s => ⟨s, []⟩
  | .throw s => ⟨s, []⟩
  | .stuck => ⟨raw, []⟩

theorem BumpRun.fresh_starts : BumpRun.fresh.Starts (Os.linear 0) := by
  refine ⟨raw, 15, ?_⟩
  have hret : (Act.exec (init (Os.linear 0) 15) raw).returned.isSome := by decide +kernel
  obtain ⟨q, hq⟩ := Option.isSome_iff_exists.mp hret
  rw [fresh, Act.exec_of_returned hq]
  exact ⟨rfl, rfl⟩

/-- After `initialize`, every request of a run is served as it should be if and
only if the sizes of all requests add up to at most the block. -/
theorem bump_run (h₀ : r₀.Starts os) (hqs : ∀ q ∈ qs, q.size < 2 ^ 64) :
    Along BumpRun.step Serves r₀ qs ↔ (qs.map BumpOp.size).sum ≤ 2 ^ 30 := by
  obtain ⟨hI, hgiven⟩ := h₀.inv
  have hstep : ∀ r q, BumpInv r → q.size < 2 ^ 64 →
      ∃ r', r.step q = some r' ∧ (Serves r q r' ↔ Fits r q) ∧ (Fits r q → BumpInv r') := by
    intro r q hr hq
    obtain ⟨r', hr', hiff, hgive⟩ := step_spec hr hq
    exact ⟨r', hr', hiff, fun h => hgive h ▸ hr.give h⟩
  rw [Along.iff hstep hI (admits_of_sizes hqs), along_fits_iff hI hqs, hgiven, Nat.zero_add, hI.size]

/-- Two requests for all of the block. -/
theorem bump_run_full :
    Along BumpRun.step Serves .fresh [.getFreeBlock 4096, .AllocateAddressSpace (2 ^ 30 - 4096)] :=
  (bump_run BumpRun.fresh_starts (by decide)).mpr (by decide)

/-- A request for more than the block throws, and so does the next one, for which
there is room. A request that wraps around gets a region past the end of the block,
and the next one gets a region that was handed out before. -/
theorem not_bump_run : BumpRun.fresh.Starts (Os.linear 0) ∧
    ¬ Along BumpRun.step Serves .fresh [.getFreeBlock (2 ^ 30 + 4096), .getFreeBlock 4096] ∧
    (run BumpRun.step (fun _ _ => true) .fresh [.getFreeBlock (2 ^ 30 + 4096), .getFreeBlock 4096]).map
      BumpRun.regions = some [] ∧
    (run BumpRun.step (fun _ _ => true) .fresh
      [.getFreeBlock 4096, .getFreeBlockNoCache (2 ^ 64 - 4096), .AllocateAddressSpace 4096]).map BumpRun.regions =
      some [(4096, 4096), (8192, 2 ^ 64 - 4096), (4096, 4096)] := by
  refine ⟨BumpRun.fresh_starts, ?_, by decide +kernel, by decide +kernel⟩
  obtain ⟨hI, -⟩ := BumpRun.fresh_starts.inv
  obtain ⟨r, hr, hiff, -⟩ := step_spec hI (q := .getFreeBlock (2 ^ 30 + 4096)) (by decide)
  rintro ⟨u, hu, hserves, -⟩
  obtain rfl : r = u := Option.some.inj (hr.symm.trans hu)
  have hfit : 2 ^ 30 + 4096 ≤ BumpRun.fresh.remaining := hiff.mp hserves
  exact absurd hfit (by decide +kernel)

end PageAllocatorNoCachingForTestPurposes

end IibMalloc

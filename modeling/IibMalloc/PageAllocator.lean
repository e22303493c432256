/-
# page_allocator.h: statistics, cached blocks and the base page allocator

`PageAllocatorWithCaching` is the base class of the bucket page allocator, of
the bulk allocator and of their collections, each with an instance of its own.
They use it for page mappings that bypass the cache (`getFreeBlockNoCache`,
`freeChunkNoCache`) and for reserving and committing address space.

The cached blocks are rings of `MemoryBlockListItem`s through the sentinels
`freeBlocks[ix].lst`; `items` holds the sentinels and the headers at the start
of the blocks. The time stamps of `BlockStats` are left out.
-/
import IibMalloc.VirtualMemory
import Mathlib.Data.UInt

namespace IibMalloc

open Lib

/-- The counters are `uint64_t`s, and wrap around. -/
structure BlockStats where
  sysAllocCount : UInt64 := 0
  sysAllocSize : UInt64 := 0
  sysDeallocCount : UInt64 := 0
  sysDeallocSize : UInt64 := 0
  allocRequestCount : UInt64 := 0
  allocRequestSize : UInt64 := 0
  deallocRequestCount : UInt64 := 0
  deallocRequestSize : UInt64 := 0

namespace BlockStats

def registerAllocRequest (s : BlockStats) (sz : ℕ) : BlockStats :=
  { s with
    allocRequestSize := s.allocRequestSize + UInt64.ofNat sz
    allocRequestCount := s.allocRequestCount + 1 }

def registerDeallocRequest (s : BlockStats) (sz : ℕ) : BlockStats :=
  { s with
    deallocRequestSize := s.deallocRequestSize + UInt64.ofNat sz
    deallocRequestCount := s.deallocRequestCount + 1 }

def registerSysAlloc (s : BlockStats) (sz : ℕ) : BlockStats :=
  { s with
    sysAllocSize := s.sysAllocSize + UInt64.ofNat sz
    sysAllocCount := s.sysAllocCount + 1 }

def registerSysDealloc (s : BlockStats) (sz : ℕ) : BlockStats :=
  { s with
    sysDeallocSize := s.sysDeallocSize + UInt64.ofNat sz
    sysDeallocCount := s.sysDeallocCount + 1 }

/-- The numbers that `printStats` prints after `Diff`. -/
def diff (s : BlockStats) : UInt64 × UInt64 :=
  (s.sysAllocCount - s.sysDeallocCount, s.sysAllocSize - s.sysDeallocSize)

/-- `sysAlloc…` and `sysDealloc…`: count and size. -/
def sysCounters (s : BlockStats) : (UInt64 × UInt64) × (UInt64 × UInt64) :=
  ((s.sysAllocCount, s.sysAllocSize), (s.sysDeallocCount, s.sysDeallocSize))

/-- `allocRequest…` and `deallocRequest…`: count and size. -/
def requestCounters (s : BlockStats) : (UInt64 × UInt64) × (UInt64 × UInt64) :=
  ((s.allocRequestCount, s.allocRequestSize), (s.deallocRequestCount, s.deallocRequestSize))

/-- A number of blocks and their bytes, as two counters hold them. -/
def wrapped (v : ℕ × ℕ) : UInt64 × UInt64 := (UInt64.ofNat v.1, UInt64.ofNat v.2)

section Counters

variable (s : BlockStats) (n : ℕ) {v w : ℕ × ℕ}

@[simp] theorem wrapped_add : wrapped (v + w) = wrapped v + wrapped w :=
  Prod.ext (UInt64.ofNat_add _ _) (UInt64.ofNat_add _ _)

@[simp] theorem sysCounters_alloc : (s.registerSysAlloc n).sysCounters =
    (s.sysCounters.1 + wrapped (1, n), s.sysCounters.2) := rfl

@[simp] theorem sysCounters_dealloc : (s.registerSysDealloc n).sysCounters =
    (s.sysCounters.1, s.sysCounters.2 + wrapped (1, n)) := rfl

@[simp] theorem requestCounters_alloc : (s.registerAllocRequest n).requestCounters =
    (s.requestCounters.1 + wrapped (1, n), s.requestCounters.2) := rfl

@[simp] theorem requestCounters_dealloc : (s.registerDeallocRequest n).requestCounters =
    (s.requestCounters.1, s.requestCounters.2 + wrapped (1, n)) := rfl

@[simp] theorem sysCounters_request : (s.registerAllocRequest n).sysCounters = s.sysCounters := rfl

@[simp] theorem sysCounters_return : (s.registerDeallocRequest n).sysCounters = s.sysCounters := rfl

@[simp] theorem requestCounters_sysAlloc : (s.registerSysAlloc n).requestCounters = s.requestCounters := rfl

@[simp] theorem requestCounters_sysDealloc : (s.registerSysDealloc n).requestCounters = s.requestCounters := rfl

theorem diff_eq (h : s.sysCounters.1 = s.sysCounters.2 + wrapped v) : s.diff = wrapped v := by
  have h1 : s.sysAllocCount = s.sysDeallocCount + UInt64.ofNat v.1 := congrArg Prod.fst h
  have h2 : s.sysAllocSize = s.sysDeallocSize + UInt64.ofNat v.2 := congrArg Prod.snd h
  unfold diff wrapped
  rw [h1, h2, UInt64.add_comm, UInt64.add_sub_cancel, UInt64.add_comm, UInt64.add_sub_cancel]

end Counters

end BlockStats

/-- A pointer to a `MemoryBlockListItem`: null, the sentinel of a list, or the
header of a block. -/
inductive ItemPtr where
  | null
  | lst (ix : ℕ)
  | block (addr : ℕ)
deriving DecidableEq, Repr

structure MemoryBlockListItem where
  next : ItemPtr
  prev : ItemPtr
  size : ℕ
  sizeIndex : ℕ

def max_cached_size : ℕ := 20

structure PageAllocatorWithCaching where
  /-- `freeBlocks[ix].count` -/
  count : ℕ → ℕ
  items : ItemPtr → MemoryBlockListItem
  stats : BlockStats
  blockSizeExp : ℕ

namespace PageAllocatorWithCaching

/-- A change of one item. -/
def setItem (c : PageAllocatorWithCaching) (p : ItemPtr)
    (f : MemoryBlockListItem → MemoryBlockListItem) : PageAllocatorWithCaching :=
  { c with items := fun q => if q = p then f (c.items q) else c.items q }

/-- `MemoryBlockListItem::removeFromList` -/
def removeFromList (p : ItemPtr) : Act (St PageAllocatorWithCaching) Unit := do
  let item ← Act.read fun s => s.c.items p
  Act.assert (decide (item.prev ≠ .null))
  Act.assert (decide (item.next ≠ .null))
  Act.onSelf fun c => c.setItem item.prev fun i => { i with next := item.next }
  Act.onSelf fun c => c.setItem item.next fun i => { i with prev := item.prev }
  Act.onSelf fun c => c.setItem p fun i => { i with next := .null, prev := .null }

/-- `MemoryBlockList::popFront` of `freeBlocks[ix]` -/
def popFront (ix : ℕ) : Act (St PageAllocatorWithCaching) ItemPtr := do
  let count ← Act.read fun s => s.c.count ix
  Act.assert (decide (count ≠ 0))
  let chk ← Act.read fun s => (s.c.items (.lst ix)).next
  removeFromList chk
  Act.onSelf fun c => { c with count := fun i => if i = ix then (c.count i + (2 ^ 32 - 1)) % 2 ^ 32 else c.count i }
  return chk

/-- `initialize`: the lists `0, …, max_cached_size` are empty rings; the
statistics and the headers in the blocks stay. -/
def init (blockSizeExp : ℕ) : Act (St PageAllocatorWithCaching) Unit :=
  Act.onSelf fun c =>
    { c with
      blockSizeExp := blockSizeExp
      count := fun ix => if ix ≤ max_cached_size then 0 else c.count ix
      items := fun p => match p with
        | .lst ix => if ix ≤ max_cached_size then { c.items p with next := p, prev := p } else c.items p
        | _ => c.items p }

/-- The address of a header. -/
def addrOf : ItemPtr → ℕ
  | .block a => a
  | _ => 0

/-- The `while ( !freeBlocks[ix].empty() )` loop: each round takes one block,
so there are as many rounds as `count` says. -/
def drain (ix : ℕ) : ℕ → Act (St PageAllocatorWithCaching) Unit
  | 0 => return ()
  | n + 1 => do
    let chk ← popFront ix
    let sz ← Act.read fun s => (s.c.items chk).size
    Act.onWorld (VirtualMemory.deallocate (addrOf chk) sz)
    Act.onSelf fun c => { c with stats := c.stats.registerSysDealloc sz }
    drain ix n

/-- The lists from `ix` on, `n` of them. -/
def drainFrom : ℕ → ℕ → Act (St PageAllocatorWithCaching) Unit
  | _, 0 => return ()
  | ix, n + 1 => do
    let count ← Act.read fun s => s.c.count ix
    drain ix count
    drainFrom (ix + 1) n

/-- `deinitialize` -/
def deinit : Act (St PageAllocatorWithCaching) Unit := drainFrom 0 (max_cached_size + 1)

variable (os : Os)

def getFreeBlockNoCache (sz : ℕ) : Act (St PageAllocatorWithCaching) ℕ := do
  Act.onSelf fun c => { c with stats := c.stats.registerAllocRequest sz }
  let blockSizeExp ← Act.read fun s => s.c.blockSizeExp
  Act.assert (isAlignedExp (BitVec.ofNat 64 sz) blockSizeExp)
  let ptr ← Act.onWorld (VirtualMemory.allocate os sz)
  Act.onSelf fun c => { c with stats := c.stats.registerSysAlloc sz }
  if ptr ≠ 0 then return ptr else Act.throw

def freeChunkNoCache (block : ℕ) (sz : ℕ) : Act (St PageAllocatorWithCaching) Unit := do
  Act.onSelf fun c => { c with stats := c.stats.registerDeallocRequest sz }
  Act.onWorld (VirtualMemory.deallocate block sz)
  Act.onSelf fun c => { c with stats := c.stats.registerSysDealloc sz }

def AllocateAddressSpace (size : ℕ) : Act (St PageAllocatorWithCaching) ℕ :=
  Act.onWorld (VirtualMemory.AllocateAddressSpace os size)

def CommitMemory (addr : ℕ) (size : ℕ) : Act (St PageAllocatorWithCaching) ℕ := do
  Act.onSelf fun c => { c with stats := c.stats.registerAllocRequest size }
  Act.onWorld (VirtualMemory.CommitMemory os addr size)

/-! ### What the base class does for the others -/

/-- The base of an allocator that never caches a block: after `initialize` its
lists stay empty. -/
structure Idle (c : PageAllocatorWithCaching) : Prop where
  pages : c.blockSizeExp = PAGE_SIZE_EXP
  empty : ∀ ix ≤ max_cached_size, c.count ix = 0

theorem init_spec (s : St PageAllocatorWithCaching) {Q : Unit → St PageAllocatorWithCaching → Prop}
    {E : St PageAllocatorWithCaching → Prop} (h : ∀ c, Idle c → Q () ⟨s.w, c⟩) :
    Act.wp (init PAGE_SIZE_EXP) Q E s := by
  unfold init
  rw [Act.wp_onSelf]
  refine h _ ⟨rfl, fun ix hix => ?_⟩
  simp [hix]

variable {os} {s : St PageAllocatorWithCaching}

theorem Idle.of_stats (hs : Idle s.c) (st : BlockStats) : Idle { s.c with stats := st } :=
  ⟨hs.pages, hs.empty⟩

theorem getFreeBlockNoCache_spec (os : Os) (hs : Idle s.c) {sz : ℕ} (hsz : 4096 ∣ sz) :
    Act.wp (getFreeBlockNoCache os sz)
      (fun a t => os.mmap s.w.calls sz = some a ∧ t.w = s.w.allocated a sz ∧ Idle t.c)
      (fun t => os.mmap s.w.calls sz = none ∧ t.w = s.w.refused sz ∧ Idle t.c) s := by
  have ha : isAlignedExp (BitVec.ofNat 64 sz) s.c.blockSizeExp = true := by
    rw [hs.pages]; exact isAlignedExp_page hsz
  simp only [getFreeBlockNoCache, Act.wp_bind, Act.wp_onSelf, Act.wp_read, Act.wp_assert,
    Act.wp_onWorld, VirtualMemory.wp_allocate, Act.wp_ite, Act.wp_pure, Act.wp_throw, ha,
    Bool.and_true]
  refine ⟨fun a hm => ⟨fun _ => ⟨hm, trivial, hs.of_stats _⟩, fun h0 => ?_⟩,
    fun hm => ⟨hm, trivial, hs.of_stats _⟩⟩
  -- the operating system never answers 0
  exact absurd (os.fresh hm).pos (by omega)

theorem freeChunkNoCache_spec (hs : Idle s.c) (a : ℕ) {sz : ℕ} (hsz : 4096 ∣ sz) :
    Act.wp (freeChunkNoCache a sz) (fun _ t => t.w = s.w.released a sz ∧ Idle t.c)
      (fun _ => False) s := by
  have h0 : decide (sz % 4096 = 0) = true := decide_eq_true (Nat.mod_eq_zero_of_dvd hsz)
  simp only [freeChunkNoCache, Act.wp_bind, Act.wp_onSelf, Act.wp_onWorld,
    VirtualMemory.wp_deallocate, h0, Bool.and_true]
  exact ⟨rfl, hs.of_stats _⟩

theorem AllocateAddressSpace_spec (hs : Idle s.c) {sz : ℕ} :
    Act.wp (AllocateAddressSpace os sz)
      (fun a t => os.mmap s.w.calls sz = some a ∧ t.w = s.w.reserved a sz ∧ Idle t.c)
      (fun t => os.mmap s.w.calls sz = none ∧ t.w = s.w.refused sz ∧ Idle t.c) s := by
  simp only [AllocateAddressSpace, Act.wp_onWorld, VirtualMemory.wp_AllocateAddressSpace]
  exact ⟨fun a hm => ⟨hm, trivial, hs⟩, fun hm => ⟨hm, trivial, hs⟩⟩

theorem CommitMemory_spec (os : Os) (a sz : ℕ) (s : St PageAllocatorWithCaching) :
    Act.wp (CommitMemory os a sz)
      (fun _ t => t.w = s.w.committed a sz ∧ (Idle s.c → Idle t.c))
      (fun t => os.commits s.w.calls a sz = false ∧ t.w = s.w.refused sz ∧ (Idle s.c → Idle t.c)) s := by
  simp only [CommitMemory, Act.wp_bind, Act.wp_onSelf, Act.wp_onWorld,
    VirtualMemory.wp_CommitMemory]
  exact ⟨fun _ => ⟨trivial, fun hs => hs.of_stats _⟩, fun hc => ⟨hc, trivial, fun hs => hs.of_stats _⟩⟩

/-- With every list empty there is nothing to release. -/
theorem drainFrom_spec : ∀ (n ix : ℕ) (s : St PageAllocatorWithCaching), Idle s.c →
    ix + n ≤ max_cached_size + 1 → Act.wp (drainFrom ix n) (fun _ t => t = s) (fun _ => False) s
  | 0, _, _, _, _ => (Act.wp_pure _).mpr rfl
  | n + 1, ix, s, hs, hn => by
    have h0 : s.c.count ix = 0 := hs.empty ix (by omega)
    simp only [drainFrom, Act.wp_bind, Act.wp_read, h0, drain, Act.wp_pure]
    exact drainFrom_spec n (ix + 1) s hs (by omega)

theorem deinit_spec (hs : Idle s.c) : Act.wp deinit (fun _ t => t = s) (fun _ => False) s :=
  drainFrom_spec _ 0 s hs le_rfl

end PageAllocatorWithCaching

end IibMalloc

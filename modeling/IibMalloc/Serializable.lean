/-
# SerializableAllocatorBase: the allocator

A request up to `MaxBucketSize` gets an item of its bucket, from a list that is
kept in the items: the first word of a free item is the address of the next
one. Where the list is empty, a multipage of the bucket is cut into items
(`formatAllocatedPageAlignedBlock`). A larger request gets a chunk of the
`BulkAllocator`, behind its header.

`deallocate` has the address only. A chunk is told by its offset in the page,
`memForbidden`, which is why no item may start there; the bucket of an item is
told by its address.
-/
import IibMalloc.Bulk
import IibMalloc.BucketSizes
import IibMalloc.Sounding

namespace IibMalloc

open Lib

structure SerializableAllocatorBase where
  buckets : ℕ → ℕ
  bulkAllocator : BulkAllocator
  pageAllocator : SoundingAddressPageAllocator

namespace SerializableAllocatorBase

def MaxBucketSize : ℕ := PAGE_SIZE * 2
def BucketCountExp : ℕ := 6
def BucketCount : ℕ := 1 <<< BucketCountExp

/-- `alignUpExp( reservedSizeAtPageStart(), ALIGNMENT_EXP )` -/
def memForbidden : ℕ := (alignUpExp (BitVec.ofNat 64 BulkAllocator.reservedSizeAtPageStart) ALIGNMENT_EXP).toNat

@[simp] theorem memForbidden_eq : memForbidden = 16 := by decide

/-- A program of `bulkAllocator`. -/
def bulk {α : Type} (x : Act (St BulkAllocator) α) : Act (St SerializableAllocatorBase) α :=
  Act.onPart (·.bulkAllocator) (fun b c => { c with bulkAllocator := b }) x

/-- A program of `pageAllocator`. -/
def pages {α : Type} (x : Act (St SoundingAddressPageAllocator) α) :
    Act (St SerializableAllocatorBase) α :=
  Act.onPart (·.pageAllocator) (fun p c => { c with pageAllocator := p }) x

/-- `buckets[ idx ]` -/
def bucketAt (idx : ℕ) : Act (St SerializableAllocatorBase) ℕ := do
  Act.need fun _ => decide (idx < BucketCount)
  Act.read fun s => s.c.buckets idx

/-- `buckets[ idx ] = a` -/
def setBucket (idx a : ℕ) : Act (St SerializableAllocatorBase) Unit := do
  Act.need fun _ => decide (idx < BucketCount)
  Act.onSelf fun c => { c with buckets := fun i => if i = idx then a else c.buckets i }

/-! ### Items -/

/-- The loop over the items where none can be at the forbidden offset, from `i`
on. The fuel is spent by one in each round. -/
def linkAll (block bucketSz itemCnt : ℕ) : ℕ → ℕ → Act (St SerializableAllocatorBase) Unit
  | 0, i => if i < (itemCnt - 1) * bucketSz then Act.stuck else return ()
  | fuel + 1, i =>
    if i < (itemCnt - 1) * bucketSz then do
      Act.assert (decide (SoundingCfg.getOffsetInPage (i + bucketSz) ≠ memForbidden))
      Act.storeWord (block + i) (block + i + bucketSz)
      linkAll block bucketSz itemCnt fuel (i + bucketSz)
    else return ()

/-- The loop that leaves out an item at the forbidden offset. -/
def linkAllowed (block bucketSz itemCnt : ℕ) : ℕ → ℕ → Act (St SerializableAllocatorBase) Unit
  | 0, i => if i < (itemCnt - 1) * bucketSz then Act.stuck else return ()
  | fuel + 1, i =>
    if i < (itemCnt - 1) * bucketSz then
      if SoundingCfg.getOffsetInPage (i + bucketSz) ≠ memForbidden then do
        Act.storeWord (block + i) (block + i + bucketSz)
        linkAllowed block bucketSz itemCnt fuel (i + bucketSz)
      else do
        -- the source compares an offset in bytes with a number of items
        Act.assert (decide (i ≠ itemCnt - 2))
        Act.storeWord (block + i) (block + i + bucketSz + bucketSz)
        linkAllowed block bucketSz itemCnt fuel (i + bucketSz + bucketSz)
    else return ()

def formatAllocatedPageAlignedBlock (block blockSz bucketSz bucketidx : ℕ) :
    Act (St SerializableAllocatorBase) Bool :=
  if block = 0 then return false
  else do
    Act.assert (decide (SoundingCfg.getOffsetInPage block = 0))
    Act.assert (decide (SoundingCfg.getOffsetInPage blockSz = 0))
    let itemCnt := blockSz / bucketSz
    if bucketSz &&& (memForbidden * 2 - 1) = 0 then
      if itemCnt ≠ 0 then do
        linkAll block bucketSz itemCnt itemCnt 0
        Act.storeWord (block + (itemCnt - 1) * bucketSz) 0
        setBucket bucketidx block
        return true
      else return false
    else
      if itemCnt ≠ 0 then do
        linkAllowed block bucketSz itemCnt itemCnt 0
        Act.storeWord (block + (itemCnt - 1) * bucketSz) 0
        setBucket bucketidx block
        return true
      else return false

/-- The first item of a bucket is taken off its list. -/
def popItem (szidx : ℕ) : Act (St SerializableAllocatorBase) ℕ := do
  let ret ← bucketAt szidx
  let next ← Act.loadWord ret
  setBucket szidx next
  return ret

/-- `ptr` becomes the first item of the bucket. -/
def pushItem (idx ptr : ℕ) : Act (St SerializableAllocatorBase) Unit := do
  let head ← bucketAt idx
  Act.storeWord ptr head
  setBucket idx ptr

/-! ### allocate and deallocate -/

variable (os : Os)

def allocateInCaseNoFreeBucket (_sz szidx : ℕ) : Act (St SerializableAllocatorBase) ℕ := do
  let bucketSz := indexToBucketSizeHalfExp szidx
  Act.assert (decide (8 ≤ bucketSz))
  let mpData ← pages (SoundingAddressPageAllocator.getMultipage pageAllocatorT os szidx)
  let _ ← formatAllocatedPageAlignedBlock mpData.ptr1 mpData.sz1 bucketSz szidx
  let _ ← formatAllocatedPageAlignedBlock mpData.ptr2 mpData.sz2 bucketSz szidx
  popItem szidx

def allocateInCaseTooLargeForBucket (sz : ℕ) : Act (St SerializableAllocatorBase) ℕ := do
  let memStart := memForbidden
  let block ← bulk (BulkAllocator.allocate bulkAllocatorT os (u64 (sz + memStart)))
  return block + memStart

def allocate (sz : ℕ) : Act (St SerializableAllocatorBase) ℕ :=
  if sz ≤ MaxBucketSize then do
    let szidx := sizeToIndexHalfExp sz
    Act.assert (decide (szidx < BucketCount))
    let head ← bucketAt szidx
    if head ≠ 0 then popItem szidx
    else allocateInCaseNoFreeBucket os sz szidx
  else allocateInCaseTooLargeForBucket os sz

def deallocate (ptr : ℕ) : Act (St SerializableAllocatorBase) Unit :=
  if ptr ≠ 0 then
    if SoundingCfg.getOffsetInPage ptr ≠ memForbidden then pushItem (pageAllocatorT.addressToIdx ptr) ptr
    else bulk (BulkAllocator.deallocate bulkAllocatorT (SoundingCfg.ptrToPageStart ptr))
  else return ()

/-- `initialize` -/
def init : Act (St SerializableAllocatorBase) Unit := do
  Act.onSelf fun c => { c with buckets := fun i => if i < BucketCount then 0 else c.buckets i }
  pages (SoundingAddressPageAllocator.init pageAllocatorT PAGE_SIZE_EXP)
  bulk (BulkAllocator.init bulkAllocatorT PAGE_SIZE_EXP)

/-- `deinitialize`, with `fuel` rounds for each loop. -/
def deinit (fuel : ℕ) : Act (St SerializableAllocatorBase) Unit := do
  pages (SoundingAddressPageAllocator.deinit pageAllocatorT fuel)
  bulk (BulkAllocator.deinit bulkAllocatorT fuel)

/-! ### The rules of the buckets -/

section Rules

variable {s : St SerializableAllocatorBase} {E : St SerializableAllocatorBase → Prop} {idx a : ℕ}

@[simp] theorem wp_bucketAt {Q : ℕ → St SerializableAllocatorBase → Prop} :
    Act.wp (bucketAt idx) Q E s ↔ idx < BucketCount ∧ Q (s.c.buckets idx) s := by
  simp [bucketAt]

theorem exec_bucketAt (hi : idx < BucketCount) : Act.exec (bucketAt idx) s = .ret (s.c.buckets idx) s := by
  have hw : Act.wp (bucketAt idx) (fun a t => a = s.c.buckets idx ∧ t = s) (fun _ => False) s :=
    wp_bucketAt.mpr ⟨hi, rfl, rfl⟩
  obtain ⟨_, t, hx, rfl, rfl⟩ := Act.returns hw
  exact hx

/-- An item that is not mapped cannot be taken off its list. -/
theorem popItem_stuck (hi : idx < BucketCount) (ha : pageState s.w.calls (s.c.buckets idx) ≠ .committed) :
    Act.exec (popItem idx) s = .stuck := by
  unfold popItem Act.loadWord Act.deref
  rw [Act.exec_bind (exec_bucketAt hi)]
  exact Act.exec_bind_stuck (Act.exec_bind_stuck (Act.exec_need_not (decide_eq_false ha)))

@[simp] theorem wp_setBucket {Q : Unit → St SerializableAllocatorBase → Prop} :
    Act.wp (setBucket idx a) Q E s ↔ idx < BucketCount ∧
      Q () ⟨s.w, { s.c with buckets := fun i => if i = idx then a else s.c.buckets i }⟩ := by
  simp [setBucket]

theorem wp_popItem {Q : ℕ → St SerializableAllocatorBase → Prop} :
    Act.wp (popItem idx) Q E s ↔ idx < BucketCount ∧ pageState s.w.calls (s.c.buckets idx) = .committed ∧
      Q (s.c.buckets idx)
        ⟨s.w, { s.c with buckets := fun i => if i = idx then s.w.mem (s.c.buckets idx) else s.c.buckets i }⟩ := by
  simp only [popItem, Act.wp_bind, wp_bucketAt, Act.wp_loadWord, wp_setBucket, Act.wp_pure]
  tauto

theorem wp_pushItem {Q : Unit → St SerializableAllocatorBase → Prop} :
    Act.wp (pushItem idx a) Q E s ↔ idx < BucketCount ∧ pageState s.w.calls a = .committed ∧
      Q () ⟨⟨s.w.calls, store s.w.mem a (s.c.buckets idx), s.w.assertsHold⟩,
        { s.c with buckets := fun i => if i = idx then a else s.c.buckets i }⟩ := by
  simp only [pushItem, Act.wp_bind, wp_bucketAt, Act.wp_storeWord, wp_setBucket]
  tauto

end Rules

end SerializableAllocatorBase

end IibMalloc

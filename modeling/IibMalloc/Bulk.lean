/-
# BulkAllocator: chunks of whole pages

Blocks of `commited_block_size` bytes are cut into chunks of at most
`max_pages` pages; a larger request gets a mapping of its own. A chunk carries
its own header in the memory that is managed: word 0 is the address of the
chunk before it in the block plus its page count, word 1 that of the chunk
after it plus the flag `isFree`, and a chunk on a free list has `prevFree` and
`nextFree` in words 2 and 3, where a live chunk has the client's bytes.

A chunk of `n` pages goes to the free list `freeListBegin[n - 1]`, or to
`freeListBegin[max_pages]` where it is larger than any request. `allocate`
takes the first chunk of its size (`popExact`) or cuts its pages off a large
one (`newBlock`, `split`); `deallocate` merges with the neighbours that are
flagged (`mergeLeft`, `mergeRight`). An index outside `freeListBegin` is
undefined behaviour, and there the program is stuck.
-/
import IibMalloc.CollectionInPages

namespace IibMalloc

open Lib

/-- The template arguments that the `static_assert`s accept. -/
structure BulkCfg where
  commited_block_size : ℕ
  max_pages : ℕ
  block_pos : 0 < commited_block_size >>> PAGE_SIZE_EXP
  block_aligned : commited_block_size &&& PAGE_SIZE_MASK = 0
  max_pages_lt : max_pages < PAGE_SIZE

/-- The arguments `SerializableAllocatorBase` gives. -/
def bulkAllocatorT : BulkCfg where
  commited_block_size := 1 <<< 23
  max_pages := 32
  block_pos := by decide
  block_aligned := by decide
  max_pages_lt := by decide

def BulkCfg.pagesPerAllocatedBlock (cfg : BulkCfg) : ℕ := cfg.commited_block_size >>> PAGE_SIZE_EXP

structure BulkAllocator where
  base : PageAllocatorWithCaching
  blocks : CollectionInPages ℕ
  freeListBegin : ℕ → ℕ

/-! ### AnyChunkHeader -/

namespace AnyChunkHeader

section Fields

variable (mem : ℕ → ℕ) (h : ℕ)

def prevInBlock : ℕ := mem h &&& not64 PAGE_SIZE_MASK

def nextInBlock : ℕ := mem (h + 8) &&& not64 PAGE_SIZE_MASK

def getPageCount : ℕ := u16 (mem h &&& PAGE_SIZE_MASK)

def isFree : Bool := decide (mem (h + 8) &&& PAGE_SIZE_MASK ≠ 0)

/-- `FreeChunkHeader::prevFree` -/
def prevFree : ℕ := mem (h + 16)

/-- `FreeChunkHeader::nextFree` -/
def nextFree : ℕ := mem (h + 24)

end Fields

variable {C : Type}

/-- A field of the header at `h`, read from its word `h + i`. -/
def field {α : Type} (f : (ℕ → ℕ) → ℕ → α) (i h : ℕ) : Act (St C) α := do
  Act.deref (h + i)
  Act.read fun s => f s.w.mem h

def loadPrevInBlock : ℕ → Act (St C) ℕ := field prevInBlock 0
def loadNextInBlock : ℕ → Act (St C) ℕ := field nextInBlock 8
def loadPageCount : ℕ → Act (St C) ℕ := field getPageCount 0
def loadIsFree : ℕ → Act (St C) Bool := field isFree 8
def loadPrevFree : ℕ → Act (St C) ℕ := field prevFree 16
def loadNextFree : ℕ → Act (St C) ℕ := field nextFree 24

def storePrevFree (h v : ℕ) : Act (St C) Unit := Act.storeWord (h + 16) v
def storeNextFree (h v : ℕ) : Act (St C) Unit := Act.storeWord (h + 24) v

def set (cfg : BulkCfg) (h prevInBlock_ nextInBlock_ pageCount : ℕ) (isFree : Bool) : Act (St C) Unit := do
  Act.assert (decide (prevInBlock_ &&& PAGE_SIZE_MASK = 0))
  Act.assert (decide (nextInBlock_ &&& PAGE_SIZE_MASK = 0))
  Act.assert (decide (pageCount ≤ cfg.commited_block_size >>> PAGE_SIZE_EXP))
  Act.storeWord h (u64 (prevInBlock_ + pageCount))
  Act.storeWord (h + 8) (u64 (nextInBlock_ + isFree.toNat))

def setPrevInBlock (h prev_ : ℕ) : Act (St C) Unit := do
  Act.assert (decide (prev_ &&& PAGE_SIZE_MASK = 0))
  let prev ← Act.loadWord h
  Act.storeWord h (u64 ((prev_ &&& not64 PAGE_SIZE_MASK) + (prev &&& PAGE_SIZE_MASK)))

end AnyChunkHeader

open AnyChunkHeader

namespace BulkAllocator

/-- `sizeof( ListItem )` of the collection of blocks: two pointers. -/
def blockItemSize : ℕ := 16

/-- `sizeof( AnyChunkHeader )` -/
def reservedSizeAtPageStart : ℕ := 16

/-- A program of the base class. -/
def super {α : Type} (x : Act (St PageAllocatorWithCaching) α) : Act (St BulkAllocator) α :=
  Act.onPart (·.base) (fun b c => { c with base := b }) x

/-- A program of the collection. -/
def collection {α : Type} (x : Act (St (CollectionInPages ℕ)) α) : Act (St BulkAllocator) α :=
  Act.onPart (·.blocks) (fun b c => { c with blocks := b }) x

variable (cfg : BulkCfg)

/-- `freeListBegin[ i ]` -/
def freeListAt (i : ℕ) : Act (St BulkAllocator) ℕ := do
  Act.need fun _ => decide (i ≤ cfg.max_pages)
  Act.read fun s => s.c.freeListBegin i

/-- `freeListBegin[ i ] = h` -/
def setFreeList (i h : ℕ) : Act (St BulkAllocator) Unit := do
  Act.need fun _ => decide (i ≤ cfg.max_pages)
  Act.onSelf fun c => { c with freeListBegin := fun j => if j = i then h else c.freeListBegin j }

/-- The list of a chunk, from its page count less one as a `uint16_t`. -/
def listOf (pageCount : ℕ) : ℕ :=
  if u16 (pageCount + (2 ^ 16 - 1)) ≥ cfg.max_pages then cfg.max_pages else u16 (pageCount + (2 ^ 16 - 1))

/-- The page counts are equal, or both are larger than any request. -/
def sameClass (mem : ℕ → ℕ) (a b : ℕ) : Bool :=
  decide (getPageCount mem a = getPageCount mem b ∨
    cfg.max_pages < getPageCount mem a ∧ cfg.max_pages < getPageCount mem b)

/-- `removeFromFreeList`, the link to the item, where a chunk is before it. -/
def unlinkInner (item prevFree : ℕ) : Act (St BulkAllocator) Unit := do
  Act.assertThat fun s => sameClass cfg s.w.mem item prevFree
  let nextFree ← loadNextFree item
  storeNextFree prevFree nextFree

/-- And where it is the first of its list. -/
def unlinkFirst (item : ℕ) : Act (St BulkAllocator) Unit := do
  let pageCount ← loadPageCount item
  Act.assertThat fun s => decide (s.c.freeListBegin (listOf cfg pageCount) = item)
  let nextFree ← loadNextFree item
  setFreeList cfg (listOf cfg pageCount) nextFree
  Act.when (nextFree ≠ 0) (storePrevFree nextFree 0)

/-- `removeFromFreeList`, the link back to the item. -/
def unlinkBack (item nextFree : ℕ) : Act (St BulkAllocator) Unit := do
  Act.assertThat fun s => sameClass cfg s.w.mem item nextFree
  let prevFree ← loadPrevFree item
  storePrevFree nextFree prevFree

def removeFromFreeList (item : ℕ) : Act (St BulkAllocator) Unit := do
  let prevFree ← loadPrevFree item
  (if prevFree ≠ 0 then unlinkInner cfg item prevFree else unlinkFirst cfg item)
  let nextFree ← loadNextFree item
  Act.when (nextFree ≠ 0) (unlinkBack cfg item nextFree)

/-- `initialize` -/
def init (blockSizeExp : ℕ) : Act (St BulkAllocator) Unit := do
  super (PageAllocatorWithCaching.init blockSizeExp)
  Act.onSelf fun c =>
    { c with freeListBegin := fun i => if i ≤ cfg.max_pages then 0 else c.freeListBegin i }
  collection (CollectionInPages.init PAGE_SIZE_EXP)

/-- The pages of a request, rounded up. -/
def pageCountOf (szIncludingHeader : ℕ) : ℕ :=
  (ceilShift (BitVec.ofNat 64 szIncludingHeader) PAGE_SIZE_EXP).toNat

/-- `h` becomes the first chunk of the list `i`; its `prevFree` is null. -/
def pushFree (i h : ℕ) : Act (St BulkAllocator) Unit := do
  let first ← freeListAt cfg i
  storeNextFree h first
  Act.when (first ≠ 0) (storePrevFree first h)
  setFreeList cfg i h

/-- The first chunk of the list `i` is taken off. -/
def popFree (i : ℕ) : Act (St BulkAllocator) ℕ := do
  let ret ← freeListAt cfg i
  let nextFree ← loadNextFree ret
  setFreeList cfg i nextFree
  Act.when (nextFree ≠ 0) (storePrevFree nextFree 0)
  return ret

variable (os : Os)

/-- A block is obtained and listed, as one chunk. -/
def newBlock : Act (St BulkAllocator) Unit := do
  let h ← super (PageAllocatorWithCaching.getFreeBlockNoCache os cfg.commited_block_size)
  Act.assert (decide (h ≠ 0))
  let item ← collection (CollectionInPages.createNew os blockItemSize)
  CollectionInPages.derefItem blockItemSize item
  Act.onSelf fun c => { c with blocks := CollectionInPages.setItem item (fun _ => h) c.blocks }
  setFreeList cfg cfg.max_pages h
  set cfg h 0 0 (u16 cfg.pagesPerAllocatedBlock) true
  storeNextFree h 0
  storePrevFree h 0

/-- The first `pageCount` pages of the first chunk of the last list are cut off;
the rest becomes a chunk of its own. -/
def split (pageCount : ℕ) : Act (St BulkAllocator) ℕ := do
  let first ← freeListAt cfg cfg.max_pages
  Act.assert (decide (first ≠ 0))
  Act.assertThat fun s => decide (cfg.max_pages < getPageCount s.w.mem first)
  Act.assertThat fun s => decide (prevFree s.w.mem first = 0)
  let ret ← popFree cfg cfg.max_pages
  let updatedBegin := u64 (ret + pageCount <<< PAGE_SIZE_EXP)
  let next ← loadNextInBlock ret
  let pages ← loadPageCount ret
  set cfg updatedBegin ret next (u16 (pages + (2 ^ 16 - u16 pageCount))) true
  storePrevFree updatedBegin 0
  storeNextFree updatedBegin 0
  let prev ← loadPrevInBlock ret
  set cfg ret prev updatedBegin (u16 pageCount) false
  Act.assertThat fun s => decide (s.c.freeListBegin cfg.max_pages ≠ updatedBegin)
  let remainingPageCnt ← loadPageCount updatedBegin
  pushFree cfg (if remainingPageCnt > cfg.max_pages then cfg.max_pages
    else u64 (remainingPageCnt + (2 ^ 64 - 1))) updatedBegin
  return ret

/-- `allocate`, where the list of the size is empty. -/
def cut (pageCount : ℕ) : Act (St BulkAllocator) ℕ := do
  let first ← freeListAt cfg cfg.max_pages
  Act.when (first = 0) (newBlock cfg os)
  split cfg pageCount

/-- `allocate`, where the list of the size has a chunk. -/
def popExact (i first : ℕ) : Act (St BulkAllocator) ℕ := do
  Act.assertThat fun s =>
    decide (nextFree s.w.mem first = 0 ∨ prevFree s.w.mem (nextFree s.w.mem first) = first)
  Act.assertThat fun s => decide (prevFree s.w.mem first = 0)
  popFree cfg i

/-- `allocate`, for a request larger than any chunk. -/
def allocateLarge (pageCount : ℕ) : Act (St BulkAllocator) ℕ := do
  let ret ← super (PageAllocatorWithCaching.getFreeBlockNoCache os (u64 (pageCount <<< PAGE_SIZE_EXP)))
  set cfg ret (u64 (pageCount <<< PAGE_SIZE_EXP)) 0 0 false
  Act.assertThat fun s => decide (getPageCount s.w.mem ret = 0)
  return ret

def allocate (szIncludingHeader : ℕ) : Act (St BulkAllocator) ℕ := do
  let pageCount := pageCountOf szIncludingHeader
  if pageCount ≤ cfg.max_pages then do
    Act.assert (decide (pageCount ≤ 2 ^ 16 - 1))
    let first ← freeListAt cfg (u64 (pageCount + (2 ^ 64 - 1)))
    let ret ← (if first = 0 then cut cfg os pageCount
      else popExact cfg (u64 (pageCount + (2 ^ 64 - 1))) first)
    Act.assertThat fun s => decide (getPageCount s.w.mem ret ≤ cfg.max_pages)
    return ret
  else allocateLarge cfg os pageCount

/-- The chunk before `h` takes `h` in, where it is flagged. -/
def mergeLeft (h : ℕ) : Act (St BulkAllocator) ℕ := do
  let prev ← loadPrevInBlock h
  if prev = 0 then return h
  let free ← loadIsFree prev
  if free then do
    Act.assertThat fun s => decide (prevInBlock s.w.mem prev = 0) ||
      !isFree s.w.mem (prevInBlock s.w.mem prev)
    Act.assertThat fun s => decide (nextInBlock s.w.mem prev = h)
    -- the source compares the end of the chunk before `prev`
    Act.assertThat fun s => decide (u64 (prevInBlock s.w.mem prev +
      getPageCount s.w.mem (prevInBlock s.w.mem prev) <<< PAGE_SIZE_EXP) = h)
    removeFromFreeList cfg prev
    let before ← loadPrevInBlock prev
    let next ← loadNextInBlock h
    let prevPages ← loadPageCount prev
    let pages ← loadPageCount h
    set cfg prev before next (u16 (prevPages + pages)) true
    return prev
  else return h

/-- `h` takes the chunk after it in, where it is flagged. -/
def mergeRight (h : ℕ) : Act (St BulkAllocator) Unit := do
  let next ← loadNextInBlock h
  if next = 0 then return ()
  let free ← loadIsFree next
  if free then do
    Act.assertThat fun s => decide (nextInBlock s.w.mem next = 0) ||
      !isFree s.w.mem (nextInBlock s.w.mem next)
    Act.assertThat fun s => decide (prevInBlock s.w.mem next = h)
    Act.assertThat fun s => decide (u64 (h + getPageCount s.w.mem h <<< PAGE_SIZE_EXP) = next)
    removeFromFreeList cfg next
    let prev ← loadPrevInBlock h
    let after ← loadNextInBlock next
    let pages ← loadPageCount h
    let nextPages ← loadPageCount next
    set cfg h prev after (u16 (pages + nextPages)) true
  else return ()

def deallocate (ptr : ℕ) : Act (St BulkAllocator) Unit := do
  let pages ← loadPageCount ptr
  if pages ≠ 0 then do
    Act.assert (decide (pages ≤ cfg.max_pages))
    let h ← mergeLeft cfg ptr
    mergeRight cfg h
    let pages ← loadPageCount h
    storePrevFree h 0
    pushFree cfg (listOf cfg pages) h
  else do
    let deallocSize ← loadPrevInBlock ptr
    super (PageAllocatorWithCaching.freeChunkNoCache ptr deallocSize)

/-- `doForEach` with the functor of `deinitialize`: the block of each item from
`curr` on is given back. -/
def releaseBlocks : ℕ → ℕ → Act (St BulkAllocator) Unit
  | 0, curr => if curr ≠ 0 then Act.stuck else return ()
  | fuel + 1, curr =>
    if curr ≠ 0 then do
      CollectionInPages.derefItem blockItemSize curr
      let h ← Act.read fun s => (s.c.blocks.heap curr).item
      Act.assert (decide (h ≠ 0))
      super (PageAllocatorWithCaching.freeChunkNoCache h cfg.commited_block_size)
      CollectionInPages.derefItem blockItemSize curr
      let next ← Act.read fun s => (s.c.blocks.heap curr).next
      releaseBlocks fuel next
    else return ()

/-- `deinitialize`, with `fuel` rounds for each loop. -/
def deinit (fuel : ℕ) : Act (St BulkAllocator) Unit := do
  let head ← Act.read fun s => s.c.blocks.head
  releaseBlocks cfg fuel head
  collection (CollectionInPages.deinit blockItemSize fuel)
  Act.onSelf fun c =>
    { c with freeListBegin := fun i => if i ≤ cfg.max_pages then 0 else c.freeListBegin i }

/-! ### The rules of the accesses -/

section Rules

variable {cfg} {s : St BulkAllocator} {E : St BulkAllocator → Prop}

@[simp] theorem wp_field {α : Type} (f : (ℕ → ℕ) → ℕ → α) (i h : ℕ) {Q : α → St BulkAllocator → Prop} :
    Act.wp (field f i h) Q E s ↔ pageState s.w.calls (h + i) = .committed ∧ Q (f s.w.mem h) s := by
  simp [field]

@[simp] theorem wp_freeListAt (i : ℕ) {Q : ℕ → St BulkAllocator → Prop} :
    Act.wp (freeListAt cfg i) Q E s ↔ i ≤ cfg.max_pages ∧ Q (s.c.freeListBegin i) s := by
  simp [freeListAt]

@[simp] theorem wp_setFreeList (i h : ℕ) {Q : Unit → St BulkAllocator → Prop} :
    Act.wp (setFreeList cfg i h) Q E s ↔ i ≤ cfg.max_pages ∧
      Q () { s with c.freeListBegin := fun j => if j = i then h else s.c.freeListBegin j } := by
  simp [setFreeList]

end Rules

/-- From `s` to `t` only words in `P`, the free lists and the assertions have
changed. -/
structure Edits (P : ℕ → Prop) (s t : St BulkAllocator) : Prop where
  calls : t.w.calls = s.w.calls
  base : t.c.base = s.c.base
  blocks : t.c.blocks = s.c.blocks
  mem : ∀ x, ¬ P x → t.w.mem x = s.w.mem x

namespace Edits

variable {P P' : ℕ → Prop} {s t u : St BulkAllocator}

theorem refl : Edits P s s := ⟨rfl, rfl, rfl, fun _ _ => rfl⟩

theorem trans (h : Edits P s t) (h' : Edits P t u) : Edits P s u :=
  ⟨h'.calls.trans h.calls, h'.base.trans h.base, h'.blocks.trans h.blocks,
    fun x hx => (h'.mem x hx).trans (h.mem x hx)⟩

theorem mono (h : Edits P s t) (hP : ∀ x, P x → P' x) : Edits P' s t :=
  ⟨h.calls, h.base, h.blocks, fun x hx => h.mem x fun hp => hx (hP x hp)⟩

end Edits

end BulkAllocator

end IibMalloc

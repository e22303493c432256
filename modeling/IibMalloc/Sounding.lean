/-
# SoundingAddressPageAllocator: pages by bucket

Blocks of address space are reserved one after the other and listed, in that
order, through descriptors that a `CollectionInPages` holds. Each bucket takes
its own pages of each block: `indexHead[idx]` is the descriptor of the block
it has got to, `nextToUse[idx]` the next page there, and `nextToCommit[idx]`
the end of the pages committed so far, a batch at a time.

`getPage` has three branches: the block at the head has pages left
(`pageOfBlock`), the next one exists (`pageOfNextBlock`), or it is created
(`pageOfNewBlock`).

`wp_load` and `wp_change` are the rules for a descriptor. A batch of commits is
the runs of adjacent pages, two where the pages wrap around (`commitRange_runs`).
-/
import IibMalloc.CollectionInPages
import IibMalloc.SoundingLayout
import IibMalloc.Lib.Cells

namespace IibMalloc

open Lib

/-- A `PageBlockDescriptor*`: null, `&pageBlockListStart`, or an item of the
collection. -/
inductive DescPtr where
  | null
  | start
  | item (addr : ℕ)
deriving DecidableEq, Repr

structure PageBlockDescriptor where
  next : DescPtr
  blockAddress : ℕ
  nextToUse : ℕ → ℕ
  nextToCommit : ℕ → ℕ

instance : Inhabited PageBlockDescriptor := ⟨⟨.null, 0, fun _ => 0, fun _ => 0⟩⟩

/-- `sizeof( ListItem )` of the descriptors: two pointers and two arrays of
16-bit counters, aligned, and the link. -/
def SoundingCfg.descriptorSize (cfg : SoundingCfg) : ℕ := (16 + 4 * cfg.bucket_cnt + 7) / 8 * 8 + 8

structure SoundingAddressPageAllocator where
  base : PageAllocatorWithCaching
  pageBlockDescriptors : CollectionInPages PageBlockDescriptor
  pageBlockListStart : PageBlockDescriptor
  pageBlockListCurrent : DescPtr
  indexHead : ℕ → DescPtr

structure MultipageData where
  ptr1 : ℕ
  sz1 : ℕ
  ptr2 : ℕ
  sz2 : ℕ
deriving DecidableEq, Repr

/-- `*reinterpret_cast<uint8_t*>(ret) += 1`, the low byte of the word. -/
def testWrite {C : Type} (ret : ℕ) : Act (St C) Unit := do
  Act.deref ret
  Act.onWorld (Act.update fun w =>
    { w with mem := store w.mem ret (w.mem ret - w.mem ret % 256 + (w.mem ret % 256 + 1) % 256) })

namespace SoundingAddressPageAllocator

/-- `a[i] = v` -/
def put (a : ℕ → ℕ) (i v : ℕ) : ℕ → ℕ := fun x => if x = i then v else a x

def desc (c : SoundingAddressPageAllocator) : DescPtr → PageBlockDescriptor
  | .null => default
  | .start => c.pageBlockListStart
  | .item a => (c.pageBlockDescriptors.heap a).item

def setDesc (c : SoundingAddressPageAllocator) (f : PageBlockDescriptor → PageBlockDescriptor) :
    DescPtr → SoundingAddressPageAllocator
  | .null => c
  | .start => { c with pageBlockListStart := f c.pageBlockListStart }
  | .item a => { c with pageBlockDescriptors := CollectionInPages.setItem a f c.pageBlockDescriptors }

/-- A program of the base class. -/
def super {α : Type} (x : Act (St PageAllocatorWithCaching) α) :
    Act (St SoundingAddressPageAllocator) α :=
  Act.onPart (·.base) (fun b c => { c with base := b }) x

/-- A program of the collection. -/
def descriptors {α : Type} (x : Act (St (CollectionInPages PageBlockDescriptor)) α) :
    Act (St SoundingAddressPageAllocator) α :=
  Act.onPart (·.pageBlockDescriptors) (fun d c => { c with pageBlockDescriptors := d }) x

variable (cfg : SoundingCfg)

/-- The descriptor behind a pointer can be accessed. -/
def access (p : DescPtr) : Act (St SoundingAddressPageAllocator) Unit :=
  match p with
  | .null => Act.stuck
  | .start => return ()
  | .item a => CollectionInPages.derefItem cfg.descriptorSize a

def load (p : DescPtr) : Act (St SoundingAddressPageAllocator) PageBlockDescriptor := do
  access cfg p
  Act.read fun s => s.c.desc p

def change (p : DescPtr) (f : PageBlockDescriptor → PageBlockDescriptor) :
    Act (St SoundingAddressPageAllocator) Unit := do
  access cfg p
  Act.onSelf fun c => c.setDesc f p

def resetLists : Act (St SoundingAddressPageAllocator) Unit := do
  Act.onSelf fun c =>
    { c with
      pageBlockListStart :=
        { next := .null
          blockAddress := 0
          nextToUse := fun i =>
            if i < cfg.bucket_cnt then cfg.pages_per_bucket else c.pageBlockListStart.nextToUse i
          nextToCommit := fun i =>
            if i < cfg.bucket_cnt then cfg.pages_per_bucket else c.pageBlockListStart.nextToCommit i } }
  Act.onSelf fun c => { c with pageBlockListCurrent := .start }
  Act.onSelf fun c =>
    { c with indexHead := fun i => if i < cfg.bucket_cnt then c.pageBlockListCurrent else c.indexHead i }

/-- `initialize` -/
def init (blockSizeExp : ℕ) : Act (St SoundingAddressPageAllocator) Unit := do
  super (PageAllocatorWithCaching.init blockSizeExp)
  descriptors (CollectionInPages.init PAGE_SIZE_EXP)
  resetLists cfg

def idxToPageAddr (blockptr idx pagesUsed : ℕ) : Act (St SoundingAddressPageAllocator) ℕ := do
  Act.assert (decide (idx < cfg.bucket_cnt))
  Act.assert (decide (blockptr &&& PAGE_SIZE_MASK = 0))
  Act.assert (decide (cfg.addressToIdx (cfg.pageAddr blockptr idx pagesUsed) = idx))
  Act.assert (decide (blockptr ≤ cfg.pageAddr blockptr idx pagesUsed ∧
    cfg.pageAddr blockptr idx pagesUsed < u64 (blockptr + cfg.reservation_size)))
  return cfg.pageAddr blockptr idx pagesUsed

variable (os : Os)

/-- The loop of `commitRangeOfPageIndexes` and the commit after it: `n` rounds
from `i` on, with the pages from `start` to `prevNext` still to be committed. -/
def commitLoop (blockptr bucketIdx pageIdx : ℕ) :
    ℕ → ℕ → ℕ → ℕ → Act (St SoundingAddressPageAllocator) Unit
  | 0, _, start, prevNext => do
    let _ ← super (PageAllocatorWithCaching.CommitMemory os start (prevNext - start + PAGE_SIZE))
  | n + 1, i, start, prevNext => do
    let next ← idxToPageAddr cfg blockptr bucketIdx (pageIdx + i)
    if next = prevNext + PAGE_SIZE then commitLoop blockptr bucketIdx pageIdx n (i + 1) start next
    else do
      let _ ← super (PageAllocatorWithCaching.CommitMemory os start (prevNext - start + PAGE_SIZE))
      commitLoop blockptr bucketIdx pageIdx n (i + 1) next next

def commitRangeOfPageIndexes (blockptr bucketIdx pageIdx rangeSize : ℕ) :
    Act (St SoundingAddressPageAllocator) Unit := do
  let start ← idxToPageAddr cfg blockptr bucketIdx pageIdx
  commitLoop cfg os blockptr bucketIdx pageIdx (rangeSize - 1) 1 start start

def getNextBlock : Act (St SoundingAddressPageAllocator) ℕ :=
  super (PageAllocatorWithCaching.AllocateAddressSpace os cfg.reservation_size)

def createNextBlockAndGetPage (reasonIdx : ℕ) : Act (St SoundingAddressPageAllocator) ℕ := do
  Act.assert (decide (reasonIdx < cfg.bucket_cnt))
  let pb ← descriptors (CollectionInPages.createNew os cfg.descriptorSize)
  let block ← getNextBlock cfg os
  change cfg (.item pb) fun d => { d with blockAddress := block }
  change cfg (.item pb) fun d =>
    { d with
      nextToUse := fun i => if i < cfg.bucket_cnt then 0 else d.nextToUse i
      nextToCommit := fun i => if i < cfg.bucket_cnt then 0 else d.nextToCommit i
      next := .null }
  let current ← Act.read fun s => s.c.pageBlockListCurrent
  change cfg current fun d => { d with next := .item pb }
  Act.onSelf fun c => { c with pageBlockListCurrent := .item pb }
  let ret ← idxToPageAddr cfg block reasonIdx 0
  commitRangeOfPageIndexes cfg os block reasonIdx 0 cfg.commit_page_cnt
  change cfg (.item pb) fun d =>
    { d with
      nextToUse := put d.nextToUse reasonIdx 1
      nextToCommit := put d.nextToCommit reasonIdx (u16 cfg.commit_page_cnt) }
  testWrite ret
  return ret

/-- The batch at `nextToCommit[idx]`, where the pages committed are used up. -/
def commitBatch (idx : ℕ) (h : DescPtr) : Act (St SoundingAddressPageAllocator) Unit := do
  let d ← load cfg h
  if d.nextToUse idx = d.nextToCommit idx then do
    commitRangeOfPageIndexes cfg os d.blockAddress idx (d.nextToCommit idx) cfg.commit_page_cnt
    change cfg h fun d =>
      { d with
        nextToCommit := put d.nextToCommit idx (u16 (d.nextToCommit idx + cfg.commit_page_cnt)) }
  else return ()

/-- `getPage`, where the block at the head has pages left. -/
def pageOfBlock (idx : ℕ) (h : DescPtr) : Act (St SoundingAddressPageAllocator) ℕ := do
  let d ← load cfg h
  Act.assert (decide (d.nextToUse idx ≤ d.nextToCommit idx))
  commitBatch cfg os idx h
  let d ← load cfg h
  let ret ← idxToPageAddr cfg d.blockAddress idx (d.nextToUse idx)
  change cfg h fun d => { d with nextToUse := put d.nextToUse idx (u16 (d.nextToUse idx + 1)) }
  let d ← load cfg h
  Act.assert (decide (d.nextToUse idx ≤ d.nextToCommit idx))
  testWrite ret
  return ret

/-- `getPage`, where the next block is to be created. -/
def pageOfNewBlock (idx : ℕ) (h : DescPtr) : Act (St SoundingAddressPageAllocator) ℕ := do
  let current ← Act.read fun s => s.c.pageBlockListCurrent
  Act.assert (decide (h = current))
  let ret ← createNextBlockAndGetPage cfg os idx
  let current ← Act.read fun s => s.c.pageBlockListCurrent
  Act.onSelf fun c => { c with indexHead := fun i => if i = idx then current else c.indexHead i }
  let d ← load cfg current
  Act.assert (decide (d.next = .null))
  testWrite ret
  return ret

/-- The batch at `nextToCommit[idx]` of a block that is used the first time. -/
def commitFirst (idx : ℕ) (h : DescPtr) : Act (St SoundingAddressPageAllocator) Unit := do
  let d ← load cfg h
  if d.nextToUse idx = d.nextToCommit idx then
    commitRangeOfPageIndexes cfg os d.blockAddress idx (d.nextToCommit idx) cfg.commit_page_cnt
  else return ()

/-- `getPage`, where the next block, `next`, is to be used the first time. -/
def pageOfNextBlock (idx : ℕ) (next : DescPtr) : Act (St SoundingAddressPageAllocator) ℕ := do
  Act.onSelf fun c => { c with indexHead := fun i => if i = idx then next else c.indexHead i }
  let d ← load cfg next
  Act.assert (decide (d.blockAddress ≠ 0))
  Act.assert (decide (d.nextToUse idx = 0))
  Act.assert (decide (d.nextToCommit idx = 0))
  commitFirst cfg os idx next
  change cfg next fun d => { d with nextToCommit := put d.nextToCommit idx (u16 cfg.commit_page_cnt) }
  let d ← load cfg next
  let ret ← idxToPageAddr cfg d.blockAddress idx (d.nextToUse idx)
  change cfg next fun d => { d with nextToUse := put d.nextToUse idx 1 }
  let d ← load cfg next
  Act.assert (decide (d.nextToUse idx ≤ d.nextToCommit idx))
  testWrite ret
  return ret

def getPage (idx : ℕ) : Act (St SoundingAddressPageAllocator) ℕ := do
  Act.assert (decide (idx < cfg.bucket_cnt))
  let h ← Act.read fun s => s.c.indexHead idx
  Act.assert (decide (h ≠ .null))
  let d ← load cfg h
  if d.nextToUse idx < cfg.pages_per_bucket then pageOfBlock cfg os idx h
  else if d.next = .null then pageOfNewBlock cfg os idx h
  else pageOfNextBlock cfg os idx d.next

/-- A loop of `getMultipage`: at most `n` pages, as long as they are adjacent
to the `sz` bytes from `ptr`. It leaves the size and, where a page was not
adjacent, that page and the rounds left. -/
def extend (idx ptr : ℕ) : ℕ → ℕ → Act (St SoundingAddressPageAllocator) (ℕ × Option (ℕ × ℕ))
  | 0, sz => return (sz, none)
  | n + 1, sz => do
    let nextPage ← getPage cfg os idx
    Act.assert (decide (nextPage ≠ 0))
    if ptr + sz = nextPage then extend idx ptr n (sz + PAGE_SIZE)
    else return (sz, some (nextPage, n))

/-- The part of `getMultipage` after its first loop. -/
def secondSegment (idx ptr1 sz1 : ℕ) : Option (ℕ × ℕ) → Act (St SoundingAddressPageAllocator) MultipageData
  | none => do
    Act.assert (decide (sz1 + 0 = cfg.multipage_page_cnt <<< PAGE_SIZE_EXP))
    return ⟨ptr1, sz1, 0, 0⟩
  | some (nextPage, n) => do
    let (sz2, rest) ← extend cfg os idx nextPage n PAGE_SIZE
    Act.assert rest.isNone
    Act.assert (decide (sz1 + sz2 = cfg.multipage_page_cnt <<< PAGE_SIZE_EXP))
    return ⟨ptr1, sz1, nextPage, sz2⟩

/-- For one page the source has a branch of its own, with the result the loops
would give; its `asserrt` is read as `assert`. -/
def getMultipage (idx : ℕ) : Act (St SoundingAddressPageAllocator) MultipageData := do
  let ptr1 ← getPage cfg os idx
  if cfg.multipage_page_cnt = 1 then do
    Act.assert (decide (ptr1 ≠ 0))
    Act.assert (decide (PAGE_SIZE + 0 = cfg.multipage_page_cnt <<< PAGE_SIZE_EXP))
    return ⟨ptr1, PAGE_SIZE, 0, 0⟩
  else do
    let (sz1, rest) ← extend cfg os idx ptr1 (cfg.multipage_page_cnt - 1) PAGE_SIZE
    secondSegment cfg os idx ptr1 sz1 rest

/-- The address a new block would get: `createNew` asks for a page first where
it has no free descriptor. -/
def nextBlock (s : St SoundingAddressPageAllocator) : Option ℕ :=
  if s.c.pageBlockDescriptors.freeList ≠ 0 then os.mmap s.w.calls cfg.reservation_size
  else (os.mmap s.w.calls PAGE_SIZE).bind fun p =>
    os.mmap (.allocate p PAGE_SIZE :: s.w.calls) cfg.reservation_size

/-- The block and the page number in it that the next page of bucket `idx` comes
from. -/
def nextPage (s : St SoundingAddressPageAllocator) (idx : ℕ) : Option (ℕ × ℕ) :=
  let d := s.c.desc (s.c.indexHead idx)
  if d.nextToUse idx < cfg.pages_per_bucket then some (d.blockAddress, d.nextToUse idx)
  else if d.next = .null then (nextBlock cfg os s).map fun b => (b, 0)
  else some ((s.c.desc d.next).blockAddress, 0)

/-- The loop of `deinitialize`: the next descriptor is read after its block
was released. -/
def releaseBlocks : ℕ → DescPtr → Act (St SoundingAddressPageAllocator) Unit
  | 0, next => if next ≠ .null then Act.stuck else return ()
  | fuel + 1, next =>
    if next ≠ .null then do
      let d ← load cfg next
      Act.assert (decide (d.blockAddress ≠ 0))
      super (PageAllocatorWithCaching.freeChunkNoCache d.blockAddress cfg.reservation_size)
      let d ← load cfg next
      releaseBlocks fuel d.next
    else return ()

/-- `deinitialize`, with `fuel` rounds for each loop. -/
def deinit (fuel : ℕ) : Act (St SoundingAddressPageAllocator) Unit := do
  let next ← Act.read fun s => s.c.pageBlockListStart.next
  releaseBlocks cfg fuel next
  descriptors (CollectionInPages.deinit cfg.descriptorSize fuel)
  resetLists cfg
  super PageAllocatorWithCaching.deinit

variable {cfg os}

/-! ### Descriptors -/

/-- The bytes behind a pointer are mapped. -/
def Accessible (cfg : SoundingCfg) (calls : List OsCall) : DescPtr → Prop
  | .null => False
  | .start => True
  | .item a => pageState calls a = .committed ∧
      pageState calls (a + (cfg.descriptorSize - 1)) = .committed

section Rules

variable {s : St SoundingAddressPageAllocator} {E : St SoundingAddressPageAllocator → Prop} {p : DescPtr}

@[simp] theorem wp_access {Q : Unit → St SoundingAddressPageAllocator → Prop} :
    Act.wp (access cfg p) Q E s ↔ Accessible cfg s.w.calls p ∧ Q () s := by
  cases p <;> simp [access, Accessible, CollectionInPages.derefItem, and_assoc]

@[simp] theorem wp_load {Q : PageBlockDescriptor → St SoundingAddressPageAllocator → Prop} :
    Act.wp (load cfg p) Q E s ↔ Accessible cfg s.w.calls p ∧ Q (s.c.desc p) s := by
  simp [load]

@[simp] theorem wp_change {f : PageBlockDescriptor → PageBlockDescriptor}
    {Q : Unit → St SoundingAddressPageAllocator → Prop} :
    Act.wp (change cfg p f) Q E s ↔
      Accessible cfg s.w.calls p ∧ Q () { s with c := s.c.setDesc f p } := by
  simp [change]

end Rules

theorem Accessible.ne_null {calls : List OsCall} {p : DescPtr} (h : Accessible cfg calls p) :
    p ≠ .null := by
  rintro rfl
  exact h

theorem Accessible.mono {w w' : World} {p : DescPtr} (h : Accessible cfg w.calls p)
    (hg : Grows w w') : Accessible cfg w'.calls p := by
  cases p with
  | null => exact h
  | start => exact h
  | item a => exact ⟨(hg _).1 h.1, (hg _).1 h.2⟩

theorem desc_setDesc {c : SoundingAddressPageAllocator}
    {f : PageBlockDescriptor → PageBlockDescriptor} {p : DescPtr} (hp : p ≠ .null) (q : DescPtr) :
    (c.setDesc f p).desc q = if q = p then f (c.desc q) else c.desc q := by
  cases p with
  | null => exact absurd rfl hp
  | start => cases q <;> simp [setDesc, desc]
  | item a =>
    cases q with
    | null => simp [desc]
    | start => simp [desc, setDesc]
    | item b =>
      simp only [desc, setDesc, CollectionInPages.setItem, DescPtr.item.injEq]
      split_ifs <;> rfl

@[simp] theorem setDesc_base (c : SoundingAddressPageAllocator)
    (f : PageBlockDescriptor → PageBlockDescriptor) (p : DescPtr) : (c.setDesc f p).base = c.base := by
  cases p <;> rfl

@[simp] theorem setDesc_current (c : SoundingAddressPageAllocator)
    (f : PageBlockDescriptor → PageBlockDescriptor) (p : DescPtr) :
    (c.setDesc f p).pageBlockListCurrent = c.pageBlockListCurrent := by
  cases p <;> rfl

@[simp] theorem setDesc_indexHead (c : SoundingAddressPageAllocator)
    (f : PageBlockDescriptor → PageBlockDescriptor) (p : DescPtr) :
    (c.setDesc f p).indexHead = c.indexHead := by
  cases p <;> rfl

theorem setDesc_coll {c : SoundingAddressPageAllocator} {n : ℕ} {calls : List OsCall}
    {pages used free : List ℕ} (f : PageBlockDescriptor → PageBlockDescriptor) (p : DescPtr)
    (h : CollectionInPages.CollInv n calls c.pageBlockDescriptors pages used free) :
    CollectionInPages.CollInv n calls (c.setDesc f p).pageBlockDescriptors pages used free := by
  cases p with
  | null => exact h
  | start => exact h
  | item a => exact h.setItem a f

/-! ### Committing a range of pages -/

/-- The address lies in one of the pages `lo, …, hi - 1` of a bucket. -/
def InPages (cfg : SoundingCfg) (b idx lo hi x : ℕ) : Prop :=
  ∃ t, lo ≤ t ∧ t < hi ∧ Within (cfg.pageAddr b idx t) 4096 x

variable {b idx k : ℕ}

/-- What `idxToPageAddr` asserts of a page of a block. -/
theorem idxToPageAddr_asserts (hb : cfg.BlockAt b) (hidx : idx < cfg.bucket_cnt) (hk : k < cfg.pages_per_bucket) :
    b &&& PAGE_SIZE_MASK = 0 ∧ cfg.addressToIdx (cfg.pageAddr b idx k) = idx ∧
      b ≤ cfg.pageAddr b idx k ∧ cfg.pageAddr b idx k < u64 (b + cfg.reservation_size) := by
  have h1 := SoundingCfg.pageAddr_mem hb hidx hk
  rw [and_page_mask, u64_of_lt hb.lt]
  exact ⟨Nat.mod_eq_zero_of_dvd hb.aligned, SoundingCfg.addressToIdx_pageAddr hidx hk, h1.1, by omega⟩

theorem wp_idxToPageAddr (hb : cfg.BlockAt b) (hidx : idx < cfg.bucket_cnt)
    (hk : k < cfg.pages_per_bucket) {s : St SoundingAddressPageAllocator}
    {Q : ℕ → St SoundingAddressPageAllocator → Prop} {E : St SoundingAddressPageAllocator → Prop} :
    Act.wp (idxToPageAddr cfg b idx k) Q E s ↔ Q (cfg.pageAddr b idx k) s := by
  obtain ⟨h1, h2, h3⟩ := idxToPageAddr_asserts hb hidx hk
  simp only [idxToPageAddr, Act.wp_bind, Act.wp_assert, Act.wp_pure, hidx, h1, h2, h3, decide_true, Bool.and_true,
    and_self]

/-- What a commit of pages `lo, …, hi - 1` did: the ranges `rs` are those
pages, and apart from each other. -/
structure Commits (cfg : SoundingCfg) (b idx lo hi : ℕ) (rs : List (ℕ × ℕ)) : Prop where
  inPages : ∀ r ∈ rs, ∀ x, Within r.1 r.2 x → InPages cfg b idx lo hi x
  apart : rs.Pairwise Apart

/-- A component after a commit: only the base class has changed. -/
def SameButBase (c c' : SoundingAddressPageAllocator) : Prop :=
  c' = { c with base := c'.base } ∧ c'.base.Idle

theorem SameButBase.trans {c c' c'' : SoundingAddressPageAllocator} (h : SameButBase c c')
    (h' : SameButBase c' c'') : SameButBase c c'' := by
  refine ⟨h'.1.trans ?_, h'.2⟩
  rw [h.1]

/-- From `s` to `t` only the base class has changed, and it left the world as
`w`; for a block in the address space no assertion failed. -/
structure Left (cfg : SoundingCfg) (b : ℕ) (s t : St SoundingAddressPageAllocator) (w : World) : Prop where
  world : t.w = { w with assertsHold := t.w.assertsHold }
  asserts : cfg.BlockAt b → t.w.assertsHold = s.w.assertsHold
  self : t.c = { s.c with base := t.c.base }
  idle : s.c.base.Idle → t.c.base.Idle

namespace Left

variable {s t u : St SoundingAddressPageAllocator} {w : World}

theorem trans {f : World → World} (hf : ∀ w v, f { w with assertsHold := v } = { f w with assertsHold := v })
    (h : Left cfg b s t w) (h' : Left cfg b t u (f t.w)) : Left cfg b s u (f w) := by
  refine ⟨?_, fun hb => (h'.asserts hb).trans (h.asserts hb), ?_, fun hs => h'.idle (h.idle hs)⟩
  · have hw := h'.world
    rw [h.world, hf] at hw
    exact hw
  · have hc := h'.self
    rw [h.self] at hc
    exact hc

theorem commits {l : List (ℕ × ℕ)} (h : Left cfg b s t w) (h' : Left cfg b t u (t.w.committedAll l)) :
    Left cfg b s u (w.committedAll l) :=
  trans (f := fun w => w.committedAll l) (World.committedAll_asserts l) h h'

theorem refuses {l : List (ℕ × ℕ)} {n : ℕ} (h : Left cfg b s t w)
    (h' : Left cfg b t u ((t.w.committedAll l).refused n)) : Left cfg b s u ((w.committedAll l).refused n) :=
  trans (f := fun w => (w.committedAll l).refused n) (World.refused_asserts l n) h h'

end Left

theorem idxToPageAddr_spec (hidx : idx < cfg.bucket_cnt) (hk : k < cfg.pages_per_bucket)
    (s : St SoundingAddressPageAllocator) :
    Act.wp (idxToPageAddr cfg b idx k) (fun a t => a = cfg.pageAddr b idx k ∧ Left cfg b s t s.w) (fun _ => False) s := by
  simp only [idxToPageAddr, Act.wp_bind, Act.wp_assert, Act.wp_pure]
  refine ⟨trivial, rfl, fun hb => ?_, rfl, id⟩
  obtain ⟨h1, h2, h3⟩ := idxToPageAddr_asserts hb hidx hk
  simp only [hidx, h1, h2, h3, decide_true, Bool.and_true, and_self]

theorem commitMemory_spec (cfg : SoundingCfg) (os : Os) (b a n : ℕ) (s : St SoundingAddressPageAllocator) :
    Act.wp (super (PageAllocatorWithCaching.CommitMemory os a n)) (fun _ t => Left cfg b s t (s.w.committed a n))
      (fun t => os.commits s.w.calls a n = false ∧ Left cfg b s t (s.w.refused n)) s := by
  rw [super, Act.wp_onPart]
  refine Act.wp_mono (PageAllocatorWithCaching.CommitMemory_spec os a n ⟨s.w, s.c.base⟩) ?_ ?_
  · intro _ t hpost
    obtain ⟨hw, hidle⟩ := hpost
    exact ⟨by rw [hw], fun _ => by rw [hw]; rfl, rfl, hidle⟩
  · intro t hpost
    obtain ⟨hc, hw, hidle⟩ := hpost
    exact ⟨hc, by rw [hw], fun _ => by rw [hw]; rfl, rfl, hidle⟩

/-- What `commitRangeOfPageIndexes` leaves where it returns: the pages are
committed, in ranges that are apart. -/
def LoopDone (cfg : SoundingCfg) (b idx lo hi : ℕ) (s t : St SoundingAddressPageAllocator) : Prop :=
  SameButBase s.c t.c ∧ ∃ rs, t.w = s.w.committedAll rs ∧ Commits cfg b idx lo hi rs ∧
    ∀ x, InPages cfg b idx lo hi x → ∃ r ∈ rs, Within r.1 r.2 x

/-- What it leaves where it throws: a range was refused. -/
def LoopThrew (cfg : SoundingCfg) (os : Os) (b idx lo hi : ℕ) (s t : St SoundingAddressPageAllocator) :
    Prop :=
  SameButBase s.c t.c ∧ ∃ rs m, t.w = (s.w.committedAll rs).refused m ∧
    Commits cfg b idx lo hi rs ∧ ∃ cs a n, os.commits cs a n = false

/-- The ranges that were committed until one was refused. -/
def RefusedIn (cfg : SoundingCfg) (os : Os) (b : ℕ) (s t : St SoundingAddressPageAllocator) (rs : List (ℕ × ℕ)) : Prop :=
  ∃ rs₁ r rs₂, rs = rs₁ ++ r :: rs₂ ∧ Left cfg b s t ((s.w.committedAll rs₁).refused r.2) ∧
    ∃ cs, os.commits cs r.1 r.2 = false

/-- The loop commits the runs of adjacent pages, in order. -/
theorem commitLoop_spec (os : Os) (hidx : idx < cfg.bucket_cnt) (n i start prevNext : ℕ)
    (s : St SoundingAddressPageAllocator) (hn : k + i + n ≤ cfg.pages_per_bucket) :
    Act.wp (commitLoop cfg os b idx k n i start prevNext)
      (fun _ t => Left cfg b s t (s.w.committedAll (runsFrom PAGE_SIZE (cfg.pageAddr b idx) n (k + i) start prevNext)))
      (fun t => RefusedIn cfg os b s t (runsFrom PAGE_SIZE (cfg.pageAddr b idx) n (k + i) start prevNext)) s := by
  induction n generalizing i start prevNext s with
  | zero =>
    rw [commitLoop, Act.wp_bind]
    refine Act.wp_mono (commitMemory_spec cfg os b start (prevNext - start + PAGE_SIZE) s) ?_ ?_
    · intro _ t ht
      exact (Act.wp_pure _).mpr ht
    · intro t hpost
      obtain ⟨hc, ht⟩ := hpost
      exact ⟨[], _, [], rfl, ht, _, hc⟩
  | succ n ih =>
    rw [commitLoop, Act.wp_bind]
    refine Act.wp_mono (idxToPageAddr_spec hidx (by omega) s) ?_ fun _ ht => ht.elim
    intro a t hpost
    obtain ⟨ha, ht⟩ := hpost
    rw [ha, runsFrom]
    split_ifs with hnext
    · -- the next page is adjacent: it joins the range
      refine Act.wp_mono (ih (i + 1) start _ t (by omega)) ?_ ?_
      · intro _ u hu
        exact ht.commits hu
      · intro u hpost
        obtain ⟨rs₁, r, rs₂, hrs, hu, hc⟩ := hpost
        exact ⟨rs₁, r, rs₂, hrs, ht.refuses hu, hc⟩
    · -- the range ends here: it is committed, and the next page starts another
      rw [Act.wp_bind]
      refine Act.wp_mono (commitMemory_spec cfg os b start (prevNext - start + PAGE_SIZE) t) ?_ ?_
      · intro _ u hu
        have hsu := ht.commits (l := [(start, prevNext - start + PAGE_SIZE)]) hu
        refine Act.wp_mono (ih (i + 1) _ _ u (by omega)) ?_ ?_
        · intro _ v hv
          exact hsu.commits hv
        · intro v hpost
          obtain ⟨rs₁, r, rs₂, hrs, hv, hc⟩ := hpost
          exact ⟨_ :: rs₁, r, rs₂, congrArg _ hrs, hsu.refuses hv, hc⟩
      · intro u hpost
        obtain ⟨hc, hu⟩ := hpost
        exact ⟨[], _, _, rfl, ht.refuses (l := []) hu, _, hc⟩

/-- The runs of adjacent pages among the `c` pages from the `k`th on. -/
def commitRuns (cfg : SoundingCfg) (b idx k c : ℕ) : List (ℕ × ℕ) :=
  runsFrom PAGE_SIZE (cfg.pageAddr b idx) (c - 1) (k + 1) (cfg.pageAddr b idx k) (cfg.pageAddr b idx k)

theorem mem_commitRuns {c x : ℕ} (hc : 0 < c) :
    (∃ r ∈ commitRuns cfg b idx k c, Within r.1 r.2 x) ↔ InPages cfg b idx k (k + c) x := by
  have h := mem_runsFrom (n := c - 1) (x := x) (OpenRun.single PAGE_SIZE (cfg.pageAddr b idx) k) (by decide)
  rwa [show k + 1 + (c - 1) = k + c by omega] at h

theorem commitRuns_apart {c : ℕ} (hidx : idx < cfg.bucket_cnt) (hc : 0 < c) (hk : k + c ≤ cfg.pages_per_bucket) :
    (commitRuns cfg b idx k c).Pairwise Apart := by
  refine runsFrom_apart (OpenRun.single PAGE_SIZE (cfg.pageAddr b idx) k) (by decide) fun t u x _ ht _ hu hx hx' => ?_
  exact (SoundingCfg.page_unique hidx (by omega) hidx (by omega) hx hx').2

/-- The pages wrap around once at most. -/
theorem commitRuns_length_le {c : ℕ} (hidx : idx < cfg.bucket_cnt) (hk : k + c ≤ cfg.pages_per_bucket) :
    (commitRuns cfg b idx k c).length ≤ 2 := by
  refine runsFrom_length_le (p := cfg.wrapPage b - idx * cfg.pages_per_bucket) (by rw [Nat.add_sub_cancel])
    (Nat.succ_pos k) fun t h1 h2 hne => ?_
  obtain ⟨u, rfl⟩ : ∃ u, t = u + 1 := ⟨t - 1, by omega⟩
  exact SoundingCfg.pageAddr_succ hidx (by omega) (by omega)

theorem commitRange_runs (os : Os) (hidx : idx < cfg.bucket_cnt) {c : ℕ} (hc : 0 < c)
    (hk : k + c ≤ cfg.pages_per_bucket) (s : St SoundingAddressPageAllocator) :
    Act.wp (commitRangeOfPageIndexes cfg os b idx k c)
      (fun _ t => Left cfg b s t (s.w.committedAll (commitRuns cfg b idx k c)))
      (fun t => RefusedIn cfg os b s t (commitRuns cfg b idx k c)) s := by
  rw [commitRangeOfPageIndexes, Act.wp_bind]
  refine Act.wp_mono (idxToPageAddr_spec hidx (by omega) s) ?_ fun _ ht => ht.elim
  intro a t ⟨ha, ht⟩
  rw [ha]
  refine Act.wp_mono (commitLoop_spec os hidx (c - 1) 1 _ _ t (by omega)) ?_ ?_
  · intro _ u hu
    exact ht.commits hu
  · intro u ⟨rs₁, r, rs₂, hrs, hu, hc⟩
    exact ⟨rs₁, r, rs₂, hrs, ht.refuses hu, hc⟩

/-- The pages `k, …, k + c - 1` are committed, or some of them are and the rest
was refused. -/
theorem commitRange_spec (hb : cfg.BlockAt b) (hidx : idx < cfg.bucket_cnt) {c : ℕ} (hc : 0 < c)
    (hk : k + c ≤ cfg.pages_per_bucket) {s : St SoundingAddressPageAllocator} (hs : s.c.base.Idle) :
    Act.wp (commitRangeOfPageIndexes cfg os b idx k c)
      (fun _ => LoopDone cfg b idx k (k + c) s) (LoopThrew cfg os b idx k (k + c) s) s := by
  have hin : ∀ r ∈ commitRuns cfg b idx k c, ∀ x, Within r.1 r.2 x → InPages cfg b idx k (k + c) x :=
    fun r hr x hx => (mem_commitRuns hc).mp ⟨r, hr, hx⟩
  have hapart := commitRuns_apart (b := b) hidx hc hk
  have hworld : ∀ {t : St SoundingAddressPageAllocator} {w : World}, Left cfg b s t w →
      w.assertsHold = s.w.assertsHold → t.w = w := fun ht hw => by
    rw [ht.world, ht.asserts hb, ← hw]
  refine Act.wp_mono (commitRange_runs os hidx hc hk s) ?_ ?_
  · intro _ t ht
    refine ⟨⟨ht.self, ht.idle hs⟩, _, hworld ht (World.committedAll_other _ _).2.2.1, ⟨hin, hapart⟩, fun x hx => ?_⟩
    exact (mem_commitRuns hc).mpr hx
  · intro t ⟨rs₁, r, rs₂, hrs, ht, cs, hcs⟩
    rw [hrs] at hin hapart
    refine ⟨⟨ht.self, ht.idle hs⟩, rs₁, r.2, hworld ht (World.committedAll_other rs₁ s.w).2.2.1,
      ⟨fun r' hr' => hin r' (List.mem_append_left _ hr'), (List.pairwise_append.mp hapart).1⟩, cs, r.1, r.2, hcs⟩

/-- **The pages are committed exactly**, for every block, wherever it lies: in at
most two ranges, apart from each other, which are the pages of the request. Where
one of them is refused, no other is asked for. -/
theorem commitRange_exact (hidx : idx < cfg.bucket_cnt) {c : ℕ} (hc : 0 < c) (hk : k + c ≤ cfg.pages_per_bucket) :
    ∃ rs : List (ℕ × ℕ), rs.length ≤ 2 ∧ rs.Pairwise Apart ∧
      (∀ x, (∃ r ∈ rs, Within r.1 r.2 x) ↔ ∃ i < c, Within (cfg.pageAddr b idx (k + i)) PAGE_SIZE x) ∧
      ∀ (os : Os) (s : St SoundingAddressPageAllocator), Act.wp (commitRangeOfPageIndexes cfg os b idx k c)
        (fun _ t => t.w.calls = (rs.map fun r => .commit r.1 r.2).reverse ++ s.w.calls)
        (fun t => ∃ rs₁ r rs₂, rs = rs₁ ++ r :: rs₂ ∧
          t.w.calls = .refused r.2 :: (rs₁.map fun r => .commit r.1 r.2).reverse ++ s.w.calls) s := by
  refine ⟨commitRuns cfg b idx k c, commitRuns_length_le hidx hk, commitRuns_apart hidx hc hk, fun x => ?_,
    fun os s => ?_⟩
  · rw [mem_commitRuns hc]
    constructor
    · rintro ⟨t, h1, h2, hx⟩
      exact ⟨t - k, by omega, by rwa [Nat.add_sub_cancel' h1]⟩
    · rintro ⟨i, hi, hx⟩
      exact ⟨k + i, by omega, by omega, hx⟩
  · refine Act.wp_mono (commitRange_runs os hidx hc hk s) ?_ ?_
    · intro _ t ht
      rw [ht.world]
      exact World.committedAll_calls _ _
    · intro t ⟨rs₁, r, rs₂, hrs, ht, _⟩
      refine ⟨rs₁, r, rs₂, hrs, ?_⟩
      rw [ht.world]
      exact congrArg _ (World.committedAll_calls rs₁ s.w)

/-- A batch of 16 pages across the wrap point of its block. -/
theorem commitRange_wrapped : pageAllocatorT.wrapPage (8 * 4096) = 8 ∧ ∃ rs : List (ℕ × ℕ), rs.length ≤ 2 ∧
    ∀ x, (∃ r ∈ rs, Within r.1 r.2 x) ↔
      ∃ i < 16, Within (pageAllocatorT.pageAddr (8 * 4096) 0 (0 + i)) PAGE_SIZE x := by
  obtain ⟨rs, h1, -, h2, -⟩ := commitRange_exact (b := 8 * 4096) (k := 0) (c := 16)
    (show 0 < pageAllocatorT.bucket_cnt by decide) (by decide) (by decide)
  exact ⟨by decide, rs, h1, h2⟩

end SoundingAddressPageAllocator

end IibMalloc

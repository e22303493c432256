/-
# CollectionInPages: a collection that grows page by page

Items are carved from pages of the base allocator, `itemSize` bytes each, and
sit on one of two lists through the same `next` field: `head` links the items
given out, newest first, `freeList` those of the last page not given out yet.
The heap is typed: `heap a` is the `ListItem` at `a`. Every access to an item
needs its bytes mapped (`derefItem`).

`CollInv` is the invariant: the two lists together are the items of the pages
obtained, each once. `createNew_spec` and `deinit_spec` are what the rest of
the development uses: a new item is none of the old ones, and `deinitialize`
releases every page once.
-/
import IibMalloc.PageAllocator
import IibMalloc.Lib.Links

namespace IibMalloc

open Lib

structure ListItem (ItemT : Type) where
  item : ItemT
  next : ℕ

structure CollectionInPages (ItemT : Type) where
  base : PageAllocatorWithCaching
  head : ℕ
  freeList : ℕ
  pageCnt : ℕ
  heap : ℕ → ListItem ItemT

namespace CollectionInPages

variable {ItemT : Type}

/-- A program of the base class. -/
def super {α : Type} (x : Act (St PageAllocatorWithCaching) α) : Act (St (CollectionInPages ItemT)) α :=
  Act.onPart (·.base) (fun b c => { c with base := b }) x

/-- `*a = …` for the `next` field. -/
def setNext (heap : ℕ → ListItem ItemT) (a v : ℕ) : ℕ → ListItem ItemT :=
  fun x => if x = a then { heap x with next := v } else heap x

/-- `*a = …` for the item. -/
def setItem (a : ℕ) (f : ItemT → ItemT) (c : CollectionInPages ItemT) : CollectionInPages ItemT :=
  { c with heap := fun x => if x = a then { c.heap x with item := f (c.heap x).item } else c.heap x }

/-- The bytes of the item at `a` can be accessed. -/
def derefItem {C : Type} (itemSize a : ℕ) : Act (St C) Unit := do
  Act.deref a
  Act.deref (a + (itemSize - 1))

/-- `initialize` -/
def init (blockSizeExp : ℕ) : Act (St (CollectionInPages ItemT)) Unit := do
  super (PageAllocatorWithCaching.init blockSizeExp)
  Act.onSelf fun c => { c with head := 0, freeList := 0, pageCnt := 0 }

/-- The loop of `createNew`: `n` items from `item` on, each linked to the one
after it, and the last to null. -/
def linkItems (itemSize : ℕ) : ℕ → ℕ → (ℕ → ListItem ItemT) → ℕ → ListItem ItemT
  | 0, item, heap => setNext heap item 0
  | n + 1, item, heap => linkItems itemSize n (item + itemSize) (setNext heap item (item + itemSize))

/-- A page just mapped reads 0. -/
def zeroPage [Inhabited ItemT] (heap : ℕ → ListItem ItemT) (page : ℕ) : ℕ → ListItem ItemT :=
  fun x => if Within page PAGE_SIZE x then ⟨default, 0⟩ else heap x

variable (os : Os) (itemSize : ℕ)

/-- The carving of a page in `createNew`. Where no item fits in a page,
`itemCnt - 1` wraps around and the loop leaves the page. -/
def carve (page : ℕ) : Act (St (CollectionInPages ItemT)) Unit := do
  Act.assert (decide (PAGE_SIZE / itemSize ≠ 0))
  if PAGE_SIZE / itemSize = 0 then Act.stuck
  else Act.onSelf fun c => { c with heap := linkItems itemSize (PAGE_SIZE / itemSize - 1) page c.heap }

/-- The part of `createNew` for an empty `freeList`. -/
def newPage [Inhabited ItemT] : Act (St (CollectionInPages ItemT)) Unit := do
  let page ← super (PageAllocatorWithCaching.getFreeBlockNoCache os PAGE_SIZE)
  Act.onSelf fun c => { c with freeList := page, pageCnt := u64 (c.pageCnt + 1), heap := zeroPage c.heap page }
  carve itemSize page

/-- The first half of `createNew`. -/
def refill [Inhabited ItemT] : Act (St (CollectionInPages ItemT)) Unit := do
  let freeList ← Act.read fun s => s.c.freeList
  if freeList = 0 then newPage os itemSize else return ()

/-- `createNew`: the new item's address. -/
def createNew [Inhabited ItemT] : Act (St (CollectionInPages ItemT)) ℕ := do
  refill os itemSize
  let freeList ← Act.read fun s => s.c.freeList
  Act.assert (decide (freeList ≠ 0))
  derefItem itemSize freeList
  Act.onSelf fun c =>
    { c with
      head := freeList
      heap := setNext c.heap freeList c.head
      freeList := (c.heap freeList).next }
  return freeList

/-- `collectPageStarts`: the items of the list from `curr` that stand at the
start of a page are moved to the list from `pageStartHead`. -/
def collectPageStarts : ℕ → ℕ → ℕ → Act (St (CollectionInPages ItemT)) ℕ
  | 0, pageStartHead, curr => if curr ≠ 0 then Act.stuck else return pageStartHead
  | fuel + 1, pageStartHead, curr =>
    if curr ≠ 0 then do
      derefItem itemSize curr
      let tmp ← Act.read fun s => (s.c.heap curr).next
      if curr &&& PAGE_SIZE_MASK = 0 then do
        Act.onSelf fun c => { c with heap := setNext c.heap curr pageStartHead }
        collectPageStarts fuel curr tmp
      else collectPageStarts fuel pageStartHead tmp
    else return pageStartHead

/-- The last loop of `deinitialize`. -/
def releasePages : ℕ → ℕ → Act (St (CollectionInPages ItemT)) Unit
  | 0, pageStartHead => if pageStartHead ≠ 0 then Act.stuck else return ()
  | fuel + 1, pageStartHead =>
    if pageStartHead ≠ 0 then do
      derefItem itemSize pageStartHead
      let tmp ← Act.read fun s => (s.c.heap pageStartHead).next
      super (PageAllocatorWithCaching.freeChunkNoCache pageStartHead PAGE_SIZE)
      Act.onSelf fun c => { c with pageCnt := u64 (c.pageCnt + (2 ^ 64 - 1)) }
      releasePages fuel tmp
    else return ()

/-- `deinitialize`, with `fuel` rounds for each of its loops. -/
def deinit (fuel : ℕ) : Act (St (CollectionInPages ItemT)) Unit := do
  let head ← Act.read fun s => s.c.head
  let pageStartHead ← collectPageStarts itemSize fuel 0 head
  let freeList ← Act.read fun s => s.c.freeList
  let pageStartHead ← collectPageStarts itemSize fuel pageStartHead freeList
  releasePages itemSize fuel pageStartHead
  let pageCnt ← Act.read fun s => s.c.pageCnt
  Act.assert (decide (pageCnt = 0))
  Act.onSelf fun c => { c with head := 0, freeList := 0 }

/-! ### The invariant -/

/-- The items of a page. -/
def pageItems (page : ℕ) : List ℕ :=
  (List.range (PAGE_SIZE / itemSize)).map fun i => page + i * itemSize

/-- A page the collection obtained: aligned and mapped. -/
structure PageMapped (calls : List OsCall) (p : ℕ) : Prop where
  aligned : 4096 ∣ p
  pos : 0 < p
  mapped : ∀ x, Within p 4096 x → pageState calls x = .committed

/-- The two lists hold the items of the pages obtained, each once. -/
structure CollInv (calls : List OsCall) (c : CollectionInPages ItemT) (pages used free : List ℕ) :
    Prop where
  idle : c.base.Idle
  head : Chain (fun a => (c.heap a).next) 0 c.head used
  freeList : Chain (fun a => (c.heap a).next) 0 c.freeList free
  items : (used ++ free).Perm (pages.flatMap (pageItems itemSize))
  pageCnt : c.pageCnt = u64 pages.length
  mapped : ∀ p ∈ pages, PageMapped calls p
  nodup : pages.Nodup

variable {os} {itemSize}

theorem mem_pageItems {p a : ℕ} (ha : a ∈ pageItems itemSize p) :
    ∃ i, a = p + i * itemSize ∧ i * itemSize + itemSize ≤ 4096 := by
  obtain ⟨i, hi, rfl⟩ := List.mem_map.mp ha
  refine ⟨i, rfl, ?_⟩
  have h1 : i + 1 ≤ PAGE_SIZE / itemSize := List.mem_range.mp hi
  calc i * itemSize + itemSize = (i + 1) * itemSize := by ring
    _ ≤ PAGE_SIZE / itemSize * itemSize := Nat.mul_le_mul_right _ h1
    _ ≤ 4096 := Nat.div_mul_le_self _ _

/-- Linking `n + 1` items makes them a chain, and changes no other item. -/
theorem linkItems_chain (h0 : 0 < itemSize) : ∀ (n item : ℕ) (heap : ℕ → ListItem ItemT), 0 < item →
    Chain (fun a => (linkItems itemSize n item heap a).next) 0 item
        ((List.range (n + 1)).map fun i => item + i * itemSize) ∧
      ∀ x, (∀ i ≤ n, x ≠ item + i * itemSize) → linkItems itemSize n item heap x = heap x
  | 0, item, heap, hi => by
    refine ⟨?_, fun x hx => ?_⟩
    · simp [linkItems, setNext]; omega
    · have := hx 0 le_rfl
      simp only [linkItems, setNext]; rw [if_neg (by omega)]
  | n + 1, item, heap, hi => by
    obtain ⟨h1, h2⟩ := linkItems_chain h0 n (item + itemSize)
      (setNext heap item (item + itemSize)) (by omega)
    refine ⟨?_, fun x hx => ?_⟩
    · rw [List.range_succ_eq_map, List.map_cons, List.map_map]
      refine ⟨by simp, by simp; omega, ?_⟩
      simp only [linkItems, Nat.zero_mul, Nat.add_zero]
      rw [h2 item fun i _ => by omega]
      simp only [setNext, if_true]
      convert h1 using 2
      funext i
      simp only [Function.comp_apply, Nat.succ_eq_add_one]
      ring
    · simp only [linkItems]
      rw [h2 x fun i hi => by have := hx (i + 1) (by omega); rw [Nat.add_mul] at this; omega]
      have := hx 0 (by omega)
      simp only [setNext]; rw [if_neg (by omega)]

theorem PageMapped.mono {calls calls' : List OsCall} {p : ℕ} (h : PageMapped calls p)
    (hc : ∀ x, pageState calls x = .committed → pageState calls' x = .committed) :
    PageMapped calls' p := ⟨h.aligned, h.pos, fun x hx => hc x (h.mapped x hx)⟩

theorem PageMapped.word {calls : List OsCall} {p k : ℕ} (h : PageMapped calls p) (hk : k < 4096) :
    pageState calls (p + k) = .committed := h.mapped _ ⟨Nat.le_add_right p k, Nat.add_lt_add_left hk p⟩

namespace CollInv

variable {calls calls' : List OsCall} {c : CollectionInPages ItemT} {pages used free : List ℕ}

theorem calls_mono (h : CollInv itemSize calls c pages used free)
    (hc : ∀ x, pageState calls x = .committed → pageState calls' x = .committed) :
    CollInv itemSize calls' c pages used free :=
  { h with mapped := fun p hp => (h.mapped p hp).mono hc }

/-- Where an item of the collection lies. -/
theorem item_at (h : CollInv itemSize calls c pages used free) {a : ℕ} (ha : a ∈ used ++ free) :
    ∃ p ∈ pages, ∃ i, a = p + i * itemSize ∧ i * itemSize + itemSize ≤ 4096 := by
  obtain ⟨p, hp, hap⟩ := List.mem_flatMap.mp (h.items.mem_iff.mp ha)
  exact ⟨p, hp, mem_pageItems hap⟩

/-- The items of distinct pages are distinct. -/
theorem nodup_items (h : CollInv itemSize calls c pages used free) (h0 : 0 < itemSize) :
    (used ++ free).Nodup := by
  rw [h.items.nodup_iff, List.nodup_flatMap]
  refine ⟨fun p _ => ?_, ?_⟩
  · refine List.Nodup.map (fun i j hij => ?_) List.nodup_range
    exact Nat.eq_of_mul_eq_mul_right h0 (Nat.add_left_cancel hij)
  · refine h.nodup.imp_of_mem fun {p q} hp hq hne => ?_
    intro a hap haq
    obtain ⟨i, hi, hi'⟩ := mem_pageItems hap
    obtain ⟨j, hj, hj'⟩ := mem_pageItems haq
    have := (h.mapped p hp).aligned
    have := (h.mapped q hq).aligned
    generalize i * itemSize = u at *
    generalize j * itemSize = v at *
    omega

/-- Writing an item leaves the collection as it is. -/
theorem setItem (h : CollInv itemSize calls c pages used free) (a : ℕ) (f : ItemT → ItemT) :
    CollInv itemSize calls (CollectionInPages.setItem a f c) pages used free := by
  have hn : ∀ x, ((CollectionInPages.setItem a f c).heap x).next = (c.heap x).next := fun x => by
    simp only [CollectionInPages.setItem]
    split_ifs <;> rfl
  exact ⟨h.idle, h.head.congr fun x _ => hn x, h.freeList.congr fun x _ => hn x, h.items, h.pageCnt,
    h.mapped, h.nodup⟩

/-- The collection is mapped still, after regions that are apart from its
pages were released. -/
theorem released {w : World} {a sz : ℕ} (h : CollInv itemSize w.calls c pages used free)
    (ha : ∀ q ∈ pages, Apart (a, sz) (q, 4096)) : CollInv itemSize (w.released a sz).calls c pages used free := by
  refine { h with mapped := fun q hq => ?_ }
  have hm := h.mapped q hq
  refine ⟨hm.aligned, hm.pos, fun x hx => ?_⟩
  simp only [World.released, pageState]
  rw [if_neg fun hw => ha q hq x hw hx]
  exact hm.mapped x hx

theorem committed (h : CollInv itemSize calls c pages used free) (h0 : 0 < itemSize) {a x : ℕ}
    (ha : a ∈ used ++ free) (hx : Within a itemSize x) : pageState calls x = .committed := by
  obtain ⟨p, hp, i, rfl, hi⟩ := h.item_at ha
  exact (h.mapped p hp).mapped x ⟨by have := hx.1; omega, by have := hx.2; omega⟩

end CollInv

theorem init_spec (itemSize : ℕ) (s : St (CollectionInPages ItemT))
    {Q : Unit → St (CollectionInPages ItemT) → Prop} {E : St (CollectionInPages ItemT) → Prop}
    (h : ∀ c, CollInv itemSize s.w.calls c [] [] [] → Q () ⟨s.w, c⟩) :
    Act.wp (init PAGE_SIZE_EXP) Q E s := by
  simp only [init, super, Act.wp_bind, Act.wp_onPart, Act.wp_onSelf]
  refine PageAllocatorWithCaching.init_spec _ fun b hb => h _ ?_
  exact ⟨hb, rfl, rfl, by simp, rfl, by simp, List.nodup_nil⟩

variable [Inhabited ItemT]

/-- An address that is mapped is not in a fresh region. -/
theorem PageMapped.not_within {calls : List OsCall} {p q x : ℕ} (hf : FreshRegion calls q 4096)
    (h : PageMapped calls p) (hx : Within p 4096 x) : ¬ Within q 4096 x := fun hw => by
  have := h.mapped x hx
  rw [hf.unmapped x hw] at this
  cases this

omit [Inhabited ItemT] in
theorem wp_carve (h : PAGE_SIZE / itemSize ≠ 0) {page : ℕ} {s : St (CollectionInPages ItemT)}
    {Q : Unit → St (CollectionInPages ItemT) → Prop} {E : St (CollectionInPages ItemT) → Prop} :
    Act.wp (carve itemSize page) Q E s ↔
      Q () ⟨s.w, { s.c with heap := linkItems itemSize (PAGE_SIZE / itemSize - 1) page s.c.heap }⟩ := by
  rw [carve, if_neg h, decide_eq_true h]
  simp only [Act.wp_bind, Act.wp_assert, Act.wp_onSelf, Bool.and_true]

/-- A page is obtained and carved into items. -/
theorem newPage_spec (h0 : 0 < itemSize) (h1 : itemSize ≤ 4096) {s : St (CollectionInPages ItemT)}
    {pages used : List ℕ} (h : CollInv itemSize s.w.calls s.c pages used []) :
    Act.wp (newPage os itemSize)
      (fun _ t => ∃ p, os.mmap s.w.calls 4096 = some p ∧ t.w = s.w.allocated p 4096 ∧
        CollInv itemSize t.w.calls t.c (p :: pages) used (pageItems itemSize p) ∧
        ∀ a ∈ used, t.c.heap a = s.c.heap a)
      (fun t => os.mmap s.w.calls 4096 = none ∧ t.w = s.w.refused 4096 ∧
        CollInv itemSize t.w.calls t.c pages used [] ∧ t.c.heap = s.c.heap) s := by
  have hcnt : PAGE_SIZE / itemSize ≠ 0 := by
    have := Nat.div_pos h1 h0
    rw [PAGE_SIZE_eq]; omega
  simp only [newPage, super, Act.wp_bind, Act.wp_onPart, Act.wp_onSelf, wp_carve hcnt, PAGE_SIZE_eq]
  rw [PAGE_SIZE_eq] at hcnt
  refine Act.wp_mono (PageAllocatorWithCaching.getFreeBlockNoCache_spec os
    (s := ⟨s.w, s.c.base⟩) h.idle ⟨1, rfl⟩) ?_ ?_
  · rintro p ⟨w, b⟩ ⟨hm, hw, hb⟩
    have hf := os.fresh hm
    have hpos := hf.pos
    have hal := hf.aligned
    -- the items in use are in pages mapped before, not in this one
    have hout : ∀ a ∈ used, ¬ Within p 4096 a := fun a ha => by
      obtain ⟨q, hq, i, rfl, hi⟩ := h.item_at (List.mem_append_left _ ha)
      exact (h.mapped q hq).not_within hf ⟨by omega, by omega⟩
    obtain ⟨hc1, hc2⟩ := linkItems_chain h0 (4096 / itemSize - 1) p (zeroPage s.c.heap p) hpos
    have hheap : ∀ a ∈ used,
        linkItems itemSize (4096 / itemSize - 1) p (zeroPage s.c.heap p) a = s.c.heap a := by
      intro a ha
      rw [hc2 a, zeroPage, PAGE_SIZE_eq, if_neg (hout a ha)]
      rintro i hi rfl
      refine hout _ ha ⟨by omega, ?_⟩
      have h2 : i + 1 ≤ 4096 / itemSize := (Nat.le_sub_one_iff_lt (Nat.pos_of_ne_zero hcnt)).mp hi
      have := (Nat.mul_le_mul_right itemSize h2).trans (Nat.div_mul_le_self _ _)
      rw [Nat.add_mul] at this
      omega
    refine ⟨p, hm, hw, ⟨hb, ?_, ?_, ?_, ?_, ?_, ?_⟩, hheap⟩
    · exact h.head.congr fun a ha => congrArg ListItem.next (hheap a ha)
    · rw [Nat.sub_add_cancel (Nat.pos_of_ne_zero hcnt)] at hc1
      exact hc1
    · have := h.items
      simp only [List.append_nil] at this
      rw [List.flatMap_cons]
      exact (List.perm_append_comm.trans (this.append_left _))
    · simp only [h.pageCnt, u64, List.length_cons]
      omega
    · intro q hq
      simp only at hw ⊢
      rw [hw]
      rcases List.mem_cons.mp hq with rfl | hq
      · exact ⟨hal, hpos, fun x hx => by simp [World.allocated, pageState, hx]⟩
      · refine (h.mapped q hq).mono fun x hx => ?_
        simp only [World.allocated, pageState]
        split_ifs <;> first | rfl | exact hx
    · refine List.nodup_cons.mpr ⟨fun hp => ?_, h.nodup⟩
      have := (h.mapped p hp).mapped p ⟨le_rfl, by omega⟩
      rw [hf.unmapped p ⟨le_rfl, by omega⟩] at this
      cases this
  · rintro ⟨w, b⟩ ⟨hm, hw, hb⟩
    refine ⟨hm, hw, ⟨hb, h.head, h.freeList, h.items, h.pageCnt, ?_, h.nodup⟩, trivial⟩
    simp only at hw ⊢
    rw [hw]
    exact fun p hp => (h.mapped p hp).mono fun x hx => hx

/-- Some item is free. -/
theorem refill_spec (h0 : 0 < itemSize) (h1 : itemSize ≤ 4096) {s : St (CollectionInPages ItemT)}
    {pages used free : List ℕ} (h : CollInv itemSize s.w.calls s.c pages used free) :
    Act.wp (refill os itemSize)
      (fun _ t => ∃ pages' free', CollInv itemSize t.w.calls t.c pages' used free' ∧ free' ≠ [] ∧
        (∀ a ∈ used, t.c.heap a = s.c.heap a) ∧
        (s.c.freeList ≠ 0 ∧ t.w = s.w ∧ pages' = pages ∨
          s.c.freeList = 0 ∧ ∃ p, os.mmap s.w.calls 4096 = some p ∧ t.w = s.w.allocated p 4096 ∧
            pages' = p :: pages))
      (fun t => os.mmap s.w.calls 4096 = none ∧ t.w = s.w.refused 4096 ∧
        CollInv itemSize t.w.calls t.c pages used free ∧ t.c.heap = s.c.heap ∧ s.c.freeList = 0) s := by
  simp only [refill, Act.wp_bind, Act.wp_read, Act.wp_ite, Act.wp_pure]
  refine ⟨fun hf => ?_, fun hf => ⟨pages, free, h, ?_, fun _ _ => by trivial,
    Or.inl ⟨hf, by trivial, by trivial⟩⟩⟩
  · have hfree : free = [] := by
      have hc := h.freeList
      cases free with
      | nil => rfl
      | cons a l => exact absurd (hc.1.symm.trans hf) hc.2.1
    subst hfree
    refine Act.wp_mono (newPage_spec h0 h1 h) ?_ fun t ht => ⟨ht.1, ht.2.1, ht.2.2.1, ht.2.2.2, hf⟩
    intro _ t ht
    obtain ⟨p, hm, hw, hI, hu⟩ := ht
    refine ⟨_, _, hI, fun hnil => ?_, hu, Or.inr ⟨hf, p, hm, hw, rfl⟩⟩
    have hlen := congrArg List.length hnil
    have := Nat.div_pos h1 h0
    simp only [pageItems, List.length_map, List.length_range, List.length_nil, PAGE_SIZE_eq] at hlen
    omega
  · rintro rfl
    exact hf h.freeList

/-- A new item: none of those in use, whose contents stay. A page may have
been mapped for it. -/
theorem createNew_spec (h0 : 0 < itemSize) (h1 : itemSize ≤ 4096) {s : St (CollectionInPages ItemT)}
    {pages used free : List ℕ} (h : CollInv itemSize s.w.calls s.c pages used free) :
    Act.wp (createNew os itemSize)
      (fun a t => ∃ pages' free', CollInv itemSize t.w.calls t.c pages' (a :: used) free' ∧
        a ∉ used ∧ (∀ x ∈ used, t.c.heap x = s.c.heap x) ∧
        (s.c.freeList ≠ 0 ∧ t.w = s.w ∧ pages' = pages ∨
          s.c.freeList = 0 ∧ ∃ p, os.mmap s.w.calls 4096 = some p ∧ t.w = s.w.allocated p 4096 ∧
            pages' = p :: pages))
      (fun t => os.mmap s.w.calls 4096 = none ∧ t.w = s.w.refused 4096 ∧
        CollInv itemSize t.w.calls t.c pages used free ∧ t.c.heap = s.c.heap ∧ s.c.freeList = 0) s := by
  simp only [createNew, Act.wp_bind]
  refine Act.wp_mono (refill_spec h0 h1 h) ?_ fun t ht => ht
  rintro _ ⟨w, c⟩ ⟨pages', free', hI, hne, hu, hw⟩
  obtain ⟨a, free', rfl⟩ := List.exists_cons_of_ne_nil hne
  obtain ⟨ha, ha0, hfree⟩ := hI.freeList
  simp only at ha hfree hw hu
  have hnd := hI.nodup_items h0
  have hau : a ∉ used := fun hx => (List.nodup_append.mp hnd).2.2 a hx a (by simp) rfl
  have haf : a ∉ free' := (List.nodup_cons.mp (List.nodup_append.mp hnd).2.1).1
  have hmem : a ∈ used ++ a :: free' := by simp
  have hd1 := hI.committed h0 hmem (x := a) ⟨le_rfl, by omega⟩
  have hd2 := hI.committed h0 hmem (x := a + (itemSize - 1)) ⟨by omega, by omega⟩
  simp only [Act.wp_read, derefItem, Act.wp_bind, Act.wp_deref, Act.wp_assert, Act.wp_onSelf,
    Act.wp_pure, ha, decide_eq_true ha0, Bool.and_true]
  refine ⟨hd1, hd2, pages', free', ⟨hI.idle, ⟨rfl, ha0, ?_⟩, ?_, ?_, hI.pageCnt, hI.mapped, hI.nodup⟩,
    hau, fun x hx => ?_, hw⟩
  · simp only [setNext, if_true]
    refine hI.head.congr fun x hx => ?_
    rw [if_neg (ne_of_mem_of_not_mem hx hau)]
  · refine hfree.congr fun x hx => ?_
    simp only [setNext]
    rw [if_neg (ne_of_mem_of_not_mem hx haf)]
  · exact List.perm_middle.symm.trans hI.items
  · simp only [setNext]
    rw [if_neg (ne_of_mem_of_not_mem hx hau)]
    exact hu x hx

/-- Where no item fits in a page, no item is ever returned. -/
theorem createNew_large (hl : 4096 < itemSize) {s : St (CollectionInPages ItemT)}
    (h : CollInv itemSize s.w.calls s.c [] [] []) :
    Act.wlp (createNew os itemSize) (fun _ _ => False)
      (fun t => os.mmap s.w.calls 4096 = none ∧ t.w = s.w.refused 4096 ∧
        CollInv itemSize t.w.calls t.c [] [] [] ∧ t.c.heap = s.c.heap) s := by
  have h0 : PAGE_SIZE / itemSize = 0 := Nat.div_eq_of_lt hl
  have hfree : s.c.freeList = 0 := h.freeList
  refine Act.wlp_bind (Act.wlp_bind (Act.wlp_of_wp ?_))
  rw [Act.wp_read, if_pos hfree]
  refine Act.wlp_bind (Act.wlp_of_wp ?_)
  rw [super, Act.wp_onPart]
  refine Act.wp_mono (PageAllocatorWithCaching.getFreeBlockNoCache_spec os (s := ⟨s.w, s.c.base⟩)
    h.idle ⟨1, rfl⟩) ?_ ?_
  · rintro p ⟨w, b⟩ -
    refine Act.wlp_bind (Act.wlp_of_wp ?_)
    rw [Act.wp_onSelf, carve]
    refine Act.wlp_bind (Act.wlp_of_wp ?_)
    rw [Act.wp_assert, if_pos h0]
    exact Act.wlp_stuck
  · rintro ⟨w, b⟩ ⟨hm, hw, hb⟩
    exact ⟨hm, hw, ⟨hb, h.head, h.freeList, h.items, h.pageCnt, by simp, h.nodup⟩, rfl⟩

/-! ### deinitialize -/

/-- The items of a list that stand at the start of a page. -/
def starts (l : List ℕ) : List ℕ := l.filter fun a => a % 4096 = 0

theorem starts_pageItems (h0 : 0 < itemSize) (h1 : itemSize ≤ 4096) {p : ℕ} (hp : 4096 ∣ p) :
    starts (pageItems itemSize p) = [p] := by
  have hpos := Nat.div_pos h1 h0
  obtain ⟨n, hn⟩ : ∃ n, PAGE_SIZE / itemSize = n + 1 :=
    ⟨4096 / itemSize - 1, by rw [PAGE_SIZE_eq]; exact (Nat.sub_add_cancel hpos).symm⟩
  have hin : ∀ a ∈ pageItems itemSize p, a = p ∨ p < a ∧ a < p + 4096 := by
    intro a ha
    obtain ⟨i, rfl, hi⟩ := mem_pageItems ha
    omega
  rw [pageItems, hn] at hin ⊢
  rw [List.range_succ_eq_map, List.map_cons, List.map_map] at hin ⊢
  have h00 : p + 0 * itemSize = p := by omega
  rw [starts, List.filter_cons, h00, if_pos (by simpa using Nat.mod_eq_zero_of_dvd hp),
    List.filter_eq_nil_iff.mpr]
  intro a ha
  obtain ⟨i, hi, hai⟩ := List.mem_map.mp ha
  have hne : p < a := by
    rw [← hai]
    simp only [Function.comp_apply, Nat.succ_eq_add_one]
    have := Nat.mul_le_mul_right itemSize (Nat.le_add_left 1 i)
    omega
  have := hin a (List.mem_cons_of_mem _ ha)
  simp only [decide_eq_true_eq]
  omega

/-- Each page has one item at its start. -/
theorem starts_pages (h0 : 0 < itemSize) (h1 : itemSize ≤ 4096) : ∀ {pages : List ℕ},
    (∀ p ∈ pages, 4096 ∣ p) → starts (pages.flatMap (pageItems itemSize)) = pages
  | [], _ => rfl
  | p :: pages, h => by
    have ih := starts_pages h0 h1 fun q hq => h q (List.mem_cons_of_mem p hq)
    have hp := starts_pageItems h0 h1 (h p List.mem_cons_self)
    unfold starts at *
    rw [List.flatMap_cons, List.filter_append, hp, ih, List.singleton_append]

omit [Inhabited ItemT] in
/-- The items of the list from `curr` at page starts move to the list from
`hd`; the links of the other lists stay. -/
theorem collectPageStarts_spec : ∀ (l : List ℕ) (fuel curr hd : ℕ) (acc : List ℕ)
    (s : St (CollectionInPages ItemT)), l.length ≤ fuel →
    Chain (fun a => (s.c.heap a).next) 0 curr l → Chain (fun a => (s.c.heap a).next) 0 hd acc →
    (∀ a ∈ l, a ∉ acc) →
    (∀ a ∈ l, pageState s.w.calls a = .committed ∧
      pageState s.w.calls (a + (itemSize - 1)) = .committed) →
    Act.wp (collectPageStarts itemSize fuel hd curr)
      (fun r t => t.w = s.w ∧ t.c = { s.c with heap := t.c.heap } ∧
        Chain (fun a => (t.c.heap a).next) 0 r ((starts l).reverse ++ acc) ∧
        ∀ x, x ∉ l → t.c.heap x = s.c.heap x)
      (fun _ => False) s
  | [], fuel, curr, hd, acc, s, _, hl, hacc, _, _ => by
    have hc : ¬ curr ≠ 0 := not_not.mpr hl
    have : (collectPageStarts itemSize fuel hd curr : Act (St (CollectionInPages ItemT)) ℕ) =
        pure hd := by
      cases fuel <;> simp only [collectPageStarts, if_neg hc]
    rw [this, Act.wp_pure]
    exact ⟨rfl, rfl, hacc, fun _ _ => rfl⟩
  | a :: l, 0, _, _, _, _, hf, _, _, _, _ => by simp at hf
  | a :: l, fuel + 1, curr, hd, acc, s, hf, hl, hacc, hdis, hmap => by
    have hnd := List.nodup_cons.mp hl.nodup
    obtain ⟨rfl, hc0, hl⟩ := hl
    have hm := hmap curr List.mem_cons_self
    have hca : curr ∉ acc := hdis curr List.mem_cons_self
    have hlen : l.length ≤ fuel := by simpa using hf
    have hmap' : ∀ a ∈ l, _ := fun a ha => hmap a (List.mem_cons_of_mem _ ha)
    simp only [collectPageStarts, if_pos hc0, derefItem, Act.wp_bind, Act.wp_deref, Act.wp_read,
      and_page_mask]
    refine ⟨hm.1, hm.2, ?_⟩
    by_cases hp : curr % 4096 = 0
    · simp only [if_pos hp, Act.wp_bind, Act.wp_onSelf]
      have hkeep : ∀ x, x ≠ curr → setNext s.c.heap curr hd x = s.c.heap x := fun x hx => by
        simp only [setNext]; rw [if_neg hx]
      have hl' : Chain (fun a => (setNext s.c.heap curr hd a).next) 0 (s.c.heap curr).next l :=
        hl.congr fun x hx => congrArg ListItem.next (hkeep x (ne_of_mem_of_not_mem hx hnd.1))
      have hacc' : Chain (fun a => (setNext s.c.heap curr hd a).next) 0 curr (curr :: acc) := by
        refine ⟨rfl, hc0, ?_⟩
        have : (setNext s.c.heap curr hd curr).next = hd := by simp [setNext]
        simp only [this]
        exact hacc.congr fun x hx => congrArg ListItem.next (hkeep x (ne_of_mem_of_not_mem hx hca))
      refine Act.wp_mono (collectPageStarts_spec l fuel _ curr (curr :: acc) _ hlen hl' hacc' ?_ hmap')
        ?_ fun _ h => h
      · intro x hx hxa
        rcases List.mem_cons.mp hxa with rfl | hxa
        · exact hnd.1 hx
        · exact hdis x (List.mem_cons_of_mem _ hx) hxa
      · intro r t ht
        obtain ⟨hw, hc, hch, hk⟩ := ht
        refine ⟨hw, hc, ?_, fun x hx => ?_⟩
        · have : starts (curr :: l) = curr :: starts l := by simp [starts, hp]
          rw [this, List.reverse_cons, List.append_assoc, List.singleton_append]
          exact hch
        · have hx' := not_or.mp (List.mem_cons.not.mp hx)
          rw [hk x hx'.2]
          exact hkeep x hx'.1
    · simp only [if_neg hp]
      refine Act.wp_mono (collectPageStarts_spec l fuel _ hd acc s hlen hl hacc
        (fun x hx => hdis x (List.mem_cons_of_mem _ hx)) hmap') ?_ fun _ h => h
      intro r t ht
      obtain ⟨hw, hc, hch, hk⟩ := ht
      refine ⟨hw, hc, ?_, fun x hx => hk x (not_or.mp (List.mem_cons.not.mp hx)).2⟩
      have : starts (curr :: l) = starts l := by simp [starts, hp]
      rw [this]
      exact hch

omit [Inhabited ItemT] in
theorem releasePages_spec (h0 : 0 < itemSize) (h1 : itemSize ≤ 4096) : ∀ (ps : List ℕ)
    (fuel hd : ℕ) (s : St (CollectionInPages ItemT)), ps.length ≤ fuel → s.c.base.Idle →
    Chain (fun a => (s.c.heap a).next) 0 hd ps → (∀ p ∈ ps, PageMapped s.w.calls p) →
    s.c.pageCnt = u64 ps.length →
    Act.wp (releasePages itemSize fuel hd)
      (fun _ t => t.w = s.w.releasedAll PAGE_SIZE ps ∧ t.c.pageCnt = 0 ∧ t.c.base.Idle)
      (fun _ => False) s
  | [], fuel, hd, s, _, hb, hch, _, hcnt => by
    have hc : ¬ hd ≠ 0 := not_not.mpr hch
    have : (releasePages itemSize fuel hd : Act (St (CollectionInPages ItemT)) Unit) = pure () := by
      cases fuel <;> simp only [releasePages, if_neg hc]
    rw [this, Act.wp_pure]
    exact ⟨rfl, hcnt, hb⟩
  | p :: ps, 0, _, _, hf, _, _, _, _ => by simp at hf
  | p :: ps, fuel + 1, hd, s, hf, hb, hch, hmap, hcnt => by
    have hnd := List.nodup_cons.mp hch.nodup
    obtain ⟨rfl, hp0, hch⟩ := hch
    have hp := hmap hd List.mem_cons_self
    simp only [releasePages, if_pos hp0, derefItem, super, Act.wp_bind, Act.wp_deref, Act.wp_read,
      Act.wp_onPart, Act.wp_onSelf]
    refine ⟨hp.mapped _ ⟨le_rfl, by omega⟩, hp.mapped _ ⟨by omega, by omega⟩, ?_⟩
    refine Act.wp_mono (PageAllocatorWithCaching.freeChunkNoCache_spec (s := ⟨s.w, s.c.base⟩)
      hb hd (show 4096 ∣ PAGE_SIZE by norm_num)) ?_ fun _ h => h
    rintro _ ⟨w, b⟩ ⟨hw, hb⟩
    simp only at hw hb
    subst hw
    refine Act.wp_mono (releasePages_spec h0 h1 ps fuel _ _ (by simpa using hf) hb hch ?_ ?_)
      ?_ fun _ h => h
    · -- the other pages are still mapped
      intro q hq
      have hqm := hmap q (List.mem_cons_of_mem _ hq)
      refine ⟨hqm.aligned, hqm.pos, fun x hx => ?_⟩
      have hne : q ≠ hd := ne_of_mem_of_not_mem hq hnd.1
      have hout : ¬ Within hd PAGE_SIZE x := fun hw => by
        have h2 := hqm.aligned
        have h3 := hp.aligned
        have h4 := hw.1; have h5 := hw.2; have h6 := hx.1; have h7 := hx.2
        rw [PAGE_SIZE_eq] at h5
        omega
      simp only [World.released, pageState, if_neg hout]
      exact hqm.mapped x hx
    · simp only [hcnt, u64, List.length_cons]
      omega
    · intro _ t ht
      obtain ⟨hw, hc⟩ := ht
      exact ⟨hw, hc⟩

omit [Inhabited ItemT] in
/-- `deinitialize` releases every page once and leaves an empty collection. -/
theorem deinit_spec (h0 : 0 < itemSize) (h1 : itemSize ≤ 4096) {s : St (CollectionInPages ItemT)}
    {pages used free : List ℕ} (h : CollInv itemSize s.w.calls s.c pages used free) {fuel : ℕ}
    (hfuel : used.length + free.length ≤ fuel) :
    Act.wp (deinit itemSize fuel)
      (fun _ t => (∃ ps, ps.Perm pages ∧ t.w = s.w.releasedAll PAGE_SIZE ps) ∧
        CollInv itemSize t.w.calls t.c [] [] [])
      (fun _ => False) s := by
  have hnd := h.nodup_items h0
  have hmap : ∀ a ∈ used ++ free, pageState s.w.calls a = .committed ∧
      pageState s.w.calls (a + (itemSize - 1)) = .committed := fun a ha =>
    ⟨h.committed h0 ha ⟨le_rfl, by omega⟩, h.committed h0 ha ⟨by omega, by omega⟩⟩
  simp only [deinit, Act.wp_bind, Act.wp_read]
  refine Act.wp_mono (collectPageStarts_spec used fuel s.c.head 0 [] s (by omega) h.head rfl
    (by simp) fun a ha => hmap a (List.mem_append_left _ ha)) ?_ fun _ h => h
  rintro r1 ⟨w1, c1⟩ ⟨hw1, hc1, hch1, hk1⟩
  simp only at hw1 hc1 hch1 hk1
  have hfl : c1.freeList = s.c.freeList := by rw [hc1]
  have hfree1 : Chain (fun a => (c1.heap a).next) 0 c1.freeList free := by
    rw [hfl]
    refine h.freeList.congr fun x hx => congrArg ListItem.next (hk1 x fun hu => ?_)
    exact (List.nodup_append.mp hnd).2.2 x hu x hx rfl
  rw [List.append_nil] at hch1
  refine Act.wp_mono (collectPageStarts_spec free fuel c1.freeList r1 _ ⟨w1, c1⟩ (by omega) hfree1
    hch1 ?_ ?_) ?_ fun _ h => h
  · intro a ha hau
    exact (List.nodup_append.mp hnd).2.2 a
      (List.mem_filter.mp (List.mem_reverse.mp hau)).1 a ha rfl
  · rw [hw1]
    exact fun a ha => hmap a (List.mem_append_right _ ha)
  rintro r2 ⟨w2, c2⟩ ⟨hw2, hc2, hch2, -⟩
  simp only at hw2 hc2 hch2
  -- the page starts of both lists are the pages
  have hperm : ((starts free).reverse ++ (starts used).reverse).Perm pages := by
    have h2 : (starts (used ++ free)).Perm pages := by
      have := h.items.filter fun a => decide (a % 4096 = 0)
      rw [← starts_pages h0 h1 fun p hp => (h.mapped p hp).aligned]
      exact this
    refine List.Perm.trans ?_ h2
    simp only [starts, List.filter_append]
    exact ((List.reverse_perm _).append (List.reverse_perm _)).trans List.perm_append_comm
  have hcnt : c2.pageCnt = u64 ((starts free).reverse ++ (starts used).reverse).length := by
    rw [hperm.length_eq, hc2, hc1]
    exact h.pageCnt
  have hb2 : c2.base.Idle := by rw [hc2, hc1]; exact h.idle
  refine Act.wp_mono (releasePages_spec h0 h1 _ fuel r2 ⟨w2, c2⟩ ?_ hb2 hch2 ?_ hcnt) ?_ fun _ h => h
  · rw [List.length_append, List.length_reverse, List.length_reverse]
    have h3 : (starts free).length ≤ free.length := List.length_filter_le _ _
    have h4 : (starts used).length ≤ used.length := List.length_filter_le _ _
    omega
  · intro p hp
    rw [show (⟨w2, c2⟩ : St (CollectionInPages ItemT)).w = s.w from hw2.trans hw1]
    exact h.mapped p (hperm.mem_iff.mp hp)
  rintro _ ⟨w3, c3⟩ ⟨hw3, hc3, hb3⟩
  simp only at hw3 hc3 hb3
  simp only [Act.wp_assert, Act.wp_onSelf, decide_eq_true hc3, Bool.and_true]
  refine ⟨⟨_, hperm, ?_⟩, hb3, rfl, rfl, by simp, hc3, by simp, List.nodup_nil⟩
  rw [hw3, hw2, hw1]

omit [Inhabited ItemT] in
/-- An empty collection has nothing to release. -/
theorem deinit_empty {s : St (CollectionInPages ItemT)}
    (h : CollInv itemSize s.w.calls s.c [] [] []) {fuel : ℕ} :
    Act.wp (deinit itemSize fuel)
      (fun _ t => t.w = s.w ∧ CollInv itemSize t.w.calls t.c [] [] []) (fun _ => False) s := by
  have hhead : s.c.head = 0 := h.head
  have hfree : s.c.freeList = 0 := h.freeList
  have hcnt : s.c.pageCnt = 0 := h.pageCnt
  have hc : ∀ hd, (collectPageStarts itemSize fuel hd 0 : Act (St (CollectionInPages ItemT)) ℕ) =
      pure hd := fun hd => by cases fuel <;> simp [collectPageStarts]
  have hr : (releasePages itemSize fuel 0 : Act (St (CollectionInPages ItemT)) Unit) = pure () := by
    cases fuel <;> simp [releasePages]
  simp only [deinit, Act.wp_bind, Act.wp_read, hhead, hfree, hc, hr, Act.wp_pure, hcnt, Act.wp_assert,
    Act.wp_onSelf, decide_true, Bool.and_true]
  exact ⟨trivial, h.idle, rfl, rfl, h.items, rfl, h.mapped, h.nodup⟩

end CollectionInPages

end IibMalloc

/-
# PageAllocatorWithCaching: blocks that are cached

`freeChunk` keeps a block for the next request of its size: `freeBlocks[ix]`
holds blocks of `ix + 1` pages, at most `single_page_cache_size` of one page
and `multi_page_cache_size` of each larger size below `max_cached_size`. A
block's size stands in its header, which `getFreeBlock` writes and `freeChunk`
reads back; the header also links the cached blocks into the ring of their
list.

`CacheInv` is the invariant of a run: each list is a ring of blocks of its
size, and the blocks that the client holds, the cached ones and the released
ones are together those obtained. `cache_run` says what it gives to the client.
-/
import IibMalloc.PageAllocator
import IibMalloc.Lib.Ring
import IibMalloc.Lib.Run

namespace IibMalloc

open Lib

def single_page_cache_size : ℕ := 32
def multi_page_cache_size : ℕ := 4

namespace PageAllocatorWithCaching

/-! ### The program -/

/-- `MemoryBlockListItem::initialize` -/
def initItem (p : ItemPtr) (sz szIndex : ℕ) : Act (St PageAllocatorWithCaching) Unit :=
  Act.onSelf fun c => c.setItem p fun _ => { size := sz, prev := .null, next := .null, sizeIndex := szIndex }

def isInList (p : ItemPtr) : Act (St PageAllocatorWithCaching) Bool := do
  let item ← Act.read fun s => s.c.items p
  if item.prev = .null ∧ item.next = .null then return false
  else do
    Act.assert (decide (item.prev ≠ .null))
    Act.assert (decide (item.next ≠ .null))
    return true

def listInsertNext (p other : ItemPtr) : Act (St PageAllocatorWithCaching) Unit := do
  let this ← isInList p
  Act.assert this
  let inList ← isInList other
  Act.assert (!inList)
  let next ← Act.read fun s => (s.c.items p).next
  Act.onSelf fun c => c.setItem other fun i => { i with next := next }
  Act.onSelf fun c => c.setItem other fun i => { i with prev := p }
  Act.onSelf fun c => c.setItem next fun i => { i with prev := other }
  Act.onSelf fun c => c.setItem p fun i => { i with next := other }

/-- `MemoryBlockList::pushFront` of `freeBlocks[ix]` -/
def pushFront (ix : ℕ) (chk : ItemPtr) : Act (St PageAllocatorWithCaching) Unit := do
  listInsertNext (.lst ix) chk
  Act.onSelf fun c => { c with count := fun i => if i = ix then (c.count i + 1) % 2 ^ 32 else c.count i }

/-- `(sz >> blockSizeExp) - 1`, as a `size_t` -/
def sizeIndexOf (blockSizeExp sz : ℕ) : ℕ := u64 (sz >>> blockSizeExp + (2 ^ 64 - 1))

def getFreeBlock (os : Os) (sz : ℕ) : Act (St PageAllocatorWithCaching) ItemPtr := do
  Act.onSelf fun c => { c with stats := c.stats.registerAllocRequest sz }
  let blockSizeExp ← Act.read fun s => s.c.blockSizeExp
  Act.assert (isAlignedExp (BitVec.ofNat 64 sz) blockSizeExp)
  let ix := sizeIndexOf blockSizeExp sz
  let count ← Act.read fun s => s.c.count ix
  if ix < max_cached_size ∧ count ≠ 0 then do
    let chk ← popFront ix
    initItem chk sz ix
    return chk
  else do
    let ptr ← Act.onWorld (VirtualMemory.allocate os sz)
    Act.onSelf fun c => { c with stats := c.stats.registerSysAlloc sz }
    if ptr ≠ 0 then do
      initItem (.block ptr) sz ix
      return .block ptr
    else Act.throw

/-- Whether `freeChunk` keeps a block, where its list has `count` blocks. -/
def keeps (ix count : ℕ) : Bool :=
  if ix = 0 then decide (count < single_page_cache_size)
  else decide (ix < max_cached_size ∧ count < multi_page_cache_size)

def freeChunk (chk : ItemPtr) : Act (St PageAllocatorWithCaching) Unit := do
  let sz ← Act.read fun s => (s.c.items chk).size
  Act.onSelf fun c => { c with stats := c.stats.registerDeallocRequest sz }
  let blockSizeExp ← Act.read fun s => s.c.blockSizeExp
  let ix := sizeIndexOf blockSizeExp sz
  let count ← Act.read fun s => s.c.count ix
  if keeps ix count then pushFront ix chk
  else do
    Act.onWorld (VirtualMemory.deallocate (addrOf chk) sz)
    Act.onSelf fun c => { c with stats := c.stats.registerSysDealloc sz }

/-! ### The items -/

variable {s : St PageAllocatorWithCaching} {p q : ItemPtr} {ix : ℕ}

@[simp] theorem setItem_self (c : PageAllocatorWithCaching) (p : ItemPtr)
    (f : MemoryBlockListItem → MemoryBlockListItem) : (c.setItem p f).items p = f (c.items p) := if_pos rfl

theorem setItem_ne {c : PageAllocatorWithCaching} {f : MemoryBlockListItem → MemoryBlockListItem} (h : q ≠ p) :
    (c.setItem p f).items q = c.items q := if_neg h

/-- Only the items changed. -/
def SameButItems (c c' : PageAllocatorWithCaching) : Prop :=
  c'.count = c.count ∧ c'.stats = c.stats ∧ c'.blockSizeExp = c.blockSizeExp

/-- The links after `p` left its list. -/
theorem removeFromList_spec (hp : (s.c.items p).prev ≠ .null) (hn : (s.c.items p).next ≠ .null) :
    Act.wp (removeFromList p)
      (fun _ t => t.w = s.w ∧ SameButItems s.c t.c ∧
        (∀ q, (t.c.items q).size = (s.c.items q).size ∧ (t.c.items q).sizeIndex = (s.c.items q).sizeIndex) ∧
        (∀ q ≠ p, (t.c.items q).next =
          if q = (s.c.items p).prev then (s.c.items p).next else (s.c.items q).next) ∧
        (∀ q ≠ p, (t.c.items q).prev =
          if q = (s.c.items p).next then (s.c.items p).prev else (s.c.items q).prev) ∧
        (t.c.items p).next = .null ∧ (t.c.items p).prev = .null) (fun _ => False) s := by
  unfold removeFromList
  rw [Act.wp_bind, Act.wp_read, Act.wp_assert_true (decide_eq_true hp), Act.wp_assert_true (decide_eq_true hn)]
  simp only [Act.wp_bind, Act.wp_onSelf]
  refine ⟨trivial, ⟨rfl, rfl, rfl⟩, fun q => ?_, fun q hq => ?_, fun q hq => ?_, ?_, ?_⟩
  · simp only [setItem]
    split_ifs <;> exact ⟨rfl, rfl⟩
  · simp only [setItem]
    split_ifs <;> simp_all
  · simp only [setItem]
    split_ifs <;> simp_all
  · simp [setItem]
  · simp [setItem]

/-- And after `other`, which is in no list, became the next of `p`. -/
theorem listInsertNext_spec {other : ItemPtr} (hne : other ≠ p) (hpp : (s.c.items p).prev ≠ .null)
    (hpn : (s.c.items p).next ≠ .null) (hop : (s.c.items other).prev = .null)
    (hon : (s.c.items other).next = .null) :
    Act.wp (listInsertNext p other)
      (fun _ t => t.w = s.w ∧ SameButItems s.c t.c ∧
        (∀ q, (t.c.items q).size = (s.c.items q).size ∧ (t.c.items q).sizeIndex = (s.c.items q).sizeIndex) ∧
        (∀ q, (t.c.items q).next =
          if q = p then other else if q = other then (s.c.items p).next else (s.c.items q).next) ∧
        ∀ q, (t.c.items q).prev =
          if q = (s.c.items p).next then other else if q = other then p else (s.c.items q).prev) (fun _ => False) s := by
  unfold listInsertNext isInList
  simp only [Act.wp_bind, Act.wp_read, hpp, hpn, if_false, hop, hon, and_self, if_true, Act.wp_pure,
    Act.wp_assert, Act.wp_onSelf, ne_eq, not_false_eq_true, decide_true, Bool.not_false, Bool.and_true]
  refine ⟨trivial, ⟨rfl, rfl, rfl⟩, fun q => ?_, fun q => ?_, fun q => ?_⟩
  · simp only [setItem]
    split_ifs <;> exact ⟨rfl, rfl⟩
  · simp only [setItem]
    split_ifs <;> simp_all
  · simp only [setItem]
    split_ifs <;> simp_all

/-- A list of items that are not null loses one of them, wherever it stands. -/
theorem takeOut_spec (l₁ l₂ : List ItemPtr)
    (hR : Ring (fun q => (s.c.items q).next) (fun q => (s.c.items q).prev) (.lst ix) (l₁ ++ p :: l₂))
    (hnull : ∀ q ∈ l₁ ++ p :: l₂, q ≠ .null) :
    Act.wp (removeFromList p)
      (fun _ t => t.w = s.w ∧ SameButItems s.c t.c ∧
        (∀ q, (t.c.items q).size = (s.c.items q).size ∧ (t.c.items q).sizeIndex = (s.c.items q).sizeIndex) ∧
        Ring (fun q => (t.c.items q).next) (fun q => (t.c.items q).prev) (.lst ix) (l₁ ++ l₂) ∧
        ((t.c.items p).next = .null ∧ (t.c.items p).prev = .null) ∧
        ∀ q ∉ .lst ix :: (l₁ ++ p :: l₂),
          (t.c.items q).next = (s.c.items q).next ∧ (t.c.items q).prev = (s.c.items q).prev) (fun _ => False) s := by
  have hmem : p ∈ .lst ix :: (l₁ ++ p :: l₂) := by simp
  obtain ⟨hnext, hprev⟩ := hR.links_mem hmem
  have hsome : ∀ q ∈ .lst ix :: (l₁ ++ p :: l₂), q ≠ ItemPtr.null := fun q hq => by
    rcases List.mem_cons.mp hq with rfl | hq
    · exact fun he => by cases he
    · exact hnull q hq
  refine Act.wp_mono (removeFromList_spec (hsome _ hprev) (hsome _ hnext)) ?_ fun _ ht => ht
  intro _ t ⟨hw, hsame, hsize, hn, hp, hpn, hpp⟩
  have hne : ∀ q ∈ .lst ix :: (l₁ ++ l₂), q ≠ p := fun q hq he => by
    have hnd := hR.nodup
    rw [he] at hq
    rcases List.mem_cons.mp hq with hq | hq
    · rw [hq] at hnd
      exact (List.nodup_cons.mp hnd).1 (by simp)
    · have hnd' := List.nodup_middle.mp (List.nodup_cons.mp hnd).2
      exact (List.nodup_cons.mp hnd').1 hq
  refine ⟨hw, hsame, hsize, hR.remove (fun q hq => hn q (hne q hq)) fun q hq => hp q (hne q hq), ⟨hpn, hpp⟩, ?_⟩
  intro q hq
  have hqp : q ≠ p := fun he => hq (he ▸ hmem)
  rw [hn q hqp, hp q hqp, if_neg (ne_of_mem_of_not_mem hprev hq).symm, if_neg (ne_of_mem_of_not_mem hnext hq).symm]
  exact ⟨rfl, rfl⟩

/-- And gets a first item, which is in no list. -/
theorem putIn_spec {l : List ItemPtr}
    (hR : Ring (fun q => (s.c.items q).next) (fun q => (s.c.items q).prev) (.lst ix) l)
    (hnull : ∀ q ∈ l, q ≠ .null) (hmem : p ∉ .lst ix :: l)
    (hpn : (s.c.items p).next = .null) (hpp : (s.c.items p).prev = .null) :
    Act.wp (listInsertNext (.lst ix) p)
      (fun _ t => t.w = s.w ∧ SameButItems s.c t.c ∧
        (∀ q, (t.c.items q).size = (s.c.items q).size ∧ (t.c.items q).sizeIndex = (s.c.items q).sizeIndex) ∧
        Ring (fun q => (t.c.items q).next) (fun q => (t.c.items q).prev) (.lst ix) (p :: l) ∧
        ∀ q ∉ p :: .lst ix :: l,
          (t.c.items q).next = (s.c.items q).next ∧ (t.c.items q).prev = (s.c.items q).prev) (fun _ => False) s := by
  have hsentinel : ItemPtr.lst ix ∈ .lst ix :: l := List.mem_cons_self
  obtain ⟨hnext, hprev⟩ := hR.links_mem hsentinel
  have hsome : ∀ q ∈ .lst ix :: l, q ≠ ItemPtr.null := fun q hq => by
    rcases List.mem_cons.mp hq with rfl | hq
    · exact fun he => by cases he
    · exact hnull q hq
  have hne : p ≠ .lst ix := (ne_of_mem_of_not_mem hsentinel hmem).symm
  refine Act.wp_mono (listInsertNext_spec hne (hsome _ hprev) (hsome _ hnext) hpp hpn) ?_ fun _ ht => ht
  intro _ t ⟨hw, hsame, hsize, hn, hp⟩
  refine ⟨hw, hsame, hsize, hR.insert hmem (fun q _ => hn q) fun q _ => hp q, fun q hq => ?_⟩
  obtain ⟨hqp, hq⟩ := not_or.mp (mt List.mem_cons.mpr hq)
  rw [hn q, hp q, if_neg (ne_of_mem_of_not_mem hsentinel hq).symm, if_neg hqp,
    if_neg (ne_of_mem_of_not_mem hnext hq).symm, if_neg hqp]
  exact ⟨rfl, rfl⟩

/-! ### The invariant -/

/-- The cached blocks, with their sizes. -/
def cachedBlocks (cached : ℕ → List ℕ) : List (ℕ × ℕ) :=
  (List.range (max_cached_size + 1)).flatMap fun ix => (cached ix).map fun a => (a, (ix + 1) * PAGE_SIZE)

/-- The blocks `bs` lie apart and are mapped; with those released since `w₀`
they are the blocks obtained since then. -/
structure Holds (w₀ w : World) (bs : List (ℕ × ℕ)) : Prop where
  apart : bs.Pairwise Apart
  mapped : ∀ e ∈ bs, 0 < e.1 ∧ ∀ x, Within e.1 e.2 x → pageState w.calls x = .committed
  owned : ∃ run, w.calls = run ++ w₀.calls ∧ (obtained run).Perm (bs ++ releases run)
  asserts : w.assertsHold = w₀.assertsHold

/-- The client holds the blocks `live`, and `freeBlocks[ix]` the blocks
`cached ix`. -/
structure CacheInv (w₀ : World) (s : St PageAllocatorWithCaching) (live : List (ℕ × ℕ)) (cached : ℕ → List ℕ) :
    Prop where
  pages : s.c.blockSizeExp = PAGE_SIZE_EXP
  ring : ∀ ix ≤ max_cached_size, Ring (fun p => (s.c.items p).next) (fun p => (s.c.items p).prev) (.lst ix)
    ((cached ix).map .block)
  count : ∀ ix ≤ max_cached_size, s.c.count ix = (cached ix).length
  single : (cached 0).length ≤ single_page_cache_size
  multi : ∀ ix < max_cached_size, 0 < ix → (cached ix).length ≤ multi_page_cache_size
  large : cached max_cached_size = []
  size : ∀ ix ≤ max_cached_size, ∀ a ∈ cached ix, (s.c.items (.block a)).size = (ix + 1) * PAGE_SIZE
  header : ∀ e ∈ live, (s.c.items (.block e.1)).size = e.2 ∧ (s.c.items (.block e.1)).next = .null ∧
    (s.c.items (.block e.1)).prev = .null
  sizes : ∀ e ∈ live, 0 < e.2 ∧ 4096 ∣ e.2 ∧ e.2 < 2 ^ 64
  holds : Holds w₀ s.w (live ++ cachedBlocks cached)

variable {w₀ w : World} {bs bs' live live' : List (ℕ × ℕ)} {cached : ℕ → List ℕ} {a sz : ℕ} {l : List ℕ}

namespace Holds

theorem perm (h : Holds w₀ w bs) (hp : bs.Perm bs') : Holds w₀ w bs' := by
  obtain ⟨run, hrun, howned⟩ := h.owned
  exact ⟨(hp.pairwise_iff fun hab => Std.Symm.symm _ _ hab).mp h.apart, fun e he => h.mapped e (hp.mem_iff.mpr he),
    ⟨run, hrun, howned.trans (hp.append_right _)⟩, h.asserts⟩

theorem refused (h : Holds w₀ w bs) (n : ℕ) : Holds w₀ (w.refused n) bs := by
  obtain ⟨run, hrun, howned⟩ := h.owned
  exact ⟨h.apart, h.mapped, ⟨.refused n :: run, congrArg _ hrun, howned⟩, h.asserts⟩

/-- A fresh block. -/
theorem allocated (h : Holds w₀ w bs) (hf : FreshRegion w.calls a sz) : Holds w₀ (w.allocated a sz) ((a, sz) :: bs) := by
  obtain ⟨run, hrun, howned⟩ := h.owned
  have hap : ∀ e ∈ bs, Apart (a, sz) e := fun e he x hx hx' => by
    have := (h.mapped e he).2 x hx'
    rw [hf.unmapped x hx] at this
    cases this
  refine ⟨List.pairwise_cons.mpr ⟨hap, h.apart⟩, fun e he => ?_, ⟨.allocate a sz :: run, congrArg _ hrun, ?_⟩,
    h.asserts⟩
  · rcases List.mem_cons.mp he with rfl | he
    · exact ⟨hf.pos, fun x hx => if_pos hx⟩
    · refine ⟨(h.mapped e he).1, fun x hx => ?_⟩
      have hout : ¬ Within a sz x := fun hw => hap e he x hw hx
      simp only [World.allocated, pageState, if_neg hout]
      exact (h.mapped e he).2 x hx
  · exact howned.cons _

/-- A block is released, with the size it was obtained with. -/
theorem released (h : Holds w₀ w ((a, sz) :: bs)) : Holds w₀ (w.released a sz) bs := by
  obtain ⟨run, hrun, howned⟩ := h.owned
  obtain ⟨hap, hpw⟩ := List.pairwise_cons.mp h.apart
  refine ⟨hpw, fun e he => ?_, ⟨.release a sz :: run, congrArg _ hrun, ?_⟩, h.asserts⟩
  · have hm := h.mapped e (List.mem_cons_of_mem _ he)
    refine ⟨hm.1, fun x hx => ?_⟩
    have hout : ¬ Within a sz x := fun hw => hap e he x hw hx
    simp only [World.released, pageState, if_neg hout]
    exact hm.2 x hx
  · exact howned.trans List.perm_middle.symm

end Holds

theorem mem_cachedBlocks {e : ℕ × ℕ} :
    e ∈ cachedBlocks cached ↔ ∃ ix ≤ max_cached_size, ∃ a ∈ cached ix, e = (a, (ix + 1) * PAGE_SIZE) := by
  unfold cachedBlocks
  simp only [List.mem_flatMap, List.mem_range, List.mem_map, Nat.lt_succ_iff, eq_comm]

/-- Where one list of a family has an element more, so has the whole. -/
theorem flatMap_perm_cons {ι β : Type} {is : List ι} {i : ι} (hn : is.Nodup) (hi : i ∈ is) {f g : ι → List β} {x : β}
    (hfi : f i = x :: g i) (hf : ∀ j ∈ is, j ≠ i → f j = g j) : (is.flatMap f).Perm (x :: is.flatMap g) := by
  obtain ⟨l₁, l₂, rfl⟩ := List.append_of_mem hi
  obtain ⟨-, h2, h3⟩ := List.nodup_append.mp hn
  have h₁ : l₁.flatMap f = l₁.flatMap g := List.flatMap_congr fun j hj =>
    hf j (by simp [hj]) fun he => h3 j hj i List.mem_cons_self he
  have h₂ : l₂.flatMap f = l₂.flatMap g := List.flatMap_congr fun j hj =>
    hf j (by simp [hj]) fun he => (List.nodup_cons.mp h2).1 (he ▸ hj)
  rw [List.flatMap_append, List.flatMap_append, List.flatMap_cons, List.flatMap_cons, h₁, h₂, hfi, List.cons_append]
  exact List.perm_middle

/-- The cached blocks, where a list has one more. -/
theorem cachedBlocks_perm (hix : ix ≤ max_cached_size) (hc : cached ix = a :: l) :
    (cachedBlocks cached).Perm ((a, (ix + 1) * PAGE_SIZE) :: cachedBlocks (Function.update cached ix l)) := by
  refine flatMap_perm_cons List.nodup_range (List.mem_range.mpr (Nat.lt_succ_of_le hix)) ?_ fun j _ hj => ?_
  · simp [hc]
  · simp only [Function.update_of_ne hj]

namespace CacheInv

/-- The order in which the client holds its blocks does not matter. -/
theorem perm (h : CacheInv w₀ s live cached) (hp : live.Perm live') : CacheInv w₀ s live' cached := by
  exact { h with
    header := fun e he => h.header e (hp.mem_iff.mpr he)
    sizes := fun e he => h.sizes e (hp.mem_iff.mpr he)
    holds := h.holds.perm (hp.append_right _) }

/-- A block is in one list, and not with the client. -/
theorem cached_unique (h : CacheInv w₀ s live cached) {i j : ℕ} (hi : i ≤ max_cached_size) (hj : j ≤ max_cached_size)
    (hai : a ∈ cached i) (haj : a ∈ cached j) : i = j := by
  by_contra hne
  have hpw := (List.pairwise_append.mp h.holds.apart).2.1
  have hne' : (a, (i + 1) * PAGE_SIZE) ≠ (a, (j + 1) * PAGE_SIZE) := fun he => by
    have := (Prod.mk.inj he).2
    rw [PAGE_SIZE_eq] at this
    omega
  have hap : Apart (a, (i + 1) * PAGE_SIZE) (a, (j + 1) * PAGE_SIZE) :=
    hpw.forall (mem_cachedBlocks.mpr ⟨i, hi, a, hai, rfl⟩) (mem_cachedBlocks.mpr ⟨j, hj, a, haj, rfl⟩) hne'
  refine hap a ⟨le_rfl, ?_⟩ ⟨le_rfl, ?_⟩
  · rw [PAGE_SIZE_eq]; dsimp only; omega
  · rw [PAGE_SIZE_eq]; dsimp only; omega

theorem live_not_cached (h : CacheInv w₀ s live cached) {e : ℕ × ℕ} (he : e ∈ live) (hix : ix ≤ max_cached_size) :
    e.1 ∉ cached ix := by
  intro hc
  have hap := (List.pairwise_append.mp h.holds.apart).2.2 e he _ (mem_cachedBlocks.mpr ⟨ix, hix, e.1, hc, rfl⟩)
  refine hap e.1 ⟨le_rfl, ?_⟩ ⟨le_rfl, ?_⟩
  · have := (h.sizes e he).1
    omega
  · rw [PAGE_SIZE_eq]; dsimp only; omega

/-- The nodes of two lists are apart. -/
theorem nodes_ne (h : CacheInv w₀ s live cached) {i j : ℕ} (hi : i ≤ max_cached_size) (hj : j ≤ max_cached_size)
    (hne : i ≠ j) (hp : p ∈ ItemPtr.lst i :: (cached i).map .block)
    (hq : q ∈ ItemPtr.lst j :: (cached j).map .block) : p ≠ q := by
  rintro rfl
  rcases List.mem_cons.mp hp with rfl | hp
  · rcases List.mem_cons.mp hq with hq | hq
    · exact hne (ItemPtr.lst.inj hq)
    · obtain ⟨b, -, hb⟩ := List.mem_map.mp hq
      cases hb
  · obtain ⟨b, hb, rfl⟩ := List.mem_map.mp hp
    rcases List.mem_cons.mp hq with hq | hq
    · cases hq
    · obtain ⟨c, hc, hcb⟩ := List.mem_map.mp hq
      obtain rfl := ItemPtr.block.inj hcb
      exact hne (h.cached_unique hi hj hb hc)

/-- The lists are short. -/
theorem length_le (h : CacheInv w₀ s live cached) (hix : ix ≤ max_cached_size) : (cached ix).length ≤ 32 := by
  rcases Nat.eq_zero_or_pos ix with rfl | h0
  · exact h.single
  · rcases Nat.eq_or_lt_of_le hix with rfl | hlt
    · rw [h.large]
      exact Nat.zero_le _
    · exact (h.multi ix hlt h0).trans (by decide)

end CacheInv

/-! ### The steps -/

variable {t : St PageAllocatorWithCaching}

/-- The other lists are as they were, where only nodes of the list `ix` and `p`,
which is in no other list, have new links. -/
theorem CacheInv.ring_other (h : CacheInv w₀ s live cached) (hix : ix ≤ max_cached_size)
    (hp : ∀ j ≤ max_cached_size, j ≠ ix → p ∉ ItemPtr.lst j :: (cached j).map .block)
    (hlinks : ∀ q, q ≠ p → q ∉ ItemPtr.lst ix :: (cached ix).map .block →
      (t.c.items q).next = (s.c.items q).next ∧ (t.c.items q).prev = (s.c.items q).prev) {j : ℕ}
    (hj : j ≤ max_cached_size) (hne : j ≠ ix) :
    Ring (fun p => (t.c.items p).next) (fun p => (t.c.items p).prev) (.lst j) ((cached j).map .block) := by
  have hkeep : ∀ q ∈ ItemPtr.lst j :: (cached j).map .block,
      (t.c.items q).next = (s.c.items q).next ∧ (t.c.items q).prev = (s.c.items q).prev := fun q hq =>
    hlinks q (fun he => hp j hj hne (he ▸ hq)) fun hq' => h.nodes_ne hix hj (Ne.symm hne) hq' hq rfl
  exact (h.ring j hj).congr (fun q hq => (hkeep q hq).1) fun q hq => (hkeep q hq).2

/-- The first block of a list leaves it. -/
theorem popFront_spec (h : CacheInv w₀ s live cached) (hix : ix ≤ max_cached_size) (hc : cached ix = a :: l) :
    Act.wp (popFront ix)
      (fun p t => p = .block a ∧ t.w = s.w ∧ (t.c.items (.block a)).size = (ix + 1) * PAGE_SIZE ∧
        CacheInv w₀ t ((a, (ix + 1) * PAGE_SIZE) :: live) (Function.update cached ix l)) (fun _ => False) s := by
  have hR := h.ring ix hix
  rw [hc, List.map_cons] at hR
  have hfirst : (s.c.items (.lst ix)).next = .block a := hR.first
  have hnode : ItemPtr.block a ∈ ItemPtr.lst ix :: (cached ix).map .block := by simp [hc]
  have hcount := h.count ix hix
  unfold popFront
  rw [Act.wp_bind, Act.wp_read, hcount, hc, Act.wp_assert_true (by simp), Act.wp_bind, Act.wp_read, hfirst, Act.wp_bind]
  refine Act.wp_mono (takeOut_spec [] _ hR (by simp)) ?_ fun _ ht => ht
  intro _ t ⟨hw, ⟨hcnt, _, hexp⟩, hsize, hring, ⟨hna, hpa⟩, hlinks⟩
  rw [Act.wp_bind, Act.wp_onSelf, Act.wp_pure]
  have hout : ∀ q, q ∉ ItemPtr.lst ix :: (cached ix).map .block →
      (t.c.items q).next = (s.c.items q).next ∧ (t.c.items q).prev = (s.c.items q).prev := fun q hq =>
    hlinks q (by rwa [hc, List.map_cons] at hq)
  have hother : ∀ j ≤ max_cached_size, j ≠ ix → ItemPtr.block a ∉ ItemPtr.lst j :: (cached j).map .block :=
    fun j hj hne hm => h.nodes_ne hix hj (Ne.symm hne) hnode hm rfl
  have hix20 : ix ≤ 20 := hix
  have hlist : ∀ j ≤ max_cached_size, ∀ b ∈ Function.update cached ix l j, b ∈ cached j := fun j _ b hb => by
    by_cases hj : j = ix
    · rw [hj, Function.update_self] at hb
      rw [hj, hc]
      exact List.mem_cons_of_mem a hb
    · rwa [Function.update_of_ne hj] at hb
  have hlen : ∀ j, (Function.update cached ix l j).length ≤ (cached j).length := fun j => by
    by_cases hj : j = ix
    · rw [hj, Function.update_self, hc]
      exact Nat.le_succ _
    · rw [Function.update_of_ne hj]
  refine ⟨rfl, hw, (hsize _).1.trans (h.size ix hix a (by simp [hc])), ?_⟩
  refine
    { pages := hexp.trans h.pages
      ring := fun j hj => ?_
      count := fun j hj => ?_
      single := (hlen 0).trans h.single
      multi := fun j hj hj0 => (hlen j).trans (h.multi j hj hj0)
      large := List.eq_nil_of_length_eq_zero (by have := hlen max_cached_size; rw [h.large] at this; exact Nat.le_zero.mp this)
      size := fun j hj b hb => (hsize _).1.trans (h.size j hj b (hlist j hj b hb))
      header := fun e he => ?_
      sizes := fun e he => ?_
      holds := ?_ }
  · by_cases hj' : j = ix
    · subst hj'
      rw [Function.update_self]
      exact hring
    · rw [Function.update_of_ne hj']
      exact h.ring_other hix hother (fun q _ => hout q) hj hj'
  · show (if j = ix then (t.c.count j + (2 ^ 32 - 1)) % 2 ^ 32 else t.c.count j) = _
    rw [hcnt]
    by_cases hj' : j = ix
    · have hle := h.length_le hix
      rw [hc, List.length_cons] at hle
      rw [if_pos hj', hj', Function.update_self, hcount, hc, List.length_cons]
      omega
    · rw [if_neg hj', Function.update_of_ne hj', h.count j hj]
  · rcases List.mem_cons.mp he with rfl | he
    · exact ⟨(hsize _).1.trans (h.size ix hix a (by simp [hc])), hna, hpa⟩
    · obtain ⟨h1, h2, h3⟩ := h.header e he
      have hne : e.1 ∉ cached ix := h.live_not_cached he hix
      have hq : ItemPtr.block e.1 ∉ ItemPtr.lst ix :: (cached ix).map .block := by simpa using hne
      obtain ⟨h4, h5⟩ := hout (.block e.1) hq
      exact ⟨(hsize _).1.trans h1, h4.trans h2, h5.trans h3⟩
  · rcases List.mem_cons.mp he with rfl | he
    · rw [PAGE_SIZE_eq]
      exact ⟨by dsimp only; omega, Nat.dvd_mul_left _ _, by dsimp only; omega⟩
    · exact h.sizes e he
  · show Holds w₀ t.w _
    rw [hw]
    exact h.holds.perm (((cachedBlocks_perm hix hc).append_left live).trans List.perm_middle)

/-- A block of the client becomes the first of the list of its size. -/
theorem pushFront_spec (h : CacheInv w₀ s ((a, (ix + 1) * PAGE_SIZE) :: live) cached) (hix : ix < max_cached_size)
    (hkeep : keeps ix (cached ix).length = true) :
    Act.wp (pushFront ix (.block a))
      (fun _ t => t.w = s.w ∧ CacheInv w₀ t live (Function.update cached ix (a :: cached ix))) (fun _ => False) s := by
  have hle := hix.le
  have hR := h.ring ix hle
  obtain ⟨hsz, hna, hpa⟩ := h.header _ List.mem_cons_self
  have hnot : ∀ j ≤ max_cached_size, ItemPtr.block a ∉ ItemPtr.lst j :: (cached j).map .block := fun j hj => by
    have := h.live_not_cached List.mem_cons_self hj
    simpa using this
  unfold pushFront
  rw [Act.wp_bind]
  refine Act.wp_mono (putIn_spec hR (by simp) (hnot ix hle) hna hpa) ?_ fun _ ht => ht
  intro _ t ⟨hw, ⟨hcnt, _, hexp⟩, hsize, hring, hlinks⟩
  rw [Act.wp_onSelf]
  refine ⟨hw, ?_⟩
  have hout : ∀ q, q ≠ .block a → q ∉ ItemPtr.lst ix :: (cached ix).map .block →
      (t.c.items q).next = (s.c.items q).next ∧ (t.c.items q).prev = (s.c.items q).prev := fun q hqa hq =>
    hlinks q (mt List.mem_cons.mp (not_or.mpr ⟨hqa, hq⟩))
  have hupd : ∀ j, j ≠ ix → Function.update cached ix (a :: cached ix) j = cached j := fun j hj =>
    Function.update_of_ne hj _ _
  have hself : Function.update cached ix (a :: cached ix) ix = a :: cached ix := Function.update_self _ _ _
  refine
    { pages := hexp.trans h.pages
      ring := fun j hj => ?_
      count := fun j hj => ?_
      single := ?_
      multi := fun j hj hj0 => ?_
      large := (hupd _ hix.ne').trans h.large
      size := fun j hj b hb => (hsize _).1.trans ?_
      header := fun e he => ?_
      sizes := fun e he => h.sizes e (List.mem_cons_of_mem _ he)
      holds := ?_ }
  · by_cases hj' : j = ix
    · subst hj'
      rw [hself]
      exact hring
    · rw [hupd j hj']
      exact h.ring_other hle (fun j hj _ => hnot j hj) hout hj hj'
  · show (if j = ix then (t.c.count j + 1) % 2 ^ 32 else t.c.count j) = _
    rw [hcnt, h.count j hj]
    by_cases hj' : j = ix
    · subst hj'
      rw [if_pos rfl, hself, List.length_cons]
      have := h.length_le hle
      omega
    · rw [if_neg hj', hupd j hj']
  · by_cases hj' : 0 = ix
    · subst hj'
      rw [hself]
      exact of_decide_eq_true hkeep
    · rw [hupd 0 hj']
      exact h.single
  · by_cases hj' : j = ix
    · subst hj'
      rw [hself]
      unfold keeps at hkeep
      rw [if_neg (by omega)] at hkeep
      exact (of_decide_eq_true hkeep).2
    · rw [hupd j hj']
      exact h.multi j hj hj0
  · by_cases hj' : j = ix
    · subst hj'
      rw [hself] at hb
      rcases List.mem_cons.mp hb with rfl | hb
      · exact hsz
      · exact h.size j hj b hb
    · rw [hupd j hj'] at hb
      exact h.size j hj b hb
  · obtain ⟨h1, h2, h3⟩ := h.header e (List.mem_cons_of_mem _ he)
    have hq : ItemPtr.block e.1 ∉ ItemPtr.lst ix :: (cached ix).map .block := by
      have := h.live_not_cached (List.mem_cons_of_mem _ he) hle
      simpa using this
    -- the client's blocks are apart
    have hne : ItemPtr.block e.1 ≠ .block a := fun hea => by
      have hap := (List.pairwise_cons.mp h.holds.apart).1 e (List.mem_append_left _ he)
      have hea := ItemPtr.block.inj hea
      have hpos := (h.sizes e (List.mem_cons_of_mem _ he)).1
      refine hap a ⟨le_rfl, ?_⟩ ⟨hea.le, ?_⟩
      · rw [PAGE_SIZE_eq]; dsimp only; omega
      · omega
    obtain ⟨h4, h5⟩ := hout _ hne hq
    exact ⟨(hsize _).1.trans h1, h4.trans h2, h5.trans h3⟩
  · show Holds w₀ t.w _
    rw [hw]
    have hperm : (cachedBlocks (Function.update cached ix (a :: cached ix))).Perm _ := cachedBlocks_perm hle hself
    rw [Function.update_idem, Function.update_eq_self] at hperm
    exact h.holds.perm (List.perm_middle.symm.trans (hperm.symm.append_left live))

/-- The index of a size. -/
theorem sizeIndexOf_eq (hpos : 0 < sz) (hd : 4096 ∣ sz) (hlt : sz < 2 ^ 64) :
    (sizeIndexOf PAGE_SIZE_EXP sz + 1) * PAGE_SIZE = sz := by
  unfold sizeIndexOf u64
  rw [PAGE_SIZE_EXP_eq, PAGE_SIZE_eq, Nat.shiftRight_eq_div_pow]
  omega

namespace CacheInv

theorem of_stats (h : CacheInv w₀ s live cached) (st : BlockStats) :
    CacheInv w₀ ⟨s.w, { s.c with stats := st }⟩ live cached :=
  ⟨h.pages, h.ring, h.count, h.single, h.multi, h.large, h.size, h.header, h.sizes, h.holds⟩

theorem refused (h : CacheInv w₀ s live cached) (n : ℕ) : CacheInv w₀ ⟨s.w.refused n, s.c⟩ live cached :=
  ⟨h.pages, h.ring, h.count, h.single, h.multi, h.large, h.size, h.header, h.sizes, h.holds.refused n⟩

/-- A block of the client is unmapped. -/
theorem released (h : CacheInv w₀ s ((a, sz) :: live) cached) : CacheInv w₀ ⟨s.w.released a sz, s.c⟩ live cached :=
  ⟨h.pages, h.ring, h.count, h.single, h.multi, h.large, h.size, fun e he => h.header e (List.mem_cons_of_mem _ he),
    fun e he => h.sizes e (List.mem_cons_of_mem _ he), h.holds.released⟩

/-- The header of a block that no list has, and the client does not hold, is
written. -/
theorem initItem {c : PageAllocatorWithCaching} {w₁ : World} (h : CacheInv w₀ ⟨w₁, c⟩ live cached)
    (hholds : Holds w₀ w ((a, sz) :: (live ++ cachedBlocks cached))) (hsz : 0 < sz ∧ 4096 ∣ sz ∧ sz < 2 ^ 64)
    (szIndex : ℕ) : CacheInv w₀
      ⟨w, c.setItem (.block a) fun _ => { size := sz, prev := .null, next := .null, sizeIndex := szIndex }⟩
      ((a, sz) :: live) cached := by
  have hap := (List.pairwise_cons.mp hholds.apart).1
  have hnot : ∀ e ∈ live ++ cachedBlocks cached, 0 < e.2 → e.1 ≠ a := fun e he hpos hea =>
    hap e he a ⟨le_rfl, by have := hsz.1; dsimp only; omega⟩ ⟨hea.le, by omega⟩
  have hcached : ∀ j ≤ max_cached_size, ∀ b ∈ cached j, ItemPtr.block b ≠ .block a := fun j hj b hb he => by
    refine hnot _ (List.mem_append_right live (mem_cachedBlocks.mpr ⟨j, hj, b, hb, rfl⟩)) ?_ (ItemPtr.block.inj he)
    rw [PAGE_SIZE_eq]
    dsimp only
    omega
  have hnode : ∀ j ≤ max_cached_size, ∀ q ∈ ItemPtr.lst j :: (cached j).map .block, q ≠ .block a := fun j hj q hq => by
    rcases List.mem_cons.mp hq with rfl | hq
    · simp
    · obtain ⟨b, hb, rfl⟩ := List.mem_map.mp hq
      exact hcached j hj b hb
  refine
    { h with
      ring := fun j hj => (h.ring j hj).congr (fun q hq => ?_) fun q hq => ?_
      size := fun j hj b hb => ?_
      header := fun e he => ?_
      sizes := fun e he => ?_
      holds := hholds }
  · rw [setItem_ne (hnode j hj q hq)]
  · rw [setItem_ne (hnode j hj q hq)]
  · rw [setItem_ne (hcached j hj b hb)]
    exact h.size j hj b hb
  · rcases List.mem_cons.mp he with rfl | he
    · rw [setItem_self]
      exact ⟨rfl, rfl, rfl⟩
    · have hne := hnot e (List.mem_append_left _ he) (h.sizes e he).1
      rw [setItem_ne fun hea => hne (ItemPtr.block.inj hea)]
      exact h.header e he
  · rcases List.mem_cons.mp he with rfl | he
    · exact hsz
    · exact h.sizes e he

end CacheInv

theorem getFreeBlock_spec (os : Os) (h : CacheInv w₀ s live cached) (hpos : 0 < sz) (hd : 4096 ∣ sz)
    (hlt : sz < 2 ^ 64) :
    Act.wp (getFreeBlock os sz)
      (fun p t => ∃ a cached', p = .block a ∧ CacheInv w₀ t ((a, sz) :: live) cached')
      (fun t => CacheInv w₀ t live cached) s := by
  have hix := sizeIndexOf_eq hpos hd hlt
  have ha : isAlignedExp (BitVec.ofNat 64 sz) PAGE_SIZE_EXP = true := isAlignedExp_page hd
  obtain ⟨ix, hixe⟩ : ∃ ix, ix = sizeIndexOf PAGE_SIZE_EXP sz := ⟨_, rfl⟩
  have h₁ := h.of_stats (s.c.stats.registerAllocRequest sz)
  unfold getFreeBlock
  rw [Act.wp_bind, Act.wp_onSelf]
  generalize ({ s.c with stats := s.c.stats.registerAllocRequest sz } : PageAllocatorWithCaching) = c at h₁ ⊢
  rw [Act.wp_bind, Act.wp_read, h₁.pages, Act.wp_assert_true ha, ← hixe, Act.wp_bind, Act.wp_read]
  rw [← hixe] at hix
  split_ifs with hc
  · -- a cached block of the size
    obtain ⟨b, l, hbl⟩ : ∃ b l, cached ix = b :: l := by
      cases hcl : cached ix with
      | nil => exact absurd ((h₁.count ix hc.1.le).trans (by rw [hcl]; rfl)) hc.2
      | cons b l => exact ⟨b, l, rfl⟩
    rw [Act.wp_bind]
    refine Act.wp_mono (popFront_spec h₁ hc.1.le hbl) ?_ fun _ ht => ht.elim
    intro _ t ⟨hp, hw, hsize, hI⟩
    rw [hp, hix] at *
    rw [Act.wp_bind, PageAllocatorWithCaching.initItem, Act.wp_onSelf, Act.wp_pure]
    exact ⟨b, _, rfl, hI.released.initItem hI.holds ⟨hpos, hd, hlt⟩ ix⟩
  · -- a fresh block
    rw [Act.wp_bind, Act.wp_onWorld, VirtualMemory.wp_allocate]
    refine ⟨fun b hb => ?_, fun _ => h₁.refused sz⟩
    have hf := os.fresh hb
    rw [Act.wp_bind, Act.wp_onSelf, if_pos hf.pos.ne', Act.wp_bind, PageAllocatorWithCaching.initItem, Act.wp_onSelf,
      Act.wp_pure]
    exact ⟨b, cached, rfl, (h₁.of_stats _).initItem (h₁.holds.allocated hf) ⟨hpos, hd, hlt⟩ ix⟩

theorem freeChunk_spec (h : CacheInv w₀ s ((a, sz) :: live) cached) :
    Act.wp (freeChunk (.block a)) (fun _ t => ∃ cached', CacheInv w₀ t live cached') (fun _ => False) s := by
  obtain ⟨hpos, hd, hlt⟩ : 0 < sz ∧ 4096 ∣ sz ∧ sz < 2 ^ 64 := h.sizes _ List.mem_cons_self
  have hix := sizeIndexOf_eq hpos hd hlt
  obtain ⟨ix, hixe⟩ : ∃ ix, ix = sizeIndexOf PAGE_SIZE_EXP sz := ⟨_, rfl⟩
  rw [← hixe] at hix
  have h₁ := h.of_stats (s.c.stats.registerDeallocRequest sz)
  have hsize : (s.c.items (.block a)).size = sz := (h.header _ List.mem_cons_self).1
  unfold freeChunk
  rw [Act.wp_bind, Act.wp_read, hsize, Act.wp_bind, Act.wp_onSelf]
  generalize ({ s.c with stats := s.c.stats.registerDeallocRequest sz } : PageAllocatorWithCaching) = c at h₁ ⊢
  rw [Act.wp_bind, Act.wp_read, h₁.pages, ← hixe, Act.wp_bind, Act.wp_read]
  split_ifs with hk
  · have hlt20 : ix < max_cached_size := by
      unfold keeps at hk
      split_ifs at hk with h0
      · rw [h0]
        decide
      · exact (of_decide_eq_true hk).1
    rw [h₁.count ix hlt20.le] at hk
    rw [← hix] at h₁
    refine Act.wp_mono (pushFront_spec h₁ hlt20 hk) ?_ fun _ ht => ht
    exact fun _ t ht => ⟨_, ht.2⟩
  · rw [Act.wp_bind, Act.wp_onWorld, VirtualMemory.wp_deallocate, Act.wp_onSelf]
    rw [decide_eq_true (Nat.mod_eq_zero_of_dvd hd), Bool.and_true]
    exact ⟨cached, h₁.released.of_stats _⟩

/-! ### deinitialize -/

/-- The blocks `rel` were released, latest first. -/
def Releases (w w' : World) (rel : List (ℕ × ℕ)) : Prop :=
  w'.calls = (rel.map fun q => .release q.1 q.2) ++ w.calls

theorem drain_spec (hix : ix ≤ max_cached_size) (h : CacheInv w₀ s live cached) (hc : cached ix = l) :
    Act.wp (drain ix l.length)
      (fun _ t => (∃ rel, Releases s.w t.w rel ∧ rel.Perm (l.map fun a => (a, (ix + 1) * PAGE_SIZE))) ∧
        CacheInv w₀ t live (Function.update cached ix [])) (fun _ => False) s := by
  induction l generalizing s cached with
  | nil =>
    rw [List.length_nil, drain, Act.wp_pure, ← hc, Function.update_eq_self]
    exact ⟨⟨[], rfl, by rw [hc]; exact .refl _⟩, h⟩
  | cons a l ih =>
    rw [List.length_cons, drain, Act.wp_bind]
    refine Act.wp_mono (popFront_spec h hix hc) ?_ fun _ ht => ht
    intro _ t ht
    obtain ⟨hp, hw, hsize, hI⟩ := ht
    have hwhole : decide ((ix + 1) * PAGE_SIZE % 4096 = 0) = true := decide_eq_true (Nat.mul_mod_left _ _)
    rw [hp, Act.wp_bind, Act.wp_read, hsize, Act.wp_bind, Act.wp_onWorld, VirtualMemory.wp_deallocate, Act.wp_bind,
      Act.wp_onSelf, hwhole, Bool.and_true]
    refine Act.wp_mono (ih (hI.released.of_stats _) (Function.update_self _ _ _)) ?_ fun _ ht => ht
    intro _ u hu
    obtain ⟨⟨rel, hrel, hperm⟩, hJ⟩ := hu
    rw [Function.update_idem] at hJ
    refine ⟨⟨rel ++ [(a, (ix + 1) * PAGE_SIZE)], ?_, ?_⟩, hJ⟩
    · unfold Releases at hrel ⊢
      rw [hrel, ← hw]
      simp [World.released, addrOf]
    · exact (List.perm_append_singleton _ _).trans (hperm.cons _)

theorem drainFrom_cached (n : ℕ) (hn : ix + n = max_cached_size + 1) (h : CacheInv w₀ s live cached) :
    Act.wp (drainFrom ix n)
      (fun _ t => (∃ rel, Releases s.w t.w rel ∧
          rel.Perm ((List.range' ix n).flatMap fun j => (cached j).map fun a => (a, (j + 1) * PAGE_SIZE))) ∧
        ∃ cached', CacheInv w₀ t live cached' ∧ (∀ j < ix, cached' j = cached j) ∧
          ∀ j ≤ max_cached_size, ix ≤ j → cached' j = []) (fun _ => False) s := by
  induction n generalizing ix s cached with
  | zero =>
    rw [drainFrom, Act.wp_pure]
    exact ⟨⟨[], rfl, .refl _⟩, cached, h, fun _ _ => rfl, fun j hj hj' => by omega⟩
  | succ n ih =>
    have hix : ix ≤ max_cached_size := by omega
    rw [drainFrom, Act.wp_bind, Act.wp_read, h.count ix hix, Act.wp_bind]
    refine Act.wp_mono (drain_spec hix h rfl) ?_ fun _ ht => ht
    intro _ t ht
    obtain ⟨⟨rel, hrel, hperm⟩, hI⟩ := ht
    refine Act.wp_mono (ih (by omega) hI) ?_ fun _ ht => ht
    intro _ u hu
    obtain ⟨⟨rel', hrel', hperm'⟩, cached', hJ, hbelow, habove⟩ := hu
    refine ⟨⟨rel' ++ rel, ?_, ?_⟩, cached', hJ, fun j hj => ?_, fun j hj hle => ?_⟩
    · unfold Releases at hrel hrel' ⊢
      rw [hrel', hrel, List.map_append, List.append_assoc]
    · have hrest : (List.range' (ix + 1) n).flatMap
          (fun j => (Function.update cached ix [] j).map fun a => (a, (j + 1) * PAGE_SIZE)) =
          (List.range' (ix + 1) n).flatMap fun j => (cached j).map fun a => (a, (j + 1) * PAGE_SIZE) :=
        List.flatMap_congr fun j hj => by
          have := (List.mem_range'_1.mp hj).1
          rw [Function.update_of_ne (by omega)]
      rw [hrest] at hperm'
      rw [List.range'_succ, List.flatMap_cons]
      exact List.perm_append_comm.trans (hperm.append hperm')
    · rw [hbelow j (by omega), Function.update_of_ne (by omega)]
    · rcases Nat.eq_or_lt_of_le hle with rfl | hlt
      · rw [hbelow ix (by omega), Function.update_self]
      · exact habove j hj hlt

/-- `deinitialize` unmaps each cached block once. -/
theorem deinit_cached (h : CacheInv w₀ s live cached) :
    Act.wp deinit
      (fun _ t => (∃ rel, Releases s.w t.w rel ∧ rel.Perm (cachedBlocks cached)) ∧
        ∃ cached', CacheInv w₀ t live cached' ∧ ∀ j ≤ max_cached_size, cached' j = []) (fun _ => False) s := by
  unfold deinit
  refine Act.wp_mono (drainFrom_cached (max_cached_size + 1) (Nat.zero_add _) h) ?_ fun _ ht => ht
  intro _ t ⟨⟨rel, hrel, hperm⟩, cached', hI, _, hempty⟩
  rw [← List.range_eq_range'] at hperm
  exact ⟨⟨rel, hrel, hperm⟩, cached', hI, fun j hj => hempty j hj (Nat.zero_le j)⟩

/-! ### Runs -/

structure CacheRun where
  s : St PageAllocatorWithCaching
  /-- the blocks the client holds, with their sizes, latest first -/
  live : List (ℕ × ℕ)

inductive CacheOp where
  | getFreeBlock (sz : ℕ)
  | freeChunk (e : ℕ × ℕ)

/-- One call: a request for whole pages, or the return of a block that the
client holds. A request that is refused throws. -/
def CacheRun.step (os : Os) (r : CacheRun) : CacheOp → Option CacheRun
  | .getFreeBlock sz =>
    if 0 < sz ∧ 4096 ∣ sz ∧ sz < 2 ^ 64 then
      match Act.exec (PageAllocatorWithCaching.getFreeBlock os sz) r.s with
      | .ret p t => some ⟨t, (addrOf p, sz) :: r.live⟩
      | .throw t => some ⟨t, r.live⟩
      | .stuck => none
    else none
  | .freeChunk e =>
    if e ∈ r.live then
      match Act.exec (PageAllocatorWithCaching.freeChunk (.block e.1)) r.s with
      | .ret _ t => some ⟨t, r.live.erase e⟩
      | .throw t => some ⟨t, r.live⟩
      | .stuck => none
    else none

/-- The state after `initialize`, from any state. -/
def CacheRun.Starts (w : World) (r : CacheRun) : Prop :=
  ∃ c, Act.exec (init PAGE_SIZE_EXP) ⟨w, c⟩ = .ret () r.s ∧ r.live = []

variable {os : Os} {r₀ r r' : CacheRun}

/-- `initialize` makes the lists empty. -/
theorem init_cache (w : World) (c : PageAllocatorWithCaching) :
    Act.wp (init PAGE_SIZE_EXP) (fun _ t => CacheInv w t [] fun _ => []) (fun _ => False) ⟨w, c⟩ := by
  have hnil : cachedBlocks (fun _ => []) = [] := List.flatMap_eq_nil_iff.mpr fun _ _ => rfl
  unfold init
  rw [Act.wp_onSelf]
  refine
    { pages := rfl
      ring := fun ix hix => ?_
      count := fun ix hix => ?_
      single := Nat.zero_le _
      multi := fun _ _ _ => Nat.zero_le _
      large := rfl
      size := fun _ _ a ha => ?_
      header := fun e he => ?_
      sizes := fun e he => ?_
      holds := ⟨?_, fun e he => ?_, ⟨[], rfl, ?_⟩, rfl⟩ }
  · rw [List.map_nil]
    refine Ring.empty ?_ ?_
    · simp only [if_pos hix]
    · simp only [if_pos hix]
  · simp only [if_pos hix, List.length_nil]
  · cases ha
  · cases he
  · cases he
  · rw [hnil]
    exact .nil
  · rw [hnil] at he
    cases he
  · rw [hnil]
    exact .refl _

theorem CacheRun.Starts.inv {w₀ : World} (h : r₀.Starts w₀) : ∃ cached, CacheInv w₀ r₀.s r₀.live cached := by
  obtain ⟨c, hc, hl⟩ := h
  rw [hl]
  exact ⟨_, Act.exec_ret (init_cache w₀ c) hc⟩

theorem CacheInv.step {w₀ : World} (h : CacheInv w₀ r.s r.live cached) {op : CacheOp} (hs : r.step os op = some r') :
    ∃ cached', CacheInv w₀ r'.s r'.live cached' := by
  cases op with
  | getFreeBlock sz =>
    simp only [CacheRun.step] at hs
    split_ifs at hs with hsz
    have hspec := getFreeBlock_spec os h hsz.1 hsz.2.1 hsz.2.2
    split at hs
    · rename_i p t hx
      obtain ⟨a, cached', rfl, hI⟩ := Act.exec_ret hspec hx
      obtain rfl := Option.some.inj hs
      exact ⟨cached', hI⟩
    · rename_i t hx
      obtain rfl := Option.some.inj hs
      exact ⟨cached, Act.exec_throw hspec hx⟩
    · cases hs
  | freeChunk e =>
    simp only [CacheRun.step] at hs
    split_ifs at hs with he
    have hspec := freeChunk_spec (h.perm (List.perm_cons_erase he))
    split at hs
    · rename_i t hx
      obtain rfl := Option.some.inj hs
      exact Act.exec_ret hspec hx
    · rename_i t hx
      exact (Act.exec_throw hspec hx).elim
    · cases hs

/-- In every state a run reaches the invariant holds. There `getFreeBlock`
returns a block of exactly the size asked for, mapped and apart from the live
ones; and `deinitialize` unmaps the cached blocks, each once. -/
theorem cache_run {w₀ : World} (h₀ : r₀.Starts w₀)
    (hr : Reach (CacheRun.step os) (fun _ _ => True) r₀ r) :
    ∃ cached, CacheInv w₀ r.s r.live cached ∧
      (∀ sz, 0 < sz → 4096 ∣ sz → sz < 2 ^ 64 → Act.wp (getFreeBlock os sz)
        (fun p t => ∃ a cached', p = .block a ∧ (t.c.items p).size = sz ∧ (∀ e ∈ r.live, Apart (a, sz) e) ∧
          (∀ x, Within a sz x → pageState t.w.calls x = .committed) ∧ CacheInv w₀ t ((a, sz) :: r.live) cached')
        (fun t => CacheInv w₀ t r.live cached) r.s) ∧
      Act.wp deinit
        (fun _ t => (∃ rel, Releases r.s.w t.w rel ∧ rel.Perm (cachedBlocks cached)) ∧
          ∃ cached', CacheInv w₀ t r.live cached' ∧ ∀ ix ≤ max_cached_size, cached' ix = [])
        (fun _ => False) r.s := by
  obtain ⟨cached, hI⟩ : ∃ cached, CacheInv w₀ r.s r.live cached :=
    hr.invariant (P := fun r => ∃ cached, CacheInv w₀ r.s r.live cached) h₀.inv
      fun op ⟨cached, h⟩ _ hs => h.step hs
  refine ⟨cached, hI, fun sz hpos hd hlt => ?_, deinit_cached hI⟩
  refine Act.wp_mono (getFreeBlock_spec os hI hpos hd hlt) ?_ fun _ ht => ht
  intro _ t ⟨a, cached', hp, hJ⟩
  have hap := (List.pairwise_cons.mp hJ.holds.apart).1
  refine ⟨a, cached', hp, ?_, fun e he => hap e (List.mem_append_left _ he), fun x hx => ?_, hJ⟩
  · rw [hp]
    exact (hJ.header _ List.mem_cons_self).1
  · exact (hJ.holds.mapped _ List.mem_cons_self).2 x hx

/-- Memory before `initialize`. -/
def rawCache : PageAllocatorWithCaching := ⟨fun _ => 7, fun _ => ⟨.null, .lst 7, 7, 7⟩, {}, 7⟩

/-- The state after `initialize` of it. -/
def CacheRun.fresh : CacheRun :=
  match Act.exec (init PAGE_SIZE_EXP) ⟨⟨[], fun _ => 7, true⟩, rawCache⟩ with
  | .ret _ s => ⟨s, []⟩
  | _ => ⟨⟨⟨[], fun _ => 7, true⟩, rawCache⟩, []⟩

theorem cache_run_reuse : ∃ r, run (CacheRun.step (Os.linear 0)) (fun _ _ => true) CacheRun.fresh
      [.getFreeBlock 4096, .getFreeBlock 8192, .freeChunk (4096, 4096), .getFreeBlock 4096] = some r ∧
    ∃ cached, CacheInv ⟨[], fun _ => 7, true⟩ r.s r.live cached := by
  obtain ⟨r, hr⟩ := Option.isSome_iff_exists.mp (show (run (CacheRun.step (Os.linear 0)) (fun _ _ => true)
      CacheRun.fresh [.getFreeBlock 4096, .getFreeBlock 8192, .freeChunk (4096, 4096), .getFreeBlock 4096]).isSome = true
    by decide +kernel)
  have h₀ : CacheRun.fresh.Starts ⟨[], fun _ => 7, true⟩ := ⟨rawCache, rfl, rfl⟩
  obtain ⟨cached, hI, -⟩ := cache_run h₀ ((Reach.of_run hr).mono fun _ _ _ => trivial)
  exact ⟨r, hr, cached, hI⟩

end PageAllocatorWithCaching

end IibMalloc

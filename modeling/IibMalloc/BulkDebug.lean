/-
# BulkAllocator: the build with assertions

The shipped builds define `NDEBUG`. Here `deallocate` is the one of a build
that does not: an assertion that is false stops the program, and so does a null
pointer that an assertion follows. `mergeLeft` asserts of the chunk before a
chunk what only holds of the chunk itself, so it stops whenever it merges.

`Debug.deallocate_exec`: where no assertion stops it, this build does what the
shipped one does. `Debug.deallocate_stuck_iff` says when that is.
-/
import IibMalloc.BulkSplice

namespace IibMalloc

open Lib AnyChunkHeader

namespace BulkAllocator

namespace Debug

/-- `assert(f)`, which follows the pointers `ptrs`. -/
def check (ptrs : St BulkAllocator → List ℕ) (f : St BulkAllocator → Bool) : Act (St BulkAllocator) Unit :=
  Act.need fun s => (ptrs s).all (fun p => decide (p ≠ 0)) && f s

variable (cfg : BulkCfg)

/-- `AnyChunkHeader::set` -/
def set (h prevInBlock_ nextInBlock_ pageCount : ℕ) (isFree : Bool) : Act (St BulkAllocator) Unit := do
  check (fun _ => []) fun _ => decide (prevInBlock_ &&& PAGE_SIZE_MASK = 0)
  check (fun _ => []) fun _ => decide (nextInBlock_ &&& PAGE_SIZE_MASK = 0)
  check (fun _ => []) fun _ => decide (pageCount ≤ cfg.commited_block_size >>> PAGE_SIZE_EXP)
  Act.storeWord h (u64 (prevInBlock_ + pageCount))
  Act.storeWord (h + 8) (u64 (nextInBlock_ + isFree.toNat))

def unlinkInner (item prevFree : ℕ) : Act (St BulkAllocator) Unit := do
  check (fun _ => [item, prevFree]) fun s => sameClass cfg s.w.mem item prevFree
  let nextFree ← loadNextFree item
  storeNextFree prevFree nextFree

def unlinkFirst (item : ℕ) : Act (St BulkAllocator) Unit := do
  let pageCount ← loadPageCount item
  check (fun _ => []) fun s => decide (s.c.freeListBegin (listOf cfg pageCount) = item)
  let nextFree ← loadNextFree item
  setFreeList cfg (listOf cfg pageCount) nextFree
  Act.when (nextFree ≠ 0) (storePrevFree nextFree 0)

def unlinkBack (item nextFree : ℕ) : Act (St BulkAllocator) Unit := do
  check (fun _ => [item, nextFree]) fun s => sameClass cfg s.w.mem item nextFree
  let prevFree ← loadPrevFree item
  storePrevFree nextFree prevFree

def removeFromFreeList (item : ℕ) : Act (St BulkAllocator) Unit := do
  let prevFree ← loadPrevFree item
  (if prevFree ≠ 0 then unlinkInner cfg item prevFree else unlinkFirst cfg item)
  let nextFree ← loadNextFree item
  Act.when (nextFree ≠ 0) (unlinkBack cfg item nextFree)

/-- The third assertion follows `prev->prevInBlock()`, which the first allows to
be null, and compares the end of that chunk with `h`, where `prev` is between. -/
def mergeLeft (h : ℕ) : Act (St BulkAllocator) ℕ := do
  let prev ← loadPrevInBlock h
  if prev = 0 then return h
  let free ← loadIsFree prev
  if free then do
    check (fun _ => [prev]) fun s => decide (prevInBlock s.w.mem prev = 0) ||
      !isFree s.w.mem (prevInBlock s.w.mem prev)
    check (fun _ => [prev]) fun s => decide (nextInBlock s.w.mem prev = h)
    check (fun s => [prev, prevInBlock s.w.mem prev]) fun s => decide (u64 (prevInBlock s.w.mem prev +
      getPageCount s.w.mem (prevInBlock s.w.mem prev) <<< PAGE_SIZE_EXP) = h)
    removeFromFreeList cfg prev
    let before ← loadPrevInBlock prev
    let next ← loadNextInBlock h
    let prevPages ← loadPageCount prev
    let pages ← loadPageCount h
    set cfg prev before next (u16 (prevPages + pages)) true
    return prev
  else return h

def mergeRight (h : ℕ) : Act (St BulkAllocator) Unit := do
  let next ← loadNextInBlock h
  if next = 0 then return ()
  let free ← loadIsFree next
  if free then do
    check (fun _ => [next]) fun s => decide (nextInBlock s.w.mem next = 0) ||
      !isFree s.w.mem (nextInBlock s.w.mem next)
    check (fun _ => [next]) fun s => decide (prevInBlock s.w.mem next = h)
    check (fun _ => [h]) fun s => decide (u64 (h + getPageCount s.w.mem h <<< PAGE_SIZE_EXP) = next)
    removeFromFreeList cfg next
    let prev ← loadPrevInBlock h
    let after ← loadNextInBlock next
    let pages ← loadPageCount h
    let nextPages ← loadPageCount next
    set cfg h prev after (u16 (pages + nextPages)) true
  else return ()

def deallocate (ptr : ℕ) : Act (St BulkAllocator) Unit := do
  let pages ← loadPageCount ptr
  if pages ≠ 0 then do
    check (fun _ => []) fun _ => decide (pages ≤ cfg.max_pages)
    let h ← mergeLeft cfg ptr
    mergeRight cfg h
    let pages ← loadPageCount h
    storePrevFree h 0
    pushFree cfg (listOf cfg pages) h
  else do
    let deallocSize ← loadPrevInBlock ptr
    super (PageAllocatorWithCaching.freeChunkNoCache ptr deallocSize)

variable {cfg} {s t : St BulkAllocator} {ls : ℕ → List ℕ} {h e i b a : ℕ} {l r : List Chunk} {c d : Chunk}
  {blocks : List ℕ} {chunks : ℕ → List Chunk}

/-! ### Where the assertions hold -/

/-- An assertion that holds, in either build. -/
theorem exec_check {ptrs : St BulkAllocator → List ℕ} {f : St BulkAllocator → Bool} (hp : ∀ p ∈ ptrs s, p ≠ 0)
    (hf : f s = true) : Act.exec (check ptrs f) s = Act.exec (Act.assertThat f) s := by
  have h1 : ((ptrs s).all (fun p => decide (p ≠ 0)) && f s) = true := by
    rw [hf, Bool.and_true]
    exact List.all_eq_true.mpr fun p hpm => decide_eq_true (hp p hpm)
  show (if ((ptrs s).all (fun p => decide (p ≠ 0)) && f s) = true then Outcome.ret () s else Outcome.stuck) =
    Outcome.ret () { s with w.assertsHold := s.w.assertsHold && f s }
  rw [if_pos h1, hf, Bool.and_true]

/-- What `field` reads. -/
theorem field_ret {α : Type} {f : (ℕ → ℕ) → ℕ → α} {k : ℕ} {y : α} (hx : Act.exec (field f k h) s = .ret y t) :
    y = f s.w.mem h ∧ t = s := by
  obtain ⟨u, s', h1, h2⟩ := Act.exec_bind_ret hx
  have hs : s' = s := by
    by_cases hc : pageState s.w.calls (h + k) = .committed
    · exact Act.exec_ret (x := Act.deref (h + k)) (Q := fun _ s' => s' = s) (E := fun _ => False)
        ((Act.wp_deref _).mpr ⟨hc, rfl⟩) h1
    · exact absurd h1 (by
        intro h1
        have : Act.wp (Act.deref (h + k)) (fun _ _ => True) (fun _ => True) s := Act.wp_of_exec h1 trivial
        exact hc ((Act.wp_deref _).mp this).1)
  subst hs
  cases h2
  exact ⟨rfl, rfl⟩

/-- A header with aligned links and no more pages than a block. -/
theorem set_exec {v v' k : ℕ} {f : Bool} (hv : 4096 ∣ v) (hv' : 4096 ∣ v') (hk : k ≤ cfg.pagesPerAllocatedBlock) :
    Act.exec (set cfg h v v' k f) s = Act.exec (AnyChunkHeader.set cfg h v v' k f) s := by
  have hmask : ∀ {x : ℕ}, 4096 ∣ x → x &&& PAGE_SIZE_MASK = 0 := fun hx => by
    rw [and_page_mask]
    omega
  refine Act.exec_bind_congr (exec_check (by simp) (decide_eq_true (hmask hv))) fun _ _ _ => ?_
  refine Act.exec_bind_congr (exec_check (by simp) (decide_eq_true (hmask hv'))) fun _ _ _ => ?_
  exact Act.exec_bind_congr (exec_check (by simp) (decide_eq_true hk)) fun _ _ _ => rfl

/-- A chunk of a list, all of one class, leaves it without a complaint. -/
theorem removeFromFreeList_exec (hF : FreeLists cfg s ls) (hi : i ≤ cfg.max_pages) (ha : a ∈ ls i)
    (hcls : listOf cfg (getPageCount s.w.mem a) = i)
    (hsame : ∀ x ∈ ls i, sameClass cfg s.w.mem a x = true) :
    Act.exec (removeFromFreeList cfg a) s = Act.exec (BulkAllocator.removeFromFreeList cfg a) s := by
  obtain ⟨hfirst, hpm, hnm⟩ := hF.linked.neighbours hi ha
  have ha0 := hF.pos hi ha
  refine Act.exec_bind_congr rfl fun p t hp => ?_
  obtain ⟨rfl, rfl⟩ := field_ret hp
  have hhalf : Act.exec (if prevFree t.w.mem a ≠ 0 then unlinkInner cfg a (prevFree t.w.mem a) else unlinkFirst cfg a) t =
      Act.exec (if prevFree t.w.mem a ≠ 0 then BulkAllocator.unlinkInner cfg a (prevFree t.w.mem a)
        else BulkAllocator.unlinkFirst cfg a) t := by
    by_cases h0 : prevFree t.w.mem a = 0
    · rw [if_neg (not_not.mpr h0), if_neg (not_not.mpr h0)]
      refine Act.exec_bind_congr rfl fun k u hk => ?_
      obtain ⟨rfl, rfl⟩ := field_ret hk
      refine Act.exec_bind_congr (exec_check (by simp) (decide_eq_true ?_)) fun _ _ _ => rfl
      rw [hcls]
      exact hfirst.mp h0
    · rw [if_pos h0, if_pos h0]
      exact Act.exec_bind_congr (exec_check (by simp [ha0, h0]) (hsame _ (hpm h0))) fun _ _ _ => rfl
  refine Act.exec_bind_congr hhalf fun _ u hu => ?_
  obtain ⟨hE, -, -, hnext, -⟩ := Act.exec_ret (BulkAllocator.unlink_spec hF.linked hi ha hcls) hu
  refine Act.exec_bind_congr rfl fun n v hn => ?_
  obtain ⟨rfl, rfl⟩ := field_ret hn
  rw [hnext]
  unfold Act.when
  split_ifs with h0
  · refine Act.exec_bind_congr (exec_check (by simp [ha0]; exact h0) ?_) fun _ _ _ => rfl
    -- the page counts are the ones there were
    have h1 := hF.linked.pages hi hE hi ha
    have h2 := hF.linked.pages hi hE hi (hnm h0)
    have h3 := hsame _ (hnm h0)
    unfold sameClass at h3 ⊢
    rw [h1, h2]
    exact h3
  · rfl

/-- What the assertions say where the chunk at `h` takes in the free chunk at `n`
after it. -/
structure RightAsserted (cfg : BulkCfg) (s : St BulkAllocator) (ls : ℕ → List ℕ) (h n : ℕ) : Prop where
  after : nextInBlock s.w.mem n = 0 ∨ isFree s.w.mem (nextInBlock s.w.mem n) = false
  before : prevInBlock s.w.mem n = h
  adjacent : u64 (h + getPageCount s.w.mem h <<< PAGE_SIZE_EXP) = n
  aligned : 4096 ∣ h
  pages : getPageCount s.w.mem h + getPageCount s.w.mem n ≤ cfg.pagesPerAllocatedBlock
  blockPages : cfg.pagesPerAllocatedBlock < 2 ^ 16
  listed : ∃ i ≤ cfg.max_pages, n ∈ ls i ∧ listOf cfg (getPageCount s.w.mem n) = i ∧
    ∀ x ∈ ls i, sameClass cfg s.w.mem n x = true

/-- `h` takes in the free chunk after it, where the headers of both and of the
chunk after them say so. -/
theorem mergeRight_exec (hF : FreeLists cfg s ls) (hh : h ≠ 0)
    (hfree : nextInBlock s.w.mem h ≠ 0 → isFree s.w.mem (nextInBlock s.w.mem h) = true →
      RightAsserted cfg s ls h (nextInBlock s.w.mem h)) :
    Act.exec (mergeRight cfg h) s = Act.exec (BulkAllocator.mergeRight cfg h) s := by
  refine Act.exec_bind_congr rfl fun n t hn => ?_
  obtain ⟨rfl, rfl⟩ := field_ret hn
  split_ifs with h0
  · rfl
  refine Act.exec_bind_congr rfl fun f t' hf => ?_
  obtain ⟨rfl, rfl⟩ := field_ret hf
  split_ifs with h1
  swap
  · rfl
  obtain ⟨h2, h3, h4, h5, h6, h7, i, hi, hx, hcls, hsame⟩ := hfree h0 h1
  have hone : ∀ x : ℕ, x ≠ 0 → ∀ p ∈ [x], p ≠ 0 := by simp
  have hc1 : (fun s : St BulkAllocator => decide (nextInBlock s.w.mem (nextInBlock t'.w.mem h) = 0) ||
      !isFree s.w.mem (nextInBlock s.w.mem (nextInBlock t'.w.mem h))) t' = true := by
    rcases h2 with h2 | h2
    · simp [h2]
    · simp [h2]
  refine Act.exec_bind_congr (exec_check (hone _ h0) hc1) fun _ u hu => ?_
  obtain rfl := Act.ret_assertThat hu hc1
  have hc2 := decide_eq_true h3
  refine Act.exec_bind_congr (exec_check (hone _ h0) hc2) fun _ u' hu' => ?_
  obtain rfl := Act.ret_assertThat hu' hc2
  have hc3 := decide_eq_true h4
  refine Act.exec_bind_congr (exec_check (hone _ hh) hc3) fun _ v hv => ?_
  obtain rfl := Act.ret_assertThat hv hc3
  refine Act.exec_bind_congr (removeFromFreeList_exec hF hi hx hcls hsame) fun _ w hw => ?_
  obtain ⟨-, hE⟩ := Act.exec_ret (BulkAllocator.removeFromFreeList_spec hF hi hx hcls) hw
  have hk := (hE.accessors hF h5).2.2
  have hk' := (hE.accessors hF (nextInBlock_lt v.w.mem h).1).2.2
  refine Act.exec_bind_congr rfl fun p w₁ hw₁ => ?_
  obtain ⟨rfl, rfl⟩ := field_ret hw₁
  refine Act.exec_bind_congr rfl fun q w₂ hw₂ => ?_
  obtain ⟨rfl, rfl⟩ := field_ret hw₂
  refine Act.exec_bind_congr rfl fun k w₃ hw₃ => ?_
  obtain ⟨rfl, rfl⟩ := field_ret hw₃
  refine Act.exec_bind_congr rfl fun k' w₄ hw₄ => ?_
  obtain ⟨rfl, rfl⟩ := field_ret hw₄
  apply set_exec (prevInBlock_lt _ _).1 (nextInBlock_lt _ _).1
  rw [hk, hk', u16_of_lt (by omega)]
  exact h6

/-! ### deallocate -/

/-- Chunks of a list are of one class. -/
theorem sameClass_of_listOf {mem : ℕ → ℕ} {x y : ℕ} (hx : 0 < getPageCount mem x) (hy : 0 < getPageCount mem y)
    (h : listOf cfg (getPageCount mem x) = listOf cfg (getPageCount mem y)) : sameClass cfg mem x y = true := by
  rw [listOf_eq hx (getPageCount_lt mem x), listOf_eq hy (getPageCount_lt mem y)] at h
  unfold sameClass
  apply decide_eq_true
  split_ifs at h <;> omega

/-- The free chunk after one is as the assertions say. -/
theorem right_asserted (hI : ChunkInv cfg s blocks chunks ls) (hcfg : Fits cfg) (hb : b ∈ blocks)
    (hl : chunks b = l ++ c :: d :: r) (hd : d.flag = true) : RightAsserted cfg s ls c.addr d.addr := by
  have hlt := hcfg.pages_lt
  have hread := hI.block b hb
  have hl' : chunks b = (l ++ [c]) ++ d :: r := by
    rw [hl]
    simp
  have hcm : c ∈ chunks b := by
    rw [hl]
    simp
  have hdm : d ∈ chunks b := by
    rw [hl]
    simp
  have hreadd := hread
  have hblt := hread.lt
  have hm := hread.pageMapped hcm
  obtain ⟨-, hdlt, hd0, -⟩ := hread.chunk hdm
  obtain ⟨hi, hal, hcls, -⟩ := hI.listOf_mem hb hdm hl' hd
  rw [hl] at hread
  rw [hl'] at hreadd
  obtain ⟨-, -, hcount⟩ := hread.read
  obtain ⟨hdprev, hdnext, hdcount⟩ := hreadd.read
  have hsum := ValidBlock.sum_le (l := l) (m := [c, d]) (r := r) (by simpa using hread)
  obtain ⟨p, -, -, -, hstop, -⟩ := (tiled_append b l (c :: d :: r)).mp hread.tiled
  refine ⟨?_, ?_, ?_, hm.aligned, ?_, by omega, _, hi, hal, hcls, fun x hx => ?_⟩
  · cases r with
    | nil => exact Or.inl hdnext
    | cons e r =>
      apply Or.inr
      have hem : e ∈ chunks b := by
        rw [hl]
        simp
      rw [hdnext, show headAddr (e :: r) 0 = e.addr from rfl, hI.flags b hb e hem]
      have := hI.noTwo b hb (l ++ [c]) d e r (by rw [hl'])
      simpa [hd] using this
  · rw [hdprev, lastAddr_append]
    rfl
  · rw [hcount, PAGE_SIZE_EXP_eq, Nat.shiftLeft_eq, show (2 : ℕ) ^ 12 = 4096 by norm_num]
    unfold Chunk.stop at hstop hdlt
    rw [← hstop]
    exact u64_of_lt (by omega)
  · rw [hcount, hdcount]
    simpa using hsum
  · obtain ⟨b', hb', e, he, rfl, hel, -⟩ := hI.listed _ hi x hx
    obtain ⟨l', r', hl''⟩ := List.append_of_mem he
    have hreade := hI.block b' hb'
    have he0 := (hreade.chunk he).2.2.1
    rw [hl''] at hreade
    have hecount := hreade.read.2.2
    exact sameClass_of_listOf (by omega) (by omega) (by rw [hdcount, hecount, hel])

/-- No assertion stops `deallocate` where the chunk is no larger than a request
and the chunk before it is not free. -/
theorem deallocate_exec (hI : ChunkInv cfg s blocks chunks ls) (hcfg : Fits cfg) (hb : b ∈ blocks)
    (hl : chunks b = l ++ c :: r) (hpages : c.pages ≤ cfg.max_pages)
    (hleft : ¬ (prevInBlock s.w.mem c.addr ≠ 0 ∧ isFree s.w.mem (prevInBlock s.w.mem c.addr) = true)) :
    Act.exec (deallocate cfg c.addr) s = Act.exec (BulkAllocator.deallocate cfg c.addr) s := by
  have hB := hI.block b hb
  have hcm : c ∈ chunks b := by
    rw [hl]
    simp
  have hm := hB.pageMapped hcm
  obtain ⟨-, -, hpos, -⟩ := hB.chunk hcm
  have hread := hB
  rw [hl] at hread
  obtain ⟨hprev, hnext, hcount⟩ := hread.read
  refine Act.exec_bind_congr rfl fun k t hk => ?_
  obtain ⟨rfl, rfl⟩ := field_ret hk
  rw [hcount, if_pos hpos.ne', if_pos hpos.ne']
  have hc1 : decide (c.pages ≤ cfg.max_pages) = true := decide_eq_true hpages
  refine Act.exec_bind_congr (exec_check (by simp) hc1) fun _ u hu => ?_
  obtain rfl := Act.ret_assertThat hu hc1
  -- nothing is merged on the left
  have hmerge : Act.exec (mergeLeft cfg c.addr) u = Act.exec (BulkAllocator.mergeLeft cfg c.addr) u := by
    refine Act.exec_bind_congr rfl fun p t hp => ?_
    obtain ⟨rfl, rfl⟩ := field_ret hp
    split_ifs with h0
    · rfl
    refine Act.exec_bind_congr rfl fun f t' hf => ?_
    obtain ⟨rfl, rfl⟩ := field_ret hf
    rw [if_neg fun h1 => hleft ⟨h0, h1⟩, if_neg fun h1 => hleft ⟨h0, h1⟩]
  refine Act.exec_bind_congr hmerge fun y v hv => ?_
  have hnone : Act.wp (BulkAllocator.mergeLeft cfg c.addr) (fun y t => y = c.addr ∧ t = u) (fun _ => False) u := by
    refine mergeLeft_none hm fun h0 => ⟨?_, by simpa [h0] using hleft⟩
    rw [hprev] at h0 ⊢
    obtain ⟨d, hd, hda⟩ := lastAddr_mem (q := 0) (l := l) fun hl0 => h0 (by rw [hl0]; rfl)
    rw [hda]
    exact hB.pageMapped (by rw [hl]; exact List.mem_append_left _ hd)
  obtain ⟨rfl, rfl⟩ := Act.exec_ret hnone hv
  refine Act.exec_bind_congr (mergeRight_exec hI.lists hm.pos.ne' fun h0 h1 => ?_) fun _ _ _ => rfl
  rw [hnext] at h0 h1 ⊢
  cases r with
  | nil => exact absurd rfl h0
  | cons d r =>
    have hdm : d ∈ chunks b := by
      rw [hl]
      simp
    refine right_asserted hI hcfg hb hl ?_
    rw [← hI.flags b hb d hdm]
    exact h1

/-- Some assertion stops `deallocate`, or a null pointer in one, exactly where the
chunk is larger than a request, or the chunk before it is free. -/
theorem deallocate_stuck_iff (hI : ChunkInv cfg s blocks chunks ls) (hcfg : Fits cfg) (hb : b ∈ blocks)
    (hl : chunks b = l ++ c :: r) (hc : c.flag = false) :
    Act.exec (deallocate cfg c.addr) s ≠ .stuck ↔ getPageCount s.w.mem c.addr ≤ cfg.max_pages ∧
      ¬ (prevInBlock s.w.mem c.addr ≠ 0 ∧ isFree s.w.mem (prevInBlock s.w.mem c.addr) = true) := by
  have hB := hI.block b hb
  have hcm : c ∈ chunks b := by
    rw [hl]
    simp
  obtain ⟨-, -, hpos, -⟩ := hB.chunk hcm
  have hread := hB
  rw [hl] at hread
  obtain ⟨hprev, -, hcount⟩ := hread.read
  constructor
  · intro hns
    have hwp := Act.wp_of_not_stuck hns
    unfold deallocate at hwp
    rw [Act.wp_bind, loadPageCount, wp_field, hcount, if_pos hpos.ne', Act.wp_bind, check, Act.wp_need] at hwp
    obtain ⟨-, hmax, hwp⟩ := hwp
    have hmax' : c.pages ≤ cfg.max_pages := by simpa using hmax
    refine ⟨hcount ▸ hmax', fun hboth => ?_⟩
    obtain ⟨h0, h1⟩ := hboth
    rw [Act.wp_bind] at hwp
    unfold mergeLeft at hwp
    simp only [Act.wp_bind, loadPrevInBlock, wp_field, if_neg h0, loadIsFree, h1, if_true, check, Act.wp_need] at hwp
    obtain ⟨-, -, -, -, hthird, -⟩ := hwp
    -- the chunk before `prev` would end where `h` starts
    rcases List.eq_nil_or_concat l with rfl | ⟨l', e, rfl⟩
    · exact h0 hprev
    rw [List.concat_eq_append] at hl hread hprev
    rw [lastAddr_append, show lastAddr (lastAddr 0 l') [e] = e.addr from rfl] at hprev
    rw [List.append_assoc, List.singleton_append] at hread
    rw [hprev, hread.read.1] at hthird
    rcases List.eq_nil_or_concat l' with rfl | ⟨l'', d, rfl⟩
    · simp [lastAddr] at hthird
    rw [List.concat_eq_append] at hread hthird
    rw [lastAddr_append, show lastAddr (lastAddr 0 l'') [d] = d.addr from rfl] at hthird
    rw [List.append_assoc, List.singleton_append] at hread
    have hend := ((List.pairwise_append.mp hread.tiled.apart).2.1)
    have hde := (List.pairwise_cons.mp hend).1 e (by simp)
    have hec := (List.pairwise_cons.mp (List.pairwise_cons.mp hend).2).1 c (by simp)
    have he0 := (hread.chunk (c := e) (by simp)).2.2.1
    have hclt := (hread.chunk (c := c) (by simp)).2.1
    have hblt := hB.lt
    unfold Chunk.stop at hde hec hclt
    simp only [hread.read.2.2, Bool.and_eq_true, decide_eq_true_eq, PAGE_SIZE_EXP_eq, Nat.shiftLeft_eq] at hthird
    have h64 := hthird.2
    rw [show (2 : ℕ) ^ 12 = 4096 by norm_num, u64_of_lt (by omega)] at h64
    omega
  · intro hx
    obtain ⟨hpages, hleft⟩ := hx
    rw [deallocate_exec hI hcfg hb hl (hcount ▸ hpages) hleft]
    -- the shipped build goes through, whatever the neighbours are
    obtain ⟨l₁, left, right, r₁, rfl, rfl, hn⟩ := neighbours_exist l r
    exact Act.not_stuck (deallocate_headers hI hcfg hb hl hc hn)

end Debug

variable {s : St BulkAllocator} {b a : ℕ} {blocks : List ℕ}

/-- In a state that the allocator's own checks accept, giving a live chunk back
in a build with assertions goes through exactly where the chunk is no larger
than a request and the chunk before it is not free. -/
theorem asserts_iff {lists addrs : ℕ → List ℕ} (h : Validated bulkAllocatorT s blocks addrs lists)
    (hb : b ∈ blocks) (ha : a ∈ addrs b) (hlive : isFree s.w.mem a = false) :
    Act.exec (Debug.deallocate bulkAllocatorT a) s ≠ .stuck ↔
      getPageCount s.w.mem a ≤ bulkAllocatorT.max_pages ∧
        ¬ (prevInBlock s.w.mem a ≠ 0 ∧ isFree s.w.mem (prevInBlock s.w.mem a) = true) := by
  obtain ⟨l, r, hl⟩ := List.append_of_mem (List.mem_map_of_mem (f := chunkAt s.w.mem) ha)
  exact Debug.deallocate_stuck_iff (c := chunkAt s.w.mem a) h.chunkInv bulkAllocatorT_fits hb hl hlive

/-- The chunk before is live, and the one after is free. -/
theorem asserts_iff_four : Act.exec (Debug.deallocate bulkAllocatorT 172032) fourChunks ≠ .stuck :=
  (asserts_iff fourChunks_validated (b := 4096) (a := 172032) (by simp) (by simp) (by decide +kernel)).mpr
    (by decide +kernel)

/-- The chunk before is free, and the first of its block. -/
theorem not_asserts_four : Validated bulkAllocatorT fourChunks [4096] (fun _ => [4096, 167936, 172032, 176128])
      (fun i => if i = bulkAllocatorT.max_pages then [4096, 176128] else []) ∧
    isFree fourChunksMem 167936 = false ∧ getPageCount fourChunksMem 167936 ≤ bulkAllocatorT.max_pages ∧
    Act.exec (Debug.deallocate bulkAllocatorT 167936) fourChunks = .stuck := by
  refine ⟨fourChunks_validated, by decide +kernel, by decide +kernel, ?_⟩
  have hstuck : (match Act.exec (Debug.deallocate bulkAllocatorT 167936) fourChunks with
      | .stuck => true | _ => false) = true := by decide +kernel
  cases hx : Act.exec (Debug.deallocate bulkAllocatorT 167936) fourChunks with
  | ret a t => rw [hx] at hstuck; cases hstuck
  | throw t => rw [hx] at hstuck; cases hstuck
  | stuck => rfl

end BulkAllocator

end IibMalloc

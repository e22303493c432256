/-
# BulkAllocator: the edits of a block's chain

What `mergeLeft`, `mergeRight` and `split` write to the headers of a block,
wherever the chunk stands in it: the header of the chunk that is grown or cut
and of the rest, and no other. The chunk that comes after keeps the
`prevInBlock` it had. `deallocate_headers` and `allocate_headers` say it for
the two calls; `deallocate_chain` and `allocate_chain` say when the links of
the block are right afterwards.
-/
import IibMalloc.BulkValid
import IibMalloc.BulkDealloc

namespace IibMalloc

open Lib AnyChunkHeader

namespace BulkAllocator

variable {cfg : BulkCfg} {s t u : St BulkAllocator} {ls ls' : ℕ → List ℕ} {h x k q n e i b : ℕ}
  {l r left right : List Chunk} {c d : Chunk} {blocks : List ℕ} {chunks : ℕ → List Chunk}

/-! ### Where the chunks lie -/

namespace ValidBlock

variable {w : World}

theorem chunk (hB : ValidBlock cfg w b l) (hc : c ∈ l) : b ≤ c.addr ∧ c.stop ≤ b + cfg.commited_block_size ∧
    0 < c.pages ∧ 4096 ∣ c.addr := by
  obtain ⟨h1, h2, h3, h4⟩ := hB.tiled.bounds hc
  exact ⟨h1, h2, h3, h4 hB.aligned⟩

theorem pageMapped (hB : ValidBlock cfg w b l) (hc : c ∈ l) : CollectionInPages.PageMapped w.calls c.addr := by
  obtain ⟨h1, h2, h3, h4⟩ := hB.chunk hc
  have hb := hB.pos
  refine ⟨h4, by omega, fun y hy => hB.committed y ⟨by have := hy.1; omega, ?_⟩⟩
  have := hy.2
  unfold Chunk.stop at h2
  omega

/-- What the header of a chunk says. -/
theorem read (hB : ValidBlock cfg w b (l ++ c :: r)) : prevInBlock w.mem c.addr = lastAddr 0 l ∧
    nextInBlock w.mem c.addr = headAddr r 0 ∧ getPageCount w.mem c.addr = c.pages := by
  obtain ⟨-, h1, h2, h3, -⟩ := (chained_append 0 l (c :: r)).mp hB.chained
  exact ⟨h1, h2, h3⟩

/-- The pages of chunks that follow each other are no more than a block's. -/
theorem sum_le {m : List Chunk} (hB : ValidBlock cfg w b (l ++ (m ++ r))) :
    (m.map Chunk.pages).sum ≤ cfg.pagesPerAllocatedBlock := by
  obtain ⟨p, h1, h2⟩ := (tiled_append b l (m ++ r)).mp hB.tiled
  obtain ⟨p', h3, h4⟩ := (tiled_append p m r).mp h2
  have h5 := h1.le
  have h6 := h3.sum
  have h7 := h4.le
  have h8 := BulkCfg.size_eq cfg
  omega

end ValidBlock

namespace ChunkInv

theorem within (hI : ChunkInv cfg s blocks chunks ls) (hb : b ∈ blocks) (hc : c ∈ chunks b)
    (hx : c.addr ≤ x ∧ x < c.stop) : Within b cfg.commited_block_size x := by
  obtain ⟨h1, h2, -⟩ := (hI.block b hb).chunk hc
  exact ⟨by omega, by omega⟩

/-- Chunks that meet are one. -/
theorem unique {b' : ℕ} (hI : ChunkInv cfg s blocks chunks ls) (hb : b ∈ blocks) (hb' : b' ∈ blocks)
    (hc : c ∈ chunks b) (hd : d ∈ chunks b') (hx : c.addr ≤ x ∧ x < c.stop) (hx' : d.addr ≤ x ∧ x < d.stop) :
    b = b' ∧ c = d := by
  have hbb : b = b' := by
    by_contra hne
    exact hI.apart.forall hb hb' hne x (hI.within hb hc hx) (hI.within hb' hd hx')
  subst hbb
  exact ⟨rfl, (hI.block b hb).tiled.unique hc hd hx hx'⟩

theorem start (hI : ChunkInv cfg s blocks chunks ls) (hb : b ∈ blocks) (hc : c ∈ chunks b) :
    c.addr ≤ c.addr ∧ c.addr < c.stop := by
  have := ((hI.block b hb).chunk hc).2.2.1
  unfold Chunk.stop
  omega

/-- What is listed is the start of a flagged chunk. -/
theorem listed_flag (hI : ChunkInv cfg s blocks chunks ls) (hb : b ∈ blocks) (hc : c ∈ chunks b)
    (hx : c.addr ≤ x ∧ x < c.stop) (hi : i ≤ cfg.max_pages) (hxl : x ∈ ls i) : x = c.addr ∧ c.flag = true := by
  obtain ⟨b', hb', d, hd, rfl, -, hflag⟩ := hI.listed i hi x hxl
  obtain ⟨-, rfl⟩ := hI.unique hb hb' hc hd hx (hI.start hb' hd)
  exact ⟨rfl, hflag⟩

/-- A flagged chunk is on the list of its page count. -/
theorem listOf_mem (hI : ChunkInv cfg s blocks chunks ls) (hb : b ∈ blocks) (hc : c ∈ chunks b)
    (hl : chunks b = l ++ c :: r) (hflag : c.flag = true) : listOf cfg c.pages ≤ cfg.max_pages ∧
      c.addr ∈ ls (listOf cfg c.pages) ∧ listOf cfg (getPageCount s.w.mem c.addr) = listOf cfg c.pages ∧
      isFree s.w.mem c.addr = true := by
  have hB := hI.block b hb
  have h1 := (hB.chunk hc).2.2.1
  rw [hl] at hB
  have h2 := hB.read.2.2
  have h3 := getPageCount_lt s.w.mem c.addr
  refine ⟨listOf_le h1 (by omega), hI.free b hb c hc hflag, congrArg _ h2, ?_⟩
  rw [hI.flags b hb c hc, hflag]

/-- The assertions are no part of the invariant. -/
theorem asserted (hI : ChunkInv cfg s blocks chunks ls) (v : Bool) :
    ChunkInv cfg ⟨{ s.w with assertsHold := v }, s.c⟩ blocks chunks ls := by
  refine ⟨hI.apart, fun b hb => ?_, hI.flags, hI.noTwo, hI.listed, hI.free,
    hI.lists.congr (fun _ _ _ _ _ _ => rfl) (fun _ _ => rfl) fun _ _ => rfl⟩
  have hB := hI.block b hb
  exact ⟨hB.aligned, hB.pos, hB.lt, hB.committed, hB.tiled, hB.chained⟩

end ChunkInv

/-! ### A header is rewritten -/

/-- From `s` to `t` the header at `x` is rewritten, with `k` pages between the
chunks at `q` and `n`, and no other header. -/
structure Rewritten (s t : St BulkAllocator) (x k q n : ℕ) : Prop where
  calls : t.w.calls = s.w.calls
  prev : prevInBlock t.w.mem x = q
  next : nextInBlock t.w.mem x = n
  pages : getPageCount t.w.mem x = k
  other : ∀ y, y % 4096 < 16 → y ≠ x → y ≠ x + 8 → t.w.mem y = s.w.mem y

/-- `set` rewrites one header. -/
theorem set_rewrites (hF : FreeLists cfg s ls) (hm : CollectionInPages.PageMapped s.w.calls x) {f : Bool}
    (hq : 4096 ∣ q ∧ q < 2 ^ 64) (hn : 4096 ∣ n ∧ n < 2 ^ 64) (hk : k < 4096) :
    Act.wp (AnyChunkHeader.set cfg x q n k f)
      (fun _ t => FreeLists cfg t ls ∧ t.c = s.c ∧ Rewritten s t x k q n ∧ isFree t.w.mem x = f ∧
        ∀ y, y ≠ x → y ≠ x + 8 → t.w.mem y = s.w.mem y) (fun _ => False) s := by
  have h4 := hm.aligned
  refine set_spec hm (by omega) (by omega) fun a mem hmem h0 h8 => ?_
  obtain ⟨h1, h2, h3, h5⟩ := BlockInv.accessors hq.1 hn.1 hk (by omega) (by omega) h0 h8
  refine ⟨hF.congr (fun _ _ _ _ _ _ => rfl) (fun _ _ => rfl) fun y hy => hmem y ?_ ?_, rfl,
    ⟨rfl, h1, h3, h2, fun y _ => hmem y⟩, h5, hmem⟩
  · have := hF.freeWord_mod hy
    omega
  · have := hF.freeWord_mod hy
    omega

/-- The free chunk before `h` leaves its list and takes `h` in. -/
theorem mergeLeft_free (hF : FreeLists cfg s ls) (hm : CollectionInPages.PageMapped s.w.calls h)
    (hp : prevInBlock s.w.mem h = e) (he : isFree s.w.mem e = true) (hi : i ≤ cfg.max_pages) (hei : e ∈ ls i)
    (hcls : listOf cfg (getPageCount s.w.mem e) = i)
    (hsum : getPageCount s.w.mem e + getPageCount s.w.mem h < 4096) :
    Act.wp (mergeLeft cfg h)
      (fun y t => y = e ∧ FreeLists cfg t (setList ls i ((ls i).erase e)) ∧
        Rewritten s t e (getPageCount s.w.mem e + getPageCount s.w.mem h) (prevInBlock s.w.mem e)
          (nextInBlock s.w.mem h)) (fun _ => False) s := by
  have hme := hF.mapped i hi e hei
  unfold mergeLeft
  rw [Act.wp_bind, loadPrevInBlock, wp_field, hp, if_neg hme.pos.ne', Act.wp_bind, loadIsFree, wp_field, he,
    if_pos rfl, Act.wp_bind, Act.wp_assertThat, Act.wp_bind, Act.wp_assertThat, Act.wp_bind, Act.wp_assertThat,
    Act.wp_bind]
  refine ⟨hm.word (k := 0) (by omega), hme.word (by omega), ?_⟩
  refine Act.wp_mono (removeFromFreeList_asserted (s := s) _ hF hi hei hcls) ?_ fun _ ht => ht
  intro _ t ht
  obtain ⟨hL, hE⟩ := ht
  obtain ⟨hep, -, hec⟩ := hE.accessors hF hme.aligned
  obtain ⟨-, hhn, hhc⟩ := hE.accessors hF hm.aligned
  rw [← hE.calls] at hm hme
  simp only [loadNextInBlock, loadPageCount, Act.wp_bind, wp_field, hep, hec, hhn, hhc]
  refine ⟨hme.word (k := 0) (by omega), hm.word (by omega), hme.word (k := 0) (by omega),
    hm.word (k := 0) (by omega), ?_⟩
  rw [u16_of_lt (by omega)]
  refine Act.wp_mono (set_rewrites hL hme (prevInBlock_lt s.w.mem e) (nextInBlock_lt s.w.mem h) hsum) ?_ fun _ ht => ht
  intro _ u hu
  obtain ⟨hLu, -, hR, -⟩ := hu
  rw [Act.wp_pure]
  exact ⟨rfl, hLu, hR.calls.trans hE.calls, hR.prev, hR.next, hR.pages, fun y hy h1 h2 =>
    (hR.other y hy h1 h2).trans (hE.header hF hy)⟩

/-- The free chunk after `h` leaves its list, and `h` takes it in. -/
theorem mergeRight_free (hF : FreeLists cfg s ls) (hm : CollectionInPages.PageMapped s.w.calls h)
    (hp : nextInBlock s.w.mem h = e) (he : isFree s.w.mem e = true) (hi : i ≤ cfg.max_pages) (hei : e ∈ ls i)
    (hcls : listOf cfg (getPageCount s.w.mem e) = i)
    (hsum : getPageCount s.w.mem h + getPageCount s.w.mem e < 4096) :
    Act.wp (mergeRight cfg h)
      (fun _ t => FreeLists cfg t (setList ls i ((ls i).erase e)) ∧
        Rewritten s t h (getPageCount s.w.mem h + getPageCount s.w.mem e) (prevInBlock s.w.mem h)
          (nextInBlock s.w.mem e)) (fun _ => False) s := by
  have hme := hF.mapped i hi e hei
  unfold mergeRight
  rw [Act.wp_bind, loadNextInBlock, wp_field, hp, if_neg hme.pos.ne', Act.wp_bind, loadIsFree, wp_field, he,
    if_pos rfl, Act.wp_bind, Act.wp_assertThat, Act.wp_bind, Act.wp_assertThat, Act.wp_bind, Act.wp_assertThat,
    Act.wp_bind]
  refine ⟨hm.word (by omega), hme.word (by omega), ?_⟩
  refine Act.wp_mono (removeFromFreeList_asserted (s := s) _ hF hi hei hcls) ?_ fun _ ht => ht
  intro _ t ht
  obtain ⟨hL, hE⟩ := ht
  obtain ⟨-, hen, hec⟩ := hE.accessors hF hme.aligned
  obtain ⟨hhp, -, hhc⟩ := hE.accessors hF hm.aligned
  rw [← hE.calls] at hm hme
  simp only [loadPrevInBlock, loadPageCount, Act.wp_bind, wp_field, hen, hec, hhp, hhc]
  refine ⟨hm.word (k := 0) (by omega), hme.word (by omega), hm.word (k := 0) (by omega),
    hme.word (k := 0) (by omega), ?_⟩
  rw [u16_of_lt (by omega)]
  refine Act.wp_mono (set_rewrites hL hm (prevInBlock_lt s.w.mem h) (nextInBlock_lt s.w.mem e) hsum) ?_ fun _ ht => ht
  intro _ u hu
  obtain ⟨hLu, -, hR, -⟩ := hu
  exact ⟨hLu, hR.calls.trans hE.calls, hR.prev, hR.next, hR.pages, fun y hy h1 h2 =>
    (hR.other y hy h1 h2).trans (hE.header hF hy)⟩

/-! ### deallocate -/

theorem Rewritten.trans {k' q' n' : ℕ} (hR : Rewritten s t x k q n) (hR' : Rewritten t u x k' q' n') :
    Rewritten s u x k' q' n' :=
  ⟨hR'.calls.trans hR.calls, hR'.prev, hR'.next, hR'.pages, fun y hy h1 h2 =>
    (hR'.other y hy h1 h2).trans (hR.other y hy h1 h2)⟩

/-- The accessors of another header. -/
theorem Rewritten.accessors (hR : Rewritten s t x k q n) (hx : 4096 ∣ x) (hy : 4096 ∣ h) (hne : h ≠ x) :
    prevInBlock t.w.mem h = prevInBlock s.w.mem h ∧ nextInBlock t.w.mem h = nextInBlock s.w.mem h ∧
      getPageCount t.w.mem h = getPageCount s.w.mem h ∧ isFree t.w.mem h = isFree s.w.mem h := by
  exact header_congr (hR.other h (by omega) hne (by omega)) (hR.other (h + 8) (by omega) (by omega) (by omega))

/-- `left` and `right` are the free chunks next to a chunk between `l ++ left`
and `right ++ r`: one each, or none. -/
structure Neighbours (l left right r : List Chunk) : Prop where
  left : left = [] ∧ (∀ e ∈ l.getLast?, e.flag = false) ∨ ∃ e, left = [e] ∧ e.flag = true
  right : right = [] ∧ (∀ e ∈ r.head?, e.flag = false) ∨ ∃ e, right = [e] ∧ e.flag = true

/-- The free chunks next to a place between `l` and `r`. -/
theorem neighbours_exist (l r : List Chunk) : ∃ l₁ left right r₁, l = l₁ ++ left ∧ r = right ++ r₁ ∧
    Neighbours l₁ left right r₁ := by
  obtain ⟨l₁, left, hl, hleft⟩ : ∃ l₁ left, l = l₁ ++ left ∧
      (left = [] ∧ (∀ e ∈ l₁.getLast?, e.flag = false) ∨ ∃ e, left = [e] ∧ e.flag = true) := by
    rcases List.eq_nil_or_concat l with rfl | ⟨l', e, rfl⟩
    · exact ⟨[], [], rfl, Or.inl ⟨rfl, by simp⟩⟩
    · rw [List.concat_eq_append]
      by_cases he : e.flag = true
      · exact ⟨l', [e], rfl, Or.inr ⟨e, rfl, he⟩⟩
      · exact ⟨l' ++ [e], [], by simp, Or.inl ⟨rfl, by simpa using he⟩⟩
  cases r with
  | nil => exact ⟨l₁, left, [], [], hl, rfl, hleft, Or.inl ⟨rfl, by simp⟩⟩
  | cons d r =>
    by_cases hd : d.flag = true
    · exact ⟨l₁, left, [d], r, hl, rfl, hleft, Or.inr ⟨d, rfl, hd⟩⟩
    · exact ⟨l₁, left, [], d :: r, hl, rfl, hleft, Or.inl ⟨rfl, by simpa using hd⟩⟩

/-- The pages of the chunks. -/
def pagesOf (l : List Chunk) : ℕ := (l.map Chunk.pages).sum

theorem mergeLeft_headers (hI : ChunkInv cfg s blocks chunks ls) (hcfg : Fits cfg) (hb : b ∈ blocks)
    (hl : chunks b = (l ++ left) ++ c :: r) (hc : c.flag = false)
    (hleft : left = [] ∧ (∀ e ∈ l.getLast?, e.flag = false) ∨ ∃ e, left = [e] ∧ e.flag = true) :
    Act.wp (mergeLeft cfg c.addr)
      (fun y t => y = headAddr left c.addr ∧ Rewritten s t y (pagesOf (left ++ [c])) (lastAddr 0 l) (headAddr r 0) ∧
        ∃ ls', FreeLists cfg t ls' ∧ ∀ j ≤ cfg.max_pages, ∀ x, x ∈ ls' j ↔ x ∈ ls j ∧ x ≠ y)
      (fun _ => False) s := by
  have hB := hI.block b hb
  have hcm : c ∈ chunks b := by
    rw [hl]
    simp
  have hm := hB.pageMapped hcm
  rw [hl] at hB
  obtain ⟨hprev, hnext, hpages⟩ := hB.read
  rcases hleft with ⟨rfl, hlast⟩ | ⟨e, rfl, he⟩
  · rw [List.append_nil] at hl hprev
    refine Act.wp_mono (mergeLeft_none hm fun hne => ?_) ?_ fun _ ht => ht
    · rcases List.eq_nil_or_concat l with rfl | ⟨l', d, rfl⟩
      · exact absurd hprev hne
      · rw [List.concat_eq_append] at hl hprev hlast
        have hd : d ∈ chunks b := by
          rw [hl]
          simp
        rw [hprev, lastAddr_append, show lastAddr (lastAddr 0 l') [d] = d.addr from rfl, hI.flags b hb d hd]
        exact ⟨(hI.block b hb).pageMapped hd, hlast d (by simp)⟩
    · intro y t ht
      obtain ⟨rfl, rfl⟩ := ht
      refine ⟨rfl, ⟨rfl, hprev, hnext, ?_, fun _ _ _ _ => rfl⟩, ls, hI.lists, fun j hj x => ?_⟩
      · rw [hpages]
        simp [pagesOf]
      · refine ⟨fun hx => ⟨hx, fun hxc => ?_⟩, fun hx => hx.1⟩
        have := (hI.listed_flag hb hcm (hI.start hb hcm) hj (hxc ▸ hx)).2
        rw [hc] at this
        cases this
  · have hle : chunks b = l ++ e :: c :: r := by
      rw [hl]
      simp
    have hem : e ∈ chunks b := by
      rw [hle]
      simp
    have hBe := hI.block b hb
    rw [hle] at hBe
    obtain ⟨heprev, -, hepages⟩ := hBe.read
    obtain ⟨hi, hal, hcls, hfree⟩ := hI.listOf_mem hb hem hle he
    have hsum : e.pages + c.pages < 4096 := by
      have := ValidBlock.sum_le (l := l) (m := [e, c]) (r := r) (by simpa using hBe)
      have hlt := hcfg.pages_lt
      simp at this
      omega
    rw [lastAddr_append, show lastAddr (lastAddr 0 l) [e] = e.addr from rfl] at hprev
    refine Act.wp_mono (mergeLeft_free hI.lists hm hprev hfree hi hal hcls (by rw [hepages, hpages]; exact hsum)) ?_
      fun _ ht => ht
    intro y t ht
    obtain ⟨rfl, hL, hR⟩ := ht
    rw [hepages, hpages, heprev, hnext] at hR
    refine ⟨rfl, ?_, _, hL, fun j hj x => hI.lists.mem_erase hi hal hj⟩
    simpa [pagesOf] using hR

/-- The chunks before and after a place of a block are apart. -/
theorem ValidBlock.lt_of_append {w : World} (hB : ValidBlock cfg w b (l ++ r)) (hc : c ∈ l) (hd : d ∈ r) :
    c.addr < d.addr := by
  have h1 := (List.pairwise_append.mp hB.tiled.apart).2.2 c hc d hd
  have h2 := (hB.chunk (List.mem_append_left r hc)).2.2.1
  unfold Chunk.stop at h1
  omega

/-- The chunk that grows is the free one on the left, if there is one, and the
chunk itself otherwise. -/
theorem ChunkInv.grown (hI : ChunkInv cfg s blocks chunks ls) (hb : b ∈ blocks)
    (hl : chunks b = (l ++ left) ++ c :: (right ++ r)) :
    ∃ f ∈ left ++ [c], f.addr = headAddr left c.addr ∧ chunks b = (l ++ (left ++ [c])) ++ (right ++ r) ∧
      CollectionInPages.PageMapped s.w.calls f.addr := by
  obtain ⟨f, hfm, hfa⟩ : ∃ f ∈ left ++ [c], f.addr = headAddr left c.addr := by
    cases left with
    | nil => exact ⟨c, by simp, rfl⟩
    | cons e left => exact ⟨e, by simp, rfl⟩
  have hlf : chunks b = (l ++ (left ++ [c])) ++ (right ++ r) := by
    rw [hl]
    simp
  have hfb : f ∈ chunks b := by
    rw [hlf]
    exact List.mem_append_left _ (List.mem_append_right l hfm)
  exact ⟨f, hfm, hfa, hlf, (hI.block b hb).pageMapped hfb⟩

/-- `mergeRight` after `mergeLeft`, which left the chunk at `f` with the chunks
`left` and `c`. -/
theorem mergeRight_headers {f : Chunk} (hI : ChunkInv cfg s blocks chunks ls) (hcfg : Fits cfg) (hb : b ∈ blocks)
    (hl : chunks b = (l ++ (left ++ [c])) ++ (right ++ r)) (hfm : f ∈ left ++ [c])
    (hright : right = [] ∧ (∀ e ∈ r.head?, e.flag = false) ∨ ∃ e, right = [e] ∧ e.flag = true)
    (hR : Rewritten s t f.addr (pagesOf (left ++ [c])) (lastAddr 0 l) (headAddr (right ++ r) 0))
    (hL : FreeLists cfg t ls') (hls : ∀ j ≤ cfg.max_pages, ∀ x, x ∈ ls' j ↔ x ∈ ls j ∧ x ≠ f.addr) :
    Act.wp (mergeRight cfg f.addr)
      (fun _ u => Rewritten t u f.addr (pagesOf (left ++ c :: right)) (lastAddr 0 l) (headAddr r 0) ∧
        ∃ ls'', FreeLists cfg u ls'' ∧ ∀ j ≤ cfg.max_pages, f.addr ∉ ls'' j) (fun _ => False) t := by
  have hB := hI.block b hb
  have hfb : f ∈ chunks b := by
    rw [hl]
    exact List.mem_append_left _ (List.mem_append_right l hfm)
  have hmf := hB.pageMapped hfb
  have hmt : CollectionInPages.PageMapped t.w.calls f.addr := by
    rw [hR.calls]
    exact hmf
  have hsum : pagesOf (left ++ c :: right) < 4096 := by
    have hlt := hcfg.pages_lt
    have hle : pagesOf (left ++ c :: right) ≤ cfg.pagesPerAllocatedBlock := by
      apply ValidBlock.sum_le (w := s.w) (b := b) (l := l) (r := r)
      rw [hl] at hB
      simpa using hB
    omega
  rcases hright with ⟨rfl, hhead⟩ | ⟨d, rfl, hd⟩
  · refine Act.wp_mono (mergeRight_none hmt fun hne => ?_) ?_ fun _ ht => ht
    · rw [hR.next] at hne ⊢
      cases r with
      | nil => exact absurd rfl hne
      | cons d r =>
        have hdm : d ∈ chunks b := by
          rw [hl]
          simp
        have hBf := hB
        rw [hl] at hBf
        have hdf := hBf.lt_of_append (List.mem_append_right l hfm) (d := d) (by simp)
        rw [show headAddr ([] ++ d :: r) 0 = d.addr from rfl, hR.calls]
        refine ⟨hB.pageMapped hdm, ?_⟩
        rw [(hR.accessors hmf.aligned (hB.pageMapped hdm).aligned (by omega)).2.2.2, hI.flags b hb d hdm]
        exact hhead d rfl
    · rintro _ _ rfl
      exact ⟨⟨rfl, hR.prev, hR.next, hR.pages, fun _ _ _ _ => rfl⟩, ls', hL, fun j hj hx =>
        ((hls j hj _).mp hx).2 rfl⟩
  · have hdm : d ∈ chunks b := by
      rw [hl]
      simp
    have hBd := hB
    rw [hl] at hBd
    obtain ⟨-, hdnext, hdpages⟩ := ValidBlock.read (r := r) hBd
    obtain ⟨hi, hal, hcls, hfree⟩ := hI.listOf_mem hb hdm hl hd
    have hmd := hB.pageMapped hdm
    have hdf := hBd.lt_of_append (List.mem_append_right l hfm) (d := d) (by simp)
    obtain ⟨-, hdn, hdc, hdi⟩ := hR.accessors hmf.aligned hmd.aligned (by omega)
    have hk : pagesOf (left ++ [c]) + d.pages = pagesOf (left ++ c :: [d]) := by
      simp only [pagesOf, List.map_append, List.map_cons, List.sum_append, List.sum_cons, List.map_nil,
        List.sum_nil]
      omega
    have hal' : d.addr ∈ ls' (listOf cfg d.pages) := (hls _ hi _).mpr ⟨hal, by omega⟩
    have hnext : nextInBlock t.w.mem f.addr = d.addr := hR.next
    refine Act.wp_mono (mergeRight_free hL hmt hnext (hdi.trans hfree) hi hal'
      ((congrArg (listOf cfg) hdc).trans hcls) (by rw [hR.pages, hdc, hdpages, hk]; exact hsum)) ?_ fun _ ht => ht
    intro _ u hu
    obtain ⟨hLu, hRu⟩ := hu
    rw [hR.pages, hdc, hdpages, hk, hR.prev, hdn, hdnext] at hRu
    exact ⟨hRu, _, hLu, fun j hj hx => ((hls j hj _).mp ((hL.mem_erase hi hal' hj).mp hx).1).2 rfl⟩

/-- What `deallocate` writes to the headers of a block: the merged chunk gets
one, and no other changes. -/
theorem deallocate_headers (hI : ChunkInv cfg s blocks chunks ls) (hcfg : Fits cfg) (hb : b ∈ blocks)
    (hl : chunks b = (l ++ left) ++ c :: (right ++ r)) (hc : c.flag = false) (hn : Neighbours l left right r) :
    Act.wp (deallocate cfg c.addr)
      (fun _ t => Rewritten s t (headAddr left c.addr) (pagesOf (left ++ c :: right)) (lastAddr 0 l) (headAddr r 0))
      (fun _ => False) s := by
  have hB := hI.block b hb
  have hcm : c ∈ chunks b := by
    rw [hl]
    simp
  have hm := hB.pageMapped hcm
  obtain ⟨-, -, hpos, -⟩ := hB.chunk hcm
  have hlt := hcfg.pages_lt
  -- the chunk that is grown, and what is on the lists after it left them
  obtain ⟨f, hfm, hfa, hlf, hmf⟩ := hI.grown hb hl
  have hsum : pagesOf (left ++ c :: right) ≤ cfg.pagesPerAllocatedBlock := by
    have hB' := hI.block b hb
    apply ValidBlock.sum_le (w := s.w) (b := b) (l := l) (r := r)
    rw [hl] at hB'
    simpa using hB'
  have hsum0 : 0 < pagesOf (left ++ c :: right) := by
    unfold pagesOf
    rw [List.map_append, List.map_cons, List.sum_append, List.sum_cons]
    omega
  have hread := hB
  rw [hl] at hread
  unfold deallocate
  rw [Act.wp_bind, loadPageCount, wp_field, hread.read.2.2, if_pos hpos.ne', Act.wp_bind, Act.wp_assert,
    Act.wp_bind]
  refine ⟨hm.word (k := 0) (by omega), ?_⟩
  refine Act.wp_mono (mergeLeft_headers (hI.asserted _) hcfg hb hl hc hn.left) ?_ fun _ ht => ht
  intro y t ht
  obtain ⟨hy, hR', ls', hL, hls⟩ := ht
  rw [← hfa] at hy ⊢
  subst hy
  have hR : Rewritten s t f.addr (pagesOf (left ++ [c])) (lastAddr 0 l) (headAddr (right ++ r) 0) :=
    ⟨hR'.calls, hR'.prev, hR'.next, hR'.pages, hR'.other⟩
  have hmt : CollectionInPages.PageMapped t.w.calls f.addr := by
    rw [hR.calls]
    exact hmf
  rw [Act.wp_bind]
  refine Act.wp_mono (mergeRight_headers hI hcfg hb hlf hfm hn.right hR hL hls) ?_ fun _ ht => ht
  intro _ u hu
  obtain ⟨hRu, ls'', hLu, hout⟩ := hu
  have hmu : CollectionInPages.PageMapped u.w.calls f.addr := by
    rw [hRu.calls]
    exact hmt
  have h4 := hmf.aligned
  rw [Act.wp_bind, wp_field, Act.wp_bind, storePrevFree, Act.wp_storeWord, hRu.pages]
  refine ⟨hmu.word (k := 0) (by omega), hmu.word (by omega), ?_⟩
  have hLs : FreeLists cfg ⟨⟨u.w.calls, store u.w.mem (f.addr + 16) 0, u.w.assertsHold⟩, u.c⟩ ls'' := by
    refine hLu.congr (fun _ _ _ _ _ _ => rfl) (fun _ _ => rfl) fun x hx => store_ne ?_
    obtain ⟨j, hj, a, ha, hw⟩ := hx
    have ha4 := (hLu.mapped j hj a ha).aligned
    have hne : a ≠ f.addr := fun he => hout j hj (he ▸ ha)
    unfold LinkWord at hw
    omega
  refine Act.wp_mono (pushFree_spec hLs (listOf_le hsum0 (by omega)) hmu hout (store_self _ _ _)) ?_ fun _ ht => ht
  intro _ v hv
  obtain ⟨-, hE⟩ := hv
  -- the links of the list are no words of a header
  have hkeep : ∀ x, x % 4096 < 16 → v.w.mem x = u.w.mem x := fun x hx =>
    (hE.header_push hLs h4 hx).trans (store_ne (by omega))
  have hlast : Rewritten u v f.addr (pagesOf (left ++ c :: right)) (lastAddr 0 l) (headAddr r 0) := by
    obtain ⟨h1, h2, h3, -⟩ := header_congr (hkeep f.addr (by omega)) (hkeep (f.addr + 8) (by omega))
    exact ⟨hE.calls, h1.trans hRu.prev, h2.trans hRu.next, h3.trans hRu.pages, fun y hy _ _ => hkeep y hy⟩
  exact (hR.trans hRu).trans hlast

/-- In `t` the block `b` has the chunks `l`, then `new`, then `r`: each header
has the page count, the chunk before and the chunk after, and nothing else has
changed in the headers of the other chunks. -/
structure Spliced (blocks : List ℕ) (chunks : ℕ → List Chunk) (b : ℕ) (l new r : List Chunk)
    (s t : St BulkAllocator) : Prop where
  chained : Chained t.w.mem 0 (l ++ (new ++ r)) 0
  flags : ∀ c, c ∈ l ∨ c ∈ r → isFree t.w.mem c.addr = isFree s.w.mem c.addr
  others : ∀ b' ∈ blocks, b' ≠ b → Chained t.w.mem 0 (chunks b') 0 ∧
    ∀ c ∈ chunks b', isFree t.w.mem c.addr = isFree s.w.mem c.addr

/-- A block that was not written in. -/
theorem ChunkInv.untouched {b' : ℕ} (hI : ChunkInv cfg s blocks chunks ls) (hb' : b' ∈ blocks)
    (hsame : ∀ c ∈ chunks b', t.w.mem c.addr = s.w.mem c.addr ∧ t.w.mem (c.addr + 8) = s.w.mem (c.addr + 8)) :
    Chained t.w.mem 0 (chunks b') 0 ∧ ∀ c ∈ chunks b', isFree t.w.mem c.addr = isFree s.w.mem c.addr :=
  ⟨(hI.block b' hb').chained.congr hsame, fun c hc =>
    (header_congr (hsame c hc).1 (hsame c hc).2).2.2.2⟩

/-- `deallocate` puts the merged chunk in the place of the chunk and its free
neighbours, and the links are right exactly if nothing was merged, or nothing
follows: the chunk that follows is not told who is before it now. -/
theorem deallocate_chain (hI : ChunkInv cfg s blocks chunks ls) (hcfg : Fits cfg) (hb : b ∈ blocks)
    (hl : chunks b = (l ++ left) ++ c :: (right ++ r)) (hc : c.flag = false) (hn : Neighbours l left right r) :
    Act.wp (deallocate cfg c.addr)
      (fun _ t => Spliced blocks chunks b l [⟨headAddr left c.addr, pagesOf (left ++ c :: right), true⟩] r s t ↔
        left = [] ∧ right = [] ∨ r = []) (fun _ => False) s := by
  refine Act.wp_mono (deallocate_headers hI hcfg hb hl hc hn) ?_ fun _ ht => ht
  rintro _ t hR
  have hB := hI.block b hb
  obtain ⟨f, hfm, hfa, hlf, hmf⟩ := hI.grown hb hl
  have hBl := hB
  have hBr := hB
  rw [show chunks b = l ++ (left ++ c :: right ++ r) by rw [hl]; simp] at hBl
  rw [hlf] at hBr
  rw [← hfa] at hR ⊢
  -- the headers before and after are the old ones
  have hsame : ∀ b' ∈ blocks, ∀ d ∈ chunks b', d.addr ≠ f.addr →
      t.w.mem d.addr = s.w.mem d.addr ∧ t.w.mem (d.addr + 8) = s.w.mem (d.addr + 8) := by
    intro b' hb' d hd hne
    have h1 := ((hI.block b' hb').pageMapped hd).aligned
    have h2 := hmf.aligned
    exact ⟨hR.other _ (by omega) hne (by omega), hR.other _ (by omega) (by omega) (by omega)⟩
  have hbefore : ∀ d ∈ l, d.addr ≠ f.addr := fun d hd =>
    (hBl.lt_of_append hd (d := f) (by
      rcases List.mem_append.mp hfm with h' | h' <;> simp_all)).ne
  have hafter : ∀ d ∈ right ++ r, d.addr ≠ f.addr := fun d hd =>
    (hBr.lt_of_append (List.mem_append_right l hfm) hd).ne'
  have hlm : ∀ d ∈ l, d ∈ chunks b := fun d hd => by
    rw [hlf]
    simp [hd]
  have hrm : ∀ d ∈ r, d ∈ chunks b := fun d hd => by
    rw [hlf]
    simp [hd]
  have hchain := hB.chained
  rw [show chunks b = l ++ ((left ++ c :: right) ++ r) by rw [hl]; simp, chained_append, chained_append] at hchain
  obtain ⟨hcl, -, hcr⟩ := hchain
  constructor
  · intro hS
    by_contra hcon
    obtain ⟨hmerged, hr⟩ := not_or.mp hcon
    obtain ⟨d, r', rfl⟩ := List.exists_cons_of_ne_nil hr
    have hd := ((chained_append _ _ _).mp ((chained_append _ _ _).mp hS.chained).2).2.1
    -- the chunk that follows still has the one before it that it had
    have hold : prevInBlock t.w.mem d.addr = lastAddr (lastAddr 0 l) (left ++ c :: right) := by
      obtain ⟨h0, h8⟩ := hsame b hb d (hrm d List.mem_cons_self) (hafter d (by simp))
      exact (header_congr h0 h8).1.trans hcr.1
    rw [hold, lastAddr_append] at hd
    change lastAddr c.addr right = f.addr at hd
    rcases List.eq_nil_or_concat right with rfl | ⟨right', g, rfl⟩
    · rcases hn.left with ⟨rfl, -⟩ | ⟨e, rfl, -⟩
      · exact hmerged ⟨rfl, rfl⟩
      · have hBe := hB
        rw [show chunks b = (l ++ [e]) ++ c :: ([] ++ d :: r') from hl] at hBe
        have := hBe.lt_of_append (c := e) (d := c) (by simp) (by simp)
        rw [hfa] at hd
        change c.addr = e.addr at hd
        omega
    · rw [List.concat_eq_append, lastAddr_append] at hd
      exact hafter g (by simp) hd
  · intro hcon
    refine ⟨?_, ?_, fun b' hb' hne => hI.untouched hb' fun d hd => hsame b' hb' d hd fun he => ?_⟩
    · rw [chained_append, chained_append]
      refine ⟨?_, ⟨hR.prev, hR.next, hR.pages, trivial⟩, ?_⟩
      · have hl' := hcl.congr fun d hd => hsame b hb d (hlm d hd) (hbefore d hd)
        rwa [headAddr_append, headAddr_append, show headAddr left (headAddr (c :: right) (headAddr r 0)) = f.addr
          from hfa.symm] at hl'
      · rcases hcon with ⟨rfl, rfl⟩ | rfl
        · rw [hfa]
          exact hcr.congr fun d hd => hsame b hb d (hrm d hd) (hafter d (by simpa using hd))
        · trivial
    · rintro d (hd | hd)
      · obtain ⟨h0, h8⟩ := hsame b hb d (hlm d hd) (hbefore d hd)
        exact (header_congr h0 h8).2.2.2
      · obtain ⟨h0, h8⟩ := hsame b hb d (hrm d hd) (hafter d (List.mem_append_right right hd))
        exact (header_congr h0 h8).2.2.2
    · have h1 := hI.start hb' hd
      have hfb : f ∈ chunks b := by
        rw [hlf]
        exact List.mem_append_left _ (List.mem_append_right l hfm)
      exact hne (hI.unique hb' hb hd hfb h1 (he ▸ hI.start hb hfb)).1

/-! ### allocate -/

/-- From `s` to `t` the chunk at `a` is cut after `k` pages: its header and that
of the rest are written, and no other. -/
structure Cut (s t : St BulkAllocator) (a k : ℕ) : Prop where
  calls : t.w.calls = s.w.calls
  prev : prevInBlock t.w.mem a = prevInBlock s.w.mem a
  next : nextInBlock t.w.mem a = a + k * 4096
  pages : getPageCount t.w.mem a = k
  prev' : prevInBlock t.w.mem (a + k * 4096) = a
  next' : nextInBlock t.w.mem (a + k * 4096) = nextInBlock s.w.mem a
  pages' : getPageCount t.w.mem (a + k * 4096) = getPageCount s.w.mem a - k
  other : ∀ y, y % 4096 < 16 → y ≠ a → y ≠ a + 8 → y ≠ a + k * 4096 → y ≠ a + k * 4096 + 8 →
    t.w.mem y = s.w.mem y

theorem split_headers {a : ℕ} (hF : FreeLists cfg s ls) (hfirst : s.c.freeListBegin cfg.max_pages = a)
    (ha : a ≠ 0) (hm : CollectionInPages.PageMapped s.w.calls (a + k * 4096))
    (hout : ∀ i ≤ cfg.max_pages, a + k * 4096 ∉ ls i) (hlt : a + k * 4096 < 2 ^ 64) (hk : 0 < k)
    (hk' : k ≤ cfg.max_pages) (hp : cfg.max_pages < getPageCount s.w.mem a) :
    Act.wp (split cfg k) (fun y t => y = a ∧ Cut s t a k) (fun _ => False) s := by
  have h4 := (hF.mapped _ le_rfl a (hfirst ▸ hF.first_mem le_rfl (by rwa [hfirst]))).aligned
  have hq := prevInBlock_lt s.w.mem a
  have hn := nextInBlock_lt s.w.mem a
  have hp4 := getPageCount_lt s.w.mem a
  refine Act.wp_mono (split_done hF hfirst ha hm hout hlt hk hk' hp) ?_ fun _ ht => ht
  intro r t ht
  obtain ⟨rfl, hS⟩ := ht
  obtain ⟨h1, h2, h3, -⟩ := BlockInv.accessors (f := false) hq.1 (show 4096 ∣ r + k * 4096 by omega)
    (show k < 4096 by omega) (by omega) (by omega) hS.prev hS.next
  obtain ⟨h5, h6, h7, -⟩ := BlockInv.accessors (f := true) h4 hn.1
    (show getPageCount s.w.mem r - k < 4096 by omega) (by omega) (by omega) hS.prev' hS.next'
  refine ⟨rfl, hS.edits.calls, h1, h3, h2, h5, h7, h6, fun y hy h8 h9 h10 h11 => hS.edits.mem y fun hw => ?_⟩
  rcases hw with hw | hw
  · have := hF.freeWord_mod hw
    omega
  · unfold HeaderWord LinkWord at hw
    omega

/-- Where a block is needed: it becomes the one chunk of the last list, and nothing
that was mapped has changed. -/
theorem newBlock_headers (os : Os) {pages used free : List ℕ} (hF : FreeLists cfg s ls) (hcfg : Fits cfg)
    (hcoll : CollectionInPages.CollInv blockItemSize s.w.calls s.c.blocks pages used free)
    (hidle : s.c.base.Idle) :
    Act.wp (newBlock cfg os)
      (fun _ t => ∃ b, FreshRegion s.w.calls b cfg.commited_block_size ∧
        FreeLists cfg t (setList ls cfg.max_pages [b]) ∧ t.c.freeListBegin cfg.max_pages = b ∧
        (prevInBlock t.w.mem b = 0 ∧ getPageCount t.w.mem b = cfg.pagesPerAllocatedBlock ∧
          nextInBlock t.w.mem b = 0 ∧ isFree t.w.mem b = true) ∧
        (∀ x, Within b cfg.commited_block_size x → pageState t.w.calls x = .committed) ∧
        ∀ x, Mapped s.w.calls x → t.w.mem x = s.w.mem x) (fun _ => True) s := by
  have hmax := hcfg.max_lt
  have hlt := hcfg.pages_lt
  have hsize := BulkCfg.size_eq cfg
  refine Act.wp_mono (newBlock_done (g := ⟨pages, used, free, [], fun _ => [], fun _ => []⟩) os hcfg hcoll hidle) ?_
    fun _ _ => trivial
  intro _ t ht
  obtain ⟨b, a, pages', free', hN⟩ := ht
  have hf := hN.mapped.fresh
  -- what is on the lists was mapped before
  have hlisted : ∀ i ≤ cfg.max_pages, ∀ a ∈ ls i, ∀ x, Within a 4096 x → Mapped s.w.calls x :=
    fun i hi a ha x hx => mapped_of_committed ((hF.mapped i hi a ha).mapped x hx)
  have hout : ∀ i ≤ cfg.max_pages, b ∉ ls i := fun i hi hb =>
    hlisted i hi b hb b ⟨le_rfl, by omega⟩ (hf.unmapped b ⟨le_rfl, by omega⟩)
  have hpm : CollectionInPages.PageMapped t.w.calls b := by
    refine ⟨hf.aligned, hf.pos, fun x hx => hN.mapped.committed x ⟨hx.1, ?_⟩⟩
    have := hx.2
    omega
  have hF' : FreeLists cfg ⟨t.w, { t.c with freeListBegin := s.c.freeListBegin }⟩ ls := by
    refine hF.congr (fun i hi a ha x hx => (hN.mapped.keep x (hlisted i hi a ha x hx)).1) (fun _ _ => rfl)
      fun x hx => ?_
    obtain ⟨i, hi, a, ha, hw⟩ := hx
    refine (hN.mapped.keep x (hlisted i hi a ha x ?_)).2
    unfold LinkWord at hw
    unfold Within
    omega
  refine ⟨b, hf, ?_, ?_, ?_, hN.mapped.committed, fun x hx => (hN.mapped.keep x hx).2⟩
  · refine hF'.edit le_rfl rfl (fun j hj => ?_) (fun _ _ => rfl) ?_ fun a ha => ?_
    · rw [hN.begin]
      exact if_neg hj
    · rw [hN.begin]
      simp only [if_true]
      exact ⟨rfl, hf.pos.ne', hN.prevFree, hN.nextFree⟩
    · rw [List.mem_singleton.mp ha]
      exact Or.inr ⟨hpm, hout⟩
  · rw [hN.begin]
    exact if_pos rfl
  · obtain ⟨h1, h2, h3, h4⟩ := BlockInv.accessors (f := true) (dvd_zero 4096) (dvd_zero 4096)
      (show cfg.pagesPerAllocatedBlock < 4096 by omega) (by omega) (by norm_num)
      (hN.word0.trans (Nat.zero_add _).symm) hN.word8
    exact ⟨h1, h2, h3, h4⟩

/-- In `t` the block of the chunk at `a`, one of the blocks or a new one, has in
its place the chunk of `k` pages and the rest. -/
def SplitsInto (cfg : BulkCfg) (blocks : List ℕ) (chunks : ℕ → List Chunk) (s t : St BulkAllocator) (a k : ℕ) :
    Prop :=
  ∃ b l c r, c.addr = a ∧ (b ∈ blocks ∧ chunks b = l ++ c :: r ∨
      b ∉ blocks ∧ l = [] ∧ c = ⟨b, cfg.pagesPerAllocatedBlock, true⟩ ∧ r = []) ∧
    Spliced blocks chunks b l [⟨a, k, false⟩, ⟨a + k * 4096, c.pages - k, true⟩] r s t

/-- A chunk cut, in a block in order: the links are right exactly if it was the
last. -/
theorem cut_chain (hI : ChunkInv cfg s blocks chunks ls) (hb : b ∈ blocks) (hl : chunks b = l ++ c :: r)
    (hk : 0 < k) (hkc : k < c.pages) (hcut : Cut s t c.addr k) :
    SplitsInto cfg blocks chunks s t c.addr k ↔ nextInBlock s.w.mem c.addr = 0 := by
  have hB := hI.block b hb
  have hcm : c ∈ chunks b := by
    rw [hl]
    simp
  have hmc := hB.pageMapped hcm
  have h4 := hmc.aligned
  -- the headers of the other chunks are the old ones
  have hsame : ∀ b' ∈ blocks, ∀ d ∈ chunks b', d.addr ≠ c.addr →
      t.w.mem d.addr = s.w.mem d.addr ∧ t.w.mem (d.addr + 8) = s.w.mem (d.addr + 8) := by
    intro b' hb' d hd hne
    have hd4 := ((hI.block b' hb').pageMapped hd).aligned
    have hne' : d.addr ≠ c.addr + k * 4096 := fun he => by
      have hin : c.addr ≤ d.addr ∧ d.addr < c.stop := by
        unfold Chunk.stop
        omega
      exact hne (congrArg Chunk.addr (hI.unique hb hb' hcm hd hin (hI.start hb' hd)).2).symm
    exact ⟨hcut.other _ (by omega) hne (by omega) hne' (by omega),
      hcut.other _ (by omega) (by omega) (by omega) (by omega) (by omega)⟩
  have hread := hB
  rw [hl] at hread
  obtain ⟨hprev, hnext, hpages⟩ := hread.read
  constructor
  · intro hx
    obtain ⟨b', l', c', r', hca, hwhere, hS⟩ := hx
    have hS' := ((chained_append _ _ _).mp hS.chained).2
    obtain ⟨-, -, -, -, hnext', -, hrest⟩ := hS'
    change nextInBlock t.w.mem (c.addr + k * 4096) = headAddr r' 0 at hnext'
    rw [hcut.next'] at hnext'
    rcases hwhere with ⟨hb', hl'⟩ | ⟨-, -, -, rfl⟩
    · cases r' with
      | nil => exact hnext'
      | cons d r' =>
        have hB' := hI.block b' hb'
        have hdm : d ∈ chunks b' := by
          rw [hl']
          simp
        have hBd := hB'
        rw [show chunks b' = (l' ++ [c']) ++ d :: r' by rw [hl']; simp] at hBd
        have hlt := hBd.lt_of_append (c := c') (d := d) (by simp) (by simp)
        obtain ⟨h0, h8⟩ := hsame b' hb' d hdm (by omega)
        -- the chunk that follows still has the chunk before it that it had
        have hold := (header_congr h0 h8).1.trans hBd.read.1
        rw [lastAddr_append, show lastAddr (lastAddr 0 l') [c'] = c'.addr from rfl, hca] at hold
        have hnew := hrest.1
        change prevInBlock t.w.mem d.addr = c.addr + k * 4096 at hnew
        omega
    · exact hnext'
  · intro h0
    have hr : r = [] := by
      cases r with
      | nil => rfl
      | cons d r =>
        have hdm : d ∈ chunks b := by
          rw [hl]
          simp
        have := (hB.pageMapped hdm).pos
        rw [h0] at hnext
        change 0 = d.addr at hnext
        omega
    subst hr
    have hchain := hB.chained
    rw [hl] at hchain
    have hbefore : ∀ d ∈ l, d.addr ≠ c.addr := fun d hd => (hread.lt_of_append hd List.mem_cons_self).ne
    have hlm : ∀ d ∈ l, d ∈ chunks b := fun d hd => by
      rw [hl]
      simp [hd]
    refine ⟨b, l, c, [], rfl, Or.inl ⟨hb, hl⟩, ?_, ?_, fun b' hb' hne => hI.untouched hb' fun d hd =>
      hsame b' hb' d hd fun he => ?_⟩
    · rw [chained_append]
      refine ⟨((chained_append _ _ _).mp hchain).1.congr fun d hd => hsame b hb d (hlm d hd) (hbefore d hd),
        hcut.prev.trans hprev, hcut.next, hcut.pages, hcut.prev', hcut.next'.trans h0, ?_, trivial⟩
      rw [hcut.pages', hpages]
    · rintro d (hd | hd)
      · obtain ⟨h1, h2⟩ := hsame b hb d (hlm d hd) (hbefore d hd)
        exact (header_congr h1 h2).2.2.2
      · cases hd
    · exact hne (hI.unique hb' hb hd hcm (hI.start hb' hd) (he ▸ hI.start hb hcm)).1

/-- A chunk cut from a block that was obtained for it. -/
theorem newBlock_splits (os : Os) {pages used free : List ℕ} (hI : ChunkInv cfg s blocks chunks ls) (hcfg : Fits cfg)
    (hcoll : CollectionInPages.CollInv blockItemSize s.w.calls s.c.blocks pages used free)
    (hidle : s.c.base.Idle) (hk : 0 < k) (hk' : k ≤ cfg.max_pages) :
    Act.wp (newBlock cfg os)
      (fun _ t => Act.wp (split cfg k) (fun a u => SplitsInto cfg blocks chunks s u a k) (fun _ => True) t)
      (fun _ => True) s := by
  have hmax := hcfg.max_lt
  have hsize := BulkCfg.size_eq cfg
  refine Act.wp_mono (newBlock_headers os hI.lists hcfg hcoll hidle) ?_ fun _ _ => trivial
  intro _ t ht
  obtain ⟨b, hf, hFt, hbegin, ⟨hp, hpg, hn, -⟩, hcomm, hkeep⟩ := ht
  have hb4 := hf.aligned
  have hbpos := hf.pos
  have hblt := hf.lt
  have hunmapped : ∀ b' ∈ blocks, ∀ x, Within b' cfg.commited_block_size x →
      ¬ Within b cfg.commited_block_size x := fun b' hb' x hx hx' =>
    mapped_of_committed ((hI.block b' hb').committed x hx) (hf.unmapped x hx')
  have hbb : b ∉ blocks := fun hb => hunmapped b hb b ⟨le_rfl, by omega⟩ ⟨le_rfl, by omega⟩
  have hlist : ∀ i ≤ cfg.max_pages, b + k * 4096 ∉ setList ls cfg.max_pages [b] i := by
    intro i hi hx
    by_cases him : i = cfg.max_pages
    · subst him
      rw [setList_self, List.mem_singleton] at hx
      omega
    · rw [setList_ne him] at hx
      obtain ⟨b', hb', d, hd, hda, -⟩ := hI.listed i hi _ hx
      refine hunmapped b' hb' d.addr (hI.within hb' hd (hI.start hb' hd)) ?_
      unfold Within
      omega
  have hm : CollectionInPages.PageMapped t.w.calls (b + k * 4096) :=
    ⟨by omega, by omega, fun x hx => hcomm x ⟨by have := hx.1; omega, by have := hx.2; omega⟩⟩
  refine Act.wp_mono (split_headers hFt hbegin hbpos.ne' hm hlist (by omega) hk hk' (by rw [hpg]; exact hmax)) ?_
    fun _ ht => ht.elim
  intro a u hu
  obtain ⟨rfl, hcut⟩ := hu
  refine ⟨a, [], ⟨a, cfg.pagesPerAllocatedBlock, true⟩, [], rfl, Or.inr ⟨hbb, rfl, rfl, rfl⟩, ?_, ?_,
    fun b' hb' _ => hI.untouched hb' fun d hd => ?_⟩
  · refine ⟨hcut.prev.trans hp, hcut.next, hcut.pages, hcut.prev', hcut.next'.trans hn, ?_, trivial⟩
    rw [hcut.pages', hpg]
  · rintro d (hd | hd)
    · cases hd
    · cases hd
  · have hd4 := ((hI.block b' hb').pageMapped hd).aligned
    have hdlt := hI.start hb' hd
    unfold Chunk.stop at hdlt
    have hw : ∀ j < 4096, Within b' cfg.commited_block_size (d.addr + j) := fun j hj =>
      hI.within hb' hd ⟨by omega, by unfold Chunk.stop; omega⟩
    have hne : ∀ j < 4096, ∀ m, m < cfg.commited_block_size → d.addr + j ≠ a + m := fun j hj m hm he =>
      hunmapped b' hb' _ (hw j hj) ⟨by omega, by omega⟩
    have hmap : ∀ j < 4096, Mapped s.w.calls (d.addr + j) := fun j hj =>
      mapped_of_committed ((hI.block b' hb').committed _ (hw j hj))
    have hsame : ∀ j, j = 0 ∨ j = 8 → u.w.mem (d.addr + j) = s.w.mem (d.addr + j) := fun j hj => by
      rw [hcut.other _ (by omega) (hne j (by omega) 0 (by omega)) (hne j (by omega) 8 (by omega))
        (hne j (by omega) (k * 4096) (by omega)) (hne j (by omega) (k * 4096 + 8) (by omega)),
        hkeep _ (hmap j (by omega))]
    exact ⟨hsame 0 (Or.inl rfl), hsame 8 (Or.inr rfl)⟩

/-- A chunk cut from the first chunk of the last list. -/
theorem split_splits (hI : ChunkInv cfg s blocks chunks ls) (hk : 0 < k) (hk' : k ≤ cfg.max_pages)
    (hsome : s.c.freeListBegin cfg.max_pages ≠ 0) :
    Act.wp (split cfg k)
      (fun a t => SplitsInto cfg blocks chunks s t a k ↔ nextInBlock s.w.mem (s.c.freeListBegin cfg.max_pages) = 0)
      (fun _ => False) s := by
  have hfl : s.c.freeListBegin cfg.max_pages ∈ ls cfg.max_pages := hI.lists.first_mem le_rfl hsome
  obtain ⟨b, hb, c, hc, hca, hlist, -⟩ := hI.listed _ le_rfl _ hfl
  obtain ⟨l, r, hl⟩ := List.append_of_mem hc
  have hB := hI.block b hb
  obtain ⟨h1, h2, h3, h4⟩ := hB.chunk hc
  have hlt' := hB.lt
  rw [hl] at hB
  have hpages := hB.read.2.2
  have hp4 := getPageCount_lt s.w.mem c.addr
  rw [listOf_eq h3 (by omega)] at hlist
  have hck : cfg.max_pages < c.pages := by
    split_ifs at hlist <;> omega
  unfold Chunk.stop at h2
  have hm : CollectionInPages.PageMapped s.w.calls (c.addr + k * 4096) := by
    refine ⟨by omega, by omega, fun x hx => ?_⟩
    refine (hI.block b hb).committed x ⟨by have := hx.1; omega, ?_⟩
    have := hx.2
    omega
  have hout : ∀ i ≤ cfg.max_pages, c.addr + k * 4096 ∉ ls i := fun i hi hx => by
    have := (hI.listed_flag hb hc (x := c.addr + k * 4096) ⟨by omega, by unfold Chunk.stop; omega⟩ hi hx).1
    omega
  have hca0 : c.addr ≠ 0 := by
    rw [hca]
    exact hsome
  refine Act.wp_mono (split_headers hI.lists hca.symm hca0 hm hout (by omega) hk hk' (by rw [hpages]; exact hck)) ?_
    fun _ ht => ht
  intro a t ht
  obtain ⟨rfl, hcut⟩ := ht
  rw [cut_chain hI hb hl hk (by omega) hcut, hca]

/-- `allocate` where it cuts a chunk: the links are right exactly if the chunk
is the last of its block, or a block was obtained. -/
theorem allocate_chain (os : Os) {sz : ℕ} {pages used free : List ℕ} (hI : ChunkInv cfg s blocks chunks ls)
    (hcfg : Fits cfg) (hcoll : CollectionInPages.CollInv blockItemSize s.w.calls s.c.blocks pages used free)
    (hidle : s.c.base.Idle) (hk : 0 < pageCountOf sz) (hk' : pageCountOf sz ≤ cfg.max_pages)
    (hempty : s.c.freeListBegin (pageCountOf sz - 1) = 0) :
    Act.wp (allocate cfg os sz)
      (fun a t => SplitsInto cfg blocks chunks s t a (pageCountOf sz) ↔
        s.c.freeListBegin cfg.max_pages = 0 ∨ nextInBlock s.w.mem (s.c.freeListBegin cfg.max_pages) = 0)
      (fun _ => True) s := by
  have hmax := hcfg.max_lt
  have hlt := hcfg.pages_lt
  have hidx : u64 (pageCountOf sz + (2 ^ 64 - 1)) = pageCountOf sz - 1 := by
    unfold u64
    omega
  have hI' := hI.asserted (s.w.assertsHold && decide (pageCountOf sz ≤ 2 ^ 16 - 1))
  -- the assertions are no part of what is asked
  have hasserts : ∀ {t : St BulkAllocator} {a : ℕ} (v : Bool),
      SplitsInto cfg blocks chunks s ⟨⟨t.w.calls, t.w.mem, v⟩, t.c⟩ a (pageCountOf sz) ↔
        SplitsInto cfg blocks chunks s t a (pageCountOf sz) := fun v =>
    ⟨fun ⟨b, l, c, r, h1, h2, h3⟩ => ⟨b, l, c, r, h1, h2, h3.chained, h3.flags, h3.others⟩,
      fun ⟨b, l, c, r, h1, h2, h3⟩ => ⟨b, l, c, r, h1, h2, h3.chained, h3.flags, h3.others⟩⟩
  unfold allocate cut
  dsimp only
  rw [if_pos hk', Act.wp_bind, Act.wp_assert, Act.wp_bind, wp_freeListAt, hidx, hempty, if_pos rfl, Act.wp_bind,
    Act.wp_bind, wp_freeListAt, Act.wp_bind, Act.wp_when]
  refine ⟨by omega, le_rfl, fun hnone => ?_, fun hsome => ?_⟩
  · refine Act.wp_mono (newBlock_splits os hI' hcfg hcoll hidle hk hk') ?_ fun _ _ => trivial
    intro _ t ht
    refine Act.wp_mono ht ?_ fun _ _ => trivial
    intro a u hu
    rw [Act.wp_bind, Act.wp_assertThat, Act.wp_pure, hasserts]
    obtain ⟨b, l, c, r, h1, h2, h3⟩ := hu
    exact iff_of_true ⟨b, l, c, r, h1, h2, h3.chained, h3.flags, h3.others⟩ (Or.inl hnone)
  · refine Act.wp_mono (split_splits hI' hk hk' hsome) ?_ fun _ ht => ht.elim
    intro a u hu
    rw [Act.wp_bind, Act.wp_assertThat, Act.wp_pure, hasserts]
    exact ⟨fun ⟨b, l, c, r, h1, h2, h3⟩ =>
      Or.inr (hu.mp ⟨b, l, c, r, h1, h2, h3.chained, h3.flags, h3.others⟩), fun h => by
      obtain ⟨b, l, c, r, h1, h2, h3⟩ := hu.mpr (h.resolve_left hsome)
      exact ⟨b, l, c, r, h1, h2, h3.chained, h3.flags, h3.others⟩⟩

/-! ### When the links are right -/

/-- What `allocate` and `deallocate` do to the chain of a block, in a state that
the allocator's own checks accept. A cut is right exactly where the chunk is the
last of its block, or the block is new; a merge exactly where nothing was
merged, or nothing follows the merged chunk. -/
theorem spliced_iff {lists addrs : ℕ → List ℕ} (h : Validated bulkAllocatorT s blocks addrs lists)
    (hs : InOrder s) :
    (∀ os sz, 0 < pageCountOf sz → pageCountOf sz ≤ bulkAllocatorT.max_pages →
      s.c.freeListBegin (pageCountOf sz - 1) = 0 →
      Act.wp (allocate bulkAllocatorT os sz)
        (fun a t => SplitsInto bulkAllocatorT blocks (fun b => (addrs b).map (chunkAt s.w.mem)) s t a (pageCountOf sz) ↔
          s.c.freeListBegin bulkAllocatorT.max_pages = 0 ∨
            nextInBlock s.w.mem (s.c.freeListBegin bulkAllocatorT.max_pages) = 0) (fun _ => True) s) ∧
    (∀ b ∈ blocks, ∀ l left c right r, (addrs b).map (chunkAt s.w.mem) = (l ++ left) ++ c :: (right ++ r) →
      isFree s.w.mem c.addr = false → Neighbours l left right r →
      Act.wp (deallocate bulkAllocatorT c.addr)
        (fun _ t => Spliced blocks (fun b => (addrs b).map (chunkAt s.w.mem)) b l
          [⟨headAddr left c.addr, pagesOf (left ++ c :: right), true⟩] r s t ↔ left = [] ∧ right = [] ∨ r = [])
        (fun _ => False) s) := by
  have hI := h.chunkInv
  obtain ⟨⟨pages, used, free, hcoll⟩, hidle⟩ := hs
  refine ⟨fun os sz hk hk' hempty => allocate_chain os hI bulkAllocatorT_fits hcoll hidle hk hk' hempty,
    fun b hb l left c right r hl hc hn => deallocate_chain hI bulkAllocatorT_fits hb hl ?_ hn⟩
  rw [← hI.flags b hb c (by simp only [hl]; simp)]
  exact hc

/-- A cut of the 2006 free pages at the end of a block, and the pages before
them given back: both are right. -/
theorem spliced_iff_four : Act.wp (deallocate bulkAllocatorT 172032)
    (fun _ t => Spliced [4096] (fun _ => [4096, 167936, 172032, 176128].map (chunkAt fourChunksMem)) 4096
      [⟨4096, 40, true⟩, ⟨167936, 1, false⟩] [⟨172032, 2007, true⟩] [] fourChunks t) (fun _ => False) fourChunks := by
  have h := (spliced_iff fourChunks_validated fourChunks_inOrder).2 4096 List.mem_cons_self
    [⟨4096, 40, true⟩, ⟨167936, 1, false⟩] [] ⟨172032, 1, false⟩ [⟨176128, 2006, true⟩] [] (by decide +kernel)
    (by decide +kernel) ⟨Or.inl ⟨rfl, by decide⟩, Or.inr ⟨_, rfl, rfl⟩⟩
  exact Act.wp_mono h (fun _ _ ht => ht.mpr (Or.inr rfl)) fun _ ht => ht

/-- Cutting one page off the first chunk, and giving back the chunk after it:
the chunk that follows keeps the `prevInBlock` it had. -/
theorem not_spliced_four : Validated bulkAllocatorT fourChunks [4096] (fun _ => [4096, 167936, 172032, 176128])
      (fun i => if i = bulkAllocatorT.max_pages then [4096, 176128] else []) ∧ InOrder fourChunks ∧
    (∃ a t, Act.exec (allocate bulkAllocatorT (Os.linear 0) 4096) fourChunks = .ret a t ∧
      ¬ SplitsInto bulkAllocatorT [4096] (fun _ => [4096, 167936, 172032, 176128].map (chunkAt fourChunksMem))
        fourChunks t a 1) ∧
    ∃ t, Act.exec (deallocate bulkAllocatorT 167936) fourChunks = .ret () t ∧
      ¬ Spliced [4096] (fun _ => [4096, 167936, 172032, 176128].map (chunkAt fourChunksMem)) 4096 []
        [⟨4096, 41, true⟩] [⟨172032, 1, false⟩, ⟨176128, 2006, true⟩] fourChunks t := by
  have hI := fourChunks_validated.chunkInv
  obtain ⟨⟨pages, used, free, hcoll⟩, hidle⟩ := fourChunks_inOrder
  refine ⟨fourChunks_validated, fourChunks_inOrder, ?_, ?_⟩
  · have hret : (Act.exec (allocate bulkAllocatorT (Os.linear 0) 4096) fourChunks).returned.isSome = true := by
      decide +kernel
    have hspec := allocate_chain (Os.linear 0) hI bulkAllocatorT_fits hcoll hidle
      (show 0 < pageCountOf 4096 by decide) (by decide) (by decide)
    obtain ⟨⟨a, t⟩, hq⟩ := Option.isSome_iff_exists.mp hret
    have hx := Act.exec_of_returned hq
    exact ⟨a, t, hx, mt (Act.exec_ret hspec hx).mp (by decide +kernel)⟩
  · have hn : Neighbours [] [⟨4096, 40, true⟩] [] [⟨172032, 1, false⟩, ⟨176128, 2006, true⟩] :=
      ⟨Or.inr ⟨_, rfl, rfl⟩, Or.inl ⟨rfl, by decide⟩⟩
    have hspec := deallocate_chain (c := ⟨167936, 1, false⟩) hI bulkAllocatorT_fits List.mem_cons_self
      (by decide +kernel) rfl hn
    obtain ⟨_, t, hx, hiff⟩ := Act.returns hspec
    exact ⟨t, hx, mt hiff.mp (by decide)⟩

end BulkAllocator

end IibMalloc

/-
# BulkAllocator: deallocate keeps the invariant

`deallocate` merges a chunk with a flagged neighbour. The one chunk flagged in
a block is its last, so that the chunk before is left alone
(`mergeLeft_spec`), and the chunk after is merged where it is the last
(`mergeRight_last`), also where the client holds it: `MergesLive` says so.

`deallocate_spec` says that `deallocate` keeps the invariant where it does not
merge with a chunk that is live, and `Deallocated` what became of the chunks.
-/
import IibMalloc.BulkAlloc

namespace IibMalloc

open Lib AnyChunkHeader

namespace BulkAllocator

variable {cfg : BulkCfg} {s t : St BulkAllocator} {g g' : BulkGhost} {live live' : List (ℕ × ℕ)}
  {a b k p sz x : ℕ} {l r : List Chunk} {c d : Chunk} {e : ℕ × ℕ}

/-! ### What the client holds -/

/-- The client gives `p` back. -/
def release (p : ℕ) (live : List (ℕ × ℕ)) : List (ℕ × ℕ) := live.eraseP fun e => e.1 = p

theorem release_map (p : ℕ) (live : List (ℕ × ℕ)) : (release p live).map Prod.fst = (live.map Prod.fst).erase p := by
  unfold release
  induction live with
  | nil => rfl
  | cons e live ih =>
    by_cases h : e.1 = p
    · rw [List.eraseP_cons_of_pos (by simpa using h), List.map_cons, ← h, List.erase_cons_head]
    · rw [List.eraseP_cons_of_neg (by simpa using h), List.map_cons, List.map_cons, ih,
        List.erase_cons_tail (by simpa using h)]

theorem mem_release (hn : (live.map Prod.fst).Nodup) : e ∈ release p live ↔ e ∈ live ∧ e.1 ≠ p := by
  constructor
  · intro he
    refine ⟨List.mem_of_mem_eraseP he, fun hp => ?_⟩
    have : e.1 ∈ (live.map Prod.fst).erase p := release_map p live ▸ List.mem_map_of_mem he
    exact (hn.mem_erase_iff.mp this).1 hp
  · intro hx
    obtain ⟨he, hp⟩ := hx
    exact (List.mem_eraseP_of_neg (by simpa using hp)).mpr he

theorem mem_release_map (hn : (live.map Prod.fst).Nodup) :
    a ∈ (release p live).map Prod.fst ↔ a ∈ live.map Prod.fst ∧ a ≠ p := by
  rw [release_map, hn.mem_erase_iff, and_comm]

/-- A chunk given back is no region. -/
theorem large_release (hn : (live.map Prod.fst).Nodup) (hp : (p, sz) ∈ live)
    (hk : pageCountOf sz ≤ cfg.max_pages) : BulkGhost.large cfg (release p live) = BulkGhost.large cfg live := by
  unfold BulkGhost.large release
  induction live with
  | nil => rfl
  | cons e live ih =>
    rw [List.map_cons, List.nodup_cons] at hn
    rcases List.mem_cons.mp hp with rfl | hp
    · rw [List.eraseP_cons_of_pos (by simp), List.filter_cons_of_neg (by simpa using hk)]
    · have he : e.1 ≠ p := fun he => hn.1 (he ▸ List.mem_map_of_mem hp)
      rw [List.eraseP_cons_of_neg (by simpa using he), List.filter_cons, List.filter_cons, ih hn.2 hp]

/-- `deallocate` would merge the chunk `p` with the chunk after it, though the
client holds that one. -/
def MergesLive (mem : ℕ → ℕ) (live : List (ℕ × ℕ)) (p : ℕ) : Prop :=
  getPageCount mem p ≠ 0 ∧ nextInBlock mem p ≠ 0 ∧ isFree mem (nextInBlock mem p) = true ∧
    nextInBlock mem p ∈ live.map Prod.fst

instance (mem : ℕ → ℕ) (live : List (ℕ × ℕ)) (p : ℕ) : Decidable (MergesLive mem live p) := by
  unfold MergesLive
  infer_instance

/-! ### The neighbours -/

/-- A flagged chunk is the last one. -/
theorem LastFree.last (h : LastFree cfg (l ++ c :: r)) (hc : c.flag = true) : r = [] := by
  obtain ⟨l', d, hl, -, hsmall⟩ := h
  rcases List.eq_nil_or_concat r with rfl | ⟨r', d', rfl⟩
  · rfl
  · rw [List.concat_eq_append, ← List.cons_append, ← List.append_assoc] at hl
    obtain ⟨rfl, -⟩ := List.append_inj' hl rfl
    have := (hsmall c (by simp)).1
    rw [hc] at this
    cases this

/-- No chunk is before the one at `p`, or a live one. -/
theorem mergeLeft_none (hm : CollectionInPages.PageMapped s.w.calls p)
    (hp : prevInBlock s.w.mem p ≠ 0 → CollectionInPages.PageMapped s.w.calls (prevInBlock s.w.mem p) ∧
      isFree s.w.mem (prevInBlock s.w.mem p) = false) :
    Act.wp (mergeLeft cfg p) (fun y t => y = p ∧ t = s) (fun _ => False) s := by
  unfold mergeLeft
  rw [Act.wp_bind, loadPrevInBlock, wp_field]
  refine ⟨hm.word (k := 0) (by omega), ?_⟩
  by_cases h0 : prevInBlock s.w.mem p = 0
  · rw [if_pos h0, Act.wp_pure]
    exact ⟨rfl, rfl⟩
  · obtain ⟨h1, h2⟩ := hp h0
    rw [if_neg h0, Act.wp_bind, loadIsFree, wp_field, h2, if_neg Bool.false_ne_true, Act.wp_pure]
    exact ⟨h1.word (by omega), rfl, rfl⟩

/-- No chunk is after the one at `p`, or a live one. -/
theorem mergeRight_none (hm : CollectionInPages.PageMapped s.w.calls p)
    (hp : nextInBlock s.w.mem p ≠ 0 → CollectionInPages.PageMapped s.w.calls (nextInBlock s.w.mem p) ∧
      isFree s.w.mem (nextInBlock s.w.mem p) = false) :
    Act.wp (mergeRight cfg p) (fun _ t => t = s) (fun _ => False) s := by
  unfold mergeRight
  rw [Act.wp_bind, loadNextInBlock, wp_field]
  refine ⟨hm.word (by omega), ?_⟩
  by_cases h0 : nextInBlock s.w.mem p = 0
  · rw [if_pos h0, Act.wp_pure]
  · obtain ⟨h1, h2⟩ := hp h0
    rw [if_neg h0, Act.wp_bind, loadIsFree, wp_field, h2, if_neg Bool.false_ne_true, Act.wp_pure]
    exact ⟨h1.word (by omega), rfl⟩

/-- The chunk before is not flagged. -/
theorem mergeLeft_spec (h : BulkInv cfg s g live) (hcfg : Fits cfg) (hb : b ∈ g.blocks)
    (hl : g.chunks b = l ++ c :: r) :
    Act.wp (mergeLeft cfg c.addr) (fun p t => p = c.addr ∧ t = s) (fun _ => False) s := by
  have hB := h.block b hb
  have hS := h.shape b hb
  rw [hl] at hB hS
  obtain ⟨hprev, -⟩ := hB.read hcfg
  refine mergeLeft_none (hB.pageMapped (by simp)) fun h0 => ?_
  rcases List.eq_nil_or_concat l with rfl | ⟨l', d, rfl⟩
  · exact absurd hprev h0
  rw [List.concat_eq_append, List.append_assoc, List.singleton_append] at hB hS
  obtain ⟨-, -, -, hflag⟩ := hB.read hcfg
  rw [hprev, List.concat_eq_append, lastAddr_append, show lastAddr (lastAddr 0 l') [d] = d.addr from rfl, hflag]
  refine ⟨hB.pageMapped (by simp), ?_⟩
  by_contra hne
  exact absurd (hS.last (by simpa using hne)) (List.cons_ne_nil c r)

/-- The chunk after is not flagged, or there is none. -/
theorem mergeRight_spec (h : BulkInv cfg s g live) (hcfg : Fits cfg) (hb : b ∈ g.blocks)
    (hl : g.chunks b = l ++ c :: r) (hr : ∀ d ∈ r.head?, d.flag = false) :
    Act.wp (mergeRight cfg c.addr) (fun _ t => t = s) (fun _ => False) s := by
  have hB := h.block b hb
  rw [hl] at hB
  obtain ⟨-, -, hnext, -⟩ := hB.read hcfg
  refine mergeRight_none (hB.pageMapped (by simp)) fun h0 => ?_
  cases r with
  | nil => exact absurd hnext h0
  | cons d r =>
    rw [List.append_cons] at hB
    obtain ⟨-, -, -, hflag⟩ := hB.read hcfg
    rw [hnext, show headAddr (d :: r) 0 = d.addr from rfl, hflag]
    exact ⟨hB.pageMapped (by simp), hr d rfl⟩

/-- The words that a merge writes: link words of free chunks, and the header of
the chunk that grows. -/
def MergeWord (cfg : BulkCfg) (g : BulkGhost) (c : Chunk) (x : ℕ) : Prop :=
  FreeWord cfg g.lists x ∨ x = c.addr ∨ x = c.addr + 8

/-- What a merge of `c` and `d`, the last chunks of a block, leaves in memory. -/
structure MergeDone (cfg : BulkCfg) (g : BulkGhost) (l : List Chunk) (c d : Chunk) (s t : St BulkAllocator) :
    Prop where
  edits : Edits (MergeWord cfg g c) s t
  prev : t.w.mem c.addr = lastAddr 0 l + (c.pages + d.pages)
  next : t.w.mem (c.addr + 8) = 1
  lists : FreeLists cfg t (g.take (listOf cfg d.pages) d.addr).lists

/-- The pages of two chunks together are no more than a block's. -/
theorem BulkInv.merged_pages (h : BulkInv cfg s g live) (hb : b ∈ g.blocks) (hl : g.chunks b = l ++ [c, d]) :
    c.pages + d.pages ≤ cfg.pagesPerAllocatedBlock := by
  have hB := h.block b hb
  rw [hl] at hB
  obtain ⟨m, -, hm, -, hcd, -⟩ := (tiled_append b l [c, d]).mp hB.tiled
  have h1 := (hB.chunk (c := c) (by simp)).1
  have h2 := (hB.chunk (c := d) (by simp)).2.1
  have hsize := BulkCfg.size_eq cfg
  unfold Chunk.stop at hcd h2
  omega

theorem mergeRight_last (h : BulkInv cfg s g live) (hcfg : Fits cfg) (hb : b ∈ g.blocks)
    (hl : g.chunks b = l ++ [c, d]) (hd : d.flag = true) (hout : d.addr ∉ live.map Prod.fst) :
    Act.wp (mergeRight cfg c.addr) (fun _ t => MergeDone cfg g l c d s t) (fun _ => False) s := by
  have hB := h.block b hb
  have hcp := hcfg.pages_lt
  rw [hl] at hB
  have hBd := hB
  rw [show l ++ [c, d] = (l ++ [c]) ++ [d] by simp] at hBd
  obtain ⟨hprev, hpages, hnext, -⟩ := hB.read hcfg
  obtain ⟨-, hdpages, hdnext, hdflag⟩ := hBd.read hcfg
  have hm := hB.pageMapped (c := c) (by simp)
  have hmd := hB.pageMapped (c := d) (by simp)
  have hdc : d ∈ g.chunks b := by
    rw [hl]
    simp
  have hd0 := (hB.chunk (c := d) (by simp)).2.2.1
  have hsum := h.merged_pages hb hl
  have hi : listOf cfg d.pages ≤ cfg.max_pages := listOf_le hd0 (by omega)
  have hal : d.addr ∈ g.lists (listOf cfg d.pages) :=
    (h.free _ hi d.addr).mpr ⟨d.pages, ⟨b, hb, d, hdc, rfl, rfl⟩, rfl, hout⟩
  unfold mergeRight
  rw [Act.wp_bind, loadNextInBlock, wp_field, hnext, show headAddr [d] 0 = d.addr from rfl, if_neg hmd.pos.ne',
    Act.wp_bind, loadIsFree, wp_field, hdflag, hd, if_pos rfl, Act.wp_bind, Act.wp_assertThat, Act.wp_bind,
    Act.wp_assertThat, Act.wp_bind, Act.wp_assertThat, Act.wp_bind]
  refine ⟨hm.word (by omega), hmd.word (by omega), ?_⟩
  refine Act.wp_mono (removeFromFreeList_asserted (s := s) _ h.lists hi hal
    (congrArg (listOf cfg) hdpages)) ?_ fun _ ht => ht
  rintro - t ⟨hL, hE⟩
  have hB' := h.block_of_edits hE hb
  rw [hl] at hB'
  obtain ⟨hprev', hpages', -⟩ := hB'.read hcfg
  rw [show l ++ [c, d] = (l ++ [c]) ++ [d] by simp] at hB'
  obtain ⟨-, hdpages', hdnext', -⟩ := hB'.read hcfg
  have hmt : CollectionInPages.PageMapped t.w.calls c.addr := by rwa [hE.calls]
  have hmdt : CollectionInPages.PageMapped t.w.calls d.addr := by rwa [hE.calls]
  rw [Act.wp_bind, loadPrevInBlock, wp_field, hprev', Act.wp_bind, wp_field, hdnext', Act.wp_bind, loadPageCount,
    wp_field, hpages', Act.wp_bind, wp_field, hdpages']
  refine ⟨hmt.word (k := 0) (by omega), hmdt.word (by omega), hmt.word (k := 0) (by omega),
    hmdt.word (k := 0) (by omega), ?_⟩
  rw [show u16 (c.pages + d.pages) = c.pages + d.pages from u16_of_lt (by omega), show headAddr [] 0 = 0 from rfl]
  have hlast : lastAddr 0 l + (c.pages + d.pages) < 2 ^ 64 := by
    have := hB.lastAddr_aligned.2
    omega
  refine set_spec hmt hlast (by norm_num) fun v mem hmem h0 h8 => ?_
  refine ⟨⟨hE.calls, hE.base, hE.blocks, fun x hx => ?_⟩, h0, h8, ?_⟩
  · rw [← hE.mem x fun hw => hx (Or.inl hw)]
    exact hmem x (fun he => hx (Or.inr (Or.inl he))) fun he => hx (Or.inr (Or.inr he))
  · refine hL.congr (fun _ _ _ _ _ _ => rfl) (fun _ _ => rfl) ?_
    intro x hx
    obtain ⟨i, hi', a, ha, hw⟩ := hx
    -- a link word is no word of a header
    have h16 := (h.freeWord_within (x := x) ⟨i, hi', a, ((h.lists.mem_erase hi hal hi').mp ha).1, hw⟩).1
    have hc4 := hm.aligned
    exact hmem x (by omega) (by omega)

/-! ### The chunk put on a list -/

/-- The end of `deallocate`: the chunk becomes the first of the list of its
page count. -/
theorem push_spec {ls : ℕ → List ℕ} (h : FreeLists cfg s ls) (ha : CollectionInPages.PageMapped s.w.calls a)
    (hout : ∀ j ≤ cfg.max_pages, a ∉ ls j) (hk : getPageCount s.w.mem a = k) (h0 : 0 < k) (hlt : k < 4096) :
    Act.wp (do
        let pages ← loadPageCount a
        storePrevFree a 0
        pushFree cfg (listOf cfg pages) a)
      (fun _ t => FreeLists cfg t (setList ls (listOf cfg k) (a :: ls (listOf cfg k))) ∧
        Edits (fun x => FreeWord cfg ls x ∨ LinkWord a x) s t) (fun _ => False) s := by
  rw [Act.wp_bind, loadPageCount, wp_field, hk, Act.wp_bind, storePrevFree, Act.wp_storeWord]
  refine ⟨ha.word (k := 0) (by omega), ha.word (by omega), ?_⟩
  have hL : FreeLists cfg ⟨⟨s.w.calls, store s.w.mem (a + 16) 0, s.w.assertsHold⟩, s.c⟩ ls := by
    refine h.congr (fun _ _ _ _ _ _ => rfl) (fun _ _ => rfl) ?_
    intro x hx
    obtain ⟨i, hi, b, hb, hw⟩ := hx
    refine store_ne fun he => hout i hi ?_
    have hbm := h.mapped i hi b hb
    rcases hw with rfl | rfl
    · exact ((FreeLists.link_eq hbm ha (by omega) (by omega)).mp he).1 ▸ hb
    · exact ((FreeLists.link_eq hbm ha (by omega) (by omega)).mp he).1 ▸ hb
  refine Act.wp_mono (pushFree_spec hL (listOf_le h0 hlt) ha hout (store_self _ _ _)) ?_ fun _ ht => ht
  rintro - t ⟨hLt, hE⟩
  refine ⟨hLt, hE.calls, hE.base, hE.blocks, fun x hx => (hE.mem x hx).trans ?_⟩
  exact store_ne fun he => hx (Or.inr (Or.inl he))

/-- A chunk the client holds is on no list. -/
theorem BulkInv.live_not_listed (h : BulkInv cfg s g live) (ha : a ∈ live.map Prod.fst) :
    ∀ j ≤ cfg.max_pages, a ∉ g.lists j := fun j hj hal => by
  obtain ⟨k, -, -, hout⟩ := (h.free j hj a).mp hal
  exact hout ha

/-- The chunk of a request that the client holds. -/
theorem BulkInv.live_chunk (h : BulkInv cfg s g live) (hp : (p, sz) ∈ live) (hk : pageCountOf sz ≤ cfg.max_pages) :
    ∃ b ∈ g.blocks, ∃ l c r, g.chunks b = l ++ c :: r ∧ c.addr = p ∧ c.pages = pageCountOf sz := by
  obtain ⟨b, hb, c, hc, hca, hcp⟩ := h.small (p, sz) hp hk
  obtain ⟨l, r, hl⟩ := List.append_of_mem hc
  exact ⟨b, hb, l, c, r, hl, hca, hcp⟩

/-- The chunk was given back and put on its list. -/
theorem BulkInv.put (h : BulkInv cfg s g live) (hp : (p, sz) ∈ live)
    (hk : pageCountOf sz ≤ cfg.max_pages)
    (hL : FreeLists cfg t (g.put (listOf cfg (pageCountOf sz)) p).lists)
    (hE : Edits (fun x => FreeWord cfg g.lists x ∨ LinkWord p x) s t) :
    BulkInv cfg t (g.put (listOf cfg (pageCountOf sz)) p) (release p live) := by
  obtain ⟨b, hb, l, c, r, hl, rfl, hcp⟩ := h.live_chunk hp hk
  have hc : c ∈ g.chunks b := by
    rw [hl]
    simp
  have hc4 := ((h.block b hb).chunk hc).2.2.2
  have hchunk : g.IsChunk c.addr (pageCountOf sz) := ⟨b, hb, c, hc, rfl, hcp⟩
  have hwords : ∀ x, x % 4096 < 16 → t.w.mem x = s.w.mem x := fun x hx => hE.header_push h.lists hc4 hx
  refine h.reassemble hE ?_ rfl (fun b' hb' => ?_) h.shape hL (fun i hi x => ?_) (large_release h.nodup hp hk)
    (fun e he => h.sizes e ((mem_release h.nodup).mp he).1)
    (fun e he hs => h.small e ((mem_release h.nodup).mp he).1 hs) ?_
  · rintro x (hw | hw)
    · exact (h.freeWord_within hw).2
    · refine ⟨b, hb, ?_⟩
      rcases hw with rfl | rfl
      · exact h.chunk_within hb hc (h.chunk_start hb hc (by omega))
      · exact h.chunk_within hb hc (h.chunk_start hb hc (by omega))
  · refine (h.block b' hb').congr (fun x _ => by rw [hE.calls]) fun d hd => ?_
    have hd4 := ((h.block b' hb').chunk hd).2.2.2
    exact ⟨hwords _ (by omega), hwords _ (by omega)⟩
  · show x ∈ setList g.lists _ _ i ↔ _
    rw [mem_setList_cons, h.free i hi x]
    simp only [mem_release_map h.nodup, not_and, not_not]
    constructor
    · rintro (⟨k, h1, h2, h3⟩ | ⟨rfl, rfl⟩)
      · exact ⟨k, h1, h2, fun hx => absurd hx h3⟩
      · exact ⟨_, hchunk, rfl, fun _ => rfl⟩
    · intro hx
      obtain ⟨k, h1, h2, h3⟩ := hx
      by_cases hx : x ∈ live.map Prod.fst
      · have hxc := h3 hx
        obtain ⟨b', hb', d, hd, hdx, rfl⟩ := h1
        obtain ⟨-, rfl⟩ := h.addr_unique hb' hb hd hc (hdx.trans hxc)
        rw [hcp] at h2
        exact Or.inr ⟨h2.symm, hxc⟩
      · exact Or.inl ⟨k, h1, h2, hx⟩
  · rw [release_map]
    exact h.nodup.erase _

/-- The chunks `c` and `d`, the last of `b` after `l`, become one, on its list. -/
def BulkGhost.merge (cfg : BulkCfg) (g : BulkGhost) (b : ℕ) (l : List Chunk) (c d : Chunk) : BulkGhost :=
  ((g.take (listOf cfg d.pages) d.addr).rechunk b (l ++ [⟨c.addr, c.pages + d.pages, true⟩])).put
    (listOf cfg (c.pages + d.pages)) c.addr

theorem BulkGhost.merge_chunks (g : BulkGhost) : (merge cfg g b l c d).chunks =
    g.setChunks b (l ++ [⟨c.addr, c.pages + d.pages, true⟩]) := rfl

/-- The words that a merge and the push after it write. -/
def MergedWord (cfg : BulkCfg) (g : BulkGhost) (c : Chunk) (x : ℕ) : Prop :=
  MergeWord cfg g c x ∨ LinkWord c.addr x

/-- The chunk was given back, merged with the last of its block and put on a
list. -/
theorem BulkInv.merged (h : BulkInv cfg s g live) (hb : b ∈ g.blocks)
    (hl : g.chunks b = l ++ [c, d]) (hd : d.addr ∉ live.map Prod.fst) (hp : (c.addr, sz) ∈ live)
    (hk : pageCountOf sz ≤ cfg.max_pages) (hcfg : Fits cfg)
    (hE : Edits (MergedWord cfg g c) s t) (h0 : t.w.mem c.addr = lastAddr 0 l + (c.pages + d.pages))
    (h8 : t.w.mem (c.addr + 8) = 1) (hL : FreeLists cfg t (BulkGhost.merge cfg g b l c d).lists) :
    BulkInv cfg t (BulkGhost.merge cfg g b l c d) (release c.addr live) := by
  have hB := h.block b hb
  have hc : c ∈ g.chunks b := by
    rw [hl]
    simp
  have hdc : d ∈ g.chunks b := by
    rw [hl]
    simp
  have hc4 := (hB.chunk hc).2.2.2
  have hmem : c.addr ∈ live.map Prod.fst := List.mem_map_of_mem hp
  have hd0 := (hB.chunk hdc).2.2.1
  have hdl := hB.pages_le hdc
  have hcp := hcfg.pages_lt
  have hi' : listOf cfg d.pages ≤ cfg.max_pages := listOf_le hd0 (by omega)
  have hal : d.addr ∈ g.lists (listOf cfg d.pages) :=
    (h.free _ hi' d.addr).mpr ⟨d.pages, ⟨b, hb, d, hdc, rfl, rfl⟩, rfl, hd⟩
  have hrep := fun x k => h.isChunk_replace (x := x) (k := k) hb hl
    (show (BulkGhost.merge cfg g b l c d).blocks = g.blocks from rfl) rfl
  have hwords : ∀ x, x % 4096 < 16 → x ≠ c.addr → x ≠ c.addr + 8 → t.w.mem x = s.w.mem x := fun x hx h1 h2 => by
    apply hE.mem
    rintro ((hw | hw | hw) | hw)
    · have := (h.freeWord_within hw).1
      omega
    · exact h1 hw
    · exact h2 hw
    · unfold LinkWord at hw
      omega
  have hin : ∀ x, MergedWord cfg g c x → FreeWord cfg g.lists x ∨ c.addr ≤ x ∧ x < c.stop := by
    have := h.chunk_start hb hc (k := 24) (by omega)
    rintro x ((hw | rfl | rfl) | rfl | rfl)
    · exact Or.inl hw
    all_goals exact Or.inr ⟨by omega, by omega⟩
  refine h.reassemble hE ?_ rfl (fun b' hb' => ?_) (fun b' hb' => ?_) hL (fun i hi x => ?_)
    (large_release h.nodup hp hk) (fun e he => h.sizes e ((mem_release h.nodup).mp he).1) (fun e he hs => ?_) ?_
  · intro x hx
    rcases hin x hx with hw | hw
    · exact (h.freeWord_within hw).2
    · exact ⟨b, hb, h.chunk_within hb hc hw⟩
  · by_cases hbb : b' = b
    · subst hbb
      rw [BulkGhost.merge_chunks, BulkGhost.setChunks_self]
      rw [hl] at hB
      exact hB.merge_last hE.calls hwords h0 h8
    · rw [BulkGhost.merge_chunks, BulkGhost.setChunks_ne hbb]
      refine (h.block b' hb').congr (fun x _ => by rw [hE.calls]) fun e he => ?_
      have he4 := ((h.block b' hb').chunk he).2.2.2
      have hne : e.addr ≠ c.addr := fun hec => hbb (h.addr_unique hb' hb he hc hec).1
      exact ⟨hwords _ (by omega) hne (by omega), hwords _ (by omega) (by omega) (by omega)⟩
  · by_cases hbb : b' = b
    · subst hbb
      rw [BulkGhost.merge_chunks, BulkGhost.setChunks_self]
      obtain ⟨l', d', hl', -, hsmall⟩ := h.shape b' hb'
      rw [hl, List.append_cons] at hl'
      obtain ⟨rfl, -⟩ := List.append_inj' hl' rfl
      exact ⟨l, _, rfl, rfl, fun e he => hsmall e (List.mem_append_left [c] he)⟩
    · rw [BulkGhost.merge_chunks, BulkGhost.setChunks_ne hbb]
      exact h.shape b' hb'
  · show x ∈ setList (setList g.lists _ _) _ (_ :: setList g.lists _ _ _) i ↔ _
    rw [mem_setList_cons, h.lists.mem_erase hi' hal hi, h.free i hi x]
    simp only [hrep, mem_release_map h.nodup, List.mem_cons, List.not_mem_nil, or_false, forall_eq_or_imp,
      forall_eq, exists_eq_left, not_and, not_not]
    constructor
    · rintro (⟨⟨k, h1, h2, h3⟩, h4⟩ | ⟨rfl, rfl⟩)
      · exact ⟨k, Or.inl ⟨h1, fun hx : x = c.addr => h3 (hx ▸ hmem), h4⟩, h2, fun hx => absurd hx h3⟩
      · exact ⟨_, Or.inr ⟨rfl, rfl⟩, rfl, fun _ => rfl⟩
    · rintro ⟨k, ⟨h1, hxc, h4⟩ | ⟨rfl, rfl⟩, h2, h3⟩
      · exact Or.inl ⟨⟨k, h1, h2, fun hx => hxc (h3 hx)⟩, h4⟩
      · exact Or.inr ⟨h2.symm, rfl⟩
  · obtain ⟨he, hne⟩ := (mem_release h.nodup).mp he
    rw [hrep]
    refine Or.inl ⟨h.small e he hs, fun d' hd' hed => ?_⟩
    rcases List.mem_cons.mp hd' with rfl | hd'
    · exact hne hed
    · rw [List.mem_singleton.mp hd'] at hed
      exact hd (hed ▸ List.mem_map_of_mem he)
  · rw [release_map]
    exact h.nodup.erase _

/-! ### A region given back -/

theorem perm_release (hn : (live.map Prod.fst).Nodup) (hp : (p, sz) ∈ live) :
    live.Perm ((p, sz) :: release p live) := by
  unfold release
  induction live with
  | nil => cases hp
  | cons e live ih =>
    rw [List.map_cons, List.nodup_cons] at hn
    rcases List.mem_cons.mp hp with rfl | hp
    · rw [List.eraseP_cons_of_pos (by simp)]
    · have he : e.1 ≠ p := fun he => hn.1 (he ▸ List.mem_map_of_mem hp)
      rw [List.eraseP_cons_of_neg (by simpa using he)]
      exact ((ih hn.2 hp).cons e).trans (List.Perm.swap _ _ _)

theorem regions_release (hn : (live.map Prod.fst).Nodup) (hp : (p, sz) ∈ live) (hk : cfg.max_pages < pageCountOf sz) :
    (g.regions cfg live).Perm ((p, chunkBytes sz) :: g.regions cfg (release p live)) := by
  refine List.Perm.trans ?_ (regions_large hk)
  unfold BulkGhost.regions BulkGhost.large
  exact List.Perm.append_left _ (List.Perm.append_left _ (((perm_release hn hp).filter _).map _))

/-- A region is no chunk of a block. -/
theorem BulkInv.large_not_chunk (h : BulkInv cfg s g live) (hp : (p, sz) ∈ live) (hk : cfg.max_pages < pageCountOf sz) :
    ¬ g.IsChunk p k := by
  intro hx
  obtain ⟨b, hb, c, hc, hca, -⟩ := hx
  have hpw := h.chunk_within hb hc (h.chunk_start hb hc (k := 0) (by omega))
  rw [Nat.add_zero, hca] at hpw
  exact h.large_not_block hp hk hb (h.large_header hp (k := 0) (by omega)) hpw

/-- The region is unmapped. -/
theorem BulkInv.released (h : BulkInv cfg s g live) (hp : (p, sz) ∈ live) (hk : cfg.max_pages < pageCountOf sz)
    (hw : t.w = s.w.released p (chunkBytes sz)) (hc : t.c = { s.c with base := t.c.base }) (hidle : t.c.base.Idle) :
    BulkInv cfg t g (release p live) ∧ BulkStep cfg g live g (release p live) s.w t.w := by
  have hperm := regions_release (g := g) h.nodup hp hk
  have hapart := List.pairwise_cons.mp (hperm.pairwise h.apart fun hab => Std.Symm.symm _ _ hab)
  have hsub : ∀ x, g.Owned cfg (release p live) x → g.Owned cfg live x := by
    intro x hx
    obtain ⟨r, hr, hx⟩ := hx
    exact ⟨r, hperm.mem_iff.mpr (List.mem_cons_of_mem _ hr), hx⟩
  have h' : BulkInv cfg s g (release p live) := by
    refine
      { h with
        free := fun i hi a => ?_, sizes := fun e he => h.sizes e ((mem_release h.nodup).mp he).1
        small := fun e he hl => h.small e ((mem_release h.nodup).mp he).1 hl
        large := fun e he hl => h.large e ((mem_release h.nodup).mp he).1 hl
        nodup := ?_, apart := hapart.2, mapped := fun x hx => h.mapped x (hsub x hx) }
    · rw [h.free i hi a]
      refine exists_congr fun k' => and_congr_right fun ha => and_congr_right fun _ => ?_
      rw [mem_release_map h.nodup, not_and, not_not]
      exact ⟨fun hn hl => absurd hl hn, fun hn hl => h.large_not_chunk hp hk (hn hl ▸ ha)⟩
    · rw [release_map]
      exact h.nodup.erase _
  refine ⟨h'.unchanged hc hidle ?_, ?_, fun x hx => Or.inl (hsub x hx), fun x hx => ?_⟩
  · rw [hw]
    refine Unchanged.released fun x hx hx' => ?_
    obtain ⟨r, hr, hx⟩ := hx
    exact hapart.1 r hr x hx' hx
  · rw [hw]
    exact Unchanged.released fun x hx hx' => hx.2 ⟨_, BulkInv.large_region hp hk, hx'⟩
  · rw [hw] at hx
    simp only [World.released, Mapped, pageState] at hx
    split_ifs at hx with hin
    · exact absurd rfl hx
    · refine or_iff_not_imp_left.mpr fun ho => ⟨hx, fun hown => ho ?_⟩
      obtain ⟨r, hr, hxr⟩ := hown
      rcases List.mem_cons.mp (hperm.mem_iff.mp hr) with rfl | hr
      · exact absurd hxr hin
      · exact ⟨r, hr, hxr⟩

/-! ### deallocate -/

/-- What became of the chunks where `deallocate` was called with `p`, a chunk
of `k` pages. -/
inductive Deallocated (cfg : BulkCfg) (g : BulkGhost) (live : List (ℕ × ℕ)) (p k : ℕ) (g' : BulkGhost) : Prop where
  /-- it was put on its list -/
  | kept (hk : k ≤ cfg.max_pages) (b : ℕ) (l : List Chunk) (c : Chunk) (r : List Chunk) (hb : b ∈ g.blocks)
    (hl : g.chunks b = l ++ c :: r) (hp : c.addr = p) (hr : ∀ d ∈ r.head?, d.flag = false)
    (hg : g' = g.put (listOf cfg k) p)
  /-- it was merged with the last chunk of its block first -/
  | merged (hk : k ≤ cfg.max_pages) (b : ℕ) (l : List Chunk) (c d : Chunk) (hb : b ∈ g.blocks)
    (hl : g.chunks b = l ++ [c, d]) (hp : c.addr = p) (hd : d.flag = true) (hfree : d.addr ∉ live.map Prod.fst)
    (hg : g' = g.merge cfg b l c d)
  /-- it was a region -/
  | large (hk : cfg.max_pages < k) (hg : g' = g)

/-- The header of a region: no pages, and its size where a chunk has `prevInBlock`. -/
theorem BulkInv.large_read (h : BulkInv cfg s g live) (hp : (p, sz) ∈ live) (hk : cfg.max_pages < pageCountOf sz) :
    getPageCount s.w.mem p = 0 ∧ prevInBlock s.w.mem p = chunkBytes sz := by
  obtain ⟨-, h0, -⟩ := h.large _ hp hk
  have hdvd : 4096 ∣ chunkBytes sz := ⟨(sz + 4095) / 4096, Nat.mul_comm _ _⟩
  have hlt : chunkBytes sz < 2 ^ 64 := by
    have := (h.sizes _ hp).2
    unfold chunkBytes
    omega
  unfold getPageCount prevInBlock
  rw [h0, and_page_mask, and_not_page_mask hlt, Nat.mod_eq_zero_of_dvd hdvd]
  exact ⟨rfl, Nat.sub_zero _⟩

theorem deallocate_large (h : BulkInv cfg s g live) (hp : (p, sz) ∈ live) (hk : cfg.max_pages < pageCountOf sz) :
    Act.wp (deallocate cfg p)
      (fun _ t => BulkInv cfg t g (release p live) ∧ BulkStep cfg g live g (release p live) s.w t.w ∧
        t.w.mem = s.w.mem)
      (fun _ => False) s := by
  obtain ⟨hcount, hsize⟩ := h.large_read hp hk
  have hm : ∀ {k}, k < 4096 → pageState s.w.calls (p + k) = .committed := fun hk' =>
    h.mapped _ ⟨_, BulkInv.large_region hp hk, h.large_header hp hk'⟩
  have hdvd : 4096 ∣ chunkBytes sz := ⟨(sz + 4095) / 4096, Nat.mul_comm _ _⟩
  unfold deallocate
  rw [Act.wp_bind, loadPageCount, wp_field, hcount, if_neg (by simp), Act.wp_bind, loadPrevInBlock, wp_field, hsize,
    super, Act.wp_onPart]
  refine ⟨hm (k := 0) (by omega), hm (k := 0) (by omega), ?_⟩
  refine Act.wp_mono (PageAllocatorWithCaching.freeChunkNoCache_spec (s := ⟨s.w, s.c.base⟩) h.idle p hdvd) ?_
    fun _ ht => ht
  rintro - t ⟨hw, hidle⟩
  obtain ⟨hI, hS⟩ := h.released (t := ⟨t.w, { s.c with base := t.c }⟩) hp hk hw rfl hidle
  refine ⟨hI, hS, ?_⟩
  rw [hw]
  rfl

/-- No chunk is merged on the left: what is left to do for a chunk begins with the
merge on the right. -/
theorem deallocate_right (h : BulkInv cfg s g live) (hcfg : Fits cfg) (hb : b ∈ g.blocks)
    (hl : g.chunks b = l ++ c :: r) {Q : Unit → St BulkAllocator → Prop} {E : St BulkAllocator → Prop}
    (hrest : Act.wp (do
        mergeRight cfg c.addr
        let pages ← loadPageCount c.addr
        storePrevFree c.addr 0
        pushFree cfg (listOf cfg pages) c.addr)
      Q E ⟨{ s.w with assertsHold := s.w.assertsHold && decide (c.pages ≤ cfg.max_pages) }, s.c⟩) :
    Act.wp (deallocate cfg c.addr) Q E s := by
  have hB := h.block b hb
  rw [hl] at hB
  have hm := hB.pageMapped (c := c) (by simp)
  have hc0 := (hB.chunk (c := c) (by simp)).2.2.1
  obtain ⟨-, hpages, -, -⟩ := hB.read hcfg
  have hI := h.asserted (s.w.assertsHold && decide (c.pages ≤ cfg.max_pages))
  unfold deallocate
  rw [Act.wp_bind, loadPageCount, wp_field, hpages, if_pos (by omega), Act.wp_bind, Act.wp_assert, Act.wp_bind]
  refine ⟨hm.word (k := 0) (by omega), Act.wp_mono (mergeLeft_spec hI hcfg hb hl) ?_ fun _ ht => ht.elim⟩
  intro _ _ hx
  obtain ⟨rfl, rfl⟩ := hx
  exact hrest

/-- Where no neighbour is flagged. -/
theorem deallocate_kept (h : BulkInv cfg s g live) (hcfg : Fits cfg) (hp : (c.addr, sz) ∈ live)
    (hk : pageCountOf sz ≤ cfg.max_pages) (hb : b ∈ g.blocks) (hl : g.chunks b = l ++ c :: r)
    (hcp : c.pages = pageCountOf sz) (hr : ∀ d ∈ r.head?, d.flag = false) :
    Act.wp (deallocate cfg c.addr)
      (fun _ t => BulkInv cfg t (g.put (listOf cfg (pageCountOf sz)) c.addr) (release c.addr live) ∧
        Edits (fun x => FreeWord cfg g.lists x ∨ LinkWord c.addr x) s t) (fun _ => False) s := by
  have hB := h.block b hb
  rw [hl] at hB
  have hm := hB.pageMapped (c := c) (by simp)
  have hc0 := (hB.chunk (c := c) (by simp)).2.2.1
  have hpl := hB.pages_le (c := c) (by simp)
  have hlt := hcfg.pages_lt
  obtain ⟨-, hpages, -, -⟩ := hB.read hcfg
  have hI := h.asserted (s.w.assertsHold && decide (c.pages ≤ cfg.max_pages))
  refine deallocate_right h hcfg hb hl ?_
  rw [Act.wp_bind]
  refine Act.wp_mono (mergeRight_spec hI hcfg hb hl hr) ?_ fun _ ht => ht
  rintro - _ rfl
  refine Act.wp_mono (push_spec hI.lists hm (h.live_not_listed (List.mem_map_of_mem hp)) hpages hc0 (by omega)) ?_
    fun _ ht => ht
  rintro - t ⟨hL, hE'⟩
  have hE : Edits (fun x => FreeWord cfg g.lists x ∨ LinkWord c.addr x) s t :=
    ⟨hE'.calls, hE'.base, hE'.blocks, hE'.mem⟩
  rw [hcp] at hL
  exact ⟨h.put hp hk hL hE, hE⟩

/-- Where the last chunk of the block is next. -/
theorem deallocate_merged (h : BulkInv cfg s g live) (hcfg : Fits cfg) (hp : (c.addr, sz) ∈ live)
    (hk : pageCountOf sz ≤ cfg.max_pages) (hb : b ∈ g.blocks) (hl : g.chunks b = l ++ [c, d])
    (hd : d.flag = true) (hfree : d.addr ∉ live.map Prod.fst) :
    Act.wp (deallocate cfg c.addr)
      (fun _ t => BulkInv cfg t (g.merge cfg b l c d) (release c.addr live) ∧ Edits (MergedWord cfg g c) s t)
      (fun _ => False) s := by
  have hB := h.block b hb
  rw [hl] at hB
  have hm := hB.pageMapped (c := c) (by simp)
  have hdl := hB.pages_le (c := d) (by simp)
  have hlt := hcfg.pages_lt
  have hI := h.asserted (s.w.assertsHold && decide (c.pages ≤ cfg.max_pages))
  refine deallocate_right h hcfg hb hl ?_
  rw [Act.wp_bind]
  refine Act.wp_mono (mergeRight_last hI hcfg hb hl hd hfree) ?_ fun _ ht => ht
  rintro - u hu
  have hmu : CollectionInPages.PageMapped u.w.calls c.addr := by rwa [hu.edits.calls]
  have hdc : d ∈ g.chunks b := by
    rw [hl]
    simp
  have hd0 := (hB.chunk (c := d) (by simp)).2.2.1
  have hi' : listOf cfg d.pages ≤ cfg.max_pages := listOf_le hd0 (by omega)
  have hal : d.addr ∈ g.lists (listOf cfg d.pages) :=
    (h.free _ hi' d.addr).mpr ⟨d.pages, ⟨b, hb, d, hdc, rfl, rfl⟩, rfl, hfree⟩
  have hsum : c.pages + d.pages ≤ cfg.pagesPerAllocatedBlock := h.merged_pages hb hl
  have hpagesu : getPageCount u.w.mem c.addr = c.pages + d.pages := by
    unfold getPageCount
    have := hB.lastAddr_aligned.1
    rw [hu.prev, and_page_mask, u16_of_lt (by omega)]
    omega
  have hout : ∀ j ≤ cfg.max_pages, c.addr ∉ (g.take (listOf cfg d.pages) d.addr).lists j := fun j hj hx =>
    h.live_not_listed (List.mem_map_of_mem hp) j hj ((h.lists.mem_erase hi' hal hj).mp hx).1
  refine Act.wp_mono (push_spec hu.lists hmu hout hpagesu (by omega) (by omega)) ?_ fun _ ht => ht
  rintro - t ⟨hL, hE'⟩
  have hsub : ∀ x, FreeWord cfg (g.take (listOf cfg d.pages) d.addr).lists x → FreeWord cfg g.lists x := by
    intro x hx
    obtain ⟨i, hi, a, ha, hw⟩ := hx
    exact ⟨i, hi, a, ((h.lists.mem_erase hi' hal hi).mp ha).1, hw⟩
  have hE : Edits (MergedWord cfg g c) s t := by
    have h1 : Edits (MergeWord cfg g c) s u := ⟨hu.edits.calls, hu.edits.base, hu.edits.blocks, hu.edits.mem⟩
    refine (h1.mono fun x hx => Or.inl hx).trans (hE'.mono fun x hx => ?_)
    exact hx.imp (fun hw => Or.inl (hsub x hw)) id
  have hkeep : ∀ x, x % 4096 < 16 → t.w.mem x = u.w.mem x := fun x hx => by
    apply hE'.mem
    have hc4 := hm.aligned
    rintro (hw | hw)
    · have := (h.freeWord_within (hsub x hw)).1
      omega
    · unfold LinkWord at hw
      omega
  have hc4 := hm.aligned
  exact ⟨h.merged hb hl hfree hp hk hcfg hE ((hkeep _ (by omega)).trans hu.prev)
    ((hkeep _ (by omega)).trans hu.next) hL, hE⟩

/-- `deallocate` of a chunk that the client holds keeps the invariant, where it
merges with no chunk that is live, and writes in the chunk itself and links. -/
theorem deallocate_step (h : BulkInv cfg s g live) (hcfg : Fits cfg) (hp : (p, sz) ∈ live)
    (hm : ¬ MergesLive s.w.mem live p) :
    Act.wp (deallocate cfg p)
      (fun _ t => ∃ g', BulkInv cfg t g' (release p live) ∧ BulkStep cfg g live g' (release p live) s.w t.w ∧
        Deallocated cfg g live p (pageCountOf sz) g' ∧
        ∀ x, ¬ FreeWord cfg g.lists x → (∀ k < 32, x ≠ p + k) → t.w.mem x = s.w.mem x) (fun _ => False) s := by
  by_cases hk : cfg.max_pages < pageCountOf sz
  · refine Act.wp_mono (deallocate_large h hp hk) ?_ fun _ ht => ht
    rintro - t ⟨hI, hS, hmem⟩
    exact ⟨g, hI, hS, .large hk rfl, fun x _ _ => congrFun hmem x⟩
  have hk : pageCountOf sz ≤ cfg.max_pages := by omega
  have hreg : ∀ {g' : BulkGhost}, g'.pages = g.pages → g'.blocks = g.blocks →
      ∀ x, g'.Owned cfg (release p live) x ↔ g.Owned cfg live x :=
    fun h1 h2 _ => BulkGhost.owned_iff h1 h2 (large_release h.nodup hp hk)
  have hfw : ∀ x, FreeWord cfg g.lists x → g.Owned cfg live x := fun x hx => by
    obtain ⟨-, b, hb, hw⟩ := h.freeWord_within hx
    exact BulkInv.block_owned hb hw
  obtain ⟨b, hb, l, c, r, hl, rfl, hcp⟩ := h.live_chunk hp hk
  have hc : c ∈ g.chunks b := by
    rw [hl]
    simp
  have hself : ∀ {u}, u < 4096 → g.Owned cfg live (c.addr + u) := fun hu =>
    BulkInv.block_owned hb (h.chunk_within hb hc (h.chunk_start hb hc hu))
  by_cases hr : ∀ d ∈ r.head?, d.flag = false
  · refine Act.wp_mono (deallocate_kept h hcfg hp hk hb hl hcp hr) ?_ fun _ ht => ht
    rintro - t ⟨hI, hE⟩
    refine ⟨_, hI, BulkStep.of_edits hE ?_ (hreg rfl rfl), .kept hk b l c r hb hl rfl hr rfl, fun x hf hx => ?_⟩
    swap
    · apply hE.mem
      rintro (hw | hw | hw)
      · exact hf hw
      · exact hx 16 (by omega) hw
      · exact hx 24 (by omega) hw
    rintro x (hw | rfl | rfl)
    · exact hfw x hw
    · exact hself (by omega)
    · exact hself (by omega)
  -- the flagged chunk is the last, and the client does not hold it
  cases r with
  | nil => exact absurd (fun d hd => by cases hd) hr
  | cons d r =>
    have hd : d.flag = true := by simpa using hr
    have hS := h.shape b hb
    have hB := h.block b hb
    rw [hl] at hB
    rw [hl, List.append_cons] at hS
    obtain rfl : r = [] := hS.last hd
    have hmd := hB.pageMapped (c := d) (by simp)
    have hc0 := (hB.chunk (c := c) (by simp)).2.2.1
    obtain ⟨-, hpages, hnext, -⟩ := hB.read hcfg
    rw [List.append_cons] at hB
    obtain ⟨-, -, -, hflag⟩ := hB.read hcfg
    have hfree : d.addr ∉ live.map Prod.fst := fun hdl => hm (by
      unfold MergesLive
      rw [hnext, hpages]
      exact ⟨by omega, hmd.pos.ne', hflag.trans hd, hdl⟩)
    refine Act.wp_mono (deallocate_merged h hcfg hp hk hb hl hd hfree) ?_ fun _ ht => ht
    rintro - t ⟨hI, hE⟩
    refine ⟨_, hI, BulkStep.of_edits hE ?_ (hreg rfl rfl), .merged hk b l c d hb hl rfl hd hfree rfl,
      fun x hf hx => ?_⟩
    swap
    · apply hE.mem
      rintro ((hw | hw | hw) | hw | hw)
      · exact hf hw
      · exact hx 0 (by omega) hw
      · exact hx 8 (by omega) hw
      · exact hx 16 (by omega) hw
      · exact hx 24 (by omega) hw
    rintro x ((hw | rfl | rfl) | rfl | rfl)
    · exact hfw x hw
    · exact hself (u := 0) (by omega)
    all_goals exact hself (by omega)

theorem deallocate_spec (h : BulkInv cfg s g live) (hcfg : Fits cfg) (hp : (p, sz) ∈ live)
    (hm : ¬ MergesLive s.w.mem live p) :
    Act.wp (deallocate cfg p)
      (fun _ t => ∃ g', BulkInv cfg t g' (release p live) ∧ BulkStep cfg g live g' (release p live) s.w t.w ∧
        Deallocated cfg g live p (pageCountOf sz) g') (fun _ => False) s :=
  Act.wp_mono (deallocate_step h hcfg hp hm) (fun _ _ ht => ht.imp fun _ ht => ⟨ht.1, ht.2.1, ht.2.2.1⟩)
    fun _ hf => hf

end BulkAllocator

end IibMalloc

/-
# BulkAllocator: the invariant

`BulkInv` ties the blocks, the free lists and the chunks the client holds:
every block is a list of chunks (`BlockInv`), a chunk is on the list of its
page count exactly when the client does not hold it, and the regions obtained
from the operating system do not overlap.

The flag `isFree` says less than its name. A chunk cut off is not flagged and
`deallocate` flags it only when it merges, so the one flagged chunk of a block
is its last (`LastFree`), live or not; what `BulkInv` says of `deallocate`
needs that a chunk merged is not live.

`BulkInv.reassemble` puts the invariant together again after words of the
blocks were edited, and `BulkInv.transport` after words outside were.
-/
import IibMalloc.BulkLists
import IibMalloc.BulkBlock

namespace IibMalloc

open Lib AnyChunkHeader

namespace BulkAllocator

/-! ### Sizes and lists -/

/-- The bytes of the pages of a request. -/
def chunkBytes (sz : ℕ) : ℕ := (sz + 4095) / 4096 * 4096

variable {cfg : BulkCfg} {sz k a : ℕ}

theorem le_chunkBytes (sz : ℕ) : sz ≤ chunkBytes sz := by
  unfold chunkBytes
  omega

/-- Below `2 ^ 64 - 4096` no request rounds up to nothing. -/
theorem pageCountOf_bytes (h0 : 0 < sz) (hsz : sz ≤ 2 ^ 64 - 4096) :
    0 < pageCountOf sz ∧ u64 (pageCountOf sz <<< PAGE_SIZE_EXP) = chunkBytes sz ∧
      (pageCountOf sz < 4096 → chunkBytes sz = pageCountOf sz * 4096) := by
  have hlt : sz < 2 ^ 64 := by omega
  unfold pageCountOf chunkBytes u64
  rw [ceilShift_toNat h0 hlt, PAGE_SIZE_EXP_eq, Nat.shiftLeft_eq]
  split_ifs <;> omega

/-- A request that is empty, or of more, rounds up to nothing. -/
theorem pageCountOf_zero (hlt : sz < 2 ^ 64) (h : ¬ (0 < sz ∧ sz ≤ 2 ^ 64 - 4096)) : pageCountOf sz = 0 := by
  rcases Nat.eq_zero_or_pos sz with rfl | hpos
  · decide
  · unfold pageCountOf
    rw [ceilShift_toNat hpos hlt]
    split_ifs <;> omega

theorem listOf_eq (h0 : 0 < k) (hk : k < 4096) :
    listOf cfg k = if cfg.max_pages < k then cfg.max_pages else k - 1 := by
  have h1 : u16 (k + (2 ^ 16 - 1)) = k - 1 := by
    unfold u16
    omega
  unfold listOf
  rw [h1]
  split_ifs <;> omega

theorem listOf_le (h0 : 0 < k) (hk : k < 4096) : listOf cfg k ≤ cfg.max_pages := by
  rw [listOf_eq h0 hk]
  split_ifs <;> omega

/-! ### The invariant -/

/-- The state behind the allocator's memory: the pages, the items in use and
the free items of the collection; the blocks; the chunks of each block; the
chunks on each list. -/
structure BulkGhost where
  pages : List ℕ
  used : List ℕ
  free : List ℕ
  blocks : List ℕ
  chunks : ℕ → List Chunk
  lists : ℕ → List ℕ

namespace BulkGhost

def empty : BulkGhost := ⟨[], [], [], [], fun _ => [], fun _ => []⟩

/-- A chunk of a block starts at `a` and has `k` pages. -/
def IsChunk (g : BulkGhost) (a k : ℕ) : Prop := ∃ b ∈ g.blocks, ∃ c ∈ g.chunks b, c.addr = a ∧ c.pages = k

/-- The chunks of the block `b` are `l`. -/
def setChunks (g : BulkGhost) (b : ℕ) (l : List Chunk) : ℕ → List Chunk := fun x =>
  if x = b then l else g.chunks x

@[simp] theorem setChunks_self (g : BulkGhost) (b : ℕ) (l : List Chunk) : g.setChunks b l b = l := if_pos rfl

theorem setChunks_ne {g : BulkGhost} {b x : ℕ} {l : List Chunk} (h : x ≠ b) :
    g.setChunks b l x = g.chunks x := if_neg h

/-- The requests of `live` that got a region of their own. -/
def large (cfg : BulkCfg) (live : List (ℕ × ℕ)) : List (ℕ × ℕ) :=
  live.filter fun e => cfg.max_pages < pageCountOf e.2

/-- The regions that the allocator and its client hold. -/
def regions (cfg : BulkCfg) (g : BulkGhost) (live : List (ℕ × ℕ)) : List (ℕ × ℕ) :=
  g.pages.map (fun p => (p, 4096)) ++ (g.blocks.map (fun b => (b, cfg.commited_block_size)) ++
    (large cfg live).map fun e => (e.1, chunkBytes e.2))

/-- An address in one of them. -/
def Owned (cfg : BulkCfg) (g : BulkGhost) (live : List (ℕ × ℕ)) (x : ℕ) : Prop :=
  ∃ r ∈ g.regions cfg live, Within r.1 r.2 x

theorem owned_iff {g g' : BulkGhost} {live live' : List (ℕ × ℕ)} {x : ℕ} (hp : g'.pages = g.pages)
    (hb : g'.blocks = g.blocks) (hl : large cfg live' = large cfg live) :
    g'.Owned cfg live' x ↔ g.Owned cfg live x := by
  unfold Owned regions
  rw [hp, hb, hl]

end BulkGhost

/-- A word that the invariant speaks of: of the header of a chunk, of a chunk on
a list, or of the header of a large region. -/
def BulkWord (cfg : BulkCfg) (g : BulkGhost) (live : List (ℕ × ℕ)) (x : ℕ) : Prop :=
  (∃ b ∈ g.blocks, ∃ c ∈ g.chunks b, x = c.addr ∨ x = c.addr + 8) ∨ FreeWord cfg g.lists x ∨
    ∃ e ∈ live, cfg.max_pages < pageCountOf e.2 ∧ (x = e.1 ∨ x = e.1 + 8)

/-- The last chunk is flagged and no other, and no other is larger than a
request. -/
def LastFree (cfg : BulkCfg) (l : List Chunk) : Prop :=
  ∃ l' c, l = l' ++ [c] ∧ c.flag = true ∧ ∀ d ∈ l', d.flag = false ∧ d.pages ≤ cfg.max_pages

/-- `live` lists what the client holds: the address and the size requested. -/
structure BulkInv (cfg : BulkCfg) (s : St BulkAllocator) (g : BulkGhost) (live : List (ℕ × ℕ)) : Prop where
  coll : CollectionInPages.CollInv blockItemSize s.w.calls s.c.blocks g.pages g.used g.free
  items : g.used.map (fun a => (s.c.blocks.heap a).item) = g.blocks
  idle : s.c.base.Idle
  block : ∀ b ∈ g.blocks, BlockInv cfg s.w b (g.chunks b)
  shape : ∀ b ∈ g.blocks, LastFree cfg (g.chunks b)
  lists : FreeLists cfg s g.lists
  free : ∀ i ≤ cfg.max_pages, ∀ a,
    a ∈ g.lists i ↔ ∃ k, g.IsChunk a k ∧ listOf cfg k = i ∧ a ∉ live.map Prod.fst
  sizes : ∀ e ∈ live, 0 < e.2 ∧ e.2 ≤ 2 ^ 64 - 4096
  small : ∀ e ∈ live, pageCountOf e.2 ≤ cfg.max_pages → g.IsChunk e.1 (pageCountOf e.2)
  large : ∀ e ∈ live, cfg.max_pages < pageCountOf e.2 →
    4096 ∣ e.1 ∧ s.w.mem e.1 = chunkBytes e.2 ∧ s.w.mem (e.1 + 8) = 0
  nodup : (live.map Prod.fst).Nodup
  apart : (g.regions cfg live).Pairwise Apart
  mapped : ∀ x, g.Owned cfg live x → pageState s.w.calls x = .committed

variable {s t : St BulkAllocator} {g : BulkGhost} {live live' : List (ℕ × ℕ)} {b b' x : ℕ} {c d : Chunk}

namespace BulkInv

/-! ### Where things lie -/

/-- The invariant of an allocator that holds nothing. -/
theorem of_empty (hcoll : CollectionInPages.CollInv blockItemSize s.w.calls s.c.blocks [] [] [])
    (hidle : s.c.base.Idle) (hbegin : ∀ i ≤ cfg.max_pages, s.c.freeListBegin i = 0) :
    BulkInv cfg s .empty [] := by
  refine
    { coll := hcoll, items := rfl, idle := hidle, block := by simp [BulkGhost.empty], shape := by simp [BulkGhost.empty]
      lists := ⟨hbegin, by simp [BulkGhost.empty], by simp [BulkGhost.empty]⟩, free := fun i _ a => ?_
      sizes := by simp, small := by simp, large := by simp, nodup := List.nodup_nil
      apart := List.Pairwise.nil, mapped := ?_ }
  · refine ⟨fun ha => absurd ha List.not_mem_nil, ?_⟩
    intro hx
    obtain ⟨k, ⟨b, hb, -⟩, -⟩ := hx
    cases hb
  · intro x hx
    obtain ⟨r, hr, -⟩ := hx
    cases hr

/-- Regions that meet are one. -/
theorem region_unique (h : BulkInv cfg s g live) {r r' : ℕ × ℕ} (hr : r ∈ g.regions cfg live)
    (hr' : r' ∈ g.regions cfg live) (hx : Within r.1 r.2 x) (hx' : Within r'.1 r'.2 x) : r = r' := by
  by_contra hne
  exact h.apart.forall hr hr' hne x hx hx'

theorem block_region (hb : b ∈ g.blocks) : (b, cfg.commited_block_size) ∈ g.regions cfg live :=
  List.mem_append_right _ (List.mem_append_left _ (List.mem_map_of_mem hb))

theorem large_region {e : ℕ × ℕ} (he : e ∈ live) (hlarge : cfg.max_pages < pageCountOf e.2) :
    (e.1, chunkBytes e.2) ∈ g.regions cfg live :=
  List.mem_append_right _ (List.mem_append_right _ (List.mem_map.mpr
    ⟨e, List.mem_filter.mpr ⟨he, decide_eq_true hlarge⟩, rfl⟩))

theorem block_unique (h : BulkInv cfg s g live) (hb : b ∈ g.blocks) (hb' : b' ∈ g.blocks)
    (hx : Within b cfg.commited_block_size x) (hx' : Within b' cfg.commited_block_size x) : b = b' :=
  congrArg Prod.fst (h.region_unique (block_region hb) (block_region hb') hx hx')

/-- An address of a chunk is one of its block. -/
theorem chunk_within (h : BulkInv cfg s g live) (hb : b ∈ g.blocks) (hc : c ∈ g.chunks b)
    (hx : c.addr ≤ x ∧ x < c.stop) : Within b cfg.commited_block_size x := by
  obtain ⟨h1, h2, -, -⟩ := (h.block b hb).chunk hc
  exact ⟨by omega, by omega⟩

theorem chunk_start (h : BulkInv cfg s g live) (hb : b ∈ g.blocks) (hc : c ∈ g.chunks b) {k : ℕ}
    (hk : k < 4096) : c.addr ≤ c.addr + k ∧ c.addr + k < c.stop := by
  obtain ⟨-, -, h3, -⟩ := (h.block b hb).chunk hc
  unfold Chunk.stop
  omega

/-- Chunks that meet are one. -/
theorem chunk_unique (h : BulkInv cfg s g live) (hb : b ∈ g.blocks) (hb' : b' ∈ g.blocks)
    (hc : c ∈ g.chunks b) (hd : d ∈ g.chunks b') (hx : c.addr ≤ x ∧ x < c.stop)
    (hx' : d.addr ≤ x ∧ x < d.stop) : b = b' ∧ c = d := by
  obtain rfl := h.block_unique hb hb' (h.chunk_within hb hc hx) (h.chunk_within hb' hd hx')
  exact ⟨rfl, (h.block b hb).tiled.unique hc hd hx hx'⟩

theorem addr_unique (h : BulkInv cfg s g live) (hb : b ∈ g.blocks) (hb' : b' ∈ g.blocks)
    (hc : c ∈ g.chunks b) (hd : d ∈ g.chunks b') (hcd : c.addr = d.addr) : b = b' ∧ c = d :=
  h.chunk_unique hb hb' hc hd (h.chunk_start hb hc (k := 0) (by omega)) (by
    have := h.chunk_start hb' hd (k := 0) (by omega)
    rwa [hcd])

/-- A chunk of a list. -/
theorem listed (h : BulkInv cfg s g live) {i : ℕ} (hi : i ≤ cfg.max_pages) (ha : a ∈ g.lists i) :
    ∃ b ∈ g.blocks, ∃ c ∈ g.chunks b, c.addr = a ∧ listOf cfg c.pages = i ∧ a ∉ live.map Prod.fst := by
  obtain ⟨k, ⟨b, hb, c, hc, hca, rfl⟩, hk, hl⟩ := (h.free i hi a).mp ha
  exact ⟨b, hb, c, hc, hca, hk, hl⟩

/-- A link word is one of a block, and not a word of a header. -/
theorem freeWord_within (h : BulkInv cfg s g live) (hx : FreeWord cfg g.lists x) :
    16 ≤ x % 4096 ∧ ∃ b ∈ g.blocks, Within b cfg.commited_block_size x := by
  obtain ⟨i, hi, a, ha, hw⟩ := hx
  obtain ⟨b, hb, c, hc, rfl, -⟩ := h.listed hi ha
  have h4 := ((h.block b hb).chunk hc).2.2.2
  unfold LinkWord at hw
  refine ⟨by omega, b, hb, ?_⟩
  rcases hw with rfl | rfl
  · exact h.chunk_within hb hc (h.chunk_start hb hc (by omega))
  · exact h.chunk_within hb hc (h.chunk_start hb hc (by omega))

/-- A chunk in the middle of a free chunk is on no list. -/
theorem inside_not_listed (h : BulkInv cfg s g live) (hb : b ∈ g.blocks) (hc : c ∈ g.chunks b)
    (hx : c.addr < x ∧ x < c.stop) {i : ℕ} (hi : i ≤ cfg.max_pages) : x ∉ g.lists i := by
  intro hxl
  obtain ⟨b', hb', d, hd, rfl, -⟩ := h.listed hi hxl
  obtain ⟨-, rfl⟩ := h.chunk_unique hb hb' hc hd ⟨hx.1.le, hx.2⟩
    (h.chunk_start hb' hd (k := 0) (by omega))
  omega

/-- A large region meets no block. -/
theorem large_not_block (h : BulkInv cfg s g live) {e : ℕ × ℕ} (he : e ∈ live)
    (hlarge : cfg.max_pages < pageCountOf e.2) (hb : b ∈ g.blocks) (hx : Within e.1 (chunkBytes e.2) x) :
    ¬ Within b cfg.commited_block_size x := by
  intro hw
  have hap := (List.pairwise_append.mp (List.pairwise_append.mp h.apart).2.1).2.2
  refine hap (b, cfg.commited_block_size) (List.mem_map_of_mem hb) (e.1, chunkBytes e.2) ?_ x hw hx
  exact List.mem_map.mpr ⟨e, List.mem_filter.mpr ⟨he, decide_eq_true hlarge⟩, rfl⟩

/-- The header of a large region is in it. -/
theorem large_header (h : BulkInv cfg s g live) {e : ℕ × ℕ} (he : e ∈ live) {k : ℕ} (hk : k < 4096) :
    Within e.1 (chunkBytes e.2) (e.1 + k) := by
  have h0 := (h.sizes e he).1
  unfold chunkBytes Within
  omega

/-- The client holds no address in the middle of a chunk. -/
theorem inside_not_live (h : BulkInv cfg s g live) (hb : b ∈ g.blocks) (hc : c ∈ g.chunks b)
    (hx : c.addr < x ∧ x < c.stop) : x ∉ live.map Prod.fst := by
  intro hxl
  obtain ⟨e, he, rfl⟩ := List.mem_map.mp hxl
  by_cases hl : cfg.max_pages < pageCountOf e.2
  · exact h.large_not_block he hl hb (h.large_header he (k := 0) (by omega))
      (h.chunk_within hb hc ⟨hx.1.le, hx.2⟩)
  · obtain ⟨b', hb', d, hd, hda, -⟩ := h.small e he (by omega)
    have hd0 := h.chunk_start hb' hd (k := 0) (by omega)
    rw [Nat.add_zero] at hd0
    obtain ⟨-, rfl⟩ := h.chunk_unique hb hb' hc hd ⟨hx.1.le, hx.2⟩ (hda ▸ hd0)
    omega

/-- The chunks, after the last ones of a block, `m`, were replaced by `m'`. -/
theorem isChunk_replace (h : BulkInv cfg s g live) {l m m' : List Chunk} (hb : b ∈ g.blocks)
    (hl : g.chunks b = l ++ m) {g' : BulkGhost} (hg : g'.blocks = g.blocks)
    (hg' : g'.chunks = g.setChunks b (l ++ m')) : g'.IsChunk x k ↔
      (g.IsChunk x k ∧ ∀ d ∈ m, x ≠ d.addr) ∨ ∃ d ∈ m', d.addr = x ∧ d.pages = k := by
  have hm : ∀ d ∈ m, d ∈ g.chunks b := fun d hd => by
    rw [hl]
    exact List.mem_append_right l hd
  unfold BulkGhost.IsChunk
  rw [hg, hg']
  constructor
  · intro hx
    obtain ⟨b', hb', c, hc, rfl, rfl⟩ := hx
    by_cases hbb : b' = b
    · rw [hbb, BulkGhost.setChunks_self] at hc
      rcases List.mem_append.mp hc with hc | hc
      · refine Or.inl ⟨⟨b, hb, c, by rw [hl]; exact List.mem_append_left m hc, rfl, rfl⟩, fun d hd hcd => ?_⟩
        -- the chunks before end before
        have hap := (h.block b hb).tiled.apart
        rw [hl] at hap
        have h1 := (List.pairwise_append.mp hap).2.2 c hc d hd
        have h2 := ((h.block b hb).chunk (by rw [hl]; exact List.mem_append_left m hc)).2.2.1
        unfold Chunk.stop at h1
        omega
      · exact Or.inr ⟨c, hc, rfl, rfl⟩
    · rw [BulkGhost.setChunks_ne hbb] at hc
      exact Or.inl ⟨⟨b', hb', c, hc, rfl, rfl⟩, fun d hd hcd => hbb (h.addr_unique hb' hb hc (hm d hd) hcd).1⟩
  · rintro (⟨⟨b', hb', c, hc, rfl, rfl⟩, hne⟩ | ⟨d, hd, rfl, rfl⟩)
    · refine ⟨b', hb', c, ?_, rfl, rfl⟩
      by_cases hbb : b' = b
      · rw [hbb, BulkGhost.setChunks_self]
        rw [hbb, hl] at hc
        rcases List.mem_append.mp hc with hc | hc
        · exact List.mem_append_left m' hc
        · exact absurd rfl (hne c hc)
      · rwa [BulkGhost.setChunks_ne hbb]
    · refine ⟨b, hb, d, ?_, rfl, rfl⟩
      rw [BulkGhost.setChunks_self]
      exact List.mem_append_right l hd

/-! ### Putting it together again -/

/-- After words of the blocks were edited: the chunks and the lists are those
of `g'`, and the client holds `live'`, with the same large regions. -/
theorem reassemble (h : BulkInv cfg s g live) {P : ℕ → Prop} (hE : Edits P s t)
    (hP : ∀ x, P x → ∃ b ∈ g.blocks, Within b cfg.commited_block_size x)
    {g' : BulkGhost} (hg : g' = { g with chunks := g'.chunks, lists := g'.lists })
    (hblock : ∀ b ∈ g.blocks, BlockInv cfg t.w b (g'.chunks b))
    (hshape : ∀ b ∈ g.blocks, LastFree cfg (g'.chunks b)) (hlists : FreeLists cfg t g'.lists)
    (hfree : ∀ i ≤ cfg.max_pages, ∀ a,
      a ∈ g'.lists i ↔ ∃ k, g'.IsChunk a k ∧ listOf cfg k = i ∧ a ∉ live'.map Prod.fst)
    (hlarge : BulkGhost.large cfg live' = BulkGhost.large cfg live)
    (hsizes : ∀ e ∈ live', 0 < e.2 ∧ e.2 ≤ 2 ^ 64 - 4096)
    (hsmall : ∀ e ∈ live', pageCountOf e.2 ≤ cfg.max_pages → g'.IsChunk e.1 (pageCountOf e.2))
    (hnodup : (live'.map Prod.fst).Nodup) : BulkInv cfg t g' live' := by
  have hblocks : g'.blocks = g.blocks := by rw [hg]
  have hreg : g'.regions cfg live' = g.regions cfg live := by
    rw [hg]
    unfold BulkGhost.regions
    rw [hlarge]
  rw [← hblocks] at hblock hshape
  refine
    { coll := ?_, items := ?_, idle := hE.base ▸ h.idle, block := hblock, shape := hshape, lists := hlists,
      free := hfree, sizes := hsizes, small := hsmall, large := fun e he hl => ?_, nodup := hnodup,
      apart := hreg ▸ h.apart, mapped := fun x hx => ?_ }
  · rw [hE.calls, hE.blocks, hg]
    exact h.coll
  · rw [hE.blocks, hblocks, show g'.used = g.used by rw [hg]]
    exact h.items
  · have he' : e ∈ live := by
      have : e ∈ BulkGhost.large cfg live' := List.mem_filter.mpr ⟨he, decide_eq_true hl⟩
      rw [hlarge] at this
      exact (List.mem_filter.mp this).1
    have hsame : ∀ k < 4096, t.w.mem (e.1 + k) = s.w.mem (e.1 + k) := fun k hk => by
      apply hE.mem
      intro hp
      obtain ⟨b, hb, hw⟩ := hP _ hp
      exact h.large_not_block he' hl hb (h.large_header he' hk) hw
    obtain ⟨h1, h2, h3⟩ := h.large e he' hl
    exact ⟨h1, (hsame 0 (by omega)).trans h2, (hsame 8 (by omega)).trans h3⟩
  · unfold BulkGhost.Owned at hx
    rw [hreg] at hx
    rw [hE.calls]
    exact h.mapped x hx

/-- The regions held are mapped. -/
theorem owned_mapped (h : BulkInv cfg s g live) (hx : g.Owned cfg live x) : Mapped s.w.calls x :=
  mapped_of_committed (h.mapped x hx)

theorem block_owned (hb : b ∈ g.blocks) (hx : Within b cfg.commited_block_size x) :
    g.Owned cfg live x := ⟨_, block_region hb, hx⟩

theorem listed_owned (h : BulkInv cfg s g live) {i : ℕ} (hi : i ≤ cfg.max_pages) (ha : a ∈ g.lists i) :
    g.Owned cfg live a := by
  obtain ⟨b, hb, c, hc, rfl, -⟩ := h.listed hi ha
  exact block_owned hb (h.chunk_within hb hc (h.chunk_start hb hc (k := 0) (by omega)))

theorem isChunk_owned (h : BulkInv cfg s g live) (ha : g.IsChunk a k) : g.Owned cfg live a := by
  obtain ⟨b, hb, c, hc, rfl, -⟩ := ha
  exact block_owned hb (h.chunk_within hb hc (h.chunk_start hb hc (k := 0) (by omega)))

theorem live_owned (h : BulkInv cfg s g live) (ha : a ∈ live.map Prod.fst) : g.Owned cfg live a := by
  obtain ⟨e, he, rfl⟩ := List.mem_map.mp ha
  by_cases hl : cfg.max_pages < pageCountOf e.2
  · exact ⟨_, large_region he hl, h.large_header he (k := 0) (by omega)⟩
  · exact h.isChunk_owned (h.small e he (by omega))

/-- A word the invariant speaks of is in a region held. -/
theorem word_owned (h : BulkInv cfg s g live) (hx : BulkWord cfg g live x) : g.Owned cfg live x := by
  rcases hx with ⟨b, hb, c, hc, hx⟩ | hx | ⟨e, he, hl, hx⟩
  · apply block_owned hb
    rcases hx with rfl | rfl
    · exact h.chunk_within hb hc (h.chunk_start hb hc (k := 0) (by omega))
    · exact h.chunk_within hb hc (h.chunk_start hb hc (by omega))
  · obtain ⟨-, b, hb, hw⟩ := h.freeWord_within hx
    exact block_owned hb hw
  · refine ⟨_, large_region he hl, ?_⟩
    rcases hx with rfl | rfl
    · exact h.large_header he (k := 0) (by omega)
    · exact h.large_header he (by omega)

/-- After a change of memory and mappings that leaves the regions held mapped
and the words the invariant speaks of as they were. -/
theorem transport (h : BulkInv cfg s g live) (hbegin : t.c.freeListBegin = s.c.freeListBegin)
    (hcoll : CollectionInPages.CollInv blockItemSize t.w.calls t.c.blocks g.pages g.used g.free)
    (hheap : t.c.blocks.heap = s.c.blocks.heap) (hbase : t.c.base.Idle)
    (hp : ∀ x, g.Owned cfg live x → pageState t.w.calls x = pageState s.w.calls x)
    (hm : ∀ x, BulkWord cfg g live x → t.w.mem x = s.w.mem x) : BulkInv cfg t g live := by
  have hchunk : ∀ b ∈ g.blocks, ∀ c ∈ g.chunks b, t.w.mem c.addr = s.w.mem c.addr ∧
      t.w.mem (c.addr + 8) = s.w.mem (c.addr + 8) := fun b hb c hc =>
    ⟨hm _ (Or.inl ⟨b, hb, c, hc, Or.inl rfl⟩), hm _ (Or.inl ⟨b, hb, c, hc, Or.inr rfl⟩)⟩
  refine
    { coll := hcoll, items := hheap ▸ h.items, idle := hbase,
      block := fun b hb => (h.block b hb).congr (fun x hx => hp x (block_owned hb hx)) (hchunk b hb),
      shape := h.shape, lists := ?_, free := h.free, sizes := h.sizes, small := h.small,
      large := fun e he hl => ?_, nodup := h.nodup, apart := h.apart,
      mapped := fun x hx => (hp x hx).trans (h.mapped x hx) }
  · refine h.lists.congr (fun i hi a ha x hx => ?_) (fun i _ => by rw [hbegin])
      fun x hx => hm x (Or.inr (Or.inl hx))
    obtain ⟨b, hb, c, hc, rfl, -⟩ := h.listed hi ha
    have h3 := ((h.block b hb).chunk hc).2.2.1
    refine hp x (block_owned hb (h.chunk_within hb hc ⟨hx.1, ?_⟩))
    have := hx.2
    unfold Chunk.stop
    omega
  · obtain ⟨h1, h2, h3⟩ := h.large e he hl
    exact ⟨h1, (hm _ (Or.inr (Or.inr ⟨e, he, hl, Or.inl rfl⟩))).trans h2,
      (hm _ (Or.inr (Or.inr ⟨e, he, hl, Or.inr rfl⟩))).trans h3⟩

/-- The pages of the collection are among the regions held. -/
theorem coll_transport (h : BulkInv cfg s g live)
    (hp : ∀ x, g.Owned cfg live x → pageState t.w.calls x = pageState s.w.calls x)  :
    CollectionInPages.CollInv blockItemSize t.w.calls s.c.blocks g.pages g.used g.free := by
  refine { h.coll with mapped := fun p hpp => ?_ }
  have hpm := h.coll.mapped p hpp
  refine ⟨hpm.aligned, hpm.pos, fun x hx => (hp x ⟨(p, 4096), ?_, hx⟩).trans (hpm.mapped x hx)⟩
  exact List.mem_append_left _ (List.mem_map_of_mem hpp)

/-- And where all that is held is unchanged. -/
theorem unchanged (h : BulkInv cfg s g live) (hc : t.c = { s.c with base := t.c.base })
    (hbase : t.c.base.Idle) (hw : Unchanged (g.Owned cfg live) s.w t.w) : BulkInv cfg t g live := by
  have hblocks : t.c.blocks = s.c.blocks := by rw [hc]
  have hp : ∀ x, g.Owned cfg live x → pageState t.w.calls x = pageState s.w.calls x := fun x hx => (hw x hx).1
  exact h.transport (by rw [hc]) (hblocks ▸ h.coll_transport hp) (by rw [hblocks]) hbase hp
    fun x hx => (hw x (h.word_owned hx)).2

end BulkInv

end BulkAllocator

end IibMalloc

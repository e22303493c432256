/-
# BulkAllocator: allocate keeps the invariant

`popExact_spec`: a chunk of the very size leaves its list, and its header is
not touched. `split_spec`: the pages are cut off the last chunk of a block,
the first one of the last list. `newBlock_spec`: a block is obtained.
`allocateLarge_spec`: a region of its own. `allocate_spec` puts them together:
whatever is mapped elsewhere is left alone (`BulkStep`), and `Allocated` says
what became of the chunks.
-/
import IibMalloc.BulkSplit

namespace IibMalloc

open Lib AnyChunkHeader

namespace BulkAllocator

variable {cfg : BulkCfg} {s t : St BulkAllocator} {g g' : BulkGhost} {live live' : List (ℕ × ℕ)}
  {a b k sz : ℕ} {l : List Chunk} {c : Chunk}

namespace BulkGhost

/-- The chunk at `a` leaves the list `i`. -/
def take (g : BulkGhost) (i a : ℕ) : BulkGhost := { g with lists := setList g.lists i ((g.lists i).erase a) }

/-- The chunk at `a` becomes the first of the list `i`. -/
def put (g : BulkGhost) (i a : ℕ) : BulkGhost := { g with lists := setList g.lists i (a :: g.lists i) }

/-- The block `b` consists of the chunks `l`. -/
def rechunk (g : BulkGhost) (b : ℕ) (l : List Chunk) : BulkGhost := { g with chunks := g.setChunks b l }

/-- The chunk `c`, the last of `b` after `l`, is cut after `k` pages. -/
def cut (cfg : BulkCfg) (g : BulkGhost) (b : ℕ) (l : List Chunk) (c : Chunk) (k : ℕ) : BulkGhost :=
  ((g.take cfg.max_pages c.addr).rechunk b
    (l ++ [⟨c.addr, k, false⟩, ⟨c.addr + k * 4096, c.pages - k, true⟩])).put
      (listOf cfg (c.pages - k)) (c.addr + k * 4096)

theorem cut_chunks (g : BulkGhost) : (cut cfg g b l c k).chunks = g.setChunks b
    (l ++ [⟨c.addr, k, false⟩, ⟨c.addr + k * 4096, c.pages - k, true⟩]) := rfl

end BulkGhost

/-! ### A chunk of the very size -/

/-- The headers of a block, after link words were edited. -/
theorem BulkInv.block_of_edits (h : BulkInv cfg s g live) (hE : Edits (FreeWord cfg g.lists) s t)
    (hb : b ∈ g.blocks) : BlockInv cfg t.w b (g.chunks b) := by
  refine (h.block b hb).congr (fun x _ => by rw [hE.calls]) fun c hc => ?_
  have h4 := ((h.block b hb).chunk hc).2.2.2
  exact ⟨hE.header h.lists (by omega), hE.header h.lists (by omega)⟩

theorem large_cons_small (hk : pageCountOf sz ≤ cfg.max_pages) :
    BulkGhost.large cfg ((a, sz) :: live) = BulkGhost.large cfg live := by
  unfold BulkGhost.large
  rw [List.filter_cons_of_neg]
  simpa using hk

theorem popExact_spec (h : BulkInv cfg s g live) (hcfg : Fits cfg) (hsz : 0 < sz ∧ sz ≤ 2 ^ 64 - 4096)
    (hk : pageCountOf sz ≤ cfg.max_pages) (hb : s.c.freeListBegin (pageCountOf sz - 1) = a) (ha : a ≠ 0) :
    Act.wp (popExact cfg (pageCountOf sz - 1) a)
      (fun r t => r = a ∧ BulkInv cfg t (g.take (pageCountOf sz - 1) a) ((a, sz) :: live) ∧
        a ∈ g.lists (pageCountOf sz - 1) ∧ Edits (FreeWord cfg g.lists) s t) (fun _ => False) s := by
  have hpos := (pageCountOf_bytes hsz.1 hsz.2).1
  have hi : pageCountOf sz - 1 ≤ cfg.max_pages := by omega
  have hal : a ∈ g.lists (pageCountOf sz - 1) := hb ▸ h.lists.first_mem hi (by rwa [hb])
  obtain ⟨k, hchunk, hlist, hout⟩ := (h.free _ hi a).mp hal
  -- the list holds chunks of that size only
  have hkk : k = pageCountOf sz := by
    obtain ⟨b', hb', c, hc, -, rfl⟩ := hchunk
    have h1 := ((h.block b' hb').chunk hc).2.2.1
    have h2 := (h.block b' hb').pages_le hc
    have h3 := hcfg.pages_lt
    have h4 := hcfg.max_lt
    rw [listOf_eq h1 (by omega)] at hlist
    split_ifs at hlist <;> omega
  unfold popExact
  rw [Act.wp_bind, Act.wp_assertThat, Act.wp_bind, Act.wp_assertThat]
  refine Act.wp_mono (popFree_asserted (s := s) _ h.lists hi hb ha) ?_ fun _ ht => ht
  intro r t ht
  obtain ⟨rfl, hL, hE⟩ := ht
  refine ⟨rfl, ?_, hal, hE⟩
  refine h.reassemble hE (fun x hx => (h.freeWord_within hx).2) rfl (fun b hb => h.block_of_edits hE hb)
    h.shape hL (fun i hi' x => ?_) (large_cons_small hk) ?_ ?_ ?_
  · unfold BulkGhost.take
    rw [h.lists.mem_erase hi hal hi', h.free i hi' x, List.map_cons, List.mem_cons, not_or]
    constructor
    · intro hx
      obtain ⟨⟨k', h1, h2, h3⟩, h4⟩ := hx
      exact ⟨k', h1, h2, h4, h3⟩
    · intro hx
      obtain ⟨k', h1, h2, h4, h3⟩ := hx
      exact ⟨⟨k', h1, h2, h3⟩, h4⟩
  · intro e he
    rcases List.mem_cons.mp he with rfl | he
    · exact hsz
    · exact h.sizes e he
  · intro e he hsmall
    rcases List.mem_cons.mp he with rfl | he
    · exact hkk ▸ hchunk
    · exact h.small e he hsmall
  · rw [List.map_cons]
    exact List.nodup_cons.mpr ⟨hout, h.nodup⟩

/-! ### A chunk cut in two -/

/-- The words that a cut writes: link words of free chunks, and words of the
chunk that is cut. -/
def CutWord (cfg : BulkCfg) (g : BulkGhost) (c : Chunk) (x : ℕ) : Prop :=
  FreeWord cfg g.lists x ∨ c.addr ≤ x ∧ x < c.stop

/-- What `split` leaves in memory. -/
structure CutDone (cfg : BulkCfg) (g : BulkGhost) (l : List Chunk) (c : Chunk) (k : ℕ)
    (s t : St BulkAllocator) : Prop where
  edits : Edits (CutWord cfg g c) s t
  other : ∀ x, x % 4096 < 16 → x ≠ c.addr → x ≠ c.addr + 8 → x ≠ c.addr + k * 4096 →
    x ≠ c.addr + k * 4096 + 8 → t.w.mem x = s.w.mem x
  prev : t.w.mem c.addr = lastAddr 0 l + k
  next : t.w.mem (c.addr + 8) = c.addr + k * 4096
  prev' : t.w.mem (c.addr + k * 4096) = c.addr + (c.pages - k)
  next' : t.w.mem (c.addr + k * 4096 + 8) = 1
  lists : FreeLists cfg t (BulkGhost.cut cfg g 0 l c k).lists

theorem split_words (h : BulkInv cfg s g live) (hcfg : Fits cfg) (hb : b ∈ g.blocks)
    (hl : g.chunks b = l ++ [c]) (hfirst : s.c.freeListBegin cfg.max_pages = c.addr) (hk : 0 < k)
    (hk' : k ≤ cfg.max_pages) (hck : cfg.max_pages < c.pages) :
    Act.wp (split cfg k) (fun r t => r = c.addr ∧ CutDone cfg g l c k s t) (fun _ => False) s := by
  have hB := h.block b hb
  have hc : c ∈ g.chunks b := by
    rw [hl]
    exact List.mem_append_right l (List.mem_singleton_self c)
  obtain ⟨hc1, hc2, hc3, hc4⟩ := hB.chunk hc
  have hlt := hB.lt
  have hinside : ∀ {x}, c.addr + k * 4096 ≤ x → x < c.addr + k * 4096 + 4096 →
      c.addr < x ∧ x < c.stop := fun h1 h2 => by
    unfold Chunk.stop
    omega
  have hm : CollectionInPages.PageMapped s.w.calls (c.addr + k * 4096) :=
    ⟨by omega, by omega, fun x hx =>
      hB.chunk_mapped hc (hinside hx.1 hx.2).1.le (hinside hx.1 hx.2).2⟩
  have hread := hB
  rw [hl] at hread
  obtain ⟨hprev, hpages, hnext, -⟩ := hread.read hcfg
  have hspec := split_done h.lists hfirst (hB.pageMapped hc).pos.ne' hm
    (fun i hi => h.inside_not_listed hb hc (hinside le_rfl (by omega)) hi)
    (by have := hinside (x := c.addr + k * 4096) le_rfl (by omega); omega) hk hk' (by rwa [hpages])
  refine Act.wp_mono hspec ?_ fun _ ht => ht
  intro r t ht
  obtain ⟨rfl, hS⟩ := ht
  have hlists := hS.lists
  have hprev' := hS.prev'
  rw [hpages] at hlists hprev'
  refine ⟨rfl, hS.edits.mono fun x hx => ?_, fun x hx h1 h2 h3 h4 => hS.edits.mem x fun hw => ?_,
    hprev ▸ hS.prev, hS.next, hprev', ?_, hlists⟩
  · -- the words of both headers and the links of the rest lie in the chunk
    have hin := hinside (x := c.addr + k * 4096 + 24) (by omega) (by omega)
    unfold HeaderWord LinkWord at hx
    refine hx.imp_right fun hx => ?_
    omega
  · rcases hw with hw | hw
    · have := (h.freeWord_within hw).1
      omega
    · unfold HeaderWord LinkWord at hw
      omega
  · rw [hS.next', hnext]
    rfl

/-- The chunk of a list, as the last one of a block: a chunk larger than any
request is. -/
theorem BulkInv.last_of_large (h : BulkInv cfg s g live) (hb : b ∈ g.blocks) (hc : c ∈ g.chunks b)
    (hck : cfg.max_pages < c.pages) : ∃ l, g.chunks b = l ++ [c] := by
  obtain ⟨l, d, hl, -, hsmall⟩ := h.shape b hb
  rw [hl] at hc
  rcases List.mem_append.mp hc with hc | hc
  · have := (hsmall c hc).2
    omega
  · rw [List.mem_singleton.mp hc]
    exact ⟨l, hl⟩

/-- The first chunk of the last list is the last chunk of a block. -/
theorem BulkInv.first_large (h : BulkInv cfg s g live) (hcfg : Fits cfg)
    (hfirst : s.c.freeListBegin cfg.max_pages ≠ 0) : ∃ b ∈ g.blocks, ∃ l c, g.chunks b = l ++ [c] ∧
      s.c.freeListBegin cfg.max_pages = c.addr ∧ cfg.max_pages < c.pages ∧ c.addr ∉ live.map Prod.fst := by
  obtain ⟨b, hb, c, hc, hca, hlist, hout⟩ := h.listed le_rfl (h.lists.first_mem le_rfl hfirst)
  have h1 := ((h.block b hb).chunk hc).2.2.1
  have h2 := (h.block b hb).pages_le hc
  have h3 := hcfg.pages_lt
  rw [listOf_eq h1 (by omega)] at hlist
  have hck : cfg.max_pages < c.pages := by
    by_contra hn
    rw [if_neg hn] at hlist
    omega
  obtain ⟨l, hl⟩ := h.last_of_large hb hc hck
  exact ⟨b, hb, l, c, hl, hca.symm, hck, hca ▸ hout⟩

/-- A cut keeps the invariant; the client holds the first part. -/
theorem BulkInv.cut (h : BulkInv cfg s g live) (hb : b ∈ g.blocks)
    (hl : g.chunks b = l ++ [c]) (hfirst : s.c.freeListBegin cfg.max_pages = c.addr)
    (hsz : 0 < sz ∧ sz ≤ 2 ^ 64 - 4096) (hk : pageCountOf sz ≤ cfg.max_pages)
    (hck : cfg.max_pages < c.pages) (ht : CutDone cfg g l c (pageCountOf sz) s t) :
    BulkInv cfg t (BulkGhost.cut cfg g b l c (pageCountOf sz)) ((c.addr, sz) :: live) := by
  have hpos := (pageCountOf_bytes hsz.1 hsz.2).1
  have hB := h.block b hb
  have hc : c ∈ g.chunks b := by
    rw [hl]
    exact List.mem_append_right l (List.mem_singleton_self c)
  have hal : c.addr ∈ g.lists cfg.max_pages := hfirst ▸ h.lists.first_mem le_rfl
    (by rw [hfirst]; exact (hB.pageMapped hc).pos.ne')
  obtain ⟨-, -, hout⟩ := ((h.free _ le_rfl c.addr).mp hal).choose_spec
  have hin : c.addr < c.addr + pageCountOf sz * 4096 ∧ c.addr + pageCountOf sz * 4096 < c.stop := by
    unfold Chunk.stop
    omega
  have hul := h.inside_not_live hb hc hin
  have hrep := fun x k => h.isChunk_replace (x := x) (k := k) hb hl
    (show (BulkGhost.cut cfg g b l c (pageCountOf sz)).blocks = g.blocks from rfl) rfl
  refine h.reassemble ht.edits ?_ rfl (fun b' hb' => ?_) (fun b' hb' => ?_) ht.lists (fun i hi x => ?_)
    (large_cons_small hk) ?_ ?_ ?_
  · rintro x (hw | hw)
    · exact (h.freeWord_within hw).2
    · exact ⟨b, hb, h.chunk_within hb hc hw⟩
  · by_cases hbb : b' = b
    · subst hbb
      rw [BulkGhost.cut_chunks, BulkGhost.setChunks_self]
      rw [hl] at hB
      exact hB.split_last hpos (by omega) ht.edits.calls ht.other ht.prev ht.next ht.prev' ht.next'
    · rw [BulkGhost.cut_chunks, BulkGhost.setChunks_ne hbb]
      refine (h.block b' hb').congr (fun x _ => by rw [ht.edits.calls]) fun d hd => ?_
      have hd4 := ((h.block b' hb').chunk hd).2.2.2
      have hsame : ∀ u < 16, t.w.mem (d.addr + u) = s.w.mem (d.addr + u) := fun u hu => by
        apply ht.edits.mem
        rintro (hw | hw)
        · have := (h.freeWord_within hw).1
          omega
        · exact hbb (h.chunk_unique hb' hb hd hc (h.chunk_start hb' hd (by omega)) hw).1
      exact ⟨hsame 0 (by omega), hsame 8 (by omega)⟩
  · by_cases hbb : b' = b
    · subst hbb
      rw [BulkGhost.cut_chunks, BulkGhost.setChunks_self]
      obtain ⟨l', d, hl', -, hsmall⟩ := h.shape b' hb'
      rw [hl] at hl'
      obtain ⟨rfl, -⟩ := List.append_inj' hl' rfl
      refine ⟨l ++ [(⟨c.addr, pageCountOf sz, false⟩ : Chunk)],
        ⟨c.addr + pageCountOf sz * 4096, c.pages - pageCountOf sz, true⟩, by simp, rfl, fun e he => ?_⟩
      rcases List.mem_append.mp he with he | he
      · exact hsmall e he
      · rw [List.mem_singleton.mp he]
        exact ⟨rfl, hk⟩
    · rw [BulkGhost.cut_chunks, BulkGhost.setChunks_ne hbb]
      exact h.shape b' hb'
  · show x ∈ setList (setList g.lists cfg.max_pages _) _ (_ :: setList g.lists cfg.max_pages _ _) i ↔ _
    rw [mem_setList_cons, h.lists.mem_erase le_rfl hal hi, h.free i hi x]
    simp only [hrep, forall_eq, List.mem_cons, List.not_mem_nil, or_false, exists_eq_or_imp,
      exists_eq_left, List.map_cons, not_or]
    constructor
    · rintro (⟨⟨k, h1, h2, h3⟩, h4⟩ | ⟨rfl, rfl⟩)
      · exact ⟨k, Or.inl ⟨h1, h4⟩, h2, h4, h3⟩
      · exact ⟨_, Or.inr (Or.inr ⟨rfl, rfl⟩), rfl, by omega, hul⟩
    · rintro ⟨k, ⟨h1, h4⟩ | ⟨h4, rfl⟩ | ⟨h4, rfl⟩, h2, h3, h5⟩
      · exact Or.inl ⟨⟨k, h1, h2, h5⟩, h4⟩
      · exact absurd h4.symm h3
      · exact Or.inr ⟨h2.symm, h4.symm⟩
  · intro e he
    rcases List.mem_cons.mp he with rfl | he
    · exact hsz
    · exact h.sizes e he
  · intro e he hsmall
    rw [hrep]
    rcases List.mem_cons.mp he with rfl | he
    · exact Or.inr ⟨_, List.mem_cons_self, rfl, rfl⟩
    · refine Or.inl ⟨h.small e he hsmall, fun d hd hed => hout ?_⟩
      rw [← List.mem_singleton.mp hd, ← hed]
      exact List.mem_map_of_mem he
  · rw [List.map_cons]
    exact List.nodup_cons.mpr ⟨hout, h.nodup⟩

/-! ### What a call does to the rest of memory -/

/-- A call leaves alone what is mapped and not held, gets only what was not
mapped, and holds afterwards what it got. -/
structure BulkStep (cfg : BulkCfg) (g : BulkGhost) (live : List (ℕ × ℕ)) (g' : BulkGhost)
    (live' : List (ℕ × ℕ)) (w w' : World) : Prop where
  frame : Unchanged (fun x => Mapped w.calls x ∧ ¬ g.Owned cfg live x) w w'
  fresh : ∀ x, g'.Owned cfg live' x → g.Owned cfg live x ∨ ¬ Mapped w.calls x
  cover : ∀ x, Mapped w'.calls x → g'.Owned cfg live' x ∨ Mapped w.calls x ∧ ¬ g.Owned cfg live x

namespace BulkStep

variable {w w' w'' : World} {g'' : BulkGhost} {live'' : List (ℕ × ℕ)}

theorem trans (h : BulkStep cfg g live g' live' w w') (h' : BulkStep cfg g' live' g'' live'' w' w'') :
    BulkStep cfg g live g'' live'' w w'' := by
  have hout : ∀ x, Mapped w.calls x ∧ ¬ g.Owned cfg live x → Mapped w'.calls x ∧ ¬ g'.Owned cfg live' x := by
    intro x hx
    refine ⟨?_, fun ho => (h.fresh x ho).elim hx.2 fun hn => hn hx.1⟩
    unfold Mapped
    rw [(h.frame x hx).1]
    exact hx.1
  refine ⟨h.frame.trans fun x hx => h'.frame x (hout x hx), fun x hx => ?_, fun x hx => ?_⟩
  · by_contra hn
    rw [not_or, not_not] at hn
    exact (h'.fresh x hx).elim (hout x ⟨hn.2, hn.1⟩).2 fun hm => hm (hout x ⟨hn.2, hn.1⟩).1
  · rcases h'.cover x hx with ho | ⟨hm, hn⟩
    · exact Or.inl ho
    · exact Or.inr ((h.cover x hm).resolve_left hn)

/-- Words of regions held were edited. -/
theorem of_edits {P : ℕ → Prop} (hE : Edits P s t) (hP : ∀ x, P x → g.Owned cfg live x)
    (hreg : ∀ x, g'.Owned cfg live' x ↔ g.Owned cfg live x) :
    BulkStep cfg g live g' live' s.w t.w := by
  refine ⟨fun x hx => ⟨by rw [hE.calls], hE.mem x fun hp => hx.2 (hP x hp)⟩, fun x hx => Or.inl ((hreg x).mp hx),
    fun x hx => ?_⟩
  rw [hE.calls] at hx
  exact or_iff_not_imp_left.mpr fun ho => ⟨hx, fun h => ho ((hreg x).mpr h)⟩


end BulkStep

/-! ### A new block -/

/-- A region from the operating system is apart from those held. -/
theorem pairwise_fresh {calls : List OsCall} {rs : List (ℕ × ℕ)} {n : ℕ} (hrs : rs.Pairwise Apart)
    (hmapped : ∀ r ∈ rs, ∀ x, Within r.1 r.2 x → Mapped calls x) (hf : FreshRegion calls a n) :
    ((a, n) :: rs).Pairwise Apart :=
  List.pairwise_cons.mpr ⟨fun r hr x hx hx' => hmapped r hr x hx' (hf.unmapped x hx), hrs⟩

/-- `g'` has the block at `b` besides those of `g`, as one chunk. -/
structure Opened (cfg : BulkCfg) (g : BulkGhost) (live : List (ℕ × ℕ)) (b : ℕ) (g' : BulkGhost) : Prop where
  fresh : b ∉ g.blocks
  free : b ∉ live.map Prod.fst
  blocks : g'.blocks = b :: g.blocks
  chunks : g'.chunks = g.setChunks b [⟨b, cfg.pagesPerAllocatedBlock, true⟩]
  lists : g'.lists = setList g.lists cfg.max_pages [b]

/-- The world after a block was mapped, and a page for the collection maybe. -/
structure BlockMapped (cfg : BulkCfg) (g : BulkGhost) (w : World) (b : ℕ) (pages : List ℕ) (w' : World) :
    Prop where
  fresh : FreshRegion w.calls b cfg.commited_block_size
  keep : ∀ x, Mapped w.calls x → pageState w'.calls x = pageState w.calls x ∧ w'.mem x = w.mem x
  committed : ∀ x, Within b cfg.commited_block_size x → pageState w'.calls x = .committed
  cover : ∀ x, Mapped w'.calls x → Mapped w.calls x ∨ Within b cfg.commited_block_size x ∨
    ∃ p ∈ pages, Within p 4096 x
  pages : pages = g.pages ∨ ∃ p, pages = p :: g.pages ∧ FreshRegion (w.allocated b cfg.commited_block_size).calls p 4096

theorem isChunk_opened {x : ℕ} (ho : Opened cfg g live b g') :
    g'.IsChunk x k ↔ g.IsChunk x k ∨ x = b ∧ k = cfg.pagesPerAllocatedBlock := by
  unfold BulkGhost.IsChunk
  rw [ho.blocks, ho.chunks]
  constructor
  · intro hx
    obtain ⟨b', hb', c, hc, rfl, rfl⟩ := hx
    rcases List.mem_cons.mp hb' with rfl | hb'
    · rw [BulkGhost.setChunks_self, List.mem_singleton] at hc
      rw [hc]
      exact Or.inr ⟨rfl, rfl⟩
    · rw [BulkGhost.setChunks_ne fun he : b' = b => ho.fresh (he ▸ hb')] at hc
      exact Or.inl ⟨b', hb', c, hc, rfl, rfl⟩
  · rintro (⟨b', hb', c, hc, rfl, rfl⟩ | ⟨rfl, rfl⟩)
    · refine ⟨b', List.mem_cons_of_mem b hb', c, ?_, rfl, rfl⟩
      rwa [BulkGhost.setChunks_ne fun he : b' = b => ho.fresh (he ▸ hb')]
    · refine ⟨x, List.mem_cons_self, ⟨x, cfg.pagesPerAllocatedBlock, true⟩, ?_, rfl, rfl⟩
      rw [BulkGhost.setChunks_self]
      exact List.mem_singleton_self _

theorem regions_perm {new : List ℕ} (hp : g'.pages = new ++ g.pages) (hb : g'.blocks = b :: g.blocks) :
    (g'.regions cfg live).Perm
      (new.map (fun p => (p, 4096)) ++ (b, cfg.commited_block_size) :: g.regions cfg live) := by
  unfold BulkGhost.regions
  rw [hp, hb, List.map_append, List.map_cons, List.cons_append, List.append_assoc]
  exact List.Perm.append_left _ List.perm_middle

/-- The regions held, after a block was obtained. -/
theorem regions_opened {w' : World} {pages : List ℕ} (h : BulkInv cfg s g live)
    (hw : BlockMapped cfg g s.w b pages w') (ho : Opened cfg g live b g') (hpages : g'.pages = pages) :
    (g'.regions cfg live).Pairwise Apart ∧ BulkStep cfg g live g' live s.w w' := by
  suffices hdone : (g'.regions cfg live).Pairwise Apart ∧
      (∀ x, g'.Owned cfg live x → g.Owned cfg live x ∨ ¬ Mapped s.w.calls x) ∧
      ∀ x, g.Owned cfg live x → g'.Owned cfg live x by
    obtain ⟨hapart, hfresh, hmono⟩ := hdone
    refine ⟨hapart, fun x hx => hw.keep x hx.1, hfresh, fun x hx => ?_⟩
    rcases hw.cover x hx with hm | hx | ⟨p, hp, hx⟩
    · exact or_iff_not_imp_left.mpr fun ho => ⟨hm, fun h => ho (hmono x h)⟩
    · exact Or.inl (BulkInv.block_owned (ho.blocks ▸ List.mem_cons_self) hx)
    · exact Or.inl ⟨(p, 4096), List.mem_append_left _ (List.mem_map_of_mem (hpages ▸ hp)), hx⟩
  have hmap : ∀ r ∈ g.regions cfg live, ∀ x, Within r.1 r.2 x → Mapped s.w.calls x := fun r hr x hx =>
    h.owned_mapped ⟨r, hr, hx⟩
  have hblock : ∀ x, Within b cfg.commited_block_size x → ¬ Mapped s.w.calls x := fun x hx hm =>
    hm (hw.fresh.unmapped x hx)
  have hone := pairwise_fresh h.apart hmap hw.fresh
  rcases hw.pages with hp | ⟨p, hp, hf⟩
  · have hperm : (g'.regions cfg live).Perm ((b, cfg.commited_block_size) :: g.regions cfg live) :=
      @regions_perm _ _ _ _ _ [] (hpages.trans hp) ho.blocks
    refine ⟨hperm.symm.pairwise hone fun hab => Std.Symm.symm _ _ hab, ?_, fun x ⟨r, hr, hx⟩ =>
      ⟨r, hperm.mem_iff.mpr (List.mem_cons_of_mem _ hr), hx⟩⟩
    intro x hx
    obtain ⟨r, hr, hx⟩ := hx
    rcases List.mem_cons.mp (hperm.mem_iff.mp hr) with rfl | hr
    · exact Or.inr (hblock x hx)
    · exact Or.inl ⟨r, hr, hx⟩
  · have hperm : (g'.regions cfg live).Perm
        ((p, 4096) :: (b, cfg.commited_block_size) :: g.regions cfg live) :=
      @regions_perm _ _ _ _ _ [p] (hpages.trans hp) ho.blocks
    have hgrow := Grows.allocated hw.fresh
    refine ⟨hperm.symm.pairwise (pairwise_fresh hone (fun r hr x hx => ?_) hf)
      fun hab => Std.Symm.symm _ _ hab, ?_, fun x ⟨r, hr, hx⟩ =>
        ⟨r, hperm.mem_iff.mpr (List.mem_cons_of_mem _ (List.mem_cons_of_mem _ hr)), hx⟩⟩
    · rcases List.mem_cons.mp hr with rfl | hr
      · apply mapped_of_committed
        simp only [World.allocated, pageState]
        exact if_pos hx
      · exact (hgrow x).2 (hmap r hr x hx)
    · intro x hx
      obtain ⟨r, hr, hx⟩ := hx
      rcases List.mem_cons.mp (hperm.mem_iff.mp hr) with rfl | hr
      · exact Or.inr fun hm => (hgrow x).2 hm (hf.unmapped x hx)
      rcases List.mem_cons.mp hr with rfl | hr
      · exact Or.inr (hblock x hx)
      · exact Or.inl ⟨r, hr, hx⟩

/-- The blocks of the allocator with the new one. -/
theorem BulkInv.opened_block {pages : List ℕ} (h : BulkInv cfg s g live) (hcfg : Fits cfg)
    (hw : BlockMapped cfg g s.w b pages t.w) (ho : Opened cfg g live b g')
    (h0 : t.w.mem b = cfg.pagesPerAllocatedBlock) (h8 : t.w.mem (b + 8) = 1) (hb : b' ∈ g'.blocks) :
    BlockInv cfg t.w b' (g'.chunks b') ∧ LastFree cfg (g'.chunks b') := by
  have hf := hw.fresh
  rw [ho.chunks]
  rcases List.mem_cons.mp (ho.blocks ▸ hb) with rfl | hb
  · rw [BulkGhost.setChunks_self]
    have hpos : 0 < cfg.pagesPerAllocatedBlock := by
      have := hcfg.max_lt
      omega
    refine ⟨⟨hf.aligned, hf.pos, hf.lt, hw.committed, ⟨rfl, hpos, ?_⟩, ?_, ?_, trivial⟩,
      [], _, rfl, rfl, fun d hd => by cases hd⟩
    · rw [BulkCfg.size_eq cfg]
      rfl
    · rw [h0, Nat.zero_add]
    · exact h8
  · rw [BulkGhost.setChunks_ne fun he : b' = b => ho.fresh (he ▸ hb)]
    have hword : ∀ x, BulkWord cfg g live x → t.w.mem x = s.w.mem x := fun x hx =>
      (hw.keep x (h.owned_mapped (h.word_owned hx))).2
    exact ⟨(h.block b' hb).congr (fun x hx => (hw.keep x (h.owned_mapped (BulkInv.block_owned hb hx))).1)
      fun c hc => ⟨hword _ (Or.inl ⟨b', hb, c, hc, Or.inl rfl⟩), hword _ (Or.inl ⟨b', hb, c, hc, Or.inr rfl⟩)⟩,
      h.shape b' hb⟩

/-- The lists of the allocator with the new block. -/
theorem BulkInv.opened_lists {pages : List ℕ} (h : BulkInv cfg s g live)
    (hw : BlockMapped cfg g s.w b pages t.w) (ho : Opened cfg g live b g')
    (hbegin : t.c.freeListBegin = fun j => if j = cfg.max_pages then b else s.c.freeListBegin j)
    (hpm : CollectionInPages.PageMapped t.w.calls b) (hout : ∀ i ≤ cfg.max_pages, b ∉ g.lists i)
    (h16 : t.w.mem (b + 16) = 0) (h24 : t.w.mem (b + 24) = 0) : FreeLists cfg t g'.lists := by
  have hL : FreeLists cfg ⟨t.w, s.c⟩ g.lists := by
    refine h.lists.congr (fun i hi a ha x hx => ?_) (fun _ _ => rfl) fun x hx =>
      (hw.keep x (h.owned_mapped (h.word_owned (Or.inr (Or.inl hx))))).2
    obtain ⟨b', hb', c, hc, rfl, -⟩ := h.listed hi ha
    refine (hw.keep x (h.owned_mapped (BulkInv.block_owned hb' (h.chunk_within hb' hc ⟨hx.1, ?_⟩)))).1
    have h3 := ((h.block b' hb').chunk hc).2.2.1
    have := hx.2
    unfold Chunk.stop
    omega
  rw [ho.lists]
  refine hL.edit le_rfl rfl (fun j hj => by rw [hbegin]; exact if_neg hj) (fun _ _ => rfl) ?_ fun a ha => ?_
  · rw [hbegin]
    simp only [if_true]
    exact ⟨rfl, hpm.pos.ne', h16, h24⟩
  · rw [List.mem_singleton.mp ha]
    exact Or.inr ⟨hpm, hout⟩

/-- The invariant with the new block, whose chunk is the only one larger than
any request. -/
theorem BulkInv.opened {pages used free : List ℕ} (h : BulkInv cfg s g live) (hcfg : Fits cfg)
    (hnone : s.c.freeListBegin cfg.max_pages = 0) (hw : BlockMapped cfg g s.w b pages t.w)
    (hcoll : CollectionInPages.CollInv blockItemSize t.w.calls t.c.blocks pages used free)
    (hitems : used.map (fun a => (t.c.blocks.heap a).item) = b :: g.blocks) (hidle : t.c.base.Idle)
    (hbegin : t.c.freeListBegin = fun j => if j = cfg.max_pages then b else s.c.freeListBegin j)
    (h0 : t.w.mem b = cfg.pagesPerAllocatedBlock) (h8 : t.w.mem (b + 8) = 1)
    (h16 : t.w.mem (b + 16) = 0) (h24 : t.w.mem (b + 24) = 0) :
    ∃ g', Opened cfg g live b g' ∧ BulkInv cfg t g' live ∧ BulkStep cfg g live g' live s.w t.w := by
  have hf := hw.fresh
  have hmax := hcfg.max_lt
  have hlt := hcfg.pages_lt
  have hsize := BulkCfg.size_eq cfg
  have hself : Within b cfg.commited_block_size b := ⟨le_rfl, by omega⟩
  have hfresh : b ∉ g.blocks := fun hb =>
    h.owned_mapped (BulkInv.block_owned hb hself) (hf.unmapped b hself)
  have hnot : ¬ g.Owned cfg live b := fun hb => h.owned_mapped hb (hf.unmapped b hself)
  have hlive : b ∉ live.map Prod.fst := fun hb => hnot (h.live_owned hb)
  obtain ⟨g', hg'⟩ : ∃ g', g' = BulkGhost.mk pages used free (b :: g.blocks)
      (g.setChunks b [⟨b, cfg.pagesPerAllocatedBlock, true⟩]) (setList g.lists cfg.max_pages [b]) := ⟨_, rfl⟩
  have ho : Opened cfg g live b g' := by
    rw [hg']
    exact ⟨hfresh, hlive, rfl, rfl, rfl⟩
  obtain ⟨hapart, hown⟩ := regions_opened h hw ho (by rw [hg'])
  have hpages : g'.pages = pages := by rw [hg']
  have hkeep : ∀ x, g.Owned cfg live x → pageState t.w.calls x = pageState s.w.calls x ∧
      t.w.mem x = s.w.mem x := fun x hx => hw.keep x (h.owned_mapped hx)
  have hword : ∀ x, BulkWord cfg g live x → t.w.mem x = s.w.mem x := fun x hx =>
    (hkeep x (h.word_owned hx)).2
  have hnil : g.lists cfg.max_pages = [] := (h.lists.first_eq_zero le_rfl).mp hnone
  have hlisted : ∀ i ≤ cfg.max_pages, b ∉ g.lists i := fun i hi hb => hnot (h.listed_owned hi hb)
  have hpm : CollectionInPages.PageMapped t.w.calls b :=
    ⟨hf.aligned, hf.pos, fun x hx => hw.committed x ⟨hx.1, by have := hx.2; omega⟩⟩
  have hlistmax : listOf cfg cfg.pagesPerAllocatedBlock = cfg.max_pages := by
    rw [listOf_eq (by omega) hlt, if_pos hmax]
  have hchunk := fun x k => isChunk_opened (x := x) (k := k) ho
  refine ⟨g', ho, ?_, hown⟩
  refine
    { coll := by rw [hg']; exact hcoll, items := by rw [hg']; exact hitems, idle := hidle,
      block := fun b' hb' => (h.opened_block hcfg hw ho h0 h8 hb').1,
      shape := fun b' hb' => (h.opened_block hcfg hw ho h0 h8 hb').2,
      lists := h.opened_lists hw ho hbegin hpm hlisted h16 h24, free := fun i hi a => ?_, sizes := h.sizes,
      small := fun e he hl => (hchunk _ _).mpr (Or.inl (h.small e he hl)),
      large := fun e he hl => ?_, nodup := h.nodup, apart := hapart, mapped := ?_ }
  · rw [ho.lists, show [b] = b :: g.lists cfg.max_pages by rw [hnil], mem_setList_cons, h.free i hi a]
    simp only [hchunk]
    constructor
    · rintro (⟨k, h1, h2, h3⟩ | ⟨rfl, rfl⟩)
      · exact ⟨k, Or.inl h1, h2, h3⟩
      · exact ⟨_, Or.inr ⟨rfl, rfl⟩, hlistmax, hlive⟩
    · rintro ⟨k, h1 | ⟨rfl, rfl⟩, h2, h3⟩
      · exact Or.inl ⟨k, h1, h2, h3⟩
      · exact Or.inr ⟨h2.symm.trans hlistmax, rfl⟩
  · obtain ⟨h1, h2, h3⟩ := h.large e he hl
    exact ⟨h1, (hword _ (Or.inr (Or.inr ⟨e, he, hl, Or.inl rfl⟩))).trans h2,
      (hword _ (Or.inr (Or.inr ⟨e, he, hl, Or.inr rfl⟩))).trans h3⟩
  · intro x hx
    obtain ⟨r, hr, hx⟩ := hx
    rcases List.mem_append.mp hr with hr | hr
    · obtain ⟨p, hp, rfl⟩ := List.mem_map.mp hr
      rw [hpages] at hp
      exact (hcoll.mapped p hp).mapped x hx
    rcases List.mem_append.mp hr with hr | hr
    · obtain ⟨b', hb', rfl⟩ := List.mem_map.mp hr
      rcases List.mem_cons.mp (ho.blocks ▸ hb') with rfl | hb'
      · exact hw.committed x hx
      · have ho : g.Owned cfg live x := BulkInv.block_owned hb' hx
        exact (hkeep x ho).1.trans (h.mapped x ho)
    · have ho : g.Owned cfg live x := ⟨r, List.mem_append_right _ (List.mem_append_right _ hr), hx⟩
      exact (hkeep x ho).1.trans (h.mapped x ho)

theorem Fits.size_dvd (cfg : BulkCfg) : 4096 ∣ cfg.commited_block_size :=
  ⟨cfg.pagesPerAllocatedBlock, by rw [BulkCfg.size_eq cfg, Nat.mul_comm]⟩

/-- The operating system grants the block, and refuses the page that the
collection needs for its item. -/
def LosesBlock (cfg : BulkCfg) (os : Os) (s : St BulkAllocator) : Prop :=
  s.c.blocks.freeList = 0 ∧ ∃ b, os.mmap s.w.calls cfg.commited_block_size = some b ∧
    os.mmap (.allocate b cfg.commited_block_size :: s.w.calls) PAGE_SIZE = none

/-- The lists and the collection are as they were. -/
structure Unaltered (s t : St BulkAllocator) : Prop where
  lists : t.c.freeListBegin = s.c.freeListBegin
  head : t.c.blocks.head = s.c.blocks.head
  freeList : t.c.blocks.freeList = s.c.blocks.freeList
  pageCnt : t.c.blocks.pageCnt = s.c.blocks.pageCnt
  heap : t.c.blocks.heap = s.c.blocks.heap

/-- What a call that throws leaves in the operating system: a block that was
granted before stays mapped where `lost` holds. -/
inductive Failed (cfg : BulkCfg) (lost : Prop) (w w' : World) : Prop where
  | refused (n : ℕ) (hl : ¬ lost) (hw : w'.calls = .refused n :: w.calls)
  | lost (b : ℕ) (hl : lost) (hf : FreshRegion w.calls b cfg.commited_block_size)
    (hw : w'.calls = .refused 4096 :: .allocate b cfg.commited_block_size :: w.calls)

/-- A call that throws keeps the invariant, the lists and the collection, and
all that was mapped. -/
structure Threw (cfg : BulkCfg) (lost : Prop) (s : St BulkAllocator) (g : BulkGhost) (live : List (ℕ × ℕ))
    (t : St BulkAllocator) : Prop where
  inv : BulkInv cfg t g live
  keep : Unchanged (Mapped s.w.calls) s.w t.w
  unaltered : Unaltered s t
  failed : Failed cfg lost s.w t.w

/-- The condition of another name, and another state of the assertions. -/
theorem Threw.imp {lost lost' : Prop} {v : Bool} (h : Threw cfg lost ⟨{ s.w with assertsHold := v }, s.c⟩ g live t)
    (hl : lost ↔ lost') : Threw cfg lost' s g live t := by
  refine ⟨h.inv, h.keep, ⟨h.unaltered.lists, h.unaltered.head, h.unaltered.freeList, h.unaltered.pageCnt,
    h.unaltered.heap⟩, ?_⟩
  rcases h.failed with ⟨n, h1, h2⟩ | ⟨b, h1, h2, h3⟩
  · exact .refused n (mt hl.mpr h1) h2
  · exact .lost b (hl.mp h1) h2 h3

/-- Where the operating system refused, nothing held has changed. -/
theorem BulkInv.refused {lost : Prop} {n : ℕ} (h : BulkInv cfg s g live) (hl : ¬ lost)
    (hc : t.c = { s.c with base := t.c.base }) (hbase : t.c.base.Idle) (hw : t.w = s.w.refused n) :
    Threw cfg lost s g live t := by
  have hkeep : Unchanged (Mapped s.w.calls) s.w t.w := hw ▸ .refused
  refine ⟨h.unchanged hc hbase (hkeep.mono fun x hx => h.owned_mapped hx), hkeep, ?_, .refused n hl (by rw [hw]; rfl)⟩
  constructor
  all_goals rw [hc]

/-- The item of the collection for a new block. -/
theorem newItem_spec (os : Os)
    (h : CollectionInPages.CollInv blockItemSize s.w.calls s.c.blocks g.pages g.used g.free) {b : ℕ} {c : PageAllocatorWithCaching}
    {v : Bool} (hf : FreshRegion s.w.calls b cfg.commited_block_size) :
    Act.wp (collection (CollectionInPages.createNew os blockItemSize))
      (fun a t => ∃ pages free, t.c = ⟨c, t.c.blocks, s.c.freeListBegin⟩ ∧
        CollectionInPages.CollInv blockItemSize t.w.calls t.c.blocks pages (a :: g.used) free ∧ a ∉ g.used ∧
        (∀ x ∈ g.used, t.c.blocks.heap x = s.c.blocks.heap x) ∧ BlockMapped cfg g s.w b pages t.w)
      (fun t => t.c = ⟨c, t.c.blocks, s.c.freeListBegin⟩ ∧
        CollectionInPages.CollInv blockItemSize t.w.calls t.c.blocks g.pages g.used g.free ∧
        t.c.blocks.heap = s.c.blocks.heap ∧ t.w.calls = .refused 4096 :: (s.w.allocated b cfg.commited_block_size).calls ∧
        t.w.mem = (s.w.allocated b cfg.commited_block_size).mem ∧ s.c.blocks.freeList = 0 ∧
        os.mmap (s.w.allocated b cfg.commited_block_size).calls 4096 = none)
      ⟨{ s.w.allocated b cfg.commited_block_size with assertsHold := v }, { s.c with base := c }⟩ := by
  have hgrow := Grows.allocated hf
  have hkeep := Unchanged.allocated hf fun x hx => hx
  have hnew : ∀ x, Within b cfg.commited_block_size x →
      pageState (s.w.allocated b cfg.commited_block_size).calls x = .committed := fun x hx => by
    simp only [World.allocated, pageState]
    exact if_pos hx
  rw [collection, Act.wp_onPart]
  refine Act.wp_mono (CollectionInPages.createNew_spec
    (s := ⟨{ s.w.allocated b cfg.commited_block_size with assertsHold := v }, s.c.blocks⟩)
    (by decide) (by decide) (h.calls_mono fun x hx => (hgrow x).1 hx)) ?_ ?_
  · rintro a ⟨w, d⟩ ⟨pages, free, hcoll, ha, hheap, hw⟩
    refine ⟨pages, free, rfl, hcoll, ha, hheap, hf, ?_, ?_, ?_, ?_⟩
    · intro x hx
      rcases hw with ⟨-, hw, -⟩ | ⟨-, p, hm, hw, -⟩
      · rw [hw]
        exact hkeep x hx
      · rw [hw]
        have hx' := (hgrow x).2 hx
        have := Unchanged.allocated (w := { s.w.allocated b cfg.commited_block_size with assertsHold := v })
          (os.fresh hm) (fun x hx => hx) x hx'
        exact ⟨this.1.trans (hkeep x hx).1, this.2.trans (hkeep x hx).2⟩
    · intro x hx
      rcases hw with ⟨-, hw, -⟩ | ⟨-, p, hm, hw, -⟩
      · rw [hw]
        exact hnew x hx
      · rw [hw]
        exact (Grows.allocated (w := { s.w.allocated b cfg.commited_block_size with assertsHold := v })
          (os.fresh hm) x).1 (hnew x hx)
    · intro x hx
      have hblock : Mapped (s.w.allocated b cfg.commited_block_size).calls x →
          Mapped s.w.calls x ∨ Within b cfg.commited_block_size x := fun hx => by
        simp only [World.allocated, Mapped, pageState] at hx
        split_ifs at hx with hw
        · exact Or.inr hw
        · exact Or.inl hx
      rcases hw with ⟨-, hw, -⟩ | ⟨-, p, -, hw, rfl⟩
      · rw [hw] at hx
        exact (hblock hx).imp_right Or.inl
      · rw [hw] at hx
        simp only [World.allocated, Mapped, pageState] at hx
        by_cases hp : Within p 4096 x
        · exact Or.inr (Or.inr ⟨p, List.mem_cons_self, hp⟩)
        · rw [if_neg hp] at hx
          exact (hblock hx).imp_right Or.inl
    · rcases hw with ⟨-, -, hp⟩ | ⟨-, p, hm, -, hp⟩
      · exact Or.inl hp
      · exact Or.inr ⟨p, hp, os.fresh hm⟩
  · rintro ⟨w, d⟩ ⟨hm, hw, hcoll, hheap, hfree⟩
    refine ⟨rfl, hcoll, hheap, ?_, ?_, hfree, hm⟩
    · rw [hw]
      rfl
    · rw [hw]
      rfl

/-- From `s` to `t` a block was obtained at `b`, with the item `a` of the
collection, and its header says that it is one free chunk. -/
structure NewBlock (cfg : BulkCfg) (g : BulkGhost) (s : St BulkAllocator) (b a : ℕ) (pages free : List ℕ)
    (t : St BulkAllocator) : Prop where
  mapped : BlockMapped cfg g s.w b pages t.w
  coll : CollectionInPages.CollInv blockItemSize t.w.calls t.c.blocks pages (a :: g.used) free
  item : (t.c.blocks.heap a).item = b
  items : ∀ x ∈ g.used, (t.c.blocks.heap x).item = (s.c.blocks.heap x).item
  idle : t.c.base.Idle
  begin : t.c.freeListBegin = fun j => if j = cfg.max_pages then b else s.c.freeListBegin j
  word0 : t.w.mem b = cfg.pagesPerAllocatedBlock
  word8 : t.w.mem (b + 8) = 1
  prevFree : t.w.mem (b + 16) = 0
  nextFree : t.w.mem (b + 24) = 0

/-- From `s` to `t` no block was obtained: it was refused, or the page that the
collection needs for its item. -/
inductive NoBlock (cfg : BulkCfg) (os : Os) (g : BulkGhost) (s t : St BulkAllocator) : Prop where
  | refused (hm : os.mmap s.w.calls cfg.commited_block_size = none) (hidle : t.c.base.Idle)
    (hc : t.c = { s.c with base := t.c.base }) (hw : t.w = s.w.refused cfg.commited_block_size)
  | lost (b : ℕ) (hm : os.mmap s.w.calls cfg.commited_block_size = some b) (hidle : t.c.base.Idle)
    (hbegin : t.c.freeListBegin = s.c.freeListBegin)
    (hcoll : CollectionInPages.CollInv blockItemSize t.w.calls t.c.blocks g.pages g.used g.free)
    (hheap : t.c.blocks.heap = s.c.blocks.heap)
    (hcalls : t.w.calls = .refused 4096 :: (s.w.allocated b cfg.commited_block_size).calls)
    (hmem : t.w.mem = (s.w.allocated b cfg.commited_block_size).mem) (hfree : s.c.blocks.freeList = 0)
    (hnone : os.mmap (s.w.allocated b cfg.commited_block_size).calls 4096 = none)

theorem newBlock_done (os : Os) (hcfg : Fits cfg)
    (hcoll : CollectionInPages.CollInv blockItemSize s.w.calls s.c.blocks g.pages g.used g.free)
    (hidle : s.c.base.Idle) :
    Act.wp (newBlock cfg os) (fun _ t => ∃ b a pages free, NewBlock cfg g s b a pages free t)
      (fun t => NoBlock cfg os g s t) s := by
  have hmax := hcfg.max_lt
  have hlt := hcfg.pages_lt
  have hsize := BulkCfg.size_eq cfg
  unfold newBlock
  rw [Act.wp_bind, super, Act.wp_onPart]
  refine Act.wp_mono (PageAllocatorWithCaching.getFreeBlockNoCache_spec os (s := ⟨s.w, s.c.base⟩)
    hidle (Fits.size_dvd cfg)) ?_ ?_
  swap
  · intro t ht
    obtain ⟨hm, hw, hidle⟩ := ht
    exact .refused hm hidle rfl hw
  rintro b ⟨w₁, c₁⟩ ⟨hm, hw₁, hidle⟩
  have hf := os.fresh hm
  simp only at hw₁ hidle
  subst hw₁
  rw [Act.wp_bind, Act.wp_assert, Act.wp_bind]
  refine Act.wp_mono (newItem_spec os hcoll hf) ?_ ?_
  swap
  · -- the block stays mapped, and is lost
    intro t ht
    obtain ⟨hc, hcoll, hheap, hcalls, hmem, hfree, hnone⟩ := ht
    exact .lost b hm (by rw [hc]; exact hidle) (by rw [hc]) hcoll hheap hcalls hmem hfree hnone
  intro a t ht
  obtain ⟨pages, free, hc, hcoll, ha, hheap, hBM⟩ := ht
  have hword : ∀ {x}, Within a blockItemSize x → pageState t.w.calls x = .committed := fun hx =>
    hcoll.committed (by decide) (by simp) hx
  have hpm : CollectionInPages.PageMapped t.w.calls b := by
    refine ⟨hf.aligned, hf.pos, fun x hx => hBM.committed x ⟨hx.1, ?_⟩⟩
    have := hx.2
    omega
  unfold CollectionInPages.derefItem
  rw [Act.wp_bind, Act.wp_bind, Act.wp_deref, Act.wp_deref, Act.wp_bind, Act.wp_onSelf, Act.wp_bind,
    wp_setFreeList, Act.wp_bind, show u16 cfg.pagesPerAllocatedBlock = cfg.pagesPerAllocatedBlock from
      u16_of_lt (by omega)]
  refine ⟨hword ⟨le_rfl, by unfold blockItemSize; omega⟩,
    hword ⟨by omega, by unfold blockItemSize; omega⟩, le_rfl, ?_⟩
  refine set_spec (C := BulkAllocator) (s := ⟨t.w, ⟨t.c.base, CollectionInPages.setItem a (fun _ => b) t.c.blocks,
    fun j => if j = cfg.max_pages then b else t.c.freeListBegin j⟩⟩) hpm
    (show 0 + cfg.pagesPerAllocatedBlock < 2 ^ 64 by omega) (show 0 + 1 < 2 ^ 64 by norm_num) fun v mem hmem h0 h8 => ?_
  rw [Act.wp_bind, storeNextFree, Act.wp_storeWord, storePrevFree, Act.wp_storeWord]
  refine ⟨hpm.word (by omega), hpm.word (by omega), b, a, pages, free, ?_⟩
  simp only at hmem h0 h8
  have hmemu : ∀ x, ¬ Within b cfg.commited_block_size x →
      store (store mem (b + 24) 0) (b + 16) 0 x = t.w.mem x := fun x hx => by
    unfold Within at hx
    rw [store_ne (by omega), store_ne (by omega), hmem x (by omega) (by omega)]
  refine
    { mapped := ⟨hf, fun x hx => ?_, hBM.committed, hBM.cover, hBM.pages⟩
      coll := hcoll.setItem a fun _ => b
      item := by simp [CollectionInPages.setItem]
      items := fun x hx => ?_
      idle := ?_
      begin := by rw [hc]
      word0 := ?_
      word8 := ?_
      prevFree := store_self _ _ _
      nextFree := ?_ }
  · obtain ⟨h1, h2⟩ := hBM.keep x hx
    exact ⟨h1, (hmemu x fun hw => hx (hf.unmapped x hw)).trans h2⟩
  · simp only [CollectionInPages.setItem]
    rw [if_neg (ne_of_mem_of_not_mem hx ha), hheap x hx]
  · rw [hc]
    exact hidle
  · show store (store mem _ _) _ _ b = _
    rw [store_ne (by omega), store_ne (by omega), h0, Nat.zero_add]
  · show store (store mem _ _) _ _ (b + 8) = _
    rw [store_ne (by omega), store_ne (by omega), h8]
    rfl
  · show store (store mem _ _) _ _ (b + 24) = _
    rw [store_ne (by omega), store_self]

theorem newBlock_spec (os : Os) (h : BulkInv cfg s g live) (hcfg : Fits cfg)
    (hnone : s.c.freeListBegin cfg.max_pages = 0) :
    Act.wp (newBlock cfg os)
      (fun _ t => ∃ b g', Opened cfg g live b g' ∧ BulkInv cfg t g' live ∧
        BulkStep cfg g live g' live s.w t.w ∧ t.c.freeListBegin cfg.max_pages ≠ 0)
      (fun t => Threw cfg (LosesBlock cfg os s) s g live t) s := by
  refine Act.wp_mono (newBlock_done os hcfg h.coll h.idle) ?_ ?_
  · intro _ t ht
    obtain ⟨b, a, pages, free, hN⟩ := ht
    have hitems : (a :: g.used).map (fun x => (t.c.blocks.heap x).item) = b :: g.blocks := by
      rw [List.map_cons, hN.item, ← h.items]
      exact congrArg _ (List.map_congr_left hN.items)
    obtain ⟨g', ho, hI, hS⟩ := h.opened hcfg hnone hN.mapped hN.coll hitems hN.idle hN.begin hN.word0 hN.word8
      hN.prevFree hN.nextFree
    refine ⟨b, g', ho, hI, hS, ?_⟩
    rw [hN.begin]
    simp only [if_true]
    exact hN.mapped.fresh.pos.ne'
  · intro t ht
    cases ht with
    | refused hm hidle hc hw =>
      refine h.refused (fun hl => ?_) hc hidle hw
      obtain ⟨-, b, hb, -⟩ := hl
      cases hb.symm.trans hm
    | lost b hm hidle hbegin hcoll hheap hcalls hmem hfree hnone =>
      have hf := os.fresh hm
      have hkeep : Unchanged (Mapped s.w.calls) s.w t.w := fun x hx => by
        rw [hcalls, hmem]
        exact Unchanged.allocated hf (fun x hx => hx) x hx
      have hown : ∀ x, g.Owned cfg live x → Mapped s.w.calls x := fun x hx => h.owned_mapped hx
      refine ⟨h.transport hbegin hcoll hheap hidle (fun x hx => (hkeep x (hown x hx)).1)
        fun x hx => (hkeep x (hown x (h.word_owned hx))).2, hkeep, ⟨hbegin, ?_, ?_, ?_, hheap⟩,
        .lost b ⟨hfree, b, hm, hnone⟩ hf hcalls⟩
      -- the lists of the collection start where its items say
      · rw [hcoll.head.start, h.coll.head.start]
      · rw [hcoll.freeList.start, h.coll.freeList.start]
      · rw [hcoll.pageCnt, h.coll.pageCnt]

/-! ### A region of its own -/

theorem regions_large (hk : cfg.max_pages < pageCountOf sz) : (g.regions cfg ((a, sz) :: live)).Perm
    ((a, chunkBytes sz) :: g.regions cfg live) := by
  unfold BulkGhost.regions BulkGhost.large
  rw [List.filter_cons_of_pos (by simpa using hk), List.map_cons]
  refine (List.Perm.append_left _ List.perm_middle).trans List.perm_middle

/-- A region that was not mapped before is given to the client with a header. -/
theorem BulkInv.large_given (h : BulkInv cfg t g live) (hsz : 0 < sz ∧ sz ≤ 2 ^ 64 - 4096)
    (hk : cfg.max_pages < pageCountOf sz) {calls : List OsCall} {p : ℕ} (hf : FreshRegion calls p (chunkBytes sz))
    (hold : ∀ x, g.Owned cfg live x → Mapped calls x)
    (hnew : ∀ x, Within p (chunkBytes sz) x → pageState t.w.calls x = .committed)
    (hheader : t.w.mem p = chunkBytes sz ∧ t.w.mem (p + 8) = 0) : BulkInv cfg t g ((p, sz) :: live) := by
  have hself : ¬ g.Owned cfg live p := fun ho =>
    hold p ho (hf.unmapped p ⟨le_rfl, by unfold chunkBytes; omega⟩)
  refine
    { h with
      free := fun i hi a => ?_, sizes := fun e he => ?_, small := fun e he hl => ?_, large := fun e he hl => ?_
      nodup := ?_, apart := ?_, mapped := fun x hx => ?_ }
  · rw [h.free i hi a, List.map_cons]
    refine exists_congr fun k' => and_congr_right fun ha => and_congr_right fun _ => ?_
    rw [List.mem_cons, not_or]
    exact (and_iff_right fun hap : a = p => hself (hap ▸ h.isChunk_owned ha)).symm
  · rcases List.mem_cons.mp he with rfl | he
    · exact hsz
    · exact h.sizes e he
  · rcases List.mem_cons.mp he with rfl | he
    · exact absurd hk (Nat.not_lt.mpr hl)
    · exact h.small e he hl
  · rcases List.mem_cons.mp he with rfl | he
    · exact ⟨hf.aligned, hheader⟩
    · exact h.large e he hl
  · rw [List.map_cons]
    exact List.nodup_cons.mpr ⟨fun hp => hself (h.live_owned hp), h.nodup⟩
  · exact (regions_large hk).symm.pairwise (pairwise_fresh h.apart
      (fun r hr x hx => hold x ⟨r, hr, hx⟩) hf) fun hab => Std.Symm.symm _ _ hab
  · obtain ⟨r, hr, hx⟩ := hx
    rcases List.mem_cons.mp ((regions_large hk).mem_iff.mp hr) with rfl | hr
    · exact hnew x hx
    · exact h.mapped x ⟨r, hr, hx⟩

theorem allocateLarge_spec (os : Os) (h : BulkInv cfg s g live) (hsz : 0 < sz ∧ sz ≤ 2 ^ 64 - 4096)
    (hk : cfg.max_pages < pageCountOf sz) :
    Act.wp (allocateLarge cfg os (pageCountOf sz))
      (fun p t => BulkInv cfg t g ((p, sz) :: live) ∧ BulkStep cfg g live g ((p, sz) :: live) s.w t.w ∧
        Unchanged (Mapped s.w.calls) s.w t.w)
      (fun t => Threw cfg False s g live t) s := by
  obtain ⟨-, hbytes, -⟩ := pageCountOf_bytes hsz.1 hsz.2
  have hpage : 4096 ≤ chunkBytes sz := by unfold chunkBytes; omega
  have hdvd : 4096 ∣ chunkBytes sz := ⟨(sz + 4095) / 4096, Nat.mul_comm _ _⟩
  unfold allocateLarge
  rw [hbytes, Act.wp_bind, super, Act.wp_onPart]
  refine Act.wp_mono (PageAllocatorWithCaching.getFreeBlockNoCache_spec os (s := ⟨s.w, s.c.base⟩)
    h.idle hdvd) ?_ ?_
  swap
  · intro t ht
    obtain ⟨-, hw, hidle⟩ := ht
    exact h.refused id rfl hidle hw
  rintro p ⟨w, c⟩ ⟨hm, hw, hidle⟩
  have hf : FreshRegion s.w.calls p (chunkBytes sz) := os.fresh hm
  simp only at hw hidle
  subst hw
  have hnew : ∀ x, Within p (chunkBytes sz) x → pageState (s.w.allocated p (chunkBytes sz)).calls x = .committed :=
    fun x hx => by
      simp only [World.allocated, pageState]
      exact if_pos hx
  have hpm : CollectionInPages.PageMapped (s.w.allocated p (chunkBytes sz)).calls p :=
    ⟨hf.aligned, hf.pos, fun x hx => hnew x ⟨hx.1, by have := hx.2; omega⟩⟩
  have hlt := hf.lt
  rw [Act.wp_bind]
  refine set_spec (C := BulkAllocator) (s := ⟨_, { s.c with base := c }⟩) hpm
    (show chunkBytes sz + 0 < 2 ^ 64 by omega) (show 0 + 1 < 2 ^ 64 by norm_num) fun v mem hmem h0 h8 => ?_
  rw [Act.wp_bind, Act.wp_assertThat, Act.wp_pure]
  simp only at hmem
  have hkeep : ∀ x, Mapped s.w.calls x → pageState (s.w.allocated p (chunkBytes sz)).calls x =
      pageState s.w.calls x ∧ mem x = s.w.mem x := fun x hx => by
    have hout : ¬ Within p (chunkBytes sz) x := fun hw => hx (hf.unmapped x hw)
    obtain ⟨h1, h2⟩ := Unchanged.allocated hf (fun x hx => hx) x hx
    unfold Within at hout
    exact ⟨h1, (hmem x (by omega) (by omega)).trans h2⟩
  have hown : ∀ x, g.Owned cfg ((p, sz) :: live) x → Within p (chunkBytes sz) x ∨ g.Owned cfg live x := by
    intro x hx
    obtain ⟨r, hr, hx⟩ := hx
    rcases List.mem_cons.mp ((regions_large hk).mem_iff.mp hr) with rfl | hr
    · exact Or.inl hx
    · exact Or.inr ⟨r, hr, hx⟩
  obtain ⟨u, hu⟩ : ∃ u : St BulkAllocator, u = ⟨⟨(s.w.allocated p (chunkBytes sz)).calls, mem,
      v && decide (getPageCount mem p = 0)⟩, { s.c with base := c }⟩ := ⟨_, rfl⟩
  have hI : BulkInv cfg u g live := h.unchanged (by rw [hu]) (by rw [hu]; exact hidle) fun x hx => by
    rw [hu]
    exact hkeep x (h.owned_mapped hx)
  have hheader : u.w.mem p = chunkBytes sz ∧ u.w.mem (p + 8) = 0 := by
    rw [hu]
    exact ⟨h0.trans (Nat.add_zero _), h8.trans rfl⟩
  have hI' := hI.large_given hsz hk hf (fun x hx => h.owned_mapped hx) (fun x hx => by rw [hu]; exact hnew x hx) hheader
  rw [hu] at hI'
  refine ⟨hI', ⟨fun x hx => hkeep x hx.1, fun x hx => ?_, fun x hx => ?_⟩, hkeep⟩
  · exact (hown x hx).elim (fun hw => Or.inr fun hm => hm (hf.unmapped x hw)) Or.inl
  · have hreg : (g.regions cfg ((p, sz) :: live)).Perm ((p, chunkBytes sz) :: g.regions cfg live) := regions_large hk
    by_cases hw : Within p (chunkBytes sz) x
    · exact Or.inl ⟨_, hreg.mem_iff.mpr List.mem_cons_self, hw⟩
    · simp only [Mapped, pageState, if_neg hw] at hx
      refine or_iff_not_imp_left.mpr fun ho => ⟨hx, fun hr => ho ?_⟩
      exact hr.imp fun r hr => ⟨hreg.mem_iff.mpr (List.mem_cons_of_mem _ hr.1), hr.2⟩

/-! ### allocate -/

/-- `g'` is `g` with the first `k` pages of the last chunk of a block cut off,
at `p`. -/
structure CutFrom (cfg : BulkCfg) (g : BulkGhost) (live : List (ℕ × ℕ)) (k b : ℕ) (l : List Chunk) (c : Chunk)
    (g' : BulkGhost) : Prop where
  block : b ∈ g.blocks
  last : g.chunks b = l ++ [c]
  pages : k < c.pages
  free : c.addr ∉ live.map Prod.fst
  ghost : g' = g.cut cfg b l c k

/-- What became of the chunks where `allocate` returned `p` for `k` pages. -/
inductive Allocated (cfg : BulkCfg) (g : BulkGhost) (live : List (ℕ × ℕ)) (p k : ℕ) (g' : BulkGhost) : Prop where
  /-- a chunk of that size left its list -/
  | exact (hk : k ≤ cfg.max_pages) (hl : p ∈ g.lists (k - 1)) (hg : g' = g.take (k - 1) p)
  /-- it was cut off the last chunk of a block, of a new one maybe -/
  | cut (hk : k ≤ cfg.max_pages) (g₁ : BulkGhost) (b : ℕ) (l : List Chunk) (c : Chunk)
    (hopen : g₁ = g ∨ ∃ b, Opened cfg g live b g₁) (hp : c.addr = p) (hcut : CutFrom cfg g₁ live k b l c g')
  /-- a region was obtained -/
  | large (hk : cfg.max_pages < k) (hg : g' = g)

/-- The assertions are no part of the invariant. -/
theorem BulkInv.asserted (h : BulkInv cfg s g live) (v : Bool) :
    BulkInv cfg ⟨{ s.w with assertsHold := v }, s.c⟩ g live :=
  h.unchanged rfl h.idle fun _ _ => ⟨rfl, rfl⟩

/-- `split`, where the last list has a chunk. -/
theorem split_spec (h : BulkInv cfg s g live) (hcfg : Fits cfg) (hsz : 0 < sz ∧ sz ≤ 2 ^ 64 - 4096)
    (hk : pageCountOf sz ≤ cfg.max_pages) (hfirst : s.c.freeListBegin cfg.max_pages ≠ 0) :
    Act.wp (split cfg (pageCountOf sz))
      (fun p t => ∃ b l c g', c.addr = p ∧ CutFrom cfg g live (pageCountOf sz) b l c g' ∧
        BulkInv cfg t g' ((p, sz) :: live) ∧ BulkStep cfg g live g' ((p, sz) :: live) s.w t.w)
      (fun _ => False) s := by
  obtain ⟨b, hb, l, c, hl, hfc, hck, hout⟩ := h.first_large hcfg hfirst
  have hpos := (pageCountOf_bytes hsz.1 hsz.2).1
  refine Act.wp_mono (split_words h hcfg hb hl hfc hpos hk hck) ?_ fun _ ht => ht
  intro p t ht
  obtain ⟨rfl, hC⟩ := ht
  have hc : c ∈ g.chunks b := by
    rw [hl]
    exact List.mem_append_right l (List.mem_singleton_self c)
  refine ⟨b, l, c, _, rfl, ⟨hb, hl, by omega, hout, rfl⟩, h.cut hb hl hfc hsz hk hck hC,
    BulkStep.of_edits hC.edits ?_ ?_⟩
  · rintro x (hw | hw)
    · obtain ⟨-, b', hb', hw⟩ := h.freeWord_within hw
      exact BulkInv.block_owned hb' hw
    · exact BulkInv.block_owned hb (h.chunk_within hb hc hw)
  · exact fun x => BulkGhost.owned_iff rfl rfl (large_cons_small hk)

theorem cut_spec (os : Os) (h : BulkInv cfg s g live) (hcfg : Fits cfg) (hsz : 0 < sz ∧ sz ≤ 2 ^ 64 - 4096)
    (hk : pageCountOf sz ≤ cfg.max_pages) :
    Act.wp (BulkAllocator.cut cfg os (pageCountOf sz))
      (fun p t => ∃ g', BulkInv cfg t g' ((p, sz) :: live) ∧ BulkStep cfg g live g' ((p, sz) :: live) s.w t.w ∧
        Allocated cfg g live p (pageCountOf sz) g')
      (fun t => s.c.freeListBegin cfg.max_pages = 0 ∧ Threw cfg (LosesBlock cfg os s) s g live t) s := by
  unfold BulkAllocator.cut
  rw [Act.wp_bind, wp_freeListAt, Act.wp_bind, Act.wp_when]
  refine ⟨le_rfl, fun hnone => ?_, fun hsome => ?_⟩
  · refine Act.wp_mono (newBlock_spec os h hcfg hnone) ?_ fun t ht => ⟨hnone, ht⟩
    rintro - t ⟨b, g₁, ho, hI, hS, hfirst⟩
    refine Act.wp_mono (split_spec hI hcfg hsz hk hfirst) ?_ fun _ ht => ht.elim
    intro p u hu
    obtain ⟨b', l, c, g', hp, hC, hI', hS'⟩ := hu
    exact ⟨g', hI', hS.trans hS', .cut hk g₁ b' l c (Or.inr ⟨b, ho⟩) hp hC⟩
  · refine Act.wp_mono (split_spec h hcfg hsz hk hsome) ?_ fun _ ht => ht.elim
    intro p u hu
    obtain ⟨b', l, c, g', hp, hC, hI', hS'⟩ := hu
    exact ⟨g', hI', hS', .cut hk g b' l c (Or.inl rfl) hp hC⟩

/-- A request whose page count is zero: the index is outside `freeListBegin`. -/
theorem allocate_stuck (os : Os) (h : pageCountOf sz = 0) : Act.exec (allocate cfg os sz) s = .stuck := by
  have hmax := cfg.max_pages_lt
  rw [PAGE_SIZE_eq] at hmax
  unfold allocate
  rw [h, if_pos (Nat.zero_le _), Act.exec_bind (Act.exec_assert (decide_eq_true (Nat.zero_le _)))]
  refine Act.exec_bind_stuck (Act.exec_bind_stuck (Act.exec_need_not (decide_eq_false ?_)))
  unfold u64
  omega

/-- The call is for a new block, which is lost. -/
def Loses (cfg : BulkCfg) (os : Os) (s : St BulkAllocator) (sz : ℕ) : Prop :=
  pageCountOf sz ≤ cfg.max_pages ∧ s.c.freeListBegin (pageCountOf sz - 1) = 0 ∧
    s.c.freeListBegin cfg.max_pages = 0 ∧ LosesBlock cfg os s

/-- `allocate` keeps the invariant, also where it throws. -/
theorem allocate_spec (os : Os) (h : BulkInv cfg s g live) (hcfg : Fits cfg)
    (hsz : 0 < sz ∧ sz ≤ 2 ^ 64 - 4096) :
    Act.wp (allocate cfg os sz)
      (fun p t => ∃ g', BulkInv cfg t g' ((p, sz) :: live) ∧
        BulkStep cfg g live g' ((p, sz) :: live) s.w t.w ∧ Allocated cfg g live p (pageCountOf sz) g')
      (fun t => Threw cfg (Loses cfg os s sz) s g live t) s := by
  have hpos := (pageCountOf_bytes hsz.1 hsz.2).1
  unfold allocate
  rw [Act.wp_ite]
  refine ⟨fun hk => ?_, fun hk => ?_⟩
  swap
  · refine Act.wp_mono (allocateLarge_spec os h hsz (by omega)) ?_ fun t ht => ?_
    · intro p t ht
      obtain ⟨hI, hS, -⟩ := ht
      exact ⟨g, hI, hS, .large (by omega) rfl⟩
    · exact Threw.imp (v := s.w.assertsHold) ht (iff_of_false id fun hl => hk hl.1)
  have hidx : u64 (pageCountOf sz + (2 ^ 64 - 1)) = pageCountOf sz - 1 := by
    have := hcfg.max_lt
    have := hcfg.pages_lt
    unfold u64
    omega
  rw [Act.wp_bind, Act.wp_assert, Act.wp_bind, wp_freeListAt, hidx, Act.wp_bind]
  refine ⟨by omega, Act.wp_mono (Q := fun p t => ∃ g', BulkInv cfg t g' ((p, sz) :: live) ∧
    BulkStep cfg g live g' ((p, sz) :: live) s.w t.w ∧ Allocated cfg g live p (pageCountOf sz) g') ?_ ?_
    fun _ ht => ht⟩
  · have hI := h.asserted (s.w.assertsHold && decide (pageCountOf sz ≤ 2 ^ 16 - 1))
    rw [Act.wp_ite]
    refine ⟨fun hnone => ?_, fun hsome => ?_⟩
    · refine Act.wp_mono (cut_spec os hI hcfg hsz hk) ?_ fun t ht => ?_
      · intro p t ht
        obtain ⟨g', hI', hS, hA⟩ := ht
        exact ⟨g', hI', ⟨hS.frame, hS.fresh, hS.cover⟩, hA⟩
      · exact ht.2.imp ⟨fun hl => ⟨hk, hnone, ht.1, hl⟩, fun hl => hl.2.2.2⟩
    refine Act.wp_mono (popExact_spec hI hcfg hsz hk rfl hsome) ?_ fun _ ht => ht.elim
    intro p t ht
    obtain ⟨rfl, hI', hal, hE⟩ := ht
    refine ⟨_, hI', BulkStep.of_edits (s := s) ⟨hE.calls, hE.base, hE.blocks, hE.mem⟩ ?_ ?_, .exact hk hal rfl⟩
    · intro x hw
      obtain ⟨-, b', hb', hw⟩ := h.freeWord_within hw
      exact BulkInv.block_owned hb' hw
    · exact fun x => BulkGhost.owned_iff rfl rfl (large_cons_small hk)
  · intro p t ht
    obtain ⟨g', hI', hS, hA⟩ := ht
    rw [Act.wp_bind, Act.wp_assertThat, Act.wp_pure]
    exact ⟨g', hI'.asserted _, ⟨hS.frame, hS.fresh, hS.cover⟩, hA⟩

end BulkAllocator

end IibMalloc

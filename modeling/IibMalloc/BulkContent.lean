/-
# BulkAllocator: what the client has written

A call changes no word of a chunk that the client holds before and after it,
behind the header: it writes headers, links of chunks that are free, the chunk
that it is given, and regions that were not mapped.

The words that the invariant speaks of are at multiples of eight, and hold
numbers of 64 bits (`BulkInv.word`).
-/
import IibMalloc.BulkRuns

namespace IibMalloc

open Lib AnyChunkHeader

namespace BulkAllocator

variable {cfg : BulkCfg} {s t : St BulkAllocator} {g : BulkGhost} {live : List (ℕ × ℕ)} {b p sz a x : ℕ}
  {l : List Chunk} {c : Chunk}

/-- From `w` to `w'` no word of the client changed. -/
def Kept (live : List (ℕ × ℕ)) (w w' : World) : Prop := ∀ a, Writable live a → w'.mem a = w.mem a

namespace BulkInv

theorem writable_owned (h : BulkInv cfg s g live) (hcfg : Fits cfg) (ha : Writable live a) : g.Owned cfg live a := by
  obtain ⟨-, e, he, h1, h2⟩ := ha
  exact h.live_bytes_owned hcfg he ⟨by omega, by omega⟩

/-- What only touches regions that were not mapped. -/
theorem kept_of_mapped (h : BulkInv cfg s g live) (hcfg : Fits cfg) (hw : Unchanged (Mapped s.w.calls) s.w t.w) :
    Kept live s.w t.w := fun _ ha => (hw _ (h.owned_mapped (h.writable_owned hcfg ha))).2

/-- What only writes links of free chunks. -/
theorem writable_not_free (h : BulkInv cfg s g live) (hcfg : Fits cfg) (ha : Writable live a) :
    ¬ FreeWord cfg g.lists a := fun hf => h.writable_not_word hcfg ha (Or.inr (Or.inl hf))

/-- The client has no word in a chunk that it does not hold. -/
theorem writable_not_chunk (h : BulkInv cfg s g live) (hcfg : Fits cfg) (ha : Writable live a) (hb : b ∈ g.blocks)
    (hc : c ∈ g.chunks b) (hout : c.addr ∉ live.map Prod.fst) : ¬ (c.addr ≤ a ∧ a < c.stop) := by
  intro hin
  obtain ⟨-, e, he, h1, h2⟩ := ha
  exact hout (h.chunk_live hcfg he hb hc ⟨by omega, by omega⟩ hin ▸ List.mem_map_of_mem he)

/-- Nor, after it gave the chunk back, a word of its header or its links. -/
theorem writable_release (h : BulkInv cfg s g live) (hcfg : Fits cfg) (he : (p, sz) ∈ live) {k : ℕ} (hk : k < 32)
    (ha : Writable (release p live) a) : a ≠ p + k := by
  rintro rfl
  obtain ⟨-, e, her, h1, h2⟩ := ha
  obtain ⟨he', hne⟩ := (mem_release h.nodup).mp her
  have hin : Within p (chunkBytes sz) (p + k) := h.large_header he (by omega)
  exact hne (h.live_unique hcfg he' he ⟨by omega, by omega⟩ hin)

end BulkInv

theorem Writable.of_release (ha : Writable (release p live) a) : Writable live a := by
  obtain ⟨h8, e, he, h1, h2⟩ := ha
  exact ⟨h8, e, List.mem_of_mem_eraseP he, h1, h2⟩

/-! ### allocate -/

theorem split_keeps (h : BulkInv cfg s g live) (hcfg : Fits cfg) (hsz : 0 < sz ∧ sz ≤ 2 ^ 64 - 4096)
    (hk : pageCountOf sz ≤ cfg.max_pages) (hfirst : s.c.freeListBegin cfg.max_pages ≠ 0) :
    Act.wp (split cfg (pageCountOf sz)) (fun _ t => Kept live s.w t.w) (fun _ => False) s := by
  obtain ⟨b, hb, l, c, hl, hfc, hck, hout⟩ := h.first_large hcfg hfirst
  refine Act.wp_mono (split_words h hcfg hb hl hfc (pageCountOf_bytes hsz.1 hsz.2).1 hk hck) ?_ fun _ ht => ht
  intro p t ht a ha
  have hc : c ∈ g.chunks b := by
    rw [hl]
    exact List.mem_append_right l (List.mem_singleton_self c)
  exact ht.2.edits.mem a fun hw => hw.elim (h.writable_not_free hcfg ha) (h.writable_not_chunk hcfg ha hb hc hout)

theorem newBlock_keeps (os : Os) (h : BulkInv cfg s g live) (hcfg : Fits cfg) :
    Act.wp (newBlock cfg os) (fun _ t => Kept live s.w t.w) (fun _ => True) s := by
  refine Act.wp_mono (newBlock_done os hcfg h.coll h.idle) ?_ fun _ _ => trivial
  rintro - t ⟨b, a, pages, free, hN⟩
  exact h.kept_of_mapped hcfg hN.mapped.keep

theorem cut_keeps (os : Os) (h : BulkInv cfg s g live) (hcfg : Fits cfg) (hsz : 0 < sz ∧ sz ≤ 2 ^ 64 - 4096)
    (hk : pageCountOf sz ≤ cfg.max_pages) :
    Act.wp (BulkAllocator.cut cfg os (pageCountOf sz)) (fun _ t => Kept live s.w t.w) (fun _ => True) s := by
  unfold BulkAllocator.cut
  rw [Act.wp_bind, wp_freeListAt, Act.wp_bind, Act.wp_when]
  refine ⟨le_rfl, fun hnone => ?_, fun hsome => ?_⟩
  · refine Act.wp_mono (Act.wp_exec (newBlock_spec os h hcfg hnone)) ?_ fun _ _ => trivial
    rintro _ t ⟨⟨b, g₁, -, hI, -, hfirst⟩, hx⟩
    have h₁ := Act.exec_ret (newBlock_keeps os h hcfg) hx
    refine Act.wp_mono (split_keeps hI hcfg hsz hk hfirst) ?_ fun _ ht => ht.elim
    exact fun _ _ h₂ a ha => (h₂ a ha).trans (h₁ a ha)
  · exact Act.wp_mono (split_keeps h hcfg hsz hk hsome) (fun _ _ ht => ht) fun _ ht => ht.elim

theorem allocate_keeps (os : Os) (h : BulkInv cfg s g live) (hcfg : Fits cfg) (hsz : 0 < sz ∧ sz ≤ 2 ^ 64 - 4096) :
    Act.wp (allocate cfg os sz) (fun _ t => Kept live s.w t.w) (fun _ => True) s := by
  have hpos := (pageCountOf_bytes hsz.1 hsz.2).1
  unfold allocate
  rw [Act.wp_ite]
  refine ⟨fun hk => ?_, fun hk => ?_⟩
  swap
  · exact Act.wp_mono (allocateLarge_spec os h hsz (by omega)) (fun _ _ ht => h.kept_of_mapped hcfg ht.2.2)
      fun _ _ => trivial
  have hidx : u64 (pageCountOf sz + (2 ^ 64 - 1)) = pageCountOf sz - 1 := by
    have := hcfg.max_lt
    have := hcfg.pages_lt
    unfold u64
    omega
  have hI := h.asserted (s.w.assertsHold && decide (pageCountOf sz ≤ 2 ^ 16 - 1))
  rw [Act.wp_bind, Act.wp_assert, Act.wp_bind, wp_freeListAt, hidx, Act.wp_bind]
  have hbody : ∀ {x : Act (St BulkAllocator) ℕ} {u : St BulkAllocator}, Act.wp x (fun _ t => Kept live s.w t.w)
      (fun _ => True) u → Act.wp x (fun p t => Act.wp (do
        Act.assertThat fun s => decide (getPageCount s.w.mem p ≤ cfg.max_pages)
        return p) (fun _ t => Kept live s.w t.w) (fun _ => True) t) (fun _ => True) u := fun hx => by
    refine Act.wp_mono hx (fun p t ht => ?_) fun _ ht => ht
    rw [Act.wp_bind, Act.wp_assertThat, Act.wp_pure]
    exact ht
  refine ⟨by omega, hbody ?_⟩
  rw [Act.wp_ite]
  refine ⟨fun _ => cut_keeps os hI hcfg hsz hk, fun hsome => ?_⟩
  refine Act.wp_mono (popExact_spec hI hcfg hsz hk rfl hsome) ?_ fun _ ht => ht.elim
  exact fun _ _ ht a ha => ht.2.2.2.mem a (h.writable_not_free hcfg ha)

/-! ### deallocate -/

theorem deallocate_keeps (h : BulkInv cfg s g live) (hcfg : Fits cfg) (hp : (p, sz) ∈ live)
    (hm : ¬ MergesLive s.w.mem live p) :
    Act.wp (deallocate cfg p) (fun _ t => Kept (release p live) s.w t.w) (fun _ => False) s := by
  refine Act.wp_mono (deallocate_step h hcfg hp hm) ?_ fun _ hf => hf
  rintro - t ⟨g', -, -, -, hmem⟩ a ha
  exact hmem a (h.writable_not_free hcfg ha.of_release) fun k hk => h.writable_release hcfg hp hk ha

/-! ### The words of the invariant -/

theorem BlockInv.header_word {w : World} (h : BlockInv cfg w b l) (hcfg : Fits cfg) (hc : c ∈ l) :
    8 ∣ c.addr ∧ w.mem c.addr < 2 ^ 64 ∧ w.mem (c.addr + 8) < 2 ^ 64 := by
  obtain ⟨l₁, l₂, rfl⟩ := List.append_of_mem hc
  have hl := ((linked_append 0 l₁ (c :: l₂)).mp h.linked).2
  have hpages := h.pages_le hc
  have hmax := hcfg.pages_lt
  have hlt := h.lt
  obtain ⟨-, hprev⟩ := h.lastAddr_aligned
  obtain ⟨-, -, -, h4⟩ := h.chunk hc
  have hnext : headAddr l₂ 0 + 1 < 2 ^ 64 := by
    cases l₂ with
    | nil => norm_num [headAddr]
    | cons d l₂ =>
      obtain ⟨-, h2, h3, -⟩ := h.chunk (c := d) (by simp)
      unfold Chunk.stop at h2
      exact show d.addr + 1 < _ by omega
  have hflag := c.flag.toNat_le
  refine ⟨(by norm_num : 8 ∣ 4096).trans h4, ?_, ?_⟩
  · rw [hl.1]
    omega
  · rw [hl.2.1]
    omega

namespace BulkInv

/-- A chunk on a list, and its links. -/
theorem link_word (h : BulkInv cfg s g live) {i : ℕ} (hi : i ≤ cfg.max_pages) (ha : a ∈ g.lists i) :
    8 ∣ a ∧ nextFree s.w.mem a < 2 ^ 64 ∧ prevFree s.w.mem a < 2 ^ 64 := by
  have hlt : ∀ {d}, d ∈ g.lists i → 4096 ∣ d ∧ d < 2 ^ 64 := fun {d} hd => by
    obtain ⟨b, hb, c, hc, rfl, -⟩ := h.listed hi hd
    have hB := h.block b hb
    obtain ⟨-, h2, h3, h4⟩ := hB.chunk hc
    have hlt := hB.lt
    unfold Chunk.stop at h2
    exact ⟨h4, by omega⟩
  have hD := h.lists.dlist i hi
  refine ⟨(by norm_num : 8 ∣ 4096).trans (hlt ha).1, ?_, ?_⟩
  · rcases hD.toChain.next_mem a ha with hn | hn
    · exact (hlt hn).2
    · rw [hn]
      norm_num
  · by_cases hfirst : a = s.c.freeListBegin i
    · -- the first of the list has none before it
      cases hl : g.lists i with
      | nil =>
        rw [hl] at ha
        cases ha
      | cons d m =>
        rw [hl] at hD
        obtain ⟨hd, -, hprev, -⟩ := hD
        rw [hfirst, hd, hprev]
        norm_num
    · exact (hlt (hD.prev_mem a ha hfirst).1).2

/-- A word that the invariant speaks of. -/
theorem word (h : BulkInv cfg s g live) (hcfg : Fits cfg) (hx : BulkWord cfg g live x) : 8 ∣ x ∧ s.w.mem x < 2 ^ 64 := by
  rcases hx with ⟨b, hb, c, hc, rfl | rfl⟩ | ⟨i, hi, a, ha, rfl | rfl⟩ | ⟨e, he, hk, rfl | rfl⟩
  · obtain ⟨h8, h0, -⟩ := (h.block b hb).header_word hcfg hc
    exact ⟨h8, h0⟩
  · obtain ⟨h8, -, h1⟩ := (h.block b hb).header_word hcfg hc
    exact ⟨by omega, h1⟩
  · obtain ⟨h8, -, hp⟩ := h.link_word hi ha
    exact ⟨by omega, hp⟩
  · obtain ⟨h8, hn, -⟩ := h.link_word hi ha
    exact ⟨by omega, hn⟩
  · obtain ⟨hd, hv, -⟩ := h.large e he hk
    have hsz := (h.sizes e he).2
    rw [hv]
    unfold chunkBytes
    omega
  · obtain ⟨hd, -, hv⟩ := h.large e he hk
    rw [hv]
    omega

end BulkInv

/-! ### The end of a chunk -/

/-- A region of its own is what the operating system returned. -/
theorem allocateLarge_ret {os : Os} {k : ℕ} (hidle : s.c.base.Idle) (hk : 4096 ∣ u64 (k <<< PAGE_SIZE_EXP))
    (hx : Act.exec (allocateLarge cfg os k) s = .ret p t) : os.mmap s.w.calls (u64 (k <<< PAGE_SIZE_EXP)) = some p := by
  unfold allocateLarge at hx
  obtain ⟨a, u, ha, hx⟩ := Act.exec_bind_ret hx
  obtain ⟨_, _, -, hx⟩ := Act.exec_bind_ret hx
  obtain ⟨_, v, -, hx⟩ := Act.exec_bind_ret hx
  have hspec : Act.wp (super (PageAllocatorWithCaching.getFreeBlockNoCache os (u64 (k <<< PAGE_SIZE_EXP))))
      (fun a _ => os.mmap s.w.calls (u64 (k <<< PAGE_SIZE_EXP)) = some a) (fun _ => True) s := by
    rw [super, Act.wp_onPart]
    exact Act.wp_mono (PageAllocatorWithCaching.getFreeBlockNoCache_spec os (s := ⟨s.w, s.c.base⟩) hidle hk)
      (fun _ _ ht => ht.1) fun _ _ => trivial
  have hpure : Act.exec (pure a : Act (St BulkAllocator) ℕ) v = .ret a v := rfl
  rw [hpure] at hx
  cases hx
  exact Act.exec_ret hspec ha

theorem allocate_lt (os : Os) (h : BulkInv cfg s g live) (hcfg : Fits cfg) (hsz : 0 < sz ∧ sz ≤ 2 ^ 64 - 4096) :
    Act.wp (allocate cfg os sz) (fun p _ => p + chunkBytes sz < 2 ^ 64) (fun _ => True) s := by
  obtain ⟨-, hbytes, hsmall⟩ := pageCountOf_bytes hsz.1 hsz.2
  refine Act.wp_mono (Act.wp_exec (allocate_spec os h hcfg hsz)) ?_ fun _ _ => trivial
  rintro p t ⟨⟨g', hI, -⟩, hx⟩
  by_cases hk : pageCountOf sz ≤ cfg.max_pages
  · obtain ⟨b, hb, l, c, r, hl, rfl, hcp⟩ := hI.live_chunk List.mem_cons_self hk
    have hB := hI.block b hb
    obtain ⟨-, h2, -, -⟩ := hB.chunk (c := c) (hl ▸ by simp)
    have hlt := hB.lt
    have hmax := hcfg.max_lt
    have hpages := hcfg.pages_lt
    unfold Chunk.stop at h2
    rw [hsmall (by omega), ← hcp]
    omega
  · unfold allocate at hx
    simp only [if_neg hk] at hx
    have hdvd : 4096 ∣ u64 (pageCountOf sz <<< PAGE_SIZE_EXP) := by
      rw [hbytes]
      exact ⟨(sz + 4095) / 4096, Nat.mul_comm _ _⟩
    have hf := (os.fresh (allocateLarge_ret h.idle hdvd hx)).lt
    rwa [hbytes] at hf

/-- A chunk is not the one after itself. -/
theorem BulkInv.next_ne (h : BulkInv cfg s g live) (hcfg : Fits cfg) (hp : (p, sz) ∈ live)
    (h0 : nextInBlock s.w.mem p ≠ 0) : nextInBlock s.w.mem p ≠ p := by
  by_cases hk : cfg.max_pages < pageCountOf sz
  · obtain ⟨-, -, h8⟩ := h.large _ hp hk
    refine absurd ?_ h0
    unfold nextInBlock
    rw [h8, Nat.zero_and]
  · obtain ⟨b, hb, l, c, r, hl, rfl, -⟩ := h.live_chunk hp (by omega)
    have hB := h.block b hb
    rw [hl] at hB
    obtain ⟨-, -, hnext, -⟩ := hB.read hcfg
    rw [hnext] at h0 ⊢
    cases r with
    | nil => exact absurd rfl h0
    | cons d r =>
      have hpos := (hB.chunk (c := c) (by simp)).2.2.1
      have hle := (List.pairwise_cons.mp (List.pairwise_append.mp hB.tiled.apart).2.1).1 d List.mem_cons_self
      unfold Chunk.stop at hle
      show d.addr ≠ c.addr
      omega

/-- So the only chunk that is held is merged with none that is held. -/
theorem BulkInv.not_merges_only (h : BulkInv cfg s g live) (hcfg : Fits cfg) (hp : (p, sz) ∈ live)
    (hone : live.length ≤ 1) : ¬ MergesLive s.w.mem live p := by
  rintro ⟨-, h0, -, hmem⟩
  obtain ⟨e, he, hen⟩ := List.mem_map.mp hmem
  have hpos := List.length_pos_of_mem hp
  obtain ⟨d, rfl⟩ := List.length_eq_one_iff.mp (show live.length = 1 by omega)
  have h1 := List.mem_singleton.mp hp
  have h2 := List.mem_singleton.mp he
  refine h.next_ne hcfg hp h0 ?_
  rw [← hen, h2, ← h1]

end BulkAllocator

end IibMalloc

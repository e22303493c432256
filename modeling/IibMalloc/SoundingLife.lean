/-
# SoundingAddressPageAllocator: initialize and deinitialize

`init_spec`: after `initialize` the invariant holds with nothing built.
`deinit_spec`: `deinitialize` releases the blocks in list order and then the
descriptor pages, and leaves the state `initialize` leaves. `getPage_large`
is about template arguments whose descriptors do not fit in a page.
-/
import IibMalloc.SoundingMultipage

namespace IibMalloc

open Lib

namespace SoundingAddressPageAllocator

variable {cfg : SoundingCfg} {idx : ℕ} {g : Ghost} {s : St SoundingAddressPageAllocator}

/-- Nothing was built. -/
def Ghost.empty : Ghost := ⟨[], [], [], [], fun _ => 0⟩

theorem resetLists_spec (hb : s.c.base.Idle)
    (hc : CollectionInPages.CollInv cfg.descriptorSize s.w.calls s.c.pageBlockDescriptors [] [] [])
    {Q : Unit → St SoundingAddressPageAllocator → Prop} {E : St SoundingAddressPageAllocator → Prop}
    (h : ∀ c, c.base = s.c.base → c.pageBlockListStart.blockAddress = 0 → SoundInv cfg s.w.calls c .empty →
      Q () ⟨s.w, c⟩) :
    Act.wp (resetLists cfg) Q E s := by
  simp only [resetLists, Act.wp_bind, Act.wp_onSelf]
  refine h _ rfl rfl ⟨hb, hc, by simp [Ghost.empty], by simp [Ghost.empty], fun k hk => ?_, rfl,
    fun idx hidx => ⟨0, le_rfl, if_pos hidx, by simp [Ghost.empty], by simp⟩, by simp [Ghost.empty],
    by simp [Ghost.empty], by simp [Ghost.empty], ?_, by simp [Ghost.empty]⟩
  · obtain rfl : k = 0 := by simpa [Ghost.empty] using hk
    refine ⟨rfl, fun idx hidx => if_pos hidx, fun idx hidx => (if_pos hidx).trans ?_, fun j hj => by omega⟩
    exact (committedAt_of_dvd cfg.commit_page_cnt_pos cfg.commit_dvd).symm
  · intro x hx
    obtain ⟨p, hp, -⟩ := hx
    simp [Ghost.empty] at hp

theorem init_spec (s : St SoundingAddressPageAllocator)
    {Q : Unit → St SoundingAddressPageAllocator → Prop} {E : St SoundingAddressPageAllocator → Prop}
    (h : ∀ c, SoundInv cfg s.w.calls c .empty → Q () ⟨s.w, c⟩) :
    Act.wp (init cfg PAGE_SIZE_EXP) Q E s := by
  simp only [init, super, descriptors, Act.wp_bind, Act.wp_onPart]
  refine PageAllocatorWithCaching.init_spec _ fun b hb => ?_
  refine CollectionInPages.init_spec cfg.descriptorSize _ fun d hd => ?_
  exact resetLists_spec (s := ⟨s.w, { s.c with base := b, pageBlockDescriptors := d }⟩) hb hd
    fun c _ _ hc => h c hc

/-! ### deinitialize -/

/-- The blocks from number `k` on are released, in list order. -/
theorem releaseBlocks_spec (h : SoundInv cfg s.w.calls s.c g) : ∀ (l : List (ℕ × ℕ)) (k fuel : ℕ)
    (t : St SoundingAddressPageAllocator), g.blocks.drop k = l → l.length ≤ fuel →
    SameButBase s.c t.c →
    CollectionInPages.CollInv cfg.descriptorSize t.w.calls s.c.pageBlockDescriptors
      g.pages g.used g.free →
    Act.wp (releaseBlocks cfg fuel (g.node (k + 1)))
      (fun _ t' => SameButBase s.c t'.c ∧
        t'.w = t.w.releasedAll cfg.reservation_size (l.map Prod.snd) ∧
        CollectionInPages.CollInv cfg.descriptorSize t'.w.calls s.c.pageBlockDescriptors
          g.pages g.used g.free)
      (fun _ => False) t
  | [], k, fuel, t, hl, _, hc, hcoll => by
    have hnull : ¬ g.node (k + 1) ≠ .null := by
      rw [not_not, Ghost.node_eq_null]
      have := List.drop_eq_nil_iff.mp hl
      omega
    have : releaseBlocks cfg fuel (g.node (k + 1)) = pure () := by
      cases fuel <;> simp only [releaseBlocks, if_neg hnull]
    rw [this, Act.wp_pure]
    exact ⟨hc, rfl, hcoll⟩
  | p :: l, k, 0, _, _, hf, _, _ => by simp at hf
  | p :: l, k, fuel + 1, t, hl, hf, hc, hcoll => by
    have hk : k < g.blocks.length := by
      by_contra hk
      rw [List.drop_eq_nil_of_le (by omega)] at hl
      cases hl
    have hp : g.blocks[k] = p ∧ g.blocks.drop (k + 1) = l := by
      rw [List.drop_eq_getElem_cons hk] at hl
      exact List.cons.inj hl
    have hmem : p ∈ g.blocks := hp.1 ▸ List.getElem_mem hk
    have hnode : g.node (k + 1) = .item p.1 := by simp [Ghost.node, hk, hp.1]
    have hblock : g.block k = p.2 := by simp [Ghost.block, hk, hp.1]
    have hd : ∀ c', SameButBase s.c c' → ∀ q, c'.desc q = s.c.desc q := fun c' hc' q => by
      rw [hc'.1]; cases q <;> rfl
    have hnI := h.node (k + 1) hk
    have haddr := hnI.block k rfl
    rw [hblock] at haddr
    have h8 : 8 ≤ cfg.descriptorSize := by unfold SoundingCfg.descriptorSize; omega
    have hacc : ∀ calls, CollectionInPages.CollInv cfg.descriptorSize calls s.c.pageBlockDescriptors
        g.pages g.used g.free → Accessible cfg calls (g.node (k + 1)) := fun calls hcoll => by
      have hu := List.mem_append_left g.free (h.used p hmem)
      rw [hnode]
      exact ⟨hcoll.committed (by omega) hu ⟨le_rfl, by omega⟩,
        hcoll.committed (by omega) hu ⟨by omega, by omega⟩⟩
    have hne := (hacc _ hcoll).ne_null
    have hres : 4096 ∣ cfg.reservation_size := by
      rw [SoundingCfg.reservation_size_eq]
      exact Nat.dvd_mul_left _ _
    rw [releaseBlocks, if_pos hne, Act.wp_bind, wp_load]
    refine ⟨hacc _ hcoll, ?_⟩
    rw [hd _ hc, haddr, Act.wp_bind, Act.wp_assert, decide_eq_true (h.blockAt p hmem).pos.ne', Bool.and_true,
      Act.wp_bind, super, Act.wp_onPart]
    refine Act.wp_mono (PageAllocatorWithCaching.freeChunkNoCache_spec (s := ⟨t.w, t.c.base⟩) hc.2 p.2
      hres) ?_ fun _ hf => hf
    rintro _ ⟨w, b⟩ ⟨hw, hb⟩
    simp only at hw hb
    subst hw
    have hc' : SameButBase s.c { t.c with base := b } := by
      refine ⟨?_, hb⟩
      rw [hc.1]
    have hcoll' := hcoll.released (h.apartPages p hmem)
    rw [Act.wp_bind, wp_load]
    refine ⟨hacc _ hcoll', ?_⟩
    rw [hd _ hc', hnI.next]
    exact releaseBlocks_spec h l (k + 1) fuel ⟨t.w.released p.2 cfg.reservation_size, { t.c with base := b }⟩ hp.2
      (by simpa using hf) hc' hcoll'

/-- There are no more blocks than descriptors. -/
theorem SoundInv.blocks_le {calls : List OsCall} {c : SoundingAddressPageAllocator} (h : SoundInv cfg calls c g) :
    g.blocks.length ≤ g.used.length := by
  have hsub : g.blocks.map Prod.fst ⊆ g.used := fun a ha => by
    obtain ⟨p, hp, rfl⟩ := List.mem_map.mp ha
    exact h.used p hp
  have := (h.nodup.subperm hsub).length_le
  rwa [List.length_map] at this

/-- `deinitialize`: every block is released once, then every descriptor page
once, and nothing is left. -/
theorem deinit_spec (h : SoundInv cfg s.w.calls s.c g)
    (hsz : cfg.descriptorSize ≤ 4096 ∨ g.pages = []) {fuel : ℕ}
    (hfuel : g.used.length + g.free.length ≤ fuel) :
    Act.wp (deinit cfg fuel)
      (fun _ t => (∃ ps, ps.Perm g.pages ∧
        t.w = (s.w.releasedAll cfg.reservation_size (g.blocks.map Prod.snd)).releasedAll PAGE_SIZE ps) ∧
        SoundInv cfg t.w.calls t.c .empty ∧ t.c.pageBlockListStart.blockAddress = 0)
      (fun _ => False) s := by
  have hlen := h.blocks_le
  have hnext : s.c.pageBlockListStart.next = g.node (0 + 1) := (h.node 0 (Nat.zero_le _)).next
  have h8 : 0 < cfg.descriptorSize := by unfold SoundingCfg.descriptorSize; omega
  rw [deinit, Act.wp_bind, Act.wp_read, hnext, Act.wp_bind]
  refine Act.wp_mono (releaseBlocks_spec h g.blocks 0 fuel s rfl (by omega) ⟨rfl, h.idle⟩ h.coll) ?_
    fun _ hf => hf
  rintro _ ⟨w, c⟩ ⟨hc, hw, hcoll⟩
  simp only at hc hw hcoll
  have hd : c.pageBlockDescriptors = s.c.pageBlockDescriptors := by rw [hc.1]
  rw [← hd] at hcoll
  rw [Act.wp_bind, descriptors, Act.wp_onPart]
  have hfin : ∀ d w', CollectionInPages.CollInv cfg.descriptorSize w'.calls d [] [] [] →
      (∃ ps, ps.Perm g.pages ∧ w' = w.releasedAll PAGE_SIZE ps) →
      Act.wp (resetLists cfg >>= fun _ => super PageAllocatorWithCaching.deinit)
        (fun _ t => (∃ ps, ps.Perm g.pages ∧ t.w =
          (s.w.releasedAll cfg.reservation_size (g.blocks.map Prod.snd)).releasedAll PAGE_SIZE ps) ∧
          SoundInv cfg t.w.calls t.c .empty ∧ t.c.pageBlockListStart.blockAddress = 0)
        (fun _ => False) ⟨w', { c with pageBlockDescriptors := d }⟩ := fun d w' hd hw' => by
    rw [Act.wp_bind]
    refine resetLists_spec (s := ⟨w', { c with pageBlockDescriptors := d }⟩) hc.2 hd fun c' _ h0 hI => ?_
    rw [super, Act.wp_onPart]
    refine Act.wp_mono (PageAllocatorWithCaching.deinit_spec (s := ⟨w', c'.base⟩) hI.idle) ?_ fun _ hf => hf
    rintro _ t rfl
    exact ⟨by rw [← hw]; exact hw', hI, h0⟩
  rcases hsz with hsz | hnil
  · refine Act.wp_mono (CollectionInPages.deinit_spec (s := ⟨w, c.pageBlockDescriptors⟩) h8 hsz hcoll hfuel)
      ?_ fun _ hf => hf
    rintro _ ⟨w', d⟩ ⟨hps, hd⟩
    exact hfin d w' hd hps
  · have hused : g.used ++ g.free = [] := by
      have := h.coll.items
      rwa [hnil, List.flatMap_nil, List.perm_nil] at this
    obtain ⟨hu, hf⟩ := List.append_eq_nil_iff.mp hused
    rw [hnil, hu, hf] at hcoll
    refine Act.wp_mono (CollectionInPages.deinit_empty (s := ⟨w, c.pageBlockDescriptors⟩) hcoll) ?_
      fun _ hf => hf
    rintro _ ⟨w', d⟩ ⟨hw', hd⟩
    exact hfin d w' hd ⟨[], by rw [hnil], hw'⟩

/-! ### Template arguments whose descriptors do not fit in a page -/

/-- Descriptors fit in a page, or none was ever obtained. -/
def Fits (cfg : SoundingCfg) (g : Ghost) : Prop := cfg.descriptorSize ≤ 4096 ∨ g.pages = []

/-- With no block, a call for a page is one for a block, and throws where that
throws. -/
theorem getPage_first (h : SoundInv cfg s.w.calls s.c g) (hb : g.blocks = []) (hidx : idx < cfg.bucket_cnt) {os : Os}
    {E : St SoundingAddressPageAllocator → Prop}
    (hnew : Act.wlp (createNextBlockAndGetPage cfg os idx) (fun _ _ => False) E s) :
    Act.wlp (getPage cfg os idx) (fun _ _ => False) E s := by
  have hlen : g.blocks.length = 0 := by rw [hb]; rfl
  -- every head is at the node before the first block
  obtain ⟨k, hk, hhead, -, -⟩ := h.head idx hidx
  obtain rfl : k = 0 := by omega
  have hnode := h.node 0 (Nat.zero_le _)
  have huse : (s.c.desc .start).nextToUse idx = cfg.pages_per_bucket := hnode.use idx hidx
  have hnext : (s.c.desc .start).next = .null :=
    hnode.next.trans (Ghost.node_eq_null.mpr (by omega))
  have hcur : s.c.pageBlockListCurrent = .start := by
    have := h.current
    rwa [hlen] at this
  refine Act.wlp_bind (Act.wlp_of_wp ?_)
  rw [Act.wp_assert, decide_eq_true hidx, Bool.and_true]
  refine Act.wlp_bind (Act.wlp_of_wp ?_)
  rw [Act.wp_read, show s.c.indexHead idx = .start from hhead]
  refine Act.wlp_bind (Act.wlp_of_wp ?_)
  rw [Act.wp_assert, decide_eq_true (by decide), Bool.and_true]
  refine Act.wlp_bind (Act.wlp_of_wp ?_)
  rw [wp_load, huse, hnext, if_neg (lt_irrefl _), if_pos rfl]
  refine ⟨trivial, Act.wlp_bind (Act.wlp_of_wp ?_)⟩
  rw [Act.wp_read, hcur]
  refine Act.wlp_bind (Act.wlp_of_wp ?_)
  rw [Act.wp_assert, decide_eq_true rfl, Bool.and_true]
  exact Act.wlp_bind (Act.wlp_mono hnew (fun _ _ hf => hf.elim) fun _ ht => ht)

/-- Such an allocator never returns a page: `createNew` cannot carve one, and the
call throws only where the system refuses a page. -/
theorem getPage_large (os : Os) (h : SoundInv cfg s.w.calls s.c g) (hsz : 4096 < cfg.descriptorSize)
    (hg : g.pages = []) (hidx : idx < cfg.bucket_cnt) :
    Act.wlp (getPage cfg os idx) (fun _ _ => False)
      (fun t => Threw cfg os idx s g g t ∧ os.mmap s.w.calls PAGE_SIZE = none) s := by
  have hitems := h.coll.items
  rw [hg, List.flatMap_nil, List.perm_nil, List.append_eq_nil_iff] at hitems
  obtain ⟨hu, hf⟩ := hitems
  have hb : g.blocks = [] := List.eq_nil_iff_forall_not_mem.mpr fun p hp => by
    have := h.used p hp
    rw [hu] at this
    cases this
  have hcoll := h.coll
  rw [hg, hu, hf] at hcoll
  obtain ⟨k, hk, -, hn, -⟩ := h.head idx hidx
  obtain rfl : k = 0 := by
    rw [hb] at hk
    exact Nat.le_zero.mp hk
  have hn0 : g.n idx = 0 := by omega
  refine getPage_first h hb hidx (Act.wlp_bind (Act.wlp_of_wp ?_))
  rw [Act.wp_assert, decide_eq_true hidx, Bool.and_true]
  refine Act.wlp_bind (Act.wlp_zoom (Act.wlp_mono (CollectionInPages.createNew_large
    (s := ⟨s.w, s.c.pageBlockDescriptors⟩) hsz hcoll) (fun _ _ hf => hf.elim) ?_))
  rintro ⟨w, d⟩ ⟨hm, hw, hd, hheap⟩
  simp only at hw hd hheap
  subst hw
  have hd' : CollectionInPages.CollInv cfg.descriptorSize (s.w.refused 4096).calls d
      g.pages g.used g.free := by rw [hg, hu, hf]; exact hd
  have hI := h.collection hd' (fun x hx => hx) (fun x _ => by rw [hheap]) .refused fun q hq => Or.inl hq
  exact ⟨⟨hI, PageStep.refl.refused, rfl, ⟨_, _, rfl, List.suffix_refl _⟩,
    by rw [hn0]; exact dvd_zero _, Or.inl rfl⟩, hm⟩

/-- A call for a page, whatever the template arguments. -/
theorem getPage_wlp (os : Os) (h : SoundInv cfg s.w.calls s.c g) (hf : Fits cfg g)
    (hidx : idx < cfg.bucket_cnt) :
    Act.wlp (getPage cfg os idx) (fun p t => ∃ g', Gave cfg os idx s g g' p t ∧ Fits cfg g')
      (fun t => ∃ g', Threw cfg os idx s g g' t ∧ Fits cfg g') s := by
  by_cases hsz : cfg.descriptorSize ≤ 4096
  · exact Act.wlp_of_wp (Act.wp_mono (getPage_spec os h hsz hidx)
      (fun _ _ ⟨g', ht⟩ => ⟨g', ht, Or.inl hsz⟩) fun _ ⟨g', ht⟩ => ⟨g', ht, Or.inl hsz⟩)
  · exact Act.wlp_mono (getPage_large os h (by omega) (hf.resolve_left hsz) hidx)
      (fun _ _ hf => hf.elim) fun _ ht => ⟨g, ht.1, hf⟩

/-- A call for a multipage, whatever the template arguments. -/
theorem getMultipage_wlp (os : Os) (h : SoundInv cfg s.w.calls s.c g) (hf : Fits cfg g)
    (hidx : idx < cfg.bucket_cnt) (hm : cfg.multipage_page_cnt ∣ g.n idx) :
    Act.wlp (getMultipage cfg os idx)
      (fun mp t => ∃ g' cut, (SoundInv cfg t.w.calls t.c g' ∧ PageStep cfg idx s.w t.w g g' ∧
        g'.n = put g.n idx (g.n idx + cfg.multipage_page_cnt) ∧
        Segments cfg g' idx (g.n idx) mp cut) ∧ Fits cfg g')
      (fun t => ∃ g', Threw cfg os idx s g g' t ∧ Fits cfg g') s := by
  by_cases hsz : cfg.descriptorSize ≤ 4096
  · exact Act.wlp_of_wp (Act.wp_mono (getMultipage_spec os h hsz hidx hm)
      (fun _ _ ⟨g', cut, h1, h2, h3, h4, _⟩ => ⟨g', cut, ⟨h1, h2, h3, h4⟩, Or.inl hsz⟩)
      fun _ ⟨g', ht⟩ => ⟨g', ht, Or.inl hsz⟩)
  · exact Act.wlp_bind (Act.wlp_mono (getPage_large os h (by omega) (hf.resolve_left hsz) hidx)
      (fun _ _ hf => hf.elim) fun _ ht => ⟨g, ht.1, hf⟩)

end SoundingAddressPageAllocator

end IibMalloc

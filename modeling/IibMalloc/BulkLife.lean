/-
# BulkAllocator: deinitialize

`deinit_spec`: `deinitialize` gives the blocks back in the order of their
items, then the pages of the collection, and leaves the state `initialize`
leaves. A region of its own that the client still holds stays mapped.
-/
import IibMalloc.BulkInv

namespace IibMalloc

open Lib

namespace BulkAllocator

variable {cfg : BulkCfg} {s t : St BulkAllocator} {g : BulkGhost} {live : List (ℕ × ℕ)}

/-- The blocks of the items `l`, the rest of the list, are released in order. -/
theorem releaseBlocks_spec (h : BulkInv cfg s g live) : ∀ (l : List ℕ) (curr fuel : ℕ) (t : St BulkAllocator),
    l ⊆ g.used → l.length ≤ fuel → t.c = { s.c with base := t.c.base } → t.c.base.Idle →
    Chain (fun a => (s.c.blocks.heap a).next) 0 curr l →
    CollectionInPages.CollInv blockItemSize t.w.calls s.c.blocks g.pages g.used g.free →
    Act.wp (releaseBlocks cfg fuel curr)
      (fun _ t' => t'.c = { s.c with base := t'.c.base } ∧ t'.c.base.Idle ∧
        t'.w = t.w.releasedAll cfg.commited_block_size (l.map fun a => (s.c.blocks.heap a).item) ∧
        CollectionInPages.CollInv blockItemSize t'.w.calls s.c.blocks g.pages g.used g.free)
      (fun _ => False) t
  | [], curr, fuel, t, _, _, hc, hb, hl, hcoll => by
    have h0 : curr = 0 := hl
    have : releaseBlocks cfg fuel curr = pure () := by
      subst h0
      cases fuel <;> rfl
    rw [this, Act.wp_pure]
    exact ⟨hc, hb, rfl, hcoll⟩
  | a :: l, curr, 0, _, _, hf, _, _, _, _ => by simp at hf
  | a :: l, curr, fuel + 1, t, hsub, hf, hc, hb, hl, hcoll => by
    obtain ⟨rfl, hne, hl⟩ := hl
    have ha : curr ∈ g.used ++ g.free := List.mem_append_left _ (hsub List.mem_cons_self)
    have hbm : (s.c.blocks.heap curr).item ∈ g.blocks := by
      rw [← h.items]
      exact List.mem_map_of_mem (hsub List.mem_cons_self)
    have hblock := h.block _ hbm
    have hdvd : 4096 ∣ cfg.commited_block_size := by
      rw [BulkCfg.size_eq]
      exact Nat.dvd_mul_left _ _
    have hapart : ∀ q ∈ g.pages, Apart ((s.c.blocks.heap curr).item, cfg.commited_block_size) (q, 4096) :=
      fun q hq x hx hx' => (List.pairwise_append.mp h.apart).2.2 (q, 4096) (List.mem_map_of_mem hq) _
        (List.mem_append_left _ (List.mem_map_of_mem hbm)) x hx' hx
    have hword : ∀ {calls}, CollectionInPages.CollInv blockItemSize calls s.c.blocks g.pages g.used g.free →
        pageState calls curr = .committed ∧ pageState calls (curr + (blockItemSize - 1)) = .committed := fun hcoll =>
      ⟨hcoll.committed (by decide) ha ⟨le_rfl, by unfold blockItemSize; omega⟩,
        hcoll.committed (by decide) ha ⟨by omega, by unfold blockItemSize; omega⟩⟩
    have hheap : ∀ c : BulkAllocator, c = { s.c with base := c.base } → c.blocks = s.c.blocks := fun c hc => by
      rw [hc]
    rw [releaseBlocks, if_pos hne]
    simp only [CollectionInPages.derefItem, Act.wp_bind, Act.wp_deref, Act.wp_read, Act.wp_assert]
    rw [hheap _ hc]
    refine ⟨(hword hcoll).1, (hword hcoll).2, ?_⟩
    rw [decide_eq_true hblock.pos.ne', Bool.and_true, super, Act.wp_onPart]
    refine Act.wp_mono (PageAllocatorWithCaching.freeChunkNoCache_spec (s := ⟨t.w, t.c.base⟩) hb _ hdvd) ?_
      fun _ hf => hf
    rintro - ⟨w, b⟩ ⟨hw, hb'⟩
    simp only at hw hb'
    subst hw
    have hcoll' := hcoll.released hapart
    refine ⟨(hword hcoll').1, (hword hcoll').2, ?_⟩
    have hc' : ({ t.c with base := b } : BulkAllocator) = { s.c with base := b } := by rw [hc]
    have hnext : (t.c.blocks.heap curr).next = (s.c.blocks.heap curr).next := by rw [hheap _ hc]
    rw [hnext]
    exact releaseBlocks_spec h l _ fuel ⟨t.w.released _ _, { t.c with base := b }⟩
      (fun x hx => hsub (List.mem_cons_of_mem curr hx)) (by simpa using hf) hc' hb' hl hcoll'

/-- `deinitialize`: every block is released once, then every page of the
collection once, and nothing is left. -/
theorem deinit_spec (h : BulkInv cfg s g live) {fuel : ℕ} (hfuel : g.used.length + g.free.length ≤ fuel) :
    Act.wp (deinit cfg fuel)
      (fun _ t => (∃ ps, ps.Perm g.pages ∧
        t.w = (s.w.releasedAll cfg.commited_block_size g.blocks).releasedAll PAGE_SIZE ps) ∧
        BulkInv cfg t .empty [])
      (fun _ => False) s := by
  rw [deinit, Act.wp_bind, Act.wp_read, Act.wp_bind]
  refine Act.wp_mono (releaseBlocks_spec h g.used s.c.blocks.head fuel s (fun _ hx => hx) (by omega) rfl h.idle
    h.coll.head h.coll) ?_ fun _ hf => hf
  rintro - ⟨w, c⟩ ⟨hc, hb, hw, hcoll⟩
  simp only at hc hb hw hcoll
  have hblocks : c.blocks = s.c.blocks := by rw [hc]
  rw [h.items] at hw
  rw [Act.wp_bind, collection, Act.wp_onPart]
  refine Act.wp_mono (CollectionInPages.deinit_spec (s := ⟨w, c.blocks⟩) (by decide) (by decide)
    (hblocks ▸ hcoll) hfuel) ?_ fun _ hf => hf
  rintro - ⟨w', d⟩ ⟨⟨ps, hps, hw'⟩, hd⟩
  rw [Act.wp_onSelf]
  refine ⟨⟨ps, hps, by rw [← hw]; exact hw'⟩, ?_⟩
  exact .of_empty hd hb fun i hi => if_pos hi

end BulkAllocator

end IibMalloc

/-
# BulkAllocator: requests that the operating system refuses

`allocate` can call the operating system twice: for a block, then for a page of
the collection that lists the blocks. `atomic_run`: a call that throws leaves
the lists and the collection as they were, and what is mapped is held by the
client or given back by `deinitialize`, unless the block was granted and the
page was refused. Then no list has the block (`Loses`).
-/
import IibMalloc.BulkRuns
import IibMalloc.BulkLife

namespace IibMalloc

open Lib AnyChunkHeader

namespace BulkAllocator

variable {cfg : BulkCfg} {os : Os} {r r' r₀ : BulkRun} {op : BulkOp} {s t : St BulkAllocator} {g g' : BulkGhost}
  {live live' : List (ℕ × ℕ)} {w₀ w w' : World} {sz x : ℕ}

/-! ### What is mapped is held -/

/-- Since `w₀` the allocator holds all that was mapped, and nothing that was
mapped before. -/
structure Covered (cfg : BulkCfg) (w₀ w : World) (g : BulkGhost) (live : List (ℕ × ℕ)) : Prop where
  cover : ∀ x, Mapped w.calls x → Mapped w₀.calls x ∨ g.Owned cfg live x
  foreign : ∀ x, Mapped w₀.calls x → Mapped w.calls x ∧ ¬ g.Owned cfg live x

theorem Covered.step (h : Covered cfg w₀ w g live) (hS : BulkStep cfg g live g' live' w w') :
    Covered cfg w₀ w' g' live' := by
  refine ⟨fun x hx => ?_, fun x hx => ?_⟩
  · rcases hS.cover x hx with ho | ⟨hm, hn⟩
    · exact Or.inr ho
    · exact Or.inl ((h.cover x hm).resolve_right hn)
  · obtain ⟨hm, hn⟩ := h.foreign x hx
    refine ⟨?_, fun ho => (hS.fresh x ho).elim hn fun hu => hu hm⟩
    unfold Mapped
    rw [(hS.frame x ⟨hm, hn⟩).1]
    exact hm

/-- After a call that was refused, or a write. -/
theorem Covered.same (h : Covered cfg w₀ w g live) (hw : ∀ x, pageState w'.calls x = pageState w.calls x) :
    Covered cfg w₀ w' g live := by
  have hiff : ∀ x, Mapped w'.calls x ↔ Mapped w.calls x := fun x => by
    unfold Mapped
    rw [hw x]
  exact ⟨fun x hx => h.cover x ((hiff x).mp hx), fun x hx => (h.foreign x hx).imp_left (hiff x).mpr⟩

/-- No request of the run is for a block that is lost. -/
def KeepsBlocks (cfg : BulkCfg) (os : Os) (r : BulkRun) : BulkOp → Prop
  | .allocate sz => ¬ Loses cfg os r.s sz
  | _ => True

instance (cfg : BulkCfg) (os : Os) (s : St BulkAllocator) : Decidable (LosesBlock cfg os s) :=
  decidable_of_iff (s.c.blocks.freeList = 0 ∧ (os.mmap s.w.calls cfg.commited_block_size).any (fun b =>
    decide (os.mmap (.allocate b cfg.commited_block_size :: s.w.calls) PAGE_SIZE = none)) = true) (by
      rw [LosesBlock, Option.any_eq_true]
      simp only [decide_eq_true_eq])

instance (cfg : BulkCfg) (os : Os) (s : St BulkAllocator) (sz : ℕ) : Decidable (Loses cfg os s sz) := by
  unfold Loses
  infer_instance

instance (cfg : BulkCfg) (os : Os) (r : BulkRun) : (op : BulkOp) → Decidable (KeepsBlocks cfg os r op)
  | .allocate sz => inferInstanceAs (Decidable (¬ Loses cfg os r.s sz))
  | .deallocate _ | .write _ _ => inferInstanceAs (Decidable True)

theorem Threw.covered {lost : Prop} (h : Threw cfg lost s g live t) (hl : ¬ lost) (hc : Covered cfg w₀ s.w g live) :
    Covered cfg w₀ t.w g live := by
  rcases h.failed with ⟨n, -, hw⟩ | ⟨b, hlost, -⟩
  · exact hc.same fun x => by rw [hw]; rfl
  · exact absurd hlost hl

theorem covered_step (h : BulkInv cfg r.s g r.live) (hc : Covered cfg w₀ r.s.w g r.live) (hcfg : Fits cfg)
    (hok : KeepsLive r op ∧ KeepsBlocks cfg os r op) (hs : r.step cfg os op = some r') :
    ∃ g', BulkInv cfg r'.s g' r'.live ∧ Covered cfg w₀ r'.s.w g' r'.live := by
  unfold BulkRun.step at hs
  split_ifs at hs with hop
  cases op with
  | allocate sz =>
    have hspec := allocate_spec os h hcfg hop
    simp only at hs
    split at hs
    · obtain rfl := Option.some.inj hs
      obtain ⟨g', hI, hS, -⟩ := Act.exec_ret hspec ‹_›
      exact ⟨g', hI, hc.step hS⟩
    · obtain rfl := Option.some.inj hs
      have ht := Act.exec_throw hspec ‹_›
      exact ⟨g, ht.inv, ht.covered hok.2 hc⟩
    · cases hs
  | deallocate p =>
    obtain ⟨⟨_, sz⟩, he, rfl⟩ := List.mem_map.mp hop
    have hspec := deallocate_spec h hcfg he hok.1
    simp only at hs
    split at hs
    · obtain rfl := Option.some.inj hs
      obtain ⟨g', hI, hS, -⟩ := Act.exec_ret hspec ‹_›
      exact ⟨g', hI, hc.step hS⟩
    · exact (Act.exec_throw hspec ‹_›).elim
    · cases hs
  | write a v =>
    obtain rfl := Option.some.inj hs
    exact ⟨g, h.write hcfg hop.1 v, hc.same fun x => rfl⟩

theorem Covered.start (h : r₀.Starts cfg) : Covered cfg r₀.s.w r₀.s.w .empty r₀.live := by
  obtain ⟨w, c, -, hl⟩ := h
  rw [hl]
  refine ⟨fun x hx => Or.inl hx, fun x hx => ⟨hx, ?_⟩⟩
  intro hx
  obtain ⟨r, hr, -⟩ := hx
  cases hr

theorem covered_reach (h₀ : r₀.Starts cfg) (hcfg : Fits cfg)
    (hr : Reach (BulkRun.step cfg os) (fun r op => KeepsLive r op ∧ KeepsBlocks cfg os r op) r₀ r) :
    ∃ g, BulkInv cfg r.s g r.live ∧ Covered cfg r₀.s.w r.s.w g r.live := by
  refine hr.invariant (P := fun r => ∃ g, BulkInv cfg r.s g r.live ∧ Covered cfg r₀.s.w r.s.w g r.live)
    ⟨.empty, .start h₀, .start h₀⟩ ?_
  rintro s t op ⟨g, hg, hc⟩ hok hs
  exact covered_step hg hc hcfg hok hs

/-! ### A call that throws -/

/-- Whatever was mapped since `w₀` is in a chunk that is live, or `deinitialize`
gives it back. -/
def StillOwned (cfg : BulkCfg) (w₀ : World) (t : St BulkAllocator) (live : List (ℕ × ℕ)) : Prop :=
  ∃ n, ∀ fuel ≥ n, ∃ u, Act.exec (deinit cfg fuel) t = .ret () u ∧ ∀ x, Mapped t.w.calls x →
    Mapped w₀.calls x ∨ (∃ e ∈ live, Within e.1 (chunkBytes e.2) x) ∨ ¬ Mapped u.w.calls x

/-- The call from `s` to `t` changed nothing that is held, and nothing mapped is
lost. -/
structure Atomic (cfg : BulkCfg) (w₀ : World) (s t : St BulkAllocator) (live : List (ℕ × ℕ)) : Prop where
  unaltered : Unaltered s t
  mem : ∀ x, Mapped s.w.calls x → t.w.mem x = s.w.mem x
  owned : StillOwned cfg w₀ t live

/-- What `deinitialize` gives back: all that is held but the regions. -/
theorem deinit_mapped {u : St BulkAllocator} {ps : List ℕ} (hps : ps.Perm g.pages)
    (hu : u.w = (t.w.releasedAll cfg.commited_block_size g.blocks).releasedAll PAGE_SIZE ps) :
    (∀ x, g.Owned cfg live x → (∃ e ∈ live, Within e.1 (chunkBytes e.2) x) ∨ ¬ Mapped u.w.calls x) ∧
      ∀ x, ¬ g.Owned cfg live x → pageState u.w.calls x = pageState t.w.calls x := by
  have hstate : ∀ x, pageState u.w.calls x = if ∃ p ∈ ps, Within p PAGE_SIZE x then .unmapped
      else if ∃ b ∈ g.blocks, Within b cfg.commited_block_size x then .unmapped else pageState t.w.calls x := by
    intro x
    rw [hu, (World.releasedAll_state _ _ _ x).1, (World.releasedAll_state _ _ _ x).1]
  unfold Mapped
  refine ⟨?_, fun x hx => ?_⟩
  · intro x hx
    obtain ⟨r, hr, hin⟩ := hx
    rw [hstate, not_not]
    rcases List.mem_append.mp hr with hr | hr
    · obtain ⟨p, hp, rfl⟩ := List.mem_map.mp hr
      exact Or.inr (if_pos ⟨p, hps.mem_iff.mpr hp, hin⟩)
    rcases List.mem_append.mp hr with hr | hr
    · obtain ⟨b, hb, rfl⟩ := List.mem_map.mp hr
      right
      rw [ite_eq_left_iff]
      exact fun _ => if_pos ⟨b, hb, hin⟩
    · obtain ⟨e, he, rfl⟩ := List.mem_map.mp hr
      exact Or.inl ⟨e, (List.mem_filter.mp he).1, hin⟩
  · have hpage : ¬ ∃ p ∈ ps, Within p PAGE_SIZE x := fun ⟨p, hp, hin⟩ =>
      hx ⟨(p, 4096), List.mem_append_left _ (List.mem_map_of_mem (hps.mem_iff.mp hp)), hin⟩
    have hblock : ¬ ∃ b ∈ g.blocks, Within b cfg.commited_block_size x := fun ⟨b, hb, hin⟩ =>
      hx (BulkInv.block_owned hb hin)
    rw [hstate, if_neg hpage, if_neg hblock]

theorem stillOwned_of_covered (h : BulkInv cfg t g live) (hc : Covered cfg w₀ t.w g live) :
    StillOwned cfg w₀ t live := by
  refine ⟨g.used.length + g.free.length, fun fuel hfuel => ?_⟩
  obtain ⟨_, u, hx, ⟨ps, hps, hu⟩, -⟩ := Act.returns (deinit_spec h hfuel)
  exact ⟨u, hx, fun x hm => (hc.cover x hm).imp_right ((deinit_mapped hps hu).1 x)⟩

/-- A block that no list has stays mapped for ever. -/
theorem not_stillOwned (h : BulkInv cfg t g live) (hcfg : Fits cfg) (hm : Mapped t.w.calls x)
    (h₀ : ¬ Mapped w₀.calls x) (ho : ¬ g.Owned cfg live x) : ¬ StillOwned cfg w₀ t live := by
  intro hx
  obtain ⟨n, hn⟩ := hx
  obtain ⟨u, hx, hcover⟩ := hn (max n (g.used.length + g.free.length)) (le_max_left _ _)
  obtain ⟨⟨ps, hps, hu⟩, -⟩ := Act.exec_ret (deinit_spec h (le_max_right n _)) hx
  rcases hcover x hm with hx₀ | ⟨e, he, hin⟩ | hxu
  · exact h₀ hx₀
  · exact ho (h.live_bytes_owned hcfg he hin)
  · unfold Mapped at hxu hm
    rw [(deinit_mapped hps hu).2 x ho] at hxu
    exact hxu hm

/-- The block that was granted is one. -/
theorem Threw.lost {lost : Prop} (h : Threw cfg lost s g live t) (hl : lost) (hI : BulkInv cfg s g live)
    (hcfg : Fits cfg) (hc : Covered cfg w₀ s.w g live) : ¬ StillOwned cfg w₀ t live := by
  rcases h.failed with ⟨n, hn, -⟩ | ⟨b, -, hf, hw⟩
  · exact absurd hl hn
  have hself : Within b cfg.commited_block_size b := ⟨le_rfl, by
    have := BulkCfg.size_eq cfg
    have := hcfg.max_lt
    omega⟩
  have hu := hf.unmapped b hself
  refine not_stillOwned h.inv hcfg (x := b) ?_ (fun hm => (hc.foreign b hm).1 hu) fun ho => hI.owned_mapped ho hu
  rw [hw]
  simp only [Mapped, pageState, if_pos hself]
  decide

/-- **A call that throws is atomic**, in any run that never gives back a chunk
whose right neighbour is flagged though it is live and never loses a block,
exactly where the call itself does not lose one. -/
theorem atomic_run (h₀ : r₀.Starts bulkAllocatorT)
    (hr : Reach (BulkRun.step bulkAllocatorT os) (fun r op => KeepsLive r op ∧ KeepsBlocks bulkAllocatorT os r op) r₀ r)
    (hsz : sz < 2 ^ 64) (hx : Act.exec (allocate bulkAllocatorT os sz) r.s = .throw t) :
    Atomic bulkAllocatorT r₀.s.w r.s t r.live ↔ ¬ Loses bulkAllocatorT os r.s sz := by
  obtain ⟨g, h, hc⟩ := covered_reach h₀ bulkAllocatorT_fits hr
  have hok : 0 < sz ∧ sz ≤ 2 ^ 64 - 4096 := by
    by_contra hn
    rw [allocate_stuck os (pageCountOf_zero hsz hn)] at hx
    cases hx
  have ht := Act.exec_throw (allocate_spec os h bulkAllocatorT_fits hok) hx
  exact ⟨fun hA hl => ht.lost hl h bulkAllocatorT_fits hc hA.owned, fun hl => ⟨ht.unaltered,
    fun x hm => (ht.keep x hm).2, stillOwned_of_covered ht.inv (ht.covered hl hc)⟩⟩

/-- The process may map a block, its page and a few pages more. -/
def tightOs : Os := (Os.linear (127 * 2 ^ 40)).limited (2 ^ 23 + 40960)

/-- The process may map a block, and not the page. -/
def fullOs : Os := (Os.linear (127 * 2 ^ 40)).limited (2 ^ 23)

/-- A chunk is live, and a region of 49 pages is refused. -/
theorem atomic_run_two : ∃ r t, run (BulkRun.step bulkAllocatorT tightOs)
      (fun r op => decide (KeepsLive r op ∧ KeepsBlocks bulkAllocatorT tightOs r op))
      .fresh [.allocate 9000] = some r ∧
    Act.exec (allocate bulkAllocatorT tightOs 200000) r.s = .throw t ∧
    Atomic bulkAllocatorT BulkRun.fresh.s.w r.s t r.live := by
  obtain ⟨r, hr, hv⟩ := Option.map_eq_some_iff.mp (show (run (BulkRun.step bulkAllocatorT
      tightOs) (fun r op => decide (KeepsLive r op ∧ KeepsBlocks bulkAllocatorT
      tightOs r op)) .fresh [.allocate 9000]).map (fun r =>
        match Act.exec (allocate bulkAllocatorT tightOs 200000) r.s with
        | .throw _ => !decide (Loses bulkAllocatorT tightOs r.s 200000)
        | _ => false) = some true by decide +kernel)
  cases hx : Act.exec (allocate bulkAllocatorT tightOs 200000) r.s with
  | ret p t =>
    rw [hx] at hv
    cases hv
  | stuck =>
    rw [hx] at hv
    cases hv
  | throw t =>
    rw [hx] at hv
    refine ⟨r, t, hr, hx, (atomic_run (BulkRun.init_starts _ _)
      ((Reach.of_run hr).mono fun _ _ hok => of_decide_eq_true hok) (by norm_num) hx).mpr ?_⟩
    simpa using hv

/-- The first request of all is for a block, which is lost. -/
theorem not_atomic_run : ∃ t, Act.exec (allocate bulkAllocatorT fullOs 9000)
      BulkRun.fresh.s = .throw t ∧ ¬ StillOwned bulkAllocatorT BulkRun.fresh.s.w t [] := by
  have hl : Loses bulkAllocatorT fullOs BulkRun.fresh.s 9000 := by decide +kernel
  have hstart : BulkRun.fresh.Starts bulkAllocatorT := BulkRun.init_starts _ _
  have hspec := allocate_spec fullOs (BulkInv.start hstart) bulkAllocatorT_fits
    (show 0 < 9000 ∧ 9000 ≤ 2 ^ 64 - 4096 by norm_num)
  have hthrow : (match Act.exec (allocate bulkAllocatorT fullOs 9000) BulkRun.fresh.s with
      | .throw _ => true
      | _ => false) = true := by decide +kernel
  cases hx : Act.exec (allocate bulkAllocatorT fullOs 9000) BulkRun.fresh.s with
  | ret p t =>
    rw [hx] at hthrow
    cases hthrow
  | stuck => exact absurd hx (Act.not_stuck hspec)
  | throw t => exact ⟨t, rfl, (Act.exec_throw hspec hx).lost hl (.start hstart) bulkAllocatorT_fits (.start hstart)⟩

end BulkAllocator

end IibMalloc

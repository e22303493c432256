/-
# BulkAllocator: free chunks, their flags and their merging

What the flag `isFree` is worth. `coherent_run`: where no chunk is taken from
the list of its own page count, and every chunk given back is merged with a
flagged neighbour, a chunk is flagged exactly when it is free. `coalesced_run`:
where the neighbours of every chunk given back are live or flagged as they
should be, no two neighbouring chunks are free. Neither condition is met by all
runs (`not_coherent_run`, `not_coalesced_run`).
-/
import IibMalloc.BulkRuns

namespace IibMalloc

open Lib AnyChunkHeader

namespace BulkAllocator

variable {cfg : BulkCfg} {os : Os} {r r' r₀ : BulkRun} {op : BulkOp} {s t : St BulkAllocator} {g g' g₁ : BulkGhost}
  {live : List (ℕ × ℕ)} {a b k p q sz : ℕ} {l m : List Chunk} {c d : Chunk}

/-! ### Neighbours -/

/-- The other chunks of a block start elsewhere. -/
theorem BlockInv.addr_ne {w : World} (h : BlockInv cfg w b (l ++ c :: m)) :
    (∀ d ∈ l, d.addr ≠ c.addr) ∧ ∀ d ∈ m, d.addr ≠ c.addr := by
  have hap := List.pairwise_append.mp h.tiled.apart
  refine ⟨fun d hd hdc => ?_, fun d hd hdc => ?_⟩
  · have h1 := hap.2.2 d hd c List.mem_cons_self
    have h2 := (h.chunk (List.mem_append_left _ hd)).2.2.1
    unfold Chunk.stop at h1
    omega
  · have h1 := (List.pairwise_cons.mp hap.2.1).1 d hd
    have h2 := (h.chunk (c := c) (by simp)).2.2.1
    unfold Chunk.stop at h1
    omega

theorem lastAddr_getLast (hd : d ∈ l.getLast?) : lastAddr q l = d.addr := by
  rcases List.eq_nil_or_concat l with rfl | ⟨l', c, rfl⟩
  · cases hd
  · rw [List.concat_eq_append, List.getLast?_append, List.getLast?_singleton] at hd
    obtain rfl : c = d := Option.some.inj hd
    rw [List.concat_eq_append, lastAddr_append]
    rfl

/-- A request with pages in its header has a chunk of a block. -/
theorem BulkInv.small_of_pages (h : BulkInv cfg s g live) (hp : (p, sz) ∈ live) (h0 : getPageCount s.w.mem p ≠ 0) :
    pageCountOf sz ≤ cfg.max_pages := by
  by_contra hk
  exact h0 (h.large_read hp (by omega)).1

/-- The blocks after `allocate` obtained one, or none. -/
theorem opened_chunks (ho : g₁ = g ∨ ∃ b, Opened cfg g live b g₁) (hb : b ∈ g₁.blocks) :
    b ∈ g.blocks ∧ g₁.chunks b = g.chunks b ∨ ∃ c, g₁.chunks b = [c] ∧ c.addr ∉ live.map Prod.fst := by
  rcases ho with rfl | ⟨b', ho⟩
  · exact Or.inl ⟨hb, rfl⟩
  rw [ho.blocks] at hb
  rw [ho.chunks]
  by_cases hbb : b = b'
  · subst hbb
    rw [BulkGhost.setChunks_self]
    exact Or.inr ⟨_, rfl, ho.free⟩
  · rw [BulkGhost.setChunks_ne hbb]
    exact Or.inl ⟨(List.mem_cons.mp hb).resolve_left hbb, rfl⟩

/-! ### No two free chunks next to each other -/

/-- One of the two chunks is live. -/
def OneLive (live : List (ℕ × ℕ)) (c d : Chunk) : Prop :=
  c.addr ∈ live.map Prod.fst ∨ d.addr ∈ live.map Prod.fst

def Coalesced (g : BulkGhost) (live : List (ℕ × ℕ)) : Prop := ∀ b ∈ g.blocks, (g.chunks b).IsChain (OneLive live)

/-- A chunk that is none of these is given back. -/
theorem isChain_release (hn : (live.map Prod.fst).Nodup) (h : l.IsChain (OneLive live))
    (hp : ∀ c ∈ l, c.addr ≠ p) : l.IsChain (OneLive (release p live)) := by
  refine h.imp_of_mem_imp fun c d hc hd hcd => ?_
  unfold OneLive
  rw [mem_release_map hn, mem_release_map hn]
  exact hcd.imp (fun h => ⟨h, hp c hc⟩) fun h => ⟨h, hp d hd⟩

theorem Coalesced.allocate (h : Coalesced g live) (hA : Allocated cfg g live p k g') :
    Coalesced g' ((p, sz) :: live) := by
  have hmono : ∀ {l : List Chunk}, l.IsChain (OneLive live) → l.IsChain (OneLive ((p, sz) :: live)) := fun hl =>
    hl.imp fun _ _ hcd => hcd.imp (List.mem_cons_of_mem _) (List.mem_cons_of_mem _)
  cases hA with
  | exact hk hl hg =>
    subst hg
    exact fun b hb => hmono (h b hb)
  | large hk hg =>
    subst hg
    exact fun b hb => hmono (h b hb)
  | cut hk g₁ b l c ho hp hcut =>
    obtain ⟨hb, hl, -, -, rfl⟩ := hcut
    have h₁ : Coalesced g₁ live := fun b' hb' => by
      rcases opened_chunks ho hb' with ⟨hb', hch⟩ | ⟨d, hch, -⟩
      · rw [hch]
        exact h b' hb'
      · rw [hch]
        exact .singleton d
    intro b' hb'
    rw [BulkGhost.cut_chunks]
    by_cases hbb : b' = b
    · subst hbb
      rw [BulkGhost.setChunks_self]
      have hlive : c.addr ∈ ((p, sz) :: live).map Prod.fst := by simp [hp]
      have hch := h₁ b' hb'
      rw [hl] at hch
      refine List.isChain_append.mpr ⟨hmono (List.isChain_append.mp hch).1, .cons_cons (Or.inl hlive) (.singleton _),
        fun x _ y hy => ?_⟩
      obtain rfl := Option.mem_some_iff.mp hy
      exact Or.inr hlive
    · rw [BulkGhost.setChunks_ne hbb]
      exact hmono (h₁ b' hb')

/-- The neighbours of a block's chunk that is given back are live, or the next
one is flagged and free. -/
def MergesFree (r : BulkRun) : BulkOp → Prop
  | .deallocate p => getPageCount r.s.w.mem p ≠ 0 →
    (prevInBlock r.s.w.mem p = 0 ∨ prevInBlock r.s.w.mem p ∈ r.live.map Prod.fst) ∧
      (nextInBlock r.s.w.mem p = 0 ∨ (isFree r.s.w.mem (nextInBlock r.s.w.mem p) = true ↔
        nextInBlock r.s.w.mem p ∉ r.live.map Prod.fst))
  | _ => True

instance (r : BulkRun) : (op : BulkOp) → Decidable (MergesFree r op)
  | .deallocate _ => inferInstanceAs (Decidable (_ → _ ∧ _))
  | .allocate _ | .write _ _ => inferInstanceAs (Decidable True)

theorem MergesFree.keepsLive (h : MergesFree r op) : KeepsLive r op := by
  cases op with
  | deallocate p =>
    intro hx
    obtain ⟨h0, hn, hf, hlive⟩ := hx
    exact ((h h0).2.resolve_left hn).mp hf hlive
  | _ => trivial

/-- What `MergesFree` says of the neighbours of a chunk: the one before is live,
and the one after too where it is not flagged. -/
theorem neighbours_live (h : BulkInv cfg r.s g r.live) (hcfg : Fits cfg) (hb : b ∈ g.blocks)
    (hl : g.chunks b = l ++ c :: m) (hcp : c.addr = p) (hok : MergesFree r (.deallocate p)) :
    (∀ d ∈ l.getLast?, d.addr ∈ r.live.map Prod.fst) ∧
      ∀ d ∈ m.head?, d.flag = false → d.addr ∈ r.live.map Prod.fst := by
  have hB := h.block b hb
  rw [hl] at hB
  obtain ⟨hprev, hpages, hnext, -⟩ := hB.read hcfg
  have hc0 := (hB.chunk (c := c) (by simp)).2.2.1
  rw [hcp] at hprev hpages hnext
  obtain ⟨h1, h2⟩ := hok (by rw [hpages]; exact hc0.ne')
  refine ⟨fun d hd => ?_, fun d hd hf => ?_⟩
  · have hdl := List.mem_of_getLast? hd
    have hpos := (hB.pageMapped (List.mem_append_left _ hdl)).pos
    rw [hprev, lastAddr_getLast hd] at h1
    exact h1.resolve_left hpos.ne'
  · obtain ⟨m', rfl⟩ : ∃ m', m = d :: m' := List.head?_eq_some_iff.mp hd
    have hpos := (hB.pageMapped (c := d) (by simp)).pos
    rw [hnext, show headAddr (d :: m') 0 = d.addr from rfl, (hB.reads hcfg (c := d) (by simp)).2, hf] at h2
    by_contra hlive
    exact absurd ((h2.resolve_left hpos.ne').mpr hlive) (by simp)

theorem Coalesced.deallocate (hI : BulkInv cfg r.s g r.live) (hcfg : Fits cfg) (h : Coalesced g r.live)
    (hp : (p, sz) ∈ r.live) (hD : Deallocated cfg g r.live p (pageCountOf sz) g')
    (hok : MergesFree r (.deallocate p)) : Coalesced g' (release p r.live) := by
  have hn := hI.nodup
  -- the chunks of the other blocks
  have hother : ∀ {b b' : ℕ} {c : Chunk}, b ∈ g.blocks → c ∈ g.chunks b → c.addr = p → b' ∈ g.blocks → b' ≠ b →
      (g.chunks b').IsChain (OneLive (release p r.live)) := fun hb hc hcp hb' hne =>
    isChain_release hn (h _ hb') fun d hd hdp => hne (hI.addr_unique hb' hb hd hc (hdp.trans hcp.symm)).1
  cases hD with
  | large hk hg =>
    subst hg
    exact fun b hb => isChain_release hn (h b hb) fun c hc hcp => hI.large_not_chunk hp hk ⟨b, hb, c, hc, hcp, rfl⟩
  | kept hk b l c m hb hl hcp hm hg =>
    subst hg
    intro b' hb'
    have hc : c ∈ g.chunks b := by
      rw [hl]
      simp
    by_cases hbb : b' = b
    swap
    · exact hother hb hc hcp hb' hbb
    subst hbb
    have hB := hI.block b' hb
    have hch := h b' hb
    rw [hl] at hB hch
    obtain ⟨hleft, hright⟩ := neighbours_live hI hcfg hb hl hcp hok
    obtain ⟨hnl, hnm⟩ := hB.addr_ne
    rw [hcp] at hnl hnm
    obtain ⟨hchl, hchm, -⟩ := List.isChain_append.mp hch
    show (g.chunks b').IsChain _
    rw [hl]
    refine List.isChain_append.mpr ⟨isChain_release hn hchl hnl, ?_, fun x hx y hy => Or.inl ?_⟩
    · cases m with
      | nil => exact .singleton c
      | cons d m =>
        refine .cons_cons (Or.inr ?_) (isChain_release hn (List.isChain_cons_cons.mp hchm).2 hnm)
        exact (mem_release_map hn).mpr ⟨hright d rfl (hm d rfl), hnm d List.mem_cons_self⟩
    · exact (mem_release_map hn).mpr ⟨hleft x hx, hnl x (List.mem_of_getLast? hx)⟩
  | merged hk b l c d hb hl hcp hd hfree hg =>
    subst hg
    intro b' hb'
    have hc : c ∈ g.chunks b := by
      rw [hl]
      simp
    rw [BulkGhost.merge_chunks]
    by_cases hbb : b' = b
    swap
    · rw [BulkGhost.setChunks_ne hbb]
      exact hother hb hc hcp hb' hbb
    subst hbb
    have hB := hI.block b' hb
    have hch := h b' hb
    rw [hl] at hB hch
    obtain ⟨hleft, -⟩ := neighbours_live hI hcfg hb hl hcp hok
    obtain ⟨hnl, -⟩ := hB.addr_ne
    rw [hcp] at hnl
    rw [BulkGhost.setChunks_self]
    refine List.isChain_append.mpr ⟨isChain_release hn (List.isChain_append.mp hch).1 hnl, .singleton _,
      fun x hx y hy => Or.inl ?_⟩
    exact (mem_release_map hn).mpr ⟨hleft x hx, hnl x (List.mem_of_getLast? hx)⟩

/-- No two neighbouring chunks of the block are free, and where none is live it
is one chunk, on the last list. -/
structure CoalescedBlock (cfg : BulkCfg) (r : BulkRun) (b : ℕ) (cs : List ℕ) : Prop where
  visits : Visits r.s.w.mem b cs
  merged : cs.IsChain fun a a' => a ∈ r.live.map Prod.fst ∨ a' ∈ r.live.map Prod.fst
  reclaimed : (∀ a ∈ cs, a ∉ r.live.map Prod.fst) → cs = [b] ∧
    getPageCount r.s.w.mem b = cfg.pagesPerAllocatedBlock ∧
    ∃ l, DList (nextFree r.s.w.mem) (prevFree r.s.w.mem) 0 0 (r.s.c.freeListBegin cfg.max_pages) l ∧ b ∈ l

theorem Coalesced.block (hI : BulkInv cfg r.s g r.live) (hcfg : Fits cfg) (h : Coalesced g r.live)
    (hb : b ∈ g.blocks) : CoalescedBlock cfg r b ((g.chunks b).map Chunk.addr) := by
  have hB := hI.block b hb
  refine ⟨hB.visits hcfg, (List.isChain_map Chunk.addr).mpr (h b hb), fun hfree => ?_⟩
  have hch := h b hb
  cases hl : g.chunks b with
  | nil =>
    have hfirst := hB.first hcfg
    rw [hl] at hfirst
    exact absurd hfirst hB.pos.ne
  | cons c m =>
    rw [hl] at hB hch hfree
    have hc : c.addr = b := hB.tiled.1
    cases m with
    | cons d m =>
      rcases (List.isChain_cons_cons.mp hch).1 with hlive | hlive
      · exact absurd hlive (hfree c.addr (by simp))
      · exact absurd hlive (hfree d.addr (by simp))
    | nil =>
      have hsum := hB.tiled.sum
      have hsize := BulkCfg.size_eq cfg
      simp only [List.map_cons, List.map_nil, List.sum_singleton] at hsum
      have hpages : c.pages = cfg.pagesPerAllocatedBlock := by omega
      have hmax := hcfg.max_lt
      have hlt := hcfg.pages_lt
      refine ⟨by rw [List.map_cons, hc]; rfl, ?_, _, hI.lists.dlist _ le_rfl, (hI.free _ le_rfl b).mpr
        ⟨c.pages, ⟨b, hb, c, ?_, hc, rfl⟩, ?_, hc ▸ hfree c.addr (by simp)⟩⟩
      · rw [← hpages, ← hc]
        exact (hB.reads hcfg (by simp)).1
      · rw [hl]
        exact List.mem_cons_self
      · rw [hpages, listOf_eq (by omega) hlt, if_pos hmax]

/-- **Free chunks are merged**, in any run that gives back a chunk only where
its neighbours are live, or the next one is free and flagged: no two
neighbouring chunks are free, and a block with no live chunk is one chunk of
all its pages, on the last list. -/
theorem coalesced_run (h₀ : r₀.Starts bulkAllocatorT)
    (hr : Reach (BulkRun.step bulkAllocatorT os) MergesFree r₀ r) :
    ∃ bs, Blocks r.s bs ∧ ∀ b ∈ bs, ∃ cs, CoalescedBlock bulkAllocatorT r b cs := by
  have hcfg := bulkAllocatorT_fits
  obtain ⟨g, hI, h⟩ : ∃ g, BulkInv bulkAllocatorT r.s g r.live ∧ Coalesced g r.live := by
    refine hr.invariant (P := fun r => ∃ g, BulkInv bulkAllocatorT r.s g r.live ∧ Coalesced g r.live)
      ⟨.empty, .start h₀, fun b hb => by cases hb⟩ ?_
    rintro s t op ⟨g, hI, h⟩ hok hs
    obtain ⟨g', hI', hm⟩ := hI.step hcfg hok.keepsLive hs
    refine ⟨g', hI', ?_⟩
    cases hm with
    | allocate sz p hA hl => exact hl ▸ h.allocate hA
    | deallocate p sz hp hD hl => exact hl ▸ h.deallocate hI hcfg hp hD hok
    | same _ hg hl => exact hg ▸ hl ▸ h
  exact ⟨g.blocks, hI.blocks, fun b hb => ⟨_, h.block hI hcfg hb⟩⟩

/-- Two chunks are given back, the one after first. -/
theorem coalesced_run_four : ∃ r, run (BulkRun.step bulkAllocatorT (Os.linear 0)) (fun r op => decide (MergesFree r op))
      .fresh [.allocate 4096, .allocate 4096, .deallocate 8192, .deallocate 4096] = some r ∧
    ∃ bs, Blocks r.s bs ∧ ∀ b ∈ bs, ∃ cs, CoalescedBlock bulkAllocatorT r b cs := by
  obtain ⟨r, hr⟩ := Option.isSome_iff_exists.mp (show (run (BulkRun.step bulkAllocatorT (Os.linear 0))
      (fun r op => decide (MergesFree r op)) .fresh
      [.allocate 4096, .allocate 4096, .deallocate 8192, .deallocate 4096]).isSome = true by decide +kernel)
  exact ⟨r, hr, coalesced_run (BulkRun.init_starts _ _)
    ((Reach.of_run hr).mono fun _ _ hok => of_decide_eq_true hok)⟩

/-- Given back in the other order they stay apart: the first is not flagged. -/
theorem not_coalesced_run : ∃ r, run (BulkRun.step bulkAllocatorT (Os.linear 0)) (fun _ _ => true) .fresh
      [.allocate 4096, .allocate 4096, .deallocate 4096, .deallocate 8192] = some r ∧ r.live = [] ∧
    ¬ ∃ bs, Blocks r.s bs ∧ ∀ b ∈ bs, ∃ cs, CoalescedBlock bulkAllocatorT r b cs := by
  obtain ⟨r, hr, hv⟩ := Option.map_eq_some_iff.mp (show (run (BulkRun.step bulkAllocatorT (Os.linear 0))
      (fun _ _ => true) .fresh [.allocate 4096, .allocate 4096, .deallocate 4096, .deallocate 8192]).map (fun r =>
        (decide (r.s.c.blocks.head ≠ 0), (r.s.c.blocks.heap r.s.c.blocks.head).item, r.live,
          nextInBlock r.s.w.mem 4096)) = some (true, 4096, [], 8192) by decide +kernel)
  simp only [Prod.mk.injEq, decide_eq_true_eq] at hv
  obtain ⟨hhead, hitem, hlive, hnext⟩ := hv
  refine ⟨r, hr, hlive, ?_⟩
  intro hx
  obtain ⟨bs, hbs, hC⟩ := hx
  obtain ⟨cs, hC⟩ := hC _ (hitem ▸ hbs.head_mem hhead)
  obtain ⟨rfl, -⟩ := hC.reclaimed fun a _ => by simp [hlive]
  have hv : nextInBlock r.s.w.mem 4096 = 0 := hC.visits.2.2.2
  rw [hnext] at hv
  exact absurd hv (by norm_num)

/-! ### Flags and lists -/

/-- The last chunk of each block is free, and every other is live. -/
def Flagged (g : BulkGhost) (live : List (ℕ × ℕ)) : Prop :=
  ∀ b ∈ g.blocks, ∃ l c, g.chunks b = l ++ [c] ∧ c.addr ∉ live.map Prod.fst ∧ ∀ d ∈ l, d.addr ∈ live.map Prod.fst

/-- No chunk is taken from the list of its own page count, and a block's chunk
that is given back has a flagged chunk after it. -/
def KeepsFlags (cfg : BulkCfg) (r : BulkRun) : BulkOp → Prop
  | .allocate sz => pageCountOf sz ≤ cfg.max_pages → r.s.c.freeListBegin (pageCountOf sz - 1) = 0
  | .deallocate p => getPageCount r.s.w.mem p ≠ 0 →
    nextInBlock r.s.w.mem p ≠ 0 ∧ isFree r.s.w.mem (nextInBlock r.s.w.mem p) = true
  | .write _ _ => True

instance (r : BulkRun) : (op : BulkOp) → Decidable (KeepsFlags cfg r op)
  | .allocate _ => inferInstanceAs (Decidable (_ → _ = _))
  | .deallocate _ => inferInstanceAs (Decidable (_ → _ ∧ _))
  | .write _ _ => inferInstanceAs (Decidable True)

theorem Flagged.allocate (hI : BulkInv cfg s g live) (hI' : BulkInv cfg t g' ((p, sz) :: live)) (hcfg : Fits cfg)
    (h : Flagged g live) (hA : Allocated cfg g live p (pageCountOf sz) g')
    (hempty : pageCountOf sz ≤ cfg.max_pages → s.c.freeListBegin (pageCountOf sz - 1) = 0) :
    Flagged g' ((p, sz) :: live) := by
  have hp : (p, sz) ∈ (p, sz) :: live := List.mem_cons_self
  cases hA with
  | exact hk hl hg =>
    rw [(hI.lists.first_eq_zero (by omega)).mp (hempty hk)] at hl
    cases hl
  | large hk hg =>
    subst hg
    intro b hb
    obtain ⟨l, c, hl, hc, hlive⟩ := h b hb
    refine ⟨l, c, hl, ?_, fun d hd => List.mem_cons_of_mem _ (hlive d hd)⟩
    rw [List.map_cons, List.mem_cons, not_or]
    exact ⟨fun hcp => hI'.large_not_chunk hp hk ⟨b, hb, c, by rw [hl]; simp, hcp, rfl⟩, hc⟩
  | cut hk g₁ b l c ho hcp hcut =>
    obtain ⟨hb, hl, hkc, -, rfl⟩ := hcut
    have h₁ : Flagged g₁ live := fun b' hb' => by
      rcases opened_chunks ho hb' with ⟨hb', hch⟩ | ⟨d, hch, hd⟩
      · rw [hch]
        exact h b' hb'
      · exact ⟨[], d, hch, hd, fun x hx => by cases hx⟩
    have hfirst : (⟨c.addr, pageCountOf sz, false⟩ : Chunk) ∈ (g₁.cut cfg b l c (pageCountOf sz)).chunks b := by
      rw [BulkGhost.cut_chunks, BulkGhost.setChunks_self]
      simp
    have hrest : (⟨c.addr + pageCountOf sz * 4096, c.pages - pageCountOf sz, true⟩ : Chunk) ∈
        (g₁.cut cfg b l c (pageCountOf sz)).chunks b := by
      rw [BulkGhost.cut_chunks, BulkGhost.setChunks_self]
      simp
    intro b' hb'
    obtain ⟨l', c', hl', hc', hlive'⟩ := h₁ b' hb'
    by_cases hbb : b' = b
    · subst hbb
      obtain ⟨rfl, -⟩ := List.append_inj' (hl.symm.trans hl') rfl
      refine ⟨l ++ [⟨c.addr, pageCountOf sz, false⟩], _, by
        rw [BulkGhost.cut_chunks, BulkGhost.setChunks_self, List.append_assoc]
        rfl, ?_, fun d hd => ?_⟩
      · -- the rest is on a list
        have hlt := hcfg.pages_lt
        have hle := (hI'.block b' hb').pages_le hrest
        have hi : listOf cfg (c.pages - pageCountOf sz) ≤ cfg.max_pages := listOf_le (by omega) (by
          have : c.pages - pageCountOf sz ≤ cfg.pagesPerAllocatedBlock := hle
          omega)
        obtain ⟨-, -, -, hout⟩ := (hI'.free _ hi _).mp (mem_setList_cons.mpr (Or.inr ⟨rfl, rfl⟩))
        exact hout
      · rcases List.mem_append.mp hd with hd | hd
        · exact List.mem_cons_of_mem _ (hlive' d hd)
        · rw [List.mem_singleton.mp hd, List.map_cons]
          exact hcp ▸ List.mem_cons_self
    · rw [BulkGhost.cut_chunks, BulkGhost.setChunks_ne hbb]
      refine ⟨l', c', hl', ?_, fun d hd => List.mem_cons_of_mem _ (hlive' d hd)⟩
      rw [List.map_cons, List.mem_cons, not_or]
      refine ⟨fun hcp' => hbb (hI'.addr_unique hb' hb ?_ hfirst (hcp'.trans hcp.symm)).1, hc'⟩
      rw [BulkGhost.cut_chunks, BulkGhost.setChunks_ne hbb, hl']
      simp

theorem Flagged.deallocate (hI : BulkInv cfg r.s g r.live) (hcfg : Fits cfg) (h : Flagged g r.live)
    (hp : (p, sz) ∈ r.live) (hD : Deallocated cfg g r.live p (pageCountOf sz) g')
    (hok : KeepsFlags cfg r (.deallocate p)) : Flagged g' (release p r.live) := by
  have hkeep : ∀ {l : List Chunk}, (∀ d ∈ l, d.addr ∈ r.live.map Prod.fst) → (∀ d ∈ l, d.addr ≠ p) →
      ∀ d ∈ l, d.addr ∈ (release p r.live).map Prod.fst := fun hl hne d hd =>
    (mem_release_map hI.nodup).mpr ⟨hl d hd, hne d hd⟩
  have hout : ∀ {a : ℕ}, a ∉ r.live.map Prod.fst → a ∉ (release p r.live).map Prod.fst := fun ha ha' =>
    ha ((mem_release_map hI.nodup).mp ha').1
  cases hD with
  | large hk hg =>
    subst hg
    intro b hb
    obtain ⟨l, c, hl, hc, hlive⟩ := h b hb
    refine ⟨l, c, hl, hout hc, hkeep hlive fun d hd hdp => hI.large_not_chunk hp hk ⟨b, hb, d, ?_, hdp, rfl⟩⟩
    rw [hl]
    exact List.mem_append_left _ hd
  | kept hk b l c m hb hl hcp hm hg =>
    have hB := hI.block b hb
    rw [hl] at hB
    obtain ⟨-, hpages, hnext, -⟩ := hB.read hcfg
    have hc0 := (hB.chunk (c := c) (by simp)).2.2.1
    rw [hcp] at hpages hnext
    obtain ⟨hn, hf⟩ := hok (by rw [hpages]; exact hc0.ne')
    rw [hnext] at hn hf
    cases m with
    | nil => exact absurd rfl hn
    | cons d m =>
      have hd : isFree r.s.w.mem d.addr = d.flag := (hB.reads hcfg (by simp)).2
      rw [show headAddr (d :: m) 0 = d.addr from rfl, hd, hm d rfl] at hf
      cases hf
  | merged hk b l c d hb hl hcp hd hfree hg =>
    subst hg
    have hc : c ∈ g.chunks b := by
      rw [hl]
      simp
    intro b' hb'
    obtain ⟨l', c', hl', hc', hlive'⟩ := h b' hb'
    rw [BulkGhost.merge_chunks]
    by_cases hbb : b' = b
    · subst hbb
      have hB := hI.block b' hb'
      rw [hl] at hB
      rw [hl, List.append_cons] at hl'
      obtain ⟨rfl, -⟩ := List.append_inj' hl' rfl
      refine ⟨l, _, BulkGhost.setChunks_self _ _ _, ?_, hkeep (fun x hx => hlive' x (List.mem_append_left _ hx))
        (hcp ▸ hB.addr_ne.1)⟩
      rw [mem_release_map hI.nodup]
      exact fun hx => hx.2 hcp
    · rw [BulkGhost.setChunks_ne hbb]
      refine ⟨l', c', hl', hout hc', hkeep hlive' fun x hx hxp => hbb ?_⟩
      exact (hI.addr_unique hb' hb (by rw [hl']; exact List.mem_append_left _ hx) hc (hxp.trans hcp.symm)).1

/-- A flagged chunk is the last of its block, which is free. -/
theorem Flagged.keepsLive (hI : BulkInv cfg r.s g r.live) (hcfg : Fits cfg) (h : Flagged g r.live)
    (hop : op.Allowed r.live) : KeepsLive r op := by
  cases op with
  | deallocate p =>
    intro hx
    obtain ⟨h0, hn, hf, hlive⟩ := hx
    obtain ⟨⟨q, sz⟩, he, rfl⟩ := List.mem_map.mp hop
    obtain ⟨b, hb, l, c, m, hl, hcp, -⟩ := hI.live_chunk he (hI.small_of_pages he h0)
    have hB := hI.block b hb
    have hS := hI.shape b hb
    obtain ⟨l', c', hl', hc', -⟩ := h b hb
    rw [hl'] at hl
    rw [hl', hl] at hB
    rw [hl', hl] at hS
    obtain ⟨-, -, hnext, -⟩ := hB.read hcfg
    rw [← hcp, hnext] at hn hf hlive
    cases m with
    | nil => exact hn rfl
    | cons d m =>
      have hd : isFree r.s.w.mem d.addr = d.flag := (hB.reads hcfg (by simp)).2
      rw [show headAddr (d :: m) 0 = d.addr from rfl] at hf hlive
      rw [List.append_cons l c] at hS hl
      obtain rfl : m = [] := hS.last (hd.symm.trans hf)
      obtain ⟨-, hcd⟩ := List.append_inj' hl rfl
      exact hc' (List.singleton_inj.mp hcd ▸ hlive)
  | _ => trivial

/-- A chunk is flagged, and on the list of its page count and no other, exactly
where it is free. -/
structure CoherentBlock (cfg : BulkCfg) (r : BulkRun) (ls : ℕ → List ℕ) (b : ℕ) (cs : List ℕ) : Prop where
  visits : Visits r.s.w.mem b cs
  flag : ∀ a ∈ cs, a ∉ r.live.map Prod.fst ↔ isFree r.s.w.mem a = true
  listed : ∀ a ∈ cs, a ∉ r.live.map Prod.fst ↔
    ∀ i ≤ cfg.max_pages, a ∈ ls i ↔ i = min (getPageCount r.s.w.mem a - 1) cfg.max_pages

theorem Flagged.block (hI : BulkInv cfg r.s g r.live) (hcfg : Fits cfg) (h : Flagged g r.live)
    (hb : b ∈ g.blocks) : CoherentBlock cfg r g.lists b ((g.chunks b).map Chunk.addr) := by
  have hB := hI.block b hb
  have hlt := hcfg.pages_lt
  refine ⟨hB.visits hcfg, fun a ha => ?_, fun a ha => ?_⟩
  · obtain ⟨c, hc, rfl⟩ := List.mem_map.mp ha
    obtain ⟨l, d, hl, hd, hlive⟩ := h b hb
    obtain ⟨l', d', hl', hf, hnf⟩ := hI.shape b hb
    obtain ⟨rfl, hdd⟩ := List.append_inj' (hl.symm.trans hl') rfl
    obtain rfl : d = d' := List.singleton_inj.mp hdd
    rw [(hB.reads hcfg hc).2]
    rw [hl] at hc
    rcases List.mem_append.mp hc with hc | hc
    · rw [(hnf c hc).1]
      exact iff_of_false (not_not.mpr (hlive c hc)) (by simp)
    · obtain rfl := List.mem_singleton.mp hc
      exact iff_of_true hd hf
  · obtain ⟨c, hc, rfl⟩ := List.mem_map.mp ha
    have h0 := (hB.chunk hc).2.2.1
    have hle := hB.pages_le hc
    rw [(hB.reads hcfg hc).1]
    have hidx : listOf cfg c.pages = min (c.pages - 1) cfg.max_pages := by
      rw [listOf_eq h0 (by omega)]
      split_ifs <;> omega
    constructor
    · intro hout i hi
      rw [hI.free i hi, ← hidx]
      constructor
      · intro hx
        obtain ⟨k, ⟨b', hb', d, hd, hda, rfl⟩, hk, -⟩ := hx
        obtain ⟨-, rfl⟩ := hI.addr_unique hb' hb hd hc hda
        exact hk.symm
      · rintro rfl
        exact ⟨c.pages, ⟨b, hb, c, hc, rfl, rfl⟩, rfl, hout⟩
    · intro hall hlive
      exact hI.live_not_listed hlive _ (min_le_right _ _) ((hall _ (min_le_right _ _)).mpr rfl)

/-- **Flags and free lists agree**, in any run that takes no chunk from the list
of its page count and gives back a chunk only where the next one is flagged. -/
theorem coherent_run (h₀ : r₀.Starts bulkAllocatorT)
    (hr : Reach (BulkRun.step bulkAllocatorT os) (KeepsFlags bulkAllocatorT) r₀ r) :
    ∃ ls : ℕ → List ℕ, (∀ i ≤ bulkAllocatorT.max_pages,
      DList (nextFree r.s.w.mem) (prevFree r.s.w.mem) 0 0 (r.s.c.freeListBegin i) (ls i)) ∧
    ∃ bs, Blocks r.s bs ∧ ∀ b ∈ bs, ∃ cs, CoherentBlock bulkAllocatorT r ls b cs := by
  have hcfg := bulkAllocatorT_fits
  obtain ⟨g, hI, h⟩ : ∃ g, BulkInv bulkAllocatorT r.s g r.live ∧ Flagged g r.live := by
    refine hr.invariant (P := fun r => ∃ g, BulkInv bulkAllocatorT r.s g r.live ∧ Flagged g r.live)
      ⟨.empty, .start h₀, fun b hb => by cases hb⟩ ?_
    rintro s t op ⟨g, hI, h⟩ hok hs
    have hop : op.Allowed s.live := by
      by_contra hn
      unfold BulkRun.step at hs
      rw [if_neg hn] at hs
      cases hs
    obtain ⟨g', hI', hm⟩ := hI.step hcfg (h.keepsLive hI hcfg hop) hs
    refine ⟨g', hI', ?_⟩
    cases hm with
    | allocate sz p hA hl => exact hl ▸ h.allocate hI (hl ▸ hI') hcfg hA hok
    | deallocate p sz hp hD hl => exact hl ▸ h.deallocate hI hcfg hp hD hok
    | same _ hg hl => exact hg ▸ hl ▸ h
  exact ⟨g.lists, hI.lists.dlist, g.blocks, hI.blocks, fun b hb => ⟨_, h.block hI hcfg hb⟩⟩

/-- The chunk after the one given back is flagged. -/
theorem coherent_run_four : ∃ r, run (BulkRun.step bulkAllocatorT (Os.linear 0))
      (fun r op => decide (KeepsFlags bulkAllocatorT r op)) .fresh
      [.allocate 4096, .allocate 4096, .deallocate 8192, .allocate 8000] = some r ∧
    ∃ ls : ℕ → List ℕ, (∀ i ≤ bulkAllocatorT.max_pages,
      DList (nextFree r.s.w.mem) (prevFree r.s.w.mem) 0 0 (r.s.c.freeListBegin i) (ls i)) ∧
    ∃ bs, Blocks r.s bs ∧ ∀ b ∈ bs, ∃ cs, CoherentBlock bulkAllocatorT r ls b cs := by
  obtain ⟨r, hr⟩ := Option.isSome_iff_exists.mp (show (run (BulkRun.step bulkAllocatorT (Os.linear 0))
      (fun r op => decide (KeepsFlags bulkAllocatorT r op)) .fresh
      [.allocate 4096, .allocate 4096, .deallocate 8192, .allocate 8000]).isSome = true by decide +kernel)
  exact ⟨r, hr, coherent_run (BulkRun.init_starts _ _)
    ((Reach.of_run hr).mono fun _ _ hok => of_decide_eq_true hok)⟩

/-- The chunk given back is free and not flagged. -/
theorem not_coherent_run : ∃ r, run (BulkRun.step bulkAllocatorT (Os.linear 0)) (fun _ _ => true) .fresh
      [.allocate 4096, .allocate 4096, .deallocate 4096] = some r ∧
    ¬ ∃ ls : ℕ → List ℕ, (∀ i ≤ bulkAllocatorT.max_pages,
      DList (nextFree r.s.w.mem) (prevFree r.s.w.mem) 0 0 (r.s.c.freeListBegin i) (ls i)) ∧
    ∃ bs, Blocks r.s bs ∧ ∀ b ∈ bs, ∃ cs, CoherentBlock bulkAllocatorT r ls b cs := by
  obtain ⟨r, hr, hv⟩ := Option.map_eq_some_iff.mp (show (run (BulkRun.step bulkAllocatorT (Os.linear 0))
      (fun _ _ => true) .fresh [.allocate 4096, .allocate 4096, .deallocate 4096]).map (fun r =>
        (decide (r.s.c.blocks.head ≠ 0), (r.s.c.blocks.heap r.s.c.blocks.head).item, r.live,
          isFree r.s.w.mem 4096)) = some (true, 4096, [(8192, 4096)], false) by decide +kernel)
  simp only [Prod.mk.injEq, decide_eq_true_eq] at hv
  obtain ⟨hhead, hitem, hlive, hflag⟩ := hv
  refine ⟨r, hr, ?_⟩
  intro hx
  obtain ⟨ls, -, bs, hbs, hC⟩ := hx
  obtain ⟨cs, hC⟩ := hC _ (hitem ▸ hbs.head_mem hhead)
  have hmem : 4096 ∈ cs := by
    cases cs with
    | nil => exact absurd hC.visits (by norm_num [Visits, DList])
    | cons a cs =>
      rw [hC.visits.1]
      exact List.mem_cons_self
  have := (hC.flag 4096 hmem).mp (by simp [hlive])
  rw [hflag] at this
  cases this

end BulkAllocator

end IibMalloc

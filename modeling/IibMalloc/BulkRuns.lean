/-
# BulkAllocator: whole runs

A run starts with `initialize`, from any state, and is any sequence of calls
`allocate` and `deallocate` and of writes of the client to the chunks it holds,
behind their headers.
-/
import IibMalloc.BulkDealloc
import IibMalloc.Lib.Run

namespace IibMalloc

open Lib AnyChunkHeader

namespace BulkAllocator

structure BulkRun where
  s : St BulkAllocator
  live : List (ℕ × ℕ)

inductive BulkOp where
  | allocate (sz : ℕ)
  | deallocate (p : ℕ)
  | write (a v : ℕ)

variable (cfg : BulkCfg) (os : Os)

/-- The client may write the word at `a`: it is one of a chunk it holds, behind
the header. -/
def Writable (live : List (ℕ × ℕ)) (a : ℕ) : Prop :=
  a % 8 = 0 ∧ ∃ e ∈ live, e.1 + 16 ≤ a ∧ a + 8 ≤ e.1 + chunkBytes e.2

instance (live : List (ℕ × ℕ)) (a : ℕ) : Decidable (Writable live a) := by
  unfold Writable
  infer_instance

/-- What the client may do where it holds `live`. From `2 ^ 64 - 4095` bytes on the
page count wraps around. -/
def BulkOp.Allowed (live : List (ℕ × ℕ)) : BulkOp → Prop
  | .allocate sz => 0 < sz ∧ sz ≤ 2 ^ 64 - 4096
  | .deallocate p => p ∈ live.map Prod.fst
  | .write a v => Writable live a ∧ v < 2 ^ 64

instance (live : List (ℕ × ℕ)) (op : BulkOp) : Decidable (op.Allowed live) := by
  unfold BulkOp.Allowed
  split <;> infer_instance

/-- The size of the chunk `p`, as `deallocate` reads it from the header. -/
def chunkSize (mem : ℕ → ℕ) (p : ℕ) : ℕ :=
  if getPageCount mem p = 0 then prevInBlock mem p else getPageCount mem p <<< PAGE_SIZE_EXP

/-- One call, or one write. -/
def BulkRun.step (r : BulkRun) (op : BulkOp) : Option BulkRun :=
  if op.Allowed r.live then
    match op with
    | .allocate sz =>
      match Act.exec (BulkAllocator.allocate cfg os sz) r.s with
      | .ret p t => some ⟨t, (p, sz) :: r.live⟩
      | .throw t => some ⟨t, r.live⟩
      | .stuck => none
    | .deallocate p =>
      match Act.exec (BulkAllocator.deallocate cfg p) r.s with
      | .ret _ t => some ⟨t, release p r.live⟩
      | .throw t => some ⟨t, release p r.live⟩
      | .stuck => none
    | .write a v => some ⟨{ r.s with w.mem := store r.s.w.mem a v }, r.live⟩
  else none

/-- The state after `initialize`, from any state. -/
def BulkRun.Starts (r : BulkRun) : Prop :=
  ∃ w c, Act.exec (BulkAllocator.init cfg PAGE_SIZE_EXP) ⟨w, c⟩ = .ret () r.s ∧ r.live = []

/-- The run that starts at `c`. -/
def BulkRun.init (w : World) (c : BulkAllocator) : BulkRun :=
  match Act.exec (BulkAllocator.init cfg PAGE_SIZE_EXP) ⟨w, c⟩ with
  | .ret _ s => ⟨s, []⟩
  | _ => ⟨⟨w, c⟩, []⟩

/-- Memory that was never initialised. -/
def raw : BulkAllocator :=
  let base : PageAllocatorWithCaching := ⟨fun _ => 7, fun _ => ⟨.null, .lst 7, 7, 7⟩, {}, 7⟩
  ⟨base, ⟨base, 7, 7, 7, fun _ => ⟨7, 7⟩⟩, fun _ => 7⟩

/-- The run on a fresh machine. -/
def BulkRun.fresh : BulkRun := BulkRun.init bulkAllocatorT ⟨[], fun _ => 7, true⟩ raw

variable {cfg os} {r r' r₀ : BulkRun} {op : BulkOp} {s : St BulkAllocator} {g g' : BulkGhost}
  {live : List (ℕ × ℕ)} {a b x sz p : ℕ} {e e' : ℕ × ℕ} {l : List Chunk} {c : Chunk}

theorem BulkRun.init_starts (w : World) (c : BulkAllocator) : (BulkRun.init cfg w c).Starts cfg :=
  ⟨w, c, rfl, rfl⟩

/-- `deallocate` is not called with a chunk that it would merge with a chunk
that is live. -/
def KeepsLive (r : BulkRun) : BulkOp → Prop
  | .deallocate p => ¬ MergesLive r.s.w.mem r.live p
  | _ => True

instance (r : BulkRun) (op : BulkOp) : Decidable (KeepsLive r op) := by
  unfold KeepsLive
  split <;> infer_instance

/-! ### The chunks that are live -/

namespace BulkInv

/-- The bytes of a chunk that is live. -/
theorem live_chunk_within (h : BulkInv cfg s g live) (hcfg : Fits cfg) (he : e ∈ live)
    (hk : pageCountOf e.2 ≤ cfg.max_pages) : ∃ b ∈ g.blocks, ∃ c ∈ g.chunks b, c.addr = e.1 ∧
      c.pages = pageCountOf e.2 ∧ ∀ x, Within e.1 (chunkBytes e.2) x ↔ c.addr ≤ x ∧ x < c.stop := by
  obtain ⟨b, hb, c, hc, hca, hcp⟩ := h.small e he hk
  refine ⟨b, hb, c, hc, hca, hcp, fun x => ?_⟩
  have hlt := hcfg.max_lt
  have hlt' := hcfg.pages_lt
  obtain ⟨hs0, hs⟩ := h.sizes e he
  rw [(pageCountOf_bytes hs0 hs).2.2 (by omega), ← hcp, ← hca]
  rfl

/-- A chunk of a block that meets one that is live is that one. -/
theorem chunk_live (h : BulkInv cfg s g live) (hcfg : Fits cfg) (he : e ∈ live) (hb : b ∈ g.blocks)
    (hc : c ∈ g.chunks b) (hx : Within e.1 (chunkBytes e.2) x) (hx' : c.addr ≤ x ∧ x < c.stop) : c.addr = e.1 := by
  by_cases hk : cfg.max_pages < pageCountOf e.2
  · exact absurd (h.chunk_within hb hc hx') (h.large_not_block he hk hb hx)
  · obtain ⟨b', hb', d, hd, hda, -, hw⟩ := h.live_chunk_within hcfg he (by omega)
    obtain ⟨-, rfl⟩ := h.chunk_unique hb hb' hc hd hx' ((hw x).mp hx)
    exact hda

/-- Chunks that are live and meet are one. -/
theorem live_unique (h : BulkInv cfg s g live) (hcfg : Fits cfg) (he : e ∈ live) (he' : e' ∈ live)
    (hx : Within e.1 (chunkBytes e.2) x) (hx' : Within e'.1 (chunkBytes e'.2) x) : e.1 = e'.1 := by
  by_cases hk : cfg.max_pages < pageCountOf e.2 <;> by_cases hk' : cfg.max_pages < pageCountOf e'.2
  · have hr : (e.1, chunkBytes e.2) = (e'.1, chunkBytes e'.2) :=
      h.region_unique (large_region he hk) (large_region he' hk') hx hx'
    exact (Prod.mk.inj hr).1
  · obtain ⟨b, hb, c, hc, hca, -, hw⟩ := h.live_chunk_within hcfg he' (by omega)
    exact (h.chunk_live hcfg he hb hc hx ((hw x).mp hx')).symm.trans hca
  all_goals
    obtain ⟨b, hb, c, hc, hca, -, hw⟩ := h.live_chunk_within hcfg he (by omega)
    exact hca.symm.trans (h.chunk_live hcfg he' hb hc hx' ((hw x).mp hx))


/-- The client writes no word that the invariant speaks of. -/
theorem writable_not_word (h : BulkInv cfg s g live) (hcfg : Fits cfg) (ha : Writable live a) :
    ¬ BulkWord cfg g live a := by
  obtain ⟨-, e, he, h1, h2⟩ := ha
  have hx : Within e.1 (chunkBytes e.2) a := ⟨by omega, by omega⟩
  rintro (⟨b, hb, c, hc, hac⟩ | ⟨i, hi, a', ha', hw⟩ | ⟨e', he', hk', hae⟩)
  · have hca : c.addr = e.1 := h.chunk_live hcfg he hb hc hx (by
      rcases hac with rfl | rfl
      · exact h.chunk_start hb hc (k := 0) (by omega)
      · exact h.chunk_start hb hc (by omega))
    omega
  · -- a chunk on a list is not live
    obtain ⟨b, hb, c, hc, rfl, -, hout⟩ := h.listed hi ha'
    refine hout (h.chunk_live hcfg he hb hc hx ?_ ▸ List.mem_map_of_mem he)
    rcases hw with rfl | rfl
    · exact h.chunk_start hb hc (by omega)
    · exact h.chunk_start hb hc (by omega)
  · have hself := h.large_header he' (k := 8) (by omega)
    have hx' : Within e'.1 (chunkBytes e'.2) a := ⟨by omega, by have := hself.2; omega⟩
    have := h.live_unique hcfg he he' hx hx'
    omega

/-- All bytes of a chunk that is live are in a region held. -/
theorem live_bytes_owned (h : BulkInv cfg s g live) (hcfg : Fits cfg) (he : e ∈ live)
    (hx : Within e.1 (chunkBytes e.2) x) : g.Owned cfg live x := by
  by_cases hk : cfg.max_pages < pageCountOf e.2
  · exact ⟨_, large_region he hk, hx⟩
  · obtain ⟨b, hb, c, hc, -, -, hw⟩ := h.live_chunk_within hcfg he (by omega)
    exact block_owned hb (h.chunk_within hb hc ((hw x).mp hx))

/-- A chunk that is live starts at a page. -/
theorem live_aligned (h : BulkInv cfg s g live) (he : e ∈ live) : 4096 ∣ e.1 := by
  by_cases hk : cfg.max_pages < pageCountOf e.2
  · exact (h.large e he hk).1
  · obtain ⟨b, hb, c, hc, hca, -⟩ := h.small e he (by omega)
    exact hca ▸ ((h.block b hb).chunk hc).2.2.2

/-- The client's write behind the headers keeps the invariant. -/
theorem write (h : BulkInv cfg s g live) (hcfg : Fits cfg) (ha : Writable live a) (v : ℕ) :
    BulkInv cfg ⟨{ s.w with mem := store s.w.mem a v }, s.c⟩ g live :=
  h.transport rfl h.coll rfl h.idle (fun _ _ => rfl) fun _ hx =>
    store_ne fun hxa => h.writable_not_word hcfg ha (hxa ▸ hx)

/-- The size that `deallocate` reads. -/
theorem chunkSize_eq (h : BulkInv cfg s g live) (hcfg : Fits cfg) (he : e ∈ live) :
    chunkSize s.w.mem e.1 = chunkBytes e.2 := by
  have hlt := hcfg.max_lt
  have hlt' := hcfg.pages_lt
  obtain ⟨hs0, hs⟩ := h.sizes e he
  unfold chunkSize
  by_cases hk : cfg.max_pages < pageCountOf e.2
  · obtain ⟨h1, h2⟩ := h.large_read (p := e.1) he hk
    rw [if_pos h1, h2]
  · obtain ⟨b, hb, l, c, r, hl, hca, hcp⟩ := h.live_chunk (p := e.1) he (by omega)
    have hB := h.block b hb
    rw [hl] at hB
    obtain ⟨-, hpages, -⟩ := hB.read hcfg
    obtain ⟨hpos, -, hbytes⟩ := pageCountOf_bytes hs0 hs
    rw [← hca, hpages, hcp, if_neg (by omega), hbytes (by omega), PAGE_SIZE_EXP_eq, Nat.shiftLeft_eq]

end BulkInv

/-! ### One step -/

/-- What a step of a run makes of the chunks. -/
inductive Moved (cfg : BulkCfg) (g : BulkGhost) (live live' : List (ℕ × ℕ)) (g' : BulkGhost) : BulkOp → Prop where
  | allocate (sz p : ℕ) (h : Allocated cfg g live p (pageCountOf sz) g') (hl : live' = (p, sz) :: live) :
      Moved cfg g live live' g' (.allocate sz)
  | deallocate (p sz : ℕ) (hp : (p, sz) ∈ live) (h : Deallocated cfg g live p (pageCountOf sz) g')
      (hl : live' = release p live) : Moved cfg g live live' g' (.deallocate p)
  | same (op : BulkOp) (hg : g' = g) (hl : live' = live) : Moved cfg g live live' g' op

/-- The invariant over a step. -/
theorem BulkInv.step (h : BulkInv cfg r.s g r.live) (hcfg : Fits cfg) (hok : KeepsLive r op)
    (hs : r.step cfg os op = some r') :
    ∃ g', BulkInv cfg r'.s g' r'.live ∧ Moved cfg g r.live r'.live g' op := by
  unfold BulkRun.step at hs
  split_ifs at hs with hop
  cases op with
  | allocate sz =>
    have hspec := allocate_spec os h hcfg hop
    simp only at hs
    split at hs
    · obtain rfl := Option.some.inj hs
      obtain ⟨g', hI, -, hA⟩ := Act.exec_ret hspec ‹_›
      exact ⟨g', hI, .allocate _ _ hA rfl⟩
    · obtain rfl := Option.some.inj hs
      exact ⟨g, (Act.exec_throw hspec ‹_›).inv, .same _ rfl rfl⟩
    · cases hs
  | deallocate p =>
    obtain ⟨⟨_, sz⟩, he, rfl⟩ := List.mem_map.mp hop
    have hspec := deallocate_spec h hcfg he hok
    simp only at hs
    split at hs
    · obtain rfl := Option.some.inj hs
      obtain ⟨g', hI, -, hD⟩ := Act.exec_ret hspec ‹_›
      exact ⟨g', hI, .deallocate _ _ he hD rfl⟩
    · exact (Act.exec_throw hspec ‹_›).elim
    · cases hs
  | write a v =>
    obtain rfl := Option.some.inj hs
    exact ⟨g, h.write hcfg hop.1 v, .same _ rfl rfl⟩

/-- An operation that is allowed can be done. -/
theorem BulkInv.progress (h : BulkInv cfg r.s g r.live) (hcfg : Fits cfg) (hop : op.Allowed r.live)
    (hok : KeepsLive r op) : (r.step cfg os op).isSome := by
  unfold BulkRun.step
  rw [if_pos hop]
  cases op with
  | allocate sz =>
    have hspec := Act.not_stuck (allocate_spec os h hcfg hop)
    cases hx : Act.exec (BulkAllocator.allocate cfg os sz) r.s with
    | ret p t => simp [hx]
    | throw t => simp [hx]
    | stuck => exact absurd hx hspec
  | deallocate p =>
    obtain ⟨⟨q, sz⟩, he, rfl⟩ := List.mem_map.mp hop
    have hspec := Act.not_stuck (deallocate_spec h hcfg he hok)
    cases hx : Act.exec (BulkAllocator.deallocate cfg q) r.s with
    | ret u t => simp [hx]
    | throw t => simp [hx]
    | stuck => exact absurd hx hspec
  | write a v => rfl

theorem init_spec (s : St BulkAllocator) {Q : Unit → St BulkAllocator → Prop} {E : St BulkAllocator → Prop}
    (h : ∀ c, BulkInv cfg ⟨s.w, c⟩ .empty [] → Q () ⟨s.w, c⟩) :
    Act.wp (BulkAllocator.init cfg PAGE_SIZE_EXP) Q E s := by
  simp only [BulkAllocator.init, super, collection, Act.wp_bind, Act.wp_onPart, Act.wp_onSelf]
  refine PageAllocatorWithCaching.init_spec _ fun b hb => ?_
  refine CollectionInPages.init_spec blockItemSize _ fun d hd => h _ (.of_empty hd hb fun i hi => ?_)
  show (if i ≤ cfg.max_pages then 0 else _) = 0
  exact if_pos hi

theorem BulkInv.start (h : r₀.Starts cfg) : BulkInv cfg r₀.s .empty r₀.live := by
  obtain ⟨w, c, hc, hl⟩ := h
  have hspec : Act.wp (BulkAllocator.init cfg PAGE_SIZE_EXP) (fun _ t => BulkInv cfg t .empty []) (fun _ => False)
      ⟨w, c⟩ := init_spec _ fun _ hI => hI
  exact hl ▸ Act.exec_ret hspec hc

/-- The invariant over a run. -/
theorem BulkInv.reach (h₀ : r₀.Starts cfg) (hcfg : Fits cfg)
    (hr : Reach (BulkRun.step cfg os) KeepsLive r₀ r) : ∃ g, BulkInv cfg r.s g r.live := by
  refine hr.invariant (P := fun r => ∃ g, BulkInv cfg r.s g r.live) ⟨.empty, .start h₀⟩ ?_
  rintro s t op ⟨g, hg⟩ hok hs
  obtain ⟨g', hg', -⟩ := hg.step hcfg hok hs
  exact ⟨g', hg'⟩

/-! ### Chunks that are live do not overlap -/

/-- What the client relies on: each chunk it holds covers the bytes it asked
for, all mapped, and no two overlap. -/
structure Safe (r : BulkRun) : Prop where
  covers : ∀ e ∈ r.live, e.2 ≤ chunkSize r.s.w.mem e.1 ∧
    ∀ x, Within e.1 (chunkSize r.s.w.mem e.1) x → pageState r.s.w.calls x = .committed
  apart : (r.live.map fun e => (e.1, chunkSize r.s.w.mem e.1)).Pairwise Apart

theorem BulkInv.safe (h : BulkInv cfg r.s g r.live) (hcfg : Fits cfg) : Safe r := by
  refine ⟨fun e he => ?_, ?_⟩
  · rw [h.chunkSize_eq hcfg he]
    exact ⟨le_chunkBytes e.2, fun x hx => h.mapped x (h.live_bytes_owned hcfg he hx)⟩
  · have hne : r.live.Pairwise fun e e' => e.1 ≠ e'.1 := List.pairwise_map.mp h.nodup
    refine List.pairwise_map.mpr (hne.imp_of_mem fun he he' hne x hx hx' => hne ?_)
    simp only [h.chunkSize_eq hcfg he] at hx
    simp only [h.chunkSize_eq hcfg he'] at hx'
    exact h.live_unique hcfg he he' hx hx'

/-- **No two live chunks overlap**, in any run that never gives back a chunk
whose right neighbour is flagged though it is live; and no call is stuck. -/
theorem safe_run (h₀ : r₀.Starts bulkAllocatorT)
    (hr : Reach (BulkRun.step bulkAllocatorT os) KeepsLive r₀ r) :
    Safe r ∧ ∀ op : BulkOp, op.Allowed r.live → KeepsLive r op → (r.step bulkAllocatorT os op).isSome := by
  obtain ⟨g, h⟩ := BulkInv.reach h₀ bulkAllocatorT_fits hr
  exact ⟨h.safe bulkAllocatorT_fits, fun op hop hok => h.progress bulkAllocatorT_fits hop hok⟩

/-- A chunk given back, between a chunk that is live and a region. -/
theorem safe_run_five : ∃ r, run (BulkRun.step bulkAllocatorT (Os.linear 0)) (fun r op => decide (KeepsLive r op))
      .fresh [.allocate 9000, .allocate 131072, .allocate 200000, .write 16400 5, .deallocate 4096] = some r ∧
    r.live = [(8404992, 200000), (16384, 131072)] ∧ Safe r := by
  obtain ⟨r, hr, hlive⟩ := Option.map_eq_some_iff.mp (show (run (BulkRun.step bulkAllocatorT (Os.linear 0))
      (fun r op => decide (KeepsLive r op)) .fresh
      [.allocate 9000, .allocate 131072, .allocate 200000, .write 16400 5, .deallocate 4096]).map BulkRun.live =
        some [(8404992, 200000), (16384, 131072)] by decide +kernel)
  exact ⟨r, hr, hlive, (safe_run (BulkRun.init_starts _ _)
    ((Reach.of_run hr).mono fun _ _ hok => of_decide_eq_true hok)).1⟩

/-- A block is handed out as 64 chunks of 32 pages; the last of them keeps its
flag. The chunk before it is given back and merged with it. -/
def mergeOps : List BulkOp := List.replicate 64 (.allocate 131072) ++ [.deallocate 8130560]

/-- Two more requests, and the second gets the 64th chunk, which is live. -/
theorem not_safe_run : ∃ r, run (BulkRun.step bulkAllocatorT (Os.linear 0)) (fun _ _ => true) .fresh
      (mergeOps ++ [.allocate 131072, .allocate 131072]) = some r ∧ ¬ Safe r := by
  obtain ⟨r, hr, hv⟩ := Option.map_eq_some_iff.mp (show (run (BulkRun.step bulkAllocatorT (Os.linear 0))
      (fun _ _ => true) .fresh (mergeOps ++ [.allocate 131072, .allocate 131072])).map
        (fun r => (r.live.take 3, chunkSize r.s.w.mem 8261632)) =
      some ([(8261632, 131072), (8130560, 131072), (8261632, 131072)], 131072) by decide +kernel)
  obtain ⟨hlive, hsize⟩ := Prod.mk.inj hv
  refine ⟨r, hr, fun hS => ?_⟩
  have hap := hS.apart
  rw [← List.take_append_drop 3 r.live, hlive, List.map_append, List.map_cons, List.map_cons, List.map_cons,
    List.cons_append, List.pairwise_cons] at hap
  have hself := hap.1 (8261632, chunkSize r.s.w.mem 8261632) (by simp) 8261632
  rw [hsize] at hself
  exact hself ⟨le_rfl, by norm_num⟩ ⟨le_rfl, by norm_num⟩

/-! ### Blocks are tiled -/

/-- The blocks that the collection lists. -/
def Blocks (s : St BulkAllocator) (bs : List ℕ) : Prop :=
  ∃ items, Chain (fun a => (s.c.blocks.heap a).next) 0 s.c.blocks.head items ∧
    bs = items.map fun a => (s.c.blocks.heap a).item

/-- The chunks of the block `b`, as `nextInBlock` visits them; `prevInBlock`
leads back. -/
def Visits (mem : ℕ → ℕ) (b : ℕ) (cs : List ℕ) : Prop :=
  DList (nextInBlock mem) (prevInBlock mem) 0 0 b cs

/-- The chunks visited from `b` tile the block, and those that are live are
among them. -/
structure TilesBlock (cfg : BulkCfg) (r : BulkRun) (b : ℕ) (cs : List ℕ) : Prop where
  visits : Visits r.s.w.mem b cs
  adjacent : cs.IsChain fun a a' => a + getPageCount r.s.w.mem a * PAGE_SIZE = a'
  pages : (cs.map (getPageCount r.s.w.mem)).sum = cfg.pagesPerAllocatedBlock
  live : ∀ e ∈ r.live, Within b cfg.commited_block_size e.1 → e.1 ∈ cs

theorem BulkInv.blocks (h : BulkInv cfg s g live) : Blocks s g.blocks := ⟨g.used, h.coll.head, h.items.symm⟩

namespace BlockInv

variable {w : World} {l' : List Chunk}

/-- What the header of a chunk of the block says. -/
theorem reads (h : BlockInv cfg w b l) (hcfg : Fits cfg) (hc : c ∈ l) :
    getPageCount w.mem c.addr = c.pages ∧ isFree w.mem c.addr = c.flag := by
  obtain ⟨l₁, l₂, rfl⟩ := List.append_of_mem hc
  obtain ⟨-, h2, -, h4⟩ := h.read hcfg
  exact ⟨h2, h4⟩

theorem visits_from (hcfg : Fits cfg) : ∀ {l l' : List Chunk}, BlockInv cfg w b (l ++ l') →
    DList (nextInBlock w.mem) (prevInBlock w.mem) 0 (lastAddr 0 l) (headAddr l' 0) (l'.map Chunk.addr)
  | _, [], _ => rfl
  | l, c :: l', h => by
    obtain ⟨hprev, -, hnext, -⟩ := h.read hcfg
    have hc := (h.pageMapped (c := c) (by simp)).pos
    rw [List.append_cons] at h
    have ih := visits_from hcfg h
    rw [lastAddr_append] at ih
    exact ⟨rfl, hc.ne', hprev, hnext ▸ ih⟩

/-- The chunks of a block start at its start. -/
theorem first (h : BlockInv cfg w b l) (hcfg : Fits cfg) : headAddr l 0 = b := by
  cases l with
  | nil =>
    have ht : b = b + cfg.commited_block_size := h.tiled
    have := BulkCfg.size_eq cfg
    have := hcfg.max_lt
    omega
  | cons c l => exact h.tiled.1

theorem visits (h : BlockInv cfg w b l) (hcfg : Fits cfg) : Visits w.mem b (l.map Chunk.addr) := by
  have hv := visits_from hcfg (l := []) h
  rwa [h.first hcfg] at hv

end BlockInv

theorem Tiled.adjacent {n : ℕ} : ∀ {l : List Chunk} {p : ℕ}, Tiled p l n → l.IsChain fun c d => c.stop = d.addr
  | [], _, _ => .nil
  | [_], _, _ => .singleton _
  | _ :: _ :: _, _, h => .cons_cons h.2.2.1.symm h.2.2.adjacent

theorem BulkInv.tiles (h : BulkInv cfg r.s g r.live) (hcfg : Fits cfg) (hb : b ∈ g.blocks) :
    TilesBlock cfg r b ((g.chunks b).map Chunk.addr) := by
  have hB := h.block b hb
  refine ⟨hB.visits hcfg, ?_, ?_, fun e he hw => ?_⟩
  · refine (List.isChain_map Chunk.addr).mpr (hB.tiled.adjacent.imp_of_mem_imp fun c d hc _ hcd => ?_)
    rw [(hB.reads hcfg hc).1]
    exact hcd
  · have hmap : (g.chunks b).map (getPageCount r.s.w.mem ∘ Chunk.addr) = (g.chunks b).map Chunk.pages :=
      List.map_congr_left fun c hc => (hB.reads hcfg hc).1
    rw [List.map_map, hmap]
    have := hB.tiled.sum
    have := BulkCfg.size_eq cfg
    omega
  · by_cases hk : cfg.max_pages < pageCountOf e.2
    · exact absurd hw (h.large_not_block he hk hb (h.large_header he (k := 0) (by omega)))
    · obtain ⟨b', hb', c, hc, hca, -⟩ := h.small e he (by omega)
      have hself := h.chunk_within hb' hc (h.chunk_start hb' hc (k := 0) (by omega))
      rw [Nat.add_zero, hca] at hself
      obtain rfl := h.block_unique hb hb' hw hself
      exact hca ▸ List.mem_map_of_mem hc

/-- **Every block is tiled by its chunks**, in any run that never gives back a
chunk whose right neighbour is flagged though it is live. -/
theorem tiles_run (h₀ : r₀.Starts bulkAllocatorT)
    (hr : Reach (BulkRun.step bulkAllocatorT os) KeepsLive r₀ r) :
    ∃ bs, Blocks r.s bs ∧ ∀ b ∈ bs, ∃ cs, TilesBlock bulkAllocatorT r b cs := by
  obtain ⟨g, h⟩ := BulkInv.reach h₀ bulkAllocatorT_fits hr
  exact ⟨g.blocks, h.blocks, fun b hb => ⟨_, h.tiles bulkAllocatorT_fits hb⟩⟩

theorem tiles_run_five : ∃ r, run (BulkRun.step bulkAllocatorT (Os.linear 0)) (fun r op => decide (KeepsLive r op))
      .fresh [.allocate 9000, .allocate 131072, .deallocate 16384, .allocate 5, .deallocate 4096] = some r ∧
    ∃ bs, Blocks r.s bs ∧ ∀ b ∈ bs, ∃ cs, TilesBlock bulkAllocatorT r b cs := by
  obtain ⟨r, hr⟩ := Option.isSome_iff_exists.mp (show (run (BulkRun.step bulkAllocatorT (Os.linear 0))
      (fun r op => decide (KeepsLive r op)) .fresh
      [.allocate 9000, .allocate 131072, .deallocate 16384, .allocate 5, .deallocate 4096]).isSome = true
        by decide +kernel)
  exact ⟨r, hr, tiles_run (BulkRun.init_starts _ _)
    ((Reach.of_run hr).mono fun _ _ hok => of_decide_eq_true hok)⟩

theorem Blocks.head_mem {bs : List ℕ} (h : Blocks s bs) (h0 : s.c.blocks.head ≠ 0) :
    (s.c.blocks.heap s.c.blocks.head).item ∈ bs := by
  obtain ⟨items, hc, rfl⟩ := h
  cases items with
  | nil => exact absurd hc h0
  | cons a items =>
    rw [hc.1]
    exact List.mem_map_of_mem List.mem_cons_self

/-- The 64th chunk is live, and the chunk before it leads past it. -/
theorem not_tiles_run : ∃ r, run (BulkRun.step bulkAllocatorT (Os.linear 0)) (fun _ _ => true) .fresh mergeOps =
      some r ∧ ¬ ∃ bs, Blocks r.s bs ∧ ∀ b ∈ bs, ∃ cs, TilesBlock bulkAllocatorT r b cs := by
  obtain ⟨r, hr, hv⟩ := Option.map_eq_some_iff.mp (show (run (BulkRun.step bulkAllocatorT (Os.linear 0))
      (fun _ _ => true) .fresh mergeOps).map (fun r => (decide (r.s.c.blocks.head ≠ 0),
        (r.s.c.blocks.heap r.s.c.blocks.head).item, decide ((8261632, 131072) ∈ r.live),
        prevInBlock r.s.w.mem 8261632, nextInBlock r.s.w.mem 8130560)) =
      some (true, 4096, true, 8130560, 0) by decide +kernel)
  simp only [Prod.mk.injEq, decide_eq_true_eq] at hv
  obtain ⟨hhead, hitem, hlive, hprev, hnext⟩ := hv
  refine ⟨r, hr, ?_⟩
  intro hx
  obtain ⟨bs, hbs, hT⟩ := hx
  obtain ⟨cs, hT⟩ := hT _ (hitem ▸ hbs.head_mem hhead)
  have hmem : 8261632 ∈ cs := hT.live _ hlive ⟨by norm_num, by decide⟩
  have hback := (hT.visits.prev_mem 8261632 hmem (by norm_num)).2
  rw [hprev, hnext] at hback
  exact absurd hback (by norm_num)

end BulkAllocator

end IibMalloc

/-
# SoundingAddressPageAllocator: the statistics of its base

The base counts in `sysAlloc…` what it obtains from the system and in
`sysDealloc…` what it gives back; `printStats` prints the differences. A block
is obtained with `AllocateAddressSpace`, which counts nothing, and given back
with `freeChunkNoCache`, which counts it. So the first two counters stay 0 in
every run, and the balance holds as long as no block was reserved
(`balance_run`). After the first one less is counted than reserved, and after
a `deinitialize` the differences are below 0 (`balance_page_deinit`).
-/
import IibMalloc.SoundingRuns

namespace IibMalloc

open Lib BlockStats

/-! ### What is reserved -/

/-- The regions reserved and not released since, latest first. -/
def reservedRegions : List OsCall → List (ℕ × ℕ)
  | [] => []
  | .reserve a n :: cs => (a, n) :: reservedRegions cs
  | .release a n :: cs => (reservedRegions cs).erase (a, n)
  | _ :: cs => reservedRegions cs

section Calls

variable {cs cs' : List OsCall} {as : List ℕ} {n : ℕ}

theorem reservations_append : ∀ cs cs' : List OsCall, reservations (cs ++ cs') = reservations cs ++ reservations cs'
  | [], _ => rfl
  | c :: cs, cs' => by cases c <;> simp [reservations, reservations_append cs cs']

theorem releases_append : ∀ cs cs' : List OsCall, releases (cs ++ cs') = releases cs ++ releases cs'
  | [], _ => rfl
  | c :: cs, cs' => by cases c <;> simp [releases, releases_append cs cs']

theorem reservations_releases (as : List ℕ) (n : ℕ) : reservations (as.map fun a => .release a n) = [] := by
  induction as with
  | nil => rfl
  | cons a as ih => exact ih

theorem releases_releases (as : List ℕ) (n : ℕ) :
    releases (as.map fun a => .release a n) = as.map fun a => (a, n) := by
  induction as with
  | nil => rfl
  | cons a as ih => exact congrArg _ ih

/-- Calls that release nothing. -/
theorem reservedRegions_append (h : releases cs = []) :
    reservedRegions (cs ++ cs') = reservations cs ++ reservedRegions cs' := by
  induction cs with
  | nil => rfl
  | cons c cs ih =>
    cases c with
    | release a n => cases h
    | allocate a n => exact ih h
    | reserve a n => exact congrArg _ (ih h)
    | commit a n => exact ih h
    | refused n => exact ih h

/-- The regions reserved are released. -/
theorem reservedRegions_released (h : (reservedRegions cs).Perm (as.map fun a => (a, n))) :
    reservedRegions ((as.reverse.map fun a => .release a n) ++ cs) = [] := by
  induction as generalizing cs with
  | nil => exact List.perm_nil.mp h
  | cons a as ih =>
    rw [List.reverse_cons, List.map_append, List.append_assoc]
    apply ih
    show ((reservedRegions cs).erase (a, n)).Perm _
    have herase := h.erase (a, n)
    rwa [List.map_cons, List.erase_cons_head] at herase

/-- Nothing is reserved: then it stays so. -/
theorem reservedRegions_nil (h : reservedRegions cs = []) :
    reservedRegions ((as.map fun a => .release a n) ++ cs) = [] := by
  induction as with
  | nil => exact h
  | cons a as ih =>
    show (reservedRegions ((as.map fun a => .release a n) ++ cs)).erase (a, n) = []
    rw [ih]
    rfl

end Calls

/-! ### The counters -/

namespace SoundingAddressPageAllocator

variable {cfg : SoundingCfg} {os : Os} {P : St SoundingAddressPageAllocator → Prop}

/-- `P` depends on the calls and on the base only. -/
def OfBase (P : St SoundingAddressPageAllocator → Prop) : Prop :=
  ∀ s t, t.w.calls = s.w.calls → t.c.base = s.c.base → P s → P t

namespace OfBase

theorem assert (hP : OfBase P) (b : Bool) : Act.Keeps P (Act.assert b) := .update fun s h => hP s _ rfl rfl h

theorem change (hP : OfBase P) (p : DescPtr) (f : PageBlockDescriptor → PageBlockDescriptor) :
    Act.Keeps P (change cfg p f) := by
  refine .bind ?_ fun _ => .update fun s h => hP s _ rfl ?_ h
  · cases p with
    | null => exact .stuck
    | start => exact .pure ()
    | item a => exact .bind (.need _) fun _ => .need _
  · cases p <;> rfl

theorem load (p : DescPtr) : Act.Keeps P (load cfg p) := by
  refine .bind ?_ fun _ => .read _
  cases p with
  | null => exact .stuck
  | start => exact .pure ()
  | item a => exact .bind (.need _) fun _ => .need _

theorem onSelf (hP : OfBase P) {f : SoundingAddressPageAllocator → SoundingAddressPageAllocator}
    (hf : ∀ c, (f c).base = c.base) : Act.Keeps P (Act.onSelf f) := .update fun s h => hP s _ rfl (hf s.c) h

theorem idxToPageAddr (hP : OfBase P) (b i n : ℕ) : Act.Keeps P (idxToPageAddr cfg b i n) :=
  .bind (hP.assert _) fun _ => .bind (hP.assert _) fun _ => .bind (hP.assert _) fun _ =>
    .bind (hP.assert _) fun _ => .pure _

theorem testWrite (hP : OfBase P) (ret : ℕ) : Act.Keeps P (testWrite ret) := by
  refine .bind (.need _) fun _ => ?_
  intro s h
  apply Act.wlp_of_wp
  rw [Act.wp_onWorld, Act.wp_update]
  exact hP s _ rfl rfl h

end OfBase

variable {v : (UInt64 × UInt64) × (UInt64 × UInt64)} {idx : ℕ} {s t : St SoundingAddressPageAllocator}

/-- The counters are `v`. -/
def Sys (v : (UInt64 × UInt64) × (UInt64 × UInt64)) (s : St SoundingAddressPageAllocator) : Prop :=
  s.c.base.stats.sysCounters = v

theorem Sys.ofBase : OfBase (Sys v) := fun s t _ hb h => by
  unfold Sys at *
  rwa [hb]

theorem super_sys {α : Type} {x : Act (St PageAllocatorWithCaching) α}
    (hx : Act.Keeps (fun b : St PageAllocatorWithCaching => b.c.stats.sysCounters = v) x) :
    Act.Keeps (Sys v) (super x) := .zoom hx (fun _ h => h) fun _ _ _ h => h

theorem onWorld_stats {α : Type} (x : Act World α) :
    Act.Keeps (fun b : St PageAllocatorWithCaching => b.c.stats.sysCounters = v) (Act.onWorld x) :=
  .zoom (.trivial x) (fun _ _ => trivial) fun _ _ h _ => h

/-- Requests are not counted there. -/
theorem CommitMemory_sys (a n : ℕ) : Act.Keeps (Sys v) (super (PageAllocatorWithCaching.CommitMemory os a n)) :=
  super_sys (.bind (.update fun _ h => h) fun _ => onWorld_stats _)

/-- Nor is address space. -/
theorem getNextBlock_sys : Act.Keeps (Sys v) (getNextBlock cfg os) := super_sys (onWorld_stats _)

/-- The collection has a base of its own. -/
theorem descriptors_base {α : Type} (p : PageAllocatorWithCaching → Prop)
    (x : Act (St (CollectionInPages PageBlockDescriptor)) α) :
    Act.Keeps (fun s : St SoundingAddressPageAllocator => p s.c.base) (descriptors x) :=
  .zoom (.trivial x) (fun _ _ => trivial) fun _ _ h _ => h

theorem resetLists_base (p : PageAllocatorWithCaching → Prop) :
    Act.Keeps (fun s : St SoundingAddressPageAllocator => p s.c.base) (resetLists cfg) :=
  .bind (.update fun _ h => h) fun _ => .bind (.update fun _ h => h) fun _ => .update fun _ h => h

theorem commitLoop_sys (b i p n k start next : ℕ) :
    Act.Keeps (Sys v) (commitLoop cfg os b i p n k start next) := by
  induction n generalizing k start next with
  | zero => exact .bind (CommitMemory_sys _ _) fun _ => .pure _
  | succ n ih =>
    exact .bind (Sys.ofBase.idxToPageAddr _ _ _) fun _ =>
      .ite (ih _ _ _) (.bind (CommitMemory_sys _ _) fun _ => ih _ _ _)

theorem commitRange_sys (b i p n : ℕ) : Act.Keeps (Sys v) (commitRangeOfPageIndexes cfg os b i p n) :=
  .bind (Sys.ofBase.idxToPageAddr _ _ _) fun _ => commitLoop_sys _ _ _ _ _ _ _

theorem createNextBlock_sys (idx : ℕ) : Act.Keeps (Sys v) (createNextBlockAndGetPage cfg os idx) :=
  .bind (Sys.ofBase.assert _) fun _ => 
    .bind (descriptors_base (fun b => b.stats.sysCounters = v) _) fun _ => .bind getNextBlock_sys fun _ =>
    .bind (Sys.ofBase.change _ _) fun _ => .bind (Sys.ofBase.change _ _) fun _ => .bind (.read _) fun _ =>
    .bind (Sys.ofBase.change _ _) fun _ => .bind (Sys.ofBase.onSelf fun _ => rfl) fun _ =>
    .bind (Sys.ofBase.idxToPageAddr _ _ _) fun _ => .bind (commitRange_sys _ _ _ _) fun _ =>
    .bind (Sys.ofBase.change _ _) fun _ => .bind (Sys.ofBase.testWrite _) fun _ => .pure _

theorem pageOfBlock_sys (idx : ℕ) (h : DescPtr) : Act.Keeps (Sys v) (pageOfBlock cfg os idx h) := by
  have hbatch : Act.Keeps (Sys v) (commitBatch cfg os idx h) :=
    .bind (OfBase.load _) fun _ =>
      .ite (.bind (commitRange_sys _ _ _ _) fun _ => Sys.ofBase.change _ _) (.pure _)
  exact .bind (OfBase.load _) fun _ => .bind (Sys.ofBase.assert _) fun _ => .bind hbatch fun _ =>
    .bind (OfBase.load _) fun _ => .bind (Sys.ofBase.idxToPageAddr _ _ _) fun _ =>
    .bind (Sys.ofBase.change _ _) fun _ => .bind (OfBase.load _) fun _ => .bind (Sys.ofBase.assert _) fun _ =>
    .bind (Sys.ofBase.testWrite _) fun _ => .pure _

theorem pageOfNewBlock_sys (idx : ℕ) (h : DescPtr) : Act.Keeps (Sys v) (pageOfNewBlock cfg os idx h) :=
  .bind (.read _) fun _ => .bind (Sys.ofBase.assert _) fun _ => .bind (createNextBlock_sys _) fun _ =>
    .bind (.read _) fun _ => .bind (Sys.ofBase.onSelf fun _ => rfl) fun _ => .bind (OfBase.load _) fun _ =>
    .bind (Sys.ofBase.assert _) fun _ => .bind (Sys.ofBase.testWrite _) fun _ => .pure _

theorem pageOfNextBlock_sys (idx : ℕ) (h : DescPtr) : Act.Keeps (Sys v) (pageOfNextBlock cfg os idx h) := by
  have hfirst : Act.Keeps (Sys v) (commitFirst cfg os idx h) :=
    .bind (OfBase.load _) fun _ => .ite (commitRange_sys _ _ _ _) (.pure _)
  exact .bind (Sys.ofBase.onSelf fun _ => rfl) fun _ => .bind (OfBase.load _) fun _ =>
    .bind (Sys.ofBase.assert _) fun _ => .bind (Sys.ofBase.assert _) fun _ => .bind (Sys.ofBase.assert _) fun _ =>
    .bind hfirst fun _ => .bind (Sys.ofBase.change _ _) fun _ => .bind (OfBase.load _) fun _ =>
    .bind (Sys.ofBase.idxToPageAddr _ _ _) fun _ => .bind (Sys.ofBase.change _ _) fun _ =>
    .bind (OfBase.load _) fun _ => .bind (Sys.ofBase.assert _) fun _ => .bind (Sys.ofBase.testWrite _) fun _ =>
    .pure _

/-- A call for a page leaves the counters as they are. -/
theorem getPage_sys (idx : ℕ) : Act.Keeps (Sys v) (getPage cfg os idx) :=
  .bind (Sys.ofBase.assert _) fun _ => .bind (.read _) fun _ => .bind (Sys.ofBase.assert _) fun _ =>
    .bind (OfBase.load _) fun _ =>
    .ite (pageOfBlock_sys _ _) (.ite (pageOfNewBlock_sys _ _) (pageOfNextBlock_sys _ _))

/-! ### Rounds of deinitialize -/

theorem releaseBlocks_below {m n : ℕ} (h : m ≤ n) (p : DescPtr) :
    Act.Below (releaseBlocks cfg m p) (releaseBlocks cfg n p) := by
  apply Act.Below.of_rounds (x := fun n p => releaseBlocks cfg n p) _ _ h
  · intro n p
    exact .ite (.stuck _) (.refl _)
  · intro m n ih p
    exact .ite (.bind (.refl _) fun _ => .bind (.refl _) fun _ => .bind (.refl _) fun _ => .bind (.refl _) fun _ =>
      ih _) (.refl _)

end SoundingAddressPageAllocator

namespace CollectionInPages

variable {ItemT : Type} {itemSize m n : ℕ}

theorem collectPageStarts_below (h : m ≤ n) (p q : ℕ) :
    Act.Below (collectPageStarts itemSize m p q : Act (St (CollectionInPages ItemT)) ℕ)
      (collectPageStarts itemSize n p q) := by
  apply Act.Below.of_rounds (x := fun n (r : ℕ × ℕ) => collectPageStarts itemSize n r.1 r.2) _ _ h (p, q)
  · intro n r
    exact .ite (.stuck _) (.refl _)
  · intro m n ih r
    exact .ite (.bind (.refl _) fun _ => .bind (.refl _) fun next => .ite (.bind (.refl _) fun _ => ih (r.2, next))
      (ih (r.1, next))) (.refl _)

theorem releasePages_below (h : m ≤ n) (p : ℕ) :
    Act.Below (releasePages itemSize m p : Act (St (CollectionInPages ItemT)) Unit) (releasePages itemSize n p) := by
  apply Act.Below.of_rounds (x := fun n p => releasePages itemSize n p) _ _ h
  · intro n p
    exact .ite (.stuck _) (.refl _)
  · intro m n ih p
    exact .ite (.bind (.refl _) fun _ => .bind (.refl _) fun _ => .bind (.refl _) fun _ => .bind (.refl _) fun _ =>
      ih _) (.refl _)

theorem deinit_below (h : m ≤ n) :
    Act.Below (deinit itemSize m : Act (St (CollectionInPages ItemT)) Unit) (deinit itemSize n) :=
  .bind (.refl _) fun _ => .bind (collectPageStarts_below h _ _) fun _ => .bind (.refl _) fun _ =>
    .bind (collectPageStarts_below h _ _) fun _ => .bind (releasePages_below h _) fun _ => .bind (.refl _) fun _ =>
    .bind (.refl _) fun _ => .refl _

end CollectionInPages

namespace SoundingAddressPageAllocator

variable {cfg : SoundingCfg} {os : Os}

theorem deinit_below {m n : ℕ} (h : m ≤ n) : Act.Below (deinit cfg m) (deinit cfg n) :=
  .bind (.refl _) fun _ => .bind (releaseBlocks_below h _) fun _ =>
    .bind (.zoom (CollectionInPages.deinit_below h)) fun _ => .refl _

/-! ### What a call reserves -/

variable {w₀ : World} {idx d : ℕ} {s t : St SoundingAddressPageAllocator} {g : Ghost}

/-- Where the system gives no block, none is reserved. -/
theorem createNextBlock_refused (h : SoundInv cfg s.w.calls s.c g) (hsz : cfg.descriptorSize ≤ 4096)
    (hidx : idx < cfg.bucket_cnt) (hnone : nextBlock cfg os s = none) :
    Act.wp (createNextBlockAndGetPage cfg os idx) (fun _ _ => False)
      (fun t => reservations t.w.calls = reservations s.w.calls) s := by
  have hsame : ∀ {w : World} {g' : Ghost}, PageStep cfg idx s.w w g g' → g'.blocks = g.blocks →
      reservations w.calls = reservations s.w.calls := fun hst hb => by
    obtain ⟨bs, h1, h2⟩ := hst.reservations
    rw [hb] at h1
    rwa [List.self_eq_append_right.mp h1] at h2
  rw [createNextBlockAndGetPage, Act.wp_bind, Act.wp_assert, decide_eq_true hidx, Bool.and_true, Act.wp_bind]
  refine Act.wp_mono (newDescriptor_spec os h hsz) ?_ fun t ht => hsame ht.2.1 rfl
  intro a t ht
  obtain ⟨pages, free, -, hI, -, hst, -, hnext⟩ := ht
  rw [Act.wp_bind, getNextBlock, super, Act.wp_onPart]
  refine Act.wp_mono (PageAllocatorWithCaching.AllocateAddressSpace_spec (s := ⟨t.w, t.c.base⟩) hI.idle) ?_ ?_
  · intro b u hu
    obtain ⟨hm, -⟩ := hu
    rw [← hnext, hnone] at hm
    cases hm
  · intro u hu
    obtain ⟨-, hw, -⟩ := hu
    show reservations u.w.calls = _
    rw [hw]
    exact hsame hst.refused rfl

theorem getPage_refused (h : SoundInv cfg s.w.calls s.c g) (hf : Fits cfg g) (hb : g.blocks = [])
    (hidx : idx < cfg.bucket_cnt) (hnone : nextBlock cfg os s = none) :
    Act.wlp (getPage cfg os idx) (fun _ _ => False)
      (fun t => reservations t.w.calls = reservations s.w.calls) s := by
  by_cases hsz : cfg.descriptorSize ≤ 4096
  · exact getPage_first h hb hidx (Act.wlp_of_wp (createNextBlock_refused h hsz hidx hnone))
  · apply Act.wlp_mono (getPage_large os h (by omega) (hf.resolve_left hsz) hidx) (fun _ _ hf => hf)
    intro t ht
    obtain ⟨⟨-, hst, -⟩, -⟩ := ht
    obtain ⟨bs, h1, h2⟩ := hst.reservations
    rwa [List.self_eq_append_right.mp h1] at h2

/-! ### Runs -/

/-- The regions that the blocks are. -/
def Ghost.blockRegions (cfg : SoundingCfg) (g : Ghost) : List (ℕ × ℕ) :=
  g.blocks.map fun p => (p.2, cfg.reservation_size)

/-- Since `w₀` the blocks and `d` more were reserved, and the blocks are
reserved still. -/
def Tracked (cfg : SoundingCfg) (w₀ : World) (d : ℕ) (s : St SoundingAddressPageAllocator) : Prop :=
  ∃ g run, SoundInv cfg s.w.calls s.c g ∧ Fits cfg g ∧ s.w.calls = run ++ w₀.calls ∧
    (reservedRegions run).Perm (g.blockRegions cfg) ∧ (reservations run).length = g.blocks.length + d

theorem getPage_tracked (hidx : idx < cfg.bucket_cnt) : Act.Keeps (Tracked cfg w₀ d) (getPage cfg os idx) := by
  intro s hs
  obtain ⟨g, run, hI, hf, hcalls, hperm, hlen⟩ := hs
  have hnext : ∀ {t : St SoundingAddressPageAllocator} {g' : Ghost}, SoundInv cfg t.w.calls t.c g' →
      PageStep cfg idx s.w t.w g g' → Fits cfg g' → Tracked cfg w₀ d t := fun {t g'} hI' hst hf' => by
    obtain ⟨new, hnew⟩ := hst.suffix
    obtain ⟨bs, hbs, hres⟩ := hst.reservations
    have hrel : releases new = [] := by
      have := hst.releases
      rw [← hnew, releases_append] at this
      exact List.append_left_eq_self.mp this
    rw [← hnew, reservations_append] at hres
    have hres := List.append_cancel_right hres
    refine ⟨g', new ++ run, hI', hf', by rw [← hnew, hcalls, List.append_assoc], ?_, ?_⟩
    · rw [reservedRegions_append hrel, hres, Ghost.blockRegions, hbs, List.map_append]
      exact ((List.reverse_perm _).append hperm).trans List.perm_append_comm
    · rw [reservations_append, List.length_append, hlen, hres, hbs, List.length_reverse, List.length_map,
        List.length_append]
      omega
  refine Act.wlp_mono (getPage_wlp os hI hf hidx) ?_ ?_
  · intro p t ht
    obtain ⟨g', ⟨hI', hst, -⟩, hf'⟩ := ht
    exact hnext hI' hst hf'
  · intro t ht
    obtain ⟨g', ⟨hI', hst, -⟩, hf'⟩ := ht
    exact hnext hI' hst hf'

/-- A release of a block is counted: `L` releases were made before. -/
def Counted (cfg : SoundingCfg) (L d : ℕ) (s : St SoundingAddressPageAllocator) : Prop :=
  ∃ k, (releases s.w.calls).length = L + k ∧ Sys (0, wrapped (d + k, (d + k) * cfg.reservation_size)) s

theorem Counted.ofBase {L : ℕ} : OfBase (Counted cfg L d) := by
  intro s t hw hb hx
  obtain ⟨k, hk, hs⟩ := hx
  exact ⟨k, by rwa [hw], Sys.ofBase s t hw hb hs⟩

theorem freeBlock_counted {L : ℕ} (a : ℕ) :
    Act.Keeps (Counted cfg L d) (super (PageAllocatorWithCaching.freeChunkNoCache a cfg.reservation_size)) := by
  intro s hs
  obtain ⟨k, hk, hs⟩ := hs
  apply Act.wlp_of_wp
  simp only [super, Act.wp_onPart, PageAllocatorWithCaching.freeChunkNoCache, Act.wp_bind, Act.wp_onSelf,
    Act.wp_onWorld, VirtualMemory.wp_deallocate]
  refine ⟨k + 1, ?_, ?_⟩
  · show (releases s.w.calls).length + 1 = _
    omega
  · unfold Sys at hs ⊢
    rw [sysCounters_dealloc, sysCounters_return, hs, ← wrapped_add, Prod.mk_add_mk]
    exact congrArg (fun n => (0, wrapped (d + (k + 1), n))) (by ring)

theorem releaseBlocks_counted {L fuel : ℕ} (p : DescPtr) :
    Act.Keeps (Counted cfg L d) (releaseBlocks cfg fuel p) := by
  induction fuel generalizing p with
  | zero => exact .ite .stuck (.pure _)
  | succ fuel ih =>
    exact .ite (.bind (OfBase.load _) fun _ => .bind (Counted.ofBase.assert _) fun _ =>
      .bind (freeBlock_counted _) fun _ => .bind (OfBase.load _) fun _ => ih _) (.pure _)

/-- What a run keeps: nothing is counted as obtained, and every block given
back is counted. -/
def StatsInv (cfg : SoundingCfg) (w₀ : World) (s : St SoundingAddressPageAllocator) : Prop :=
  ∃ d, Tracked cfg w₀ d s ∧ Sys (0, wrapped (d, d * cfg.reservation_size)) s

/-- `deinitialize` counts the blocks it gives back, and nothing else. -/
theorem deinit_counters (hI : SoundInv cfg s.w.calls s.c g) {fuel : ℕ} (hfuel : g.used.length ≤ fuel)
    (hs : Sys (0, wrapped (d, d * cfg.reservation_size)) s) {u : Unit} (hx : Act.exec (deinit cfg fuel) s = .ret u t) :
    Sys (0, wrapped (d + g.blocks.length, (d + g.blocks.length) * cfg.reservation_size)) t := by
  have hnext : s.c.pageBlockListStart.next = g.node (0 + 1) := (hI.node 0 (Nat.zero_le _)).next
  obtain ⟨next, s₀, h₀, hx⟩ := Act.exec_bind_ret hx
  obtain ⟨rfl, rfl⟩ := Outcome.ret.inj (show Outcome.ret s.c.pageBlockListStart.next s = .ret next s₀ from h₀)
  obtain ⟨_, t₁, h₁, hx⟩ := Act.exec_bind_ret hx
  obtain ⟨_, t₂, h₂, hx⟩ := Act.exec_bind_ret hx
  obtain ⟨_, t₃, h₃, hx⟩ := Act.exec_bind_ret hx
  -- the blocks
  obtain ⟨k, hk, hs₁⟩ : Counted cfg (releases s.w.calls).length d t₁ :=
    (releaseBlocks_counted _).ret ⟨0, rfl, hs⟩ h₁
  rw [hnext] at h₁
  obtain ⟨hc₁, hw₁, -⟩ := Act.exec_ret
    (releaseBlocks_spec hI g.blocks 0 fuel s rfl (hI.blocks_le.trans hfuel) ⟨rfl, hI.idle⟩ hI.coll) h₁
  have hk : k = g.blocks.length := by
    rw [hw₁, (World.releasedAll_calls _ _ _).1, releases_append, releases_releases, List.length_append,
      List.length_map, List.length_reverse, List.length_map] at hk
    omega
  -- the pages and the lists
  have hs₃ : t₃.c.base.Idle ∧ t₃.c.base.stats.sysCounters =
      (0, wrapped (d + k, (d + k) * cfg.reservation_size)) :=
    (resetLists_base (fun b => b.Idle ∧ b.stats.sysCounters = _)).ret
      ((descriptors_base (fun b => b.Idle ∧ b.stats.sysCounters = _) _).ret ⟨hc₁.2, hs₁⟩ h₂) h₃
  -- the base has nothing cached
  have hlast : Act.wp (super PageAllocatorWithCaching.deinit) (fun _ t => t.c.base = t₃.c.base) (fun _ => False) t₃ := by
    rw [super, Act.wp_onPart]
    refine Act.wp_mono (PageAllocatorWithCaching.deinit_spec (s := ⟨t₃.w, t₃.c.base⟩) hs₃.1) ?_ fun _ hf => hf
    rintro _ _ rfl
    rfl
  have hbase := Act.exec_ret hlast hx
  unfold Sys
  rw [hbase, hs₃.2, hk]

/-- The calls of `deinitialize`. -/
theorem deinit_calls (hI : SoundInv cfg s.w.calls s.c g) (hf : Fits cfg g) {fuel : ℕ} {u : Unit}
    (hfuel : g.used.length + g.free.length ≤ fuel) (hx : Act.exec (deinit cfg fuel) s = .ret u t) :
    SoundInv cfg t.w.calls t.c .empty ∧ ∃ ps : List ℕ, t.w.calls = (ps.map fun p => .release p PAGE_SIZE) ++
      (((g.blocks.map Prod.snd).reverse.map fun b => .release b cfg.reservation_size) ++ s.w.calls) := by
  obtain ⟨⟨ps, -, hw⟩, hE, -⟩ := Act.exec_ret (deinit_spec hI hf hfuel) hx
  refine ⟨hE, ps.reverse, ?_⟩
  rw [hw, (World.releasedAll_calls _ _ _).1, (World.releasedAll_calls _ _ _).1]

theorem deinit_stats (h : StatsInv cfg w₀ s) {fuel : ℕ} {u : Unit} (hx : Act.exec (deinit cfg fuel) s = .ret u t) :
    StatsInv cfg w₀ t := by
  obtain ⟨d, ⟨g, run, hI, hf, hcalls, hperm, hlen⟩, hs⟩ := h
  -- with more rounds it does the same
  have hx := (deinit_below (le_max_left fuel (g.used.length + g.free.length))).ret hx
  have hfuel := le_max_right fuel (g.used.length + g.free.length)
  have hsys := deinit_counters hI ((Nat.le_add_right _ _).trans hfuel) hs hx
  obtain ⟨hE, ps, hw⟩ := deinit_calls hI hf hfuel hx
  have hcalls' : t.w.calls = ((ps.map fun p => .release p PAGE_SIZE) ++
      (((g.blocks.map Prod.snd).reverse.map fun b => .release b cfg.reservation_size) ++ run)) ++ w₀.calls := by
    rw [hw, hcalls]
    simp only [List.append_assoc]
  refine ⟨_, ⟨.empty, _, hE, Or.inr rfl, hcalls', ?_, ?_⟩, hsys⟩
  · have hnil : reservedRegions
        (((g.blocks.map Prod.snd).reverse.map fun b => .release b cfg.reservation_size) ++ run) = [] :=
      reservedRegions_released (by rwa [List.map_map])
    rw [reservedRegions_nil hnil]
    exact .refl _
  · rw [reservations_append, reservations_append, reservations_releases, reservations_releases, List.nil_append,
      List.nil_append, hlen]
    show g.blocks.length + d = 0 + (d + g.blocks.length)
    omega

inductive StatsOp where
  | call (op : PageOp)
  /-- with `fuel` rounds for each loop -/
  | deinit (fuel : ℕ)

/-- The state after a call, whether it returned or threw. -/
def stateAfter {σ α : Type} : Outcome σ α → Option σ
  | .ret _ t => some t
  | .throw t => some t
  | .stuck => none

/-- One call; a call for a page is for a bucket there is. -/
def statsStep (cfg : SoundingCfg) (os : Os) (s : St SoundingAddressPageAllocator) :
    StatsOp → Option (St SoundingAddressPageAllocator)
  | .call op => if op.idx < cfg.bucket_cnt then stateAfter (Act.exec (op.exec cfg os) s) else none
  | .deinit fuel => stateAfter (Act.exec (deinit cfg fuel) s)

/-- The state after `initialize` of a new allocator. -/
def StatsStarts (cfg : SoundingCfg) (w : World) (s : St SoundingAddressPageAllocator) : Prop :=
  ∃ c, c.base.stats = {} ∧ Act.exec (init cfg PAGE_SIZE_EXP) ⟨w, c⟩ = .ret () s

/-- The counters agree with what was reserved since `w₀` and is reserved still:
no difference wraps around. -/
def Balanced (w₀ : World) (s : St SoundingAddressPageAllocator) : Prop :=
  ∃ run, s.w.calls = run ++ w₀.calls ∧
    s.c.base.stats.sysAllocCount.toNat = s.c.base.stats.sysDeallocCount.toNat + (reservedRegions run).length ∧
    s.c.base.stats.sysAllocSize.toNat =
      s.c.base.stats.sysDeallocSize.toNat + ((reservedRegions run).map Prod.snd).sum

/-- Nothing was reserved since `w₀`. -/
def NothingReserved (w₀ : World) (s : St SoundingAddressPageAllocator) : Prop :=
  ∃ run, s.w.calls = run ++ w₀.calls ∧ reservations run = []

/-- The system gives no block at this call. -/
def NoBlock (cfg : SoundingCfg) (os : Os) (s : St SoundingAddressPageAllocator) : StatsOp → Prop
  | .call _ => nextBlock cfg os s = none
  | .deinit _ => True

variable {op : StatsOp}

theorem StatsStarts.inv (h : StatsStarts cfg w₀ s) : StatsInv cfg w₀ s ∧ s.w = w₀ := by
  obtain ⟨c, hst, hx⟩ := h
  have hinit : Act.wp (init cfg PAGE_SIZE_EXP) (fun _ t => t.w = w₀ ∧ SoundInv cfg t.w.calls t.c .empty)
      (fun _ => False) ⟨w₀, c⟩ := init_spec _ fun c hc => ⟨rfl, hc⟩
  obtain ⟨hw, hI⟩ := Act.exec_ret hinit hx
  have hkeep : Act.Keeps (Sys (0, wrapped (0, 0 * cfg.reservation_size))) (init cfg PAGE_SIZE_EXP) :=
    .bind (super_sys (.update fun _ h => h)) fun _ => .bind (descriptors_base (fun b => b.stats.sysCounters = _) _)
      fun _ => resetLists_base fun b => b.stats.sysCounters = _
  have hzero : Sys (0, wrapped (0, 0 * cfg.reservation_size)) ⟨w₀, c⟩ := by
    unfold Sys
    rw [hst, Nat.zero_mul]
    rfl
  refine ⟨⟨0, ⟨.empty, [], hI, Or.inr rfl, by rw [hw, List.nil_append], .refl _, rfl⟩, hkeep.ret hzero hx⟩, hw⟩

theorem StatsInv.step (h : StatsInv cfg w₀ s) (hs : statsStep cfg os s op = some t) : StatsInv cfg w₀ t := by
  cases op with
  | call op =>
    obtain ⟨d, hT, hS⟩ := h
    simp only [statsStep] at hs
    split_ifs at hs with hidx
    have hkeep : Act.Keeps (fun s => Tracked cfg w₀ d s ∧ Sys (0, wrapped (d, d * cfg.reservation_size)) s)
        (op.exec cfg os) :=
      .and (op.keeps (fun _ => .update fun _ h => h) (getPage_tracked hidx))
        (op.keeps (fun b => Sys.ofBase.assert b) (getPage_sys _))
    cases hx : Act.exec (op.exec cfg os) s with
    | ret a u =>
      rw [hx] at hs
      obtain rfl := Option.some.inj hs
      exact ⟨d, hkeep.ret ⟨hT, hS⟩ hx⟩
    | throw u =>
      rw [hx] at hs
      obtain rfl := Option.some.inj hs
      exact ⟨d, Act.wlp_throw (hkeep s ⟨hT, hS⟩) hx⟩
    | stuck =>
      rw [hx] at hs
      cases hs
  | deinit fuel =>
    simp only [statsStep] at hs
    cases hx : Act.exec (deinit cfg fuel) s with
    | ret a u =>
      rw [hx] at hs
      obtain rfl := Option.some.inj hs
      exact deinit_stats h hx
    | throw u =>
      obtain ⟨d, ⟨g, run, hI, hf, -⟩, -⟩ := h
      have hx := (deinit_below (le_max_left fuel (g.used.length + g.free.length))).throw hx
      exact (Act.exec_throw (deinit_spec hI hf (le_max_right _ _)) hx).elim
    | stuck =>
      rw [hx] at hs
      cases hs

/-- In a state of a run the balance holds if and only if nothing is reserved and
the blocks reserved so far are as many as 64 bits count as 0. -/
theorem StatsInv.balanced_iff (h : StatsInv cfg w₀ s) {run : List OsCall} (hrun : s.w.calls = run ++ w₀.calls) :
    Balanced w₀ s ↔ reservedRegions run = [] ∧ 2 ^ 64 ∣ (IibMalloc.reservations run).length := by
  obtain ⟨d, ⟨g, run', hI, -, hcalls, hperm, hlen⟩, hS⟩ := h
  obtain rfl := List.append_cancel_right (hrun.symm.trans hcalls)
  unfold Sys sysCounters wrapped at hS
  simp only [Prod.ext_iff, Prod.fst_zero, Prod.snd_zero] at hS
  obtain ⟨⟨h1, h2⟩, h3, h4⟩ := hS
  have hregions : (reservedRegions run).length = g.blocks.length := hperm.length_eq.trans (List.length_map _)
  constructor
  · intro hx
    obtain ⟨run', hrun', hcount, -⟩ := hx
    obtain rfl := List.append_cancel_right (hrun.symm.trans hrun')
    rw [h1, h3, UInt64.toNat_zero, UInt64.toNat_ofNat'] at hcount
    refine ⟨List.length_eq_zero_iff.mp (by omega), Nat.dvd_of_mod_eq_zero ?_⟩
    rw [hlen, ← hregions]
    omega
  · intro hx
    obtain ⟨hnil, hdvd⟩ := hx
    rw [hlen, ← hregions, hnil, List.length_nil, Nat.zero_add] at hdvd
    refine ⟨run, hrun, ?_, ?_⟩
    · rw [h1, h3, hnil, UInt64.toNat_zero, UInt64.toNat_ofNat', Nat.mod_eq_zero_of_dvd hdvd]
      rfl
    · rw [h2, h4, hnil, UInt64.toNat_zero, UInt64.toNat_ofNat', Nat.mod_eq_zero_of_dvd (hdvd.mul_right _)]
      rfl

theorem StatsInv.reservations (h : StatsInv cfg w₀ s) (hno : NoBlock cfg os s op) (hn : NothingReserved w₀ s)
    (hs : statsStep cfg os s op = some t) : reservations t.w.calls = reservations s.w.calls := by
  obtain ⟨d, ⟨g, run, hI, hf, hcalls, -, hlen⟩, -⟩ := h
  obtain ⟨run', hrun', hnone⟩ := hn
  obtain rfl := List.append_cancel_right (hcalls.symm.trans hrun')
  rw [hnone, List.length_nil] at hlen
  have hb : g.blocks = [] := List.length_eq_zero_iff.mp (by omega)
  cases op with
  | call op =>
    simp only [statsStep] at hs
    split_ifs at hs with hidx
    have hspec : Act.wlp (op.exec cfg os) (fun _ _ => False)
        (fun t => IibMalloc.reservations t.w.calls = IibMalloc.reservations s.w.calls) s := by
      cases op with
      | page idx =>
        exact Act.wlp_bind (Act.wlp_mono (getPage_refused hI hf hb hidx hno) (fun _ _ hf => hf.elim) fun _ ht => ht)
      | multipage idx =>
        exact Act.wlp_bind (Act.wlp_bind (Act.wlp_mono (getPage_refused hI hf hb hidx hno) (fun _ _ hf => hf.elim)
          fun _ ht => ht))
    cases hx : Act.exec (op.exec cfg os) s with
    | ret a u => exact (Act.wlp_ret hspec hx).elim
    | throw u =>
      rw [hx] at hs
      obtain rfl := Option.some.inj hs
      exact Act.wlp_throw hspec hx
    | stuck =>
      rw [hx] at hs
      cases hs
  | deinit fuel =>
    simp only [statsStep] at hs
    have hbelow : Act.Below (deinit cfg fuel) (deinit cfg (max fuel (g.used.length + g.free.length))) :=
      deinit_below (le_max_left _ _)
    cases hx : Act.exec (deinit cfg fuel) s with
    | ret a u =>
      rw [hx] at hs
      obtain rfl := Option.some.inj hs
      obtain ⟨-, ps, hw⟩ := deinit_calls hI hf (le_max_right _ _) (hbelow.ret hx)
      rw [hw, reservations_append, reservations_append, reservations_releases, reservations_releases]
      rfl
    | throw u => exact (Act.exec_throw (deinit_spec hI hf (le_max_right _ _)) (hbelow.throw hx)).elim
    | stuck =>
      rw [hx] at hs
      cases hs

theorem NothingReserved.none (h : NothingReserved w₀ s) (hI : StatsInv cfg w₀ s) {run : List OsCall}
    (hrun : s.w.calls = run ++ w₀.calls) : IibMalloc.reservations run = [] ∧ reservedRegions run = [] := by
  obtain ⟨run', hrun', hnone⟩ := h
  obtain rfl := List.append_cancel_right (hrun.symm.trans hrun')
  obtain ⟨d, ⟨g, run', -, -, hcalls, hperm, hlen⟩, -⟩ := hI
  obtain rfl := List.append_cancel_right (hrun.symm.trans hcalls)
  refine ⟨hnone, List.length_eq_zero_iff.mp ?_⟩
  rw [hnone, List.length_nil] at hlen
  rw [hperm.length_eq, Ghost.blockRegions, List.length_map]
  omega

/-- **The balance holds until a block is reserved.** In a run in which the
system gives no block it holds in every state. In any run it holds in those
states in which nothing is reserved and the blocks reserved so far are as many
as 64 bits count as 0: with fewer than `2 ^ 64` of them, where none was reserved,
and nowhere else. -/
theorem balance_run {s₀ : St SoundingAddressPageAllocator} (h₀ : StatsStarts cfg w₀ s₀) :
    (∀ s, Reach (statsStep cfg os) (NoBlock cfg os) s₀ s → Balanced w₀ s) ∧
    ∀ s, Reach (statsStep cfg os) (fun _ _ => True) s₀ s → ∃ run, s.w.calls = run ++ w₀.calls ∧
      (Balanced w₀ s ↔ reservedRegions run = [] ∧ 2 ^ 64 ∣ (IibMalloc.reservations run).length) ∧
      ((IibMalloc.reservations run).length < 2 ^ 64 → (Balanced w₀ s ↔ NothingReserved w₀ s)) := by
  obtain ⟨hI₀, hw₀⟩ := h₀.inv
  refine ⟨fun s hr => ?_, fun s hr => ?_⟩
  · have hinv : StatsInv cfg w₀ s ∧ NothingReserved w₀ s := by
      refine hr.invariant (P := fun s => StatsInv cfg w₀ s ∧ NothingReserved w₀ s)
        ⟨hI₀, [], by rw [hw₀, List.nil_append], rfl⟩ ?_
      intro s t op hs hno hst
      obtain ⟨hI, hn⟩ := hs
      have hres := hI.reservations hno hn hst
      have hI' := hI.step hst
      obtain ⟨run, hrun, hnone⟩ := hn
      obtain ⟨d, ⟨g, run', -, -, hrun', -⟩, -⟩ := hI'
      rw [hrun, hrun', reservations_append, reservations_append, hnone] at hres
      exact ⟨hI.step hst, run', hrun', List.append_cancel_right hres⟩
    obtain ⟨hI, run, hrun, hnone⟩ := hinv
    rw [hI.balanced_iff hrun, hnone]
    exact ⟨(NothingReserved.none ⟨run, hrun, hnone⟩ hI hrun).2, dvd_zero _⟩
  · have hI : StatsInv cfg w₀ s := hr.invariant (P := StatsInv cfg w₀) hI₀ fun op h _ hs => h.step hs
    obtain ⟨d, ⟨g, run, -, -, hrun, -⟩, -⟩ := id hI
    refine ⟨run, hrun, hI.balanced_iff hrun, fun hlt => ?_⟩
    rw [hI.balanced_iff hrun]
    constructor
    · intro hx
      exact ⟨run, hrun, List.length_eq_zero_iff.mp (Nat.eq_zero_of_dvd_of_lt hx.2 hlt)⟩
    · intro hx
      obtain ⟨hnone, hnil⟩ := hx.none hI hrun
      rw [hnone]
      exact ⟨hnil, dvd_zero _⟩

/-- A new allocator. -/
def statsFresh : St SoundingAddressPageAllocator := (PageRun.init pageAllocatorT ⟨[], fun _ => 7, true⟩ raw).s

theorem statsFresh_starts : StatsStarts pageAllocatorT ⟨[], fun _ => 7, true⟩ statsFresh := ⟨raw, rfl, rfl⟩

/-- A system without memory. -/
def Os.empty : Os := ⟨fun _ _ => none, fun _ _ _ => false, fun h => by cases h⟩

theorem balance_run_empty : ∃ s, run (statsStep pageAllocatorT Os.empty) (fun _ _ => true) statsFresh
      [.call (.page 3), .deinit 1, .call (.multipage 5)] = some s ∧
    Balanced ⟨[], fun _ => 7, true⟩ s := by
  obtain ⟨s, hs⟩ := Option.isSome_iff_exists.mp (show (run (statsStep pageAllocatorT Os.empty) (fun _ _ => true)
      statsFresh [.call (.page 3), .deinit 1, .call (.multipage 5)]).isSome = true by decide +kernel)
  refine ⟨s, hs, (balance_run statsFresh_starts).1 s ((Reach.of_run hs).mono fun s op _ => ?_)⟩
  cases op with
  | call op =>
    unfold NoBlock nextBlock
    split_ifs
    · rfl
    · rfl
  | deinit fuel => trivial

/-- One page, then `deinitialize`: the block is counted once, as given back. -/
theorem balance_page_deinit :
    (run (statsStep pageAllocatorT (Os.linear 0)) (fun _ _ => true) statsFresh
      [.call (.page 3), .deinit 100]).map (fun s => s.c.base.stats.diff) =
        some (18446744073709551615, 18446744073701163008) ∧
    ¬ ∀ (cfg : SoundingCfg) (os : Os) (w₀ : World) (s₀ s : St SoundingAddressPageAllocator), StatsStarts cfg w₀ s₀ →
      Reach (statsStep cfg os) (fun _ _ => True) s₀ s → Balanced w₀ s := by
  refine ⟨by decide +kernel, fun h => ?_⟩
  obtain ⟨s, hs⟩ := Option.isSome_iff_exists.mp (show (run (statsStep pageAllocatorT (Os.linear 0)) (fun _ _ => true)
      statsFresh [.call (.page 3)]).isSome = true by decide +kernel)
  have hcount : (run (statsStep pageAllocatorT (Os.linear 0)) (fun _ _ => true) statsFresh
      [.call (.page 3)]).map (fun s => (s.c.base.stats.sysAllocCount.toNat, (reservedRegions s.w.calls).length)) =
        some (0, 1) := by decide +kernel
  rw [hs, Option.map_some, Option.some.injEq, Prod.mk.injEq] at hcount
  obtain ⟨run, hrun, hbal, -⟩ := h pageAllocatorT (Os.linear 0) _ _ s statsFresh_starts
    ((Reach.of_run hs).mono fun _ _ _ => trivial)
  rw [List.append_nil] at hrun
  rw [← hrun, hcount.1, hcount.2] at hbal
  omega

end SoundingAddressPageAllocator

end IibMalloc

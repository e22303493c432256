/-
# PageAllocatorWithCaching: the statistics

`stats` counts what is obtained from the system and given back to it, and what is
asked of the allocator and returned to it, with 64 bits. `Books` is what the
counters say, against the history of system calls and what the client holds.
Together with `CacheInv` it gives the balance of a run (`stats_run`): what is
obtained and not given back is what the client holds and what is cached, and no
more than `cacheCapacity` is cached; after `deinitialize` nothing is. These
blocks lie apart below `2 ^ 64`, so that the differences which `printStats` prints
are their number and bytes, however often the counters wrapped around.
-/
import IibMalloc.PageCache

namespace IibMalloc

open Lib BlockStats
open scoped UInt64.CommRing

/-- How many, and how many bytes. -/
def tally (sizes : List ℕ) : ℕ × ℕ := (sizes.length, sizes.sum)

section Tally

variable {l l' : List ℕ} {n : ℕ}

@[simp] theorem tally_nil : tally [] = 0 := rfl

theorem tally_cons : tally (n :: l) = (1, n) + tally l := by
  simp [tally, Nat.add_comm]

theorem tally_append : tally (l ++ l') = tally l + tally l' := by
  simp [tally]

theorem tally_perm (h : l.Perm l') : tally l = tally l' := Prod.ext h.length_eq h.sum_eq

end Tally

/-- The sizes of the requests that the system refused, latest first. -/
def refusals : List OsCall → List ℕ
  | [] => []
  | .refused n :: cs => n :: refusals cs
  | _ :: cs => refusals cs

namespace PageAllocatorWithCaching

variable {os : Os} {w₀ : World} {s : St PageAllocatorWithCaching} {p : ItemPtr} {held : ℕ × ℕ} {sz ix n : ℕ}
  {P : List OsCall → BlockStats → Prop}

/-! ### What the counters say -/

/-- The counters, where since `w₀` the calls `run` were made and `held` is asked
for, served and not returned. -/
structure Entries (run : List OsCall) (held : ℕ × ℕ) (st : BlockStats) : Prop where
  obtained : st.sysCounters.1 = wrapped (tally ((obtained run).map Prod.snd))
  released : st.sysCounters.2 = wrapped (tally ((releases run).map Prod.snd))
  requests : st.requestCounters.1 = st.requestCounters.2 + wrapped (held + tally (refusals run))
  inSpace : ∀ e ∈ IibMalloc.obtained run, 0 < e.1 ∧ e.1 + e.2 < 2 ^ 64

def Books (w₀ : World) (held : ℕ × ℕ) (calls : List OsCall) (st : BlockStats) : Prop :=
  ∃ run, calls = run ++ w₀.calls ∧ Entries run held st

/-- The counters are those of a run. -/
def Booked (w₀ : World) (held : ℕ × ℕ) (s : St PageAllocatorWithCaching) : Prop := Books w₀ held s.w.calls s.c.stats

/-! ### What is not counted -/

/-- A program that returns, calls nothing and counts nothing. -/
def Quiet {α : Type} (x : Act (St PageAllocatorWithCaching) α) : Prop :=
  ∀ s, Act.wp x (fun _ t => t.w.calls = s.w.calls ∧ t.c.stats = s.c.stats) (fun _ => False) s

namespace Quiet

variable {α β : Type} {x : Act (St PageAllocatorWithCaching) α}

theorem pure (a : α) : Quiet (Pure.pure a) := fun _ => (Act.wp_pure a).mpr ⟨rfl, rfl⟩

theorem read (f : St PageAllocatorWithCaching → α) : Quiet (Act.read f) := fun _ => (Act.wp_read f).mpr ⟨rfl, rfl⟩

theorem assert (b : Bool) : Quiet (Act.assert b) := fun _ => (Act.wp_assert b).mpr ⟨rfl, rfl⟩

theorem onSelf {f : PageAllocatorWithCaching → PageAllocatorWithCaching} (hf : ∀ c, (f c).stats = c.stats) :
    Quiet (Act.onSelf f) := fun s => (Act.wp_onSelf f).mpr ⟨rfl, hf s.c⟩

theorem bind {f : α → Act (St PageAllocatorWithCaching) β} (hx : Quiet x) (hf : ∀ a, Quiet (f a)) :
    Quiet (x >>= f) := fun s => by
  rw [Act.wp_bind]
  refine Act.wp_mono (hx s) (fun a t ⟨hw, hs⟩ => ?_) fun _ h => h
  exact Act.wp_mono (hf a t) (fun _ u hu => ⟨hu.1.trans hw, hu.2.trans hs⟩) fun _ h => h

theorem ite {c : Prop} [Decidable c] {y : Act (St PageAllocatorWithCaching) α} (hx : Quiet x) (hy : Quiet y) :
    Quiet (if c then x else y) := by
  split_ifs
  · exact hx
  · exact hy

theorem initItem (p : ItemPtr) (sz ix : ℕ) : Quiet (initItem p sz ix) := onSelf fun _ => rfl

theorem removeFromList (p : ItemPtr) : Quiet (removeFromList p) :=
  .bind (.read _) fun _ => .bind (assert _) fun _ => .bind (assert _) fun _ => .bind (onSelf fun _ => rfl) fun _ =>
    .bind (onSelf fun _ => rfl) fun _ => onSelf fun _ => rfl

theorem popFront (ix : ℕ) : Quiet (popFront ix) :=
  .bind (.read _) fun _ => .bind (assert _) fun _ => .bind (.read _) fun _ => .bind (removeFromList _) fun _ =>
    .bind (onSelf fun _ => rfl) fun _ => .pure _

theorem isInList (p : ItemPtr) : Quiet (isInList p) :=
  .bind (.read _) fun _ => .ite (.pure _) (.bind (assert _) fun _ => .bind (assert _) fun _ => .pure _)

theorem listInsertNext (p other : ItemPtr) : Quiet (listInsertNext p other) :=
  .bind (isInList _) fun _ => .bind (assert _) fun _ => .bind (isInList _) fun _ => .bind (assert _) fun _ =>
    .bind (.read _) fun _ => .bind (onSelf fun _ => rfl) fun _ => .bind (onSelf fun _ => rfl) fun _ =>
    .bind (onSelf fun _ => rfl) fun _ => onSelf fun _ => rfl

theorem pushFront (ix : ℕ) (chk : ItemPtr) : Quiet (pushFront ix chk) :=
  .bind (listInsertNext _ _) fun _ => onSelf fun _ => rfl

/-- It leaves the books as they are. -/
theorem books (hx : Quiet x) (h : Booked w₀ held s) : Act.wp x (fun _ => Booked w₀ held) (fun _ => False) s := by
  refine Act.wp_mono (hx s) (fun _ t ⟨hw, hs⟩ => ?_) fun _ ht => ht
  unfold Booked at *
  rwa [hw, hs]

end Quiet

namespace Entries

variable {run : List OsCall} {st : BlockStats} {w : World} {a : ℕ}

theorem request (h : Entries run held st) (n : ℕ) : Entries run ((1, n) + held) (st.registerAllocRequest n) := by
  refine ⟨h.obtained, h.released, ?_, h.inSpace⟩
  simp only [requestCounters_alloc, h.requests, wrapped_add]
  ac_rfl

theorem returned (h : Entries run ((1, n) + held) st) : Entries run held (st.registerDeallocRequest n) := by
  refine ⟨h.obtained, h.released, ?_, h.inSpace⟩
  simp only [requestCounters_dealloc, h.requests, wrapped_add]
  ac_rfl

theorem refused (h : Entries run ((1, n) + held) st) : Entries (.refused n :: run) held st := by
  refine ⟨h.obtained, h.released, ?_, h.inSpace⟩
  rw [h.requests, show refusals (.refused n :: run) = n :: refusals run from rfl, tally_cons]
  exact congrArg (fun v => _ + wrapped v) (by ac_rfl)

theorem allocate (h : Entries run held st) (ha : FreshRegion w.calls a n) :
    Entries (.allocate a n :: run) held (st.registerSysAlloc n) := by
  refine ⟨?_, h.released, h.requests, fun e he => ?_⟩
  · rw [sysCounters_alloc, IibMalloc.obtained, List.map_cons, tally_cons, wrapped_add, h.obtained]
    exact add_comm _ _
  · rcases List.mem_cons.mp he with he | he
    · rw [he]
      exact ⟨ha.pos, ha.lt⟩
    · exact h.inSpace e he

theorem release (h : Entries run held st) (a n : ℕ) : Entries (.release a n :: run) held (st.registerSysDealloc n) := by
  refine ⟨h.obtained, ?_, h.requests, h.inSpace⟩
  rw [sysCounters_dealloc, releases, List.map_cons, tally_cons, wrapped_add, h.released]
  exact add_comm _ _

end Entries

/-! ### The calls -/

/-- A block is obtained, and counted. -/
theorem obtain_books (os : Os) (h : Booked w₀ ((1, sz) + held) s) (ix : ℕ) :
    Act.wp (do
        let ptr ← Act.onWorld (VirtualMemory.allocate os sz)
        Act.onSelf fun c => { c with stats := c.stats.registerSysAlloc sz }
        if ptr ≠ 0 then do
          initItem (.block ptr) sz ix
          return ItemPtr.block ptr
        else Act.throw)
      (fun _ => Booked w₀ ((1, sz) + held)) (Booked w₀ held) s := by
  obtain ⟨run, hrun, hE⟩ := h
  rw [Act.wp_bind, Act.wp_onWorld, VirtualMemory.wp_allocate]
  refine ⟨fun b hb => ?_, fun _ => ⟨.refused sz :: run, congrArg _ hrun, hE.refused⟩⟩
  rw [Act.wp_bind, Act.wp_onSelf, if_pos (os.fresh hb).pos.ne', Act.wp_bind, initItem, Act.wp_onSelf, Act.wp_pure]
  exact ⟨.allocate b sz :: run, congrArg _ hrun, hE.allocate (os.fresh hb)⟩

/-- A block is given back, and counted. -/
theorem release_books (h : Booked w₀ held s) (a sz : ℕ) :
    Act.wp (do
        Act.onWorld (VirtualMemory.deallocate a sz)
        Act.onSelf fun c => { c with stats := c.stats.registerSysDealloc sz })
      (fun _ => Booked w₀ held) (fun _ => False) s := by
  obtain ⟨run, hrun, hE⟩ := h
  rw [Act.wp_bind, Act.wp_onWorld, VirtualMemory.wp_deallocate, Act.wp_onSelf]
  exact ⟨.release a sz :: run, congrArg _ hrun, hE.release a sz⟩

theorem getFreeBlock_books (os : Os) (sz : ℕ) (h : Booked w₀ held s) :
    Act.wp (getFreeBlock os sz) (fun _ => Booked w₀ ((1, sz) + held)) (Booked w₀ held) s := by
  obtain ⟨run, hrun, hE⟩ := h
  have hask : Booked w₀ ((1, sz) + held) ⟨s.w, { s.c with stats := s.c.stats.registerAllocRequest sz }⟩ :=
    ⟨run, hrun, hE.request sz⟩
  unfold getFreeBlock
  rw [Act.wp_bind, Act.wp_onSelf, Act.wp_bind, Act.wp_read, Act.wp_bind, Act.wp_assert, Act.wp_bind, Act.wp_read]
  split_ifs
  · refine Act.wp_mono (Quiet.books ?_ hask) (fun _ _ ht => ht) fun _ ht => ht.elim
    exact .bind (.popFront _) fun _ => .bind (.initItem _ _ _) fun _ => .pure _
  · refine obtain_books os ?_ _
    exact hask

/-- The size of the block stands in its header. -/
theorem freeChunk_books {a : ℕ} (h : Booked w₀ ((1, (s.c.items (.block a)).size) + held) s) :
    Act.wp (freeChunk (.block a)) (fun _ => Booked w₀ held) (fun _ => False) s := by
  obtain ⟨run, hrun, hE⟩ := h
  have hback : Booked w₀ held
      ⟨s.w, { s.c with stats := s.c.stats.registerDeallocRequest (s.c.items (.block a)).size }⟩ :=
    ⟨run, hrun, hE.returned⟩
  unfold freeChunk
  rw [Act.wp_bind, Act.wp_read, Act.wp_bind, Act.wp_onSelf, Act.wp_bind, Act.wp_read, Act.wp_bind, Act.wp_read]
  split_ifs
  · exact (Quiet.pushFront _ _).books hback
  · exact release_books hback a _

theorem drain_books (ix n : ℕ) (h : Booked w₀ held s) :
    Act.wp (drain ix n) (fun _ => Booked w₀ held) (fun _ => False) s := by
  induction n generalizing s with
  | zero => exact (Act.wp_pure _).mpr h
  | succ n ih =>
    rw [drain, Act.wp_bind]
    refine Act.wp_mono ((Quiet.popFront ix).books h) ?_ fun _ ht => ht
    intro chk t ht
    rw [Act.wp_bind, Act.wp_read]
    have hrelease := release_books ht (addrOf chk) (t.c.items chk).size
    rw [Act.wp_bind] at hrelease ⊢
    refine Act.wp_mono hrelease (fun _ u hu => ?_) fun _ hu => hu
    rw [Act.wp_bind]
    exact Act.wp_mono hu (fun _ v hv => ih hv) fun _ hv => hv

theorem deinit_books (h : Booked w₀ held s) : Act.wp deinit (fun _ => Booked w₀ held) (fun _ => False) s := by
  have hall : ∀ n ix s, Booked w₀ held s → Act.wp (drainFrom ix n) (fun _ => Booked w₀ held) (fun _ => False) s := by
    intro n
    induction n with
    | zero => exact fun ix s h => (Act.wp_pure _).mpr h
    | succ n ih =>
      intro ix s h
      rw [drainFrom, Act.wp_bind, Act.wp_read, Act.wp_bind]
      exact Act.wp_mono (drain_books ix _ h) (fun _ t ht => ih (ix + 1) t ht) fun _ ht => ht
  exact hall _ 0 s h

/-! ### What is cached -/

/-- The blocks that `freeBlocks[ix]` has room for. -/
def capacity (ix : ℕ) : ℕ :=
  if ix = 0 then single_page_cache_size else if ix < max_cached_size then multi_page_cache_size else 0

/-- The bytes that the lists have room for. -/
def cacheCapacity : ℕ := ((List.range (max_cached_size + 1)).map fun ix => capacity ix * ((ix + 1) * PAGE_SIZE)).sum

theorem cacheCapacity_eq : cacheCapacity = 868 * 4096 := by decide +kernel

variable {cached : ℕ → List ℕ} {live : List (ℕ × ℕ)}

theorem CacheInv.length_capacity (h : CacheInv w₀ s live cached) (hix : ix ≤ max_cached_size) :
    (cached ix).length ≤ capacity ix := by
  unfold capacity
  split_ifs with h0 hlt
  · rw [h0]
    exact h.single
  · exact h.multi ix hlt (Nat.pos_of_ne_zero h0)
  · rw [show ix = max_cached_size by omega, h.large]
    exact le_rfl

theorem CacheInv.cached_le (h : CacheInv w₀ s live cached) :
    ((cachedBlocks cached).map Prod.snd).sum ≤ cacheCapacity := by
  unfold cachedBlocks cacheCapacity
  rw [List.map_flatMap, List.flatMap_def, List.sum_flatten, List.map_map]
  refine List.sum_le_sum fun ix hix => ?_
  have hlen := h.length_capacity (Nat.lt_succ_iff.mp (List.mem_range.mp hix))
  show (((cached ix).map fun a => (a, (ix + 1) * PAGE_SIZE)).map Prod.snd).sum ≤ _
  rw [List.map_map]
  show ((cached ix).map fun _ => (ix + 1) * PAGE_SIZE).sum ≤ _
  rw [List.map_const', List.sum_replicate, smul_eq_mul]
  exact Nat.mul_le_mul_right _ hlen

/-- What is obtained and not given back is held by the client or cached. -/
theorem CacheInv.balance (h : CacheInv w₀ s live cached) (hb : Booked w₀ (tally (live.map Prod.snd)) s) :
    s.c.stats.sysCounters.1 = s.c.stats.sysCounters.2 +
      wrapped (tally (live.map Prod.snd) + tally ((cachedBlocks cached).map Prod.snd)) := by
  obtain ⟨run, hrun, hE⟩ := hb
  obtain ⟨run', hrun', howned⟩ := h.holds.owned
  obtain rfl := List.append_cancel_right (hrun.symm.trans hrun')
  rw [hE.obtained, hE.released, tally_perm (howned.map Prod.snd), List.map_append, List.map_append, tally_append,
    tally_append, wrapped_add]
  exact add_comm _ _

/-- Blocks that lie apart below `N` have fewer bytes than `N`. -/
theorem sum_lt_of_apart {bs : List (ℕ × ℕ)} {N : ℕ} (hN : 0 < N) (h : bs.Pairwise Apart)
    (hbs : ∀ e ∈ bs, 0 < e.1 ∧ e.1 + e.2 ≤ N) : (bs.map Prod.snd).sum < N := by
  have hn : (bs.flatMap fun e => List.range' e.1 e.2).Nodup := by
    refine List.nodup_flatMap.mpr ⟨fun e _ => List.nodup_range', h.imp fun hab x hx hx' => ?_⟩
    exact hab x (List.mem_range'_1.mp hx) (List.mem_range'_1.mp hx')
  have hsub : (bs.flatMap fun e => List.range' e.1 e.2) ⊆ List.range' 1 (N - 1) := fun x hx => by
    obtain ⟨e, he, hxe⟩ := List.mem_flatMap.mp hx
    obtain ⟨hpos, hle⟩ := hbs e he
    rw [List.mem_range'_1] at hxe ⊢
    omega
  have hle := (List.subperm_of_subset hn hsub).length_le
  simp only [List.length_flatMap, List.length_range'] at hle
  change (bs.map Prod.snd).sum ≤ N - 1 at hle
  omega

/-- What is held or cached has fewer than `2 ^ 64` bytes, and no more blocks than
bytes. -/
theorem CacheInv.fits (h : CacheInv w₀ s live cached) (hb : Booked w₀ (tally (live.map Prod.snd)) s) {v : ℕ × ℕ}
    (hv : v = tally (live.map Prod.snd) + tally ((cachedBlocks cached).map Prod.snd)) :
    v.1 < 2 ^ 64 ∧ v.2 < 2 ^ 64 := by
  obtain ⟨run, hrun, hE⟩ := hb
  obtain ⟨run', hrun', howned⟩ := h.holds.owned
  obtain rfl := List.append_cancel_right (hrun.symm.trans hrun')
  have hall : v = tally ((live ++ cachedBlocks cached).map Prod.snd) := by rw [hv, List.map_append, tally_append]
  have hbytes : v.2 < 2 ^ 64 := by
    rw [hall]
    refine sum_lt_of_apart (by norm_num) h.holds.apart fun e he => ?_
    obtain ⟨hpos, hlt⟩ := hE.inSpace e (howned.mem_iff.mpr (List.mem_append_left _ he))
    exact ⟨hpos, hlt.le⟩
  have hcount : v.1 ≤ v.2 := by
    rw [hall]
    refine List.length_le_sum_of_one_le _ fun n hn => ?_
    obtain ⟨e, he, rfl⟩ := List.mem_map.mp hn
    rcases List.mem_append.mp he with he | he
    · exact (h.sizes e he).1
    · obtain ⟨ix, -, hix⟩ := List.mem_flatMap.mp he
      obtain ⟨a, -, rfl⟩ := List.mem_map.mp hix
      exact Nat.mul_pos (Nat.succ_pos ix) (by decide)
  omega

/-- What `printStats` prints is exact. -/
theorem CacheInv.printed (h : CacheInv w₀ s live cached) (hb : Booked w₀ (tally (live.map Prod.snd)) s) {v : ℕ × ℕ}
    (hv : v = tally (live.map Prod.snd) + tally ((cachedBlocks cached).map Prod.snd)) :
    s.c.stats.diff.1.toNat = v.1 ∧ s.c.stats.diff.2.toNat = v.2 := by
  have hbal := h.balance hb
  obtain ⟨h1, h2⟩ := h.fits hb hv
  rw [← hv] at hbal
  rw [diff_eq _ hbal]
  exact ⟨UInt64.toNat_ofNat_of_lt' h1, UInt64.toNat_ofNat_of_lt' h2⟩

/-! ### Runs -/

inductive CacheCall where
  | call (op : CacheOp)
  | deinit

/-- One call, or `deinitialize`, after which the allocator is as after `initialize`. -/
def cacheStep (os : Os) (r : CacheRun) : CacheCall → Option CacheRun
  | .call op => r.step os op
  | .deinit => match Act.exec PageAllocatorWithCaching.deinit r.s with
    | .ret _ t => some ⟨t, r.live⟩
    | _ => none

/-- The state after `initialize` of a new allocator. -/
def CacheRun.StartsNew (w : World) (r : CacheRun) : Prop :=
  ∃ c, c.stats = {} ∧ Act.exec (init PAGE_SIZE_EXP) ⟨w, c⟩ = .ret () r.s ∧ r.live = []

/-- The invariants of a run. -/
def Balanced (w₀ : World) (r : CacheRun) : Prop :=
  (∃ cached, CacheInv w₀ r.s r.live cached) ∧ Booked w₀ (tally (r.live.map Prod.snd)) r.s

variable {r r₀ r' : CacheRun} {op : CacheCall}

theorem Balanced.start (h₀ : r₀.StartsNew w₀) : Balanced w₀ r₀ := by
  obtain ⟨c, hst, hx, hl⟩ := h₀
  have hinit : Act.wp (init PAGE_SIZE_EXP) (fun _ t => t.w = w₀ ∧ t.c.stats = {}) (fun _ => False) ⟨w₀, c⟩ :=
    (Act.wp_onSelf _).mpr ⟨rfl, hst⟩
  obtain ⟨hw, hs⟩ := Act.exec_ret hinit hx
  refine ⟨CacheRun.Starts.inv ⟨c, hx, hl⟩, [], by rw [hw, List.nil_append], ?_⟩
  rw [hl, hs]
  exact ⟨rfl, rfl, rfl, fun e he => by cases he⟩

theorem Balanced.step (h : Balanced w₀ r) (hs : cacheStep os r op = some r') : Balanced w₀ r' := by
  obtain ⟨⟨cached, hI⟩, hB⟩ := h
  cases op with
  | deinit =>
    have hspec := Act.wp_and_wlp (deinit_cached hI) (Act.wlp_of_wp (deinit_books hB))
    simp only [cacheStep] at hs
    split at hs
    · rename_i t hx
      obtain rfl := Option.some.inj hs
      obtain ⟨⟨-, cached', hI', -⟩, hB'⟩ := Act.exec_ret hspec hx
      exact ⟨⟨cached', hI'⟩, hB'⟩
    · cases hs
  | call op =>
    replace hs : CacheRun.step os r op = some r' := hs
    refine ⟨hI.step hs, ?_⟩
    cases op with
    | getFreeBlock sz =>
      have hspec := getFreeBlock_books os sz hB
      simp only [CacheRun.step] at hs
      split_ifs at hs
      split at hs
      · rename_i p t hx
        obtain rfl := Option.some.inj hs
        rw [List.map_cons, tally_cons]
        exact Act.exec_ret hspec hx
      · rename_i t hx
        obtain rfl := Option.some.inj hs
        exact Act.exec_throw hspec hx
      · cases hs
    | freeChunk e =>
      simp only [CacheRun.step] at hs
      split_ifs at hs with he
      have hspec : Act.wp (freeChunk (.block e.1)) (fun _ => Booked w₀ (tally ((r.live.erase e).map Prod.snd)))
          (fun _ => False) r.s := by
        refine freeChunk_books ?_
        rw [(hI.header e he).1, ← tally_cons, ← List.map_cons,
          ← tally_perm ((List.perm_cons_erase he).map Prod.snd)]
        exact hB
      split at hs
      · rename_i t hx
        obtain rfl := Option.some.inj hs
        exact Act.exec_ret hspec hx
      · rename_i t hx
        exact (Act.exec_throw hspec hx).elim
      · cases hs

/-- **The balance of a run.** What was obtained and not given back is what the
client holds and what is cached, with at most `cacheCapacity` bytes cached, and
the differences that `printStats` prints are these numbers; `deinitialize` leaves
what the client holds. The requests not returned are, as 64 bits count them, what
the client holds and what was refused. -/
theorem stats_run (h₀ : r₀.StartsNew w₀) (hr : Reach (cacheStep os) (fun _ _ => True) r₀ r) :
    (∃ cached v, CacheInv w₀ r.s r.live cached ∧
      v = tally (r.live.map Prod.snd) + tally ((cachedBlocks cached).map Prod.snd) ∧
      r.s.c.stats.sysCounters.1 = r.s.c.stats.sysCounters.2 + wrapped v ∧
      r.s.c.stats.diff.1.toNat = v.1 ∧ r.s.c.stats.diff.2.toNat = v.2 ∧
      ((cachedBlocks cached).map Prod.snd).sum ≤ cacheCapacity) ∧
    (∃ run, r.s.w.calls = run ++ w₀.calls ∧ r.s.c.stats.requestCounters.1 =
      r.s.c.stats.requestCounters.2 + wrapped (tally (r.live.map Prod.snd) + tally (refusals run))) ∧
    Act.wp deinit
      (fun _ t => t.c.stats.sysCounters.1 = t.c.stats.sysCounters.2 + wrapped (tally (r.live.map Prod.snd)) ∧
        t.c.stats.diff.1.toNat = r.live.length ∧ t.c.stats.diff.2.toNat = (r.live.map Prod.snd).sum)
      (fun _ => False) r.s := by
  obtain ⟨⟨cached, hI⟩, hB⟩ : Balanced w₀ r :=
    hr.invariant (P := Balanced w₀) (.start h₀) fun op h _ hs => h.step hs
  obtain ⟨hcount, hsize⟩ := hI.printed hB rfl
  refine ⟨⟨cached, _, hI, rfl, hI.balance hB, hcount, hsize, hI.cached_le⟩, ?_, ?_⟩
  · obtain ⟨run, hrun, hE⟩ := hB
    exact ⟨run, hrun, hE.requests⟩
  · have hspec := Act.wp_and_wlp (deinit_cached hI) (Act.wlp_of_wp (deinit_books hB))
    refine Act.wp_mono hspec ?_ fun _ ht => ht.1
    intro _ t ht
    obtain ⟨⟨-, cached', hI', hnil⟩, hB'⟩ := ht
    have hempty : cachedBlocks cached' = [] := List.flatMap_eq_nil_iff.mpr fun ix hix => by
      rw [hnil ix (Nat.lt_succ_iff.mp (List.mem_range.mp hix)), List.map_nil]
    have hbalance := hI'.balance hB'
    obtain ⟨hcount', hsize'⟩ := hI'.printed hB' rfl
    rw [hempty, List.map_nil, tally_nil, add_zero] at hbalance hcount' hsize'
    exact ⟨hbalance, hcount'.trans (List.length_map _), hsize'⟩

/-- Two blocks, of which one is cached and then unmapped, and one block again. -/
theorem stats_run_five : ∃ r, run (cacheStep (Os.linear 0)) (fun _ _ => true) CacheRun.fresh
      [.call (.getFreeBlock 4096), .call (.getFreeBlock 8192), .call (.freeChunk (4096, 4096)), .deinit,
        .call (.getFreeBlock 4096)] = some r ∧
    r.s.c.stats.sysCounters = ((3, 16384), (1, 4096)) ∧
    Act.wp deinit
      (fun _ t => t.c.stats.sysCounters.1 = t.c.stats.sysCounters.2 + wrapped (tally (r.live.map Prod.snd)) ∧
        t.c.stats.diff.1.toNat = r.live.length ∧ t.c.stats.diff.2.toNat = (r.live.map Prod.snd).sum)
      (fun _ => False) r.s := by
  obtain ⟨r, hr, hc⟩ := Option.map_eq_some_iff.mp (show (run (cacheStep (Os.linear 0)) (fun _ _ => true) CacheRun.fresh
      [.call (.getFreeBlock 4096), .call (.getFreeBlock 8192), .call (.freeChunk (4096, 4096)), .deinit,
        .call (.getFreeBlock 4096)]).map (fun r => r.s.c.stats.sysCounters) = some ((3, 16384), (1, 4096)) by
    decide +kernel)
  have h₀ : CacheRun.fresh.StartsNew ⟨[], fun _ => 7, true⟩ := ⟨rawCache, rfl, rfl, rfl⟩
  exact ⟨r, hr, hc, (stats_run h₀ ((Reach.of_run hr).mono fun _ _ _ => trivial)).2.2⟩

end PageAllocatorWithCaching

end IibMalloc

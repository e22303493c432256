/-
# SerializableAllocatorBase: whole runs

A run starts with `initialize`, from any state, and is any sequence of calls
`allocate` and `deallocate` and of writes of the client to what it holds. The
operating system is any (`Os`), so blocks are at any page-aligned addresses.

`small_run`: while all requests are for items, no two items that the client
holds overlap, and the lists of the buckets are finite and hold none of them.
`routing_run`: `deallocate` gives back to where `allocate` took from.
`large_run`: how many bytes a large request gets.
-/
import IibMalloc.SerializableSteps

namespace IibMalloc

open Lib

namespace SerializableAllocatorBase

open BulkAllocator (release release_map mem_release MergesLive chunkSize chunkBytes pageCountOf bulkAllocatorT_fits)

structure SerialRun where
  s : St SerializableAllocatorBase
  /-- the address and the size requested of what the client holds -/
  live : List (ℕ × ℕ)
  /-- the segments delivered so far -/
  segs : List Segment

inductive SerialOp where
  | allocate (sz : ℕ)
  | deallocate (p : ℕ)
  | write (a v : ℕ)

/-- What the client may do where it holds `live`. -/
def SerialOp.Allowed (live : List (ℕ × ℕ)) : SerialOp → Prop
  | .allocate sz => sz < 2 ^ 64
  | .deallocate p => p = 0 ∨ p ∈ live.map Prod.fst
  | .write a v => Owns live a ∧ v < 2 ^ 64

instance (live : List (ℕ × ℕ)) (op : SerialOp) : Decidable (op.Allowed live) := by
  unfold SerialOp.Allowed
  split <;> infer_instance

variable (os : Os)

/-- One call, or one write. -/
def SerialRun.step (r : SerialRun) (op : SerialOp) : Option SerialRun :=
  if op.Allowed r.live then
    match op with
    | .allocate sz =>
      match Act.exec (SerializableAllocatorBase.allocate os sz) r.s with
      | .ret p t => some ⟨t, (p, sz) :: r.live, requested os r.s sz ++ r.segs⟩
      | .throw t => some ⟨t, r.live, requested os r.s sz ++ r.segs⟩
      | .stuck => none
    | .deallocate p =>
      match Act.exec (SerializableAllocatorBase.deallocate p) r.s with
      | .ret _ t => some ⟨t, release p r.live, r.segs⟩
      | .throw t => some ⟨t, release p r.live, r.segs⟩
      | .stuck => none
    | .write a v => some ⟨{ r.s with w.mem := store r.s.w.mem a v }, r.live, r.segs⟩
  else none

/-- The state after `initialize`, from any state. -/
def SerialRun.Starts (r : SerialRun) : Prop :=
  ∃ w c, Act.exec SerializableAllocatorBase.init ⟨w, c⟩ = .ret () r.s ∧ r.live = [] ∧ r.segs = []

/-- The run that starts at `c`. -/
def SerialRun.init (w : World) (c : SerializableAllocatorBase) : SerialRun :=
  match Act.exec SerializableAllocatorBase.init ⟨w, c⟩ with
  | .ret _ s => ⟨s, [], []⟩
  | _ => ⟨⟨w, c⟩, [], []⟩

/-- The run on a fresh machine. -/
def SerialRun.fresh : SerialRun := SerialRun.init ⟨[], fun _ => 7, true⟩ raw

variable {os} {r r' r₀ : SerialRun} {op : SerialOp} {γ : SerialGhost} {e : ℕ × ℕ} {p sz i x : ℕ}

theorem SerialRun.init_starts (w : World) (c : SerializableAllocatorBase) : (SerialRun.init w c).Starts :=
  ⟨w, c, rfl, rfl, rfl⟩

/-- `deallocate` is not called with a chunk that the bulk allocator would merge
with a chunk that is live. -/
def KeepsChunks (r : SerialRun) : SerialOp → Prop
  | .deallocate p => SoundingCfg.getOffsetInPage p = memForbidden →
      ¬ MergesLive r.s.w.mem (chunksOf r.live) (SoundingCfg.ptrToPageStart p)
  | _ => True

instance (r : SerialRun) (op : SerialOp) : Decidable (KeepsChunks r op) := by
  unfold KeepsChunks
  split <;> infer_instance

theorem SerialRun.allowed (hs : r.step os op = some r') : op.Allowed r.live := by
  by_contra hop
  unfold SerialRun.step at hs
  rw [if_neg hop] at hs
  cases hs

/-! ### One step -/

/-- What a step of a run makes of the items. -/
inductive SerialMoved (os : Os) (r r' : SerialRun) (γ γ' : SerialGhost) : SerialOp → Prop where
  /-- a request was served -/
  | served (sz p : ℕ) (hsz : sz ≤ MaxBucketSize) (h : Served os r.s γ sz p γ') (hl : r'.live = (p, sz) :: r.live)
      (hs : r'.segs = requested os r.s sz ++ r.segs) : SerialMoved os r r' γ γ' (.allocate sz)
  /-- an item was given back -/
  | returned (p sz : ℕ) (he : (p, sz) ∈ r.live) (hsz : sz ≤ MaxBucketSize)
      (h : γ' = γ.relist (sizeToIndexHalfExp sz) (p :: γ.lists (sizeToIndexHalfExp sz)))
      (hl : r'.live = release p r.live) (hs : r'.segs = r.segs) : SerialMoved os r r' γ γ' (.deallocate p)
  /-- no item moved -/
  | same (op : SerialOp) (h : γ'.lists = γ.lists)
      (hl : ∀ e ∈ r.live, e.2 ≤ MaxBucketSize → e ∈ r'.live) (hs : r'.segs = r.segs) : SerialMoved os r r' γ γ' op

theorem exec_deallocate_null {s : St SerializableAllocatorBase} : Act.exec (deallocate 0) s = .ret () s := rfl

namespace SerialInv

theorem release_null {s : St SerializableAllocatorBase} {segs : List Segment} {live : List (ℕ × ℕ)}
    (h : SerialInv s γ segs live) : release 0 live = live := by
  refine List.eraseP_of_forall_not fun e he => ?_
  rcases Nat.lt_or_ge MaxBucketSize e.2 with hl | hs
  · have := h.large e he hl
    simp only [decide_eq_true_eq]
    omega
  · simpa using h.item_pos (h.small e he hs).1

theorem large_counted {s : St SerializableAllocatorBase} (hbig : MaxBucketSize < sz)
    (hns : Act.exec (SerializableAllocatorBase.allocate os sz) s ≠ .stuck) : Counted sz := by
  by_contra hc
  exact hns ((allocate_large os hbig).trans (large_stuck os hc))

/-- A chunk that the client holds, and the condition on giving it back. -/
theorem keeps_chunk {s : St SerializableAllocatorBase} {segs : List Segment} {live : List (ℕ × ℕ)}
    (h : SerialInv s γ segs live) (he : (p, sz) ∈ live) (hbig : MaxBucketSize < sz)
    (hok : KeepsChunks ⟨s, live, segs⟩ (.deallocate p)) : ¬ MergesLive s.w.mem (chunksOf live) (p - memForbidden) := by
  have hoff := h.large _ he hbig
  simp only at hoff
  have hm := hok (by rw [memForbidden_eq]; exact (and_page_mask p).trans hoff)
  rwa [ptrToPageStart_chunk hoff] at hm

/-- The invariant over a step. -/
theorem step (h : SerialInv r.s γ r.segs r.live) (hok : KeepsChunks r op) (hs : r.step os op = some r') :
    ∃ γ', SerialInv r'.s γ' r'.segs r'.live ∧ SerialMoved os r r' γ γ' op := by
  unfold SerialRun.step at hs
  split_ifs at hs with hop
  cases op with
  | allocate sz =>
    simp only at hs
    rcases Nat.lt_or_ge MaxBucketSize sz with hbig | hsz
    · have hreq : requested os r.s sz = [] := if_neg fun hc => by omega
      rw [allocate_large os hbig, hreq, List.nil_append] at hs
      by_cases hc : Counted sz
      · have hspec := large_spec os h hbig hc
        split at hs
        · obtain rfl := Option.some.inj hs
          obtain ⟨g, hI, -⟩ := Act.exec_ret hspec ‹_›
          exact ⟨_, hI, .same _ rfl (fun e he _ => List.mem_cons_of_mem _ he) rfl⟩
        · obtain rfl := Option.some.inj hs
          exact ⟨γ, Act.exec_throw hspec ‹_›, .same _ rfl (fun e he _ => he) rfl⟩
        · cases hs
      · rw [large_stuck os hc] at hs
        cases hs
    · have hspec := allocate_small_spec os h hsz
      split at hs
      · obtain rfl := Option.some.inj hs
        obtain ⟨γ', hS, hI⟩ := Act.exec_ret hspec ‹_›
        exact ⟨γ', hI, .served sz _ hsz hS rfl rfl⟩
      · obtain rfl := Option.some.inj hs
        obtain ⟨hreq, g, hI⟩ := Act.exec_throw hspec ‹_›
        rw [hreq, List.nil_append]
        exact ⟨_, hI, .same _ rfl (fun e he _ => he) rfl⟩
      · cases hs
  | deallocate p =>
    simp only at hs
    rcases hop with rfl | hmem
    · rw [exec_deallocate_null, h.release_null] at hs
      obtain rfl := Option.some.inj hs
      exact ⟨γ, h, .same _ rfl (fun e he _ => he) rfl⟩
    obtain ⟨⟨_, sz⟩, he, rfl⟩ := List.mem_map.mp hmem
    rcases Nat.lt_or_ge MaxBucketSize sz with hbig | hsz
    · have hspec := release_spec h he hbig (h.keeps_chunk he hbig hok)
      rw [h.deallocate_large he hbig] at hs
      split at hs
      · obtain rfl := Option.some.inj hs
        obtain ⟨g, hI⟩ := Act.exec_ret hspec ‹_›
        refine ⟨_, hI, .same _ rfl (fun e he' hs => (mem_release h.nodup).mpr ⟨he', fun hep => ?_⟩) rfl⟩
        -- an item is no chunk
        exact h.item_offset (h.small e he' hs).1 (hep ▸ h.large _ he hbig)
      · exact (Act.exec_throw hspec ‹_›).elim
      · cases hs
    · have hspec := push_spec h he hsz
      rw [h.deallocate_small he hsz] at hs
      split at hs
      · obtain rfl := Option.some.inj hs
        exact ⟨_, Act.exec_ret hspec ‹_›, .returned _ sz he hsz rfl rfl rfl⟩
      · exact (Act.exec_throw hspec ‹_›).elim
      · cases hs
  | write a v =>
    obtain rfl := Option.some.inj hs
    exact ⟨γ, h.write hop.1 v, .same _ rfl (fun e he _ => he) rfl⟩

/-- An operation that is allowed can be done, unless the page count of a request
is zero. -/
theorem progress (h : SerialInv r.s γ r.segs r.live) (hop : op.Allowed r.live) (hok : KeepsChunks r op)
    (hc : ∀ sz, op = .allocate sz → sz ≤ MaxBucketSize ∨ Counted sz) : (r.step os op).isSome := by
  unfold SerialRun.step
  rw [if_pos hop]
  cases op with
  | allocate sz =>
    have hns : Act.exec (SerializableAllocatorBase.allocate os sz) r.s ≠ .stuck := by
      rcases Nat.lt_or_ge MaxBucketSize sz with hbig | hsz
      · rw [allocate_large os hbig]
        exact Act.not_stuck (large_spec os h hbig ((hc sz rfl).resolve_left (by omega)))
      · exact Act.not_stuck (allocate_small_spec os h hsz)
    cases hx : Act.exec (SerializableAllocatorBase.allocate os sz) r.s with
    | ret p t => simp [hx]
    | throw t => simp [hx]
    | stuck => exact absurd hx hns
  | deallocate p =>
    have hns : Act.exec (SerializableAllocatorBase.deallocate p) r.s ≠ .stuck := by
      rcases hop with rfl | hmem
      · rw [exec_deallocate_null]
        exact fun hx => by cases hx
      obtain ⟨⟨_, sz⟩, he, rfl⟩ := List.mem_map.mp hmem
      rcases Nat.lt_or_ge MaxBucketSize sz with hbig | hsz
      · rw [h.deallocate_large he hbig]
        exact Act.not_stuck (release_spec h he hbig (h.keeps_chunk he hbig hok))
      · rw [h.deallocate_small he hsz]
        exact Act.not_stuck (push_spec h he hsz)
    cases hx : Act.exec (SerializableAllocatorBase.deallocate p) r.s with
    | ret u t => simp [hx]
    | throw t => simp [hx]
    | stuck => exact absurd hx hns
  | write a v => rfl

theorem start (h : r₀.Starts) : SerialInv r₀.s .empty r₀.segs r₀.live := by
  obtain ⟨w, c, hc, hl, hs⟩ := h
  rw [hl, hs]
  exact Act.exec_ret (init_spec ⟨w, c⟩) hc

/-- The invariant over a run. -/
theorem reach (h₀ : r₀.Starts) (hr : Reach (SerialRun.step os) KeepsChunks r₀ r) :
    ∃ γ, SerialInv r.s γ r.segs r.live := by
  refine hr.invariant (P := fun r => ∃ γ, SerialInv r.s γ r.segs r.live) ⟨.empty, .start h₀⟩ ?_
  rintro s t op ⟨γ, hγ⟩ hok hs
  obtain ⟨γ', hγ', -⟩ := hγ.step hok hs
  exact ⟨γ', hγ'⟩

end SerialInv

/-! ### Runs of small requests -/

/-- The request is for an item. -/
def SmallOnly (_ : SerialRun) : SerialOp → Prop
  | .allocate sz => sz ≤ MaxBucketSize
  | _ => True

instance (r : SerialRun) (op : SerialOp) : Decidable (SmallOnly r op) := by
  unfold SmallOnly
  split <;> infer_instance

/-- What the client relies on: each item has the bytes it asked for, aligned and
mapped, no two items overlap, and the list of a bucket ends, has no item twice
and none that meets one of the client's. -/
structure SmallSafe (r : SerialRun) : Prop where
  covers : ∀ e ∈ r.live, e.2 ≤ itemSize e.2 ∧ 8 ∣ e.1 ∧
    ∀ x, Within e.1 (itemSize e.2) x → pageState r.s.w.calls x = .committed
  apart : (r.live.map fun e => (e.1, itemSize e.2)).Pairwise Apart
  lists : ∀ i < BucketCount, ∃ l, Chain r.s.w.mem 0 (r.s.c.buckets i) l ∧ l.Nodup ∧
    ∀ e ∈ r.live, ∀ a ∈ l, ¬ Within e.1 (itemSize e.2) a

theorem le_itemSize (h : sz ≤ MaxBucketSize) : sz ≤ itemSize sz :=
  (halfExp_classes.fits sz (h.trans (by decide))).1

theorem SerialInv.smallSafe (h : SerialInv r.s γ r.segs r.live) (hsmall : ∀ e ∈ r.live, e.2 ≤ MaxBucketSize) :
    SmallSafe r := by
  refine ⟨fun e he => ?_, ?_, fun i hi => ?_⟩
  · have hitem := (h.small e he (hsmall e he)).1
    refine ⟨le_itemSize (hsmall e he), ?_, fun x hx => h.item_committed hitem hx⟩
    obtain ⟨σ, -, hσ, -, hmem, -⟩ := h.segment hitem
    exact hσ.item_dvd hmem
  · have hne : r.live.Pairwise fun e e' => e.1 ≠ e'.1 := List.pairwise_map.mp h.nodup
    refine List.pairwise_map.mpr (hne.imp_of_mem fun {e e'} he he' hne x hx hx' => hne ?_)
    exact (h.segments.item_unique (h.small e he (hsmall e he)).1 (h.small e' he' (hsmall e' he')).1 hx hx').2
  · exact ⟨γ.lists i, h.chains i hi, (h.chains i hi).nodup, fun e he a ha =>
      h.listed_apart he (hsmall e he) hi ha⟩

theorem SmallOnly.live (hok : SmallOnly r op) (h : ∀ e ∈ r.live, e.2 ≤ MaxBucketSize)
    (hs : r.step os op = some r') : ∀ e ∈ r'.live, e.2 ≤ MaxBucketSize := by
  unfold SerialRun.step at hs
  split_ifs at hs
  cases op with
  | allocate sz =>
    simp only at hs
    split at hs
    · obtain rfl := Option.some.inj hs
      intro e he
      rcases List.mem_cons.mp he with rfl | he
      · exact hok
      · exact h e he
    · obtain rfl := Option.some.inj hs
      exact h
    · cases hs
  | deallocate p =>
    simp only at hs
    split at hs
    · obtain rfl := Option.some.inj hs
      exact fun e he => h e (List.mem_of_mem_eraseP he)
    · obtain rfl := Option.some.inj hs
      exact fun e he => h e (List.mem_of_mem_eraseP he)
    · cases hs
  | write a v =>
    obtain rfl := Option.some.inj hs
    exact h

/-- Where the client holds items only, no chunk is given back. -/
theorem SerialInv.keeps_small (h : SerialInv r.s γ r.segs r.live) (hsmall : ∀ e ∈ r.live, e.2 ≤ MaxBucketSize)
    (hop : op.Allowed r.live) : KeepsChunks r op := by
  cases op with
  | allocate sz => trivial
  | write a v => trivial
  | deallocate p =>
    intro hoff hm
    have hoff : p % 4096 = 16 := by
      rw [← and_page_mask, ← memForbidden_eq]
      exact hoff
    rcases hop with rfl | hmem
    · cases hoff
    · obtain ⟨e, he, rfl⟩ := List.mem_map.mp hmem
      exact h.item_offset (h.small e he (hsmall e he)).1 hoff

theorem small_reach_from (h₀ : (∃ γ, SerialInv r₀.s γ r₀.segs r₀.live) ∧ ∀ e ∈ r₀.live, e.2 ≤ MaxBucketSize)
    (hr : Reach (SerialRun.step os) SmallOnly r₀ r) :
    (∃ γ, SerialInv r.s γ r.segs r.live) ∧ ∀ e ∈ r.live, e.2 ≤ MaxBucketSize := by
  apply hr.invariant (P := fun r => (∃ γ, SerialInv r.s γ r.segs r.live) ∧ ∀ e ∈ r.live, e.2 ≤ MaxBucketSize) h₀
  rintro s t op ⟨⟨γ, hγ⟩, hsmall⟩ hok hs
  obtain ⟨γ', hγ', -⟩ := hγ.step (hγ.keeps_small hsmall (SerialRun.allowed hs)) hs
  exact ⟨⟨γ', hγ'⟩, hok.live hsmall hs⟩

theorem small_reach (h₀ : r₀.Starts) (hr : Reach (SerialRun.step os) SmallOnly r₀ r) :
    (∃ γ, SerialInv r.s γ r.segs r.live) ∧ ∀ e ∈ r.live, e.2 ≤ MaxBucketSize := by
  refine small_reach_from ⟨⟨.empty, .start h₀⟩, ?_⟩ hr
  obtain ⟨w, c, -, hl, -⟩ := h₀
  rw [hl]
  exact fun e he => absurd he List.not_mem_nil

/-- **Small objects are safe**: in every run of requests for items, with any
writes of the client to the items it holds, and no call is stuck. -/
theorem small_run (h₀ : r₀.Starts) (hr : Reach (SerialRun.step os) SmallOnly r₀ r) :
    SmallSafe r ∧ ∀ op : SerialOp, op.Allowed r.live → SmallOnly r op → (r.step os op).isSome := by
  obtain ⟨⟨γ, h⟩, hsmall⟩ := small_reach h₀ hr
  refine ⟨h.smallSafe hsmall, fun op hop hok => h.progress hop (h.keeps_small hsmall hop) ?_⟩
  rintro sz rfl
  exact Or.inl hok

/-- Items of three sizes, one of them cut from a block that wraps around. -/
theorem small_run_six : ∃ r, run (SerialRun.step (Os.linear (641 * 4096))) (fun r op => decide (SmallOnly r op)) .fresh
      [.allocate 16, .allocate 8192, .write 2637832 5, .allocate 700, .deallocate 2637824, .allocate 7000] = some r ∧
    r.live.map Prod.snd = [7000, 700, 16] ∧ SmallSafe r := by
  obtain ⟨r, hr, hlive⟩ := Option.map_eq_some_iff.mp (show (run (SerialRun.step (Os.linear (641 * 4096)))
      (fun r op => decide (SmallOnly r op)) .fresh [.allocate 16, .allocate 8192, .write 2637832 5, .allocate 700,
        .deallocate 2637824, .allocate 7000]).map (fun r => r.live.map Prod.snd) = some [7000, 700, 16] by
      decide +kernel)
  exact ⟨r, hr, hlive, (small_run (SerialRun.init_starts _ _)
    ((Reach.of_run hr).mono fun _ _ hok => of_decide_eq_true hok)).1⟩

/-! ### Where deallocate gives back to -/

/-- The address alone tells where it came from: a chunk of the bulk allocator, or
an item of a bucket. -/
structure Routes (os : Os) (r : SerialRun) : Prop where
  chunk : ∀ e ∈ r.live, SoundingCfg.getOffsetInPage e.1 = memForbidden ↔ MaxBucketSize < e.2
  bucket : ∀ e ∈ r.live, e.2 ≤ MaxBucketSize → pageAllocatorT.addressToIdx e.1 = sizeToIndexHalfExp e.2
  returned : ∀ sz < 2 ^ 64, ∀ p t, Act.exec (allocate os sz) r.s = .ret p t →
    (SoundingCfg.getOffsetInPage p = memForbidden ↔ MaxBucketSize < sz) ∧
    (MaxBucketSize < sz → Act.exec (bulk (BulkAllocator.allocate bulkAllocatorT os (u64 (sz + memForbidden)))) r.s =
      .ret (SoundingCfg.ptrToPageStart p) t) ∧
    (sz ≤ MaxBucketSize → pageAllocatorT.addressToIdx p = sizeToIndexHalfExp sz)
  back : ∀ e ∈ r.live, Act.exec (deallocate e.1) r.s =
    if MaxBucketSize < e.2 then
      Act.exec (bulk (BulkAllocator.deallocate bulkAllocatorT (SoundingCfg.ptrToPageStart e.1))) r.s
    else Act.exec (pushItem (sizeToIndexHalfExp e.2) e.1) r.s

theorem getOffsetInPage_chunk (p : ℕ) : SoundingCfg.getOffsetInPage p = memForbidden ↔ p % 4096 = 16 := by
  rw [memForbidden_eq]
  unfold SoundingCfg.getOffsetInPage
  rw [and_page_mask]

namespace SerialInv

theorem chunk_iff {s : St SerializableAllocatorBase} {segs : List Segment} {live : List (ℕ × ℕ)}
    (h : SerialInv s γ segs live) (he : e ∈ live) :
    SoundingCfg.getOffsetInPage e.1 = memForbidden ↔ MaxBucketSize < e.2 := by
  rw [getOffsetInPage_chunk]
  refine ⟨fun hoff => ?_, h.large e he⟩
  by_contra hs
  exact h.item_offset (h.small e he (Nat.not_lt.mp hs)).1 hoff

theorem routes (h : SerialInv r.s γ r.segs r.live) : Routes os r := by
  refine ⟨fun e he => h.chunk_iff he, fun e he hs => h.item_index (h.small e he hs).1, fun sz hsz p t hx => ?_,
    fun e he => ?_⟩
  · rcases Nat.lt_or_ge MaxBucketSize sz with hbig | hs
    · have hc := large_counted (s := r.s) hbig (by rw [hx]; exact fun h => by cases h)
      rw [allocate_large os hbig] at hx
      obtain ⟨g, hI, hoff, hb⟩ := Act.exec_ret (large_spec os h hbig hc) hx
      refine ⟨hI.chunk_iff (e := (p, sz)) List.mem_cons_self, fun _ => ?_, fun hle => by omega⟩
      rw [ptrToPageStart_chunk hoff, memForbidden_eq]
      rwa [memForbidden_eq] at hb
    · obtain ⟨γ', -, hI⟩ := Act.exec_ret (allocate_small_spec os h hs) hx
      refine ⟨hI.chunk_iff (e := (p, sz)) List.mem_cons_self, fun hbig => by omega, fun _ => ?_⟩
      exact hI.item_index (hI.small (p, sz) List.mem_cons_self hs).1
  · obtain ⟨p, sz⟩ := e
    split_ifs with hbig
    · rw [h.deallocate_large he hbig, ptrToPageStart_chunk (h.large _ he hbig)]
    · exact h.deallocate_small he (Nat.not_lt.mp hbig)

end SerialInv

/-- **What is given back goes where it came from**, in every run that never gives
back a chunk whose right neighbour is flagged though it is live. -/
theorem routing_run (h₀ : r₀.Starts) (hr : Reach (SerialRun.step os) KeepsChunks r₀ r) : Routes os r := by
  obtain ⟨γ, h⟩ := SerialInv.reach h₀ hr
  exact h.routes

theorem routing_run_four : ∃ r, run (SerialRun.step (Os.linear 0)) (fun r op => decide (KeepsChunks r op)) .fresh
      [.allocate 100, .allocate 9000, .allocate 200000, .deallocate 8405008] = some r ∧
    Routes (Os.linear 0) r := by
  obtain ⟨r, hr⟩ := Option.isSome_iff_exists.mp (show (run (SerialRun.step (Os.linear 0))
      (fun r op => decide (KeepsChunks r op)) .fresh
      [.allocate 100, .allocate 9000, .allocate 200000, .deallocate 8405008]).isSome = true by decide +kernel)
  exact ⟨r, hr, routing_run (SerialRun.init_starts _ _)
    ((Reach.of_run hr).mono fun _ _ hok => of_decide_eq_true hok)⟩

/-- The client holds the 64th chunk of a block, which is flagged, and its bytes
are taken for the links of a free chunk when the chunk before it is given back:
an address inside an item gets on the list of a bucket. -/
def overwriteOps : List SerialOp :=
  List.replicate 64 (.allocate 131056) ++ [.allocate 8192, .write 8261648 11018216, .write 8261656 11010064,
    .deallocate 8130576, .allocate 8192, .allocate 8192]

/-- The last request, for an item, gets an address at the offset of the chunks. -/
theorem not_routing_run : ∃ r, run (SerialRun.step (Os.linear 0)) (fun _ _ => true) .fresh overwriteOps = some r ∧
    ¬ Routes (Os.linear 0) r := by
  obtain ⟨r, hr, hlive⟩ := Option.map_eq_some_iff.mp (show (run (SerialRun.step (Os.linear 0)) (fun _ _ => true) .fresh
      overwriteOps).map (fun r => decide ((11010064, 8192) ∈ r.live)) = some true by decide +kernel)
  refine ⟨r, hr, fun hR => ?_⟩
  have hbig := (hR.chunk _ (of_decide_eq_true hlive)).mp (by decide)
  exact absurd hbig (by decide)

/-! ### The bytes of a large request -/

/-- The page count that the bulk allocator computes for a request. -/
def pagesOf (sz : ℕ) : ℕ := pageCountOf (u64 (sz + memForbidden))

/-- The pages have room for the request and the header, and the index of a free
list is inside the array. -/
structure Enough (sz : ℕ) : Prop where
  bytes : sz + memForbidden ≤ pagesOf sz * PAGE_SIZE
  index : pagesOf sz ≤ bulkAllocatorT.max_pages → u64 (pagesOf sz + (2 ^ 64 - 1)) < bulkAllocatorT.max_pages

theorem pagesOf_eq (hc : Counted sz) : pagesOf sz = if u64 (sz + memForbidden) ≤ 2 ^ 63 then
    (u64 (sz + memForbidden) + 4095) / 4096 else 2 ^ 64 - (2 ^ 64 - u64 (sz + memForbidden)) / 4096 := by
  have hlt : u64 (sz + memForbidden) < 2 ^ 64 := Nat.mod_lt _ (by norm_num)
  obtain ⟨h0, hle⟩ := hc
  unfold pagesOf pageCountOf
  rw [ceilShift_toNat h0 hlt]
  split_ifs
  · rfl
  · omega

theorem enough_iff (hsz : sz < 2 ^ 64) : Enough sz ↔ sz + memForbidden ≤ 2 ^ 64 - PAGE_SIZE := by
  rw [PAGE_SIZE_eq]
  have hm : memForbidden = 16 := memForbidden_eq
  have hmax : bulkAllocatorT.max_pages = 32 := rfl
  by_cases hc : Counted sz
  · have hpages := pagesOf_eq hc
    obtain ⟨h0, hle⟩ := hc
    have hu : u64 (sz + memForbidden) = sz + 16 ∨ u64 (sz + memForbidden) = sz + 16 - 2 ^ 64 ∧ 2 ^ 64 ≤ sz + 16 := by
      unfold u64
      omega
    generalize u64 (sz + memForbidden) = u at *
    constructor
    · intro hx
      obtain ⟨hbytes, -⟩ := hx
      rw [PAGE_SIZE_eq, hpages, hm] at hbytes
      split_ifs at hbytes <;> omega
    · intro hcond
      refine ⟨?_, fun hk => ?_⟩
      · rw [PAGE_SIZE_eq, hpages, hm]
        split_ifs <;> omega
      · rw [hmax] at hk ⊢
        have hpos : 0 < pagesOf sz := by
          rw [hpages]
          split_ifs <;> omega
        unfold u64
        omega
  · have hzero : pagesOf sz = 0 := BulkAllocator.pageCountOf_zero (Nat.mod_lt _ (by norm_num)) hc
    constructor
    · intro hx
      obtain ⟨hbytes, -⟩ := hx
      rw [hzero, hm] at hbytes
      omega
    · intro hcond
      unfold Counted u64 at hc
      omega

/-- The chunk of a large request has the bytes that the bulk allocator was asked
for. -/
theorem SerialInv.chunk_size (h : SerialInv r.s γ r.segs r.live) (hbig : MaxBucketSize < sz) (hc : Counted sz)
    {t : St SerializableAllocatorBase} (hx : Act.exec (allocate os sz) r.s = .ret p t) :
    p = SoundingCfg.ptrToPageStart p + memForbidden ∧
      chunkSize t.w.mem (SoundingCfg.ptrToPageStart p) = chunkBytes (u64 (sz + memForbidden)) := by
  rw [allocate_large os hbig] at hx
  obtain ⟨g, hI, hoff, -⟩ := Act.exec_ret (large_spec os h hbig hc) hx
  have hmem : (p - memForbidden, u64 (sz + memForbidden)) ∈ chunksOf ((p, sz) :: r.live) :=
    mem_chunksOf (e := (p, sz)) List.mem_cons_self hbig
  rw [ptrToPageStart_chunk hoff]
  exact ⟨by rw [memForbidden_eq]; omega, hI.bulk.chunkSize_eq bulkAllocatorT_fits hmem⟩

/-- **How many bytes a large request gets.** The page count has room for the
request and its header exactly for requests up to `2 ^ 64 - 4112` bytes. In every
state of a run that never gives back a chunk whose right neighbour is flagged
though it is live, `allocate` throws for these or returns a pointer with the
bytes in its chunk, and for others it never returns one with the bytes. -/
theorem large_run (h₀ : r₀.Starts) (hr : Reach (SerialRun.step os) KeepsChunks r₀ r) (hbig : MaxBucketSize < sz)
    (hsz : sz < 2 ^ 64) :
    (Enough sz ↔ sz + memForbidden ≤ 2 ^ 64 - PAGE_SIZE) ∧
    (sz + memForbidden ≤ 2 ^ 64 - PAGE_SIZE → Act.exec (allocate os sz) r.s ≠ .stuck ∧
      ∀ p t, Act.exec (allocate os sz) r.s = .ret p t → p = SoundingCfg.ptrToPageStart p + memForbidden ∧
        sz + memForbidden ≤ chunkSize t.w.mem (SoundingCfg.ptrToPageStart p)) ∧
    (¬ sz + memForbidden ≤ 2 ^ 64 - PAGE_SIZE → ∀ p t, Act.exec (allocate os sz) r.s = .ret p t →
      chunkSize t.w.mem (SoundingCfg.ptrToPageStart p) < sz) := by
  obtain ⟨γ, h⟩ := SerialInv.reach h₀ hr
  have hm : memForbidden = 16 := memForbidden_eq
  rw [PAGE_SIZE_eq]
  refine ⟨enough_iff hsz, fun hcond => ?_, fun hcond p t hx => ?_⟩
  · have hu : u64 (sz + memForbidden) = sz + memForbidden := u64_of_lt (by omega)
    have hc : Counted sz := by
      unfold Counted
      rw [hu]
      exact ⟨by omega, hcond⟩
    refine ⟨?_, fun p t hx => ?_⟩
    · rw [allocate_large os hbig]
      exact Act.not_stuck (large_spec os h hbig hc)
    · obtain ⟨hp, hsize⟩ := h.chunk_size hbig hc hx
      have hle := BulkAllocator.le_chunkBytes (u64 (sz + memForbidden))
      rw [← hsize, hu] at hle
      exact ⟨hp, hle⟩
  · have hc := SerialInv.large_counted (s := r.s) hbig (by rw [hx]; exact fun h => by cases h)
    rw [(h.chunk_size hbig hc hx).2]
    -- the size has wrapped around
    unfold Counted u64 at hc
    unfold chunkBytes u64
    omega

theorem large_run_two : ∃ r, run (SerialRun.step (Os.linear 0)) (fun r op => decide (KeepsChunks r op)) .fresh
      [.allocate 9000, .allocate 200000] = some r ∧ Enough 100000 ∧
    Act.exec (allocate (Os.linear 0) 100000) r.s ≠ .stuck := by
  obtain ⟨r, hr⟩ := Option.isSome_iff_exists.mp (show (run (SerialRun.step (Os.linear 0))
      (fun r op => decide (KeepsChunks r op)) .fresh [.allocate 9000, .allocate 200000]).isSome = true by
      decide +kernel)
  have h := large_run (SerialRun.init_starts ⟨[], fun _ => 7, true⟩ raw)
    ((Reach.of_run hr).mono fun _ _ hok => of_decide_eq_true hok) (show MaxBucketSize < 100000 by decide) (by norm_num)
  exact ⟨r, hr, h.1.mpr (by decide), (h.2.1 (by decide)).1⟩

/-- A request of almost the whole address space gets a chunk of one page. -/
theorem not_large_run : ¬ Enough (2 ^ 64 - 8) ∧ ∃ p t,
    Act.exec (allocate (Os.linear 0) (2 ^ 64 - 8)) SerialRun.fresh.s = .ret p t ∧
      chunkSize t.w.mem (SoundingCfg.ptrToPageStart p) = 4096 := by
  refine ⟨fun h => ?_, ?_⟩
  · have hcond := (enough_iff (by norm_num)).mp h
    rw [memForbidden_eq, PAGE_SIZE_eq] at hcond
    omega
  · have hv : (Act.exec (allocate (Os.linear 0) (2 ^ 64 - 8)) SerialRun.fresh.s).returned.map
        (fun q => chunkSize q.2.w.mem (SoundingCfg.ptrToPageStart q.1)) = some 4096 := by decide +kernel
    obtain ⟨⟨p, t⟩, hx, hsize⟩ := Option.map_eq_some_iff.mp hv
    exact ⟨p, t, Act.exec_of_returned hx, hsize⟩

end SerializableAllocatorBase

end IibMalloc

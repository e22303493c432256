/-
# SerializableAllocatorBase: deinitialize

`deinitialize` gives back what the two allocators hold and resets their lists,
but not the buckets. `deinit_run`: after a run of requests for items nothing the
allocator keeps leads to unmapped memory exactly where the buckets were empty
before; then it is as after `initialize`, and otherwise the next request of
such a bucket reads an item that is not mapped any more.
-/
import IibMalloc.SerializableRuns
import IibMalloc.BulkLife

namespace IibMalloc

open Lib

namespace SerializableAllocatorBase

open SoundingAddressPageAllocator
open BulkAllocator (BulkInv)

variable {os : Os} {r r₀ : SerialRun} {s t : St SerializableAllocatorBase} {γ : SerialGhost} {segs : List Segment}
  {live : List (ℕ × ℕ)} {i x : ℕ}

/-! ### What deinitialize leaves -/

/-- `deinitialize` empties the two allocators; the buckets stay as they were. -/
structure Deinited (s t : St SerializableAllocatorBase) (γ : SerialGhost) : Prop where
  buckets : t.c.buckets = s.c.buckets
  pages : SoundInv pageAllocatorT t.w.calls t.c.pageAllocator .empty
  bulk : BulkInv bulkAllocatorT ⟨t.w, t.c.bulkAllocator⟩ .empty []
  unmapped : ∀ x, γ.pages.Held pageAllocatorT x → pageState t.w.calls x = .unmapped
  start : t.c.pageAllocator.pageBlockListStart.blockAddress = 0

/-- From `w` to `w'` the blocks and the pages of the two allocators were given
back, those of the page allocator first. -/
def Returned (γ : SerialGhost) (w w' : World) : Prop :=
  ∃ ps qs, ps.Perm γ.pages.pages ∧ qs.Perm γ.bulk.pages ∧
    w' = (((w.releasedAll pageAllocatorT.reservation_size (γ.pages.blocks.map Prod.snd)).releasedAll
      PAGE_SIZE ps).releasedAll bulkAllocatorT.commited_block_size γ.bulk.blocks).releasedAll PAGE_SIZE qs

theorem deinit_parts (hpages : SoundInv pageAllocatorT s.w.calls s.c.pageAllocator γ.pages)
    (hbulk : BulkInv bulkAllocatorT ⟨s.w, s.c.bulkAllocator⟩ γ.bulk (chunksOf live))
    (hapart : ∀ x, γ.bulk.Owned bulkAllocatorT (chunksOf live) x → ¬ γ.pages.Held pageAllocatorT x) {fuel : ℕ}
    (hp : γ.pages.used.length + γ.pages.free.length ≤ fuel) (hb : γ.bulk.used.length + γ.bulk.free.length ≤ fuel) :
    Act.wp (deinit fuel) (fun _ t => Deinited s t γ ∧ Returned γ s.w t.w) (fun _ => False) s := by
  unfold deinit
  rw [Act.wp_bind, SerializableAllocatorBase.pages, Act.wp_onPart]
  refine Act.wp_mono (SoundingAddressPageAllocator.deinit_spec (s := ⟨s.w, s.c.pageAllocator⟩) hpages
    (Or.inl (by decide)) hp) ?_ fun _ hf => hf
  rintro - ⟨w, c⟩ ⟨⟨ps, hps, hw⟩, hc, hstart⟩
  simp only at hw hc hstart
  have hun : Unchanged (γ.bulk.Owned bulkAllocatorT (chunksOf live)) s.w w := by
    rw [hw]
    refine (Unchanged.releasedAll fun a ha x hx hin => hapart x hx (Or.inl ?_)).trans
      (Unchanged.releasedAll fun a ha x hx hin => hapart x hx (Or.inr ⟨a, hps.mem_iff.mp ha, hin⟩))
    obtain ⟨p, hp, rfl⟩ := List.mem_map.mp ha
    exact ⟨p, hp, hin⟩
  have hheld : ∀ x, γ.pages.Held pageAllocatorT x → pageState w.calls x = .unmapped := by
    intro x hx
    rw [hw, (World.releasedAll_state _ _ _ x).1, (World.releasedAll_state _ _ _ x).1]
    rcases hx with ⟨p, hp, hin⟩ | ⟨p, hp, hin⟩
    · rw [ite_eq_left_iff]
      exact fun _ => if_pos ⟨p.2, List.mem_map_of_mem hp, hin⟩
    · exact if_pos ⟨p, hps.mem_iff.mpr hp, hin⟩
  have hbulk' : BulkInv bulkAllocatorT ⟨w, s.c.bulkAllocator⟩ γ.bulk (chunksOf live) :=
    hbulk.unchanged rfl hbulk.idle hun
  rw [SerializableAllocatorBase.bulk, Act.wp_onPart]
  refine Act.wp_mono (BulkAllocator.deinit_spec (s := ⟨w, s.c.bulkAllocator⟩) hbulk' hb) ?_ fun _ hf => hf
  rintro - ⟨w', c'⟩ ⟨⟨qs, hqs, hw'⟩, hc'⟩
  have hun' : ∀ x, pageState w'.calls x = .unmapped ∨ pageState w'.calls x = pageState w.calls x := fun x => by
    simp only at hw'
    rw [hw', (World.releasedAll_state _ _ _ x).1, (World.releasedAll_state _ _ _ x).1]
    split_ifs <;> simp
  refine ⟨⟨rfl, ?_, hc', fun x hx => ?_, hstart⟩, ps, qs, hps, hqs, ?_⟩
  · exact hc.transport fun x hx => by
      rcases hx with ⟨p, hp, -⟩ | ⟨p, hp, -⟩ <;> cases hp
  · rcases hun' x with h | h
    · exact h
    · exact h.trans (hheld x hx)
  · rw [← hw]
    exact hw'

theorem SerialInv.deinit_spec (h : SerialInv s γ segs live) {fuel : ℕ}
    (hp : γ.pages.used.length + γ.pages.free.length ≤ fuel) (hb : γ.bulk.used.length + γ.bulk.free.length ≤ fuel) :
    Act.wp (deinit fuel) (fun _ t => Deinited s t γ) (fun _ => False) s :=
  Act.wp_mono (deinit_parts h.pages h.bulk h.apart hp hb) (fun _ _ ht => ht.1) fun _ hf => hf

/-- Where the buckets were empty, it is as after `initialize`. -/
theorem Deinited.inv (h : Deinited s t γ) (hb : ∀ i < BucketCount, s.c.buckets i = 0) :
    SerialInv t .empty [] [] := by
  refine
    { bulk := h.bulk, pages := h.pages, batches := fun i _ => dvd_zero _, apart := ?_
      segments := ⟨fun σ hσ => absurd hσ List.not_mem_nil, .nil⟩, chains := fun i hi => ?_
      listed := fun _ _ a ha => absurd ha List.not_mem_nil, small := fun e he => absurd he List.not_mem_nil
      large := fun e he => absurd he List.not_mem_nil, nodup := List.nodup_nil }
  · intro x hx
    obtain ⟨r, hr, -⟩ := hx
    cases hr
  · rw [h.buckets]
    exact hb i hi

/-! ### Pointers kept -/

/-- A pointer that is null or leads to mapped memory. -/
def Leads (calls : List OsCall) (p : ℕ) : Prop := p ≠ 0 → Mapped calls p

/-- The same of a pointer to a descriptor. -/
def DescLeads (calls : List OsCall) : DescPtr → Prop
  | .item a => Mapped calls a
  | _ => True

/-- The two lists of a collection. -/
def CollLeads {ItemT : Type} (calls : List OsCall) (c : CollectionInPages ItemT) : Prop :=
  Leads calls c.head ∧ Leads calls c.freeList

/-- No pointer in the allocator's own fields leads to unmapped memory. -/
structure NoDangling (s : St SerializableAllocatorBase) : Prop where
  buckets : ∀ i < BucketCount, Leads s.w.calls (s.c.buckets i)
  indexHead : ∀ i < pageAllocatorT.bucket_cnt, DescLeads s.w.calls (s.c.pageAllocator.indexHead i)
  next : DescLeads s.w.calls s.c.pageAllocator.pageBlockListStart.next
  block : Leads s.w.calls s.c.pageAllocator.pageBlockListStart.blockAddress
  current : DescLeads s.w.calls s.c.pageAllocator.pageBlockListCurrent
  descriptors : CollLeads s.w.calls s.c.pageAllocator.pageBlockDescriptors
  freeLists : ∀ i ≤ bulkAllocatorT.max_pages, Leads s.w.calls (s.c.bulkAllocator.freeListBegin i)
  blocks : CollLeads s.w.calls s.c.bulkAllocator.blocks

theorem leads_null {calls : List OsCall} {p : ℕ} (h : p = 0) : Leads calls p := fun hp => absurd h hp

theorem collLeads_empty {ItemT : Type} {calls : List OsCall} {c : CollectionInPages ItemT} {n : ℕ}
    (h : CollectionInPages.CollInv n calls c [] [] []) : CollLeads calls c :=
  ⟨leads_null h.head, leads_null h.freeList⟩

/-- Nothing but the buckets can dangle. -/
theorem Deinited.noDangling (h : Deinited s t γ) :
    NoDangling t ↔ ∀ i < BucketCount, Leads t.w.calls (s.c.buckets i) := by
  rw [← h.buckets]
  refine ⟨fun hn => hn.buckets, fun hb => ?_⟩
  have hnode := h.pages.node 0 (Nat.zero_le _)
  refine
    { buckets := hb, indexHead := fun i hi => ?_, next := ?_, block := leads_null h.start, current := ?_
      descriptors := collLeads_empty h.pages.coll, freeLists := fun i hi => leads_null (h.bulk.lists.dlist i hi)
      blocks := collLeads_empty h.bulk.coll }
  · obtain ⟨k, hk, hhead, -⟩ := h.pages.head i hi
    obtain rfl : k = 0 := Nat.le_zero.mp hk
    rw [hhead]
    trivial
  · rw [show t.c.pageAllocator.pageBlockListStart.next = .null from hnode.next]
    trivial
  · rw [h.pages.current]
    trivial

/-- The first item of a bucket is in a block that `deinitialize` gives back. -/
theorem Deinited.stale (h : Deinited s t γ) (hI : SerialInv s γ segs live) (hi : i < BucketCount)
    (h0 : s.c.buckets i ≠ 0) : i ≤ 20 ∧ pageState t.w.calls (s.c.buckets i) = .unmapped := by
  have hc := hI.chains i hi
  have hmem : s.c.buckets i ∈ γ.lists i := by
    cases hl : γ.lists i with
    | nil =>
      rw [hl] at hc
      exact absurd hc h0
    | cons a l =>
      rw [hl] at hc
      exact hc.1 ▸ List.mem_cons_self
  have hitem := hI.listed i hi _ hmem
  obtain ⟨σ, -, hσ, rfl, -⟩ := hI.segment hitem
  exact ⟨hσ.idx, h.unmapped _ (hI.item_held hitem (hI.item_self hitem))⟩

/-! ### After deinitialize -/

/-- Every further request for an item gets one in memory that is mapped then,
whatever requests for items came before it. -/
def Renewed (os : Os) (t : St SerializableAllocatorBase) : Prop :=
  ∀ r, Reach (SerialRun.step os) SmallOnly ⟨t, [], []⟩ r → ∀ sz ≤ MaxBucketSize,
    Act.exec (allocate os sz) r.s ≠ .stuck ∧ ∀ p u, Act.exec (allocate os sz) r.s = .ret p u →
      ∀ x, Within p (itemSize sz) x → pageState u.w.calls x = .committed

theorem SerialInv.renewed (h : SerialInv t .empty [] []) : Renewed os t := by
  intro r hr sz hsz
  obtain ⟨⟨γ, hγ⟩, -⟩ := small_reach_from ⟨⟨_, h⟩, fun e he => absurd he List.not_mem_nil⟩ hr
  have hspec := allocate_small_spec os hγ hsz
  refine ⟨Act.not_stuck hspec, fun p u hx x hin => ?_⟩
  obtain ⟨γ', -, hI⟩ := Act.exec_ret hspec hx
  exact hI.item_committed (hI.small (p, sz) List.mem_cons_self hsz).1 hin

/-- A bucket whose first item is not mapped any more serves no request. -/
theorem not_renewed (hi : i ≤ 20) (h0 : t.c.buckets i ≠ 0) (hu : pageState t.w.calls (t.c.buckets i) = .unmapped) :
    ¬ Renewed os t := by
  intro h
  -- a size of the bucket; the items of bucket 1 are larger than its sizes
  obtain ⟨sz, hle, hidx⟩ : ∃ sz ≤ MaxBucketSize, sizeToIndexHalfExp sz = i := by
    have hall : ∀ i < 21, (if i = 1 then 12 else indexToBucketSizeHalfExp i) ≤ MaxBucketSize ∧
        sizeToIndexHalfExp (if i = 1 then 12 else indexToBucketSizeHalfExp i) = i := by decide +kernel
    exact ⟨_, hall i (by omega)⟩
  refine (h ⟨t, [], []⟩ .start _ hle).1 ?_
  rw [allocate_small os hle, hidx, if_pos h0]
  exact popItem_stuck (hi.trans_lt (by decide)) (by rw [hu]; decide)

/-- **deinitialize and the buckets**: after a run of requests for items,
`deinitialize` leaves no pointer to unmapped memory, and an allocator that
serves further requests, exactly where every bucket was empty. -/
theorem deinit_run (h₀ : r₀.Starts) (hr : Reach (SerialRun.step os) SmallOnly r₀ r) :
    ∃ n, ∀ fuel ≥ n, ∃ t, Act.exec (deinit fuel) r.s = .ret () t ∧
      (NoDangling t ↔ ∀ i < BucketCount, r.s.c.buckets i = 0) ∧
      (Renewed os t ↔ ∀ i < BucketCount, r.s.c.buckets i = 0) := by
  obtain ⟨⟨γ, h⟩, -⟩ := small_reach h₀ hr
  refine ⟨(γ.pages.used.length + γ.pages.free.length) + (γ.bulk.used.length + γ.bulk.free.length),
    fun fuel hfuel => ?_⟩
  have hspec : Act.wp (deinit fuel) (fun _ t => Deinited r.s t γ) (fun _ => False) r.s :=
    h.deinit_spec (by omega) (by omega)
  obtain ⟨_, t, hx, hD⟩ := Act.returns hspec
  refine ⟨t, hx, ?_, fun hn i hi => ?_, fun hb => (hD.inv hb).renewed⟩
  · rw [hD.noDangling]
    refine ⟨fun hl i hi => ?_, fun hb i hi => leads_null (hb i hi)⟩
    by_contra h0
    exact hl i hi h0 (hD.stale h hi h0).2
  · by_contra h0
    obtain ⟨h20, hu⟩ := hD.stale h hi h0
    rw [← hD.buckets] at h0 hu
    exact not_renewed h20 h0 hu hn

/-- Four items of two pages use up the segment they came from. -/
theorem deinit_run_four : ∃ r, run (SerialRun.step (Os.linear 0)) (fun r op => decide (SmallOnly r op)) .fresh
      [.allocate 8192, .allocate 8192, .allocate 8192, .allocate 8192] = some r ∧
    ∃ fuel t, Act.exec (deinit fuel) r.s = .ret () t ∧ NoDangling t ∧ Renewed (Os.linear 0) t := by
  obtain ⟨r, hr, hbuckets⟩ := Option.map_eq_some_iff.mp (show (run (SerialRun.step (Os.linear 0))
      (fun r op => decide (SmallOnly r op)) .fresh [.allocate 8192, .allocate 8192, .allocate 8192,
        .allocate 8192]).map (fun r => decide (∀ i < BucketCount, r.s.c.buckets i = 0)) = some true by
      decide +kernel)
  obtain ⟨n, hn⟩ := deinit_run (SerialRun.init_starts ⟨[], fun _ => 7, true⟩ raw)
    ((Reach.of_run hr).mono fun _ _ hok => of_decide_eq_true hok)
  obtain ⟨t, ht, h1, h2⟩ := hn n le_rfl
  exact ⟨r, hr, n, t, ht, h1.mpr (of_decide_eq_true hbuckets), h2.mpr (of_decide_eq_true hbuckets)⟩

/-- After one request for an item of 16 bytes its bucket still leads to the page
that was given back, and the next such request reads from it. -/
theorem not_deinit_run : ∃ r, run (SerialRun.step (Os.linear 0)) (fun r op => decide (SmallOnly r op)) .fresh
      [.allocate 16] = some r ∧ ∃ t, Act.exec (deinit 20) r.s = .ret () t ∧ ¬ NoDangling t ∧
    Act.exec (allocate (Os.linear 0) 16) t = .stuck := by
  obtain ⟨r, hr, hx⟩ := Option.map_eq_some_iff.mp (show (run (SerialRun.step (Os.linear 0))
      (fun r op => decide (SmallOnly r op)) .fresh [.allocate 16]).map (fun r =>
        (Act.exec (deinit 20) r.s).returned.map fun q =>
          decide (q.2.c.buckets 2 ≠ 0) && decide (pageState q.2.w.calls (q.2.c.buckets 2) = .unmapped)) =
      some (some true) by decide +kernel)
  obtain ⟨⟨_, t⟩, hd, hv⟩ := Option.map_eq_some_iff.mp hx
  obtain ⟨h0, hu⟩ := Bool.and_eq_true_iff.mp hv
  have h0 := of_decide_eq_true h0
  have hu := of_decide_eq_true hu
  refine ⟨r, hr, t, Act.exec_of_returned hd, fun hn => hn.buckets 2 (by decide) h0 hu, ?_⟩
  rw [allocate_small (Os.linear 0) (show 16 ≤ MaxBucketSize by decide),
    show sizeToIndexHalfExp 16 = 2 by decide +kernel, if_pos h0]
  exact popItem_stuck (by decide) (by rw [hu]; decide)

end SerializableAllocatorBase

end IibMalloc

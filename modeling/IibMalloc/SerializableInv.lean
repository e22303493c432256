/-
# SerializableAllocatorBase: the invariant

`SerialInv` puts the two allocators side by side: what one of them holds is not
held by the other (`apart`), the list of a bucket visits items of that bucket
(`chains`, `listed`), and an item that the client holds is on no list
(`small`).

A step changes the lists (`SerialInv.relist`), or the page allocator
(`SerialInv.pagesStep`), or the bulk allocator (`SerialInv.bulkStep`); the rest
of the invariant goes with it.
-/
import IibMalloc.SerializableItems

namespace IibMalloc

open Lib

namespace SerializableAllocatorBase

open SoundingAddressPageAllocator
open BulkAllocator (BulkGhost BulkInv setList release Writable chunkBytes bulkAllocatorT_fits)

/-- The chunks that the client holds, as the bulk allocator knows them. -/
def chunksOf (live : List (ℕ × ℕ)) : List (ℕ × ℕ) :=
  (live.filter fun e => MaxBucketSize < e.2).map fun e => (e.1 - memForbidden, u64 (e.2 + memForbidden))

/-- The state behind the allocator's memory: that of the two allocators, and the
items on each list. -/
structure SerialGhost where
  bulk : BulkGhost
  pages : Ghost
  lists : ℕ → List ℕ

def SerialGhost.empty : SerialGhost := ⟨.empty, .empty, fun _ => []⟩

/-- `live` lists what the client holds, the address and the size requested;
`segs` the segments delivered. -/
structure SerialInv (s : St SerializableAllocatorBase) (γ : SerialGhost) (segs : List Segment)
    (live : List (ℕ × ℕ)) : Prop where
  bulk : BulkInv bulkAllocatorT ⟨s.w, s.c.bulkAllocator⟩ γ.bulk (chunksOf live)
  pages : SoundInv pageAllocatorT s.w.calls s.c.pageAllocator γ.pages
  batches : ∀ i < BucketCount, pageAllocatorT.multipage_page_cnt ∣ γ.pages.n i
  apart : ∀ x, γ.bulk.Owned bulkAllocatorT (chunksOf live) x → ¬ γ.pages.Held pageAllocatorT x
  segments : SegmentsInv γ.pages segs
  chains : ∀ i < BucketCount, Chain s.w.mem 0 (s.c.buckets i) (γ.lists i)
  listed : ∀ i < BucketCount, ∀ a ∈ γ.lists i, IsItem segs i a
  small : ∀ e ∈ live, e.2 ≤ MaxBucketSize →
    IsItem segs (sizeToIndexHalfExp e.2) e.1 ∧ e.1 ∉ γ.lists (sizeToIndexHalfExp e.2)
  large : ∀ e ∈ live, MaxBucketSize < e.2 → e.1 % 4096 = 16
  nodup : (live.map Prod.fst).Nodup

variable {s t : St SerializableAllocatorBase} {γ : SerialGhost} {segs segs' : List Segment}
  {live live' : List (ℕ × ℕ)} {σ : Segment} {e : ℕ × ℕ} {a b i j p sz x : ℕ} {l : List ℕ}

/-! ### Requests and chunks -/

theorem index_lt (h : sz ≤ MaxBucketSize) : sizeToIndexHalfExp sz < BucketCount :=
  (sizeToIndexHalfExp_le h).trans_lt (by decide)

theorem chunksOf_small (h : sz ≤ MaxBucketSize) : chunksOf ((p, sz) :: live) = chunksOf live := by
  unfold chunksOf
  rw [List.filter_cons_of_neg (by simpa using h)]

theorem chunksOf_large (h : MaxBucketSize < sz) :
    chunksOf ((p + memForbidden, sz) :: live) = (p, u64 (sz + memForbidden)) :: chunksOf live := by
  unfold chunksOf
  rw [List.filter_cons_of_pos (by simpa using h), List.map_cons, Nat.add_sub_cancel]

theorem mem_chunksOf (he : e ∈ live) (h : MaxBucketSize < e.2) :
    (e.1 - memForbidden, u64 (e.2 + memForbidden)) ∈ chunksOf live :=
  List.mem_map.mpr ⟨e, List.mem_filter.mpr ⟨he, decide_eq_true h⟩, rfl⟩

theorem chunksOf_release_small (hn : (live.map Prod.fst).Nodup) (he : (p, sz) ∈ live) (h : sz ≤ MaxBucketSize) :
    chunksOf (release p live) = chunksOf live := by
  unfold chunksOf release
  congr 1
  induction live with
  | nil => rfl
  | cons e live ih =>
    rw [List.map_cons, List.nodup_cons] at hn
    rcases List.mem_cons.mp he with rfl | he
    · rw [List.eraseP_cons_of_pos (by simp), List.filter_cons_of_neg (by simpa using h)]
    · have hne : e.1 ≠ p := fun hep => hn.1 (hep ▸ List.mem_map_of_mem he)
      rw [List.eraseP_cons_of_neg (by simpa using hne), List.filter_cons, List.filter_cons, ih hn.2 he]

theorem chunksOf_release_large (hl : ∀ e ∈ live, MaxBucketSize < e.2 → e.1 % 4096 = 16)
    (hn : (live.map Prod.fst).Nodup) (he : (p, sz) ∈ live) (h : MaxBucketSize < sz) :
    chunksOf (release p live) = release (p - memForbidden) (chunksOf live) := by
  have hp := hl _ he h
  unfold chunksOf release
  simp only [memForbidden_eq] at *
  induction live with
  | nil => rfl
  | cons e live ih =>
    rw [List.map_cons, List.nodup_cons] at hn
    rcases List.mem_cons.mp he with rfl | he
    · rw [List.eraseP_cons_of_pos (by simp), List.filter_cons_of_pos (by simpa using h), List.map_cons,
        List.eraseP_cons_of_pos (by simp)]
    · have hne : e.1 ≠ p := fun hep => hn.1 (hep ▸ List.mem_map_of_mem he)
      have ih := ih (fun e he => hl e (List.mem_cons_of_mem _ he)) hn.2 he
      rw [List.eraseP_cons_of_neg (by simpa using hne)]
      by_cases hbig : MaxBucketSize < e.2
      · have hoff := hl e List.mem_cons_self hbig
        have hne' : e.1 - 16 ≠ p - 16 := by omega
        rw [List.filter_cons_of_pos (by simpa using hbig), List.filter_cons_of_pos (by simpa using hbig),
          List.map_cons, List.map_cons, ih, List.eraseP_cons_of_neg (by simpa using hne')]
      · rw [List.filter_cons_of_neg (by simpa using hbig), List.filter_cons_of_neg (by simpa using hbig), ih]

/-! ### Items -/

namespace SerialInv

/-- The segment of an item. -/
theorem segment (h : SerialInv s γ segs live) (ha : IsItem segs i a) :
    ∃ σ ∈ segs, SegmentInv γ.pages σ ∧ σ.idx = i ∧ a ∈ σ.items ∧
      ∀ x, Within a (indexToBucketSizeHalfExp i) x → Within σ.ptr σ.sz x := by
  obtain ⟨σ, hσ, rfl, ha⟩ := ha
  exact ⟨σ, hσ, h.segments.each σ hσ, rfl, ha, fun x hx => (h.segments.each σ hσ).item_within ha hx⟩

theorem item_held (h : SerialInv s γ segs live) (ha : IsItem segs i a)
    (hx : Within a (indexToBucketSizeHalfExp i) x) : γ.pages.Held pageAllocatorT x := by
  obtain ⟨σ, -, hσ, -, -, hw⟩ := h.segment ha
  exact hσ.held h.pages (hw x hx)

theorem item_committed (h : SerialInv s γ segs live) (ha : IsItem segs i a)
    (hx : Within a (indexToBucketSizeHalfExp i) x) : pageState s.w.calls x = .committed := by
  obtain ⟨σ, -, hσ, -, -, hw⟩ := h.segment ha
  exact hσ.committed h.pages (hw x hx)

/-- The first byte of an item. -/
theorem item_self (h : SerialInv s γ segs live) (ha : IsItem segs i a) :
    Within a (indexToBucketSizeHalfExp i) a := by
  obtain ⟨σ, -, hσ, rfl, -, -⟩ := h.segment ha
  have := hσ.bucketSz.ge
  exact ⟨le_rfl, by unfold Segment.bucketSz at this; omega⟩

theorem item_offset (h : SerialInv s γ segs live) (ha : IsItem segs i a) : a % 4096 ≠ 16 := by
  obtain ⟨σ, -, hσ, -, ha, -⟩ := h.segment ha
  exact hσ.item_offset ha

theorem item_index (h : SerialInv s γ segs live) (ha : IsItem segs i a) : pageAllocatorT.addressToIdx a = i := by
  obtain ⟨σ, -, hσ, rfl, -, hw⟩ := h.segment ha
  exact hσ.addressToIdx (hw a (h.item_self ha))

theorem item_pos (h : SerialInv s γ segs live) (ha : IsItem segs i a) : a ≠ 0 := by
  obtain ⟨σ, -, hσ, rfl, -, hw⟩ := h.segment ha
  exact hσ.pos h.pages (hw a (h.item_self ha))

/-- An item on a list is not held by the client. -/
theorem listed_not_live (h : SerialInv s γ segs live) (hi : i < BucketCount) (ha : a ∈ γ.lists i) :
    a ∉ live.map Prod.fst := by
  intro hal
  obtain ⟨e, he, rfl⟩ := List.mem_map.mp hal
  have hitem := h.listed i hi e.1 ha
  rcases Nat.lt_or_ge MaxBucketSize e.2 with hl | hs
  · exact h.item_offset hitem (h.large e he hl)
  · obtain ⟨h1, h2⟩ := h.small e he hs
    exact h2 (h.segments.bucket_unique h1 hitem ▸ ha)

/-- The client's item that shares an address with one on a list. -/
theorem listed_apart (h : SerialInv s γ segs live) (he : e ∈ live) (hs : e.2 ≤ MaxBucketSize) (hi : i < BucketCount)
    (ha : a ∈ γ.lists i) : ¬ Within e.1 (itemSize e.2) a := by
  intro hw
  obtain ⟨h1, h2⟩ := h.small e he hs
  have hitem := h.listed i hi a ha
  obtain ⟨rfl, rfl⟩ := h.segments.item_unique h1 hitem hw (h.item_self hitem)
  exact h2 ha

/-! ### The three kinds of change -/

/-- The bulk allocator does not see a change of words of the page allocator. -/
theorem bulk_of_held (h : SerialInv s γ segs live) (hcalls : t.w.calls = s.w.calls)
    (hbulk : t.c.bulkAllocator = s.c.bulkAllocator)
    (hmem : ∀ x, ¬ γ.pages.Held pageAllocatorT x → t.w.mem x = s.w.mem x) :
    BulkInv bulkAllocatorT ⟨t.w, t.c.bulkAllocator⟩ γ.bulk (chunksOf live) := by
  rw [hbulk]
  exact h.bulk.unchanged rfl h.bulk.idle fun x hx => ⟨by rw [hcalls], hmem x (h.apart x hx)⟩

/-- Words of items, the buckets and what the client holds have changed. -/
theorem relist (h : SerialInv s γ segs live) (hcalls : t.w.calls = s.w.calls)
    (hself : t.c = { s.c with buckets := t.c.buckets })
    (hmem : ∀ x, ¬ γ.pages.Held pageAllocatorT x → t.w.mem x = s.w.mem x) {lists : ℕ → List ℕ}
    (hchains : ∀ i < BucketCount, Chain t.w.mem 0 (t.c.buckets i) (lists i))
    (hlisted : ∀ i < BucketCount, ∀ a ∈ lists i, IsItem segs i a)
    (hchunks : chunksOf live' = chunksOf live)
    (hsmall : ∀ e ∈ live', e.2 ≤ MaxBucketSize →
      IsItem segs (sizeToIndexHalfExp e.2) e.1 ∧ e.1 ∉ lists (sizeToIndexHalfExp e.2))
    (hlarge : ∀ e ∈ live', MaxBucketSize < e.2 → e.1 % 4096 = 16) (hnodup : (live'.map Prod.fst).Nodup) :
    SerialInv t { γ with lists } segs live' := by
  have hbulk : t.c.bulkAllocator = s.c.bulkAllocator := by rw [hself]
  have hpages : t.c.pageAllocator = s.c.pageAllocator := by rw [hself]
  refine
    { bulk := hchunks ▸ h.bulk_of_held hcalls hbulk hmem, pages := ?_, batches := h.batches
      apart := hchunks ▸ h.apart, segments := h.segments, chains := hchains, listed := hlisted, small := hsmall
      large := hlarge, nodup := hnodup }
  rw [hcalls, hpages]
  exact h.pages

/-- The page allocator was called. -/
theorem pagesStep (h : SerialInv s γ segs live) {g : Ghost} (hst : PageStep pageAllocatorT i s.w t.w γ.pages g)
    (hI : SoundInv pageAllocatorT t.w.calls t.c.pageAllocator g)
    (hself : t.c = { s.c with pageAllocator := t.c.pageAllocator })
    (hbatches : ∀ i < BucketCount, pageAllocatorT.multipage_page_cnt ∣ g.n i)
    (hsegs : SegmentsInv g (segs' ++ segs)) : SerialInv t { γ with pages := g } (segs' ++ segs) live := by
  have hbulk : t.c.bulkAllocator = s.c.bulkAllocator := by rw [hself]
  have hbuckets : t.c.buckets = s.c.buckets := by rw [hself]
  have hkeep := hst.others
  have hitem : ∀ {i a}, IsItem segs i a → IsItem (segs' ++ segs) i a := fun ⟨σ, hσ, ha⟩ =>
    ⟨σ, List.mem_append_right _ hσ, ha⟩
  refine
    { bulk := ?_, pages := hI, batches := hbatches, apart := fun x hx hh => ?_, segments := hsegs
      chains := fun i hi => ?_, listed := fun i hi a ha => hitem (h.listed i hi a ha)
      small := fun e he hs => ⟨hitem (h.small e he hs).1, (h.small e he hs).2⟩, large := h.large, nodup := h.nodup }
  · rw [hbulk]
    exact h.bulk.unchanged rfl h.bulk.idle fun x hx => hkeep x ⟨h.bulk.owned_mapped hx, h.apart x hx⟩
  · exact (hst.freshHeld hh).elim (h.apart x hx) fun hm => hm (h.bulk.owned_mapped hx)
  · rw [hbuckets]
    refine (h.chains i hi).congr fun a ha => (hst.frame a ?_).2
    -- an item is in a page handed out before
    obtain ⟨σ, -, hσ, -, hmem, -⟩ := h.segment (h.listed i hi a ha)
    exact h.pages.out_keep (hσ.out (hσ.item_self hmem))

/-- The bulk allocator was called. -/
theorem bulkStep (h : SerialInv s γ segs live) {g : BulkGhost}
    (hI : BulkInv bulkAllocatorT ⟨t.w, t.c.bulkAllocator⟩ g (chunksOf live'))
    (hframe : Unchanged (fun x => Mapped s.w.calls x ∧ ¬ γ.bulk.Owned bulkAllocatorT (chunksOf live) x) s.w t.w)
    (hfresh : ∀ x, g.Owned bulkAllocatorT (chunksOf live') x →
      γ.bulk.Owned bulkAllocatorT (chunksOf live) x ∨ ¬ Mapped s.w.calls x)
    (hself : t.c = { s.c with bulkAllocator := t.c.bulkAllocator })
    (hsmall : ∀ e ∈ live', e.2 ≤ MaxBucketSize → e ∈ live)
    (hlarge : ∀ e ∈ live', MaxBucketSize < e.2 → e.1 % 4096 = 16) (hnodup : (live'.map Prod.fst).Nodup) :
    SerialInv t { γ with bulk := g } segs live' := by
  have hpages : t.c.pageAllocator = s.c.pageAllocator := by rw [hself]
  have hbuckets : t.c.buckets = s.c.buckets := by rw [hself]
  have hkeep : ∀ x, γ.pages.Held pageAllocatorT x →
      pageState t.w.calls x = pageState s.w.calls x ∧ t.w.mem x = s.w.mem x := fun x hx =>
    hframe x ⟨h.pages.held_mapped hx, fun ho => h.apart x ho hx⟩
  refine
    { bulk := hI, pages := ?_, batches := h.batches, apart := fun x hx hh => ?_, segments := h.segments
      chains := fun i hi => ?_, listed := h.listed, small := fun e he hs => h.small e (hsmall e he hs) hs
      large := hlarge, nodup := hnodup }
  · rw [hpages]
    exact h.pages.transport fun x hx => (hkeep x hx).1
  · exact (hfresh x hx).elim (fun ho => h.apart x ho hh) fun hm => hm (h.pages.held_mapped hh)
  · rw [hbuckets]
    refine (h.chains i hi).congr fun a ha => (hkeep a ?_).2
    have hitem := h.listed i hi a ha
    exact h.item_held hitem (h.item_self hitem)

end SerialInv

end SerializableAllocatorBase

end IibMalloc

/-
# SerializableAllocatorBase: allocate and deallocate keep the invariant

`pop_spec`, `push_spec`: an item leaves its list and returns to it.
`refill_spec`: where the list is empty, the segments of a multipage are
formatted one after the other, and the bucket keeps the items of the last one
that has room for one (`Refilled`). `large_spec` and `release_spec` are the
calls of the bulk allocator. `allocate_spec` and `deallocate_spec` put them
together, and `SerialInv.write` is for the client's writes.
-/
import IibMalloc.SerializableInv

namespace IibMalloc

open Lib

namespace SerializableAllocatorBase

open SoundingAddressPageAllocator
open BulkAllocator (BulkGhost BulkInv setList setList_self setList_ne release release_map mem_release
  BulkStep Writable chunkBytes bulkAllocatorT_fits MergesLive)

variable {s t : St SerializableAllocatorBase} {γ : SerialGhost} {segs segs' : List Segment}
  {live live' : List (ℕ × ℕ)} {σ : Segment} {e : ℕ × ℕ} {a b i j p sz x : ℕ} {l : List ℕ} {mp : MultipageData}

/-- The list of bucket `i` is `l`. -/
def SerialGhost.relist (γ : SerialGhost) (i : ℕ) (l : List ℕ) : SerialGhost :=
  { γ with lists := setList γ.lists i l }

@[simp] theorem SerialGhost.relist_lists : (γ.relist i l).lists = setList γ.lists i l := rfl

theorem SerialGhost.relist_relist (γ : SerialGhost) (l l' : List ℕ) : (γ.relist i l).relist i l' = γ.relist i l' := by
  unfold SerialGhost.relist
  congr 1
  funext j
  by_cases hj : j = i
  · rw [hj, setList_self, setList_self]
  · rw [setList_ne hj, setList_ne hj]
    exact setList_ne hj

/-! ### Taking an item and giving it back -/

/-- The first item of the list of a request is handed out. -/
theorem pop_spec (h : SerialInv s γ segs live) (hsz : sz ≤ MaxBucketSize)
    (hl : γ.lists (sizeToIndexHalfExp sz) = a :: l) :
    Act.wp (popItem (sizeToIndexHalfExp sz))
      (fun p t => p = a ∧ t.w = s.w ∧ SerialInv t (γ.relist (sizeToIndexHalfExp sz) l) segs ((a, sz) :: live))
      (fun _ => False) s := by
  have hi := index_lt hsz
  have hchain := h.chains _ hi
  have hmem : a ∈ γ.lists (sizeToIndexHalfExp sz) := by
    rw [hl]
    exact List.mem_cons_self
  have hitem := h.listed _ hi a hmem
  have hnd := hchain.nodup
  rw [hl] at hchain hnd
  obtain ⟨hhead, -, hrest⟩ := hchain
  rw [wp_popItem, hhead]
  refine ⟨hi, h.item_committed hitem (h.item_self hitem), rfl, rfl, ?_⟩
  have hsub : ∀ j, ∀ b ∈ (γ.relist (sizeToIndexHalfExp sz) l).lists j, b ∈ γ.lists j := fun j b hb => by
    by_cases hj : j = sizeToIndexHalfExp sz
    · subst hj
      rw [SerialGhost.relist_lists, setList_self] at hb
      rw [hl]
      exact List.mem_cons_of_mem a hb
    · rwa [SerialGhost.relist_lists, setList_ne hj] at hb
  refine h.relist ?_ ?_ (fun _ _ => ?_) (fun j hj => ?_) (fun j hj b hb => h.listed j hj b (hsub j b hb))
    (chunksOf_small hsz) (fun e he hs => ?_) (fun e he hbig => ?_) ?_
  · rfl
  · rfl
  · rfl
  · by_cases hji : j = sizeToIndexHalfExp sz
    · rw [hji, setList_self]
      simpa using hrest
    · rw [setList_ne hji]
      simpa [hji] using h.chains j hj
  · rcases List.mem_cons.mp he with rfl | he
    · refine ⟨hitem, ?_⟩
      rw [setList_self]
      exact (List.nodup_cons.mp hnd).1
    · exact ⟨(h.small e he hs).1, fun hb => (h.small e he hs).2 (hsub _ _ hb)⟩
  · rcases List.mem_cons.mp he with rfl | he
    · exact absurd hbig (Nat.not_lt.mpr hsz)
    · exact h.large e he hbig
  · rw [List.map_cons]
    exact List.nodup_cons.mpr ⟨h.listed_not_live hi hmem, h.nodup⟩

/-- The client gives an item back. -/
theorem push_spec (h : SerialInv s γ segs live) (he : (p, sz) ∈ live) (hsz : sz ≤ MaxBucketSize) :
    Act.wp (pushItem (sizeToIndexHalfExp sz) p)
      (fun _ t => SerialInv t (γ.relist (sizeToIndexHalfExp sz) (p :: γ.lists (sizeToIndexHalfExp sz))) segs
        (release p live))
      (fun _ => False) s := by
  have hi := index_lt hsz
  obtain ⟨hitem, hout⟩ := h.small _ he hsz
  have hself := h.item_self hitem
  rw [wp_pushItem]
  refine ⟨hi, h.item_committed hitem hself, ?_⟩
  have hrel : ∀ {e}, e ∈ release p live → e ∈ live ∧ e.1 ≠ p := (mem_release h.nodup).mp
  -- no list has the item
  have hne : ∀ j < BucketCount, ∀ b ∈ γ.lists j, b ≠ p := fun j hj b hb hbp => by
    subst hbp
    exact h.listed_not_live hj hb (List.mem_map_of_mem he)
  have hchain : ∀ j < BucketCount, Chain (store s.w.mem p (s.c.buckets (sizeToIndexHalfExp sz))) 0 (s.c.buckets j)
      (γ.lists j) := fun j hj => (h.chains j hj).congr fun b hb => store_ne (hne j hj b hb)
  refine h.relist ?_ ?_ (fun x hx => store_ne ?_) (fun j hj => ?_) (fun j hj b hb => ?_)
    (chunksOf_release_small h.nodup he hsz) (fun e hr hs => ?_) (fun e hr hbig => h.large e (hrel hr).1 hbig) ?_
  · rfl
  · rfl
  · rintro rfl
    exact hx (h.item_held hitem hself)
  · by_cases hji : j = sizeToIndexHalfExp sz
    · subst hji
      rw [setList_self]
      refine ⟨if_pos rfl, h.item_pos hitem, ?_⟩
      show Chain _ 0 (store s.w.mem p (s.c.buckets (sizeToIndexHalfExp sz)) p) _
      rw [store_self]
      exact hchain _ hj
    · rw [setList_ne hji]
      show Chain _ 0 (if j = _ then p else _) _
      rw [if_neg hji]
      exact hchain j hj
  · rcases BulkAllocator.mem_setList_cons.mp hb with hb | ⟨rfl, rfl⟩
    · exact h.listed j hj b hb
    · exact hitem
  · obtain ⟨he', hne'⟩ := hrel hr
    obtain ⟨h1, h2⟩ := h.small e he' hs
    refine ⟨h1, fun hb => ?_⟩
    rcases BulkAllocator.mem_setList_cons.mp hb with hb | ⟨-, hb⟩
    · exact h2 hb
    · exact hne' hb
  · rw [release_map]
    exact h.nodup.erase p

/-! ### A multipage -/

/-- From `w` to `w'` only words of the segments changed. -/
structure Formats (news : List Segment) (w w' : World) : Prop where
  calls : w'.calls = w.calls
  mem : ∀ x, (∀ σ ∈ news, ¬ Within σ.ptr σ.sz x) → w'.mem x = w.mem x

namespace Formats

variable {news news' : List Segment} {w w' w'' : World}

theorem refl : Formats news w w := ⟨rfl, fun _ _ => rfl⟩

theorem trans (h : Formats news w w') (h' : Formats news w' w'') : Formats news w w'' :=
  ⟨h'.calls.trans h.calls, fun x hx => (h'.mem x hx).trans (h.mem x hx)⟩

theorem mono (h : Formats news w w') (hsub : ∀ σ ∈ news, σ ∈ news') : Formats news' w w' :=
  ⟨h.calls, fun x hx => h.mem x fun σ hσ => hx σ (hsub σ hσ)⟩

end Formats

/-- The links are in the segment. -/
theorem Formatted.formats (hF : Formatted σ.ptr σ.sz σ.bucketSz σ.idx s t) (hz : 8 ≤ σ.bucketSz) :
    Formats [σ] s.w t.w := by
  refine ⟨hF.calls, fun x hx => hF.mem x fun k hk hxk => hx σ (List.mem_singleton_self σ) ?_⟩
  have h1 := Nat.mul_le_mul_right σ.bucketSz hk
  have h2 := Nat.div_mul_le_self σ.sz σ.bucketSz
  rw [Nat.succ_mul] at h1
  unfold Within
  omega

/-- A segment was formatted: its items are the list of its bucket. -/
theorem SerialInv.formatted (h : SerialInv s γ segs live) (hσ : σ ∈ segs)
    (hF : Formatted σ.ptr σ.sz σ.bucketSz σ.idx s t) (hlive : ∀ e ∈ live, e.2 ≤ MaxBucketSize → e.1 ∉ σ.items) :
    SerialInv t (γ.relist σ.idx σ.items) segs live := by
  have hS := h.segments.each σ hσ
  have hslot : ∀ x, ¬ Within σ.ptr σ.sz x → t.w.mem x = s.w.mem x := fun x hx =>
    (hF.formats hS.bucketSz.ge).mem x fun τ hτ => by rwa [List.mem_singleton.mp hτ]
  have hbuckets : ∀ j, j ≠ σ.idx → t.c.buckets j = s.c.buckets j := fun j hj => by
    rw [hF.self]
    exact if_neg hj
  refine h.relist hF.calls (by rw [hF.self]) (fun x hx => hslot x fun hw => hx (hS.held h.pages hw))
    (fun j hj => ?_) (fun j hj b hb => ?_) rfl (fun e he hs => ?_) h.large h.nodup
  · by_cases hji : j = σ.idx
    · rw [hji, setList_self]
      exact hF.chain
    · rw [setList_ne hji, hbuckets j hji]
      refine (h.chains j hj).congr fun b hb => hslot b fun hw => hji ?_
      -- an item of another bucket is in another segment
      obtain ⟨τ, hτ, rfl, hbτ⟩ := h.listed j hj b hb
      rw [h.segments.unique hσ hτ hw ((h.segments.each τ hτ).item_self hbτ)]
  · by_cases hji : j = σ.idx
    · rw [hji, setList_self] at hb
      exact ⟨σ, hσ, hji.symm, hb⟩
    · rw [setList_ne hji] at hb
      exact h.listed j hj b hb
  · obtain ⟨h1, h2⟩ := h.small e he hs
    refine ⟨h1, fun hb => ?_⟩
    by_cases hji : sizeToIndexHalfExp e.2 = σ.idx
    · rw [hji, setList_self] at hb
      exact hlive e he hs hb
    · rw [setList_ne hji] at hb
      exact h2 hb

/-- A segment has an item if it has room for one, and then its first slot is one. -/
theorem SegmentInv.items_cons {g : Ghost} (h : SegmentInv g σ) (hroom : σ.bucketSz ≤ σ.sz) :
    ∃ l, σ.items = σ.ptr :: l := by
  have hpos : 0 < σ.bucketSz := by have := h.bucketSz.ge; omega
  have hcnt : 0 < σ.sz / σ.bucketSz := Nat.div_pos hroom hpos
  have hfirst := itemsFrom_cons (z := σ.bucketSz) (k := 0) (n := σ.sz / σ.bucketSz - 1) h.aligned (by
    rw [Nat.zero_mul]
    decide)
  rw [Nat.sub_add_cancel hcnt, Nat.zero_mul, Nat.add_zero] at hfirst
  exact ⟨_, hfirst⟩

theorem SegmentInv.items_nil {g : Ghost} (h : SegmentInv g σ) (hroom : σ.sz < σ.bucketSz) : σ.items = [] := by
  refine List.eq_nil_iff_forall_not_mem.mpr fun a ha => ?_
  obtain ⟨k, hk, -⟩ := (mem_items h.aligned).mp ha
  rw [Nat.div_eq_of_lt hroom] at hk
  omega

/-- The call for one of the segments delivered, which may be none. -/
theorem formatSegment_spec (h : SerialInv s γ segs live) (hi : i ≤ 20) {ptr : ℕ} (hptr : 4096 ∣ ptr) (hdvd : 4096 ∣ sz)
    (hσ : ptr ≠ 0 → ⟨i, ptr, sz⟩ ∈ segs)
    (hlive : ptr ≠ 0 → ∀ e ∈ live, e.2 ≤ MaxBucketSize → e.1 ∉ (Segment.mk i ptr sz).items) :
    Act.wp (formatAllocatedPageAlignedBlock ptr sz (indexToBucketSizeHalfExp i) i)
      (fun _ t => (ptr ≠ 0 ∧ indexToBucketSizeHalfExp i ≤ sz ∧
          SerialInv t (γ.relist i (Segment.mk i ptr sz).items) segs live ∧ Formats [⟨i, ptr, sz⟩] s.w t.w) ∨
        (ptr = 0 ∨ sz < indexToBucketSizeHalfExp i) ∧ t = s)
      (fun _ => False) s := by
  by_cases hnone : ptr = 0 ∨ sz < indexToBucketSizeHalfExp i
  · exact Act.wp_of_exec (format_none hptr hdvd hnone) (Or.inr ⟨hnone, rfl⟩)
  · rw [not_or, Nat.not_lt] at hnone
    obtain ⟨hp0, hroom⟩ := hnone
    have hS := h.segments.each _ (hσ hp0)
    refine Act.wp_mono (format_spec hptr (Nat.pos_of_ne_zero hp0) (itemSize_of_index hi) hdvd hroom
      (hi.trans_lt (by decide)) fun x hx => hS.committed h.pages hx) ?_ fun _ hf => hf
    intro r t ht
    obtain ⟨-, hF⟩ := ht
    exact Or.inl ⟨hp0, hroom, h.formatted (hσ hp0) hF (hlive hp0), hF.formats hS.bucketSz.ge⟩

/-- What `allocateInCaseNoFreeBucket` made of the segments delivered: the request
got the first item of one of them, and the others of it are the list. A segment
not chosen has no item, or both have, and it is lost. -/
structure Refilled (i : ℕ) (mp : MultipageData) (p : ℕ) (l : List ℕ) (σ : Segment) : Prop where
  mem : σ ∈ segmentsOf i mp
  items : σ.items = p :: l
  others : ∀ τ ∈ segmentsOf i mp, τ = σ ∨ τ.items = [] ∨
    mp.ptr2 ≠ 0 ∧ indexToBucketSizeHalfExp i ≤ mp.sz1 ∧ indexToBucketSizeHalfExp i ≤ mp.sz2

theorem mem_segmentsOf : σ ∈ segmentsOf i mp ↔ σ = ⟨i, mp.ptr1, mp.sz1⟩ ∨ mp.ptr2 ≠ 0 ∧ σ = ⟨i, mp.ptr2, mp.sz2⟩ := by
  unfold segmentsOf
  by_cases h2 : mp.ptr2 = 0
  · simp [h2]
  · simp [h2]

/-- The first item of the segment whose items are the list is taken. -/
theorem popFormatted_spec {γ' : SerialGhost} {τ : Segment}
    (h : SerialInv s (γ'.relist (sizeToIndexHalfExp sz) τ.items)
      (segmentsOf (sizeToIndexHalfExp sz) mp ++ segs) live)
    (hsz : sz ≤ MaxBucketSize) (hτ : τ ∈ segmentsOf (sizeToIndexHalfExp sz) mp)
    (hidx : τ.idx = sizeToIndexHalfExp sz) (hroom : itemSize sz ≤ τ.sz)
    (hothers : ∀ τ' ∈ segmentsOf (sizeToIndexHalfExp sz) mp, τ' = τ ∨ τ'.items = [] ∨ mp.ptr2 ≠ 0 ∧
      itemSize sz ≤ mp.sz1 ∧ itemSize sz ≤ mp.sz2)
    (hγ : ∀ l, (γ'.relist (sizeToIndexHalfExp sz) τ.items).relist (sizeToIndexHalfExp sz) l =
      γ.relist (sizeToIndexHalfExp sz) l) :
    Act.wp (popItem (sizeToIndexHalfExp sz))
      (fun p t => (∃ l σ, Refilled (sizeToIndexHalfExp sz) mp p l σ ∧
        SerialInv t (γ.relist (sizeToIndexHalfExp sz) l) (segmentsOf (sizeToIndexHalfExp sz) mp ++ segs)
          ((p, sz) :: live)) ∧ t.w = s.w) (fun _ => False) s := by
  have hSτ := h.segments.each τ (List.mem_append_left segs hτ)
  obtain ⟨l, hl⟩ := hSτ.items_cons (by unfold Segment.bucketSz; rw [hidx]; exact hroom)
  refine Act.wp_mono (pop_spec h hsz (a := τ.ptr) (l := l) (by rw [SerialGhost.relist_lists, setList_self, hl])) ?_
    fun _ hf => hf
  intro p t ht
  obtain ⟨rfl, hw, ht⟩ := ht
  rw [hγ] at ht
  exact ⟨⟨l, τ, ⟨hτ, hl, hothers⟩, ht⟩, hw⟩

/-- The segments are formatted, and the first item is taken. -/
theorem formatSegments_spec (h : SerialInv s γ (segmentsOf (sizeToIndexHalfExp sz) mp ++ segs) live)
    (hsz : sz ≤ MaxBucketSize) (hD : Delivered pageAllocatorT mp)
    (hlive : ∀ σ ∈ segmentsOf (sizeToIndexHalfExp sz) mp, ∀ e ∈ live, e.2 ≤ MaxBucketSize → e.1 ∉ σ.items) :
    Act.wp (do
        let _ ← formatAllocatedPageAlignedBlock mp.ptr1 mp.sz1 (itemSize sz) (sizeToIndexHalfExp sz)
        let _ ← formatAllocatedPageAlignedBlock mp.ptr2 mp.sz2 (itemSize sz) (sizeToIndexHalfExp sz)
        popItem (sizeToIndexHalfExp sz))
      (fun p t => (∃ l σ, Refilled (sizeToIndexHalfExp sz) mp p l σ ∧
        SerialInv t (γ.relist (sizeToIndexHalfExp sz) l) (segmentsOf (sizeToIndexHalfExp sz) mp ++ segs)
          ((p, sz) :: live)) ∧ Formats (segmentsOf (sizeToIndexHalfExp sz) mp) s.w t.w)
      (fun _ => False) s := by
  have hi := sizeToIndexHalfExp_le hsz
  obtain ⟨hp1, hsz1, hp2, hsz2⟩ := hD.aligned
  have hmem1 : ⟨sizeToIndexHalfExp sz, mp.ptr1, mp.sz1⟩ ∈ segmentsOf (sizeToIndexHalfExp sz) mp :=
    mem_segmentsOf.mpr (Or.inl rfl)
  have hmem2 : mp.ptr2 ≠ 0 → ⟨sizeToIndexHalfExp sz, mp.ptr2, mp.sz2⟩ ∈ segmentsOf (sizeToIndexHalfExp sz) mp :=
    fun h2 => mem_segmentsOf.mpr (Or.inr ⟨h2, rfl⟩)
  have hS1 := h.segments.each _ (List.mem_append_left segs hmem1)
  have hroom : itemSize sz ≤ 8192 := (itemSize_size hsz).le
  have hsum : mp.sz1 + mp.sz2 = 8 * 4096 := hD.sum
  rw [Act.wp_bind]
  refine Act.wp_mono (formatSegment_spec h hi hp1 hsz1 (fun _ => List.mem_append_left segs hmem1)
    fun _ => hlive _ hmem1) ?_ fun _ hf => hf
  rintro - t₁ ht₁
  rw [Act.wp_bind]
  have hpop : ∀ {t₂ t : St SerializableAllocatorBase}, Formats (segmentsOf (sizeToIndexHalfExp sz) mp) s.w t₂.w →
      t.w = t₂.w → Formats (segmentsOf (sizeToIndexHalfExp sz) mp) s.w t.w := fun hF hw => hw ▸ hF
  rcases ht₁ with ⟨-, hroom1, ht₁, hF₁⟩ | ⟨hnone1, rfl⟩
  · refine Act.wp_mono (formatSegment_spec ht₁ hi hp2 hsz2 (fun h2 => List.mem_append_left segs (hmem2 h2))
      fun h2 => hlive _ (hmem2 h2)) ?_ fun _ hf => hf
    have hF₁ := hF₁.mono fun σ hσ => (List.mem_singleton.mp hσ) ▸ hmem1
    rintro - t₂ (⟨h2, hroom2, ht₂, hF₂⟩ | ⟨hnone2, rfl⟩)
    · -- both have room: the second takes the place of the first
      have hF₂ := hF₁.trans (hF₂.mono fun σ hσ => (List.mem_singleton.mp hσ) ▸ hmem2 h2)
      refine Act.wp_mono (popFormatted_spec ht₂ hsz (hmem2 h2) rfl hroom2 (fun τ hτ => ?_) fun l => by
        rw [SerialGhost.relist_relist, SerialGhost.relist_relist]) (fun _ _ ht => ⟨ht.1, hpop hF₂ ht.2⟩) fun _ hf => hf
      rcases mem_segmentsOf.mp hτ with rfl | ⟨-, rfl⟩
      · exact Or.inr (Or.inr ⟨h2, hroom1, hroom2⟩)
      · exact Or.inl rfl
    · refine Act.wp_mono (popFormatted_spec ht₁ hsz hmem1 rfl hroom1 (fun τ hτ => ?_) fun l => γ.relist_relist _ l)
        (fun _ _ ht => ⟨ht.1, hpop hF₁ ht.2⟩) fun _ hf => hf
      rcases mem_segmentsOf.mp hτ with rfl | ⟨h2, rfl⟩
      · exact Or.inl rfl
      · exact Or.inr (Or.inl ((h.segments.each _ (List.mem_append_left segs hτ)).items_nil (hnone2.resolve_left h2)))
  · have hlt1 := hnone1.resolve_left hD.first.1
    change mp.sz1 < itemSize sz at hlt1
    have h2 : mp.ptr2 ≠ 0 := fun h2 => by
      have := hD.null.mp h2
      omega
    refine Act.wp_mono (formatSegment_spec h hi hp2 hsz2 (fun h2 => List.mem_append_left segs (hmem2 h2))
      fun h2 => hlive _ (hmem2 h2)) ?_ fun _ hf => hf
    rintro - t₂ (⟨-, hroom2, ht₂, hF₂⟩ | ⟨hnone2, rfl⟩)
    · have hF₂ := hF₂.mono fun σ hσ => (List.mem_singleton.mp hσ) ▸ hmem2 h2
      refine Act.wp_mono (popFormatted_spec ht₂ hsz (hmem2 h2) rfl hroom2 (fun τ hτ => ?_) fun l => γ.relist_relist _ l)
        (fun _ _ ht => ⟨ht.1, hpop hF₂ ht.2⟩) fun _ hf => hf
      rcases mem_segmentsOf.mp hτ with rfl | ⟨-, rfl⟩
      · exact Or.inr (Or.inl (hS1.items_nil hlt1))
      · exact Or.inl rfl
    · -- eight pages have room for an item in one of the segments
      have hlt2 := hnone2.resolve_left h2
      change mp.sz2 < itemSize sz at hlt2
      omega

/-- The segments that a call for a multipage of bucket `idx` delivers. -/
def delivered (os : Os) (s : St SerializableAllocatorBase) (idx : ℕ) : List Segment :=
  match Act.exec (pages (getMultipage pageAllocatorT os idx)) s with
  | .ret mp _ => segmentsOf idx mp
  | _ => []

/-- The block that the next multipage of bucket `idx` comes from wraps around
after `cut` of its pages. -/
def CutAt (os : Os) (s : St SerializableAllocatorBase) (idx cut : ℕ) : Prop :=
  match nextPage pageAllocatorT os ⟨s.w, s.c.pageAllocator⟩ idx with
  | some (b, k) => idx * pageAllocatorT.pages_per_bucket + (k + cut) = pageAllocatorT.wrapPage b
  | none => False

instance (os : Os) (s : St SerializableAllocatorBase) (idx cut : ℕ) : Decidable (CutAt os s idx cut) := by
  unfold CutAt
  split <;> infer_instance

/-- What a request for an item does to the rest of memory: it leaves alone what is
mapped and not held by the page allocator, takes only what was not mapped, loses
nothing, and changes no item that the client holds. -/
structure SmallStep (γ γ' : SerialGhost) (live : List (ℕ × ℕ)) (w w' : World) : Prop where
  frame : Unchanged (fun x => Mapped w.calls x ∧ ¬ γ.pages.Held pageAllocatorT x) w w'
  fresh : ∀ x, γ'.pages.Held pageAllocatorT x → γ.pages.Held pageAllocatorT x ∨ ¬ Mapped w.calls x
  cover : ∀ x, Mapped w'.calls x → γ'.pages.Held pageAllocatorT x ∨ Mapped w.calls x ∧ ¬ γ.pages.Held pageAllocatorT x
  items : ∀ e ∈ live, e.2 ≤ MaxBucketSize → ∀ x, Within e.1 (itemSize e.2) x → w'.mem x = w.mem x

theorem SmallStep.refl {w : World} (hp : γ.pages = γ'.pages) : SmallStep γ γ' live w w :=
  ⟨.refl, fun _ hx => Or.inl (hp ▸ hx), fun x hx => (em (γ'.pages.Held pageAllocatorT x)).imp_right fun hn =>
    ⟨hx, hp ▸ hn⟩, fun _ _ _ _ _ => rfl⟩

/-- The items that the client holds are in pages handed out before. -/
theorem SerialInv.pages_moved (h : SerialInv s γ segs live) {g : Ghost} {w' : World}
    (hst : PageStep pageAllocatorT i s.w w' γ.pages g) : SmallStep γ { γ with pages := g } live s.w w' := by
  refine ⟨hst.others, fun _ hx => hst.freshHeld hx, hst.cover, fun e he hs x hx => (hst.frame x ?_).2⟩
  obtain ⟨σ, -, hσ, -, -, hw⟩ := h.segment (h.small e he hs).1
  exact h.pages.out_keep (hσ.out (hw x hx))

/-- New segments were formatted. -/
theorem SmallStep.formats {γ' : SerialGhost} {news : List Segment} {w w₁ w' : World} (hS : SmallStep γ γ' live w w₁)
    (h : SerialInv s γ segs live) (hI : SerialInv t γ' (news ++ segs) live) (hF : Formats news w₁ w') :
    SmallStep γ γ' live w w' := by
  have hnews : ∀ σ ∈ news, SegmentInv γ'.pages σ := fun σ hσ => hI.segments.each σ (List.mem_append_left segs hσ)
  refine ⟨hS.frame.trans fun x hx => ⟨by rw [hF.calls], hF.mem x fun σ hσ hw => ?_⟩, hS.fresh,
    fun x hx => hS.cover x (hF.calls ▸ hx), fun e he hs x hx => ?_⟩
  · exact (hS.fresh x ((hnews σ hσ).held hI.pages hw)).elim hx.2 fun hn => hn hx.1
  · refine (hF.mem x fun σ hσ hw => ?_).trans (hS.items e he hs x hx)
    obtain ⟨τ, hτ, -, -, -, hin⟩ := h.segment (h.small e he hs).1
    exact (List.pairwise_append.mp hI.segments.apart).2.2 σ hσ τ hτ x hw (hin x hx)

/-- A request whose list was empty. -/
structure Refill (os : Os) (s : St SerializableAllocatorBase) (i p : ℕ) (l : List ℕ) (mp : MultipageData)
    (σ : Segment) : Prop where
  delivered : delivered os s i = segmentsOf i mp
  refilled : Refilled i mp p l σ
  cut : mp.ptr2 ≠ 0 → ∃ cut, 0 < cut ∧ cut < pageAllocatorT.multipage_page_cnt ∧ CutAt os s i cut ∧
    mp.sz1 = cut * 4096 ∧ mp.sz2 = (pageAllocatorT.multipage_page_cnt - cut) * 4096

theorem refill_spec (os : Os) (h : SerialInv s γ segs live) (hsz : sz ≤ MaxBucketSize) :
    Act.wp (allocateInCaseNoFreeBucket os sz (sizeToIndexHalfExp sz))
      (fun p t => ∃ g l mp σ, Refill os s (sizeToIndexHalfExp sz) p l mp σ ∧
        SerialInv t (SerialGhost.relist { γ with pages := g } (sizeToIndexHalfExp sz) l)
          (delivered os s (sizeToIndexHalfExp sz) ++ segs) ((p, sz) :: live) ∧
        SmallStep γ { γ with pages := g } live s.w t.w)
      (fun t => delivered os s (sizeToIndexHalfExp sz) = [] ∧ ∃ g, SerialInv t { γ with pages := g } segs live ∧
        SmallStep γ { γ with pages := g } live s.w t.w) s := by
  have hi := sizeToIndexHalfExp_le hsz
  have hlt := index_lt hsz
  have hmult := getMultipage_spec os (s := ⟨s.w, s.c.pageAllocator⟩) h.pages (by decide) (bucket_lt hi)
    (h.batches _ hlt)
  have hspec : Act.wp (pages (getMultipage pageAllocatorT os (sizeToIndexHalfExp sz)))
      (fun mp t => ∃ g, t.c = { s.c with pageAllocator := t.c.pageAllocator } ∧
        SerialInv t { γ with pages := g } (segmentsOf (sizeToIndexHalfExp sz) mp ++ segs) live ∧
        Delivered pageAllocatorT mp ∧
        (mp.ptr2 ≠ 0 → ∃ cut, 0 < cut ∧ cut < pageAllocatorT.multipage_page_cnt ∧
          CutAt os s (sizeToIndexHalfExp sz) cut ∧ mp.sz1 = cut * 4096 ∧
          mp.sz2 = (pageAllocatorT.multipage_page_cnt - cut) * 4096) ∧
        (∀ σ ∈ segmentsOf (sizeToIndexHalfExp sz) mp, ∀ e ∈ live, e.2 ≤ MaxBucketSize → e.1 ∉ σ.items) ∧
        SmallStep γ { γ with pages := g } live s.w t.w)
      (fun t => ∃ g, SerialInv t { γ with pages := g } segs live ∧
        SmallStep γ { γ with pages := g } live s.w t.w) s := by
    rw [pages, Act.wp_onPart]
    refine Act.wp_mono hmult ?_ ?_
    · rintro mp ⟨w, c⟩ ⟨g, cut, hI, hst, hn, hS, hnext⟩
      have hself : g.n (sizeToIndexHalfExp sz) = γ.pages.n (sizeToIndexHalfExp sz) + pageAllocatorT.multipage_page_cnt := by
        rw [hn, put, if_pos rfl]
      have hsegs := h.segments.deliver h.pages hI hst.blocks hi hn hS
      refine ⟨g, rfl, h.pagesStep hst hI rfl (fun j hj => ?_) hsegs, hS.delivered hI (bucket_lt hi) hself.ge,
        fun h2 => ⟨cut, hS.pos, ?_, ?_, hS.sz1, hS.sz2⟩, fun σ hσ e he hs hmem => ?_, h.pages_moved hst⟩
      · rw [hn]
        unfold put
        split_ifs with hj'
        · exact (Nat.dvd_add_right (h.batches _ hlt)).mpr dvd_rfl
        · exact h.batches j hj
      · have := hS.le
        have := mt hS.null.mpr h2
        omega
      · unfold CutAt
        rw [hnext]
        exact hS.wrap (lt_of_le_of_ne hS.le (mt hS.null.mpr h2))
      · -- the items that the client holds are in the segments there were
        obtain ⟨τ, hτ, -, heτ⟩ := (h.small e he hs).1
        have hσ' := hsegs.each σ (List.mem_append_left segs hσ)
        have hτ' := hsegs.each τ (List.mem_append_right _ hτ)
        exact (List.pairwise_append.mp hsegs.apart).2.2 σ hσ τ hτ e.1 (hσ'.item_self hmem) (hτ'.item_self heτ)
    · rintro ⟨w, c⟩ ⟨g, hI, hst, hn, -⟩
      have hsegs : SegmentsInv g ([] ++ segs) :=
        ⟨fun σ hσ => (h.segments.each σ hσ).step h.pages hst.blocks fun j => by rw [hn], h.segments.apart⟩
      have hstep : SerialInv ⟨w, { s.c with pageAllocator := c }⟩ { γ with pages := g } ([] ++ segs) live :=
        h.pagesStep hst hI rfl (fun j hj => hn ▸ h.batches j hj) hsegs
      exact ⟨g, hstep, h.pages_moved hst⟩
  unfold allocateInCaseNoFreeBucket
  rw [Act.wp_assert_true (decide_eq_true (itemSize_of_index hi).ge), Act.wp_bind]
  refine Act.wp_mono (Act.wp_exec hspec) ?_ fun t ht => ⟨by unfold delivered; rw [ht.2], ht.1⟩
  intro mp t ht
  obtain ⟨⟨g, -, hI, hD, hcut, hlive, hstep⟩, hx⟩ := ht
  have hdel : delivered os s (sizeToIndexHalfExp sz) = segmentsOf (sizeToIndexHalfExp sz) mp := by
    unfold delivered
    rw [hx]
  refine Act.wp_mono (formatSegments_spec hI hsz hD hlive) ?_ fun _ hf => hf.elim
  intro p u hu
  obtain ⟨⟨l, σ, hR, hu⟩, hF⟩ := hu
  refine ⟨g, l, mp, σ, ⟨hdel, hR, hcut⟩, ?_, hstep.formats h hI hF⟩
  rw [hdel]
  exact hu

/-! ### The calls of the bulk allocator -/

/-- A request for a chunk that is at least a byte and whose pages can be counted. -/
def Counted (sz : ℕ) : Prop := 0 < u64 (sz + memForbidden) ∧ u64 (sz + memForbidden) ≤ 2 ^ 64 - 4096

/-- The request is for a chunk of a new block, which is lost. -/
def LosesChunk (os : Os) (s : St SerializableAllocatorBase) (sz : ℕ) : Prop :=
  BulkAllocator.Loses bulkAllocatorT os ⟨s.w, s.c.bulkAllocator⟩ (u64 (sz + memForbidden))

theorem large_step (os : Os) (h : SerialInv s γ segs live) (hbig : MaxBucketSize < sz) (hc : Counted sz) :
    Act.wp (allocateInCaseTooLargeForBucket os sz)
      (fun p t => ∃ g, SerialInv t { γ with bulk := g } segs ((p, sz) :: live) ∧ p % 4096 = 16 ∧
        Act.exec (bulk (BulkAllocator.allocate bulkAllocatorT os (u64 (sz + memForbidden)))) s = .ret (p - 16) t ∧
        BulkStep bulkAllocatorT γ.bulk (chunksOf live) g (chunksOf ((p, sz) :: live)) s.w t.w)
      (fun t => SerialInv t γ segs live ∧ Unchanged (Mapped s.w.calls) s.w t.w ∧
        (¬ LosesChunk os s sz → ∀ x, Mapped t.w.calls x → Mapped s.w.calls x)) s := by
  have hspec : Act.wp (bulk (BulkAllocator.allocate bulkAllocatorT os (u64 (sz + memForbidden))))
      (fun b t => ∃ g, SerialInv t { γ with bulk := g } segs ((b + memForbidden, sz) :: live) ∧ 4096 ∣ b ∧
        BulkStep bulkAllocatorT γ.bulk (chunksOf live) g (chunksOf ((b + memForbidden, sz) :: live)) s.w t.w)
      (fun t => SerialInv t γ segs live ∧ Unchanged (Mapped s.w.calls) s.w t.w ∧
        (¬ LosesChunk os s sz → ∀ x, Mapped t.w.calls x → Mapped s.w.calls x)) s := by
    rw [bulk, Act.wp_onPart]
    refine Act.wp_mono (BulkAllocator.allocate_spec os (s := ⟨s.w, s.c.bulkAllocator⟩) h.bulk bulkAllocatorT_fits hc)
      ?_ ?_
    · rintro b ⟨w, c⟩ ⟨g, hI, hst, -⟩
      have hb := hI.live_aligned List.mem_cons_self
      simp only at hb
      rw [← chunksOf_large hbig] at hI hst
      refine ⟨g, h.bulkStep hI hst.frame hst.fresh rfl (fun e he hs => ?_) (fun e he hl => ?_) ?_, hb, hst⟩
      · rcases List.mem_cons.mp he with rfl | he
        · exact absurd hbig (Nat.not_lt.mpr hs)
        · exact he
      · rcases List.mem_cons.mp he with rfl | he
        · simp only [memForbidden_eq]
          omega
        · exact h.large e he hl
      · refine List.nodup_cons.mpr ⟨fun hmem => ?_, h.nodup⟩
        obtain ⟨e, he, heb⟩ := List.mem_map.mp hmem
        simp only [memForbidden_eq] at heb
        rcases Nat.lt_or_ge MaxBucketSize e.2 with hl | hs
        · -- the chunks are distinct
          have hnd := hI.nodup
          rw [chunksOf_large hbig, List.map_cons] at hnd
          refine (List.nodup_cons.mp hnd).1 (List.mem_map.mpr ⟨_, mem_chunksOf he hl, ?_⟩)
          simp only [memForbidden_eq]
          omega
        · exact h.item_offset (h.small e he hs).1 (by omega)
    · rintro ⟨w, c⟩ ⟨hI, hkeep, -, hfailed⟩
      refine ⟨h.bulkStep (g := γ.bulk) hI (hkeep.mono fun x hx => hx.1) (fun x hx => Or.inl hx) rfl (fun e he _ => he)
        h.large h.nodup, hkeep, fun hl x hx => ?_⟩
      rcases hfailed with ⟨n, -, hw⟩ | ⟨b, hlost, -⟩
      · rw [hw] at hx
        exact hx
      · exact absurd hlost hl
  unfold allocateInCaseTooLargeForBucket
  rw [Act.wp_bind]
  refine Act.wp_mono (Act.wp_exec hspec) ?_ fun t ht => ht.1
  intro b t ht
  obtain ⟨⟨g, hI, hb, hst⟩, hx⟩ := ht
  rw [Act.wp_pure]
  refine ⟨g, hI, ?_, ?_, hst⟩
  · rw [memForbidden_eq]
    omega
  · rw [hx, memForbidden_eq, Nat.add_sub_cancel]

theorem large_spec (os : Os) (h : SerialInv s γ segs live) (hbig : MaxBucketSize < sz) (hc : Counted sz) :
    Act.wp (allocateInCaseTooLargeForBucket os sz)
      (fun p t => ∃ g, SerialInv t { γ with bulk := g } segs ((p, sz) :: live) ∧ p % 4096 = 16 ∧
        Act.exec (bulk (BulkAllocator.allocate bulkAllocatorT os (u64 (sz + memForbidden)))) s = .ret (p - 16) t)
      (fun t => SerialInv t γ segs live) s :=
  Act.wp_mono (large_step os h hbig hc) (fun _ _ ht => ht.imp fun _ ht => ⟨ht.1, ht.2.1, ht.2.2.1⟩) fun _ ht => ht.1

/-- Where the page count is zero, the index of the free list is outside the array. -/
theorem large_stuck (os : Os) (hc : ¬ Counted sz) : Act.exec (allocateInCaseTooLargeForBucket os sz) s = .stuck := by
  have hlt : u64 (sz + memForbidden) < 2 ^ 64 := Nat.mod_lt _ (by norm_num)
  exact Act.exec_bind_stuck (Act.exec_zoom_stuck (BulkAllocator.allocate_stuck os (BulkAllocator.pageCountOf_zero hlt hc)))

theorem release_step (h : SerialInv s γ segs live) (he : (p, sz) ∈ live) (hbig : MaxBucketSize < sz)
    (hm : ¬ MergesLive s.w.mem (chunksOf live) (p - memForbidden)) :
    Act.wp (bulk (BulkAllocator.deallocate bulkAllocatorT (p - memForbidden)))
      (fun _ t => ∃ g, SerialInv t { γ with bulk := g } segs (release p live) ∧
        BulkStep bulkAllocatorT γ.bulk (chunksOf live) g (chunksOf (release p live)) s.w t.w) (fun _ => False) s := by
  have hrel : ∀ {e}, e ∈ release p live → e ∈ live ∧ e.1 ≠ p := (mem_release h.nodup).mp
  have hmem : (p - memForbidden, u64 (sz + memForbidden)) ∈ chunksOf live := mem_chunksOf (e := (p, sz)) he hbig
  have hspec := BulkAllocator.deallocate_spec (s := ⟨s.w, s.c.bulkAllocator⟩) h.bulk bulkAllocatorT_fits hmem hm
  rw [bulk, Act.wp_onPart]
  refine Act.wp_mono hspec ?_ fun _ hf => hf
  rintro - ⟨w, c⟩ ⟨g, hI, hst, -⟩
  rw [← chunksOf_release_large h.large h.nodup he hbig] at hI hst
  refine ⟨g, h.bulkStep hI hst.frame hst.fresh rfl (fun e he _ => (hrel he).1)
    (fun e he hl => h.large e (hrel he).1 hl) ?_, hst⟩
  rw [release_map]
  exact h.nodup.erase p

theorem release_spec (h : SerialInv s γ segs live) (he : (p, sz) ∈ live) (hbig : MaxBucketSize < sz)
    (hm : ¬ MergesLive s.w.mem (chunksOf live) (p - memForbidden)) :
    Act.wp (bulk (BulkAllocator.deallocate bulkAllocatorT (p - memForbidden)))
      (fun _ t => ∃ g, SerialInv t { γ with bulk := g } segs (release p live)) (fun _ => False) s :=
  Act.wp_mono (release_step h he hbig hm) (fun _ _ ht => ht.imp fun _ ht => ht.1) fun _ hf => hf

/-! ### allocate and deallocate -/

theorem allocate_small (os : Os) (hsz : sz ≤ MaxBucketSize) : Act.exec (allocate os sz) s =
    if s.c.buckets (sizeToIndexHalfExp sz) ≠ 0 then Act.exec (popItem (sizeToIndexHalfExp sz)) s
    else Act.exec (allocateInCaseNoFreeBucket os sz (sizeToIndexHalfExp sz)) s := by
  have hi := index_lt hsz
  unfold allocate
  rw [if_pos hsz, Act.exec_bind (Act.exec_assert (decide_eq_true hi)), Act.exec_bind (exec_bucketAt hi)]
  split_ifs <;> rfl

/-- The segments delivered for a request. -/
def requested (os : Os) (s : St SerializableAllocatorBase) (sz : ℕ) : List Segment :=
  if sz ≤ MaxBucketSize ∧ s.c.buckets (sizeToIndexHalfExp sz) = 0 then delivered os s (sizeToIndexHalfExp sz) else []

/-- How a request got the item `p`: it was the first of its list, or the list
was empty and segments were delivered. -/
inductive Served (os : Os) (s : St SerializableAllocatorBase) (γ : SerialGhost) (sz p : ℕ) : SerialGhost → Prop where
  | popped (l : List ℕ) (hl : γ.lists (sizeToIndexHalfExp sz) = p :: l) (h0 : requested os s sz = []) :
      Served os s γ sz p (γ.relist (sizeToIndexHalfExp sz) l)
  | refilled (g : Ghost) (l : List ℕ) (mp : MultipageData) (σ : Segment)
      (hl : γ.lists (sizeToIndexHalfExp sz) = []) (hR : Refill os s (sizeToIndexHalfExp sz) p l mp σ)
      (hd : requested os s sz = delivered os s (sizeToIndexHalfExp sz)) :
      Served os s γ sz p (SerialGhost.relist { γ with pages := g } (sizeToIndexHalfExp sz) l)

theorem allocate_small_step (os : Os) (h : SerialInv s γ segs live) (hsz : sz ≤ MaxBucketSize) :
    Act.wp (allocate os sz)
      (fun p t => ∃ γ', Served os s γ sz p γ' ∧ SerialInv t γ' (requested os s sz ++ segs) ((p, sz) :: live) ∧
        SmallStep γ γ' live s.w t.w)
      (fun t => requested os s sz = [] ∧ ∃ g, SerialInv t { γ with pages := g } segs live ∧
        SmallStep γ { γ with pages := g } live s.w t.w) s := by
  have hchain := h.chains _ (index_lt hsz)
  have hexec := allocate_small (s := s) os hsz
  have hreq : requested os s sz =
      if s.c.buckets (sizeToIndexHalfExp sz) = 0 then delivered os s (sizeToIndexHalfExp sz) else [] := by
    unfold requested
    simp only [hsz, true_and]
  by_cases h0 : s.c.buckets (sizeToIndexHalfExp sz) = 0
  · rw [if_neg (not_not_intro h0)] at hexec
    rw [if_pos h0] at hreq
    have hnil : γ.lists (sizeToIndexHalfExp sz) = [] := hchain.unique h0
    rw [hreq]
    refine Act.wp_congr hexec (Act.wp_mono (refill_spec os h hsz) ?_ fun _ ht => ht)
    intro p t ht
    obtain ⟨g, l, mp, σ, hR, ht, hS⟩ := ht
    exact ⟨_, .refilled g l mp σ hnil hR hreq, ht, ⟨hS.frame, hS.fresh, hS.cover, hS.items⟩⟩
  · rw [if_pos h0] at hexec
    rw [if_neg h0] at hreq
    cases hl : γ.lists (sizeToIndexHalfExp sz) with
    | nil =>
      rw [hl] at hchain
      exact absurd hchain h0
    | cons a l =>
      rw [hreq]
      refine Act.wp_congr hexec (Act.wp_mono (pop_spec h hsz hl) ?_ fun _ hf => hf.elim)
      intro p t ht
      obtain ⟨rfl, hw, ht⟩ := ht
      exact ⟨_, .popped l hl hreq, ht, hw ▸ .refl rfl⟩

theorem allocate_small_spec (os : Os) (h : SerialInv s γ segs live) (hsz : sz ≤ MaxBucketSize) :
    Act.wp (allocate os sz)
      (fun p t => ∃ γ', Served os s γ sz p γ' ∧ SerialInv t γ' (requested os s sz ++ segs) ((p, sz) :: live))
      (fun t => requested os s sz = [] ∧ ∃ g, SerialInv t { γ with pages := g } segs live) s :=
  Act.wp_mono (allocate_small_step os h hsz) (fun _ _ ht => ht.imp fun _ ht => ⟨ht.1, ht.2.1⟩)
    fun _ ht => ⟨ht.1, ht.2.imp fun _ ht => ht.1⟩

theorem allocate_large (os : Os) (hbig : MaxBucketSize < sz) :
    Act.exec (allocate os sz) s = Act.exec (allocateInCaseTooLargeForBucket os sz) s := by
  unfold allocate
  rw [if_neg (Nat.not_le.mpr hbig)]

theorem ptrToPageStart_chunk (h : p % 4096 = 16) : SoundingCfg.ptrToPageStart p = p - memForbidden := by
  unfold SoundingCfg.ptrToPageStart
  rw [PAGE_SIZE_EXP_eq, Nat.shiftRight_eq_div_pow, Nat.shiftLeft_eq, memForbidden_eq]
  omega

/-- The address of an item tells the bucket it came from. -/
theorem SerialInv.deallocate_small (h : SerialInv s γ segs live) (he : (p, sz) ∈ live) (hsz : sz ≤ MaxBucketSize) :
    Act.exec (deallocate p) s = Act.exec (pushItem (sizeToIndexHalfExp sz) p) s := by
  obtain ⟨hitem, -⟩ := h.small _ he hsz
  unfold deallocate
  rw [if_pos (h.item_pos hitem), if_pos, h.item_index hitem]
  rw [memForbidden_eq]
  exact (and_page_mask p).trans_ne (h.item_offset hitem)

/-- The offset of a chunk tells that it is one. -/
theorem SerialInv.deallocate_large (h : SerialInv s γ segs live) (he : (p, sz) ∈ live) (hbig : MaxBucketSize < sz) :
    Act.exec (deallocate p) s =
      Act.exec (SerializableAllocatorBase.bulk (BulkAllocator.deallocate bulkAllocatorT (p - memForbidden))) s := by
  have hoff := h.large _ he hbig
  simp only at hoff
  unfold deallocate
  rw [if_pos (by omega), if_neg, ptrToPageStart_chunk hoff]
  rw [memForbidden_eq]
  exact not_not.mpr ((and_page_mask p).trans hoff)

/-! ### The client's writes -/

/-- The client may write the word at `a`: it is one of an item it holds, or one
of a chunk behind the header. -/
def Owns (live : List (ℕ × ℕ)) (a : ℕ) : Prop :=
  a % 8 = 0 ∧ ((∃ e ∈ live, e.2 ≤ MaxBucketSize ∧ e.1 ≤ a ∧ a + 8 ≤ e.1 + itemSize e.2) ∨ Writable (chunksOf live) a)

instance (live : List (ℕ × ℕ)) (a : ℕ) : Decidable (Owns live a) := by
  unfold Owns
  infer_instance

theorem SerialInv.write (h : SerialInv s γ segs live) (ha : Owns live a) (v : ℕ) :
    SerialInv ⟨{ s.w with mem := store s.w.mem a v }, s.c⟩ γ segs live := by
  obtain ⟨-, ⟨e, he, hs, h1, h2⟩ | hw⟩ := ha
  · have hin : Within e.1 (itemSize e.2) a := ⟨h1, by omega⟩
    refine h.relist ?_ ?_ (fun x hx => store_ne ?_) (fun j hj => ?_) h.listed rfl h.small h.large h.nodup
    · rfl
    · rfl
    · rintro rfl
      exact hx (h.item_held (h.small e he hs).1 hin)
    · refine (h.chains j hj).congr fun b hb => store_ne ?_
      rintro rfl
      exact h.listed_apart he hs hj hb hin
  · have howned : γ.bulk.Owned bulkAllocatorT (chunksOf live) a := by
      obtain ⟨-, e, he, h1, h2⟩ := hw
      exact h.bulk.live_bytes_owned bulkAllocatorT_fits he ⟨by omega, by omega⟩
    refine { h with bulk := h.bulk.write bulkAllocatorT_fits hw v, chains := fun i hi => ?_ }
    refine (h.chains i hi).congr fun b hb => store_ne ?_
    rintro rfl
    have hitem := h.listed i hi b hb
    exact h.apart b howned (h.item_held hitem (h.item_self hitem))

/-! ### initialize -/

theorem init_spec (s : St SerializableAllocatorBase) :
    Act.wp init (fun _ t => SerialInv t .empty [] []) (fun _ => False) s := by
  simp only [init, pages, bulk, Act.wp_bind, Act.wp_onSelf, Act.wp_onPart]
  refine SoundingAddressPageAllocator.init_spec _ fun c hc => ?_
  refine BulkAllocator.init_spec _ fun b hb => ?_
  refine
    { bulk := hb, pages := hc, batches := fun i _ => dvd_zero _, apart := ?_
      segments := ⟨fun σ hσ => absurd hσ List.not_mem_nil, .nil⟩, chains := fun i hi => if_pos hi
      listed := fun _ _ a ha => absurd ha List.not_mem_nil, small := fun e he => absurd he List.not_mem_nil
      large := fun e he => absurd he List.not_mem_nil, nodup := List.nodup_nil }
  intro x hx
  obtain ⟨r, hr, -⟩ := hx
  cases hr

end SerializableAllocatorBase

end IibMalloc

/-
# SerializableAllocatorBase: segments and their items

A segment is one of the runs of pages that `getMultipage` delivers for a bucket,
and its items are the slots that formatting links. The pages of a segment are
pages of its bucket (`SegmentInv`), so an address in it tells the bucket
(`SegmentInv.addressToIdx`), and two items that share an address are one
(`SegmentsInv.item_unique`). No item starts at the forbidden offset
(`SegmentInv.item_offset`), where every chunk of the `BulkAllocator` has its
bytes for the client.
-/
import IibMalloc.SerializableFormat
import IibMalloc.SoundingSegments

namespace IibMalloc

open Lib

/-! ### What the page allocator holds -/

namespace SoundingAddressPageAllocator

variable {cfg : SoundingCfg} {g g' : Ghost} {calls calls' : List OsCall} {c : SoundingAddressPageAllocator} {x : ℕ}

theorem SoundInv.held_mapped (h : SoundInv cfg calls c g) (hx : g.Held cfg x) : Mapped calls x := by
  rcases hx with hx | ⟨p, hp, hx⟩
  · exact h.mapped x hx
  · exact mapped_of_committed ((h.coll.mapped p hp).mapped x hx)

/-- The mappings of what is held are all that the invariant needs of the
operating system. -/
theorem SoundInv.transport (h : SoundInv cfg calls c g)
    (hp : ∀ x, g.Held cfg x → pageState calls' x = pageState calls x) : SoundInv cfg calls' c g := by
  refine { h with coll := { h.coll with mapped := fun p hpp => ?_ }, mapped := fun x hx => ?_
                  committed := fun idx hidx j hj x hx => ?_ }
  · have hpm := h.coll.mapped p hpp
    exact ⟨hpm.aligned, hpm.pos, fun x hx => (hp x (Or.inr ⟨p, hpp, hx⟩)).trans (hpm.mapped x hx)⟩
  · unfold Mapped
    rw [hp x (Or.inl hx)]
    exact h.mapped x hx
  · have hcom := h.committed idx hidx j hj x hx
    obtain ⟨t, -, h2, h3⟩ := hx
    have hle : committedAt cfg.commit_page_cnt (usedAt cfg.pages_per_bucket (g.n idx) (j + 1)) ≤
        cfg.pages_per_bucket :=
      committedAt_le cfg.commit_page_cnt_pos cfg.commit_dvd (min_le_left _ _)
    have hin := SoundInv.inBlock hj (SoundingCfg.within_block (h.block_at hj) hidx (by omega) h3)
    exact (hp x (Or.inl hin)).trans hcom

theorem SoundInv.out_inBlock (h : SoundInv cfg calls c g) (hx : g.Out cfg x) : g.InBlock cfg x := by
  obtain ⟨idx, hidx, m, hm, hx⟩ := hx
  have hj := h.div_lt hidx hm
  exact SoundInv.inBlock hj (SoundingCfg.within_block (h.block_at hj) hidx
    (Nat.mod_lt m cfg.pages_per_bucket_pos) hx)

/-- A page that was handed out is not touched by later calls. -/
theorem SoundInv.out_keep (h : SoundInv cfg calls c g) (hx : g.Out cfg x) : g.Keep cfg calls x :=
  ⟨h.mapped x (h.out_inBlock hx), fun _ => hx⟩

/-- What a call leaves of the world for others: what is mapped and not held. -/
theorem PageStep.others {idx : ℕ} {w w' : World} (h : PageStep cfg idx w w' g g') :
    Unchanged (fun x => Mapped w.calls x ∧ ¬ g.Held cfg x) w w' :=
  h.frame.mono fun _ hx => ⟨hx.1, fun hb => absurd (Or.inl hb) hx.2⟩

theorem PageStep.freshHeld {idx : ℕ} {w w' : World} (h : PageStep cfg idx w w' g g') (hx : g'.Held cfg x) :
    g.Held cfg x ∨ ¬ Mapped w.calls x := by
  by_contra hn
  rw [not_or, not_not] at hn
  rcases hx with hx | ⟨p, hp, hx⟩
  · exact hn.1 (Or.inl (h.fresh x hx hn.2))
  · rcases h.freshPages p hp with hp | hp
    · exact hn.1 (Or.inr ⟨p, hp, hx⟩)
    · exact hp x hx hn.2

end SoundingAddressPageAllocator

namespace SerializableAllocatorBase

open SoundingAddressPageAllocator

/-! ### Segments -/

/-- A run of pages delivered for bucket `idx`. -/
structure Segment where
  idx : ℕ
  ptr : ℕ
  sz : ℕ
deriving DecidableEq, Repr

namespace Segment

/-- The bytes of an item. -/
def bucketSz (σ : Segment) : ℕ := indexToBucketSizeHalfExp σ.idx

def items (σ : Segment) : List ℕ := SerializableAllocatorBase.items σ.ptr σ.sz σ.bucketSz

def region (σ : Segment) : ℕ × ℕ := (σ.ptr, σ.sz)

/-- The segments have no address in common. -/
def Apart (σ τ : Segment) : Prop := IibMalloc.Apart σ.region τ.region

instance : Std.Symm Segment.Apart := ⟨fun _ _ h => Std.Symm.symm (r := IibMalloc.Apart) _ _ h⟩

end Segment

/-- The addresses of a segment are in pages of its bucket that were handed out. -/
structure SegmentInv (g : Ghost) (σ : Segment) : Prop where
  idx : σ.idx ≤ 20
  aligned : 4096 ∣ σ.ptr
  size : 4096 ∣ σ.sz
  page : ∀ x, Within σ.ptr σ.sz x → ∃ m < g.n σ.idx, Within (g.pageOf pageAllocatorT σ.idx m) 4096 x

structure SegmentsInv (g : Ghost) (segs : List Segment) : Prop where
  each : ∀ σ ∈ segs, SegmentInv g σ
  apart : segs.Pairwise Segment.Apart

/-- `a` is an item of bucket `i`. -/
def IsItem (segs : List Segment) (i a : ℕ) : Prop := ∃ σ ∈ segs, σ.idx = i ∧ a ∈ σ.items

variable {g g' : Ghost} {calls : List OsCall} {c : SoundingAddressPageAllocator} {σ τ : Segment}
  {segs : List Segment} {a b i j x : ℕ}

theorem bucket_lt (hi : i ≤ 20) : i < pageAllocatorT.bucket_cnt := hi.trans_lt (by decide)

namespace SegmentInv

theorem bucketSz (h : SegmentInv g σ) : ItemSize σ.bucketSz := itemSize_of_index h.idx

/-- The bytes of an item are in its segment. -/
theorem item_within (h : SegmentInv g σ) (ha : a ∈ σ.items) (hx : Within a σ.bucketSz x) :
    Within σ.ptr σ.sz x := by
  obtain ⟨k, hk, rfl, -⟩ := (mem_items h.aligned).mp ha
  have h1 := Nat.mul_le_mul_right σ.bucketSz hk
  have h2 := Nat.div_mul_le_self σ.sz σ.bucketSz
  rw [Nat.succ_mul] at h1
  unfold Within at *
  omega

theorem item_self (h : SegmentInv g σ) (ha : a ∈ σ.items) : Within σ.ptr σ.sz a := by
  have := h.bucketSz.ge
  exact h.item_within ha ⟨le_rfl, by omega⟩

/-- No item starts at the forbidden offset. -/
theorem item_offset (h : SegmentInv g σ) (ha : a ∈ σ.items) : a % 4096 ≠ 16 := by
  obtain ⟨k, -, rfl, hk⟩ := (mem_items h.aligned).mp ha
  have := h.aligned
  omega

theorem item_dvd (h : SegmentInv g σ) (ha : a ∈ σ.items) : 8 ∣ a := by
  obtain ⟨k, -, rfl, -⟩ := (mem_items h.aligned).mp ha
  exact (Nat.dvd_add_right ((by norm_num : 8 ∣ 4096).trans h.aligned)).mpr (h.bucketSz.dvd.mul_left k)

/-- Items of one segment that meet are one. -/
theorem item_unique (h : SegmentInv g σ) (ha : a ∈ σ.items) (hb : b ∈ σ.items) (hx : Within a σ.bucketSz x)
    (hx' : Within b σ.bucketSz x) : a = b := by
  obtain ⟨k, -, rfl, -⟩ := (mem_items h.aligned).mp ha
  obtain ⟨k', -, rfl, -⟩ := (mem_items h.aligned).mp hb
  unfold Within at hx hx'
  rcases Nat.lt_trichotomy k k' with hk | rfl | hk
  · have := Nat.mul_le_mul_right σ.bucketSz hk
    rw [Nat.succ_mul] at this
    omega
  · rfl
  · have := Nat.mul_le_mul_right σ.bucketSz hk
    rw [Nat.succ_mul] at this
    omega

theorem out (h : SegmentInv g σ) (hx : Within σ.ptr σ.sz x) : g.Out pageAllocatorT x := by
  obtain ⟨m, hm, hw⟩ := h.page x hx
  exact ⟨σ.idx, bucket_lt h.idx, m, hm, hw⟩

theorem held (h : SegmentInv g σ) (hI : SoundInv pageAllocatorT calls c g) (hx : Within σ.ptr σ.sz x) :
    g.Held pageAllocatorT x := Or.inl (hI.out_inBlock (h.out hx))

theorem committed (h : SegmentInv g σ) (hI : SoundInv pageAllocatorT calls c g) (hx : Within σ.ptr σ.sz x) :
    pageState calls x = .committed := by
  obtain ⟨m, hm, hw⟩ := h.page x hx
  exact hI.given_committed (bucket_lt h.idx) hm hw

/-- An address of a segment tells its bucket. -/
theorem addressToIdx (h : SegmentInv g σ) (hx : Within σ.ptr σ.sz x) :
    pageAllocatorT.addressToIdx x = σ.idx := by
  obtain ⟨m, hm, hw⟩ := h.page x hx
  exact SoundingCfg.addressToIdx_of_within (bucket_lt h.idx)
    (Nat.mod_lt m pageAllocatorT.pages_per_bucket_pos) hw

theorem pos (h : SegmentInv g σ) (hI : SoundInv pageAllocatorT calls c g) (hx : Within σ.ptr σ.sz x) : x ≠ 0 := by
  obtain ⟨m, hm, hw⟩ := h.page x hx
  have := (hI.pageOf_at (bucket_lt h.idx) hm).2
  have := hw.1
  omega

/-- The page allocator went on. -/
theorem step (h : SegmentInv g σ) (hI : SoundInv pageAllocatorT calls c g) (hb : g.blocks <+: g'.blocks)
    (hn : ∀ i, g.n i ≤ g'.n i) : SegmentInv g' σ := by
  refine ⟨h.idx, h.aligned, h.size, fun x hx => ?_⟩
  obtain ⟨m, hm, hw⟩ := h.page x hx
  refine ⟨m, hm.trans_le (hn _), ?_⟩
  rwa [pageOf_stable hb (hI.div_lt (bucket_lt h.idx) hm)]

end SegmentInv

namespace SegmentsInv

/-- Segments that meet are one. -/
theorem unique (h : SegmentsInv g segs) (hσ : σ ∈ segs) (hτ : τ ∈ segs) (hx : Within σ.ptr σ.sz x)
    (hx' : Within τ.ptr τ.sz x) : σ = τ := by
  by_contra hne
  exact h.apart.forall hσ hτ hne x hx hx'

/-- Items that meet are one, of one bucket. -/
theorem item_unique (h : SegmentsInv g segs) (ha : IsItem segs i a) (hb : IsItem segs j b)
    (hx : Within a (indexToBucketSizeHalfExp i) x) (hx' : Within b (indexToBucketSizeHalfExp j) x) : i = j ∧ a = b := by
  obtain ⟨σ, hσ, rfl, ha⟩ := ha
  obtain ⟨τ, hτ, rfl, hb⟩ := hb
  obtain rfl := h.unique hσ hτ ((h.each σ hσ).item_within ha hx) ((h.each τ hτ).item_within hb hx')
  exact ⟨rfl, (h.each σ hσ).item_unique ha hb hx hx'⟩

/-- An item is of one bucket only. -/
theorem bucket_unique (h : SegmentsInv g segs) (ha : IsItem segs i a) (hb : IsItem segs j a) : i = j := by
  obtain ⟨σ, hσ, rfl, ha⟩ := ha
  obtain ⟨τ, hτ, rfl, hb⟩ := hb
  rw [h.unique hσ hτ ((h.each σ hσ).item_self ha) ((h.each τ hτ).item_self hb)]

end SegmentsInv

/-! ### What is delivered -/

/-- The segments of a multipage. -/
def segmentsOf (idx : ℕ) (mp : MultipageData) : List Segment :=
  ⟨idx, mp.ptr1, mp.sz1⟩ :: if mp.ptr2 = 0 then [] else [⟨idx, mp.ptr2, mp.sz2⟩]

/-- The bytes from `ptr` on are in the pages `lo, …, hi - 1` of bucket `i`. -/
def Covers (g : Ghost) (i lo hi ptr sz : ℕ) : Prop :=
  ∀ x, Within ptr sz x → ∃ m, lo ≤ m ∧ m < hi ∧ Within (g.pageOf pageAllocatorT i m) 4096 x

variable {lo hi lo' hi' ptr sz ptr' sz' m cut : ℕ} {mp : MultipageData}

/-- Pages in a row are covered. -/
theorem Covers.of_pages (hp : ∀ t, lo ≤ t → t < hi → g.pageOf pageAllocatorT i (m + t) = ptr + (t - lo) * 4096) :
    Covers g i (m + lo) (m + hi) ptr ((hi - lo) * 4096) := fun x hx => by
  obtain ⟨h1, h2⟩ := hx
  refine ⟨m + (lo + (x - ptr) / 4096), by omega, by omega, ?_⟩
  rw [hp _ (by omega) (by omega)]
  unfold Within
  omega

/-- Other pages have no address in common. -/
theorem Covers.apart (h : Covers g i lo hi ptr sz) (h' : Covers g j lo' hi' ptr' sz')
    (hI : SoundInv pageAllocatorT calls c g) (hi20 : i ≤ 20) (hj20 : j ≤ 20) (hn : hi ≤ g.n i) (hn' : hi' ≤ g.n j)
    (hd : i = j → hi ≤ lo' ∨ hi' ≤ lo) : IibMalloc.Apart (ptr, sz) (ptr', sz') := fun x hx hx' => by
  obtain ⟨m, h1, h2, hw⟩ := h x hx
  obtain ⟨m', h1', h2', hw'⟩ := h' x hx'
  obtain ⟨hij, rfl⟩ := hI.pageOf_unique (bucket_lt hi20) (bucket_lt hj20)
    (hI.div_lt (bucket_lt hi20) (h2.trans_le hn)) (hI.div_lt (bucket_lt hj20) (h2'.trans_le hn')) hw hw'
  omega

/-- The segments that `getMultipage` delivered join those there were. -/
theorem SegmentsInv.deliver {calls' : List OsCall} {c' : SoundingAddressPageAllocator} (h : SegmentsInv g segs)
    (hI : SoundInv pageAllocatorT calls c g) (hI' : SoundInv pageAllocatorT calls' c' g')
    (hb : g.blocks <+: g'.blocks) (hi : i ≤ 20)
    (hn : g'.n = put g.n i (g.n i + pageAllocatorT.multipage_page_cnt))
    (hs : Segments pageAllocatorT g' i (g.n i) mp cut) : SegmentsInv g' (segmentsOf i mp ++ segs) := by
  have hself : g'.n i = g.n i + pageAllocatorT.multipage_page_cnt := by rw [hn, put, if_pos rfl]
  have hle : ∀ k, g.n k ≤ g'.n k := fun k => by
    rw [hn]
    unfold put
    split_ifs with hk
    · rw [hk]
      omega
    · exact le_rfl
  have hcut := hs.le
  have hc1 : Covers g' i (g.n i + 0) (g.n i + cut) mp.ptr1 mp.sz1 := by
    rw [hs.sz1]
    exact Covers.of_pages (m := g.n i) fun t _ ht => hs.first t ht
  have hc2 : Covers g' i (g.n i + cut) (g.n i + pageAllocatorT.multipage_page_cnt) mp.ptr2 mp.sz2 := by
    rw [hs.sz2]
    exact Covers.of_pages fun t h1 h2 => hs.second t h1 h2
  have hD := hs.delivered hI' (bucket_lt hi) (by rw [hself])
  obtain ⟨hp1, hsz1, hp2, hsz2⟩ := hD.aligned
  have hinv1 : SegmentInv g' ⟨i, mp.ptr1, mp.sz1⟩ := ⟨hi, hp1, hsz1, fun x hx => by
    obtain ⟨m, -, h2, hw⟩ := hc1 x hx
    exact ⟨m, by show m < g'.n i; omega, hw⟩⟩
  have hinv2 : SegmentInv g' ⟨i, mp.ptr2, mp.sz2⟩ := ⟨hi, hp2, hsz2, fun x hx => by
    obtain ⟨m, -, h2, hw⟩ := hc2 x hx
    exact ⟨m, by show m < g'.n i; omega, hw⟩⟩
  -- the segments there were have the pages handed out before
  have hold : ∀ σ ∈ segs, Covers g' σ.idx 0 (g.n σ.idx) σ.ptr σ.sz := fun σ hσ x hx => by
    obtain ⟨m, hm, hw⟩ := (h.each σ hσ).page x hx
    refine ⟨m, Nat.zero_le m, hm, ?_⟩
    rwa [pageOf_stable hb (hI.div_lt (bucket_lt (h.each σ hσ).idx) hm)]
  have hap : ∀ {lo hi ptr sz : ℕ}, Covers g' i (g.n i + lo) hi ptr sz → hi ≤ g'.n i → ∀ τ ∈ segs,
      Segment.Apart ⟨i, ptr, sz⟩ τ := fun {lo hi' ptr sz} hc hn τ hτ =>
    hc.apart (hold τ hτ) hI' hi (h.each τ hτ).idx hn (hle τ.idx) fun hij => Or.inr (by rw [← hij]; omega)
  have heach : ∀ σ ∈ segs, SegmentInv g' σ := fun σ hσ => (h.each σ hσ).step hI hb hle
  unfold segmentsOf
  split_ifs with h2
  · refine ⟨fun σ hσ => ?_, List.pairwise_cons.mpr ⟨fun τ hτ => hap hc1 (by omega) τ hτ, h.apart⟩⟩
    rcases List.mem_cons.mp hσ with rfl | hσ
    · exact hinv1
    · exact heach σ hσ
  · refine ⟨fun σ hσ => ?_, List.pairwise_cons.mpr ⟨fun τ hτ => ?_, List.pairwise_cons.mpr
      ⟨fun τ hτ => hap hc2 (by omega) τ hτ, h.apart⟩⟩⟩
    · rcases List.mem_cons.mp hσ with rfl | hσ
      · exact hinv1
      rcases List.mem_cons.mp hσ with rfl | hσ
      · exact hinv2
      · exact heach σ hσ
    · rcases List.mem_cons.mp hτ with rfl | hτ
      · exact hc1.apart hc2 hI' hi hi (by omega) (by omega) fun _ => Or.inl le_rfl
      · exact hap hc1 (by omega) τ hτ

end SerializableAllocatorBase

end IibMalloc

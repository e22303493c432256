/-
# SerializableAllocatorBase: the footprint of a bucket

The segments of a bucket are never given back before `deinitialize`. They are
asked for when the list of the bucket is empty, and as long as no slot is lost
the client then holds every item there is (`Conserved.full`). The items of a
multipage are at least three quarters of its bytes (`Dense`). So the segments
of a bucket are at most four thirds of what the client held of it at some earlier
moment of the run, after the first of its operations, and one multipage
(`footprint_run`).
-/
import IibMalloc.SerializableSlots

namespace IibMalloc

open Lib

namespace SerializableAllocatorBase

open SoundingAddressPageAllocator
open BulkAllocator (release)

variable {os : Os} {r r' r₀ : SerialRun} {op : SerialOp} {γ γ' : SerialGhost} {segs segs' : List Segment}
  {s : St SerializableAllocatorBase} {live : List (ℕ × ℕ)} {i p ptr sz z : ℕ}

/-! ### The segments of a bucket -/

/-- The segments of bucket `i`. -/
def segmentsIn (segs : List Segment) (i : ℕ) : List Segment := segs.filter fun σ => σ.idx = i

/-- Their bytes. -/
def footprint (segs : List Segment) (i : ℕ) : ℕ := ((segmentsIn segs i).map Segment.sz).sum

/-- The items they were cut into. -/
def itemsIn (segs : List Segment) (i : ℕ) : List ℕ := (segmentsIn segs i).flatMap Segment.items

/-- What the client holds of bucket `i`. -/
def heldIn (live : List (ℕ × ℕ)) (i : ℕ) : List ℕ := (live.filter fun e => sizeToIndexHalfExp e.2 = i).map Prod.fst

theorem footprint_append : footprint (segs' ++ segs) i = footprint segs' i + footprint segs i := by
  unfold footprint segmentsIn
  rw [List.filter_append, List.map_append, List.sum_append]

theorem itemsIn_append : itemsIn (segs' ++ segs) i = itemsIn segs' i ++ itemsIn segs i := by
  unfold itemsIn segmentsIn
  rw [List.filter_append, List.flatMap_append]

theorem segmentsIn_self (h : ∀ σ ∈ segs, σ.idx = i) : segmentsIn segs i = segs :=
  List.filter_eq_self.mpr fun σ hσ => decide_eq_true (h σ hσ)

theorem segmentsIn_other {j : ℕ} (h : ∀ σ ∈ segs, σ.idx = i) (hij : i ≠ j) : segmentsIn segs j = [] :=
  List.filter_eq_nil_iff.mpr fun σ hσ => by simpa [h σ hσ] using hij

theorem mem_itemsIn {a : ℕ} : a ∈ itemsIn segs i ↔ IsItem segs i a := by
  unfold itemsIn segmentsIn IsItem
  simp only [List.mem_flatMap, List.mem_filter, decide_eq_true_eq, and_assoc]

theorem SegmentInv.items_nodup {g : Ghost} {σ : Segment} (h : SegmentInv g σ) : σ.items.Nodup := by
  have hpos := h.bucketSz.ge
  unfold Segment.items items itemsFrom
  refine List.Nodup.filter _ ((List.nodup_map_iff_inj_on List.nodup_range').mpr ?_)
  intro j _ k _ hjk
  exact Nat.eq_of_mul_eq_mul_right (by omega) (Nat.add_left_cancel hjk)

/-- No item is cut twice. -/
theorem SegmentsInv.items_nodup {g : Ghost} (h : SegmentsInv g segs) : (itemsIn segs i).Nodup := by
  refine List.nodup_flatMap.mpr ⟨fun σ hσ => (h.each σ (List.mem_of_mem_filter hσ)).items_nodup, ?_⟩
  refine (h.apart.sublist List.filter_sublist).imp_of_mem fun {σ τ} hσ hτ hap a ha hb => ?_
  have hσ := h.each σ (List.mem_of_mem_filter hσ)
  have hτ := h.each τ (List.mem_of_mem_filter hτ)
  exact hap a (hσ.item_self ha) (hτ.item_self hb)

/-- Where the list of a bucket is empty the client holds all its items. -/
theorem Conserved.full (h : Conserved r γ) (hI : SerialInv r.s γ r.segs r.live)
    (hsmall : ∀ e ∈ r.live, e.2 ≤ MaxBucketSize) (hnil : γ.lists i = []) :
    (itemsIn r.segs i).length ≤ (heldIn r.live i).length := by
  refine (List.subperm_of_subset hI.segments.items_nodup fun a ha => ?_).length_le
  obtain ⟨σ, hσ, rfl, hitem⟩ := mem_itemsIn.mp ha
  rcases h σ hσ a hitem with hl | hl
  · obtain ⟨e, he, rfl⟩ := List.mem_map.mp hl
    have hidx := hI.segments.bucket_unique (hI.small e he (hsmall e he)).1 ⟨σ, hσ, rfl, hitem⟩
    exact List.mem_map_of_mem (List.mem_filter.mpr ⟨he, decide_eq_true hidx⟩)
  · rw [hnil] at hl
    cases hl

/-! ### The items of a multipage -/

/-- The items of a segment of `sz` bytes, wherever it starts. -/
def itemCount (sz z : ℕ) : ℕ := ((List.range' 0 (sz / z)).filter fun k => k * z % 4096 ≠ 16).length

theorem length_items (hp : 4096 ∣ ptr) : (items ptr sz z).length = itemCount sz z := by
  unfold items itemsFrom itemCount
  rw [List.filter_map, List.length_map]
  congr 2
  funext k
  simp only [Function.comp, getOffsetInPage_slot hp, memForbidden_eq]

def multipageBytes : ℕ := pageAllocatorT.multipage_page_cnt * PAGE_SIZE

/-- A whole multipage, and one without one of its pages, where an item does not
fit into a page. -/
theorem itemCount_ge (hi : i ≤ 20) :
    3 * (8 * 4096) ≤ 4 * (indexToBucketSizeHalfExp i * itemCount (8 * 4096) (indexToBucketSizeHalfExp i)) ∧
      (4096 < indexToBucketSizeHalfExp i →
        3 * (8 * 4096) ≤ 4 * (indexToBucketSizeHalfExp i * itemCount (7 * 4096) (indexToBucketSizeHalfExp i))) := by
  have hall : ∀ i < 21,
      3 * (8 * 4096) ≤ 4 * (indexToBucketSizeHalfExp i * itemCount (8 * 4096) (indexToBucketSizeHalfExp i)) ∧
        (4096 < indexToBucketSizeHalfExp i → 3 * (8 * 4096) ≤
          4 * (indexToBucketSizeHalfExp i * itemCount (7 * 4096) (indexToBucketSizeHalfExp i))) := by decide +kernel
  exact hall i (by omega)

/-- Three quarters of the segments of a bucket are items. -/
def Dense (segs : List Segment) (i : ℕ) : Prop :=
  3 * footprint segs i ≤ 4 * (indexToBucketSizeHalfExp i * (itemsIn segs i).length)

theorem Dense.append (h' : Dense segs' i) (h : Dense segs i) : Dense (segs' ++ segs) i := by
  unfold Dense at *
  rw [footprint_append, itemsIn_append, List.length_append, Nat.mul_add, Nat.mul_add, Nat.mul_add]
  exact Nat.add_le_add h' h

theorem Dense.nil (h : segmentsIn segs i = []) : Dense segs i := by
  unfold Dense footprint
  rw [h]
  exact Nat.zero_le _

/-- What a call for a multipage delivers. -/
theorem delivered_cases (os : Os) (h : SerialInv s γ segs live) (hi : i ≤ 20) :
    delivered os s i = [] ∨ ∃ mp, delivered os s i = segmentsOf i mp ∧ Delivered pageAllocatorT mp := by
  have hspec : Act.wp (pages (getMultipage pageAllocatorT os i)) (fun mp _ => Delivered pageAllocatorT mp)
      (fun _ => True) s := by
    rw [pages, Act.wp_onPart]
    refine Act.wp_mono (getMultipage_spec os (s := ⟨s.w, s.c.pageAllocator⟩) h.pages (by decide) (bucket_lt hi)
      (h.batches i (hi.trans_lt (by decide)))) ?_ fun _ _ => trivial
    rintro mp t ⟨g, cut, hI, -, hn, hS, -⟩
    exact hS.delivered hI (bucket_lt hi) (by rw [hn, put, if_pos rfl])
  unfold delivered
  split
  · exact Or.inr ⟨_, rfl, Act.exec_ret hspec ‹_›⟩
  · exact Or.inl rfl

theorem segmentsOf_idx {mp : MultipageData} : ∀ σ ∈ segmentsOf i mp, σ.idx = i := fun σ hσ => by
  rcases mem_segmentsOf.mp hσ with rfl | ⟨-, rfl⟩
  · rfl
  · rfl

/-- A multipage that no cut splits in two parts with room for an item is dense. -/
theorem refill_dense {l : List ℕ} {mp : MultipageData} {σ : Segment} (hR : Refill os s i p l mp σ)
    (h : SerialInv s γ segs live) (hi : i ≤ 20)
    (hcut : ∀ cut < pageAllocatorT.multipage_page_cnt, 0 < cut → CutAt os s i cut →
      cut * PAGE_SIZE < indexToBucketSizeHalfExp i ∨
        (pageAllocatorT.multipage_page_cnt - cut) * PAGE_SIZE < indexToBucketSizeHalfExp i) :
    footprint (delivered os s i) i = multipageBytes ∧ Dense (delivered os s i) i := by
  obtain ⟨hwhole, hbut⟩ := itemCount_ge hi
  have hle := (itemSize_of_index hi).le
  have hd := hR.delivered
  rcases delivered_cases os h hi with hnil | ⟨mp', hd', hD⟩
  · rw [hnil] at hd
    cases hd
  obtain ⟨hp1, -, hp2, -⟩ := hD.aligned
  have hsum := hD.sum
  unfold Dense footprint itemsIn
  rw [hd', segmentsIn_self segmentsOf_idx]
  by_cases h2 : mp'.ptr2 = 0
  · have hone : segmentsOf i mp' = [⟨i, mp'.ptr1, mp'.sz1⟩] := by rw [segmentsOf, if_pos h2]
    have hsz : mp'.sz1 = 8 * 4096 := by rw [hD.null.mp h2] at hsum; exact hsum
    have hlen : (Segment.items ⟨i, mp'.ptr1, mp'.sz1⟩).length = itemCount (8 * 4096) (indexToBucketSizeHalfExp i) := by
      rw [← hsz]
      exact length_items hp1
    rw [hone, List.map_singleton, List.sum_singleton, List.flatMap_singleton, hlen, hsz]
    exact ⟨rfl, hwhole⟩
  · have htwo : segmentsOf i mp' = [⟨i, mp'.ptr1, mp'.sz1⟩, ⟨i, mp'.ptr2, mp'.sz2⟩] := by rw [segmentsOf, if_neg h2]
    -- the parts are those of the cut
    obtain ⟨cut, hpos, hlt, hat, hsz1, hsz2⟩ : ∃ cut, 0 < cut ∧ cut < pageAllocatorT.multipage_page_cnt ∧
        CutAt os s i cut ∧ mp'.sz1 = cut * 4096 ∧ mp'.sz2 = (pageAllocatorT.multipage_page_cnt - cut) * 4096 := by
      rw [hd', htwo, segmentsOf] at hd
      split_ifs at hd with h2'
      · simp at hd
      · simp only [List.cons.injEq, Segment.mk.injEq, true_and, and_true] at hd
        rw [hd.1.2, hd.2.2]
        exact hR.cut h2'
    have hno := hcut cut hlt hpos hat
    have hlen1 : (Segment.items ⟨i, mp'.ptr1, mp'.sz1⟩).length = itemCount mp'.sz1 (indexToBucketSizeHalfExp i) :=
      length_items hp1
    have hlen2 : (Segment.items ⟨i, mp'.ptr2, mp'.sz2⟩).length = itemCount mp'.sz2 (indexToBucketSizeHalfExp i) :=
      length_items hp2
    rw [htwo]
    simp only [List.map_cons, List.map_nil, List.sum_cons, List.sum_nil, List.flatMap_cons, List.flatMap_nil,
      List.append_nil, List.length_append, hlen1, hlen2, Nat.add_zero]
    refine ⟨hsum, ?_⟩
    rw [hsum]
    rw [show pageAllocatorT.multipage_page_cnt = 8 from rfl, PAGE_SIZE_eq] at *
    -- the part without room is one page
    have hbut := hbut (by omega)
    rcases (by omega : cut = 7 ∨ 8 - cut = 7) with h7 | h7
    · rw [hsz1, h7, Nat.mul_add]
      omega
    · rw [hsz2, h7, Nat.mul_add]
      omega

/-! ### Runs -/

/-- A step leaves the segments, or a bucket whose list is empty gets a multipage. -/
theorem SerialMoved.grows (hM : SerialMoved os r r' γ γ' op) (hI : SerialInv r.s γ r.segs r.live)
    (hok : LosesNone os r op) :
    r'.segs = r.segs ∨ ∃ i new, r'.segs = new ++ r.segs ∧ (∀ σ ∈ new, σ.idx = i) ∧ γ.lists i = [] ∧
      footprint new i = multipageBytes ∧ Dense new i := by
  cases hM with
  | served sz p hsz hS hl hs =>
    cases hS with
    | popped l hl h0 => exact Or.inl (by rw [hs, h0, List.nil_append])
    | refilled g l mp σ hl hR hd =>
      have hchain := hI.chains _ (index_lt hsz)
      rw [hl] at hchain
      obtain ⟨hbytes, hdense⟩ := refill_dense hR hI (sizeToIndexHalfExp_le hsz) (hok hchain)
      rw [hd] at hs
      refine Or.inr ⟨_, _, hs, ?_, hl, hbytes, hdense⟩
      rw [hR.delivered]
      exact segmentsOf_idx
  | returned p sz he hsz h hl hs => exact Or.inl hs
  | same op h hl hs => exact Or.inl hs

/-- What holds along a run in which no slot is lost. -/
structure Filled (r : SerialRun) (γ : SerialGhost) : Prop where
  inv : SerialInv r.s γ r.segs r.live
  conserved : Conserved r γ
  small : ∀ e ∈ r.live, e.2 ≤ MaxBucketSize
  dense : ∀ i, Dense r.segs i

theorem Filled.start (h₀ : r₀.Starts) : Filled r₀ .empty := by
  have hI : SerialInv r₀.s .empty r₀.segs r₀.live := .start h₀
  obtain ⟨w, c, -, hl, hs⟩ := h₀
  refine ⟨hI, ?_, ?_, fun i => .nil ?_⟩
  · unfold Conserved
    rw [hs]
    exact fun σ hσ => absurd hσ List.not_mem_nil
  · rw [hl]
    exact fun e he => absurd he List.not_mem_nil
  · rw [hs]
    rfl

theorem Filled.step (h : Filled r γ) (hok : KeepsSlots os r op) (hs : r.step os op = some r') :
    ∃ γ', Filled r' γ' ∧ ∀ i, footprint r'.segs i = footprint r.segs i ∨
      footprint r'.segs i = multipageBytes + footprint r.segs i ∧ γ.lists i = [] := by
  obtain ⟨γ', hI', hM⟩ := h.inv.step (h.inv.keeps_small h.small (SerialRun.allowed hs)) hs
  have hC' := h.conserved.step h.inv h.small hok.2 hM
  have hsmall' := hok.1.live h.small hs
  rcases hM.grows h.inv hok.2 with hsame | ⟨j, new, hnew, hidx, hnil, hbytes, hdense⟩
  · exact ⟨γ', ⟨hI', hC', hsmall', fun i => hsame ▸ h.dense i⟩, fun i => Or.inl (by rw [hsame])⟩
  · have hcases : ∀ i, i = j ∨ segmentsIn new i = [] := fun i => by
      by_cases hij : j = i
      · exact Or.inl hij.symm
      · exact Or.inr (segmentsIn_other hidx hij)
    refine ⟨γ', ⟨hI', hC', hsmall', fun i => ?_⟩, fun i => ?_⟩
    · rw [hnew]
      rcases hcases i with rfl | hi
      · exact hdense.append (h.dense i)
      · exact (Dense.nil hi).append (h.dense i)
    · rw [hnew, footprint_append]
      rcases hcases i with rfl | hi
      · exact Or.inr ⟨by rw [hbytes], hnil⟩
      · left
        rw [footprint, hi]
        exact Nat.zero_add _

theorem Filled.reach (h₀ : r₀.Starts) (hr : Reach (SerialRun.step os) (KeepsSlots os) r₀ r) : ∃ γ, Filled r γ := by
  refine hr.invariant (P := fun r => ∃ γ, Filled r γ) ⟨.empty, .start h₀⟩ ?_
  rintro s t op ⟨γ, h⟩ hok hs
  obtain ⟨γ', h', -⟩ := h.step hok hs
  exact ⟨γ', h'⟩

/-- **The footprint is bounded by what was held.** In a run in which no slot is
lost the segments of a bucket are at most four thirds of the items that the client
held of it after the first operations of the run, as many as it may be, and one
multipage. -/
theorem footprint_run (h₀ : r₀.Starts) {ops : List SerialOp} (hr : Steps (SerialRun.step os) (KeepsSlots os) r₀ ops r)
    (i : ℕ) :
    ∃ first u, first <+: ops ∧ Steps (SerialRun.step os) (KeepsSlots os) r₀ first u ∧
      3 * footprint r.segs i ≤
        4 * (indexToBucketSizeHalfExp i * (heldIn u.live i).length) + 3 * multipageBytes := by
  refine hr.peak (f := fun r => 3 * footprint r.segs i)
    (g := fun r => 4 * (indexToBucketSizeHalfExp i * (heldIn r.live i).length)) ?_ ?_
  · obtain ⟨w, c, -, -, hs⟩ := h₀
    simp only [hs]
    exact Nat.zero_le _
  · intro s t op hr hok hs
    obtain ⟨γ, h⟩ := Filled.reach h₀ hr
    obtain ⟨γ', -, hstep⟩ := h.step hok hs
    rcases hstep i with hsame | ⟨hgrow, hnil⟩
    · exact Or.inl (by simp only [hsame, le_refl])
    · right
      -- the client holds all items of the bucket
      have hfull := h.conserved.full h.inv h.small hnil
      have hitems := Nat.mul_le_mul_left (indexToBucketSizeHalfExp i) hfull
      have hdense := h.dense i
      unfold Dense at hdense
      simp only [hgrow]
      omega

/-- A multipage cut after its first page, of which the client gave back one of two items. -/
theorem footprint_run_four : ∃ r, run (SerialRun.step (Os.linear (638 * 4096)))
      (fun r op => decide (KeepsSlots (Os.linear (638 * 4096)) r op)) .fresh
      [.allocate 8192, .allocate 16, .allocate 8192, .deallocate 2625536] = some r ∧ footprint r.segs 20 = 8 * 4096 ∧
    ∃ first u, first <+: [.allocate 8192, .allocate 16, .allocate 8192, .deallocate 2625536] ∧
      Steps (SerialRun.step (Os.linear (638 * 4096))) (KeepsSlots (Os.linear (638 * 4096))) .fresh first u ∧
      3 * footprint r.segs 20 ≤
        4 * (indexToBucketSizeHalfExp 20 * (heldIn u.live 20).length) + 3 * multipageBytes := by
  obtain ⟨r, hr, hsegs⟩ := Option.map_eq_some_iff.mp (show (run (SerialRun.step (Os.linear (638 * 4096)))
      (fun r op => decide (KeepsSlots (Os.linear (638 * 4096)) r op)) .fresh
      [.allocate 8192, .allocate 16, .allocate 8192, .deallocate 2625536]).map (fun r => footprint r.segs 20) =
        some (8 * 4096) by decide +kernel)
  exact ⟨r, hr, hsegs, footprint_run (SerialRun.init_starts _ _)
    ((Steps.of_run .start hr).mono fun _ _ hok => of_decide_eq_true hok) 20⟩

end SerializableAllocatorBase

end IibMalloc

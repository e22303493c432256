/-
# SerializableAllocatorBase: what becomes of the slots

Each slot of a segment that an item may start at is held by the client or is on
the list of its bucket (`SlotsKept`). Formatting the second segment of a
multipage makes it the list of the bucket, in place of the first, so the items
of the first are lost where both segments have room for one. `slots_run`: in a
run in which that does not happen, no slot is lost.
-/
import IibMalloc.SerializableRuns

namespace IibMalloc

open Lib

namespace SerializableAllocatorBase

open BulkAllocator (release release_map setList_self setList_ne)

variable {os : Os} {r r' r₀ : SerialRun} {op : SerialOp} {γ γ' : SerialGhost} {σ : Segment} {a sz : ℕ}

/-- No request finds its list empty while the next multipage of its bucket is cut
in two parts that both have room for an item. -/
def LosesNone (os : Os) (r : SerialRun) : SerialOp → Prop
  | .allocate sz => r.s.c.buckets (sizeToIndexHalfExp sz) = 0 → ∀ cut < pageAllocatorT.multipage_page_cnt, 0 < cut →
      CutAt os r.s (sizeToIndexHalfExp sz) cut →
      cut * PAGE_SIZE < itemSize sz ∨ (pageAllocatorT.multipage_page_cnt - cut) * PAGE_SIZE < itemSize sz
  | _ => True

instance (r : SerialRun) : (op : SerialOp) → Decidable (LosesNone os r op)
  | .allocate _ => inferInstanceAs (Decidable (_ → ∀ cut < pageAllocatorT.multipage_page_cnt, 0 < cut → _ → _ ∨ _))
  | .deallocate _ | .write _ _ => inferInstanceAs (Decidable True)

/-- The request is for an item, and no slot is lost. -/
def KeepsSlots (os : Os) (r : SerialRun) (op : SerialOp) : Prop := SmallOnly r op ∧ LosesNone os r op

instance (r : SerialRun) (op : SerialOp) : Decidable (KeepsSlots os r op) := by
  unfold KeepsSlots
  infer_instance

/-- Every slot of a segment, but those at the forbidden offset, is held by the
client or on the list of its bucket. -/
def SlotsKept (r : SerialRun) : Prop :=
  ∀ σ ∈ r.segs, ∀ k, (k + 1) * σ.bucketSz ≤ σ.sz → SoundingCfg.getOffsetInPage (σ.ptr + k * σ.bucketSz) ≠ memForbidden →
    σ.ptr + k * σ.bucketSz ∈ r.live.map Prod.fst ∨
      ∃ l, Chain r.s.w.mem 0 (r.s.c.buckets σ.idx) l ∧ σ.ptr + k * σ.bucketSz ∈ l

/-- The same of the items and the lists behind the memory. -/
def Conserved (r : SerialRun) (γ : SerialGhost) : Prop :=
  ∀ σ ∈ r.segs, ∀ a ∈ σ.items, a ∈ r.live.map Prod.fst ∨ a ∈ γ.lists σ.idx

theorem Conserved.slots (h : Conserved r γ) (hI : SerialInv r.s γ r.segs r.live) : SlotsKept r := by
  intro σ hσ k hk hoff
  have hS := hI.segments.each σ hσ
  have hpos : 0 < σ.bucketSz := by have := hS.bucketSz.ge; omega
  have hitem : σ.ptr + k * σ.bucketSz ∈ σ.items := by
    refine (mem_items hS.aligned).mpr ⟨k, (Nat.le_div_iff_mul_le hpos).mpr hk, rfl, ?_⟩
    rwa [getOffsetInPage_slot hS.aligned, memForbidden_eq] at hoff
  exact (h σ hσ _ hitem).imp_right fun hl => ⟨_, hI.chains _ (hS.idx.trans_lt (by decide)), hl⟩

/-- A request was served. -/
theorem Conserved.served {p : ℕ} (h : Conserved r γ) (hok : LosesNone os r (.allocate sz))
    (hS : Served os r.s γ sz p γ') (hl : r'.live = (p, sz) :: r.live)
    (hs : r'.segs = requested os r.s sz ++ r.segs) : Conserved r' γ' := by
  unfold Conserved
  rw [hl, hs, List.map_cons]
  cases hS with
  | popped l hl h0 =>
    rw [h0, List.nil_append]
    intro σ hσ a ha
    rcases h σ hσ a ha with h1 | h1
    · exact Or.inl (List.mem_cons_of_mem p h1)
    by_cases hidx : σ.idx = sizeToIndexHalfExp sz
    · rw [hidx, hl] at h1
      rw [hidx, SerialGhost.relist_lists, setList_self]
      exact (List.mem_cons.mp h1).imp_left fun hap : a = p => hap ▸ List.mem_cons_self
    · rw [SerialGhost.relist_lists, setList_ne hidx]
      exact Or.inr h1
  | refilled g l mp τ hl hR hd =>
    rw [hd, hR.delivered]
    intro σ hσ a ha
    rcases List.mem_append.mp hσ with hσ | hσ
    · -- a segment just delivered is the one chosen, or it has no item
      have hidx : σ.idx = sizeToIndexHalfExp sz := by
        rcases mem_segmentsOf.mp hσ with rfl | ⟨-, rfl⟩
        · rfl
        · rfl
      rcases hR.refilled.others σ hσ with rfl | hnil | ⟨h2, hroom1, hroom2⟩
      · rw [hR.refilled.items] at ha
        rw [hidx, SerialGhost.relist_lists, setList_self]
        exact (List.mem_cons.mp ha).imp_left fun hap : a = p => hap ▸ List.mem_cons_self
      · rw [hnil] at ha
        cases ha
      · obtain ⟨cut, hpos, hlt, hcut, hsz1, hsz2⟩ := hR.cut h2
        have hb : r.s.c.buckets (sizeToIndexHalfExp sz) = 0 := by
          by_contra hb
          have hreq : requested os r.s sz = [] := if_neg fun hc => hb hc.2
          rw [hd, hR.delivered] at hreq
          rw [hreq] at hσ
          cases hσ
        have := hok hb cut hlt hpos hcut
        rw [PAGE_SIZE_eq, ← hsz1, ← hsz2] at this
        unfold itemSize at this
        omega
    · rcases h σ hσ a ha with h1 | h1
      · exact Or.inl (List.mem_cons_of_mem p h1)
      have hidx : σ.idx ≠ sizeToIndexHalfExp sz := fun hidx => by
        rw [hidx, hl] at h1
        cases h1
      rw [SerialGhost.relist_lists, setList_ne hidx]
      exact Or.inr h1

/-- An item was given back. -/
theorem Conserved.returned {p : ℕ} (h : Conserved r γ) (hI : SerialInv r.s γ r.segs r.live) (he : (p, sz) ∈ r.live)
    (hsz : sz ≤ MaxBucketSize) (hl : r'.live = release p r.live) (hs : r'.segs = r.segs) :
    Conserved r' (γ.relist (sizeToIndexHalfExp sz) (p :: γ.lists (sizeToIndexHalfExp sz))) := by
  unfold Conserved
  rw [hl, hs]
  intro σ hσ a ha
  rw [BulkAllocator.mem_release_map hI.nodup, SerialGhost.relist_lists, BulkAllocator.mem_setList_cons]
  by_cases hap : a = p
  · have hidx := hI.segments.bucket_unique ⟨σ, hσ, rfl, ha⟩ (hap ▸ (hI.small _ he hsz).1)
    exact Or.inr (Or.inr ⟨hidx, hap⟩)
  · exact (h σ hσ a ha).imp (fun h1 => ⟨h1, hap⟩) Or.inl

theorem Conserved.step (h : Conserved r γ) (hI : SerialInv r.s γ r.segs r.live)
    (hsmall : ∀ e ∈ r.live, e.2 ≤ MaxBucketSize) (hok : LosesNone os r op) (hM : SerialMoved os r r' γ γ' op) :
    Conserved r' γ' := by
  cases hM with
  | served sz p hsz hS hl hs => exact h.served hok hS hl hs
  | returned p sz he hsz hγ hl hs =>
    rw [hγ]
    exact h.returned hI he hsz hl hs
  | same op hγ hl hs =>
    unfold Conserved
    rw [hs, hγ]
    intro σ hσ a ha
    refine (h σ hσ a ha).imp_left fun h1 => ?_
    obtain ⟨e, he, rfl⟩ := List.mem_map.mp h1
    exact List.mem_map_of_mem (hl e he (hsmall e he))

/-- **No slot is lost**, in every run of requests for items in which no multipage
is cut in two parts that both have room for an item. -/
theorem slots_run (h₀ : r₀.Starts) (hr : Reach (SerialRun.step os) (KeepsSlots os) r₀ r) : SlotsKept r := by
  obtain ⟨γ, hI, hC, -⟩ : ∃ γ, SerialInv r.s γ r.segs r.live ∧ Conserved r γ ∧
      ∀ e ∈ r.live, e.2 ≤ MaxBucketSize := by
    refine hr.invariant (P := fun r => ∃ γ, SerialInv r.s γ r.segs r.live ∧ Conserved r γ ∧
      ∀ e ∈ r.live, e.2 ≤ MaxBucketSize) ⟨.empty, .start h₀, ?_, ?_⟩ ?_
    · obtain ⟨w, c, -, -, hs⟩ := h₀
      unfold Conserved
      rw [hs]
      exact fun σ hσ => absurd hσ List.not_mem_nil
    · obtain ⟨w, c, -, hl, -⟩ := h₀
      rw [hl]
      exact fun e he => absurd he List.not_mem_nil
    · rintro s t op ⟨γ, hγ, hC, hsmall⟩ ⟨hok, hlose⟩ hs
      obtain ⟨γ', hγ', hM⟩ := hγ.step (hγ.keeps_small hsmall (SerialRun.allowed hs)) hs
      exact ⟨γ', hγ', hC.step hγ hsmall hlose hM, hok.live hsmall hs⟩
  exact hC.slots hI

/-- A multipage cut after its first page, which has no room for an item. -/
theorem slots_run_four : ∃ r, run (SerialRun.step (Os.linear (638 * 4096)))
      (fun r op => decide (KeepsSlots (Os.linear (638 * 4096)) r op)) .fresh
      [.allocate 8192, .allocate 16, .allocate 8192, .deallocate 2625536] = some r ∧ r.segs.length = 3 ∧
    SlotsKept r := by
  obtain ⟨r, hr, hsegs⟩ := Option.map_eq_some_iff.mp (show (run (SerialRun.step (Os.linear (638 * 4096)))
      (fun r op => decide (KeepsSlots (Os.linear (638 * 4096)) r op)) .fresh
      [.allocate 8192, .allocate 16, .allocate 8192, .deallocate 2625536]).map (fun r => r.segs.length) = some 3 by
      decide +kernel)
  exact ⟨r, hr, hsegs, slots_run (SerialRun.init_starts _ _)
    ((Reach.of_run hr).mono fun _ _ hok => of_decide_eq_true hok)⟩

/-- A multipage cut in the middle: the items of its first segment are lost. -/
theorem not_slots_run : ∃ r, run (SerialRun.step (Os.linear (641 * 4096))) (fun r op => decide (SmallOnly r op)) .fresh
      [.allocate 8192] = some r ∧ ¬ SlotsKept r := by
  obtain ⟨r, hr, hv⟩ := Option.map_eq_some_iff.mp (show (run (SerialRun.step (Os.linear (641 * 4096)))
      (fun r op => decide (SmallOnly r op)) .fresh [.allocate 8192]).map
        (fun r => (r.segs, r.live, r.s.c.buckets 20, r.s.w.mem 2646016)) =
      some ([⟨20, 11010048, 16384⟩, ⟨20, 2637824, 16384⟩], [(2637824, 8192)], 2646016, 0) by decide +kernel)
  simp only [Prod.mk.injEq] at hv
  obtain ⟨hsegs, hlive, hbucket, hmem⟩ := hv
  refine ⟨r, hr, fun hK => ?_⟩
  have hslot := hK ⟨20, 11010048, 16384⟩ (by rw [hsegs]; exact List.mem_cons_self) 0 (by decide) (by decide)
  rw [hlive, Nat.zero_mul, Nat.add_zero] at hslot
  rcases hslot with hslot | ⟨l, hl, hslot⟩
  · simp at hslot
  · have hchain : Chain r.s.w.mem 0 (r.s.c.buckets 20) [2646016] := ⟨hbucket, by norm_num, hmem⟩
    rw [hl.unique hchain] at hslot
    simp at hslot

end SerializableAllocatorBase

end IibMalloc

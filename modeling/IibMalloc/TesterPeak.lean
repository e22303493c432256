/-
# allocator_tester.h: the reported peak

`randomPos_RandomSize` counts the bytes that it holds: `allocatedSz` grows with
the table and with each item and shrinks as an item is given back, and
`allocatedSzMax`, stored as `allocatedMax` after the main loop, is meant to be
its maximum. But only the items of the main loop are compared with it: the
setup leaves it 0. `Workload` says what the random numbers ask for, whatever
the allocator does and in every mode of memory access. `peak_run`: the stored
maximum is the peak of the bytes held if and only if some item of the main loop
brings them back to what they were after the setup, or there is no slot.
-/
import IibMalloc.TesterModes
import Mathlib.Algebra.BigOperators.Fin
import Mathlib.Data.UInt

namespace IibMalloc

open Lib

namespace AllocatorTester

/-! ### What the random numbers ask for -/

/-- The size of the item of each slot, 0 where there is none, and how many
numbers were drawn. -/
structure Workload where
  sizes : ℕ → ℕ
  drawn : ℕ

namespace Workload

variable (numbers : ℕ → UInt32) (slots : ℕ → ℕ) (maxItemSizeExp maxItems : ℕ)

/-- The size of an item whose numbers are drawn next. -/
def nextSize (w : Workload) : ℕ :=
  calcSizeWithStatsAdjustment (u64 ((numbers w.drawn).toNat <<< 32 + (numbers (w.drawn + 1)).toNat)) maxItemSizeExp

def fill (w : Workload) (idx : ℕ) : Workload :=
  ⟨Function.update w.sizes idx (w.nextSize numbers maxItemSizeExp), w.drawn + 2⟩

def setupBits (i randNum : ℕ) : ℕ → ℕ → Workload → Workload
  | 0, _, w => w
  | n + 1, j, w =>
    setupBits i randNum n (j + 1)
      (if (randNum >>> j) &&& 1 ≠ 0 then w.fill numbers maxItemSizeExp (i * 32 + j) else w)

def setup : ℕ → ℕ → Workload → Workload
  | 0, _, w => w
  | n + 1, i, w =>
    setup n (i + 1) (setupBits numbers maxItemSizeExp i (numbers w.drawn).toNat 32 0 ⟨w.sizes, w.drawn + 1⟩)

/-- A round empties the slot, or fills it. -/
def round (idx : ℕ) (w : Workload) : Workload :=
  if w.sizes idx ≠ 0 then ⟨Function.update w.sizes idx 0, w.drawn + 2⟩
  else fill numbers maxItemSizeExp ⟨w.sizes, w.drawn + 2⟩ idx

/-- The setup, and `k` rounds of the main loop. -/
def after : ℕ → Workload
  | 0 => setup numbers maxItemSizeExp (maxItems / 32) 0 ⟨fun _ => 0, 0⟩
  | k + 1 => (after k).round numbers maxItemSizeExp (slots k)

/-- The bytes of the table and of the items. -/
def bytes (w : Workload) : ℕ := maxItems * binSize + ∑ i ∈ Finset.range maxItems, w.sizes i

/-- The most that the items of the first `k` rounds bring the bytes to, as they
are filled. -/
def highest : ℕ → ℕ
  | 0 => 0
  | k + 1 =>
    if (after numbers slots maxItemSizeExp maxItems k).sizes (slots k) = 0 then
      max (highest k) ((after numbers slots maxItemSizeExp maxItems (k + 1)).bytes maxItems)
    else highest k

end Workload

/-- The bytes held after the calls. -/
def heldBytes (es : List Event) : ℕ := ((replay es).map fun live => (live.map Prod.snd).sum).getD 0

/-- The most bytes held at any time. -/
def peak : List Event → ℕ
  | [] => 0
  | e :: es => max (peak es) (heldBytes (e :: es))

/-! ### The workload -/

variable {σ : Type} {A : AllocatorUnderTest σ} {ok : σ → (ℕ → ℕ) → List (ℕ × ℕ) → Prop} {numbers : ℕ → UInt32}
  {slots : ℕ → ℕ} {mat : MEM_ACCESS_TYPE} {maxItemSizeExp baseBuff maxItems idx i j k n p sz : ℕ} {w : Workload}
  {live : List (ℕ × ℕ)} {es : List Event}

namespace Workload

theorem nextSize_bounds (h3 : 3 ≤ maxItemSizeExp) (h31 : maxItemSizeExp ≤ 31) :
    0 < w.nextSize numbers maxItemSizeExp ∧ w.nextSize numbers maxItemSizeExp ≤ 2 ^ 31 := by
  obtain ⟨hpos, hle⟩ := @calcSize_bounds
    (u64 ((numbers w.drawn).toNat <<< 32 + (numbers (w.drawn + 1)).toNat)) maxItemSizeExp h3 h31
  exact ⟨hpos, hle.trans (Nat.pow_le_pow_right (by norm_num) h31)⟩

/-- One slot changes: so do the bytes. -/
theorem bytes_update (hidx : idx < maxItems) (v d : ℕ) :
    bytes maxItems ⟨Function.update w.sizes idx v, d⟩ + w.sizes idx = bytes maxItems w + v := by
  have hmem : idx ∈ Finset.range maxItems := Finset.mem_range.mpr hidx
  unfold bytes
  rw [Finset.sum_update_of_mem hmem, Finset.sum_eq_add_sum_sdiff_singleton_of_mem hmem w.sizes]
  omega

theorem fill_bytes (hidx : idx < maxItems) (h0 : w.sizes idx = 0) :
    (w.fill numbers maxItemSizeExp idx).bytes maxItems = w.bytes maxItems + w.nextSize numbers maxItemSizeExp := by
  have h := bytes_update (w := w) hidx (w.nextSize numbers maxItemSizeExp) (w.drawn + 2)
  rwa [h0, Nat.add_zero] at h

/-- The counters do not wrap around. -/
theorem bytes_lt (hmax : maxItems ≤ 2 ^ 32 - 1) (h : ∀ i, w.sizes i ≤ 2 ^ 31) : w.bytes maxItems < 2 ^ 64 := by
  have hsum : ∑ i ∈ Finset.range maxItems, w.sizes i ≤ maxItems * 2 ^ 31 := by
    have hcard := Finset.sum_le_card_nsmul (Finset.range maxItems) w.sizes (2 ^ 31) fun i _ => h i
    rwa [Finset.card_range, smul_eq_mul] at hcard
  unfold bytes binSize
  omega

/-- The setup of 32 slots leaves those above. -/
theorem setupBits_sizes {randNum : ℕ} (hk : i * 32 + j + n ≤ k) :
    (setupBits numbers maxItemSizeExp i randNum n j w).sizes k = w.sizes k := by
  induction n generalizing j w with
  | zero => rfl
  | succ n ih =>
    unfold setupBits
    rw [ih (by omega)]
    split_ifs
    · exact Function.update_of_ne (by omega) _ _
    · rfl

theorem bytes_eq_zero (h : w.bytes maxItems = 0) : maxItems = 0 := by
  unfold bytes binSize at h
  omega

/-- Some item brings the bytes to `b`, if `b` is not 0 and the most is not less. -/
theorem le_highest_iff (b : ℕ) : b ≤ highest numbers slots maxItemSizeExp maxItems k ↔
    b = 0 ∨ ∃ j < k, (after numbers slots maxItemSizeExp maxItems j).sizes (slots j) = 0 ∧
      b ≤ (after numbers slots maxItemSizeExp maxItems (j + 1)).bytes maxItems := by
  induction k with
  | zero => simp [highest]
  | succ k ih =>
    unfold highest
    simp only [Nat.lt_succ_iff_lt_or_eq, or_and_right, exists_or, exists_eq_left]
    by_cases h0 : (after numbers slots maxItemSizeExp maxItems k).sizes (slots k) = 0
    · rw [if_pos h0, le_max_iff, ih, or_assoc, and_iff_right h0]
    · have hnot : ¬ ((after numbers slots maxItemSizeExp maxItems k).sizes (slots k) = 0 ∧
          b ≤ (after numbers slots maxItemSizeExp maxItems (k + 1)).bytes maxItems) := fun h => h0 h.1
      rw [if_neg h0, ih, iff_false_intro hnot, or_false]

end Workload

/-! ### The bytes held -/

theorem heldBytes_of (h : replay es = some live) : heldBytes es = (live.map Prod.snd).sum := by
  unfold heldBytes
  rw [h]
  rfl

theorem heldBytes_le_peak (es : List Event) : heldBytes es ≤ peak es := by
  cases es with
  | nil => exact Nat.le_refl 0
  | cons e es => exact le_max_right _ _

/-- Giving a region back is no peak. -/
theorem peak_deallocate (p : ℕ) (es : List Event) : peak (.deallocate p :: es) = peak es := by
  apply max_eq_left
  unfold heldBytes replay
  cases hr : replay es with
  | none => exact Nat.zero_le _
  | some live =>
    rw [Option.bind_some]
    have hle : (live.map Prod.snd).sum ≤ peak es := heldBytes_of hr ▸ heldBytes_le_peak es
    split_ifs
    · exact ((List.eraseP_sublist.map Prod.snd).sum_le_sum fun _ _ => Nat.zero_le _).trans hle
    · exact Nat.zero_le _

theorem peak_deinit (es : List Event) : peak (.deinit :: es) = peak es := max_eq_left (Nat.zero_le _)

/-- A region is given back, and its bytes. -/
theorem release_sum {e : ℕ × ℕ} (hn : (live.map Prod.fst).Nodup) (he : e ∈ live) :
    ((release e.1 live).map Prod.snd).sum + e.2 = (live.map Prod.snd).sum := by
  unfold release
  induction live with
  | nil => cases he
  | cons d live ih =>
    rw [List.map_cons] at hn
    obtain ⟨hd, hn⟩ := List.nodup_cons.mp hn
    by_cases hp : d.1 = e.1
    · have hde : e = d := (List.mem_cons.mp he).resolve_right fun h => hd (hp ▸ List.mem_map_of_mem h)
      rw [List.eraseP_cons_of_pos (by simpa using hp), hde, List.map_cons, List.sum_cons, Nat.add_comm]
    · have hmem : e ∈ live := (List.mem_cons.mp he).resolve_left fun h => hp (h ▸ rfl)
      rw [List.eraseP_cons_of_neg (by simpa using hp), List.map_cons, List.sum_cons, List.map_cons, List.sum_cons,
        Nat.add_assoc, ih hn hmem]

/-! ### The table -/

/-- The slot `i` has an item of `sz` bytes. -/
structure Item (mem : ℕ → ℕ) (baseBuff maxItems : ℕ) (live : List (ℕ × ℕ)) (i sz : ℕ) : Prop where
  size : binSz mem baseBuff i = sz
  null : binPtr mem baseBuff i ≠ 0
  held : (binPtr mem baseBuff i, sz) ∈ live
  ne : binPtr mem baseBuff i ≠ baseBuff

/-- The table has the items of the sizes given, and each is held. -/
structure Slots (baseBuff maxItems : ℕ) (sizes : ℕ → ℕ) (live : List (ℕ × ℕ)) (mem : ℕ → ℕ) : Prop where
  nodup : (live.map Prod.fst).Nodup
  table : (baseBuff, maxItems * binSize) ∈ live
  pos : 0 < maxItems → ∀ e ∈ live, 0 < e.2
  null : ∀ i < maxItems, sizes i = 0 → binPtr mem baseBuff i = 0
  item : ∀ i < maxItems, sizes i ≠ 0 → Item mem baseBuff maxItems live i (sizes i)
  inj : ∀ i < maxItems, sizes i ≠ 0 → ∀ j < maxItems, sizes j ≠ 0 →
    binPtr mem baseBuff i = binPtr mem baseBuff j → i = j

namespace Slots

variable {sizes : ℕ → ℕ} {mem mem' : ℕ → ℕ}

/-- A slot gets an item. -/
theorem add (h : Slots baseBuff maxItems sizes live mem) (hidx : idx < maxItems)
    (hap : ∀ e ∈ live, Apart (p, sz) e) (hsz : 0 < sz) (hp : p ≠ 0)
    (hsame : ∀ i < maxItems, i ≠ idx → binPtr mem' baseBuff i = binPtr mem baseBuff i ∧
      binSz mem' baseBuff i = binSz mem baseBuff i)
    (hptr : binPtr mem' baseBuff idx = p) (hsize : binSz mem' baseBuff idx = sz) :
    Slots baseBuff maxItems (Function.update sizes idx sz) ((p, sz) :: live) mem' := by
  have hnew := new_ptr (h.pos (by omega)) hap hsz
  have hold : ∀ i < maxItems, sizes i ≠ 0 → binPtr mem baseBuff i ≠ p := fun i hi h0 he =>
    hnew (he ▸ ptr_mem (h.item i hi h0).held)
  have hnodup : (((p, sz) :: live).map Prod.fst).Nodup := by
    rw [List.map_cons]
    exact List.nodup_cons.mpr ⟨hnew, h.nodup⟩
  refine ⟨hnodup, List.mem_cons_of_mem _ h.table, fun hmax e he => ?_, fun i hi h0 => ?_,
    fun i hi h0 => ?_, fun i hi h0 j hj hj0 he => ?_⟩
  · rcases List.mem_cons.mp he with rfl | he
    · exact hsz
    · exact h.pos hmax e he
  · by_cases hii : i = idx
    · rw [hii, Function.update_self] at h0
      omega
    · rw [Function.update_of_ne hii] at h0
      rw [(hsame i hi hii).1]
      exact h.null i hi h0
  · by_cases hii : i = idx
    · rw [hii, Function.update_self]
      refine ⟨hsize, by rwa [hptr], by rw [hptr]; exact List.mem_cons_self, fun hb => hnew ?_⟩
      rw [← hptr, hb]
      exact ptr_mem h.table
    · rw [Function.update_of_ne hii] at h0 ⊢
      obtain ⟨h1, h2⟩ := hsame i hi hii
      obtain ⟨g1, g2, g3, g4⟩ := h.item i hi h0
      exact ⟨h2.trans g1, by rwa [h1], by rw [h1]; exact List.mem_cons_of_mem _ g3, by rwa [h1]⟩
  · by_cases hii : i = idx
    · by_cases hjj : j = idx
      · rw [hii, hjj]
      · rw [Function.update_of_ne hjj] at hj0
        rw [hii, hptr, (hsame j hj hjj).1] at he
        exact absurd he.symm (hold j hj hj0)
    · rw [Function.update_of_ne hii] at h0
      rw [(hsame i hi hii).1] at he
      by_cases hjj : j = idx
      · rw [hjj, hptr] at he
        exact absurd he (hold i hi h0)
      · rw [Function.update_of_ne hjj] at hj0
        rw [(hsame j hj hjj).1] at he
        exact h.inj i hi h0 j hj hj0 he

/-- The item of a slot is given back. -/
theorem remove (h : Slots baseBuff maxItems sizes live mem) (hidx : idx < maxItems) (h0 : sizes idx ≠ 0)
    (hsame : ∀ i < maxItems, i ≠ idx → binPtr mem' baseBuff i = binPtr mem baseBuff i ∧
      binSz mem' baseBuff i = binSz mem baseBuff i)
    (hptr : binPtr mem' baseBuff idx = 0) :
    Slots baseBuff maxItems (Function.update sizes idx 0) (release (binPtr mem baseBuff idx) live) mem' := by
  have hI := h.item idx hidx h0
  have hused : ∀ i, Function.update sizes idx 0 i ≠ 0 → i ≠ idx ∧ sizes i ≠ 0 := fun i hi => by
    have hii : i ≠ idx := fun hii => hi (by rw [hii, Function.update_self])
    exact ⟨hii, by rwa [Function.update_of_ne hii] at hi⟩
  refine ⟨h.nodup.sublist (List.eraseP_sublist.map Prod.fst), (Bins.mem_release h.nodup).mpr ⟨h.table, hI.ne.symm⟩,
    fun hmax e he => h.pos hmax e (List.mem_of_mem_eraseP he), fun i hi hi0 => ?_, fun i hi hi0 => ?_,
    fun i hi hi0 j hj hj0 he => ?_⟩
  · by_cases hii : i = idx
    · rw [hii]
      exact hptr
    · rw [Function.update_of_ne hii] at hi0
      rw [(hsame i hi hii).1]
      exact h.null i hi hi0
  · obtain ⟨hii, hs⟩ := hused i hi0
    obtain ⟨h1, h2⟩ := hsame i hi hii
    obtain ⟨g1, g2, g3, g4⟩ := h.item i hi hs
    rw [Function.update_of_ne hii]
    refine ⟨h2.trans g1, by rwa [h1], ?_, by rwa [h1]⟩
    rw [h1]
    exact (Bins.mem_release h.nodup).mpr ⟨g3, fun he => hii (h.inj i hi hs idx hidx h0 he)⟩
  · obtain ⟨hii, hs⟩ := hused i hi0
    obtain ⟨hjj, hs'⟩ := hused j hj0
    rw [(hsame i hi hii).1, (hsame j hj hjj).1] at he
    exact h.inj i hi hs j hj hs' he

end Slots

/-! ### The steps -/

/-- What the run keeps: the calls and the table say what the workload asks for. -/
structure Follows (ok : σ → (ℕ → ℕ) → List (ℕ × ℕ) → Prop) (baseBuff maxItems : ℕ) (w : Workload)
    (live : List (ℕ × ℕ)) (s : Tester σ) : Prop where
  replay : replay s.trace = some live
  ok : ok s.allocatorUnderTest s.mem live
  slots : Slots baseBuff maxItems w.sizes live s.mem
  total : (live.map Prod.snd).sum = w.bytes maxItems
  drawn : s.drawn = w.drawn
  small : ∀ i, w.sizes i ≤ 2 ^ 31

section Written

variable {mem m₂ m₄ : ℕ → ℕ}

theorem sz_within {x : ℕ} (hx : baseBuff + idx * binSize + 8 ≤ x ∧ x < baseBuff + idx * binSize + 8 + 4) :
    Within (baseBuff + idx * binSize) binSize x := by
  unfold Within binSize at *
  omega

/-- The slot after its item was allocated and written to, and the other slots. -/
theorem written_spec (hidx : idx < maxItems) (hsz : sz < 2 ^ 32) (hp : p < 2 ^ 64)
    (hap : Apart (p, sz) (baseBuff, maxItems * binSize))
    (hkeep : ∀ x, Within baseBuff (maxItems * binSize) x →
      m₂ x = writeLE mem 4 (baseBuff + idx * binSize + 8) sz x)
    (hm₄ : ∀ x, ¬ Within (baseBuff + idx * binSize + 12) 4 x → ¬ Within p sz x →
      m₄ x = writeLE m₂ 8 (baseBuff + idx * binSize) p x) :
    (∀ i < maxItems, i ≠ idx → binPtr m₄ baseBuff i = binPtr mem baseBuff i ∧
      binSz m₄ baseBuff i = binSz mem baseBuff i) ∧
      binPtr m₄ baseBuff idx = p ∧ binSz m₄ baseBuff idx = sz := by
  have htable : ∀ x, Within baseBuff (maxItems * binSize) x → ¬ Within (baseBuff + idx * binSize + 12) 4 x →
      m₄ x = writeLE m₂ 8 (baseBuff + idx * binSize) p x := fun x hx hn => hm₄ x hn fun hw => hap x hw hx
  have hslot : ∀ x, Within (baseBuff + idx * binSize) binSize x → Within baseBuff (maxItems * binSize) x :=
    fun x hx => bin_within hidx hx
  refine ⟨fun i hi hii => ?_, ?_, ?_⟩
  · have hbin : ∀ x, Within (baseBuff + i * binSize) binSize x → m₄ x = mem x := fun x hx => by
      have hin := bin_within hi hx
      have hout := bin_apart hii hx
      unfold Within binSize at hout
      rw [htable x hin (by unfold Within binSize; omega), writeLE_of_not (by unfold binSize; omega), hkeep x hin]
      exact writeLE_of_not (by unfold binSize; omega)
    obtain ⟨h1, h2, -⟩ := bin_congr hbin
    exact ⟨h1, h2⟩
  · have hread : binPtr m₄ baseBuff idx = binPtr (writeLE m₂ 8 (baseBuff + idx * binSize) p) baseBuff idx :=
      readLE_congr fun x h1 h2 => htable x (hslot x ⟨h1, by unfold binSize at *; omega⟩) fun hw => by
        unfold Within at hw
        omega
    rw [hread]
    exact readLE_writeLE hp
  · have hread : binSz m₄ baseBuff idx = binSz (writeLE mem 4 (baseBuff + idx * binSize + 8) sz) baseBuff idx :=
      readLE_congr fun x h1 h2 => by
        have hin := hslot x (sz_within ⟨h1, h2⟩)
        rw [htable x hin (by unfold Within; omega), writeLE_of_not (by omega)]
        exact hkeep x hin
    rw [hread]
    exact readLE_writeLE hsz

/-- The workload fills a slot, as the run did. -/
theorem Follows.fill {s : Tester σ} {a : σ} {r d : ℕ} (hA : Honest A ok) (h : Follows ok baseBuff maxItems w live s)
    (hidx : idx < maxItems) (h0 : w.sizes idx = 0) (hsz : 0 < w.nextSize numbers maxItemSizeExp)
    (hsz' : w.nextSize numbers maxItemSizeExp ≤ 2 ^ 31) (hp : p ≠ 0)
    (hap : ∀ e ∈ live, Apart (p, w.nextSize numbers maxItemSizeExp) e)
    (hsame : ∀ i < maxItems, i ≠ idx → binPtr m₄ baseBuff i = binPtr s.mem baseBuff i ∧
      binSz m₄ baseBuff i = binSz s.mem baseBuff i)
    (hptr : binPtr m₄ baseBuff idx = p) (hsize : binSz m₄ baseBuff idx = w.nextSize numbers maxItemSizeExp)
    (hok : ok a m₂ ((p, w.nextSize numbers maxItemSizeExp) :: live))
    (hm₄ : ∀ x, ¬ Within (baseBuff + idx * binSize + 12) 4 x →
      ¬ Within p (w.nextSize numbers maxItemSizeExp) x → m₄ x = writeLE m₂ 8 (baseBuff + idx * binSize) p x)
    (hd : d = s.drawn + 2) :
    Follows ok baseBuff maxItems (w.fill numbers maxItemSizeExp idx) ((p, w.nextSize numbers maxItemSizeExp) :: live)
      ⟨a, m₄, d, r, .allocate p (w.nextSize numbers maxItemSizeExp) :: s.trace⟩ := by
  refine ⟨?_, ?_, h.slots.add hidx hap hsz hp hsame hptr hsize, ?_, ?_, ?_⟩
  · show (AllocatorTester.replay s.trace).map _ = _
    rw [h.replay]
    rfl
  · refine hA.write _ m₂ _ _ hok fun x hx => ?_
    have hslot : ¬ Within (baseBuff + idx * binSize) binSize x := fun hw =>
      hx _ (List.mem_cons_of_mem _ h.slots.table) (bin_within hidx hw)
    unfold Within binSize at hslot
    exact (hm₄ x (by unfold Within binSize; omega) (hx _ List.mem_cons_self)).trans
      (writeLE_of_not (by unfold binSize; omega))
  · rw [Workload.fill_bytes hidx h0, List.map_cons, List.sum_cons, h.total]
    exact Nat.add_comm _ _
  · rw [hd, h.drawn]
    rfl
  · exact update_le_iff.mpr ⟨hsz', fun j _ => h.small j⟩

/-- The workload empties a slot, as the run did. -/
theorem Follows.empty {s : Tester σ} (hA : Honest A ok) (h : Follows ok baseBuff maxItems w live s)
    (hidx : idx < maxItems) (h0 : w.sizes idx ≠ 0) :
    Follows ok baseBuff maxItems ⟨Function.update w.sizes idx 0, w.drawn⟩ (release (binPtr s.mem baseBuff idx) live)
      ⟨(A.deallocate (binPtr s.mem baseBuff idx) s.allocatorUnderTest s.mem).1,
        writeLE (A.deallocate (binPtr s.mem baseBuff idx) s.allocatorUnderTest s.mem).2 8 (baseBuff + idx * binSize) 0,
        s.drawn, s.reincarnation, .deallocate (binPtr s.mem baseBuff idx) :: s.trace⟩ := by
  have hI := h.slots.item idx hidx h0
  obtain ⟨hkeep, hok⟩ := hA.deallocate _ _ _ h.ok h.slots.nodup _ hI.held
  dsimp only at hkeep hok
  generalize A.deallocate (binPtr s.mem baseBuff idx) s.allocatorUnderTest s.mem = r at hkeep hok
  obtain ⟨a, m₂⟩ := r
  have htable : (baseBuff, maxItems * binSize) ∈ release (binPtr s.mem baseBuff idx) live :=
    (Bins.mem_release h.slots.nodup).mpr ⟨h.slots.table, hI.ne.symm⟩
  have hout : ∀ x, ¬ Within (baseBuff + idx * binSize) binSize x →
      writeLE m₂ 8 (baseBuff + idx * binSize) 0 x = m₂ x := fun x hx => by
    unfold Within binSize at hx
    exact writeLE_of_not (by unfold binSize; omega)
  refine ⟨?_, ?_, h.slots.remove hidx h0 (fun i hi hii => ?_) (readLE_writeLE (by norm_num)), ?_, h.drawn, ?_⟩
  · show (AllocatorTester.replay s.trace).bind _ = _
    rw [h.replay]
    exact if_pos (ptr_mem hI.held)
  · exact hA.write _ m₂ _ _ hok fun x hx => hout x fun hw => hx _ htable (bin_within hidx hw)
  · have hbin : ∀ x, Within (baseBuff + i * binSize) binSize x →
        writeLE m₂ 8 (baseBuff + idx * binSize) 0 x = s.mem x := fun x hx =>
      (hout x (bin_apart hii hx)).trans (hkeep _ h.slots.table hI.ne.symm x (bin_within hi hx))
    obtain ⟨h1, h2, -⟩ := bin_congr hbin
    exact ⟨h1, h2⟩
  · have hsum := release_sum h.slots.nodup hI.held
    have hbytes := Workload.bytes_update (w := w) hidx 0 w.drawn
    rw [h.total] at hsum
    dsimp only at hsum
    omega
  · exact update_le_iff.mpr ⟨Nat.zero_le _, fun j _ => h.small j⟩

end Written

namespace Counted

variable {s : Tester σ} {t : Counted σ}

@[simp] theorem wp_onTester {α : Type} (x : Act (Tester σ) α) {Q : α → Counted σ → Prop} {E : Counted σ → Prop} :
    Act.wp (onTester x) Q E t ↔
      Act.wp x (fun a s => Q a { t with tester := s }) (fun s => E { t with tester := s }) t.tester := by
  simp [onTester]

theorem sub64_of_le {a b : ℕ} (h : b ≤ a) (ha : a < 2 ^ 64) : sub64 a b = a - b := by
  unfold sub64 u64
  omega

/-- A new item is written to: nothing else is, but for the `reincarnation` of its
slot. -/
theorem accessNew_spec (hptr : binPtr s.mem baseBuff idx = p) (hsz : 0 < sz) {Q : Unit → Tester σ → Prop}
    {E : Tester σ → Prop}
    (h : ∀ m r, (∀ x, ¬ Within (baseBuff + idx * binSize + 12) 4 x → ¬ Within p sz x → m x = s.mem x) →
      Q () { s with mem := m, reincarnation := r }) : Act.wp (accessNew mat baseBuff idx sz) Q E s := by
  unfold accessNew
  rw [Act.wp_bind, Act.wp_read, hptr]
  cases mat with
  | none =>
    rw [Act.wp_pure]
    exact h s.mem s.reincarnation fun _ _ _ => rfl
  | single =>
    rw [wp_onMem]
    refine h _ s.reincarnation fun x _ hx => writeLE_of_not fun hw => hx ?_
    unfold Within
    omega
  | full =>
    rw [wp_onMem]
    exact h _ s.reincarnation fun x _ hx => if_neg hx
  | check =>
    simp only [Act.wp_bind, Act.wp_read, Act.wp_update, wp_onMem]
    have hptr' : binPtr (writeLE s.mem 4 (baseBuff + idx * binSize + 12) s.reincarnation) baseBuff idx = p := by
      rw [← hptr]
      exact readLE_congr fun x h1 h2 => writeLE_of_not (by omega)
    rw [hptr']
    refine h _ _ fun x hx hx' => ?_
    rw [fillSegment_frame hx']
    exact writeLE_of_not hx

/-- A pass over an item: it goes on, or a check stops the run where it is. -/
theorem accessOld_spec {Q : Unit → Tester σ → Prop} {E : Tester σ → Prop} (h : Q () s) (hE : E s) :
    Act.wp (accessOld mat baseBuff idx) Q E s := by
  unfold accessOld
  cases mat with
  | check =>
    simp only [Act.wp_bind, Act.wp_read]
    split_ifs
    · exact (Act.wp_pure _).mpr h
    · exact Act.wp_throw.mpr hE
  | none => exact (Act.wp_pure _).mpr h
  | single => exact (Act.wp_pure _).mpr h
  | full => exact (Act.wp_pure _).mpr h

/-- An empty slot gets an item, of the size that the workload asks for; the
pointers of the others stay. -/
theorem newItem_spec (hA : Honest A ok) (h3 : 3 ≤ maxItemSizeExp) (h31 : maxItemSizeExp ≤ 31)
    (h : Follows ok baseBuff maxItems w live s) (hidx : idx < maxItems) (h0 : w.sizes idx = 0) :
    Act.wp (newItem A numbers mat maxItemSizeExp baseBuff idx)
      (fun sz t => sz = w.nextSize numbers maxItemSizeExp ∧ ∃ p,
        Follows ok baseBuff maxItems (w.fill numbers maxItemSizeExp idx) ((p, sz) :: live) t ∧
          t.trace = .allocate p sz :: s.trace ∧ binPtr t.mem baseBuff idx = p ∧
          ∀ i < maxItems, i ≠ idx → binPtr t.mem baseBuff i = binPtr s.mem baseBuff i)
      (fun t => t.trace = .refused :: s.trace) s := by
  obtain ⟨hsz, hsz'⟩ := @Workload.nextSize_bounds numbers maxItemSizeExp w h3 h31
  have hnext : calcSizeWithStatsAdjustment
      (u64 ((numbers s.drawn).toNat <<< 32 + (numbers (s.drawn + 1)).toNat)) maxItemSizeExp =
        w.nextSize numbers maxItemSizeExp := by
    rw [h.drawn]
    rfl
  unfold newItem rng64
  simp only [Act.wp_bind, wp_rng32, wp_onMem, Act.wp_pure, hnext]
  rw [Nat.mod_eq_of_lt (by omega : w.nextSize numbers maxItemSizeExp < 2 ^ 32)]
  have hok₁ : ok s.allocatorUnderTest
      (writeLE s.mem 4 (baseBuff + idx * binSize + 8) (w.nextSize numbers maxItemSizeExp)) live :=
    hA.write _ s.mem _ _ h.ok fun x hx => writeLE_of_not fun hw => hx _ h.slots.table (bin_within hidx (sz_within hw))
  refine wp_allocate rfl fun p a m₂ hr => ?_
  obtain ⟨hp, hlt, hap, hkeep, hok₂⟩ := hA.allocate _ _ _ _ _ _ _ hok₁ hr
  refine accessNew_spec (p := p) ?_ hsz fun m₄ r hm₄ => ?_
  · exact readLE_writeLE (by omega)
  obtain ⟨hsame, hptr, hsize⟩ := written_spec hidx (by omega) (by omega) (hap _ h.slots.table)
    (fun x hx => hkeep _ h.slots.table x hx) hm₄
  refine ⟨trivial, p, ?_, rfl, hptr, fun i hi hii => (hsame i hi hii).1⟩
  exact Follows.fill (s := s) hA h hidx h0 hsz hsz' hp hap hsame hptr hsize hok₂ hm₄ rfl

/-! ### The counters -/

/-- The run counts the bytes of `w`, and held at most `most`; `highest` and `after`
are the other counters. -/
structure Tally (ok : σ → (ℕ → ℕ) → List (ℕ × ℕ) → Prop) (baseBuff maxItems : ℕ) (w : Workload)
    (most highest after : ℕ) (t : Counted σ) : Prop where
  follows : ∃ live, Follows ok baseBuff maxItems w live t.tester
  allocatedSz : t.allocatedSz = w.bytes maxItems
  peak : peak t.tester.trace = most
  allocatedSzMax : t.allocatedSzMax = highest
  allocatedAfterSetupSz : t.allocatedAfterSetupSz = after

variable {most highest after : ℕ} {E : Counted σ → Prop}

/-- Numbers are drawn. -/
theorem Tally.drawn (h : Tally ok baseBuff maxItems w most highest after t) (n : ℕ) :
    Tally ok baseBuff maxItems ⟨w.sizes, w.drawn + n⟩ most highest after
      { t with tester := { t.tester with drawn := t.tester.drawn + n } } := by
  obtain ⟨live, hF⟩ := h.follows
  refine ⟨⟨live, hF.replay, hF.ok, hF.slots, hF.total, ?_, hF.small⟩, h.allocatedSz, h.peak, h.allocatedSzMax,
    h.allocatedAfterSetupSz⟩
  show t.tester.drawn + n = w.drawn + n
  rw [hF.drawn]

/-- An item is new, and counted. -/
theorem newItem_tally (hA : Honest A ok) (h3 : 3 ≤ maxItemSizeExp) (h31 : maxItemSizeExp ≤ 31)
    (hmax : maxItems ≤ 2 ^ 32 - 1) (h : Tally ok baseBuff maxItems w most highest after t) (hidx : idx < maxItems)
    (h0 : w.sizes idx = 0) :
    Act.wp (onTester (newItem A numbers mat maxItemSizeExp baseBuff idx))
      (fun sz u => Tally ok baseBuff maxItems (w.fill numbers maxItemSizeExp idx)
        (max most ((w.fill numbers maxItemSizeExp idx).bytes maxItems)) highest after
        { u with allocatedSz := u64 (u.allocatedSz + sz) }) (fun _ => True) t := by
  obtain ⟨live, hF⟩ := h.follows
  rw [wp_onTester]
  refine Act.wp_mono (newItem_spec hA h3 h31 hF hidx h0) ?_ fun _ _ => trivial
  intro sz u hu
  obtain ⟨rfl, p, hF', htrace, -⟩ := hu
  refine ⟨⟨_, hF'⟩, ?_, ?_, h.allocatedSzMax, h.allocatedAfterSetupSz⟩
  · show u64 (t.allocatedSz + _) = _
    rw [h.allocatedSz, ← Workload.fill_bytes hidx h0]
    exact u64_of_lt (Workload.bytes_lt hmax hF'.small)
  · show AllocatorTester.peak u.trace = _
    have hheld := heldBytes_of hF'.replay
    rw [hF'.total] at hheld
    rw [← hheld, htrace, ← h.peak]
    rfl

/-- An item is given back, and not counted any more. -/
theorem oldItem_tally (hA : Honest A ok) (hmax : maxItems ≤ 2 ^ 32 - 1)
    (h : Tally ok baseBuff maxItems w most highest after t) (hidx : idx < maxItems) (h0 : w.sizes idx ≠ 0) :
    Tally ok baseBuff maxItems ⟨Function.update w.sizes idx 0, w.drawn⟩ most highest after
      ⟨⟨(A.deallocate (binPtr t.tester.mem baseBuff idx) t.tester.allocatorUnderTest t.tester.mem).1,
        writeLE (A.deallocate (binPtr t.tester.mem baseBuff idx) t.tester.allocatorUnderTest t.tester.mem).2 8
          (baseBuff + idx * binSize) 0,
        t.tester.drawn, t.tester.reincarnation, .deallocate (binPtr t.tester.mem baseBuff idx) :: t.tester.trace⟩,
        sub64 t.allocatedSz (binSz t.tester.mem baseBuff idx), t.allocatedSzMax, t.allocatedAfterSetupSz,
        t.allocatedMax⟩ := by
  obtain ⟨live, hF⟩ := h.follows
  have hE := hF.empty hA hidx h0
  have hbytes := Workload.bytes_update (w := w) hidx 0 w.drawn
  refine ⟨⟨_, hE⟩, ?_, ?_, h.allocatedSzMax, h.allocatedAfterSetupSz⟩
  · dsimp only
    rw [h.allocatedSz, (hF.slots.item idx hidx h0).size, sub64_of_le (by omega) (Workload.bytes_lt hmax hF.small)]
    omega
  · dsimp only
    rw [peak_deallocate, h.peak]

/-- A round counts the item that it gives back or that is new; a new one only
may be the most. -/
theorem mainStep_spec (hA : Honest A ok) (h3 : 3 ≤ maxItemSizeExp) (h31 : maxItemSizeExp ≤ 31)
    (hmax : maxItems ≤ 2 ^ 32 - 1) (h : Tally ok baseBuff maxItems w most highest after t) (hidx : idx < maxItems) :
    Act.wp (mainStep A numbers mat maxItemSizeExp baseBuff idx)
      (fun _ u => Tally ok baseBuff maxItems (w.round numbers maxItemSizeExp idx)
        (if w.sizes idx = 0 then max most ((w.round numbers maxItemSizeExp idx).bytes maxItems) else most)
        (if w.sizes idx = 0 then max highest ((w.round numbers maxItemSizeExp idx).bytes maxItems) else highest)
        after u) (fun _ => True) t := by
  have hd := h.drawn 2
  unfold mainStep Workload.round
  simp only [Act.wp_bind, wp_onTester, wp_rng32, Act.wp_read]
  obtain ⟨live, hF⟩ := hd.follows
  by_cases h0 : w.sizes idx = 0
  · rw [if_neg (not_not.mpr (hF.slots.null idx hidx h0)), if_neg (not_not.mpr h0), if_pos h0, if_pos h0]
    simp only [Act.wp_bind]
    refine Act.wp_mono (newItem_tally hA h3 h31 hmax hd hidx h0) ?_ fun _ _ => trivial
    intro sz u hu
    obtain ⟨hf, hsz, hp, hm, ha⟩ := hu
    dsimp only at hf hsz hp hm ha
    simp only [Act.wp_update]
    refine ⟨hf, hsz, hp, ?_, ha⟩
    dsimp only
    rw [hsz, hm, max_def_lt]
  · have hI := hF.slots.item idx hidx h0
    rw [if_pos hI.null, if_pos h0, if_neg h0, if_neg h0]
    rw [Act.wp_bind, wp_onTester]
    refine accessOld_spec ?_ trivial
    rw [Act.wp_bind, Act.wp_read, Act.wp_bind, Act.wp_update, Act.wp_bind, Act.wp_read, Act.wp_bind, wp_onTester]
    unfold deallocate
    rw [Act.wp_update, wp_onTester, wp_onMem]
    exact oldItem_tally hA hmax hd hidx h0

/-! ### The loops -/

/-- The setup of 32 slots, which are empty. -/
theorem setupBits_spec (hA : Honest A ok) (h3 : 3 ≤ maxItemSizeExp) (h31 : maxItemSizeExp ≤ 31)
    (hmax : maxItems ≤ 2 ^ 32 - 1) {randNum : ℕ} (hi : i * 32 + 32 ≤ maxItems) (n j : ℕ) (hj : j + n = 32)
    (hfresh : ∀ k, i * 32 + j ≤ k → w.sizes k = 0)
    (h : Tally ok baseBuff maxItems w (w.bytes maxItems) highest after t) :
    Act.wp (setupBits A numbers mat maxItemSizeExp baseBuff i randNum n j)
      (fun _ u => Tally ok baseBuff maxItems (w.setupBits numbers maxItemSizeExp i randNum n j)
        ((w.setupBits numbers maxItemSizeExp i randNum n j).bytes maxItems) highest after u) (fun _ => True) t := by
  induction n generalizing j w t with
  | zero =>
    unfold setupBits
    rw [Act.wp_pure]
    exact h
  | succ n ih =>
    unfold setupBits Workload.setupBits
    rw [Act.wp_bind, Act.wp_when]
    refine ⟨fun hbit => ?_, fun hbit => ?_⟩
    · have h0 := hfresh _ le_rfl
      rw [if_pos hbit, Act.wp_bind]
      refine Act.wp_mono (newItem_tally hA h3 h31 hmax h (by omega) h0) ?_ fun _ _ => trivial
      intro sz u hu
      rw [Act.wp_update]
      rw [max_eq_right (by rw [Workload.fill_bytes (by omega) h0]; omega)] at hu
      refine ih (j + 1) (by omega) (fun k hk => ?_) hu
      exact (Function.update_of_ne (by omega) _ _).trans (hfresh k (by omega))
    · rw [if_neg hbit]
      exact ih (j + 1) (by omega) (fun k hk => hfresh k (by omega)) h

theorem setup_spec (hA : Honest A ok) (h3 : 3 ≤ maxItemSizeExp) (h31 : maxItemSizeExp ≤ 31)
    (hmax : maxItems ≤ 2 ^ 32 - 1) (n i : ℕ) (hi : i + n = maxItems / 32) (hfresh : ∀ k, i * 32 ≤ k → w.sizes k = 0)
    (h : Tally ok baseBuff maxItems w (w.bytes maxItems) highest after t) :
    Act.wp (setup A numbers mat maxItemSizeExp baseBuff n i)
      (fun _ u => Tally ok baseBuff maxItems (w.setup numbers maxItemSizeExp n i)
        ((w.setup numbers maxItemSizeExp n i).bytes maxItems) highest after u) (fun _ => True) t := by
  induction n generalizing i w t with
  | zero =>
    unfold setup
    rw [Act.wp_pure]
    exact h
  | succ n ih =>
    obtain ⟨live, hF⟩ := h.follows
    unfold setup Workload.setup
    rw [Act.wp_bind, wp_onTester, wp_rng32, hF.drawn, Act.wp_bind]
    have hd := h.drawn 1
    rw [hF.drawn] at hd
    refine Act.wp_mono (setupBits_spec (w := ⟨w.sizes, w.drawn + 1⟩) hA h3 h31 hmax (by omega) 32 0 rfl
      (fun k hk => hfresh k hk) hd) ?_ fun _ _ => trivial
    intro _ u hu
    refine ih (i + 1) (by omega) (fun k hk => ?_) hu
    rw [Workload.setupBits_sizes (by omega)]
    exact hfresh k (by omega)

/-- After `k` rounds: the most held is what the setup left, or what an item of
the main loop made it. -/
def Reached (ok : σ → (ℕ → ℕ) → List (ℕ × ℕ) → Prop) (numbers : ℕ → UInt32) (slots : ℕ → ℕ)
    (maxItemSizeExp baseBuff maxItems k : ℕ) (t : Counted σ) : Prop :=
  Tally ok baseBuff maxItems (Workload.after numbers slots maxItemSizeExp maxItems k)
    (max ((Workload.after numbers slots maxItemSizeExp maxItems 0).bytes maxItems)
      (Workload.highest numbers slots maxItemSizeExp maxItems k))
    (Workload.highest numbers slots maxItemSizeExp maxItems k)
    ((Workload.after numbers slots maxItemSizeExp maxItems 0).bytes maxItems) t

theorem mainStep_reached (hA : Honest A ok) (h3 : 3 ≤ maxItemSizeExp) (h31 : maxItemSizeExp ≤ 31)
    (hmax : maxItems ≤ 2 ^ 32 - 1) (hidx : slots k < maxItems)
    (h : Reached ok numbers slots maxItemSizeExp baseBuff maxItems k t) :
    Act.wp (mainStep A numbers mat maxItemSizeExp baseBuff (slots k))
      (fun _ u => Reached ok numbers slots maxItemSizeExp baseBuff maxItems (k + 1) u) (fun _ => True) t := by
  refine Act.wp_mono (mainStep_spec hA h3 h31 hmax h hidx) ?_ fun _ _ => trivial
  intro _ u hu
  unfold Reached Workload.highest
  by_cases h0 : (Workload.after numbers slots maxItemSizeExp maxItems k).sizes (slots k) = 0
  · rw [if_pos h0, if_pos h0, max_assoc] at hu
    rw [if_pos h0]
    exact hu
  · rw [if_neg h0, if_neg h0] at hu
    rw [if_neg h0]
    exact hu

theorem mainRounds_spec (hA : Honest A ok) (h3 : 3 ≤ maxItemSizeExp) (h31 : maxItemSizeExp ≤ 31)
    (hmax : maxItems ≤ 2 ^ 32 - 1) (n k : ℕ) (hslots : ∀ m < k + n, slots m < maxItems)
    (h : Reached ok numbers slots maxItemSizeExp baseBuff maxItems k t) :
    Act.wp (mainRounds A numbers slots mat maxItemSizeExp baseBuff n k)
      (fun _ u => Reached ok numbers slots maxItemSizeExp baseBuff maxItems (k + n) u) (fun _ => True) t := by
  induction n generalizing k t with
  | zero =>
    unfold mainRounds
    rw [Act.wp_pure]
    exact h
  | succ n ih =>
    unfold mainRounds
    rw [Act.wp_bind]
    refine Act.wp_mono (mainStep_reached hA h3 h31 hmax (hslots k (by omega)) h) ?_ fun _ _ => trivial
    intro _ u hu
    rw [show k + (n + 1) = k + 1 + n by omega]
    exact ih (k + 1) (fun m hm => hslots m (by omega)) hu

theorem mainLoop_spec (hA : Honest A ok) (h3 : 3 ≤ maxItemSizeExp) (h31 : maxItemSizeExp ≤ 31)
    (hmax : maxItems ≤ 2 ^ 32 - 1) {rounds : ℕ} (n k : ℕ) (hslots : ∀ m < (k + n) * rounds, slots m < maxItems)
    (h : Reached ok numbers slots maxItemSizeExp baseBuff maxItems (k * rounds) t) :
    Act.wp (mainLoop A numbers slots mat maxItemSizeExp baseBuff rounds n k)
      (fun _ u => Reached ok numbers slots maxItemSizeExp baseBuff maxItems ((k + n) * rounds) u)
      (fun _ => True) t := by
  induction n generalizing k t with
  | zero =>
    unfold mainLoop
    rw [Act.wp_pure]
    exact h
  | succ n ih =>
    unfold mainLoop
    rw [Act.wp_bind]
    rw [show k + (n + 1) = k + 1 + n by omega] at hslots ⊢
    have hk : k * rounds + rounds = (k + 1) * rounds := by rw [Nat.add_mul, Nat.one_mul]
    have hle : (k + 1) * rounds ≤ (k + 1 + n) * rounds := Nat.mul_le_mul_right _ (by omega)
    refine Act.wp_mono (mainRounds_spec hA h3 h31 hmax rounds (k * rounds) (fun m hm => hslots m (by omega)) h) ?_
      fun _ _ => trivial
    intro _ u hu
    rw [hk] at hu
    exact ih (k + 1) hslots hu

/-- The exit only gives back. -/
theorem exitLoop_spec {m : ℕ} (n idx : ℕ) (h : AllocatorTester.peak s.trace = m) :
    Act.wp (exitLoop A mat baseBuff n idx) (fun _ u => AllocatorTester.peak u.trace = m) (fun _ => True) s := by
  induction n generalizing idx s with
  | zero =>
    unfold exitLoop
    rw [Act.wp_pure]
    exact h
  | succ n ih =>
    unfold exitLoop
    rw [Act.wp_bind, Act.wp_read, Act.wp_bind, Act.wp_when]
    refine ⟨fun _ => ?_, fun _ => ih (idx + 1) h⟩
    rw [Act.wp_bind]
    refine accessOld_spec ?_ trivial
    unfold deallocate
    rw [Act.wp_bind, Act.wp_read, Act.wp_update]
    exact ih (idx + 1) ((peak_deallocate _ _).trans h)

/-- The table, before the setup. -/
theorem start_tally (hA : Honest A ok) {a₀ a : σ} {m₀ m : ℕ → ℕ} {r b : ℕ} (hok : ok a₀ m₀ [])
    (hr : A.allocate (maxItems * binSize) a₀ m₀ = some (baseBuff, a, m)) :
    Tally ok baseBuff maxItems ⟨fun _ => 0, 0⟩ (Workload.bytes maxItems ⟨fun _ => 0, 0⟩) 0 r
      ⟨⟨a, zero m baseBuff (maxItems * binSize), 0, 0, [.allocate baseBuff (maxItems * binSize)]⟩,
        maxItems * binSize, 0, r, b⟩ := by
  obtain ⟨hp, -, -, -, hok'⟩ := hA.allocate _ _ _ _ _ _ _ hok hr
  have hbytes : Workload.bytes maxItems ⟨fun _ => 0, 0⟩ = maxItems * binSize := by
    unfold Workload.bytes
    rw [Finset.sum_const_zero, Nat.add_zero]
  refine ⟨⟨[(baseBuff, maxItems * binSize)], rfl, ?_, ?_, ?_, rfl, fun _ => Nat.zero_le _⟩, hbytes.symm, ?_, rfl, rfl⟩
  · exact hA.write _ m _ _ hok' fun x hx => zero_of_not (hx _ List.mem_cons_self)
  · refine ⟨List.nodup_singleton _, List.mem_cons_self, fun hpos e he => ?_, fun i hi _ => binPtr_zero hi,
      fun i _ h0 => absurd rfl h0, fun i _ h0 => absurd rfl h0⟩
    rw [List.mem_singleton.mp he]
    exact Nat.mul_pos hpos (by decide)
  · rw [hbytes]
    exact List.sum_singleton
  · rw [hbytes]
    exact Nat.zero_max _

theorem setupAndMain_spec (hA : Honest A ok) {iterCount : ℕ} (h3 : 3 ≤ maxItemSizeExp) (h31 : maxItemSizeExp ≤ 31)
    (hmax : maxItems ≤ 2 ^ 32 - 1) (hslots : ∀ k < 32 * (iterCount >>> 5), slots k < maxItems)
    (hs : t.tester.trace = []) :
    Act.wp (setupAndMain A numbers slots mat maxItemSizeExp iterCount maxItems)
      (fun _ u =>
        AllocatorTester.peak u.tester.trace =
            max ((Workload.after numbers slots maxItemSizeExp maxItems 0).bytes maxItems)
              (Workload.highest numbers slots maxItemSizeExp maxItems (32 * (iterCount >>> 5))) ∧
          u.allocatedMax = Workload.highest numbers slots maxItemSizeExp maxItems (32 * (iterCount >>> 5)) ∧
          u.allocatedAfterSetupSz = (Workload.after numbers slots maxItemSizeExp maxItems 0).bytes maxItems)
      (fun _ => True) t := by
  unfold setupAndMain
  have htable : u64 (maxItems * binSize) = maxItems * binSize := u64_of_lt (by unfold binSize; omega)
  rw [if_neg (by omega), htable, Act.wp_bind, Act.wp_update, Act.wp_bind, Act.wp_need]
  refine ⟨decide_eq_true hmax, ?_⟩
  have hinit := hA.init t.tester.allocatorUnderTest t.tester.mem
  rw [Act.wp_bind, wp_onTester]
  refine wp_allocate trivial fun baseBuff a m hr => ?_
  obtain ⟨hp, -⟩ := hA.allocate _ _ _ _ _ _ _ hinit hr
  rw [Act.wp_bind, Act.wp_need]
  refine ⟨decide_eq_true hp, ?_⟩
  have hstart := start_tally (r := t.allocatedAfterSetupSz) (b := t.allocatedMax) hA hinit hr
  rw [Act.wp_bind, Act.wp_update, Act.wp_bind, wp_onTester, wp_onMem, Act.wp_bind]
  dsimp only
  rw [hs, Nat.zero_add, htable]
  refine Act.wp_mono (setup_spec hA h3 h31 hmax (maxItems / 32) 0 (Nat.zero_add _) (fun _ _ => rfl) hstart) ?_
    fun _ _ => trivial
  intro _ t₁ h₁
  rw [Act.wp_bind, Act.wp_update, Act.wp_bind]
  have h₀ : Reached ok numbers slots maxItemSizeExp baseBuff maxItems (0 * (iterCount >>> 5))
      { t₁ with allocatedAfterSetupSz := t₁.allocatedSz } := by
    rw [Nat.zero_mul]
    unfold Reached Workload.highest
    rw [Nat.max_zero]
    exact ⟨h₁.follows, h₁.allocatedSz, h₁.peak, h₁.allocatedSzMax, h₁.allocatedSz⟩
  refine Act.wp_mono (mainLoop_spec hA h3 h31 hmax 32 0 (by rwa [Nat.zero_add]) h₀) ?_ fun _ _ => trivial
  intro _ t₂ h₂
  rw [Nat.zero_add] at h₂
  rw [Act.wp_bind, Act.wp_update, Act.wp_pure]
  exact ⟨h₂.peak, h₂.allocatedSzMax, h₂.allocatedAfterSetupSz⟩

end Counted

open Counted in
/-- The run in every mode, with an honest allocator: the stored maximum is the
peak of the bytes held, and so not below those after the setup, if and only if
there is no slot or some item of the main loop, when it is new, brings the bytes
back to at least what they were after the setup. -/
theorem peak_run {t : Counted σ} (hA : Honest A ok) (numbers : ℕ → UInt32) (slots : ℕ → ℕ) (mat : MEM_ACCESS_TYPE)
    {iterCount : ℕ} (h3 : 3 ≤ maxItemSizeExp) (h31 : maxItemSizeExp ≤ 31) (hmax : maxItems ≤ 2 ^ 32 - 1)
    (hslots : ∀ k < 32 * (iterCount >>> 5), slots k < maxItems) (hs : t.tester.trace = []) :
    Act.wp (Counted.randomPos_RandomSize A numbers slots mat maxItemSizeExp iterCount maxItems)
      (fun _ u =>
        (u.allocatedMax = peak u.tester.trace ∧ u.allocatedAfterSetupSz ≤ u.allocatedMax) ↔
          maxItems = 0 ∨ ∃ k < 32 * (iterCount >>> 5),
            (Workload.after numbers slots maxItemSizeExp maxItems k).sizes (slots k) = 0 ∧
              (Workload.after numbers slots maxItemSizeExp maxItems 0).bytes maxItems ≤
                (Workload.after numbers slots maxItemSizeExp maxItems (k + 1)).bytes maxItems)
      (fun _ => True) t := by
  unfold Counted.randomPos_RandomSize
  rw [Act.wp_bind]
  refine Act.wp_mono (setupAndMain_spec hA h3 h31 hmax hslots hs) ?_ fun _ _ => trivial
  intro baseBuff u hu
  obtain ⟨hpeak, hstored, hsetup⟩ := hu
  rw [Act.wp_bind, wp_onTester]
  refine Act.wp_mono (Counted.exitLoop_spec maxItems 0 rfl) ?_ fun _ _ => trivial
  intro _ u' hu'
  unfold deallocate
  rw [Act.wp_bind, wp_onTester, Act.wp_update, wp_onTester, Act.wp_update]
  dsimp only
  rw [peak_deinit, peak_deallocate, hu', hpeak, hstored, hsetup]
  -- the stored maximum is that of the items of the main loop
  rw [eq_comm, max_eq_right_iff, and_self, Workload.le_highest_iff]
  refine or_congr_left ⟨Workload.bytes_eq_zero, fun h => ?_⟩
  rw [h]
  rfl

/-- 32 rounds, one at each slot. -/
theorem peak_run_bump : Act.wp
    (Counted.randomPos_RandomSize bump (fun _ => 5) (fun k => k) .single 3 32 32)
    (fun _ u => (u.allocatedMax = peak u.tester.trace ∧ u.allocatedAfterSetupSz ≤ u.allocatedMax) ↔
      32 = 0 ∨ ∃ k < 32 * (32 >>> 5),
        (Workload.after (fun _ => 5) (fun k => k) 3 32 k).sizes k = 0 ∧
          (Workload.after (fun _ => 5) (fun k => k) 3 32 0).bytes 32 ≤
            (Workload.after (fun _ => 5) (fun k => k) 3 32 (k + 1)).bytes 32)
    (fun _ => True) ⟨⟨0, fun _ => 7, 0, 0, []⟩, 0, 0, 0, 0⟩ :=
  peak_run bump_honest _ _ .single le_rfl (by norm_num) (by norm_num) (fun k hk => hk) rfl

/-- All 32 slots are filled in the setup, and the main loop has no round: the
stored maximum is 0. -/
theorem peak_setup_only :
    (Act.exec (Counted.randomPos_RandomSize bump (fun _ => 2 ^ 32 - 1) (fun k => k) .none 3 31 32)
        ⟨⟨0, fun _ => 7, 0, 0, []⟩, 0, 0, 0, 0⟩).returned.map
      (fun q => (q.2.allocatedMax, q.2.allocatedAfterSetupSz, peak q.2.tester.trace)) = some (0, 768, 768) := by
  decide +kernel

end AllocatorTester

end IibMalloc

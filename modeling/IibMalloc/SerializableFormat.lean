/-
# SerializableAllocatorBase: formatting

`formatAllocatedPageAlignedBlock` cuts whole pages into items of one size and
links them. The items are the slots that do not start at the forbidden offset
(`items`). Only sizes that are no multiple of 32 have slots there, and these
are so small that the last slot is never one of them, so that the loop which
leaves a slot out never leaves the last one out (`last_allowed`).

`format_spec`: the links from the bucket visit exactly the items, in order.
-/
import IibMalloc.Serializable
import IibMalloc.BulkRuns
import IibMalloc.SoundingRuns

namespace IibMalloc

open Lib

namespace SerializableAllocatorBase

/-- Memory that was never initialised. -/
def raw : SerializableAllocatorBase := ⟨fun _ => 7, BulkAllocator.raw, SoundingAddressPageAllocator.raw⟩

/-! ### Sizes and slots -/

/-- The sizes that items have. -/
structure ItemSize (z : ℕ) : Prop where
  ge : 8 ≤ z
  le : z ≤ 8192
  dvd : 8 ∣ z
  steps : 32 ∣ z ∨ z = 8 ∨ z = 16 ∨ z = 24 ∨ z = 48

theorem sizeToIndexHalfExp_le {sz : ℕ} (h : sz ≤ MaxBucketSize) : sizeToIndexHalfExp sz ≤ 20 :=
  (sizeToIndexExp_le_iff (Or.inl rfl) (h.trans (by decide))).mpr (h.trans (by decide))

theorem itemSize_of_index {ix : ℕ} (h : ix ≤ 20) : ItemSize (indexToBucketSizeHalfExp ix) := by
  have hall : ∀ ix < 21, 8 ≤ indexToBucketSizeHalfExp ix ∧ indexToBucketSizeHalfExp ix ≤ 8192 ∧
      8 ∣ indexToBucketSizeHalfExp ix ∧ (32 ∣ indexToBucketSizeHalfExp ix ∨ indexToBucketSizeHalfExp ix = 8 ∨
        indexToBucketSizeHalfExp ix = 16 ∨ indexToBucketSizeHalfExp ix = 24 ∨
        indexToBucketSizeHalfExp ix = 48) := by decide +kernel
  obtain ⟨h1, h2, h3, h4⟩ := hall ix (by omega)
  exact ⟨h1, h2, h3, h4⟩

/-- The bytes of the item that a request gets. -/
def itemSize (sz : ℕ) : ℕ := indexToBucketSizeHalfExp (sizeToIndexHalfExp sz)

theorem itemSize_size {sz : ℕ} (h : sz ≤ MaxBucketSize) : ItemSize (itemSize sz) :=
  itemSize_of_index (sizeToIndexHalfExp_le h)

/-- The items of the slots `k, …, k + n - 1` of size `z` from `ptr` on. -/
def itemsFrom (ptr z k n : ℕ) : List ℕ :=
  ((List.range' k n).map fun j => ptr + j * z).filter fun a => SoundingCfg.getOffsetInPage a ≠ memForbidden

/-- The items of a segment: the slots that do not start at the forbidden offset. -/
def items (ptr sz z : ℕ) : List ℕ := itemsFrom ptr z 0 (sz / z)

variable {ptr sz z k m n cnt a fuel idx : ℕ} {s t u : St SerializableAllocatorBase}

theorem getOffsetInPage_slot (hp : 4096 ∣ ptr) : SoundingCfg.getOffsetInPage (ptr + a) = a % 4096 := by
  unfold SoundingCfg.getOffsetInPage
  rw [and_page_mask]
  omega

theorem itemsFrom_cons (hp : 4096 ∣ ptr) (hk : k * z % 4096 ≠ 16) :
    itemsFrom ptr z k (n + 1) = (ptr + k * z) :: itemsFrom ptr z (k + 1) n := by
  unfold itemsFrom
  rw [List.range'_succ, List.map_cons, List.filter_cons_of_pos]
  rw [getOffsetInPage_slot hp, memForbidden_eq]
  exact decide_eq_true hk

theorem itemsFrom_skip (hp : 4096 ∣ ptr) (hk : k * z % 4096 = 16) :
    itemsFrom ptr z k (n + 1) = itemsFrom ptr z (k + 1) n := by
  unfold itemsFrom
  rw [List.range'_succ, List.map_cons, List.filter_cons_of_neg]
  rw [getOffsetInPage_slot hp, memForbidden_eq]
  simpa using hk

theorem mem_items (hp : 4096 ∣ ptr) :
    a ∈ items ptr sz z ↔ ∃ k < sz / z, a = ptr + k * z ∧ k * z % 4096 ≠ 16 := by
  simp only [items, itemsFrom, List.mem_filter, List.mem_map, List.mem_range'_1, decide_eq_true_eq, memForbidden_eq]
  constructor
  · intro hx
    obtain ⟨⟨k, hk, rfl⟩, hoff⟩ := hx
    rw [getOffsetInPage_slot hp] at hoff
    exact ⟨k, by omega, rfl, hoff⟩
  · intro hx
    obtain ⟨k, hk, rfl, hoff⟩ := hx
    rw [← getOffsetInPage_slot hp] at hoff
    exact ⟨⟨k, by omega, rfl⟩, hoff⟩

/-- A multiple of 32 is not at the forbidden offset. -/
theorem allowed_of_dvd (hz : 32 ∣ z) : k * z % 4096 ≠ 16 := by
  have := hz.mul_left k
  generalize k * z = x at *
  omega

/-- The last slot is not at the forbidden offset: it ends in the last bytes of a
page, or its size is a multiple of 32. -/
theorem last_allowed (hz : ItemSize z) (hsz : 4096 ∣ sz) (hcnt : sz / z = cnt + 1) : cnt * z % 4096 ≠ 16 := by
  have h1 := Nat.div_add_mod' sz z
  rw [hcnt, Nat.succ_mul] at h1
  rcases hz.steps with h | rfl | rfl | rfl | rfl
  · exact allowed_of_dvd h
  all_goals omega

/-- The assertion of the loop that leaves a slot out. -/
theorem skip_assertion (hz : ItemSize z) (hsz : 4096 ∣ sz) (hcnt : sz / z = cnt) (hpos : 0 < cnt)
    (hk : (k * z + z) % 4096 = 16) :
    k * z ≠ cnt - 2 := by
  have h1 := Nat.div_add_mod' sz z
  rw [hcnt] at h1
  rcases hz.steps with h | rfl | rfl | rfl | rfl
  · rw [← Nat.succ_mul] at hk
    exact absurd hk (allowed_of_dvd h)
  all_goals omega

/-! ### The loops -/

/-- From `s` to `t` a loop has linked the items from slot `k` on; the last of
`cnt` slots is still to be written. -/
structure LinksFrom (ptr z cnt k : ℕ) (s t : St SerializableAllocatorBase) : Prop where
  calls : t.w.calls = s.w.calls
  asserts : t.w.assertsHold = s.w.assertsHold
  self : t.c = s.c
  mem : ∀ x, (∀ j, k ≤ j → j < cnt → x ≠ ptr + j * z) → t.w.mem x = s.w.mem x
  chain : Chain (store t.w.mem (ptr + (cnt - 1) * z) 0) 0 (ptr + k * z) (itemsFrom ptr z k (cnt - k))

/-- At the last slot the loop is done. -/
theorem LinksFrom.done (hp : 4096 ∣ ptr) (hp0 : 0 < ptr) (hz : 0 < z) (hl : (cnt - 1) * z % 4096 ≠ 16) (hk : k < cnt)
    (hge : ¬ k * z < (cnt - 1) * z) : LinksFrom ptr z cnt k s s := by
  obtain rfl : k = cnt - 1 := by
    have hle := Nat.le_of_mul_le_mul_right (Nat.not_lt.mp hge) hz
    omega
  refine ⟨rfl, rfl, rfl, fun _ _ => rfl, ?_⟩
  rw [show cnt - (cnt - 1) = 0 + 1 by omega, itemsFrom_cons hp hl]
  exact ⟨rfl, by omega, by rw [store_self]; rfl⟩

/-- A slot is linked to the next item, `k'`. -/
theorem LinksFrom.cons {k' : ℕ} (hp0 : 0 < ptr) (hz : 0 < z) (hkk : k < k') (hk' : k' < cnt) (hu : u.w.calls = s.w.calls)
    (hu' : u.w.assertsHold = s.w.assertsHold) (huc : u.c = s.c)
    (hmem : u.w.mem = store s.w.mem (ptr + k * z) (ptr + k' * z))
    (hitems : itemsFrom ptr z k (cnt - k) = (ptr + k * z) :: itemsFrom ptr z k' (cnt - k'))
    (h : LinksFrom ptr z cnt k' u t) : LinksFrom ptr z cnt k s t := by
  have hne : ∀ j, k < j → ptr + k * z ≠ ptr + j * z := fun j hj he => by
    have := Nat.mul_lt_mul_of_pos_right hj hz
    omega
  refine ⟨h.calls.trans hu, h.asserts.trans hu', h.self.trans huc, fun x hx => ?_, ?_⟩
  · rw [h.mem x fun j hj hj' => hx j (by omega) hj', hmem, store_ne (hx k le_rfl (by omega))]
  · rw [hitems]
    refine ⟨rfl, by omega, ?_⟩
    rw [store_ne (hne _ (by omega)), h.mem _ fun j hj _ => hne j (by omega), hmem, store_self]
    exact h.chain

theorem linkAllowed_spec (hp : 4096 ∣ ptr) (hp0 : 0 < ptr) (hz : ItemSize z) (hsz : 4096 ∣ sz)
    (hcnt : sz / z = cnt) (hpos : 0 < cnt) (hcom : ∀ j < cnt, pageState s.w.calls (ptr + j * z) = .committed) :
    ∀ (fuel k : ℕ) (s' : St SerializableAllocatorBase), s'.w.calls = s.w.calls → k < cnt → cnt ≤ k + fuel + 1 →
    k * z % 4096 ≠ 16 → Act.wp (linkAllowed ptr z cnt fuel (k * z)) (fun _ t => LinksFrom ptr z cnt k s' t)
      (fun _ => False) s' := by
  have hz0 : 0 < z := by have := hz.ge; omega
  have hlast : (cnt - 1) * z % 4096 ≠ 16 := last_allowed hz hsz (by omega)
  intro fuel
  induction fuel with
  | zero =>
    intro k s' _ hk hf _
    obtain rfl : k = cnt - 1 := by omega
    rw [linkAllowed, if_neg (lt_irrefl _), Act.wp_pure]
    exact .done hp hp0 hz0 hlast hk (lt_irrefl _)
  | succ fuel ih =>
    intro k s' hcalls hk hf hoff
    rw [linkAllowed]
    by_cases hlt : k * z < (cnt - 1) * z
    swap
    · rw [if_neg hlt, Act.wp_pure]
      exact .done hp hp0 hz0 hlast hk hlt
    have hk1 : k < cnt - 1 := Nat.lt_of_mul_lt_mul_right hlt
    have hcom' : pageState s'.w.calls (ptr + k * z) = .committed := hcalls ▸ hcom k hk
    have hitem := itemsFrom_cons (n := cnt - k - 1) hp hoff
    rw [show cnt - k - 1 + 1 = cnt - k by omega] at hitem
    have hnext : SoundingCfg.getOffsetInPage (k * z + z) = (k + 1) * z % 4096 := by
      rw [← Nat.succ_mul]
      exact and_page_mask _
    rw [if_pos hlt, hnext, memForbidden_eq]
    by_cases hsk : (k + 1) * z % 4096 = 16
    · -- the next slot is left out, and it is not the last
      have hk2 : k + 2 < cnt := by
        by_contra hge
        rw [show k + 1 = cnt - 1 by omega] at hsk
        exact hlast hsk
      have hassert : k * z ≠ cnt - 2 := skip_assertion hz hsz hcnt hpos (by rwa [Nat.succ_mul] at hsk)
      have hoff2 : (k + 2) * z % 4096 ≠ 16 := by
        rcases hz.steps with h | h
        · exact allowed_of_dvd h
        · rw [Nat.succ_mul]
          generalize (k + 1) * z = x at *
          omega
      have hitem2 := itemsFrom_skip (n := cnt - (k + 2)) hp hsk
      rw [show cnt - (k + 2) + 1 = cnt - k - 1 by omega] at hitem2
      rw [if_neg (not_not_intro hsk)]
      simp only [Act.wp_bind, Act.wp_assert, Act.wp_storeWord]
      refine ⟨hcom', ?_⟩
      rw [show k * z + z + z = (k + 2) * z by ring]
      refine Act.wp_mono (ih (k + 2) _ hcalls hk2 (by omega) hoff2) (fun _ t ht => ?_) fun _ h => h
      refine LinksFrom.cons hp0 hz0 (by omega) hk2 ?_ ?_ ?_ ?_ (hitem.trans (congrArg _ hitem2)) ht
      · rfl
      · show (s'.w.assertsHold && _) = _
        rw [decide_eq_true hassert, Bool.and_true]
      · rfl
      · show store s'.w.mem _ (ptr + k * z + z + z) = _
        rw [show ptr + k * z + z + z = ptr + (k + 2) * z by ring]
    · rw [if_pos hsk]
      simp only [Act.wp_bind, Act.wp_storeWord]
      refine ⟨hcom', ?_⟩
      rw [show k * z + z = (k + 1) * z by ring]
      refine Act.wp_mono (ih (k + 1) _ hcalls (by omega) (by omega) hsk) (fun _ t ht => ?_) fun _ h => h
      refine LinksFrom.cons hp0 hz0 (by omega) (by omega) ?_ ?_ ?_ ?_ hitem ht
      · rfl
      · rfl
      · rfl
      show store s'.w.mem _ (ptr + k * z + z) = _
      rw [show ptr + k * z + z = ptr + (k + 1) * z by ring]

theorem linkAll_spec (hp : 4096 ∣ ptr) (hp0 : 0 < ptr) (hz : ItemSize z) (h32 : 32 ∣ z) (hpos : 0 < cnt)
    (hcom : ∀ j < cnt, pageState s.w.calls (ptr + j * z) = .committed) :
    ∀ (fuel k : ℕ) (s' : St SerializableAllocatorBase), s'.w.calls = s.w.calls → k < cnt → cnt ≤ k + fuel + 1 →
    Act.wp (linkAll ptr z cnt fuel (k * z)) (fun _ t => LinksFrom ptr z cnt k s' t) (fun _ => False) s' := by
  have hz0 : 0 < z := by have := hz.ge; omega
  intro fuel
  induction fuel with
  | zero =>
    intro k s' _ hk hf
    obtain rfl : k = cnt - 1 := by omega
    rw [linkAll, if_neg (lt_irrefl _), Act.wp_pure]
    exact .done hp hp0 hz0 (allowed_of_dvd h32) hk (lt_irrefl _)
  | succ fuel ih =>
    intro k s' hcalls hk hf
    rw [linkAll]
    by_cases hlt : k * z < (cnt - 1) * z
    swap
    · rw [if_neg hlt, Act.wp_pure]
      exact .done hp hp0 hz0 (allowed_of_dvd h32) hk hlt
    have hk1 : k < cnt - 1 := Nat.lt_of_mul_lt_mul_right hlt
    have hcom' : pageState s'.w.calls (ptr + k * z) = .committed := hcalls ▸ hcom k hk
    have hitem := itemsFrom_cons (n := cnt - k - 1) (k := k) hp (allowed_of_dvd h32)
    rw [show cnt - k - 1 + 1 = cnt - k by omega] at hitem
    have hassert : SoundingCfg.getOffsetInPage (k * z + z) ≠ memForbidden := by
      rw [← Nat.succ_mul, memForbidden_eq]
      exact (and_page_mask _).trans_ne (allowed_of_dvd h32)
    rw [if_pos hlt]
    simp only [Act.wp_bind, Act.wp_assert, Act.wp_storeWord]
    refine ⟨hcom', ?_⟩
    rw [show k * z + z = (k + 1) * z by ring]
    refine Act.wp_mono (ih (k + 1) _ hcalls (by omega) (by omega)) (fun _ t ht => ?_) fun _ h => h
    refine LinksFrom.cons hp0 hz0 (by omega) (by omega) ?_ ?_ ?_ ?_ hitem ht
    · rfl
    · show (s'.w.assertsHold && _) = _
      rw [← Nat.succ_mul] at hassert
      rw [decide_eq_true hassert, Bool.and_true]
    · rfl
    · show store s'.w.mem _ (ptr + k * z + z) = _
      rw [show ptr + k * z + z = ptr + (k + 1) * z by ring]

/-! ### formatAllocatedPageAlignedBlock -/

/-- The pages from `ptr` on were made the list of bucket `idx`. -/
structure Formatted (ptr sz z idx : ℕ) (s t : St SerializableAllocatorBase) : Prop where
  calls : t.w.calls = s.w.calls
  asserts : t.w.assertsHold = s.w.assertsHold
  self : t.c = { s.c with buckets := fun i => if i = idx then ptr else s.c.buckets i }
  mem : ∀ x, (∀ k < sz / z, x ≠ ptr + k * z) → t.w.mem x = s.w.mem x
  chain : Chain t.w.mem 0 (t.c.buckets idx) (items ptr sz z)

/-- The last link is written, and the bucket. -/
theorem LinksFrom.formatted (h : LinksFrom ptr z (sz / z) 0 s t) (hcnt : 0 < sz / z) (idx : ℕ) :
    Formatted ptr sz z idx s ⟨⟨t.w.calls, store t.w.mem (ptr + (sz / z - 1) * z) 0, t.w.assertsHold⟩,
      { t.c with buckets := fun i => if i = idx then ptr else t.c.buckets i }⟩ := by
  refine ⟨h.calls, h.asserts, by rw [h.self], fun x hx => ?_, ?_⟩
  · show store t.w.mem _ 0 x = _
    rw [store_ne (hx _ (by omega)), h.mem x fun j _ hj => hx j hj]
  · have hc := h.chain
    rw [Nat.zero_mul, Nat.sub_zero, Nat.add_zero] at hc
    show Chain _ 0 (if idx = idx then ptr else _) _
    rw [if_pos rfl]
    exact hc

theorem and_31 (z : ℕ) : z &&& (memForbidden * 2 - 1) = 0 ↔ 32 ∣ z := by
  have h : z &&& (memForbidden * 2 - 1) = z % 32 := by
    rw [memForbidden_eq]
    exact Nat.and_two_pow_sub_one_eq_mod z 5
  rw [h, Nat.dvd_iff_mod_eq_zero]

/-- A block with room for an item. -/
theorem format_spec (hp : 4096 ∣ ptr) (hp0 : 0 < ptr) (hz : ItemSize z) (hsz : 4096 ∣ sz) (hroom : z ≤ sz)
    (hidx : idx < BucketCount) (hcom : ∀ x, Within ptr sz x → pageState s.w.calls x = .committed) :
    Act.wp (formatAllocatedPageAlignedBlock ptr sz z idx) (fun r t => r = true ∧ Formatted ptr sz z idx s t)
      (fun _ => False) s := by
  have hz0 : 0 < z := by have := hz.ge; omega
  have hcnt : 0 < sz / z := Nat.div_pos hroom hz0
  have hslot : ∀ j < sz / z, pageState s.w.calls (ptr + j * z) = .committed := fun j hj => by
    have h1 := Nat.mul_le_mul_right z hj
    have h2 := Nat.div_mul_le_self sz z
    rw [Nat.succ_mul] at h1
    exact hcom _ ⟨by omega, by omega⟩
  have ha1 : SoundingCfg.getOffsetInPage ptr = 0 := (and_page_mask ptr).trans (Nat.mod_eq_zero_of_dvd hp)
  have ha2 : SoundingCfg.getOffsetInPage sz = 0 := (and_page_mask sz).trans (Nat.mod_eq_zero_of_dvd hsz)
  obtain ⟨s', hs'⟩ : ∃ s' : St SerializableAllocatorBase,
      s' = ⟨⟨s.w.calls, s.w.mem, s.w.assertsHold && decide (SoundingCfg.getOffsetInPage ptr = 0) &&
        decide (SoundingCfg.getOffsetInPage sz = 0)⟩, s.c⟩ := ⟨_, rfl⟩
  have hss : s' = s := by
    rw [hs', decide_eq_true ha1, decide_eq_true ha2, Bool.and_true, Bool.and_true]
  have hend : ∀ t, LinksFrom ptr z (sz / z) 0 s' t → Act.wp (do
      Act.storeWord (ptr + (sz / z - 1) * z) 0
      setBucket idx ptr
      return true) (fun r t => r = true ∧ Formatted ptr sz z idx s t) (fun _ => False) t := fun t ht => by
    simp only [Act.wp_bind, Act.wp_storeWord, wp_setBucket, Act.wp_pure]
    refine ⟨?_, hidx, trivial, (hss ▸ ht).formatted hcnt idx⟩
    rw [ht.calls, hss]
    exact hslot _ (by omega)
  unfold formatAllocatedPageAlignedBlock
  rw [if_neg (by omega), Act.wp_bind, Act.wp_assert, Act.wp_bind, Act.wp_assert]
  change Act.wp _ _ _ (St.mk ⟨s.w.calls, s.w.mem, s.w.assertsHold && decide (SoundingCfg.getOffsetInPage ptr = 0) &&
        decide (SoundingCfg.getOffsetInPage sz = 0)⟩ s.c)
  rw [← hs']
  by_cases h32 : 32 ∣ z
  · rw [if_pos ((and_31 z).mpr h32), if_pos (by omega), Act.wp_bind]
    have hl := linkAll_spec (s := s) hp hp0 hz h32 hcnt hslot (sz / z) 0 s' (by rw [hss]) hcnt (by omega)
    rw [Nat.zero_mul] at hl
    exact Act.wp_mono hl (fun _ t ht => hend t ht) fun _ h => h
  · rw [if_neg (fun h => h32 ((and_31 z).mp h)), if_pos (by omega), Act.wp_bind]
    have hl := linkAllowed_spec (s := s) hp hp0 hz hsz rfl hcnt hslot (sz / z) 0 s' (by rw [hss]) hcnt (by omega)
      (by rw [Nat.zero_mul]; decide)
    rw [Nat.zero_mul] at hl
    exact Act.wp_mono hl (fun _ t ht => hend t ht) fun _ h => h

/-- A block without room for an item, or none. -/
theorem format_none (hp : 4096 ∣ ptr) (hsz : 4096 ∣ sz) (h : ptr = 0 ∨ sz < z) :
    Act.exec (formatAllocatedPageAlignedBlock ptr sz z idx) s = .ret false s := by
  unfold formatAllocatedPageAlignedBlock
  by_cases hp0 : ptr = 0
  · rw [if_pos hp0]
    rfl
  have ha1 : SoundingCfg.getOffsetInPage ptr = 0 := (and_page_mask ptr).trans (Nat.mod_eq_zero_of_dvd hp)
  have ha2 : SoundingCfg.getOffsetInPage sz = 0 := (and_page_mask sz).trans (Nat.mod_eq_zero_of_dvd hsz)
  have hcnt : sz / z = 0 := Nat.div_eq_of_lt (h.resolve_left hp0)
  rw [if_neg hp0, Act.exec_bind (Act.exec_assert (decide_eq_true ha1)),
    Act.exec_bind (Act.exec_assert (decide_eq_true ha2))]
  simp only [hcnt, ne_eq, not_true_eq_false, if_false, ite_self]
  rfl

/-- **Formatting builds exactly the admissible list.** For every page-aligned
block of whole pages that are mapped and every item size of a request: where an
item fits, the links from the bucket visit the slots that do not start at the
forbidden offset, in increasing order, and end in null; no other word and no
other bucket is changed and no assertion fails. Where none fits, nothing is
changed. -/
theorem format_items (s : St SerializableAllocatorBase) {block blockSz bucketidx sz : ℕ}
    (hsz : sz ≤ MaxBucketSize) (hblock : PAGE_SIZE ∣ block) (hnull : block ≠ 0) (hpages : PAGE_SIZE ∣ blockSz)
    (hidx : bucketidx < BucketCount)
    (hcom : ∀ x, Within block blockSz x → pageState s.w.calls x = .committed) :
    (itemSize sz ≤ blockSz → ∃ t,
      Act.exec (formatAllocatedPageAlignedBlock block blockSz (itemSize sz) bucketidx) s = .ret true t ∧
        Formatted block blockSz (itemSize sz) bucketidx s t) ∧
    (blockSz < itemSize sz →
      Act.exec (formatAllocatedPageAlignedBlock block blockSz (itemSize sz) bucketidx) s = .ret false s) := by
  refine ⟨fun hroom => ?_, fun hroom => format_none hblock hpages (Or.inr hroom)⟩
  have hspec := format_spec hblock (Nat.pos_of_ne_zero hnull) (itemSize_size hsz) hpages hroom hidx hcom
  obtain ⟨_, t, hx, rfl, hF⟩ := Act.returns hspec
  exact ⟨t, hx, hF⟩

/-- A page of items of 16 bytes, one of which is left out. -/
theorem format_items_page : (items 4096 4096 (itemSize 16)).length = 255 ∧ ∃ t,
    Act.exec (formatAllocatedPageAlignedBlock 4096 4096 (itemSize 16) 1)
        ⟨⟨[.allocate 4096 4096], fun _ => 7, true⟩, raw⟩ = .ret true t ∧
      Formatted 4096 4096 (itemSize 16) 1 ⟨⟨[.allocate 4096 4096], fun _ => 7, true⟩, raw⟩ t :=
  ⟨by decide +kernel, (format_items ⟨⟨[.allocate 4096 4096], fun _ => 7, true⟩, raw⟩
 (by decide) dvd_rfl (by norm_num) dvd_rfl (by decide)
    fun _ hx => if_pos hx).1 (by decide +kernel)⟩

end SerializableAllocatorBase

end IibMalloc

/-
# allocator_tester.h: random sizes and checked segments

The test program asks an allocator for segments of random sizes, fills each
with the numbers of a generator that is seeded with its address, size and
`reincarnation`, and compares them before it gives the segment back.
`checkSegment` and `fillSegmentWithRandomData` run the same generator over the
same bytes: what is filled passes (`checkSegment_fill`), nothing else does
(`checkSegment_iff`), and both keep to the segment (`checkSegment_congr`,
`fillSegment_frame`).
-/
import IibMalloc.VirtualMemory
import IibMalloc.Lib.Bytes

namespace IibMalloc

open Lib

namespace AllocatorTester

/-! ### PRNG -/

structure PRNG where
  seedVal : UInt64

/-- The next number, and the generator after it. -/
def PRNG.rng32 (rng : PRNG) : UInt32 × PRNG :=
  let ret := rng.seedVal * 0xd989bcacc137dcd5
  let seedVal := rng.seedVal ^^^ (rng.seedVal >>> 11)
  let seedVal := seedVal ^^^ (seedVal <<< 31)
  let seedVal := seedVal ^^^ (seedVal >>> 18)
  ((ret >>> 32).toUInt32, ⟨seedVal⟩)

/-! ### Sizes -/

/-- `__builtin_ctzll`, of a number of at most `fuel` bits. -/
def ctz : ℕ → ℕ → ℕ
  | 0, _ => 0
  | fuel + 1, x => if x % 2 = 1 then 0 else ctz fuel (x / 2) + 1

def calcSizeWithStatsAdjustment (randNum maxSizeExp : ℕ) : ℕ :=
  let maxSizeExp := maxSizeExp - 3
  let statClassBase := (randNum &&& (1 <<< maxSizeExp) - 1) + 1
  let randNum := randNum >>> maxSizeExp
  let idx := ctz 64 statClassBase + 2
  let szMask := (1 <<< idx) - 1
  (randNum &&& szMask) + 1 + 1 <<< idx

theorem ctz_dvd (fuel x : ℕ) : 2 ^ ctz fuel x ∣ x := by
  induction fuel generalizing x with
  | zero => exact ⟨x, by simp [ctz]⟩
  | succ fuel ih =>
    unfold ctz
    split_ifs with h
    · exact ⟨x, by simp⟩
    · obtain ⟨y, hy⟩ := ih (x / 2)
      refine ⟨y, ?_⟩
      rw [pow_succ, Nat.mul_right_comm, ← hy]
      omega

/-- A size fits in 32 bits, and is not 0. -/
theorem calcSize_bounds {randNum maxSizeExp : ℕ} (h3 : 3 ≤ maxSizeExp) (h31 : maxSizeExp ≤ 31) :
    0 < calcSizeWithStatsAdjustment randNum maxSizeExp ∧
      calcSizeWithStatsAdjustment randNum maxSizeExp ≤ 2 ^ maxSizeExp := by
  obtain ⟨e, rfl⟩ : ∃ e, maxSizeExp = e + 3 := ⟨maxSizeExp - 3, by omega⟩
  unfold calcSizeWithStatsAdjustment
  simp only [Nat.add_sub_cancel, Nat.one_shiftLeft]
  -- the class is a power of two that divides a number of at most `2 ^ e`
  have hbase : (randNum &&& 2 ^ e - 1) + 1 ≤ 2 ^ e := by
    rw [Nat.and_two_pow_sub_one_eq_mod]
    exact Nat.mod_lt _ (by positivity)
  have hidx : ctz 64 ((randNum &&& 2 ^ e - 1) + 1) ≤ e := by
    have h1 := Nat.le_of_dvd (by omega) (ctz_dvd 64 ((randNum &&& 2 ^ e - 1) + 1))
    exact (Nat.pow_le_pow_iff_right (by norm_num)).mp (h1.trans hbase)
  generalize ctz 64 ((randNum &&& 2 ^ e - 1) + 1) = idx at hidx
  have hmask : (randNum >>> e &&& 2 ^ (idx + 2) - 1) + 1 ≤ 2 ^ (idx + 2) := by
    rw [Nat.and_two_pow_sub_one_eq_mod]
    exact Nat.mod_lt _ (by positivity)
  refine ⟨by omega, ?_⟩
  calc (randNum >>> e &&& 2 ^ (idx + 2) - 1) + 1 + 2 ^ (idx + 2) ≤ 2 ^ (idx + 2) + 2 ^ (idx + 2) := by omega
    _ = 2 ^ (idx + 3) := by rw [pow_succ 2 (idx + 2)]; omega
    _ ≤ 2 ^ (e + 3) := Nat.pow_le_pow_right (by norm_num) (by omega)

/-! ### Segments -/

/-- The generator of a segment. -/
def segmentRng (ptr sz reincarnation : ℕ) : PRNG :=
  ⟨UInt64.ofNat ptr ^^^ (UInt64.ofNat sz <<< 32) ^^^ UInt64.ofNat reincarnation⟩

/-- `n` numbers from `a` on. -/
def fillWords : ℕ → ℕ → PRNG → (ℕ → ℕ) → PRNG × (ℕ → ℕ)
  | 0, _, rng, mem => (rng, mem)
  | n + 1, a, rng, mem => fillWords n (a + 4) rng.rng32.2 (writeLE mem 4 a rng.rng32.1.toNat)

/-- The low `n` bytes of `last`. -/
def fillTail : ℕ → ℕ → ℕ → (ℕ → ℕ) → (ℕ → ℕ)
  | 0, _, _, mem => mem
  | n + 1, a, last, mem => fillTail n (a + 1) (last >>> 8) (writeLE mem 1 a (last % 256))

def fillSegmentWithRandomData (ptr sz reincarnation : ℕ) (mem : ℕ → ℕ) : ℕ → ℕ :=
  let (rng, mem) := fillWords (sz >>> 2) ptr (segmentRng ptr sz reincarnation) mem
  if sz &&& 3 ≠ 0 then fillTail (sz &&& 3) (ptr + (sz >>> 2) <<< 2) rng.rng32.1.toNat mem else mem

/-- The generator after the `n` numbers, where they are the ones in memory. -/
def checkWords : ℕ → ℕ → PRNG → (ℕ → ℕ) → Option PRNG
  | 0, _, rng, _ => some rng
  | n + 1, a, rng, mem =>
    if readLE mem 4 a ≠ rng.rng32.1.toNat then none else checkWords n (a + 4) rng.rng32.2 mem

def checkTail : ℕ → ℕ → ℕ → (ℕ → ℕ) → Bool
  | 0, _, _, _ => true
  | n + 1, a, last, mem => if readLE mem 1 a ≠ last % 256 then false else checkTail n (a + 1) (last >>> 8) mem

/-- Whether `checkSegment` returns; otherwise it throws. -/
def checkSegment (ptr sz reincarnation : ℕ) (mem : ℕ → ℕ) : Bool :=
  match checkWords (sz >>> 2) ptr (segmentRng ptr sz reincarnation) mem with
  | none => false
  | some rng =>
    if sz &&& 3 ≠ 0 then checkTail (sz &&& 3) (ptr + (sz >>> 2) <<< 2) rng.rng32.1.toNat mem else true

variable {mem mem' : ℕ → ℕ} {n a x last ptr sz reincarnation : ℕ} {rng : PRNG}

theorem fillWords_frame (h : ¬ (a ≤ x ∧ x < a + 4 * n)) : (fillWords n a rng mem).2 x = mem x := by
  induction n generalizing a rng mem with
  | zero => rfl
  | succ n ih =>
    unfold fillWords
    rw [ih (by omega), writeLE_of_not (by omega)]

theorem fillTail_frame (h : ¬ (a ≤ x ∧ x < a + n)) : fillTail n a last mem x = mem x := by
  induction n generalizing a last mem with
  | zero => rfl
  | succ n ih =>
    unfold fillTail
    rw [ih (by omega), writeLE_of_not (by omega)]

theorem checkWords_congr (h : ∀ x, a ≤ x → x < a + 4 * n → mem' x = mem x) :
    checkWords n a rng mem' = checkWords n a rng mem := by
  induction n generalizing a rng with
  | zero => rfl
  | succ n ih =>
    unfold checkWords
    rw [readLE_congr fun x h1 h2 => h x h1 (by omega), ih fun x h1 h2 => h x (by omega) (by omega)]

theorem checkTail_congr (h : ∀ x, a ≤ x → x < a + n → mem' x = mem x) :
    checkTail n a last mem' = checkTail n a last mem := by
  induction n generalizing a last with
  | zero => rfl
  | succ n ih =>
    unfold checkTail
    rw [readLE_congr fun x h1 h2 => h x h1 (by omega), ih fun x h1 h2 => h x (by omega) (by omega)]

/-- The numbers that were filled in are there. -/
theorem checkWords_fill : checkWords n a rng (fillWords n a rng mem).2 = some (fillWords n a rng mem).1 := by
  induction n generalizing a rng mem with
  | zero => rfl
  | succ n ih =>
    unfold fillWords checkWords
    have hread : readLE (fillWords n (a + 4) rng.rng32.2 (writeLE mem 4 a rng.rng32.1.toNat)).2 4 a =
        rng.rng32.1.toNat := by
      rw [readLE_congr fun x h1 h2 => fillWords_frame (by omega)]
      exact readLE_writeLE (rng.rng32.1.toNat_lt)
    rw [if_neg (not_not.mpr hread)]
    exact ih

theorem checkTail_fill : checkTail n a last (fillTail n a last mem) = true := by
  induction n generalizing a last mem with
  | zero => rfl
  | succ n ih =>
    unfold fillTail checkTail
    have hread : readLE (fillTail n (a + 1) (last >>> 8) (writeLE mem 1 a (last % 256))) 1 a = last % 256 := by
      rw [readLE_congr fun x h1 h2 => fillTail_frame (by omega)]
      exact readLE_writeLE (by omega)
    rw [if_neg (not_not.mpr hread)]
    exact ih

/-- The words and the tail of a segment. -/
theorem segment_parts (sz : ℕ) : (sz >>> 2) <<< 2 = 4 * (sz >>> 2) ∧ 4 * (sz >>> 2) + (sz &&& 3) = sz := by
  have h : sz &&& 3 = sz % 4 := Nat.and_two_pow_sub_one_eq_mod sz 2
  rw [h, Nat.shiftLeft_eq, Nat.shiftRight_eq_div_pow]
  omega

theorem fillSegment_frame (h : ¬ Within ptr sz x) :
    fillSegmentWithRandomData ptr sz reincarnation mem x = mem x := by
  obtain ⟨h1, h2⟩ := segment_parts sz
  unfold Within at h
  unfold fillSegmentWithRandomData
  dsimp only
  split_ifs with h3
  · rw [fillTail_frame (by omega), fillWords_frame (by omega)]
  · rw [fillWords_frame (by omega)]

theorem checkSegment_congr (h : ∀ x, Within ptr sz x → mem' x = mem x) :
    checkSegment ptr sz reincarnation mem' = checkSegment ptr sz reincarnation mem := by
  obtain ⟨h1, h2⟩ := segment_parts sz
  unfold checkSegment
  rw [checkWords_congr fun x h3 h4 => h x ⟨h3, by omega⟩]
  cases checkWords (sz >>> 2) ptr (segmentRng ptr sz reincarnation) mem with
  | none => rfl
  | some rng =>
    dsimp only
    rw [checkTail_congr fun x h3 h4 => h x ⟨by omega, by omega⟩]

/-- What was filled passes the check. -/
theorem checkSegment_fill :
    checkSegment ptr sz reincarnation (fillSegmentWithRandomData ptr sz reincarnation mem) = true := by
  obtain ⟨h1, -⟩ := segment_parts sz
  unfold checkSegment fillSegmentWithRandomData
  dsimp only
  split_ifs with h3
  · rw [checkWords_congr fun x h4 h5 => fillTail_frame (by omega), checkWords_fill]
    exact checkTail_fill
  · rw [checkWords_fill]

theorem fillWords_lt (h : ∀ x, mem x < 256) : (fillWords n a rng mem).2 x < 256 := by
  induction n generalizing a rng mem with
  | zero => exact h x
  | succ n ih => exact ih fun _ => writeLE_lt h

theorem fillTail_lt (h : ∀ x, mem x < 256) : fillTail n a last mem x < 256 := by
  induction n generalizing a last mem with
  | zero => exact h x
  | succ n ih => exact ih fun _ => writeLE_lt h

theorem fillSegment_lt (h : ∀ x, mem x < 256) : fillSegmentWithRandomData ptr sz reincarnation mem x < 256 := by
  unfold fillSegmentWithRandomData
  dsimp only
  split_ifs with h3
  · exact fillTail_lt fun _ => fillWords_lt h
  · exact fillWords_lt h

/-- The check of the words draws as the fill does, and passes only what the
fill writes. -/
theorem checkWords_some (mem : ℕ → ℕ) {r : PRNG} (h : checkWords n a rng mem' = some r) :
    r = (fillWords n a rng mem).1 ∧
      ∀ x, a ≤ x → x < a + 4 * n → mem' x % 256 = (fillWords n a rng mem).2 x % 256 := by
  induction n generalizing a rng mem with
  | zero => exact ⟨(Option.some.inj h).symm, fun x h1 h2 => by omega⟩
  | succ n ih =>
    unfold checkWords at h
    split_ifs at h with hword
    obtain ⟨hr, hrest⟩ := ih (writeLE mem 4 a rng.rng32.1.toNat) h
    refine ⟨hr, fun x h1 h2 => ?_⟩
    unfold fillWords
    rcases Nat.lt_or_ge x (a + 4) with hlt | hge
    · -- a byte of the first number, which the later ones leave
      rw [fillWords_frame (by omega)]
      have heq : readLE mem' 4 a = readLE (writeLE mem 4 a rng.rng32.1.toNat) 4 a := by
        rw [readLE_writeLE (rng.rng32.1.toNat_lt)]
        exact not_not.mp hword
      exact readLE_inj heq h1 hlt
    · exact hrest x hge (by omega)

theorem checkTail_true (h : checkTail n a last mem' = true) :
    ∀ x, a ≤ x → x < a + n → mem' x % 256 = fillTail n a last mem x % 256 := by
  induction n generalizing a last mem with
  | zero => exact fun x h1 h2 => by omega
  | succ n ih =>
    unfold checkTail at h
    split_ifs at h with hbyte
    intro x h1 h2
    unfold fillTail
    rcases Nat.lt_or_ge x (a + 1) with hlt | hge
    · rw [fillTail_frame (by omega)]
      have heq : readLE mem' 1 a = readLE (writeLE mem 1 a (last % 256)) 1 a := by
        rw [readLE_writeLE (by omega)]
        exact not_not.mp hbyte
      exact readLE_inj heq h1 hlt
    · exact ih h x hge (by omega)

/-- What passes the check are the bytes that the fill writes. -/
theorem checkSegment_true (mem : ℕ → ℕ) (h : checkSegment ptr sz reincarnation mem' = true) (hx : Within ptr sz x) :
    mem' x % 256 = fillSegmentWithRandomData ptr sz reincarnation mem x % 256 := by
  obtain ⟨h1, h2⟩ := segment_parts sz
  obtain ⟨hge, hlt⟩ := hx
  unfold checkSegment at h
  split at h
  · cases h
  · rename_i rng hwords
    obtain ⟨rfl, hbytes⟩ := checkWords_some mem hwords
    unfold fillSegmentWithRandomData
    dsimp only
    split_ifs at h ⊢ with h3
    · rcases Nat.lt_or_ge x (ptr + 4 * (sz >>> 2)) with hw | ht
      · rw [fillTail_frame (by omega)]
        exact hbytes x hge hw
      · exact checkTail_true h x (by omega) (by omega)
    · exact hbytes x hge (by omega)

/-- The fill writes only the segment; and a later memory passes the check if
and only if each byte of the segment is the one that the fill wrote. -/
theorem checkSegment_iff (ptr sz reincarnation : ℕ) (mem later : ℕ → UInt8) :
    (∀ x, ¬ Within ptr sz x →
      fillSegmentWithRandomData ptr sz reincarnation (fun x => (mem x).toNat) x = (mem x).toNat) ∧
    (checkSegment ptr sz reincarnation (fun x => (later x).toNat) = true ↔
      ∀ x, Within ptr sz x →
        (later x).toNat = fillSegmentWithRandomData ptr sz reincarnation (fun x => (mem x).toNat) x) := by
  refine ⟨fun x hx => fillSegment_frame hx, fun h x hx => ?_, fun h => ?_⟩
  · have hbyte := checkSegment_true (fun x => (mem x).toNat) h hx
    rwa [Nat.mod_eq_of_lt (later x).toNat_lt, Nat.mod_eq_of_lt (fillSegment_lt fun y => (mem y).toNat_lt)] at hbyte
  · rw [checkSegment_congr h]
    exact checkSegment_fill

end AllocatorTester

end IibMalloc

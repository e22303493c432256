/-
# allocator_tester.h: the calls of a run

Which sizes a run asks for, and which regions it gives back when, is read off the
random numbers and the slots: `Script` is the workload with the calls that it
makes, where a region given back is told by the number of the call that it was
obtained with. `script_run`: an honest allocator gets the calls of the script, in
every mode of memory access, or the first of them up to the one that throws. So
two allocators under the same test get the same calls.
-/
import IibMalloc.TesterPeak

namespace IibMalloc

open Lib

namespace AllocatorTester

/-! ### The calls without their pointers -/

inductive Call where
  | allocate (sz : ℕ)
  | refused
  /-- of the region that the call of that number returned -/
  | deallocate (call : ℕ)
  | deinit
deriving DecidableEq

/-- The number of the call that returned `p` last. -/
def obtainedAt (p : ℕ) : List Event → ℕ
  | [] => 0
  | .allocate q _ :: es => if q = p then es.length else obtainedAt p es
  | _ :: es => obtainedAt p es

def callsOf : List Event → List Call
  | [] => []
  | .allocate _ sz :: es => .allocate sz :: callsOf es
  | .refused :: es => .refused :: callsOf es
  | .deallocate p :: es => .deallocate (obtainedAt p es) :: callsOf es
  | .deinit :: es => .deinit :: callsOf es

@[simp] theorem callsOf_length (es : List Event) : (callsOf es).length = es.length := by
  induction es with
  | nil => rfl
  | cons e es ih => cases e <;> exact congrArg (· + 1) ih

theorem obtainedAt_self (p sz : ℕ) (es : List Event) : obtainedAt p (.allocate p sz :: es) = es.length := if_pos rfl

theorem obtainedAt_ne {p q : ℕ} (h : q ≠ p) (sz : ℕ) (es : List Event) :
    obtainedAt p (.allocate q sz :: es) = obtainedAt p es := if_neg h

/-! ### The script -/

/-- The workload, the number of the call that each item was obtained with, and
the calls so far, latest first. -/
structure Script where
  w : Workload
  obtained : ℕ → ℕ
  calls : List Call

namespace Script

variable (numbers : ℕ → UInt32) (slots : ℕ → ℕ) (maxItemSizeExp maxItems : ℕ)

/-- `n` numbers are drawn. -/
def draw (n : ℕ) (S : Script) : Script := ⟨⟨S.w.sizes, S.w.drawn + n⟩, S.obtained, S.calls⟩

def fill (idx : ℕ) (S : Script) : Script :=
  ⟨S.w.fill numbers maxItemSizeExp idx, Function.update S.obtained idx S.calls.length,
    .allocate (S.w.nextSize numbers maxItemSizeExp) :: S.calls⟩

def empty (idx : ℕ) (S : Script) : Script :=
  ⟨⟨Function.update S.w.sizes idx 0, S.w.drawn⟩, S.obtained, .deallocate (S.obtained idx) :: S.calls⟩

def setupBits (i randNum : ℕ) : ℕ → ℕ → Script → Script
  | 0, _, S => S
  | n + 1, j, S =>
    setupBits i randNum n (j + 1)
      (if (randNum >>> j) &&& 1 ≠ 0 then S.fill numbers maxItemSizeExp (i * 32 + j) else S)

def setup : ℕ → ℕ → Script → Script
  | 0, _, S => S
  | n + 1, i, S => setup n (i + 1) (setupBits numbers maxItemSizeExp i (numbers S.w.drawn).toNat 32 0 (S.draw 1))

/-- A round empties the slot, or fills it. -/
def round (idx : ℕ) (S : Script) : Script :=
  if S.w.sizes idx ≠ 0 then (S.draw 2).empty idx else (S.draw 2).fill numbers maxItemSizeExp idx

/-- `n` rounds, at the slots `slots k` on. -/
def rounds : ℕ → ℕ → Script → Script
  | 0, _, S => S
  | n + 1, k, S => rounds n (k + 1) (S.round numbers maxItemSizeExp (slots k))

/-- The items of the slots from `idx` on are given back. -/
def exit : ℕ → ℕ → Script → Script
  | 0, _, S => S
  | n + 1, idx, S => exit n (idx + 1) (if S.w.sizes idx ≠ 0 then S.empty idx else S)

/-- The first call is for the table. -/
def start : Script := ⟨⟨fun _ => 0, 0⟩, fun _ => 0, [.allocate (maxItems * binSize)]⟩

/-- The script of a run up to the exit. -/
def main (iterCount : ℕ) : Script :=
  rounds numbers slots maxItemSizeExp (32 * (iterCount >>> 5)) 0
    (setup numbers maxItemSizeExp (maxItems / 32) 0 (start maxItems))

end Script

/-- All calls of a run, latest first: the last ones give back the table, and
call `deinit`. -/
def script (numbers : ℕ → UInt32) (slots : ℕ → ℕ) (maxItemSizeExp maxItems iterCount : ℕ) : List Call :=
  .deinit :: .deallocate 0 ::
    (Script.exit maxItems 0 (Script.main numbers slots maxItemSizeExp maxItems iterCount)).calls

section Fields

variable {numbers : ℕ → UInt32} {slots : ℕ → ℕ} {maxItemSizeExp idx i : ℕ} {S : Script}

namespace Script

theorem fill_obtained_self : (S.fill numbers maxItemSizeExp idx).obtained idx = S.calls.length := by
  simp [fill]

theorem fill_ne (h : i ≠ idx) : (S.fill numbers maxItemSizeExp idx).w.sizes i = S.w.sizes i ∧
    (S.fill numbers maxItemSizeExp idx).obtained i = S.obtained i := by
  simp [fill, Workload.fill, h]

theorem empty_self : (S.empty idx).w.sizes idx = 0 := by
  simp [empty]

theorem empty_ne (h : i ≠ idx) : (S.empty idx).w.sizes i = S.w.sizes i := by
  simp [empty, h]

/-- The script has the workload of the random numbers. -/
theorem setupBits_w (i randNum n j : ℕ) : (setupBits numbers maxItemSizeExp i randNum n j S).w =
    S.w.setupBits numbers maxItemSizeExp i randNum n j := by
  induction n generalizing j S with
  | zero => rfl
  | succ n ih =>
    unfold setupBits Workload.setupBits
    rw [ih]
    split_ifs
    · rfl
    · rfl

/-! ### The script grows -/

theorem setupBits_calls (i randNum n j : ℕ) : S.calls <:+ (setupBits numbers maxItemSizeExp i randNum n j S).calls := by
  induction n generalizing j S with
  | zero => exact List.suffix_refl _
  | succ n ih =>
    refine List.IsSuffix.trans ?_ (ih (j + 1))
    split_ifs
    · exact List.suffix_cons _ _
    · exact List.suffix_refl _

theorem setup_calls (n i : ℕ) : S.calls <:+ (setup numbers maxItemSizeExp n i S).calls := by
  induction n generalizing i S with
  | zero => exact List.suffix_refl _
  | succ n ih =>
    unfold setup
    refine List.IsSuffix.trans ?_ (ih (i + 1))
    exact setupBits_calls (S := S.draw 1) i (numbers S.w.drawn).toNat 32 0

theorem rounds_calls (n k : ℕ) : S.calls <:+ (rounds numbers slots maxItemSizeExp n k S).calls := by
  induction n generalizing k S with
  | zero => exact List.suffix_refl _
  | succ n ih =>
    refine List.IsSuffix.trans ?_ (ih (k + 1))
    unfold round
    split_ifs
    · exact List.suffix_cons _ _
    · exact List.suffix_cons _ _

theorem exit_calls (n idx : ℕ) : S.calls <:+ (exit n idx S).calls := by
  induction n generalizing idx S with
  | zero => exact List.suffix_refl _
  | succ n ih =>
    refine List.IsSuffix.trans ?_ (ih (idx + 1))
    split_ifs
    · exact List.suffix_cons _ _
    · exact List.suffix_refl _

theorem rounds_add (m n k : ℕ) : rounds numbers slots maxItemSizeExp (m + n) k S =
    rounds numbers slots maxItemSizeExp n (k + m) (rounds numbers slots maxItemSizeExp m k S) := by
  induction m generalizing k S with
  | zero =>
    rw [Nat.zero_add]
    rfl
  | succ m ih =>
    rw [show m + 1 + n = m + n + 1 by omega]
    show rounds numbers slots maxItemSizeExp (m + n) (k + 1) _ = _
    rw [ih, show k + 1 + m = k + (m + 1) by omega]
    rfl

end Script

end Fields

/-! ### The run plays the script -/

variable {σ : Type} {A : AllocatorUnderTest σ} {ok : σ → (ℕ → ℕ) → List (ℕ × ℕ) → Prop} {numbers : ℕ → UInt32}
  {slots : ℕ → ℕ} {mat : MEM_ACCESS_TYPE} {maxItemSizeExp baseBuff maxItems idx i j k n : ℕ}
  {S : Script} {p sz : ℕ} {s : Tester σ} {t : Counted σ} {live : List (ℕ × ℕ)} {L L' : List Call}

/-- The run was stopped after the first calls of `L`, by an `allocate` that threw
or by a check. -/
def Stopped (L : List Call) (s : Tester σ) : Prop :=
  ∃ es, callsOf es <:+ L ∧ (s.trace = es ∨ s.trace = .refused :: es)

theorem Stopped.mono (h : Stopped L s) (hL : L <:+ L') : Stopped L' s := by
  obtain ⟨es, hes, hs⟩ := h
  exact ⟨es, hes.trans hL, hs⟩

/-- The calls of the run are those of the script, and the items in the table are
those of its calls. -/
structure Plays (ok : σ → (ℕ → ℕ) → List (ℕ × ℕ) → Prop) (baseBuff maxItems : ℕ) (S : Script) (s : Tester σ) :
    Prop where
  follows : ∃ live, Follows ok baseBuff maxItems S.w live s
  calls : callsOf s.trace = S.calls
  item : ∀ i < maxItems, S.w.sizes i ≠ 0 → obtainedAt (binPtr s.mem baseBuff i) s.trace = S.obtained i
  table : obtainedAt baseBuff s.trace = 0

theorem Plays.draw (h : Plays ok baseBuff maxItems S s) (n : ℕ) :
    Plays ok baseBuff maxItems (S.draw n) { s with drawn := s.drawn + n } := by
  obtain ⟨live, hF⟩ := h.follows
  refine ⟨⟨live, hF.replay, hF.ok, hF.slots, hF.total, ?_, hF.small⟩, h.calls, h.item, h.table⟩
  exact congrArg (· + n) hF.drawn

/-- A region other than the table is given back: the slots stay as they are. -/
theorem deallocate_bin (hA : Honest A ok) (hok : ok s.allocatorUnderTest s.mem live) (hn : (live.map Prod.fst).Nodup)
    (ht : (baseBuff, maxItems * binSize) ∈ live) (hp : (p, sz) ∈ live) (hne : p ≠ baseBuff) (hi : i < maxItems) :
    binPtr (A.deallocate p s.allocatorUnderTest s.mem).2 baseBuff i = binPtr s.mem baseBuff i ∧
      binSz (A.deallocate p s.allocatorUnderTest s.mem).2 baseBuff i = binSz s.mem baseBuff i := by
  obtain ⟨hkeep, -⟩ := hA.deallocate _ _ _ hok hn _ hp
  obtain ⟨h1, h2, -⟩ := bin_congr fun x hx => hkeep _ ht hne.symm x (bin_within hi hx)
  exact ⟨h1, h2⟩

/-- The item of a slot is given back, and its pointer is null. -/
theorem Plays.empty (hA : Honest A ok) (h : Plays ok baseBuff maxItems S s) (hidx : idx < maxItems)
    (h0 : S.w.sizes idx ≠ 0) :
    Plays ok baseBuff maxItems (S.empty idx)
      ⟨(A.deallocate (binPtr s.mem baseBuff idx) s.allocatorUnderTest s.mem).1,
        writeLE (A.deallocate (binPtr s.mem baseBuff idx) s.allocatorUnderTest s.mem).2 8 (baseBuff + idx * binSize) 0,
        s.drawn, s.reincarnation, .deallocate (binPtr s.mem baseBuff idx) :: s.trace⟩ := by
  obtain ⟨live, hF⟩ := h.follows
  have hI := hF.slots.item idx hidx h0
  refine ⟨⟨_, hF.empty hA hidx h0⟩, ?_, fun i hi hi0 => ?_, h.table⟩
  · show Call.deallocate _ :: callsOf s.trace = _
    rw [h.item idx hidx h0, h.calls]
    rfl
  · have hii : i ≠ idx := fun hii => hi0 (hii ▸ Script.empty_self)
    rw [Script.empty_ne hii] at hi0
    show _ = S.obtained i
    rw [← h.item i hi hi0, ← (deallocate_bin hA hF.ok hF.slots.nodup hF.slots.table hI.held hI.ne hi).1]
    refine congrArg (obtainedAt · s.trace) (bin_congr fun x hx => writeLE_of_not fun hw => bin_apart hii hx ?_).1
    exact ⟨hw.1, by unfold binSize at *; omega⟩

namespace Counted

theorem newItem_plays (hA : Honest A ok) (h3 : 3 ≤ maxItemSizeExp) (h31 : maxItemSizeExp ≤ 31)
    (h : Plays ok baseBuff maxItems S s) (hidx : idx < maxItems) (h0 : S.w.sizes idx = 0) :
    Act.wp (newItem A numbers mat maxItemSizeExp baseBuff idx)
      (fun _ t => Plays ok baseBuff maxItems (S.fill numbers maxItemSizeExp idx) t) (Stopped S.calls) s := by
  obtain ⟨live, hF⟩ := h.follows
  refine Act.wp_mono (newItem_spec hA h3 h31 hF hidx h0) ?_
    fun t ht => ⟨s.trace, h.calls ▸ List.suffix_refl _, Or.inr ht⟩
  intro sz u hu
  obtain ⟨rfl, p, hF', htrace, hptr, hsame⟩ := hu
  have hnew : p ∉ live.map Prod.fst := (List.nodup_cons.mp hF'.slots.nodup).1
  refine ⟨⟨_, hF'⟩, ?_, fun i hi hi0 => ?_, ?_⟩
  · rw [htrace]
    exact congrArg _ h.calls
  · rw [htrace]
    by_cases hii : i = idx
    · rw [hii, hptr, obtainedAt_self, ← callsOf_length, h.calls]
      exact Script.fill_obtained_self.symm
    · obtain ⟨hsize, hobtained⟩ := @Script.fill_ne numbers maxItemSizeExp idx i S hii
      rw [hsize] at hi0
      have hheld := ptr_mem (hF.slots.item i hi hi0).held
      rw [hsame i hi hii, obtainedAt_ne (fun hp : p = _ => hnew (hp ▸ hheld)), h.item i hi hi0, hobtained]
  · rw [htrace, obtainedAt_ne fun hp : p = _ => hnew (hp ▸ ptr_mem hF.slots.table)]
    exact h.table

theorem mainStep_plays (hA : Honest A ok) (h3 : 3 ≤ maxItemSizeExp) (h31 : maxItemSizeExp ≤ 31)
    (h : Plays ok baseBuff maxItems S t.tester) (hidx : idx < maxItems) :
    Act.wp (mainStep A numbers mat maxItemSizeExp baseBuff idx)
      (fun _ u => Plays ok baseBuff maxItems (S.round numbers maxItemSizeExp idx) u.tester)
      (fun u => Stopped S.calls u.tester) t := by
  have hd := h.draw 2
  obtain ⟨live, hF⟩ := h.follows
  unfold mainStep Script.round
  simp only [Act.wp_bind, wp_onTester, wp_rng32, Act.wp_read]
  by_cases h0 : S.w.sizes idx = 0
  · rw [if_neg (not_not.mpr (hF.slots.null idx hidx h0)), if_neg (not_not.mpr h0)]
    simp only [Act.wp_bind, wp_onTester, Act.wp_update]
    exact newItem_plays hA h3 h31 hd hidx h0
  · rw [if_pos (hF.slots.item idx hidx h0).null, if_pos h0]
    rw [Act.wp_bind, wp_onTester]
    refine accessOld_spec ?_ ⟨t.tester.trace, h.calls ▸ List.suffix_refl _, Or.inl rfl⟩
    rw [Act.wp_bind, Act.wp_read, Act.wp_bind, Act.wp_update, Act.wp_bind, Act.wp_read, Act.wp_bind, wp_onTester]
    unfold deallocate
    rw [Act.wp_update, wp_onTester, wp_onMem]
    exact hd.empty hA hidx h0

/-! ### The loops -/

theorem setupBits_plays (hA : Honest A ok) (h3 : 3 ≤ maxItemSizeExp) (h31 : maxItemSizeExp ≤ 31) {randNum : ℕ}
    (hi : i * 32 + 32 ≤ maxItems) (n j : ℕ) (hj : j + n = 32) (hfresh : ∀ k, i * 32 + j ≤ k → S.w.sizes k = 0)
    (h : Plays ok baseBuff maxItems S t.tester) :
    Act.wp (setupBits A numbers mat maxItemSizeExp baseBuff i randNum n j)
      (fun _ u => Plays ok baseBuff maxItems (S.setupBits numbers maxItemSizeExp i randNum n j) u.tester)
      (fun u => Stopped (S.setupBits numbers maxItemSizeExp i randNum n j).calls u.tester) t := by
  induction n generalizing j S t with
  | zero =>
    unfold setupBits
    rw [Act.wp_pure]
    exact h
  | succ n ih =>
    have hcalls := @Script.setupBits_calls numbers maxItemSizeExp S i randNum (n + 1) j
    unfold Script.setupBits at hcalls ⊢
    unfold setupBits
    rw [Act.wp_bind, Act.wp_when]
    refine ⟨fun hbit => ?_, fun hbit => ?_⟩
    · rw [if_pos hbit] at hcalls ⊢
      rw [Act.wp_bind, wp_onTester]
      refine Act.wp_mono (newItem_plays hA h3 h31 h (by omega) (hfresh _ le_rfl)) ?_ fun u hu => hu.mono hcalls
      intro _ u hu
      rw [Act.wp_update]
      exact ih (j + 1) (by omega) (fun k hk => (Script.fill_ne (by omega)).1.trans (hfresh k (by omega))) hu
    · rw [if_neg hbit]
      exact ih (j + 1) (by omega) (fun k hk => hfresh k (by omega)) h

theorem setup_plays (hA : Honest A ok) (h3 : 3 ≤ maxItemSizeExp) (h31 : maxItemSizeExp ≤ 31) (n i : ℕ)
    (hi : i + n = maxItems / 32) (hfresh : ∀ k, i * 32 ≤ k → S.w.sizes k = 0)
    (h : Plays ok baseBuff maxItems S t.tester) :
    Act.wp (setup A numbers mat maxItemSizeExp baseBuff n i)
      (fun _ u => Plays ok baseBuff maxItems (S.setup numbers maxItemSizeExp n i) u.tester)
      (fun u => Stopped (S.setup numbers maxItemSizeExp n i).calls u.tester) t := by
  induction n generalizing i S t with
  | zero =>
    unfold setup
    rw [Act.wp_pure]
    exact h
  | succ n ih =>
    obtain ⟨live, hF⟩ := h.follows
    unfold setup Script.setup
    rw [Act.wp_bind, wp_onTester, wp_rng32, hF.drawn, Act.wp_bind]
    have hd := h.draw 1
    rw [hF.drawn] at hd
    refine Act.wp_mono (setupBits_plays (S := S.draw 1) hA h3 h31 (by omega) 32 0 rfl (fun k hk => hfresh k hk) hd) ?_
      fun u hu => hu.mono (Script.setup_calls n (i + 1))
    intro _ u hu
    refine ih (i + 1) (by omega) (fun k hk => ?_) hu
    rw [Script.setupBits_w, Workload.setupBits_sizes (by omega)]
    exact hfresh k (by omega)

theorem mainRounds_plays (hA : Honest A ok) (h3 : 3 ≤ maxItemSizeExp) (h31 : maxItemSizeExp ≤ 31) (n k : ℕ)
    (hslots : ∀ m < k + n, slots m < maxItems) (h : Plays ok baseBuff maxItems S t.tester) :
    Act.wp (mainRounds A numbers slots mat maxItemSizeExp baseBuff n k)
      (fun _ u => Plays ok baseBuff maxItems (S.rounds numbers slots maxItemSizeExp n k) u.tester)
      (fun u => Stopped (S.rounds numbers slots maxItemSizeExp n k).calls u.tester) t := by
  induction n generalizing k S t with
  | zero =>
    unfold mainRounds
    rw [Act.wp_pure]
    exact h
  | succ n ih =>
    have hcalls := @Script.rounds_calls numbers slots maxItemSizeExp S (n + 1) k
    unfold mainRounds
    rw [Act.wp_bind]
    refine Act.wp_mono (mainStep_plays hA h3 h31 h (hslots k (by omega))) ?_ fun u hu => hu.mono hcalls
    intro _ u hu
    exact ih (k + 1) (fun m hm => hslots m (by omega)) hu

theorem mainLoop_plays (hA : Honest A ok) (h3 : 3 ≤ maxItemSizeExp) (h31 : maxItemSizeExp ≤ 31) {rounds : ℕ} (n k : ℕ)
    (hslots : ∀ m < (k + n) * rounds, slots m < maxItems) (h : Plays ok baseBuff maxItems S t.tester) :
    Act.wp (mainLoop A numbers slots mat maxItemSizeExp baseBuff rounds n k)
      (fun _ u => Plays ok baseBuff maxItems (S.rounds numbers slots maxItemSizeExp (n * rounds) (k * rounds)) u.tester)
      (fun u => Stopped (S.rounds numbers slots maxItemSizeExp (n * rounds) (k * rounds)).calls u.tester) t := by
  induction n generalizing k S t with
  | zero =>
    unfold mainLoop
    rw [Act.wp_pure, Nat.zero_mul]
    exact h
  | succ n ih =>
    unfold mainLoop
    rw [show k + (n + 1) = k + 1 + n by omega] at hslots
    have hk : k * rounds + rounds = (k + 1) * rounds := by rw [Nat.add_mul, Nat.one_mul]
    have hle : (k + 1) * rounds ≤ (k + 1 + n) * rounds := Nat.mul_le_mul_right _ (by omega)
    rw [Act.wp_bind, show (n + 1) * rounds = rounds + n * rounds by rw [Nat.add_mul, Nat.one_mul, Nat.add_comm],
      Script.rounds_add, hk]
    refine Act.wp_mono (mainRounds_plays hA h3 h31 rounds (k * rounds) (fun m hm => hslots m (by omega)) h) ?_
      fun u hu => hu.mono (Script.rounds_calls _ _)
    intro _ u hu
    exact ih (k + 1) hslots hu

theorem setupAndMain_plays (hA : Honest A ok) {iterCount : ℕ} (h3 : 3 ≤ maxItemSizeExp) (h31 : maxItemSizeExp ≤ 31)
    (hmax : maxItems ≤ 2 ^ 32 - 1) (hslots : ∀ k < 32 * (iterCount >>> 5), slots k < maxItems)
    (hs : t.tester.trace = []) :
    Act.wp (setupAndMain A numbers slots mat maxItemSizeExp iterCount maxItems)
      (fun baseBuff u =>
        Plays ok baseBuff maxItems (Script.main numbers slots maxItemSizeExp maxItems iterCount) u.tester)
      (fun u => Stopped (Script.main numbers slots maxItemSizeExp maxItems iterCount).calls u.tester) t := by
  unfold setupAndMain Script.main
  have htable : u64 (maxItems * binSize) = maxItems * binSize := u64_of_lt (by unfold binSize; omega)
  rw [if_neg (by omega), htable, Act.wp_bind, Act.wp_update, Act.wp_bind, Act.wp_need]
  refine ⟨decide_eq_true hmax, ?_⟩
  have hinit := hA.init t.tester.allocatorUnderTest t.tester.mem
  rw [Act.wp_bind, wp_onTester]
  refine wp_allocate ⟨[], List.nil_suffix, Or.inr (congrArg _ hs)⟩ fun baseBuff a m hr => ?_
  obtain ⟨hp, -⟩ := hA.allocate _ _ _ _ _ _ _ hinit hr
  rw [Act.wp_bind, Act.wp_need]
  refine ⟨decide_eq_true hp, ?_⟩
  obtain ⟨live, hF⟩ := (start_tally (r := t.allocatedAfterSetupSz) (b := t.allocatedMax) hA hinit hr).follows
  rw [Act.wp_bind, Act.wp_update, Act.wp_bind, wp_onTester, wp_onMem, Act.wp_bind]
  dsimp only
  rw [hs, Nat.zero_add, htable]
  have hstart : Plays ok baseBuff maxItems (Script.start maxItems)
      ⟨a, zero m baseBuff (maxItems * binSize), 0, 0, [.allocate baseBuff (maxItems * binSize)]⟩ :=
    ⟨⟨live, hF⟩, rfl, fun _ _ h0 => absurd rfl h0, obtainedAt_self _ _ _⟩
  refine Act.wp_mono (setup_plays hA h3 h31 (maxItems / 32) 0 (Nat.zero_add _) (fun _ _ => rfl) hstart) ?_
    fun u hu => hu.mono (Script.rounds_calls _ _)
  intro _ t₁ h₁
  rw [Act.wp_bind, Act.wp_update, Act.wp_bind]
  refine Act.wp_mono (mainLoop_plays (t := { t₁ with allocatedAfterSetupSz := t₁.allocatedSz }) hA h3 h31 32 0
    (by rwa [Nat.zero_add]) h₁) ?_ fun u hu => ?_
  · intro _ t₂ h₂
    rw [Nat.zero_mul] at h₂
    rw [Act.wp_bind, Act.wp_update, Act.wp_pure]
    exact h₂
  · rwa [Nat.zero_mul] at hu

end Counted

/-! ### The exit -/

/-- The items of the slots from `idx` on, which the exit has not given back; it
leaves their pointers in the table. -/
structure Rest (ok : σ → (ℕ → ℕ) → List (ℕ × ℕ) → Prop) (baseBuff maxItems idx : ℕ) (S : Script)
    (live : List (ℕ × ℕ)) (s : Tester σ) : Prop where
  ok : ok s.allocatorUnderTest s.mem live
  nodup : (live.map Prod.fst).Nodup
  table : (baseBuff, maxItems * binSize) ∈ live
  calls : callsOf s.trace = S.calls
  obtained : obtainedAt baseBuff s.trace = 0
  null : ∀ i < maxItems, idx ≤ i → S.w.sizes i = 0 → binPtr s.mem baseBuff i = 0
  item : ∀ i < maxItems, idx ≤ i → S.w.sizes i ≠ 0 → Item s.mem baseBuff maxItems live i (S.w.sizes i) ∧
    obtainedAt (binPtr s.mem baseBuff i) s.trace = S.obtained i
  inj : ∀ i < maxItems, idx ≤ i → S.w.sizes i ≠ 0 → ∀ j < maxItems, idx ≤ j → S.w.sizes j ≠ 0 →
    binPtr s.mem baseBuff i = binPtr s.mem baseBuff j → i = j

theorem Plays.rest (h : Plays ok baseBuff maxItems S s) : ∃ live, Rest ok baseBuff maxItems 0 S live s := by
  obtain ⟨live, hF⟩ := h.follows
  exact ⟨live, hF.ok, hF.slots.nodup, hF.slots.table, h.calls, h.table, fun i hi _ h0 => hF.slots.null i hi h0,
    fun i hi _ h0 => ⟨hF.slots.item i hi h0, h.item i hi h0⟩,
    fun i hi _ h0 j hj _ hj0 he => hF.slots.inj i hi h0 j hj hj0 he⟩

theorem Rest.empty (hA : Honest A ok) (h : Rest ok baseBuff maxItems idx S live s) (hidx : idx < maxItems)
    (h0 : S.w.sizes idx ≠ 0) :
    Rest ok baseBuff maxItems (idx + 1) (S.empty idx) (release (binPtr s.mem baseBuff idx) live)
      { s with
        allocatorUnderTest := (A.deallocate (binPtr s.mem baseBuff idx) s.allocatorUnderTest s.mem).1
        mem := (A.deallocate (binPtr s.mem baseBuff idx) s.allocatorUnderTest s.mem).2
        trace := .deallocate (binPtr s.mem baseBuff idx) :: s.trace } := by
  obtain ⟨hI, hobtained⟩ := h.item idx hidx le_rfl h0
  obtain ⟨-, hok⟩ := hA.deallocate _ _ _ h.ok h.nodup _ hI.held
  have hbin : ∀ i < maxItems, _ := fun i hi => deallocate_bin hA h.ok h.nodup h.table hI.held hI.ne hi
  have hsize : ∀ i, idx + 1 ≤ i → (S.empty idx).w.sizes i = S.w.sizes i := fun i hi =>
    Script.empty_ne (by omega)
  refine ⟨hok, h.nodup.sublist (List.eraseP_sublist.map Prod.fst), (Bins.mem_release h.nodup).mpr ⟨h.table, hI.ne.symm⟩,
    ?_, h.obtained, fun i hi hle hi0 => ?_, fun i hi hle hi0 => ?_, fun i hi hle hi0 j hj hle' hj0 he => ?_⟩
  · show Call.deallocate _ :: callsOf s.trace = _
    rw [hobtained, h.calls]
    rfl
  · rw [hsize i hle] at hi0
    exact (hbin i hi).1.trans (h.null i hi (by omega) hi0)
  · rw [hsize i hle] at hi0 ⊢
    obtain ⟨⟨g1, g2, g3, g4⟩, g5⟩ := h.item i hi (by omega) hi0
    obtain ⟨h1, h2⟩ := hbin i hi
    have hne : binPtr s.mem baseBuff i ≠ binPtr s.mem baseBuff idx := fun he => by
      have := h.inj i hi (by omega) hi0 idx hidx le_rfl h0 he
      omega
    refine ⟨⟨h2.trans g1, by rwa [h1], ?_, by rwa [h1]⟩, ?_⟩
    · rw [h1]
      exact (Bins.mem_release h.nodup).mpr ⟨g3, hne⟩
    · show obtainedAt _ s.trace = S.obtained i
      rw [h1]
      exact g5
  · rw [hsize i hle] at hi0
    rw [hsize j hle'] at hj0
    rw [(hbin i hi).1, (hbin j hj).1] at he
    exact h.inj i hi (by omega) hi0 j hj (by omega) hj0 he

namespace Counted

theorem exitLoop_plays (hA : Honest A ok) (n idx : ℕ) (hidx : idx + n = maxItems)
    (h : Rest ok baseBuff maxItems idx S live s) :
    Act.wp (exitLoop A mat baseBuff n idx)
      (fun _ u => callsOf u.trace = (S.exit n idx).calls ∧ obtainedAt baseBuff u.trace = 0)
      (Stopped (S.exit n idx).calls) s := by
  induction n generalizing idx S live s with
  | zero =>
    unfold exitLoop
    rw [Act.wp_pure]
    exact ⟨h.calls, h.obtained⟩
  | succ n ih =>
    have hcalls := @Script.exit_calls S (n + 1) idx
    unfold Script.exit at hcalls ⊢
    unfold exitLoop
    rw [Act.wp_bind, Act.wp_read, Act.wp_bind, Act.wp_when]
    by_cases h0 : S.w.sizes idx = 0
    · rw [if_neg (not_not.mpr h0)]
      refine ⟨fun hp => absurd (h.null idx (by omega) le_rfl h0) hp, fun _ => ?_⟩
      exact ih (idx + 1) (by omega) ⟨h.ok, h.nodup, h.table, h.calls, h.obtained,
        fun i hi hle => h.null i hi (by omega), fun i hi hle => h.item i hi (by omega),
        fun i hi hle hi0 j hj hle' => h.inj i hi (by omega) hi0 j hj (by omega)⟩
    · rw [if_pos h0] at hcalls ⊢
      refine ⟨fun _ => ?_, fun hp => absurd (h.item idx (by omega) le_rfl h0).1.null hp⟩
      rw [Act.wp_bind]
      refine accessOld_spec ?_ ⟨s.trace, by rwa [h.calls], Or.inl rfl⟩
      unfold deallocate
      rw [Act.wp_bind, Act.wp_read, Act.wp_update]
      exact ih (idx + 1) (by omega) (h.empty hA (by omega) h0)

end Counted

open Counted in
/-- The run in every mode, with an honest allocator: the calls are those of the
script, so two allocators under the same test get the same ones; a run that
throws made the first of them. -/
theorem script_run {t : Counted σ} (hA : Honest A ok) (numbers : ℕ → UInt32) (slots : ℕ → ℕ) (mat : MEM_ACCESS_TYPE)
    {iterCount : ℕ} (h3 : 3 ≤ maxItemSizeExp) (h31 : maxItemSizeExp ≤ 31) (hmax : maxItems ≤ 2 ^ 32 - 1)
    (hslots : ∀ k < 32 * (iterCount >>> 5), slots k < maxItems) (hs : t.tester.trace = []) :
    Act.wp (Counted.randomPos_RandomSize A numbers slots mat maxItemSizeExp iterCount maxItems)
      (fun _ u => callsOf u.tester.trace = script numbers slots maxItemSizeExp maxItems iterCount)
      (fun u => Stopped (script numbers slots maxItemSizeExp maxItems iterCount) u.tester) t := by
  have hlast : (Script.exit maxItems 0 (Script.main numbers slots maxItemSizeExp maxItems iterCount)).calls <:+
      script numbers slots maxItemSizeExp maxItems iterCount :=
    (List.suffix_cons _ _).trans (List.suffix_cons _ _)
  unfold Counted.randomPos_RandomSize
  rw [Act.wp_bind]
  refine Act.wp_mono (setupAndMain_plays hA h3 h31 hmax hslots hs) ?_
    fun u hu => hu.mono ((Script.exit_calls _ _).trans hlast)
  intro baseBuff u hu
  obtain ⟨live, hR⟩ := hu.rest
  rw [Act.wp_bind, wp_onTester]
  refine Act.wp_mono (exitLoop_plays hA maxItems 0 (Nat.zero_add _) hR) ?_ fun u hu => hu.mono hlast
  intro _ u' hu'
  obtain ⟨hcalls, htable⟩ := hu'
  unfold deallocate
  rw [Act.wp_bind, wp_onTester, Act.wp_update, wp_onTester, Act.wp_update]
  show Call.deinit :: Call.deallocate (obtainedAt baseBuff u'.trace) :: callsOf u'.trace = _
  rw [hcalls, htable]
  rfl

/-- Two slots filled in the setup, and 32 rounds. -/
theorem script_run_bump : Act.wp
    (Counted.randomPos_RandomSize bump (fun _ => 5) (fun k => k) .check 3 32 32)
    (fun _ u => callsOf u.tester.trace = script (fun _ => 5) (fun k => k) 3 32 32)
    (fun u => Stopped (script (fun _ => 5) (fun k => k) 3 32 32) u.tester) ⟨⟨0, fun _ => 7, 0, 0, []⟩, 0, 0, 0, 0⟩ :=
  script_run bump_honest _ _ .check le_rfl (by norm_num) (by norm_num) (fun k hk => hk) rfl

end AllocatorTester

end IibMalloc

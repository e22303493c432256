/-
# iib_allocator.h: the test run on the allocator

`IibmallocAllocatorForTest` runs the test of `allocator_tester.h` on the
thread's `g_AllocManager`. The test reads and writes bytes, the allocator words
of the same memory: `AllocManager.state` is what the allocator sees of it, and
what it wrote is put back (`putWords`).

`Sound` is the invariant: the allocator's own, for what the test holds, and an
account of the pages taken since `init`. Its invariant needs words that are none
of the test's, so the test may write what it holds (`Sound.write`); and a call
changes no byte of what the test holds (`Sound.allocate`, `Sound.deallocate`).
This is `Honest`, as long as no chunk is given back that the allocator would merge
with a chunk that is held: so the test passes and all memory is given back, or
such a chunk was (`iibmalloc_test`). With sizes of items only the table is a
chunk, and the test passes (`iibmalloc_test_items`).
-/
import IibMalloc.TesterTwins
import IibMalloc.Threads

namespace IibMalloc

open Lib

namespace AllocatorTester

open SerializableAllocatorBase
open Threads (not_holds_empty)
open BulkAllocator (bulkAllocatorT_fits)

/-! ### The allocator under test -/

/-- `g_AllocManager`, with the calls made to the operating system. The last three
are a record of the run that no call reads. -/
structure AllocManager where
  calls : List OsCall
  assertsHold : Bool
  c : SerializableAllocatorBase
  /-- a call did not come to an end -/
  stuck : Bool
  /-- what the test holds -/
  live : List (ℕ × ℕ)
  /-- the calls before `init` -/
  before : List OsCall
  /-- a chunk was given back that is merged with one that is held -/
  merged : Bool

/-- The bytes ever mapped, which no list of the allocator is longer than. -/
def bytesMapped (calls : List OsCall) : ℕ := ((obtained calls ++ commitRanges calls).map Prod.snd).sum

namespace AllocManager

/-- What the allocator sees of the memory `m`. -/
def state (a : AllocManager) (m : ℕ → ℕ) : St SerializableAllocatorBase := ⟨⟨a.calls, word m, a.assertsHold⟩, a.c⟩

/-- After a call that ended in `t`. -/
def after (a : AllocManager) (t : St SerializableAllocatorBase) : AllocManager :=
  { a with calls := t.w.calls, assertsHold := t.w.assertsHold, c := t.c }

/-- Whether the chunk `p` would be merged with one that is held. -/
def merges (a : AllocManager) (m : ℕ → ℕ) (p : ℕ) : Bool :=
  !decide (KeepsChunks ⟨a.state m, a.live, []⟩ (.deallocate p))

/-- `g_AllocManager.initialize()` -/
def init (a : AllocManager) (m : ℕ → ℕ) : AllocManager × (ℕ → ℕ) :=
  let a := { a with stuck := false, live := [], before := a.calls, merged := false }
  match Act.exec SerializableAllocatorBase.init (a.state m) with
  | .ret _ t => (a.after t, putWords m t.w.mem)
  | _ => ({ a with stuck := true }, m)

/-- `g_AllocManager.allocate( sz )` -/
def allocate (os : Os) (sz : ℕ) (a : AllocManager) (m : ℕ → ℕ) : Option (ℕ × AllocManager × (ℕ → ℕ)) :=
  if a.stuck then some (0, a, m) else
    match Act.exec (SerializableAllocatorBase.allocate os sz) (a.state m) with
    | .ret p t => some (p, { a.after t with live := (p, sz) :: a.live }, putWords m t.w.mem)
    | .throw _ => none
    | .stuck => some (0, { a with stuck := true }, m)

/-- `g_AllocManager.deallocate( ptr )` -/
def deallocate (ptr : ℕ) (a : AllocManager) (m : ℕ → ℕ) : AllocManager × (ℕ → ℕ) :=
  let a := { a with merged := a.merged || a.merges m ptr }
  if a.stuck then (a, m) else
    match Act.exec (SerializableAllocatorBase.deallocate ptr) (a.state m) with
    | .ret _ t => ({ a.after t with live := release ptr a.live }, putWords m t.w.mem)
    | _ => ({ a with stuck := true }, m)

/-- `g_AllocManager.deinitialize()` -/
def deinit (a : AllocManager) (m : ℕ → ℕ) : AllocManager × (ℕ → ℕ) :=
  if a.stuck then (a, m) else
    match Act.exec (SerializableAllocatorBase.deinit (bytesMapped a.calls)) (a.state m) with
    | .ret _ t => ({ a.after t with live := [] }, putWords m t.w.mem)
    | _ => ({ a with stuck := true }, m)

end AllocManager

/-- `IibmallocAllocatorForTest`; `enable` and `disable` do nothing. -/
def iibmalloc (os : Os) : AllocatorUnderTest AllocManager where
  init := AllocManager.init
  allocate := AllocManager.allocate os
  deallocate := AllocManager.deallocate
  deinit := AllocManager.deinit

variable {os : Os} {a a' : AllocManager} {m m' : ℕ → ℕ} {live : List (ℕ × ℕ)} {γ : SerialGhost} {segs : List Segment}
  {s t : St SerializableAllocatorBase} {e : ℕ × ℕ} {p sz x : ℕ}

/-! ### Enough rounds -/

/-- What is mapped is in a region that a call mapped. -/
theorem mapped_in {calls : List OsCall} (hx : Mapped calls x) :
    ∃ r ∈ obtained calls ++ commitRanges calls, Within r.1 r.2 x := by
  induction calls with
  | nil => exact absurd rfl hx
  | cons call calls ih =>
    unfold Mapped at hx ih
    have hcons : ∀ {r}, r ∈ obtained calls ++ commitRanges calls →
        r ∈ obtained (call :: calls) ++ commitRanges (call :: calls) := fun {r} hr => by
      rw [List.mem_append] at hr ⊢
      cases call <;> simp only [obtained, commitRanges, List.mem_cons] <;> tauto
    cases call with
    | refused n => exact ih hx
    | release a n =>
      simp only [pageState] at hx
      split_ifs at hx
      · exact absurd rfl hx
      · exact ih hx
    | allocate a n | reserve a n | commit a n =>
      simp only [pageState] at hx
      split_ifs at hx with hin
      · exact ⟨(a, n), by simp [obtained, commitRanges], hin⟩
      · obtain ⟨r, hr, hrx⟩ := ih hx
        exact ⟨r, hcons hr, hrx⟩

/-- What was ever mapped has that many bytes. -/
theorem length_le_bytesMapped {calls : List OsCall} {l : List ℕ} (hn : l.Nodup) (hl : ∀ x ∈ l, Mapped calls x) :
    l.length ≤ bytesMapped calls := by
  have hsub : l ⊆ (obtained calls ++ commitRanges calls).flatMap fun r => List.range' r.1 r.2 := fun x hx => by
    obtain ⟨r, hr, h1, h2⟩ := mapped_in (hl x hx)
    exact List.mem_flatMap.mpr ⟨r, hr, List.mem_range'_1.mpr ⟨h1, h2⟩⟩
  have hle := (List.subperm_of_subset hn hsub).length_le
  simpa [List.length_flatMap, bytesMapped] using hle

theorem CollInv.length_le {ItemT : Type} {n : ℕ} {calls : List OsCall} {c : CollectionInPages ItemT}
    {pages used free : List ℕ} (h : CollectionInPages.CollInv n calls c pages used free) (h0 : 0 < n) :
    used.length + free.length ≤ bytesMapped calls := by
  rw [← List.length_append]
  refine length_le_bytesMapped (h.nodup_items h0) fun x hx => ?_
  unfold Mapped
  rw [h.committed h0 hx ⟨le_rfl, by omega⟩]
  decide

/-! ### The invariant -/

/-- The pages of `P` are as they were. -/
def SamePages (P : ℕ → Prop) (calls calls' : List OsCall) : Prop := ∀ x, P x → pageState calls' x = pageState calls x

theorem pages_frame : Frame Mapped SamePages where
  refl := fun _ _ => rfl
  trans h h' := fun x hx => (h' x hx).trans (h x hx)
  mono h hF := fun x hx => h x (hF x hx)
  takes h hF hx := by
    unfold Mapped
    rwa [h _ hF]

/-- The allocator is in order, `live` is held, and all pages taken since `init`
are the allocator's. -/
structure Sound (a : AllocManager) (m : ℕ → ℕ) (live : List (ℕ × ℕ)) : Prop where
  held : a.live = live
  stuck : a.stuck = false
  sizes : ∀ e ∈ live, Threads.Countable e.2
  inv : ∃ γ segs, SerialInv (a.state m) γ segs live ∧ Accounted Mapped SamePages a.before a.calls (γ.Holds live)

namespace Sound

theorem running (h : Sound a m live) : ¬ a.stuck = true := by
  rw [h.stuck]
  exact Bool.false_ne_true

theorem init (a : AllocManager) (m : ℕ → ℕ) : Sound (a.init m).1 (a.init m).2 [] ∧ (a.init m).1.merged = false := by
  obtain ⟨_, t, hx, hw, hI⟩ := Act.returns (init_world (a.state m))
  have hinit : a.init m = ({ a.after t with stuck := false, live := [], before := a.calls, merged := false },
      putWords m t.w.mem) := by
    unfold AllocManager.init AllocManager.state at *
    dsimp only
    rw [hx]
    rfl
  rw [hinit]
  refine ⟨⟨rfl, rfl, fun e he => absurd he List.not_mem_nil, .empty, [], ?_, ?_⟩, rfl⟩
  · exact SerialInv.put_back (s := t) hI m rfl rfl rfl
  · show Accounted Mapped SamePages a.calls t.w.calls _
    rw [hw]
    exact .start pages_frame not_holds_empty

theorem write (h : Sound a m live) (hm : ∀ x, (∀ e ∈ live, ¬ Within e.1 e.2 x) → m' x = m x) : Sound a m' live := by
  obtain ⟨γ, segs, hI, hA⟩ := h.inv
  exact ⟨h.held, h.stuck, h.sizes, γ, segs,
    SerialInv.bytes_written (s := a.state m) (t := a.state m') hI rfl rfl rfl rfl h.sizes hm, hA⟩

/-- What the test got last meets nothing else that it holds. -/
theorem apart (h : Sound a m (e :: live)) : ∀ e' ∈ live, Apart e e' := by
  obtain ⟨γ, segs, hI, -⟩ := h.inv
  intro e' he' x hx hx'
  have hin : ∀ d ∈ e :: live, Within d.1 d.2 x → InRegion d x := fun d hd hxd =>
    inRegion_of_within (h.sizes d hd) (hI.large d hd) hxd
  have heq := hI.region_unique List.mem_cons_self (List.mem_cons_of_mem _ he')
    (hin e List.mem_cons_self hx) (hin e' (List.mem_cons_of_mem _ he') hx')
  have hn := hI.nodup
  rw [List.map_cons] at hn
  exact (List.nodup_cons.mp hn).1 (heq ▸ List.mem_map_of_mem he')

/-- A call that returns: the allocator stays in order, and what the test holds
before and after it keeps its bytes. -/
theorem step {op : SerialOp} {r' : SerialRun} (h : Sound a m live) (a' : AllocManager) (hI : SerialInv (a.state m) γ segs live)
    (hA : Accounted Mapped SamePages a.before a.calls (γ.Holds live)) (hok : KeepsChunks ⟨a.state m, live, segs⟩ op)
    (hs : SerialRun.step os ⟨a.state m, live, segs⟩ op = some r') (hlost : ¬ (op.Loses os (a.state m) ∧ r'.live = live))
    (hop : ∀ b v, op ≠ .write b v) (hsz : ∀ e ∈ r'.live, Threads.Countable e.2) (hheld : a'.live = r'.live)
    (hstuck : a'.stuck = false) (hbefore : a'.before = a.before) (hcalls : a'.calls = r'.s.w.calls)
    (hc : a'.c = r'.s.c) : Sound a' (putWords m r'.s.w.mem) r'.live ∧
      ∀ e ∈ live, e ∈ r'.live → ∀ x, Within e.1 e.2 x → putWords m r'.s.w.mem x = m x := by
  obtain ⟨γ', hI', hS, hmem⟩ := SerialInv.moved (r := ⟨a.state m, live, segs⟩) hI hok hs
  refine ⟨⟨hheld, hstuck, hsz, γ', r'.segs, ?_, ?_⟩, fun e he he' x hx => ?_⟩
  · exact hI'.put_back (t := a'.state (putWords m r'.s.w.mem)) m hcalls hc rfl
  · rw [hbefore, hcalls]
    exact hA.step pages_frame (fun x hx => (hS.frame x hx).1) hS.fresh (hS.cover hlost)
  · exact hI.bytes_kept hI' rfl (fun b hb hb' => hmem b hb hb' (hop b)) he he' (h.sizes e he) hx

/-- A request that is served: the bytes are new. -/
theorem allocate (h : Sound a m live) (hc : Threads.Countable sz) (hr : a.allocate os sz m = some (p, a', m')) :
    p ≠ 0 ∧ p + sz ≤ 2 ^ 64 ∧ (∀ e ∈ live, Apart (p, sz) e) ∧ (∀ e ∈ live, ∀ x, Within e.1 e.2 x → m' x = m x) ∧
      Sound a' m' ((p, sz) :: live) ∧ a'.merged = a.merged := by
  obtain ⟨γ, segs, hI, hA⟩ := h.inv
  have hlt : sz < 2 ^ 64 := by
    unfold Threads.Countable at hc
    rw [memForbidden_eq, PAGE_SIZE_eq] at hc
    omega
  have hns : Act.exec (SerializableAllocatorBase.allocate os sz) (a.state m) ≠ .stuck := by
    rcases Nat.lt_or_ge MaxBucketSize sz with hbig | hsz
    · rw [allocate_large os hbig]
      exact Act.not_stuck (large_spec os hI hbig hc.counted)
    · exact Act.not_stuck (allocate_small_spec os hI hsz)
  unfold AllocManager.allocate at hr
  rw [if_neg h.running] at hr
  cases hx : Act.exec (SerializableAllocatorBase.allocate os sz) (a.state m) with
  | throw t =>
    rw [hx] at hr
    cases hr
  | stuck => exact absurd hx hns
  | ret q t =>
    rw [hx] at hr
    cases hr
    have hsz : ∀ e ∈ (p, sz) :: live, Threads.Countable e.2 := List.forall_mem_cons.mpr ⟨hc, h.sizes⟩
    have hs := SerialRun.step_allocate (r := ⟨a.state m, live, segs⟩) hlt hx
    -- a request that is served loses nothing
    obtain ⟨hS, hbytes⟩ := h.step { a.after t with live := (p, sz) :: a.live } hI hA
      (show KeepsChunks _ (.allocate sz) from trivial) hs (fun hl => by simpa using congrArg List.length hl.2)
      (fun _ _ hop => by cases hop) hsz (congrArg _ h.held) h.stuck rfl rfl rfl
    obtain ⟨hp, hend⟩ := hI.allocate_bounds hc hx
    refine ⟨hp, hend, hS.apart, fun e he x hx => hbytes e he (List.mem_cons_of_mem _ he) x hx, hS, rfl⟩

/-- A region is given back. -/
theorem deallocate (h : Sound a m live) (he : e ∈ live) (hk : a.merges m e.1 = false) :
    (∀ e' ∈ live, e'.1 ≠ e.1 → ∀ x, Within e'.1 e'.2 x → (a.deallocate e.1 m).2 x = m x) ∧
      Sound (a.deallocate e.1 m).1 (a.deallocate e.1 m).2 (release e.1 live) ∧
      (a.deallocate e.1 m).1.merged = a.merged := by
  obtain ⟨γ, segs, hI, hA⟩ := h.inv
  have hok : KeepsChunks ⟨a.state m, live, segs⟩ (.deallocate e.1) := by
    unfold AllocManager.merges at hk
    rw [h.held, Bool.not_eq_false', decide_eq_true_iff] at hk
    exact hk
  obtain ⟨t, hx⟩ := hI.deallocate_ret he hok
  -- any operating system will do, since it is not called
  have hs : SerialRun.step (Os.linear 0) ⟨a.state m, live, segs⟩ (.deallocate e.1) =
      some ⟨t, release e.1 live, segs⟩ := SerialRun.step_deallocate (List.mem_map_of_mem he) hx
  have hresult : a.deallocate e.1 m =
      ({ a.after t with live := release e.1 a.live, merged := a.merged || false }, putWords m t.w.mem) := by
    unfold AllocManager.deallocate
    rw [hk]
    dsimp only
    rw [if_neg h.running]
    unfold AllocManager.state at hx ⊢
    rw [hx]
    rfl
  rw [hresult]
  have hsz : ∀ e' ∈ release e.1 live, Threads.Countable e'.2 := fun e' he' =>
    h.sizes e' (List.mem_of_mem_eraseP he')
  obtain ⟨hS, hbytes⟩ := h.step { a.after t with live := release e.1 a.live, merged := a.merged || false } hI hA hok hs
    (fun hl => hl.1) (fun _ _ hop => by cases hop) hsz (congrArg _ h.held) h.stuck rfl rfl rfl
  refine ⟨fun e' he' hne x hx => hbytes e' he' ?_ x hx, hS, Bool.or_false _⟩
  exact (Bins.mem_release hI.nodup).mpr ⟨he', hne⟩

/-- Where nothing is held `deinit` gives all pages back. -/
theorem deinit (h : Sound a m []) : (a.deinit m).1.stuck = false ∧
    ∀ x, pageState (a.deinit m).1.calls x = pageState a.before x := by
  obtain ⟨γ, segs, hI, hA⟩ := h.inv
  have hspec : Act.wp (SerializableAllocatorBase.deinit (bytesMapped a.calls))
      (fun _ t => Deinited (a.state m) t γ ∧ Returned γ (a.state m).w t.w) (fun _ => False) (a.state m) :=
    deinit_parts hI.pages hI.bulk hI.apart (CollInv.length_le hI.pages.coll (by decide))
      (CollInv.length_le hI.bulk.coll (by decide))
  obtain ⟨_, t, hx, -, hret⟩ := Act.returns hspec
  have hresult : a.deinit m = ({ a.after t with live := [] }, putWords m t.w.mem) := by
    unfold AllocManager.deinit
    rw [if_neg h.running, hx]
  rw [hresult]
  refine ⟨h.stuck, fun x => ?_⟩
  show pageState t.w.calls x = pageState a.before x
  have hun : Unchanged (fun x => Mapped a.calls x ∧ ¬ γ.Holds [] x) (a.state m).w t.w := hret.unchanged
  by_cases hx₀ : Mapped a.before x
  · have hmapped : Mapped a.calls x := pages_frame.takes hA.same hx₀ hx₀
    exact (hun x ⟨hmapped, fun hh => hA.foreign x hh hx₀⟩).1.trans (hA.same x hx₀)
  · have hx : ¬ Mapped t.w.calls x := fun hx => by
      have hnone : BulkAllocator.BulkGhost.large bulkAllocatorT (chunksOf []) = [] := rfl
      obtain ⟨hmapped, hnot⟩ := hret.unmapped hnone hx
      exact (hA.cover x hmapped).elim hx₀ hnot
    unfold Mapped at hx hx₀
    rw [not_not.mp hx, not_not.mp hx₀]

end Sound

/-! ### The allocator with a guard -/

/-- The allocator, but for requests that are not `askable` and for a chunk that
would be merged with one that is held: that is marked, and not given back, and
requests get the same `answer` from then on. -/
def guarded (os : Os) (askable : AllocManager → ℕ → Bool) (answer : Option ℕ) : AllocatorUnderTest AllocManager where
  init := AllocManager.init
  allocate sz a m :=
    if a.merged then answer.map fun p => (p, a, m) else if askable a sz then a.allocate os sz m else none
  deallocate p a m := if a.merged || a.merges m p then ({ a with merged := true }, m) else a.deallocate p m
  deinit := AllocManager.deinit

/-- What the calls do to the record of the run. -/
theorem AllocManager.allocate_record {r : ℕ × AllocManager × (ℕ → ℕ)} (hr : a.allocate os sz m = some r) :
    r.2.1.merged = a.merged ∧ r.2.1.before = a.before := by
  unfold AllocManager.allocate at hr
  split_ifs at hr
  · cases hr
    exact ⟨rfl, rfl⟩
  · split at hr <;> cases hr <;> exact ⟨rfl, rfl⟩

theorem AllocManager.deallocate_record (a : AllocManager) (m : ℕ → ℕ) (p : ℕ) :
    (a.deallocate p m).1.merged = (a.merged || a.merges m p) ∧ (a.deallocate p m).1.before = a.before := by
  unfold AllocManager.deallocate
  dsimp only
  split_ifs
  · exact ⟨rfl, rfl⟩
  · split <;> exact ⟨rfl, rfl⟩

theorem AllocManager.deinit_record (a : AllocManager) (m : ℕ → ℕ) :
    (a.deinit m).1.merged = a.merged ∧ (a.deinit m).1.before = a.before := by
  unfold AllocManager.deinit
  split_ifs
  · exact ⟨rfl, rfl⟩
  · split <;> exact ⟨rfl, rfl⟩

theorem init_before (a : AllocManager) (m : ℕ → ℕ) : (a.init m).1.before = a.calls := by
  unfold AllocManager.init
  dsimp only
  split <;> rfl

/-- A chunk was given back that was merged with one that is held. -/
abbrev Merged (a : AllocManager) : Prop := a.merged = true

variable {askable : AllocManager → ℕ → Bool} {answer : Option ℕ} {asks : ℕ → Prop}

theorem guarded_allocate (hm : a.merged = false) (hc : askable a sz = true) :
    (guarded os askable answer).allocate sz a m = a.allocate os sz m := by
  unfold guarded
  simp only [hm, hc, Bool.false_eq_true, if_false, if_true]

theorem guarded_agree (h : ∀ a sz, asks sz → askable a sz = true) :
    Agree (iibmalloc os) (guarded os askable answer) Merged asks where
  left :=
    { allocate := fun a m sz r ha hr => (AllocManager.allocate_record hr).1.trans ha
      deallocate := fun a m p ha => by
        show (a.deallocate p m).1.merged = true
        rw [(a.deallocate_record m p).1, ha, Bool.true_or]
      deinit := fun a m ha => (a.deinit_record m).1.trans ha }
  right :=
    { allocate := fun a m sz r ha hr => by
        unfold guarded at hr
        simp only [if_pos ha] at hr
        obtain ⟨p, -, rfl⟩ := Option.map_eq_some_iff.mp hr
        exact ha
      deallocate := fun a m p ha => by
        unfold guarded
        simp only [ha, Bool.true_or, if_true]
      deinit := fun a m ha => (a.deinit_record m).1.trans ha }
  init := rfl
  deinit := rfl
  allocate a m sz hsz := by
    by_cases ha : a.merged = true
    · exact Or.inr ha
    · exact Or.inl (guarded_allocate (Bool.eq_false_iff.mpr ha) (h a sz hsz)).symm
  deallocate a m p := by
    by_cases ha : (a.merged || a.merges m p) = true
    · refine Or.inr ⟨(a.deallocate_record m p).1.trans ha, ?_⟩
      unfold guarded
      simp only [if_pos ha]
    · apply Or.inl
      unfold guarded
      simp only [if_neg ha]
      rfl

/-- The record of the calls before `init` stays. -/
theorem guarded_before (calls : List OsCall) :
    Invariant (guarded os askable answer) (fun t => t.allocatorUnderTest.before = calls) fun _ => True where
  throw _ _ := trivial
  own s t ha _ hs := by rwa [ha]
  refused _ _ _ _ := trivial
  allocate s sz p a m hs hr := by
    unfold guarded at hr
    simp only at hr
    split_ifs at hr
    · obtain ⟨q, -, hq⟩ := Option.map_eq_some_iff.mp hr
      cases hq
      exact hs
    · exact (AllocManager.allocate_record hr).2.trans hs
  deallocate s p hs := by
    unfold guarded
    dsimp only
    split_ifs
    · exact hs
    · exact (AllocManager.deallocate_record _ _ p).2.trans hs
  deinit s hs := (AllocManager.deinit_record _ _).2.trans hs

/-! ### Any sizes -/

/-- A request that can be served. -/
def countable (_ : AllocManager) (sz : ℕ) : Bool := decide (Threads.Countable sz)

theorem guarded_honest (os : Os) : Honest (guarded os countable none) fun a m live => Merged a ∨ Sound a m live where
  init a m := Or.inr (Sound.init a m).1
  allocate a m live sz p a' m' hok hr := by
    unfold guarded countable at hr
    simp only [decide_eq_true_eq] at hr
    split_ifs at hr with hm hc
    · cases hr
    · obtain ⟨h1, h2, h3, h4, h5, -⟩ := (hok.resolve_left hm).allocate hc hr
      exact ⟨h1, h2, h3, h4, Or.inr h5⟩
  deallocate a m live hok _ e he := by
    unfold guarded
    dsimp only
    split_ifs with hm
    · exact ⟨fun _ _ _ _ _ => rfl, Or.inl rfl⟩
    · obtain ⟨hmerged, hmerges⟩ := Bool.or_eq_false_iff.mp (Bool.eq_false_iff.mpr hm)
      obtain ⟨h1, h2, -⟩ := (hok.resolve_left (Bool.eq_false_iff.mp hmerged)).deallocate he hmerges
      exact ⟨h1, Or.inr h2⟩
  write a m m' live hok hm := hok.imp_right fun h => h.write hm

/-- The run came to its end: each pointer was given back once, no call went wrong,
and the pages are as before it. -/
structure Clean (s t : Tester AllocManager) : Prop where
  trace : ∃ es, t.trace = .deinit :: es ∧ replay es = some []
  stuck : t.allocatorUnderTest.stuck = false
  pages : ∀ x, pageState t.allocatorUnderTest.calls x = pageState s.allocatorUnderTest.calls x

variable {numbers : ℕ → UInt32} {slots : ℕ → ℕ} {maxItemSizeExp maxItems iterCount : ℕ} {s t : Tester AllocManager}

/-- What a run that ended in order has done. -/
theorem Clean.of_sound (htrace : ∃ es, t.trace = .deinit :: es ∧ replay es = some []) (h : Sound a m [])
    (ht : t.allocatorUnderTest = (a.deinit m).1)
    (hb : t.allocatorUnderTest.before = s.allocatorUnderTest.calls) : Clean s t := by
  obtain ⟨hstuck, hpages⟩ := h.deinit
  rw [ht, (a.deinit_record m).2] at hb
  rw [← ht] at hstuck hpages
  exact ⟨htrace, hstuck, fun x => by rw [hpages x, hb]⟩

theorem items_countable (hsz : sz ≤ MaxBucketSize) : Threads.Countable sz := by
  unfold Threads.Countable
  rw [memForbidden_eq, PAGE_SIZE_eq]
  have hmax : MaxBucketSize = 8192 := by decide
  omega

theorem table_countable (hmax : maxItems ≤ 2 ^ 32 - 1) : Threads.Countable (u64 (maxItems * binSize)) := by
  unfold Threads.Countable binSize
  rw [memForbidden_eq, PAGE_SIZE_eq, u64_of_lt (by omega)]
  omega

/-- **The test passes, and all memory is given back**, or a chunk was given back
that the allocator merged with one that was held: where no such chunk was, no check
fails and only a request may throw. -/
theorem iibmalloc_test (os : Os) (numbers : ℕ → UInt32) (slots : ℕ → ℕ) (h3 : 3 ≤ maxItemSizeExp)
    (h31 : maxItemSizeExp ≤ 31) (hmax : maxItems ≤ 2 ^ 32 - 1)
    (hslots : ∀ k < 32 * (iterCount >>> 5), slots k < maxItems) (hs : s.trace = []) :
    Act.wp (randomPos_RandomSize (iibmalloc os) numbers slots maxItemSizeExp iterCount maxItems)
      (fun _ t => Merged t.allocatorUnderTest ∨ Clean s t) (fun t => Merged t.allocatorUnderTest ∨ Refused t) s := by
  have hspec := Act.wp_and_wlp (run_spec (guarded_honest os) numbers slots h3 h31 hmax hslots hs)
    (run_keeps (guarded_before s.allocatorUnderTest.calls) (by omega) (init_before _ _))
  have hsz : Sizes Threads.Countable maxItemSizeExp := fun r => by
    have hle := (@calcSize_bounds r maxItemSizeExp h3 h31).2
    have hpow : 2 ^ maxItemSizeExp ≤ 2 ^ 31 := Nat.pow_le_pow_right (by norm_num) h31
    unfold Threads.Countable
    rw [memForbidden_eq, PAGE_SIZE_eq]
    omega
  have hagree : Agree (iibmalloc os) (guarded os countable none) Merged Threads.Countable :=
    guarded_agree fun _ _ h => decide_eq_true h
  have htable := (hagree.allocate (s.allocatorUnderTest.init s.mem).1 (s.allocatorUnderTest.init s.mem).2 _
    (table_countable hmax)).resolve_right (Bool.eq_false_iff.mp (Sound.init _ _).2)
  refine Act.wp_mono ((run_until hagree hsz htable).or_bad hspec) ?_ fun t ht => ht.imp_right And.left
  rintro _ t (hm | ⟨⟨⟨a, m, hok, ha⟩, htrace⟩, hb⟩)
  · exact Or.inl hm
  · rcases hok with hm | hS
    · apply Or.inl
      rw [ha]
      exact (a.deinit_record m).1.trans hm
    · exact Or.inr (.of_sound htrace hS ha hb)

/-- The test on a fresh thread. -/
def freshTest : Tester AllocManager := ⟨⟨[], true, SerializableAllocatorBase.raw, false, [], [], false⟩, fun _ => 7, 0, 0, []⟩

/-- Two slots filled in the setup, and the 32 slots visited in turn. -/
theorem iibmalloc_test_two : Act.wp
    (randomPos_RandomSize (iibmalloc (Os.linear 0)) (fun _ => 5) (fun k => k) 16 32 32)
    (fun _ t => Merged t.allocatorUnderTest ∨ Clean freshTest t) (fun t => Merged t.allocatorUnderTest ∨ Refused t)
    freshTest :=
  iibmalloc_test _ _ _ (by norm_num) (by norm_num) (by norm_num) (fun _ hk => hk) rfl

/-! ### Sizes of items -/

/-- The only chunk that the test holds is merged with none. -/
theorem Sound.not_merges (h : Sound a m live) (hone : (chunksOf live).length ≤ 1) (he : e ∈ live) :
    a.merges m e.1 = false := by
  obtain ⟨γ, segs, hI, -⟩ := h.inv
  unfold AllocManager.merges
  rw [h.held, Bool.not_eq_false', decide_eq_true_iff]
  intro hoff
  rw [memForbidden_eq] at hoff
  have hoff : e.1 % 4096 = 16 := (and_page_mask e.1).symm.trans hoff
  have hbig : MaxBucketSize < e.2 := by
    by_contra hsz
    exact hI.item_offset (hI.small e he (by omega)).1 hoff
  rw [ptrToPageStart_chunk hoff]
  exact hI.bulk.not_merges_only bulkAllocatorT_fits (mem_chunksOf he hbig) hone

/-- A request that is for an item, or the first. -/
def itemOrFirst (a : AllocManager) (sz : ℕ) : Bool :=
  decide (Threads.Countable sz ∧ (sz ≤ MaxBucketSize ∨ a.live = []))

theorem guarded_items (os : Os) : Honest (guarded os itemOrFirst (some 0)) fun a m live =>
    a.merged = false ∧ Sound a m live ∧ (chunksOf live).length ≤ 1 where
  init a m := ⟨(Sound.init a m).2, (Sound.init a m).1, Nat.zero_le _⟩
  allocate a m live sz p a' m' hok hr := by
    obtain ⟨hm, hS, hone⟩ := hok
    unfold guarded itemOrFirst at hr
    simp only [hm, Bool.false_eq_true, if_false, decide_eq_true_eq] at hr
    split_ifs at hr with hc
    obtain ⟨h1, h2, h3, h4, h5, h6⟩ := hS.allocate hc.1 hr
    refine ⟨h1, h2, h3, h4, h6.trans hm, h5, ?_⟩
    rcases hc.2 with hsz | hfirst
    · rwa [chunksOf_small hsz]
    · rw [← hS.held, hfirst]
      unfold chunksOf
      rw [List.length_map]
      exact List.length_filter_le _ _
  deallocate a m live hok _ e he := by
    obtain ⟨hm, hS, hone⟩ := hok
    have hmerges := hS.not_merges hone he
    unfold guarded
    simp only [hm, hmerges, Bool.or_self, Bool.false_eq_true, if_false]
    obtain ⟨h1, h2, h3⟩ := hS.deallocate he hmerges
    refine ⟨h1, h3.trans hm, h2, hone.trans' ?_⟩
    exact (((List.eraseP_sublist).filter _).map _).length_le
  write a m m' live hok hm := ⟨hok.1, hok.2.1.write hm, hok.2.2⟩

/-- A request that throws finds no mark. -/
theorem guarded_refuses (p : ℕ) : Invariant (guarded os askable (some p)) (fun t => Event.refused ∉ t.trace)
    fun t => Refused t → ¬ Merged t.allocatorUnderTest where
  throw s hs hr := by
    obtain ⟨es, live, ht, -⟩ := hr
    rw [ht] at hs
    exact absurd List.mem_cons_self hs
  own s t _ ht hs := by rwa [ht]
  refused s sz _ hr _ hm := by
    unfold guarded at hr
    simp only [if_pos hm] at hr
    cases hr
  allocate s sz p a m hs _ := by simpa using hs
  deallocate s p hs := by simpa using hs
  deinit s hs := by simpa using hs

/-- **The test with sizes of items passes, and all memory is given back**: only a
request may throw. -/
theorem iibmalloc_test_items (os : Os) (numbers : ℕ → UInt32) (slots : ℕ → ℕ) (h3 : 3 ≤ maxItemSizeExp)
    (h13 : maxItemSizeExp ≤ 13) (hmax : maxItems ≤ 2 ^ 32 - 1)
    (hslots : ∀ k < 32 * (iterCount >>> 5), slots k < maxItems) (hs : s.trace = []) :
    Act.wp (randomPos_RandomSize (iibmalloc os) numbers slots maxItemSizeExp iterCount maxItems)
      (fun _ t => Clean s t) Refused s := by
  have hspec := Act.wp_and_wlp (Act.wp_and_wlp
    (run_spec (guarded_items os) numbers slots h3 (by omega) hmax hslots hs)
    (run_keeps (guarded_before s.allocatorUnderTest.calls) (by omega) (init_before _ _)))
    (run_keeps (guarded_refuses 0) (by omega) (by rw [hs]; exact List.not_mem_nil))
  have hsz : Sizes (· ≤ MaxBucketSize) maxItemSizeExp := fun r => by
    have hle := (@calcSize_bounds r maxItemSizeExp h3 (by omega)).2
    have hpow : 2 ^ maxItemSizeExp ≤ 2 ^ 13 := Nat.pow_le_pow_right (by norm_num) h13
    exact hle.trans hpow
  have hagree : Agree (iibmalloc os) (guarded os itemOrFirst (some 0)) Merged (· ≤ MaxBucketSize) :=
    guarded_agree fun _ sz hsz => decide_eq_true ⟨items_countable hsz, Or.inl hsz⟩
  have htable : itemOrFirst (s.allocatorUnderTest.init s.mem).1 (u64 (maxItems * binSize)) = true :=
    decide_eq_true ⟨table_countable hmax, Or.inr (Sound.init _ _).1.held⟩
  refine Act.wp_mono ((run_until hagree hsz ?_).of_not_bad hspec ?_ ?_) ?_ fun t ht => ht.1.1
  · exact (guarded_allocate (Sound.init _ _).2 htable).symm
  · rintro _ t ⟨⟨⟨⟨a, m, hok, ha⟩, -⟩, -⟩, -⟩ hm
    unfold Marked at hm
    rw [ha] at hm
    have hmerged : a.merged = true := (a.deinit_record m).1.symm.trans hm
    rw [hok.1] at hmerged
    cases hmerged
  · exact fun t ht => ht.2 ht.1.1
  · rintro _ t ⟨⟨⟨⟨a, m, hok, ha⟩, htrace⟩, hb⟩, -⟩
    exact .of_sound htrace hok.2.1 ha hb

theorem iibmalloc_test_items_two : Act.wp
    (randomPos_RandomSize (iibmalloc (Os.linear 0)) (fun _ => 5) (fun k => k) 13 32 32)
    (fun _ t => Clean freshTest t) Refused freshTest :=
  iibmalloc_test_items _ _ _ (by norm_num) le_rfl (by norm_num) (fun _ hk => hk) rfl

end AllocatorTester

end IibMalloc

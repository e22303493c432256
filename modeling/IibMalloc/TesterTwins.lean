/-
# allocator_tester.h: two allocators under one test

The test run is the same program whatever allocator it runs on: `Parts` says of a
relation between programs that the calls of the two allocators are in it, and that
it is closed under what the run is made of, so that the two runs are in it.

`Agree` says of two allocators that they do the same on the requests `asks`, until
one of them marks its state `bad`. Then the run does the same with both, or ends
with the mark (`run_until`), whatever the sizes drawn and the slots picked. So what
is proved of an honest allocator holds of one that is honest until it is marked.

`run_keeps` is an invariant of the run that needs no honesty of the allocator.
-/
import IibMalloc.TesterRuns

namespace IibMalloc

open Lib

namespace AllocatorTester

variable {σ : Type} {A B : AllocatorUnderTest σ} {bad : σ → Prop} {asks : ℕ → Prop} {numbers : ℕ → UInt32}
  {slots : ℕ → ℕ} {maxItemSizeExp baseBuff maxItems iterCount : ℕ} {s : Tester σ}

/-! ### The parts of the run -/

/-- A relation between a program on `A` and one on `B` that the calls are in, and
that is closed under what the run is made of. -/
structure Parts (A B : AllocatorUnderTest σ) (asks : ℕ → Prop)
    (P : ∀ {α : Type}, Act (Tester σ) α → Act (Tester σ) α → Prop) : Prop where
  pure : ∀ {α : Type} (a : α), P (Pure.pure a) (Pure.pure a)
  read : ∀ {α : Type} (f : Tester σ → α), P (Act.read f) (Act.read f)
  throw : P (Act.throw : Act (Tester σ) Unit) Act.throw
  bind : ∀ {α β : Type} {x y : Act (Tester σ) α} {f g : α → Act (Tester σ) β}, P x y → (∀ a, P (f a) (g a)) →
    P (x >>= f) (y >>= g)
  /-- what the test does to its own state -/
  own : ∀ f : Tester σ → Tester σ, (∀ s, (f s).allocatorUnderTest = s.allocatorUnderTest ∧ (f s).trace = s.trace) →
    P (Act.update f) (Act.update f)
  allocate : ∀ sz, asks sz → P (allocate A sz) (allocate B sz)
  deallocate : ∀ p, P (deallocate A p) (deallocate B p)
  deinit : P
    (Act.update fun s =>
      { s with
        allocatorUnderTest := (A.deinit s.allocatorUnderTest s.mem).1
        mem := (A.deinit s.allocatorUnderTest s.mem).2, trace := .deinit :: s.trace })
    (Act.update fun s =>
      { s with
        allocatorUnderTest := (B.deinit s.allocatorUnderTest s.mem).1
        mem := (B.deinit s.allocatorUnderTest s.mem).2, trace := .deinit :: s.trace })

/-- The sizes of the segments are requests of `asks`. -/
def Sizes (asks : ℕ → Prop) (maxItemSizeExp : ℕ) : Prop :=
  ∀ randNumSz, asks (calcSizeWithStatsAdjustment randNumSz maxItemSizeExp)

namespace Parts

variable {P : ∀ {α : Type}, Act (Tester σ) α → Act (Tester σ) α → Prop}

theorem when (h : Parts A B asks P) {c : Prop} [Decidable c] {x y : Act (Tester σ) Unit} (hxy : P x y) :
    P (Act.when c x) (Act.when c y) := by
  unfold Act.when
  split_ifs
  · exact hxy
  · exact h.pure ()

theorem onMem (h : Parts A B asks P) (f : (ℕ → ℕ) → (ℕ → ℕ)) : P (onMem f) (onMem f) := h.own _ fun _ => ⟨rfl, rfl⟩

theorem rng32 (h : Parts A B asks P) : P (rng32 numbers) (rng32 numbers) :=
  h.bind (h.read _) fun _ => h.bind (h.own _ fun _ => ⟨rfl, rfl⟩) fun _ => h.pure _

theorem fillSlot (h : Parts A B asks P) (hsz : Sizes asks maxItemSizeExp) (idx : ℕ) :
    P (fillSlot A numbers maxItemSizeExp baseBuff idx) (fillSlot B numbers maxItemSizeExp baseBuff idx) := by
  unfold AllocatorTester.fillSlot rng64
  refine h.bind (h.bind h.rng32 fun _ => h.bind h.rng32 fun _ => h.pure _) fun randNumSz => ?_
  refine h.bind (h.onMem _) fun _ => h.bind (h.allocate _ (hsz randNumSz)) fun ptr => ?_
  refine h.bind (h.onMem _) fun _ => h.bind (h.read _) fun _ => h.bind (h.onMem _) fun _ => ?_
  exact h.bind (h.read _) fun _ => h.bind (h.onMem _) fun _ => h.own _ fun _ => ⟨rfl, rfl⟩

theorem releaseSlot (h : Parts A B asks P) (idx : ℕ) : P (releaseSlot A baseBuff idx) (releaseSlot B baseBuff idx) := by
  unfold AllocatorTester.releaseSlot
  refine h.bind (h.read _) fun passes => ?_
  split_ifs
  · exact h.bind (h.read _) fun _ => h.deallocate _
  · exact h.throw

theorem setupBits (h : Parts A B asks P) (hsz : Sizes asks maxItemSizeExp) (i randNum n j : ℕ) :
    P (setupBits A numbers maxItemSizeExp baseBuff i randNum n j)
      (setupBits B numbers maxItemSizeExp baseBuff i randNum n j) := by
  induction n generalizing j with
  | zero => exact h.pure _
  | succ n ih => exact h.bind (h.when (h.fillSlot hsz _)) fun _ => ih (j + 1)

theorem setup (h : Parts A B asks P) (hsz : Sizes asks maxItemSizeExp) (n i : ℕ) :
    P (setup A numbers maxItemSizeExp baseBuff n i) (setup B numbers maxItemSizeExp baseBuff n i) := by
  induction n generalizing i with
  | zero => exact h.pure _
  | succ n ih => exact h.bind h.rng32 fun _ => h.bind (h.setupBits hsz _ _ _ _) fun _ => ih (i + 1)

theorem mainStep (h : Parts A B asks P) (hsz : Sizes asks maxItemSizeExp) (idx : ℕ) :
    P (mainStep A numbers maxItemSizeExp baseBuff idx) (mainStep B numbers maxItemSizeExp baseBuff idx) := by
  unfold AllocatorTester.mainStep
  refine h.bind h.rng32 fun _ => h.bind h.rng32 fun _ => h.bind (h.read _) fun ptr => ?_
  split_ifs
  · exact h.bind (h.releaseSlot idx) fun _ => h.onMem _
  · exact h.fillSlot hsz idx

theorem mainRounds (h : Parts A B asks P) (hsz : Sizes asks maxItemSizeExp) (n k : ℕ) :
    P (mainRounds A numbers slots maxItemSizeExp baseBuff n k)
      (mainRounds B numbers slots maxItemSizeExp baseBuff n k) := by
  induction n generalizing k with
  | zero => exact h.pure _
  | succ n ih => exact h.bind (h.mainStep hsz _) fun _ => ih (k + 1)

theorem mainLoop (h : Parts A B asks P) (hsz : Sizes asks maxItemSizeExp) (rounds n k : ℕ) :
    P (mainLoop A numbers slots maxItemSizeExp baseBuff rounds n k)
      (mainLoop B numbers slots maxItemSizeExp baseBuff rounds n k) := by
  induction n generalizing k with
  | zero => exact h.pure _
  | succ n ih => exact h.bind (h.mainRounds hsz _ _) fun _ => ih (k + 1)

theorem exitLoop (h : Parts A B asks P) (n idx : ℕ) : P (exitLoop A baseBuff n idx) (exitLoop B baseBuff n idx) := by
  induction n generalizing idx with
  | zero => exact h.pure _
  | succ n ih => exact h.bind (h.read _) fun _ => h.bind (h.when (h.releaseSlot idx)) fun _ => ih (idx + 1)

end Parts

/-! ### The same until a mark -/

/-- The mark stays. -/
structure Marks (A : AllocatorUnderTest σ) (bad : σ → Prop) : Prop where
  allocate : ∀ a m sz r, bad a → A.allocate sz a m = some r → bad r.2.1
  deallocate : ∀ a m p, bad a → bad (A.deallocate p a m).1
  deinit : ∀ a m, bad a → bad (A.deinit a m).1

/-- Two allocators that do the same where `asks` allows the request, until one
marks its state. -/
structure Agree (A B : AllocatorUnderTest σ) (bad : σ → Prop) (asks : ℕ → Prop) : Prop where
  left : Marks A bad
  right : Marks B bad
  init : A.init = B.init
  deinit : A.deinit = B.deinit
  allocate : ∀ a m sz, asks sz → A.allocate sz a m = B.allocate sz a m ∨ bad a
  deallocate : ∀ a m p, A.deallocate p a m = B.deallocate p a m ∨
    bad (A.deallocate p a m).1 ∧ bad (B.deallocate p a m).1

/-- The mark, in the state of a run. -/
def Marked (bad : σ → Prop) (s : Tester σ) : Prop := bad s.allocatorUnderTest

theorem allocate_congr {sz : ℕ}
    (h : A.allocate sz s.allocatorUnderTest s.mem = B.allocate sz s.allocatorUnderTest s.mem) :
    Act.exec (allocate A sz) s = Act.exec (allocate B sz) s := by
  unfold allocate
  exact Act.exec_bind_congr (y := Act.read fun s : Tester σ => B.allocate sz s.allocatorUnderTest s.mem)
    (congrArg (Outcome.ret · s) h) fun _ _ _ => rfl

theorem allocate_stays {sz : ℕ} (h : Marks A bad) : Act.Stays (Marked bad) (allocate A sz) := fun s hs =>
  wp_allocate hs fun _ _ _ hr => h.allocate _ s.mem sz _ hs hr

/-- The runs of two allocators that agree. -/
theorem Agree.parts (h : Agree A B bad asks) : Parts A B asks (Act.Twins (Marked bad)) where
  pure := .pure
  read := .read
  throw := .throw
  bind := .bind
  own f hf := .update fun s hs => by
    unfold Marked at hs ⊢
    rwa [(hf s).1]
  allocate sz hsz := by
    refine ⟨allocate_stays h.left, allocate_stays h.right, fun s => ?_⟩
    rcases h.allocate s.allocatorUnderTest s.mem sz hsz with heq | hbad
    · exact Or.inl (allocate_congr heq)
    · exact Or.inr ⟨allocate_stays h.left s hbad, allocate_stays h.right s hbad⟩
  deallocate p := by
    unfold AllocatorTester.deallocate
    refine ⟨fun s hs => (Act.wp_update _).mpr (h.left.deallocate _ _ _ hs),
      fun s hs => (Act.wp_update _).mpr (h.right.deallocate _ _ _ hs), fun s => ?_⟩
    rcases h.deallocate s.allocatorUnderTest s.mem p with heq | ⟨hA, hB⟩
    · apply Or.inl
      show Outcome.ret () (Tester.mk _ _ _ _ _) = Outcome.ret () (Tester.mk _ _ _ _ _)
      rw [heq]
    · exact Or.inr ⟨(Act.wp_update _).mpr hA, (Act.wp_update _).mpr hB⟩
  deinit := by
    rw [h.deinit]
    exact .update fun s hs => h.right.deinit _ _ hs

/-- The whole run, where the two also do the same on the request for the table. -/
theorem run_until (h : Agree A B bad asks) (hsz : Sizes asks maxItemSizeExp)
    (htable : A.allocate (u64 (maxItems * binSize)) (B.init s.allocatorUnderTest s.mem).1
        (B.init s.allocatorUnderTest s.mem).2 =
      B.allocate (u64 (maxItems * binSize)) (B.init s.allocatorUnderTest s.mem).1
        (B.init s.allocatorUnderTest s.mem).2) :
    Act.Until (Marked bad) (randomPos_RandomSize A numbers slots maxItemSizeExp iterCount maxItems)
      (randomPos_RandomSize B numbers slots maxItemSizeExp iterCount maxItems) s := by
  have hP := h.parts
  unfold randomPos_RandomSize
  rw [h.init]
  split_ifs with hexp
  · exact Or.inl rfl
  refine .bind_eq rfl fun _ t ht => .bind_eq rfl fun _ u hu => ?_
  -- nothing but `init` was called
  have hu : u.allocatorUnderTest = (B.init s.allocatorUnderTest s.mem).1 ∧
      u.mem = (B.init s.allocatorUnderTest s.mem).2 := by
    cases ht
    replace hu : (if _ then Outcome.ret () _ else Outcome.stuck) = Outcome.ret _ u := hu
    split_ifs at hu
    cases hu
    exact ⟨rfl, rfl⟩
  refine .bind_eq (allocate_congr (by rw [hu.1, hu.2]; exact htable)) fun baseBuff v _ => ?_
  refine Act.Until.bind (Or.inl rfl) fun _ => hP.bind (hP.onMem _) fun _ => ?_
  refine hP.bind (hP.setup hsz _ _) fun _ => hP.bind (hP.mainLoop hsz _ _ _) fun _ => ?_
  exact hP.bind (hP.exitLoop _ _) fun _ => hP.bind (hP.deallocate _) fun _ => hP.deinit

/-! ### Invariants of the run -/

/-- `N` holds between the calls, whatever the allocator returns, and `E` after a
throw. -/
structure Invariant (A : AllocatorUnderTest σ) (N E : Tester σ → Prop) : Prop where
  throw : ∀ s, N s → E s
  own : ∀ s t, t.allocatorUnderTest = s.allocatorUnderTest → t.trace = s.trace → N s → N t
  refused : ∀ s sz, N s → A.allocate sz s.allocatorUnderTest s.mem = none → E { s with trace := .refused :: s.trace }
  allocate : ∀ s sz p a m, N s → A.allocate sz s.allocatorUnderTest s.mem = some (p, a, m) →
    N { s with allocatorUnderTest := a, mem := m, trace := .allocate p sz :: s.trace }
  deallocate : ∀ s p, N s → N { s with
    allocatorUnderTest := (A.deallocate p s.allocatorUnderTest s.mem).1
    mem := (A.deallocate p s.allocatorUnderTest s.mem).2
    trace := .deallocate p :: s.trace }
  deinit : ∀ s, N s → N { s with
    allocatorUnderTest := (A.deinit s.allocatorUnderTest s.mem).1
    mem := (A.deinit s.allocatorUnderTest s.mem).2, trace := .deinit :: s.trace }

/-- A program that keeps `N`, and may throw in `E`, where it is not stuck. -/
def Holds {α : Type} (N E : Tester σ → Prop) (x : Act (Tester σ) α) : Prop := ∀ s, N s → Act.wlp x (fun _ => N) E s

variable {N E : Tester σ → Prop}

theorem Holds.bind {α β : Type} {x : Act (Tester σ) α} {f : α → Act (Tester σ) β} (hx : Holds N E x)
    (hf : ∀ a, Holds N E (f a)) : Holds N E (x >>= f) := fun s hs =>
  Act.wlp_bind (Act.wlp_mono (hx s hs) (fun a t ht => hf a t ht) fun _ ht => ht)

theorem Holds.need (c : Tester σ → Bool) : Holds N E (Act.need c) := fun s hs => by
  cases hc : c s with
  | true => exact Act.wlp_of_wp ((Act.wp_need c).mpr ⟨hc, hs⟩)
  | false => exact Or.inl (Act.exec_need_not hc)

theorem Invariant.parts (h : Invariant A N E) : Parts A A (fun _ => True) fun x _ => Holds N E x where
  pure _ _ hs := Act.wlp_pure hs
  read f _ hs := Act.wlp_of_wp ((Act.wp_read f).mpr hs)
  throw s hs := Act.wlp_of_wp (Act.wp_throw.mpr (h.throw s hs))
  bind := .bind
  own _ hf s hs := Act.wlp_of_wp ((Act.wp_update _).mpr (h.own s _ (hf s).1 (hf s).2 hs))
  allocate sz _ s hs := by
    apply Act.wlp_of_wp
    unfold AllocatorTester.allocate
    rw [Act.wp_bind, Act.wp_read]
    cases hr : A.allocate sz s.allocatorUnderTest s.mem with
    | none =>
      simp only [Act.wp_bind, Act.wp_update, Act.wp_throw]
      exact h.refused s sz hs hr
    | some r =>
      simp only [Act.wp_bind, Act.wp_update, Act.wp_pure]
      exact h.allocate s sz r.1 r.2.1 r.2.2 hs hr
  deallocate p s hs := Act.wlp_of_wp ((Act.wp_update _).mpr (h.deallocate s p hs))
  deinit s hs := Act.wlp_of_wp ((Act.wp_update _).mpr (h.deinit s hs))

theorem run_keeps (h : Invariant A N E) (hexp : maxItemSizeExp < 32)
    (hs : N { s with
      allocatorUnderTest := (A.init s.allocatorUnderTest s.mem).1
      mem := (A.init s.allocatorUnderTest s.mem).2, drawn := 0, reincarnation := 0 }) :
    Act.wlp (randomPos_RandomSize A numbers slots maxItemSizeExp iterCount maxItems) (fun _ => N) E s := by
  have hP := h.parts
  have hsz : Sizes (fun _ => True) maxItemSizeExp := fun _ => trivial
  unfold randomPos_RandomSize
  rw [if_neg (by omega)]
  refine Act.wlp_bind (Act.wlp_of_wp ((Act.wp_update _).mpr ?_))
  refine Holds.bind (.need _) (fun _ => .bind (hP.allocate _ trivial) fun baseBuff => ?_) _ hs
  refine .bind (.need _) fun _ => .bind (hP.onMem _) fun _ => ?_
  refine .bind (hP.setup hsz _ _) fun _ => .bind (hP.mainLoop hsz _ _ _) fun _ => ?_
  exact .bind (hP.exitLoop _ _) fun _ => .bind (hP.deallocate _) fun _ => hP.deinit

end AllocatorTester

end IibMalloc

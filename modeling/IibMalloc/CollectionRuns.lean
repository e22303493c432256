/-
# CollectionInPages: whole runs

A run starts with `initialize` and is any sequence of calls `createNew`, each
of which may throw, and of writes to the items they returned. It records the
items given, newest first.

`collection_run`: the items lie apart, in pages that are mapped; `doForEach`
visits them as a loop over that record would (`doForEach_exec`); and
`deinitialize` releases each page the run obtained, once, and reads no item of
a page it has released, where the program would be stuck.
-/
import IibMalloc.CollectionInPages
import IibMalloc.Lib.Run

namespace IibMalloc

open Lib

namespace CollectionInPages

variable {ItemT : Type}

/-! ### doForEach -/

/-- `doForEach` from `curr` on, with `fuel` rounds; the functor gets the item's
address. -/
def doForEachFrom (itemSize : ℕ) (f : ℕ → Act (St (CollectionInPages ItemT)) Unit) :
    ℕ → ℕ → Act (St (CollectionInPages ItemT)) Unit
  | 0, curr => if curr ≠ 0 then Act.stuck else return ()
  | fuel + 1, curr =>
    if curr ≠ 0 then do
      f curr
      derefItem itemSize curr
      let next ← Act.read fun s => (s.c.heap curr).next
      doForEachFrom itemSize f fuel next
    else return ()

def doForEach (itemSize : ℕ) (f : ℕ → Act (St (CollectionInPages ItemT)) Unit) (fuel : ℕ) :
    Act (St (CollectionInPages ItemT)) Unit := do
  let head ← Act.read fun s => s.c.head
  doForEachFrom itemSize f fuel head

/-- The functor unmaps nothing and leaves the links of the list alone. -/
def KeepsNodes (f : ℕ → Act (St (CollectionInPages ItemT)) Unit) : Prop :=
  ∀ a t u, Act.exec (f a) t = .ret () u → (∀ x, (u.c.heap x).next = (t.c.heap x).next) ∧
    ∀ x, pageState t.w.calls x = .committed → pageState u.w.calls x = .committed

variable {f : ℕ → Act (St (CollectionInPages ItemT)) Unit} {itemSize fuel curr : ℕ}
  {s : St (CollectionInPages ItemT)}

theorem doForEachFrom_exec (hf : KeepsNodes f) : ∀ (l : List ℕ) (fuel curr : ℕ) (s : St (CollectionInPages ItemT)),
    l.length ≤ fuel → Chain (fun a => (s.c.heap a).next) 0 curr l →
    (∀ a ∈ l, pageState s.w.calls a = .committed ∧ pageState s.w.calls (a + (itemSize - 1)) = .committed) →
    Act.exec (doForEachFrom itemSize f fuel curr) s = Act.exec (l.forM f) s
  | [], fuel, curr, s, _, hl, _ => by
    have hc : ¬ curr ≠ 0 := not_not.mpr hl
    cases fuel with
    | zero => rw [doForEachFrom, if_neg hc]; rfl
    | succ fuel => rw [doForEachFrom, if_neg hc]; rfl
  | a :: l, 0, _, _, hlen, _, _ => by simp at hlen
  | a :: l, fuel + 1, curr, s, hlen, hl, hmap => by
    obtain ⟨rfl, h0, hl⟩ := hl
    obtain ⟨h1, h2⟩ := hmap curr List.mem_cons_self
    rw [doForEachFrom, if_pos h0]
    show _ = Act.exec (f curr >>= fun _ => l.forM f) s
    refine Act.exec_bind_congr rfl fun _ t ht => ?_
    obtain ⟨hnext, hkeep⟩ := hf curr s t ht
    -- the item is mapped still, and its link as it was
    have hderef : Act.exec (derefItem itemSize curr) t = .ret () t :=
      (Act.exec_bind (Act.exec_deref (hkeep _ h1))).trans (Act.exec_deref (hkeep _ h2))
    rw [Act.exec_bind hderef]
    show Act.exec (doForEachFrom itemSize f fuel (t.c.heap curr).next) t = _
    rw [hnext]
    refine doForEachFrom_exec hf l fuel _ t (by simpa using hlen) (hl.congr fun x _ => hnext x) fun x hx => ?_
    have hx := hmap x (List.mem_cons_of_mem curr hx)
    exact ⟨hkeep _ hx.1, hkeep _ hx.2⟩

/-! ### Runs -/

structure CollRun (ItemT : Type) where
  s : St (CollectionInPages ItemT)
  /-- the items `createNew` returned, newest first -/
  given : List ℕ

inductive CollOp (ItemT : Type) where
  | createNew
  /-- the client writes the item at `a` -/
  | write (a : ℕ) (f : ItemT → ItemT)

variable [Inhabited ItemT] (os : Os) (itemSize : ℕ)

/-- One call, or a write to an item that was given. -/
def CollRun.step (r : CollRun ItemT) : CollOp ItemT → Option (CollRun ItemT)
  | .createNew =>
    match Act.exec (createNew os itemSize) r.s with
    | .ret a t => some ⟨t, a :: r.given⟩
    | .throw t => some ⟨t, r.given⟩
    | .stuck => none
  | .write a f => if a ∈ r.given then some ⟨⟨r.s.w, setItem a f r.s.c⟩, r.given⟩ else none

/-- The state after `initialize`, from any state. -/
def CollRun.Starts (w : World) (r : CollRun ItemT) : Prop :=
  ∃ c, Act.exec (init PAGE_SIZE_EXP) ⟨w, c⟩ = .ret () r.s ∧ r.given = []

/-- What a run keeps: the invariant of the collection, and which pages it
obtained. -/
def CollRun.Inv (w₀ : World) (r : CollRun ItemT) (pages free : List ℕ) : Prop :=
  CollInv itemSize r.s.w.calls r.s.c pages r.given free ∧
    obtained r.s.w.calls = pages.map (fun p => (p, PAGE_SIZE)) ++ obtained w₀.calls ∧
    releases r.s.w.calls = releases w₀.calls

variable {os itemSize} {w₀ : World} {r₀ r r' : CollRun ItemT} {pages free : List ℕ}

omit [Inhabited ItemT] in
theorem CollRun.Starts.inv (h : r₀.Starts w₀) : r₀.Inv itemSize w₀ [] [] := by
  obtain ⟨c, hc, hg⟩ := h
  have hspec : Act.wp (init PAGE_SIZE_EXP)
      (fun _ t => t.w = w₀ ∧ CollInv itemSize t.w.calls t.c [] [] []) (fun _ => False) ⟨w₀, c⟩ :=
    init_spec itemSize ⟨w₀, c⟩ fun c hc => ⟨rfl, hc⟩
  obtain ⟨hw, hI⟩ := Act.exec_ret hspec hc
  refine ⟨by rwa [hg], ?_, ?_⟩
  · rw [hw]
    rfl
  · rw [hw]

theorem CollRun.Inv.step (h0 : 0 < itemSize) (h1 : itemSize ≤ 4096) (h : r.Inv itemSize w₀ pages free)
    {op : CollOp ItemT} (hs : r.step os itemSize op = some r') : ∃ pages' free', r'.Inv itemSize w₀ pages' free' := by
  obtain ⟨hI, hobt, hrel⟩ := h
  cases op with
  | createNew =>
    simp only [CollRun.step] at hs
    split at hs
    · rename_i a t hx
      obtain ⟨pages', free', hI', -, -, hw⟩ := Act.exec_ret (createNew_spec h0 h1 hI) hx
      obtain rfl := Option.some.inj hs
      refine ⟨pages', free', hI', ?_⟩
      rcases hw with ⟨-, hw, rfl⟩ | ⟨-, p, -, hw, rfl⟩
      · rw [hw]
        exact ⟨hobt, hrel⟩
      · rw [hw]
        exact ⟨congrArg _ hobt, hrel⟩
    · rename_i t hx
      obtain ⟨-, hw, hI', -⟩ := Act.exec_throw (createNew_spec h0 h1 hI) hx
      obtain rfl := Option.some.inj hs
      refine ⟨pages, free, hI', ?_⟩
      rw [hw]
      exact ⟨hobt, hrel⟩
    · cases hs
  | write a f =>
    simp only [CollRun.step] at hs
    split_ifs at hs
    obtain rfl := Option.some.inj hs
    exact ⟨pages, free, hI.setItem a f, hobt, hrel⟩

omit [Inhabited ItemT] in
/-- Two items lie apart. -/
theorem CollInv.items_apart {calls : List OsCall} {c : CollectionInPages ItemT} {used : List ℕ}
    (h : CollInv itemSize calls c pages used free) {a b : ℕ} (ha : a ∈ used ++ free)
    (hb : b ∈ used ++ free) (hne : a ≠ b) : Apart (a, itemSize) (b, itemSize) := by
  intro x hx hx'
  obtain ⟨p, hp, i, rfl, hi⟩ := h.item_at ha
  obtain ⟨q, hq, j, rfl, hj⟩ := h.item_at hb
  have hpa := (h.mapped p hp).aligned
  have hqa := (h.mapped q hq).aligned
  unfold Within at hx hx'
  dsimp only at hx hx'
  obtain rfl : p = q := by omega
  have hij : i ≠ j := fun hij => hne (by rw [hij])
  rcases Nat.lt_or_gt_of_ne hij with hlt | hlt
  · have := Nat.mul_le_mul_right itemSize hlt
    rw [Nat.succ_mul] at this
    omega
  · have := Nat.mul_le_mul_right itemSize hlt
    rw [Nat.succ_mul] at this
    omega

/-- After any run: the items given lie apart, in the pages the run obtained,
all of it mapped; `doForEach` visits them, each once, the newest first; and
`deinitialize` releases each of these pages once. -/
theorem collection_run (h0 : 0 < itemSize) (h1 : itemSize ≤ PAGE_SIZE) (h₀ : r₀.Starts w₀)
    (hr : Reach (CollRun.step os itemSize) (fun _ _ => True) r₀ r) :
    r.given.Pairwise (fun a b => Apart (a, itemSize) (b, itemSize)) ∧
      (∀ f fuel, KeepsNodes f → r.given.length ≤ fuel →
        Act.exec (doForEach itemSize f fuel) r.s = Act.exec (r.given.forM f) r.s) ∧
      ∃ pages : List ℕ, pages.Nodup ∧
        obtained r.s.w.calls = pages.map (fun p => (p, PAGE_SIZE)) ++ obtained w₀.calls ∧
        releases r.s.w.calls = releases w₀.calls ∧
        (∀ a ∈ r.given, (∃ p ∈ pages, p ≤ a ∧ a + itemSize ≤ p + PAGE_SIZE) ∧
          ∀ x, Within a itemSize x → pageState r.s.w.calls x = .committed) ∧
        ∃ fuel₀, ∀ fuel ≥ fuel₀, Act.wp (deinit itemSize fuel)
          (fun _ t => (∃ ps : List ℕ, ps.Perm pages ∧ t.w = r.s.w.releasedAll PAGE_SIZE ps) ∧
            t.c.pageCnt = 0 ∧ t.c.head = 0 ∧ t.c.freeList = 0) (fun _ => False) r.s := by
  obtain ⟨pages, free, hI, hobt, hrel⟩ : ∃ pages free, r.Inv itemSize w₀ pages free :=
    hr.invariant (P := fun r => ∃ pages free, r.Inv itemSize w₀ pages free) ⟨[], [], h₀.inv⟩
      fun op h _ hs => by
        obtain ⟨pages, free, h⟩ := h
        exact h.step h0 h1 hs
  have hused : ∀ a ∈ r.given, a ∈ r.given ++ free := fun a ha => List.mem_append_left _ ha
  refine ⟨?_, fun f fuel hf hfuel => ?_, pages, hI.nodup, hobt, hrel, fun a ha => ⟨?_, fun x hx => ?_⟩,
    r.given.length + free.length, fun fuel hfuel => ?_⟩
  · refine ((List.nodup_append.mp (hI.nodup_items h0)).1).imp_of_mem fun ha hb hne => ?_
    exact hI.items_apart (hused _ ha) (hused _ hb) hne
  · unfold doForEach
    refine doForEachFrom_exec hf r.given fuel r.s.c.head r.s hfuel hI.head fun a ha => ?_
    exact ⟨hI.committed h0 (hused a ha) ⟨le_rfl, by omega⟩, hI.committed h0 (hused a ha) ⟨by omega, by omega⟩⟩
  · obtain ⟨p, hp, i, rfl, hi⟩ := hI.item_at (hused a ha)
    rw [PAGE_SIZE_eq]
    exact ⟨p, hp, by omega, by omega⟩
  · exact hI.committed h0 (hused a ha) hx
  · refine Act.wp_mono (deinit_spec h0 h1 hI hfuel) ?_ fun _ ht => ht
    intro _ t ⟨hw, hE⟩
    exact ⟨hw, hE.pageCnt, hE.head, hE.freeList⟩

/-- Memory that was never initialised. -/
def raw : CollectionInPages ℕ := ⟨⟨fun _ => 7, fun _ => ⟨.null, .lst 7, 7, 7⟩, {}, 7⟩, 7, 7, 7, fun _ => ⟨7, 7⟩⟩

/-- The state after `initialize` of it. -/
def CollRun.fresh : CollRun ℕ :=
  match Act.exec (init PAGE_SIZE_EXP) ⟨⟨[], fun _ => 7, true⟩, raw⟩ with
  | .ret _ s => ⟨s, []⟩
  | _ => ⟨⟨⟨[], fun _ => 7, true⟩, raw⟩, []⟩

theorem collection_run_three : ∃ r, run (CollRun.step (Os.linear 0) 2048) (fun _ _ => true) CollRun.fresh
      [.createNew, .createNew, .write 4096 fun _ => 5, .createNew] = some r ∧
    r.given.Pairwise (fun a b => Apart (a, 2048) (b, 2048)) := by
  obtain ⟨r, hr⟩ := Option.isSome_iff_exists.mp (show (run (CollRun.step (Os.linear 0) 2048) (fun _ _ => true)
      CollRun.fresh [.createNew, .createNew, .write 4096 fun _ => 5, .createNew]).isSome = true by decide +kernel)
  have h₀ : CollRun.fresh.Starts ⟨[], fun _ => 7, true⟩ := ⟨raw, rfl, rfl⟩
  exact ⟨r, hr, (collection_run (by norm_num) (by norm_num) h₀
    ((Reach.of_run hr).mono fun _ _ _ => trivial)).1⟩

end CollectionInPages

end IibMalloc

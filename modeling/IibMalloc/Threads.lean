/-
# Threads

`g_AllocManager` is `thread_local`: a thread has an allocator of its own, and
all of them get their memory from one operating system. The constructor calls
`initialize`, and `init` of the allocator for tests calls it again; its
`deinit` calls `deinitialize`, and the destructor calls it again. In between
the thread calls `allocate` and `deallocate` and writes to what it holds. The
threads' steps come in any order (`Threads.step`).

`threads_local` is the step of one thread, in terms of what its allocator
holds. The results are about the runs, in any order of their steps, in which no
thread gives back a chunk that its allocator merges with a chunk still live
(`ok`): after such a step none of them holds. `threads_refine`: all threads
together are one heap. `threads_read`: what a thread has written stays.
`threads_safe`: what they hold is committed and apart, and no call is stuck.
`threads_return`: when all are done the address space is as it was.
-/
import IibMalloc.SerializableContent
import IibMalloc.SerializableLife
import IibMalloc.SoundingStats
import IibMalloc.Lib.Shared
import IibMalloc.Lib.Heap

namespace IibMalloc

open Lib

/-! ### Rounds of deinitialize -/

theorem BulkAllocator.releaseBlocks_below {cfg : BulkCfg} {m n : ℕ} (h : m ≤ n) (p : ℕ) :
    Act.Below (releaseBlocks cfg m p) (releaseBlocks cfg n p) := by
  apply Act.Below.of_rounds (x := fun n p => releaseBlocks cfg n p) _ _ h
  · intro n p
    exact .ite (.stuck _) (.refl _)
  · intro m n ih p
    exact .ite (.bind (.refl _) fun _ => .bind (.refl _) fun _ => .bind (.refl _) fun _ => .bind (.refl _) fun _ =>
      .bind (.refl _) fun _ => .bind (.refl _) fun _ => ih _) (.refl _)

theorem BulkAllocator.deinit_below {cfg : BulkCfg} {m n : ℕ} (h : m ≤ n) : Act.Below (deinit cfg m) (deinit cfg n) :=
  .bind (.refl _) fun _ => .bind (releaseBlocks_below h _) fun _ =>
    .bind (.zoom (CollectionInPages.deinit_below h)) fun _ => .refl _

/-- A collection whose lists are empty has taken no page. -/
theorem CollectionInPages.CollInv.empty_of_null {ItemT : Type} {n : ℕ} {calls : List OsCall}
    {c : CollectionInPages ItemT} {pages used free : List ℕ} (h : CollInv n calls c pages used free)
    (hn : n ∈ Set.Icc 1 PAGE_SIZE) (hhead : c.head = 0) (hfree : c.freeList = 0) : pages = [] ∧ used = [] := by
  have hu : used = [] := h.head.unique hhead
  have hf : free = [] := h.freeList.unique hfree
  have hitems := h.items
  rw [hu, hf, List.append_nil, List.nil_perm] at hitems
  refine ⟨List.eq_nil_iff_forall_not_mem.mpr fun p hp => ?_, hu⟩
  -- the first item of a page
  have hmem : p ∈ pages.flatMap (pageItems n) := List.mem_flatMap.mpr ⟨p, hp, List.mem_map.mpr
    ⟨0, List.mem_range.mpr (Nat.div_pos hn.2 hn.1), by rw [Nat.zero_mul, Nat.add_zero]⟩⟩
  rw [hitems] at hmem
  cases hmem

namespace SerializableAllocatorBase

open SoundingAddressPageAllocator
open BulkAllocator (BulkInv release mem_release bulkAllocatorT_fits)

theorem deinit_below {m n : ℕ} (h : m ≤ n) : Act.Below (deinit m) (deinit n) :=
  .bind (.zoom (SoundingAddressPageAllocator.deinit_below h)) fun _ => .zoom (BulkAllocator.deinit_below h)

/-- What a call of `deinitialize` that returns has done. -/
theorem deinit_ret {s t : St SerializableAllocatorBase} {γ : SerialGhost} {live : List (ℕ × ℕ)} {fuel : ℕ} {u : Unit}
    (hpages : SoundInv pageAllocatorT s.w.calls s.c.pageAllocator γ.pages)
    (hbulk : BulkInv bulkAllocatorT ⟨s.w, s.c.bulkAllocator⟩ γ.bulk (chunksOf live))
    (hapart : ∀ x, γ.bulk.Owned bulkAllocatorT (chunksOf live) x → ¬ γ.pages.Held pageAllocatorT x)
    (hx : Act.exec (deinit fuel) s = .ret u t) : Deinited s t γ ∧ Returned γ s.w t.w := by
  obtain ⟨n, hn⟩ : ∃ n, n = max fuel ((γ.pages.used.length + γ.pages.free.length) +
    (γ.bulk.used.length + γ.bulk.free.length)) := ⟨_, rfl⟩
  have hspec : Act.wp (deinit n) (fun _ t => Deinited s t γ ∧ Returned γ s.w t.w) (fun _ => False) s :=
    deinit_parts hpages hbulk hapart (by omega) (by omega)
  exact Act.exec_ret hspec ((deinit_below (by omega)).ret hx)

/-- What `deinitialize` gives back is what was held. -/
theorem Returned.unchanged {γ : SerialGhost} {live : List (ℕ × ℕ)} {w w' : World} (h : Returned γ w w') :
    Unchanged (fun x => Mapped w.calls x ∧ ¬ γ.Holds live x) w w' := by
  obtain ⟨ps, qs, hps, hqs, rfl⟩ := h
  have hbulk : ∀ {r x}, r ∈ γ.bulk.regions bulkAllocatorT (chunksOf live) → Within r.1 r.2 x → γ.Holds live x :=
    fun hr hx => Or.inr ⟨_, hr, hx⟩
  refine (((Unchanged.releasedAll fun a ha x hx hin => hx.2 (Or.inl (Or.inl ?_))).trans
    (Unchanged.releasedAll fun a ha x hx hin => hx.2 (Or.inl (Or.inr ⟨a, hps.mem_iff.mp ha, hin⟩)))).trans
    (Unchanged.releasedAll fun a ha x hx hin => hx.2 (hbulk (BulkAllocator.BulkInv.block_region ha) hin))).trans
    (Unchanged.releasedAll fun a ha x hx hin => hx.2 (hbulk (r := (a, 4096)) ?_ hin))
  · exact List.mem_append_left _ (List.mem_map.mpr ⟨a, hqs.mem_iff.mp ha, rfl⟩)
  · obtain ⟨p, hp, rfl⟩ := List.mem_map.mp ha
    exact ⟨p, hp, hin⟩

/-- Where the client holds no region of its own, all of it. -/
theorem Returned.unmapped {γ : SerialGhost} {live : List (ℕ × ℕ)} {w w' : World} (h : Returned γ w w')
    (hl : BulkAllocator.BulkGhost.large bulkAllocatorT (chunksOf live) = []) {x : ℕ} (hx : Mapped w'.calls x) :
    Mapped w.calls x ∧ ¬ γ.Holds live x := by
  have hnot : ∀ {n : ℕ} {as : List ℕ} {u : World}, Mapped (u.releasedAll n as).calls x →
      Mapped u.calls x ∧ ¬ ∃ a ∈ as, Within a n x := fun {n as u} hu => by
    unfold Mapped at hu ⊢
    rw [(World.releasedAll_state n as u x).1] at hu
    split_ifs at hu with hin
    · exact absurd rfl hu
    · exact ⟨hu, hin⟩
  obtain ⟨ps, qs, hps, hqs, rfl⟩ := h
  obtain ⟨hx, h1⟩ := hnot hx
  obtain ⟨hx, h2⟩ := hnot hx
  obtain ⟨hx, h3⟩ := hnot hx
  obtain ⟨hx, h4⟩ := hnot hx
  refine ⟨hx, ?_⟩
  rintro ((⟨p, hp, hin⟩ | ⟨p, hp, hin⟩) | ⟨r, hr, hin⟩)
  · exact h4 ⟨p.2, List.mem_map_of_mem hp, hin⟩
  · exact h3 ⟨p, hps.mem_iff.mpr hp, hin⟩
  · unfold BulkAllocator.BulkGhost.regions at hr
    rw [hl, List.map_nil, List.append_nil, List.mem_append, List.mem_map, List.mem_map] at hr
    rcases hr with ⟨p, hp, rfl⟩ | ⟨b, hb, rfl⟩
    · exact h1 ⟨p, hqs.mem_iff.mpr hp, hin⟩
    · exact h2 ⟨b, hb, hin⟩

/-- No page was taken for a collection yet. -/
def Untouched (c : SerializableAllocatorBase) : Prop :=
  (c.pageAllocator.pageBlockDescriptors.head = 0 ∧ c.pageAllocator.pageBlockDescriptors.freeList = 0) ∧
    c.bulkAllocator.blocks.head = 0 ∧ c.bulkAllocator.blocks.freeList = 0

instance (c : SerializableAllocatorBase) : Decidable (Untouched c) := by
  unfold Untouched
  infer_instance

/-- Then nothing was taken. -/
theorem SerialInv.untouched {s : St SerializableAllocatorBase} {γ : SerialGhost} {segs : List Segment}
    (h : SerialInv s γ segs []) (hu : Untouched s.c) (x : ℕ) : ¬ γ.Holds [] x := by
  obtain ⟨⟨h1, h2⟩, h3, h4⟩ := hu
  obtain ⟨hp, hused⟩ := h.pages.coll.empty_of_null (by decide) h1 h2
  obtain ⟨hq, hused'⟩ := h.bulk.coll.empty_of_null (by decide) h3 h4
  have hblocks : γ.bulk.blocks = [] := by
    rw [← h.bulk.items, hused', List.map_nil]
  rintro ((⟨p, hmem, -⟩ | ⟨p, hmem, -⟩) | ⟨r, hr, -⟩)
  · have := h.pages.used p hmem
    rw [hused] at this
    cases this
  · rw [hp] at hmem
    cases hmem
  · unfold BulkAllocator.BulkGhost.regions at hr
    rw [hq, hblocks] at hr
    cases hr

/-- `initialize` does not touch the world. -/
theorem init_world (s : St SerializableAllocatorBase) :
    Act.wp init (fun _ t => t.w = s.w ∧ SerialInv t .empty [] []) (fun _ => False) s := by
  have hw : Act.wp init (fun _ t => t.w = s.w) (fun _ => False) s := by
    simp only [init, pages, bulk, Act.wp_bind, Act.wp_onSelf, Act.wp_onPart]
    refine SoundingAddressPageAllocator.init_spec _ fun c _ => ?_
    exact BulkAllocator.init_spec _ fun b _ => rfl
  refine Act.wp_mono (Act.wp_exec (init_spec s)) (fun _ t ht => ⟨Act.exec_ret hw ht.2, ht.1⟩) fun _ ht => ht.1

end SerializableAllocatorBase

namespace Threads

open SerializableAllocatorBase
open SoundingAddressPageAllocator (SoundInv)
open BulkAllocator (BulkInv release mem_release release_map)

/-! ### A thread -/

/-- What became of the allocator of a thread. -/
inductive Phase where
  /-- it was not constructed -/
  | raw
  | running
  /-- `deinitialize` was called last -/
  | ended
deriving DecidableEq, Repr

structure Thread where
  c : SerializableAllocatorBase
  phase : Phase
  live : List (ℕ × ℕ)
  segs : List Segment

inductive ThreadOp where
  /-- `initialize` -/
  | start
  /-- a call, or a write -/
  | call (op : SerialOp)
  /-- `deinitialize` -/
  | finish (fuel : ℕ)

/-- The run of the thread's allocator. -/
def Thread.serial (l : Thread) (w : World) : SerialRun := ⟨⟨w, l.c⟩, l.live, l.segs⟩

variable (os : Os)

/-- A step of one thread. It holds nothing when it calls `initialize`. -/
def Thread.step (p : World × Thread) : ThreadOp → Option (World × Thread)
  | .start =>
    if p.2.live = [] then
      match Act.exec SerializableAllocatorBase.init ⟨p.1, p.2.c⟩ with
      | .ret _ s => some (s.w, ⟨s.c, .running, [], []⟩)
      | .throw _ => none
      | .stuck => none
    else none
  | .call op =>
    if p.2.phase = .running then
      ((p.2.serial p.1).step os op).map fun r => (r.s.w, ⟨r.s.c, .running, r.live, r.segs⟩)
    else none
  | .finish fuel =>
    if p.2.phase ≠ .raw then
      match Act.exec (SerializableAllocatorBase.deinit fuel) ⟨p.1, p.2.c⟩ with
      | .ret _ s => some (s.w, ⟨s.c, .ended, [], []⟩)
      | .throw _ => none
      | .stuck => none
    else none

/-- No chunk is given back that the thread's allocator would merge with a chunk
that is live. -/
def Thread.ok (p : World × Thread) : ThreadOp → Prop
  | .call op => KeepsChunks (p.2.serial p.1) op
  | _ => True

instance (p : World × Thread) (op : ThreadOp) : Decidable (Thread.ok p op) := by
  unfold Thread.ok
  split <;> infer_instance

/-- The step loses no memory: `initialize` does not forget any, no block of the
bulk allocator is lost, and no region of a thread's own is live when it calls
`deinitialize`. -/
def Thread.keeps (p : World × Thread) : ThreadOp → Prop
  | .start => p.2.phase = .running → Untouched p.2.c
  | .call op => ¬ op.Loses os ⟨p.1, p.2.c⟩
  | .finish _ => BulkAllocator.BulkGhost.large bulkAllocatorT (chunksOf p.2.live) = []

instance (p : World × Thread) (op : ThreadOp) : Decidable (Thread.keeps os p op) := by
  unfold Thread.keeps
  split <;> infer_instance

variable {os} {w w' : World} {l l' : Thread} {F : ℕ → Prop} {op : ThreadOp} {fuel : ℕ}

/-- The thread's allocator is in order in the world `w`, and `F` is what it
holds. -/
inductive ThreadInv (w : World) (l : Thread) (F : ℕ → Prop) : Prop where
  | raw (hp : l.phase = .raw) (hl : l.live = []) (hF : ∀ x, ¬ F x)
  | running (hp : l.phase = .running) (γ : SerialGhost) (h : SerialInv ⟨w, l.c⟩ γ l.segs l.live)
    (hF : ∀ x, F x ↔ γ.Holds l.live x)
  | ended (hp : l.phase = .ended) (hl : l.live = []) (hpages : SoundInv pageAllocatorT w.calls l.c.pageAllocator .empty)
    (hbulk : BulkInv bulkAllocatorT ⟨w, l.c.bulkAllocator⟩ .empty []) (hF : ∀ x, ¬ F x)

theorem not_holds_empty (x : ℕ) : ¬ SerialGhost.empty.Holds [] x := by
  rintro ((⟨p, hp, -⟩ | ⟨p, hp, -⟩) | ⟨r, hr, -⟩)
  · cases hp
  · cases hp
  · cases hr

namespace ThreadInv

theorem mapped (h : ThreadInv w l F) {x : ℕ} (hx : F x) : Mapped w.calls x := by
  cases h with
  | raw hp hl hF => exact absurd hx (hF x)
  | running hp γ h hF => exact h.holds_mapped ((hF x).mp hx)
  | ended hp hl hpages hbulk hF => exact absurd hx (hF x)

/-- What other threads do to the rest of the world does not matter. -/
theorem stable (h : ThreadInv w l F) (hw : Unchanged F w w') : ThreadInv w' l F := by
  cases h with
  | raw hp hl hF => exact .raw hp hl hF
  | running hp γ h hF => exact .running hp γ (h.unchanged (hw.mono fun x hx => (hF x).mpr hx)) hF
  | ended hp hl hpages hbulk hF =>
    refine .ended hp hl (hpages.transport fun x hx => ?_) (hbulk.unchanged rfl hbulk.idle fun x hx => ?_) hF
    · exact absurd (Or.inl hx) (not_holds_empty x)
    · exact absurd (Or.inr hx) (not_holds_empty x)

/-- A step of one thread: its allocator stays in order, what is mapped and not
its own stays as it is, what it takes was not mapped, and what it gives up is
unmapped where the step loses nothing. -/
theorem step (h : ThreadInv w l F) (hok : Thread.ok (w, l) op) (hs : Thread.step os (w, l) op = some (w', l')) :
    ∃ F' : ℕ → Prop, ThreadInv w' l' F' ∧ Unchanged (fun x => Mapped w.calls x ∧ ¬ F x) w w' ∧
      (∀ x, F' x → F x ∨ ¬ Mapped w.calls x) ∧
      (Thread.keeps os (w, l) op → ∀ x, Mapped w'.calls x → F' x ∨ Mapped w.calls x ∧ ¬ F x) := by
  cases op with
  | start =>
    simp only [Thread.step] at hs
    split_ifs at hs with hlive
    cases hx : Act.exec SerializableAllocatorBase.init ⟨w, l.c⟩ with
    | ret u s =>
      rw [hx] at hs
      obtain ⟨rfl, rfl⟩ := Prod.mk.inj (Option.some.inj hs)
      obtain ⟨hw, hI⟩ := Act.exec_ret (init_world ⟨w, l.c⟩) hx
      refine ⟨fun _ => False, .running rfl .empty hI fun x => iff_of_false id (not_holds_empty x), ?_,
        fun _ hx => hx.elim, fun hk x hx => Or.inr ⟨?_, ?_⟩⟩
      · rw [hw]
        exact .refl
      · rwa [hw] at hx
      · cases h with
        | raw hp hl hF => exact hF x
        | running hp γ h hF =>
          rw [hF, hlive]
          exact (hlive ▸ h).untouched (hk hp) x
        | ended hp hl hpages hbulk hF => exact hF x
    | throw s =>
      rw [hx] at hs
      cases hs
    | stuck =>
      rw [hx] at hs
      cases hs
  | call op =>
    simp only [Thread.step] at hs
    split_ifs at hs with hrun
    obtain ⟨r, hr, hrl⟩ := Option.map_eq_some_iff.mp hs
    obtain ⟨rfl, rfl⟩ := Prod.mk.inj hrl
    cases h with
    | raw hp hl hF => exact absurd (hp.symm.trans hrun) (by decide)
    | ended hp hl hpages hbulk hF => exact absurd (hp.symm.trans hrun) (by decide)
    | running hp γ h hF =>
      obtain ⟨γ', hI, hS, -⟩ := SerialInv.moved (r := l.serial w) h hok hr
      refine ⟨γ'.Holds r.live, .running rfl γ' hI fun _ => Iff.rfl, hS.frame.mono fun x hx => ?_, fun x hx => ?_,
        fun hk x hx => ?_⟩
      · exact ⟨hx.1, fun hh => hx.2 ((hF x).mpr hh)⟩
      · exact (hS.fresh x hx).imp (hF x).mpr id
      · exact (hS.cover (fun hl => hk hl.1) x hx).imp_right (And.imp_right (mt (hF x).mp))
  | finish fuel =>
    simp only [Thread.step] at hs
    split_ifs at hs with hraw
    cases hx : Act.exec (SerializableAllocatorBase.deinit fuel) ⟨w, l.c⟩ with
    | ret u s =>
      rw [hx] at hs
      obtain ⟨rfl, rfl⟩ := Prod.mk.inj (Option.some.inj hs)
      have hend : ∀ (γ : SerialGhost) (live : List (ℕ × ℕ)), Deinited ⟨w, l.c⟩ s γ ∧ Returned γ w s.w →
          (∀ x, F x ↔ γ.Holds live x) → live = l.live → ∃ F' : ℕ → Prop, ThreadInv s.w ⟨s.c, .ended, [], []⟩ F' ∧
            Unchanged (fun x => Mapped w.calls x ∧ ¬ F x) w s.w ∧ (∀ x, F' x → F x ∨ ¬ Mapped w.calls x) ∧
            (Thread.keeps os (w, l) (.finish fuel) → ∀ x, Mapped s.w.calls x → F' x ∨ Mapped w.calls x ∧ ¬ F x) := by
        intro γ live hD hF hl
        refine ⟨fun _ => False, .ended rfl rfl hD.1.pages hD.1.bulk fun _ => id,
          hD.2.unchanged.mono fun x hx => ⟨hx.1, fun hh => hx.2 ((hF x).mpr hh)⟩, fun _ hx => hx.elim,
          fun hk x hx => Or.inr ?_⟩
        subst hl
        exact (hD.2.unmapped hk hx).imp_right (mt (hF x).mp)
      cases h with
      | raw hp hl hF => exact absurd hp hraw
      | running hp γ h hF => exact hend γ l.live (deinit_ret h.pages h.bulk h.apart hx) hF rfl
      | ended hp hl hpages hbulk hF =>
        have hbulk : BulkInv bulkAllocatorT ⟨w, l.c.bulkAllocator⟩ SerialGhost.empty.bulk (chunksOf []) := hbulk
        refine hend .empty [] (deinit_ret hpages hbulk (fun x hx => ?_) hx)
          (fun x => iff_of_false (hF x) (not_holds_empty x)) hl.symm
        exact absurd (Or.inr hx) (not_holds_empty x)
    | throw s =>
      rw [hx] at hs
      cases hs
    | stuck =>
      rw [hx] at hs
      cases hs

/-- The words of the thread, before and after a step: only its own write changes
one. -/
theorem keeps (h : ThreadInv w l F) (hok : Thread.ok (w, l) op) (hs : Thread.step os (w, l) op = some (w', l')) {a : ℕ}
    (ha : Owns l.live a) (ha' : Owns l'.live a) (hop : ∀ v, op ≠ .call (.write a v)) : w'.mem a = w.mem a := by
  have hnil : ∀ {a}, ¬ Owns [] a := fun ha => by
    obtain ⟨-, ⟨e, he, -⟩ | ⟨-, e, he, -⟩⟩ := ha <;> cases he
  cases op with
  | start =>
    simp only [Thread.step] at hs
    split_ifs at hs with hl
    exact absurd (hl ▸ ha) hnil
  | call op =>
    simp only [Thread.step] at hs
    split_ifs at hs with hrun
    obtain ⟨r, hr, hrl⟩ := Option.map_eq_some_iff.mp hs
    obtain ⟨rfl, rfl⟩ := Prod.mk.inj hrl
    cases h with
    | raw hp hl hF => exact absurd (hp.symm.trans hrun) (by decide)
    | ended hp hl hpages hbulk hF => exact absurd (hp.symm.trans hrun) (by decide)
    | running hp γ h hF =>
      obtain ⟨γ', -, -, hmem⟩ := SerialInv.moved (r := l.serial w) h hok hr
      exact hmem a ha ha' fun v hv => hop v (congrArg ThreadOp.call hv)
  | finish fuel =>
    simp only [Thread.step] at hs
    split_ifs at hs
    cases hx : Act.exec (SerializableAllocatorBase.deinit fuel) ⟨w, l.c⟩ with
    | ret u s =>
      rw [hx] at hs
      obtain ⟨rfl, rfl⟩ := Prod.mk.inj (Option.some.inj hs)
      exact absurd ha' hnil
    | throw s =>
      rw [hx] at hs
      cases hs
    | stuck =>
      rw [hx] at hs
      cases hs

/-- The words of the thread are in what its allocator holds. -/
theorem owned (h : ThreadInv w l F) {a : ℕ} (ha : Owns l.live a) : F a := by
  have hnil : l.live ≠ [] := by
    rintro hl
    rw [hl] at ha
    obtain ⟨-, ⟨e, he, -⟩ | ⟨-, e, he, -⟩⟩ := ha <;> cases he
  cases h with
  | raw hp hl hF => exact absurd hl hnil
  | running hp γ h hF => exact (hF a).mpr (h.owns_holds ha)
  | ended hp hl hpages hbulk hF => exact absurd hl hnil

/-- An allocator that is not in use holds nothing. -/
theorem holds_nothing (h : ThreadInv w l F) (hp : l.phase ≠ .running) (x : ℕ) : ¬ F x := by
  cases h with
  | raw _ _ hF => exact hF x
  | running hr => exact absurd hr hp
  | ended _ _ _ _ hF => exact hF x

end ThreadInv

/-! ### All threads -/

/-- The threads, on one operating system. -/
abbrev System (ι : Type) : Type := Shared World Thread ι

variable {ι : Type} {s₀ s t : System ι} {i j : ι} {e : ℕ × ℕ} {a : ℕ}

/-- No allocator was constructed yet. -/
def Starts (s : System ι) : Prop := ∀ i, (s.part i).phase = .raw ∧ (s.part i).live = []

theorem Starts.together (h : Starts s) : Together ThreadInv s fun _ _ => False :=
  ⟨fun i => .raw (h i).1 (h i).2 fun _ => id, fun _ _ _ _ hx => hx.elim⟩

/-- The threads on a fresh machine. -/
def fresh : System ι := ⟨⟨[], fun _ => 7, true⟩, fun _ => ⟨SerializableAllocatorBase.raw, .raw, [], []⟩⟩

theorem fresh_starts : Starts (fresh : System ι) := fun _ => ⟨rfl, rfl⟩

/-- One thread, in terms of what its allocator holds. -/
theorem threads_local :
    Local (Thread.step os) Thread.ok (Thread.keeps os) (fun w x => Mapped w.calls x) Unchanged ThreadInv where
  refl := .refl
  trans h h' := h.trans h'
  mono h hF := h.mono hF
  takes h hF hx := by
    unfold Mapped
    rwa [(h _ hF).1]
  held h hx := h.mapped hx
  stable h hw := h.stable hw
  step h hok hs := h.step hok hs

/-- What a thread holds is committed, and in what its allocator holds. -/
theorem ThreadInv.region (h : ThreadInv w l F) (he : e ∈ l.live) {x : ℕ} (hx : InRegion e x) :
    F x ∧ pageState w.calls x = .committed := by
  cases h with
  | raw hp hl hF => simp [hl] at he
  | running hp γ h hF => exact ⟨(hF x).mpr (h.region_held he hx).1, (h.region_held he hx).2⟩
  | ended hp hl hpages hbulk hF => simp [hl] at he

/-- Regions of a thread that meet are one. -/
theorem ThreadInv.unique (h : ThreadInv w l F) {e' : ℕ × ℕ} (he : e ∈ l.live) (he' : e' ∈ l.live) {x : ℕ}
    (hx : InRegion e x) (hx' : InRegion e' x) : e = e' := by
  cases h with
  | raw hp hl hF => simp [hl] at he
  | running hp γ h hF => exact h.region_unique he he' hx hx'
  | ended hp hl hpages hbulk hF => simp [hl] at he

/-- The offset of a chunk in its page, and of an item. -/
theorem ThreadInv.offset (h : ThreadInv w l F) (he : e ∈ l.live) :
    8 ∣ e.1 ∧ (MaxBucketSize < e.2 → e.1 % 4096 = 16) := by
  cases h with
  | raw hp hl hF => simp [hl] at he
  | running hp γ h hF =>
    refine ⟨?_, h.large e he⟩
    rcases Nat.lt_or_ge MaxBucketSize e.2 with hb | hs
    · have := h.large e he hb
      omega
    · obtain ⟨σ, -, hσ, -, hmem, -⟩ := h.segment (h.small e he hs).1
      exact hσ.item_dvd hmem
  | ended hp hl hpages hbulk hF => simp [hl] at he

theorem ThreadInv.nodup (h : ThreadInv w l F) : (l.live.map Prod.fst).Nodup := by
  cases h with
  | raw hp hl hF => simp [hl]
  | running hp γ h hF => exact h.nodup
  | ended hp hl hpages hbulk hF => simp [hl]

/-- What a thread holds after a step. -/
theorem Thread.step_live (hs : Thread.step os (w, l) op = some (w', l')) :
    match op with
    | .start => l.live = [] ∧ l'.live = []
    | .call (.allocate sz) => l'.live = l.live ∨ ∃ p, l'.live = (p, sz) :: l.live
    | .call (.deallocate p) => l'.live = release p l.live
    | .call (.write a v) => Owns l.live a ∧ l'.live = l.live ∧ w'.mem a = v
    | .finish _ => l'.live = [] := by
  cases op with
  | start =>
    simp only [Thread.step] at hs ⊢
    split_ifs at hs with hl
    split at hs
    · obtain ⟨rfl, rfl⟩ := Prod.mk.inj (Option.some.inj hs)
      exact ⟨hl, rfl⟩
    · cases hs
    · cases hs
  | call op =>
    simp only [Thread.step] at hs
    split_ifs at hs
    obtain ⟨r, hr, hrl⟩ := Option.map_eq_some_iff.mp hs
    obtain ⟨rfl, rfl⟩ := Prod.mk.inj hrl
    have hlive := SerialRun.step_live hr
    cases op <;> exact hlive
  | finish fuel =>
    simp only [Thread.step] at hs ⊢
    split_ifs at hs
    split at hs
    · obtain ⟨rfl, rfl⟩ := Prod.mk.inj (Option.some.inj hs)
      rfl
    · cases hs
    · cases hs

/-- The words of a thread are those of its regions. -/
theorem owns_iff {live : List (ℕ × ℕ)} : Owns live a ↔ ∃ e ∈ live, Owns [e] a := by
  have hchunks : ∀ c, c ∈ chunksOf live ↔ ∃ e ∈ live, c ∈ chunksOf [e] := fun c => by
    simp only [chunksOf, List.mem_map, List.mem_filter, List.mem_singleton]
    constructor
    · rintro ⟨e, ⟨he, hb⟩, rfl⟩
      exact ⟨e, he, e, ⟨rfl, hb⟩, rfl⟩
    · rintro ⟨e, he, _, ⟨rfl, hb⟩, rfl⟩
      exact ⟨_, ⟨he, hb⟩, rfl⟩
  constructor
  · rintro ⟨h8, ⟨e, he, h⟩ | ⟨-, c, hc, h⟩⟩
    · exact ⟨e, he, h8, Or.inl ⟨e, List.mem_singleton_self e, h⟩⟩
    · obtain ⟨e, he, hc⟩ := (hchunks c).mp hc
      exact ⟨e, he, h8, Or.inr ⟨h8, c, hc, h⟩⟩
  · rintro ⟨e, he, h8, ⟨e', he', h⟩ | ⟨-, c, hc, h⟩⟩
    · obtain rfl := List.mem_singleton.mp he'
      exact ⟨h8, Or.inl ⟨e', he, h⟩⟩
    · exact ⟨h8, Or.inr ⟨h8, c, (hchunks c).mpr ⟨e, he, hc⟩, h⟩⟩

/-! ### What a thread relies on -/

/-- A request whose pages can be counted. -/
def Countable (sz : ℕ) : Prop := sz + memForbidden ≤ 2 ^ 64 - PAGE_SIZE

instance (sz : ℕ) : Decidable (Countable sz) := by
  unfold Countable
  infer_instance

theorem Countable.counted {sz : ℕ} (h : Countable sz) : Counted sz := by
  unfold Countable at h
  rw [memForbidden_eq, PAGE_SIZE_eq] at h
  unfold Counted
  rw [memForbidden_eq, u64_of_lt (by omega)]
  omega

/-- A call for a chunk is of one that can be counted. -/
def ThreadOp.Asks : ThreadOp → Prop
  | .call (.allocate sz) => Countable sz
  | _ => True

instance (op : ThreadOp) : Decidable op.Asks := by
  unfold ThreadOp.Asks
  split <;> infer_instance

/-- What a thread may do. -/
def ThreadOp.Allowed (l : Thread) : ThreadOp → Prop
  | .start => l.live = []
  | .call op => l.phase = .running ∧ op.Allowed l.live
  | .finish _ => l.phase ≠ .raw

/-- What the threads rely on: the bytes they asked for are committed, and those of
two regions, of one thread or of two, have no address in common. -/
structure Safe (s : System ι) : Prop where
  committed : ∀ i, ∀ e ∈ (s.part i).live, 8 ∣ e.1 ∧ ∀ x, Within e.1 e.2 x → pageState s.world.calls x = .committed
  apart : ∀ i j, ∀ e ∈ (s.part i).live, ∀ e' ∈ (s.part j).live, (i, e) ≠ (j, e') → IibMalloc.Apart e e'

theorem Together.safe {F : ι → ℕ → Prop} (hT : Together ThreadInv s F)
    (hc : ∀ i, ∀ e ∈ (s.part i).live, Countable e.2) : Safe s := by
  have hin : ∀ {i e x}, e ∈ (s.part i).live → Within e.1 e.2 x → InRegion e x := fun {i e x} he hx =>
    inRegion_of_within (hc i e he) ((hT.each i).offset he).2 hx
  refine ⟨fun i e he => ⟨((hT.each i).offset he).1, fun x hx => ((hT.each i).region he (hin he hx)).2⟩, ?_⟩
  intro i j e he e' he' hne x hx hx'
  rcases eq_or_ne i j with rfl | hij
  · exact hne (congrArg (Prod.mk i) ((hT.each i).unique he he' (hin he hx) (hin he' hx')))
  · exact hT.apart i j hij x ((hT.each i).region he (hin he hx)).1 ((hT.each j).region he' (hin he' hx')).1

variable (os) in
/-- A thread's step that is allowed can be taken; `deinitialize` takes enough
rounds. -/
theorem ThreadInv.progress (h : ThreadInv w l F) (hok : Thread.ok (w, l) op) (hop : op.Allowed l) (hasks : op.Asks) :
    match op with
    | .finish _ => ∃ n, ∀ fuel ≥ n, (Thread.step os (w, l) (.finish fuel)).isSome
    | op => (Thread.step os (w, l) op).isSome := by
  cases op with
  | start =>
    obtain ⟨_, s, hx, -⟩ := Act.returns (init_world ⟨w, l.c⟩)
    have hop : l.live = [] := hop
    simp only [Thread.step]
    rw [if_pos hop, hx]
    rfl
  | call op =>
    obtain ⟨hrun, hop⟩ := hop
    simp only [Thread.step]
    rw [if_pos hrun, Option.isSome_map]
    cases h with
    | raw hp hl hF => exact absurd (hp.symm.trans hrun) (by decide)
    | ended hp hl hpages hbulk hF => exact absurd (hp.symm.trans hrun) (by decide)
    | running hp γ h hF =>
      refine SerialInv.progress (r := l.serial w) h hop hok fun sz hsz => Or.inr ?_
      rw [hsz] at hasks
      exact Countable.counted hasks
  | finish fuel =>
    have hop : l.phase ≠ .raw := hop
    have hret : ∀ (γ : SerialGhost) (live : List (ℕ × ℕ)), SoundInv pageAllocatorT w.calls l.c.pageAllocator γ.pages →
        BulkInv bulkAllocatorT ⟨w, l.c.bulkAllocator⟩ γ.bulk (chunksOf live) →
        (∀ x, γ.bulk.Owned bulkAllocatorT (chunksOf live) x → ¬ γ.pages.Held pageAllocatorT x) →
        ∃ n, ∀ fuel ≥ n, (Thread.step os (w, l) (.finish fuel)).isSome := fun γ live hpages hbulk hapart => by
      refine ⟨(γ.pages.used.length + γ.pages.free.length) + (γ.bulk.used.length + γ.bulk.free.length),
        fun fuel hfuel => ?_⟩
      have hspec : Act.wp (SerializableAllocatorBase.deinit fuel) (fun _ t => Deinited ⟨w, l.c⟩ t γ ∧ Returned γ w t.w)
          (fun _ => False) ⟨w, l.c⟩ := deinit_parts hpages hbulk hapart (by omega) (by omega)
      obtain ⟨_, s, hx, -⟩ := Act.returns hspec
      simp only [Thread.step]
      rw [if_pos hop, hx]
      rfl
    cases h with
    | raw hp hl hF => exact absurd hp hop
    | running hp γ h hF => exact hret γ l.live h.pages h.bulk h.apart
    | ended hp hl hpages hbulk hF =>
      exact hret .empty [] hpages hbulk fun x hx => absurd (Or.inr hx) (not_holds_empty x)

/-! ### The heap of all threads -/

/-- A region of a thread: the address and the size requested. -/
abbrev Region (ι : Type) : Type := ι × ℕ × ℕ

/-- The words of a region. -/
def cells (q : Region ι) (a : ℕ) : Prop := Owns [q.2] a

/-- The regions of all threads. -/
def heapOf (s : System ι) : Heap (Region ι) ℕ ℕ := ⟨fun q => q.2 ∈ (s.part q.1).live, s.world.mem⟩

theorem heapOf_has : (heapOf s).Has cells a ↔ ∃ i, Owns (s.part i).live a := by
  constructor
  · rintro ⟨⟨i, e⟩, he, ha⟩
    exact ⟨i, owns_iff.mpr ⟨e, he, ha⟩⟩
  · rintro ⟨i, ha⟩
    obtain ⟨e, he, ha⟩ := owns_iff.mp ha
    exact ⟨(i, e), he, ha⟩

/-- Regions of the threads that share a word are one. -/
theorem heapOf_apart {F : ι → ℕ → Prop} (hT : Together ThreadInv s F) : (heapOf s).Apart cells := by
  rintro ⟨i, e⟩ ⟨j, e'⟩ he he' hne a ha ha'
  rcases eq_or_ne i j with rfl | hij
  · exact hne (congrArg (Prod.mk i) ((hT.each i).unique he he' ha.inRegion ha'.inRegion))
  · exact hT.apart i j hij a ((hT.each i).owned (owns_iff.mpr ⟨e, he, ha⟩))
      ((hT.each j).owned (owns_iff.mpr ⟨e', he', ha'⟩))

section Order

variable [DecidableEq ι]

variable (os) in
/-- Some thread takes a step. -/
def step : System ι → ι × ThreadOp → Option (System ι) := Shared.step (Thread.step os)

/-- No thread merges a live chunk. -/
def ok : System ι → ι × ThreadOp → Prop := Shared.ok Thread.ok

instance (s : System ι) (o : ι × ThreadOp) : Decidable (ok s o) := by
  unfold ok Shared.ok
  infer_instance

theorem together_reach (h₀ : Starts s₀) (hr : Reach (step os) ok s₀ s) : ∃ F, Together ThreadInv s F :=
  threads_local.reach ⟨_, h₀.together⟩ hr

/-- What a step is for the heap. -/
def label (s : System ι) (i : ι × ThreadOp) (t : System ι) : Heap.Event (Region ι) ℕ ℕ :=
  match i.2 with
  | .start => .idle
  | .call (.allocate _) =>
    match (t.part i.1).live with
    | e :: live => if live = (s.part i.1).live then .alloc (i.1, e) else .idle
    | [] => .idle
  | .call (.deallocate p) => .free fun q => q.1 = i.1 ∧ q.2.1 = p
  | .call (.write a v) => .write a v
  | .finish _ => .free fun q => q.1 = i.1

variable {F : ι → ℕ → Prop}

/-- A step of a thread changes no word that is held before and after, but by a
write. -/
theorem heapOf_keeps (hT : Together ThreadInv s F) (hok : ok s (i, op)) (hs : step os s (i, op) = some t)
    (hop : ∀ v, op ≠ .call (.write a v)) (ha : (heapOf s).Has cells a) (ha' : (heapOf t).Has cells a) :
    t.world.mem a = s.world.mem a := by
  obtain ⟨hi, hothers⟩ := Shared.step_cases hs
  obtain ⟨F', -, hsame⟩ := threads_local.together hT hok hs
  obtain ⟨j, ha⟩ := heapOf_has.mp ha
  obtain ⟨k, ha'⟩ := heapOf_has.mp ha'
  rcases eq_or_ne j i with rfl | hj
  · rcases eq_or_ne k j with rfl | hk
    · exact (hT.each k).keeps hok hi ha ha' hop
    · -- no word is held by two threads
      rw [hothers k hk] at ha'
      exact (hT.apart j k hk.symm a ((hT.each j).owned ha) ((hT.each k).owned ha')).elim
  · exact (hsame j hj a ((hT.each j).owned ha)).2

/-- A step of a thread is a step of the heap. -/
theorem heap_step (hT : Together ThreadInv s F) (hok : ok s (i, op)) (hs : step os s (i, op) = some t) :
    Heap.Step cells (heapOf s) (label s (i, op) t) (heapOf t) := by
  obtain ⟨hi, hothers⟩ := Shared.step_cases hs
  obtain ⟨F', hT', -⟩ := threads_local.together hT hok hs
  have hkeeps : (∀ a v, op ≠ .call (.write a v)) → Heap.Keeps cells (heapOf s) (heapOf t) := fun hop a ha ha' =>
    heapOf_keeps hT hok hs (hop a) ha ha'
  have hlive := Thread.step_live hi
  -- what the other threads hold is the same
  have hiff : ∀ {P : Region ι → Prop}, (∀ e, e ∈ (t.part i).live ↔ P (i, e)) →
      (∀ j e, j ≠ i → (e ∈ (s.part j).live ↔ P (j, e))) → ∀ q, (heapOf t).live q ↔ P q := fun {P} hself hother q => by
    obtain ⟨j, e⟩ := q
    rcases eq_or_ne j i with rfl | hj
    · exact hself e
    · show e ∈ (t.part j).live ↔ P (j, e)
      rw [hothers j hj]
      exact hother j e hj
  have hsame : (t.part i).live = (s.part i).live → ∀ q, (heapOf t).live q ↔ (heapOf s).live q := fun h =>
    hiff (fun e => by rw [h]; rfl) fun _ _ _ => Iff.rfl
  cases op with
  | start =>
    obtain ⟨h0, h1⟩ := hlive
    exact .idle _ (hsame (h1.trans h0.symm)) (hkeeps fun _ _ h => by cases h)
  | call op =>
    cases op with
    | allocate sz =>
      have hwrite : ∀ a v, ThreadOp.call (.allocate sz) ≠ .call (.write a v) := fun _ _ h => by cases h
      rcases hlive with h1 | ⟨p, h1⟩
      · have hlabel : label s (i, .call (.allocate sz)) t = .idle := by
          unfold label
          simp only
          split
          · rename_i e live hl
            refine if_neg fun h2 => ?_
            have hlen := congrArg List.length (h1.symm.trans hl)
            rw [h2, List.length_cons] at hlen
            omega
          · rfl
        rw [hlabel]
        exact .idle _ (hsame h1) (hkeeps hwrite)
      · have hlabel : label s (i, .call (.allocate sz)) t = .alloc (i, p, sz) := by
          simp [label, h1]
        rw [hlabel]
        have hnew : ∀ q, (heapOf t).live q ↔ q = (i, p, sz) ∨ (heapOf s).live q := by
          refine hiff (fun e => ?_) fun j e hj => ?_
          · rw [h1, List.mem_cons]
            simp [heapOf]
          · rw [or_iff_right fun h => hj (Prod.mk.inj h).1]
            rfl
        refine .alloc _ _ (fun q hq a ha ha' => ?_) hnew (hkeeps hwrite)
        refine heapOf_apart hT' q (i, p, sz) ((hnew q).mpr (Or.inr hq)) ((hnew _).mpr (Or.inl rfl)) ?_ a ha ha'
        rintro rfl
        have hnd := (hT'.each i).nodup
        rw [h1, List.map_cons] at hnd
        exact (List.nodup_cons.mp hnd).1 (List.mem_map_of_mem hq)
    | deallocate p =>
      refine .free _ _ (hiff (fun e => ?_) fun j e hj => ?_) (hkeeps fun _ _ h => by cases h)
      · rw [hlive, mem_release (hT.each i).nodup]
        simp [heapOf]
      · simp [heapOf, hj]
    | write a v =>
      obtain ⟨ha, h1, h2⟩ := hlive
      refine .write _ _ _ (heapOf_has.mpr ⟨i, ha⟩) (hsame h1) h2 fun b hb hbs => ?_
      refine heapOf_keeps hT hok hs (fun v' h => ?_) hbs ?_
      · injection h with h
        injection h with h
        exact hb h.symm
      · obtain ⟨q, hq, hqb⟩ := hbs
        exact ⟨q, (hsame h1 q).mpr hq, hqb⟩
  | finish fuel =>
    refine .free _ _ (hiff (fun e => ?_) fun j e hj => ?_) (hkeeps fun _ _ h => by cases h)
    · simp [hlive]
    · simp [heapOf, hj]

theorem heap_traced (h : ∃ F, Together ThreadInv s₀ F) {es : List (Heap.Event (Region ι) ℕ ℕ)}
    (hr : Traced (step os) ok label s₀ es s) : Heap.Trace cells (heapOf s₀) es (heapOf s) := by
  have hstep : ∀ (s : System ι) (i : ι × ThreadOp) (t : System ι) (h : Heap (Region ι) ℕ ℕ),
      (h = heapOf s ∧ ∃ F, Together ThreadInv s F) → ok s i → step os s i = some t →
      ∃ h', Heap.Step cells h (label s i t) h' ∧ h' = heapOf t ∧ ∃ F, Together ThreadInv t F := by
    intro s i t h hR hok hs
    obtain ⟨rfl, F, hT⟩ := hR
    obtain ⟨F', hT', -⟩ := threads_local.together hT hok hs
    exact ⟨heapOf t, heap_step hT hok hs, rfl, F', hT'⟩
  obtain ⟨h, hh, rfl, -⟩ := Heap.refines hstep ⟨rfl, h⟩ hr
  exact hh

/-- **All threads together are one heap**, as long as none merges a live chunk: in
any order of their steps, from any state reached, their runs are runs of a heap in
which each region is a thread's own, and no two regions share a word. -/
theorem threads_refine (h₀ : Starts s₀) (hr : Reach (step os) ok s₀ s) {es : List (Heap.Event (Region ι) ℕ ℕ)}
    (ht : Traced (step os) ok label s es t) :
    Heap.Trace cells (heapOf s) es (heapOf t) ∧ (heapOf t).Apart cells := by
  obtain ⟨F, hT⟩ := together_reach h₀ hr
  exact ⟨heap_traced ⟨F, hT⟩ ht, (heap_traced ⟨F, hT⟩ ht).apart (heapOf_apart hT)⟩

/-- Two threads ask for an item and a chunk, and one gives its item back. -/
theorem threads_refine_two : ∃ s t es, run (step (Os.linear 0)) (fun s o => decide (ok s o)) (fresh : System Bool)
      [(true, .start), (false, .start), (true, .call (.allocate 9000)), (false, .call (.allocate 100))] = some s ∧
    run (step (Os.linear 0)) (fun s o => decide (ok s o)) s
      [(true, .call (.allocate 100)), (false, .call (.deallocate 9437184)), (false, .finish 40)] = some t ∧
    es.length = 3 ∧ Heap.Trace cells (heapOf s) es (heapOf t) ∧ (heapOf t).Apart cells := by
  obtain ⟨s, hs, ht⟩ := Option.map_eq_some_iff.mp (show (run (step (Os.linear 0)) (fun s o => decide (ok s o))
      (fresh : System Bool) [(true, .start), (false, .start), (true, .call (.allocate 9000)),
        (false, .call (.allocate 100))]).map (fun s => (run (step (Os.linear 0)) (fun s o => decide (ok s o)) s
      [(true, .call (.allocate 100)), (false, .call (.deallocate 9437184)), (false, .finish 40)]).isSome) =
      some true by decide +kernel)
  obtain ⟨t, ht⟩ := Option.isSome_iff_exists.mp ht
  obtain ⟨es, hlen, hes⟩ : ∃ es, es.length = 3 ∧
      Traced (step (Os.linear 0)) (fun s o => decide (ok s o) = true) label s es t := by
    obtain ⟨es, hlen, hes⟩ := Traced.of_run .start ht
    exact ⟨es, hlen, List.append_nil es ▸ hes⟩
  refine ⟨s, t, es, hs, ht, hlen, threads_refine fresh_starts ((Reach.of_run hs).mono fun _ _ h => of_decide_eq_true h)
    (hes.mono fun _ _ h => of_decide_eq_true h)⟩

/-! ### What a thread has written -/

/-- The thread `i` neither gives `e` back nor writes `a`. -/
def Leaves (i : ι) (e : ℕ × ℕ) (a : ℕ) (o : ι × ThreadOp) : Prop :=
  o.1 = i → match o.2 with
    | .call (.deallocate p) => p ≠ e.1
    | .call (.write b _) => b ≠ a
    | .finish _ => False
    | _ => True

instance (i : ι) (e : ℕ × ℕ) (a : ℕ) (o : ι × ThreadOp) : Decidable (Leaves i e a o) := by
  unfold Leaves
  split <;> infer_instance

theorem Leaves.not_touches {F : ι → ℕ → Prop} (hT : Together ThreadInv s F) (hs : step os s (j, op) = some t)
    (hl : Leaves i e a (j, op)) (he : e ∈ (s.part i).live) (ha : Owns [e] a) :
    ¬ (label s (j, op) t).Touches (i, e) a := by
  obtain ⟨hj, -⟩ := Shared.step_cases hs
  have hlive := Thread.step_live hj
  cases op with
  | start => exact id
  | call op =>
    cases op with
    | allocate sz =>
      unfold label
      simp only
      split
      · split_ifs
        · exact id
        · exact id
      · exact id
    | deallocate p =>
      rintro ⟨rfl, hp⟩
      exact hl rfl hp.symm
    | write b v =>
      rintro rfl
      rcases eq_or_ne j i with rfl | hji
      · exact hl rfl rfl
      · -- no other thread may write there
        exact hT.apart j i hji b ((hT.each j).owned hlive.1) ((hT.each i).owned (owns_iff.mpr ⟨e, he, ha⟩))
  | finish fuel =>
    rintro rfl
    exact hl rfl

/-- **What a thread has written stays**, as long as no thread merges a live chunk,
until the thread writes it again, gives the region back or calls `deinitialize`. -/
theorem threads_read (h₀ : Starts s₀) (hr : Reach (step os) ok s₀ s) (he : e ∈ (s.part i).live) (ha : Owns [e] a)
    (ht : Reach (step os) (fun s o => ok s o ∧ Leaves i e a o) s t) :
    e ∈ (t.part i).live ∧ t.world.mem a = s.world.mem a := by
  have hinv : (∃ F, Together ThreadInv t F) ∧ e ∈ (t.part i).live ∧ t.world.mem a = s.world.mem a := by
    refine ht.invariant (P := fun t => (∃ F, Together ThreadInv t F) ∧ e ∈ (t.part i).live ∧
      t.world.mem a = s.world.mem a) ⟨together_reach h₀ hr, he, rfl⟩ ?_
    rintro u v ⟨j, op⟩ ⟨⟨F, hT⟩, hu, hmem⟩ ⟨hok, hleaves⟩ hs
    obtain ⟨F', hT', -⟩ := threads_local.together hT hok hs
    obtain ⟨h1, h2⟩ := (heap_step hT hok hs).reads (r := (i, e)) hu ha (hleaves.not_touches hT hs hu ha)
    exact ⟨⟨F', hT'⟩, h1, h2.trans hmem⟩
  exact hinv.2

/-- One thread writes to its item and gets a chunk; the other gets an item and is
done. -/
theorem threads_read_two : ∃ s t, run (step (Os.linear 0)) (fun s o => decide (ok s o)) (fresh : System Bool)
      [(true, .start), (false, .start), (true, .call (.allocate 100)), (true, .call (.write 1048576 5))] = some s ∧
    run (step (Os.linear 0)) (fun s o => decide (ok s o ∧ Leaves true (1048576, 100) 1048576 o)) s
      [(false, .call (.allocate 100)), (true, .call (.allocate 9000)), (false, .finish 40)] = some t ∧
    t.world.mem 1048576 = s.world.mem 1048576 := by
  obtain ⟨s, hs, hv⟩ := Option.map_eq_some_iff.mp (show (run (step (Os.linear 0)) (fun s o => decide (ok s o))
      (fresh : System Bool) [(true, .start), (false, .start), (true, .call (.allocate 100)),
        (true, .call (.write 1048576 5))]).map (fun s => decide ((1048576, 100) ∈ (s.part true).live) &&
        (run (step (Os.linear 0)) (fun s o => decide (ok s o ∧ Leaves true (1048576, 100) 1048576 o)) s
      [(false, .call (.allocate 100)), (true, .call (.allocate 9000)), (false, .finish 40)]).isSome) =
      some true by decide +kernel)
  obtain ⟨he, ht⟩ := Bool.and_eq_true_iff.mp hv
  obtain ⟨t, ht⟩ := Option.isSome_iff_exists.mp ht
  refine ⟨s, t, hs, ht, (threads_read fresh_starts ((Reach.of_run hs).mono fun _ _ h => of_decide_eq_true h)
    (of_decide_eq_true he) (by decide +kernel) ((Reach.of_run ht).mono fun _ _ h => of_decide_eq_true h)).2⟩

/-! ### Safety -/

/-- The steps of the threads that merge no live chunk and whose requests can be
counted. -/
def okAsks (s : System ι) (o : ι × ThreadOp) : Prop := ok s o ∧ o.2.Asks

instance (s : System ι) (o : ι × ThreadOp) : Decidable (okAsks s o) := by
  unfold okAsks ok Shared.ok
  infer_instance

theorem countable_reach (h₀ : Starts s₀) (hr : Reach (step os) okAsks s₀ s) :
    ∀ i, ∀ e ∈ (s.part i).live, Countable e.2 := by
  refine hr.invariant (P := fun s => ∀ i, ∀ e ∈ (s.part i).live, Countable e.2) (fun i e he => ?_) ?_
  · rw [(h₀ i).2] at he
    cases he
  rintro s t ⟨j, op⟩ hc ⟨-, hasks⟩ hs i e he
  obtain ⟨hj, hothers⟩ := Shared.step_cases hs
  rcases eq_or_ne i j with rfl | hij
  swap
  · rw [hothers i hij] at he
    exact hc i e he
  have hlive := Thread.step_live hj
  cases op with
  | start =>
    rw [hlive.2] at he
    cases he
  | call op =>
    cases op with
    | allocate sz =>
      rcases hlive with h1 | ⟨p, h1⟩
      · rw [h1] at he
        exact hc i e he
      · rw [h1] at he
        rcases List.mem_cons.mp he with rfl | he
        · exact hasks
        · exact hc i e he
    | deallocate p =>
      rw [hlive] at he
      exact hc i e (List.mem_of_mem_eraseP he)
    | write a v =>
      rw [hlive.2.1] at he
      exact hc i e he
  | finish fuel =>
    rw [hlive] at he
    cases he

/-- **Threads do not meet**, as long as none merges a live chunk: in any order of
their steps, what they hold is committed and apart, and no such step that a thread
may take is stuck. -/
theorem threads_safe (h₀ : Starts s₀) (hr : Reach (step os) okAsks s₀ s) :
    Safe s ∧ ∀ i (op : ThreadOp), op.Allowed (s.part i) → okAsks s (i, op) →
      match op with
      | .finish _ => ∃ n, ∀ fuel ≥ n, (step os s (i, .finish fuel)).isSome
      | op => (step os s (i, op)).isSome := by
  obtain ⟨F, hT⟩ := together_reach h₀ (hr.mono fun _ _ h => h.1)
  refine ⟨Together.safe hT (countable_reach h₀ hr), fun i op hop hok => ?_⟩
  have hp := ThreadInv.progress os (hT.each i) hok.1 hop hok.2
  cases op with
  | start => simpa [step, Shared.step, Shared.view] using hp
  | call op => simpa [step, Shared.step, Shared.view] using hp
  | finish fuel => simpa [step, Shared.step, Shared.view] using hp

theorem threads_safe_two : ∃ s, run (step (Os.linear 0)) (fun s o => decide (okAsks s o)) (fresh : System Bool)
      [(true, .start), (false, .start), (true, .call (.allocate 9000)), (false, .call (.allocate 100)),
        (true, .call (.write 4112 5)), (false, .finish 40), (false, .start), (false, .call (.allocate 9000))] = some s ∧
    Safe s := by
  obtain ⟨s, hs⟩ := Option.isSome_iff_exists.mp (show (run (step (Os.linear 0)) (fun s o => decide (okAsks s o))
      (fresh : System Bool) [(true, .start), (false, .start), (true, .call (.allocate 9000)),
        (false, .call (.allocate 100)), (true, .call (.write 4112 5)), (false, .finish 40), (false, .start),
        (false, .call (.allocate 9000))]).isSome = true by decide +kernel)
  exact ⟨s, hs, (threads_safe fresh_starts ((Reach.of_run hs).mono fun _ _ h => of_decide_eq_true h)).1⟩

/-! ### What is left at the end -/

variable (os) in
/-- No live chunk is merged, and no step loses memory. -/
def keeps (s : System ι) (o : ι × ThreadOp) : Prop := ok s o ∧ Shared.ok (Thread.keeps os) s o

instance (s : System ι) (o : ι × ThreadOp) : Decidable (keeps os s o) := by
  unfold keeps ok Shared.ok
  infer_instance

/-- **Nothing is left**, where no step merges a live chunk or loses memory: in any
order of the steps, when each thread has called `deinitialize` the address space is
as it was, and what was in it before was never touched. -/
theorem threads_return (h₀ : Starts s₀) (hr : Reach (step os) (keeps os) s₀ s) :
    Unchanged (Mapped s₀.world.calls) s₀.world s.world ∧ ((∀ i, (s.part i).phase ≠ .running) →
      ∀ x, pageState s.world.calls x = pageState s₀.world.calls x) := by
  obtain ⟨F, hT, hA⟩ := threads_local.account h₀.together hr
  refine ⟨hA.same, fun hd x => ?_⟩
  by_cases hx₀ : Mapped s₀.world.calls x
  · exact (hA.same x hx₀).1
  · -- no thread has it, so nobody mapped it
    have hx : ¬ Mapped s.world.calls x := fun hx => by
      rcases hA.cover x hx with h | ⟨i, hi⟩
      · exact hx₀ h
      · exact (hT.each i).holds_nothing (hd i) x hi
    unfold Mapped at hx hx₀
    rw [not_not.mp hx, not_not.mp hx₀]

/-- Two threads that call `initialize` twice, as the test program does. -/
theorem threads_return_two : ∃ s, run (step (Os.linear 0)) (fun s o => decide (keeps (Os.linear 0) s o))
      (fresh : System Bool) [(true, .start), (true, .start), (false, .start), (true, .call (.allocate 100)),
        (false, .start), (false, .call (.allocate 3000)), (true, .call (.allocate 16)), (true, .finish 40),
        (false, .finish 40), (true, .finish 40)] = some s ∧
    Unchanged (Mapped (fresh : System Bool).world.calls) (fresh : System Bool).world s.world ∧
    ∀ x, pageState s.world.calls x = .unmapped := by
  obtain ⟨s, hs, hv⟩ := Option.map_eq_some_iff.mp (show (run (step (Os.linear 0))
      (fun s o => decide (keeps (Os.linear 0) s o)) (fresh : System Bool) [(true, .start), (true, .start), (false, .start),
        (true, .call (.allocate 100)), (false, .start), (false, .call (.allocate 3000)), (true, .call (.allocate 16)),
        (true, .finish 40), (false, .finish 40), (true, .finish 40)]).map (fun s =>
          decide ((s.part true).phase ≠ .running ∧ (s.part false).phase ≠ .running)) = some true by decide +kernel)
  obtain ⟨h1, h2⟩ := threads_return fresh_starts ((Reach.of_run hs).mono fun _ _ h => of_decide_eq_true h)
  obtain ⟨ht, hf⟩ := of_decide_eq_true hv
  exact ⟨s, hs, h1, fun x => h2 (fun i => by cases i <;> assumption) x⟩

end Order

end Threads

end IibMalloc

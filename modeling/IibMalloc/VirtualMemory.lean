/-
# page_allocator_linux.cpp: the operating system

The allocator's only window to the outside is `mmap` and `munmap`. The state
keeps the history of its system calls, latest first, and `pageState` reads
from it what the operating system holds at an address. What `mmap` answers is
the environment's choice: `Os` is any strategy that answers from the history,
with one law, that a region it returns is page-aligned, not at 0, inside the
address space and overlaps nothing still mapped. Any call may be refused
(`MAP_FAILED`), and then the allocator throws `std::bad_alloc`; `munmap` of a
region that is mapped succeeds.

`World` adds the memory, one 64-bit word at each multiple of 8, and whether
every `assert` evaluated so far held (the shipped builds define `NDEBUG`, so
execution goes on after a failed one). Fresh and committed memory reads 0.
-/
import IibMalloc.Common
import IibMalloc.Lib.Act

namespace IibMalloc

open Lib

/-- A system call, with the address `mmap` answered. -/
inductive OsCall where
  /-- `mmap` with `PROT_READ|PROT_WRITE` -/
  | allocate (addr : ℕ) (size : ℕ)
  /-- `mmap` with `PROT_NONE` -/
  | reserve (addr : ℕ) (size : ℕ)
  /-- `mmap` with `MAP_FIXED`, `PROT_READ|PROT_WRITE` -/
  | commit (addr : ℕ) (size : ℕ)
  /-- `munmap` -/
  | release (addr : ℕ) (size : ℕ)
  /-- an `mmap` that failed -/
  | refused (size : ℕ)
deriving DecidableEq, Repr

/-- What the operating system holds at an address. -/
inductive PageState where
  | unmapped
  | reserved
  | committed
deriving DecidableEq, Repr

/-- `x` lies in the `n` bytes from `a`. -/
def Within (a n x : ℕ) : Prop := a ≤ x ∧ x < a + n

instance (a n x : ℕ) : Decidable (Within a n x) := by unfold Within; infer_instance

/-- The state of the address `x` after the calls, latest first. -/
def pageState : List OsCall → ℕ → PageState
  | [], _ => .unmapped
  | .allocate a n :: cs, x => if Within a n x then .committed else pageState cs x
  | .reserve a n :: cs, x => if Within a n x then .reserved else pageState cs x
  | .commit a n :: cs, x => if Within a n x then .committed else pageState cs x
  | .release a n :: cs, x => if Within a n x then .unmapped else pageState cs x
  | .refused _ :: cs, x => pageState cs x

/-- The region `[a, a + n)` is one `mmap` may return after the calls. -/
structure FreshRegion (cs : List OsCall) (a n : ℕ) : Prop where
  aligned : 4096 ∣ a
  pos : 0 < a
  lt : a + n < 2 ^ 64
  unmapped : ∀ x, Within a n x → pageState cs x = .unmapped

/-- The operating system: its answers, from the history of the calls. -/
structure Os where
  /-- the address a fresh mapping of `n` bytes gets, if it gets one -/
  mmap : List OsCall → ℕ → Option ℕ
  /-- whether a `MAP_FIXED` mapping succeeds -/
  commits : List OsCall → ℕ → ℕ → Bool
  fresh : ∀ {cs n a}, mmap cs n = some a → FreshRegion cs a n

/-- What the allocator acts on. -/
structure World where
  calls : List OsCall
  mem : ℕ → ℕ
  assertsHold : Bool

/-- A memory with the word at `a` set to `v`. -/
def store (mem : ℕ → ℕ) (a v : ℕ) : ℕ → ℕ := fun x => if x = a then v else mem x

@[simp] theorem store_self (mem : ℕ → ℕ) (a v : ℕ) : store mem a v a = v := by simp [store]

theorem store_ne {mem : ℕ → ℕ} {a v x : ℕ} (h : x ≠ a) : store mem a v x = mem x := by
  simp [store, h]

/-- A memory with `n` bytes from `a` zeroed. -/
def zero (mem : ℕ → ℕ) (a n : ℕ) : ℕ → ℕ := fun x => if Within a n x then 0 else mem x

theorem zero_of_not {mem : ℕ → ℕ} {a n x : ℕ} (h : ¬ Within a n x) : zero mem a n x = mem x := by
  simp [zero, h]

/-- A component with the world it acts on. -/
structure St (C : Type) where
  w : World
  c : C

/-! ### VirtualMemory -/

namespace World

def allocated (w : World) (a n : ℕ) : World :=
  { w with calls := .allocate a n :: w.calls, mem := zero w.mem a n }

def reserved (w : World) (a n : ℕ) : World := { w with calls := .reserve a n :: w.calls }

def committed (w : World) (a n : ℕ) : World :=
  { w with calls := .commit a n :: w.calls, mem := zero w.mem a n }

def released (w : World) (a n : ℕ) : World := { w with calls := .release a n :: w.calls }

def refused (w : World) (n : ℕ) : World := { w with calls := .refused n :: w.calls }

/-- The regions of `n` bytes at `as` are released in order. -/
def releasedAll (w : World) (n : ℕ) (as : List ℕ) : World := as.foldl (fun w a => w.released a n) w

/-- The ranges `rs` are committed in order. -/
def committedAll (w : World) (rs : List (ℕ × ℕ)) : World :=
  rs.foldl (fun w r => w.committed r.1 r.2) w

end World

/-! ### What the history says -/

/-- The regions obtained from `mmap`, latest first. -/
def obtained : List OsCall → List (ℕ × ℕ)
  | [] => []
  | .allocate a n :: cs => (a, n) :: obtained cs
  | .reserve a n :: cs => (a, n) :: obtained cs
  | _ :: cs => obtained cs

/-- The ranges committed, latest first. -/
def commitRanges : List OsCall → List (ℕ × ℕ)
  | [] => []
  | .commit a n :: cs => (a, n) :: commitRanges cs
  | _ :: cs => commitRanges cs

/-- The regions given back, latest first. -/
def releases : List OsCall → List (ℕ × ℕ)
  | [] => []
  | .release a n :: cs => (a, n) :: releases cs
  | _ :: cs => releases cs

/-- The regions reserved, latest first. -/
def reservations : List OsCall → List (ℕ × ℕ)
  | [] => []
  | .reserve a n :: cs => (a, n) :: reservations cs
  | _ :: cs => reservations cs

/-- The two ranges have no address in common. -/
def Apart (r r' : ℕ × ℕ) : Prop := ∀ x, Within r.1 r.2 x → ¬ Within r'.1 r'.2 x

instance : Std.Symm Apart := ⟨fun _ _ h x hx hx' => h x hx' hx⟩

/-- `w'` has the same memory and the same mappings as `w` where `P` holds. -/
def Unchanged (P : ℕ → Prop) (w w' : World) : Prop :=
  ∀ x, P x → pageState w'.calls x = pageState w.calls x ∧ w'.mem x = w.mem x

/-- The address `x` is mapped. -/
def Mapped (calls : List OsCall) (x : ℕ) : Prop := pageState calls x ≠ .unmapped

namespace Unchanged

variable {P P' : ℕ → Prop} {w w' w'' : World} {a n : ℕ}

theorem refl : Unchanged P w w := fun _ _ => ⟨rfl, rfl⟩

theorem trans (h : Unchanged P w w') (h' : Unchanged P w' w'') : Unchanged P w w'' :=
  fun x hx => ⟨(h' x hx).1.trans (h x hx).1, (h' x hx).2.trans (h x hx).2⟩

theorem mono (h : Unchanged P w w') (hP : ∀ x, P' x → P x) : Unchanged P' w w' :=
  fun x hx => h x (hP x hx)

theorem refused : Unchanged P w (w.refused n) := fun _ _ => ⟨rfl, rfl⟩

theorem committed (h : ∀ x, P x → ¬ Within a n x) : Unchanged P w (w.committed a n) := fun x hx => by
  simp [World.committed, pageState, zero, h x hx]

theorem released (h : ∀ x, P x → ¬ Within a n x) : Unchanged P w (w.released a n) := fun x hx => by
  simp [World.released, pageState, h x hx]

/-- A fresh mapping leaves what is mapped alone. -/
theorem allocated (hf : FreshRegion w.calls a n) (h : ∀ x, P x → Mapped w.calls x) :
    Unchanged P w (w.allocated a n) := fun x hx => by
  have : ¬ Within a n x := fun hw => h x hx (hf.unmapped x hw)
  simp [World.allocated, pageState, zero, this]

theorem reserved (hf : FreshRegion w.calls a n) (h : ∀ x, P x → Mapped w.calls x) :
    Unchanged P w (w.reserved a n) := fun x hx => by
  have : ¬ Within a n x := fun hw => h x hx (hf.unmapped x hw)
  simp [World.reserved, pageState, this]

end Unchanged

namespace World

variable {w : World}

theorem committedAll_committed : ∀ {rs : List (ℕ × ℕ)} {w : World} {x : ℕ},
    (pageState w.calls x = .committed ∨ ∃ r ∈ rs, Within r.1 r.2 x) →
    pageState (w.committedAll rs).calls x = .committed
  | [], _, _, h => by simpa [committedAll] using h
  | r :: rs, w, x, h => by
    apply committedAll_committed (w := w.committed r.1 r.2)
    simp only [committed, pageState]
    rcases h with h | ⟨r', hr', hx⟩
    · exact Or.inl (by split_ifs <;> [rfl; exact h])
    · rcases List.mem_cons.mp hr' with rfl | hr'
      · exact Or.inl (if_pos hx)
      · exact Or.inr ⟨r', hr', hx⟩

theorem committedAll_commitRanges : ∀ (rs : List (ℕ × ℕ)) (w : World),
    commitRanges (w.committedAll rs).calls = rs.reverse ++ commitRanges w.calls
  | [], _ => rfl
  | r :: rs, w => by
    have := committedAll_commitRanges rs (w.committed r.1 r.2)
    simp only [committedAll, List.foldl_cons] at this ⊢
    rw [this]
    simp [committed, commitRanges]

/-- Commits obtain nothing, give nothing back and evaluate no assertion. -/
theorem committedAll_other : ∀ (rs : List (ℕ × ℕ)) (w : World),
    obtained (w.committedAll rs).calls = obtained w.calls ∧
      releases (w.committedAll rs).calls = releases w.calls ∧
      (w.committedAll rs).assertsHold = w.assertsHold ∧ w.calls <:+ (w.committedAll rs).calls
  | [], _ => ⟨rfl, rfl, rfl, List.suffix_refl _⟩
  | r :: rs, w => by
    obtain ⟨h1, h2, h3, h4⟩ := committedAll_other rs (w.committed r.1 r.2)
    exact ⟨h1, h2, h3, (List.suffix_cons _ _).trans h4⟩

/-- The calls of a list of commits, latest first. -/
theorem committedAll_calls : ∀ (rs : List (ℕ × ℕ)) (w : World),
    (w.committedAll rs).calls = (rs.map fun r => .commit r.1 r.2).reverse ++ w.calls
  | [], _ => rfl
  | r :: rs, w => by
    have := committedAll_calls rs (w.committed r.1 r.2)
    simp only [committedAll, List.foldl_cons] at this ⊢
    rw [this]
    simp [committed]

/-- What the assertions said so far stands apart. -/
theorem committedAll_asserts (rs : List (ℕ × ℕ)) (w : World) (v : Bool) :
    World.committedAll { w with assertsHold := v } rs = { w.committedAll rs with assertsHold := v } := by
  induction rs generalizing w with
  | nil => rfl
  | cons r rs ih => exact ih (w.committed r.1 r.2)

theorem refused_asserts (rs : List (ℕ × ℕ)) (n : ℕ) (w : World) (v : Bool) :
    (World.committedAll { w with assertsHold := v } rs).refused n =
      { (w.committedAll rs).refused n with assertsHold := v } := by
  rw [committedAll_asserts]
  rfl

/-- And reserve nothing. -/
theorem committedAll_reservations : ∀ (rs : List (ℕ × ℕ)) (w : World),
    reservations (w.committedAll rs).calls = reservations w.calls
  | [], _ => rfl
  | r :: rs, w => committedAll_reservations rs (w.committed r.1 r.2)

end World

namespace World

/-- The calls of a list of releases, latest first. -/
theorem releasedAll_calls : ∀ (n : ℕ) (as : List ℕ) (w : World),
    (w.releasedAll n as).calls = (as.reverse.map fun a => .release a n) ++ w.calls ∧
      (w.releasedAll n as).assertsHold = w.assertsHold
  | _, [], _ => ⟨rfl, rfl⟩
  | n, a :: as, w => by
    obtain ⟨h1, h2⟩ := releasedAll_calls n as (w.released a n)
    simp only [releasedAll, List.foldl_cons] at h1 h2 ⊢
    rw [h1, h2]
    simp [released]

/-- The regions are unmapped, and nothing else changes. -/
theorem releasedAll_state : ∀ (n : ℕ) (as : List ℕ) (w : World) (x : ℕ),
    pageState (w.releasedAll n as).calls x = (if ∃ a ∈ as, Within a n x then .unmapped else pageState w.calls x) ∧
      (w.releasedAll n as).mem = w.mem
  | _, [], _, _ => by simp [releasedAll]
  | n, a :: as, w, x => by
    obtain ⟨h1, h2⟩ := releasedAll_state n as (w.released a n) x
    simp only [releasedAll, List.foldl_cons] at h1 h2 ⊢
    refine ⟨h1.trans ?_, h2⟩
    by_cases has : ∃ b ∈ as, Within b n x
    · rw [if_pos has, if_pos (has.imp fun b hb => ⟨List.mem_cons_of_mem a hb.1, hb.2⟩)]
    · have hiff : (∃ b ∈ a :: as, Within b n x) ↔ Within a n x := by
        rw [List.exists_mem_cons_iff, or_iff_left has]
      simp only [if_neg has, hiff, released, pageState]

end World

theorem Unchanged.releasedAll {P : ℕ → Prop} {w : World} {n : ℕ} {as : List ℕ}
    (h : ∀ a ∈ as, ∀ x, P x → ¬ Within a n x) : Unchanged P w (w.releasedAll n as) := fun x hx => by
  obtain ⟨h1, h2⟩ := World.releasedAll_state n as w x
  rw [h1, h2]
  exact ⟨if_neg fun ⟨a, ha, hw⟩ => h a ha x hx hw, rfl⟩

theorem obtained_append : ∀ cs cs' : List OsCall, obtained (cs ++ cs') = obtained cs ++ obtained cs'
  | [], _ => rfl
  | c :: cs, cs' => by cases c <;> simp [obtained, obtained_append cs cs']

theorem Unchanged.committedAll {P : ℕ → Prop} : ∀ {rs : List (ℕ × ℕ)} {w : World},
    (∀ r ∈ rs, ∀ x, P x → ¬ Within r.1 r.2 x) → Unchanged P w (w.committedAll rs)
  | [], _, _ => .refl
  | r :: _, _, h => (Unchanged.committed (h r List.mem_cons_self)).trans
      (Unchanged.committedAll fun r' hr' => h r' (List.mem_cons_of_mem r hr'))

theorem mapped_of_committed {calls : List OsCall} {x : ℕ} (h : pageState calls x = .committed) :
    Mapped calls x := by simp [Mapped, h]

/-- From `w` to `w'` nothing was unmapped or made inaccessible. -/
def Grows (w w' : World) : Prop :=
  ∀ x, (pageState w.calls x = .committed → pageState w'.calls x = .committed) ∧
    (Mapped w.calls x → Mapped w'.calls x)

namespace Grows

variable {w w' w'' : World} {a n : ℕ}

theorem refl : Grows w w := fun _ => ⟨id, id⟩

theorem trans (h : Grows w w') (h' : Grows w' w'') : Grows w w'' :=
  fun x => ⟨fun hx => (h' x).1 ((h x).1 hx), fun hx => (h' x).2 ((h x).2 hx)⟩

theorem of_unchanged (h : Unchanged (Mapped w.calls) w w') : Grows w w' := fun x =>
  ⟨fun hx => (h x (mapped_of_committed hx)).1.trans hx, fun hx => by
    unfold Mapped
    rw [(h x hx).1]
    exact hx⟩

theorem refused : Grows w (w.refused n) := of_unchanged .refused

theorem allocated (hf : FreshRegion w.calls a n) : Grows w (w.allocated a n) :=
  of_unchanged (.allocated hf fun _ hx => hx)

theorem reserved (hf : FreshRegion w.calls a n) : Grows w (w.reserved a n) :=
  of_unchanged (.reserved hf fun _ hx => hx)

theorem committedAll {rs : List (ℕ × ℕ)} : Grows w (w.committedAll rs) := fun x => by
  refine ⟨fun hx => World.committedAll_committed (Or.inl hx), fun hx => ?_⟩
  by_cases hr : ∃ r ∈ rs, Within r.1 r.2 x
  · exact mapped_of_committed (World.committedAll_committed (Or.inr hr))
  · have : Unchanged (fun y => y = x) w (w.committedAll rs) :=
      .committedAll fun r hr' y hy hw => hr ⟨r, hr', hy ▸ hw⟩
    unfold Mapped
    rw [(this x rfl).1]
    exact hx

end Grows

namespace VirtualMemory

variable (os : Os)

def allocate (size : ℕ) : Act World ℕ := fun w =>
  match os.mmap w.calls size with
  | none => .throw (w.refused size)
  | some a => .ret a (w.allocated a size)

def deallocate (ptr : ℕ) (size : ℕ) : Act World Unit :=
  Act.update fun w =>
    { w.released ptr size with assertsHold := w.assertsHold && decide (size % 4096 = 0) }

def AllocateAddressSpace (size : ℕ) : Act World ℕ := fun w =>
  match os.mmap w.calls size with
  | none => .throw (w.refused size)
  | some a => .ret a (w.reserved a size)

def CommitMemory (addr : ℕ) (size : ℕ) : Act World ℕ := fun w =>
  if os.commits w.calls addr size then .ret addr (w.committed addr size)
  else .throw (w.refused size)

end VirtualMemory

/-! ### A component in its world -/

namespace Act

variable {C D α : Type}

/-- A program on the world. -/
def onWorld (x : Act World α) : Act (St C) α := Act.zoom St.w (fun w s => { s with w }) x

/-- A program on a part of the component. -/
def onPart (get : C → D) (put : D → C → C) (x : Act (St D) α) : Act (St C) α :=
  Act.zoom (fun s => ⟨s.w, get s.c⟩) (fun t s => ⟨t.w, put t.c s.c⟩) x

/-- A change of the component. -/
def onSelf (f : C → C) : Act (St C) Unit := Act.update fun s => { s with c := f s.c }

/-- `assert(c)`. -/
def assert (c : Bool) : Act (St C) Unit :=
  Act.update fun s => { s with w.assertsHold := s.w.assertsHold && c }

/-- `assert(f)`, where `f` reads the state. -/
def assertThat (f : St C → Bool) : Act (St C) Unit :=
  Act.update fun s => { s with w.assertsHold := s.w.assertsHold && f s }

/-- A read or write of `*a` in memory that is mapped readable. -/
def deref (a : ℕ) : Act (St C) Unit :=
  Act.need fun s => decide (pageState s.w.calls a = .committed)

/-- The word at `a`. -/
def loadWord (a : ℕ) : Act (St C) ℕ := do
  deref a
  Act.read fun s => s.w.mem a

/-- The word at `a` is set to `v`. -/
def storeWord (a v : ℕ) : Act (St C) Unit := do
  deref a
  Act.update fun s => { s with w.mem := store s.w.mem a v }

/-- An assertion that holds changes nothing. -/
theorem exec_assert {s : St C} {b : Bool} (h : b = true) : Act.exec (assert b) s = .ret () s := by
  obtain ⟨⟨calls, mem, v⟩, c⟩ := s
  rw [h]
  show Outcome.ret () (St.mk ⟨calls, mem, v && true⟩ c) = _
  rw [Bool.and_true]

theorem exec_deref {s : St C} {a : ℕ} (h : pageState s.w.calls a = .committed) :
    Act.exec (deref a) s = .ret () s := Act.exec_need (decide_eq_true h)

theorem ret_assertThat {f : St C → Bool} {s t : St C} {y : Unit} (hx : Act.exec (assertThat f) s = .ret y t)
    (h : f s = true) : t = s := by
  have hst : (⟨⟨s.w.calls, s.w.mem, s.w.assertsHold && f s⟩, s.c⟩ : St C) = t := (Outcome.ret.inj hx).2
  rw [h, Bool.and_true] at hst
  exact hst.symm

section Rules

variable {Q : α → St C → Prop} {E : St C → Prop} {s : St C}

theorem wp_assert_true {f : Unit → Act (St C) α} {b : Bool} (h : b = true) :
    Act.wp (assert b >>= f) Q E s ↔ Act.wp (f ()) Q E s := by
  unfold Act.wp
  rw [show (assert b >>= f) s = f () s from Act.exec_bind (exec_assert h)]

@[simp] theorem wp_onWorld (x : Act World α) :
    Act.wp (onWorld x) Q E s ↔
      Act.wp x (fun a w => Q a { s with w }) (fun w => E { s with w }) s.w :=
  Act.wp_zoom _ _ _

@[simp] theorem wp_onPart (get : C → D) (put : D → C → C) (x : Act (St D) α) :
    Act.wp (onPart get put x) Q E s ↔
      Act.wp x (fun a t => Q a ⟨t.w, put t.c s.c⟩) (fun t => E ⟨t.w, put t.c s.c⟩) ⟨s.w, get s.c⟩ :=
  Act.wp_zoom _ _ _

@[simp] theorem wp_onSelf (f : C → C) {Q : Unit → St C → Prop} :
    Act.wp (onSelf f) Q E s ↔ Q () { s with c := f s.c } := Act.wp_update _

@[simp] theorem wp_assert (c : Bool) {Q : Unit → St C → Prop} :
    Act.wp (assert c) Q E s ↔ Q () { s with w.assertsHold := s.w.assertsHold && c } := Act.wp_update _

@[simp] theorem wp_deref (a : ℕ) {Q : Unit → St C → Prop} :
    Act.wp (deref a) Q E s ↔ pageState s.w.calls a = .committed ∧ Q () s := by
  simp [deref]

@[simp] theorem wp_assertThat (f : St C → Bool) {Q : Unit → St C → Prop} :
    Act.wp (assertThat f) Q E s ↔ Q () ⟨⟨s.w.calls, s.w.mem, s.w.assertsHold && f s⟩, s.c⟩ :=
  Act.wp_update _

@[simp] theorem wp_loadWord (a : ℕ) {Q : ℕ → St C → Prop} :
    Act.wp (loadWord a) Q E s ↔ pageState s.w.calls a = .committed ∧ Q (s.w.mem a) s := by
  simp [loadWord]

@[simp] theorem wp_storeWord (a v : ℕ) {Q : Unit → St C → Prop} :
    Act.wp (storeWord a v) Q E s ↔
      pageState s.w.calls a = .committed ∧ Q () ⟨⟨s.w.calls, store s.w.mem a v, s.w.assertsHold⟩, s.c⟩ := by
  simp [storeWord]

end Rules

end Act

namespace VirtualMemory

variable {os : Os} {n : ℕ} {Q : ℕ → World → Prop} {E : World → Prop} {w : World}

@[simp] theorem wp_allocate : Act.wp (allocate os n) Q E w ↔
    (∀ a, os.mmap w.calls n = some a → Q a (w.allocated a n)) ∧
      (os.mmap w.calls n = none → E (w.refused n)) := by
  unfold Act.wp allocate
  cases os.mmap w.calls n <;> simp

@[simp] theorem wp_deallocate {a : ℕ} {Q : Unit → World → Prop} :
    Act.wp (deallocate a n) Q E w ↔
      Q () { w.released a n with assertsHold := w.assertsHold && decide (n % 4096 = 0) } :=
  Act.wp_update _

@[simp] theorem wp_AllocateAddressSpace : Act.wp (AllocateAddressSpace os n) Q E w ↔
    (∀ a, os.mmap w.calls n = some a → Q a (w.reserved a n)) ∧
      (os.mmap w.calls n = none → E (w.refused n)) := by
  unfold Act.wp AllocateAddressSpace
  cases os.mmap w.calls n <;> simp

@[simp] theorem wp_CommitMemory {a : ℕ} : Act.wp (CommitMemory os a n) Q E w ↔
    (os.commits w.calls a n = true → Q a (w.committed a n)) ∧
      (os.commits w.calls a n = false → E (w.refused n)) := by
  unfold Act.wp CommitMemory
  cases os.commits w.calls a n <;> simp

end VirtualMemory

/-! ### An operating system -/

/-- The end of all that was ever mapped, at least `base`. -/
def top (base : ℕ) : List OsCall → ℕ
  | [] => base
  | .allocate a n :: cs => max (a + n) (top base cs)
  | .reserve a n :: cs => max (a + n) (top base cs)
  | .commit a n :: cs => max (a + n) (top base cs)
  | _ :: cs => top base cs

theorem unmapped_of_top_le {base x : ℕ} {cs : List OsCall} (h : top base cs ≤ x) :
    pageState cs x = .unmapped := by
  induction cs with
  | nil => rfl
  | cons c cs ih =>
    cases c with
    | release a n =>
      unfold pageState
      split_ifs
      · rfl
      · exact ih h
    | refused n => exact ih h
    | _ a n =>
      obtain ⟨h1, h2⟩ : a + n ≤ x ∧ top base cs ≤ x := max_le_iff.mp h
      unfold pageState
      rw [if_neg (fun hw : Within a n x => by have := hw.2; omega)]
      exact ih h2

/-- It maps upwards from `base`, never where something was mapped before, and
refuses only what would leave the address space. -/
def Os.linear (base : ℕ) : Os where
  mmap cs n :=
    if (top base cs / 4096 + 1) * 4096 + n < 2 ^ 64 then some ((top base cs / 4096 + 1) * 4096) else none
  commits _ _ _ := true
  fresh {cs n a} h := by
    split_ifs at h with hlt
    obtain rfl := Option.some.inj h
    refine ⟨⟨_, Nat.mul_comm _ _⟩, by omega, hlt, fun x hx => ?_⟩
    have hx : top base cs ≤ x := by have := hx.1; omega
    exact unmapped_of_top_le hx

/-- The bytes that are mapped. -/
def mappedBytes : List OsCall → ℕ
  | [] => 0
  | .allocate _ n :: cs => mappedBytes cs + n
  | .reserve _ n :: cs => mappedBytes cs + n
  | .release _ n :: cs => mappedBytes cs - n
  | _ :: cs => mappedBytes cs

/-- The same, for a process that may map `limit` bytes. -/
def Os.limited (os : Os) (limit : ℕ) : Os where
  mmap cs n := if mappedBytes cs + n ≤ limit then os.mmap cs n else none
  commits := os.commits
  fresh {cs n a} h := by
    split_ifs at h
    exact os.fresh h

end IibMalloc

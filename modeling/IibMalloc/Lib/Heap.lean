/-
# What an allocator is for

A heap is what the clients of an allocator see: the regions that they hold, and
what is in the cells of these regions. A region that is given out shares no
cell with one that is held, and a cell keeps what was written to it until it is
written again or its region is given back (`Heap.Step`); what is in the cells
that nobody holds is not said.

`Heap.Trace` is a run, its events latest first. `Trace.apart`: no two regions
held share a cell. `Step.reads`: a cell of a region that is not given back keeps
the value last written. `Heap.refines` carries an allocator over: where each of
its steps is a step of heaps, its runs are runs of heaps.
-/
import IibMalloc.Lib.Run

namespace Lib

/-- The regions held, and the data in the cells. -/
structure Heap (ρ κ V : Type) where
  live : ρ → Prop
  data : κ → V

namespace Heap

/-- What happens to a heap. -/
inductive Event (ρ κ V : Type) where
  | alloc (r : ρ)
  | free (rs : ρ → Prop)
  | write (a : κ) (v : V)
  | idle

variable {ρ κ V : Type}

/-- A cell of a region held. -/
def Has (cells : ρ → κ → Prop) (h : Heap ρ κ V) (a : κ) : Prop := ∃ r, h.live r ∧ cells r a

/-- From `h` to `h'` no cell held before and after changed. -/
def Keeps (cells : ρ → κ → Prop) (h h' : Heap ρ κ V) : Prop :=
  ∀ a, h.Has cells a → h'.Has cells a → h'.data a = h.data a

/-- One event. -/
inductive Step (cells : ρ → κ → Prop) (h : Heap ρ κ V) : Event ρ κ V → Heap ρ κ V → Prop where
  /-- a region is given out that shares no cell with those held -/
  | alloc (r : ρ) (h' : Heap ρ κ V) (hnew : ∀ q, h.live q → ∀ a, cells q a → ¬ cells r a)
    (hlive : ∀ q, h'.live q ↔ q = r ∨ h.live q) (hdata : Keeps cells h h') : Step cells h (.alloc r) h'
  /-- regions are given back -/
  | free (rs : ρ → Prop) (h' : Heap ρ κ V) (hlive : ∀ q, h'.live q ↔ h.live q ∧ ¬ rs q) (hdata : Keeps cells h h') :
    Step cells h (.free rs) h'
  /-- a cell held is written -/
  | write (a : κ) (v : V) (h' : Heap ρ κ V) (ha : h.Has cells a) (hlive : ∀ q, h'.live q ↔ h.live q)
    (hself : h'.data a = v) (hdata : ∀ b, b ≠ a → h.Has cells b → h'.data b = h.data b) :
    Step cells h (.write a v) h'
  /-- nothing that the clients see -/
  | idle (h' : Heap ρ κ V) (hlive : ∀ q, h'.live q ↔ h.live q) (hdata : Keeps cells h h') : Step cells h .idle h'

/-- A run, its events latest first. -/
inductive Trace (cells : ρ → κ → Prop) (h₀ : Heap ρ κ V) : List (Event ρ κ V) → Heap ρ κ V → Prop where
  | start : Trace cells h₀ [] h₀
  | next {es : List (Event ρ κ V)} {h h' : Heap ρ κ V} (e : Event ρ κ V) (ht : Trace cells h₀ es h)
    (hs : Step cells h e h') : Trace cells h₀ (e :: es) h'

/-- No two regions held share a cell. -/
def Apart (cells : ρ → κ → Prop) (h : Heap ρ κ V) : Prop :=
  ∀ q r, h.live q → h.live r → q ≠ r → ∀ a, cells q a → ¬ cells r a

variable {cells : ρ → κ → Prop} {h h' h₀ : Heap ρ κ V} {e : Event ρ κ V} {es : List (Event ρ κ V)} {r : ρ}
  {a : κ} {v : V}

theorem Apart.of_sub (hA : Apart cells h) (hsub : ∀ q, h'.live q → h.live q) : Apart cells h' :=
  fun q r hq hr => hA q r (hsub q hq) (hsub r hr)

theorem Step.apart (hs : Step cells h e h') (hA : Apart cells h) : Apart cells h' := by
  cases hs with
  | alloc r _ hnew hlive hdata =>
    intro q q' hq hq' hne a ha ha'
    rcases (hlive q).mp hq with rfl | hq
    · rcases (hlive q').mp hq' with rfl | hq'
      · exact hne rfl
      · exact hnew q' hq' a ha' ha
    · rcases (hlive q').mp hq' with rfl | hq'
      · exact hnew q hq a ha ha'
      · exact hA q q' hq hq' hne a ha ha'
  | free rs _ hlive hdata => exact hA.of_sub fun q hq => ((hlive q).mp hq).1
  | write a v _ ha hlive hself hdata => exact hA.of_sub fun q hq => (hlive q).mp hq
  | idle _ hlive hdata => exact hA.of_sub fun q hq => (hlive q).mp hq

/-- The run keeps the regions held apart. -/
theorem Trace.apart (ht : Trace cells h₀ es h) (hA : Apart cells h₀) : Apart cells h := by
  induction ht with
  | start => exact hA
  | next e _ hs ih => exact hs.apart ih

/-- The event gives the region `r` back, or writes its cell `a`. -/
def Event.Touches (r : ρ) (a : κ) : Event ρ κ V → Prop
  | .free rs => rs r
  | .write b _ => b = a
  | _ => False

theorem Step.reads (hs : Step cells h e h') (hr : h.live r) (ha : cells r a) (he : ¬ e.Touches r a) :
    h'.live r ∧ h'.data a = h.data a := by
  have hhas : h.Has cells a := ⟨r, hr, ha⟩
  cases hs with
  | alloc r' _ hnew hlive hdata =>
    have hr' : h'.live r := (hlive r).mpr (Or.inr hr)
    exact ⟨hr', hdata a hhas ⟨r, hr', ha⟩⟩
  | free rs _ hlive hdata =>
    have hr' : h'.live r := (hlive r).mpr ⟨hr, he⟩
    exact ⟨hr', hdata a hhas ⟨r, hr', ha⟩⟩
  | write b v _ hb hlive hself hdata => exact ⟨(hlive r).mpr hr, hdata a (fun hab => he hab.symm) hhas⟩
  | idle _ hlive hdata =>
    have hr' : h'.live r := (hlive r).mpr hr
    exact ⟨hr', hdata a hhas ⟨r, hr', ha⟩⟩

/-! ### Allocators -/

section Refinement

variable {σ ι : Type} {step : σ → ι → Option σ} {ok : σ → ι → Prop} {label : σ → ι → σ → Event ρ κ V}
  {R : σ → Heap ρ κ V → Prop} {s₀ s : σ}

/-- Where each step is a step of heaps, with the event that `label` says, a run is
a run of heaps with the same events. -/
theorem refines (hstep : ∀ s i t h, R s h → ok s i → step s i = some t → ∃ h', Step cells h (label s i t) h' ∧ R t h')
    (h0 : R s₀ h₀) (hr : Traced step ok label s₀ es s) : ∃ h, Trace cells h₀ es h ∧ R s h := by
  induction hr with
  | start => exact ⟨h₀, .start, h0⟩
  | next i _ hi ht ih =>
    obtain ⟨h, hh, hR⟩ := ih
    obtain ⟨h', hs, hR'⟩ := hstep _ i _ h hR hi ht
    exact ⟨h', .next _ hh hs, hR'⟩

end Refinement

end Heap

end Lib

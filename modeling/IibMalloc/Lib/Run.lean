/-
# Runs of a machine

A machine takes a state and an input to the next state, if it has one. `Reach
step ok s₀ s`: some sequence of inputs takes `s₀` to `s`, each step meeting
`ok` in the state it starts from. `Reach.invariant` is the induction over
runs; `Reach.of_run` turns the evaluation of a list of inputs into a run.

`Steps` is a run with the list of its inputs, so that a prefix of the list tells
an earlier moment of the run: `Steps.peak` bounds what grows at a high-water mark
only.

`Traced` is a run with a list of what is seen of it.

`Along step P s is`: the run on the inputs `is` goes through, and each of its
steps meets `P`. `Along.iff` is the induction for two such properties.
-/
import Mathlib.Logic.Basic
import Mathlib.Tactic.SplitIfs
import Mathlib.Data.Nat.Notation
import Mathlib.Data.List.Infix

namespace Lib

variable {σ ι : Type} {step : σ → ι → Option σ} {ok ok' : σ → ι → Prop} {s₀ s t : σ}

/-- The states a run from `s₀` reaches whose steps all meet `ok`. -/
inductive Reach (step : σ → ι → Option σ) (ok : σ → ι → Prop) (s₀ : σ) : σ → Prop where
  | start : Reach step ok s₀ s₀
  | next {s t : σ} (i : ι) (h : Reach step ok s₀ s) (hi : ok s i) (ht : step s i = some t) :
      Reach step ok s₀ t

namespace Reach

/-- What holds at the start and what every step keeps holds in every state
reached. -/
theorem invariant {P : σ → Prop} (h : Reach step ok s₀ s) (h0 : P s₀)
    (hs : ∀ {s t : σ} (i : ι), P s → ok s i → step s i = some t → P t) : P s := by
  induction h with
  | start => exact h0
  | next i _ hi ht ih => exact hs i ih hi ht

theorem mono (h : Reach step ok s₀ s) (hok : ∀ s i, ok s i → ok' s i) : Reach step ok' s₀ s := by
  induction h with
  | start => exact .start
  | next i _ hi ht ih => exact .next i ih (hok _ _ hi) ht

/-- A step from `s`, then a run. -/
theorem head (i : ι) (hi : ok s i) (ht : step s i = some t) {u : σ} (h : Reach step ok t u) :
    Reach step ok s u := by
  induction h with
  | start => exact .next i .start hi ht
  | next j _ hj hu ih => exact .next j ih hj hu

end Reach

/-- The inputs, each meeting `ok` in the state it comes in, take `s₀` to the state. -/
inductive Steps (step : σ → ι → Option σ) (ok : σ → ι → Prop) (s₀ : σ) : List ι → σ → Prop where
  | start : Steps step ok s₀ [] s₀
  | next {is : List ι} {s t : σ} (i : ι) (h : Steps step ok s₀ is s) (hi : ok s i) (ht : step s i = some t) :
      Steps step ok s₀ (is ++ [i]) t

namespace Steps

variable {is : List ι}

theorem reach (h : Steps step ok s₀ is s) : Reach step ok s₀ s := by
  induction h with
  | start => exact .start
  | next i _ hi ht ih => exact .next i ih hi ht

theorem mono (h : Steps step ok s₀ is s) (hok : ∀ s i, ok s i → ok' s i) : Steps step ok' s₀ is s := by
  induction h with
  | start => exact .start
  | next i _ hi ht ih => exact .next i ih (hok _ _ hi) ht

/-- Where each step of the run leaves `f` at most as it was, or at most `k` above
what `g` is before the step, `f` is at the end at most `k` above what `g` was after
the first inputs. -/
theorem peak {f g : σ → ℕ} {k : ℕ} (h : Steps step ok s₀ is s) (h0 : f s₀ ≤ g s₀ + k)
    (hs : ∀ {s t : σ} (i : ι), Reach step ok s₀ s → ok s i → step s i = some t → f t ≤ f s ∨ f t ≤ g s + k) :
    ∃ first u, first <+: is ∧ Steps step ok s₀ first u ∧ f s ≤ g u + k := by
  induction h with
  | start => exact ⟨[], s₀, List.prefix_refl _, .start, h0⟩
  | next i h hi ht ih =>
    obtain ⟨first, u, hfirst, hu, hle⟩ := ih
    rcases hs i h.reach hi ht with hf | hf
    · exact ⟨first, u, hfirst.trans (List.prefix_append _ _), hu, Nat.le_trans hf hle⟩
    · exact ⟨_, _, List.prefix_append _ _, h, hf⟩

end Steps

/-- A run with what is seen of its steps, latest first. -/
inductive Traced {ε : Type} (step : σ → ι → Option σ) (ok : σ → ι → Prop) (label : σ → ι → σ → ε) (s₀ : σ) :
    List ε → σ → Prop where
  | start : Traced step ok label s₀ [] s₀
  | next {es : List ε} {s t : σ} (i : ι) (h : Traced step ok label s₀ es s) (hi : ok s i) (ht : step s i = some t) :
      Traced step ok label s₀ (label s i t :: es) t

theorem Traced.mono {ε : Type} {label : σ → ι → σ → ε} {es : List ε} (h : Traced step ok label s₀ es s)
    (hok : ∀ s i, ok s i → ok' s i) : Traced step ok' label s₀ es s := by
  induction h with
  | start => exact .start
  | next i _ hi ht ih => exact .next i ih (hok _ _ hi) ht

/-- The state after the inputs, if every step has one and meets `ok`. -/
def run (step : σ → ι → Option σ) (ok : σ → ι → Bool) (s : σ) : List ι → Option σ
  | [] => some s
  | i :: is => if ok s i then match step s i with
      | some t => run step ok t is
      | none => none
    else none

theorem Reach.of_run {ok : σ → ι → Bool} : ∀ {is : List ι} {s t : σ}, run step ok s is = some t →
    Reach step (fun s i => ok s i = true) s t
  | [], s, t, h => by
    obtain rfl : s = t := Option.some.inj h
    exact .start
  | i :: is, s, t, h => by
    unfold run at h
    split_ifs at h with hi
    split at h
    · exact .head i hi ‹_› (Reach.of_run h)
    · cases h

theorem Steps.of_run {ok : σ → ι → Bool} : ∀ {is is' : List ι} {s t : σ},
    Steps step (fun s i => ok s i = true) s₀ is' s → run step ok s is = some t →
    Steps step (fun s i => ok s i = true) s₀ (is' ++ is) t
  | [], is', s, t, hs, h => by
    obtain rfl : s = t := Option.some.inj h
    rwa [List.append_nil]
  | i :: is, is', s, t, hs, h => by
    unfold run at h
    split_ifs at h with hi
    split at h
    · have hrest := Steps.of_run (.next i hs hi ‹_›) h
      rwa [List.append_assoc] at hrest
    · cases h

theorem Traced.of_run {ε : Type} {label : σ → ι → σ → ε} {ok : σ → ι → Bool} : ∀ {is : List ι} {s₀ s t : σ}
    {es : List ε}, Traced step (fun s i => ok s i = true) label s₀ es s → run step ok s is = some t →
    ∃ es', es'.length = is.length ∧ Traced step (fun s i => ok s i = true) label s₀ (es' ++ es) t
  | [], s₀, s, t, es, ht, h => by
    obtain rfl : s = t := Option.some.inj h
    exact ⟨[], rfl, ht⟩
  | i :: is, s₀, s, t, es, ht, h => by
    unfold run at h
    split_ifs at h with hi
    split at h
    · obtain ⟨es', hlen, ht'⟩ := Traced.of_run (.next i ht hi ‹_›) h
      exact ⟨es' ++ [_], by simp [hlen], by simpa using ht'⟩
    · cases h

/-! ### What holds along a run -/

/-- Every step of the run on the inputs is possible and meets `P`. -/
def Along (step : σ → ι → Option σ) (P : σ → ι → σ → Prop) : σ → List ι → Prop
  | _, [] => True
  | s, i :: is => ∃ t, step s i = some t ∧ P s i t ∧ Along step P t is

/-- Each input meets `ok` in the state it comes in. -/
def Admits (step : σ → ι → Option σ) (ok : σ → ι → Prop) : σ → List ι → Prop
  | _, [] => True
  | s, i :: is => ok s i ∧ ∀ t, step s i = some t → Admits step ok t is

/-- What `run` evaluates is a list of inputs that meet `ok`. -/
theorem Admits.of_run {ok : σ → ι → Bool} : ∀ {is : List ι} {s : σ}, (run step ok s is).isSome = true →
    Admits step (fun s i => ok s i = true) s is
  | [], _, _ => trivial
  | i :: is, s, h => by
    unfold run at h
    split_ifs at h with hi
    · refine ⟨hi, fun t ht => Admits.of_run ?_⟩
      rwa [ht] at h
    · cases h

theorem Admits.mono (hok : ∀ s i, ok s i → ok' s i) : ∀ {is : List ι} {s : σ}, Admits step ok s is →
    Admits step ok' s is
  | [], _, _ => trivial
  | i :: _, s, h => ⟨hok s i h.1, fun t ht => (h.2 t ht).mono hok⟩

/-- What every step from a state of an invariant does, and keeps it, every step
of a run does. -/
theorem Along.of_admits {P : σ → ι → σ → Prop} {I : σ → Prop}
    (hstep : ∀ s i, I s → ok s i → ∃ t, step s i = some t ∧ P s i t ∧ I t) :
    ∀ {is : List ι} {s : σ}, I s → Admits step ok s is → Along step P s is
  | [], _, _, _ => trivial
  | i :: is, s, hI, hok => by
    obtain ⟨t, ht, hP, hI'⟩ := hstep s i hI hok.1
    exact ⟨t, ht, hP, Along.of_admits hstep hI' (hok.2 t ht)⟩

/-- Two properties of a step that come to the same as long as an invariant
holds, where the second keeps it, come to the same along a run. -/
theorem Along.iff {P C : σ → ι → σ → Prop} {I : σ → Prop}
    (hstep : ∀ s i, I s → ok s i → ∃ t, step s i = some t ∧ (P s i t ↔ C s i t) ∧ (C s i t → I t)) :
    ∀ {is : List ι} {s : σ}, I s → Admits step ok s is → (Along step P s is ↔ Along step C s is)
  | [], _, _, _ => Iff.rfl
  | i :: is, s, hI, hok => by
    obtain ⟨t, ht, hPC, hkeep⟩ := hstep s i hI hok.1
    have hrest : C s i t → (Along step P t is ↔ Along step C t is) := fun hC =>
      Along.iff hstep (hkeep hC) (hok.2 t ht)
    constructor
    · rintro ⟨u, hu, hP, h⟩
      obtain rfl : t = u := Option.some.inj (ht.symm.trans hu)
      exact ⟨t, ht, hPC.mp hP, (hrest (hPC.mp hP)).mp h⟩
    · rintro ⟨u, hu, hC, h⟩
      obtain rfl : t = u := Option.some.inj (ht.symm.trans hu)
      exact ⟨t, ht, hPC.mpr hC, (hrest hC).mpr h⟩

end Lib

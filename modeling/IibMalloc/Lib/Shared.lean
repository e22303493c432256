/-
# Machines that share a world

Machines of one kind, each with a private state, act in turn on one world:
`Shared.step` takes a step of one of them, and a run is any interleaving. What
a machine needs of the world is confined to its footprint, a set of addresses,
which its steps move.

`Accounted` says what became of a world since some time: what is taken was taken
before, or is held now. `Local` says what one machine does, with no other machine
in it: its invariant holds as long as its footprint is left alone, a step leaves
alone what is taken and not in its footprint, and takes only what was free; what
it gives up it frees, where `kept` says so. `Local.together` is the step of all of them and
`Local.reach` the run: each keeps its invariant, and no two footprints meet.
`Local.account` is a run whose steps are all `kept`: what is taken was taken
before it, or is in a footprint.
-/
import IibMalloc.Lib.Run
import Mathlib.Logic.Function.Basic

namespace Lib

/-- The world and the private states. -/
structure Shared (W L ι : Type) where
  world : W
  part : ι → L

namespace Shared

variable {W L ι α κ : Type} [DecidableEq ι]

/-- The machine `i` as it sees itself. -/
def view (s : Shared W L ι) (i : ι) : W × L := (s.world, s.part i)

/-- The machine `i.1` takes the step `i.2`. -/
def step (step : W × L → α → Option (W × L)) (s : Shared W L ι) (i : ι × α) : Option (Shared W L ι) :=
  (step (s.view i.1) i.2).map fun t => ⟨t.1, Function.update s.part i.1 t.2⟩

/-- A condition on the step of the machine that takes it. -/
def ok (ok : W × L → α → Prop) (s : Shared W L ι) (i : ι × α) : Prop := ok (s.view i.1) i.2

variable {step' : W × L → α → Option (W × L)} {s t : Shared W L ι} {i j : ι} {a : α}

/-- The machine that took the step, and the others. -/
theorem step_cases (h : s.step step' (i, a) = some t) : step' (s.view i) a = some (t.view i) ∧
    ∀ j, j ≠ i → t.part j = s.part j := by
  obtain ⟨u, hu, rfl⟩ := Option.map_eq_some_iff.mp h
  refine ⟨?_, fun j hj => Function.update_of_ne hj _ _⟩
  rw [hu]
  simp only [view, Function.update_self]

end Shared

variable {W L ι α κ : Type}

/-- What is taken in a world, and what it is to be left alone there. -/
structure Frame (taken : W → κ → Prop) (same : (κ → Prop) → W → W → Prop) : Prop where
  refl : ∀ {F : κ → Prop} {w : W}, same F w w
  trans : ∀ {F : κ → Prop} {w w' w'' : W}, same F w w' → same F w' w'' → same F w w''
  mono : ∀ {F F' : κ → Prop} {w w' : W}, same F w w' → (∀ x, F' x → F x) → same F' w w'
  takes : ∀ {F : κ → Prop} {w w' : W} {x : κ}, same F w w' → F x → taken w x → taken w' x

/-- Since `w₀` all that was taken is `U`, and nothing that was taken before. -/
structure Accounted (taken : W → κ → Prop) (same : (κ → Prop) → W → W → Prop) (w₀ w : W) (U : κ → Prop) : Prop where
  cover : ∀ x, taken w x → taken w₀ x ∨ U x
  foreign : ∀ x, U x → ¬ taken w₀ x
  same : same (taken w₀) w₀ w

namespace Accounted

variable {taken : W → κ → Prop} {same : (κ → Prop) → W → W → Prop} {w₀ w w' : W} {U U' : κ → Prop}

/-- At the start, when nothing is held. -/
theorem start (hF : Frame taken same) (hU : ∀ x, ¬ U x) : Accounted taken same w₀ w₀ U :=
  ⟨fun _ hx => Or.inl hx, fun x hx => (hU x hx).elim, hF.refl⟩

/-- A step that leaves alone what is taken and not in `U`, takes only what was
free and frees what it gives up. -/
theorem step (hF : Frame taken same) (hA : Accounted taken same w₀ w U) (hframe : same (fun x => taken w x ∧ ¬ U x) w w')
    (hfresh : ∀ x, U' x → U x ∨ ¬ taken w x) (hcover : ∀ x, taken w' x → U' x ∨ taken w x ∧ ¬ U x) :
    Accounted taken same w₀ w' U' := by
  refine ⟨fun x hx => ?_, fun x hx hx₀ => ?_, hF.trans hA.same (hF.mono hframe fun x hx => ?_)⟩
  · rcases hcover x hx with hU | ⟨hxw, hxU⟩
    · exact Or.inr hU
    · exact (hA.cover x hxw).imp_right fun h => absurd h hxU
  · exact (hfresh x hx).elim (fun h => hA.foreign x h hx₀) fun h => h (hF.takes hA.same hx₀ hx₀)
  · exact ⟨hF.takes hA.same hx hx, fun h => hA.foreign x h hx⟩

end Accounted

/-- One machine in its world. `inv w l F`: in the world `w` it is in order, with
the private state `l` and the footprint `F`. -/
structure Local (step : W × L → α → Option (W × L)) (ok kept : W × L → α → Prop) (taken : W → κ → Prop)
    (same : (κ → Prop) → W → W → Prop) (inv : W → L → (κ → Prop) → Prop) : Prop extends Frame taken same where
  held : ∀ {F : κ → Prop} {w : W} {l : L} {x : κ}, inv w l F → F x → taken w x
  stable : ∀ {F : κ → Prop} {w w' : W} {l : L}, inv w l F → same F w w' → inv w' l F
  step : ∀ {F : κ → Prop} {w w' : W} {l l' : L} {a : α}, inv w l F → ok (w, l) a →
    step (w, l) a = some (w', l') → ∃ F' : κ → Prop, inv w' l' F' ∧ same (fun x => taken w x ∧ ¬ F x) w w' ∧
      (∀ x, F' x → F x ∨ ¬ taken w x) ∧ (kept (w, l) a → ∀ x, taken w' x → F' x ∨ taken w x ∧ ¬ F x)

/-- Every machine is in order, and no two footprints meet. -/
structure Together (inv : W → L → (κ → Prop) → Prop) (s : Shared W L ι) (F : ι → κ → Prop) : Prop where
  each : ∀ i, inv s.world (s.part i) (F i)
  apart : ∀ i j, i ≠ j → ∀ x, F i x → ¬ F j x

namespace Local

variable [DecidableEq ι] {step : W × L → α → Option (W × L)} {ok kept : W × L → α → Prop} {taken : W → κ → Prop}
  {same : (κ → Prop) → W → W → Prop} {inv : W → L → (κ → Prop) → Prop} {s t s₀ : Shared W L ι}
  {F : ι → κ → Prop} {i : ι} {a : α}

/-- A step of one machine moves its footprint, and leaves alone those of the
others. -/
theorem move (hM : Local step ok kept taken same inv) (w₀ : W) (h : Together inv s F) (hok : ok (s.view i) a)
    (hs : s.step step (i, a) = some t) : ∃ G, Together inv t (Function.update F i G) ∧
      (∀ j, j ≠ i → same (F j) s.world t.world) ∧
      (kept (s.view i) a → Accounted taken same w₀ s.world (fun x => ∃ j, F j x) →
        Accounted taken same w₀ t.world fun x => ∃ j, Function.update F i G j x) := by
  obtain ⟨hi, hothers⟩ := Shared.step_cases hs
  obtain ⟨G, hG, hframe, hfresh, hcover⟩ := hM.step (h.each i) hok hi
  have hsame : ∀ j, j ≠ i → same (F j) s.world t.world := fun j hj =>
    hM.mono hframe fun x hx => ⟨hM.held (h.each j) hx, h.apart j i hj x hx⟩
  -- what is new was free, so no other machine has it
  have hnew : ∀ j, j ≠ i → ∀ x, G x → ¬ F j x := fun j hj x hx hxj =>
    (hfresh x hx).elim (fun hxi => h.apart i j hj.symm x hxi hxj) fun hn => hn (hM.held (h.each j) hxj)
  refine ⟨G, ⟨fun j => ?_, fun j k hjk x hx hxk => ?_⟩, hsame, fun hk hA => hA.step hM.toFrame
    (hM.mono hframe fun x hx => ⟨hx.1, fun hxi => hx.2 ⟨i, hxi⟩⟩) (fun x hx => ?_) fun x hx => ?_⟩
  · rcases eq_or_ne j i with rfl | hj
    · rw [Function.update_self]
      exact hG
    · rw [Function.update_of_ne hj, hothers j hj]
      exact hM.stable (h.each j) (hsame j hj)
  · rcases eq_or_ne j i with rfl | hj
    · rw [Function.update_self] at hx
      rw [Function.update_of_ne hjk.symm] at hxk
      exact hnew k hjk.symm x hx hxk
    · rw [Function.update_of_ne hj] at hx
      rcases eq_or_ne k i with rfl | hk
      · rw [Function.update_self] at hxk
        exact hnew j hj x hxk hx
      · rw [Function.update_of_ne hk] at hxk
        exact h.apart j k hjk x hx hxk
  · obtain ⟨j, hj⟩ := hx
    rcases eq_or_ne j i with rfl | hne
    · rw [Function.update_self] at hj
      exact (hfresh x hj).imp_left fun hxi => ⟨j, hxi⟩
    · rw [Function.update_of_ne hne] at hj
      exact Or.inl ⟨j, hj⟩
  · rcases hcover hk x hx with hxG | ⟨hxs, hxi⟩
    · exact Or.inl ⟨i, by rwa [Function.update_self]⟩
    · by_cases hU : ∃ j, F j x
      · obtain ⟨j, hj⟩ := hU
        have hne : j ≠ i := by
          rintro rfl
          exact hxi hj
        exact Or.inl ⟨j, by rwa [Function.update_of_ne hne]⟩
      · exact Or.inr ⟨hxs, hU⟩

/-- A step of one machine: it stays in order and the footprints of the others are
left alone. -/
theorem together (hM : Local step ok kept taken same inv) (h : Together inv s F) (hok : ok (s.view i) a)
    (hs : s.step step (i, a) = some t) : ∃ F', Together inv t F' ∧ ∀ j, j ≠ i → same (F j) s.world t.world := by
  obtain ⟨G, hG, hsame, -⟩ := hM.move s.world h hok hs
  exact ⟨_, hG, hsame⟩

/-- The run of all of them, in any order of steps. -/
theorem reach (hM : Local step ok kept taken same inv) (h₀ : ∃ F, Together inv s₀ F)
    (hr : Reach (Shared.step step) (Shared.ok ok) s₀ s) : ∃ F, Together inv s F := by
  refine hr.invariant (P := fun s => ∃ F, Together inv s F) h₀ ?_
  rintro s t ⟨i, a⟩ ⟨F, h⟩ hok hs
  obtain ⟨F', h', -⟩ := hM.together h hok hs
  exact ⟨F', h'⟩

/-- The run of machines that start with nothing, where every step is `kept`. -/
theorem account (hM : Local step ok kept taken same inv) (h₀ : Together inv s₀ fun _ _ => False)
    (hr : Reach (Shared.step step) (fun s o => Shared.ok ok s o ∧ Shared.ok kept s o) s₀ s) :
    ∃ F, Together inv s F ∧ Accounted taken same s₀.world s.world fun x => ∃ i, F i x := by
  refine hr.invariant (P := fun s => ∃ F, Together inv s F ∧ Accounted taken same s₀.world s.world fun x => ∃ i, F i x)
    ⟨_, h₀, .start hM.toFrame fun x hx => ?_⟩ ?_
  · obtain ⟨i, hi⟩ := hx
    exact hi
  rintro s t ⟨i, a⟩ ⟨F, h, hA⟩ hok hs
  obtain ⟨G, hG, -, hacc⟩ := hM.move _ h hok.1 hs
  exact ⟨_, hG, hacc hok.2 hA⟩

end Local

end Lib

/-
# Programs over a state that may throw or go wrong

`Act σ α` is a sequential program over a state `σ`: it returns a value, it
throws (and the state it had changed by then stays changed, as a C++ throw
leaves it), or it is stuck, which is what a program with undefined behaviour
or without an end has. `Act.wp x Q E s` says that from `s` the program `x` is
not stuck, that `Q` holds if it returns and `E` if it throws; the rules
`wp_pure`, `wp_bind`, … compute it along a program, and `wp_mono` is its rule
of consequence. `Act.wlp` is the same for a program that may also be stuck,
and `Act.Keeps` its case of an invariant. `Act.Below` compares loops with more
and fewer rounds, and `Act.Twins` two programs that do the same until something
has happened; `Act.Shows` says that what a program does to a part of its state is
another program.

`Act.zoom` runs a program on a part of the state.
-/
import Mathlib.Logic.Basic
import Mathlib.Data.Nat.Notation
import Mathlib.Tactic.SplitIfs

namespace Lib

/-- How a program over `σ` ends. -/
inductive Outcome (σ α : Type) where
  | ret (a : α) (s : σ)
  | throw (s : σ)
  | stuck

/-- What was returned, with the state. -/
def Outcome.returned {σ α : Type} : Outcome σ α → Option (α × σ)
  | .ret a s => some (a, s)
  | .throw _ => none
  | .stuck => none

/-- The same end, of which a part `f` of the state is seen. -/
def Outcome.map {σ τ α : Type} (f : σ → τ) : Outcome σ α → Outcome τ α
  | .ret a s => .ret a (f s)
  | .throw s => .throw (f s)
  | .stuck => .stuck

/-- A program over the state `σ`. -/
def Act (σ α : Type) : Type := σ → Outcome σ α

namespace Act

variable {σ τ α β : Type}

/-- The outcome of `x` from `s`. -/
def exec (x : Act σ α) (s : σ) : Outcome σ α := x s

protected def pure (a : α) : Act σ α := fun s => .ret a s

protected def bind (x : Act σ α) (f : α → Act σ β) : Act σ β := fun s =>
  match x s with
  | .ret a t => f a t
  | .throw t => .throw t
  | .stuck => .stuck

instance : Monad (Act σ) where
  pure := Act.pure
  bind := Act.bind

/-- A value computed from the state. -/
def read (f : σ → α) : Act σ α := fun s => .ret (f s) s

/-- A change of the state. -/
def update (f : σ → σ) : Act σ Unit := fun s => .ret () (f s)

/-- A throw. -/
def throw : Act σ α := fun s => .throw s

/-- A step that cannot be taken. -/
def stuck : Act σ α := fun _ => .stuck

/-- Nothing, where `c` holds; otherwise the program is stuck. -/
def need (c : σ → Bool) : Act σ Unit := fun s => if c s then .ret () s else .stuck

/-- `x`, where `c` holds, and nothing otherwise. -/
def when (c : Prop) [Decidable c] (x : Act σ Unit) : Act σ Unit := if c then x else pure ()

/-- A program on the part `get s` of the state. -/
def zoom (get : σ → τ) (put : τ → σ → σ) (x : Act τ α) : Act σ α := fun s =>
  match x (get s) with
  | .ret a t => .ret a (put t s)
  | .throw t => .throw (put t s)
  | .stuck => .stuck

/-! ### The same program -/

theorem bind_assoc {γ : Type} (x : Act σ α) (f : α → Act σ β) (g : β → Act σ γ) :
    (x >>= f) >>= g = x >>= fun a => f a >>= g := by
  funext s
  show Act.bind (Act.bind x f) g s = Act.bind x (fun a => Act.bind (f a) g) s
  unfold Act.bind
  cases x s <;> rfl

theorem pure_bind (a : α) (f : α → Act σ β) : (pure a : Act σ α) >>= f = f a := rfl

theorem bind_unit (x : Act σ Unit) : (x >>= fun _ => pure ()) = x := by
  funext s
  show Act.bind x (fun _ => Act.pure ()) s = x s
  unfold Act.bind
  cases x s <;> rfl

/-- A value that is not used. -/
theorem read_bind (g : σ → α) (x : Act σ β) : (read g >>= fun _ => x) = x := rfl

/-! ### How a program ends -/

/-- From `s` the program is not stuck, ends in `Q` if it returns and in `E`
if it throws. -/
def wp (x : Act σ α) (Q : α → σ → Prop) (E : σ → Prop) (s : σ) : Prop :=
  match x s with
  | .ret a t => Q a t
  | .throw t => E t
  | .stuck => False

section Rules

variable {Q : α → σ → Prop} {E : σ → Prop} {s : σ}

@[simp] theorem wp_pure (a : α) : wp (pure a : Act σ α) Q E s ↔ Q a s := Iff.rfl

@[simp] theorem wp_bind (x : Act σ α) (f : α → Act σ β) {Q : β → σ → Prop} :
    wp (x >>= f) Q E s ↔ wp x (fun a t => wp (f a) Q E t) E s := by
  show wp (Act.bind x f) Q E s ↔ _
  unfold wp Act.bind
  cases x s <;> rfl

@[simp] theorem wp_read (f : σ → α) : wp (read f) Q E s ↔ Q (f s) s := Iff.rfl

@[simp] theorem wp_update (f : σ → σ) {Q : Unit → σ → Prop} :
    wp (update f) Q E s ↔ Q () (f s) := Iff.rfl

@[simp] theorem wp_throw : wp (throw : Act σ α) Q E s ↔ E s := Iff.rfl

@[simp] theorem wp_stuck : wp (stuck : Act σ α) Q E s ↔ False := Iff.rfl

@[simp] theorem wp_need (c : σ → Bool) {Q : Unit → σ → Prop} :
    wp (need c) Q E s ↔ c s = true ∧ Q () s := by
  unfold wp need
  by_cases h : c s <;> simp [h]

@[simp] theorem wp_zoom (get : σ → τ) (put : τ → σ → σ) (x : Act τ α) :
    wp (zoom get put x) Q E s ↔
      wp x (fun a t => Q a (put t s)) (fun t => E (put t s)) (get s) := by
  unfold wp zoom
  cases x (get s) <;> rfl

theorem wp_ite (c : Prop) [Decidable c] (x y : Act σ α) :
    wp (if c then x else y) Q E s ↔ (c → wp x Q E s) ∧ (¬ c → wp y Q E s) := by
  by_cases h : c <;> simp [h]

@[simp] theorem wp_when (c : Prop) [Decidable c] (x : Act σ Unit) {Q : Unit → σ → Prop} :
    wp (when c x) Q E s ↔ (c → wp x Q E s) ∧ (¬ c → Q () s) := wp_ite c x (pure ())

/-- Consequence: a weaker postcondition. -/
theorem wp_mono {x : Act σ α} {Q' : α → σ → Prop} {E' : σ → Prop} (h : wp x Q E s)
    (hQ : ∀ a t, Q a t → Q' a t) (hE : ∀ t, E t → E' t) : wp x Q' E' s := by
  unfold wp at *
  cases hx : x s <;> rw [hx] at h
  · exact hQ _ _ h
  · exact hE _ h
  · exact h

theorem exec_ret {x : Act σ α} (h : wp x Q E s) {a : α} {t : σ} (hx : exec x s = .ret a t) :
    Q a t := by
  unfold wp at h
  rw [show x s = .ret a t from hx] at h
  exact h

theorem exec_throw {x : Act σ α} (h : wp x Q E s) {t : σ} (hx : exec x s = .throw t) : E t := by
  unfold wp at h
  rw [show x s = .throw t from hx] at h
  exact h

theorem exec_bind {x : Act σ α} {f : α → Act σ β} {a : α} {t : σ} (hx : exec x s = .ret a t) :
    exec (x >>= f) s = exec (f a) t := by
  show Act.bind x f s = f a t
  unfold Act.bind
  rw [show x s = .ret a t from hx]

/-- What a specification says holds of the outcome. -/
theorem wp_exec {x : Act σ α} (h : wp x Q E s) :
    wp x (fun a t => Q a t ∧ exec x s = .ret a t) (fun t => E t ∧ exec x s = .throw t) s := by
  unfold wp at *
  cases hx : x s with
  | ret a t => rw [hx] at h; exact ⟨h, hx⟩
  | throw t => rw [hx] at h; exact ⟨h, hx⟩
  | stuck => rw [hx] at h; exact h

theorem wp_congr {x y : Act σ α} (hxy : exec x s = exec y s) (h : wp y Q E s) : wp x Q E s := by
  unfold wp at *
  rw [show x s = y s from hxy]
  exact h

theorem wp_of_exec {x : Act σ α} {a : α} {t : σ} (hx : exec x s = .ret a t) (h : Q a t) : wp x Q E s := by
  unfold wp
  rw [show x s = .ret a t from hx]
  exact h

theorem exec_bind_stuck {x : Act σ α} {f : α → Act σ β} (hx : exec x s = .stuck) : exec (x >>= f) s = .stuck := by
  show Act.bind x f s = .stuck
  unfold Act.bind
  rw [show x s = .stuck from hx]

theorem exec_zoom_stuck {get : σ → τ} {put : τ → σ → σ} {x : Act τ α} (hx : exec x (get s) = .stuck) :
    exec (zoom get put x) s = .stuck := by
  unfold exec zoom
  rw [show x (get s) = .stuck from hx]

theorem exec_need {c : σ → Bool} (h : c s = true) : exec (need c) s = .ret () s := by
  unfold exec need
  rw [h]
  rfl

theorem exec_need_not {c : σ → Bool} (h : c s = false) : exec (need c) s = .stuck := by
  unfold exec need
  rw [h]
  rfl

/-- A sequence that returns returned in both of its parts. -/
theorem exec_bind_ret {x : Act σ α} {f : α → Act σ β} {b : β} {u : σ} (h : exec (x >>= f) s = .ret b u) :
    ∃ a t, exec x s = .ret a t ∧ exec (f a) t = .ret b u := by
  change Act.bind x f s = .ret b u at h
  unfold Act.bind at h
  cases hx : x s with
  | ret a t =>
    rw [hx] at h
    exact ⟨a, t, hx, h⟩
  | throw t => rw [hx] at h; cases h
  | stuck => rw [hx] at h; cases h

/-- Sequences that do the same in both of their parts. -/
theorem exec_bind_congr {x y : Act σ α} {f g : α → Act σ β} (hxy : exec x s = exec y s)
    (hfg : ∀ a t, exec y s = .ret a t → exec (f a) t = exec (g a) t) : exec (x >>= f) s = exec (y >>= g) s := by
  show Act.bind x f s = Act.bind y g s
  unfold Act.bind
  rw [show x s = y s from hxy]
  cases hy : y s with
  | ret a t => exact hfg a t hy
  | throw t => rfl
  | stuck => rfl

theorem wp_of_not_stuck {x : Act σ α} (h : exec x s ≠ .stuck) : wp x (fun _ _ => True) (fun _ => True) s := by
  unfold wp
  cases hx : x s with
  | ret a t => trivial
  | throw t => trivial
  | stuck => exact h hx

theorem not_stuck {x : Act σ α} (h : wp x Q E s) : exec x s ≠ .stuck := by
  intro hx
  unfold wp at h
  rw [show x s = .stuck from hx] at h
  exact h

/-- A program that does not throw returns. -/
theorem returns {x : Act σ α} (h : wp x Q (fun _ => False) s) : ∃ a t, exec x s = .ret a t ∧ Q a t := by
  cases hx : exec x s with
  | ret a t => exact ⟨a, t, rfl, exec_ret h hx⟩
  | throw t => exact (exec_throw h hx).elim
  | stuck => exact absurd hx (not_stuck h)

theorem exec_of_returned {x : Act σ α} {a : α} {t : σ} (h : (exec x s).returned = some (a, t)) :
    exec x s = .ret a t := by
  cases hx : exec x s with
  | ret b u =>
    rw [hx] at h
    obtain ⟨rfl, rfl⟩ := Prod.mk.inj (Option.some.inj h)
    rfl
  | throw u =>
    rw [hx] at h
    cases h
  | stuck =>
    rw [hx] at h
    cases h

end Rules

/-- From `s` the program is stuck, or it ends in `Q` if it returns and in `E`
if it throws. -/
def wlp (x : Act σ α) (Q : α → σ → Prop) (E : σ → Prop) (s : σ) : Prop :=
  exec x s = .stuck ∨ wp x Q E s

section Partial

variable {Q : α → σ → Prop} {E : σ → Prop} {s : σ}

theorem wlp_of_wp {x : Act σ α} (h : wp x Q E s) : wlp x Q E s := Or.inr h

theorem wlp_pure {a : α} (h : Q a s) : wlp (pure a : Act σ α) Q E s := wlp_of_wp ((wp_pure a).mpr h)

theorem wlp_stuck : wlp (stuck : Act σ α) Q E s := Or.inl rfl

theorem wlp_mono {x : Act σ α} {Q' : α → σ → Prop} {E' : σ → Prop} (h : wlp x Q E s)
    (hQ : ∀ a t, Q a t → Q' a t) (hE : ∀ t, E t → E' t) : wlp x Q' E' s :=
  h.imp_right fun h => wp_mono h hQ hE

theorem wlp_bind {x : Act σ α} {f : α → Act σ β} {Q : β → σ → Prop}
    (h : wlp x (fun a t => wlp (f a) Q E t) E s) : wlp (x >>= f) Q E s := by
  show exec (Act.bind x f) s = .stuck ∨ wp (Act.bind x f) Q E s
  unfold wlp exec wp at h
  unfold exec wp Act.bind
  cases hx : x s with
  | ret a t =>
    rw [hx] at h
    exact h.resolve_left (by simp)
  | throw t =>
    rw [hx] at h
    exact Or.inr (h.resolve_left (by simp))
  | stuck => exact Or.inl rfl

theorem wlp_zoom {get : σ → τ} {put : τ → σ → σ} {x : Act τ α}
    (h : wlp x (fun a t => Q a (put t s)) (fun t => E (put t s)) (get s)) :
    wlp (zoom get put x) Q E s := by
  unfold wlp exec wp at h
  unfold wlp exec wp zoom
  cases hx : x (get s) with
  | ret a t => rw [hx] at h; exact Or.inr (h.resolve_left (by simp))
  | throw t => rw [hx] at h; exact Or.inr (h.resolve_left (by simp))
  | stuck => exact Or.inl rfl

theorem wlp_ret {x : Act σ α} (h : wlp x Q E s) {a : α} {t : σ} (hx : exec x s = .ret a t) : Q a t :=
  exec_ret (h.resolve_left (by simp [hx])) hx

/-- What is known of how a program ends, and what of how it does if it ends. -/
theorem wp_and_wlp {x : Act σ α} {Q' : α → σ → Prop} {E' : σ → Prop} (h : wp x Q E s) (h' : wlp x Q' E' s) :
    wp x (fun a t => Q a t ∧ Q' a t) (fun t => E t ∧ E' t) s := by
  have h' := h'.resolve_left (not_stuck h)
  exact wp_mono (wp_exec h) (fun a t ht => ⟨ht.1, exec_ret h' ht.2⟩) fun t ht => ⟨ht.1, exec_throw h' ht.2⟩

theorem wlp_throw {x : Act σ α} (h : wlp x Q E s) {t : σ} (hx : exec x s = .throw t) : E t :=
  exec_throw (h.resolve_left (by simp [hx])) hx

end Partial

/-! ### Invariants of programs -/

/-- `P` holds however `x` ends, if it held before. -/
def Keeps (P : σ → Prop) (x : Act σ α) : Prop := ∀ s, P s → wlp x (fun _ => P) P s

namespace Keeps

variable {P P' : σ → Prop} {Q : τ → Prop} {x : Act σ α}

theorem pure (a : α) : Keeps P (Pure.pure a : Act σ α) := fun _ h => wlp_pure h

theorem read (f : σ → α) : Keeps P (Act.read f) := fun _ h => wlp_of_wp ((wp_read f).mpr h)

theorem update {f : σ → σ} (hf : ∀ s, P s → P (f s)) : Keeps P (Act.update f) :=
  fun s h => wlp_of_wp ((wp_update f).mpr (hf s h))

theorem throw : Keeps P (Act.throw : Act σ α) := fun _ h => wlp_of_wp (wp_throw.mpr h)

theorem stuck : Keeps P (Act.stuck : Act σ α) := fun _ _ => wlp_stuck

theorem need (c : σ → Bool) : Keeps P (Act.need c) := fun s h => by
  cases hc : c s with
  | true => exact wlp_of_wp ((wp_need c).mpr ⟨hc, h⟩)
  | false => exact Or.inl (exec_need_not hc)

theorem bind {f : α → Act σ β} (hx : Keeps P x) (hf : ∀ a, Keeps P (f a)) : Keeps P (x >>= f) :=
  fun s h => wlp_bind (wlp_mono (hx s h) (fun a t ht => hf a t ht) fun _ ht => ht)

theorem ite {c : Prop} [Decidable c] {y : Act σ α} (hx : Keeps P x) (hy : Keeps P y) :
    Keeps P (if c then x else y) := by
  split_ifs
  · exact hx
  · exact hy

/-- A program on a part, for an invariant of the part. -/
theorem zoom {get : σ → τ} {put : τ → σ → σ} {y : Act τ α} (hy : Keeps Q y) (hget : ∀ s, P s → Q (get s))
    (hput : ∀ s t, P s → Q t → P (put t s)) : Keeps P (Act.zoom get put y) := fun s h =>
  wlp_zoom (wlp_mono (hy _ (hget s h)) (fun _ t ht => hput s t h ht) fun t ht => hput s t h ht)

/-- Every program keeps what holds of every state. -/
theorem trivial (x : Act σ α) : Keeps (fun _ => True) x := fun s _ => by
  by_cases hx : exec x s = .stuck
  · exact Or.inl hx
  · exact wlp_of_wp (wp_of_not_stuck hx)

theorem and (hx : Keeps P x) (hx' : Keeps P' x) : Keeps (fun s => P s ∧ P' s) x := fun s h => by
  rcases hx s h.1 with hs | h1
  · exact Or.inl hs
  · rcases hx' s h.2 with hs | h2
    · exact Or.inl hs
    · refine wlp_of_wp (wp_mono (wp_exec h1) (fun a t ht => ?_) fun t ht => ?_)
      · exact ⟨ht.1, exec_ret h2 ht.2⟩
      · exact ⟨ht.1, exec_throw h2 ht.2⟩

theorem ret (h : Keeps P x) {s t : σ} (hs : P s) {a : α} (hx : exec x s = .ret a t) : P t := wlp_ret (h s hs) hx

end Keeps

/-! ### Rounds -/

/-- From every state `x` is stuck, or ends as `y` does: so a loop with fewer
rounds is below one with more. -/
def Below (x y : Act σ α) : Prop := ∀ s, exec x s = .stuck ∨ exec x s = exec y s

namespace Below

variable {x y : Act σ α}

theorem refl (x : Act σ α) : Below x x := fun _ => Or.inr rfl

theorem stuck (y : Act σ α) : Below Act.stuck y := fun _ => Or.inl rfl

theorem bind {f g : α → Act σ β} (hxy : Below x y) (hfg : ∀ a, Below (f a) (g a)) : Below (x >>= f) (y >>= g) := by
  intro s
  rcases hxy s with hs | heq
  · exact Or.inl (exec_bind_stuck hs)
  · cases hy : exec y s with
    | ret a t =>
      rw [hy] at heq
      rw [exec_bind heq, exec_bind hy]
      exact hfg a t
    | throw t =>
      refine Or.inr (exec_bind_congr heq fun a u hu => ?_)
      rw [hy] at hu
      cases hu
    | stuck =>
      rw [hy] at heq
      exact Or.inl (exec_bind_stuck heq)

theorem ite {c : Prop} [Decidable c] {x' y' : Act σ α} (hx : Below x y) (hx' : Below x' y') :
    Below (if c then x else x') (if c then y else y') := by
  split_ifs
  · exact hx
  · exact hx'

theorem zoom {get : σ → τ} {put : τ → σ → σ} {x y : Act τ α} (h : Below x y) :
    Below (Act.zoom get put x) (Act.zoom get put y) := by
  intro s
  rcases h (get s) with hs | heq
  · exact Or.inl (exec_zoom_stuck hs)
  · apply Or.inr
    unfold exec at heq
    unfold exec Act.zoom
    rw [heq]

/-- A loop with more rounds, if no round comes too late and each is one with
more rounds after it. -/
theorem of_rounds {ι : Type} {x : ℕ → ι → Act σ α} (hzero : ∀ n i, Below (x 0 i) (x (n + 1) i))
    (hsucc : ∀ m n, (∀ i, Below (x m i) (x n i)) → ∀ i, Below (x (m + 1) i) (x (n + 1) i)) {m n : ℕ} (h : m ≤ n)
    (i : ι) : Below (x m i) (x n i) := by
  induction m generalizing n i with
  | zero =>
    cases n with
    | zero => exact .refl _
    | succ n => exact hzero n i
  | succ m ih =>
    cases n with
    | zero => cases h
    | succ n => exact hsucc m n (fun i => ih (Nat.le_of_succ_le_succ h) i) i

theorem ret (h : Below x y) {s t : σ} {a : α} (hx : exec x s = .ret a t) : exec y s = .ret a t := by
  rcases h s with hs | heq
  · rw [hs] at hx
    cases hx
  · rwa [← heq]

theorem throw (h : Below x y) {s t : σ} (hx : exec x s = .throw t) : exec y s = .throw t := by
  rcases h s with hs | heq
  · rw [hs] at hx
    cases hx
  · rwa [← heq]

end Below

/-! ### The same until something happens -/

/-- `bad` stays, and `x` is not stuck then. -/
def Stays (bad : σ → Prop) (x : Act σ α) : Prop := ∀ s, bad s → wp x (fun _ => bad) bad s

/-- From `s` the two programs end in the same way, or both in `bad`. -/
def Until (bad : σ → Prop) (x y : Act σ α) (s : σ) : Prop :=
  exec x s = exec y s ∨ wp x (fun _ => bad) bad s ∧ wp y (fun _ => bad) bad s

/-- Two programs that do the same until `bad` holds, which stays. -/
structure Twins (bad : σ → Prop) (x y : Act σ α) : Prop where
  left : Stays bad x
  right : Stays bad y
  same : ∀ s, Until bad x y s

section Twins

variable {bad : σ → Prop} {x y : Act σ α} {f g : α → Act σ β} {Q : α → σ → Prop} {E : σ → Prop} {s : σ}

theorem Stays.bind (hx : Stays bad x) (hf : ∀ a, Stays bad (f a)) : Stays bad (x >>= f) := fun s hs =>
  (wp_bind x f).mpr (wp_mono (hx s hs) (fun a t ht => hf a t ht) fun _ ht => ht)

/-- Where the first parts do the same, and the rest from there. -/
theorem Until.bind_eq (heq : exec x s = exec y s) (hf : ∀ a t, exec y s = .ret a t → Until bad (f a) (g a) t) :
    Until bad (x >>= f) (y >>= g) s := by
  cases hx : exec y s with
  | ret a t =>
    rcases hf a t hx with h | ⟨h1, h2⟩
    · refine Or.inl (exec_bind_congr heq fun b u hu => ?_)
      cases hx.symm.trans hu
      exact h
    · exact Or.inr ⟨(wp_bind x f).mpr (wp_of_exec (heq.trans hx) h1), (wp_bind y g).mpr (wp_of_exec hx h2)⟩
  | throw t => exact Or.inl (exec_bind_congr heq fun b u hu => by cases hx.symm.trans hu)
  | stuck => exact Or.inl (exec_bind_congr heq fun b u hu => by cases hx.symm.trans hu)

theorem Until.bind (h : Until bad x y s) (hf : ∀ a, Twins bad (f a) (g a)) : Until bad (x >>= f) (y >>= g) s := by
  rcases h with heq | ⟨hx, hy⟩
  · exact .bind_eq heq fun a t _ => (hf a).same t
  · exact Or.inr ⟨(wp_bind x f).mpr (wp_mono hx (fun a t ht => (hf a).left t ht) fun _ ht => ht),
      (wp_bind y g).mpr (wp_mono hy (fun a t ht => (hf a).right t ht) fun _ ht => ht)⟩

/-- What is known of one program holds of the other, unless it ended in `bad`. -/
theorem Until.or_bad (h : Until bad x y s) (hy : wp y Q E s) :
    wp x (fun a t => bad t ∨ Q a t) (fun t => bad t ∨ E t) s := by
  rcases h with heq | ⟨hx, -⟩
  · exact wp_congr heq (wp_mono hy (fun _ _ ht => Or.inr ht) fun _ ht => Or.inr ht)
  · exact wp_mono hx (fun _ _ ht => Or.inl ht) fun _ ht => Or.inl ht

/-- One program that does not end in `bad` is as good as the other. -/
theorem Until.of_not_bad (h : Until bad x y s) (hy : wp y Q E s) (hQ : ∀ a t, Q a t → ¬ bad t)
    (hE : ∀ t, E t → ¬ bad t) : wp x Q E s := by
  rcases h with heq | ⟨-, hbad⟩
  · exact wp_congr heq hy
  · cases hx : exec y s with
    | ret a t => exact absurd (exec_ret hbad hx) (hQ a t (exec_ret hy hx))
    | throw t => exact absurd (exec_throw hbad hx) (hE t (exec_throw hy hx))
    | stuck => exact absurd hx (not_stuck hy)

namespace Twins

theorem refl (h : Stays bad x) : Twins bad x x := ⟨h, h, fun _ => Or.inl rfl⟩

theorem pure (a : α) : Twins bad (Pure.pure a : Act σ α) (Pure.pure a) := refl fun _ h => (wp_pure a).mpr h

theorem read (f : σ → α) : Twins bad (Act.read f) (Act.read f) := refl fun _ h => (wp_read f).mpr h

theorem update {f : σ → σ} (hf : ∀ s, bad s → bad (f s)) : Twins bad (Act.update f) (Act.update f) :=
  refl fun s h => (wp_update f).mpr (hf s h)

theorem throw : Twins bad (Act.throw : Act σ α) Act.throw := refl fun _ h => wp_throw.mpr h

theorem bind (h : Twins bad x y) (hf : ∀ a, Twins bad (f a) (g a)) : Twins bad (x >>= f) (y >>= g) :=
  ⟨h.left.bind fun a => (hf a).left, h.right.bind fun a => (hf a).right, fun s => (h.same s).bind hf⟩

theorem ite {c : Prop} [Decidable c] {x' y' : Act σ α} (h : Twins bad x y) (h' : Twins bad x' y') :
    Twins bad (if c then x else x') (if c then y else y') := by
  split_ifs
  · exact h
  · exact h'

theorem when {c : Prop} [Decidable c] {x y : Act σ Unit} (h : Twins bad x y) :
    Twins bad (Act.when c x) (Act.when c y) := ite h (pure ())

end Twins

end Twins

/-! ### Programs with more state -/

/-- On the part `f` of its state `x` does what `y` does, and it ends as `y` does:
the rest of the state has no influence. -/
def Shows (f : σ → τ) (x : Act σ α) (y : Act τ α) : Prop := ∀ s, (exec x s).map f = exec y (f s)

namespace Shows

variable {f : σ → τ} {x x' : Act σ α} {y y' : Act τ α}

theorem pure (a : α) : Shows f (Pure.pure a : Act σ α) (Pure.pure a) := fun _ => rfl

theorem throw : Shows f (Act.throw : Act σ α) Act.throw := fun _ => rfl

theorem read (g : τ → α) : Shows f (Act.read fun s => g (f s)) (Act.read g) := fun _ => rfl

theorem update {u : σ → σ} {v : τ → τ} (h : ∀ s, f (u s) = v (f s)) : Shows f (Act.update u) (Act.update v) :=
  fun s => congrArg (Outcome.ret ()) (h s)

theorem need (b : Bool) : Shows f (Act.need fun _ => b) (Act.need fun _ => b) := fun _ => by
  cases b <;> rfl

theorem bind {g : α → Act σ β} {k : α → Act τ β} (h : Shows f x y) (hgk : ∀ a, Shows f (g a) (k a)) :
    Shows f (x >>= g) (y >>= k) := by
  intro s
  have hs := h s
  show (Act.bind x g s).map f = Act.bind y k (f s)
  unfold Act.bind
  unfold exec at hs
  rw [← hs]
  cases x s with
  | ret a t => exact hgk a t
  | throw t => rfl
  | stuck => rfl

/-- A value that only the rest of the state is read for. -/
theorem read_rest {γ : Type} {g : σ → γ} {k : γ → Act σ α} (h : ∀ c, Shows f (k c) y) :
    Shows f (Act.read g >>= k) y := fun s => h (g s) s

/-- A change of the rest of the state. -/
theorem rest {u : σ → σ} (hu : ∀ s, f (u s) = f s) : Shows f (Act.update u) (Pure.pure ()) :=
  fun s => congrArg (Outcome.ret ()) (hu s)

theorem update_rest {u : σ → σ} {k : Unit → Act σ α} (hu : ∀ s, f (u s) = f s) (h : Shows f (k ()) y) :
    Shows f (Act.update u >>= k) y := fun s => (h (u s)).trans (congrArg (exec y) (hu s))

theorem ite {c : Prop} [Decidable c] (h : Shows f x y) (h' : Shows f x' y') :
    Shows f (if c then x else x') (if c then y else y') := by
  split_ifs
  · exact h
  · exact h'

theorem when {c : Prop} [Decidable c] {x : Act σ Unit} {y : Act τ Unit} (h : Shows f x y) :
    Shows f (Act.when c x) (Act.when c y) := ite h (pure ())

/-- A program on the part. -/
theorem zoom {put : τ → σ → σ} (hput : ∀ t s, f (put t s) = t) (y : Act τ α) : Shows f (Act.zoom f put y) y := by
  intro s
  show (Act.zoom f put y s).map f = y (f s)
  unfold Act.zoom
  cases y (f s) with
  | ret a t => exact congrArg (Outcome.ret a) (hput t s)
  | throw t => exact congrArg Outcome.throw (hput t s)
  | stuck => rfl

/-- What is known of the program on the part. -/
theorem wp {Q : α → τ → Prop} {E : τ → Prop} {s : σ} (h : Shows f x y) (hy : Act.wp y Q E (f s)) :
    Act.wp x (fun a t => Q a (f t)) (fun t => E (f t)) s := by
  have hs := h s
  unfold Act.wp at *
  unfold exec at hs
  rw [← hs] at hy
  cases hx : x s <;> rw [hx] at hy <;> exact hy

end Shows

-- the rules are the whole of what is used: a goal about a run never runs the program
attribute [irreducible] wp

end Act

end Lib

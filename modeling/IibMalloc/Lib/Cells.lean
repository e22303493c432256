/-
# Runs of adjacent cells

Cells of `w` bytes lie at the addresses `f i`. `runsFrom` goes through `n` of
them and merges those that follow each other in memory: it holds a run that is
still open, from `start` to the cell at `last`, and closes it where the next
cell is not the adjacent one.

The runs are exactly the cells (`mem_runsFrom`), apart from each other where the
cells are (`runsFrom_apart`), and there is one more than there are cells that do
not follow the one before (`runsFrom_length_le`).
-/
import Mathlib.Data.Nat.Notation
import Mathlib.Tactic

namespace Lib

/-- The runs of `n` cells from `i` on, after the open run from `start` to `last`. -/
def runsFrom (w : ℕ) (f : ℕ → ℕ) : ℕ → ℕ → ℕ → ℕ → List (ℕ × ℕ)
  | 0, _, start, last => [(start, last - start + w)]
  | n + 1, i, start, last =>
    if f i = last + w then runsFrom w f n (i + 1) start (f i)
    else (start, last - start + w) :: runsFrom w f n (i + 1) (f i) (f i)

/-- The open run: the cells from `lo` up to `i`, adjacent from `start` to `last`. -/
structure OpenRun (w : ℕ) (f : ℕ → ℕ) (lo i start last : ℕ) : Prop where
  lt : lo < i
  adjacent : ∀ t, lo ≤ t → t < i → f t = start + (t - lo) * w
  last_eq : last = start + (i - 1 - lo) * w

variable {w : ℕ} {f : ℕ → ℕ} {lo i n start last x p : ℕ}

namespace OpenRun

/-- A run of one cell. -/
theorem single (w : ℕ) (f : ℕ → ℕ) (i : ℕ) : OpenRun w f i (i + 1) (f i) (f i) := by
  refine ⟨Nat.lt_succ_self i, fun t h1 h2 => ?_, ?_⟩
  · obtain rfl : t = i := by omega
    rw [Nat.sub_self, Nat.zero_mul, Nat.add_zero]
  · rw [Nat.add_sub_cancel, Nat.sub_self, Nat.zero_mul, Nat.add_zero]

/-- The adjacent cell joins the run. -/
theorem extend (h : OpenRun w f lo i start last) (hi : f i = last + w) : OpenRun w f lo (i + 1) start (f i) := by
  have hlt := h.lt
  have heq : f i = start + (i - lo) * w := by
    rw [hi, h.last_eq, show i - lo = i - 1 - lo + 1 by omega, Nat.add_mul]
    omega
  refine ⟨by omega, fun t h1 h2 => ?_, ?_⟩
  · rcases Nat.lt_or_ge t i with h3 | h3
    · exact h.adjacent t h1 h3
    · obtain rfl : t = i := by omega
      exact heq
  · rw [Nat.add_sub_cancel]
    exact heq

/-- The bytes of the run are those of its cells. -/
theorem mem_iff (h : OpenRun w f lo i start last) (hw : 0 < w) :
    (start ≤ x ∧ x < start + (last - start + w)) ↔ ∃ t, lo ≤ t ∧ t < i ∧ f t ≤ x ∧ x < f t + w := by
  have hlt := h.lt
  have hsz : last - start + w = (i - lo) * w := by
    rw [h.last_eq, show i - lo = i - 1 - lo + 1 by omega, Nat.add_mul]
    omega
  rw [hsz]
  constructor
  · intro hx
    obtain ⟨h1, h2⟩ := hx
    have hq : (x - start) / w < i - lo := (Nat.div_lt_iff_lt_mul hw).mpr (by omega)
    have hdm := Nat.div_add_mod' (x - start) w
    have hr := Nat.mod_lt (x - start) hw
    generalize (x - start) / w = q at hq hdm
    refine ⟨lo + q, by omega, by omega, ?_⟩
    rw [h.adjacent _ (by omega) (by omega), Nat.add_sub_cancel_left]
    omega
  · intro hx
    obtain ⟨t, h1, h2, h3, h4⟩ := hx
    have hle := Nat.mul_le_mul_right w (show t - lo + 1 ≤ i - lo by omega)
    rw [h.adjacent t h1 h2] at h3 h4
    rw [Nat.succ_mul] at hle
    omega

end OpenRun

/-- The runs are the cells. -/
theorem mem_runsFrom (h : OpenRun w f lo i start last) (hw : 0 < w) :
    (∃ r ∈ runsFrom w f n i start last, r.1 ≤ x ∧ x < r.1 + r.2) ↔
      ∃ t, lo ≤ t ∧ t < i + n ∧ f t ≤ x ∧ x < f t + w := by
  induction n generalizing lo i start last with
  | zero =>
    rw [runsFrom, Nat.add_zero, ← h.mem_iff hw]
    simp
  | succ n ih =>
    have hlt := h.lt
    rw [runsFrom]
    split_ifs with hi
    · rw [ih (h.extend hi), show i + 1 + n = i + (n + 1) by omega]
    · rw [List.exists_mem_cons_iff, ih (OpenRun.single w f i), h.mem_iff hw]
      constructor
      · rintro (⟨t, h1, h2, h3⟩ | ⟨t, h1, h2, h3⟩)
        · exact ⟨t, h1, by omega, h3⟩
        · exact ⟨t, by omega, by omega, h3⟩
      · rintro ⟨t, h1, h2, h3⟩
        rcases Nat.lt_or_ge t i with h4 | h4
        · exact Or.inl ⟨t, h1, h4, h3⟩
        · exact Or.inr ⟨t, h4, by omega, h3⟩

/-- Where the cells are apart, so are the runs. -/
theorem runsFrom_apart (h : OpenRun w f lo i start last) (hw : 0 < w)
    (hcells : ∀ t u x, lo ≤ t → t < i + n → lo ≤ u → u < i + n → f t ≤ x ∧ x < f t + w → f u ≤ x ∧ x < f u + w →
      t = u) :
    (runsFrom w f n i start last).Pairwise fun r r' => ∀ x, r.1 ≤ x ∧ x < r.1 + r.2 → ¬ (r'.1 ≤ x ∧ x < r'.1 + r'.2) := by
  induction n generalizing lo i start last with
  | zero => exact List.pairwise_singleton _ _
  | succ n ih =>
    have hlt := h.lt
    rw [runsFrom]
    split_ifs with hi
    · exact ih (h.extend hi) fun t u x h1 h2 h3 h4 => hcells t u x h1 (by omega) h3 (by omega)
    · refine List.pairwise_cons.mpr ⟨fun r hr x hx hx' => ?_, ih (OpenRun.single w f i) fun t u x h1 h2 h3 h4 =>
        hcells t u x (by omega) (by omega) (by omega) (by omega)⟩
      -- a cell of the closed run would be a cell after it
      obtain ⟨t, h1, h2, h3⟩ := (h.mem_iff hw).mp hx
      obtain ⟨u, h4, h5, h6⟩ := (mem_runsFrom (OpenRun.single w f i) hw).mp ⟨r, hr, hx'⟩
      have := hcells t u x h1 (by omega) (by omega) (by omega) h3 h6
      omega

/-- Where each cell follows the one before, there is one run. -/
theorem runsFrom_length_eq (hlast : last = f (i - 1)) (hi : 0 < i)
    (hnext : ∀ t, i ≤ t → t < i + n → f t = f (t - 1) + w) : (runsFrom w f n i start last).length = 1 := by
  induction n generalizing i last with
  | zero => rfl
  | succ n ih =>
    rw [runsFrom, if_pos (by rw [hlast]; exact hnext i le_rfl (by omega))]
    exact ih (by rw [Nat.add_sub_cancel]) (Nat.succ_pos i) fun t h1 h2 => hnext t (by omega) (by omega)

/-- Where each cell but one does, there are two at most. -/
theorem runsFrom_length_le (hlast : last = f (i - 1)) (hi : 0 < i)
    (hnext : ∀ t, i ≤ t → t < i + n → t ≠ p → f t = f (t - 1) + w) :
    (runsFrom w f n i start last).length ≤ 2 := by
  induction n generalizing i start last with
  | zero => exact Nat.le_succ 1
  | succ n ih =>
    rw [runsFrom]
    split_ifs with hadj
    · exact ih (by rw [Nat.add_sub_cancel]) (Nat.succ_pos i) fun t h1 h2 => hnext t (by omega) (by omega)
    · -- the exception is here, so none comes after it
      have hp : i = p := by
        by_contra hne
        exact hadj (by rw [hlast]; exact hnext i le_rfl (by omega) hne)
      have hone : (runsFrom w f n (i + 1) (f i) (f i)).length = 1 :=
        runsFrom_length_eq (by rw [Nat.add_sub_cancel]) (Nat.succ_pos i) fun t h1 h2 =>
          hnext t (by omega) (by omega) (by omega)
      rw [List.length_cons, hone]

end Lib

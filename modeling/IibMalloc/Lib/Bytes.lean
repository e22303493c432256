/-
# Numbers in a memory of bytes

`readLE m n a` is the number that the `n` bytes from `a` hold, the least
significant first, and `writeLE m n a v` is the memory after `v` was written
there. A write is read back (`readLE_writeLE`) and changes nothing outside
(`writeLE_of_not`), and a read sees its own bytes, all of them and no others
(`readLE_congr`, `readLE_inj`).

`word m` is the same memory as one of words of eight bytes, and `putWords m v` is
what a program on words makes of it: the words are `v` (`word_putWords`), and the
bytes of a word that is as it was are not touched (`putWords_of_eq`).
-/
import Mathlib.Data.Nat.Notation
import Mathlib.Tactic

namespace Lib

/-- The number in the `n` bytes from `a`. -/
def readLE (m : ℕ → ℕ) : ℕ → ℕ → ℕ
  | 0, _ => 0
  | n + 1, a => m a % 256 + 256 * readLE m n (a + 1)

/-- The memory with `v` in the `n` bytes from `a`. -/
def writeLE (m : ℕ → ℕ) (n a v : ℕ) : ℕ → ℕ := fun x =>
  if a ≤ x ∧ x < a + n then v / 256 ^ (x - a) % 256 else m x

variable {m m' : ℕ → ℕ} {n a v x : ℕ}

theorem writeLE_of_not (h : ¬ (a ≤ x ∧ x < a + n)) : writeLE m n a v x = m x := if_neg h

theorem readLE_congr (h : ∀ x, a ≤ x → x < a + n → m' x = m x) : readLE m' n a = readLE m n a := by
  induction n generalizing a with
  | zero => rfl
  | succ n ih =>
    unfold readLE
    rw [h a le_rfl (by omega), ih fun x h1 h2 => h x (by omega) (by omega)]

/-- Equal numbers are equal bytes. -/
theorem readLE_inj (h : readLE m' n a = readLE m n a) (h1 : a ≤ x) (h2 : x < a + n) : m' x % 256 = m x % 256 := by
  induction n generalizing a with
  | zero => omega
  | succ n ih =>
    unfold readLE at h
    rcases Nat.eq_or_lt_of_le h1 with rfl | hlt
    · omega
    · have hrest : readLE m' n (a + 1) = readLE m n (a + 1) := by omega
      exact ih hrest hlt (by omega)

/-- A memory of bytes is one after a write. -/
theorem writeLE_lt (h : ∀ x, m x < 256) : writeLE m n a v x < 256 := by
  unfold writeLE
  split_ifs
  · exact Nat.mod_lt _ (by norm_num)
  · exact h x

/-- Bytes that are the digits of `v` from the `k`th on. -/
theorem readLE_digits {k : ℕ} (h : ∀ i < n, m (a + i) = v / 256 ^ (k + i) % 256) :
    readLE m n a = v / 256 ^ k % 256 ^ n := by
  induction n generalizing a k with
  | zero => simp [readLE, Nat.mod_one]
  | succ n ih =>
    have h0 := h 0 (by omega)
    rw [Nat.add_zero, Nat.add_zero] at h0
    have hrest : readLE m n (a + 1) = v / 256 ^ (k + 1) % 256 ^ n := ih fun i hi => by
      have := h (i + 1) (by omega)
      rwa [show a + (i + 1) = a + 1 + i by omega, show k + (i + 1) = k + 1 + i by omega] at this
    unfold readLE
    rw [h0, hrest, pow_succ' 256 n, Nat.mod_mul, Nat.mod_mod, Nat.div_div_eq_div_mul, ← pow_succ]

theorem readLE_writeLE (h : v < 256 ^ n) : readLE (writeLE m n a v) n a = v := by
  have hd : readLE (writeLE m n a v) n a = v / 256 ^ 0 % 256 ^ n := readLE_digits fun i hi => by
    show (if a ≤ a + i ∧ a + i < a + n then _ else _) = _
    rw [if_pos ⟨by omega, by omega⟩, Nat.add_sub_cancel_left, Nat.zero_add]
  rw [hd, pow_zero, Nat.div_one, Nat.mod_eq_of_lt h]

/-! ### Words -/

/-- The word in the eight bytes from `a`. -/
def word (m : ℕ → ℕ) (a : ℕ) : ℕ := readLE m 8 a

/-- The bytes after the words became `v`: those of the words that changed. -/
def putWords (m v : ℕ → ℕ) : ℕ → ℕ := fun x =>
  if v (x - x % 8) = word m (x - x % 8) then m x else v (x - x % 8) / 256 ^ (x % 8) % 256

variable {v' : ℕ → ℕ}

theorem word_congr (h : ∀ x, a ≤ x → x < a + 8 → m' x = m x) : word m' a = word m a := readLE_congr h

theorem putWords_of_eq (h : v' (x - x % 8) = word m (x - x % 8)) : putWords m v' x = m x := if_pos h

theorem word_putWords (ha : 8 ∣ a) (hv : v' a < 2 ^ 64) : word (putWords m v') a = v' a := by
  have hsame : ∀ i < 8, a + i - (a + i) % 8 = a ∧ (a + i) % 8 = i := fun i hi => by omega
  by_cases h : v' a = word m a
  · rw [h]
    refine word_congr fun x h1 h2 => putWords_of_eq ?_
    rw [show x - x % 8 = a by omega]
    exact h
  · have hd : word (putWords m v') a = v' a / 256 ^ 0 % 256 ^ 8 := readLE_digits fun i hi => by
      obtain ⟨h1, h2⟩ := hsame i hi
      unfold putWords
      rw [h1, h2, if_neg h, Nat.zero_add]
    rw [hd, pow_zero, Nat.div_one]
    exact Nat.mod_eq_of_lt (by omega)

-- a word is never read byte by byte
attribute [irreducible] word putWords

end Lib

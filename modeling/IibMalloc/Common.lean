/-
# iibmalloc_common.h: sizes, exponents and alignment

The helpers on 64-bit values are on `BitVec 64`, so that negation, shifts and
wrap-around are the machine's: `alignUpExp` negates twice through a signed
value and shifts arithmetically. Addresses and the words of memory are
natural numbers below `2 ^ 64`.
-/
import Mathlib.Data.Nat.Notation
import Mathlib.Data.Nat.Bitwise
import Mathlib.Tactic

namespace IibMalloc

/-! ### Exponents and alignment -/

def sizeToExpImpl (sz : ℕ) : ℕ → ℕ
  | 0 => 0
  | ix + 1 => if sz = 1 <<< (ix + 1) then ix + 1 else sizeToExpImpl sz ix

def sizeToExp (sz : ℕ) : ℕ := sizeToExpImpl sz 32

def expToMask (sz : ℕ) : ℕ := (1 <<< sz) - 1

def alignDownExp (sz : BitVec 64) (alignmentExp : ℕ) : BitVec 64 :=
  (sz >>> alignmentExp) <<< alignmentExp

def isAlignedExp (sz : BitVec 64) (alignment : ℕ) : Bool := alignDownExp sz alignment == sz

def isAlignedMask (sz alignmentMask : BitVec 64) : Bool := sz &&& alignmentMask == 0

def alignUpMask (sz alignmentMask : BitVec 64) : BitVec 64 :=
  if sz &&& alignmentMask = 0 then sz else sz - (sz &&& alignmentMask) + alignmentMask + 1

/-- The page and the item counts are rounded up by negating, shifting the
signed value and negating again. -/
def ceilShift (sz : BitVec 64) (exp : ℕ) : BitVec 64 := -((-sz).sshiftRight exp)

def alignUpExp (sz : BitVec 64) (alignmentExp : ℕ) : BitVec 64 :=
  ceilShift sz alignmentExp <<< alignmentExp

/-! ### The constants of iibmalloc.h -/

def ALIGNMENT : ℕ := 2 * 8
def ALIGNMENT_EXP : ℕ := sizeToExp ALIGNMENT

def PAGE_SIZE : ℕ := 4 * 1024
def PAGE_SIZE_EXP : ℕ := sizeToExp PAGE_SIZE
def PAGE_SIZE_MASK : ℕ := expToMask PAGE_SIZE_EXP

@[simp] theorem PAGE_SIZE_eq : PAGE_SIZE = 4096 := rfl
@[simp] theorem PAGE_SIZE_EXP_eq : PAGE_SIZE_EXP = 12 := by decide
@[simp] theorem PAGE_SIZE_MASK_eq : PAGE_SIZE_MASK = 4095 := by decide
@[simp] theorem ALIGNMENT_EXP_eq : ALIGNMENT_EXP = 4 := by decide

/-! ### Words -/

/-- A 64-bit result. -/
def u64 (x : ℕ) : ℕ := x % 2 ^ 64

/-- A 16-bit result. -/
def u16 (x : ℕ) : ℕ := x % 2 ^ 16

/-- `~x` on 64 bits. -/
def not64 (x : ℕ) : ℕ := 2 ^ 64 - 1 - x

theorem u64_of_lt {x : ℕ} (h : x < 2 ^ 64) : u64 x = x := Nat.mod_eq_of_lt h

theorem u16_of_lt {x : ℕ} (h : x < 2 ^ 16) : u16 x = x := Nat.mod_eq_of_lt h

/-- The low bits of a word are its offset in the page. -/
theorem and_page_mask (x : ℕ) : x &&& PAGE_SIZE_MASK = x % 4096 := by
  rw [PAGE_SIZE_MASK_eq]
  exact Nat.and_two_pow_sub_one_eq_mod x 12

/-- The other bits of a word are the start of the page. -/
theorem and_not_page_mask {x : ℕ} (h : x < 2 ^ 64) : x &&& not64 PAGE_SIZE_MASK = x - x % 4096 := by
  have h1 : (x &&& not64 PAGE_SIZE_MASK) = (x >>> 12) <<< 12 := by
    apply Nat.eq_of_testBit_eq
    intro i
    rw [Nat.testBit_and, Nat.testBit_shiftLeft, Nat.testBit_shiftRight]
    have hm : not64 PAGE_SIZE_MASK = 2 ^ 64 - (4095 + 1) := by
      rw [PAGE_SIZE_MASK_eq]; rfl
    rw [hm, Nat.testBit_two_pow_sub_succ (by norm_num)]
    have h4095 : Nat.testBit 4095 i = decide (i < 12) := Nat.testBit_two_pow_sub_one 12 i
    rw [h4095]
    by_cases hi : i < 12
    · simp [hi, show ¬ 12 ≤ i by omega]
    · by_cases hi2 : i < 64
      · simp [hi, hi2, show 12 ≤ i by omega]
      · have : x.testBit i = false :=
          Nat.testBit_lt_two_pow (lt_of_lt_of_le h (Nat.pow_le_pow_right (by norm_num) (by omega)))
        simp [this, show 12 ≤ i by omega]
  rw [h1, Nat.shiftLeft_eq, Nat.shiftRight_eq_div_pow]
  omega

/-- Rounding up to pages, with the wrap-around of sizes from `2 ^ 63` on. -/
theorem ceilShift_toNat {sz : ℕ} (h0 : 0 < sz) (hsz : sz < 2 ^ 64) :
    (ceilShift (BitVec.ofNat 64 sz) PAGE_SIZE_EXP).toNat =
      if sz ≤ 2 ^ 63 then (sz + 4095) / 4096 else (2 ^ 64 - (2 ^ 64 - sz) / 4096) % 2 ^ 64 := by
  have hneg : (-BitVec.ofNat 64 sz).toNat = 2 ^ 64 - sz := by
    rw [BitVec.toNat_neg, BitVec.toNat_ofNat]
    omega
  rw [PAGE_SIZE_EXP_eq, ceilShift, BitVec.toNat_neg, BitVec.toNat_sshiftRight, BitVec.msb_eq_decide, hneg]
  simp only [Nat.shiftRight_eq_div_pow, decide_eq_true_eq]
  split_ifs <;> omega

theorem isAlignedExp_page {sz : ℕ} (h : 4096 ∣ sz) :
    isAlignedExp (BitVec.ofNat 64 sz) PAGE_SIZE_EXP = true := by
  rw [isAlignedExp, beq_iff_eq, ← BitVec.toNat_inj, alignDownExp, PAGE_SIZE_EXP_eq,
    BitVec.toNat_shiftLeft, BitVec.toNat_ushiftRight, BitVec.toNat_ofNat, Nat.shiftLeft_eq,
    Nat.shiftRight_eq_div_pow]
  omega

end IibMalloc

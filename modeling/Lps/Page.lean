import Lps.Word
import Mathlib.Tactic.Common

/-!
# Pages

With pages of 4096 bytes, shifting an address right by twelve bits numbers the page it
lies in, shifting a page number left gives the page's first address, and masking the low
bits does both.  The numbers say when these operations stay below `2 ^ 64`.  The second
part is about pages of any size.
-/

namespace Lps

theorem toNat_page (x : Word) : (x >>> 12).toNat = x.toNat / 4096 := by
  rw [BitVec.toNat_ushiftRight, Nat.shiftRight_eq_div_pow]

theorem toNat_pageAddr {x : Word} (small : x.toNat < 2 ^ 52) :
    (x <<< 12).toNat = 4096 * x.toNat := by
  rw [BitVec.toNat_shiftLeft, Nat.shiftLeft_eq]
  omega

/-- A page number is recovered from the first address of the page. -/
theorem page_pageAddr {x : Word} (small : x.toNat < 2 ^ 52) : (x <<< 12) >>> 12 = x := by
  apply BitVec.eq_of_toNat_eq
  rw [toNat_page, toNat_pageAddr small]
  omega

/-- Masking the low bits gives the first address of the page. -/
theorem and_not_pageMask (x : Word) : x &&& ~~~(4095 : Word) = (x >>> 12) <<< 12 := by
  have mask : ∀ i, (4095 : Word).getLsbD i = decide (i < 12) := by
    intro i
    exact Nat.testBit_two_pow_sub_one 12 i
  apply BitVec.eq_of_getLsbD_eq
  intro i lt
  simp only [BitVec.getLsbD_and, BitVec.getLsbD_not, BitVec.getLsbD_shiftLeft,
    BitVec.getLsbD_ushiftRight, mask, lt, decide_true, Bool.true_and]
  by_cases low : i < 12
  · simp [low]
  · have index : 12 + (i - 12) = i := by omega
    simp [low, index]

theorem toNat_and_not_pageMask (x : Word) :
    (x &&& ~~~(4095 : Word)).toNat = 4096 * (x.toNat / 4096) := by
  have small : (x >>> 12).toNat < 2 ^ 52 := by
    rw [toNat_page]
    omega
  rw [and_not_pageMask, toNat_pageAddr small, toNat_page]

/-- Rounding up wraps around behind the last page. -/
theorem toNat_add_pageMask (x : Word) : (x + 4095).toNat = (x.toNat + 4095) % 2 ^ 64 := by
  rw [BitVec.toNat_add]
  rfl

theorem umod_page_eq_zero {x : Word} : x % 4096 = 0 ↔ x.toNat % 4096 = 0 := by
  rw [← BitVec.toNat_inj, BitVec.toNat_umod]
  rfl

/-- The address of a page is not `-1`. -/
theorem ne_neg_one_of_page {x : Word} (aligned : x.toNat % 4096 = 0) : x ≠ -1 := by
  rintro rfl
  exact absurd aligned (by decide)

/-- A mask that covers the low bits leaves the first address of a page. -/
theorem and_not_mod_page {x mask : Word} (ones : mask.toNat % 4096 = 4095) :
    (x &&& ~~~mask).toNat % 4096 = 0 := by
  have bit : ∀ i < 12, mask.getLsbD i = true := by
    intro i low
    have all : (mask.toNat % 2 ^ 12).testBit i = true := by
      rw [show mask.toNat % 2 ^ 12 = 2 ^ 12 - 1 from ones, Nat.testBit_two_pow_sub_one]
      simpa using low
    rw [Nat.testBit_mod_two_pow] at all
    simp only [low, decide_true, Bool.true_and] at all
    exact all
  change (x &&& ~~~mask).toNat % 2 ^ 12 = 0
  apply Nat.eq_of_testBit_eq
  intro i
  rw [Nat.testBit_mod_two_pow, Nat.zero_testBit]
  by_cases low : i < 12
  · have index : i < 64 := by omega
    have cleared : (x &&& ~~~mask).getLsbD i = false := by
      simp [bit i low]
    simp only [low, decide_true, Bool.true_and]
    exact cleared
  · simp [low]

/-! ## Pages of any size -/

variable {x : Word} {p : Nat}

theorem toNat_shiftRight_lt (x : Word) (le : p ≤ 64) : (x >>> p).toNat < 2 ^ (64 - p) := by
  rw [BitVec.toNat_ushiftRight, Nat.shiftRight_eq_div_pow,
    Nat.div_lt_iff_lt_mul (Nat.two_pow_pos p), ← Nat.pow_add, Nat.sub_add_cancel le]
  exact x.isLt

theorem toNat_shiftLeft_of_lt (le : p ≤ 64) (small : x.toNat < 2 ^ (64 - p)) :
    (x <<< p).toNat = x.toNat * 2 ^ p := by
  have fits : x.toNat * 2 ^ p < 2 ^ 64 :=
    calc
      x.toNat * 2 ^ p < 2 ^ (64 - p) * 2 ^ p := Nat.mul_lt_mul_of_pos_right small (Nat.two_pow_pos p)
      _ = 2 ^ 64 := by rw [← Nat.pow_add, Nat.sub_add_cancel le]
  rw [BitVec.toNat_shiftLeft, Nat.shiftLeft_eq, Nat.mod_eq_of_lt fits]

/-- The number of a page is recovered from its first address. -/
theorem shiftRight_shiftLeft_of_lt (le : p ≤ 64) (small : x.toNat < 2 ^ (64 - p)) :
    (x <<< p) >>> p = x := by
  apply BitVec.eq_of_toNat_eq
  rw [BitVec.toNat_ushiftRight, Nat.shiftRight_eq_div_pow, toNat_shiftLeft_of_lt le small,
    Nat.mul_div_cancel _ (Nat.two_pow_pos p)]

theorem toNat_pageSize (lt : p < 64) : (↑(1 <<< p) : Word).toNat = 2 ^ p := by
  change (BitVec.ofNat 64 (1 <<< p)).toNat = 2 ^ p
  rw [BitVec.toNat_ofNat, Nat.one_shiftLeft, Nat.mod_eq_of_lt]
  exact Nat.pow_lt_pow_right (by decide) lt

/-- The mask of the bits below a page. -/
theorem toNat_pageMask (lt : p < 64) : (↑(1 <<< p) - 1 : Word).toNat = 2 ^ p - 1 := by
  have size := toNat_pageSize lt
  rw [BitVec.toNat_sub_of_le]
  · rw [size]
    rfl
  · rw [BitVec.le_def, size]
    exact Nat.two_pow_pos p

theorem umod_pageSize_eq_zero (lt : p < 64) :
    x % (↑(1 <<< p) : Word) = 0 ↔ x.toNat % 2 ^ p = 0 := by
  rw [← BitVec.toNat_inj, BitVec.toNat_umod, toNat_pageSize lt]
  rfl

/-- Masking the bits below a page leaves its number. -/
theorem shiftRight_and_not_mask (x : Word) (lt : p < 64) :
    (x &&& ~~~((↑(1 <<< p) : Word) - 1)) >>> p = x >>> p := by
  apply BitVec.eq_of_getLsbD_eq
  intro i _
  have high : ((↑(1 <<< p) : Word) - 1).getLsbD (p + i) = false := by
    rw [BitVec.getLsbD, toNat_pageMask lt, Nat.testBit_two_pow_sub_one]
    simp
  simp only [BitVec.getLsbD_ushiftRight, BitVec.getLsbD_and, BitVec.getLsbD_not, high,
    Bool.not_false, Bool.and_true]
  by_cases inside : p + i < 64
  · simp [inside]
  · simp [inside, BitVec.getLsbD_of_ge x _ (Nat.not_lt.mp inside)]

/-- Masking the bits below a page gives its first address. -/
theorem toNat_and_not_mask (x : Word) (lt : p < 64) :
    (x &&& ~~~((↑(1 <<< p) : Word) - 1)).toNat = x.toNat / 2 ^ p * 2 ^ p := by
  have low : (x &&& ~~~((↑(1 <<< p) : Word) - 1)).toNat % 2 ^ p = 0 := by
    apply Nat.eq_of_testBit_eq
    intro i
    rw [Nat.testBit_mod_two_pow, Nat.zero_testBit]
    by_cases below : i < p
    · have mask : (2 ^ p - 1).testBit i = true := by
        rw [Nat.testBit_two_pow_sub_one]
        exact decide_eq_true below
      have cleared : (x &&& ~~~((↑(1 <<< p) : Word) - 1)).getLsbD i = false := by
        rw [BitVec.getLsbD_and, BitVec.getLsbD_not, BitVec.getLsbD, BitVec.getLsbD,
          toNat_pageMask lt, mask, Bool.not_true, Bool.and_false, Bool.and_false]
      rw [decide_eq_true below, Bool.true_and]
      exact cleared
    · rw [decide_eq_false below, Bool.false_and]
  have high := congrArg BitVec.toNat (shiftRight_and_not_mask x lt)
  rw [BitVec.toNat_ushiftRight, BitVec.toNat_ushiftRight, Nat.shiftRight_eq_div_pow,
    Nat.shiftRight_eq_div_pow] at high
  rw [← high, Nat.div_mul_cancel (Nat.dvd_of_mod_eq_zero low)]

end Lps

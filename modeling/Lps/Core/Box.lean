import Lps.Word

/-!
# Boxes

A sandbox owns one range of addresses.  The range is a range of integers: a box
never wraps around the end of the address space.
-/

namespace Lps.Core

/-- `struct LPSBoxInfo`: where a box is. -/
structure LPSBoxInfo where
  base : Word
  size : Word
  deriving DecidableEq

/-- The addresses of a box. -/
def LPSBoxInfo.bytes (box : LPSBoxInfo) : Set Nat :=
  bytesAt box.base box.size.toNat

/-- A box that does not wrap around the end of the address space. -/
structure BoxRange extends LPSBoxInfo where
  fits : base.toNat + size.toNat ≤ 2 ^ 64

/-- `lps_box_ptrvalid`. -/
def lpsBoxPtrvalid (box : LPSBoxInfo) (addr : Word) : Bool :=
  addr ≥ box.base && addr < box.base + box.size

/-- A valid pointer is an address of the box, and the end of a box that has one
does not wrap. -/
theorem lpsBoxPtrvalid_iff {box : BoxRange} {addr : Word} :
    lpsBoxPtrvalid box.toLPSBoxInfo addr = true ↔
      addr.toNat ∈ box.bytes ∧ box.base.toNat + box.size.toNat < 2 ^ 64 := by
  have fits := box.fits
  simp only [lpsBoxPtrvalid, LPSBoxInfo.bytes, bytesAt, Set.mem_Ico, Bool.and_eq_true,
    decide_eq_true_eq]
  constructor
  · rintro ⟨above, below⟩
    bv_omega
  · rintro ⟨⟨above, below⟩, noWrap⟩
    bv_omega

end Lps.Core

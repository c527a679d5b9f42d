import Mathlib.Data.BitVec
import Mathlib.Order.Interval.Set.LinearOrder

/-!
# Machine words and address ranges

Every `uintptr_t`, `size_t` and `uint64_t` of the source is a `Word`, and its
arithmetic is the source's arithmetic modulo `2 ^ 64`.  What a word range means
is stated over the integers: a buffer of `len` bytes at `addr` occupies
`addr, …, addr + len - 1` without wrapping around.
-/

namespace Lps

/-- A 64-bit machine word. -/
abbrev Word := BitVec 64

/-- A C `int`. -/
abbrev CInt := BitVec 32

/-- A byte of memory. -/
abbrev Byte := BitVec 8

/-- The addresses of the `len` bytes that start at `addr`, as integers. -/
def bytesAt (addr : Word) (len : Nat) : Set Nat :=
  Set.Ico addr.toNat (addr.toNat + len)

theorem bytesAt_subset_iff {addr : Word} {len lo hi : Nat} (pos : 0 < len) :
    bytesAt addr len ⊆ Set.Ico lo hi ↔ lo ≤ addr.toNat ∧ addr.toNat + len ≤ hi :=
  Set.Ico_subset_Ico_iff (by omega)

@[simp]
theorem bytesAt_zero (addr : Word) : bytesAt addr 0 = ∅ := by
  simp [bytesAt]

end Lps

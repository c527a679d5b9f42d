import Lps.Linux.PathCopy
import Lps.Linux.StackDecode

/-!
# The buffer of `sys_getcwd`

The number of bytes to copy is the smaller of two values that `MIN` narrows to `int`.  The copy and
the terminator are written to the addresses that the hardware computes, modulo `2 ^ 64`.
-/

namespace Lps.Linux

open Lps.Core

/-- `strnlen` of an array. -/
def strnlen (s : Nat → Byte) : Nat → Nat
  | 0 => 0
  | maxlen + 1 => if s 0 = 0 then 0 else strnlen (fun i => s (i + 1)) maxlen + 1

/-- The `len` bytes from `p` on. -/
def buffer (p len : Word) : Set Word := {addr | addr - p < len}

/-- `memcpy` of `len` bytes. -/
def memcpy (to_ : Word) (src : Nat → Byte) (len : Word) (mem : Word → Byte) (addr : Word) : Byte :=
  if addr - to_ < len then src (addr - to_).toNat else mem addr

/-- The length that `sys_getcwd` computes; `path` is `cwd.path` and what lies behind it. -/
def getcwdLen (path : Nat → Byte) (size : Word) : Word :=
  (cmin (size.setWidth 32)
    (BitVec.ofNat 32 (strnlen path (Path.FILENAME_MAX - 1) + 1))).signExtend 64

/-- `sys_getcwd`: what it returns, and the memory it leaves. -/
def sysGetcwd (box : LPSBoxInfo) (path : Nat → Byte) (bufp size : Word) (mem : Word → Byte) :
    Word × (Word → Byte) :=
  if size = 0 then (0, mem)
  else if bufhost box bufp size 1 = 0 then (-LINUX_EINVAL, mem)
  else
    let len := getcwdLen path size
    (len, Function.update (memcpy bufp path len mem) (bufp + (len - 1)) 0)

/-! ## The length -/

theorem strnlen_le {s : Nat → Byte} {maxlen : Nat} : strnlen s maxlen ≤ maxlen := by
  induction maxlen generalizing s with
  | zero => exact Nat.le_refl 0
  | succ maxlen ih =>
      rw [strnlen]
      split
      · exact Nat.zero_le _
      · exact Nat.succ_le_succ ih

/-- The characters before the measured length are no terminators. -/
theorem ne_zero_of_lt_strnlen {s : Nat → Byte} {maxlen i : Nat} (less : i < strnlen s maxlen) :
    s i ≠ 0 := by
  induction maxlen generalizing s i with
  | zero => exact absurd less (Nat.not_lt_zero i)
  | succ maxlen ih =>
      rw [strnlen] at less
      split at less
      · exact absurd less (Nat.not_lt_zero i)
      · rename_i first
        cases i with
        | zero => exact first
        | succ i =>
            have before : i < strnlen (fun i => s (i + 1)) maxlen := by omega
            exact @ih (fun i => s (i + 1)) i before

/-- A narrowed size that is negative as an `int` is extended with ones. -/
theorem getcwdLen_toNat {path : Nat → Byte} {size : Word} :
    (getcwdLen path size).toNat =
      if size.toNat % 2 ^ 32 < 2 ^ 31 then
        min (size.toNat % 2 ^ 32) (strnlen path (Path.FILENAME_MAX - 1) + 1)
      else 2 ^ 64 - 2 ^ 32 + size.toNat % 2 ^ 32 := by
  have short : strnlen path (Path.FILENAME_MAX - 1) ≤ 4095 := strnlen_le
  have narrow : (size.setWidth 32).toNat = size.toNat % 2 ^ 32 := BitVec.toNat_setWidth ..
  have wanted : (BitVec.ofNat 32 (strnlen path (Path.FILENAME_MAX - 1) + 1)).toNat =
      strnlen path (Path.FILENAME_MAX - 1) + 1 :=
    Nat.mod_eq_of_lt (by omega)
  have small : size.toNat % 2 ^ 32 < 2 ^ 32 := Nat.mod_lt _ (by decide)
  have wantedInt : (BitVec.ofNat 32 (strnlen path (Path.FILENAME_MAX - 1) + 1)).toInt =
      strnlen path (Path.FILENAME_MAX - 1) + 1 := by
    rw [BitVec.toInt_eq_toNat_of_lt (by omega), wanted]
    rfl
  have extended : (getcwdLen path size).toInt = min (size.setWidth 32).toInt
      (strnlen path (Path.FILENAME_MAX - 1) + 1) := by
    rw [getcwdLen, BitVec.toInt_signExtend_of_le (by decide), ThreadArgs.cmin_toInt, wantedInt]
  rw [BitVec.toInt_eq_toNat_cond, BitVec.toInt_eq_toNat_cond, narrow] at extended
  have bound := (getcwdLen path size).isLt
  split
  · rename_i positive
    rw [if_pos (show 2 * (size.toNat % 2 ^ 32) < 2 ^ 32 by omega)] at extended
    split at extended
    · omega
    · omega
  · rename_i negative
    rw [if_neg (show ¬2 * (size.toNat % 2 ^ 32) < 2 ^ 32 by omega)] at extended
    split at extended
    · omega
    · omega

/-! ## The buffer -/

/-- The first `len - 1` characters of the current directory and a terminator are in memory. -/
structure HoldsCwd (mem : Word → Byte) (path : Nat → Byte) (bufp len : Word) : Prop where
  chars : ∀ i < len.toNat - 1, path i ≠ 0 ∧ mem (bufp + BitVec.ofNat 64 i) = path i
  nul : mem (bufp + (len - 1)) = 0

/-- `sys_getcwd` writes to its buffer only, and a positive return value tells what is there. -/
def CwdInBuffer (box : LPSBoxInfo) (path : Nat → Byte) (bufp size : Word) : Prop :=
  ∀ mem, (∀ addr ∉ buffer bufp size, (sysGetcwd box path bufp size mem).2 addr = mem addr) ∧
    (0 < (sysGetcwd box path bufp size mem).1.toInt →
      (sysGetcwd box path bufp size mem).1 ≤ size ∧
        HoldsCwd (sysGetcwd box path bufp size mem).2 path bufp (sysGetcwd box path bufp size mem).1)

/-- The sizes with which `sys_getcwd` stays in its buffer. -/
def SizeServed (size : Word) : Prop :=
  (0 < size.toNat % 2 ^ 32 ∧ size.toNat % 2 ^ 32 < 2 ^ 31) ∨ 2 ^ 64 - 2 ^ 31 ≤ size.toNat

section Buffer

variable {box : LPSBoxInfo} {path : Nat → Byte} {bufp size len addr : Word} {mem : Word → Byte}

/-- The sizes that are served are those from which the length is none, and not longer. -/
theorem sizeServed_iff :
    SizeServed size ↔ 0 < (getcwdLen path size).toNat ∧ getcwdLen path size ≤ size := by
  have length := @getcwdLen_toNat path size
  have bound := size.isLt
  rw [SizeServed, BitVec.le_def]
  split at length
  · omega
  · omega

/-- What the copy and the terminator leave alone. -/
theorem update_memcpy_of_notMem (pos : 0 < len.toNat) (outside : addr ∉ buffer bufp len) :
    Function.update (memcpy bufp path len mem) (bufp + (len - 1)) 0 addr = mem addr := by
  have far : ¬addr - bufp < len := outside
  have other : addr ≠ bufp + (len - 1) := by bv_omega
  rw [Function.update_of_ne other, memcpy, if_neg far]

/-- The length is not negative: the copy is made of characters before the terminator. -/
theorem holdsCwd_of_le (pos : 0 < len.toNat) (short : len.toNat ≤ strnlen path (Path.FILENAME_MAX - 1) + 1) :
    HoldsCwd (Function.update (memcpy bufp path len mem) (bufp + (len - 1)) 0) path bufp len := by
  constructor
  · intro i less
    have bound := len.isLt
    have index : (BitVec.ofNat 64 i).toNat = i := Nat.mod_eq_of_lt (by omega)
    have other : bufp + BitVec.ofNat 64 i ≠ bufp + (len - 1) := by bv_omega
    have inside : bufp + BitVec.ofNat 64 i - bufp = BitVec.ofNat 64 i := by bv_omega
    have below : BitVec.ofNat 64 i < len := by bv_omega
    refine ⟨@ne_zero_of_lt_strnlen path (Path.FILENAME_MAX - 1) i (by omega), ?_⟩
    rw [Function.update_of_ne other, memcpy, inside, if_pos below, index]
  · exact Function.update_self ..

/-- A served buffer. -/
theorem cwdInBuffer_of_served (served : SizeServed size) (nonzero : size ≠ 0)
    (accepted : bufhost box bufp size 1 ≠ 0) : CwdInBuffer box path bufp size := by
  obtain ⟨pos, le⟩ := (@sizeServed_iff path size).mp served
  intro mem
  rw [sysGetcwd, if_neg nonzero, if_neg accepted]
  constructor
  · intro addr outside
    refine update_memcpy_of_notMem pos fun inside => outside ?_
    have within : addr - bufp < getcwdLen path size := inside
    change addr - bufp < size
    bv_omega
  · intro positive
    refine ⟨le, holdsCwd_of_le pos ?_⟩
    have length := @getcwdLen_toNat path size
    have sign := BitVec.toInt_eq_toNat_cond (getcwdLen path size)
    dsimp only at positive
    split at length
    · omega
    · split at sign
      · omega
      · omega

/-- A buffer that is not served: an address outside of it is written. -/
theorem served_of_cwdInBuffer (nonzero : size ≠ 0) (accepted : bufhost box bufp size 1 ≠ 0)
    (inBuffer : CwdInBuffer box path bufp size) : SizeServed size := by
  rw [@sizeServed_iff path]
  by_contra unserved
  -- The terminator goes before the buffer, or the copy and the terminator go behind it.
  obtain ⟨addr, value, outside, written⟩ : ∃ addr value, addr ∉ buffer bufp size ∧
      ∀ mem, (sysGetcwd box path bufp size mem).2 addr = value := by
    simp only [sysGetcwd, if_neg nonzero, if_neg accepted]
    by_cases last : getcwdLen path size = 0 ∨ getcwdLen path size = size + 1
    · refine ⟨bufp + (getcwdLen path size - 1), 0, ?_, fun mem => Function.update_self ..⟩
      change ¬bufp + (getcwdLen path size - 1) - bufp < size
      bv_omega
    · refine ⟨bufp + size, path size.toNat, ?_, fun mem => ?_⟩
      · change ¬bufp + size - bufp < size
        bv_omega
      · have other : bufp + size ≠ bufp + (getcwdLen path size - 1) := by bv_omega
        have offset : bufp + size - bufp = size := by bv_omega
        have below : size < getcwdLen path size := by bv_omega
        rw [Function.update_of_ne other, memcpy, offset, if_pos below]
  have kept := (inBuffer fun _ => value + 1).1 addr outside
  rw [written] at kept
  have bound := value.isLt
  bv_omega

end Buffer

/-- `sys_getcwd` stays in its buffer exactly when the buffer is empty or refused, or its size narrowed
to `int` is positive, or is negative and is not changed by the extension. -/
theorem getcwd_inBuffer_iff (box : LPSBoxInfo) (path : Nat → Byte) (bufp size : Word) :
    CwdInBuffer box path bufp size ↔
      size = 0 ∨ bufhost box bufp size 1 = 0 ∨ SizeServed size := by
  by_cases empty : size = 0
  · apply iff_of_true _ (.inl empty)
    intro mem
    rw [sysGetcwd, if_pos empty]
    exact ⟨fun _ _ => rfl, fun positive => absurd positive (Int.lt_irrefl 0)⟩
  by_cases refused : bufhost box bufp size 1 = 0
  · apply iff_of_true _ (.inr (.inl refused))
    intro mem
    rw [sysGetcwd, if_neg empty, if_pos refused]
    have negative : ¬0 < (-LINUX_EINVAL).toInt := by decide
    exact ⟨fun _ _ => rfl, fun positive => absurd positive negative⟩
  · constructor
    · exact fun inBuffer => .inr (.inr (served_of_cwdInBuffer empty refused inBuffer))
    · rintro (zero | zero | served)
      · exact absurd zero empty
      · exact absurd zero refused
      · exact cwdInBuffer_of_served served empty refused

/-- A buffer of `2 ^ 32` bytes in a box of twice that size: the byte before it is overwritten. -/
theorem getcwd_writes_before_buffer :
    ¬∀ (box : LPSBoxInfo) (path : Nat → Byte) (bufp size : Word), CwdInBuffer box path bufp size := by
  intro claim
  have inBuffer := claim ⟨0x100000000, 0x200000000⟩ (fun i => if i = 0 then 47 else 0) 0x100001000
    0x100000000
  have kept := (inBuffer fun _ => 1).1 0x100000fff (by
    change ¬((0x100000fff : Word) - 0x100001000 < 0x100000000)
    decide)
  revert kept
  decide

end Lps.Linux

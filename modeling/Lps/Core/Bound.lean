import Lps.Core.Box
import Mathlib.Logic.Function.Basic

/-!
# DASICS bounds

The bound pairs of a context and the configuration words that enable them, four
bits for each pair.  The configuration is computed in 32-bit `int` arithmetic
and widened to 64 bits with its sign, as the C code does.
-/

namespace Lps.Core

def LIBCFG_W : CInt := 1

def LIBCFG_R : CInt := 2

def LIBCFG_V : CInt := 8

def JMPCFG_V : CInt := 1

/-- A shift of an `int` on the 64-bit machine uses the low five bits of the
distance. -/
def intShl (x : CInt) (distance : Nat) : CInt := x <<< (distance % 32)

/-- The bound registers in `struct LPSRegs`. -/
structure BoundRegs where
  memcfg : Word
  membound : Fin 16 → Word × Word
  jmpcfg : Word
  jmpbound : Fin 4 → Word × Word

/-- All bounds off, as a context starts out. -/
def BoundRegs.zero : BoundRegs where
  memcfg := 0
  membound := fun _ => (0, 0)
  jmpcfg := 0
  jmpbound := fun _ => (0, 0)

/-- Replace the four configuration bits of pair `idx`. -/
def setCfg (cfg : Word) (idx : Nat) (bits : CInt) : Word :=
  let mask := (~~~(intShl 0xf (idx * 4))).signExtend 64
  (cfg &&& mask) ||| (intShl bits (idx * 4)).signExtend 64

/-- `lps_membound_set`. -/
def lpsMemboundSet (regs : BoundRegs) (idx : Fin 16) (prot : CInt) (low high : Word) :
    BoundRegs :=
  { regs with
    membound := Function.update regs.membound idx (low, high)
    memcfg := setCfg regs.memcfg idx (prot ||| LIBCFG_V) }

/-- Clear the four configuration bits of pair `idx`. -/
def clearCfg (cfg : Word) (idx : Nat) : Word :=
  let mask := (~~~(intShl 0xf (idx * 4))).signExtend 64
  cfg &&& mask

/-- `lps_membound_clear`. -/
def lpsMemboundClear (regs : BoundRegs) (idx : Fin 16) : BoundRegs :=
  { regs with
    membound := Function.update regs.membound idx (0, 0)
    memcfg := clearCfg regs.memcfg idx }

/-- `lps_jmpbound_set`. -/
def lpsJmpboundSet (regs : BoundRegs) (idx : Fin 4) (low high : Word) : BoundRegs :=
  { regs with
    jmpbound := Function.update regs.jmpbound idx (low, high)
    jmpcfg := setCfg regs.jmpcfg idx JMPCFG_V }

/-- `lps_jmpbound_clear`. -/
def lpsJmpboundClear (regs : BoundRegs) (idx : Fin 4) : BoundRegs :=
  { regs with
    jmpbound := Function.update regs.jmpbound idx (0, 0)
    jmpcfg := clearCfg regs.jmpcfg idx }

/-- Whether memory bound `idx` is enabled. -/
def BoundRegs.memEnabled (regs : BoundRegs) (idx : Fin 16) : Bool :=
  regs.memcfg.getLsbD (idx * 4 + 3)

/-- Whether jump bound `idx` is enabled. -/
def BoundRegs.jmpEnabled (regs : BoundRegs) (idx : Fin 4) : Bool :=
  regs.jmpcfg.getLsbD (idx * 4)

/-- The addresses between two limits; the upper limit is excluded. -/
def window (limits : Word × Word) : Set Nat :=
  Set.Ico limits.1.toNat limits.2.toNat

/-- The addresses an enabled bound admits. -/
def BoundRegs.Admits (regs : BoundRegs) (addr : Nat) : Prop :=
  (∃ idx, regs.memEnabled idx = true ∧ addr ∈ window (regs.membound idx)) ∨
  ∃ idx, regs.jmpEnabled idx = true ∧ addr ∈ window (regs.jmpbound idx)

/-- The bounds that `lps_ctx_new` and `lps_thread_new` set: bound `0` of each
kind covers the box from `low` to `high`. -/
def boundBox (regs : BoundRegs) (low high : Word) : BoundRegs :=
  lpsJmpboundSet (lpsMemboundSet regs 0 (LIBCFG_R ||| LIBCFG_W) low high) 0 low high

/-- Only bound `0` of each kind is enabled, and it covers the box. -/
structure BoundRegs.Covers (regs : BoundRegs) (low high : Word) : Prop where
  memcfg : regs.memcfg = 0xb
  jmpcfg : regs.jmpcfg = 0x1
  membound : regs.membound 0 = (low, high)
  jmpbound : regs.jmpbound 0 = (low, high)

theorem boundBox_zero (low high : Word) : (boundBox .zero low high).Covers low high where
  memcfg := by
    simp only [boundBox, lpsJmpboundSet, lpsMemboundSet, BoundRegs.zero]
    decide
  jmpcfg := by
    simp only [boundBox, lpsJmpboundSet, lpsMemboundSet, BoundRegs.zero]
    decide
  membound := rfl
  jmpbound := rfl

/-- Setting the bounds again. -/
theorem BoundRegs.Covers.boundBox {regs : BoundRegs} {low high : Word}
    (covers : regs.Covers low high) : (boundBox regs low high).Covers low high where
  memcfg := by
    simp only [Core.boundBox, lpsJmpboundSet, lpsMemboundSet, covers.memcfg]
    decide
  jmpcfg := by
    simp only [Core.boundBox, lpsJmpboundSet, lpsMemboundSet, covers.jmpcfg]
    decide
  membound := by simp [Core.boundBox, lpsJmpboundSet, lpsMemboundSet]
  jmpbound := by simp [Core.boundBox, lpsJmpboundSet, lpsMemboundSet]

namespace BoundRegs.Covers

variable {regs : BoundRegs} {low high : Word}

theorem memEnabled (covers : regs.Covers low high) {idx : Fin 16}
    (enabled : regs.memEnabled idx = true) : idx = 0 := by
  rw [BoundRegs.memEnabled, covers.memcfg] at enabled
  revert idx
  decide

theorem jmpEnabled (covers : regs.Covers low high) {idx : Fin 4}
    (enabled : regs.jmpEnabled idx = true) : idx = 0 := by
  rw [BoundRegs.jmpEnabled, covers.jmpcfg] at enabled
  revert idx
  decide

/-- Every enabled window is the window of the box. -/
theorem window_eq (covers : regs.Covers low high) :
    (∀ idx, regs.memEnabled idx = true → window (regs.membound idx) = window (low, high)) ∧
    (∀ idx, regs.jmpEnabled idx = true → window (regs.jmpbound idx) = window (low, high)) := by
  constructor
  · intro idx enabled
    rw [covers.memEnabled enabled, covers.membound]
  · intro idx enabled
    rw [covers.jmpEnabled enabled, covers.jmpbound]

end BoundRegs.Covers

end Lps.Core

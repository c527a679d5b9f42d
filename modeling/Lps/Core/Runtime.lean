import Lps.Asm.Code

/-!
# The assembly of the runtime

The routines of `runtime.S` with the offsets of `arch_asm.h` and the control
register numbers of `ucsr.h`, and one lemma for each routine that says what it
does to a context record and to the registers.
-/

namespace Lps.Core

open Lps.Asm

/-! ## Offsets into `struct LPSContext` -/

def OFFSET_KSP : Nat := 0
def OFFSET_KGP : Nat := 8
def OFFSET_KTP : Nat := 16

/-- `OFFSET_RA` to `OFFSET_T6`. -/
def OFFSET : Reg → Nat
  | .ra => 40 | .sp => 48 | .gp => 56 | .tp => 64
  | .t0 => 72 | .t1 => 80 | .t2 => 88
  | .s0 => 96 | .s1 => 104
  | .a0 => 112 | .a1 => 120 | .a2 => 128 | .a3 => 136
  | .a4 => 144 | .a5 => 152 | .a6 => 160 | .a7 => 168
  | .s2 => 176 | .s3 => 184 | .s4 => 192 | .s5 => 200 | .s6 => 208
  | .s7 => 216 | .s8 => 224 | .s9 => 232 | .s10 => 240 | .s11 => 248
  | .t3 => 256 | .t4 => 264 | .t5 => 272 | .t6 => 280

def OFFSET_UEPC : Nat := 544
def OFFSET_UCAUSE : Nat := 552
def OFFSET_UTVAL : Nat := 560
def OFFSET_DFREN : Nat := 568

def OFFSET_MEMCFG : Nat := 576
/-- `OFFSET_MEMBOUNDiLO` and, for `hi = 1`, `OFFSET_MEMBOUNDiHI`. -/
def OFFSET_MEMBOUND (i hi : Nat) : Nat := OFFSET_MEMCFG + 8 * (2 * i + hi + 1)
def OFFSET_JMPCFG : Nat := OFFSET_MEMBOUND 15 1 + 8
/-- `OFFSET_JMPBOUNDiLO` and, for `hi = 1`, `OFFSET_JMPBOUNDiHI`. -/
def OFFSET_JMPBOUND (i hi : Nat) : Nat := OFFSET_JMPCFG + 8 * (2 * i + hi + 1)

/-- `offsetof(struct LPSContext, kregs)`: the size of `struct LPSRegs`. -/
def OFFSET_KREGS : Nat := 912

/-- `CONTEXT_RA` to `CONTEXT_S11`. -/
def kregsSlots : List (Reg × Nat) :=
  [(.ra, 0), (.sp, 8), (.s0, 16), (.s1, 24), (.s2, 32), (.s3, 40), (.s4, 48), (.s5, 56),
    (.s6, 64), (.s7, 72), (.s8, 80), (.s9, 88), (.s10, 96), (.s11, 104)]

def CONTEXT_RA : Nat := 0
def CONTEXT_SP : Nat := 8

/-! ## Control registers -/

def CSR_USCRATCH : Nat := 0x040
def CSR_UEPC : Nat := 0x041
def CSR_UCAUSE : Nat := 0x042
def CSR_UTVAL : Nat := 0x043
def CSR_UTIMECMP : Nat := 0x045
def CSR_DLCFG : Nat := 0x880
/-- `CSR_DLBOUNDiLO` and, for `hi = 1`, `CSR_DLBOUNDiHI`. -/
def CSR_DLBOUND (i hi : Nat) : Nat := 0x890 + (2 * i + hi)
def CSR_DFREASON : Nat := 0x8b3
/-- `CSR_DJBOUNDiLO` and, for `hi = 1`, `CSR_DJBOUNDiHI`. -/
def CSR_DJBOUND (i hi : Nat) : Nat := 0x8c0 + (2 * i + hi)
def CSR_DJCFG : Nat := 0x8c8

/-! ## The routines -/

/-- The registers that `SAVE_ALL` stores as they are: all but `s0`, which has been
swapped with `uscratch`. -/
def savedRegs : List Reg :=
  [.ra, .sp, .gp, .tp, .t0, .t1, .t2, .s1, .a0, .a1, .a2, .a3, .a4, .a5, .a6, .a7,
    .s2, .s3, .s4, .s5, .s6, .s7, .s8, .s9, .s10, .s11, .t3, .t4, .t5, .t6]

/-- What `SAVE_ALL` stores through `t0`. -/
def savedCsrs : List CsrSlot :=
  [⟨OFFSET .s0, CSR_USCRATCH⟩, ⟨OFFSET_UEPC, CSR_UEPC⟩, ⟨OFFSET_UCAUSE, CSR_UCAUSE⟩,
    ⟨OFFSET_UTVAL, CSR_UTVAL⟩, ⟨OFFSET_DFREN, CSR_DFREASON⟩]

/-- The stack pointer, global pointer and thread pointer of the runtime. -/
def hostSlots : List (Reg × Nat) := [(.sp, OFFSET_KSP), (.gp, OFFSET_KGP), (.tp, OFFSET_KTP)]

/-- Each register with its offset. -/
def regSlots (regs : List Reg) : List (Reg × Nat) := regs.map fun r => (r, OFFSET r)

/-- `SAVE_ALL`. -/
def saveAll : List Instr :=
  .csrrw .s0 CSR_USCRATCH .s0 ::
    (saves (regSlots savedRegs) .s0 ++ (saveCsrs savedCsrs .t0 .s0 ++ loads hostSlots .s0))

/-- The registers that `RESTORE_ALL` loads before the base register itself. -/
def restoredRegs : List Reg :=
  [.ra, .sp, .gp, .tp, .t0, .t1, .t2, .s0, .s1, .a1, .a2, .a3, .a4, .a5, .a6, .a7,
    .s2, .s3, .s4, .s5, .s6, .s7, .s8, .s9, .s10, .s11, .t3, .t4, .t5, .t6]

/-- `RESTORE_ALL`, up to its `uret`. -/
def restoreAll : List Instr :=
  .csrw CSR_USCRATCH .a0 :: .ld .t0 OFFSET_UEPC .a0 :: .csrw CSR_UEPC .t0 ::
    (loads (regSlots restoredRegs) .a0 ++ [.ld .a0 (OFFSET .a0) .a0])

/-- `lps_ctx_entry`. -/
def lpsCtxEntry : List Instr := saves hostSlots .a0 ++ restoreAll

/-- `kswitch`, up to its `ret`. -/
def kswitch : List Instr := saves kregsSlots .a1 ++ loads kregsSlots .a2

/-- The cells that `lps_load_dasics` copies, two at a time. -/
def dasicsPairs : List (CsrSlot × CsrSlot) :=
  ((List.range 16).map fun i =>
    (⟨OFFSET_MEMBOUND i 0, CSR_DLBOUND i 0⟩, ⟨OFFSET_MEMBOUND i 1, CSR_DLBOUND i 1⟩)) ++
  ((List.range 4).map fun i =>
    (⟨OFFSET_JMPBOUND i 0, CSR_DJBOUND i 0⟩, ⟨OFFSET_JMPBOUND i 1, CSR_DJBOUND i 1⟩)) ++
  [(⟨OFFSET_MEMCFG, CSR_DLCFG⟩, ⟨OFFSET_JMPCFG, CSR_DJCFG⟩)]

/-- `lps_load_dasics`, up to its `ret`. -/
def lpsLoadDasics : List Instr :=
  .csrr .t6 CSR_DLCFG :: dasicsPairs.flatMap (copyPair .a0 .t0 .t1)

/-! ## What the routines do

The record of a context starts at a pointer with offset 0. -/

section Specs

variable {β ℓ : Type} [DecidableEq β] {s : State β ℓ} {ctx : β}

/-- The cells that the traps of a context write: those of its user registers and
of the cause of the trap. -/
def UserCell (off : Nat) : Prop := OFFSET .ra ≤ off ∧ off ≤ OFFSET_DFREN

theorem OFFSET_mem_savedRegs {r : Reg} (other : r ≠ .s0) :
    (r, OFFSET r) ∈ regSlots savedRegs := by
  cases r <;> first | exact absurd rfl other | decide

theorem OFFSET_mem_restoredRegs {r : Reg} (other : r ≠ .a0) :
    (r, OFFSET r) ∈ regSlots restoredRegs := by
  cases r <;> first | exact absurd rfl other | decide

theorem OFFSET_ne_savedCsrs {r : Reg} (other : r ≠ .s0) :
    ∀ slot ∈ savedCsrs, OFFSET r ≠ slot.off := by
  cases r <;> first | exact absurd rfl other | decide

theorem userCell_savedRegs : ∀ slot ∈ regSlots savedRegs, UserCell slot.2 := by
  unfold UserCell
  decide

theorem userCell_savedCsrs : ∀ slot ∈ savedCsrs, UserCell slot.off := by
  unfold UserCell
  decide

/-- What `SAVE_ALL` does when `uscratch` holds the record of the context. -/
structure SavedAll (ctx : β) (s s' : State β ℓ) : Prop where
  regs : ∀ r, s'.mem ctx (OFFSET r) = s.regs r
  causes : s'.mem ctx OFFSET_UEPC = s.csrs CSR_UEPC ∧
    s'.mem ctx OFFSET_UCAUSE = s.csrs CSR_UCAUSE ∧
    s'.mem ctx OFFSET_DFREN = s.csrs CSR_DFREASON
  cells : ∀ off, ¬UserCell off → s'.mem ctx off = s.mem ctx off
  blocks : ∀ b, b ≠ ctx → s'.mem b = s.mem b
  s0 : s'.regs .s0 = .ptr ctx 0
  host : s'.regs .sp = s.mem ctx OFFSET_KSP ∧ s'.regs .tp = s.mem ctx OFFSET_KTP
  csrs : ∀ csr, csr ≠ CSR_USCRATCH → s'.csrs csr = s.csrs csr

theorem saveAll_spec (uscratch : s.csrs CSR_USCRATCH = .ptr ctx 0) :
    ∃ s', exec s saveAll = some s' ∧ SavedAll ctx s s' := by
  -- The state after each of the four parts.
  obtain ⟨swapped, swap⟩ : ∃ swapped, swapped =
      (s.setCsr CSR_USCRATCH (s.regs .s0)).setReg .s0 (s.csrs CSR_USCRATCH) := ⟨_, rfl⟩
  have base : swapped.regs .s0 = .ptr ctx 0 := by simp [swap, uscratch]
  obtain ⟨mem, stores, stored⟩ :=
    exec_saves (s := swapped) (regSlots savedRegs) base (by decide)
  obtain ⟨regs, mem', csrStores, regsKept, csrsStored⟩ :=
    exec_saveCsrs (s := { swapped with mem := mem }) (t := .t0) base (by decide)
      (by decide : (savedCsrs.map CsrSlot.off).Nodup)
  have base' : regs .s0 = .ptr ctx 0 := (regsKept .s0 (by decide)).trans base
  obtain ⟨regs', hostLoads, loaded, hostKept⟩ :=
    exec_loads (s := ⟨regs, swapped.csrs, mem'⟩) hostSlots base' (by decide)
      (by decide)
  refine ⟨⟨regs', swapped.csrs, mem'⟩, ?_, ?_⟩
  · rw [saveAll, exec, Instr.exec, Option.bind_some, ← swap, exec_append, stores,
      Option.bind_some, exec_append, csrStores, Option.bind_some, hostLoads]
  simp only [Nat.zero_add] at stored csrsStored loaded
  have otherCells : ∀ off, ¬UserCell off → mem' ctx off = s.mem ctx off := by
    intro off outside
    rw [csrsStored.kept off, stored.kept off, swap]
    · rfl
    · rintro slot mem same
      rw [Nat.zero_add] at same
      exact outside (same ▸ userCell_savedRegs slot mem)
    · rintro slot mem same
      rw [Nat.zero_add] at same
      exact outside (same ▸ userCell_savedCsrs slot mem)
  have cause : ∀ slot ∈ savedCsrs, slot.csr ≠ CSR_USCRATCH →
      mem' ctx slot.off = s.csrs slot.csr := by
    intro slot mem other
    have found := csrsStored.stored slot mem
    rw [Nat.zero_add] at found
    rw [found, swap, State.setReg_csrs, State.setCsr_of_ne _ _ _ other]
  have userRegs : ∀ r, mem' ctx (OFFSET r) = s.regs r := by
    intro r
    by_cases isS0 : r = .s0
    · subst isS0
      have found := csrsStored.stored ⟨OFFSET .s0, CSR_USCRATCH⟩ (by decide)
      rw [Nat.zero_add] at found
      rw [found, swap, State.setReg_csrs, State.setCsr_self]
    · have found := stored.stored (r, OFFSET r) (OFFSET_mem_savedRegs isS0)
      rw [Nat.zero_add] at found
      rw [csrsStored.kept _ (by simpa using OFFSET_ne_savedCsrs isS0), found, swap,
        State.setReg_of_ne _ _ _ isS0, State.setCsr_regs]
  have hostCell : ∀ slot ∈ hostSlots, regs' slot.1 = s.mem ctx slot.2 := by
    intro slot mem
    have outside : ∀ slot ∈ hostSlots, ¬UserCell slot.2 := by
      unfold UserCell
      decide
    rw [loaded slot mem]
    exact otherCells slot.2 (outside slot mem)
  constructor
  · exact userRegs
  · exact ⟨cause ⟨OFFSET_UEPC, CSR_UEPC⟩ (by decide) (by decide),
      cause ⟨OFFSET_UCAUSE, CSR_UCAUSE⟩ (by decide) (by decide),
      cause ⟨OFFSET_DFREN, CSR_DFREASON⟩ (by decide) (by decide)⟩
  · exact otherCells
  · intro b other
    refine (csrsStored.blocks b other).trans ((stored.blocks b other).trans ?_)
    rw [swap]
    rfl
  · exact (hostKept .s0 (by decide)).trans base'
  · exact ⟨hostCell (.sp, OFFSET_KSP) (by decide), hostCell (.tp, OFFSET_KTP) (by decide)⟩
  · intro csr other
    simp [swap, other]

/-- What `RESTORE_ALL` does when `a0` holds the record of the context. -/
structure RestoredAll (ctx : β) (s s' : State β ℓ) : Prop where
  regs : ∀ r, s'.regs r = s.mem ctx (OFFSET r)
  uscratch : s'.csrs CSR_USCRATCH = .ptr ctx 0
  uepc : s'.csrs CSR_UEPC = s.mem ctx OFFSET_UEPC
  csrs : ∀ csr, csr ≠ CSR_USCRATCH → csr ≠ CSR_UEPC → s'.csrs csr = s.csrs csr
  mem : s'.mem = s.mem

theorem restoreAll_spec (record : s.regs .a0 = .ptr ctx 0) :
    ∃ s', exec s restoreAll = some s' ∧ RestoredAll ctx s s' := by
  obtain ⟨head, first⟩ : ∃ head, head = ((s.setCsr CSR_USCRATCH (s.regs .a0)).setReg .t0
      (s.mem ctx OFFSET_UEPC)).setCsr CSR_UEPC (s.mem ctx OFFSET_UEPC) := ⟨_, rfl⟩
  have base : head.regs .a0 = .ptr ctx 0 := by simp [first, record]
  obtain ⟨regs, userLoads, loaded, kept⟩ :=
    exec_loads (s := head) (regSlots restoredRegs) base (by decide) (by decide)
  have base' : regs .a0 = .ptr ctx 0 := (kept .a0 (by decide)).trans base
  have sameMem : head.mem = s.mem := by rw [first]; rfl
  refine ⟨State.setReg ⟨regs, head.csrs, head.mem⟩ .a0 (s.mem ctx (OFFSET .a0)), ?_, ?_⟩
  · have start : exec s [.csrw CSR_USCRATCH .a0, .ld .t0 OFFSET_UEPC .a0, .csrw CSR_UEPC .t0] =
        some head := by
      simp [first, exec, Instr.exec, record]
    have split : restoreAll = [.csrw CSR_USCRATCH .a0, .ld .t0 OFFSET_UEPC .a0,
        .csrw CSR_UEPC .t0] ++ (loads (regSlots restoredRegs) .a0 ++ [.ld .a0 (OFFSET .a0) .a0]) :=
      rfl
    rw [split, exec_append, start, Option.bind_some, exec_append, userLoads, Option.bind_some]
    simp [exec, Instr.exec, base', sameMem]
  constructor
  · intro r
    by_cases isA0 : r = .a0
    · subst isA0
      exact State.setReg_self ..
    · rw [State.setReg_of_ne _ _ _ isA0]
      have found := loaded (r, OFFSET r) (OFFSET_mem_restoredRegs isA0)
      rw [Nat.zero_add, sameMem] at found
      exact found
  · rw [State.setReg_csrs, first, ← record]
    simp [CSR_USCRATCH, CSR_UEPC]
  · rw [State.setReg_csrs, first, State.setCsr_self]
  · intro csr notScratch notEpc
    rw [State.setReg_csrs, first]
    simp [notScratch, notEpc]
  · exact sameMem

/-- `lps_ctx_entry` records the stack, global and thread pointer and enters the
context. -/
theorem lpsCtxEntry_spec (record : s.regs .a0 = .ptr ctx 0) :
    ∃ s', exec s lpsCtxEntry = some s' ∧ (∀ r, s'.regs r = s.mem ctx (OFFSET r)) ∧
      s'.csrs CSR_USCRATCH = .ptr ctx 0 ∧ s'.csrs CSR_UEPC = s.mem ctx OFFSET_UEPC ∧
      (∀ csr, csr ≠ CSR_USCRATCH → csr ≠ CSR_UEPC → s'.csrs csr = s.csrs csr) ∧
      Stored hostSlots Prod.snd (fun slot => s.regs slot.1) ctx 0 s.mem s'.mem := by
  obtain ⟨mem, hostStores, stored⟩ :=
    exec_saves hostSlots record (by decide)
  obtain ⟨s', restores, restored⟩ := restoreAll_spec (s := { s with mem := mem }) record
  have kept : ∀ off, OFFSET .ra ≤ off → mem ctx off = s.mem ctx off := by
    intro off above
    apply stored.kept
    have below : ∀ slot ∈ hostSlots, slot.2 < OFFSET .ra := by decide
    rintro slot inSlots same
    have := below slot inSlots
    omega
  have above : ∀ r, OFFSET .ra ≤ OFFSET r := by
    intro r
    cases r <;> decide
  refine ⟨s', ?_, ?_, restored.uscratch, ?_, restored.csrs, ?_⟩
  · rw [lpsCtxEntry, exec_append, hostStores, Option.bind_some, restores]
  · exact fun r => (restored.regs r).trans (kept _ (above r))
  · exact restored.uepc.trans (kept _ (by decide))
  · rwa [restored.mem]

/-- `kswitch` stores the callee-saved registers in the old context and loads those
of the new one. -/
theorem kswitch_spec {old new : β} {o o' : Nat} (atOld : s.regs .a1 = .ptr old o)
    (atNew : s.regs .a2 = .ptr new o') (apart : new ≠ old) :
    ∃ regs mem, exec s kswitch = some ⟨regs, s.csrs, mem⟩ ∧
      Stored kregsSlots Prod.snd (fun slot => s.regs slot.1) old o s.mem mem ∧
      (∀ slot ∈ kregsSlots, regs slot.1 = s.mem new (o' + slot.2)) ∧
      ∀ r, r ∉ kregsSlots.map Prod.fst → regs r = s.regs r := by
  obtain ⟨mem, stores, stored⟩ := exec_saves kregsSlots atOld (by decide)
  obtain ⟨regs, newLoads, loaded, kept⟩ :=
    exec_loads (s := { s with mem := mem }) kregsSlots atNew (by decide) (by decide)
  refine ⟨regs, mem, ?_, stored, ?_, kept⟩
  · rw [kswitch, exec_append, stores, Option.bind_some, newLoads]
  · intro slot inSlots
    rw [loaded slot inSlots]
    exact congrFun (stored.blocks new apart) _

/-- The control registers that hold the bounds and the configuration. -/
def DasicsCsr (csr : Nat) : Prop := csr ∈ (pairSlots dasicsPairs).map CsrSlot.csr

/-- All bound and configuration registers hold what the record says. -/
def DasicsLoaded (csrs : Nat → Val β ℓ) (record : Nat → Val β ℓ) : Prop :=
  ∀ slot ∈ pairSlots dasicsPairs, csrs slot.csr = record slot.off

theorem lpsLoadDasics_spec (record : s.regs .a0 = .ptr ctx 0) :
    ∃ s', exec s lpsLoadDasics = some s' ∧ DasicsLoaded s'.csrs (s.mem ctx) ∧ s'.mem = s.mem ∧
      (∀ r, r ≠ .t0 → r ≠ .t1 → r ≠ .t6 → s'.regs r = s.regs r) ∧
      ∀ csr, ¬DasicsCsr csr → s'.csrs csr = s.csrs csr := by
  have base : (s.setReg .t6 (s.csrs CSR_DLCFG)).regs .a0 = .ptr ctx 0 := by simp [record]
  obtain ⟨regs, csrs, copies, kept, copied, others⟩ :=
    exec_copyPairs dasicsPairs base (by decide) (by decide)
      (by decide : Reg.t0 ≠ .t1) (by decide)
  refine ⟨⟨regs, csrs, s.mem⟩, ?_, ?_, rfl, ?_, others⟩
  · rw [lpsLoadDasics, exec, Instr.exec, Option.bind_some, copies]
    rfl
  · intro slot inSlots
    have found := copied slot inSlots
    rwa [Nat.zero_add] at found
  · intro r notT0 notT1 notT6
    exact (kept r notT0 notT1).trans (State.setReg_of_ne _ _ _ notT6)

end Specs

end Lps.Core

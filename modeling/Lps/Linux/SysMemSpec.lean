import Lps.Linux.ProcSpec
import Lps.Linux.SysMem

/-!
# What the memory system calls do to the host and to the runtime

A range that wraps around the end of the address space passes the tests of the
box; apart from that, the calls of a loaded process reach the host with addresses
of its box only.  The runtime goes down on a range that does not pass an
assertion, on an empty region of the tracker, and on a descriptor that is not
open.
-/

namespace Lps.Linux

open Lps.Core Lps.Program Lps.Transition

variable {p : LPSProc} {contract : Contract HostCall HostReply Fault}

/-! ## Arguments -/

theorem ceilp_page_toNat (x : Word) :
    (ceilp x (4 * 1024)).toNat = 4096 * ((x.toNat + 4095) % 2 ^ 64 / 4096) := by
  have mask : (4 * 1024 : Word) - 1 = 4095 := rfl
  simp only [ceilp, mask]
  rw [toNat_and_not_pageMask, toNat_add_pageMask]

namespace LPSProc

/-- The other process is loaded in the same box, with the same heap window. -/
structure Keeps (p p' : LPSProc) : Prop where
  loaded : p'.Loaded
  info : p'.box.toLPSBoxInfo = p.box.toLPSBoxInfo
  brkbase : p'.brkbase = p.brkbase
  opts : p'.opts = p.opts

theorem Loaded.keeps (loaded : p.Loaded) : p.Keeps p := ⟨loaded, rfl, rfl, rfl⟩

theorem Loaded.keepsBox {box : LPSBox} (loaded : p.Loaded) (keeps : p.box.Keeps box) :
    p.Keeps (p.withBox box) :=
  ⟨loaded.withBox keeps, keeps.info, rfl, rfl⟩

/-! ## The heap -/

/-- The break lies in the heap window. -/
theorem Loaded.brkp_bounds (loaded : p.Loaded) (addr : Word) :
    p.brkbase.toNat ≤ (p.brkp addr).toNat ∧
      (p.brkp addr).toNat ≤ p.brkbase.toNat + p.opts.brksize.toNat := by
  have fits := loaded.paged.fits
  have below := loaded.window.2
  have window : (p.brkbase + p.opts.brksize).toNat = p.brkbase.toNat + p.opts.brksize.toNat := by
    bv_omega
  simp only [brkp, ge_iff_le, BitVec.le_def, BitVec.lt_def, window]
  generalize (if addr ≠ 0 then addr else p.brkbase + p.brksize) = target
  split_ifs <;> constructor <;> omega

/-- How much of the window the break is given. -/
theorem Loaded.newsize_toNat (loaded : p.Loaded) (addr : Word) :
    (p.brkp addr - p.brkbase).toNat = (p.brkp addr).toNat - p.brkbase.toNat := by
  have bounds := loaded.brkp_bounds addr
  bv_omega

/-- Without an address the break stays where it is. -/
theorem Loaded.brkp_zero (loaded : p.Loaded) : p.brkp 0 - p.brkbase = p.brksize := by
  have fits := loaded.paged.fits
  have below := loaded.window.2
  have brk := loaded.brk
  have window : (p.brkbase + p.opts.brksize).toNat = p.brkbase.toNat + p.opts.brksize.toNat := by
    bv_omega
  have current : (p.brkbase + p.brksize).toNat = p.brkbase.toNat + p.brksize.toNat := by
    bv_omega
  have same : p.brkp 0 = p.brkbase + p.brksize := by
    simp only [brkp, ne_eq, not_true_eq_false, if_false, ge_iff_le, BitVec.le_def, BitVec.lt_def,
      window, current]
    split_ifs <;> bv_omega
  bv_omega

/-- The break does not go past an address. -/
theorem Loaded.brkp_le (loaded : p.Loaded) {addr : Word} (nonzero : addr ≠ 0) :
    (p.brkp addr).toNat ≤ max addr.toNat p.brkbase.toNat := by
  have fits := loaded.paged.fits
  have below := loaded.window.2
  have window : (p.brkbase + p.opts.brksize).toNat = p.brkbase.toNat + p.opts.brksize.toNat := by
    bv_omega
  simp only [brkp, if_pos nonzero, ge_iff_le, BitVec.le_def, BitVec.lt_def, window]
  split_ifs <;> omega

/-- An address below the end of the window leaves the break below it too. -/
theorem Loaded.newsize_lt (loaded : p.Loaded) {addr : Word}
    (small : addr ≠ 0 → addr.toNat < p.brkbase.toNat + p.opts.brksize.toNat) :
    p.brkp addr - p.brkbase < p.opts.brksize := by
  by_cases zero : addr = 0
  · rw [zero, loaded.brkp_zero]
    exact loaded.brk
  · have size := loaded.newsize_toNat addr
    have bound := loaded.brkp_le zero
    have some := loaded.brk
    have less := small zero
    rw [BitVec.lt_def] at some ⊢
    omega

/-- The range that a growing heap maps starts at a page, and does not wrap
around. -/
theorem Loaded.growth_spec (loaded : p.Loaded) {newsize : Word} (grows : p.brksize < newsize)
    (bounded : newsize < p.opts.brksize) :
    (p.growth newsize).1.toNat % 4096 = 0 ∧
      (p.growth newsize).1.toNat + (p.growth newsize).2.toNat < 2 ^ 64 ∧
      0 < (p.growth newsize).2.toNat := by
  have fits := loaded.paged.fits
  have below := loaded.window.2
  have base_mod := loaded.paged.base_mod
  have size_mod := loaded.paged.size_mod
  have current : (p.brkbase + p.brksize).toNat = p.brkbase.toNat + p.brksize.toNat := by
    bv_omega
  simp only [growth]
  split
  · rename_i zero
    have brk_mod := loaded.brk_mod
    refine ⟨brk_mod, ?_, ?_⟩ <;> dsimp only <;> bv_omega
  · dsimp only
    have ceil := ceilp_page_toNat (p.brkbase + p.brksize)
    rw [current] at ceil
    refine ⟨?_, ?_, ?_⟩ <;> bv_omega

end LPSProc

/-! ## What the calls need of a contract -/

open LPSProc

/-- `sys_brk` maps the growth of the heap. -/
theorem sysBrk_meets {addr : Word} (loaded : p.Loaded)
    (asserts : (addr = 0 ∨ ptrcheck p.box.toLPSBoxInfo addr = true) →
      ¬p.brkp addr - p.brkbase < p.opts.brksize → contract.faults .brkNewsize)
    (may : (addr = 0 ∨ ptrcheck p.box.toLPSBoxInfo addr = true) →
      p.brksize < p.brkp addr - p.brkbase → p.brkp addr - p.brkbase < p.opts.brksize →
      p.box.MayMapat contract (p.growth (p.brkp addr - p.brkbase)).1
        (p.growth (p.brkp addr - p.brkbase)).2 (PROT_READ ||| PROT_WRITE)
        (LINUX_MAP_PRIVATE ||| LINUX_MAP_ANONYMOUS) (-1) 0) :
    (sysBrk p addr).Meets contract fun (_, p') => p.Keeps p' := by
  rw [sysBrk]
  split
  · exact loaded.keeps
  · rename_i refused
    have passed : addr = 0 ∨ ptrcheck p.box.toLPSBoxInfo addr = true := by
      by_cases zero : addr = 0
      · exact .inl zero
      · refine .inr ?_
        by_contra outside
        exact refused ⟨zero, Bool.not_eq_true _ ▸ outside⟩
    dsimp only
    rw [Prog.meets_bind, Prog.meets_check]
    split
    · rename_i checked
      have bounded : p.brkp addr - p.brkbase < p.opts.brksize := by simpa using checked
      split
      · exact loaded.keeps
      · rename_i moves
        split
        · rename_i above
          have grows : p.brksize < p.brkp addr - p.brkbase := by
            have fits := loaded.paged.fits
            have below := loaded.window.2
            have brk := loaded.brk
            have size := loaded.newsize_toNat addr
            bv_omega
          rw [Prog.meets_bind]
          refine (LPSBox.lpsBoxMapat_meets loaded.paged.toOk (may passed grows bounded)).mono ?_
          rintro ⟨map, box⟩ ⟨keeps, -⟩
          have kept := loaded.keepsBox keeps
          dsimp only
          split
          · exact kept
          · exact ⟨{ kept.loaded with brk := bounded }, kept.info, rfl, rfl⟩
        · exact ⟨{ loaded with brk := bounded }, rfl, rfl, rfl⟩
    · rename_i unchecked
      exact asserts passed (by simpa using unchecked)

/-- What a mapping for a descriptor needs to know of it. -/
theorem hostFd_meets {fd : Int} {post : Int → Prop}
    (nulls : fd ≥ 0 → p.fdfget fd = none → contract.faults .nullFile)
    (found : ∀ kfd, (fd ≥ 0 → p.fdfget fd = some kfd) → post kfd) :
    (p.hostFd fd).Meets contract post := by
  rw [hostFd]
  split
  · rename_i file
    cases look : p.fdfget fd with
    | none => exact nulls file look
    | some kfd => exact found kfd fun _ => look
  · rename_i file
    exact found (-1) fun impossible => absurd impossible file

/-- The tests of `sys_mmap` before it looks at the descriptor. -/
def passesFlags (length : Word) (flags : CInt) : Prop :=
  length ≠ 0 ∧ flags &&& illegalMask = 0

instance (length : Word) (flags : CInt) : Decidable (passesFlags length flags) :=
  inferInstanceAs (Decidable (_ ∧ _))

/-- `sys_mmap` maps at a fixed address or anywhere in the box. -/
theorem sysMmap_meets {addrp length off : Word} {prot flags : CInt} {fd : Int} (loaded : p.Loaded)
    (mallocs : contract.calls .malloc)
    (nulls : passesFlags length flags →
      (flags &&& LINUX_MAP_FIXED ≠ 0 →
        ptrcheck p.box.toLPSBoxInfo (truncp addrp (4 * 1024)) = true) →
      fd ≥ 0 → p.fdfget fd = none → contract.faults .nullFile)
    (may : ∀ kfd, passesFlags length flags → flags &&& LINUX_MAP_FIXED ≠ 0 →
      ptrcheck p.box.toLPSBoxInfo (truncp addrp (4 * 1024)) = true →
      (fd ≥ 0 → p.fdfget fd = some kfd ∧ kfd ≠ -1) →
      p.box.MayMapat contract (truncp addrp (4 * 1024)) (ceilp length (4 * 1024)) prot flags kfd off)
    (maps : ∀ (kfd : Int) (page : Word),
      p.box.mm.Inside page (p.box.mm.mmceil (ceilp length (4 * 1024))) →
      contract.calls
        (.mmap (page <<< 12) (ceilp length (4 * 1024)) prot (flags ||| MAP_FIXED) kfd off)) :
    (sysMmap p addrp length prot flags fd off).Meets contract fun (_, p') => p.Keeps p' := by
  rw [sysMmap]
  split
  · exact loaded.keeps
  rename_i nonzero
  dsimp only
  split
  · exact loaded.keeps
  rename_i legal
  have passed : passesFlags length flags := ⟨nonzero, not_ne_iff.mp legal⟩
  split
  · rename_i isFixed
    split
    · exact loaded.keeps
    · rename_i inside
      have checked : ptrcheck p.box.toLPSBoxInfo (truncp addrp (4 * 1024)) = true :=
        Bool.not_eq_false _ ▸ inside
      rw [Prog.meets_bind, procMapat, Prog.meets_bind]
      refine hostFd_meets (nulls passed fun _ => checked) ?_
      intro kfd found
      split
      · exact loaded.keeps
      · rename_i usable
        have kfdOpen : fd ≥ 0 → p.fdfget fd = some kfd ∧ kfd ≠ -1 := fun file =>
          ⟨found file, fun closed => usable ⟨file, closed⟩⟩
        rw [Prog.meets_bind]
        refine (LPSBox.lpsBoxMapat_meets loaded.paged.toOk
          (may kfd passed isFixed checked kfdOpen)).mono ?_
        rintro ⟨addr, box⟩ ⟨keeps, -⟩
        dsimp only
        split <;> exact loaded.keepsBox keeps
  · rename_i anywhere
    rw [Prog.meets_bind, procMapany, Prog.meets_bind]
    refine hostFd_meets (nulls passed fun isFixed => absurd isFixed anywhere) ?_
    intro kfd _
    split
    · exact loaded.keeps
    · rw [Prog.meets_bind]
      refine (LPSBox.lpsBoxMapany_meets loaded.paged.toOk mallocs (maps kfd)).mono ?_
      rintro ⟨addr, box⟩ keeps
      dsimp only
      split <;> exact loaded.keepsBox keeps

/-- `sys_mprotect` passes its range on. -/
theorem sysMprotect_meets {addrp length : Word} {prot : CInt}
    (asserts : ptrcheck p.box.toLPSBoxInfo addrp = true → p.box.holds addrp length = false →
      contract.faults .boxMprotect)
    (protects : ptrcheck p.box.toLPSBoxInfo addrp = true → p.box.holds addrp length = true →
      contract.calls (.mprotect addrp length prot)) :
    (sysMprotect p addrp length prot).Meets contract fun _ => True := by
  rw [sysMprotect]
  split
  · exact trivial
  · rename_i inside
    have checked : ptrcheck p.box.toLPSBoxInfo addrp = true := Bool.not_eq_false _ ▸ inside
    exact LPSBox.lpsBoxMprotect_meets (asserts checked) (protects checked)

/-- `sys_munmap` unmaps what is mapped in its range. -/
theorem sysMunmap_meets {addrp length : Word} (loaded : p.Loaded)
    (mallocs : contract.calls .malloc)
    (replaces : ptrcheck p.box.toLPSBoxInfo addrp = true → p.box.holds addrp length = true →
      p.box.mm.aligned addrp = true → length ≠ 0 → p.box.accepts addrp length = true →
      ∃ ok, Handles contract cbunmap ok ∧
        Covers (p.box.mm.mmtrunc addrp) (p.box.mm.mmceil length) p.box.mm.nodes ok) :
    (sysMunmap p addrp length).Meets contract fun (_, p') => p.Keeps p' := by
  rw [sysMunmap]
  split
  · exact loaded.keeps
  · rename_i inside
    rw [procUnmap, Prog.meets_bind]
    refine (LPSBox.lpsBoxMunmap_meets loaded.paged.toOk mallocs
      (replaces (Bool.not_eq_false _ ▸ inside))).mono ?_
    rintro ⟨r, box⟩ keeps
    exact loaded.keepsBox keeps

end Lps.Linux

import Lps.Linux.SysMemHost

/-!
# The heap window

`sys_brk` maps the difference of two break sizes, in bytes, from the page behind the old
break on.  When the new break ends further into its page than the old one, that is one page
more than the heap needs, and in the last page of the window it lies behind the window.
-/

namespace Lps.Linux

open Lps.Core Lps.Program Lps.Transition

namespace LPSProc

variable {p : LPSProc} {addr : Word}

/-- The page belongs to the heap window. -/
def InWindow (p : LPSProc) (q : Nat) : Prop :=
  p.brkbase.toNat ≤ 4096 * q ∧ 4096 * q < p.brkbase.toNat + p.opts.brksize.toNat

/-- A heap that grows is given the address it asks for. -/
theorem Loaded.grows_to (loaded : p.Loaded) (grows : p.brksize < p.brkp addr - p.brkbase)
    (bounded : p.brkp addr - p.brkbase < p.opts.brksize) :
    (p.brkp addr).toNat = addr.toNat ∧ p.brkbase.toNat + p.brksize.toNat < addr.toNat ∧
      addr.toNat < p.brkbase.toNat + p.opts.brksize.toNat := by
  have fits := loaded.paged.fits
  have below := loaded.window.2
  have size := loaded.newsize_toNat addr
  have nonzero : addr ≠ 0 := by
    rintro rfl
    rw [loaded.brkp_zero] at grows
    exact absurd grows (BitVec.lt_irrefl _)
  have window : (p.brkbase + p.opts.brksize).toNat = p.brkbase.toNat + p.opts.brksize.toNat := by
    bv_omega
  rw [BitVec.lt_def, size] at grows bounded
  have moved : (p.brkp addr).toNat = addr.toNat := by
    revert grows bounded
    simp only [brkp, if_pos nonzero, ge_iff_le, BitVec.le_def, BitVec.lt_def, window]
    split_ifs <;> omega
  omega

/-- The heap grows inside its window, unless the old break ends inside a page and the new
one further inside the last page of the window. -/
theorem Loaded.growth_inside (loaded : p.Loaded) (multiple : p.opts.brksize.toNat % 4096 = 0)
    (grows : p.brksize < p.brkp addr - p.brkbase)
    (bounded : p.brkp addr - p.brkbase < p.opts.brksize)
    (inside : p.brksize.toNat % 4096 = 0 ∨ addr.toNat % 4096 ≤ p.brksize.toNat % 4096 ∨
      addr.toNat + 4096 < p.brkbase.toNat + p.opts.brksize.toNat) {q : Nat}
    (mapped : InPages (p.growth (p.brkp addr - p.brkbase)).1
      (p.growth (p.brkp addr - p.brkbase)).2 q) : p.InWindow q := by
  obtain ⟨same, above, below⟩ := loaded.grows_to grows bounded
  have fits := loaded.paged.fits
  have windowBelow := loaded.window.2
  have brk_mod := loaded.brk_mod
  have size := loaded.newsize_toNat addr
  rw [same] at size
  generalize p.brkp addr - p.brkbase = newsize at grows mapped size
  rw [InPages, hostPages] at mapped
  simp only [growth] at mapped
  rw [InWindow]
  split at mapped
  · dsimp only at mapped
    omega
  · dsimp only at mapped
    have current : (p.brkbase + p.brksize).toNat = p.brkbase.toNat + p.brksize.toNat := by
      bv_omega
    have ceil := ceilp_page_toNat (p.brkbase + p.brksize)
    have difference : (newsize - p.brksize).toNat = newsize.toNat - p.brksize.toNat := by
      bv_omega
    rw [current] at ceil
    rw [ceil, difference] at mapped
    omega

end LPSProc

namespace MemCall

/-- The call does not grow the heap from a break inside a page to a break that is further
inside the last page of the window. -/
def GrowsInside (p : LPSProc) : MemCall → Prop
  | .brk addr =>
      p.brkbase.toNat + p.brksize.toNat < addr.toNat →
      addr.toNat < p.brkbase.toNat + p.opts.brksize.toNat →
      p.brksize.toNat % 4096 = 0 ∨ addr.toNat % 4096 ≤ p.brksize.toNat % 4096 ∨
        addr.toNat + 4096 < p.brkbase.toNat + p.opts.brksize.toNat
  | .mmap .. => True
  | .mprotect .. => True
  | .munmap .. => True

instance (p : LPSProc) : (call : MemCall) → Decidable (call.GrowsInside p)
  | .brk _ => inferInstanceAs (Decidable (_ → _))
  | .mmap .. => inferInstanceAs (Decidable True)
  | .mprotect .. => inferInstanceAs (Decidable True)
  | .munmap .. => inferInstanceAs (Decidable True)

end MemCall

/-- `sys_brk` spares the pages outside the window. -/
theorem sysBrk_sparing {p : LPSProc} {addr : Word} (loaded : p.Loaded)
    (multiple : p.opts.brksize.toNat % 4096 = 0) (inside : (MemCall.brk addr).GrowsInside p) :
    (sysBrk p addr).Meets (sparing fun q => ¬p.InWindow q) fun (_, p') => p.Keeps p' := by
  refine sysBrk_meets loaded (fun _ _ => trivial) ?_
  intro _ grows bounded
  obtain ⟨-, above, below⟩ := loaded.grows_to grows bounded
  apply LPSBox.mayMapat_sparing loaded.paged.toOk
  intro q outside mapped
  exact outside (loaded.growth_inside multiple grows bounded (inside above below) mapped)

/-! ## Runs -/

namespace MemWorld

/-- The steps whose `sys_brk` calls grow the heap inside its window. -/
def StepGrowsInside : MemWorld → WorldEvent → Prop
  | w, .syscall call _ => call.GrowsInside w.proc
  | _, _ => True

/-- A `sys_brk` call changed neither the mapping nor the contents of a page outside the
heap window of the process. -/
def StaysInWindow (p : LPSProc) (done : MemDone) : Prop :=
  ∀ addr, done.call = .brk addr →
    ∀ q, ¬p.InWindow q → done.before.host.Unchanged done.after.host q

theorem inWindow_congr {p p' : LPSProc} (keeps : p.Keeps p') {q : Nat} :
    p'.InWindow q ↔ p.InWindow q := by
  rw [LPSProc.InWindow, LPSProc.InWindow, keeps.brkbase, keeps.opts]

/-- A step keeps the process, and a `sys_brk` call stays in the window. -/
theorem step_staysInWindow {w w' : MemWorld} {event : WorldEvent} {observed : List MemDone}
    (loaded : w.proc.Loaded) (multiple : w.proc.opts.brksize.toNat % 4096 = 0)
    (inside : StepGrowsInside w event) (stepped : step w event = some (w', observed)) :
    w.proc.Keeps w'.proc ∧ ∀ done ∈ observed, StaysInWindow w.proc done := by
  refine ⟨step_keeps loaded stepped, ?_⟩
  by_cases isCall : ∃ call os, event = .syscall call os
  · obtain ⟨call, os, rfl⟩ := isCall
    obtain ⟨value, returns, rfl⟩ := step_syscall stepped
    intro done mem addr isBrk q outside
    rw [List.mem_singleton.mp mem] at isBrk ⊢
    cases isBrk
    have unchanged := unchanged_of_sparing (sysBrk_sparing loaded multiple inside) returns
    exact entered_unchanged.trans (unchanged q outside)
  · obtain ⟨rfl, -⟩ := step_other loaded (fun call os same => isCall ⟨call, os, same⟩) stepped
    exact fun done mem => absurd mem List.not_mem_nil

/-- As long as no heap grows from a break inside a page to a break further inside the last
page of its window, every `sys_brk` call of a run leaves the pages outside the window alone. -/
theorem brk_stays_in_window {box : LPSBoxInfo} {opts : LPSLinuxOpts} {w w' : MemWorld}
    {trace : List MemDone} (started : LPSProc.Started box opts w.proc)
    (fits : box.base.toNat + box.size.toNat < 2 ^ 64) (multiple : opts.brksize.toNat % 4096 = 0)
    (run : Run step StepGrowsInside w trace w') :
    ∀ done ∈ trace, StaysInWindow w.proc done := by
  have loaded := started.loaded fits
  have windowSize : w.proc.opts.brksize.toNat % 4096 = 0 := by
    rwa [started.opts]
  refine run.forall_observed (fun w' => w.proc.Keeps w'.proc) (StaysInWindow w.proc)
    loaded.keeps ?_
  intro observed state next event keeps inside stepped
  have multiple' : state.proc.opts.brksize.toNat % 4096 = 0 := by
    rwa [keeps.opts]
  obtain ⟨kept, stays⟩ := step_staysInWindow keeps.loaded multiple' inside stepped
  refine ⟨keeps.trans kept, fun done mem addr isBrk q outside => ?_⟩
  exact stays done mem addr isBrk q ((inWindow_congr keeps).not.mpr outside)

instance : ∀ w event, Decidable (StepGrowsInside w event)
  | w, .syscall call _ => inferInstanceAs (Decidable (call.GrowsInside w.proc))
  | _, .threadNew _ => inferInstanceAs (Decidable True)
  | _, .assign _ _ => inferInstanceAs (Decidable True)
  | _, .store _ => inferInstanceAs (Decidable True)

/-- The small process grows its heap to the last page of its window, behind which something
else is mapped. -/
theorem brk_stays_in_window_small :
    ∃ p trace w', LPSProc.Started smallBox smallOpts p ∧
      Run step StepGrowsInside ⟨p, bareHost⟩ trace w' ∧
      trace.map (fun done => (done.call, done.value)) =
        [(.mmap 0x105000 0x1000 3 0x32 (-1) 0, 0x105000), (.brk 0x102002, 0x102002),
          (.brk 0x104001, 0x104001)] ∧
      ∀ done ∈ trace, StaysInWindow p done := by
  have seen : small (guarded step StepGrowsInside)
      [.syscall (.mmap 0x105000 0x1000 3 0x32 (-1) 0) servingOs, .syscall (.brk 0x102002) servingOs,
        .syscall (.brk 0x104001) servingOs]
      (fun _ trace => trace.map fun done => (done.call, done.value)) =
      some [(.mmap 0x105000 0x1000 3 0x32 (-1) 0, 0x105000), (.brk 0x102002, 0x102002),
        (.brk 0x104001, 0x104001)] := by
    decide +kernel
  obtain ⟨p, trace, w', started, executed, calls⟩ := small_exec seen
  have run := run_of_exec_guarded executed
  exact ⟨p, trace, w', started, run, calls,
    @brk_stays_in_window _ _ ⟨p, bareHost⟩ _ _ started (by decide) (by decide) run⟩

/-- From a break one byte into a page, a break two bytes into the last page of the window
replaces the mapping behind the window. -/
theorem brk_replaces_mapping :
    ¬∀ (box : LPSBoxInfo) (opts : LPSLinuxOpts) (w w' : MemWorld) (trace : List MemDone),
      LPSProc.Started box opts w.proc → box.base.toNat + box.size.toNat < 2 ^ 64 →
      opts.brksize.toNat % 4096 = 0 → Run step (Always MemWorld WorldEvent) w trace w' →
      ∀ done ∈ trace, StaysInWindow w.proc done := by
  intro claim
  have seen : small step
      [.syscall (.mmap 0x105000 0x1000 3 0x32 (-1) 0) servingOs, .syscall (.brk 0x101001) servingOs,
        .store (fun a => if a = 0x105000 then 7 else 0), .syscall (.brk 0x104002) servingOs]
      (fun p trace => (trace.map fun done =>
        (done.call, done.before.host.byte 0x105000, done.after.host.byte 0x105000),
        p.brkbase, p.opts)) =
      some ([(.mmap 0x105000 0x1000 3 0x32 (-1) 0, 0, 0), (.brk 0x101001, 0, 0),
        (.brk 0x104002, 7, 0)], 0x101000, smallOpts) := by
    decide +kernel
  obtain ⟨p, trace, w', started, executed, shown⟩ := small_exec seen
  simp only [Prod.mk.injEq] at shown
  obtain ⟨calls, brkbase, opts⟩ := shown
  obtain ⟨done, mem, last⟩ := List.mem_map.mp (calls ▸ List.mem_cons_of_mem _
    (List.mem_cons_of_mem _ List.mem_cons_self))
  simp only [Prod.mk.injEq] at last
  have outside : ¬p.InWindow 0x105 := by
    rw [LPSProc.InWindow, brkbase, opts]
    decide
  have unchanged := claim smallBox smallOpts ⟨p, bareHost⟩ w' trace started (by decide) (by decide)
    (run_of_exec executed) done mem 0x104002 last.1 0x105 outside
  have same := unchanged.byte 0x105000 (by decide)
  rw [last.2.1, last.2.2] at same
  exact absurd same (by decide)

end MemWorld

end Lps.Linux

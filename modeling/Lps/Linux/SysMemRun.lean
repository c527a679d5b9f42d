import Lps.Linux.ElfImage
import Lps.Linux.SysMemSpec

/-!
# Runs of the memory system calls

Over all runs of a loaded process: which calls keep the host's `mmap` and
`mprotect` inside the box, and which return to the sandbox.
-/

namespace Lps.Linux

open Lps.Core Lps.Program Lps.Transition

variable {p : LPSProc}

/-- A mapping for the descriptor gets as far as the box. -/
def LPSProc.Usable (p : LPSProc) (fd : Int) : Prop :=
  fd ≥ 0 → p.fdfget fd ≠ none ∧ p.fdfget fd ≠ some (-1)

instance (p : LPSProc) (fd : Int) : Decidable (p.Usable fd) :=
  inferInstanceAs (Decidable (_ → _))

theorem LPSProc.Usable.of_found {fd kfd : Int}
    (found : fd ≥ 0 → p.fdfget fd = some kfd ∧ kfd ≠ -1) : p.Usable fd := by
  intro file
  obtain ⟨look, usable⟩ := found file
  rw [look]
  exact ⟨nofun, fun same => usable (Option.some.inj same)⟩

namespace MemCall

/-- The range of a call that passes the test of the box does not wrap around the
end of the address space. -/
def NoWrap (p : LPSProc) : MemCall → Prop
  | .brk _ => True
  | .mmap addrp length _ flags fd _ =>
      passesFlags length flags → flags &&& LINUX_MAP_FIXED ≠ 0 →
      ptrcheck p.box.toLPSBoxInfo (truncp addrp (4 * 1024)) = true → p.Usable fd →
      p.box.holds (truncp addrp (4 * 1024)) (ceilp length (4 * 1024)) = true →
      (truncp addrp (4 * 1024)).toNat + (ceilp length (4 * 1024)).toNat < 2 ^ 64
  | .mprotect addrp length _ =>
      ptrcheck p.box.toLPSBoxInfo addrp = true → p.box.holds addrp length = true →
      addrp.toNat + length.toNat < 2 ^ 64
  | .munmap _ _ => True

instance (p : LPSProc) : (call : MemCall) → Decidable (call.NoWrap p)
  | .brk _ => inferInstanceAs (Decidable True)
  | .mmap .. => inferInstanceAs (Decidable (_ → _))
  | .mprotect .. => inferInstanceAs (Decidable (_ → _))
  | .munmap _ _ => inferInstanceAs (Decidable True)

/-- No range for a growing heap, a fixed mapping or an unmapping fails an assertion, is
empty or lies on an empty region, and every descriptor of a mapping is open. -/
def Graceful (p : LPSProc) : MemCall → Prop
  | .brk addr =>
      addr ≠ 0 → ptrcheck p.box.toLPSBoxInfo addr = true →
      addr.toNat < p.brkbase.toNat + p.opts.brksize.toNat ∧
        (p.brksize < p.brkp addr - p.brkbase →
          p.box.holds (p.growth (p.brkp addr - p.brkbase)).1
              (p.growth (p.brkp addr - p.brkbase)).2 = true ∧
            p.box.mm.NoEmptyUpdate (p.box.mm.mmtrunc (p.growth (p.brkp addr - p.brkbase)).1)
              (p.box.mm.mmceil (p.growth (p.brkp addr - p.brkbase)).2))
  | .mmap addrp length _ flags fd _ =>
      passesFlags length flags →
      (flags &&& LINUX_MAP_FIXED ≠ 0 →
        ptrcheck p.box.toLPSBoxInfo (truncp addrp (4 * 1024)) = true) →
      (fd ≥ 0 → p.fdfget fd ≠ none) ∧
        (flags &&& LINUX_MAP_FIXED ≠ 0 → p.Usable fd →
          p.box.holds (truncp addrp (4 * 1024)) (ceilp length (4 * 1024)) = true ∧
            (p.box.accepts (truncp addrp (4 * 1024)) (ceilp length (4 * 1024)) = true →
              p.box.mm.mmceil (ceilp length (4 * 1024)) ≠ 0 ∧
                p.box.mm.NoEmptyUpdate (p.box.mm.mmtrunc (truncp addrp (4 * 1024)))
                  (p.box.mm.mmceil (ceilp length (4 * 1024)))))
  | .mprotect addrp length _ =>
      ptrcheck p.box.toLPSBoxInfo addrp = true → p.box.holds addrp length = true
  | .munmap addrp length =>
      ptrcheck p.box.toLPSBoxInfo addrp = true → p.box.holds addrp length = true →
      p.box.mm.aligned addrp = true → length ≠ 0 → p.box.accepts addrp length = true →
      p.box.mm.NoEmptyUpdate (p.box.mm.mmtrunc addrp) (p.box.mm.mmceil length)

instance (p : LPSProc) : (call : MemCall) → Decidable (call.Graceful p)
  | .brk _ => inferInstanceAs (Decidable (_ → _))
  | .mmap .. => inferInstanceAs (Decidable (_ → _))
  | .mprotect .. => inferInstanceAs (Decidable (_ → _))
  | .munmap .. => inferInstanceAs (Decidable (_ → _))

end MemCall

/-! ## Confinement -/

/-- A range of whole pages of the tracker is a range of the box. -/
theorem LPSProc.Loaded.contains_pages (loaded : p.Loaded) {page length : Word}
    (inside : p.box.mm.Inside page (p.box.mm.mmceil (ceilp length (4 * 1024)))) :
    p.box.Contains (page <<< 12) (ceilp length (4 * 1024)) := by
  have contains := (loaded.paged.contains inside).1
  have paged := loaded.paged.tracked.paged
  have ceil := ceilp_page_toNat length
  have some := MMAddrSpace.mmceil_toNat paged (ceilp length (4 * 1024))
  have whole : p.box.mm.mmceil (ceilp length (4 * 1024)) <<< 12 = ceilp length (4 * 1024) := by
    apply BitVec.eq_of_toNat_eq
    rw [toNat_pageAddr] <;> omega
  rw [whole] at contains
  exact contains

theorem MemCall.prog_confining {call : MemCall} (loaded : p.Loaded) (noWrap : call.NoWrap p) :
    (call.prog p).Meets (confining p.box.toLPSBoxInfo) fun (_, p') => p.Keeps p' := by
  cases call with
  | brk addr =>
      refine sysBrk_meets loaded (fun _ _ => trivial) ?_
      intro _ grows bounded
      obtain ⟨multiple, small, -⟩ := loaded.growth_spec grows bounded
      exact loaded.paged.mayMapat_confining multiple fun _ => small
  | mmap addrp length prot flags fd off =>
      refine sysMmap_meets loaded trivial (fun _ _ _ _ => trivial) ?_ ?_
      · intro kfd passed isFixed checked found
        refine loaded.paged.mayMapat_confining (truncp_mod (by decide)) ?_
        exact noWrap passed isFixed checked (.of_found found)
      · exact fun kfd page inside => loaded.contains_pages inside
  | mprotect addrp length prot =>
      rw [prog, Prog.meets_bind]
      refine (sysMprotect_meets (fun _ _ => trivial) ?_).mono fun _ _ => loaded.keeps
      intro checked inBox
      exact LPSBox.contains_of_holds loaded.paged.toOk inBox (noWrap checked inBox)
  | munmap addrp length =>
      rw [prog, Prog.meets_bind]
      refine (sysMunmap_meets loaded trivial ?_).mono fun _ keeps => keeps
      intro _ _ _ _ accepted
      refine ⟨_, loaded.paged.cbunmap_confining,
        LPSBox.covers_of_accepts loaded.paged.toOk accepted ?_ ?_ ?_⟩
      · exact fun _ _ inside _ => inside
      · exact fun _ _ _ inside => inside
      · exact fun _ _ _ inside => inside

/-- A new stack is mapped in the box. -/
theorem LPSProc.Loaded.mapStack_confining (loaded : p.Loaded) :
    p.mapStack.Meets (confining p.box.toLPSBoxInfo) fun (_, p') => p.Keeps p' := by
  rw [mapStack, stackMapat, Prog.meets_bind, Prog.meets_bind]
  refine (LPSBox.lpsBoxMapat_meets loaded.paged.toOk
    (loaded.paged.mayMapat_confining loaded.stack_mod ?_)).mono ?_
  · exact fun _ => loaded.stack.2.trans_lt loaded.paged.fits
  · rintro ⟨stack, box⟩ ⟨keeps, -⟩
    exact loaded.keepsBox keeps

/-! ## Returning -/

theorem MemCall.prog_returning {call : MemCall} (loaded : p.Loaded) (graceful : call.Graceful p) :
    (call.prog p).Meets (returning p.box.toLPSBoxInfo) fun (_, p') => p.Keeps p' := by
  cases call with
  | brk addr =>
      refine sysBrk_meets loaded ?_ ?_
      · intro passed past
        refine absurd (loaded.newsize_lt fun nonzero => ?_) past
        exact (graceful nonzero (passed.resolve_left nonzero)).1
      · intro passed grows bounded
        have nonzero : addr ≠ 0 := by
          rintro rfl
          rw [loaded.brkp_zero] at grows
          exact absurd grows (BitVec.lt_irrefl _)
        obtain ⟨multiple, small, pos⟩ := loaded.growth_spec grows bounded
        obtain ⟨inBox, noEmpty⟩ := (graceful nonzero (passed.resolve_left nonzero)).2 grows
        refine loaded.paged.mayMapat_returning inBox fun _ => ⟨?_, noEmpty⟩
        exact fun none => absurd (MMAddrSpace.mmceil_toNat loaded.paged.tracked.paged _) (by
          rw [none]
          have contains := LPSBox.contains_of_holds loaded.paged.toOk inBox small
          have base_mod := loaded.paged.base_mod
          have size_mod := loaded.paged.size_mod
          have fits := loaded.paged.fits
          have below := contains.2
          bv_omega)
  | mmap addrp length prot flags fd off =>
      refine sysMmap_meets loaded trivial ?_ ?_ fun _ _ _ => trivial
      · exact fun passed checked file closed => (graceful passed checked).1 file closed
      · intro kfd passed isFixed checked found
        obtain ⟨inBox, pages⟩ := (graceful passed fun _ => checked).2 isFixed (.of_found found)
        exact loaded.paged.mayMapat_returning inBox pages
  | mprotect addrp length prot =>
      rw [prog, Prog.meets_bind]
      refine (sysMprotect_meets ?_ fun _ _ => trivial).mono fun _ _ => loaded.keeps
      intro checked outside
      exact absurd ((graceful checked).symm.trans outside) (by decide)
  | munmap addrp length =>
      rw [prog, Prog.meets_bind]
      refine (sysMunmap_meets loaded trivial ?_).mono fun _ keeps => keeps
      intro checked inBox aligned nonzero accepted
      exact ⟨_, loaded.paged.cbunmap_returning, loaded.paged.covers_returning accepted
        (graceful checked inBox aligned nonzero accepted)⟩

/-! ## Runs -/

/-- The process is loaded in its box, unless the runtime is down. -/
def MemState.Keeps (p : LPSProc) (s : MemState) : Prop := ∀ p' ∈ s, p.Keeps p'

theorem LPSProc.Keeps.trans {p' p'' : LPSProc} (first : p.Keeps p') (second : p'.Keeps p'') :
    p.Keeps p'' :=
  ⟨second.loaded, second.info.trans first.info, second.brkbase.trans first.brkbase,
    second.opts.trans first.opts⟩

/-- The steps of a run that keeps host addresses in the box. -/
def StepNoWrap : MemState → MemEvent → Prop
  | some p, .syscall call _ => call.NoWrap p
  | _, _ => True

/-- The steps of a run in which every call returns, on a host that has memory and
maps whole pages of the box. -/
def StepGraceful : MemState → MemEvent → Prop
  | some p, .syscall call host =>
      call.Graceful p ∧ ∀ made c, (returning p.box.toLPSBoxInfo).replies c (host made c)
  | _, _ => True

/-- What is seen keeps a contract. -/
def MemObs.Allowed (contract : Contract HostCall HostReply Fault) : MemObs → Prop
  | .host c => contract.calls c
  | .returned _ => True
  | .down reason => contract.faults reason

/-- A system call that meets a contract leads to a loaded process, or down with a
tolerated fault. -/
theorem memResult_meets {contract : Contract HostCall HostReply Fault} {host : MemHost}
    {prog : HostProg (Word × LPSProc)} (meets : prog.Meets contract fun (_, p') => p.Keeps p')
    (replies : ∀ made c, contract.replies c (host made c)) :
    MemState.Keeps p (memResult (prog.run host [])).1 ∧
      ((memResult (prog.run host [])).1 = none → ∃ reason, contract.faults reason) ∧
      ∀ o ∈ (memResult (prog.run host [])).2, o.Allowed contract := by
  have calls := meets.run_calls replies []
  have returns := meets.run_ok replies []
  have faults := meets.run_error replies []
  generalize prog.run host [] = result at calls returns faults
  obtain ⟨made, outcome⟩ := result
  have allowed : ∀ o ∈ made.map MemObs.host, o.Allowed contract := by
    intro o mem
    obtain ⟨c, isMade, rfl⟩ := List.mem_map.mp mem
    exact calls c isMade
  cases outcome with
  | ok value =>
      obtain ⟨value, p'⟩ := value
      refine ⟨?_, nofun, ?_⟩
      · rintro _ ⟨⟩
        exact returns _ rfl
      · intro o mem
        rcases List.mem_append.mp mem with host | last
        · exact allowed o host
        · rw [List.mem_singleton.mp last]
          trivial
  | error reason =>
      refine ⟨nofun, fun _ => ⟨reason, faults _ rfl⟩, ?_⟩
      intro o mem
      rcases List.mem_append.mp mem with host | last
      · exact allowed o host
      · rw [List.mem_singleton.mp last]
        exact faults _ rfl

/-- The other steps keep the process loaded; a new stack is mapped in the box. -/
theorem memStep_other {s : MemState} {event : MemEvent} {observed : List MemObs}
    (loaded : p.Loaded) (other : ∀ call host, event ≠ .syscall call host)
    (stepped : memStep (some p) event = some (s, observed)) :
    (∃ p', s = some p' ∧ p.Keeps p') ∧
      ∀ o ∈ observed, ∃ c : HostCall, o = .host c ∧ c.Confined p.box.toLPSBoxInfo := by
  cases event with
  | syscall call host => exact absurd rfl (other call host)
  | threadNew host =>
      have anything : ∀ made c, (confining p.box.toLPSBoxInfo).replies c (host made c) :=
        fun _ _ => trivial
      have calls := loaded.mapStack_confining.run_calls anything []
      have returns := loaded.mapStack_confining.run_ok anything []
      rw [memStep] at stepped
      split at stepped
      · rename_i made value p' ran
        cases stepped
        rw [ran] at calls returns
        refine ⟨⟨p', rfl, returns _ rfl⟩, ?_⟩
        intro o mem
        obtain ⟨c, isMade, rfl⟩ := List.mem_map.mp mem
        exact ⟨c, rfl, calls c isMade⟩
      · cases stepped
  | assign fd kfd =>
      cases stepped
      exact ⟨⟨_, rfl, { loaded with }, rfl, rfl, rfl⟩, by simp⟩

/-! ## A small process -/

/-- A box of sixteen pages. -/
def smallBox : LPSBoxInfo := ⟨0x100000, 0x10000⟩

/-- Stacks of two pages, a heap of four. -/
def smallOpts : LPSLinuxOpts := ⟨0x2000, 0x4000⟩

/-- An image in memory with one writable segment of one page. -/
def smallImage : Buf := .ofBytes (-1) (elfImage 0 [⟨1, 6, 0, 0, 120, 4096, 4096⟩] [])

/-- The process made of it. -/
def smallProc : Option LPSProc :=
  LPSProc.boot smallBox smallOpts (fun _ => none) smallImage obliging

theorem smallProc_started (made : smallProc = some p) : LPSProc.Started smallBox smallOpts p :=
  LPSProc.boot_started obliging_refuses made

/-- As long as no range wraps around, every address range that reaches the host lies
in the box. -/
theorem host_ranges_confined {box : LPSBoxInfo} {opts : LPSLinuxOpts} {trace : List MemObs}
    {target : MemState} (started : LPSProc.Started box opts p)
    (fits : box.base.toNat + box.size.toNat < 2 ^ 64)
    (run : Run memStep StepNoWrap (some p) trace target) :
    ∀ c, MemObs.host c ∈ trace → c.Confined p.box.toLPSBoxInfo := by
  have loaded := started.loaded fits
  have all := run.forall_observed (MemState.Keeps p)
    (fun o => ∀ c, o = .host c → c.Confined p.box.toLPSBoxInfo) ?_ ?_
  · exact fun c mem => all _ mem c rfl
  · rintro _ ⟨⟩
    exact loaded.keeps
  · intro observed state next event keeps noWrap stepped
    cases state with
    | none => cases stepped
    | some p' =>
        have kept := keeps p' rfl
        rw [← kept.info]
        by_cases isCall : ∃ call host, event = .syscall call host
        · obtain ⟨call, host, rfl⟩ := isCall
          have anything : ∀ made c, (confining p'.box.toLPSBoxInfo).replies c (host made c) :=
            fun _ _ => trivial
          have meets := memResult_meets (MemCall.prog_confining kept.loaded noWrap) anything
          rw [Option.some.inj stepped] at meets
          refine ⟨fun p'' mem => kept.trans (meets.1 p'' mem), ?_⟩
          rintro _ mem c rfl
          exact meets.2.2 _ mem
        · have other : ∀ call host, event ≠ .syscall call host := fun call host same =>
            isCall ⟨call, host, same⟩
          obtain ⟨⟨p'', rfl, last⟩, confined⟩ := memStep_other kept.loaded other stepped
          refine ⟨?_, ?_⟩
          · rintro _ ⟨⟩
            exact kept.trans last
          · rintro _ mem c rfl
            obtain ⟨c', same, isConfined⟩ := confined _ mem
            cases same
            exact isConfined

instance : ∀ state event, Decidable (StepNoWrap state event)
  | some p, .syscall call _ => inferInstanceAs (Decidable (call.NoWrap p))
  | some _, .threadNew _ => inferInstanceAs (Decidable True)
  | some _, .assign _ _ => inferInstanceAs (Decidable True)
  | none, _ => inferInstanceAs (Decidable True)

/-- The calls on an obliging host. -/
def onObliging (calls : List MemCall) : List MemEvent := calls.map fun call => .syscall call obliging

/-- Run a list of calls of the small process on an obliging host, and show some of
what happens. -/
def smallRun {α : Type} (step : Step MemState MemEvent MemObs) (calls : List MemCall)
    (view : LPSProc → List MemObs → α) : Option α := do
  let p ← smallProc
  let (_, trace) ← exec step (some p) (onObliging calls)
  return view p trace

theorem smallRun_exec {α : Type} {step : Step MemState MemEvent MemObs} {calls : List MemCall}
    {view : LPSProc → List MemObs → α} {value : α}
    (seen : smallRun step calls view = some value) :
    ∃ p trace target, LPSProc.Started smallBox smallOpts p ∧
      exec step (some p) (onObliging calls) = some (target, trace) ∧ view p trace = value := by
  simp only [smallRun, Option.bind_eq_bind, Option.bind_eq_some_iff] at seen
  obtain ⟨p, made, ⟨target, trace⟩, executed, same⟩ := seen
  exact ⟨p, trace, target, smallProc_started made, executed, Option.some.inj same⟩

/-- Moving the break and protecting a page stay in the box. -/
theorem host_ranges_confined_small :
    ∃ p trace target, LPSProc.Started smallBox smallOpts p ∧
      Run memStep StepNoWrap (some p) trace target ∧
      MemObs.host (.mprotect 0x100000 0x1000 1) ∈ trace ∧
      ∀ c, MemObs.host c ∈ trace → c.Confined p.box.toLPSBoxInfo := by
  have seen : smallRun (guarded memStep StepNoWrap) [.brk 0x102000, .mprotect 0x100000 0x1000 1]
      (fun _ trace => decide (MemObs.host (.mprotect 0x100000 0x1000 1) ∈ trace)) = some true := by
    decide +kernel
  obtain ⟨p, trace, target, started, executed, reaches⟩ := smallRun_exec seen
  have run := run_of_exec_guarded executed
  exact ⟨p, trace, target, started, run, of_decide_eq_true reaches,
    host_ranges_confined started (by decide) run⟩

/-- A length that wraps around takes `mprotect` out of the box. -/
theorem mprotect_leaves_box :
    ¬∀ (box : LPSBoxInfo) (opts : LPSLinuxOpts) (p : LPSProc) (trace : List MemObs)
        (target : MemState), LPSProc.Started box opts p →
      box.base.toNat + box.size.toNat < 2 ^ 64 →
      Run memStep (Always MemState MemEvent) (some p) trace target →
      ∀ c, MemObs.host c ∈ trace → c.Confined p.box.toLPSBoxInfo := by
  intro claim
  have seen : smallRun memStep [.mprotect 0x100000 (-0x1000) 1] (fun p trace =>
      decide (MemObs.host (.mprotect 0x100000 (-0x1000) 1) ∈ trace ∧
        ¬p.box.Contains 0x100000 (-0x1000))) = some true := by
    decide +kernel
  obtain ⟨p, trace, target, started, executed, reaches⟩ := smallRun_exec seen
  obtain ⟨reached, outside⟩ := of_decide_eq_true reaches
  exact outside (claim smallBox smallOpts p trace target started (by decide)
    (run_of_exec executed) _ reached)

/-- As long as every call is graceful, every call returns: the runtime never goes
down. -/
theorem memory_calls_return {box : LPSBoxInfo} {opts : LPSLinuxOpts} {trace : List MemObs}
    {target : MemState} (started : LPSProc.Started box opts p)
    (fits : box.base.toNat + box.size.toNat < 2 ^ 64)
    (run : Run memStep StepGraceful (some p) trace target) :
    target ≠ none ∧ ∀ reason, MemObs.down reason ∉ trace := by
  have loaded := started.loaded fits
  have both := run.invariant
    (fun trace state => (∃ p', state = some p' ∧ p.Keeps p') ∧ ∀ reason, MemObs.down reason ∉ trace)
    ⟨⟨p, rfl, loaded.keeps⟩, by simp⟩ ?_
  · obtain ⟨⟨p', rfl, -⟩, up⟩ := both
    exact ⟨nofun, up⟩
  · rintro trace observed _ next event ⟨⟨p', rfl, kept⟩, up⟩ graceful stepped
    suffices last : (∃ p'', next = some p'' ∧ p'.Keeps p'') ∧
        ∀ reason, MemObs.down reason ∉ observed by
      obtain ⟨⟨p'', isNext, keeps⟩, still⟩ := last
      refine ⟨⟨p'', isNext, kept.trans keeps⟩, fun reason mem => ?_⟩
      exact (List.mem_append.mp mem).elim (up reason) (still reason)
    by_cases isCall : ∃ call host, event = .syscall call host
    · obtain ⟨call, host, rfl⟩ := isCall
      have meets := memResult_meets (MemCall.prog_returning kept.loaded graceful.1) graceful.2
      rw [Option.some.inj stepped] at meets
      refine ⟨?_, fun reason mem => meets.2.2 _ mem⟩
      cases next with
      | none => exact absurd (meets.2.1 rfl) (by rintro ⟨_, ⟨⟩⟩)
      | some p'' => exact ⟨p'', rfl, meets.1 p'' rfl⟩
    · have other : ∀ call host, event ≠ .syscall call host := fun call host same =>
        isCall ⟨call, host, same⟩
      obtain ⟨next, confined⟩ := memStep_other kept.loaded other stepped
      refine ⟨next, fun reason mem => ?_⟩
      obtain ⟨c, impossible, -⟩ := confined _ mem
      cases impossible

/-- The steps whose calls are graceful, on any host. -/
def CallGraceful : MemState → MemEvent → Prop
  | some p, .syscall call _ => call.Graceful p
  | _, _ => True

instance : ∀ state event, Decidable (CallGraceful state event)
  | some p, .syscall call _ => inferInstanceAs (Decidable (call.Graceful p))
  | some _, .threadNew _ => inferInstanceAs (Decidable True)
  | some _, .assign _ _ => inferInstanceAs (Decidable True)
  | none, _ => inferInstanceAs (Decidable True)

/-- The break moves up, pages are mapped, and the second of them is unmapped again. -/
theorem memory_calls_return_small :
    ∃ p trace target, LPSProc.Started smallBox smallOpts p ∧
      Run memStep StepGraceful (some p) trace target ∧
      MemObs.returned 0x102000 ∈ trace ∧ target ≠ none ∧
      ∀ reason, MemObs.down reason ∉ trace := by
  have seen : smallRun (guarded memStep CallGraceful)
      [.brk 0x102000, .mmap 0x108000 0x2000 3 0x32 (-1) 0, .munmap 0x109000 0x1000]
      (fun _ trace => decide (MemObs.returned 0x102000 ∈ trace)) = some true := by
    decide +kernel
  obtain ⟨p, trace, target, started, executed, returns⟩ := smallRun_exec seen
  have obliged : ∀ event ∈ onObliging [.brk 0x102000, .mmap 0x108000 0x2000 3 0x32 (-1) 0,
      .munmap 0x109000 0x1000], ∃ call, event = .syscall call obliging := by
    intro event mem
    obtain ⟨call, -, rfl⟩ := List.mem_map.mp mem
    exact ⟨call, rfl⟩
  have run : Run memStep StepGraceful (some p) trace target := by
    refine (run_of_exec_checked executed obliged).mono ?_
    rintro (_ | p') event ⟨graceful, call, rfl⟩
    · trivial
    · exact ⟨graceful, obliging_returns _⟩
  exact ⟨p, trace, target, started, run, of_decide_eq_true returns,
    memory_calls_return started (by decide) run⟩

/-- A break at the end of the heap window brings the runtime down. -/
theorem brk_goes_down :
    ¬∀ (box : LPSBoxInfo) (opts : LPSLinuxOpts) (p : LPSProc) (trace : List MemObs)
        (target : MemState), LPSProc.Started box opts p →
      box.base.toNat + box.size.toNat < 2 ^ 64 →
      Run memStep (fun state event => ∀ p ∈ state, ∀ call host, event = .syscall call host →
        ∀ made c, (returning p.box.toLPSBoxInfo).replies c (host made c)) (some p) trace target →
      ∀ reason, MemObs.down reason ∉ trace := by
  intro claim
  have seen : smallRun (guarded memStep (Always MemState MemEvent)) [.brk 0x105000]
      (fun _ trace => decide (MemObs.down .brkNewsize ∈ trace)) = some true := by
    decide +kernel
  obtain ⟨p, trace, target, started, executed, down⟩ := smallRun_exec seen
  have obliged : ∀ event ∈ onObliging [.brk 0x105000], ∃ call, event = .syscall call obliging := by
    intro event mem
    obtain ⟨call, -, rfl⟩ := List.mem_map.mp mem
    exact ⟨call, rfl⟩
  refine claim smallBox smallOpts p trace target started (by decide) ?_ _
    (of_decide_eq_true down)
  refine (run_of_exec_checked executed obliged).mono ?_
  rintro state event ⟨-, call, rfl⟩ p' - _ _ ⟨⟩
  exact obliging_returns _

end Lps.Linux

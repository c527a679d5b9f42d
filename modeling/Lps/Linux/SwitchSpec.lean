import Lps.Linux.Switch

/-!
# What a switch preserves

Where a context is says which part of its state is where: in the hart while it
runs, in its record and on its kernel stack while the handler works for it, and
behind its `kregs` while it waits.  One lemma for each event takes a hart from
one of these situations to the next.
-/

namespace Lps.Linux

open Lps.Asm Lps.Core

/-- The state in which a context has to go on, and whether a system call still has
to return before it does. -/
structure Expected where
  user : UserState
  ecall : Bool

variable {h h' : Hart} {mem mem' : Mem Block Label} {c : Tid} {w : Nat} {u : UserState}
  {e : Expected} {obs : List SwitchObs}

/-! ## Situations -/

/-- The record holds the user-visible state. -/
structure RecordHolds (record : Nat → KVal) (u : UserState) : Prop where
  regs : ∀ r, record (OFFSET r) = u.regs r
  pc : record OFFSET_UEPC = .word u.pc

/-- The context was first entered by worker `w`. -/
structure StartedBy (mem : Mem Block Label) (c : Tid) (w : Nat) : Prop where
  ksp : mem (.ctx c) OFFSET_KSP = .ptr (.kstack c) KSTACK
  ktp : mem (.ctx c) OFFSET_KTP = .ptr (.tls w) 0

/-- The handler of the context has its frame on the kernel stack. -/
structure HandlerFrame (mem : Mem Block Label) (c : Tid) : Prop where
  ra : mem (.kstack c) (KSTACK - FRAME + 0) = .code .ufaultReturn
  s0 : mem (.kstack c) (KSTACK - FRAME + 8) = .ptr (.ctx c) 0
  ctx : mem (.kstack c) (KSTACK - FRAME + FRAME_CTX) = .ptr (.ctx c) 0

/-- Worker `w` has switched to the context. -/
structure SchedSaved (mem : Mem Block Label) (w : Nat) (c : Tid) : Prop where
  ra : mem (.tls w) (LPS_KCTX + CONTEXT_RA) = .code .switchedTo
  sp : ∃ o, mem (.tls w) (LPS_KCTX + CONTEXT_SP) = .ptr (.hstack w) o
  myctx : mem (.tls w) LPS_MYCTX = .ptr (.ctx c) 0

/-- What the record holds while the handler is there: in a system call the program
counter is past the `ecall` already. -/
def Expected.pending (e : Expected) : UserState :=
  if e.ecall then { e.user with pc := e.user.pc + 4 } else e.user

/-- What a system call makes of the user-visible state. -/
def UserState.returned (u : UserState) (result : Word) : UserState where
  regs := Function.update u.regs .a0 (.word result)
  pc := u.pc + 4

/-- The hart is in the scheduler loop of its own worker. -/
structure InSched (h : Hart) (w : Nat) : Prop where
  loc : h.loc = .sched
  cur : h.cur = none
  tp : h.regs .tp = .ptr (.tls w) 0
  sp : ∃ o, h.regs .sp = .ptr (.hstack w) o

/-- The hart executes the context in user mode. -/
structure InUser (h : Hart) (mem : Mem Block Label) (w : Nat) (c : Tid) : Prop where
  loc : ∃ pc, h.loc = .user pc
  cur : h.cur = some c
  started : StartedBy mem c w
  uscratch : h.csrs CSR_USCRATCH = .ptr (.ctx c) 0
  dasics : DasicsLoaded h.csrs (mem (.ctx c))
  saved : SchedSaved mem w c

/-- The hart executes the handler of the context. -/
structure InHandler (h : Hart) (mem : Mem Block Label) (w : Nat) (c : Tid) (e : Expected) :
    Prop where
  loc : (h.loc = .timer ∨ h.loc = .timerDone) ∧ e.ecall = false ∨
    h.loc = .syscall ∧ e.ecall = true
  cur : h.cur = some c
  started : StartedBy mem c w
  frame : HandlerFrame mem c
  sp : h.regs .sp = .ptr (.kstack c) (KSTACK - FRAME)
  tp : h.regs .tp = .ptr (.tls w) 0
  dasics : DasicsLoaded h.csrs (mem (.ctx c))
  saved : SchedSaved mem w c
  record : RecordHolds (mem (.ctx c)) e.pending

theorem InHandler.ecall_true {h : Hart} {mem : Mem Block Label} {w : Nat} {c : Tid} {e : Expected}
    (inHandler : InHandler h mem w c e) (loc : h.loc = .syscall) : e.ecall = true := by
  rcases inHandler.loc with ⟨isTimer | isTimer, _⟩ | ⟨_, isEcall⟩
  · rw [loc] at isTimer
    contradiction
  · rw [loc] at isTimer
    contradiction
  · exact isEcall

theorem InHandler.ecall_false {h : Hart} {mem : Mem Block Label} {w : Nat} {c : Tid}
    {e : Expected} (inHandler : InHandler h mem w c e) (loc : h.loc ≠ .syscall) :
    e.ecall = false := by
  rcases inHandler.loc with ⟨_, notEcall⟩ | ⟨isSyscall, _⟩
  · exact notEcall
  · exact absurd isSyscall loc

/-- The context has never been entered. -/
structure Fresh (mem : Mem Block Label) (c : Tid) (u : UserState) : Prop where
  ra : mem (.ctx c) (OFFSET_KREGS + CONTEXT_RA) = .code .lpsCtxEntry
  sp : mem (.ctx c) (OFFSET_KREGS + CONTEXT_SP) = .ptr (.kstack c) KSTACK
  record : RecordHolds (mem (.ctx c)) u

/-- The context waits in its handler. -/
structure Parked (mem : Mem Block Label) (c : Tid) (w : Nat) (e : Expected) : Prop where
  started : StartedBy mem c w
  frame : HandlerFrame mem c
  sp : mem (.ctx c) (OFFSET_KREGS + CONTEXT_SP) = .ptr (.kstack c) (KSTACK - FRAME)
  resume : mem (.ctx c) (OFFSET_KREGS + CONTEXT_RA) = .code .timerExited ∧ e.ecall = false ∨
    mem (.ctx c) (OFFSET_KREGS + CONTEXT_RA) = .code .syscallExited ∧ e.ecall = true
  record : RecordHolds (mem (.ctx c)) e.pending

/-! ## Cells that a step leaves alone -/

section Congr

variable (record : mem' (.ctx c) = mem (.ctx c))
include record

theorem StartedBy.congr (started : StartedBy mem c w) : StartedBy mem' c w where
  ksp := by rw [record, started.ksp]
  ktp := by rw [record, started.ktp]

theorem InUser.congr (inUser : InUser h mem w c) (tls : mem' (.tls w) = mem (.tls w)) :
    InUser h mem' w c where
  loc := inUser.loc
  cur := inUser.cur
  started := inUser.started.congr record
  uscratch := inUser.uscratch
  dasics := by rw [record]; exact inUser.dasics
  saved := ⟨by rw [tls, inUser.saved.ra], by rw [tls]; exact inUser.saved.sp,
    by rw [tls, inUser.saved.myctx]⟩

variable (stack : mem' (.kstack c) = mem (.kstack c))
include stack

omit record in
theorem HandlerFrame.congr (frame : HandlerFrame mem c) : HandlerFrame mem' c where
  ra := by rw [stack, frame.ra]
  s0 := by rw [stack, frame.s0]
  ctx := by rw [stack, frame.ctx]

theorem InHandler.congr (inHandler : InHandler h mem w c e)
    (tls : mem' (.tls w) = mem (.tls w)) : InHandler h mem' w c e where
  loc := inHandler.loc
  cur := inHandler.cur
  started := inHandler.started.congr record
  frame := inHandler.frame.congr stack
  sp := inHandler.sp
  tp := inHandler.tp
  dasics := by rw [record]; exact inHandler.dasics
  saved := ⟨by rw [tls, inHandler.saved.ra], by rw [tls]; exact inHandler.saved.sp,
    by rw [tls, inHandler.saved.myctx]⟩
  record := by rw [record]; exact inHandler.record

theorem Parked.congr (parked : Parked mem c w e) : Parked mem' c w e where
  started := parked.started.congr record
  frame := parked.frame.congr stack
  sp := by rw [record, parked.sp]
  resume := by rw [record]; exact parked.resume
  record := by rw [record]; exact parked.record

omit stack in
theorem Fresh.congr (fresh : Fresh mem c u) : Fresh mem' c u where
  ra := by rw [record, fresh.ra]
  sp := by rw [record, fresh.sp]
  record := by rw [record]; exact fresh.record

end Congr

/-! ## Frames -/

variable {s : KState} {b : Block} {o : Nat}

theorem frameCtx_eq (sp : s.regs .sp = .ptr b o) : frameCtx s = s.mem b (o + FRAME_CTX) := by
  rw [frameCtx, sp]

@[simp]
theorem clobber_mem (junk : Reg → KVal) : (clobber s junk).mem = s.mem := rfl

@[simp]
theorem clobber_csrs (junk : Reg → KVal) : (clobber s junk).csrs = s.csrs := rfl

@[simp]
theorem clobber_sp (junk : Reg → KVal) : (clobber s junk).regs .sp = s.regs .sp := by
  simp [clobber]

@[simp]
theorem clobber_tp (junk : Reg → KVal) : (clobber s junk).regs .tp = s.regs .tp := by
  simp [clobber]

/-- The prologue stores the frame below the stack pointer. -/
theorem pushFrame_spec (sp : s.regs .sp = .ptr b o) (room : FRAME ≤ o) :
    ∃ s', pushFrame s = some s' ∧ s'.regs .sp = .ptr b (o - FRAME) ∧
      (∀ r, r ≠ .sp → s'.regs r = s.regs r) ∧ s'.csrs = s.csrs ∧
      (∀ slot ∈ frameSlots ++ [(.a0, FRAME_CTX)],
        s'.mem b (o - FRAME + slot.2) = s.regs slot.1) ∧
      ∀ b', b' ≠ b → s'.mem b' = s.mem b' := by
  obtain ⟨mem, stores, stored⟩ := exec_saves (s := s.setReg .sp (.ptr b (o - FRAME)))
    (frameSlots ++ [(.a0, FRAME_CTX)]) (State.setReg_self ..) (by decide)
  refine ⟨⟨(s.setReg .sp (.ptr b (o - FRAME))).regs, s.csrs, mem⟩, ?_, ?_, ?_, rfl, ?_,
    stored.blocks⟩
  · simp only [pushFrame, sp]
    rw [if_pos room, stores]
    rfl
  · exact State.setReg_self s .sp _
  · exact fun r ne => State.setReg_of_ne s .sp _ ne
  · intro slot inSlots
    have notSp : ∀ slot ∈ frameSlots ++ [(.a0, FRAME_CTX)], slot.1 ≠ Reg.sp := by decide
    exact (stored.stored slot inSlots).trans (State.setReg_of_ne _ _ _ (notSp slot inSlots))

/-- The epilogue loads what the prologue has stored. -/
theorem popFrame_spec (sp : s.regs .sp = .ptr b o) :
    ∃ s', popFrame s = some s' ∧ s'.mem = s.mem ∧ s'.csrs = s.csrs ∧
      ∀ slot ∈ frameSlots, s'.regs slot.1 = s.mem b (o + slot.2) := by
  obtain ⟨regs, loads, loaded, _⟩ :=
    exec_loads frameSlots sp (by decide) (by decide)
  refine ⟨State.setReg ⟨regs, s.csrs, s.mem⟩ .sp (.ptr b (o + FRAME)), ?_, rfl, rfl, ?_⟩
  · simp only [popFrame, sp]
    rw [loads]
    rfl
  · intro slot inSlots
    have notSp : ∀ slot ∈ frameSlots, slot.1 ≠ Reg.sp := by decide
    rw [State.setReg_of_ne _ _ _ (notSp slot inSlots)]
    exact loaded slot inSlots

/-! ## Back to user mode -/

theorem userCell_dasics : ∀ slot ∈ pairSlots dasicsPairs,
    ¬UserCell slot.off ∧ slot.csr ≠ CSR_USCRATCH ∧ slot.csr ≠ CSR_UEPC ∧
      slot.csr ≠ CSR_UCAUSE ∧ slot.csr ≠ CSR_UTVAL ∧ slot.csr ≠ CSR_DFREASON ∧
      slot.csr ≠ CSR_UTIMECMP := by
  unfold UserCell
  decide

/-- `RESTORE_ALL` and `uret` resume a context with what its record holds. -/
theorem uret_restored {s' : KState} (restored : RestoredAll (.ctx c) s s')
    (cur : h.cur = some c) (record : RecordHolds (s.mem (.ctx c)) u) :
    h.uret s' = some (h.withState s' (.user u.pc), s.mem, [.resumed c u h.fregs]) := by
  have uepc : s'.csrs CSR_UEPC = .word u.pc := restored.uepc.trans record.pc
  have regs : s'.regs = u.regs := funext fun r => (restored.regs r).trans (record.regs r)
  rw [Hart.uret, uepc, cur, restored.mem, regs]
  rfl

/-- The end of the handler resumes the context. -/
theorem ufaultReturn_spec (junk : Reg → KVal) (cur : h.cur = some c)
    (sp : s.regs .sp = .ptr (.kstack c) (KSTACK - FRAME)) (frame : HandlerFrame s.mem c)
    (started : StartedBy s.mem c w) (saved : SchedSaved s.mem w c)
    (dasics : DasicsLoaded s.csrs (s.mem (.ctx c))) (record : RecordHolds (s.mem (.ctx c)) u) :
    ∃ h', h.ufaultReturn s junk = some (h', s.mem, [.resumed c u h.fregs]) ∧
      InUser h' s.mem w c := by
  obtain ⟨popped, pops, sameMem, sameCsrs, loaded⟩ :=
    popFrame_spec (s := clobber s junk) (by rw [clobber_sp, sp])
  have ra : popped.regs .ra = .code .ufaultReturn :=
    (loaded (.ra, 0) (by decide)).trans frame.ra
  have s0 : popped.regs .s0 = .ptr (.ctx c) 0 := (loaded (.s0, 8) (by decide)).trans frame.s0
  obtain ⟨s', restores, restored⟩ :=
    restoreAll_spec (s := popped.setReg .a0 (popped.regs .s0)) (by rw [State.setReg_self, s0])
  have kept : (popped.setReg .a0 (popped.regs .s0)).mem = s.mem := sameMem
  refine ⟨h.withState s' (.user u.pc), ?_, ⟨u.pc, rfl⟩, cur, started, restored.uscratch, ?_, saved⟩
  · simp only [Hart.ufaultReturn, pops, Option.bind_eq_bind, Option.bind_some, ra]
    rw [exec, Instr.exec, Option.bind_some, restores, Option.bind_some,
      uret_restored restored cur (by rwa [kept]), kept]
  · intro slot inSlots
    obtain ⟨_, notScratch, notEpc, _⟩ := userCell_dasics slot inSlots
    refine (restored.csrs slot.csr notScratch notEpc).trans ?_
    rw [State.setReg_csrs, sameCsrs]
    exact dasics slot inSlots

/-! ## Traps -/

/-- The state in which `dasics_ufault_entry` starts. -/
def trapState (h : Hart) (mem : Mem Block Label) (pc cause utval dfreason : Word) : KState :=
  ((((h.state mem).setCsr CSR_UEPC (.word pc)).setCsr CSR_UCAUSE (.word cause)).setCsr
    CSR_UTVAL (.word utval)).setCsr CSR_DFREASON (.word dfreason)

theorem trapState_csr {pc cause utval dfreason : Word} {csr : Nat} (notEpc : csr ≠ CSR_UEPC)
    (notCause : csr ≠ CSR_UCAUSE) (notTval : csr ≠ CSR_UTVAL) (notReason : csr ≠ CSR_DFREASON) :
    (trapState h mem pc cause utval dfreason).csrs csr = h.csrs csr := by
  simp [trapState, notEpc, notCause, notTval, notReason, Hart.state]

/-- `arch_syshandle` goes on in one of its two branches; in a system call it has
advanced the program counter. -/
theorem archSyshandle_spec {loc : Loc} {s' : KState} {cause ticks : Word}
    (record : RecordHolds (s.mem (.ctx c)) u)
    (ucause : s.mem (.ctx c) OFFSET_UCAUSE = .word cause)
    (branched : Hart.archSyshandle s (.ptr (.ctx c) 0) ticks = some (s', loc)) :
    ((loc = .timer ∨ loc = .timerDone) ∧ decide (cause ≠ CAUSE_IRQ_U_TIME) = false ∨
        loc = .syscall ∧ decide (cause ≠ CAUSE_IRQ_U_TIME) = true) ∧ s'.regs = s.regs ∧
      (∀ csr, csr ≠ CSR_UTIMECMP → s'.csrs csr = s.csrs csr) ∧
      (∀ b, b ≠ .ctx c → s'.mem b = s.mem b) ∧
      (∀ off, off ≠ OFFSET_UEPC → s'.mem (.ctx c) off = s.mem (.ctx c) off) ∧
      RecordHolds (s'.mem (.ctx c)) (Expected.pending ⟨u, decide (cause ≠ CAUSE_IRQ_U_TIME)⟩) := by
  simp only [Hart.archSyshandle, Nat.zero_add, record.pc, ucause, Val.word.injEq] at branched
  by_cases isTimer : cause = CAUSE_IRQ_U_TIME
  · rw [if_pos isTimer, Option.some.injEq, Prod.mk.injEq] at branched
    obtain ⟨rfl, rfl⟩ := branched
    have notEcall : decide (cause ≠ CAUSE_IRQ_U_TIME) = false := by simp [isTimer]
    rw [notEcall]
    exact ⟨.inl ⟨.inl rfl, rfl⟩, rfl, fun csr ne => State.setCsr_of_ne _ _ _ ne, fun _ _ => rfl,
      fun _ _ => rfl, record⟩
  · rw [if_neg isTimer] at branched
    have isEcall : decide (cause ≠ CAUSE_IRQ_U_TIME) = true := by simp [isTimer]
    rw [isEcall]
    split at branched
    · rw [Option.some.injEq, Prod.mk.injEq] at branched
      obtain ⟨rfl, rfl⟩ := branched
      have others : ∀ off, off ≠ OFFSET_UEPC →
          (s.store (.ctx c) OFFSET_UEPC (.word (u.pc + 4))).mem (.ctx c) off =
            s.mem (.ctx c) off :=
        fun off ne => State.store_of_ne _ _ _ _ ne
      have notEpc : ∀ r, OFFSET r ≠ OFFSET_UEPC := by
        intro r
        cases r <;> decide
      refine ⟨.inr ⟨rfl, rfl⟩, rfl, fun _ _ => rfl, fun b ne => State.store_block _ _ _ _ ne,
        others, ?_⟩
      exact ⟨fun r => (others _ (notEpc r)).trans (record.regs r), State.store_self ..⟩
    · contradiction

/-- A trap leads into the handler of the context, with the thread pointer of the
worker that entered it first. -/
theorem trap_spec (inUser : InUser h mem w c) {pc cause utval dfreason ticks : Word}
    {junk : Reg → KVal}
    (trapped : h.trap mem pc cause utval dfreason ticks junk = some (h', mem', obs)) :
    InHandler h' mem' w c ⟨⟨h.regs, pc⟩, decide (cause ≠ CAUSE_IRQ_U_TIME)⟩ ∧
      obs = [.trapped c cause ⟨h.regs, pc⟩ h.fregs (.ptr (.tls w) 0)] ∧
      ∀ b, b ≠ .ctx c → b ≠ .kstack c → mem' b = mem b := by
  obtain ⟨start, starts⟩ : ∃ start, start = trapState h mem pc cause utval dfreason := ⟨_, rfl⟩
  have startMem : start.mem = mem := by rw [starts]; rfl
  have scratch : start.csrs CSR_USCRATCH = .ptr (.ctx c) 0 := by
    rw [starts, trapState_csr (by decide) (by decide) (by decide) (by decide), inUser.uscratch]
  obtain ⟨saved, saves, all⟩ := saveAll_spec scratch
  have sp : saved.regs .sp = .ptr (.kstack c) KSTACK := by
    rw [all.host.1, startMem, inUser.started.ksp]
  have tp : saved.regs .tp = .ptr (.tls w) 0 := by
    rw [all.host.2, startMem, inUser.started.ktp]
  have savedRecord : RecordHolds (saved.mem (.ctx c)) ⟨h.regs, pc⟩ := by
    constructor
    · intro r
      rw [all.regs r, starts]
      rfl
    · rw [all.causes.1, starts]
      simp [trapState, CSR_UEPC, CSR_UCAUSE, CSR_UTVAL, CSR_DFREASON]
  have savedCause : saved.mem (.ctx c) OFFSET_UCAUSE = .word cause := by
    rw [all.causes.2.1, starts]
    simp [trapState, CSR_UCAUSE, CSR_UTVAL, CSR_DFREASON]
  obtain ⟨called, call⟩ : ∃ called, called =
      (saved.setReg .a0 (saved.regs .s0)).setReg .ra (.code .ufaultReturn) := ⟨_, rfl⟩
  have calledSp : called.regs .sp = .ptr (.kstack c) KSTACK := by simp [call, sp]
  obtain ⟨pushed, pushes, pushedSp, pushedRegs, pushedCsrs, slots, blocks⟩ :=
    pushFrame_spec calledSp (by decide)
  have frame : HandlerFrame pushed.mem c := by
    constructor
    · refine (slots (.ra, 0) (by decide)).trans ?_
      simp [call]
    · refine (slots (.s0, 8) (by decide)).trans ?_
      simp [call, all.s0]
    · refine (slots (.a0, FRAME_CTX) (by decide)).trans ?_
      simp [call, all.s0]
  have pushedBlocks : ∀ b, b ≠ .kstack c → pushed.mem b = saved.mem b := by
    intro b other
    rw [blocks b other, call]
    rfl
  -- Now `arch_syshandle`.
  simp only [Hart.trap, Option.bind_eq_bind] at trapped
  rw [← trapState, ← starts, saves, Option.bind_some, ← call, pushes, Option.bind_some,
    frameCtx_eq pushedSp, frame.ctx, Option.bind_eq_some_iff] at trapped
  obtain ⟨⟨s', loc⟩, branched, result⟩ := trapped
  obtain ⟨branch, regs, csrs, otherBlocks, otherCells, record⟩ :=
    archSyshandle_spec (s := clobber pushed junk) (by rwa [clobber_mem, pushedBlocks _ (by simp)])
      (by rwa [clobber_mem, pushedBlocks _ (by simp)]) branched
  simp only [clobber_mem, clobber_csrs] at regs csrs otherBlocks otherCells record
  rw [inUser.cur, tp, Option.some.injEq, Prod.mk.injEq, Prod.mk.injEq] at result
  obtain ⟨rfl, rfl, rfl⟩ := result
  have outside : ∀ off, ¬UserCell off → s'.mem (.ctx c) off = mem (.ctx c) off := by
    intro off notUser
    have notEpc : off ≠ OFFSET_UEPC := by
      rintro rfl
      exact notUser (by unfold UserCell; decide)
    rw [otherCells off notEpc, pushedBlocks _ (by simp), all.cells off notUser, startMem]
  have others : ∀ b, b ≠ .ctx c → b ≠ .kstack c → s'.mem b = mem b := by
    intro b notCtx notStack
    rw [otherBlocks b notCtx, pushedBlocks b notStack, all.blocks b notCtx, startMem]
  refine ⟨⟨branch, inUser.cur, ⟨?_, ?_⟩, ?_, ?_, ?_, ?_, ?_, record⟩, rfl, others⟩
  · rw [outside _ (by unfold UserCell; decide), inUser.started.ksp]
  · rw [outside _ (by unfold UserCell; decide), inUser.started.ktp]
  · exact frame.congr (otherBlocks _ (by simp))
  · exact (congrFun regs .sp).trans ((clobber_sp junk).trans pushedSp)
  · refine (congrFun regs .tp).trans ((clobber_tp junk).trans ((pushedRegs .tp (by decide)).trans ?_))
    simp [call, tp]
  · intro slot inSlots
    obtain ⟨notUser, notScratch, notEpc, notCause, notTval, notReason, notCmp⟩ :=
      userCell_dasics slot inSlots
    refine (csrs slot.csr notCmp).trans ?_
    rw [pushedCsrs, call, outside slot.off notUser]
    refine (all.csrs slot.csr notScratch).trans ?_
    rw [starts, trapState_csr notEpc notCause notTval notReason]
    exact inUser.dasics slot inSlots
  · have tls : s'.mem (.tls w) = mem (.tls w) := others _ (by simp) (by simp)
    exact ⟨by rw [tls, inUser.saved.ra], by rw [tls]; exact inUser.saved.sp,
      by rw [tls, inUser.saved.myctx]⟩

/-! ## The way back -/

/-- The timer branch resumes the context with the state it was interrupted in. -/
theorem timerReturn_spec (inHandler : InHandler h mem w c e) (loc : h.loc = .timerDone)
    {junk : Reg → KVal} (returned : h.ufaultReturn (h.state mem) junk = some (h', mem', obs)) :
    InUser h' mem' w c ∧ e.ecall = false ∧ obs = [.resumed c e.user h.fregs] ∧ mem' = mem := by
  have notEcall : e.ecall = false := inHandler.ecall_false (by simp [loc])
  have record := inHandler.record
  rw [Expected.pending, notEcall] at record
  obtain ⟨next, returns, inUser⟩ := ufaultReturn_spec (s := h.state mem) junk inHandler.cur
    inHandler.sp inHandler.frame inHandler.started inHandler.saved inHandler.dasics record
  rw [returns, Option.some.injEq, Prod.mk.injEq, Prod.mk.injEq] at returned
  obtain ⟨rfl, rfl, rfl⟩ := returned
  exact ⟨inUser, notEcall, rfl, rfl⟩

/-- A system call resumes the context behind the `ecall`, with the result in `a0`. -/
theorem handled_spec (inHandler : InHandler h mem w c e) (loc : h.loc = .syscall)
    {result : Word} {junk : Reg → KVal}
    (returned : h.handled mem result junk = some (h', mem', obs)) :
    InUser h' mem' w c ∧ e.ecall = true ∧
      obs = [.handled c result, .resumed c (e.user.returned result) h.fregs] ∧
      ∀ b, b ≠ .ctx c → mem' b = mem b := by
  have isEcall : e.ecall = true := inHandler.ecall_true loc
  have record := inHandler.record
  rw [Expected.pending, isEcall] at record
  obtain ⟨stored, store⟩ : ∃ stored, stored =
      (h.state mem).store (.ctx c) (OFFSET .a0) (.word result) := ⟨_, rfl⟩
  have blocks : ∀ b, b ≠ .ctx c → stored.mem b = mem b := by
    intro b other
    rw [store]
    exact State.store_block _ _ _ _ other
  have cells : ∀ off, off ≠ OFFSET .a0 → stored.mem (.ctx c) off = mem (.ctx c) off := by
    intro off other
    rw [store]
    exact State.store_of_ne _ _ _ _ other
  have recordNow : RecordHolds (stored.mem (.ctx c)) (e.user.returned result) := by
    constructor
    · intro r
      by_cases isA0 : r = .a0
      · subst isA0
        rw [store]
        refine (State.store_self (h.state mem) _ _ _).trans ?_
        simp [UserState.returned]
      · have apart : OFFSET r ≠ OFFSET .a0 := by
          cases r <;> first | exact absurd rfl isA0 | decide
        rw [cells _ apart, record.regs r]
        exact (Function.update_of_ne isA0 ..).symm
    · rw [cells _ (by decide), record.pc]
      rfl
  have dasics : DasicsLoaded stored.csrs (stored.mem (.ctx c)) := by
    intro slot inSlots
    have apart : slot.off ≠ OFFSET .a0 := by
      rintro same
      apply (userCell_dasics slot inSlots).1
      rw [same]
      unfold UserCell
      decide
    rw [cells _ apart, store]
    exact inHandler.dasics slot inSlots
  have tls : stored.mem (.tls w) = mem (.tls w) := blocks _ (by simp)
  have saved : SchedSaved stored.mem w c :=
    ⟨by rw [tls, inHandler.saved.ra], by rw [tls]; exact inHandler.saved.sp,
      by rw [tls, inHandler.saved.myctx]⟩
  have started : StartedBy stored.mem c w :=
    ⟨by rw [cells _ (by decide), inHandler.started.ksp],
      by rw [cells _ (by decide), inHandler.started.ktp]⟩
  have sp : stored.regs .sp = .ptr (.kstack c) (KSTACK - FRAME) := by
    rw [store]
    exact inHandler.sp
  obtain ⟨next, returns, inUser⟩ := ufaultReturn_spec (h := h) junk inHandler.cur sp
    (inHandler.frame.congr (blocks _ (by simp))) started saved dasics recordNow
  have argument : frameCtx (h.state mem) = .ptr (.ctx c) 0 :=
    (frameCtx_eq (s := h.state mem) inHandler.sp).trans inHandler.frame.ctx
  simp only [Hart.handled, argument, Nat.zero_add] at returned
  rw [← store, returns, inHandler.cur] at returned
  simp only [Option.bind_eq_bind, Option.bind_some, Option.some.injEq, Prod.mk.injEq] at returned
  obtain ⟨rfl, rfl, rfl⟩ := returned
  exact ⟨inUser, isEcall, rfl, blocks⟩

/-! ## Switching away -/

theorem kregs_above {off : Nat} (below : off < OFFSET_KREGS) :
    ∀ slot ∈ kregsSlots, off ≠ OFFSET_KREGS + slot.2 := by
  rintro slot _ rfl
  omega

/-- The cells of a record in front of `kregs` are not touched by a switch. -/
theorem RecordHolds.congr {record record' : Nat → KVal} (holds : RecordHolds record u)
    (same : ∀ off, off < OFFSET_KREGS → record' off = record off) : RecordHolds record' u where
  regs := by
    intro r
    have below : OFFSET r < OFFSET_KREGS := by cases r <;> decide
    rw [same _ below, holds.regs r]
  pc := by rw [same _ (by decide), holds.pc]

theorem lpsKswitchFrom_eq {tls : Block} {o o' : Nat} (tp : s.regs .tp = .ptr tls o)
    (label : Label) (junk : Reg → KVal) :
    lpsKswitchFrom s (.ptr b o') label junk = exec (kswitchCall (clobber s junk) (.word 0)
      (.ptr b (o' + OFFSET_KREGS)) (.ptr tls (o + LPS_KCTX)) label) kswitch := by
  simp only [lpsKswitchFrom, tp]

/-- `lps_thread_exit` parks the context and returns to the scheduler loop of the
worker. -/
theorem exit_spec (inHandler : InHandler h mem w c e) {state : LPSThreadState} {label : Label}
    (place : (h.loc = .timer ∧ label = .timerExited) ∨ (h.loc = .syscall ∧ label = .syscallExited))
    {junk : Reg → KVal} (exited : h.exit mem state label junk = some (h', mem', obs)) :
    InSched h' w ∧ Parked mem' c w e ∧
      (∃ o, obs = [.left c (.ptr (.hstack w) o) (.ptr (.tls w) 0)]) ∧
      ∀ b, b ≠ .ctx c → mem' b = mem b := by
  have argument : frameCtx (h.state mem) = .ptr (.ctx c) 0 :=
    (frameCtx_eq (s := h.state mem) inHandler.sp).trans inHandler.frame.ctx
  obtain ⟨called, call⟩ : ∃ called, called = kswitchCall (clobber (h.state mem) junk) (.word 0)
      (.ptr (.ctx c) OFFSET_KREGS) (.ptr (.tls w) LPS_KCTX) label := ⟨_, rfl⟩
  have atOld : called.regs .a1 = .ptr (.ctx c) OFFSET_KREGS := by simp [call, kswitchCall]
  have atNew : called.regs .a2 = .ptr (.tls w) LPS_KCTX := by simp [call, kswitchCall]
  obtain ⟨regs, mem'', switches, stored, loaded, kept⟩ := kswitch_spec atOld atNew (by simp)
  have calledMem : called.mem = mem := by rw [call]; rfl
  obtain ⟨o, savedSp⟩ := inHandler.saved.sp
  have ra : regs .ra = .code .switchedTo := by
    rw [loaded (.ra, 0) (by decide), calledMem]
    exact inHandler.saved.ra
  have sp : regs .sp = .ptr (.hstack w) o := by
    rw [loaded (.sp, 8) (by decide), calledMem]
    exact savedSp
  have tp : regs .tp = .ptr (.tls w) 0 := by
    rw [kept .tp (by decide), call]
    simp [kswitchCall, Hart.state, inHandler.tp]
  have ctxCell : (if state = .blocked then mem (.tls w) (0 + LPS_MYCTX)
      else frameCtx (h.state mem)) = .ptr (.ctx c) 0 := by
    split
    · exact inHandler.saved.myctx
    · exact argument
  have callsKswitch : h.exit mem state label junk = (exec called kswitch).bind h.ret := by
    simp only [Hart.exit, inHandler.tp]
    rw [ctxCell, lpsKswitchFrom_eq inHandler.tp, call]
    simp only [Nat.zero_add]
  rw [callsKswitch, switches, Option.bind_some] at exited
  simp only [Hart.ret, ra, inHandler.cur, Option.some.injEq, Prod.mk.injEq] at exited
  obtain ⟨rfl, rfl, rfl⟩ := exited
  have cells : ∀ off, off < OFFSET_KREGS → mem'' (.ctx c) off = mem (.ctx c) off := by
    intro off below
    rw [stored.kept off (kregs_above below), calledMem]
  have blocks : ∀ b, b ≠ .ctx c → mem'' b = mem b := by
    intro b other
    rw [stored.blocks b other, calledMem]
  have parkedRa : mem'' (.ctx c) (OFFSET_KREGS + CONTEXT_RA) = .code label := by
    refine (stored.stored (.ra, 0) (by decide)).trans ?_
    simp [call, kswitchCall]
  have parkedSp : mem'' (.ctx c) (OFFSET_KREGS + CONTEXT_SP) =
      .ptr (.kstack c) (KSTACK - FRAME) := by
    refine (stored.stored (.sp, 8) (by decide)).trans ?_
    simp [call, kswitchCall, Hart.state, inHandler.sp]
  refine ⟨⟨rfl, rfl, tp, o, sp⟩, ⟨⟨?_, ?_⟩, ?_, parkedSp, ?_, inHandler.record.congr cells⟩,
    ⟨o, by rw [sp, tp]; rfl⟩, blocks⟩
  · rw [cells _ (by decide), inHandler.started.ksp]
  · rw [cells _ (by decide), inHandler.started.ktp]
  · exact inHandler.frame.congr (blocks _ (by simp))
  · rcases place with ⟨loc, rfl⟩ | ⟨loc, rfl⟩
    · exact .inl ⟨parkedRa, inHandler.ecall_false (by simp [loc])⟩
    · exact .inr ⟨parkedRa, inHandler.ecall_true loc⟩

/-! ## Switching to a context -/

/-- `lps_kswitch_to` loads the bounds, saves the scheduler and loads the `kregs` of
the context. -/
theorem lpsKswitchTo_spec {junk : Reg → KVal} {s' : KState} {o : Nat}
    (tp : s.regs .tp = .ptr (.tls w) 0) (sp : s.regs .sp = .ptr (.hstack w) o)
    (switched : lpsKswitchTo s c junk = some s') :
    SchedSaved s'.mem w c ∧ DasicsLoaded s'.csrs (s.mem (.ctx c)) ∧
      s'.regs .a0 = .ptr (.ctx c) 0 ∧ s'.regs .tp = .ptr (.tls w) 0 ∧
      s'.regs .ra = s.mem (.ctx c) (OFFSET_KREGS + CONTEXT_RA) ∧
      s'.regs .sp = s.mem (.ctx c) (OFFSET_KREGS + CONTEXT_SP) ∧
      ∀ b, b ≠ .tls w → s'.mem b = s.mem b := by
  obtain ⟨start, starts⟩ : ∃ start, start =
      (clobber (s.store (.tls w) LPS_MYCTX (.ptr (.ctx c) 0)) junk).setReg .a0 (.ptr (.ctx c) 0) :=
    ⟨_, rfl⟩
  have startCtx : start.mem (.ctx c) = s.mem (.ctx c) := by simp [starts]
  have atRecord : start.regs .a0 = .ptr (.ctx c) 0 := by simp [starts]
  obtain ⟨ready, loads, dasics, readyMem, readyRegs, _⟩ := lpsLoadDasics_spec atRecord
  obtain ⟨called, call⟩ : ∃ called, called = kswitchCall ready (.ptr (.ctx c) 0)
      (.ptr (.tls w) LPS_KCTX) (.ptr (.ctx c) OFFSET_KREGS) .switchedTo := ⟨_, rfl⟩
  have atOld : called.regs .a1 = .ptr (.tls w) LPS_KCTX := by simp [call, kswitchCall]
  have atNew : called.regs .a2 = .ptr (.ctx c) OFFSET_KREGS := by simp [call, kswitchCall]
  obtain ⟨regs, mem, switches, stored, loaded, kept⟩ := kswitch_spec atOld atNew (by simp)
  have calledMem : called.mem = start.mem := by rw [call, ← readyMem]; rfl
  have runs : lpsKswitchTo s c junk = some ⟨regs, called.csrs, mem⟩ := by
    simp only [lpsKswitchTo, tp, Nat.zero_add]
    rw [← starts, Option.bind_eq_bind, loads, Option.bind_some, ← call, switches]
  rw [runs, Option.some.injEq] at switched
  subst switched
  have startSp : called.regs .sp = .ptr (.hstack w) o := by
    have readySp : ready.regs .sp = start.regs .sp :=
      readyRegs .sp (by decide) (by decide) (by decide)
    simp [call, kswitchCall, readySp, starts, sp]
  have myctx : mem (.tls w) LPS_MYCTX = .ptr (.ctx c) 0 := by
    rw [stored.kept LPS_MYCTX (by decide), calledMem, starts]
    simp
  refine ⟨⟨?_, ⟨o, ?_⟩, myctx⟩, ?_, ?_, ?_, ?_, ?_, ?_⟩
  · refine (stored.stored (.ra, 0) (by decide)).trans ?_
    simp [call, kswitchCall]
  · exact (stored.stored (.sp, 8) (by decide)).trans startSp
  · intro slot inSlots
    rw [← startCtx, ← dasics slot inSlots, call]
    rfl
  · refine (kept .a0 (by decide)).trans ?_
    simp [call, kswitchCall]
  · have readyTp : ready.regs .tp = start.regs .tp :=
      readyRegs .tp (by decide) (by decide) (by decide)
    refine (kept .tp (by decide)).trans ?_
    simp [call, kswitchCall, readyTp, starts, tp]
  · exact (loaded (.ra, 0) (by decide)).trans (by rw [calledMem, startCtx]; rfl)
  · exact (loaded (.sp, 8) (by decide)).trans (by rw [calledMem, startCtx]; rfl)
  · intro b other
    refine (stored.blocks b other).trans ?_
    rw [calledMem, starts]
    simp [other]

/-- The first entry goes through `lps_ctx_entry`, which records the worker, to user
mode. -/
theorem enter_fresh (inSched : InSched h w) (fresh : Fresh mem c u) {junk : Reg → KVal}
    (entered : h.step mem (.enter c junk) = some (h', mem', obs)) :
    InUser h' mem' w c ∧ obs = [.entered c (.ptr (.tls w) 0), .resumed c u h.fregs] ∧
      ∀ b, b ≠ .ctx c → b ≠ .tls w → mem' b = mem b := by
  obtain ⟨o, sp⟩ := inSched.sp
  simp only [Hart.step, inSched.loc, Option.bind_eq_bind, Option.bind_eq_some_iff] at entered
  obtain ⟨s, switched, ⟨next, nextMem, nextObs⟩, returned, result⟩ := entered
  obtain ⟨saved, dasics, a0, tp, ra, ksp, blocks⟩ :=
    lpsKswitchTo_spec (s := h.state mem) inSched.tp sp switched
  have sameCtx : s.mem (.ctx c) = mem (.ctx c) := blocks _ (by simp)
  obtain ⟨s', runs, regs, uscratch, uepc, csrs, stored⟩ := lpsCtxEntry_spec a0
  have recordNow : RecordHolds (s.mem (.ctx c)) u := by rw [sameCtx]; exact fresh.record
  have atEntry : s.regs .ra = .code .lpsCtxEntry := ra.trans fresh.ra
  have pc : s'.csrs CSR_UEPC = .word u.pc := uepc.trans recordNow.pc
  have user : s'.regs = u.regs := funext fun r => (regs r).trans (recordNow.regs r)
  simp only [Hart.ret, atEntry, runs, Option.bind_some, Hart.uret, pc, user, Option.some.injEq,
    Prod.mk.injEq] at returned
  obtain ⟨rfl, rfl, rfl⟩ := returned
  simp only [Option.some.injEq, Prod.mk.injEq] at result
  obtain ⟨rfl, rfl, rfl⟩ := result
  have cells : ∀ off, OFFSET .ra ≤ off → s'.mem (.ctx c) off = mem (.ctx c) off := by
    intro off above
    rw [stored.kept off, sameCtx]
    have below : ∀ slot ∈ hostSlots, slot.2 < OFFSET .ra := by decide
    rintro slot inSlots same
    have := below slot inSlots
    omega
  have tls : s'.mem (.tls w) = s.mem (.tls w) := stored.blocks _ (by simp)
  have kspStored : s'.mem (.ctx c) OFFSET_KSP = .ptr (.kstack c) KSTACK :=
    (stored.stored (.sp, OFFSET_KSP) (by decide)).trans (ksp.trans fresh.sp)
  have ktpStored : s'.mem (.ctx c) OFFSET_KTP = .ptr (.tls w) 0 :=
    (stored.stored (.tp, OFFSET_KTP) (by decide)).trans tp
  refine ⟨⟨⟨u.pc, rfl⟩, rfl, ⟨kspStored, ktpStored⟩, uscratch, ?_, ?_⟩, ?_, ?_⟩
  · intro slot inSlots
    obtain ⟨_, notScratch, notEpc, _⟩ := userCell_dasics slot inSlots
    have above : ∀ slot ∈ pairSlots dasicsPairs, OFFSET .ra ≤ slot.off := by decide
    rw [cells _ (above slot inSlots)]
    exact (csrs _ notScratch notEpc).trans (dasics slot inSlots)
  · exact ⟨by rw [tls, saved.ra], by rw [tls]; exact saved.sp, by rw [tls, saved.myctx]⟩
  · rw [inSched.tp]
    rfl
  · intro b notCtx notTls
    rw [stored.blocks b notCtx]
    exact blocks b notTls

/-- Entering a context again leads back into its handler. -/
theorem enter_parked (inSched : InSched h w) (parked : Parked mem c w e) {junk : Reg → KVal}
    (entered : h.step mem (.enter c junk) = some (h', mem', obs)) :
    InHandler h' mem' w c e ∧ obs = [.entered c (.ptr (.tls w) 0)] ∧
      ∀ b, b ≠ .tls w → mem' b = mem b := by
  obtain ⟨o, sp⟩ := inSched.sp
  simp only [Hart.step, inSched.loc, Option.bind_eq_bind, Option.bind_eq_some_iff] at entered
  obtain ⟨s, switched, ⟨next, nextMem, nextObs⟩, returned, result⟩ := entered
  obtain ⟨saved, dasics, a0, tp, ra, ksp, blocks⟩ :=
    lpsKswitchTo_spec (s := h.state mem) inSched.tp sp switched
  have sameCtx : s.mem (.ctx c) = mem (.ctx c) := blocks _ (by simp)
  have started : StartedBy s.mem c w := parked.started.congr sameCtx
  have frame : HandlerFrame s.mem c := parked.frame.congr (blocks _ (by simp))
  have dasicsNow : DasicsLoaded s.csrs (s.mem (.ctx c)) := by rw [sameCtx]; exact dasics
  have resumedSp : s.regs .sp = .ptr (.kstack c) (KSTACK - FRAME) := ksp.trans parked.sp
  have record : RecordHolds (s.mem (.ctx c)) e.pending := by rw [sameCtx]; exact parked.record
  have observed : (.entered c (h.regs .tp) :: [] : List SwitchObs) =
      [.entered c (.ptr (.tls w) 0)] := by rw [inSched.tp]
  rcases parked.resume with ⟨atTimer, notEcall⟩ | ⟨atSyscall, isEcall⟩
  · have label : s.regs .ra = .code .timerExited := ra.trans atTimer
    simp only [Hart.ret, label, Option.some.injEq, Prod.mk.injEq] at returned
    obtain ⟨rfl, rfl, rfl⟩ := returned
    simp only [Option.some.injEq, Prod.mk.injEq] at result
    obtain ⟨rfl, rfl, rfl⟩ := result
    exact ⟨⟨.inl ⟨.inr rfl, notEcall⟩, rfl, started, frame, resumedSp, tp, dasicsNow, saved,
      record⟩, observed, blocks⟩
  · have label : s.regs .ra = .code .syscallExited := ra.trans atSyscall
    simp only [Hart.ret, label, Option.some.injEq, Prod.mk.injEq] at returned
    obtain ⟨rfl, rfl, rfl⟩ := returned
    simp only [Option.some.injEq, Prod.mk.injEq] at result
    obtain ⟨rfl, rfl, rfl⟩ := result
    exact ⟨⟨.inr ⟨rfl, isEcall⟩, rfl, started, frame, resumedSp, tp, dasicsNow, saved, record⟩,
      observed, blocks⟩

end Lps.Linux

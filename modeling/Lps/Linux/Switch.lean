import Lps.Core.Runtime
import Lps.Linux.Queue
import Lps.Transition.Run

/-!
# Switching between contexts

What one hart does from one entry into a sandbox to the next: `lps_kswitch_to`,
the first entry through `lps_ctx_entry`, a trap through `dasics_ufault_entry` into
`arch_syshandle`, `lps_kswitch_from`, and the way back to user mode.  The routines
of `runtime.S` are executed instruction by instruction.

The C code in between follows the calling convention: a function pushes its
return address and the callee-saved registers it uses on the stack and restores
them before it returns.  Which values it has in its registers meanwhile is
arbitrary and part of the event.  Neither it nor the assembly touches the
floating-point registers.
-/

namespace Lps.Linux

open Lps.Asm Lps.Core
open Lps.Transition (Step)

/-- The pieces of memory that matter to a switch: a `struct LPSContext`, a kernel
stack, the thread-local storage of a worker and its host stack. -/
inductive Block
  | ctx (c : Tid)
  | kstack (c : Tid)
  | tls (w : Nat)
  | hstack (w : Nat)
  deriving DecidableEq

/-- The code that a return address can point to. -/
inductive Label
  | lpsCtxEntry
  /-- Behind the `jal` in `dasics_ufault_entry`. -/
  | ufaultReturn
  /-- Behind the call in `lps_kswitch_to`. -/
  | switchedTo
  /-- Behind `lps_thread_exit` in the timer branch of `arch_syshandle`. -/
  | timerExited
  /-- Behind `lps_thread_exit` in a system call. -/
  | syscallExited
  deriving DecidableEq

abbrev KVal := Val Block Label

abbrev KState := State Block Label

/-- `&lps_myctx` and `&lps_kctx` in the storage of a worker. -/
def LPS_MYCTX : Nat := 0
def LPS_KCTX : Nat := 8

/-- The size of a kernel stack. -/
def KSTACK : Nat := 2 * 1024 * 1024

def CAUSE_IRQ_U_TIME : Word := BitVec.ofNat 64 (2 ^ 63 + 4)
def CAUSE_DASICS_U_CHECK_FAULT : Word := 0x18
def DFR_EF : Word := 1

/-! ## C code -/

/-- The frame of the handler: the return address, the callee-saved registers and
the argument `ctx`. -/
def frameSlots : List (Reg × Nat) :=
  [(.ra, 0), (.s0, 8), (.s1, 16), (.s2, 24), (.s3, 32), (.s4, 40), (.s5, 48), (.s6, 56),
    (.s7, 64), (.s8, 72), (.s9, 80), (.s10, 88), (.s11, 96)]

def FRAME_CTX : Nat := 104
def FRAME : Nat := 112

/-- C code leaves arbitrary values in all registers but the stack, global and
thread pointer. -/
def clobber (s : KState) (junk : Reg → KVal) : KState :=
  { s with regs := fun r => if r = .sp ∨ r = .gp ∨ r = .tp then s.regs r else junk r }

/-- The prologue of the handler. -/
def pushFrame (s : KState) : Option KState :=
  match s.regs .sp with
  | .ptr b o =>
      if FRAME ≤ o then
        exec (s.setReg .sp (.ptr b (o - FRAME)))
          (saves (frameSlots ++ [(.a0, FRAME_CTX)]) .sp)
      else none
  | _ => none

/-- The epilogue of the handler. -/
def popFrame (s : KState) : Option KState :=
  match s.regs .sp with
  | .ptr b o => (exec s (loads frameSlots .sp)).map fun s => s.setReg .sp (.ptr b (o + FRAME))
  | _ => none

/-- The argument `ctx` in the frame of the handler. -/
def frameCtx (s : KState) : KVal :=
  match s.regs .sp with
  | .ptr b o => s.mem b (o + FRAME_CTX)
  | v => v

/-- The arguments of `kswitch` and its return address. -/
def kswitchCall (s : KState) (a0 old new : KVal) (ret : Label) : KState :=
  (((s.setReg .a0 a0).setReg .a1 old).setReg .a2 new).setReg .ra (.code ret)

/-- `lps_kswitch_to`, up to the `ret` of `kswitch`. -/
def lpsKswitchTo (s : KState) (c : Tid) (junk : Reg → KVal) : Option KState :=
  match s.regs .tp with
  | .ptr tls o => do
      let s := s.store tls (o + LPS_MYCTX) (.ptr (.ctx c) 0)
      let s ← exec ((clobber s junk).setReg .a0 (.ptr (.ctx c) 0)) lpsLoadDasics
      exec (kswitchCall s (.ptr (.ctx c) 0) (.ptr tls (o + LPS_KCTX))
        (.ptr (.ctx c) OFFSET_KREGS) .switchedTo) kswitch
  | _ => none

/-- `lps_kswitch_from`, called for the context in `ctx`, up to the `ret` of
`kswitch`. -/
def lpsKswitchFrom (s : KState) (ctx : KVal) (ret : Label) (junk : Reg → KVal) :
    Option KState :=
  match s.regs .tp, ctx with
  | .ptr tls o, .ptr b o' =>
      exec (kswitchCall (clobber s junk) (.word 0) (.ptr b (o' + OFFSET_KREGS))
        (.ptr tls (o + LPS_KCTX)) ret) kswitch
  | _, _ => none

/-! ## Harts -/

/-- Where a hart is between two steps. -/
inductive Loc
  /-- In the scheduler. -/
  | sched
  /-- In user mode. -/
  | user (pc : Word)
  /-- In the timer branch of `arch_syshandle`, before `lps_thread_exit`. -/
  | timer
  /-- In the timer branch, after it. -/
  | timerDone
  /-- In `syshandle`. -/
  | syscall
  deriving DecidableEq

/-- A hart.  `cur` records which context it has been switched to, for the
observer; no step depends on it. -/
structure Hart where
  regs : Reg → KVal
  csrs : Nat → KVal
  fregs : Fin 32 → Word
  loc : Loc
  cur : Option Tid

/-- The user-visible integer state of a context. -/
structure UserState where
  regs : Reg → KVal
  pc : Word

/-- What is observed of a step. -/
inductive SwitchObs
  /-- `lps_kswitch_to` is called by the worker with this thread pointer. -/
  | entered (c : Tid) (tp : KVal)
  /-- The context traps; `SAVE_ALL` installs this thread pointer. -/
  | trapped (c : Tid) (cause : Word) (user : UserState) (fregs : Fin 32 → Word) (tp : KVal)
  /-- The system call of the context returns `result`. -/
  | handled (c : Tid) (result : Word)
  /-- The context goes on in user mode. -/
  | resumed (c : Tid) (user : UserState) (fregs : Fin 32 → Word)
  /-- `lps_thread_exit` of the context has returned to the scheduler loop of the
  worker with this stack and thread pointer. -/
  | left (c : Tid) (sp tp : KVal)

inductive HartEvent
  /-- The scheduler runs context `c`. -/
  | enter (c : Tid) (junk : Reg → KVal)
  /-- User code runs: it changes its registers and its program counter. -/
  | user (regs : Reg → KVal) (fregs : Fin 32 → Word) (pc : Word)
  /-- A trap; `ticks` is what the handler reads from the cycle counter. -/
  | trap (cause utval dfreason ticks : Word) (junk : Reg → KVal)
  /-- `lps_thread_exit` with the state the thread has set for itself. -/
  | exit (state : LPSThreadState) (junk : Reg → KVal)
  /-- The system call returns. -/
  | handled (result : Word) (junk : Reg → KVal)
  /-- The timer branch returns. -/
  | timerReturn (junk : Reg → KVal)

/-- What a step of a hart leads to: the hart, the memory and what is observed. -/
abbrev HartNext := Hart × Mem Block Label × List SwitchObs

namespace Hart

/-- The hart with its memory. -/
def state (h : Hart) (mem : Mem Block Label) : KState := ⟨h.regs, h.csrs, mem⟩

/-- The hart after its registers have changed. -/
def withState (h : Hart) (s : KState) (loc : Loc) : Hart :=
  { h with regs := s.regs, csrs := s.csrs, loc := loc }

/-- `uret`. -/
def uret (h : Hart) (s : KState) : Option HartNext :=
  match s.csrs CSR_UEPC with
  | .word pc =>
      some (h.withState s (.user pc), s.mem,
        h.cur.toList.map fun c => .resumed c ⟨s.regs, pc⟩ h.fregs)
  | _ => none

/-- The `ret` of `kswitch`. -/
def ret (h : Hart) (s : KState) : Option HartNext :=
  match s.regs .ra with
  | .code .lpsCtxEntry => (exec s lpsCtxEntry).bind h.uret
  | .code .switchedTo =>
      some ({ h.withState s .sched with cur := none }, s.mem,
        h.cur.toList.map fun c => .left c (s.regs .sp) (s.regs .tp))
  | .code .timerExited => some (h.withState s .timerDone, s.mem, [])
  | .code .syscallExited => some (h.withState s .syscall, s.mem, [])
  | _ => none

/-- The end of `dasics_ufault_entry`, with what the epilogue of the handler does. -/
def ufaultReturn (h : Hart) (s : KState) (junk : Reg → KVal) : Option HartNext := do
  let s ← popFrame (clobber s junk)
  match s.regs .ra with
  | .code .ufaultReturn => (exec s (.mv .a0 .s0 :: restoreAll)).bind h.uret
  | _ => none

/-- `arch_syshandle`, up to `lps_thread_exit` in the timer branch or `syshandle` in
the other one. -/
def archSyshandle (s : KState) (ctx : KVal) (ticks : Word) : Option (KState × Loc) :=
  match ctx with
  | .ptr b o =>
      if s.mem b (o + OFFSET_UCAUSE) = .word CAUSE_IRQ_U_TIME then
        some (s.setCsr CSR_UTIMECMP (.word (ticks + 10000000)), .timer)
      else if s.mem b (o + OFFSET_UCAUSE) = .word CAUSE_DASICS_U_CHECK_FAULT ∧
          s.mem b (o + OFFSET_DFREN) = .word DFR_EF then
        match s.mem b (o + OFFSET_UEPC) with
        | .word pc => some (s.store b (o + OFFSET_UEPC) (.word (pc + 4)), .syscall)
        | _ => none
      -- The assertions: any other fault ends the process.
      else none
  | _ => none

/-- The hardware takes the trap and `dasics_ufault_entry` calls the handler. -/
def trap (h : Hart) (mem : Mem Block Label) (pc cause utval dfreason ticks : Word)
    (junk : Reg → KVal) : Option HartNext := do
  let s := (((h.state mem).setCsr CSR_UEPC (.word pc)).setCsr CSR_UCAUSE (.word cause)).setCsr
    CSR_UTVAL (.word utval) |>.setCsr CSR_DFREASON (.word dfreason)
  let s ← exec s saveAll
  let tp := s.regs .tp
  let s ← pushFrame ((s.setReg .a0 (s.regs .s0)).setReg .ra (.code .ufaultReturn))
  let (s, loc) ← archSyshandle (clobber s junk) (frameCtx s) ticks
  some (h.withState s loc, s.mem,
    h.cur.toList.map fun c => .trapped c cause ⟨h.regs, pc⟩ h.fregs tp)

/-- `lps_thread_exit`; a thread that blocks is found through `lps_myctx`. -/
def exit (h : Hart) (mem : Mem Block Label) (state : LPSThreadState) (label : Label)
    (junk : Reg → KVal) : Option HartNext :=
  match h.regs .tp with
  | .ptr tls o =>
      let ctx := if state = .blocked then mem tls (o + LPS_MYCTX) else frameCtx (h.state mem)
      (lpsKswitchFrom (h.state mem) ctx label junk).bind h.ret
  | _ => none

/-- The result of the system call goes to `regs->a0`, and the handler returns. -/
def handled (h : Hart) (mem : Mem Block Label) (result : Word) (junk : Reg → KVal) :
    Option HartNext :=
  match frameCtx (h.state mem) with
  | .ptr b o => do
      let s := (h.state mem).store b (o + OFFSET .a0) (.word result)
      let (h', mem, obs) ← h.ufaultReturn s junk
      some (h', mem, (h.cur.toList.map fun c => .handled c result) ++ obs)
  | _ => none

/-- One step of a hart. -/
def step (h : Hart) (mem : Mem Block Label) (event : HartEvent) : Option HartNext :=
  match h.loc, event with
  | .sched, .enter c junk => do
      let s ← lpsKswitchTo (h.state mem) c junk
      let (h', mem, obs) ← { h with cur := some c }.ret s
      some (h', mem, .entered c (h.regs .tp) :: obs)
  | .user _, .user regs fregs pc =>
      some ({ h with regs := regs, fregs := fregs, loc := .user pc }, mem, [])
  | .user pc, .trap cause utval dfreason ticks junk =>
      h.trap mem pc cause utval dfreason ticks junk
  | .timer, .exit .runnable junk => h.exit mem .runnable .timerExited junk
  | .syscall, .exit state junk => h.exit mem state .syscallExited junk
  | .syscall, .handled result junk => h.handled mem result junk
  | .timerDone, .timerReturn junk => h.ufaultReturn (h.state mem) junk
  | _, _ => none

end Hart

/-! ## The machine -/

/-- The harts with their memory and the states of the threads.  `first` and
`last` record for the observer on which hart a context was first entered and on
which one it trapped last. -/
structure Machine where
  ncore : Nat
  harts : Nat → Hart
  mem : Mem Block Label
  state : Tid → LPSThreadState
  first : Tid → Option Nat
  last : Tid → Option Nat

namespace Machine

/-- Whether the scheduler may run `c` on a hart: the thread has not exited and no
hart runs it. -/
def Free (m : Machine) (c : Tid) : Prop :=
  m.state c ≠ .exited ∧ ∀ v < m.ncore, (m.harts v).cur ≠ some c

instance (m : Machine) (c : Tid) : Decidable (m.Free c) :=
  inferInstanceAs (Decidable (_ ∧ _))

/-- What the scheduler makes sure of before an event. -/
def Allows (m : Machine) : HartEvent → Prop
  | .enter c _ => m.Free c
  | _ => True

instance (m : Machine) : (event : HartEvent) → Decidable (m.Allows event)
  | .enter c _ => inferInstanceAs (Decidable (m.Free c))
  | .user .. | .trap .. | .exit .. | .handled .. | .timerReturn .. => .isTrue trivial

/-- What the observer records when hart `w` has taken a step to `h`. -/
def record (m : Machine) (w : Nat) (event : HartEvent) (h : Hart) : Machine :=
  match event, (m.harts w).cur with
  | .enter c _, _ =>
      { m with first := Function.update m.first c (some ((m.first c).getD w)) }
  | .trap .., some c => { m with last := Function.update m.last c (some w) }
  | .exit state _, some c =>
      -- The scheduler looks at the state once it has the hart back.
      if h.cur = none then { m with state := Function.update m.state c state } else m
  | _, _ => m

/-- One step of hart `w`. -/
def step : Step Machine (Nat × HartEvent) SwitchObs := fun m (w, event) =>
  if w < m.ncore ∧ m.Allows event then
    ((m.harts w).step m.mem event).map fun (h, mem, obs) =>
      ({ m.record w event h with harts := Function.update m.harts w h, mem := mem }, obs)
  else none

end Machine

end Lps.Linux

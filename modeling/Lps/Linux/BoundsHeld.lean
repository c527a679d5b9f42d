import Lps.Core.Engine
import Lps.Linux.SwitchRun
import Mathlib.Tactic.FinCases

/-!
# Bounds in force

No step of a hart writes the cells of a record that hold its bounds and its
configuration, so a hart in user mode has in its bound registers what `lps_ctx_new`
or `lps_thread_new` has set for the box of the context it runs: the hardware admits
exactly the addresses of this box, and none of another live one.
-/

namespace Lps.Core

open Lps.Asm

/-! ## Bounds in cells and in registers -/

section Shown

variable {β ℓ : Type} {regs regs' : BoundRegs} {cell cell' : CsrSlot → Val β ℓ}

/-- What is read through the slots of the bounds and the configuration. -/
structure BoundRegs.Shown (regs : BoundRegs) (cell : CsrSlot → Val β ℓ) : Prop where
  memcfg : cell ⟨OFFSET_MEMCFG, CSR_DLCFG⟩ = .word regs.memcfg
  memLow : ∀ i : Fin 16,
    cell ⟨OFFSET_MEMBOUND i 0, CSR_DLBOUND i 0⟩ = .word (regs.membound i).1
  memHigh : ∀ i : Fin 16,
    cell ⟨OFFSET_MEMBOUND i 1, CSR_DLBOUND i 1⟩ = .word (regs.membound i).2
  jmpcfg : cell ⟨OFFSET_JMPCFG, CSR_DJCFG⟩ = .word regs.jmpcfg
  jmpLow : ∀ i : Fin 4,
    cell ⟨OFFSET_JMPBOUND i 0, CSR_DJBOUND i 0⟩ = .word (regs.jmpbound i).1
  jmpHigh : ∀ i : Fin 4,
    cell ⟨OFFSET_JMPBOUND i 1, CSR_DJBOUND i 1⟩ = .word (regs.jmpbound i).2

/-- The record of a context holds these bounds. -/
def BoundRegs.InRecord (regs : BoundRegs) (record : Nat → Val β ℓ) : Prop :=
  regs.Shown fun slot => record slot.off

/-- The control registers of a hart hold these bounds. -/
def BoundRegs.InCsrs (regs : BoundRegs) (csrs : Nat → Val β ℓ) : Prop :=
  regs.Shown fun slot => csrs slot.csr

/-- The hart with these control registers lets user code access the address. -/
def CsrsAdmit (csrs : Nat → Val β ℓ) (addr : Nat) : Prop :=
  ∃ regs : BoundRegs, regs.InCsrs csrs ∧ regs.Admits addr

theorem slots_of_bounds :
    (⟨OFFSET_MEMCFG, CSR_DLCFG⟩ ∈ pairSlots dasicsPairs ∧
      ⟨OFFSET_JMPCFG, CSR_DJCFG⟩ ∈ pairSlots dasicsPairs) ∧
    (∀ i : Fin 16, ∀ hi : Fin 2,
      ⟨OFFSET_MEMBOUND i hi, CSR_DLBOUND i hi⟩ ∈ pairSlots dasicsPairs) ∧
    ∀ i : Fin 4, ∀ hi : Fin 2,
      ⟨OFFSET_JMPBOUND i hi, CSR_DJBOUND i hi⟩ ∈ pairSlots dasicsPairs := by
  decide

namespace BoundRegs.Shown

/-- `lps_load_dasics` copies all slots that are read. -/
theorem congr (shown : regs.Shown cell)
    (same : ∀ slot ∈ pairSlots dasicsPairs, cell' slot = cell slot) : regs.Shown cell' := by
  obtain ⟨⟨mem, jmp⟩, mems, jmps⟩ := slots_of_bounds
  constructor
  · rw [same _ mem, shown.memcfg]
  · exact fun i => (same _ (mems i 0)).trans (shown.memLow i)
  · exact fun i => (same _ (mems i 1)).trans (shown.memHigh i)
  · rw [same _ jmp, shown.jmpcfg]
  · exact fun i => (same _ (jmps i 0)).trans (shown.jmpLow i)
  · exact fun i => (same _ (jmps i 1)).trans (shown.jmpHigh i)

/-- The slots determine the bounds. -/
theorem unique (shown : regs.Shown cell) (shown' : regs'.Shown cell) : regs = regs' := by
  have word : ∀ {v : Val β ℓ} {x y : Word}, v = .word x → v = .word y → x = y := by
    rintro v x y rfl same
    exact Val.word.inj same
  cases regs
  cases regs'
  rw [BoundRegs.mk.injEq]
  refine ⟨word shown.memcfg shown'.memcfg, ?_, word shown.jmpcfg shown'.jmpcfg, ?_⟩
  · funext i
    exact Prod.ext (word (shown.memLow i) (shown'.memLow i))
      (word (shown.memHigh i) (shown'.memHigh i))
  · funext i
    exact Prod.ext (word (shown.jmpLow i) (shown'.jmpLow i))
      (word (shown.jmpHigh i) (shown'.jmpHigh i))

end BoundRegs.Shown

theorem csrsAdmit_iff {csrs : Nat → Val β ℓ} (held : regs.InCsrs csrs) {addr : Nat} :
    CsrsAdmit csrs addr ↔ regs.Admits addr := by
  constructor
  · rintro ⟨other, shown, admits⟩
    rwa [← shown.unique held]
  · intro admits
    exact ⟨regs, held, admits⟩

end Shown

end Lps.Core

namespace Lps.Linux

open Lps.Asm Lps.Core
open Lps.Transition (Run Always)

variable {h h' : Hart} {mem mem' : Mem Block Label} {c : Tid} {w : Nat} {u : UserState}
  {e : Expected} {obs : List SwitchObs} {s s' : KState} {junk : Reg → KVal}

/-! ## Steps -/

/-- Every record has the bounds and the configuration it had. -/
def BoundCellsKept (mem mem' : Mem Block Label) : Prop :=
  ∀ c, ∀ slot ∈ pairSlots dasicsPairs, mem' (.ctx c) slot.off = mem (.ctx c) slot.off

theorem boundCells_between :
    ∀ slot ∈ pairSlots dasicsPairs, OFFSET_DFREN < slot.off ∧ slot.off < OFFSET_KREGS := by
  decide

/-- A step that changes a single record keeps all bounds if it keeps those of this
record. -/
theorem BoundCellsKept.of_record
    (own : ∀ off, OFFSET_DFREN < off → off < OFFSET_KREGS → mem' (.ctx c) off = mem (.ctx c) off)
    (others : ∀ d, d ≠ c → mem' (.ctx d) = mem (.ctx d)) : BoundCellsKept mem mem' := by
  intro d slot inSlots
  by_cases same : d = c
  · subst same
    obtain ⟨above, below⟩ := boundCells_between slot inSlots
    exact own slot.off above below
  · rw [others d same]

namespace Hart

theorem uret_mem (returned : h.uret s = some (h', mem', obs)) : mem' = s.mem := by
  rw [uret] at returned
  split at returned
  · simp only [Option.some.injEq, Prod.mk.injEq] at returned
    exact returned.2.1.symm
  · contradiction

/-- The `ret` of `kswitch` writes memory only on the way to user mode. -/
theorem ret_mem (returned : h.ret s = some (h', mem', obs)) (inside : ∀ pc, h'.loc ≠ .user pc) :
    mem' = s.mem := by
  rw [ret] at returned
  split at returned
  · obtain ⟨entered, _, restored⟩ := Option.bind_eq_some_iff.mp returned
    rw [uret] at restored
    split at restored
    · simp only [Option.some.injEq, Prod.mk.injEq] at restored
      obtain ⟨rfl, _⟩ := restored
      exact absurd rfl (inside _)
    · contradiction
  · simp only [Option.some.injEq, Prod.mk.injEq] at returned
    exact returned.2.1.symm
  · simp only [Option.some.injEq, Prod.mk.injEq] at returned
    exact returned.2.1.symm
  · simp only [Option.some.injEq, Prod.mk.injEq] at returned
    exact returned.2.1.symm
  · contradiction

/-- The end of the handler writes no memory. -/
theorem ufaultReturn_mem (returned : h.ufaultReturn s junk = some (h', mem', obs)) :
    mem' = s.mem := by
  simp only [ufaultReturn, Option.bind_eq_bind, Option.bind_eq_some_iff] at returned
  obtain ⟨popped, pops, returned⟩ := returned
  have poppedMem : popped.mem = s.mem := by
    rw [popFrame] at pops
    split at pops
    · obtain ⟨loaded, loadsFrame, rfl⟩ := Option.map_eq_some_iff.mp pops
      have loadedMem := exec_mem (by decide) loadsFrame
      exact loadedMem
    · contradiction
  split at returned
  · obtain ⟨restored, restores, uret⟩ := Option.bind_eq_some_iff.mp returned
    rw [uret_mem uret, exec_mem (by decide) restores, poppedMem]
  · contradiction

/-- `arch_syshandle` writes the program counter in the record and nothing else. -/
theorem archSyshandle_mem {b : Block} {ticks : Word} {loc : Loc}
    (branched : archSyshandle s (.ptr b 0) ticks = some (s', loc)) (off : Nat)
    (other : off ≠ OFFSET_UEPC) : s'.mem b off = s.mem b off := by
  simp only [archSyshandle, Nat.zero_add] at branched
  split at branched
  · simp only [Option.some.injEq, Prod.mk.injEq] at branched
    rw [← branched.1, State.setCsr_mem]
  · split at branched
    · split at branched
      · simp only [Option.some.injEq, Prod.mk.injEq] at branched
        rw [← branched.1, State.store_of_ne _ _ _ _ other]
      · contradiction
    · contradiction

end Hart

/-- A system call returns without a change of bounds. -/
theorem handled_boundCells (inHandler : InHandler h mem w c e) {result : Word}
    (returned : h.handled mem result junk = some (h', mem', obs)) : BoundCellsKept mem mem' := by
  have argument : frameCtx (h.state mem) = .ptr (.ctx c) 0 :=
    (frameCtx_eq (s := h.state mem) inHandler.sp).trans inHandler.frame.ctx
  simp only [Hart.handled, argument, Nat.zero_add, Option.bind_eq_bind,
    Option.bind_eq_some_iff, Option.some.injEq, Prod.mk.injEq] at returned
  obtain ⟨⟨next, nextMem, rest⟩, returns, _, rfl, _⟩ := returned
  rw [Hart.ufaultReturn_mem returns]
  apply BoundCellsKept.of_record (c := c)
  · intro off above _
    apply State.store_of_ne
    rintro rfl
    exact absurd above (by decide)
  · intro d other
    apply State.store_block
    simpa using other

/-- A thread that leaves its hart keeps its bounds. -/
theorem exit_boundCells (inHandler : InHandler h mem w c e) {state : LPSThreadState}
    {label : Label} (place : (h.loc = .timer ∧ label = .timerExited) ∨
      (h.loc = .syscall ∧ label = .syscallExited))
    (exited : h.exit mem state label junk = some (h', mem', obs)) : BoundCellsKept mem mem' := by
  obtain ⟨inSched, _, _, blocks⟩ := exit_spec inHandler place exited
  have argument : frameCtx (h.state mem) = .ptr (.ctx c) 0 :=
    (frameCtx_eq (s := h.state mem) inHandler.sp).trans inHandler.frame.ctx
  have ctxCell : (if state = .blocked then mem (.tls w) (0 + LPS_MYCTX)
      else frameCtx (h.state mem)) = .ptr (.ctx c) 0 := by
    split
    · exact inHandler.saved.myctx
    · exact argument
  simp only [Hart.exit, inHandler.tp] at exited
  rw [ctxCell, lpsKswitchFrom_eq inHandler.tp, Option.bind_eq_some_iff] at exited
  simp only [Nat.zero_add] at exited
  obtain ⟨switched, switches, returned⟩ := exited
  obtain ⟨called, call⟩ : ∃ called, called = kswitchCall (clobber (h.state mem) junk) (.word 0)
      (.ptr (.ctx c) OFFSET_KREGS) (.ptr (.tls w) LPS_KCTX) label := ⟨_, rfl⟩
  have atOld : called.regs .a1 = .ptr (.ctx c) OFFSET_KREGS := by simp [call, kswitchCall]
  have atNew : called.regs .a2 = .ptr (.tls w) LPS_KCTX := by simp [call, kswitchCall]
  have calledMem : called.mem = mem := by rw [call]; rfl
  obtain ⟨regs, switchedMem, runs, stored, _⟩ := kswitch_spec atOld atNew (by simp)
  rw [← call, runs, Option.some.injEq] at switches
  subst switches
  have writes := Hart.ret_mem returned (by simp [inSched.loc])
  apply BoundCellsKept.of_record (c := c)
  · intro off _ below
    rw [writes, ← calledMem]
    exact stored.kept off (kregs_above below)
  · exact fun d other => blocks _ (by simpa using other)

/-- A trap writes the user registers and the cause into the record, and nothing else. -/
theorem trap_boundCells (inUser : InUser h mem w c) {pc cause utval dfreason ticks : Word}
    (trapped : h.trap mem pc cause utval dfreason ticks junk = some (h', mem', obs)) :
    BoundCellsKept mem mem' := by
  obtain ⟨_, _, blocks⟩ := trap_spec inUser trapped
  obtain ⟨start, starts⟩ : ∃ start, start = trapState h mem pc cause utval dfreason := ⟨_, rfl⟩
  have startMem : start.mem = mem := by rw [starts]; rfl
  have scratch : start.csrs CSR_USCRATCH = .ptr (.ctx c) 0 := by
    rw [starts, trapState_csr (by decide) (by decide) (by decide) (by decide), inUser.uscratch]
  obtain ⟨saved, saves, all⟩ := saveAll_spec scratch
  obtain ⟨called, call⟩ : ∃ called, called =
      (saved.setReg .a0 (saved.regs .s0)).setReg .ra (.code .ufaultReturn) := ⟨_, rfl⟩
  have calledSp : called.regs .sp = .ptr (.kstack c) KSTACK := by
    rw [call, State.setReg_of_ne _ _ _ (by decide), State.setReg_of_ne _ _ _ (by decide),
      all.host.1, startMem, inUser.started.ksp]
  obtain ⟨pushed, pushes, pushedSp, _, _, slots, pushedBlocks⟩ :=
    pushFrame_spec calledSp (by decide)
  have argument : frameCtx pushed = .ptr (.ctx c) 0 := by
    refine (frameCtx_eq pushedSp).trans ((slots (.a0, FRAME_CTX) (by decide)).trans ?_)
    simp [call, all.s0]
  simp only [Hart.trap, Option.bind_eq_bind] at trapped
  rw [← trapState, ← starts, saves, Option.bind_some, ← call, pushes, Option.bind_some, argument,
    Option.bind_eq_some_iff] at trapped
  obtain ⟨⟨last, loc⟩, branched, result⟩ := trapped
  simp only [Option.some.injEq, Prod.mk.injEq] at result
  obtain ⟨_, rfl, _⟩ := result
  apply BoundCellsKept.of_record (c := c)
  · intro off above _
    have notUser : ¬UserCell off := by
      unfold UserCell
      omega
    have notEpc : off ≠ OFFSET_UEPC := by
      rintro rfl
      exact absurd above (by decide)
    rw [Hart.archSyshandle_mem branched off notEpc, clobber_mem, pushedBlocks _ (by simp), call]
    rw [← startMem, ← all.cells off notUser]
    rfl
  · exact fun d other => blocks _ (by simpa using other) (by simp)

/-- The first entry of a context records the worker in front of the user registers. -/
theorem enter_fresh_boundCells (inSched : InSched h w) (fresh : Fresh mem c u)
    (entered : h.step mem (.enter c junk) = some (h', mem', obs)) : BoundCellsKept mem mem' := by
  obtain ⟨o, sp⟩ := inSched.sp
  simp only [Hart.step, inSched.loc, Option.bind_eq_bind, Option.bind_eq_some_iff] at entered
  obtain ⟨s, switched, ⟨next, nextMem, nextObs⟩, returned, result⟩ := entered
  obtain ⟨_, _, a0, _, ra, _, blocks⟩ :=
    lpsKswitchTo_spec (s := h.state mem) inSched.tp sp switched
  obtain ⟨s', runs, _, _, _, _, stored⟩ := lpsCtxEntry_spec a0
  have atEntry : s.regs .ra = .code .lpsCtxEntry := ra.trans fresh.ra
  simp only [Hart.ret, atEntry, runs, Option.bind_some] at returned
  simp only [Option.some.injEq, Prod.mk.injEq] at result
  obtain ⟨_, rfl, _⟩ := result
  rw [Hart.uret_mem returned]
  apply BoundCellsKept.of_record (c := c)
  · intro off above _
    rw [stored.kept off, blocks _ (by simp)]
    · rfl
    · have below : ∀ slot ∈ hostSlots, slot.2 < OFFSET_DFREN := by decide
      rintro slot inSlots same
      have := below slot inSlots
      omega
  · intro d other
    rw [stored.blocks _ (by simpa using other), blocks _ (by simp)]
    rfl

namespace Machine

variable {m m' : Machine} {expected : Tid → Expected} {worker : Tid → Option KVal}
  {users : Tid → UserState} {event : HartEvent} {trace : List SwitchObs}

/-- No step of a sound machine changes the bounds in a record. -/
theorem Sound.boundCells (sound : m.Sound expected worker) (affine : m.Affine (w, event))
    (stepped : Machine.step m (w, event) = some (m', obs)) : BoundCellsKept m.mem m'.mem := by
  obtain ⟨inRange, allowed, h', mem', hartStep, rfl⟩ := step_cases stepped
  cases event with
  | enter c junk =>
      have loc : (m.harts w).loc = .sched := by
        cases loc : (m.harts w).loc <;> first | rfl | simp [Hart.step, loc] at hartStep
      have inSched := sound.inSched inRange loc
      have waiting := sound.waiting c allowed.2
      cases first : m.first c with
      | none =>
          rw [first] at waiting
          exact enter_fresh_boundCells inSched waiting.1 hartStep
      | some v =>
          have here : v = w := affine v first
          subst here
          rw [first] at waiting
          obtain ⟨_, _, blocks⟩ := enter_parked inSched waiting hartStep
          exact fun d slot _ => congrFun (blocks _ (by simp)) _
  | user regs fregs pc =>
      cases loc : (m.harts w).loc <;> simp only [Hart.step, loc, reduceCtorEq] at hartStep
      simp only [Option.some.injEq, Prod.mk.injEq] at hartStep
      obtain ⟨_, rfl, _⟩ := hartStep
      exact fun _ _ _ => rfl
  | trap cause utval dfreason ticks junk =>
      obtain ⟨pc, loc⟩ : ∃ pc, (m.harts w).loc = .user pc := by
        cases loc : (m.harts w).loc <;> first | exact ⟨_, rfl⟩ | simp [Hart.step, loc] at hartStep
      obtain ⟨c, inUser, _⟩ := sound.inUser inRange loc
      simp only [Hart.step, loc] at hartStep
      exact trap_boundCells inUser hartStep
  | exit state junk =>
      cases loc : (m.harts w).loc <;> simp only [Hart.step, loc, reduceCtorEq] at hartStep
      case timer =>
        obtain ⟨c, inHandler, _⟩ := sound.inHandler inRange (.inl loc)
        cases state <;> simp only [reduceCtorEq] at hartStep
        exact exit_boundCells inHandler (.inl ⟨loc, rfl⟩) hartStep
      case syscall =>
        obtain ⟨c, inHandler, _⟩ := sound.inHandler inRange (.inr (.inr loc))
        exact exit_boundCells inHandler (.inr ⟨loc, rfl⟩) hartStep
  | handled result junk =>
      cases loc : (m.harts w).loc <;> simp only [Hart.step, loc, reduceCtorEq] at hartStep
      obtain ⟨c, inHandler, _⟩ := sound.inHandler inRange (.inr (.inr loc))
      exact handled_boundCells inHandler hartStep
  | timerReturn junk =>
      cases loc : (m.harts w).loc <;> simp only [Hart.step, loc, reduceCtorEq] at hartStep
      obtain ⟨c, inHandler, _⟩ := sound.inHandler inRange (.inr (.inl loc))
      rw [(timerReturn_spec inHandler loc hartStep).2.2.2]
      exact fun _ _ _ => rfl

/-- A record holds the same bounds after every run. -/
theorem affine_run_inRecord (booted : m.Booted users) (run : Run Machine.step Affine m trace m')
    {regs : BoundRegs} (held : regs.InRecord (m.mem (.ctx c))) :
    regs.InRecord (m'.mem (.ctx c)) := by
  have both : (∃ expected worker, m'.Sound expected worker) ∧ regs.InRecord (m'.mem (.ctx c)) := by
    refine run.stateInvariant (fun m =>
      (∃ expected worker, m.Sound expected worker) ∧ regs.InRecord (m.mem (.ctx c)))
      ⟨⟨_, _, booted.sound⟩, held⟩ ?_
    rintro observed state next ⟨w, event⟩ ⟨⟨expected, worker, sound⟩, held⟩ affine stepped
    exact ⟨⟨_, _, (sound.step affine stepped).2⟩,
      held.congr (sound.boundCells affine stepped c)⟩
  exact both.2

/-- A hart in user mode has the bounds of its context in its registers. -/
theorem affine_run_inCsrs (booted : m.Booted users) (run : Run Machine.step Affine m trace m')
    {regs : BoundRegs} (held : regs.InRecord (m.mem (.ctx c))) (inRange : w < m'.ncore) {pc : Word}
    (loc : (m'.harts w).loc = .user pc) (cur : (m'.harts w).cur = some c) :
    regs.InCsrs (m'.harts w).csrs := by
  obtain ⟨d, inUser, _⟩ := (affine_run booted run).2.inUser inRange loc
  have same : d = c := Option.some.inj (inUser.cur.symm.trans cur)
  subst same
  exact (affine_run_inRecord booted run held).congr inUser.dasics

/-! ## Sandboxes in user mode -/

instance (m : Machine) : (event : Nat × HartEvent) → Decidable (m.Affine event)
  | (w, .enter c _) => inferInstanceAs (Decidable (∀ v ∈ m.first c, v = w))
  | (_, .user ..) | (_, .trap ..) | (_, .exit ..) | (_, .handled ..)
  | (_, .timerReturn ..) => .isTrue trivial

/-- The engine has made these contexts, and the records of their threads hold the bounds
they were made with. -/
structure RecordsMade (m : Machine) (s : Sandboxes) (ctxs : Tid → Option LPSContext) : Prop where
  made : ∀ c ctx, ctxs c = some ctx → ctx ∈ s.ctxs
  held : ∀ c ctx, ctxs c = some ctx → ctx.bounds.InRecord (m.mem (.ctx c))

/-- Hart `w` executes a thread in user mode, in the sandbox of this context. -/
def InSandbox (m : Machine) (ctxs : Tid → Option LPSContext) (w : Nat) (ctx : LPSContext) : Prop :=
  w < m.ncore ∧ (∃ pc, (m.harts w).loc = .user pc) ∧
    ∃ c, (m.harts w).cur = some c ∧ ctxs c = some ctx

/-- In every run in which a thread stays with the worker that entered it first, a hart in
user mode admits exactly the addresses of the box of its thread: nothing of another
live sandbox, and nothing that a hart in another live sandbox admits. -/
theorem user_mode_confined {host : HostMem} {reserved : host.State → Set Nat} {userTop : Nat}
    {boxsize nsandboxes : Word} {beyond : BitVector} {s₀ s₁ : host.State} {engine : LPSEngine}
    {made : List Empty} {s : Sandboxes} {ctxs : Tid → Option LPSContext}
    (lawful : host.Lawful reserved userTop) (pos : 0 < boxsize.toNat)
    (created : lpsNew host boxsize nsandboxes beyond s₀ = some (engine, s₁))
    (calls : Run Sandboxes.step (Always _ _) (Sandboxes.start engine) made s)
    (booted : m.Booted users) (records : m.RecordsMade s ctxs)
    (run : Run Machine.step Affine m trace m') :
    ∀ w ctx, m'.InSandbox ctxs w ctx →
      (∀ addr, CsrsAdmit (m'.harts w).csrs addr ↔ addr ∈ ctx.info.bytes) ∧
      (s.boxes ctx.box = some ctx.info →
        (∀ id box, s.boxes id = some box → id ≠ ctx.box →
          ∀ addr ∈ box.bytes, ¬CsrsAdmit (m'.harts w).csrs addr) ∧
        ∀ v ctx', m'.InSandbox ctxs v ctx' → s.boxes ctx'.box = some ctx'.info →
          ctx'.box ≠ ctx.box → ∀ addr,
            ¬(CsrsAdmit (m'.harts w).csrs addr ∧ CsrsAdmit (m'.harts v).csrs addr)) := by
  have isolated : s.Isolated (reserved s₁) boxsize :=
    calls.stateInvariant (fun s => s.Isolated (reserved s₁) boxsize)
      (lpsNew_isolated lawful pos created) fun isolated _ stepped => isolated.step stepped
  have exactly : ∀ w ctx, m'.InSandbox ctxs w ctx → ∀ addr,
      CsrsAdmit (m'.harts w).csrs addr ↔ addr ∈ ctx.info.bytes := by
    rintro w ctx ⟨inRange, ⟨pc, loc⟩, c, cur, own⟩ addr
    have inForce := affine_run_inCsrs booted run (records.held c ctx own) inRange loc cur
    rw [csrsAdmit_iff inForce]
    exact (isolated.confined ctx (records.made c ctx own)).admits_iff
  intro w ctx inSandbox
  refine ⟨exactly w ctx inSandbox, ?_⟩
  intro live
  constructor
  · intro id box live' other addr inside admits
    rw [exactly w ctx inSandbox] at admits
    exact Set.disjoint_left.mp (isolated.disjoint live live' other.symm) admits inside
  · rintro v ctx' inSandbox' live' other addr ⟨admits, admits'⟩
    rw [exactly w ctx inSandbox] at admits
    rw [exactly v ctx' inSandbox'] at admits'
    exact Set.disjoint_left.mp (isolated.disjoint live live' other.symm) admits admits'

end Machine

/-- Half of a pair of bounds. -/
def boundHalf (limits : Word × Word) (hi : Nat) : Word := if hi = 0 then limits.1 else limits.2

/-- The cell of a bound or a configuration word in the record. -/
def boundCell (regs : BoundRegs) (off : Nat) : Word :=
  let low := (off - OFFSET_MEMCFG) / 8 - 1
  let high := (off - OFFSET_JMPCFG) / 8 - 1
  if off = OFFSET_MEMCFG then regs.memcfg
  else if off = OFFSET_JMPCFG then regs.jmpcfg
  else if OFFSET_MEMCFG < off ∧ off < OFFSET_JMPCFG then
    boundHalf (regs.membound ⟨low / 2 % 16, Nat.mod_lt _ (by decide)⟩) (low % 2)
  else if OFFSET_JMPCFG < off ∧ off < OFFSET_KREGS then
    boundHalf (regs.jmpbound ⟨high / 2 % 4, Nat.mod_lt _ (by decide)⟩) (high % 2)
  else 0

/-- The record that `lps_ctx_new` fills for thread `c`. -/
def ctxNewRecord (c : Tid) (bounds : BoundRegs) (off : Nat) : KVal :=
  if off = OFFSET_KREGS + CONTEXT_RA then .code .lpsCtxEntry
  else if off = OFFSET_KREGS + CONTEXT_SP then .ptr (.kstack c) KSTACK
  else .word (boundCell bounds off)

theorem ctxNewRecord_inRecord (c : Tid) (bounds : BoundRegs) :
    bounds.InRecord (ctxNewRecord c bounds) where
  memcfg := rfl
  memLow := by
    intro i
    fin_cases i <;> rfl
  memHigh := by
    intro i
    fin_cases i <;> rfl
  jmpcfg := rfl
  jmpLow := by
    intro i
    fin_cases i <;> rfl
  jmpHigh := by
    intro i
    fin_cases i <;> rfl

namespace Machine

/-- A machine whose records are those that `lps_ctx_new` has filled. -/
def bootWith (ncore : Nat) (bounds : Tid → BoundRegs) : Machine :=
  { boot ncore with
    mem := fun b => match b with
      | .ctx c => ctxNewRecord c (bounds c)
      | _ => fun _ => .word 0 }

theorem bootWith_booted (ncore : Nat) (bounds : Tid → BoundRegs) :
    (bootWith ncore bounds).Booted fun _ => ⟨fun _ => .word 0, 0⟩ where
  scheds := fun _ _ => ⟨rfl, rfl, rfl, 0, rfl⟩
  fresh := by
    intro c
    refine ⟨rfl, rfl, ⟨fun r => ?_, rfl⟩⟩
    cases r <;> rfl
  first := fun _ => rfl

/-- Two harts execute threads of two sandboxes: the first one admits the first address of
its own box and not that of the other one. -/
theorem user_mode_confined_two_harts :
    ∃ m' : Machine, (m'.harts 0).cur = some 7 ∧ (m'.harts 1).cur = some 8 ∧
      CsrsAdmit (m'.harts 0).csrs 0x10000 ∧ ¬CsrsAdmit (m'.harts 0).csrs 0x20000 ∧
      CsrsAdmit (m'.harts 1).csrs 0x20000 := by
  have seen : ((lpsNew pageHost 0x10000 2 (fun _ => 0) (16 : Nat)).bind fun created =>
      (Transition.exec Sandboxes.step (Sandboxes.start created.1) [.boxNew true, .boxNew true]).map
        fun result => (result.1.boxes 0, result.1.boxes 1)) =
      some (some ⟨0x10000, 0x10000⟩, some ⟨0x20000, 0x10000⟩) := by
    decide +kernel
  obtain ⟨⟨engine, s₁⟩, created, seen⟩ := Option.bind_eq_some_iff.mp seen
  obtain ⟨⟨s, made⟩, executed, boxes⟩ := Option.map_eq_some_iff.mp seen
  simp only [Prod.mk.injEq] at boxes
  -- A context in each of the two boxes.
  let first := lpsCtxNew 0 ⟨0x10000, 0x10000⟩
  let second := lpsCtxNew 1 ⟨0x20000, 0x10000⟩
  have makesFirst : Sandboxes.step s (.ctxNew 0) =
      some ({ s with ctxs := first :: s.ctxs }, []) := by
    simp only [Sandboxes.step, boxes.1]
    rfl
  have makesSecond : Sandboxes.step { s with ctxs := first :: s.ctxs } (.ctxNew 1) =
      some ({ s with ctxs := second :: first :: s.ctxs }, []) := by
    simp only [Sandboxes.step, boxes.2]
    rfl
  have calls := ((Transition.run_of_exec executed).tail trivial makesFirst).tail trivial makesSecond
  let ctxs : Tid → Option LPSContext := fun c =>
    if c = 7 then some first else if c = 8 then some second else none
  let m := bootWith 2 fun c => if c = 7 then first.bounds else second.bounds
  have records : m.RecordsMade { s with ctxs := second :: first :: s.ctxs } ctxs := by
    constructor
    · intro c ctx own
      simp only [ctxs] at own
      split at own
      · simp [← Option.some.inj own]
      · split at own
        · simp [← Option.some.inj own]
        · contradiction
    · intro c ctx own
      simp only [ctxs] at own
      split at own
      · rename_i isSeven
        subst isSeven
        rw [← Option.some.inj own]
        exact ctxNewRecord_inRecord ..
      · split at own
        · rename_i isEight
          subst isEight
          rw [← Option.some.inj own]
          exact ctxNewRecord_inRecord ..
        · contradiction
  have ran : (Transition.exec (Transition.guarded Machine.step Affine) m
      [(0, .enter 7 fun _ => .word 1), (1, .enter 8 fun _ => .word 1)]).map (fun out =>
        (out.1.ncore, ((out.1.harts 0).loc, (out.1.harts 0).cur),
          ((out.1.harts 1).loc, (out.1.harts 1).cur))) =
      some (2, (.user 0, some 7), (.user 0, some 8)) := by
    decide +kernel
  obtain ⟨⟨m', trace⟩, steps, places⟩ := Option.map_eq_some_iff.mp ran
  simp only [Prod.mk.injEq] at places
  obtain ⟨ncore, ⟨loc, cur⟩, loc', cur'⟩ := places
  have confined := user_mode_confined pageHost_lawful (by decide) created calls
    (bootWith_booted 2 _) records (Transition.run_of_exec_guarded steps)
  obtain ⟨own, _⟩ := confined 0 first ⟨by omega, ⟨0, loc⟩, 7, cur, rfl⟩
  obtain ⟨own', _⟩ := confined 1 second ⟨by omega, ⟨0, loc'⟩, 8, cur', rfl⟩
  refine ⟨m', cur, cur', ?_, ?_, ?_⟩
  · rw [own]
    simp [first, lpsCtxNew, LPSBoxInfo.bytes, bytesAt]
  · rw [own]
    simp [first, lpsCtxNew, LPSBoxInfo.bytes, bytesAt]
  · rw [own']
    simp [second, lpsCtxNew, LPSBoxInfo.bytes, bytesAt]

end Machine

end Lps.Linux

import Lps.Linux.SwitchSpec
import Lps.Transition.Monitor

/-!
# Runs of the machine

Two monitors watch the harts.  `transparency` expects a context to go on with the
state it trapped in, changed only by the result of a system call; `affinity`
expects a trap to find the thread pointer of the worker that entered the context
last.  Both accept every run in which a context is entered only by the worker that
entered it first.
-/

namespace Lps.Linux

open Lps.Asm Lps.Core
open Lps.Transition (Monitor Run Always)

/-- Remembers for each context the state in which it has to go on: the one it
trapped in, and after an `ecall` what the system call makes of it.  It must not go
on before that, and only an `ecall` returns a result. -/
def transparency : Monitor (Tid → Expected) SwitchObs where
  next expected
    | .trapped c cause user _ _ =>
        Function.update expected c ⟨user, decide (cause ≠ CAUSE_IRQ_U_TIME)⟩
    | .handled c result =>
        Function.update expected c ⟨(expected c).user.returned result, false⟩
    | _ => expected
  expects expected
    | .handled c _ => (expected c).ecall = true
    | .resumed c user _ => (expected c).ecall = false ∧ user = (expected c).user
    | _ => True

/-- Whether the stack pointer is on the host stack of the worker with this thread
pointer. -/
def ownStack : KVal → KVal → Bool
  | .ptr (.tls w) 0, .ptr (.hstack v) _ => v == w
  | _, _ => false

/-- Remembers for each context the worker that entered it last. -/
def affinity : Monitor (Tid → Option KVal) SwitchObs where
  next worker
    | .entered c tp => Function.update worker c (some tp)
    | _ => worker
  expects worker
    | .trapped c _ _ _ tp => worker c = some tp
    | .left c sp tp => worker c = some tp ∧ ownStack tp sp
    | _ => True

instance (worker : Tid → Option KVal) :
    (o : SwitchObs) → Decidable (affinity.expects worker o)
  | .trapped .. => inferInstanceAs (Decidable (_ = _))
  | .left .. => inferInstanceAs (Decidable (_ ∧ _))
  | .entered .. | .handled .. | .resumed .. => .isTrue trivial

/-- A context that no hart runs: never entered, or entered first by some worker. -/
def Waiting (mem : Mem Block Label) (c : Tid) (first : Option Nat) (e : Expected) : Prop :=
  match first with
  | none => Fresh mem c e.user ∧ e.ecall = false
  | some w => Parked mem c w e

/-- A hart that runs a context. -/
structure Running (m : Machine) (w : Nat) (c : Tid) (e : Expected) (worker : Option KVal) :
    Prop where
  place : InUser (m.harts w) m.mem w c ∨ InHandler (m.harts w) m.mem w c e
  first : m.first c = some w
  worker : worker = some (.ptr (.tls w) 0)

theorem Running.cur {m : Machine} {w : Nat} {c : Tid} {e : Expected} {tp : Option KVal}
    (running : Running m w c e tp) : (m.harts w).cur = some c := by
  rcases running.place with inUser | inHandler
  · exact inUser.cur
  · exact inHandler.cur

namespace Machine

/-- When the workers start: every worker in its scheduler loop and every context as
`lps_ctx_new` and its user have set it up. -/
structure Booted (m : Machine) (users : Tid → UserState) : Prop where
  scheds : ∀ w < m.ncore, InSched (m.harts w) w
  fresh : ∀ c, Fresh m.mem c (users c)
  first : ∀ c, m.first c = none

/-- A machine with empty records: every context starts at address 0. -/
def boot (ncore : Nat) : Machine where
  ncore := ncore
  harts := fun w =>
    { regs := fun r =>
        if r = .tp then .ptr (.tls w) 0 else if r = .sp then .ptr (.hstack w) 0 else .word 0
      csrs := fun _ => .word 0
      fregs := fun _ => 0
      loc := .sched
      cur := none }
  mem
    | .ctx c, off =>
        if off = OFFSET_KREGS + CONTEXT_RA then .code .lpsCtxEntry
        else if off = OFFSET_KREGS + CONTEXT_SP then .ptr (.kstack c) KSTACK
        else .word 0
    | _, _ => .word 0
  state := fun _ => .runnable
  first := fun _ => none
  last := fun _ => none

theorem boot_booted (ncore : Nat) : (boot ncore).Booted fun _ => ⟨fun _ => .word 0, 0⟩ where
  scheds := fun _ _ => ⟨rfl, rfl, rfl, 0, rfl⟩
  fresh := by
    intro c
    refine ⟨rfl, rfl, ⟨fun r => ?_, rfl⟩⟩
    cases r <;> rfl
  first := fun _ => rfl

/-- What every run keeps, given what the two monitors remember. -/
structure Sound (m : Machine) (expected : Tid → Expected) (worker : Tid → Option KVal) :
    Prop where
  harts : ∀ w < m.ncore, InSched (m.harts w) w ∨ ∃ c, Running m w c (expected c) (worker c)
  waiting : ∀ c, (∀ w < m.ncore, (m.harts w).cur ≠ some c) →
    Waiting m.mem c (m.first c) (expected c)
  alone : ∀ w < m.ncore, ∀ v < m.ncore, ∀ c, (m.harts w).cur = some c →
    (m.harts v).cur = some c → w = v

/-- The side condition of the theorems below: a context that has been entered
before is entered by the same worker again. -/
def Affine (m : Machine) : Nat × HartEvent → Prop
  | (w, .enter c _) => ∀ v ∈ m.first c, v = w
  | _ => True

variable {m m' : Machine} {expected expected' : Tid → Expected}
  {worker worker' : Tid → Option KVal} {users : Tid → UserState} {w : Nat} {c : Tid}
  {h' : Hart} {obs : List SwitchObs} {event : HartEvent}

theorem Booted.sound (booted : m.Booted users) :
    m.Sound (fun c => ⟨users c, false⟩) (fun _ => none) where
  harts := fun w lt => .inl (booted.scheds w lt)
  waiting := by
    intro c _
    rw [booted.first c]
    exact ⟨booted.fresh c, rfl⟩
  alone := by
    intro w lt v _ c cur
    rw [(booted.scheds w lt).cur] at cur
    contradiction

/-- A step of hart `w` concerns one context, which is on this hart or on none, its
record, its kernel stack and the storage of the worker.  Everything else stays
sound. -/
theorem Sound.update (sound : m.Sound expected worker) (inRange : w < m.ncore)
    (ncore : m'.ncore = m.ncore) (harts : m'.harts = Function.update m.harts w h')
    (blocks : ∀ b, b ≠ .ctx c → b ≠ .kstack c → b ≠ .tls w → m'.mem b = m.mem b)
    (own : (m.harts w).cur = some c ∨
      (m.harts w).cur = none ∧ ∀ v < m.ncore, (m.harts v).cur ≠ some c)
    (firsts : ∀ d, d ≠ c → m'.first d = m.first d)
    (expecteds : ∀ d, d ≠ c → expected' d = expected d)
    (workers : ∀ d, d ≠ c → worker' d = worker d)
    (now : InSched h' w ∧ Waiting m'.mem c (m'.first c) (expected' c) ∨
      Running m' w c (expected' c) (worker' c)) : m'.Sound expected' worker' := by
  have self : m'.harts w = h' := by rw [harts, Function.update_self]
  have other : ∀ v, v ≠ w → m'.harts v = m.harts v :=
    fun v ne => by rw [harts, Function.update_of_ne ne]
  -- No other hart runs this context.
  have elsewhere : ∀ v < m.ncore, v ≠ w → (m.harts v).cur ≠ some c := by
    intro v lt ne cur
    rcases own with here | ⟨_, nowhere⟩
    · exact ne (sound.alone v lt w inRange c cur here)
    · exact nowhere v lt cur
  have curNow : (m'.harts w).cur = none ∨ (m'.harts w).cur = some c := by
    rcases now with ⟨inSched, _⟩ | running
    · exact .inl (by rw [self, inSched.cur])
    · exact .inr running.cur
  constructor
  · intro v lt
    rw [ncore] at lt
    by_cases same : v = w
    · subst same
      rcases now with ⟨inSched, _⟩ | running
      · exact .inl (by rw [self]; exact inSched)
      · exact .inr ⟨c, running⟩
    · rw [other v same]
      rcases sound.harts v lt with inSched | ⟨d, running⟩
      · exact .inl inSched
      · have apart : d ≠ c := by
          rintro rfl
          exact elsewhere v lt same running.cur
        have record : m'.mem (.ctx d) = m.mem (.ctx d) := blocks _ (by simpa) (by simp) (by simp)
        have stack : m'.mem (.kstack d) = m.mem (.kstack d) :=
          blocks _ (by simp) (by simpa) (by simp)
        have tls : m'.mem (.tls v) = m.mem (.tls v) := blocks _ (by simp) (by simp) (by simpa)
        refine .inr ⟨d, ?_, ?_, ?_⟩
        · rw [other v same, expecteds d apart]
          rcases running.place with inUser | inHandler
          · exact .inl (inUser.congr record tls)
          · exact .inr (inHandler.congr record stack tls)
        · rw [firsts d apart, running.first]
        · rw [workers d apart, running.worker]
  · intro d nowhere
    by_cases same : d = c
    · subst same
      rcases now with ⟨_, waiting⟩ | running
      · exact waiting
      · exact absurd running.cur (nowhere w (by rwa [ncore]))
    · have before : ∀ v < m.ncore, (m.harts v).cur ≠ some d := by
        intro v lt cur
        by_cases here : v = w
        · subst here
          rcases own with mine | ⟨none, _⟩
          · rw [mine, Option.some.injEq] at cur
            exact same cur.symm
          · rw [none] at cur
            contradiction
        · exact nowhere v (by rwa [ncore]) (by rw [other v here, cur])
      have record : m'.mem (.ctx d) = m.mem (.ctx d) := blocks _ (by simpa) (by simp) (by simp)
      have stack : m'.mem (.kstack d) = m.mem (.kstack d) :=
        blocks _ (by simp) (by simpa) (by simp)
      have waiting := sound.waiting d before
      rw [firsts d same, expecteds d same]
      revert waiting
      cases m.first d with
      | none => exact fun fresh => ⟨fresh.1.congr record, fresh.2⟩
      | some v => exact fun parked => Parked.congr record stack parked
  · have onlyHere : ∀ v < m.ncore, ∀ d, (m'.harts v).cur = some d → v ≠ w →
        (m'.harts w).cur ≠ some d := by
      intro v lt d cur ne here
      rcases curNow with none | some
      · rw [none] at here
        contradiction
      · rw [some, Option.some.injEq] at here
        subst here
        rw [other v ne] at cur
        exact elsewhere v lt ne cur
    intro v ltV x ltX d curV curX
    rw [ncore] at ltV ltX
    by_cases hereV : v = w
    · by_cases hereX : x = w
      · rw [hereV, hereX]
      · subst hereV
        exact absurd curV (onlyHere x ltX d curX hereX)
    · by_cases hereX : x = w
      · subst hereX
        exact absurd curX (onlyHere v ltV d curV hereV)
      · rw [other v hereV] at curV
        rw [other x hereX] at curX
        exact sound.alone v ltV x ltX d curV curX

/-! Where a hart is says in which situation it is. -/

theorem Sound.inSched (sound : m.Sound expected worker) (inRange : w < m.ncore)
    (loc : (m.harts w).loc = .sched) : InSched (m.harts w) w := by
  rcases sound.harts w inRange with inSched | ⟨c, ⟨inUser | inHandler, _, _⟩⟩
  · exact inSched
  · obtain ⟨pc, isUser⟩ := inUser.loc
    rw [loc] at isUser
    contradiction
  · rcases inHandler.loc with ⟨isLoc | isLoc, _⟩ | ⟨isLoc, _⟩ <;> rw [loc] at isLoc <;>
      contradiction

theorem Sound.inUser (sound : m.Sound expected worker) (inRange : w < m.ncore) {pc : Word}
    (loc : (m.harts w).loc = .user pc) :
    ∃ c, InUser (m.harts w) m.mem w c ∧ m.first c = some w ∧
      worker c = some (.ptr (.tls w) 0) := by
  rcases sound.harts w inRange with inSched | ⟨c, ⟨inUser | inHandler, first, entered⟩⟩
  · have isSched := inSched.loc
    rw [loc] at isSched
    contradiction
  · exact ⟨c, inUser, first, entered⟩
  · rcases inHandler.loc with ⟨isLoc | isLoc, _⟩ | ⟨isLoc, _⟩ <;> rw [loc] at isLoc <;>
      contradiction

theorem Sound.inHandler (sound : m.Sound expected worker) (inRange : w < m.ncore)
    (loc : (m.harts w).loc = .timer ∨ (m.harts w).loc = .timerDone ∨
      (m.harts w).loc = .syscall) :
    ∃ c, InHandler (m.harts w) m.mem w c (expected c) ∧ m.first c = some w ∧
      worker c = some (.ptr (.tls w) 0) := by
  rcases sound.harts w inRange with inSched | ⟨c, ⟨inUser | inHandler, first, entered⟩⟩
  · have isSched := inSched.loc
    rcases loc with isLoc | isLoc | isLoc <;> rw [isSched] at isLoc <;> contradiction
  · obtain ⟨pc, isUser⟩ := inUser.loc
    rcases loc with isLoc | isLoc | isLoc <;> rw [isUser] at isLoc <;> contradiction
  · exact ⟨c, inHandler, first, entered⟩

/-- A step of the machine is a step of one hart. -/
theorem step_cases (stepped : step m (w, event) = some (m', obs)) :
    w < m.ncore ∧ m.Allows event ∧ ∃ h' mem', (m.harts w).step m.mem event = some (h', mem', obs) ∧
      m' = { m.record w event h' with harts := Function.update m.harts w h', mem := mem' } := by
  simp only [step] at stepped
  split at stepped
  · rename_i allowed
    rw [Option.map_eq_some_iff] at stepped
    obtain ⟨⟨h', mem', obs'⟩, hartStep, pair⟩ := stepped
    simp only [Prod.mk.injEq] at pair
    obtain ⟨rfl, rfl⟩ := pair
    exact ⟨allowed.1, allowed.2, h', mem', hartStep, rfl⟩
  · contradiction

theorem record_ncore : (m.record w event h').ncore = m.ncore := by
  unfold record
  split
  · rfl
  · rfl
  · split <;> rfl
  · rfl

theorem record_first (other : ∀ c junk, event ≠ .enter c junk) :
    (m.record w event h').first = m.first := by
  unfold record
  split
  · exact absurd rfl (other _ _)
  · rfl
  · split <;> rfl
  · rfl

/-- The conclusion for one step: both monitors accept it, and what they remember then
is related to the next state. -/
def StepSound (m' : Machine) (expected : Tid → Expected) (worker : Tid → Option KVal)
    (obs : List SwitchObs) : Prop :=
  (transparency.Accepts expected obs ∧ affinity.Accepts worker obs) ∧
    m'.Sound (transparency.after expected obs) (affinity.after worker obs)

variable {mem' : Mem Block Label} {junk : Reg → KVal}

theorem Sound.enter (sound : m.Sound expected worker) (inRange : w < m.ncore) (free : m.Free c)
    (affine : ∀ v ∈ m.first c, v = w)
    (stepped : (m.harts w).step m.mem (.enter c junk) = some (h', mem', obs)) :
    StepSound { m.record w (.enter c junk) h' with
      harts := Function.update m.harts w h', mem := mem' } expected worker obs := by
  have loc : (m.harts w).loc = .sched := by
    cases loc : (m.harts w).loc <;> first | rfl | simp [Hart.step, loc] at stepped
  have inSched := sound.inSched inRange loc
  have waiting := sound.waiting c free.2
  cases first : m.first c with
  | none =>
      rw [first] at waiting
      obtain ⟨inUser, rfl, blocks⟩ := enter_fresh inSched waiting.1 stepped
      refine ⟨⟨⟨trivial, ⟨waiting.2, rfl⟩, trivial⟩, ⟨trivial, trivial, trivial⟩⟩, ?_⟩
      refine sound.update inRange rfl rfl (fun b notCtx _ notTls => blocks b notCtx notTls)
        (.inr ⟨inSched.cur, free.2⟩) ?_ (fun _ _ => rfl) ?_ (.inr ⟨.inl ?_, ?_, ?_⟩)
      · exact fun d ne => Function.update_of_ne ne ..
      · exact fun d ne => Function.update_of_ne ne ..
      · simpa using inUser
      · simp [record, first]
      · exact Function.update_self ..
  | some v =>
      have here : v = w := affine v first
      subst here
      rw [first] at waiting
      obtain ⟨inHandler, rfl, blocks⟩ := enter_parked inSched waiting stepped
      refine ⟨⟨⟨trivial, trivial⟩, ⟨trivial, trivial⟩⟩, ?_⟩
      refine sound.update inRange rfl rfl (fun b _ _ notTls => blocks b notTls)
        (.inr ⟨inSched.cur, free.2⟩) ?_ (fun _ _ => rfl) ?_ (.inr ⟨.inr ?_, ?_, ?_⟩)
      · exact fun d ne => Function.update_of_ne ne ..
      · exact fun d ne => Function.update_of_ne ne ..
      · simpa [transparency, Monitor.after] using inHandler
      · simp [record, first]
      · exact Function.update_self ..

theorem Sound.user (sound : m.Sound expected worker) (inRange : w < m.ncore) {regs : Reg → KVal}
    {fregs : Fin 32 → Word} {pc : Word}
    (stepped : (m.harts w).step m.mem (.user regs fregs pc) = some (h', mem', obs)) :
    StepSound { m.record w (.user regs fregs pc) h' with
      harts := Function.update m.harts w h', mem := mem' } expected worker obs := by
  obtain ⟨before, loc⟩ : ∃ before, (m.harts w).loc = .user before := by
    cases loc : (m.harts w).loc <;> first | exact ⟨_, rfl⟩ | simp [Hart.step, loc] at stepped
  obtain ⟨c, inUser, first, entered⟩ := sound.inUser inRange loc
  simp only [Hart.step, loc, Option.some.injEq, Prod.mk.injEq] at stepped
  obtain ⟨rfl, rfl, rfl⟩ := stepped
  refine ⟨⟨trivial, trivial⟩, ?_⟩
  refine sound.update (c := c) inRange rfl rfl (fun _ _ _ _ => rfl) (.inl inUser.cur)
    (fun _ _ => rfl) (fun _ _ => rfl) (fun _ _ => rfl) (.inr ⟨.inl ?_, first, entered⟩)
  simp only [Function.update_self]
  exact ⟨⟨pc, rfl⟩, inUser.cur, inUser.started, inUser.uscratch, inUser.dasics, inUser.saved⟩

theorem Sound.trap (sound : m.Sound expected worker) (inRange : w < m.ncore)
    {cause utval dfreason ticks : Word}
    (stepped : (m.harts w).step m.mem (.trap cause utval dfreason ticks junk) =
      some (h', mem', obs)) :
    StepSound { m.record w (.trap cause utval dfreason ticks junk) h' with
      harts := Function.update m.harts w h', mem := mem' } expected worker obs := by
  obtain ⟨pc, loc⟩ : ∃ pc, (m.harts w).loc = .user pc := by
    cases loc : (m.harts w).loc <;> first | exact ⟨_, rfl⟩ | simp [Hart.step, loc] at stepped
  obtain ⟨c, inUser, first, entered⟩ := sound.inUser inRange loc
  simp only [Hart.step, loc] at stepped
  obtain ⟨inHandler, rfl, blocks⟩ := trap_spec inUser stepped
  refine ⟨⟨⟨trivial, trivial⟩, ⟨entered, trivial⟩⟩, ?_⟩
  refine sound.update (c := c) inRange record_ncore rfl
    (fun b notCtx notStack _ => blocks b notCtx notStack) (.inl inUser.cur) ?_ ?_
    (fun _ _ => rfl) (.inr ⟨.inr ?_, ?_, entered⟩)
  · intro d _
    exact congrFun (record_first (by simp)) d
  · exact fun d ne => Function.update_of_ne ne ..
  · simpa [transparency, Monitor.after] using inHandler
  · exact (congrFun (record_first (by simp)) c).trans first

theorem Sound.exit (sound : m.Sound expected worker) (inRange : w < m.ncore)
    {state : LPSThreadState}
    (stepped : (m.harts w).step m.mem (.exit state junk) = some (h', mem', obs)) :
    StepSound { m.record w (.exit state junk) h' with
      harts := Function.update m.harts w h', mem := mem' } expected worker obs := by
  obtain ⟨label, place, exited⟩ : ∃ label, ((m.harts w).loc = .timer ∧ label = .timerExited ∨
      (m.harts w).loc = .syscall ∧ label = .syscallExited) ∧
      (m.harts w).exit m.mem state label junk = some (h', mem', obs) := by
    cases loc : (m.harts w).loc with
    | timer =>
        cases state with
        | runnable => exact ⟨.timerExited, .inl ⟨rfl, rfl⟩, by simpa [Hart.step, loc] using stepped⟩
        | blocked => simp [Hart.step, loc] at stepped
        | exited => simp [Hart.step, loc] at stepped
    | syscall => exact ⟨.syscallExited, .inr ⟨rfl, rfl⟩, by simpa [Hart.step, loc] using stepped⟩
    | sched => simp [Hart.step, loc] at stepped
    | user pc => simp [Hart.step, loc] at stepped
    | timerDone => simp [Hart.step, loc] at stepped
  have loc : (m.harts w).loc = .timer ∨ (m.harts w).loc = .timerDone ∨
      (m.harts w).loc = .syscall := by
    rcases place with ⟨isTimer, _⟩ | ⟨isSyscall, _⟩
    · exact .inl isTimer
    · exact .inr (.inr isSyscall)
  obtain ⟨c, inHandler, first, entered⟩ := sound.inHandler inRange loc
  obtain ⟨inSched, parked, ⟨o, rfl⟩, blocks⟩ := exit_spec inHandler place exited
  refine ⟨⟨⟨trivial, trivial⟩, ⟨⟨entered, by simp [ownStack]⟩, trivial⟩⟩, ?_⟩
  refine sound.update (c := c) inRange record_ncore rfl (fun b notCtx _ _ => blocks b notCtx)
    (.inl inHandler.cur) ?_ (fun _ _ => rfl) (fun _ _ => rfl) (.inl ⟨inSched, ?_⟩)
  · intro d _
    exact congrFun (record_first (by simp)) d
  · have sameFirst : (m.record w (.exit state junk) h').first c = some w :=
      (congrFun (record_first (by simp)) c).trans first
    simp only [sameFirst]
    exact parked

theorem Sound.handled (sound : m.Sound expected worker) (inRange : w < m.ncore) {result : Word}
    (stepped : (m.harts w).step m.mem (.handled result junk) = some (h', mem', obs)) :
    StepSound { m.record w (.handled result junk) h' with
      harts := Function.update m.harts w h', mem := mem' } expected worker obs := by
  have loc : (m.harts w).loc = .syscall := by
    cases loc : (m.harts w).loc <;> first | rfl | simp [Hart.step, loc] at stepped
  obtain ⟨c, inHandler, first, entered⟩ := sound.inHandler inRange (.inr (.inr loc))
  simp only [Hart.step, loc] at stepped
  obtain ⟨inUser, isEcall, rfl, blocks⟩ := handled_spec inHandler loc stepped
  refine ⟨⟨⟨isEcall, ?_, trivial⟩, ⟨trivial, trivial, trivial⟩⟩, ?_⟩
  · simp [transparency]
  refine sound.update (c := c) inRange rfl rfl (fun b notCtx _ _ => blocks b notCtx)
    (.inl inHandler.cur) (fun _ _ => rfl) ?_ (fun _ _ => rfl) (.inr ⟨.inl ?_, first, entered⟩)
  · exact fun d ne => Function.update_of_ne ne ..
  · simpa using inUser

theorem Sound.timerReturn (sound : m.Sound expected worker) (inRange : w < m.ncore)
    (stepped : (m.harts w).step m.mem (.timerReturn junk) = some (h', mem', obs)) :
    StepSound { m.record w (.timerReturn junk) h' with
      harts := Function.update m.harts w h', mem := mem' } expected worker obs := by
  have loc : (m.harts w).loc = .timerDone := by
    cases loc : (m.harts w).loc <;> first | rfl | simp [Hart.step, loc] at stepped
  obtain ⟨c, inHandler, first, entered⟩ := sound.inHandler inRange (.inr (.inl loc))
  simp only [Hart.step, loc] at stepped
  obtain ⟨inUser, notEcall, rfl, rfl⟩ := timerReturn_spec inHandler loc stepped
  refine ⟨⟨⟨⟨notEcall, rfl⟩, trivial⟩, ⟨trivial, trivial⟩⟩, ?_⟩
  refine sound.update (c := c) inRange rfl rfl (fun _ _ _ _ => rfl) (.inl inHandler.cur)
    (fun _ _ => rfl) (fun _ _ => rfl) (fun _ _ => rfl) (.inr ⟨.inl ?_, first, entered⟩)
  simpa using inUser

/-- Both monitors accept every affine step, and it keeps the invariant. -/
theorem Sound.step (sound : m.Sound expected worker) (affine : m.Affine (w, event))
    (stepped : Machine.step m (w, event) = some (m', obs)) :
    StepSound m' expected worker obs := by
  obtain ⟨inRange, allowed, h', mem', hartStep, rfl⟩ := step_cases stepped
  cases event with
  | enter c junk => exact sound.enter inRange allowed affine hartStep
  | user regs fregs pc => exact sound.user inRange hartStep
  | trap cause utval dfreason ticks junk => exact sound.trap inRange hartStep
  | exit state junk => exact sound.exit inRange hartStep
  | handled result junk => exact sound.handled inRange hartStep
  | timerReturn junk => exact sound.timerReturn inRange hartStep

/-- Both monitors accept every run in which a context is entered only by the worker
that entered it first. -/
theorem affine_run (booted : m.Booted users) {trace : List SwitchObs}
    (run : Run Machine.step Affine m trace m') :
    (transparency.Accepts (fun c => ⟨users c, false⟩) trace ∧
      affinity.Accepts (fun _ => none) trace) ∧
    m'.Sound (transparency.after (fun c => ⟨users c, false⟩) trace)
      (affinity.after (fun _ => none) trace) := by
  have both := run.monitored (transparency.prod affinity)
    (fun c => ⟨users c, false⟩, fun _ => none)
    (fun memory m => m.Sound memory.1 memory.2) booted.sound (by
      intro memory observed state next event sound affine stepped
      obtain ⟨accepted, kept⟩ := sound.step affine stepped
      rw [Monitor.prod_accepts, Monitor.prod_after]
      exact ⟨accepted, kept⟩)
  rwa [Monitor.prod_accepts, Monitor.prod_after] at both

/-! ## One core -/

/-- On one core every run is affine. -/
theorem affine_of_one_core (oneCore : m.ncore = 1) (first : ∀ c, m.first c = none)
    {trace : List SwitchObs} (run : Run Machine.step (Always _ _) m trace m') :
    Run Machine.step Affine m trace m' := by
  refine run.strengthen (fun m => m.ncore = 1 ∧ ∀ c, ∀ v ∈ m.first c, v = 0)
    ⟨oneCore, by simp [first]⟩ ?_
  rintro observed state next ⟨w, event⟩ ⟨one, zero⟩ stepped
  obtain ⟨inRange, _, h', mem', _, rfl⟩ := step_cases stepped
  have isZero : w = 0 := by omega
  subst isZero
  refine ⟨?_, record_ncore.trans one, ?_⟩
  · cases event with
    | enter c junk => exact zero c
    | user | trap | exit | handled | timerReturn => trivial
  · intro c v mem
    by_cases entering : ∃ d junk, event = .enter d junk
    · obtain ⟨d, junk, rfl⟩ := entering
      by_cases same : c = d
      · subst same
        simp only [record, Function.update_self, Option.mem_def, Option.some.injEq] at mem
        cases before : state.first c with
        | none => simpa [before] using mem.symm
        | some x =>
            rw [before, Option.getD_some] at mem
            exact zero c v (mem ▸ before)
      · simp only [record, Function.update_of_ne same] at mem
        exact zero c v mem
    · have sameFirst : (state.record 0 event h').first = state.first :=
        record_first fun d junk isEnter => entering ⟨d, junk, isEnter⟩
      simp only [sameFirst] at mem
      exact zero c v mem

/-- On one core a context goes on in the state it trapped in, but for the effect of a
system call, and executes with its record in `uscratch` and its bounds and
configuration in the control registers. -/
theorem switch_transparent (booted : m.Booted users) (oneCore : m.ncore = 1)
    {trace : List SwitchObs} (run : Run Machine.step (Always _ _) m trace m') :
    transparency.Accepts (fun c => ⟨users c, false⟩) trace ∧
      ∀ pc c, (m'.harts 0).loc = .user pc → (m'.harts 0).cur = some c →
        (m'.harts 0).csrs CSR_USCRATCH = .ptr (.ctx c) 0 ∧
        DasicsLoaded (m'.harts 0).csrs (m'.mem (.ctx c)) := by
  have affine := affine_of_one_core oneCore booted.first run
  obtain ⟨⟨accepted, _⟩, sound⟩ := affine_run booted affine
  refine ⟨accepted, ?_⟩
  intro pc c loc cur
  have stillOne : m'.ncore = 1 := by
    refine run.stateInvariant (fun m => m.ncore = 1) oneCore ?_
    rintro observed state next ⟨w, event⟩ one _ stepped
    obtain ⟨_, _, h', mem', _, rfl⟩ := step_cases stepped
    exact record_ncore.trans one
  obtain ⟨d, inUser, _⟩ := sound.inUser (by omega : 0 < m'.ncore) loc
  have same : d = c := Option.some.inj (inUser.cur.symm.trans cur)
  subst same
  exact ⟨inUser.uscratch, inUser.dasics⟩

/-- Context 7 makes a system call and yields in it, context 8 is interrupted by the
timer, and context 7 goes on behind its `ecall`. -/
theorem switch_transparent_two_contexts :
    ∃ trace, ∃ m' : Machine, transparency.Accepts (fun _ => ⟨⟨fun _ => .word 0, 0⟩, false⟩) trace ∧
      (m'.harts 0).loc = .user 104 ∧ (m'.harts 0).regs .a0 = .word 42 ∧
      (m'.harts 0).regs .a1 = .word 3 ∧ (m'.harts 0).csrs CSR_USCRATCH = .ptr (.ctx 7) 0 := by
  have seen : (Transition.exec Machine.step (boot 1)
      [(0, .enter 7 fun _ => .word 1), (0, .user (fun _ => .word 3) (fun _ => 9) 100),
        (0, .trap CAUSE_DASICS_U_CHECK_FAULT 0 DFR_EF 0 fun _ => .word 1),
        (0, .exit .runnable fun _ => .word 1), (0, .enter 8 fun _ => .word 1),
        (0, .trap CAUSE_IRQ_U_TIME 0 0 5 fun _ => .word 1),
        (0, .exit .runnable fun _ => .word 1), (0, .enter 7 fun _ => .word 1),
        (0, .handled 42 fun _ => .word 1)]).map (fun out =>
          ((out.1.harts 0).loc, (out.1.harts 0).cur, (out.1.harts 0).regs .a0,
            (out.1.harts 0).regs .a1)) =
      some (.user 104, some 7, .word 42, .word 3) := by decide +kernel
  obtain ⟨⟨m', trace⟩, executed, pair⟩ := Option.map_eq_some_iff.mp seen
  simp only [Prod.mk.injEq] at pair
  obtain ⟨loc, cur, a0, a1⟩ := pair
  obtain ⟨accepted, executes⟩ := switch_transparent (boot_booted 1) rfl
    (Transition.run_of_exec executed)
  exact ⟨trace, m', accepted, loc, a0, a1, (executes 104 7 loc cur).1⟩

end Machine

end Lps.Linux

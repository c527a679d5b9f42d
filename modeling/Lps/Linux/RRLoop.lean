import Lps.Linux.LinkedQueue
import Lps.Transition.Run

/-!
# The round-robin scheduler

The scheduler loop and the thread on the core move threads between the linked
queues.  A step is one operation on the queues: the loop of `rrschedwake` takes
one step for each thread it dequeues, and an exiting thread may wake any queues
before it leaves the core, as `fdfree` does for the pipes it closes.
-/

namespace Lps.Linux

open Lps.Transition

/-- The globals of the scheduler and the states of its threads. `added` lists the
threads given to `rrschedadd`, `current` is the thread on the core, and `waking`
the queue that the loop of `rrschedwake` is at. -/
structure RRLoop (ω : Type) where
  mem : QueueMem ω
  state : Tid → LPSThreadState
  added : List Tid
  current : Option Tid
  waking : Option ω

/-- What the loop of `rrschedstart`, its caller or the thread on the core does next. -/
inductive RREvent (ω : Type)
  /-- `rrschedadd`, once for each thread. -/
  | add (t : Tid)
  /-- The loop runs the next thread of the run queue. -/
  | pick
  /-- Runtime call `YIELD`, or a timer interrupt. -/
  | yield
  /-- `rrschedblock`. -/
  | block (q : ω)
  /-- `rrschedwake` is called. -/
  | wake (q : ω)
  /-- The loop of `rrschedwake` goes on. -/
  | wakeNext
  /-- `sys_exit` sets the state. -/
  | exit
  /-- `sys_exit` gives up the core. -/
  | leave

/-- What happens to the queues. -/
inductive RRObs (ω : Type)
  | enqueued (q : QueueId ω) (t : Tid)
  | dequeued (q : QueueId ω) (t : Tid)
  deriving DecidableEq

/-- `LIST_CONTAINER(struct LPSThread, elem, e)`; there is no thread around a dummy
head. -/
def ListNode.container {ω : Type} : ListNode ω → Option Tid
  | .dummy _ => none
  | .elem t => some t

namespace RRLoop

variable {ω : Type}

/-- Before `rrschedstart`: no thread, and every thread to come is `THREAD_RUNNABLE`. -/
def init : RRLoop ω where
  mem := .init
  state := fun _ => .runnable
  added := []
  current := none
  waking := none

/-- `t->state = state`. -/
def setState (s : RRLoop ω) (t : Tid) (state : LPSThreadState) : RRLoop ω :=
  { s with state := Function.update s.state t state }

/-- The thread on the core, when it is not inside the loop of `rrschedwake`. -/
def running (s : RRLoop ω) : Option Tid := if s.waking.isNone then s.current else none

variable [DecidableEq ω]

/-- `queue_enqueue(q, &t->elem)`. -/
def enqueue (s : RRLoop ω) (q : QueueId ω) (t : Tid) : RRLoop ω :=
  { s with mem := s.mem.queueEnqueue q (.elem t) }

/-- `queue_dequeue` and `LIST_CONTAINER`; `none` for a wild pointer. -/
def dequeue (s : RRLoop ω) (q : QueueId ω) : Option (Option Tid × RRLoop ω) :=
  match s.mem.queueDequeue q with
  | none => none
  | some (none, mem) => some (none, { s with mem := mem })
  | some (some node, mem) => node.container.map fun t => (some t, { s with mem := mem })

/-- `lps_thread_exit` and the rest of the loop body of `rrschedstart`. -/
def threadExit (s : RRLoop ω) (t : Tid) : RRLoop ω × List (RRObs ω) :=
  let s := { s with current := none }
  if s.state t = .runnable then (s.enqueue .runq t, [.enqueued .runq t]) else (s, [])

/-- The body of `rrschedblock` for the running thread. -/
def rrschedblock (s : RRLoop ω) (t : Tid) (q : ω) : RRLoop ω × List (RRObs ω) :=
  let (s, obs) := (((s.setState t .blocked).enqueue (.wait q) t)).threadExit t
  (s, .enqueued (.wait q) t :: obs)

/-- One step of the loop of `rrschedwake`; `none` for a wild pointer. -/
def rrschedwakeNext (s : RRLoop ω) (q : ω) : Option (RRLoop ω × List (RRObs ω)) :=
  match s.dequeue (.wait q) with
  | none => none
  | some (none, s) => some ({ s with waking := none }, [])
  | some (some t, s) =>
      some ((s.setState t .runnable).enqueue .runq t,
        [.dequeued (.wait q) t, .enqueued .runq t])

/-- The scheduler, or nothing after a wild pointer. -/
abbrev Core (ω : Type) := Option (RRLoop ω)

/-- One step. -/
def step : Step (Core ω) (RREvent ω) (RRObs ω)
  | none, _ => none
  | some s, .add t =>
      if s.current = none ∧ t ∉ s.added then
        some (some { s.enqueue .runq t with added := s.added ++ [t] }, [.enqueued .runq t])
      else none
  | some s, .pick =>
      if s.current = none then
        match s.dequeue .runq with
        | none => some (none, [])
        | some (none, _) => none
        | some (some t, s) => some (some { s with current := some t }, [.dequeued .runq t])
      else none
  | some s, .yield => do
      let t ← s.running
      if s.state t = .runnable then
        let (s, obs) := s.threadExit t
        some (some s, obs)
      else none
  | some s, .block q => do
      let t ← s.running
      if s.state t = .runnable then
        let (s, obs) := s.rrschedblock t q
        some (some s, obs)
      else none
  | some s, .wake q => do
      let _ ← s.running
      some (some { s with waking := some q }, [])
  | some s, .wakeNext => do
      let q ← s.waking
      match s.rrschedwakeNext q with
      | none => some (none, [])
      | some (s, obs) => some (some s, obs)
  | some s, .exit => do
      let t ← s.running
      if s.state t = .runnable then some (some (s.setState t .exited), []) else none
  | some s, .leave => do
      let t ← s.running
      if s.state t = .exited then
        let (s, obs) := s.threadExit t
        some (some s, obs)
      else none

/-- The threads a queue was given, in order. -/
def enqueuedTo (q : QueueId ω) (trace : List (RRObs ω)) : List Tid :=
  trace.filterMap fun
    | .enqueued q' t => if q' = q then some t else none
    | .dequeued _ _ => none

/-- The threads a queue delivered, in order. -/
def dequeuedFrom (q : QueueId ω) (trace : List (RRObs ω)) : List Tid :=
  trace.filterMap fun
    | .enqueued _ _ => none
    | .dequeued q' t => if q' = q then some t else none

/-- The thread is linked in the queue. -/
def LinkedIn (s : RRLoop ω) (q : QueueId ω) (t : Tid) : Prop :=
  ∃ ts, s.mem.Represents q ts ∧ t ∈ ts

/-! ## Moving threads between queues -/

end RRLoop

/-- The state of the threads in a queue. -/
def QueueId.state {ω : Type} : QueueId ω → LPSThreadState
  | .runq => .runnable
  | .wait _ => .blocked

namespace RRLoop

variable {ω : Type} {mem : QueueMem ω} {state : Tid → LPSThreadState} {added : List Tid}
  {contents : QueueId ω → Queue} {loose : Tid → Prop} {q : QueueId ω} {t : Tid} {rest : Queue}

/-- Every thread is in a queue that its state says, or has exited, or is `loose`. -/
structure Placed (mem : QueueMem ω) (state : Tid → LPSThreadState) (added : List Tid)
    (contents : QueueId ω → Queue) (loose : Tid → Prop) : Prop where
  holds : mem.Holds contents
  inState : ∀ {q t}, t ∈ contents q → state t = q.state
  known : ∀ {q t}, t ∈ contents q → t ∈ added
  apart : ∀ {t}, loose t → t ∈ added ∧ ∀ q, t ∉ contents q
  linked : ∀ {t}, t ∈ added → ¬loose t → state t ≠ .exited → ∃ q, t ∈ contents q
  new : ∀ {t}, t ∉ added → state t = .runnable

variable [DecidableEq ω]

omit [DecidableEq ω] in
/-- The state of a loose thread may change. -/
theorem Placed.setState (placed : Placed mem state added contents loose) (isLoose : loose t)
    (value : LPSThreadState) :
    Placed mem (Function.update state t value) added contents loose where
  holds := placed.holds
  inState := by
    intro q u inside
    have other : u ≠ t := by
      rintro rfl
      exact (placed.apart isLoose).2 q inside
    rw [Function.update_of_ne other]
    exact placed.inState inside
  known := placed.known
  apart := placed.apart
  linked := by
    intro u isAdded notLoose notExited
    have other : u ≠ t := by
      rintro rfl
      exact notLoose isLoose
    rw [Function.update_of_ne other] at notExited
    exact placed.linked isAdded notLoose notExited
  new := by
    intro u notAdded
    have other : u ≠ t := by
      rintro rfl
      exact notAdded (placed.apart isLoose).1
    rw [Function.update_of_ne other]
    exact placed.new notAdded

/-- A loose thread goes to the queue of its state. -/
theorem Placed.enqueue (placed : Placed mem state added contents loose) (isLoose : loose t)
    (fits : state t = q.state) :
    Placed (mem.queueEnqueue q (.elem t)) state added
      (Function.update contents q (queueEnqueue (contents q) t)) fun u => loose u ∧ u ≠ t := by
  obtain ⟨isAdded, fresh⟩ := placed.apart isLoose
  have grown : ∀ {q' u}, u ∈ Function.update contents q (queueEnqueue (contents q) t) q' ↔
      u ∈ contents q' ∨ (q' = q ∧ u = t) := by
    intro q' u
    by_cases same : q' = q
    · subst same
      simp
    · rw [Function.update_of_ne same]
      simp [same]
  constructor
  · exact placed.holds.enqueue fresh
  · intro q' u inside
    rcases grown.mp inside with old | ⟨rfl, rfl⟩
    · exact placed.inState old
    · exact fits
  · intro q' u inside
    rcases grown.mp inside with old | ⟨rfl, rfl⟩
    · exact placed.known old
    · exact isAdded
  · rintro u ⟨stillLoose, other⟩
    obtain ⟨isAdded, nowhere⟩ := placed.apart stillLoose
    refine ⟨isAdded, fun q' inside => ?_⟩
    exact (grown.mp inside).elim (nowhere q') fun isNew => other isNew.2
  · intro u isAdded settled notExited
    by_cases same : u = t
    · exact ⟨q, grown.mpr (.inr ⟨rfl, same⟩)⟩
    · obtain ⟨q', inside⟩ := placed.linked isAdded (fun isLoose => settled ⟨isLoose, same⟩) notExited
      exact ⟨q', grown.mpr (.inl inside)⟩
  · exact placed.new

/-- The first thread of a queue becomes loose. -/
theorem Placed.dequeue {s : RRLoop ω} (placed : Placed s.mem s.state added contents loose)
    (front : contents q = t :: rest) :
    ∃ mem, s.dequeue q = some (some t, { s with mem := mem }) ∧
      Placed mem s.state added (Function.update contents q rest) fun u => loose u ∨ u = t := by
  obtain ⟨mem, dequeued, holds, nowhere⟩ := placed.holds.dequeue front
  have first : t ∈ contents q := front ▸ List.mem_cons_self
  have fewer : ∀ {q' u}, u ∈ contents q' ↔
      u ∈ Function.update contents q rest q' ∨ (q' = q ∧ u = t) := by
    intro q' u
    by_cases same : q' = q
    · subst same
      rw [Function.update_self, front, List.mem_cons]
      simp [or_comm]
    · rw [Function.update_of_ne same]
      simp [same]
  refine ⟨mem, ?_, holds, ?_, ?_, ?_, ?_, placed.new⟩
  · simp only [RRLoop.dequeue, dequeued]
    rfl
  · exact fun inside => placed.inState (fewer.mpr (.inl inside))
  · exact fun inside => placed.known (fewer.mpr (.inl inside))
  · rintro u (isLoose | rfl)
    · obtain ⟨isAdded, outside⟩ := placed.apart isLoose
      exact ⟨isAdded, fun q' inside => outside q' (fewer.mpr (.inl inside))⟩
    · exact ⟨placed.known first, nowhere⟩
  · intro u isAdded settled notExited
    obtain ⟨q', inside⟩ := placed.linked isAdded (fun isLoose => settled (.inl isLoose)) notExited
    rcases fewer.mp inside with still | ⟨-, same⟩
    · exact ⟨q', still⟩
    · exact absurd (.inr same) settled

/-- An empty queue delivers nothing. -/
theorem Placed.dequeue_nil {s : RRLoop ω} (placed : Placed s.mem s.state added contents loose)
    (empty : contents q = []) : s.dequeue q = some (none, s) := by
  have rep := placed.holds.represents q
  rw [empty] at rep
  simp only [RRLoop.dequeue, rep.dequeue_nil]

/-! ## First in, first out -/

/-- Every queue holds what it was given and has not delivered, in order. -/
def Ordered (trace : List (RRObs ω)) (contents : QueueId ω → Queue) : Prop :=
  ∀ q, enqueuedTo q trace = dequeuedFrom q trace ++ contents q

variable {trace : List (RRObs ω)}

theorem Ordered.enqueue (ordered : Ordered trace contents) :
    Ordered (trace ++ [.enqueued q t])
      (Function.update contents q (queueEnqueue (contents q) t)) := by
  intro q'
  have before := ordered q'
  simp only [enqueuedTo, dequeuedFrom, List.filterMap_append] at before ⊢
  by_cases same : q = q'
  · subst same
    simp [before, queueEnqueue]
  · simp [before, same, Function.update_of_ne (Ne.symm same)]

theorem Ordered.dequeue (ordered : Ordered trace contents) (front : contents q = t :: rest) :
    Ordered (trace ++ [.dequeued q t]) (Function.update contents q rest) := by
  intro q'
  have before := ordered q'
  simp only [enqueuedTo, dequeuedFrom, List.filterMap_append] at before ⊢
  by_cases same : q = q'
  · subst same
    simp [before, front]
  · simp [before, same, Function.update_of_ne (Ne.symm same)]

/-! ## The invariant -/

/-- Every thread but the one on the core is where its state says, and every queue is
in order. -/
structure Inv (trace : List (RRObs ω)) (s : RRLoop ω) (contents : QueueId ω → Queue) : Prop where
  placed : Placed s.mem s.state s.added contents fun t => s.current = some t
  onCore : ∀ {t}, s.current = some t → s.state t ≠ .blocked
  ordered : Ordered trace contents

/-- The scheduler is in order, for some contents of its queues. -/
def Sound (trace : List (RRObs ω)) (s : Core ω) : Prop :=
  ∃ s', s = some s' ∧ ∃ contents, Inv trace s' contents

theorem init_inv : Inv [] (init : RRLoop ω) fun _ => [] where
  placed := {
    holds := QueueMem.init_holds
    inState := by simp
    known := by simp
    apart := by simp [init]
    linked := by simp [init]
    new := fun _ => rfl }
  onCore := by simp [init]
  ordered := fun _ => rfl

variable {s : RRLoop ω}

omit [DecidableEq ω] in
theorem running_eq_some (run : s.running = some t) : s.current = some t := by
  rw [running] at run
  split at run
  · exact run
  · cases run

omit [DecidableEq ω] in
theorem Placed.congr {loose' : Tid → Prop} (placed : Placed mem state added contents loose)
    (same : ∀ t, loose' t ↔ loose t) : Placed mem state added contents loose' := by
  have equal : loose' = loose := funext fun t => propext (same t)
  rw [equal]
  exact placed

/-- A thread gives up the core: it is enqueued if it is runnable. -/
theorem threadExit_inv (placed : Placed s.mem s.state s.added contents fun u => u = t)
    (notBlocked : s.state t ≠ .blocked) (ordered : Ordered trace contents) :
    ∃ contents', Inv (trace ++ (s.threadExit t).2) (s.threadExit t).1 contents' := by
  rw [threadExit]
  dsimp only
  split
  · rename_i runnable
    refine ⟨_, ⟨?_, by simp [enqueue], ordered.enqueue⟩⟩
    refine (placed.enqueue (q := .runq) rfl runnable).congr ?_
    simp [enqueue]
  · rename_i notRunnable
    have isExited : s.state t = .exited := by
      cases state : s.state t with
      | runnable => exact absurd state notRunnable
      | blocked => exact absurd state notBlocked
      | exited => rfl
    refine ⟨contents, ⟨?_, by simp, by simpa using ordered⟩⟩
    refine { placed with apart := by simp, linked := ?_ }
    intro u isAdded _ notExited
    refine placed.linked isAdded ?_ notExited
    rintro rfl
    exact notExited isExited

/-- A thread that has been put into a wait queue gives up the core. -/
theorem threadExit_blocked (placed : Placed s.mem s.state s.added contents fun _ => False)
    (blocked : s.state t = .blocked) (ordered : Ordered trace contents) :
    Inv (trace ++ (s.threadExit t).2) (s.threadExit t).1 contents := by
  rw [threadExit]
  dsimp only
  rw [if_neg (by simp [blocked])]
  exact ⟨placed.congr (by simp), by simp, by simpa using ordered⟩

/-- One step keeps the scheduler in order; it follows no wild pointer. -/
theorem step_sound {event : RREvent ω} {observed : List (RRObs ω)} {next : Core ω}
    (inv : Inv trace s contents) (stepped : step (some s) event = some (next, observed)) :
    Sound (trace ++ observed) next := by
  obtain ⟨placed, onCore, ordered⟩ := inv
  cases event with
  | add t =>
      simp only [step] at stepped
      split at stepped
      · rename_i allowed
        obtain ⟨idle, isNew⟩ := allowed
        cases stepped
        have fresh : ∀ q, t ∉ contents q := fun q inside => isNew (placed.known inside)
        have loose : Placed s.mem s.state (s.added ++ [t]) contents fun u => u = t := {
          holds := placed.holds
          inState := placed.inState
          known := fun inside => List.mem_append_left _ (placed.known inside)
          apart := by
            rintro _ rfl
            exact ⟨List.mem_append_right _ (List.mem_singleton_self _), fresh⟩
          linked := by
            intro u isAdded other notExited
            rcases List.mem_append.mp isAdded with old | same
            · exact placed.linked old (by simp [idle]) notExited
            · exact absurd (List.mem_singleton.mp same) other
          new := fun notAdded => placed.new fun old => notAdded (List.mem_append_left _ old) }
        refine ⟨_, rfl, _, ?_, ?_, ordered.enqueue⟩
        · refine (loose.enqueue (q := .runq) rfl (placed.new isNew)).congr ?_
          simp [enqueue, idle]
        · simp [enqueue, idle]
      · cases stepped
  | pick =>
      simp only [step] at stepped
      split at stepped
      · rename_i idle
        cases front : contents .runq with
        | nil =>
            rw [placed.dequeue_nil front] at stepped
            cases stepped
        | cons t rest =>
            obtain ⟨mem, dequeued, picked⟩ := placed.dequeue front
            rw [dequeued] at stepped
            cases stepped
            have inQueue : t ∈ contents .runq := front ▸ List.mem_cons_self
            refine ⟨_, rfl, _, picked.congr ?_, ?_, ordered.dequeue front⟩
            · simp [idle, eq_comm]
            · rintro _ ⟨⟩
              rw [placed.inState inQueue]
              exact nofun
      · cases stepped
  | yield =>
      simp only [step, Option.bind_eq_bind, Option.bind_eq_some_iff] at stepped
      obtain ⟨t, run, stepped⟩ := stepped
      split at stepped
      · rename_i runnable
        cases stepped
        have core := running_eq_some run
        obtain ⟨contents', inv⟩ := threadExit_inv (placed.congr (by simp [core, eq_comm]))
          (onCore core) ordered
        exact ⟨_, rfl, contents', inv⟩
      · cases stepped
  | block q =>
      simp only [step, Option.bind_eq_bind, Option.bind_eq_some_iff] at stepped
      obtain ⟨t, run, stepped⟩ := stepped
      split at stepped
      · rename_i runnable
        cases stepped
        have core := running_eq_some run
        have blocked := (placed.setState core .blocked).enqueue (q := .wait q) core
          (Function.update_self ..)
        have waits : Placed ((s.setState t .blocked).enqueue (.wait q) t).mem
            ((s.setState t .blocked).enqueue (.wait q) t).state s.added _ fun _ => False :=
          blocked.congr (by simp [core, eq_comm])
        have inv := threadExit_blocked (s := (s.setState t .blocked).enqueue (.wait q) t) waits
          (Function.update_self ..) (t := t) (ordered.enqueue (q := .wait q))
        rw [List.append_assoc] at inv
        exact ⟨_, rfl, _, inv⟩
      · cases stepped
  | wake q =>
      simp only [step, Option.bind_eq_bind, Option.bind_eq_some_iff] at stepped
      obtain ⟨t, run, stepped⟩ := stepped
      cases stepped
      exact ⟨_, rfl, contents, placed, onCore, by simpa using ordered⟩
  | wakeNext =>
      simp only [step, Option.bind_eq_bind, Option.bind_eq_some_iff] at stepped
      obtain ⟨q, waking, stepped⟩ := stepped
      cases front : contents (.wait q) with
      | nil =>
          rw [rrschedwakeNext, placed.dequeue_nil front] at stepped
          cases stepped
          exact ⟨_, rfl, contents, placed, onCore, by simpa using ordered⟩
      | cons t rest =>
          obtain ⟨mem, dequeued, taken⟩ := placed.dequeue front
          rw [rrschedwakeNext, dequeued] at stepped
          cases stepped
          have inQueue : t ∈ contents (.wait q) := front ▸ List.mem_cons_self
          have notCore : s.current ≠ some t := fun core => (placed.apart core).2 _ inQueue
          have woken := (taken.setState (.inr rfl) .runnable).enqueue (q := .runq) (.inr rfl)
            (Function.update_self ..)
          refine ⟨_, rfl, _, woken.congr ?_, ?_, ?_⟩
          · intro u
            simp only [enqueue, setState]
            constructor
            · intro core
              refine ⟨.inl core, ?_⟩
              rintro rfl
              exact notCore core
            · rintro ⟨core | same, other⟩
              · exact core
              · exact absurd same other
          · intro u core
            have other : u ≠ t := by
              rintro rfl
              exact notCore core
            simp only [enqueue, setState, Function.update_of_ne other]
            exact onCore core
          · have both := (ordered.dequeue front).enqueue (q := .runq) (t := t)
            simpa using both
  | exit =>
      simp only [step, Option.bind_eq_bind, Option.bind_eq_some_iff] at stepped
      obtain ⟨t, run, stepped⟩ := stepped
      split at stepped
      · cases stepped
        have core := running_eq_some run
        refine ⟨_, rfl, contents, placed.setState core .exited, ?_, by simpa using ordered⟩
        intro u core'
        have same : u = t := Option.some.inj (core'.symm.trans core)
        subst same
        simp [setState]
      · cases stepped
  | leave =>
      simp only [step, Option.bind_eq_bind, Option.bind_eq_some_iff] at stepped
      obtain ⟨t, run, stepped⟩ := stepped
      split at stepped
      · cases stepped
        have core := running_eq_some run
        obtain ⟨contents', inv⟩ := threadExit_inv (placed.congr (by simp [core, eq_comm]))
          (onCore core) ordered
        exact ⟨_, rfl, contents', inv⟩
      · cases stepped

/-! ## Runs -/

/-- Every run keeps the scheduler in order. -/
theorem run_sound {trace : List (RRObs ω)} {target : Core ω}
    (run : Run step (Always (Core ω) (RREvent ω)) (some init) trace target) :
    Sound trace target := by
  refine run.invariant Sound ⟨init, rfl, _, init_inv⟩ ?_
  rintro trace observed _ next event ⟨s, rfl, contents, inv⟩ - stepped
  exact step_sound inv stepped

omit [DecidableEq ω] in
/-- What a queue links can be read off its contents. -/
theorem linkedIn_iff {contents : QueueId ω → Queue} (holds : s.mem.Holds contents) :
    s.LinkedIn q t ↔ t ∈ contents q := by
  constructor
  · rintro ⟨ts, rep, inside⟩
    rwa [rep.unique (holds.represents q)] at inside
  · exact fun inside => ⟨_, holds.represents q, inside⟩

/-- Every thread that has not exited is in one queue, the one of its state. -/
structure Conserved (s : RRLoop ω) : Prop where
  runnable : ∀ t ∈ s.added, s.LinkedIn .runq t ↔ s.state t = .runnable
  blocked : ∀ t ∈ s.added, (∃! q, s.LinkedIn (.wait q) t) ↔ s.state t = .blocked
  once : ∀ t ∈ s.added, s.state t ≠ .exited → ∃! q, s.LinkedIn q t
  exited : ∀ t ∈ s.added, s.state t = .exited → ∀ q, ¬s.LinkedIn q t

/-- While no thread is on the core, the state of a thread says where it is. -/
theorem Inv.conserved {trace : List (RRObs ω)} {contents : QueueId ω → Queue}
    (inv : Inv trace s contents) (idle : s.current = none) : s.Conserved := by
  have placed := inv.placed
  have place : ∀ {q t}, s.LinkedIn q t ↔ t ∈ contents q := linkedIn_iff placed.holds
  have somewhere : ∀ {t}, t ∈ s.added → s.state t ≠ .exited → ∃ q, t ∈ contents q :=
    fun isAdded notExited => placed.linked isAdded (by simp [idle]) notExited
  constructor
  · intro t isAdded
    constructor
    · exact fun inside => placed.inState (place.mp inside)
    · intro isRunnable
      obtain ⟨q, inside⟩ := somewhere isAdded (by simp [isRunnable])
      cases q with
      | runq => exact place.mpr inside
      | wait q => exact nomatch isRunnable.symm.trans (placed.inState inside)
  · intro t isAdded
    constructor
    · rintro ⟨q, inside, -⟩
      exact placed.inState (place.mp inside)
    · intro isBlocked
      obtain ⟨q, inside⟩ := somewhere isAdded (by simp [isBlocked])
      cases q with
      | runq => exact nomatch isBlocked.symm.trans (placed.inState inside)
      | wait q =>
          refine ⟨q, place.mpr inside, fun q' inside' => ?_⟩
          exact QueueId.wait.inj (placed.holds.once (place.mp inside') inside)
  · intro t isAdded notExited
    obtain ⟨q, inside⟩ := somewhere isAdded notExited
    exact ⟨q, place.mpr inside, fun q' inside' => placed.holds.once (place.mp inside') inside⟩
  · intro t isAdded isExited q inside
    have state := placed.inState (place.mp inside)
    rw [isExited] at state
    cases q with
    | runq => cases state
    | wait q => cases state

/-- In every run no wild pointer is followed, every queue has delivered its threads in
the order it was given them, and whenever the scheduler loop is about to pick, each
thread is in the one queue of its state, or has exited and is in none. -/
theorem scheduler_conserves {trace : List (RRObs ω)} {target : Core ω}
    (run : Run step (Always (Core ω) (RREvent ω)) (some init) trace target) :
    ∃ s, target = some s ∧
      (∀ q, ∃ ts, s.mem.Represents q ts ∧ enqueuedTo q trace = dequeuedFrom q trace ++ ts) ∧
      (s.current = none → s.Conserved) := by
  obtain ⟨s, rfl, contents, inv⟩ := run_sound run
  refine ⟨s, rfl, fun q => ?_, inv.conserved⟩
  exact ⟨contents q, inv.placed.holds.represents q, inv.ordered q⟩

/-- Thread 1 blocks on a wait queue, thread 2 exits and wakes it on the way out. -/
theorem scheduler_conserves_wake :
    ∃ trace target, Run step (Always (Core Unit) (RREvent Unit)) (some init) trace target ∧
      trace = [.enqueued .runq 1, .enqueued .runq 2, .dequeued .runq 1, .enqueued (.wait ()) 1,
        .dequeued .runq 2, .dequeued (.wait ()) 1, .enqueued .runq 1] ∧
      ∃ s, target = some s ∧
        (∀ q, ∃ ts, s.mem.Represents q ts ∧ enqueuedTo q trace = dequeuedFrom q trace ++ ts) ∧
        (s.current = none → s.Conserved) := by
  have seen : (exec step (some (init : RRLoop Unit)) [.add 1, .add 2, .pick, .block (), .pick,
      .exit, .wake (), .wakeNext, .wakeNext, .leave]).map Prod.snd =
      some [.enqueued .runq 1, .enqueued .runq 2, .dequeued .runq 1, .enqueued (.wait ()) 1,
        .dequeued .runq 2, .dequeued (.wait ()) 1, .enqueued .runq 1] := by
    decide +kernel
  obtain ⟨⟨target, trace⟩, executed, shown⟩ := Option.map_eq_some_iff.mp seen
  exact ⟨trace, target, run_of_exec executed, shown, scheduler_conserves (run_of_exec executed)⟩

end RRLoop

end Lps.Linux

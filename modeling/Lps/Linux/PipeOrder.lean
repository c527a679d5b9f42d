import Lps.Linux.FdPipeRun

/-!
# When the scheduler loop ends

Every thread is in one place: on the core, in the run queue, or in the wait queue of the call that it is
suspended in.  The loop of `rrschedstart` ends when the run queue is empty, so whoever has not exited
then waits on a pipe for something that still has not come.
-/

namespace Lps.Linux

open Lps.Transition RRSched

variable {s s' : RRSched} {t u : Tid} {p q : PipeId} {buf n written : Word} {obs : List PipeObs}
  {src : Nat → Byte} {added : List Tid} {a : WaitQueue} {call : PipeCall}

/-- Each thread that was added and has not exited is in one place, and its state says where. -/
structure RRSched.Orderly (s : RRSched) (added : List Tid) : Prop where
  ready : ∀ t, t ∈ s.runq ∨ s.current = some t → (s.threads t).state = .runnable
  waits : ∀ a, ∀ t ∈ s.waiting a, (s.threads t).state = .blocked ∧
    ∃ call, (s.threads t).call = some call ∧ call.queue = a ∧ call.Pending
  once : (s.current.toList ++ s.runq).Nodup
  waitsOnce : ∀ a, (s.waiting a).Nodup
  known : ∀ t, (t ∈ s.runq ∨ s.current = some t) ∨ (∃ a, t ∈ s.waiting a) → t ∈ added
  placed : ∀ t ∈ added, (s.threads t).state = .exited ∨ (t ∈ s.runq ∨ s.current = some t) ∨
    ∃ a, t ∈ s.waiting a

namespace RRSched

/-! ## The scheduler primitives -/

theorem waiting_setPipe {pipe : Pipe} (readq : pipe.readq = (s.pipes p).readq)
    (writeq : pipe.writeq = (s.pipes p).writeq) (a : WaitQueue) :
    (s.setPipe p pipe).waiting a = s.waiting a := by
  cases a with
  | readq q =>
      by_cases here : q = p
      · subst here
        simpa [waiting] using readq
      · simp [waiting, here]
  | writeq q =>
      by_cases here : q = p
      · subst here
        simpa [waiting] using writeq
      · simp [waiting, here]

/-- Nobody waits in two queues. -/
theorem Orderly.waits_once {b : WaitQueue} (orderly : s.Orderly added) (inA : t ∈ s.waiting a)
    (inB : t ∈ s.waiting b) : a = b := by
  obtain ⟨-, first, suspended, rfl, -⟩ := orderly.waits a t inA
  obtain ⟨-, second, suspended', rfl, -⟩ := orderly.waits b t inB
  rw [suspended, Option.some.injEq] at suspended'
  rw [suspended']

/-- Whoever waits is neither on the core nor in the run queue. -/
theorem Orderly.waits_not_ready (orderly : s.Orderly added) (waits : t ∈ s.waiting a) :
    ¬(t ∈ s.runq ∨ s.current = some t) := by
  intro ready
  have blocked := (orderly.waits a t waits).1
  rw [orderly.ready t ready] at blocked
  cases blocked

/-- The thread on the core is not in the run queue. -/
theorem Orderly.current_not_queued (orderly : s.Orderly added) (current : s.current = some t) :
    t ∉ s.runq := by
  have once := orderly.once
  rw [current, Option.toList_some, List.singleton_append, List.nodup_cons] at once
  exact once.1

/-- What is in a pipe does not matter. -/
theorem Orderly.setPipe {pipe : Pipe} (orderly : s.Orderly added) (readq : pipe.readq = (s.pipes p).readq)
    (writeq : pipe.writeq = (s.pipes p).writeq) : (s.setPipe p pipe).Orderly added where
  ready := orderly.ready
  waits := by
    intro a t mem
    rw [waiting_setPipe readq writeq] at mem
    exact orderly.waits a t mem
  once := orderly.once
  waitsOnce := by
    intro a
    rw [waiting_setPipe readq writeq]
    exact orderly.waitsOnce a
  known := by
    rintro t (ready | ⟨a, waits⟩)
    · exact orderly.known t (.inl ready)
    · rw [waiting_setPipe readq writeq] at waits
      exact orderly.known t (.inr ⟨a, waits⟩)
  placed := by
    intro t mem
    rcases orderly.placed t mem with exited | ready | ⟨a, waits⟩
    · exact .inl exited
    · exact .inr (.inl ready)
    · refine .inr (.inr ⟨a, ?_⟩)
      rwa [waiting_setPipe readq writeq]

/-- `rrschedwake` moves a wait queue to the run queue. -/
theorem Orderly.wake (orderly : s.Orderly added) (a : WaitQueue) : (s.rrschedwake a).Orderly added := by
  obtain ⟨current, runq, states⟩ := wakeAll_spec (s.setWaiting [] a) (s.waiting a)
  rw [setWaiting_current] at current
  rw [setWaiting_runq] at runq
  simp only [setWaiting_threads] at states
  have same : ∀ t, t ∉ s.waiting a → ((s.rrschedwake a).threads t).state = (s.threads t).state := by
    intro t outside
    exact (states t).trans (if_neg outside)
  have woken : ∀ t, t ∈ s.waiting a → ((s.rrschedwake a).threads t).state = .runnable := by
    intro t inside
    exact (states t).trans (if_pos inside)
  have runq' : (s.rrschedwake a).runq = s.runq ++ s.waiting a := runq
  have current' : (s.rrschedwake a).current = s.current := current
  constructor
  · intro t here
    by_cases inside : t ∈ s.waiting a
    · exact woken t inside
    · rw [same t inside]
      rw [runq', current', List.mem_append] at here
      apply orderly.ready t
      rcases here with (inRunq | waits) | running
      · exact .inl inRunq
      · exact absurd waits inside
      · exact .inr running
  · intro b t mem
    rw [rrschedwake_waiting] at mem
    by_cases here : b = a
    · rw [if_pos here] at mem
      cases mem
    · rw [if_neg here] at mem
      have outside : t ∉ s.waiting a := fun inside => here (orderly.waits_once mem inside)
      rw [same t outside, rrschedwake_call]
      exact orderly.waits b t mem
  · rw [runq', current', ← List.append_assoc, List.nodup_append]
    refine ⟨orderly.once, orderly.waitsOnce a, ?_⟩
    intro t here u waits
    rintro rfl
    apply orderly.waits_not_ready waits
    rcases List.mem_append.mp here with running | inRunq
    · exact .inr (Option.mem_toList.mp running)
    · exact .inl inRunq
  · intro b
    rw [rrschedwake_waiting]
    split
    · exact List.nodup_nil
    · exact orderly.waitsOnce b
  · intro t here
    apply orderly.known t
    rw [runq', current', List.mem_append] at here
    rcases here with ((inRunq | waits) | running) | ⟨b, waits⟩
    · exact .inl (.inl inRunq)
    · exact .inr ⟨a, waits⟩
    · exact .inl (.inr running)
    · rw [rrschedwake_waiting] at waits
      split at waits
      · cases waits
      · exact .inr ⟨b, waits⟩
  · intro t mem
    by_cases inside : t ∈ s.waiting a
    · rw [runq', List.mem_append]
      exact .inr (.inl (.inl (.inr inside)))
    · rcases orderly.placed t mem with exited | ready | ⟨b, waits⟩
      · rw [same t inside]
        exact .inl exited
      · rw [runq', current', List.mem_append]
        exact .inr (.inl (ready.imp_left .inl))
      · refine .inr (.inr ⟨b, ?_⟩)
        rw [rrschedwake_waiting, if_neg]
        · exact waits
        · rintro rfl
          exact inside waits

/-- `rrschedblock` moves the thread on the core to the wait queue of its call. -/
theorem Orderly.block (orderly : s.Orderly added) (current : s.current = some t) (call : PipeCall)
    (pending : call.Pending) : (s.rrschedblock t call.queue call).Orderly added := by
  have queues : ∀ a, (s.rrschedblock t call.queue call).waiting a =
      if a = call.queue then queueEnqueue (s.waiting call.queue) t else s.waiting a := by
    intro a
    rw [rrschedblock, waiting_congr (threadExit_pipes _ _), waiting_setWaiting]
    rfl
  have here : (s.rrschedblock t call.queue call).threads t = { state := .blocked, call := some call } := by
    simp [rrschedblock, RRSched.setThread]
  have others : ∀ u, u ≠ t → (s.rrschedblock t call.queue call).threads u = s.threads u := by
    intro u other
    simp [rrschedblock, RRSched.setThread, other]
  have runq : (s.rrschedblock t call.queue call).runq = s.runq := by
    simp [rrschedblock, RRSched.threadExit, RRSched.setThread]
  have idle : (s.rrschedblock t call.queue call).current = none := rfl
  have fresh : ∀ a, t ∉ s.waiting a := fun a waits => orderly.waits_not_ready waits (.inr current)
  constructor
  · intro u ready
    rw [runq, idle] at ready
    rcases ready with inRunq | running
    · have other : u ≠ t := by
        rintro rfl
        exact orderly.current_not_queued current inRunq
      rw [others u other]
      exact orderly.ready u (.inl inRunq)
    · cases running
  · intro a u mem
    rw [queues] at mem
    by_cases same : u = t
    · subst same
      rw [here]
      refine ⟨rfl, call, rfl, ?_, pending⟩
      by_cases its : a = call.queue
      · exact its.symm
      · rw [if_neg its] at mem
        exact absurd mem (fresh a)
    · rw [others u same]
      split at mem
      · rename_i its
        rw [mem_queueEnqueue] at mem
        exact orderly.waits a u (its ▸ mem.resolve_right same)
      · exact orderly.waits a u mem
  · rw [idle, runq, Option.toList_none, List.nil_append]
    exact (List.nodup_append.mp orderly.once).2.1
  · intro a
    rw [queues]
    split
    · rw [queueEnqueue, List.nodup_append]
      refine ⟨orderly.waitsOnce _, List.nodup_singleton t, ?_⟩
      intro u waits v mem
      rw [List.mem_singleton] at mem
      rintro rfl
      exact fresh _ (mem ▸ waits)
    · exact orderly.waitsOnce a
  · intro u here
    apply orderly.known u
    rw [runq, idle] at here
    rcases here with (inRunq | running) | ⟨a, waits⟩
    · exact .inl (.inl inRunq)
    · cases running
    · rw [queues] at waits
      split at waits
      · rw [mem_queueEnqueue] at waits
        rcases waits with waits | rfl
        · exact .inr ⟨_, waits⟩
        · exact .inl (.inr current)
      · exact .inr ⟨a, waits⟩
  · intro u mem
    by_cases same : u = t
    · subst same
      refine .inr (.inr ⟨call.queue, ?_⟩)
      rw [queues, if_pos rfl]
      exact mem_queueEnqueue.mpr (.inr rfl)
    · rw [others u same]
      rcases orderly.placed u mem with exited | ready | ⟨a, waits⟩
      · exact .inl exited
      · rw [runq]
        refine .inr (.inl (.inl ?_))
        rcases ready with inRunq | running
        · exact inRunq
        · rw [current, Option.some.injEq] at running
          exact absurd running.symm same
      · refine .inr (.inr ⟨a, ?_⟩)
        rw [queues]
        split
        · rename_i its
          exact mem_queueEnqueue.mpr (.inl (its ▸ waits))
        · exact waits

/-- The thread on the core goes to the end of the run queue. -/
theorem Orderly.yield (orderly : s.Orderly added) (current : s.current = some t) :
    (s.threadExit t).Orderly added := by
  have runnable := orderly.ready t (.inr current)
  have runq : (s.threadExit t).runq = queueEnqueue s.runq t := if_pos runnable
  have idle : (s.threadExit t).current = none := rfl
  have moved : ∀ u, u ∈ (s.threadExit t).runq ∨ (s.threadExit t).current = some u ↔
      u ∈ s.runq ∨ s.current = some u := by
    intro u
    rw [runq, idle, mem_queueEnqueue, current, Option.some.injEq]
    constructor
    · rintro ((inRunq | rfl) | running)
      · exact .inl inRunq
      · exact .inr rfl
      · cases running
    · rintro (inRunq | rfl)
      · exact .inl (.inl inRunq)
      · exact .inl (.inr rfl)
  constructor
  · intro u ready
    exact orderly.ready u ((moved u).mp ready)
  · exact orderly.waits
  · rw [idle, runq, Option.toList_none, List.nil_append, queueEnqueue]
    have once := orderly.once
    rw [current, Option.toList_some, List.singleton_append, List.nodup_cons] at once
    exact List.nodup_append.mpr ⟨once.2, List.nodup_singleton t, fun u mem v single same =>
      once.1 (List.mem_singleton.mp single ▸ same ▸ mem)⟩
  · exact orderly.waitsOnce
  · intro u here
    exact orderly.known u (here.imp_left (moved u).mp)
  · intro u mem
    rcases orderly.placed u mem with exited | ready | waits
    · exact .inl exited
    · exact .inr (.inl ((moved u).mpr ready))
    · exact .inr (.inr waits)

/-- The thread on the core exits. -/
theorem Orderly.exit (orderly : s.Orderly added) (current : s.current = some t) :
    ((s.setThread t { state := .exited, call := none }).threadExit t).Orderly added := by
  have here : (s.setThread t { state := .exited, call := none }).threads t =
      { state := .exited, call := none } := by
    simp [RRSched.setThread]
  have others : ∀ u, u ≠ t →
      (s.setThread t { state := .exited, call := none }).threads u = s.threads u := by
    intro u other
    simp [RRSched.setThread, other]
  have runq : ((s.setThread t { state := .exited, call := none }).threadExit t).runq = s.runq := by
    simp [RRSched.threadExit, RRSched.setThread]
  have idle : ((s.setThread t { state := .exited, call := none }).threadExit t).current = none := rfl
  constructor
  · intro u ready
    rw [runq, idle] at ready
    rcases ready with inRunq | running
    · have other : u ≠ t := by
        rintro rfl
        exact orderly.current_not_queued current inRunq
      rw [threadExit_threads, others u other]
      exact orderly.ready u (.inl inRunq)
    · cases running
  · intro a u mem
    have other : u ≠ t := by
      rintro rfl
      exact orderly.waits_not_ready (a := a) mem (.inr current)
    rw [threadExit_threads, others u other]
    exact orderly.waits a u mem
  · rw [idle, runq, Option.toList_none, List.nil_append]
    exact (List.nodup_append.mp orderly.once).2.1
  · exact orderly.waitsOnce
  · intro u here
    apply orderly.known u
    rw [runq, idle] at here
    rcases here with (inRunq | running) | waits
    · exact .inl (.inl inRunq)
    · cases running
    · exact .inr waits
  · intro u mem
    rw [threadExit_threads, runq]
    by_cases same : u = t
    · subst same
      rw [here]
      exact .inl rfl
    · rw [others u same]
      rcases orderly.placed u mem with exited | ready | waits
      · exact .inl exited
      · refine .inr (.inl (.inl ?_))
        rcases ready with inRunq | running
        · exact inRunq
        · rw [current, Option.some.injEq] at running
          exact absurd running.symm same
      · exact .inr (.inr waits)

/-- The loop runs the thread at the head of the run queue. -/
theorem Orderly.pick {rest : Queue} (orderly : s.Orderly added) (idle : s.current = none)
    (head : s.runq = t :: rest) : ({ s with runq := rest, current := some t } : RRSched).Orderly added := by
  have moved : ∀ u, u ∈ rest ∨ some t = some u ↔ u ∈ s.runq ∨ s.current = some u := by
    intro u
    rw [head, idle, List.mem_cons, Option.some.injEq]
    constructor
    · rintro (inRest | rfl)
      · exact .inl (.inr inRest)
      · exact .inl (.inl rfl)
    · rintro ((rfl | inRest) | running)
      · exact .inr rfl
      · exact .inl inRest
      · cases running
  constructor
  · intro u ready
    exact orderly.ready u ((moved u).mp ready)
  · exact orderly.waits
  · have once := orderly.once
    rw [idle, head, Option.toList_none, List.nil_append] at once
    exact once
  · exact orderly.waitsOnce
  · intro u here
    exact orderly.known u (here.imp_left (moved u).mp)
  · intro u mem
    rcases orderly.placed u mem with exited | ready | waits
    · exact .inl exited
    · exact .inr (.inl ((moved u).mpr ready))
    · exact .inr (.inr waits)

/-- The thread on the core goes on behind `rrschedblock`. -/
theorem Orderly.resume (orderly : s.Orderly added) (current : s.current = some t) :
    (s.setThread t { s.threads t with call := none }).Orderly added := by
  have state : ∀ u, ((s.setThread t { s.threads t with call := none }).threads u).state =
      (s.threads u).state := by
    intro u
    by_cases same : u = t
    · subst same
      simp [RRSched.setThread]
    · simp [RRSched.setThread, same]
  constructor
  · intro u ready
    rw [state]
    exact orderly.ready u ready
  · intro a u mem
    have other : u ≠ t := by
      rintro rfl
      exact orderly.waits_not_ready (a := a) mem (.inr current)
    have same : (s.setThread t { s.threads t with call := none }).threads u = s.threads u := by
      simp [RRSched.setThread, other]
    rw [same]
    exact orderly.waits a u mem
  · exact orderly.once
  · exact orderly.waitsOnce
  · exact orderly.known
  · intro u mem
    rw [state]
    exact orderly.placed u mem

end RRSched

/-! ## Pipe calls -/

theorem pipeRead_orderly (orderly : s.Orderly added) (current : s.current = some t)
    (result : pipeRead s t p buf n = some (s', obs)) : s'.Orderly added := by
  rcases pipeRead_cases result with ⟨_, _, _, rfl⟩ | ⟨_, pipe, copies, looped, _, rfl⟩
  · exact orderly.block current (.read p buf n) trivial
  · have advanced := pipeReadCopy_pipe (by bv_omega) looped
    apply (orderly.setPipe _ _).wake
    · rw [advanced]
      rfl
    · rw [advanced]
      rfl

theorem pipeWrite_orderly (orderly : s.Orderly added) (current : s.current = some t)
    (result : pipeWrite s t p buf n src written = some (s', obs)) : s'.Orderly added := by
  revert orderly current
  apply pipeWrite_induct (motive := fun s _ s' _ => s.Orderly added → s.current = some t →
    s'.Orderly added) _ _ _ _ result
  · intro s _ _ orderly _
    exact orderly
  · intro s written more _ _ orderly current
    apply (orderly.wake (.readq p)).block _ (.write p buf n written) more
    rwa [rrschedwake_current]
  · intro s written s' pipe bytes rest _ _ _ _ copied ih orderly current
    obtain ⟨data, _, _, rfl⟩ := Pipe.copyIn_eq_some copied
    exact ih (orderly.setPipe rfl rfl) current
  · intro s _ orderly _
    exact orderly.wake _

theorem pipeClose_orderly (orderly : s.Orderly added) (isRead : Bool) :
    (pipeClose s p isRead).Orderly added := by
  have closed : (s.setPipe p ((s.pipes p).closeEnd isRead)).Orderly added := orderly.setPipe rfl rfl
  have woken := closed.wake (.ofClosed p isRead)
  rw [pipeClose]
  split
  · exact woken.setPipe rfl rfl
  · exact woken

/-! ## Runs -/

/-- A step leaves every thread in one place. -/
theorem RRSched.Orderly.step {event : PipeEvent} (orderly : s.Orderly added)
    (stepped : RRSched.step s event = some (s', obs)) : s'.Orderly added := by
  cases event with
  | pick =>
      simp only [RRSched.step] at stepped
      split at stepped
      · rename_i idle dequeued
        simp only [Option.some.injEq, Prod.mk.injEq] at stepped
        obtain ⟨rfl, -⟩ := stepped
        exact orderly.pick idle (queueDequeue_eq_some_iff.mp dequeued)
      · contradiction
  | read p buf n =>
      simp only [RRSched.step, Option.bind_eq_bind, Option.bind_eq_some_iff] at stepped
      obtain ⟨t, user, called⟩ := stepped
      exact pipeRead_orderly orderly (userThread_eq_some user).1 called
  | write p buf n src =>
      simp only [RRSched.step, Option.bind_eq_bind, Option.bind_eq_some_iff] at stepped
      obtain ⟨t, user, called⟩ := stepped
      exact pipeWrite_orderly orderly (userThread_eq_some user).1 called
  | close p isRead =>
      simp only [RRSched.step, Option.bind_eq_bind, Option.bind_eq_some_iff] at stepped
      obtain ⟨t, -, closed⟩ := stepped
      split at closed
      · simp only [Option.some.injEq, Prod.mk.injEq] at closed
        obtain ⟨rfl, -⟩ := closed
        exact pipeClose_orderly orderly isRead
      · contradiction
  | resume src =>
      simp only [RRSched.step, Option.bind_eq_bind, Option.bind_eq_some_iff] at stepped
      obtain ⟨t, current, call, -, called⟩ := stepped
      have goesOn := orderly.resume current
      cases call with
      | read p buf n => exact pipeRead_orderly goesOn current called
      | write p buf n written => exact pipeWrite_orderly goesOn current called
  | yield =>
      simp only [RRSched.step, Option.bind_eq_bind, Option.bind_eq_some_iff, Option.some.injEq,
        Prod.mk.injEq] at stepped
      obtain ⟨t, user, rfl, -⟩ := stepped
      exact orderly.yield (userThread_eq_some user).1
  | exit =>
      simp only [RRSched.step, Option.bind_eq_bind, Option.bind_eq_some_iff, Option.some.injEq,
        Prod.mk.injEq] at stepped
      obtain ⟨t, user, rfl, -⟩ := stepped
      exact orderly.exit (userThread_eq_some user).1

theorem RRSched.initial_orderly {data : PipeId → Nat → Byte} (distinct : added.Nodup) :
    (initial added data).Orderly added := by
  constructor
  · intro t _
    rfl
  · intro a t mem
    cases a <;> cases mem
  · exact distinct
  · intro a
    cases a <;> exact List.nodup_nil
  · rintro t ((inRunq | running) | ⟨a, waits⟩)
    · exact inRunq
    · cases running
    · cases a <;> cases waits
  · intro t mem
    exact .inr (.inl (.inl mem))

theorem RRSched.run_orderly {data : PipeId → Nat → Byte} {trace : List PipeObs}
    {ok : RRSched → PipeEvent → Prop} (distinct : added.Nodup)
    (run : Run RRSched.step ok (initial added data) trace s) : s.Orderly added :=
  run.stateInvariant (fun s => s.Orderly added) (initial_orderly distinct)
    fun orderly _ stepped => orderly.step stepped

theorem RRSched.run_settled {data : PipeId → Nat → Byte} {trace : List PipeObs}
    {ok : RRSched → PipeEvent → Prop} (run : Run RRSched.step ok (initial added data) trace s) : s.Settled :=
  run.stateInvariant RRSched.Settled (initial_settled added data)
    fun settled _ stepped => settled.step stepped

/-! ## The end of the loop -/

/-- A thread waits in a pipe call that cannot go on: for bytes of an empty pipe that somebody may still
write to, or for room in a full one that somebody may still read from. -/
def RRSched.Stuck (s : RRSched) (t : Tid) : Prop :=
  match (s.threads t).call with
  | some (.read p _ _) =>
      t ∈ (s.pipes p).readq ∧ (s.pipes p).nread = (s.pipes p).nwrite ∧ (s.pipes p).writeopen = true
  | some (.write p _ n written) =>
      t ∈ (s.pipes p).writeq ∧ written < n ∧ (s.pipes p).nwrite - (s.pipes p).nread = PIPESZ ∧
        (s.pipes p).readopen = true
  | none => False

/-- Whoever is in a wait queue is stuck there. -/
theorem RRSched.Orderly.stuck_of_waits (orderly : s.Orderly added) (settled : s.Settled)
    (waits : t ∈ s.waiting a) : s.Stuck t := by
  obtain ⟨-, call, suspended, rfl, pending⟩ := orderly.waits a t waits
  rw [Stuck, suspended]
  cases call with
  | read p buf n => exact ⟨waits, (settled p).readers (List.ne_nil_of_mem waits)⟩
  | write p buf n written => exact ⟨waits, pending, (settled p).writers (List.ne_nil_of_mem waits)⟩

theorem RRSched.Stuck.waits (stuck : s.Stuck t) : ∃ a, t ∈ s.waiting a := by
  rw [Stuck] at stuck
  split at stuck
  · exact ⟨.readq _, stuck.1⟩
  · exact ⟨.writeq _, stuck.1⟩
  · exact stuck.elim

/-- The loop of `rrschedstart` finds its queue empty exactly when every thread has exited or is stuck
in a pipe call. -/
theorem RRSched.loop_ends_iff {data : PipeId → Nat → Byte} {trace : List PipeObs} (distinct : added.Nodup)
    (run : Run RRSched.step (Always _ _) (initial added data) trace s) (idle : s.current = none) :
    s.runq = [] ↔ ∀ t ∈ added, (s.threads t).state = .exited ∨ s.Stuck t := by
  have orderly := run_orderly distinct run
  constructor
  · intro empty t mem
    rcases orderly.placed t mem with exited | ready | ⟨a, waits⟩
    · exact .inl exited
    · rw [empty, idle] at ready
      rcases ready with inRunq | running
      · cases inRunq
      · cases running
    · exact .inr (orderly.stuck_of_waits (run_settled run) waits)
  · intro all
    by_contra some_
    obtain ⟨t, inRunq⟩ := List.exists_mem_of_ne_nil _ some_
    rcases all t (orderly.known t (.inl (.inl inRunq))) with exited | stuck
    · rw [orderly.ready t (.inl inRunq)] at exited
      cases exited
    · obtain ⟨a, waits⟩ := stuck.waits
      exact orderly.waits_not_ready waits (.inl inRunq)

/-- Two threads that read different new pipes are stuck when the loop ends. -/
theorem RRSched.loop_ends_stuck :
    ∃ trace s, Run RRSched.step (Always _ _) (initial [1, 2] fun _ _ => 0) trace s ∧
      s.current = none ∧ ∀ t ∈ [1, 2], (s.threads t).state = .exited ∨ s.Stuck t := by
  have run := run_of_exec (rfl : exec RRSched.step (initial [1, 2] fun _ _ => 0)
    [.pick, .read 0 64 5, .pick, .read 1 64 5] = some (_, _))
  exact ⟨_, _, run, rfl, (loop_ends_iff (by decide) run rfl).mp rfl⟩

/-! ## Waiting for the core -/

/-- The loop runs a thread. -/
def PipeEvent.isPick : PipeEvent → Bool
  | .pick => true
  | _ => false

theorem RRSched.rrschedwake_runq : (s.rrschedwake a).runq = s.runq ++ s.waiting a := by
  rw [rrschedwake, (wakeAll_spec _ _).2.1, setWaiting_runq]

theorem RRSched.rrschedblock_runq : (s.rrschedblock t a call).runq = s.runq := by
  simp [rrschedblock, RRSched.threadExit, RRSched.setThread]

theorem pipeRead_runq (result : pipeRead s t p buf n = some (s', obs)) : s.runq <+: s'.runq := by
  rcases pipeRead_cases result with ⟨_, _, _, rfl⟩ | ⟨_, pipe, copies, _, _, rfl⟩
  · rw [rrschedblock_runq]
  · rw [rrschedwake_runq, setPipe_runq]
    exact List.prefix_append _ _

theorem pipeWrite_runq (result : pipeWrite s t p buf n src written = some (s', obs)) :
    s.runq <+: s'.runq := by
  apply pipeWrite_induct (motive := fun s _ s' _ => s.runq <+: s'.runq) _ _ _ _ result
  · intro s _ _
    exact List.prefix_rfl
  · intro s _ _ _ _
    rw [rrschedblock_runq, rrschedwake_runq]
    exact List.prefix_append _ _
  · intro s _ s' pipe _ _ _ _ _ _ _ ih
    exact ih
  · intro s _
    rw [rrschedwake_runq]
    exact List.prefix_append _ _

theorem pipeClose_runq (isRead : Bool) : s.runq <+: (pipeClose s p isRead).runq := by
  rw [pipeClose]
  split
  · rw [setPipe_runq, rrschedwake_runq, setPipe_runq]
    exact List.prefix_append _ _
  · rw [rrschedwake_runq, setPipe_runq]
    exact List.prefix_append _ _

/-- Nobody but the loop takes a thread out of the run queue, and it takes the first one. -/
theorem RRSched.step_runq {event : PipeEvent} (stepped : RRSched.step s event = some (s', obs)) :
    (event.isPick = true ∧ ∃ t, s.runq = t :: s'.runq ∧ s'.current = some t) ∨
      (event.isPick = false ∧ s.runq <+: s'.runq) := by
  cases event with
  | pick =>
      simp only [RRSched.step] at stepped
      split at stepped
      · rename_i t rest idle dequeued
        simp only [Option.some.injEq, Prod.mk.injEq] at stepped
        obtain ⟨rfl, -⟩ := stepped
        exact .inl ⟨rfl, t, queueDequeue_eq_some_iff.mp dequeued, rfl⟩
      · contradiction
  | read p buf n =>
      simp only [RRSched.step, Option.bind_eq_bind, Option.bind_eq_some_iff] at stepped
      obtain ⟨t, -, called⟩ := stepped
      exact .inr ⟨rfl, pipeRead_runq called⟩
  | write p buf n src =>
      simp only [RRSched.step, Option.bind_eq_bind, Option.bind_eq_some_iff] at stepped
      obtain ⟨t, -, called⟩ := stepped
      exact .inr ⟨rfl, pipeWrite_runq called⟩
  | close p isRead =>
      simp only [RRSched.step, Option.bind_eq_bind, Option.bind_eq_some_iff] at stepped
      obtain ⟨t, -, closed⟩ := stepped
      split at closed
      · simp only [Option.some.injEq, Prod.mk.injEq] at closed
        obtain ⟨rfl, -⟩ := closed
        exact .inr ⟨rfl, pipeClose_runq isRead⟩
      · contradiction
  | resume src =>
      simp only [RRSched.step, Option.bind_eq_bind, Option.bind_eq_some_iff] at stepped
      obtain ⟨t, -, call, -, called⟩ := stepped
      refine .inr ⟨rfl, ?_⟩
      change (s.setThread t { s.threads t with call := none }).runq <+: s'.runq
      cases call with
      | read p buf n => exact pipeRead_runq called
      | write p buf n written => exact pipeWrite_runq called
  | yield =>
      simp only [RRSched.step, Option.bind_eq_bind, Option.bind_eq_some_iff, Option.some.injEq,
        Prod.mk.injEq] at stepped
      obtain ⟨t, -, rfl, -⟩ := stepped
      refine .inr ⟨rfl, ?_⟩
      simp only [RRSched.threadExit]
      split
      · exact List.prefix_append _ _
      · exact List.prefix_rfl
  | exit =>
      simp only [RRSched.step, Option.bind_eq_bind, Option.bind_eq_some_iff, Option.some.injEq,
        Prod.mk.injEq] at stepped
      obtain ⟨t, -, rfl, -⟩ := stepped
      refine .inr ⟨rfl, ?_⟩
      simp [RRSched.threadExit, RRSched.setThread]

/-- A thread in the run queue is run when the loop has run those before it. -/
theorem RRSched.reached_of_picks {events : List PipeEvent} {trace : List PipeObs} {before behind : Queue}
    (executed : exec RRSched.step s events = some (s', trace)) (queued : s.runq = before ++ t :: behind)
    (many : before.length < events.countP PipeEvent.isPick) :
    ∃ first rest middle seen, events = first ++ rest ∧
      exec RRSched.step s first = some (middle, seen) ∧ middle.current = some t := by
  induction events generalizing s before behind trace with
  | nil => cases many
  | cons event events ih =>
      simp only [exec, Option.bind_eq_bind, Option.bind_eq_some_iff] at executed
      obtain ⟨⟨next, observed⟩, stepped, ⟨last, later⟩, executed, pair⟩ := executed
      simp only [Option.some.injEq, Prod.mk.injEq] at pair
      obtain ⟨rfl, rfl⟩ := pair
      have further : ∀ before behind, next.runq = before ++ t :: behind →
          before.length < events.countP PipeEvent.isPick →
          ∃ first rest middle seen, event :: events = first ++ rest ∧
            exec RRSched.step s first = some (middle, seen) ∧ middle.current = some t := by
        intro before behind queued many
        obtain ⟨first, rest, middle, seen, rfl, reached, running⟩ := ih executed queued many
        refine ⟨event :: first, rest, middle, observed ++ seen, rfl, ?_, running⟩
        simp only [exec, Option.bind_eq_bind, stepped, Option.bind_some, reached]
      rcases step_runq stepped with ⟨isPick, u, head, running⟩ | ⟨notPick, more, kept⟩
      · rw [queued] at head
        rw [List.countP_cons_of_pos isPick] at many
        cases before with
        | nil =>
            rw [List.nil_append, List.cons.injEq] at head
            refine ⟨[event], events, next, observed ++ [], rfl, ?_, ?_⟩
            · simp only [exec, Option.bind_eq_bind, stepped, Option.bind_some]
            · rw [running, head.1]
        | cons v before =>
            rw [List.cons_append, List.cons.injEq] at head
            exact further before behind head.2.symm (Nat.lt_of_succ_lt_succ many)
      · rw [List.countP_cons_of_neg (by rw [notPick]; exact Bool.false_ne_true)] at many
        apply further before (behind ++ more) _ many
        rw [← kept, queued, List.append_assoc, List.cons_append]

/-- In every run a thread in the run queue is on the core again by the time the loop has run as many
threads as there are. -/
theorem RRSched.run_within_round {data : PipeId → Nat → Byte} {trace seen : List PipeObs}
    {events : List PipeEvent} (distinct : added.Nodup)
    (run : Run RRSched.step (Always _ _) (initial added data) trace s) (queued : t ∈ s.runq)
    (executed : exec RRSched.step s events = some (s', seen))
    (many : added.length ≤ events.countP PipeEvent.isPick) :
    ∃ first rest middle seen, events = first ++ rest ∧
      exec RRSched.step s first = some (middle, seen) ∧ middle.current = some t := by
  have orderly := run_orderly distinct run
  obtain ⟨before, behind, split⟩ := List.append_of_mem queued
  have once : s.runq.Nodup := (List.nodup_append.mp orderly.once).2.1
  have known : s.runq ⊆ added := fun t inRunq => orderly.known t (.inl (.inl inRunq))
  have few := (List.subperm_of_subset once known).length_le
  rw [split, List.length_append, List.length_cons] at few
  apply reached_of_picks executed split
  omega

/-- The second of two threads runs when the first one has yielded. -/
theorem RRSched.run_within_round_second :
    ∃ first rest middle seen, [PipeEvent.pick, .yield, .pick] = first ++ rest ∧
      exec RRSched.step (initial [1, 2] fun _ _ => 0) first = some (middle, seen) ∧
      middle.current = some 2 := by
  have executed : exec RRSched.step (initial [1, 2] fun _ _ => 0) [.pick, .yield, .pick] = some (_, _) := rfl
  exact run_within_round (by decide) .refl (by decide) executed (by decide)

end Lps.Linux

import Lps.Linux.FdEnds
import Lps.Linux.PipeStream
import Lps.Linux.SysConfine

/-!
# Pipes hang up

A pipe is at its end for the other side once no descriptor refers to an end: the flags
follow the descriptors, and closing an end has woken whoever waits for it.
-/

namespace Lps.Linux

open Lps.Core Lps.Transition RRSched FdPipes

variable {s s' : RRSched} {t : Tid} {p q : PipeId} {buf n written : Word} {obs : List PipeObs}
  {src : Nat → Byte}

/-! ## Suspended calls -/

/-- The queue that a suspended call waits in. -/
def PipeCall.queue : PipeCall → WaitQueue
  | .read q _ _ => .readq q
  | .write q _ _ _ => .writeq q

/-- A suspended write has something left to write. -/
def PipeCall.Pending : PipeCall → Prop
  | .read _ _ _ => True
  | .write _ _ n written => written < n

/-- A suspended call waits in its queue, or its thread has been woken. -/
def RRSched.Parked (s : RRSched) : Prop :=
  ∀ t call, (s.threads t).call = some call →
    (t ∈ s.waiting call.queue ∨ Ready s t) ∧ call.Pending

namespace RRSched

theorem userThread_eq_some (user : s.userThread = some t) :
    s.current = some t ∧ (s.threads t).call = none := by
  simpa [userThread, Option.filter_eq_some_iff] using user

@[simp]
theorem setPipe_current (pipe : Pipe) : (s.setPipe p pipe).current = s.current := rfl

@[simp]
theorem setPipe_runq (pipe : Pipe) : (s.setPipe p pipe).runq = s.runq := rfl

/-- What the loop of `rrschedwake` does to the threads. -/
theorem wakeAll_spec (s : RRSched) (queue : Queue) :
    (s.wakeAll queue).current = s.current ∧ (s.wakeAll queue).runq = s.runq ++ queue ∧
      ∀ t, ((s.wakeAll queue).threads t).state =
        if t ∈ queue then .runnable else (s.threads t).state := by
  induction queue generalizing s with
  | nil => simp [wakeAll]
  | cons t rest ih =>
      obtain ⟨current, runq, states⟩ :=
        ih { s.setThread t { s.threads t with state := .runnable } with
          runq := queueEnqueue s.runq t }
      rw [wakeAll]
      refine ⟨current, ?_, ?_⟩
      · exact runq.trans (by simp [queueEnqueue])
      · intro u
        refine (states u).trans ?_
        by_cases same : u = t
        · subst same
          simp [setThread]
        · simp [setThread, same]

theorem waiting_setWaiting (queue : Queue) (a b : WaitQueue) :
    (s.setWaiting queue a).waiting b = if b = a then queue else s.waiting b := by
  cases a <;> cases b <;> simp only [setWaiting, waiting, setPipe_pipes, Function.update_apply] <;>
    split <;> simp_all

@[simp]
theorem setWaiting_current (queue : Queue) (a : WaitQueue) :
    (s.setWaiting queue a).current = s.current := by
  cases a <;> rfl

@[simp]
theorem setWaiting_runq (queue : Queue) (a : WaitQueue) :
    (s.setWaiting queue a).runq = s.runq := by
  cases a <;> rfl

theorem waiting_congr (pipes : s'.pipes = s.pipes) (a : WaitQueue) : s'.waiting a = s.waiting a := by
  cases a <;> simp [waiting, pipes]

@[simp]
theorem rrschedwake_current (a : WaitQueue) : (s.rrschedwake a).current = s.current := by
  rw [rrschedwake, (wakeAll_spec _ _).1, setWaiting_current]

theorem rrschedwake_waiting (a b : WaitQueue) :
    (s.rrschedwake a).waiting b = if b = a then [] else s.waiting b := by
  rw [rrschedwake, waiting_congr (wakeAll_pipes _ _), waiting_setWaiting]

/-- Waking a queue makes those in it ready, and keeps the others ready. -/
theorem ready_rrschedwake {a : WaitQueue} (ready : t ∈ s.waiting a ∨ Ready s t) :
    Ready (s.rrschedwake a) t := by
  obtain ⟨current, runq, states⟩ := wakeAll_spec (s.setWaiting [] a) (s.waiting a)
  rw [rrschedwake, Ready, current, runq, states, setWaiting_threads, setWaiting_current,
    setWaiting_runq, List.mem_append]
  rcases ready with waits | ⟨runnable, queued⟩
  · exact ⟨if_pos waits, .inl (.inr waits)⟩
  · refine ⟨?_, queued.imp_left .inl⟩
    split
    · rfl
    · exact runnable

/-- Waking a queue leaves no suspended call behind. -/
theorem Parked.wake (parked : s.Parked) (a : WaitQueue) : (s.rrschedwake a).Parked := by
  intro t call suspended
  rw [rrschedwake_call] at suspended
  obtain ⟨waits, pending⟩ := parked t call suspended
  refine ⟨?_, pending⟩
  rw [rrschedwake_waiting]
  by_cases same : call.queue = a
  · exact .inr (ready_rrschedwake (same ▸ waits))
  · rw [if_neg same]
    exact waits.imp_right fun ready => ready_rrschedwake (.inr ready)

/-- Suspended calls do not depend on the contents of a pipe. -/
theorem Parked.setPipe {pipe : Pipe} (parked : s.Parked) (readq : pipe.readq = (s.pipes p).readq)
    (writeq : pipe.writeq = (s.pipes p).writeq) : (s.setPipe p pipe).Parked := by
  have same : ∀ a, (s.setPipe p pipe).waiting a = s.waiting a := by
    intro a
    cases a with
    | readq q => by_cases here : q = p <;> simp_all [waiting]
    | writeq q => by_cases here : q = p <;> simp_all [waiting]
  intro t call suspended
  rw [same]
  exact parked t call suspended

/-- A thread in user mode gives up the core. -/
theorem Parked.threadExit (parked : s.Parked) (current : s.current = some t)
    (user : (s.threads t).call = none) : (s.threadExit t).Parked := by
  intro u call suspended
  obtain ⟨waits, pending⟩ := parked u call suspended
  refine ⟨?_, pending⟩
  rcases waits with waits | ⟨runnable, queued⟩
  · exact .inl waits
  · right
    refine ⟨runnable, .inl ?_⟩
    have inRunq : u ∈ s.runq := by
      rcases queued with inRunq | running
      · exact inRunq
      · rw [current, Option.some.injEq] at running
        subst running
        rw [threadExit_threads, user] at suspended
        cases suspended
    simp only [RRSched.threadExit]
    split
    · exact mem_queueEnqueue.mpr (.inl inRunq)
    · exact inRunq

/-- A thread is added to the run queue. -/
theorem Parked.add (parked : s.Parked) (t : Tid) :
    ({ s with runq := queueEnqueue s.runq t } : RRSched).Parked := by
  intro u call suspended
  obtain ⟨waits, pending⟩ := parked u call suspended
  refine ⟨waits.imp_right fun ready => ⟨ready.1, ready.2.imp_left fun inRunq => ?_⟩, pending⟩
  exact mem_queueEnqueue.mpr (.inl inRunq)

/-- The scheduler loop runs the next thread. -/
theorem Parked.pick {rest : Queue} (parked : s.Parked) (idle : s.current = none)
    (dequeued : queueDequeue s.runq = some (t, rest)) :
    ({ s with runq := rest, current := some t } : RRSched).Parked := by
  rw [queueDequeue_eq_some_iff] at dequeued
  intro u call suspended
  obtain ⟨waits, pending⟩ := parked u call suspended
  refine ⟨waits.imp_right fun ready => ⟨ready.1, ?_⟩, pending⟩
  rcases ready.2 with queued | running
  · rw [dequeued, List.mem_cons] at queued
    exact queued.elim (fun same => .inr (same ▸ rfl)) .inl
  · rw [idle] at running
    cases running

/-- A thread in user mode changes its state. -/
theorem Parked.setThread (parked : s.Parked) (state : LPSThreadState) :
    (s.setThread t { state := state, call := none }).Parked := by
  intro u call suspended
  have other : u ≠ t := by
    rintro rfl
    simp [RRSched.setThread] at suspended
  have same : (s.setThread t { state := state, call := none }).threads u = s.threads u := by
    simp [RRSched.setThread, other]
  rw [same] at suspended
  rw [Ready, same]
  exact parked u call suspended

/-- A thread in user mode blocks. -/
theorem Parked.block (parked : s.Parked) (current : s.current = some t)
    (user : (s.threads t).call = none) (call : PipeCall) (pending : call.Pending) :
    (s.rrschedblock t call.queue call).Parked := by
  intro u other suspended
  have queues : ∀ a, (s.rrschedblock t call.queue call).waiting a =
      if a = call.queue then queueEnqueue (s.waiting call.queue) t else s.waiting a := by
    intro a
    rw [rrschedblock, waiting_congr (threadExit_pipes _ _), waiting_setWaiting]
    rfl
  by_cases same : u = t
  · subst same
    rcases rrschedblock_call suspended with ⟨-, rfl⟩ | before
    · refine ⟨.inl ?_, pending⟩
      rw [queues, if_pos rfl]
      exact mem_queueEnqueue.mpr (.inr rfl)
    · rw [user] at before
      cases before
  · rcases rrschedblock_call suspended with ⟨here, -⟩ | before
    · exact absurd here same
    · obtain ⟨waits, otherPending⟩ := parked u other before
      refine ⟨?_, otherPending⟩
      rcases waits with waits | ⟨runnable, queued⟩
      · left
        rw [queues]
        split
        · rename_i here
          exact mem_queueEnqueue.mpr (.inl (here ▸ waits))
        · exact waits
      · right
        have inRunq : u ∈ s.runq := by
          rcases queued with inRunq | running
          · exact inRunq
          · rw [current, Option.some.injEq] at running
            exact absurd running.symm same
        refine ⟨?_, .inl ?_⟩
        · simpa [rrschedblock, RRSched.setThread, same] using runnable
        · simpa [rrschedblock, RRSched.threadExit, RRSched.setThread] using inRunq

end RRSched

/-- `pipe_read` leaves its thread in the queue or the others as they are. -/
theorem pipeRead_parked (parked : s.Parked) (current : s.current = some t)
    (user : (s.threads t).call = none) (result : pipeRead s t p buf n = some (s', obs)) :
    s'.Parked := by
  rcases pipeRead_cases result with ⟨_, _, _, rfl⟩ | ⟨_, pipe, copies, looped, _, rfl⟩
  · exact parked.block current user (.read p buf n) trivial
  · have advanced := pipeReadCopy_pipe (by bv_omega) looped
    refine (parked.setPipe ?_ ?_).wake _ <;> rw [advanced] <;> rfl

/-- `pipe_write` leaves its thread in the queue or the others as they are. -/
theorem pipeWrite_parked (parked : s.Parked) (current : s.current = some t)
    (user : (s.threads t).call = none)
    (result : pipeWrite s t p buf n src written = some (s', obs)) : s'.Parked := by
  revert parked current user
  refine pipeWrite_induct (motive := fun s _ s' _ => s.Parked → s.current = some t →
    (s.threads t).call = none → s'.Parked) ?_ ?_ ?_ ?_ result
  · intro s _ _ parked _ _
    exact parked
  · intro s written more _ _ parked current user
    refine (parked.wake (.readq p)).block ?_ ?_ (.write p buf n written) more
    · rwa [rrschedwake_current]
    · rwa [rrschedwake_call]
  · intro s written s' pipe bytes rest _ _ _ _ copied ih parked current user
    obtain ⟨data, _, _, rfl⟩ := Pipe.copyIn_eq_some copied
    exact ih (parked.setPipe rfl rfl) current user
  · intro s _ parked _ _
    exact parked.wake _

/-- `pipe_close` wakes those whose queue it empties. -/
theorem pipeClose_parked (parked : s.Parked) (isRead : Bool) : (pipeClose s p isRead).Parked := by
  have closed : (s.setPipe p ((s.pipes p).closeEnd isRead)).Parked := parked.setPipe rfl rfl
  have woken := closed.wake (.ofClosed p isRead)
  simp only [pipeClose]
  split
  · exact woken.setPipe rfl rfl
  · exact woken

/-! ## Ends and buffers -/

/-- What `pipe_new` and `pipe_close` set, and nothing else does. -/
def Pipe.flags (pipe : Pipe) : Bool × Bool × Bool :=
  (pipe.allocated, pipe.readopen, pipe.writeopen)

/-- The flags of the pipes are as before. -/
def RRSched.SameFlags (s s' : RRSched) : Prop := ∀ q, (s'.pipes q).flags = (s.pipes q).flags

theorem RRSched.SameFlags.trans {r : RRSched} (first : s.SameFlags r) (second : r.SameFlags s') :
    s.SameFlags s' :=
  fun q => (second q).trans (first q)

/-- Replacing a pipe by one with the same flags. -/
theorem RRSched.SameFlags.of_update {pipe : Pipe} (pipes : s'.pipes = Function.update s.pipes p pipe)
    (same : pipe.flags = (s.pipes p).flags) : s.SameFlags s' := by
  intro q
  rw [pipes]
  by_cases here : q = p
  · subst here
    rwa [Function.update_self]
  · rw [Function.update_of_ne here]

theorem pipeRead_flags (result : pipeRead s t p buf n = some (s', obs)) : s.SameFlags s' := by
  rcases pipeRead_cases result with ⟨_, _, _, rfl⟩ | ⟨_, pipe, copies, looped, _, rfl⟩
  · exact .of_update (rrschedblock_readq_pipes ..) rfl
  · have advanced := pipeReadCopy_pipe (by bv_omega) looped
    have copied : s.SameFlags (s.setPipe p pipe) := by
      refine .of_update (setPipe_pipes ..) ?_
      rw [advanced]
      rfl
    exact copied.trans (.of_update (rrschedwake_writeq_pipes ..) rfl)

theorem pipeWrite_flags (result : pipeWrite s t p buf n src written = some (s', obs)) :
    s.SameFlags s' := by
  have woken : ∀ s : RRSched, s.SameFlags (s.rrschedwake (.readq p)) :=
    fun s => .of_update (rrschedwake_readq_pipes s p) rfl
  refine pipeWrite_induct (motive := fun s _ s' _ => s.SameFlags s') ?_ ?_ ?_ ?_ result
  · exact fun _ _ => rfl
  · intro s _ _ _ _
    exact (woken s).trans (.of_update (rrschedblock_writeq_pipes ..) rfl)
  · intro s written s' pipe bytes rest _ _ _ _ copied ih
    obtain ⟨data, _, _, rfl⟩ := Pipe.copyIn_eq_some copied
    exact .trans (.of_update (setPipe_pipes s p (((s.pipes p).setData _).advanceWrite _)) rfl) ih
  · exact fun {s _} => woken s

/-- A pipe that `pipe_new` may take has both ends closed. -/
def Pipe.Unused (pipe : Pipe) : Prop :=
  pipe.allocated = false → pipe.readopen = false ∧ pipe.writeopen = false

/-- Every pipe that may be taken has both ends closed. -/
def RRSched.Unused (s : RRSched) : Prop := ∀ q, (s.pipes q).Unused

theorem RRSched.Unused.of_update {pipe : Pipe} (unused : s.Unused)
    (pipes : s'.pipes = Function.update s.pipes p pipe) (pipeUnused : pipe.Unused) : s'.Unused := by
  intro q
  rw [pipes]
  by_cases here : q = p
  · subst here
    rwa [Function.update_self]
  · rw [Function.update_of_ne here]
    exact unused q

theorem RRSched.SameFlags.unused (same : s.SameFlags s') (unused : s.Unused) : s'.Unused := by
  intro q
  have flags := same q
  simp only [Pipe.flags, Prod.mk.injEq] at flags
  obtain ⟨allocated, readopen, writeopen⟩ := flags
  rw [Pipe.Unused, allocated, readopen, writeopen]
  exact unused q

/-- `pipe_close` gives a pipe back only when both ends are closed. -/
theorem pipeClose_unused (unused : s.Unused) (isRead : Bool) : (pipeClose s p isRead).Unused := by
  have closing : (s.setPipe p ((s.pipes p).closeEnd isRead)).Unused := by
    refine unused.of_update (setPipe_pipes ..) ?_
    intro isFree
    obtain ⟨readopen, writeopen⟩ := unused p isFree
    simp [readopen, writeopen]
  have woken : ((s.setPipe p ((s.pipes p).closeEnd isRead)).rrschedwake
      (.ofClosed p isRead)).Unused := by
    cases isRead with
    | false => exact closing.of_update (rrschedwake_readq_pipes ..) (closing p)
    | true => exact closing.of_update (rrschedwake_writeq_pipes ..) (closing p)
  simp only [pipeClose]
  split
  · rename_i bothClosed
    refine woken.of_update (setPipe_pipes ..) fun _ => ?_
    simpa using bothClosed
  · exact woken

/-- `pipe_close` closes one end. -/
theorem pipeClose_endOpen (s : RRSched) (p q : PipeId) (isRead b : Bool) :
    (pipeClose s p isRead).endOpen q b =
      if q = p ∧ b = isRead then false else s.endOpen q b := by
  obtain ⟨pipe, pipes, -, -, readopen, writeopen, -⟩ := pipeClose_pipes s p isRead
  rw [endOpen, pipes]
  by_cases same : q = p
  · subst same
    rw [Function.update_self, readopen, writeopen]
    cases isRead <;> cases b <;> simp [endOpen]
  · simp [same, endOpen]

/-! ## New pipes -/

/-- An empty pipe on which nobody waits is settled. -/
theorem Pipe.settled_of_empty {pipe : Pipe} (empty : pipe.nwrite = pipe.nread)
    (readers : pipe.readq = []) (writers : pipe.writeq = []) : pipe.Settled := by
  refine ⟨⟨?_, ?_⟩, ?_⟩
  · simp [Pipe.avail, PIPESZ, empty]
  · exact fun waiting => absurd writers waiting
  · exact fun waiting => absurd readers waiting

namespace RRSched

variable {data : Nat → Byte}

/-- Both ends of a new pipe are open. -/
theorem newPipe_endOpen (s : RRSched) (p q : PipeId) (data : Nat → Byte) (b : Bool) :
    (s.setPipe p (newPipe data)).endOpen q b = if q = p then true else s.endOpen q b := by
  rw [endOpen, setPipe_pipes]
  by_cases same : q = p
  · subst same
    cases b <;> simp [newPipe]
  · simp [same, endOpen]

theorem Settled.newPipe (settled : s.Settled) : (s.setPipe p (newPipe data)).Settled :=
  .of_update (fun q _ => settled q) (Pipe.settled_of_empty rfl rfl rfl) (setPipe_pipes ..)

theorem Buffered.newPipe (buffered : s.Buffered) : (s.setPipe p (newPipe data)).Buffered := by
  intro q b isOpen
  by_cases same : q = p
  · subst same
    simp [RRSched.newPipe]
  · rw [newPipe_endOpen, if_neg same] at isOpen
    simpa [same] using buffered q b isOpen

/-- Nobody waits for a pipe with closed ends. -/
theorem Settled.nobodyWaits (settled : s.Settled) (closed : ∀ b, s.endOpen p b = false) :
    (s.pipes p).readq = [] ∧ (s.pipes p).writeq = [] := by
  constructor
  · by_contra waits
    have isOpen : s.endOpen p false = true := ((settled p).readers waits).2
    rw [closed] at isOpen
    cases isOpen
  · by_contra waits
    have isOpen : s.endOpen p true = true := ((settled p).writers waits).2
    rw [closed] at isOpen
    cases isOpen

/-- A new pipe in the place of one with closed ends leaves no suspended call behind. -/
theorem Parked.newPipe (parked : s.Parked) (settled : s.Settled)
    (closed : ∀ b, s.endOpen p b = false) : (s.setPipe p (newPipe data)).Parked := by
  obtain ⟨readers, writers⟩ := settled.nobodyWaits closed
  exact parked.setPipe readers.symm writers.symm

end RRSched

/-! ## The invariant -/

/-- The tables, files and pipes fit together, and no suspended call is left behind. -/
structure FdPipes.Sound (s : FdPipes) : Prop where
  linked : s.world.Linked s.ends s.sched.endOpen
  settled : s.sched.Settled
  buffered : s.sched.Buffered
  unused : s.sched.Unused
  parked : s.sched.Parked

theorem RRSched.SameEnds.endOpen_eq (same : s.SameEnds s') : s'.endOpen = s.endOpen := by
  funext q isRead
  obtain ⟨readopen, writeopen, -⟩ := same q
  rw [endOpen, endOpen, readopen, writeopen]

/-- `pipe_read` of a pipe that has lost its buffer is defined when nothing is left. -/
theorem pipeRead_isSome_of_empty (empty : (s.pipes p).nread = (s.pipes p).nwrite) :
    (pipeRead s t p buf n).isSome := by
  have nothing : readSize n (s.pipes p).avail = 0 := by
    have sizeLe := readSize_le_avail n (s.pipes p).avail
    simp only [Pipe.avail] at *
    bv_omega
  rw [pipeRead]
  split
  · rfl
  · dsimp only
    rw [nothing, pipeReadCopy]
    rfl

/-- `pipe_write` to a pipe whose read end is closed fails. -/
theorem pipeWrite_closed (closed : (s.pipes p).readopen = false) (more : written < n) :
    pipeWrite s t p buf n src written = some (s, [.returned t (-1)]) := by
  rw [pipeWrite, dif_pos more, if_pos closed]

namespace FdPipes

variable {world : FdPipes} {proc : Tid → ProcId} {box : ProcId → BoxRange}

theorem init_sound : FdPipes.init.Sound where
  linked := FdWorld.Linked.init_linked _
  settled := fun _ => Pipe.settled_of_empty rfl rfl rfl
  buffered := by
    intro q isRead isOpen
    cases isRead <;> cases isOpen
  unused := fun _ _ => ⟨rfl, rfl⟩
  parked := by
    intro t call suspended
    cases suspended

theorem userThread_spec (user : world.userThread proc = some t) :
    world.sched.current = some t ∧ (world.sched.threads t).call = none ∧
      proc t ∈ world.world.procs := by
  simp only [FdPipes.userThread, RRSched.userThread, Option.filter_eq_some_iff,
    List.contains_iff_mem, Option.isNone_iff_eq_none] at user
  exact ⟨user.1.1, user.1.2, user.2⟩

namespace Sound

/-- The tables and files change. -/
theorem withWorld (sound : world.Sound) {next : FdWorld}
    (linked : next.Linked world.ends world.sched.endOpen) :
    ({ world with world := next } : FdPipes).Sound :=
  { sound with linked := linked }

/-- The threads and queues of the scheduler change. -/
theorem withThreads (sound : world.Sound) (pipes : s'.pipes = world.sched.pipes)
    (parked : s'.Parked) : ({ world with sched := s' } : FdPipes).Sound := by
  have ends : s'.endOpen = world.sched.endOpen := by
    funext q isRead
    rw [endOpen, endOpen, pipes]
  refine ⟨?_, ?_, ?_, ?_, parked⟩
  · change world.world.Linked world.ends s'.endOpen
    rw [ends]
    exact sound.linked
  · intro q
    change (s'.pipes q).Settled
    rw [pipes]
    exact sound.settled q
  · intro q isRead isOpen
    change s'.endOpen q isRead = true at isOpen
    change (s'.pipes q).data.isSome
    rw [ends] at isOpen
    rw [pipes]
    exact sound.buffered q isRead isOpen
  · intro q
    change (s'.pipes q).Unused
    rw [pipes]
    exact sound.unused q

/-- `pipe_read` of the thread on the core. -/
theorem read (sound : world.Sound) (current : world.sched.current = some t)
    (user : (world.sched.threads t).call = none)
    (result : pipeRead world.sched t q buf n = some (s', obs)) :
    ({ world with sched := s' } : FdPipes).Sound where
  linked := by
    change world.world.Linked world.ends s'.endOpen
    rw [(pipeRead_sameEnds result).endOpen_eq]
    exact sound.linked
  settled := pipeRead_settled sound.settled result
  buffered := (pipeRead_sameEnds result).buffered sound.buffered
  unused := (pipeRead_flags result).unused sound.unused
  parked := pipeRead_parked sound.parked current user result

/-- `pipe_write` of the thread on the core. -/
theorem write (sound : world.Sound) (current : world.sched.current = some t)
    (user : (world.sched.threads t).call = none)
    (result : pipeWrite world.sched t q buf n src written = some (s', obs)) :
    ({ world with sched := s' } : FdPipes).Sound where
  linked := by
    change world.world.Linked world.ends s'.endOpen
    rw [(pipeWrite_sameEnds result).endOpen_eq]
    exact sound.linked
  settled := pipeWrite_settled sound.settled result
  buffered := (pipeWrite_sameEnds result).buffered sound.buffered
  unused := (pipeWrite_flags result).unused sound.unused
  parked := pipeWrite_parked sound.parked current user result

/-- An end that a descriptor refers to has its buffer. -/
theorem data_of_slot (sound : world.Sound) {f : FileId} {file : OpenFile} {i : Nat} {b : Bool}
    (slot : world.world.table (proc t) i = some f) (isFile : world.world.files f = some file)
    (dev : file.dev = .pipeEnd q b) : (world.sched.pipes q).data.isSome := by
  refine sound.buffered q b ?_
  exact (sound.linked.isOpen (sound.linked.isEnd isFile dev)).mpr ⟨_, i, slot⟩

/-- A transfer that goes through no freed file has a result when the functions of the
files have one. -/
theorem transfer (sound : world.Sound) {fd : Int} {bufp size : Word} {α : Type}
    {op : FDFile → Option α} {call : α → Word → Option (LPSSys × List PipeObs)}
    (present : size ≠ 0 → world.dangles (proc t) fd = false)
    (works : ∀ f i file function buf, world.world.table (proc t) i = some f →
      world.world.files f = some file → op file.dev.ops = some function →
      (call function buf).isSome)
    (keeps : ∀ function buf sys obs, call function buf = some (sys, obs) →
      ({ world with sched := sys.sched } : FdPipes).Sound) :
    ∃ next obs, world.transfer proc t fd size
        (fun sys => sysTransfer proc box sys t fd bufp size op call) = (some next, obs) ∧
      next.Sound := by
  have defined : (sysTransfer proc box world.toLPSSys t fd bufp size op call).isSome := by
    rw [sysTransfer]
    split
    · rfl
    rename_i nonempty
    split
    · rfl
    rename_i ops found
    split
    · rfl
    rename_i function isFunction
    dsimp only
    split
    · rfl
    -- The table of the transfer has the functions of a file on the heap.
    rw [Linux.fdfget] at found
    split at found
    · cases found
    simp only [toLPSSys, Option.bind_eq_bind, Option.bind_eq_some_iff, Option.some.injEq] at found
    obtain ⟨f, slot, file, isFile, rfl⟩ := found
    exact works f _ file function _ slot isFile isFunction
  obtain ⟨⟨sys, obs⟩, result⟩ := Option.isSome_iff_exists.mp defined
  refine ⟨{ world with sched := sys.sched }, obs, ?_, ?_⟩
  · have ready : ¬(size ≠ 0 ∧ world.dangles (proc t) fd = true) := by
      rintro ⟨nonempty, dangling⟩
      rw [present nonempty] at dangling
      cases dangling
    rw [FdPipes.transfer, if_neg ready]
    dsimp only
    rw [result]
    rfl
  · rcases sysTransfer_cases result with ⟨rfl, -⟩ | ⟨-, function, called⟩
    · exact sound
    · exact keeps _ _ _ _ called

end Sound

/-! ## The ends that an exit closes -/

theorem closeEnds_append (s : RRSched) (first second : List FdObs) :
    closeEnds s (first ++ second) = closeEnds (closeEnds s first) second := by
  induction first generalizing s with
  | nil => rfl
  | cons o rest ih =>
      cases o with
      | closed f dev => cases dev <;> exact ih _
      | freed f => exact ih s
      | returned r => exact ih s

/-- What every `pipe_close` keeps holds after an exit has closed its files. -/
theorem closeEnds_induct {motive : RRSched → Prop} {obs : List FdObs}
    (close : ∀ s q isRead, motive s → motive (pipeClose s q isRead)) (held : motive s) :
    motive (closeEnds s obs) := by
  induction obs generalizing s with
  | nil => exact held
  | cons o rest ih =>
      cases o with
      | closed f dev =>
          cases dev with
          | host kfd => exact ih held
          | pipeEnd q isRead => exact ih (close s q isRead held)
      | freed f => exact ih held
      | returned r => exact ih held

@[simp]
theorem pipeClose_current (s : RRSched) (q : PipeId) (isRead : Bool) :
    (pipeClose s q isRead).current = s.current := by
  simp only [pipeClose]
  split <;> simp

/-- An exit closes the files of its process and gives up the core. -/
theorem Sound.sysExit (sound : world.Sound) (current : world.sched.current = some t)
    (careful : ∀ fd < LINUX_NOFILE, ∀ f ∈ world.world.table (proc t) fd,
      (∃ file ∈ world.world.files f, file.path ≠ .wild) ∧
        ∀ fd' < LINUX_NOFILE, world.world.table (proc t) fd' = some f → fd' = fd) :
    ∃ next, world.sysExit proc t = (some next, []) ∧ next.Sound := by
  let exited := world.sched.setThread t { state := .exited, call := none }
  obtain ⟨next, obs, frees, -, linked, -⟩ := @FdWorld.fdfree_keeps world.world [] (proc t)
    (fun trace w => w.Linked world.ends (closeEnds exited trace).endOpen)
    (by
      intro trace w i f file linked slot isFile last
      refine linked.release slot isFile last fun q b => ?_
      rw [closeEnds_append]
      cases dev : file.dev with
      | host kfd => simp [closeEnds]
      | pipeEnd q' b' =>
          simp only [closeEnds, pipeClose_endOpen, FDDev.pipeEnd.injEq]
          congr 1
          simp only [eq_comm])
    sound.linked sound.linked.inRange careful
  rw [List.nil_append] at linked
  have leaves : world.sysExit proc t = (some { world with
      world := next, sched := (closeEnds exited obs).threadExit t }, []) := by
    unfold FdPipes.sysExit
    rw [frees]
  refine ⟨_, leaves, ?_⟩
  have pipes : (closeEnds exited obs).Settled ∧ (closeEnds exited obs).Buffered ∧
      (closeEnds exited obs).Unused ∧ (closeEnds exited obs).Parked ∧
      (closeEnds exited obs).current = some t ∧
      ((closeEnds exited obs).threads t).call = none := by
    refine closeEnds_induct (motive := fun s => s.Settled ∧ s.Buffered ∧ s.Unused ∧ s.Parked ∧
      s.current = some t ∧ (s.threads t).call = none) ?_ ?_
    · rintro s q isRead ⟨settled, buffered, unused, parked, running, user⟩
      exact ⟨pipeClose_settled settled isRead, pipeClose_buffered buffered isRead,
        pipeClose_unused unused isRead, pipeClose_parked parked isRead,
        (pipeClose_current ..).trans running, (pipeClose_call ..).trans user⟩
    · exact ⟨sound.settled, sound.buffered, sound.unused, sound.parked.setThread .exited, current,
        by simp [exited, RRSched.setThread]⟩
  obtain ⟨settled, buffered, unused, parked, running, left⟩ := pipes
  exact ⟨linked, settled, buffered, unused, parked.threadExit running left⟩

/-! ## Steps and runs -/

/-- A new pipe is in use, and takes the place of one that nobody waits for. -/
theorem Sound.lpsPipeNew (sound : world.Sound) {source target : ProcId} {fromfd tofd : Int}
    {data : Nat → Byte} {readJunk writeJunk : Junk} (knownSource : source ∈ world.world.procs)
    (knownTarget : target ∈ world.world.procs)
    (tidy : Tidy proc (some world)
      (.pipeNew source fromfd target tofd data readJunk writeJunk)) :
    ∃ next, world.lpsPipeNew source fromfd target tofd data readJunk writeJunk = some next ∧
      next.Sound := by
  rw [FdPipes.lpsPipeNew]
  cases found : world.unallocated with
  | none => exact ⟨world, rfl, sound⟩
  | some q =>
      obtain ⟨toRange, second⟩ := tidy (by rw [found]; nofun)
      have isFree : (world.sched.pipes q).allocated = false := by
        simpa using List.find?_some found
      obtain ⟨readClosed, writeClosed⟩ := sound.unused q isFree
      have closed : ∀ b, world.sched.endOpen q b = false := by
        intro b
        cases b
        · exact writeClosed
        · exact readClosed
      have unused : ∀ b f, world.ends q b = some f → ¬world.world.Referred f := by
        intro b f isEnd referred
        have isOpen := (sound.linked.isOpen isEnd).mpr referred
        rw [closed] at isOpen
        cases isOpen
      obtain ⟨ok, next, obs, made, -, linked⟩ := @FdWorld.Linked.lpsPipeNew _ _ _ sound.linked
        source target fromfd tofd q readJunk writeJunk toRange second knownSource knownTarget
        unused _ (newPipe_endOpen _ q · data)
      refine ⟨_, by simp only [made]; rfl, ?_⟩
      exact ⟨linked, sound.settled.newPipe, sound.buffered.newPipe,
        sound.unused.of_update (setPipe_pipes ..) nofun, sound.parked.newPipe sound.settled closed⟩

/-- A call on the tables has a result. -/
theorem Sound.goOnWith (sound : world.Sound) {result : Option (Int × FdWorld)}
    {target : Option FdPipes}
    (done : ∃ r next, result = some (r, next) ∧ next.procs = world.world.procs ∧
      next.Linked world.ends world.sched.endOpen)
    (stepped : some (world.goOnWith t result) = some (target, obs)) :
    ∃ next, target = some next ∧ next.Sound := by
  obtain ⟨r, next, rfl, -, linked⟩ := done
  cases stepped
  exact ⟨_, rfl, sound.withWorld linked⟩

/-- A suspended call goes on. -/
theorem Sound.resume (sound : world.Sound) {call : PipeCall}
    (current : world.sched.current = some t) (suspended : (world.sched.threads t).call = some call)
    (tidy : Tidy proc (some world) (.resume src)) :
    ∃ next obs, world.goOn (RRSched.step world.sched (.resume src)) = (some next, obs) ∧
      next.Sound := by
  let going := world.sched.setThread t { world.sched.threads t with call := none }
  have onCore : ({ world with sched := going } : FdPipes).Sound :=
    sound.withThreads rfl (sound.parked.setThread (world.sched.threads t).state)
  have user : (going.threads t).call = none := by simp [going, RRSched.setThread]
  have bounded : ∀ q, (going.pipes q).avail ≤ PIPESZ := fun q => (sound.settled q).bounded
  cases call with
  | read q buf n =>
      have defined : (pipeRead going t q buf n).isSome := by
        cases present : (world.sched.pipes q).data with
        | some data => exact pipeRead_isSome (bounded q) (Option.isSome_iff_exists.mpr ⟨_, present⟩)
        | none => exact pipeRead_isSome_of_empty (tidy t current q (by rw [suspended]; rfl) present)
      obtain ⟨⟨next, obs⟩, result⟩ := Option.isSome_iff_exists.mp defined
      have goes : RRSched.step world.sched (.resume src) = some (next, obs) := by
        simp only [RRSched.step, current, suspended, Option.bind_eq_bind, Option.bind_some]
        exact result
      rw [goes]
      exact ⟨_, obs, rfl, onCore.read current user result⟩
  | write q buf n written =>
      have more : written < n := (sound.parked t _ suspended).2
      have defined : (pipeWrite going t q buf n src written).isSome := by
        cases isOpen : (world.sched.pipes q).readopen with
        | true => exact pipeWrite_isSome (bounded q) (sound.buffered q true isOpen)
        | false => exact Option.isSome_iff_exists.mpr ⟨_, pipeWrite_closed isOpen more⟩
      obtain ⟨⟨next, obs⟩, result⟩ := Option.isSome_iff_exists.mp defined
      have goes : RRSched.step world.sched (.resume src) = some (next, obs) := by
        simp only [RRSched.step, current, suspended, Option.bind_eq_bind, Option.bind_some]
        exact result
      rw [goes]
      exact ⟨_, obs, rfl, onCore.write current user result⟩

/-- `sys_read` through a file on the heap. -/
theorem Sound.sysRead (sound : world.Sound) {fd : Int} {bufp size : Word} {host : HostIO}
    (current : world.sched.current = some t) (user : (world.sched.threads t).call = none)
    (fits : host.Fits size) (present : size ≠ 0 → world.dangles (proc t) fd = false) :
    ∃ next obs, world.transfer proc t fd size
        (fun sys => Linux.sysRead proc box sys t fd bufp size host) = (some next, obs) ∧
      next.Sound := by
  refine sound.transfer present ?_ ?_
  · intro f i file function buf slot isFile isFunction
    cases dev : file.dev with
    | host kfd =>
        rw [dev] at isFunction
        cases isFunction
        cases host with
        | done count => simp [hostTransfer, show count ≤ size from fits]
        | failed value => rfl
    | pipeEnd q b =>
        have data := sound.data_of_slot slot isFile dev
        rw [dev] at isFunction
        cases b with
        | false => cases isFunction
        | true =>
            cases isFunction
            rw [Option.isSome_map]
            exact pipeRead_isSome (sound.settled q).bounded data
  · intro function buf sys obs called
    cases function with
    | kread =>
        simp only [Option.map_eq_some_iff] at called
        obtain ⟨obs, -, pair⟩ := called
        cases pair
        exact sound
    | pipeRead q =>
        simp only [Option.map_eq_some_iff] at called
        obtain ⟨⟨next, obs⟩, result, pair⟩ := called
        cases pair
        exact sound.read current user result

/-- `sys_write` through a file on the heap. -/
theorem Sound.sysWrite (sound : world.Sound) {fd : Int} {bufp size : Word} {host : HostIO}
    (current : world.sched.current = some t) (user : (world.sched.threads t).call = none)
    (fits : host.Fits size) (present : size ≠ 0 → world.dangles (proc t) fd = false) :
    ∃ next obs, world.transfer proc t fd size
        (fun sys => Linux.sysWrite proc box sys t fd bufp size src host) = (some next, obs) ∧
      next.Sound := by
  refine sound.transfer present ?_ ?_
  · intro f i file function buf slot isFile isFunction
    cases dev : file.dev with
    | host kfd =>
        rw [dev] at isFunction
        cases isFunction
        cases host with
        | done count => simp [hostTransfer, show count ≤ size from fits]
        | failed value => rfl
    | pipeEnd q b =>
        have data := sound.data_of_slot slot isFile dev
        rw [dev] at isFunction
        cases b with
        | true => cases isFunction
        | false =>
            cases isFunction
            rw [Option.isSome_map]
            exact pipeWrite_isSome (sound.settled q).bounded data
  · intro function buf sys obs called
    cases function with
    | kwrite =>
        simp only [Option.map_eq_some_iff] at called
        obtain ⟨obs, -, pair⟩ := called
        cases pair
        exact sound
    | pipeWrite q =>
        simp only [Option.map_eq_some_iff] at called
        obtain ⟨⟨next, obs⟩, result, pair⟩ := called
        cases pair
        exact sound.write current user result

/-- One step has a result, and keeps the tables, files and pipes together. -/
theorem Sound.step {event : FdPipeEvent} (sound : world.Sound) (tidy : Tidy proc (some world) event)
    {target : Option FdPipes}
    (stepped : FdPipes.step proc box (some world) event = some (target, obs)) :
    ∃ next, target = some next ∧ next.Sound := by
  cases event with
  | newProc p stdin stdout stderr =>
      simp only [FdPipes.step] at stepped
      split at stepped
      · rename_i fresh
        cases stepped
        exact ⟨_, rfl, sound.withWorld (sound.linked.fdinit fresh.2 stdin stdout stderr)⟩
      · cases stepped
  | pipeNew source fromfd target' tofd data readJunk writeJunk =>
      simp only [FdPipes.step] at stepped
      split at stepped
      · rename_i known
        obtain ⟨next, made, sound'⟩ := sound.lpsPipeNew known.2.1 known.2.2 tidy
        rw [made] at stepped
        cases stepped
        exact ⟨next, rfl, sound'⟩
      · cases stepped
  | add t =>
      simp only [FdPipes.step] at stepped
      split at stepped
      · cases stepped
        have kept : ({ world with sched := { world.sched with
            runq := queueEnqueue world.sched.runq t } } : FdPipes).Sound :=
          sound.withThreads rfl (sound.parked.add t)
        exact ⟨_, rfl, kept.linked, kept.settled, kept.buffered, kept.unused, kept.parked⟩
      · cases stepped
  | pick =>
      simp only [FdPipes.step, Option.map_eq_some_iff] at stepped
      obtain ⟨⟨next, obs⟩, picked, pair⟩ := stepped
      cases pair
      simp only [RRSched.step] at picked
      split at picked
      · rename_i t rest idle dequeued
        cases picked
        exact ⟨_, rfl, sound.withThreads rfl (sound.parked.pick idle dequeued)⟩
      · cases picked
  | resume src =>
      simp only [FdPipes.step, Option.bind_eq_bind, Option.bind_eq_some_iff] at stepped
      obtain ⟨t, current, call, suspended, goes⟩ := stepped
      obtain ⟨next, obs', result, sound'⟩ := sound.resume current suspended tidy
      rw [result] at goes
      cases goes
      exact ⟨next, rfl, sound'⟩
  | yield =>
      simp only [FdPipes.step, Option.bind_eq_bind, Option.bind_eq_some_iff,
        Option.map_eq_some_iff] at stepped
      obtain ⟨t, isUser, ⟨next, obs⟩, yields, pair⟩ := stepped
      cases pair
      obtain ⟨current, user, -⟩ := userThread_spec isUser
      simp only [RRSched.step, RRSched.userThread, current, Option.bind_eq_bind,
        Option.bind_eq_some_iff, Option.filter_eq_some_iff, Option.some.injEq] at yields
      obtain ⟨u, ⟨rfl, -⟩, pair⟩ := yields
      cases pair
      exact ⟨_, rfl, sound.withThreads rfl (sound.parked.threadExit current user)⟩
  | read fd bufp size host =>
      simp only [FdPipes.step, Option.bind_eq_bind, Option.bind_eq_some_iff] at stepped
      obtain ⟨t, isUser, transfers⟩ := stepped
      obtain ⟨current, user, -⟩ := userThread_spec isUser
      split at transfers
      · rename_i fits
        obtain ⟨next, obs', result, sound'⟩ :=
          @Sound.sysRead t world proc box sound fd bufp size host current user fits (tidy t current)
        rw [result] at transfers
        cases transfers
        exact ⟨next, rfl, sound'⟩
      · cases transfers
  | write fd bufp size src host =>
      simp only [FdPipes.step, Option.bind_eq_bind, Option.bind_eq_some_iff] at stepped
      obtain ⟨t, isUser, transfers⟩ := stepped
      obtain ⟨current, user, -⟩ := userThread_spec isUser
      split at transfers
      · rename_i fits
        obtain ⟨next, obs', result, sound'⟩ :=
          @Sound.sysWrite t src world proc box sound fd bufp size host current user fits
            (tidy t current)
        rw [result] at transfers
        cases transfers
        exact ⟨next, rfl, sound'⟩
      · cases transfers
  | openat kfd =>
      simp only [FdPipes.step, Option.bind_eq_bind, Option.bind_eq_some_iff] at stepped
      obtain ⟨t, isUser, calls⟩ := stepped
      obtain ⟨-, -, known⟩ := userThread_spec isUser
      exact sound.goOnWith (sound.linked.sysOpenat known kfd) calls
  | dup oldfd =>
      simp only [FdPipes.step, Option.bind_eq_bind, Option.bind_eq_some_iff] at stepped
      obtain ⟨t, isUser, calls⟩ := stepped
      obtain ⟨current, -, -⟩ := userThread_spec isUser
      exact sound.goOnWith (sound.linked.fdfdup2 (tidy t current)) calls
  | dup3 oldfd newfd flags =>
      simp only [FdPipes.step, Option.bind_eq_bind, Option.bind_eq_some_iff] at stepped
      obtain ⟨t, isUser, calls⟩ := stepped
      obtain ⟨current, -, -⟩ := userThread_spec isUser
      refine sound.goOnWith ?_ calls
      by_cases flagged : flags = 0
      · rw [FdWorld.sysDup3, if_neg (not_not.mpr flagged)]
        exact sound.linked.fdfdup2 (tidy flagged t current)
      · exact ⟨_, _, if_pos flagged, rfl, sound.linked⟩
  | close fd =>
      simp only [FdPipes.step, Option.bind_eq_bind, Option.bind_eq_some_iff] at stepped
      obtain ⟨t, isUser, calls⟩ := stepped
      obtain ⟨current, -, -⟩ := userThread_spec isUser
      obtain ⟨r, next, obs', closes, procs, linked⟩ := sound.linked.sysClose (tidy t current)
      exact sound.goOnWith ⟨r, next, by rw [closes]; rfl, procs, linked⟩ calls
  | exit =>
      simp only [FdPipes.step, Option.bind_eq_bind, Option.bind_eq_some_iff] at stepped
      obtain ⟨t, isUser, exits⟩ := stepped
      obtain ⟨current, -, -⟩ := userThread_spec isUser
      obtain ⟨next, leaves, sound'⟩ := sound.sysExit current (tidy t current)
      rw [leaves] at exits
      cases exits
      exact ⟨next, rfl, sound'⟩

/-- The flags of the ends and the queues are what hanging up needs. -/
theorem Sound.hangsUp (sound : world.Sound) : world.HangsUp := by
  intro q f closed
  have unreferred : ¬world.world.Referred f := by
    rintro ⟨p, i, slot⟩
    exact closed ⟨p, sound.linked.known slot, i, sound.linked.inRange slot, slot⟩
  have endClosed : ∀ b, world.ends q b = some f → world.sched.endOpen q b = false := by
    intro b isEnd
    rw [← Bool.not_eq_true]
    exact fun isOpen => unreferred ((sound.linked.isOpen isEnd).mp isOpen)
  constructor
  · intro isEnd
    have notOpen : (world.sched.pipes q).writeopen = false := endClosed false isEnd
    have ready : ¬((world.sched.pipes q).nread = (world.sched.pipes q).nwrite ∧
        (world.sched.pipes q).writeopen = true) := by
      rintro ⟨-, isOpen⟩
      rw [notOpen] at isOpen
      cases isOpen
    refine ⟨?_, ?_, ?_⟩
    · intro t buf n suspended
      rcases (sound.parked t _ suspended).1 with waits | ready
      · have isOpen := ((sound.settled q).readers (List.ne_nil_of_mem waits)).2
        rw [notOpen] at isOpen
        cases isOpen
      · exact ready
    · intro t buf n s' obs result
      rcases pipeRead_cases result with ⟨_, isOpen, _, _⟩ | ⟨_, pipe, copies, _, rfl, rfl⟩
      · rw [notOpen] at isOpen
        cases isOpen
      · exact ⟨by simp, by simp⟩
    · intro t buf n empty
      have nothing : readSize n (world.sched.pipes q).avail = 0 := by
        have sizeLe := readSize_le_avail n (world.sched.pipes q).avail
        simp only [Pipe.avail] at *
        bv_omega
      refine ⟨(world.sched.setPipe q (world.sched.pipes q)).rrschedwake (.writeq q), by simp, ?_⟩
      rw [pipeRead, if_neg ready]
      dsimp only
      rw [nothing, pipeReadCopy]
      rfl
  · intro isEnd
    have notOpen : (world.sched.pipes q).readopen = false := endClosed true isEnd
    refine ⟨?_, fun t buf n src written more => pipeWrite_closed notOpen more⟩
    intro t buf n written suspended
    obtain ⟨waits, pending⟩ := sound.parked t _ suspended
    refine ⟨?_, pending⟩
    rcases waits with waits | ready
    · have isOpen := ((sound.settled q).writers (List.ne_nil_of_mem waits)).2
      rw [notOpen] at isOpen
      cases isOpen
    · exact ready

/-- In every run of tidy steps each pipe hangs up for the other side once the descriptors
of an end are closed, by close or by exit. -/
theorem pipes_hang_up {proc : Tid → ProcId} {box : ProcId → BoxRange} {trace : List PipeObs}
    {target : Option FdPipes}
    (run : Run (FdPipes.step proc box) (Tidy proc) (some init) trace target) :
    ∃ world, target = some world ∧ world.HangsUp := by
  have sound : ∃ world, target = some world ∧ world.Sound := by
    refine run.stateInvariant (fun target => ∃ world, target = some world ∧ world.Sound)
      ⟨init, rfl, init_sound⟩ ?_
    rintro observed _ next event ⟨world, rfl, sound⟩ tidy stepped
    exact sound.step tidy stepped
  obtain ⟨world, rfl, sound⟩ := sound
  exact ⟨world, rfl, sound.hangsUp⟩

/-- Two processes with a pipe between them: descriptor 3 of each is an end. -/
def pipedPair : List FdPipeEvent :=
  [.newProc 1 10 11 12, .newProc 2 13 14 15,
    .pipeNew 1 3 2 3 (fun _ => 0) ⟨0, .null, true⟩ ⟨0, .null, true⟩, .add 1, .add 2]

/-- The writer exits, and the reader gets what it wrote and then 0. -/
theorem pipes_hang_up_after_exit :
    ∃ trace target, Run (FdPipes.step id adjacentBoxes) (Tidy id) (some init) trace target ∧
      trace = [.access 1 0x11000 3, .copied 0 [7, 7, 7], .returned 1 3, .access 2 0x11000 3,
        .delivered 0 [7, 7, 7], .returned 2 3, .returned 2 0] ∧
      ∃ world, target = some world ∧ world.HangsUp := by
  have seen : (exec (guarded (FdPipes.step id adjacentBoxes) (Tidy id)) (some init)
      (pipedPair ++ [.pick, .write 3 0x11000 3 (fun _ => 7) (.failed 0), .exit,
        .pick, .read 3 0x11000 8 (.failed 0), .read 3 0x11000 8 (.failed 0)])).map Prod.snd =
      some [.access 1 0x11000 3, .copied 0 [7, 7, 7], .returned 1 3, .access 2 0x11000 3,
        .delivered 0 [7, 7, 7], .returned 2 3, .returned 2 0] := by
    decide +kernel
  obtain ⟨⟨target, trace⟩, executed, rfl⟩ := Option.map_eq_some_iff.mp seen
  have run := run_of_exec_guarded executed
  exact ⟨_, target, run, rfl, pipes_hang_up run⟩

/-- The writer closes its descriptor, and the reader waits all the same. -/
theorem closed_pipe_blocks :
    ¬∀ (proc : Tid → ProcId) (box : ProcId → BoxRange) (trace : List PipeObs)
        (target : Option FdPipes),
      Run (FdPipes.step proc box) (Always _ _) (some init) trace target →
        ∃ world, target = some world ∧ world.HangsUp := by
  intro claim
  have seen : (exec (FdPipes.step id adjacentBoxes) (some init)
      (pipedPair ++ [.pick, .close 3, .yield, .pick, .read 3 0x11000 8 (.failed 0)])).map
        (fun (target, _) => target.map fun world =>
          (world.ends 0 false, decide (world.Open 7), world.sched.threads 2)) =
      some (some (some 7, false, ⟨.blocked, some (.read 0 0x11000 8)⟩)) := by
    decide +kernel
  obtain ⟨⟨target, trace⟩, executed, shown⟩ := Option.map_eq_some_iff.mp seen
  obtain ⟨world, rfl, hangsUp⟩ := claim _ _ _ _ (run_of_exec executed)
  simp only [Option.map_some, Option.some.injEq, Prod.mk.injEq, decide_eq_false_iff_not] at shown
  obtain ⟨isEnd, closed, waits⟩ := shown
  have ready := ((hangsUp 0 7 closed).1 isEnd).woken 2 0x11000 8 (by rw [waits])
  rw [Ready, waits] at ready
  cases ready.1

end FdPipes

end Lps.Linux

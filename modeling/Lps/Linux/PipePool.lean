import Lps.Linux.FdPipeRun
import Mathlib.Data.Set.Card

/-!
# The pool of pipes

`pipe_new` takes the first entry of the static array `pipes` that is not allocated, and
`pipe_close` gives an entry back when the second end closes.  Threads that wait on a pipe
keep its address on their kernel stacks, so an entry must not be taken again as long as a
call on it is in progress.
-/

namespace Lps.Linux

open Lps.Transition RRSched

/-- The pool with the objects on the heap.  The ends and the buffer that a `pipe_new`
allocates are named by its number, and `isRead` says which of the ends is meant. -/
structure Pool where
  sched : RRSched
  made : Nat
  /-- `end->pipe` of the ends that have not been freed. -/
  ends : Nat → Bool → Option PipeId
  /-- The buffer that `pipe->data` points to. -/
  data : PipeId → Option Nat
  freed : List Nat
  added : List Tid

/-- What the host, the scheduler loop or the thread on the core does next. -/
inductive PoolEvent
  /-- `rrschedadd`, once for each thread. -/
  | add (t : Tid)
  /-- `pipe_new`; `data` is what is in the buffer. -/
  | pipeNew (data : Nat → Byte)
  | read (k : Nat) (buf n : Word)
  | write (k : Nat) (buf n : Word) (src : Nat → Byte)
  | close (k : Nat) (isRead : Bool)
  | pick
  | resume (src : Nat → Byte)
  | yield
  | exit

/-- The end that a suspended call is on. -/
def PipeCall.pipeEnd : PipeCall → PipeId × Bool
  | .read q _ _ => (q, true)
  | .write q _ _ _ => (q, false)

/-- The threads that may be inside a call on a pipe: they wait in one of its queues, or
have been woken and not gone on yet. -/
def RRSched.callers (s : RRSched) (q : PipeId) : List Tid :=
  (s.pipes q).readq ++ (s.pipes q).writeq ++ s.runq ++ s.current.toList

namespace Pool

/-- Before the first `pipe_new`. -/
def init : Pool where
  sched := FdPipes.init.sched
  made := 0
  ends := fun _ _ => none
  data := fun _ => none
  freed := []
  added := []

/-- The pipe that `pipe_new` takes. -/
def unallocated (s : Pool) : Option PipeId :=
  (List.finRange NPIPE).find? fun q => !(s.sched.pipes q).allocated

/-- `pipe_new` with the memory it needs; it does nothing when all pipes are allocated. -/
def pipeNew (s : Pool) (data : Nat → Byte) : Pool :=
  match s.unallocated with
  | none => s
  | some q =>
      { s with
        sched := s.sched.setPipe q (newPipe data)
        made := s.made + 1
        ends := Function.update s.ends s.made fun _ => some q
        data := Function.update s.data q (some s.made) }

/-- What `pipe_close` leaves of an end and its buffer, where `sched` is what it leaves of
the pipes. -/
def closed (s : Pool) (k : Nat) (isRead : Bool) (q : PipeId) (sched : RRSched) : Pool :=
  let ends := Function.update s.ends k (Function.update (s.ends k) isRead none)
  if !(sched.pipes q).readopen && !(sched.pipes q).writeopen then
    { s with
      sched
      ends
      data := Function.update s.data q none
      freed := (s.data q).toList ++ s.freed }
  else { s with sched, ends }

/-- Go on with what a step of the scheduler leaves. -/
def goOn (s : Pool) (event : PipeEvent) : Option (Pool × List PipeObs) :=
  (s.sched.step event).map fun (sched, obs) => ({ s with sched }, obs)

/-- One step.  Only an end that has not been freed is used or closed. -/
def step : Step Pool PoolEvent PipeObs := fun s event =>
  match event with
  | .add t =>
      if t ∉ s.added then
        let sched := { s.sched with runq := queueEnqueue s.sched.runq t }
        some ({ s with sched, added := t :: s.added }, [])
      else none
  | .pipeNew data =>
      if s.sched.current = none ∨ s.sched.userThread.isSome then some (s.pipeNew data, [])
      else none
  | .read k buf n => do
      let q ← s.ends k true
      s.goOn (.read q buf n)
  | .write k buf n src => do
      let q ← s.ends k false
      s.goOn (.write q buf n src)
  | .close k isRead => do
      let q ← s.ends k isRead
      let (sched, obs) ← s.sched.step (.close q isRead)
      some (s.closed k isRead q sched, obs)
  | .pick => s.goOn .pick
  | .resume src => s.goOn (.resume src)
  | .yield => s.goOn .yield
  | .exit => s.goOn .exit

/-- A thread is inside a call on an end. -/
def InProgress (s : Pool) (q : PipeId) (isRead : Bool) : Prop :=
  ∃ t ∈ s.sched.callers q, ∃ call ∈ (s.sched.threads t).call, call.pipeEnd = (q, isRead)

/-- No end is closed while a call on it is in progress. -/
def Quiet (s : Pool) : PoolEvent → Prop
  | .close k isRead => ∀ q ∈ s.ends k isRead, ¬s.InProgress q isRead
  | _ => True

instance (s : Pool) (q : PipeId) (isRead : Bool) : Decidable (s.InProgress q isRead) :=
  inferInstanceAs (Decidable (∃ t ∈ _, ∃ call ∈ _, _))

instance : ∀ state event, Decidable (Quiet state event)
  | _, .close .. => inferInstanceAs (Decidable (∀ q ∈ _, ¬_))
  | _, .add _ => inferInstanceAs (Decidable True)
  | _, .pipeNew _ => inferInstanceAs (Decidable True)
  | _, .read .. => inferInstanceAs (Decidable True)
  | _, .write .. => inferInstanceAs (Decidable True)
  | _, .pick => inferInstanceAs (Decidable True)
  | _, .resume _ => inferInstanceAs (Decidable True)
  | _, .yield => inferInstanceAs (Decidable True)
  | _, .exit => inferInstanceAs (Decidable True)

/-! ## What should hold -/

/-- Nobody refers to a pipe: no end of it is left, no call on it is suspended, and no
thread waits for it. -/
structure Unreferenced (s : Pool) (q : PipeId) : Prop where
  ends : ∀ k isRead, s.ends k isRead ≠ some q
  calls : ∀ t call, (s.sched.threads t).call = some call → call.pipeEnd.1 ≠ q
  readers : (s.sched.pipes q).readq = []
  writers : (s.sched.pipes q).writeq = []

/-- The entries of the array belong to the ends that are left. -/
structure Owned (s : Pool) : Prop where
  /-- What `pipe_new` would hand out. -/
  taken : ∀ q, s.unallocated = some q → s.Unreferenced q
  /-- The pipe of an end has the buffer that was allocated with the end. -/
  buffer : ∀ k isRead q, s.ends k isRead = some q →
    s.data q = some k ∧ k ∉ s.freed ∧ (s.sched.pipes q).data.isSome
  /-- As many entries are allocated as pipes have an end left. -/
  count : {q | (s.sched.pipes q).allocated = true}.encard =
    {k | ∃ isRead, s.ends k isRead ≠ none}.encard

end Pool

section Calls

variable {s s' : RRSched} {t : Tid} {q : PipeId} {buf n written : Word} {obs : List PipeObs}
  {src : Nat → Byte} {isRead : Bool}

/-! ## The flag of an entry -/

/-- A pipe is allocated as long as one of its ends is open. -/
def Pipe.InUse (pipe : Pipe) : Prop := pipe.allocated = (pipe.readopen || pipe.writeopen)

/-- Every pipe is allocated as long as one of its ends is open. -/
def RRSched.InUse (s : RRSched) : Prop := ∀ q, (s.pipes q).InUse

/-- Every suspended call is on an open end. -/
def RRSched.Ongoing (s : RRSched) : Prop :=
  ∀ t call, (s.threads t).call = some call → s.endOpen call.pipeEnd.1 call.pipeEnd.2 = true

namespace RRSched

theorem InUse.of_update {pipe : Pipe} (inUse : s.InUse)
    (pipes : s'.pipes = Function.update s.pipes q pipe) (pipeInUse : pipe.InUse) : s'.InUse := by
  intro p
  rw [pipes]
  by_cases here : p = q
  · subst here
    rwa [Function.update_self]
  · rw [Function.update_of_ne here]
    exact inUse p

/-- A pipe that `pipe_new` may take has both ends closed. -/
theorem InUse.closed (inUse : s.InUse) (free : (s.pipes q).allocated = false) (isRead : Bool) :
    s.endOpen q isRead = false := by
  have flags := inUse q
  rw [Pipe.InUse, free, eq_comm, Bool.or_eq_false_iff] at flags
  cases isRead
  · exact flags.2
  · exact flags.1

theorem SameFlags.inUse (same : s.SameFlags s') (inUse : s.InUse) : s'.InUse := by
  intro q
  have flags := same q
  simp only [Pipe.flags, Prod.mk.injEq] at flags
  obtain ⟨allocated, readopen, writeopen⟩ := flags
  rw [Pipe.InUse, allocated, readopen, writeopen]
  exact inUse q

theorem SameFlags.endOpen_eq (same : s.SameFlags s') : s'.endOpen = s.endOpen := by
  funext q isRead
  have flags := same q
  simp only [Pipe.flags, Prod.mk.injEq] at flags
  rw [endOpen, endOpen, flags.2.1, flags.2.2]

/-- `pipe_close` gives a pipe back exactly when both ends are closed. -/
theorem InUse.pipeClose (inUse : s.InUse) : (pipeClose s q isRead).InUse := by
  have before := inUse q
  have flags : ∀ p, (((s.setPipe q ((s.pipes q).closeEnd isRead)).rrschedwake
      (.ofClosed q isRead)).pipes p).flags =
        ((s.setPipe q ((s.pipes q).closeEnd isRead)).pipes p).flags := by
    cases isRead with
    | false => exact SameFlags.of_update (rrschedwake_readq_pipes ..) rfl
    | true => exact SameFlags.of_update (rrschedwake_writeq_pipes ..) rfl
  simp only [Pipe.flags, Prod.mk.injEq] at flags
  intro p
  by_cases same : p = q
  · subst same
    obtain ⟨allocated, readopen, writeopen⟩ := flags p
    simp only [setPipe_pipes, Function.update_self, Pipe.closeEnd_allocated,
      Pipe.closeEnd_readopen, Pipe.closeEnd_writeopen] at allocated readopen writeopen
    rw [Linux.pipeClose]
    split
    · rename_i bothClosed
      simp only [Bool.and_eq_true, Bool.not_eq_true'] at bothClosed
      simp [Pipe.InUse, bothClosed]
    · rename_i isOpen
      rw [readopen, writeopen] at isOpen
      rw [Pipe.InUse, allocated, before, readopen, writeopen]
      cases isRead <;> simp_all
  · obtain ⟨pipe, pipes, -⟩ := pipeClose_pipes s q isRead
    rw [pipes, Function.update_of_ne same]
    exact inUse p

/-! ## Calls on open ends -/

/-- The pipes and the threads fit together when only open ends are used. -/
structure Sane (s : RRSched) : Prop where
  settled : s.Settled
  buffered : s.Buffered
  inUse : s.InUse
  parked : s.Parked
  ongoing : s.Ongoing

/-- A thread inside a call is linked in a queue of the pipe, or has been woken. -/
theorem Parked.mem_callers {call : PipeCall} (parked : s.Parked)
    (suspended : (s.threads t).call = some call) : t ∈ s.callers call.pipeEnd.1 := by
  have linked := (parked t call suspended).1
  simp only [callers, List.mem_append, Option.mem_toList]
  rcases linked with waits | ⟨-, queued | running⟩
  · cases call with
    | read q buf n => exact .inl (.inl (.inl waits))
    | write q buf n written => exact .inl (.inl (.inr waits))
  · exact .inl (.inr queued)
  · exact .inr running

namespace Sane

/-- The threads and queues of the scheduler change. -/
theorem withThreads (sane : s.Sane) (pipes : s'.pipes = s.pipes) (parked : s'.Parked)
    (calls : ∀ u call, (s'.threads u).call = some call → (s.threads u).call = some call) :
    s'.Sane := by
  have ends : s'.endOpen = s.endOpen := by
    funext q isRead
    rw [endOpen, endOpen, pipes]
  refine ⟨?_, ?_, ?_, parked, ?_⟩
  · intro q
    rw [pipes]
    exact sane.settled q
  · intro q isRead isOpen
    rw [ends] at isOpen
    rw [pipes]
    exact sane.buffered q isRead isOpen
  · intro q
    rw [pipes]
    exact sane.inUse q
  · intro u call suspended
    rw [ends]
    exact sane.ongoing u call (calls u call suspended)

/-- `pipe_read` of the thread on the core. -/
theorem read (sane : s.Sane) (current : s.current = some t) (user : (s.threads t).call = none)
    (isOpen : s.endOpen q true = true) (result : pipeRead s t q buf n = some (s', obs)) :
    s'.Sane where
  settled := pipeRead_settled sane.settled result
  buffered := (pipeRead_sameEnds result).buffered sane.buffered
  inUse := (pipeRead_flags result).inUse sane.inUse
  parked := pipeRead_parked sane.parked current user result
  ongoing := by
    intro u call suspended
    rw [(pipeRead_flags result).endOpen_eq]
    rcases pipeRead_suspended result suspended with ⟨rfl, rfl⟩ | before
    · exact isOpen
    · exact sane.ongoing u call before

/-- `pipe_write` of the thread on the core. -/
theorem write (sane : s.Sane) (current : s.current = some t) (user : (s.threads t).call = none)
    (isOpen : s.endOpen q false = true)
    (result : pipeWrite s t q buf n src written = some (s', obs)) : s'.Sane where
  settled := pipeWrite_settled sane.settled result
  buffered := (pipeWrite_sameEnds result).buffered sane.buffered
  inUse := (pipeWrite_flags result).inUse sane.inUse
  parked := pipeWrite_parked sane.parked current user result
  ongoing := by
    intro u call suspended
    rw [(pipeWrite_flags result).endOpen_eq]
    rcases pipeWrite_suspended result suspended with ⟨rfl, done, rfl⟩ | before
    · exact isOpen
    · exact sane.ongoing u call before

/-- `pipe_close` of an end that no call is on. -/
theorem close (sane : s.Sane)
    (quiet : ∀ t call, (s.threads t).call = some call → call.pipeEnd ≠ (q, isRead)) :
    (pipeClose s q isRead).Sane where
  settled := pipeClose_settled sane.settled isRead
  buffered := pipeClose_buffered sane.buffered isRead
  inUse := sane.inUse.pipeClose
  parked := pipeClose_parked sane.parked isRead
  ongoing := by
    intro u call suspended
    rw [pipeClose_call] at suspended
    rw [pipeClose_endOpen, if_neg]
    · exact sane.ongoing u call suspended
    · rintro ⟨samePipe, sameEnd⟩
      exact quiet u call suspended (Prod.ext samePipe sameEnd)

/-- `pipe_new` takes a pipe with closed ends, on which no call is suspended. -/
theorem newPipe (sane : s.Sane) (free : (s.pipes q).allocated = false) (data : Nat → Byte) :
    (s.setPipe q (RRSched.newPipe data)).Sane where
  settled := sane.settled.newPipe
  buffered := sane.buffered.newPipe
  inUse := sane.inUse.of_update (setPipe_pipes ..) rfl
  parked := sane.parked.newPipe sane.settled (sane.inUse.closed free)
  ongoing := by
    intro u call suspended
    have isOpen := sane.ongoing u call suspended
    rw [newPipe_endOpen]
    split
    · rfl
    · exact isOpen

/-- A suspended call goes on. -/
theorem resume {call : PipeCall} (sane : s.Sane) (current : s.current = some t)
    (suspended : (s.threads t).call = some call)
    (stepped : RRSched.step s (.resume src) = some (s', obs)) :
    s'.Sane ∧ s'.endOpen = s.endOpen := by
  have onCore : (s.setThread t { s.threads t with call := none }).Sane :=
    sane.withThreads rfl (sane.parked.setThread (s.threads t).state)
      fun u other left => setThread_none_call left
  have user : ((s.setThread t { s.threads t with call := none }).threads t).call = none := by
    simp [RRSched.setThread]
  have isOpen := sane.ongoing t call suspended
  simp only [RRSched.step, current, suspended, Option.bind_eq_bind, Option.bind_some] at stepped
  cases call with
  | read q buf n =>
      have same := (pipeRead_flags stepped).endOpen_eq
      exact ⟨onCore.read current user isOpen stepped, same⟩
  | write q buf n written =>
      have same := (pipeWrite_flags stepped).endOpen_eq
      exact ⟨onCore.write current user isOpen stepped, same⟩

end Sane

/-- New calls are on open ends, and no end is closed. -/
def UsesOpen (s : RRSched) : PipeEvent → Prop
  | .read q _ _ => s.endOpen q true = true
  | .write q _ _ _ => s.endOpen q false = true
  | .close _ _ => False
  | _ => True

/-- One step that uses open ends leaves the ends as they are. -/
theorem Sane.step {event : PipeEvent} (sane : s.Sane) (uses : s.UsesOpen event)
    (stepped : RRSched.step s event = some (s', obs)) : s'.Sane ∧ s'.endOpen = s.endOpen := by
  cases event with
  | pick =>
      simp only [RRSched.step] at stepped
      split at stepped
      · rename_i t rest idle dequeued
        cases stepped
        exact ⟨sane.withThreads rfl (sane.parked.pick idle dequeued) fun _ _ left => left, rfl⟩
      · cases stepped
  | read q buf n =>
      simp only [RRSched.step, Option.bind_eq_bind, Option.bind_eq_some_iff] at stepped
      obtain ⟨t, user, result⟩ := stepped
      obtain ⟨current, user⟩ := userThread_eq_some user
      exact ⟨sane.read current user uses result, (pipeRead_flags result).endOpen_eq⟩
  | write q buf n src =>
      simp only [RRSched.step, Option.bind_eq_bind, Option.bind_eq_some_iff] at stepped
      obtain ⟨t, user, result⟩ := stepped
      obtain ⟨current, user⟩ := userThread_eq_some user
      exact ⟨sane.write current user uses result, (pipeWrite_flags result).endOpen_eq⟩
  | close q isRead => exact uses.elim
  | resume src =>
      have going := stepped
      simp only [RRSched.step, Option.bind_eq_bind, Option.bind_eq_some_iff] at going
      obtain ⟨t, current, call, suspended, -⟩ := going
      exact sane.resume current suspended stepped
  | yield =>
      simp only [RRSched.step, Option.bind_eq_bind, Option.bind_eq_some_iff] at stepped
      obtain ⟨t, user, left⟩ := stepped
      obtain ⟨current, user⟩ := userThread_eq_some user
      cases left
      exact ⟨sane.withThreads rfl (sane.parked.threadExit current user) fun _ _ left => left, rfl⟩
  | exit =>
      simp only [RRSched.step, Option.bind_eq_bind, Option.bind_eq_some_iff] at stepped
      obtain ⟨t, user, left⟩ := stepped
      obtain ⟨current, user⟩ := userThread_eq_some user
      cases left
      have exited : ((s.setThread t { state := .exited, call := none }).threads t).call = none := by
        simp [RRSched.setThread]
      refine ⟨sane.withThreads rfl ?_ ?_, rfl⟩
      · exact (sane.parked.setThread .exited).threadExit current exited
      · exact fun u call left => setThread_none_call left

end RRSched

end Calls

namespace Pool

variable {s s' : Pool} {q : PipeId} {k : Nat} {isRead : Bool} {sched : RRSched}
  {obs : List PipeObs}

/-! ## Ends and buffers -/

/-- The ends on the heap are the open ends of the pipes, each with the buffer that was
allocated with it. -/
structure Tracked (s : Pool) : Prop where
  sane : s.sched.Sane
  isOpen : ∀ q isRead, s.sched.endOpen q isRead = true ↔ ∃ k, s.ends k isRead = some q
  holds : ∀ {k isRead q}, s.ends k isRead = some q → s.data q = some k
  live : ∀ {q k}, s.data q = some k → k < s.made ∧ k ∉ s.freed
  sole : ∀ {q q' k}, s.data q = some k → s.data q' = some k → q = q'
  older : ∀ k ∈ s.freed, k < s.made

theorem init_tracked : init.Tracked where
  sane :=
    { settled := FdPipes.init_sound.settled
      buffered := FdPipes.init_sound.buffered
      inUse := fun _ => rfl
      parked := FdPipes.init_sound.parked
      ongoing := nofun }
  isOpen := by
    intro q isRead
    constructor
    · intro isOpen
      cases isRead <;> cases isOpen
    · rintro ⟨k, isEnd⟩
      cases isEnd
  holds := nofun
  live := nofun
  sole := nofun
  older := nofun

namespace Tracked

/-- The scheduler goes on and leaves the ends of the pipes as they are. -/
theorem withSched (tracked : s.Tracked) (sane : sched.Sane)
    (same : sched.endOpen = s.sched.endOpen) : ({ s with sched } : Pool).Tracked :=
  { tracked with
    sane
    isOpen := by
      intro q isRead
      change sched.endOpen q isRead = true ↔ _
      rw [same]
      exact tracked.isOpen q isRead }

theorem goOn (tracked : s.Tracked) (event : PipeEvent) (uses : s.sched.UsesOpen event)
    (stepped : s.goOn event = some (s', obs)) : s'.Tracked := by
  rw [Pool.goOn, Option.map_eq_some_iff] at stepped
  obtain ⟨⟨sched, obs⟩, went, pair⟩ := stepped
  cases pair
  obtain ⟨sane, same⟩ := tracked.sane.step uses went
  exact tracked.withSched sane same

/-- `pipe_new` takes a pipe to which no end refers. -/
theorem pipeNew (tracked : s.Tracked) (data : Nat → Byte) : (s.pipeNew data).Tracked := by
  rw [Pool.pipeNew]
  cases found : s.unallocated with
  | none => exact tracked
  | some q =>
      have free : (s.sched.pipes q).allocated = false := by
        simpa using List.find?_some found
      have noEnd : ∀ k isRead, s.ends k isRead ≠ some q := by
        intro k isRead isEnd
        have isOpen := (tracked.isOpen q isRead).mpr ⟨k, isEnd⟩
        rw [tracked.sane.inUse.closed free] at isOpen
        cases isOpen
      have unmade : ∀ isRead, s.ends s.made isRead = none := by
        intro isRead
        by_contra isEnd
        obtain ⟨q', isEnd⟩ := Option.ne_none_iff_exists'.mp isEnd
        exact absurd (tracked.live (tracked.holds isEnd)).1 (Nat.lt_irrefl _)
      constructor
      · exact tracked.sane.newPipe free data
      · intro q' isRead
        dsimp only
        rw [newPipe_endOpen]
        by_cases same : q' = q
        · subst same
          refine iff_of_true (if_pos rfl) ⟨s.made, ?_⟩
          rw [Function.update_self]
        · rw [if_neg same, tracked.isOpen]
          constructor
          · rintro ⟨k, isEnd⟩
            refine ⟨k, ?_⟩
            rw [Function.update_of_ne]
            · exact isEnd
            · rintro rfl
              rw [unmade] at isEnd
              cases isEnd
          · rintro ⟨k, isEnd⟩
            by_cases new : k = s.made
            · rw [new, Function.update_self] at isEnd
              exact absurd (Option.some.inj isEnd).symm same
            · rw [Function.update_of_ne new] at isEnd
              exact ⟨k, isEnd⟩
      · intro k isRead q' isEnd
        dsimp only at isEnd ⊢
        by_cases new : k = s.made
        · subst new
          rw [Function.update_self] at isEnd
          cases isEnd
          exact Function.update_self ..
        · rw [Function.update_of_ne new] at isEnd
          rw [Function.update_of_ne]
          · exact tracked.holds isEnd
          · rintro rfl
            exact noEnd k isRead isEnd
      · intro q' k buffer
        dsimp only at buffer ⊢
        by_cases same : q' = q
        · rw [same, Function.update_self] at buffer
          cases buffer
          exact ⟨Nat.lt_succ_self _, fun mem => Nat.lt_irrefl _ (tracked.older _ mem)⟩
        · rw [Function.update_of_ne same] at buffer
          obtain ⟨made, alive⟩ := tracked.live buffer
          exact ⟨Nat.lt_succ_of_lt made, alive⟩
      · intro q₁ q₂ k first second
        dsimp only at first second
        have old : ∀ {p}, s.data p ≠ some s.made :=
          fun buffer => Nat.lt_irrefl _ (tracked.live buffer).1
        rw [Function.update_apply] at first second
        split at first <;> split at second
        · rename_i here there
          exact here.trans there.symm
        · cases first
          exact absurd second old
        · cases second
          exact absurd first old
        · exact tracked.sole first second
      · exact fun k mem => Nat.lt_succ_of_lt (tracked.older k mem)

/-- Two ends of one kind refer to different pipes. -/
theorem ends_inj (tracked : s.Tracked) {k' : Nat} {isRead' : Bool}
    (first : s.ends k isRead = some q) (second : s.ends k' isRead' = some q) : k' = k := by
  have buffer := tracked.holds second
  rw [tracked.holds first] at buffer
  exact (Option.some.inj buffer).symm

/-- `pipe_close` frees the end. -/
theorem closeEnd (tracked : s.Tracked) (isEnd : s.ends k isRead = some q)
    (sane : (pipeClose s.sched q isRead).Sane) :
    ({ s with
      sched := pipeClose s.sched q isRead
      ends := Function.update s.ends k (Function.update (s.ends k) isRead none) } : Pool).Tracked := by
  have ends : ∀ k' b, Function.update s.ends k (Function.update (s.ends k) isRead none) k' b =
      if k' = k ∧ b = isRead then none else s.ends k' b := by
    intro k' b
    by_cases same : k' = k
    · subst same
      rw [Function.update_self, Function.update_apply]
      simp
    · rw [Function.update_of_ne same, if_neg fun both => same both.1]
  have left : ∀ {k' b p}, Function.update s.ends k (Function.update (s.ends k) isRead none) k' b =
      some p → ¬(k' = k ∧ b = isRead) ∧ s.ends k' b = some p := by
    intro k' b p isLeft
    rw [ends] at isLeft
    split at isLeft
    · cases isLeft
    · rename_i other
      exact ⟨other, isLeft⟩
  refine { tracked with sane, isOpen := ?_, holds := ?_ }
  · intro p b
    dsimp only
    rw [pipeClose_endOpen]
    split
    · rename_i this
      obtain ⟨rfl, rfl⟩ := this
      refine iff_of_false Bool.false_ne_true ?_
      rintro ⟨k', isLeft⟩
      obtain ⟨other, before⟩ := left isLeft
      exact other ⟨tracked.ends_inj isEnd before, rfl⟩
    · rename_i other
      rw [tracked.isOpen]
      constructor
      · rintro ⟨k', before⟩
        refine ⟨k', ?_⟩
        rw [ends, if_neg]
        · exact before
        · rintro ⟨rfl, rfl⟩
          rw [isEnd] at before
          exact other ⟨(Option.some.inj before).symm, rfl⟩
      · rintro ⟨k', isLeft⟩
        exact ⟨k', (left isLeft).2⟩
  · intro k' b p isLeft
    exact tracked.holds (left isLeft).2

/-- The buffer of a pipe with closed ends is freed. -/
theorem release (tracked : s.Tracked) (closed : ∀ isRead, s.sched.endOpen q isRead = false) :
    ({ s with
      data := Function.update s.data q none
      freed := (s.data q).toList ++ s.freed } : Pool).Tracked := by
  have kept : ∀ {p k}, Function.update s.data q none p = some k → p ≠ q ∧ s.data p = some k := by
    intro p k buffer
    rw [Function.update_apply] at buffer
    split at buffer
    · cases buffer
    · rename_i other
      exact ⟨other, buffer⟩
  refine { tracked with holds := ?_, live := ?_, sole := ?_, older := ?_ }
  · intro k b p isEnd
    dsimp only at isEnd ⊢
    rw [Function.update_of_ne]
    · exact tracked.holds isEnd
    · rintro rfl
      have isOpen := (tracked.isOpen p b).mpr ⟨k, isEnd⟩
      rw [closed] at isOpen
      cases isOpen
  · intro p k buffer
    obtain ⟨other, before⟩ := kept buffer
    obtain ⟨made, alive⟩ := tracked.live before
    refine ⟨made, ?_⟩
    rw [List.mem_append, Option.mem_toList]
    rintro (this | earlier)
    · exact other (tracked.sole before this)
    · exact alive earlier
  · intro p p' k first second
    exact tracked.sole (kept first).2 (kept second).2
  · intro k mem
    rw [List.mem_append, Option.mem_toList] at mem
    rcases mem with this | earlier
    · exact (tracked.live this).1
    · exact tracked.older k earlier

/-- `pipe_close` of an end that no call is on. -/
theorem close (tracked : s.Tracked) (isEnd : s.ends k isRead = some q)
    (quiet : ¬s.InProgress q isRead) :
    (s.closed k isRead q (pipeClose s.sched q isRead)).Tracked := by
  have sane : (pipeClose s.sched q isRead).Sane := by
    refine tracked.sane.close fun t call suspended here => quiet ?_
    have caller := tracked.sane.parked.mem_callers suspended
    rw [here] at caller
    exact ⟨t, caller, call, suspended, here⟩
  have ended := tracked.closeEnd isEnd sane
  rw [Pool.closed]
  split
  · rename_i bothClosed
    simp only [Bool.and_eq_true, Bool.not_eq_true'] at bothClosed
    refine ended.release ?_
    intro b
    cases b
    · exact bothClosed.2
    · exact bothClosed.1
  · exact ended

/-- One step in which no call is cut short keeps track of ends and buffers. -/
theorem step {event : PoolEvent} (tracked : s.Tracked) (quiet : s.Quiet event)
    (stepped : Pool.step s event = some (s', obs)) : s'.Tracked := by
  cases event with
  | add t =>
      simp only [Pool.step] at stepped
      split at stepped
      · cases stepped
        have sane : ({ s.sched with runq := queueEnqueue s.sched.runq t } : RRSched).Sane :=
          tracked.sane.withThreads rfl (tracked.sane.parked.add t) fun _ _ left => left
        exact { tracked.withSched sane rfl with }
      · cases stepped
  | pipeNew data =>
      simp only [Pool.step] at stepped
      split at stepped
      · cases stepped
        exact tracked.pipeNew data
      · cases stepped
  | read k buf n =>
      simp only [Pool.step, Option.bind_eq_bind, Option.bind_eq_some_iff] at stepped
      obtain ⟨q, isEnd, went⟩ := stepped
      exact tracked.goOn (.read q buf n) ((tracked.isOpen q true).mpr ⟨k, isEnd⟩) went
  | write k buf n src =>
      simp only [Pool.step, Option.bind_eq_bind, Option.bind_eq_some_iff] at stepped
      obtain ⟨q, isEnd, went⟩ := stepped
      exact tracked.goOn (.write q buf n src) ((tracked.isOpen q false).mpr ⟨k, isEnd⟩) went
  | close k isRead =>
      simp only [Pool.step, Option.bind_eq_bind, Option.bind_eq_some_iff] at stepped
      obtain ⟨q, isEnd, ⟨sched, obs⟩, closes, pair⟩ := stepped
      cases pair
      simp only [RRSched.step, Option.bind_eq_bind, Option.bind_eq_some_iff] at closes
      obtain ⟨t, -, closes⟩ := closes
      split at closes
      · cases closes
        exact tracked.close isEnd (quiet q isEnd)
      · cases closes
  | pick => exact tracked.goOn .pick trivial stepped
  | resume src => exact tracked.goOn (.resume src) trivial stepped
  | yield => exact tracked.goOn .yield trivial stepped
  | exit => exact tracked.goOn .exit trivial stepped

/-- An entry is allocated when an end of the pipe is left. -/
theorem allocated_iff (tracked : s.Tracked) :
    (s.sched.pipes q).allocated = true ↔ ∃ k isRead, s.ends k isRead = some q := by
  have flags := tracked.sane.inUse q
  rw [flags, Bool.or_eq_true]
  constructor
  · rintro (readopen | writeopen)
    · obtain ⟨k, isEnd⟩ := (tracked.isOpen q true).mp readopen
      exact ⟨k, true, isEnd⟩
    · obtain ⟨k, isEnd⟩ := (tracked.isOpen q false).mp writeopen
      exact ⟨k, false, isEnd⟩
  · rintro ⟨k, isRead, isEnd⟩
    have isOpen := (tracked.isOpen q isRead).mpr ⟨k, isEnd⟩
    cases isRead
    · exact .inr isOpen
    · exact .inl isOpen

/-- The buffer of an entry tells which pipe it belongs to. -/
theorem count (tracked : s.Tracked) : {q | (s.sched.pipes q).allocated = true}.encard =
    {k | ∃ isRead, s.ends k isRead ≠ none}.encard := by
  have buffer : ∀ {q}, (s.sched.pipes q).allocated = true →
      ∃ k isRead, s.ends k isRead = some q ∧ (s.data q).getD 0 = k := by
    intro q allocated
    obtain ⟨k, isRead, isEnd⟩ := tracked.allocated_iff.mp allocated
    exact ⟨k, isRead, isEnd, by rw [tracked.holds isEnd, Option.getD_some]⟩
  have distinct : Set.InjOn (fun q => (s.data q).getD 0)
      {q | (s.sched.pipes q).allocated = true} := by
    intro q allocated q' allocated' same
    obtain ⟨k, isRead, isEnd, number⟩ := buffer allocated
    obtain ⟨k', isRead', isEnd', number'⟩ := buffer allocated'
    have numbers : k = k' := number.symm.trans (same.trans number')
    subst numbers
    exact tracked.sole (tracked.holds isEnd) (tracked.holds isEnd')
  rw [← distinct.encard_image]
  congr 1
  ext k
  constructor
  · rintro ⟨q, allocated, rfl⟩
    obtain ⟨k, isRead, isEnd, number⟩ := buffer allocated
    refine ⟨isRead, ?_⟩
    dsimp only
    rw [number, isEnd]
    exact Option.some_ne_none q
  · rintro ⟨isRead, left⟩
    obtain ⟨q, isEnd⟩ := Option.ne_none_iff_exists'.mp left
    refine ⟨q, tracked.allocated_iff.mpr ⟨k, isRead, isEnd⟩, ?_⟩
    dsimp only
    rw [tracked.holds isEnd, Option.getD_some]

/-- The entries of the array belong to the ends that are left. -/
theorem owned (tracked : s.Tracked) : s.Owned where
  taken := by
    intro q found
    have free : (s.sched.pipes q).allocated = false := by
      simpa using List.find?_some found
    have closed := tracked.sane.inUse.closed free
    obtain ⟨readers, writers⟩ := tracked.sane.settled.nobodyWaits closed
    refine ⟨?_, ?_, readers, writers⟩
    · intro k isRead isEnd
      have isOpen := (tracked.isOpen q isRead).mpr ⟨k, isEnd⟩
      rw [closed] at isOpen
      cases isOpen
    · rintro t call suspended rfl
      have isOpen := tracked.sane.ongoing t call suspended
      rw [closed] at isOpen
      cases isOpen
  buffer := by
    intro k isRead q isEnd
    have buffer := tracked.holds isEnd
    refine ⟨buffer, (tracked.live buffer).2, ?_⟩
    exact tracked.sane.buffered q isRead ((tracked.isOpen q isRead).mpr ⟨k, isEnd⟩)
  count := tracked.count

end Tracked

/-- In every run in which no end is closed during a call on it, the entries of the array belong
to the ends that are left. -/
theorem slots_owned {trace : List PipeObs} (run : Run step Quiet init trace s) : s.Owned := by
  have tracked : s.Tracked :=
    run.stateInvariant Tracked init_tracked fun tracked quiet stepped => tracked.step quiet stepped
  exact tracked.owned

/-- A reader waits, is woken by a write and a hang-up, and closes its end: the entry is taken
again. -/
theorem slots_owned_after_reuse :
    ∃ trace s, Run step Quiet init trace s ∧ s.ends 0 true = none ∧ s.ends 1 true = some 0 ∧
      s.freed = [0] ∧ s.Owned := by
  have seen : (exec (guarded step Quiet) init
      [.add 1, .add 2, .pipeNew fun _ => 0, .pick, .read 0 0x11000 8, .pick,
        .write 0 0x12000 3 fun _ => 7, .close 0 false, .yield, .pick, .resume fun _ => 0,
        .close 0 true, .pipeNew fun _ => 1]).map
          (fun (s, _) => (s.ends 0 true, s.ends 1 true, s.freed)) =
      some (none, some 0, [0]) := by
    decide +kernel
  obtain ⟨⟨s, trace⟩, executed, shown⟩ := Option.map_eq_some_iff.mp seen
  simp only [Prod.mk.injEq] at shown
  obtain ⟨gone, taken, freed⟩ := shown
  have run := run_of_exec_guarded executed
  exact ⟨trace, s, run, gone, taken, freed, slots_owned run⟩

end Pool

end Lps.Linux

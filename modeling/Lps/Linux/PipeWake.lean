import Lps.Linux.PipeSpec

/-!
# No lost wake-up on pipes

A pipe call wakes the other side before it gives up the core, so a thread is
left in a wait queue only while the condition it waits for still fails.  The
invariant is about one pipe; every stretch of a call keeps it for the pipe it
works on and leaves the other pipes alone.
-/

namespace Lps.Linux

open Lps.Transition RRSched

/-- A pipe in the middle of `pipe_write`: its readers have not been woken yet. -/
structure Pipe.Filling (pipe : Pipe) : Prop where
  bounded : pipe.avail ≤ PIPESZ
  writers : pipe.writeq ≠ [] → pipe.avail = PIPESZ ∧ pipe.readopen = true

/-- A pipe at a switch point: whoever waits still has to. -/
structure Pipe.Settled (pipe : Pipe) : Prop extends pipe.Filling where
  readers : pipe.readq ≠ [] → pipe.nread = pipe.nwrite ∧ pipe.writeopen = true

namespace Pipe

variable {pipe : Pipe}

/-- Waking the readers settles a pipe. -/
theorem Filling.wakeReaders (filling : pipe.Filling) : (pipe.setReadq []).Settled where
  bounded := filling.bounded
  writers := filling.writers
  readers := by
    intro waiting
    exact absurd rfl waiting

/-- A writer may wait on a full pipe whose readers have been woken. -/
theorem Filling.blockWriter (filling : pipe.Filling) (full : pipe.availSpace = 0)
    (isOpen : pipe.readopen = true) (queue : Queue) :
    ((pipe.setReadq []).setWriteq queue).Settled where
  bounded := filling.bounded
  writers := by
    intro _
    refine ⟨?_, isOpen⟩
    simp only [avail, availSpace, setWriteq_nwrite, setWriteq_nread, setReadq_nwrite,
      setReadq_nread] at *
    bv_omega
  readers := by
    intro waiting
    exact absurd rfl waiting

/-- Copying no more than the free space into a pipe no writer waits for keeps
it within its capacity. -/
theorem Filling.advanceWrite {count : Word} (filling : pipe.Filling)
    (notFull : pipe.availSpace ≠ 0) (le : count ≤ pipe.availSpace) (data : Nat → Byte) :
    ((pipe.setData data).advanceWrite count).Filling := by
  have bounded := filling.bounded
  simp only [avail, availSpace, PIPESZ] at *
  refine ⟨?_, ?_⟩
  · simp only [avail, PIPESZ, advanceWrite_nwrite, advanceWrite_nread, setData_nwrite,
      setData_nread]
    bv_omega
  · intro waiting
    have full := (filling.writers waiting).1
    simp only [avail, PIPESZ] at full
    exact absurd (by bv_omega) notFull

/-- A reader may wait on an empty pipe whose write end is open. -/
theorem Settled.blockReader (settled : pipe.Settled) (empty : pipe.nread = pipe.nwrite)
    (isOpen : pipe.writeopen = true) (queue : Queue) : (pipe.setReadq queue).Settled where
  bounded := settled.bounded
  writers := settled.writers
  readers := by
    intro _
    exact ⟨empty, isOpen⟩

/-- A read that does not block finds no reader waiting. -/
theorem Settled.readq_eq_nil (settled : pipe.Settled)
    (ready : ¬(pipe.nread = pipe.nwrite ∧ pipe.writeopen = true)) : pipe.readq = [] := by
  by_contra waiting
  exact ready (settled.readers waiting)

/-- Reading part of what is available and waking the writers settles a pipe. -/
theorem Settled.finishRead {count : Word} (settled : pipe.Settled) (le : count ≤ pipe.avail)
    (noReader : pipe.readq = []) :
    ((pipe.advanceRead count).setWriteq []).Settled where
  bounded := by
    have bounded := settled.bounded
    simp only [avail, PIPESZ, setWriteq_nwrite, setWriteq_nread, advanceRead_nwrite,
      advanceRead_nread] at *
    bv_omega
  writers := by
    intro waiting
    exact absurd rfl waiting
  readers := by
    intro waiting
    exact absurd noReader waiting

end Pipe

/-- Every pipe is settled. -/
def RRSched.Settled (s : RRSched) : Prop := ∀ p, (s.pipes p).Settled

variable {s s' : RRSched} {t : Tid} {p : PipeId} {buf n written : Word} {obs : List PipeObs}
  {src : Nat → Byte}

/-- Replacing one pipe by a settled one. -/
theorem RRSched.Settled.of_update {pipe : Pipe}
    (others : ∀ q, q ≠ p → (s.pipes q).Settled) (settled : pipe.Settled)
    (pipes : s'.pipes = Function.update s.pipes p pipe) : s'.Settled := by
  intro q
  rw [pipes]
  by_cases same : q = p
  · subst same
    rw [Function.update_self]
    exact settled
  · rw [Function.update_of_ne same]
    exact others q same

/-- `pipe_read` keeps the pipes settled. -/
theorem pipeRead_settled (settled : s.Settled) (result : pipeRead s t p buf n = some (s', obs)) :
    s'.Settled := by
  rcases pipeRead_cases result with
    ⟨empty, isOpen, _, rfl⟩ | ⟨ready, pipe, copies, looped, _, rfl⟩
  · exact .of_update (fun q _ => settled q)
      ((settled p).blockReader empty isOpen (queueEnqueue (s.pipes p).readq t))
      (rrschedblock_readq_pipes ..)
  · have advanced := pipeReadCopy_pipe (by bv_omega) looped
    have finished := (settled p).finishRead (readSize_le_avail n _)
      ((settled p).readq_eq_nil ready)
    refine .of_update (fun q _ => settled q) finished ?_ (p := p)
    simp [advanced]

/-- The loop of `pipe_write` on a pipe whose read end is open: whether it blocks
or finishes, it wakes the readers first. -/
theorem pipeWrite_loop_settled
    (result : pipeWrite s t p buf n src written = some (s', obs))
    (isOpen : (s.pipes p).readopen = true) (others : ∀ q, q ≠ p → (s.pipes q).Settled)
    (filling : (s.pipes p).Filling) : s'.Settled := by
  revert isOpen others filling
  refine pipeWrite_induct (motive := fun s _ s' _ => (s.pipes p).readopen = true →
    (∀ q, q ≠ p → (s.pipes q).Settled) → (s.pipes p).Filling → s'.Settled) ?_ ?_ ?_ ?_ result
  · intro s _ closed isOpen
    rw [isOpen] at closed
    contradiction
  · intro s _ _ isOpen full _ others filling
    refine .of_update others
      (filling.blockWriter full isOpen (queueEnqueue (s.pipes p).writeq t)) ?_
    simp
  · intro s written s' pipe bytes rest more isOpen room _ copied ih _ others filling
    obtain ⟨data, _, _, rfl⟩ := Pipe.copyIn_eq_some copied
    apply ih
    · simpa using isOpen
    · intro q ne
      rw [setPipe_pipes, Function.update_of_ne ne]
      exact others q ne
    · rw [setPipe_pipes, Function.update_self]
      exact filling.advanceWrite room (writeChunk_le_availSpace _ _) _
  · intro s _ _ others filling
    exact .of_update others filling.wakeReaders (rrschedwake_readq_pipes ..)

/-- `pipe_write` keeps the pipes settled. -/
theorem pipeWrite_settled (settled : s.Settled)
    (result : pipeWrite s t p buf n src written = some (s', obs)) : s'.Settled := by
  cases isOpen : (s.pipes p).readopen with
  | true =>
      exact pipeWrite_loop_settled result isOpen (fun q _ => settled q) (settled p).toFilling
  | false =>
      rcases pipeWrite_cases result with
        ⟨_, _, rfl, _⟩ | ⟨_, opened, _⟩ | ⟨_, opened, _⟩ | ⟨_, rfl, _⟩
      · exact settled
      · rw [isOpen] at opened
        contradiction
      · rw [isOpen] at opened
        contradiction
      · exact .of_update (fun q _ => settled q) (settled p).toFilling.wakeReaders
          (rrschedwake_readq_pipes ..)

/-- `pipe_close` keeps the pipes settled: it wakes the side that waited for the
end it closes. -/
theorem pipeClose_settled (settled : s.Settled) (isRead : Bool) :
    (pipeClose s p isRead).Settled := by
  obtain ⟨pipe, pipes, nread, nwrite, readopen, writeopen, readq, writeq, _⟩ :=
    pipeClose_pipes s p isRead
  refine .of_update (fun q _ => settled q) ?_ pipes
  have before := settled p
  refine ⟨⟨?_, ?_⟩, ?_⟩
  · simpa only [Pipe.avail, nread, nwrite] using before.bounded
  · intro waiting
    cases isRead with
    | true => exact absurd writeq waiting
    | false =>
        simp only [Bool.false_eq_true, if_false] at writeq
        simpa [Pipe.avail, nread, nwrite, readopen] using
          before.writers (by rwa [← writeq])
  · intro waiting
    cases isRead with
    | true =>
        simp only [if_true] at readq
        simpa [nread, nwrite, writeopen] using before.readers (by rwa [← readq])
    | false => exact absurd readq waiting

/-- One step keeps every pipe settled. -/
theorem RRSched.Settled.step {event : PipeEvent} (settled : s.Settled)
    (stepped : RRSched.step s event = some (s', obs)) : s'.Settled := by
  rcases step_cases stepped with ⟨pipes, _⟩ | ⟨r, t, p, buf, n, pipes, read⟩ |
    ⟨r, t, p, buf, n, src, written, pipes, write⟩ | ⟨t, p, isRead, _, rfl, _⟩
  · intro p
    rw [pipes]
    exact settled p
  · exact pipeRead_settled (fun q => by rw [pipes]; exact settled q) read
  · exact pipeWrite_settled (fun q => by rw [pipes]; exact settled q) write
  · exact pipeClose_settled settled isRead

/-- New pipes are settled. -/
theorem RRSched.initial_settled (added : List Tid) (data : PipeId → Nat → Byte) :
    (initial added data).Settled := by
  intro p
  refine ⟨⟨?_, ?_⟩, ?_⟩
  · simp [initial, newPipe, Pipe.avail, PIPESZ]
  · intro waiting
    exact absurd rfl waiting
  · intro waiting
    exact absurd rfl waiting

/-- At every switch point, and so whenever the scheduler loop is about to pick a
thread, a thread waits to read only from an empty pipe whose write end is open,
and waits to write only into a full pipe whose read end is open. -/
theorem RRSched.no_lost_wakeup {added : List Tid} {data : PipeId → Nat → Byte}
    {trace : List PipeObs}
    (run : Run RRSched.step (Always _ _) (initial added data) trace s) (p : PipeId) :
    (∀ t ∈ (s.pipes p).readq,
      (s.pipes p).nread = (s.pipes p).nwrite ∧ (s.pipes p).writeopen = true) ∧
    (∀ t ∈ (s.pipes p).writeq,
      (s.pipes p).nwrite - (s.pipes p).nread = PIPESZ ∧ (s.pipes p).readopen = true) := by
  have settled : s.Settled :=
    run.stateInvariant RRSched.Settled (initial_settled added data)
      fun settled _ stepped => settled.step stepped
  constructor
  · intro t waiting
    exact (settled p).readers (List.ne_nil_of_mem waiting)
  · intro t waiting
    exact (settled p).writers (List.ne_nil_of_mem waiting)

/-- Two threads on a new pipe: the first one waits for data. -/
theorem RRSched.no_lost_wakeup_first_reader :
    ∃ trace s,
      Run RRSched.step (Always _ _) (initial [1, 2] fun _ _ => 0) trace s ∧
      s.current = none ∧ (s.pipes 0).readq = [1] ∧
      (s.pipes 0).nread = (s.pipes 0).nwrite ∧ (s.pipes 0).writeopen = true := by
  have run := run_of_exec (rfl : exec RRSched.step (initial [1, 2] fun _ _ => 0)
    [.pick, .read 0 64 5] = some (_, _))
  refine ⟨_, _, run, by decide, by decide, ?_⟩
  exact (no_lost_wakeup run 0).1 1 (by decide)

end Lps.Linux

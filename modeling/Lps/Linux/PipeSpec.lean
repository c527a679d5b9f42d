import Lps.Linux.Pipe

/-!
# What the stretches of a pipe call do

One lemma for each function says what it may do to the pipes, so that the
invariants below never unfold the functions themselves.  A step of the system
either leaves the pipes alone or is one of the three pipe calls.
-/

namespace Lps.Linux

open Lps.Ring Lps.Transition

namespace RRSched

/-! ## The scheduler primitives -/

@[simp]
theorem setPipe_pipes (s : RRSched) (p : PipeId) (pipe : Pipe) :
    (s.setPipe p pipe).pipes = Function.update s.pipes p pipe :=
  rfl

@[simp]
theorem setThread_pipes (s : RRSched) (t : Tid) (thread : LPSThread) :
    (s.setThread t thread).pipes = s.pipes :=
  rfl

@[simp]
theorem threadExit_pipes (s : RRSched) (t : Tid) : (s.threadExit t).pipes = s.pipes :=
  rfl

@[simp]
theorem wakeAll_pipes (s : RRSched) (queue : Queue) : (s.wakeAll queue).pipes = s.pipes := by
  induction queue generalizing s with
  | nil => rfl
  | cons t rest ih =>
      rw [wakeAll, ih]
      rfl

@[simp]
theorem rrschedwake_readq_pipes (s : RRSched) (p : PipeId) :
    (s.rrschedwake (.readq p)).pipes =
      Function.update s.pipes p ((s.pipes p).setReadq []) := by
  rw [rrschedwake, wakeAll_pipes]
  rfl

@[simp]
theorem rrschedwake_writeq_pipes (s : RRSched) (p : PipeId) :
    (s.rrschedwake (.writeq p)).pipes =
      Function.update s.pipes p ((s.pipes p).setWriteq []) := by
  rw [rrschedwake, wakeAll_pipes]
  rfl

@[simp]
theorem rrschedblock_readq_pipes (s : RRSched) (t : Tid) (p : PipeId) (call : PipeCall) :
    (s.rrschedblock t (.readq p) call).pipes =
      Function.update s.pipes p
        ((s.pipes p).setReadq (queueEnqueue (s.pipes p).readq t)) :=
  rfl

@[simp]
theorem rrschedblock_writeq_pipes (s : RRSched) (t : Tid) (p : PipeId) (call : PipeCall) :
    (s.rrschedblock t (.writeq p) call).pipes =
      Function.update s.pipes p
        ((s.pipes p).setWriteq (queueEnqueue (s.pipes p).writeq t)) :=
  rfl

end RRSched

open RRSched

variable {s s' : RRSched} {t : Tid} {p : PipeId} {buf n written : Word}
  {obs : List PipeObs} {src : Nat → Byte}

/-! ## Copies -/

/-- A `memcpy` out of the pipe stays inside the buffer. -/
theorem Pipe.copyOut_eq_some {pipe : Pipe} {pos len : Word} {bytes : List Byte}
    (copied : pipe.copyOut pos len = some bytes) :
    ∃ data, pipe.data = some data ∧ pos.toNat + len.toNat ≤ PIPESZ.toNat ∧
      bytes = load data pos.toNat len.toNat := by
  simp only [Pipe.copyOut, Option.bind_eq_bind, Option.bind_eq_some_iff] at copied
  obtain ⟨data, present, copied⟩ := copied
  split at copied
  · rename_i inside
    exact ⟨data, present, inside, (Option.some.inj copied).symm⟩
  · contradiction

/-- A `memcpy` into the pipe stays inside the buffer and changes nothing else. -/
theorem Pipe.copyIn_eq_some {pipe pipe' : Pipe} {pos : Word} {bytes : List Byte}
    (copied : pipe.copyIn pos bytes = some pipe') :
    ∃ data, pipe.data = some data ∧ pos.toNat + bytes.length ≤ PIPESZ.toNat ∧
      pipe' = pipe.setData (store data pos.toNat bytes) := by
  simp only [Pipe.copyIn, Option.bind_eq_bind, Option.bind_eq_some_iff] at copied
  obtain ⟨data, present, copied⟩ := copied
  split at copied
  · rename_i inside
    exact ⟨data, present, inside, (Option.some.inj copied).symm⟩
  · contradiction

/-- A `memcpy` out of a buffer that is present is defined inside its bounds. -/
theorem Pipe.copyOut_of_inside {pipe : Pipe} {pos len : Word} {data : Nat → Byte}
    (present : pipe.data = some data) (inside : pos.toNat + len.toNat ≤ PIPESZ.toNat) :
    pipe.copyOut pos len = some (load data pos.toNat len.toNat) := by
  simp only [Pipe.copyOut, present, Option.bind_eq_bind, Option.bind_some, if_pos inside]

/-- A `memcpy` into a buffer that is present is defined inside its bounds. -/
theorem Pipe.copyIn_of_inside {pipe : Pipe} {pos : Word} {data : Nat → Byte}
    (bytes : List Byte) (present : pipe.data = some data)
    (inside : pos.toNat + bytes.length ≤ PIPESZ.toNat) :
    pipe.copyIn pos bytes = some (pipe.setData (store data pos.toNat bytes)) := by
  simp only [Pipe.copyIn, present, Option.bind_eq_bind, Option.bind_some, if_pos inside]

/-- One round of the copy loop of `pipe_read`. -/
theorem pipeReadCopy_cons {pipe pipe' : Pipe} {toRead copied : Word} (more : copied < toRead)
    (result : pipeReadCopy t p buf toRead pipe copied = some (pipe', obs)) :
    ∃ bytes rest,
      pipe.copyOut (pipe.nread % PIPESZ) (readChunk pipe (toRead - copied)) = some bytes ∧
      pipeReadCopy t p buf toRead (pipe.advanceRead (readChunk pipe (toRead - copied)))
        (copied + readChunk pipe (toRead - copied)) = some (pipe', rest) ∧
      obs = .access t (buf + copied) bytes.length :: .delivered p bytes :: rest := by
  rw [pipeReadCopy, dif_pos more] at result
  simp only [Option.bind_eq_bind, Option.bind_eq_some_iff, Prod.exists, Option.some.injEq,
    Prod.mk.injEq] at result
  obtain ⟨bytes, out, last, rest, looped, rfl, rfl⟩ := result
  exact ⟨bytes, rest, out, looped, rfl⟩

/-- The copy loop of `pipe_read` advances `nread` by what it copies, and changes
nothing else. -/
theorem pipeReadCopy_pipe {pipe pipe' : Pipe} {toRead copied : Word} (le : copied ≤ toRead)
    (result : pipeReadCopy t p buf toRead pipe copied = some (pipe', obs)) :
    pipe' = pipe.advanceRead (toRead - copied) := by
  fun_induction pipeReadCopy t p buf toRead pipe copied generalizing pipe' obs with
  | case1 pipe copied more ih =>
      obtain ⟨bytes, rest, _, looped, _⟩ := pipeReadCopy_cons more (by
        rw [pipeReadCopy, dif_pos more]; exact result)
      have chunk_le := readChunk_le pipe (toRead - copied)
      rw [ih (by bv_omega) looped]
      simp only [Pipe.advanceRead, Pipe.mk.injEq, true_and, and_true]
      bv_omega
  | case2 pipe copied done =>
      simp only [Option.some.injEq, Prod.mk.injEq] at result
      have same : copied = toRead := by bv_omega
      rw [← result.1, same]
      simp [Pipe.advanceRead]

/-! ## Calls -/

/-- `pipe_read` blocks on an empty pipe whose write end is open; otherwise it
copies, advances `nread` and wakes the writers. -/
theorem pipeRead_cases (result : pipeRead s t p buf n = some (s', obs)) :
    ((s.pipes p).nread = (s.pipes p).nwrite ∧ (s.pipes p).writeopen = true ∧ obs = [] ∧
      s' = s.rrschedblock t (.readq p) (.read p buf n)) ∨
    (¬((s.pipes p).nread = (s.pipes p).nwrite ∧ (s.pipes p).writeopen = true) ∧
      ∃ pipe copies,
        pipeReadCopy t p buf (readSize n (s.pipes p).avail) (s.pipes p) 0 =
          some (pipe, copies) ∧
        obs = copies ++ [.returned t (readSize n (s.pipes p).avail)] ∧
        s' = (s.setPipe p pipe).rrschedwake (.writeq p)) := by
  unfold pipeRead at result
  split at result
  · rename_i empty
    simp only [Option.some.injEq, Prod.mk.injEq] at result
    exact .inl ⟨empty.1, empty.2, result.2.symm, result.1.symm⟩
  · rename_i ready
    simp only [Option.bind_eq_bind, Option.bind_eq_some_iff, Prod.exists, Option.some.injEq,
      Prod.mk.injEq] at result
    obtain ⟨pipe, copies, looped, rfl, rfl⟩ := result
    exact .inr ⟨ready, pipe, copies, looped, rfl, rfl⟩

/-- One iteration of the loop of `pipe_write`. -/
theorem pipeWrite_cases (result : pipeWrite s t p buf n src written = some (s', obs)) :
    (written < n ∧ (s.pipes p).readopen = false ∧ s' = s ∧ obs = [.returned t (-1)]) ∨
    (written < n ∧ (s.pipes p).readopen = true ∧ (s.pipes p).availSpace = 0 ∧ obs = [] ∧
      s' = (s.rrschedwake (.readq p)).rrschedblock t (.writeq p) (.write p buf n written)) ∨
    (written < n ∧ (s.pipes p).readopen = true ∧ (s.pipes p).availSpace ≠ 0 ∧
      ∃ bytes pipe rest,
        bytes = load src written.toNat (writeChunk (s.pipes p) (n - written)).toNat ∧
        (s.pipes p).copyIn ((s.pipes p).nwrite % PIPESZ) bytes = some pipe ∧
        pipeWrite (s.setPipe p (pipe.advanceWrite (writeChunk (s.pipes p) (n - written))))
          t p buf n src (written + writeChunk (s.pipes p) (n - written)) = some (s', rest) ∧
        obs = .access t (buf + written) bytes.length :: .copied p bytes :: rest) ∨
    (¬written < n ∧ s' = s.rrschedwake (.readq p) ∧ obs = [.returned t written]) := by
  rw [pipeWrite] at result
  split at result
  · rename_i more
    split at result
    · rename_i closed
      simp only [Option.some.injEq, Prod.mk.injEq] at result
      exact .inl ⟨more, closed, result.1.symm, result.2.symm⟩
    · rename_i isOpen
      have isOpen := Bool.eq_true_of_not_eq_false isOpen
      split at result
      · rename_i full
        simp only [Option.some.injEq, Prod.mk.injEq] at result
        exact .inr (.inl ⟨more, isOpen, full, result.2.symm, result.1.symm⟩)
      · rename_i room
        simp only [Option.bind_eq_bind, Option.bind_eq_some_iff, Prod.exists,
          Option.some.injEq, Prod.mk.injEq] at result
        obtain ⟨pipe, copied, last, rest, looped, rfl, rfl⟩ := result
        exact .inr (.inr (.inl
          ⟨more, isOpen, room, _, pipe, rest, rfl, copied, looped, rfl⟩))
  · rename_i done
    simp only [Option.some.injEq, Prod.mk.injEq] at result
    exact .inr (.inr (.inr ⟨done, result.1.symm, result.2.symm⟩))

/-- The induction rule of `pipe_write`: on a closed read end it returns, on a full
pipe it wakes the readers and blocks, with room it copies a chunk and goes on,
and at the end it wakes the readers. -/
theorem pipeWrite_induct {motive : RRSched → Word → RRSched → List PipeObs → Prop}
    (closed : ∀ {s written}, (s.pipes p).readopen = false →
      motive s written s [.returned t (-1)])
    (full : ∀ {s written}, written < n → (s.pipes p).readopen = true →
      (s.pipes p).availSpace = 0 → motive s written
        ((s.rrschedwake (.readq p)).rrschedblock t (.writeq p) (.write p buf n written)) [])
    (chunk : ∀ {s written s' pipe bytes rest}, written < n →
      (s.pipes p).readopen = true → (s.pipes p).availSpace ≠ 0 →
      bytes = load src written.toNat (writeChunk (s.pipes p) (n - written)).toNat →
      (s.pipes p).copyIn ((s.pipes p).nwrite % PIPESZ) bytes = some pipe →
      motive (s.setPipe p (pipe.advanceWrite (writeChunk (s.pipes p) (n - written))))
        (written + writeChunk (s.pipes p) (n - written)) s' rest →
      motive s written s'
        (.access t (buf + written) bytes.length :: .copied p bytes :: rest))
    (done : ∀ {s written}, motive s written (s.rrschedwake (.readq p)) [.returned t written])
    (result : pipeWrite s t p buf n src written = some (s', obs)) :
    motive s written s' obs := by
  -- Each chunk leaves less to write.
  induction left : (n - written).toNat using Nat.strongRecOn generalizing s written obs with
  | ind left ih =>
      rcases pipeWrite_cases result with
        ⟨_, isClosed, rfl, rfl⟩ | ⟨more, isOpen, isFull, rfl, rfl⟩ |
        ⟨more, isOpen, room, bytes, pipe, rest, taken, copied, looped, rfl⟩ | ⟨_, rfl, rfl⟩
      · exact closed isClosed
      · exact full more isOpen isFull
      · have chunkPos : 0 < writeChunk (s.pipes p) (n - written) :=
          writeChunk_pos (by bv_omega) room
        have smaller := rest_decreases chunkPos (writeChunk_le _ _)
        rw [left] at smaller
        exact chunk more isOpen room taken copied (ih _ smaller looped rfl)
      · exact done

/-- The pipes after `pipe_close`. -/
theorem pipeClose_pipes (s : RRSched) (p : PipeId) (isRead : Bool) :
    ∃ pipe : Pipe,
      (pipeClose s p isRead).pipes = Function.update s.pipes p pipe ∧
      pipe.nread = (s.pipes p).nread ∧ pipe.nwrite = (s.pipes p).nwrite ∧
      pipe.readopen = ((s.pipes p).readopen && !isRead) ∧
      pipe.writeopen = ((s.pipes p).writeopen && isRead) ∧
      pipe.readq = (if isRead then (s.pipes p).readq else []) ∧
      pipe.writeq = (if isRead then [] else (s.pipes p).writeq) ∧
      pipe.data =
        (if pipe.readopen || pipe.writeopen then (s.pipes p).data else none) := by
  cases isRead with
  | false =>
      simp only [pipeClose, WaitQueue.ofClosed, Bool.false_eq_true, if_false]
      split
      · rename_i bothClosed
        simp at bothClosed
        exact ⟨(((s.pipes p).closeEnd false).setReadq []).release, by simp [bothClosed]⟩
      · rename_i isOpen
        simp at isOpen
        exact ⟨((s.pipes p).closeEnd false).setReadq [], by simp [isOpen]⟩
  | true =>
      simp only [pipeClose, WaitQueue.ofClosed, if_true]
      split
      · rename_i bothClosed
        simp at bothClosed
        exact ⟨(((s.pipes p).closeEnd true).setWriteq []).release, by simp [bothClosed]⟩
      · rename_i isOpen
        simp at isOpen
        exact ⟨((s.pipes p).closeEnd true).setWriteq [], by simp [isOpen]⟩

/-! ## Steps -/

/-- Everything a step can do to the pipes: nothing, or one stretch of a call. -/
theorem RRSched.step_cases {event : PipeEvent}
    (stepped : RRSched.step s event = some (s', obs)) :
    (s'.pipes = s.pipes ∧ obs = []) ∨
    (∃ r t p buf n, r.pipes = s.pipes ∧ pipeRead r t p buf n = some (s', obs)) ∨
    (∃ r t p buf n src written, r.pipes = s.pipes ∧
      pipeWrite r t p buf n src written = some (s', obs)) ∨
    (∃ t p isRead, s.endOpen p isRead = true ∧ s' = pipeClose s p isRead ∧
      obs = [.returned t 0]) := by
  cases event with
  | pick =>
      simp only [step] at stepped
      split at stepped
      · simp only [Option.some.injEq, Prod.mk.injEq] at stepped
        obtain ⟨rfl, rfl⟩ := stepped
        exact .inl ⟨rfl, rfl⟩
      · contradiction
  | read p buf n =>
      simp only [step, Option.bind_eq_bind, Option.bind_eq_some_iff] at stepped
      obtain ⟨t, _, called⟩ := stepped
      exact .inr (.inl ⟨s, t, p, buf, n, rfl, called⟩)
  | write p buf n src =>
      simp only [step, Option.bind_eq_bind, Option.bind_eq_some_iff] at stepped
      obtain ⟨t, _, called⟩ := stepped
      exact .inr (.inr (.inl ⟨s, t, p, buf, n, src, 0, rfl, called⟩))
  | close p isRead =>
      simp only [step, Option.bind_eq_bind, Option.bind_eq_some_iff] at stepped
      obtain ⟨t, _, closed⟩ := stepped
      split at closed
      · rename_i isOpen
        simp only [Option.some.injEq, Prod.mk.injEq] at closed
        exact .inr (.inr (.inr ⟨t, p, isRead, isOpen, closed.1.symm, closed.2.symm⟩))
      · contradiction
  | resume src =>
      simp only [step, Option.bind_eq_bind, Option.bind_eq_some_iff] at stepped
      obtain ⟨t, _, call, _, called⟩ := stepped
      cases call with
      | read p buf n =>
          exact .inr (.inl ⟨s.setThread t _, t, p, buf, n, rfl, called⟩)
      | write p buf n written =>
          exact .inr (.inr (.inl ⟨s.setThread t _, t, p, buf, n, src, written, rfl, called⟩))
  | yield =>
      simp only [step, Option.bind_eq_bind, Option.bind_eq_some_iff, Option.some.injEq,
        Prod.mk.injEq] at stepped
      obtain ⟨t, _, rfl, rfl⟩ := stepped
      exact .inl ⟨rfl, rfl⟩
  | exit =>
      simp only [step, Option.bind_eq_bind, Option.bind_eq_some_iff, Option.some.injEq,
        Prod.mk.injEq] at stepped
      obtain ⟨t, _, rfl, rfl⟩ := stepped
      exact .inl ⟨rfl, rfl⟩

end Lps.Linux

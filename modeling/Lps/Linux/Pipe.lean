import Lps.Word
import Lps.Linux.Queue
import Lps.Ring.Window
import Lps.Transition.Run
import Mathlib.Logic.Function.Basic

/-!
# Pipes under the round-robin scheduler

The threads of the round-robin scheduler switch only inside `lps_thread_exit`:
a sandbox thread that enters `pipe_read`, `pipe_write` or `pipe_close` keeps the
core until the call returns or reaches `rrschedblock`.  A step of the system is
therefore one such stretch of a call.  A call that blocks leaves its C frame on
the thread's kernel stack; it is kept as a `PipeCall` and continued when the
scheduler loop runs the thread again.
-/

namespace Lps.Linux

open Lps.Ring Lps.Transition

/-- Number of entries of the static array `pipes`. -/
abbrev NPIPE : Nat := 64

/-- Capacity of a pipe's buffer. -/
def PIPESZ : Word := 65536

/-- Index into the static array `pipes`. -/
abbrev PipeId := Fin NPIPE

/-- `struct Pipe`; `data` is `none` once the buffer has been freed. -/
structure Pipe where
  data : Option (Nat → Byte)
  writeopen : Bool
  readopen : Bool
  allocated : Bool
  nread : Word
  nwrite : Word
  readq : Queue
  writeq : Queue

namespace Pipe

/-- Bytes in the buffer. -/
def avail (pipe : Pipe) : Word := pipe.nwrite - pipe.nread

/-- Free bytes in the buffer. -/
def availSpace (pipe : Pipe) : Word := PIPESZ - (pipe.nwrite - pipe.nread)

/-- `pipe->nread += count`. -/
@[simps]
def advanceRead (pipe : Pipe) (count : Word) : Pipe :=
  { pipe with nread := pipe.nread + count }

/-- `pipe->nwrite += count`. -/
@[simps]
def advanceWrite (pipe : Pipe) (count : Word) : Pipe :=
  { pipe with nwrite := pipe.nwrite + count }

/-- Replace the contents of the buffer. -/
@[simps]
def setData (pipe : Pipe) (data : Nat → Byte) : Pipe :=
  { pipe with data := some data }

/-- Replace the readers that wait. -/
@[simps]
def setReadq (pipe : Pipe) (queue : Queue) : Pipe :=
  { pipe with readq := queue }

/-- Replace the writers that wait. -/
@[simps]
def setWriteq (pipe : Pipe) (queue : Queue) : Pipe :=
  { pipe with writeq := queue }

/-- `pipe->readopen = false` for the read end, `pipe->writeopen = false` for the
write end. -/
@[simps]
def closeEnd (pipe : Pipe) (isRead : Bool) : Pipe :=
  { pipe with
    readopen := pipe.readopen && !isRead
    writeopen := pipe.writeopen && isRead }

/-- `pipe_close` frees the buffer once both ends are closed. -/
@[simps]
def release (pipe : Pipe) : Pipe :=
  { pipe with data := none, allocated := false }

end Pipe

/-- The locals of a pipe call that is suspended inside `rrschedblock`. -/
inductive PipeCall
  | read (pipe : PipeId) (buf n : Word)
  | write (pipe : PipeId) (buf n written : Word)
  deriving DecidableEq

/-- The fields of `struct LPSThread` the scheduler uses, with the pipe call that
its kernel stack holds while it is switched out. -/
structure LPSThread where
  state : LPSThreadState
  call : Option PipeCall
  deriving DecidableEq

/-- The wait queues: `readq` and `writeq` of each pipe. -/
inductive WaitQueue
  | readq (pipe : PipeId)
  | writeq (pipe : PipeId)
  deriving DecidableEq

/-- The scheduler's globals, its threads and the pipes. `current` is the thread
of `lps_cur_ctx()`, and `none` while the scheduler loop itself runs. -/
structure RRSched where
  runq : Queue
  current : Option Tid
  threads : Tid → LPSThread
  pipes : PipeId → Pipe

/-- What a pipe call does to memory outside the pipe, and its result. -/
inductive PipeObs
  /-- `memcpy` into the pipe of these bytes. -/
  | copied (pipe : PipeId) (bytes : List Byte)
  /-- `memcpy` out of the pipe of these bytes. -/
  | delivered (pipe : PipeId) (bytes : List Byte)
  /-- The sandbox side of a `memcpy` on behalf of thread `t`. -/
  | access (t : Tid) (addr : Word) (len : Nat)
  /-- The call of thread `t` returned to the sandbox. -/
  | returned (t : Tid) (value : Word)
  deriving DecidableEq

namespace RRSched

/-- Replace one pipe. -/
def setPipe (s : RRSched) (p : PipeId) (pipe : Pipe) : RRSched :=
  { s with pipes := Function.update s.pipes p pipe }

/-- Replace one thread. -/
def setThread (s : RRSched) (t : Tid) (thread : LPSThread) : RRSched :=
  { s with threads := Function.update s.threads t thread }

/-- The threads linked in a wait queue. -/
def waiting (s : RRSched) : WaitQueue → Queue
  | .readq p => (s.pipes p).readq
  | .writeq p => (s.pipes p).writeq

/-- Replace the threads linked in a wait queue. -/
def setWaiting (s : RRSched) (queue : Queue) : WaitQueue → RRSched
  | .readq p => s.setPipe p ((s.pipes p).setReadq queue)
  | .writeq p => s.setPipe p ((s.pipes p).setWriteq queue)

/-- `lps_thread_exit` and the rest of the loop body of `rrschedstart`: the loop
enqueues the thread it ran if that is still runnable. -/
def threadExit (s : RRSched) (t : Tid) : RRSched :=
  { s with
    current := none
    runq := if (s.threads t).state = .runnable then queueEnqueue s.runq t else s.runq }

/-- `rrschedblock`, called by thread `t` inside `call`. -/
def rrschedblock (s : RRSched) (t : Tid) (q : WaitQueue) (call : PipeCall) : RRSched :=
  let s := s.setThread t { state := .blocked, call := some call }
  let s := s.setWaiting (queueEnqueue (s.waiting q) t) q
  s.threadExit t

/-- The body of the loop of `rrschedwake`, for each thread it dequeues. -/
def wakeAll (s : RRSched) : Queue → RRSched
  | [] => s
  | t :: rest =>
      let s := s.setThread t { s.threads t with state := .runnable }
      wakeAll { s with runq := queueEnqueue s.runq t } rest

/-- `rrschedwake`: make every thread of the wait queue runnable. -/
def rrschedwake (s : RRSched) (q : WaitQueue) : RRSched :=
  wakeAll (s.setWaiting [] q) (s.waiting q)

end RRSched

/-- `memcpy(buf, pipe->data + pos, len)`; undefined outside the buffer. -/
def Pipe.copyOut (pipe : Pipe) (pos len : Word) : Option (List Byte) := do
  let data ← pipe.data
  if pos.toNat + len.toNat ≤ PIPESZ.toNat then some (load data pos.toNat len.toNat) else none

/-- `memcpy(pipe->data + pos, buf, len)`; undefined outside the buffer. -/
def Pipe.copyIn (pipe : Pipe) (pos : Word) (bytes : List Byte) : Option Pipe := do
  let data ← pipe.data
  if pos.toNat + bytes.length ≤ PIPESZ.toNat then
    some (pipe.setData (store data pos.toNat bytes))
  else none

/-- Length of the next chunk of a copy at ring position `pos` with `rest` bytes
to go: a chunk stops at the ring's end. -/
def chunkSize (pos rest : Word) : Word :=
  if pos + rest > PIPESZ then PIPESZ - pos else rest

/-- Number of bytes `pipe_read` copies. -/
def readSize (n avail : Word) : Word :=
  if n < avail then n else avail

/-- Number of bytes `pipe_write` tries to copy next: what is left of the buffer,
but no more than the free space of the ring. -/
def writeSize (rest availSpace : Word) : Word :=
  if rest > availSpace then availSpace else rest

theorem umod_PIPESZ_lt (counter : Word) : counter % PIPESZ < PIPESZ := by
  rw [BitVec.lt_def, BitVec.toNat_umod]
  exact Nat.mod_lt _ (by decide)

theorem chunkSize_le {pos : Word} (inside : pos < PIPESZ) (rest : Word) :
    chunkSize pos rest ≤ rest := by
  unfold chunkSize PIPESZ at *
  split <;> bv_omega

theorem chunkSize_pos {pos rest : Word} (inside : pos < PIPESZ) (pos_rest : 0 < rest) :
    0 < chunkSize pos rest := by
  unfold chunkSize PIPESZ at *
  split <;> bv_omega

theorem readSize_le_avail (n avail : Word) : readSize n avail ≤ avail := by
  unfold readSize
  split <;> bv_omega

theorem readSize_le_size (n avail : Word) : readSize n avail ≤ n := by
  unfold readSize
  split <;> bv_omega

theorem writeSize_le_rest (rest availSpace : Word) : writeSize rest availSpace ≤ rest := by
  unfold writeSize
  split <;> bv_omega

theorem writeSize_le_avail (rest availSpace : Word) :
    writeSize rest availSpace ≤ availSpace := by
  unfold writeSize
  split <;> bv_omega

theorem writeSize_pos {rest availSpace : Word} (pos_rest : 0 < rest)
    (pos_avail : availSpace ≠ 0) : 0 < writeSize rest availSpace := by
  unfold writeSize
  split <;> bv_omega

/-- Size of the next chunk of `pipe_read` with `rest` bytes to go. -/
def readChunk (pipe : Pipe) (rest : Word) : Word :=
  chunkSize (pipe.nread % PIPESZ) rest

/-- Size of the next chunk of `pipe_write` with `rest` bytes to go: `to_write`
is clipped to the free space, then to the ring's end. -/
def writeChunk (pipe : Pipe) (rest : Word) : Word :=
  chunkSize (pipe.nwrite % PIPESZ) (writeSize rest pipe.availSpace)

theorem readChunk_le (pipe : Pipe) (rest : Word) : readChunk pipe rest ≤ rest :=
  chunkSize_le (umod_PIPESZ_lt _) _

theorem readChunk_pos {pipe : Pipe} {rest : Word} (pos_rest : 0 < rest) :
    0 < readChunk pipe rest :=
  chunkSize_pos (umod_PIPESZ_lt _) pos_rest

theorem writeChunk_le (pipe : Pipe) (rest : Word) : writeChunk pipe rest ≤ rest :=
  BitVec.le_trans (chunkSize_le (umod_PIPESZ_lt _) _) (writeSize_le_rest _ _)

theorem writeChunk_le_availSpace (pipe : Pipe) (rest : Word) :
    writeChunk pipe rest ≤ pipe.availSpace :=
  BitVec.le_trans (chunkSize_le (umod_PIPESZ_lt _) _) (writeSize_le_avail _ _)

theorem writeChunk_pos {pipe : Pipe} {rest : Word} (pos_rest : 0 < rest)
    (notFull : pipe.availSpace ≠ 0) : 0 < writeChunk pipe rest :=
  chunkSize_pos (umod_PIPESZ_lt _) (writeSize_pos pos_rest notFull)

/-- A copy loop that advances by a nonempty chunk has less left to do. -/
theorem rest_decreases {done total chunk : Word} (pos : 0 < chunk)
    (le : chunk ≤ total - done) :
    (total - (done + chunk)).toNat < (total - done).toNat := by
  bv_omega

/-- The copy loop of `pipe_read`; `copied` of the `toRead` bytes are done. -/
def pipeReadCopy (t : Tid) (p : PipeId) (buf toRead : Word) (pipe : Pipe) (copied : Word) :
    Option (Pipe × List PipeObs) :=
  if _more : copied < toRead then do
    let bytes ← pipe.copyOut (pipe.nread % PIPESZ) (readChunk pipe (toRead - copied))
    let (pipe', obs) ← pipeReadCopy t p buf toRead
      (pipe.advanceRead (readChunk pipe (toRead - copied)))
      (copied + readChunk pipe (toRead - copied))
    some (pipe', .access t (buf + copied) bytes.length :: .delivered p bytes :: obs)
  else some (pipe, [])
termination_by (toRead - copied).toNat
decreasing_by exact rest_decreases (readChunk_pos (by bv_omega)) (readChunk_le _ _)

/-- `pipe_read` of thread `t`, from the head of its blocking loop. -/
def pipeRead (s : RRSched) (t : Tid) (p : PipeId) (buf n : Word) :
    Option (RRSched × List PipeObs) :=
  if (s.pipes p).nread = (s.pipes p).nwrite ∧ (s.pipes p).writeopen = true then
    some (s.rrschedblock t (.readq p) (.read p buf n), [])
  else do
    let toRead := readSize n (s.pipes p).avail
    let (pipe, obs) ← pipeReadCopy t p buf toRead (s.pipes p) 0
    some ((s.setPipe p pipe).rrschedwake (.writeq p), obs ++ [.returned t toRead])

/-- `pipe_write` of thread `t`, from the head of its loop with `written` of the
`n` bytes done; `src i` is byte `i` of the buffer. -/
def pipeWrite (s : RRSched) (t : Tid) (p : PipeId) (buf n : Word) (src : Nat → Byte)
    (written : Word) : Option (RRSched × List PipeObs) :=
  if _more : written < n then
    if (s.pipes p).readopen = false then
      some (s, [.returned t (-1)])
    else if _full : (s.pipes p).availSpace = 0 then
      some ((s.rrschedwake (.readq p)).rrschedblock t (.writeq p)
        (.write p buf n written), [])
    else do
      let bytes := load src written.toNat (writeChunk (s.pipes p) (n - written)).toNat
      let pipe ← (s.pipes p).copyIn ((s.pipes p).nwrite % PIPESZ) bytes
      let (s', obs) ← pipeWrite
        (s.setPipe p (pipe.advanceWrite (writeChunk (s.pipes p) (n - written))))
        t p buf n src (written + writeChunk (s.pipes p) (n - written))
      some (s', .access t (buf + written) bytes.length :: .copied p bytes :: obs)
  else some (s.rrschedwake (.readq p), [.returned t written])
termination_by (n - written).toNat
decreasing_by exact rest_decreases (writeChunk_pos (by bv_omega) _full) (writeChunk_le _ _)

/-- The threads that wait for what closing the end of a pipe brings about. -/
def WaitQueue.ofClosed (p : PipeId) (isRead : Bool) : WaitQueue :=
  if isRead then .writeq p else .readq p

/-- `pipe_close` of one end. -/
def pipeClose (s : RRSched) (p : PipeId) (isRead : Bool) : RRSched :=
  let s := (s.setPipe p ((s.pipes p).closeEnd isRead)).rrschedwake (.ofClosed p isRead)
  if !(s.pipes p).readopen && !(s.pipes p).writeopen then
    s.setPipe p (s.pipes p).release
  else s

/-! ## The system -/

/-- What the scheduler loop or the thread on the core does next. -/
inductive PipeEvent
  /-- The loop of `rrschedstart` runs the next thread of the run queue. -/
  | pick
  /-- The running sandbox calls `pipe_read`. -/
  | read (pipe : PipeId) (buf n : Word)
  /-- The running sandbox calls `pipe_write`. -/
  | write (pipe : PipeId) (buf n : Word) (src : Nat → Byte)
  /-- The running sandbox closes one end of a pipe. -/
  | close (pipe : PipeId) (isRead : Bool)
  /-- The thread switched to returns from `rrschedblock`; `src` is the buffer of
  a suspended write as the sandbox left it. -/
  | resume (src : Nat → Byte)
  /-- Runtime call `YIELD`, or a timer interrupt in user mode. -/
  | yield
  /-- `sys_exit`, after the descriptors have been closed. -/
  | exit

namespace RRSched

/-- The running thread, if it is in user mode. -/
def userThread (s : RRSched) : Option Tid :=
  s.current.filter fun t => (s.threads t).call.isNone

/-- Whether the end of a pipe is still open. -/
def endOpen (s : RRSched) (p : PipeId) (isRead : Bool) : Bool :=
  if isRead then (s.pipes p).readopen else (s.pipes p).writeopen

/-- One step of the round-robin system.  Each end of a pipe is closed at most
once: closing it again is not enabled. -/
def step : Step RRSched PipeEvent PipeObs := fun s event =>
  match event with
  | .pick =>
      match s.current, queueDequeue s.runq with
      | none, some (t, rest) => some ({ s with runq := rest, current := some t }, [])
      | _, _ => none
  | .read p buf n => do
      let t ← s.userThread
      pipeRead s t p buf n
  | .write p buf n src => do
      let t ← s.userThread
      pipeWrite s t p buf n src 0
  | .close p isRead => do
      let t ← s.userThread
      if s.endOpen p isRead then some (pipeClose s p isRead, [.returned t 0]) else none
  | .resume src => do
      let t ← s.current
      let call ← (s.threads t).call
      let s := s.setThread t { s.threads t with call := none }
      match call with
      | .read p buf n => pipeRead s t p buf n
      | .write p buf n written => pipeWrite s t p buf n src written
  | .yield => do
      let t ← s.userThread
      some (s.threadExit t, [])
  | .exit => do
      let t ← s.userThread
      some ((s.setThread t { state := .exited, call := none }).threadExit t, [])

/-- A pipe as `pipe_new` leaves it. -/
def newPipe (data : Nat → Byte) : Pipe where
  data := some data
  writeopen := true
  readopen := true
  allocated := true
  nread := 0
  nwrite := 0
  readq := []
  writeq := []

/-- Before `rrschedstart`: new pipes, and the threads added with `rrschedadd`. -/
def initial (added : List Tid) (data : PipeId → Nat → Byte) : RRSched where
  runq := added
  current := none
  threads := fun _ => { state := .runnable, call := none }
  pipes := fun p => newPipe (data p)

end RRSched

end Lps.Linux

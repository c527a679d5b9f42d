import Lps.Linux.FdLife
import Lps.Linux.PipeWake

/-!
# Pipes behind descriptors

The ends of a pipe are files: a sandbox reaches them through its descriptor table, and
`pipe_close` runs when `fdfree` closes the file of an end.  The host makes processes,
pipes and threads while the scheduler loop is not inside a thread.
-/

namespace Lps.Linux

open Lps.Core Lps.Transition

/-- The round-robin scheduler with its pipes, and the tables and files.  `ends` holds
the files of the ends that the last `lps_pipe_new` on each pipe made, `added` the
threads given to `rrschedadd`. -/
structure FdPipes where
  sched : RRSched
  world : FdWorld
  ends : PipeId → Bool → Option FileId
  added : List Tid

/-- What the host, the scheduler loop or the thread on the core does next. -/
inductive FdPipeEvent
  /-- The host calls `lps_proc_new`. -/
  | newProc (p : ProcId) (stdin stdout stderr : Int)
  /-- The host calls `lps_pipe_new`; `data` is what is in the buffer. -/
  | pipeNew (source : ProcId) (fromfd : Int) (target : ProcId) (tofd : Int)
      (data : Nat → Byte) (readJunk writeJunk : Junk)
  /-- The host calls `rrschedadd`, once for each thread. -/
  | add (t : Tid)
  | pick
  | resume (src : Nat → Byte)
  | yield
  | read (fd : Int) (bufp size : Word) (host : HostIO)
  | write (fd : Int) (bufp size : Word) (src : Nat → Byte) (host : HostIO)
  | openat (kfd : Int)
  | dup (oldfd : Int)
  | dup3 (oldfd newfd : Int) (flags : CInt)
  | close (fd : Int)
  | exit

/-- The host transfers no more than it was asked for. -/
def HostIO.Fits (size : Word) : HostIO → Prop
  | .done count => count ≤ size
  | .failed _ => True

instance (size : Word) : (host : HostIO) → Decidable (host.Fits size)
  | .done count => inferInstanceAs (Decidable (count ≤ size))
  | .failed _ => inferInstanceAs (Decidable True)

namespace FdPipes

/-- A `struct Pipe` of the static array `pipes`. -/
def unusedPipe : Pipe where
  data := none
  writeopen := false
  readopen := false
  allocated := false
  nread := 0
  nwrite := 0
  readq := []
  writeq := []

/-- Before the host does anything. -/
def init : FdPipes where
  sched :=
    { runq := []
      current := none
      threads := fun _ => { state := .runnable, call := none }
      pipes := fun _ => unusedPipe }
  world := .init
  ends := fun _ _ => none
  added := []

/-- The pipe that `pipe_new` takes. -/
def unallocated (s : FdPipes) : Option PipeId :=
  (List.finRange NPIPE).find? fun q => !(s.sched.pipes q).allocated

/-- `lps_pipe_new`. -/
def lpsPipeNew (s : FdPipes) (source : ProcId) (fromfd : Int) (target : ProcId) (tofd : Int)
    (data : Nat → Byte) (readJunk writeJunk : Junk) : Option FdPipes :=
  match s.unallocated with
  | none => some s
  | some q => do
      let readf := s.world.made
      let writef := s.world.made + 1
      let (ok, world, _) ← s.world.lpsPipeNew source fromfd target tofd q readJunk writeJunk
      some
        { s with
          sched := s.sched.setPipe q (RRSched.newPipe data)
          world
          ends := Function.update s.ends q fun isRead =>
            if ok then some (if isRead then readf else writef) else none }

/-- The tables as `sys_read` and `sys_write` see them. -/
def toLPSSys (s : FdPipes) : LPSSys where
  sched := s.sched
  fdtable := fun p fd => do
    let f ← s.world.table p fd
    let file ← s.world.files f
    some file.dev.ops

/-- `fdfree` calls the `close` function of each file: for an end of a pipe that is
`pipe_close`. -/
def closeEnds (s : RRSched) : List FdObs → RRSched
  | [] => s
  | .closed _ (.pipeEnd q isRead) :: rest => closeEnds (pipeClose s q isRead) rest
  | _ :: rest => closeEnds s rest

/-- Whether a transfer goes through a descriptor of a freed file. -/
def dangles (s : FdPipes) (p : ProcId) (fd : Int) : Bool :=
  (s.world.fdfget p fd).any fun f => (s.world.files f).isNone

/-- Go on with the scheduler state that a call leaves, if it has a result. -/
def goOn (s : FdPipes) : Option (RRSched × List PipeObs) → Option FdPipes × List PipeObs
  | none => (none, [])
  | some (sched, obs) => (some { s with sched }, obs)

/-- Go on with the tables that a call of thread `t` leaves, if it has a result. -/
def goOnWith (s : FdPipes) (t : Tid) : Option (Int × FdWorld) → Option FdPipes × List PipeObs
  | none => (none, [])
  | some (r, world) => (some { s with world }, [.returned t (BitVec.ofInt 64 r)])

section Calls

variable (proc : Tid → ProcId) (box : ProcId → BoxRange)

/-- `sys_read` or `sys_write` of thread `t`, where `call` is the one on a table without
freed files. -/
def transfer (s : FdPipes) (t : Tid) (fd : Int) (size : Word)
    (call : LPSSys → Option (LPSSys × List PipeObs)) : Option FdPipes × List PipeObs :=
  if size ≠ 0 ∧ s.dangles (proc t) fd = true then (none, [])
  else s.goOn ((call s.toLPSSys).map fun (sys, obs) => (sys.sched, obs))

/-- `sys_exit` of thread `t`. -/
def sysExit (s : FdPipes) (t : Tid) : Option FdPipes × List PipeObs :=
  match s.world.fdfree (proc t) with
  | none => (none, [])
  | some (world, obs) =>
      let sched := closeEnds (s.sched.setThread t { state := .exited, call := none }) obs
      (some { s with world, sched := sched.threadExit t }, [])

/-- The running thread, if it is in user mode and its process exists. -/
def userThread (s : FdPipes) : Option Tid :=
  s.sched.userThread.filter fun t => s.world.procs.contains (proc t)

/-- One step; the system is gone after one without a result. -/
def step : Step (Option FdPipes) FdPipeEvent PipeObs
  | none, _ => none
  | some s, event =>
      match event with
      | .newProc p stdin stdout stderr =>
          if s.sched.current = none ∧ p ∉ s.world.procs then
            let world := s.world.fdinit p stdin stdout stderr
            some (some { s with world := { world with procs := p :: world.procs } }, [])
          else none
      | .pipeNew source fromfd target tofd data readJunk writeJunk =>
          if s.sched.current = none ∧ source ∈ s.world.procs ∧ target ∈ s.world.procs then
            some (s.lpsPipeNew source fromfd target tofd data readJunk writeJunk, [])
          else none
      | .add t =>
          if s.sched.current = none ∧ t ∉ s.added then
            let sched := { s.sched with runq := queueEnqueue s.sched.runq t }
            some (some { s with sched, added := t :: s.added }, [])
          else none
      | .pick => (s.sched.step .pick).map fun result => s.goOn (some result)
      | .resume src => do
          let t ← s.sched.current
          let _ ← (s.sched.threads t).call
          some (s.goOn (s.sched.step (.resume src)))
      | .yield => do
          let _ ← s.userThread proc
          (s.sched.step .yield).map fun result => s.goOn (some result)
      | .read fd bufp size host => do
          let t ← s.userThread proc
          if host.Fits size then
            some (s.transfer proc t fd size fun sys => sysRead proc box sys t fd bufp size host)
          else none
      | .write fd bufp size src host => do
          let t ← s.userThread proc
          if host.Fits size then
            some (s.transfer proc t fd size fun sys => sysWrite proc box sys t fd bufp size src host)
          else none
      | .openat kfd => do
          let t ← s.userThread proc
          some (s.goOnWith t (s.world.sysOpenat (proc t) kfd))
      | .dup oldfd => do
          let t ← s.userThread proc
          some (s.goOnWith t (s.world.sysDup (proc t) oldfd))
      | .dup3 oldfd newfd flags => do
          let t ← s.userThread proc
          some (s.goOnWith t (s.world.sysDup3 (proc t) oldfd newfd flags))
      | .close fd => do
          let t ← s.userThread proc
          some (s.goOnWith t ((s.world.sysClose (proc t) fd).map fun (r, world, _) => (r, world)))
      | .exit => do
          let t ← s.userThread proc
          some (s.sysExit proc t)

end Calls

/-! ## What should hold -/

/-- Some process has a descriptor of the file. -/
def Open (s : FdPipes) (f : FileId) : Prop :=
  ∃ p ∈ s.world.procs, ∃ fd < LINUX_NOFILE, s.world.table p fd = some f

instance (s : FdPipes) (f : FileId) : Decidable (s.Open f) :=
  inferInstanceAs (Decidable (∃ p ∈ _, ∃ fd < LINUX_NOFILE, _))

/-- A thread is on the core, or in the run queue and runnable. -/
def Ready (s : RRSched) (t : Tid) : Prop :=
  (s.threads t).state = .runnable ∧ (t ∈ s.runq ∨ s.current = some t)

/-- Whoever waited to read a pipe is ready, a `pipe_read` does not block but returns what
is left, and it returns 0 when nothing is. -/
structure EndOfFile (s : RRSched) (q : PipeId) : Prop where
  woken : ∀ t buf n, (s.threads t).call = some (.read q buf n) → Ready s t
  returns : ∀ t buf n s' obs, pipeRead s t q buf n = some (s', obs) →
    s'.current = s.current ∧ .returned t (readSize n (s.pipes q).avail) ∈ obs
  drained : ∀ t buf n, (s.pipes q).nread = (s.pipes q).nwrite →
    ∃ s', s'.current = s.current ∧ pipeRead s t q buf n = some (s', [.returned t 0])

/-- Whoever waited to write to a pipe is ready, and a `pipe_write` fails as long as there
is something to write. -/
structure BrokenPipe (s : RRSched) (q : PipeId) : Prop where
  woken : ∀ t buf n written, (s.threads t).call = some (.write q buf n written) →
    Ready s t ∧ written < n
  fails : ∀ t buf n src written, written < n →
    pipeWrite s t q buf n src written = some (s, [.returned t (-1)])

/-- A pipe ends for the other side once the descriptors of an end are closed. -/
def HangsUp (s : FdPipes) : Prop :=
  ∀ q f, ¬s.Open f → (s.ends q false = some f → EndOfFile s.sched q) ∧
    (s.ends q true = some f → BrokenPipe s.sched q)

/-! ## The condition -/

/-- The pipe that a suspended read is from. -/
def readOf : PipeCall → Option PipeId
  | .read q _ _ => some q
  | .write _ _ _ _ => none

/-- A close finds a file it can lock, frees no wild path, and leaves the file of an end,
whose count is one, another descriptor. -/
def CloseOk (w : FdWorld) (p : ProcId) (fd : Int) (f : FileId) (file : OpenFile) : Prop :=
  match file.dev with
  | .host _ => file.refs - 1 = 0 ∨ file.path ≠ .wild
  | .pipeEnd _ _ =>
      file.refs = 1 ∧ ∃ fd' < LINUX_NOFILE, fd' ≠ fd.toNat ∧ w.table p fd' = some f

instance (w : FdWorld) (p : ProcId) (fd : Int) (f : FileId) (file : OpenFile) :
    Decidable (CloseOk w p fd f file) := by
  unfold CloseOk
  cases file.dev <;> infer_instance

section Condition

variable (proc : Tid → ProcId)

/-- A new pipe gets slots in range, and when the first one is free so is the second;
transfers, duplicates, closes and exits find their files on the heap, and mutexes and
paths in them; a close leaves an end of a pipe another descriptor and an exit finds each
file once; a read that is resumed does not find bytes in a buffer that has been freed. -/
def Tidy : Option FdPipes → FdPipeEvent → Prop
  | none, _ => True
  | some s, event =>
      match event with
      | .pipeNew source fromfd target tofd _ _ _ =>
          s.unallocated ≠ none → FdWorld.InRange tofd ∧
            (s.world.table target tofd.toNat = none →
              FdWorld.InRange fromfd ∧ s.world.table source fromfd.toNat = none ∧
                (target, tofd) ≠ (source, fromfd))
      | .resume _ =>
          ∀ t ∈ s.sched.current, ∀ q ∈ (s.sched.threads t).call.bind readOf,
            (s.sched.pipes q).data = none → (s.sched.pipes q).nread = (s.sched.pipes q).nwrite
      | .read fd _ size _ => ∀ t ∈ s.sched.current, size ≠ 0 → s.dangles (proc t) fd = false
      | .write fd _ size _ _ => ∀ t ∈ s.sched.current, size ≠ 0 → s.dangles (proc t) fd = false
      | .dup oldfd => ∀ t ∈ s.sched.current, s.world.DupLocks (proc t) oldfd (-1)
      | .dup3 oldfd newfd flags =>
          flags = 0 → ∀ t ∈ s.sched.current, s.world.DupLocks (proc t) oldfd newfd
      | .close fd =>
          ∀ t ∈ s.sched.current, ∀ f ∈ s.world.fdfget (proc t) fd, ∃ file ∈ s.world.lock f,
            CloseOk s.world (proc t) fd f file
      | .exit =>
          ∀ t ∈ s.sched.current, ∀ fd < LINUX_NOFILE, ∀ f ∈ s.world.table (proc t) fd,
            (∃ file ∈ s.world.files f, file.path ≠ .wild) ∧
              ∀ fd' < LINUX_NOFILE, s.world.table (proc t) fd' = some f → fd' = fd
      | _ => True

instance : ∀ state event, Decidable (Tidy proc state event)
  | none, _ => inferInstanceAs (Decidable True)
  | some _, .pipeNew .. => inferInstanceAs (Decidable (_ → _ ∧ (_ → _ ∧ _)))
  | some _, .resume _ => inferInstanceAs (Decidable (∀ t ∈ _, ∀ q ∈ _, _ → _))
  | some _, .read .. => inferInstanceAs (Decidable (∀ t ∈ _, _ → _))
  | some _, .write .. => inferInstanceAs (Decidable (∀ t ∈ _, _ → _))
  | some _, .dup _ => inferInstanceAs (Decidable (∀ t ∈ _, _))
  | some _, .dup3 .. => inferInstanceAs (Decidable (_ → ∀ t ∈ _, _))
  | some _, .close _ => inferInstanceAs (Decidable (∀ t ∈ _, ∀ f ∈ _, ∃ file ∈ _, _))
  | some _, .exit => inferInstanceAs (Decidable (∀ t ∈ _, ∀ fd < LINUX_NOFILE, ∀ f ∈ _,
      (∃ file ∈ _, _) ∧ ∀ fd' < LINUX_NOFILE, _))
  | some _, .newProc .. => inferInstanceAs (Decidable True)
  | some _, .add _ => inferInstanceAs (Decidable True)
  | some _, .pick => inferInstanceAs (Decidable True)
  | some _, .yield => inferInstanceAs (Decidable True)
  | some _, .openat _ => inferInstanceAs (Decidable True)

end Condition

end FdPipes

end Lps.Linux

import Lps.Core.Box
import Lps.Linux.Pipe

/-!
# The read and write system calls

`bufcheck` looks at the first and the last byte of a buffer.  Behind it,
`sys_read` and `sys_write` pass the buffer to the file's `read` or `write`
function: `kread` and `kwrite` hand it to the host, the ends of a pipe copy it
chunk by chunk.
-/

namespace Lps.Linux

open Lps.Core Lps.Transition

/-! ## Buffer checks -/

/-- `ptrcheck`. -/
def ptrcheck (box : LPSBoxInfo) (p : Word) : Bool := lpsBoxPtrvalid box p

/-- `bufcheck`. -/
def bufcheck (box : LPSBoxInfo) (p size align : Word) : Bool :=
  if !ptrcheck box p then false
  else if !ptrcheck box (p + size - 1) then false
  else if p % align ≠ 0 then false
  else true

/-- `bufhost`; `0` is the null pointer. -/
def bufhost (box : LPSBoxInfo) (p size align : Word) : Word :=
  if !bufcheck box p size align then 0 else p

/-! ## Files -/

/-- The functions a file can have as its `read`. -/
inductive FDRead
  | kread
  | pipeRead (pipe : PipeId)
  deriving DecidableEq

/-- The functions a file can have as its `write`. -/
inductive FDWrite
  | kwrite
  | pipeWrite (pipe : PipeId)
  deriving DecidableEq

/-- The two function pointers of `struct FDFile` that the calls use; `none` is a
null pointer. -/
structure FDFile where
  read : Option FDRead
  write : Option FDWrite
  deriving DecidableEq

/-- The file of a host descriptor, as `filenew` makes it. -/
def filenew : FDFile where
  read := some .kread
  write := some .kwrite

/-- One end of a pipe, as `pipe_new` makes it. -/
def pipeEnd (p : PipeId) (isRead : Bool) : FDFile where
  read := if isRead then some (.pipeRead p) else none
  write := if isRead then none else some (.pipeWrite p)

def LINUX_NOFILE : Nat := 1024

/-- `struct FDTable`. -/
abbrev FDTable := Nat → Option FDFile

/-- `fdfget`. -/
def fdfget (table : FDTable) (fd : Int) : Option FDFile :=
  if fd < 0 ∨ fd ≥ LINUX_NOFILE then none else table fd.toNat

def LINUX_EPERM : Word := 1

def LINUX_EBADF : Word := 9

def LINUX_EINVAL : Word := 22

/-- `LINUX_EBADF` where it is negated as an `int`. -/
def LINUX_BADF : Int := 9

/-- `LINUX_EINVAL` where it is negated as an `int`. -/
def LINUX_INVAL : Int := 22

/-- What the host's `read` or `write` does: transfer a number of bytes, or fail
with the value `host_err` returns for its error. -/
inductive HostIO
  | done (count : Word)
  | failed (value : Word)
  deriving DecidableEq

/-- `kread` and `kwrite` of thread `t`: the host touches no more of the buffer
than it was given. -/
def hostTransfer (t : Tid) (buf size : Word) : HostIO → Option (List PipeObs)
  | .done count =>
      if count ≤ size then some [.access t buf count.toNat, .returned t count] else none
  | .failed value => some [.returned t value]

/-! ## The calls -/

/-- The process of a thread. -/
abbrev ProcId := Nat

/-- The scheduler with its pipes, and the descriptor table of each process. -/
structure LPSSys where
  sched : RRSched
  fdtable : ProcId → FDTable

namespace LPSSys

/-- Continue with another scheduler state. -/
def withSched (s : LPSSys) (result : RRSched × List PipeObs) : LPSSys × List PipeObs :=
  ({ s with sched := result.1 }, result.2)

/-- Store a file in a descriptor table. -/
def assign (s : LPSSys) (proc : ProcId) (fd : Nat) (file : Option FDFile) : LPSSys :=
  let table := Function.update (s.fdtable proc) fd file
  { s with fdtable := Function.update s.fdtable proc table }

end LPSSys

section Calls

variable (proc : Tid → ProcId) (box : ProcId → BoxRange)

/-- What `sys_read` and `sys_write` have in common: the checks, then the file's
function `op` on the host buffer. -/
def sysTransfer {α : Type} (s : LPSSys) (t : Tid) (fd : Int) (bufp size : Word)
    (op : FDFile → Option α) (call : α → Word → Option (LPSSys × List PipeObs)) :
    Option (LPSSys × List PipeObs) :=
  if size = 0 then some (s, [.returned t 0])
  else match fdfget (s.fdtable (proc t)) fd with
    | none => some (s, [.returned t (-LINUX_EBADF)])
    | some f => match op f with
      | none => some (s, [.returned t (-LINUX_EPERM)])
      | some function =>
          let buf := bufhost (box (proc t)).toLPSBoxInfo bufp size 1
          if buf = 0 then some (s, [.returned t (-LINUX_EINVAL)])
          else call function buf

/-- `sys_read` of thread `t`. -/
def sysRead (s : LPSSys) (t : Tid) (fd : Int) (bufp size : Word) (host : HostIO) :
    Option (LPSSys × List PipeObs) :=
  sysTransfer proc box s t fd bufp size FDFile.read fun read buf =>
    match read with
    | .kread => (hostTransfer t buf size host).map fun obs => (s, obs)
    | .pipeRead p => (pipeRead s.sched t p buf size).map s.withSched

/-- `sys_write` of thread `t`; `src` is the memory behind the buffer. -/
def sysWrite (s : LPSSys) (t : Tid) (fd : Int) (bufp size : Word) (src : Nat → Byte)
    (host : HostIO) : Option (LPSSys × List PipeObs) :=
  sysTransfer proc box s t fd bufp size FDFile.write fun write buf =>
    match write with
    | .kwrite => (hostTransfer t buf size host).map fun obs => (s, obs)
    | .pipeWrite p => (pipeWrite s.sched t p buf size src 0).map s.withSched

/-- What happens next in a system of sandboxes that read and write. -/
inductive SysEvent
  /-- A step of the scheduler that is not a new `pipe_read` or `pipe_write`. -/
  | sched (event : PipeEvent)
  /-- Any change of the running thread's descriptor table. -/
  | assign (fd : Nat) (file : Option FDFile)
  | read (fd : Int) (bufp size : Word) (host : HostIO)
  | write (fd : Int) (bufp size : Word) (src : Nat → Byte) (host : HostIO)

/-- Whether the event is a new `pipe_read` or `pipe_write`. -/
def PipeEvent.isTransfer : PipeEvent → Bool
  | .read .. => true
  | .write .. => true
  | _ => false

/-- One step of the system. -/
def LPSSys.step : Step LPSSys SysEvent PipeObs := fun s event =>
  match event with
  | .sched event =>
      if event.isTransfer then none else (s.sched.step event).map s.withSched
  | .assign fd file => do
      let t ← s.sched.userThread
      some (s.assign (proc t) fd file, [])
  | .read fd bufp size host => do
      let t ← s.sched.userThread
      sysRead proc box s t fd bufp size host
  | .write fd bufp size src host => do
      let t ← s.sched.userThread
      sysWrite proc box s t fd bufp size src host

end Calls

end Lps.Linux

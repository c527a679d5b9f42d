import Lps.Linux.Proc
import Lps.Linux.Sys
import Lps.Transition.Run

/-!
# The memory system calls

A sandbox grows its heap, maps, unmaps and protects memory by system calls with
arguments of its choice.  A run of a process interleaves these calls with new
threads and with changes of the descriptor table.  The observations say what
reached the host, and whether the call returned or brought the runtime down.
-/

namespace Lps.Linux

open Lps.Core Lps.Program Lps.Transition

def LINUX_MAP_PRIVATE : CInt := 2

def LINUX_MAP_FIXED : CInt := 16

def LINUX_MAP_ANONYMOUS : CInt := 32

def LINUX_MAP_DENYWRITE : CInt := 2048

def LINUX_MAP_NORESERVE : CInt := 16384

namespace LPSProc

/-- `brkp` of `sys_brk`, clamped to the heap window. -/
def brkp (p : LPSProc) (addr : Word) : Word :=
  let brkp := if addr ≠ 0 then addr else p.brkbase + p.brksize
  let brkp := if brkp < p.brkbase then p.brkbase else brkp
  if brkp ≥ p.brkbase + p.opts.brksize then p.brkbase + p.opts.brksize else brkp

/-- The range `sys_brk` maps when the heap grows to `newsize`. -/
def growth (p : LPSProc) (newsize : Word) : Word × Word :=
  if p.brksize = 0 then (p.brkbase, newsize)
  else (ceilp (p.brkbase + p.brksize) (4 * 1024), newsize - p.brksize)

end LPSProc

/-- `sys_brk`. -/
def sysBrk (p : LPSProc) (addr : Word) : HostProg (Word × LPSProc) := do
  if addr ≠ 0 ∧ ptrcheck p.box.toLPSBoxInfo addr = false then return (-1, p)
  let newsize := p.brkp addr - p.brkbase
  Prog.check (newsize < p.opts.brksize) Fault.brkNewsize
  if newsize = p.brksize then return (p.brkp addr, p)
  if p.brkp addr ≥ p.brkbase + p.brksize then
    let (start, size) := p.growth newsize
    let (map, box) ← lpsBoxMapat p.box start size (PROT_READ ||| PROT_WRITE)
      (LINUX_MAP_PRIVATE ||| LINUX_MAP_ANONYMOUS) (-1) 0
    if map = -1 then return (-1, p.withBox box)
    return (p.brkbase + newsize, { p.withBox box with brksize := newsize })
  return (p.brkbase + newsize, { p with brksize := newsize })

/-- The flags `sys_mmap` rejects. -/
def illegalMask : CInt :=
  ~~~LINUX_MAP_ANONYMOUS &&& ~~~LINUX_MAP_PRIVATE &&& ~~~LINUX_MAP_NORESERVE &&&
    ~~~LINUX_MAP_DENYWRITE &&& ~~~LINUX_MAP_FIXED

/-- `sys_mmap`. -/
def sysMmap (p : LPSProc) (addrp length : Word) (prot flags : CInt) (fd : Int) (off : Word) :
    HostProg (Word × LPSProc) := do
  if length = 0 then return (BitVec.ofInt 64 (-LINUX_INVAL), p)
  let length := ceilp length (4 * 1024)
  if flags &&& illegalMask ≠ 0 then return (BitVec.ofInt 64 (-LINUX_INVAL), p)
  if flags &&& LINUX_MAP_FIXED ≠ 0 then
    let addrp := truncp addrp (4 * 1024)
    if ptrcheck p.box.toLPSBoxInfo addrp = false then return (-1, p)
    let (r, p) ← procMapat p addrp length prot flags fd off
    return (if r < 0 then BitVec.ofInt 64 r else addrp, p)
  let (r, addrp, p) ← procMapany p length prot flags fd off addrp
  return (if r < 0 then BitVec.ofInt 64 r else addrp, p)

/-- `sys_mprotect`. -/
def sysMprotect (p : LPSProc) (addrp length : Word) (prot : CInt) : HostProg Int := do
  if ptrcheck p.box.toLPSBoxInfo addrp = false then return -1
  lpsBoxMprotect p.box addrp length prot

/-- `sys_munmap`. -/
def sysMunmap (p : LPSProc) (addrp length : Word) : HostProg (Int × LPSProc) := do
  if ptrcheck p.box.toLPSBoxInfo addrp = false then return (-1, p)
  procUnmap p addrp length

/-- The memory system calls with their arguments. -/
inductive MemCall
  | brk (addr : Word)
  | mmap (addrp length : Word) (prot flags : CInt) (fd : Int) (off : Word)
  | mprotect (addrp length : Word) (prot : CInt)
  | munmap (addrp length : Word)
  deriving DecidableEq

/-- What `syshandle` does for a memory system call; an `int` result is widened
with its sign. -/
def MemCall.prog (p : LPSProc) : MemCall → HostProg (Word × LPSProc)
  | .brk addr => sysBrk p addr
  | .mmap addrp length prot flags fd off => sysMmap p addrp length prot flags fd off
  | .mprotect addrp length prot => do
      let r ← sysMprotect p addrp length prot
      return (BitVec.ofInt 64 r, p)
  | .munmap addrp length => do
      let (r, p) ← sysMunmap p addrp length
      return (BitVec.ofInt 64 r, p)

/-- The host around the runtime. -/
abbrev MemHost := Prog.Host HostCall HostReply

/-- What happens next to a loaded process. -/
inductive MemEvent
  /-- A memory system call, answered by a host. -/
  | syscall (call : MemCall) (host : MemHost)
  /-- Another thread is made, if the host lets it. -/
  | threadNew (host : MemHost)
  /-- Any change of the descriptor table. -/
  | assign (fd : Nat) (kfd : Option Int)

/-- What is seen of the runtime. -/
inductive MemObs
  | host (call : HostCall)
  | returned (value : Word)
  | down (reason : Fault)
  deriving DecidableEq

/-- A process, or nothing once the runtime is down. -/
abbrev MemState := Option LPSProc

/-- What a system call leads to. -/
def memResult : List HostCall × Except Fault (Word × LPSProc) → MemState × List MemObs
  | (calls, .ok (value, p)) => (some p, calls.map .host ++ [.returned value])
  | (calls, .error reason) => (none, calls.map .host ++ [.down reason])

/-- One step of a process. -/
def memStep : Step MemState MemEvent MemObs
  | none, _ => none
  | some p, .syscall call host => some (memResult ((call.prog p).run host []))
  | some p, .threadNew host =>
      match p.mapStack.run host [] with
      | (calls, .ok (_, p)) => some (some p, calls.map .host)
      | (_, .error _) => none
  | some p, .assign fd kfd => some (some { p with kfds := Function.update p.kfds fd kfd }, [])

end Lps.Linux

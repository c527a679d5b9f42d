import Lps.Linux.FileOps
import Lps.Linux.Getcwd

/-!
# System calls that fill in a structure

The calls of `sys_info.c`, `sys_time.c`, `sys_rand.c`, `sys_thread.c` and `sys_ptrctl.c` test a pointer
with the size and the alignment of a structure, ask the host, and store what it says.
-/

namespace Lps.Linux

open Lps.Core Lps.Memory Lps.Transition

/-! ## The host -/

/-- `struct TimeSpec`. -/
structure TimeSpec where
  sec : Word
  nsec : Word

/-- The fields of `struct SysInfo` that are copied from the host. -/
structure SysInfo where
  uptime : Word
  loads : Fin 3 → Word
  totalram : Word
  freeram : Word
  sharedram : Word
  bufferram : Word
  totalswap : Word
  freeswap : Word
  procs : BitVec 16
  totalhigh : Word
  freehigh : Word
  mem_unit : CInt

/-- What the host does in one call; errors are values of `errno`. -/
structure InfoHost where
  sysinfo : Except CInt SysInfo
  clockGettime : CInt → Except CInt TimeSpec
  /-- `none` when the time has passed. -/
  nanosleep : TimeSpec → Option CInt
  /-- What the local variable `rem` of `sys_nanosleep` holds when `nanosleep` has returned `0`, which
  stores nothing there. -/
  rem : TimeSpec
  getrandom : Word → CInt → Except CInt (List Byte)
  /-- The padding of a structure that is assigned. -/
  padding : Nat → Byte

/-! ## Threads and results -/

/-- The fields of `struct LPSThread` that the calls use. -/
structure InfoThread where
  tid : CInt
  ctidp : Word
  stackSize : Word

/-- What a call returns and leaves, where it reads or has the host read and write, and what is stored. -/
structure InfoResult where
  value : Word
  thread : InfoThread
  handed : List (Nat × Nat)
  stores : List (Memory.Block Byte)

/-- All ranges that a call touches. -/
def InfoResult.touched (r : InfoResult) : List (Nat × Nat) :=
  r.handed ++ r.stores.map fun block => (block.addr, block.data.length)

/-- A call that returns at once. -/
def InfoThread.returns (t : InfoThread) (value : Word) : InfoResult := ⟨value, t, [], []⟩

/-! ## Threads -/

/-- `sys_set_tid_address`. -/
def sysSetTidAddress (box : LPSBoxInfo) (t : InfoThread) (ctid : Word) : InfoResult :=
  if ptrcheck box ctid = false then t.returns (-LINUX_EINVAL)
  else { t with ctidp := ctid }.returns (t.tid.signExtend 64)

/-- `sys_gettid`. -/
def sysGettid (t : InfoThread) : InfoResult := t.returns (t.tid.signExtend 64)

def LINUX_PR_SET_NAME : CInt := 15

/-- `pr_set_name`; the log prints the name up to its terminator. -/
def prSetName (box : LPSBoxInfo) (verbose : Bool) (mem : Nat → Byte) (t : InfoThread) (namep : Word) :
    InfoResult :=
  let name := (bufhost box namep 16 1).toNat
  if name = 0 then t.returns (-LINUX_EINVAL)
  else
    let printed := (name, strnlen (fun i => mem (name + i)) (2 ^ 64 - name) + 1)
    ⟨0, t, if verbose then [printed] else [], []⟩

/-- `sys_prctl`. -/
def sysPrctl (box : LPSBoxInfo) (verbose : Bool) (mem : Nat → Byte) (t : InfoThread) (op : CInt)
    (arg2 : Word) : InfoResult :=
  if op = LINUX_PR_SET_NAME then prSetName box verbose mem t arg2
  else t.returns (-LINUX_EINVAL)

/-! ## Time -/

/-- Assign both fields. -/
def TimeSpec.stores (time : TimeSpec) (addr : Nat) : List (Memory.Block Byte) :=
  [⟨addr, wordBytes time.sec⟩, ⟨addr + 8, wordBytes time.nsec⟩]

/-- `sys_nanosleep`. -/
def sysNanosleep (box : LPSBoxInfo) (host : InfoHost) (mem : Nat → Byte) (t : InfoThread)
    (reqp remp : Word) : InfoResult :=
  let req := (bufhost box reqp 16 8).toNat
  if req = 0 then t.returns (-LINUX_EINVAL)
  else
    let handed := [(req, 8), (req + 8, 8)]
    match host.nanosleep ⟨wordAt mem req, wordAt mem (req + 8)⟩ with
    | some errno => ⟨hostErr errno, t, handed, []⟩
    | none =>
        if remp = 0 then ⟨0, t, handed, []⟩
        else
          let remu := (bufhost box remp 16 8).toNat
          if remu = 0 then ⟨-LINUX_EFAULT, t, handed, []⟩
          else ⟨0, t, handed, host.rem.stores remu⟩

/-- `sys_clock_gettime`. -/
def sysClockGettime (box : LPSBoxInfo) (host : InfoHost) (t : InfoThread) (clockid : CInt) (tp : Word) :
    InfoResult :=
  let ts := (bufhost box tp 16 8).toNat
  if ts = 0 then t.returns (-LINUX_EFAULT)
  else
    match host.clockGettime clockid with
    | .error errno => t.returns (hostErr errno)
    | .ok now => ⟨0, t, [], now.stores ts⟩

/-! ## Random bytes -/

def LINUX_GRND_NONBLOCK : CInt := 1

def LINUX_GRND_RANDOM : CInt := 2

def GRND_NONBLOCK : CInt := 1

def GRND_RANDOM : CInt := 2

/-- `randomflags`. -/
def randomflags (flags : CInt) : CInt :=
  (if flags &&& LINUX_GRND_RANDOM ≠ 0 then GRND_RANDOM else 0) |||
    if flags &&& LINUX_GRND_NONBLOCK ≠ 0 then GRND_NONBLOCK else 0

/-- `sys_getrandom`; the host fills no more of the buffer than it is given. -/
def sysGetrandom (box : LPSBoxInfo) (host : InfoHost) (t : InfoThread) (bufp buflen : Word)
    (flags : CInt) : InfoResult :=
  let buf := (bufhost box bufp buflen 1).toNat
  if buf = 0 then t.returns (-LINUX_EINVAL)
  else if flags &&& (~~~LINUX_GRND_RANDOM &&& ~~~LINUX_GRND_NONBLOCK) ≠ 0 then
    t.returns (-LINUX_EINVAL)
  else
    match host.getrandom buflen (randomflags flags) with
    | .error errno => ⟨hostErr errno, t, [(buf, buflen.toNat)], []⟩
    | .ok bytes =>
        let filled := bytes.take buflen.toNat
        ⟨BitVec.ofNat 64 filled.length, t, [(buf, buflen.toNat)], [⟨buf, filled⟩]⟩

/-! ## The system -/

/-- The characters of a string of the source. -/
def chars (s : String) : List Byte := s.toList.map fun c => BitVec.ofNat 8 c.toNat

/-- `strcpy` of a string of the source. -/
def strcpy (dst : Nat) (s : String) : Memory.Block Byte := ⟨dst, chars s ++ [0]⟩

def UTSNAME_LENGTH : Nat := 65

/-- The fields of `struct UTSName`, in order. -/
def utsname : List String := ["Linux LPS", "lps-sandbox", "4.5.0-lps", "0.0.0-unknown", "riscv64"]

/-- `sys_uname`; a `struct UTSName` has five fields. -/
def sysUname (box : LPSBoxInfo) (t : InfoThread) (bufp : Word) : InfoResult :=
  let uts := (bufhost box bufp 325 1).toNat
  if uts = 0 then t.returns (-LINUX_EINVAL)
  else ⟨0, t, [], utsname.mapIdx fun i s => strcpy (uts + UTSNAME_LENGTH * i) s⟩

/-- The fields of a `struct SysInfo` behind the loads. -/
def SysInfo.behindLoads (info : SysInfo) (padding : Nat → Byte) : List Byte :=
  [info.totalram, info.freeram, info.sharedram, info.bufferram, info.totalswap,
    info.freeswap].flatMap wordBytes ++
  littleEndian 2 info.procs.toNat ++ littleEndian 2 0 ++ (List.range 4).map padding ++
  [info.totalhigh, info.freehigh].flatMap wordBytes ++ littleEndian 4 info.mem_unit.toNat ++
  List.replicate 256 0 ++ (List.range 4).map fun i => padding (4 + i)

/-- A `struct SysInfo` in memory. -/
def SysInfo.bytes (info : SysInfo) (padding : Nat → Byte) : List Byte :=
  wordBytes info.uptime ++
    ([info.loads 0, info.loads 1, info.loads 2].flatMap wordBytes ++ info.behindLoads padding)

/-- The assignments to `*info`: first without the loads, then each of them. -/
def SysInfo.stores (info : SysInfo) (padding : Nat → Byte) (addr : Nat) : List (Memory.Block Byte) :=
  [⟨addr, { info with loads := fun _ => 0 }.bytes padding⟩, ⟨addr + 8, wordBytes (info.loads 0)⟩,
    ⟨addr + 16, wordBytes (info.loads 1)⟩, ⟨addr + 24, wordBytes (info.loads 2)⟩]

/-- `sys_sysinfo`; a `struct SysInfo` has 368 bytes and is aligned to eight. -/
def sysSysinfo (box : LPSBoxInfo) (host : InfoHost) (t : InfoThread) (infop : Word) : InfoResult :=
  let info := (bufhost box infop 368 8).toNat
  if info = 0 then t.returns (-LINUX_EINVAL)
  else
    match host.sysinfo with
    | .error errno => t.returns (hostErr errno)
    | .ok kinfo => ⟨0, t, [], kinfo.stores host.padding info⟩

def LINUX_RLIMIT_DATA : CInt := 2

def LINUX_RLIMIT_STACK : CInt := 3

def LINUX_RLIMIT_CORE : CInt := 4

def LINUX_RLIMIT_RSS : CInt := 5

def LINUX_RLIMIT_NOFILE : CInt := 7

def LINUX_RLIMIT_AS : CInt := 9

/-- The `switch` of `sys_getrlimit`: both limits of a resource. -/
def rlimit (box : LPSBoxInfo) (t : InfoThread) (resource : CInt) : Option Word :=
  if resource = LINUX_RLIMIT_STACK then some t.stackSize
  else if resource = LINUX_RLIMIT_AS then some box.size
  else if resource = LINUX_RLIMIT_CORE then some 0
  else if resource = LINUX_RLIMIT_RSS then some box.size
  else if resource = LINUX_RLIMIT_DATA then some box.size
  else if resource = LINUX_RLIMIT_NOFILE then some (BitVec.ofNat 64 LINUX_NOFILE)
  else none

/-- `sys_getrlimit`. -/
def sysGetrlimit (box : LPSBoxInfo) (t : InfoThread) (resource : CInt) (rlimp : Word) : InfoResult :=
  let rlim := (bufhost box rlimp 16 8).toNat
  if rlim = 0 then t.returns (-LINUX_EINVAL)
  else
    match rlimit box t resource with
    | none => t.returns (-LINUX_EINVAL)
    | some limit => ⟨0, t, [], [⟨rlim + 8, wordBytes limit⟩, ⟨rlim, wordBytes limit⟩]⟩

/-! ## All calls -/

/-- The calls with their arguments. -/
inductive InfoSyscall
  | setTidAddress (ctid : Word)
  | gettid
  | prctl (op : CInt) (arg2 : Word)
  | nanosleep (reqp remp : Word)
  | clockGettime (clockid : CInt) (tp : Word)
  | getrandom (bufp buflen : Word) (flags : CInt)
  | uname (bufp : Word)
  | sysinfo (infop : Word)
  | getrlimit (resource : CInt) (rlimp : Word)

/-- What `syshandle` does for a call of a thread. -/
def InfoSyscall.perform (call : InfoSyscall) (box : LPSBoxInfo) (verbose : Bool) (host : InfoHost)
    (mem : Nat → Byte) (t : InfoThread) : InfoResult :=
  match call with
  | .setTidAddress ctid => sysSetTidAddress box t ctid
  | .gettid => sysGettid t
  | .prctl op arg2 => sysPrctl box verbose mem t op arg2
  | .nanosleep reqp remp => sysNanosleep box host mem t reqp remp
  | .clockGettime clockid tp => sysClockGettime box host t clockid tp
  | .getrandom bufp buflen flags => sysGetrandom box host t bufp buflen flags
  | .uname bufp => sysUname box t bufp
  | .sysinfo infop => sysSysinfo box host t infop
  | .getrlimit resource rlimp => sysGetrlimit box t resource rlimp

/-- The threads of all sandboxes, and the memory. -/
structure InfoWorld where
  thread : Tid → InfoThread
  mem : Nat → Byte

/-- What happens next. -/
inductive InfoEvent
  | syscall (t : Tid) (call : InfoSyscall) (host : InfoHost)
  /-- A thread in user mode changes bytes of its box. -/
  | user (t : Tid) (bytes : Nat → Byte)

/-- The memory when the bytes of a box have changed to others. -/
def userMem (box : LPSBoxInfo) (bytes mem : Nat → Byte) (a : Nat) : Byte :=
  if box.base.toNat ≤ a ∧ a < box.base.toNat + box.size.toNat then bytes a else mem a

/-- One step; `verbose` is the option of the engine. -/
def InfoWorld.step (box : Tid → BoxRange) (verbose : Bool) : Step InfoWorld InfoEvent InfoResult :=
  fun w event =>
    match event with
    | .syscall t call host =>
        let r := call.perform (box t).toLPSBoxInfo verbose host w.mem (w.thread t)
        some (⟨Function.update w.thread t r.thread, Block.storeAll w.mem r.stores⟩, [r])
    | .user t bytes =>
        some (⟨w.thread, userMem (box t).toLPSBoxInfo bytes w.mem⟩, [])

end Lps.Linux

import Lps.Linux.Fd
import Lps.Linux.SysMem
import Lps.Program.Lift

/-!
# The system calls on files

A `struct FDFile` is a table of functions.  `filenew` fills it; `pipe_new` sets the fields
it needs in memory from `malloc` and leaves the others.  Each system call tests a field of
the file of its descriptor and calls through it.  A call goes down when it reads a field
that was never set, follows a pointer to a file that was freed, calls or follows a null
pointer, or fails an assertion.
-/

namespace Lps.Linux

open Lps.Core Lps.Program

/-! ## Files -/

/-- A field of a structure from `malloc`: it was set, or holds what was left there. -/
inductive Field (α : Type)
  | set (value : α)
  | junk
  deriving DecidableEq

/-- The functions of `kfile.c` and `sys_pipe.c` that files are made with. -/
inductive FDFunction
  | kread
  | kwrite
  | klseek
  | kclose
  | kstat
  | kgetdents
  | kfchown
  | kchmod
  | kftruncate
  | ksync
  | kioctl
  | pipeRead
  | pipeWrite
  | pipeClose
  deriving DecidableEq

/-- The functions of a `struct FDFile`, null or not, and its `kfd`. -/
structure FDSlots where
  read : Field (Option FDFunction)
  write : Field (Option FDFunction)
  lseek : Field (Option FDFunction)
  close : Field (Option FDFunction)
  stat_ : Field (Option FDFunction)
  getdents : Field (Option FDFunction)
  chown : Field (Option FDFunction)
  chmod : Field (Option FDFunction)
  truncate : Field (Option FDFunction)
  sync : Field (Option FDFunction)
  ioctl : Field (Option FDFunction)
  kfd : Field Int

/-- What `filenew` fills in. -/
def FDSlots.filenew (kfd : Int) : FDSlots where
  read := .set (some .kread)
  write := .set (some .kwrite)
  lseek := .set (some .klseek)
  close := .set (some .kclose)
  stat_ := .set (some .kstat)
  getdents := .set (some .kgetdents)
  chown := .set (some .kfchown)
  chmod := .set (some .kchmod)
  truncate := .set (some .kftruncate)
  sync := .set (some .ksync)
  ioctl := .set (some .kioctl)
  kfd := .set kfd

/-- What `pipe_new` sets for one end of a pipe. -/
def FDSlots.pipeNew (isRead : Bool) : FDSlots where
  read := .set (if isRead then some .pipeRead else none)
  write := .set (if isRead then none else some .pipeWrite)
  lseek := .junk
  close := .set (some .pipeClose)
  stat_ := .junk
  getdents := .junk
  chown := .junk
  chmod := .junk
  truncate := .junk
  sync := .junk
  ioctl := .junk
  kfd := .junk

/-- The fields of a file. -/
def FDDev.slots : FDDev → FDSlots
  | .host kfd => .filenew kfd
  | .pipeEnd _ isRead => .pipeNew isRead

/-- The function pointer behind a `read`. -/
def FDRead.function : FDRead → FDFunction
  | .kread => .kread
  | .pipeRead _ => .pipeRead

/-- The function pointer behind a `write`. -/
def FDWrite.function : FDWrite → FDFunction
  | .kwrite => .kwrite
  | .pipeWrite _ => .pipeWrite

/-- The functions its constructor installed. -/
def FDDev.installed (dev : FDDev) (function : FDFunction) : Prop :=
  .set (some function) ∈ [dev.slots.read, dev.slots.write, dev.slots.lseek, dev.slots.close,
    dev.slots.stat_, dev.slots.getdents, dev.slots.chown, dev.slots.chmod, dev.slots.truncate,
    dev.slots.sync, dev.slots.ioctl]

/-- What a descriptor refers to: nothing, a file that was freed, or a file. -/
inductive Descriptor
  | closed
  | freed
  | file (dev : FDDev)
  deriving DecidableEq

/-- What a system call on a file does to its surroundings. -/
inductive FileCall
  /-- A function of the file is called with its `dev` and these arguments. -/
  | function (dev : FDDev) (function : FDFunction) (args : List Word)
  /-- The host's `fstat`. -/
  | fstat (fd : Int)
  /-- The host's `fstatat` of the path that was copied from the sandbox. -/
  | fstatat (pathp : Word)
  /-- `errno` is read. -/
  | errno
  /-- Memory is allocated or mapped. -/
  | memory (c : HostCall)
  deriving DecidableEq

/-- The answers. -/
abbrev FileReply : FileCall → Type
  | .function .. => Word
  | .fstat .. => Int
  | .fstatat .. => Int
  | .errno => Int
  | .memory c => HostReply c

/-- How a system call on a file goes down. -/
inductive FileFault
  /-- A field is read that was never set. -/
  | junk
  /-- A freed file is dereferenced. -/
  | freedFile
  /-- A null file is dereferenced. -/
  | nullFile
  /-- A null function is called. -/
  | nullFunction
  /-- `assert(flags == 0)` of `host_fstatat`. -/
  | fstatatFlags
  /-- The runtime goes down while it manages memory. -/
  | memory (reason : Fault)
  deriving DecidableEq

/-- A system call on a file. -/
abbrev FileProg := Prog FileCall FileReply FileFault

/-- The memory of the host. -/
def memoryPart : Part HostCall HostReply Fault FileCall FileReply FileFault where
  call := .memory
  reply _ reply := reply
  fault := .memory

/-- A part of the runtime that manages memory. -/
def onMemory {α : Type} (prog : HostProg α) : FileProg α := prog.lift memoryPart

def LINUX_EFAULT : Word := 14

def LINUX_AT_FDCWD : Int := -100

def LINUX_AT_EMPTY_PATH : CInt := 0x1000

def LINUX_TIOCGWINSZ : Word := 0x5413

def SEEK_SET : Word := 0

def SEEK_CUR : Word := 1

/-- `host_err`, which passes on `ENOSYS`, `EINVAL`, `ENOENT`, `EBADF`, `EAGAIN`, `EPERM`,
`ENOMEM`, `EACCES`, `ENOTDIR`, `EMFILE` and `EFAULT`. -/
def hostErr (err : CInt) : Word :=
  if err ∈ ([38, 22, 2, 9, 11, 1, 12, 13, 20, 24, 14] : List CInt) then -err.signExtend 64
  else -LINUX_EINVAL

/-- `host_err(errno)`. -/
def hostErrno : FileProg Word := do
  let errno ← Prog.ask FileCall.errno
  return hostErr (BitVec.ofInt 32 errno)

/-- `host_fstatat`. -/
def hostFstatat (fd : Int) (pathp : Word) (flags : CInt) : FileProg Word := do
  let r ← if flags = LINUX_AT_EMPTY_PATH then Prog.ask (FileCall.fstat fd)
    else do
      Prog.check (flags = 0) FileFault.fstatatFlags
      Prog.ask (FileCall.fstatat pathp)
  if r < 0 then hostErrno else return 0

/-- `pathcopyresolve`: whether there is a path. -/
def pathcopyresolve (box : LPSBoxInfo) (pathp : Word) : FileProg Bool :=
  if ptrcheck box pathp then onMemory malloc else pure false

/-- `f->function(f->dev, args)`. -/
def callFunction (dev : FDDev) (slot : FDSlots → Field (Option FDFunction)) (args : List Word) :
    FileProg Word :=
  match slot dev.slots with
  | .junk => .fault .junk
  | .set none => .fault .nullFunction
  | .set (some function) => Prog.ask (FileCall.function dev function args)

/-- What most calls begin with: the file of the descriptor and one of its functions are
tested. -/
def Descriptor.test (d : Descriptor) (slot : FDSlots → Field (Option FDFunction))
    (rest : FDDev → FileProg Word) : FileProg Word :=
  match d with
  | .closed => pure (-LINUX_EBADF)
  | .freed => .fault .freedFile
  | .file dev =>
      match slot dev.slots with
      | .junk => .fault .junk
      | .set none => pure (-LINUX_EPERM)
      | .set (some _) => rest dev

/-- What some calls do: test a function and call it. -/
def Descriptor.call (d : Descriptor) (slot : FDSlots → Field (Option FDFunction))
    (args : List Word) : FileProg Word :=
  d.test slot fun dev => callFunction dev slot args

section Calls

variable (d : Descriptor) (box : LPSBoxInfo)

/-- What `sys_read` and `sys_write` have in common. -/
def Descriptor.transfer (slot : FDSlots → Field (Option FDFunction)) (bufp size : Word) :
    FileProg Word :=
  if size = 0 then pure 0
  else d.test slot fun dev =>
    if bufhost box bufp size 1 = 0 then pure (-LINUX_EINVAL)
    else callFunction dev slot [bufp, size]

namespace Descriptor

/-- `sys_read`. -/
def sysRead (bufp size : Word) : FileProg Word := d.transfer box FDSlots.read bufp size

/-- `sys_write`. -/
def sysWrite (bufp size : Word) : FileProg Word := d.transfer box FDSlots.write bufp size

/-- `sys_lseek`. -/
def sysLseek (offset : Word) (whence : CInt) : FileProg Word :=
  d.call FDSlots.lseek [offset, whence.signExtend 64]

/-- `sys_pread64`, which tests `read` twice instead of `read` and `lseek`. -/
def sysPread64 (bufp size offset : Word) : FileProg Word :=
  d.test FDSlots.read fun dev => do
    if bufhost box bufp size 1 = 0 then return -LINUX_EFAULT
    let orig ← callFunction dev FDSlots.lseek [0, SEEK_CUR]
    if orig.slt 0 then return hostErr (orig.setWidth 32)
    let _ ← callFunction dev FDSlots.lseek [offset, SEEK_SET]
    let n ← callFunction dev FDSlots.read [bufp, size]
    let _ ← callFunction dev FDSlots.lseek [orig, SEEK_SET]
    return n

/-- `sys_getdents64`; a `struct Dirent` is aligned to eight bytes. -/
def sysGetdents64 (dirp count : Word) : FileProg Word :=
  d.test FDSlots.getdents fun dev =>
    if bufhost box dirp count 8 = 0 then pure (-LINUX_EINVAL)
    else callFunction dev FDSlots.getdents [dirp, count]

/-- `sys_newfstatat`; a `struct Stat` has 128 bytes and is aligned to eight. -/
def sysNewfstatat (dirfd : Int) (pathp statbufp : Word) (flags : CInt) : FileProg Word := do
  if bufhost box statbufp 128 8 = 0 then return -LINUX_EINVAL
  if flags &&& LINUX_AT_EMPTY_PATH = 0 then
    if !(← pathcopyresolve box pathp) then return -LINUX_EINVAL
    if dirfd ≠ LINUX_AT_FDCWD then return -LINUX_EBADF
    hostFstatat LINUX_AT_FDCWD pathp flags
  else d.call FDSlots.stat_ [statbufp]

/-- `sys_fchmod`. -/
def sysFchmod (mode : CInt) : FileProg Word := d.call FDSlots.chmod [mode.setWidth 64]

/-- `sys_ftruncate`. -/
def sysFtruncate (length : Word) : FileProg Word := d.call FDSlots.truncate [length]

/-- `sys_fchown`. -/
def sysFchown (owner group : CInt) : FileProg Word :=
  d.call FDSlots.chown [owner.setWidth 64, group.setWidth 64]

/-- `sys_fsync`. -/
def sysFsync : FileProg Word := d.call FDSlots.sync []

/-- `sys_ioctl`; a `struct WinSize` has eight bytes and is aligned to two.  The window size
is written to memory of the runtime. -/
def sysIoctl (request va0 : Word) : FileProg Word := do
  if request ≠ LINUX_TIOCGWINSZ then return -LINUX_EINVAL
  if bufcheck box va0 8 2 = false then return -LINUX_EINVAL
  d.test FDSlots.ioctl fun dev => do
    let e ← callFunction dev FDSlots.ioctl [LINUX_TIOCGWINSZ]
    if e ≠ 0 then
      let errno ← Prog.ask FileCall.errno
      return BitVec.ofInt 64 (-errno)
    return 0

/-- `fdfget(&p->fdtable, fd)->kfd`, or `-1` when the mapping is for no file. -/
def hostFd (fd : Int) : FileProg Int :=
  if fd ≥ 0 then
    match d with
    | .closed => .fault .nullFile
    | .freed => .fault .freedFile
    | .file dev =>
        match dev.slots.kfd with
        | .junk => .fault .junk
        | .set kfd => pure kfd
  else pure (-1)

end Descriptor

end Calls

/-- `proc_mapany` for the files of the table. -/
def Descriptor.procMapany (d : Descriptor) (p : LPSProc) (size : Word) (prot flags : CInt) (fd : Int)
    (offset mapstart : Word) : FileProg (Int × Word × LPSProc) := do
  let kfd ← d.hostFd fd
  if fd ≥ 0 ∧ kfd = -1 then return (-LINUX_BADF, mapstart, p)
  let (addr, box) ← onMemory (lpsBoxMapany p.box size prot flags kfd offset)
  if addr = -1 then return (-LINUX_INVAL, mapstart, p.withBox box)
  return (0, addr, p.withBox box)

/-- `proc_mapat` for the files of the table. -/
def Descriptor.procMapat (d : Descriptor) (p : LPSProc) (start size : Word) (prot flags : CInt)
    (fd : Int) (offset : Word) : FileProg (Int × LPSProc) := do
  let kfd ← d.hostFd fd
  if fd ≥ 0 ∧ kfd = -1 then return (LINUX_BADF, p)
  let (addr, box) ← onMemory (lpsBoxMapat p.box start size prot flags kfd offset)
  if addr = -1 then return (-LINUX_INVAL, p.withBox box)
  return (0, p.withBox box)

/-- `sys_mmap` for the files of the table. -/
def Descriptor.sysMmap (d : Descriptor) (p : LPSProc) (addrp length : Word) (prot flags : CInt)
    (fd : Int) (off : Word) : FileProg (Word × LPSProc) := do
  if length = 0 then return (BitVec.ofInt 64 (-LINUX_INVAL), p)
  let length := ceilp length (4 * 1024)
  if flags &&& illegalMask ≠ 0 then return (BitVec.ofInt 64 (-LINUX_INVAL), p)
  if flags &&& LINUX_MAP_FIXED ≠ 0 then
    let addrp := truncp addrp (4 * 1024)
    if ptrcheck p.box.toLPSBoxInfo addrp = false then return (-1, p)
    let (r, p) ← d.procMapat p addrp length prot flags fd off
    return (if r < 0 then BitVec.ofInt 64 r else addrp, p)
  let (r, addrp, p) ← d.procMapany p length prot flags fd off addrp
  return (if r < 0 then BitVec.ofInt 64 r else addrp, p)

/-- The system calls on files, with their arguments. -/
inductive FileSyscall
  | read (fd : Int) (bufp size : Word)
  | write (fd : Int) (bufp size : Word)
  | lseek (fd : Int) (offset : Word) (whence : CInt)
  | pread64 (fd : Int) (bufp size offset : Word)
  | getdents64 (fd : Int) (dirp count : Word)
  | newfstatat (dirfd : Int) (pathp statbufp : Word) (flags : CInt)
  | fstat (fd : Int) (statbufp : Word)
  | fchmod (fd : Int) (mode : CInt)
  | ftruncate (fd : Int) (length : Word)
  | fchown (fd : Int) (owner group : CInt)
  | fsync (fd : Int)
  | ioctl (fd : Int) (request va0 : Word)
  | mmap (addrp length : Word) (prot flags : CInt) (fd : Int) (off : Word)
  deriving DecidableEq

namespace FileSyscall

/-- The descriptor of a call. -/
def fd : FileSyscall → Int
  | .read fd .. => fd
  | .write fd .. => fd
  | .lseek fd .. => fd
  | .pread64 fd .. => fd
  | .getdents64 fd .. => fd
  | .newfstatat dirfd .. => dirfd
  | .fstat fd .. => fd
  | .fchmod fd .. => fd
  | .ftruncate fd .. => fd
  | .fchown fd .. => fd
  | .fsync fd => fd
  | .ioctl fd .. => fd
  | .mmap _ _ _ _ fd _ => fd

/-- What `syshandle` does for a call, when its descriptor refers to `d`. -/
def prog (d : Descriptor) (p : LPSProc) : FileSyscall → FileProg Word
  | .read _ bufp size => d.sysRead p.box.toLPSBoxInfo bufp size
  | .write _ bufp size => d.sysWrite p.box.toLPSBoxInfo bufp size
  | .lseek _ offset whence => d.sysLseek offset whence
  | .pread64 _ bufp size offset => d.sysPread64 p.box.toLPSBoxInfo bufp size offset
  | .getdents64 _ dirp count => d.sysGetdents64 p.box.toLPSBoxInfo dirp count
  | .newfstatat dirfd pathp statbufp flags =>
      d.sysNewfstatat p.box.toLPSBoxInfo dirfd pathp statbufp flags
  | .fstat fd statbufp => d.sysNewfstatat p.box.toLPSBoxInfo fd 0 statbufp LINUX_AT_EMPTY_PATH
  | .fchmod _ mode => d.sysFchmod mode
  | .ftruncate _ length => d.sysFtruncate length
  | .fchown _ owner group => d.sysFchown owner group
  | .fsync _ => d.sysFsync
  | .ioctl _ request va0 => d.sysIoctl p.box.toLPSBoxInfo request va0
  | .mmap addrp length prot flags fd off => do
      let (r, _) ← d.sysMmap p addrp length prot flags fd off
      return r

end FileSyscall

end Lps.Linux

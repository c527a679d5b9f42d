import Lps.Linux.ElfLoad
import Lps.Linux.Sys

/-!
# Processes and their memory

A process has a box, the segments loaded into it, a heap that `sys_brk` grows
inside a window reserved at load time, and stacks at the end of the box.  Memory
is mapped for files through the host descriptors behind the open files.
-/

namespace Lps.Linux

open Lps.Core Lps.Program

/-- The fields of `struct LPSLinuxOpts` that size a process. -/
structure LPSLinuxOpts where
  stacksize : Word
  brksize : Word
  deriving DecidableEq

def BRKMAXSIZE : Word := 512 * 1024 * 1024

def STACKSIZE : Word := 2 * 1024 * 1024

/-- The options of the engine that `lps_linux_new` makes. -/
def lpsLinuxNew (opts : LPSLinuxOpts) : LPSLinuxOpts where
  brksize := if opts.brksize = 0 then BRKMAXSIZE else opts.brksize
  stacksize := if opts.stacksize = 0 then STACKSIZE else opts.stacksize

/-- `struct LPSProc`, with the options of its engine and the `kfd` of each of its
open files. -/
structure LPSProc extends ElfTarget where
  brkbase : Word
  brksize : Word
  entry : Word
  kfds : Nat → Option Int
  opts : LPSLinuxOpts

/-- `lps_proc_new` for a new box. -/
def lpsProcNew (box : LPSBoxInfo) (opts : LPSLinuxOpts) (kfds : Nat → Option Int) : LPSProc where
  box := box.track
  seginfo := []
  brkbase := 0
  brksize := 0
  entry := 0
  kfds := kfds
  opts := opts

namespace LPSProc

/-- The process with its box in another state. -/
def withBox (p : LPSProc) (box : LPSBox) : LPSProc := { p with box := box }

@[simp]
theorem withBox_box (p : LPSProc) (box : LPSBox) : (p.withBox box).box = box := rfl

@[simp]
theorem withBox_brkbase (p : LPSProc) (box : LPSBox) : (p.withBox box).brkbase = p.brkbase := rfl

@[simp]
theorem withBox_brksize (p : LPSProc) (box : LPSBox) : (p.withBox box).brksize = p.brksize := rfl

@[simp]
theorem withBox_opts (p : LPSProc) (box : LPSBox) : (p.withBox box).opts = p.opts := rfl

@[simp]
theorem withBox_kfds (p : LPSProc) (box : LPSBox) : (p.withBox box).kfds = p.kfds := rfl

/-- `proc_load`. -/
def procLoad (p : LPSProc) (buf : Buf) : HostProg (Bool × LPSProc) := do
  let (info, target) ← elfLoadOne p.toElfTarget buf p.box.base
  let p := { p with toElfTarget := target }
  match info with
  | none => return (false, p)
  | some info =>
      let p := { p with entry := info.entry, brkbase := info.last, brksize := 0 }
      let (brkregion, box) ← lpsBoxMapat p.box p.brkbase p.opts.brksize PROT_NONE
        (MAP_PRIVATE ||| MAP_ANONYMOUS) (-1) 0
      return (brkregion ≠ -1, p.withBox box)

/-- `lps_proc_load` of an image in memory. -/
def lpsProcLoad (p : LPSProc) (data : Nat → Byte) (size : Word) : HostProg (Bool × LPSProc) :=
  p.procLoad ⟨-1, data, size⟩

/-- `lps_proc_load_fd` of a file that the host maps for reading; `none` stands for
one it does not, as it refuses to map an empty one. -/
def lpsProcLoadFd (p : LPSProc) (fd : Int) (file : Option ((Nat → Byte) × Word)) :
    HostProg (Bool × LPSProc) :=
  match file with
  | none => pure (false, p)
  | some (data, size) => p.procLoad ⟨fd, data, size⟩

/-- Where `lps_thread_new` puts the stack of a thread. -/
def stackBase (p : LPSProc) : Word := p.box.base + p.box.size - p.opts.stacksize

/-- The mapping of the stack in `lps_thread_new`, and what it returns. -/
def stackMapat (p : LPSProc) : HostProg (Word × LPSProc) := do
  let (stack, box) ← lpsBoxMapat p.box p.stackBase p.opts.stacksize (PROT_READ ||| PROT_WRITE)
    (MAP_PRIVATE ||| MAP_ANONYMOUS) (-1) 0
  return (stack, p.withBox box)

/-- `lps_thread_new` with memory for the thread; the result says whether there is one. -/
def mapStack (p : LPSProc) : HostProg (Bool × LPSProc) := do
  let (stack, p) ← p.stackMapat
  return (stack ≠ -1, p)

/-- `fdfget`, as far as the `kfd` of the file it returns. -/
def fdfget (p : LPSProc) (fd : Int) : Option Int :=
  if fd < 0 ∨ fd ≥ LINUX_NOFILE then none else p.kfds fd.toNat

/-- The host descriptor that `proc_mapany` and `proc_mapat` use: `-1` when the
mapping is for no file, and otherwise `fdfget(&p->fdtable, fd)->kfd`. -/
def hostFd (p : LPSProc) (fd : Int) : HostProg Int :=
  if fd ≥ 0 then
    match p.fdfget fd with
    | none => .fault .nullFile
    | some kfd => pure kfd
  else pure (-1)

end LPSProc

/-- `proc_mapany`; the address is what it stores in `o_mapstart`. -/
def procMapany (p : LPSProc) (size : Word) (prot flags : CInt) (fd : Int) (offset : Word)
    (mapstart : Word) : HostProg (Int × Word × LPSProc) := do
  let kfd ← p.hostFd fd
  if fd ≥ 0 ∧ kfd = -1 then return (-LINUX_BADF, mapstart, p)
  let (addr, box) ← lpsBoxMapany p.box size prot flags kfd offset
  if addr = -1 then return (-LINUX_INVAL, mapstart, p.withBox box)
  return (0, addr, p.withBox box)

/-- `proc_mapat`. -/
def procMapat (p : LPSProc) (start size : Word) (prot flags : CInt) (fd : Int) (offset : Word) :
    HostProg (Int × LPSProc) := do
  let kfd ← p.hostFd fd
  if fd ≥ 0 ∧ kfd = -1 then return (LINUX_BADF, p)
  let (addr, box) ← lpsBoxMapat p.box start size prot flags kfd offset
  if addr = -1 then return (-LINUX_INVAL, p.withBox box)
  return (0, p.withBox box)

/-- `proc_unmap`. -/
def procUnmap (p : LPSProc) (start size : Word) : HostProg (Int × LPSProc) := do
  let (r, box) ← lpsBoxMunmap p.box start size
  return (r, p.withBox box)

end Lps.Linux

import Lps.Linux.Sys

/-!
# Descriptor tables and open files

A descriptor table has a pointer to a `struct FDFile` in each used slot.  Files
live on the heap with a reference count that not every operation maintains: a
pointer may outlive its file.  A step that dereferences such a pointer, locks
what is no mutex or frees what is no pointer has no result.
-/

namespace Lps.Linux

/-- A `struct FDFile *`: files are numbered in the order they are allocated. -/
abbrev FileId := Nat

/-- What a file is made for; it decides the functions of the file and their `dev`. -/
inductive FDDev
  /-- A host descriptor, with the functions of `filenew`. -/
  | host (kfd : Int)
  /-- One end of a pipe, with the functions of `pipe_new`. -/
  | pipeEnd (pipe : PipeId) (isRead : Bool)
  deriving DecidableEq

/-- The `read` and `write` functions of a file. -/
def FDDev.ops : FDDev → FDFile
  | .host _ => Linux.filenew
  | .pipeEnd pipe isRead => Linux.pipeEnd pipe isRead

/-- The `path` of a file; `wild` is neither null nor allocated. -/
inductive FDPath
  | null
  | owned
  | wild
  deriving DecidableEq

/-- A `struct FDFile` on the heap; `lockable` says whether `lk_refs` is a mutex that
can be locked. -/
structure OpenFile where
  dev : FDDev
  refs : Word
  path : FDPath
  lockable : Bool
  deriving DecidableEq

/-- The fields of a `struct FDFile` that `malloc` leaves and `pipe_new` does not set. -/
structure Junk where
  refs : Word
  path : FDPath
  lockable : Bool
  deriving DecidableEq

/-- The files on the heap, and the descriptor table of every process. -/
structure FdWorld where
  files : FileId → Option OpenFile
  made : FileId
  procs : List ProcId
  table : ProcId → Nat → Option FileId

/-- What is done to a file, and what a call returns. -/
inductive FdObs
  /-- The `close` function of the file is called. -/
  | closed (f : FileId) (dev : FDDev)
  | freed (f : FileId)
  | returned (value : Int)
  deriving DecidableEq

def LINUX_EMFILE : Int := 24

namespace FdWorld

/-- No process, and nothing on the heap. -/
def init : FdWorld where
  files := fun _ => none
  made := 0
  procs := []
  table := fun _ _ => none

/-- `t->files[fd] = f` in the table of a process. -/
def setSlot (w : FdWorld) (p : ProcId) (fd : Nat) (f : Option FileId) : FdWorld :=
  { w with table := Function.update w.table p (Function.update (w.table p) fd f) }

/-- Change a file, or free it. -/
def setFile (w : FdWorld) (f : FileId) (file : Option OpenFile) : FdWorld :=
  { w with files := Function.update w.files f file }

/-- Allocate a file. -/
def alloc (w : FdWorld) (file : OpenFile) : FileId × FdWorld :=
  (w.made, { w.setFile w.made (some file) with made := w.made + 1 })

/-- `filenew`. -/
def filenew (w : FdWorld) (kfd : Int) (path : FDPath) : FileId × FdWorld :=
  w.alloc ⟨.host kfd, 0, path, true⟩

/-- Lock `lk_refs` of a file. -/
def lock (w : FdWorld) (f : FileId) : Option OpenFile := (w.files f).filter OpenFile.lockable

/-- The first free slot of a table. -/
@[irreducible]
def firstFree (w : FdWorld) (p : ProcId) : Option Nat :=
  (List.range LINUX_NOFILE).find? fun i => (w.table p i).isNone

/-- Put a file into a slot and count the reference. -/
def fill (w : FdWorld) (p : ProcId) (i : Nat) (f : FileId) : Option (Int × FdWorld) := do
  let file ← w.lock f
  some (i, (w.setSlot p i (some f)).setFile f (some { file with refs := file.refs + 1 }))

/-- `fdfassign`. -/
def fdfassign (w : FdWorld) (p : ProcId) (f : FileId) : Option (Int × FdWorld) :=
  match w.firstFree p with
  | none => some (-1, w)
  | some i => w.fill p i f

/-- `fdassign`, which does not count the reference. -/
def fdassign (w : FdWorld) (p : ProcId) (fd : Int) (f : FileId) : Option (Int × FdWorld) :=
  if fd < 0 ∨ fd ≥ LINUX_NOFILE then none
  else if (w.table p fd.toNat).isSome then some (-1, w)
  else some (fd, w.setSlot p fd.toNat (some f))

/-- `fdfget`. -/
def fdfget (w : FdWorld) (p : ProcId) (fd : Int) : Option FileId :=
  if fd < 0 ∨ fd ≥ LINUX_NOFILE then none else w.table p fd.toNat

/-- `fdfdup2`. -/
def fdfdup2 (w : FdWorld) (p : ProcId) (oldfd newfd : Int) : Option (Int × FdWorld) :=
  if oldfd < 0 ∨ oldfd ≥ LINUX_NOFILE ∨ newfd < -1 ∨ newfd ≥ LINUX_NOFILE then
    some (-LINUX_BADF, w)
  else match w.table p oldfd.toNat with
    | none => some (-LINUX_BADF, w)
    | some f =>
        if newfd = -1 then
          match w.firstFree p with
          | none => some (-LINUX_EMFILE, w)
          | some i => w.fill p i f
        else if (w.table p newfd.toNat).isSome then some (-LINUX_BADF, w)
        else w.fill p newfd.toNat f

/-- `filefree`.  Every file has a `close` function, so the branch that calls it when
it is null is never taken.  The unlock of `lk_refs` on the way out of a call that has
freed the file is taken to do nothing. -/
def filefree (w : FdWorld) (f : FileId) : Option (FdWorld × List FdObs) := do
  let file ← w.lock f
  if file.refs - 1 = 0 then some (w.setFile f (some { file with refs := 0 }), [])
  else if file.path = .wild then none
  else some (w.setFile f none, [.freed f])

/-- `fdfclose`. -/
def fdfclose (w : FdWorld) (p : ProcId) (fd : Int) : Option (Bool × FdWorld × List FdObs) :=
  match w.fdfget p fd with
  | none => some (false, w, [])
  | some f => do
      let (w, obs) ← w.filefree f
      some (true, w.setSlot p fd.toNat none, obs)

/-- `fdinit`: the descriptors of the host's standard streams. -/
def fdinit (w : FdWorld) (p : ProcId) (stdin stdout stderr : Int) : FdWorld :=
  let w := { w with table := Function.update w.table p fun _ => none }
  let (f, w) := w.filenew stdin .null
  let w := w.setSlot p 0 (some f)
  let (f, w) := w.filenew stdout .null
  let w := w.setSlot p 1 (some f)
  let (f, w) := w.filenew stderr .null
  w.setSlot p 2 (some f)

/-- The body of the loop of `fdfree` for one slot. -/
def fdfreeSlot (w : FdWorld) (p : ProcId) (i : Nat) : Option (FdWorld × List FdObs) :=
  match w.table p i with
  | none => some (w, [])
  | some f => do
      let file ← w.files f
      if file.path = .wild then none
      else some ((w.setFile f none).setSlot p i none, [.closed f file.dev, .freed f])

/-- The loop of `fdfree` over these slots. -/
def fdfreeSlots (w : FdWorld) (p : ProcId) : List Nat → Option (FdWorld × List FdObs)
  | [] => some (w, [])
  | i :: rest => do
      let (w, obs) ← w.fdfreeSlot p i
      let (w, obs') ← w.fdfreeSlots p rest
      some (w, obs ++ obs')

/-- `fdfree`. -/
def fdfree (w : FdWorld) (p : ProcId) : Option (FdWorld × List FdObs) :=
  w.fdfreeSlots p (List.range LINUX_NOFILE)

/-- The file of one end of a pipe, as `pipe_new` makes it. -/
def pipeFile (pipe : PipeId) (isRead : Bool) (junk : Junk) : OpenFile :=
  ⟨.pipeEnd pipe isRead, junk.refs, junk.path, junk.lockable⟩

/-- `lps_pipe_new` with the files of `pipe_new`: the read end goes to one process, the
write end to another. -/
def lpsPipeNew (w : FdWorld) (source : ProcId) (fromfd : Int) (target : ProcId) (tofd : Int)
    (pipe : PipeId) (readJunk writeJunk : Junk) : Option (Bool × FdWorld × List FdObs) := do
  let (readf, w) := w.alloc (pipeFile pipe true readJunk)
  let (writef, w) := w.alloc (pipeFile pipe false writeJunk)
  let (r, w) ← w.fdassign target tofd readf
  let (r, w) ← if r < 0 then some (r, w) else w.fdassign source fromfd writef
  if r < 0 then
    some (false, (w.setFile readf none).setFile writef none, [.freed readf, .freed writef])
  else some (true, w, [])

/-! ## The calls of a process -/

/-- `sys_openat` when the host has opened the file. -/
def sysOpenat (w : FdWorld) (p : ProcId) (kfd : Int) : Option (Int × FdWorld) := do
  let (f, w) := w.filenew kfd .owned
  let (fd, w) ← w.fdfassign p f
  if fd < 0 then some (-LINUX_EMFILE, w) else some (fd, w)

/-- `sys_dup`. -/
def sysDup (w : FdWorld) (p : ProcId) (oldfd : Int) : Option (Int × FdWorld) :=
  w.fdfdup2 p oldfd (-1)

/-- `sys_dup3`. -/
def sysDup3 (w : FdWorld) (p : ProcId) (oldfd newfd : Int) (flags : CInt) :
    Option (Int × FdWorld) :=
  if flags ≠ 0 then some (-LINUX_INVAL, w) else w.fdfdup2 p oldfd newfd

/-- `sys_close`. -/
def sysClose (w : FdWorld) (p : ProcId) (fd : Int) : Option (Int × FdWorld × List FdObs) := do
  let (ok, w, obs) ← w.fdfclose p fd
  some (if ok then 0 else -LINUX_BADF, w, obs)

end FdWorld

end Lps.Linux

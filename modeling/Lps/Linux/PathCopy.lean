import Lps.Linux.FileOps
import Lps.Program.Loads

/-!
# The paths that are copied from the sandbox

`pathcopy` tests the address of the first byte of a path, and copies up to its terminator.  Every
load from the memory behind the pointer is a call here, and what the system calls do with the copies
is left to the host.
-/

namespace Lps.Linux.Path

open Lps.Core Lps.Program

/-- The size of a path in memory of the runtime. -/
def FILENAME_MAX : Nat := 4096

def LINUX_ENOENT : Word := 2

def LINUX_EMFILE : Word := 24

/-- What is done with paths that were copied. -/
inductive PathUse
  /-- `open(host_path, openflags(flags), mode)`. -/
  | open_ (flags mode : CInt)
  /-- `filenew(kfd, path)`; null when it fails. -/
  | filenew (kfd : Int)
  /-- `fdfassign` of the new file. -/
  | fdfassign
  | fstatat
  | mkdir (mode : CInt)
  | unlink
  | rename
  | truncate (length : Word)
  /-- `access(host_path, accessmode(mode))`. -/
  | access (mode : CInt)
  | readlink (buf size : Word)
  /-- `proc_chdir`. -/
  | procChdir

/-- What the system calls on paths do besides loading from the sandbox. -/
inductive PathCall
  | file (c : FileCall)
  | use (u : PathUse) (paths : List (List Byte))

/-- The answers. -/
abbrev PathReply : PathCall → Type
  | .file c => FileReply c
  | .use .. => Int

/-- A system call on paths. -/
abbrev PathProg := Prog (Loading Nat PathCall) (LoadReply Byte PathReply) FileFault

/-- What is done for files as well. -/
def filePart : Part FileCall FileReply FileFault PathCall PathReply FileFault where
  call := .file
  reply _ reply := reply
  fault := id

/-- What is done for files as well. -/
def onFile {α : Type} (prog : FileProg α) : PathProg α := (prog.lift filePart).lift otherPart

/-- The host uses paths. -/
def use (u : PathUse) (paths : List (List Byte)) : PathProg Int :=
  Prog.ask (Loading.other (PathCall.use u paths))

/-- `strncpy` from an address of the sandbox: all that is stored is `0` from the terminator on. -/
def strncpy (src : Nat) : Nat → PathProg (List Byte)
  | 0 => return []
  | n + 1 => do
      let c ← Prog.ask (Loading.load src)
      if c = 0 then return List.replicate (n + 1) 0
      let rest ← strncpy (src + 1) n
      return c :: rest

/-- `pathcopy`; `none` for the null pointer. -/
def pathcopy (box : LPSBoxInfo) (pathp : Word) : PathProg (Option (List Byte)) := do
  if ptrcheck box pathp = false then return none
  if !(← onFile (onMemory malloc)) then return none
  let host ← strncpy pathp.toNat (FILENAME_MAX - 1)
  return some (host ++ [0])

/-- `strncpy` inside the runtime. -/
def hostStrncpy : List Byte → Nat → List Byte
  | _, 0 => []
  | [], n + 1 => List.replicate (n + 1) 0
  | c :: path, n + 1 => if c = 0 then List.replicate (n + 1) 0 else c :: hostStrncpy path n

/-- `pathcopyresolve`: the path and `host_path`. -/
def pathcopyresolve (box : LPSBoxInfo) (pathp : Word) : PathProg (Option (List Byte × List Byte)) := do
  match ← pathcopy box pathp with
  | none => return none
  | some path => return some (path, hostStrncpy path FILENAME_MAX)

/-- `HOST_ERR`. -/
def hostErrOf (r : Int) : PathProg Word :=
  if r = -1 then onFile hostErrno else return BitVec.ofInt 64 r

/-- `host_fstatat` of a path that was copied. -/
def hostFstatat (fd : Int) (path : List Byte) (flags : CInt) : PathProg Word := do
  let r ← if flags = LINUX_AT_EMPTY_PATH then onFile (Prog.ask (FileCall.fstat fd))
    else do
      Prog.check (flags = 0) FileFault.fstatatFlags
      use .fstatat [path]
  if r < 0 then onFile hostErrno else return 0

section Calls

variable (d : Descriptor) (box : LPSBoxInfo)

/-- `sys_openat`. -/
def sysOpenat (dirfd : Int) (pathp : Word) (flags mode : CInt) : PathProg Word := do
  if dirfd ≠ LINUX_AT_FDCWD then return -LINUX_EBADF
  match ← pathcopyresolve box pathp with
  | none => return -LINUX_ENOENT
  | some (path, hostPath) =>
      let kfd ← use (.open_ flags mode) [hostPath]
      if kfd < 0 then onFile hostErrno
      else
        if (← use (.filenew kfd) [path]) = 0 then return -LINUX_ENOENT
        let fd ← use .fdfassign []
        if fd < 0 then return -LINUX_EMFILE
        return BitVec.ofInt 64 fd

/-- `sys_newfstatat`. -/
def sysNewfstatat (dirfd : Int) (pathp statbufp : Word) (flags : CInt) : PathProg Word := do
  if bufhost box statbufp 128 8 = 0 then return -LINUX_EINVAL
  if flags &&& LINUX_AT_EMPTY_PATH = 0 then
    match ← pathcopyresolve box pathp with
    | none => return -LINUX_EINVAL
    | some (_, hostPath) =>
        if dirfd ≠ LINUX_AT_FDCWD then return -LINUX_EBADF
        hostFstatat LINUX_AT_FDCWD hostPath flags
  else onFile (d.call FDSlots.stat_ [statbufp])

/-- What most calls do with a path. -/
def withPath (pathp : Word) (rest : List Byte → PathProg Word) : PathProg Word := do
  match ← pathcopyresolve box pathp with
  | none => return -LINUX_EINVAL
  | some (_, hostPath) => rest hostPath

/-- `sys_truncate`. -/
def sysTruncate (pathp length : Word) : PathProg Word :=
  withPath box pathp fun hostPath => do
    hostErrOf (← use (.truncate length) [hostPath])

/-- `sys_mkdirat`. -/
def sysMkdirat (dirfd : Int) (pathp : Word) (mode : CInt) : PathProg Word := do
  if dirfd ≠ LINUX_AT_FDCWD then return -LINUX_EBADF
  withPath box pathp fun hostPath => do
    hostErrOf (← use (.mkdir mode) [hostPath])

/-- `sys_unlinkat`. -/
def sysUnlinkat (dirfd : Int) (pathp : Word) (flags : CInt) : PathProg Word := do
  if dirfd ≠ LINUX_AT_FDCWD then return -LINUX_EBADF
  if flags ≠ 0 then return -LINUX_EINVAL
  withPath box pathp fun hostPath => do
    hostErrOf (← use .unlink [hostPath])

/-- `sys_renameat`. -/
def sysRenameat (olddir : Int) (oldpathp : Word) (newdir : Int) (newpathp : Word) : PathProg Word := do
  if olddir ≠ LINUX_AT_FDCWD ∨ newdir ≠ LINUX_AT_FDCWD then return -LINUX_EBADF
  withPath box oldpathp fun oldHostPath =>
    withPath box newpathp fun newHostPath => do
      hostErrOf (← use .rename [oldHostPath, newHostPath])

/-- `sys_renameat2`. -/
def sysRenameat2 (olddir : Int) (oldpathp : Word) (newdir : Int) (newpathp : Word) (flags : CInt) :
    PathProg Word := do
  if flags ≠ 0 then return -LINUX_EINVAL
  sysRenameat box olddir oldpathp newdir newpathp

/-- `sys_faccessat`. -/
def sysFaccessat (dirfd : Int) (pathp : Word) (mode : CInt) : PathProg Word := do
  if dirfd ≠ LINUX_AT_FDCWD then return -LINUX_EBADF
  withPath box pathp fun hostPath => do
    hostErrOf (← use (.access mode) [hostPath])

/-- `sys_readlinkat`. -/
def sysReadlinkat (dirfd : Int) (pathp bufp size : Word) : PathProg Word := do
  if dirfd ≠ LINUX_AT_FDCWD then return -LINUX_EBADF
  withPath box pathp fun hostPath => do
    if bufhost box bufp size 1 = 0 then return -LINUX_EINVAL
    hostErrOf (← use (.readlink bufp size) [hostPath])

/-- `sys_chdir`. -/
def sysChdir (pathp : Word) : PathProg Word := do
  match ← pathcopy box pathp with
  | none => return -LINUX_EINVAL
  | some path => return BitVec.ofInt 64 (← use .procChdir [path])

end Calls

/-- The system calls on paths, with their arguments. -/
inductive PathSyscall
  | openat (dirfd : Int) (pathp : Word) (flags mode : CInt)
  | newfstatat (dirfd : Int) (pathp statbufp : Word) (flags : CInt)
  | truncate (pathp length : Word)
  | mkdirat (dirfd : Int) (pathp : Word) (mode : CInt)
  | unlinkat (dirfd : Int) (pathp : Word) (flags : CInt)
  | renameat (olddir : Int) (oldpathp : Word) (newdir : Int) (newpathp : Word)
  | renameat2 (olddir : Int) (oldpathp : Word) (newdir : Int) (newpathp : Word) (flags : CInt)
  | faccessat (dirfd : Int) (pathp : Word) (mode : CInt)
  | readlinkat (dirfd : Int) (pathp bufp size : Word)
  | chdir (pathp : Word)

namespace PathSyscall

/-- What `syshandle` does for a call, when `dirfd` refers to `d`. -/
def prog (d : Descriptor) (box : LPSBoxInfo) : PathSyscall → PathProg Word
  | .openat dirfd pathp flags mode => sysOpenat box dirfd pathp flags mode
  | .newfstatat dirfd pathp statbufp flags => sysNewfstatat d box dirfd pathp statbufp flags
  | .truncate pathp length => sysTruncate box pathp length
  | .mkdirat dirfd pathp mode => sysMkdirat box dirfd pathp mode
  | .unlinkat dirfd pathp flags => sysUnlinkat box dirfd pathp flags
  | .renameat olddir oldpathp newdir newpathp => sysRenameat box olddir oldpathp newdir newpathp
  | .renameat2 olddir oldpathp newdir newpathp flags =>
      sysRenameat2 box olddir oldpathp newdir newpathp flags
  | .faccessat dirfd pathp mode => sysFaccessat box dirfd pathp mode
  | .readlinkat dirfd pathp bufp size => sysReadlinkat box dirfd pathp bufp size
  | .chdir pathp => sysChdir box pathp

/-- The pointers to the paths that a call copies, in order, as long as they are valid. -/
def copied (box : LPSBoxInfo) : PathSyscall → List Word
  | .openat dirfd pathp _ _ => if dirfd ≠ LINUX_AT_FDCWD then [] else [pathp]
  | .newfstatat _ pathp statbufp flags =>
      if bufhost box statbufp 128 8 = 0 ∨ flags &&& LINUX_AT_EMPTY_PATH ≠ 0 then [] else [pathp]
  | .truncate pathp _ => [pathp]
  | .mkdirat dirfd pathp _ => if dirfd ≠ LINUX_AT_FDCWD then [] else [pathp]
  | .unlinkat dirfd pathp flags => if dirfd ≠ LINUX_AT_FDCWD ∨ flags ≠ 0 then [] else [pathp]
  | .renameat olddir oldpathp newdir newpathp =>
      if olddir ≠ LINUX_AT_FDCWD ∨ newdir ≠ LINUX_AT_FDCWD then [] else [oldpathp, newpathp]
  | .renameat2 olddir oldpathp newdir newpathp flags =>
      if flags ≠ 0 ∨ olddir ≠ LINUX_AT_FDCWD ∨ newdir ≠ LINUX_AT_FDCWD then []
      else [oldpathp, newpathp]
  | .faccessat dirfd pathp _ => if dirfd ≠ LINUX_AT_FDCWD then [] else [pathp]
  | .readlinkat dirfd pathp _ _ => if dirfd ≠ LINUX_AT_FDCWD then [] else [pathp]
  | .chdir pathp => [pathp]

end PathSyscall

/-! ## What a copy reads -/

/-- Paths are read from the box only: every load is from there, and memory that differs outside of
the box makes no difference. -/
structure Confined (box : LPSBoxInfo) (mem : Nat → Byte) {α : Type} (p : PathProg α) : Prop where
  reads : ∀ host : Prog.Host (Loading Nat PathCall) (LoadReply Byte PathReply), host.Holds mem →
    ∀ addr, .load addr ∈ (p.run host []).1 → addr ∈ box.bytes
  same : ∀ mem', (∀ addr ∈ box.bytes, mem addr = mem' addr) →
    ∀ (σ : Type) (env : Handler PathCall PathReply σ) (s : σ),
      p.play (withMemory mem env) s = p.play (withMemory mem' env) s

/-- In the box the path ends, or what is copied of it does. -/
def EndsInBox (box : LPSBoxInfo) (mem : Nat → Byte) (pathp : Word) : Prop :=
  pathp.toNat + (FILENAME_MAX - 1) ≤ box.base.toNat + box.size.toNat ∨
    ∃ k, pathp.toNat + k < box.base.toNat + box.size.toNat ∧ mem (pathp.toNat + k) = 0

/-- Every path that is copied ends in the box, up to the first pointer that is not valid. -/
def AllEndInBox (box : LPSBoxInfo) (mem : Nat → Byte) : List Word → Prop
  | [] => True
  | pathp :: rest => ptrcheck box pathp = true → EndsInBox box mem pathp ∧ AllEndInBox box mem rest

/-- What `strncpy` stores. -/
def stored (mem : Nat → Byte) (src : Nat) : Nat → List Byte
  | 0 => []
  | n + 1 => if mem src = 0 then List.replicate (n + 1) 0 else mem src :: stored mem (src + 1) n

section Reads

variable {box : BoxRange} {mem : Nat → Byte} {α β : Type} {p : PathProg α} {pathp : Word}

theorem pathReply_nonempty (c : PathCall) : Nonempty (PathReply c) := by
  cases c with
  | use u paths => exact ⟨(0 : Int)⟩
  | file c =>
      cases c with
      | function dev function args => exact ⟨(0 : Word)⟩
      | fstat fd => exact ⟨(0 : Int)⟩
      | fstatat pathp => exact ⟨(0 : Int)⟩
      | errno => exact ⟨(0 : Int)⟩
      | memory c =>
          cases c with
          | malloc => exact ⟨false⟩
          | mmap addr len prot flags fd off => exact ⟨(0 : Word)⟩
          | mprotect addr len prot => exact ⟨(0 : Int)⟩
          | memcpy dst len => exact ⟨⟨⟩⟩
          | memset dst len => exact ⟨⟨⟩⟩

/-- The loads decide. -/
theorem confined_iff {box : LPSBoxInfo} :
    Confined box mem p ↔ p.Meets (readsIn box.bytes mem) fun _ => True := by
  rw [Prog.meets_readsIn_iff pathReply_nonempty]
  constructor
  · exact Confined.reads
  · intro inside
    refine ⟨inside, fun mem' agree σ env s => ?_⟩
    exact ((Prog.meets_readsIn_iff pathReply_nonempty).mpr inside).play_agree agree

/-- What is done for files does not load. -/
theorem onFile_meets {prog : FileProg α} {region : Set Nat} :
    (onFile prog).Meets (readsIn region mem) fun _ => True :=
  Prog.meets_otherPart

/-- `strncpy` reads up to the terminator. -/
theorem strncpy_meets {lo hi src n : Nat} {post : List Byte → Prop} (above : lo ≤ src)
    (below : src ≤ hi) :
    (strncpy src n).Meets (readsIn (Set.Ico lo hi) mem) post ↔
      (src + n ≤ hi ∨ ∃ k, src + k < hi ∧ mem (src + k) = 0) ∧ post (stored mem src n) := by
  induction n generalizing src post with
  | zero => exact ⟨fun holds => ⟨.inl below, holds⟩, And.right⟩
  | succ n ih =>
      have load : (strncpy src (n + 1)).Meets (readsIn (Set.Ico lo hi) mem) post ↔
          src < hi ∧ (if mem src = 0 then pure (List.replicate (n + 1) 0) else
            strncpy (src + 1) n >>= fun rest => pure (mem src :: rest) : PathProg (List Byte)).Meets
              (readsIn (Set.Ico lo hi) mem) post := by
        rw [strncpy, Prog.meets_bind, Prog.meets_ask]
        constructor
        · rintro ⟨inside, rest⟩
          exact ⟨inside.2, rest _ rfl⟩
        · rintro ⟨inside, rest⟩
          refine ⟨⟨above, inside⟩, ?_⟩
          rintro _ rfl
          exact rest
      rw [load, stored]
      by_cases last : mem src = 0
      · rw [if_pos last, if_pos last, Prog.meets_pure]
        apply and_congr_left
        intro _
        constructor
        · exact fun inside => .inr ⟨0, inside, last⟩
        · rintro (whole | ⟨k, inside, -⟩)
          · omega
          · omega
      · rw [if_neg last, if_neg last, Prog.meets_bind]
        constructor
        · rintro ⟨inside, rest⟩
          obtain ⟨ends, holds⟩ := (ih (by omega) inside).mp rest
          refine ⟨?_, holds⟩
          rcases ends with whole | ⟨k, less, zero⟩
          · exact .inl (by omega)
          · rw [Nat.succ_add] at less zero
            exact .inr ⟨k + 1, less, zero⟩
        · rintro ⟨ends, holds⟩
          have inside : src < hi := by
            rcases ends with whole | ⟨k, less, -⟩
            · omega
            · omega
          refine ⟨inside, (ih (by omega) inside).mpr ⟨?_, holds⟩⟩
          rcases ends with whole | ⟨k, less, zero⟩
          · exact .inl (by omega)
          · cases k with
            | zero => exact absurd zero last
            | succ k =>
                rw [← Nat.add_assoc, Nat.add_right_comm] at less zero
                exact .inr ⟨k, less, zero⟩

/-- `pathcopy` reads the path up to its terminator, or copies nothing. -/
theorem pathcopy_meets {post : Option (List Byte) → Prop} (none : post none) :
    (pathcopy box.toLPSBoxInfo pathp).Meets (readsIn box.bytes mem) post ↔
      (ptrcheck box.toLPSBoxInfo pathp = true →
        EndsInBox box.toLPSBoxInfo mem pathp ∧
          post (some (stored mem pathp.toNat (FILENAME_MAX - 1) ++ [0]))) := by
  unfold pathcopy
  split
  · rename_i invalid
    exact iff_of_true none fun valid => absurd (invalid.symm.trans valid) (by decide)
  · rename_i checked
    have valid := Bool.eq_true_of_not_eq_false checked
    obtain ⟨inBox, noWrap⟩ := lpsBoxPtrvalid_iff.mp valid
    rw [LPSBoxInfo.bytes, bytesAt, Set.mem_Ico] at inBox
    have copy := @strncpy_meets mem _ _ pathp.toNat (FILENAME_MAX - 1)
      (fun host => post (some (host ++ [0]))) inBox.1 (Nat.le_of_lt inBox.2)
    have asks : (onFile (onMemory malloc) >>= fun memory => if !memory then pure Option.none else
        strncpy pathp.toNat (FILENAME_MAX - 1) >>= fun host => pure (some (host ++ [0])) :
          PathProg (Option (List Byte))).Meets (readsIn box.bytes mem) post ↔
        (strncpy pathp.toNat (FILENAME_MAX - 1) >>= fun host => pure (some (host ++ [0])) :
          PathProg (Option (List Byte))).Meets (readsIn box.bytes mem) post := by
      rw [Prog.meets_bind]
      constructor
      · intro holds
        exact holds.2 true trivial
      · intro holds
        refine ⟨trivial, fun memory _ => ?_⟩
        cases memory with
        | false => exact none
        | true => exact holds
    rw [asks, Prog.meets_bind]
    refine Iff.trans copy ?_
    exact ⟨fun holds _ => holds, fun holds => holds valid⟩

/-- A call that copies a path and goes on. -/
theorem pathcopyresolve_meets {rest : Option (List Byte × List Byte) → PathProg Word}
    (none : (rest none).Meets (readsIn box.bytes mem) fun _ => True) :
    (pathcopyresolve box.toLPSBoxInfo pathp >>= rest).Meets (readsIn box.bytes mem) (fun _ => True) ↔
      (ptrcheck box.toLPSBoxInfo pathp = true → EndsInBox box.toLPSBoxInfo mem pathp ∧
        (rest (some (stored mem pathp.toNat (FILENAME_MAX - 1) ++ [0],
          hostStrncpy (stored mem pathp.toNat (FILENAME_MAX - 1) ++ [0]) FILENAME_MAX))).Meets
            (readsIn box.bytes mem) fun _ => True) := by
  rw [Prog.meets_bind, pathcopyresolve, Prog.meets_bind]
  exact pathcopy_meets none

/-- A call that copies one path and then reads nothing. -/
theorem pathcopyresolve_quiet {rest : Option (List Byte × List Byte) → PathProg Word}
    (quiet : ∀ path, (rest path).Meets (readsIn box.bytes mem) fun _ => True) :
    (pathcopyresolve box.toLPSBoxInfo pathp >>= rest).Meets (readsIn box.bytes mem) (fun _ => True) ↔
      AllEndInBox box.toLPSBoxInfo mem [pathp] := by
  rw [pathcopyresolve_meets (quiet none)]
  apply imp_congr_right
  intro _
  apply and_congr_right
  intro _
  exact iff_of_true (quiet _) trivial

theorem withPath_quiet {rest : List Byte → PathProg Word}
    (quiet : ∀ path, (rest path).Meets (readsIn box.bytes mem) fun _ => True) :
    (withPath box.toLPSBoxInfo pathp rest).Meets (readsIn box.bytes mem) (fun _ => True) ↔
      AllEndInBox box.toLPSBoxInfo mem [pathp] := by
  apply pathcopyresolve_quiet
  intro path
  cases path with
  | none => trivial
  | some path => exact quiet path.2

/-- The host uses paths, and the call reads nothing more. -/
theorem use_quiet {u : PathUse} {paths : List (List Byte)} {rest : Int → PathProg β}
    (quiet : ∀ r, (rest r).Meets (readsIn box.bytes mem) fun _ => True) :
    (use u paths >>= rest).Meets (readsIn box.bytes mem) fun _ => True := by
  rw [Prog.meets_bind]
  exact ⟨trivial, fun r _ => quiet r⟩

theorem hostErrOf_quiet (r : Int) : (hostErrOf r).Meets (readsIn box.bytes mem) fun _ => True := by
  unfold hostErrOf
  split
  · exact onFile_meets
  · trivial

theorem hostFstatat_quiet {fd : Int} {path : List Byte} {flags : CInt} :
    (hostFstatat fd path flags).Meets (readsIn box.bytes mem) fun _ => True := by
  have returns : ∀ r : Int, (if r < 0 then onFile hostErrno else pure 0 : PathProg Word).Meets
      (readsIn box.bytes mem) fun _ => True := by
    intro r
    split
    · exact onFile_meets
    · trivial
  unfold hostFstatat
  split
  · exact onFile_meets.bind fun r _ => returns r
  · rw [Prog.meets_bind, Prog.meets_check]
    split
    · exact use_quiet returns
    · trivial

/-- `sys_openat` after its path was copied. -/
theorem sysOpenat_meets {dirfd : Int} {flags mode : CInt} :
    (sysOpenat box.toLPSBoxInfo dirfd pathp flags mode).Meets (readsIn box.bytes mem) (fun _ => True) ↔
      AllEndInBox box.toLPSBoxInfo mem (if dirfd ≠ LINUX_AT_FDCWD then [] else [pathp]) := by
  unfold sysOpenat
  split
  · exact iff_of_true trivial trivial
  · apply pathcopyresolve_quiet
    intro path
    cases path with
    | none => trivial
    | some path =>
        apply use_quiet
        intro kfd
        split
        · exact onFile_meets
        · apply use_quiet
          intro f
          split
          · trivial
          · apply use_quiet
            intro fd
            split
            · trivial
            · trivial

theorem sysRenameat_meets {olddir newdir : Int} {oldpathp newpathp : Word} :
    (sysRenameat box.toLPSBoxInfo olddir oldpathp newdir newpathp).Meets (readsIn box.bytes mem)
        (fun _ => True) ↔
      AllEndInBox box.toLPSBoxInfo mem
        (if olddir ≠ LINUX_AT_FDCWD ∨ newdir ≠ LINUX_AT_FDCWD then [] else [oldpathp, newpathp]) := by
  unfold sysRenameat
  split
  · exact iff_of_true trivial trivial
  · refine (pathcopyresolve_meets ?_).trans ?_
    · trivial
    · rw [AllEndInBox]
      apply imp_congr_right
      intro _
      apply and_congr_right
      intro _
      exact withPath_quiet fun _ => use_quiet hostErrOf_quiet

/-- A call reads its paths from the box exactly when they end there. -/
theorem prog_meets (d : Descriptor) (call : PathSyscall) :
    (call.prog d box.toLPSBoxInfo).Meets (readsIn box.bytes mem) (fun _ => True) ↔
      AllEndInBox box.toLPSBoxInfo mem (call.copied box.toLPSBoxInfo) := by
  cases call with
  | openat dirfd pathp flags mode => exact sysOpenat_meets
  | newfstatat dirfd pathp statbufp flags =>
      rw [PathSyscall.prog, sysNewfstatat, PathSyscall.copied]
      by_cases refused : bufhost box.toLPSBoxInfo statbufp 128 8 = 0
      · rw [if_pos refused, if_pos (.inl refused)]
        exact iff_of_true trivial trivial
      rw [if_neg refused]
      by_cases byPath : flags &&& LINUX_AT_EMPTY_PATH = 0
      · rw [if_pos byPath, if_neg (not_or.mpr ⟨refused, not_not.mpr byPath⟩)]
        apply pathcopyresolve_quiet
        intro path
        cases path with
        | none => trivial
        | some path =>
            dsimp only
            split
            · trivial
            · exact hostFstatat_quiet
      · rw [if_neg byPath, if_pos (.inr byPath)]
        exact iff_of_true onFile_meets trivial
  | truncate pathp length => exact withPath_quiet fun _ => use_quiet hostErrOf_quiet
  | mkdirat dirfd pathp mode =>
      rw [PathSyscall.prog, sysMkdirat, PathSyscall.copied]
      split
      · exact iff_of_true trivial trivial
      · exact withPath_quiet fun _ => use_quiet hostErrOf_quiet
  | unlinkat dirfd pathp flags =>
      rw [PathSyscall.prog, sysUnlinkat, PathSyscall.copied]
      by_cases elsewhere : dirfd ≠ LINUX_AT_FDCWD
      · rw [if_pos elsewhere, if_pos (.inl elsewhere)]
        exact iff_of_true trivial trivial
      rw [if_neg elsewhere]
      by_cases flagged : flags ≠ 0
      · rw [if_pos flagged, if_pos (.inr flagged)]
        exact iff_of_true trivial trivial
      · rw [if_neg flagged, if_neg (not_or.mpr ⟨elsewhere, flagged⟩)]
        exact withPath_quiet fun _ => use_quiet hostErrOf_quiet
  | renameat olddir oldpathp newdir newpathp => exact sysRenameat_meets
  | renameat2 olddir oldpathp newdir newpathp flags =>
      rw [PathSyscall.prog, sysRenameat2, PathSyscall.copied]
      by_cases flagged : flags ≠ 0
      · rw [if_pos flagged, if_pos (.inl flagged)]
        exact iff_of_true trivial trivial
      · rw [if_neg flagged]
        simp only [flagged, false_or]
        exact sysRenameat_meets
  | faccessat dirfd pathp mode =>
      rw [PathSyscall.prog, sysFaccessat, PathSyscall.copied]
      split
      · exact iff_of_true trivial trivial
      · exact withPath_quiet fun _ => use_quiet hostErrOf_quiet
  | readlinkat dirfd pathp bufp size =>
      rw [PathSyscall.prog, sysReadlinkat, PathSyscall.copied]
      split
      · exact iff_of_true trivial trivial
      · refine withPath_quiet fun _ => ?_
        split
        · trivial
        · exact use_quiet hostErrOf_quiet
  | chdir pathp =>
      rw [PathSyscall.prog, sysChdir, Prog.meets_bind]
      refine (pathcopy_meets trivial).trans ?_
      apply imp_congr_right
      intro _
      apply and_congr_right
      intro _
      exact iff_of_true (use_quiet fun _ => trivial) trivial

end Reads

/-- `pathcopy`, and every call that copies paths, reads from the box only exactly when each path that
it copies ends there, or `FILENAME_MAX - 1` bytes behind its pointer are in the box. -/
theorem paths_confined_iff (box : BoxRange) (mem : Nat → Byte) :
    (∀ pathp, Confined box.toLPSBoxInfo mem (pathcopy box.toLPSBoxInfo pathp) ↔
      AllEndInBox box.toLPSBoxInfo mem [pathp]) ∧
    ∀ (d : Descriptor) (call : PathSyscall),
      Confined box.toLPSBoxInfo mem (call.prog d box.toLPSBoxInfo) ↔
        AllEndInBox box.toLPSBoxInfo mem (call.copied box.toLPSBoxInfo) := by
  constructor
  · intro pathp
    rw [confined_iff]
    refine (pathcopy_meets trivial).trans ?_
    exact Iff.rfl
  · intro d call
    rw [confined_iff]
    exact prog_meets d call

/-- The last byte of a box, in memory without a terminator. -/
theorem pathcopy_reads_neighbour :
    ¬∀ (box : BoxRange) (mem : Nat → Byte) (pathp : Word),
      Confined box.toLPSBoxInfo mem (pathcopy box.toLPSBoxInfo pathp) := by
  intro claim
  have confined := claim ⟨⟨0x100000, 0x10000⟩, by decide⟩ (fun _ => 97) 0x10ffff
  have ends := (pathcopy_meets trivial).mp (confined_iff.mp confined) (by decide)
  have letter : (97 : Byte) ≠ 0 := by decide
  rcases ends.1 with whole | ⟨k, -, zero⟩
  · exact absurd whole (by decide)
  · exact absurd zero letter

end Lps.Linux.Path

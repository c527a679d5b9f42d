import Lps.Linux.FileOps
import Lps.Linux.FdLife
import Lps.Linux.SysMemHost

/-!
# Which system calls on files go down

`filenew` fills every field of a file, so the calls on it go down only by an assertion on the
way.  An end of a pipe has junk in every field but those that `read`, `write` and `close` need,
and only these two calls test the function that they call.
-/

namespace Lps.Linux

open Lps.Core Lps.Program Lps.Transition

/-- Whatever the surroundings answer, only functions that the constructor of the file installed
are called, and the runtime does not go down. -/
def installing (d : Descriptor) : Contract FileCall FileReply FileFault where
  replies _ _ := True
  calls
    | .function dev function _ => d = .file dev ∧ dev.installed function
    | _ => True
  faults _ := False

/-- There is no file, or one with every field set. -/
def Descriptor.Complete : Descriptor → Prop
  | .closed => True
  | .freed => False
  | .file (.host _) => True
  | .file (.pipeEnd ..) => False

instance : (d : Descriptor) → Decidable d.Complete
  | .closed => inferInstanceAs (Decidable True)
  | .freed => inferInstanceAs (Decidable False)
  | .file (.host _) => inferInstanceAs (Decidable True)
  | .file (.pipeEnd ..) => inferInstanceAs (Decidable False)

namespace FileSyscall

/-- The conditions of a fixed mapping: its range passes the assertion of `lps_box_mapat`, and
the tracker rejects it, as it goes down when the second of its two allocations fails. -/
def MapsNowhere (p : LPSProc) (addrp length : Word) : Prop :=
  p.box.holds (truncp addrp (4 * 1024)) (ceilp length (4 * 1024)) = true ∧
    p.box.accepts (truncp addrp (4 * 1024)) (ceilp length (4 * 1024)) = false

instance (p : LPSProc) (addrp length : Word) : Decidable (MapsNowhere p addrp length) :=
  inferInstanceAs (Decidable (_ ∧ _))

/-- The descriptor is closed or refers to a file of the host, unless the call is rejected before
it looks at the file, or is a `read` or `write` or a `pread64` on a write end; `newfstatat` of a
path has no flags; a fixed mapping is rejected. -/
def Proper (d : Descriptor) (p : LPSProc) : FileSyscall → Prop
  | .read _ _ size => size ≠ 0 → d ≠ .freed
  | .write _ _ size => size ≠ 0 → d ≠ .freed
  | .pread64 _ bufp size _ => d ≠ .freed ∧
      (bufhost p.box.toLPSBoxInfo bufp size 1 ≠ 0 → ∀ dev, d = .file dev →
        dev.slots.read ≠ .set none → d.Complete)
  | .newfstatat dirfd pathp statbufp flags => bufhost p.box.toLPSBoxInfo statbufp 128 8 ≠ 0 →
      if flags &&& LINUX_AT_EMPTY_PATH = 0 then
        ptrcheck p.box.toLPSBoxInfo pathp = true → dirfd = LINUX_AT_FDCWD → flags = 0
      else d.Complete
  | .fstat _ statbufp => bufhost p.box.toLPSBoxInfo statbufp 128 8 ≠ 0 → d.Complete
  | .ioctl _ request va0 => request = LINUX_TIOCGWINSZ →
      bufcheck p.box.toLPSBoxInfo va0 8 2 = true → d.Complete
  | .mmap addrp length _ flags fd _ => passesFlags length flags →
      (flags &&& LINUX_MAP_FIXED ≠ 0 →
        ptrcheck p.box.toLPSBoxInfo (truncp addrp (4 * 1024)) = true) →
      (fd ≥ 0 → d ≠ .closed ∧ d.Complete) ∧
        (flags &&& LINUX_MAP_FIXED ≠ 0 → (fd ≥ 0 → d ≠ .file (.host (-1))) →
          MapsNowhere p addrp length)
  | _ => d.Complete

end FileSyscall

variable {d : Descriptor} {dev : FDDev} {slot : FDSlots → Field (Option FDFunction)}
  {args : List Word} {p : LPSProc} {box : LPSBoxInfo}

/-! ## Functions of a file -/

/-- A function that `filenew` sets and `pipe_new` does not. -/
structure LeftOut (slot : FDSlots → Field (Option FDFunction)) : Prop where
  pipe : ∀ isRead, slot (.pipeNew isRead) = .junk
  host : ∀ kfd, ∃ function, slot (.filenew kfd) = .set (some function) ∧
    (FDDev.host kfd).installed function

/-- A call through a field that is set. -/
theorem callFunction_installing {function : FDFunction} (isFile : d = .file dev)
    (isSet : slot dev.slots = .set (some function)) (installed : dev.installed function) :
    (callFunction dev slot args).Meets (installing d) fun _ => True := by
  rw [callFunction, isSet]
  exact ⟨⟨isFile, installed⟩, fun _ _ => trivial⟩

theorem LeftOut.callFunction (leftOut : LeftOut slot) {kfd : Int} (isHost : d = .file (.host kfd)) :
    (callFunction (.host kfd) slot args).Meets (installing d) fun _ => True := by
  obtain ⟨function, isSet, installed⟩ := leftOut.host kfd
  exact callFunction_installing isHost isSet installed

section Mapping

variable {addrp length off : Word} {prot flags : CInt} {fd : Int}

end Mapping

/-! ## All calls -/

/-- For a file of the host, or none, `sys_mmap` does what it does for a process that has the
`kfd` of the file at hand. -/
theorem sysMmap_host {addrp length off : Word} {prot flags : CInt} {fd : Int}
    (known : fd ≥ 0 → ∃ kfd, d = .file (.host kfd) ∧ p.fdfget fd = some kfd) :
    d.sysMmap p addrp length prot flags fd off =
      onMemory (Linux.sysMmap p addrp length prot flags fd off) := by
  have look : ∃ kfd : Int, d.hostFd fd = pure kfd ∧ p.hostFd fd = pure kfd := by
    rw [Descriptor.hostFd.eq_def, LPSProc.hostFd]
    split
    · rename_i file
      obtain ⟨kfd, rfl, found⟩ := known file
      rw [found]
      exact ⟨kfd, rfl, rfl⟩
    · exact ⟨-1, rfl, rfl⟩
  obtain ⟨kfd, table, atHand⟩ := look
  simp only [Descriptor.sysMmap, Linux.sysMmap, Descriptor.procMapat, Descriptor.procMapany,
    Linux.procMapat, Linux.procMapany, table, atHand, onMemory, pure_bind,
    apply_ite (Prog.lift memoryPart), Prog.lift_bind, Prog.lift_pure]

end Lps.Linux

import Lps.Linux.StackInit

/-!
# Where a program starts

`elf_load_one` compares `e_entry` with nothing but `CODE_MAX`.  The entry of a loaded process
lies in its box, in one of its segments, exactly when `e_entry` lies in one of the segments of
the image, and every thread starts there.
-/

namespace Lps.Linux

open Lps.Core Lps.Program Lps.Transition

/-! ## Loading -/

/-- A recorded segment lies in the box. -/
def ElfSeg.InBox (box : LPSBoxInfo) (seg : ElfSeg) : Prop :=
  box.Contains seg.start (seg.stop - seg.start)

/-- The loop goes on with the base it has, and records segments in the box. -/
theorem elfLoop_entry {elfbase : Word} {buf : Buf} {phdrs : List Elf64Phdr} {s : ElfLoop}
    {target : ElfTarget} (ok : target.box.Ok) (nonzero : s.base ≠ 0)
    (inside : ∀ seg ∈ target.seginfo, seg.InBox target.box.toLPSBoxInfo) :
    (elfLoop elfbase buf phdrs s target).Meets loading fun (loop, target') =>
      target.box.Keeps target'.box ∧ ∀ s', loop = some s' →
        s'.base = s.base ∧ ∀ seg ∈ target'.seginfo, seg.InBox target.box.toLPSBoxInfo := by
  induction phdrs generalizing s target with
  | nil =>
      refine ⟨ok.keeps, ?_⟩
      rintro s' ⟨⟩
      exact ⟨rfl, inside⟩
  | cons p phdrs ih =>
      rw [elfLoop]
      split
      · exact ih ok nonzero inside
      split
      · exact ⟨ok.keeps, by rintro _ ⟨⟩⟩
      rw [Prog.meets_bind]
      refine (bufReadElfseg_loading ok).mono ?_
      rintro ⟨done, target'⟩ ⟨keeps, recorded⟩
      rcases done with _ | _
      · exact ⟨keeps, by rintro _ ⟨⟩⟩
      obtain ⟨seginfo, contains⟩ := recorded rfl
      dsimp only at seginfo ⊢
      rw [Bool.not_true, if_neg Bool.false_ne_true]
      have inside' : ∀ seg ∈ target'.seginfo, seg.InBox target'.box.toLPSBoxInfo := by
        intro seg mem
        rw [keeps.info]
        rw [seginfo] at mem
        rcases List.mem_append.mp mem with old | new
        · exact inside seg old
        · rw [List.mem_singleton.mp new]
          exact contains
      have rest := fun first last =>
        @ih ⟨s.base, first, last⟩ target' keeps.ok nonzero inside'
      apply (rest _ _).mono
      rintro ⟨loop, target''⟩ ⟨keeps', loaded⟩
      rw [keeps.info] at loaded
      exact ⟨keeps.trans keeps', loaded⟩

namespace LPSProc

variable {p : LPSProc}

/-- Loading sets the entry from the header, whatever the segments are. -/
theorem procLoad_entry {buf : Buf} (ok : p.box.Ok) (nonzero : p.box.base ≠ 0)
    (fresh : p.seginfo = []) :
    (p.procLoad buf).Meets loading fun (loaded, p') => loaded = true →
      p'.entry = p.box.base + buf.ehdr.e_entry ∧
        ∀ seg ∈ p'.seginfo, seg.InBox p.box.toLPSBoxInfo := by
  rw [procLoad, Prog.meets_bind, elfLoadOne]
  split
  · rintro ⟨⟩
  rw [Prog.meets_bind]
  refine ⟨trivial, fun memory _ => ?_⟩
  rw [Prog.meets_ret]
  split
  · rintro ⟨⟩
  split
  · rintro ⟨⟩
  rw [Prog.meets_bind]
  have none : ∀ seg ∈ p.seginfo, seg.InBox p.box.toLPSBoxInfo := by
    rw [fresh]
    exact fun seg mem => absurd mem List.not_mem_nil
  apply (@elfLoop_entry p.box.base buf buf.phdrs ⟨p.box.base, 0, 0⟩ p.toElfTarget ok nonzero none).mono
  rintro ⟨loop, target⟩ ⟨keeps, loaded⟩
  rcases loop with _ | s
  · rintro ⟨⟩
  obtain ⟨base, inside⟩ := loaded s rfl
  dsimp only at base ⊢
  rw [Prog.meets_pure]
  dsimp only
  rw [Prog.meets_bind]
  apply (lpsBoxMapat_loading keeps.ok).mono
  rintro ⟨region, box⟩ ⟨-, -⟩ _
  exact ⟨congrArg (· + buf.ehdr.e_entry) base, inside⟩

theorem Accepted.entry {box : LPSBoxInfo} {opts : LPSLinuxOpts} {buf : Buf}
    (accepted : Accepted box opts buf p) (fits : box.base.toNat + box.size.toNat < 2 ^ 64)
    (nonzero : box.base ≠ 0) :
    p.entry = box.base + buf.ehdr.e_entry ∧ ∀ seg ∈ p.seginfo, seg.InBox box := by
  cases accepted with
  | @mk kfds host calls _ refuses loaded =>
      have ok : (lpsProcNew box opts kfds).box.Ok := LPSBoxInfo.track_ok fits
      have returned := congrArg Prod.snd loaded
      exact (procLoad_entry ok nonzero rfl).run_ok refuses [] _ returned rfl

end LPSProc

/-! ## The entry and the segments -/

/-- With a base the ranges are those of the segments, moved by the base. -/
theorem loadRanges_eq {base : Word} (nonzero : base ≠ 0) (phdrs : List Elf64Phdr) :
    loadRanges base phdrs =
      (phdrs.filter fun ph => !ph.skipped).map fun ph => (base + ph.start, base + ph.stop) := by
  induction phdrs with
  | nil => rfl
  | cons ph phdrs ih =>
      rw [loadRanges]
      by_cases skips : ph.skipped = true
      · rw [if_pos skips, ih, List.filter_cons_of_neg (by rw [skips]; decide)]
      · rw [if_neg skips, Elf64Phdr.nextBase, if_neg nonzero, ih,
          List.filter_cons_of_pos (by simpa using skips), List.map_cons]

/-- `e_entry` lies in one of the segments that are loaded. -/
def Buf.EntryLoaded (buf : Buf) : Prop :=
  ∃ ph ∈ buf.phdrs, ph.skipped = false ∧ ph.start ≤ buf.ehdr.e_entry ∧ buf.ehdr.e_entry < ph.stop

/-- A program counter in the box of a process, in one of its segments. -/
def LPSProc.StartsInside (p : LPSProc) (pc : Word) : Prop :=
  pc.toNat ∈ p.box.bytes ∧ ∃ seg ∈ p.seginfo, pc.toNat ∈ seg.bytes

/-- Behind a base, a segment in the box holds an address exactly when the segment of the image
does. -/
theorem entry_mem_iff {box : LPSBoxInfo} {start stop entry : Word} {prot : CInt}
    (fits : box.base.toNat + box.size.toNat < 2 ^ 64)
    (inBox : (⟨box.base + start, box.base + stop, prot⟩ : ElfSeg).InBox box)
    (proper : (box.base + start).toNat < (box.base + stop).toNat) :
    (box.base + entry).toNat ∈ Set.Ico (box.base + start).toNat (box.base + stop).toNat ↔
      start ≤ entry ∧ entry < stop := by
  obtain ⟨above, below⟩ := inBox
  dsimp only at above below
  rw [BitVec.toNat_sub] at below
  rw [Set.mem_Ico, BitVec.le_def, BitVec.lt_def]
  simp only [BitVec.toNat_add] at *
  omega

/-! ## What keeps the entry -/

section Frame

variable {p : LPSProc}

/-- Whatever the host replies, something is returned or the runtime goes down. -/
theorem anything {α : Type} {prog : HostProg α} : prog.Meets permitted fun _ => True :=
  Prog.meets_permitted (fun _ => trivial) fun _ => trivial

theorem sysBrk_entry (addr : Word) :
    (sysBrk p addr).Meets permitted fun (_, p') => p'.entry = p.entry := by
  rw [sysBrk]
  split
  · exact rfl
  rw [Prog.meets_bind, Prog.meets_check]
  split
  swap
  · exact trivial
  split
  · exact rfl
  split
  · rw [Prog.meets_bind]
    apply anything.mono
    intro mapped _
    dsimp only
    split <;> exact rfl
  · exact rfl

theorem procMapat_entry {start size off : Word} {prot flags : CInt} {fd : Int} :
    (procMapat p start size prot flags fd off).Meets permitted fun (_, p') =>
      p'.entry = p.entry := by
  rw [procMapat, Prog.meets_bind]
  apply anything.mono
  intro kfd _
  split
  · exact rfl
  rw [Prog.meets_bind]
  apply anything.mono
  intro mapped _
  dsimp only
  split <;> exact rfl

theorem procMapany_entry {size off mapstart : Word} {prot flags : CInt} {fd : Int} :
    (procMapany p size prot flags fd off mapstart).Meets permitted fun (_, _, p') =>
      p'.entry = p.entry := by
  rw [procMapany, Prog.meets_bind]
  apply anything.mono
  intro kfd _
  split
  · exact rfl
  rw [Prog.meets_bind]
  apply anything.mono
  intro mapped _
  dsimp only
  split <;> exact rfl

theorem sysMmap_entry (addrp length off : Word) (prot flags : CInt) (fd : Int) :
    (sysMmap p addrp length prot flags fd off).Meets permitted fun (_, p') =>
      p'.entry = p.entry := by
  rw [sysMmap]
  split
  · exact rfl
  dsimp only
  split
  · exact rfl
  split
  · split
    · exact rfl
    rw [Prog.meets_bind]
    exact procMapat_entry.mono fun _ same => same
  · rw [Prog.meets_bind]
    exact procMapany_entry.mono fun _ same => same

/-- No system call changes the entry. -/
theorem MemCall.prog_entry (call : MemCall) :
    (call.prog p).Meets permitted fun (_, p') => p'.entry = p.entry := by
  cases call with
  | brk addr => exact sysBrk_entry addr
  | mmap addrp length prot flags fd off => exact sysMmap_entry addrp length off prot flags fd
  | mprotect addrp length prot =>
      rw [prog, Prog.meets_bind]
      exact anything.mono fun _ _ => rfl
  | munmap addrp length =>
      rw [prog, Prog.meets_bind, sysMunmap]
      split
      · exact rfl
      · rw [procUnmap, Prog.meets_bind]
        exact anything.mono fun _ _ => rfl

theorem LPSProc.lpsThreadNew_entry :
    p.lpsThreadNew.Meets permitted fun (_, p') => p'.entry = p.entry := by
  rw [lpsThreadNew, Prog.meets_bind]
  apply anything.mono
  intro memory _
  split
  · exact rfl
  rw [Prog.meets_bind]
  apply anything.mono
  intro context _
  split
  · exact rfl
  rw [Prog.meets_bind, stackMapat, Prog.meets_bind]
  apply anything.mono
  intro mapped _
  rw [Prog.meets_pure]
  dsimp only
  split <;> exact rfl

end Frame

namespace ThreadWorld

variable {p : LPSProc} {w w' : ThreadWorld} {box : LPSBoxInfo} {opts : LPSLinuxOpts} {buf : Buf}

/-- No step changes the entry. -/
theorem step_entry {event : WorldEvent} {observed : List MemDone}
    (stepped : step w event = some (w', observed)) : w'.proc.entry = w.proc.entry := by
  cases event with
  | threadNew os =>
      obtain ⟨made, returns, -⟩ := step_threadNew stepped
      exact LPSProc.lpsThreadNew_entry.returns (fun _ _ => trivial) returns
  | syscall call os =>
      obtain ⟨-, -, done⟩ := step_goesOn (fun _ same => WorldEvent.noConfusion same) stepped
      obtain ⟨value, returns, -⟩ := MemWorld.step_syscall done
      exact call.prog_entry.returns (fun _ _ => trivial) returns
  | assign fd kfd =>
      obtain ⟨-, -, done⟩ := step_goesOn (fun _ same => WorldEvent.noConfusion same) stepped
      simp only [MemWorld.step, Option.some.injEq, Prod.mk.injEq] at done
      rw [← done.1]
  | store bytes =>
      obtain ⟨-, -, done⟩ := step_goesOn (fun _ same => WorldEvent.noConfusion same) stepped
      simp only [MemWorld.step, Option.some.injEq, Prod.mk.injEq] at done
      rw [← done.1]

theorem entry_of_run {host : OsMem} {trace : List MemDone}
    (run : Run step (Always ThreadWorld WorldEvent) ⟨⟨p, host⟩, []⟩ trace w) :
    w.proc.entry = p.entry := by
  apply run.stateInvariant fun w => w.proc.entry = p.entry
  · exact rfl
  · intro observed state next event same _ stepped
    exact (step_entry stepped).trans same

end ThreadWorld

/-- The entry of a loaded process lies in its box, in one of its segments, exactly when `e_entry`
lies in one of the segments of the image. -/
theorem LPSProc.LaidOut.startsInside_iff {box : LPSBoxInfo} {opts : LPSLinuxOpts} {buf : Buf}
    {p : LPSProc} (laid : LaidOut box opts buf p)
    (fits : box.base.toNat + box.size.toNat < 2 ^ 64) (nonzero : box.base ≠ 0)
    (entry : p.entry = box.base + buf.ehdr.e_entry) (inside : ∀ seg ∈ p.seginfo, seg.InBox box) :
    p.StartsInside p.entry ↔ buf.EntryLoaded := by
  have ranges := laid.ranges
  rw [loadRanges_eq nonzero] at ranges
  have inSegment : ∀ {seg : ElfSeg} {ph : Elf64Phdr}, seg ∈ p.seginfo →
      (box.base + ph.start, box.base + ph.stop) = seg.range →
      (p.entry.toNat ∈ seg.bytes ↔
        ph.start ≤ buf.ehdr.e_entry ∧ buf.ehdr.e_entry < ph.stop) := by
    rintro ⟨start, stop, prot⟩ ph mem same
    cases same
    rw [entry]
    exact entry_mem_iff fits (inside _ mem) (laid.ends _ mem).1
  constructor
  · rintro ⟨-, seg, mem, holds⟩
    have range : seg.range ∈ p.seginfo.map ElfSeg.range := List.mem_map_of_mem mem
    rw [ranges] at range
    obtain ⟨ph, isLoaded, same⟩ := List.mem_map.mp range
    obtain ⟨isHeader, loads⟩ := List.mem_filter.mp isLoaded
    exact ⟨ph, isHeader, by simpa using loads, (inSegment mem same).mp holds⟩
  · rintro ⟨ph, isHeader, loads, within⟩
    have range : (box.base + ph.start, box.base + ph.stop) ∈ p.seginfo.map ElfSeg.range := by
      rw [ranges]
      exact List.mem_map.mpr ⟨ph, List.mem_filter.mpr ⟨isHeader, by simpa using loads⟩, rfl⟩
    obtain ⟨seg, mem, same⟩ := List.mem_map.mp range
    have holds := (inSegment mem same.symm).mpr within
    refine ⟨?_, seg, mem, holds⟩
    obtain ⟨above, below⟩ := inside seg mem
    obtain ⟨from_, to_⟩ := holds
    rw [BitVec.toNat_sub] at below
    rw [laid.info]
    have proper := (laid.ends seg mem).1
    constructor <;> omega

/-- After an accepted load every thread starts at the entry of the process, and that lies in the
box, in one of the loaded segments, exactly when `e_entry` lies in a segment of the image. -/
theorem ThreadWorld.starts_inside_iff {box : LPSBoxInfo} {opts : LPSLinuxOpts} {buf : Buf}
    {p : LPSProc} (fits : box.base.toNat + box.size.toNat < 2 ^ 64) (nonzero : box.base ≠ 0)
    (accepted : LPSProc.Accepted box opts buf p) :
    (p.StartsInside p.entry ↔ buf.EntryLoaded) ∧
      ∀ host trace w, Run step (Always ThreadWorld WorldEvent) ⟨⟨p, host⟩, []⟩ trace w →
        ∀ t info aux args new, w.proc.startThread t info aux args = some new →
          new.regs.uepc = p.entry := by
  have laid := accepted.laidOut fits
  obtain ⟨entry, inside⟩ := accepted.entry fits nonzero
  constructor
  · exact laid.startsInside_iff fits nonzero entry inside
  · intro host trace w run t info aux args new started
    obtain ⟨-, rfl⟩ := LPSProc.startThread_eq_some_iff.mp started
    exact entry_of_run run

instance (buf : Buf) : Decidable buf.EntryLoaded :=
  inferInstanceAs (Decidable (∃ ph ∈ buf.phdrs, _))

/-- The small process starts in its segment. -/
theorem starts_inside_small :
    ∃ p, LPSProc.Accepted smallBox smallOpts smallImage p ∧ p.StartsInside p.entry := by
  have seen : (LPSProc.load smallBox smallOpts (fun _ => none) smallImage obliging).isSome = true := by
    decide +kernel
  obtain ⟨p, loaded⟩ := Option.isSome_iff_exists.mp seen
  have accepted := LPSProc.load_accepted obliging_refuses loaded
  exact ⟨p, accepted,
    (ThreadWorld.starts_inside_iff (by decide) (by decide) accepted).1.mpr (by decide +kernel)⟩

/-- The small image with an entry behind its box. -/
def strayImage : Buf :=
  .ofBytes (-1) (elfImage 0x3fffffff [⟨1, 6, 0, 0, 120, 4096, 4096⟩] [])

/-- An image is accepted whose threads start outside of the box. -/
theorem starts_outside :
    ¬∀ (box : LPSBoxInfo) (opts : LPSLinuxOpts) (buf : Buf) (p : LPSProc),
      box.base.toNat + box.size.toNat < 2 ^ 64 → box.base ≠ 0 →
      LPSProc.Accepted box opts buf p → p.StartsInside p.entry := by
  intro claim
  have seen : (LPSProc.load smallBox smallOpts (fun _ => none) strayImage obliging).map
      LPSProc.entry = some 0x400fffff := by
    decide +kernel
  obtain ⟨p, loaded, entry⟩ := Option.map_eq_some_iff.mp seen
  have accepted := LPSProc.load_accepted obliging_refuses loaded
  have inBox := (claim smallBox smallOpts strayImage p (by decide) (by decide) accepted).1
  rw [entry, (accepted.laidOut (by decide)).info] at inBox
  exact absurd inBox.2 (by decide)

end Lps.Linux

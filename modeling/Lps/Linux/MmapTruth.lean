import Lps.Core.BoxResult
import Lps.Core.BoxSound
import Lps.Linux.SysMemHost

/-!
# What `sys_mmap` says is true

A mapping that `sys_mmap` reports is recorded and made, and one that it refuses has changed
nothing, as long as the host can take back what it refuses, refuses nothing that replaces a
mapping, and the descriptor of a mapping at an address belongs to a file of the host.  A
length that rounds to no pages leaves an empty region behind.
-/

namespace Lps.Linux

open Lps.Core Lps.Program Lps.Transition

namespace LPSProc

/-- The descriptor of the host behind a mapping: none for a mapping of no file. -/
def backing (p : LPSProc) (fd : Int) : Option Int := if fd ≥ 0 then p.fdfget fd else some (-1)

variable {p p' : LPSProc} {os : Os} {h h' : OsMem} {fd kfd : Int}

theorem hostFd_returns (returns : (p.hostFd fd).Returns os.answer h kfd h') :
    p.backing fd = some kfd ∧ h' = h := by
  rw [hostFd] at returns
  rw [backing]
  split at returns
  · rename_i file
    rw [if_pos file]
    split at returns
    · exact absurd returns Prog.returns_fault
    · rename_i found
      cases returns
      exact ⟨found, rfl⟩
  · rename_i noFile
    rw [if_neg noFile]
    cases returns
    exact ⟨rfl, rfl⟩

end LPSProc

/-! ## Sound processes -/

theorem keptByMapat_sound : KeptByMapat fun box => box.Ok ∧ box.mm.Sound := by
  rintro box addr size prot flags fd off ⟨ok, sound⟩
  have keeps := @lpsBoxMapat_loading box addr size prot flags fd off ok
  have sounds := @LPSBox.lpsBoxMapat_sound box loading addr size prot flags fd off ok sound
    (fun _ => trivial) fun _ => trivial
  exact (keeps.and sounds fun _ _ => id).mono fun _ result => ⟨result.1.1.ok, result.2⟩

/-- A process that was started has a sound tracker. -/
theorem LPSProc.Started.sound {box : LPSBoxInfo} {opts : LPSLinuxOpts} {p : LPSProc}
    (started : LPSProc.Started box opts p) (fits : box.base.toNat + box.size.toNat < 2 ^ 64) :
    p.box.mm.Sound := by
  have new : box.track.Ok ∧ box.track.mm.Sound :=
    ⟨LPSBoxInfo.track_ok fits, LPSBoxInfo.track_sound fits⟩
  exact (keptByMapat_sound.started new started).2

/-- The length of a mapping does not round to no pages, unless it is one at an address. -/
def MemCall.HasPages : MemCall → Prop
  | .mmap _ length _ flags _ _ =>
      passesFlags length flags → flags &&& LINUX_MAP_FIXED = 0 → ceilp length (4 * 1024) ≠ 0
  | _ => True

/-- What rounds up to pages has pages. -/
theorem mmceil_ceilp {mm : MMAddrSpace} (paged : mm.p2pagesize = 12) (length : Word) :
    mm.mmceil (ceilp length (4 * 1024)) = 0 ↔ ceilp length (4 * 1024) = 0 := by
  rw [← BitVec.toNat_inj, ← BitVec.toNat_inj, MMAddrSpace.mmceil_hostPages paged, hostPages,
    ceilp_page_toNat]
  change _ = 0 ↔ _ = 0
  omega

/-- A system call keeps the tracker sound, whether the host serves it or not. -/
theorem MemCall.prog_sound {p : LPSProc} {call : MemCall} (loaded : p.Loaded)
    (sound : p.box.mm.Sound) (pages : call.HasPages) :
    (call.prog p).Meets hosted fun (_, p') => p'.box.mm.Sound := by
  have ok := loaded.paged.toOk
  have maps : ∀ {addr size prot flags fd off},
      (lpsBoxMapat p.box addr size prot flags fd off).Meets hosted fun result => result.2.mm.Sound :=
    LPSBox.lpsBoxMapat_sound ok sound (fun _ => trivial) fun _ => trivial
  cases call with
  | brk addr =>
      rw [prog, sysBrk]
      split
      · exact sound
      dsimp only
      rw [Prog.meets_bind, Prog.meets_check]
      split
      · split
        · exact sound
        split
        · rw [Prog.meets_bind]
          apply maps.mono
          rintro ⟨map, box⟩ kept
          dsimp only
          split
          · exact kept
          · exact kept
        · exact sound
      · trivial
  | mmap addrp length prot flags fd off =>
      have finds : (p.hostFd fd).Meets hosted fun _ => True :=
        Prog.meets_permitted (fun _ => trivial) fun _ => trivial
      rw [prog, sysMmap]
      split
      · exact sound
      rename_i nonzero
      dsimp only
      split
      · exact sound
      rename_i legal
      split
      · split
        · exact sound
        rw [Prog.meets_bind, procMapat, Prog.meets_bind]
        apply finds.mono
        intro kfd _
        split
        · exact sound
        rw [Prog.meets_bind]
        apply maps.mono
        rintro ⟨addr, box⟩ kept
        dsimp only
        split
        · exact kept
        · exact kept
      · rename_i anywhere
        have somePages := pages ⟨nonzero, not_not.mp legal⟩ (not_not.mp anywhere)
        rw [Prog.meets_bind, procMapany, Prog.meets_bind]
        apply finds.mono
        intro kfd _
        split
        · exact sound
        rw [Prog.meets_bind]
        apply (LPSBox.lpsBoxMapany_sound sound ((mmceil_ceilp ok.tracked.paged length).not.mpr
          somePages) (fun _ => trivial) fun _ => trivial).mono
        rintro ⟨addr, box⟩ kept
        dsimp only
        split
        · exact kept
        · exact kept
  | mprotect addrp length prot =>
      rw [MemCall.prog, Prog.meets_bind]
      exact (Prog.meets_permitted (fun _ => trivial) fun _ => trivial).mono fun _ _ => sound
  | munmap addrp length =>
      rw [MemCall.prog, sysMunmap, Prog.meets_bind]
      split
      · exact sound
      · rw [procUnmap, Prog.meets_bind]
        exact (LPSBox.lpsBoxMunmap_sound sound).mono fun _ kept => kept

/-! ## What a call says -/

namespace MemDone

/-- The call returned an error code, and the regions and all pages are as they were. -/
structure Failed (done : MemDone) : Prop where
  error : 2 ^ 64 - 4095 ≤ done.value.toNat
  nodes : done.after.proc.box.mm.nodes = done.before.proc.box.mm.nodes
  pages : ∀ q, done.before.host.Unchanged done.after.host q

/-- The call returned the address of whole pages of the box, which are recorded and mapped as
requested; for a mapping at an address it is that address. -/
structure Mapped (done : MemDone) (addrp length : Word) (prot flags : CInt) (fd : Int) (off : Word) :
    Prop where
  aligned : done.value.toNat % 4096 = 0
  inBox : done.before.proc.box.base.toNat ≤ done.value.toNat ∧
    done.value.toNat + 4096 * ((length.toNat + 4095) / 4096) ≤
      done.before.proc.box.base.toNat + done.before.proc.box.size.toNat
  fixed : flags &&& LINUX_MAP_FIXED ≠ 0 → done.value = truncp addrp (4 * 1024)
  backed : ∃ kfd, done.before.proc.backing fd = some kfd ∧ (fd ≥ 0 → kfd ≠ -1) ∧
    ∀ i < (length.toNat + 4095) / 4096,
      infoAt done.after.proc.box.mm.nodes (done.value.toNat / 4096 + i) =
          some { prot, flags, fd := kfd, offset := off } ∧
        done.after.host.page (done.value.toNat / 4096 + i) =
          some ⟨prot, flags ||| MAP_FIXED, kfd, off + BitVec.ofNat 64 (4096 * i), false⟩

/-- If it was an `mmap`, it has failed without a trace or done what it was asked to. -/
def Truthful (done : MemDone) : Prop :=
  ∀ addrp length prot flags fd off, done.call = .mmap addrp length prot flags fd off →
    done.Failed ∨ done.Mapped addrp length prot flags fd off

end MemDone

/-- The host can take back what it refuses and refuses nothing that replaces a mapping, a
mapping anywhere has pages, and a file mapped at an address is one of the host. -/
def MemCall.MapsCleanly (p : LPSProc) (os : Os) : MemCall → Prop
  | .mmap addrp length prot flags fd off => passesFlags length flags →
      os.Recovers ∧
        (flags &&& LINUX_MAP_FIXED = 0 → ceilp length (4 * 1024) ≠ 0) ∧
        (flags &&& LINUX_MAP_FIXED ≠ 0 →
          (fd ≥ 0 → p.fdfget fd ≠ some (-1)) ∧
          (¬p.box.mm.Free (truncp addrp (4 * 1024)) (ceilp length (4 * 1024)) →
            ∀ kfd, p.backing fd = some kfd → ∀ made, os.grants made
              (.mmap (truncp addrp (4 * 1024)) (ceilp length (4 * 1024)) prot (flags ||| MAP_FIXED)
                kfd off) = true))
  | _ => True

theorem MemCall.MapsCleanly.hasPages {p : LPSProc} {os : Os} {call : MemCall}
    (clean : call.MapsCleanly p os) : call.HasPages := by
  cases call with
  | mmap addrp length prot flags fd off => exact fun passed => (clean passed).2.1
  | _ => trivial

variable {w w' : MemWorld} {os : Os} {call : MemCall} {addrp length off value : Word}
  {prot flags : CInt} {fd kfd : Int}

/-- A range that a box maps is what the call asked for. -/
theorem mapped_of_mapsRange (loaded : w.proc.Loaded) (isBacked : w.proc.backing fd = some kfd)
    (file : fd ≥ 0 → kfd ≠ -1) (pages : w.proc.box.mm.mmceil (ceilp length (4 * 1024)) ≠ 0)
    (maps : MapsRange w.proc.box w'.proc.box w'.host value (ceilp length (4 * 1024)) prot flags kfd off)
    (fixed : flags &&& LINUX_MAP_FIXED ≠ 0 → value = truncp addrp (4 * 1024)) :
    MemDone.Mapped ⟨call, w, value, w'⟩ addrp length prot flags fd off := by
  have paged := loaded.paged.tracked.paged
  have ok := loaded.paged.toOk
  have base_mod := loaded.paged.base_mod
  have size_mod := loaded.paged.size_mod
  have rounded := ceilp_page_toNat length
  have somePages := (mmceil_ceilp paged length).not.mp pages
  have nonzero : (ceilp length (4 * 1024)).toNat ≠ 0 := fun zero =>
    somePages (BitVec.eq_of_toNat_eq zero)
  have bound := length.isLt
  have count : hostPages (ceilp length (4 * 1024)) = (length.toNat + 4095) / 4096 := by
    rw [hostPages, rounded]
    omega
  obtain ⟨above, below⟩ := maps.inside
  rw [MMAddrSpace.mmtrunc_toNat paged, ok.mmBase] at above
  rw [MMAddrSpace.mmtrunc_toNat paged, MMAddrSpace.mmceil_hostPages paged, count, ok.mmBase, ok.mmLen]
    at below
  have multiple := maps.aligned
  refine ⟨multiple, ?_, fixed, kfd, isBacked, file, ?_⟩
  · dsimp only
    omega
  · intro i less
    have inPages : InPages value (ceilp length (4 * 1024)) (value.toNat / 4096 + i) := by
      rw [InPages, count]
      omega
    refine ⟨maps.recorded _ inPages, ?_⟩
    have mapped := maps.mapped _ inPages
    rwa [Nat.add_sub_cancel_left] at mapped

/-- A call that maps cleanly tells the truth. -/
theorem sysMmap_truthful (loaded : w.proc.Loaded) (sound : w.proc.box.mm.Sound)
    (clean : (MemCall.mmap addrp length prot flags fd off).MapsCleanly w.proc os)
    (returns : (sysMmap w.proc addrp length prot flags fd off).Returns os.answer w.entered
      (value, w'.proc) w'.host) :
    MemDone.Failed ⟨call, w, value, w'⟩ ∨
      MemDone.Mapped ⟨call, w, value, w'⟩ addrp length prot flags fd off := by
  have ok := loaded.paged.toOk
  have paged := ok.tracked.paged
  obtain ⟨p', same⟩ : ∃ p', p' = w'.proc := ⟨_, rfl⟩
  obtain ⟨h', sameHost⟩ : ∃ h', h' = w'.host := ⟨_, rfl⟩
  rw [← same, ← sameHost] at returns
  have invalid : 2 ^ 64 - 4095 ≤ (BitVec.ofInt 64 (-LINUX_INVAL)).toNat := by decide
  have closed : 2 ^ 64 - 4095 ≤ (BitVec.ofInt 64 (-LINUX_BADF)).toNat := by decide
  -- What ends in an error before anything happened.
  have rejects : ∀ {code : Word}, 2 ^ 64 - 4095 ≤ code.toNat →
      value = code → p' = w.proc → h' = w.entered → MemDone.Failed ⟨call, w, value, w'⟩ := by
    rintro code error rfl kept keptHost
    refine ⟨error, ?_, fun q => ?_⟩
    · dsimp only
      rw [← same, kept]
    · dsimp only
      rw [← sameHost, keptHost]
      exact MemWorld.entered_unchanged
  rw [sysMmap] at returns
  split at returns
  · cases returns
    exact .inl (rejects (by decide) rfl rfl rfl)
  rename_i nonzero
  dsimp only at returns
  split at returns
  · cases returns
    exact .inl (rejects (by decide) rfl rfl rfl)
  rename_i legal
  obtain ⟨recovers, somePages, replaces⟩ := clean ⟨nonzero, not_not.mp legal⟩
  split at returns
  · rename_i isFixed
    obtain ⟨files, grants⟩ := replaces isFixed
    split at returns
    · cases returns
      exact .inl (rejects (by decide) rfl rfl rfl)
    simp only [procMapat, Prog.returns_bind] at returns
    obtain ⟨⟨r, p''⟩, middle, ⟨kfd, middle', found, mapped⟩, returned⟩ := returns
    obtain ⟨isBacked, rfl⟩ := LPSProc.hostFd_returns found
    have file : fd ≥ 0 → kfd ≠ -1 := by
      rintro nonneg rfl
      rw [LPSProc.backing, if_pos nonneg] at isBacked
      exact files nonneg isBacked
    rw [if_neg fun both => file both.1 both.2] at mapped
    simp only [Prog.returns_bind] at mapped
    obtain ⟨⟨addr, box⟩, last, mapped, rest⟩ := mapped
    have result := lpsBoxMapat_result ok sound recovers (fun notFree => grants notFree kfd isBacked)
      mapped
    rcases result with ⟨rfl, restored⟩ | ⟨rfl, pages, maps⟩
    · rw [if_pos rfl] at rest
      cases rest
      cases returned
      refine .inl ⟨invalid, ?_, fun q => ?_⟩
      · dsimp only
        rw [← same]
        exact restored.nodes
      · dsimp only
        rw [← sameHost]
        exact MemWorld.entered_unchanged.trans (restored.pages q)
    · have address : truncp addrp (4 * 1024) ≠ -1 := ne_neg_one_of_page maps.aligned
      rw [if_neg address] at rest
      cases rest
      cases returned
      refine .inr (mapped_of_mapsRange loaded isBacked file pages ?_ fun _ => rfl)
      rw [← same, ← sameHost]
      exact maps
  · rename_i anywhere
    have pages := (mmceil_ceilp paged length).not.mpr (somePages (not_not.mp anywhere))
    simp only [procMapany, Prog.returns_bind] at returns
    obtain ⟨⟨r, addr, p''⟩, middle, ⟨kfd, middle', found, mapped⟩, returned⟩ := returns
    obtain ⟨isBacked, rfl⟩ := LPSProc.hostFd_returns found
    split at mapped
    · cases mapped
      cases returned
      exact .inl (rejects closed rfl rfl rfl)
    rename_i usable
    have file : fd ≥ 0 → kfd ≠ -1 := fun nonneg none => usable ⟨nonneg, none⟩
    simp only [Prog.returns_bind] at mapped
    obtain ⟨⟨found, box⟩, last, mapped, rest⟩ := mapped
    rcases lpsBoxMapany_result ok sound pages recovers mapped with ⟨rfl, restored⟩ | maps
    · rw [if_pos rfl] at rest
      cases rest
      cases returned
      refine .inl ⟨invalid, ?_, fun q => ?_⟩
      · dsimp only
        rw [← same]
        exact restored.nodes
      · dsimp only
        rw [← sameHost]
        exact MemWorld.entered_unchanged.trans (restored.pages q)
    · have address : found ≠ -1 := ne_neg_one_of_page maps.aligned
      rw [if_neg address] at rest
      cases rest
      cases returned
      refine .inr (mapped_of_mapsRange loaded isBacked file pages ?_
        fun isFixed => absurd isFixed anywhere)
      rw [← same, ← sameHost]
      exact maps

/-! ## Runs -/

namespace MemWorld

/-- The steps whose `sys_mmap` calls map cleanly. -/
def StepMapsCleanly : MemWorld → WorldEvent → Prop
  | w, .syscall call os => call.MapsCleanly w.proc os
  | _, _ => True

theorem answer_refuses (c : HostCall) (h : OsMem) : refusesUnaligned c (os.answer c h).1 := by
  have answered := @Os.answer_hosted os c h
  cases c with
  | mmap addr len prot flags fd off =>
      intro unaligned
      apply answered.resolve_right
      exact fun placed => unaligned placed.2.1
  | _ => trivial

/-- A step keeps the tracker sound, and a `sys_mmap` call that maps cleanly tells the truth. -/
theorem step_truthful {event : WorldEvent} {observed : List MemDone} (loaded : w.proc.Loaded)
    (sound : w.proc.box.mm.Sound) (clean : StepMapsCleanly w event)
    (stepped : step w event = some (w', observed)) :
    w'.proc.box.mm.Sound ∧ ∀ done ∈ observed, done.Truthful := by
  cases event with
  | syscall call os =>
      obtain ⟨value, returns, rfl⟩ := step_syscall stepped
      constructor
      · exact (MemCall.prog_sound loaded sound (MemCall.MapsCleanly.hasPages clean)).returns
          (fun c h => Os.answer_hosted c h) returns
      · intro done mem
        rw [List.mem_singleton.mp mem]
        rintro addrp length prot flags fd off isMmap
        cases isMmap
        exact sysMmap_truthful loaded sound clean returns
  | threadNew os =>
      simp only [step, Option.bind_eq_bind, Option.bind_eq_some_iff, Option.some.injEq,
        Prod.mk.injEq] at stepped
      obtain ⟨⟨made, w''⟩, left, rfl, rfl⟩ := stepped
      have kept := (keptByMapat_sound.mapStack ⟨loaded.paged.toOk, sound⟩).returns
        (fun c h => answer_refuses c h) (leave_eq_some left)
      exact ⟨kept.2, fun done mem => absurd mem List.not_mem_nil⟩
  | assign fd kfd =>
      simp only [step, Option.some.injEq, Prod.mk.injEq] at stepped
      obtain ⟨rfl, rfl⟩ := stepped
      exact ⟨sound, fun done mem => absurd mem List.not_mem_nil⟩
  | store bytes =>
      simp only [step, Option.some.injEq, Prod.mk.injEq] at stepped
      obtain ⟨rfl, rfl⟩ := stepped
      exact ⟨sound, fun done mem => absurd mem List.not_mem_nil⟩

/-- As long as `sys_mmap` maps cleanly, all that it says in a run is true. -/
theorem mmap_tells_truth {box : LPSBoxInfo} {opts : LPSLinuxOpts} {trace : List MemDone}
    (started : LPSProc.Started box opts w.proc) (fits : box.base.toNat + box.size.toNat < 2 ^ 64)
    (run : Run step StepMapsCleanly w trace w') : ∀ done ∈ trace, done.Truthful := by
  apply run.forall_observed (fun w' => w'.proc.Loaded ∧ w'.proc.box.mm.Sound) MemDone.Truthful
  · exact ⟨started.loaded fits, started.sound fits⟩
  · rintro observed state next event ⟨loaded, sound⟩ clean stepped
    obtain ⟨kept, truthful⟩ := step_truthful loaded sound clean stepped
    exact ⟨⟨(step_keeps loaded stepped).loaded, kept⟩, truthful⟩

/-- With memory, what maps no file at an address maps cleanly wherever nothing is refused or
nothing is replaced. -/
theorem stepMapsCleanly_of_memory {addrp length off : Word} {prot flags : CInt}
    (memory : os.memory = fun _ => true) (pages : ceilp length (4 * 1024) ≠ 0)
    (grants : flags &&& LINUX_MAP_FIXED ≠ 0 → os.grants = fun _ _ => true) (w : MemWorld) :
    StepMapsCleanly w (.syscall (.mmap addrp length prot flags (-1) off) os) := by
  rintro -
  refine ⟨fun made _ _ _ _ _ _ _ _ => by rw [memory], fun _ => pages, fun isFixed => ⟨nofun, ?_⟩⟩
  intro _ kfd _ made
  rw [grants isFixed]

/-- The small process maps two pages at an address, is refused a third one, and replaces one of
the two. -/
theorem mmap_tells_truth_small :
    ∃ p trace w', LPSProc.Started smallBox smallOpts p ∧
      Run step StepMapsCleanly ⟨p, bareHost⟩ trace w' ∧
      trace.map (fun done => (done.call, done.value)) =
        [(.mmap 0x105000 0x1800 3 0x32 (-1) 0, 0x105000), (.mmap 0 0x1000 3 0x22 (-1) 0, -22),
          (.mmap 0x106123 1 1 0x32 (-1) 0, 0x106000)] ∧
      ∀ done ∈ trace, done.Truthful := by
  have seen : small step
      [.syscall (.mmap 0x105000 0x1800 3 0x32 (-1) 0) servingOs,
        .syscall (.mmap 0 0x1000 3 0x22 (-1) 0) refusingOs,
        .syscall (.mmap 0x106123 1 1 0x32 (-1) 0) servingOs]
      (fun _ trace => trace.map fun done => (done.call, done.value)) =
      some [(.mmap 0x105000 0x1800 3 0x32 (-1) 0, 0x105000), (.mmap 0 0x1000 3 0x22 (-1) 0, -22),
        (.mmap 0x106123 1 1 0x32 (-1) 0, 0x106000)] := by
    decide +kernel
  obtain ⟨p, trace, w', started, executed, calls⟩ := small_exec seen
  have run : Run step StepMapsCleanly ⟨p, bareHost⟩ trace w' := by
    apply run_of_exec_forall executed
    intro event mem
    rcases List.mem_cons.mp mem with rfl | mem
    · exact stepMapsCleanly_of_memory rfl (by decide) fun _ => rfl
    rcases List.mem_cons.mp mem with rfl | mem
    · exact stepMapsCleanly_of_memory rfl (by decide) fun isFixed => absurd isFixed (by decide)
    rw [List.mem_singleton.mp mem]
    exact stepMapsCleanly_of_memory rfl (by decide) fun _ => rfl
  exact ⟨p, trace, w', started, run, calls,
    @mmap_tells_truth ⟨p, bareHost⟩ _ _ _ _ started (by decide) run⟩

/-- For a descriptor without a file of the host, a mapping at an address is reported and not
made. -/
theorem mmap_reports_nothing :
    ¬∀ (box : LPSBoxInfo) (opts : LPSLinuxOpts) (w w' : MemWorld) (trace : List MemDone),
      LPSProc.Started box opts w.proc → box.base.toNat + box.size.toNat < 2 ^ 64 →
      Run step (Always MemWorld WorldEvent) w trace w' → ∀ done ∈ trace, done.Truthful := by
  intro claim
  have seen : small step
      [.assign 0 (some (-1)), .syscall (.mmap 0x105000 0x1000 3 0x12 0 0) servingOs]
      (fun _ trace => trace.map fun done =>
        (done.call, done.value, infoAt done.after.proc.box.mm.nodes 0x105)) =
      some [(.mmap 0x105000 0x1000 3 0x12 0 0, 0x105000, none)] := by
    decide +kernel
  obtain ⟨p, trace, w', started, executed, shown⟩ := small_exec seen
  obtain ⟨done, mem, shown⟩ := List.mem_map.mp (shown ▸ List.mem_cons_self)
  simp only [Prod.mk.injEq] at shown
  obtain ⟨call, value, recorded⟩ := shown
  rcases claim smallBox smallOpts ⟨p, bareHost⟩ w' trace started (by decide) (run_of_exec executed)
    done mem _ _ _ _ _ _ call with failed | mapped
  · have error := failed.error
    rw [value] at error
    exact absurd error (by decide)
  · obtain ⟨kfd, -, -, pages⟩ := mapped.backed
    have info := (pages 0 (by decide)).1
    rw [value] at info
    cases recorded.symm.trans info

end MemWorld

end Lps.Linux

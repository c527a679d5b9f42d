import Lps.Core.BoxMemSpec
import Lps.Linux.Proc

/-!
# Loaded processes

Loading succeeds only into a box of whole pages, whose heap window lies inside
the box: the host refuses addresses that are not page-aligned, and the stack of
the first thread ends where the box does.
-/

namespace Lps.Linux

open Lps.Core Lps.Program

/-- The host refuses to map at an address that is not page-aligned. -/
def refusesUnaligned : (c : HostCall) → HostReply c → Prop
  | .mmap addr _ _ _ _ _, reply => addr.toNat % 4096 ≠ 0 → reply = -1
  | _, _ => True

/-- Any behaviour of the runtime on such a host. -/
def loading : Contract HostCall HostReply Fault where
  replies := refusesUnaligned
  calls := fun _ => True
  faults := fun _ => True

/-- A host that has memory and maps whole pages wherever it is asked to. -/
def obliging : Prog.Host HostCall HostReply
  | _, .malloc => true
  | _, .mmap addr _ _ _ _ _ => if addr.toNat % 4096 = 0 then addr else -1
  | _, .mprotect .. => 0
  | _, .memcpy .. => ()
  | _, .memset .. => ()

theorem obliging_refuses (made : List HostCall) (c : HostCall) :
    refusesUnaligned c (obliging made c) := by
  cases c with
  | mmap addr len prot flags fd off => exact fun unaligned => if_neg unaligned
  | _ => trivial

theorem obliging_returns (box : LPSBoxInfo) (made : List HostCall) (c : HostCall) :
    (returning box).replies c (obliging made c) := by
  cases c with
  | malloc => rfl
  | mmap addr len prot flags fd off => exact fun _ multiple _ _ => if_pos multiple
  | _ => trivial

variable {box : LPSBox} {addr size : Word} {prot flags : CInt} {fd : Int} {off : Word}

/-- A mapping that succeeds is one of whole pages inside the box. -/
theorem lpsBoxMapat_loading (ok : box.Ok) :
    (lpsBoxMapat box addr size prot flags fd off).Meets loading fun (p, box') =>
      box.Keeps box' ∧ (p ≠ -1 → box.holds addr size = true ∧ box.accepts addr size = true ∧
        addr.toNat % 4096 = 0 ∧ box.mm.mmceil size ≠ 0) := by
  have may : box.MayMapat loading addr size prot flags fd off :=
    LPSBox.mayMapat_all (fun _ => trivial) fun _ => trivial
  refine (LPSBox.lpsBoxMapat_meets ok may).mono ?_
  rintro ⟨p, box'⟩ ⟨keeps, result⟩
  refine ⟨keeps, fun mapped => ?_⟩
  obtain ⟨inBox, ⟨accepted, aligned, pages, -⟩ | ⟨-, refused⟩⟩ := result.resolve_left mapped
  · exact ⟨inBox, accepted, (MMAddrSpace.aligned_iff ok.tracked.paged).mp aligned, pages⟩
  · exact absurd (refused (by decide)) mapped

/-! ## Rounding -/

theorem truncp_mod {x align : Word} (multiple : align.toNat % 4096 = 0) :
    (truncp x align).toNat % 4096 = 0 :=
  and_not_mod_page (by bv_omega)

theorem ceilp_mod {x align : Word} (multiple : align.toNat % 4096 = 0) :
    (ceilp x align).toNat % 4096 = 0 :=
  and_not_mod_page (by bv_omega)

/-! ## Loading -/

theorem elfTarget_record_loading {target : ElfTarget} {seg : ElfSeg} :
    (target.record seg).Meets loading fun (_, target') =>
      target' = { target with seginfo := target.seginfo ++ [seg] } := by
  rw [ElfTarget.record, Prog.meets_bind, Prog.meets_check]
  split
  · exact rfl
  · exact trivial

/-- Reading a segment keeps the box; a segment that was read lies in the box and is
recorded. -/
theorem bufReadElfseg_loading {target : ElfTarget} {start offset stop p_offset filesz memsz : Word}
    {prot : CInt} {buf : Buf} {pagesize p_align : Word} (ok : target.box.Ok) :
    (bufReadElfseg target start offset stop p_offset filesz memsz prot buf pagesize p_align).Meets
      loading fun (done, target') => target.box.Keeps target'.box ∧
        (done = true → target'.seginfo = target.seginfo ++ [⟨start, stop, prot⟩] ∧
          target.box.Contains start (stop - start)) := by
  have record : ∀ {box' : LPSBox}, target.box.Keeps box' →
      target.box.Contains start (stop - start) →
      (ElfTarget.record { target with box := box' } ⟨start, stop, prot⟩).Meets loading
        fun (done, last) => target.box.Keeps last.box ∧
          (done = true → last.seginfo = target.seginfo ++ [⟨start, stop, prot⟩] ∧
            target.box.Contains start (stop - start)) := by
    intro box' keeps contains
    refine elfTarget_record_loading.mono ?_
    rintro ⟨_, last⟩ rfl
    exact ⟨keeps, fun _ => ⟨rfl, contains⟩⟩
  have fails : ∀ {box' : LPSBox}, target.box.Keeps box' →
      target.box.Keeps box' ∧ (false = true →
        ({ target with box := box' } : ElfTarget).seginfo = target.seginfo ++ [⟨start, stop, prot⟩] ∧
          target.box.Contains start (stop - start)) :=
    fun keeps => ⟨keeps, nofun⟩
  rw [bufReadElfseg]
  split
  · rw [mapElfseg, Prog.meets_bind]
    refine (lpsBoxMapat_loading ok).mono ?_
    rintro ⟨p, box⟩ ⟨keeps, mapped⟩
    dsimp only
    split
    · exact fails keeps
    rename_i some
    obtain ⟨inBox, accepted, start_mod, pages⟩ := mapped some
    have contains := (contains_of_accepts ok accepted inBox start_mod pages).1
    split
    · split
      · exact fails keeps
      rw [Prog.meets_bind]
      refine ⟨trivial, fun _ _ => ?_⟩
      rw [Prog.meets_ret]
      split
      · rw [Prog.meets_bind]
        refine (lpsBoxMapat_loading keeps.ok).mono ?_
        rintro ⟨_, box'⟩ ⟨keeps', -⟩
        exact record (keeps.trans keeps') contains
      · exact record keeps contains
    · exact record keeps contains
  · rw [copyElfseg, Prog.meets_bind]
    refine (lpsBoxMapat_loading ok).mono ?_
    rintro ⟨p, box⟩ ⟨keeps, mapped⟩
    dsimp only
    split
    · exact fails keeps
    rename_i some
    obtain ⟨inBox, accepted, start_mod, pages⟩ := mapped some
    have contains := (contains_of_accepts ok accepted inBox start_mod pages).1
    rw [Prog.meets_bind]
    refine ⟨trivial, fun _ _ => ?_⟩
    rw [Prog.meets_ret]
    split
    · exact fails keeps
    rw [Prog.meets_bind]
    refine (LPSBox.lpsBoxMprotect_meets (fun _ => trivial) fun _ => trivial).mono fun r _ => ?_
    split
    · exact fails keeps
    · exact record keeps contains

/-- The loop keeps the box, and the image ends a number of pages behind the base. -/
theorem elfLoop_loading {elfbase : Word} {buf : Buf} {phdrs : List Elf64Phdr} {s : ElfLoop}
    {target : ElfTarget} {rem : Nat} (ok : target.box.Ok) (base_mod : s.base.toNat % 4096 = rem)
    (last_mod : s.last = 0 ∨ s.last.toNat % 4096 = rem) :
    (elfLoop elfbase buf phdrs s target).Meets loading fun (loop, target') =>
      target.box.Keeps target'.box ∧
        ∀ s', loop = some s' → s'.last = 0 ∨ s'.last.toNat % 4096 = rem := by
  induction phdrs generalizing s target with
  | nil =>
      refine ⟨ok.keeps, ?_⟩
      rintro s' ⟨⟩
      exact last_mod
  | cons p phdrs ih =>
      rw [elfLoop]
      split
      · exact ih ok base_mod last_mod
      split
      · exact ⟨ok.keeps, by simp⟩
      rename_i accepted
      simp only [Bool.not_eq_true', Bool.not_eq_false, Elf64Phdr.accepted, Bool.and_eq_true,
        decide_eq_true_eq] at accepted
      have multiple : p.p_align.toNat % 4096 = 0 := umod_page_eq_zero.mp accepted.1.1
      have start_mod : p.start.toNat % 4096 = 0 := truncp_mod multiple
      have stop_mod : p.stop.toNat % 4096 = 0 := ceilp_mod multiple
      rw [Prog.meets_bind]
      refine (bufReadElfseg_loading ok).mono ?_
      rintro ⟨done, target'⟩ ⟨keeps, -⟩
      dsimp only
      split
      · exact ⟨keeps, by simp⟩
      have base_mod' : (if s.base = 0 then s.base + p.start else s.base).toNat % 4096 = rem := by
        split
        · rw [BitVec.toNat_add]
          omega
        · exact base_mod
      generalize (if s.base = 0 then s.base + p.start else s.base) = base at base_mod' ⊢
      refine (ih keeps.ok base_mod' ?_).mono ?_
      · dsimp only
        split
        · right
          rw [BitVec.toNat_add]
          omega
        · exact last_mod
      · rintro ⟨loop, target''⟩ ⟨keeps', ends⟩
        exact ⟨keeps.trans keeps', ends⟩

/-- `elf_load_one` keeps the box, and the image ends a number of pages behind the
base. -/
theorem elfLoadOne_loading {target : ElfTarget} {buf : Buf} {base : Word} (ok : target.box.Ok) :
    (elfLoadOne target buf base).Meets loading fun (loaded, target') =>
      target.box.Keeps target'.box ∧
        ∀ info, loaded = some info → info.last = 0 ∨ info.last.toNat % 4096 = base.toNat % 4096 := by
  rw [elfLoadOne]
  split
  · exact ⟨ok.keeps, by simp⟩
  rw [Prog.meets_bind]
  refine ⟨trivial, fun memory _ => ?_⟩
  rw [Prog.meets_ret]
  split
  · exact ⟨ok.keeps, by simp⟩
  split
  · exact ⟨ok.keeps, by simp⟩
  rw [Prog.meets_bind]
  refine (elfLoop_loading ok rfl (.inl rfl)).mono ?_
  rintro ⟨loop, target'⟩ ⟨keeps, ends⟩
  cases loop with
  | none => exact ⟨keeps, by simp⟩
  | some s =>
      refine ⟨keeps, ?_⟩
      rintro info ⟨⟩
      exact ends s rfl

namespace LPSProc

/-- A loaded process with a thread: a box of whole pages with the stack at its
end, and a heap inside its window. -/
structure Loaded (p : LPSProc) : Prop where
  paged : p.box.Paged
  brk_mod : p.brkbase.toNat % 4096 = 0
  window : p.box.Contains p.brkbase p.opts.brksize
  brk : p.brksize < p.opts.brksize
  stack_mod : p.stackBase.toNat % 4096 = 0
  stack : p.box.Contains p.stackBase p.opts.stacksize

/-- After loading the heap window lies in the box, which starts at a page. -/
structure HasWindow (p : LPSProc) : Prop where
  ok : p.box.Ok
  base_mod : p.box.base.toNat % 4096 = 0
  brk_mod : p.brkbase.toNat % 4096 = 0
  window : p.box.Contains p.brkbase p.opts.brksize
  brk : p.brksize < p.opts.brksize

variable {p : LPSProc}

theorem procLoad_loading {buf : Buf} (ok : p.box.Ok) :
    (p.procLoad buf).Meets loading fun (loaded, p') => loaded = true → p'.HasWindow := by
  rw [procLoad, Prog.meets_bind]
  refine (elfLoadOne_loading ok).mono ?_
  rintro ⟨info, target⟩ ⟨keeps, ends⟩
  dsimp only at keeps ends ⊢
  cases info with
  | none => simp
  | some info =>
      rw [Prog.meets_bind]
      refine (lpsBoxMapat_loading keeps.ok).mono ?_
      rintro ⟨region, box⟩ ⟨keeps', mapped⟩
      intro loaded
      obtain ⟨inBox, accepted, brk_mod, pages⟩ := mapped (by simpa using loaded)
      obtain ⟨contains, pos, -⟩ := contains_of_accepts keeps.ok accepted inBox brk_mod pages
      have sameBase : box.base = p.box.base := by
        rw [keeps'.info, keeps.info]
      refine ⟨keeps'.ok, ?_, brk_mod, ?_, ?_⟩
      · have above := contains.1
        rw [keeps.info] at above
        rw [withBox_box, sameBase]
        rcases ends info rfl with zero | same
        · simp only [zero] at above
          change p.box.base.toNat ≤ 0 at above
          omega
        · omega
      · rw [withBox_box, keeps'.info]
        exact contains
      · exact pos

/-- A stack that was mapped ends where the box does. -/
theorem HasWindow.stacked {box : LPSBox} (window : p.HasWindow) (keeps : p.box.Keeps box)
    (inBox : p.box.holds p.stackBase p.opts.stacksize = true)
    (accepted : p.box.accepts p.stackBase p.opts.stacksize = true)
    (stack_mod : p.stackBase.toNat % 4096 = 0) (pages : p.box.mm.mmceil p.opts.stacksize ≠ 0) :
    (p.withBox box).Loaded := by
  obtain ⟨contains, pos, ends⟩ := contains_of_accepts window.ok accepted inBox stack_mod pages
  have base_mod := window.base_mod
  have fits := window.ok.fits
  have stackEnd : (p.stackBase.toNat + p.opts.stacksize.toNat) % 2 ^ 64 =
      p.box.base.toNat + p.box.size.toNat := by
    rw [← BitVec.toNat_add, stackBase, BitVec.sub_add_cancel, BitVec.toNat_add]
    exact Nat.mod_eq_of_lt fits
  have below := contains.2
  rw [Nat.mod_eq_of_lt (below.trans_lt fits)] at stackEnd
  have size_mod : p.box.size.toNat % 4096 = 0 := by omega
  have sameStack : (p.withBox box).stackBase = p.stackBase := by
    rw [stackBase, withBox_box, keeps.info, withBox_opts, stackBase]
  refine ⟨⟨keeps.ok, ?_, ?_⟩, window.brk_mod, ?_, window.brk, ?_, ?_⟩
  · rw [withBox_box, keeps.info]
    exact base_mod
  · rw [withBox_box, keeps.info]
    exact size_mod
  · rw [withBox_box, keeps.info]
    exact window.window
  · rw [sameStack]
    exact stack_mod
  · rw [withBox_box, keeps.info, sameStack]
    exact contains

theorem mapStack_loading (window : p.HasWindow) :
    p.mapStack.Meets loading fun (made, p') => made = true → p'.Loaded := by
  rw [mapStack, stackMapat, Prog.meets_bind, Prog.meets_bind]
  refine (lpsBoxMapat_loading window.ok).mono ?_
  rintro ⟨stack, box⟩ ⟨keeps, mapped⟩
  intro made
  obtain ⟨inBox, accepted, stack_mod, pages⟩ := mapped (by simpa using made)
  exact window.stacked keeps inBox accepted stack_mod pages

/-- The process was loaded into a new box below the end of the address space, by
either path, and has a thread. -/
inductive Started (box : LPSBoxInfo) (opts : LPSLinuxOpts) : LPSProc → Prop
  | mk {kfds : Nat → Option Int} {buf : Buf} {loadHost stackHost : Prog.Host HostCall HostReply}
      {loadCalls stackCalls : List HostCall} {p p' : LPSProc}
      (loadRefuses : ∀ made c, refusesUnaligned c (loadHost made c))
      (stackRefuses : ∀ made c, refusesUnaligned c (stackHost made c))
      (loaded : ((lpsProcNew box opts kfds).procLoad buf).run loadHost [] =
        (loadCalls, .ok (true, p)))
      (stacked : p.mapStack.run stackHost [] = (stackCalls, .ok (true, p'))) :
      Started box opts p'

/-- Make a process, load the image and make a thread. -/
def boot (box : LPSBoxInfo) (opts : LPSLinuxOpts) (kfds : Nat → Option Int) (buf : Buf)
    (host : Prog.Host HostCall HostReply) : Option LPSProc :=
  match ((lpsProcNew box opts kfds).procLoad buf).run host [] with
  | (_, .ok (true, p)) =>
      match p.mapStack.run host [] with
      | (_, .ok (true, p')) => some p'
      | _ => none
  | _ => none

theorem boot_started {box : LPSBoxInfo} {opts : LPSLinuxOpts} {kfds : Nat → Option Int} {buf : Buf}
    {host : Prog.Host HostCall HostReply} (refuses : ∀ made c, refusesUnaligned c (host made c))
    (booted : boot box opts kfds buf host = some p) : Started box opts p := by
  rw [boot] at booted
  split at booted
  · rename_i loaded
    split at booted
    · rename_i stacked
      cases booted
      exact .mk refuses refuses loaded stacked
    · cases booted
  · cases booted

theorem Started.loaded {box : LPSBoxInfo} {opts : LPSLinuxOpts} (started : Started box opts p)
    (fits : box.base.toNat + box.size.toNat < 2 ^ 64) : p.Loaded := by
  cases started with
  | mk loadRefuses stackRefuses loaded stacked =>
      have ok : box.track.Ok := LPSBoxInfo.track_ok fits
      have window := (procLoad_loading (p := lpsProcNew box opts _) ok).run_ok loadRefuses [] _
        (congrArg Prod.snd loaded) rfl
      exact (mapStack_loading window).run_ok stackRefuses [] _ (congrArg Prod.snd stacked) rfl

/-- Loading does not touch the options. -/
theorem procLoad_opts {buf : Buf} :
    (p.procLoad buf).Meets loading fun (_, p') => p'.opts = p.opts := by
  have anything : ∀ {α : Type} {prog : HostProg α}, prog.Meets loading fun _ => True :=
    Prog.meets_permitted (fun _ => trivial) fun _ => trivial
  rw [procLoad, Prog.meets_bind]
  refine anything.mono ?_
  rintro ⟨info, target⟩ -
  cases info with
  | none => exact rfl
  | some info =>
      rw [Prog.meets_bind]
      exact anything.mono fun _ _ => rfl

theorem Started.opts {box : LPSBoxInfo} {opts : LPSLinuxOpts} (started : Started box opts p) :
    p.opts = opts := by
  cases started with
  | @mk kfds buf loadHost stackHost _ _ p _ loadRefuses stackRefuses loaded stacked =>
      have stack : p.mapStack.Meets loading fun (_, p') => p'.opts = p.opts := by
        rw [mapStack, stackMapat, Prog.meets_bind, Prog.meets_bind]
        exact (Prog.meets_permitted (fun _ => trivial) fun _ => trivial).mono fun _ _ => rfl
      have afterStack := stack.run_ok stackRefuses [] _ (congrArg Prod.snd stacked)
      have afterLoad := procLoad_opts.run_ok loadRefuses [] _ (congrArg Prod.snd loaded)
      exact afterStack.trans afterLoad

/-- The memory operations of a loaded process keep it loaded. -/
theorem Loaded.withBox {box : LPSBox} (loaded : p.Loaded) (keeps : p.box.Keeps box) :
    (p.withBox box).Loaded := by
  have sameStack : (p.withBox box).stackBase = p.stackBase := by
    rw [stackBase, withBox_box, keeps.info, withBox_opts, stackBase]
  refine ⟨loaded.paged.keeps keeps, loaded.brk_mod, ?_, loaded.brk, ?_, ?_⟩
  · rw [withBox_box, keeps.info]
    exact loaded.window
  · rw [sameStack]
    exact loaded.stack_mod
  · rw [withBox_box, keeps.info, sameStack]
    exact loaded.stack

end LPSProc

/-! ## What loading keeps of the box -/

/-- `lps_box_mapat` keeps a property of the box. -/
def KeptByMapat (P : LPSBox → Prop) : Prop :=
  ∀ box addr size prot flags fd off, P box →
    (lpsBoxMapat box addr size prot flags fd off).Meets loading fun (_, box') => P box'

namespace KeptByMapat

variable {P : LPSBox → Prop} {target : ElfTarget} {buf : Buf}

/-- Recording a segment does not touch the box. -/
theorem record {seg : ElfSeg} (holds : P target.box) :
    (target.record seg).Meets loading fun (_, target') => P target'.box := by
  apply elfTarget_record_loading.mono
  rintro ⟨_, last⟩ rfl
  exact holds

theorem bufReadElfseg {start offset stop p_offset filesz memsz : Word} {prot : CInt}
    {pagesize p_align : Word} (kept : KeptByMapat P) (holds : P target.box) :
    (bufReadElfseg target start offset stop p_offset filesz memsz prot buf pagesize p_align).Meets
      loading fun (_, target') => P target'.box := by
  rw [Linux.bufReadElfseg]
  split
  · rw [mapElfseg, Prog.meets_bind]
    apply (kept _ _ _ _ _ _ _ holds).mono
    rintro ⟨p, box⟩ mapped
    dsimp only
    split
    · exact mapped
    split
    · split
      · exact mapped
      rw [Prog.meets_bind]
      refine ⟨trivial, fun _ _ => ?_⟩
      rw [Prog.meets_ret]
      split
      · rw [Prog.meets_bind]
        apply (kept _ _ _ _ _ _ _ mapped).mono
        exact fun _ again => record again
      · exact record mapped
    · exact record mapped
  · rw [copyElfseg, Prog.meets_bind]
    apply (kept _ _ _ _ _ _ _ holds).mono
    rintro ⟨p, box⟩ mapped
    dsimp only
    split
    · exact mapped
    rw [Prog.meets_bind]
    refine ⟨trivial, fun _ _ => ?_⟩
    rw [Prog.meets_ret]
    split
    · exact mapped
    rw [Prog.meets_bind]
    apply (LPSBox.lpsBoxMprotect_meets (fun _ => trivial) fun _ => trivial).mono
    intro r _
    split
    · exact mapped
    · exact record mapped

theorem elfLoop {elfbase : Word} {phdrs : List Elf64Phdr} {s : ElfLoop} (kept : KeptByMapat P)
    (holds : P target.box) :
    (elfLoop elfbase buf phdrs s target).Meets loading fun (_, target') => P target'.box := by
  induction phdrs generalizing s target with
  | nil => exact holds
  | cons p phdrs ih =>
      rw [Linux.elfLoop]
      split
      · exact ih holds
      split
      · exact holds
      rw [Prog.meets_bind]
      apply (kept.bufReadElfseg holds).mono
      rintro ⟨done, target'⟩ read
      dsimp only
      split
      · exact read
      · exact ih read

theorem elfLoadOne {base : Word} (kept : KeptByMapat P) (holds : P target.box) :
    (elfLoadOne target buf base).Meets loading fun (_, target') => P target'.box := by
  rw [Linux.elfLoadOne]
  split
  · exact holds
  rw [Prog.meets_bind]
  refine ⟨trivial, fun memory _ => ?_⟩
  rw [Prog.meets_ret]
  split
  · exact holds
  split
  · exact holds
  rw [Prog.meets_bind]
  apply (kept.elfLoop holds).mono
  rintro ⟨loop, target'⟩ looped
  cases loop with
  | none => exact looped
  | some s => exact looped

variable {p : LPSProc}

theorem procLoad (kept : KeptByMapat P) (holds : P p.box) :
    (p.procLoad buf).Meets loading fun (_, p') => P p'.box := by
  rw [LPSProc.procLoad, Prog.meets_bind]
  apply (@elfLoadOne _ p.toElfTarget _ _ kept holds).mono
  rintro ⟨info, target⟩ read
  cases info with
  | none => exact read
  | some info =>
      rw [Prog.meets_bind]
      exact (kept _ _ _ _ _ _ _ read).mono fun _ mapped => mapped

theorem mapStack (kept : KeptByMapat P) (holds : P p.box) :
    p.mapStack.Meets loading fun (_, p') => P p'.box := by
  rw [LPSProc.mapStack, LPSProc.stackMapat, Prog.meets_bind, Prog.meets_bind]
  exact (kept _ _ _ _ _ _ _ holds).mono fun _ mapped => mapped

/-- What holds of a new box and is kept by `lps_box_mapat` holds of a process that was
started in it. -/
theorem started {box : LPSBoxInfo} {opts : LPSLinuxOpts} (kept : KeptByMapat P)
    (new : P box.track) (started : LPSProc.Started box opts p) : P p.box := by
  cases started with
  | @mk kfds buf loadHost stackHost _ _ p _ loadRefuses stackRefuses loaded stacked =>
      have afterLoad := (@procLoad _ buf (lpsProcNew box opts kfds) kept new).run_ok
        loadRefuses [] _ (congrArg Prod.snd loaded)
      exact (kept.mapStack afterLoad).run_ok stackRefuses [] _ (congrArg Prod.snd stacked)

end KeptByMapat

end Lps.Linux

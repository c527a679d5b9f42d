import Lps.Core.Engine
import Lps.Linux.SysMemHost
import Mathlib.Data.List.Pairwise
import Mathlib.Order.CompletePartialOrder
import Mathlib.Order.Interval.Set.Disjoint

/-!
# The layout of a process

Segments are loaded from the base of the box upward, the heap window follows the last one,
and every stack ends where the box does.  Nothing but the end of the box is checked, so the
regions lie apart only when the image leaves room for the heap and for one stack.
-/

namespace Lps.Linux

open Lps.Core Lps.Program Lps.Transition

/-! ## Where an image is loaded -/

/-- The base with which the loop of `elf_load_one` goes on behind a segment. -/
def Elf64Phdr.nextBase (p : Elf64Phdr) (base : Word) : Word :=
  if base = 0 then base + p.start else base

/-- The ranges the loop of `elf_load_one` loads segments to. -/
def loadRanges : Word → List Elf64Phdr → List (Word × Word)
  | _, [] => []
  | base, p :: phdrs =>
      if p.skipped then loadRanges base phdrs
      else (base + p.start, base + p.stop) :: loadRanges (p.nextBase base) phdrs

/-- What the loop of `elf_load_one` leaves in `last`. -/
def loadEnd : Word → Word → List Elf64Phdr → Word
  | _, last, [] => last
  | base, last, p :: phdrs =>
      if p.skipped then loadEnd base last phdrs
      else
        let stop := p.nextBase base + p.stop
        loadEnd (p.nextBase base) (if stop > last then stop else last) phdrs

/-- `start` and `end` of a recorded segment. -/
def ElfSeg.range (seg : ElfSeg) : Word × Word := (seg.start, seg.stop)

/-- A segment that has bytes and ends before `last`. -/
def ElfSeg.EndsBy (last : Word) (seg : ElfSeg) : Prop :=
  seg.start.toNat < seg.stop.toNat ∧ seg.stop.toNat ≤ last.toNat

/-- The loop records the ranges it loads, all of which end by `last`. -/
theorem elfLoop_layout {elfbase : Word} {buf : Buf} {phdrs : List Elf64Phdr} {s : ElfLoop}
    {target : ElfTarget} (ok : target.box.Ok) (ends : ∀ seg ∈ target.seginfo, seg.EndsBy s.last) :
    (elfLoop elfbase buf phdrs s target).Meets loading fun (loop, target') =>
      target.box.Keeps target'.box ∧ ∀ s', loop = some s' →
        target'.seginfo.map ElfSeg.range =
            target.seginfo.map ElfSeg.range ++ loadRanges s.base phdrs ∧
          s'.last = loadEnd s.base s.last phdrs ∧ ∀ seg ∈ target'.seginfo, seg.EndsBy s'.last := by
  induction phdrs generalizing s target with
  | nil =>
      refine ⟨ok.keeps, ?_⟩
      rintro s' ⟨⟩
      exact ⟨(List.append_nil _).symm, rfl, ends⟩
  | cons p phdrs ih =>
      rw [elfLoop]
      split
      · rename_i skips
        rw [loadRanges, loadEnd, if_pos skips, if_pos skips]
        exact ih ok ends
      rename_i loads
      rw [loadRanges, loadEnd, if_neg loads, if_neg loads]
      split
      · exact ⟨ok.keeps, by rintro _ ⟨⟩⟩
      rename_i accepted
      simp only [Bool.not_eq_true', Bool.not_eq_false, Elf64Phdr.accepted, Bool.and_eq_true,
        Bool.or_eq_false_iff, decide_eq_false_iff_not, ge_iff_le, BitVec.le_def] at accepted
      obtain ⟨-, ⟨proper, startSmall⟩, stopSmall⟩ := accepted
      rw [Prog.meets_bind]
      refine (bufReadElfseg_loading ok).mono ?_
      rintro ⟨done, target'⟩ ⟨keeps, recorded⟩
      rcases done with _ | _
      · exact ⟨keeps, by rintro _ ⟨⟩⟩
      obtain ⟨seginfo, -, below⟩ := recorded rfl
      dsimp only at seginfo ⊢
      rw [Bool.not_true, if_neg Bool.false_ne_true]
      have fits := ok.fits
      -- The segment ends by the new end, behind the base it was loaded at.
      have size : (s.base + p.start).toNat < (s.base + p.stop).toNat ∧
          (s.base + p.stop).toNat ≤ (p.nextBase s.base + p.stop).toNat := by
        have codeMax : CODE_MAX.toNat = 2 ^ 30 := rfl
        rw [codeMax] at startSmall stopSmall
        rw [Elf64Phdr.nextBase]
        split <;> bv_omega
      have isMax : ∀ stop last : Word,
          (if stop > last then stop else last).toNat = max stop.toNat last.toNat := by
        intro stop last
        split <;> bv_omega
      refine (ih keeps.ok fun seg mem => ?_).mono ?_
      · rw [seginfo] at mem
        rw [ElfSeg.EndsBy]
        dsimp only
        rw [isMax]
        rcases List.mem_append.mp mem with old | new
        · obtain ⟨some, before⟩ := ends seg old
          exact ⟨some, before.trans (le_max_right _ _)⟩
        · rw [List.mem_singleton.mp new]
          exact ⟨size.1, size.2.trans (le_max_left _ _)⟩
      · rintro ⟨loop, target''⟩ ⟨keeps', loaded⟩
        refine ⟨keeps.trans keeps', fun s' isLoop => ?_⟩
        obtain ⟨ranges, isLast, endsBy⟩ := loaded s' isLoop
        refine ⟨?_, isLast, endsBy⟩
        rw [ranges, seginfo, List.map_append, List.append_assoc]
        rfl

namespace LPSProc

variable {p : LPSProc}

/-- Loading records the ranges of the image and puts the heap window behind them. -/
theorem procLoad_layout {buf : Buf} (ok : p.box.Ok) (fresh : p.seginfo = []) :
    (p.procLoad buf).Meets loading fun (loaded, p') => loaded = true →
      p'.box.toLPSBoxInfo = p.box.toLPSBoxInfo ∧
        p'.seginfo.map ElfSeg.range = loadRanges p.box.base buf.phdrs ∧
        p'.brkbase = loadEnd p.box.base 0 buf.phdrs ∧
        ∀ seg ∈ p'.seginfo, seg.EndsBy p'.brkbase := by
  rw [procLoad, Prog.meets_bind, elfLoadOne]
  split
  · rintro ⟨⟩
  rw [Prog.meets_bind]
  refine ⟨trivial, fun memory _ => ?_⟩
  rw [Prog.meets_ret]
  split
  · rintro ⟨⟩
  split
  · rintro ⟨⟩
  rw [Prog.meets_bind]
  have none : ∀ seg ∈ p.seginfo, seg.EndsBy 0 := by
    rw [fresh]
    exact fun seg mem => absurd mem List.not_mem_nil
  refine (@elfLoop_layout p.box.base buf buf.phdrs ⟨p.box.base, 0, 0⟩ p.toElfTarget ok none).mono ?_
  rintro ⟨loop, target⟩ ⟨keeps, loaded⟩
  rcases loop with _ | s
  · rintro ⟨⟩
  obtain ⟨ranges, isLast, ends⟩ := loaded s rfl
  rw [fresh] at ranges
  dsimp only
  rw [Prog.meets_pure]
  dsimp only
  rw [Prog.meets_bind]
  refine (lpsBoxMapat_loading keeps.ok).mono ?_
  rintro ⟨region, box⟩ ⟨keeps', -⟩ _
  exact ⟨keeps'.info.trans keeps.info, ranges, isLast, ends⟩

/-- `lps_proc_load` or `lps_proc_load_fd` accepted the image for a new process. -/
inductive Accepted (box : LPSBoxInfo) (opts : LPSLinuxOpts) (buf : Buf) : LPSProc → Prop
  | mk {kfds : Nat → Option Int} {host : MemHost} {calls : List HostCall} {p : LPSProc}
      (refuses : ∀ made c, refusesUnaligned c (host made c))
      (loaded : ((lpsProcNew box opts kfds).procLoad buf).run host [] = (calls, .ok (true, p))) :
      Accepted box opts buf p

/-- Load an image for a new process. -/
def load (box : LPSBoxInfo) (opts : LPSLinuxOpts) (kfds : Nat → Option Int) (buf : Buf)
    (host : MemHost) : Option LPSProc :=
  match ((lpsProcNew box opts kfds).procLoad buf).run host [] with
  | (_, .ok (true, p)) => some p
  | _ => none

theorem load_accepted {box : LPSBoxInfo} {opts : LPSLinuxOpts} {kfds : Nat → Option Int} {buf : Buf}
    {host : MemHost} (refuses : ∀ made c, refusesUnaligned c (host made c))
    (loaded : load box opts kfds buf host = some p) : Accepted box opts buf p := by
  rw [load] at loaded
  split at loaded
  · rename_i run
    cases loaded
    exact .mk refuses run
  · cases loaded

/-- The regions of an accepted image. -/
structure LaidOut (box : LPSBoxInfo) (opts : LPSLinuxOpts) (buf : Buf) (p : LPSProc) : Prop where
  window : p.HasWindow
  info : p.box.toLPSBoxInfo = box
  opts : p.opts = opts
  ranges : p.seginfo.map ElfSeg.range = loadRanges box.base buf.phdrs
  brkbase : p.brkbase = loadEnd box.base 0 buf.phdrs
  ends : ∀ seg ∈ p.seginfo, seg.EndsBy p.brkbase

theorem Accepted.laidOut {box : LPSBoxInfo} {opts : LPSLinuxOpts} {buf : Buf}
    (accepted : Accepted box opts buf p) (fits : box.base.toNat + box.size.toNat < 2 ^ 64) :
    LaidOut box opts buf p := by
  cases accepted with
  | @mk kfds host calls _ refuses loaded =>
      have ok : (lpsProcNew box opts kfds).box.Ok := LPSBoxInfo.track_ok fits
      have returned := congrArg Prod.snd loaded
      have window := (procLoad_loading ok).run_ok refuses [] _ returned rfl
      have sameOpts := procLoad_opts.run_ok refuses [] _ returned
      obtain ⟨info, ranges, brkbase, ends⟩ := (procLoad_layout ok rfl).run_ok refuses [] _ returned rfl
      exact ⟨window, info, sameOpts, ranges, brkbase, ends⟩

end LPSProc

/-! ## Threads -/

/-- `t->stack` and `t->stack_size`. -/
structure ThreadStack where
  stack : Word
  stackSize : Word
  deriving DecidableEq

/-- The allocations of `lps_ctx_new`. -/
def lpsCtxNew : HostProg Bool := do
  if !(← malloc) then return false
  malloc

theorem lpsCtxNew_meets {contract : Contract HostCall HostReply Fault}
    (mallocs : contract.calls .malloc) : lpsCtxNew.Meets contract fun _ => True := by
  rw [lpsCtxNew, Prog.meets_bind]
  refine ⟨mallocs, fun memory _ => ?_⟩
  rw [Prog.meets_ret]
  split
  · exact trivial
  · exact ⟨mallocs, fun _ _ => trivial⟩

namespace LPSProc

variable {p : LPSProc}

/-- `lps_thread_new`, up to the stack of the thread. -/
def lpsThreadNew (p : LPSProc) : HostProg (Option ThreadStack × LPSProc) := do
  if !(← malloc) then return (none, p)
  if !(← lpsCtxNew) then return (none, p)
  let (stack, p) ← p.stackMapat
  if stack = -1 then return (none, p)
  return (some ⟨stack, p.opts.stacksize⟩, p)

/-- The thread that `lps_thread_new` makes has its stack at the end of the box. -/
theorem lpsThreadNew_hosted (window : p.HasWindow) :
    p.lpsThreadNew.Meets hosted fun (made, p') => ∃ box, p.box.Keeps box ∧ p' = p.withBox box ∧
      ∀ t, made = some t →
        p'.Loaded ∧ 0 < p.opts.stacksize.toNat ∧ t = ⟨p.stackBase, p.opts.stacksize⟩ := by
  have same : p = p.withBox p.box := rfl
  rw [lpsThreadNew, Prog.meets_bind]
  refine ⟨trivial, fun memory _ => ?_⟩
  rw [Prog.meets_ret]
  split
  · exact ⟨p.box, window.ok.keeps, same, by rintro _ ⟨⟩⟩
  rw [Prog.meets_bind]
  refine (lpsCtxNew_meets trivial).mono fun context _ => ?_
  split
  · exact ⟨p.box, window.ok.keeps, same, by rintro _ ⟨⟩⟩
  rw [Prog.meets_bind, stackMapat, Prog.meets_bind]
  refine (LPSBox.lpsBoxMapat_meets window.ok
    (LPSBox.mayMapat_all (fun _ => trivial) fun _ => trivial)).mono ?_
  rintro ⟨stack, box⟩ ⟨keeps, result⟩
  rw [Prog.meets_pure]
  dsimp only
  split
  · exact ⟨box, keeps, rfl, by rintro _ ⟨⟩⟩
  rename_i mapped
  refine ⟨box, keeps, rfl, ?_⟩
  rintro t ⟨⟩
  obtain ⟨inBox, ⟨accepted, aligned, pages, failed | ⟨address, places⟩⟩ | ⟨-, failed | ⟨-, places⟩⟩⟩ :=
    result.resolve_left mapped
  · exact absurd failed mapped
  · obtain ⟨-, pos, -⟩ := contains_of_accepts window.ok accepted inBox places.1 pages
    exact ⟨window.stacked keeps inBox accepted places.1 pages, pos, by rw [address, withBox_opts]⟩
  · exact absurd failed mapped
  · exact absurd places.1 (by decide)

/-- Making a thread leaves alone the pages in front of its stack. -/
theorem lpsThreadNew_sparing (ok : p.box.Ok) :
    p.lpsThreadNew.Meets (sparing fun q => 4096 * q < p.stackBase.toNat) fun _ => True := by
  rw [lpsThreadNew, Prog.meets_bind]
  refine ⟨fun _ _ => trivial, fun memory _ => ?_⟩
  rw [Prog.meets_ret]
  split
  · exact trivial
  rw [Prog.meets_bind]
  refine (lpsCtxNew_meets fun _ _ => trivial).mono fun context _ => ?_
  split
  · exact trivial
  rw [Prog.meets_bind]
  have maps : (lpsBoxMapat p.box p.stackBase p.opts.stacksize (PROT_READ ||| PROT_WRITE)
      (MAP_PRIVATE ||| MAP_ANONYMOUS) (-1) 0).Meets (sparing fun q => 4096 * q < p.stackBase.toNat)
      fun _ => True := by
    by_cases stack_mod : p.stackBase.toNat % 4096 = 0
    · refine (LPSBox.lpsBoxMapat_meets ok (LPSBox.mayMapat_sparing ok ?_)).mono fun _ _ => trivial
      intro q before inPages
      have start := inPages.1
      omega
    · have unaligned : ¬p.box.mm.aligned p.stackBase = true :=
        fun aligned => stack_mod ((MMAddrSpace.aligned_iff ok.tracked.paged).mp aligned)
      rw [lpsBoxMapat, MMAddrSpace.mmMapatCb_rejects fun accepted => unaligned accepted.1,
        if_neg unaligned, Prog.meets_bind, Prog.meets_check]
      split <;> exact trivial
  rw [stackMapat, Prog.meets_bind]
  refine maps.mono ?_
  rintro ⟨stack, box⟩ -
  rw [Prog.meets_pure]
  dsimp only
  split <;> exact trivial

theorem HasWindow.withBox {box : LPSBox} (window : p.HasWindow) (keeps : p.box.Keeps box) :
    (p.withBox box).HasWindow := by
  refine ⟨keeps.ok, ?_, window.brk_mod, ?_, window.brk⟩
  · rw [withBox_box, keeps.info]
    exact window.base_mod
  · rw [withBox_box, keeps.info]
    exact window.window

theorem Loaded.hasWindow (loaded : p.Loaded) : p.HasWindow :=
  ⟨loaded.paged.toOk, loaded.paged.base_mod, loaded.brk_mod, loaded.window, loaded.brk⟩

/-- The stack ends where the box does. -/
theorem Loaded.stackEnd (loaded : p.Loaded) :
    p.stackBase.toNat + p.opts.stacksize.toNat = p.box.base.toNat + p.box.size.toNat := by
  have fits := loaded.paged.fits
  obtain ⟨-, below⟩ := loaded.stack
  rw [stackBase] at below ⊢
  bv_omega

end LPSProc

/-! ## Runs -/

/-- A process on its host, and the stacks of its threads. -/
structure ThreadWorld extends MemWorld where
  threads : List ThreadStack

namespace ThreadWorld

/-- One step: another thread is made, or the threads that there are go on. -/
def step : Step ThreadWorld WorldEvent MemDone := fun w event =>
  match event with
  | .threadNew os => do
      let (made, w') ← MemWorld.leave (w.proc.lpsThreadNew.play os.answer w.entered)
      some (⟨w', w.threads ++ made.toList⟩, [])
  | event =>
      if w.threads = [] then none
      else do
        let (w', observed) ← w.toMemWorld.step event
        some (⟨w', w.threads⟩, observed)

/-- A process that was loaded as `p` has all its stacks at the end of the box. -/
structure Keeps (p : LPSProc) (w : ThreadWorld) : Prop where
  window : w.proc.HasWindow
  info : w.proc.box.toLPSBoxInfo = p.box.toLPSBoxInfo
  opts : w.proc.opts = p.opts
  loaded : w.threads ≠ [] → w.proc.Loaded ∧ 0 < p.opts.stacksize.toNat
  placed : ∀ t ∈ w.threads, t = ⟨p.stackBase, p.opts.stacksize⟩

variable {p : LPSProc} {w w' : ThreadWorld} {event : WorldEvent} {observed : List MemDone}

theorem Keeps.stackBase (keeps : w.Keeps p) : w.proc.stackBase = p.stackBase := by
  rw [LPSProc.stackBase, keeps.info, keeps.opts, LPSProc.stackBase]

/-- A thread is made, or not. -/
theorem step_threadNew {os : Os} (stepped : step w (.threadNew os) = some (w', observed)) :
    ∃ made, w.proc.lpsThreadNew.Returns os.answer w.entered (made, w'.proc) w'.host ∧
      w'.threads = w.threads ++ made.toList := by
  simp only [step, Option.bind_eq_bind, Option.bind_eq_some_iff, Option.some.injEq,
    Prod.mk.injEq] at stepped
  obtain ⟨⟨made, next⟩, left, rfl, -⟩ := stepped
  exact ⟨made, MemWorld.leave_eq_some left, rfl⟩

/-- The threads go on. -/
theorem step_goesOn (other : ∀ os, event ≠ .threadNew os)
    (stepped : step w event = some (w', observed)) :
    w.threads ≠ [] ∧ w'.threads = w.threads ∧
      w.toMemWorld.step event = some (w'.toMemWorld, observed) := by
  have goesOn : (if w.threads = [] then none
      else do
        let (w', observed) ← w.toMemWorld.step event
        some ((⟨w', w.threads⟩ : ThreadWorld), observed)) = some (w', observed) := by
    cases event with
    | threadNew os => exact absurd rfl (other os)
    | syscall call os => exact stepped
    | assign fd kfd => exact stepped
    | store bytes => exact stepped
  split at goesOn
  · cases goesOn
  · rename_i some
    simp only [Option.bind_eq_bind, Option.bind_eq_some_iff, Option.some.injEq,
      Prod.mk.injEq] at goesOn
    obtain ⟨⟨next, seen⟩, done, rfl, rfl⟩ := goesOn
    exact ⟨some, rfl, done⟩

/-- Every step keeps the stacks where they are. -/
theorem step_keeps (keeps : w.Keeps p) (stepped : step w event = some (w', observed)) :
    w'.Keeps p := by
  by_cases isNew : ∃ os, event = .threadNew os
  · obtain ⟨os, rfl⟩ := isNew
    obtain ⟨made, returns, threads⟩ := step_threadNew stepped
    obtain ⟨box, boxKeeps, same, thread⟩ :=
      (LPSProc.lpsThreadNew_hosted keeps.window).returns os.answer_hosted returns
    rw [keeps.stackBase, keeps.opts] at thread
    refine ⟨?_, ?_, ?_, fun some => ?_, fun t mem => ?_⟩
    · rw [same]
      exact keeps.window.withBox boxKeeps
    · rw [same]
      exact boxKeeps.info.trans keeps.info
    · rw [same]
      exact keeps.opts
    · cases made with
      | none =>
          rw [threads, Option.toList_none, List.append_nil] at some
          obtain ⟨loaded, pos⟩ := keeps.loaded some
          rw [same]
          exact ⟨loaded.withBox boxKeeps, pos⟩
      | some t =>
          obtain ⟨loaded, pos, -⟩ := thread t rfl
          exact ⟨loaded, pos⟩
    · rw [threads] at mem
      rcases List.mem_append.mp mem with old | new
      · exact keeps.placed t old
      · exact (thread t (Option.mem_toList.mp new)).2.2
  · obtain ⟨some, threads, done⟩ := step_goesOn (fun os same => isNew ⟨os, same⟩) stepped
    obtain ⟨loaded, pos⟩ := keeps.loaded some
    have kept := MemWorld.step_keeps loaded done
    refine ⟨kept.loaded.hasWindow, kept.info.trans keeps.info, kept.opts.trans keeps.opts,
      fun _ => ⟨kept.loaded, pos⟩, fun t mem => ?_⟩
    rw [threads] at mem
    exact keeps.placed t mem

end ThreadWorld

/-! ## Disjoint regions -/

/-- The bytes of a segment. -/
def ElfSeg.bytes (seg : ElfSeg) : Set Nat := Set.Ico seg.start.toNat seg.stop.toNat

/-- The bytes of a stack. -/
def ThreadStack.bytes (t : ThreadStack) : Set Nat := bytesAt t.stack t.stackSize.toNat

/-- The loaded segments, the heap window and the stacks of a process. -/
def LPSProc.regions (p : LPSProc) (threads : List ThreadStack) : List (Set Nat) :=
  p.seginfo.map ElfSeg.bytes ++
    bytesAt p.brkbase p.opts.brksize.toNat :: threads.map ThreadStack.bytes

/-- The segments of the image lie apart, there is at most one thread, and in front of its stack
there is room for the image and the heap window. -/
def HasRoom (box : LPSBoxInfo) (opts : LPSLinuxOpts) (buf : Buf) (threads : Nat) : Prop :=
  (loadRanges box.base buf.phdrs).Pairwise (fun first second =>
      first.2 ≤ second.1 ∨ second.2 ≤ first.1) ∧
    (threads = 0 ∨ threads = 1 ∧
      (loadEnd box.base 0 buf.phdrs).toNat + opts.brksize.toNat + opts.stacksize.toNat ≤
        box.base.toNat + box.size.toNat)

/-- Ranges that have bytes are disjoint when one ends before the other starts. -/
theorem disjoint_iff {a b c d : Nat} (first : a < b) (second : c < d) :
    Disjoint (Set.Ico a b) (Set.Ico c d) ↔ b ≤ c ∨ d ≤ a := by
  rw [Set.Ico_disjoint_Ico]
  omega

namespace ThreadWorld

variable {p : LPSProc} {w w' : ThreadWorld} {box : LPSBoxInfo} {opts : LPSLinuxOpts} {buf : Buf}

/-- A segment ends before the heap window starts. -/
theorem segment_window (laid : LPSProc.LaidOut box opts buf p) {seg : ElfSeg}
    (mem : seg ∈ p.seginfo) : Disjoint seg.bytes (bytesAt p.brkbase p.opts.brksize.toNat) := by
  refine Set.Ico_disjoint_Ico.mpr ?_
  have ends := (laid.ends seg mem).2
  omega

/-- A stack at the end of the box lies apart from the heap window when it starts behind it. -/
theorem Keeps.window_stack (keeps : w.Keeps p) (laid : LPSProc.LaidOut box opts buf p)
    {t : ThreadStack} (mem : t ∈ w.threads) :
    Disjoint (bytesAt p.brkbase p.opts.brksize.toNat) t.bytes ↔
      p.brkbase.toNat + p.opts.brksize.toNat + p.opts.stacksize.toNat ≤
        box.base.toNat + box.size.toNat := by
  have brk := laid.window.brk
  have below := laid.window.window.2
  obtain ⟨loaded, pos⟩ := keeps.loaded (List.ne_nil_of_mem mem)
  have stackEnd := loaded.stackEnd
  rw [BitVec.lt_def] at brk
  rw [laid.info] at below
  rw [keeps.stackBase, keeps.info, keeps.opts, laid.info] at stackEnd
  rw [keeps.placed t mem, ThreadStack.bytes, bytesAt, bytesAt,
    Lps.Linux.disjoint_iff (by omega) (by dsimp only; omega)]
  dsimp only
  omega

/-- A segment lies apart from a stack behind the heap window. -/
theorem Keeps.segment_stack (keeps : w.Keeps p) (laid : LPSProc.LaidOut box opts buf p)
    (room : p.brkbase.toNat + p.opts.brksize.toNat + p.opts.stacksize.toNat ≤
      box.base.toNat + box.size.toNat) {seg : ElfSeg} (memSeg : seg ∈ p.seginfo) {t : ThreadStack}
    (mem : t ∈ w.threads) : Disjoint seg.bytes t.bytes := by
  have ends := (laid.ends seg memSeg).2
  obtain ⟨loaded, pos⟩ := keeps.loaded (List.ne_nil_of_mem mem)
  have stackEnd := loaded.stackEnd
  rw [keeps.stackBase, keeps.info, keeps.opts, laid.info] at stackEnd
  rw [keeps.placed t mem, ThreadStack.bytes, bytesAt]
  refine Set.Ico_disjoint_Ico.mpr ?_
  dsimp only
  omega

/-- The context of a thread admits its stack, which is mapped in the box of the context. -/
theorem Keeps.stack_admitted (keeps : w.Keeps p) {t : ThreadStack} (mem : t ∈ w.threads) {id : BoxId}
    {ctx : LPSContext} (made : Core.lpsThreadNew id w.proc.box.toLPSBoxInfo true = some ctx) :
    ∀ a ∈ t.bytes, ctx.bounds.Admits a := by
  intro a inside
  obtain ⟨loaded, -⟩ := keeps.loaded (List.ne_nil_of_mem mem)
  have stackEnd := loaded.stackEnd
  have confined := lpsThreadNew_confined loaded.paged.fits made
  have info : ctx.info = w.proc.box.toLPSBoxInfo := by
    cases made
    rfl
  rw [confined.admits_iff, info, LPSBoxInfo.bytes, bytesAt, ← stackEnd, keeps.stackBase, keeps.opts]
  rw [keeps.placed t mem, ThreadStack.bytes, bytesAt] at inside
  have start := loaded.stack.1
  rw [keeps.stackBase] at start
  exact ⟨start.trans inside.1, inside.2⟩

/-- No two threads have disjoint stacks. -/
theorem Keeps.one_stack (keeps : w.Keeps p)
    (apart : (w.threads.map ThreadStack.bytes).Pairwise Disjoint) : w.threads.length ≤ 1 := by
  have same : w.threads = List.replicate w.threads.length ⟨p.stackBase, p.opts.stacksize⟩ :=
    List.eq_replicate_iff.mpr ⟨rfl, keeps.placed⟩
  rw [same, List.map_replicate, List.pairwise_replicate] at apart
  rcases apart with few | own
  · exact few
  · by_contra many
    have some : w.threads ≠ [] := by
      rintro none
      simp [none] at many
    have pos := (keeps.loaded some).2
    rw [disjoint_self, ThreadStack.bytes, bytesAt] at own
    exact absurd own (Set.nonempty_Ico.mpr (Nat.lt_add_of_pos_right pos)).ne_empty

/-- The regions are disjoint exactly when there is room for them. -/
theorem Keeps.disjoint_iff (keeps : w.Keeps p) (laid : LPSProc.LaidOut box opts buf p) :
    (p.regions w.threads).Pairwise Disjoint ↔ HasRoom box opts buf w.threads.length := by
  have segments : (p.seginfo.map ElfSeg.bytes).Pairwise Disjoint ↔
      (loadRanges box.base buf.phdrs).Pairwise fun first second =>
        first.2 ≤ second.1 ∨ second.2 ≤ first.1 := by
    rw [← laid.ranges, List.pairwise_map, List.pairwise_map]
    refine List.Pairwise.iff_of_mem fun {a b} memA memB => ?_
    exact Lps.Linux.disjoint_iff (laid.ends a memA).1 (laid.ends b memB).1
  rw [LPSProc.regions, List.pairwise_append, List.pairwise_cons, segments, HasRoom]
  refine and_congr_right fun _ => ?_
  rw [← laid.brkbase, ← laid.opts]
  simp only [List.mem_map, List.mem_cons, forall_exists_index, and_imp,
    forall_apply_eq_imp_iff₂, forall_eq_or_imp]
  constructor
  · rintro ⟨⟨windowApart, threadsApart⟩, -⟩
    have few := keeps.one_stack threadsApart
    by_cases none : w.threads = []
    · exact .inl (List.length_eq_zero_iff.mpr none)
    · right
      obtain ⟨t, mem⟩ := List.exists_mem_of_ne_nil _ none
      have some := List.length_pos_of_mem mem
      exact ⟨by omega, (keeps.window_stack laid mem).mp (windowApart t mem)⟩
  · intro room
    have fits : ∀ t ∈ w.threads, p.brkbase.toNat + p.opts.brksize.toNat + p.opts.stacksize.toNat ≤
        box.base.toNat + box.size.toNat := by
      intro t mem
      have some := List.length_pos_of_mem mem
      exact (room.resolve_left (by omega)).2
    have few : w.threads.length ≤ 1 := by omega
    refine ⟨⟨fun t mem => (keeps.window_stack laid mem).mpr (fits t mem), ?_⟩,
      fun seg memSeg => ⟨segment_window laid memSeg, fun t mem => ?_⟩⟩
    · match threads : w.threads with
      | [] => exact .nil
      | [t] => exact List.pairwise_singleton _ _
      | _ :: _ :: _ => simp [threads] at few
    · exact keeps.segment_stack laid (fits t mem) memSeg mem

/-- Every run of an accepted process keeps its stacks at the end of the box. -/
theorem keeps_of_run {host : OsMem} {trace : List MemDone} (laid : LPSProc.LaidOut box opts buf p)
    (run : Run step (Always ThreadWorld WorldEvent) ⟨⟨p, host⟩, []⟩ trace w) : w.Keeps p := by
  refine run.stateInvariant (Keeps p) ?_ ?_
  · exact ⟨laid.window, rfl, rfl, fun some => absurd rfl some,
      fun t mem => absurd mem List.not_mem_nil⟩
  · intro observed state next event keeps _ stepped
    exact step_keeps keeps stepped

/-- After loading an image and making any number of threads the segments, the heap window and
the stacks are disjoint exactly when the segments of the image lie apart, there is at most one
thread, and the image, the heap window and one stack fit into the box; then making a thread
leaves alone what was there before. -/
theorem regions_disjoint_iff {host : OsMem} {trace : List MemDone}
    (fits : box.base.toNat + box.size.toNat < 2 ^ 64) (accepted : LPSProc.Accepted box opts buf p)
    (run : Run step (Always ThreadWorld WorldEvent) ⟨⟨p, host⟩, []⟩ trace w) :
    ((p.regions w.threads).Pairwise Disjoint ↔ HasRoom box opts buf w.threads.length) ∧
      ∀ os w' observed, step w (.threadNew os) = some (w', observed) →
        HasRoom box opts buf (w.threads.length + 1) →
        ∀ region ∈ p.regions w.threads, ∀ a ∈ region, w.host.Unchanged w'.host (a / 4096) := by
  have laid := accepted.laidOut fits
  have keeps := keeps_of_run laid run
  refine ⟨keeps.disjoint_iff laid, fun os w' observed stepped room region mem a inRegion => ?_⟩
  obtain ⟨made, returns, threads⟩ := step_threadNew stepped
  have sparing := LPSProc.lpsThreadNew_sparing keeps.window.ok
  refine MemWorld.entered_unchanged.trans (unchanged_of_sparing sparing returns (a / 4096) ?_)
  have fitsStack := (room.2.resolve_left (Nat.succ_ne_zero _)).2
  have none : w.threads = [] := by
    have one := (room.2.resolve_left (Nat.succ_ne_zero _)).1
    exact List.length_eq_zero_iff.mp (Nat.succ.inj one)
  rw [← laid.brkbase, ← laid.opts] at fitsStack
  -- What was there before ends where the stack starts.
  have before : a < p.brkbase.toNat + p.opts.brksize.toNat := by
    rw [LPSProc.regions, none, List.mem_append, List.map_nil, List.mem_singleton] at mem
    rcases mem with isSegment | rfl
    · obtain ⟨seg, memSeg, rfl⟩ := List.mem_map.mp isSegment
      have ends := (laid.ends seg memSeg).2
      exact (inRegion.2.trans_le ends).trans_le (Nat.le_add_right _ _)
    · exact inRegion.2
  have stack : w.proc.stackBase.toNat + p.opts.stacksize.toNat = box.base.toNat + box.size.toNat := by
    rw [LPSProc.stackBase, keeps.info, keeps.opts, laid.info]
    bv_omega
  omega

/-! ## The small process -/

instance (threads : Nat) : Decidable (HasRoom box opts buf threads) :=
  inferInstanceAs (Decidable (_ ∧ _))

/-- The small image, loaded and given threads on a serving host, and some of what is seen. -/
def small {α : Type} (threads : Nat) (view : LPSProc → ThreadWorld → α) : Option α := do
  let p ← LPSProc.load smallBox smallOpts (fun _ => none) smallImage obliging
  let (w, _) ← exec step ⟨⟨p, bareHost⟩, []⟩ (List.replicate threads (.threadNew servingOs))
  return view p w

theorem small_run {α : Type} {threads : Nat} {view : LPSProc → ThreadWorld → α} {value : α}
    (seen : small threads view = some value) :
    ∃ p w trace, LPSProc.Accepted smallBox smallOpts smallImage p ∧
      Run step (Always ThreadWorld WorldEvent) ⟨⟨p, bareHost⟩, []⟩ trace w ∧ view p w = value := by
  simp only [small, Option.bind_eq_bind, Option.bind_eq_some_iff] at seen
  obtain ⟨p, loaded, ⟨w, trace⟩, executed, same⟩ := seen
  have accepted := LPSProc.load_accepted obliging_refuses loaded
  exact ⟨p, w, trace, accepted, run_of_exec executed, Option.some.inj same⟩

/-- The small process has room for one thread. -/
theorem regions_disjoint_small :
    ∃ p w trace, LPSProc.Accepted smallBox smallOpts smallImage p ∧
      Run step (Always ThreadWorld WorldEvent) ⟨⟨p, bareHost⟩, []⟩ trace w ∧
      w.threads = [⟨0x10e000, 0x2000⟩] ∧ (p.regions w.threads).Pairwise Disjoint := by
  have seen : small 1 (fun _ w => w.threads) = some [⟨0x10e000, 0x2000⟩] := by
    decide +kernel
  obtain ⟨p, w, trace, accepted, run, threads⟩ := small_run seen
  refine ⟨p, w, trace, accepted, run, threads, ?_⟩
  refine (regions_disjoint_iff (by decide) accepted run).1.mpr ?_
  rw [threads]
  decide +kernel

/-- Two threads of the small process share a stack. -/
theorem threads_share_stack :
    ¬∀ (box : LPSBoxInfo) (opts : LPSLinuxOpts) (buf : Buf) (p : LPSProc) (host : OsMem)
      (trace : List MemDone) (w : ThreadWorld), box.base.toNat + box.size.toNat < 2 ^ 64 →
      LPSProc.Accepted box opts buf p →
      Run step (Always ThreadWorld WorldEvent) ⟨⟨p, host⟩, []⟩ trace w →
      (p.regions w.threads).Pairwise Disjoint := by
  intro claim
  have seen : small 2 (fun _ w => w.threads.length) = some 2 := by
    decide +kernel
  obtain ⟨p, w, trace, accepted, run, threads⟩ := small_run seen
  have apart := claim smallBox smallOpts smallImage p bareHost trace w (by decide) accepted run
  have laid := accepted.laidOut (by decide)
  have few := (keeps_of_run laid run).one_stack
    (List.pairwise_cons.mp (List.pairwise_append.mp apart).2.1).2
  rw [threads] at few
  exact absurd few (by decide)

end ThreadWorld

end Lps.Linux

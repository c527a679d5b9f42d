import Lps.Core.Engine
import Lps.Linux.SysMemHost
import Lps.Transition.Together

/-!
# Sandboxes on one host

The processes of one engine share the memory of the host.  A process whose ranges do not wrap around, and
which stores in its box only, reaches the pages of its box only.  Live boxes do not overlap, and so every
process runs as it would alone on the host, whatever its neighbours do.
-/

namespace Lps.Linux

open Lps.Core Lps.Program Lps.Transition

/-! ## One process -/

namespace MemWorld

/-- The range of a call does not wrap around, and a store does not leave the box. -/
def StepConfined (w : MemWorld) : WorldEvent → Prop
  | .syscall call _ => call.NoWrap w.proc
  | .threadNew _ => True
  | .assign _ _ => True
  | .store bytes => ∀ a ∉ w.proc.box.bytes, bytes a = w.host.byte a

variable {w w' : MemWorld} {event : WorldEvent} {observed : List MemDone}

/-- A program that stays in the box leaves the pages outside alone. -/
theorem returns_unchanged {α : Type} {prog : HostProg α} {post : α → Prop} {value : α} {os : Os} {q : Nat}
    {host : OsMem} (loaded : w.proc.Loaded) (meets : prog.Meets (confining w.proc.box.toLPSBoxInfo) post)
    (outside : ¬w.proc.box.toLPSBoxInfo.Page q)
    (returns : prog.Returns os.answer w.entered value host) : w.host.Unchanged host q := by
  have kept : w.entered.Unchanged host q := by
    apply meets.frame (fun h h' => h.Unchanged h' q) (fun _ => .refl) .trans ?_ (fun _ _ => trivial) returns
    intro c h confined
    exact os.answer_unchanged (HostCall.spares_of_confined loaded.paged confined outside)
  exact entered_unchanged.trans kept

/-- A step changes the pages of the box only. -/
theorem step_unchanged {q : Nat} (loaded : w.proc.Loaded) (confined : w.StepConfined event)
    (stepped : step w event = some (w', observed))
    (outside : ¬w.proc.box.toLPSBoxInfo.Page q) : w.host.Unchanged w'.host q := by
  cases event with
  | syscall call os =>
      obtain ⟨value, returns, -⟩ := step_syscall stepped
      exact returns_unchanged loaded (MemCall.prog_confining loaded confined) outside returns
  | threadNew os =>
      simp only [step, Option.bind_eq_bind, Option.bind_eq_some_iff, Option.some.injEq,
        Prod.mk.injEq] at stepped
      obtain ⟨⟨made, w''⟩, left, rfl, -⟩ := stepped
      exact returns_unchanged loaded loaded.mapStack_confining outside (leave_eq_some left)
  | assign fd kfd =>
      cases stepped
      exact .refl
  | store bytes =>
      cases stepped
      refine ⟨rfl, ?_⟩
      rintro a rfl
      apply confined
      exact fun inside => outside (loaded.paged.page_iff.mpr inside)

/-- Both memories have the same mappings and the same bytes in the box. -/
def Alike (box : LPSBoxInfo) (host host' : OsMem) : Prop :=
  ∀ q, box.Page q → host.Unchanged host' q

theorem Alike.trans {box : LPSBoxInfo} {host host' host'' : OsMem} (first : Alike box host host')
    (second : Alike box host' host'') : Alike box host host'' :=
  fun q inside => (first q inside).trans (second q inside)

theorem Alike.symm {box : LPSBoxInfo} {host host' : OsMem} (alike : Alike box host host') :
    Alike box host' host :=
  fun q inside => ⟨(alike q inside).page.symm, fun a inPage => ((alike q inside).byte a inPage).symm⟩

/-- What a program of a process does depends on no other page. -/
theorem leave_alike {α : Type} {prog : HostProg (α × LPSProc)} {os : Os} {box : LPSBoxInfo} {value : α}
    {host : OsMem} (alike : Alike box w.host host)
    (left : leave (prog.play os.answer w.entered) = some (value, w')) :
    ∃ host', leave (prog.play os.answer { host with made := [] }) = some (value, ⟨w'.proc, host'⟩) ∧
      Alike box w'.host host' := by
  have entered : w.entered.Alike box.Page { host with made := [] } :=
    ⟨rfl, fun q inside => ⟨(alike q inside).page, (alike q inside).byte⟩⟩
  obtain ⟨same, after⟩ := Prog.play_related (p := prog) (fun c _ _ => os.answer_alike c) entered
  have returns := leave_eq_some left
  rw [Prog.Returns] at returns
  rw [returns] at same after
  refine ⟨(prog.play os.answer { host with made := [] }).2, ?_, after.same⟩
  rw [← Prod.eta (prog.play os.answer { host with made := [] }), same]
  rfl

/-- What the sandbox learns from a call that has returned. -/
def told (o : MemDone) : MemCall × Word := (o.call, o.value)

/-- A step does the same on every memory with these pages. -/
theorem step_alike {host : OsMem} (loaded : w.proc.Loaded) (confined : w.StepConfined event)
    (alike : Alike w.proc.box.toLPSBoxInfo w.host host)
    (stepped : step w event = some (w', observed)) :
    ∃ event' host' observed', StepConfined ⟨w.proc, host⟩ event' ∧
      step ⟨w.proc, host⟩ event' = some (⟨w'.proc, host'⟩, observed') ∧
      Alike w.proc.box.toLPSBoxInfo w'.host host' ∧ observed'.map told = observed.map told := by
  cases event with
  | syscall call os =>
      simp only [step, Option.bind_eq_bind, Option.bind_eq_some_iff, Option.some.injEq,
        Prod.mk.injEq] at stepped
      obtain ⟨⟨value, w''⟩, left, rfl, rfl⟩ := stepped
      obtain ⟨host', left', alike'⟩ := leave_alike alike left
      refine ⟨.syscall call os, host', [⟨call, ⟨w.proc, host⟩, value, ⟨w''.proc, host'⟩⟩], confined, ?_,
        alike', rfl⟩
      rw [step, entered, left']
      rfl
  | threadNew os =>
      simp only [step, Option.bind_eq_bind, Option.bind_eq_some_iff, Option.some.injEq,
        Prod.mk.injEq] at stepped
      obtain ⟨⟨made, w''⟩, left, rfl, rfl⟩ := stepped
      obtain ⟨host', left', alike'⟩ := leave_alike alike left
      refine ⟨.threadNew os, host', [], trivial, ?_, alike', rfl⟩
      rw [step, entered, left']
      rfl
  | assign fd kfd =>
      cases stepped
      exact ⟨.assign fd kfd, host, [], trivial, rfl, alike, rfl⟩
  | store bytes =>
      cases stepped
      classical
      -- The same bytes in the box; outside, what is there.
      refine ⟨.store fun a => if a ∈ w.proc.box.bytes then bytes a else host.byte a, _, [], ?_, rfl, ?_, rfl⟩
      · intro a outside
        exact if_neg outside
      · intro q inside
        refine ⟨(alike q inside).page, ?_⟩
        rintro a rfl
        exact if_pos (loaded.paged.page_iff.mp inside)

end MemWorld

/-! ## All processes -/

/-- The process and the memory. -/
def MemWorld.split : MemWorld ≃ LPSProc × OsMem where
  toFun w := (w.proc, w.host)
  invFun parts := ⟨parts.1, parts.2⟩
  left_inv _ := rfl
  right_inv _ := rfl

/-- Processes on one host. -/
abbrev Neighbours (ι : Type) := Joint ι LPSProc OsMem

namespace Neighbours

variable {ι : Type}

/-- One step of one process. -/
def step [DecidableEq ι] : Step (Neighbours ι) (ι × WorldEvent) (ι × MemDone) := together MemWorld.split MemWorld.step

/-- The step stays in the box of its process. -/
def StepConfined (s : Neighbours ι) (event : ι × WorldEvent) : Prop :=
  MemWorld.StepConfined ⟨s.own event.1, s.shared⟩ event.2

/-- The process is loaded in its box. -/
structure In (box : LPSBoxInfo) (p : LPSProc) : Prop where
  loaded : p.Loaded
  info : p.box.toLPSBoxInfo = box

/-- A process starts in its box. -/
theorem In.of_started {box : LPSBoxInfo} {opts : LPSLinuxOpts} {p : LPSProc}
    (started : LPSProc.Started box opts p) (fits : box.base.toNat + box.size.toNat < 2 ^ 64) : In box p := by
  have kept : KeptByMapat fun box' => box'.Ok ∧ box'.toLPSBoxInfo = box := by
    rintro box' addr size prot flags fd off ⟨ok, info⟩
    apply (lpsBoxMapat_loading ok).mono
    rintro ⟨region, box''⟩ ⟨keeps, -⟩
    exact ⟨keeps.ok, keeps.info.trans info⟩
  exact ⟨started.loaded fits, (kept.started ⟨LPSBoxInfo.track_ok fits, rfl⟩ started).2⟩

theorem In.step {box : LPSBoxInfo} {w w' : MemWorld} {event : WorldEvent} {observed : List MemDone}
    (inBox : In box w.proc) (stepped : MemWorld.step w event = some (w', observed)) : In box w'.proc := by
  have keeps := MemWorld.step_keeps inBox.loaded stepped
  exact ⟨keeps.loaded, keeps.info.trans inBox.info⟩

variable {box : ι → LPSBoxInfo} {source target : Neighbours ι} {trace : List (ι × MemDone)}

/-- In boxes that do not overlap, processes do not get in each other's way. -/
theorem separate (apart : ∀ i j, i ≠ j → Disjoint (box i).bytes (box j).bytes) :
    Separate MemWorld.split MemWorld.step MemWorld.StepConfined (fun i => In (box i))
      (fun i => MemWorld.Alike (box i)) MemWorld.told where
  trans _ _ _ _ := MemWorld.Alike.trans
  symm _ _ _ := MemWorld.Alike.symm
  keeps _ _ _ _ _ inBox _ stepped := inBox.step stepped
  frame := by
    intro i j w w' event observed ne inBox confined stepped q inside
    refine MemWorld.step_unchanged inBox.loaded confined stepped fun own => ?_
    have here : w.proc.box.toLPSBoxInfo = box i := inBox.info
    rw [here] at own
    exact Set.disjoint_left.mp (apart i j ne) own inside
  same := by
    intro i w w' event observed host inBox confined alike stepped
    have here : w.proc.box.toLPSBoxInfo = box i := inBox.info
    rw [← here] at alike ⊢
    exact MemWorld.step_alike inBox.loaded confined alike stepped

/-- No step changes a page outside the boxes. -/
theorem outside_unchanged [DecidableEq ι] (inBox : ∀ i, In (box i) (source.own i))
    (run : Run step StepConfined source trace target) {q : Nat}
    (outside : ∀ i, ¬(box i).Page q) : source.shared.Unchanged target.shared q := by
  have both : (∀ i, In (box i) (target.own i)) ∧ source.shared.Unchanged target.shared q := by
    apply run.stateInvariant fun s => (∀ i, In (box i) (s.own i)) ∧ source.shared.Unchanged s.shared q
    · exact ⟨inBox, .refl⟩
    · rintro observed s s' ⟨i, event⟩ ⟨inBoxes, same⟩ confined stepped
      simp only [step, together, Option.map_eq_some_iff, Prod.mk.injEq] at stepped
      obtain ⟨⟨w', observed'⟩, stepped, rfl, rfl⟩ := stepped
      have own : In (box i) (s.own i) := inBoxes i
      dsimp only
      constructor
      · intro j
        by_cases here : j = i
        · subst here
          rw [Function.update_self]
          exact own.step stepped
        · rw [Function.update_of_ne here]
          exact inBoxes j
      · apply same.trans
        apply MemWorld.step_unchanged own.loaded confined stepped
        exact own.info ▸ outside i
  exact both.2

end Neighbours

open Neighbours

/-- Processes loaded into different live boxes of an engine share the host without getting in each other's
way: whatever happens, as long as no range wraps around and stores stay in the box, each of them ends where
a run of it alone ends that starts from any memory with the same pages in its box, gets the same answers, and
leaves the same pages in its box; and no page outside the boxes changes. -/
theorem neighbours_alone {host : HostMem} {reserved : host.State → Set Nat} {userTop : Nat}
    {boxsize nsandboxes : Word} {beyond : BitVector} {s₀ s₁ : host.State} {engine : LPSEngine}
    {made : List Empty} {s : Sandboxes} {ι : Type} [DecidableEq ι] {id : ι → BoxId} {box : ι → LPSBoxInfo}
    {opts : ι → LPSLinuxOpts} {source target : Neighbours ι} {trace : List (ι × MemDone)}
    (lawful : host.Lawful reserved userTop) (pos : 0 < boxsize.toNat)
    (created : lpsNew host boxsize nsandboxes beyond s₀ = some (engine, s₁))
    (boxes : Run Sandboxes.step (Always _ _) (Sandboxes.start engine) made s)
    (distinct : Function.Injective id) (live : ∀ i, s.boxes (id i) = some (box i))
    (started : ∀ i, LPSProc.Started (box i) (opts i) (source.own i))
    (run : Run Neighbours.step Neighbours.StepConfined source trace target) :
    (∀ i memory, MemWorld.Alike (box i) source.shared memory →
      ∃ alone memory', Run MemWorld.step MemWorld.StepConfined ⟨source.own i, memory⟩ alone
          ⟨target.own i, memory'⟩ ∧
        MemWorld.Alike (box i) target.shared memory' ∧
        alone.map MemWorld.told = (observedOf i trace).map MemWorld.told) ∧
    ∀ q, (∀ i, ¬(box i).Page q) → source.shared.Unchanged target.shared q := by
  have isolated : s.Isolated (reserved s₁) boxsize :=
    boxes.stateInvariant (fun s => s.Isolated (reserved s₁) boxsize)
      (lpsNew_isolated lawful pos created) fun isolated _ stepped => isolated.step stepped
  have apart : ∀ i j, i ≠ j → Disjoint (box i).bytes (box j).bytes := by
    intro i j ne
    exact isolated.disjoint (live i) (live j) (distinct.ne ne)
  have inBox : ∀ i, In (box i) (source.own i) := by
    intro i
    exact .of_started (started i) (isolated.fits (live i))
  constructor
  · intro i memory alike
    exact (separate apart).run_alone inBox run alike
  · intro q outside
    exact outside_unchanged inBox run outside

/-- The small image in a box of an engine. -/
def bootAt (base : Word) : Option LPSProc :=
  LPSProc.boot ⟨base, 0x10000⟩ smallOpts (fun _ => none) smallImage obliging

/-- Two processes on a host without mappings. -/
def twoProcs (p p' : LPSProc) : Neighbours (Fin 2) := ⟨fun i => if i = 0 then p else p', bareHost⟩

/-- Two processes on one host, in the two boxes of an engine for two. -/
theorem neighbours_alone_two :
    ∃ (source target : Neighbours (Fin 2)) (trace : List (Fin 2 × MemDone)),
      Run Neighbours.step Neighbours.StepConfined source trace target ∧
      trace.map (fun o => (o.1, MemWorld.told o.2)) =
        [(0, .brk 0x12000, 0x12000), (1, .brk 0, 0x21000), (1, .brk 0x22000, 0x22000)] ∧
      ∃ alone memory, Run MemWorld.step MemWorld.StepConfined ⟨source.own 1, bareHost⟩ alone
          ⟨target.own 1, memory⟩ ∧
        alone.map MemWorld.told = (observedOf 1 trace).map MemWorld.told := by
  have boxes : ((lpsNew pageHost 0x10000 2 (fun _ => 0) (16 : Nat)).bind fun created =>
      (exec Sandboxes.step (Sandboxes.start created.1) [.boxNew true, .boxNew true]).map
        fun result => (result.1.boxes 0, result.1.boxes 1)) =
      some (some ⟨0x10000, 0x10000⟩, some ⟨0x20000, 0x10000⟩) := by
    decide +kernel
  obtain ⟨⟨engine, s₁⟩, created, boxes⟩ := Option.bind_eq_some_iff.mp boxes
  obtain ⟨⟨s, made⟩, executed, boxes⟩ := Option.map_eq_some_iff.mp boxes
  simp only [Prod.mk.injEq] at boxes
  have processes : ((bootAt 0x10000).bind fun p => (bootAt 0x20000).bind fun p' =>
      (exec Neighbours.step (twoProcs p p')
        [(0, .syscall (.brk 0x12000) servingOs), (1, .syscall (.brk 0) servingOs),
          (1, .syscall (.brk 0x22000) servingOs)]).map fun result =>
          result.2.map fun o => (o.1, MemWorld.told o.2)) =
      some [(0, .brk 0x12000, 0x12000), (1, .brk 0, 0x21000), (1, .brk 0x22000, 0x22000)] := by
    decide +kernel
  obtain ⟨p, booted, processes⟩ := Option.bind_eq_some_iff.mp processes
  obtain ⟨p', booted', processes⟩ := Option.bind_eq_some_iff.mp processes
  obtain ⟨⟨target, trace⟩, executed', seen⟩ := Option.map_eq_some_iff.mp processes
  have run : Run Neighbours.step Neighbours.StepConfined (twoProcs p p') trace target := by
    apply run_of_exec_forall executed'
    simp [Neighbours.StepConfined, MemWorld.StepConfined, MemCall.NoWrap]
  have live : ∀ i : Fin 2, s.boxes i.val =
      some (if i = 0 then ⟨0x10000, 0x10000⟩ else ⟨0x20000, 0x10000⟩) :=
    Fin.forall_fin_two.mpr boxes
  have started : ∀ i : Fin 2, LPSProc.Started
      (if i = 0 then ⟨0x10000, 0x10000⟩ else ⟨0x20000, 0x10000⟩) smallOpts ((twoProcs p p').own i) :=
    Fin.forall_fin_two.mpr ⟨LPSProc.boot_started obliging_refuses booted,
      LPSProc.boot_started obliging_refuses booted'⟩
  obtain ⟨trace', memory, solo, -, same⟩ := (neighbours_alone pageHost_lawful (by decide) created
    (run_of_exec executed) Fin.val_injective live started run).1 1 bareHost fun _ _ => .refl
  exact ⟨twoProcs p p', target, trace, run, seen, trace', memory, solo, same⟩

end Lps.Linux

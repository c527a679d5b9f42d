import Lps.Core.BoxPages
import Lps.Core.OsFrame
import Lps.Linux.SysMemRun

/-!
# Memory system calls and the host's memory

A process runs on a host that remembers what is mapped where.  An observation is a system
call that has returned, with the process and the host's memory before and after it; a call
that brings the runtime down is not followed by anything.
-/

namespace Lps.Linux

open Lps.Core Lps.Program Lps.Transition

/-- A call that returns keeps the process loaded, whatever the host does. -/
theorem MemCall.prog_keeps {p : LPSProc} {call : MemCall} (loaded : p.Loaded) :
    (call.prog p).Meets permitted fun (_, p') => p.Keeps p' := by
  have may : ∀ {addr size prot flags fd off}, p.box.MayMapat permitted addr size prot flags fd off :=
    LPSBox.mayMapat_all (fun _ => trivial) fun _ => trivial
  cases call with
  | brk addr => exact sysBrk_meets loaded (fun _ _ => trivial) fun _ _ _ => may
  | mmap addrp length prot flags fd off =>
      exact sysMmap_meets loaded trivial (fun _ _ _ _ => trivial) (fun _ _ _ _ _ => may)
        fun _ _ _ => trivial
  | mprotect addrp length prot =>
      rw [prog, Prog.meets_bind]
      exact (sysMprotect_meets (fun _ _ => trivial) fun _ _ => trivial).mono fun _ _ => loaded.keeps
  | munmap addrp length =>
      rw [prog, Prog.meets_bind]
      refine (sysMunmap_meets loaded trivial ?_).mono fun _ keeps => keeps
      exact fun _ _ _ _ _ =>
        ⟨_, handles_all (fun _ => trivial) (fun _ => trivial) cbunmap, covers_all ..⟩

/-- A loaded process and the memory of its host. -/
structure MemWorld where
  proc : LPSProc
  host : OsMem

/-- What happens next. -/
inductive WorldEvent
  /-- A memory system call, answered by a host. -/
  | syscall (call : MemCall) (os : Os)
  /-- Another thread is made, if the host lets it. -/
  | threadNew (os : Os)
  /-- Any change of the descriptor table. -/
  | assign (fd : Nat) (kfd : Option Int)
  /-- Any stores, by the sandbox or by the runtime on its behalf. -/
  | store (bytes : Nat → Byte)

/-- A memory system call that has returned. -/
structure MemDone where
  call : MemCall
  before : MemWorld
  value : Word
  after : MemWorld

namespace MemWorld

/-- The host's memory when an operation begins. -/
def entered (w : MemWorld) : OsMem := { w.host with made := [] }

/-- Entering an operation changes nothing. -/
theorem entered_unchanged {w : MemWorld} {q : Nat} : w.host.Unchanged w.entered q :=
  ⟨rfl, fun _ _ => rfl⟩

/-- The world after a program that returned this process. -/
def leave {α : Type} (result : Except Fault (α × LPSProc) × OsMem) : Option (α × MemWorld) :=
  match result with
  | (.ok (value, proc), host) => some (value, ⟨proc, host⟩)
  | (.error _, _) => none

/-- One step. -/
def step : Step MemWorld WorldEvent MemDone := fun w event =>
  match event with
  | .syscall call os => do
      let (value, w') ← leave ((call.prog w.proc).play os.answer w.entered)
      some (w', [⟨call, w, value, w'⟩])
  | .threadNew os => do
      let (_, w') ← leave (w.proc.mapStack.play os.answer w.entered)
      some (w', [])
  | .assign fd kfd =>
      some ({ w with proc.kfds := Function.update w.proc.kfds fd kfd }, [])
  | .store bytes => some ({ w with host.byte := bytes }, [])

theorem leave_eq_some {α : Type} {os : Os} {prog : HostProg (α × LPSProc)} {h : OsMem} {value : α}
    {w' : MemWorld} (left : leave (prog.play os.answer h) = some (value, w')) :
    prog.Returns os.answer h (value, w'.proc) w'.host := by
  rw [Prog.Returns]
  generalize prog.play os.answer h = result at left ⊢
  obtain ⟨_ | ⟨value', proc⟩, host⟩ := result
  · cases left
  · cases left
    rfl

/-- A system call that returns. -/
theorem step_syscall {w w' : MemWorld} {call : MemCall} {os : Os} {observed : List MemDone}
    (stepped : step w (.syscall call os) = some (w', observed)) :
    ∃ value, (call.prog w.proc).Returns os.answer w.entered (value, w'.proc) w'.host ∧
      observed = [⟨call, w, value, w'⟩] := by
  simp only [step, Option.bind_eq_bind, Option.bind_eq_some_iff, Option.some.injEq,
    Prod.mk.injEq] at stepped
  obtain ⟨⟨value, w''⟩, left, rfl, rfl⟩ := stepped
  exact ⟨value, leave_eq_some left, rfl⟩

/-- The other steps show nothing, and keep a loaded process. -/
theorem step_other {w w' : MemWorld} {event : WorldEvent} {observed : List MemDone}
    (loaded : w.proc.Loaded) (other : ∀ call os, event ≠ .syscall call os)
    (stepped : step w event = some (w', observed)) : observed = [] ∧ w.proc.Keeps w'.proc := by
  cases event with
  | syscall call os => exact absurd rfl (other call os)
  | threadNew os =>
      simp only [step, Option.bind_eq_bind, Option.bind_eq_some_iff, Option.some.injEq,
        Prod.mk.injEq] at stepped
      obtain ⟨⟨made, w''⟩, left, rfl, rfl⟩ := stepped
      exact ⟨rfl, loaded.mapStack_confining.returns (fun _ _ => trivial) (leave_eq_some left)⟩
  | assign fd kfd =>
      simp only [step, Option.some.injEq, Prod.mk.injEq] at stepped
      obtain ⟨rfl, rfl⟩ := stepped
      exact ⟨rfl, { loaded with }, rfl, rfl, rfl⟩
  | store bytes =>
      simp only [step, Option.some.injEq, Prod.mk.injEq] at stepped
      obtain ⟨rfl, rfl⟩ := stepped
      exact ⟨rfl, loaded.keeps⟩

/-- Every step keeps a loaded process. -/
theorem step_keeps {w w' : MemWorld} {event : WorldEvent} {observed : List MemDone}
    (loaded : w.proc.Loaded) (stepped : step w event = some (w', observed)) :
    w.proc.Keeps w'.proc := by
  by_cases isCall : ∃ call os, event = .syscall call os
  · obtain ⟨call, os, rfl⟩ := isCall
    obtain ⟨value, returns, -⟩ := step_syscall stepped
    exact (MemCall.prog_keeps loaded).returns (fun _ _ => trivial) returns
  · exact (step_other loaded (fun call os same => isCall ⟨call, os, same⟩) stepped).2

/-- A process stays loaded in every run. -/
theorem keeps_of_run {p : LPSProc} {host : OsMem} {w : MemWorld} {trace : List MemDone}
    (loaded : p.Loaded) (run : Run step (Always MemWorld WorldEvent) ⟨p, host⟩ trace w) :
    p.Keeps w.proc := by
  apply run.stateInvariant fun w => p.Keeps w.proc
  · exact loaded.keeps
  · intro observed state next event keeps _ stepped
    exact keeps.trans (step_keeps keeps.loaded stepped)

/-! ## The small process on a host without mappings -/

/-- Run the small process, and show some of what happens. -/
def small {α : Type} (step : Step MemWorld WorldEvent MemDone) (events : List WorldEvent)
    (view : LPSProc → List MemDone → α) : Option α := do
  let p ← smallProc
  let (_, trace) ← exec step ⟨p, bareHost⟩ events
  return view p trace

theorem small_exec {α : Type} {step : Step MemWorld WorldEvent MemDone} {events : List WorldEvent}
    {view : LPSProc → List MemDone → α} {value : α}
    (seen : small step events view = some value) :
    ∃ p trace w', LPSProc.Started smallBox smallOpts p ∧
      exec step ⟨p, bareHost⟩ events = some (w', trace) ∧ view p trace = value := by
  simp only [small, Option.bind_eq_bind, Option.bind_eq_some_iff] at seen
  obtain ⟨p, made, ⟨w', trace⟩, executed, same⟩ := seen
  exact ⟨p, trace, w', smallProc_started made, executed, Option.some.inj same⟩

end MemWorld

end Lps.Linux

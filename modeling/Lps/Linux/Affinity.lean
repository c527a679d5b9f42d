import Lps.Linux.Sched
import Lps.Linux.SwitchRun

/-!
# Traps and workers

The multi-core scheduler together with the harts its workers run on.  `host_tp` is
written by `lps_ctx_entry` alone, so a trap finds the thread pointer of the worker
that entered the context first, and this is the worker that entered it last exactly
as long as no other worker resumes it.
-/

namespace Lps.Linux

open Lps.Asm Lps.Core
open Lps.Transition (Step Run Always)

/-- The scheduler and the machine; worker `w` runs on hart `w`. -/
structure MCSystem where
  sched : MCSched
  machine : Machine

inductive MCSystemEvent
  /-- Worker `w` does a ring operation of its loop. -/
  | queue (w : Nat)
  /-- Hart `w` takes a step. -/
  | hart (w : Nat) (event : HartEvent)

namespace MCSystem

/-- The hart is in the scheduler loop of worker `w`. -/
def InLoop (s : MCSystem) (w : Nat) : Prop :=
  (s.machine.harts w).loc = .sched ∧ (s.machine.harts w).regs .tp = .ptr (.tls w) 0

instance (s : MCSystem) (w : Nat) : Decidable (s.InLoop w) :=
  inferInstanceAs (Decidable (_ ∧ _))

/-- `lps_thread_run` is called with the thread that the worker has popped. -/
def Popped (s : MCSystem) (w : Nat) : HartEvent → Prop
  | .enter c _ => s.InLoop w ∧ s.sched.workers w = .run c
  | _ => True

instance (s : MCSystem) (w : Nat) : (event : HartEvent) → Decidable (s.Popped w event)
  | .enter _ _ => inferInstanceAs (Decidable (_ ∧ _))
  | .user .. | .trap .. | .exit .. | .handled .. | .timerReturn .. => .isTrue trivial

/-- What the scheduler does when hart `w` has taken a step: a worker that has its hart
back goes on in its loop.  What a hart does in the loop of another worker is left
out. -/
def schedAfter (s : MCSystem) (w : Nat) (event : HartEvent) (m : Machine) : Option MCSched :=
  match event with
  | .exit state _ =>
      if MCSystem.InLoop ⟨s.sched, m⟩ w then s.sched.ran w state else some s.sched
  | _ => some s.sched

/-- One step of the system. -/
def step : Step MCSystem MCSystemEvent SwitchObs := fun s event =>
  match event with
  | .queue w =>
      if w < s.sched.ncore ∧ s.InLoop w then
        (s.sched.workerStep w).map fun sched => ({ s with sched := sched }, [])
      else none
  | .hart w event =>
      if s.Popped w event then do
        let (m, obs) ← s.machine.step (w, event)
        let sched ← s.schedAfter w event m
        some (⟨sched, m⟩, obs)
      else none

/-- The side condition of the theorem below: a thread that has been entered before is
resumed by the worker that entered it first. -/
def Stays (s : MCSystem) : MCSystemEvent → Prop
  | .hart w event => s.machine.Affine (w, event)
  | .queue _ => True

instance (s : MCSystem) : (event : MCSystemEvent) → Decidable (s.Stays event)
  | .hart w (.enter c _) => inferInstanceAs (Decidable (∀ v ∈ s.machine.first c, v = w))
  | .hart _ (.user ..) | .hart _ (.trap ..) | .hart _ (.exit ..) | .hart _ (.handled ..)
  | .hart _ (.timerReturn ..) | .queue _ => .isTrue trivial

/-- The machine of the system only takes steps of the machine. -/
theorem step_machine {s s' : MCSystem} {event : MCSystemEvent} {obs : List SwitchObs}
    (stays : s.Stays event) (stepped : step s event = some (s', obs)) :
    s'.machine = s.machine ∧ obs = [] ∨
      ∃ event, s.machine.Affine event ∧ Machine.step s.machine event = some (s'.machine, obs) := by
  cases event with
  | queue w =>
      simp only [step] at stepped
      split at stepped
      · rw [Option.map_eq_some_iff] at stepped
        obtain ⟨sched, _, pair⟩ := stepped
        simp only [Prod.mk.injEq] at pair
        obtain ⟨rfl, rfl⟩ := pair
        exact .inl ⟨rfl, rfl⟩
      · contradiction
  | hart w event =>
      simp only [step] at stepped
      split at stepped
      · simp only [Option.bind_eq_bind, Option.bind_eq_some_iff, Option.some.injEq,
          Prod.mk.injEq] at stepped
        obtain ⟨⟨m, obs'⟩, machineStep, sched, _, rfl, rfl⟩ := stepped
        exact .inr ⟨(w, event), stays, machineStep⟩
      · contradiction

/-- A trap finds the thread pointer of the worker that entered the thread last, and
`lps_thread_exit` returns to the loop of this worker, in every run in which no thread
is resumed by another worker than the one that entered it first. -/
theorem traps_find_their_worker {s s' : MCSystem} {users : Tid → UserState}
    (booted : s.machine.Booted users) {trace : List SwitchObs}
    (run : Run step Stays s trace s') : affinity.Accepts (fun _ => none) trace :=
  (Machine.affine_run booted (run.simulated MCSystem.machine step_machine)).1.2

/-- Two workers on two harts with one added thread. -/
def two : MCSystem := ⟨(mcschedAddAll (mcschedInit 2) [7]).2, Machine.boot 2⟩

/-- Worker 0 enters thread 7, which yields in a system call and is resumed by worker 0
before it exits. -/
theorem traps_find_their_worker_yield :
    ∃ trace, ∃ s' : MCSystem, affinity.Accepts (fun _ => none) trace ∧
      s'.sched.state 7 = .exited ∧ s'.sched.workers 0 = .popLocal := by
  have seen : (Transition.exec (Transition.guarded step Stays) two
      [.queue 0, .queue 0, .queue 0, .queue 0, .queue 0, .hart 0 (.enter 7 fun _ => .word 0),
        .hart 0 (.trap CAUSE_DASICS_U_CHECK_FAULT 0 DFR_EF 0 fun _ => .word 0),
        .hart 0 (.exit .runnable fun _ => .word 0), .queue 0, .queue 0,
        .hart 0 (.enter 7 fun _ => .word 0), .hart 0 (.handled 0 fun _ => .word 0),
        .hart 0 (.trap CAUSE_DASICS_U_CHECK_FAULT 0 DFR_EF 0 fun _ => .word 0),
        .hart 0 (.exit .exited fun _ => .word 0)]).map
          (fun out => (out.1.sched.state 7, out.1.sched.workers 0)) =
      some (.exited, .popLocal) := by decide +kernel
  obtain ⟨⟨s', trace⟩, executed, pair⟩ := Option.map_eq_some_iff.mp seen
  simp only [Prod.mk.injEq] at pair
  exact ⟨trace, s', traps_find_their_worker (Machine.boot_booted 2)
    (Transition.run_of_exec_guarded executed), pair⟩

/-- Worker 0 enters thread 7, which yields; worker 1 steals it and resumes it, and its
next trap on hart 1 installs the thread pointer of worker 0. -/
theorem stolen_thread_traps_astray :
    ¬∀ (s s' : MCSystem) (users : Tid → UserState) (trace : List SwitchObs),
      s.machine.Booted users → Run step (Always _ _) s trace s' →
      affinity.Accepts (fun _ => none) trace := by
  intro claim
  have seen : (Transition.exec step two
      [.queue 0, .queue 0, .queue 0, .queue 0, .queue 0, .hart 0 (.enter 7 fun _ => .word 0),
        .hart 0 (.trap CAUSE_DASICS_U_CHECK_FAULT 0 DFR_EF 0 fun _ => .word 0),
        .hart 0 (.exit .runnable fun _ => .word 0), .queue 0, .queue 1, .queue 1, .queue 1,
        .queue 1, .queue 1, .queue 1, .hart 1 (.enter 7 fun _ => .word 0),
        .hart 1 (.handled 0 fun _ => .word 0),
        .hart 1 (.trap CAUSE_DASICS_U_CHECK_FAULT 0 DFR_EF 0 fun _ => .word 0)]).map
          (fun out => decide (affinity.Accepts (fun _ => none) out.2)) = some false := by
    decide +kernel
  obtain ⟨⟨s', trace⟩, executed, refused⟩ := Option.map_eq_some_iff.mp seen
  exact of_decide_eq_false refused
    (claim _ s' _ trace (Machine.boot_booted 2) (Transition.run_of_exec executed))

end MCSystem

end Lps.Linux

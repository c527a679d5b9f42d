import Mathlib.Logic.Relation
import Mathlib.Data.Set.Basic

/-!
# Runs of partial labelled transitions

A system is a partial step function: an event either is not enabled in a state
or leads to one next state and emits a list of observations.  A run restricts
the steps it takes to those that meet a side condition, so that a theorem about
all runs and a theorem about the runs that avoid a known defect have the same
shape.
-/

namespace Lps.Transition

universe u v w

variable {σ : Type u} {ε : Type v} {ω : Type w}

/-- A partial step: `none` when the event is not enabled, otherwise the next
state together with what an outside observer sees of the step. -/
abbrev Step (σ : Type u) (ε : Type v) (ω : Type w) := σ → ε → Option (σ × List ω)

/-- The side condition that every step meets. -/
abbrev Always (σ : Type u) (ε : Type v) : σ → ε → Prop := fun _ _ => True

/-- `Run step ok source trace target`: from `source` the system reaches
`target` by steps that all meet `ok`, emitting `trace`. -/
inductive Run (step : Step σ ε ω) (ok : σ → ε → Prop) (source : σ) :
    List ω → σ → Prop
  | refl : Run step ok source [] source
  | tail {trace observed : List ω} {middle target : σ} {event : ε} :
      Run step ok source trace middle → ok middle event →
      step middle event = some (target, observed) →
      Run step ok source (trace ++ observed) target

namespace Run

variable {step : Step σ ε ω} {ok : σ → ε → Prop} {source middle target : σ}
  {trace rest : List ω}

/-- The induction rule of a system: what holds initially of the empty trace and
is kept by every step that meets the side condition holds after every run. -/
theorem invariant (inv : List ω → σ → Prop) (initial : inv [] source)
    (preserved : ∀ {trace observed : List ω} {state next : σ} {event : ε},
      inv trace state → ok state event →
      step state event = some (next, observed) → inv (trace ++ observed) next)
    (run : Run step ok source trace target) : inv trace target := by
  induction run with
  | refl => exact initial
  | tail _ allowed stepped ih => exact preserved ih allowed stepped

/-- The induction rule for an invariant that does not mention the trace. -/
theorem stateInvariant (inv : σ → Prop) (initial : inv source)
    (preserved : ∀ {observed : List ω} {state next : σ} {event : ε},
      inv state → ok state event →
      step state event = some (next, observed) → inv next)
    (run : Run step ok source trace target) : inv target :=
  run.invariant (fun _ state => inv state) initial preserved

/-- Every observation of a run is an observation of one of its steps. -/
theorem forall_observed (inv : σ → Prop) (good : ω → Prop) (initial : inv source)
    (preserved : ∀ {observed : List ω} {state next : σ} {event : ε},
      inv state → ok state event → step state event = some (next, observed) →
      inv next ∧ ∀ o ∈ observed, good o)
    (run : Run step ok source trace target) : ∀ o ∈ trace, good o := by
  have both : inv target ∧ ∀ o ∈ trace, good o := by
    refine run.invariant (fun trace state => inv state ∧ ∀ o ∈ trace, good o)
      ⟨initial, by simp⟩ ?_
    intro trace observed state next event held allowed stepped
    obtain ⟨nextInv, nextGood⟩ := preserved held.1 allowed stepped
    refine ⟨nextInv, fun o mem => ?_⟩
    rcases List.mem_append.mp mem with old | new
    · exact held.2 o old
    · exact nextGood o new
  exact both.2

/-- Runs compose and their traces concatenate. -/
theorem trans (first : Run step ok source trace middle)
    (second : Run step ok middle rest target) :
    Run step ok source (trace ++ rest) target := by
  induction second with
  | refl => simpa using first
  | tail _ allowed stepped ih =>
      rw [← List.append_assoc]
      exact ih.tail allowed stepped

/-- One enabled step is a run. -/
theorem single {event : ε} (allowed : ok source event)
    (stepped : step source event = some (target, trace)) :
    Run step ok source trace target := by
  simpa using Run.refl.tail allowed stepped

/-- A weaker side condition admits more runs. -/
theorem mono {weaker : σ → ε → Prop}
    (weaken : ∀ state event, ok state event → weaker state event)
    (run : Run step ok source trace target) : Run step weaker source trace target := by
  induction run with
  | refl => exact .refl
  | tail _ allowed stepped ih => exact ih.tail (weaken _ _ allowed) stepped

/-- A system whose steps are steps of another one, or silent and invisible there, has
only runs of the other one. -/
theorem simulated {τ : Type u} {δ : Type v} {abstract : Step τ δ ω} {allowed : τ → δ → Prop}
    (view : σ → τ)
    (simulates : ∀ {state next : σ} {event : ε} {observed : List ω}, ok state event →
      step state event = some (next, observed) →
      view next = view state ∧ observed = [] ∨
        ∃ event, allowed (view state) event ∧
          abstract (view state) event = some (view next, observed))
    (run : Run step ok source trace target) :
    Run abstract allowed (view source) trace (view target) := by
  induction run with
  | refl => exact .refl
  | tail _ isOk stepped ih =>
      rcases simulates isOk stepped with ⟨same, rfl⟩ | ⟨event, isAllowed, abstractStep⟩
      · rw [same, List.append_nil]
        exact ih
      · exact ih.tail isAllowed abstractStep

/-- A step condition that follows from an invariant of the unrestricted system
restricts nothing. -/
theorem strengthen (inv : σ → Prop) (initial : inv source)
    (preserved : ∀ {observed : List ω} {state next : σ} {event : ε},
      inv state → step state event = some (next, observed) → ok state event ∧ inv next)
    (run : Run step (Always σ ε) source trace target) : Run step ok source trace target := by
  have both : inv target ∧ Run step ok source trace target := by
    refine run.invariant (fun trace state => inv state ∧ Run step ok source trace state)
      ⟨initial, .refl⟩ ?_
    intro trace observed state next event held _ stepped
    obtain ⟨allowed, kept⟩ := preserved held.1 stepped
    exact ⟨kept, held.2.tail allowed stepped⟩
  exact both.2

end Run

/-- Execute a list of events, collecting the observations. -/
def exec (step : Step σ ε ω) : σ → List ε → Option (σ × List ω)
  | state, [] => some (state, [])
  | state, event :: events => do
      let (next, observed) ← step state event
      let (target, trace) ← exec step next events
      some (target, observed ++ trace)

/-- The steps of a system that meet a side condition. -/
def guarded (step : Step σ ε ω) (ok : σ → ε → Prop) [∀ state event, Decidable (ok state event)] :
    Step σ ε ω :=
  fun state event => if ok state event then step state event else none

/-- An executed list of events, each of which meets the side condition and is one of
the `good` ones, is a run whose steps meet both. -/
theorem run_of_exec_checked {step : Step σ ε ω} {ok : σ → ε → Prop}
    [∀ state event, Decidable (ok state event)] {good : ε → Prop} {source target : σ}
    {events : List ε} {trace : List ω}
    (executed : exec (guarded step ok) source events = some (target, trace))
    (all : ∀ event ∈ events, good event) :
    Run step (fun state event => ok state event ∧ good event) source trace target := by
  induction events generalizing source trace with
  | nil =>
      simp only [exec, Option.some.injEq, Prod.mk.injEq] at executed
      obtain ⟨rfl, rfl⟩ := executed
      exact .refl
  | cons event events ih =>
      simp only [exec, Option.bind_eq_bind, Option.bind_eq_some_iff] at executed
      obtain ⟨⟨next, observed⟩, stepped, ⟨last, rest⟩, executedRest, pair⟩ := executed
      simp only [Option.some.injEq, Prod.mk.injEq] at pair
      obtain ⟨rfl, rfl⟩ := pair
      rw [guarded] at stepped
      split at stepped
      · rename_i allowed
        have first : Run step (fun state event => ok state event ∧ good event) source observed
            next := .single ⟨allowed, all _ List.mem_cons_self⟩ stepped
        exact first.trans (ih executedRest fun e later => all e (List.mem_cons_of_mem _ later))
      · contradiction

/-- An executed list of events, each of which meets the side condition, is a run
that meets it. -/
theorem run_of_exec_guarded {step : Step σ ε ω} {ok : σ → ε → Prop}
    [∀ state event, Decidable (ok state event)] {source target : σ} {events : List ε}
    {trace : List ω} (executed : exec (guarded step ok) source events = some (target, trace)) :
    Run step ok source trace target :=
  (@run_of_exec_checked _ _ _ _ _ _ (fun _ => True) _ _ _ _ executed fun _ _ => trivial).mono
    fun _ _ allowed => allowed.1

/-- An executed list of events that meet the side condition in every state is a run. -/
theorem run_of_exec_forall {step : Step σ ε ω} {ok : σ → ε → Prop} {source target : σ}
    {events : List ε} {trace : List ω} (executed : exec step source events = some (target, trace))
    (all : ∀ event ∈ events, ∀ state, ok state event) : Run step ok source trace target := by
  have unguarded : guarded step (Always σ ε) = step := by
    funext state event
    exact if_pos trivial
  rw [← unguarded] at executed
  exact (run_of_exec_checked executed all).mono fun state _ allowed => allowed.2 state

/-- An executed list of events is a run without side condition. -/
theorem run_of_exec {step : Step σ ε ω} {source target : σ} {events : List ε}
    {trace : List ω} (executed : exec step source events = some (target, trace)) :
    Run step (Always σ ε) source trace target :=
  run_of_exec_forall executed fun _ _ _ => trivial

end Lps.Transition

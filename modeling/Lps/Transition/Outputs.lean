import Lps.Transition.Run
import Mathlib.Data.List.Basic

/-!
# What a caller sees of a sequence of calls

An object answers every call and moves to its next state.  Two objects look the
same to a caller when the lists of their answers are equal.  The rule below
decides when an implementation looks like its specification: exactly when every
call meets a condition on the specification's state, provided that the answers
agree where the condition holds and differ where it fails.  For the partial steps of
a system there is a rule of the same shape.
-/

namespace Lps.Transition

universe u v w x

variable {σ : Type u} {τ : Type v} {γ : Type w} {ρ : Type x}

/-- The answers to a sequence of calls. -/
def outputs (call : σ → γ → ρ × σ) : σ → List γ → List ρ
  | _, [] => []
  | state, c :: calls => (call state c).1 :: outputs call (call state c).2 calls

/-- Every call of a sequence meets the condition in the state it is made in. -/
def Along (call : σ → γ → ρ × σ) (ok : σ → γ → Prop) : σ → List γ → Prop
  | _, [] => True
  | state, c :: calls => ok state c ∧ Along call ok (call state c).2 calls

/-- An implementation gives the answers of its specification exactly when every
call meets the condition. -/
theorem outputs_eq_iff_along {call : σ → γ → ρ × σ} {spec : τ → γ → ρ × τ} {ok : τ → γ → Prop}
    (related : σ → τ → Prop)
    (agrees : ∀ {state abstract c}, related state abstract → ok abstract c →
      (call state c).1 = (spec abstract c).1 ∧ related (call state c).2 (spec abstract c).2)
    (differs : ∀ {state abstract c}, related state abstract → ¬ok abstract c →
      (call state c).1 ≠ (spec abstract c).1)
    {state : σ} {abstract : τ} (start : related state abstract) (calls : List γ) :
    outputs call state calls = outputs spec abstract calls ↔ Along spec ok abstract calls := by
  induction calls generalizing state abstract with
  | nil => simp [outputs, Along]
  | cons c calls ih =>
      rw [outputs, outputs, Along, List.cons.injEq]
      by_cases meets : ok abstract c
      · obtain ⟨same, after⟩ := agrees start meets
        rw [ih after]
        exact ⟨fun both => ⟨meets, both.2⟩, fun both => ⟨same, both.2⟩⟩
      · constructor
        · exact fun both => absurd both.1 (differs start meets)
        · exact fun both => absurd both.1 meets

/-! ## Partial steps -/

variable {ε : Type v} {ω : Type w} {step : Step σ ε ω} {P Q : σ → ε → σ → List ω → Prop}

/-- Every step of a sequence of events meets the condition, as far as the events are enabled. -/
def Throughout (step : Step σ ε ω) (P : σ → ε → σ → List ω → Prop) : σ → List ε → Prop
  | _, [] => True
  | state, event :: events => ∀ next observed, step state event = some (next, observed) →
      P state event next observed ∧ Throughout step P next events

/-- Two conditions that agree on every step from the states of an invariant, which the steps
that meet them keep. -/
theorem Throughout.iff (inv : σ → Prop)
    (agree : ∀ {state event next observed}, inv state → step state event = some (next, observed) →
      (P state event next observed ↔ Q state event next observed) ∧
        (Q state event next observed → inv next))
    {state : σ} (start : inv state) (events : List ε) :
    Throughout step P state events ↔ Throughout step Q state events := by
  induction events generalizing state with
  | nil => exact Iff.rfl
  | cons event events ih =>
      constructor
      · intro all next observed stepped
        obtain ⟨here, rest⟩ := all next observed stepped
        obtain ⟨same, kept⟩ := agree start stepped
        exact ⟨same.mp here, (ih (kept (same.mp here))).mp rest⟩
      · intro all next observed stepped
        obtain ⟨here, rest⟩ := all next observed stepped
        obtain ⟨same, kept⟩ := agree start stepped
        exact ⟨same.mpr here, (ih (kept here)).mpr rest⟩

/-- The steps of an executed sequence of events meet its side condition. -/
theorem throughout_of_exec_guarded {ok : σ → ε → Prop} [∀ state event, Decidable (ok state event)]
    {state target : σ} {events : List ε} {trace : List ω}
    (executed : exec (guarded step ok) state events = some (target, trace)) :
    Throughout step (fun state event _ _ => ok state event) state events := by
  induction events generalizing state trace with
  | nil => trivial
  | cons event events ih =>
      simp only [exec, Option.bind_eq_bind, Option.bind_eq_some_iff] at executed
      obtain ⟨⟨next, observed⟩, stepped, ⟨last, rest⟩, executedRest, pair⟩ := executed
      cases pair
      rw [guarded] at stepped
      split at stepped
      · rename_i allowed
        intro next' observed' stepped'
        cases stepped.symm.trans stepped'
        exact ⟨allowed, ih executedRest⟩
      · contradiction

/-- An executed sequence of events ends as its last step left it. -/
theorem Throughout.last {state middle target : σ} {events : List ε} {event : ε}
    {trace observed : List ω} (all : Throughout step P state (events ++ [event]))
    (executed : exec step state events = some (middle, trace))
    (stepped : step middle event = some (target, observed)) : P middle event target observed := by
  induction events generalizing state trace with
  | nil =>
      cases executed
      exact (all target observed stepped).1
  | cons first events ih =>
      simp only [exec, Option.bind_eq_bind, Option.bind_eq_some_iff] at executed
      obtain ⟨⟨next, seen⟩, begun, ⟨last, rest⟩, executedRest, pair⟩ := executed
      cases pair
      exact ih (all next seen begun).2 executedRest

end Lps.Transition

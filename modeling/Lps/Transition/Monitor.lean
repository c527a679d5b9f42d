import Lps.Transition.Run

/-!
# Monitors

A monitor reads a trace from the left.  It remembers what it needs of the
observations so far and judges each observation by what it remembers.  A property
of traces that compares an observation with earlier ones is a monitor that
accepts the trace, and is proved of all runs by an invariant that relates what the
monitor remembers to the state of the system.
-/

namespace Lps.Transition

universe u v w x

/-- What a monitor remembers after an observation, and what it expects of the
next one. -/
structure Monitor (μ : Type x) (ω : Type w) where
  next : μ → ω → μ
  expects : μ → ω → Prop

namespace Monitor

variable {μ : Type x} {ω : Type w} {mon : Monitor μ ω} {m : μ} {trace rest : List ω}

/-- What the monitor remembers after a trace. -/
def after (mon : Monitor μ ω) (m : μ) (trace : List ω) : μ := trace.foldl mon.next m

/-- Every observation is as the monitor expects it. -/
def Accepts (mon : Monitor μ ω) : μ → List ω → Prop
  | _, [] => True
  | m, o :: rest => mon.expects m o ∧ mon.Accepts (mon.next m o) rest

/-- Acceptance of a trace can be tested. -/
instance decidableAccepts [∀ m o, Decidable (mon.expects m o)] :
    (m : μ) → (trace : List ω) → Decidable (mon.Accepts m trace)
  | _, [] => .isTrue trivial
  | m, o :: rest =>
      have := decidableAccepts (mon.next m o) rest
      inferInstanceAs (Decidable (_ ∧ _))

theorem after_append : mon.after m (trace ++ rest) = mon.after (mon.after m trace) rest :=
  List.foldl_append

theorem accepts_append :
    mon.Accepts m (trace ++ rest) ↔
      mon.Accepts m trace ∧ mon.Accepts (mon.after m trace) rest := by
  induction trace generalizing m with
  | nil => exact (and_iff_right trivial).symm
  | cons o trace ih =>
      rw [List.cons_append, Accepts, Accepts, ih, and_assoc]
      rfl

/-- Two monitors side by side. -/
def prod {ν : Type x} (mon : Monitor μ ω) (other : Monitor ν ω) : Monitor (μ × ν) ω where
  next m o := (mon.next m.1 o, other.next m.2 o)
  expects m o := mon.expects m.1 o ∧ other.expects m.2 o

theorem prod_accepts {ν : Type x} {other : Monitor ν ω} {n : ν} :
    (mon.prod other).Accepts (m, n) trace ↔ mon.Accepts m trace ∧ other.Accepts n trace := by
  induction trace generalizing m n with
  | nil => exact (and_self_iff).symm
  | cons o trace ih =>
      rw [Accepts, Accepts, Accepts]
      refine (and_congr_right fun _ => ih).trans ?_
      exact and_and_and_comm

theorem prod_after {ν : Type x} {other : Monitor ν ω} {n : ν} :
    (mon.prod other).after (m, n) trace = (mon.after m trace, other.after n trace) := by
  induction trace generalizing m n with
  | nil => rfl
  | cons o trace ih => exact ih

open Classical in
/-- What the monitor remembers as long as everything is as it expects, and nothing from then on. -/
noncomputable def verdict (mon : Monitor μ ω) : Monitor (Option μ) ω where
  next
    | some m, o => if mon.expects m o then some (mon.next m o) else none
    | none, _ => none
  expects _ _ := True

theorem verdict_none : mon.verdict.after none trace = none := by
  induction trace with
  | nil => rfl
  | cons o trace ih => exact ih

/-- It remembers something of the traces that are accepted. -/
theorem verdict_after : (mon.verdict.after (some m) trace).isSome = true ↔ mon.Accepts m trace := by
  induction trace generalizing m with
  | nil => exact iff_of_true rfl trivial
  | cons o trace ih =>
      change (mon.verdict.after (mon.verdict.next (some m) o) trace).isSome = true ↔ _
      simp only [verdict]
      split
      · rename_i expected
        exact ih.trans (and_iff_right expected).symm
      · rename_i unexpected
        change (mon.verdict.after none trace).isSome = true ↔ _
        rw [verdict_none]
        exact iff_of_false Bool.false_ne_true fun accepts => unexpected accepts.1

end Monitor

variable {σ : Type u} {ε : Type v} {ω : Type w} {μ : Type x}

/-- The induction rule for monitors: when the state is related to what the monitor
remembers, every step is accepted and keeps the relation. -/
theorem Run.monitored {step : Step σ ε ω} {ok : σ → ε → Prop} {source target : σ}
    {trace : List ω} (mon : Monitor μ ω) (start : μ) (inv : μ → σ → Prop)
    (initial : inv start source)
    (preserved : ∀ {m : μ} {observed : List ω} {state next : σ} {event : ε},
      inv m state → ok state event → step state event = some (next, observed) →
      mon.Accepts m observed ∧ inv (mon.after m observed) next)
    (run : Run step ok source trace target) :
    mon.Accepts start trace ∧ inv (mon.after start trace) target := by
  refine run.invariant
    (fun trace state => mon.Accepts start trace ∧ inv (mon.after start trace) state)
    ⟨trivial, initial⟩ ?_
  intro trace observed state next event held allowed stepped
  obtain ⟨accepted, kept⟩ := preserved held.2 allowed stepped
  rw [Monitor.after_append, Monitor.accepts_append]
  exact ⟨⟨held.1, accepted⟩, kept⟩

end Lps.Transition

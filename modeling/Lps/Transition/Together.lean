import Lps.Transition.Run
import Mathlib.Logic.Equiv.Defs
import Mathlib.Logic.Function.Basic

/-!
# Components that share a state

Components of one kind run side by side: each has a state of its own, and all of them work on one shared
state.  A component sees a part of the shared state only.  When no step of one component changes what
another one sees, and a step depends on what its component sees only, then each component does in a joint
run what it does in a run alone.
-/

namespace Lps.Transition

universe u v w

variable {ι : Type u} {S : Type v} {σ : Type v} {τ : Type v} {ε : Type v} {ω : Type w} {ο : Type w}

/-- The components' own states, and the state they share. -/
structure Joint (ι : Type u) (σ : Type v) (τ : Type v) where
  own : ι → σ
  shared : τ

/-- A component as it would be alone. -/
def Joint.alone (split : S ≃ σ × τ) (s : Joint ι σ τ) (i : ι) : S := split.symm (s.own i, s.shared)

variable [DecidableEq ι]

/-- One component takes a step. -/
def together (split : S ≃ σ × τ) (step : Step S ε ω) : Step (Joint ι σ τ) (ι × ε) (ι × ω) := fun s event =>
  (step (s.alone split event.1) event.2).map fun result =>
    (⟨Function.update s.own event.1 (split result.1).1, (split result.1).2⟩,
      result.2.map fun o => (event.1, o))

/-- What is observed of one component. -/
def observedOf (i : ι) (trace : List (ι × ω)) : List ω :=
  (trace.filter fun o => o.1 = i).map Prod.snd

theorem observedOf_self {i : ι} {observed : List ω} :
    observedOf i (observed.map fun o => (i, o)) = observed := by
  induction observed with
  | nil => rfl
  | cons o rest ih =>
      rw [observedOf, List.map_cons, List.filter_cons_of_pos (by simp), List.map_cons]
      exact congrArg (o :: ·) ih

theorem observedOf_other {i j : ι} (other : j ≠ i) {observed : List ω} :
    observedOf i (observed.map fun o => (j, o)) = [] := by
  induction observed with
  | nil => rfl
  | cons o rest ih =>
      rw [observedOf, List.map_cons, List.filter_cons_of_neg (by simpa using other)]
      exact ih

theorem observedOf_append {i : ι} {first second : List (ι × ω)} :
    observedOf i (first ++ second) = observedOf i first ++ observedOf i second := by
  rw [observedOf, List.filter_append, List.map_append]
  rfl

/-- The components do not get in each other's way: `alike i` holds of shared states that component `i`
cannot tell apart, and `seen` is what is compared of an observation. -/
structure Separate (split : S ≃ σ × τ) (step : Step S ε ω) (ok : S → ε → Prop) (inv : ι → σ → Prop)
    (alike : ι → τ → τ → Prop) (seen : ω → ο) : Prop where
  trans : ∀ i t t' t'', alike i t t' → alike i t' t'' → alike i t t''
  symm : ∀ i t t', alike i t t' → alike i t' t
  keeps : ∀ i w w' event observed, inv i (split w).1 → ok w event →
    step w event = some (w', observed) → inv i (split w').1
  frame : ∀ i j w w' event observed, i ≠ j → inv i (split w).1 → ok w event →
    step w event = some (w', observed) → alike j (split w).2 (split w').2
  same : ∀ i w w' event observed t, inv i (split w).1 → ok w event → alike i (split w).2 t →
    step w event = some (w', observed) → ∃ event' t' observed',
      ok (split.symm ((split w).1, t)) event' ∧
      step (split.symm ((split w).1, t)) event' = some (split.symm ((split w').1, t'), observed') ∧
      alike i (split w').2 t' ∧ observed'.map seen = observed.map seen

/-- Each component does in a joint run what it does in a run alone, from any shared state that looks the
same to it. -/
theorem Separate.run_alone {split : S ≃ σ × τ} {step : Step S ε ω} {ok : S → ε → Prop}
    {inv : ι → σ → Prop} {alike : ι → τ → τ → Prop} {seen : ω → ο} {source target : Joint ι σ τ}
    {trace : List (ι × ω)} {i : ι} {shared : τ} (separate : Separate split step ok inv alike seen)
    (initial : ∀ i, inv i (source.own i))
    (run : Run (together split step) (fun s event => ok (s.alone split event.1) event.2) source trace target)
    (like : alike i source.shared shared) :
    ∃ trace' t, Run step ok (split.symm (source.own i, shared)) trace' (split.symm (target.own i, t)) ∧
      alike i target.shared t ∧ trace'.map seen = (observedOf i trace).map seen := by
  have all : (∀ j, inv j (target.own j)) ∧ ∃ trace' t,
      Run step ok (split.symm (source.own i, shared)) trace' (split.symm (target.own i, t)) ∧
        alike i target.shared t ∧ trace'.map seen = (observedOf i trace).map seen := by
    apply run.invariant fun trace target => (∀ j, inv j (target.own j)) ∧ ∃ trace' t,
      Run step ok (split.symm (source.own i, shared)) trace' (split.symm (target.own i, t)) ∧
        alike i target.shared t ∧ trace'.map seen = (observedOf i trace).map seen
    · exact ⟨initial, [], shared, .refl, like, rfl⟩
    · rintro trace observed s s' ⟨j, event⟩ ⟨invs, trace', t, solo, like, traces⟩ allowed stepped
      rw [together, Option.map_eq_some_iff] at stepped
      obtain ⟨⟨w', observed'⟩, stepped, pair⟩ := stepped
      rw [Prod.mk.injEq] at pair
      obtain ⟨rfl, rfl⟩ := pair
      dsimp only at allowed stepped ⊢
      have before : split (s.alone split j) = (s.own j, s.shared) := Equiv.apply_symm_apply ..
      have invHere : inv j (split (s.alone split j)).1 := by
        rw [before]
        exact invs j
      have kept := separate.keeps j _ w' event observed' invHere allowed stepped
      constructor
      · intro k
        by_cases here : k = j
        · subst here
          rw [Function.update_self]
          exact kept
        · rw [Function.update_of_ne here]
          exact invs k
      · by_cases here : j = i
        · subst here
          have likeHere : alike j (split (s.alone split j)).2 t := by
            rw [before]
            exact like
          obtain ⟨event', t', observed'', allowed', stepped', like', same⟩ :=
            separate.same j _ w' event observed' t invHere allowed likeHere stepped
          rw [before] at allowed' stepped'
          refine ⟨trace' ++ observed'', t', ?_, like', ?_⟩
          · rw [Function.update_self]
            exact solo.tail allowed' stepped'
          · rw [observedOf_append, observedOf_self, List.map_append, List.map_append, traces, same]
        · have unmoved := separate.frame j i _ w' event observed' here invHere allowed stepped
          rw [before] at unmoved
          refine ⟨trace', t, ?_, ?_, ?_⟩
          · rw [Function.update_of_ne (Ne.symm here)]
            exact solo
          · exact separate.trans i _ _ _ (separate.symm i _ _ unmoved) like
          · rw [observedOf_append, observedOf_other here, List.append_nil]
            exact traces
  exact all.2

end Lps.Transition

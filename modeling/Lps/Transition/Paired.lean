import Lps.Transition.Run

/-!
# Two runs side by side

A property of two runs is a property of one run of the paired system, which takes a
step of each run at a time.  Its observations say which of the two they come from.
-/

namespace Lps.Transition

universe u v w

variable {σ : Type u} {ε : Type v} {ω : Type w}

/-- One step of each of two runs. -/
def paired (step : Step σ ε ω) : Step (σ × σ) (ε × ε) (ω ⊕ ω) := fun states events => do
  let (left, seen) ← step states.1 events.1
  let (right, seen') ← step states.2 events.2
  some ((left, right), seen.map Sum.inl ++ seen'.map Sum.inr)

/-- What is observed of the first run. -/
def lefts (trace : List (ω ⊕ ω)) : List ω := trace.filterMap Sum.getLeft?

/-- What is observed of the second run. -/
def rights (trace : List (ω ⊕ ω)) : List ω := trace.filterMap Sum.getRight?

variable {step : Step σ ε ω} {states next : σ × σ} {events : ε × ε} {observed : List (ω ⊕ ω)}

theorem lefts_append {trace rest : List (ω ⊕ ω)} : lefts (trace ++ rest) = lefts trace ++ lefts rest :=
  List.filterMap_append

theorem rights_append {trace rest : List (ω ⊕ ω)} :
    rights (trace ++ rest) = rights trace ++ rights rest :=
  List.filterMap_append

theorem lefts_tagged (seen seen' : List ω) : lefts (seen.map Sum.inl ++ seen'.map Sum.inr) = seen := by
  rw [lefts_append, lefts, lefts, List.filterMap_map, List.filterMap_map]
  have own : Sum.getLeft? ∘ (Sum.inl : ω → ω ⊕ ω) = some := rfl
  have other : Sum.getLeft? ∘ (Sum.inr : ω → ω ⊕ ω) = fun _ => none := rfl
  simp [own, other]

theorem rights_tagged (seen seen' : List ω) :
    rights (seen.map Sum.inl ++ seen'.map Sum.inr) = seen' := by
  rw [rights_append, rights, rights, List.filterMap_map, List.filterMap_map]
  have own : Sum.getRight? ∘ (Sum.inr : ω → ω ⊕ ω) = some := rfl
  have other : Sum.getRight? ∘ (Sum.inl : ω → ω ⊕ ω) = fun _ => none := rfl
  simp [own, other]

/-- A step of the paired system is a step of each run. -/
theorem paired_cases (stepped : paired step states events = some (next, observed)) :
    step states.1 events.1 = some (next.1, lefts observed) ∧
      step states.2 events.2 = some (next.2, rights observed) := by
  simp only [paired, Option.bind_eq_bind, Option.bind_eq_some_iff, Option.some.injEq,
    Prod.mk.injEq] at stepped
  obtain ⟨⟨left, seen⟩, leftStep, ⟨right, seen'⟩, rightStep, rfl, rfl⟩ := stepped
  rw [lefts_tagged, rights_tagged]
  exact ⟨leftStep, rightStep⟩

end Lps.Transition

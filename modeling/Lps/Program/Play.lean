import Lps.Program.Calls

/-!
# Hosts with a state

A host that remembers answers each call from its state and goes on in another one.  A
program played on such a host returns a value and leaves a state, or goes down.  What a
composed program returns is what its second part returns after the first.
-/

namespace Lps.Program

universe u v

variable {κ : Type u} {ρ : κ → Type u} {φ α β : Type u} {σ : Type v}

/-- How a host answers a call, and the state it goes on in. -/
abbrev Handler (κ : Type u) (ρ : κ → Type u) (σ : Type v) := (c : κ) → σ → ρ c × σ

namespace Prog

/-- Play a program on a host: what it returns, or how it goes down, and the state it leaves. -/
def play (handler : Handler κ ρ σ) : Prog κ ρ φ α → σ → Except φ α × σ
  | ret value, s => (.ok value, s)
  | fault reason, s => (.error reason, s)
  | call c next, s => (next (handler c s).1).play handler (handler c s).2

/-- The program returns this value and leaves this state. -/
def Returns (handler : Handler κ ρ σ) (p : Prog κ ρ φ α) (s : σ) (value : α) (s' : σ) : Prop :=
  p.play handler s = (.ok value, s')

variable {handler : Handler κ ρ σ} {p : Prog κ ρ φ α} {s s' : σ} {value : α}

@[simp]
theorem returns_pure {a : α} :
    (pure a : Prog κ ρ φ α).Returns handler s value s' ↔ a = value ∧ s = s' := by
  change ((Except.ok a : Except φ α), s) = (Except.ok value, s') ↔ _
  simp

@[simp]
theorem returns_fault {reason : φ} : ¬(fault reason : Prog κ ρ φ α).Returns handler s value s' := by
  intro returns
  cases returns

/-- A composed program plays its second part where the first one has returned. -/
theorem play_bind {f : α → Prog κ ρ φ β} :
    (p >>= f).play handler s =
      match p.play handler s with
      | (.ok value, s') => (f value).play handler s'
      | (.error reason, s') => (.error reason, s') := by
  change (p.andThen f).play handler s = _
  induction p generalizing s with
  | ret value => rfl
  | fault reason => rfl
  | call c next ih => exact ih _

/-- The rule of composition. -/
@[simp]
theorem returns_bind {f : α → Prog κ ρ φ β} {result : β} :
    (p >>= f).Returns handler s result s' ↔
      ∃ value middle, p.Returns handler s value middle ∧
        (f value).Returns handler middle result s' := by
  change (p.andThen f).Returns handler s result s' ↔ _
  induction p generalizing s with
  | ret value =>
      constructor
      · exact fun returns => ⟨value, s, rfl, returns⟩
      · rintro ⟨_, _, ⟨⟩, returns⟩
        exact returns
  | fault reason =>
      constructor
      · intro returns
        cases returns
      · rintro ⟨_, _, ⟨⟩, _⟩
  | call c next ih => exact ih _

@[simp]
theorem returns_ask {c : κ} {reply : ρ c} :
    (ask c : Prog κ ρ φ (ρ c)).Returns handler s reply s' ↔ handler c s = (reply, s') := by
  change ((Except.ok (handler c s).1 : Except φ (ρ c)), (handler c s).2) = (Except.ok reply, s') ↔ _
  simp [Prod.ext_iff]

@[simp]
theorem returns_check {holds : Bool} {reason : φ} {done : PUnit} :
    (check holds reason : Prog κ ρ φ PUnit).Returns handler s done s' ↔ holds = true ∧ s = s' := by
  cases holds with
  | false => exact iff_of_false returns_fault (by simp)
  | true =>
      refine returns_pure.trans ?_
      simp

/-- What a program meets holds of the value it returns. -/
theorem Meets.returns {contract : Contract κ ρ φ} {post : α → Prop} (meets : p.Meets contract post)
    (replies : ∀ c s, contract.replies c (handler c s).1) (returns : p.Returns handler s value s') :
    post value := by
  induction p generalizing s with
  | ret other =>
      cases returns
      exact meets
  | fault reason => cases returns
  | call c next ih => exact ih _ (meets.2 _ (replies c s)) returns

/-- A program that tolerates no fault returns a value. -/
theorem Meets.play_returns {contract : Contract κ ρ φ} {post : α → Prop} (meets : p.Meets contract post)
    (replies : ∀ c s, contract.replies c (handler c s).1) (noFaults : ∀ reason, ¬contract.faults reason)
    (s : σ) : ∃ value s', p.Returns handler s value s' ∧ post value := by
  induction p generalizing s with
  | ret value => exact ⟨value, s, rfl, meets⟩
  | fault reason => exact absurd meets (noFaults reason)
  | call c next ih => exact ih _ (meets.2 _ (replies c s)) _

/-- The frame rule: what every permitted call leaves alone, the program leaves alone. -/
theorem Meets.frame {contract : Contract κ ρ φ} {post : α → Prop} (R : σ → σ → Prop)
    (refl : ∀ s, R s s) (trans : ∀ {s s' s''}, R s s' → R s' s'' → R s s'')
    (kept : ∀ c s, contract.calls c → R s (handler c s).2) (meets : p.Meets contract post)
    (replies : ∀ c s, contract.replies c (handler c s).1) (returns : p.Returns handler s value s') :
    R s s' := by
  induction p generalizing s with
  | ret other =>
      cases returns
      exact refl _
  | fault reason => cases returns
  | call c next ih =>
      exact trans (kept c s meets.1) (ih _ (meets.2 _ (replies c s)) returns)

/-- On states that the host answers alike, and leaves alike, a program does the same. -/
theorem play_related {R : σ → σ → Prop}
    (same : ∀ c {s s'}, R s s' → (handler c s').1 = (handler c s).1 ∧ R (handler c s).2 (handler c s').2)
    (related : R s s') :
    (p.play handler s').1 = (p.play handler s).1 ∧ R (p.play handler s).2 (p.play handler s').2 := by
  induction p generalizing s s' with
  | ret value => exact ⟨rfl, related⟩
  | fault reason => exact ⟨rfl, related⟩
  | call c next ih =>
      obtain ⟨reply, left⟩ := same c related
      rw [play, play, reply]
      exact ih _ left

end Prog

end Lps.Program

import Lps.Program.Calls

/-!
# Programs of a smaller host

A host that does more answers the calls of a program written for a part of it.  What the
program meets there is what it meets on the part.
-/

namespace Lps.Program

universe u

variable {κ κ' : Type u} {ρ : κ → Type u} {ρ' : κ' → Type u} {φ φ' α β : Type u}

/-- The calls and faults of one host among those of another one. -/
structure Part (κ : Type u) (ρ : κ → Type u) (φ : Type u) (κ' : Type u) (ρ' : κ' → Type u)
    (φ' : Type u) where
  call : κ → κ'
  reply : (c : κ) → ρ' (call c) → ρ c
  fault : φ → φ'

/-- What a contract says of a part of the host. -/
def Contract.part (contract : Contract κ' ρ' φ') (part : Part κ ρ φ κ' ρ' φ') :
    Contract κ ρ φ where
  replies c reply := ∃ answer, contract.replies (part.call c) answer ∧ part.reply c answer = reply
  calls c := contract.calls (part.call c)
  faults reason := contract.faults (part.fault reason)

namespace Prog

/-- The program on the host that does more. -/
def lift (part : Part κ ρ φ κ' ρ' φ') : Prog κ ρ φ α → Prog κ' ρ' φ' α
  | ret value => ret value
  | fault reason => fault (part.fault reason)
  | call c next => call (part.call c) fun reply => (next (part.reply c reply)).lift part

@[simp]
theorem lift_pure {part : Part κ ρ φ κ' ρ' φ'} {value : α} :
    (pure value : Prog κ ρ φ α).lift part = pure value := rfl

/-- Composed programs are composed there. -/
@[simp]
theorem lift_bind {part : Part κ ρ φ κ' ρ' φ'} {p : Prog κ ρ φ α} {f : α → Prog κ ρ φ β} :
    (p >>= f).lift part = p.lift part >>= fun value => (f value).lift part := by
  change (p.andThen f).lift part = (p.lift part).andThen fun value => (f value).lift part
  induction p with
  | ret value => rfl
  | fault reason => rfl
  | call c next ih =>
      apply congrArg (call (part.call c))
      funext reply
      exact ih _

@[simp]
theorem meets_lift {part : Part κ ρ φ κ' ρ' φ'} {contract : Contract κ' ρ' φ'} {p : Prog κ ρ φ α}
    {post : α → Prop} : (p.lift part).Meets contract post ↔ p.Meets (contract.part part) post := by
  induction p with
  | ret value => exact Iff.rfl
  | fault reason => exact Iff.rfl
  | call c next ih =>
      apply and_congr_right
      intro _
      constructor
      · rintro rest _ ⟨answer, allowed, rfl⟩
        exact (ih _).mp (rest answer allowed)
      · intro rest answer allowed
        exact (ih _).mpr (rest _ ⟨answer, allowed, rfl⟩)

end Prog

end Lps.Program

import Lps.Program.Calls

/-!
# Programs that do what other programs do

A program simulates another one when both make the same calls, whatever the host replies
of what it may reply, and return related values or go down with related faults.  What the
other program meets, the first one then meets as well.
-/

namespace Lps.Program

universe u

variable {κ : Type u} {ρ : κ → Type u} {φ ψ α α' β β' : Type u}

namespace Prog

/-- The same calls, and related results. -/
inductive Simulates (replies : (c : κ) → ρ c → Prop) (faults : φ → ψ → Prop)
    (related : α → β → Prop) : Prog κ ρ φ α → Prog κ ρ ψ β → Prop
  | ret {a : α} {b : β} (here : related a b) : Simulates replies faults related (.ret a) (.ret b)
  | fault {reason : φ} {reason' : ψ} (here : faults reason reason') :
      Simulates replies faults related (.fault reason) (.fault reason')
  | call {c : κ} {next : ρ c → Prog κ ρ φ α} {next' : ρ c → Prog κ ρ ψ β}
      (rest : ∀ reply, replies c reply → Simulates replies faults related (next reply) (next' reply)) :
      Simulates replies faults related (.call c next) (.call c next')

variable {replies : (c : κ) → ρ c → Prop} {faults : φ → ψ → Prop} {related : α → β → Prop}
  {p : Prog κ ρ φ α} {q : Prog κ ρ ψ β}

namespace Simulates

theorem pure {a : α} {b : β} (here : related a b) :
    Simulates replies faults related (Pure.pure a) (Pure.pure b) := .ret here

/-- One call and what follows it. -/
theorem ask_bind {c : κ} {f : ρ c → Prog κ ρ φ α} {g : ρ c → Prog κ ρ ψ β}
    (rest : ∀ reply, replies c reply → Simulates replies faults related (f reply) (g reply)) :
    Simulates replies faults related (Prog.ask c >>= f) (Prog.ask c >>= g) := .call rest

/-- Simulations compose like the programs do. -/
theorem bind {then_ : α' → β' → Prop} {f : α → Prog κ ρ φ α'} {g : β → Prog κ ρ ψ β'}
    (first : Simulates replies faults related p q)
    (second : ∀ a b, related a b → Simulates replies faults then_ (f a) (g b)) :
    Simulates replies faults then_ (p >>= f) (q >>= g) := by
  induction first with
  | ret here => exact second _ _ here
  | fault here => exact .fault here
  | call rest ih => exact .call ih

/-- The other program may go on without a call. -/
theorem bind_right {then_ : α → β' → Prop} {g : β → Prog κ ρ ψ β'}
    (first : Simulates replies faults related p q)
    (second : ∀ a b, related a b → Simulates replies faults then_ (Pure.pure a) (g b)) :
    Simulates replies faults then_ p (q >>= g) := by
  rw [← bind_pure p]
  exact first.bind second

end Simulates

/-- A program with other faults. -/
def mapFault (f : ψ → φ) : Prog κ ρ ψ β → Prog κ ρ φ β
  | ret value => ret value
  | fault reason => fault (f reason)
  | call c next => call c fun reply => (next reply).mapFault f

/-- With its faults renamed a program simulates itself. -/
theorem simulates_mapFault {f : ψ → φ} (renamed : ∀ reason, faults (f reason) reason) :
    Simulates replies faults Eq (q.mapFault f) q := by
  induction q with
  | ret value => exact .ret rfl
  | fault reason => exact .fault (renamed reason)
  | call c next ih => exact .call fun reply _ => ih reply

/-- What the other program meets may be used of its values. -/
theorem Simulates.and_meets (contract : Contract κ ρ ψ) {post : β → Prop}
    (simulates : Simulates replies faults related p q)
    (fewer : ∀ c reply, replies c reply → contract.replies c reply) (meets : q.Meets contract post) :
    Simulates replies faults (fun a b => related a b ∧ post b) p q := by
  induction simulates with
  | ret here => exact .ret ⟨here, meets⟩
  | fault here => exact .fault here
  | call rest ih => exact .call fun reply allowed => ih reply allowed (meets.2 reply (fewer _ _ allowed))

/-- What a program meets, a program that simulates it meets. -/
theorem Simulates.meets (contract : Contract κ ρ φ) {contract' : Contract κ ρ ψ} {post : β → Prop}
    (simulates : Simulates replies faults related p q)
    (fewer : ∀ c reply, contract.replies c reply → replies c reply ∧ contract'.replies c reply)
    (calls : ∀ c, contract'.calls c → contract.calls c)
    (tolerates : ∀ reason reason', faults reason reason' → contract'.faults reason' →
      contract.faults reason)
    (meets : q.Meets contract' post) :
    p.Meets contract fun a => ∃ b, related a b ∧ post b := by
  induction simulates with
  | ret here => exact ⟨_, here, meets⟩
  | fault here => exact tolerates _ _ here meets
  | call rest ih =>
      refine ⟨calls _ meets.1, fun reply allowed => ?_⟩
      obtain ⟨related, allowed'⟩ := fewer _ _ allowed
      exact ih reply related (meets.2 reply allowed')

end Prog

end Lps.Program

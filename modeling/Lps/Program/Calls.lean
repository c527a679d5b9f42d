import Mathlib.Data.Set.Basic

/-!
# Programs that call a host

A program returns a value, goes down with a fault, or calls its host and
continues with the reply.  What is proved of a program is a contract: assuming
that every reply is one the host may give, the program makes only permitted
calls, goes down only with a tolerated fault, and returns only values that meet
a postcondition.  The postcondition is computed backwards through the program.
-/

namespace Lps.Program

universe u

/-- A finite program over the calls `κ`, whose call `c` is answered by a reply
in `ρ c`, with the faults `φ`. -/
inductive Prog (κ : Type u) (ρ : κ → Type u) (φ α : Type u) : Type u
  | ret (value : α)
  | fault (reason : φ)
  | call (c : κ) (next : ρ c → Prog κ ρ φ α)

variable {κ : Type u} {ρ : κ → Type u} {φ α β : Type u}

namespace Prog

/-- Run one program after another. -/
def andThen (f : α → Prog κ ρ φ β) : Prog κ ρ φ α → Prog κ ρ φ β
  | ret value => f value
  | fault reason => fault reason
  | call c next => call c fun reply => (next reply).andThen f

instance : Monad (Prog κ ρ φ) where
  pure := ret
  bind p f := p.andThen f

/-- Programs compose like functions. -/
instance : LawfulMonad (Prog κ ρ φ) := by
  refine LawfulMonad.mk' _ ?_ (fun _ _ => rfl) ?_
  · intro α p
    change p.andThen ret = p
    induction p with
    | ret value => rfl
    | fault reason => rfl
    | call c next ih => exact congrArg (call c) (funext ih)
  · intro α β γ p f g
    change (p.andThen f).andThen g = p.andThen fun value => (f value).andThen g
    induction p with
    | ret value => rfl
    | fault reason => rfl
    | call c next ih => exact congrArg (call c) (funext ih)

/-- One call. -/
def ask (c : κ) : Prog κ ρ φ (ρ c) := call c ret

/-- Go down with `reason` unless the condition holds. -/
def check (holds : Bool) (reason : φ) : Prog κ ρ φ PUnit :=
  if holds then ret ⟨⟩ else fault reason

/-! ## Execution -/

/-- A host answers a call; the answer may depend on the calls made before. -/
abbrev Host (κ : Type u) (ρ : κ → Type u) := List κ → (c : κ) → ρ c

/-- Execute a program: the calls it makes after the ones made before, and the
value it returns or the fault it goes down with. -/
def run (host : Host κ ρ) : Prog κ ρ φ α → List κ → List κ × Except φ α
  | ret value, _ => ([], .ok value)
  | fault reason, _ => ([], .error reason)
  | call c next, made =>
      let (calls, result) := (next (host made c)).run host (made ++ [c])
      (c :: calls, result)

/-! ## Contracts -/

end Prog

/-- What a program relies on and what it may do. -/
structure Contract (κ : Type u) (ρ : κ → Type u) (φ : Type u) where
  replies : (c : κ) → ρ c → Prop
  calls : κ → Prop
  faults : φ → Prop

namespace Prog

/-- The program keeps the contract and returns only values that meet `post`. -/
def Meets (contract : Contract κ ρ φ) (post : α → Prop) : Prog κ ρ φ α → Prop
  | ret value => post value
  | fault reason => contract.faults reason
  | call c next =>
      contract.calls c ∧ ∀ reply, contract.replies c reply → (next reply).Meets contract post

variable {contract : Contract κ ρ φ} {post : α → Prop} {host : Host κ ρ}

@[simp]
theorem meets_ret {value : α} : (ret value : Prog κ ρ φ α).Meets contract post ↔ post value :=
  Iff.rfl

@[simp]
theorem meets_pure {value : α} : (pure value : Prog κ ρ φ α).Meets contract post ↔ post value :=
  Iff.rfl

@[simp]
theorem meets_fault {reason : φ} :
    (fault reason : Prog κ ρ φ α).Meets contract post ↔ contract.faults reason :=
  Iff.rfl

@[simp]
theorem meets_ask {c : κ} {post : ρ c → Prop} :
    (ask c : Prog κ ρ φ (ρ c)).Meets contract post ↔
      contract.calls c ∧ ∀ reply, contract.replies c reply → post reply :=
  Iff.rfl

@[simp]
theorem meets_check {holds : Bool} {reason : φ} {post : PUnit → Prop} :
    (check holds reason : Prog κ ρ φ PUnit).Meets contract post ↔
      if holds then post ⟨⟩ else contract.faults reason := by
  cases holds <;> rfl

/-- The rule of composition. -/
@[simp]
theorem meets_bind {p : Prog κ ρ φ α} {f : α → Prog κ ρ φ β} {post : β → Prop} :
    (p >>= f).Meets contract post ↔
      p.Meets contract fun value => (f value).Meets contract post := by
  change (p.andThen f).Meets contract post ↔ _
  induction p with
  | ret value => exact Iff.rfl
  | fault reason => exact Iff.rfl
  | call c next ih =>
      simp only [andThen, Meets]
      constructor
      · rintro ⟨permitted, rest⟩
        exact ⟨permitted, fun reply allowed => (ih reply).mp (rest reply allowed)⟩
      · rintro ⟨permitted, rest⟩
        exact ⟨permitted, fun reply allowed => (ih reply).mpr (rest reply allowed)⟩

/-- The rule of consequence. -/
theorem Meets.mono {p : Prog κ ρ φ α} {weaker : α → Prop} (meets : p.Meets contract post)
    (weaken : ∀ value, post value → weaker value) : p.Meets contract weaker := by
  induction p with
  | ret value => exact weaken value meets
  | fault reason => exact meets
  | call c next ih =>
      exact ⟨meets.1, fun reply allowed => ih reply (meets.2 reply allowed)⟩

/-- The rule of conjunction: what holds for more replies may be added. -/
theorem Meets.and {p : Prog κ ρ φ α} {contract' : Contract κ ρ φ} {post' : α → Prop}
    (first : p.Meets contract post) (second : p.Meets contract' post')
    (replies : ∀ c reply, contract.replies c reply → contract'.replies c reply) :
    p.Meets contract fun value => post value ∧ post' value := by
  induction p with
  | ret value => exact ⟨first, second⟩
  | fault reason => exact first
  | call c next ih =>
      refine ⟨first.1, fun reply allowed => ?_⟩
      exact ih reply (first.2 reply allowed) (second.2 reply (replies c reply allowed))

/-- A contract that permits more is kept as well. -/
theorem Meets.weaken {p : Prog κ ρ φ α} (contract' : Contract κ ρ φ) (meets : p.Meets contract post)
    (replies : ∀ c reply, contract'.replies c reply → contract.replies c reply)
    (calls : ∀ c, contract.calls c → contract'.calls c)
    (faults : ∀ reason, contract.faults reason → contract'.faults reason) :
    p.Meets contract' post := by
  induction p with
  | ret value => exact meets
  | fault reason => exact faults reason meets
  | call c next ih =>
      exact ⟨calls c meets.1, fun reply allowed => ih reply (meets.2 reply (replies c reply allowed))⟩

/-- Of two contracts with the same replies a program that keeps both makes only calls that both permit. -/
theorem Meets.both {p : Prog κ ρ φ α} {permits : κ → Prop} {tolerates : φ → Prop} {post' : α → Prop}
    (first : p.Meets contract post)
    (second : p.Meets ⟨contract.replies, permits, tolerates⟩ post') :
    p.Meets ⟨contract.replies, fun c => contract.calls c ∧ permits c,
      fun reason => contract.faults reason ∧ tolerates reason⟩ fun value => post value ∧ post' value := by
  induction p with
  | ret value => exact ⟨first, second⟩
  | fault reason => exact ⟨first, second⟩
  | call c next ih =>
      exact ⟨⟨first.1, second.1⟩, fun reply allowed => ih reply (first.2 reply allowed) (second.2 reply allowed)⟩

/-- A contract that permits everything is kept. -/
theorem meets_permitted {p : Prog κ ρ φ α} (calls : ∀ c, contract.calls c)
    (faults : ∀ reason, contract.faults reason) : p.Meets contract fun _ => True := by
  induction p with
  | ret value => trivial
  | fault reason => exact faults reason
  | call c next ih => exact ⟨calls c, fun reply _ => ih reply⟩

/-- A program whose first part is known by its specification. -/
theorem Meets.bind {p : Prog κ ρ φ α} {f : α → Prog κ ρ φ β} {goal : β → Prop}
    (meets : p.Meets contract post)
    (rest : ∀ value, post value → (f value).Meets contract goal) :
    (p >>= f).Meets contract goal :=
  meets_bind.mpr (meets.mono rest)

/-- A program that may neither call nor go down returns a value. -/
theorem Meets.eq_pure {p : Prog κ ρ φ α} (meets : p.Meets contract post)
    (noCalls : ∀ c, ¬contract.calls c) (noFaults : ∀ reason, ¬contract.faults reason) :
    ∃ value, p = pure value ∧ post value := by
  cases p with
  | ret value => exact ⟨value, rfl, meets⟩
  | fault reason => exact absurd meets (noFaults reason)
  | call c next => exact absurd meets.1 (noCalls c)

/-- A program that may not go down returns a value, when there is a reply to each call. -/
theorem Meets.exists_value {p : Prog κ ρ φ α} (meets : p.Meets contract post)
    (replies : ∀ c, ∃ reply, contract.replies c reply)
    (noFaults : ∀ reason, ¬contract.faults reason) : ∃ value, post value := by
  induction p with
  | ret value => exact ⟨value, meets⟩
  | fault reason => exact absurd meets (noFaults reason)
  | call c next ih =>
      obtain ⟨reply, allowed⟩ := replies c
      exact ih reply (meets.2 reply allowed)

/-- A program that keeps a contract makes only permitted calls when executed on
a host that gives only the expected replies. -/
theorem Meets.run_calls {p : Prog κ ρ φ α} (meets : p.Meets contract post)
    (replies : ∀ made c, contract.replies c (host made c)) (made : List κ) :
    ∀ c ∈ (p.run host made).1, contract.calls c := by
  induction p generalizing made with
  | ret value => simp [run]
  | fault reason => simp [run]
  | call c next ih =>
      intro other mem
      rcases List.mem_cons.mp mem with rfl | later
      · exact meets.1
      · exact ih _ (meets.2 _ (replies made c)) _ other later

/-- It returns only values that meet the postcondition. -/
theorem Meets.run_ok {p : Prog κ ρ φ α} (meets : p.Meets contract post)
    (replies : ∀ made c, contract.replies c (host made c)) (made : List κ) (value : α)
    (returned : (p.run host made).2 = .ok value) : post value := by
  induction p generalizing made with
  | ret other =>
      cases returned
      exact meets
  | fault reason => cases returned
  | call c next ih => exact ih _ (meets.2 _ (replies made c)) _ returned

/-- It goes down only with tolerated faults. -/
theorem Meets.run_error {p : Prog κ ρ φ α} (meets : p.Meets contract post)
    (replies : ∀ made c, contract.replies c (host made c)) (made : List κ) (reason : φ)
    (down : (p.run host made).2 = .error reason) : contract.faults reason := by
  induction p generalizing made with
  | ret value => cases down
  | fault other =>
      cases down
      exact meets
  | call c next ih => exact ih _ (meets.2 _ (replies made c)) _ down

/-- It returns when no fault is tolerated. -/
theorem Meets.run_returns {p : Prog κ ρ φ α} (meets : p.Meets contract post)
    (replies : ∀ made c, contract.replies c (host made c))
    (noFaults : ∀ reason, ¬contract.faults reason) (made : List κ) :
    ∃ value, (p.run host made).2 = .ok value ∧ post value := by
  cases result : (p.run host made).2 with
  | ok value => exact ⟨value, rfl, meets.run_ok replies made value result⟩
  | error reason => exact absurd (meets.run_error replies made reason result) (noFaults reason)

/-! ## Completeness -/

/-- Hosts that answer alike from here on are told apart by no program. -/
theorem run_congr {p : Prog κ ρ φ α} {host' : Host κ ρ} {made : List κ}
    (same : ∀ later c, made.length ≤ later.length → host later c = host' later c) :
    p.run host made = p.run host' made := by
  induction p generalizing made with
  | ret value => rfl
  | fault reason => rfl
  | call c next ih =>
      rw [run, run, same made c (Nat.le_refl _), ih]
      intro later other longer
      rw [List.length_append] at longer
      exact same later other ((Nat.le_add_right _ _).trans longer)

open Classical in
/-- The host that gives this reply now, and answers like another one otherwise. -/
noncomputable def Host.answering (host : Host κ ρ) (made : List κ) (c : κ) (reply : ρ c) :
    Host κ ρ :=
  fun later d => if same : later = made ∧ c = d then same.2 ▸ reply else host later d

section Answering

variable {made later : List κ} {c d : κ} {reply : ρ c}

theorem Host.answering_now : host.answering made c reply made c = reply := dif_pos ⟨rfl, rfl⟩

theorem Host.answering_other (other : ¬(later = made ∧ c = d)) :
    host.answering made c reply later d = host later d := dif_neg other

theorem Host.answering_later (longer : (made ++ [c]).length ≤ later.length) :
    host later d = host.answering made c reply later d := by
  refine (answering_other ?_).symm
  rintro ⟨rfl, -⟩
  rw [List.length_append, List.length_singleton] at longer
  exact Nat.not_succ_le_self _ longer

theorem Host.answering_replies (allowed : contract.replies c reply)
    (replies : ∀ made c, contract.replies c (host made c)) (later : List κ) (d : κ) :
    contract.replies d (host.answering made c reply later d) := by
  by_cases now : later = made ∧ c = d
  · obtain ⟨rfl, rfl⟩ := now
    rw [answering_now]
    exact allowed
  · rw [answering_other now]
    exact replies later d

end Answering

/-- The rules are complete: what holds of every execution is met. -/
theorem meets_of_run {p : Prog κ ρ φ α} (some : ∀ c, ∃ reply, contract.replies c reply)
    (calls : ∀ c, contract.calls c) (made : List κ)
    (returns : ∀ host : Host κ ρ, (∀ made c, contract.replies c (host made c)) →
      ∃ value, (p.run host made).2 = .ok value ∧ post value) : p.Meets contract post := by
  induction p generalizing made with
  | ret value =>
      obtain ⟨other, same, holds⟩ := returns (fun _ c => (some c).choose) fun _ c => (some c).choose_spec
      cases same
      exact holds
  | fault reason =>
      obtain ⟨other, down, -⟩ := returns (fun _ c => (some c).choose) fun _ c => (some c).choose_spec
      cases down
  | call c next ih =>
      refine ⟨calls c, fun reply allowed => ?_⟩
      apply ih reply (made ++ [c])
      intro host replies
      obtain ⟨value, returned, holds⟩ :=
        returns (host.answering made c reply) (Host.answering_replies allowed replies)
      rw [run, Host.answering_now] at returned
      refine ⟨value, ?_, holds⟩
      rw [run_congr fun later d longer => Host.answering_later longer]
      exact returned

/-- A program that may not go down is one that returns on every host. -/
theorem meets_iff_run {p : Prog κ ρ φ α} (some : ∀ c, ∃ reply, contract.replies c reply)
    (calls : ∀ c, contract.calls c) (noFaults : ∀ reason, ¬contract.faults reason) :
    p.Meets contract post ↔ ∀ host : Host κ ρ, (∀ made c, contract.replies c (host made c)) →
      ∃ value, (p.run host []).2 = .ok value ∧ post value :=
  ⟨fun meets _ replies => meets.run_returns replies noFaults [], meets_of_run some calls []⟩

end Prog

end Lps.Program

import Lps.Program.Play
import Lps.Transition.Monitor

/-!
# Programs under a monitor

What a program says to its host, and is told, is a trace that a monitor can read.  A program is
watched when the monitor accepts the trace of every execution.  Like a contract, this is computed
backwards through the program; the postcondition also sees what the monitor remembers at the end.
-/

namespace Lps.Program

open Lps.Transition

universe u v

variable {κ : Type u} {ρ : κ → Type u} {φ α β : Type u} {μ : Type v}

/-- A call and its reply. -/
abbrev Exchange (κ : Type u) (ρ : κ → Type u) := (c : κ) × ρ c

namespace Prog

/-- The calls of an execution with their replies. -/
def exchanges (host : Host κ ρ) : Prog κ ρ φ α → List κ → List (Exchange κ ρ)
  | ret _, _ => []
  | fault _, _ => []
  | call c next, made =>
      ⟨c, host made c⟩ :: (next (host made c)).exchanges host (made ++ [c])

/-- On every host that gives the expected replies the monitor accepts what is said, the program
goes down only with a tolerated fault, and it returns only values that meet the postcondition. -/
def Watched (contract : Contract κ ρ φ) (mon : Monitor μ (Exchange κ ρ)) (post : α → μ → Prop) :
    Prog κ ρ φ α → μ → Prop
  | ret value, m => post value m
  | fault reason, _ => contract.faults reason
  | call c next, m => ∀ reply, contract.replies c reply → mon.expects m ⟨c, reply⟩ ∧
      (next reply).Watched contract mon post (mon.next m ⟨c, reply⟩)

variable {contract : Contract κ ρ φ} {mon : Monitor μ (Exchange κ ρ)} {post : α → μ → Prop} {m : μ}
  {p : Prog κ ρ φ α} {host : Host κ ρ}

@[simp]
theorem watched_ret {value : α} :
    (ret value : Prog κ ρ φ α).Watched contract mon post m ↔ post value m :=
  Iff.rfl

@[simp]
theorem watched_pure {value : α} :
    (pure value : Prog κ ρ φ α).Watched contract mon post m ↔ post value m :=
  Iff.rfl

@[simp]
theorem watched_fault {reason : φ} :
    (fault reason : Prog κ ρ φ α).Watched contract mon post m ↔ contract.faults reason :=
  Iff.rfl

@[simp]
theorem watched_ask {c : κ} {post : ρ c → μ → Prop} :
    (ask c : Prog κ ρ φ (ρ c)).Watched contract mon post m ↔
      ∀ reply, contract.replies c reply →
        mon.expects m ⟨c, reply⟩ ∧ post reply (mon.next m ⟨c, reply⟩) :=
  Iff.rfl

@[simp]
theorem watched_check {holds : Bool} {reason : φ} {post : PUnit → μ → Prop} :
    (check holds reason : Prog κ ρ φ PUnit).Watched contract mon post m ↔
      if holds then post ⟨⟩ m else contract.faults reason := by
  cases holds <;> rfl

/-- The rule of composition. -/
@[simp]
theorem watched_bind {f : α → Prog κ ρ φ β} {post : β → μ → Prop} :
    (p >>= f).Watched contract mon post m ↔
      p.Watched contract mon (fun value m' => (f value).Watched contract mon post m') m := by
  change (p.andThen f).Watched contract mon post m ↔ _
  induction p generalizing m with
  | ret value => exact Iff.rfl
  | fault reason => exact Iff.rfl
  | call c next ih =>
      simp only [andThen, Watched]
      constructor
      · intro watched reply allowed
        exact ⟨(watched reply allowed).1, (ih reply).mp (watched reply allowed).2⟩
      · intro watched reply allowed
        exact ⟨(watched reply allowed).1, (ih reply).mpr (watched reply allowed).2⟩

/-- The rule of consequence. -/
theorem Watched.mono {weaker : α → μ → Prop} (watched : p.Watched contract mon post m)
    (weaken : ∀ value m', post value m' → weaker value m') :
    p.Watched contract mon weaker m := by
  induction p generalizing m with
  | ret value => exact weaken value m watched
  | fault reason => exact watched
  | call c next ih =>
      exact fun reply allowed => ⟨(watched reply allowed).1, ih reply (watched reply allowed).2⟩

/-- A host that gives fewer replies, and a contract that tolerates more faults. -/
theorem Watched.weaken (contract' : Contract κ ρ φ) (watched : p.Watched contract mon post m)
    (replies : ∀ c reply, contract'.replies c reply → contract.replies c reply)
    (faults : ∀ reason, contract.faults reason → contract'.faults reason) :
    p.Watched contract' mon post m := by
  induction p generalizing m with
  | ret value => exact watched
  | fault reason => exact faults reason watched
  | call c next ih =>
      intro reply allowed
      obtain ⟨expected, goesOn⟩ := watched reply (replies c reply allowed)
      exact ⟨expected, ih reply goesOn⟩

/-- A contract that permits only calls the monitor expects in any case. -/
theorem Meets.watched {contract' : Contract κ ρ φ} {post : α → Prop}
    (meets : p.Meets contract' post)
    (replies : ∀ c reply, contract.replies c reply → contract'.replies c reply)
    (expected : ∀ c, contract'.calls c → ∀ m reply, mon.expects m ⟨c, reply⟩)
    (faults : ∀ reason, contract'.faults reason → contract.faults reason) :
    p.Watched contract mon (fun value _ => post value) m := by
  induction p generalizing m with
  | ret value => exact meets
  | fault reason => exact faults reason meets
  | call c next ih =>
      intro reply allowed
      exact ⟨expected c meets.1 m reply, ih reply (meets.2 reply (replies c reply allowed))⟩

/-- A contract that permits only calls the monitor expects, and that change what it remembers in this
way only. -/
theorem Meets.watched_frame {contract' : Contract κ ρ φ} {post : α → Prop}
    (meets : p.Meets contract' post) (frame : μ → μ → Prop)
    (replies : ∀ c reply, contract.replies c reply → contract'.replies c reply)
    (refl : ∀ m, frame m m) (trans : ∀ {m m' m''}, frame m m' → frame m' m'' → frame m m'')
    (framed : ∀ c, contract'.calls c → ∀ m reply, contract.replies c reply →
      mon.expects m ⟨c, reply⟩ ∧ frame m (mon.next m ⟨c, reply⟩))
    (faults : ∀ reason, contract'.faults reason → contract.faults reason) :
    p.Watched contract mon (fun value m' => post value ∧ frame m m') m := by
  induction p generalizing m with
  | ret value => exact ⟨meets, refl m⟩
  | fault reason => exact faults reason meets
  | call c next ih =>
      intro reply allowed
      obtain ⟨expected, first⟩ := framed c meets.1 m reply allowed
      refine ⟨expected, ?_⟩
      apply (ih reply (meets.2 reply (replies c reply allowed))).mono
      exact fun _ _ later => ⟨later.1, trans first later.2⟩

/-- A contract that permits only calls the monitor expects and forgets. -/
theorem Meets.watched_still {contract' : Contract κ ρ φ} {post : α → Prop}
    (meets : p.Meets contract' post)
    (replies : ∀ c reply, contract.replies c reply → contract'.replies c reply)
    (still : ∀ c, contract'.calls c → ∀ m reply,
      mon.expects m ⟨c, reply⟩ ∧ mon.next m ⟨c, reply⟩ = m)
    (faults : ∀ reason, contract'.faults reason → contract.faults reason) :
    p.Watched contract mon (fun value m' => post value ∧ m' = m) m :=
  meets.watched_frame (fun m m' => m' = m) replies (fun _ => rfl)
    (fun first second => second.trans first) (fun c permitted m reply _ => still c permitted m reply)
    faults

/-- The rule of conjunction. -/
theorem Watched.and {post' : α → μ → Prop} (watched : p.Watched contract mon post m)
    (watched' : p.Watched contract mon post' m) :
    p.Watched contract mon (fun value m' => post value m' ∧ post' value m') m := by
  induction p generalizing m with
  | ret value => exact ⟨watched, watched'⟩
  | fault reason => exact watched
  | call c next ih =>
      intro reply allowed
      exact ⟨(watched reply allowed).1, ih reply (watched reply allowed).2 (watched' reply allowed).2⟩

/-- What is met for more replies may be added. -/
theorem Watched.meets {contract' : Contract κ ρ φ} {post' : α → Prop}
    (watched : p.Watched contract mon post m) (meets : p.Meets contract' post')
    (replies : ∀ c reply, contract.replies c reply → contract'.replies c reply) :
    p.Watched contract mon (fun value m' => post value m' ∧ post' value) m := by
  induction p generalizing m with
  | ret value => exact ⟨watched, meets⟩
  | fault reason => exact watched
  | call c next ih =>
      intro reply allowed
      exact ⟨(watched reply allowed).1,
        ih reply (watched reply allowed).2 (meets.2 reply (replies c reply allowed))⟩

/-- A watched program that may not go down by a stricter contract returns a value. -/
theorem Watched.exists_value {contract' : Contract κ ρ φ} {post' : α → Prop}
    (watched : p.Watched contract mon post m) (meets : p.Meets contract' post')
    (replies : ∀ c reply, contract'.replies c reply → contract.replies c reply)
    (some : ∀ c, ∃ reply, contract'.replies c reply)
    (noFaults : ∀ reason, ¬contract'.faults reason) :
    ∃ value m', post value m' ∧ post' value := by
  induction p generalizing m with
  | ret value => exact ⟨value, m, watched, meets⟩
  | fault reason => exact absurd meets (noFaults reason)
  | call c next ih =>
      obtain ⟨reply, allowed⟩ := some c
      exact ih reply (watched reply (replies c reply allowed)).2 (meets.2 reply allowed)

/-- The monitor accepts what a watched program says. -/
theorem Watched.accepts (watched : p.Watched contract mon post m)
    (replies : ∀ made c, contract.replies c (host made c)) (made : List κ) :
    mon.Accepts m (p.exchanges host made) := by
  induction p generalizing m made with
  | ret value => trivial
  | fault reason => trivial
  | call c next ih =>
      obtain ⟨expected, goesOn⟩ := watched _ (replies made c)
      exact ⟨expected, ih _ goesOn _⟩

theorem exchanges_congr {host' : Host κ ρ} {made : List κ}
    (same : ∀ later c, made.length ≤ later.length → host later c = host' later c) :
    p.exchanges host made = p.exchanges host' made := by
  induction p generalizing made with
  | ret value => rfl
  | fault reason => rfl
  | call c next ih =>
      rw [exchanges, exchanges, same made c (Nat.le_refl _), ih]
      intro later other longer
      rw [List.length_append] at longer
      exact same later other ((Nat.le_add_right _ _).trans longer)

/-- What is made of the value at the end is not said to the host. -/
theorem exchanges_map {f : α → β} {made : List κ} :
    (p >>= fun value => (pure (f value) : Prog κ ρ φ β)).exchanges host made =
      p.exchanges host made := by
  induction p generalizing made with
  | ret value => rfl
  | fault reason => rfl
  | call c next ih => exact congrArg (_ :: ·) (ih _)

/-- A program is watched when the monitor accepts what it says on every host. -/
theorem watched_of_accepts (some : ∀ c, ∃ reply, contract.replies c reply)
    (faults : ∀ reason, contract.faults reason) (made : List κ)
    (accepts : ∀ host : Host κ ρ, (∀ made c, contract.replies c (host made c)) →
      mon.Accepts m (p.exchanges host made)) :
    p.Watched contract mon (fun _ _ => True) m := by
  induction p generalizing m made with
  | ret value => trivial
  | fault reason => exact faults reason
  | call c next ih =>
      intro reply allowed
      have heard : ∀ host : Host κ ρ, (∀ made c, contract.replies c (host made c)) →
          mon.Accepts m (⟨c, reply⟩ :: (next reply).exchanges host (made ++ [c])) := by
        intro host replies
        have accepted :=
          accepts (host.answering made c reply) (Host.answering_replies allowed replies)
        rw [exchanges, Host.answering_now] at accepted
        rw [exchanges_congr fun later d longer => Host.answering_later longer]
        exact accepted
      constructor
      · exact (heard (fun _ c => (some c).choose) fun _ c => (some c).choose_spec).1
      · exact ih reply (made ++ [c]) fun host replies => (heard host replies).2

/-- What is watched by a monitor is remembered in its verdict. -/
theorem Watched.verdict (watched : p.Watched contract mon post m) :
    p.Watched contract mon.verdict (fun value v => ∃ m', v = some m' ∧ post value m') (some m) := by
  induction p generalizing m with
  | ret value => exact ⟨m, rfl, watched⟩
  | fault reason => exact watched
  | call c next ih =>
      intro reply allowed
      obtain ⟨expected, goesOn⟩ := watched reply allowed
      refine ⟨trivial, ?_⟩
      have next_ : mon.verdict.next (some m) ⟨c, reply⟩ = some (mon.next m ⟨c, reply⟩) := if_pos expected
      rw [next_]
      exact ih reply goesOn

/-- Nothing changes the verdict on what was not expected. -/
theorem watched_verdict_none (faults : ∀ reason, contract.faults reason) :
    p.Watched contract mon.verdict (fun _ v => v = none) none := by
  induction p with
  | ret value => rfl
  | fault reason => exact faults reason
  | call c next ih => exact fun reply _ => ⟨trivial, ih reply⟩

/-- For a program that may go down, to be watched is a property of its executions. -/
theorem watched_iff_accepts (some : ∀ c, ∃ reply, contract.replies c reply)
    (faults : ∀ reason, contract.faults reason) :
    p.Watched contract mon (fun _ _ => True) m ↔
      ∀ host : Host κ ρ, (∀ made c, contract.replies c (host made c)) →
        mon.Accepts m (p.exchanges host []) :=
  ⟨fun watched _ replies => watched.accepts replies [], watched_of_accepts some faults []⟩

/-! ## Hosts with a state -/

section Played

universe w

variable {σ : Type w} {handler : Handler κ ρ σ} {s : σ} {value : α} {s' : σ}

/-- The calls that are made of a host with a state, with its replies. -/
def heard (handler : Handler κ ρ σ) : Prog κ ρ φ α → σ → List (Exchange κ ρ)
  | ret _, _ => []
  | fault _, _ => []
  | call c next, s => ⟨c, (handler c s).1⟩ :: (next (handler c s).1).heard handler (handler c s).2

/-- When a watched program has returned, what it returned and what the monitor remembers then meet the
postcondition. -/
theorem Watched.returns (watched : p.Watched contract mon post m)
    (replies : ∀ c s, contract.replies c (handler c s).1) (returns : p.Returns handler s value s') :
    post value (mon.after m (p.heard handler s)) := by
  induction p generalizing m s with
  | ret other =>
      cases returns
      exact watched
  | fault reason => cases returns
  | call c next ih => exact ih _ (watched _ (replies c s)).2 returns

/-- A host remembers the calls that were made. -/
def Host.recalling (host : Host κ ρ) : Handler κ ρ (List κ) := fun c made => (host made c, made ++ [c])

theorem play_host {made : List κ} : (p.play (Host.recalling host) made).1 = (p.run host made).2 := by
  induction p generalizing made with
  | ret value => rfl
  | fault reason => rfl
  | call c next ih => exact ih _

theorem heard_host {made : List κ} : p.heard (Host.recalling host) made = p.exchanges host made := by
  induction p generalizing made with
  | ret value => rfl
  | fault reason => rfl
  | call c next ih => exact congrArg (_ :: ·) (ih _)

theorem Watched.run_ok (watched : p.Watched contract mon post m)
    (replies : ∀ made c, contract.replies c (host made c)) {made : List κ}
    (returned : (p.run host made).2 = .ok value) : post value (mon.after m (p.exchanges host made)) := by
  rw [← heard_host]
  have played : (p.play (Host.recalling host) made).1 = .ok value := play_host.trans returned
  exact watched.returns (fun c made => replies made c) (Prod.ext played rfl)

end Played

end Prog

end Lps.Program

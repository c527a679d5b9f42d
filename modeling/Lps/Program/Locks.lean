import Lps.Program.Play
import Lps.Program.Watch
import Mathlib.Order.BooleanAlgebra.Set

/-!
# Programs that lock mutexes

Workers share data behind mutexes.  A call of a worker is a program that locks and unlocks
them; between two of its steps the others go on.  A call is balanced when it unlocks only what
it has locked itself, returns without a mutex, and locks in an order.  When all calls are
balanced, no worker ever unlocks the mutex of another one, and some busy worker can go on.
-/

namespace Lps.Program

open Lps.Transition

universe u v w

/-- A call to a mutex, or to the data. -/
inductive LockCall (M κ : Type u) : Type u
  | lock (m : M)
  | unlock (m : M)
  | data (c : κ)

variable {M κ : Type u} {ρ : κ → Type u} {φ α : Type u}

/-- What a call is told: nothing by a mutex. -/
abbrev LockReply (ρ : κ → Type u) : LockCall M κ → Type u
  | .lock _ => PUnit
  | .unlock _ => PUnit
  | .data c => ρ c

/-- A program over mutexes and data. -/
abbrev LockProg (M : Type u) {κ : Type u} (ρ : κ → Type u) (φ α : Type u) : Type u :=
  Prog (LockCall M κ) (LockReply ρ) φ α

def lock (m : M) : LockProg M ρ φ PUnit := Prog.ask (LockCall.lock m)

def unlock (m : M) : LockProg M ρ φ PUnit := Prog.ask (LockCall.unlock m)

def data (c : κ) : LockProg M ρ φ (ρ c) := Prog.ask (LockCall.data c)

/-- Remembers the mutexes that are locked; expects to unlock one of them, and to lock one
that comes after all of them. -/
def lockMonitor (before : M → M → Prop) :
    Monitor (Set M) (Exchange (LockCall M κ) (LockReply ρ)) where
  next held
    | ⟨.lock m, _⟩ => insert m held
    | ⟨.unlock m, _⟩ => held \ {m}
    | ⟨.data _, _⟩ => held
  expects held
    | ⟨.lock m, _⟩ => ∀ other ∈ held, before other m
    | ⟨.unlock m, _⟩ => m ∈ held
    | ⟨.data _, _⟩ => True

/-- Any reply may come; nobody goes down. -/
def anyReply : Contract (LockCall M κ) (LockReply ρ) φ where
  replies _ _ := True
  calls _ := True
  faults _ := False

/-- Programs that only touch the data. -/
def dataOnly : Contract (LockCall M κ) (LockReply ρ) φ where
  replies _ _ := True
  calls c := ∃ d, c = .data d
  faults _ := False

theorem data_dataOnly {c : κ} :
    (data c : LockProg M ρ φ (ρ c)).Meets dataOnly fun _ => True :=
  ⟨⟨c, rfl⟩, fun _ _ => trivial⟩

section Rules

variable {before : M → M → Prop} {held : Set M} {m : M} {post : PUnit → Set M → Prop}

@[simp]
theorem watched_lock :
    (lock m : LockProg M ρ φ PUnit).Watched anyReply (lockMonitor before) post held ↔
      (∀ other ∈ held, before other m) ∧ post ⟨⟩ (insert m held) :=
  ⟨fun watched => watched ⟨⟩ trivial, fun watched _ _ => watched⟩

@[simp]
theorem watched_unlock :
    (unlock m : LockProg M ρ φ PUnit).Watched anyReply (lockMonitor before) post held ↔
      m ∈ held ∧ post ⟨⟩ (held \ {m}) :=
  ⟨fun watched => watched ⟨⟩ trivial, fun watched _ _ => watched⟩

@[simp]
theorem watched_data {c : κ} {post : ρ c → Set M → Prop} :
    (data c : LockProg M ρ φ (ρ c)).Watched anyReply (lockMonitor before) post held ↔
      ∀ reply, post reply held :=
  ⟨fun watched reply => (watched reply trivial).2, fun post reply _ => ⟨trivial, post reply⟩⟩

end Rules

/-- With these mutexes locked, the program unlocks only what it holds, locks in the order, and
holds nothing in the end. -/
def Prog.Balanced (before : M → M → Prop) (p : LockProg M ρ φ α) (held : Set M) : Prop :=
  p.Watched anyReply (lockMonitor before) (fun _ held => held = ∅) held

namespace Prog

variable {before : M → M → Prop} {p : LockProg M ρ φ α} {held : Set M} {m : M}

theorem balanced_lock {next : PUnit → LockProg M ρ φ α} :
    Balanced before (call (.lock m) next) held ↔
      (∀ other ∈ held, before other m) ∧ Balanced before (next ⟨⟩) (insert m held) :=
  ⟨fun balanced => balanced ⟨⟩ trivial, fun balanced _ _ => balanced⟩

theorem balanced_unlock {next : PUnit → LockProg M ρ φ α} :
    Balanced before (call (.unlock m) next) held ↔
      m ∈ held ∧ Balanced before (next ⟨⟩) (held \ {m}) :=
  ⟨fun balanced => balanced ⟨⟩ trivial, fun balanced _ _ => balanced⟩

theorem balanced_data {c : κ} {next : ρ c → LockProg M ρ φ α} :
    Balanced before (call (.data c) next) held ↔ ∀ reply, Balanced before (next reply) held :=
  ⟨fun balanced reply => (balanced reply trivial).2,
    fun balanced reply _ => ⟨trivial, balanced reply⟩⟩

/-- A looser order keeps a program balanced. -/
theorem Balanced.weaken {looser : M → M → Prop} (balanced : p.Balanced before held)
    (weaker : ∀ m m', before m m' → looser m m') : p.Balanced looser held := by
  induction p generalizing held with
  | ret value => exact balanced
  | fault reason => exact balanced
  | call c next ih =>
      intro reply allowed
      obtain ⟨expected, goesOn⟩ := balanced reply allowed
      refine ⟨?_, ih reply goesOn⟩
      cases c with
      | lock m => exact fun other mem => weaker _ _ (expected other mem)
      | unlock m => exact expected
      | data c => trivial

/-- A program that only touches the data, before a balanced one. -/
theorem balanced_bind {β : Type u} {p : LockProg M ρ φ β} {f : β → LockProg M ρ φ α}
    (touches : p.Meets dataOnly fun _ => True) (rest : ∀ value, (f value).Balanced before held) :
    (p >>= f).Balanced before held := by
  have still : p.Watched anyReply (lockMonitor before) (fun _ held' => True ∧ held' = held) held := by
    refine touches.watched_still (fun _ _ _ => trivial) ?_ fun _ => id
    rintro c ⟨d, rfl⟩ m reply
    exact ⟨trivial, rfl⟩
  refine watched_bind.mpr (still.mono ?_)
  rintro value _ ⟨-, rfl⟩
  exact rest value

/-- What is made of the value at the end does not matter. -/
theorem Balanced.map {β : Type u} {f : α → β} (balanced : p.Balanced before held) :
    (p >>= fun value => pure (f value)).Balanced before held :=
  watched_bind.mpr (balanced.mono fun _ _ => id)

/-- The execution of a balanced program returns, and unlocks only what it has locked. -/
theorem Balanced.run (balanced : p.Balanced before held)
    (host : Host (LockCall M κ) (LockReply ρ)) (made : List (LockCall M κ)) :
    (lockMonitor before).Accepts held (p.exchanges host made) ∧
      (lockMonitor before).after held (p.exchanges host made) = ∅ := by
  induction p generalizing held made with
  | ret value => exact ⟨trivial, balanced⟩
  | fault reason => exact balanced.elim
  | call c next ih =>
      obtain ⟨expected, goesOn⟩ := balanced (host made c) trivial
      obtain ⟨accepted, empty⟩ := ih _ goesOn (made ++ [c])
      exact ⟨⟨expected, accepted⟩, empty⟩

end Prog

/-- A host on which all mutexes are free. -/
def freely {σ : Type v} (handler : Handler κ ρ σ) : Handler (LockCall M κ) (LockReply ρ) σ
  | .lock _, s => (⟨⟩, s)
  | .unlock _, s => (⟨⟩, s)
  | .data c, s => handler c s

section Freely

variable {σ : Type v} {handler : Handler κ ρ σ} {s s' : σ} {m : M} {done : PUnit}

@[simp]
theorem returns_lock :
    (lock m : LockProg M ρ φ PUnit).Returns (freely handler) s done s' ↔ s = s' :=
  Prog.returns_ask.trans ⟨fun same => congrArg Prod.snd same, fun same => same ▸ rfl⟩

@[simp]
theorem returns_unlock :
    (unlock m : LockProg M ρ φ PUnit).Returns (freely handler) s done s' ↔ s = s' :=
  Prog.returns_ask.trans ⟨fun same => congrArg Prod.snd same, fun same => same ▸ rfl⟩

@[simp]
theorem returns_data {c : κ} {reply : ρ c} :
    (data c : LockProg M ρ φ (ρ c)).Returns (freely handler) s reply s' ↔
      handler c s = (reply, s') :=
  Prog.returns_ask

end Freely

/-! ## Workers -/

/-- The data, who holds each mutex, and what is left of the call of each worker. -/
structure Workers (W : Type w) (M : Type u) {κ : Type u} (ρ : κ → Type u) (φ α : Type u)
    (σ : Type v) where
  data : σ
  owner : M → Option W
  left : W → Option (LockProg M ρ φ α)

inductive WorkerEvent (W : Type w) (M : Type u) {κ : Type u} (ρ : κ → Type u) (φ α : Type u)
  /-- An idle worker begins a call. -/
  | start (worker : W) (p : LockProg M ρ φ α)
  /-- A worker makes the next step of its call. -/
  | go (worker : W)

inductive WorkerObs (W : Type w) (α : Type u)
  /-- A mutex that this worker held was unlocked by a worker. -/
  | unlocked (worker : W) (owner : Option W)
  | returned (worker : W) (value : α)

/-- The worker unlocked a mutex that it held. -/
def WorkerObs.Own {W : Type w} : WorkerObs W α → Prop
  | .unlocked worker owner => owner = some worker
  | .returned _ _ => True

namespace Workers

variable {W : Type w} {σ : Type v} {before : M → M → Prop} {s s' : Workers W M ρ φ α σ}
  {worker other : W} {m : M}

/-- The mutexes that a worker holds. -/
def held (s : Workers W M ρ φ α σ) (worker : W) : Set M := {m | s.owner m = some worker}

/-- What is left of every call is balanced, and a worker without a call holds nothing. -/
def Balanced (before : M → M → Prop) (s : Workers W M ρ φ α σ) : Prop :=
  ∀ worker, match s.left worker with
    | none => s.held worker = ∅
    | some p => p.Balanced before (s.held worker)

/-- Every call that begins is balanced. -/
def StartsBalanced (before : M → M → Prop) :
    Workers W M ρ φ α σ → WorkerEvent W M ρ φ α → Prop
  | _, .start _ p => p.Balanced before ∅
  | _, .go _ => True

/-- When nobody is busy, all mutexes are free. -/
theorem Balanced.free (balanced : s.Balanced before) (idle : ∀ worker, s.left worker = none) (m : M) :
    s.owner m = none := by
  cases owned : s.owner m with
  | none => rfl
  | some worker =>
      have here := balanced worker
      rw [idle worker] at here
      exact absurd owned (Set.eq_empty_iff_forall_notMem.mp here m)

section Set

variable [DecidableEq W]

/-- The next call of a worker is another one. -/
def set (s : Workers W M ρ φ α σ) (worker : W) (p : Option (LockProg M ρ φ α)) :
    Workers W M ρ φ α σ :=
  { s with left := Function.update s.left worker p }

theorem left_set_self {p : Option (LockProg M ρ φ α)} : (s.set worker p).left worker = p :=
  Function.update_self ..

theorem left_set_of_ne {p : Option (LockProg M ρ φ α)} (different : other ≠ worker) :
    (s.set worker p).left other = s.left other :=
  Function.update_of_ne different ..

/-- A worker goes on with a balanced call, and the others hold what they held. -/
theorem Balanced.set {p : Option (LockProg M ρ φ α)} (balanced : s.Balanced before)
    (others : ∀ other, other ≠ worker → s'.held other = s.held other ∧ s'.left other = s.left other)
    (here : match p with
      | none => s'.held worker = ∅
      | some p => p.Balanced before (s'.held worker)) : (s'.set worker p).Balanced before := by
  intro other
  by_cases same : other = worker
  · rw [same, left_set_self]
    exact here
  · obtain ⟨sameHeld, sameLeft⟩ := others other same
    rw [left_set_of_ne same, sameLeft]
    change match s.left other with
      | none => s'.held other = ∅
      | some p => p.Balanced before (s'.held other)
    rw [sameHeld]
    exact balanced other

end Set

section Give

variable [DecidableEq M]

/-- A mutex changes hands. -/
def give (s : Workers W M ρ φ α σ) (m : M) (owner : Option W) : Workers W M ρ φ α σ :=
  { s with owner := Function.update s.owner m owner }

theorem held_give_self : (s.give m (some worker)).held worker = insert m (s.held worker) := by
  ext m'
  by_cases same : m' = m
  · simp [held, give, same]
  · simp [held, give, same]

/-- A mutex that is given away is lost. -/
theorem held_give_other {owner : Option W} (different : owner ≠ some other) :
    (s.give m owner).held other = s.held other \ {m} := by
  ext m'
  by_cases same : m' = m
  · simp [held, give, same, different]
  · simp [held, give, same]

/-- Who does not hold a mutex does not lose it. -/
theorem held_give_of_ne {owner : Option W} (different : owner ≠ some other)
    (notHeld : s.owner m ≠ some other) : (s.give m owner).held other = s.held other := by
  rw [held_give_other different]
  exact Set.sdiff_singleton_eq_self notHeld

end Give

variable [DecidableEq M] [DecidableEq W]

/-- One step; a mutex that is held cannot be locked. -/
def step (handler : Handler κ ρ σ) :
    Step (Workers W M ρ φ α σ) (WorkerEvent W M ρ φ α) (WorkerObs W α)
  | s, .start worker p =>
      match s.left worker with
      | none => some (s.set worker p, [])
      | some _ => none
  | s, .go worker =>
      match s.left worker with
      | none => none
      | some (.ret value) => some (s.set worker none, [.returned worker value])
      | some (.fault _) => none
      | some (.call (.lock m) next) =>
          if s.owner m = none then some ((s.give m worker).set worker (next ⟨⟩), []) else none
      | some (.call (.unlock m) next) =>
          some ((s.give m none).set worker (next ⟨⟩), [.unlocked worker (s.owner m)])
      | some (.call (.data c) next) =>
          some ({ s.set worker (next (handler c s.data).1) with data := (handler c s.data).2 }, [])

variable {handler : Handler κ ρ σ} {event : WorkerEvent W M ρ φ α} {observed : List (WorkerObs W α)}

/-- A step keeps all calls balanced, and unlocks only what its worker holds. -/
theorem Balanced.step (balanced : s.Balanced before) (starts : StartsBalanced before s event)
    (stepped : step handler s event = some (s', observed)) :
    s'.Balanced before ∧ ∀ o ∈ observed, o.Own := by
  cases event with
  | start worker p =>
      have idle := balanced worker
      simp only [Workers.step] at stepped
      split at stepped
      · rename_i none
        cases stepped
        rw [none] at idle
        refine ⟨balanced.set (fun _ _ => ⟨rfl, rfl⟩) ?_, fun o mem => absurd mem List.not_mem_nil⟩
        dsimp only
        rw [idle]
        exact starts
      · cases stepped
  | go worker =>
      have busy := balanced worker
      simp only [Workers.step] at stepped
      split at stepped
      · cases stepped
      · rename_i value ends
        cases stepped
        rw [ends] at busy
        refine ⟨balanced.set (fun _ _ => ⟨rfl, rfl⟩) busy, fun o mem => ?_⟩
        rw [List.mem_singleton.mp mem]
        trivial
      · cases stepped
      · rename_i m next goes
        rw [goes] at busy
        split at stepped
        · rename_i free
          cases stepped
          refine ⟨balanced.set (fun other different => ⟨?_, rfl⟩) ?_,
            fun o mem => absurd mem List.not_mem_nil⟩
          · refine held_give_of_ne (fun same => different (Option.some.inj same).symm) ?_
            rw [free]
            exact nofun
          · dsimp only
            rw [held_give_self]
            exact (Prog.balanced_lock.mp busy).2
        · cases stepped
      · rename_i m next goes
        rw [goes] at busy
        cases stepped
        obtain ⟨own, rest⟩ := Prog.balanced_unlock.mp busy
        refine ⟨balanced.set (fun other different => ⟨?_, rfl⟩) ?_, fun o mem => ?_⟩
        · refine held_give_of_ne (Option.some_ne_none _).symm fun theirs => different ?_
          exact Option.some.inj (theirs.symm.trans own)
        · dsimp only
          rw [held_give_other (Option.some_ne_none _).symm]
          exact rest
        · rw [List.mem_singleton.mp mem]
          exact own
      · rename_i c next goes
        rw [goes] at busy
        cases stepped
        refine ⟨?_, fun o mem => absurd mem List.not_mem_nil⟩
        have kept : Balanced before { s with data := (handler c s.data).2 } := balanced
        exact kept.set (fun _ _ => ⟨rfl, rfl⟩) (Prog.balanced_data.mp busy _)

/-- Some step of the worker is possible. -/
def CanGo (handler : Handler κ ρ σ) (s : Workers W M ρ φ α σ) (worker : W) : Prop :=
  (Workers.step handler s (.go worker)).isSome

/-- A worker with a balanced call can go on, or waits for a mutex behind all those it holds. -/
theorem Balanced.canGo_or_waits (handler : Handler κ ρ σ) (balanced : s.Balanced before)
    (busy : s.left worker ≠ none) : CanGo handler s worker ∨
      ∃ m owner, s.owner m = some owner ∧ ∀ m' ∈ s.held worker, before m' m := by
  have here := balanced worker
  cases goes : s.left worker with
  | none => exact absurd goes busy
  | some p =>
      rw [goes] at here
      cases p with
      | ret value => exact .inl (by simp [CanGo, Workers.step, goes])
      | fault reason => exact here.elim
      | call c next =>
          cases c with
          | lock m =>
              cases found : s.owner m with
              | none => exact .inl (by simp [CanGo, Workers.step, goes, found])
              | some owner => exact .inr ⟨m, owner, found, (Prog.balanced_lock.mp here).1⟩
          | unlock m => exact .inl (by simp [CanGo, Workers.step, goes])
          | data c => exact .inl (by simp [CanGo, Workers.step, goes])

/-- Where a mutex is held, some worker can go on. -/
theorem Balanced.holder_goes (handler : Handler κ ρ σ) (balanced : s.Balanced before)
    (order : WellFounded fun m m' => before m' m) (owned : s.owner m = some worker) :
    ∃ worker, CanGo handler s worker := by
  induction m using order.induction generalizing worker with
  | _ m ih =>
      have busy : s.left worker ≠ none := by
        intro idle
        have here := balanced worker
        rw [idle] at here
        exact Set.eq_empty_iff_forall_notMem.mp here m owned
      rcases balanced.canGo_or_waits handler busy with goes | ⟨m', owner, held, behind⟩
      · exact ⟨worker, goes⟩
      · exact ih m' (behind m owned) held

/-- There is no deadlock: when some worker is busy, some worker can go on. -/
theorem Balanced.progress (handler : Handler κ ρ σ) (balanced : s.Balanced before)
    (order : WellFounded fun m m' => before m' m) (busy : s.left worker ≠ none) :
    ∃ worker, CanGo handler s worker := by
  rcases balanced.canGo_or_waits handler busy with goes | ⟨m, owner, held, -⟩
  · exact ⟨worker, goes⟩
  · exact balanced.holder_goes handler order held

/-- The steps of one worker. -/
def StepsOf (worker : W) : Workers W M ρ φ α σ → WorkerEvent W M ρ φ α → Prop :=
  fun _ event => event = .go worker

/-- A worker that nobody keeps waiting finishes its call by its own steps. -/
theorem Balanced.finishes {p : LockProg M ρ φ α} (handler : Handler κ ρ σ)
    (balanced : s.Balanced before) (irreflexive : ∀ m, ¬before m m) (goes : s.left worker = some p)
    (alone : ∀ m owner, s.owner m = some owner → owner = worker) :
    ∃ trace s', Run (Workers.step handler) (StepsOf worker) s trace s' ∧ s'.left worker = none := by
  have allowed : ∀ s : Workers W M ρ φ α σ, StartsBalanced before s (.go worker) := fun _ => trivial
  have mine : ∀ s : Workers W M ρ φ α σ, StepsOf worker s (.go worker) := fun _ => rfl
  induction p generalizing s with
  | ret value =>
      have stepped : Workers.step handler s (.go worker) =
          some (s.set worker none, [.returned worker value]) := by
        simp [Workers.step, goes]
      exact ⟨_, _, .single (mine s) stepped, left_set_self⟩
  | fault reason =>
      have here := balanced worker
      rw [goes] at here
      exact here.elim
  | call c next ih =>
      have canGo : CanGo handler s worker := by
        rcases balanced.canGo_or_waits handler (goes ▸ Option.some_ne_none _) with
          canGo | ⟨m, owner, held, behind⟩
        · exact canGo
        · rw [alone m owner held] at held
          exact absurd (behind m held) (irreflexive m)
      obtain ⟨⟨middle, observed⟩, stepped⟩ := Option.isSome_iff_exists.mp canGo
      have kept := (balanced.step (allowed s) stepped).1
      have goesOn : ∃ reply, middle.left worker = some (next reply) ∧
          ∀ m owner, middle.owner m = some owner → owner = worker := by
        cases c with
        | lock m =>
            simp only [Workers.step, goes] at stepped
            split at stepped
            · cases stepped
              refine ⟨⟨⟩, left_set_self, fun m' owner owned => ?_⟩
              by_cases same : m' = m
              · simp only [Workers.set, give, same, Function.update_self, Option.some.injEq] at owned
                exact owned.symm
              · simp only [Workers.set, give, Function.update_of_ne same] at owned
                exact alone m' owner owned
            · cases stepped
        | unlock m =>
            simp only [Workers.step, goes] at stepped
            cases stepped
            refine ⟨⟨⟩, left_set_self, fun m' owner owned => ?_⟩
            by_cases same : m' = m
            · simp [Workers.set, give, same] at owned
            · simp only [Workers.set, give, Function.update_of_ne same] at owned
              exact alone m' owner owned
        | data c =>
            simp only [Workers.step, goes] at stepped
            cases stepped
            exact ⟨_, left_set_self, alone⟩
      obtain ⟨reply, still, aloneStill⟩ := goesOn
      obtain ⟨trace, s', run, idle⟩ := ih reply kept still aloneStill
      exact ⟨_, s', (Run.single (mine s) stepped).trans run, idle⟩

/-- Calls stay balanced in every run whose calls begin balanced, and every mutex is unlocked
by its owner. -/
theorem Balanced.run {trace : List (WorkerObs W α)} (balanced : s.Balanced before)
    (run : Run (Workers.step handler) (StartsBalanced before) s trace s') :
    s'.Balanced before ∧ ∀ o ∈ trace, o.Own := by
  refine ⟨run.stateInvariant (Balanced before) balanced ?_,
    run.forall_observed (Balanced before) WorkerObs.Own balanced ?_⟩
  · exact fun kept starts stepped => (kept.step starts stepped).1
  · exact fun kept starts stepped => kept.step starts stepped

end Workers

end Lps.Program

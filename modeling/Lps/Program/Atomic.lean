import Lps.Program.Locks

/-!
# Calls that take effect at one point

Workers call the operations of an object side by side, and between any two steps of one call the others
go on.  An operation is atomic when each call takes effect as a whole at one point between its beginning
and its return.  It is when it changes the data behind one mutex only, and whatever it reads without the
mutex is a part of the data that changes once in a call.
-/

namespace Lps.Program

open Lps.Transition

universe u v w x

variable {M κ : Type u} {ρ : κ → Type u} {φ α β : Type u} {σ : Type v} {ν : Type v}

/-! ## The stages of a call -/

namespace Prog

/-- The call has taken effect, and returns `value` without the mutex. -/
def Settled (m : M) (value : α) : LockProg M ρ φ α → Prop
  | ret result => result = value
  | fault _ => False
  | call (.lock other) next => other ≠ m ∧ (next ⟨⟩).Settled m value
  | call (.unlock other) next => other ≠ m ∧ (next ⟨⟩).Settled m value
  | call (.data _) _ => False

/-- The call has taken effect, and still holds the mutex. -/
def Leaving (m : M) (value : α) : LockProg M ρ φ α → Prop
  | ret _ => False
  | fault _ => False
  | call (.lock other) next => other ≠ m ∧ (next ⟨⟩).Leaving m value
  | call (.unlock other) next =>
      other = m ∧ (next ⟨⟩).Settled m value ∨ other ≠ m ∧ (next ⟨⟩).Leaving m value
  | call (.data _) _ => False

/-- The call holds the mutex, and brings about `effect` in the end.  Until then what can be `seen` without
the mutex stays the same. -/
def Working (handler : Handler κ ρ σ) (view : σ → ν) (m : M) (effect : α × σ) (seen : ν) :
    LockProg M ρ φ α → σ → Prop
  | ret _, _ => False
  | fault _, _ => False
  | call (.lock other) next, s => other ≠ m ∧ (next ⟨⟩).Working handler view m effect seen s
  | call (.unlock other) next, s => other ≠ m ∧ (next ⟨⟩).Working handler view m effect seen s
  | call (.data c) next, s =>
      view (handler c s).2 = seen ∧
          (next (handler c s).1).Working handler view m effect seen (handler c s).2 ∨
        (handler c s).2 = effect.2 ∧ (next (handler c s).1).Leaving m effect.1

/-- The call does not hold the mutex yet, and has not taken effect: it takes the mutex, or what it sees
without it decides what it returns. -/
def Approaching (handler : Handler κ ρ σ) (view : σ → ν) (ok : σ → Prop) (m : M) (spec : σ → α × σ) :
    LockProg M ρ φ α → Prop
  | ret value => ∀ s, ok s → spec s = (value, s)
  | fault _ => False
  | call (.lock other) next =>
      other = m ∧ (∀ s, ok s → (next ⟨⟩).Working handler view m (spec s) (view s) s) ∨
        other ≠ m ∧ (next ⟨⟩).Approaching handler view ok m spec
  | call (.unlock other) next => other ≠ m ∧ (next ⟨⟩).Approaching handler view ok m spec
  | call (.data c) next => ∃ peek : ν → ρ c, (∀ s, handler c s = (peek (view s), s)) ∧
      ∀ seen, (next (peek seen)).Approaching handler view ok m spec ∨
        ∃ value, (∀ s, ok s → view s = seen → spec s = (value, s)) ∧
          (next (peek seen)).Settled m value

/-- Only calls to the data that leave what can be seen as it is. -/
def quiet (handler : Handler κ ρ σ) (view : σ → ν) : Contract (LockCall M κ) (LockReply ρ) φ where
  replies _ _ := True
  calls c := ∃ d, c = .data d ∧ ∀ s, view (handler d s).2 = view s
  faults _ := False

variable {handler : Handler κ ρ σ} {view : σ → ν} {ok : σ → Prop} {m : M} {spec : σ → α × σ}
  {effect : α × σ} {seen : ν} {value : α} {s s' : σ} {p : LockProg M ρ φ α}

/-- What the call makes of its result does not matter. -/
theorem Settled.map (settled : p.Settled m value) (f : α → β) :
    (p >>= fun result => pure (f result)).Settled m (f value) := by
  induction p with
  | ret result => exact congrArg f settled
  | fault reason => exact settled.elim
  | call c next ih =>
      cases c with
      | lock other => exact ⟨settled.1, ih _ settled.2⟩
      | unlock other => exact ⟨settled.1, ih _ settled.2⟩
      | data c => exact settled.elim

theorem Leaving.map (leaving : p.Leaving m value) (f : α → β) :
    (p >>= fun result => pure (f result)).Leaving m (f value) := by
  induction p with
  | ret result => exact leaving.elim
  | fault reason => exact leaving.elim
  | call c next ih =>
      cases c with
      | lock other => exact ⟨leaving.1, ih _ leaving.2⟩
      | unlock other =>
          rcases leaving with ⟨same, settled⟩ | ⟨different, leaving⟩
          · exact .inl ⟨same, settled.map f⟩
          · exact .inr ⟨different, ih _ leaving⟩
      | data c => exact leaving.elim

theorem Working.map (working : p.Working handler view m effect seen s) (f : α → β) :
    (p >>= fun result => pure (f result)).Working handler view m (f effect.1, effect.2) seen s := by
  induction p generalizing s with
  | ret result => exact working.elim
  | fault reason => exact working.elim
  | call c next ih =>
      cases c with
      | lock other => exact ⟨working.1, ih _ working.2⟩
      | unlock other => exact ⟨working.1, ih _ working.2⟩
      | data c =>
          rcases working with ⟨same, working⟩ | ⟨done, leaving⟩
          · exact .inl ⟨same, ih _ working⟩
          · exact .inr ⟨done, leaving.map f⟩

theorem Approaching.map (approaching : p.Approaching handler view ok m spec) (f : α → β) :
    (p >>= fun result => pure (f result)).Approaching handler view ok m
      fun s => (f (spec s).1, (spec s).2) := by
  induction p with
  | ret result =>
      intro s isOk
      dsimp only
      rw [approaching s isOk]
  | fault reason => exact approaching.elim
  | call c next ih =>
      cases c with
      | lock other =>
          rcases approaching with ⟨same, working⟩ | ⟨different, approaching⟩
          · exact .inl ⟨same, fun s isOk => (working s isOk).map f⟩
          · exact .inr ⟨different, ih _ approaching⟩
      | unlock other => exact ⟨approaching.1, ih _ approaching.2⟩
      | data c =>
          obtain ⟨peek, peeks, rest⟩ := approaching
          refine ⟨peek, peeks, fun seen => ?_⟩
          rcases rest seen with approaching | ⟨value, decided, settled⟩
          · exact .inl (ih _ approaching)
          · refine .inr ⟨f value, fun s isOk here => ?_, settled.map f⟩
            dsimp only
            rw [decided s isOk here]

/-- Quiet work on the data, before the rest of the work. -/
theorem Working.bind {q : LockProg M ρ φ β} {f : β → LockProg M ρ φ α} {result : β}
    (isQuiet : q.Meets (quiet handler view) fun _ => True)
    (returns : q.Returns (freely handler) s result s') (here : view s = seen)
    (rest : (f result).Working handler view m effect seen s') :
    (q >>= f).Working handler view m effect seen s := by
  induction q generalizing s with
  | ret value =>
      cases returns
      exact rest
  | fault reason => cases returns
  | call c next ih =>
      obtain ⟨⟨d, rfl, still⟩, goesOn⟩ := isQuiet
      have same : view (handler d s).2 = seen := (still s).trans here
      exact .inl ⟨same, ih _ (goesOn _ trivial) returns same⟩

end Prog

/-! ## Objects -/

/-- What a client sees of a call. -/
inductive CallObs (W : Type w) (C : Type x) (α : Type u)
  | invoked (worker : W) (c : C)
  | returned (worker : W) (value : α)
  deriving DecidableEq

inductive CallEvent (W : Type w) (C : Type x)
  /-- An idle worker begins a call. -/
  | start (worker : W) (c : C)
  /-- A worker makes the next step of its call. -/
  | go (worker : W)

variable {W : Type w} {C : Type x}

/-- The mutexes are not seen. -/
def WorkerObs.toCall : WorkerObs W α → Option (CallObs W C α)
  | .unlocked _ _ => none
  | .returned worker value => some (.returned worker value)

/-- Where a call is in an object whose calls take effect at once. -/
inductive CallStage (C : Type x) (α : Type u)
  | called (c : C)
  | answered (value : α)

/-- An object whose calls take effect at once. -/
structure Atomic (W : Type w) (C : Type x) (α : Type u) (σ : Type v) where
  data : σ
  left : W → Option (CallStage C α)

inductive AtomicEvent (W : Type w) (C : Type x)
  | start (worker : W) (c : C)
  /-- The call of a worker takes effect. -/
  | act (worker : W)
  | finish (worker : W)

variable [DecidableEq W]

/-- One step of an object, call by call. -/
def Workers.callStep [DecidableEq M] (prog : C → LockProg M ρ φ α) (handler : Handler κ ρ σ) :
    Step (Workers W M ρ φ α σ) (CallEvent W C) (CallObs W C α)
  | s, .start worker c =>
      (Workers.step handler s (.start worker (prog c))).map fun result =>
        (result.1, [.invoked worker c])
  | s, .go worker =>
      (Workers.step handler s (.go worker)).map fun result =>
        (result.1, result.2.filterMap WorkerObs.toCall)

namespace Atomic

/-- The call of a worker goes on. -/
def set (a : Atomic W C α σ) (worker : W) (stage : Option (CallStage C α)) : Atomic W C α σ :=
  { a with left := Function.update a.left worker stage }

/-- One step of the object with calls that take effect at once. -/
def step (spec : C → σ → α × σ) : Step (Atomic W C α σ) (AtomicEvent W C) (CallObs W C α)
  | a, .start worker c =>
      match a.left worker with
      | none => some (a.set worker (some (.called c)), [.invoked worker c])
      | some _ => none
  | a, .act worker =>
      match a.left worker with
      | some (.called c) =>
          some ({ a.set worker (some (.answered (spec c a.data).1)) with data := (spec c a.data).2 }, [])
      | _ => none
  | a, .finish worker =>
      match a.left worker with
      | some (.answered value) => some (a.set worker none, [.returned worker value])
      | _ => none

variable {spec : C → σ → α × σ} {a : Atomic W C α σ} {worker : W} {c : C} {value : α}

theorem left_set_self {stage : Option (CallStage C α)} : (a.set worker stage).left worker = stage :=
  Function.update_self ..

theorem step_start (idle : a.left worker = none) :
    step spec a (.start worker c) = some (a.set worker (some (.called c)), [.invoked worker c]) := by
  simp only [step, idle]

theorem step_act (called : a.left worker = some (.called c)) : step spec a (.act worker) =
    some ({ a.set worker (some (.answered (spec c a.data).1)) with data := (spec c a.data).2 }, []) := by
  simp only [step, called]

theorem step_finish (answered : a.left worker = some (.answered value)) :
    step spec a (.finish worker) = some (a.set worker none, [.returned worker value]) := by
  simp only [step, answered]

end Atomic

/-! ## Simulation -/

section Simulation

variable (handler : Handler κ ρ σ) (view : σ → ν) (ok : σ → Prop) (m : M) (spec : C → σ → α × σ)

/-- What is left of a call that runs on the data `s`, and where it is in the object with the data `t`. -/
inductive Agree (holds : Prop) (s t : σ) :
    Option (LockProg M ρ φ α) → Option (CallStage C α) → Prop
  | idle : ¬holds → Agree holds s t none none
  | approaching {p : LockProg M ρ φ α} {c : C} : ¬holds → p.Approaching handler view ok m (spec c) →
      Agree holds s t (some p) (some (.called c))
  | working {p : LockProg M ρ φ α} {c : C} : holds →
      p.Working handler view m (spec c t) (view t) s → Agree holds s t (some p) (some (.called c))
  | leaving {p : LockProg M ρ φ α} {value : α} : holds → p.Leaving m value →
      Agree holds s t (some p) (some (.answered value))
  | settled {p : LockProg M ρ φ α} {value : α} : ¬holds → p.Settled m value →
      Agree holds s t (some p) (some (.answered value))

/-- The workers with their mutexes simulate the object with calls that take effect at once: the data are
the same, but for what the worker with the mutex has begun. -/
structure Simulates (s : Workers W M ρ φ α σ) (a : Atomic W C α σ) : Prop where
  isOk : ok a.data
  sameView : view s.data = view a.data
  data : s.data = a.data ∨ ∃ worker c, s.owner m = some worker ∧ a.left worker = some (.called c)
  agree : ∀ worker, Agree handler view ok m spec (s.owner m = some worker) s.data a.data
    (s.left worker) (a.left worker)

end Simulation

section Steps

variable {handler : Handler κ ρ σ} {view : σ → ν} {ok : σ → Prop} {m : M} {spec : C → σ → α × σ}
  {prog : C → LockProg M ρ φ α} {good : C → Prop} {s s' : Workers W M ρ φ α σ} {a a' : Atomic W C α σ}
  {worker : W} {c : C}

/-- A call depends on the data only while it holds the mutex. -/
theorem Agree.congr {holds holds' : Prop} {t t' u u' : σ} {left : Option (LockProg M ρ φ α)}
    {stage : Option (CallStage C α)} (agree : Agree handler view ok m spec holds t u left stage)
    (same : holds' ↔ holds) (still : holds → t' = t ∧ u' = u) :
    Agree handler view ok m spec holds' t' u' left stage := by
  cases agree with
  | idle away => exact .idle (same.not.mpr away)
  | approaching away p => exact .approaching (same.not.mpr away) p
  | working here p =>
      obtain ⟨rfl, rfl⟩ := still here
      exact .working (same.mpr here) p
  | leaving here p => exact .leaving (same.mpr here) p
  | settled away p => exact .settled (same.not.mpr away) p

/-- When only the worker with the mutex changes the data, the others go on as before. -/
theorem Simulates.move (simulates : Simulates handler view ok m spec s a) (isOk : ok a'.data)
    (sameView : view s'.data = view a'.data)
    (data : s'.data = a'.data ∨ ∃ worker c, s'.owner m = some worker ∧ a'.left worker = some (.called c))
    (left : ∀ other, other ≠ worker → s'.left other = s.left other ∧ a'.left other = a.left other)
    (owner : ∀ other, other ≠ worker → (s'.owner m = some other ↔ s.owner m = some other))
    (still : ∀ other, other ≠ worker → s.owner m = some other → s'.data = s.data ∧ a'.data = a.data)
    (here : Agree handler view ok m spec (s'.owner m = some worker) s'.data a'.data
      (s'.left worker) (a'.left worker)) : Simulates handler view ok m spec s' a' where
  isOk := isOk
  sameView := sameView
  data := data
  agree := by
    intro other
    by_cases same : other = worker
    · subst same
      exact here
    · rw [(left other same).1, (left other same).2]
      exact (simulates.agree other).congr (owner other same) (still other same)

/-- A worker that does not change the data goes on. -/
theorem Simulates.moveOn (simulates : Simulates handler view ok m spec s a) (worker : W) (data : s'.data = s.data)
    (owner : ∀ other, other ≠ worker → (s'.owner m = some other ↔ s.owner m = some other))
    (left : ∀ other, other ≠ worker → s'.left other = s.left other)
    (same : s.data = a.data ∨ (s'.owner m = some worker ↔ s.owner m = some worker))
    (here : Agree handler view ok m spec (s'.owner m = some worker) s.data a.data
      (s'.left worker) (a.left worker)) : Simulates handler view ok m spec s' a := by
  apply simulates.move simulates.isOk (data ▸ simulates.sameView) ?_ (fun other ne => ⟨left other ne, rfl⟩)
    owner (fun _ _ _ => ⟨data, rfl⟩) (data.symm ▸ here)
  rw [data]
  rcases simulates.data with agree | ⟨holder, c, owned, called⟩
  · exact .inl agree
  · rcases same with agree | same
    · exact .inl agree
    · refine .inr ⟨holder, c, ?_, called⟩
      by_cases isWorker : holder = worker
      · subst isWorker
        exact same.mpr owned
      · exact (owner holder isWorker).mpr owned

omit [DecidableEq W] in
/-- When no call that holds the mutex still has to take effect, the data are those of the object. -/
theorem Simulates.data_eq (simulates : Simulates handler view ok m spec s a)
    (away : ∀ holder c, s.owner m = some holder → a.left holder ≠ some (.called c)) : s.data = a.data := by
  rcases simulates.data with same | ⟨holder, c, owned, called⟩
  · exact same
  · exact absurd called (away holder c owned)

section Others

variable {holds : Prop} {t u : σ} {stage : Option (CallStage C α)} {other : M}
  {next : PUnit → LockProg M ρ φ α}

/-- Other mutexes do not matter. -/
theorem Agree.lock_of_ne (agree : Agree handler view ok m spec holds t u (some (.call (.lock other) next)) stage)
    (ne : other ≠ m) : Agree handler view ok m spec holds t u (some (next ⟨⟩)) stage := by
  cases agree with
  | approaching away approaching =>
      exact .approaching away (approaching.resolve_left fun same => ne same.1).2
  | working here working => exact .working here working.2
  | leaving here leaving => exact .leaving here leaving.2
  | settled away settled => exact .settled away settled.2

theorem Agree.unlock_of_ne
    (agree : Agree handler view ok m spec holds t u (some (.call (.unlock other) next)) stage)
    (ne : other ≠ m) : Agree handler view ok m spec holds t u (some (next ⟨⟩)) stage := by
  cases agree with
  | approaching away approaching => exact .approaching away approaching.2
  | working here working => exact .working here working.2
  | leaving here leaving =>
      exact .leaving here (leaving.resolve_left fun same => ne same.1).2
  | settled away settled => exact .settled away settled.2

end Others

section Mutex

variable [DecidableEq M] {other : M} {next : PUnit → LockProg M ρ φ α}

/-- Who holds another mutex does not matter. -/
theorem Simulates.passOther (simulates : Simulates handler view ok m spec s a) (ne : other ≠ m)
    {holder : Option W} (here : Agree handler view ok m spec (s.owner m = some worker) s.data a.data
      (some (next ⟨⟩)) (a.left worker)) :
    Simulates handler view ok m spec ((s.give other holder).set worker (some (next ⟨⟩))) a := by
  have owner : ((s.give other holder).set worker (some (next ⟨⟩))).owner m = s.owner m :=
    Function.update_of_ne (Ne.symm ne) ..
  apply simulates.moveOn worker
  · rfl
  · intro w _
    rw [owner]
  · exact fun _ different => Workers.left_set_of_ne different
  · exact .inr (by rw [owner])
  · rw [owner, Workers.left_set_self]
    exact here

/-- A free mutex is locked. -/
theorem Simulates.lock (simulates : Simulates handler view ok m spec s a)
    (goes : s.left worker = some (.call (.lock other) next)) (free : s.owner other = none) :
    Simulates handler view ok m spec ((s.give other (some worker)).set worker (some (next ⟨⟩))) a := by
  have agree := simulates.agree worker
  rw [goes] at agree
  rcases eq_or_ne other m with rfl | ne
  · have same : s.data = a.data := by
      apply simulates.data_eq
      intro holder c owned
      rw [free] at owned
      cases owned
    have owner : ((s.give other (some worker)).set worker (some (next ⟨⟩))).owner other = some worker :=
      Function.update_self ..
    apply simulates.moveOn worker
    · rfl
    · intro w different
      rw [owner, free]
      constructor
      · intro isWorker
        exact absurd (Option.some.inj isWorker).symm different
      · rintro ⟨⟩
    · exact fun _ different => Workers.left_set_of_ne different
    · exact .inl same
    · rw [owner, Workers.left_set_self]
      generalize a.left worker = stage at agree
      cases agree with
      | approaching away approaching =>
          rcases approaching with ⟨-, work⟩ | ⟨ne, -⟩
          · apply Agree.working rfl
            rw [same]
            exact work a.data simulates.isOk
          · exact absurd rfl ne
      | working here working => exact absurd rfl working.1
      | leaving here leaving => exact absurd here (by rw [free]; rintro ⟨⟩)
      | settled away settled => exact absurd rfl settled.1
  · exact simulates.passOther ne (agree.lock_of_ne ne)

/-- A mutex is unlocked. -/
theorem Simulates.unlock (simulates : Simulates handler view ok m spec s a)
    (goes : s.left worker = some (.call (.unlock other) next)) :
    Simulates handler view ok m spec ((s.give other none).set worker (some (next ⟨⟩))) a := by
  have agree := simulates.agree worker
  rw [goes] at agree
  rcases eq_or_ne other m with rfl | ne
  · have owner : ((s.give other none).set worker (some (next ⟨⟩))).owner other = none :=
      Function.update_self ..
    generalize stage : a.left worker = left at agree
    cases agree with
    | approaching away approaching => exact absurd rfl approaching.1
    | working here working => exact absurd rfl working.1
    | settled away settled => exact absurd rfl settled.1
    | leaving here leaving =>
        rcases leaving with ⟨-, settled⟩ | ⟨ne, -⟩
        · have same : s.data = a.data := by
            apply simulates.data_eq
            intro holder c owned called
            rw [here, Option.some.injEq] at owned
            rw [← owned, stage] at called
            cases called
          apply simulates.moveOn worker
          · rfl
          · intro w different
            rw [owner, here]
            constructor
            · rintro ⟨⟩
            · intro isWorker
              exact absurd (Option.some.inj isWorker).symm different
          · exact fun _ different => Workers.left_set_of_ne different
          · exact .inl same
          · rw [owner, Workers.left_set_self, stage]
            exact .settled (by rintro ⟨⟩) settled
        · exact absurd rfl ne
  · exact simulates.passOther ne (agree.unlock_of_ne ne)

end Mutex

/-- A worker without the mutex goes on, and nothing changes for the others. -/
theorem Simulates.moveAway (simulates : Simulates handler view ok m spec s a)
    (away : ¬s.owner m = some worker) (data : s'.data = s.data) (sameData : a'.data = a.data)
    (owner : s'.owner m = s.owner m)
    (left : ∀ other, other ≠ worker → s'.left other = s.left other ∧ a'.left other = a.left other)
    (here : Agree handler view ok m spec (s.owner m = some worker) s.data a.data
      (s'.left worker) (a'.left worker)) : Simulates handler view ok m spec s' a' := by
  apply simulates.move
  · exact sameData ▸ simulates.isOk
  · rw [data, sameData]
    exact simulates.sameView
  · rw [data, sameData]
    rcases simulates.data with same | ⟨holder, c, owned, called⟩
    · exact .inl same
    · have ne : holder ≠ worker := by
        rintro rfl
        exact away owned
      exact .inr ⟨holder, c, by rw [owner, owned], by rw [(left holder ne).2, called]⟩
  · exact left
  · intro other _
    rw [owner]
  · exact fun _ _ _ => ⟨data, sameData⟩
  · rw [data, sameData, owner]
    exact here

/-- The data are read or changed. -/
theorem Simulates.touch (simulates : Simulates handler view ok m spec s a)
    (keeps : ∀ c t, ok t → ok (spec c t).2) {d : κ} {next : ρ d → LockProg M ρ φ α}
    (goes : s.left worker = some (.call (.data d) next)) :
    ∃ a', Run (Atomic.step spec) (Always _ _) a [] a' ∧ Simulates handler view ok m spec
      { s.set worker (some (next (handler d s.data).1)) with data := (handler d s.data).2 } a' := by
  have agree := simulates.agree worker
  rw [goes] at agree
  have others : ∀ other, other ≠ worker →
      (s.set worker (some (next (handler d s.data).1))).left other = s.left other :=
    fun _ different => Workers.left_set_of_ne different
  generalize stage : a.left worker = left at agree
  cases agree with
  | @approaching _ c away approaching =>
      obtain ⟨peek, peeks, rest⟩ := approaching
      have read := peeks s.data
      rcases rest (view s.data) with approaching | ⟨value, decided, settled⟩
      · refine ⟨a, .refl, ?_⟩
        apply simulates.moveAway away
        · rw [read]
        · rfl
        · rfl
        · exact fun other different => ⟨others other different, rfl⟩
        · rw [stage]
          dsimp only
          rw [Workers.left_set_self, read]
          exact .approaching away approaching
      · -- What it has read decides: the call takes effect here.
        have effect := decided a.data simulates.isOk simulates.sameView.symm
        refine ⟨_, .single trivial (Atomic.step_act stage), ?_⟩
        apply simulates.moveAway away
        · rw [read]
        · dsimp only
          rw [effect]
        · rfl
        · exact fun other different => ⟨others other different, Function.update_of_ne different ..⟩
        · dsimp only
          rw [Workers.left_set_self, Atomic.left_set_self, read, effect]
          exact .settled away settled
  | @working _ c here working =>
      have alone : ∀ other, other ≠ worker → s.owner m ≠ some other := by
        intro other different owned
        rw [here, Option.some.injEq] at owned
        exact different owned.symm
      rcases working with ⟨same, working⟩ | ⟨done, leaving⟩
      · refine ⟨a, .refl, ?_⟩
        apply simulates.move simulates.isOk
        · exact same
        · exact .inr ⟨worker, c, here, stage⟩
        · exact fun other different => ⟨others other different, rfl⟩
        · exact fun _ _ => Iff.rfl
        · exact fun other different owned => absurd owned (alone other different)
        · rw [stage]
          dsimp only
          rw [Workers.left_set_self]
          exact .working here working
      · -- The data are those of the object again: the call takes effect here.
        refine ⟨_, .single trivial (Atomic.step_act stage), ?_⟩
        apply simulates.move (keeps c a.data simulates.isOk)
        · exact congrArg view done
        · exact .inl done
        · exact fun other different => ⟨others other different, Function.update_of_ne different ..⟩
        · exact fun _ _ => Iff.rfl
        · exact fun other different owned => absurd owned (alone other different)
        · dsimp only
          rw [Workers.left_set_self, Atomic.left_set_self]
          exact .leaving here leaving
  | leaving here leaving => exact leaving.elim
  | settled away settled => exact settled.elim

/-- A call returns. -/
theorem Simulates.ret (simulates : Simulates handler view ok m spec s a) {value : α}
    (goes : s.left worker = some (.ret value)) :
    ∃ a', Run (Atomic.step spec) (Always _ _) a [.returned worker value] a' ∧
      Simulates handler view ok m spec (s.set worker none) a' := by
  have agree := simulates.agree worker
  rw [goes] at agree
  generalize stage : a.left worker = left at agree
  cases agree with
  | @approaching _ c away approaching =>
      have effect := approaching a.data simulates.isOk
      have acted : Atomic.step spec a (.act worker) =
          some ({ a.set worker (some (.answered value)) with data := a.data }, []) := by
        rw [Atomic.step_act stage, effect]
      have finished := @Atomic.step_finish _ _ _ _ _ spec
        { a.set worker (some (.answered value)) with data := a.data } worker value Atomic.left_set_self
      refine ⟨_, (Run.single trivial acted).tail trivial finished, ?_⟩
      apply simulates.moveAway away
      · rfl
      · rfl
      · rfl
      · intro other different
        refine ⟨Workers.left_set_of_ne different, ?_⟩
        exact (Function.update_of_ne different ..).trans (Function.update_of_ne different ..)
      · rw [Workers.left_set_self, Atomic.left_set_self]
        exact .idle away
  | working here working => exact working.elim
  | leaving here leaving => exact leaving.elim
  | settled away settled =>
      cases settled
      refine ⟨_, .single trivial (Atomic.step_finish stage), ?_⟩
      apply simulates.moveAway away
      · rfl
      · rfl
      · rfl
      · exact fun _ different => ⟨Workers.left_set_of_ne different, Function.update_of_ne different ..⟩
      · rw [Workers.left_set_self, Atomic.left_set_self]
        exact .idle away

variable [DecidableEq M]

/-- Only these calls begin. -/
def Begins (good : C → Prop) : Workers W M ρ φ α σ → CallEvent W C → Prop
  | _, .start _ c => good c
  | _, .go _ => True

/-- A step of the workers is at most one step of the object, or two for a call that only returns. -/
theorem Simulates.step (simulates : Simulates handler view ok m spec s a)
    (keeps : ∀ c t, ok t → ok (spec c t).2)
    (calls : ∀ c, good c → (prog c).Approaching handler view ok m (spec c)) {event : CallEvent W C}
    {observed : List (CallObs W C α)} (begins : Begins good s event)
    (stepped : Workers.callStep prog handler s event = some (s', observed)) :
    ∃ a', Run (Atomic.step spec) (Always _ _) a observed a' ∧ Simulates handler view ok m spec s' a' := by
  cases event with
  | start worker c =>
      simp only [Workers.callStep, Option.map_eq_some_iff, Prod.mk.injEq] at stepped
      obtain ⟨⟨_, _⟩, began, rfl, rfl⟩ := stepped
      simp only [Workers.step] at began
      split at began
      · rename_i free
        cases began
        have agree := simulates.agree worker
        rw [free] at agree
        generalize stage : a.left worker = left at agree
        cases agree with
        | idle away =>
            refine ⟨_, .single trivial (Atomic.step_start stage), ?_⟩
            apply simulates.moveAway away
            · rfl
            · rfl
            · rfl
            · exact fun _ different =>
                ⟨Workers.left_set_of_ne different, Function.update_of_ne different ..⟩
            · dsimp only
              rw [Workers.left_set_self, Atomic.left_set_self]
              exact .approaching away (calls c begins)
      · cases began
  | go worker =>
      simp only [Workers.callStep, Option.map_eq_some_iff, Prod.mk.injEq] at stepped
      obtain ⟨⟨_, _⟩, went, rfl, rfl⟩ := stepped
      simp only [Workers.step] at went
      split at went
      · cases went
      · rename_i value goes
        cases went
        exact simulates.ret goes
      · cases went
      · rename_i other next goes
        split at went
        · rename_i free
          cases went
          exact ⟨a, .refl, simulates.lock goes free⟩
        · cases went
      · rename_i other next goes
        cases went
        exact ⟨a, .refl, simulates.unlock goes⟩
      · rename_i d next goes
        cases went
        exact simulates.touch keeps goes

/-- What clients see of the workers, they see of the object with calls that take effect at once; and when
no call is in progress, the data are the same. -/
theorem atomic_of_approaching (keeps : ∀ c t, ok t → ok (spec c t).2)
    (calls : ∀ c, good c → (prog c).Approaching handler view ok m (spec c)) {data : σ} (isOk : ok data)
    {trace : List (CallObs W C α)}
    (run : Run (Workers.callStep prog handler) (Begins good) ⟨data, fun _ => none, fun _ => none⟩ trace s) :
    ∃ a, Run (Atomic.step spec) (Always _ _) ⟨data, fun _ => none⟩ trace a ∧
      ((∀ worker, s.left worker = none) → a.data = s.data) := by
  have simulated : ∃ a, Run (Atomic.step spec) (Always _ _) ⟨data, fun _ => none⟩ trace a ∧
      Simulates handler view ok m spec s a := by
    apply run.invariant fun trace s =>
      ∃ a, Run (Atomic.step spec) (Always _ _) ⟨data, fun _ => none⟩ trace a ∧
        Simulates handler view ok m spec s a
    · exact ⟨_, .refl, isOk, rfl, .inl rfl, fun _ => .idle (by rintro ⟨⟩)⟩
    · rintro trace observed s s' event ⟨a, before, simulates⟩ begins stepped
      obtain ⟨a', after, simulates'⟩ := simulates.step keeps calls begins stepped
      exact ⟨a', before.trans after, simulates'⟩
  obtain ⟨a, seen, simulates⟩ := simulated
  refine ⟨a, seen, fun idle => ?_⟩
  rw [simulates.data_eq]
  intro holder c owned called
  have agree := simulates.agree holder
  rw [idle holder, called] at agree
  cases agree

end Steps

end Lps.Program

import Lps.Linux.FloatRegs
import Lps.Transition.Paired

/-!
# Runs that differ in floating-point values only

Two runs of the machine go side by side.  They take the same steps, except that user
code of other contexts may leave other values in the floating-point registers.  No
step depends on these registers, so the runs stay apart in them only, and a context
sees the difference only where it finds registers that somebody else has changed.
-/

namespace Lps.Linux

open Lps.Asm Lps.Core
open Lps.Transition (Run Always paired lefts rights paired_cases lefts_append rights_append)

namespace SwitchObs

/-- The observation with other floating-point registers. -/
def withFregs (fregs : Fin 32 → Word) : SwitchObs → SwitchObs
  | .trapped c cause user _ tp => .trapped c cause user fregs tp
  | .resumed c user _ => .resumed c user fregs
  | .entered c tp => .entered c tp
  | .handled c result => .handled c result
  | .left c sp tp => .left c sp tp

@[simp]
theorem ctx_withFregs (fregs : Fin 32 → Word) (o : SwitchObs) : (o.withFregs fregs).ctx = o.ctx := by
  cases o <;> rfl

end SwitchObs

/-- What is observed of one context. -/
def seenBy (c : Tid) (trace : List SwitchObs) : List SwitchObs := trace.filter fun o => o.ctx = c

theorem seenBy_append {c : Tid} {trace rest : List SwitchObs} :
    seenBy c (trace ++ rest) = seenBy c trace ++ seenBy c rest :=
  List.filter_append ..

theorem seenBy_of_other {c : Tid} {trace : List SwitchObs} (other : ∀ o ∈ trace, o.ctx ≠ c) :
    seenBy c trace = [] := by
  refine List.filter_eq_nil_iff.mpr fun o mem => ?_
  simpa using other o mem

/-- What `fpu` remembers of a context depends only on what is observed of this context. -/
theorem fpu_after_seenBy {c : Tid} {trace : List SwitchObs}
    {saved saved' : Tid → Option (Fin 32 → Word)} (same : saved c = saved' c) :
    fpu.after saved trace c = fpu.after saved' (seenBy c trace) c := by
  induction trace generalizing saved saved' with
  | nil => exact same
  | cons o rest ih =>
      by_cases own : o.ctx = c
      · rw [seenBy, List.filter_cons_of_pos (by simpa using own)]
        refine @ih (fpu.next saved o) (fpu.next saved' o) ?_
        cases o with
        | trapped d cause user fregs tp =>
            have here : c = d := own.symm
            subst here
            simp [fpu]
        | entered | handled | resumed | left => exact same
      · rw [seenBy, List.filter_cons_of_neg (by simpa using own)]
        refine @ih (fpu.next saved o) saved' (Eq.trans ?_ same)
        cases o with
        | trapped d cause user fregs tp => exact Function.update_of_ne (Ne.symm own) ..
        | entered | handled | resumed | left => rfl

/-! ## Steps that do not look at the floating-point registers -/

namespace Hart

variable {h : Hart} {mem : Mem Block Label} {s : KState} {junk : Reg → KVal} {event : HartEvent}

/-- The hart with other floating-point registers. -/
def withFregs (h : Hart) (fregs : Fin 32 → Word) : Hart := { h with fregs := fregs }

/-- The outcome of a step with other floating-point registers. -/
def nextWith (fregs : Fin 32 → Word) (next : HartNext) : HartNext :=
  (next.1.withFregs fregs, next.2.1, next.2.2.map (·.withFregs fregs))

variable (fregs : Fin 32 → Word)

theorem uret_withFregs : (h.withFregs fregs).uret s = (h.uret s).map (nextWith fregs) := by
  rw [uret, uret]
  split
  · simp only [Option.map_some, nextWith, List.map_map]
    rfl
  · rfl

theorem ret_withFregs : (h.withFregs fregs).ret s = (h.ret s).map (nextWith fregs) := by
  rw [ret, ret]
  split
  · rw [Option.map_bind]
    exact congrArg _ (funext fun _ => uret_withFregs fregs)
  · simp only [Option.map_some, nextWith, List.map_map]
    rfl
  · rfl
  · rfl
  · rfl

theorem ufaultReturn_withFregs :
    (h.withFregs fregs).ufaultReturn s junk = (h.ufaultReturn s junk).map (nextWith fregs) := by
  simp only [ufaultReturn, Option.bind_eq_bind, Option.map_bind]
  refine congrArg _ (funext fun popped => ?_)
  dsimp only [Function.comp_apply]
  split
  · rw [Option.map_bind]
    exact congrArg _ (funext fun _ => uret_withFregs fregs)
  · rfl

theorem handled_withFregs {result : Word} :
    (h.withFregs fregs).handled mem result junk =
      (h.handled mem result junk).map (nextWith fregs) := by
  rw [handled, handled]
  have sameState : (h.withFregs fregs).state mem = h.state mem := rfl
  rw [sameState]
  split
  · simp only [Option.bind_eq_bind, ufaultReturn_withFregs, Option.map_bind, Option.bind_map]
    refine congrArg _ (funext fun next => ?_)
    simp only [Function.comp_apply, Option.map_some, nextWith, List.map_append, List.map_map]
    rfl
  · rfl

theorem exit_withFregs {state : LPSThreadState} {label : Label} :
    (h.withFregs fregs).exit mem state label junk =
      (h.exit mem state label junk).map (nextWith fregs) := by
  rw [exit, exit]
  have sameState : (h.withFregs fregs).state mem = h.state mem := rfl
  have sameRegs : (h.withFregs fregs).regs = h.regs := rfl
  rw [sameState, sameRegs]
  split
  · dsimp only
    rw [Option.map_bind]
    exact congrArg _ (funext fun _ => ret_withFregs fregs)
  · rfl

theorem trap_withFregs {pc cause utval dfreason ticks : Word} :
    (h.withFregs fregs).trap mem pc cause utval dfreason ticks junk =
      (h.trap mem pc cause utval dfreason ticks junk).map (nextWith fregs) := by
  simp only [trap, Option.bind_eq_bind, Option.map_bind, Function.comp_def]
  refine congrArg _ (funext fun saved => congrArg _ (funext fun pushed => congrArg _ ?_))
  funext branch
  simp only [Option.map_some, nextWith, List.map_map]
  rfl

/-- A step other than one of user code does the same whatever is in the floating-point
registers. -/
theorem step_withFregs (notUser : ∀ regs f pc, event ≠ .user regs f pc) :
    (h.withFregs fregs).step mem event = (h.step mem event).map (nextWith fregs) := by
  have sameLoc : (h.withFregs fregs).loc = h.loc := rfl
  cases event with
  | user regs f pc => exact absurd rfl (notUser regs f pc)
  | enter c junk =>
      cases loc : h.loc <;> simp only [step, sameLoc, loc, Option.map_none]
      simp only [Option.bind_eq_bind, Option.map_bind]
      refine congrArg _ (funext fun entered => ?_)
      have returned := ret_withFregs (h := { h with loc := .sched, cur := some c })
        (s := entered) fregs
      rw [withFregs] at returned
      simp only [withFregs, returned, Function.comp_apply, Option.map_bind, Option.bind_map]
      refine congrArg _ (funext fun next => ?_)
      simp only [Option.map_some, nextWith, List.map_cons]
      rfl
  | trap cause utval dfreason ticks junk =>
      cases loc : h.loc <;> simp only [step, sameLoc, loc, Option.map_none, trap_withFregs]
  | exit state junk =>
      cases loc : h.loc <;> cases state <;>
        simp only [step, sameLoc, loc, Option.map_none, exit_withFregs]
  | handled result junk =>
      cases loc : h.loc <;> simp only [step, sameLoc, loc, Option.map_none, handled_withFregs]
  | timerReturn junk =>
      cases loc : h.loc <;> simp only [step, sameLoc, loc, Option.map_none]
      exact ufaultReturn_withFregs fregs

/-- User code that leaves other values does the same otherwise. -/
theorem user_withFregs {regs : Reg → KVal} {f f' : Fin 32 → Word} {pc : Word} :
    (h.withFregs fregs).step mem (.user regs f' pc) =
      (h.step mem (.user regs f pc)).map fun next => (next.1.withFregs f', next.2) := by
  have sameLoc : (h.withFregs fregs).loc = h.loc := rfl
  cases loc : h.loc <;> simp only [step, sameLoc, loc, Option.map_none]
  rfl

end Hart

namespace Machine

/-- The machine with other floating-point registers. -/
def withFloats (m : Machine) (floats : Nat → Fin 32 → Word) : Machine :=
  { m with harts := fun w => (m.harts w).withFregs (floats w) }

variable {m m' n n' : Machine} {saved saved' : Tid → Option (Fin 32 → Word)} {w : Nat} {c : Tid}
  {initial floats : Nat → Fin 32 → Word} {event event' : HartEvent} {h' : Hart}
  {obs obs' : List SwitchObs}

theorem allows_withFloats : (m.withFloats floats).Allows event ↔ m.Allows event := by
  cases event <;> exact Iff.rfl

theorem record_withFloats {fregs : Fin 32 → Word} :
    (m.withFloats floats).record w event (h'.withFregs fregs) =
      (m.record w event h').withFloats floats := by
  cases event with
  | enter c junk => rfl
  | exit state junk =>
      have sameCur : ((m.withFloats floats).harts w).cur = (m.harts w).cur := rfl
      cases cur : (m.harts w).cur <;> simp only [record, sameCur, cur]
      have left : (h'.withFregs fregs).cur = none ↔ h'.cur = none := Iff.rfl
      by_cases isNone : h'.cur = none
      · rw [if_pos (left.mpr isNone), if_pos isNone]
        rfl
      · rw [if_neg (mt left.mp isNone), if_neg isNone]
  | trap | user | handled | timerReturn =>
      have sameCur : ((m.withFloats floats).harts w).cur = (m.harts w).cur := rfl
      cases cur : (m.harts w).cur <;> simp only [record, sameCur, cur] <;> rfl

theorem update_withFregs {fregs : Fin 32 → Word} :
    Function.update (m.withFloats floats).harts w (h'.withFregs fregs) = fun v =>
      (Function.update m.harts w h' v).withFregs (Function.update floats w fregs v) := by
  funext v
  by_cases here : v = w
  · subst here
    rw [Function.update_self, Function.update_self, Function.update_self]
  · rw [Function.update_of_ne here, Function.update_of_ne here, Function.update_of_ne here]
    rfl

/-- A step other than one of user code leads to the same machine up to the
floating-point registers, which it leaves alone. -/
theorem step_withFloats (stepped : Machine.step m (w, event) = some (n, obs))
    (notUser : ∀ regs f pc, event ≠ .user regs f pc) :
    Machine.step (m.withFloats floats) (w, event) =
      some (n.withFloats floats, obs.map (·.withFregs (floats w))) := by
  obtain ⟨inRange, allowed, h', mem', hartStep, rfl⟩ := step_cases stepped
  have sameHart : (m.withFloats floats).harts w = (m.harts w).withFregs (floats w) := rfl
  have sameMem : (m.withFloats floats).mem = m.mem := rfl
  rw [Machine.step, if_pos ⟨inRange, allows_withFloats.mpr allowed⟩, sameHart, sameMem,
    Hart.step_withFregs _ notUser, hartStep]
  simp only [Option.map_some, Hart.nextWith, record_withFloats, Option.some.injEq, Prod.mk.injEq,
    and_true]
  rw [update_withFregs, Function.update_eq_self]
  rfl

/-- A step of user code leads to the same machine up to the floating-point registers. -/
theorem user_withFloats {regs : Reg → KVal} {f f' : Fin 32 → Word} {pc : Word}
    (stepped : Machine.step m (w, .user regs f pc) = some (n, obs)) :
    Machine.step (m.withFloats floats) (w, .user regs f' pc) =
      some (n.withFloats (Function.update floats w f'), obs) := by
  obtain ⟨inRange, allowed, h', mem', hartStep, rfl⟩ := step_cases stepped
  have sameHart : (m.withFloats floats).harts w = (m.harts w).withFregs (floats w) := rfl
  have sameMem : (m.withFloats floats).mem = m.mem := rfl
  rw [Machine.step, if_pos ⟨inRange, trivial⟩, sameHart, sameMem,
    Hart.user_withFregs (f := f), hartStep]
  simp only [Option.map_some, update_withFregs, record, Option.some.injEq, Prod.mk.injEq, and_true]
  rfl

/-- Two events that differ at most in the floating-point values that user code of another
context than `c` leaves. -/
def SameFor (c : Tid) (m : Machine) (events : (Nat × HartEvent) × (Nat × HartEvent)) : Prop :=
  events.1 = events.2 ∨ ∃ w regs f f' pc, (m.harts w).cur ≠ some c ∧
    events = ((w, .user regs f pc), (w, .user regs f' pc))

/-- The side condition of two runs side by side: each of them meets its own, and they do
the same up to the floating-point values that others than `c` compute. -/
def SideBySide (ok : Machine → Nat × HartEvent → Prop) (c : Tid) (states : Machine × Machine)
    (events : (Nat × HartEvent) × (Nat × HartEvent)) : Prop :=
  ok states.1 events.1 ∧ ok states.2 events.2 ∧ SameFor c states.1 events

/-- Two machines that differ in floating-point registers only, and not in those of a hart
that runs `c`. -/
structure Alike (c : Tid) (m m' : Machine) : Prop where
  same : m' = m.withFloats m'.floats
  own : ∀ v < m.ncore, (m.harts v).cur = some c → m'.floats v = m.floats v

theorem Alike.refl (c : Tid) (m : Machine) : Alike c m m := ⟨rfl, fun _ _ _ => rfl⟩

/-- A context is resumed, or entered for the first time, with the same floating-point
registers in both runs. -/
theorem FloatsKept.entered_same {junk : Reg → KVal} (kept : m.FloatsKept saved)
    (kept' : m'.FloatsKept saved') (sameSaved : saved c = saved' c) (alike : Alike c m m')
    (free : m.Free c) (ok : m.FloatQuiet initial (w, .enter c junk))
    (ok' : m'.FloatQuiet initial (w, .enter c junk)) : m'.floats w = m.floats w := by
  have sameLast : m'.last = m.last := by rw [alike.same]; rfl
  have sameState : m'.state = m.state := by rw [alike.same]; rfl
  have suspended : m.Suspended c := fun v lt cur => absurd cur (free.2 v lt)
  have suspended' : m'.Suspended c := by
    intro v lt cur
    rw [alike.same] at lt cur
    exact absurd cur (free.2 v lt)
  cases last : m.last c with
  | none => rw [ok.2 last, ok'.2 (by rw [sameLast, last])]
  | some v =>
      have here : v = w := ok.1 v last
      subst here
      have remembered : saved c ≠ none := (not_congr (kept.last c)).mpr (by rw [last]; simp)
      obtain ⟨f, isSaved⟩ := Option.ne_none_iff_exists'.mp remembered
      have found := kept.kept c f v isSaved last free.1 suspended
      have found' := kept'.kept c f v (sameSaved ▸ isSaved) (by rw [sameLast, last])
        (by rw [sameState]; exact free.1) suspended'
      exact found'.trans found.symm

/-- What is observed of `c` in a step of another context. -/
theorem seenBy_during {ran : Option Tid} (other : ran ≠ some c) (own : ∀ o ∈ obs, ran = some o.ctx) :
    seenBy c obs = [] :=
  seenBy_of_other fun o mem same => other (same ▸ own o mem)

/-- The floating-point registers that a context has during a step are the same in both
runs. -/
theorem Alike.during (alike : Alike c m m') (kept : m.FloatsKept saved)
    (kept' : m'.FloatsKept saved') (sameSaved : saved c = saved' c)
    (ok : m.FloatQuiet initial (w, event)) (ok' : m'.FloatQuiet initial (w, event))
    (inRange : w < m.ncore) (allowed : m.Allows event)
    (runs : (m.harts w).during event = some c) : m'.floats w = m.floats w := by
  cases event with
  | enter d junk =>
      rw [Hart.during, Option.some.injEq] at runs
      subst runs
      exact kept.entered_same kept' sameSaved alike allowed ok ok'
  | user | trap | exit | handled | timerReturn => exact alike.own w inRange runs

/-- A step that is the same event in both runs. -/
theorem Alike.same_event (alike : Alike c m m') (kept : m.FloatsKept saved)
    (kept' : m'.FloatsKept saved') (sameSaved : saved c = saved' c)
    (ok : m.FloatQuiet initial (w, event)) (ok' : m'.FloatQuiet initial (w, event))
    (notUser : ∀ regs f pc, event ≠ .user regs f pc)
    (stepped : Machine.step m (w, event) = some (n, obs))
    (stepped' : Machine.step m' (w, event) = some (n', obs')) :
    Alike c n n' ∧ seenBy c obs = seenBy c obs' := by
  have own : m.withFloats m.floats = m := rfl
  have unchanged := @step_withFloats m n w m.floats event obs stepped notUser
  rw [own, stepped, Option.some.injEq, Prod.mk.injEq] at unchanged
  rw [alike.same, step_withFloats stepped notUser, Option.some.injEq, Prod.mk.injEq] at stepped'
  obtain ⟨rfl, rfl⟩ := stepped'
  obtain ⟨inRange, allowed, h', mem', hartStep, rfl⟩ := step_cases stepped
  obtain ⟨fregs, cur, concerns⟩ := Hart.step_during hartStep notUser
  have sameFloats := alike.during kept kept' sameSaved ok ok' inRange allowed
  refine ⟨⟨rfl, ?_⟩, ?_⟩
  · intro v lt runs
    rw [record_ncore] at lt
    change m'.floats v = (Function.update m.harts w h' v).fregs
    simp only at runs
    by_cases here : v = w
    · subst here
      rw [Function.update_self] at runs ⊢
      rcases cur with isRun | none
      · exact (sameFloats (isRun.symm.trans runs)).trans fregs.symm
      · rw [none] at runs
        contradiction
    · rw [Function.update_of_ne here] at runs ⊢
      exact alike.own v lt runs
  · by_cases runs : (m.harts w).during event = some c
    · rw [sameFloats runs, ← unchanged.2]
    · have concerns' : ∀ o ∈ obs.map (·.withFregs (m'.floats w)),
          (m.harts w).during event = some o.ctx := by
        intro o mem
        obtain ⟨before, inObs, rfl⟩ := List.mem_map.mp mem
        rw [SwitchObs.ctx_withFregs]
        exact concerns before inObs
      rw [seenBy_during runs concerns, seenBy_during runs concerns']

/-- A step of user code, which may leave other values where it is not that of `c`. -/
theorem Alike.user_event (alike : Alike c m m') {regs : Reg → KVal} {f f' : Fin 32 → Word}
    {pc : Word} (sameValues : (m.harts w).cur = some c → f = f')
    (stepped : Machine.step m (w, .user regs f pc) = some (n, obs))
    (stepped' : Machine.step m' (w, .user regs f' pc) = some (n', obs')) :
    Alike c n n' ∧ seenBy c obs = seenBy c obs' := by
  rw [alike.same, user_withFloats stepped, Option.some.injEq, Prod.mk.injEq] at stepped'
  obtain ⟨rfl, rfl⟩ := stepped'
  obtain ⟨inRange, _, h', mem', hartStep, rfl⟩ := step_cases stepped
  obtain ⟨cur, fregs⟩ := Hart.user_left hartStep
  refine ⟨⟨rfl, ?_⟩, rfl⟩
  intro v lt runs
  change Function.update m'.floats w f' v = (Function.update m.harts w h' v).fregs
  simp only at runs
  by_cases here : v = w
  · subst here
    rw [Function.update_self] at runs ⊢
    rw [Function.update_self, fregs]
    exact (sameValues (cur.symm.trans runs)).symm
  · rw [Function.update_of_ne here] at runs ⊢
    rw [Function.update_of_ne here]
    exact alike.own v lt runs

/-- One step of each of two runs. -/
theorem Alike.step {step step' : Nat × HartEvent} (alike : Alike c m m')
    (kept : m.FloatsKept saved) (kept' : m'.FloatsKept saved') (sameSaved : saved c = saved' c)
    (allowed : SideBySide (FloatQuiet initial) c (m, m') (step, step'))
    (stepped : Machine.step m step = some (n, obs))
    (stepped' : Machine.step m' step' = some (n', obs')) :
    Alike c n n' ∧ seenBy c obs = seenBy c obs' := by
  obtain ⟨ok, ok', same | ⟨w, regs, f, f', pc, other, isUser⟩⟩ := allowed
  · dsimp only at ok ok' same
    subst same
    obtain ⟨w, event⟩ := step
    cases event with
    | user regs f pc => exact alike.user_event (fun _ => rfl) stepped stepped'
    | enter | trap | exit | handled | timerReturn =>
        exact alike.same_event kept kept' sameSaved ok ok' (by simp) stepped stepped'
  · rw [Prod.mk.injEq] at isUser
    obtain ⟨rfl, rfl⟩ := isUser
    exact alike.user_event (fun cur => absurd cur other) stepped stepped'

/-- Two runs side by side, each of which meets the condition, are the same to `c`. -/
theorem seen_same {users : Tid → UserState} (booted : m.Booted users)
    (untrapped : ∀ d, m.last d = none) {trace : List (SwitchObs ⊕ SwitchObs)}
    {states : Machine × Machine}
    (run : Run (paired Machine.step) (SideBySide (FloatQuiet initial) c) (m, m) trace states) :
    seenBy c (lefts trace) = seenBy c (rights trace) := by
  refine (run.invariant (fun trace states =>
    states.1.FloatsKept (fpu.after (fun _ => none) (lefts trace)) ∧
      states.2.FloatsKept (fpu.after (fun _ => none) (rights trace)) ∧
      Alike c states.1 states.2 ∧ seenBy c (lefts trace) = seenBy c (rights trace)) ?_ ?_).2.2.2
  · exact ⟨.booted booted untrapped, .booted booted untrapped, .refl c m, rfl⟩
  · rintro trace observed states next ⟨step, step'⟩ ⟨kept, kept', alike, same⟩ allowed stepped
    obtain ⟨left, right⟩ := paired_cases stepped
    have sameSaved : fpu.after (fun _ => none) (lefts trace) c =
        fpu.after (fun _ => none) (rights trace) c := by
      rw [fpu_after_seenBy rfl, same, ← fpu_after_seenBy rfl]
    obtain ⟨alikeNow, sameNow⟩ := alike.step kept kept' sameSaved allowed left right
    rw [lefts_append, rights_append, Lps.Transition.Monitor.after_append,
      Lps.Transition.Monitor.after_append, seenBy_append, seenBy_append, same, sameNow]
    exact ⟨(kept.step allowed.1 left).2, (kept'.step allowed.2.1 right).2, alikeNow, rfl⟩

/-- Every context finds its floating-point registers as they were at its last trap, in
every run that meets the condition; and two such runs that differ in the floating-point
values that other contexts compute are the same to it. -/
theorem floats_kept {users : Tid → UserState} (booted : m.Booted users)
    (untrapped : ∀ d, m.last d = none) :
    (∀ trace m', Run Machine.step (FloatQuiet m.floats) m trace m' →
      fpu.Accepts (fun _ => none) trace) ∧
    ∀ c trace states, Run (paired Machine.step) (SideBySide (FloatQuiet m.floats) c) (m, m) trace states →
      seenBy c (lefts trace) = seenBy c (rights trace) :=
  ⟨fun _ _ run => fpu_accepted booted untrapped run, fun _ _ _ run => seen_same booted untrapped run⟩

/-- A testable condition that implies the one above: user code leaves the
floating-point registers alone. -/
def FloatFree (initial : Nat → Fin 32 → Word) (m : Machine) : Nat × HartEvent → Prop
  | (w, .user _ fregs _) => fregs = m.floats w
  | (w, .enter c _) => (∀ v ∈ m.last c, v = w) ∧ (m.last c = none → m.floats w = initial w)
  | _ => True

instance (initial : Nat → Fin 32 → Word) (m : Machine) :
    (event : Nat × HartEvent) → Decidable (m.FloatFree initial event)
  | (w, .user _ fregs _) => inferInstanceAs (Decidable (fregs = m.floats w))
  | (w, .enter c _) => inferInstanceAs (Decidable ((∀ v ∈ m.last c, v = w) ∧
      (m.last c = none → m.floats w = initial w)))
  | (_, .trap ..) | (_, .exit ..) | (_, .handled ..) | (_, .timerReturn ..) => .isTrue trivial

theorem FloatFree.quiet {event : Nat × HartEvent} (free : m.FloatFree initial event) :
    m.FloatQuiet initial event := by
  obtain ⟨w, event⟩ := event
  cases event with
  | user regs fregs pc => exact .inl free
  | enter | trap | exit | handled | timerReturn => exact free

/-- While nobody has trapped, user code may do what it likes. -/
theorem floatQuiet_untrapped (untrapped : ∀ d, m.last d = none) {regs : Reg → KVal}
    {fregs : Fin 32 → Word} {pc : Word} : m.FloatQuiet initial (w, .user regs fregs pc) :=
  .inr fun d _ last => absurd ((untrapped d).symm.trans last) (Option.some_ne_none w).symm

theorem enter_untrapped (untrapped : ∀ d, m.last d = none) {junk : Reg → KVal} :
    m.FloatQuiet m.floats (w, .enter c junk) :=
  ⟨by simp [untrapped c], fun _ => rfl⟩

theorem step_untrapped (untrapped : ∀ d, m.last d = none)
    (stepped : Machine.step m (w, event) = some (n, obs))
    (notTrap : ∀ cause utval dfreason ticks junk, event ≠ .trap cause utval dfreason ticks junk) :
    ∀ d, n.last d = none := by
  obtain ⟨_, _, h', mem', _, rfl⟩ := step_cases stepped
  intro d
  exact (congrFun (record_last notTrap) d).trans (untrapped d)

/-- The first context to be entered computes with its floating-point registers. -/
theorem run_first {regs : Reg → KVal} {fregs : Fin 32 → Word} {pc : Word} {junk : Reg → KVal}
    {trace : List SwitchObs} (untrapped : ∀ d, m.last d = none)
    (executed : Transition.exec Machine.step m [(w, .enter c junk), (w, .user regs fregs pc)] =
      some (n, trace)) :
    Run Machine.step (FloatQuiet m.floats) m trace n ∧ ∀ d, n.last d = none := by
  simp only [Transition.exec, Option.bind_eq_bind, Option.bind_some, Option.bind_eq_some_iff,
    Option.some.injEq, Prod.mk.injEq] at executed
  obtain ⟨⟨entered, seen⟩, enters, _, ⟨⟨moved, seen'⟩, moves, _, rfl, rfl⟩, rfl, rfl⟩ := executed
  have still := step_untrapped untrapped enters (by simp)
  rw [List.append_nil]
  exact ⟨(Run.single (enter_untrapped untrapped) enters).tail (floatQuiet_untrapped still) moves,
    step_untrapped still moves (by simp)⟩

/-- The first context to be entered computes with other values in the second of two runs. -/
theorem twins_first {d : Tid} {regs : Reg → KVal} {f f' : Fin 32 → Word} {pc : Word}
    {junk : Reg → KVal} {trace : List (SwitchObs ⊕ SwitchObs)} {states : Machine × Machine}
    (untrapped : ∀ d, m.last d = none) (other : d ≠ c)
    (executed : Transition.exec (paired Machine.step) (m, m)
      [((w, .enter d junk), (w, .enter d junk)), ((w, .user regs f pc), (w, .user regs f' pc))] =
      some (states, trace)) :
    Run (paired Machine.step) (SideBySide (FloatQuiet m.floats) c) (m, m) trace states := by
  simp only [Transition.exec, Option.bind_eq_bind, Option.bind_some, Option.bind_eq_some_iff,
    Option.some.injEq, Prod.mk.injEq] at executed
  obtain ⟨⟨entered, seen⟩, enters, _, ⟨⟨moved, seen'⟩, moves, _, rfl, rfl⟩, rfl, rfl⟩ := executed
  obtain ⟨left, right⟩ := paired_cases enters
  have still := step_untrapped untrapped left (by simp)
  have still' := step_untrapped untrapped right (by simp)
  have notOwn : (entered.1.harts w).cur ≠ some c := by
    obtain ⟨_, _, h', mem', hartStep, now⟩ := step_cases left
    rw [now]
    dsimp only
    rw [Function.update_self]
    intro runs
    rcases (Hart.step_during hartStep (by simp)).2.1 with isRun | none
    · exact other (Option.some.inj (isRun.symm.trans runs))
    · rw [none] at runs
      contradiction
  have enterOk : m.FloatQuiet m.floats (w, .enter d junk) := enter_untrapped untrapped
  have first : Run (paired Machine.step) (SideBySide (FloatQuiet m.floats) c) (m, m) seen entered :=
    .single ⟨enterOk, enterOk, .inl rfl⟩ enters
  rw [List.append_nil]
  exact first.tail ⟨floatQuiet_untrapped still, floatQuiet_untrapped still',
    .inr ⟨w, regs, f, f', pc, notOwn, rfl⟩⟩ moves

/-- Two runs that do the same, and meet the testable condition. -/
theorem twins_later {events : List (Nat × HartEvent)} {trace : List (SwitchObs ⊕ SwitchObs)}
    {states target : Machine × Machine}
    (executed : Transition.exec (Transition.guarded (paired Machine.step) fun states events =>
        states.1.FloatFree initial events.1 ∧ states.2.FloatFree initial events.2) states
      (events.map fun event => (event, event)) = some (target, trace)) :
    Run (paired Machine.step) (SideBySide (FloatQuiet initial) c) states trace target := by
  have alike : ∀ both ∈ events.map fun event => (event, event), both.1 = both.2 := by
    intro both mem
    obtain ⟨event, _, rfl⟩ := List.mem_map.mp mem
    rfl
  exact (Transition.run_of_exec_checked executed alike).mono
    fun _ _ allowed => ⟨allowed.1.1.quiet, allowed.1.2.quiet, .inl allowed.2⟩

/-- In one run context 7 writes 9 to its floating-point registers before anybody else runs,
and goes on after an interrupt.  In two others context 8 computes with 1 and with 2 on the
second hart, while context 7 is entered on the first one, interrupted, and goes on. -/
theorem floats_kept_two_contexts :
    (∃ trace, ∃ m' : Machine, fpu.Accepts (fun _ => none) trace ∧
      (m'.harts 0).cur = some 7 ∧ (m'.harts 0).loc = .user 4 ∧ (m'.harts 0).fregs 0 = 9) ∧
    ∃ trace, ∃ states : Machine × Machine, seenBy 7 (lefts trace) = seenBy 7 (rights trace) ∧
      (seenBy 7 (lefts trace)).length = 6 ∧ states.1.floats 1 0 = 1 ∧ states.2.floats 1 0 = 2 := by
  constructor
  · have seen : ((Transition.exec Machine.step (boot 1)
        [(0, .enter 7 fun _ => .word 0), (0, .user (fun _ => .word 0) (fun _ => 9) 4)]).bind
          fun out => Transition.exec
            (Transition.guarded Machine.step (FloatFree (boot 1).floats)) out.1
        [(0, .trap CAUSE_IRQ_U_TIME 0 0 0 fun _ => .word 0),
          (0, .exit .runnable fun _ => .word 0), (0, .enter 7 fun _ => .word 0),
          (0, .timerReturn fun _ => .word 0)]).map
            (fun out => ((out.1.harts 0).cur, (out.1.harts 0).loc, (out.1.harts 0).fregs 0)) =
        some (some 7, .user 4, 9) := by decide +kernel
    obtain ⟨⟨m', rest⟩, executed, pair⟩ := Option.map_eq_some_iff.mp seen
    obtain ⟨⟨middle, first⟩, started, later⟩ := Option.bind_eq_some_iff.mp executed
    obtain ⟨begun, _⟩ := run_first (fun _ => rfl) started
    have run := begun.trans ((Transition.run_of_exec_guarded later).mono fun _ _ free => free.quiet)
    simp only [Prod.mk.injEq] at pair
    exact ⟨_, m', (floats_kept (boot_booted 1) fun _ => rfl).1 _ m' run, pair⟩
  · have seen : ((Transition.exec (paired Machine.step) (boot 2, boot 2)
        [((1, .enter 8 fun _ => .word 0), (1, .enter 8 fun _ => .word 0)),
          ((1, .user (fun _ => .word 0) (fun _ => 1) 4),
            (1, .user (fun _ => .word 0) (fun _ => 2) 4))]).bind
          fun out => (Transition.exec (Transition.guarded (paired Machine.step)
            fun states events => states.1.FloatFree (boot 2).floats events.1 ∧
              states.2.FloatFree (boot 2).floats events.2) out.1
        ([(0, .enter 7 fun _ => .word 0), (0, .user (fun _ => .word 5) (fun _ => 0) 4),
          (0, .trap CAUSE_IRQ_U_TIME 0 0 0 fun _ => .word 0),
          (0, .exit .runnable fun _ => .word 0), (0, .enter 7 fun _ => .word 0),
          (0, .timerReturn fun _ => .word 0)].map fun event => (event, event))).map
            fun last => (out.2 ++ last.2, last.1)).map
              (fun out => ((seenBy 7 (lefts out.1)).length, out.2.1.floats 1 0,
                out.2.2.floats 1 0)) = some (6, 1, 2) := by decide +kernel
    obtain ⟨⟨trace, states⟩, executed, pair⟩ := Option.map_eq_some_iff.mp seen
    obtain ⟨⟨middle, first⟩, started, later⟩ := Option.bind_eq_some_iff.mp executed
    obtain ⟨⟨last, rest⟩, goesOn, now⟩ := Option.map_eq_some_iff.mp later
    rw [Prod.mk.injEq] at now
    obtain ⟨rfl, rfl⟩ := now
    have run := (twins_first (c := 7) (fun _ => rfl) (by decide) started).trans (twins_later goesOn)
    simp only [Prod.mk.injEq] at pair
    exact ⟨_, _, (floats_kept (boot_booted 2) fun _ => rfl).2 7 _ _ run, pair⟩

/-- Context 7 is interrupted with 9 in its floating-point registers; context 8 writes 1
to them before context 7 goes on.  And where context 8 runs before context 7 is entered,
context 7 finds what context 8 has computed. -/
theorem floats_leak :
    ¬(∀ (m m' : Machine) (users : Tid → UserState) (trace : List SwitchObs), m.Booted users →
      (∀ d, m.last d = none) → Run Machine.step (Always _ _) m trace m' →
      fpu.Accepts (fun _ => none) trace) ∧
    ¬∀ (m : Machine) (users : Tid → UserState) (c : Tid) (trace : List (SwitchObs ⊕ SwitchObs))
      (states : Machine × Machine), m.Booted users → (∀ d, m.last d = none) →
      Run (paired Machine.step) (SideBySide (Always _ _) c) (m, m) trace states →
      seenBy c (lefts trace) = seenBy c (rights trace) := by
  constructor
  · intro claim
    have seen : (Transition.exec Machine.step (boot 1)
        [(0, .enter 7 fun _ => .word 0), (0, .user (fun _ => .word 0) (fun _ => 9) 4),
          (0, .trap CAUSE_IRQ_U_TIME 0 0 0 fun _ => .word 0),
          (0, .exit .runnable fun _ => .word 0), (0, .enter 8 fun _ => .word 0),
          (0, .user (fun _ => .word 0) (fun _ => 1) 4),
          (0, .trap CAUSE_IRQ_U_TIME 0 0 0 fun _ => .word 0),
          (0, .exit .runnable fun _ => .word 0), (0, .enter 7 fun _ => .word 0),
          (0, .timerReturn fun _ => .word 0)]).map
            (fun out => decide (fpu.Accepts (fun _ => none) out.2)) = some false := by
      decide +kernel
    obtain ⟨⟨m', trace⟩, executed, refused⟩ := Option.map_eq_some_iff.mp seen
    exact of_decide_eq_false refused (claim _ m' _ trace (boot_booted 1) (fun _ => rfl)
      (Transition.run_of_exec executed))
  · intro claim
    -- What context 7 finds is tested against the value of the first run.
    have seen : ((Transition.exec (paired Machine.step) (boot 1, boot 1)
        [((0, .enter 8 fun _ => .word 0), (0, .enter 8 fun _ => .word 0)),
          ((0, .user (fun _ => .word 0) (fun _ => 1) 4),
            (0, .user (fun _ => .word 0) (fun _ => 2) 4))]).bind
          fun out => (Transition.exec (paired Machine.step) out.1
        ([(0, .trap CAUSE_IRQ_U_TIME 0 0 0 fun _ => .word 0),
          (0, .exit .runnable fun _ => .word 0),
          (0, .enter 7 fun _ => .word 0)].map fun event => (event, event))).map
            fun last => (out.2 ++ last.2, last.1)).map
              (fun out => (decide (fpu.Accepts (fun _ => some fun _ => 1) (seenBy 7 (lefts out.1))),
                decide (fpu.Accepts (fun _ => some fun _ => 1) (seenBy 7 (rights out.1))))) =
        some (true, false) := by decide +kernel
    obtain ⟨⟨trace, states⟩, executed, pair⟩ := Option.map_eq_some_iff.mp seen
    obtain ⟨⟨middle, first⟩, started, later⟩ := Option.bind_eq_some_iff.mp executed
    obtain ⟨⟨last, rest⟩, goesOn, now⟩ := Option.map_eq_some_iff.mp later
    rw [Prod.mk.injEq] at now
    obtain ⟨rfl, rfl⟩ := now
    have begun : Run (paired Machine.step) (SideBySide (Always _ _) 7) _ first middle :=
      (twins_first (c := 7) (fun _ => rfl) (by decide) started).mono
        fun _ _ allowed => ⟨trivial, trivial, allowed.2.2⟩
    have rest : Run (paired Machine.step) (SideBySide (Always _ _) 7) middle rest last := by
      refine Transition.run_of_exec_forall goesOn ?_
      intro both mem states
      obtain ⟨event, _, rfl⟩ := List.mem_map.mp mem
      exact ⟨trivial, trivial, .inl rfl⟩
    have same := claim (boot 1) _ 7 _ _ (boot_booted 1) (fun _ => rfl) (begun.trans rest)
    rw [Prod.mk.injEq, same] at pair
    exact Bool.false_ne_true (pair.2.symm.trans pair.1)

end Machine

end Lps.Linux

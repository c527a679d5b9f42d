import Lps.Linux.SwitchRun

/-!
# The floating-point registers across switches

`lps_save_float` and `lps_load_float` are called on no path that switches
contexts, so a context goes on with the floating-point registers that whoever ran
in between has left.  They are its own exactly as long as nobody has changed them.
-/

namespace Lps.Linux

open Lps.Asm Lps.Core
open Lps.Transition (Monitor Run Always)

/-- Remembers the floating-point registers of each context at its last trap and
expects to find them when it goes on. -/
def fpu : Monitor (Tid → Option (Fin 32 → Word)) SwitchObs where
  next saved
    | .trapped c _ _ fregs _ => Function.update saved c (some fregs)
    | _ => saved
  expects saved
    | .resumed c _ fregs => ∀ old ∈ saved c, fregs = old
    | _ => True

instance (saved : Tid → Option (Fin 32 → Word)) :
    (o : SwitchObs) → Decidable (fpu.expects saved o)
  | .resumed c _ fregs => Option.decidableForallMem (p := fun old => fregs = old) (saved c)
  | .entered .. | .handled .. | .trapped .. | .left .. => .isTrue trivial

/-- The context that an observation is about. -/
def SwitchObs.ctx : SwitchObs → Tid
  | .entered c _ | .trapped c _ _ _ _ | .handled c _ | .resumed c _ _ | .left c _ _ => c

/-! ## What a step does to the floating-point registers -/

namespace Hart

variable {h h' : Hart} {mem mem' : Mem Block Label} {obs : List SwitchObs} {s : KState}
  {event : HartEvent} {junk : Reg → KVal} {cur : Option Tid}

/-- The context that a hart runs during a step. -/
def during (h : Hart) : HartEvent → Option Tid
  | .enter c _ => some c
  | _ => h.cur

/-- The observations of a step that leaves the floating-point registers alone and is
no trap. -/
structure Quiet (ran : Option Tid) (h h' : Hart) (obs : List SwitchObs) : Prop where
  fregs : h'.fregs = h.fregs
  cur : h'.cur = ran ∨ h'.cur = none
  own : ∀ o ∈ obs, ran = some o.ctx
  trapped : ∀ c cause u f tp, .trapped c cause u f tp ∉ obs
  resumed : ∀ c u f, .resumed c u f ∈ obs → f = h.fregs

/-- What is observed in front of a quiet step. -/
theorem Quiet.append {ran : Option Tid} (quiet : Quiet ran h h' obs) (front : List SwitchObs)
    (own : ∀ o ∈ front, ran = some o.ctx) (noTrap : ∀ c cause u f tp, .trapped c cause u f tp ∉ front)
    (noResume : ∀ c u f, .resumed c u f ∉ front) : Quiet ran h h' (front ++ obs) where
  fregs := quiet.fregs
  cur := quiet.cur
  own := by
    intro o mem
    rcases List.mem_append.mp mem with first | rest
    · exact own o first
    · exact quiet.own o rest
  trapped := by
    intro c cause u f tp mem
    rcases List.mem_append.mp mem with first | rest
    · exact noTrap c cause u f tp first
    · exact quiet.trapped c cause u f tp rest
  resumed := by
    intro c u f mem
    rcases List.mem_append.mp mem with first | rest
    · exact absurd first (noResume c u f)
    · exact quiet.resumed c u f rest

theorem uret_quiet (result : h.uret s = some (h', mem', obs)) : Quiet h.cur h h' obs := by
  rw [uret] at result
  split at result
  · simp only [Option.some.injEq, Prod.mk.injEq] at result
    obtain ⟨rfl, -, rfl⟩ := result
    refine ⟨rfl, .inl rfl, ?_, by simp, ?_⟩
    · intro o mem
      obtain ⟨c, isCur, rfl⟩ := List.mem_map.mp mem
      exact Option.mem_toList.mp isCur
    · intro c u f mem
      obtain ⟨d, _, same⟩ := List.mem_map.mp mem
      simp only [SwitchObs.resumed.injEq] at same
      exact same.2.2.symm
  · contradiction

theorem ret_quiet (result : h.ret s = some (h', mem', obs)) : Quiet h.cur h h' obs := by
  rw [ret] at result
  split at result
  · obtain ⟨s', _, restored⟩ := Option.bind_eq_some_iff.mp result
    exact uret_quiet restored
  · simp only [Option.some.injEq, Prod.mk.injEq] at result
    obtain ⟨rfl, -, rfl⟩ := result
    refine ⟨rfl, .inr rfl, ?_, by simp, by simp⟩
    intro o mem
    obtain ⟨c, isCur, rfl⟩ := List.mem_map.mp mem
    exact Option.mem_toList.mp isCur
  · simp only [Option.some.injEq, Prod.mk.injEq] at result
    obtain ⟨rfl, -, rfl⟩ := result
    exact ⟨rfl, .inl rfl, by simp, by simp, by simp⟩
  · simp only [Option.some.injEq, Prod.mk.injEq] at result
    obtain ⟨rfl, -, rfl⟩ := result
    exact ⟨rfl, .inl rfl, by simp, by simp, by simp⟩
  · contradiction

theorem ufaultReturn_quiet (result : h.ufaultReturn s junk = some (h', mem', obs)) :
    Quiet h.cur h h' obs := by
  simp only [ufaultReturn, Option.bind_eq_bind, Option.bind_eq_some_iff] at result
  obtain ⟨popped, _, returned⟩ := result
  split at returned
  · obtain ⟨s', _, restored⟩ := Option.bind_eq_some_iff.mp returned
    exact uret_quiet restored
  · contradiction

theorem handled_quiet {value : Word} (result : h.handled mem value junk = some (h', mem', obs)) :
    Quiet h.cur h h' obs := by
  rw [handled] at result
  split at result
  · simp only [Option.bind_eq_bind, Option.bind_eq_some_iff, Option.some.injEq,
      Prod.mk.injEq] at result
    obtain ⟨⟨next, nextMem, rest⟩, returned, rfl, rfl, rfl⟩ := result
    refine (ufaultReturn_quiet returned).append _ ?_ (by simp) (by simp)
    intro o mem
    obtain ⟨c, isCur, rfl⟩ := List.mem_map.mp mem
    exact Option.mem_toList.mp isCur
  · contradiction

theorem exit_quiet {state : LPSThreadState} {label : Label}
    (result : h.exit mem state label junk = some (h', mem', obs)) : Quiet h.cur h h' obs := by
  rw [exit] at result
  split at result
  · obtain ⟨s', _, returned⟩ := Option.bind_eq_some_iff.mp result
    exact ret_quiet returned
  · contradiction

theorem enter_quiet {c : Tid} (result : h.step mem (.enter c junk) = some (h', mem', obs)) :
    Quiet (some c) h h' obs := by
  cases loc : h.loc <;> simp only [step, loc, reduceCtorEq] at result
  simp only [Option.bind_eq_bind, Option.bind_eq_some_iff, Option.some.injEq,
    Prod.mk.injEq] at result
  obtain ⟨s, _, ⟨next, nextMem, rest⟩, returned, rfl, rfl, rfl⟩ := result
  obtain ⟨fregs, cur, own, trapped, resumed⟩ := ret_quiet returned
  have quiet : Quiet (some c) h next rest := ⟨fregs, cur, own, trapped, resumed⟩
  exact quiet.append [.entered c (h.regs .tp)] (by simp [SwitchObs.ctx]) (by simp) (by simp)

/-- Every step other than a trap or one of user code is quiet, and the hart is in
the runtime when it takes it. -/
theorem step_quiet (stepped : h.step mem event = some (h', mem', obs))
    (notUser : ∀ regs fregs pc, event ≠ .user regs fregs pc)
    (notTrap : ∀ cause utval dfreason ticks junk, event ≠ .trap cause utval dfreason ticks junk) :
    Quiet (h.during event) h h' obs ∧ ∀ pc, h.loc ≠ .user pc := by
  cases event with
  | enter c junk =>
      refine ⟨enter_quiet stepped, ?_⟩
      cases loc : h.loc <;> simp [step, loc] at stepped ⊢
  | user regs fregs pc => exact absurd rfl (notUser regs fregs pc)
  | trap cause utval dfreason ticks junk => exact absurd rfl (notTrap cause utval dfreason ticks junk)
  | exit state junk =>
      cases loc : h.loc with
      | timer =>
          cases state with
          | runnable =>
              simp only [step, loc] at stepped
              exact ⟨exit_quiet stepped, by simp⟩
          | blocked => simp [step, loc] at stepped
          | exited => simp [step, loc] at stepped
      | syscall =>
          simp only [step, loc] at stepped
          exact ⟨exit_quiet stepped, by simp⟩
      | sched => simp [step, loc] at stepped
      | user pc => simp [step, loc] at stepped
      | timerDone => simp [step, loc] at stepped
  | handled result junk =>
      cases loc : h.loc <;> simp only [step, loc, reduceCtorEq] at stepped
      exact ⟨handled_quiet stepped, by simp⟩
  | timerReturn junk =>
      cases loc : h.loc <;> simp only [step, loc, reduceCtorEq] at stepped
      exact ⟨ufaultReturn_quiet stepped, by simp⟩

/-- A trap leaves the floating-point registers alone and shows them. -/
theorem trap_fregs {cause utval dfreason ticks : Word}
    (stepped : h.step mem (.trap cause utval dfreason ticks junk) = some (h', mem', obs)) :
    h'.fregs = h.fregs ∧ h'.cur = h.cur ∧ (∃ pc, h.loc = .user pc) ∧
      ∃ u tp, obs = h.cur.toList.map fun c => .trapped c cause u h.fregs tp := by
  cases loc : h.loc <;> simp only [step, loc, reduceCtorEq] at stepped
  rename_i pc
  simp only [trap, Option.bind_eq_bind, Option.bind_eq_some_iff, Option.some.injEq,
    Prod.mk.injEq] at stepped
  obtain ⟨saved, _, pushed, _, ⟨s', loc'⟩, _, rfl, _, rfl⟩ := stepped
  exact ⟨rfl, rfl, ⟨pc, rfl⟩, ⟨h.regs, pc⟩, saved.regs .tp, rfl⟩

/-- What a step of user code leaves. -/
theorem user_left {regs : Reg → KVal} {fregs : Fin 32 → Word} {pc : Word}
    (stepped : h.step mem (.user regs fregs pc) = some (h', mem', obs)) :
    h'.cur = h.cur ∧ h'.fregs = fregs := by
  cases loc : h.loc <;> simp only [step, loc, reduceCtorEq] at stepped
  rw [Option.some.injEq, Prod.mk.injEq] at stepped
  rw [← stepped.1]
  exact ⟨rfl, rfl⟩

/-- A step other than one of user code leaves the floating-point registers alone and is
observed of the context that the hart runs. -/
theorem step_during (stepped : h.step mem event = some (h', mem', obs))
    (notUser : ∀ regs fregs pc, event ≠ .user regs fregs pc) :
    h'.fregs = h.fregs ∧ (h'.cur = h.during event ∨ h'.cur = none) ∧
      ∀ o ∈ obs, h.during event = some o.ctx := by
  cases event with
  | trap cause utval dfreason ticks junk =>
      obtain ⟨fregs, cur, _, u, tp, rfl⟩ := trap_fregs stepped
      refine ⟨fregs, .inl cur, fun o mem => ?_⟩
      obtain ⟨c, isCur, rfl⟩ := List.mem_map.mp mem
      exact Option.mem_toList.mp isCur
  | user regs fregs pc => exact absurd rfl (notUser regs fregs pc)
  | enter | exit | handled | timerReturn =>
      obtain ⟨quiet, _⟩ := step_quiet stepped notUser (by simp)
      exact ⟨quiet.fregs, quiet.cur, quiet.own⟩

end Hart

/-! ## Runs -/

namespace Machine

/-- The floating-point registers of the harts. -/
def floats (m : Machine) (w : Nat) : Fin 32 → Word := (m.harts w).fregs

/-- The side condition of the theorem below: user code changes a floating-point
register only when every other context that trapped last on this hart has exited, a
context that has trapped goes on on the hart where it did, and one that has not is
entered on a hart whose floating-point registers are as they were at the start. -/
def FloatQuiet (initial : Nat → Fin 32 → Word) (m : Machine) : Nat × HartEvent → Prop
  | (w, .user _ fregs _) => fregs = m.floats w ∨
      ∀ c, (m.harts w).cur ≠ some c → m.last c = some w → m.state c = .exited
  | (w, .enter c _) => (∀ v ∈ m.last c, v = w) ∧ (m.last c = none → m.floats w = initial w)
  | _ => True

/-- No hart executes the context in user mode. -/
def Suspended (m : Machine) (c : Tid) : Prop :=
  ∀ v < m.ncore, (m.harts v).cur = some c → ∀ pc, (m.harts v).loc ≠ .user pc

/-- What such a run keeps: a suspended context finds its floating-point registers in
the hart where it trapped. -/
structure FloatsKept (m : Machine) (saved : Tid → Option (Fin 32 → Word)) : Prop where
  last : ∀ c, saved c = none ↔ m.last c = none
  kept : ∀ c f w, saved c = some f → m.last c = some w → m.state c ≠ .exited →
    m.Suspended c → (m.harts w).fregs = f
  home : ∀ v < m.ncore, ∀ c, (m.harts v).cur = some c → ∀ w ∈ m.last c, w = v
  alone : ∀ v < m.ncore, ∀ x < m.ncore, ∀ c, (m.harts v).cur = some c →
    (m.harts x).cur = some c → v = x
  alive : ∀ v < m.ncore, ∀ c, (m.harts v).cur = some c → m.state c ≠ .exited

variable {m m' : Machine} {saved : Tid → Option (Fin 32 → Word)} {w : Nat} {c : Tid}
  {initial : Nat → Fin 32 → Word}
  {event : HartEvent} {h' : Hart} {mem' : Mem Block Label} {obs : List SwitchObs}

theorem record_state (c : Tid) :
    (m.record w event h').state c = m.state c ∨ (m.harts w).cur = some c ∧ h'.cur = none := by
  unfold record
  split
  · exact .inl rfl
  · exact .inl rfl
  · rename_i state junk d cur
    split
    · rename_i left
      by_cases same : c = d
      · subst same
        exact .inr ⟨cur, left⟩
      · exact .inl (Function.update_of_ne same ..)
    · exact .inl rfl
  · exact .inl rfl

theorem record_last
    (notTrap : ∀ cause utval dfreason ticks junk, event ≠ .trap cause utval dfreason ticks junk) :
    (m.record w event h').last = m.last := by
  unfold record
  split
  · rfl
  · exact absurd rfl (notTrap _ _ _ _ _)
  · split <;> rfl
  · rfl

/-- Observations without a trap change nothing of what the monitor remembers. -/
theorem fpu_after (noTrap : ∀ c cause u f tp, .trapped c cause u f tp ∉ obs) :
    fpu.after saved obs = saved := by
  induction obs with
  | nil => rfl
  | cons o rest ih =>
      have same : fpu.next saved o = saved := by
        cases o with
        | trapped c cause u f tp => exact absurd List.mem_cons_self (noTrap c cause u f tp)
        | entered | handled | resumed | left => rfl
      refine Eq.trans ?_ (ih fun c cause u f tp mem =>
        noTrap c cause u f tp (List.mem_cons_of_mem o mem))
      rw [Monitor.after, List.foldl_cons, same]
      rfl

/-- Without a trap the monitor only looks at the resumptions. -/
theorem fpu_accepts (noTrap : ∀ c cause u f tp, .trapped c cause u f tp ∉ obs)
    (resumed : ∀ c u f, .resumed c u f ∈ obs → ∀ old ∈ saved c, f = old) :
    fpu.Accepts saved obs := by
  induction obs with
  | nil => trivial
  | cons o rest ih =>
      have same : fpu.next saved o = saved := by
        cases o with
        | trapped c cause u f tp => exact absurd List.mem_cons_self (noTrap c cause u f tp)
        | entered | handled | resumed | left => rfl
      refine ⟨?_, ?_⟩
      · cases o with
        | resumed c u f => exact resumed c u f List.mem_cons_self
        | entered | handled | trapped | left => trivial
      · rw [same]
        exact ih (fun c cause u f tp mem => noTrap c cause u f tp (List.mem_cons_of_mem o mem))
          fun c u f mem => resumed c u f (List.mem_cons_of_mem o mem)

/-- The context that a hart runs during a step of the runtime is on no other hart, has
not exited, and trapped last on this hart if it ever did. -/
theorem FloatsKept.during (kept : m.FloatsKept saved) (inRange : w < m.ncore)
    (allowed : m.Allows event) (ok : m.FloatQuiet initial (w, event))
    (inRuntime : ∀ pc, (m.harts w).loc ≠ .user pc)
    (runs : (m.harts w).during event = some c) :
    (∀ v < m.ncore, (m.harts v).cur = some c → v = w) ∧ m.state c ≠ .exited ∧
      (∀ v ∈ m.last c, v = w) ∧ m.Suspended c := by
  have onHart : (m.harts w).cur = some c → (∀ v < m.ncore, (m.harts v).cur = some c → v = w) ∧
      m.state c ≠ .exited ∧ (∀ v ∈ m.last c, v = w) ∧ m.Suspended c := by
    intro cur
    have here : ∀ v < m.ncore, (m.harts v).cur = some c → v = w :=
      fun v lt other => kept.alone v lt w inRange c other cur
    refine ⟨here, kept.alive w inRange c cur, kept.home w inRange c cur, ?_⟩
    intro v lt other pc
    rw [here v lt other]
    exact inRuntime pc
  cases event with
  | enter d junk =>
      rw [Hart.during, Option.some.injEq] at runs
      subst runs
      exact ⟨fun v lt cur => absurd cur (allowed.2 v lt), allowed.1, ok.1,
        fun v lt cur => absurd cur (allowed.2 v lt)⟩
  | user | trap | exit | handled | timerReturn => exact onHart runs

/-- A quiet step keeps what the monitor remembers where it is. -/
theorem FloatsKept.quiet (kept : m.FloatsKept saved) (inRange : w < m.ncore)
    (allowed : m.Allows event) (ok : m.FloatQuiet initial (w, event))
    (notTrap : ∀ cause utval dfreason ticks junk, event ≠ .trap cause utval dfreason ticks junk)
    (quiet : Hart.Quiet ((m.harts w).during event) (m.harts w) h' obs)
    (inRuntime : ∀ pc, (m.harts w).loc ≠ .user pc) :
    fpu.Accepts saved obs ∧
      FloatsKept { m.record w event h' with
        harts := Function.update m.harts w h', mem := mem' } (fpu.after saved obs) := by
  have runs := fun c => kept.during (c := c) inRange allowed ok inRuntime
  refine ⟨fpu_accepts quiet.trapped ?_, ?_⟩
  · rintro c u f mem old isSaved
    rw [quiet.resumed c u f mem]
    obtain ⟨_, alive, home, suspended⟩ := runs c (quiet.own _ mem)
    obtain ⟨v, last⟩ := Option.ne_none_iff_exists'.mp
      ((not_congr (kept.last c)).mp (by rw [isSaved]; exact Option.some_ne_none old))
    have here := home v last
    subst here
    exact kept.kept c old v isSaved last alive suspended
  rw [fpu_after quiet.trapped]
  -- The context on each hart after the step.
  have curs : ∀ v d, (Function.update m.harts w h' v).cur = some d →
      v = w ∧ (m.harts w).during event = some d ∧ h'.cur = some d ∨
        v ≠ w ∧ (m.harts v).cur = some d := by
    intro v d cur
    by_cases same : v = w
    · subst same
      rw [Function.update_self] at cur
      rcases quiet.cur with isRun | none
      · exact .inl ⟨rfl, isRun.symm.trans cur, cur⟩
      · rw [none] at cur
        contradiction
    · rw [Function.update_of_ne same] at cur
      exact .inr ⟨same, cur⟩
  constructor
  · intro c
    simp only [record_last notTrap]
    exact kept.last c
  · intro c f v isSaved last alive suspended
    simp only [record_last notTrap] at last
    have before : m.Suspended c := by
      intro x lt cur pc
      by_cases same : x = w
      · rw [same]
        exact inRuntime pc
      · have now := suspended x (by simpa only [record_ncore] using lt)
        simp only [Function.update_of_ne same] at now
        exact now cur pc
    have aliveBefore : m.state c ≠ .exited := by
      rcases record_state c with same | ⟨cur, _⟩
      · rwa [← same]
      · exact kept.alive w inRange c cur
    have found := kept.kept c f v isSaved last aliveBefore before
    by_cases same : v = w
    · subst same
      simp only [Function.update_self]
      rw [quiet.fregs, found]
    · simp only [Function.update_of_ne same]
      exact found
  · intro v lt c cur
    simp only [record_last notTrap]
    rw [record_ncore] at lt
    rcases curs v c cur with ⟨rfl, isRun, _⟩ | ⟨_, curBefore⟩
    · exact (runs c isRun).2.2.1
    · exact kept.home v lt c curBefore
  · intro v ltV x ltX c curV curX
    rw [record_ncore] at ltV ltX
    rcases curs v c curV with ⟨rfl, isRun, _⟩ | ⟨_, beforeV⟩
    · rcases curs x c curX with ⟨rfl, _⟩ | ⟨_, beforeX⟩
      · rfl
      · exact ((runs c isRun).1 x ltX beforeX).symm
    · rcases curs x c curX with ⟨rfl, isRun, _⟩ | ⟨_, beforeX⟩
      · exact (runs c isRun).1 v ltV beforeV
      · exact kept.alone v ltV x ltX c beforeV beforeX
  · intro v lt c cur
    rw [record_ncore] at lt
    have stateNow : (m.record w event h').state c = m.state c ∨
        (m.harts w).cur = some c ∧ h'.cur = none := record_state c
    rcases stateNow with same | ⟨curW, left⟩
    · simp only [same]
      rcases curs v c cur with ⟨rfl, isRun, _⟩ | ⟨_, curV⟩
      · exact (runs c isRun).2.1
      · exact kept.alive v lt c curV
    · rcases curs v c cur with ⟨rfl, _, now⟩ | ⟨ne, curV⟩
      · rw [left] at now
        contradiction
      · exact absurd (kept.alone v lt w inRange c curV curW) ne

theorem update_cur (same : h'.cur = (m.harts w).cur) (v : Nat) :
    (Function.update m.harts w h' v).cur = (m.harts v).cur := by
  by_cases here : v = w
  · subst here
    rw [Function.update_self, same]
  · rw [Function.update_of_ne here]

/-- A context that is not on the hart of a step was suspended before it. -/
theorem Suspended.of_update {m' : Machine} (suspended : m'.Suspended c) (ncore : m'.ncore = m.ncore)
    (harts : m'.harts = Function.update m.harts w h') (elsewhere : (m.harts w).cur ≠ some c) :
    m.Suspended c := by
  intro x lt cur
  have apart : x ≠ w := by
    rintro rfl
    exact elsewhere cur
  have now := suspended x (ncore ▸ lt)
  rw [harts, Function.update_of_ne apart] at now
  exact now cur

/-- User code may change the registers of its hart when nobody else waits for
them. -/
theorem FloatsKept.user (kept : m.FloatsKept saved) (inRange : w < m.ncore)
    {regs : Reg → KVal} {fregs : Fin 32 → Word} {pc : Word}
    (ok : m.FloatQuiet initial (w, .user regs fregs pc))
    (stepped : (m.harts w).step m.mem (.user regs fregs pc) = some (h', mem', obs)) :
    fpu.Accepts saved obs ∧
      FloatsKept { m.record w (.user regs fregs pc) h' with
        harts := Function.update m.harts w h', mem := mem' } (fpu.after saved obs) := by
  cases loc : (m.harts w).loc <;> simp only [Hart.step, loc, reduceCtorEq] at stepped
  rename_i before
  simp only [Option.some.injEq, Prod.mk.injEq] at stepped
  obtain ⟨now, rfl, rfl⟩ := stepped
  have sameCur : h'.cur = (m.harts w).cur := by rw [← now]
  refine ⟨trivial, kept.last, ?_, ?_, ?_, ?_⟩
  · intro c f v isSaved last alive suspended
    -- The context on this hart is not suspended.
    have notHere : (m.harts w).cur ≠ some c := by
      intro cur
      exact suspended w inRange (by simpa [← now] using cur) pc (by simp [← now])
    have found := kept.kept c f v isSaved last alive (suspended.of_update rfl rfl notHere)
    by_cases same : v = w
    · subst same
      simp only [Function.update_self, ← now]
      rcases ok with unchanged | nobody
      · exact unchanged.trans found
      · exact absurd (nobody c notHere last) alive
    · simp only [Function.update_of_ne same]
      exact found
  · intro v lt c cur
    rw [update_cur sameCur] at cur
    exact kept.home v lt c cur
  · intro v ltV x ltX c curV curX
    rw [update_cur sameCur] at curV curX
    exact kept.alone v ltV x ltX c curV curX
  · intro v lt c cur
    rw [update_cur sameCur] at cur
    exact kept.alive v lt c cur

/-- At a trap the registers of the context are those of its hart. -/
theorem FloatsKept.trap (kept : m.FloatsKept saved) (inRange : w < m.ncore)
    {cause utval dfreason ticks : Word} {junk : Reg → KVal}
    (stepped : (m.harts w).step m.mem (.trap cause utval dfreason ticks junk) =
      some (h', mem', obs)) :
    fpu.Accepts saved obs ∧
      FloatsKept { m.record w (.trap cause utval dfreason ticks junk) h' with
        harts := Function.update m.harts w h', mem := mem' } (fpu.after saved obs) := by
  obtain ⟨sameFregs, sameCur, ⟨pc, loc⟩, u, tp, rfl⟩ := Hart.trap_fregs stepped
  have fregsNow : ∀ v, (Function.update m.harts w h' v).fregs = (m.harts v).fregs := by
    intro v
    by_cases here : v = w
    · subst here
      rw [Function.update_self, sameFregs]
    · rw [Function.update_of_ne here]
  cases cur : (m.harts w).cur with
  | none =>
      -- Nobody is observed on this hart.
      have unrecorded : m.record w (.trap cause utval dfreason ticks junk) h' = m := by
        simp only [record, cur]
      rw [unrecorded]
      refine ⟨trivial, kept.last, ?_, ?_, ?_, ?_⟩
      · intro c f v isSaved last alive suspended
        simp only [fregsNow]
        refine kept.kept c f v isSaved last alive (suspended.of_update rfl rfl ?_)
        rw [cur]
        rintro ⟨⟩
      · intro v lt c curV
        rw [update_cur sameCur] at curV
        exact kept.home v lt c curV
      · intro v ltV x ltX c curV curX
        rw [update_cur sameCur] at curV curX
        exact kept.alone v ltV x ltX c curV curX
      · intro v lt c curV
        rw [update_cur sameCur] at curV
        exact kept.alive v lt c curV
  | some d =>
      have recorded : m.record w (.trap cause utval dfreason ticks junk) h' =
          { m with last := Function.update m.last d (some w) } := by
        simp only [record, cur]
      have remembered : fpu.after saved ((some d).toList.map fun c =>
          .trapped c cause u (m.harts w).fregs tp) =
          Function.update saved d (some (m.harts w).fregs) := rfl
      rw [recorded, remembered]
      refine ⟨⟨trivial, trivial⟩, ?_, ?_, ?_, ?_, ?_⟩
      · intro c
        by_cases same : c = d
        · subst same
          simp
        · simp only [Function.update_of_ne same]
          exact kept.last c
      · intro c f v isSaved last alive suspended
        simp only [fregsNow]
        by_cases same : c = d
        · subst same
          simp only [Function.update_self, Option.some.injEq] at last
          subst last
          rw [Function.update_self] at isSaved
          exact Option.some.inj isSaved
        · simp only [Function.update_of_ne same] at last
          rw [Function.update_of_ne same] at isSaved
          refine kept.kept c f v isSaved last alive (suspended.of_update rfl rfl ?_)
          exact fun curW => same (Option.some.inj (curW.symm.trans cur))
      · intro v lt c curV
        rw [update_cur sameCur] at curV
        by_cases same : c = d
        · subst same
          have here := kept.alone v lt w inRange c curV cur
          simp [here]
        · simp only [Function.update_of_ne same]
          exact kept.home v lt c curV
      · intro v ltV x ltX c curV curX
        rw [update_cur sameCur] at curV curX
        exact kept.alone v ltV x ltX c curV curX
      · intro v lt c curV
        rw [update_cur sameCur] at curV
        exact kept.alive v lt c curV

/-- What a step that meets the condition keeps. -/
theorem FloatsKept.step (kept : m.FloatsKept saved) (ok : m.FloatQuiet initial (w, event))
    (stepped : Machine.step m (w, event) = some (m', obs)) :
    fpu.Accepts saved obs ∧ m'.FloatsKept (fpu.after saved obs) := by
  obtain ⟨inRange, allowed, h', mem', hartStep, rfl⟩ := step_cases stepped
  cases event with
  | user regs fregs pc => exact kept.user inRange ok hartStep
  | trap cause utval dfreason ticks junk => exact kept.trap inRange hartStep
  | enter | exit | handled | timerReturn =>
      obtain ⟨quiet, inRuntime⟩ := Hart.step_quiet hartStep (by simp) (by simp)
      exact kept.quiet inRange allowed ok (by simp) quiet inRuntime

/-- Before anybody runs nothing is remembered. -/
theorem FloatsKept.booted {users : Tid → UserState} (booted : m.Booted users)
    (untrapped : ∀ c, m.last c = none) : m.FloatsKept fun _ => none := by
  have idle : ∀ v < m.ncore, (m.harts v).cur = none := fun v lt => (booted.scheds v lt).cur
  refine ⟨by simp [untrapped], by simp, ?_, ?_, ?_⟩
  · intro v lt c cur
    rw [idle v lt] at cur
    contradiction
  · intro v lt x _ c cur
    rw [idle v lt] at cur
    contradiction
  · intro v lt c cur
    rw [idle v lt] at cur
    contradiction

/-- Every context finds its floating-point registers as they were at its last trap, in
every run in which nobody changes them while it waits for them. -/
theorem fpu_accepted {users : Tid → UserState} (booted : m.Booted users)
    (untrapped : ∀ c, m.last c = none) {trace : List SwitchObs}
    (run : Run Machine.step (FloatQuiet initial) m trace m') :
    fpu.Accepts (fun _ => none) trace := by
  refine (run.monitored fpu (fun _ => none) (fun saved m => m.FloatsKept saved)
    (.booted booted untrapped) ?_).1
  rintro saved observed state next ⟨w, event⟩ kept ok stepped
  exact kept.step ok stepped

end Machine

end Lps.Linux

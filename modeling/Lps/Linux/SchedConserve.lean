import Lps.Linux.Sched
import Mathlib.Algebra.Order.BigOperators.Group.Finset

/-!
# Conservation of threads

Every thread that was added and has neither exited nor blocked is in exactly one
place, in every run whose workers never go on stealing with a thread in hand and
never pop the global ring while it is full.
-/

namespace Lps.Linux

open Finset Lps.Transition

/-! ## Counting over the cores -/

section Counting

variable {β : Type} {n w : Nat}

/-- Changing one core changes one summand. -/
theorem sum_update (f : β → Nat) (g : Nat → β) (x : β) (inRange : w < n) :
    ∑ v ∈ range n, f (Function.update g w x v) + f (g w) = ∑ v ∈ range n, f (g v) + f x := by
  have mem : w ∈ range n := mem_range.mpr inRange
  rw [← add_sum_erase _ _ mem, ← add_sum_erase _ (fun v => f (g v)) mem]
  have others : ∑ v ∈ (range n).erase w, f (Function.update g w x v) =
      ∑ v ∈ (range n).erase w, f (g v) :=
    sum_congr rfl fun v other => by rw [Function.update_of_ne (ne_of_mem_erase other)]
  rw [others, Function.update_self]
  omega

/-- One summand is no more than the sum. -/
theorem le_sum_range (f : Nat → Nat) (inRange : w < n) : f w ≤ ∑ v ∈ range n, f v :=
  single_le_sum (fun _ _ => Nat.zero_le _) (mem_range.mpr inRange)

end Counting

namespace MCSched

/-- The side condition of the theorem below: the worker does not steal with a
stolen thread in hand, and does not pop the global ring while it is full. -/
def Careful (s : MCSched) : MCEvent → Prop
  | .step w =>
      match s.workers w with
      | .steal i e => i < s.ncore → i ≠ w → e = none
      | .popGlobal _ => s.grunq.count < QUEUESIZE
      | _ => True
  | .ran _ _ => True

end MCSched

/-- A worker that has seen its own ring empty and has not filled it since. -/
def Worker.Drained : Worker → Prop
  | .countGlobal | .popGlobal _ | .pushLocal _ | .steal _ _ | .left => True
  | _ => False

/-- A worker that knows the global ring to be empty, given what its own ring
holds: it has popped nothing from it, or another worker that has done so has
stolen what it had just pushed. -/
def Worker.SawEmpty (worker : Worker) (own : List Tid) : Prop :=
  match worker with
  | .steal _ _ | .left => True
  | .pushLocal buf => buf = []
  | .popTaken => own = []
  | _ => False

namespace MCSched

variable {added : List Tid} {s s' : MCSched} {w i : Nat} {t : Tid}

/-- What every careful run keeps. -/
structure Conserved (added : List Tid) (s : MCSched) : Prop where
  cores : 0 < s.ncore
  grunq : s.grunq.Represents s.grunq.contents
  grunqCap : s.grunq.cap = QUEUESIZE
  runq : ∀ w < s.ncore, (s.runq w).Represents (s.runq w).contents
  runqCap : ∀ w < s.ncore, (s.runq w).cap = QUEUESIZE
  places : ∀ t, s.places t = if t ∈ added ∧ s.state t = .runnable then 1 else 0
  drained : ∀ w < s.ncore, (s.workers w).Drained → (s.runq w).contents = []
  room : ∀ w < s.ncore,
    (s.runq w).contents.length + (s.workers w).holds.length < QUEUESIZE
  exhausted : ∀ w < s.ncore,
    (s.workers w).SawEmpty (s.runq w).contents → s.grunq.contents = []

/-- A ring of `QUEUESIZE` cells that holds something counts it. -/
theorem counted {q : RingQueue Tid} {elems : List Tid} (represents : q.Represents elems)
    (cap : q.cap = QUEUESIZE) (holds : elems ≠ []) : 0 < q.currentCount.toInt := by
  have pos := List.length_pos_iff.mpr holds
  have le := represents.le_cap
  rw [cap, QUEUESIZE] at le
  rw [RingQueue.currentCount_pos_iff, represents.count]
  omega

/-- Worker `w` moves, and the ring of core `i` changes to one that holds `elems`:
what the ring and the worker hold together stays the same, and another core's
ring is only taken from when the global ring is empty. -/
theorem Conserved.move (conserved : s.Conserved added) (inRange : w < s.ncore)
    (ringInRange : i < s.ncore) {q : RingQueue Tid} {elems : List Tid} {worker : Worker}
    (represents : q.Represents elems) (cap : q.cap = (s.runq i).cap)
    (balance : ∀ t, elems.count t + worker.holds.count t =
      (s.runq i).contents.count t + (s.workers w).holds.count t)
    (other : i ≠ w → elems.length ≤ (s.runq i).contents.length ∧ s.grunq.contents = [])
    (drained : worker.Drained → ((s.setRunq i q).runq w).contents = [])
    (room : ((s.setRunq i q).runq w).contents.length + worker.holds.length < QUEUESIZE)
    (exhausted : worker.SawEmpty ((s.setRunq i q).runq w).contents → s.grunq.contents = []) :
    ((s.setRunq i q).setWorker w worker).Conserved added := by
  have holds := represents.contents_eq
  -- The ring of a core other than `w` holds no more than before.
  have others : ∀ v, v ≠ w → Function.update s.runq i q v = s.runq v ∨
      (v = i ∧ Function.update s.runq i q v = q) := by
    intro v _
    by_cases same : v = i
    · subst same
      exact .inr ⟨rfl, Function.update_self ..⟩
    · exact .inl (Function.update_of_ne same ..)
  refine ⟨conserved.cores, conserved.grunq, conserved.grunqCap, ?_, ?_, ?_, ?_, ?_, ?_⟩
  · intro v lt
    simp only [setWorker, setRunq]
    by_cases same : v = i
    · subst same
      rw [Function.update_self, holds]
      exact represents
    · rw [Function.update_of_ne same]
      exact conserved.runq v lt
  · intro v lt
    simp only [setWorker, setRunq]
    by_cases same : v = i
    · subst same
      rw [Function.update_self, cap]
      exact conserved.runqCap v lt
    · rw [Function.update_of_ne same]
      exact conserved.runqCap v lt
  · intro t
    have rings := sum_update (fun q : RingQueue Tid => q.contents.count t) s.runq q ringInRange
    have hands := sum_update (fun x : Worker => x.holds.count t) s.workers worker inRange
    have same := balance t
    have kept : ((s.setRunq i q).setWorker w worker).places t = s.places t := by
      simp only [MCSched.places, setWorker, setRunq, holds] at rings hands ⊢
      omega
    exact kept.trans (conserved.places t)
  · intro v lt isDrained
    by_cases same : v = w
    · subst same
      simp only [setWorker, Function.update_self] at isDrained
      exact drained isDrained
    · simp only [setWorker, Function.update_of_ne same] at isDrained
      have empty := conserved.drained v lt isDrained
      simp only [setWorker, setRunq]
      rcases others v same with keeps | ⟨rfl, changed⟩
      · rw [keeps]
        exact empty
      · rw [changed, holds]
        have shorter := (other same).1
        rw [empty] at shorter
        exact List.eq_nil_of_length_eq_zero (Nat.le_zero.mp shorter)
  · intro v lt
    by_cases same : v = w
    · subst same
      simpa only [setWorker, Function.update_self] using room
    · have fits := conserved.room v lt
      simp only [setWorker, setRunq, Function.update_of_ne same]
      rcases others v same with keeps | ⟨rfl, changed⟩
      · rw [keeps]
        exact fits
      · rw [changed, holds]
        have shorter := (other same).1
        omega
  · intro v lt saw
    by_cases same : v = w
    · subst same
      simp only [setWorker, Function.update_self] at saw
      exact exhausted saw
    · simp only [setWorker, setRunq, Function.update_of_ne same] at saw
      rcases others v same with keeps | ⟨rfl, _⟩
      · rw [keeps] at saw
        exact conserved.exhausted v lt saw
      · exact (other same).2

/-- Worker `w` moves without touching a ring. -/
theorem Conserved.moveWorker (conserved : s.Conserved added) (inRange : w < s.ncore)
    {worker : Worker} (holds : ∀ t, worker.holds.count t = (s.workers w).holds.count t)
    (length : worker.holds.length = (s.workers w).holds.length)
    (drained : worker.Drained → (s.runq w).contents = [])
    (exhausted : worker.SawEmpty (s.runq w).contents → s.grunq.contents = []) :
    (s.setWorker w worker).Conserved added := by
  have same : s.setRunq w (s.runq w) = s := by
    simp only [setRunq, Function.update_eq_self]
  have moved := @Conserved.move _ _ _ _ conserved inRange inRange _ _ worker
    (conserved.runq w inRange) rfl (fun t => by rw [holds t]) (fun ne => absurd rfl ne)
  rw [same] at moved
  refine moved drained ?_ exhausted
  rw [length]
  exact conserved.room w inRange

/-- Worker `w` takes a batch from the global ring. -/
theorem Conserved.takeGlobal (conserved : s.Conserved added) (inRange : w < s.ncore)
    {read count : Nat} (atPop : s.workers w = .popGlobal read)
    (notFull : s.grunq.contents.length < QUEUESIZE) {q : RingQueue Tid} {worker : Worker}
    (represents : q.Represents (s.grunq.contents.drop (count + 1))) (cap : q.cap = s.grunq.cap)
    (moved : worker = if s.grunq.contents.take (count + 1) = [] then .steal 0 none
      else .pushLocal (s.grunq.contents.take (count + 1))) :
    (MCSched.setWorker { s with grunq := q } w worker).Conserved added := by
  have holds := represents.contents_eq
  have ownEmpty := conserved.drained w inRange (by rw [atPop]; trivial)
  have inHands : worker.holds = s.grunq.contents.take (count + 1) := by
    rw [moved]
    split
    · rename_i nothing
      rw [nothing]
      rfl
    · rfl
  refine ⟨conserved.cores, ?_, cap.trans conserved.grunqCap, conserved.runq, conserved.runqCap,
    ?_, ?_, ?_, ?_⟩
  · simp only [setWorker, holds]
    exact represents
  · intro t
    have hands := sum_update (fun x : Worker => x.holds.count t) s.workers worker inRange
    have before : (s.workers w).holds.count t = 0 := by simp [atPop, Worker.holds]
    have split : s.grunq.contents.count t =
        (s.grunq.contents.take (count + 1)).count t +
          (s.grunq.contents.drop (count + 1)).count t := by
      rw [← List.count_append, List.take_append_drop]
    have kept : (MCSched.setWorker { s with grunq := q } w worker).places t = s.places t := by
      simp only [MCSched.places, setWorker, holds, inHands] at hands ⊢
      omega
    exact kept.trans (conserved.places t)
  · intro v lt isDrained
    by_cases same : v = w
    · subst same
      exact ownEmpty
    · simp only [setWorker, Function.update_of_ne same] at isDrained
      exact conserved.drained v lt isDrained
  · intro v lt
    by_cases same : v = w
    · subst same
      simp only [setWorker, Function.update_self, inHands, ownEmpty, List.length_nil,
        List.length_take]
      omega
    · simp only [setWorker, Function.update_of_ne same]
      exact conserved.room v lt
  · intro v lt saw
    simp only [setWorker, holds]
    by_cases same : v = w
    · subst same
      simp only [setWorker, Function.update_self, moved] at saw
      split at saw
      · rename_i nothing
        rw [List.take_eq_nil_iff] at nothing
        rw [nothing.resolve_left (by simp), List.drop_nil]
      · rename_i something
        exact absurd saw something
    · simp only [setWorker, Function.update_of_ne same] at saw
      rw [conserved.exhausted v lt saw, List.drop_nil]

/-- The thread that worker `w` runs comes back. -/
theorem Conserved.comesBack (conserved : s.Conserved added) (inRange : w < s.ncore)
    (running : s.workers w = .run t) {state : LPSThreadState} {worker : Worker}
    (moved : worker = if state = .runnable then .pushBack t else .popLocal) :
    ((s.setState t state).setWorker w worker).Conserved added := by
  -- The thread is in the worker's hands, so it is one that counts.
  have own : s.places t = 1 ∧ t ∈ added := by
    have hand := le_sum_range (fun v => (s.workers v).holds.count t) inRange
    have places := conserved.places t
    have one : (s.workers w).holds.count t = 1 := by simp [running, Worker.holds]
    have pos : 1 ≤ s.places t := by
      rw [MCSched.places]
      omega
    split at places
    · rename_i alive
      exact ⟨places, alive.1⟩
    · omega
  have inHands : worker.holds = if state = .runnable then [t] else [] := by
    rw [moved]
    split <;> rfl
  have notDrained : ¬worker.Drained := by
    rw [moved]
    split <;> exact id
  have notSaw : ∀ elems, ¬worker.SawEmpty elems := by
    intro elems
    rw [moved]
    split <;> exact id
  refine ⟨conserved.cores, conserved.grunq, conserved.grunqCap, conserved.runq,
    conserved.runqCap, ?_, ?_, ?_, ?_⟩
  · intro u
    have hands := sum_update (fun x : Worker => x.holds.count u) s.workers worker inRange
    have before : (s.workers w).holds.count u = [t].count u := by rw [running]; rfl
    have balance : ((s.setState t state).setWorker w worker).places u + [t].count u =
        s.places u + worker.holds.count u := by
      simp only [MCSched.places, setWorker, setState] at hands ⊢
      omega
    by_cases same : u = t
    · subst same
      have now : ((s.setState u state).setWorker w worker).state u = state := by
        simp [setWorker, setState]
      rw [List.count_singleton_self, inHands] at balance
      rw [now]
      by_cases isRunnable : state = .runnable
      · rw [if_pos isRunnable, List.count_singleton_self] at balance
        rw [if_pos ⟨own.2, isRunnable⟩]
        omega
      · rw [if_neg isRunnable, List.count_nil] at balance
        rw [if_neg fun alive => isRunnable alive.2]
        omega
    · have zero : [t].count u = 0 := by simp [Ne.symm same]
      have none : worker.holds.count u = 0 := by
        rw [inHands]
        split <;> simp [Ne.symm same]
      rw [zero, none, Nat.add_zero, Nat.add_zero] at balance
      rw [balance, conserved.places u]
      simp [setWorker, setState, Function.update_of_ne same]
  · intro v lt isDrained
    by_cases same : v = w
    · subst same
      simp only [setWorker, Function.update_self] at isDrained
      exact absurd isDrained notDrained
    · simp only [setWorker, setState, Function.update_of_ne same] at isDrained ⊢
      exact conserved.drained v lt isDrained
  · intro v lt
    have fits := conserved.room v lt
    by_cases same : v = w
    · subst same
      rw [running] at fits
      simp only [Worker.holds, List.length_singleton] at fits
      simp only [setWorker, setState, Function.update_self, inHands]
      split <;> simp only [List.length_singleton, List.length_nil] <;> omega
    · simp only [setWorker, setState, Function.update_of_ne same]
      exact fits
  · intro v lt saw
    by_cases same : v = w
    · subst same
      simp only [setWorker, Function.update_self] at saw
      exact absurd saw (notSaw _)
    · simp only [setWorker, setState, Function.update_of_ne same] at saw ⊢
      exact conserved.exhausted v lt saw

/-- Worker `w` pops from its own ring with nothing in hand, and goes on with
`otherwise` when there is nothing. -/
theorem Conserved.popOwn (conserved : s.Conserved added) (inRange : w < s.ncore)
    (idle : (s.workers w).holds = []) {otherwise : Worker} (nothing : otherwise.holds = [])
    (exhausted : (s.runq w).contents = [] → s.grunq.contents = [] ∨ ¬otherwise.SawEmpty []) :
    ((s.setRunq w (ringPopOne (s.runq w)).2).setWorker w
      (runOr otherwise (ringPopOne (s.runq w)).1)).Conserved added := by
  have represents := conserved.runq w inRange
  have fits := conserved.room w inRange
  have own : ∀ q, (s.setRunq w q).runq w = q := fun q => Function.update_self ..
  cases shape : (s.runq w).contents with
  | nil =>
      rw [shape] at represents
      have popped := represents.popOne_nil
      have after : (ringPopOne (s.runq w)).2.Represents [] := by rwa [popped]
      refine conserved.move inRange inRange after ringPopOne_cap ?_ (fun ne => absurd rfl ne) ?_ ?_ ?_
      · intro t
        rw [popped, idle, shape, runOr, nothing]
      · intro _
        rw [own, popped, shape]
      · rw [own, popped, runOr, nothing, shape]
        simp [QUEUESIZE]
      · intro saw
        rw [own, popped, shape] at saw
        exact (exhausted shape).resolve_right (not_not.mpr saw)
  | cons t rest =>
      rw [shape] at represents fits
      obtain ⟨front, after⟩ := represents.popOne_cons
        (counted represents (conserved.runqCap w inRange) (by simp))
      rw [front, runOr]
      refine conserved.move inRange inRange after ringPopOne_cap ?_ (fun ne => absurd rfl ne) ?_ ?_ ?_
      · intro u
        rw [idle, shape, Worker.holds, List.count_nil, ← List.count_append, Nat.add_zero]
        exact (List.perm_append_singleton t rest).count_eq u
      · exact False.elim
      · rw [own, after.contents_eq, Worker.holds]
        simp only [List.length_cons, List.length_nil] at fits ⊢
        omega
      · exact False.elim

/-- Worker `w` pushes what it has in hand to its own ring. -/
theorem Conserved.pushOwn (conserved : s.Conserved added) (inRange : w < s.ncore)
    {q : RingQueue Tid} (represents : q.Represents ((s.runq w).contents ++ (s.workers w).holds))
    (cap : q.cap = (s.runq w).cap) {worker : Worker} (nothing : worker.holds = [])
    (notDrained : ¬worker.Drained)
    (exhausted : worker.SawEmpty ((s.runq w).contents ++ (s.workers w).holds) →
      s.grunq.contents = []) :
    ((s.setRunq w q).setWorker w worker).Conserved added := by
  have own : ((s.setRunq w q).runq w).contents =
      (s.runq w).contents ++ (s.workers w).holds := by
    rw [← represents.contents_eq]
    exact congrArg RingQueue.contents (Function.update_self ..)
  refine conserved.move inRange inRange represents cap ?_ (fun ne => absurd rfl ne)
    (fun isDrained => absurd isDrained notDrained) ?_ ?_
  · intro t
    rw [nothing, List.count_nil, List.count_append, Nat.add_zero]
  · rw [own, nothing, List.length_append, List.length_nil]
    exact conserved.room w inRange
  · rw [own]
    exact exhausted

/-- Worker `w` steals from core `i` with nothing in hand. -/
theorem Conserved.stealFrom (conserved : s.Conserved added) (inRange : w < s.ncore)
    (ringInRange : i < s.ncore) (other : i ≠ w) (stealing : s.workers w = .steal i none) :
    ((s.setRunq i (ringPopBack (s.runq i)).2).setWorker w
      (.steal (i + 1) (ringPopBack (s.runq i)).1)).Conserved added := by
  have ownEmpty := conserved.drained w inRange (by rw [stealing]; trivial)
  have globalEmpty := conserved.exhausted w inRange (by rw [stealing]; trivial)
  have represents := conserved.runq i ringInRange
  have own : ∀ q, (s.setRunq i q).runq w = s.runq w :=
    fun q => Function.update_of_ne (Ne.symm other) ..
  have hands : (s.workers w).holds = [] := by rw [stealing]; rfl
  rcases List.eq_nil_or_concat (s.runq i).contents with shape | ⟨rest, t, shape⟩
  · rw [shape] at represents
    have popped := represents.popBack_nil
    have after : (ringPopBack (s.runq i)).2.Represents [] := by rwa [popped]
    refine conserved.move inRange ringInRange after ringPopBack_cap ?_ ?_ ?_ ?_ ?_
    · intro t
      rw [popped, shape, hands]
      rfl
    · exact fun _ => ⟨Nat.zero_le _, globalEmpty⟩
    · intro _
      rw [own, ownEmpty]
    · rw [own, ownEmpty, popped]
      simp [Worker.holds, QUEUESIZE]
    · exact fun _ => globalEmpty
  · rw [List.concat_eq_append] at shape
    rw [shape] at represents
    obtain ⟨back, after⟩ := represents.popBack_concat
      (counted represents (conserved.runqCap i ringInRange) (by simp))
    rw [back]
    refine conserved.move inRange ringInRange after ringPopBack_cap ?_ ?_ ?_ ?_ ?_
    · intro u
      rw [hands, shape, List.count_append, List.count_nil, Worker.holds, Option.toList,
        Nat.add_zero]
    · intro _
      rw [shape, List.length_append]
      exact ⟨Nat.le_add_right .., globalEmpty⟩
    · intro _
      rw [own, ownEmpty]
    · rw [own, ownEmpty]
      simp [Worker.holds, QUEUESIZE]
    · exact fun _ => globalEmpty

/-- What a careful step of a worker keeps, one case for each place in
`mcsched_loop`. -/
theorem Conserved.workerStep (conserved : s.Conserved added) (inRange : w < s.ncore)
    (careful : s.Careful (.step w)) (stepped : s.workerStep w = some s') :
    s'.Conserved added := by
  have fits := conserved.room w inRange
  have cap := conserved.runqCap w inRange
  cases place : s.workers w with
  | popLocal =>
      simp only [MCSched.workerStep, place, Option.some.injEq] at stepped
      subst stepped
      exact conserved.popOwn inRange (by rw [place]; rfl) rfl fun _ => .inr id
  | countGlobal =>
      simp only [MCSched.workerStep, place, Option.some.injEq] at stepped
      subst stepped
      refine conserved.moveWorker inRange (fun t => ?_) ?_ (fun _ => ?_) False.elim
      · rw [place]
        rfl
      · rw [place]
        rfl
      · exact conserved.drained w inRange (by rw [place]; trivial)
  | popGlobal read =>
      simp only [MCSched.Careful, place] at careful
      have notFull : s.grunq.contents.length < QUEUESIZE := by
        rwa [← conserved.grunq.count]
      obtain ⟨taken, after⟩ := conserved.grunq.pop (by rwa [conserved.grunqCap])
        (read / s.ncore + 1)
      simp only [MCSched.workerStep, place, taken, Option.some.injEq] at stepped
      subst stepped
      exact conserved.takeGlobal inRange place notFull after ringPop_cap rfl
  | pushLocal buf =>
      rw [place] at fits
      have all : (s.runq w).contents.length + buf.length < (s.runq w).cap := by rwa [cap]
      obtain ⟨pushed, after⟩ := (conserved.runq w inRange).push_all all
      simp only [MCSched.workerStep, place, pushed, if_true, Option.some.injEq] at stepped
      subst stepped
      refine conserved.pushOwn inRange (by rw [place]; exact after) ringPush_cap rfl id ?_
      intro nothing
      refine conserved.exhausted w inRange ?_
      rw [place] at nothing ⊢
      exact (List.append_eq_nil_iff.mp nothing).2
  | popTaken =>
      simp only [MCSched.workerStep, place, Option.some.injEq] at stepped
      subst stepped
      refine conserved.popOwn inRange (by rw [place]; rfl) rfl fun empty => .inl ?_
      exact conserved.exhausted w inRange (by rw [place]; exact empty)
  | steal i e =>
      have drained := conserved.drained w inRange (by rw [place]; trivial)
      have exhausted := conserved.exhausted w inRange (by rw [place]; trivial)
      simp only [MCSched.Careful, place] at careful
      simp only [MCSched.workerStep, place] at stepped
      by_cases more : i < s.ncore
      · rw [if_pos more] at stepped
        by_cases same : i = w
        · rw [if_pos same, Option.some.injEq] at stepped
          subst stepped
          refine conserved.moveWorker inRange (fun t => ?_) ?_ (fun _ => drained)
            fun _ => exhausted
          · rw [place]
            rfl
          · rw [place]
            rfl
        · rw [if_neg same, Option.some.injEq] at stepped
          subst stepped
          rw [careful more same] at place
          exact conserved.stealFrom inRange more same place
      · rw [if_neg more, Option.some.injEq] at stepped
        subst stepped
        cases e with
        | none =>
            refine conserved.moveWorker inRange (fun t => ?_) ?_ (fun _ => drained)
              fun _ => exhausted
            · rw [place]
              rfl
            · rw [place]
              rfl
        | some t =>
            refine conserved.moveWorker inRange (fun u => ?_) ?_ False.elim False.elim
            · rw [place]
              rfl
            · rw [place]
              rfl
  | run t => simp [MCSched.workerStep, place] at stepped
  | pushBack t =>
      rw [place] at fits
      obtain ⟨_, after⟩ := (conserved.runq w inRange).pushOne
        (by rw [cap]; exact Nat.lt_of_succ_lt fits) (by simp only [QUEUESIZE] at fits; omega) t
      simp only [MCSched.workerStep, place, Option.some.injEq] at stepped
      subst stepped
      exact conserved.pushOwn inRange (by rw [place]; exact after) ringPushOne_cap rfl id
        False.elim
  | left => simp [MCSched.workerStep, place] at stepped

/-- What a careful step of the system keeps. -/
theorem Conserved.step {event : MCEvent} {observed : List Empty}
    (conserved : s.Conserved added) (careful : s.Careful event)
    (stepped : MCSched.step s event = some (s', observed)) : s'.Conserved added := by
  cases event with
  | step w =>
      simp only [MCSched.step] at stepped
      by_cases inRange : w < s.ncore
      · rw [if_pos inRange, Option.map_eq_some_iff] at stepped
        obtain ⟨next, worked, pair⟩ := stepped
        rw [Prod.mk.injEq] at pair
        rw [← pair.1]
        exact conserved.workerStep inRange careful worked
      · simp [inRange] at stepped
  | ran w state =>
      simp only [MCSched.step] at stepped
      by_cases inRange : w < s.ncore
      · rw [if_pos inRange, Option.map_eq_some_iff] at stepped
        obtain ⟨next, came, pair⟩ := stepped
        rw [Prod.mk.injEq] at pair
        rw [← pair.1]
        rw [MCSched.ran] at came
        split at came
        · rename_i t running
          rw [Option.some.injEq] at came
          rw [← came]
          exact conserved.comesBack inRange running rfl
        · contradiction
      · simp [inRange] at stepped

end MCSched

/-! ## The threads that were added -/

/-- Threads that `mcsched_add` accepts are appended to the global ring, and nothing
else changes. -/
theorem mcschedAddAll_spec (ts : List Tid) (s : MCSched) {elems : List Tid}
    (represents : s.grunq.Represents elems) (queueSize : s.grunq.cap = QUEUESIZE) :
    ∃ q, (mcschedAddAll s ts).2 = { s with grunq := q } ∧ q.cap = s.grunq.cap ∧
      q.Represents (elems ++ (mcschedAddAll s ts).1) ∧ (mcschedAddAll s ts).1.Sublist ts := by
  induction ts generalizing s elems with
  | nil => exact ⟨s.grunq, rfl, rfl, by simpa [mcschedAddAll] using represents, .slnil⟩
  | cons t ts ih =>
      by_cases room : elems.length < s.grunq.cap
      · have small : elems.length < 1024 := by rwa [queueSize] at room
        obtain ⟨pushed, after⟩ := represents.pushOne room (by omega) t
        obtain ⟨q, same, cap, represents, sublist⟩ := ih (mcschedAdd s t).2 after
          (ringPushOne_cap.trans queueSize)
        have accepted : (mcschedAdd s t).1 = true := pushed
        simp only [mcschedAddAll, accepted, if_true]
        refine ⟨q, same, cap.trans ringPushOne_cap, ?_, sublist.cons_cons t⟩
        rwa [List.append_assoc] at represents
      · have full : elems.length = s.grunq.cap :=
          Nat.le_antisymm represents.le_cap (Nat.le_of_not_lt room)
        have refused : mcschedAdd s t = (false, s) := by
          rw [mcschedAdd, represents.pushOne_full full t]
        obtain ⟨q, same, cap, represents, sublist⟩ := ih s represents queueSize
        simp only [mcschedAddAll, refused]
        exact ⟨q, same, cap, represents, sublist.cons t⟩

namespace MCSched

/-- Every added thread is in the global ring when the workers start. -/
theorem conserved_init {ncore : Nat} {ts : List Tid} (nodup : ts.Nodup) :
    (mcschedAddAll (mcschedInit ncore) ts).2.Conserved
      (mcschedAddAll (mcschedInit ncore) ts).1 := by
  have empty : (ringCreate 0 QUEUESIZE : RingQueue Tid).Represents [] :=
    ringCreate_represents (by decide)
  obtain ⟨q, same, cap, represents, sublist⟩ :=
    mcschedAddAll_spec ts (mcschedInit ncore) empty rfl
  rw [List.nil_append] at represents
  generalize (mcschedAddAll (mcschedInit ncore) ts).1 = added at represents sublist ⊢
  rw [same]
  have own : ∀ w, ((mcschedInit ncore).runq w).contents = [] := fun _ => empty.contents_eq
  refine ⟨?_, ?_, cap, ?_, fun _ _ => rfl, ?_, ?_, ?_, ?_⟩
  · simp only [mcschedInit]
    split <;> omega
  · rwa [represents.contents_eq]
  · exact fun w _ => (own w).symm ▸ empty
  · intro t
    have rings : ∑ w ∈ range (mcschedInit ncore).ncore,
        ((mcschedInit ncore).runq w).contents.count t = 0 :=
      sum_eq_zero fun w _ => by rw [own w, List.count_nil]
    have hands : ∑ w ∈ range (mcschedInit ncore).ncore,
        ((mcschedInit ncore).workers w).holds.count t = 0 :=
      sum_eq_zero fun _ _ => rfl
    have all : MCSched.places { mcschedInit ncore with grunq := q } t = added.count t := by
      rw [MCSched.places, rings, hands, represents.contents_eq, Nat.add_zero]
    rw [all]
    by_cases mem : t ∈ added
    · rw [if_pos ⟨mem, rfl⟩]
      exact List.count_eq_one_of_mem (sublist.nodup nodup) mem
    · rw [if_neg fun alive => mem alive.1]
      exact List.count_eq_zero.mpr mem
  · exact fun w _ _ => own w
  · intro w _
    simp only [mcschedInit, Worker.holds]
    decide
  · exact fun w _ saw => saw.elim

end MCSched

/-! ## Runs -/

namespace MCSched

variable {added : List Tid} {s : MCSched} {t : Tid}

/-- When every worker has left, nothing is left anywhere. -/
theorem Conserved.all_left (conserved : s.Conserved added)
    (left : ∀ w < s.ncore, s.workers w = .left) (t : Tid) : s.places t = 0 := by
  have grunq := conserved.exhausted 0 conserved.cores
    (by rw [left 0 conserved.cores]; trivial)
  have rings : ∑ w ∈ range s.ncore, (s.runq w).contents.count t = 0 := by
    refine sum_eq_zero fun w mem => ?_
    have inRange := mem_range.mp mem
    rw [conserved.drained w inRange (by rw [left w inRange]; trivial), List.count_nil]
  have hands : ∑ w ∈ range s.ncore, (s.workers w).holds.count t = 0 := by
    refine sum_eq_zero fun w mem => ?_
    rw [left w (mem_range.mp mem)]
    rfl
  rw [MCSched.places, grunq, rings, hands, List.count_nil]

/-- With ring operations as a whole, the next step of a worker that has not left is
enabled; in particular the assertion on `ring_push` holds. -/
theorem Conserved.enabled (conserved : s.Conserved added) {w : Nat} (inRange : w < s.ncore)
    (stays : s.workers w ≠ .left) :
    ∃ event s', MCSched.step s event = some (s', []) := by
  have ofStep : ∀ {s'}, s.workerStep w = some s' →
      ∃ event s', MCSched.step s event = some (s', []) :=
    fun {s'} worked => ⟨.step w, s', by simp [MCSched.step, inRange, worked]⟩
  cases place : s.workers w with
  | pushLocal buf =>
      have fits := conserved.room w inRange
      rw [place, ← conserved.runqCap w inRange] at fits
      have all : (s.runq w).contents.length + buf.length < (s.runq w).cap := fits
      have pushed := ((conserved.runq w inRange).push_all all).1
      exact ofStep (by simp only [MCSched.workerStep, place]; rw [if_pos pushed])
  | run t =>
      exact ⟨.ran w .exited, _, by simp [MCSched.step, MCSched.ran, inRange, place]; rfl⟩
  | left => exact absurd place stays
  | steal i e =>
      by_cases more : i < s.ncore
      · by_cases same : i = w
        · exact ofStep (by simp only [MCSched.workerStep, place, if_pos more, if_pos same]; rfl)
        · exact ofStep (by simp only [MCSched.workerStep, place, if_pos more, if_neg same]; rfl)
      · exact ofStep (by simp only [MCSched.workerStep, place, if_neg more]; rfl)
  | popLocal => exact ofStep (by simp only [MCSched.workerStep, place]; rfl)
  | countGlobal => exact ofStep (by simp only [MCSched.workerStep, place]; rfl)
  | popGlobal read => exact ofStep (by simp only [MCSched.workerStep, place]; rfl)
  | popTaken => exact ofStep (by simp only [MCSched.workerStep, place]; rfl)
  | pushBack t => exact ofStep (by simp only [MCSched.workerStep, place]; rfl)

/-- A worker takes a full global ring for an empty one and goes stealing. -/
theorem popGlobal_full {w read : Nat} {elems : List Tid} (represents : s.grunq.Represents elems)
    (full : elems.length = s.grunq.cap) (place : s.workers w = .popGlobal read) :
    s.workerStep w = some (s.setWorker w (.steal 0 none)) := by
  simp only [workerStep, place, represents.pop_full full, if_true]

/-- No added thread is lost or duplicated: while it neither exits nor blocks it is
in exactly one place, and no such thread remains once every worker has left. -/
def NoneLost (added : List Tid) (s : MCSched) : Prop :=
  (∀ t ∈ added, s.state t = .runnable → s.places t = 1) ∧
    ((∀ w < s.ncore, s.workers w = .left) → ∀ t ∈ added, s.state t ≠ .runnable)

theorem Conserved.noneLost (conserved : s.Conserved added) : s.NoneLost added := by
  refine ⟨fun t mem alive => ?_, fun left t mem alive => ?_⟩
  · rw [conserved.places t, if_pos ⟨mem, alive⟩]
  · have one := conserved.places t
    rw [if_pos ⟨mem, alive⟩, conserved.all_left left t] at one
    contradiction

/-- No task is lost or duplicated in a run of any number of cores whose workers
never steal with a stolen thread in hand and never pop the global ring while it
is full. -/
theorem careful_run_loses_none {ncore : Nat} {ts : List Tid} (nodup : ts.Nodup)
    {s : MCSched} {trace : List Empty}
    (run : Run step Careful (mcschedAddAll (mcschedInit ncore) ts).2 trace s) :
    s.NoneLost (mcschedAddAll (mcschedInit ncore) ts).1 := by
  have conserved := run.stateInvariant
    (fun s => s.Conserved (mcschedAddAll (mcschedInit ncore) ts).1)
    (conserved_init nodup) fun conserved careful stepped => conserved.step careful stepped
  exact conserved.noneLost

instance decidableCareful (s : MCSched) : (event : MCEvent) → Decidable (s.Careful event)
  | .step w =>
      match h : s.workers w with
      | .steal i e =>
          decidable_of_iff (i < s.ncore → i ≠ w → e = none) (by simp only [Careful, h])
      | .popGlobal _ => decidable_of_iff (s.grunq.count < QUEUESIZE) (by simp only [Careful, h])
      | .popLocal | .countGlobal | .pushLocal _ | .popTaken | .run _ | .pushBack _ | .left =>
          .isTrue (by simp only [Careful, h])
  | .ran _ _ => .isTrue trivial

/-- On two cores worker 0 takes thread 7, which yields, and worker 1 steals it. -/
theorem careful_run_loses_none_one_steal :
    ∃ s : MCSched, s.workers 1 = .run 7 ∧ s.NoneLost [7] := by
  have seen : (exec (guarded step Careful) (mcschedAddAll (mcschedInit 2) [7]).2
      [.step 0, .step 0, .step 0, .step 0, .step 0, .ran 0 .runnable, .step 1, .step 1, .step 0,
        .step 1, .step 1, .step 1, .step 1]).map (fun out => (out.1.workers 1, out.2)) =
      some (.run 7, []) := by decide +kernel
  obtain ⟨⟨s, trace⟩, executed, pair⟩ := Option.map_eq_some_iff.mp seen
  exact ⟨s, (Prod.mk.inj pair).1,
    careful_run_loses_none (by decide) (run_of_exec_guarded executed)⟩

/-- Worker 1 of three steals thread 7 from core 0; the next iteration of its
loop overwrites it with what core 2 has, which is nothing. -/
theorem stolen_thread_lost :
    ¬∀ (ncore : Nat) (ts : List Tid) (s : MCSched) (trace : List Empty),
      1 ≤ ncore → ncore ≤ MAX_CORES → ts.Nodup →
      Run step (Always MCSched MCEvent) (mcschedAddAll (mcschedInit ncore) ts).2 trace s →
      s.NoneLost (mcschedAddAll (mcschedInit ncore) ts).1 := by
  intro claim
  have seen : (exec step (mcschedAddAll (mcschedInit 3) [7]).2
      [.step 0, .step 0, .step 0, .step 0, .step 1, .step 1, .step 1, .step 1, .step 1, .step 1,
        .step 1]).map (fun out => (out.1.state 7, out.1.places 7, out.2)) =
      some (.runnable, 0, []) := by decide +kernel
  obtain ⟨⟨s, trace⟩, executed, pair⟩ := Option.map_eq_some_iff.mp seen
  simp only [Prod.mk.injEq] at pair
  have kept := (claim 3 [7] s trace (by decide) (by decide) (by decide)
    (run_of_exec executed)).1 7 (by decide) pair.1
  rw [pair.2.1] at kept
  contradiction

end MCSched

end Lps.Linux

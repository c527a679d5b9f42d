import Lps.Linux.RingLocks
import Lps.Program.Atomic

/-!
# The ring shared by the workers

`ring_push_one`, `ring_push`, `ring_pop` and `ring_count` are all that is called on the global ring.  Whoever
changes the ring in one of them holds `tlock`, and the counter, which is read without it, changes once in a
call: the calls are atomic, in whatever order the workers make their steps.
-/

namespace Lps.Linux

open Lps.Program Lps.Transition

variable {α β : Type}

/-- The calls that lock the tail before they change the ring. -/
def RingCall.Shared : RingCall α → Prop
  | .pushOne _ | .push _ | .pop _ | .count => True
  | .popOne | .popBack => False

/-- What is read without a mutex. -/
def RingQueue.counter (q : RingQueue α) : Nat := q.count

abbrev RingProg.Approaching (cap : Nat) (spec : RingQueue α → β × RingQueue α) (p : RingProg α β) : Prop :=
  Prog.Approaching ringAnswer RingQueue.counter (fun q => q.cap = cap) RingMutex.tlock spec p

abbrev RingProg.Working (effect : β × RingQueue α) (seen : Nat) (p : RingProg α β) (q : RingQueue α) : Prop :=
  Prog.Working ringAnswer RingQueue.counter RingMutex.tlock effect seen p q

section Stages

variable {cap : Nat} {val : α} {elems : List α}

abbrev RingProg.Quiet (p : RingProg α β) : Prop :=
  p.Meets (Prog.quiet ringAnswer RingQueue.counter) fun _ => True

theorem data_quiet {c : RingOp α} (still : ∀ q : RingQueue α, (ringAnswer c q).2.count = q.count) :
    RingProg.Quiet (data c : RingProg α c.Reply) :=
  ⟨⟨c, rfl, still⟩, fun _ _ => trivial⟩

theorem putTail_quiet : RingProg.Quiet (putTail cap val) := by
  simp only [RingProg.Quiet, putTail, Prog.meets_bind]
  exact (data_quiet fun _ => rfl).mono fun _ _ => (data_quiet fun _ => rfl).mono fun _ _ =>
    (data_quiet fun _ => rfl).mono fun _ _ => data_quiet fun _ => rfl

theorem takeHead_quiet : RingProg.Quiet (takeHead cap : RingProg α α) := by
  simp only [RingProg.Quiet, takeHead, Prog.meets_bind]
  exact (data_quiet fun _ => rfl).mono fun _ _ => (data_quiet fun _ => rfl).mono fun _ _ =>
    (data_quiet fun _ => rfl).mono fun _ _ => (data_quiet fun _ => rfl).mono fun _ _ => trivial

theorem pushLoop_quiet : RingProg.Quiet (pushLoop cap elems) := by
  induction elems with
  | nil => trivial
  | cons val rest ih =>
      rw [RingProg.Quiet, pushLoop, Prog.meets_bind]
      apply putTail_quiet.mono
      intro _ _
      split
      · trivial
      · rw [Prog.meets_bind]
        apply (data_quiet fun _ => rfl).mono
        intro tail _
        rw [Prog.meets_bind]
        apply (data_quiet fun _ => rfl).mono
        intro head _
        split
        · trivial
        · rw [Prog.meets_bind]
          exact ih.mono fun _ _ => trivial

theorem popLoop_quiet {count : Nat} : RingProg.Quiet (popLoop cap count : RingProg α (List α)) := by
  induction count with
  | zero => trivial
  | succ count ih =>
      rw [RingProg.Quiet, popLoop, Prog.meets_bind]
      apply (data_quiet fun _ => rfl).mono
      intro head _
      rw [Prog.meets_bind]
      apply (data_quiet fun _ => rfl).mono
      intro tail _
      split
      · trivial
      · rw [Prog.meets_bind]
        apply takeHead_quiet.mono
        intro _ _
        rw [Prog.meets_bind]
        exact ih.mono fun _ _ => trivial

/-- Whichever ends are locked, the tail is one of them. -/
theorem approaching_ringLock (both : Bool) {spec : RingQueue α → β × RingQueue α} {f : Unit → RingProg α β}
    (working : ∀ q, q.cap = cap → RingProg.Working (spec q) q.count (f ()) q) :
    RingProg.Approaching cap spec (ringLock both .tlock >>= f) := by
  cases both with
  | false => exact .inl ⟨rfl, working⟩
  | true => exact .inr ⟨by rintro ⟨⟩, .inl ⟨rfl, working⟩⟩

/-- What was locked is unlocked, the tail first. -/
theorem leaving_ringUnlock (both : Bool) (value : β) :
    (ringUnlock both .tlock >>= fun _ => pure value : RingProg α β).Leaving .tlock value := by
  cases both with
  | false => exact .inl ⟨rfl, rfl⟩
  | true => exact .inl ⟨rfl, by rintro ⟨⟩, rfl⟩

/-- A count below the capacity fits an `int`. -/
theorem toNat_intCount_lt {count : Nat} (small : cap ≤ 2 ^ 31) (room : count < cap) :
    ((intCount count).signExtend 64).toNat < cap := by
  have read := @RingQueue.toNat_currentCount Unit ⟨fun _ => (), 0, 0, cap, count⟩
  rw [currentCount_eq] at read
  dsimp only at read
  rw [read, if_pos (by omega)]
  omega

/-- `ring_push_one`: a full ring is refused when the counter is read, before or behind the mutex. -/
theorem pushOne_approaching (small : cap ≤ 2 ^ 31) :
    RingProg.Approaching cap (fun q => ringPushOne q val) (atomicLoad >>= pushOneFrom cap val) := by
  refine ⟨fun count => count, fun _ => rfl, fun count => ?_⟩
  by_cases full : ((intCount count).signExtend 64).toNat ≥ cap
  · refine .inr ⟨false, ?_, ?_⟩
    · rintro q rfl rfl
      dsimp only
      rw [ringPushOne, currentCount_eq]
      exact if_pos full
    · change (pushOneFrom cap val count).Settled .tlock false
      rw [pushOneFrom, if_pos full]
      rfl
  · refine .inl ?_
    change RingProg.Approaching cap _ (pushOneFrom cap val count)
    rw [pushOneFrom, if_neg full]
    apply approaching_ringLock _
    rintro q rfl
    by_cases again : q.count ≥ q.cap
    · have refused : ringPushOne q val = (false, q) := by
        rw [ringPushOne, if_pos again, ite_self]
      rw [refused]
      refine .inr ⟨rfl, ?_⟩
      change Prog.Leaving RingMutex.tlock false (ite (q.count ≥ q.cap) _ _)
      rw [if_pos again]
      exact leaving_ringUnlock _ _
    · have pushed : ringPushOne q val = (true, { q.put val with count := q.count + 1 }) := by
        have room := toNat_intCount_lt small (Nat.lt_of_not_le again)
        rw [ringPushOne, currentCount_eq, if_neg (Nat.not_le.mpr room), if_neg again]
      rw [pushed]
      refine .inl ⟨rfl, ?_⟩
      change RingProg.Working _ _ (ite (q.count ≥ q.cap) _ _) q
      rw [if_neg again]
      apply Prog.Working.bind putTail_quiet putTail_returns rfl
      exact .inr ⟨rfl, leaving_ringUnlock _ _⟩

/-- `ring_push` works behind both mutexes. -/
theorem push_approaching :
    RingProg.Approaching cap (fun q => ringPush q elems) (pushProg cap elems) := by
  rw [pushProg]
  split
  · rename_i none
    rintro q -
    rw [none]
    rfl
  · apply approaching_ringLock true
    rintro q rfl
    apply Prog.Working.bind pushLoop_quiet pushLoop_returns rfl
    exact .inr ⟨rfl, leaving_ringUnlock true _⟩

/-- So does `ring_pop`. -/
theorem pop_approaching {count : Nat} :
    RingProg.Approaching cap (fun q : RingQueue α => ringPop q count) (popProg cap count) := by
  apply approaching_ringLock true
  rintro q rfl
  apply Prog.Working.bind popLoop_quiet popLoop_returns rfl
  exact .inr ⟨rfl, leaving_ringUnlock true _⟩

end Stages

/-- Each of the calls takes effect where it changes the counter, or reads that it has nothing to do. -/
theorem RingCall.Shared.approaching {cap : Nat} {call : RingCall α} (shared : call.Shared)
    (small : cap ≤ 2 ^ 31) : RingProg.Approaching cap (fun q => ringCall q call) (call.prog cap) := by
  cases call with
  | pushOne val => exact (pushOne_approaching small).map fun pushed => RingReturn.pushed pushed.toNat
  | push elems => exact push_approaching.map RingReturn.pushed
  | popOne => exact shared.elim
  | popBack => exact shared.elim
  | pop count => exact pop_approaching.map RingReturn.elems
  | count =>
      refine ⟨fun count => count, fun _ => rfl, fun count => .inr ⟨.count (intCount count).toInt, ?_, rfl⟩⟩
      rintro q - rfl
      rfl

/-- Any number of workers call `ring_push_one`, `ring_push`, `ring_pop` and `ring_count` on one ring, and
their steps interleave in any way: when each call begins and what it returns is as if every call took
effect as a whole at one point in between, and so is the ring that is left. -/
theorem ring_atomic {W : Type} [DecidableEq W] {q : RingQueue α} {s : RingWorkers W α}
    {trace : List (CallObs W (RingCall α) (RingReturn α))} (capacity : 0 < q.cap ∧ q.cap ≤ 2 ^ 31)
    (run : Run (Workers.callStep (RingCall.prog q.cap) ringAnswer) (Begins RingCall.Shared)
      ⟨q, fun _ => none, fun _ => none⟩ trace s) :
    ∃ a : Atomic W (RingCall α) (RingReturn α) (RingQueue α),
      Run (Atomic.step fun call q => ringCall q call) (Always _ _) ⟨q, fun _ => none⟩ trace a ∧
        ((∀ worker, s.left worker = none) → a.data = s.data) := by
  have keeps : ∀ (call : RingCall α) (q' : RingQueue α), q'.cap = q.cap → (ringCall q' call).2.cap = q.cap :=
    fun _ _ same => RingQueue.ringCall_cap.trans same
  have calls : ∀ call : RingCall α, call.Shared →
      RingProg.Approaching q.cap (fun q => ringCall q call) (call.prog q.cap) :=
    fun _ shared => shared.approaching capacity.2
  exact atomic_of_approaching keeps calls rfl run

/-- The counter is read, and a second worker begins to pop, while `ring_push_one` is in progress. -/
theorem ring_atomic_two_workers :
    ∃ (trace : List (CallObs Bool (RingCall Nat) (RingReturn Nat)))
      (a : Atomic Bool (RingCall Nat) (RingReturn Nat) (RingQueue Nat)),
      Run (Atomic.step fun call q => ringCall q call) (Always _ _)
          ⟨(ringPushOne (ringCreate 0 4) 7).2, fun _ => none⟩ trace a ∧
        trace.length = 6 ∧ a.data.contents = [8] := by
  have seen : (exec (Workers.callStep (RingCall.prog 4) ringAnswer)
      ⟨(ringPushOne (ringCreate 0 4) 7).2, fun _ => none, fun _ => none⟩
      (.start false (.pushOne 8) :: .start true .count :: List.replicate 7 (.go false) ++
        List.replicate 2 (.go true) ++ .start true (.pop 1) :: .go true :: List.replicate 3 (.go false) ++
        List.replicate 11 (.go true))).map (fun result => (result.2.length, result.1.data.contents,
          (result.1.left false).isNone, (result.1.left true).isNone)) = some (6, [8], true, true) := by
    decide +kernel
  obtain ⟨⟨s, trace⟩, executed, pair⟩ := Option.map_eq_some_iff.mp seen
  simp only [Prod.mk.injEq, Option.isNone_iff_eq_none] at pair
  obtain ⟨length, contents, idle, idle'⟩ := pair
  have run : Run (Workers.callStep (RingCall.prog 4) ringAnswer) (Begins RingCall.Shared)
      ⟨(ringPushOne (ringCreate 0 4) 7).2, fun _ => none, fun _ => none⟩ trace s := by
    apply run_of_exec_forall executed
    simp [Begins, RingCall.Shared]
  obtain ⟨a, atomic, same⟩ :=
    @ring_atomic _ _ _ (ringPushOne (ringCreate 0 4) 7).2 s trace (by decide) run
  refine ⟨trace, a, atomic, length, ?_⟩
  rw [same (Bool.forall_bool.mpr ⟨idle, idle'⟩)]
  exact contents

end Lps.Linux

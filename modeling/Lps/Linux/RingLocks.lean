import Lps.Linux.RingDeque
import Lps.Program.Locks

/-!
# The mutexes of the ring buffer

The operations on `struct RingQueue`, call by call, as workers run them side by side: between
two calls the counter and the indices may change.  Each operation reads the counter, locks
one end or both, reads the counter again, and unlocks by what it remembers in `locked_both`.
-/

namespace Lps.Linux

open Lps.Program Lps.Transition

inductive RingMutex
  | hlock
  | tlock
  deriving DecidableEq

/-- What an operation does to the ring between its locks. -/
inductive RingOp (α : Type)
  | load
  | fetchAdd (n : Nat)
  | fetchSub (n : Nat)
  | head
  | tail
  | setHead (i : Nat)
  | setTail (i : Nat)
  | get (i : Nat)
  | set (i : Nat) (val : α)

abbrev RingOp.Reply {α : Type} : RingOp α → Type
  | .load | .head | .tail => Nat
  | .get _ => α
  | .fetchAdd _ | .fetchSub _ | .setHead _ | .setTail _ | .set _ _ => Unit

variable {α β : Type}

abbrev RingProg (α β : Type) : Type := LockProg RingMutex (RingOp.Reply (α := α)) Empty β

def atomicLoad : RingProg α Nat := data RingOp.load

def fetchAdd (n : Nat) : RingProg α Unit := data (RingOp.fetchAdd n)

def fetchSub (n : Nat) : RingProg α Unit := data (RingOp.fetchSub n)

def readHead : RingProg α Nat := data RingOp.head

def readTail : RingProg α Nat := data RingOp.tail

def writeHead (i : Nat) : RingProg α Unit := data (RingOp.setHead i)

def writeTail (i : Nat) : RingProg α Unit := data (RingOp.setTail i)

def readBuf (i : Nat) : RingProg α α := data (RingOp.get i)

def writeBuf (i : Nat) (val : α) : RingProg α Unit := data (RingOp.set i val)

/-- `pthread_mutex_lock` on both ends, the head first, or on one. -/
def ringLock (both : Bool) (one : RingMutex) : RingProg α Unit :=
  if both then do
    lock .hlock
    lock .tlock
  else lock one

/-- `pthread_mutex_unlock` by `locked_both`. -/
def ringUnlock (lockedBoth : Bool) (one : RingMutex) : RingProg α Unit :=
  if lockedBoth then do
    unlock .tlock
    unlock .hlock
  else unlock one

/-- `int current_count`. -/
def intCount (count : Nat) : BitVec 32 := BitVec.ofNat 32 count

/-- `q->buf[q->tail] = val; q->tail = (q->tail + 1) % q->cap`. -/
def putTail (cap : Nat) (val : α) : RingProg α Unit := do
  let tail ← readTail
  writeBuf tail val
  let tail ← readTail
  writeTail ((tail + 1) % cap)

/-- `q->buf[q->head]`, and `q->head = (q->head + 1) % q->cap`. -/
def takeHead (cap : Nat) : RingProg α α := do
  let head ← readHead
  let val ← readBuf head
  let head ← readHead
  writeHead ((head + 1) % cap)
  return val

/-- `ring_push_one` after it has read the counter. -/
def pushOneFrom (cap : Nat) (val : α) (count : Nat) : RingProg α Bool := do
  let current := ((intCount count).signExtend 64).toNat
  if current ≥ cap then return false
  let lockedBoth := decide (current ≥ cap - 1)
  ringLock (current ≥ cap - 1) .tlock
  let again ← atomicLoad
  if again ≥ cap then
    ringUnlock lockedBoth .tlock
    return false
  putTail cap val
  fetchAdd 1
  ringUnlock lockedBoth .tlock
  return true

/-- The loop of `ring_push` on the elements that are left. -/
def pushLoop (cap : Nat) : List α → RingProg α Nat
  | [] => return 0
  | val :: rest => do
      putTail cap val
      if rest = [] then return 1
      let tail ← readTail
      let head ← readHead
      if tail = head then return 1
      let stored ← pushLoop cap rest
      return stored + 1

/-- `ring_push`. -/
def pushProg (cap : Nat) (elems : List α) : RingProg α Nat := do
  if elems = [] then return 0
  ringLock true .hlock
  let stored ← pushLoop cap elems
  fetchAdd stored
  ringUnlock true .hlock
  return stored

/-- `ring_pop_one` after it has read the counter; `locked_both` is 1 in any case. -/
def popOneFrom (cap : Nat) (count : Nat) : RingProg α (Option α) := do
  let current := (intCount count).toInt
  if current ≤ 0 then return none
  let lockedBoth := true
  ringLock (current ≤ 1) .hlock
  let again ← atomicLoad
  if again ≤ 0 then
    ringUnlock lockedBoth .hlock
    return none
  let val ← takeHead cap
  fetchSub 1
  ringUnlock lockedBoth .hlock
  return some val

/-- `ring_pop_back` after it has read the counter; `locked_both` is 0 in any case. -/
def popBackFrom (cap : Nat) (count : Nat) : RingProg α (Option α) := do
  let current := (intCount count).toInt
  if current ≤ 0 then return none
  let lockedBoth := false
  ringLock (current ≤ 1) .tlock
  let again ← atomicLoad
  if again ≤ 0 then
    ringUnlock lockedBoth .tlock
    return none
  let tail ← readTail
  writeTail ((tail + cap - 1) % cap)
  let tail ← readTail
  let val ← readBuf tail
  fetchSub 1
  ringUnlock lockedBoth .tlock
  return some val

/-- The loop of `ring_pop` with `count` elements to go. -/
def popLoop (cap : Nat) : Nat → RingProg α (List α)
  | 0 => return []
  | count + 1 => do
      let head ← readHead
      let tail ← readTail
      if head = tail then return []
      let val ← takeHead cap
      let elems ← popLoop cap count
      return val :: elems

/-- `ring_pop`. -/
def popProg (cap : Nat) (count : Nat) : RingProg α (List α) := do
  ringLock true .hlock
  let elems ← popLoop cap count
  fetchSub elems.length
  ringUnlock true .hlock
  return elems

namespace RingCall

/-- The rest of a call whose first `atomic_load` has read this counter. -/
def entered (cap count : Nat) : RingCall α → RingProg α (RingReturn α)
  | .pushOne val => do return .pushed (← pushOneFrom cap val count).toNat
  | .push elems => do return .pushed (← pushProg cap elems)
  | .popOne => do return .elem (← popOneFrom cap count)
  | .popBack => do return .elem (← popBackFrom cap count)
  | .pop n => do return .elems (← popProg cap n)
  | .count => return .count (intCount count).toInt

/-- Does the operation read the counter before it locks? -/
def loads : RingCall α → Bool
  | .push _ | .pop _ => false
  | _ => true

/-- The operation. -/
def prog (cap : Nat) (call : RingCall α) : RingProg α (RingReturn α) :=
  if call.loads then do
    let count ← atomicLoad
    call.entered cap count
  else call.entered cap 0

/-- The calls that unlock what they have locked: `ring_pop_one` that locks both ends, and
`ring_pop_back` that does not. -/
def Careful (count : Nat) : RingCall α → Prop
  | .popOne => (intCount count).toInt ≤ 1
  | .popBack => (intCount count).toInt ≠ 1
  | _ => True

instance (count : Nat) : (call : RingCall α) → Decidable (call.Careful count)
  | .popOne => inferInstanceAs (Decidable (_ ≤ _))
  | .popBack => inferInstanceAs (Decidable (_ ≠ _))
  | .pushOne _ => inferInstanceAs (Decidable True)
  | .push _ => inferInstanceAs (Decidable True)
  | .pop _ => inferInstanceAs (Decidable True)
  | .count => inferInstanceAs (Decidable True)

end RingCall

/-! ## The operations alone on a ring -/

/-- The ring answers, and the mutexes are free. -/
def ringAnswer : Handler (RingOp α) RingOp.Reply (RingQueue α)
  | .load, q => (q.count, q)
  | .fetchAdd n, q => ((), { q with count := q.count + n })
  | .fetchSub n, q => ((), { q with count := q.count - n })
  | .head, q => (q.head, q)
  | .tail, q => (q.tail, q)
  | .setHead i, q => ((), { q with head := i })
  | .setTail i, q => ((), { q with tail := i })
  | .get i, q => (q.buf i, q)
  | .set i val, q => ((), { q with buf := Function.update q.buf i val })

section Alone

variable {q : RingQueue α} {val : α} {count : Nat} {elems : List α}

theorem putTail_returns :
    (putTail q.cap val).Returns (freely ringAnswer) q () (q.put val) := by
  simp [putTail, readTail, writeBuf, writeTail, ringAnswer, RingQueue.put]

theorem takeHead_returns : (takeHead q.cap).Returns (freely ringAnswer) q (q.buf q.head)
    { q with head := (q.head + 1) % q.cap } := by
  simp only [takeHead, readHead, readBuf, writeHead, Prog.returns_bind, Prog.returns_pure, returns_data,
    ringAnswer, Prod.mk.injEq]
  exact ⟨_, _, ⟨rfl, rfl⟩, _, _, ⟨rfl, rfl⟩, _, _, ⟨rfl, rfl⟩, (), _, ⟨trivial, rfl⟩, rfl, rfl⟩

/-- On a ring with free mutexes locking changes nothing. -/
@[simp]
theorem ringLock_returns {both : Bool} {one : RingMutex} {done : Unit} {q' : RingQueue α} :
    (ringLock both one).Returns (freely ringAnswer) q done q' ↔ q = q' := by
  cases both
  · simp [ringLock]
  · simp [ringLock]

@[simp]
theorem ringUnlock_returns {both : Bool} {one : RingMutex} {done : Unit} {q' : RingQueue α} :
    (ringUnlock both one).Returns (freely ringAnswer) q done q' ↔ q = q' := by
  cases both
  · simp [ringUnlock]
  · simp [ringUnlock]

theorem currentCount_eq : q.currentCount = intCount q.count := rfl

theorem pushOneFrom_returns : (pushOneFrom q.cap val q.count).Returns (freely ringAnswer) q
    (ringPushOne q val).1 (ringPushOne q val).2 := by
  rw [pushOneFrom, ringPushOne, currentCount_eq]
  split
  · exact Prog.returns_pure.mpr ⟨rfl, rfl⟩
  · simp only [Prog.returns_bind, ringLock_returns]
    refine ⟨(), _, rfl, q.count, q, rfl, ?_⟩
    split
    · simp only [Prog.returns_bind, ringUnlock_returns]
      exact ⟨(), _, rfl, Prog.returns_pure.mpr ⟨rfl, rfl⟩⟩
    · simp only [Prog.returns_bind, ringUnlock_returns]
      exact ⟨(), _, putTail_returns, (), _, rfl, (), _, rfl, Prog.returns_pure.mpr ⟨rfl, rfl⟩⟩

theorem popOneFrom_returns : (popOneFrom q.cap q.count).Returns (freely ringAnswer) q
    (ringPopOne q).1 (ringPopOne q).2 := by
  rw [popOneFrom, ringPopOne, currentCount_eq]
  split
  · exact Prog.returns_pure.mpr ⟨rfl, rfl⟩
  · simp only [Prog.returns_bind, ringLock_returns]
    refine ⟨(), _, rfl, q.count, q, rfl, ?_⟩
    split
    · simp only [Prog.returns_bind, ringUnlock_returns]
      exact ⟨(), _, rfl, Prog.returns_pure.mpr ⟨rfl, rfl⟩⟩
    · simp only [Prog.returns_bind, ringUnlock_returns]
      exact ⟨_, _, takeHead_returns, (), _, rfl, (), _, rfl, Prog.returns_pure.mpr ⟨rfl, rfl⟩⟩

theorem popBackFrom_returns : (popBackFrom q.cap q.count).Returns (freely ringAnswer) q
    (ringPopBack q).1 (ringPopBack q).2 := by
  rw [popBackFrom, ringPopBack, currentCount_eq]
  split
  · exact Prog.returns_pure.mpr ⟨rfl, rfl⟩
  · simp only [Prog.returns_bind, ringLock_returns]
    refine ⟨(), _, rfl, q.count, q, rfl, ?_⟩
    split
    · simp only [Prog.returns_bind, ringUnlock_returns]
      exact ⟨(), _, rfl, Prog.returns_pure.mpr ⟨rfl, rfl⟩⟩
    · simp only [Prog.returns_bind, ringUnlock_returns]
      exact ⟨_, _, rfl, (), _, rfl, _, _, rfl, _, _, rfl, (), _, rfl, (), _, rfl, Prog.returns_pure.mpr ⟨rfl, rfl⟩⟩

theorem pushLoop_returns : (pushLoop q.cap elems).Returns (freely ringAnswer) q
    (ringPushLoop q elems).1 (ringPushLoop q elems).2 := by
  induction elems generalizing q with
  | nil => exact Prog.returns_pure.mpr ⟨rfl, rfl⟩
  | cons val rest ih =>
      rw [pushLoop, ringPushLoop, Prog.returns_bind]
      refine ⟨(), _, putTail_returns, ?_⟩
      by_cases last : rest = []
      · rw [if_pos last, if_neg fun more => more.1 last]
        exact Prog.returns_pure.mpr ⟨rfl, rfl⟩
      · rw [if_neg last]
        simp only [Prog.returns_bind]
        refine ⟨(q.put val).tail, _, rfl, q.head, _, rfl, ?_⟩
        by_cases full : (q.put val).tail = q.head
        · rw [if_pos full, if_neg fun more => more.2 full]
          exact Prog.returns_pure.mpr ⟨rfl, rfl⟩
        · rw [if_neg full, if_pos ⟨last, full⟩, Prog.returns_bind]
          exact ⟨_, _, @ih (q.put val), Prog.returns_pure.mpr ⟨rfl, rfl⟩⟩

theorem popLoop_returns : (popLoop q.cap count).Returns (freely ringAnswer) q
    (ringPopLoop q count).1 (ringPopLoop q count).2 := by
  induction count generalizing q with
  | zero => exact Prog.returns_pure.mpr ⟨rfl, rfl⟩
  | succ count ih =>
      rw [popLoop, ringPopLoop]
      simp only [Prog.returns_bind]
      refine ⟨q.head, _, rfl, q.tail, _, rfl, ?_⟩
      by_cases empty : q.head = q.tail
      · rw [if_pos empty, if_neg (not_not.mpr empty)]
        exact Prog.returns_pure.mpr ⟨rfl, rfl⟩
      · rw [if_neg empty, if_pos empty]
        simp only [Prog.returns_bind]
        exact ⟨_, _, takeHead_returns, _, _, @ih { q with head := (q.head + 1) % q.cap },
          Prog.returns_pure.mpr ⟨rfl, rfl⟩⟩

/-- Alone on a ring with free mutexes, the operations do what they do as a whole. -/
theorem RingCall.prog_returns {call : RingCall α} :
    (call.prog q.cap).Returns (freely ringAnswer) q (ringCall q call).1 (ringCall q call).2 := by
  have entered : (call.entered q.cap q.count).Returns (freely ringAnswer) q (ringCall q call).1
      (ringCall q call).2 := by
    cases call with
    | pushOne val =>
        exact Prog.returns_bind.mpr ⟨_, _, pushOneFrom_returns, Prog.returns_pure.mpr ⟨rfl, rfl⟩⟩
    | push elems =>
        refine Prog.returns_bind.mpr ⟨_, _, ?_, Prog.returns_pure.mpr ⟨rfl, rfl⟩⟩
        rw [pushProg]
        split
        · rename_i none
          rw [none]
          exact Prog.returns_pure.mpr ⟨rfl, rfl⟩
        · simp only [Prog.returns_bind, ringLock_returns, ringUnlock_returns, Prog.returns_pure]
          exact ⟨(), _, rfl, _, _, pushLoop_returns, (), _, rfl, (), _, rfl, rfl, rfl⟩
    | popOne =>
        exact Prog.returns_bind.mpr ⟨_, _, popOneFrom_returns, Prog.returns_pure.mpr ⟨rfl, rfl⟩⟩
    | popBack =>
        exact Prog.returns_bind.mpr ⟨_, _, popBackFrom_returns, Prog.returns_pure.mpr ⟨rfl, rfl⟩⟩
    | pop n =>
        refine Prog.returns_bind.mpr ⟨_, _, ?_, Prog.returns_pure.mpr ⟨rfl, rfl⟩⟩
        simp only [popProg, Prog.returns_bind, ringLock_returns, ringUnlock_returns,
          Prog.returns_pure]
        exact ⟨(), _, rfl, _, _, popLoop_returns, (), _, rfl, (), _, rfl, rfl, rfl⟩
    | count => exact Prog.returns_pure.mpr ⟨rfl, rfl⟩
  rw [prog]
  cases call with
  | push elems => exact entered
  | pop n => exact entered
  | pushOne val => exact Prog.returns_bind.mpr ⟨_, _, rfl, entered⟩
  | popOne => exact Prog.returns_bind.mpr ⟨_, _, rfl, entered⟩
  | popBack => exact Prog.returns_bind.mpr ⟨_, _, rfl, entered⟩
  | count => exact Prog.returns_bind.mpr ⟨_, _, rfl, entered⟩

end Alone

/-! ## Balance -/

/-- The order of the mutexes: the head is locked first. -/
def RingMutex.Before (m m' : RingMutex) : Prop := m = .hlock ∧ m' = .tlock

theorem RingMutex.before_wellFounded : WellFounded fun m m' : RingMutex => m'.Before m := by
  refine ⟨fun m => ⟨_, ?_⟩⟩
  rintro _ ⟨-, rfl⟩
  refine ⟨_, ?_⟩
  rintro _ ⟨⟨⟩, -⟩

/-- What `ringLock` locks. -/
def lockedEnds (both : Bool) (one : RingMutex) : Set RingMutex :=
  if both then {.hlock, .tlock} else {one}

section Balance

variable {cap count : Nat} {val : α} {elems : List α} {both : Bool} {one : RingMutex}

theorem putTail_dataOnly : (putTail cap val).Meets dataOnly fun _ => True := by
  simp only [putTail, Prog.meets_bind]
  exact ⟨⟨_, rfl⟩, fun _ _ => ⟨⟨_, rfl⟩, fun _ _ => ⟨⟨_, rfl⟩, fun _ _ => data_dataOnly⟩⟩⟩

theorem takeHead_dataOnly : (takeHead cap : RingProg α α).Meets dataOnly fun _ => True := by
  simp only [takeHead, Prog.meets_bind]
  exact ⟨⟨_, rfl⟩, fun _ _ => ⟨⟨_, rfl⟩, fun _ _ => ⟨⟨_, rfl⟩, fun _ _ => data_dataOnly⟩⟩⟩

theorem pushLoop_dataOnly : (pushLoop cap elems).Meets dataOnly fun _ => True := by
  induction elems with
  | nil => trivial
  | cons val rest ih =>
      rw [pushLoop, Prog.meets_bind]
      refine putTail_dataOnly.mono fun _ _ => ?_
      split
      · trivial
      · rw [Prog.meets_bind]
        refine data_dataOnly.mono fun tail _ => ?_
        rw [Prog.meets_bind]
        refine data_dataOnly.mono fun head _ => ?_
        split
        · trivial
        · rw [Prog.meets_bind]
          exact ih.mono fun _ _ => trivial

theorem popLoop_dataOnly : (popLoop cap count : RingProg α (List α)).Meets dataOnly fun _ => True := by
  induction count with
  | zero => trivial
  | succ count ih =>
      rw [popLoop, Prog.meets_bind]
      refine data_dataOnly.mono fun head _ => ?_
      rw [Prog.meets_bind]
      refine data_dataOnly.mono fun tail _ => ?_
      split
      · trivial
      · rw [Prog.meets_bind]
        refine takeHead_dataOnly.mono fun _ _ => ?_
        rw [Prog.meets_bind]
        exact ih.mono fun _ _ => trivial

/-- What follows `ringLock` begins with its mutexes. -/
theorem balanced_ringLock {f : Unit → RingProg α β}
    (rest : (f ()).Balanced RingMutex.Before (lockedEnds both one)) :
    (ringLock both one >>= f).Balanced RingMutex.Before ∅ := by
  rw [Prog.Balanced, Prog.watched_bind]
  cases both with
  | false =>
      refine watched_lock.mpr ⟨fun _ none => none.elim, ?_⟩
      rw [insert_empty_eq]
      exact rest
  | true =>
      rw [ringLock, if_pos rfl, Prog.watched_bind, watched_lock, watched_lock, insert_empty_eq]
      refine ⟨fun _ none => none.elim, fun _ first => ⟨first, rfl⟩, ?_⟩
      rw [Set.pair_comm]
      exact rest

/-- `ringUnlock` by what was locked. -/
theorem balanced_ringUnlock {value : β} :
    (do ringUnlock both one; return value : RingProg α β).Balanced RingMutex.Before
      (lockedEnds both one) := by
  rw [Prog.Balanced, Prog.watched_bind]
  cases both with
  | false =>
      refine watched_unlock.mpr ⟨rfl, ?_⟩
      rw [Prog.watched_pure]
      exact Set.sdiff_self
  | true =>
      rw [ringUnlock, if_pos rfl, Prog.watched_bind, watched_unlock, watched_unlock, Prog.watched_pure]
      refine ⟨.inr rfl, ⟨.inl rfl, nofun⟩, ?_⟩
      ext m
      cases m
      · simp
      · simp

/-- `ring_push_one` remembers what it has locked. -/
theorem balanced_pushOneFrom : (pushOneFrom cap val count).Balanced RingMutex.Before ∅ := by
  rw [pushOneFrom]
  split
  · exact rfl
  refine balanced_ringLock (Prog.balanced_bind data_dataOnly fun again => ?_)
  split
  · exact balanced_ringUnlock
  · refine Prog.balanced_bind putTail_dataOnly fun _ => ?_
    exact Prog.balanced_bind data_dataOnly fun _ => balanced_ringUnlock

theorem balanced_pushProg : (pushProg cap elems).Balanced RingMutex.Before ∅ := by
  rw [pushProg]
  split
  · exact rfl
  refine balanced_ringLock (Prog.balanced_bind pushLoop_dataOnly fun stored => ?_)
  exact Prog.balanced_bind data_dataOnly fun _ => balanced_ringUnlock

theorem balanced_popProg : (popProg cap count : RingProg α (List α)).Balanced RingMutex.Before ∅ := by
  refine balanced_ringLock (Prog.balanced_bind popLoop_dataOnly fun elems => ?_)
  exact Prog.balanced_bind data_dataOnly fun _ => balanced_ringUnlock

/-- `ring_pop_one` unlocks both ends, so it has to lock both. -/
theorem balanced_popOneFrom (careful : (intCount count).toInt ≤ 1) :
    (popOneFrom cap count : RingProg α (Option α)).Balanced RingMutex.Before ∅ := by
  rw [popOneFrom]
  split
  · exact rfl
  rw [decide_eq_true careful]
  refine balanced_ringLock (Prog.balanced_bind data_dataOnly fun again => ?_)
  split
  · exact balanced_ringUnlock
  · refine Prog.balanced_bind takeHead_dataOnly fun _ => ?_
    exact Prog.balanced_bind data_dataOnly fun _ => balanced_ringUnlock

/-- `ring_pop_back` unlocks the tail, so it has to lock the tail only. -/
theorem balanced_popBackFrom (careful : (intCount count).toInt ≠ 1) :
    (popBackFrom cap count : RingProg α (Option α)).Balanced RingMutex.Before ∅ := by
  rw [popBackFrom]
  split
  · exact rfl
  rename_i some
  have many : ¬(intCount count).toInt ≤ 1 := by omega
  rw [decide_eq_false many]
  refine balanced_ringLock (Prog.balanced_bind data_dataOnly fun again => ?_)
  split
  · exact balanced_ringUnlock
  · refine Prog.balanced_bind data_dataOnly fun tail => ?_
    refine Prog.balanced_bind data_dataOnly fun _ => ?_
    refine Prog.balanced_bind data_dataOnly fun tail => ?_
    refine Prog.balanced_bind data_dataOnly fun val => ?_
    exact Prog.balanced_bind data_dataOnly fun _ => balanced_ringUnlock

/-- A careful call is balanced. -/
theorem RingCall.Careful.balanced {call : RingCall α} (careful : call.Careful count) :
    (call.entered cap count).Balanced RingMutex.Before ∅ := by
  cases call with
  | pushOne val => exact balanced_pushOneFrom.map
  | push elems => exact balanced_pushProg.map
  | popOne => exact (balanced_popOneFrom careful).map
  | popBack => exact (balanced_popBackFrom careful).map
  | pop n => exact balanced_popProg.map
  | count => exact rfl

end Balance

/-! ## Executions -/

/-- What an operation says to the mutexes and the ring, with what it is told. -/
abbrev RingTrace (α : Type) := List (Exchange (LockCall RingMutex (RingOp α)) (LockReply RingOp.Reply))

/-- Starting without mutexes, only those are unlocked that were locked before, and all of
them are in the end. -/
def LocksKept (trace : RingTrace α) : Prop :=
  (lockMonitor fun _ _ => True).Accepts ∅ trace ∧ (lockMonitor fun _ _ => True).after ∅ trace = ∅

abbrev RingHost (α : Type) := Prog.Host (LockCall RingMutex (RingOp α)) (LockReply RingOp.Reply)

section Executions

variable {cap count : Nat} {host : RingHost α} {made : List (LockCall RingMutex (RingOp α))}

/-- After more than one element `ring_pop_one` unlocks a tail that it has not locked. -/
theorem popOneFrom_unlocks (many : ¬(intCount count).toInt ≤ 1) :
    ¬LocksKept ((popOneFrom cap count : RingProg α (Option α)).exchanges host made) := by
  rintro ⟨accepts, -⟩
  have some : ¬(intCount count).toInt ≤ 0 := by omega
  rw [popOneFrom, if_neg some, decide_eq_false many] at accepts
  have unlocked : RingMutex.tlock ∉ (insert .hlock ∅ : Set RingMutex) := by
    rintro (wrong | none)
    · cases wrong
    · exact none
  obtain ⟨-, -, accepts⟩ := accepts
  change (lockMonitor fun _ _ => True).Accepts _ (Prog.exchanges host (if _ then _ else _) _) at accepts
  split at accepts
  · exact unlocked accepts.1
  · obtain ⟨-, -, -, -, -, own, -⟩ := accepts
    exact unlocked own

/-- After one element `ring_pop_back` leaves the head locked. -/
theorem popBackFrom_keeps (one : (intCount count).toInt = 1) :
    ¬LocksKept ((popBackFrom cap count : RingProg α (Option α)).exchanges host made) := by
  rintro ⟨-, empty⟩
  have few : (intCount count).toInt ≤ 1 := by omega
  have some : ¬(intCount count).toInt ≤ 0 := by omega
  rw [popBackFrom, if_neg some, decide_eq_true few] at empty
  change (lockMonitor fun _ _ => True).after _ (Prog.exchanges host (if _ then _ else _) _) = ∅ at empty
  have held : RingMutex.hlock ∈ (insert .tlock (insert .hlock ∅) \ {.tlock} : Set RingMutex) :=
    ⟨.inr (.inl rfl), nofun⟩
  split at empty
  · exact Set.eq_empty_iff_forall_notMem.mp empty .hlock held
  · exact Set.eq_empty_iff_forall_notMem.mp empty .hlock held

/-- Whatever the ring replies, a call keeps the locks exactly when it is careful. -/
theorem RingCall.entered_locksKept {call : RingCall α} :
    LocksKept ((call.entered cap count).exchanges host made) ↔ call.Careful count := by
  constructor
  · intro kept
    cases call with
    | popOne =>
        by_contra many
        rw [entered, Prog.exchanges_map] at kept
        exact popOneFrom_unlocks many kept
    | popBack =>
        intro one
        rw [entered, Prog.exchanges_map] at kept
        exact popBackFrom_keeps one kept
    | pushOne val => trivial
    | push elems => trivial
    | pop n => trivial
    | count => trivial
  · intro careful
    exact (careful.balanced.weaken fun _ _ _ => trivial).run host made

/-- A call to the ring does not touch the mutexes. -/
theorem locksKept_data {c : RingOp α} {reply : c.Reply} {trace : RingTrace α} :
    LocksKept (⟨.data c, reply⟩ :: trace) ↔ LocksKept trace := by
  constructor
  · rintro ⟨⟨-, accepts⟩, empty⟩
    exact ⟨accepts, empty⟩
  · rintro ⟨accepts, empty⟩
    exact ⟨⟨trivial, accepts⟩, empty⟩

/-- So does the whole operation, which reads the counter first. -/
theorem RingCall.prog_locksKept {call : RingCall α} (reads : host [] (.data .load) = count) :
    LocksKept ((call.prog cap).exchanges host []) ↔ call.Careful count := by
  have loading : LocksKept (⟨.data .load, host [] (.data .load)⟩ ::
      (call.entered cap (host [] (.data .load))).exchanges host [.data .load]) ↔
        call.Careful count := by
    rw [locksKept_data, entered_locksKept, reads]
  cases call with
  | push elems => exact @entered_locksKept _ cap 0 host [] (.push elems)
  | pop n => exact @entered_locksKept _ cap 0 host [] (.pop n)
  | pushOne val => exact loading
  | popOne => exact loading
  | popBack => exact loading
  | count => exact loading

end Executions

/-! ## Runs -/

/-- The workers on a ring. -/
abbrev RingWorkers (W α : Type) :=
  Workers W RingMutex (RingOp.Reply (α := α)) Empty (RingReturn α) (RingQueue α)

/-- A worker that begins a call reads the counter first; the call is careful. -/
def StartsCareful {W : Type} :
    RingWorkers W α → WorkerEvent W RingMutex (RingOp.Reply (α := α)) Empty (RingReturn α) → Prop
  | s, .start _ p => ∃ call : RingCall α, call.Careful s.data.count ∧
      p = call.entered s.data.cap s.data.count
  | _, .go _ => True

/-- Nobody waits forever: some busy worker can go on, and when nobody is busy all mutexes are
free, and a call that begins then returns. -/
structure NobodyStuck {W : Type} [DecidableEq W] (s : RingWorkers W α) : Prop where
  progress : ∀ worker, s.left worker ≠ none → ∃ worker, Workers.CanGo ringAnswer s worker
  free : (∀ worker, s.left worker = none) → ∀ m, s.owner m = none
  returns : (∀ worker, s.left worker = none) → ∀ worker (call : RingCall α),
    call.Careful s.data.count → ∃ trace s', Run (Workers.step ringAnswer) (Workers.StepsOf worker)
      (s.set worker (call.entered s.data.cap s.data.count)) trace s' ∧ s'.left worker = none

theorem RingMutex.before_irrefl (m : RingMutex) : ¬m.Before m := by
  rintro ⟨rfl, wrong⟩
  cases wrong

theorem nobodyStuck {W : Type} [DecidableEq W] {s : RingWorkers W α}
    (balanced : s.Balanced RingMutex.Before) : NobodyStuck s where
  progress := fun _ busy => balanced.progress ringAnswer RingMutex.before_wellFounded busy
  free := balanced.free
  returns := by
    intro idle worker call careful
    have starts : Workers.StartsBalanced RingMutex.Before s
        (.start worker (call.entered s.data.cap s.data.count)) := careful.balanced
    have begins : Workers.step ringAnswer s (.start worker (call.entered s.data.cap s.data.count)) =
        some (s.set worker (call.entered s.data.cap s.data.count), []) := by
      simp only [Workers.step, idle worker]
    refine (balanced.step starts begins).1.finishes ringAnswer RingMutex.before_irrefl
      Workers.left_set_self ?_
    intro m owner owned
    have free : s.owner m = none := balanced.free idle m
    exact absurd (free.symm.trans owned) (by rintro ⟨⟩)

/-- An operation unlocks what it has locked, and all of it, exactly when `ring_pop_one` finds
at most one element or `ring_pop_back` not exactly one; and when all operations of a run do,
every mutex is unlocked by its owner and nobody is stuck. -/
theorem ring_locks_kept_iff (α W : Type) [DecidableEq W] :
    (∀ (q : RingQueue α) (call : RingCall α) (host : RingHost α),
      host [] (.data .load) = q.count →
        (LocksKept ((call.prog q.cap).exchanges host []) ↔ call.Careful q.count)) ∧
    ∀ (s s' : RingWorkers W α) (trace : List (WorkerObs W (RingReturn α))),
      (∀ worker, s.left worker = none) → (∀ m, s.owner m = none) →
      Run (Workers.step ringAnswer) StartsCareful s trace s' →
        (∀ o ∈ trace, o.Own) ∧ NobodyStuck s' := by
  constructor
  · exact fun q call host reads => RingCall.prog_locksKept reads
  · intro s s' trace idle free run
    have balanced : s.Balanced RingMutex.Before := by
      intro worker
      rw [idle worker]
      exact Set.eq_empty_iff_forall_notMem.mpr fun m owned =>
        absurd ((free m).symm.trans owned) nofun
    have starts : ∀ (state : RingWorkers W α) event, StartsCareful state event →
        Workers.StartsBalanced RingMutex.Before state event := by
      rintro state event careful
      cases event with
      | go worker => trivial
      | start worker p =>
          obtain ⟨call, isCareful, rfl⟩ := careful
          exact isCareful.balanced
    obtain ⟨still, own⟩ := balanced.run (run.mono starts)
    exact ⟨own, nobodyStuck still⟩

/-- A ring of four cells. -/
def smallRing (count : Nat) : RingQueue Unit := ⟨fun _ => (), 0, count, 4, count⟩

/-- A host that reads this counter again and again. -/
def countingHost (count : Nat) : RingHost Unit
  | _, .lock _ => ⟨⟩
  | _, .unlock _ => ⟨⟩
  | _, .data .load => count
  | _, .data .head => 0
  | _, .data .tail => count
  | _, .data (.fetchAdd _) => ()
  | _, .data (.fetchSub _) => ()
  | _, .data (.setHead _) => ()
  | _, .data (.setTail _) => ()
  | _, .data (.get _) => ()
  | _, .data (.set _ _) => ()

/-- One worker on a small ring. -/
def smallWorkers (count : Nat) : RingWorkers Unit Unit := ⟨smallRing count, fun _ => none, fun _ => none⟩

/-- `ring_pop_one` on the last element keeps the locks, and nobody is stuck after it begins. -/
theorem ring_locks_kept_one :
    LocksKept ((RingCall.popOne.prog 4).exchanges (countingHost 1) []) ∧
      NobodyStuck ((smallWorkers 1).set () (some (RingCall.popOne.entered 4 1))) := by
  constructor
  · exact ((ring_locks_kept_iff Unit Unit).1 (smallRing 1) .popOne (countingHost 1) rfl).mpr (by decide)
  · have starts : StartsCareful (smallWorkers 1) (.start () (RingCall.popOne.entered 4 1)) :=
      ⟨.popOne, by decide, rfl⟩
    exact ((ring_locks_kept_iff Unit Unit).2 (smallWorkers 1) _ _ (fun _ => rfl) (fun _ => rfl)
      (.single starts rfl)).2

/-- On two elements `ring_pop_one` unlocks the tail that it has not locked; on one element
`ring_pop_back` returns with the head locked, and after a `ring_push_one` the next
`ring_pop_one` waits for it forever. -/
theorem ring_pops_break_locks :
    (¬∀ (q : RingQueue Unit) (call : RingCall Unit) (host : RingHost Unit),
      host [] (.data .load) = q.count → LocksKept ((call.prog q.cap).exchanges host [])) ∧
    (exec (Workers.step ringAnswer) (smallWorkers 1)
        (.start () (RingCall.popBack.entered 4 1) :: List.replicate 10 (.go ()) ++
          .start () ((RingCall.pushOne ()).entered 4 0) :: List.replicate 9 (.go ()) ++
          [.start () (RingCall.popOne.entered 4 1)])).map
      (fun result => (result.2.length, result.1.owner .hlock,
        (Workers.step ringAnswer result.1 (.go ())).isSome)) = some (4, some (), false) := by
  constructor
  · intro claim
    have kept := claim (smallRing 2) .popOne (countingHost 2) rfl
    exact absurd ((@RingCall.prog_locksKept _ 4 2 (countingHost 2) .popOne rfl).mp kept) (by decide)
  · rfl

end Lps.Linux

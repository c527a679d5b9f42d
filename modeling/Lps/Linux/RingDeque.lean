import Lps.Linux.RingQueue
import Lps.Transition.Outputs

/-!
# The ring buffer as a double-ended queue

The purpose of `struct RingQueue` is a queue of at most `cap` elements with an
operation at either end, which is a list.  The ring is one as long as the
counter fits an `int` and `ring_push` and `ring_pop` stay away from a full ring:
these two look at the indices, which are equal in a full ring as in an empty one.
-/

namespace Lps.Linux

open Lps.Transition

/-- A call on a ring; `push` comes with the array of its `count` elements. -/
inductive RingCall (α : Type)
  | pushOne (val : α)
  | push (elems : List α)
  | popOne
  | popBack
  | pop (count : Nat)
  | count

/-- What a call returns, or stores in `elems`. -/
inductive RingReturn (α : Type)
  | pushed (n : Nat)
  | elem (e : Option α)
  | elems (es : List α)
  | count (n : Int)
  deriving DecidableEq

variable {α : Type}

/-- One call on the ring. -/
def ringCall (q : RingQueue α) : RingCall α → RingReturn α × RingQueue α
  | .pushOne val => (.pushed (ringPushOne q val).1.toNat, (ringPushOne q val).2)
  | .push elems => (.pushed (ringPush q elems).1, (ringPush q elems).2)
  | .popOne => (.elem (ringPopOne q).1, (ringPopOne q).2)
  | .popBack => (.elem (ringPopBack q).1, (ringPopBack q).2)
  | .pop count => (.elems (ringPop q count).1, (ringPop q count).2)
  | .count => (.count (ringCount q), q)

/-- One call on a queue of at most `cap` elements. -/
def dequeCall (cap : Nat) (held : List α) : RingCall α → RingReturn α × List α
  | .pushOne val => if held.length < cap then (.pushed 1, held ++ [val]) else (.pushed 0, held)
  | .push elems =>
      (.pushed (min elems.length (cap - held.length)), held ++ elems.take (cap - held.length))
  | .popOne => (.elem held.head?, held.tail)
  | .popBack => (.elem held.getLast?, held.dropLast)
  | .pop count => (.elems (held.take count), held.drop count)
  | .count => (.count held.length, held)

/-- A call together with the elements that are stored after it. -/
def observed {σ : Type} (call : σ → RingCall α → RingReturn α × σ) (held : σ → List α) (s : σ)
    (c : RingCall α) : (RingReturn α × List α) × σ :=
  (((call s c).1, held (call s c).2), (call s c).2)

/-- The calls on which a ring that holds these elements is a queue: the number of
elements comes through an `int`, and a full ring is not asked to push or pop
any number of elements. -/
def RingCall.Sound (cap : Nat) (held : List α) : RingCall α → Prop
  | .pushOne _ => held.length < cap → held.length % 2 ^ 32 < 2 ^ 31
  | .push elems => elems ≠ [] → held.length < cap
  | .popOne | .popBack =>
      held ≠ [] → 0 < held.length % 2 ^ 32 ∧ held.length % 2 ^ 32 < 2 ^ 31
  | .pop n => 0 < n → held.length < cap
  | .count => held.length < 2 ^ 31

namespace RingQueue

variable {q : RingQueue α} {held : List α} {cap : Nat} {call : RingCall α}

theorem Represents.count_pos_iff (represents : q.Represents held) :
    0 < q.currentCount.toInt ↔ 0 < held.length % 2 ^ 32 ∧ held.length % 2 ^ 32 < 2 ^ 31 := by
  rw [currentCount_pos_iff, represents.count]

theorem ringCall_cap : (ringCall q call).2.cap = q.cap := by
  cases call with
  | pushOne val => exact ringPushOne_cap
  | push elems => exact ringPush_cap
  | popOne => exact ringPopOne_cap
  | popBack => exact ringPopBack_cap
  | pop count => exact ringPop_cap
  | count => rfl

/-- A sound call answers as the queue does and leaves the ring holding what the
queue holds. -/
theorem Represents.call_sound (represents : q.Represents held) (capacity : q.cap = cap)
    (sound : call.Sound cap held) :
    (ringCall q call).1 = (dequeCall cap held call).1 ∧
      (ringCall q call).2.Represents (dequeCall cap held call).2 := by
  subst capacity
  cases call with
  | pushOne val =>
      rw [ringCall, dequeCall]
      by_cases room : held.length < q.cap
      · obtain ⟨pushed, after⟩ := represents.pushOne room (sound room) val
        rw [if_pos room, pushed]
        exact ⟨rfl, after⟩
      · have full := Nat.le_antisymm represents.le_cap (Nat.le_of_not_lt room)
        rw [if_neg room, represents.pushOne_full full]
        exact ⟨rfl, represents⟩
  | push elems =>
      rw [ringCall, dequeCall]
      cases elems with
      | nil =>
          rw [List.take_nil, List.append_nil]
          exact ⟨by simp [ringPush, ringPushLoop], represents⟩
      | cons val elems =>
          obtain ⟨stored, after⟩ := represents.push (sound (by simp)) (val :: elems)
          rw [stored]
          exact ⟨rfl, after⟩
  | popOne =>
      rw [ringCall, dequeCall]
      cases held with
      | nil =>
          rw [represents.popOne_nil]
          exact ⟨rfl, represents⟩
      | cons val held =>
          obtain ⟨front, after⟩ := represents.popOne_cons
            (represents.count_pos_iff.mpr (sound (by simp)))
          rw [front]
          exact ⟨rfl, after⟩
  | popBack =>
      rw [ringCall, dequeCall]
      rcases List.eq_nil_or_concat held with rfl | ⟨held, val, rfl⟩
      · rw [represents.popBack_nil]
        exact ⟨rfl, represents⟩
      · rw [List.concat_eq_append] at represents sound ⊢
        obtain ⟨back, after⟩ := represents.popBack_concat
          (represents.count_pos_iff.mpr (sound (by simp)))
        rw [back, List.getLast?_concat, List.dropLast_concat]
        exact ⟨rfl, after⟩
  | pop count =>
      rw [ringCall, dequeCall]
      cases count with
      | zero => exact ⟨rfl, represents⟩
      | succ count =>
          obtain ⟨taken, after⟩ := represents.pop (sound (Nat.succ_pos _)) (count + 1)
          rw [taken]
          exact ⟨rfl, after⟩
  | count =>
      have small : q.count % 2 ^ 32 = held.length := by
        rw [represents.count, Nat.mod_eq_of_lt (Nat.lt_trans sound (by decide))]
      rw [ringCall, dequeCall, ringCount, toInt_currentCount, small,
        if_pos (show held.length < 2 ^ 31 from sound)]
      exact ⟨rfl, represents⟩

/-- Every other call gives an answer of its own. -/
theorem Represents.call_unsound (represents : q.Represents held) (capacity : q.cap = cap)
    (allocated : cap * 8 < 2 ^ 64) (unsound : ¬call.Sound cap held) :
    (ringCall q call).1 ≠ (dequeCall cap held call).1 := by
  subst capacity
  have fullOf (notRoom : ¬held.length < q.cap) : held.length = q.cap :=
    Nat.le_antisymm represents.le_cap (Nat.le_of_not_lt notRoom)
  cases call with
  | pushOne val =>
      -- The negative count is a `size_t` larger than any capacity.
      simp only [RingCall.Sound, Classical.not_imp] at unsound
      have refused : ringPushOne q val = (false, q) := by
        rw [ringPushOne, if_pos]
        rw [toNat_currentCount, represents.count, if_neg unsound.2]
        omega
      rw [ringCall, dequeCall, if_pos unsound.1, refused]
      simp
  | push elems =>
      simp only [RingCall.Sound, Classical.not_imp] at unsound
      have stored := ringPush_pos (q := q) unsound.1
      rw [ringCall, dequeCall, fullOf unsound.2, Nat.sub_self, Nat.min_zero]
      simp only [ne_eq, RingReturn.pushed.injEq]
      omega
  | popOne =>
      simp only [RingCall.Sound, Classical.not_imp, ← represents.count_pos_iff, Int.not_lt]
        at unsound
      rw [ringCall, dequeCall, ringPopOne, if_pos unsound.2]
      simpa [eq_comm] using unsound.1
  | popBack =>
      simp only [RingCall.Sound, Classical.not_imp, ← represents.count_pos_iff, Int.not_lt]
        at unsound
      rw [ringCall, dequeCall, ringPopBack, if_pos unsound.2]
      simpa [eq_comm] using unsound.1
  | pop count =>
      simp only [RingCall.Sound, Classical.not_imp] at unsound
      have full := fullOf unsound.2
      rw [ringCall, dequeCall, represents.pop_full full]
      have pos := Nat.zero_lt_of_lt represents.head_lt
      intro same
      have nothing : held.take count = [] := (RingReturn.elems.inj same).symm
      rw [List.take_eq_nil_iff, ← List.length_eq_zero_iff] at nothing
      omega
  | count =>
      simp only [RingCall.Sound] at unsound
      rw [ringCall, dequeCall, ringCount, toInt_currentCount, represents.count]
      simp only [ne_eq, RingReturn.count.injEq]
      split <;> omega

end RingQueue

/-- A new ring that `calloc` could allocate answers a sequence of calls as a queue
of at most `cap` elements does, and always holds the same elements, exactly when
every call is sound. -/
theorem ring_is_deque_iff {cap : Nat} (null : α) (pos : 0 < cap) (allocated : cap * 8 < 2 ^ 64)
    (calls : List (RingCall α)) :
    outputs (observed ringCall RingQueue.contents) (ringCreate null cap) calls =
        outputs (observed (dequeCall cap) id) [] calls ↔
      Along (observed (dequeCall cap) id) (fun held call => call.Sound cap held) [] calls := by
  refine outputs_eq_iff_along (fun q held => q.Represents held ∧ q.cap = cap) ?_ ?_
    ⟨ringCreate_represents pos, rfl⟩ calls
  · intro q held call related sound
    obtain ⟨same, after⟩ := related.1.call_sound related.2 sound
    refine ⟨?_, after, RingQueue.ringCall_cap.trans related.2⟩
    simp only [observed, same, after.contents_eq, id]
  · intro q held call related unsound same
    exact related.1.call_unsound related.2 allocated unsound (congrArg Prod.fst same)

/-- Two elements go through a ring of three cells, from either end. -/
theorem ring_is_deque_iff_two :
    outputs (observed ringCall RingQueue.contents) (ringCreate 0 3)
        [.push [5, 7], .popBack, .pop 2] =
      [(.pushed 2, [5, 7]), (.elem (some 7), [5]), (.elems [5], [])] :=
  ((ring_is_deque_iff 0 (by decide) (by decide) _).mpr (by
    simp [Along, observed, dequeCall, RingCall.Sound])).trans (by decide)

/-- A ring of one cell does not give its element back to `ring_pop`. -/
theorem full_ring_pops_nothing :
    ¬∀ (cap : Nat) (calls : List (RingCall Nat)), 0 < cap → cap * 8 < 2 ^ 64 →
      outputs (observed ringCall RingQueue.contents) (ringCreate 0 cap) calls =
        outputs (observed (dequeCall cap) id) [] calls := by
  intro claim
  have same := claim 1 [.pushOne 5, .pop 1] (by decide) (by decide)
  have differ : outputs (observed ringCall RingQueue.contents) (ringCreate 0 1)
      [.pushOne 5, .pop 1] ≠ outputs (observed (dequeCall 1) id) [] [.pushOne 5, .pop 1] := by
    decide
  exact differ same

end Lps.Linux

import Lps.Ring.Window

/-!
# The ring buffer queue

`struct RingQueue` with its operations taken as atomic; the two mutexes are left
out.  Seen from outside the ring is a list: `Represents` says which one, and one
lemma for each operation says what becomes of it.
-/

namespace Lps.Linux

open Lps.Ring

/-- `struct RingQueue` without its mutexes. -/
structure RingQueue (α : Type) where
  buf : Nat → α
  head : Nat
  tail : Nat
  cap : Nat
  count : Nat

variable {α : Type}

/-- `ring_create`; `null` is what `calloc` leaves in the cells. -/
def ringCreate (null : α) (cap : Nat) : RingQueue α where
  buf := fun _ => null
  head := 0
  tail := 0
  cap := cap
  count := 0

/-- `q->buf[q->tail] = val; q->tail = (q->tail + 1) % q->cap`. -/
def RingQueue.put (q : RingQueue α) (val : α) : RingQueue α :=
  { q with buf := Function.update q.buf q.tail val, tail := (q.tail + 1) % q.cap }

/-- `int current_count = atomic_load(&q->count)`. -/
def RingQueue.currentCount (q : RingQueue α) : BitVec 32 := BitVec.ofNat 32 q.count

/-- `ring_count`. -/
def ringCount (q : RingQueue α) : Int := q.currentCount.toInt

/-- `ring_push_one`; returns whether it pushed.  The comparison with `q->cap`
extends the `int` to a `size_t`. -/
def ringPushOne (q : RingQueue α) (val : α) : Bool × RingQueue α :=
  if (q.currentCount.signExtend 64).toNat ≥ q.cap then (false, q)
  else if q.count ≥ q.cap then (false, q)
  else (true, { q.put val with count := q.count + 1 })

/-- The loop of `ring_push` on the elements that are left; returns how many it
stored.  Like the source it stores the first one before it looks at the indices. -/
def ringPushLoop (q : RingQueue α) : List α → Nat × RingQueue α
  | [] => (0, q)
  | val :: rest =>
      if rest ≠ [] ∧ (q.put val).tail ≠ q.head then
        let (stored, q) := ringPushLoop (q.put val) rest
        (stored + 1, q)
      else (1, q.put val)

/-- `ring_push`; returns how many elements it pushed. -/
def ringPush (q : RingQueue α) (elems : List α) : Nat × RingQueue α :=
  let (stored, q) := ringPushLoop q elems
  (stored, { q with count := q.count + stored })

/-- `ring_pop_one`. -/
def ringPopOne (q : RingQueue α) : Option α × RingQueue α :=
  if q.currentCount.toInt ≤ 0 then (none, q)
  else if q.count ≤ 0 then (none, q)
  else (some (q.buf q.head), { q with head := (q.head + 1) % q.cap, count := q.count - 1 })

/-- `ring_pop_back`. -/
def ringPopBack (q : RingQueue α) : Option α × RingQueue α :=
  if q.currentCount.toInt ≤ 0 then (none, q)
  else if q.count ≤ 0 then (none, q)
  else
    let tail := (q.tail + q.cap - 1) % q.cap
    (some (q.buf tail), { q with tail := tail, count := q.count - 1 })

/-- The loop of `ring_pop` with `count` elements to go. -/
def ringPopLoop (q : RingQueue α) : Nat → List α × RingQueue α
  | 0 => ([], q)
  | count + 1 =>
      if q.head ≠ q.tail then
        let (elems, q') := ringPopLoop { q with head := (q.head + 1) % q.cap } count
        (q.buf q.head :: elems, q')
      else ([], q)

/-- `ring_pop`; returns the elements it stored in `elems`. -/
def ringPop (q : RingQueue α) (count : Nat) : List α × RingQueue α :=
  let (elems, q) := ringPopLoop q count
  (elems, { q with count := q.count - elems.length })

/-! No operation changes the capacity. -/

section Cap

variable {q : RingQueue α}

theorem ringPushOne_cap {val : α} : (ringPushOne q val).2.cap = q.cap := by
  rw [ringPushOne]
  split
  · rfl
  · split <;> rfl

theorem ringPopOne_cap : (ringPopOne q).2.cap = q.cap := by
  rw [ringPopOne]
  split
  · rfl
  · split <;> rfl

theorem ringPopBack_cap : (ringPopBack q).2.cap = q.cap := by
  rw [ringPopBack]
  split
  · rfl
  · split <;> rfl

theorem ringPush_cap {elems : List α} : (ringPush q elems).2.cap = q.cap := by
  suffices loop : (ringPushLoop q elems).2.cap = q.cap from loop
  induction elems generalizing q with
  | nil => rfl
  | cons val rest ih =>
      rw [ringPushLoop]
      split
      · exact ih
      · rfl

theorem ringPop_cap {count : Nat} : (ringPop q count).2.cap = q.cap := by
  suffices loop : (ringPopLoop q count).2.cap = q.cap from loop
  induction count generalizing q with
  | zero => rfl
  | succ count ih =>
      rw [ringPopLoop]
      split
      · exact ih
      · rfl

end Cap

/-! ## What a ring holds -/

/-- The elements of the ring, from its head on. -/
def RingQueue.contents (q : RingQueue α) : List α :=
  window q.buf q.cap q.head (q.head + q.count)

/-- The ring holds these elements, in order. -/
structure RingQueue.Represents (q : RingQueue α) (elems : List α) : Prop where
  head_lt : q.head < q.cap
  tail : q.tail = (q.head + elems.length) % q.cap
  count : q.count = elems.length
  le_cap : elems.length ≤ q.cap
  contents : elems = window q.buf q.cap q.head (q.head + elems.length)

/-- What the indices say about a ring, whatever its counter says. -/
structure RingQueue.Spans (q : RingQueue α) (elems : List α) : Prop where
  head_lt : q.head < q.cap
  tail : q.tail = (q.head + elems.length) % q.cap
  le_cap : elems.length ≤ q.cap
  contents : elems = window q.buf q.cap q.head (q.head + elems.length)

namespace RingQueue

variable {q : RingQueue α} {elems : List α} {val : α}

theorem Represents.spans (represents : q.Represents elems) : q.Spans elems :=
  ⟨represents.head_lt, represents.tail, represents.le_cap, represents.contents⟩

theorem Spans.represents (spans : q.Spans elems) (count : q.count = elems.length) :
    q.Represents elems :=
  ⟨spans.head_lt, spans.tail, count, spans.le_cap, spans.contents⟩

theorem Represents.contents_eq (represents : q.Represents elems) : q.contents = elems := by
  rw [RingQueue.contents, represents.count]
  exact represents.contents.symm

/-- The counter is not among the indices. -/
theorem Spans.setCount (spans : q.Spans elems) (count : Nat) :
    Spans { q with count := count } elems :=
  ⟨spans.head_lt, spans.tail, spans.le_cap, spans.contents⟩

/-- A new element goes behind the others while there is room. -/
theorem Spans.put (spans : q.Spans elems) (room : elems.length < q.cap) (val : α) :
    (q.put val).Spans (elems ++ [val]) where
  head_lt := spans.head_lt
  tail := by
    simp only [RingQueue.put, spans.tail, List.length_append, List.length_singleton,
      Nat.mod_add_mod, Nat.add_assoc]
  le_cap := by
    simp only [RingQueue.put, List.length_append, List.length_singleton]
    omega
  contents := by
    have inside : (q.head + elems.length) % q.cap < q.cap :=
      Nat.mod_lt _ (Nat.zero_lt_of_lt spans.head_lt)
    have stored : (q.put val).buf = store q.buf ((q.head + elems.length) % q.cap) [val] := by
      rw [store_singleton, ← spans.tail]
      rfl
    simp only [stored, List.length_append, List.length_singleton]
    rw [← Nat.add_assoc]
    refine Eq.trans ?_ (window_store (Nat.le_add_right ..) ?_ ?_).symm
    · exact congrArg (· ++ [val]) spans.contents
    · simp only [List.length_singleton]
      omega
    · simp only [List.length_singleton]
      omega

/-- The element in front leaves. -/
theorem Spans.next (spans : q.Spans (val :: elems)) :
    q.buf q.head = val ∧ Spans { q with head := (q.head + 1) % q.cap } elems := by
  have contents := spans.contents
  rw [window_cons (by simp), Nat.mod_eq_of_lt spans.head_lt, List.cons.injEq] at contents
  refine ⟨contents.1.symm, ?_, ?_, ?_, ?_⟩
  · exact Nat.mod_lt _ (Nat.zero_lt_of_lt spans.head_lt)
  · simp only [spans.tail, List.length_cons, Nat.mod_add_mod]
    congr 1
    omega
  · exact (Nat.le_succ _).trans spans.le_cap
  · simp only [window_mod]
    refine contents.2.trans ?_
    congr 1
    simp only [List.length_cons]
    omega

/-- The indices meet only in an empty or a full ring. -/
theorem Spans.head_ne_tail (spans : q.Spans elems) (pos : elems ≠ [])
    (notFull : elems.length < q.cap) : q.head ≠ q.tail := by
  have posLength := List.length_pos_iff.mpr pos
  have apart : q.head % q.cap ≠ (q.head + elems.length) % q.cap :=
    mod_ne_of_lt (by omega) (by omega)
  rwa [Nat.mod_eq_of_lt spans.head_lt, ← spans.tail] at apart

theorem Spans.head_eq_tail_of_nil (spans : q.Spans []) : q.head = q.tail := by
  rw [spans.tail, List.length_nil, Nat.add_zero, Nat.mod_eq_of_lt spans.head_lt]

theorem Spans.head_eq_tail_of_full (spans : q.Spans elems) (full : elems.length = q.cap) :
    q.head = q.tail := by
  rw [spans.tail, full, Nat.add_mod_right, Nat.mod_eq_of_lt spans.head_lt]

/-! ## The counter as an `int` -/

section CurrentCount

theorem toInt_currentCount :
    q.currentCount.toInt = if q.count % 2 ^ 32 < 2 ^ 31 then ((q.count % 2 ^ 32 : Nat) : Int)
      else (q.count % 2 ^ 32 : Nat) - 2 ^ 32 := by
  rw [currentCount, BitVec.toInt_eq_toNat_cond, BitVec.toNat_ofNat]
  split <;> split <;> omega

theorem currentCount_pos_iff :
    0 < q.currentCount.toInt ↔ 0 < q.count % 2 ^ 32 ∧ q.count % 2 ^ 32 < 2 ^ 31 := by
  rw [toInt_currentCount]
  split <;> omega

/-- As a `size_t` a negative number exceeds every capacity. -/
theorem toNat_currentCount :
    (q.currentCount.signExtend 64).toNat =
      if q.count % 2 ^ 32 < 2 ^ 31 then q.count % 2 ^ 32
      else q.count % 2 ^ 32 + (2 ^ 64 - 2 ^ 32) := by
  have low : q.count % 2 ^ 32 < 2 ^ 32 := Nat.mod_lt _ (by decide)
  rw [BitVec.toNat_signExtend, BitVec.toNat_setWidth, currentCount, BitVec.toNat_ofNat,
    Nat.mod_eq_of_lt (b := 2 ^ 64) (by omega)]
  have sign : (BitVec.ofNat 32 q.count).msb = true ↔ ¬q.count % 2 ^ 32 < 2 ^ 31 := by
    rw [BitVec.msb_eq_true_iff_two_mul_ge, BitVec.toNat_ofNat]
    omega
  by_cases small : q.count % 2 ^ 32 < 2 ^ 31
  · rw [if_pos small, if_neg fun negative => sign.mp negative small]
    rfl
  · rw [if_neg small, if_pos (sign.mpr small)]

end CurrentCount

/-! ## The operations -/

/-- `ring_push_one` appends while there is room. -/
theorem Represents.pushOne (represents : q.Represents elems) (room : elems.length < q.cap)
    (small : elems.length % 2 ^ 32 < 2 ^ 31) (val : α) :
    (ringPushOne q val).1 = true ∧ (ringPushOne q val).2.Represents (elems ++ [val]) := by
  have below : ¬(q.currentCount.signExtend 64).toNat ≥ q.cap := by
    rw [toNat_currentCount, represents.count, if_pos small]
    have := Nat.mod_le elems.length (2 ^ 32)
    omega
  have notFull : ¬q.count ≥ q.cap := by
    rw [represents.count]
    omega
  rw [ringPushOne, if_neg below, if_neg notFull]
  refine ⟨rfl, ((represents.spans.put room val).setCount _).represents ?_⟩
  simp [represents.count]

/-- `ring_push_one` refuses when the ring is full. -/
theorem Represents.pushOne_full (represents : q.Represents elems) (full : elems.length = q.cap)
    (val : α) : ringPushOne q val = (false, q) := by
  rw [ringPushOne, if_pos (c := q.count ≥ q.cap) (by rw [represents.count, full]), ite_self]

/-- `ring_pop_one` on an empty ring. -/
theorem Represents.popOne_nil (represents : q.Represents []) :
    ringPopOne q = (none, q) := by
  rw [ringPopOne, if_pos (by simp [currentCount, represents.count])]

/-- `ring_pop_one` takes the element in front. -/
theorem Represents.popOne_cons (represents : q.Represents (val :: elems))
    (counted : 0 < q.currentCount.toInt) :
    (ringPopOne q).1 = some val ∧ (ringPopOne q).2.Represents elems := by
  obtain ⟨front, spans⟩ := represents.spans.next
  rw [ringPopOne, if_neg (Int.not_le.mpr counted), if_neg (by simp [represents.count])]
  refine ⟨by rw [front], (spans.setCount _).represents ?_⟩
  simp [represents.count]

/-- `ring_pop_back` on an empty ring. -/
theorem Represents.popBack_nil (represents : q.Represents []) :
    ringPopBack q = (none, q) := by
  rw [ringPopBack, if_pos (by simp [currentCount, represents.count])]

/-- `ring_pop_back` takes the element at the end. -/
theorem Represents.popBack_concat (represents : q.Represents (elems ++ [val]))
    (counted : 0 < q.currentCount.toInt) :
    (ringPopBack q).1 = some val ∧ (ringPopBack q).2.Represents elems := by
  have headLt := represents.head_lt
  have length : (elems ++ [val]).length = elems.length + 1 := by simp
  have leCap := represents.le_cap
  have contents := represents.contents
  rw [length] at leCap contents
  rw [← Nat.add_assoc, window_concat (Nat.le_add_right ..)] at contents
  have same : elems = window q.buf q.cap q.head (q.head + elems.length) ∧
      [val] = [q.buf ((q.head + elems.length) % q.cap)] :=
    List.append_inj contents (by simp)
  have tail : (q.tail + q.cap - 1) % q.cap = (q.head + elems.length) % q.cap := by
    have tailPos : 0 < q.cap := Nat.zero_lt_of_lt headLt
    rw [represents.tail, length]
    have back : (q.head + (elems.length + 1)) % q.cap + q.cap - 1 =
        (q.head + (elems.length + 1)) % q.cap + (q.cap - 1) := by omega
    rw [back, Nat.mod_add_mod]
    have round : q.head + (elems.length + 1) + (q.cap - 1) =
        q.head + elems.length + q.cap := by omega
    rw [round, Nat.add_mod_right]
  rw [ringPopBack, if_neg (Int.not_le.mpr counted), if_neg (by simp [represents.count])]
  simp only [tail]
  refine ⟨?_, ?_, ?_, ?_, ?_, ?_⟩
  · simpa using same.2.symm
  · exact headLt
  · rfl
  · simp [represents.count]
  · exact (Nat.le_succ _).trans leCap
  · exact same.1

/-- `ring_pop` takes the first `count` elements of a ring that is not full. -/
theorem Represents.pop (represents : q.Represents elems) (notFull : elems.length < q.cap)
    (count : Nat) :
    (ringPop q count).1 = elems.take count ∧
      (ringPop q count).2.Represents (elems.drop count) := by
  have loop : ∀ (q : RingQueue α) (elems : List α), q.Spans elems → elems.length < q.cap →
      (ringPopLoop q count).1 = elems.take count ∧
      (ringPopLoop q count).2.Spans (elems.drop count) ∧
      (ringPopLoop q count).2.count = q.count := by
    induction count with
    | zero =>
        intro q elems spans _
        simpa [ringPopLoop] using spans
    | succ count ih =>
        intro q elems spans notFull
        cases elems with
        | nil =>
            rw [ringPopLoop, if_neg (by simpa using spans.head_eq_tail_of_nil)]
            exact ⟨rfl, spans, rfl⟩
        | cons val elems =>
            obtain ⟨front, rest⟩ := spans.next
            obtain ⟨taken, left, same⟩ := ih _ _ rest
              ((Nat.lt_succ_self _).trans notFull)
            rw [ringPopLoop, if_pos (spans.head_ne_tail (by simp) notFull)]
            simp only [List.take_succ_cons, List.drop_succ_cons]
            exact ⟨by rw [front, taken], left, same⟩
  obtain ⟨taken, left, same⟩ := loop q elems represents.spans notFull
  refine ⟨taken, (left.setCount _).represents ?_⟩
  simp only [same, taken, represents.count, List.length_take, List.length_drop]
  omega

/-- `ring_pop` finds the indices of a full ring equal and takes nothing. -/
theorem Represents.pop_full (represents : q.Represents elems) (full : elems.length = q.cap)
    (count : Nat) : ringPop q count = ([], q) := by
  have meet := represents.spans.head_eq_tail_of_full full
  have loop : ringPopLoop q count = ([], q) := by
    cases count with
    | zero => rfl
    | succ count => rw [ringPopLoop, if_neg (not_not.mpr meet)]
  rw [ringPop, loop]
  rfl

/-- `ring_push` into a ring that is not full appends what there is room for. -/
theorem Represents.push (represents : q.Represents elems) (notFull : elems.length < q.cap)
    (vals : List α) :
    (ringPush q vals).1 = min vals.length (q.cap - elems.length) ∧
      (ringPush q vals).2.Represents (elems ++ vals.take (q.cap - elems.length)) := by
  have loop : ∀ (vals : List α) (q : RingQueue α) (elems : List α), q.Spans elems →
      elems.length < q.cap →
      (ringPushLoop q vals).1 = min vals.length (q.cap - elems.length) ∧
      (ringPushLoop q vals).2.Spans (elems ++ vals.take (q.cap - elems.length)) ∧
      (ringPushLoop q vals).2.count = q.count := by
    intro vals
    induction vals with
    | nil =>
        intro q elems spans _
        simpa [ringPushLoop] using spans
    | cons val vals ih =>
        intro q elems spans notFull
        have put := spans.put notFull val
        obtain ⟨room, more⟩ : ∃ room, q.cap - elems.length = room + 1 :=
          ⟨q.cap - elems.length - 1, by omega⟩
        have left : (q.put val).cap - (elems ++ [val]).length = room := by
          simp only [RingQueue.put, List.length_append, List.length_singleton]
          omega
        rw [ringPushLoop, more, List.take_succ_cons, List.append_cons]
        by_cases goesOn : vals ≠ [] ∧ (q.put val).tail ≠ q.head
        · -- The indices are apart, so the ring has not become full.
          have notFull : (elems ++ [val]).length < (q.put val).cap := by
            apply Nat.lt_of_le_of_ne put.le_cap
            intro full
            exact goesOn.2 (put.head_eq_tail_of_full full).symm
          obtain ⟨stored, spansAll, same⟩ := ih (q.put val) (elems ++ [val]) put notFull
          rw [left] at stored spansAll
          rw [if_pos goesOn]
          refine ⟨?_, spansAll, same⟩
          simp only [stored, List.length_cons]
          omega
        · rw [if_neg goesOn]
          have stops : vals = [] ∨ room = 0 := by
            by_contra both
            rw [not_or] at both
            refine goesOn ⟨both.1, (put.head_ne_tail (by simp) ?_).symm⟩
            simp only [RingQueue.put, List.length_append, List.length_singleton]
            omega
          rcases stops with rfl | rfl
          · simpa using ⟨put, rfl⟩
          · simpa using ⟨put, rfl⟩
  obtain ⟨stored, spans, same⟩ := loop vals q elems represents.spans notFull
  refine ⟨stored, (spans.setCount _).represents ?_⟩
  simp only [same, stored, represents.count, List.length_append, List.length_take]
  omega

/-- `ring_push` into a ring with room for everything. -/
theorem Represents.push_all (represents : q.Represents elems) {vals : List α}
    (room : elems.length + vals.length < q.cap) :
    (ringPush q vals).1 = vals.length ∧ (ringPush q vals).2.Represents (elems ++ vals) := by
  obtain ⟨stored, after⟩ := represents.push (by omega) vals
  rw [List.take_of_length_le (by omega)] at after
  exact ⟨stored.trans (by omega), after⟩

/-- `ring_push` stores the first of the elements even when the ring is full. -/
theorem ringPush_pos {vals : List α} (some : vals ≠ []) : 0 < (ringPush q vals).1 := by
  suffices loop : 0 < (ringPushLoop q vals).1 from loop
  cases vals with
  | nil => contradiction
  | cons val rest =>
      rw [ringPushLoop]
      split <;> simp

end RingQueue

/-- A new ring holds nothing. -/
theorem ringCreate_represents {null : α} {cap : Nat} (pos : 0 < cap) :
    (ringCreate null cap).Represents [] where
  head_lt := pos
  tail := by simp [ringCreate]
  count := rfl
  le_cap := Nat.zero_le _
  contents := by simp

end Lps.Linux

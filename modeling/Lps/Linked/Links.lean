import Mathlib.Data.List.Chain
import Mathlib.Data.List.Nodup
import Mathlib.Logic.Function.Basic

/-!
# Doubly linked lists

Every node has a pointer to the next and to the previous one, and a list that
ends in null pointers has a head pointer.  A place in such a list is a node or,
before the first and behind the last, `none`; the head pointer is what follows
`none`.  A chain is a list of places of which any two neighbours point to each
other.  A chain depends only on the pointers between its places.
-/

namespace Lps.Linked

universe u

/-- The pointers of a set of nodes. -/
structure Links (α : Type u) where
  head : Option α
  next : α → Option α
  prev : α → Option α

namespace Links

variable {α : Type u}

/-- What follows a place. -/
def after (l : Links α) : Option α → Option α
  | none => l.head
  | some a => l.next a

@[simp]
theorem after_none (l : Links α) : l.after none = l.head := rfl

@[simp]
theorem after_some (l : Links α) (a : α) : l.after (some a) = l.next a := rfl

/-- Two places that point to each other. -/
def Joined (l : Links α) (x y : Option α) : Prop := l.after x = y ∧ ∀ b ∈ y, l.prev b = x

/-- Places each of which is joined to the next one. -/
def Chained (l : Links α) (places : List (Option α)) : Prop := places.IsChain l.Joined

variable {l l' : Links α} {x y : Option α} {before places rest : List (Option α)}

theorem chained_singleton : l.Chained [x] := List.isChain_singleton x

theorem chained_cons_cons : l.Chained (x :: y :: rest) ↔ l.Joined x y ∧ l.Chained (y :: rest) :=
  List.isChain_cons_cons

/-- A chain is cut between any two places. -/
theorem chained_append_cons_cons :
    l.Chained (before ++ x :: y :: rest) ↔
      l.Chained (before ++ [x]) ∧ l.Joined x y ∧ l.Chained (y :: rest) :=
  List.isChain_append_cons_cons

/-- Links that agree on what follows all places but the last, and on what precedes
all places but the first, have the same chains. -/
theorem Chained.congr (chained : l.Chained places)
    (after : ∀ z ∈ places.dropLast, l'.after z = l.after z)
    (prev : ∀ b, some b ∈ places.tail → l'.prev b = l.prev b) : l'.Chained places := by
  induction places with
  | nil => exact List.isChain_nil
  | cons x places ih =>
      cases places with
      | nil => exact chained_singleton
      | cons y places =>
          rw [chained_cons_cons] at chained ⊢
          obtain ⟨⟨follows, precedes⟩, rest⟩ := chained
          constructor
          · constructor
            · rw [after x (by simp)]
              exact follows
            · intro b isY
              cases isY
              rw [prev b (by simp)]
              exact precedes b rfl
          · apply ih rest
            · intro z mem
              exact after z (by simp [List.dropLast_cons_of_ne_nil, mem])
            · intro b mem
              exact prev b (List.mem_cons_of_mem _ mem)

/-- A chain of distinct nodes is determined by its ends. -/
theorem Chained.unique {a : α} {xs ys : List α} (first : l.Chained ((a :: xs).map some))
    (second : l.Chained ((a :: ys).map some)) (nodup : (a :: xs).Nodup) (nodup' : (a :: ys).Nodup)
    (same : (a :: xs).getLast? = (a :: ys).getLast?) : xs = ys := by
  induction xs generalizing a ys with
  | nil =>
      cases ys with
      | nil => rfl
      | cons y ys =>
          rw [List.getLast?_cons_cons, List.getLast?_singleton] at same
          exact absurd (List.mem_of_getLast? same.symm) (List.nodup_cons.mp nodup').1
  | cons x xs ih =>
      cases ys with
      | nil =>
          rw [List.getLast?_cons_cons, List.getLast?_singleton] at same
          exact absurd (List.mem_of_getLast? same) (List.nodup_cons.mp nodup).1
      | cons y ys =>
          simp only [List.map_cons] at first second
          rw [chained_cons_cons] at first second
          have heads : x = y := by simpa using first.1.1.symm.trans second.1.1
          subst heads
          rw [List.getLast?_cons_cons, List.getLast?_cons_cons] at same
          rw [ih first.2 second.2 (List.nodup_cons.mp nodup).2 (List.nodup_cons.mp nodup').2 same]

/-! ## Assignments to pointers -/

variable [DecidableEq α]

/-- `a->next = y`. -/
def setNext (l : Links α) (a : α) (y : Option α) : Links α :=
  { l with next := Function.update l.next a y }

/-- `b->prev = x`. -/
def setPrev (l : Links α) (b : α) (x : Option α) : Links α :=
  { l with prev := Function.update l.prev b x }

@[simp]
theorem head_setNext (a : α) : (l.setNext a y).head = l.head := rfl

@[simp]
theorem prev_setNext (a : α) : (l.setNext a y).prev = l.prev := rfl

@[simp]
theorem next_setNext_self (a : α) : (l.setNext a y).next a = y := Function.update_self ..

theorem next_setNext_of_ne {a b : α} (ne : b ≠ a) : (l.setNext a y).next b = l.next b :=
  Function.update_of_ne ne ..

@[simp]
theorem head_setPrev (b : α) : (l.setPrev b x).head = l.head := rfl

@[simp]
theorem next_setPrev (b : α) : (l.setPrev b x).next = l.next := rfl

@[simp]
theorem prev_setPrev_self (b : α) : (l.setPrev b x).prev b = x := Function.update_self ..

theorem prev_setPrev_of_ne {a b : α} (ne : b ≠ a) : (l.setPrev a x).prev b = l.prev b :=
  Function.update_of_ne ne ..

/-- `a->next = b; b->prev = a`. -/
def join (l : Links α) (a b : α) : Links α := (l.setNext a (some b)).setPrev b (some a)

theorem joined_join (a b : α) : (l.join a b).Joined (some a) (some b) := by
  constructor
  · simp [join]
  · rintro _ ⟨⟩
    simp [join]

theorem next_join_of_ne {a b c : α} (ne : c ≠ a) : (l.join a b).next c = l.next c := by
  rw [join, next_setPrev, next_setNext_of_ne ne]

theorem prev_join_of_ne {a b c : α} (ne : c ≠ b) : (l.join a b).prev c = l.prev c := by
  rw [join, prev_setPrev_of_ne ne, prev_setNext]

end Links

end Lps.Linked

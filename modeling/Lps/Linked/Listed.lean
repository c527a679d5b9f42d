import Lps.Linked.Links
import Mathlib.Data.List.Infix

/-!
# Lists between null pointers

A doubly linked list is a chain of nodes whose first one has a null pointer to what
precedes it and whose last one to what follows it.  It is cut between any two nodes; a
node is put between two places, or the places before and behind a node are joined, by
rewriting the pointers on both sides of the cut.
-/

namespace Lps.Linked

universe u

namespace Links

variable {α : Type u} {l l' : Links α} {x y z : Option α} {ids front back : List α} {n new a b : α}

/-- The links form a list of these nodes, none of which occurs twice. -/
structure Listed (l : Links α) (ids : List α) : Prop where
  chained : l.Chained (none :: (ids.map some ++ [none]))
  nodup : ids.Nodup

theorem listed_nil : l.Listed [] ↔ l.head = none := by
  constructor
  · intro listed
    exact (chained_cons_cons.mp listed.chained).1.1
  · intro empty
    refine ⟨chained_cons_cons.mpr ⟨⟨empty, ?_⟩, chained_singleton⟩, List.nodup_nil⟩
    rintro _ ⟨⟩

/-- The last place before a cut. -/
theorem getLast?_places : (none :: front.map some).getLast? = some front.getLast? := by
  rw [List.getLast?_cons, List.getLast?_map]
  cases front.getLast? <;> rfl

theorem head?_places : (back.map some ++ [none]).head? = some back.head? := by
  cases back <;> rfl

/-- A list is cut between any two nodes. -/
theorem chained_cut :
    l.Chained (none :: ((front ++ back).map some ++ [none])) ↔
      l.Chained (none :: front.map some) ∧ l.Chained (back.map some ++ [none]) ∧
        l.Joined front.getLast? back.head? := by
  have places : none :: ((front ++ back).map some ++ [none]) =
      (none :: front.map some) ++ (back.map some ++ [none]) := by
    simp
  rw [places, Chained, List.isChain_append, getLast?_places, head?_places]
  simp only [Option.mem_some_iff, forall_eq']
  rfl

/-- The nodes before a cut only depend on the pointers before it. -/
theorem Chained.congr_front (chained : l.Chained (none :: front.map some)) (nodup : front.Nodup)
    (after : ∀ z, (∀ a ∈ z, a ∈ front) → z ≠ front.getLast? → l'.after z = l.after z)
    (prev : ∀ b ∈ front, l'.prev b = l.prev b) : l'.Chained (none :: front.map some) := by
  have distinct : (none :: front.map some).Nodup := by
    refine List.nodup_cons.mpr ⟨by simp, nodup.map fun _ _ same => Option.some.inj same⟩
  refine chained.congr ?_ ?_
  · intro z mem
    refine after z ?_ ?_
    · rintro a rfl
      simpa using List.mem_of_mem_dropLast mem
    · rintro rfl
      rw [← List.dropLast_append_getLast? _ getLast?_places] at distinct
      exact (List.nodup_append.mp distinct).2.2 _ mem _ (List.mem_singleton_self _) rfl
  · intro b mem
    exact prev b (by simpa using mem)

/-- The nodes behind a cut only depend on the pointers behind it. -/
theorem Chained.congr_back (chained : l.Chained (back.map some ++ [none])) (nodup : back.Nodup)
    (next : ∀ a ∈ back, l'.next a = l.next a)
    (prev : ∀ b ∈ back, some b ≠ back.head? → l'.prev b = l.prev b) :
    l'.Chained (back.map some ++ [none]) := by
  refine chained.congr ?_ ?_
  · intro z mem
    rw [List.dropLast_concat] at mem
    obtain ⟨a, inside, rfl⟩ := List.mem_map.mp mem
    exact next a inside
  · intro b mem
    cases back with
    | nil => cases mem
    | cons c rest =>
        have inRest : b ∈ rest := by simpa using mem
        refine prev b (List.mem_cons_of_mem _ inRest) ?_
        rintro ⟨⟩
        exact (List.nodup_cons.mp nodup).1 inRest

/-- In a list the next node follows. -/
theorem Listed.next (listed : l.Listed (front ++ n :: back)) : l.next n = back.head? := by
  have split : front ++ n :: back = (front ++ [n]) ++ back := by simp
  have chained := listed.chained
  rw [split, chained_cut] at chained
  have joined := chained.2.2.1
  rwa [List.getLast?_concat] at joined

/-- In a list the previous node precedes. -/
theorem Listed.prev (listed : l.Listed (front ++ n :: back)) : l.prev n = front.getLast? :=
  (chained_cut.mp listed.chained).2.2.2 n rfl

theorem Listed.head (listed : l.Listed ids) : l.head = ids.head? := by
  have chained := listed.chained
  rw [← List.nil_append ids, chained_cut] at chained
  exact chained.2.2.1

/-- The pointers of a list are inverse to each other. -/
theorem Listed.next_eq_iff (listed : l.Listed ids) (mem : a ∈ ids) (mem' : b ∈ ids) :
    l.next a = some b ↔ l.prev b = some a := by
  constructor
  · intro next
    obtain ⟨front, back, rfl⟩ := List.append_of_mem mem
    rw [listed.next] at next
    obtain ⟨rest, rfl⟩ := List.head?_eq_some_iff.mp next
    have split : front ++ a :: b :: rest = (front ++ [a]) ++ b :: rest := by simp
    rw [split] at listed
    rw [listed.prev, List.getLast?_concat]
  · intro prev
    obtain ⟨front, back, rfl⟩ := List.append_of_mem mem'
    rw [listed.prev] at prev
    obtain ⟨rest, rfl⟩ := List.getLast?_eq_some_iff.mp prev
    have split : (rest ++ [a]) ++ b :: back = rest ++ a :: b :: back := by simp
    rw [split] at listed
    rw [listed.next, List.head?_cons]

/-- The pointers of a node outside a list may be anything. -/
theorem Listed.congr (listed : l.Listed ids) (head : l'.head = l.head)
    (next : ∀ a ∈ ids, l'.next a = l.next a) (prev : ∀ a ∈ ids, l'.prev a = l.prev a) :
    l'.Listed ids where
  chained := by
    have chained := listed.chained
    rw [← List.nil_append ids, chained_cut] at chained ⊢
    obtain ⟨-, rest, first⟩ := chained
    refine ⟨chained_singleton, rest.congr_back listed.nodup next fun b mem _ => prev b mem, ?_⟩
    refine ⟨head.trans first.1, fun b isHead => ?_⟩
    exact (prev b (List.mem_of_head? isHead)).trans (first.2 b isHead)
  nodup := listed.nodup

/-- Two parts of a list with a new pair of pointers at the cut. -/
theorem Listed.rejoin {back' : List α} (listed : l.Listed (front ++ back)) (nodup : (front ++ back').Nodup)
    (behind : l'.Chained (back'.map some ++ [none])) (joined : l'.Joined front.getLast? back'.head?)
    (after : ∀ z, (∀ a ∈ z, a ∈ front) → z ≠ front.getLast? → l'.after z = l.after z)
    (prev : ∀ b ∈ front, l'.prev b = l.prev b) : l'.Listed (front ++ back') where
  chained := by
    refine chained_cut.mpr ⟨?_, behind, joined⟩
    exact (chained_cut.mp listed.chained).1.congr_front (List.nodup_append.mp nodup).1 after prev
  nodup := nodup

variable [DecidableEq α]

/-- Set what follows a place. -/
def setAfter (l : Links α) : Option α → Option α → Links α
  | none, y => { l with head := y }
  | some a, y => l.setNext a y

/-- Set what precedes a place; nothing is to be set behind the last node. -/
def setBefore (l : Links α) : Option α → Option α → Links α
  | none, _ => l
  | some b, x => l.setPrev b x

@[simp]
theorem prev_setAfter : (l.setAfter x y).prev = l.prev := by
  cases x <;> rfl

@[simp]
theorem after_setBefore : (l.setBefore y x).after z = l.after z := by
  cases y <;> cases z <;> rfl

theorem after_setAfter : (l.setAfter x y).after z = if z = x then y else l.after z := by
  cases x with
  | none => cases z <;> rfl
  | some a =>
      cases z with
      | none => rfl
      | some b => simp [setAfter, setNext, Function.update_apply]

theorem prev_setBefore : (l.setBefore y x).prev b = if some b = y then x else l.prev b := by
  cases y with
  | none => rfl
  | some a => simp [setBefore, setPrev, Function.update_apply]

/-- Put a node between two places. -/
def splice (l : Links α) (x : Option α) (new : α) (y : Option α) : Links α :=
  (((l.setNext new y).setPrev new x).setAfter x (some new)).setBefore y (some new)

/-- Join two places, past the nodes between them. -/
def bypass (l : Links α) (x y : Option α) : Links α := (l.setBefore y x).setAfter x y

theorem after_splice : (l.splice x new y).after z =
    if z = x then some new else if z = some new then y else l.after z := by
  have own : ((l.setNext new y).setPrev new x).after z = if z = some new then y else l.after z :=
    (after_setBefore (y := some new)).trans (after_setAfter (x := some new))
  rw [splice, after_setBefore, after_setAfter, own]

theorem prev_splice : (l.splice x new y).prev b =
    if some b = y then some new else if b = new then x else l.prev b := by
  have own : ((l.setNext new y).setPrev new x).prev b = if b = new then x else l.prev b := by
    simp [setPrev, setNext, Function.update_apply]
  rw [splice, prev_setBefore, prev_setAfter, own]

theorem after_bypass : (l.bypass x y).after z = if z = x then y else l.after z := by
  rw [bypass, after_setAfter, after_setBefore]

theorem prev_bypass : (l.bypass x y).prev b = if some b = y then x else l.prev b := by
  rw [bypass, prev_setAfter, prev_setBefore]

/-- A new node between two parts of a list. -/
theorem Listed.splice (listed : l.Listed (front ++ back)) (fresh : new ∉ front ++ back) :
    (l.splice front.getLast? new back.head?).Listed (front ++ new :: back) := by
  obtain ⟨nodupFront, nodupBack, apart⟩ := List.nodup_append.mp listed.nodup
  have notFront : new ∉ front := fun mem => fresh (List.mem_append_left _ mem)
  have notBack : new ∉ back := fun mem => fresh (List.mem_append_right _ mem)
  have nodup : (front ++ new :: back).Nodup :=
    List.nodup_middle.mpr (List.nodup_cons.mpr ⟨fresh, listed.nodup⟩)
  have headIn : ∀ b, some b = back.head? → b ∈ back := fun b first => List.mem_of_head? first.symm
  have lastIn : ∀ a, some a = front.getLast? → a ∈ front :=
    fun a last => List.mem_of_getLast? last.symm
  refine listed.rejoin nodup ?_ ?_ ?_ ?_
  · have chained := (chained_cut.mp listed.chained).2.1
    have rest : (l.splice front.getLast? new back.head?).Chained (back.map some ++ [none]) := by
      refine chained.congr_back nodupBack ?_ ?_
      · intro a mem
        have next := @after_splice _ l front.getLast? back.head? (some a) new _
        rw [if_neg, if_neg] at next
        · exact next
        · rintro ⟨⟩
          exact notBack mem
        · intro last
          exact apart a (lastIn a last) a mem rfl
      · intro b mem notFirst
        rw [prev_splice, if_neg notFirst, if_neg]
        rintro rfl
        exact notBack mem
    refine List.isChain_cons.mpr ⟨?_, rest⟩
    change ∀ y ∈ (back.map some ++ [none]).head?, _
    rw [head?_places]
    rintro _ ⟨⟩
    constructor
    · rw [after_splice, if_neg fun last => notFront (lastIn new last), if_pos rfl]
    · intro b first
      rw [prev_splice, if_pos first.symm]
  · constructor
    · rw [after_splice, if_pos rfl]
      rfl
    · rintro _ ⟨⟩
      rw [prev_splice, if_neg fun first => notBack (headIn _ first), if_pos rfl]
  · intro z inside notLast
    rw [after_splice, if_neg notLast, if_neg]
    rintro rfl
    exact notFront (inside new rfl)
  · intro b mem
    rw [prev_splice, if_neg fun first => apart b mem b (headIn b first) rfl, if_neg]
    rintro rfl
    exact notFront mem

/-- A list without one of its nodes. -/
theorem Listed.bypass (listed : l.Listed (front ++ n :: back)) :
    (l.bypass front.getLast? back.head?).Listed (front ++ back) := by
  obtain ⟨nodupFront, nodupRest, apart⟩ := List.nodup_append.mp listed.nodup
  have nodupBack := (List.nodup_cons.mp nodupRest).2
  have nodup : (front ++ back).Nodup := (List.nodup_cons.mp (List.nodup_middle.mp listed.nodup)).2
  have headIn : ∀ b, some b = back.head? → b ∈ n :: back :=
    fun b first => List.mem_cons_of_mem _ (List.mem_of_head? first.symm)
  have lastIn : ∀ a, some a = front.getLast? → a ∈ front :=
    fun a last => List.mem_of_getLast? last.symm
  refine listed.rejoin nodup ?_ ?_ ?_ ?_
  · have chained := (List.isChain_cons.mp (chained_cut.mp listed.chained).2.1).2
    refine Chained.congr_back chained nodupBack ?_ ?_
    · intro a mem
      have next := @after_bypass _ l front.getLast? back.head? (some a) _
      rw [if_neg] at next
      · exact next
      · intro last
        exact apart a (lastIn a last) a (List.mem_cons_of_mem _ mem) rfl
    · intro b _ notFirst
      rw [prev_bypass, if_neg notFirst]
  · constructor
    · rw [after_bypass, if_pos rfl]
    · intro b first
      rw [prev_bypass, if_pos first.symm]
  · intro z _ notLast
    rw [after_bypass, if_neg notLast]
  · intro b mem
    rw [prev_bypass, if_neg fun first => apart b mem b (headIn b first) rfl]

end Links

end Lps.Linked

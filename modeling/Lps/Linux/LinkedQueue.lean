import Lps.Linked.Links
import Lps.Linux.Queue
import Mathlib.Data.List.Infix
import Mathlib.Data.List.Nodup

/-!
# Queues of linked threads

A `struct Queue` is a circle of list nodes: a dummy head, and the `elem` fields
of the threads in it.  Its tail pointer says where the circle ends; a queue that
has not been used may have null pointers in its dummy head.  A thread has one
`elem`, so it moves between queues by rewriting the same links.
-/

namespace Lps.Linux

open Lps.Linked

/-- The queues of the round-robin scheduler: the run queue and the wait queues. -/
inductive QueueId (ω : Type) : Type
  | runq
  | wait (q : ω)
  deriving DecidableEq

/-- A `struct List`: the dummy head of a queue or the `elem` of a thread. -/
inductive ListNode (ω : Type) : Type
  | dummy (q : QueueId ω)
  | elem (t : Tid)
  deriving DecidableEq

/-- The links of all list nodes and the tail pointer of every queue. -/
structure QueueMem (ω : Type) where
  links : Links (ListNode ω)
  tail : QueueId ω → ListNode ω

namespace QueueMem

variable {ω : Type}

/-- Before the first thread: `QUEUE_INIT` for the run queue, `queue_init` for the
wait queues, and `list_init` for every thread. -/
def init : QueueMem ω where
  links := {
    head := none
    next := fun node => if let .dummy .runq := node then none else some node
    prev := fun node => if let .dummy .runq := node then none else some node }
  tail := .dummy

variable [DecidableEq ω]

/-- `queue_is_empty`. -/
def queueIsEmpty (m : QueueMem ω) (q : QueueId ω) : Bool := m.tail q = .dummy q

/-- `queue_enqueue`. -/
def queueEnqueue (m : QueueMem ω) (q : QueueId ω) (elem : ListNode ω) : QueueMem ω where
  links := (m.links.join (m.tail q) elem).join elem (.dummy q)
  tail := Function.update m.tail q elem

/-- `queue_dequeue`; it fails where it follows a null pointer. -/
def queueDequeue (m : QueueMem ω) (q : QueueId ω) :
    Option (Option (ListNode ω) × QueueMem ω) :=
  if m.queueIsEmpty q then some (none, m)
  else do
    let elem ← m.links.next (.dummy q)
    let next ← m.links.next elem
    some (some elem, {
      links := m.links.join (.dummy q) next
      tail := if m.tail q = elem then Function.update m.tail q (.dummy q) else m.tail })

/-- The nodes of a queue of these threads, from the dummy head on. -/
def nodes (q : QueueId ω) (ts : Queue) : List (ListNode ω) := .dummy q :: ts.map .elem

omit [DecidableEq ω] in
@[simp]
theorem mem_nodes {q : QueueId ω} {ts : Queue} {node : ListNode ω} :
    node ∈ nodes q ts ↔ node = .dummy q ∨ ∃ t ∈ ts, node = .elem t := by
  simp [nodes, eq_comm]

/-- The queue links these threads, first to leave in front. -/
structure Represents (m : QueueMem ω) (q : QueueId ω) (ts : Queue) : Prop where
  nodup : ts.Nodup
  tail : (nodes q ts).getLast? = some (m.tail q)
  chain : m.links.Chained ((nodes q ts).map some)
  close : ts ≠ [] → m.links.Joined (some (m.tail q)) (some (.dummy q))

variable {m m' : QueueMem ω} {q q' : QueueId ω} {ts ts' rest : Queue} {t : Tid}

omit [DecidableEq ω] in
/-- A queue depends on its own nodes only. -/
theorem Represents.congr (rep : m.Represents q ts) (tail : m'.tail q = m.tail q)
    (next : ∀ node ∈ nodes q ts, m'.links.next node = m.links.next node)
    (prev : ∀ node ∈ nodes q ts, m'.links.prev node = m.links.prev node) :
    m'.Represents q ts := by
  have tailNode : m.tail q ∈ nodes q ts := List.mem_of_getLast? rep.tail
  have dummyNode : .dummy q ∈ nodes q ts := List.mem_cons_self
  constructor
  · exact rep.nodup
  · rw [tail]
    exact rep.tail
  · apply rep.chain.congr
    · intro z mem
      obtain ⟨node, isNode, rfl⟩ := List.mem_map.mp (List.mem_of_mem_dropLast mem)
      exact next node isNode
    · intro b mem
      obtain ⟨node, isNode, same⟩ := List.mem_map.mp (List.mem_of_mem_tail mem)
      cases same
      exact prev b isNode
  · intro nonempty
    obtain ⟨follows, precedes⟩ := rep.close nonempty
    rw [tail]
    constructor
    · exact (next _ tailNode).trans follows
    · rintro _ ⟨⟩
      exact (prev _ dummyNode).trans (precedes _ rfl)

omit [DecidableEq ω] in
/-- Queues that share no thread share no node. -/
theorem nodes_disjoint (ne : q' ≠ q) (disjoint : ∀ u ∈ ts, u ∉ ts') :
    ∀ node ∈ nodes q' ts', node ∉ nodes q ts := by
  intro node mem mem'
  simp only [mem_nodes] at mem mem'
  obtain rfl | ⟨u, inside, rfl⟩ := mem
  · obtain same | ⟨_, _, impossible⟩ := mem'
    · exact ne (ListNode.dummy.inj same)
    · cases impossible
  · obtain impossible | ⟨v, inside', same⟩ := mem'
    · cases impossible
    · cases same
      exact disjoint u inside' inside

omit [DecidableEq ω] in
theorem Represents.nodup_nodes (rep : m.Represents q ts) : (nodes q ts).Nodup := by
  have elems : (ts.map (ListNode.elem (ω := ω))).Nodup :=
    rep.nodup.map fun _ _ same => ListNode.elem.inj same
  exact List.nodup_cons.mpr ⟨by simp, elems⟩

omit [DecidableEq ω] in
/-- The links determine the threads of a queue and their order. -/
theorem Represents.unique (rep : m.Represents q ts) (rep' : m.Represents q ts') : ts = ts' := by
  have same := rep.chain.unique rep'.chain rep.nodup_nodes rep'.nodup_nodes
    (rep.tail.trans rep'.tail.symm)
  exact List.map_injective_iff.mpr (fun _ _ => ListNode.elem.inj) same

/-! ## Enqueueing -/

/-- `queue_enqueue` rewrites links of its queue and of the new element only. -/
theorem Represents.enqueue_other (rep : m.Represents q ts) (other : m.Represents q' ts')
    (ne : q' ≠ q) (disjoint : ∀ u ∈ ts, u ∉ ts') (fresh : t ∉ ts') :
    (m.queueEnqueue q (.elem t)).Represents q' ts' := by
  have apart := nodes_disjoint ne disjoint
  have tailNode : m.tail q ∈ nodes q ts := List.mem_of_getLast? rep.tail
  have notElem : ∀ node ∈ nodes q' ts', node ≠ .elem t := by
    rintro _ mem rfl
    simp [fresh] at mem
  have notDummy : ∀ node ∈ nodes q' ts', node ≠ .dummy q := by
    rintro _ mem rfl
    simp [ne.symm] at mem
  apply other.congr
  · exact Function.update_of_ne ne ..
  · intro node mem
    have notTail : node ≠ m.tail q := fun same => apart node mem (same ▸ tailNode)
    simp only [queueEnqueue]
    rw [Links.next_join_of_ne (notElem node mem), Links.next_join_of_ne notTail]
  · intro node mem
    simp only [queueEnqueue]
    rw [Links.prev_join_of_ne (notDummy node mem), Links.prev_join_of_ne (notElem node mem)]

/-- `queue_enqueue` links a thread behind the others. -/
theorem Represents.enqueue (rep : m.Represents q ts) (fresh : t ∉ ts) :
    (m.queueEnqueue q (.elem t)).Represents q (Linux.queueEnqueue ts t) := by
  have grown : nodes q (Linux.queueEnqueue ts t) = nodes q ts ++ [.elem t] := by
    simp [nodes, Linux.queueEnqueue]
  obtain ⟨front, split⟩ : ∃ front, nodes q ts = front ++ [m.tail q] :=
    ⟨_, (List.dropLast_append_getLast? _ rep.tail).symm⟩
  have distinct := rep.nodup_nodes
  have notElem : ∀ node ∈ nodes q ts, node ≠ .elem t := by
    rintro _ mem rfl
    simp [fresh] at mem
  have tailNode : m.tail q ∈ nodes q ts := List.mem_of_getLast? rep.tail
  have tailNeElem : m.tail q ≠ .elem t := notElem _ tailNode
  constructor
  · rw [Linux.queueEnqueue, List.nodup_append]
    refine ⟨rep.nodup, List.nodup_singleton t, ?_⟩
    rintro u inside v isNew rfl
    rw [List.mem_singleton.mp isNew] at inside
    exact fresh inside
  · rw [grown, List.getLast?_concat]
    simp [queueEnqueue]
  · rw [grown, split]
    simp only [List.map_append, List.map_cons, List.map_nil, List.append_assoc,
      List.singleton_append]
    rw [Links.chained_append_cons_cons]
    have chain := rep.chain
    rw [split, List.map_append, List.map_cons, List.map_nil] at chain
    rw [split] at distinct
    refine ⟨chain.congr ?_ ?_, ?_, Links.chained_singleton⟩
    · intro z mem
      rw [List.dropLast_concat] at mem
      obtain ⟨node, inFront, rfl⟩ := List.mem_map.mp mem
      have notTail : node ≠ m.tail q := by
        rintro rfl
        exact (List.nodup_append.mp distinct).2.2 _ inFront _ (List.mem_singleton_self _) rfl
      have inside : node ∈ nodes q ts := split ▸ List.mem_append_left _ inFront
      simp only [queueEnqueue, Links.after_some]
      rw [Links.next_join_of_ne (notElem node inside), Links.next_join_of_ne notTail]
    · intro b mem
      have inElems : b ∈ ts.map (ListNode.elem (ω := ω)) := by
        have whole : front.map some ++ [some (m.tail q)] = (nodes q ts).map some := by
          rw [split, List.map_append, List.map_singleton]
        rw [whole, nodes, List.map_cons, List.tail_cons] at mem
        obtain ⟨node, isNode, same⟩ := List.mem_map.mp mem
        cases same
        exact isNode
      have notDummy : b ≠ .dummy q := by
        rintro rfl
        simp at inElems
      have inside : b ∈ nodes q ts := List.mem_cons_of_mem _ inElems
      simp only [queueEnqueue]
      rw [Links.prev_join_of_ne notDummy, Links.prev_join_of_ne (notElem b inside)]
    · obtain ⟨follows, precedes⟩ := Links.joined_join (l := m.links) (m.tail q) (.elem t)
      simp only [queueEnqueue]
      constructor
      · rw [Links.after_some, Links.next_join_of_ne tailNeElem]
        exact follows
      · rintro _ ⟨⟩
        rw [Links.prev_join_of_ne (by simp)]
        exact precedes _ rfl
  · intro _
    simp only [queueEnqueue, Function.update_self]
    exact Links.joined_join ..

/-! ## Dequeueing -/

theorem Represents.isEmpty_iff (rep : m.Represents q ts) : m.queueIsEmpty q = true ↔ ts = [] := by
  simp only [queueIsEmpty, decide_eq_true_eq]
  constructor
  · intro atDummy
    by_contra nonempty
    have last := rep.tail
    rw [nodes, List.getLast?_cons_of_ne_nil (by simpa using nonempty), atDummy] at last
    simpa using List.mem_of_getLast? last
  · rintro rfl
    have last := rep.tail
    simpa [nodes] using last.symm

/-- `queue_dequeue` returns a null pointer for an empty queue. -/
theorem Represents.dequeue_nil (rep : m.Represents q []) : m.queueDequeue q = some (none, m) :=
  if_pos (rep.isEmpty_iff.mpr rfl)

/-- What follows the first thread of a queue: the next thread, or the dummy head; after
unlinking the first thread it follows the dummy head. -/
theorem Represents.behind_first (rep : m.Represents q (t :: rest)) :
    ∃ behind ∈ nodes q rest, m.links.next (.elem t) = some behind ∧
      (nodes q rest).getLast? = some (if m.tail q = .elem t then .dummy q else m.tail q) ∧
      (m.links.join (.dummy q) behind).Chained ((nodes q rest).map some) ∧
      (rest ≠ [] → m.tail q ≠ .elem t ∧
        (m.links.join (.dummy q) behind).Joined (some (m.tail q)) (some (.dummy q))) := by
  have last := rep.tail
  obtain ⟨follows, precedes⟩ := rep.close (List.cons_ne_nil _ _)
  cases rest with
  | nil =>
      have isTail : m.tail q = .elem t := by simpa [nodes] using last.symm
      rw [isTail] at follows
      refine ⟨.dummy q, by simp, follows, by simp [isTail, nodes], ?_, by simp⟩
      exact Links.chained_singleton
  | cons u rest =>
      have chain := rep.chain
      simp only [nodes, List.map_cons] at chain
      rw [Links.chained_cons_cons, Links.chained_cons_cons] at chain
      obtain ⟨-, ⟨next, -⟩, chain⟩ := chain
      obtain ⟨fresh, nodup⟩ := List.nodup_cons.mp rep.nodup
      have inRest : m.tail q ∈ (u :: rest).map (ListNode.elem (ω := ω)) := by
        rw [nodes, List.map_cons, List.map_cons, List.getLast?_cons_cons,
          List.getLast?_cons_cons] at last
        exact List.mem_of_getLast? last
      have notFirst : m.tail q ≠ .elem t := by
        intro same
        rw [same] at inRest
        simp only [List.mem_map, ListNode.elem.injEq, exists_eq_right] at inRest
        exact fresh inRest
      have notDummy : m.tail q ≠ .dummy q := by
        intro same
        rw [same] at inRest
        simp at inRest
      refine ⟨.elem u, by simp, next, ?_, ?_, ?_⟩
      · rw [if_neg notFirst, ← last]
        simp [nodes]
      · simp only [nodes, List.map_cons]
        rw [Links.chained_cons_cons]
        refine ⟨Links.joined_join .., chain.congr ?_ ?_⟩
        · intro z mem
          have inside := List.mem_of_mem_dropLast mem
          simp only [← List.map_cons, List.mem_map] at inside
          obtain ⟨_, ⟨v, -, rfl⟩, rfl⟩ := inside
          exact Links.next_join_of_ne (by simp)
        · intro b mem
          simp only [List.tail_cons, List.mem_map] at mem
          obtain ⟨_, ⟨v, inside, rfl⟩, same⟩ := mem
          cases same
          apply Links.prev_join_of_ne
          intro same
          cases same
          exact (List.nodup_cons.mp nodup).1 inside
      · intro _
        refine ⟨notFirst, ?_, ?_⟩
        · rw [Links.after_some, Links.next_join_of_ne notDummy]
          exact follows
        · rintro _ ⟨⟩
          rw [Links.prev_join_of_ne (by simp)]
          exact precedes _ rfl

/-- `queue_dequeue` unlinks the first thread, and leaves the other queues alone. -/
theorem Represents.dequeue_cons (rep : m.Represents q (t :: rest)) :
    ∃ m', m.queueDequeue q = some (some (.elem t), m') ∧ m'.Represents q rest ∧
      ∀ q' ts', m.Represents q' ts' → q' ≠ q → (∀ u ∈ t :: rest, u ∉ ts') →
        m'.Represents q' ts' := by
  have nonempty : m.queueIsEmpty q = false := by
    rw [Bool.eq_false_iff]
    exact fun empty => List.cons_ne_nil _ _ (rep.isEmpty_iff.mp empty)
  have chain := rep.chain
  simp only [nodes, List.map_cons] at chain
  rw [Links.chained_cons_cons] at chain
  have first : m.links.next (.dummy q) = some (.elem t) := chain.1.1
  obtain ⟨behind, inRest, follows, last, chained, close⟩ := rep.behind_first
  refine ⟨{
    links := m.links.join (.dummy q) behind
    tail := if m.tail q = .elem t then Function.update m.tail q (.dummy q) else m.tail }, ?_, ?_, ?_⟩
  · rw [queueDequeue, nonempty]
    simp [first, follows]
  · refine ⟨(List.nodup_cons.mp rep.nodup).2, ?_, chained, ?_⟩
    · rw [last]
      dsimp only
      split <;> simp
    · intro more
      obtain ⟨notFirst, joined⟩ := close more
      dsimp only
      rw [if_neg notFirst]
      exact joined
  · intro q' ts' other ne disjoint
    have apart := nodes_disjoint ne disjoint
    have behindInside : behind ∈ nodes q (t :: rest) := by
      simp only [mem_nodes, List.mem_cons] at inRest ⊢
      exact inRest.imp_right fun ⟨u, inside, same⟩ => ⟨u, .inr inside, same⟩
    apply other.congr
    · dsimp only
      split
      · exact Function.update_of_ne ne ..
      · rfl
    · intro node mem
      exact Links.next_join_of_ne fun same => apart node mem (by simp [same])
    · intro node mem
      exact Links.prev_join_of_ne fun same => apart node mem (same ▸ behindInside)

omit [DecidableEq ω] in
/-- Before their first use all queues are empty. -/
theorem init_represents (q : QueueId ω) : init.Represents q [] := by
  constructor
  · exact List.nodup_nil
  · rfl
  · exact Links.chained_singleton
  · simp

/-! ## All queues -/

/-- What all queues link; no thread is linked twice. -/
structure Holds (m : QueueMem ω) (contents : QueueId ω → Queue) : Prop where
  represents : ∀ q, m.Represents q (contents q)
  once : ∀ {q q' t}, t ∈ contents q → t ∈ contents q' → q = q'

variable {contents : QueueId ω → Queue}

omit [DecidableEq ω] in
theorem init_holds : init.Holds fun _ : QueueId ω => [] where
  represents := init_represents
  once := by simp

omit [DecidableEq ω] in
/-- Two queues share no thread. -/
theorem Holds.disjoint (holds : m.Holds contents) (ne : q' ≠ q) :
    ∀ u ∈ contents q, u ∉ contents q' := fun _ inside inside' => ne (holds.once inside' inside)

/-- A thread that no queue links can be enqueued. -/
theorem Holds.enqueue (holds : m.Holds contents) (fresh : ∀ q', t ∉ contents q') :
    (m.queueEnqueue q (.elem t)).Holds
      (Function.update contents q (Linux.queueEnqueue (contents q) t)) where
  represents := by
    intro q'
    by_cases same : q' = q
    · subst same
      rw [Function.update_self]
      exact (holds.represents _).enqueue (fresh _)
    · rw [Function.update_of_ne same]
      exact (holds.represents q).enqueue_other (holds.represents q') same (holds.disjoint same)
        (fresh q')
  once := by
    intro q₁ q₂ u inside inside'
    simp only [Function.update_apply] at inside inside'
    split at inside <;> split at inside' <;> rename_i same same'
    · exact same.trans same'.symm
    · rcases mem_queueEnqueue.mp inside with old | rfl
      · exact same.trans (holds.once old inside')
      · exact absurd inside' (fresh q₂)
    · rcases mem_queueEnqueue.mp inside' with old | rfl
      · exact (holds.once inside old).trans same'.symm
      · exact absurd inside (fresh q₁)
    · exact holds.once inside inside'

/-- The first thread of a queue can be dequeued; no queue links it any more. -/
theorem Holds.dequeue (holds : m.Holds contents) (front : contents q = t :: rest) :
    ∃ m', m.queueDequeue q = some (some (.elem t), m') ∧
      m'.Holds (Function.update contents q rest) ∧ ∀ q', t ∉ Function.update contents q rest q' := by
  have rep := holds.represents q
  rw [front] at rep
  obtain ⟨m', dequeued, shorter, others⟩ := rep.dequeue_cons
  have fresh : t ∉ rest := (List.nodup_cons.mp rep.nodup).1
  have first : t ∈ contents q := front ▸ List.mem_cons_self
  have fewer : ∀ {q' u}, u ∈ Function.update contents q rest q' → u ∈ contents q' := by
    intro q' u inside
    by_cases same : q' = q
    · subst same
      rw [Function.update_self] at inside
      rw [front]
      exact List.mem_cons_of_mem _ inside
    · rwa [Function.update_of_ne same] at inside
  refine ⟨m', dequeued, ⟨?_, fun inside inside' => holds.once (fewer inside) (fewer inside')⟩, ?_⟩
  · intro q'
    by_cases same : q' = q
    · subst same
      rw [Function.update_self]
      exact shorter
    · rw [Function.update_of_ne same]
      exact others q' _ (holds.represents q') same (front ▸ holds.disjoint same)
  · intro q' inside
    have same := holds.once (fewer inside) first
    subst same
    rw [Function.update_self] at inside
    exact fresh inside

end QueueMem

end Lps.Linux

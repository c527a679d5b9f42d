import Lps.Core.MmapCursor
import Lps.Core.MmapHeap

/-!
# The memory holds the list

The nodes in memory and their pointers stand for the list of the tracker.  Inserting and
removing a node do on the list what they say, and every operation in memory simulates the
operation on the list: it makes the same calls, goes down only in the callback, and leaves
the memory with the list that the other one leaves.
-/

namespace Lps.Core

open Lps.Program Lps.Linked Lps.Interval

namespace MMHeap

/-- The first node of a list. -/
def firstOf (nodes : List MMNode) : Option NodeId := nodes.head?.map MMNode.id

/-- These nodes are in memory and linked in this order. -/
structure Holds (h : MMHeap) (nodes : List MMNode) : Prop where
  listed : h.links.Listed (nodes.map MMNode.id)
  node : ∀ node ∈ nodes, h.node node.id = some node

/-- The memory stands for a tracker. -/
structure Represents (h : MMHeap) (mm : MMAddrSpace) : Prop where
  base : h.base = mm.base
  len : h.len = mm.len
  p2pagesize : h.p2pagesize = mm.p2pagesize
  holds : h.Holds mm.nodes
  cursor : h.cursor = mm.cursor
  made : h.made = mm.made

variable {h h' : MMHeap} {mm : MMAddrSpace} {nodes front back : List MMNode} {n new : MMNode}

/-! ## Nodes -/

namespace Holds

theorem read (holds : h.Holds nodes) (mem : n ∈ nodes) : h.read n.id = pure n := by
  rw [MMHeap.read, holds.node n mem]

theorem next (holds : h.Holds (front ++ n :: back)) : h.links.next n.id = firstOf back := by
  have listed := holds.listed
  rw [List.map_append, List.map_cons] at listed
  rw [listed.next, List.head?_map, firstOf]

theorem prev (holds : h.Holds (front ++ n :: back)) : h.links.prev n.id = prevOf front := by
  have listed := holds.listed
  rw [List.map_append, List.map_cons] at listed
  rw [listed.prev, List.getLast?_map, prevOf]

theorem head (holds : h.Holds nodes) : h.links.head = firstOf nodes := by
  rw [holds.listed.head, List.head?_map, firstOf]

/-- Only the links and the nodes of the list matter. -/
theorem congr (holds : h.Holds nodes) (links : h'.links = h.links)
    (node : ∀ node ∈ nodes, h'.node node.id = h.node node.id) : h'.Holds nodes where
  listed := by
    rw [links]
    exact holds.listed
  node := fun other mem => (node other mem).trans (holds.node other mem)

theorem nodup (holds : h.Holds nodes) : (nodes.map MMNode.id).Nodup := holds.listed.nodup

theorem id_not_mem (holds : h.Holds (front ++ n :: back)) :
    n.id ∉ (front ++ back).map MMNode.id := by
  have nodup := holds.nodup
  rw [List.map_append, List.map_cons, List.nodup_middle, ← List.map_append] at nodup
  exact (List.nodup_cons.mp nodup).1

/-- A node may be given new fields. -/
theorem write (holds : h.Holds (front ++ n :: back)) (same : new.id = n.id) :
    (h.write new).Holds (front ++ new :: back) where
  listed := by
    have listed := holds.listed
    simp only [List.map_append, List.map_cons, same] at listed ⊢
    exact listed
  node := by
    intro other mem
    by_cases isNew : other.id = new.id
    · have apart := holds.id_not_mem
      have here : other = new := by
        by_contra ne
        refine apart ?_
        rw [← same, ← isNew]
        refine List.mem_map_of_mem ?_
        simp only [List.mem_append, List.mem_cons, ne, false_or] at mem
        exact List.mem_append.mpr mem
      rw [here]
      exact Function.update_self ..
    · rw [MMHeap.write]
      dsimp only
      rw [Function.update_of_ne isNew]
      refine holds.node other ?_
      simp only [List.mem_append, List.mem_cons] at mem ⊢
      refine mem.imp_right fun later => .inr (later.resolve_left ?_)
      rintro rfl
      exact isNew rfl

/-- A node outside the list may be made ready. -/
theorem initNode (holds : h.Holds nodes) (fresh : new.id ∉ nodes.map MMNode.id) :
    (h.initNode new).Holds nodes where
  listed := by
    refine holds.listed.congr rfl ?_ ?_
    · intro a mem
      have ne : a ≠ new.id := fun same => fresh (same ▸ mem)
      exact Links.next_setNext_of_ne ne
    · intro a mem
      have ne : a ≠ new.id := fun same => fresh (same ▸ mem)
      exact Links.prev_setPrev_of_ne ne
  node := by
    intro other mem
    have ne : other.id ≠ new.id := fun same => fresh (same ▸ List.mem_map_of_mem mem)
    exact (Function.update_of_ne ne _ _).trans (holds.node other mem)

/-- The memory of a node outside the list may be given back. -/
theorem release (holds : h.Holds nodes) {id : NodeId} (fresh : id ∉ nodes.map MMNode.id) :
    (h.release id).Holds nodes := by
  refine holds.congr rfl ?_
  intro other mem
  have ne : other.id ≠ id := fun same => fresh (same ▸ List.mem_map_of_mem mem)
  exact Function.update_of_ne ne ..

/-- The node before a place can be read. -/
theorem read_prevOf (holds : h.Holds (front ++ back)) {id : NodeId} (last : prevOf front = some id) :
    ∃ node, h.read id = pure node := by
  obtain ⟨node, isLast, rfl⟩ := Option.map_eq_some_iff.mp last
  exact ⟨node, holds.read (List.mem_append_left _ (List.mem_of_getLast? isLast))⟩

/-- The node behind a place can be read. -/
theorem read_firstOf (holds : h.Holds (front ++ back)) {id : NodeId} (first : firstOf back = some id) :
    ∃ node, h.read id = pure node := by
  obtain ⟨node, isFirst, rfl⟩ := Option.map_eq_some_iff.mp first
  exact ⟨node, holds.read (List.mem_append_right _ (List.mem_of_head? isFirst))⟩

/-- A node in memory is put between two parts of the list. -/
theorem splice (holds : h.Holds (front ++ back)) (ready : h.node new.id = some new)
    (fresh : new.id ∉ (front ++ back).map MMNode.id) :
    ({ h with links := h.links.splice (prevOf front) new.id (firstOf back) } : MMHeap).Holds
      (front ++ new :: back) where
  listed := by
    have listed := holds.listed
    rw [List.map_append] at listed fresh ⊢
    rw [prevOf, firstOf, ← List.getLast?_map, ← List.head?_map]
    exact listed.splice fresh
  node := by
    intro other mem
    rw [List.mem_append, List.mem_cons] at mem
    rcases mem with before | rfl | behind
    · exact holds.node other (List.mem_append_left _ before)
    · exact ready
    · exact holds.node other (List.mem_append_right _ behind)

/-- `node_insert_before` puts a node in front of another one. -/
theorem nodeInsertBefore (holds : h.Holds (front ++ n :: back)) (ready : h.node new.id = some new)
    (fresh : new.id ∉ (front ++ n :: back).map MMNode.id) :
    ∃ links, h.nodeInsertBefore n.id new.id = pure { h with links := links } ∧
      ({ h with links := links } : MMHeap).Holds (front ++ new :: n :: back) := by
  have readNew : h.read new.id = pure new := by rw [MMHeap.read, ready]
  have ne : n.id ≠ new.id := by
    intro same
    rw [← same] at fresh
    exact fresh (by simp)
  refine ⟨_, ?_, holds.splice ready fresh⟩
  rw [MMHeap.nodeInsertBefore, holds.read (by simp), readNew, pure_bind, pure_bind]
  simp only [Links.prev_setNext, Links.prev_setPrev_of_ne ne, holds.prev]
  cases last : prevOf front with
  | none => rfl
  | some p =>
      obtain ⟨node, found⟩ := holds.read_prevOf last
      simp only [found, pure_bind]
      rfl

/-- `node_insert_after` puts a node behind another one. -/
theorem nodeInsertAfter (holds : h.Holds (front ++ n :: back)) (ready : h.node new.id = some new)
    (fresh : new.id ∉ (front ++ n :: back).map MMNode.id) :
    ∃ links, h.nodeInsertAfter n.id new.id = pure { h with links := links } ∧
      ({ h with links := links } : MMHeap).Holds (front ++ n :: new :: back) := by
  have readNew : h.read new.id = pure new := by rw [MMHeap.read, ready]
  have ne : n.id ≠ new.id := by
    intro same
    rw [← same] at fresh
    exact fresh (by simp)
  have split : front ++ n :: back = (front ++ [n]) ++ back := by simp
  have placed : front ++ n :: new :: back = (front ++ [n]) ++ new :: back := by simp
  have last : prevOf (front ++ [n]) = some n.id := by simp [prevOf]
  have holds' := holds
  rw [split] at holds'
  have spliced := holds'.splice ready (by rwa [← split])
  rw [last] at spliced
  rw [placed]
  refine ⟨_, ?_, spliced⟩
  rw [MMHeap.nodeInsertAfter, holds.read (by simp), readNew, pure_bind, pure_bind]
  simp only [Links.next_setPrev, Links.next_setNext_of_ne ne, holds.next]
  cases first : firstOf back with
  | none => rfl
  | some p =>
      obtain ⟨node, found⟩ := holds'.read_firstOf first
      simp only [found, pure_bind]
      rfl

/-- `node_remove` removes a node. -/
theorem nodeRemove (holds : h.Holds (front ++ n :: back)) :
    ∃ links, h.nodeRemove n.id = pure { h with links := links } ∧
      ({ h with links := links } : MMHeap).Holds (front ++ back) := by
  have apart := holds.id_not_mem
  have split : front ++ n :: back = (front ++ [n]) ++ back := by simp
  have bypassed : (h.links.bypass (prevOf front) (firstOf back)).Listed
      ((front ++ back).map MMNode.id) := by
    have listed := holds.listed
    rw [List.map_append, List.map_cons] at listed
    rw [List.map_append, prevOf, firstOf, ← List.getLast?_map, ← List.head?_map]
    exact listed.bypass
  refine ⟨((h.links.bypass (prevOf front) (firstOf back)).setNext n.id none).setPrev n.id none, ?_,
    ?_, ?_⟩
  · have behindNe : ∀ p, firstOf back = some p → n.id ≠ p := by
      rintro p first rfl
      obtain ⟨node, isFirst, same⟩ := Option.map_eq_some_iff.mp first
      refine apart (same ▸ List.mem_map_of_mem ?_)
      exact List.mem_append_right _ (List.mem_of_head? isFirst)
    rw [MMHeap.nodeRemove, holds.read (by simp), pure_bind]
    simp only [holds.next, holds.prev]
    cases first : firstOf back with
    | none =>
        simp only [pure_bind, holds.prev, holds.next, first]
        cases last : prevOf front with
        | none => rfl
        | some p =>
            obtain ⟨node, found⟩ := holds.read_prevOf last
            simp only [found, pure_bind]
            rfl
    | some q =>
        have ne := behindNe q first
        rw [split] at holds
        obtain ⟨behind, found⟩ := holds.read_firstOf first
        rw [← split] at holds
        simp only [found, pure_bind, Links.next_setPrev, holds.next, first]
        rw [Links.prev_setPrev_of_ne ne, holds.prev]
        cases last : prevOf front with
        | none => rfl
        | some p =>
            obtain ⟨before, found⟩ := holds.read_prevOf last
            simp only [found, pure_bind]
            rfl
  · refine bypassed.congr rfl ?_ ?_
    · intro a mem
      exact Links.next_setNext_of_ne fun same => apart (same ▸ mem)
    · intro a mem
      exact Links.prev_setPrev_of_ne fun same => apart (same ▸ mem)
  · intro other mem
    refine holds.node other ?_
    rw [List.mem_append] at mem
    simp only [List.mem_append, List.mem_cons]
    exact mem.imp_right .inr

end Holds

/-- The cursor may be set. -/
theorem Represents.setCursor (rep : h.Represents mm) (cursor : Option NodeId) :
    ({ h with cursor := cursor } : MMHeap).Represents { mm with cursor := cursor } :=
  { rep with
    holds := rep.holds.congr rfl fun _ _ => rfl
    cursor := rfl }

/-- The cursor is set when it is the old one. -/
theorem Represents.moveCursor (rep : h.Represents mm) (old pointer : Option NodeId) :
    (if h.cursor = old then { h with cursor := pointer } else h).Represents
      { mm with cursor := if mm.cursor = old then pointer else mm.cursor } := by
  rw [rep.cursor]
  split
  · exact rep.setCursor pointer
  · exact rep

/-- A node gets new fields. -/
theorem Represents.write (rep : h.Represents mm) (split : mm.nodes = front ++ n :: back)
    (same : new.id = n.id) : (h.write new).Represents { mm with nodes := front ++ new :: back } := by
  have holds := rep.holds
  rw [split] at holds
  exact { rep with holds := holds.write same }

/-- Removing and freeing a node. -/
theorem Represents.remove (rep : h.Represents mm) (split : mm.nodes = front ++ n :: back) :
    ∃ links, h.nodeRemove n.id = pure { h with links := links } ∧
      ({ h with links := links } : MMHeap).free n.id =
        pure (({ h with links := links } : MMHeap).release n.id) ∧
      (({ h with links := links } : MMHeap).release n.id).Represents
        { mm with nodes := front ++ back } := by
  have holds := rep.holds
  rw [split] at holds
  obtain ⟨links, removed, without⟩ := holds.nodeRemove
  refine ⟨links, removed, ?_, { rep with holds := without.release holds.id_not_mem }⟩
  have found : ({ h with links := links } : MMHeap).read n.id = pure n := holds.read (by simp)
  rw [free, found]
  rfl

/-- Only callbacks go down. -/
def callbackOnly (reason : ListFault) (reason' : Fault) : Prop := reason = .callback reason'

/-! ## Unmapping -/

/-- Walking back in memory ends where walking back in the list does. -/
theorem Holds.seekBack {addr : Word} {before rest : List MMNode} {start : MMNode} {fuel : Nat}
    (holds : h.Holds (before.reverse ++ start :: rest)) (enough : before.length < fuel) :
    ∃ found, h.seekBack addr fuel (some start.id) = pure found ∧
      (found = none ∧ (Core.seekBack addr before start rest).1 = [] ∨
        ∃ node behind, (Core.seekBack addr before start rest).2 = node :: behind ∧
          found = some node.id ∧ node.base ≤ addr) := by
  induction before generalizing start rest fuel with
  | nil =>
      obtain ⟨fuel, rfl⟩ : ∃ k, fuel = k + 1 := ⟨fuel - 1, by omega⟩
      rw [MMHeap.seekBack, holds.read (by simp), pure_bind, holds.prev, Core.seekBack]
      split
      · refine ⟨none, ?_, .inl ⟨rfl, rfl⟩⟩
        cases fuel <;> rfl
      · rename_i atOrBefore
        exact ⟨_, rfl, .inr ⟨start, rest, rfl, rfl, BitVec.not_lt.mp atOrBefore⟩⟩
  | cons prev before ih =>
      obtain ⟨fuel, rfl⟩ : ∃ k, fuel = k + 1 := ⟨fuel - 1, by omega⟩
      have shift : (prev :: before).reverse ++ start :: rest =
          before.reverse ++ prev :: start :: rest := by
        simp
      have last : prevOf (prev :: before).reverse = some prev.id := by simp [prevOf]
      rw [MMHeap.seekBack, holds.read (by simp), pure_bind, holds.prev, last, Core.seekBack]
      split
      · rw [shift] at holds
        refine ih holds ?_
        rw [List.length_cons] at enough
        omega
      · rename_i atOrBefore
        exact ⟨_, rfl, .inr ⟨start, rest, rfl, rfl, BitVec.not_lt.mp atOrBefore⟩⟩

/-- The loop of `mm_unmap_cb` starts at the same node. -/
theorem Represents.unmapStart {addr : Word} (rep : h.Represents mm)
    (points : PointsIn mm.cursor (mm.nodes.map MMNode.id)) (enough : mm.nodes.length ≤ h.made) :
    ∃ before nodes, mm.unmapStart addr = pure (before, nodes) ∧ before ++ nodes = mm.nodes ∧
      h.unmapStart addr = pure (firstOf nodes) := by
  rw [MMAddrSpace.unmapStart, MMHeap.unmapStart, rep.cursor]
  cases cursor : mm.cursor with
  | none => exact ⟨[], mm.nodes, rfl, rfl, congrArg pure rep.holds.head⟩
  | some id =>
      rw [cursor] at points
      obtain ⟨before, start, rest, found, place⟩ := MMAddrSpace.deref_eq (points id rfl)
      have isStart := MMAddrSpace.deref_id found
      have holds := rep.holds
      rw [← place, ← List.reverse_reverse before] at holds
      have short : before.reverse.length < h.made := by
        rw [← place, List.length_append, List.length_cons] at enough
        rw [List.length_reverse]
        omega
      obtain ⟨last, walked, result⟩ := @Holds.seekBack h addr before.reverse rest start _ holds short
      have same : (Core.seekBack addr before.reverse start rest).1 ++
          (Core.seekBack addr before.reverse start rest).2 = mm.nodes := by
        rw [seekBack_append, List.reverse_reverse, place]
      refine ⟨_, _, by simp only [found, pure_bind], same, ?_⟩
      rw [isStart] at walked
      simp only [walked, pure_bind]
      rcases result with ⟨rfl, empty⟩ | ⟨node, behind, split, rfl, atOrBefore⟩
      · rw [empty, List.nil_append] at same
        rw [same]
        exact congrArg pure rep.holds.head
      · have mem : node ∈ mm.nodes := by
          rw [← same, split]
          simp
        simp only [rep.holds.read mem, pure_bind, split]
        rw [Prog.check, if_pos (by simpa using atOrBefore)]
        rfl

/-- What the loop of `mm_unmap_cb` leaves: the list that the other loop leaves, and the new
node when it is not linked. -/
def Unmapped (mm : MMAddrSpace) (kept : List MMNode) (result : MMHeap × Bool)
    (result' : List MMNode × Option NodeId) : Prop :=
  result.1.Represents
      { mm with nodes := kept ++ result'.1, cursor := result'.2, made := mm.made + 1 } ∧
    (result.2 = false → mm.made ∉ (kept ++ result'.1).map MMNode.id)

/-- The part of a node behind the range is linked behind it, unless it is empty. -/
theorem Represents.linkBack {node : MMNode} {kept rest : List MMNode} (rep : h.Represents mm)
    (split : mm.nodes = kept ++ node :: rest) (fresh : new.id ∉ mm.nodes.map MMNode.id) :
    ∃ h' used, (h.initNode new).linkBack node.id new false = pure (h', used) ∧
      h'.Represents
        { mm with nodes := kept ++ node :: ((if new.len = 0 then [] else [new]) ++ rest) } ∧
      (used = false → new.len = 0) := by
  have ready : (h.initNode new).Represents mm := { rep with holds := rep.holds.initNode fresh }
  by_cases empty : new.len = 0
  · refine ⟨_, _, if_neg (not_not.mpr empty), ?_, fun _ => empty⟩
    rw [if_pos empty, List.nil_append, ← split]
    exact ready
  · have holds := ready.holds
    rw [split] at holds fresh
    obtain ⟨links, inserts, linked⟩ := @Holds.nodeInsertAfter (h.initNode new) kept rest node new
      holds (Function.update_self ..) fresh
    refine ⟨_, _, by rw [MMHeap.linkBack, if_pos empty, inserts]; rfl, ?_, by simp⟩
    rw [if_neg empty]
    exact { ready with holds := linked }

/-- A node that the loop has passed is kept. -/
theorem Unmapped.keep {node : MMNode} {kept : List MMNode} {result : MMHeap × Bool}
    {result' : List MMNode × Option NodeId} (unmapped : Unmapped mm (kept ++ [node]) result result') :
    Unmapped mm kept result (node :: result'.1, result'.2) := by
  have step : (kept ++ [node]) ++ result'.1 = kept ++ node :: result'.1 := by simp
  rw [Unmapped, step] at unmapped
  exact unmapped

/-- The loop of `mm_unmap_cb` in memory simulates the one on the list. -/
theorem unmapLoop_simulates {replies : (c : HostCall) → HostReply c → Prop} {ufn : UpdateFn}
    {addr length : Word} {old cursor : Option NodeId} {fuel : Nat} (kept : List MMNode)
    (rep : h.Represents { mm with nodes := kept ++ nodes, cursor := cursor, made := mm.made + 1 })
    (fresh : mm.made ∉ (kept ++ nodes).map MMNode.id) (enough : nodes.length ≤ fuel) :
    Prog.Simulates replies callbackOnly (Unmapped mm kept)
      (MMHeap.unmapLoop ufn addr length mm.made old fuel h (firstOf nodes) false)
      (Core.unmapLoop mm ufn addr length old nodes (prevOf kept) cursor) := by
  induction nodes generalizing h kept cursor fuel with
  | nil =>
      have stops : MMHeap.unmapLoop ufn addr length mm.made old fuel h (firstOf []) false =
          pure (h, false) := by
        cases fuel <;> rfl
      rw [stops, Core.unmapLoop]
      exact .pure ⟨rep, fun _ => fresh⟩
  | cons node rest ih =>
      obtain ⟨fuel, rfl⟩ : ∃ k, fuel = k + 1 := ⟨fuel - 1, by simp at enough; omega⟩
      have enough' : rest.length ≤ fuel := by simpa using enough
      have holds := rep.holds
      have pages : h.p2pagesize = mm.p2pagesize := rep.p2pagesize
      have step : (kept ++ [node]) ++ rest = kept ++ node :: rest := by simp
      have last : prevOf (kept ++ [node]) = some node.id := by simp [prevOf]
      have first : firstOf (node :: rest) = some node.id := rfl
      have hcursor : h.cursor = cursor := rep.cursor
      have callsBack : ∀ base len : Word,
          Prog.Simulates replies callbackOnly Eq
            ((ufn (base <<< h.p2pagesize) (len <<< h.p2pagesize) node.info).mapFault .callback)
            (ufn (base <<< mm.p2pagesize) (len <<< mm.p2pagesize) node.info) := by
        intro base len
        rw [pages]
        exact Prog.simulates_mapFault fun _ => rfl
      rw [first, MMHeap.unmapLoop, Core.unmapLoop, holds.read (by simp), pure_bind]
      split
      · -- The node is removed.
        refine (callsBack _ _).bind ?_
        rintro _ _ rfl
        have moved := rep.moveCursor old (h.links.prev node.id)
        rw [holds.prev] at moved
        dsimp only at moved ⊢
        rw [holds.prev]
        generalize (if h.cursor = old then { h with cursor := prevOf kept } else h) = moving
          at moved ⊢
        obtain ⟨links, removes, frees, removed⟩ := moved.remove rfl
        simp only [removes, frees, pure_bind, moved.holds.next]
        have behindFresh : mm.made ∉ (kept ++ rest).map MMNode.id := by
          intro mem
          refine fresh ?_
          simp only [List.map_append, List.map_cons, List.mem_append, List.mem_cons] at mem ⊢
          exact mem.imp_right .inr
        exact ih kept removed behindFresh enough'
      split
      · -- The range is cut out of the node.
        refine (callsBack _ _).bind ?_
        rintro _ _ rfl
        obtain ⟨linked, used, links, rep', usedNew⟩ := @Represents.linkBack h _
          { node.keepBack (addr + length) with id := mm.made } node kept rest rep rfl fresh
        dsimp only at rep' usedNew ⊢
        have written := @Represents.write _ _ kept _ node (node.keepFront addr) rep' rfl rfl
        have before : (linked.write (node.keepFront addr)).links.prev node.id = prevOf kept :=
          written.holds.prev
        have moved := written.moveCursor old (prevOf kept)
        rw [links]
        dsimp only at moved ⊢
        simp only [pure_bind, before]
        generalize (if (linked.write (node.keepFront addr)).cursor = old then
          { linked.write (node.keepFront addr) with cursor := prevOf kept }
          else linked.write (node.keepFront addr)) = moving at moved ⊢
        split
        · rename_i empty
          obtain ⟨links', removes, frees, removed⟩ := moved.remove rfl
          simp only [keepFront_id] at removes frees
          simp only [removes, frees, pure_bind]
          refine .pure ⟨?_, fun unused => ?_⟩
          · simpa using removed
          · rw [if_pos (usedNew unused)]
            intro mem
            refine fresh ?_
            simp only [List.nil_append, List.map_append, List.map_cons, List.mem_append,
              List.mem_cons] at mem ⊢
            exact mem.imp_right .inr
        · refine .pure ⟨?_, fun unused => ?_⟩
          · simpa using moved
          · rw [if_pos (usedNew unused)]
            simpa using fresh
      split
      · -- The end of the node is cut off.
        refine (callsBack _ _).bind ?_
        rintro _ _ rfl
        have moved := rep.moveCursor old (some node.id)
        dsimp only at moved ⊢
        generalize (if h.cursor = old then { h with cursor := some node.id } else h) = moving
          at moved ⊢
        have cut : (moving.write (node.keepFront addr)).Represents
            { mm with
              nodes := (kept ++ [node.keepFront addr]) ++ rest
              cursor := if cursor = old then some node.id else cursor
              made := mm.made + 1 } := by
          rw [List.append_assoc, List.singleton_append]
          exact moved.write rfl rfl
        have cutFresh : mm.made ∉ ((kept ++ [node.keepFront addr]) ++ rest).map MMNode.id := by
          simpa using fresh
        have passed := ih (kept ++ [node.keepFront addr]) cut cutFresh enough'
        rw [show prevOf (kept ++ [node.keepFront addr]) = some node.id by simp [prevOf]] at passed
        have next : (moving.write (node.keepFront addr)).links.next node.id = firstOf rest :=
          moved.holds.next
        rw [next]
        exact passed.bind_right fun _ _ unmapped => .pure unmapped.keep
      split
      · -- The start of the node is cut off.
        refine (callsBack _ _).bind ?_
        rintro _ _ rfl
        refine .pure ⟨rep.write rfl rfl, fun _ => ?_⟩
        simpa using fresh
      split
      · -- The walk is over.
        exact .pure ⟨rep, fun _ => fresh⟩
      · -- The node is passed.
        rw [holds.next]
        rw [← step] at rep fresh
        have passed := ih (kept ++ [node]) rep fresh enough'
        rw [last] at passed
        exact passed.bind_right fun _ _ unmapped => .pure unmapped.keep

section Space

variable (rep : h.Represents mm)

include rep

theorem Represents.space : h.space = { mm with nodes := [], cursor := none } := by
  rw [MMHeap.space, rep.base, rep.len, rep.p2pagesize, rep.made]

theorem Represents.aligned (addr : Word) : h.space.aligned addr = mm.aligned addr := by
  rw [rep.space]
  rfl

theorem Represents.mmtrunc (addr : Word) : h.space.mmtrunc addr = mm.mmtrunc addr := by
  rw [rep.space]
  rfl

theorem Represents.mmceil (length : Word) : h.space.mmceil length = mm.mmceil length := by
  rw [rep.space]
  rfl

theorem Represents.mmvalid (addr length : Word) :
    h.space.mmvalid addr length = mm.mmvalid addr length := by
  rw [rep.space]
  rfl

end Space

/-- There are no more nodes in the list than were made. -/
theorem length_le_made (wellFormed : mm.WellFormed) : mm.nodes.length ≤ mm.made := by
  have subset : mm.nodes.map MMNode.id ⊆ List.range mm.made :=
    fun id mem => List.mem_range.mpr (wellFormed.made id mem)
  simpa using (List.subperm_of_subset wellFormed.distinct subset).length_le

theorem made_not_mem (wellFormed : mm.WellFormed) : mm.made ∉ mm.nodes.map MMNode.id :=
  fun mem => Nat.lt_irrefl _ (wellFormed.made _ mem)

/-- One more node has been made. -/
theorem Represents.next (rep : h.Represents mm) :
    ({ h with made := h.made + 1 } : MMHeap).Represents { mm with made := mm.made + 1 } :=
  { rep with
    holds := rep.holds.congr rfl fun _ _ => rfl
    made := congrArg (· + 1) rep.made }

/-- The same result, and the memory stands for the tracker. -/
def Agrees {α : Type} (result : α × MMHeap) (result' : α × MMAddrSpace) : Prop :=
  result.1 = result'.1 ∧ result.2.Represents result'.2

/-- `mm_unmap_cb` in memory simulates the one on the list. -/
theorem Represents.mmUnmapCb_simulates {replies : (c : HostCall) → HostReply c → Prop}
    {ufn : UpdateFn} {addr length : Word} (rep : h.Represents mm) (sound : mm.Sound) :
    Prog.Simulates replies callbackOnly Agrees (h.mmUnmapCb addr length ufn)
      (mm.mmUnmapCb addr length ufn) := by
  have enough := length_le_made sound.wellFormed
  have fresh := made_not_mem sound.wellFormed
  have next := rep.next
  rw [MMHeap.mmUnmapCb, MMAddrSpace.mmUnmapCb]
  simp only [rep.aligned, rep.mmtrunc, rep.mmceil, rep.mmvalid]
  split
  · exact .pure ⟨rfl, rep⟩
  split
  · exact .pure ⟨rfl, rep⟩
  refine .ask_bind fun memory _ => ?_
  split
  · exact .pure ⟨rfl, rep⟩
  have steps : mm.nodes.length ≤ h.made + 1 := by
    rw [rep.made]
    exact enough.trans (Nat.le_succ _)
  obtain ⟨before, nodes, starts, split, starts'⟩ :=
    @Represents.unmapStart _ _ (mm.mmtrunc addr) next sound.admissible steps
  have starts : mm.unmapStart (mm.mmtrunc addr) = pure (before, nodes) := starts
  rw [starts, starts', pure_bind, pure_bind]
  have short : nodes.length ≤ h.made + 1 := by
    rw [← split, List.length_append] at steps
    omega
  have started : ({ h with made := h.made + 1 } : MMHeap).Represents
      { mm with nodes := before ++ nodes, cursor := mm.cursor, made := mm.made + 1 } := by
    rw [split]
    exact next
  rw [← split] at fresh
  have loops := @unmapLoop_simulates _ mm nodes replies ufn (mm.mmtrunc addr) (mm.mmceil length)
    mm.cursor mm.cursor (h.made + 1) before started fresh short
  rw [rep.made, rep.cursor] at *
  refine loops.bind ?_
  rintro ⟨h', used⟩ ⟨nodes', cursor'⟩ ⟨unmapped, unused⟩
  refine .pure ⟨rfl, ?_⟩
  cases used with
  | true => exact unmapped
  | false =>
      exact { unmapped with holds := unmapped.holds.release (unused rfl) }

/-! ## Linking a new node -/

/-- A new node is in memory and has null pointers. -/
structure Ready (h : MMHeap) (new : MMNode) : Prop where
  node : h.node new.id = some new
  next : h.links.next new.id = none
  prev : h.links.prev new.id = none

theorem initNode_ready : (h.initNode new).Ready new where
  node := Function.update_self ..
  next := Links.next_setNext_self ..
  prev := Links.prev_setPrev_self ..

/-- A new node is the first one of an empty list. -/
theorem Holds.first (ready : h.Ready new) :
    ({ h with links := { h.links with head := some new.id } } : MMHeap).Holds [new] where
  listed := by
    refine ⟨?_, List.nodup_singleton _⟩
    simp only [List.map_cons, List.map_nil, List.cons_append, List.nil_append]
    rw [Links.chained_cons_cons, Links.chained_cons_cons]
    refine ⟨⟨rfl, ?_⟩, ⟨ready.next, ?_⟩, Links.chained_singleton⟩
    · rintro _ ⟨⟩
      exact ready.prev
    · rintro _ ⟨⟩
  node := by
    intro node mem
    rw [List.mem_singleton.mp mem]
    exact ready.node

/-- The place of a new node is looked for from the same node on. -/
theorem Represents.linkStart {addr : Word} (rep : h.Represents mm)
    (points : PointsIn mm.cursor (mm.nodes.map MMNode.id)) :
    ∃ before nodes, mm.linkStart addr = pure (before, nodes) ∧ before ++ nodes = mm.nodes ∧
      (nodes = [] → before = []) ∧ h.linkStart addr = pure (firstOf nodes) := by
  rw [MMAddrSpace.linkStart, MMHeap.linkStart, rep.cursor]
  cases cursor : mm.cursor with
  | none => exact ⟨[], mm.nodes, rfl, rfl, fun _ => rfl, congrArg pure rep.holds.head⟩
  | some id =>
      rw [cursor] at points
      obtain ⟨before, node, rest, found, place⟩ := MMAddrSpace.deref_eq (points id rfl)
      have isNode := MMAddrSpace.deref_id found
      have mem : node ∈ mm.nodes := by
        rw [← place]
        simp
      have read := rep.holds.read mem
      rw [isNode] at read
      simp only [found, read, pure_bind]
      by_cases atOrBefore : node.base ≤ addr
      · refine ⟨before, node :: rest, congrArg pure (if_pos atOrBefore), place,
          fun none => absurd none (List.cons_ne_nil _ _), ?_⟩
        rw [if_pos atOrBefore, ← isNode]
        rfl
      · refine ⟨[], mm.nodes, congrArg pure (if_neg atOrBefore), rfl, fun _ => rfl, ?_⟩
        rw [if_neg atOrBefore, rep.holds.head]

/-- The start of a list, or a page when it is empty. -/
def startOr (nodes : List MMNode) (page : Word) : Word :=
  match nodes with
  | [] => page
  | node :: _ => node.base

theorem Holds.baseOr_firstOf (holds : h.Holds (front ++ back)) (page : Word) :
    h.baseOr (firstOf back) page = pure (startOr back page) := by
  cases back with
  | nil => rfl
  | cons node back =>
      have read : h.read node.id = pure node := holds.read (by simp)
      simp only [firstOf, List.head?_cons, Option.map_some, baseOr, read, pure_bind, startOr]

/-- The loop of `mm_mapat_cb` finds the node that the new one is put behind. -/
theorem Holds.insertLoop {kept placed : List MMNode} {fuel : Nat}
    (holds : h.Holds (kept ++ nodes)) (enough : nodes.length ≤ fuel)
    (found : Core.insertLoop (h.base + h.len) new nodes = some placed) :
    ∃ front n back, nodes = front ++ n :: back ∧ placed = front ++ n :: new :: back ∧
      h.insertLoop new.base new.len fuel (firstOf nodes) = pure (some n.id) := by
  induction nodes generalizing kept placed fuel with
  | nil => cases found
  | cons node rest ih =>
      obtain ⟨fuel, rfl⟩ : ∃ k, fuel = k + 1 := ⟨fuel - 1, by simp at enough; omega⟩
      have first : firstOf (node :: rest) = some node.id := rfl
      rw [first, MMHeap.insertLoop, holds.read (by simp), pure_bind, holds.next]
      have found : (if new.base ≥ node.base + node.len ∧
          new.base + new.len ≤ startOr rest (h.base + h.len) then some (node :: new :: rest)
          else (Core.insertLoop (h.base + h.len) new rest).map fun rest => node :: rest) =
          some placed := found
      have step : kept ++ node :: rest = (kept ++ [node]) ++ rest := by simp
      rw [step] at holds
      rw [holds.baseOr_firstOf, pure_bind]
      generalize startOr rest (h.base + h.len) = limit at found ⊢
      split at found
      · rename_i here
        cases found
        exact ⟨[], node, rest, rfl, rfl, if_pos here⟩
      · rename_i notHere
        obtain ⟨placed', found', rfl⟩ := Option.map_eq_some_iff.mp found
        obtain ⟨front, n, back, split, result, goes⟩ := ih holds (by simpa using enough) found'
        refine ⟨node :: front, n, back, by rw [split]; rfl, by rw [result]; rfl, ?_⟩
        rw [if_neg notHere]
        exact goes

/-- The end of `mm_mapat_cb` links the new node where the list has it. -/
theorem Represents.link {mm' : MMAddrSpace} (rep : h.Represents mm)
    (points : PointsIn mm.cursor (mm.nodes.map MMNode.id)) (ready : h.Ready new)
    (fresh : new.id ∉ mm.nodes.map MMNode.id) (enough : mm.nodes.length ≤ h.made)
    (links : mm.link new = pure mm') :
    ∃ h', h.link new.id new.base new.len = pure h' ∧ h'.Represents mm' := by
  obtain ⟨before, nodes, starts, place, empty, starts'⟩ :=
    @Represents.linkStart _ _ new.base rep points
  rw [MMAddrSpace.link, starts, pure_bind] at links
  rw [MMHeap.link, starts', pure_bind]
  have holds := rep.holds
  rw [← place] at holds fresh enough
  cases nodes with
  | nil =>
      cases links
      refine ⟨_, rfl, { rep with holds := ?_ }⟩
      rw [empty rfl]
      exact Holds.first ready
  | cons node rest =>
      have read : h.read node.id = pure node := holds.read (by simp)
      simp only [firstOf, List.head?_cons, Option.map_some, read, pure_bind]
      dsimp only at links
      split at links
      · rename_i front
        cases links
        obtain ⟨newLinks, inserts, linked⟩ := holds.nodeInsertBefore ready.node fresh
        exact ⟨{ h with links := newLinks }, by rw [if_pos front, inserts],
          { rep with holds := linked }⟩
      · rename_i notFront
        rw [if_neg notFront]
        split at links
        · cases links
        · rename_i placed found
          cases links
          have limit : h.base + h.len = mm.stop := by
            rw [rep.base, rep.len]
            rfl
          rw [← limit] at found
          have short : (node :: rest).length ≤ h.made := by
            rw [List.length_append] at enough
            omega
          obtain ⟨front, n, back, split, result, goes⟩ := holds.insertLoop short found
          rw [split, ← List.append_assoc] at holds fresh
          obtain ⟨newLinks, inserts, linked⟩ := holds.nodeInsertAfter ready.node fresh
          have goes : h.insertLoop new.base new.len h.made (some node.id) = pure (some n.id) := goes
          refine ⟨{ h with links := newLinks }, by rw [goes, pure_bind]; exact inserts,
            { rep with holds := ?_ }⟩
          rw [result, ← List.append_assoc]
          exact linked

/-- A new node is made ready outside the list. -/
theorem Represents.initNode (rep : h.Represents mm) (fresh : new.id ∉ mm.nodes.map MMNode.id) :
    (h.initNode new).Represents mm :=
  { rep with holds := rep.holds.initNode fresh }

/-- `mm_mapat_cb` in memory simulates the one on the list. -/
theorem Represents.mmMapatCb_simulates {ufn : UpdateFn} {addr length : Word} {prot flags : CInt}
    {fd : Int} {offset : Word} (rep : h.Represents mm) (sound : mm.Sound)
    (pages : mm.mmceil length ≠ 0) :
    Prog.Simulates serving.replies callbackOnly Agrees
      (h.mmMapatCb addr length prot flags fd offset ufn)
      (mm.mmMapatCb addr length prot flags fd offset ufn) := by
  have paged := sound.wellFormed.paged
  rw [MMHeap.mmMapatCb, MMAddrSpace.mmMapatCb]
  simp only [rep.aligned, rep.mmtrunc, rep.mmceil, rep.mmvalid]
  split
  · exact .pure ⟨rfl, rep⟩
  split
  · exact .pure ⟨rfl, rep⟩
  rename_i valid
  rw [Bool.not_eq_true', Bool.not_eq_false] at valid
  refine .ask_bind fun memory available => ?_
  cases available
  rw [if_neg (by decide), if_neg (by decide), rep.p2pagesize, rep.made]
  let next : MMAddrSpace := { mm with made := mm.made + 1 }
  have nextSound : next.Sound := ⟨sound.wellFormed.next, sound.admissible⟩
  have trunc : next.mmtrunc (mm.mmtrunc addr <<< mm.p2pagesize) = mm.mmtrunc addr :=
    MMAddrSpace.mmtrunc_shiftLeft paged addr
  have ceil : next.mmceil (mm.mmceil length <<< mm.p2pagesize) = mm.mmceil length :=
    MMAddrSpace.mmceil_shiftLeft paged length
  have nextRep := rep.next
  rw [rep.p2pagesize, rep.made] at nextRep
  have served := @MMAddrSpace.mmUnmapCb_served next (mm.mmtrunc addr <<< mm.p2pagesize)
    (mm.mmceil length <<< mm.p2pagesize) ufn nextSound (by rwa [ceil])
  rw [trunc, ceil] at served
  have unmaps := @Represents.mmUnmapCb_simulates _ _ serving.replies ufn
    (mm.mmtrunc addr <<< mm.p2pagesize) (mm.mmceil length <<< mm.p2pagesize) nextRep nextSound
  refine (unmaps.and_meets Core.served (fun _ _ allowed => allowed) served).bind ?_
  rintro ⟨r, h'⟩ ⟨r', mm'⟩ ⟨⟨same, rep'⟩, kept, accepted⟩
  obtain ⟨rfl, cursor, rfl⟩ := accepted (MMAddrSpace.aligned_shiftLeft paged addr)
    (MMAddrSpace.shiftLeft_mmceil_ne_zero paged pages) valid
  cases same
  have below := ((MMAddrSpace.valid_iff paged sound.wellFormed.fits).mp valid).2
  have pos : 0 < (mm.mmceil length).toNat :=
    Nat.pos_of_ne_zero fun zero => pages (BitVec.eq_of_toNat_eq zero)
  have links := @MMAddrSpace.link_unmapped mm _ _ cursor { prot, flags, fd, offset }
    sound.wellFormed pos below kept.admissible
  have fresh := @MMAddrSpace.WellFormed.made_not_mem mm _ _ cursor sound.wellFormed pos below
  have ready := @Represents.initNode _ _
    ⟨mm.made, mm.mmtrunc addr, mm.mmceil length, { prot, flags, fd, offset }⟩ rep' fresh
  have steps := length_le_made kept.wellFormed
  rw [← ready.made] at steps
  obtain ⟨last, linked, lastRep⟩ := ready.link kept.admissible initNode_ready fresh steps links
  have linked : MMHeap.link _ mm.made (mm.mmtrunc addr) (mm.mmceil length) = pure last := linked
  simp only [Prog.check, decide_true, if_true]
  change Prog.Simulates _ _ _ _ ((mm.unmapped (mm.mmtrunc addr) (mm.mmceil length) cursor).link
    ⟨mm.made, mm.mmtrunc addr, mm.mmceil length, { prot, flags, fd, offset }⟩ >>= _)
  rw [linked, links]
  refine .pure ⟨?_, lastRep⟩
  rw [lastRep.p2pagesize]

/-! ## Mapping anywhere -/

theorem prevOf_append (front passed : List MMNode) :
    prevOf (front ++ passed) = (prevOf passed).or (prevOf front) := by
  rw [prevOf, prevOf, prevOf, List.getLast?_append]
  cases passed.getLast? <;> rfl

/-- The loop of `mm_mapany_cursor` stops at the same node with the same variables.  When it
has seen all nodes, `end` is the last one. -/
theorem Holds.gapLoop {kept : List MMNode} {len start gap : Word} {last : Option NodeId} {fuel : Nat}
    (holds : h.Holds (kept ++ nodes)) (enough : nodes.length < fuel) :
    ∃ passed rest last', (Core.gapLoop (h.base + h.len) len nodes start gap).1 = passed ∧
      (Core.gapLoop (h.base + h.len) len nodes start gap).2.1 = rest ∧ passed ++ rest = nodes ∧
      h.gapLoop len fuel (firstOf nodes) last start gap = pure (firstOf rest, last',
        (Core.gapLoop (h.base + h.len) len nodes start gap).2.2) ∧
      (rest = [] → last' = (prevOf passed).or last) := by
  induction nodes generalizing kept start gap last fuel with
  | nil =>
      obtain ⟨fuel, rfl⟩ : ∃ k, fuel = k + 1 := ⟨fuel - 1, by omega⟩
      refine ⟨[], [], last, ?_, ?_, rfl, ?_, fun _ => rfl⟩
      · rw [Core.gapLoop]
        split <;> rfl
      · rw [Core.gapLoop]
        split <;> rfl
      · rw [Core.gapLoop, MMHeap.gapLoop.eq_def]
        dsimp only [firstOf, List.head?_nil, Option.map_none]
        split <;> rfl
  | cons node rest ih =>
      obtain ⟨fuel, rfl⟩ : ∃ k, fuel = k + 1 := ⟨fuel - 1, by omega⟩
      have step : kept ++ node :: rest = (kept ++ [node]) ++ rest := by simp
      have first : firstOf (node :: rest) = some node.id := rfl
      have read : h.read node.id = pure node := holds.read (by simp)
      rw [Core.gapLoop, first, MMHeap.gapLoop.eq_def]
      dsimp only
      simp only [read, pure_bind]
      by_cases inside : start < h.base + h.len
      · by_cases wide : node.base - start ≥ len
        · simp only [if_pos inside, if_pos wide]
          exact ⟨[], node :: rest, last, rfl, rfl, rfl, rfl, fun none => absurd none (by simp)⟩
        · have next := holds.next
          rw [step] at holds
          obtain ⟨passed, behind, last', isPassed, isBehind, split, goes, ends⟩ :=
            @ih (kept ++ [node]) (node.base + node.len) (node.base - start)
              (if (firstOf rest).isNone then some node.id else last) fuel holds
              (by simpa using enough)
          simp only [if_pos inside, if_neg wide]
          refine ⟨node :: passed, behind, last', by rw [isPassed], isBehind, by rw [← split]; rfl, ?_, ?_⟩
          · rw [next]
            exact goes
          · intro ended
            rw [ended, List.append_nil] at split
            have behindFirst := prevOf_append [node] passed
            rw [List.singleton_append] at behindFirst
            rw [ends ended, behindFirst, ← split]
            cases passed with
            | nil => rfl
            | cons other passed =>
                cases prev : prevOf (other :: passed) with
                | none => simp [prevOf] at prev
                | some id => rfl
      · simp only [if_neg inside]
        exact ⟨[], node :: rest, last, rfl, rfl, rfl, rfl, fun none => absurd none (by simp)⟩

/-- The new node is linked in front of the node where the search stops, or behind the last
one. -/
theorem Holds.linkAt {last : Option NodeId} (holds : h.Holds (front ++ back)) (ready : h.Ready new)
    (fresh : new.id ∉ (front ++ back).map MMNode.id) (isLast : back = [] → last = prevOf front) :
    ∃ links, h.linkAt (firstOf back) last new.id = pure { h with links := links } ∧
      ({ h with links := links } : MMHeap).Holds (front ++ new :: back) := by
  cases back with
  | cons node back => exact holds.nodeInsertBefore ready.node fresh
  | nil =>
      rw [isLast rfl]
      rcases List.eq_nil_or_concat front with rfl | ⟨others, node, rfl⟩
      · refine ⟨{ h.links with head := some new.id }, ?_, Holds.first ready⟩
        have empty : h.links.head = none := holds.head
        simp only [firstOf, prevOf, List.head?_nil, List.getLast?_nil, Option.map_none,
          MMHeap.linkAt, empty]
        rfl
      · rw [List.append_nil, List.concat_eq_append] at *
        obtain ⟨links, inserts, linked⟩ := holds.nodeInsertAfter ready.node fresh
        refine ⟨links, ?_, by simpa using linked⟩
        have last : prevOf (others ++ [node]) = some node.id := by simp [prevOf]
        rw [last]
        exact inserts

/-- `mm_mapany_cursor` in memory simulates the one on the list. -/
theorem Represents.mmMapanyCursor_simulates {len : Word} {prot flags : CInt} {fd : Int}
    {offset : Word} {cursor : Option NodeId} {before : List MMNode} (rep : h.Represents mm)
    (wellFormed : mm.WellFormed) (follows : mm.follow cursor = pure (before, nodes))
    (split : before ++ nodes = mm.nodes) (empty : nodes = [] → before = []) :
    Prog.Simulates serving.replies callbackOnly Agrees
      (h.mmMapanyCursor len prot flags fd offset (firstOf nodes))
      (mm.mmMapanyCursor len prot flags fd offset cursor) := by
  have holds := rep.holds
  rw [← split] at holds
  have limit : h.base + h.len = mm.stop := by
    rw [rep.base, rep.len]
    rfl
  have steps : nodes.length < h.made + 1 := by
    have enough := length_le_made wellFormed
    rw [← split, List.length_append] at enough
    rw [rep.made]
    omega
  obtain ⟨passed, rest, last, isPassed, isRest, same, goes, ends⟩ :=
    @Holds.gapLoop h nodes before (mm.mmceil len) (mm.startAt nodes) 0 (firstOf nodes) _ holds steps
  rw [limit] at isPassed isRest goes
  have start : h.baseOr (firstOf nodes) h.base = pure (mm.startAt nodes) := by
    rw [holds.baseOr_firstOf, rep.base]
    cases nodes <;> rfl
  rw [MMHeap.mmMapanyCursor, MMAddrSpace.mmMapanyCursor, follows, start, rep.mmceil]
  simp only [pure_bind, goes, isPassed, isRest]
  split
  · refine .ask_bind fun memory available => ?_
    cases available
    rw [if_neg (by decide), if_neg (by decide)]
    have headOrNone : (!nodes.isEmpty || mm.nodes.isEmpty) = true := by
      cases nodes with
      | nil => simp [← split, empty rfl]
      | cons node rest => rfl
    have listed : (before ++ passed) ++ rest = mm.nodes := by
      rw [List.append_assoc, same, split]
    -- When there is no node left, the last one is the last of the whole list.
    have isLast : rest = [] → last = prevOf (before ++ passed) := by
      intro ended
      rw [ends ended, prevOf_append]
      rw [ended, List.append_nil] at same
      cases passed with
      | nil =>
          rw [← same, empty same.symm]
          rfl
      | cons node passed =>
          cases prev : prevOf (node :: passed) with
          | none => simp [prevOf] at prev
          | some id => rfl
    rw [Prog.check, if_pos headOrNone]
    generalize (Core.gapLoop mm.stop (mm.mmceil len) nodes (mm.startAt nodes) 0).2.2.1 = start
    have fresh : h.made ∉ mm.nodes.map MMNode.id := by
      rw [rep.made]
      exact made_not_mem wellFormed
    have ready := @Represents.initNode _ _
      ⟨h.made, start, mm.mmceil len, { prot, flags, fd, offset }⟩ rep.next fresh
    have holds' := ready.holds
    dsimp only at holds'
    rw [← listed] at holds' fresh
    obtain ⟨links, linked, grown⟩ := holds'.linkAt initNode_ready fresh isLast
    have linked : MMHeap.linkAt _ (firstOf rest) last h.made = _ := linked
    have prev : links.prev h.made = prevOf (before ++ passed) := grown.prev
    rw [linked, pure_bind]
    refine .pure ⟨?_, ?_⟩
    · change start <<< h.p2pagesize = start <<< mm.p2pagesize
      rw [rep.p2pagesize]
    · rw [← rep.made]
      exact {
        base := ready.base
        len := ready.len
        p2pagesize := ready.p2pagesize
        holds := grown.congr rfl fun _ _ => rfl
        cursor := prev
        made := rfl }
  · exact .pure ⟨rfl, rep⟩

/-- `mm_mapany` in memory simulates the one on the list. -/
theorem Represents.mmMapany_simulates {len : Word} {prot flags : CInt} {fd : Int} {offset : Word}
    (rep : h.Represents mm) (sound : mm.Sound) :
    Prog.Simulates serving.replies callbackOnly Agrees (h.mmMapany len prot flags fd offset)
      (mm.mmMapany len prot flags fd offset) := by
  have head : ∀ {h : MMHeap}, h.Represents mm → Prog.Simulates serving.replies callbackOnly Agrees
      (h.mmMapanyCursor len prot flags fd offset h.links.head)
      (mm.mmMapanyCursor len prot flags fd offset none) := by
    intro h rep
    rw [rep.holds.head]
    exact @Represents.mmMapanyCursor_simulates _ _ mm.nodes _ _ _ _ _ none [] rep sound.wellFormed
      rfl rfl fun _ => rfl
  rw [MMHeap.mmMapany, MMAddrSpace.mmMapany, rep.cursor]
  cases cursor : mm.cursor with
  | none => exact head rep
  | some id =>
      have points : mm.Admissible (some id) := by
        rw [← cursor]
        exact sound.admissible
      obtain ⟨before, node, rest, found, place⟩ := MMAddrSpace.deref_eq (points id rfl)
      have follows : mm.follow (some id) = pure (before, node :: rest) := by
        rw [MMAddrSpace.follow, found]
        rfl
      have isFirst : some id = firstOf (node :: rest) := by
        rw [← MMAddrSpace.deref_id found]
        rfl
      obtain ⟨_, _, -, -, -, meets⟩ := @MMAddrSpace.mmMapanyCursor_inOrder mm serving len prot flags fd
        offset (some id) sound.inOrder trivial points
      have first := @Represents.mmMapanyCursor_simulates _ _ _ len prot flags fd offset _ _ rep
        sound.wellFormed follows place fun ended => absurd ended (List.cons_ne_nil _ _)
      rw [← isFirst] at first
      refine (first.and_meets serving (fun _ _ allowed => allowed) meets).bind ?_
      rintro ⟨p, h'⟩ ⟨p', mm'⟩ ⟨⟨same, rep'⟩, -, result⟩
      cases same
      dsimp only
      split
      · exact .pure ⟨rfl, rep'⟩
      · rename_i failed
        rcases result with ⟨-, unchanged, -⟩ | ⟨page, some, -⟩
        · rw [unchanged] at rep' ⊢
          exact head rep'
        · rw [some] at failed
          exact absurd (shiftLeft_ne_neg_one sound.wellFormed.paged.1) failed

end MMHeap

end Lps.Core

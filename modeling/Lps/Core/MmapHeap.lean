import Lps.Core.Mmap
import Lps.Linked.Listed
import Lps.Program.Simulate

/-!
# The mapping tracker in memory

The tracker as the source keeps it: nodes that are allocated and freed, the pointers
between them, and the operations on them one assignment after the other.  Reading or
writing a node that is not allocated goes down, and so does every assertion of the
source.  A loop over the list counts its steps: more than there can be nodes in a list
and it does not end.
-/

namespace Lps.Core

open Lps.Program Lps.Linked

/-- How an operation on the list goes down. -/
inductive ListFault
  /-- `assert(!mm->nodes)` of `mm_mapany_cursor`. -/
  | mapanyNodes
  /-- `assert(r == 0)` of `mm_mapat_cb`. -/
  | mapatUnmap
  /-- `assert(node)` of `mm_mapat_cb`. -/
  | mapatNode
  /-- `assert(start->base <= addr)` of `mm_unmap_cb`. -/
  | unmapStart
  /-- `assert(!used_new)` of `mm_unmap_cb`. -/
  | usedNew
  /-- A node that is not allocated is read or written. -/
  | badNode
  /-- A loop has taken more steps than there can be nodes. -/
  | endless
  /-- The callback goes down. -/
  | callback (reason : Fault)
  deriving DecidableEq

abbrev ListProg := Prog HostCall HostReply ListFault

/-- `struct MMAddrSpace` and the nodes in memory. -/
structure MMHeap where
  base : Word
  len : Word
  p2pagesize : Nat
  /-- `nodes` of the address space, `next` and `prev` of the nodes. -/
  links : Links NodeId
  /-- The other fields of a node in memory. -/
  node : NodeId → Option MMNode
  cursor : Option NodeId
  made : NodeId

namespace MMHeap

/-- The address space without its list. -/
def space (h : MMHeap) : MMAddrSpace where
  base := h.base
  len := h.len
  p2pagesize := h.p2pagesize
  nodes := []
  cursor := none
  made := h.made

/-- `mm_init`, for a page size that is a power of two. -/
def mmInit (start len pagesize : Word) : MMHeap where
  base := start >>> getpow pagesize
  len := len >>> getpow pagesize
  p2pagesize := getpow pagesize
  links := ⟨none, fun _ => none, fun _ => none⟩
  node := fun _ => none
  cursor := none
  made := 0

/-! ## Nodes -/

/-- Read a node. -/
def read (h : MMHeap) (id : NodeId) : ListProg MMNode :=
  match h.node id with
  | none => .fault .badNode
  | some node => pure node

/-- `node ? node->base : page`. -/
def baseOr (h : MMHeap) (node : Option NodeId) (page : Word) : ListProg Word :=
  match node with
  | none => pure page
  | some id => do
      let node ← h.read id
      return node.base

/-- Write the fields of a node. -/
def write (h : MMHeap) (node : MMNode) : MMHeap :=
  { h with node := Function.update h.node node.id (some node) }

/-- `*new = (struct MMNode) { ... }`, with null pointers. -/
def initNode (h : MMHeap) (node : MMNode) : MMHeap :=
  { h.write node with links := (h.links.setNext node.id none).setPrev node.id none }

/-- The memory of a node is given back. -/
def release (h : MMHeap) (id : NodeId) : MMHeap :=
  { h with node := Function.update h.node id none }

/-- `free` of a node. -/
def free (h : MMHeap) (id : NodeId) : ListProg MMHeap := do
  let _ ← h.read id
  return h.release id

/-- `node_insert_before`. -/
def nodeInsertBefore (h : MMHeap) (n new : NodeId) : ListProg MMHeap := do
  let _ ← h.read n
  let _ ← h.read new
  let links := h.links.setNext new (some n)
  let links := links.setPrev new (links.prev n)
  match links.prev n with
  | some prev => do
      let _ ← h.read prev
      let links := links.setNext prev (some new)
      return { h with links := links.setPrev n (some new) }
  | none => do
      let links := { links with head := some new }
      return { h with links := links.setPrev n (some new) }

/-- `node_insert_after`. -/
def nodeInsertAfter (h : MMHeap) (n new : NodeId) : ListProg MMHeap := do
  let _ ← h.read n
  let _ ← h.read new
  let links := h.links.setNext new (h.links.next n)
  let links := links.setPrev new (some n)
  match links.next n with
  | some next => do
      let _ ← h.read next
      let links := links.setPrev next (some new)
      return { h with links := links.setNext n (some new) }
  | none => return { h with links := links.setNext n (some new) }

/-- `node_remove`. -/
def nodeRemove (h : MMHeap) (n : NodeId) : ListProg MMHeap := do
  let _ ← h.read n
  let links ← match h.links.next n with
    | some next => do
        let _ ← h.read next
        pure (h.links.setPrev next (h.links.prev n))
    | none => pure h.links
  let links ← match links.prev n with
    | some prev => do
        let _ ← h.read prev
        pure (links.setNext prev (links.next n))
    | none => pure { links with head := links.next n }
  return { h with links := (links.setNext n none).setPrev n none }

/-! ## Unmapping -/

/-- The loop of `mm_unmap_cb` that walks `start` back. -/
def seekBack (h : MMHeap) (addr : Word) : Nat → Option NodeId → ListProg (Option NodeId)
  | _, none => pure none
  | 0, some _ => .fault .endless
  | fuel + 1, some id => do
      let start ← h.read id
      if start.base > addr then seekBack h addr fuel (h.links.prev id)
      else return some id

/-- Where the loop of `mm_unmap_cb` starts. -/
def unmapStart (h : MMHeap) (addr : Word) : ListProg (Option NodeId) :=
  match h.cursor with
  | none => pure h.links.head
  | some cursor => do
      match ← h.seekBack addr h.made (some cursor) with
      | none => return h.links.head
      | some id => do
          let start ← h.read id
          Prog.check (start.base ≤ addr) .unmapStart
          return some id

/-- In the loop of `mm_unmap_cb`: link what is left of a node behind the range, unless it
is empty. -/
def linkBack (h : MMHeap) (id : NodeId) (new : MMNode) (usedNew : Bool) :
    ListProg (MMHeap × Bool) :=
  if new.len ≠ 0 then do
    let h ← h.nodeInsertAfter id new.id
    Prog.check (!usedNew) .usedNew
    pure (h, true)
  else pure (h, usedNew)

/-- The loop of `mm_unmap_cb`; `new` is the node it has allocated, `old` what `mm->cursor`
was before and `usedNew` whether `new` is linked. -/
def unmapLoop (ufn : UpdateFn) (addr length : Word) (new : NodeId) (old : Option NodeId) :
    Nat → MMHeap → Option NodeId → Bool → ListProg (MMHeap × Bool)
  | _, h, none, usedNew => pure (h, usedNew)
  | 0, _, some _, _ => .fault .endless
  | fuel + 1, h, some id, usedNew => do
      let node ← h.read id
      if contained node.base node.len addr length then do
        -- The node is fully contained in the range.
        (ufn (node.base <<< h.p2pagesize) (node.len <<< h.p2pagesize) node.info).mapFault .callback
        let h := if h.cursor = old then { h with cursor := h.links.prev id } else h
        let next := h.links.next id
        let h ← h.nodeRemove id
        let h ← h.free id
        unmapLoop ufn addr length new old fuel h next usedNew
      else if contained addr length node.base node.len then do
        -- The node fully contains the range.
        (ufn (addr <<< h.p2pagesize) (length <<< h.p2pagesize) node.info).mapFault .callback
        let newNode := { node.keepBack (addr + length) with id := new }
        let (h, usedNew) ← (h.initNode newNode).linkBack id newNode usedNew
        let h := h.write (node.keepFront addr)
        let h := if h.cursor = old then { h with cursor := h.links.prev id } else h
        if (node.keepFront addr).len = 0 then do
          let h ← h.nodeRemove id
          let h ← h.free id
          return (h, usedNew)
        return (h, usedNew)
      else if node.base < addr ∧ node.base + node.len > addr then do
        -- The node starts before the range and ends inside it.
        (ufn (addr <<< h.p2pagesize) ((node.base + node.len - addr) <<< h.p2pagesize)
          node.info).mapFault .callback
        let h := if h.cursor = old then { h with cursor := some id } else h
        let h := h.write (node.keepFront addr)
        unmapLoop ufn addr length new old fuel h (h.links.next id) usedNew
      else if node.base < addr + length ∧ node.base + node.len > addr then do
        -- The node starts within the range and ends outside it.
        (ufn (node.base <<< h.p2pagesize) ((addr + length - node.base) <<< h.p2pagesize)
          node.info).mapFault .callback
        return (h.write (node.keepBack (addr + length)), usedNew)
      else if node.base ≥ addr + length then return (h, usedNew)
      else unmapLoop ufn addr length new old fuel h (h.links.next id) usedNew

/-- `mm_unmap_cb`. -/
def mmUnmapCb (h : MMHeap) (addr length : Word) (ufn : UpdateFn) : ListProg (Int × MMHeap) := do
  if !h.space.aligned addr || length = 0 then return (-MM_EINVAL, h)
  let addr := h.space.mmtrunc addr
  let length := h.space.mmceil length
  if !h.space.mmvalid addr length then return (-MM_EINVAL, h)
  if !(← Prog.ask HostCall.malloc) then return (-1, h)
  let new := h.made
  let h := { h with made := h.made + 1 }
  let node ← h.unmapStart addr
  let (h, usedNew) ← unmapLoop ufn addr length new h.cursor h.made h node false
  return (0, if usedNew then h else h.release new)

/-! ## Mapping at an address -/

/-- Where `mm_mapat_cb` starts to look for the place of a new node at `addr`. -/
def linkStart (h : MMHeap) (addr : Word) : ListProg (Option NodeId) :=
  match h.cursor with
  | none => pure h.links.head
  | some cursor => do
      let node ← h.read cursor
      return if node.base ≤ addr then some cursor else h.links.head

/-- The loop of `mm_mapat_cb` that looks for the node to insert the new one after. -/
def insertLoop (h : MMHeap) (addr length : Word) : Nat → Option NodeId → ListProg (Option NodeId)
  | _, none => pure none
  | 0, some _ => .fault .endless
  | fuel + 1, some id => do
      let node ← h.read id
      let next ← h.baseOr (h.links.next id) (h.base + h.len)
      if addr ≥ node.base + node.len ∧ addr + length ≤ next then return some id
      else insertLoop h addr length fuel (h.links.next id)

/-- The end of `mm_mapat_cb`: link the new node. -/
def link (h : MMHeap) (new : NodeId) (addr length : Word) : ListProg MMHeap := do
  match ← h.linkStart addr with
  | none => return { h with links := { h.links with head := some new } }
  | some id => do
      let node ← h.read id
      if addr + length ≤ node.base then h.nodeInsertBefore id new
      else match ← h.insertLoop addr length h.made (some id) with
        | none => .fault .mapatNode
        | some id => h.nodeInsertAfter id new

/-- `mm_mapat_cb`. -/
def mmMapatCb (h : MMHeap) (addr length : Word) (prot flags : CInt) (fd : Int) (offset : Word)
    (ufn : UpdateFn) : ListProg (Word × MMHeap) := do
  if !h.space.aligned addr then return (-1, h)
  let addr := h.space.mmtrunc addr
  let length := h.space.mmceil length
  if !h.space.mmvalid addr length then return (BitVec.ofInt 64 (-MM_EINVAL), h)
  if !(← Prog.ask HostCall.malloc) then return (-1, h)
  let new := h.made
  let h := { h with made := h.made + 1 }
  let (r, h) ← h.mmUnmapCb (addr <<< h.p2pagesize) (length <<< h.p2pagesize) ufn
  Prog.check (r = 0) .mapatUnmap
  let h := h.initNode ⟨new, addr, length, { prot, flags, fd, offset }⟩
  let h ← h.link new addr length
  return (addr <<< h.p2pagesize, h)

/-! ## Mapping anywhere -/

/-- The loop of `mm_mapany_cursor`, over its variables `node`, `end`, `start` and `gap`. -/
def gapLoop (h : MMHeap) (len : Word) : Nat → Option NodeId → Option NodeId → Word → Word →
    ListProg (Option NodeId × Option NodeId × Word × Word)
  | 0, _, _, _, _ => .fault .endless
  | fuel + 1, node, last, start, gap =>
      if start < h.base + h.len then
        match node with
        | none => pure (none, last, start, h.base + h.len - start)
        | some id => do
            let node ← h.read id
            let gap := node.base - start
            if gap ≥ len then return (some id, last, start, gap)
            else
              let last := if (h.links.next id).isNone then some id else last
              gapLoop h len fuel (h.links.next id) last (node.base + node.len) gap
      else pure (node, last, start, gap)

/-- In `mm_mapany_cursor`: link the new node in front of `node` or behind `end`. -/
def linkAt (h : MMHeap) (node last : Option NodeId) (new : NodeId) : ListProg MMHeap :=
  match node, last with
  | some id, _ => h.nodeInsertBefore id new
  | none, some id => h.nodeInsertAfter id new
  | none, none => do
      Prog.check h.links.head.isNone .mapanyNodes
      return { h with links := { h.links with head := some new } }

/-- `mm_mapany_cursor`. -/
def mmMapanyCursor (h : MMHeap) (len : Word) (prot flags : CInt) (fd : Int) (offset : Word)
    (cursor : Option NodeId) : ListProg (Word × MMHeap) := do
  let len := h.space.mmceil len
  let start ← h.baseOr cursor h.base
  let (node, last, start, gap) ← h.gapLoop len (h.made + 1) cursor cursor start 0
  if gap ≥ len then
    if !(← Prog.ask HostCall.malloc) then return (-1, h)
    let new := h.made
    let h := { h with made := h.made + 1 }
    let h := h.initNode ⟨new, start, len, { prot, flags, fd, offset }⟩
    let h ← h.linkAt node last new
    let h := { h with cursor := h.links.prev new }
    return (start <<< h.p2pagesize, h)
  return (-1, h)

/-- `mm_mapany`. -/
def mmMapany (h : MMHeap) (len : Word) (prot flags : CInt) (fd : Int) (offset : Word) :
    ListProg (Word × MMHeap) :=
  match h.cursor with
  | none => h.mmMapanyCursor len prot flags fd offset h.links.head
  | some cursor => do
      let (p, h) ← h.mmMapanyCursor len prot flags fd offset (some cursor)
      if p ≠ -1 then return (p, h)
      h.mmMapanyCursor len prot flags fd offset h.links.head

end MMHeap

end Lps.Core

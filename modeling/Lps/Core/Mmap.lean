import Lps.Program.Calls
import Lps.Word
import Mathlib.Data.Nat.Log

/-!
# The mapping tracker

The tracker of a box keeps a sorted list of mapped regions, in pages, and a
cursor where the search for a free gap starts.  The doubly linked list of the
source is a list of nodes; the number a node was allocated under stands for the
pointer to it.  The calls a program makes to its surroundings are calls of a
host program, so that it shows which of them come before it goes down.
-/

namespace Lps.Core

open Lps.Program

/-! ## The host -/

/-- What the runtime does to its surroundings while it manages memory. -/
inductive HostCall
  | malloc
  | mmap (addr len : Word) (prot flags : CInt) (fd : Int) (off : Word)
  | mprotect (addr len : Word) (prot : CInt)
  /-- A `memcpy` of bytes of an ELF image into a sandbox. -/
  | memcpy (to_ count offset : Word)
  /-- A `memset` to zero in a sandbox. -/
  | memset (to_ count : Word)
  deriving DecidableEq

/-- The answers: whether there is memory, the address of the mapping, the result. -/
abbrev HostReply : HostCall → Type
  | .malloc => Bool
  | .mmap .. => Word
  | .mprotect .. => Int
  | .memcpy .. => Unit
  | .memset .. => Unit

/-- How the runtime goes down. -/
inductive Fault
  /-- `assert(!mm->nodes)` of `mm_mapany_cursor`. -/
  | mapanyNodes
  /-- `assert(r == 0)` of `mm_mapat_cb`. -/
  | mapatUnmap
  /-- `assert(node)` of `mm_mapat_cb`. -/
  | mapatNode
  /-- The assertion of `cbunmap`. -/
  | cbunmap
  /-- The range assertion of `lps_box_mapat`. -/
  | boxMapat
  /-- The range assertion of `lps_box_mprotect`. -/
  | boxMprotect
  /-- `assert(newsize < brkmaxsize)` of `sys_brk`. -/
  | brkNewsize
  /-- `assert(proc->seginfo.len < ELFSEGMAXN)` of `buf_read_elfseg`. -/
  | elfSegs
  /-- A null `struct FDFile` is dereferenced. -/
  | nullFile
  /-- A freed node is dereferenced. -/
  | freedNode
  deriving DecidableEq

/-- A part of the runtime that manages memory. -/
abbrev HostProg := Prog HostCall HostReply Fault

def malloc : HostProg Bool := .ask HostCall.malloc

/-! ## Data -/

def MM_EINVAL : Int := 22

/-- `struct MMInfo`. -/
structure MMInfo where
  prot : CInt
  flags : CInt
  fd : Int
  offset : Word
  original : Bool := false
  deriving DecidableEq

/-- Nodes are numbered in the order they are allocated. -/
abbrev NodeId := Nat

/-- `struct MMNode` without its links. -/
structure MMNode where
  id : NodeId
  base : Word
  len : Word
  info : MMInfo
  deriving DecidableEq

/-- What is left of a node in front of a page. -/
def MMNode.keepFront (node : MMNode) (page : Word) : MMNode :=
  { node with len := page - node.base }

/-- What is left of a node from a page on. -/
def MMNode.keepBack (node : MMNode) (page : Word) : MMNode :=
  { node with base := page, len := node.base + node.len - page }

/-- `struct MMAddrSpace`; `made` is the number of the next node. -/
structure MMAddrSpace where
  base : Word
  len : Word
  p2pagesize : Nat
  nodes : List MMNode
  cursor : Option NodeId
  made : NodeId
  deriving DecidableEq

/-- `getpow`. -/
def getpow (x : Word) : Nat := Nat.log 2 x.toNat

/-- `mm_init`, for a page size that is a power of two. -/
def mmInit (start len pagesize : Word) : MMAddrSpace where
  base := start >>> getpow pagesize
  len := len >>> getpow pagesize
  p2pagesize := getpow pagesize
  nodes := []
  cursor := none
  made := 0

namespace MMAddrSpace

/-- The first page behind the address space. -/
def stop (mm : MMAddrSpace) : Word := mm.base + mm.len

/-- `mmvalid`. -/
def mmvalid (mm : MMAddrSpace) (start len : Word) : Bool :=
  start ≥ mm.base && start + len ≤ mm.base + mm.len

/-- `mmtrunc`. -/
def mmtrunc (mm : MMAddrSpace) (addr : Word) : Word := addr >>> mm.p2pagesize

/-- `mmceil`. -/
def mmceil (mm : MMAddrSpace) (addr : Word) : Word :=
  let align : Word := 1 <<< mm.p2pagesize
  let alignMask := align - 1
  ((addr + alignMask) &&& ~~~alignMask) >>> mm.p2pagesize

/-- `addr % (1 << mm->p2pagesize) == 0`. -/
def aligned (mm : MMAddrSpace) (addr : Word) : Bool := addr % (1 <<< mm.p2pagesize) = 0

end MMAddrSpace

/-- `contained`. -/
def contained (key1 size1 key2 size2 : Word) : Bool :=
  key1 ≥ key2 && key1 + size1 ≤ key2 + size2

/-! ## Places in the list -/

/-- The nodes before the node a pointer points to, that node, and the nodes
behind it. -/
def splitAtNode (id : NodeId) : List MMNode → Option (List MMNode × MMNode × List MMNode)
  | [] => none
  | node :: rest =>
      if node.id = id then some ([], node, rest)
      else (splitAtNode id rest).map fun (before, found, rest) => (node :: before, found, rest)

namespace MMAddrSpace

/-- Follow a pointer to a node. -/
def deref (mm : MMAddrSpace) (id : NodeId) : HostProg (List MMNode × MMNode × List MMNode) :=
  match splitAtNode id mm.nodes with
  | none => .fault .freedNode
  | some place => pure place

/-- The nodes before and from a pointer on; a null pointer stands for the head of
the list. -/
def follow (mm : MMAddrSpace) : Option NodeId → HostProg (List MMNode × List MMNode)
  | none => pure ([], mm.nodes)
  | some id => do
      let (before, node, rest) ← mm.deref id
      return (before, node :: rest)

end MMAddrSpace

/-- The node before a place in the list. -/
def prevOf (before : List MMNode) : Option NodeId := before.getLast?.map MMNode.id

/-! ## Unmapping -/

/-- What `mm_unmap_cb` calls for every range it unmaps. -/
abbrev UpdateFn := Word → Word → MMInfo → HostProg Unit

/-- No callback: `ufn` is null. -/
def noUpdate : UpdateFn := fun _ _ _ => pure ()

/-- The loop of `mm_unmap_cb` over the nodes from `node` on; `prev` is the node
before it, `cursor` is `mm->cursor` now and `old` is what it was before. -/
def unmapLoop (mm : MMAddrSpace) (ufn : UpdateFn) (addr length : Word) (old : Option NodeId) :
    List MMNode → Option NodeId → Option NodeId → HostProg (List MMNode × Option NodeId)
  | [], _, cursor => pure ([], cursor)
  | node :: rest, prev, cursor =>
      if contained node.base node.len addr length then do
        -- The node is fully contained in the range.
        ufn (node.base <<< mm.p2pagesize) (node.len <<< mm.p2pagesize) node.info
        unmapLoop mm ufn addr length old rest prev (if cursor = old then prev else cursor)
      else if contained addr length node.base node.len then do
        -- The node fully contains the range.
        ufn (addr <<< mm.p2pagesize) (length <<< mm.p2pagesize) node.info
        let new := { node.keepBack (addr + length) with id := mm.made }
        let kept := node.keepFront addr
        pure ((if kept.len = 0 then [] else [kept]) ++ (if new.len = 0 then [] else [new]) ++ rest,
          if cursor = old then prev else cursor)
      else if node.base < addr ∧ node.base + node.len > addr then do
        -- The node starts before the range and ends inside it.
        ufn (addr <<< mm.p2pagesize) ((node.base + node.len - addr) <<< mm.p2pagesize) node.info
        let (rest, cursor) ← unmapLoop mm ufn addr length old rest (some node.id)
          (if cursor = old then some node.id else cursor)
        pure (node.keepFront addr :: rest, cursor)
      else if node.base < addr + length ∧ node.base + node.len > addr then do
        -- The node starts within the range and ends outside it.
        ufn (node.base <<< mm.p2pagesize) ((addr + length - node.base) <<< mm.p2pagesize) node.info
        pure (node.keepBack (addr + length) :: rest, cursor)
      else if node.base ≥ addr + length then
        pure (node :: rest, cursor)
      else do
        let (rest, cursor) ← unmapLoop mm ufn addr length old rest (some node.id) cursor
        pure (node :: rest, cursor)

/-- The loop of `mm_unmap_cb` that walks `start` back to a node at or before the
range.  When there is none, `start` is null and the head of the list is taken,
which is where the walk has arrived. -/
def seekBack (addr : Word) : List MMNode → MMNode → List MMNode → List MMNode × List MMNode
  | [], start, rest => ([], start :: rest)
  | prev :: before, start, rest =>
      if start.base > addr then seekBack addr before prev (start :: rest)
      else ((prev :: before).reverse, start :: rest)

namespace MMAddrSpace

/-- Where the loop of `mm_unmap_cb` starts. -/
def unmapStart (mm : MMAddrSpace) (addr : Word) : HostProg (List MMNode × List MMNode) :=
  match mm.cursor with
  | none => pure ([], mm.nodes)
  | some id => do
      let (before, start, rest) ← mm.deref id
      return seekBack addr before.reverse start rest

/-- `mm_unmap_cb`. -/
def mmUnmapCb (mm : MMAddrSpace) (addr length : Word) (ufn : UpdateFn) :
    HostProg (Int × MMAddrSpace) := do
  if !mm.aligned addr || length = 0 then return (-MM_EINVAL, mm)
  let addr := mm.mmtrunc addr
  let length := mm.mmceil length
  if !mm.mmvalid addr length then return (-MM_EINVAL, mm)
  if !(← malloc) then return (-1, mm)
  let (before, nodes) ← mm.unmapStart addr
  let (nodes, cursor) ← unmapLoop mm ufn addr length mm.cursor nodes (prevOf before) mm.cursor
  return (0, { mm with nodes := before ++ nodes, cursor := cursor, made := mm.made + 1 })

/-- `mm_unmap`. -/
def mmUnmap (mm : MMAddrSpace) (addr length : Word) : HostProg (Int × MMAddrSpace) :=
  mm.mmUnmapCb addr length noUpdate

end MMAddrSpace

/-! ## Mapping at an address -/

/-- The loop of `mm_mapat_cb`: insert the new node after the first one that ends
before it and whose successor starts behind it. -/
def insertLoop (limit : Word) (new : MMNode) : List MMNode → Option (List MMNode)
  | [] => none
  | node :: rest =>
      let next := match rest with
        | [] => limit
        | next :: _ => next.base
      if new.base ≥ node.base + node.len ∧ new.base + new.len ≤ next then
        some (node :: new :: rest)
      else (insertLoop limit new rest).map fun rest => node :: rest

namespace MMAddrSpace

/-- Where `mm_mapat_cb` starts to look for the place of a new node at `addr`. -/
def linkStart (mm : MMAddrSpace) (addr : Word) : HostProg (List MMNode × List MMNode) :=
  match mm.cursor with
  | none => pure ([], mm.nodes)
  | some id => do
      let (before, node, rest) ← mm.deref id
      return if node.base ≤ addr then (before, node :: rest) else ([], mm.nodes)

/-- The end of `mm_mapat_cb`: link the new node. -/
def link (mm : MMAddrSpace) (new : MMNode) : HostProg MMAddrSpace := do
  let (before, nodes) ← mm.linkStart new.base
  match nodes with
  | [] => return { mm with nodes := before ++ [new] }
  | node :: rest =>
      if new.base + new.len ≤ node.base then
        return { mm with nodes := before ++ new :: node :: rest }
      else match insertLoop mm.stop new (node :: rest) with
        | none => .fault .mapatNode
        | some nodes => return { mm with nodes := before ++ nodes }

/-- `mm_mapat_cb`. -/
def mmMapatCb (mm : MMAddrSpace) (addr length : Word) (prot flags : CInt) (fd : Int)
    (offset : Word) (ufn : UpdateFn) : HostProg (Word × MMAddrSpace) := do
  if !mm.aligned addr then return (-1, mm)
  let addr := mm.mmtrunc addr
  let length := mm.mmceil length
  if !mm.mmvalid addr length then return (BitVec.ofInt 64 (-MM_EINVAL), mm)
  if !(← malloc) then return (-1, mm)
  let new : MMNode := ⟨mm.made, addr, length, { prot, flags, fd, offset }⟩
  let mm := { mm with made := mm.made + 1 }
  let (r, mm) ← mm.mmUnmapCb (addr <<< mm.p2pagesize) (length <<< mm.p2pagesize) ufn
  Prog.check (r = 0) .mapatUnmap
  let mm ← mm.link new
  return (addr <<< mm.p2pagesize, mm)

end MMAddrSpace

/-! ## Mapping anywhere -/

/-- The loop of `mm_mapany_cursor` over the nodes from `node` on: the nodes it
passes, the nodes it stops at, and its variables `start` and `gap`. -/
def gapLoop (limit len : Word) : List MMNode → Word → Word →
    List MMNode × List MMNode × Word × Word
  | nodes, start, gap =>
      if start < limit then
        match nodes with
        | [] => ([], [], start, limit - start)
        | node :: rest =>
            let gap := node.base - start
            if gap ≥ len then ([], node :: rest, start, gap)
            else
              let (passed, rest, start, gap) := gapLoop limit len rest (node.base + node.len) gap
              (node :: passed, rest, start, gap)
      else ([], nodes, start, gap)

namespace MMAddrSpace

/-- `node ? node->base : mm->base`. -/
def startAt (mm : MMAddrSpace) : List MMNode → Word
  | [] => mm.base
  | node :: _ => node.base

/-- `mm_mapany_cursor`; `cursor` is null for the head of the list. -/
def mmMapanyCursor (mm : MMAddrSpace) (len : Word) (prot flags : CInt) (fd : Int)
    (offset : Word) (cursor : Option NodeId) : HostProg (Word × MMAddrSpace) := do
  let len := mm.mmceil len
  let (before, nodes) ← mm.follow cursor
  let (passed, rest, start, gap) := gapLoop mm.stop len nodes (mm.startAt nodes) 0
  if gap ≥ len then
    if !(← malloc) then return (-1, mm)
    Prog.check (!nodes.isEmpty || mm.nodes.isEmpty) .mapanyNodes
    let new : MMNode := ⟨mm.made, start, len, { prot, flags, fd, offset }⟩
    let mm := { mm with
      nodes := before ++ passed ++ new :: rest
      cursor := prevOf (before ++ passed)
      made := mm.made + 1 }
    return (start <<< mm.p2pagesize, mm)
  return (-1, mm)

/-- `mm_mapany`. -/
def mmMapany (mm : MMAddrSpace) (len : Word) (prot flags : CInt) (fd : Int) (offset : Word) :
    HostProg (Word × MMAddrSpace) :=
  match mm.cursor with
  | none => mm.mmMapanyCursor len prot flags fd offset none
  | some id => do
      let (p, mm) ← mm.mmMapanyCursor len prot flags fd offset (some id)
      if p ≠ -1 then return (p, mm)
      mm.mmMapanyCursor len prot flags fd offset none

end MMAddrSpace

end Lps.Core

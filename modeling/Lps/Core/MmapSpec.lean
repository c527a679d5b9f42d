import Lps.Core.Mmap
import Lps.Interval.Ordered
import Lps.Page

/-!
# What the tracker keeps

The tracked regions stay in order inside the address space and the cursor stays
a region of the list, whatever is mapped or unmapped, also when a region is
empty.  Unmapping calls back only with parts of the range it was asked for, and
leaves nothing in it, so that a new region finds its place.
-/

namespace Lps.Core

open Lps.Program Lps.Interval

/-- The first page of a node, as a number. -/
def MMNode.first (node : MMNode) : Nat := node.base.toNat

/-- The first page behind a node, as a number. -/
def MMNode.behind (node : MMNode) : Nat := node.base.toNat + node.len.toNat

/-- Nodes that lie in order between two pages. -/
abbrev NodesIn : Nat → Nat → List MMNode → Prop := Ordered MMNode.first MMNode.behind

/-- No node reaches into the pages from `lo` to `hi`. -/
abbrev NodesOff : Nat → Nat → List MMNode → Prop := Clear MMNode.first MMNode.behind

/-- The pointer is null or points to one of these nodes. -/
def PointsIn (pointer : Option NodeId) (ids : List NodeId) : Prop := ∀ id ∈ pointer, id ∈ ids

/-- The range of pages lies in the address space of the tracker. -/
def MMAddrSpace.Inside (mm : MMAddrSpace) (page len : Word) : Prop :=
  mm.base.toNat ≤ page.toNat ∧ page.toNat + len.toNat ≤ mm.base.toNat + mm.len.toNat

/-- What every operation keeps of a tracker. -/
structure MMAddrSpace.Tracked (mm : MMAddrSpace) : Prop where
  paged : mm.p2pagesize = 12
  fits : mm.base.toNat + mm.len.toNat ≤ 2 ^ 52
  ordered : NodesIn mm.base.toNat (mm.base.toNat + mm.len.toNat) mm.nodes
  cursor : PointsIn mm.cursor (mm.nodes.map MMNode.id)

/-- The other tracker is a proper one of the same address space. -/
structure MMAddrSpace.Keeps (mm mm' : MMAddrSpace) : Prop where
  tracked : mm'.Tracked
  base : mm'.base = mm.base
  len : mm'.len = mm.len

/-- What every operation keeps of a tracker, whatever the size of its pages. -/
structure MMAddrSpace.InOrder (mm : MMAddrSpace) : Prop where
  paged : 0 < mm.p2pagesize ∧ mm.p2pagesize < 31
  fits : mm.base.toNat + mm.len.toNat < 2 ^ 64
  ordered : NodesIn mm.base.toNat (mm.base.toNat + mm.len.toNat) mm.nodes
  cursor : PointsIn mm.cursor (mm.nodes.map MMNode.id)

/-- The other tracker is in order and one of the same address space. -/
structure MMAddrSpace.KeepsOrder (mm mm' : MMAddrSpace) : Prop where
  inOrder : mm'.InOrder
  base : mm'.base = mm.base
  len : mm'.len = mm.len
  p2pagesize : mm'.p2pagesize = mm.p2pagesize

variable {mm : MMAddrSpace} {contract : Contract HostCall HostReply Fault}

theorem MMAddrSpace.Tracked.inOrder (tracked : mm.Tracked) : mm.InOrder where
  paged := by
    rw [tracked.paged]
    decide
  fits := tracked.fits.trans_lt (by decide)
  ordered := tracked.ordered
  cursor := tracked.cursor

/-- A tracker of pages of 4096 bytes that is kept in order is kept. -/
theorem MMAddrSpace.Tracked.keeps_of {mm' : MMAddrSpace} (tracked : mm.Tracked)
    (keeps : mm.KeepsOrder mm') : mm.Keeps mm' where
  tracked :=
    { paged := keeps.p2pagesize.trans tracked.paged
      fits := by
        rw [keeps.base, keeps.len]
        exact tracked.fits
      ordered := keeps.inOrder.ordered
      cursor := keeps.inOrder.cursor }
  base := keeps.base
  len := keeps.len

theorem MMAddrSpace.InOrder.keeps (inOrder : mm.InOrder) : mm.KeepsOrder mm :=
  ⟨inOrder, rfl, rfl, rfl⟩

theorem MMAddrSpace.KeepsOrder.trans {mm' mm'' : MMAddrSpace} (first : mm.KeepsOrder mm')
    (second : mm'.KeepsOrder mm'') : mm.KeepsOrder mm'' :=
  ⟨second.inOrder, second.base.trans first.base, second.len.trans first.len,
    second.p2pagesize.trans first.p2pagesize⟩

/-! ## Pages and addresses -/

theorem MMNode.toNat_end {node : MMNode} (small : node.behind < 2 ^ 64) :
    (node.base + node.len).toNat = node.behind := by
  rw [behind] at small ⊢
  rw [BitVec.toNat_add, Nat.mod_eq_of_lt small]

namespace MMAddrSpace

section Pages

variable (paged : 0 < mm.p2pagesize ∧ mm.p2pagesize < 31)

include paged

theorem page_lt (addr : Word) : (mm.mmtrunc addr).toNat < 2 ^ (64 - mm.p2pagesize) :=
  toNat_shiftRight_lt addr (by omega)

theorem mmceil_eq (length : Word) :
    mm.mmceil length = (length + (↑(1 <<< mm.p2pagesize) - 1)) >>> mm.p2pagesize :=
  shiftRight_and_not_mask _ (by omega)

theorem pages_lt (length : Word) : (mm.mmceil length).toNat < 2 ^ (64 - mm.p2pagesize) := by
  rw [mmceil_eq paged]
  exact toNat_shiftRight_lt _ (by omega)

/-- Page numbers are so small that two of them add up. -/
theorem two_pow_le : 2 ^ (64 - mm.p2pagesize) ≤ 2 ^ 63 :=
  Nat.pow_le_pow_right (by decide) (by omega)

theorem mmtrunc_shiftLeft (addr : Word) :
    mm.mmtrunc (mm.mmtrunc addr <<< mm.p2pagesize) = mm.mmtrunc addr :=
  shiftRight_shiftLeft_of_lt (by omega) (page_lt paged addr)

theorem aligned_shiftLeft (addr : Word) : mm.aligned (mm.mmtrunc addr <<< mm.p2pagesize) = true := by
  rw [aligned, decide_eq_true_eq, umod_pageSize_eq_zero (by omega),
    toNat_shiftLeft_of_lt (by omega) (page_lt paged addr), Nat.mul_mod_left]

/-- The pages of a number of whole pages. -/
theorem mmceil_shiftLeft_of_lt {pages : Word} (small : pages.toNat < 2 ^ (64 - mm.p2pagesize)) :
    mm.mmceil (pages <<< mm.p2pagesize) = pages := by
  have size := @toNat_pageSize mm.p2pagesize (by omega)
  have pos := Nat.two_pow_pos mm.p2pagesize
  have bytes := toNat_shiftLeft_of_lt (by omega) small
  have whole : 2 ^ (64 - mm.p2pagesize) * 2 ^ mm.p2pagesize = 2 ^ 64 := by
    rw [← Nat.pow_add, Nat.sub_add_cancel (by omega)]
  have room : (pages.toNat + 1) * 2 ^ mm.p2pagesize ≤ 2 ^ 64 := by
    rw [← whole]
    exact Nat.mul_le_mul_right _ small
  rw [Nat.add_mul, Nat.one_mul] at room
  have last := @toNat_pageMask mm.p2pagesize (by omega)
  apply BitVec.eq_of_toNat_eq
  rw [mmceil_eq paged (pages <<< mm.p2pagesize), BitVec.toNat_ushiftRight,
    Nat.shiftRight_eq_div_pow, BitVec.toNat_add, bytes, last, Nat.mod_eq_of_lt (by omega),
    Nat.mul_comm, Nat.mul_add_div pos, Nat.div_eq_of_lt (by omega), Nat.add_zero]

theorem mmceil_shiftLeft (length : Word) :
    mm.mmceil (mm.mmceil length <<< mm.p2pagesize) = mm.mmceil length :=
  mmceil_shiftLeft_of_lt paged (pages_lt paged length)

theorem shiftLeft_mmceil_ne_zero {length : Word} (pages : mm.mmceil length ≠ 0) :
    mm.mmceil length <<< mm.p2pagesize ≠ 0 := by
  intro zero
  apply pages
  have back := shiftRight_shiftLeft_of_lt (by omega) (pages_lt paged length)
  rw [zero] at back
  rw [← back]
  exact BitVec.zero_ushiftRight

/-- The first address of the page of an aligned address is the address. -/
theorem shiftLeft_mmtrunc {addr : Word} (isAligned : mm.aligned addr = true) :
    mm.mmtrunc addr <<< mm.p2pagesize = addr := by
  rw [aligned, decide_eq_true_eq, umod_pageSize_eq_zero (by omega)] at isAligned
  apply BitVec.eq_of_toNat_eq
  rw [toNat_shiftLeft_of_lt (by omega) (page_lt paged addr), mmtrunc, BitVec.toNat_ushiftRight,
    Nat.shiftRight_eq_div_pow, Nat.div_mul_cancel (Nat.dvd_of_mod_eq_zero isAligned)]

/-- A range passes `mmvalid` when it lies in the address space. -/
theorem valid_iff {addr length : Word} (fits : mm.base.toNat + mm.len.toNat < 2 ^ 64) :
    mm.mmvalid (mm.mmtrunc addr) (mm.mmceil length) = true ↔
      mm.Inside (mm.mmtrunc addr) (mm.mmceil length) := by
  have page := page_lt paged addr
  have pages := pages_lt paged length
  have small := two_pow_le paged
  have sum : (mm.mmtrunc addr + mm.mmceil length).toNat =
      (mm.mmtrunc addr).toNat + (mm.mmceil length).toNat := by
    rw [BitVec.toNat_add, Nat.mod_eq_of_lt (by omega)]
  have stop : (mm.base + mm.len).toNat = mm.base.toNat + mm.len.toNat := by
    rw [BitVec.toNat_add, Nat.mod_eq_of_lt fits]
  simp only [mmvalid, Inside, Bool.and_eq_true, decide_eq_true_eq, ge_iff_le, BitVec.le_def, sum,
    stop]

end Pages

theorem mmtrunc_toNat (paged : mm.p2pagesize = 12) (addr : Word) :
    (mm.mmtrunc addr).toNat = addr.toNat / 4096 := by
  rw [mmtrunc, paged, toNat_page]

theorem mmceil_toNat (paged : mm.p2pagesize = 12) (addr : Word) :
    (mm.mmceil addr).toNat = (addr.toNat + 4095) % 2 ^ 64 / 4096 := by
  have mask : (1 <<< 12 : Word) - 1 = 4095 := rfl
  simp only [mmceil, paged, mask]
  rw [toNat_page, toNat_and_not_pageMask, toNat_add_pageMask]
  omega

theorem aligned_iff (paged : mm.p2pagesize = 12) {addr : Word} :
    mm.aligned addr = true ↔ addr.toNat % 4096 = 0 := by
  have page : (1 <<< 12 : Word) = 4096 := rfl
  simp only [aligned, paged, page, decide_eq_true_eq]
  exact umod_page_eq_zero

theorem mmvalid_iff (tracked : mm.Tracked) {start len : Word} (startSmall : start.toNat < 2 ^ 52)
    (lenSmall : len.toNat < 2 ^ 52) :
    mm.mmvalid start len = true ↔
      mm.base.toNat ≤ start.toNat ∧
        start.toNat + len.toNat ≤ mm.base.toNat + mm.len.toNat := by
  have fits := tracked.fits
  simp only [mmvalid, Bool.and_eq_true, decide_eq_true_eq]
  constructor
  · rintro ⟨above, below⟩
    constructor <;> bv_omega
  · rintro ⟨above, below⟩
    constructor <;> bv_omega

end MMAddrSpace

theorem contained_iff {key1 size1 key2 size2 : Word} (small1 : key1.toNat + size1.toNat < 2 ^ 64)
    (small2 : key2.toNat + size2.toNat < 2 ^ 64) :
    contained key1 size1 key2 size2 = true ↔
      key2.toNat ≤ key1.toNat ∧ key1.toNat + size1.toNat ≤ key2.toNat + size2.toNat := by
  simp only [contained, Bool.and_eq_true, decide_eq_true_eq, ge_iff_le, BitVec.le_def,
    BitVec.toNat_add, Nat.mod_eq_of_lt small1, Nat.mod_eq_of_lt small2]

/-! ## Places in the list -/

theorem splitAtNode_append {id : NodeId} {nodes before rest : List MMNode} {found : MMNode}
    (split : splitAtNode id nodes = some (before, found, rest)) :
    before ++ found :: rest = nodes := by
  induction nodes generalizing before with
  | nil => simp [splitAtNode] at split
  | cons node nodes ih =>
      rw [splitAtNode] at split
      split at split
      · cases split
        rfl
      · obtain ⟨⟨before', found', rest'⟩, place, equal⟩ := Option.map_eq_some_iff.mp split
        cases equal
        rw [List.cons_append, ih place]

theorem splitAtNode_isSome {id : NodeId} {nodes : List MMNode}
    (mem : id ∈ nodes.map MMNode.id) : ∃ place, splitAtNode id nodes = some place := by
  induction nodes with
  | nil => simp at mem
  | cons node nodes ih =>
      rw [splitAtNode]
      split
      · exact ⟨_, rfl⟩
      · rename_i ne
        rcases List.mem_cons.mp mem with same | later
        · exact absurd same.symm ne
        · obtain ⟨place, found⟩ := ih later
          exact ⟨_, by rw [found]; rfl⟩

/-- A pointer into the list leads to a place in the list. -/
theorem MMAddrSpace.deref_eq {id : NodeId} (mem : id ∈ mm.nodes.map MMNode.id) :
    ∃ before node rest, mm.deref id = pure (before, node, rest) ∧
      before ++ node :: rest = mm.nodes := by
  obtain ⟨⟨before, node, rest⟩, found⟩ := splitAtNode_isSome mem
  exact ⟨before, node, rest, by rw [deref, found], splitAtNode_append found⟩

/-- The place a pointer leads to is that of its node. -/
theorem MMAddrSpace.deref_id {id : NodeId} {before rest : List MMNode} {node : MMNode}
    (found : mm.deref id = pure (before, node, rest)) : node.id = id := by
  rw [deref] at found
  split at found
  · cases found
  · rename_i place split
    cases found
    revert split
    generalize mm.nodes = nodes
    induction nodes generalizing before with
    | nil => intro split; cases split
    | cons head tail ih =>
        intro split
        rw [splitAtNode] at split
        split at split
        · rename_i same
          cases split
          exact same
        · obtain ⟨⟨before', found', rest'⟩, later, equal⟩ := Option.map_eq_some_iff.mp split
          cases equal
          exact ih later

theorem MMAddrSpace.follow_eq {pointer : Option NodeId}
    (points : PointsIn pointer (mm.nodes.map MMNode.id)) :
    ∃ before nodes, mm.follow pointer = pure (before, nodes) ∧ before ++ nodes = mm.nodes ∧
      (nodes = [] → before = []) := by
  cases pointer with
  | none => exact ⟨[], mm.nodes, rfl, rfl, fun _ => rfl⟩
  | some id =>
      obtain ⟨before, node, rest, found, place⟩ := deref_eq (points id rfl)
      refine ⟨before, node :: rest, ?_, place, fun none => absurd none (List.cons_ne_nil _ _)⟩
      rw [follow, found]
      rfl

theorem seekBack_append {addr : Word} {before rest : List MMNode} {start : MMNode} :
    (seekBack addr before start rest).1 ++ (seekBack addr before start rest).2 =
      before.reverse ++ start :: rest := by
  induction before generalizing start rest with
  | nil => rfl
  | cons prev before ih =>
      rw [seekBack]
      split
      · rw [ih, List.reverse_cons, List.append_assoc, List.singleton_append]
      · rfl

/-- Walking back stays in the list, and stops behind nodes that end at or before
the address. -/
theorem seekBack_spec {addr : Word} {before rest : List MMNode} {start : MMNode} {lo hi : Nat}
    (ordered : NodesIn lo hi (before.reverse ++ start :: rest)) :
    (seekBack addr before start rest).1 ++ (seekBack addr before start rest).2 =
        before.reverse ++ start :: rest ∧
      ∀ node ∈ (seekBack addr before start rest).1, node.behind ≤ addr.toNat := by
  induction before generalizing start rest with
  | nil => simp [seekBack]
  | cons prev before ih =>
      have shift : (prev :: before).reverse ++ start :: rest =
          before.reverse ++ prev :: start :: rest := by
        simp
      rw [seekBack]
      split
      · rw [shift] at ordered ⊢
        exact ih ordered
      · rename_i notAfter
        refine ⟨rfl, ?_⟩
        intro other mem
        have order : other.behind ≤ start.base.toNat :=
          ordered.before_after mem (List.mem_cons_self ..)
        have atOrBefore : start.base.toNat ≤ addr.toNat := BitVec.not_lt.mp notAfter
        exact order.trans atOrBefore

/-- The loop of `mm_unmap_cb` starts behind nodes that end at or before the address. -/
theorem MMAddrSpace.unmapStart_eq {addr : Word} {lo hi : Nat} (ordered : NodesIn lo hi mm.nodes)
    (points : PointsIn mm.cursor (mm.nodes.map MMNode.id)) :
    ∃ before nodes, mm.unmapStart addr = pure (before, nodes) ∧ before ++ nodes = mm.nodes ∧
      ∀ node ∈ before, node.behind ≤ addr.toNat := by
  rw [unmapStart]
  split
  · exact ⟨[], mm.nodes, rfl, rfl, by simp⟩
  · rename_i id pointer
    obtain ⟨before, start, rest, found, place⟩ := deref_eq (points id pointer)
    rw [← place, ← List.reverse_reverse before] at ordered
    obtain ⟨same, inFront⟩ := @seekBack_spec addr _ _ _ _ _ ordered
    refine ⟨_, _, by rw [found]; rfl, ?_, inFront⟩
    rw [same, List.reverse_reverse, place]

/-- The place of a new node is looked for from the head of the list or from a node at or
before the address. -/
theorem MMAddrSpace.linkStart_eq {addr : Word}
    (points : PointsIn mm.cursor (mm.nodes.map MMNode.id)) :
    ∃ before nodes, mm.linkStart addr = pure (before, nodes) ∧ before ++ nodes = mm.nodes ∧
      (before ≠ [] → ∃ node rest, nodes = node :: rest ∧ node.base.toNat ≤ addr.toNat) := by
  rw [linkStart]
  split
  · exact ⟨[], mm.nodes, rfl, rfl, fun some => absurd rfl some⟩
  · rename_i id pointer
    obtain ⟨before, node, rest, found, place⟩ := deref_eq (points id pointer)
    by_cases atOrBefore : node.base ≤ addr
    · refine ⟨before, node :: rest, ?_, place, fun _ => ⟨node, rest, rfl, atOrBefore⟩⟩
      rw [found, pure_bind]
      exact congrArg pure (if_pos atOrBefore)
    · refine ⟨[], mm.nodes, ?_, rfl, fun some => absurd rfl some⟩
      rw [found, pure_bind]
      exact congrArg pure (if_neg atOrBefore)

/-! ## Unmapping -/

/-- The callback does its work on every range of pages that is `ok`. -/
def Handles (contract : Contract HostCall HostReply Fault) (ufn : UpdateFn)
    (ok : Word → Word → Prop) : Prop :=
  ∀ base len info, ok base len →
    (ufn (base <<< 12) (len <<< 12) info).Meets contract fun _ => True

/-- The callback does its work on every range of pages of this size that is `ok`. -/
def HandlesPages (p : Nat) (contract : Contract HostCall HostReply Fault) (ufn : UpdateFn)
    (ok : Word → Word → Prop) : Prop :=
  ∀ base len info, ok base len →
    (ufn (base <<< p) (len <<< p) info).Meets contract fun _ => True

theorem Handles.pages {ufn : UpdateFn} {ok : Word → Word → Prop} (handles : Handles contract ufn ok)
    (paged : mm.p2pagesize = 12) : HandlesPages mm.p2pagesize contract ufn ok := by
  rw [paged]
  exact handles

/-- The ranges of pages in which `mm_unmap_cb` may call back: those in the range
it unmaps.  An empty one is called back only for an empty node in the range and
for a node around an empty range. -/
structure Covers (addr length : Word) (nodes : List MMNode) (ok : Word → Word → Prop) : Prop where
  inside : ∀ base len : Word, addr.toNat ≤ base.toNat →
    base.toNat + len.toNat ≤ addr.toNat + length.toNat → 0 < len.toNat → ok base len
  node : ∀ node ∈ nodes, contained node.base node.len addr length = true → ok node.base node.len
  range : ∀ node ∈ nodes, contained addr length node.base node.len = true → ok addr length

section Everything

variable {contract : Contract HostCall HostReply Fault} (calls : ∀ c, contract.calls c)
  (faults : ∀ reason, contract.faults reason)

include calls faults

/-- A contract that permits everything permits every callback. -/
theorem handles_all (ufn : UpdateFn) : Handles contract ufn fun _ _ => True :=
  fun _ _ _ _ => Prog.meets_permitted calls faults

theorem handlesPages_all (p : Nat) (ufn : UpdateFn) :
    HandlesPages p contract ufn fun _ _ => True :=
  fun _ _ _ _ => Prog.meets_permitted calls faults

end Everything

theorem covers_all (addr length : Word) (nodes : List MMNode) :
    Covers addr length nodes fun _ _ => True :=
  ⟨fun _ _ _ _ _ => trivial, fun _ _ _ => trivial, fun _ _ _ => trivial⟩

theorem Covers.subset {addr length : Word} {nodes all : List MMNode} {ok : Word → Word → Prop}
    (covers : Covers addr length all ok) (subset : nodes ⊆ all) : Covers addr length nodes ok where
  inside := covers.inside
  node := fun node mem => covers.node node (subset mem)
  range := fun node mem => covers.range node (subset mem)

theorem PointsIn.mono {pointer : Option NodeId} {ids ids' : List NodeId}
    (points : PointsIn pointer ids) (subset : ids ⊆ ids') : PointsIn pointer ids' :=
  fun id mem => subset (points id mem)

section Cuts

variable {node : MMNode} {page : Word}

@[simp]
theorem keepFront_first : (node.keepFront page).first = node.first := rfl

@[simp]
theorem keepFront_id : (node.keepFront page).id = node.id := rfl

@[simp]
theorem keepBack_id : (node.keepBack page).id = node.id := rfl

@[simp]
theorem keepBack_first : (node.keepBack page).first = page.toNat := rfl

theorem keepFront_behind (le : node.first ≤ page.toNat) :
    (node.keepFront page).behind = page.toNat := by
  simp only [MMNode.first, MMNode.behind, MMNode.keepFront] at le ⊢
  bv_omega

theorem keepBack_behind (small : node.behind < 2 ^ 64) (le : page.toNat ≤ node.behind) :
    (node.keepBack page).behind = node.behind := by
  simp only [MMNode.behind, MMNode.keepBack] at small le ⊢
  bv_omega

end Cuts

/-- The loop of `mm_unmap_cb` keeps the nodes in order and clears the range. -/
theorem unmapLoop_meets {ufn : UpdateFn} {ok : Word → Word → Prop} {addr length : Word}
    {old : Option NodeId} (handles : HandlesPages mm.p2pagesize contract ufn ok)
    {nodes : List MMNode} {prev cursor : Option NodeId} (kept : List NodeId) {lo hi : Nat}
    (covers : Covers addr length nodes ok) (small : addr.toNat + length.toNat < 2 ^ 64)
    (fits : hi < 2 ^ 64) (ordered : NodesIn lo hi nodes)
    (prevKept : PointsIn prev kept) (cursorKept : PointsIn cursor (kept ++ nodes.map MMNode.id))
    (changed : cursor = old ∨ PointsIn cursor kept) :
    (unmapLoop mm ufn addr length old nodes prev cursor).Meets contract
      fun (nodes', cursor') =>
        NodesIn lo hi nodes' ∧ NodesOff addr.toNat (addr.toNat + length.toNat) nodes' ∧
          PointsIn cursor' (kept ++ nodes'.map MMNode.id) := by
  induction nodes generalizing prev cursor kept lo with
  | nil => exact ⟨ordered, Clear.nil, by simpa using cursorKept⟩
  | cons node rest ih =>
      obtain ⟨above, proper, below⟩ := ordered
      have upper : node.behind ≤ hi := below.bounds
      have nodeSmall : node.base.toNat + node.len.toNat < 2 ^ 64 := upper.trans_lt fits
      have nodeEnd : (node.base + node.len).toNat = node.behind := by
        rw [MMNode.behind]
        bv_omega
      have rangeEnd : (addr + length).toNat = addr.toNat + length.toNat := by bv_omega
      have moved : PointsIn (if cursor = old then prev else cursor) kept := by
        split
        · exact prevKept
        · rename_i other
          exact changed.resolve_left other
      have stay : kept ⊆ kept ++ [node.id] := List.subset_append_left _ _
      rw [unmapLoop]
      split
      · -- The node is removed.
        rename_i inside
        rw [Prog.meets_bind]
        refine (handles _ _ _ (covers.node node (List.mem_cons_self ..) inside)).mono fun _ _ => ?_
        refine ih kept (covers.subset (List.subset_cons_self ..)) (below.mono (above.trans proper) le_rfl) prevKept ?_ (.inr moved)
        exact moved.mono (List.subset_append_left _ _)
      rename_i notInside
      rw [contained_iff nodeSmall small] at notInside
      split
      · -- The range is cut out of the node.
        rename_i around
        rw [Prog.meets_bind]
        refine (handles _ _ _ (covers.range node (List.mem_cons_self ..) around)).mono fun _ _ => ?_
        obtain ⟨starts, ends⟩ := (contained_iff small nodeSmall).mp around
        have front : (node.keepFront addr).behind = addr.toNat := keepFront_behind starts
        have back : (node.keepBack (addr + length)).behind = node.behind :=
          keepBack_behind nodeSmall (rangeEnd.trans_le ends)
        have behindRange : NodesIn (addr.toNat + length.toNat) hi
            ({ node.keepBack (addr + length) with id := mm.made } :: rest) := by
          refine ⟨rangeEnd.ge, ?_, ?_⟩
          · exact rangeEnd.trans_le (ends.trans_eq back.symm)
          · rw [← back] at below
            exact below
        have frontBeforeRange : (node.keepFront addr).behind ≤ addr.toNat + length.toNat :=
          front.trans_le (Nat.le_add_right _ _)
        rw [Prog.meets_pure, List.append_assoc]
        refine ⟨?_, ?_, fun id mem => List.mem_append_left _ (moved id mem)⟩
        · refine Ordered.optional _ ⟨above, starts.trans_eq front.symm, Ordered.optional _ ?_⟩
          exact behindRange.mono frontBeforeRange le_rfl
        · refine Clear.optional _ (Clear.cons_iff.mpr ⟨.inl front.le, Clear.optional _ ?_⟩)
          exact behindRange.clear
      rename_i notAround
      rw [contained_iff small nodeSmall] at notAround
      simp only [gt_iff_lt, ge_iff_le, BitVec.lt_def, BitVec.le_def, nodeEnd, rangeEnd]
      split
      · -- The end of the node is cut off.
        rename_i reaches
        obtain ⟨starts, ends⟩ := reaches
        have front : (node.keepFront addr).behind = addr.toNat := keepFront_behind starts.le
        have part : (node.base + node.len - addr).toNat = node.behind - addr.toNat := by
          bv_omega
        have moved : PointsIn (if cursor = old then some node.id else cursor) (kept ++ [node.id]) := by
          split
          · simp [PointsIn]
          · rename_i other
            exact (changed.resolve_left other).mono stay
        rw [Prog.meets_bind]
        refine (handles _ _ _ (covers.inside _ _ le_rfl ?_ ?_)).mono fun _ _ => ?_
        · simp only [MMNode.behind] at part
          omega
        · omega
        rw [Prog.meets_bind]
        refine (ih (kept ++ [node.id]) (covers.subset (List.subset_cons_self ..)) below (by simp [PointsIn])
          (moved.mono (List.subset_append_left _ _)) (.inr moved)).mono ?_
        rintro ⟨rest', cursor'⟩ ⟨ordered', clear', points⟩
        refine ⟨⟨above, ?_, ordered'.mono ?_ le_rfl⟩, Clear.cons_iff.mpr ⟨.inl front.le, clear'⟩,
          by simpa using points⟩
        · exact starts.le.trans_eq front.symm
        · exact front.trans_le ends.le
      rename_i notReaches
      split
      · -- The start of the node is cut off.
        rename_i leaves
        obtain ⟨starts, ends⟩ := leaves
        have outlasts : addr.toNat + length.toNat ≤ node.behind := by
          simp only [MMNode.behind] at notReaches ends ⊢
          omega
        have back : (node.keepBack (addr + length)).behind = node.behind :=
          keepBack_behind nodeSmall (rangeEnd.trans_le outlasts)
        have part : (addr + length - node.base).toNat =
            addr.toNat + length.toNat - node.base.toNat := by
          bv_omega
        have behindRange : NodesIn (addr.toNat + length.toNat) hi
            (node.keepBack (addr + length) :: rest) := by
          refine ⟨rangeEnd.ge, ?_, ?_⟩
          · exact rangeEnd.trans_le (outlasts.trans_eq back.symm)
          · rw [back]
            exact below
        rw [Prog.meets_bind]
        refine (handles _ _ _ (covers.inside _ _ ?_ ?_ ?_)).mono fun _ _ => ?_
        · omega
        · omega
        · omega
        refine ⟨behindRange.mono ?_ le_rfl, behindRange.clear, by simpa using cursorKept⟩
        exact above.trans starts.le
      rename_i notLeaves
      split
      · -- The walk is over.
        rename_i beyond
        have behindRange : NodesIn (addr.toNat + length.toNat) hi (node :: rest) :=
          ⟨beyond, proper, below⟩
        exact ⟨⟨above, proper, below⟩, behindRange.clear, by simpa using cursorKept⟩
      · -- The node lies before the range.
        rename_i notBeyond
        have off : node.behind ≤ addr.toNat := by
          simp only [MMNode.behind] at notLeaves ⊢
          omega
        rw [Prog.meets_bind]
        refine (ih (kept ++ [node.id]) (covers.subset (List.subset_cons_self ..)) below (by simp [PointsIn]) ?_ ?_).mono ?_
        · simpa using cursorKept
        · exact changed.imp_right fun points => points.mono stay
        rintro ⟨rest', cursor'⟩ ⟨ordered', clear', points⟩
        exact ⟨⟨above, proper, ordered'⟩, Clear.cons_iff.mpr ⟨.inl off, clear'⟩,
          by simpa using points⟩

theorem prevOf_pointsIn (before : List MMNode) : PointsIn (prevOf before) (before.map MMNode.id) := by
  intro id mem
  obtain ⟨node, last, rfl⟩ := Option.map_eq_some_iff.mp mem
  exact List.mem_map_of_mem (List.mem_of_getLast? last)

namespace MMAddrSpace

theorem page_small (tracked : mm.Tracked) (addr : Word) : (mm.mmtrunc addr).toNat < 2 ^ 52 := by
  rw [mmtrunc_toNat tracked.paged]
  omega

theorem pages_small (tracked : mm.Tracked) (length : Word) :
    (mm.mmceil length).toNat < 2 ^ 52 := by
  rw [mmceil_toNat tracked.paged]
  omega

/-- A range that `mm_unmap_cb` and `mm_mapat_cb` accept lies in the address space. -/
theorem valid_inside (tracked : mm.Tracked) {addr length : Word}
    (valid : mm.mmvalid (mm.mmtrunc addr) (mm.mmceil length) = true) :
    mm.base.toNat ≤ (mm.mmtrunc addr).toNat ∧
      (mm.mmtrunc addr).toNat + (mm.mmceil length).toNat ≤ mm.base.toNat + mm.len.toNat :=
  (mmvalid_iff tracked (page_small tracked addr) (pages_small tracked length)).mp valid

/-- `mm_unmap_cb` keeps the tracker, and either clears the range or has a reason
to fail. -/
theorem mmUnmapCb_inOrder {ufn : UpdateFn} {ok : Word → Word → Prop} {addr length : Word}
    (inOrder : mm.InOrder) (handles : HandlesPages mm.p2pagesize contract ufn ok)
    (mallocs : contract.calls .malloc)
    (covers : mm.aligned addr = true → length ≠ 0 →
      mm.mmvalid (mm.mmtrunc addr) (mm.mmceil length) = true →
      Covers (mm.mmtrunc addr) (mm.mmceil length) mm.nodes ok) :
    (mm.mmUnmapCb addr length ufn).Meets contract fun (r, mm') =>
      mm.KeepsOrder mm' ∧
        (r = 0 ∧ length ≠ 0 ∧ NodesOff (mm.mmtrunc addr).toNat
            ((mm.mmtrunc addr).toNat + (mm.mmceil length).toNat) mm'.nodes ∨
          r ≠ 0 ∧ (mm.aligned addr = false ∨ length = 0 ∨
            mm.mmvalid (mm.mmtrunc addr) (mm.mmceil length) = false ∨
            contract.replies .malloc false)) := by
  have einval : -MM_EINVAL ≠ 0 := by decide
  have failed : (-1 : Int) ≠ 0 := by decide
  unfold mmUnmapCb
  split
  · rename_i rejected
    simp only [Bool.or_eq_true, Bool.not_eq_true', decide_eq_true_eq] at rejected
    refine ⟨inOrder.keeps, .inr ⟨einval, ?_⟩⟩
    exact rejected.imp_right .inl
  rename_i accepted
  simp only [Bool.or_eq_true, Bool.not_eq_true', Bool.not_eq_false, decide_eq_true_eq,
    not_or] at accepted
  dsimp only
  split
  · rename_i invalid
    rw [Bool.not_eq_true'] at invalid
    exact ⟨inOrder.keeps, .inr ⟨einval, .inr (.inr (.inl invalid))⟩⟩
  rename_i valid
  rw [Bool.not_eq_true', Bool.not_eq_false] at valid
  rw [Prog.meets_bind]
  refine ⟨mallocs, ?_⟩
  intro memory answered
  simp only [Prog.meets_ret]
  split
  · rename_i noMemory
    rw [Bool.not_eq_true'] at noMemory
    rw [noMemory] at answered
    exact ⟨inOrder.keeps, .inr ⟨failed, .inr (.inr (.inr answered))⟩⟩
  have inside := (valid_iff inOrder.paged inOrder.fits).mp valid
  obtain ⟨before, nodes, starts, place, inFront⟩ :=
    @unmapStart_eq mm (mm.mmtrunc addr) _ _ inOrder.ordered inOrder.cursor
  rw [starts, pure_bind]
  have ordered := inOrder.ordered
  rw [← place] at ordered
  obtain ⟨mid, first, second, -⟩ := ordered.cut
  have coversRest : Covers (mm.mmtrunc addr) (mm.mmceil length) nodes ok := by
    have all := covers accepted.1 accepted.2 valid
    rw [← place] at all
    exact all.subset (List.subset_append_right _ _)
  have cursorKept : PointsIn mm.cursor (before.map MMNode.id ++ nodes.map MMNode.id) := by
    rw [← List.map_append, place]
    exact inOrder.cursor
  rw [Prog.meets_bind]
  refine (unmapLoop_meets handles _ coversRest (inside.2.trans_lt inOrder.fits)
    inOrder.fits second (prevOf_pointsIn before) cursorKept (.inl rfl)).mono ?_
  rintro ⟨nodes', cursor'⟩ ⟨ordered', clear', points⟩
  refine ⟨⟨⟨inOrder.paged, inOrder.fits, first.append ordered', ?_⟩, rfl, rfl, rfl⟩,
    .inl ⟨rfl, accepted.2, ?_⟩⟩
  · simpa using points
  · exact Clear.append_iff.mpr ⟨fun node mem => .inl (inFront node mem), clear'⟩

/-- The same for pages of 4096 bytes. -/
theorem mmUnmapCb_meets {ufn : UpdateFn} {ok : Word → Word → Prop} {addr length : Word}
    (tracked : mm.Tracked) (handles : Handles contract ufn ok) (mallocs : contract.calls .malloc)
    (covers : mm.aligned addr = true → length ≠ 0 →
      mm.mmvalid (mm.mmtrunc addr) (mm.mmceil length) = true →
      Covers (mm.mmtrunc addr) (mm.mmceil length) mm.nodes ok) :
    (mm.mmUnmapCb addr length ufn).Meets contract fun (r, mm') =>
      mm.Keeps mm' ∧
        (r = 0 ∧ length ≠ 0 ∧ NodesOff (mm.mmtrunc addr).toNat
            ((mm.mmtrunc addr).toNat + (mm.mmceil length).toNat) mm'.nodes ∨
          r ≠ 0 ∧ (mm.aligned addr = false ∨ length = 0 ∨
            mm.mmvalid (mm.mmtrunc addr) (mm.mmceil length) = false ∨
            contract.replies .malloc false)) := by
  refine (mmUnmapCb_inOrder tracked.inOrder (handles.pages tracked.paged) mallocs covers).mono ?_
  exact fun _ result => ⟨tracked.keeps_of result.1, result.2⟩

end MMAddrSpace

/-! ## Mapping at an address -/

/-- A node that lies behind the head of the list and hits no other node finds its
place. -/
theorem insertLoop_spec {limit : Word} {new node : MMNode} {rest : List MMNode} {lo : Nat}
    (ordered : NodesIn lo limit.toNat (node :: rest)) (off : NodesOff new.first new.behind rest)
    (after : node.behind ≤ new.first) (inside : new.behind ≤ limit.toNat) :
    ∃ nodes, insertLoop limit new (node :: rest) = some nodes ∧ NodesIn lo limit.toNat nodes ∧
      nodes.Perm (new :: node :: rest) := by
  have proper : new.first ≤ new.behind := Nat.le_add_right _ _
  have newEnd : (new.base + new.len).toNat = new.behind := MMNode.toNat_end (inside.trans_lt limit.isLt)
  induction rest generalizing node lo with
  | nil =>
      obtain ⟨above, nodeProper, below⟩ := ordered
      have nodeEnd : (node.base + node.len).toNat = node.behind := MMNode.toNat_end (below.trans_lt limit.isLt)
      refine ⟨[node, new], ?_, ⟨above, nodeProper, after, proper, inside⟩, List.Perm.swap _ _ _⟩
      rw [insertLoop, if_pos]
      simp only [ge_iff_le, BitVec.le_def, nodeEnd, newEnd]
      exact ⟨after, inside⟩
  | cons next rest ih =>
      obtain ⟨above, nodeProper, below⟩ := ordered
      have nodeEnd : (node.base + node.len).toNat = node.behind :=
        MMNode.toNat_end (below.bounds.trans_lt limit.isLt)
      obtain ⟨offNext, offRest⟩ := Clear.cons_iff.mp off
      rw [insertLoop]
      simp only [ge_iff_le, BitVec.le_def, nodeEnd, newEnd]
      split
      · rename_i here
        exact ⟨_, rfl, ⟨above, nodeProper, after, proper, here.2, below.2⟩, List.Perm.swap _ _ _⟩
      · rename_i notHere
        have afterNext : next.behind ≤ new.first := by
          refine offNext.resolve_right ?_
          intro before
          exact notHere ⟨after, before⟩
        obtain ⟨nodes, placed, ordered', perm⟩ := ih below offRest afterNext
        refine ⟨node :: nodes, by rw [placed]; rfl, ⟨above, nodeProper, ordered'⟩, ?_⟩
        exact (perm.cons node).trans (List.Perm.swap _ _ _)

namespace MMAddrSpace

theorem stop_toNat (inOrder : mm.InOrder) : mm.stop.toNat = mm.base.toNat + mm.len.toNat := by
  rw [stop, BitVec.toNat_add, Nat.mod_eq_of_lt inOrder.fits]

/-- A node for a cleared range of the address space can be linked. -/
theorem link_inOrder {new : MMNode} (inOrder : mm.InOrder) (pos : new.first < new.behind)
    (above : mm.base.toNat ≤ new.first) (below : new.behind ≤ mm.base.toNat + mm.len.toNat)
    (off : NodesOff new.first new.behind mm.nodes) :
    (mm.link new).Meets contract fun mm' =>
      mm.KeepsOrder mm' ∧ mm'.nodes.Perm (new :: mm.nodes) := by
  have limit := stop_toNat inOrder
  obtain ⟨before, nodes, starts, place, ahead⟩ := @linkStart_eq mm new.base inOrder.cursor
  rw [link, starts, pure_bind]
  have ordered := inOrder.ordered
  have points := inOrder.cursor
  rw [← place] at ordered off points ⊢
  obtain ⟨offBefore, offNodes⟩ := Clear.append_iff.mp off
  -- However the list is extended, the cursor stays in it.
  have keeps : ∀ nodes', NodesIn mm.base.toNat (mm.base.toNat + mm.len.toNat) (before ++ nodes') →
      nodes'.Perm (new :: nodes) →
      mm.KeepsOrder { mm with nodes := before ++ nodes' } ∧
        (before ++ nodes').Perm (new :: (before ++ nodes)) := by
    intro nodes' ordered' perm
    have extended : (before ++ nodes').Perm (new :: (before ++ nodes)) :=
      (perm.append_left before).trans List.perm_middle
    refine ⟨⟨⟨inOrder.paged, inOrder.fits, ordered', points.mono ?_⟩, rfl, rfl, rfl⟩, extended⟩
    intro id mem
    exact (extended.map MMNode.id).mem_iff.mpr (List.mem_cons_of_mem _ mem)
  dsimp only
  cases nodes with
  | nil =>
      have none : before = [] := by
        by_contra some
        obtain ⟨node, rest, impossible, -⟩ := ahead some
        cases impossible
      subst none
      exact keeps [new] ⟨above, pos.le, below⟩ (List.Perm.refl _)
  | cons node rest =>
      have newEnd : (new.base + new.len).toNat = new.behind :=
        MMNode.toNat_end (below.trans_lt inOrder.fits)
      dsimp only
      split
      · rename_i front
        rw [BitVec.le_def, newEnd] at front
        have none : before = [] := by
          by_contra some
          obtain ⟨head, tail, same, atOrBefore⟩ := ahead some
          cases same
          exact absurd (pos.trans_le (front.trans atOrBefore)) (Nat.lt_irrefl _)
        subst none
        exact keeps (new :: node :: rest) ⟨above, pos.le, front, ordered.2⟩ (List.Perm.refl _)
      · rename_i notFront
        rw [BitVec.le_def, newEnd] at notFront
        obtain ⟨offNode, offRest⟩ := Clear.cons_iff.mp offNodes
        have after : node.behind ≤ new.first := offNode.resolve_right notFront
        obtain ⟨mid, first, second, -⟩ := ordered.cut
        rw [← limit] at second below
        obtain ⟨nodes', placed, ordered', perm⟩ :=
          insertLoop_spec second offRest after below
        rw [placed]
        rw [limit] at ordered'
        exact keeps nodes' (first.append ordered') perm

/-- `mm_mapat_cb` keeps the tracker, and returns the address, `-1` or, when the
range is not valid, `-LINUX_EINVAL`. -/
theorem mmMapatCb_inOrder {ufn : UpdateFn} {ok : Word → Word → Prop} {addr length : Word}
    {prot flags : CInt} {fd : Int} {offset : Word} (inOrder : mm.InOrder)
    (handles : HandlesPages mm.p2pagesize contract ufn ok) (mallocs : contract.calls .malloc)
    (covers : mm.mmvalid (mm.mmtrunc addr) (mm.mmceil length) = true →
      Covers (mm.mmtrunc addr) (mm.mmceil length) mm.nodes ok)
    (tolerates : mm.aligned addr = true →
      mm.mmvalid (mm.mmtrunc addr) (mm.mmceil length) = true →
      mm.mmceil length = 0 ∨ contract.replies .malloc false → contract.faults .mapatUnmap) :
    (mm.mmMapatCb addr length prot flags fd offset ufn).Meets contract fun (p, mm') =>
      mm.KeepsOrder mm' ∧
        (p = -1 ∨
          p = BitVec.ofInt 64 (-MM_EINVAL) ∧
            mm.mmvalid (mm.mmtrunc addr) (mm.mmceil length) = false ∨
          p = addr ∧ mm.aligned addr = true ∧
            mm.mmvalid (mm.mmtrunc addr) (mm.mmceil length) = true ∧ mm.mmceil length ≠ 0) := by
  have paged := inOrder.paged
  unfold mmMapatCb
  split
  · exact ⟨inOrder.keeps, .inl rfl⟩
  rename_i aligned
  rw [Bool.not_eq_true', Bool.not_eq_false] at aligned
  dsimp only
  split
  · rename_i invalid
    rw [Bool.not_eq_true'] at invalid
    exact ⟨inOrder.keeps, .inr (.inl ⟨rfl, invalid⟩)⟩
  rename_i valid
  rw [Bool.not_eq_true', Bool.not_eq_false] at valid
  have inside := (valid_iff paged inOrder.fits).mp valid
  rw [Prog.meets_bind]
  refine ⟨mallocs, ?_⟩
  intro memory answered
  simp only [Prog.meets_ret]
  split
  · exact ⟨inOrder.keeps, .inl rfl⟩
  -- The node is allocated; from here on it counts as made.
  let next : MMAddrSpace := { mm with made := mm.made + 1 }
  have nextOrder : next.InOrder := ⟨paged, inOrder.fits, inOrder.ordered, inOrder.cursor⟩
  have trunc : next.mmtrunc (mm.mmtrunc addr <<< mm.p2pagesize) = mm.mmtrunc addr :=
    mmtrunc_shiftLeft paged addr
  have ceil : next.mmceil (mm.mmceil length <<< mm.p2pagesize) = mm.mmceil length :=
    mmceil_shiftLeft paged length
  have unmaps := @mmUnmapCb_inOrder next contract ufn ok (mm.mmtrunc addr <<< mm.p2pagesize)
    (mm.mmceil length <<< mm.p2pagesize) nextOrder handles mallocs
  rw [trunc, ceil] at unmaps
  rw [Prog.meets_bind]
  refine (unmaps fun _ _ => covers).mono ?_
  rintro ⟨r, mm'⟩ ⟨keeps, result⟩
  have keepsAll : mm.KeepsOrder mm' := ⟨keeps.inOrder, keeps.base, keeps.len, keeps.p2pagesize⟩
  rw [Prog.meets_bind, Prog.meets_check]
  rcases result with ⟨rfl, nonzero, off⟩ | ⟨failed, cause⟩
  · rw [if_pos (by rfl), Prog.meets_bind]
    have some : mm.mmceil length ≠ 0 := by
      intro none
      rw [none] at nonzero
      simp at nonzero
    have pos : 0 < (mm.mmceil length).toNat :=
      Nat.pos_of_ne_zero fun zero => some (BitVec.eq_of_toNat_eq zero)
    refine Prog.Meets.mono (link_inOrder keeps.inOrder ?_ ?_ ?_ off) ?_
    · exact Nat.lt_add_of_pos_right pos
    · rw [keeps.base]
      exact inside.1
    · rw [keeps.base, keeps.len]
      exact inside.2
    · intro mm'' last
      refine ⟨keepsAll.trans last.1, .inr (.inr ⟨?_, aligned, valid, some⟩)⟩
      change mm.mmtrunc addr <<< mm''.p2pagesize = addr
      rw [(keepsAll.trans last.1).p2pagesize]
      exact shiftLeft_mmtrunc paged aligned
  · rw [if_neg (by simpa using failed)]
    refine tolerates aligned valid ?_
    rcases cause with misaligned | zero | invalid | noMemory
    · have isAligned : next.aligned (mm.mmtrunc addr <<< mm.p2pagesize) = true :=
        aligned_shiftLeft paged addr
      rw [isAligned] at misaligned
      contradiction
    · exact .inl (not_not.mp fun some => shiftLeft_mmceil_ne_zero paged some zero)
    · exact absurd (valid.symm.trans invalid) (by decide)
    · exact .inr noMemory

/-- The same for pages of 4096 bytes. -/
theorem mmMapatCb_meets {ufn : UpdateFn} {ok : Word → Word → Prop} {addr length : Word}
    {prot flags : CInt} {fd : Int} {offset : Word} (tracked : mm.Tracked)
    (handles : Handles contract ufn ok) (mallocs : contract.calls .malloc)
    (covers : mm.mmvalid (mm.mmtrunc addr) (mm.mmceil length) = true →
      Covers (mm.mmtrunc addr) (mm.mmceil length) mm.nodes ok)
    (tolerates : mm.aligned addr = true →
      mm.mmvalid (mm.mmtrunc addr) (mm.mmceil length) = true →
      mm.mmceil length = 0 ∨ contract.replies .malloc false → contract.faults .mapatUnmap) :
    (mm.mmMapatCb addr length prot flags fd offset ufn).Meets contract fun (p, mm') =>
      mm.Keeps mm' ∧
        (p = -1 ∨
          p = BitVec.ofInt 64 (-MM_EINVAL) ∧
            mm.mmvalid (mm.mmtrunc addr) (mm.mmceil length) = false ∨
          p = addr ∧ mm.aligned addr = true ∧
            mm.mmvalid (mm.mmtrunc addr) (mm.mmceil length) = true ∧ mm.mmceil length ≠ 0) := by
  refine (mmMapatCb_inOrder tracked.inOrder (handles.pages tracked.paged) mallocs covers
    tolerates).mono ?_
  exact fun _ result => ⟨tracked.keeps_of result.1, result.2⟩

/-- Without a callback everything is handled. -/
theorem noUpdate_handles : Handles contract noUpdate fun _ _ => True :=
  fun _ _ _ _ => trivial

/-- `mm_unmap` keeps the tracker. -/
theorem mmUnmap_meets {addr length : Word} (tracked : mm.Tracked)
    (mallocs : contract.calls .malloc) :
    (mm.mmUnmap addr length).Meets contract fun (_, mm') => mm.Keeps mm' := by
  refine (mmUnmapCb_meets tracked noUpdate_handles mallocs fun _ _ _ => covers_all ..).mono ?_
  exact fun _ result => result.1

end MMAddrSpace

end Lps.Core

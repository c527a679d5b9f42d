import Lps.Core.MmapCut
import Lps.Core.MmapSearch
import Lps.Interval.Lookup

/-!
# The pages a tracker records

A tracker stands for a map from pages to the info of the region they lie in.  Unmapping
takes a range out of the map and calls back with what it takes out, a new region overwrites
its pages, and empty regions make no difference.
-/

namespace Lps.Core

open Lps.Program Lps.Interval

/-- The info of the region a page lies in. -/
def infoAt (nodes : List MMNode) (page : Nat) : Option MMInfo :=
  (lookup MMNode.first MMNode.behind nodes page).map MMNode.info

/-- The page lies in a range of pages. -/
def InRange (addr length : Word) (page : Nat) : Prop :=
  addr.toNat ≤ page ∧ page < addr.toNat + length.toNat

/-- A callback: the pages it is made with, and the info of their region. -/
abbrev Revoked := Word × Word × MMInfo

/-- Callbacks with ranges in order between two pages. -/
abbrev RevokedIn : Nat → Nat → List Revoked → Prop :=
  Ordered (fun call => call.1.toNat) fun call => call.1.toNat + call.2.1.toNat

/-- The info a page is called back with. -/
def revokedAt (calls : List Revoked) (page : Nat) : Option MMInfo :=
  (lookup (fun call => call.1.toNat) (fun call => call.1.toNat + call.2.1.toNat) calls page).map
    fun call => call.2.2

instance (addr length : Word) (page : Nat) : Decidable (InRange addr length page) :=
  inferInstanceAs (Decidable (_ ∧ _))

variable {mm : MMAddrSpace} {addr length : Word} {node new : MMNode}
  {nodes nodes' before rest : List MMNode} {lo hi page : Nat}

@[simp]
theorem infoAt_nil : infoAt [] page = none := rfl

theorem infoAt_cons : infoAt (node :: rest) page =
    if node.first ≤ page ∧ page < node.behind then some node.info else infoAt rest page := by
  rw [infoAt, lookup_cons]
  split
  · rfl
  · rfl

theorem infoAt_append : infoAt (before ++ rest) page = (infoAt before page).or (infoAt rest page) := by
  rw [infoAt, lookup_append, Option.map_or]
  rfl

/-- An empty region may be left out. -/
theorem infoAt_optional : infoAt ((if node.len = 0 then [] else [node]) ++ rest) page =
    if node.first ≤ page ∧ page < node.behind then some node.info else infoAt rest page := by
  split
  · rename_i empty
    have noPages : node.behind = node.first := by
      rw [MMNode.behind, empty]
      rfl
    rw [if_neg (by omega)]
    rfl
  · exact infoAt_cons

/-- Pages before the regions are in none. -/
theorem infoAt_before (ordered : NodesIn lo hi nodes) (below : page < lo) :
    infoAt nodes page = none := by
  rw [infoAt, ordered.lookup_before below]
  rfl

/-- Pages that no region reaches into are in none. -/
theorem infoAt_of_off (off : NodesOff lo hi nodes) (above : lo ≤ page) (below : page < hi) :
    infoAt nodes page = none := by
  rw [infoAt, lookup_eq_none_iff.mpr]
  · rfl
  · intro node mem starts
    rcases off node mem with before | behind
    · exact before.trans above
    · exact absurd (below.trans_le (behind.trans starts)) (Nat.lt_irrefl _)

/-- A new region takes its pages. -/
theorem infoAt_insert (ordered : NodesIn lo hi nodes) (ordered' : NodesIn lo hi nodes')
    (perm : nodes'.Perm (new :: nodes)) : infoAt nodes' page =
      if new.first ≤ page ∧ page < new.behind then some new.info else infoAt nodes page := by
  rw [infoAt, ordered.lookup_insert ordered' perm]
  split
  · rfl
  · rfl

@[simp]
theorem revokedAt_nil : revokedAt [] page = none := rfl

theorem revokedAt_cons {call : Revoked} {calls : List Revoked} :
    revokedAt (call :: calls) page =
      if InRange call.1 call.2.1 page then some call.2.2 else revokedAt calls page := by
  rw [revokedAt, lookup_cons]
  exact apply_ite _ _ _ _

/-! ## Unmapping -/

/-- What unmapping a range of pages does: the callbacks it makes and the regions it leaves. -/
structure Unmaps (addr length : Word) (lo hi : Nat) (nodes : List MMNode) (calls : List Revoked)
    (nodes' : List MMNode) : Prop where
  left : ∀ page, infoAt nodes' page = if InRange addr length page then none else infoAt nodes page
  revoked : ∀ page, revokedAt calls page =
    if InRange addr length page then infoAt nodes page else none
  inOrder : RevokedIn lo hi calls
  nonempty : (∀ node ∈ nodes, 0 < node.len.toNat) → 0 < length.toNat →
    ∀ call ∈ calls, 0 < call.2.1.toNat

/-- The loop of `mm_unmap_cb` takes the range out of the map and calls back with it. -/
theorem unmapLoop_pages {old prev cursor : Option NodeId} (ordered : NodesIn lo hi nodes)
    (fits : hi < 2 ^ 64) (small : addr.toNat + length.toNat < 2 ^ 64) :
    ∃ calls nodes' cursor', (∀ ufn, unmapLoop mm ufn addr length old nodes prev cursor = do
        callAll mm ufn calls
        pure (nodes', cursor')) ∧ Unmaps addr length lo hi nodes calls nodes' := by
  induction nodes generalizing prev cursor lo with
  | nil =>
      refine ⟨[], [], cursor, fun _ => rfl, fun page => ?_, fun page => ?_, ordered,
        fun _ _ _ mem => absurd mem List.not_mem_nil⟩
      · simp
      · simp
  | cons node rest ih =>
      obtain ⟨above, proper, below⟩ := ordered
      have upper : node.behind ≤ hi := below.bounds
      have nodeEnd := MMNode.toNat_end (upper.trans_lt fits)
      have rangeEnd := toNat_rangeEnd small
      have size : node.first + node.len.toNat = node.behind := rfl
      have base : node.base.toNat = node.first := rfl
      have later : ∀ page, page < node.behind → infoAt rest page = none :=
        fun page before => infoAt_before below before
      have fully : contained node.base node.len addr length = true ↔
          addr.toNat ≤ node.first ∧ node.behind ≤ addr.toNat + length.toNat := by
        simp only [contained, Bool.and_eq_true, decide_eq_true_eq, ge_iff_le, BitVec.le_def, nodeEnd,
          rangeEnd, base]
      have around : contained addr length node.base node.len = true ↔
          node.first ≤ addr.toNat ∧ addr.toNat + length.toNat ≤ node.behind := by
        simp only [contained, Bool.and_eq_true, decide_eq_true_eq, ge_iff_le, BitVec.le_def, nodeEnd,
          rangeEnd, base]
      simp only [unmapLoop, fully, around, gt_iff_lt, ge_iff_le, BitVec.lt_def, BitVec.le_def, nodeEnd,
        rangeEnd, base]
      by_cases inside : addr.toNat ≤ node.first ∧ node.behind ≤ addr.toNat + length.toNat
      · -- The node is removed.
        simp only [if_pos inside]
        obtain ⟨calls, nodes', cursor', loops, unmaps⟩ :=
          @ih _ prev (if cursor = old then prev else cursor) below
        refine ⟨(node.base, node.len, node.info) :: calls, nodes', cursor', fun ufn => ?_,
          fun page => ?_, fun page => ?_, ⟨above, proper, unmaps.inOrder⟩, fun more pos => ?_⟩
        · rw [loops, callAll]
          simp only [bind_assoc]
        · have later := later page
          simp only [unmaps.left, infoAt_cons, InRange]
          grind
        · have later := later page
          simp only [revokedAt_cons, unmaps.revoked, infoAt_cons, InRange]
          grind
        · exact List.forall_mem_cons.mpr ⟨more node List.mem_cons_self,
            unmaps.nonempty (fun other mem => more other (List.mem_cons_of_mem _ mem)) pos⟩
      simp only [if_neg inside]
      by_cases within : node.first ≤ addr.toNat ∧ addr.toNat + length.toNat ≤ node.behind
      · -- The range is cut out of the node.
        simp only [if_pos within]
        have front := keepFront_behind within.1
        have back : (node.keepBack (addr + length)).behind = node.behind :=
          keepBack_behind (upper.trans_lt fits) (rangeEnd.trans_le within.2)
        refine ⟨[(addr, length, node.info)],
          (if (node.keepFront addr).len = 0 then [] else [node.keepFront addr]) ++
            ((if (node.keepBack (addr + length)).len = 0 then []
              else [{ node.keepBack (addr + length) with id := mm.made }]) ++ rest),
          if cursor = old then prev else cursor, fun ufn => ?_, fun page => ?_, fun page => ?_,
          ⟨above.trans within.1, Nat.le_add_right _ _, within.2.trans upper⟩, fun _ pos => ?_⟩
        · simp only [callAll, bind_assoc, pure_bind, List.append_assoc]
        · have later := later page
          have renamed : infoAt ((if (node.keepBack (addr + length)).len = 0 then []
              else [{ node.keepBack (addr + length) with id := mm.made }]) ++ rest) page =
              if addr.toNat + length.toNat ≤ page ∧ page < node.behind then some node.info
              else infoAt rest page := by
            rw [← rangeEnd, ← back]
            exact @infoAt_optional { node.keepBack (addr + length) with id := mm.made } rest page
          have same : (node.keepFront addr).info = node.info := rfl
          simp only [infoAt_optional, renamed, front, keepFront_first, same, infoAt_cons, InRange]
          grind
        · have later := later page
          simp only [revokedAt_cons, revokedAt_nil, infoAt_cons, InRange]
          grind
        · exact List.forall_mem_cons.mpr ⟨pos, fun _ mem => absurd mem List.not_mem_nil⟩
      simp only [if_neg within]
      by_cases reaches : node.first < addr.toNat ∧ addr.toNat < node.behind
      · -- The end of the node is cut off.
        simp only [if_pos reaches]
        obtain ⟨calls, nodes', cursor', loops, unmaps⟩ :=
          @ih _ (some node.id) (if cursor = old then some node.id else cursor) below
        have front := keepFront_behind reaches.1.le
        have same : (node.keepFront addr).info = node.info := rfl
        have part : (node.base + node.len - addr).toNat = node.behind - addr.toNat := by
          bv_omega
        refine ⟨(addr, node.base + node.len - addr, node.info) :: calls, node.keepFront addr :: nodes',
          cursor', fun ufn => ?_, fun page => ?_, fun page => ?_, ⟨?_, ?_, ?_⟩, fun more pos => ?_⟩
        · rw [loops, callAll]
          simp only [bind_assoc, pure_bind]
        · have later := later page
          simp only [infoAt_cons, unmaps.left, infoAt_cons, InRange, front, keepFront_first, same]
          grind
        · have later := later page
          simp only [revokedAt_cons, unmaps.revoked, infoAt_cons, InRange, part]
          grind
        · exact above.trans reaches.1.le
        · exact Nat.le_add_right _ _
        · refine unmaps.inOrder.mono ?_ le_rfl
          dsimp only
          rw [part]
          omega
        · refine List.forall_mem_cons.mpr ⟨?_, unmaps.nonempty ?_ pos⟩
          · rw [part]
            omega
          · exact fun other mem => more other (List.mem_cons_of_mem _ mem)
      simp only [if_neg reaches]
      by_cases leaves : node.first < addr.toNat + length.toNat ∧ addr.toNat < node.behind
      · -- The start of the node is cut off.
        simp only [if_pos leaves]
        have back : (node.keepBack (addr + length)).behind = node.behind :=
          keepBack_behind (upper.trans_lt fits) (by omega)
        have same : (node.keepBack (addr + length)).info = node.info := rfl
        have part : (addr + length - node.base).toNat = addr.toNat + length.toNat - node.first := by
          bv_omega
        refine ⟨[(node.base, addr + length - node.base, node.info)],
          node.keepBack (addr + length) :: rest, cursor, fun ufn => ?_, fun page => ?_, fun page => ?_,
          ⟨above, Nat.le_add_right _ _, ?_⟩, fun _ pos => ?_⟩
        · simp only [callAll, bind_assoc, pure_bind]
        · have later := later page
          simp only [infoAt_cons, infoAt_cons, InRange, back, keepBack_first, rangeEnd, same]
          grind
        · have later := later page
          simp only [revokedAt_cons, revokedAt_nil, infoAt_cons, InRange, part]
          grind
        · simp only [Ordered.nil_iff, part]
          omega
        · refine List.forall_mem_cons.mpr ⟨?_, fun _ mem => absurd mem List.not_mem_nil⟩
          rw [part]
          omega
      simp only [if_neg leaves]
      by_cases beyond : addr.toNat + length.toNat ≤ node.first
      · -- The walk is over.
        simp only [if_pos beyond]
        refine ⟨[], node :: rest, cursor, fun ufn => rfl, fun page => ?_, fun page => ?_, ?_,
          fun _ _ _ mem => absurd mem List.not_mem_nil⟩
        · have later := later page
          simp only [infoAt_cons, InRange]
          grind
        · have later := later page
          simp only [revokedAt_nil, infoAt_cons, InRange]
          grind
        · exact (above.trans proper).trans upper
      · -- The node lies before the range.
        simp only [if_neg beyond]
        obtain ⟨calls, nodes', cursor', loops, unmaps⟩ := @ih _ (some node.id) cursor below
        refine ⟨calls, node :: nodes', cursor', fun ufn => ?_, fun page => ?_, fun page => ?_,
          unmaps.inOrder.mono (above.trans proper) le_rfl, fun more => unmaps.nonempty ?_⟩
        · rw [loops]
          simp only [bind_assoc, pure_bind]
        · have later := later page
          simp only [infoAt_cons, infoAt_cons, unmaps.left, InRange]
          grind
        · have later := later page
          simp only [unmaps.revoked, infoAt_cons, InRange]
          grind
        · exact fun other mem => more other (List.mem_cons_of_mem _ mem)

/-- Regions that end before the range may stand before those the loop walks over. -/
theorem Unmaps.prepend {calls : List Revoked} {mid : Nat}
    (unmaps : Unmaps addr length mid hi rest calls nodes') (le : lo ≤ mid)
    (inFront : ∀ node ∈ before, node.behind ≤ addr.toNat) :
    Unmaps addr length lo hi (before ++ rest) calls (before ++ nodes') := by
  have outside : ∀ page, InRange addr length page → infoAt before page = none := by
    intro page inRange
    rw [infoAt, lookup_eq_none_iff.mpr fun node mem _ => (inFront node mem).trans inRange.1]
    rfl
  refine ⟨fun page => ?_, fun page => ?_, unmaps.inOrder.mono le le_rfl, fun more => ?_⟩
  · rw [infoAt_append, infoAt_append, unmaps.left]
    split
    · rename_i inRange
      rw [outside page inRange]
      rfl
    · rfl
  · rw [infoAt_append, unmaps.revoked]
    split
    · rename_i inRange
      rw [outside page inRange]
      rfl
    · rfl
  · exact unmaps.nonempty fun node mem => more node (List.mem_append_right _ mem)

/-- Without a callback nothing happens. -/
theorem callAll_noUpdate (calls : List Revoked) : callAll mm noUpdate calls = pure () := by
  induction calls with
  | nil => rfl
  | cons call rest ih =>
      obtain ⟨base, len, info⟩ := call
      rw [callAll, ih]
      rfl

/-- Every call is answered somehow, and the runtime may go down. -/
def permitted : Contract HostCall HostReply Fault where
  replies _ _ := True
  calls _ := True
  faults _ := True

namespace MMAddrSpace

/-- What `mm_unmap_cb` does with a range it accepts: allocate, call back and unmap. -/
def revoke (mm : MMAddrSpace) (ufn : UpdateFn) (calls : List Revoked) (mm' : MMAddrSpace) :
    HostProg (Int × MMAddrSpace) := do
  if !(← malloc) then return (-1, mm)
  callAll mm ufn calls
  return (0, mm')

/-- `mm_unmap_cb` rejects everything else at once. -/
theorem mmUnmapCb_rejects (rejected : ¬(mm.aligned addr = true ∧ length ≠ 0 ∧
      mm.mmvalid (mm.mmtrunc addr) (mm.mmceil length) = true)) (ufn : UpdateFn) :
    mm.mmUnmapCb addr length ufn = pure (-MM_EINVAL, mm) := by
  rw [mmUnmapCb]
  split
  · rfl
  · rename_i accepted
    simp only [Bool.or_eq_true, Bool.not_eq_true', Bool.not_eq_false, decide_eq_true_eq,
      not_or] at accepted
    dsimp only
    rw [if_pos]
    rw [Bool.not_eq_true', ← Bool.not_eq_true]
    exact fun valid => rejected ⟨accepted.1, accepted.2, valid⟩

/-- `mm_unmap_cb` takes an accepted range out of the map and calls back with it. -/
theorem mmUnmapCb_pages (inOrder : mm.InOrder) (isAligned : mm.aligned addr = true)
    (nonzero : length ≠ 0) (inside : mm.Inside (mm.mmtrunc addr) (mm.mmceil length)) :
    ∃ calls mm', (∀ ufn, mm.mmUnmapCb addr length ufn = mm.revoke ufn calls mm') ∧
      mm.KeepsOrder mm' ∧ mm'.made = mm.made + 1 ∧
      NodesOff (mm.mmtrunc addr).toNat ((mm.mmtrunc addr).toNat + (mm.mmceil length).toNat)
        mm'.nodes ∧
      Unmaps (mm.mmtrunc addr) (mm.mmceil length) mm.base.toNat (mm.base.toNat + mm.len.toNat)
        mm.nodes calls mm'.nodes := by
  have valid := (valid_iff inOrder.paged inOrder.fits).mpr inside
  obtain ⟨before, nodes, starts, place, inFront⟩ :=
    @unmapStart_eq mm (mm.mmtrunc addr) _ _ inOrder.ordered inOrder.cursor
  have ordered := inOrder.ordered
  rw [← place] at ordered
  obtain ⟨mid, first, second, -⟩ := ordered.cut
  obtain ⟨calls, nodes', cursor', loops, unmaps⟩ := @unmapLoop_pages mm (mm.mmtrunc addr)
    (mm.mmceil length) _ _ _ mm.cursor (prevOf before) mm.cursor second inOrder.fits
    (inside.2.trans_lt inOrder.fits)
  have does : ∀ ufn, mm.mmUnmapCb addr length ufn = mm.revoke ufn calls
      { mm with nodes := before ++ nodes', cursor := cursor', made := mm.made + 1 } := by
    intro ufn
    simp only [mmUnmapCb, revoke, isAligned, nonzero, valid, starts, loops, pure_bind, bind_assoc,
      decide_false, Bool.not_true, Bool.or_false, Bool.false_eq_true, if_false]
  -- What is kept does not depend on the callback.
  have keeps := @mmUnmapCb_inOrder mm permitted noUpdate (fun _ _ => True) addr length inOrder
    (fun _ _ _ _ => trivial) trivial
    fun _ _ _ => covers_all ..
  rw [does, revoke, Prog.meets_bind] at keeps
  have kept := keeps.2 true trivial
  simp only [Prog.meets_ret, Bool.not_true, Bool.false_eq_true, if_false, callAll_noUpdate,
    pure_bind, Prog.meets_pure, ne_eq, not_true_eq_false, false_and, or_false, true_and] at kept
  refine ⟨calls, _, does, kept.1, rfl, kept.2.2, ?_⟩
  rw [← place]
  exact unmaps.prepend first.bounds inFront

/-! ## Mapping at an address -/

/-- What `mm_mapat_cb` does with a range it accepts: allocate, unmap the range and link the
new node. -/
def replace (mm : MMAddrSpace) (ufn : UpdateFn) (calls : List Revoked) (addr : Word)
    (mm' : MMAddrSpace) : HostProg (Word × MMAddrSpace) := do
  if !(← malloc) then return (-1, mm)
  if !(← malloc) then .fault .mapatUnmap
  callAll mm ufn calls
  return (addr, mm')

variable {prot flags : CInt} {fd : Int} {offset : Word}

/-- What `mm_mapat_cb` returns for everything else. -/
theorem mmMapatCb_rejects (rejected : ¬(mm.aligned addr = true ∧
      mm.mmvalid (mm.mmtrunc addr) (mm.mmceil length) = true)) (ufn : UpdateFn) :
    mm.mmMapatCb addr length prot flags fd offset ufn =
      pure (if mm.aligned addr then BitVec.ofInt 64 (-MM_EINVAL) else -1, mm) := by
  rw [mmMapatCb]
  cases isAligned : mm.aligned addr with
  | false => rfl
  | true =>
      have invalid : mm.mmvalid (mm.mmtrunc addr) (mm.mmceil length) = false :=
        Bool.eq_false_iff.mpr fun valid => rejected ⟨isAligned, valid⟩
      simp only [invalid, Bool.not_true, Bool.not_false, Bool.false_eq_true, if_false, if_true]

/-- For a range without pages `mm_mapat_cb` goes down, unless there is no memory. -/
theorem mmMapatCb_noPages (inOrder : mm.InOrder) (isAligned : mm.aligned addr = true)
    (pages : mm.mmceil length = 0) (inside : mm.Inside (mm.mmtrunc addr) (mm.mmceil length))
    (ufn : UpdateFn) : mm.mmMapatCb addr length prot flags fd offset ufn = (do
      if !(← malloc) then return (-1, mm)
      .fault .mapatUnmap) := by
  have valid := (valid_iff inOrder.paged inOrder.fits).mpr inside
  have empty : (0 : Word) <<< mm.p2pagesize = 0 := BitVec.zero_shiftLeft _
  rw [pages] at valid
  simp only [mmMapatCb, isAligned, valid, pages, empty, Bool.not_true, Bool.false_eq_true, if_false]
  refine congrArg (malloc >>= ·) (funext fun memory => ?_)
  split
  · rfl
  rw [mmUnmapCb_rejects fun accepted => accepted.2.1 rfl]
  rfl

/-- `mm_mapat_cb` overwrites an accepted range of the map and calls back with what it
overwrites. -/
theorem mmMapatCb_pages (inOrder : mm.InOrder) (isAligned : mm.aligned addr = true)
    (pages : mm.mmceil length ≠ 0) (inside : mm.Inside (mm.mmtrunc addr) (mm.mmceil length)) :
    ∃ calls mm' nodes', (∀ ufn, mm.mmMapatCb addr length prot flags fd offset ufn =
        mm.replace ufn calls addr mm') ∧
      mm.KeepsOrder mm' ∧
      Unmaps (mm.mmtrunc addr) (mm.mmceil length) mm.base.toNat (mm.base.toNat + mm.len.toNat)
        mm.nodes calls nodes' ∧
      ∀ page, infoAt mm'.nodes page =
        if InRange (mm.mmtrunc addr) (mm.mmceil length) page then some { prot, flags, fd, offset }
        else infoAt nodes' page := by
  have paged := inOrder.paged
  have valid := (valid_iff paged inOrder.fits).mpr inside
  -- The node is allocated; from here on it counts as made.
  let next : MMAddrSpace := { mm with made := mm.made + 1 }
  have nextOrder : next.InOrder := ⟨paged, inOrder.fits, inOrder.ordered, inOrder.cursor⟩
  have trunc : next.mmtrunc (mm.mmtrunc addr <<< mm.p2pagesize) = mm.mmtrunc addr :=
    mmtrunc_shiftLeft paged addr
  have ceil : next.mmceil (mm.mmceil length <<< mm.p2pagesize) = mm.mmceil length :=
    mmceil_shiftLeft paged length
  obtain ⟨calls, cleared, does, keeps, made, off, unmaps⟩ := @mmUnmapCb_pages next
    (mm.mmtrunc addr <<< mm.p2pagesize) (mm.mmceil length <<< mm.p2pagesize) nextOrder
    (aligned_shiftLeft paged addr) (shiftLeft_mmceil_ne_zero paged pages) (by
      rw [trunc, ceil]
      exact inside)
  rw [trunc, ceil] at off unmaps
  let new : MMNode := ⟨mm.made, mm.mmtrunc addr, mm.mmceil length, { prot, flags, fd, offset }⟩
  have pos : new.first < new.behind :=
    Nat.lt_add_of_pos_right (Nat.pos_of_ne_zero fun zero => pages (BitVec.eq_of_toNat_eq zero))
  have links := @link_inOrder cleared ⟨fun _ _ => True, fun _ => False, fun _ => False⟩ new
    keeps.inOrder pos (by rw [keeps.base]; exact inside.1)
    (by rw [keeps.base, keeps.len]; exact inside.2) off
  obtain ⟨mm', linked, kept, perm⟩ := links.eq_pure (fun _ => id) fun _ => id
  have keepsAll : mm.KeepsOrder mm' :=
    ⟨kept.inOrder, kept.base.trans keeps.base, kept.len.trans keeps.len,
      kept.p2pagesize.trans keeps.p2pagesize⟩
  refine ⟨calls, mm', cleared.nodes, fun ufn => ?_, keepsAll, unmaps, fun page => ?_⟩
  · have links : cleared.link new = pure mm' := linked
    have last : mm.mmtrunc addr <<< mm'.p2pagesize = addr := by
      rw [keepsAll.p2pagesize]
      exact shiftLeft_mmtrunc paged isAligned
    simp only [mmMapatCb, replace, isAligned, valid, Bool.not_true, Bool.false_eq_true, if_false]
    refine congrArg (malloc >>= ·) (funext fun memory => ?_)
    split
    · rfl
    rw [does, revoke, callAll_next, bind_assoc]
    refine congrArg (malloc >>= ·) (funext fun memory' => ?_)
    cases memory' with
    | false => rfl
    | true =>
        simp only [Bool.not_true, Bool.false_eq_true, if_false, bind_assoc, pure_bind]
        refine congrArg (callAll mm ufn calls >>= ·) (funext fun _ => ?_)
        change (cleared.link new >>= _) = _
        rw [links, pure_bind, last]
  · have order := kept.inOrder.ordered
    rw [kept.base, kept.len] at order
    exact infoAt_insert keeps.inOrder.ordered order perm

/-! ## Mapping anywhere -/

/-- A placed mapping adds its pages to the map, and they were free. -/
theorem Placed.infos {mm' : MMAddrSpace} {len page : Word} {info : MMInfo} (placed : mm.Placed len info page mm')
    (inOrder : mm.InOrder) (keeps : mm.KeepsOrder mm') :
    (∀ q, InRange page (mm.mmceil len) q → infoAt mm.nodes q = none) ∧
      ∀ q, infoAt mm'.nodes q =
        if InRange page (mm.mmceil len) q then some info else infoAt mm.nodes q := by
  have order := keeps.inOrder.ordered
  rw [keeps.base, keeps.len] at order
  constructor
  · rintro q ⟨above, below⟩
    exact infoAt_of_off placed.off above below
  · intro q
    exact infoAt_insert inOrder.ordered order placed.perm

end MMAddrSpace

end Lps.Core

import Lps.Core.MmapSpec

/-!
# What unmapping cuts off

On a tracker whose regions are not empty, the loop of `mm_unmap_cb` cuts the range out
of every region it meets and calls back with what it cuts off.  The regions before the
place where the loop starts, and those behind the place where it ends, do not reach
into the range: it does the same from wherever it starts.
-/

namespace Lps.Core

open Lps.Program Lps.Interval

/-- The node does not reach into a range of pages. -/
def MMNode.Off (addr length : Word) (node : MMNode) : Prop :=
  node.base + node.len ≤ addr ∨ addr + length ≤ node.base

instance (addr length : Word) (node : MMNode) : Decidable (node.Off addr length) :=
  inferInstanceAs (Decidable (_ ∨ _))

/-- What is left of a node without a range: the part in front of it and the part behind
it, which is a new node when the range starts in the node. -/
def MMNode.cut (made : NodeId) (addr length : Word) (node : MMNode) : List MMNode :=
  if node.Off addr length then [node]
  else
    (if node.base < addr then [node.keepFront addr] else []) ++
      if addr + length < node.base + node.len then
        [{ node.keepBack (addr + length) with id := if node.base ≤ addr then made else node.id }]
      else []

/-- The pages of a node in a range, as `ufn` gets them. -/
def MMNode.overlap (addr length : Word) (node : MMNode) : Option (Word × Word × MMInfo) :=
  if node.Off addr length then none
  else
    let first := if node.base < addr then addr else node.base
    let behind :=
      if addr + length < node.base + node.len then addr + length else node.base + node.len
    some (first, behind - first, node.info)

/-- Call back with ranges of pages. -/
def callAll (mm : MMAddrSpace) (ufn : UpdateFn) : List (Word × Word × MMInfo) → HostProg Unit
  | [] => pure ()
  | (base, len, info) :: rest => do
      ufn (base <<< mm.p2pagesize) (len <<< mm.p2pagesize) info
      callAll mm ufn rest

/-- Callbacks do not depend on which node is made next. -/
theorem callAll_next {mm : MMAddrSpace} {ufn : UpdateFn} {made : NodeId}
    (ranges : List (Word × Word × MMInfo)) :
    callAll { mm with made := made } ufn ranges = callAll mm ufn ranges := by
  induction ranges with
  | nil => rfl
  | cons range rest ih =>
      obtain ⟨base, len, info⟩ := range
      rw [callAll, callAll, ih]

/-- Regions in order, none of them empty, between two pages. -/
structure Regions (lo hi : Nat) (nodes : List MMNode) : Prop where
  ordered : NodesIn lo hi nodes
  nonempty : ∀ node ∈ nodes, 0 < node.len.toNat

namespace Regions

variable {lo hi : Nat} {node : MMNode} {nodes before rest : List MMNode}

theorem tail (regions : Regions lo hi (node :: rest)) : Regions node.behind hi rest where
  ordered := regions.ordered.2.2
  nonempty := fun other mem => regions.nonempty other (List.mem_cons_of_mem _ mem)

/-- The regions behind any place. -/
theorem drop (regions : Regions lo hi (before ++ rest)) : Regions lo hi rest where
  ordered := by
    obtain ⟨mid, first, second, -⟩ := regions.ordered.cut
    exact second.mono first.bounds (Nat.le_refl _)
  nonempty := fun node mem => regions.nonempty node (List.mem_append_right _ mem)

/-- The first region may start later than the bound. -/
theorem from_first (regions : Regions lo hi (node :: rest)) {later : Nat} (le : later ≤ node.first) :
    Regions later hi (node :: rest) where
  ordered := ⟨le, regions.ordered.2⟩
  nonempty := regions.nonempty

end Regions

variable {addr length : Word} {made : NodeId} {node : MMNode}

/-! ## Cutting one node -/

section Node

variable (nodeSmall : node.behind < 2 ^ 64) (rangeSmall : addr.toNat + length.toNat < 2 ^ 64)

include rangeSmall in
theorem toNat_rangeEnd : (addr + length).toNat = addr.toNat + length.toNat := by
  rw [BitVec.toNat_add, Nat.mod_eq_of_lt rangeSmall]

include nodeSmall rangeSmall in
theorem MMNode.off_iff : node.Off addr length ↔
    node.behind ≤ addr.toNat ∨ addr.toNat + length.toNat ≤ node.first := by
  rw [MMNode.Off, BitVec.le_def, BitVec.le_def, toNat_end nodeSmall, toNat_rangeEnd rangeSmall]
  rfl

include nodeSmall rangeSmall in
theorem MMNode.overlap_eq (meets : ¬node.Off addr length) :
    node.overlap addr length = some
      (if node.first < addr.toNat then addr else node.base,
        (if addr.toNat + length.toNat < node.behind then addr + length else node.base + node.len) -
          if node.first < addr.toNat then addr else node.base,
        node.info) := by
  rw [overlap, if_neg meets]
  simp only [BitVec.lt_def, toNat_end nodeSmall, toNat_rangeEnd rangeSmall]
  rfl

include nodeSmall rangeSmall in
theorem MMNode.cut_eq (meets : ¬node.Off addr length) :
    node.cut made addr length =
      (if node.first < addr.toNat then [node.keepFront addr] else []) ++
        if addr.toNat + length.toNat < node.behind then
          [{ node.keepBack (addr + length) with
              id := if node.first ≤ addr.toNat then made else node.id }]
        else [] := by
  rw [cut, if_neg meets]
  simp only [BitVec.lt_def, BitVec.le_def, toNat_end nodeSmall, toNat_rangeEnd rangeSmall]
  rfl

end Node

theorem MMNode.cut_off (off : node.Off addr length) : node.cut made addr length = [node] :=
  if_pos off

theorem MMNode.overlap_off (off : node.Off addr length) : node.overlap addr length = none :=
  if_pos off

/-- Nodes that do not reach into the range stay as they are. -/
theorem flatMap_cut_off {nodes : List MMNode} (off : ∀ node ∈ nodes, node.Off addr length) :
    nodes.flatMap (MMNode.cut made addr length) = nodes ∧
      nodes.filterMap (MMNode.overlap addr length) = [] := by
  induction nodes with
  | nil => exact ⟨rfl, rfl⟩
  | cons node rest ih =>
      obtain ⟨cuts, overlaps⟩ := ih fun other mem => off other (List.mem_cons_of_mem _ mem)
      have here := off node List.mem_cons_self
      rw [List.flatMap_cons, MMNode.cut_off here, cuts,
        List.filterMap_cons_none (MMNode.overlap_off here), overlaps]
      exact ⟨rfl, rfl⟩

/-- Nodes behind the range do not reach into it. -/
theorem Regions.off {lo hi : Nat} {nodes : List MMNode} (regions : Regions lo hi nodes)
    (small : hi < 2 ^ 64) (behind : addr.toNat + length.toNat ≤ lo) :
    ∀ node ∈ nodes, node.Off addr length := by
  intro node mem
  obtain ⟨above, -, below⟩ := regions.ordered.of_mem mem
  have bounds := regions.ordered.bounds
  refine (MMNode.off_iff (below.trans_lt small) ?_).mpr (.inr (behind.trans above))
  exact behind.trans_lt (bounds.trans_lt small)

/-- The parts of a node lie in the node and off the range, and none is empty. -/
theorem MMNode.cut_regions (nodeSmall : node.behind < 2 ^ 64)
    (rangeSmall : addr.toNat + length.toNat < 2 ^ 64) (nonempty : 0 < node.len.toNat)
    (pos : 0 < length.toNat) :
    Regions node.first node.behind (node.cut made addr length) ∧
      NodesOff addr.toNat (addr.toNat + length.toNat) (node.cut made addr length) := by
  have size : node.first + node.len.toNat = node.behind := rfl
  have off := @MMNode.off_iff addr length node nodeSmall rangeSmall
  by_cases here : node.Off addr length
  · rw [cut_off here]
    refine ⟨⟨⟨Nat.le_refl _, by omega, Nat.le_refl _⟩, by simpa using nonempty⟩, ?_⟩
    exact Clear.cons_iff.mpr ⟨off.mp here, Clear.nil⟩
  · rw [cut_eq nodeSmall rangeSmall here]
    have front : node.first < addr.toNat → (node.keepFront addr).behind = addr.toNat :=
      fun before => keepFront_behind before.le
    rw [off] at here
    have rangeEnd := toNat_rangeEnd rangeSmall
    -- The part behind the range, under whatever number.
    have back : ∀ id, addr.toNat + length.toNat < node.behind →
        ({ node.keepBack (addr + length) with id := id } : MMNode).first =
            addr.toNat + length.toNat ∧
          ({ node.keepBack (addr + length) with id := id } : MMNode).behind = node.behind := by
      intro id before
      have part : (node.base + node.len - (addr + length)).toNat =
          node.behind - (addr.toNat + length.toNat) := by
        have nodeEnd := toNat_end nodeSmall
        bv_omega
      refine ⟨rangeEnd, ?_⟩
      change (addr + length).toNat + (node.base + node.len - (addr + length)).toNat = _
      omega
    have backLen : addr.toNat + length.toNat < node.behind →
        0 < (node.keepBack (addr + length)).len.toNat := by
      intro before
      obtain ⟨first, behind⟩ := back node.id before
      have sum : ({ node.keepBack (addr + length) with id := node.id } : MMNode).first +
          (node.keepBack (addr + length)).len.toNat = _ := behind
      rw [first] at sum
      omega
    have frontLen : node.first < addr.toNat → 0 < (node.keepFront addr).len.toNat := by
      intro before
      have sum : (node.keepFront addr).first + (node.keepFront addr).len.toNat = _ := front before
      rw [keepFront_first] at sum
      omega
    by_cases starts : node.first < addr.toNat <;>
      by_cases ends : addr.toNat + length.toNat < node.behind
    · -- Both a front and a back are left.
      obtain ⟨first, behind⟩ := back (if node.first ≤ addr.toNat then made else node.id) ends
      rw [if_pos starts, if_pos ends]
      refine ⟨⟨⟨Nat.le_refl _, starts.le.trans_eq (front starts).symm, ?_, ?_, behind.le⟩, ?_⟩, ?_⟩
      · rw [first, front starts]
        omega
      · rw [first, behind]
        exact ends.le
      · intro part mem
        rcases List.mem_cons.mp mem with rfl | later
        · exact frontLen starts
        · rw [List.mem_singleton.mp later]
          exact backLen ends
      · refine Clear.cons_iff.mpr ⟨.inl (front starts).le, Clear.cons_iff.mpr ⟨.inr ?_, Clear.nil⟩⟩
        exact first.ge
    · -- The front is left.
      rw [if_pos starts, if_neg ends]
      refine ⟨⟨⟨Nat.le_refl _, starts.le.trans_eq (front starts).symm, ?_⟩, ?_⟩, ?_⟩
      · change (node.keepFront addr).behind ≤ node.behind
        rw [front starts]
        omega
      · intro part mem
        rw [List.mem_singleton.mp mem]
        exact frontLen starts
      · exact Clear.cons_iff.mpr ⟨.inl (front starts).le, Clear.nil⟩
    · -- The back is left.
      obtain ⟨first, behind⟩ := back (if node.first ≤ addr.toNat then made else node.id) ends
      rw [if_neg starts, if_pos ends]
      refine ⟨⟨⟨?_, ?_, behind.le⟩, ?_⟩, ?_⟩
      · rw [first]
        omega
      · rw [first, behind]
        exact ends.le
      · intro part mem
        rw [List.mem_singleton.mp mem]
        exact backLen ends
      · exact Clear.cons_iff.mpr ⟨.inr first.ge, Clear.nil⟩
    · -- Nothing is left.
      rw [if_neg starts, if_neg ends]
      refine ⟨⟨?_, fun part mem => absurd mem List.not_mem_nil⟩, Clear.nil⟩
      change node.first ≤ node.behind
      omega

/-- Without a range the regions are still in order, and none reaches into it. -/
theorem Regions.cut {lo hi : Nat} {nodes : List MMNode} (regions : Regions lo hi nodes)
    (small : hi < 2 ^ 64) (rangeSmall : addr.toNat + length.toNat < 2 ^ 64)
    (pos : 0 < length.toNat) :
    Regions lo hi (nodes.flatMap (MMNode.cut made addr length)) ∧
      NodesOff addr.toNat (addr.toNat + length.toNat)
        (nodes.flatMap (MMNode.cut made addr length)) := by
  have each : ∀ node ∈ nodes,
      Regions node.first node.behind (node.cut made addr length) ∧
        NodesOff addr.toNat (addr.toNat + length.toNat) (node.cut made addr length) := by
    intro node mem
    have nodeSmall := (regions.ordered.of_mem mem).2.2.trans_lt small
    exact MMNode.cut_regions nodeSmall rangeSmall (regions.nonempty node mem) pos
  refine ⟨⟨regions.ordered.flatMap fun node mem => (each node mem).1.ordered, ?_⟩, ?_⟩
  · intro part mem
    obtain ⟨node, mem, inNode⟩ := List.mem_flatMap.mp mem
    exact (each node mem).1.nonempty part inNode
  · intro part mem
    obtain ⟨node, mem, inNode⟩ := List.mem_flatMap.mp mem
    exact (each node mem).2 part inNode

/-- Unless the range starts in the node and ends before it, no new node is needed. -/
theorem MMNode.cut_ids (nodeSmall : node.behind < 2 ^ 64)
    (rangeSmall : addr.toNat + length.toNat < 2 ^ 64)
    (kept : ¬(node.first ≤ addr.toNat ∧ addr.toNat + length.toNat < node.behind)) :
    ((node.cut made addr length).map MMNode.id).Sublist [node.id] := by
  by_cases here : node.Off addr length
  · rw [cut_off here]
    exact List.Sublist.refl _
  · rw [cut_eq nodeSmall rangeSmall here]
    by_cases starts : node.first < addr.toNat
    · rw [if_pos starts, if_neg fun ends => kept ⟨starts.le, ends⟩]
      exact List.Sublist.refl _
    · rw [if_neg starts]
      split
      · rename_i ends
        rw [if_neg fun starts => kept ⟨starts, ends⟩]
        exact List.Sublist.refl _
      · exact List.nil_sublist _

/-- The parts are the old nodes and at most one new one. -/
theorem Regions.cut_ids {lo hi : Nat} {nodes : List MMNode} (regions : Regions lo hi nodes)
    (small : hi < 2 ^ 64) (rangeSmall : addr.toNat + length.toNat < 2 ^ 64)
    (pos : 0 < length.toNat) (distinct : (nodes.map MMNode.id).Nodup)
    (fresh : made ∉ nodes.map MMNode.id) :
    ((nodes.flatMap (MMNode.cut made addr length)).map MMNode.id).Nodup ∧
      (nodes.flatMap (MMNode.cut made addr length)).map MMNode.id ⊆
        made :: nodes.map MMNode.id := by
  induction nodes generalizing lo with
  | nil => exact ⟨List.nodup_nil, List.nil_subset _⟩
  | cons node rest ih =>
      rw [List.map_cons] at distinct fresh ⊢
      have notMade := List.ne_of_not_mem_cons fresh
      have freshRest := List.not_mem_of_not_mem_cons fresh
      obtain ⟨notIn, distinctRest⟩ := List.nodup_cons.mp distinct
      have nodeSmall : node.behind < 2 ^ 64 := regions.ordered.2.2.bounds.trans_lt small
      rw [List.flatMap_cons, List.map_append]
      by_cases around : node.first ≤ addr.toNat ∧ addr.toNat + length.toNat < node.behind
      · -- The new node is needed here, and the rest stays as it is.
        obtain ⟨starts, ends⟩ := around
        have meets : ¬node.Off addr length := by
          rw [MMNode.off_iff nodeSmall rangeSmall]
          omega
        obtain ⟨cutRest, -⟩ := @flatMap_cut_off addr length made _ (regions.tail.off small ends.le)
        rw [cutRest, MMNode.cut_eq nodeSmall rangeSmall meets, if_pos ends, if_pos starts]
        have whole : (made :: rest.map MMNode.id).Nodup := List.nodup_cons.mpr ⟨freshRest, distinctRest⟩
        split
        · refine ⟨List.nodup_cons.mpr ⟨?_, whole⟩, ?_⟩
          · exact List.not_mem_cons_of_ne_of_not_mem (Ne.symm notMade) notIn
          · intro id mem
            simp only [List.map_append, List.map_cons, List.map_nil, List.mem_append,
              List.mem_cons, List.not_mem_nil, or_false, keepFront_id] at mem ⊢
            tauto
        · exact ⟨whole, List.cons_subset_cons _ (List.subset_cons_self _ _)⟩
      · have part := @MMNode.cut_ids addr length made node nodeSmall rangeSmall around
        obtain ⟨nodup, subset⟩ := ih regions.tail distinctRest freshRest
        refine ⟨List.Nodup.append (part.nodup (List.nodup_singleton _)) nodup ?_, ?_⟩
        · intro id inNode inRest
          rw [List.mem_singleton.mp (part.subset inNode)] at inRest
          rcases List.mem_cons.mp (subset inRest) with isMade | later
          · exact notMade isMade.symm
          · exact notIn later
        · intro id mem
          rcases List.mem_append.mp mem with inNode | inRest
          · rw [List.mem_singleton.mp (part.subset inNode)]
            exact List.mem_cons_of_mem _ List.mem_cons_self
          · rcases List.mem_cons.mp (subset inRest) with isMade | later
            · rw [isMade]
              exact List.mem_cons_self
            · exact List.mem_cons_of_mem _ (List.mem_cons_of_mem _ later)

/-! ## The loop -/

/-- The loop of `mm_unmap_cb` calls back with what it cuts off. -/
theorem unmapLoop_eq {mm : MMAddrSpace} {ufn : UpdateFn} {old prev cursor : Option NodeId}
    {nodes : List MMNode} {lo hi : Nat} (kept : List NodeId) (regions : Regions lo hi nodes)
    (small : hi < 2 ^ 64) (rangeSmall : addr.toNat + length.toNat < 2 ^ 64)
    (pos : 0 < length.toNat) (prevKept : PointsIn prev kept)
    (cursorKept : PointsIn cursor (kept ++ nodes.map MMNode.id))
    (changed : cursor = old ∨ PointsIn cursor kept) :
    ∃ cursor', unmapLoop mm ufn addr length old nodes prev cursor = (do
        callAll mm ufn (nodes.filterMap (MMNode.overlap addr length))
        pure (nodes.flatMap (MMNode.cut mm.made addr length), cursor')) ∧
      PointsIn cursor'
        (kept ++ (nodes.flatMap (MMNode.cut mm.made addr length)).map MMNode.id) := by
  induction nodes generalizing prev cursor kept lo with
  | nil => exact ⟨cursor, rfl, by simpa using cursorKept⟩
  | cons node rest ih =>
      have nonempty := regions.nonempty node List.mem_cons_self
      have below := regions.ordered.2.2.bounds
      have nodeSmall : node.behind < 2 ^ 64 := below.trans_lt small
      have nodeEnd := MMNode.toNat_end nodeSmall
      have rangeEnd := toNat_rangeEnd rangeSmall
      have off := @MMNode.off_iff addr length node nodeSmall rangeSmall
      have base : node.base.toNat = node.first := rfl
      have size : node.first + node.len.toNat = node.behind := rfl
      have stay : kept ⊆ kept ++ [node.id] := List.subset_append_left _ _
      have moved : ∀ pointer ids, PointsIn pointer ids → kept ⊆ ids →
          PointsIn (if cursor = old then pointer else cursor) ids := by
        intro pointer ids points subset
        split
        · exact points
        · rename_i other
          exact (changed.resolve_left other).mono subset
      have fully : contained node.base node.len addr length = true ↔
          addr.toNat ≤ node.first ∧ node.behind ≤ addr.toNat + length.toNat := by
        simp only [contained, Bool.and_eq_true, decide_eq_true_eq, ge_iff_le, BitVec.le_def, nodeEnd,
          rangeEnd, base]
      have around : contained addr length node.base node.len = true ↔
          node.first ≤ addr.toNat ∧ addr.toNat + length.toNat ≤ node.behind := by
        simp only [contained, Bool.and_eq_true, decide_eq_true_eq, ge_iff_le, BitVec.le_def, nodeEnd,
          rangeEnd, base]
      rw [unmapLoop]
      simp only [fully, around, gt_iff_lt, ge_iff_le, BitVec.lt_def, BitVec.le_def, nodeEnd, rangeEnd,
        base]
      split
      · -- The node is removed.
        rename_i inside
        have meets : ¬node.Off addr length := by
          rw [off]
          omega
        have overlap : node.overlap addr length = some (node.base, node.len, node.info) := by
          rw [MMNode.overlap_eq nodeSmall rangeSmall meets, if_neg (by omega), if_neg (by omega),
            BitVec.add_comm, BitVec.add_sub_cancel]
        have cut : node.cut mm.made addr length = [] := by
          rw [MMNode.cut_eq nodeSmall rangeSmall meets, if_neg (by omega), if_neg (by omega)]
          rfl
        obtain ⟨cursor', loops, points⟩ := ih kept regions.tail prevKept
          ((moved prev kept prevKept (List.Subset.refl _)).mono (List.subset_append_left _ _))
          (.inr (moved prev kept prevKept (List.Subset.refl _)))
        refine ⟨cursor', ?_, by rwa [List.flatMap_cons, cut]⟩
        rw [List.filterMap_cons_some overlap, List.flatMap_cons, cut, loops, callAll]
        simp only [bind_assoc, List.nil_append]
      rename_i notInside
      split
      · -- The range is cut out of the node.
        rename_i within
        have meets : ¬node.Off addr length := by
          rw [off]
          omega
        have overlap : node.overlap addr length = some (addr, length, node.info) := by
          rw [MMNode.overlap_eq nodeSmall rangeSmall meets, Option.some.injEq, Prod.mk.injEq,
            Prod.mk.injEq]
          have first : (if node.first < addr.toNat then addr else node.base) = addr := by
            split
            · rfl
            · exact BitVec.eq_of_toNat_eq (by omega)
          have behind : (if addr.toNat + length.toNat < node.behind then addr + length
              else node.base + node.len) = addr + length := by
            split
            · rfl
            · exact BitVec.eq_of_toNat_eq (by omega)
          rw [first, behind, BitVec.add_comm, BitVec.add_sub_cancel]
          exact ⟨rfl, rfl, rfl⟩
        have front : (if (node.keepFront addr).len = 0 then [] else [node.keepFront addr]) =
            if node.first < addr.toNat then [node.keepFront addr] else [] := by
          have empty : (node.keepFront addr).len = 0 ↔ ¬node.first < addr.toNat := by
            rw [← BitVec.toNat_inj, MMNode.keepFront]
            change (addr - node.base).toNat = 0 ↔ _
            bv_omega
          simp only [empty, ite_not]
        have back : (if (node.keepBack (addr + length)).len = 0 then ([] : List MMNode)
            else [{ node.keepBack (addr + length) with id := mm.made }]) =
            if addr.toNat + length.toNat < node.behind then
              [{ node.keepBack (addr + length) with
                id := if node.first ≤ addr.toNat then mm.made else node.id }]
            else [] := by
          have empty : (node.keepBack (addr + length)).len = 0 ↔
              ¬addr.toNat + length.toNat < node.behind := by
            rw [← BitVec.toNat_inj, MMNode.keepBack]
            change (node.base + node.len - (addr + length)).toNat = 0 ↔ _
            bv_omega
          simp only [empty, ite_not, if_pos within.1]
        obtain ⟨cutRest, overlapRest⟩ := @flatMap_cut_off addr length mm.made _
          (regions.tail.off small within.2)
        refine ⟨_, ?_, (moved prev kept prevKept (List.Subset.refl _)).mono
          (List.subset_append_left _ _)⟩
        rw [List.filterMap_cons_some overlap, overlapRest, List.flatMap_cons, cutRest, callAll,
          callAll, MMNode.cut_eq nodeSmall rangeSmall meets, ← front, ← back]
        simp only [bind_assoc, pure_bind]
      rename_i notWithin
      split
      · -- The end of the node is cut off.
        rename_i reaches
        have meets : ¬node.Off addr length := by
          rw [off]
          omega
        have overlap : node.overlap addr length =
            some (addr, node.base + node.len - addr, node.info) := by
          rw [MMNode.overlap_eq nodeSmall rangeSmall meets, if_pos reaches.1, if_neg (by omega)]
        have cut : node.cut mm.made addr length = [node.keepFront addr] := by
          rw [MMNode.cut_eq nodeSmall rangeSmall meets, if_pos reaches.1, if_neg (by omega)]
          rfl
        have points : PointsIn (some node.id) (kept ++ [node.id]) := by simp [PointsIn]
        obtain ⟨cursor', loops, last⟩ := ih (kept ++ [node.id]) regions.tail points
          ((moved _ _ points stay).mono (List.subset_append_left _ _)) (.inr (moved _ _ points stay))
        refine ⟨cursor', ?_, by simpa [cut] using last⟩
        rw [List.filterMap_cons_some overlap, List.flatMap_cons, cut, loops, callAll]
        simp only [bind_assoc, pure_bind, List.singleton_append]
      rename_i notReaches
      split
      · -- The start of the node is cut off.
        rename_i leaves
        have meets : ¬node.Off addr length := by
          rw [off]
          omega
        have overlap : node.overlap addr length =
            some (node.base, addr + length - node.base, node.info) := by
          rw [MMNode.overlap_eq nodeSmall rangeSmall meets, if_neg (by omega), if_pos (by omega)]
        have cut : node.cut mm.made addr length = [node.keepBack (addr + length)] := by
          rw [MMNode.cut_eq nodeSmall rangeSmall meets, if_neg (by omega), if_pos (by omega),
            if_neg (by omega)]
          rfl
        obtain ⟨cutRest, overlapRest⟩ := @flatMap_cut_off addr length mm.made _
          (regions.tail.off small (by omega))
        refine ⟨cursor, ?_, ?_⟩
        · rw [List.filterMap_cons_some overlap, overlapRest, List.flatMap_cons, cut, cutRest, callAll,
            callAll]
          simp only [bind_assoc, pure_bind, List.singleton_append]
        · rw [List.flatMap_cons, cut, cutRest]
          simpa using cursorKept
      rename_i notLeaves
      have here : node.Off addr length := by
        rw [off]
        omega
      split
      · -- The walk is over.
        rename_i beyond
        obtain ⟨cuts, overlaps⟩ := @flatMap_cut_off addr length mm.made _
          (Regions.off (regions.from_first beyond) small (Nat.le_refl _))
        refine ⟨cursor, ?_, ?_⟩
        · rw [cuts, overlaps]
          rfl
        · rwa [cuts]
      · -- The node lies before the range.
        have points : PointsIn (some node.id) (kept ++ [node.id]) := by simp [PointsIn]
        obtain ⟨cursor', loops, last⟩ := ih (kept ++ [node.id]) regions.tail points
          (by simpa using cursorKept) (changed.imp_right fun points => points.mono stay)
        refine ⟨cursor', ?_, by simpa [MMNode.cut_off here] using last⟩
        rw [List.filterMap_cons_none (MMNode.overlap_off here), List.flatMap_cons,
          MMNode.cut_off here, loops]
        simp only [bind_assoc, pure_bind, List.singleton_append]

end Lps.Core

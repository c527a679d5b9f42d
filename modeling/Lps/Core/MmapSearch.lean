import Lps.Core.MmapSpec

/-!
# Mapping anywhere

The search for a gap looks at the pages between neighbouring regions and behind the last
one.  It takes the first gap that is large enough, and there is one when it fails only if
that gap lies in front of the region the search starts at.
-/

namespace Lps.Core

open Lps.Program Lps.Interval

variable {mm : MMAddrSpace} {contract : Contract HostCall HostReply Fault} {node : MMNode}
  {nodes before rest : List MMNode}

/-- The loop of `mm_mapany_cursor` stops at a gap, or with a gap that is too
small. -/
theorem gapLoop_spec {limit len start gap : Word} {nodes : List MMNode}
    (ordered : NodesIn start.toNat limit.toNat nodes) (small : gap ≥ len → len = 0) :
    ∃ passed rest stop gap', gapLoop limit len nodes start gap = (passed, rest, stop, gap') ∧
      passed ++ rest = nodes ∧ NodesIn start.toNat stop.toNat passed ∧
      NodesIn stop.toNat limit.toNat rest ∧
      (gap' ≥ len → NodesIn (stop.toNat + len.toNat) limit.toNat rest) := by
  induction nodes generalizing start gap with
  | nil =>
      have order : start.toNat ≤ limit.toNat := ordered
      rw [gapLoop]
      split
      · refine ⟨_, _, _, _, rfl, rfl, Nat.le_refl _, order, ?_⟩
        intro wide
        rw [ge_iff_le, BitVec.le_def] at wide
        simp only [Ordered.nil_iff]
        bv_omega
      · refine ⟨_, _, _, _, rfl, rfl, Nat.le_refl _, order, ?_⟩
        intro wide
        rw [small wide]
        exact order
  | cons node rest ih =>
      obtain ⟨above, proper, below⟩ := ordered
      have nodeEnd : (node.base + node.len).toNat = node.behind :=
        MMNode.toNat_end (below.bounds.trans_lt limit.isLt)
      rw [gapLoop]
      split
      · dsimp only
        split
        · rename_i wide
          refine ⟨_, _, _, _, rfl, rfl, Nat.le_refl _, ⟨above, proper, below⟩, ?_⟩
          intro _
          refine ⟨?_, proper, below⟩
          rw [ge_iff_le, BitVec.le_def] at wide
          simp only [MMNode.first] at above ⊢
          bv_omega
        · rename_i narrow
          rw [← nodeEnd] at below
          obtain ⟨passed, others, stop, gap', found, same, first, second, room⟩ :=
            ih below (fun wide => absurd wide narrow)
          refine ⟨node :: passed, others, stop, gap', by rw [found], ?_, ?_, second, room⟩
          · rw [List.cons_append, same]
          · rw [nodeEnd] at first
            exact ⟨above, proper, first⟩
      · refine ⟨_, _, _, _, rfl, rfl, Nat.le_refl _, ⟨above, proper, below⟩, ?_⟩
        intro wide
        rw [small wide]
        exact ⟨above, proper, below⟩

namespace MMAddrSpace

/-- The search starts between the nodes before the cursor and those from it on. -/
theorem startAt_spec {before nodes : List MMNode} {hi : Nat}
    (ordered : NodesIn mm.base.toNat hi (before ++ nodes)) (empty : nodes = [] → before = []) :
    NodesIn mm.base.toNat (mm.startAt nodes).toNat before ∧
      NodesIn (mm.startAt nodes).toNat hi nodes := by
  cases nodes with
  | nil =>
      rw [empty rfl] at ordered ⊢
      exact ⟨Nat.le_refl _, ordered⟩
  | cons node rest =>
      obtain ⟨mid, first, ⟨above, proper, below⟩, -⟩ := ordered.cut
      exact ⟨first.mono le_rfl above, le_rfl, proper, below⟩

end MMAddrSpace

/-- Somewhere from a page on there are `len` free pages in front of a node or at the end. -/
def Room (limit len : Nat) : Nat → List MMNode → Prop
  | start, [] => start + len ≤ limit
  | start, node :: rest => start + len ≤ node.first ∨ Room limit len node.behind rest

theorem Room.mono {limit len start earlier : Nat} (room : Room limit len start nodes)
    (le : earlier ≤ start) : Room limit len earlier nodes := by
  cases nodes with
  | nil => exact (Nat.add_le_add_right le len).trans room
  | cons node rest => exact room.imp_left (Nat.add_le_add_right le len).trans

/-- Room behind some nodes is room from the first one on. -/
theorem Room.prepend {limit len start earlier : Nat} (room : Room limit len start rest)
    (ordered : NodesIn earlier start before) : Room limit len earlier (before ++ rest) := by
  induction before generalizing earlier with
  | nil => exact room.mono ordered
  | cons node before ih => exact .inr (ih ordered.2.2)

theorem Room.le_limit {limit len start : Nat} (room : Room limit len start nodes)
    (ordered : NodesIn start limit nodes) : start + len ≤ limit := by
  induction nodes generalizing start with
  | nil => exact room
  | cons node rest ih =>
      obtain ⟨above, proper, below⟩ := ordered
      rcases room with here | later
      · exact here.trans (proper.trans below.bounds)
      · exact (Nat.add_le_add_right (above.trans proper) len).trans (ih later below)

/-- The loop of `mm_mapany_cursor` finds a gap when there is one. -/
theorem gapLoop_room {limit len start gap : Word} (ordered : NodesIn start.toNat limit.toNat nodes)
    (pos : 0 < len.toNat) (narrow : ¬gap ≥ len) :
    (gapLoop limit len nodes start gap).2.2.2 ≥ len ↔
      Room limit.toNat len.toNat start.toNat nodes := by
  induction nodes generalizing start gap with
  | nil =>
      have order : start.toNat ≤ limit.toNat := ordered
      rw [gapLoop, Room]
      split
      · simp only [ge_iff_le, BitVec.le_def]
        bv_omega
      · rename_i ended
        refine iff_of_false narrow ?_
        rw [BitVec.lt_def] at ended
        omega
  | cons node rest ih =>
      obtain ⟨above, proper, below⟩ := ordered
      have nodeEnd := MMNode.toNat_end (below.bounds.trans_lt limit.isLt)
      have gapSize : (node.base - start).toNat = node.first - start.toNat := by
        simp only [MMNode.first] at above ⊢
        bv_omega
      rw [gapLoop]
      split
      · rw [Room]
        dsimp only
        split
        · rename_i wide
          rw [ge_iff_le, BitVec.le_def, gapSize] at wide
          refine iff_of_true ?_ (.inl (by omega))
          rwa [ge_iff_le, BitVec.le_def, gapSize]
        · rename_i tooSmall
          rw [← nodeEnd] at below
          rw [ih below tooSmall, nodeEnd]
          rw [ge_iff_le, BitVec.le_def, gapSize] at tooSmall
          exact (or_iff_right (by omega)).symm
      · rename_i ended
        refine iff_of_false narrow fun room => ?_
        have bound := room.le_limit ⟨above, proper, below⟩
        rw [BitVec.lt_def] at ended
        omega

/-- The addresses of pages are not `-1`. -/
theorem shiftLeft_ne_neg_one {page : Word} {p : Nat} (pos : 0 < p) : page <<< p ≠ -1 := by
  intro same
  have low := congrArg (BitVec.getLsbD · 0) same
  simp [pos] at low

namespace MMAddrSpace

/-- A mapping was placed on free pages of the address space, and nothing else changed. -/
structure Placed (mm : MMAddrSpace) (len : Word) (info : MMInfo) (page : Word) (mm' : MMAddrSpace) :
    Prop where
  above : mm.base.toNat ≤ page.toNat
  below : page.toNat + (mm.mmceil len).toNat ≤ mm.base.toNat + mm.len.toNat
  off : NodesOff page.toNat (page.toNat + (mm.mmceil len).toNat) mm.nodes
  perm : mm'.nodes.Perm (⟨mm.made, page, mm.mmceil len, info⟩ :: mm.nodes)
  made : mm'.made = mm.made + 1

/-- `mm_mapany_cursor` keeps the tracker.  It places a mapping or changes nothing, and with
memory it fails only where there is no room. -/
theorem mmMapanyCursor_inOrder {len : Word} {prot flags : CInt} {fd : Int} {offset : Word}
    {cursor : Option NodeId} (inOrder : mm.InOrder) (mallocs : contract.calls .malloc)
    (points : PointsIn cursor (mm.nodes.map MMNode.id)) :
    ∃ before nodes, mm.follow cursor = pure (before, nodes) ∧ before ++ nodes = mm.nodes ∧
      NodesIn mm.base.toNat (mm.startAt nodes).toNat before ∧
      (mm.mmMapanyCursor len prot flags fd offset cursor).Meets contract fun (p, mm') =>
        mm.KeepsOrder mm' ∧
          (p = -1 ∧ mm' = mm ∧ (mm.mmceil len ≠ 0 → ¬contract.replies .malloc false →
              ¬Room (mm.base.toNat + mm.len.toNat) (mm.mmceil len).toNat
                (mm.startAt nodes).toNat nodes) ∨
            ∃ page : Word, p = page <<< mm.p2pagesize ∧
              mm.Placed len { prot, flags, fd, offset } page mm' ∧
              (mm.mmceil len ≠ 0 → Room (mm.base.toNat + mm.len.toNat) (mm.mmceil len).toNat
                (mm.startAt nodes).toNat nodes)) := by
  have limit := stop_toNat inOrder
  obtain ⟨before, nodes, starts, split, empty⟩ := follow_eq points
  have ordered := inOrder.ordered
  rw [← split, ← limit] at ordered
  obtain ⟨first, second⟩ := startAt_spec ordered empty
  refine ⟨before, nodes, starts, split, first, ?_⟩
  have found : mm.mmceil len ≠ 0 → _ := fun pages =>
    @gapLoop_room nodes mm.stop (mm.mmceil len) (mm.startAt nodes) 0 second
      (Nat.pos_of_ne_zero fun zero => pages (BitVec.eq_of_toNat_eq zero)) (by
        rw [ge_iff_le, BitVec.le_def]
        exact Nat.not_le.mpr (Nat.pos_of_ne_zero fun zero => pages (BitVec.eq_of_toNat_eq zero)))
  obtain ⟨passed, rest, start, gap, searched, same, walked, ahead, room⟩ :=
    @gapLoop_spec mm.stop (mm.mmceil len) _ 0 nodes second (by simp)
  rw [searched, limit] at found
  unfold mmMapanyCursor
  rw [starts, pure_bind]
  dsimp only
  rw [searched]
  split
  · rename_i wide
    have fitsGap := room wide
    have whole : before ++ passed ++ rest = mm.nodes := by
      rw [List.append_assoc, same, split]
    rw [Prog.meets_bind]
    refine ⟨mallocs, ?_⟩
    intro memory answered
    simp only [Prog.meets_ret]
    split
    · rename_i noMemory
      rw [Bool.not_eq_true'] at noMemory
      rw [noMemory] at answered
      exact ⟨inOrder.keeps, .inl ⟨rfl, rfl, fun _ memory => absurd answered memory⟩⟩
    have headOrNone : (!nodes.isEmpty || mm.nodes.isEmpty) = true := by
      cases nodes with
      | nil => simp [← split, empty rfl]
      | cons node rest => rfl
    rw [Prog.meets_bind, Prog.meets_check, if_pos headOrNone]
    refine ⟨⟨⟨inOrder.paged, inOrder.fits, ?_, (prevOf_pointsIn _).mono ?_⟩, rfl, rfl, rfl⟩,
      .inr ⟨start, rfl, ⟨?_, ?_, ?_, ?_, rfl⟩, fun pages => (found pages).mp wide⟩⟩
    · rw [← limit]
      exact Ordered.insert (first.append walked) (Nat.le_add_right _ _) fitsGap
    · simp
    · exact (first.append walked).bounds
    · rw [← limit]
      exact fitsGap.bounds
    · rw [← whole]
      refine Clear.append_iff.mpr ⟨?_, fitsGap.clear⟩
      exact fun node mem => .inl ((first.append walked).of_mem mem).2.2
    · rw [← whole]
      exact List.perm_middle
  · rename_i tooSmall
    exact ⟨inOrder.keeps, .inl ⟨rfl, rfl, fun pages _ some => tooSmall ((found pages).mpr some)⟩⟩

/-- There is room somewhere behind the first node. -/
def HasRoom (mm : MMAddrSpace) (len : Word) : Prop :=
  Room (mm.base.toNat + mm.len.toNat) (mm.mmceil len).toNat (mm.startAt mm.nodes).toNat mm.nodes

/-- `mm_mapany` keeps the tracker.  It places a mapping or changes nothing, and with memory
it fails only where there is no room. -/
theorem mmMapany_inOrder {len : Word} {prot flags : CInt} {fd : Int} {offset : Word}
    (inOrder : mm.InOrder) (mallocs : contract.calls .malloc) :
    (mm.mmMapany len prot flags fd offset).Meets contract fun (p, mm') =>
      mm.KeepsOrder mm' ∧
        (p = -1 ∧ mm' = mm ∧
            (mm.mmceil len ≠ 0 → ¬contract.replies .malloc false → ¬mm.HasRoom len) ∨
          ∃ page : Word, p = page <<< mm.p2pagesize ∧
            mm.Placed len { prot, flags, fd, offset } page mm' ∧
            (mm.mmceil len ≠ 0 → mm.HasRoom len)) := by
  have nullIn : ∀ ids, PointsIn none ids := fun _ _ mem => absurd mem (Option.not_mem_none _)
  -- The search from the head decides.
  have head : (mm.mmMapanyCursor len prot flags fd offset none).Meets contract fun (p, mm') =>
      mm.KeepsOrder mm' ∧
        (p = -1 ∧ mm' = mm ∧
            (mm.mmceil len ≠ 0 → ¬contract.replies .malloc false → ¬mm.HasRoom len) ∨
          ∃ page : Word, p = page <<< mm.p2pagesize ∧
            mm.Placed len { prot, flags, fd, offset } page mm' ∧
            (mm.mmceil len ≠ 0 → mm.HasRoom len)) := by
    obtain ⟨before, nodes, starts, -, -, meets⟩ := @mmMapanyCursor_inOrder mm contract len prot flags fd
      offset none inOrder mallocs (nullIn _)
    obtain ⟨rfl, rfl⟩ : [] = before ∧ mm.nodes = nodes := by
      simpa [follow] using Prog.ret.inj starts
    exact meets
  unfold mmMapany
  split
  · exact head
  · rename_i id pointer
    have points : PointsIn (some id) (mm.nodes.map MMNode.id) := by
      rw [← pointer]
      exact inOrder.cursor
    obtain ⟨before, nodes, -, split, first, meets⟩ := @mmMapanyCursor_inOrder mm contract len prot flags
      fd offset (some id) inOrder mallocs points
    rw [Prog.meets_bind]
    refine meets.mono ?_
    rintro ⟨p, mm'⟩ ⟨keeps, result⟩
    dsimp only
    rcases result with ⟨rfl, rfl, -⟩ | ⟨page, rfl, placed, room⟩
    · rw [if_neg (by simp)]
      exact head
    · rw [if_pos (shiftLeft_ne_neg_one inOrder.paged.1)]
      refine ⟨keeps, .inr ⟨page, rfl, placed, fun pages => ?_⟩⟩
      rw [HasRoom, ← split]
      refine (room pages).prepend ?_
      cases before with
      | nil => exact Nat.le_refl _
      | cons node before => exact ⟨Nat.le_refl _, first.2⟩

/-- The same for pages of 4096 bytes. -/
theorem mmMapany_meets {len : Word} {prot flags : CInt} {fd : Int} {offset : Word}
    (tracked : mm.Tracked) (mallocs : contract.calls .malloc) :
    (mm.mmMapany len prot flags fd offset).Meets contract fun (p, mm') =>
      mm.Keeps mm' ∧ (p = -1 ∨ ∃ page : Word, p = page <<< 12 ∧
        mm.base.toNat ≤ page.toNat ∧
        page.toNat + (mm.mmceil len).toNat ≤ mm.base.toNat + mm.len.toNat) := by
  refine (mmMapany_inOrder tracked.inOrder mallocs).mono ?_
  rintro ⟨p, mm'⟩ ⟨keeps, result⟩
  refine ⟨tracked.keeps_of keeps, ?_⟩
  rcases result with ⟨failed, -⟩ | ⟨page, rfl, placed, -⟩
  · exact .inl failed
  · refine .inr ⟨page, ?_, placed.above, placed.below⟩
    rw [tracked.paged]

end MMAddrSpace

end Lps.Core

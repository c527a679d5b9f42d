import Lps.Core.MmapCut
import Lps.Core.MmapSearch

/-!
# The cursor is only a hint

From any cursor the operations of the tracker do what a plain scan of the whole list
does: the scan below cuts, links and looks for a gap without a cursor.
-/

namespace Lps.Core

open Lps.Program Lps.Interval

variable {mm : MMAddrSpace} {addr length : Word} {ufn : UpdateFn} {lo hi : Nat}
  {node new : MMNode} {nodes before rest : List MMNode}
  {contract : Contract HostCall HostReply Fault}

/-- There is memory, and nothing goes down. -/
def serving : Contract HostCall HostReply Fault where
  replies
    | .malloc, reply => reply = true
    | _, _ => True
  calls _ := True
  faults _ := False

/-- There is memory, and callbacks may go down. -/
def served : Contract HostCall HostReply Fault where
  replies := serving.replies
  calls _ := True
  faults _ := True

namespace MMAddrSpace

/-- The tracker as `mm_init` and the operations on it leave it, but for the cursor: a page
size that `1 << mm->p2pagesize` can hold, regions in order and not empty, and every node
its own.  With pages of a single byte `mmvalid` wraps around. -/
structure WellFormed (mm : MMAddrSpace) : Prop where
  paged : 0 < mm.p2pagesize ∧ mm.p2pagesize < 31
  fits : mm.base.toNat + mm.len.toNat < 2 ^ 64
  regions : Regions mm.base.toNat (mm.base.toNat + mm.len.toNat) mm.nodes
  distinct : (mm.nodes.map MMNode.id).Nodup
  made : ∀ id ∈ mm.nodes.map MMNode.id, id < mm.made

/-- The cursor is null or a node of the list. -/
def Admissible (mm : MMAddrSpace) (cursor : Option NodeId) : Prop :=
  PointsIn cursor (mm.nodes.map MMNode.id)

/-- What the tracker keeps while there is memory. -/
structure Sound (mm : MMAddrSpace) : Prop where
  wellFormed : mm.WellFormed
  admissible : mm.Admissible mm.cursor

/-- The tracker with another cursor. -/
def withCursor (mm : MMAddrSpace) (cursor : Option NodeId) : MMAddrSpace := { mm with cursor := cursor }

/-- A new node in a well-formed tracker. -/
theorem WellFormed.insert {nodes' : List MMNode} {cursor : Option NodeId} {made : NodeId}
    (wellFormed : mm.WellFormed) (pos : 0 < new.len.toNat)
    (ordered : NodesIn mm.base.toNat (mm.base.toNat + mm.len.toNat) nodes')
    (perm : nodes'.Perm (new :: mm.nodes)) (fresh : new.id ∉ mm.nodes.map MMNode.id)
    (small : new.id < made) (grown : mm.made ≤ made) :
    ({ mm with nodes := nodes', cursor := cursor, made := made } : MMAddrSpace).WellFormed where
  paged := wellFormed.paged
  fits := wellFormed.fits
  regions := by
    refine ⟨ordered, fun node mem => ?_⟩
    rcases List.mem_cons.mp (perm.mem_iff.mp mem) with isNew | old
    · rw [isNew]
      exact pos
    · exact wellFormed.regions.nonempty node old
  distinct := (perm.map MMNode.id).nodup_iff.mpr (List.nodup_cons.mpr ⟨fresh, wellFormed.distinct⟩)
  made := by
    intro id mem
    rcases List.mem_cons.mp ((perm.map MMNode.id).mem_iff.mp mem) with isNew | old
    · rw [isNew]
      exact small
    · exact (wellFormed.made id old).trans_le grown

/-! ## Unmapping -/

/-- `mm_unmap_cb` as a plain scan that leaves a cursor behind. -/
def unmapPlain (mm : MMAddrSpace) (addr length : Word) (ufn : UpdateFn) (cursor : Option NodeId) :
    HostProg (Int × MMAddrSpace) := do
  if !mm.aligned addr || length = 0 then return (-MM_EINVAL, mm)
  let addr := mm.mmtrunc addr
  let length := mm.mmceil length
  if !mm.mmvalid addr length then return (-MM_EINVAL, mm)
  if !(← malloc) then return (-1, mm)
  callAll mm ufn (mm.nodes.filterMap (MMNode.overlap addr length))
  return (0, { mm with
    nodes := mm.nodes.flatMap (MMNode.cut mm.made addr length)
    cursor := cursor
    made := mm.made + 1 })

/-- From any admissible cursor `mm_unmap_cb` is the plain scan. -/
theorem mmUnmapCb_eq (wellFormed : mm.WellFormed) (admissible : mm.Admissible mm.cursor)
    (pages : mm.mmceil length ≠ 0) :
    ∃ cursor, mm.mmUnmapCb addr length ufn = mm.unmapPlain addr length ufn cursor ∧
      PointsIn cursor ((mm.nodes.flatMap
        (MMNode.cut mm.made (mm.mmtrunc addr) (mm.mmceil length))).map MMNode.id) := by
  by_cases valid : mm.mmvalid (mm.mmtrunc addr) (mm.mmceil length) = true
  · obtain ⟨above, below⟩ := (valid_iff wellFormed.paged wellFormed.fits).mp valid
    have rangeSmall := below.trans_lt wellFormed.fits
    have pos : 0 < (mm.mmceil length).toNat :=
      Nat.pos_of_ne_zero fun zero => pages (BitVec.eq_of_toNat_eq zero)
    obtain ⟨before, nodes, starts, place, inFront⟩ :=
      @unmapStart_eq mm (mm.mmtrunc addr) _ _ wellFormed.regions.ordered admissible
    have regions := wellFormed.regions
    rw [← place] at regions
    -- Nothing before the start reaches into the range.
    have off : ∀ node ∈ before, node.Off (mm.mmtrunc addr) (mm.mmceil length) := by
      intro node mem
      have small : node.behind < 2 ^ 64 :=
        (inFront node mem).trans_lt (Nat.lt_of_le_of_lt (Nat.le_add_right _ _) rangeSmall)
      exact (MMNode.off_iff small rangeSmall).mpr (.inl (inFront node mem))
    obtain ⟨cuts, overlaps⟩ := @flatMap_cut_off _ _ mm.made _ off
    have cursorKept : PointsIn mm.cursor (before.map MMNode.id ++ nodes.map MMNode.id) := by
      rw [← List.map_append, place]
      exact admissible
    obtain ⟨cursor, loops, points⟩ := @unmapLoop_eq _ _ mm ufn mm.cursor _ _ _ _ _ _
      (regions.drop) wellFormed.fits rangeSmall pos (prevOf_pointsIn before) cursorKept (.inl rfl)
    refine ⟨cursor, ?_, ?_⟩
    · simp only [mmUnmapCb, unmapPlain, starts, loops, pure_bind, bind_assoc]
      rw [← place, List.filterMap_append, overlaps, List.flatMap_append, cuts]
      rfl
    · rw [← place, List.flatMap_append, cuts, List.map_append]
      exact points
  · refine ⟨none, ?_, fun _ mem => absurd mem (Option.not_mem_none _)⟩
    simp only [mmUnmapCb, unmapPlain, valid, Bool.not_false, if_true]

/-- The tracker without a range of its address space. -/
theorem WellFormed.cut {cursor : Option NodeId} (wellFormed : mm.WellFormed)
    (below : addr.toNat + length.toNat ≤ mm.base.toNat + mm.len.toNat) (pos : 0 < length.toNat) :
    ({ mm with
      nodes := mm.nodes.flatMap (MMNode.cut mm.made addr length)
      cursor := cursor
      made := mm.made + 1 } : MMAddrSpace).WellFormed := by
  have fresh : mm.made ∉ mm.nodes.map MMNode.id :=
    fun mem => Nat.lt_irrefl _ (wellFormed.made _ mem)
  obtain ⟨distinct, ids⟩ := wellFormed.regions.cut_ids wellFormed.fits
    (below.trans_lt wellFormed.fits) pos wellFormed.distinct fresh
  refine ⟨wellFormed.paged, wellFormed.fits, ?_, distinct, ?_⟩
  · exact (wellFormed.regions.cut wellFormed.fits (below.trans_lt wellFormed.fits) pos).1
  · intro id mem
    rcases List.mem_cons.mp (ids mem) with isMade | old
    · rw [isMade]
      exact Nat.lt_succ_self _
    · exact (wellFormed.made id old).trans (Nat.lt_succ_self _)

/-- `mm_unmap_cb` keeps the tracker: it cuts a range out that it accepts and has memory for,
and otherwise it changes nothing. -/
theorem mmUnmapCb_sound (sound : mm.Sound) (pages : mm.mmceil length ≠ 0)
    (calls : ∀ c, contract.calls c) (faults : ∀ reason, contract.faults reason) :
    (mm.mmUnmapCb addr length ufn).Meets contract fun (r, mm') =>
      mm'.Sound ∧ (mm' = mm ∧ (mm.aligned addr = true → length ≠ 0 →
          mm.mmvalid (mm.mmtrunc addr) (mm.mmceil length) = true →
          contract.replies .malloc false) ∨
        r = 0 ∧ ∃ cursor, mm' = { mm with
          nodes := mm.nodes.flatMap (MMNode.cut mm.made (mm.mmtrunc addr) (mm.mmceil length))
          cursor := cursor
          made := mm.made + 1 }) := by
  obtain ⟨cursor, unmaps, points⟩ := @mmUnmapCb_eq mm addr _ ufn sound.wellFormed sound.admissible pages
  rw [unmaps, unmapPlain]
  split
  · rename_i rejected
    refine ⟨sound, .inl ⟨rfl, fun aligned nonzero => ?_⟩⟩
    rw [aligned, Bool.not_true, Bool.false_or, decide_eq_true_eq] at rejected
    exact absurd rejected nonzero
  dsimp only
  split
  · rename_i invalid
    refine ⟨sound, .inl ⟨rfl, fun _ _ valid => ?_⟩⟩
    simp [valid] at invalid
  rename_i valid
  rw [Bool.not_eq_true', Bool.not_eq_false] at valid
  rw [Prog.meets_bind]
  refine ⟨calls _, fun memory answered => ?_⟩
  cases memory with
  | false => exact ⟨sound, .inl ⟨rfl, fun _ _ _ => answered⟩⟩
  | true =>
      rw [Prog.meets_ret, if_neg (by decide), Prog.meets_bind]
      refine (Prog.meets_permitted calls faults).mono ?_
      intro _ _
      have pos : 0 < (mm.mmceil length).toNat :=
        Nat.pos_of_ne_zero fun zero => pages (BitVec.eq_of_toNat_eq zero)
      obtain ⟨-, inside⟩ := (valid_iff sound.wellFormed.paged sound.wellFormed.fits).mp valid
      exact ⟨⟨sound.wellFormed.cut inside pos, points⟩, .inr ⟨rfl, cursor, rfl⟩⟩

/-- With memory `mm_unmap_cb` cuts out what it accepts. -/
theorem mmUnmapCb_served (sound : mm.Sound) (pages : mm.mmceil length ≠ 0) :
    (mm.mmUnmapCb addr length ufn).Meets served fun (r, mm') =>
      mm'.Sound ∧ (mm.aligned addr = true → length ≠ 0 →
        mm.mmvalid (mm.mmtrunc addr) (mm.mmceil length) = true →
        r = 0 ∧ ∃ cursor, mm' = { mm with
          nodes := mm.nodes.flatMap (MMNode.cut mm.made (mm.mmtrunc addr) (mm.mmceil length))
          cursor := cursor
          made := mm.made + 1 }) := by
  refine (mmUnmapCb_sound sound pages (fun _ => trivial) fun _ => trivial).mono ?_
  rintro ⟨r, mm'⟩ ⟨kept, ⟨-, memory⟩ | ⟨done, cut⟩⟩
  · exact ⟨kept, fun aligned nonzero valid => nomatch memory aligned nonzero valid⟩
  · exact ⟨kept, fun _ _ _ => ⟨done, cut⟩⟩

end MMAddrSpace

/-! ## Mapping at an address -/

/-- The loop of `mm_mapat_cb` puts the new node in its place. -/
theorem insertLoop_eq {limit : Word} (regions : Regions lo limit.toNat (node :: rest))
    (off : NodesOff new.first new.behind rest) (after : node.behind ≤ new.first)
    (pos : 0 < new.len.toNat) (inside : new.behind ≤ limit.toNat) :
    insertLoop limit new (node :: rest) = some (place MMNode.first new (node :: rest)) := by
  have newSize : new.first + new.len.toNat = new.behind := rfl
  have newEnd : (new.base + new.len).toNat = new.behind :=
    MMNode.toNat_end (inside.trans_lt limit.isLt)
  induction rest generalizing node lo with
  | nil =>
      have nodeEnd := MMNode.toNat_end (regions.ordered.2.2.bounds.trans_lt limit.isLt)
      have before : node.first < new.first := by
        have nonempty := regions.nonempty node List.mem_cons_self
        exact (Nat.lt_add_of_pos_right nonempty).trans_le after
      rw [place_cons_of_lt before, insertLoop, if_pos]
      · rfl
      · simp only [ge_iff_le, BitVec.le_def, nodeEnd, newEnd]
        exact ⟨after, inside⟩
  | cons next rest ih =>
      have nodeEnd := MMNode.toNat_end (regions.ordered.2.2.bounds.trans_lt limit.isLt)
      have before : node.first < new.first := by
        have nonempty := regions.nonempty node List.mem_cons_self
        exact (Nat.lt_add_of_pos_right nonempty).trans_le after
      obtain ⟨offNext, offRest⟩ := Clear.cons_iff.mp off
      rw [place_cons_of_lt before, insertLoop]
      simp only [ge_iff_le, BitVec.le_def, nodeEnd, newEnd]
      split
      · rename_i here
        have notBefore : ¬next.first < new.first := by
          have ahead : new.behind ≤ next.first := here.2
          omega
        rw [place_cons_of_not_lt notBefore]
      · rename_i notHere
        have afterNext : next.behind ≤ new.first :=
          offNext.resolve_right fun before => notHere ⟨after, before⟩
        rw [ih regions.tail offRest afterNext]
        rfl

namespace MMAddrSpace

/-- From any admissible cursor the end of `mm_mapat_cb` puts the new node in its place. -/
theorem link_eq (fits : mm.base.toNat + mm.len.toNat < 2 ^ 64)
    (regions : Regions mm.base.toNat (mm.base.toNat + mm.len.toNat) mm.nodes)
    (admissible : mm.Admissible mm.cursor) (pos : 0 < new.len.toNat)
    (below : new.behind ≤ mm.base.toNat + mm.len.toNat)
    (off : NodesOff new.first new.behind mm.nodes) :
    mm.link new = pure { mm with nodes := place MMNode.first new mm.nodes } := by
  have limit : mm.stop.toNat = mm.base.toNat + mm.len.toNat := by
    rw [stop, BitVec.toNat_add, Nat.mod_eq_of_lt fits]
  have newSize : new.first + new.len.toNat = new.behind := rfl
  have newEnd : (new.base + new.len).toNat = new.behind := MMNode.toNat_end (below.trans_lt fits)
  obtain ⟨before, nodes, starts, split, ahead⟩ := @linkStart_eq mm new.base admissible
  rw [link, starts, pure_bind]
  rw [← split] at regions off ⊢
  cases nodes with
  | nil =>
      have none : before = [] := by
        by_contra some
        obtain ⟨node, rest, impossible, -⟩ := ahead some
        cases impossible
      rw [none]
      rfl
  | cons node rest =>
      have offNodes := (Clear.append_iff.mp off).2
      -- Nothing before the start is behind the new node.
      have inFront : ∀ other ∈ before, other.first < new.first := by
        intro other mem
        obtain ⟨head, tail, same, atOrBefore⟩ := ahead (List.ne_nil_of_mem mem)
        cases same
        have order := regions.ordered.before_after mem List.mem_cons_self
        have nonempty := regions.nonempty other (List.mem_append_left _ mem)
        exact (Nat.lt_add_of_pos_right nonempty).trans_le (order.trans atOrBefore)
      rw [place_append inFront]
      dsimp only
      split
      · rename_i front
        rw [BitVec.le_def, newEnd] at front
        change new.behind ≤ node.first at front
        have notBefore : ¬node.first < new.first := by
          omega
        rw [place_cons_of_not_lt notBefore]
      · rename_i notFront
        rw [BitVec.le_def, newEnd] at notFront
        obtain ⟨offNode, offRest⟩ := Clear.cons_iff.mp offNodes
        have after : node.behind ≤ new.first := offNode.resolve_right notFront
        have found := regions.drop
        rw [← limit] at found below
        rw [insertLoop_eq found offRest after pos below]

/-- The tracker in which `mm_mapat_cb` links its new node: one node is allocated before the
range is cut out. -/
def unmapped (mm : MMAddrSpace) (addr length : Word) (cursor : Option NodeId) : MMAddrSpace :=
  { mm with
    nodes := mm.nodes.flatMap (MMNode.cut (mm.made + 1) addr length)
    cursor := cursor
    made := mm.made + 2 }

theorem WellFormed.next (wellFormed : mm.WellFormed) :
    ({ mm with made := mm.made + 1 } : MMAddrSpace).WellFormed :=
  { wellFormed with made := fun id mem => (wellFormed.made id mem).trans (Nat.lt_succ_self _) }

section Unmapped

variable {cursor : Option NodeId} {info : MMInfo} (wellFormed : mm.WellFormed)
  (pos : 0 < length.toNat) (below : addr.toNat + length.toNat ≤ mm.base.toNat + mm.len.toNat)

include wellFormed pos below

theorem WellFormed.unmapped : (mm.unmapped addr length cursor).WellFormed :=
  wellFormed.next.cut below pos

/-- The new node is not in the list yet. -/
theorem WellFormed.made_not_mem :
    mm.made ∉ (mm.unmapped addr length cursor).nodes.map MMNode.id := by
  intro mem
  have fresh : mm.made + 1 ∉ mm.nodes.map MMNode.id :=
    fun mem => Nat.not_succ_lt_self (wellFormed.made _ mem)
  obtain ⟨-, ids⟩ := wellFormed.regions.cut_ids wellFormed.fits (below.trans_lt wellFormed.fits)
    pos wellFormed.distinct fresh
  rcases List.mem_cons.mp (ids mem) with isNext | old
  · exact Nat.succ_ne_self _ isNext.symm
  · exact Nat.lt_irrefl _ (wellFormed.made _ old)

/-- No region reaches into the range any more. -/
theorem WellFormed.unmapped_off :
    NodesOff addr.toNat (addr.toNat + length.toNat) (mm.unmapped addr length cursor).nodes :=
  (wellFormed.regions.cut wellFormed.fits (below.trans_lt wellFormed.fits) pos).2

/-- The new node is put in its place. -/
theorem link_unmapped (admissible : (mm.unmapped addr length cursor).Admissible cursor) :
    (mm.unmapped addr length cursor).link ⟨mm.made, addr, length, info⟩ =
      pure { mm.unmapped addr length cursor with
        nodes := place MMNode.first ⟨mm.made, addr, length, info⟩
          (mm.unmapped addr length cursor).nodes } :=
  link_eq wellFormed.fits (wellFormed.unmapped pos below).regions admissible pos below
    (wellFormed.unmapped_off pos below)

end Unmapped

/-- `mm_mapat_cb` as a plain scan that leaves a cursor behind. -/
def mapatPlain (mm : MMAddrSpace) (addr length : Word) (prot flags : CInt) (fd : Int)
    (offset : Word) (ufn : UpdateFn) (cursor : Option NodeId) : HostProg (Word × MMAddrSpace) := do
  if !mm.aligned addr then return (-1, mm)
  let addr := mm.mmtrunc addr
  let length := mm.mmceil length
  if !mm.mmvalid addr length then return (BitVec.ofInt 64 (-MM_EINVAL), mm)
  if !(← malloc) then return (-1, mm)
  let new : MMNode := ⟨mm.made, addr, length, { prot, flags, fd, offset }⟩
  if !(← malloc) then .fault .mapatUnmap
  callAll mm ufn (mm.nodes.filterMap (MMNode.overlap addr length))
  return (addr <<< mm.p2pagesize, { mm with
    nodes := place MMNode.first new (mm.nodes.flatMap (MMNode.cut (mm.made + 1) addr length))
    cursor := cursor
    made := mm.made + 2 })

/-- From any admissible cursor `mm_mapat_cb` is the plain scan. -/
theorem mmMapatCb_eq {prot flags : CInt} {fd : Int} {offset : Word} (wellFormed : mm.WellFormed)
    (admissible : mm.Admissible mm.cursor) (pages : mm.mmceil length ≠ 0) :
    ∃ cursor, mm.mmMapatCb addr length prot flags fd offset ufn =
        mm.mapatPlain addr length prot flags fd offset ufn cursor ∧
      PointsIn cursor ((mm.nodes.flatMap
        (MMNode.cut (mm.made + 1) (mm.mmtrunc addr) (mm.mmceil length))).map MMNode.id) := by
  let next : MMAddrSpace := { mm with made := mm.made + 1 }
  have paged := wellFormed.paged
  have trunc : next.mmtrunc (mm.mmtrunc addr <<< mm.p2pagesize) = mm.mmtrunc addr :=
    mmtrunc_shiftLeft paged addr
  have ceil : next.mmceil (mm.mmceil length <<< mm.p2pagesize) = mm.mmceil length :=
    mmceil_shiftLeft paged length
  have aligned : next.aligned (mm.mmtrunc addr <<< mm.p2pagesize) = true :=
    aligned_shiftLeft paged addr
  have nonzero : mm.mmceil length <<< mm.p2pagesize ≠ 0 := shiftLeft_mmceil_ne_zero paged pages
  obtain ⟨cursor, unmaps, points⟩ := @mmUnmapCb_eq next (mm.mmtrunc addr <<< mm.p2pagesize)
    (mm.mmceil length <<< mm.p2pagesize) ufn wellFormed.next admissible (by rwa [ceil])
  rw [trunc, ceil] at points
  refine ⟨cursor, ?_, points⟩
  by_cases valid : mm.mmvalid (mm.mmtrunc addr) (mm.mmceil length) = true
  · have below := ((valid_iff paged wellFormed.fits).mp valid).2
    have rangeSmall := below.trans_lt wellFormed.fits
    have pos : 0 < (mm.mmceil length).toNat :=
      Nat.pos_of_ne_zero fun zero => pages (BitVec.eq_of_toNat_eq zero)
    have links := @link_unmapped mm _ _ cursor { prot, flags, fd, offset } wellFormed pos below
      points
    have nextValid : next.mmvalid (mm.mmtrunc addr) (mm.mmceil length) = true := valid
    simp only [mmMapatCb, mapatPlain]
    rw [unmaps]
    simp only [unmapPlain, trunc, ceil, aligned, nonzero, nextValid, decide_false, Bool.not_true,
      Bool.or_false, Bool.false_eq_true, if_false, valid]
    split
    · rfl
    refine congrArg (malloc >>= ·) (funext fun memory => ?_)
    split
    · rfl
    rw [bind_assoc]
    refine congrArg (malloc >>= ·) (funext fun memory' => ?_)
    cases memory' with
    | false => rfl
    | true =>
        simp only [Bool.not_true, Bool.false_eq_true, if_false, bind_assoc, pure_bind]
        rw [callAll_next]
        refine congrArg (callAll mm ufn _ >>= ·) (funext fun _ => ?_)
        exact congrArg (· >>= fun last => pure (mm.mmtrunc addr <<< last.p2pagesize, last)) links
  · simp only [mmMapatCb, mapatPlain, valid, Bool.not_false, if_true]

/-- `mm_mapat_cb` keeps the tracker, whether there is memory or not. -/
theorem mmMapatCb_sound {prot flags : CInt} {fd : Int} {offset : Word} (sound : mm.Sound)
    (pages : mm.mmceil length ≠ 0) (calls : ∀ c, contract.calls c)
    (faults : ∀ reason, contract.faults reason) :
    (mm.mmMapatCb addr length prot flags fd offset ufn).Meets contract fun (_, mm') =>
      mm'.Sound ∧ mm'.p2pagesize = mm.p2pagesize := by
  have wellFormed := sound.wellFormed
  obtain ⟨cursor, maps, points⟩ :=
    @mmMapatCb_eq mm addr _ ufn prot flags fd offset wellFormed sound.admissible pages
  rw [maps, mapatPlain]
  split
  · exact ⟨sound, rfl⟩
  dsimp only
  split
  · exact ⟨sound, rfl⟩
  rename_i valid
  rw [Bool.not_eq_true', Bool.not_eq_false] at valid
  rw [Prog.meets_bind]
  refine ⟨calls _, fun memory _ => ?_⟩
  rw [Prog.meets_ret]
  split
  · exact ⟨sound, rfl⟩
  rw [Prog.meets_bind]
  refine ⟨calls _, fun memory' _ => ?_⟩
  rw [Prog.meets_ret]
  split
  · exact faults _
  rw [Prog.meets_bind]
  refine (Prog.meets_permitted calls faults).mono ?_
  intro _ _
  have pos : 0 < (mm.mmceil length).toNat :=
    Nat.pos_of_ne_zero fun zero => pages (BitVec.eq_of_toNat_eq zero)
  obtain ⟨above, below⟩ := (valid_iff wellFormed.paged wellFormed.fits).mp valid
  have cut := @WellFormed.unmapped mm _ _ cursor wellFormed pos below
  have perm := @place_perm _ _ _ MMNode.first _ (mm.unmapped (mm.mmtrunc addr) (mm.mmceil length) cursor).nodes
    ⟨mm.made, mm.mmtrunc addr, mm.mmceil length, { prot, flags, fd, offset }⟩
  refine ⟨⟨?_, ?_⟩, rfl⟩
  · refine cut.insert pos ?_ perm (wellFormed.made_not_mem pos below)
      (Nat.lt_add_of_pos_right (by decide)) (Nat.le_refl _)
    refine cut.regions.ordered.place ?_ above (Nat.le_add_right _ _) below
      (wellFormed.unmapped_off pos below)
    exact fun other mem => Nat.lt_add_of_pos_right (cut.regions.nonempty other mem)
  · refine points.mono fun id mem => ?_
    exact (perm.map MMNode.id).mem_iff.mpr (List.mem_cons_of_mem _ mem)

end MMAddrSpace

/-! ## Mapping anywhere -/

namespace MMAddrSpace

/-- A tracker whose cursor is one of its regions is in order. -/
theorem Sound.inOrder (sound : mm.Sound) : mm.InOrder where
  paged := sound.wellFormed.paged
  fits := sound.wellFormed.fits
  ordered := sound.wellFormed.regions.ordered
  cursor := sound.admissible

/-- A new mapping of at least one page keeps the tracker. -/
theorem Sound.placed {len page : Word} {info : MMInfo} {mm' : MMAddrSpace} (sound : mm.Sound)
    (pages : mm.mmceil len ≠ 0) (keeps : mm.KeepsOrder mm') (placed : mm.Placed len info page mm') :
    mm'.Sound := by
  obtain ⟨wellFormed, admissible⟩ := sound
  have pos : 0 < (mm.mmceil len).toNat :=
    Nat.pos_of_ne_zero fun zero => pages (BitVec.eq_of_toNat_eq zero)
  have order := keeps.inOrder.ordered
  rw [keeps.base, keeps.len] at order
  have inserted := @WellFormed.insert mm ⟨mm.made, page, mm.mmceil len, info⟩ mm'.nodes mm'.cursor
    mm'.made wellFormed pos order placed.perm
    (fun mem => absurd (wellFormed.made _ mem) (Nat.lt_irrefl _))
    (by rw [placed.made]; exact Nat.lt_succ_self _) (by rw [placed.made]; exact Nat.le_succ _)
  refine ⟨?_, keeps.inOrder.cursor⟩
  have same : mm' = { mm with nodes := mm'.nodes, cursor := mm'.cursor, made := mm'.made } := by
    obtain ⟨base, len, p2pagesize, nodes, cursor, made⟩ := mm'
    simp only [MMAddrSpace.mk.injEq, and_true]
    exact ⟨keeps.base, keeps.len, keeps.p2pagesize⟩
  rw [same]
  exact inserted

/-- From any admissible cursor `mm_mapany` finds room when there is some. -/
theorem mmMapany_serving {len : Word} {prot flags : CInt} {fd : Int} {offset : Word}
    (sound : mm.Sound) (pages : mm.mmceil len ≠ 0) :
    (mm.mmMapany len prot flags fd offset).Meets serving fun (p, mm') =>
      (p ≠ -1 ↔ mm.HasRoom len) ∧ mm'.Sound := by
  refine (mmMapany_inOrder sound.inOrder trivial).mono ?_
  rintro ⟨p, mm'⟩ ⟨keeps, ⟨rfl, rfl, none⟩ | ⟨page, rfl, placed, some⟩⟩
  · exact ⟨iff_of_false (fun found => found rfl) (none pages Bool.false_ne_true), sound⟩
  · refine ⟨iff_of_true (shiftLeft_ne_neg_one sound.wellFormed.paged.1) (some pages), ?_⟩
    exact sound.placed pages keeps placed

/-! ## Any two cursors -/

/-- The result of an operation on a tracker, with the list of regions. -/
def seen {ρ : Type} (outcome : ρ × MMAddrSpace) : ρ × List MMNode := (outcome.1, outcome.2.nodes)

/-- Callbacks do not depend on the cursor. -/
theorem callAll_withCursor {cursor : Option NodeId} (ranges : List (Word × Word × MMInfo)) :
    callAll (mm.withCursor cursor) ufn ranges = callAll mm ufn ranges := by
  induction ranges with
  | nil => rfl
  | cons range rest ih =>
      obtain ⟨base, len, info⟩ := range
      rw [callAll, callAll, ih]
      rfl

/-- The cursor makes no difference for the plain scan. -/
theorem seen_unmapPlain {cursor last : Option NodeId} :
    seen <$> (mm.withCursor cursor).unmapPlain addr length ufn last =
      seen <$> mm.unmapPlain addr length ufn none := by
  simp only [unmapPlain, callAll_withCursor, apply_ite (seen <$> ·), map_bind, map_pure]
  rfl

theorem seen_mapatPlain {prot flags : CInt} {fd : Int} {offset : Word}
    {cursor last : Option NodeId} :
    seen <$> (mm.withCursor cursor).mapatPlain addr length prot flags fd offset ufn last =
      seen <$> mm.mapatPlain addr length prot flags fd offset ufn none := by
  simp only [mapatPlain, callAll_withCursor, apply_ite (seen <$> ·), map_bind, map_pure]
  rfl

/-- The cursor is only a hint: from any two of them unmapping and mapping at an address do
the same, callbacks included, and mapping anywhere fails in the same cases. -/
theorem cursor_is_hint {addr length : Word} {cursor cursor' : Option NodeId}
    (wellFormed : mm.WellFormed) (admissible : mm.Admissible cursor)
    (admissible' : mm.Admissible cursor') (pages : mm.mmceil length ≠ 0) :
    (∀ ufn, seen <$> (mm.withCursor cursor).mmUnmapCb addr length ufn =
        seen <$> (mm.withCursor cursor').mmUnmapCb addr length ufn) ∧
      (∀ prot flags fd offset ufn,
        seen <$> (mm.withCursor cursor).mmMapatCb addr length prot flags fd offset ufn =
          seen <$> (mm.withCursor cursor').mmMapatCb addr length prot flags fd offset ufn) ∧
      ∀ prot flags fd offset host made, (∀ before, host before .malloc = true) →
        ∃ p mm₁ p' mm₂,
          (((mm.withCursor cursor).mmMapany length prot flags fd offset).run host made).2 =
              .ok (p, mm₁) ∧
            (((mm.withCursor cursor').mmMapany length prot flags fd offset).run host made).2 =
              .ok (p', mm₂) ∧
            (p ≠ -1 ↔ p' ≠ -1) := by
  have same : ∀ pointer, (mm.withCursor pointer).WellFormed := fun _ => { wellFormed with }
  refine ⟨?_, ?_, ?_⟩
  · intro ufn
    obtain ⟨last, first, -⟩ := @mmUnmapCb_eq _ addr _ ufn (same cursor) admissible pages
    obtain ⟨last', second, -⟩ := @mmUnmapCb_eq _ addr _ ufn (same cursor') admissible' pages
    rw [first, second, seen_unmapPlain, seen_unmapPlain]
  · intro prot flags fd offset ufn
    obtain ⟨last, first, -⟩ :=
      @mmMapatCb_eq _ addr _ ufn prot flags fd offset (same cursor) admissible pages
    obtain ⟨last', second, -⟩ :=
      @mmMapatCb_eq _ addr _ ufn prot flags fd offset (same cursor') admissible' pages
    rw [first, second, seen_mapatPlain, seen_mapatPlain]
  · intro prot flags fd offset host made memory
    have served : ∀ before c, serving.replies c (host before c) := by
      intro before c
      cases c with
      | malloc => exact memory before
      | _ => trivial
    have goes : ∀ pointer, mm.Admissible pointer → ∃ outcome : Word × MMAddrSpace,
        (((mm.withCursor pointer).mmMapany length prot flags fd offset).run host made).2 =
          .ok outcome ∧ (outcome.1 ≠ -1 ↔ mm.HasRoom length) := by
      intro pointer points
      obtain ⟨outcome, returned, found, -⟩ :=
        (mmMapany_serving ⟨same pointer, points⟩ pages).run_returns served (fun _ => id) made
      exact ⟨outcome, returned, found⟩
    obtain ⟨⟨p, mm₁⟩, first, room⟩ := goes cursor admissible
    obtain ⟨⟨p', mm₂⟩, second, room'⟩ := goes cursor' admissible'
    exact ⟨p, mm₁, p', mm₂, first, second, room.trans room'.symm⟩

/-- A tracker of two regions. -/
def twoRegions : MMAddrSpace where
  base := 0x100
  len := 0x10
  p2pagesize := 12
  nodes := [⟨0, 0x101, 2, ⟨3, 0x22, -1, 0, false⟩⟩, ⟨1, 0x104, 4, ⟨1, 0x22, -1, 0, false⟩⟩]
  cursor := none
  made := 2

theorem twoRegions_wellFormed : twoRegions.WellFormed := by
  refine ⟨by decide, by decide, ⟨?_, by decide⟩, by decide, by decide⟩
  simp only [twoRegions, Ordered.cons_iff, Ordered.nil_iff]
  decide

theorem twoRegions_sound : twoRegions.Sound :=
  ⟨twoRegions_wellFormed, fun _ mem => absurd mem (Option.not_mem_none _)⟩

/-- A range that cuts both regions is unmapped alike from the head of the list and from the cursor. -/
theorem cursor_is_hint_twoRegions :
    seen <$> (twoRegions.withCursor none).mmUnmapCb 0x102000 0x3000 noUpdate =
      seen <$> (twoRegions.withCursor (some 1)).mmUnmapCb 0x102000 0x3000 noUpdate := by
  refine (cursor_is_hint twoRegions_wellFormed ?_ ?_ (by decide)).1 noUpdate
  · exact fun _ mem => absurd mem (Option.not_mem_none _)
  · rintro _ ⟨⟩
    decide

end MMAddrSpace

end Lps.Core

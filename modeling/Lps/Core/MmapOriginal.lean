import Lps.Core.MmapMap

/-!
# Original mappings

The runtime marks the regions of a program it has loaded as original, so that later ones
can be removed again.  The loop that removes them goes on from a node that `mm_unmap_cb` has
freed.
-/

namespace Lps.Core

open Lps.Program Lps.Linked Lps.Interval

/-! ## The operations -/

/-- `node->info.original = true`. -/
def MMNode.markOriginal (node : MMNode) : MMNode :=
  { node with info := { node.info with original := true } }

namespace MMHeap

/-- The loop of `mm_mark_original`. -/
def markLoop : Nat → MMHeap → Option NodeId → ListProg MMHeap
  | _, h, none => pure h
  | 0, _, some _ => .fault .endless
  | fuel + 1, h, some id => do
      let node ← h.read id
      markLoop fuel (h.write node.markOriginal) (h.links.next id)

/-- `mm_mark_original`. -/
def mmMarkOriginal (h : MMHeap) : ListProg MMHeap := markLoop h.made h h.links.head

/-- The loop of `mm_unmap_non_original`. -/
def unmapNonOriginalLoop (ufn : UpdateFn) : Nat → MMHeap → Option NodeId → ListProg MMHeap
  | _, h, none => pure h
  | 0, _, some _ => .fault .endless
  | fuel + 1, h, some id => do
      let node ← h.read id
      if !node.info.original then do
        let (_, h) ← h.mmUnmapCb (node.base <<< h.p2pagesize) (node.len <<< h.p2pagesize) ufn
        -- `node->next`, of the node that has just been unmapped.
        let _ ← h.read id
        unmapNonOriginalLoop ufn fuel h (h.links.next id)
      else unmapNonOriginalLoop ufn fuel h (h.links.next id)

/-- `mm_unmap_non_original`. -/
def mmUnmapNonOriginal (h : MMHeap) (ufn : UpdateFn) : ListProg MMHeap :=
  unmapNonOriginalLoop ufn h.made h h.links.head

end MMHeap

/-! ## What should happen -/

namespace MMAddrSpace

/-- The regions of the program that was loaded. -/
def originals (mm : MMAddrSpace) : List MMNode := mm.nodes.filter fun node => node.info.original

/-- The regions that were mapped or split off later. -/
def later (mm : MMAddrSpace) : List MMNode := mm.nodes.filter fun node => !node.info.original

/-- All regions are original. -/
def marked (mm : MMAddrSpace) : MMAddrSpace :=
  { mm with nodes := mm.nodes.map MMNode.markOriginal }

/-- Remove regions one after the other, each with memory of its own and one callback. -/
def unmapEach (mm : MMAddrSpace) (ufn : UpdateFn) : List MMNode → HostProg Unit
  | [] => pure ()
  | node :: rest => do
      let _ ← malloc
      ufn (node.base <<< mm.p2pagesize) (node.len <<< mm.p2pagesize) node.info
      unmapEach mm ufn rest

end MMAddrSpace

namespace MMHeap

/-- While there is memory, `mm_unmap_non_original` calls back with the later regions, each
once, goes down only with a callback, and leaves the list of the original ones. -/
def Restores (h : MMHeap) (mm : MMAddrSpace) (ufn : UpdateFn) : Prop :=
  ∃ removed, removed.Perm mm.later ∧
    Prog.Simulates serving.replies callbackOnly (fun (h' : MMHeap) _ => h'.Holds mm.originals)
      (h.mmUnmapNonOriginal ufn) (mm.unmapEach ufn removed)

variable {h h' : MMHeap} {mm : MMAddrSpace} {nodes front back passed : List MMNode} {n : MMNode}
  {ufn : UpdateFn}

/-! ## Marking -/

theorem markLoop_represents {kept : List MMNode} {fuel : Nat}
    (rep : h.Represents { mm with nodes := kept ++ nodes }) (enough : nodes.length ≤ fuel) :
    ∃ h', markLoop fuel h (firstOf nodes) = pure h' ∧
      h'.Represents { mm with nodes := kept ++ nodes.map MMNode.markOriginal } := by
  induction nodes generalizing h kept fuel with
  | nil =>
      refine ⟨h, ?_, rep⟩
      cases fuel <;> rfl
  | cons node rest ih =>
      obtain ⟨fuel, rfl⟩ := Nat.exists_eq_add_one.mpr ((Nat.succ_pos _).trans_le enough)
      have holds := rep.holds
      have written := @Represents.write _ _ kept rest node node.markOriginal rep rfl rfl
      have next : h.links.next node.id = firstOf rest := holds.next
      have step : ∀ node' : MMNode, kept ++ node' :: rest = (kept ++ [node']) ++ rest := by simp
      dsimp only at written
      rw [step] at written
      obtain ⟨h', marks, rep'⟩ := ih written (Nat.le_of_succ_le_succ enough)
      refine ⟨h', ?_, ?_⟩
      · change markLoop (fuel + 1) h (some node.id) = _
        rw [markLoop, holds.read (by simp), pure_bind, next]
        exact marks
      · simpa using rep'

/-- Marking regions moves none of them. -/
theorem Regions.marked {lo hi : Nat} (regions : Regions lo hi nodes) :
    Regions lo hi (nodes.map MMNode.markOriginal) := by
  refine ⟨?_, ?_⟩
  · have ordered := regions.ordered
    clear regions
    induction nodes generalizing lo with
    | nil => exact ordered
    | cons node rest ih => exact ⟨ordered.1, ordered.2.1, ih ordered.2.2⟩
  · intro node mem
    obtain ⟨unmarked, here, rfl⟩ := List.mem_map.mp mem
    exact regions.nonempty unmarked here

theorem Sound.marked (sound : mm.Sound) : mm.marked.Sound := by
  have ids : mm.marked.nodes.map MMNode.id = mm.nodes.map MMNode.id := List.map_map
  have wellFormed := sound.wellFormed
  refine ⟨⟨wellFormed.paged, wellFormed.fits, Regions.marked wellFormed.regions, ?_, ?_⟩, ?_⟩
  · rw [ids]
    exact wellFormed.distinct
  · rw [ids]
    exact wellFormed.made
  · rw [MMAddrSpace.Admissible, ids]
    exact sound.admissible

/-- `mm_mark_original` makes every region original. -/
theorem Represents.mmMarkOriginal (rep : h.Represents mm) (wellFormed : mm.WellFormed) :
    ∃ h', h.mmMarkOriginal = pure h' ∧ h'.Represents mm.marked := by
  have enough := length_le_made wellFormed
  rw [← rep.made] at enough
  obtain ⟨h', marks, rep'⟩ := @markLoop_represents h mm mm.nodes [] h.made rep enough
  refine ⟨h', ?_, rep'⟩
  rw [MMHeap.mmMarkOriginal, rep.holds.head]
  exact marks

/-! ## Unmapping one region -/

variable {addr length : Word} {new fuel : Nat} {old : Option NodeId} {used : Bool}

/-- The loop of `mm_unmap_cb` passes the nodes in front of the range. -/
theorem Holds.unmapLoop_passes {kept rest : List MMNode} (holds : h.Holds (kept ++ passed ++ rest))
    (rangeSmall : addr.toNat + length.toNat < 2 ^ 64) (pos : 0 < length.toNat)
    (before : ∀ node ∈ passed, 0 < node.len.toNat ∧ node.behind ≤ addr.toNat) :
    unmapLoop ufn addr length new old (passed.length + fuel) h (firstOf (passed ++ rest)) used =
      unmapLoop ufn addr length new old fuel h (firstOf rest) used := by
  induction passed generalizing kept with
  | nil => rw [List.length_nil, Nat.zero_add, List.nil_append]
  | cons node passed ih =>
      obtain ⟨nonempty, inFront⟩ := before node List.mem_cons_self
      have size : node.base.toNat + node.len.toNat = node.behind := rfl
      have small : node.base.toNat + node.len.toNat < 2 ^ 64 := by omega
      have nodeEnd := MMNode.toNat_end (size ▸ small)
      have rangeEnd := toNat_rangeEnd rangeSmall
      have place : kept ++ node :: passed ++ rest = kept ++ node :: (passed ++ rest) := by simp
      have place' : kept ++ node :: passed ++ rest = (kept ++ [node]) ++ passed ++ rest := by simp
      have there := holds
      rw [place] at there
      have next : h.links.next node.id = firstOf (passed ++ rest) := there.next
      have notWithin : ¬contained node.base node.len addr length = true := by
        rw [contained_iff small rangeSmall]
        omega
      have notAround : ¬contained addr length node.base node.len = true := by
        rw [contained_iff rangeSmall small]
        omega
      have notInto : ¬addr < node.base + node.len := by
        rw [BitVec.lt_def, nodeEnd]
        omega
      have notBeyond : ¬node.base ≥ addr + length := by
        rw [ge_iff_le, BitVec.le_def, rangeEnd]
        omega
      rw [place'] at holds
      have passes := ih holds fun node mem => before node (List.mem_cons_of_mem _ mem)
      have steps : (node :: passed).length + fuel = (passed.length + fuel) + 1 := by
        rw [List.length_cons]
        omega
      change unmapLoop ufn addr length new old _ h (some node.id) used = _
      rw [steps, unmapLoop, there.read (by simp), pure_bind, if_neg notWithin, if_neg notAround,
        if_neg fun both => notInto both.2, if_neg fun both => notInto both.2, if_neg notBeyond, next]
      exact passes

/-- The loop of `mm_unmap_cb` ends at the first node behind the range. -/
theorem Holds.unmapLoop_stops (holds : h.Holds (front ++ back)) (enough : back.length ≤ fuel)
    (rangeSmall : addr.toNat + length.toNat < 2 ^ 64) (pos : 0 < length.toNat)
    (behind : ∀ node ∈ back, 0 < node.len.toNat ∧ addr.toNat + length.toNat ≤ node.first ∧
      node.behind < 2 ^ 64) :
    unmapLoop ufn addr length new old fuel h (firstOf back) used = pure (h, used) := by
  cases back with
  | nil => cases fuel <;> rfl
  | cons node back =>
      obtain ⟨nonempty, above, small⟩ := behind node List.mem_cons_self
      have size : node.base.toNat + node.len.toNat = node.behind := rfl
      have start : node.base.toNat = node.first := rfl
      obtain ⟨fuel, rfl⟩ := Nat.exists_eq_add_one.mpr ((Nat.succ_pos _).trans_le enough)
      have rangeEnd := toNat_rangeEnd rangeSmall
      have notWithin : ¬contained node.base node.len addr length = true := by
        rw [contained_iff small rangeSmall]
        omega
      have notAround : ¬contained addr length node.base node.len = true := by
        rw [contained_iff rangeSmall small]
        omega
      have notBefore : ¬node.base < addr := by
        rw [BitVec.lt_def]
        omega
      have notInto : ¬node.base < addr + length := by
        rw [BitVec.lt_def, rangeEnd]
        omega
      have beyond : node.base ≥ addr + length := by
        rw [ge_iff_le, BitVec.le_def, rangeEnd]
        omega
      change unmapLoop ufn addr length new old _ h (some node.id) used = _
      rw [unmapLoop, holds.read (by simp), pure_bind, if_neg notWithin, if_neg notAround,
        if_neg fun both => notBefore both.1, if_neg fun both => notInto both.1, if_pos beyond]

/-- The loop of `mm_unmap_cb` frees the node whose range it is given. -/
theorem Represents.unmapLoop_frees (rep : h.Represents mm) (split : mm.nodes = front ++ n :: back)
    (regions : Regions n.first (mm.base.toNat + mm.len.toNat) (n :: back))
    (fits : mm.base.toNat + mm.len.toNat < 2 ^ 64) (enough : back.length ≤ fuel) :
    ∃ h', unmapLoop ufn n.base n.len new old (fuel + 1) h (some n.id) used = (do
        (ufn (n.base <<< h.p2pagesize) (n.len <<< h.p2pagesize) n.info).mapFault .callback
        pure (h', used)) ∧ h'.node n.id = none := by
  have pos := regions.nonempty n List.mem_cons_self
  have size : n.base.toNat + n.len.toNat = n.behind := rfl
  have small : n.base.toNat + n.len.toNat < 2 ^ 64 := (regions.tail.ordered.bounds).trans_lt fits
  have within : contained n.base n.len n.base n.len = true := by
    rw [contained_iff small small]
    exact ⟨Nat.le_refl _, Nat.le_refl _⟩
  have holds := rep.holds
  rw [split] at holds
  have moved := rep.moveCursor old (h.links.prev n.id)
  rw [unmapLoop, holds.read (by simp), pure_bind, if_pos within]
  dsimp only
  generalize (if h.cursor = old then { h with cursor := h.links.prev n.id } else h) = moving at moved
  obtain ⟨links, removes, frees, removed⟩ := moved.remove split
  have linked := moved.holds
  rw [split] at linked
  refine ⟨({ moving with links := links } : MMHeap).release n.id, ?_, Function.update_self ..⟩
  congr 1
  funext _
  rw [linked.next, removes, pure_bind, frees, pure_bind]
  have left : (({ moving with links := links } : MMHeap).release n.id).Holds (front ++ back) :=
    removed.holds
  refine left.unmapLoop_stops enough small pos fun node mem => ?_
  obtain ⟨above, -, below⟩ := regions.tail.ordered.of_mem mem
  exact ⟨regions.tail.nonempty node mem, above, below.trans_lt fits⟩

end MMHeap

namespace MMAddrSpace

/-- The address space is what `mm_init` makes of a range of addresses. -/
def OfRange (mm : MMAddrSpace) : Prop :=
  ∃ start len : Word, start.toNat + len.toNat ≤ 2 ^ 64 ∧ mm.base = start >>> mm.p2pagesize ∧
    mm.len = len >>> mm.p2pagesize

/-- Pages of such a space have addresses. -/
theorem OfRange.bounds {mm : MMAddrSpace} (range : mm.OfRange) (paged : mm.p2pagesize < 31) :
    mm.base.toNat + mm.len.toNat ≤ 2 ^ (64 - mm.p2pagesize) ∧
      mm.len.toNat < 2 ^ (64 - mm.p2pagesize) := by
  obtain ⟨start, len, fits, base, size⟩ := range
  have pages : 2 ^ 64 / 2 ^ mm.p2pagesize = 2 ^ (64 - mm.p2pagesize) :=
    Nat.pow_div (by omega) (by decide)
  constructor
  · rw [base, size, BitVec.toNat_ushiftRight, BitVec.toNat_ushiftRight, Nat.shiftRight_eq_div_pow,
      Nat.shiftRight_eq_div_pow, ← pages]
    exact Nat.div_add_div_le_add_div.trans (Nat.div_le_div_right fits)
  · rw [size]
    exact toNat_shiftRight_lt len (by omega)

end MMAddrSpace

namespace MMHeap

variable {h : MMHeap} {mm : MMAddrSpace} {front back : List MMNode} {n : MMNode} {ufn : UpdateFn}

/-- The range of a region is one that `mm_unmap_cb` accepts. -/
theorem region_accepted (sound : mm.Sound) (range : mm.OfRange) (mem : n ∈ mm.nodes) :
    mm.aligned (n.base <<< mm.p2pagesize) = true ∧ n.len <<< mm.p2pagesize ≠ 0 ∧
      mm.mmtrunc (n.base <<< mm.p2pagesize) = n.base ∧
      mm.mmceil (n.len <<< mm.p2pagesize) = n.len ∧ mm.mmvalid n.base n.len = true := by
  have wellFormed := sound.wellFormed
  have paged := wellFormed.paged
  have pos := wellFormed.regions.nonempty n mem
  obtain ⟨above, -, below⟩ := wellFormed.regions.ordered.of_mem mem
  obtain ⟨spaceSmall, lenSmall⟩ := range.bounds paged.2
  have start : n.base.toNat = n.first := rfl
  have size : n.base.toNat + n.len.toNat = n.behind := rfl
  obtain ⟨isAligned, trunc⟩ := @MMAddrSpace.toNat_pageAddr_of_lt mm n.base paged (by omega)
  have ceil := @MMAddrSpace.mmceil_shiftLeft_of_lt mm paged n.len (by omega)
  have valid := @MMAddrSpace.valid_iff mm paged (n.base <<< mm.p2pagesize)
    (n.len <<< mm.p2pagesize) wellFormed.fits
  rw [trunc, ceil] at valid
  refine ⟨isAligned, ?_, trunc, ceil, valid.mpr ⟨above, below⟩⟩
  intro zero
  rw [zero, MMAddrSpace.mmceil_zero paged] at ceil
  rw [← ceil] at pos
  exact Nat.lt_irrefl _ pos

/-- The loop of `mm_unmap_cb` starts at a region or in front of it. -/
theorem Represents.unmapStart_region (rep : h.Represents mm) (sound : mm.Sound)
    (split : mm.nodes = front ++ n :: back) (enough : mm.nodes.length ≤ h.made) :
    ∃ before passed, front = before ++ passed ∧
      h.unmapStart n.base = pure (firstOf (passed ++ n :: back)) := by
  have regions := sound.wellFormed.regions
  have mem : n ∈ mm.nodes := by simp [split]
  obtain ⟨before, nodes, starts, place, started⟩ := @Represents.unmapStart h mm n.base rep
    sound.admissible enough
  obtain ⟨before', nodes', starts', -, ended⟩ :=
    @MMAddrSpace.unmapStart_eq mm n.base _ _ regions.ordered sound.admissible
  rw [starts] at starts'
  cases starts'
  have notPassed : n ∉ before := by
    intro inFront
    have ends : n.base.toNat + n.len.toNat ≤ n.base.toNat := ended n inFront
    have pos := regions.nonempty n mem
    omega
  rw [split, List.append_eq_append_iff] at place
  rcases place with ⟨passed, isFront, rfl⟩ | ⟨rest, rfl, behind⟩
  · exact ⟨before, passed, isFront, started⟩
  · cases rest with
    | nil =>
        rw [List.nil_append] at behind
        refine ⟨front, [], by simp, ?_⟩
        rw [started, ← behind]
        rfl
    | cons m rest =>
        cases behind
        exact absurd (by simp) notPassed

/-- `mm_unmap_cb` of a region frees its node when there is memory. -/
theorem Represents.mmUnmapCb_frees (rep : h.Represents mm) (sound : mm.Sound) (range : mm.OfRange)
    (split : mm.nodes = front ++ n :: back) :
    ∃ r h', h.mmUnmapCb (n.base <<< h.p2pagesize) (n.len <<< h.p2pagesize) ufn = (do
        if !(← Prog.ask HostCall.malloc) then return (-1, h)
        (ufn (n.base <<< h.p2pagesize) (n.len <<< h.p2pagesize) n.info).mapFault .callback
        return (r, h')) ∧ h'.node n.id = none := by
  have regions := sound.wellFormed.regions
  have fits := sound.wellFormed.fits
  have mem : n ∈ mm.nodes := by simp [split]
  obtain ⟨isAligned, nonzero, trunc, ceil, valid⟩ := region_accepted sound range mem
  have enough : mm.nodes.length ≤ h.made := by
    rw [rep.made]
    exact length_le_made sound.wellFormed
  have rest : Regions n.first (mm.base.toNat + mm.len.toNat) (n :: back) := by
    rw [split] at regions
    exact regions.drop.from_first (Nat.le_refl _)
  have pos := rest.nonempty n List.mem_cons_self
  have small : n.base.toNat + n.len.toNat < 2 ^ 64 := rest.tail.ordered.bounds.trans_lt fits
  obtain ⟨before, passed, rfl, starts⟩ := rep.next.unmapStart_region
    ⟨sound.wellFormed.next, sound.admissible⟩ split (enough.trans (Nat.le_succ _))
  have place : before ++ passed ++ n :: back = mm.nodes := split.symm
  have inFront : ∀ node ∈ passed, 0 < node.len.toNat ∧ node.behind ≤ n.base.toNat := by
    have apart := regions.ordered.pairwise
    rw [← place, List.pairwise_append] at apart
    intro node isPassed
    have inList : node ∈ mm.nodes := by
      rw [← place]
      simp [isPassed]
    refine ⟨regions.nonempty node inList, ?_⟩
    exact apart.2.2 node (List.mem_append_right _ isPassed) n List.mem_cons_self
  rw [← place, List.length_append, List.length_append, List.length_cons] at enough
  have fuel : passed.length + ((h.made - passed.length) + 1) = h.made + 1 := by omega
  have left : back.length ≤ h.made - passed.length := by omega
  have next := rep.next
  have holds := next.holds
  obtain ⟨h', frees, gone⟩ := @Represents.unmapLoop_frees _ _ (before ++ passed) back n ufn h.made
    (h.made - passed.length) h.cursor false next split rest fits left
  have passes := @Holds.unmapLoop_passes _ passed ufn n.base n.len h.made ((h.made - passed.length) + 1)
    h.cursor false before (n :: back) (by rw [place]; exact holds) small pos inFront
  rw [fuel] at passes
  refine ⟨0, h'.release h.made, ?_, ?_⟩
  · have pages := rep.p2pagesize
    rw [MMHeap.mmUnmapCb]
    simp only [rep.aligned, rep.mmtrunc, rep.mmceil, rep.mmvalid, pages, isAligned, nonzero, trunc,
      ceil, valid]
    simp only [pages] at starts passes frees
    rw [if_neg (by decide), if_neg (by decide)]
    refine congrArg _ (funext fun memory => ?_)
    split
    · rfl
    · have first : firstOf (n :: back) = some n.id := rfl
      rw [starts, pure_bind, passes, first, frees]
      simp only [bind_assoc, pure_bind]
      rfl
  · by_cases same : n.id = h.made
    · rw [same]
      exact Function.update_self ..
    · exact (Function.update_of_ne same ..).trans gone

/-! ## The walk -/

variable {passed : List MMNode} {fuel : Nat}

/-- The loop of `mm_unmap_non_original` passes the original regions. -/
theorem Holds.unmapNonOriginalLoop_passes {kept rest : List MMNode}
    (holds : h.Holds (kept ++ passed ++ rest)) (original : ∀ node ∈ passed, node.info.original = true) :
    unmapNonOriginalLoop ufn (passed.length + fuel) h (firstOf (passed ++ rest)) =
      unmapNonOriginalLoop ufn fuel h (firstOf rest) := by
  induction passed generalizing kept with
  | nil => rw [List.length_nil, Nat.zero_add, List.nil_append]
  | cons node passed ih =>
      have marked := original node List.mem_cons_self
      have place : kept ++ node :: passed ++ rest = kept ++ node :: (passed ++ rest) := by simp
      have place' : kept ++ node :: passed ++ rest = (kept ++ [node]) ++ passed ++ rest := by simp
      have there := holds
      rw [place] at there
      have next : h.links.next node.id = firstOf (passed ++ rest) := there.next
      have steps : (node :: passed).length + fuel = (passed.length + fuel) + 1 := by
        rw [List.length_cons]
        omega
      rw [place'] at holds
      have passes := ih holds fun node mem => original node (List.mem_cons_of_mem _ mem)
      change unmapNonOriginalLoop ufn _ h (some node.id) = _
      rw [steps, unmapNonOriginalLoop, there.read (by simp), pure_bind, marked, if_neg (by decide), next]
      exact passes

/-- `mm_unmap_non_original` does nothing when all regions are original. -/
theorem Represents.mmUnmapNonOriginal_nothing (rep : h.Represents mm) (wellFormed : mm.WellFormed)
    (original : ∀ node ∈ mm.nodes, node.info.original = true) :
    h.mmUnmapNonOriginal ufn = pure h := by
  have enough := length_le_made wellFormed
  have holds := rep.holds
  rw [← List.append_nil mm.nodes, ← List.nil_append mm.nodes] at holds
  have passes := @Holds.unmapNonOriginalLoop_passes h ufn mm.nodes (mm.made - mm.nodes.length) [] []
    holds original
  rw [Nat.add_sub_cancel' enough, List.append_nil] at passes
  rw [mmUnmapNonOriginal, rep.made, rep.holds.head, passes]
  cases mm.made - mm.nodes.length <;> rfl

/-- `mm_unmap_non_original` goes down behind the first region that is not original, when there is
memory for unmapping it. -/
theorem Represents.mmUnmapNonOriginal_down (rep : h.Represents mm) (sound : mm.Sound)
    (range : mm.OfRange) (split : mm.nodes = front ++ n :: back)
    (original : ∀ node ∈ front, node.info.original = true) (later : n.info.original = false) :
    ∃ next, h.mmUnmapNonOriginal noUpdate = Prog.ask HostCall.malloc >>= next ∧
      next true = .fault .badNode := by
  have enough := length_le_made sound.wellFormed
  rw [split, List.length_append, List.length_cons] at enough
  have fuel : front.length + ((mm.made - front.length - 1) + 1) = mm.made := by omega
  have holds := rep.holds
  rw [split] at holds
  have there := holds
  rw [← List.nil_append front] at holds
  have passes := @Holds.unmapNonOriginalLoop_passes h noUpdate front
    ((mm.made - front.length - 1) + 1) [] (n :: back) holds original
  rw [fuel] at passes
  obtain ⟨r, h', unmaps, gone⟩ := @Represents.mmUnmapCb_frees h mm front back n noUpdate rep sound
    range split
  have first : firstOf (n :: back) = some n.id := rfl
  rw [mmUnmapNonOriginal, rep.made, rep.holds.head, split, passes, first, unmapNonOriginalLoop,
    there.read (by simp), pure_bind, later, if_pos (by decide), unmaps, bind_assoc]
  refine ⟨_, rfl, ?_⟩
  have lost : h'.read n.id = .fault .badNode := by
    rw [read, gone]
  rw [if_neg (by decide)]
  change h'.read n.id >>= _ = _
  rw [lost]
  rfl

/-- No callback goes down the way the walk does. -/
theorem not_simulates_badNode {α β : Type} {replies : (c : HostCall) → HostReply c → Prop}
    {related : α → β → Prop} {q : HostProg β} :
    ¬Prog.Simulates replies callbackOnly related (.fault .badNode) q := by
  intro simulates
  cases simulates with
  | fault here => cases here

/-- A program that goes down so once it has memory does nothing else. -/
theorem not_simulates_of_down {α β : Type} {related : α → β → Prop} {next : Bool → ListProg α}
    {q : HostProg β} (down : next true = .fault .badNode) :
    ¬Prog.Simulates serving.replies callbackOnly related (Prog.ask HostCall.malloc >>= next) q := by
  intro simulates
  change Prog.Simulates serving.replies callbackOnly related (.call HostCall.malloc next) q at simulates
  cases simulates with
  | call rest =>
      have badNode := rest true rfl
      rw [down] at badNode
      exact not_simulates_badNode badNode

/-- A region that is not original is not removed, or the walk goes down. -/
theorem Represents.not_restores (rep : h.Represents mm) (sound : mm.Sound) (range : mm.OfRange)
    (mem : n ∈ mm.nodes) (later : n.info.original = false) : ¬h.Restores mm noUpdate := by
  obtain ⟨first, found⟩ := Option.isSome_iff_exists.mp
    (List.find?_isSome (p := fun node => !node.info.original).mpr ⟨n, mem, by simp [later]⟩)
  obtain ⟨isLater, front, back, split, original⟩ := List.find?_eq_some_iff_append.mp found
  rintro ⟨removed, -, simulates⟩
  obtain ⟨next, goes, down⟩ := rep.mmUnmapNonOriginal_down sound range split
    (fun node inFront => by simpa using original node inFront) (by simpa using isLater)
  rw [goes] at simulates
  exact not_simulates_of_down down simulates

/-- `mm_unmap_non_original` restores the original mappings exactly when no other region was mapped
or split off. -/
theorem mmUnmapNonOriginal_restores_iff (rep : h.Represents mm) (sound : mm.Sound)
    (range : mm.OfRange) :
    (∀ ufn, h.Restores mm ufn) ↔ ∀ node ∈ mm.nodes, node.info.original = true := by
  constructor
  · intro restores node mem
    by_contra notMarked
    exact rep.not_restores sound range mem (Bool.eq_false_of_not_eq_true notMarked)
      (restores noUpdate)
  · intro original ufn
    have nothing : mm.later = [] := by
      rw [MMAddrSpace.later, List.filter_eq_nil_iff]
      intro node mem
      rw [original node mem]
      decide
    have all : mm.originals = mm.nodes := List.filter_eq_self.mpr original
    refine ⟨[], by rw [nothing], ?_⟩
    rw [rep.mmUnmapNonOriginal_nothing sound.wellFormed original, MMAddrSpace.unmapEach]
    refine .pure ?_
    rw [all]
    exact rep.holds

/-- Two nodes in memory. -/
def linkPair (mm : MMAddrSpace) (first second : MMNode) : MMHeap where
  base := mm.base
  len := mm.len
  p2pagesize := mm.p2pagesize
  links :=
    { head := some first.id
      next := Function.update (fun _ => none) first.id (some second.id)
      prev := Function.update (fun _ => none) second.id (some first.id) }
  node := Function.update (Function.update (fun _ => none) first.id (some first)) second.id (some second)
  cursor := mm.cursor
  made := mm.made

theorem linkPair_represents {first second : MMNode} (nodes : mm.nodes = [first, second])
    (apart : first.id ≠ second.id) : (linkPair mm first second).Represents mm := by
  refine ⟨rfl, rfl, rfl, ⟨⟨?_, ?_⟩, ?_⟩, rfl, rfl⟩
  · simp [nodes, Links.chained_cons_cons, Links.chained_singleton, Links.Joined, linkPair, apart,
      apart.symm]
  · simp [nodes, apart]
  · simp [nodes, linkPair, apart]

/-- The address space of two regions starts at address 0x100000. -/
theorem twoRegions_ofRange : MMAddrSpace.twoRegions.OfRange :=
  ⟨0x100000, 0x10000, by decide, by decide, by decide⟩

/-- Right after both regions were marked there is nothing to unmap, and both stay. -/
theorem mmUnmapNonOriginal_restores_marked :
    ∃ h first second, MMAddrSpace.twoRegions.nodes = [first, second] ∧
      (linkPair MMAddrSpace.twoRegions first second).mmMarkOriginal = pure h ∧
      ∀ ufn, h.Restores MMAddrSpace.twoRegions.marked ufn := by
  have rep := @linkPair_represents MMAddrSpace.twoRegions _ _ rfl (by decide)
  obtain ⟨h, marks, rep'⟩ := rep.mmMarkOriginal MMAddrSpace.twoRegions_wellFormed
  refine ⟨h, _, _, rfl, marks, ?_⟩
  have iff := mmUnmapNonOriginal_restores_iff rep' (Sound.marked MMAddrSpace.twoRegions_sound)
    twoRegions_ofRange
  exact iff.mpr (by decide)

/-- The second region was mapped after the first one had been marked. -/
def mixedRegions : MMAddrSpace :=
  { MMAddrSpace.twoRegions with
    nodes := [⟨0, 0x101, 2, ⟨3, 0x22, -1, 0, true⟩⟩, ⟨1, 0x104, 4, ⟨1, 0x22, -1, 0, false⟩⟩] }

/-- The node of the second region is read after it has been freed. -/
theorem mmUnmapNonOriginal_reads_freed :
    ¬∀ (h : MMHeap) (mm : MMAddrSpace) (ufn : UpdateFn), h.Represents mm → mm.Sound → mm.OfRange →
      h.Restores mm ufn := by
  intro claim
  have rep := @linkPair_represents mixedRegions _ _ rfl (by decide)
  have sound : mixedRegions.Sound := by
    refine ⟨⟨by decide, by decide, ⟨?_, by decide⟩, by decide, by decide⟩, ?_⟩
    · simp only [mixedRegions, Ordered.cons_iff, Ordered.nil_iff]
      decide
    · exact fun _ mem => absurd mem (Option.not_mem_none _)
  have restores := claim _ _ noUpdate rep sound twoRegions_ofRange
  exact @Represents.not_restores _ _ ⟨1, 0x104, 4, ⟨1, 0x22, -1, 0, false⟩⟩ rep sound
    twoRegions_ofRange (by decide) rfl restores

end MMHeap

end Lps.Core

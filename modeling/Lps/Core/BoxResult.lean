import Lps.Core.BoxPages
import Lps.Core.MmapMap
import Lps.Core.OsFrame

/-!
# What a mapping leaves behind

A mapping that succeeds is recorded and made for the whole range.  One that the host refuses
is taken back: when it replaced nothing and there is memory to take it back, the tracker has
the same regions as before, and no page has changed.
-/

namespace Lps.Core

open Lps.Program Lps.Interval

variable {mm mm' : MMAddrSpace} {addr size p : Word} {q : Nat}

/-! ## The tracker -/

namespace MMAddrSpace

/-- The tracker has a region more, with the pages of a range. -/
structure Adds (mm : MMAddrSpace) (addr size : Word) (info : MMInfo) (mm' : MMAddrSpace) : Prop where
  sound : mm'.Sound
  keeps : mm.KeepsOrder mm'
  off : NodesOff (mm.mmtrunc addr).toNat ((mm.mmtrunc addr).toNat + (mm.mmceil size).toNat) mm.nodes
  perm : ∃ id, mm'.nodes.Perm (⟨id, mm.mmtrunc addr, mm.mmceil size, info⟩ :: mm.nodes)

variable {info : MMInfo}

/-- The region takes its pages. -/
theorem Adds.infos (adds : mm.Adds addr size info mm') (sound : mm.Sound) :
    infoAt mm'.nodes q =
      if InRange (mm.mmtrunc addr) (mm.mmceil size) q then some info else infoAt mm.nodes q := by
  obtain ⟨id, perm⟩ := adds.perm
  have order := adds.keeps.inOrder.ordered
  rw [adds.keeps.base, adds.keeps.len] at order
  exact infoAt_insert sound.inOrder.ordered order perm

/-- Without the range the regions are those from before. -/
theorem Adds.cut_eq {made : NodeId} (adds : mm.Adds addr size info mm') (sound : mm.Sound)
    (pages : mm.mmceil size ≠ 0) (inside : mm.Inside (mm.mmtrunc addr) (mm.mmceil size)) :
    mm'.nodes.flatMap (MMNode.cut made (mm.mmtrunc addr) (mm.mmceil size)) = mm.nodes := by
  obtain ⟨id, perm⟩ := adds.perm
  have wellFormed := sound.wellFormed
  have wellFormed' := adds.sound.wellFormed
  have pos : 0 < (mm.mmceil size).toNat :=
    Nat.pos_of_ne_zero fun zero => pages (BitVec.eq_of_toNat_eq zero)
  have rangeSmall := inside.2.trans_lt wellFormed.fits
  obtain ⟨regions, -⟩ := @Regions.cut (mm.mmtrunc addr) (mm.mmceil size) made _ _ _
    wellFormed'.regions wellFormed'.fits rangeSmall pos
  apply Ordered.eq_of_perm regions.ordered wellFormed.regions.ordered
  · exact fun node mem => Nat.lt_add_of_pos_right (regions.nonempty node mem)
  · refine (perm.flatMap_right _).trans ?_
    have nodesOff : ∀ node ∈ mm.nodes, node.Off (mm.mmtrunc addr) (mm.mmceil size) := by
      intro node mem
      have small := (wellFormed.regions.ordered.of_mem mem).2.2.trans_lt wellFormed.fits
      exact (MMNode.off_iff small rangeSmall).mpr (adds.off node mem)
    rw [List.flatMap_cons, (flatMap_cut_off nodesOff).1]
    -- The region itself is its range.
    obtain ⟨node, same⟩ : ∃ node : MMNode, node = ⟨id, mm.mmtrunc addr, mm.mmceil size, info⟩ :=
      ⟨_, rfl⟩
    have first : node.first = (mm.mmtrunc addr).toNat := by
      rw [same]
      rfl
    have behind : node.behind = (mm.mmtrunc addr).toNat + (mm.mmceil size).toNat := by
      rw [same]
      rfl
    have nodeSmall : node.behind < 2 ^ 64 := behind.trans_lt rangeSmall
    have meets : ¬node.Off (mm.mmtrunc addr) (mm.mmceil size) := by
      rw [MMNode.off_iff nodeSmall rangeSmall, first, behind]
      omega
    have itself : node.cut made (mm.mmtrunc addr) (mm.mmceil size) = [] := by
      rw [MMNode.cut_eq nodeSmall rangeSmall meets, first, behind, if_neg (Nat.lt_irrefl _),
        if_neg (Nat.lt_irrefl _)]
      rfl
    rw [← same, itself]
    exact List.Perm.refl _

/-- No page of the range is recorded. -/
def Free (mm : MMAddrSpace) (addr size : Word) : Prop :=
  ∀ q, InRange (mm.mmtrunc addr) (mm.mmceil size) q → infoAt mm.nodes q = none

/-- Regions that record no page of a range do not reach into it. -/
theorem Free.off (free : mm.Free addr size) (sound : mm.Sound) (pages : mm.mmceil size ≠ 0) :
    NodesOff (mm.mmtrunc addr).toNat ((mm.mmtrunc addr).toNat + (mm.mmceil size).toNat)
      mm.nodes := by
  intro node mem
  have nonempty := sound.wellFormed.regions.nonempty node mem
  have length : node.first + node.len.toNat = node.behind := rfl
  have pos : 0 < (mm.mmceil size).toNat :=
    Nat.pos_of_ne_zero fun zero => pages (BitVec.eq_of_toNat_eq zero)
  by_contra reaches
  have here := free (max node.first (mm.mmtrunc addr).toNat) (by rw [InRange]; omega)
  rw [infoAt, Option.map_eq_none_iff, lookup_eq_none_iff] at here
  have ends := here node mem (by omega)
  omega

end MMAddrSpace

variable {os : Os} {h h' : OsMem} {box box' : LPSBox} {prot flags : CInt} {fd : Int} {off : Word}
  {info : MMInfo}

/-! ## The tracker on a host -/

/-- Programs that only allocate change no page. -/
theorem unchanged_of_mallocs {α : Type} {prog : HostProg α} {post : α → Prop} {value : α}
    (meets : prog.Meets ⟨fun _ _ => True, fun c => c = .malloc, fun _ => True⟩ post)
    (returns : prog.Returns os.answer h value h') : h.Unchanged h' q := by
  apply meets.frame (fun h h' => OsMem.Unchanged h h' q) _ _ _ (fun _ _ => trivial) returns
  · exact fun _ => .refl
  · exact fun first second => first.trans second
  · rintro c h rfl
    exact OsMem.Unchanged.refl.log _

/-- `mm_mapany` adds a region or changes nothing. -/
theorem mmMapany_result (ok : box.Ok) (sound : box.mm.Sound) (pages : box.mm.mmceil size ≠ 0)
    (returns : (box.mm.mmMapany size prot flags fd off).Returns os.answer h (p, mm') h') :
    (∀ q, h.Unchanged h' q) ∧ (p = -1 ∧ mm' = box.mm ∨
      box.mm.aligned p = true ∧ box.mm.Inside (box.mm.mmtrunc p) (box.mm.mmceil size) ∧
        box.mm.Adds p size { prot, flags, fd, offset := off } mm') := by
  have paged := ok.tracked.paged
  constructor
  · intro q
    exact unchanged_of_mallocs (MMAddrSpace.mmMapany_inOrder sound.inOrder rfl) returns
  obtain ⟨keeps, result⟩ := (@MMAddrSpace.mmMapany_inOrder box.mm permitted size prot flags fd off
    sound.inOrder trivial).returns (fun _ _ => trivial) returns
  rcases result with ⟨rfl, rfl, -⟩ | ⟨page, rfl, placed, -⟩
  · exact .inl ⟨rfl, rfl⟩
  · have small : page.toNat < 2 ^ (64 - box.mm.p2pagesize) := by
      rw [paged]
      exact (Nat.le_add_right _ _).trans_lt (placed.below.trans_lt ok.pages_lt)
    obtain ⟨isAligned, trunc⟩ := MMAddrSpace.toNat_pageAddr_of_lt sound.wellFormed.paged small
    refine .inr ⟨isAligned, ?_, sound.placed pages keeps placed, keeps, ?_, box.mm.made, ?_⟩
    · rw [trunc]
      exact ⟨placed.above, placed.below⟩
    · rw [trunc]
      exact placed.off
    · rw [trunc]
      exact placed.perm

/-- In a free range `mm_mapat_cb` adds a region, or changes nothing and returns no address of
a page. -/
theorem mmMapatCb_free (ok : box.Ok) (sound : box.mm.Sound) (pages : box.mm.mmceil size ≠ 0)
    (free : box.mm.Free addr size)
    (returns : (box.mm.mmMapatCb addr size prot flags fd off cbunmap).Returns os.answer h (p, mm')
      h') :
    (∀ q, h.Unchanged h' q) ∧ (box.mm.aligned p = false ∧ mm' = box.mm ∨
      p = addr ∧ box.mm.aligned addr = true ∧
        box.mm.Inside (box.mm.mmtrunc addr) (box.mm.mmceil size) ∧
        box.mm.Adds addr size { prot, flags, fd, offset := off } mm') := by
  have wellFormed := sound.wellFormed
  have nodesOff := free.off sound pages
  have keeps := ((@MMAddrSpace.mmMapatCb_inOrder box.mm permitted cbunmap (fun _ _ => True) addr size
    prot flags fd off sound.inOrder (Handles.pages (handles_all (fun _ => trivial)
      (fun _ => trivial) cbunmap) ok.tracked.paged) trivial (fun _ => covers_all ..)
    fun _ _ _ => trivial).returns (fun _ _ => trivial) returns).1
  have kept := ((@MMAddrSpace.mmMapatCb_sound box.mm addr size cbunmap permitted prot flags fd off
    sound pages (fun _ => trivial) fun _ => trivial).returns (fun _ _ => trivial) returns).1
  by_cases accepted : box.mm.aligned addr = true ∧
      box.mm.mmvalid (box.mm.mmtrunc addr) (box.mm.mmceil size) = true
  · obtain ⟨isAligned, valid⟩ := accepted
    have inside := (MMAddrSpace.valid_iff wellFormed.paged wellFormed.fits).mp valid
    have rangeSmall := inside.2.trans_lt wellFormed.fits
    have cut : ∀ node ∈ box.mm.nodes, node.Off (box.mm.mmtrunc addr) (box.mm.mmceil size) := by
      intro node mem
      have small := (wellFormed.regions.ordered.of_mem mem).2.2.trans_lt wellFormed.fits
      exact (MMNode.off_iff small rangeSmall).mpr (nodesOff node mem)
    obtain ⟨cuts, overlaps⟩ := @flatMap_cut_off _ _ (box.mm.made + 1) _ cut
    obtain ⟨cursor, maps, -⟩ := @MMAddrSpace.mmMapatCb_eq box.mm addr size cbunmap prot flags fd off
      wellFormed sound.admissible pages
    have page : box.mm.mmtrunc addr <<< box.mm.p2pagesize = addr :=
      MMAddrSpace.shiftLeft_mmtrunc wellFormed.paged isAligned
    rw [maps] at returns
    simp only [MMAddrSpace.mapatPlain, isAligned, valid, cuts, overlaps, page, callAll, malloc,
      Bool.not_true, Bool.false_eq_true, if_false, pure_bind, Prog.returns_bind,
      Prog.returns_ask] at returns
    obtain ⟨memory, middle, answered, rest⟩ := returns
    cases answered
    split at rest
    · cases rest
      exact ⟨fun q => OsMem.Unchanged.refl.log _,
        .inl ⟨(MMAddrSpace.errors_unaligned ⟨by rw [ok.tracked.paged]; decide, wellFormed.paged.2⟩).1, rfl⟩⟩
    simp only [Prog.returns_bind, Prog.returns_ask] at rest
    obtain ⟨memory', middle', answered', rest⟩ := rest
    cases answered'
    split at rest
    · exact absurd rest Prog.returns_fault
    cases rest
    exact ⟨fun q => (OsMem.Unchanged.refl.log _).log _, .inr ⟨rfl, isAligned, inside, kept, keeps,
      nodesOff, box.mm.made, place_perm⟩⟩
  · rw [MMAddrSpace.mmMapatCb_rejects accepted, Prog.returns_pure] at returns
    obtain ⟨same, rfl⟩ := returns
    cases same
    have errors := @MMAddrSpace.errors_unaligned box.mm ⟨by rw [ok.tracked.paged]; decide,
      wellFormed.paged.2⟩
    refine ⟨fun q => .refl, .inl ⟨?_, rfl⟩⟩
    split
    · exact errors.2
    · exact errors.1

/-- In any range `mm_mapat_cb` records the info, or changes nothing and returns no address of a
page. -/
theorem mmMapatCb_records (ok : box.Ok) (sound : box.mm.Sound) (pages : box.mm.mmceil size ≠ 0)
    (returns : (box.mm.mmMapatCb addr size prot flags fd off cbunmap).Returns os.answer h (p, mm')
      h') :
    (box.mm.aligned p = false ∧ mm' = box.mm ∧ ∀ q, h.Unchanged h' q) ∨
      p = addr ∧ box.mm.aligned addr = true ∧
        box.mm.Inside (box.mm.mmtrunc addr) (box.mm.mmceil size) ∧
        ∀ q, InPages addr size q → infoAt mm'.nodes q = some { prot, flags, fd, offset := off } := by
  have wellFormed := sound.wellFormed
  have errors := @MMAddrSpace.errors_unaligned box.mm ⟨by rw [ok.tracked.paged]; decide,
    wellFormed.paged.2⟩
  by_cases accepted : box.mm.aligned addr = true ∧
      box.mm.mmvalid (box.mm.mmtrunc addr) (box.mm.mmceil size) = true
  · obtain ⟨isAligned, valid⟩ := accepted
    have inside := (MMAddrSpace.valid_iff wellFormed.paged wellFormed.fits).mp valid
    obtain ⟨calls, last, nodes', does, -, -, maps⟩ := @MMAddrSpace.mmMapatCb_pages _ _ _
      prot flags fd off sound.inOrder isAligned pages inside
    rw [does] at returns
    simp only [MMAddrSpace.replace, malloc, Prog.returns_bind, Prog.returns_ask] at returns
    obtain ⟨memory, middle, answered, rest⟩ := returns
    cases answered
    split at rest
    · cases rest
      exact .inl ⟨errors.1, rfl, fun q => OsMem.Unchanged.refl.log _⟩
    simp only [Prog.returns_bind, Prog.returns_ask] at rest
    obtain ⟨memory', middle', answered', rest⟩ := rest
    cases answered'
    split at rest
    · exact absurd rest Prog.returns_fault
    simp only [Prog.returns_bind, Prog.returns_pure, Prod.mk.injEq] at rest
    obtain ⟨_, _, -, ⟨rfl, rfl⟩, -⟩ := rest
    refine .inr ⟨rfl, isAligned, inside, fun q mem => ?_⟩
    rw [maps, if_pos ((MMAddrSpace.inPages_iff ok.tracked.paged).mp mem)]
  · rw [MMAddrSpace.mmMapatCb_rejects accepted, Prog.returns_pure] at returns
    obtain ⟨same, rfl⟩ := returns
    cases same
    refine .inl ⟨?_, rfl, fun q => .refl⟩
    split
    · exact errors.2
    · exact errors.1

/-! ## The host -/

/-- The host has a mapping of its own for every page of a range. -/
def OsMem.Mapped (h : OsMem) (addr size : Word) (prot flags : CInt) (fd : Int) (off : Word) : Prop :=
  ∀ q, InPages addr size q →
    h.page q = some ⟨prot, flags, fd, off + BitVec.ofNat 64 (4096 * (q - addr.toNat / 4096)), false⟩

/-- The end of a mapping: the host has made it, or has refused it. -/
theorem mapTracked_returns (address : addr ≠ -1)
    (returns : (box.mapTracked addr size prot flags fd off).Returns os.answer h (p, box') h') :
    (p = addr ∧ box' = box ∧ h'.Mapped addr size prot (flags ||| MAP_FIXED) fd off) ∨
      p = -1 ∧
        (placeable addr size →
          os.grants h.made (.mmap addr size prot (flags ||| MAP_FIXED) fd off) = false) ∧
        ∃ r mm', box' = { box with mm := mm' } ∧
          (box.mm.mmUnmap addr size).Returns os.answer
            (h.log (.mmap addr size prot (flags ||| MAP_FIXED) fd off)) (r, mm') h' := by
  simp only [LPSBox.mapTracked, mmap, Prog.returns_bind, Prog.returns_ask] at returns
  obtain ⟨mem, middle, answered, rest⟩ := returns
  rcases Os.answer_mmap answered with ⟨rfl, -, rfl⟩ | ⟨rfl, refused, rfl⟩
  · rw [if_neg address, Prog.returns_pure, Prod.mk.injEq] at rest
    obtain ⟨⟨rfl, rfl⟩, rfl⟩ := rest
    exact .inl ⟨rfl, rfl, fun q mem => if_pos mem⟩
  · rw [if_pos rfl] at rest
    simp only [Prog.returns_bind, Prog.returns_pure, Prod.mk.injEq] at rest
    obtain ⟨⟨r, mm'⟩, last, unmapped, ⟨rfl, rfl⟩, rfl⟩ := rest
    exact .inr ⟨rfl, refused, r, mm', rfl, unmapped⟩

/-- A new region for which the host refuses the mapping is taken back. -/
theorem mapTracked_restores (ok : box.Ok) (sound : mm.Sound)
    (adds : mm.Adds addr size info box.mm) (isAligned : mm.aligned addr = true)
    (inside : mm.Inside (mm.mmtrunc addr) (mm.mmceil size)) (pages : mm.mmceil size ≠ 0)
    (recovers : os.Recovers)
    (returns : (box.mapTracked addr size prot flags fd off).Returns os.answer h (p, box') h') :
    (p = addr ∧ box' = box ∧ h'.Mapped addr size prot (flags ||| MAP_FIXED) fd off) ∨
      p = -1 ∧ box'.mm.nodes = mm.nodes ∧ ∀ q, h.Unchanged h' q := by
  have paged := ok.tracked.paged
  have wellFormed := adds.sound.wellFormed
  have isAligned' := adds.keeps.aligned isAligned
  have inside' := adds.keeps.inside inside
  have trunc : box.mm.mmtrunc addr = mm.mmtrunc addr := by
    rw [MMAddrSpace.mmtrunc, adds.keeps.p2pagesize]
    rfl
  have ceil : box.mm.mmceil size = mm.mmceil size := by
    rw [MMAddrSpace.mmceil, adds.keeps.p2pagesize]
    rfl
  have address : addr ≠ -1 := ne_neg_one_of_page ((MMAddrSpace.aligned_iff paged).mp isAligned')
  rcases mapTracked_returns address returns with mapped | ⟨rfl, refused, r, mm', rfl, unmapped⟩
  · exact .inl mapped
  refine .inr ⟨rfl, ?_⟩
  have nonzero : size ≠ 0 := by
    rintro rfl
    exact pages (MMAddrSpace.mmceil_zero (by rw [← adds.keeps.p2pagesize]; exact wellFormed.paged))
  have somePages : hostPages size ≠ 0 := by
    rw [← MMAddrSpace.mmceil_hostPages paged, ceil]
    exact fun zero => pages (BitVec.eq_of_toNat_eq zero)
  have places : placeable addr size := ⟨(MMAddrSpace.aligned_iff paged).mp isAligned', somePages⟩
  have memory := recovers h.made addr size prot (flags ||| MAP_FIXED) fd off places (refused places)
  obtain ⟨cursor, unmaps, -⟩ := @MMAddrSpace.mmUnmapCb_eq box.mm addr size noUpdate wellFormed
    adds.sound.admissible (by rw [ceil]; exact pages)
  have valid := (MMAddrSpace.valid_iff wellFormed.paged wellFormed.fits).mpr inside'
  rw [MMAddrSpace.mmUnmap, unmaps] at unmapped
  simp only [MMAddrSpace.unmapPlain, isAligned', nonzero, valid, callAll_noUpdate, malloc,
    decide_false, Bool.not_true, Bool.or_false, Bool.false_eq_true, if_false, pure_bind,
    Prog.returns_bind, Prog.returns_ask] at unmapped
  obtain ⟨memory', middle, answered, rest⟩ := unmapped
  cases answered
  rw [if_neg (by simp [OsMem.log, memory])] at rest
  cases rest
  refine ⟨?_, fun q => (OsMem.Unchanged.refl.log _).log _⟩
  change box.mm.nodes.flatMap _ = _
  rw [trunc, ceil]
  exact adds.cut_eq sound pages inside

/-- An address that is none is refused, and nothing changes. -/
theorem mapTracked_unaligned (paged : box.mm.p2pagesize = 12) (unaligned : box.mm.aligned addr = false)
    (returns : (box.mapTracked addr size prot flags fd off).Returns os.answer h (p, box') h') :
    p = -1 ∧ box'.mm.nodes = box.mm.nodes ∧ ∀ q, h.Unchanged h' q := by
  have stray : ¬box.mm.aligned addr = true := Bool.eq_false_iff.mp unaligned
  have refused : ¬placeable addr size := fun places =>
    stray ((MMAddrSpace.aligned_iff paged).mpr places.1)
  simp only [LPSBox.mapTracked, mmap, Prog.returns_bind, Prog.returns_ask] at returns
  obtain ⟨mem, middle, answered, rest⟩ := returns
  rcases Os.answer_mmap answered with ⟨-, places, -⟩ | ⟨rfl, -, rfl⟩
  · exact absurd places refused
  · rw [if_pos rfl, MMAddrSpace.mmUnmap, MMAddrSpace.mmUnmapCb_rejects fun accepted => stray accepted.1]
      at rest
    simp only [pure_bind, Prog.returns_pure, Prod.mk.injEq] at rest
    obtain ⟨⟨rfl, rfl⟩, rfl⟩ := rest
    exact ⟨rfl, rfl, fun q => OsMem.Unchanged.refl.log _⟩

/-! ## The operations of a box -/

/-- A range of the box is recorded in the tracker and mapped by the host. -/
structure MapsRange (box box' : LPSBox) (h' : OsMem) (addr size : Word) (prot flags : CInt) (fd : Int)
    (off : Word) : Prop where
  aligned : addr.toNat % 4096 = 0
  inside : box.mm.Inside (box.mm.mmtrunc addr) (box.mm.mmceil size)
  recorded : ∀ q, InPages addr size q →
    infoAt box'.mm.nodes q = some { prot, flags, fd, offset := off }
  mapped : h'.Mapped addr size prot (flags ||| MAP_FIXED) fd off

/-- The regions are the same as before, and no page has changed. -/
structure Restored (box box' : LPSBox) (h h' : OsMem) : Prop where
  nodes : box'.mm.nodes = box.mm.nodes
  pages : ∀ q, h.Unchanged h' q

theorem MMAddrSpace.Adds.recorded {mm : MMAddrSpace} (adds : mm.Adds addr size info mm')
    (sound : mm.Sound) (paged : mm.p2pagesize = 12) (inPages : InPages addr size q) :
    infoAt mm'.nodes q = some info := by
  rw [adds.infos sound, if_pos ((inPages_iff paged).mp inPages)]

/-- `lps_box_mapany` maps a range, or leaves everything as it was. -/
theorem lpsBoxMapany_result (ok : box.Ok) (sound : box.mm.Sound) (pages : box.mm.mmceil size ≠ 0)
    (recovers : os.Recovers)
    (returns : (lpsBoxMapany box size prot flags fd off).Returns os.answer h (p, box') h') :
    p = -1 ∧ Restored box box' h h' ∨ MapsRange box box' h' p size prot flags fd off := by
  simp only [lpsBoxMapany, Prog.returns_bind] at returns
  obtain ⟨⟨p', mm'⟩, middle, tracked, rest⟩ := returns
  have paged := ok.tracked.paged
  obtain ⟨same, ⟨rfl, rfl⟩ | ⟨isAligned, inside, adds⟩⟩ := mmMapany_result ok sound pages tracked
  · rw [if_pos rfl, Prog.returns_pure, Prod.mk.injEq] at rest
    obtain ⟨⟨rfl, rfl⟩, rfl⟩ := rest
    exact .inl ⟨rfl, rfl, same⟩
  · have multiple := (MMAddrSpace.aligned_iff paged).mp isAligned
    have address : p' ≠ -1 := ne_neg_one_of_page multiple
    rw [if_neg address] at rest
    have kept := (ok.withMM (ok.tracked.keeps_of adds.keeps)).ok
    rcases mapTracked_restores kept sound adds isAligned inside pages recovers rest with
      ⟨rfl, rfl, mapped⟩ | ⟨rfl, nodes, after⟩
    · exact .inr ⟨multiple, inside, fun q mem => adds.recorded sound paged mem, mapped⟩
    · exact .inl ⟨rfl, nodes, fun q => (same q).trans (after q)⟩

/-- What `lps_box_mapat` returns, unless it is `-1`, is the address, and the range is mapped. -/
theorem lpsBoxMapat_mapped (ok : box.Ok) (mapped : p ≠ -1)
    (returns : (lpsBoxMapat box addr size prot flags fd off).Returns os.answer h (p, box') h') :
    p = addr ∧ h'.Mapped addr size prot (flags ||| MAP_FIXED) fd off := by
  have same : p = addr := by
    have may : box.MayMapat hosted addr size prot flags fd off :=
      LPSBox.mayMapat_all (fun _ => trivial) fun _ => trivial
    have result := ((LPSBox.lpsBoxMapat_meets ok may).returns os.answer_hosted returns).2
    rcases result.resolve_left mapped with ⟨-, ⟨-, -, -, reply⟩ | ⟨-, reply⟩⟩
    · exact (reply.resolve_left mapped).1
    · exact absurd (reply.resolve_left mapped).2.1 (by decide)
  refine ⟨same, ?_⟩
  simp only [lpsBoxMapat, Prog.returns_bind, Prog.returns_check] at returns
  obtain ⟨_, _, ⟨-, rfl⟩, ⟨p', mm'⟩, middle, -, rest⟩ := returns
  by_cases address : p' = -1
  · rw [if_pos address, Prog.returns_pure, Prod.mk.injEq] at rest
    exact absurd rest.1.1.symm mapped
  · rw [if_neg address] at rest
    rcases mapTracked_returns address rest with ⟨rfl, -, made⟩ | ⟨none, -⟩
    · rwa [same] at made
    · exact absurd none mapped

/-- `lps_box_mapat` maps a range, or leaves everything as it was, if the host grants whatever
replaces a mapping. -/
theorem lpsBoxMapat_result (ok : box.Ok) (sound : box.mm.Sound) (recovers : os.Recovers)
    (grants : ¬box.mm.Free addr size → ∀ made,
      os.grants made (.mmap addr size prot (flags ||| MAP_FIXED) fd off) = true)
    (returns : (lpsBoxMapat box addr size prot flags fd off).Returns os.answer h (p, box') h') :
    p = -1 ∧ Restored box box' h h' ∨
      p = addr ∧ box.mm.mmceil size ≠ 0 ∧ MapsRange box box' h' addr size prot flags fd off := by
  have paged := ok.tracked.paged
  have wellFormed := sound.wellFormed
  have errors := @MMAddrSpace.errors_unaligned box.mm ⟨by rw [paged]; decide, wellFormed.paged.2⟩
  simp only [lpsBoxMapat, Prog.returns_bind, Prog.returns_check] at returns
  obtain ⟨_, _, ⟨-, rfl⟩, ⟨p', mm'⟩, middle, tracked, rest⟩ := returns
  have keeps := ((@MMAddrSpace.mmMapatCb_inOrder box.mm permitted cbunmap (fun _ _ => True) addr size
    prot flags fd off sound.inOrder (Handles.pages (handles_all (fun _ => trivial)
      (fun _ => trivial) cbunmap) paged) trivial (fun _ => covers_all ..)
    fun _ _ _ => trivial).returns (fun _ _ => trivial) tracked).1
  have kept := (ok.withMM (ok.tracked.keeps_of keeps)).ok
  -- What is no address of a page ends in an error that changes nothing.
  have fails : box.mm.aligned p' = false → mm' = box.mm → (∀ q, h.Unchanged middle q) →
      p = -1 ∧ Restored box box' h h' := by
    rintro unaligned rfl same
    by_cases address : p' = -1
    · rw [if_pos address, Prog.returns_pure, Prod.mk.injEq] at rest
      obtain ⟨⟨rfl, rfl⟩, rfl⟩ := rest
      exact ⟨rfl, rfl, same⟩
    · rw [if_neg address] at rest
      obtain ⟨rfl, nodes, after⟩ := mapTracked_unaligned paged unaligned rest
      exact ⟨rfl, nodes, fun q => (same q).trans (after q)⟩
  by_cases pages : box.mm.mmceil size = 0
  · refine .inl ?_
    by_cases accepted : box.mm.aligned addr = true ∧
        box.mm.mmvalid (box.mm.mmtrunc addr) (box.mm.mmceil size) = true
    · have inside := (MMAddrSpace.valid_iff wellFormed.paged wellFormed.fits).mp accepted.2
      rw [MMAddrSpace.mmMapatCb_noPages sound.inOrder accepted.1 pages inside] at tracked
      simp only [malloc, Prog.returns_bind, Prog.returns_ask] at tracked
      obtain ⟨memory, middle', answered, stopped⟩ := tracked
      cases answered
      split at stopped
      · cases stopped
        exact fails errors.1 rfl fun q => OsMem.Unchanged.refl.log _
      · exact absurd stopped Prog.returns_fault
    · rw [MMAddrSpace.mmMapatCb_rejects accepted, Prog.returns_pure] at tracked
      obtain ⟨same, rfl⟩ := tracked
      cases same
      refine fails ?_ rfl fun q => .refl
      split
      · exact errors.2
      · exact errors.1
  by_cases free : box.mm.Free addr size
  · obtain ⟨same, ⟨unaligned, unchanged⟩ | ⟨rfl, isAligned, inside, adds⟩⟩ :=
      mmMapatCb_free ok sound pages free tracked
    · exact .inl (fails unaligned unchanged same)
    have multiple := (MMAddrSpace.aligned_iff paged).mp isAligned
    have address : p' ≠ -1 := ne_neg_one_of_page multiple
    rw [if_neg address] at rest
    rcases mapTracked_restores kept sound adds isAligned inside pages recovers rest with
      ⟨rfl, rfl, mapped⟩ | ⟨rfl, nodes, after⟩
    · exact .inr ⟨rfl, pages, multiple, inside, fun q mem => adds.recorded sound paged mem, mapped⟩
    · exact .inl ⟨rfl, nodes, fun q => (same q).trans (after q)⟩
  · rcases mmMapatCb_records ok sound pages tracked with
      ⟨unaligned, unchanged, same⟩ | ⟨rfl, isAligned, inside, recorded⟩
    · exact .inl (fails unaligned unchanged same)
    have multiple := (MMAddrSpace.aligned_iff paged).mp isAligned
    have address : p' ≠ -1 := ne_neg_one_of_page multiple
    rw [if_neg address] at rest
    rcases mapTracked_returns address rest with ⟨rfl, rfl, mapped⟩ | ⟨-, refused, -⟩
    · exact .inr ⟨rfl, pages, multiple, inside, recorded, mapped⟩
    · have somePages : hostPages size ≠ 0 := by
        rw [← MMAddrSpace.mmceil_hostPages paged]
        exact fun zero => pages (BitVec.eq_of_toNat_eq zero)
      exact absurd ((grants free _).symm.trans (refused ⟨multiple, somePages⟩)) (by decide)

end Lps.Core

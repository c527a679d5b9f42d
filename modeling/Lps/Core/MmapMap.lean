import Lps.Core.MmapPages
import Lps.Core.MmapRun

/-!
# What the operations of a tracker do to its map

On a well-formed tracker unmapping removes exactly its range from the map from pages to
infos, mapping at an address overwrites exactly its range, and mapping anywhere fills pages
that were free.  Callbacks report exactly the pages that are taken out.
-/

namespace Lps.Core

open Lps.Program Lps.Interval

namespace MMAddrSpace

variable {mm mm' : MMAddrSpace} {addr length : Word} {prot flags : CInt} {fd : Int} {offset : Word}

/-- The callbacks report the mapped pages of a range: in order, none with an empty range,
and each page with the info of its region. -/
structure Reports (mm : MMAddrSpace) (addr length : Word) (calls : List Revoked) : Prop where
  nonempty : ∀ call ∈ calls, 0 < call.2.1.toNat
  ascending : calls.Pairwise fun call later => call.1.toNat + call.2.1.toNat ≤ later.1.toNat
  exact : ∀ page, revokedAt calls page =
    if InRange addr length page then infoAt mm.nodes page else none

/-- What is unmapped from regions that are not empty is reported. -/
theorem Sound.reports {calls : List Revoked} {lo hi : Nat} {nodes' : List MMNode}
    (sound : mm.Sound) (pages : length ≠ 0)
    (unmaps : Unmaps addr length lo hi mm.nodes calls nodes') : mm.Reports addr length calls where
  nonempty := unmaps.nonempty sound.wellFormed.regions.nonempty
    (Nat.pos_of_ne_zero fun zero => pages (BitVec.eq_of_toNat_eq zero))
  ascending := unmaps.inOrder.pairwise
  exact := unmaps.revoked

/-- A length without bytes has no pages. -/
theorem mmceil_zero (paged : 0 < mm.p2pagesize ∧ mm.p2pagesize < 31) : mm.mmceil 0 = 0 := by
  have pos := Nat.two_pow_pos mm.p2pagesize
  have sum : (0 : Word) + (↑(1 <<< mm.p2pagesize) - 1) = ↑(1 <<< mm.p2pagesize) - 1 :=
    BitVec.zero_add _
  apply BitVec.eq_of_toNat_eq
  rw [mmceil_eq paged, sum, BitVec.toNat_ushiftRight, Nat.shiftRight_eq_div_pow,
    toNat_pageMask (by omega), Nat.div_eq_of_lt (by omega)]
  rfl

/-- A range of pages is accepted by `mm_unmap_cb` when it is aligned and in the space: it is
unmapped and reported.  Otherwise nothing happens. -/
theorem mmUnmapCb_unmaps (sound : mm.Sound) (pages : mm.mmceil length ≠ 0) :
    (mm.aligned addr = true ∧ mm.Inside (mm.mmtrunc addr) (mm.mmceil length) →
      ∃ calls mm', (∀ ufn, mm.mmUnmapCb addr length ufn = do
          if !(← malloc) then return (-1, mm)
          callAll mm ufn calls
          return (0, mm')) ∧
        (∀ page, infoAt mm'.nodes page =
          if InRange (mm.mmtrunc addr) (mm.mmceil length) page then none
          else infoAt mm.nodes page) ∧
        mm.Reports (mm.mmtrunc addr) (mm.mmceil length) calls) ∧
      (¬(mm.aligned addr = true ∧ mm.Inside (mm.mmtrunc addr) (mm.mmceil length)) →
        ∃ r < 0, ∀ ufn, mm.mmUnmapCb addr length ufn = pure (r, mm)) := by
  have inOrder := sound.inOrder
  constructor
  · rintro ⟨isAligned, inside⟩
    have nonzero : length ≠ 0 := by
      rintro rfl
      exact pages (mmceil_zero inOrder.paged)
    obtain ⟨calls, mm', does, -, -, -, unmaps⟩ := mmUnmapCb_pages inOrder isAligned nonzero inside
    exact ⟨calls, mm', does, unmaps.left, sound.reports pages unmaps⟩
  · intro outside
    refine ⟨-MM_EINVAL, by decide, mmUnmapCb_rejects ?_⟩
    rintro ⟨isAligned, -, valid⟩
    exact outside ⟨isAligned, (valid_iff inOrder.paged inOrder.fits).mp valid⟩

/-- A range over the end of one region and the start of another. -/
theorem mmUnmapCb_unmaps_twoRegions :
    ∃ calls mm', (∀ ufn, twoRegions.mmUnmapCb 0x102000 0x3000 ufn = do
        if !(← malloc) then return (-1, twoRegions)
        callAll twoRegions ufn calls
        return (0, mm')) ∧
      infoAt mm'.nodes 0x101 = infoAt twoRegions.nodes 0x101 ∧ infoAt mm'.nodes 0x102 = none ∧
      revokedAt calls 0x103 = none ∧ revokedAt calls 0x104 = infoAt twoRegions.nodes 0x104 := by
  obtain ⟨calls, mm', does, left, reports⟩ :=
    (@mmUnmapCb_unmaps twoRegions 0x102000 0x3000 twoRegions_sound (by decide)).1
      ⟨by decide, by decide, by decide⟩
  refine ⟨calls, mm', does, left _, left _, ?_, ?_⟩
  · exact reports.exact _
  · exact reports.exact _

/-- Neither error code is the address of a page. -/
theorem errors_unaligned (wide : 1 < mm.p2pagesize ∧ mm.p2pagesize < 31) :
    mm.aligned (-1) = false ∧ mm.aligned (BitVec.ofInt 64 (-MM_EINVAL)) = false := by
  have size : 2 ^ mm.p2pagesize = 4 * 2 ^ (mm.p2pagesize - 2) := by
    rw [← Nat.pow_add 2 2, Nat.add_sub_cancel' wide.1]
  have odd : ∀ code : Word, code.toNat % 4 ≠ 0 → mm.aligned code = false := by
    intro code rest
    rw [aligned, decide_eq_false_iff_not, umod_pageSize_eq_zero (by omega), size]
    intro whole
    apply rest
    have divides : 4 ∣ code.toNat := (Dvd.intro _ rfl).trans (Nat.dvd_of_mod_eq_zero whole)
    exact Nat.mod_eq_zero_of_dvd divides
  exact ⟨odd _ (by decide), odd _ (by decide)⟩

/-- `mm_mapat_cb` succeeds for an aligned range in the space: the range gets the new info,
and what it replaces is reported.  Otherwise nothing happens, and what is returned is not
the address of a page. -/
theorem mmMapatCb_maps (sound : mm.Sound) (wide : 1 < mm.p2pagesize) (pages : mm.mmceil length ≠ 0) :
    (mm.aligned addr = true ∧ mm.Inside (mm.mmtrunc addr) (mm.mmceil length) →
      ∃ calls mm', (∀ ufn, mm.mmMapatCb addr length prot flags fd offset ufn = do
          if !(← malloc) then return (-1, mm)
          if !(← malloc) then .fault .mapatUnmap
          callAll mm ufn calls
          return (addr, mm')) ∧
        (∀ page, infoAt mm'.nodes page =
          if InRange (mm.mmtrunc addr) (mm.mmceil length) page then some { prot, flags, fd, offset }
          else infoAt mm.nodes page) ∧
        mm.Reports (mm.mmtrunc addr) (mm.mmceil length) calls) ∧
      (¬(mm.aligned addr = true ∧ mm.Inside (mm.mmtrunc addr) (mm.mmceil length)) →
        ∃ p, mm.aligned p = false ∧
          ∀ ufn, mm.mmMapatCb addr length prot flags fd offset ufn = pure (p, mm)) := by
  have inOrder := sound.inOrder
  constructor
  · rintro ⟨isAligned, inside⟩
    obtain ⟨calls, mm', nodes', does, -, unmaps, maps⟩ :=
      @mmMapatCb_pages _ _ _ prot flags fd offset inOrder isAligned pages inside
    refine ⟨calls, mm', does, fun page => ?_, sound.reports pages unmaps⟩
    rw [maps, unmaps.left]
    split
    · rfl
    · rfl
  · intro outside
    have errors := @errors_unaligned mm ⟨wide, inOrder.paged.2⟩
    refine ⟨_, ?_, mmMapatCb_rejects ?_⟩
    · split
      · exact errors.2
      · exact errors.1
    · rintro ⟨isAligned, valid⟩
      exact outside ⟨isAligned, (valid_iff inOrder.paged inOrder.fits).mp valid⟩

/-- A mapping between two regions takes the last page of the one and the first of the other one. -/
theorem mmMapatCb_maps_twoRegions :
    ∃ calls mm', (∀ ufn, twoRegions.mmMapatCb 0x102000 0x2345 1 0x22 5 0 ufn = do
        if !(← malloc) then return (-1, twoRegions)
        if !(← malloc) then .fault .mapatUnmap
        callAll twoRegions ufn calls
        return (0x102000, mm')) ∧
      infoAt mm'.nodes 0x104 = some ⟨1, 0x22, 5, 0, false⟩ ∧
      infoAt mm'.nodes 0x105 = infoAt twoRegions.nodes 0x105 := by
  obtain ⟨calls, mm', does, maps, -⟩ :=
    (@mmMapatCb_maps twoRegions 0x102000 0x2345 1 0x22 5 0 twoRegions_sound (by decide)
      (by decide)).1 ⟨by decide, by decide, by decide⟩
  exact ⟨calls, mm', does, maps _, maps _⟩

/-! ## Mapping anywhere -/

/-- Every page of the address space has an address. -/
def Addressable (mm : MMAddrSpace) : Prop :=
  mm.base.toNat + mm.len.toNat ≤ 2 ^ (64 - mm.p2pagesize)

/-- The address of a page that has one. -/
theorem toNat_pageAddr_of_lt {page : Word} (paged : 0 < mm.p2pagesize ∧ mm.p2pagesize < 31)
    (small : page.toNat < 2 ^ (64 - mm.p2pagesize)) :
    mm.aligned (page <<< mm.p2pagesize) = true ∧ mm.mmtrunc (page <<< mm.p2pagesize) = page := by
  refine ⟨?_, shiftRight_shiftLeft_of_lt (by omega) small⟩
  rw [aligned, decide_eq_true_eq, umod_pageSize_eq_zero (by omega),
    toNat_shiftLeft_of_lt (by omega) small, Nat.mul_mod_left]

/-- What `mm_mapany` returns is the address of free pages of the space, which get the info,
and no other page changes.  When it fails the regions stay. -/
theorem mmMapany_adds {len p : Word} (sound : mm.Sound) (addressable : mm.Addressable)
    (pages : mm.mmceil len ≠ 0) {host : Prog.Host HostCall HostReply} {made : List HostCall}
    (returned : ((mm.mmMapany len prot flags fd offset).run host made).2 = .ok (p, mm')) :
    (p ≠ -1 → mm.aligned p = true ∧ mm.Inside (mm.mmtrunc p) (mm.mmceil len) ∧
        (∀ page, InRange (mm.mmtrunc p) (mm.mmceil len) page → infoAt mm.nodes page = none) ∧
        ∀ page, infoAt mm'.nodes page =
          if InRange (mm.mmtrunc p) (mm.mmceil len) page then some { prot, flags, fd, offset }
          else infoAt mm.nodes page) ∧
      (p = -1 → mm'.nodes = mm.nodes) := by
  have inOrder := sound.inOrder
  obtain ⟨keeps, result⟩ := (@mmMapany_inOrder mm permitted len prot flags fd offset inOrder
    trivial).run_ok (fun _ _ => trivial) made _ returned
  rcases result with ⟨rfl, rfl, -⟩ | ⟨page, rfl, placed, -⟩
  · exact ⟨fun some => absurd rfl some, fun _ => rfl⟩
  · have pos : 0 < (mm.mmceil len).toNat :=
      Nat.pos_of_ne_zero fun zero => pages (BitVec.eq_of_toNat_eq zero)
    have small : page.toNat < 2 ^ (64 - mm.p2pagesize) :=
      (Nat.lt_add_of_pos_right pos).trans_le (placed.below.trans addressable)
    obtain ⟨isAligned, trunc⟩ := toNat_pageAddr_of_lt inOrder.paged small
    obtain ⟨free, infos⟩ := placed.infos inOrder keeps
    rw [trunc]
    refine ⟨fun _ => ⟨isAligned, ⟨placed.above, placed.below⟩, free, infos⟩, fun none => ?_⟩
    exact absurd none (shiftLeft_ne_neg_one inOrder.paged.1)

/-- The gap between the regions is too small, so the pages behind the second one are taken. -/
theorem mmMapany_adds_twoRegions :
    ∃ mm', ((twoRegions.mmMapany 0x2000 3 0x22 (-1) 0).run MMHeap.servingHost []).2 =
        .ok (0x108000, mm') ∧
      infoAt twoRegions.nodes 0x109 = none ∧
      infoAt mm'.nodes 0x109 = some ⟨3, 0x22, -1, 0, false⟩ := by
  have returned : ((twoRegions.mmMapany 0x2000 3 0x22 (-1) 0).run MMHeap.servingHost []).2 =
      .ok (0x108000, _) := rfl
  have adds := (mmMapany_adds twoRegions_sound (Nat.le_of_lt (by decide)) (by decide) returned).1 (by decide)
  exact ⟨_, returned, adds.2.2.1 0x109 (by decide), adds.2.2.2 0x109⟩

end MMAddrSpace

end Lps.Core

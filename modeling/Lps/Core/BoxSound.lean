import Lps.Core.BoxPages
import Lps.Core.MmapMap

/-!
# Boxes keep their trackers sound

The operations of a box leave no empty region in its tracker, whether the host and the
allocator serve them or not.  Only `lps_box_mapany` of a length that the tracker rounds to
no pages does.
-/

namespace Lps.Core

open Lps.Program Lps.Interval

namespace MMAddrSpace

variable {mm : MMAddrSpace} {addr length : Word} {lo hi : Nat} {nodes : List MMNode}

/-- The host maps no range without pages, so the callback goes down with it. -/
theorem cbunmap_empty {info : MMInfo} {page : Word} {p2pagesize : Nat} (paged : 0 < p2pagesize) :
    (cbunmap (page <<< p2pagesize) ((0 : Word) <<< p2pagesize) info).Meets hosted fun _ => False := by
  have empty : (0 : Word) <<< p2pagesize = 0 := BitVec.zero_shiftLeft _
  rw [cbunmap, Prog.meets_bind, empty]
  refine ⟨trivial, ?_⟩
  rintro reply (rfl | ⟨-, places⟩)
  · rw [Prog.meets_ret, Prog.meets_check, if_neg]
    · trivial
    · rw [decide_eq_true_eq]
      exact fun same => shiftLeft_ne_neg_one paged same.symm
  · exact absurd rfl places.2

/-- A range without pages is cut out of nothing. -/
theorem unmapLoop_empty {old prev cursor : Option NodeId} (regions : Regions lo hi nodes)
    (fits : hi < 2 ^ 64) (paged : 0 < mm.p2pagesize) :
    (unmapLoop mm cbunmap addr 0 old nodes prev cursor).Meets hosted fun (nodes', cursor') =>
      nodes' = nodes ∧ cursor' = cursor := by
  induction nodes generalizing prev lo with
  | nil => exact ⟨rfl, rfl⟩
  | cons node rest ih =>
      have nonempty := regions.nonempty node List.mem_cons_self
      have nodeEnd := MMNode.toNat_end (regions.ordered.2.2.bounds.trans_lt fits)
      have size : node.first + node.len.toNat = node.behind := rfl
      have base : node.base.toNat = node.first := rfl
      have rangeEnd : addr + 0 = addr := BitVec.add_zero addr
      rw [unmapLoop]
      simp only [contained, Bool.and_eq_true, decide_eq_true_eq, gt_iff_lt, ge_iff_le,
        BitVec.lt_def, BitVec.le_def, nodeEnd, rangeEnd, base]
      split
      · omega
      split
      · rw [Prog.meets_bind]
        exact (cbunmap_empty paged).mono fun _ impossible => impossible.elim
      split
      · omega
      split
      · exact ⟨rfl, rfl⟩
      · rw [Prog.meets_bind]
        refine (ih regions.tail).mono ?_
        rintro ⟨nodes', cursor'⟩ ⟨rfl, rfl⟩
        exact ⟨rfl, rfl⟩

/-- Unmapping keeps the tracker, even without pages. -/
theorem mmUnmapCb_hosted (sound : mm.Sound) :
    (mm.mmUnmapCb addr length cbunmap).Meets hosted fun (_, mm') => mm'.Sound := by
  by_cases pages : mm.mmceil length = 0
  · have wellFormed := sound.wellFormed
    obtain ⟨before, nodes, starts, place, -⟩ := @unmapStart_eq mm (mm.mmtrunc addr) _ _
      wellFormed.regions.ordered sound.admissible
    have regions := wellFormed.regions
    rw [← place] at regions
    rw [mmUnmapCb]
    split
    · exact sound
    dsimp only
    split
    · exact sound
    rw [Prog.meets_bind]
    refine ⟨trivial, fun memory _ => ?_⟩
    rw [Prog.meets_ret]
    split
    · exact sound
    rw [starts, pure_bind, pages, Prog.meets_bind]
    refine (unmapLoop_empty regions.drop wellFormed.fits wellFormed.paged.1).mono ?_
    rintro ⟨nodes', cursor'⟩ ⟨rfl, rfl⟩
    rw [Prog.meets_pure]
    dsimp only
    rw [place]
    exact ⟨wellFormed.next, sound.admissible⟩
  · refine (mmUnmapCb_sound sound pages (fun _ => trivial) fun _ => trivial).mono ?_
    exact fun _ result => result.1

end MMAddrSpace

/-! ## Boxes -/

/-- The tracker of a new box is sound. -/
theorem LPSBoxInfo.track_sound {box : LPSBoxInfo}
    (fits : box.base.toNat + box.size.toNat < 2 ^ 64) : box.track.mm.Sound := by
  have ok := LPSBoxInfo.track_ok fits
  have inOrder := ok.tracked.inOrder
  refine ⟨⟨inOrder.paged, inOrder.fits, ⟨inOrder.ordered, ?_⟩, List.nodup_nil, ?_⟩, inOrder.cursor⟩
  · exact fun _ mem => absurd mem List.not_mem_nil
  · exact fun _ mem => absurd mem List.not_mem_nil

namespace LPSBox

variable {box : LPSBox} {contract : Contract HostCall HostReply Fault} {addr size : Word}
  {prot flags : CInt} {fd : Int} {off : Word}

/-- A mapping that the host refuses is taken back, unless its address is none. -/
theorem mapTracked_sound (sound : box.mm.Sound)
    (known : box.mm.aligned addr = true → box.mm.mmceil size ≠ 0)
    (calls : ∀ c, contract.calls c) (faults : ∀ reason, contract.faults reason) :
    (box.mapTracked addr size prot flags fd off).Meets contract fun (_, box') =>
      box'.mm.Sound := by
  rw [mapTracked, Prog.meets_bind]
  refine ⟨calls _, fun mem _ => ?_⟩
  rw [Prog.meets_ret]
  split
  · rw [MMAddrSpace.mmUnmap, Prog.meets_bind]
    by_cases isAligned : box.mm.aligned addr = true
    · refine (MMAddrSpace.mmUnmapCb_sound sound (known isAligned) calls faults).mono ?_
      exact fun _ result => result.1
    · rw [MMAddrSpace.mmUnmapCb_rejects fun accepted => isAligned accepted.1]
      exact sound
  · exact sound

/-- `lps_box_mapat` keeps the tracker sound. -/
theorem lpsBoxMapat_sound (ok : box.Ok) (sound : box.mm.Sound) (calls : ∀ c, contract.calls c)
    (faults : ∀ reason, contract.faults reason) :
    (lpsBoxMapat box addr size prot flags fd off).Meets contract fun (_, box') =>
      box'.mm.Sound := by
  have paged := ok.tracked.paged
  have errors := @MMAddrSpace.errors_unaligned box.mm (by rw [paged]; decide)
  rw [lpsBoxMapat, Prog.meets_bind, Prog.meets_check]
  split
  · rw [Prog.meets_bind]
    have tracks : (box.mm.mmMapatCb addr size prot flags fd off cbunmap).Meets contract
        fun result => result.2.Sound ∧ result.2.p2pagesize = box.mm.p2pagesize ∧
          (box.mm.aligned result.1 = true → box.mm.mmceil size ≠ 0) := by
      by_cases pages : box.mm.mmceil size = 0
      · by_cases accepted : box.mm.aligned addr = true ∧
            box.mm.mmvalid (box.mm.mmtrunc addr) (box.mm.mmceil size) = true
        · have inside := (MMAddrSpace.valid_iff sound.wellFormed.paged sound.wellFormed.fits).mp
            accepted.2
          rw [MMAddrSpace.mmMapatCb_noPages sound.inOrder accepted.1 pages inside, Prog.meets_bind]
          refine ⟨calls _, fun memory _ => ?_⟩
          rw [Prog.meets_ret]
          split
          · exact ⟨sound, rfl, fun isAligned =>
              absurd (errors.1.symm.trans isAligned) (by decide)⟩
          · exact faults _
        · rw [MMAddrSpace.mmMapatCb_rejects accepted]
          refine ⟨sound, rfl, fun isAligned => ?_⟩
          split at isAligned
          · exact absurd (errors.2.symm.trans isAligned) (by decide)
          · exact absurd (errors.1.symm.trans isAligned) (by decide)
      · refine (MMAddrSpace.mmMapatCb_sound sound pages calls faults).mono ?_
        exact fun _ result => ⟨result.1, result.2, fun _ => pages⟩
    refine tracks.mono ?_
    rintro ⟨p, mm'⟩ ⟨kept, same, known⟩
    dsimp only
    split
    · exact kept
    · refine mapTracked_sound kept ?_ calls faults
      dsimp only
      rw [MMAddrSpace.aligned, MMAddrSpace.mmceil, same]
      exact known
  · exact faults _

/-- `lps_box_mapany` keeps the tracker sound when there are pages to map. -/
theorem lpsBoxMapany_sound (sound : box.mm.Sound) (pages : box.mm.mmceil size ≠ 0)
    (calls : ∀ c, contract.calls c) (faults : ∀ reason, contract.faults reason) :
    (lpsBoxMapany box size prot flags fd off).Meets contract fun (_, box') => box'.mm.Sound := by
  rw [lpsBoxMapany, Prog.meets_bind]
  refine (MMAddrSpace.mmMapany_inOrder sound.inOrder (calls _)).mono ?_
  rintro ⟨p, mm'⟩ ⟨keeps, result⟩
  have kept : mm'.Sound := by
    rcases result with ⟨-, rfl, -⟩ | ⟨page, -, placed, -⟩
    · exact sound
    · exact sound.placed pages keeps placed
  dsimp only
  split
  · exact kept
  · refine mapTracked_sound kept (fun _ => ?_) calls faults
    dsimp only
    rw [MMAddrSpace.mmceil, keeps.p2pagesize]
    exact pages

/-- `lps_box_munmap` keeps the tracker sound. -/
theorem lpsBoxMunmap_sound (sound : box.mm.Sound) :
    (lpsBoxMunmap box addr size).Meets hosted fun (_, box') => box'.mm.Sound := by
  rw [lpsBoxMunmap]
  split
  · rw [Prog.meets_bind]
    exact (MMAddrSpace.mmUnmapCb_hosted sound).mono fun _ kept => kept
  · exact sound

end LPSBox

end Lps.Core

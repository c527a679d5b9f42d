import Lps.Core.BoxSound

/-!
# Boxes on a host that serves them

With memory and a host that maps every range of pages of the box, `lps_box_mapat` of a range
that the box takes maps it, and of a range that only the assertion lets pass it fails.  Every
other range brings the runtime down.
-/

namespace Lps.Core

open Lps.Program Lps.Interval

/-- There is memory, the host maps every range of pages of the box, and what `mprotect`
answers is one of these results.  The runtime must not go down. -/
def granting (box : LPSBoxInfo) (protects : Int → Prop) : Contract HostCall HostReply Fault where
  replies
    | .malloc, reply => reply = true
    | .mmap addr len _ _ _ _, reply =>
        (reply = -1 ∨ reply = addr ∧ placeable addr len) ∧
          (placeable addr len → box.Contains addr len → reply = addr)
    | .mprotect .., reply => protects reply
    | .memcpy .., _ => True
    | .memset .., _ => True
  calls _ := True
  faults _ := False

/-- Such a host has an answer to every call. -/
theorem granting_replies {box : LPSBoxInfo} {protects : Int → Prop} (some : ∃ r, protects r)
    (c : HostCall) : ∃ reply, (granting box protects).replies c reply := by
  cases c with
  | malloc => exact ⟨true, rfl⟩
  | mmap addr len prot flags fd off =>
      by_cases places : placeable addr len
      · exact ⟨addr, Or.inr ⟨rfl, places⟩, fun _ _ => rfl⟩
      · exact ⟨(-1 : Word), Or.inl rfl, fun placed => absurd placed places⟩
  | mprotect addr len prot => exact some
  | memcpy to_ count source => exact ⟨⟨⟩, trivial⟩
  | memset to_ count => exact ⟨⟨⟩, trivial⟩

variable {contract : Contract HostCall HostReply Fault} {mm : MMAddrSpace} {ufn : UpdateFn}

/-- Callbacks that all keep a contract. -/
theorem callAll_meets {calls : List Revoked}
    (handled : ∀ call ∈ calls,
      (ufn (call.1 <<< mm.p2pagesize) (call.2.1 <<< mm.p2pagesize) call.2.2).Meets contract fun _ => True) :
    (callAll mm ufn calls).Meets contract fun _ => True := by
  induction calls with
  | nil => trivial
  | cons call rest ih =>
      obtain ⟨here, later⟩ := List.forall_mem_cons.mp handled
      rw [callAll, Prog.meets_bind]
      exact here.mono fun _ _ => ih later

/-- What is called back with, and is not empty, lies in the range. -/
theorem Unmaps.within {addr length : Word} {lo hi : Nat} {nodes nodes' : List MMNode}
    {calls : List Revoked} {call : Revoked} (unmaps : Unmaps addr length lo hi nodes calls nodes')
    (mem : call ∈ calls) (pos : 0 < call.2.1.toNat) :
    addr.toNat ≤ call.1.toNat ∧ call.1.toNat + call.2.1.toNat ≤ addr.toNat + length.toNat := by
  have inside : ∀ page, InRange call.1 call.2.1 page → InRange addr length page := by
    rintro page ⟨above, below⟩
    by_contra outside
    have revoked := unmaps.revoked page
    rw [if_neg outside, revokedAt, Option.map_eq_none_iff, lookup_eq_none_iff] at revoked
    exact absurd (revoked call mem above) (Nat.not_le.mpr below)
  have first := inside call.1.toNat ⟨Nat.le_refl _, by omega⟩
  have last := inside (call.1.toNat + call.2.1.toNat - 1) ⟨by omega, by omega⟩
  exact ⟨first.1, by have := last.2; omega⟩

namespace LPSBox

variable {box box' : LPSBox} {addr size : Word} {prot flags : CInt} {fd : Int} {off : Word}
  {protects : Int → Prop}

/-- The box takes a range: it passes the assertion, and the tracker maps it. -/
def Takes (box : LPSBox) (addr size : Word) : Prop :=
  box.holds addr size = true ∧ box.mm.aligned addr = true ∧ box.accepts addr size = true ∧
    box.mm.mmceil size ≠ 0

instance (box : LPSBox) (addr size : Word) : Decidable (box.Takes addr size) :=
  inferInstanceAs (Decidable (_ ∧ _))

/-- Which tests a range passes depends on where the box is only. -/
theorem Keeps.tests (keeps : box.Keeps box') (ok : box.Ok) :
    box'.holds addr size = box.holds addr size ∧ box'.mm.aligned addr = box.mm.aligned addr ∧
      box'.accepts addr size = box.accepts addr size ∧ box'.mm.mmceil size = box.mm.mmceil size := by
  have base : box'.base = box.base := congrArg LPSBoxInfo.base keeps.info
  have length : box'.size = box.size := congrArg LPSBoxInfo.size keeps.info
  have mmBase : box'.mm.base = box.mm.base := by
    apply BitVec.eq_of_toNat_eq
    rw [keeps.ok.mmBase, ok.mmBase, base]
  have mmLen : box'.mm.len = box.mm.len := by
    apply BitVec.eq_of_toNat_eq
    rw [keeps.ok.mmLen, ok.mmLen, length]
  have paged : box'.mm.p2pagesize = box.mm.p2pagesize :=
    keeps.ok.tracked.paged.trans ok.tracked.paged.symm
  refine ⟨?_, ?_, ?_, ?_⟩
  · rw [holds, holds, base, length]
  · rw [MMAddrSpace.aligned, MMAddrSpace.aligned, paged]
  · rw [accepts, accepts, MMAddrSpace.mmvalid, MMAddrSpace.mmvalid, MMAddrSpace.mmtrunc,
      MMAddrSpace.mmtrunc, MMAddrSpace.mmceil, MMAddrSpace.mmceil, paged, mmBase, mmLen]
  · rw [MMAddrSpace.mmceil, MMAddrSpace.mmceil, paged]

theorem Keeps.takes_iff (keeps : box.Keeps box') (ok : box.Ok) :
    box'.Takes addr size ↔ box.Takes addr size := by
  obtain ⟨held, isAligned, accepted, pages⟩ := @keeps.tests _ _ addr size ok
  rw [Takes, Takes, held, isAligned, accepted, pages]

/-- What a box takes are pages that lie in it. -/
theorem Takes.contains (takes : box.Takes addr size) (ok : box.Ok) :
    box.Contains addr size ∧ placeable addr size ∧
      addr.toNat + 4096 * hostPages size ≤ box.base.toNat + box.size.toNat := by
  obtain ⟨inBox, isAligned, accepted, pages⟩ := takes
  have multiple := (MMAddrSpace.aligned_iff ok.tracked.paged).mp isAligned
  obtain ⟨contains, pos, ends⟩ := contains_of_accepts ok accepted inBox multiple pages
  have some : hostPages size ≠ 0 := by
    rw [← MMAddrSpace.mmceil_hostPages ok.tracked.paged]
    exact fun zero => pages (BitVec.eq_of_toNat_eq zero)
  refine ⟨contains, ⟨multiple, some⟩, ?_⟩
  have fits := ok.fits
  rw [hostPages]
  omega

/-- It does not start at the address that stands for a failure. -/
theorem Takes.ne_neg_one (takes : box.Takes addr size) (ok : box.Ok) : addr ≠ -1 :=
  ne_neg_one_of_page (takes.contains ok).2.1.1

/-- A range that the box takes is mapped. -/
theorem lpsBoxMapat_granted (ok : box.Ok) (sound : box.mm.Sound) (takes : box.Takes addr size) :
    (lpsBoxMapat box addr size prot flags fd off).Meets (granting box.toLPSBoxInfo protects)
      fun (p, box') => p = addr ∧ box.Keeps box' := by
  obtain ⟨contains, places, ends⟩ := takes.contains ok
  obtain ⟨inBox, isAligned, accepted, pages⟩ := takes
  have paged := ok.tracked.paged
  have inOrder := sound.inOrder
  have inside := (MMAddrSpace.valid_iff inOrder.paged inOrder.fits).mp accepted
  have multiple := (MMAddrSpace.aligned_iff paged).mp isAligned
  have address : addr ≠ -1 := ne_neg_one_of_page multiple
  obtain ⟨calls, mm', nodes', does, keeps, unmaps, -⟩ :=
    @MMAddrSpace.mmMapatCb_pages _ _ _ prot flags fd off inOrder isAligned pages inside
  have pos : 0 < (box.mm.mmceil size).toNat :=
    Nat.pos_of_ne_zero fun zero => pages (BitVec.eq_of_toNat_eq zero)
  have kept := ok.withMM (ok.tracked.keeps_of keeps)
  have fits := ok.fits
  -- Every callback is granted, as its pages lie in the range.
  have handled : ∀ call ∈ calls,
      (cbunmap (call.1 <<< box.mm.p2pagesize) (call.2.1 <<< box.mm.p2pagesize) call.2.2).Meets
        (granting box.toLPSBoxInfo protects) fun _ => True := by
    intro call mem
    have some := unmaps.nonempty sound.wellFormed.regions.nonempty pos call mem
    obtain ⟨above, below⟩ := unmaps.within mem some
    rw [MMAddrSpace.mmtrunc_toNat paged] at above below
    rw [MMAddrSpace.mmceil_hostPages paged] at below
    have pageAddr : (call.1 <<< 12).toNat = 4096 * call.1.toNat := toNat_pageAddr (by omega)
    have lenAddr : (call.2.1 <<< 12).toNat = 4096 * call.2.1.toNat := toNat_pageAddr (by omega)
    rw [paged, cbunmap, Prog.meets_bind]
    refine ⟨trivial, fun reply answered => ?_⟩
    have mapped : reply = call.1 <<< 12 := by
      apply answered.2
      · rw [placeable, pageAddr, hostPages_pageAddr (by omega)]
        omega
      · rw [LPSBoxInfo.Contains, pageAddr, lenAddr]
        have first := contains.1
        omega
    rw [Prog.meets_ret, Prog.meets_check, if_pos (by simpa using mapped)]
    trivial
  rw [lpsBoxMapat, Prog.meets_bind, Prog.meets_check, if_pos inBox, does, MMAddrSpace.replace]
  simp only [Prog.meets_bind]
  refine ⟨trivial, ?_⟩
  rintro _ rfl
  rw [Prog.meets_ret, if_neg (by decide), Prog.meets_bind]
  refine ⟨trivial, ?_⟩
  rintro _ rfl
  rw [Prog.meets_ret]
  simp only [Bool.not_true, Bool.false_eq_true, if_false, Prog.meets_bind, Prog.meets_pure]
  refine (callAll_meets handled).mono fun _ _ => ?_
  rw [if_neg address, mapTracked, Prog.meets_bind]
  refine ⟨trivial, fun reply answered => ?_⟩
  have mapped : reply = addr := answered.2 places contains
  rw [Prog.meets_ret, if_neg (mapped ▸ address)]
  exact ⟨mapped, kept⟩

/-- A range that the assertion lets pass and the tracker does not map changes nothing. -/
theorem lpsBoxMapat_declined (ok : box.Ok) (inBox : box.holds addr size = true)
    (declined : ¬(box.mm.aligned addr = true ∧ box.accepts addr size = true)) :
    (lpsBoxMapat box addr size prot flags fd off).Meets (granting box.toLPSBoxInfo protects)
      fun (p, box') => p = -1 ∧ box' = box := by
  have paged := ok.tracked.paged
  have stray : ¬box.mm.aligned (BitVec.ofInt 64 (-MM_EINVAL)) = true := by
    rw [MMAddrSpace.aligned_iff paged]
    decide
  rw [lpsBoxMapat, MMAddrSpace.mmMapatCb_rejects declined, Prog.meets_bind, Prog.meets_check,
    if_pos inBox, Prog.meets_bind, Prog.meets_pure]
  dsimp only
  split
  · rename_i isAligned
    rw [if_neg (by decide), mapTracked, Prog.meets_bind]
    refine ⟨trivial, fun reply answered => ?_⟩
    have refused : reply = -1 := answered.1.resolve_right fun placed =>
      stray ((MMAddrSpace.aligned_iff paged).mpr placed.2.1)
    rw [Prog.meets_ret, if_pos refused, MMAddrSpace.mmUnmap,
      MMAddrSpace.mmUnmapCb_rejects fun accepted => stray accepted.1]
    exact ⟨rfl, rfl⟩
  · exact ⟨rfl, rfl⟩

/-- A call that does not bring the runtime down passes the assertion and has pages. -/
theorem lpsBoxMapat_survives {post : Word × LPSBox → Prop} (sound : box.mm.Sound)
    (meets : (lpsBoxMapat box addr size prot flags fd off).Meets
      (granting box.toLPSBoxInfo protects) post) :
    box.holds addr size = true ∧ (box.mm.aligned addr = true → box.accepts addr size = true →
      box.mm.mmceil size ≠ 0) := by
  rw [lpsBoxMapat, Prog.meets_bind, Prog.meets_check] at meets
  split at meets
  · rename_i inBox
    refine ⟨inBox, fun isAligned accepted pages => ?_⟩
    have inside := (MMAddrSpace.valid_iff sound.wellFormed.paged sound.wellFormed.fits).mp accepted
    rw [MMAddrSpace.mmMapatCb_noPages sound.inOrder isAligned pages inside, Prog.meets_bind,
      Prog.meets_bind] at meets
    exact meets.2 true rfl
  · exact meets.elim

end LPSBox

/-! ## Hosts that grant -/

/-- The host has memory and maps every range of the box. -/
structure Os.Grants (os : Os) (box : LPSBoxInfo) (protects : Int → Prop) : Prop where
  memory : ∀ made, os.memory made = true
  mappings : ∀ made addr len prot flags fd off, box.Contains addr len →
    os.grants made (.mmap addr len prot flags fd off) = true
  protections : ∀ made, protects (os.protects made)

theorem Os.Grants.answer {os : Os} {box : LPSBoxInfo} {protects : Int → Prop}
    (grants : os.Grants box protects) (c : HostCall) (h : OsMem) :
    (granting box protects).replies c (os.answer c h).1 := by
  have answered := os.answer_hosted c h
  cases c with
  | malloc => exact grants.memory _
  | mmap addr len prot flags fd off =>
      refine ⟨answered, fun places contains => ?_⟩
      simp only [Os.answer]
      rw [if_pos ⟨grants.mappings _ _ _ _ _ _ _ contains, places⟩]
  | mprotect addr len prot => exact grants.protections _
  | _ => trivial

end Lps.Core

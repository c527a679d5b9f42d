import Lps.Core.OsMem
import Lps.Transition.Run

/-!
# Tracker and host agree

Over all runs of the memory operations of a box, the pages its tracker records are those
that hold a requested mapping, as long as a mapping that the host refuses can be taken back.
-/

namespace Lps.Core

open Lps.Program Lps.Interval Lps.Transition

/-- A memory operation of a box. -/
inductive BoxCall
  | mapat (addr size : Word) (prot flags : CInt) (fd : Int) (off : Word)
  | mapany (size : Word) (prot flags : CInt) (fd : Int) (off : Word)
  | munmap (addr size : Word)
  | mprotect (addr size : Word) (prot : CInt)
  deriving DecidableEq

/-- What an operation does; an `int` result is widened with its sign. -/
def BoxCall.prog (box : LPSBox) : BoxCall → HostProg (Word × LPSBox)
  | .mapat addr size prot flags fd off => lpsBoxMapat box addr size prot flags fd off
  | .mapany size prot flags fd off => lpsBoxMapany box size prot flags fd off
  | .munmap addr size => do
      let (r, box) ← lpsBoxMunmap box addr size
      return (BitVec.ofInt 64 r, box)
  | .mprotect addr size prot => do
      let r ← lpsBoxMprotect box addr size prot
      return (BitVec.ofInt 64 r, box)

/-- The host's memory when the operation has returned: what a mapping returned is requested. -/
def BoxCall.claims (p : Word) (h : OsMem) : BoxCall → OsMem
  | .mapat _ size .. => if p = -1 then h else h.claim p size
  | .mapany size .. => if p = -1 then h else h.claim p size
  | .munmap .. => h
  | .mprotect .. => h

/-- A box and the host. -/
structure BoxState where
  box : LPSBox
  host : OsMem

/-- An operation that returns. -/
def boxStep : Step BoxState (BoxCall × Os) Word := fun state event =>
  match (event.1.prog state.box).play event.2.answer { state.host with made := [] } with
  | (.ok (p, box), host) => some (⟨box, event.1.claims p host⟩, [p])
  | (.error _, _) => none

/-- When the host refuses a range of pages, the next allocation succeeds. -/
def Os.Recovers (os : Os) : Prop :=
  ∀ made addr len prot flags fd off, placeable addr len →
    os.grants made (.mmap addr len prot flags fd off) = false →
    os.memory (made ++ [.mmap addr len prot flags fd off]) = true

/-- The pages recorded in the tracker are the pages of its space that hold a requested
mapping. -/
def Agree (mm : MMAddrSpace) (h : OsMem) : Prop :=
  ∀ q, mm.base.toNat ≤ q → q < mm.base.toNat + mm.len.toNat →
    ((infoAt mm.nodes q).isSome ↔ h.Requested q)

/-- The tracker records a range, of which the host has no page yet. -/
structure Awaits (mm : MMAddrSpace) (addr size : Word) (h : OsMem) : Prop where
  recorded : ∀ q, mm.base.toNat ≤ q → q < mm.base.toNat + mm.len.toNat →
    ((infoAt mm.nodes q).isSome ↔ h.Requested q ∨ InPages addr size q)
  free : ∀ q, InPages addr size q → ¬h.Requested q

variable {os : Os} {h h' : OsMem} {mm mm' : MMAddrSpace} {box box' : LPSBox} {addr size p : Word}
  {prot flags : CInt} {fd : Int} {off : Word} {q : Nat}

/-! ## Calls of the host -/

/-- The host maps the range at the address or changes nothing. -/
theorem Os.answer_mmap {prot flags : CInt} {fd : Int} {off : Word}
    (answered : os.answer (.mmap addr size prot flags fd off) h = (p, h')) :
    (p = addr ∧ placeable addr size ∧
        h' = (h.map os addr size prot flags fd off).log (.mmap addr size prot flags fd off)) ∨
      p = -1 ∧ (placeable addr size → os.grants h.made (.mmap addr size prot flags fd off) = false) ∧
        h' = h.log (.mmap addr size prot flags fd off) := by
  simp only [answer] at answered
  split at answered
  · rename_i made
    cases answered
    exact .inl ⟨rfl, made.2, rfl⟩
  · rename_i refused
    cases answered
    refine .inr ⟨rfl, fun places => ?_, rfl⟩
    rw [Bool.eq_false_iff]
    exact fun grants => refused ⟨grants, places⟩

/-- The callback takes its pages back. -/
theorem cbunmap_returns {base len : Word} {info : MMInfo} {done : Unit}
    (small : base.toNat + len.toNat < 2 ^ 52)
    (returns : (cbunmap (base <<< 12) (len <<< 12) info).Returns os.answer h done h') :
    h'.Requested q ↔ h.Requested q ∧ ¬InRange base len q := by
  have pageAddr : (base <<< 12).toNat = 4096 * base.toNat := toNat_pageAddr (by omega)
  have range : InPages (base <<< 12) (len <<< 12) q ↔ InRange base len q := by
    rw [InPages, InRange, hostPages_pageAddr (by omega), pageAddr]
    omega
  simp only [cbunmap, mmap, Prog.returns_bind, Prog.returns_ask, Prog.returns_check] at returns
  obtain ⟨p, middle, answered, same, rfl⟩ := returns
  rcases Os.answer_mmap answered with ⟨rfl, -, rfl⟩ | ⟨rfl, -, -⟩
  · rw [OsMem.log_requested, OsMem.map_requested, range, and_comm]
  · exact absurd (of_decide_eq_true same).symm (shiftLeft_ne_neg_one (by decide))

/-- All callbacks take their pages back. -/
theorem callAll_returns {calls : List Revoked} {lo hi : Nat} {done : Unit}
    (paged : mm.p2pagesize = 12) (small : hi < 2 ^ 52) (inOrder : RevokedIn lo hi calls)
    (returns : (callAll mm cbunmap calls).Returns os.answer h done h') :
    h'.Requested q ↔ h.Requested q ∧ revokedAt calls q = none := by
  induction calls generalizing h lo with
  | nil =>
      simp only [callAll, Prog.returns_pure] at returns
      simp [returns.2]
  | cons call rest ih =>
      obtain ⟨base, len, info⟩ := call
      obtain ⟨-, -, behind⟩ := inOrder
      simp only [callAll, paged, Prog.returns_bind] at returns
      obtain ⟨_, middle, first, later⟩ := returns
      have bound := behind.bounds
      rw [ih behind later, cbunmap_returns (bound.trans_lt small) first, revokedAt_cons]
      by_cases inside : InRange base len q
      · simp [inside]
      · simp [inside]

/-- Unmapping and calling back. -/
theorem revoke_returns {calls : List Revoked} {lo hi : Nat} {r : Int} {last : MMAddrSpace}
    (paged : mm.p2pagesize = 12) (small : hi < 2 ^ 52) (inOrder : RevokedIn lo hi calls)
    (returns : (mm.revoke cbunmap calls mm').Returns os.answer h (r, last) h') :
    (last = mm ∧ ∀ q, h'.Requested q ↔ h.Requested q) ∨
      last = mm' ∧ ∀ q, h'.Requested q ↔ h.Requested q ∧ revokedAt calls q = none := by
  simp only [MMAddrSpace.revoke, malloc, Prog.returns_bind, Prog.returns_ask] at returns
  obtain ⟨memory, middle, answered, rest⟩ := returns
  cases answered
  split at rest
  · cases rest
    exact .inl ⟨rfl, fun _ => Iff.rfl⟩
  · simp only [Prog.returns_bind, Prog.returns_pure, Prod.mk.injEq] at rest
    obtain ⟨_, last, calledBack, ⟨-, rfl⟩, rfl⟩ := rest
    refine .inr ⟨rfl, fun q => ?_⟩
    have after := @callAll_returns os _ _ _ q _ _ _ _ paged small inOrder calledBack
    exact after

/-- Replacing a range. -/
theorem replace_returns {calls : List Revoked} {lo hi : Nat} {last : MMAddrSpace}
    (paged : mm.p2pagesize = 12) (small : hi < 2 ^ 52) (inOrder : RevokedIn lo hi calls)
    (returns : (mm.replace cbunmap calls addr mm').Returns os.answer h (p, last) h') :
    (p = -1 ∧ last = mm ∧ ∀ q, h'.Requested q ↔ h.Requested q) ∨
      p = addr ∧ last = mm' ∧
        ∀ q, h'.Requested q ↔ h.Requested q ∧ revokedAt calls q = none := by
  simp only [MMAddrSpace.replace, malloc, Prog.returns_bind, Prog.returns_ask] at returns
  obtain ⟨memory, middle, answered, rest⟩ := returns
  cases answered
  split at rest
  · cases rest
    exact .inl ⟨rfl, rfl, fun _ => Iff.rfl⟩
  · simp only [Prog.returns_bind, Prog.returns_ask] at rest
    obtain ⟨memory', middle', answered', rest⟩ := rest
    cases answered'
    split at rest
    · exact absurd rest Prog.returns_fault
    · simp only [Prog.returns_bind, Prog.returns_pure, Prod.mk.injEq] at rest
      obtain ⟨_, last, calledBack, ⟨rfl, rfl⟩, rfl⟩ := rest
      refine .inr ⟨rfl, rfl, fun q => ?_⟩
      have after := @callAll_returns os _ _ _ q _ _ _ _ paged small inOrder calledBack
      exact after

/-! ## The parts of an operation -/

theorem Agree.congr (agree : Agree mm h) (same : ∀ q, h'.Requested q ↔ h.Requested q) :
    Agree mm h' := by
  intro q above below
  rw [same q]
  exact agree q above below

theorem LPSBox.Ok.pages_lt (ok : box.Ok) : box.mm.base.toNat + box.mm.len.toNat < 2 ^ 52 := by
  have fits := ok.fits
  rw [ok.mmBase, ok.mmLen]
  omega

/-- What `mm_unmap_cb` takes out of the tracker is taken back. -/
theorem Unmaps.agree {addr length : Word} {lo hi : Nat} {calls : List Revoked}
    (unmaps : Unmaps addr length lo hi mm.nodes calls mm'.nodes) (keeps : mm.KeepsOrder mm')
    (agree : Agree mm h)
    (after : ∀ q, h'.Requested q ↔ h.Requested q ∧ revokedAt calls q = none) : Agree mm' h' := by
  intro q above below
  rw [keeps.base] at above below
  rw [keeps.len] at below
  have before := agree q above below
  rw [after, unmaps.left, unmaps.revoked]
  split
  · rw [← before]
    exact iff_of_false nofun fun both => Option.isSome_iff_ne_none.mp both.1 both.2
  · rw [before]
    simp

/-- `mm_unmap_cb` keeps tracker and host in agreement. -/
theorem mmUnmapCb_agree {length : Word} {r : Int} (ok : box.Ok) (agree : Agree box.mm h)
    (returns : (box.mm.mmUnmapCb addr length cbunmap).Returns os.answer h (r, mm') h') :
    Agree mm' h' := by
  have inOrder := ok.tracked.inOrder
  by_cases accepted : box.mm.aligned addr = true ∧ length ≠ 0 ∧
      box.mm.mmvalid (box.mm.mmtrunc addr) (box.mm.mmceil length) = true
  · obtain ⟨isAligned, nonzero, valid⟩ := accepted
    obtain ⟨calls, last, does, keeps, -, -, unmaps⟩ := MMAddrSpace.mmUnmapCb_pages inOrder isAligned
      nonzero ((MMAddrSpace.valid_iff inOrder.paged inOrder.fits).mp valid)
    rw [does] at returns
    rcases revoke_returns ok.tracked.paged ok.pages_lt unmaps.inOrder returns with
      ⟨rfl, same⟩ | ⟨rfl, after⟩
    · exact agree.congr same
    · exact unmaps.agree keeps agree after
  · rw [MMAddrSpace.mmUnmapCb_rejects accepted, Prog.returns_pure] at returns
    obtain ⟨same, rfl⟩ := returns
    cases same
    exact agree

/-- The tracker records a range at an address or changes nothing. -/
theorem mmMapatCb_agree (ok : box.Ok) (agree : Agree box.mm h)
    (returns : (box.mm.mmMapatCb addr size prot flags fd off cbunmap).Returns os.answer h (p, mm')
      h') :
    (p = -1 ∧ Agree mm' h') ∨
      (p = BitVec.ofInt 64 (-MM_EINVAL) ∧ Agree mm' h') ∨
      p = addr ∧ box.mm.aligned addr = true ∧
        box.mm.Inside (box.mm.mmtrunc addr) (box.mm.mmceil size) ∧ Awaits mm' addr size h' := by
  have inOrder := ok.tracked.inOrder
  have paged := ok.tracked.paged
  by_cases accepted : box.mm.aligned addr = true ∧
      box.mm.mmvalid (box.mm.mmtrunc addr) (box.mm.mmceil size) = true
  · obtain ⟨isAligned, valid⟩ := accepted
    have inside := (MMAddrSpace.valid_iff inOrder.paged inOrder.fits).mp valid
    by_cases pages : box.mm.mmceil size = 0
    · rw [MMAddrSpace.mmMapatCb_noPages inOrder isAligned pages inside] at returns
      simp only [malloc, Prog.returns_bind, Prog.returns_ask] at returns
      obtain ⟨memory, middle, answered, rest⟩ := returns
      cases answered
      split at rest
      · cases rest
        exact .inl ⟨rfl, agree.congr fun _ => Iff.rfl⟩
      · exact absurd rest Prog.returns_fault
    · obtain ⟨calls, last, nodes', does, keeps, unmaps, maps⟩ := @MMAddrSpace.mmMapatCb_pages _ _ _
        prot flags fd off inOrder isAligned pages inside
      rw [does] at returns
      rcases replace_returns paged ok.pages_lt unmaps.inOrder returns with
        ⟨rfl, rfl, same⟩ | ⟨rfl, rfl, after⟩
      · exact .inl ⟨rfl, agree.congr same⟩
      · refine .inr (.inr ⟨rfl, isAligned, inside, fun q above below => ?_, fun q inRange => ?_⟩)
        · rw [keeps.base] at above below
          rw [keeps.len] at below
          have before := agree q above below
          rw [maps, after, MMAddrSpace.inPages_iff paged, unmaps.left, unmaps.revoked]
          split
          · rename_i inRange
            simp [inRange]
          · rename_i outside
            simp [outside, before]
        · rw [MMAddrSpace.inPages_iff paged] at inRange
          have here := agree q (inside.1.trans inRange.1) (inRange.2.trans_le inside.2)
          rw [after, unmaps.revoked, if_pos inRange, ← here, Option.isSome_iff_ne_none]
          exact fun both => both.1 both.2
  · rw [MMAddrSpace.mmMapatCb_rejects accepted, Prog.returns_pure] at returns
    obtain ⟨same, rfl⟩ := returns
    cases same
    split
    · exact .inr (.inl ⟨rfl, agree⟩)
    · exact .inl ⟨rfl, agree⟩

/-- The tracker records a range anywhere or changes nothing. -/
theorem mmMapany_agree (ok : box.Ok) (agree : Agree box.mm h)
    (returns : (box.mm.mmMapany size prot flags fd off).Returns os.answer h (p, mm') h') :
    (p = -1 ∧ Agree mm' h') ∨
      box.mm.aligned p = true ∧ box.mm.Inside (box.mm.mmtrunc p) (box.mm.mmceil size) ∧
        Awaits mm' p size h' := by
  have inOrder := ok.tracked.inOrder
  have paged := ok.tracked.paged
  -- Only memory is allocated.
  have same : h'.page = h.page := by
    have allocates := @MMAddrSpace.mmMapany_inOrder box.mm
      ⟨fun _ _ => True, fun c => c = .malloc, fun _ => False⟩ size prot flags fd off inOrder rfl
    refine allocates.frame (fun h h' : OsMem => h'.page = h.page) (fun _ => rfl) ?_ ?_
      (fun _ _ => trivial) returns
    · exact fun first second => second.trans first
    · rintro c h rfl
      rfl
  have stays : ∀ q, h'.Requested q ↔ h.Requested q :=
    fun q => OsMem.requested_congr (congrFun same q)
  obtain ⟨keeps, result⟩ := (@MMAddrSpace.mmMapany_inOrder box.mm permitted size prot flags fd off
    inOrder trivial).returns (fun _ _ => trivial) returns
  rcases result with ⟨rfl, rfl, -⟩ | ⟨page, rfl, placed, -⟩
  · exact .inl ⟨rfl, agree.congr stays⟩
  · have small : page.toNat < 2 ^ 52 :=
      (Nat.le_add_right _ _).trans_lt (placed.below.trans_lt ok.pages_lt)
    have pageAddr : (page <<< box.mm.p2pagesize).toNat = 4096 * page.toNat := by
      rw [paged, toNat_pageAddr small]
    have trunc : box.mm.mmtrunc (page <<< box.mm.p2pagesize) = page := by
      rw [MMAddrSpace.mmtrunc, paged, page_pageAddr small]
    have inside : ∀ q, InPages (page <<< box.mm.p2pagesize) size q ↔
        InRange page (box.mm.mmceil size) q := by
      intro q
      rw [MMAddrSpace.inPages_iff paged, trunc]
    obtain ⟨free, infos⟩ := placed.infos inOrder keeps
    refine .inr ⟨?_, ?_, fun q above below => ?_, fun q inRange => ?_⟩
    · rw [MMAddrSpace.aligned_iff paged, pageAddr]
      omega
    · rw [trunc]
      exact ⟨placed.above, placed.below⟩
    · rw [keeps.base] at above below
      rw [keeps.len] at below
      have before := agree q above below
      rw [infos, inside, stays]
      split
      · rename_i inRange
        simp [inRange]
      · rename_i outside
        rw [before]
        simp [outside]
    · rw [inside] at inRange
      have here := agree q (placed.above.trans inRange.1) (inRange.2.trans_le placed.below)
      rw [stays, ← here, free q inRange]
      simp

theorem Awaits.congr (awaits : Awaits mm addr size h) (same : ∀ q, h'.Requested q ↔ h.Requested q) :
    Awaits mm addr size h' where
  recorded q above below := by
    rw [same]
    exact awaits.recorded q above below
  free q inside := by
    rw [same]
    exact awaits.free q inside

/-- A range without pages is not waited for. -/
theorem Awaits.agree_of_empty (awaits : Awaits mm addr size h) (empty : hostPages size = 0) :
    Agree mm h := by
  intro q above below
  have outside : ¬InPages addr size q := by
    rintro ⟨first, behind⟩
    omega
  rw [awaits.recorded q above below, or_iff_left outside]

/-- A refused range is taken out of the tracker. -/
theorem Awaits.agree_of_unmapped {lo hi : Nat} {calls : List Revoked}
    (awaits : Awaits mm addr size h) (paged : mm.p2pagesize = 12) (keeps : mm.KeepsOrder mm')
    (unmaps : Unmaps (mm.mmtrunc addr) (mm.mmceil size) lo hi mm.nodes calls mm'.nodes) :
    Agree mm' h := by
  intro q above below
  rw [keeps.base] at above below
  rw [keeps.len] at below
  have recorded := awaits.recorded q above below
  have free := awaits.free q
  rw [MMAddrSpace.inPages_iff paged] at recorded free
  rw [unmaps.left]
  split
  · rename_i inRange
    exact iff_of_false nofun (free inRange)
  · rename_i outside
    rw [recorded, or_iff_left outside]

theorem MMAddrSpace.KeepsOrder.aligned (keeps : mm.KeepsOrder mm')
    (isAligned : mm.aligned addr = true) : mm'.aligned addr = true := by
  rw [MMAddrSpace.aligned, keeps.p2pagesize]
  exact isAligned

theorem MMAddrSpace.KeepsOrder.inside (keeps : mm.KeepsOrder mm')
    (inside : mm.Inside (mm.mmtrunc addr) (mm.mmceil size)) :
    mm'.Inside (mm'.mmtrunc addr) (mm'.mmceil size) := by
  rw [Inside, mmtrunc, mmceil, keeps.p2pagesize, keeps.base, keeps.len]
  exact inside

/-- When the tracker has recorded a range, either the host maps it or the tracker gives it
back. -/
theorem mapTracked_agree (ok : box.Ok) (isAligned : box.mm.aligned addr = true)
    (inside : box.mm.Inside (box.mm.mmtrunc addr) (box.mm.mmceil size))
    (awaits : Awaits box.mm addr size h) (recovers : os.Recovers)
    (returns : (box.mapTracked addr size prot flags fd off).Returns os.answer h (p, box') h') :
    Agree box'.mm (if p = -1 then h' else h'.claim p size) := by
  have inOrder := ok.tracked.inOrder
  have paged := ok.tracked.paged
  have multiple := (MMAddrSpace.aligned_iff paged).mp isAligned
  have address : addr ≠ -1 := ne_neg_one_of_page multiple
  simp only [LPSBox.mapTracked, mmap, Prog.returns_bind, Prog.returns_ask] at returns
  obtain ⟨mem, middle, answered, rest⟩ := returns
  rcases Os.answer_mmap answered with ⟨rfl, -, rfl⟩ | ⟨rfl, refused, rfl⟩
  · rw [if_neg address, Prog.returns_pure, Prod.mk.injEq] at rest
    obtain ⟨⟨rfl, rfl⟩, rfl⟩ := rest
    rw [if_neg address]
    intro q above below
    rw [awaits.recorded q above below, OsMem.claim_requested, OsMem.log_requested,
      OsMem.map_requested]
    by_cases inPages : InPages mem size q
    · simp [inPages, OsMem.map]
    · simp [inPages]
  · rw [if_pos rfl] at rest
    simp only [MMAddrSpace.mmUnmap, Prog.returns_bind, Prog.returns_pure, Prod.mk.injEq] at rest
    obtain ⟨⟨r, mm'⟩, last, unmapped, ⟨rfl, rfl⟩, rfl⟩ := rest
    rw [if_pos rfl]
    have logged := awaits.congr fun q => @OsMem.log_requested h q
      (.mmap addr size prot (flags ||| MAP_FIXED) fd off)
    by_cases nonzero : size = 0
    · have empty : hostPages size = 0 := by
        rw [nonzero]
        rfl
      rw [MMAddrSpace.mmUnmapCb_rejects fun accepted => accepted.2.1 nonzero, Prog.returns_pure]
        at unmapped
      obtain ⟨same, rfl⟩ := unmapped
      cases same
      exact logged.agree_of_empty empty
    · obtain ⟨calls, cleared, does, keeps, -, -, unmaps⟩ :=
        MMAddrSpace.mmUnmapCb_pages inOrder isAligned nonzero inside
      rw [does] at unmapped
      simp only [MMAddrSpace.revoke, malloc, callAll_noUpdate, pure_bind, Prog.returns_bind,
        Prog.returns_ask] at unmapped
      obtain ⟨memory, middle, answered', rest⟩ := unmapped
      cases answered'
      split at rest
      · rename_i noMemory
        cases rest
        by_cases pages : hostPages size = 0
        · exact (logged.agree_of_empty pages).congr fun _ => Iff.rfl
        · have memory := recovers h.made addr size prot (flags ||| MAP_FIXED) fd off
            ⟨multiple, pages⟩ (refused ⟨multiple, pages⟩)
          simp [OsMem.log, memory] at noMemory
      · cases rest
        exact (logged.agree_of_unmapped paged keeps unmaps).congr fun _ => Iff.rfl

/-- What the tracker returns for an invalid range is no address: the host refuses it, and
nothing changes. -/
theorem mapTracked_strays (paged : box.mm.p2pagesize = 12) (agree : Agree box.mm h)
    (returns : (box.mapTracked (BitVec.ofInt 64 (-MM_EINVAL)) size prot flags fd off).Returns
      os.answer h (p, box') h') :
    Agree box'.mm (if p = -1 then h' else h'.claim p size) := by
  simp only [LPSBox.mapTracked, mmap, Prog.returns_bind, Prog.returns_ask] at returns
  obtain ⟨mem, middle, answered, rest⟩ := returns
  rcases Os.answer_mmap answered with ⟨-, places, -⟩ | ⟨rfl, -, rfl⟩
  · exact absurd places.1 (by decide)
  · rw [if_pos rfl] at rest
    have stray : ¬box.mm.aligned (BitVec.ofInt 64 (-MM_EINVAL)) = true := by
      rw [MMAddrSpace.aligned_iff paged]
      decide
    rw [MMAddrSpace.mmUnmap, MMAddrSpace.mmUnmapCb_rejects fun accepted => stray accepted.1] at rest
    simp only [pure_bind, Prog.returns_pure, Prod.mk.injEq] at rest
    obtain ⟨⟨rfl, rfl⟩, rfl⟩ := rest
    rw [if_pos rfl]
    exact agree.congr fun _ => Iff.rfl

/-! ## Operations -/

/-- Every operation keeps the box, whatever the host does. -/
theorem BoxCall.prog_permitted (call : BoxCall) (ok : box.Ok) :
    (call.prog box).Meets permitted fun (_, box') => box.Keeps box' := by
  have handles : Handles permitted cbunmap fun _ _ => True :=
    handles_all (fun _ => trivial) (fun _ => trivial) cbunmap
  cases call with
  | mapat addr size prot flags fd off =>
      exact (LPSBox.lpsBoxMapat_meets ok (LPSBox.mayMapat_all (fun _ => trivial)
        fun _ => trivial)).mono fun _ result => result.1
  | mapany size prot flags fd off =>
      exact LPSBox.lpsBoxMapany_meets ok trivial fun _ _ => trivial
  | munmap addr size =>
      refine (LPSBox.lpsBoxMunmap_meets ok trivial ?_).bind fun _ keeps => keeps
      exact fun _ _ _ _ => ⟨_, handles, covers_all ..⟩
  | mprotect addr size prot =>
      exact (LPSBox.lpsBoxMprotect_meets (fun _ => trivial) fun _ => trivial).bind
        fun _ _ => ok.keeps

/-- `lps_box_mapat` keeps tracker and host in agreement. -/
theorem lpsBoxMapat_agree (ok : box.Ok) (agree : Agree box.mm h) (recovers : os.Recovers)
    (returns : (lpsBoxMapat box addr size prot flags fd off).Returns os.answer h (p, box') h') :
    Agree box'.mm (if p = -1 then h' else h'.claim p size) := by
  simp only [lpsBoxMapat, Prog.returns_bind, Prog.returns_check] at returns
  obtain ⟨_, _, ⟨-, rfl⟩, ⟨p', mm'⟩, middle, tracked, rest⟩ := returns
  have handles : Handles permitted cbunmap fun _ _ => True :=
    handles_all (fun _ => trivial) (fun _ => trivial) cbunmap
  have kept := (@MMAddrSpace.mmMapatCb_inOrder box.mm permitted cbunmap (fun _ _ => True) addr size
    prot flags fd off ok.tracked.inOrder (handles.pages ok.tracked.paged) trivial
    (fun _ => covers_all ..)
    fun _ _ _ => trivial).returns (fun _ _ => trivial) tracked
  have box'Ok := (ok.withMM (ok.tracked.keeps_of kept.1)).ok
  rcases mmMapatCb_agree ok agree tracked with
    ⟨rfl, still⟩ | ⟨rfl, still⟩ | ⟨rfl, isAligned, inside, awaits⟩
  · rw [if_pos rfl, Prog.returns_pure, Prod.mk.injEq] at rest
    obtain ⟨⟨rfl, rfl⟩, rfl⟩ := rest
    rw [if_pos rfl]
    exact still
  · have address : BitVec.ofInt 64 (-MM_EINVAL) ≠ -1 := by decide
    rw [if_neg address] at rest
    exact mapTracked_strays box'Ok.tracked.paged still rest
  · have address : p' ≠ -1 :=
      ne_neg_one_of_page ((MMAddrSpace.aligned_iff ok.tracked.paged).mp isAligned)
    rw [if_neg address] at rest
    exact mapTracked_agree box'Ok (kept.1.aligned isAligned) (kept.1.inside inside) awaits recovers
      rest

/-- `lps_box_mapany` keeps tracker and host in agreement. -/
theorem lpsBoxMapany_agree (ok : box.Ok) (agree : Agree box.mm h) (recovers : os.Recovers)
    (returns : (lpsBoxMapany box size prot flags fd off).Returns os.answer h (p, box') h') :
    Agree box'.mm (if p = -1 then h' else h'.claim p size) := by
  simp only [lpsBoxMapany, Prog.returns_bind] at returns
  obtain ⟨⟨p', mm'⟩, middle, tracked, rest⟩ := returns
  have kept := ((@MMAddrSpace.mmMapany_inOrder box.mm permitted size prot flags fd off
    ok.tracked.inOrder trivial).returns (fun _ _ => trivial) tracked).1
  have box'Ok := (ok.withMM (ok.tracked.keeps_of kept)).ok
  rcases mmMapany_agree ok agree tracked with ⟨rfl, still⟩ | ⟨isAligned, inside, awaits⟩
  · rw [if_pos rfl, Prog.returns_pure, Prod.mk.injEq] at rest
    obtain ⟨⟨rfl, rfl⟩, rfl⟩ := rest
    rw [if_pos rfl]
    exact still
  · have address : p' ≠ -1 :=
      ne_neg_one_of_page ((MMAddrSpace.aligned_iff ok.tracked.paged).mp isAligned)
    rw [if_neg address] at rest
    exact mapTracked_agree box'Ok (kept.aligned isAligned) (kept.inside inside) awaits recovers rest

/-- Every operation that returns keeps tracker and host in agreement. -/
theorem BoxCall.agree {call : BoxCall} (ok : box.Ok) (agree : Agree box.mm h)
    (recovers : os.Recovers) (returns : (call.prog box).Returns os.answer h (p, box') h') :
    Agree box'.mm (call.claims p h') := by
  cases call with
  | mapat addr size prot flags fd off => exact lpsBoxMapat_agree ok agree recovers returns
  | mapany size prot flags fd off => exact lpsBoxMapany_agree ok agree recovers returns
  | munmap addr size =>
      simp only [prog, lpsBoxMunmap, Prog.returns_bind] at returns
      obtain ⟨⟨r, last⟩, middle, rest, returned⟩ := returns
      cases returned
      split at rest
      · simp only [Prog.returns_bind, Prog.returns_pure, Prod.mk.injEq] at rest
        obtain ⟨⟨r, mm'⟩, _, unmapped, ⟨-, rfl⟩, rfl⟩ := rest
        exact mmUnmapCb_agree ok agree unmapped
      · cases rest
        exact agree
  | mprotect addr size prot =>
      simp only [prog, lpsBoxMprotect, Lps.Core.mprotect, Prog.returns_bind, Prog.returns_check,
        Prog.returns_ask] at returns
      obtain ⟨r, middle, ⟨_, _, ⟨-, rfl⟩, answered⟩, returned⟩ := returns
      cases returned
      cases answered
      refine agree.congr fun q => ?_
      simp only [claims, OsMem.log_requested]
      split
      · exact OsMem.protect_requested
      · exact Iff.rfl

/-! ## Runs -/

/-- Over every run from a new box, if whatever the host refuses can be taken back, the pages
recorded in the tracker are those that hold a requested mapping. -/
theorem tracker_agrees {box : LPSBoxInfo} (fits : box.base.toNat + box.size.toNat < 2 ^ 64)
    {host : OsMem} (fresh : ∀ q, ¬host.Requested q) {trace : List Word} {target : BoxState}
    (run : Run boxStep (fun _ event => event.2.Recovers) ⟨box.track, host⟩ trace target) :
    target.box.toLPSBoxInfo = box ∧ Agree target.box.mm target.host := by
  have all : box.track.Keeps target.box ∧ Agree target.box.mm target.host := by
    refine run.stateInvariant (fun state => box.track.Keeps state.box ∧
      Agree state.box.mm state.host) ⟨(LPSBoxInfo.track_ok fits).keeps, ?_⟩ ?_
    · exact fun q _ _ => iff_of_false nofun (fresh q)
    · rintro observed ⟨state, host⟩ ⟨next, host'⟩ ⟨call, os⟩ ⟨keeps, agree⟩ recovers stepped
      rw [boxStep] at stepped
      split at stepped
      · rename_i p box' last returned
        cases stepped
        have kept := (call.prog_permitted keeps.ok).returns (fun _ _ => trivial) returned
        refine ⟨keeps.trans kept, ?_⟩
        have started : Agree state.mm { host with made := [] } := agree.congr fun _ => Iff.rfl
        exact BoxCall.agree keeps.ok started recovers returned
      · cases stepped
  exact ⟨all.1.info, all.2⟩

/-- A host that does what it is asked to, with empty files. -/
def servingOs : Os where
  memory _ := true
  grants _ _ := true
  protects _ := 0
  file _ _ := 0
  image _ := 0

/-- A host that refuses every mapping. -/
def refusingOs : Os := { servingOs with grants := fun _ _ => false }

/-- A host that refuses every mapping and has memory for one allocation of an operation. -/
def exhaustedOs : Os := { refusingOs with memory := fun made => made = [] }

/-- A host without mappings. -/
def bareHost : OsMem where
  made := []
  page _ := none
  byte _ := 0

theorem bareHost_fresh (q : Nat) : ¬bareHost.Requested q := by
  rintro ⟨page, absent, -⟩
  cases absent

/-- A mapping is made, another one is refused, and a third one replaces half of the first. -/
theorem tracker_agrees_refused :
    ∃ target, Run boxStep (fun _ event => event.2.Recovers)
        ⟨LPSBoxInfo.track ⟨0x100000, 0x10000⟩, bareHost⟩ [0x100000, -1, 0x101000] target ∧
      Agree target.box.mm target.host := by
  have memory : ∀ os : Os, os.memory = (fun _ => true) → os.Recovers := by
    intro os always made addr len prot flags fd off _ _
    rw [always]
  have first : Run boxStep (fun _ event => event.2.Recovers)
      ⟨LPSBoxInfo.track ⟨0x100000, 0x10000⟩, bareHost⟩ [0x100000] _ :=
    .single (memory servingOs rfl) (show boxStep _ (.mapany 0x1800 3 0x22 (-1) 0, _) = _ from rfl)
  have second : Run boxStep (fun _ event => event.2.Recovers)
      ⟨LPSBoxInfo.track ⟨0x100000, 0x10000⟩, bareHost⟩ ([0x100000] ++ [-1]) _ :=
    first.tail (memory refusingOs rfl)
      (show boxStep _ (.mapany 0x3000 3 0x22 (-1) 0, _) = _ from rfl)
  have third : Run boxStep (fun _ event => event.2.Recovers)
      ⟨LPSBoxInfo.track ⟨0x100000, 0x10000⟩, bareHost⟩ ([0x100000] ++ [-1] ++ [0x101000]) _ :=
    second.tail (memory servingOs rfl)
      (show boxStep _ (.mapat 0x101000 0x2000 1 0x22 (-1) 0, _) = _ from rfl)
  exact ⟨_, third, (tracker_agrees (by decide) bareHost_fresh third).2⟩

/-- A mapping that is refused, and cannot be taken back for want of memory, stays recorded. -/
theorem refused_mapping_stays :
    ∃ trace target, Run boxStep (Always _ _) ⟨LPSBoxInfo.track ⟨0x100000, 0x10000⟩, bareHost⟩
      trace target ∧ ¬Agree target.box.mm target.host := by
  refine ⟨[-1], _, .single trivial
    (show boxStep _ (.mapany 0x1000 3 0x22 (-1) 0, exhaustedOs) = _ from rfl), fun agree => ?_⟩
  exact bareHost_fresh 0x100 ((agree 0x100 (by decide) (by decide)).mp rfl)

end Lps.Core

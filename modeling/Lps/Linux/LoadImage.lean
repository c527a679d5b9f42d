import Lps.Core.BoxResult
import Lps.Linux.LoadReads
import Lps.Linux.LoadWrites
import Lps.Linux.MmapTruth

/-!
# The image that is loaded

After a segment was loaded its addresses have the bytes of the image, and zeroes behind them, as long
as it is not mapped over by another one.  From memory this does not depend on the host; from a file
it needs an offset in the file that fits the address, and a host that maps what it is asked for.
-/

namespace Lps.Core

open Lps.Program

variable {os : Os} {h h' : OsMem} {box box' : LPSBox} {addr size p : Word} {prot flags : CInt} {fd : Int}
  {off : Word} {q : Nat}

/-! ## What a mapping holds -/

/-- What is read from a new mapping. -/
def Os.mapped (os : Os) (flags : CInt) (fd : Int) (off : Word) (i : Nat) : Byte :=
  if flags &&& MAP_ANONYMOUS ≠ 0 then 0 else os.file fd (off.toNat + i)

/-- The host's memory after the runtime mapped a range: new bytes there, and nothing else changed. -/
structure OsMem.MapsOver (h h' : OsMem) (os : Os) (addr size : Word) (flags : CInt) (fd : Int) (off : Word) :
    Prop where
  inside : ∀ a, InPages addr size (a / 4096) → h'.byte a = os.mapped flags fd off (a - addr.toNat)
  outside : ∀ q, ¬InPages addr size q → h.Unchanged h' q

theorem mapTracked_bytes (address : addr ≠ -1) (mapped : p ≠ -1)
    (returns : (box.mapTracked addr size prot flags fd off).Returns os.answer h (p, box') h') :
    p = addr ∧
      ∀ a, InPages addr size (a / 4096) → h'.byte a = os.mapped (flags ||| MAP_FIXED) fd off (a - addr.toNat) := by
  simp only [LPSBox.mapTracked, mmap, Prog.returns_bind, Prog.returns_ask] at returns
  obtain ⟨mem, middle, answered, rest⟩ := returns
  rcases Os.answer_mmap answered with ⟨rfl, -, rfl⟩ | ⟨rfl, -, rfl⟩
  · rw [if_neg address, Prog.returns_pure, Prod.mk.injEq] at rest
    obtain ⟨⟨rfl, rfl⟩, rfl⟩ := rest
    exact ⟨rfl, fun a inside => if_pos inside⟩
  · rw [if_pos rfl] at rest
    simp only [Prog.returns_bind, Prog.returns_pure, Prod.mk.injEq] at rest
    obtain ⟨_, _, _, ⟨failed, -⟩, -⟩ := rest
    exact absurd failed.symm mapped

/-- `lps_box_mapat` changes nothing outside of its range. -/
theorem lpsBoxMapat_outside (ok : box.Ok)
    (returns : (lpsBoxMapat box addr size prot flags fd off).Returns os.answer h (p, box') h') :
    ∀ q, ¬InPages addr size q → h.Unchanged h' q :=
  unchanged_of_sparing (LPSBox.lpsBoxMapat_meets ok (LPSBox.mayMapat_sparing ok fun _ => id)) returns

/-- A range that it maps is new. -/
theorem lpsBoxMapat_mapsOver (ok : box.Ok) (mapped : p ≠ -1)
    (returns : (lpsBoxMapat box addr size prot flags fd off).Returns os.answer h (p, box') h') :
    h.MapsOver h' os addr size (flags ||| MAP_FIXED) fd off := by
  refine ⟨?_, lpsBoxMapat_outside ok returns⟩
  have same := (lpsBoxMapat_mapped ok mapped returns).1
  simp only [lpsBoxMapat, Prog.returns_bind, Prog.returns_check] at returns
  obtain ⟨_, _, ⟨-, rfl⟩, ⟨p', mm'⟩, middle, -, rest⟩ := returns
  by_cases address : p' = -1
  · rw [if_pos address, Prog.returns_pure, Prod.mk.injEq] at rest
    exact absurd rest.1.1.symm mapped
  · rw [if_neg address] at rest
    obtain ⟨same', bytes⟩ := mapTracked_bytes address mapped rest
    rw [← same', same] at bytes
    exact bytes

end Lps.Core

namespace Lps.Linux

open Lps.Core Lps.Program

variable {p p' : Elf64Phdr} {buf : Buf} {base : Word} {target target' : ElfTarget} {box : LPSBox}
  {os : Os} {h h' : OsMem} {data : Nat → Byte} {phdrs : List Elf64Phdr}

/-! ## The bytes of a segment -/

namespace Elf64Phdr

/-- The byte of a segment at this distance from its address. -/
def content (p : Elf64Phdr) (data : Nat → Byte) (i : Nat) : Byte :=
  if i < p.p_filesz.toNat then data (p.p_offset.toNat + i) else 0

/-- The segment is in memory. -/
def Shown (p : Elf64Phdr) (base : Word) (data : Nat → Byte) (h : OsMem) : Prop :=
  ∀ i < p.p_memsz.toNat, h.byte (base.toNat + p.p_vaddr.toNat + i) = p.content data i

/-- The segment ends by the end of the pages that are mapped for it. -/
def Spans (p : Elf64Phdr) : Prop := p.p_vaddr.toNat + p.p_memsz.toNat ≤ p.stop.toNat

/-- The pages that are mapped for the segment. -/
def OnPage (p : Elf64Phdr) (base : Word) (q : Nat) : Prop :=
  base.toNat + p.start.toNat ≤ 4096 * q ∧ 4096 * q < base.toNat + p.stop.toNat

/-- The pages of two segments do not overlap. -/
def Apart (p p' : Elf64Phdr) : Prop := p.stop ≤ p'.start ∨ p'.stop ≤ p.start

end Elf64Phdr

/-- Where a segment is loaded. -/
theorem Elf64Phdr.place (ok : box.Ok) (proper : p.Proper) (taken : p.taken box box.base) :
    (box.base + p.start).toNat = box.base.toNat + p.start.toNat ∧
      (box.base.toNat + p.start.toNat) % 4096 = 0 ∧
      (box.base + p.stop).toNat = box.base.toNat + p.stop.toNat ∧
      ∀ q, InPages (box.base + p.start) (p.span box.base) q ↔ p.OnPage box.base q := by
  obtain ⟨contains, places, -⟩ := taken.contains ok
  have fits := ok.fits
  have below := contains.2
  have span := @Elf64Phdr.Proper.span p box.base proper
  have less := proper.proper
  have small := proper.stop_lt
  have start_mod := proper.start_mod
  have stop_mod := proper.stop_mod
  have startAt : (box.base + p.start).toNat = box.base.toNat + p.start.toNat := by
    have above := contains.1
    bv_omega
  have aligned := places.1
  rw [startAt] at aligned below
  refine ⟨startAt, aligned, by bv_omega, fun q => ?_⟩
  rw [InPages, hostPages, span, startAt, Elf64Phdr.OnPage]
  omega

/-- A segment is shown where its pages are mapped, if its bytes are there. -/
structure Elf64Phdr.ShowsOver (p : Elf64Phdr) (base : Word) (data : Nat → Byte) (h h' : OsMem) : Prop where
  shown : p.Shown base data h'
  outside : ∀ q, ¬p.OnPage base q → h.Unchanged h' q

theorem Elf64Phdr.onPage_of_lt (place : (base.toNat + p.start.toNat) % 4096 = 0) (proper : p.Proper)
    {a : Nat} : p.OnPage base (a / 4096) ↔ base.toNat + p.start.toNat ≤ a ∧ a < base.toNat + p.stop.toNat := by
  have start_mod := proper.start_mod
  have stop_mod := proper.stop_mod
  rw [Elf64Phdr.OnPage]
  omega

/-- The address of a segment. -/
theorem Elf64Phdr.address (ok : box.Ok) (proper : p.Proper) (taken : p.taken box box.base) (spans : p.Spans) :
    (box.base + p.start + (p.p_vaddr - p.start)).toNat = box.base.toNat + p.p_vaddr.toNat := by
  obtain ⟨startAt, -, stopAt, -⟩ := p.place ok proper taken
  have start_le := p.start_le
  have span : p.p_vaddr.toNat + p.p_memsz.toNat ≤ p.stop.toNat := spans
  have less := proper.proper
  bv_omega

/-- Recording a segment changes no memory. -/
theorem ElfTarget.record_returns {seg : ElfSeg} {done : Bool}
    (returns : (target.record seg).Returns os.answer h (done, target') h') : h' = h := by
  simp only [ElfTarget.record, Prog.returns_bind, Prog.returns_check, Prog.returns_pure] at returns
  obtain ⟨_, _, ⟨-, rfl⟩, -, same⟩ := returns
  exact same.symm

/-- Changing the protection changes no byte. -/
theorem lpsBoxMprotect_outside {addr size : Word} {prot : CInt} {r : Int}
    (returns : (lpsBoxMprotect box addr size prot).Returns os.answer h r h') :
    h'.byte = h.byte ∧ ∀ q, ¬InPages addr size q → h.Unchanged h' q := by
  simp only [lpsBoxMprotect, mprotect, Prog.returns_bind, Prog.returns_check, Prog.returns_ask] at returns
  obtain ⟨_, _, ⟨-, rfl⟩, answered⟩ := returns
  simp only [Os.answer, Prod.mk.injEq] at answered
  obtain ⟨-, rfl⟩ := answered
  split
  · exact ⟨rfl, fun q outside => (OsMem.protect_unchanged outside).log _⟩
  · exact ⟨rfl, fun q _ => OsMem.Unchanged.refl.log _⟩

/-- From memory a segment is copied into new pages. -/
theorem Elf64Phdr.load_copies (keeps : box.Keeps target.box) (ok : box.Ok) (proper : p.Proper)
    (spans : p.Spans) (inMemory : buf.fd = -1)
    (returns : (p.load buf box.base target).Returns os.answer h (true, target') h') :
    p.ShowsOver box.base os.image h h' := by
  have loaded := (Elf64Phdr.load_hosted keeps ok).returns Os.answer_hosted returns
  obtain ⟨taken, isRead, -⟩ := (loaded.2 rfl).1
  obtain ⟨startAt, aligned, stopAt, pages⟩ := p.place ok proper taken
  have count : buf.readCount p.p_filesz p.p_offset = p.p_filesz := isRead.2 inMemory
  rw [Elf64Phdr.load, bufReadElfseg, if_neg (not_not.mpr inMemory), copyElfseg] at returns
  simp only [Prog.returns_bind] at returns
  obtain ⟨⟨r, box'⟩, h1, mapped, rest⟩ := returns
  dsimp only at rest
  by_cases failed : r = -1
  · rw [if_pos failed, Prog.returns_pure] at rest
    cases rest.1
  rw [if_neg failed] at rest
  have replaced := lpsBoxMapat_mapsOver keeps.ok failed mapped
  simp only [Prog.returns_bind, Prog.returns_ask] at rest
  obtain ⟨_, h2, copied, rest⟩ := rest
  rw [count] at copied
  rw [count, if_neg (fun other => other rfl)] at rest
  simp only [Prog.returns_bind] at rest
  obtain ⟨result, h3, shielded, rest⟩ := rest
  by_cases negative : result < 0
  · rw [if_pos negative, Prog.returns_pure] at rest
    cases rest.1
  rw [if_neg negative] at rest
  obtain rfl := ElfTarget.record_returns rest
  obtain ⟨bytes, outside⟩ := lpsBoxMprotect_outside shielded
  simp only [Os.answer, Prod.mk.injEq] at copied
  obtain ⟨-, rfl⟩ := copied
  have to_ : (box.base + p.start + (p.p_vaddr - p.start)).toNat = box.base.toNat + p.p_vaddr.toNat :=
    p.address ok proper taken spans
  have start_le := p.start_le
  have filesz := proper.filesz
  have span : p.p_vaddr.toNat + p.p_memsz.toNat ≤ p.stop.toNat := spans
  have inside : ∀ a, box.base.toNat + p.start.toNat ≤ a → a < box.base.toNat + p.stop.toNat →
      InPages (box.base + p.start) (p.span box.base) (a / 4096) := fun a above below =>
    (pages _).mpr ((p.onPage_of_lt aligned proper).mpr ⟨above, below⟩)
  constructor
  · intro i less
    rw [bytes]
    simp only [OsMem.log_byte, OsMem.write, to_]
    rw [Elf64Phdr.content]
    by_cases inFile : i < p.p_filesz.toNat
    · rw [if_pos ⟨by omega, by omega⟩, if_pos inFile, Nat.add_sub_cancel_left]
    · rw [if_neg (by omega), if_neg inFile, replaced.inside _ (inside _ (by omega) (by omega))]
      rfl
  · intro q other
    have far : ¬InPages (box.base + p.start) (p.span box.base) q := fun same => other ((pages q).mp same)
    refine (replaced.outside q far).trans (OsMem.Unchanged.trans ((OsMem.write_unchanged ?_).log _) (outside q far))
    rintro a rfl ⟨above, below⟩
    rw [to_] at above below
    exact far (inside a (by omega) (by omega))

/-- Where the bytes of a file end, and the page behind them. -/
theorem Elf64Phdr.bss (ok : box.Ok) (proper : p.Proper) (taken : p.taken box box.base) (spans : p.Spans) :
    (p.bssStart box.base).toNat = box.base.toNat + p.p_vaddr.toNat + p.p_filesz.toNat ∧
      (p.bssRest box.base).toNat % 4096 = 0 ∧
      (p.bssStart box.base).toNat ≤ (p.bssRest box.base).toNat ∧
      (p.bssRest box.base).toNat ≤ box.base.toNat + p.stop.toNat := by
  obtain ⟨startAt, aligned, stopAt, -⟩ := p.place ok proper taken
  have to_ := p.address ok proper taken spans
  have filesz := proper.filesz
  have span : p.p_vaddr.toNat + p.p_memsz.toNat ≤ p.stop.toNat := spans
  have stop_mod := proper.stop_mod
  have start_mod := proper.start_mod
  have small := (box.base + p.stop).isLt
  have bssAt : (p.bssStart box.base).toNat = box.base.toNat + p.p_vaddr.toNat + p.p_filesz.toNat := by
    rw [Elf64Phdr.bssStart, BitVec.toNat_add, to_]
    omega
  have rest := ceilp_page_toNat (p.bssStart box.base)
  rw [Elf64Phdr.bssRest]
  omega

/-- The last pages of a range are within the same limits. -/
theorem pages_suffix {first top start mid stop : Nat} (start_mod : start % 4096 = 0)
    (mid_mod : mid % 4096 = 0) (stop_mod : stop % 4096 = 0) (startMid : start ≤ mid) (midStop : mid ≤ stop)
    (small : stop - start < 2 ^ 30) (above : first ≤ start / 4096)
    (below : start / 4096 + (stop - start + 4095) % 2 ^ 64 / 4096 ≤ top) :
    first ≤ mid / 4096 ∧ mid / 4096 + (stop - mid + 4095) % 2 ^ 64 / 4096 ≤ top := by
  rw [Nat.mod_eq_of_lt (by omega)] at below ⊢
  omega

/-- The pages behind those of a file are taken with them. -/
theorem Elf64Phdr.taken_rest (ok : box.Ok) (proper : p.Proper) (taken : p.taken box box.base) (spans : p.Spans)
    (before : p.bssRest box.base < box.base + p.stop) :
    box.Takes (p.bssRest box.base) (box.base + p.stop - p.bssRest box.base) := by
  obtain ⟨startAt, aligned, stopAt, -⟩ := p.place ok proper taken
  obtain ⟨bssAt, rest_mod, startRest, restStop⟩ := p.bss ok proper taken spans
  obtain ⟨contains, -, -⟩ := taken.contains ok
  have more := (proper.restPages ok taken before).2
  obtain ⟨-, -, accepted, -⟩ := taken
  have span := @Elf64Phdr.Proper.span p box.base proper
  have start_mod := proper.start_mod
  have stop_mod := proper.stop_mod
  have small := proper.stop_lt
  have start_le := p.start_le
  have size : (box.base + p.stop - p.bssRest box.base).toNat =
      box.base.toNat + p.stop.toNat - (p.bssRest box.base).toNat := by
    rw [BitVec.toNat_sub_of_le (BitVec.le_def.mpr (stopAt ▸ restStop)), stopAt]
  refine ⟨?_, ?_, ?_, more⟩
  · have above := contains.1
    have below := contains.2
    rw [span, startAt] at below
    rw [LPSBox.holds_iff ok, size, Nat.add_sub_cancel' restStop, Nat.mod_eq_of_lt (stopAt ▸ BitVec.isLt _)]
    omega
  · exact (MMAddrSpace.aligned_iff ok.tracked.paged).mpr rest_mod
  · have lengths : p.stop.toNat - p.start.toNat =
        box.base.toNat + p.stop.toNat - (box.base.toNat + p.start.toNat) := by
      omega
    rw [LPSBox.accepts_iff ok, span, startAt, lengths] at accepted
    rw [LPSBox.accepts_iff ok, size]
    exact pages_suffix aligned rest_mod (by omega) (by omega) restStop (by omega) accepted.1 accepted.2

/-- The offset in the file lies as far from its rounded one as the address does. -/
def Elf64Phdr.Congruent (p : Elf64Phdr) : Prop :=
  (truncp p.p_offset p.p_align).toNat + (p.p_vaddr.toNat - p.start.toNat) = p.p_offset.toNat

/-- A file is mapped, and what lies behind its bytes is cleared, on a host that maps every range of
the box. -/
theorem Elf64Phdr.load_maps {count : Nat} {protects : Int → Prop} (here : target.At box count) (ok : box.Ok)
    (proper : p.Proper) (spans : p.Spans) (congruent : p.Congruent) (isFile : buf.fd ≠ -1)
    (grants : os.Grants box.toLPSBoxInfo protects)
    (returns : (p.load buf box.base target).Returns os.answer h (true, target') h') :
    p.ShowsOver box.base (os.file buf.fd) h h' := by
  have loaded := (Elf64Phdr.load_hosted here.keeps ok).returns Os.answer_hosted returns
  obtain ⟨taken, -, -⟩ := (loaded.2 rfl).1
  obtain ⟨startAt, aligned, stopAt, pages⟩ := p.place ok proper taken
  obtain ⟨bssAt, rest_mod, startRest, restStop⟩ := p.bss ok proper taken spans
  have to_ := p.address ok proper taken spans
  have start_le := p.start_le
  have filesz := proper.filesz
  have span : p.p_vaddr.toNat + p.p_memsz.toNat ≤ p.stop.toNat := spans
  have inside : ∀ a, box.base.toNat + p.start.toNat ≤ a → a < box.base.toNat + p.stop.toNat →
      InPages (box.base + p.start) (p.span box.base) (a / 4096) := fun a above below =>
    (pages _).mpr ((p.onPage_of_lt aligned proper).mpr ⟨above, below⟩)
  rw [Elf64Phdr.load, bufReadElfseg, if_pos isFile, mapElfseg] at returns
  simp only [Prog.returns_bind] at returns
  obtain ⟨⟨r, box'⟩, h1, mapped, rest⟩ := returns
  dsimp only at rest
  by_cases failed : r = -1
  · rw [if_pos failed, Prog.returns_pure] at rest
    cases rest.1
  rw [if_neg failed] at rest
  have replaced := lpsBoxMapat_mapsOver here.keeps.ok failed mapped
  have fileBytes : ∀ a, box.base.toNat + p.start.toNat ≤ a → a < box.base.toNat + p.stop.toNat →
      h1.byte a = os.file buf.fd (p.p_offset.toNat + a - (box.base.toNat + p.p_vaddr.toNat)) := by
    intro a above below
    have offset : (truncp p.p_offset p.p_align).toNat + (p.p_vaddr.toNat - p.start.toNat) = p.p_offset.toNat :=
      congruent
    rw [replaced.inside a (inside a above below), Os.mapped, if_neg (by decide), startAt]
    congr 1
    omega
  by_cases longer : p.p_memsz > p.p_filesz
  · rw [if_pos longer] at rest
    by_cases readOnly : pflags p.p_flags &&& PROT_WRITE = 0
    · rw [if_pos readOnly, Prog.returns_pure] at rest
      cases rest.1
    rw [if_neg readOnly] at rest
    simp only [Prog.returns_bind, Prog.returns_ask] at rest
    obtain ⟨_, h2, cleared, rest⟩ := rest
    simp only [Os.answer, Prod.mk.injEq] at cleared
    obtain ⟨-, rfl⟩ := cleared
    have count : (p.bssRest box.base - p.bssStart box.base).toNat =
        (p.bssRest box.base).toNat - (p.bssStart box.base).toNat := BitVec.toNat_sub_of_le startRest
    have shownTo : ∀ i < p.p_memsz.toNat, box.base.toNat + p.p_vaddr.toNat + i < (p.bssRest box.base).toNat →
        (h1.write (p.bssStart box.base) (p.bssRest box.base - p.bssStart box.base) fun _ => 0).byte
          (box.base.toNat + p.p_vaddr.toNat + i) = p.content (os.file buf.fd) i := by
      intro i less below
      simp only [OsMem.write, bssAt, count]
      rw [Elf64Phdr.content]
      by_cases inFile : i < p.p_filesz.toNat
      · rw [if_neg (by omega), if_pos inFile, fileBytes _ (by omega) (by omega)]
        congr 1
        omega
      · rw [if_pos (by omega), if_neg inFile]
    have clearedOutside : ∀ q, ¬p.OnPage box.base q →
        h1.Unchanged (h1.write (p.bssStart box.base) (p.bssRest box.base - p.bssStart box.base) fun _ => 0) q := by
      intro q other
      apply OsMem.write_unchanged
      rintro a rfl ⟨above, below⟩
      rw [bssAt] at above
      rw [count] at below
      exact other ((p.onPage_of_lt aligned proper).mpr ⟨by omega, by omega⟩)
    have mappedOutside : ∀ q, ¬p.OnPage box.base q → h.Unchanged h1 q :=
      fun q other => replaced.outside q fun mem => other ((pages q).mp mem)
    by_cases before : p.bssRest box.base < box.base + p.stop
    · have takesRest := p.taken_rest ok proper taken spans before
      have here' := (here.mapat ok taken.1 (proper.pages ok.tracked.paged)).returns grants.answer mapped
      rw [Elf64Phdr.bssRest, Elf64Phdr.bssStart] at before
      rw [if_pos before] at rest
      simp only [Prog.returns_bind] at rest
      obtain ⟨⟨r', box''⟩, h3, mappedRest, rest⟩ := rest
      obtain rfl := ElfTarget.record_returns rest
      have here'' := (here'.1.mapat ok takesRest.1 takesRest.2.2.2).returns grants.answer mappedRest
      have succeeded : r' ≠ -1 := fun failed => takesRest.ne_neg_one ok ((here''.2.1 takesRest).symm.trans failed)
      have overRest := lpsBoxMapat_mapsOver here'.1.keeps.ok succeeded mappedRest
      have size : (box.base + p.stop - p.bssRest box.base).toNat =
          box.base.toNat + p.stop.toNat - (p.bssRest box.base).toNat := by
        rw [BitVec.toNat_sub_of_le (by rw [BitVec.le_def, stopAt]; exact restStop), stopAt]
      have pagesRest : ∀ q, InPages (p.bssRest box.base) (box.base + p.stop - p.bssRest box.base) q ↔
          (p.bssRest box.base).toNat ≤ 4096 * q ∧ 4096 * q < box.base.toNat + p.stop.toNat := by
        intro q
        have stop_mod := proper.stop_mod
        have start_mod := proper.start_mod
        have small := (box.base + p.stop).isLt
        rw [InPages, hostPages, size]
        omega
      constructor
      · intro i less
        by_cases below : box.base.toNat + p.p_vaddr.toNat + i < (p.bssRest box.base).toNat
        · rw [(overRest.outside _ fun mem => ?_).byte _ rfl]
          · exact shownTo i less below
          · have there := ((pagesRest _).mp mem).1
            omega
        · rw [overRest.inside _ ((pagesRest _).mpr ⟨by omega, by omega⟩), Elf64Phdr.content, if_neg (by omega)]
          rfl
      · intro q other
        have far : ¬InPages (p.bssRest box.base) (box.base + p.stop - p.bssRest box.base) q := by
          intro mem
          obtain ⟨above, below⟩ := (pagesRest q).mp mem
          exact other ⟨by omega, below⟩
        exact ((mappedOutside q other).trans ((clearedOutside q other).log _)).trans (overRest.outside q far)
    · rw [Elf64Phdr.bssRest, Elf64Phdr.bssStart] at before
      rw [if_neg before] at rest
      obtain rfl := ElfTarget.record_returns rest
      have whole : box.base.toNat + p.stop.toNat ≤ (p.bssRest box.base).toNat := by
        rw [BitVec.lt_def, stopAt] at before
        exact Nat.not_lt.mp before
      exact ⟨fun i less => shownTo i less (by omega),
        fun q other => (mappedOutside q other).trans ((clearedOutside q other).log _)⟩
  · rw [if_neg longer] at rest
    obtain rfl := ElfTarget.record_returns rest
    have same : p.p_memsz.toNat = p.p_filesz.toNat := by
      rw [gt_iff_lt, BitVec.lt_def] at longer
      omega
    constructor
    · intro i less
      rw [fileBytes _ (by omega) (by omega), Elf64Phdr.content, if_pos (by omega)]
      congr 1
      omega
    · exact fun q other => replaced.outside q fun mem => other ((pages q).mp mem)

/-! ## All segments -/

/-- A segment that is loaded leaves the box in order. -/
theorem Elf64Phdr.load_at {count : Nat} {done : Bool} (here : target.At box count)
    (returns : (p.load buf box.base target).Returns os.answer h (done, target') h') :
    ∃ count', target'.At box count' := by
  have kept : KeptByMapat fun box' => box.Keeps box' ∧ box'.mm.Sound := by
    rintro box' addr size prot flags fd off ⟨keeps, sound⟩
    apply ((lpsBoxMapat_loading keeps.ok).and (LPSBox.lpsBoxMapat_sound keeps.ok sound (fun _ => trivial)
      fun _ => trivial) fun _ _ same => same).mono
    rintro ⟨r, box''⟩ ⟨⟨keeps', -⟩, sound'⟩
    exact ⟨keeps.trans keeps', sound'⟩
  obtain ⟨keeps, sound⟩ := (kept.bufReadElfseg ⟨here.keeps, here.sound⟩).returns MemWorld.answer_refuses returns
  exact ⟨_, keeps, sound, rfl⟩

/-- Each of these segments is shown where it is loaded. -/
def ShowsEach (os : Os) (box : LPSBox) (buf : Buf) (data : Nat → Byte) (phdrs : List Elf64Phdr) : Prop :=
  ∀ p ∈ phdrs, p.Proper → ∀ target count target' h h', target.At box count →
    (p.load buf box.base target).Returns os.answer h (true, target') h' → p.ShowsOver box.base data h h'

/-- What is left of a segment when the loop has ended. -/
structure Elf64Phdr.Stands (p : Elf64Phdr) (box : LPSBox) (data : Nat → Byte) (last : Word) (h : OsMem) :
    Prop where
  proper : p.Proper
  taken : p.taken box box.base
  before : box.base + p.stop ≤ last
  shown : p.Shown box.base data h

/-- A segment stays if no page of it changes. -/
theorem Elf64Phdr.Shown.kept (ok : box.Ok) (proper : p.Proper) (taken : p.taken box box.base)
    (spans : p.Spans) (shown : p.Shown box.base data h)
    (same : ∀ q, p.OnPage box.base q → h.Unchanged h' q) : p.Shown box.base data h' := by
  obtain ⟨-, aligned, -, -⟩ := p.place ok proper taken
  have start_le := p.start_le
  have span : p.p_vaddr.toNat + p.p_memsz.toNat ≤ p.stop.toNat := spans
  intro i less
  have onPage := (@Elf64Phdr.onPage_of_lt p box.base aligned proper (box.base.toNat + p.p_vaddr.toNat + i)).mpr
    ⟨by omega, by omega⟩
  rw [(same _ onPage).byte _ rfl]
  exact shown i less

theorem Elf64Phdr.Apart.onPage {q : Nat} (apart : p.Apart p') (onPage : p.OnPage base q) : ¬p'.OnPage base q := by
  rintro ⟨above, below⟩
  obtain ⟨above', below'⟩ := onPage
  rcases apart with first | second
  · rw [BitVec.le_def] at first
    omega
  · rw [BitVec.le_def] at second
    omega

/-- The loop shows all segments, and changes no other pages. -/
theorem elfLoop_shows {s s' : ElfLoop} {count : Nat} (ok : box.Ok) (nonzero : box.base ≠ 0)
    (spans : ∀ p ∈ loadable phdrs, p.Spans) (each : ShowsEach os box buf data (loadable phdrs))
    (apart : (loadable phdrs).Pairwise Elf64Phdr.Apart) (here : target.At box count)
    (atBase : s.base = box.base)
    (returns : (elfLoop box.base buf phdrs s target).Returns os.answer h (some s', target') h') :
    (∀ p ∈ loadable phdrs, p.Stands box data s'.last h') ∧ s.last ≤ s'.last ∧
      (∀ q, (∀ p ∈ loadable phdrs, ¬p.OnPage box.base q) → h.Unchanged h' q) ∧
      ∃ count', target'.At box count' := by
  induction phdrs generalizing s target count h with
  | nil =>
      rw [elfLoop, Prog.returns_pure, Prod.mk.injEq] at returns
      obtain ⟨⟨same, rfl⟩, rfl⟩ := returns
      cases same
      exact ⟨List.forall_mem_nil _, BitVec.le_refl _, fun q _ => .refl, count, here⟩
  | cons p phdrs ih =>
      by_cases skips : p.skipped = true
      · rw [elfLoop, if_pos skips] at returns
        rw [loadable_skipped skips] at spans each apart ⊢
        exact ih spans each apart here atBase returns
      rw [elfLoop, if_neg skips] at returns
      rw [loadable_kept skips] at spans each apart ⊢
      obtain ⟨spansHere, spansLater⟩ := List.forall_mem_cons.mp spans
      obtain ⟨apartHere, apartLater⟩ := List.pairwise_cons.mp apart
      by_cases rejected : p.accepted (4 * 1024) = false
      · rw [rejected, Bool.not_false, if_pos rfl, Prog.returns_pure] at returns
        cases returns.1
      have accepted : p.accepted (4 * 1024) = true := Bool.not_eq_false _ ▸ rejected
      have proper := Elf64Phdr.proper_of_accepted accepted
      rw [accepted, Bool.not_true, if_neg Bool.false_ne_true, Prog.returns_bind] at returns
      obtain ⟨⟨done, middle⟩, h1, loaded, rest⟩ := returns
      rw [atBase] at loaded
      dsimp only at rest
      cases done with
      | false =>
          rw [Bool.not_false, if_pos rfl, Prog.returns_pure] at rest
          cases rest.1
      | true =>
          rw [Bool.not_true, if_neg Bool.false_ne_true, atBase, if_neg nonzero] at rest
          have taken := ((Elf64Phdr.load_hosted here.keeps ok).returns Os.answer_hosted loaded).2 rfl
          have shows := each p List.mem_cons_self proper target count middle h h1 here loaded
          obtain ⟨count', here'⟩ := Elf64Phdr.load_at here loaded
          have eachLater : ShowsEach os box buf data (loadable phdrs) :=
            fun p mem => each p (List.mem_cons_of_mem _ mem)
          obtain ⟨stands, lastLe, outside, at_⟩ := ih spansLater eachLater apartLater here' rfl rest
          have isMax : box.base + p.stop ≤ s'.last ∧ s.last ≤ s'.last := by
            dsimp only at lastLe
            rw [BitVec.le_def] at lastLe ⊢
            rw [BitVec.le_def]
            split at lastLe
            · rename_i more
              rw [gt_iff_lt, BitVec.lt_def] at more
              omega
            · rename_i less
              rw [gt_iff_lt, BitVec.lt_def] at less
              omega
          have kept : p.Shown box.base data h' :=
            Elf64Phdr.Shown.kept ok proper taken.1.1 spansHere shows.shown fun q onPage =>
              outside q fun p' mem => (apartHere p' mem).onPage onPage
          refine ⟨List.forall_mem_cons.mpr ⟨⟨proper, taken.1.1, isMax.1, kept⟩, stands⟩, isMax.2,
            fun q others => ?_, at_⟩
          obtain ⟨notHere, notLater⟩ := List.forall_mem_cons.mp others
          exact (shows.outside q notHere).trans (outside q notLater)

/-! ## Images -/

/-- The segments of an image end by the end of their pages, their pages do not overlap, and their bytes
are in the image. -/
structure Buf.Placed (buf : Buf) : Prop where
  spans : ∀ p ∈ loadable buf.phdrs, p.Spans
  apart : (loadable buf.phdrs).Pairwise Elf64Phdr.Apart
  inside : ∀ p ∈ loadable buf.phdrs, p.p_offset.toNat + p.p_filesz.toNat ≤ buf.size.toNat

variable {info : LPSBoxInfo} {opts : LPSLinuxOpts} {kfds : Nat → Option Int} {proc : LPSProc}

/-- What has been done when an image was accepted. -/
theorem procLoad_accepted {new : LPSProc}
    (returns : (new.procLoad buf).Returns os.answer h (true, proc) h') :
    buf.headerOk = true ∧ buf.tableOk = true ∧ ∃ h1 s target h2 r box',
      (elfLoop new.box.base buf buf.phdrs ⟨new.box.base, 0, 0⟩ new.toElfTarget).Returns os.answer h1
        (some s, target) h2 ∧ r ≠ -1 ∧
      (lpsBoxMapat target.box s.last new.opts.brksize PROT_NONE (MAP_PRIVATE ||| MAP_ANONYMOUS) (-1) 0).Returns
        os.answer h2 (r, box') h' := by
  rw [LPSProc.procLoad, Prog.returns_bind] at returns
  obtain ⟨⟨result, target⟩, h1, one, rest⟩ := returns
  have goesOn : result ≠ none := by
    rintro rfl
    rw [Prog.returns_pure] at rest
    cases rest.1
  have fails : ∀ {target' : ElfTarget} {h h' : OsMem},
      ¬(pure (none, target') : HostProg (Option ElfLoaded × ElfTarget)).Returns os.answer h (result, target) h' := by
    intro target' h h' pure_
    rw [Prog.returns_pure] at pure_
    exact goesOn (congrArg Prod.fst pure_.1).symm
  rw [elfLoadOne] at one
  by_cases headerOk : buf.headerOk = true
  · rw [headerOk, Bool.not_true, if_neg Bool.false_ne_true] at one
    simp only [malloc, Prog.returns_bind, Prog.returns_ask] at one
    obtain ⟨memory, h2, -, one⟩ := one
    cases memory with
    | false =>
        rw [Bool.not_false, if_pos rfl] at one
        exact absurd one fails
    | true =>
        rw [Bool.not_true, if_neg Bool.false_ne_true] at one
        by_cases tableOk : buf.tableOk = true
        · rw [tableOk, Bool.not_true, if_neg Bool.false_ne_true, Prog.returns_bind] at one
          obtain ⟨⟨loop, target'⟩, h3, looped, one⟩ := one
          cases loop with
          | none => exact absurd one fails
          | some s =>
              dsimp only at one
              rw [Prog.returns_pure, Prod.mk.injEq] at one
              obtain ⟨⟨rfl, rfl⟩, rfl⟩ := one
              dsimp only at rest
              rw [Prog.returns_bind] at rest
              obtain ⟨⟨r, box'⟩, h4, mapped, rest⟩ := rest
              rw [Prog.returns_pure, Prod.mk.injEq] at rest
              obtain ⟨⟨succeeded, -⟩, rfl⟩ := rest
              exact ⟨headerOk, tableOk, h2, s, target', h3, r, box', looped, by simpa using succeeded, mapped⟩
        · rw [Bool.eq_false_iff.mpr tableOk, Bool.not_false, if_pos rfl] at one
          exact absurd one fails
  · rw [Bool.eq_false_iff.mpr headerOk, Bool.not_false, if_pos rfl] at one
    exact absurd one fails

/-- After an image was accepted, all its segments are in memory. -/
theorem procLoad_shows (fits : info.base.toNat + info.size.toNat < 2 ^ 64) (nonzero : info.base ≠ 0)
    (placed : buf.Placed) (each : ShowsEach os info.track buf data (loadable buf.phdrs))
    (returns : ((lpsProcNew info opts kfds).procLoad buf).Returns os.answer h (true, proc) h') :
    ∀ p ∈ loadable buf.phdrs, p.Shown info.base data h' := by
  have ok : info.track.Ok := LPSBoxInfo.track_ok fits
  obtain ⟨-, -, h1, s, target, h2, r, box', looped, -, mapped⟩ := procLoad_accepted returns
  obtain ⟨stands, -, -, count, here⟩ := @elfLoop_shows buf (lpsProcNew info opts kfds).toElfTarget target
    info.track os h1 h2 data buf.phdrs ⟨info.base, 0, 0⟩ s 0 ok nonzero placed.spans each placed.apart
    (lpsProcNew_at ok) rfl looped
  intro p mem
  obtain ⟨proper, taken, before, shown⟩ := stands p mem
  apply shown.kept ok proper taken (placed.spans p mem)
  intro q onPage
  apply lpsBoxMapat_outside here.keeps.ok mapped
  rintro ⟨above, -⟩
  obtain ⟨-, aligned, stopAt, -⟩ := p.place ok proper taken
  have start_mod := proper.start_mod
  have stop_mod := proper.stop_mod
  have below := onPage.2
  rw [BitVec.le_def, stopAt] at before
  omega

/-- A load is accepted. -/
def Accepts (load : HostProg (Bool × LPSProc)) (os : Os) (h : OsMem) : Prop :=
  ∃ proc h', load.Returns os.answer h (true, proc) h'

theorem accepts_of_played {load : HostProg (Bool × LPSProc)}
    (played : (load.play os.answer h).1.toOption.map Prod.fst = some true) : Accepts load os h := by
  rcases seen : load.play os.answer h with ⟨reason | ⟨done, proc⟩, h'⟩
  · rw [seen] at played
    cases played
  · rw [seen] at played
    cases played
    exact ⟨proc, h', seen⟩

/-- A host with the small image in its memory and in its files. -/
def imageOs : Os := { servingOs with file := fun _ => smallImage.data, image := smallImage.data }

theorem imageOs_grants (info : LPSBoxInfo) : imageOs.Grants info (0 ≤ ·) :=
  ⟨fun _ => rfl, fun _ _ _ _ _ _ _ _ => rfl, fun _ => Int.le_refl 0⟩

/-- The segment of the small image. -/
def smallSegment : Elf64Phdr := ⟨1, 6, 0, 0, 120, 4096, 4096⟩

/-- The small image in a file, or in memory. -/
def smallBuf (fd : Int) : Buf := ⟨fd, smallImage.data, smallImage.size⟩

theorem loadable_smallBuf (fd : Int) : loadable (smallBuf fd).phdrs = [smallSegment] := by
  have same : (smallBuf fd).phdrs = [smallSegment] := Buf.phdrs_elfImage (by decide) (by decide)
  rw [same]
  decide

theorem smallSegment_loadable (fd : Int) : smallSegment ∈ loadable (smallBuf fd).phdrs := by
  rw [loadable_smallBuf]
  exact List.mem_singleton_self _

theorem placed_smallBuf (fd : Int) : (smallBuf fd).Placed := by
  constructor
  · intro p mem
    rw [loadable_smallBuf, List.mem_singleton] at mem
    rw [mem, Elf64Phdr.Spans]
    decide +kernel
  · rw [loadable_smallBuf]
    exact List.pairwise_singleton _ _
  · intro p mem
    rw [loadable_smallBuf, List.mem_singleton] at mem
    rw [mem]
    have inside : smallSegment.p_offset.toNat + smallSegment.p_filesz.toNat ≤ smallImage.size.toNat := by
      decide +kernel
    exact inside

/-- Whatever the host answers: when `lps_proc_load` accepts an image in memory, each segment has its
bytes at its address, and zeroes behind them. -/
theorem lpsProcLoad_shows {size : Word} (fits : info.base.toNat + info.size.toNat < 2 ^ 64)
    (nonzero : info.base ≠ 0) (placed : (Buf.mk (-1) os.image size).Placed)
    (returns : ((lpsProcNew info opts kfds).lpsProcLoad os.image size).Returns os.answer h (true, proc) h') :
    ∀ p ∈ loadable (Buf.mk (-1) os.image size).phdrs, p.Shown info.base os.image h' := by
  have ok : info.track.Ok := LPSBoxInfo.track_ok fits
  apply procLoad_shows fits nonzero placed _ returns
  intro p mem proper target count target' h h' here loaded
  exact p.load_copies here.keeps ok proper (placed.spans p mem) rfl loaded

/-- The small image is accepted from memory, and shown. -/
theorem lpsProcLoad_shows_small :
    ∃ proc h', ((lpsProcNew smallBox smallOpts fun _ => none).lpsProcLoad smallImage.data
        smallImage.size).Returns imageOs.answer bareHost (true, proc) h' ∧
      smallSegment.Shown smallBox.base smallImage.data h' := by
  obtain ⟨proc, h', returns⟩ := @accepts_of_played imageOs bareHost
    ((lpsProcNew smallBox smallOpts fun _ => none).lpsProcLoad smallImage.data smallImage.size)
    (by decide +kernel)
  have placed : (Buf.mk (-1) imageOs.image smallImage.size).Placed := placed_smallBuf (-1)
  exact ⟨proc, h', returns, lpsProcLoad_shows (by decide) (by decide) placed returns smallSegment
    (smallSegment_loadable (-1))⟩

/-- On a host that maps every range of the box: when `lps_proc_load_fd` accepts a file whose offsets
fit its addresses, each segment has its bytes at its address, and zeroes behind them. -/
theorem lpsProcLoadFd_shows {size : Word} {fd : Int} {protects : Int → Prop}
    (fits : info.base.toNat + info.size.toNat < 2 ^ 64) (nonzero : info.base ≠ 0) (isFile : fd ≠ -1)
    (grants : os.Grants info protects) (placed : (Buf.mk fd (os.file fd) size).Placed)
    (congruent : ∀ p ∈ loadable (Buf.mk fd (os.file fd) size).phdrs, p.Congruent)
    (returns : ((lpsProcNew info opts kfds).lpsProcLoadFd fd (some (os.file fd, size))).Returns os.answer h
      (true, proc) h') :
    ∀ p ∈ loadable (Buf.mk fd (os.file fd) size).phdrs, p.Shown info.base (os.file fd) h' := by
  have ok : info.track.Ok := LPSBoxInfo.track_ok fits
  apply procLoad_shows fits nonzero placed _ returns
  intro p mem proper target count target' h h' here loaded
  exact p.load_maps here ok proper (placed.spans p mem) (congruent p mem) isFile grants loaded

/-- The small image is accepted from a file, and shown. -/
theorem lpsProcLoadFd_shows_small :
    ∃ proc h', ((lpsProcNew smallBox smallOpts fun _ => none).lpsProcLoadFd 3
        (some (smallImage.data, smallImage.size))).Returns imageOs.answer bareHost (true, proc) h' ∧
      smallSegment.Shown smallBox.base smallImage.data h' := by
  have congruent : ∀ p ∈ loadable (smallBuf 3).phdrs, p.Congruent := by
    intro p mem
    rw [loadable_smallBuf, List.mem_singleton] at mem
    rw [mem, Elf64Phdr.Congruent]
    decide +kernel
  obtain ⟨proc, h', returns⟩ := @accepts_of_played imageOs bareHost
    ((lpsProcNew smallBox smallOpts fun _ => none).lpsProcLoadFd 3 (some (smallImage.data, smallImage.size)))
    (by decide +kernel)
  have placed : (Buf.mk 3 (imageOs.file 3) smallImage.size).Placed := placed_smallBuf 3
  exact ⟨proc, h', returns, lpsProcLoadFd_shows (by decide) (by decide) (by decide)
    (imageOs_grants smallBox) placed congruent returns smallSegment
    (smallSegment_loadable 3)⟩

end Lps.Linux

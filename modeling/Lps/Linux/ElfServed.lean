import Lps.Core.BoxServe
import Lps.Linux.Layout

/-!
# The loader on a host that serves it

With memory and a host that maps every range of pages of the box, what becomes of a segment
depends on its header, on the length of the file and on the box only.  The loop comes to a
segment when it has accepted, mapped, read and recorded those in front of it.
-/

namespace Lps.Linux

open Lps.Core Lps.Program

/-! ## Segments -/

namespace Elf64Phdr

/-- The length of the segment, as `buf_read_elfseg` computes it. -/
def span (p : Elf64Phdr) (base : Word) : Word := base + p.stop - (base + p.start)

/-- What `buf_read_elfseg` asks of a segment that it has mapped: the image in memory has all
its bytes, and in a file it is writable when it is longer than those. -/
def reads (p : Elf64Phdr) (buf : Buf) : Prop :=
  (buf.fd ≠ -1 → p.p_memsz > p.p_filesz → pflags p.p_flags &&& PROT_WRITE ≠ 0) ∧
    (buf.fd = -1 → buf.readCount p.p_filesz p.p_offset = p.p_filesz)

instance (p : Elf64Phdr) (buf : Buf) : Decidable (p.reads buf) :=
  inferInstanceAs (Decidable (_ ∧ _))

/-- `bss_start`. -/
def bssStart (p : Elf64Phdr) (base : Word) : Word :=
  base + p.start + (p.p_vaddr - p.start) + p.p_filesz

/-- `bss_rest`. -/
def bssRest (p : Elf64Phdr) (base : Word) : Word := ceilp (p.bssStart base) (4 * 1024)

/-- A segment of a file needs pages behind those of the file. -/
def hasRest (p : Elf64Phdr) (buf : Buf) (base : Word) : Prop :=
  buf.fd ≠ -1 ∧ p.p_memsz > p.p_filesz ∧ p.bssRest base < base + p.stop

instance (p : Elf64Phdr) (buf : Buf) (base : Word) : Decidable (p.hasRest buf base) :=
  inferInstanceAs (Decidable (_ ∧ _))

/-- The pages behind those of the file pass the assertion of the box. -/
def restHolds (p : Elf64Phdr) (box : LPSBox) (buf : Buf) (base : Word) : Prop :=
  p.hasRest buf base → box.holds (p.bssRest base) (base + p.stop - p.bssRest base) = true

instance (p : Elf64Phdr) (box : LPSBox) (buf : Buf) (base : Word) :
    Decidable (p.restHolds box buf base) :=
  inferInstanceAs (Decidable (_ → _))

/-- The box takes the segment. -/
def taken (p : Elf64Phdr) (box : LPSBox) (base : Word) : Prop :=
  box.Takes (base + p.start) (p.span base)

instance (p : Elf64Phdr) (box : LPSBox) (base : Word) : Decidable (p.taken box base) :=
  inferInstanceAs (Decidable (box.Takes _ _))

/-- The segment is mapped and read. -/
def loads (p : Elf64Phdr) (box : LPSBox) (buf : Buf) (base : Word) : Prop :=
  p.taken box base ∧ p.reads buf ∧ p.restHolds box buf base

instance (p : Elf64Phdr) (box : LPSBox) (buf : Buf) (base : Word) : Decidable (p.loads box buf base) :=
  inferInstanceAs (Decidable (_ ∧ _))

/-- What the tests of the loop say of a segment. -/
structure Proper (p : Elf64Phdr) : Prop where
  align_mod : p.p_align.toNat % 4096 = 0
  filesz : p.p_filesz.toNat ≤ p.p_memsz.toNat
  start_mod : p.start.toNat % 4096 = 0
  stop_mod : p.stop.toNat % 4096 = 0
  proper : p.start.toNat < p.stop.toNat
  stop_lt : p.stop.toNat < 2 ^ 30

theorem proper_of_accepted {p : Elf64Phdr} (accepted : p.accepted (4 * 1024) = true) : p.Proper := by
  simp only [Elf64Phdr.accepted, Bool.and_eq_true, Bool.not_eq_true', Bool.or_eq_false_iff,
    decide_eq_true_eq, decide_eq_false_iff_not, ge_iff_le, BitVec.le_def, BitVec.lt_def] at accepted
  obtain ⟨⟨isAligned, sizes⟩, ⟨proper, -⟩, below⟩ := accepted
  have multiple := umod_page_eq_zero.mp isAligned
  have codeMax : CODE_MAX.toNat = 2 ^ 30 := rfl
  rw [codeMax] at below
  exact ⟨multiple, Nat.not_lt.mp sizes, truncp_mod multiple, ceilp_mod multiple,
    Nat.not_le.mp proper, Nat.not_le.mp below⟩

variable {p : Elf64Phdr} {base : Word}

/-- The base does not matter for the length. -/
theorem Proper.span (proper : p.Proper) : (p.span base).toNat = p.stop.toNat - p.start.toNat := by
  have less := proper.proper
  rw [Elf64Phdr.span]
  bv_omega

/-- A segment has pages. -/
theorem Proper.pages (proper : p.Proper) {mm : MMAddrSpace} (paged : mm.p2pagesize = 12) :
    mm.mmceil (p.span base) ≠ 0 := by
  intro none
  have zero := congrArg BitVec.toNat none
  rw [MMAddrSpace.mmceil_hostPages paged, hostPages, proper.span] at zero
  have less := proper.proper
  have start_mod := proper.start_mod
  have stop_mod := proper.stop_mod
  have below := proper.stop_lt
  change _ = 0 at zero
  omega

/-- So do the pages behind those of a file. -/
theorem Proper.restPages (proper : p.Proper) {box : LPSBox} (ok : box.Ok) (taken : p.taken box base)
    (before : p.bssRest base < base + p.stop) :
    (p.bssRest base).toNat % 4096 = 0 ∧ box.mm.mmceil (base + p.stop - p.bssRest base) ≠ 0 := by
  obtain ⟨contains, places, -⟩ := taken.contains ok
  have fits := ok.fits
  have span := @Proper.span p base proper
  have start_mod := proper.start_mod
  have stop_mod := proper.stop_mod
  have rest_mod : (p.bssRest base).toNat % 4096 = 0 := ceilp_mod (by decide)
  have aligned := places.1
  have stopAt : (base + p.stop).toNat = (base + p.start).toNat + (p.span base).toNat := by
    have below := contains.2
    rw [Elf64Phdr.span] at below ⊢
    bv_omega
  have more : (base + p.stop - p.bssRest base).toNat =
      (base + p.stop).toNat - (p.bssRest base).toNat := by
    bv_omega
  rw [BitVec.lt_def] at before
  refine ⟨rest_mod, fun none => ?_⟩
  have zero := congrArg BitVec.toNat none
  rw [MMAddrSpace.mmceil_hostPages ok.tracked.paged, hostPages, more] at zero
  have below := contains.2
  change _ = 0 at zero
  omega

end Elf64Phdr

/-! ## One segment -/

/-- The call of `buf_read_elfseg` in the loop. -/
def Elf64Phdr.load (p : Elf64Phdr) (buf : Buf) (base : Word) (target : ElfTarget) :
    HostProg (Bool × ElfTarget) :=
  bufReadElfseg target (base + p.start) (p.p_vaddr - p.start) (base + p.stop) p.p_offset p.p_filesz
    p.p_memsz (pflags p.p_flags) buf (4 * 1024) p.p_align

variable {p : Elf64Phdr} {buf : Buf} {base : Word} {target target' : ElfTarget} {box : LPSBox}
  {protects : Int → Prop}

/-- The loader has come this far: the box is in order, and so many segments are recorded. -/
structure ElfTarget.At (target : ElfTarget) (box : LPSBox) (count : Nat) : Prop where
  keeps : box.Keeps target.box
  sound : target.box.mm.Sound
  recorded : target.seginfo.length = count

/-- Another range is mapped. -/
theorem ElfTarget.At.mapat {addr size : Word} {prot flags : CInt} {fd : Int} {off : Word}
    {count : Nat} (here : target.At box count) (ok : box.Ok) (inBox : box.holds addr size = true)
    (pages : box.mm.mmceil size ≠ 0) :
    (lpsBoxMapat target.box addr size prot flags fd off).Meets (granting box.toLPSBoxInfo protects)
      fun (r, box') => ({ target with box := box' } : ElfTarget).At box count ∧
        (box.Takes addr size → r = addr) ∧ (¬box.Takes addr size → r = -1) := by
  have sounds := @LPSBox.lpsBoxMapat_sound target.box permitted addr size prot flags fd off
    here.keeps.ok here.sound (fun _ => trivial) fun _ => trivial
  by_cases takes : box.Takes addr size
  · have maps := @LPSBox.lpsBoxMapat_granted target.box addr size prot flags fd off protects
      here.keeps.ok here.sound ((here.keeps.takes_iff ok).mpr takes)
    rw [here.keeps.info] at maps
    apply (maps.and sounds fun _ _ _ => trivial).mono
    rintro ⟨r, box'⟩ ⟨⟨mapped, keeps⟩, sound⟩
    exact ⟨⟨here.keeps.trans keeps, sound, here.recorded⟩, fun _ => mapped, fun not => absurd takes not⟩
  · obtain ⟨held, isAligned, accepted, -⟩ := @here.keeps.tests _ _ addr size ok
    have declines := @LPSBox.lpsBoxMapat_declined target.box addr size prot flags fd off protects
      here.keeps.ok (held.trans inBox) (by
        rw [isAligned, accepted]
        exact fun both => takes ⟨inBox, both.1, both.2, pages⟩)
    rw [here.keeps.info] at declines
    apply (declines.and sounds fun _ _ _ => trivial).mono
    rintro ⟨r, box'⟩ ⟨⟨failed, rfl⟩, sound⟩
    exact ⟨⟨here.keeps, sound, here.recorded⟩, fun all => absurd all takes, fun _ => failed⟩

/-- Recording a segment needs room. -/
theorem ElfTarget.At.record {seg : ElfSeg} {count : Nat} (here : target.At box count)
    (room : count < ELFSEGMAXN) :
    (target.record seg).Meets (granting box.toLPSBoxInfo protects) fun (done, target') =>
      done = true ∧ target'.At box (count + 1) := by
  rw [ElfTarget.record, Prog.meets_bind, Prog.meets_check, if_pos (by simpa [here.recorded] using room)]
  refine ⟨rfl, here.keeps, here.sound, ?_⟩
  rw [List.length_append, here.recorded]
  rfl

/-- A segment is loaded exactly when the box takes it, it is read, and the pages behind those of
the file pass the assertion. -/
theorem Elf64Phdr.load_granted {count : Nat} (here : target.At box count) (ok : box.Ok)
    (proper : p.Proper) (inBox : box.holds (base + p.start) (p.span base) = true)
    (rest : p.taken box base → p.reads buf → p.restHolds box buf base)
    (room : p.loads box buf base → count < ELFSEGMAXN) :
    (p.load buf base target).Meets (granting box.toLPSBoxInfo protects) fun (done, target') =>
      (done = true → p.loads box buf base ∧ target'.At box (count + 1)) ∧
        ((∀ r, protects r → 0 ≤ r) → p.loads box buf base → done = true) := by
  have somePages : box.mm.mmceil (p.span base) ≠ 0 := proper.pages ok.tracked.paged
  have address : p.taken box base → base + p.start ≠ -1 := fun taken => taken.ne_neg_one ok
  have fails : ∀ {target' : ElfTarget}, ¬p.loads box buf base →
      (false = true → p.loads box buf base ∧ target'.At box (count + 1)) ∧
        ((∀ r, protects r → 0 ≤ r) → p.loads box buf base → false = true) :=
    fun not => ⟨by rintro ⟨⟩, fun _ all => absurd all not⟩
  have records : ∀ {target' : ElfTarget} {seg : ElfSeg}, target'.At box count →
      p.loads box buf base →
      (target'.record seg).Meets (granting box.toLPSBoxInfo protects) fun (done, target') =>
        (done = true → p.loads box buf base ∧ target'.At box (count + 1)) ∧
          ((∀ r, protects r → 0 ≤ r) → p.loads box buf base → done = true) := by
    intro target' seg here' all
    apply (here'.record (room all)).mono
    rintro ⟨done, last⟩ ⟨rfl, at_⟩
    exact ⟨fun _ => ⟨all, at_⟩, fun _ _ => rfl⟩
  rw [load, bufReadElfseg]
  split
  · rename_i isFile
    rw [mapElfseg, Prog.meets_bind]
    apply (here.mapat ok inBox somePages).mono
    rintro ⟨r, box'⟩ ⟨here', taken, declined⟩
    dsimp only
    split
    · rename_i failed
      exact fails fun all => address all.1 ((taken all.1).symm.trans failed)
    rename_i mapped
    have isTaken : p.taken box base := by
      by_contra not
      exact mapped (declined not)
    split
    · rename_i longer
      split
      · rename_i readOnly
        exact fails fun all => all.2.1.1 isFile longer readOnly
      rename_i writable
      have isRead : p.reads buf := ⟨fun _ _ => writable, fun inMemory => absurd inMemory isFile⟩
      have restIn := rest isTaken isRead
      have all : p.loads box buf base := ⟨isTaken, isRead, restIn⟩
      rw [Prog.meets_bind]
      refine ⟨trivial, fun _ _ => ?_⟩
      rw [Prog.meets_ret]
      split
      · rename_i before
        rw [Prog.meets_bind]
        have held := restIn ⟨isFile, longer, before⟩
        apply (here'.mapat ok held (proper.restPages ok isTaken before).2).mono
        rintro ⟨_, box''⟩ ⟨here'', -⟩
        exact records here'' all
      · exact records here' all
    · rename_i whole
      have isRead : p.reads buf := ⟨fun _ longer => absurd longer whole, fun inMemory => absurd inMemory isFile⟩
      exact records here' ⟨isTaken, isRead, fun needs => absurd needs.2.1 whole⟩
  · rename_i notFile
    have inMemory : buf.fd = -1 := not_not.mp notFile
    rw [copyElfseg, Prog.meets_bind]
    apply (here.mapat ok inBox somePages).mono
    rintro ⟨r, box'⟩ ⟨here', taken, declined⟩
    dsimp only
    split
    · rename_i failed
      exact fails fun all => address all.1 ((taken all.1).symm.trans failed)
    rename_i mapped
    have isTaken : p.taken box base := by
      by_contra not
      exact mapped (declined not)
    rw [Prog.meets_bind]
    refine ⟨trivial, fun _ _ => ?_⟩
    rw [Prog.meets_ret]
    split
    · rename_i short
      exact fails fun all => short (all.2.1.2 inMemory)
    rename_i full
    have all : p.loads box buf base := ⟨isTaken, ⟨fun isFile => absurd inMemory isFile,
      fun _ => not_not.mp full⟩, fun needs => absurd inMemory needs.1⟩
    have held : box'.holds (base + p.start) (base + p.stop - (base + p.start)) = true := by
      rw [(@here'.keeps.tests _ _ _ _ ok).1]
      exact inBox
    rw [Prog.meets_bind, lpsBoxMprotect, Prog.meets_bind, Prog.meets_check]
    rw [if_pos held]
    refine ⟨trivial, fun result allowed => ?_⟩
    rw [Prog.meets_ret]
    split
    · rename_i negative
      exact ⟨by rintro ⟨⟩, fun nonneg _ => absurd negative (Int.not_lt.mpr (nonneg _ allowed))⟩
    · exact records here' all

/-! ## The loop -/

/-- The segments that the loop comes to, each with the base it has then.  It stops behind a
segment that is not loaded, and when there is no room to record another one. -/
def tried (box : LPSBox) (buf : Buf) : Nat → Word → List Elf64Phdr → List (Word × Elf64Phdr)
  | _, _, [] => []
  | room, base, p :: phdrs =>
      if p.skipped then tried box buf room base phdrs
      else if !p.accepted (4 * 1024) then []
      else (base, p) ::
        if room ≠ 0 ∧ p.loads box buf base then tried box buf (room - 1) (p.nextBase base) phdrs
        else []

variable {room : Nat} {phdrs : List Elf64Phdr}

theorem tried_skipped (skips : p.skipped = true) :
    tried box buf room base (p :: phdrs) = tried box buf room base phdrs := by
  rw [tried, if_pos skips]

theorem tried_rejected (kept : ¬p.skipped = true) (rejected : p.accepted (4 * 1024) = false) :
    tried box buf room base (p :: phdrs) = [] := by
  rw [tried, if_neg kept, rejected]
  rfl

theorem tried_accepted (kept : ¬p.skipped = true) (accepted : p.accepted (4 * 1024) = true) :
    tried box buf room base (p :: phdrs) = (base, p) ::
      if room ≠ 0 ∧ p.loads box buf base then tried box buf (room - 1) (p.nextBase base) phdrs
      else [] := by
  rw [tried, if_neg kept, accepted]
  rfl

/-- No segment that the loop comes to brings the runtime down: each passes the assertion of
the box, so do the pages behind those of a file, and there is room to record what is loaded. -/
structure Survives (box : LPSBox) (buf : Buf) (room : Nat) (base : Word) (phdrs : List Elf64Phdr) :
    Prop where
  held : ∀ x ∈ tried box buf room base phdrs, box.holds (x.1 + x.2.start) (x.2.span x.1) = true
  rest : ∀ x ∈ tried box buf room base phdrs, x.2.taken box x.1 → x.2.reads buf →
    x.2.restHolds box buf x.1
  fits : ((tried box buf room base phdrs).filter fun x => x.2.loads box buf x.1).length ≤ room

instance : Decidable (Survives box buf room base phdrs) :=
  decidable_of_iff
    ((∀ x ∈ tried box buf room base phdrs, box.holds (x.1 + x.2.start) (x.2.span x.1) = true) ∧
      (∀ x ∈ tried box buf room base phdrs, x.2.taken box x.1 → x.2.reads buf →
        x.2.restHolds box buf x.1) ∧
      ((tried box buf room base phdrs).filter fun x => x.2.loads box buf x.1).length ≤ room)
    ⟨fun ⟨held, rest, fits⟩ => ⟨held, rest, fits⟩, fun ⟨held, rest, fits⟩ => ⟨held, rest, fits⟩⟩

/-- The loop accepts and loads all segments. -/
structure Finishes (box : LPSBox) (buf : Buf) (room : Nat) (base : Word) (phdrs : List Elf64Phdr) :
    Prop where
  accepted : ∀ p ∈ phdrs, ¬p.skipped = true → p.accepted (4 * 1024) = true
  loaded : ∀ x ∈ tried box buf room base phdrs, x.2.loads box buf x.1

instance : Decidable (Finishes box buf room base phdrs) :=
  decidable_of_iff
    ((∀ p ∈ phdrs, ¬p.skipped = true → p.accepted (4 * 1024) = true) ∧
      ∀ x ∈ tried box buf room base phdrs, x.2.loads box buf x.1)
    ⟨fun ⟨accepted, loaded⟩ => ⟨accepted, loaded⟩, fun ⟨accepted, loaded⟩ => ⟨accepted, loaded⟩⟩

theorem survives_cons (kept : ¬p.skipped = true) (accepted : p.accepted (4 * 1024) = true) :
    Survives box buf room base (p :: phdrs) ↔
      box.holds (base + p.start) (p.span base) = true ∧
        (p.taken box base → p.reads buf → p.restHolds box buf base) ∧
        (p.loads box buf base →
          room ≠ 0 ∧ Survives box buf (room - 1) (p.nextBase base) phdrs) := by
  have here := @tried_accepted p buf base box room phdrs kept accepted
  constructor
  · rintro ⟨held, rest, fits⟩
    rw [here] at held rest fits
    obtain ⟨heldHere, heldLater⟩ := List.forall_mem_cons.mp held
    obtain ⟨restHere, restLater⟩ := List.forall_mem_cons.mp rest
    refine ⟨heldHere, restHere, fun all => ?_⟩
    rw [List.filter_cons, if_pos (by simpa using all), List.length_cons] at fits
    have some : room ≠ 0 := by omega
    rw [if_pos ⟨some, all⟩] at heldLater restLater fits
    exact ⟨some, heldLater, restLater, by omega⟩
  · rintro ⟨held, rest, later⟩
    by_cases all : p.loads box buf base
    · obtain ⟨some, survives⟩ := later all
      rw [if_pos ⟨some, all⟩] at here
      refine ⟨?_, ?_, ?_⟩
      · rw [here]
        exact List.forall_mem_cons.mpr ⟨held, survives.held⟩
      · rw [here]
        exact List.forall_mem_cons.mpr ⟨rest, survives.rest⟩
      · rw [here, List.filter_cons, if_pos (by simpa using all), List.length_cons]
        have fits := survives.fits
        omega
    · rw [if_neg fun both => all both.2] at here
      refine ⟨?_, ?_, ?_⟩
      · rw [here]
        exact List.forall_mem_singleton.mpr held
      · rw [here]
        exact List.forall_mem_singleton.mpr rest
      · rw [here, List.filter_cons_of_neg (by simpa using all)]
        exact Nat.zero_le _

theorem finishes_cons (kept : ¬p.skipped = true) (some : room ≠ 0) :
    Finishes box buf room base (p :: phdrs) ↔
      p.accepted (4 * 1024) = true ∧ p.loads box buf base ∧
        Finishes box buf (room - 1) (p.nextBase base) phdrs := by
  constructor
  · rintro ⟨accepted, loaded⟩
    obtain ⟨acceptedHere, acceptedLater⟩ := List.forall_mem_cons.mp accepted
    rw [tried_accepted kept (acceptedHere kept)] at loaded
    obtain ⟨all, loadedLater⟩ := List.forall_mem_cons.mp loaded
    rw [if_pos ⟨some, all⟩] at loadedLater
    exact ⟨acceptedHere kept, all, acceptedLater, loadedLater⟩
  · rintro ⟨accepted, all, finishes⟩
    refine ⟨List.forall_mem_cons.mpr ⟨fun _ => accepted, finishes.accepted⟩, ?_⟩
    rw [tried_accepted kept accepted, if_pos ⟨some, all⟩]
    exact List.forall_mem_cons.mpr ⟨all, finishes.loaded⟩

theorem survives_skipped (skips : p.skipped = true) :
    Survives box buf room base (p :: phdrs) ↔ Survives box buf room base phdrs := by
  have same := @tried_skipped p buf base box room phdrs skips
  constructor
  · rintro ⟨held, rest, fits⟩
    rw [same] at held rest fits
    exact ⟨held, rest, fits⟩
  · rintro ⟨held, rest, fits⟩
    rw [← same] at held rest fits
    exact ⟨held, rest, fits⟩

theorem finishes_skipped (skips : p.skipped = true) :
    Finishes box buf room base (p :: phdrs) ↔ Finishes box buf room base phdrs := by
  have same := @tried_skipped p buf base box room phdrs skips
  constructor
  · rintro ⟨accepted, loaded⟩
    rw [same] at loaded
    exact ⟨(List.forall_mem_cons.mp accepted).2, loaded⟩
  · rintro ⟨accepted, loaded⟩
    rw [← same] at loaded
    exact ⟨List.forall_mem_cons.mpr ⟨fun kept => absurd skips kept, accepted⟩, loaded⟩

end Lps.Linux

import Lps.Linux.LoadWatch

/-!
# What the loader reads of an image

`buf_read` compares the sum of offset and count with the size of the image, and the sum and the
difference that it computes can both wrap around.  It reads within the image exactly when the
offset does not lie behind its end and the sum does not wrap.
-/

namespace Lps.Core

open Lps.Program Lps.Transition

/-- The call reads an image in memory. -/
def HostCall.readsImage : HostCall → Bool
  | .memcpy .. => true
  | _ => false

/-- No call of the program reads an image. -/
def imageless : Contract HostCall HostReply Fault :=
  { hosted with calls := fun c => c.readsImage = false }

theorem cbunmap_imageless : Handles imageless cbunmap fun _ _ => True := by
  intro page len info _
  rw [cbunmap, Prog.meets_bind]
  refine ⟨rfl, fun reply _ => ?_⟩
  rw [Prog.meets_ret, Prog.meets_check]
  split <;> trivial

theorem LPSBox.lpsBoxMapat_imageless {box : LPSBox} {addr size : Word} {prot flags : CInt} {fd : Int}
    {off : Word} (ok : box.Ok) :
    (lpsBoxMapat box addr size prot flags fd off).Meets imageless fun (_, box') =>
      box.Keeps box' := by
  have may : box.MayMapat imageless addr size prot flags fd off :=
    { mallocs := rfl
      asserts := fun _ => trivial
      unmaps := fun _ _ _ _ => trivial
      replaces := fun _ _ => ⟨_, cbunmap_imageless, covers_all ..⟩
      maps := fun _ _ _ => rfl
      strays := fun _ _ => rfl }
  apply (LPSBox.lpsBoxMapat_meets ok may).mono
  rintro ⟨r, box'⟩ ⟨keeps, -⟩
  exact keeps

end Lps.Core

namespace Lps.Linux

open Lps.Core Lps.Program Lps.Transition

/-! ## `buf_read` -/

/-- `buf_read` of `count` bytes at `offset` reads the image only, and as much as it has there. -/
structure Buf.ReadsRight (buf : Buf) (count offset : Word) : Prop where
  inside : ∀ i < (buf.readCount count offset).toNat, offset.toNat + i < buf.size.toNat
  available : (buf.readCount count offset).toNat =
    min count.toNat (buf.size.toNat - offset.toNat)

/-- The offset lies in the image, and the sum does not wrap around. -/
def Buf.InRange (buf : Buf) (count offset : Word) : Prop :=
  offset.toNat ≤ buf.size.toNat ∧ offset.toNat + count.toNat < 2 ^ 64

instance (buf : Buf) (count offset : Word) : Decidable (buf.InRange count offset) :=
  inferInstanceAs (Decidable (_ ∧ _))

namespace Buf

variable {buf : Buf} {count offset : Word}

/-- How many bytes are read, when the offset does not lie behind the end. -/
theorem readCount_toNat (inFile : offset.toNat ≤ buf.size.toNat) :
    (buf.readCount count offset).toNat =
      if buf.size.toNat < (offset.toNat + count.toNat) % 2 ^ 64 then
        buf.size.toNat - offset.toNat
      else count.toNat := by
  rw [readCount]
  simp only [gt_iff_lt, BitVec.lt_def, BitVec.toNat_add]
  split
  · exact BitVec.toNat_sub_of_le inFile
  · rfl

/-- Behind the end some bytes are read. -/
theorem readCount_pos (behind : buf.size.toNat < offset.toNat) :
    0 < (buf.readCount count offset).toNat := by
  have small := offset.isLt
  rw [readCount]
  simp only [gt_iff_lt, BitVec.lt_def, BitVec.toNat_add]
  split
  · rw [BitVec.toNat_sub]
    omega
  · rename_i least
    by_contra none
    have zero : count.toNat = 0 := by omega
    rw [zero, Nat.add_zero, Nat.mod_eq_of_lt small] at least
    exact least behind

/-- What is read lies in the image when the range does. -/
theorem readsRight_iff : buf.ReadsRight count offset ↔ buf.InRange count offset := by
  constructor
  · rintro ⟨inside, -⟩
    have inFile : offset.toNat ≤ buf.size.toNat := by
      by_contra behind
      have first := inside 0 (readCount_pos (Nat.not_le.mp behind))
      omega
    refine ⟨inFile, ?_⟩
    by_contra wraps
    have size := buf.size.isLt
    have bytes := @readCount_toNat buf count offset inFile
    have less := count.isLt
    rw [if_neg (by omega)] at bytes
    have last := inside (buf.size.toNat - offset.toNat) (by omega)
    omega
  · rintro ⟨inFile, noWrap⟩
    have bytes := @readCount_toNat buf count offset inFile
    rw [Nat.mod_eq_of_lt noWrap] at bytes
    have available : (buf.readCount count offset).toNat =
        min count.toNat (buf.size.toNat - offset.toNat) := by
      rw [bytes]
      split <;> omega
    refine ⟨fun i less => ?_, available⟩
    omega

end Buf

/-! ## The segments -/

/-- What the loader copies for the segments of an image in memory, one after another: what is left
are the headers of the segments that have not been read yet. -/
def readsImage (buf : Buf) : Monitor (List Elf64Phdr) (Exchange HostCall HostReply) where
  next phdrs exchange := if exchange.1.readsImage then phdrs.tail else phdrs
  expects phdrs exchange := ∀ to_ count offset, exchange.1 = .memcpy to_ count offset →
    ∃ p, phdrs.head? = some p ∧ offset = p.p_offset ∧ count = buf.readCount p.p_filesz offset ∧
      buf.ReadsRight p.p_filesz offset

/-- The headers of the segments that are loaded. -/
def loadable (phdrs : List Elf64Phdr) : List Elf64Phdr := phdrs.filter fun p => !p.skipped

variable {p : Elf64Phdr} {buf : Buf} {base : Word} {target : ElfTarget} {box : LPSBox}
  {info : LPSBoxInfo} {phdrs pending : List Elf64Phdr}

theorem loadable_skipped (skips : p.skipped = true) : loadable (p :: phdrs) = loadable phdrs :=
  List.filter_cons_of_neg (by rw [skips]; decide)

theorem loadable_kept (kept : ¬p.skipped = true) : loadable (p :: phdrs) = p :: loadable phdrs :=
  List.filter_cons_of_pos (by simpa using kept)

/-- What does not read the image is expected, and forgotten. -/
theorem imageless_watched {α : Type} {prog : HostProg α} {post : α → Prop}
    (meets : prog.Meets imageless post) :
    prog.Watched hosted (readsImage buf) (fun value m' => post value ∧ m' = pending) pending := by
  have replies : ∀ c reply, hosted.replies c reply → imageless.replies c reply := fun _ _ => id
  refine meets.watched_still replies ?_ fun _ => id
  intro c reads m reply
  change c.readsImage = false at reads
  constructor
  · rintro to_ count offset rfl
    cases reads
  · exact if_neg (by rw [reads]; decide)

/-- A file is mapped and not read. -/
theorem mapElfseg_imageless {start offset stop p_offset filesz memsz pagesize p_align : Word}
    {prot : CInt} (ok : target.box.Ok) :
    (mapElfseg target start offset stop p_offset filesz memsz prot buf pagesize p_align).Meets
      imageless fun _ => True := by
  have records : ∀ {target' : ElfTarget} {seg : ElfSeg},
      (target'.record seg).Meets imageless fun _ => True := by
    intro target' seg
    rw [ElfTarget.record, Prog.meets_bind, Prog.meets_check]
    split <;> trivial
  rw [mapElfseg, Prog.meets_bind]
  apply (LPSBox.lpsBoxMapat_imageless ok).mono
  rintro ⟨r, box'⟩ keeps
  dsimp only
  split
  · trivial
  split
  · split
    · trivial
    rw [Prog.meets_bind]
    refine ⟨rfl, fun reply _ => ?_⟩
    rw [Prog.meets_ret]
    split
    · rw [Prog.meets_bind]
      exact (LPSBox.lpsBoxMapat_imageless keeps.ok).mono fun _ _ => records
    · exact records
  · exact records

/-- A segment in memory is read once. -/
theorem Elf64Phdr.load_reads (keeps : box.Keeps target.box) (ok : box.Ok) (inMemory : buf.fd = -1)
    (fits : p.taken box base → buf.InRange p.p_filesz p.p_offset) :
    (p.load buf base target).Watched hosted (readsImage buf) (fun (done, _) m' =>
      done = true → m' = pending) (p :: pending) := by
  rw [load, bufReadElfseg, if_neg (not_not.mpr inMemory), copyElfseg]
  apply mapat_watched keeps ok (imageless_watched (LPSBox.lpsBoxMapat_imageless keeps.ok))
  rintro r box' m' keeps' mapped ⟨-, rfl⟩
  dsimp only
  split
  · rintro ⟨⟩
  rename_i succeeded
  obtain ⟨-, taken⟩ := mapped succeeded
  rw [Prog.watched_bind]
  intro reply _
  constructor
  · rintro to_ count offset ⟨⟩
    exact ⟨p, rfl, rfl, rfl, Buf.readsRight_iff.mpr (fits taken)⟩
  change (Prog.ret reply : HostProg PUnit).Watched hosted (readsImage buf) _ pending
  rw [Prog.watched_ret]
  split
  · rintro ⟨⟩
  rw [Prog.watched_bind, lpsBoxMprotect, Prog.watched_bind, Prog.watched_check]
  split
  · intro result _
    refine ⟨by rintro _ _ _ ⟨⟩, ?_⟩
    change (Prog.ret result : HostProg Int).Watched hosted (readsImage buf) _ pending
    rw [Prog.watched_ret]
    split
    · rintro ⟨⟩
    · rw [ElfTarget.record, Prog.watched_bind, Prog.watched_check]
      split
      · exact fun _ => rfl
      · trivial
  · trivial

/-- What is read of a segment that the box takes is in range when it is read as expected. -/
theorem Elf64Phdr.inRange_of_watched {count : Nat}
    {post : Bool × ElfTarget → List Elf64Phdr → Prop} (here : target.At box count) (ok : box.Ok)
    (inMemory : buf.fd = -1) (taken : p.taken box base)
    (watched : (p.load buf base target).Watched hosted (readsImage buf) post (p :: pending)) :
    buf.InRange p.p_filesz p.p_offset := by
  rw [load, bufReadElfseg, if_neg (not_not.mpr inMemory), copyElfseg] at watched
  obtain ⟨address, box', m', ⟨-, rfl⟩, goesOn⟩ := here.mapat_watched ok taken
    (imageless_watched (LPSBox.lpsBoxMapat_imageless here.keeps.ok)) watched
  dsimp only at goesOn
  rw [if_neg address, Prog.watched_bind] at goesOn
  obtain ⟨q, head, -, -, right⟩ := (goesOn ⟨⟩ trivial).1 _ _ _ rfl
  cases head
  exact Buf.readsRight_iff.mp right

/-- The monitor follows the segments. -/
theorem readsImage_follows (ok : box.Ok) :
    Follows (readsImage buf) box buf (fun p => buf.fd = -1 → buf.InRange p.p_filesz p.p_offset)
      fun phdrs m => buf.fd = -1 → m = loadable phdrs where
  skips := fun skips follows inMemory => (follows inMemory).trans (loadable_skipped skips)
  mallocs := fun follows => ⟨nofun, follows⟩
  maps := fun keeps => (imageless_watched (LPSBox.lpsBoxMapat_imageless keeps.ok)).mono
    fun _ _ _ => trivial
  watches := by
    intro p phdrs target base m keeps _ kept follows fits
    by_cases inMemory : buf.fd = -1
    · rw [follows inMemory, loadable_kept kept]
      exact (Elf64Phdr.load_reads keeps ok inMemory fun taken => fits taken inMemory).mono
        fun _ _ reads done _ => reads done
    · have maps : (p.load buf base target).Meets imageless fun _ => True := by
        rw [Elf64Phdr.load, bufReadElfseg, if_pos inMemory]
        exact mapElfseg_imageless keeps.ok
      exact (imageless_watched maps).mono fun _ _ _ _ isMemory => absurd isMemory inMemory
  needs := by
    intro p phdrs target base count m post here _ kept follows taken watched inMemory
    rw [follows inMemory, loadable_kept kept] at watched
    exact Elf64Phdr.inRange_of_watched here ok inMemory taken watched

/-! ## Processes -/

/-- Every read of an image that is loaded reads only its bytes, and as many as there are: that of
the header, that of the table of program headers when it is reached, and, whatever the host
answers, that of each segment. -/
structure ReadsImage (buf : Buf) (load : HostProg (Bool × LPSProc)) : Prop where
  header : buf.ReadsRight EHDR_SIZE 0
  table : buf.headerOk = true → buf.ehdr.e_phoff < buf.size →
    buf.ReadsRight (PHDR_SIZE * buf.ehdr.e_phnum) buf.ehdr.e_phoff
  segments : ∀ host : MemHost, (∀ made c, hosted.replies c (host made c)) →
    (readsImage buf).Accepts (loadable buf.phdrs) (load.exchanges host [])

/-- The end of the table of program headers does not wrap around when it is read, and the ranges of
the segments that are read lie in the image or at its end. -/
structure ReadsFit (box : LPSBoxInfo) (buf : Buf) : Prop where
  table : buf.headerOk = true → buf.ehdr.e_phoff < buf.size →
    buf.ehdr.e_phoff.toNat + (PHDR_SIZE * buf.ehdr.e_phnum).toNat < 2 ^ 64
  segments : buf.headerOk = true → buf.tableOk = true →
    ∀ x ∈ tried box.track buf ELFSEGMAXN box.base buf.phdrs, x.2.taken box.track x.1 →
      buf.fd = -1 → buf.InRange x.2.p_filesz x.2.p_offset

variable {opts : LPSLinuxOpts} {kfds : Nat → Option Int}

/-- The header is read right. -/
theorem header_readsRight : buf.ReadsRight EHDR_SIZE 0 := by
  rw [Buf.readsRight_iff]
  have zero : (0 : Word).toNat = 0 := rfl
  exact ⟨zero ▸ Nat.zero_le _, by decide⟩

theorem readsImage_iff (fits : info.base.toNat + info.size.toNat < 2 ^ 64) :
    ReadsImage buf ((lpsProcNew info opts kfds).procLoad buf) ↔ ReadsFit info buf := by
  have follows := @readsImage_follows buf info.track (LPSBoxInfo.track_ok fits)
  have segments : ((lpsProcNew info opts kfds).procLoad buf).Watched hosted (readsImage buf)
      (fun _ _ => True) (loadable buf.phdrs) ↔ _ := follows.procLoad_iff fits fun _ => rfl
  rw [Prog.watched_iff_accepts hosted_replies fun _ => trivial] at segments
  constructor
  · rintro ⟨-, table, accepts⟩
    refine ⟨fun headerOk before => ?_, segments.mp accepts⟩
    exact (Buf.readsRight_iff.mp (table headerOk before)).2
  · rintro ⟨table, inRange⟩
    refine ⟨header_readsRight, fun headerOk before => ?_, segments.mpr inRange⟩
    exact Buf.readsRight_iff.mpr ⟨Nat.le_of_lt before, table headerOk before⟩

/-- All that `lps_proc_load` and `lps_proc_load_fd` read of an image for a new process is there
exactly when what they read fits. -/
theorem load_reads_image_iff (fits : info.base.toNat + info.size.toNat < 2 ^ 64) :
    (∀ data size, ReadsImage ⟨-1, data, size⟩
        ((lpsProcNew info opts kfds).lpsProcLoad data size) ↔ ReadsFit info ⟨-1, data, size⟩) ∧
      ∀ fd data size, ReadsImage ⟨fd, data, size⟩
        ((lpsProcNew info opts kfds).lpsProcLoadFd fd (some (data, size))) ↔
          ReadsFit info ⟨fd, data, size⟩ :=
  ⟨fun _ _ => readsImage_iff fits, fun _ _ _ => readsImage_iff fits⟩

instance (box : LPSBoxInfo) (buf : Buf) : Decidable (ReadsFit box buf) :=
  decidable_of_iff
    ((buf.headerOk = true → buf.ehdr.e_phoff < buf.size →
        buf.ehdr.e_phoff.toNat + (PHDR_SIZE * buf.ehdr.e_phnum).toNat < 2 ^ 64) ∧
      (buf.headerOk = true → buf.tableOk = true →
        ∀ x ∈ tried box.track buf ELFSEGMAXN box.base buf.phdrs, x.2.taken box.track x.1 →
          buf.fd = -1 → buf.InRange x.2.p_filesz x.2.p_offset))
    ⟨fun ⟨table, segments⟩ => ⟨table, segments⟩, fun ⟨table, segments⟩ => ⟨table, segments⟩⟩

/-- The small image is read right. -/
theorem load_reads_image_small :
    ReadsImage smallImage ((lpsProcNew smallBox smallOpts fun _ => none).lpsProcLoad
      smallImage.data smallImage.size) :=
  ((load_reads_image_iff (by decide)).1 _ _).mpr (by decide +kernel)

/-- An image whose only segment starts eight bytes in front of the image, by its offset. -/
def frontImage : Buf :=
  .ofBytes (-1) (elfImage 0 [⟨1, 6, 0xfffffffffffffff8, 0, 16, 4096, 4096⟩] [])

/-- For it the loader copies memory of the host that lies in front of the image. -/
theorem load_reads_outside :
    ¬∀ (box : LPSBoxInfo) (opts : LPSLinuxOpts) (kfds : Nat → Option Int) (data : Nat → Byte)
      (size : Word), box.base.toNat + box.size.toNat < 2 ^ 64 →
      ReadsImage ⟨-1, data, size⟩ ((lpsProcNew box opts kfds).lpsProcLoad data size) := by
  intro claim
  have reads := claim smallBox smallOpts (fun _ => none) frontImage.data frontImage.size (by decide)
  have unfit : ¬ReadsFit smallBox ⟨-1, frontImage.data, frontImage.size⟩ := by
    decide +kernel
  exact unfit ((readsImage_iff (by decide)).mp reads)

end Lps.Linux

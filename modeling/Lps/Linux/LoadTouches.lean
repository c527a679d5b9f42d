import Lps.Core.OsFrame
import Lps.Linux.LoadReads
import Lps.Linux.LoadWrites

/-!
# Memory that the loader may touch

A copy is fatal when it reads outside of the image, or writes a page that is not mapped for writing or
lies behind the end of the file it is mapped from.  What the loader has mapped so far is followed page
by page; it touches only memory that it may touch exactly when the segments that the loop comes to are
fit for that.
-/

namespace Lps.Core

open Lps.Program Lps.Transition

/-- What is known of a page: whether it may be written, and whether there is memory behind it, or a
part of its file. -/
structure Access where
  writable : Bool
  backed : Bool

/-- What has been mapped, page by page. -/
abbrev PageMap := Nat → Access

namespace PageMap

/-- Nothing has been mapped. -/
def none : PageMap := fun _ => ⟨false, false⟩

/-- A range is mapped; if it is one of a file, this is its size. -/
def map (pages : PageMap) (fileSize addr len : Word) (prot flags : CInt) (off : Word) : PageMap := fun q =>
  if InPages addr len q then
    ⟨prot &&& PROT_WRITE ≠ 0,
      flags &&& MAP_ANONYMOUS ≠ 0 || off.toNat + 4096 * (q - addr.toNat / 4096) < fileSize.toNat⟩
  else pages q

/-- The protection of a range changes. -/
def protect (pages : PageMap) (addr len : Word) (prot : CInt) : PageMap := fun q =>
  if InPages addr len q then ⟨prot &&& PROT_WRITE ≠ 0, (pages q).backed⟩ else pages q

/-- Every byte of the range may be written. -/
def Covers (pages : PageMap) (addr len : Word) : Prop :=
  ∀ i < len.toNat, (pages ((addr.toNat + i) / 4096)).writable ∧ (pages ((addr.toNat + i) / 4096)).backed

instance (pages : PageMap) (addr len : Word) : Decidable (pages.Covers addr len) :=
  inferInstanceAs (Decidable (∀ i < len.toNat, _))

end PageMap

/-- Follows what is mapped of an image of this size, and expects copies of its bytes to memory that may
be written. -/
def touching (size : Word) : Monitor PageMap (Exchange HostCall HostReply) where
  next
    | pages, ⟨.mmap _ len prot flags _ off, reply⟩ =>
        if reply = -1 then pages else pages.map size reply len prot flags off
    | pages, ⟨.mprotect addr len prot, result⟩ =>
        if result < 0 then pages else pages.protect addr len prot
    | pages, _ => pages
  expects
    | pages, ⟨.memcpy to_ count offset, _⟩ =>
        count = 0 ∨ offset.toNat + count.toNat ≤ size.toNat ∧ pages.Covers to_ count
    | pages, ⟨.memset to_ count, _⟩ => pages.Covers to_ count
    | _, _ => True

/-- No call writes, or maps one of these pages. -/
def remapping (kept : Nat → Prop) : Contract HostCall HostReply Fault :=
  { hosted with calls := fun c => c.writes = ∅ ∧ ∀ q, kept q → c.Spares q }

variable {box : LPSBox} {addr size len off : Word} {prot flags : CInt} {fd : Int} {pages : PageMap}
  {kept : Nat → Prop}

/-- The same pages are known in both. -/
def SameOn (kept : Nat → Prop) (pages pages' : PageMap) : Prop := ∀ q, kept q → pages' q = pages q

theorem addresses_eq_empty {to_ n : Word} (none : addresses to_ n = ∅) : n = 0 := by
  by_contra pos
  have first : to_.toNat ∈ addresses to_ n :=
    ⟨Nat.le_refl _, Nat.lt_add_of_pos_right (Nat.pos_of_ne_zero fun zero => pos (BitVec.eq_of_toNat_eq zero))⟩
  rw [none] at first
  exact first

/-- A program that neither writes nor maps some pages leaves them as they are. -/
theorem remapping_touching {α : Type} {prog : HostProg α} {post : α → Prop}
    (meets : prog.Meets (remapping kept) post) :
    prog.Watched hosted (touching size) (fun value pages' => post value ∧ SameOn kept pages pages') pages := by
  refine meets.watched_frame (SameOn kept) (fun _ _ => id) (fun _ _ _ => rfl)
    (fun first second q mem => (second q mem).trans (first q mem)) ?_ fun _ => id
  rintro c ⟨silent, spares⟩ pages reply allowed
  cases c with
  | malloc => exact ⟨trivial, fun _ _ => rfl⟩
  | mmap addr len prot flags fd off =>
      refine ⟨trivial, fun q mem => ?_⟩
      simp only [touching]
      split
      · rfl
      · rename_i mapped
        obtain ⟨same, places⟩ := allowed.resolve_left mapped
        rw [same]
        exact if_neg (spares q mem places)
  | mprotect addr len prot =>
      refine ⟨trivial, fun q mem => ?_⟩
      simp only [touching]
      split
      · rfl
      · exact if_neg (spares q mem)
  | memcpy to_ count offset => exact ⟨.inl (addresses_eq_empty silent), fun _ _ => rfl⟩
  | memset to_ count =>
      have zero := addresses_eq_empty silent
      refine ⟨fun i less => ?_, fun _ _ => rfl⟩
      rw [zero] at less
      exact absurd less (Nat.not_lt_zero i)

/-- `MAP_FIXED` does not matter for what is mapped. -/
theorem PageMap.map_fixed :
    pages.map size addr len prot (flags ||| MAP_FIXED) off = pages.map size addr len prot flags off := by
  have same : (flags ||| MAP_FIXED) &&& MAP_ANONYMOUS = flags &&& MAP_ANONYMOUS := by
    rw [BitVec.and_comm, BitVec.and_or_distrib_left, BitVec.and_comm MAP_ANONYMOUS flags]
    exact BitVec.or_zero
  funext q
  simp only [map, same]

/-- A range that is mapped is new, whatever its pages were before. -/
theorem SameOn.map_eq {pages' : PageMap} (same : SameOn (fun q => ¬InPages addr len q) pages pages') :
    pages'.map size addr len prot flags off = pages.map size addr len prot flags off := by
  funext q
  by_cases inside : InPages addr len q
  · rw [PageMap.map, PageMap.map, if_pos inside, if_pos inside]
  · rw [PageMap.map, PageMap.map, if_neg inside, if_neg inside]
    exact same q inside

/-- The callback of the tracker maps what it is called with. -/
theorem cbunmap_remapping :
    Handles (remapping kept) cbunmap fun page len =>
      page.toNat + len.toNat < 2 ^ 52 ∧ ∀ q, kept q → ¬InRange page len q := by
  intro page len info within
  have spared := (LPSBox.cbunmap_sparing page len info within).weaken
    ⟨hosted.replies, (sparing kept).calls, (sparing kept).faults⟩ (fun _ _ _ => trivial) (fun _ => id) fun _ => id
  have both := (cbunmap_quiet page len info trivial).both spared
  exact (both.weaken (remapping kept) (fun _ _ => id) (fun _ => id) fun _ _ => trivial).mono
    fun _ _ => trivial

/-- A range that the tracker does not take is not mapped. -/
theorem LPSBox.lpsBoxMapat_refused (ok : box.Ok) (inBox : box.holds addr len = true)
    (declined : ¬(box.mm.aligned addr = true ∧ box.accepts addr len = true)) :
    (lpsBoxMapat box addr len prot flags fd off).Watched hosted (touching size)
      (fun (r, box') pages' => r = -1 ∧ box' = box ∧ pages' = pages) pages := by
  have paged := ok.tracked.paged
  have stray : ¬box.mm.aligned (BitVec.ofInt 64 (-MM_EINVAL)) = true := by
    rw [MMAddrSpace.aligned_iff paged]
    decide
  rw [lpsBoxMapat, MMAddrSpace.mmMapatCb_rejects declined, Prog.watched_bind, Prog.watched_check,
    if_pos inBox, Prog.watched_bind, Prog.watched_pure]
  dsimp only
  split
  · rw [if_neg (by decide), mapTracked, Prog.watched_bind]
    intro reply allowed
    have refused : reply = -1 := allowed.resolve_right fun placed =>
      stray ((MMAddrSpace.aligned_iff paged).mpr placed.2.1)
    rw [Prog.watched_ret, if_pos refused, MMAddrSpace.mmUnmap,
      MMAddrSpace.mmUnmapCb_rejects fun accepted => stray accepted.1]
    exact ⟨trivial, rfl, rfl, if_pos refused⟩
  · exact ⟨rfl, rfl, rfl⟩

/-- `lps_box_mapat` touches nothing, and maps its range and no other unless it fails. -/
theorem LPSBox.lpsBoxMapat_touching (ok : box.Ok) :
    (lpsBoxMapat box addr len prot flags fd off).Watched hosted (touching size)
      (fun (r, _) pages' => r ≠ -1 → pages' = pages.map size addr len prot flags off) pages := by
  by_cases inBox : box.holds addr len = true
  · by_cases accepted : box.mm.aligned addr = true ∧ box.accepts addr len = true
    · rw [lpsBoxMapat, Prog.watched_bind, Prog.watched_check, if_pos inBox, Prog.watched_bind]
      have tracks := @MMAddrSpace.mmMapatCb_meets _ (remapping fun q => ¬InPages addr len q) cbunmap _ addr len
        prot flags fd off ok.tracked cbunmap_remapping ⟨rfl, fun _ _ => trivial⟩
        (fun valid => LPSBox.covers_sparing ok valid fun _ => id) fun _ _ _ => trivial
      apply (remapping_touching tracks).mono
      rintro ⟨p, mm'⟩ pages' ⟨⟨keeps, result⟩, same⟩
      dsimp only
      split
      · exact fun mapped => absurd rfl mapped
      rename_i chosen
      rcases result.resolve_left chosen with ⟨-, invalid⟩ | ⟨rfl, -⟩
      · exact absurd (accepted.2.symm.trans invalid) (by decide)
      rw [LPSBox.mapTracked, Prog.watched_bind]
      refine fun reply allowed => ⟨trivial, ?_⟩
      rw [Prog.watched_ret]
      split
      · rw [Prog.watched_bind]
        have untracks := @MMAddrSpace.mmUnmap_meets _ (remapping fun _ => False) p len keeps.tracked
          ⟨rfl, fun _ => False.elim⟩
        apply (remapping_touching untracks).mono
        exact fun _ _ _ mapped => absurd rfl mapped
      · rename_i mapped
        intro _
        simp only [touching]
        rw [if_neg mapped, (allowed.resolve_left mapped).1, PageMap.map_fixed, same.map_eq]
    · exact (LPSBox.lpsBoxMapat_refused ok inBox accepted).mono fun _ _ refused mapped => absurd refused.1 mapped
  · rw [lpsBoxMapat, Prog.watched_bind, Prog.watched_check, if_neg inBox]
    trivial

end Lps.Core

namespace Lps.Linux

open Lps.Core Lps.Program Lps.Transition

/-! ## Segments -/

namespace Elf64Phdr

/-- What is mapped once the pages of a segment are: new ones for an image in memory, and otherwise those
of its file. -/
def mapped (p : Elf64Phdr) (buf : Buf) (base : Word) (pages : PageMap) : PageMap :=
  if buf.fd = -1 then
    pages.map buf.size (base + p.start) (p.span base) (PROT_READ ||| PROT_WRITE)
      (MAP_PRIVATE ||| MAP_ANONYMOUS) 0
  else
    pages.map buf.size (base + p.start) (p.span base) (pflags p.p_flags) MAP_PRIVATE
      (truncp p.p_offset p.p_align)

/-- The loader copies only bytes of the image, to memory that may be written, and clears only such
memory. -/
def touches (p : Elf64Phdr) (buf : Buf) (base : Word) (pages : PageMap) : Prop :=
  if buf.fd = -1 then
    buf.readCount p.p_filesz p.p_offset = 0 ∨
      p.p_offset.toNat + (buf.readCount p.p_filesz p.p_offset).toNat ≤ buf.size.toNat ∧
        (p.mapped buf base pages).Covers (base + p.start + (p.p_vaddr - p.start))
          (buf.readCount p.p_filesz p.p_offset)
  else p.p_memsz > p.p_filesz → pflags p.p_flags &&& PROT_WRITE ≠ 0 →
    (p.mapped buf base pages).Covers (p.bssStart base) (p.bssRest base - p.bssStart base)

instance (p : Elf64Phdr) (buf : Buf) (base : Word) (pages : PageMap) :
    Decidable (p.touches buf base pages) :=
  inferInstanceAs (Decidable (ite _ _ _))

/-- What is mapped when a segment has been loaded. -/
def after (p : Elf64Phdr) (box : LPSBox) (buf : Buf) (base : Word) (pages : PageMap) : PageMap :=
  if buf.fd = -1 then
    (p.mapped buf base pages).protect (base + p.start) (p.span base) (pflags p.p_flags)
  else if p.hasRest buf base ∧ box.Takes (p.bssRest base) (base + p.stop - p.bssRest base) then
    (p.mapped buf base pages).map buf.size (p.bssRest base) (base + p.stop - p.bssRest base)
      (pflags p.p_flags) (MAP_PRIVATE ||| MAP_ANONYMOUS) 0
  else p.mapped buf base pages

end Elf64Phdr

/-- Of the segments that the loop comes to, those that the box takes are loaded without touching other
memory. -/
def Touchable (box : LPSBox) (buf : Buf) : PageMap → List (Word × Elf64Phdr) → Prop
  | _, [] => True
  | pages, (base, p) :: rest => p.taken box base →
      p.touches buf base pages ∧ Touchable box buf (p.after box buf base pages) rest

instance decidableTouchable (box : LPSBox) (buf : Buf) :
    (pages : PageMap) → (segments : List (Word × Elf64Phdr)) → Decidable (Touchable box buf pages segments)
  | _, [] => .isTrue trivial
  | pages, (base, p) :: rest =>
      have := decidableTouchable box buf (p.after box buf base pages) rest
      inferInstanceAs (Decidable (_ → _ ∧ _))

/-- A host that serves the box; the runtime may go down. -/
def serving (info : LPSBoxInfo) (protects : Int → Prop) : Contract HostCall HostReply Fault :=
  { granting info protects with faults := fun _ => True }

variable {p : Elf64Phdr} {buf : Buf} {base addr len off : Word} {target target' : ElfTarget} {box : LPSBox}
  {info : LPSBoxInfo} {room count : Nat} {phdrs : List Elf64Phdr} {pages : PageMap} {prot flags : CInt}
  {fd : Int} {size : Word} {protects : Int → Prop}

theorem serving_hosted (c : HostCall) (reply : HostReply c) (allowed : (serving info protects).replies c reply) :
    hosted.replies c reply :=
  granting_hosted c reply allowed

/-- When another range has been mapped, or could not be. -/
theorem ElfTarget.At.mapat_touching (here : target.At box count) (ok : box.Ok)
    (some : box.mm.mmceil len ≠ 0) :
    (lpsBoxMapat target.box addr len prot flags fd off).Watched (serving box.toLPSBoxInfo protects) (touching size)
      (fun (r, box') pages' => ({ target with box := box' } : ElfTarget).At box count ∧
        box.holds addr len = true ∧
        (box.Takes addr len → r = addr ∧ pages' = pages.map size addr len prot flags off) ∧
        (¬box.Takes addr len → r = -1 ∧ pages' = pages)) pages := by
  obtain ⟨holds, isAligned, accepts, -⟩ := @here.keeps.tests _ _ addr len ok
  by_cases inBox : box.holds addr len = true
  · have maps := (@ElfTarget.At.mapat target box protects addr len prot flags fd off count here ok inBox
      some).weaken (serving box.toLPSBoxInfo protects) (fun _ _ => id) (fun _ => id) fun _ _ => trivial
    by_cases takes : box.Takes addr len
    · have touches := (@LPSBox.lpsBoxMapat_touching target.box addr size len off prot flags fd pages
        here.keeps.ok).weaken (serving box.toLPSBoxInfo protects) serving_hosted fun _ => id
      apply (touches.meets maps fun _ _ => id).mono
      rintro ⟨r, box'⟩ pages' ⟨mapped, there, taken, -⟩
      have same := taken takes
      exact ⟨there, inBox, fun _ => ⟨same, mapped (same ▸ takes.ne_neg_one ok)⟩, fun not => absurd takes not⟩
    · have declined : ¬(target.box.mm.aligned addr = true ∧ target.box.accepts addr len = true) := by
        rw [isAligned, accepts]
        exact fun both => takes ⟨inBox, both.1, both.2, some⟩
      have touches := (@LPSBox.lpsBoxMapat_refused target.box addr size len off prot flags fd pages
        here.keeps.ok (holds.trans inBox) declined).weaken
        (serving box.toLPSBoxInfo protects) serving_hosted fun _ => id
      apply (touches.meets maps fun _ _ => id).mono
      rintro ⟨r, box'⟩ pages' ⟨⟨failed, -, same⟩, there, -, -⟩
      exact ⟨there, inBox, fun taken => absurd taken takes, fun _ => ⟨failed, same⟩⟩
  · rw [lpsBoxMapat, Prog.watched_bind, Prog.watched_check, holds, if_neg inBox]
    trivial

/-- How a segment is judged: it was not fit when it was loaded, or it is, and what is mapped is known once it
has been loaded. -/
def Elf64Phdr.Judged (p : Elf64Phdr) (box : LPSBox) (buf : Buf) (base : Word) (count : Nat)
    (protects : Int → Prop) (pages : PageMap) : Bool × ElfTarget → Option PageMap → Prop
  | _, none => p.taken box base ∧ ¬p.touches buf base pages
  | (done, target'), some pages' => (p.taken box base → p.touches buf base pages) ∧
      if done then p.loads box buf base ∧ count < ELFSEGMAXN ∧ target'.At box (count + 1) ∧
        pages' = p.after box buf base pages
      else (∀ r, protects r → 0 ≤ r) → ¬p.loads box buf base

/-- Recording a segment that has been loaded. -/
theorem ElfTarget.At.record_judged {seg : ElfSeg} {pages' : PageMap} (here : target.At box count)
    (loads : p.loads box buf base) (fit : p.touches buf base pages) (same : pages' = p.after box buf base pages) :
    (target.record seg).Watched (serving box.toLPSBoxInfo protects) (touching size).verdict
      (p.Judged box buf base count protects pages) (some pages') := by
  rw [ElfTarget.record, Prog.watched_bind, Prog.watched_check, here.recorded]
  split
  · rename_i room
    refine ⟨fun _ => fit, loads, by simpa using room, ⟨here.keeps, here.sound, ?_⟩, same⟩
    rw [List.length_append, here.recorded]
    rfl
  · trivial

/-- A call that is not expected. -/
theorem watched_unfit {α : Type} {c : HostCall} {rest : HostReply c → HostProg α}
    {post : α → Option PageMap → Prop}
    (unfit : ∀ reply, ¬(touching size).expects pages ⟨c, reply⟩) (judged : ∀ value, post value none) :
    (Prog.ask c >>= rest).Watched (serving info protects) (touching size).verdict post (some pages) := by
  rw [Prog.watched_bind]
  intro reply _
  have next : (touching size).verdict.next (some pages) ⟨c, reply⟩ = none := if_neg (unfit reply)
  rw [next, Prog.watched_ret]
  refine ⟨trivial, (Prog.watched_verdict_none fun _ => trivial).mono ?_⟩
  rintro value _ rfl
  exact judged value

/-- A call that is expected. -/
theorem watched_fit {α : Type} {c : HostCall} {rest : HostReply c → HostProg α}
    {post : α → Option PageMap → Prop}
    (fit : ∀ reply, (touching size).expects pages ⟨c, reply⟩)
    (goesOn : ∀ reply, (serving info protects).replies c reply →
      (rest reply).Watched (serving info protects) (touching size).verdict post
        (some ((touching size).next pages ⟨c, reply⟩))) :
    (Prog.ask c >>= rest).Watched (serving info protects) (touching size).verdict post (some pages) := by
  rw [Prog.watched_bind]
  intro reply allowed
  have next : (touching size).verdict.next (some pages) ⟨c, reply⟩ =
      some ((touching size).next pages ⟨c, reply⟩) :=
    if_pos (fit reply)
  rw [next, Prog.watched_ret]
  exact ⟨trivial, goesOn reply allowed⟩

/-- The pages of a segment are mapped just when the box takes them. -/
theorem ElfTarget.At.segment_touching (here : target.At box count) (ok : box.Ok) (proper : p.Proper)
    (maps : p.mapped buf base pages =
      pages.map buf.size (base + p.start) (p.span base) prot flags off) :
    (lpsBoxMapat target.box (base + p.start) (p.span base) prot flags fd off).Watched
      (serving box.toLPSBoxInfo protects) (touching buf.size).verdict
      (fun (r, box') v => ∃ pages', v = some pages' ∧ ({ target with box := box' } : ElfTarget).At box count ∧
        (r = -1 → ¬p.taken box base) ∧
        (r ≠ -1 → p.taken box base ∧ pages' = p.mapped buf base pages)) (some pages) := by
  apply (here.mapat_touching ok (proper.pages ok.tracked.paged)).verdict.mono
  rintro ⟨r, box'⟩ _ ⟨pages', rfl, here', -, taken, declined⟩
  refine ⟨pages', rfl, here', fun failed isTaken => ?_, fun succeeded => ?_⟩
  · exact isTaken.ne_neg_one ok ((taken isTaken).1.symm.trans failed)
  · have isTaken : p.taken box base := by
      by_contra untaken
      exact succeeded (declined untaken).1
    exact ⟨isTaken, (taken isTaken).2.trans maps.symm⟩

/-- Mapping what a segment has behind the pages of its file. -/
theorem Elf64Phdr.rest_judged (here : target.At box count) (ok : box.Ok) (proper : p.Proper)
    (isFile : buf.fd ≠ -1) (isTaken : p.taken box base) (isRead : p.reads buf)
    (longer : p.p_memsz > p.p_filesz) (fit : p.touches buf base pages) :
    (if p.bssRest base < base + p.stop then do
        let (_, box) ← lpsBoxMapat target.box (p.bssRest base) (base + p.stop - p.bssRest base)
          (pflags p.p_flags) (MAP_PRIVATE ||| MAP_ANONYMOUS) (-1) 0
        ElfTarget.record { target with box := box } ⟨base + p.start, base + p.stop, pflags p.p_flags⟩
      else target.record ⟨base + p.start, base + p.stop, pflags p.p_flags⟩).Watched
      (serving box.toLPSBoxInfo protects) (touching buf.size).verdict
      (p.Judged box buf base count protects pages) (some (p.mapped buf base pages)) := by
  split
  · rename_i before
    rw [Prog.watched_bind]
    apply (here.mapat_touching ok (proper.restPages ok isTaken before).2).verdict.mono
    rintro ⟨_, box'⟩ _ ⟨pages', rfl, here', held, taken, declined⟩
    refine here'.record_judged ⟨isTaken, isRead, fun _ => held⟩ fit ?_
    rw [after, if_neg isFile]
    split
    · rename_i rest
      exact (taken rest.2).2
    · rename_i untaken
      exact (declined fun takes => untaken ⟨⟨isFile, longer, before⟩, takes⟩).2
  · rename_i whole
    have noRest : ¬p.hasRest buf base := fun needs => whole needs.2.2
    refine here.record_judged ⟨isTaken, isRead, fun needs => absurd needs noRest⟩ fit ?_
    rw [after, if_neg isFile, if_neg fun rest => noRest rest.1]

/-- Loading a segment of a file, as it is judged. -/
theorem Elf64Phdr.load_file_judged (here : target.At box count) (ok : box.Ok) (proper : p.Proper)
    (isFile : buf.fd ≠ -1) :
    (p.load buf base target).Watched (serving box.toLPSBoxInfo protects) (touching buf.size).verdict
      (p.Judged box buf base count protects pages) (some pages) := by
  have maps : p.mapped buf base pages = pages.map buf.size (base + p.start) (p.span base)
      (pflags p.p_flags) MAP_PRIVATE (truncp p.p_offset p.p_align) := if_neg isFile
  rw [load, bufReadElfseg, if_pos isFile, mapElfseg, Prog.watched_bind]
  apply (here.segment_touching ok proper maps).mono
  rintro ⟨r, box'⟩ _ ⟨pages', rfl, here', untaken, taken⟩
  dsimp only
  split
  · rename_i failed
    exact ⟨fun isTaken => absurd isTaken (untaken failed), fun _ all => untaken failed all.1⟩
  rename_i succeeded
  obtain ⟨isTaken, rfl⟩ := taken succeeded
  split
  · rename_i longer
    split
    · rename_i readOnly
      refine ⟨fun _ => ?_, fun _ all => all.2.1.1 isFile longer readOnly⟩
      rw [touches, if_neg isFile]
      exact fun _ writable => absurd readOnly writable
    rename_i writable
    have isRead : p.reads buf := ⟨fun _ _ => writable, fun inMemory => absurd inMemory isFile⟩
    have clears : p.touches buf base pages ↔
        (p.mapped buf base pages).Covers (p.bssStart base) (p.bssRest base - p.bssStart base) := by
      rw [touches, if_neg isFile]
      exact ⟨fun fit => fit longer writable, fun fit _ _ => fit⟩
    by_cases fit : p.touches buf base pages
    · refine watched_fit (fun _ => clears.mp fit) fun _ _ => ?_
      exact rest_judged here' ok proper isFile isTaken isRead longer fit
    · exact watched_unfit (fun _ => clears.not.mp fit) fun _ => ⟨isTaken, fit⟩
  · rename_i whole
    have noRest : ¬p.hasRest buf base := fun needs => whole needs.2.1
    have isRead : p.reads buf :=
      ⟨fun _ longer => absurd longer whole, fun inMemory => absurd inMemory isFile⟩
    refine here'.record_judged ⟨isTaken, isRead, fun needs => absurd needs noRest⟩ ?_ ?_
    · rw [touches, if_neg isFile]
      exact fun longer => absurd longer whole
    · rw [after, if_neg isFile, if_neg fun rest => noRest rest.1]

/-- Loading a segment of an image in memory, as it is judged. -/
theorem Elf64Phdr.load_memory_judged (here : target.At box count) (ok : box.Ok) (proper : p.Proper)
    (inMemory : buf.fd = -1) :
    (p.load buf base target).Watched (serving box.toLPSBoxInfo protects) (touching buf.size).verdict
      (p.Judged box buf base count protects pages) (some pages) := by
  have maps : p.mapped buf base pages = pages.map buf.size (base + p.start) (p.span base)
      (PROT_READ ||| PROT_WRITE) (MAP_PRIVATE ||| MAP_ANONYMOUS) 0 := if_pos inMemory
  rw [load, bufReadElfseg, if_neg (not_not.mpr inMemory), copyElfseg, Prog.watched_bind]
  apply (here.segment_touching ok proper maps).mono
  rintro ⟨r, box'⟩ _ ⟨pages', rfl, here', untaken, taken⟩
  dsimp only
  split
  · rename_i failed
    exact ⟨fun isTaken => absurd isTaken (untaken failed), fun _ all => untaken failed all.1⟩
  rename_i succeeded
  obtain ⟨isTaken, rfl⟩ := taken succeeded
  have copies : p.touches buf base pages ↔ (touching buf.size).expects (p.mapped buf base pages)
      ⟨.memcpy (base + p.start + (p.p_vaddr - p.start)) (buf.readCount p.p_filesz p.p_offset) p.p_offset,
        ⟨⟩⟩ := by
    rw [touches, if_pos inMemory]
    exact Iff.rfl
  by_cases fit : p.touches buf base pages
  · refine watched_fit (fun _ => copies.mp fit) fun _ _ => ?_
    split
    · rename_i short
      exact ⟨fun _ => fit, fun _ all => short (all.2.1.2 inMemory)⟩
    rename_i full
    have all : p.loads box buf base := ⟨isTaken, ⟨fun isFile => absurd inMemory isFile,
      fun _ => not_not.mp full⟩, fun needs => absurd inMemory needs.1⟩
    rw [Prog.watched_bind, lpsBoxMprotect, Prog.watched_bind, Prog.watched_check]
    split
    · refine watched_fit (fun _ => trivial) fun result allowed => ?_
      rw [Prog.watched_ret]
      split
      · rename_i negative
        exact ⟨fun _ => fit, fun nonneg => absurd negative (Int.not_lt.mpr (nonneg _ allowed))⟩
      · rename_i shielded
        refine here'.record_judged all fit ?_
        rw [after, if_pos inMemory]
        exact if_neg shielded
    · trivial
  · exact watched_unfit (fun _ => copies.not.mp fit) fun _ => ⟨isTaken, fit⟩

/-- Loading a segment, as it is judged. -/
theorem Elf64Phdr.load_judged (here : target.At box count) (ok : box.Ok) (proper : p.Proper) :
    (p.load buf base target).Watched (serving box.toLPSBoxInfo protects) (touching buf.size).verdict
      (p.Judged box buf base count protects pages) (some pages) := by
  by_cases inMemory : buf.fd = -1
  · exact load_memory_judged here ok proper inMemory
  · exact load_file_judged here ok proper inMemory

/-! ## The loop -/

/-- How the loop is judged. -/
theorem elfLoop_judged {elfbase : Word} {s : ElfLoop} (here : target.At box count) (ok : box.Ok)
    (left : count + room = ELFSEGMAXN) :
    (elfLoop elfbase buf phdrs s target).Watched (serving box.toLPSBoxInfo protects) (touching buf.size).verdict
      (fun (loop, target') v => (loop.isSome = true → v.isSome = true → ∃ count', target'.At box count') ∧
        (Touchable box buf pages (tried box buf room s.base phdrs) → v.isSome = true) ∧
        ((∀ r, protects r → 0 ≤ r) → v.isSome = true →
          Touchable box buf pages (tried box buf room s.base phdrs))) (some pages) := by
  induction phdrs generalizing s target count room pages with
  | nil => exact ⟨fun _ _ => ⟨count, here⟩, fun _ => rfl, fun _ _ => trivial⟩
  | cons p phdrs ih =>
      rw [elfLoop]
      split
      · rename_i skips
        rw [tried_skipped skips]
        exact ih here left
      rename_i kept
      split
      · rename_i rejected
        rw [tried_rejected kept (by simpa using rejected)]
        exact ⟨fun _ _ => ⟨count, here⟩, fun _ => rfl, fun _ _ => trivial⟩
      rename_i accepts
      have accepted : p.accepted (4 * 1024) = true := by simpa using accepts
      rw [tried_accepted kept accepted]
      have judged := @Elf64Phdr.load_judged p buf s.base target box count pages protects here ok
        (Elf64Phdr.proper_of_accepted accepted)
      rw [Elf64Phdr.load] at judged
      rw [Prog.watched_bind]
      apply judged.mono
      rintro ⟨done, target'⟩ v result
      cases v with
      | none =>
          obtain ⟨taken, unfit⟩ := result
          apply (Prog.watched_verdict_none fun _ => trivial).mono
          rintro ⟨loop, target''⟩ _ rfl
          exact ⟨by rintro _ ⟨⟩, fun touchable => absurd (touchable taken).1 unfit, by rintro _ ⟨⟩⟩
      | some pages' =>
          obtain ⟨fit, came⟩ := result
          cases done with
          | false =>
              refine ⟨by rintro ⟨⟩, fun _ => rfl, fun nonneg _ taken => ⟨fit taken, ?_⟩⟩
              rw [if_neg fun goes => came nonneg goes.2]
              trivial
          | true =>
              obtain ⟨all, few, here', rfl⟩ := came
              have some : room ≠ 0 := by omega
              rw [if_pos ⟨some, all⟩]
              dsimp only
              rw [Bool.not_true, if_neg Bool.false_ne_true]
              have leftBehind : count + 1 + (room - 1) = ELFSEGMAXN := by omega
              apply (ih here' leftBehind).mono
              rintro ⟨loop, target''⟩ v ⟨there, accepts, touches⟩
              exact ⟨there, fun touchable => accepts (touchable all.1).2,
                fun nonneg isSome _ => ⟨fit all.1, touches nonneg isSome⟩⟩

/-! ## Processes -/

/-- The segments that are loaded touch only memory that the loader may touch. -/
def TouchesRight (box : LPSBoxInfo) (buf : Buf) : Prop :=
  buf.headerOk = true → buf.tableOk = true →
    Touchable box.track buf .none (tried box.track buf ELFSEGMAXN box.base buf.phdrs)

instance (box : LPSBoxInfo) (buf : Buf) : Decidable (TouchesRight box buf) :=
  inferInstanceAs (Decidable (_ → _ → _))

variable {opts : LPSLinuxOpts} {kfds : Nat → Option Int}

/-- How the load of an image is judged. -/
theorem procLoad_judged (fits : info.base.toNat + info.size.toNat < 2 ^ 64) :
    ((lpsProcNew info opts kfds).procLoad buf).Watched (serving info protects) (touching buf.size).verdict
      (fun _ v => (TouchesRight info buf → v.isSome = true) ∧
        ((∀ r, protects r → 0 ≤ r) → v.isSome = true → TouchesRight info buf)) (some .none) := by
  have ok : info.track.Ok := LPSBoxInfo.track_ok fits
  have here := @lpsProcNew_at info opts kfds ok
  have none : (0 : Nat) + ELFSEGMAXN = ELFSEGMAXN := Nat.zero_add _
  rw [LPSProc.procLoad, Prog.watched_bind, elfLoadOne]
  split
  · rename_i rejected
    exact ⟨fun _ => rfl, fun _ _ headerOk => absurd headerOk (by simpa using rejected)⟩
  rename_i headerOk
  refine watched_fit (fun _ => trivial) fun memory allowed => ?_
  obtain rfl : memory = true := allowed
  rw [Bool.not_true, if_neg Bool.false_ne_true]
  split
  · rename_i rejected
    exact ⟨fun _ => rfl, fun _ _ _ tableOk => absurd tableOk (by simpa using rejected)⟩
  rename_i tableOk
  have passes : ∀ {P : Prop}, (buf.headerOk = true → buf.tableOk = true → P) ↔ P := fun {P} =>
    ⟨fun goal => goal (by simpa using headerOk) (by simpa using tableOk), fun goal _ _ => goal⟩
  rw [TouchesRight, passes, Prog.watched_bind]
  apply (elfLoop_judged here ok none).mono
  rintro ⟨loop, target'⟩ v ⟨there, judged⟩
  cases loop with
  | none => exact judged
  | some s' =>
      dsimp only
      rw [Prog.watched_pure]
      dsimp only
      rw [Prog.watched_bind]
      cases v with
      | none =>
          apply (Prog.watched_verdict_none fun _ => trivial).mono
          rintro _ _ rfl
          exact judged
      | some pages =>
          obtain ⟨count', here'⟩ := there rfl rfl
          have maps := @LPSBox.lpsBoxMapat_touching target'.box s'.last buf.size opts.brksize 0 PROT_NONE
            (MAP_PRIVATE ||| MAP_ANONYMOUS) (-1) pages here'.keeps.ok
          apply ((maps.weaken (serving info protects) serving_hosted fun _ => id).verdict).mono
          rintro ⟨r, box'⟩ _ ⟨pages', rfl, -⟩
          exact judged

/-- The host has memory and maps every range of pages of the box. -/
def MemHost.Serves (host : MemHost) (box : LPSBoxInfo) : Prop :=
  ∀ made c, (granting box fun _ => True).replies c (host made c)

/-- `buf_read` reads only bytes of the image. -/
def Buf.ReadsInside (buf : Buf) (count offset : Word) : Prop :=
  ∀ i < (buf.readCount count offset).toNat, offset.toNat + i < buf.size.toNat

/-- Loading returns on every host that serves the box: the headers are read within the image, and what is
copied and cleared is memory that the loader may touch. -/
structure LoadReturns (box : LPSBoxInfo) (buf : Buf) (load : HostProg (Bool × LPSProc)) : Prop where
  header : buf.ReadsInside EHDR_SIZE 0
  table : buf.headerOk = true → buf.ehdr.e_phoff < buf.size →
    buf.ReadsInside (PHDR_SIZE * buf.ehdr.e_phnum) buf.ehdr.e_phoff
  returns : ∀ host : MemHost, host.Serves box → ∃ result, (load.run host []).2 = .ok result ∧
    (touching buf.size).Accepts .none (load.exchanges host [])

/-- The end of the table of program headers does not wrap around when it is read, and what gets past the
checks of the headers brings nothing down and touches only memory that the loader may touch. -/
structure Harmless (box : LPSBoxInfo) (brksize : Word) (buf : Buf) : Prop where
  table : buf.headerOk = true → buf.ehdr.e_phoff < buf.size →
    buf.ehdr.e_phoff.toNat + (PHDR_SIZE * buf.ehdr.e_phnum).toNat < 2 ^ 64
  stands : buf.headerOk = true → buf.tableOk = true → Tolerable box brksize buf
  touches : TouchesRight box buf

instance (box : LPSBoxInfo) (brksize : Word) (buf : Buf) : Decidable (Harmless box brksize buf) :=
  decidable_of_iff
    ((buf.headerOk = true → buf.ehdr.e_phoff < buf.size →
        buf.ehdr.e_phoff.toNat + (PHDR_SIZE * buf.ehdr.e_phnum).toNat < 2 ^ 64) ∧
      (buf.headerOk = true → buf.tableOk = true → Tolerable box brksize buf) ∧ TouchesRight box buf)
    ⟨fun ⟨table, stands, touches⟩ => ⟨table, stands, touches⟩,
      fun ⟨table, stands, touches⟩ => ⟨table, stands, touches⟩⟩

/-- A read that starts in the image ends there when the sum does not wrap around. -/
theorem Buf.readsInside_iff {count offset : Word} (before : offset < buf.size) :
    buf.ReadsInside count offset ↔ offset.toNat + count.toNat < 2 ^ 64 := by
  have inFile : offset.toNat < buf.size.toNat := before
  constructor
  · intro inside
    by_contra wraps
    have size := buf.size.isLt
    have bytes := @Buf.readCount_toNat buf count offset (Nat.le_of_lt inFile)
    have less := count.isLt
    rw [if_neg (by omega)] at bytes
    have last := inside (buf.size.toNat - offset.toNat) (by omega)
    omega
  · intro noWrap
    exact (Buf.readsRight_iff.mpr ⟨Nat.le_of_lt inFile, noWrap⟩).inside

/-- A host that has memory and maps every range of pages. -/
def granter : MemHost
  | _, .malloc => true
  | _, .mmap addr len _ _ _ _ => if placeable addr len then addr else -1
  | _, .mprotect .. => 0
  | _, .memcpy .. => ()
  | _, .memset .. => ()

theorem granter_replies (box : LPSBoxInfo) (made : List HostCall) (c : HostCall) :
    (granting box (0 ≤ ·)).replies c (granter made c) := by
  cases c with
  | malloc => rfl
  | mmap addr len prot flags fd off =>
      constructor
      · rw [granter]
        split
        · rename_i places
          exact Or.inr ⟨rfl, places⟩
        · exact Or.inl rfl
      · intro places _
        exact if_pos places
  | mprotect addr len prot => exact Int.le_refl 0
  | memcpy to_ count offset => trivial
  | memset to_ count => trivial

theorem granter_serves (box : LPSBoxInfo) : granter.Serves box := by
  intro made c
  have replies := granter_replies box made c
  cases c with
  | mprotect addr len prot => trivial
  | _ => exact replies

theorem loadReturns_iff (fits : info.base.toNat + info.size.toNat < 2 ^ 64) :
    LoadReturns info buf ((lpsProcNew info opts kfds).procLoad buf) ↔ Harmless info opts.brksize buf := by
  have stands := @procLoad_meets_iff buf info opts kfds fits
  rw [Prog.meets_iff_run (granting_replies ⟨0, trivial⟩) (fun _ => trivial) fun _ => id] at stands
  constructor
  · rintro ⟨-, table, returns⟩
    refine ⟨fun headerOk before => (Buf.readsInside_iff before).mp (table headerOk before), stands.mp ?_, ?_⟩
    · intro host serves
      obtain ⟨result, returned, -⟩ := returns host serves
      exact ⟨result, returned, trivial⟩
    · obtain ⟨result, returned, accepts⟩ := returns granter (granter_serves info)
      have judged := (@procLoad_judged buf info (0 ≤ ·) opts kfds fits).run_ok (granter_replies info) returned
      exact judged.2 (fun _ => id) (Monitor.verdict_after.mpr accepts)
  · rintro ⟨table, tolerable, touches⟩
    refine ⟨header_readsRight.inside,
      fun headerOk before => (Buf.readsInside_iff before).mpr (table headerOk before),
      fun host serves => ?_⟩
    obtain ⟨result, returned, -⟩ := stands.mpr tolerable host serves
    have judged := (@procLoad_judged buf info (fun _ => True) opts kfds fits).run_ok serves returned
    exact ⟨result, returned, Monitor.verdict_after.mp (judged.1 touches)⟩

/-- On a host that serves the box, `lps_proc_load` and `lps_proc_load_fd` return for a new process exactly
when the image is harmless; so does `lps_proc_load_fd` of a file that cannot be mapped. -/
theorem load_returns_iff_harmless (fits : info.base.toNat + info.size.toNat < 2 ^ 64) :
    (∀ data size, LoadReturns info ⟨-1, data, size⟩ ((lpsProcNew info opts kfds).lpsProcLoad data size) ↔
      Harmless info opts.brksize ⟨-1, data, size⟩) ∧
    (∀ fd data size,
      LoadReturns info ⟨fd, data, size⟩ ((lpsProcNew info opts kfds).lpsProcLoadFd fd (some (data, size))) ↔
        Harmless info opts.brksize ⟨fd, data, size⟩) ∧
    ∀ fd, LoadReturns info ⟨fd, fun _ => 0, 0⟩ ((lpsProcNew info opts kfds).lpsProcLoadFd fd none) := by
  refine ⟨fun _ _ => loadReturns_iff fits, fun _ _ _ => loadReturns_iff fits, fun fd => ?_⟩
  refine ⟨header_readsRight.inside, fun headerOk => ?_, fun _ _ => ⟨_, rfl, trivial⟩⟩
  simp only [Buf.headerOk, Bool.and_eq_true, decide_eq_true_eq] at headerOk
  have empty : (0 : Word) - 0 = EHDR_SIZE := headerOk.1.1.1
  exact absurd empty (by decide)

/-- The small image is harmless in the small box, and loading it returns. -/
theorem load_returns_small :
    LoadReturns smallBox smallImage ((lpsProcNew smallBox smallOpts fun _ => none).lpsProcLoad
      smallImage.data smallImage.size) :=
  ((load_returns_iff_harmless (by decide)).1 _ _).mpr (by decide +kernel)

/-- A file whose only segment has no bytes, in a page that lies behind the end of the file. -/
def behindImage : Buf := .ofBytes 3 (elfImage 0 [⟨1, 6, 0x2ff0, 0xff0, 0, 4096, 4096⟩] [])

/-- Neither a copy without end is harmless, nor clearing memory behind the end of a file. -/
example : ¬Harmless smallBox smallOpts.brksize hollowImage ∧
    ¬Harmless smallBox smallOpts.brksize behindImage := by
  decide +kernel

/-- A file with a proper header and no program headers. -/
def emptyImage : Buf := .ofBytes (-1) (elfImage 0 [] [0])

/-- It brings the runtime down: its heap window would start at address zero. -/
theorem load_faults :
    ¬∀ (box : LPSBoxInfo) (opts : LPSLinuxOpts) (kfds : Nat → Option Int) (data : Nat → Byte)
      (size : Word), box.base.toNat + box.size.toNat < 2 ^ 64 →
      LoadReturns box ⟨-1, data, size⟩ ((lpsProcNew box opts kfds).lpsProcLoad data size) := by
  intro claim
  obtain ⟨result, returned, -⟩ := (claim smallBox smallOpts (fun _ => none) emptyImage.data
    emptyImage.size (by decide)).returns granter (granter_serves smallBox)
  have down : (((lpsProcNew smallBox smallOpts fun _ => none).lpsProcLoad emptyImage.data
      emptyImage.size).run granter []).2 = .error .boxMapat := by
    rfl
  rw [down] at returned
  cases returned

end Lps.Linux

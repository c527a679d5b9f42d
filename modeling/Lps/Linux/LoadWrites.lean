import Lps.Linux.LoadWatch
import Mathlib.Order.Interval.Set.Basic

/-!
# What the loader writes

The loader writes to memory itself when it copies a segment of an image in memory, and when it
clears what lies behind the last byte of one in a file.  The monitor remembers the range that was
mapped last, and expects every write inside it.
-/

namespace Lps.Core

open Lps.Program Lps.Transition

/-- The addresses of a range. -/
def addresses (addr len : Word) : Set Nat := Set.Ico addr.toNat (addr.toNat + len.toNat)

/-- The addresses that a call writes. -/
def HostCall.writes : HostCall → Set Nat
  | .memcpy to_ count _ => addresses to_ count
  | .memset to_ count => addresses to_ count
  | _ => ∅

/-- The range that has just been mapped: that of the last `mmap`, when it did not fail. -/
def justMapped : Option (Word × Word) → Exchange HostCall HostReply → Option (Word × Word)
  | _, ⟨.mmap _ len _ _ _ _, reply⟩ => if reply = -1 then none else some (reply, len)
  | range, _ => range

/-- Every write lies in the range that has just been mapped, and in the box. -/
def writesInside (box : LPSBoxInfo) : Monitor (Option (Word × Word)) (Exchange HostCall HostReply)
    where
  next := justMapped
  expects range exchange := ∀ a ∈ exchange.1.writes,
    (∃ addr len, range = some (addr, len) ∧ a ∈ addresses addr len) ∧ a ∈ addresses box.base box.size

/-- No call of the program writes. -/
def quiet : Contract HostCall HostReply Fault := { hosted with calls := fun c => c.writes = ∅ }

variable {box : LPSBox} {info : LPSBoxInfo} {addr size : Word} {prot flags : CInt} {fd : Int}
  {off : Word} {range : Option (Word × Word)}

theorem quiet_watched {α : Type} {p : HostProg α} {post : α → Prop} (meets : p.Meets quiet post) :
    p.Watched hosted (writesInside info) (fun value _ => post value) range := by
  have replies : ∀ c reply, hosted.replies c reply → quiet.replies c reply := fun _ _ => id
  refine meets.watched replies ?_ fun _ => id
  intro c silent range reply a written
  change a ∈ c.writes at written
  change c.writes = ∅ at silent
  rw [silent] at written
  exact absurd written (Set.notMem_empty a)

/-- The callback of the tracker writes nothing. -/
theorem cbunmap_quiet : Handles quiet cbunmap fun _ _ => True := by
  intro page len info _
  rw [cbunmap, Prog.meets_bind]
  refine ⟨rfl, fun reply _ => ?_⟩
  rw [Prog.meets_ret, Prog.meets_check]
  split <;> trivial

/-- `lps_box_mapat` writes nothing, and its range has just been mapped unless it fails. -/
theorem LPSBox.lpsBoxMapat_watched (ok : box.Ok) :
    (lpsBoxMapat box addr size prot flags fd off).Watched hosted (writesInside info)
      (fun (r, _) range' => r ≠ -1 → range' = some (r, size)) range := by
  rw [lpsBoxMapat, Prog.watched_bind, Prog.watched_check]
  split
  · rw [Prog.watched_bind]
    have tracks := @MMAddrSpace.mmMapatCb_meets _ _ cbunmap _ addr size prot flags fd off ok.tracked
      cbunmap_quiet rfl (fun _ => covers_all ..) fun _ _ _ => trivial
    apply (quiet_watched tracks).mono
    rintro ⟨p, mm'⟩ range' ⟨keeps, -⟩
    dsimp only
    split
    · exact fun mapped => absurd rfl mapped
    rw [LPSBox.mapTracked, Prog.watched_bind]
    intro mem answered
    refine ⟨fun a written => absurd written (Set.notMem_empty a), ?_⟩
    rw [Prog.watched_ret]
    split
    · rw [Prog.watched_bind]
      apply (quiet_watched (MMAddrSpace.mmUnmap_meets keeps.tracked rfl)).mono
      exact fun _ _ _ mapped => absurd rfl mapped
    · rename_i mapped
      exact fun _ => if_neg mapped
  · trivial

end Lps.Core

namespace Lps.Linux

open Lps.Core Lps.Program Lps.Transition

/-! ## Segments -/

namespace Elf64Phdr

/-- Where the bytes of the segment that are in the image end. -/
def dataEnd (p : Elf64Phdr) : Word := p.p_vaddr + p.p_filesz

/-- The segment starts by its first byte. -/
theorem start_le (p : Elf64Phdr) : p.start.toNat ≤ p.p_vaddr.toNat := by
  rw [start, truncp, BitVec.toNat_and]
  exact Nat.and_le_left

theorem bssStart_eq (p : Elf64Phdr) (base : Word) : p.bssStart base = base + p.dataEnd := by
  rw [bssStart, dataEnd, BitVec.add_assoc base, BitVec.add_comm p.start, BitVec.sub_add_cancel,
    BitVec.add_assoc]

/-- What the loader writes for a segment stays in front of the end of the segment.  From memory it
copies as many bytes as the image has.  In a file it clears the rest of the page behind the last
byte, for a writable segment that is longer than those. -/
def writesFit (p : Elf64Phdr) (buf : Buf) : Prop :=
  if buf.fd = -1 then
    buf.readCount p.p_filesz p.p_offset = 0 ∨
      p.p_vaddr.toNat + (buf.readCount p.p_filesz p.p_offset).toNat ≤ p.stop.toNat
  else p.p_memsz > p.p_filesz → pflags p.p_flags &&& PROT_WRITE ≠ 0 →
    p.dataEnd.toNat % 4096 = 0 ∨ p.start ≤ p.dataEnd ∧ p.dataEnd < p.stop

instance (p : Elf64Phdr) (buf : Buf) : Decidable (p.writesFit buf) :=
  inferInstanceAs (Decidable (ite _ _ _))

end Elf64Phdr

variable {p : Elf64Phdr} {buf : Buf} {base : Word} {target target' : ElfTarget} {box : LPSBox}
  {info : LPSBoxInfo} {room count : Nat} {phdrs : List Elf64Phdr} {range : Option (Word × Word)}

/-- A range that lies in another one. -/
theorem addresses_subset_iff {to_ n addr len : Word} :
    addresses to_ n ⊆ addresses addr len ↔
      n = 0 ∨ addr.toNat ≤ to_.toNat ∧ to_.toNat + n.toNat ≤ addr.toNat + len.toNat := by
  by_cases none : n = 0
  · subst none
    have empty : addresses to_ 0 = ∅ := Set.Ico_self _
    rw [empty]
    exact iff_of_true (Set.empty_subset _) (Or.inl rfl)
  · have pos : 0 < n.toNat := Nat.pos_of_ne_zero fun zero => none (BitVec.eq_of_toNat_eq zero)
    rw [addresses, addresses, Set.Ico_subset_Ico_iff (by omega), or_iff_right none]

/-- The page behind the last byte of a file. -/
theorem toNat_ceilPage_sub (w : Word) :
    (ceilp w (4 * 1024) - w).toNat = (4096 - w.toNat % 4096) % 4096 := by
  have small := w.isLt
  rw [BitVec.toNat_sub, ceilp_page_toNat]
  omega

/-- What is copied from memory lies in the mapping exactly when it ends in front of it. -/
theorem Elf64Phdr.copy_inside_iff (ok : box.Ok) (taken : p.taken box base) (proper : p.Proper)
    {n : Word} :
    addresses (base + p.start + (p.p_vaddr - p.start)) n ⊆
        addresses (base + p.start) (p.span base) ↔
      n = 0 ∨ p.p_vaddr.toNat + n.toNat ≤ p.stop.toNat := by
  obtain ⟨contains, -, -⟩ := taken.contains ok
  have fits := ok.fits
  have below := contains.2
  have span := @Elf64Phdr.Proper.span p base proper
  have less := proper.proper
  have start_le := p.start_le
  have toAddr : base + p.start + (p.p_vaddr - p.start) = base + p.p_vaddr := by
    rw [BitVec.add_assoc, BitVec.add_comm p.start, BitVec.sub_add_cancel]
  rw [addresses_subset_iff, span, toAddr]
  rw [span] at below
  apply or_congr_right
  constructor
  · rintro ⟨above, inside⟩
    bv_omega
  · intro inside
    constructor <;> bv_omega

/-- What is cleared lies in the mapping exactly when it starts there. -/
theorem Elf64Phdr.clear_inside_iff (ok : box.Ok) (taken : p.taken box base) (proper : p.Proper) :
    addresses (p.bssStart base) (p.bssRest base - p.bssStart base) ⊆
        addresses (base + p.start) (p.span base) ↔
      p.dataEnd.toNat % 4096 = 0 ∨ p.start ≤ p.dataEnd ∧ p.dataEnd < p.stop := by
  obtain ⟨contains, places, -⟩ := taken.contains ok
  have fits := ok.fits
  have below := contains.2
  have aligned := places.1
  have span := @Elf64Phdr.Proper.span p base proper
  have less := proper.proper
  have start_mod := proper.start_mod
  have stop_mod := proper.stop_mod
  have count : (p.bssRest base - p.bssStart base).toNat =
      (4096 - (p.bssStart base).toNat % 4096) % 4096 := toNat_ceilPage_sub _
  have fromBase := p.bssStart_eq base
  have sameMod : (p.bssStart base).toNat % 4096 = p.dataEnd.toNat % 4096 := by
    rw [fromBase]
    bv_omega
  rw [addresses_subset_iff, span]
  rw [span] at below
  constructor
  · rintro (none | ⟨above, inside⟩)
    · have zero := congrArg BitVec.toNat none
      rw [count, sameMod] at zero
      change _ = 0 at zero
      omega
    · rw [fromBase] at above inside
      by_cases whole : p.dataEnd.toNat % 4096 = 0
      · exact Or.inl whole
      · rw [← fromBase, count, sameMod, fromBase] at inside
        refine Or.inr ⟨?_, ?_⟩ <;> bv_omega
  · rintro (whole | ⟨above, inside⟩)
    · refine Or.inl (BitVec.eq_of_toNat_eq ?_)
      rw [count, sameMod, whole]
      rfl
    · refine Or.inr ?_
      rw [count, sameMod, fromBase]
      constructor <;> bv_omega

/-- What was mapped just now is written inside. -/
theorem expects_of_subset {addr len : Word} {c : HostCall} {reply : HostReply c}
    (contains : info.Contains addr len) (inside : c.writes ⊆ addresses addr len) :
    (writesInside info).expects (some (addr, len)) ⟨c, reply⟩ := by
  intro a written
  have there := inside written
  refine ⟨⟨addr, len, rfl, there⟩, contains.1.trans there.1, ?_⟩
  exact lt_of_lt_of_le there.2 contains.2

/-- What is expected lies inside. -/
theorem subset_of_expects {addr len : Word} {c : HostCall} {reply : HostReply c}
    (expected : (writesInside info).expects (some (addr, len)) ⟨c, reply⟩) :
    c.writes ⊆ addresses addr len := by
  intro a written
  obtain ⟨⟨addr', len', same, there⟩, -⟩ := expected a written
  cases same
  exact there

/-- Recording a segment writes nothing. -/
theorem ElfTarget.record_watched {seg : ElfSeg} :
    (target.record seg).Watched hosted (writesInside info) (fun _ _ => True) range := by
  rw [ElfTarget.record, Prog.watched_bind, Prog.watched_check]
  split <;> trivial

/-- What fits is written inside. -/
theorem Elf64Phdr.load_watched (keeps : box.Keeps target.box) (ok : box.Ok) (proper : p.Proper)
    (fits : p.taken box base → p.writesFit buf) :
    (p.load buf base target).Watched hosted (writesInside box.toLPSBoxInfo) (fun _ _ => True)
      range := by
  rw [load, bufReadElfseg]
  split
  · rename_i isFile
    rw [mapElfseg]
    apply mapat_watched keeps ok (LPSBox.lpsBoxMapat_watched keeps.ok)
    intro r box' range' keeps' mapped isRange
    dsimp only
    split
    · trivial
    rename_i succeeded
    obtain ⟨rfl, taken⟩ := mapped succeeded
    rw [isRange succeeded]
    split
    · rename_i longer
      split
      · trivial
      rename_i writable
      have fit := fits taken
      rw [writesFit, if_neg isFile] at fit
      rw [Prog.watched_bind]
      refine fun reply _ => ⟨expects_of_subset (taken.contains ok).1
        ((clear_inside_iff ok taken proper).mpr (fit longer writable)), ?_⟩
      rw [Prog.watched_ret]
      split
      · apply mapat_watched keeps' ok (LPSBox.lpsBoxMapat_watched keeps'.ok)
        intro _ box'' range'' keeps'' _ _
        exact ElfTarget.record_watched
      · exact ElfTarget.record_watched
    · exact ElfTarget.record_watched
  · rename_i notFile
    rw [copyElfseg]
    apply mapat_watched keeps ok (LPSBox.lpsBoxMapat_watched keeps.ok)
    intro r box' range' keeps' mapped isRange
    dsimp only
    split
    · trivial
    rename_i succeeded
    obtain ⟨rfl, taken⟩ := mapped succeeded
    rw [isRange succeeded]
    have fit := fits taken
    rw [writesFit, if_pos (not_not.mp notFile)] at fit
    rw [Prog.watched_bind]
    refine fun reply _ => ⟨expects_of_subset (taken.contains ok).1
      ((copy_inside_iff ok taken proper).mpr fit), ?_⟩
    rw [Prog.watched_ret]
    split
    · trivial
    rw [Prog.watched_bind, lpsBoxMprotect, Prog.watched_bind, Prog.watched_check]
    split
    · refine fun result _ => ⟨fun a written => absurd written (Set.notMem_empty a), ?_⟩
      rw [Prog.watched_ret]
      split
      · trivial
      · exact ElfTarget.record_watched
    · trivial

/-! ## What is written is needed -/

/-- What is written for a segment that the box takes fits when it is written inside. -/
theorem Elf64Phdr.fits_of_watched {post : Bool × ElfTarget → Option (Word × Word) → Prop}
    (here : target.At box count) (ok : box.Ok) (proper : p.Proper) (taken : p.taken box base)
    (watched : (p.load buf base target).Watched hosted (writesInside info) post range) :
    p.writesFit buf := by
  rw [load, bufReadElfseg] at watched
  rw [writesFit]
  split at watched
  · rename_i isFile
    rw [if_neg isFile]
    intro longer writable
    rw [mapElfseg] at watched
    obtain ⟨address, box', range', isRange, goesOn⟩ :=
      here.mapat_watched ok taken (LPSBox.lpsBoxMapat_watched here.keeps.ok) watched
    rw [isRange address] at goesOn
    dsimp only at goesOn
    rw [if_neg address, if_pos longer, if_neg writable, Prog.watched_bind] at goesOn
    exact (clear_inside_iff ok taken proper).mp (subset_of_expects (goesOn ⟨⟩ trivial).1)
  · rename_i notFile
    rw [if_pos (not_not.mp notFile)]
    rw [copyElfseg] at watched
    obtain ⟨address, box', range', isRange, goesOn⟩ :=
      here.mapat_watched ok taken (LPSBox.lpsBoxMapat_watched here.keeps.ok) watched
    rw [isRange address] at goesOn
    dsimp only at goesOn
    rw [if_neg address, Prog.watched_bind] at goesOn
    exact (copy_inside_iff ok taken proper).mp (subset_of_expects (goesOn ⟨⟩ trivial).1)

/-- The monitor follows the segments. -/
theorem writesInside_follows (ok : box.Ok) :
    Follows (writesInside box.toLPSBoxInfo) box buf (fun p => p.writesFit buf) fun _ _ => True where
  skips := fun _ _ => trivial
  mallocs := fun _ => ⟨fun a written => absurd written (Set.notMem_empty a), trivial⟩
  maps := fun keeps => (LPSBox.lpsBoxMapat_watched keeps.ok).mono fun _ _ _ => trivial
  watches := fun keeps proper _ _ fits =>
    (Elf64Phdr.load_watched keeps ok proper fits).mono fun _ _ _ _ => trivial
  needs := fun here proper _ _ taken watched =>
    Elf64Phdr.fits_of_watched here ok proper taken watched

/-! ## Processes -/

/-- Whatever the host answers, every byte that is written while an image is loaded lies in the
range that was mapped just before, and in the box. -/
structure WritesInside (box : LPSBoxInfo) (load : HostProg (Bool × LPSProc)) : Prop where
  accepts : ∀ host : MemHost, (∀ made c, hosted.replies c (host made c)) →
    (writesInside box).Accepts none (load.exchanges host [])

/-- What is written for the segments fits, for those that the loop comes to and the box takes. -/
def WritesFit (box : LPSBoxInfo) (buf : Buf) : Prop :=
  buf.headerOk = true → buf.tableOk = true →
    ∀ x ∈ tried box.track buf ELFSEGMAXN box.base buf.phdrs,
      x.2.taken box.track x.1 → x.2.writesFit buf

instance (box : LPSBoxInfo) (buf : Buf) : Decidable (WritesFit box buf) :=
  inferInstanceAs (Decidable (_ → _ → _))

theorem writesInside_iff_watched {load : HostProg (Bool × LPSProc)} :
    WritesInside info load ↔ load.Watched hosted (writesInside info) (fun _ _ => True) none := by
  rw [Prog.watched_iff_accepts hosted_replies fun _ => trivial]
  exact ⟨fun inside => inside.accepts, fun accepts => ⟨accepts⟩⟩

variable {opts : LPSLinuxOpts} {kfds : Nat → Option Int}

theorem writesInside_iff (fits : info.base.toNat + info.size.toNat < 2 ^ 64) :
    WritesInside info ((lpsProcNew info opts kfds).procLoad buf) ↔ WritesFit info buf := by
  rw [writesInside_iff_watched]
  exact (writesInside_follows (LPSBoxInfo.track_ok fits)).procLoad_iff fits trivial

/-- Everything that `lps_proc_load` and `lps_proc_load_fd` write for a new process lies in what
has just been mapped for the segment exactly when it fits. -/
theorem load_writes_inside_iff (fits : info.base.toNat + info.size.toNat < 2 ^ 64) :
    (∀ data size, WritesInside info ((lpsProcNew info opts kfds).lpsProcLoad data size) ↔
      WritesFit info ⟨-1, data, size⟩) ∧
    ∀ fd file, WritesInside info ((lpsProcNew info opts kfds).lpsProcLoadFd fd file) ↔
      ∀ data size, file = some (data, size) → WritesFit info ⟨fd, data, size⟩ := by
  constructor
  · intro data size
    exact writesInside_iff fits
  · intro fd file
    cases file with
    | none => exact iff_of_true ⟨fun _ _ => trivial⟩ nofun
    | some image =>
        rw [LPSProc.lpsProcLoadFd, writesInside_iff fits]
        constructor
        · rintro fit _ _ ⟨⟩
          exact fit
        · intro fit
          exact fit _ _ rfl

/-- The small image is copied into its segment. -/
theorem load_writes_inside_small :
    WritesInside smallBox ((lpsProcNew smallBox smallOpts fun _ => none).lpsProcLoad
      smallImage.data smallImage.size) := by
  rw [(load_writes_inside_iff (by decide)).1]
  decide +kernel

/-- An image whose only segment has no bytes of the image, and starts behind its end. -/
def hollowImage : Buf := .ofBytes (-1) (elfImage 0 [⟨1, 6, 121, 0, 0, 4096, 4096⟩] [])

/-- For it the loader writes all memory behind the base of the box. -/
theorem load_writes_outside :
    ¬∀ (box : LPSBoxInfo) (opts : LPSLinuxOpts) (kfds : Nat → Option Int) (data : Nat → Byte)
      (size : Word), box.base.toNat + box.size.toNat < 2 ^ 64 →
      WritesInside box ((lpsProcNew box opts kfds).lpsProcLoad data size) := by
  intro claim
  have inside : WritesInside smallBox ((lpsProcNew smallBox smallOpts fun _ => none).lpsProcLoad
      hollowImage.data hollowImage.size) := claim _ _ _ _ _ (by decide)
  have unfit : ¬WritesFit smallBox ⟨-1, hollowImage.data, hollowImage.size⟩ := by
    decide +kernel
  rw [LPSProc.lpsProcLoad, writesInside_iff (by decide)] at inside
  exact unfit inside

end Lps.Linux

import Lps.Linux.FileOps
import Lps.Program.Play

/-!
# Reading at an offset

`sys_pread64` asks a file for its position, seeks, reads, and seeks back.  What the second seek
returns is not looked at.  A seekable file has contents and a position, and accepts some offsets.
-/

namespace Lps.Linux

open Lps.Core Lps.Program

/-- A file that can be sought in.  Its `lseek` accepts every offset up to the end of its contents,
its position, and no negative offset; what is accepted besides, and how much a read gives before
the end, is up to the file. -/
structure SeekableFile where
  contents : List Byte
  pos : Word
  accepts : Word → Bool
  /-- What a `read` of this many bytes returns at this position. -/
  reads : Word → Word → Word
  acceptsContents : ∀ offset : Word, offset.toNat ≤ contents.length → accepts offset = true
  acceptsPos : accepts pos = true
  nonnegative : ∀ offset, accepts offset = true → offset.slt 0 = false
  readsFit : ∀ pos size, (reads pos size).slt 0 = false →
    (reads pos size).toNat ≤ size.toNat ∧ (reads pos size).toNat ≤ contents.length - pos.toNat

/-- What changes while a call runs: the position, and what was read into the buffer. -/
structure FileState where
  pos : Word
  buf : List Byte

namespace SeekableFile

variable (f : SeekableFile)

/-- The host's `lseek` of the file, through `klseek`. -/
def klseek (offset whence : Word) (s : FileState) : Word × FileState :=
  let target := if whence = SEEK_SET then offset else s.pos + offset
  if f.accepts target then (target, { s with pos := target }) else (hostErr 22, s)

/-- The host's `read` of the file, through `kread`. -/
def kread (size : Word) (s : FileState) : Word × FileState :=
  let n := f.reads s.pos size
  if n.slt 0 then (n, s)
  else (n, ⟨s.pos + n, (f.contents.drop s.pos.toNat).take n.toNat⟩)

/-- What the file does. -/
def answer : Handler FileCall FileReply FileState
  | .function _ .klseek [offset, whence], s => f.klseek offset whence s
  | .function _ .kread [_, size], s => f.kread size s
  | .function .., s => (-LINUX_EPERM, s)
  | .fstat _, s => (0, s)
  | .fstatat _, s => (0, s)
  | .errno, s => (0, s)
  | .memory .malloc, s => (false, s)
  | .memory (.mmap ..), s => (0, s)
  | .memory (.mprotect ..), s => (0, s)
  | .memory (.memcpy ..), s => ((), s)
  | .memory (.memset ..), s => ((), s)

/-- Before the call. -/
def start : FileState := ⟨f.pos, []⟩

end SeekableFile

/-- An error reads nothing, and `n` means that the bytes of the file at the offset are in the buffer;
the position is where it was. -/
structure Positional (f : SeekableFile) (offset value : Word) (s : FileState) : Prop where
  pos : s.pos = f.pos
  data : if value.slt 0 then s.buf = []
    else s.buf.length = value.toNat ∧ s.buf = (f.contents.drop offset.toNat).take value.toNat

namespace SeekableFile

variable {f : SeekableFile} {kfd : Int} {box : LPSBoxInfo} {bufp size offset : Word}

/-- Where `sys_pread64` reads. -/
def readFrom (f : SeekableFile) (offset : Word) : Word := if f.accepts offset then offset else f.pos

/-- What `sys_pread64` comes to: the read of the file, and its position as before. -/
theorem pread_returns (accepted : bufhost box bufp size 1 ≠ 0) :
    ((Descriptor.file (.host kfd)).sysPread64 box bufp size offset).Returns f.answer f.start
      (f.kread size ⟨f.readFrom offset, []⟩).1
      { (f.kread size ⟨f.readFrom offset, []⟩).2 with pos := f.pos } := by
  have orig : f.klseek 0 SEEK_CUR f.start = (f.pos, f.start) := by
    have current : ¬SEEK_CUR = SEEK_SET := by decide
    have same : f.pos + 0 = f.pos := BitVec.add_zero _
    simp only [klseek, if_neg current, start, same, f.acceptsPos, if_true]
  have sought : (f.klseek offset SEEK_SET f.start).2 = ⟨f.readFrom offset, []⟩ := by
    simp only [klseek, if_true, readFrom, start]
    split
    · rfl
    · rfl
  have back : ∀ s, (f.klseek f.pos SEEK_SET s).2 = { s with pos := f.pos } := by
    intro s
    simp only [klseek, if_true, f.acceptsPos]
  change ((if bufhost box bufp size 1 = 0 then pure (-LINUX_EFAULT) else do
    let orig ← Prog.ask (FileCall.function (.host kfd) .klseek [0, SEEK_CUR])
    if orig.slt 0 then pure (hostErr (orig.setWidth 32)) else do
      let _ ← Prog.ask (FileCall.function (.host kfd) .klseek [offset, SEEK_SET])
      let n ← Prog.ask (FileCall.function (.host kfd) .kread [bufp, size])
      let _ ← Prog.ask (FileCall.function (.host kfd) .klseek [orig, SEEK_SET])
      pure n) : FileProg Word).Returns _ _ _ _
  have positive : ¬f.pos.slt 0 = true := by
    rw [f.nonnegative f.pos f.acceptsPos]
    decide
  rw [if_neg accepted, Prog.returns_bind]
  refine ⟨f.pos, f.start, Prog.returns_ask.mpr orig, ?_⟩
  rw [if_neg positive, Prog.returns_bind]
  refine ⟨(f.klseek offset SEEK_SET f.start).1, ⟨f.readFrom offset, []⟩,
    Prog.returns_ask.mpr (Prod.ext rfl sought), ?_⟩
  rw [Prog.returns_bind]
  refine ⟨(f.kread size ⟨f.readFrom offset, []⟩).1, (f.kread size ⟨f.readFrom offset, []⟩).2,
    Prog.returns_ask.mpr rfl, ?_⟩
  rw [Prog.returns_bind]
  refine ⟨(f.klseek f.pos SEEK_SET (f.kread size ⟨f.readFrom offset, []⟩).2).1,
    { (f.kread size ⟨f.readFrom offset, []⟩).2 with pos := f.pos },
    Prog.returns_ask.mpr (Prod.ext rfl (back _)), ?_⟩
  exact Prog.returns_pure.mpr ⟨rfl, rfl⟩

/-- A read gives as many bytes as it says. -/
theorem length_read {from_ : Word} (positive : (f.reads from_ size).slt 0 = false) :
    ((f.contents.drop from_.toNat).take (f.reads from_ size).toNat).length =
      (f.reads from_ size).toNat := by
  rw [List.length_take, List.length_drop]
  exact Nat.min_eq_left (f.readsFit from_ size positive).2

/-- A read that leaves nothing in the buffer, or what the file holds at the offset. -/
theorem positional_kread_iff {from_ : Word} :
    Positional f offset (f.kread size ⟨from_, []⟩).1
        { (f.kread size ⟨from_, []⟩).2 with pos := f.pos } ↔
      ((f.reads from_ size).slt 0 = false →
        (f.contents.drop from_.toNat).take (f.reads from_ size).toNat =
          (f.contents.drop offset.toNat).take (f.reads from_ size).toNat) := by
  cases sign : (f.reads from_ size).slt 0 with
  | true =>
      simp only [kread, sign, if_true]
      exact iff_of_true ⟨rfl, by rw [if_pos sign]⟩ nofun
  | false =>
      simp only [kread, sign, Bool.false_eq_true, if_false]
      constructor
      · rintro ⟨-, data⟩ _
        rw [if_neg (by rw [sign]; decide)] at data
        exact data.2
      · intro same
        refine ⟨rfl, ?_⟩
        rw [if_neg (by rw [sign]; decide)]
        exact ⟨length_read sign, same trivial⟩

/-- Offsets that are not accepted lie behind the contents. -/
theorem drop_of_rejected (rejected : ¬f.accepts offset = true) : f.contents.drop offset.toNat = [] := by
  apply List.drop_eq_nil_of_le
  by_contra inside
  exact rejected (f.acceptsContents offset (by omega))

/-- `sys_pread64` is positional exactly when it refuses its buffer, the file accepts the offset, or
nothing can be read where the file is. -/
theorem pread_positional_iff (f : SeekableFile) (kfd : Int) (box : LPSBoxInfo)
    (bufp size offset : Word) :
    (∃ value s, ((Descriptor.file (.host kfd)).sysPread64 box bufp size offset).Returns f.answer f.start
      value s ∧ Positional f offset value s) ↔
    bufhost box bufp size 1 = 0 ∨ f.accepts offset = true ∨ (f.reads f.pos size).slt 0 = true ∨
      f.reads f.pos size = 0 := by
  by_cases refused : bufhost box bufp size 1 = 0
  · apply iff_of_true _ (.inl refused)
    refine ⟨-LINUX_EFAULT, f.start, ?_, rfl, rfl⟩
    change ((if bufhost box bufp size 1 = 0 then pure (-LINUX_EFAULT) else _ : FileProg Word)).Returns
      _ _ _ _
    rw [if_pos refused]
    exact Prog.returns_pure.mpr ⟨rfl, rfl⟩
  have comes := @pread_returns f kfd box bufp size offset refused
  have only : (∃ value s, ((Descriptor.file (.host kfd)).sysPread64 box bufp size offset).Returns f.answer
      f.start value s ∧ Positional f offset value s) ↔
      Positional f offset (f.kread size ⟨f.readFrom offset, []⟩).1
        { (f.kread size ⟨f.readFrom offset, []⟩).2 with pos := f.pos } := by
    constructor
    · rintro ⟨value, s, returns, positional⟩
      cases comes.symm.trans returns
      exact positional
    · exact fun positional => ⟨_, _, comes, positional⟩
  rw [only, positional_kread_iff, readFrom]
  by_cases accepted : f.accepts offset = true
  · rw [if_pos accepted]
    exact iff_of_true (fun _ => rfl) (.inr (.inl accepted))
  rw [if_neg accepted, drop_of_rejected accepted, List.take_nil]
  constructor
  · intro nothing
    cases sign : (f.reads f.pos size).slt 0 with
    | true => exact .inr (.inr (.inl rfl))
    | false =>
        have none := length_read sign
        rw [nothing sign, List.length_nil] at none
        exact .inr (.inr (.inr (BitVec.eq_of_toNat_eq none.symm)))
  · rintro (zero | offset | error | zero) positive
    · exact absurd zero refused
    · exact absurd offset accepted
    · exact absurd (positive.symm.trans error) (by decide)
    · rw [zero]
      rfl

end SeekableFile

/-- A file of three bytes at its start, which accepts offsets up to its end and reads what is left. -/
def threeBytes : SeekableFile where
  contents := [97, 98, 99]
  pos := 0
  accepts offset := decide (offset ≤ 3)
  reads pos size := if pos ≤ 3 then (if size < 3 - pos then size else 3 - pos) else 0
  acceptsContents offset le := decide_eq_true le
  acceptsPos := by decide
  nonnegative offset accepted := by
    have small : offset ≤ 3 := of_decide_eq_true accepted
    obtain rfl | rfl | rfl | rfl : offset = 0 ∨ offset = 1 ∨ offset = 2 ∨ offset = 3 := by bv_omega
    · rfl
    · rfl
    · rfl
    · rfl
  readsFit pos size _ := by
    have length : ([97, 98, 99] : List Byte).length = 3 := rfl
    rw [length]
    split
    · split
      · bv_omega
      · bv_omega
    · exact ⟨Nat.zero_le _, Nat.zero_le _⟩

/-- An offset of `-1`: the call returns the byte at the position of the file. -/
theorem pread_reads_elsewhere :
    ¬∀ (f : SeekableFile) (kfd : Int) (box : LPSBoxInfo) (bufp size offset : Word),
      ∃ value s, ((Descriptor.file (.host kfd)).sysPread64 box bufp size offset).Returns f.answer f.start
        value s ∧ Positional f offset value s := by
  intro claim
  obtain ⟨value, s, returns, positional⟩ := claim threeBytes 5 ⟨0x100000, 0x10000⟩ 0x100100 1 (-1)
  cases returns
  have data := positional.data
  revert data
  decide

end Lps.Linux

import Lps.Linux.ElfLoad

/-!
# Writing an ELF image

A file header, a table of program headers and a body make an image.  Reading the
table back gives the program headers it was written from.
-/

namespace Lps.Linux

/-- The `len` low bytes of a number, the lowest first. -/
def littleEndian : Nat → Nat → List Byte
  | 0, _ => []
  | len + 1, n => BitVec.ofNat 8 n :: littleEndian len (n / 256)

@[simp]
theorem length_littleEndian (len n : Nat) : (littleEndian len n).length = len := by
  induction len generalizing n with
  | zero => rfl
  | succ len ih => rw [littleEndian, List.length_cons, ih]

/-- An `Elf64_Phdr`; its `p_paddr` is zero. -/
def Elf64Phdr.encode (p : Elf64Phdr) : List Byte :=
  littleEndian 4 p.p_type.toNat ++ littleEndian 4 p.p_flags.toNat ++
    littleEndian 8 p.p_offset.toNat ++ littleEndian 8 p.p_vaddr.toNat ++ littleEndian 8 0 ++
    littleEndian 8 p.p_filesz.toNat ++ littleEndian 8 p.p_memsz.toNat ++
    littleEndian 8 p.p_align.toNat

@[simp]
theorem Elf64Phdr.length_encode (p : Elf64Phdr) : p.encode.length = 56 := by
  simp [encode]

/-- The `Elf64_Ehdr` of a position-independent executable with `phnum` program
headers behind it. -/
def elfHeader (entry : Word) (phnum : Nat) : List Byte :=
  [0x7f, 0x45, 0x4c, 0x46, 2] ++ List.replicate 11 0 ++ littleEndian 2 3 ++ littleEndian 2 0 ++
    littleEndian 4 1 ++ littleEndian 8 entry.toNat ++ littleEndian 8 64 ++ littleEndian 8 0 ++
    littleEndian 4 0 ++ littleEndian 2 64 ++ littleEndian 2 56 ++ littleEndian 2 phnum ++
    List.replicate 6 0

@[simp]
theorem length_elfHeader (entry : Word) (phnum : Nat) : (elfHeader entry phnum).length = 64 := by
  simp [elfHeader]

/-- An image. -/
def elfImage (entry : Word) (phdrs : List Elf64Phdr) (body : List Byte) : List Byte :=
  elfHeader entry phdrs.length ++ phdrs.flatMap Elf64Phdr.encode ++ body

/-- These bytes, behind a file descriptor or in memory. -/
def Buf.ofBytes (fd : Int) (bytes : List Byte) : Buf where
  fd := fd
  data := fun i => bytes.getD i 0
  size := BitVec.ofNat 64 bytes.length

namespace Buf

variable {fd : Int} {before after bytes : List Byte}

/-- A number that was written is read. -/
theorem number_ofBytes {len n : Nat} (layout : bytes = before ++ (littleEndian len n ++ after)) :
    (ofBytes fd bytes).number before.length len = n % 256 ^ len := by
  induction len generalizing n before with
  | zero => simp [number, Nat.mod_one]
  | succ len ih =>
      have byte : (ofBytes fd bytes).data before.length = BitVec.ofNat 8 n := by
        simp [ofBytes, layout, littleEndian]
      have rest : bytes = (before ++ [BitVec.ofNat 8 n]) ++ (littleEndian len (n / 256) ++ after) := by
        rw [layout, littleEndian, List.append_assoc]
        rfl
      have numbers := ih rest
      rw [List.length_append, List.length_singleton] at numbers
      rw [number, byte, numbers, BitVec.toNat_ofNat, pow_succ' 256]
      exact Nat.mod_mul.symm

theorem field_ofBytes {len n : Nat} (layout : bytes = before ++ (littleEndian len n ++ after))
    (small : n < 256 ^ len) :
    (ofBytes fd bytes).field before.length len = BitVec.ofNat 64 n := by
  rw [field, number_ofBytes layout, Nat.mod_eq_of_lt small]

/-- A word that was written is read. -/
theorem word_ofBytes {len : Nat} {w : Word} {offset : Nat} (at_ : offset = before.length)
    (layout : bytes = before ++ (littleEndian len w.toNat ++ after))
    (small : w.toNat < 256 ^ len) : (ofBytes fd bytes).field offset len = w := by
  rw [at_, field_ofBytes layout small, BitVec.ofNat_toNat, BitVec.setWidth_eq]

/-- A program header that was written is read. -/
theorem phdr_ofBytes {p : Elf64Phdr} (layout : bytes = before ++ (p.encode ++ after))
    (type_small : p.p_type.toNat < 2 ^ 32) (flags_small : p.p_flags.toNat < 2 ^ 32) :
    (ofBytes fd bytes).phdr before.length = p := by
  have word : ∀ w : Word, w.toNat < 256 ^ 8 := fun w => w.isLt
  simp only [Elf64Phdr.encode, List.append_assoc] at layout
  have typeLayout := layout
  have flagsLayout := typeLayout
  rw [← List.append_assoc] at flagsLayout
  have offsetLayout := flagsLayout
  rw [← List.append_assoc] at offsetLayout
  have vaddrLayout := offsetLayout
  rw [← List.append_assoc] at vaddrLayout
  have paddrLayout := vaddrLayout
  rw [← List.append_assoc] at paddrLayout
  have fileszLayout := paddrLayout
  rw [← List.append_assoc] at fileszLayout
  have memszLayout := fileszLayout
  rw [← List.append_assoc] at memszLayout
  have alignLayout := memszLayout
  rw [← List.append_assoc] at alignLayout
  rw [phdr, word_ofBytes rfl typeLayout (by simpa using type_small),
    word_ofBytes (by simp) flagsLayout (by simpa using flags_small),
    word_ofBytes (by simp) offsetLayout (word _), word_ofBytes (by simp) vaddrLayout (word _),
    word_ofBytes (by simp) fileszLayout (word _), word_ofBytes (by simp) memszLayout (word _),
    word_ofBytes (by simp) alignLayout (word _)]

/-- The header of an image is the one it was written with. -/
theorem ehdr_elfImage {entry : Word} {phdrs : List Elf64Phdr} {body : List Byte}
    (few : phdrs.length < 2 ^ 16) :
    (ofBytes fd (elfImage entry phdrs body)).ehdr =
      ⟨[0x7f, 0x45, 0x4c, 0x46, 2], 3, 1, entry, 64, BitVec.ofNat 64 phdrs.length⟩ := by
  have header : ∀ offset len n : Nat, offset ≤ 64 →
      ((elfHeader entry phdrs.length).drop offset).take len = littleEndian len n → n < 256 ^ len →
      (ofBytes fd (elfImage entry phdrs body)).field offset len = BitVec.ofNat 64 n := by
    intro offset len n inside layout small
    have before : ((elfHeader entry phdrs.length).take offset).length = offset := by
      simpa using inside
    have image : elfImage entry phdrs body = (elfHeader entry phdrs.length).take offset ++
        (littleEndian len n ++ (((elfHeader entry phdrs.length).drop offset).drop len ++
          (phdrs.flatMap Elf64Phdr.encode ++ body))) := by
      rw [← layout, ← List.append_assoc (List.take len _), List.take_append_drop,
        ← List.append_assoc, List.take_append_drop, elfImage, List.append_assoc]
    have read := @field_ofBytes fd _ _ _ _ _ image small
    rwa [before] at read
  have entryRead := header 24 8 entry.toNat (by decide) rfl entry.isLt
  rw [BitVec.ofNat_toNat, BitVec.setWidth_eq] at entryRead
  rw [ehdr, header 16 2 3 (by decide) rfl (by decide),
    header 20 4 1 (by decide) rfl (by decide), entryRead,
    header 32 8 64 (by decide) rfl (by decide), header 56 2 _ (by decide) rfl few]
  rfl

/-- The program headers of an image are the ones it was written with. -/
theorem phdrs_elfImage {entry : Word} {phdrs : List Elf64Phdr} {body : List Byte}
    (few : phdrs.length < 2 ^ 16)
    (small : ∀ p ∈ phdrs, p.p_type.toNat < 2 ^ 32 ∧ p.p_flags.toNat < 2 ^ 32) :
    (ofBytes fd (elfImage entry phdrs body)).phdrs = phdrs := by
  have count : (BitVec.ofNat 64 phdrs.length).toNat = phdrs.length := by
    rw [BitVec.toNat_ofNat, Nat.mod_eq_of_lt (by omega)]
  rw [Buf.phdrs, ehdr_elfImage few]
  dsimp only
  rw [count]
  refine List.ext_getElem (by simp) ?_
  intro i _ inside
  obtain ⟨typeSmall, flagsSmall⟩ := small _ (List.getElem_mem inside)
  have encoded : ∀ ps : List Elf64Phdr, (ps.flatMap Elf64Phdr.encode).length = 56 * ps.length := by
    intro ps
    simp [List.length_flatMap, Nat.mul_comm]
  have before : (elfHeader entry phdrs.length ++ (phdrs.take i).flatMap Elf64Phdr.encode).length =
      64 + 56 * i := by
    rw [List.length_append, length_elfHeader, encoded, List.length_take_of_le inside.le]
  have image : elfImage entry phdrs body =
      (elfHeader entry phdrs.length ++ (phdrs.take i).flatMap Elf64Phdr.encode) ++
        (phdrs[i].encode ++ ((phdrs.drop (i + 1)).flatMap Elf64Phdr.encode ++ body)) := by
    have whole : phdrs = phdrs.take i ++ phdrs[i] :: phdrs.drop (i + 1) := by simp
    have table := congrArg (List.flatMap Elf64Phdr.encode) whole
    rw [List.flatMap_append, List.flatMap_cons] at table
    rw [elfImage, table]
    simp only [List.append_assoc]
  have read := @phdr_ofBytes fd _ _ _ _ image typeSmall flagsSmall
  rw [before] at read
  simpa using read

end Buf

end Lps.Linux

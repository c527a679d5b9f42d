import Lps.Core.BoxMem

/-!
# Loading an ELF image

`elf_load_one` reads the headers of an image, which nobody has checked, and maps
its loadable segments into the box.  An image in memory is copied into fresh
anonymous pages; an image in a file is mapped, and what lies behind its last byte
is cleared.
-/

namespace Lps.Linux

open Lps.Core Lps.Program

/-! ## Alignment -/

/-- `truncp` of `align.h`. -/
def truncp (addr align : Word) : Word :=
  let alignMask := align - 1
  addr &&& ~~~alignMask

/-- `ceilp` of `align.h`. -/
def ceilp (addr align : Word) : Word :=
  let alignMask := align - 1
  (addr + alignMask) &&& ~~~alignMask

/-! ## The image -/

/-- `struct Buf`; `fd` is `-1` for an image in memory. -/
structure Buf where
  fd : Int
  data : Nat → Byte
  size : Word

namespace Buf

/-- How many bytes `buf_read` copies. -/
def readCount (buf : Buf) (count offset : Word) : Word :=
  if offset + count > buf.size then buf.size - offset else count

/-- The little-endian number in the `len` bytes at `offset` of the image. -/
def number (buf : Buf) (offset : Nat) : Nat → Nat
  | 0 => 0
  | len + 1 => (buf.data offset).toNat + 256 * buf.number (offset + 1) len

/-- A field of two, four or eight bytes. -/
def field (buf : Buf) (offset len : Nat) : Word := BitVec.ofNat 64 (buf.number offset len)

end Buf

/-- The fields of `Elf64_Phdr` that the loader reads. -/
structure Elf64Phdr where
  p_type : Word
  p_flags : Word
  p_offset : Word
  p_vaddr : Word
  p_filesz : Word
  p_memsz : Word
  p_align : Word
  deriving DecidableEq

def PHNUM_MAX : Word := 64

def CODE_MAX : Word := 1024 * 1024 * 1024

def PT_LOAD : Word := 1

def PF_X : Word := 1

def PF_W : Word := 2

def PF_R : Word := 4

def PROT_EXEC : CInt := 4

/-- `sizeof(Elf64_Ehdr)`. -/
def EHDR_SIZE : Word := 64

/-- `sizeof(Elf64_Phdr)`. -/
def PHDR_SIZE : Word := 56

def ELFSEGMAXN : Nat := 4

/-- `pflags`. -/
def pflags (prot : Word) : CInt :=
  (if prot &&& PF_R ≠ 0 then PROT_READ else 0) |||
    (if prot &&& PF_W ≠ 0 then PROT_WRITE else 0) |||
    (if prot &&& PF_X ≠ 0 then PROT_EXEC else 0)

/-- The fields of `Elf64_Ehdr` that the loader reads. -/
structure Elf64Ehdr where
  e_ident : List Byte
  e_type : Word
  e_version : Word
  e_entry : Word
  e_phoff : Word
  e_phnum : Word

/-- The header at the start of an image. -/
def Buf.ehdr (buf : Buf) : Elf64Ehdr where
  e_ident := (List.range 5).map buf.data
  e_type := buf.field 16 2
  e_version := buf.field 20 4
  e_entry := buf.field 24 8
  e_phoff := buf.field 32 8
  e_phnum := buf.field 56 2

/-- The program header at `offset` of an image. -/
def Buf.phdr (buf : Buf) (offset : Nat) : Elf64Phdr where
  p_type := buf.field offset 4
  p_flags := buf.field (offset + 4) 4
  p_offset := buf.field (offset + 8) 8
  p_vaddr := buf.field (offset + 16) 8
  p_filesz := buf.field (offset + 32) 8
  p_memsz := buf.field (offset + 40) 8
  p_align := buf.field (offset + 48) 8

/-- The table of program headers. -/
def Buf.phdrs (buf : Buf) : List Elf64Phdr :=
  (List.range buf.ehdr.e_phnum.toNat).map fun i => buf.phdr (buf.ehdr.e_phoff.toNat + 56 * i)

/-- `elf_check`: the magic bytes, the 64-bit class, the current version. -/
def elfCheck (ehdr : Elf64Ehdr) : Bool :=
  ehdr.e_ident = [0x7f, 0x45, 0x4c, 0x46, 2] && ehdr.e_version = 1

/-! ## Segments -/

/-- `struct ElfSeg`. -/
structure ElfSeg where
  start : Word
  stop : Word
  prot : CInt
  deriving DecidableEq

/-- What loading changes in a process: its box and `seginfo`. -/
structure ElfTarget where
  box : LPSBox
  seginfo : List ElfSeg
  deriving DecidableEq

/-- The end of `buf_read_elfseg`: record the segment. -/
def ElfTarget.record (target : ElfTarget) (seg : ElfSeg) : HostProg (Bool × ElfTarget) := do
  Prog.check (target.seginfo.length < ELFSEGMAXN) .elfSegs
  return (true, { target with seginfo := target.seginfo ++ [seg] })

/-- The branch of `buf_read_elfseg` for an image in a file. -/
def mapElfseg (target : ElfTarget) (start offset stop p_offset filesz memsz : Word) (prot : CInt)
    (buf : Buf) (pagesize p_align : Word) : HostProg (Bool × ElfTarget) := do
  let (p, box) ← lpsBoxMapat target.box start (stop - start) prot MAP_PRIVATE buf.fd
    (truncp p_offset p_align)
  let target := { target with box := box }
  if p = -1 then return (false, target)
  if memsz > filesz then
    if prot &&& PROT_WRITE = 0 then return (false, target)
    let bssStart := start + offset + filesz
    let bssRest := ceilp bssStart pagesize
    Prog.ask (HostCall.memset bssStart (bssRest - bssStart))
    if bssRest < stop then
      let (_, box) ← lpsBoxMapat target.box bssRest (stop - bssRest) prot
        (MAP_PRIVATE ||| MAP_ANONYMOUS) (-1) 0
      ElfTarget.record { target with box := box } ⟨start, stop, prot⟩
    else target.record ⟨start, stop, prot⟩
  else target.record ⟨start, stop, prot⟩

/-- The branch of `buf_read_elfseg` for an image in memory. -/
def copyElfseg (target : ElfTarget) (start offset stop p_offset filesz : Word) (prot : CInt)
    (buf : Buf) : HostProg (Bool × ElfTarget) := do
  let (p, box) ← lpsBoxMapat target.box start (stop - start) (PROT_READ ||| PROT_WRITE)
    (MAP_PRIVATE ||| MAP_ANONYMOUS) (-1) 0
  let target := { target with box := box }
  if p = -1 then return (false, target)
  let n := buf.readCount filesz p_offset
  Prog.ask (HostCall.memcpy (start + offset) n p_offset)
  if n ≠ filesz then return (false, target)
  let r ← lpsBoxMprotect target.box start (stop - start) prot
  if r < 0 then return (false, target)
  target.record ⟨start, stop, prot⟩

/-- `buf_read_elfseg`. -/
def bufReadElfseg (target : ElfTarget) (start offset stop p_offset filesz memsz : Word)
    (prot : CInt) (buf : Buf) (pagesize p_align : Word) : HostProg (Bool × ElfTarget) :=
  if buf.fd ≠ -1 then
    mapElfseg target start offset stop p_offset filesz memsz prot buf pagesize p_align
  else copyElfseg target start offset stop p_offset filesz prot buf

/-- The locals of the loop of `elf_load_one`. -/
structure ElfLoop where
  base : Word
  first : Word
  last : Word
  deriving DecidableEq

namespace Elf64Phdr

/-- Where the segment starts, relative to the base. -/
def start (p : Elf64Phdr) : Word := truncp p.p_vaddr p.p_align

/-- Where it ends. -/
def stop (p : Elf64Phdr) : Word := ceilp (p.p_vaddr + p.p_memsz) p.p_align

/-- The loop skips the header. -/
def skipped (p : Elf64Phdr) : Bool := p.p_type ≠ PT_LOAD || p.p_memsz = 0

/-- The checks that the loop makes of a segment before it maps it. -/
def accepted (p : Elf64Phdr) (pagesize : Word) : Bool :=
  p.p_align % pagesize = 0 && !(p.p_memsz < p.p_filesz) &&
    !(p.stop ≤ p.start || p.start ≥ CODE_MAX || p.stop ≥ CODE_MAX)

end Elf64Phdr

/-- The loop of `elf_load_one` over the remaining program headers. -/
def elfLoop (elfbase : Word) (buf : Buf) :
    List Elf64Phdr → ElfLoop → ElfTarget → HostProg (Option ElfLoop × ElfTarget)
  | [], s, target => pure (some s, target)
  | p :: phdrs, s, target =>
      if p.skipped then elfLoop elfbase buf phdrs s target
      else if !p.accepted (4 * 1024) then pure (none, target)
      else do
        let first := if s.first = 0 || elfbase + p.start < s.first then elfbase + p.start
          else s.first
        let (ok, target) ← bufReadElfseg target (s.base + p.start) (p.p_vaddr - p.start)
          (s.base + p.stop) p.p_offset p.p_filesz p.p_memsz (pflags p.p_flags) buf (4 * 1024)
          p.p_align
        if !ok then return (none, target)
        let base := if s.base = 0 then s.base + p.start else s.base
        let last := if base + p.stop > s.last then base + p.stop else s.last
        elfLoop elfbase buf phdrs ⟨base, first, last⟩ target

/-- The checks that `elf_load_one` makes of the header, but for the allocation of
the table of program headers. -/
def Buf.headerOk (buf : Buf) : Bool :=
  buf.readCount EHDR_SIZE 0 = EHDR_SIZE && elfCheck buf.ehdr && buf.ehdr.e_type = 3 &&
    !(buf.ehdr.e_phnum > PHNUM_MAX)

/-- The checks after the allocation. -/
def Buf.tableOk (buf : Buf) : Bool :=
  !(buf.ehdr.e_phoff ≥ buf.size) &&
    buf.readCount (PHDR_SIZE * buf.ehdr.e_phnum) buf.ehdr.e_phoff = PHDR_SIZE * buf.ehdr.e_phnum &&
    !(buf.ehdr.e_entry ≥ CODE_MAX)

/-- What `elf_load_one` returns: `p_first`, `p_last` and `p_entry`. -/
structure ElfLoaded where
  first : Word
  last : Word
  entry : Word
  deriving DecidableEq

/-- `elf_load_one`. -/
def elfLoadOne (target : ElfTarget) (buf : Buf) (base : Word) :
    HostProg (Option ElfLoaded × ElfTarget) := do
  if !buf.headerOk then return (none, target)
  if !(← malloc) then return (none, target)
  if !buf.tableOk then return (none, target)
  let (loop, target) ← elfLoop base buf buf.phdrs ⟨base, 0, 0⟩ target
  match loop with
  | none => return (none, target)
  | some s => return (some ⟨s.first, s.last, s.base + buf.ehdr.e_entry⟩, target)

end Lps.Linux

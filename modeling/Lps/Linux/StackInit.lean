import Lps.Linux.ElfImage
import Lps.Linux.Layout
import Lps.Memory.Blocks

/-!
# The initial stack of a thread

`stack_init` copies the argument and environment strings to the top of the stack and
random bytes in front of them, and then, behind the new stack pointer, the argument count,
the pointers to the strings and the auxiliary vector.  Only the place of the strings is
aligned, so the number of pointers decides whether the stack pointer is.
-/

namespace Lps.Linux

open Lps.Core Lps.Memory

/-! ## Arguments -/

/-- A C string: the bytes in front of its NUL. -/
structure CString where
  bytes : List Byte
  nonzero : 0 ∉ bytes

namespace CString

/-- The string in memory. -/
def stored (s : CString) : List Byte := s.bytes ++ [0]

/-- `strnlen`. -/
def strnlen (s : CString) (maxlen : Nat) : Nat := min s.bytes.length maxlen

end CString

def ARGV_MAX : CInt := 1024

def ENVP_MAX : CInt := 1024

def ARGV_MAXLEN : Nat := 1024

def ENVP_MAXLEN : Nat := 1024

/-- `MIN`. -/
def cmin (a b : CInt) : CInt := if a.slt b then a else b

/-- What a program is started with: `argc`, and `argv` and `envp` up to the first NULL. -/
structure ThreadArgs where
  argc : CInt
  argv : List CString
  envp : List CString

/-- `struct ELFLoadInfo`, as far as the auxiliary vector shows it. -/
structure ELFLoadInfo where
  elfentry : Word
  elfbase : Word
  ldbase : Word
  elfphoff : Word
  elfphnum : Word
  elfphentsize : Word

/-- What `elf_load` says of an image without an interpreter. -/
def elfLoadInfo (buf : Buf) (loaded : ElfLoaded) : ELFLoadInfo where
  elfentry := loaded.entry
  elfbase := loaded.first
  ldbase := loaded.first
  elfphoff := buf.ehdr.e_phoff
  elfphnum := buf.ehdr.e_phnum
  elfphentsize := buf.field 54 2

/-- What the host adds: `getauxval` and `getrandom`. -/
structure AuxHost where
  hwcap : Word
  hwcap2 : Word
  random : Fin 16 → Byte

/-! ## The auxiliary vector -/

def LINUX_AT_NULL : Word := 0

def LINUX_AT_PHDR : Word := 3

def LINUX_AT_PHENT : Word := 4

def LINUX_AT_PHNUM : Word := 5

def LINUX_AT_PAGESZ : Word := 6

def LINUX_AT_BASE : Word := 7

def LINUX_AT_FLAGS : Word := 8

def LINUX_AT_ENTRY : Word := 9

def LINUX_AT_UID : Word := 11

def LINUX_AT_EUID : Word := 12

def LINUX_AT_GID : Word := 13

def LINUX_AT_EGID : Word := 14

def LINUX_AT_HWCAP : Word := 16

def LINUX_AT_SECURE : Word := 23

def LINUX_AT_RANDOM : Word := 25

def LINUX_AT_HWCAP2 : Word := 26

def LINUX_AT_EXECFN : Word := 31

def LINUX_AT_SYSINFO : Word := 32

def LINUX_AT_SYSINFO_EHDR : Word := 33

/-- `struct Auxv`. -/
structure Auxv where
  a_type : Word
  a_val : Word
  deriving DecidableEq

/-- The entries of `struct AuxvList` in front of `at_null`. -/
def auxvList (info : ELFLoadInfo) (host : AuxHost) (execfn randStart : Word) : List Auxv :=
  [⟨LINUX_AT_SECURE, 0⟩,
    ⟨LINUX_AT_BASE, info.ldbase⟩,
    ⟨LINUX_AT_PHDR, info.elfbase + info.elfphoff⟩,
    ⟨LINUX_AT_PHNUM, info.elfphnum⟩,
    ⟨LINUX_AT_PHENT, info.elfphentsize⟩,
    ⟨LINUX_AT_ENTRY, info.elfentry⟩,
    ⟨LINUX_AT_EXECFN, execfn⟩,
    ⟨LINUX_AT_PAGESZ, 4 * 1024⟩,
    ⟨LINUX_AT_HWCAP, host.hwcap⟩,
    ⟨LINUX_AT_HWCAP2, host.hwcap2⟩,
    ⟨LINUX_AT_RANDOM, randStart⟩,
    ⟨LINUX_AT_FLAGS, 0⟩,
    ⟨LINUX_AT_UID, 1000⟩,
    ⟨LINUX_AT_EUID, 1000⟩,
    ⟨LINUX_AT_GID, 1000⟩,
    ⟨LINUX_AT_EGID, 1000⟩,
    ⟨LINUX_AT_SYSINFO, 0⟩,
    ⟨LINUX_AT_SYSINFO_EHDR, 0⟩]

def Auxv.null : Auxv := ⟨LINUX_AT_NULL, 0⟩

/-! ## Bytes in memory -/

/-- A `uint64_t`. -/
def wordBytes (w : Word) : List Byte := littleEndian 8 w.toNat

@[simp]
theorem length_wordBytes (w : Word) : (wordBytes w).length = 8 := length_littleEndian ..

@[simp]
theorem length_flatMap_wordBytes (ws : List Word) : (ws.flatMap wordBytes).length = 8 * ws.length := by
  induction ws with
  | nil => rfl
  | cons w ws ih =>
      rw [List.flatMap_cons, List.length_append, length_wordBytes, ih, List.length_cons]
      omega

def Auxv.bytes (a : Auxv) : List Byte := wordBytes a.a_type ++ wordBytes a.a_val

@[simp]
theorem length_flatMap_auxvBytes (auxv : List Auxv) :
    (auxv.flatMap Auxv.bytes).length = 16 * auxv.length := by
  induction auxv with
  | nil => rfl
  | cons a auxv ih =>
      rw [List.flatMap_cons, List.length_append, ih, Auxv.bytes, List.length_append,
        length_wordBytes, length_wordBytes, List.length_cons]
      omega

/-- `sizeof` of what has these bytes. -/
def sizeof (bytes : List Byte) : Word := BitVec.ofNat 64 bytes.length

/-- A `memcpy` of these bytes. -/
structure Memcpy where
  to_ : Word
  data : List Byte

namespace Memcpy

/-- What it stores. -/
def block (copy : Memcpy) : Memory.Block Byte := ⟨copy.to_.toNat, copy.data⟩

/-- The bytes it writes. -/
def bytes (copy : Memcpy) : Set Nat := bytesAt copy.to_ copy.data.length

end Memcpy

/-! ## `stack_init` -/

/-- The loop that measures the strings in front of a NULL, at most `rest` of them: how many bytes
they take and how many there are.  `none` stands for a failed assertion. -/
def measure (maxlen : Nat) : Nat → List CString → Nat → Nat → Option (Nat × Nat)
  | 0, _, strsLen, n => some (strsLen, n)
  | _ + 1, [], strsLen, n => some (strsLen, n)
  | rest + 1, s :: strings, strsLen, n =>
      let len := s.strnlen maxlen
      if s.stored[len]? = some 0 then measure maxlen rest strings (strsLen + (len + 1)) (n + 1)
      else none

/-- The loop that copies strings, `count` bytes behind `strsStart` on, and `count` after it. -/
def copyStrings (strsStart : Word) : List CString → Nat → List Memcpy × Nat
  | [], count => ([], count)
  | s :: strings, count =>
      let len := s.strnlen ARGV_MAXLEN + 1
      let (copies, after) := copyStrings strsStart strings (count + len)
      (⟨strsStart + BitVec.ofNat 64 count, s.stored.take len⟩ :: copies, after)

/-- What `stack_init` returns and what it copies into the sandbox, in order. -/
structure StackStart where
  sp : Word
  copies : List Memcpy

/-- `stack_init`. -/
def stackInit (t : ThreadStack) (info : ELFLoadInfo) (host : AuxHost) (args : ThreadArgs) :
    Option StackStart := do
  let argc := cmin args.argc ARGV_MAX
  let (strsLen, nargv) ← measure ARGV_MAXLEN argc.toInt.toNat args.argv 0 0
  let (strsLen, nenvp) ← measure ENVP_MAXLEN ENVP_MAX.toInt.toNat args.envp strsLen 0
  let strsStart := truncp (t.stack + t.stackSize - BitVec.ofNat 64 strsLen) 16
  let (argvCopies, count) := copyStrings strsStart (args.argv.take nargv) 0
  let (envpCopies, _) := copyStrings strsStart (args.envp.take nenvp) count
  let boxArgv := argvCopies.map Memcpy.to_ ++ [0]
  let boxEnvp := envpCopies.map Memcpy.to_ ++ [0]
  let random := List.ofFn host.random
  let randStart := strsStart - sizeof random
  let auxv := (auxvList info host (boxArgv.headD 0) randStart ++ [Auxv.null]).flatMap Auxv.bytes
  let boxArgc := wordBytes (argc.signExtend 64)
  let boxArgv := boxArgv.flatMap wordBytes
  let boxEnvp := boxEnvp.flatMap wordBytes
  let stackStart := randStart - sizeof boxArgc - sizeof boxArgv - sizeof boxEnvp - sizeof auxv
  let argvStart := stackStart + sizeof boxArgc
  let envpStart := argvStart + sizeof boxArgv
  let auxvStart := envpStart + sizeof boxEnvp
  some ⟨stackStart, argvCopies ++ envpCopies ++
    [⟨randStart, random⟩, ⟨stackStart, boxArgc⟩, ⟨argvStart, boxArgv⟩, ⟨envpStart, boxEnvp⟩,
      ⟨auxvStart, auxv⟩]⟩

/-! ## What it does -/

namespace CString

/-- The byte behind the measured length is a NUL exactly when the string is not too long. -/
theorem stored_strnlen {s : CString} {maxlen : Nat} :
    s.stored[s.strnlen maxlen]? = some 0 ↔ s.bytes.length ≤ maxlen := by
  rw [stored, strnlen]
  constructor
  · intro nul
    by_contra long
    have inside : maxlen < s.bytes.length := Nat.not_le.mp long
    rw [Nat.min_eq_right inside.le, List.getElem?_append_left inside,
      List.getElem?_eq_getElem inside, Option.some.injEq] at nul
    apply s.nonzero
    rw [← nul]
    exact List.getElem_mem inside
  · intro short
    rw [Nat.min_eq_left short, List.getElem?_append_right le_rfl, Nat.sub_self]
    rfl

@[simp]
theorem length_stored (s : CString) : s.stored.length = s.bytes.length + 1 := by
  rw [stored, List.length_append, List.length_singleton]

end CString

/-- The bytes of strings in memory. -/
def storedBytes (strings : List CString) : List Byte := (strings.map CString.stored).flatten

/-- The loop stops at the first string that is too long. -/
theorem measure_eq (maxlen rest : Nat) (strings : List CString) (strsLen n : Nat) :
    measure maxlen rest strings strsLen n =
      if ∀ s ∈ strings.take rest, s.bytes.length ≤ maxlen then
        some (strsLen + (storedBytes (strings.take rest)).length, n + (strings.take rest).length)
      else none := by
  induction rest generalizing strings strsLen n with
  | zero => simp [measure, storedBytes]
  | succ rest ih =>
      cases strings with
      | nil => simp [measure, storedBytes]
      | cons s strings =>
          rw [measure, List.take_succ_cons]
          by_cases short : s.bytes.length ≤ maxlen
          · have len : s.strnlen maxlen = s.bytes.length := Nat.min_eq_left short
            rw [if_pos (CString.stored_strnlen.mpr short), ih, len]
            simp only [List.forall_mem_cons, short, true_and, storedBytes, List.map_cons, List.flatten_cons,
              List.length_append, CString.length_stored, List.length_cons, Nat.add_assoc,
              Nat.add_comm 1]
          · rw [if_neg (mt CString.stored_strnlen.mp short),
              if_neg fun all => short (all s List.mem_cons_self)]

/-- Copies that follow each other, `count` bytes behind `start` on. -/
def placeAll (start : Word) : List (List Byte) → Nat → List Memcpy
  | [], _ => []
  | data :: rest, count =>
      ⟨start + BitVec.ofNat 64 count, data⟩ :: placeAll start rest (count + data.length)

@[simp]
theorem length_placeAll (start : Word) (datas : List (List Byte)) (count : Nat) :
    (placeAll start datas count).length = datas.length := by
  induction datas generalizing count with
  | nil => rfl
  | cons data rest ih => rw [placeAll, List.length_cons, ih, List.length_cons]

theorem placeAll_append (start : Word) (front back : List (List Byte)) (count : Nat) :
    placeAll start (front ++ back) count =
      placeAll start front count ++ placeAll start back (count + front.flatten.length) := by
  induction front generalizing count with
  | nil => rfl
  | cons data front ih =>
      rw [List.cons_append, placeAll, ih, placeAll, List.cons_append, List.flatten_cons,
        List.length_append, Nat.add_assoc]

theorem sizeof_random (random : Fin 16 → Byte) : sizeof (List.ofFn random) = 16 := by
  rw [sizeof, List.length_ofFn]
  rfl

/-- Four sizes are subtracted one after another. -/
theorem sub_sizeof (w : Word) (a b c d : List Byte) :
    w - sizeof a - sizeof b - sizeof c - sizeof d =
      w - BitVec.ofNat 64 [a, b, c, d].flatten.length := by
  simp only [List.flatten_cons, List.flatten_nil, List.append_nil, List.length_append, sizeof,
    BitVec.sub_sub, BitVec.ofNat_add, BitVec.add_assoc]

/-- Each copy starts where the one before it ends. -/
theorem placeAll_four (w : Word) (a b c d : List Byte) :
    placeAll w [a, b, c, d] 0 =
      [⟨w, a⟩, ⟨w + sizeof a, b⟩, ⟨w + sizeof a + sizeof b, c⟩,
        ⟨w + sizeof a + sizeof b + sizeof c, d⟩] := by
  simp only [placeAll, sizeof, Nat.zero_add, BitVec.ofNat_add, BitVec.add_assoc, BitVec.add_zero]

/-- Strings that are not too long are copied one behind the other. -/
theorem copyStrings_eq {strsStart : Word} {strings : List CString} {count : Nat}
    (short : ∀ s ∈ strings, s.bytes.length ≤ ARGV_MAXLEN) :
    copyStrings strsStart strings count =
      (placeAll strsStart (strings.map CString.stored) count,
        count + (storedBytes strings).length) := by
  induction strings generalizing count with
  | nil => rfl
  | cons s strings ih =>
      obtain ⟨here, later⟩ := List.forall_mem_cons.mp short
      have len : s.strnlen ARGV_MAXLEN + 1 = s.stored.length := by
        rw [CString.strnlen, Nat.min_eq_left here, CString.length_stored]
      rw [copyStrings]
      dsimp only
      rw [len, ih later, List.take_length, List.map_cons, placeAll, storedBytes, storedBytes,
        List.map_cons, List.flatten_cons, List.length_append, Nat.add_assoc]

namespace ThreadArgs

/-- The strings of `argv` that are copied. -/
def argvCopied (args : ThreadArgs) : List CString :=
  args.argv.take (cmin args.argc ARGV_MAX).toInt.toNat

/-- The strings of `envp` that are copied. -/
def envpCopied (args : ThreadArgs) : List CString := args.envp.take ENVP_MAX.toInt.toNat

/-- The assertions of `stack_init` hold. -/
def Limited (args : ThreadArgs) : Prop :=
  (∀ s ∈ args.argvCopied, s.bytes.length ≤ ARGV_MAXLEN) ∧
    ∀ s ∈ args.envpCopied, s.bytes.length ≤ ENVP_MAXLEN

instance (args : ThreadArgs) : Decidable args.Limited := inferInstanceAs (Decidable (_ ∧ _))

/-- The copied strings. -/
def strings (args : ThreadArgs) : List (List Byte) :=
  (args.argvCopied ++ args.envpCopied).map CString.stored

/-- Where the strings start. -/
def strsStart (args : ThreadArgs) (t : ThreadStack) : Word :=
  truncp (t.stack + t.stackSize - BitVec.ofNat 64 args.strings.flatten.length) 16

/-- The pointers to the strings. -/
def argvPtrs (args : ThreadArgs) (t : ThreadStack) : List Word :=
  (placeAll (args.strsStart t) (args.argvCopied.map CString.stored) 0).map Memcpy.to_

def envpPtrs (args : ThreadArgs) (t : ThreadStack) : List Word :=
  (placeAll (args.strsStart t) (args.envpCopied.map CString.stored)
    (storedBytes args.argvCopied).length).map Memcpy.to_

/-- Where the random bytes start. -/
def randStart (args : ThreadArgs) (t : ThreadStack) : Word := args.strsStart t - 16

variable (args : ThreadArgs) (t : ThreadStack) (info : ELFLoadInfo) (host : AuxHost)

/-- The auxiliary vector. -/
def auxv : List Auxv :=
  auxvList info host ((args.argvPtrs t ++ [0]).headD 0) (args.randStart t)

/-- What lies between the stack pointer and the random bytes. -/
def tables : List (List Byte) :=
  [wordBytes ((cmin args.argc ARGV_MAX).signExtend 64),
    (args.argvPtrs t ++ [0]).flatMap wordBytes,
    (args.envpPtrs t ++ [0]).flatMap wordBytes,
    (args.auxv t info host ++ [Auxv.null]).flatMap Auxv.bytes]

/-- How many bytes these are. -/
def tablesLen : Nat := 328 + 8 * (args.argvCopied.length + args.envpCopied.length)

/-- The initial stack. -/
def start : StackStart where
  sp := args.randStart t - BitVec.ofNat 64 args.tablesLen
  copies := placeAll (args.strsStart t) args.strings 0 ++
    ⟨args.randStart t, List.ofFn host.random⟩ ::
      placeAll (args.randStart t - BitVec.ofNat 64 args.tablesLen) (args.tables t info host) 0

variable {args t info host}

@[simp]
theorem length_argvPtrs : (args.argvPtrs t).length = args.argvCopied.length := by
  rw [argvPtrs, List.length_map, length_placeAll, List.length_map]

@[simp]
theorem length_envpPtrs : (args.envpPtrs t).length = args.envpCopied.length := by
  rw [envpPtrs, List.length_map, length_placeAll, List.length_map]

/-- Cutting a list to the length of its front gives the front. -/
theorem take_length_take {α : Type*} (l : List α) (n : Nat) : l.take (l.take n).length = l.take n := by
  rw [List.length_take, ← List.take_take, List.take_length]

theorem length_strings : args.strings.flatten.length =
    (storedBytes args.argvCopied).length + (storedBytes args.envpCopied).length := by
  rw [strings, List.map_append, List.flatten_append, List.length_append]
  rfl

theorem length_tables : (args.tables t info host).flatten.length = args.tablesLen := by
  simp only [tables, auxv, auxvList, tablesLen, List.flatten_cons, List.flatten_nil,
    List.length_append, length_wordBytes, length_flatMap_wordBytes, length_flatMap_auxvBytes,
    length_argvPtrs, length_envpPtrs, List.length_cons, List.length_nil]
  omega

end ThreadArgs

/-- `stack_init` returns when no copied string is too long, and with what. -/
theorem stackInit_eq (t : ThreadStack) (info : ELFLoadInfo) (host : AuxHost) (args : ThreadArgs) :
    stackInit t info host args =
      if args.Limited then some (args.start t info host) else none := by
  rw [stackInit]
  dsimp only [Option.bind_eq_bind]
  rw [measure_eq]
  by_cases argvShort : ∀ s ∈ args.argvCopied, s.bytes.length ≤ ARGV_MAXLEN
  · rw [ThreadArgs.argvCopied] at argvShort
    rw [if_pos argvShort, Option.bind_some, measure_eq]
    by_cases envpShort : ∀ s ∈ args.envpCopied, s.bytes.length ≤ ENVP_MAXLEN
    · have limited : args.Limited := ⟨argvShort, envpShort⟩
      rw [ThreadArgs.envpCopied] at envpShort
      rw [if_pos envpShort, Option.bind_some, if_pos limited, Nat.zero_add, Nat.zero_add,
        Nat.zero_add, ThreadArgs.take_length_take, ThreadArgs.take_length_take]
      have argvCopies : ∀ start count, copyStrings start args.argvCopied count =
          (placeAll start (args.argvCopied.map CString.stored) count,
            count + (storedBytes args.argvCopied).length) :=
        fun start count => copyStrings_eq argvShort
      have envpCopies : ∀ start count, copyStrings start args.envpCopied count =
          (placeAll start (args.envpCopied.map CString.stored) count,
            count + (storedBytes args.envpCopied).length) :=
        fun start count => copyStrings_eq envpShort
      simp only [← ThreadArgs.argvCopied.eq_1, ← ThreadArgs.envpCopied.eq_1, argvCopies, envpCopies,
        Nat.zero_add, ← ThreadArgs.length_strings, ← ThreadArgs.strsStart.eq_1,
        ← ThreadArgs.argvPtrs.eq_1, ← ThreadArgs.envpPtrs.eq_1, sizeof_random, ← ThreadArgs.randStart.eq_1, sub_sizeof,
        ← ThreadArgs.auxv.eq_1]
      rw [ThreadArgs.start, ← @ThreadArgs.length_tables args t info host, ThreadArgs.tables,
        ThreadArgs.strings, List.map_append, placeAll_append, placeAll_four, Nat.zero_add,
        storedBytes]
    · rw [if_neg fun limited : args.Limited => envpShort limited.2]
      rw [ThreadArgs.envpCopied] at envpShort
      rw [if_neg envpShort, Option.bind_none]
  · rw [if_neg fun limited : args.Limited => argvShort limited.1]
    rw [ThreadArgs.argvCopied] at argvShort
    rw [if_neg argvShort, Option.bind_none]

/-! ## Alignment -/

theorem truncp_16_toNat (x : Word) : (truncp x 16).toNat = x.toNat / 16 * 16 := by
  have mask : truncp x 16 = x &&& ~~~((↑(1 <<< 4) : Word) - 1) := rfl
  rw [mask, toNat_and_not_mask x (by decide)]
  rfl

/-- The pointers and the auxiliary vector fill up to an address that is aligned exactly when the
number of strings is odd. -/
theorem ThreadArgs.start_aligned_iff (args : ThreadArgs) (t : ThreadStack) (info : ELFLoadInfo)
    (host : AuxHost) :
    (args.start t info host).sp.toNat % 16 = 0 ↔
      (args.argvCopied.length + args.envpCopied.length) % 2 = 1 := by
  have strsAligned : (args.strsStart t).toNat % 16 = 0 := by
    rw [strsStart, truncp_16_toNat, Nat.mul_mod_left]
  have sp : (args.start t info host).sp =
      args.strsStart t - 16 - BitVec.ofNat 64 args.tablesLen := rfl
  have sixteen : (16 : Word).toNat = 16 := rfl
  rw [sp, BitVec.toNat_sub, BitVec.toNat_sub, BitVec.toNat_ofNat, sixteen, tablesLen]
  omega

/-- What `sp_init` and `uepc_init` set in the registers of a thread. -/
structure StartRegs where
  sp : Word
  uepc : Word

/-- A thread that `lps_thread_new` returns, with what it copied into the sandbox. -/
structure NewThread where
  stack : ThreadStack
  regs : StartRegs
  copies : List Memcpy

/-- `lps_thread_new` after it has mapped the stack: `stack_init`, `sp_init`, `uepc_init`. -/
def LPSProc.startThread (p : LPSProc) (t : ThreadStack) (info : ELFLoadInfo) (host : AuxHost)
    (args : ThreadArgs) : Option NewThread := do
  let start ← stackInit t info host args
  some ⟨t, ⟨start.sp, p.entry⟩, start.copies⟩

theorem LPSProc.startThread_eq_some_iff {p : LPSProc} {t : ThreadStack} {info : ELFLoadInfo}
    {host : AuxHost} {args : ThreadArgs} {new : NewThread} :
    p.startThread t info host args = some new ↔
      args.Limited ∧
        new = ⟨t, ⟨(args.start t info host).sp, p.entry⟩, (args.start t info host).copies⟩ := by
  rw [startThread, stackInit_eq]
  by_cases limited : args.Limited
  · rw [if_pos limited, and_iff_right limited]
    exact Option.some_inj.trans eq_comm
  · rw [if_neg limited]
    exact iff_of_false nofun fun both => limited both.1

/-- A new thread has an aligned stack pointer exactly when the number of copied strings is odd. -/
theorem sp_aligned_iff {p : LPSProc} {t : ThreadStack} {info : ELFLoadInfo} {host : AuxHost}
    {args : ThreadArgs} {new : NewThread}
    (started : p.startThread t info host args = some new) :
    new.regs.sp.toNat % 16 = 0 ↔
      (args.argvCopied.length + args.envpCopied.length) % 2 = 1 := by
  obtain ⟨-, rfl⟩ := LPSProc.startThread_eq_some_iff.mp started
  exact ThreadArgs.start_aligned_iff args t info host

/-- One argument and no environment, the arguments of the tests. -/
def oneArg : ThreadArgs := ⟨1, [⟨[0x61], by decide⟩], []⟩

/-- No argument and no environment, as pipes are started. -/
def noArgs : ThreadArgs := ⟨0, [], []⟩

def smallStack : ThreadStack := ⟨0x10e000, 0x2000⟩

def smallInfo : ELFLoadInfo := ⟨0x100000, 0x100000, 0x100000, 64, 2, 56⟩

def smallHost : AuxHost := ⟨0, 0, fun i => BitVec.ofNat 8 i⟩

theorem startThread_small (p : LPSProc) (t : ThreadStack) {args : ThreadArgs}
    (limited : args.Limited) :
    p.startThread t smallInfo smallHost args =
      some ⟨t, ⟨(args.start t smallInfo smallHost).sp, p.entry⟩,
        (args.start t smallInfo smallHost).copies⟩ :=
  LPSProc.startThread_eq_some_iff.mpr ⟨limited, rfl⟩

/-- With one argument the stack pointer is aligned. -/
theorem sp_aligned_oneArg : oneArg.Limited ∧
    (oneArg.start smallStack smallInfo smallHost).sp.toNat % 16 = 0 := by
  have limited : oneArg.Limited := by decide
  have started := startThread_small (lpsProcNew smallBox smallOpts fun _ => none) smallStack limited
  exact ⟨limited, (sp_aligned_iff started).mpr (by decide)⟩

/-- Without arguments it is not. -/
theorem sp_misaligned_noArgs :
    ¬∀ (p : LPSProc) (t : ThreadStack) (info : ELFLoadInfo) (host : AuxHost) (args : ThreadArgs)
      (new : NewThread), t.stack.toNat % 4096 = 0 → t.stackSize.toNat % 4096 = 0 →
      p.startThread t info host args = some new → new.regs.sp.toNat % 16 = 0 := by
  intro claim
  have aligned := claim (lpsProcNew smallBox smallOpts fun _ => none) smallStack smallInfo smallHost
    noArgs _ (by decide) (by decide) (startThread_small _ _ (by decide))
  have odd := (ThreadArgs.start_aligned_iff noArgs smallStack smallInfo smallHost).mp aligned
  exact absurd odd (by decide)

end Lps.Linux

import Lps.Linux.StackFits

/-!
# Reading the initial stack

A program finds at its stack pointer a word that counts its arguments, the pointers to them
with a NULL, the pointers to its environment with a NULL, and the auxiliary vector.  What
`stack_init` wrote is read back, but the first word is `argc` and not the number of pointers.
-/

namespace Lps.Linux

open Lps.Core Lps.Memory

/-! ## The reader -/

/-- The little-endian number in the `len` bytes at an address. -/
def numberAt (mem : Nat → Byte) (addr : Nat) : Nat → Nat
  | 0 => 0
  | len + 1 => (mem addr).toNat + 256 * numberAt mem (addr + 1) len

def wordAt (mem : Nat → Byte) (addr : Nat) : Word := BitVec.ofNat 64 (numberAt mem addr 8)

/-- The words in front of a zero, if one of the first `fuel` words is zero. -/
def wordsAt (mem : Nat → Byte) : Nat → Nat → Option (List Word)
  | 0, _ => none
  | fuel + 1, addr =>
      if wordAt mem addr = 0 then some []
      else (wordsAt mem fuel (addr + 8)).map (wordAt mem addr :: ·)

/-- The bytes in front of a NUL. -/
def stringAt (mem : Nat → Byte) : Nat → Nat → Option (List Byte)
  | 0, _ => none
  | fuel + 1, addr =>
      if mem addr = 0 then some [] else (stringAt mem fuel (addr + 1)).map (mem addr :: ·)

/-- The entries of an auxiliary vector in front of `AT_NULL`. -/
def auxvAt (mem : Nat → Byte) : Nat → Nat → Option (List Auxv)
  | 0, _ => none
  | fuel + 1, addr =>
      if wordAt mem addr = LINUX_AT_NULL then some []
      else (auxvAt mem fuel (addr + 16)).map (⟨wordAt mem addr, wordAt mem (addr + 8)⟩ :: ·)

/-- What a program finds when it starts. -/
structure ProcessEntry where
  argc : Word
  argvPtrs : List Word
  argv : List (List Byte)
  envpPtrs : List Word
  envp : List (List Byte)
  auxv : List Auxv
  deriving DecidableEq

/-- Read the stack of a program that starts; no list has `fuel` entries. -/
def entryAt (mem : Nat → Byte) (fuel sp : Nat) : Option ProcessEntry := do
  let argvStart := sp + 8
  let argvPtrs ← wordsAt mem fuel argvStart
  let argv ← argvPtrs.mapM fun ptr => stringAt mem fuel ptr.toNat
  let envpStart := argvStart + 8 * (argvPtrs.length + 1)
  let envpPtrs ← wordsAt mem fuel envpStart
  let envp ← envpPtrs.mapM fun ptr => stringAt mem fuel ptr.toNat
  let auxv ← auxvAt mem fuel (envpStart + 8 * (envpPtrs.length + 1))
  some ⟨wordAt mem sp, argvPtrs, argv, envpPtrs, envp, auxv⟩

/-! ## Reading what was written -/

variable {mem : Nat → Byte} {addr fuel : Nat}

theorem numberAt_of_holds {len n : Nat} (held : Holds mem addr (littleEndian len n)) :
    numberAt mem addr len = n % 256 ^ len := by
  induction len generalizing addr n with
  | zero => rw [numberAt, pow_zero, Nat.mod_one]
  | succ len ih =>
      rw [littleEndian, holds_cons] at held
      obtain ⟨first, rest⟩ := held
      rw [numberAt, first, ih rest, BitVec.toNat_ofNat, pow_succ' 256]
      exact Nat.mod_mul.symm

theorem wordAt_of_holds {w : Word} (held : Holds mem addr (wordBytes w)) : wordAt mem addr = w := by
  have small : w.toNat < 256 ^ 8 := w.isLt
  rw [wordAt, numberAt_of_holds held, Nat.mod_eq_of_lt small, BitVec.ofNat_toNat,
    BitVec.setWidth_eq]

/-- A list of pointers with its NULL is read. -/
theorem wordsAt_of_holds {ws : List Word} (held : Holds mem addr ((ws ++ [0]).flatMap wordBytes))
    (nonzero : 0 ∉ ws) (enough : ws.length < fuel) : wordsAt mem fuel addr = some ws := by
  induction ws generalizing addr fuel with
  | nil =>
      obtain ⟨fuel, rfl⟩ := Nat.exists_eq_add_one.mpr enough
      rw [List.nil_append, List.flatMap_singleton] at held
      rw [wordsAt, wordAt_of_holds held, if_pos rfl]
  | cons w ws ih =>
      obtain ⟨fuel, rfl⟩ := Nat.exists_eq_add_one.mpr (Nat.zero_lt_of_lt enough)
      rw [List.cons_append, List.flatMap_cons, holds_append, length_wordBytes] at held
      obtain ⟨first, rest⟩ := held
      rw [List.mem_cons, not_or] at nonzero
      rw [wordsAt, wordAt_of_holds first, if_neg (Ne.symm nonzero.1),
        ih rest nonzero.2 (Nat.lt_of_succ_lt_succ enough)]
      rfl

/-- A string is read. -/
theorem stringAt_of_holds {bytes : List Byte} (held : Holds mem addr (bytes ++ [0]))
    (nonzero : 0 ∉ bytes) (enough : bytes.length < fuel) :
    stringAt mem fuel addr = some bytes := by
  induction bytes generalizing addr fuel with
  | nil =>
      obtain ⟨fuel, rfl⟩ := Nat.exists_eq_add_one.mpr enough
      rw [List.nil_append, holds_cons] at held
      rw [stringAt, if_pos held.1]
  | cons byte bytes ih =>
      obtain ⟨fuel, rfl⟩ := Nat.exists_eq_add_one.mpr (Nat.zero_lt_of_lt enough)
      rw [List.cons_append, holds_cons] at held
      obtain ⟨first, rest⟩ := held
      rw [List.mem_cons, not_or] at nonzero
      rw [stringAt, first, if_neg (Ne.symm nonzero.1),
        ih rest nonzero.2 (Nat.lt_of_succ_lt_succ enough)]
      rfl

/-- An auxiliary vector with its `AT_NULL` is read. -/
theorem auxvAt_of_holds {auxv : List Auxv}
    (held : Holds mem addr ((auxv ++ [Auxv.null]).flatMap Auxv.bytes))
    (nonnull : ∀ a ∈ auxv, a.a_type ≠ LINUX_AT_NULL) (enough : auxv.length < fuel) :
    auxvAt mem fuel addr = some auxv := by
  induction auxv generalizing addr fuel with
  | nil =>
      obtain ⟨fuel, rfl⟩ := Nat.exists_eq_add_one.mpr enough
      rw [List.nil_append, List.flatMap_singleton, Auxv.bytes, holds_append] at held
      rw [auxvAt, wordAt_of_holds held.1]
      exact if_pos rfl
  | cons a auxv ih =>
      obtain ⟨fuel, rfl⟩ := Nat.exists_eq_add_one.mpr (Nat.zero_lt_of_lt enough)
      rw [List.cons_append, List.flatMap_cons, Auxv.bytes, holds_append, holds_append,
        List.length_append, length_wordBytes, length_wordBytes] at held
      obtain ⟨⟨type, value⟩, rest⟩ := held
      obtain ⟨here, later⟩ := List.forall_mem_cons.mp nonnull
      rw [auxvAt, wordAt_of_holds type, wordAt_of_holds value, if_neg here,
        ih rest later (Nat.lt_of_succ_lt_succ enough)]
      rfl

/-- Strings that follow each other are read through the pointers to them. -/
theorem stringsAt_of_holds {start : Word} {strings : List CString} {count : Nat}
    (held : Holds mem (start.toNat + count) (storedBytes strings))
    (below : start.toNat + count + (storedBytes strings).length < 2 ^ 64)
    (enough : ∀ s ∈ strings, s.bytes.length < fuel) :
    ((placeAll start (strings.map CString.stored) count).map Memcpy.to_).mapM
      (fun ptr => stringAt mem fuel ptr.toNat) = some (strings.map CString.bytes) := by
  induction strings generalizing count with
  | nil => rfl
  | cons s strings ih =>
      rw [storedBytes, List.map_cons, List.flatten_cons, List.length_append, ← storedBytes] at below
      rw [storedBytes, List.map_cons, List.flatten_cons, holds_append, ← storedBytes,
        Nat.add_assoc] at held
      obtain ⟨first, rest⟩ := held
      obtain ⟨here, later⟩ := List.forall_mem_cons.mp enough
      have ptr : (start + BitVec.ofNat 64 count).toNat = start.toNat + count := by
        rw [BitVec.toNat_add, BitVec.toNat_ofNat]
        omega
      have others := @ih (count + s.stored.length) rest (by omega) later
      rw [List.map_cons, placeAll, List.map_cons, List.mapM_cons, ptr,
        stringAt_of_holds first s.nonzero here]
      dsimp only [Option.bind_eq_bind, Option.bind_some]
      rw [others]
      rfl

/-! ## The initial stack -/

/-- The memory after the copies that a thread starts with. -/
def StackStart.stored (start : StackStart) (mem : Nat → Byte) : Nat → Byte :=
  Block.storeAll mem (start.copies.map Memcpy.block)

namespace ThreadArgs

variable {args : ThreadArgs} {t : ThreadStack} {info : ELFLoadInfo} {host : AuxHost}

/-- What a program reads that was started with these arguments. -/
def entry (args : ThreadArgs) (t : ThreadStack) (info : ELFLoadInfo) (host : AuxHost) :
    ProcessEntry where
  argc := (cmin args.argc ARGV_MAX).signExtend 64
  argvPtrs := args.argvPtrs t
  argv := args.argvCopied.map CString.bytes
  envpPtrs := args.envpPtrs t
  envp := args.envpCopied.map CString.bytes
  auxv := args.auxv t info host

/-- The tables, the random bytes and the strings follow each other from the stack pointer on. -/
theorem Fits.holds (fits : args.Fits t) :
    Holds ((args.start t info host).stored mem) (args.start t info host).sp.toNat
      ((args.tables t info host).flatten ++ (List.ofFn host.random ++ args.strings.flatten)) := by
  have held := @Block.Contiguous.holds _ mem _ _ _ (@Fits.contiguous args t info host fits)
    (@copies_perm args t info host |>.map Memcpy.block)
  rw [areas, List.map_append, List.map_cons, List.flatMap_append, List.flatMap_cons,
    flatMap_placeAll, flatMap_placeAll] at held
  exact held

theorem placeAll_ne_zero {start : Word} {datas : List (List Byte)} {count : Nat}
    (pos : 0 < start.toNat) (below : start.toNat + count + datas.flatten.length < 2 ^ 64) :
    0 ∉ (placeAll start datas count).map Memcpy.to_ := by
  induction datas generalizing count with
  | nil => exact List.not_mem_nil
  | cons data rest ih =>
      rw [List.flatten_cons, List.length_append] at below
      rw [placeAll, List.map_cons, List.mem_cons, not_or]
      constructor
      · intro isZero
        have addr := congrArg BitVec.toNat isZero
        have zero : (0 : Word).toNat = 0 := rfl
        rw [BitVec.toNat_add, BitVec.toNat_ofNat, zero] at addr
        omega
      · exact ih (by omega)

theorem auxv_nonnull : ∀ a ∈ args.auxv t info host, a.a_type ≠ LINUX_AT_NULL := by
  rw [auxv, auxvList]
  simp only [List.forall_mem_cons, List.not_mem_nil, false_imp_iff, implies_true, and_true]
  decide

/-- A program finds the strings that were copied, the pointers to them and the auxiliary
vector. -/
theorem entryAt_start (limited : args.Limited) (fits : args.Fits t) (enough : 1024 < fuel) :
    entryAt ((args.start t info host).stored mem) fuel (args.start t info host).sp.toNat =
      some (args.entry t info host) := by
  have held := @Fits.holds mem args t info host fits
  have strs := fits.strsStart_toNat
  have rand := fits.randStart_toNat
  have sp := @Fits.sp_toNat args t info host fits
  have below := fits.below
  have argvFew := args.argvCopied_length_le
  have envpFew := args.envpCopied_length_le
  rw [holds_append, holds_append, length_tables, sp, List.length_ofFn, rand, strings,
    List.map_append, List.flatten_append, holds_append] at held
  obtain ⟨tables, -, argvHeld, envpHeld⟩ := held
  simp only [ThreadArgs.tables, List.flatten_cons, List.flatten_nil, List.append_nil, holds_append,
    length_wordBytes, length_flatMap_wordBytes, List.length_append, List.length_singleton,
    length_argvPtrs, length_envpPtrs] at tables
  obtain ⟨argc, argvTable, envpTable, auxvTable⟩ := tables
  have length := @length_strings args
  have argvSize : ((args.argvCopied.map CString.stored).flatten).length +
      (args.envpCopied.map CString.stored).flatten.length = args.strings.flatten.length := by
    rw [length_strings]
    rfl
  have argvPtrs : wordsAt ((args.start t info host).stored mem) fuel
      ((args.start t info host).sp.toNat + 8) = some (args.argvPtrs t) := by
    apply wordsAt_of_holds argvTable
    · exact placeAll_ne_zero (by omega) (by omega)
    · rw [length_argvPtrs]
      omega
  have envpPtrs : wordsAt ((args.start t info host).stored mem) fuel
      ((args.start t info host).sp.toNat + 8 + 8 * (args.argvCopied.length + 1)) =
        some (args.envpPtrs t) := by
    apply wordsAt_of_holds envpTable
    · exact placeAll_ne_zero (by omega) (by rw [storedBytes]; omega)
    · rw [length_envpPtrs]
      omega
  have argv := @stringsAt_of_holds _ fuel (args.strsStart t) args.argvCopied 0 argvHeld
    (by rw [storedBytes]; omega)
    fun s mem => Nat.lt_of_le_of_lt (limited.1 s mem) enough
  have envp := @stringsAt_of_holds _ fuel (args.strsStart t) args.envpCopied
    (storedBytes args.argvCopied).length envpHeld (by rw [storedBytes, storedBytes]; omega)
    fun s mem => Nat.lt_of_le_of_lt (limited.2 s mem) enough
  have auxv := @auxvAt_of_holds _ _ fuel (args.auxv t info host) auxvTable auxv_nonnull (by
    have entries : (args.auxv t info host).length = 18 := rfl
    omega)
  rw [entryAt]
  dsimp only [Option.bind_eq_bind]
  rw [argvPtrs, Option.bind_some, ThreadArgs.argvPtrs, argv, Option.bind_some,
    ← ThreadArgs.argvPtrs, length_argvPtrs, envpPtrs, Option.bind_some, ThreadArgs.envpPtrs, envp,
    Option.bind_some, ← ThreadArgs.envpPtrs, length_envpPtrs, auxv, Option.bind_some,
    wordAt_of_holds argc]
  rfl

/-- No two of the copies overlap. -/
theorem Fits.apart (fits : args.Fits t) :
    (args.start t info host).copies.Pairwise (Function.onFun Disjoint Memcpy.bytes) := by
  have ordered := (@Fits.contiguous args t info host fits).pairwise
  rw [List.pairwise_map] at ordered
  exact copies_perm.symm.pairwise ordered fun {_ _} disjoint => Disjoint.symm disjoint

theorem cmin_toInt (a b : CInt) : (cmin a b).toInt = min a.toInt b.toInt := by
  rw [cmin]
  split
  · rename_i less
    rw [BitVec.slt_iff_toInt_lt] at less
    omega
  · rename_i notLess
    rw [BitVec.slt_iff_toInt_lt] at notLess
    omega

theorem argvCopied_eq :
    args.argvCopied = args.argv.take (min args.argc.toInt 1024).toNat := by
  rw [argvCopied, cmin_toInt]
  rfl

/-- The count is the number of pointers when `argc` does not count a missing string. -/
theorem argc_iff : (args.entry t info host).argc.toNat = (args.entry t info host).argvPtrs.length ↔
    0 ≤ args.argc.toInt ∧ min args.argc.toInt 1024 ≤ args.argv.length := by
  have argc : (args.entry t info host).argc.toInt = min args.argc.toInt 1024 := by
    change ((cmin args.argc ARGV_MAX).signExtend 64).toInt = _
    rw [BitVec.toInt_signExtend_of_le (by decide), cmin_toInt]
    rfl
  have ptrs : (args.entry t info host).argvPtrs.length =
      min (min args.argc.toInt 1024).toNat args.argv.length := by
    change (args.argvPtrs t).length = _
    rw [length_argvPtrs, argvCopied_eq, List.length_take]
  have few := args.argvCopied_length_le
  rw [ptrs]
  rw [argvCopied_eq, List.length_take] at few
  rw [BitVec.toInt_eq_toNat_cond] at argc
  split at argc <;> omega

end ThreadArgs

/-- The value of an entry of the auxiliary vector. -/
def auxvValue (auxv : List Auxv) (type : Word) : Option Word :=
  (auxv.find? fun a => a.a_type = type).map Auxv.a_val

/-- What a program finds in memory is what it was started with. -/
structure ProcessEntry.Shows (e : ProcessEntry) (mem : Nat → Byte) (args : ThreadArgs)
    (info : ELFLoadInfo) (random : List Byte) : Prop where
  argc : e.argc.toNat = e.argvPtrs.length
  argv : e.argv = (args.argv.take (min args.argc.toInt 1024).toNat).map CString.bytes
  envp : e.envp = args.envp.map CString.bytes
  phdr : auxvValue e.auxv LINUX_AT_PHDR = some (info.elfbase + info.elfphoff)
  entry : auxvValue e.auxv LINUX_AT_ENTRY = some info.elfentry
  execfn : auxvValue e.auxv LINUX_AT_EXECFN = some (e.argvPtrs.headD 0)
  random : ∃ ptr, auxvValue e.auxv LINUX_AT_RANDOM = some ptr ∧ Holds mem ptr.toNat random

/-- The initial stack shows the program what it was started with, and its parts do not overlap. -/
def RoundTrip (mem : Nat → Byte) (fuel : Nat) (t : ThreadStack) (info : ELFLoadInfo)
    (host : AuxHost) (args : ThreadArgs) : Prop :=
  ∃ start, stackInit t info host args = some start ∧
    start.copies.Pairwise (Function.onFun Disjoint Memcpy.bytes) ∧
    ∃ e, entryAt (start.stored mem) fuel start.sp.toNat = some e ∧
      e.Shows (start.stored mem) args info (List.ofFn host.random)

variable {args : ThreadArgs} {t : ThreadStack} {info : ELFLoadInfo} {host : AuxHost}

theorem ThreadArgs.entry_shows_iff (fits : args.Fits t) :
    (args.entry t info host).Shows ((args.start t info host).stored mem) args info
        (List.ofFn host.random) ↔
      0 ≤ args.argc.toInt ∧ min args.argc.toInt 1024 ≤ args.argv.length ∧
        args.envp.length ≤ 1024 := by
  constructor
  · intro shows
    obtain ⟨pos, few⟩ := argc_iff.mp shows.argc
    refine ⟨pos, few, ?_⟩
    have lengths := congrArg List.length shows.envp
    rw [List.length_map] at lengths
    have copied := args.envpCopied_length_le
    have read : (args.entry t info host).envp.length = args.envpCopied.length := List.length_map ..
    omega
  · rintro ⟨pos, few, envpFew⟩
    have held := @Fits.holds mem args t info host fits
    rw [holds_append, holds_append, length_tables, fits.sp_toNat] at held
    refine ⟨argc_iff.mpr ⟨pos, few⟩, ?_, ?_, rfl, rfl, ?_, args.randStart t, rfl, held.2.1⟩
    · rw [← argvCopied_eq]
      rfl
    · change args.envpCopied.map CString.bytes = args.envp.map CString.bytes
      have max : ENVP_MAX.toInt.toNat = 1024 := rfl
      rw [envpCopied, max, List.take_of_length_le envpFew]
    · change some ((args.argvPtrs t ++ [0]).headD 0) = some ((args.argvPtrs t).headD 0)
      cases args.argvPtrs t <;> rfl

theorem roundTrip_iff_shows (limited : args.Limited) (fits : args.Fits t) (enough : 1024 < fuel) :
    RoundTrip mem fuel t info host args ↔
      (args.entry t info host).Shows ((args.start t info host).stored mem) args info
        (List.ofFn host.random) := by
  have found := @ThreadArgs.entryAt_start mem fuel args t info host limited fits enough
  rw [RoundTrip, stackInit_eq, if_pos limited]
  constructor
  · rintro ⟨start, same, -, e, isEntry, shows⟩
    cases same
    rw [found] at isEntry
    cases isEntry
    exact shows
  · intro shows
    exact ⟨_, rfl, fits.apart, _, found, shows⟩

theorem limited_of_short
    (short : ∀ s ∈ args.argv ++ args.envp, s.bytes.length ≤ 1024) : args.Limited := by
  constructor
  · intro s mem
    exact short s (List.mem_append_left _ (List.mem_of_mem_take mem))
  · intro s mem
    exact short s (List.mem_append_right _ (List.mem_of_mem_take mem))

/-- A program finds on its stack what it was started with exactly when `argc` is not negative
and counts no missing string, and there are at most 1024 environment strings. -/
theorem stack_round_trip_iff (short : ∀ s ∈ args.argv ++ args.envp, s.bytes.length ≤ 1024)
    (fits : args.Fits t) (enough : 1024 < fuel) :
    RoundTrip mem fuel t info host args ↔
      0 ≤ args.argc.toInt ∧ min args.argc.toInt 1024 ≤ args.argv.length ∧
        args.envp.length ≤ 1024 := by
  rw [roundTrip_iff_shows (limited_of_short short) fits enough]
  exact ThreadArgs.entry_shows_iff fits

/-- `sh -c ""`, with `A=1` and an empty string in the environment. -/
def shellArgs : ThreadArgs where
  argc := 3
  argv := [⟨[0x73, 0x68], by decide⟩, ⟨[0x2d, 0x63], by decide⟩, ⟨[], by decide⟩]
  envp := [⟨[0x41, 0x3d, 0x31], by decide⟩, ⟨[], by decide⟩]

/-- Three arguments and two environment strings are found, empty ones among them. -/
theorem stack_round_trip_shellArgs :
    RoundTrip (fun _ => 0) 2000 smallStack smallInfo smallHost shellArgs :=
  (stack_round_trip_iff (by decide) ⟨by decide, by decide⟩ (by decide)).mpr (by decide)

/-- An `argc` of two with one string and a NULL. -/
def missingArg : ThreadArgs := { oneArg with argc := 2 }

/-- The program finds a count of two, and one pointer. -/
theorem stack_round_trip_fails :
    ¬∀ (mem : Nat → Byte) (fuel : Nat) (t : ThreadStack) (info : ELFLoadInfo) (host : AuxHost)
      (args : ThreadArgs), (∀ s ∈ args.argv ++ args.envp, s.bytes.length ≤ 1024) → args.Fits t →
      1024 < fuel → RoundTrip mem fuel t info host args := by
  intro claim
  have fits : missingArg.Fits smallStack := ⟨by decide, by decide⟩
  have trip := claim (fun _ => 0) 2000 smallStack smallInfo smallHost missingArg (by decide) fits
    (by decide)
  rw [roundTrip_iff_shows (by decide) fits (by decide), ThreadArgs.entry_shows_iff fits] at trip
  exact absurd trip (by decide)

end Lps.Linux

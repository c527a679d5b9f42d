import Lps.Linux.StackInit

/-!
# The initial stack in its mapping

`stack_init` subtracts what it needs from the end of the stack and compares the result with
nothing.  All that it copies lies in the mapping exactly when the mapping has room for what
it needs, and then the copies follow each other without overlap from the stack pointer on.
-/

namespace Lps.Linux

open Lps.Core Lps.Memory Lps.Program Lps.Transition

/-! ## Copies that follow each other -/

/-- The copies of `placeAll` follow each other when they do not reach the end of memory. -/
theorem contiguous_placeAll {start : Word} {datas : List (List Byte)} {count : Nat}
    (fits : start.toNat + count + datas.flatten.length < 2 ^ 64) :
    Block.Contiguous (start.toNat + count) ((placeAll start datas count).map Memcpy.block) := by
  induction datas generalizing count with
  | nil => exact trivial
  | cons data rest ih =>
      rw [List.flatten_cons, List.length_append] at fits
      have addr : (start + BitVec.ofNat 64 count).toNat = start.toNat + count := by
        rw [BitVec.toNat_add, BitVec.toNat_ofNat]
        omega
      constructor
      · exact addr
      · have later := @ih (count + data.length) (by omega)
        rwa [← Nat.add_assoc] at later

theorem flatMap_placeAll (start : Word) (datas : List (List Byte)) (count : Nat) :
    ((placeAll start datas count).map Memcpy.block).flatMap Block.data = datas.flatten := by
  induction datas generalizing count with
  | nil => rfl
  | cons data rest ih => rw [placeAll, List.map_cons, List.flatMap_cons, ih, List.flatten_cons]; rfl

theorem truncp_16_eq (x : Word) : truncp x 16 = x - BitVec.ofNat 64 (x.toNat % 16) := by
  apply BitVec.eq_of_toNat_eq
  rw [truncp_16_toNat, BitVec.toNat_sub, BitVec.toNat_ofNat]
  omega

namespace ThreadArgs

variable {args : ThreadArgs} {t : ThreadStack} {info : ELFLoadInfo} {host : AuxHost}

/-- How many bytes in front of the end of the stack the stack pointer lies. -/
def need (args : ThreadArgs) (t : ThreadStack) : Nat :=
  args.strings.flatten.length +
    (t.stack + t.stackSize - BitVec.ofNat 64 args.strings.flatten.length).toNat % 16 + 16 +
    args.tablesLen

theorem start_sp : (args.start t info host).sp =
    t.stack + t.stackSize - BitVec.ofNat 64 (args.need t) := by
  have sp : (args.start t info host).sp =
      args.strsStart t - 16 - BitVec.ofNat 64 args.tablesLen := rfl
  rw [sp, strsStart, truncp_16_eq, need]
  simp only [BitVec.ofNat_add, BitVec.sub_sub, BitVec.add_assoc]
  rfl

/-- Strings that are not too long take 1025 bytes each at most. -/
theorem length_storedBytes_le {strings : List CString} {maxlen : Nat}
    (short : ∀ s ∈ strings, s.bytes.length ≤ maxlen) :
    (storedBytes strings).length ≤ strings.length * (maxlen + 1) := by
  induction strings with
  | nil => exact Nat.zero_le _
  | cons s strings ih =>
      obtain ⟨here, later⟩ := List.forall_mem_cons.mp short
      have rest := ih later
      rw [storedBytes] at rest
      rw [storedBytes, List.map_cons, List.flatten_cons, List.length_append,
        CString.length_stored, List.length_cons, Nat.succ_mul]
      omega

theorem argvCopied_length_le (args : ThreadArgs) : args.argvCopied.length ≤ 1024 := by
  rw [argvCopied, List.length_take]
  apply (Nat.min_le_left _ _).trans
  rw [cmin]
  split
  · rename_i less
    rw [BitVec.slt_iff_toInt_lt] at less
    have max : ARGV_MAX.toInt = 1024 := rfl
    omega
  · exact le_rfl

theorem envpCopied_length_le (args : ThreadArgs) : args.envpCopied.length ≤ 1024 := by
  rw [envpCopied, List.length_take]
  exact Nat.min_le_left _ _

/-- What is needed is little compared with the address space. -/
theorem need_lt (limited : args.Limited) (t : ThreadStack) : args.need t < 2 ^ 22 := by
  have argvBytes := length_storedBytes_le limited.1
  have envpBytes := length_storedBytes_le limited.2
  have argvLen := args.argvCopied_length_le
  have envpLen := args.envpCopied_length_le
  have argvMaxlen : ARGV_MAXLEN = 1024 := rfl
  have envpMaxlen : ENVP_MAXLEN = 1024 := rfl
  rw [argvMaxlen] at argvBytes
  rw [envpMaxlen] at envpBytes
  rw [need, tablesLen, length_strings]
  omega

/-- The copies, in the order of their addresses. -/
def areas (args : ThreadArgs) (t : ThreadStack) (info : ELFLoadInfo) (host : AuxHost) :
    List Memcpy :=
  placeAll (args.start t info host).sp (args.tables t info host) 0 ++
    ⟨args.randStart t, List.ofFn host.random⟩ :: placeAll (args.strsStart t) args.strings 0

theorem copies_perm : (args.start t info host).copies.Perm (args.areas t info host) := by
  rw [start, areas]
  exact List.perm_middle.trans (List.perm_append_comm.cons _ |>.trans List.perm_middle.symm)

/-- The mapping is a range of addresses with room for what is needed. -/
structure Fits (args : ThreadArgs) (t : ThreadStack) : Prop where
  below : t.stack.toNat + t.stackSize.toNat < 2 ^ 64
  room : args.need t ≤ t.stackSize.toNat

namespace Fits

variable (fits : args.Fits t)
include fits

theorem strsStart_toNat : (args.strsStart t).toNat + args.strings.flatten.length +
    (t.stack + t.stackSize - BitVec.ofNat 64 args.strings.flatten.length).toNat % 16 =
      t.stack.toNat + t.stackSize.toNat := by
  obtain ⟨below, room⟩ := fits
  rw [need] at room
  rw [strsStart, truncp_16_toNat]
  have stop : (t.stack + t.stackSize - BitVec.ofNat 64 args.strings.flatten.length).toNat =
      t.stack.toNat + t.stackSize.toNat - args.strings.flatten.length := by
    rw [BitVec.toNat_sub, BitVec.toNat_add, BitVec.toNat_ofNat]
    omega
  rw [stop] at room ⊢
  omega

theorem randStart_toNat : (args.randStart t).toNat + 16 = (args.strsStart t).toNat := by
  have strs := fits.strsStart_toNat
  have room := fits.room
  have sixteen : (16 : Word).toNat = 16 := rfl
  rw [need] at room
  rw [randStart, BitVec.toNat_sub, sixteen]
  omega

theorem sp_toNat :
    (args.start t info host).sp.toNat + args.tablesLen = (args.randStart t).toNat := by
  have strs := fits.strsStart_toNat
  have rand := fits.randStart_toNat
  have room := fits.room
  have sp : (args.start t info host).sp =
      args.randStart t - BitVec.ofNat 64 args.tablesLen := rfl
  rw [need] at room
  rw [sp, BitVec.toNat_sub, BitVec.toNat_ofNat]
  omega

/-- From the stack pointer on there are the tables, the random bytes and the strings. -/
theorem contiguous : Block.Contiguous (args.start t info host).sp.toNat
    ((args.areas t info host).map Memcpy.block) := by
  have strs := fits.strsStart_toNat
  have rand := fits.randStart_toNat
  have sp := @sp_toNat args t info host fits
  have below := fits.below
  rw [areas, List.map_append, List.map_cons, Block.contiguous_append, flatMap_placeAll,
    length_tables]
  constructor
  · have tables := @contiguous_placeAll (args.start t info host).sp (args.tables t info host) 0
    rw [length_tables] at tables
    exact tables (by omega)
  · have random : (List.ofFn host.random).length = 16 := List.length_ofFn
    have strings := @contiguous_placeAll (args.strsStart t) args.strings 0 (by omega)
    rw [sp]
    refine ⟨rfl, ?_⟩
    rw [Memcpy.block]
    dsimp only
    rw [random, rand]
    exact strings

end Fits

end ThreadArgs

/-! ## Containment -/

/-- The stack pointer and all that is copied lie in the mapping of the stack. -/
structure NewThread.Within (new : NewThread) : Prop where
  sp : new.regs.sp.toNat ∈ new.stack.bytes
  copies : ∀ copy ∈ new.copies, copy.bytes ⊆ new.stack.bytes

namespace ThreadArgs

variable {args : ThreadArgs} {t : ThreadStack} {info : ELFLoadInfo} {host : AuxHost}

theorem length_areas : (((args.areas t info host).map Memcpy.block).flatMap Block.data).length =
    args.tablesLen + 16 + args.strings.flatten.length := by
  rw [areas, List.map_append, List.map_cons, List.flatMap_append, List.flatMap_cons,
    flatMap_placeAll, flatMap_placeAll, List.length_append, List.length_append, length_tables,
    Nat.add_assoc]
  congr 2

/-- Every copy lies between the stack pointer and the end of the stack. -/
theorem Fits.copies_within (fits : args.Fits t) {copy : Memcpy}
    (mem : copy ∈ (args.start t info host).copies) : copy.bytes ⊆ t.bytes := by
  have strs := fits.strsStart_toNat
  have rand := fits.randStart_toNat
  have sp := @Fits.sp_toNat args t info host fits
  have room := fits.room
  rw [need] at room
  have here : copy.block ∈ (args.areas t info host).map Memcpy.block :=
    List.mem_map_of_mem (copies_perm.mem_iff.mp mem)
  have inside := (@Fits.contiguous args t info host fits).within here
  rw [length_areas] at inside
  obtain ⟨above, below⟩ := inside
  apply Set.Ico_subset_Ico
  · change t.stack.toNat ≤ copy.block.addr
    omega
  · change copy.block.addr + copy.block.data.length ≤ t.stack.toNat + t.stackSize.toNat
    omega

/-- The stack pointer lies in the mapping exactly when there is room. -/
theorem sp_mem_iff (limited : args.Limited)
    (below : t.stack.toNat + t.stackSize.toNat < 2 ^ 64) :
    (args.start t info host).sp.toNat ∈ t.bytes ↔ args.need t ≤ t.stackSize.toNat := by
  have little := args.need_lt limited t
  have some : 0 < args.need t := Nat.add_pos_right _ (Nat.add_pos_left (by decide) _)
  have sp : (args.start t info host).sp.toNat =
      (t.stack.toNat + t.stackSize.toNat + 2 ^ 64 - args.need t) % 2 ^ 64 := by
    rw [start_sp, BitVec.toNat_sub, BitVec.toNat_add, BitVec.toNat_ofNat]
    omega
  rw [sp]
  constructor
  · rintro ⟨above, stop⟩
    omega
  · intro room
    constructor <;> omega

end ThreadArgs

/-- A thread starts within its stack exactly when the stack has room for what is copied. -/
theorem NewThread.within_iff {p : LPSProc} {t : ThreadStack} {info : ELFLoadInfo}
    {host : AuxHost} {args : ThreadArgs} {new : NewThread}
    (below : t.stack.toNat + t.stackSize.toNat < 2 ^ 64)
    (started : p.startThread t info host args = some new) :
    new.Within ↔ args.need t ≤ t.stackSize.toNat := by
  obtain ⟨limited, rfl⟩ := LPSProc.startThread_eq_some_iff.mp started
  have inStack := @ThreadArgs.sp_mem_iff args t info host limited below
  constructor
  · intro within
    exact inStack.mp within.sp
  · intro room
    exact ⟨inStack.mpr room, fun copy mem => ThreadArgs.Fits.copies_within ⟨below, room⟩ mem⟩

namespace ThreadWorld

variable {p : LPSProc} {w : ThreadWorld} {box : LPSBoxInfo} {opts : LPSLinuxOpts} {buf : Buf}

/-- The stacks of a process end where the box does. -/
theorem Keeps.stack_stop (keeps : w.Keeps p) (laid : LPSProc.LaidOut box opts buf p)
    {t : ThreadStack} (mem : t ∈ w.threads) :
    t.stackSize = opts.stacksize ∧
      t.stack.toNat + t.stackSize.toNat = box.base.toNat + box.size.toNat := by
  obtain ⟨loaded, -⟩ := keeps.loaded (List.ne_nil_of_mem mem)
  have stop := loaded.stackEnd
  rw [keeps.stackBase, keeps.info, keeps.opts, laid.info] at stop
  rw [keeps.placed t mem]
  exact ⟨congrArg LPSLinuxOpts.stacksize laid.opts, stop⟩

/-- Every thread of an accepted process starts within its stack exactly when the stack size
option leaves room for its strings, its pointers and its auxiliary vector. -/
theorem threads_within_iff {host : OsMem} {trace : List MemDone}
    (fits : box.base.toNat + box.size.toNat < 2 ^ 64) (accepted : LPSProc.Accepted box opts buf p)
    (run : Run step (Always ThreadWorld WorldEvent) ⟨⟨p, host⟩, []⟩ trace w)
    {t : ThreadStack} (mem : t ∈ w.threads) {info : ELFLoadInfo} {aux : AuxHost}
    {args : ThreadArgs} {new : NewThread}
    (started : w.proc.startThread t info aux args = some new) :
    new.Within ↔ args.need t ≤ opts.stacksize.toNat := by
  have laid := accepted.laidOut fits
  obtain ⟨size, stop⟩ := (keeps_of_run laid run).stack_stop laid mem
  rw [← size]
  exact NewThread.within_iff (stop ▸ fits) started

/-- In the small process a thread with one argument starts within its stack. -/
theorem threads_within_small :
    ∃ p w trace new, LPSProc.Accepted smallBox smallOpts smallImage p ∧
      Run step (Always ThreadWorld WorldEvent) ⟨⟨p, bareHost⟩, []⟩ trace w ∧
      smallStack ∈ w.threads ∧
      w.proc.startThread smallStack smallInfo smallHost oneArg = some new ∧ new.Within := by
  have seen : small 1 (fun _ w => w.threads) = some [smallStack] := by
    decide +kernel
  obtain ⟨p, w, trace, accepted, run, threads⟩ := small_run seen
  have mem : smallStack ∈ w.threads := by
    rw [threads]
    exact List.mem_singleton_self _
  have started := startThread_small w.proc smallStack (show oneArg.Limited by decide)
  exact ⟨p, w, trace, _, accepted, run, mem, started,
    (threads_within_iff (by decide) accepted run mem started).mpr (by decide)⟩

/-! ## The default stack -/

/-- A string of the greatest length. -/
def longString : CString where
  bytes := List.replicate ARGV_MAXLEN 0x61
  nonzero := by
    rw [List.mem_replicate]
    exact fun both => absurd both.2 (by decide)

/-- As many strings as `stack_init` takes. -/
def fullArgs : ThreadArgs :=
  ⟨ARGV_MAX, List.replicate 1024 longString, List.replicate 1024 longString⟩

theorem fullArgs_copied : fullArgs.argvCopied = List.replicate 1024 longString ∧
    fullArgs.envpCopied = List.replicate 1024 longString := by
  have argc : (cmin fullArgs.argc ARGV_MAX).toInt.toNat = 1024 := by decide
  have envc : ENVP_MAX.toInt.toNat = 1024 := by decide
  rw [ThreadArgs.argvCopied, ThreadArgs.envpCopied, argc, envc, fullArgs]
  dsimp only
  have all : (List.replicate 1024 longString).take 1024 = List.replicate 1024 longString := by
    rw [List.take_replicate, Nat.min_self]
  exact ⟨all, all⟩

theorem fullArgs_limited : fullArgs.Limited := by
  rw [ThreadArgs.Limited, fullArgs_copied.1, fullArgs_copied.2]
  have short : ∀ s ∈ List.replicate 1024 longString, s.bytes.length ≤ 1024 := by
    intro s mem
    rw [(List.mem_replicate.mp mem).2]
    exact List.length_replicate.le
  exact ⟨short, short⟩

/-- They are longer than the default stack. -/
theorem fullArgs_need (t : ThreadStack) : STACKSIZE.toNat < fullArgs.need t := by
  have bytes : ∀ n, (storedBytes (List.replicate n longString)).length = n * 1025 := by
    intro n
    rw [storedBytes, List.map_replicate, List.length_flatten, List.map_replicate,
      List.sum_replicate_nat, CString.length_stored, longString, List.length_replicate]
    rfl
  have default : STACKSIZE.toNat = 2097152 := rfl
  rw [ThreadArgs.need, ThreadArgs.length_strings, fullArgs_copied.1, fullArgs_copied.2, bytes,
    default]
  omega

/-- A box of four GiB. -/
def largeBox : LPSBoxInfo := ⟨0x100000000, 0x100000000⟩

/-- The small image in a large box, loaded with the default options and given one thread. -/
def largeWorld : Option (LPSProc × ThreadWorld) := do
  let p ← LPSProc.load largeBox (lpsLinuxNew ⟨0, 0⟩) (fun _ => none) smallImage obliging
  let (w, _) ← exec step ⟨⟨p, bareHost⟩, []⟩ [.threadNew servingOs]
  return (p, w)

/-- With the default options the strings of a thread can be longer than its stack. -/
theorem threads_overflow :
    ¬∀ (box : LPSBoxInfo) (opts : LPSLinuxOpts) (buf : Buf) (p : LPSProc) (host : OsMem)
      (trace : List MemDone) (w : ThreadWorld), box.base.toNat + box.size.toNat < 2 ^ 64 →
      LPSProc.Accepted box (lpsLinuxNew opts) buf p →
      Run step (Always ThreadWorld WorldEvent) ⟨⟨p, host⟩, []⟩ trace w →
      ∀ t ∈ w.threads, ∀ info aux args new, w.proc.startThread t info aux args = some new →
        new.Within := by
  intro claim
  have seen : largeWorld.map (fun (_, w) => w.threads.head?) =
      some (some ⟨0x1ffe00000, STACKSIZE⟩) := by
    decide +kernel
  obtain ⟨_, made, head⟩ := Option.map_eq_some_iff.mp seen
  simp only [largeWorld, Option.bind_eq_bind, Option.bind_eq_some_iff] at made
  obtain ⟨p, loaded, ⟨w, trace⟩, executed, same⟩ := made
  cases same
  have mem := List.mem_of_mem_head? head
  have started := startThread_small w.proc ⟨0x1ffe00000, STACKSIZE⟩ fullArgs_limited
  have within := claim largeBox _ smallImage p bareHost trace w (by decide)
    (LPSProc.load_accepted obliging_refuses loaded) (run_of_exec executed) _ mem _ _ _ _ started
  have room := (NewThread.within_iff (by decide) started).mp within
  exact absurd room (Nat.not_le.mpr (fullArgs_need _))

end ThreadWorld

end Lps.Linux

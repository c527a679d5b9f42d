import Lps.Core.Engine
import Lps.Linux.SysConfine
import Lps.Linux.SysInfo
import Lps.Transition.Outputs

/-!
# Structures are filled in inside the box

A structure is too small to wrap around the end of the address space from a box in the lower half of it, so
the test of its first and last byte is enough.  It is not for the buffer of `sys_getrandom`, and the log prints
the name of a thread beyond the bytes that were tested.
-/

namespace Lps.Linux

open Lps.Core Lps.Memory Lps.Transition

/-! ## What the calls promise -/

/-- The `struct TimeSpec` at an address. -/
def timeAt (mem : Nat → Byte) (p : Word) : TimeSpec := ⟨wordAt mem p.toNat, wordAt mem (p.toNat + 8)⟩

/-- What a thread finds when a call has returned no error. -/
def InfoSyscall.Served (call : InfoSyscall) (box : LPSBoxInfo) (host : InfoHost) (mem mem' : Nat → Byte)
    (t t' : InfoThread) (value : Word) : Prop :=
  match call with
  | .setTidAddress ctid => t'.ctidp = ctid ∧ value = t.tid.signExtend 64
  | .gettid => value = t.tid.signExtend 64
  | .prctl op _ => op = LINUX_PR_SET_NAME
  | .nanosleep reqp remp =>
      host.nanosleep (timeAt mem reqp) = none ∧ (remp ≠ 0 → timeAt mem' remp = host.rem)
  | .clockGettime clockid tp => host.clockGettime clockid = .ok (timeAt mem' tp)
  | .getrandom bufp buflen flags => ∃ bytes, host.getrandom buflen (randomflags flags) = .ok bytes ∧
      value.toNat = min buflen.toNat bytes.length ∧ Holds mem' bufp.toNat (bytes.take buflen.toNat)
  | .uname bufp => ∀ i (lt : i < utsname.length),
      stringAt mem' UTSNAME_LENGTH (bufp.toNat + UTSNAME_LENGTH * i) = some (chars utsname[i])
  | .sysinfo infop => ∃ info, host.sysinfo = .ok info ∧ Holds mem' infop.toNat (info.bytes host.padding)
  | .getrlimit resource rlimp => rlimit box t resource = some (wordAt mem' rlimp.toNat) ∧
      rlimit box t resource = some (wordAt mem' (rlimp.toNat + 8))

/-- The structure or the buffer that a call fills in: its address and its size. -/
def InfoSyscall.filled : InfoSyscall → Nat × Nat
  | .nanosleep _ remp => (remp.toNat, 16)
  | .clockGettime _ tp => (tp.toNat, 16)
  | .getrandom bufp buflen _ => (bufp.toNat, buflen.toNat)
  | .uname bufp => (bufp.toNat, 325)
  | .sysinfo infop => (infop.toNat, 368)
  | .getrlimit _ rlimp => (rlimp.toNat, 16)
  | _ => (0, 0)

/-- A call touches the box of its thread only and changes its own structure only, stores nothing when it
returns an error, and otherwise what it is for. -/
structure InfoSyscall.Kept (call : InfoSyscall) (box : LPSBoxInfo) (host : InfoHost) (mem mem' : Nat → Byte)
    (t t' : InfoThread) (r : InfoResult) : Prop where
  inside : ∀ range ∈ r.touched, Set.Ico range.1 (range.1 + range.2) ⊆ box.bytes
  outside : ∀ a ∉ box.bytes, mem' a = mem a
  others : ∀ a ∉ Set.Ico call.filled.1 (call.filled.1 + call.filled.2), mem' a = mem a
  refused : r.value.toInt < 0 → mem' = mem
  served : 0 ≤ r.value.toInt → call.Served box host mem mem' t t' r.value

/-- The condition on a call: the buffer for random bytes does not wrap around into the box, unless its flags
are rejected, and a name that is printed ends in the box. -/
def InfoSyscall.Fits (call : InfoSyscall) (box : BoxRange) (verbose : Bool) (mem : Nat → Byte) : Prop :=
  match call with
  | .getrandom bufp buflen flags => NoWrapIntoBox box bufp buflen 1 ∨
      flags &&& (~~~LINUX_GRND_RANDOM &&& ~~~LINUX_GRND_NONBLOCK) ≠ 0
  | .prctl op namep => op = LINUX_PR_SET_NAME → verbose = true → bufhost box.toLPSBoxInfo namep 16 1 ≠ 0 →
      ∃ a ∈ box.bytes, namep.toNat ≤ a ∧ mem a = 0
  | _ => True

/-! ## Tested structures -/

section Tests

variable {box : BoxRange} {p size align : Word}

theorem bufhost_ne_zero (accepted : (bufhost box.toLPSBoxInfo p size align).toNat ≠ 0) :
    bufcheck box.toLPSBoxInfo p size align = true ∧ bufhost box.toLPSBoxInfo p size align = p := by
  rw [bufhost] at accepted ⊢
  split at accepted
  · exact absurd rfl accepted
  · rename_i checked
    rw [if_neg checked]
    exact ⟨by simpa using checked, rfl⟩

/-- An accepted structure lies in a box in the lower half of the address space. -/
theorem struct_inside (len : Nat) (bounded : box.base.toNat + box.size.toNat ≤ 2 ^ 63)
    (sizeof : size.toNat = len) (small : len ≤ 2 ^ 63)
    (accepted : (bufhost box.toLPSBoxInfo p size align).toNat ≠ 0) :
    bufhost box.toLPSBoxInfo p size align = p ∧ Set.Ico p.toNat (p.toNat + len) ⊆ box.bytes := by
  obtain ⟨checked, same⟩ := bufhost_ne_zero accepted
  refine ⟨same, ?_⟩
  rw [← sizeof] at small ⊢
  apply (bufcheck_subset_iff box p size align).mpr ?_ checked
  have first := (lpsBoxPtrvalid_iff.mp (bufcheck_iff.mp checked).1).1
  simp only [LPSBoxInfo.bytes, bytesAt, Set.mem_Ico] at first
  exact .inr (.inl (by omega))

end Tests

theorem hostErr_neg (errno : CInt) : (hostErr errno).toInt < 0 := by
  rw [hostErr]
  split
  · rename_i known
    simp only [List.mem_cons, List.not_mem_nil, or_false] at known
    rcases known with rfl | rfl | rfl | rfl | rfl | rfl | rfl | rfl | rfl | rfl | rfl <;> decide
  · decide

/-! ## Structures in memory -/

section Structures

variable {mem : Nat → Byte}

/-- Two words that were stored behind each other, in some order, are found. -/
theorem wordsAt_stores {stored : List (Memory.Block Byte)} {addr : Nat} {first second : Word}
    (perm : stored.Perm [⟨addr, wordBytes first⟩, ⟨addr + 8, wordBytes second⟩]) :
    wordAt (Block.storeAll mem stored) addr = first ∧
      wordAt (Block.storeAll mem stored) (addr + 8) = second := by
  have contiguous : Block.Contiguous addr [⟨addr, wordBytes first⟩, ⟨addr + 8, wordBytes second⟩] := by
    simp only [Block.Contiguous, length_wordBytes, and_true]
  have held := @Block.Contiguous.holds _ mem _ _ _ contiguous perm
  simp only [List.flatMap_cons, List.flatMap_nil, List.append_nil, holds_append, length_wordBytes] at held
  exact ⟨wordAt_of_holds held.1, wordAt_of_holds held.2⟩

theorem TimeSpec.within {time : TimeSpec} {addr : Nat} :
    ∀ block ∈ time.stores addr, addr ≤ block.addr ∧ block.addr + block.data.length ≤ addr + 16 := by
  intro block among
  simp only [TimeSpec.stores, List.mem_cons, List.not_mem_nil, or_false] at among
  rcases among with rfl | rfl <;> simp only [length_wordBytes] <;> omega

/-- The time that was stored is found. -/
theorem timeAt_stores {time : TimeSpec} {p : Word} :
    timeAt (Block.storeAll mem (time.stores p.toNat)) p = time := by
  obtain ⟨sec, nsec⟩ := @wordsAt_stores mem _ _ _ _ (List.Perm.refl (time.stores p.toNat))
  rw [timeAt, sec, nsec]

/-- The strings of `struct UTSName` fit into their fields. -/
theorem utsname_fits : ∀ s ∈ utsname, (chars s).length < UTSNAME_LENGTH ∧ 0 ∉ chars s := by
  decide

/-- The fields do not overlap. -/
theorem utsname_pairwise {addr : Nat} :
    (utsname.mapIdx fun i s => strcpy (addr + UTSNAME_LENGTH * i) s).Pairwise
      (Function.onFun Disjoint Block.range) := by
  rw [List.pairwise_iff_getElem]
  intro i j lt lt' before
  rw [List.length_mapIdx] at lt lt'
  have short := (utsname_fits _ (List.getElem_mem lt)).1
  apply Set.disjoint_left.mpr
  simp only [List.getElem_mapIdx, strcpy, Block.range, List.length_append, List.length_singleton,
    Set.mem_Ico, UTSNAME_LENGTH] at short ⊢
  intro a first second
  omega

theorem SysInfo.length_bytes {info : SysInfo} {padding : Nat → Byte} : (info.bytes padding).length = 368 := by
  simp only [bytes, behindLoads, List.length_append, length_wordBytes, length_littleEndian,
    length_flatMap_wordBytes, List.length_cons, List.length_nil, List.length_map, List.length_range,
    List.length_replicate]

/-- What is assigned to `*info` is the structure with its loads. -/
theorem SysInfo.holds_stores {info : SysInfo} {padding : Nat → Byte} {addr : Nat} :
    Holds (Block.storeAll mem (info.stores padding addr)) addr (info.bytes padding) := by
  let loads : List (Memory.Block Byte) := [⟨addr + 8, wordBytes (info.loads 0)⟩,
    ⟨addr + 16, wordBytes (info.loads 1)⟩, ⟨addr + 24, wordBytes (info.loads 2)⟩]
  have contiguous : Block.Contiguous (addr + 8) loads := by
    simp only [loads, Block.Contiguous, length_wordBytes, and_true, Nat.add_assoc, Nat.reduceAdd]
  -- What the assignment of the structure stores in front of the loads and behind them stays.
  have kept : ∀ {a : Nat} {values : List Byte},
      Holds (Block.store mem ⟨addr, { info with loads := fun _ => 0 }.bytes padding⟩) a values →
      a + values.length ≤ addr + 8 ∨ addr + 32 ≤ a →
      Holds (Block.storeAll mem (info.stores padding addr)) a values := by
    intro a values held apart
    refine @Block.holds_storeAll _ _ ⟨a, values⟩ loads held fun other among => ?_
    have within := contiguous.within among
    have length : (loads.flatMap Block.data).length = 24 := by
      simp only [loads, List.flatMap_cons, List.flatMap_nil, List.length_append, length_wordBytes,
        List.length_nil]
    rw [length] at within
    rw [Set.disjoint_left]
    rintro x ⟨above, below⟩ ⟨above', below'⟩
    dsimp only at above below
    omega
  have literal := @Block.holds_store _ mem ⟨addr, { info with loads := fun _ => 0 }.bytes padding⟩
  dsimp only at literal
  rw [bytes, holds_append, holds_append, length_wordBytes, length_flatMap_wordBytes] at literal
  rw [bytes, holds_append, holds_append, length_wordBytes, length_flatMap_wordBytes]
  refine ⟨kept literal.1 (.inl ?_), ?_, kept literal.2.2 (.inr ?_)⟩
  · rw [length_wordBytes]
  · change Holds (Block.storeAll (Block.store mem _) loads) (addr + 8) (loads.flatMap Block.data)
    exact contiguous.holds (.refl _)
  · simp only [List.length_cons, List.length_nil]
    omega

theorem SysInfo.within {info : SysInfo} {padding : Nat → Byte} {addr : Nat} :
    ∀ block ∈ info.stores padding addr,
      addr ≤ block.addr ∧ block.addr + block.data.length ≤ addr + 368 := by
  intro block among
  simp only [stores, List.mem_cons, List.not_mem_nil, or_false] at among
  rcases among with rfl | rfl | rfl | rfl
  · rw [length_bytes]
    exact ⟨Nat.le_refl _, Nat.le_refl _⟩
  all_goals
    rw [length_wordBytes]
    dsimp only
    omega

end Structures

/-! ## Each call -/

namespace InfoSyscall

/-- What the call promises of what it stores. -/
def Keeps (call : InfoSyscall) (box : LPSBoxInfo) (host : InfoHost) (mem : Nat → Byte) (t : InfoThread)
    (r : InfoResult) : Prop :=
  call.Kept box host mem (Block.storeAll mem r.stores) t r.thread r

variable {call : InfoSyscall} {box : BoxRange} {verbose : Bool} {host : InfoHost} {mem : Nat → Byte}
  {t : InfoThread} {r : InfoResult} {lo len : Nat}

/-- A result that stores nothing. -/
theorem Keeps.of_none (none : r.stores = [])
    (handed : ∀ range ∈ r.handed, Set.Ico range.1 (range.1 + range.2) ⊆ box.bytes)
    (served : 0 ≤ r.value.toInt → call.Served box.toLPSBoxInfo host mem mem t r.thread r.value) :
    call.Keeps box.toLPSBoxInfo host mem t r := by
  rw [Keeps, none]
  constructor
  · intro range among
    rw [InfoResult.touched, none, List.map_nil, List.append_nil] at among
    exact handed range among
  · exact fun a _ => rfl
  · exact fun a _ => rfl
  · exact fun _ => rfl
  · exact served

/-- An error. -/
theorem Keeps.of_error (negative : r.value.toInt < 0) (none : r.stores = [])
    (handed : ∀ range ∈ r.handed, Set.Ico range.1 (range.1 + range.2) ⊆ box.bytes) :
    call.Keeps box.toLPSBoxInfo host mem t r :=
  .of_none none handed fun nonneg => absurd nonneg (Int.not_le.mpr negative)

/-- An error before anything is touched. -/
theorem Keeps.of_returns {value : Word} (negative : value.toInt < 0) :
    call.Keeps box.toLPSBoxInfo host mem t (t.returns value) :=
  .of_error negative rfl fun _ among => absurd among List.not_mem_nil

/-- A result that stores in the structure of the call, inside the box. -/
theorem Keeps.of_stores (filled : call.filled = (lo, len)) (inBox : Set.Ico lo (lo + len) ⊆ box.bytes)
    (within : ∀ block ∈ r.stores, lo ≤ block.addr ∧ block.addr + block.data.length ≤ lo + len)
    (handed : ∀ range ∈ r.handed, Set.Ico range.1 (range.1 + range.2) ⊆ box.bytes)
    (nonneg : 0 ≤ r.value.toInt)
    (served : call.Served box.toLPSBoxInfo host mem (Block.storeAll mem r.stores) t r.thread r.value) :
    call.Keeps box.toLPSBoxInfo host mem t r := by
  have frame : ∀ a ∉ Set.Ico lo (lo + len), Block.storeAll mem r.stores a = mem a := by
    intro a outside
    apply Block.storeAll_of_notMem
    intro block among inside
    obtain ⟨above, below⟩ := within block among
    exact outside (Set.Ico_subset_Ico above below inside)
  constructor
  · intro range among
    rcases List.mem_append.mp among with read | stored
    · exact handed range read
    · obtain ⟨block, inStores, rfl⟩ := List.mem_map.mp stored
      obtain ⟨above, below⟩ := within block inStores
      exact (Set.Ico_subset_Ico above below).trans inBox
  · exact fun a outside => frame a fun inside => outside (inBox inside)
  · rw [filled]
    exact frame
  · exact fun negative => absurd nonneg (Int.not_le.mpr negative)
  · exact fun _ => served

theorem setTidAddress_keeps {ctid : Word} :
    (setTidAddress ctid).Keeps box.toLPSBoxInfo host mem t (sysSetTidAddress box.toLPSBoxInfo t ctid) := by
  rw [sysSetTidAddress]
  split
  · exact .of_returns (by decide)
  · apply Keeps.of_none rfl
    · exact fun _ among => absurd among List.not_mem_nil
    · exact fun _ => ⟨rfl, rfl⟩

theorem gettid_keeps : gettid.Keeps box.toLPSBoxInfo host mem t (sysGettid t) := by
  apply Keeps.of_none rfl
  · exact fun _ among => absurd among List.not_mem_nil
  · exact fun _ => rfl

/-! ### Time -/

theorem clockGettime_keeps (bounded : box.base.toNat + box.size.toNat ≤ 2 ^ 63) {clockid : CInt} {tp : Word} :
    (clockGettime clockid tp).Keeps box.toLPSBoxInfo host mem t
      (sysClockGettime box.toLPSBoxInfo host t clockid tp) := by
  rw [sysClockGettime]
  split
  · exact .of_returns (by decide)
  · rename_i accepted
    obtain ⟨same, inBox⟩ := struct_inside 16 bounded rfl (by decide) accepted
    rw [same]
    split
    · exact .of_returns (hostErr_neg _)
    · rename_i now answered
      refine .of_stores rfl inBox TimeSpec.within ?_ ?_ ?_
      · exact fun _ among => absurd among List.not_mem_nil
      · exact Int.le_refl 0
      · rw [Served, timeAt_stores]
        exact answered

theorem nanosleep_keeps (bounded : box.base.toNat + box.size.toNat ≤ 2 ^ 63) {reqp remp : Word} :
    (nanosleep reqp remp).Keeps box.toLPSBoxInfo host mem t
      (sysNanosleep box.toLPSBoxInfo host mem t reqp remp) := by
  rw [sysNanosleep]
  dsimp only
  split
  · exact .of_returns (by decide)
  · rename_i accepted
    obtain ⟨same, inBox⟩ := struct_inside 16 bounded rfl (by decide) accepted
    rw [same]
    have handed : ∀ range ∈ [(reqp.toNat, 8), (reqp.toNat + 8, 8)],
        Set.Ico range.1 (range.1 + range.2) ⊆ box.bytes := by
      intro range among
      simp only [List.mem_cons, List.not_mem_nil, or_false] at among
      apply Set.Subset.trans _ inBox
      rcases among with rfl | rfl
      · exact Set.Ico_subset_Ico (Nat.le_refl _) (by dsimp only; exact Nat.add_le_add_left (by decide) _)
      · exact Set.Ico_subset_Ico (Nat.le_add_right ..) (Nat.le_refl _)
    split
    · exact .of_error (hostErr_neg _) rfl handed
    · rename_i slept
      split
      · rename_i unwanted
        apply Keeps.of_none rfl handed
        exact fun _ => ⟨slept, fun wanted => absurd unwanted wanted⟩
      · split
        · exact .of_error (show (-LINUX_EFAULT).toInt < 0 by decide) rfl handed
        · rename_i accepted'
          obtain ⟨same', inBox'⟩ := struct_inside 16 bounded rfl (by decide) accepted'
          rw [same']
          refine .of_stores rfl inBox' TimeSpec.within handed ?_ ?_
          · exact Int.le_refl 0
          · exact ⟨slept, fun _ => timeAt_stores⟩

/-! ### The system -/

theorem uname_keeps (bounded : box.base.toNat + box.size.toNat ≤ 2 ^ 63) {bufp : Word} :
    (uname bufp).Keeps box.toLPSBoxInfo host mem t (sysUname box.toLPSBoxInfo t bufp) := by
  rw [sysUname]
  split
  · exact .of_returns (by decide)
  · rename_i accepted
    obtain ⟨same, inBox⟩ := struct_inside 325 bounded rfl (by decide) accepted
    rw [same]
    refine .of_stores rfl inBox ?_ ?_ ?_ ?_
    · intro block among
      obtain ⟨i, lt, rfl⟩ := List.mem_mapIdx.mp among
      have short := (utsname_fits _ (List.getElem_mem lt)).1
      have five : i < 5 := lt
      simp only [strcpy, List.length_append, List.length_singleton, UTSNAME_LENGTH] at short ⊢
      omega
    · exact fun _ among => absurd among List.not_mem_nil
    · exact Int.le_refl 0
    · intro i lt
      obtain ⟨short, noNul⟩ := utsname_fits _ (List.getElem_mem lt)
      have among : strcpy (bufp.toNat + UTSNAME_LENGTH * i) utsname[i] ∈
          utsname.mapIdx fun i s => strcpy (bufp.toNat + UTSNAME_LENGTH * i) s :=
        List.mem_mapIdx.mpr ⟨i, lt, rfl⟩
      exact stringAt_of_holds (@Block.holds_of_mem _ mem _ _ utsname_pairwise among) noNul short

theorem sysinfo_keeps (bounded : box.base.toNat + box.size.toNat ≤ 2 ^ 63) {infop : Word} :
    (sysinfo infop).Keeps box.toLPSBoxInfo host mem t (sysSysinfo box.toLPSBoxInfo host t infop) := by
  rw [sysSysinfo]
  split
  · exact .of_returns (by decide)
  · rename_i accepted
    obtain ⟨same, inBox⟩ := struct_inside 368 bounded rfl (by decide) accepted
    rw [same]
    split
    · exact .of_returns (hostErr_neg _)
    · rename_i info answered
      refine .of_stores rfl inBox SysInfo.within ?_ ?_ ?_
      · exact fun _ among => absurd among List.not_mem_nil
      · exact Int.le_refl 0
      · exact ⟨info, answered, SysInfo.holds_stores⟩

theorem getrlimit_keeps (bounded : box.base.toNat + box.size.toNat ≤ 2 ^ 63) {resource : CInt}
    {rlimp : Word} :
    (getrlimit resource rlimp).Keeps box.toLPSBoxInfo host mem t
      (sysGetrlimit box.toLPSBoxInfo t resource rlimp) := by
  rw [sysGetrlimit]
  split
  · exact .of_returns (by decide)
  · rename_i accepted
    obtain ⟨same, inBox⟩ := struct_inside 16 bounded rfl (by decide) accepted
    rw [same]
    split
    · exact .of_returns (by decide)
    · rename_i limit known
      refine .of_stores rfl inBox ?_ ?_ ?_ ?_
      · intro block among
        simp only [List.mem_cons, List.not_mem_nil, or_false] at among
        rcases among with rfl | rfl <;> simp only [length_wordBytes] <;> omega
      · exact fun _ among => absurd among List.not_mem_nil
      · exact Int.le_refl 0
      · obtain ⟨cur, max⟩ := @wordsAt_stores mem _ rlimp.toNat limit limit (.swap _ _ _)
        rw [Served]
        dsimp only
        rw [cur, max]
        exact ⟨known, known⟩

/-! ### Conditions -/

/-- The bytes that are asked for go to the box exactly when the buffer does not wrap around into it. -/
theorem getrandom_keeps_iff (bounded : box.base.toNat + box.size.toNat ≤ 2 ^ 63) {bufp buflen : Word}
    {flags : CInt} :
    (getrandom bufp buflen flags).Keeps box.toLPSBoxInfo host mem t
        (sysGetrandom box.toLPSBoxInfo host t bufp buflen flags) ↔
      (getrandom bufp buflen flags).Fits box verbose mem := by
  rw [Fits, sysGetrandom]
  have rejected : (bufhost box.toLPSBoxInfo bufp buflen 1).toNat = 0 → NoWrapIntoBox box bufp buflen 1 := by
    intro null
    rw [bufhost] at null
    split at null
    · rename_i unchecked
      apply (bufcheck_subset_iff box bufp buflen 1).mp
      exact fun checked => absurd checked (by simpa using unchecked)
    · have short := buflen.isLt
      exact .inr (.inl (by omega))
  split
  · rename_i null
    exact iff_of_true (.of_returns (by decide)) (.inl (rejected null))
  · rename_i accepted
    obtain ⟨checked, same⟩ := bufhost_ne_zero accepted
    rw [same] at accepted ⊢
    split
    · rename_i unknown
      exact iff_of_true (.of_returns (by decide)) (.inr unknown)
    · rename_i known
      have only : ∀ {value : Word} {stores : List (Memory.Block Byte)},
          (getrandom bufp buflen flags).Keeps box.toLPSBoxInfo host mem t
            ⟨value, t, [(bufp.toNat, buflen.toNat)], stores⟩ →
          NoWrapIntoBox box bufp buflen 1 := by
        intro value stores keeps
        apply (bufcheck_subset_iff box bufp buflen 1).mp
        intro _
        exact keeps.inside (bufp.toNat, buflen.toNat) (List.mem_append_left _ List.mem_cons_self)
      have inBox : NoWrapIntoBox box bufp buflen 1 → ∀ range ∈ [(bufp.toNat, buflen.toNat)],
          Set.Ico range.1 (range.1 + range.2) ⊆ box.bytes := by
        intro sound range among
        rw [List.mem_singleton.mp among]
        exact (bufcheck_subset_iff box bufp buflen 1).mpr sound checked
      rw [or_iff_left known]
      split
      · exact ⟨only, fun sound => .of_error (hostErr_neg _) rfl (inBox sound)⟩
      · rename_i bytes answered
        refine ⟨only, fun sound => ?_⟩
        have whole := inBox sound _ List.mem_cons_self
        have filled : (bytes.take buflen.toNat).length = min buflen.toNat bytes.length := List.length_take
        have half : buflen.toNat < 2 ^ 63 := by
          by_cases empty : buflen.toNat = 0
          · rw [empty]
            decide
          · rw [LPSBoxInfo.bytes, bytesAt, Set.Ico_subset_Ico_iff (by dsimp only; omega)] at whole
            dsimp only at whole
            omega
        have value : (BitVec.ofNat 64 (bytes.take buflen.toNat).length).toNat =
            min buflen.toNat bytes.length := by
          rw [BitVec.toNat_ofNat, filled, Nat.mod_eq_of_lt (by omega)]
        refine .of_stores rfl whole ?_ (inBox sound) ?_ ?_
        · intro block among
          rw [List.mem_singleton.mp among, filled]
          dsimp only
          omega
        · change 0 ≤ (BitVec.ofNat 64 (bytes.take buflen.toNat).length).toInt
          rw [BitVec.toInt_eq_toNat_of_lt (by omega)]
          exact Int.natCast_nonneg _
        · exact ⟨bytes, answered, value, Block.holds_store⟩

/-- A string ends where its first terminator is. -/
theorem strnlen_le_of_nul {src : Nat → Byte} {maxlen i : Nat} (nul : src i = 0) :
    strnlen src maxlen ≤ i := by
  by_contra later
  exact ne_zero_of_lt_strnlen (Nat.lt_of_not_le later) nul

theorem nul_of_strnlen_lt {src : Nat → Byte} {maxlen : Nat} (lt : strnlen src maxlen < maxlen) :
    src (strnlen src maxlen) = 0 := by
  induction maxlen generalizing src with
  | zero => exact absurd lt (Nat.not_lt_zero _)
  | succ maxlen ih =>
      rw [strnlen] at lt ⊢
      split
      · rename_i nul
        exact nul
      · rename_i more
        rw [if_neg more] at lt
        exact @ih (fun i => src (i + 1)) (Nat.lt_of_succ_lt_succ lt)

/-- The name of a thread is printed from the box exactly when it ends there. -/
theorem prctl_keeps_iff (bounded : box.base.toNat + box.size.toNat ≤ 2 ^ 63) {op : CInt} {namep : Word} :
    (prctl op namep).Keeps box.toLPSBoxInfo host mem t (sysPrctl box.toLPSBoxInfo verbose mem t op namep) ↔
      (prctl op namep).Fits box verbose mem := by
  rw [Fits, sysPrctl]
  split
  · rename_i isName
    rw [prSetName]
    split
    · rename_i null
      refine iff_of_true (.of_returns (by decide)) fun _ _ accepted => absurd ?_ accepted
      exact BitVec.eq_of_toNat_eq null
    · rename_i accepted
      obtain ⟨same, inBox⟩ := struct_inside 16 bounded rfl (by decide) accepted
      have notNull : namep ≠ 0 := by
        rintro rfl
        rw [same] at accepted
        exact accepted rfl
      have range : box.base.toNat ≤ namep.toNat ∧
          namep.toNat + 16 ≤ box.base.toNat + box.size.toNat := by
        rwa [LPSBoxInfo.bytes, bytesAt, Set.Ico_subset_Ico_iff (by omega)] at inBox
      rw [same]
      cases verbose with
      | false =>
          apply iff_of_true
          · apply Keeps.of_none rfl
            · exact fun _ among => absurd among List.not_mem_nil
            · exact fun _ => isName
          · exact fun _ printed => absurd printed (by decide)
      | true =>
          generalize measured :
            strnlen (fun i => mem (namep.toNat + i)) (2 ^ 64 - namep.toNat) = length
          have ends : length < 2 ^ 64 - namep.toNat → mem (namep.toNat + length) = 0 := by
            intro lt
            rw [← measured] at lt ⊢
            exact nul_of_strnlen_lt lt
          constructor
          · intro keeps _ _ _
            have printed : Set.Ico namep.toNat (namep.toNat + (length + 1)) ⊆ box.bytes :=
              keeps.inside (namep.toNat, length + 1) List.mem_cons_self
            rw [LPSBoxInfo.bytes, bytesAt, Set.Ico_subset_Ico_iff (by omega)] at printed
            refine ⟨namep.toNat + length, ?_, Nat.le_add_right .., ends (by omega)⟩
            rw [LPSBoxInfo.bytes, bytesAt, Set.mem_Ico]
            omega
          · intro fits
            obtain ⟨a, inside, above, nul⟩ := fits isName rfl notNull
            rw [LPSBoxInfo.bytes, bytesAt, Set.mem_Ico] at inside
            have short : length ≤ a - namep.toNat := by
              rw [← measured]
              apply strnlen_le_of_nul
              rw [Nat.add_sub_cancel' above]
              exact nul
            apply Keeps.of_none rfl
            · intro printed among
              rw [List.mem_singleton.mp among, LPSBoxInfo.bytes, bytesAt]
              apply Set.Ico_subset_Ico range.1
              dsimp only
              omega
            · exact fun _ => isName
  · rename_i other
    exact iff_of_true (.of_returns (by decide)) fun isName => absurd isName other

/-- Each call keeps its promise exactly when it fits. -/
theorem perform_keeps_iff (bounded : box.base.toNat + box.size.toNat ≤ 2 ^ 63) :
    call.Keeps box.toLPSBoxInfo host mem t (call.perform box.toLPSBoxInfo verbose host mem t) ↔
      call.Fits box verbose mem := by
  cases call with
  | setTidAddress ctid => exact iff_of_true setTidAddress_keeps trivial
  | gettid => exact iff_of_true gettid_keeps trivial
  | prctl op arg2 => exact prctl_keeps_iff bounded
  | nanosleep reqp remp => exact iff_of_true (nanosleep_keeps bounded) trivial
  | clockGettime clockid tp => exact iff_of_true (clockGettime_keeps bounded) trivial
  | getrandom bufp buflen flags => exact getrandom_keeps_iff bounded
  | uname bufp => exact iff_of_true (uname_keeps bounded) trivial
  | sysinfo infop => exact iff_of_true (sysinfo_keeps bounded) trivial
  | getrlimit resource rlimp => exact iff_of_true (getrlimit_keeps bounded) trivial

end InfoSyscall

/-! ## All runs -/

/-- The thread of an event. -/
def InfoEvent.by : InfoEvent → Tid
  | .syscall t _ _ => t
  | .user t _ => t

/-- What a step does: calls keep their promise and leave other threads alone, and so does a thread in user
mode, which changes its box only. -/
def InfoEvent.Kept (box : Tid → BoxRange) (w w' : InfoWorld) (results : List InfoResult) (event : InfoEvent) :
    Prop :=
  (∀ other, other ≠ event.by → w'.thread other = w.thread other) ∧
    match event with
    | .syscall t call host => ∀ r ∈ results,
        call.Kept (box t).toLPSBoxInfo host w.mem w'.mem (w.thread t) (w'.thread t) r
    | .user t _ => ∀ a ∉ (box t).bytes, w'.mem a = w.mem a

/-- The condition on a step. -/
def InfoEvent.Fits (box : Tid → BoxRange) (verbose : Bool) (w : InfoWorld) : InfoEvent → Prop
  | .syscall t call _ => call.Fits (box t) verbose w.mem
  | .user _ _ => True

namespace InfoWorld

variable {box : Tid → BoxRange} {verbose : Bool} {w w' : InfoWorld} {event : InfoEvent}
  {events : List InfoEvent} {results trace : List InfoResult}

/-- One step does what it should exactly when it fits. -/
theorem step_kept_iff (bounded : ∀ t, (box t).base.toNat + (box t).size.toNat ≤ 2 ^ 63)
    (stepped : step box verbose w event = some (w', results)) :
    event.Kept box w w' results ↔ event.Fits box verbose w := by
  cases event with
  | syscall t call host =>
      cases stepped
      have one := @InfoSyscall.perform_keeps_iff call (box t) verbose host w.mem (w.thread t) (bounded t)
      rw [InfoEvent.Kept, InfoEvent.Fits, ← one, InfoSyscall.Keeps]
      dsimp only [InfoEvent.by]
      rw [List.forall_mem_singleton, Function.update_self]
      exact and_iff_right fun other ne => Function.update_of_ne ne ..
  | user t bytes =>
      cases stepped
      apply iff_of_true
      · refine ⟨fun _ _ => rfl, fun a outside => if_neg ?_⟩
        exact fun inside => outside inside
      · trivial

/-- A step that does what it should leaves what lies outside the box of its thread alone. -/
theorem mem_of_kept (stepped : step box verbose w event = some (w', results))
    (kept : event.Kept box w w' results) {a : Nat} (outside : a ∉ (box event.by).bytes) :
    w'.mem a = w.mem a := by
  cases event with
  | syscall t call host =>
      cases stepped
      exact (kept.2 _ List.mem_cons_self).outside a outside
  | user t bytes => exact kept.2 a outside

/-- So does a run of such steps. -/
theorem mem_of_throughout
    (all : Throughout (step box verbose) (fun w event w' results => event.Kept box w w' results) w events)
    (executed : exec (step box verbose) w events = some (w', trace)) {a : Nat}
    (outside : ∀ event ∈ events, a ∉ (box event.by).bytes) : w'.mem a = w.mem a := by
  induction events generalizing w trace with
  | nil =>
      cases executed
      rfl
  | cons event events ih =>
      simp only [exec, Option.bind_eq_bind, Option.bind_eq_some_iff] at executed
      obtain ⟨⟨next, results⟩, stepped, ⟨last, rest⟩, executedRest, pair⟩ := executed
      cases pair
      obtain ⟨here, later⟩ := all next results stepped
      obtain ⟨first, others⟩ := List.forall_mem_cons.mp outside
      exact (ih later executedRest others).trans (mem_of_kept stepped here first)

end InfoWorld

/-- For every history of these calls in the boxes of an engine: each call touches the box of its thread only,
stores nothing when it fails and otherwise what it is for, exactly when the buffers for random bytes do not
wrap around into the box and the names that are printed end in the box.  The boxes of sandboxes that do not
take part stay as they are then. -/
theorem info_calls_kept_iff {host : HostMem} {reserved : host.State → Set Nat} {userTop : Nat}
    {boxsize nsandboxes : Word} {beyond : BitVector} {s₀ s₁ : host.State} {engine : LPSEngine}
    {made : List Empty} {s : Sandboxes} {id : Tid → BoxId} {box : Tid → BoxRange}
    (lawful : host.Lawful reserved userTop) (pos : 0 < boxsize.toNat)
    (created : lpsNew host boxsize nsandboxes beyond s₀ = some (engine, s₁))
    (boxes : Run Sandboxes.step (Always _ _) (Sandboxes.start engine) made s)
    (live : ∀ t, s.boxes (id t) = some (box t).toLPSBoxInfo) (verbose : Bool) (w : InfoWorld)
    (events : List InfoEvent) :
    (Throughout (InfoWorld.step box verbose) (fun w event w' results => event.Kept box w w' results) w events ↔
      Throughout (InfoWorld.step box verbose) (fun w event _ _ => event.Fits box verbose w) w events) ∧
    (Throughout (InfoWorld.step box verbose) (fun w event _ _ => event.Fits box verbose w) w events →
      ∀ w' trace, exec (InfoWorld.step box verbose) w events = some (w', trace) →
      ∀ other info, s.boxes other = some info → (∀ event ∈ events, id event.by ≠ other) →
      ∀ a ∈ info.bytes, w'.mem a = w.mem a) := by
  have isolated : s.Isolated (reserved s₁) boxsize :=
    boxes.stateInvariant (fun s => s.Isolated (reserved s₁) boxsize)
      (lpsNew_isolated lawful pos created) fun isolated _ stepped => isolated.step stepped
  have bounded : ∀ t, (box t).base.toNat + (box t).size.toNat ≤ 2 ^ 63 :=
    fun t => (isolated.of_live (live t)).2.1
  have same : Throughout (InfoWorld.step box verbose) (fun w event w' results => event.Kept box w w' results)
      w events ↔
        Throughout (InfoWorld.step box verbose) (fun w event _ _ => event.Fits box verbose w) w events := by
    apply Throughout.iff (fun _ => True) _ trivial events
    intro w event w' results _ stepped
    exact ⟨InfoWorld.step_kept_iff bounded stepped, fun _ => trivial⟩
  refine ⟨same, fun fits w' trace executed other info there absent a inside => ?_⟩
  apply InfoWorld.mem_of_throughout (same.mpr fits) executed
  intro event among
  exact Set.disjoint_left.mp (isolated.disjoint there (live event.by) (absent event among).symm) inside

/-- A host with a clock that stands still, and random bytes. -/
def stillHost : InfoHost where
  sysinfo := .error 22
  clockGettime _ := .ok ⟨5, 7⟩
  nanosleep _ := none
  rem := ⟨0, 0⟩
  getrandom _ _ := .ok [1, 2, 3]
  padding _ := 0

/-- Two threads in two boxes: one asks for the time, the other one for random bytes. -/
def clockAndRandom : List InfoEvent :=
  [.syscall 0 (.clockGettime 0 0x10008) stillHost, .syscall 1 (.getrandom 0x20000 4 0) stillHost]

/-- The boxes of an engine for two, the second one for all threads but one. -/
def boxOf (t : Tid) : BoxRange :=
  if t = 0 then ⟨⟨0x10000, 0x10000⟩, by decide⟩ else ⟨⟨0x20000, 0x10000⟩, by decide⟩

/-- Both calls fit: the time and the random bytes are found, and the byte behind them is as it was. -/
theorem info_calls_kept_iff_two_threads :
    ∃ w' trace,
      exec (InfoWorld.step boxOf true) ⟨fun _ => ⟨1, 0, 0⟩, fun _ => 9⟩ clockAndRandom = some (w', trace) ∧
      (w'.mem 0x10008, w'.mem 0x10010, w'.mem 0x20002, w'.mem 0x20003) = (5, 7, 3, 9) ∧
      Throughout (InfoWorld.step boxOf true) (fun w event w' results => event.Kept boxOf w w' results)
        ⟨fun _ => ⟨1, 0, 0⟩, fun _ => 9⟩ clockAndRandom := by
  have boxes : ((lpsNew pageHost 0x10000 2 (fun _ => 0) (16 : Nat)).bind fun created =>
      (exec Sandboxes.step (Sandboxes.start created.1) [.boxNew true, .boxNew true]).map
        fun result => (result.1.boxes 0, result.1.boxes 1)) =
      some (some ⟨0x10000, 0x10000⟩, some ⟨0x20000, 0x10000⟩) := by
    decide +kernel
  obtain ⟨⟨engine, s₁⟩, created, boxes⟩ := Option.bind_eq_some_iff.mp boxes
  obtain ⟨⟨s, made⟩, executed, boxes⟩ := Option.map_eq_some_iff.mp boxes
  simp only [Prod.mk.injEq] at boxes
  have live : ∀ t : Tid, s.boxes (if t = 0 then 0 else 1) = some (boxOf t).toLPSBoxInfo := by
    intro t
    by_cases first : t = 0
    · rw [boxOf, if_pos first, if_pos first]
      exact boxes.1
    · rw [boxOf, if_neg first, if_neg first]
      exact boxes.2
  have seen : ((exec (InfoWorld.step boxOf true) ⟨fun _ => ⟨1, 0, 0⟩, fun _ => 9⟩ clockAndRandom).map
      fun result => (result.1.mem 0x10008, result.1.mem 0x10010, result.1.mem 0x20002,
        result.1.mem 0x20003)) = some (5, 7, 3, 9) := by
    decide +kernel
  obtain ⟨⟨w', trace⟩, performed, seen⟩ := Option.map_eq_some_iff.mp seen
  refine ⟨w', trace, performed, seen, ?_⟩
  apply (info_calls_kept_iff pageHost_lawful (by decide) created (run_of_exec executed) live true _ _).1.mpr
  intro _ _ _
  refine ⟨trivial, ?_⟩
  intro _ _ _
  exact ⟨.inl (by decide), trivial⟩

end Lps.Linux

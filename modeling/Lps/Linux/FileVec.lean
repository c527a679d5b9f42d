import Lps.Linux.FileOps
import Lps.Linux.PipeStream
import Lps.Memory.Pieces
import Lps.Program.Play

/-!
# Scatter and gather

`sys_readv` and `sys_writev` copy the array of buffers out of the sandbox and call `sys_read`
and `sys_write` for each entry.  They add up what these return, go on after an entry of which
only a part was transferred, and forget the sum when an entry fails.
-/

namespace Lps.Linux

open Lps.Core Lps.Memory Lps.Program Lps.Ring

/-- `struct IOVec`. -/
structure IOVec where
  base : Word
  len : Word

/-- What the two calls do to their surroundings; a file is asked on behalf of an entry. -/
inductive VecCall
  | malloc (size : Word)
  | memcpy (addr size : Word)
  | free
  | file (entry : Nat) (c : FileCall)

/-- The answers; a `memcpy` is answered by the entries it has copied, and by whatever lies behind
them, as their size in bytes may wrap around. -/
abbrev VecReply : VecCall → Type
  | .malloc _ => Bool
  | .memcpy .. => Nat → IOVec
  | .free => Unit
  | .file _ c => FileReply c

/-- How a call goes down: by the assertion of `copyout`, or as a call on one buffer does. -/
inductive VecFault
  | copyout
  | file (reason : FileFault)
  deriving DecidableEq

abbrev VecProg := Prog VecCall VecReply VecFault

def LINUX_ENOMEM : Word := 12

/-- The files, on behalf of an entry. -/
def entryPart (entry : Nat) : Part FileCall FileReply FileFault VecCall VecReply VecFault where
  call := .file entry
  reply _ reply := reply
  fault := .file

/-- `copyout` of an array of entries; `none` for the null pointer. -/
def copyoutVec (box : LPSBoxInfo) (p size : Word) : VecProg (Option (Nat → IOVec)) := do
  Prog.check (bufcheck box p size 1) VecFault.copyout
  if !(← Prog.ask (VecCall.malloc size)) then return none
  let iov ← Prog.ask (VecCall.memcpy p size)
  return some iov

/-- The loop over the entries, with `n` entries to go. -/
def vecLoop (one : Nat → IOVec → FileProg Word) (iov : Nat → IOVec) :
    Nat → Nat → Word → VecProg Word
  | 0, _, total => return total
  | n + 1, i, total => do
      let r ← (one i (iov i)).lift (entryPart i)
      if r.slt 0 then return r
      vecLoop one iov n (i + 1) (total + r)

/-- What `sys_readv` and `sys_writev` have in common; a `struct IOVec` has sixteen bytes and is
aligned to eight. -/
def sysVec (one : Nat → IOVec → FileProg Word) (box : LPSBoxInfo) (iovp iovcnt : Word) :
    VecProg Word := do
  if bufcheck box iovp (iovcnt * 16) 8 = false then return -LINUX_EINVAL
  let iov ← copyoutVec box iovp (iovcnt * 16)
  match iov with
  | none => return -LINUX_ENOMEM
  | some iov =>
      let total ← vecLoop one iov iovcnt.toNat 0 0
      Prog.ask VecCall.free
      return total

section Calls

/- The descriptor that `fdfget` finds for each entry. -/
variable (d : Nat → Descriptor) (box : LPSBoxInfo)

/-- `sys_readv`. -/
def sysReadv (iovp iovcnt : Word) : VecProg Word :=
  sysVec (fun i e => (d i).sysRead box e.base e.len) box iovp iovcnt

/-- `sys_writev`. -/
def sysWritev (iovp iovcnt : Word) : VecProg Word :=
  sysVec (fun i e => (d i).sysWrite box e.base e.len) box iovp iovcnt

end Calls

/-! ## Transfers -/

/-- What one `read` or `write` of a file does: the bytes it moves, from the start of the buffer,
and what it returns. -/
structure Transfer where
  moved : Nat
  ret : Word

/-- A file moves at most what it is asked to, and returns how much, or an error. -/
structure Transfer.Allowed (t : Transfer) (size : Word) : Prop where
  moved : t.moved ≤ size.toNat
  ret : t.ret.slt 0 = false → t.ret.toNat = t.moved

section Pipes

variable {s s' : RRSched} {t : Tid} {p : PipeId} {buf n written value : Word} {obs : List PipeObs}
  {src : Nat → Byte}

/-- The copy loop of `pipe_read` delivers what is left to read, and does not return. -/
theorem pipeReadCopy_delivers {pipe pipe' : Pipe} {toRead copied : Word}
    (result : pipeReadCopy t p buf toRead pipe copied = some (pipe', obs)) :
    (deliveredFrom p obs).length = toRead.toNat - copied.toNat ∧ .returned t value ∉ obs := by
  fun_induction pipeReadCopy t p buf toRead pipe copied generalizing pipe' obs with
  | case1 pipe copied more ih =>
      obtain ⟨bytes, rest, out, looped, rfl⟩ := pipeReadCopy_cons more (by
        rw [pipeReadCopy, dif_pos more]; exact result)
      obtain ⟨data, -, -, rfl⟩ := Pipe.copyOut_eq_some out
      obtain ⟨delivered, silent⟩ := ih looped
      have chunk_le := readChunk_le pipe (toRead - copied)
      constructor
      · rw [deliveredFrom_access, deliveredFrom_delivered, if_pos rfl, List.length_append, delivered,
          length_load]
        bv_omega
      · simpa using silent
  | case2 pipe copied done =>
      simp only [Option.some.injEq, Prod.mk.injEq] at result
      rw [← result.2]
      constructor
      · rw [BitVec.lt_def] at done
        simp only [deliveredFrom_nil, List.length_nil]
        omega
      · exact List.not_mem_nil

/-- A `pipe_read` that returns is a transfer of a file. -/
theorem pipeRead_allowed (result : pipeRead s t p buf n = some (s', obs))
    (returned : .returned t value ∈ obs) :
    Transfer.Allowed ⟨(deliveredFrom p obs).length, value⟩ n := by
  rcases pipeRead_cases result with ⟨-, -, rfl, -⟩ | ⟨-, pipe, copies, copied, rfl, -⟩
  · exact absurd returned List.not_mem_nil
  · obtain ⟨delivered, silent⟩ := @pipeReadCopy_delivers t p buf value copies _ _ _ _ copied
    have size := readSize_le_size n (s.pipes p).avail
    have same : value = readSize n (s.pipes p).avail := by
      rcases List.mem_append.mp returned with copying | last
      · exact absurd copying silent
      · cases List.mem_singleton.mp last
        rfl
    rw [BitVec.le_def] at size
    constructor
    · simpa [delivered] using size
    · simp [delivered, same]

/-- A stretch of `pipe_write` that returns reports all that was written, or an error. -/
theorem pipeWrite_allowed (le : written ≤ n) (result : pipeWrite s t p buf n src written = some (s', obs))
    (returned : .returned t value ∈ obs) :
    Transfer.Allowed ⟨written.toNat + (copiedInto p obs).length, value⟩ n := by
  have reports : written ≤ n → written.toNat + (copiedInto p obs).length ≤ n.toNat ∧
      ∀ value, .returned t value ∈ obs →
        value = -1 ∨ value.toNat = written.toNat + (copiedInto p obs).length := by
    refine pipeWrite_induct (motive := fun _ written _ obs => written ≤ n →
      written.toNat + (copiedInto p obs).length ≤ n.toNat ∧ ∀ value, .returned t value ∈ obs →
        value = -1 ∨ value.toNat = written.toNat + (copiedInto p obs).length) ?_ ?_ ?_ ?_ result
    · intro s written _ le
      rw [BitVec.le_def] at le
      refine ⟨by simpa using le, fun value mem => .inl ?_⟩
      cases List.mem_singleton.mp mem
      rfl
    · intro s written _ _ _ le
      rw [BitVec.le_def] at le
      exact ⟨by simpa using le, fun value mem => absurd mem List.not_mem_nil⟩
    · rintro s written s' pipe _ rest more _ _ rfl - ih le
      have chunk_le := writeChunk_le (s.pipes p) (n - written)
      obtain ⟨fits, values⟩ := ih (by bv_omega)
      have next : (written + writeChunk (s.pipes p) (n - written)).toNat =
          written.toNat + (writeChunk (s.pipes p) (n - written)).toNat := by
        bv_omega
      rw [next] at fits values
      rw [copiedInto_access, copiedInto_copied, if_pos rfl, List.length_append, length_load,
        ← Nat.add_assoc]
      refine ⟨fits, fun value mem => values value ?_⟩
      simpa using mem
    · intro s written le
      rw [BitVec.le_def] at le
      refine ⟨by simpa using le, fun value mem => .inr ?_⟩
      cases List.mem_singleton.mp mem
      simp
  obtain ⟨fits, values⟩ := reports le
  refine ⟨fits, fun positive => ?_⟩
  rcases values value returned with rfl | same
  · have negative : (-1 : Word).slt 0 = true := by decide
    exact absurd (negative.symm.trans positive) (by decide)
  · exact same

end Pipes

/-- The surroundings of one call: whether there is memory, the entries in the sandbox, and what
the file does for each of them. -/
structure VecHost where
  memory : Bool
  iov : Nat → IOVec
  transfer : Nat → Transfer

/-- The places of the buffers that were filled or written so far, in the order of the stream. -/
abbrev VecLog := List (Nat × Nat)

/-- What no transfer asks for. -/
def FileReply.nothing : (c : FileCall) → FileReply c
  | .function .. => 0
  | .fstat .. => 0
  | .fstatat .. => 0
  | .errno => 0
  | .memory .malloc => false
  | .memory (.mmap ..) => 0
  | .memory (.mprotect ..) => 0
  | .memory (.memcpy ..) => ()
  | .memory (.memset ..) => ()

/-- The surroundings answer, and the bytes that move are logged. -/
def VecHost.answer (env : VecHost) : Handler VecCall VecReply VecLog
  | .malloc _, log => (env.memory, log)
  | .memcpy .., log => (env.iov, log)
  | .free, log => ((), log)
  | .file i (.function ..), log => ((env.transfer i).ret,
      log ++ (List.range (env.transfer i).moved).map fun offset => (i, offset))
  | .file _ c, log => (FileReply.nothing c, log)

/-- What is returned says what was transferred: the first bytes of the buffers, as many as it
says, or none when it is an error. -/
def TellsTransfer (iov : Nat → IOVec) (count : Nat) (value : Word) (log : VecLog) : Prop :=
  if value.slt 0 then log = []
  else log.length = value.toNat ∧
    log = (places (fun i => (iov i).len.toNat) 0 count).take value.toNat

/-! ## One entry -/

/-- What an entry comes to: nothing for an empty buffer, an error that moves nothing for a bad
descriptor or buffer, and else what the file does. -/
def Descriptor.entry (d : Descriptor) (box : LPSBoxInfo) (slot : FDSlots → Field (Option FDFunction))
    (e : IOVec) (t : Transfer) : Except FileFault Transfer :=
  if e.len = 0 then .ok ⟨0, 0⟩
  else match d with
    | .closed => .ok ⟨0, -LINUX_EBADF⟩
    | .freed => .error .freedFile
    | .file dev =>
        match slot dev.slots with
        | .junk => .error .junk
        | .set none => .ok ⟨0, -LINUX_EPERM⟩
        | .set (some _) =>
            if bufhost box e.base e.len 1 = 0 then .ok ⟨0, -LINUX_EINVAL⟩ else .ok t

/-- The places of an entry that a transfer moves. -/
def Transfer.block (i : Nat) (t : Transfer) : VecLog :=
  (List.range t.moved).map fun offset => (i, offset)

section Entry

variable {d : Descriptor} {box : LPSBoxInfo} {slot : FDSlots → Field (Option FDFunction)} {e : IOVec}
  {t : Transfer} {env : VecHost} {i : Nat} {log : VecLog}

/-- An entry does what it comes to. -/
theorem Descriptor.entry_play :
    ((d.transfer box slot e.base e.len).lift (entryPart i)).play env.answer log =
      match d.entry box slot e (env.transfer i) with
      | .ok t => (.ok t.ret, log ++ t.block i)
      | .error reason => (.error (.file reason), log) := by
  have nothing : ∀ value, (.ok value, log) =
      ((.ok value, log ++ Transfer.block i ⟨0, value⟩) : Except VecFault Word × VecLog) := by
    intro value
    rw [Transfer.block, List.range_zero, List.map_nil, List.append_nil]
  unfold Descriptor.transfer Descriptor.entry
  split
  · exact nothing 0
  cases d with
  | closed => exact nothing _
  | freed => rfl
  | file dev =>
      rw [Descriptor.test]
      dsimp only
      cases found : slot dev.slots with
      | junk => rfl
      | set function =>
          cases function with
          | none => exact nothing _
          | some function =>
              dsimp only
              split
              · exact nothing _
              · rw [callFunction, found]
                rfl

/-- An entry comes to what the file is allowed to do. -/
theorem Descriptor.entry_allowed {result : Transfer} (allowed : t.Allowed e.len)
    (came : d.entry box slot e t = .ok result) : result.Allowed e.len := by
  have nothing : ∀ value : Word, value = 0 ∨ value.slt 0 = true → (⟨0, value⟩ : Transfer).Allowed e.len := by
    rintro value (rfl | negative)
    · exact ⟨Nat.zero_le _, fun _ => rfl⟩
    · exact ⟨Nat.zero_le _, fun positive => absurd (negative.symm.trans positive) (by decide)⟩
  unfold Descriptor.entry at came
  split at came
  · cases came
    exact nothing 0 (.inl rfl)
  cases d with
  | closed =>
      cases came
      exact nothing _ (.inr (by decide))
  | freed => cases came
  | file dev =>
      dsimp only at came
      cases found : slot dev.slots with
      | junk =>
          rw [found] at came
          cases came
      | set function =>
          rw [found] at came
          cases function with
          | none =>
              cases came
              exact nothing _ (.inr (by decide))
          | some function =>
              dsimp only at came
              split at came
              · cases came
                exact nothing _ (.inr (by decide))
              · cases came
                exact allowed

end Entry

/-! ## The loop -/

theorem slt_zero_iff (x : Word) : x.slt 0 = true ↔ 2 ^ 63 ≤ x.toNat := by
  rw [BitVec.slt_iff_toInt_lt, BitVec.toInt_eq_toNat_cond]
  have bound := x.isLt
  change (if 2 * x.toNat < 2 ^ 64 then (x.toNat : Int) else x.toNat - (2 ^ 64 : Nat)) < 0 ↔ _
  split
  · omega
  · omega

/-- The entry does not fail. -/
def Works (result : Except FileFault Transfer) : Prop :=
  ∃ t, result = .ok t ∧ t.ret.slt 0 = false

/-- The entry returns an error. -/
def Fails (result : Except FileFault Transfer) : Prop :=
  ∃ t, result = .ok t ∧ t.ret.slt 0 = true

/-- How many bytes move. -/
def movedBy (result : Except FileFault Transfer) : Nat :=
  match result with
  | .ok t => t.moved
  | .error _ => 0

/-- What the entries come to is what the claimed number of bytes says: when none fails, the
bytes are moved in order, and their number is one; when one fails, nothing was moved. -/
structure Orderly (entries : Nat → Except FileFault Transfer) (len : Nat → Nat) (n : Nat) : Prop where
  inOrder : (∀ i < n, Works (entries i)) → TakenInOrder (fun i => movedBy (entries i)) len 0 n
  counted : (∀ i < n, Works (entries i)) → amount (fun i => movedBy (entries i)) 0 n < 2 ^ 63
  fails : ∀ i < n, (∀ j < i, Works (entries j)) → Fails (entries i) →
    ∀ j ≤ i, movedBy (entries j) = 0

section Loop

variable {one : Nat → IOVec → FileProg Word} {iov : Nat → IOVec} {env : VecHost}
  {entries : Nat → Except FileFault Transfer} {n i k : Nat} {total value : Word} {log log' : VecLog}

/-- The calls for the entries do what the entries come to. -/
def Does (one : Nat → IOVec → FileProg Word) (iov : Nat → IOVec) (env : VecHost)
    (entries : Nat → Except FileFault Transfer) : Prop :=
  ∀ i log, ((one i (iov i)).lift (entryPart i)).play env.answer log =
    match entries i with
    | .ok t => (.ok t.ret, log ++ t.block i)
    | .error reason => (.error (.file reason), log)

/-- The loop goes on after an entry that does not fail. -/
theorem vecLoop_works (does : Does one iov env entries)
    (counts : ∀ t, entries i = .ok t → t.ret.slt 0 = false → t.ret.toNat = t.moved)
    (works : Works (entries i)) :
    (vecLoop one iov (n + 1) i total).play env.answer log =
      (vecLoop one iov n (i + 1) (total + BitVec.ofNat 64 (movedBy (entries i)))).play env.answer
        (log ++ (List.range (movedBy (entries i))).map fun offset => (i, offset)) := by
  obtain ⟨t, came, positive⟩ := works
  have returned : t.ret = BitVec.ofNat 64 t.moved := by
    rw [← counts t came positive, BitVec.ofNat_toNat, BitVec.setWidth_eq]
  rw [vecLoop, Prog.play_bind, does, came]
  dsimp only
  rw [if_neg (Bool.eq_false_iff.mp positive), movedBy, ← returned]
  rfl

/-- The loop ends with an entry that fails. -/
theorem vecLoop_fails (does : Does one iov env entries) (fails : Fails (entries i)) :
    ∃ value : Word, value.slt 0 = true ∧
      (vecLoop one iov (n + 1) i total).play env.answer log = (.ok value,
        log ++ (List.range (movedBy (entries i))).map fun offset => (i, offset)) := by
  obtain ⟨t, came, negative⟩ := fails
  refine ⟨t.ret, negative, ?_⟩
  rw [vecLoop, Prog.play_bind, does, came]
  dsimp only
  rw [if_pos negative, movedBy]
  rfl

/-- As long as no entry fails, the loop adds up. -/
theorem vecLoop_play (does : Does one iov env entries)
    (counts : ∀ i t, entries i = .ok t → t.ret.slt 0 = false → t.ret.toNat = t.moved)
    (works : ∀ j, i ≤ j → j < i + k → Works (entries j)) :
    (vecLoop one iov (k + n) i total).play env.answer log =
      (vecLoop one iov n (i + k)
        (total + BitVec.ofNat 64 (amount (fun i => movedBy (entries i)) i k))).play env.answer
          (log ++ places (fun i => movedBy (entries i)) i k) := by
  induction k generalizing i total log with
  | zero => simp [amount, places]
  | succ k ih =>
      have later : ∀ j, i + 1 ≤ j → j < i + 1 + k → Works (entries j) :=
        fun j above below => works j (by omega) (by omega)
      rw [Nat.add_right_comm, vecLoop_works does (counts i) (works i (Nat.le_refl _) (by omega)),
        ih later, amount, places, List.append_assoc, BitVec.ofNat_add, BitVec.add_assoc,
        Nat.add_right_comm i 1 k, Nat.add_assoc i k 1]

/-- An entry that fails does not work. -/
theorem Fails.not_works {result : Except FileFault Transfer} (fails : Fails result) : ¬Works result := by
  obtain ⟨t, came, negative⟩ := fails
  rintro ⟨t', came', positive⟩
  cases came.symm.trans came'
  exact absurd (negative.symm.trans positive) (by decide)

/-- When an entry does not work, there is a first one. -/
theorem exists_first {P : Nat → Prop} (some : ¬∀ i < n, P i) : ∃ k < n, ¬P k ∧ ∀ j < k, P j := by
  induction n with
  | zero => exact absurd (fun i less => absurd less (Nat.not_lt_zero i)) some
  | succ n ih =>
      by_cases before : ∀ i < n, P i
      · refine ⟨n, Nat.lt_succ_self n, fun here => some fun i less => ?_, before⟩
        rcases Nat.lt_succ_iff_lt_or_eq.mp less with less | rfl
        · exact before i less
        · exact here
      · obtain ⟨k, less, first⟩ := ih before
        exact ⟨k, less.trans (Nat.lt_succ_self n), first⟩

/-- No entry fails. -/
theorem vecLoop_tells_works (does : Does one iov env entries)
    (allowed : ∀ i t, entries i = .ok t → t.Allowed (iov i).len) (works : ∀ i < n, Works (entries i)) :
    (∀ value log, (vecLoop one iov n 0 0).Returns env.answer [] value log →
        TellsTransfer iov n value log) ↔
      TakenInOrder (fun i => movedBy (entries i)) (fun i => (iov i).len.toNat) 0 n ∧
        amount (fun i => movedBy (entries i)) 0 n < 2 ^ 63 := by
  have plays := @vecLoop_play _ _ _ _ 0 0 n 0 [] does (fun i t came => (allowed i t came).ret)
    (fun j _ less => works j (by omega))
  have le : ∀ i, movedBy (entries i) ≤ (iov i).len.toNat := by
    intro i
    cases came : entries i with
    | error reason => exact Nat.zero_le _
    | ok t => exact (allowed i t came).moved
  have size : (BitVec.ofNat 64 (amount (fun i => movedBy (entries i)) 0 n)).toNat =
      amount (fun i => movedBy (entries i)) 0 n % 2 ^ 64 := BitVec.toNat_ofNat ..
  have sum : ∀ x : Word, 0 + x = x := BitVec.zero_add
  rw [vecLoop, Nat.add_zero, sum, List.nil_append] at plays
  rw [← places_eq_take_iff le]
  constructor
  · intro tells
    have told := tells _ _ plays
    rw [TellsTransfer] at told
    split at told
    · rename_i negative
      have none := congrArg List.length told
      rw [length_places] at none
      rw [List.length_nil] at none
      rw [none] at negative
      exact absurd negative (by decide)
    · rename_i positive
      obtain ⟨length, first⟩ := told
      rw [length_places] at length
      rw [← length] at first
      refine ⟨first, ?_⟩
      rw [slt_zero_iff] at positive
      omega
  · rintro ⟨first, small⟩ value log returns
    cases plays.symm.trans returns
    have positive : ¬(BitVec.ofNat 64 (amount (fun i => movedBy (entries i)) 0 n)).slt 0 := by
      rw [slt_zero_iff]
      omega
    have same : (BitVec.ofNat 64 (amount (fun i => movedBy (entries i)) 0 n)).toNat =
        amount (fun i => movedBy (entries i)) 0 n := by omega
    rw [TellsTransfer, if_neg positive, same]
    exact ⟨length_places, first⟩

/-- The first entry that does not work is this one. -/
theorem vecLoop_tells_first (does : Does one iov env entries)
    (allowed : ∀ i t, entries i = .ok t → t.Allowed (iov i).len) (less : k < n)
    (stops : ¬Works (entries k)) (works : ∀ j < k, Works (entries j)) :
    (∀ value log, (vecLoop one iov n 0 0).Returns env.answer [] value log →
        TellsTransfer iov n value log) ↔
      (Fails (entries k) → ∀ j ≤ k, movedBy (entries j) = 0) := by
  obtain ⟨rest, rfl⟩ : ∃ rest, n = k + (rest + 1) := ⟨n - k - 1, by omega⟩
  have plays := @vecLoop_play _ _ _ _ (rest + 1) 0 k 0 [] does
    (fun i t came => (allowed i t came).ret) (fun j _ before => works j (by omega))
  rw [Nat.zero_add, List.nil_append] at plays
  cases came : entries k with
  | error reason =>
      constructor
      · rintro - ⟨t, impossible, -⟩
        cases impossible
      · intro _ value log returns
        rw [Prog.Returns, plays, vecLoop, Prog.play_bind, does, came] at returns
        cases returns
  | ok t =>
      have negative : t.ret.slt 0 = true := by
        by_contra positive
        exact stops ⟨t, came, Bool.eq_false_iff.mpr positive⟩
      have fails : Fails (entries k) := ⟨t, came, negative⟩
      obtain ⟨value, isError, ends⟩ := @vecLoop_fails _ _ env _ rest k
        (0 + BitVec.ofNat 64 (amount (fun i => movedBy (entries i)) 0 k))
        (places (fun i => movedBy (entries i)) 0 k) does fails
      rw [← came]
      have nothing : (places (fun i => movedBy (entries i)) 0 k ++
          (List.range (movedBy (entries k))).map fun offset => (k, offset)) = [] ↔
            ∀ j ≤ k, movedBy (entries j) = 0 := by
        rw [← List.length_eq_zero_iff, List.length_append, length_places, List.length_map,
          List.length_range, Nat.add_eq_zero_iff, amount_eq_zero]
        constructor
        · rintro ⟨before, here⟩ j le
          rcases Nat.lt_or_eq_of_le le with less | rfl
          · exact before j (Nat.zero_le _) (by omega)
          · exact here
        · exact fun all => ⟨fun j _ less => all j (by omega), all k (Nat.le_refl _)⟩
      constructor
      · intro tells _
        have told := tells value _ (plays.trans ends)
        rw [TellsTransfer, if_pos isError] at told
        exact nothing.mp told
      · intro none value' log returns
        cases (plays.trans ends).symm.trans returns
        rw [TellsTransfer, if_pos isError]
        exact nothing.mpr (none fails)

/-- What the loop returns says what was transferred just when the entries are orderly. -/
theorem vecLoop_tells_iff (does : Does one iov env entries)
    (allowed : ∀ i t, entries i = .ok t → t.Allowed (iov i).len) :
    (∀ value log, (vecLoop one iov n 0 0).Returns env.answer [] value log →
        TellsTransfer iov n value log) ↔
      Orderly entries (fun i => (iov i).len.toNat) n := by
  by_cases all : ∀ i < n, Works (entries i)
  · rw [vecLoop_tells_works does allowed all]
    constructor
    · rintro ⟨inOrder, small⟩
      exact ⟨fun _ => inOrder, fun _ => small,
        fun i less _ fails => absurd (all i less) fails.not_works⟩
    · exact fun orderly => ⟨orderly.inOrder all, orderly.counted all⟩
  · obtain ⟨k, less, stops, works⟩ := exists_first all
    rw [vecLoop_tells_first does allowed less stops works]
    constructor
    · intro none
      refine ⟨fun every => absurd every all, fun every => absurd every all, ?_⟩
      intro i _ before fails
      rcases Nat.lt_trichotomy i k with first | rfl | later
      · exact absurd (works i first) fails.not_works
      · exact none fails
      · exact absurd (before k later) stops
    · exact fun orderly fails => orderly.fails k less works fails

end Loop

/-! ## The calls -/

section Calls

variable {d : Nat → Descriptor} {box : LPSBoxInfo} {slot : FDSlots → Field (Option FDFunction)}
  {env : VecHost} {iovp iovcnt : Word}

/-- What the entries of a call come to. -/
def vecEntries (d : Nat → Descriptor) (box : LPSBoxInfo) (slot : FDSlots → Field (Option FDFunction))
    (env : VecHost) (i : Nat) : Except FileFault Transfer :=
  (d i).entry box slot (env.iov i) (env.transfer i)

/-- A call that gets as far as its entries finds them orderly. -/
def Steady (d : Nat → Descriptor) (box : LPSBoxInfo) (slot : FDSlots → Field (Option FDFunction))
    (env : VecHost) (iovp iovcnt : Word) : Prop :=
  bufcheck box iovp (iovcnt * 16) 8 = true → env.memory = true →
    Orderly (vecEntries d box slot env) (fun i => (env.iov i).len.toNat) iovcnt.toNat

/-- The assertion of `copyout` holds after the test of the calls. -/
theorem bufcheck_align_one {p size align : Word} (checked : bufcheck box p size align = true) :
    bufcheck box p size 1 = true := by
  rw [bufcheck] at checked ⊢
  have whole : p % 1 = 0 := by
    apply BitVec.eq_of_toNat_eq
    rw [BitVec.toNat_umod]
    exact Nat.mod_one _
  rw [if_neg (not_not.mpr whole)]
  split at checked
  · cases checked
  · rename_i first
    rw [if_neg first]
    split at checked
    · cases checked
    · rename_i last
      rw [if_neg last]

/-- There is memory for the entries, or not. -/
theorem copyoutVec_returns {p size : Word} {iov : Option (Nat → IOVec)} {log log' : VecLog}
    (checked : bufcheck box p size 1 = true) :
    (copyoutVec box p size).Returns env.answer log iov log' ↔
      (if env.memory = true then some env.iov else none) = iov ∧ log = log' := by
  simp only [copyoutVec, checked, Prog.returns_bind, Prog.returns_check, Prog.returns_ask]
  constructor
  · rintro ⟨_, _, ⟨-, rfl⟩, memory, _, ⟨⟩, rest⟩
    cases found : env.memory with
    | false =>
        simpa [found] using rest
    | true =>
        simp only [found, Bool.not_true, Bool.false_eq_true, if_false, Prog.returns_bind,
          Prog.returns_ask, Prog.returns_pure] at rest
        obtain ⟨_, _, ⟨⟩, rest⟩ := rest
        simpa using rest
  · rintro ⟨rfl, rfl⟩
    refine ⟨⟨⟩, log, ⟨trivial, rfl⟩, env.memory, log, rfl, ?_⟩
    cases found : env.memory with
    | false => simp
    | true =>
        simp only [Bool.not_true, Bool.false_eq_true, if_false, Prog.returns_bind, Prog.returns_ask,
          Prog.returns_pure, if_true]
        exact ⟨_, _, rfl, rfl, rfl⟩

theorem sysVec_tells_iff (allowed : ∀ i, (env.transfer i).Allowed (env.iov i).len) :
    (∀ value log,
      (sysVec (fun i e => (d i).transfer box slot e.base e.len) box iovp iovcnt).Returns env.answer []
        value log → TellsTransfer env.iov iovcnt.toNat value log) ↔
      Steady d box slot env iovp iovcnt := by
  have error : ∀ value : Word, value.slt 0 = true → TellsTransfer env.iov iovcnt.toNat value [] := by
    intro value negative
    rw [TellsTransfer, if_pos negative]
  rw [Steady]
  cases checked : bufcheck box iovp (iovcnt * 16) 8 with
  | false =>
      constructor
      · exact fun _ wrong => absurd wrong (by decide)
      · intro _ value log returns
        rw [sysVec, if_pos checked, Prog.returns_pure] at returns
        obtain ⟨rfl, rfl⟩ := returns
        exact error _ (by decide)
  | true =>
      have goesOn : ∀ value log,
          (sysVec (fun i e => (d i).transfer box slot e.base e.len) box iovp iovcnt).Returns env.answer []
            value log ↔
          if env.memory = true then
            (vecLoop (fun i e => (d i).transfer box slot e.base e.len) env.iov iovcnt.toNat 0 0).Returns
              env.answer [] value log
          else -LINUX_ENOMEM = value ∧ [] = log := by
        intro value log
        have passed : ¬bufcheck box iovp (iovcnt * 16) 8 = false := Bool.not_eq_false _ ▸ checked
        rw [sysVec, if_neg passed, Prog.returns_bind]
        simp only [copyoutVec_returns (bufcheck_align_one checked)]
        cases env.memory with
        | false =>
            simp only [Bool.false_eq_true, if_false]
            constructor
            · rintro ⟨_, _, ⟨rfl, rfl⟩, rest⟩
              exact Prog.returns_pure.mp rest
            · exact fun failed => ⟨_, _, ⟨rfl, rfl⟩, Prog.returns_pure.mpr failed⟩
        | true =>
            simp only [if_true]
            constructor
            · rintro ⟨_, _, ⟨rfl, rfl⟩, rest⟩
              simp only [Prog.returns_bind, Prog.returns_ask, Prog.returns_pure] at rest
              obtain ⟨_, _, looped, _, _, ⟨⟩, rfl, rfl⟩ := rest
              exact looped
            · intro looped
              refine ⟨_, _, ⟨rfl, rfl⟩, ?_⟩
              simp only [Prog.returns_bind, Prog.returns_ask, Prog.returns_pure]
              exact ⟨_, _, looped, _, _, rfl, rfl, rfl⟩
      have loop := @vecLoop_tells_iff (fun i e => (d i).transfer box slot e.base e.len) env.iov env
        (vecEntries d box slot env) iovcnt.toNat (fun i log => Descriptor.entry_play)
        (fun i t came => Descriptor.entry_allowed (allowed i) came)
      constructor
      · intro tells _ memory
        refine loop.mp fun value log returns => tells value log ((goesOn value log).mpr ?_)
        rwa [if_pos memory]
      · intro orderly value log returns
        have result := (goesOn value log).mp returns
        split at result
        · rename_i memory
          exact loop.mpr (orderly rfl memory) value log result
        · obtain ⟨rfl, rfl⟩ := result
          exact error _ (by decide)

end Calls

/-- Whatever the files do for the entries, `sys_readv` and `sys_writev` say what they transferred
exactly when the entries are orderly. -/
theorem vec_tells_iff (d : Nat → Descriptor) (box : LPSBoxInfo) (iovp iovcnt : Word) (env : VecHost)
    (allowed : ∀ i, (env.transfer i).Allowed (env.iov i).len) :
    ((∀ value log, (sysReadv d box iovp iovcnt).Returns env.answer [] value log →
        TellsTransfer env.iov iovcnt.toNat value log) ↔
      Steady d box FDSlots.read env iovp iovcnt) ∧
    ((∀ value log, (sysWritev d box iovp iovcnt).Returns env.answer [] value log →
        TellsTransfer env.iov iovcnt.toNat value log) ↔
      Steady d box FDSlots.write env iovp iovcnt) := by
  constructor
  · exact sysVec_tells_iff allowed
  · exact sysVec_tells_iff allowed

/-- A box of sixteen pages. -/
def vecBox : LPSBoxInfo := ⟨0x100000, 0x10000⟩

/-- Two entries of two bytes each, of which as much as given is transferred. -/
def twoEntries (first second : Transfer) : VecHost where
  memory := true
  iov i := if i = 0 then ⟨0x100100, 2⟩ else ⟨0x100200, 2⟩
  transfer i := if i = 0 then first else second

theorem twoEntries_allowed {first second : Transfer} (one : first.Allowed 2) (two : second.Allowed 2)
    (i : Nat) : ((twoEntries first second).transfer i).Allowed ((twoEntries first second).iov i).len := by
  by_cases zero : i = 0
  · rw [zero]
    exact one
  · rw [twoEntries]
    dsimp only
    rw [if_neg zero, if_neg zero]
    exact two

/-- The second entry of a pipe is filled halfway, which ends the call: it reports all three bytes. -/
theorem vec_tells_whole :
    TellsTransfer (twoEntries ⟨2, 2⟩ ⟨1, 1⟩).iov 2 3 [(0, 0), (0, 1), (1, 0)] := by
  refine (vec_tells_iff (fun _ => .file (.pipeEnd 0 true)) vecBox 0x100000 2 (twoEntries ⟨2, 2⟩ ⟨1, 1⟩)
    (twoEntries_allowed ⟨by decide, fun _ => rfl⟩ ⟨by decide, fun _ => rfl⟩)).1.mpr ?_ 3 _ rfl
  have first : vecEntries (fun _ => .file (.pipeEnd 0 true)) vecBox FDSlots.read
      (twoEntries ⟨2, 2⟩ ⟨1, 1⟩) 0 = .ok ⟨2, 2⟩ := rfl
  have second : vecEntries (fun _ => .file (.pipeEnd 0 true)) vecBox FDSlots.read
      (twoEntries ⟨2, 2⟩ ⟨1, 1⟩) 1 = .ok ⟨1, 1⟩ := rfl
  intro _ _
  constructor
  · intro _ k j _ before below _
    obtain ⟨rfl, rfl⟩ : j = 0 ∧ k = 1 := by
      have : (0 : Nat) + (2 : Word).toNat = 2 := rfl
      omega
    rfl
  · intro _
    decide
  · intro i less _ fails
    have works : Works (vecEntries (fun _ => .file (.pipeEnd 0 true)) vecBox FDSlots.read
        (twoEntries ⟨2, 2⟩ ⟨1, 1⟩) i) := by
      obtain rfl | rfl : i = 0 ∨ i = 1 := by
        have : (2 : Word).toNat = 2 := rfl
        omega
      · exact ⟨_, first, rfl⟩
      · exact ⟨_, second, rfl⟩
    exact absurd works fails.not_works

/-- A pipe that has one byte when the first entry is read, and two more for the second: the
call returns three, and the second place of the first buffer was left out. -/
theorem readv_forgets_short_read :
    ¬∀ (d : Nat → Descriptor) (box : LPSBoxInfo) (iovp iovcnt : Word) (env : VecHost),
      (∀ i, (env.transfer i).Allowed (env.iov i).len) →
      ∀ value log, (sysReadv d box iovp iovcnt).Returns env.answer [] value log →
        TellsTransfer env.iov iovcnt.toNat value log := by
  intro claim
  have told := claim (fun _ => .file (.pipeEnd 0 true)) vecBox 0x100000 2
    (twoEntries ⟨1, 1⟩ ⟨2, 2⟩)
    (twoEntries_allowed ⟨by decide, fun _ => rfl⟩ ⟨by decide, fun _ => rfl⟩) 3
    [(0, 0), (1, 0), (1, 1)] rfl
  revert told
  rw [TellsTransfer]
  decide

end Lps.Linux

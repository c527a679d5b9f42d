import Lps.Linux.PipeSpec

/-!
# Pipe streams

The bytes the reads deliver are compared with the bytes the writes copy in.  The
counters `nread` and `nwrite` are the lengths of the two streams modulo `2 ^ 64`,
and the cells between them hold what has been copied in but not delivered.
-/

namespace Lps.Linux

open Lps.Ring Lps.Transition RRSched

/-! ## The two streams of a pipe -/

/-- The bytes copied into a pipe, in order. -/
def copiedInto (p : PipeId) (trace : List PipeObs) : List Byte :=
  trace.flatMap fun
    | .copied q bytes => if q = p then bytes else []
    | _ => []

/-- The bytes delivered from a pipe, in order. -/
def deliveredFrom (p : PipeId) (trace : List PipeObs) : List Byte :=
  trace.flatMap fun
    | .delivered q bytes => if q = p then bytes else []
    | _ => []

section Streams

variable (p q : PipeId) (trace rest : List PipeObs) (bytes : List Byte) (t : Tid)
  (addr value : Word) (len : Nat)

@[simp]
theorem copiedInto_nil : copiedInto p [] = [] :=
  rfl

@[simp]
theorem deliveredFrom_nil : deliveredFrom p [] = [] :=
  rfl

@[simp]
theorem copiedInto_append :
    copiedInto p (trace ++ rest) = copiedInto p trace ++ copiedInto p rest :=
  List.flatMap_append ..

@[simp]
theorem deliveredFrom_append :
    deliveredFrom p (trace ++ rest) = deliveredFrom p trace ++ deliveredFrom p rest :=
  List.flatMap_append ..

@[simp]
theorem copiedInto_copied :
    copiedInto p (.copied q bytes :: trace) =
      (if q = p then bytes else []) ++ copiedInto p trace :=
  rfl

@[simp]
theorem deliveredFrom_delivered :
    deliveredFrom p (.delivered q bytes :: trace) =
      (if q = p then bytes else []) ++ deliveredFrom p trace :=
  rfl

@[simp]
theorem copiedInto_delivered :
    copiedInto p (.delivered q bytes :: trace) = copiedInto p trace :=
  rfl

@[simp]
theorem deliveredFrom_copied :
    deliveredFrom p (.copied q bytes :: trace) = deliveredFrom p trace :=
  rfl

@[simp]
theorem copiedInto_access :
    copiedInto p (.access t addr len :: trace) = copiedInto p trace :=
  rfl

@[simp]
theorem deliveredFrom_access :
    deliveredFrom p (.access t addr len :: trace) = deliveredFrom p trace :=
  rfl

@[simp]
theorem copiedInto_returned :
    copiedInto p (.returned t value :: trace) = copiedInto p trace :=
  rfl

@[simp]
theorem deliveredFrom_returned :
    deliveredFrom p (.returned t value :: trace) = deliveredFrom p trace :=
  rfl

end Streams

/-! ## The invariant of one pipe -/

/-- The pipe has taken in `copied` and given out `delivered`. -/
structure Pipe.Carries (pipe : Pipe) (copied delivered : List Byte) : Prop where
  nread : pipe.nread = BitVec.ofNat 64 delivered.length
  nwrite : pipe.nwrite = BitVec.ofNat 64 copied.length
  ordered : delivered.length ≤ copied.length
  bounded : copied.length ≤ delivered.length + PIPESZ.toNat
  isPrefix : delivered <+: copied
  contents : ∀ data, pipe.data = some data →
    copied = delivered ++ window data PIPESZ.toNat delivered.length copied.length

/-- The capacity divides `2 ^ 64`, so a counter that has wrapped still names the
same cell. -/
theorem toNat_ofNat_umod_PIPESZ (count : Nat) :
    (BitVec.ofNat 64 count % PIPESZ).toNat = count % PIPESZ.toNat := by
  rw [BitVec.toNat_umod, BitVec.toNat_ofNat]
  exact Nat.mod_mod_of_dvd count (by decide)

namespace Pipe.Carries

variable {pipe pipe' : Pipe} {copied delivered : List Byte} {count : Word}

/-- The undelivered bytes are counted by `nwrite - nread`. -/
theorem avail_toNat (carries : pipe.Carries copied delivered) :
    pipe.avail.toNat = copied.length - delivered.length := by
  have ordered := carries.ordered
  have bounded := carries.bounded
  simp only [PIPESZ, BitVec.reduceToNat] at bounded
  rw [avail, carries.nread, carries.nwrite, BitVec.toNat_sub, BitVec.toNat_ofNat,
    BitVec.toNat_ofNat]
  omega

/-- The free space is what the undelivered bytes leave of the capacity. -/
theorem availSpace_toNat (carries : pipe.Carries copied delivered) :
    pipe.availSpace.toNat = PIPESZ.toNat - (copied.length - delivered.length) := by
  have avail := carries.avail_toNat
  have bounded := carries.bounded
  simp only [Pipe.avail, Pipe.availSpace, PIPESZ, BitVec.reduceToNat] at *
  bv_omega

/-- The streams depend on the counters and the buffer only, and survive the loss
of the buffer. -/
theorem congr (carries : pipe.Carries copied delivered) (nread : pipe'.nread = pipe.nread)
    (nwrite : pipe'.nwrite = pipe.nwrite)
    (data : pipe'.data = pipe.data ∨ pipe'.data = none) :
    pipe'.Carries copied delivered where
  nread := nread.trans carries.nread
  nwrite := nwrite.trans carries.nwrite
  ordered := carries.ordered
  bounded := carries.bounded
  isPrefix := carries.isPrefix
  contents := by
    intro cells present
    rcases data with same | lost
    · exact carries.contents cells (same ▸ present)
    · rw [lost] at present
      contradiction

/-- A chunk copied out is the next piece of the copied stream. -/
theorem copyOut {bytes : List Byte} (carries : pipe.Carries copied delivered)
    (le : count ≤ pipe.avail) (out : pipe.copyOut (pipe.nread % PIPESZ) count = some bytes) :
    (pipe.advanceRead count).Carries copied (delivered ++ bytes) := by
  obtain ⟨data, present, inside, rfl⟩ := Pipe.copyOut_eq_some out
  rw [carries.nread, toNat_ofNat_umod_PIPESZ] at inside ⊢
  have avail := carries.avail_toNat
  have ordered := carries.ordered
  have bounded := carries.bounded
  have countLe : count.toNat ≤ copied.length - delivered.length := by
    rw [← avail]
    exact le
  have split := carries.contents data present
  rw [window_load (by omega) inside, ← List.append_assoc] at split
  constructor
  · rw [Pipe.advanceRead_nread, carries.nread, List.length_append, length_load,
      BitVec.ofNat_add, BitVec.ofNat_toNat, BitVec.setWidth_eq]
  · exact carries.nwrite
  · simp only [List.length_append, length_load]
    omega
  · simp only [List.length_append, length_load]
    omega
  · exact ⟨_, split.symm⟩
  · intro cells same
    rw [Pipe.advanceRead_data, present, Option.some.injEq] at same
    subst same
    simpa only [List.length_append, length_load] using split

/-- A chunk copied in is appended to the copied stream and overwrites nothing
that has not been delivered. -/
theorem copyIn {bytes : List Byte} (carries : pipe.Carries copied delivered)
    (le : count ≤ pipe.availSpace) (length : bytes.length = count.toNat)
    (into : pipe.copyIn (pipe.nwrite % PIPESZ) bytes = some pipe') :
    (pipe'.advanceWrite count).Carries (copied ++ bytes) delivered := by
  obtain ⟨data, present, inside, rfl⟩ := Pipe.copyIn_eq_some into
  rw [carries.nwrite, toNat_ofNat_umod_PIPESZ] at inside ⊢
  have space := carries.availSpace_toNat
  have ordered := carries.ordered
  have bounded := carries.bounded
  have countLe : count.toNat ≤ PIPESZ.toNat - (copied.length - delivered.length) := by
    rw [← space]
    exact le
  constructor
  · exact carries.nread
  · rw [Pipe.advanceWrite_nwrite, Pipe.setData_nwrite, carries.nwrite, List.length_append,
      length, BitVec.ofNat_add, BitVec.ofNat_toNat, BitVec.setWidth_eq]
  · simp only [List.length_append]
    omega
  · simp only [List.length_append]
    omega
  · exact carries.isPrefix.trans (List.prefix_append ..)
  · intro cells same
    rw [Pipe.advanceWrite_data, Pipe.setData_data, Option.some.injEq] at same
    subst same
    rw [List.length_append, window_store ordered inside (by omega), ← List.append_assoc,
      ← carries.contents data present]

end Pipe.Carries

/-! ## The invariant of the system -/

/-- Every pipe carries the streams of the trace. -/
def RRSched.Streams (trace : List PipeObs) (s : RRSched) : Prop :=
  ∀ p, (s.pipes p).Carries (copiedInto p trace) (deliveredFrom p trace)

variable {s s' : RRSched} {t : Tid} {p : PipeId} {buf n written : Word}
  {trace obs : List PipeObs} {src : Nat → Byte}

/-- A step that changes the streams of pipe `p` only. -/
theorem RRSched.Streams.update {pipe : Pipe} (streams : s.Streams trace)
    (copied : ∀ q, q ≠ p → copiedInto q obs = []) (delivered : ∀ q, q ≠ p → deliveredFrom q obs = [])
    (carries : pipe.Carries (copiedInto p trace ++ copiedInto p obs)
      (deliveredFrom p trace ++ deliveredFrom p obs)) :
    (s.setPipe p pipe).Streams (trace ++ obs) := by
  intro q
  rw [copiedInto_append, deliveredFrom_append, setPipe_pipes]
  by_cases same : q = p
  · subst same
    rwa [Function.update_self]
  · rw [Function.update_of_ne same, copied q same, delivered q same, List.append_nil,
      List.append_nil]
    exact streams q

/-- A wake-up, a block or the end of a call leaves the streams alone. -/
theorem RRSched.Streams.of_queues {pipe : Pipe} (streams : s.Streams trace)
    (pipes : s'.pipes = Function.update s.pipes p pipe) (nread : pipe.nread = (s.pipes p).nread)
    (nwrite : pipe.nwrite = (s.pipes p).nwrite)
    (data : pipe.data = (s.pipes p).data ∨ pipe.data = none) : s'.Streams trace := by
  intro q
  rw [pipes]
  by_cases same : q = p
  · subst same
    rw [Function.update_self]
    exact (streams q).congr nread nwrite data
  · rw [Function.update_of_ne same]
    exact streams q

/-- A chunk copied in, with the access to the sandbox that goes with it. -/
theorem RRSched.Streams.copyIn {pipe : Pipe} {bytes : List Byte} (streams : s.Streams trace)
    (t : Tid) (addr : Word)
    (carries : pipe.Carries (copiedInto p trace ++ bytes) (deliveredFrom p trace)) :
    (s.setPipe p pipe).Streams
      (trace ++ [.access t addr bytes.length, .copied p bytes]) :=
  streams.update (fun q ne => by simp [ne.symm]) (fun q _ => by simp)
    (by simpa using carries)

/-- The copy loop of `pipe_read` delivers the next bytes of the stream. -/
theorem pipeReadCopy_carries {pipe pipe' : Pipe} {toRead copied : Word}
    {bytesIn bytesOut : List Byte} (carries : pipe.Carries bytesIn bytesOut)
    (le : toRead - copied ≤ pipe.avail)
    (result : pipeReadCopy t p buf toRead pipe copied = some (pipe', obs)) :
    (∀ q, copiedInto q obs = []) ∧ (∀ q, q ≠ p → deliveredFrom q obs = []) ∧
      pipe'.Carries bytesIn (bytesOut ++ deliveredFrom p obs) := by
  fun_induction pipeReadCopy t p buf toRead pipe copied
    generalizing bytesOut pipe' obs with
  | case1 pipe copied more ih =>
      obtain ⟨bytes, rest, out, looped, rfl⟩ := pipeReadCopy_cons more (by
        rw [pipeReadCopy, dif_pos more]; exact result)
      have chunkLe := readChunk_le pipe (toRead - copied)
      have advanced := carries.copyOut (BitVec.le_trans chunkLe le) out
      have leRest : toRead - (copied + readChunk pipe (toRead - copied)) ≤
          (pipe.advanceRead (readChunk pipe (toRead - copied))).avail := by
        simp only [Pipe.avail, Pipe.advanceRead_nwrite, Pipe.advanceRead_nread] at *
        bv_omega
      obtain ⟨noCopy, noDelivery, carriesRest⟩ := ih advanced leRest looped
      refine ⟨fun q => ?_, fun q ne => ?_, ?_⟩
      · simpa using noCopy q
      · simpa [ne.symm] using noDelivery q ne
      · simpa using carriesRest
  | case2 pipe copied done =>
      simp only [Option.some.injEq, Prod.mk.injEq] at result
      obtain ⟨rfl, rfl⟩ := result
      exact ⟨fun _ => rfl, fun _ _ => rfl, by simpa using carries⟩

/-- `pipe_read` extends the streams by what it observes. -/
theorem pipeRead_streams (streams : s.Streams trace)
    (result : pipeRead s t p buf n = some (s', obs)) : s'.Streams (trace ++ obs) := by
  rcases pipeRead_cases result with
    ⟨_, _, rfl, rfl⟩ | ⟨_, pipe, copies, looped, rfl, rfl⟩
  · rw [List.append_nil]
    exact streams.of_queues (rrschedblock_readq_pipes ..) rfl rfl (.inl rfl)
  · have sizeLe := readSize_le_avail n (s.pipes p).avail
    obtain ⟨noCopy, noDelivery, carries⟩ :=
      pipeReadCopy_carries (streams p) (by simpa using sizeLe) looped
    have copied : (s.setPipe p pipe).Streams
        (trace ++ (copies ++ [.returned t (readSize n (s.pipes p).avail)])) :=
      streams.update (fun q _ => by simpa using noCopy q)
        (fun q ne => by simpa using noDelivery q ne) (by simpa [noCopy p] using carries)
    exact copied.of_queues (rrschedwake_writeq_pipes ..) rfl rfl (.inl rfl)

/-- `pipe_write` extends the streams by what it observes, chunk by chunk. -/
theorem pipeWrite_streams (streams : s.Streams trace)
    (result : pipeWrite s t p buf n src written = some (s', obs)) :
    s'.Streams (trace ++ obs) := by
  revert trace
  refine pipeWrite_induct (motive := fun s _ s' obs => ∀ {trace}, s.Streams trace →
    s'.Streams (trace ++ obs)) ?_ ?_ ?_ ?_ result
  · intro s _ _ trace streams q
    simpa using streams q
  · intro s _ _ _ _ trace streams
    rw [List.append_nil]
    have woken := streams.of_queues (rrschedwake_readq_pipes s p) rfl rfl (.inl rfl)
    exact woken.of_queues (rrschedblock_writeq_pipes ..) rfl rfl (.inl rfl)
  · intro s written s' pipe bytes rest _ _ _ taken copied ih trace streams
    have length : bytes.length = (writeChunk (s.pipes p) (n - written)).toNat := by
      rw [taken, length_load]
    have advanced := (streams p).copyIn (writeChunk_le_availSpace _ _) length copied
    simpa using ih (streams.copyIn t (buf + written) advanced)
  · intro s _ trace streams q
    have woken := streams.of_queues (rrschedwake_readq_pipes s p) rfl rfl (.inl rfl)
    simpa using woken q

/-- One step extends the streams by what it observes. -/
theorem RRSched.Streams.step {event : PipeEvent} (streams : s.Streams trace)
    (stepped : RRSched.step s event = some (s', obs)) : s'.Streams (trace ++ obs) := by
  rcases step_cases stepped with ⟨pipes, rfl⟩ | ⟨r, t, p, buf, n, pipes, read⟩ |
    ⟨r, t, p, buf, n, src, written, pipes, write⟩ | ⟨t, p, isRead, _, rfl, rfl⟩
  · intro q
    rw [pipes, List.append_nil]
    exact streams q
  · exact pipeRead_streams (fun q => by rw [pipes]; exact streams q) read
  · exact pipeWrite_streams (fun q => by rw [pipes]; exact streams q) write
  · obtain ⟨pipe, pipes, nread, nwrite, _, _, _, _, data⟩ := pipeClose_pipes s p isRead
    intro q
    have kept : pipe.data = (s.pipes p).data ∨ pipe.data = none := by
      rw [data]
      split
      · exact .inl rfl
      · exact .inr rfl
    simpa using streams.of_queues pipes nread nwrite kept q

/-- New pipes carry the empty streams. -/
theorem RRSched.initial_streams (added : List Tid) (data : PipeId → Nat → Byte) :
    (initial added data).Streams [] := by
  intro p
  constructor <;> simp [initial, newPipe]

/-- Every pipe carries the streams of the run's trace. -/
theorem RRSched.streams_of_run {added : List Tid} {data : PipeId → Nat → Byte}
    (run : Run RRSched.step (Always _ _) (initial added data) trace s) : s.Streams trace :=
  run.invariant RRSched.Streams (initial_streams added data)
    fun streams _ stepped => streams.step stepped

/-- What the reads of a run deliver is a prefix of what the writes copied in; the
rest lies in the buffer in order, and `nwrite - nread` counts it even after the
counters have wrapped. -/
theorem RRSched.pipe_stream {added : List Tid} {data : PipeId → Nat → Byte}
    (run : Run RRSched.step (Always _ _) (initial added data) trace s) (p : PipeId) :
    deliveredFrom p trace <+: copiedInto p trace ∧
    (∀ cells, (s.pipes p).data = some cells →
      copiedInto p trace = deliveredFrom p trace ++
        window cells PIPESZ.toNat (deliveredFrom p trace).length (copiedInto p trace).length) ∧
    (s.pipes p).nwrite - (s.pipes p).nread ≤ PIPESZ ∧
    ((s.pipes p).nwrite - (s.pipes p).nread).toNat =
      (copiedInto p trace).length - (deliveredFrom p trace).length := by
  have carries := streams_of_run run p
  have avail := carries.avail_toNat
  refine ⟨carries.isPrefix, carries.contents, ?_, avail⟩
  have bounded := carries.bounded
  have ordered := carries.ordered
  rw [BitVec.le_def]
  rw [Pipe.avail] at avail
  omega

/-- A transfer in two reads of a stream of three bytes. -/
theorem RRSched.pipe_stream_two_reads :
    ∃ trace s,
      Run RRSched.step (Always _ _) (initial [1, 2] fun _ _ => 0) trace s ∧
      copiedInto 0 trace = [10, 11, 12] ∧ deliveredFrom 0 trace = [10, 11] ∧
      (s.pipes 0).nwrite - (s.pipes 0).nread = 1 ∧
      deliveredFrom 0 trace <+: copiedInto 0 trace := by
  have seen : (exec RRSched.step (initial [1, 2] fun _ _ => 0)
      [.pick, .write 0 64 3 fun i => BitVec.ofNat 8 (10 + i), .yield, .pick, .read 0 256 2]).map
      (fun result => (copiedInto 0 result.2, deliveredFrom 0 result.2,
        (result.1.pipes 0).nwrite - (result.1.pipes 0).nread)) =
      some ([10, 11, 12], [10, 11], 1) := by
    decide +kernel
  obtain ⟨⟨s, trace⟩, executed, seen⟩ := Option.map_eq_some_iff.mp seen
  simp only [Prod.mk.injEq] at seen
  have run := run_of_exec executed
  exact ⟨trace, s, run, seen.1, seen.2.1, seen.2.2, (pipe_stream run 0).1⟩

/-! ## No copy leaves the buffer -/

/-- A chunk that starts inside the buffer ends inside it. -/
theorem chunkSize_inside {pos rest : Word} (inside : pos < PIPESZ) (le : rest ≤ PIPESZ) :
    pos.toNat + (chunkSize pos rest).toNat ≤ PIPESZ.toNat := by
  unfold chunkSize PIPESZ at *
  split <;> bv_omega

/-- The copy loop of `pipe_read` copies from a buffer that is present. -/
theorem pipeReadCopy_isSome {pipe : Pipe} {toRead copied : Word} (present : pipe.data.isSome)
    (le : toRead - copied ≤ PIPESZ) :
    (pipeReadCopy t p buf toRead pipe copied).isSome := by
  fun_induction pipeReadCopy t p buf toRead pipe copied with
  | case1 pipe copied more ih =>
      obtain ⟨data, isData⟩ := Option.isSome_iff_exists.mp present
      have inside := chunkSize_inside (umod_PIPESZ_lt pipe.nread) le
      have chunkLe := readChunk_le pipe (toRead - copied)
      have rest := ih present (by unfold PIPESZ at *; bv_omega)
      obtain ⟨result, looped⟩ := Option.isSome_iff_exists.mp rest
      rw [← readChunk] at inside
      rw [Pipe.copyOut_of_inside isData inside, looped]
      rfl
  | case2 pipe copied done => rfl

/-- The streams keep a pipe within its capacity. -/
theorem Pipe.Carries.avail_le {pipe : Pipe} {copied delivered : List Byte}
    (carries : pipe.Carries copied delivered) : pipe.avail ≤ PIPESZ := by
  have avail := carries.avail_toNat
  have bounded := carries.bounded
  rw [BitVec.le_def]
  omega

/-- A `pipe_read` of a pipe whose buffer is present either blocks or returns. -/
theorem pipeRead_isSome (bounded : (s.pipes p).avail ≤ PIPESZ)
    (present : (s.pipes p).data.isSome) : (pipeRead s t p buf n).isSome := by
  have copies : (pipeReadCopy t p buf (readSize n (s.pipes p).avail) (s.pipes p) 0).isSome := by
    refine pipeReadCopy_isSome present ?_
    rw [BitVec.ofNat_eq_ofNat, BitVec.sub_zero]
    exact BitVec.le_trans (readSize_le_avail n _) bounded
  obtain ⟨result, looped⟩ := Option.isSome_iff_exists.mp copies
  unfold pipeRead
  split
  · rfl
  · simp only [looped]
    rfl

/-- A `pipe_write` to a pipe whose buffer is present either blocks or returns. -/
theorem pipeWrite_isSome (bounded : (s.pipes p).avail ≤ PIPESZ)
    (present : (s.pipes p).data.isSome) : (pipeWrite s t p buf n src written).isSome := by
  induction left : (n - written).toNat using Nat.strongRecOn generalizing s written with
  | ind left ih =>
      rw [pipeWrite]
      split
      · rename_i more
        split
        · rfl
        split
        · rfl
        rename_i room
        obtain ⟨cells, isData⟩ := Option.isSome_iff_exists.mp present
        have space : (s.pipes p).availSpace ≤ PIPESZ := by
          simp only [Pipe.avail, Pipe.availSpace, PIPESZ] at *
          bv_omega
        have sizeLe := writeSize_le_avail (n - written) (s.pipes p).availSpace
        have inside := chunkSize_inside (umod_PIPESZ_lt (s.pipes p).nwrite)
          (BitVec.le_trans sizeLe space)
        rw [← writeChunk] at inside
        have into := Pipe.copyIn_of_inside
          (load src written.toNat (writeChunk (s.pipes p) (n - written)).toNat) isData
          (by rwa [length_load])
        have chunkPos : 0 < writeChunk (s.pipes p) (n - written) :=
          writeChunk_pos (by bv_omega) room
        have smaller := rest_decreases chunkPos (writeChunk_le _ _)
        rw [left] at smaller
        have chunkLe := writeChunk_le_availSpace (s.pipes p) (n - written)
        have rest := ih _ smaller (s := s.setPipe p (((s.pipes p).setData (store cells
            ((s.pipes p).nwrite % PIPESZ).toNat
            (load src written.toNat (writeChunk (s.pipes p) (n - written)).toNat))).advanceWrite
              (writeChunk (s.pipes p) (n - written)))) (by
          simp only [setPipe_pipes, Function.update_self, Pipe.avail, Pipe.availSpace, PIPESZ,
            Pipe.advanceWrite_nwrite, Pipe.advanceWrite_nread, Pipe.setData_nwrite,
            Pipe.setData_nread] at *
          bv_omega) (by simp) rfl
        obtain ⟨result, looped⟩ := Option.isSome_iff_exists.mp rest
        simp only [into, Option.bind_eq_bind, Option.bind_some, looped]
        rfl
      · rfl

/-- The ends of the pipes are as before, and so is whether they have a buffer. -/
def RRSched.SameEnds (s s' : RRSched) : Prop :=
  ∀ q, (s'.pipes q).readopen = (s.pipes q).readopen ∧
    (s'.pipes q).writeopen = (s.pipes q).writeopen ∧
    (s'.pipes q).data.isSome = (s.pipes q).data.isSome

theorem RRSched.SameEnds.trans {r : RRSched} (first : s.SameEnds r) (second : r.SameEnds s') :
    s.SameEnds s' := by
  intro q
  obtain ⟨readopen, writeopen, data⟩ := first q
  obtain ⟨readopen', writeopen', data'⟩ := second q
  exact ⟨readopen'.trans readopen, writeopen'.trans writeopen, data'.trans data⟩

/-- Replacing a pipe by one with the same ends. -/
theorem RRSched.SameEnds.of_update {pipe : Pipe}
    (pipes : s'.pipes = Function.update s.pipes p pipe)
    (readopen : pipe.readopen = (s.pipes p).readopen)
    (writeopen : pipe.writeopen = (s.pipes p).writeopen)
    (data : pipe.data.isSome = (s.pipes p).data.isSome) : s.SameEnds s' := by
  intro q
  rw [pipes]
  by_cases same : q = p
  · subst same
    rw [Function.update_self]
    exact ⟨readopen, writeopen, data⟩
  · rw [Function.update_of_ne same]
    exact ⟨rfl, rfl, rfl⟩

/-- `pipe_read` neither closes an end nor frees the buffer. -/
theorem pipeRead_sameEnds (result : pipeRead s t p buf n = some (s', obs)) : s.SameEnds s' := by
  rcases pipeRead_cases result with ⟨_, _, _, rfl⟩ | ⟨_, pipe, copies, looped, _, rfl⟩
  · exact .of_update (rrschedblock_readq_pipes ..) rfl rfl rfl
  · have advanced := pipeReadCopy_pipe (by bv_omega) looped
    have copied : s.SameEnds (s.setPipe p pipe) :=
      .of_update (setPipe_pipes ..) (by simp [advanced]) (by simp [advanced]) (by simp [advanced])
    exact copied.trans (.of_update (rrschedwake_writeq_pipes ..) rfl rfl rfl)

/-- `pipe_write` neither closes an end nor frees the buffer. -/
theorem pipeWrite_sameEnds (result : pipeWrite s t p buf n src written = some (s', obs)) :
    s.SameEnds s' := by
  have woken : ∀ s : RRSched, s.SameEnds (s.rrschedwake (.readq p)) :=
    fun s => .of_update (rrschedwake_readq_pipes s p) rfl rfl rfl
  refine pipeWrite_induct (motive := fun s _ s' _ => s.SameEnds s') ?_ ?_ ?_ ?_ result
  · intro s _ _ q
    exact ⟨rfl, rfl, rfl⟩
  · intro s _ _ _ _
    exact (woken s).trans (.of_update (rrschedblock_writeq_pipes ..) rfl rfl rfl)
  · intro s written s' pipe bytes rest _ _ _ _ copied ih
    obtain ⟨data, present, _, rfl⟩ := Pipe.copyIn_eq_some copied
    exact .trans (.of_update (setPipe_pipes s p (((s.pipes p).setData _).advanceWrite _))
      rfl rfl (by simp [present])) ih
  · intro s _
    exact woken s

/-- A pipe with an open end still has its buffer. -/
def RRSched.Buffered (s : RRSched) : Prop :=
  ∀ p isRead, s.endOpen p isRead = true → (s.pipes p).data.isSome

/-- A step with the same ends keeps the buffers of the open pipes. -/
theorem RRSched.SameEnds.buffered (same : s.SameEnds s') (buffered : s.Buffered) :
    s'.Buffered := by
  intro q isRead isOpen
  obtain ⟨readopen, writeopen, data⟩ := same q
  rw [data]
  refine buffered q isRead ?_
  rwa [endOpen, readopen, writeopen] at isOpen

/-- `pipe_close` frees the buffer only when it closes the second end. -/
theorem pipeClose_buffered (buffered : s.Buffered) (isRead : Bool) :
    (pipeClose s p isRead).Buffered := by
  obtain ⟨pipe, pipes, _, _, readopen, writeopen, _, _, data⟩ := pipeClose_pipes s p isRead
  intro q isReadEnd isOpen
  rw [endOpen, pipes] at isOpen
  rw [pipes]
  by_cases same : q = p
  · subst same
    rw [Function.update_self] at isOpen ⊢
    have present : (s.pipes q).data.isSome := by
      refine buffered q isReadEnd ?_
      cases isReadEnd <;> simp_all [endOpen]
    have stillOpen : (pipe.readopen || pipe.writeopen) = true := by
      cases isReadEnd <;> simp_all
    rwa [data, if_pos stillOpen]
  · rw [Function.update_of_ne same] at isOpen ⊢
    exact buffered q isReadEnd isOpen

/-- One step keeps the buffers of the open pipes. -/
theorem RRSched.Buffered.step {event : PipeEvent} (buffered : s.Buffered)
    (stepped : RRSched.step s event = some (s', obs)) : s'.Buffered := by
  rcases step_cases stepped with ⟨pipes, _⟩ | ⟨r, t, p, buf, n, pipes, read⟩ |
    ⟨r, t, p, buf, n, src, written, pipes, write⟩ | ⟨t, p, isRead, _, rfl, _⟩
  · exact SameEnds.buffered (fun q => by rw [pipes]; exact ⟨rfl, rfl, rfl⟩) buffered
  · refine (pipeRead_sameEnds read).buffered ?_
    intro q isRead isOpen
    rw [endOpen, pipes] at isOpen
    rw [pipes]
    exact buffered q isRead isOpen
  · refine (pipeWrite_sameEnds write).buffered ?_
    intro q isRead isOpen
    rw [endOpen, pipes] at isOpen
    rw [pipes]
    exact buffered q isRead isOpen
  · exact pipeClose_buffered buffered isRead

/-- No call on an open end of a pipe gets stuck: it blocks or returns, and its
copies stay inside the buffer. -/
theorem RRSched.pipe_call_enabled {added : List Tid} {data : PipeId → Nat → Byte}
    (run : Run RRSched.step (Always _ _) (initial added data) trace s)
    (user : s.userThread = some t) :
    (s.endOpen p true = true → (RRSched.step s (.read p buf n)).isSome) ∧
    (s.endOpen p false = true → (RRSched.step s (.write p buf n src)).isSome) := by
  have streams := streams_of_run run
  have buffered : s.Buffered :=
    run.stateInvariant RRSched.Buffered (fun _ _ _ => rfl)
      fun buffered _ stepped => buffered.step stepped
  constructor
  · intro isOpen
    simpa [RRSched.step, user] using pipeRead_isSome (streams p).avail_le (buffered p true isOpen)
  · intro isOpen
    simpa [RRSched.step, user] using pipeWrite_isSome (streams p).avail_le (buffered p false isOpen)

end Lps.Linux

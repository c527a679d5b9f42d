import Lps.Linux.PipeSpec
import Lps.Linux.Sys

/-!
# Where the read and write calls touch the sandbox

A call that was given a buffer touches no other memory of the sandbox side, also
when it is continued after it blocked.  The buffer lies in the caller's box
whenever `bufcheck` accepts it and its end does not wrap around into the box.
-/

namespace Lps.Linux

open Lps.Core Lps.Ring Lps.Transition RRSched

/-! ## What `bufcheck` accepts -/

/-- The buffers on which `bufcheck` decides rightly: all but the aligned ones
that start in the box, wrap around the end of the address space and end at or
above the base of the box. -/
def NoWrapIntoBox (box : BoxRange) (p size align : Word) : Prop :=
  size = 0 ∨ p.toNat + size.toNat ≤ 2 ^ 64 + box.base.toNat ∨
    ptrcheck box.toLPSBoxInfo p = false ∨ p % align ≠ 0

instance (box : BoxRange) (p size align : Word) :
    Decidable (NoWrapIntoBox box p size align) :=
  inferInstanceAs (Decidable (_ ∨ _ ∨ _ ∨ _))

theorem bufcheck_iff {box : LPSBoxInfo} {p size align : Word} :
    bufcheck box p size align = true ↔
      ptrcheck box p = true ∧ ptrcheck box (p + size - 1) = true ∧ p % align = 0 := by
  unfold bufcheck
  cases ptrcheck box p <;> cases ptrcheck box (p + size - 1) <;> simp

/-- An accepted buffer lies in the box exactly when it does not wrap into it. -/
theorem bufcheck_subset_iff (box : BoxRange) (p size align : Word) :
    (bufcheck box.toLPSBoxInfo p size align = true → bytesAt p size.toNat ⊆ box.bytes) ↔
      NoWrapIntoBox box p size align := by
  rw [bufcheck_iff]
  constructor
  · intro confined
    by_contra hole
    simp only [NoWrapIntoBox, not_or, Bool.not_eq_false, not_not] at hole
    obtain ⟨nonzero, reaches, first, aligned⟩ := hole
    obtain ⟨inBox, noWrap⟩ := lpsBoxPtrvalid_iff.mp first
    simp only [LPSBoxInfo.bytes, bytesAt, Set.mem_Ico] at inBox
    have last : ptrcheck box.toLPSBoxInfo (p + size - 1) = true := by
      refine lpsBoxPtrvalid_iff.mpr ⟨?_, noWrap⟩
      simp only [LPSBoxInfo.bytes, bytesAt, Set.mem_Ico]
      bv_omega
    have inside := confined ⟨first, last, aligned⟩
    rw [LPSBoxInfo.bytes, bytesAt.eq_def box.base, bytesAt_subset_iff (by bv_omega)] at inside
    omega
  · rintro sound ⟨first, last, aligned⟩
    obtain ⟨firstIn, noWrap⟩ := lpsBoxPtrvalid_iff.mp first
    have lastIn := (lpsBoxPtrvalid_iff.mp last).1
    simp only [LPSBoxInfo.bytes, bytesAt, Set.mem_Ico] at firstIn lastIn
    rcases sound with empty | short | rejected | misaligned
    · simp [empty]
    · by_cases empty : size = 0
      · simp [empty]
      · rw [LPSBoxInfo.bytes, bytesAt.eq_def box.base, bytesAt_subset_iff (by bv_omega)]
        bv_omega
    · rw [first] at rejected
      contradiction
    · contradiction

/-! ## What a call touches -/

/-- An access on behalf of `t` stays inside the buffer of `size` bytes at `buf`. -/
def PipeObs.Within (t : Tid) (buf size : Word) : PipeObs → Prop
  | .access u addr len =>
      u = t ∧ ∃ offset : Word, addr = buf + offset ∧ offset.toNat + len ≤ size.toNat
  | _ => True

/-- The buffer of a suspended pipe call. -/
def PipeCall.buffer : PipeCall → Word × Word
  | .read _ buf n => (buf, n)
  | .write _ buf n _ => (buf, n)

variable {s s' : RRSched} {t : Tid} {p : PipeId} {buf n written : Word} {obs : List PipeObs}
  {src : Nat → Byte}

/-- A chunk that starts at `done` and is no longer than the rest of the buffer. -/
theorem within_of_chunk {done chunk : Word} {len : Nat} (more : done < n)
    (le : chunk ≤ n - done) (length : len = chunk.toNat) :
    (PipeObs.access t (buf + done) len).Within t buf n := by
  refine ⟨rfl, done, rfl, ?_⟩
  rw [length]
  bv_omega

/-- The copy loop of `pipe_read` stays inside the first `toRead` bytes of its buffer. -/
theorem pipeReadCopy_within {pipe pipe' : Pipe} {toRead copied : Word}
    (result : pipeReadCopy t p buf toRead pipe copied = some (pipe', obs)) :
    ∀ o ∈ obs, o.Within t buf toRead := by
  fun_induction pipeReadCopy t p buf toRead pipe copied generalizing pipe' obs with
  | case1 pipe copied more ih =>
      obtain ⟨bytes, rest, out, looped, rfl⟩ := pipeReadCopy_cons more (by
        rw [pipeReadCopy, dif_pos more]; exact result)
      obtain ⟨data, _, _, rfl⟩ := Pipe.copyOut_eq_some out
      simp only [List.forall_mem_cons]
      exact ⟨within_of_chunk more (readChunk_le _ _) (length_load ..), trivial,
        ih looped⟩
  | case2 pipe copied done =>
      simp only [Option.some.injEq, Prod.mk.injEq] at result
      simp [← result.2]

/-- Staying inside a buffer is staying inside any longer one. -/
theorem PipeObs.Within.mono {o : PipeObs} {short long : Word} (le : short ≤ long)
    (inside : o.Within t buf short) : o.Within t buf long := by
  cases o with
  | access u addr len =>
      obtain ⟨same, offset, at_, fits⟩ := inside
      exact ⟨same, offset, at_, fits.trans le⟩
  | copied p bytes => trivial
  | delivered p bytes => trivial
  | returned u value => trivial

/-- `pipe_read` touches its buffer only. -/
theorem pipeRead_within (result : pipeRead s t p buf n = some (s', obs)) :
    ∀ o ∈ obs, o.Within t buf n := by
  rcases pipeRead_cases result with ⟨_, _, rfl, _⟩ | ⟨_, pipe, copies, looped, rfl, _⟩
  · simp
  · intro o mem
    rcases List.mem_append.mp mem with copy | last
    · exact (pipeReadCopy_within looped o copy).mono (readSize_le_size _ _)
    · rw [List.mem_singleton.mp last]
      trivial

/-- `pipe_write` touches its buffer only. -/
theorem pipeWrite_within (result : pipeWrite s t p buf n src written = some (s', obs)) :
    ∀ o ∈ obs, o.Within t buf n := by
  refine pipeWrite_induct (motive := fun _ _ _ obs => ∀ o ∈ obs, o.Within t buf n)
    ?_ ?_ ?_ ?_ result
  · simp [PipeObs.Within]
  · simp
  · intro s written s' pipe bytes rest more _ _ taken _ ih
    simp only [List.forall_mem_cons]
    exact ⟨within_of_chunk more (writeChunk_le _ _) (by rw [taken, length_load]), trivial, ih⟩
  · simp [PipeObs.Within]

/-! ## Which calls are suspended -/

namespace RRSched

@[simp]
theorem setPipe_threads (s : RRSched) (p : PipeId) (pipe : Pipe) :
    (s.setPipe p pipe).threads = s.threads :=
  rfl

@[simp]
theorem threadExit_threads (s : RRSched) (t : Tid) : (s.threadExit t).threads = s.threads :=
  rfl

@[simp]
theorem setWaiting_threads (s : RRSched) (queue : Queue) (q : WaitQueue) :
    (s.setWaiting queue q).threads = s.threads := by
  cases q <;> rfl

/-- Waking threads leaves their kernel stacks alone. -/
@[simp]
theorem wakeAll_call (s : RRSched) (queue : Queue) (u : Tid) :
    ((s.wakeAll queue).threads u).call = (s.threads u).call := by
  induction queue generalizing s with
  | nil => rfl
  | cons t rest ih =>
      rw [wakeAll, ih]
      by_cases same : u = t
      · subst same
        simp [setThread]
      · simp [setThread, same]

@[simp]
theorem rrschedwake_call (s : RRSched) (q : WaitQueue) (u : Tid) :
    ((s.rrschedwake q).threads u).call = (s.threads u).call := by
  simp [rrschedwake]

/-- A thread that blocks leaves its call on its own kernel stack. -/
theorem rrschedblock_call {s : RRSched} {q : WaitQueue} {call other : PipeCall} {u : Tid}
    (suspended : ((s.rrschedblock t q call).threads u).call = some other) :
    (u = t ∧ other = call) ∨ (s.threads u).call = some other := by
  by_cases same : u = t
  · subst same
    left
    simpa [rrschedblock, setThread, eq_comm] using suspended
  · right
    simpa [rrschedblock, setThread, same] using suspended

end RRSched

/-- A call that is suspended after `pipe_read` was suspended before, or is this
call. -/
theorem pipeRead_suspended (result : pipeRead s t p buf n = some (s', obs)) {u : Tid}
    {call : PipeCall} (suspended : (s'.threads u).call = some call) :
    (u = t ∧ call = .read p buf n) ∨ (s.threads u).call = some call := by
  rcases pipeRead_cases result with ⟨_, _, _, rfl⟩ | ⟨_, pipe, _, _, _, rfl⟩
  · rcases rrschedblock_call suspended with ⟨same, rfl⟩ | before
    · exact .inl ⟨same, rfl⟩
    · exact .inr before
  · exact .inr (by simpa using suspended)

/-- A call that is suspended after `pipe_write` was suspended before, or is this
call. -/
theorem pipeWrite_suspended (result : pipeWrite s t p buf n src written = some (s', obs))
    {u : Tid} {call : PipeCall} (suspended : (s'.threads u).call = some call) :
    (u = t ∧ ∃ done, call = .write p buf n done) ∨ (s.threads u).call = some call := by
  revert suspended
  refine pipeWrite_induct (motive := fun s _ s' _ => (s'.threads u).call = some call →
    (u = t ∧ ∃ done, call = .write p buf n done) ∨ (s.threads u).call = some call) ?_ ?_ ?_ ?_ result
  · intro s _ _ suspended
    exact .inr suspended
  · intro s written _ _ _ suspended
    rcases rrschedblock_call suspended with ⟨same, rfl⟩ | before
    · exact .inl ⟨same, written, rfl⟩
    · exact .inr (by simpa using before)
  · intro s written s' pipe bytes rest _ _ _ _ _ ih suspended
    simpa using ih suspended
  · intro s _ suspended
    exact .inr (by simpa using suspended)

/-! ## Confinement of whole runs -/

/-- The access of an observation lies in the box of the thread it is made for. -/
def PipeObs.Confined (box : Tid → BoxRange) : PipeObs → Prop
  | .access t addr len => bytesAt addr len ⊆ (box t).bytes
  | _ => True

/-- Staying inside a buffer that lies in the box is staying in the box. -/
theorem PipeObs.Within.confined {box : Tid → BoxRange} {o : PipeObs}
    (within : o.Within t buf n) (inBox : bytesAt buf n.toNat ⊆ (box t).bytes) :
    o.Confined box := by
  cases o with
  | access u addr len =>
      obtain ⟨rfl, offset, rfl, fits⟩ := within
      by_cases empty : len = 0
      · simp [PipeObs.Confined, empty]
      · have boxFits := (box u).fits
        simp only [PipeObs.Confined, LPSBoxInfo.bytes] at inBox ⊢
        rw [bytesAt.eq_def (box u).base, bytesAt_subset_iff (by omega)] at inBox ⊢
        bv_omega
  | copied p bytes => trivial
  | delivered p bytes => trivial
  | returned u value => trivial

/-- The buffer of every suspended call lies in the box of its thread. -/
def RRSched.BuffersIn (box : Tid → BoxRange) (s : RRSched) : Prop :=
  ∀ t call, (s.threads t).call = some call →
    bytesAt call.buffer.1 call.buffer.2.toNat ⊆ (box t).bytes

/-- What a stretch of a call with a confined buffer does. -/
def RRSched.Stretch (box : Tid → BoxRange) (s : RRSched) (obs : List PipeObs) : Prop :=
  s.BuffersIn box ∧ ∀ o ∈ obs, o.Confined box

section Confinement

variable {box : Tid → BoxRange}

/-- `pipe_read` on a buffer in the box. -/
theorem pipeRead_stretch (buffers : s.BuffersIn box)
    (inBox : bytesAt buf n.toNat ⊆ (box t).bytes)
    (result : pipeRead s t p buf n = some (s', obs)) : s'.Stretch box obs := by
  constructor
  · intro u call suspended
    rcases pipeRead_suspended result suspended with ⟨rfl, rfl⟩ | before
    · exact inBox
    · exact buffers u call before
  · intro o mem
    exact (pipeRead_within result o mem).confined inBox

/-- `pipe_write` on a buffer in the box. -/
theorem pipeWrite_stretch (buffers : s.BuffersIn box)
    (inBox : bytesAt buf n.toNat ⊆ (box t).bytes)
    (result : pipeWrite s t p buf n src written = some (s', obs)) : s'.Stretch box obs := by
  constructor
  · intro u call suspended
    rcases pipeWrite_suspended result suspended with ⟨rfl, done, rfl⟩ | before
    · exact inBox
    · exact buffers u call before
  · intro o mem
    exact (pipeWrite_within result o mem).confined inBox

/-- Steps after which no more calls are suspended, and which observe nothing. -/
theorem RRSched.BuffersIn.stretch_nil (buffers : s.BuffersIn box)
    (calls : ∀ u call, (s'.threads u).call = some call → (s.threads u).call = some call) :
    s'.Stretch box [] := by
  constructor
  · intro u call suspended
    exact buffers u call (calls u call suspended)
  · intro o mem
    contradiction

/-- Taking a call off its kernel stack, or exiting, suspends nothing. -/
theorem RRSched.setThread_none_call {state : LPSThreadState} {u : Tid} {call : PipeCall}
    (suspended : ((s.setThread t { state := state, call := none }).threads u).call = some call) :
    (s.threads u).call = some call := by
  by_cases same : u = t
  · subst same
    simp [setThread] at suspended
  · simpa [setThread, same] using suspended

@[simp]
theorem pipeClose_call (s : RRSched) (p : PipeId) (isRead : Bool) (u : Tid) :
    ((pipeClose s p isRead).threads u).call = (s.threads u).call := by
  simp only [pipeClose]
  split <;> simp

/-- The steps of the scheduler that are not a new call. -/
theorem RRSched.step_stretch {event : PipeEvent} (buffers : s.BuffersIn box)
    (notTransfer : event.isTransfer = false)
    (stepped : RRSched.step s event = some (s', obs)) : s'.Stretch box obs := by
  cases event with
  | pick =>
      simp only [RRSched.step] at stepped
      split at stepped
      · simp only [Option.some.injEq, Prod.mk.injEq] at stepped
        obtain ⟨rfl, rfl⟩ := stepped
        exact buffers.stretch_nil fun _ _ suspended => suspended
      · contradiction
  | read p buf n => contradiction
  | write p buf n src => contradiction
  | close p isRead =>
      simp only [RRSched.step, Option.bind_eq_bind, Option.bind_eq_some_iff] at stepped
      obtain ⟨t, _, closed⟩ := stepped
      split at closed
      · simp only [Option.some.injEq, Prod.mk.injEq] at closed
        obtain ⟨rfl, rfl⟩ := closed
        refine ⟨fun u call suspended => buffers u call (by simpa using suspended), ?_⟩
        simp [PipeObs.Confined]
      · contradiction
  | resume src =>
      simp only [RRSched.step, Option.bind_eq_bind, Option.bind_eq_some_iff] at stepped
      obtain ⟨t, _, call, isSuspended, called⟩ := stepped
      have inBox := buffers t call isSuspended
      have others : (s.setThread t { state := (s.threads t).state, call := none }).BuffersIn box :=
        fun u other suspended => buffers u other (setThread_none_call suspended)
      cases call with
      | read p buf n => exact pipeRead_stretch others inBox called
      | write p buf n written => exact pipeWrite_stretch others inBox called
  | yield =>
      simp only [RRSched.step, Option.bind_eq_bind, Option.bind_eq_some_iff, Option.some.injEq,
        Prod.mk.injEq] at stepped
      obtain ⟨t, _, rfl, rfl⟩ := stepped
      exact buffers.stretch_nil fun _ _ suspended => suspended
  | exit =>
      simp only [RRSched.step, Option.bind_eq_bind, Option.bind_eq_some_iff, Option.some.injEq,
        Prod.mk.injEq] at stepped
      obtain ⟨t, _, rfl, rfl⟩ := stepped
      exact buffers.stretch_nil fun _ _ suspended => setThread_none_call suspended

/-- The host transfers no more than the buffer. -/
theorem hostTransfer_within {io : HostIO} (result : hostTransfer t buf n io = some obs) :
    ∀ o ∈ obs, o.Within t buf n := by
  cases io with
  | done count =>
      simp only [hostTransfer] at result
      split at result
      · rename_i le
        simp only [Option.some.injEq] at result
        subst result
        simp only [List.forall_mem_cons]
        refine ⟨⟨rfl, 0, by simp, ?_⟩, trivial, by simp⟩
        bv_omega
      · contradiction
  | failed value =>
      simp only [hostTransfer, Option.some.injEq] at result
      subst result
      simp [PipeObs.Within]

end Confinement

section System

variable {proc : Tid → ProcId} {box : ProcId → BoxRange} {sys sys' : LPSSys} {fd : Int}
  {bufp size : Word} {io : HostIO}

/-- The condition on a system call: the buffer check decides rightly on its
buffer. -/
def BufferOk (proc : Tid → ProcId) (box : ProcId → BoxRange) (s : LPSSys) : SysEvent → Prop
  | .read _ bufp size _ =>
      ∀ t, s.sched.userThread = some t → NoWrapIntoBox (box (proc t)) bufp size 1
  | .write _ bufp size _ _ =>
      ∀ t, s.sched.userThread = some t → NoWrapIntoBox (box (proc t)) bufp size 1
  | _ => True

/-- A buffer `bufhost` lets through lies in the box. -/
theorem bufhost_subset {b : BoxRange} (sound : NoWrapIntoBox b bufp size 1)
    (accepted : bufhost b.toLPSBoxInfo bufp size 1 ≠ 0) :
    bytesAt (bufhost b.toLPSBoxInfo bufp size 1) size.toNat ⊆ b.bytes := by
  unfold bufhost at *
  split at accepted
  · contradiction
  · rename_i checked
    rw [if_neg checked]
    exact (bufcheck_subset_iff b bufp size 1).mpr sound (by simpa using checked)

/-- A read or write call fails at a check, or runs the file's function on a
buffer `bufhost` let through. -/
theorem sysTransfer_cases {α : Type} {op : FDFile → Option α}
    {call : α → Word → Option (LPSSys × List PipeObs)}
    (result : sysTransfer proc box sys t fd bufp size op call = some (sys', obs)) :
    (sys' = sys ∧ ∃ value, obs = [.returned t value]) ∨
    (bufhost (box (proc t)).toLPSBoxInfo bufp size 1 ≠ 0 ∧
      ∃ function,
        call function (bufhost (box (proc t)).toLPSBoxInfo bufp size 1) = some (sys', obs)) := by
  have fails : ∀ value, (sys, [PipeObs.returned t value]) = (sys', obs) →
      sys' = sys ∧ ∃ value, obs = [.returned t value] := by
    rintro value pair
    cases pair
    exact ⟨rfl, value, rfl⟩
  simp only [sysTransfer] at result
  split at result
  · exact .inl (fails _ (Option.some.inj result))
  split at result
  · exact .inl (fails _ (Option.some.inj result))
  split at result
  · exact .inl (fails _ (Option.some.inj result))
  split at result
  · exact .inl (fails _ (Option.some.inj result))
  · rename_i function _ accepted
    exact .inr ⟨accepted, function, result⟩

/-- A system call on a buffer the check decides rightly, when its file's function
stays inside the buffer it is given. -/
theorem sysTransfer_stretch {α : Type} {op : FDFile → Option α}
    {call : α → Word → Option (LPSSys × List PipeObs)}
    (buffers : sys.sched.BuffersIn (box ∘ proc))
    (sound : NoWrapIntoBox (box (proc t)) bufp size 1)
    (function : ∀ {f buf}, bytesAt buf size.toNat ⊆ (box (proc t)).bytes →
      call f buf = some (sys', obs) → sys'.sched.Stretch (box ∘ proc) obs)
    (result : sysTransfer proc box sys t fd bufp size op call = some (sys', obs)) :
    sys'.sched.Stretch (box ∘ proc) obs := by
  rcases sysTransfer_cases result with ⟨rfl, value, rfl⟩ | ⟨accepted, f, called⟩
  · exact ⟨buffers, by simp [PipeObs.Confined]⟩
  · exact function (bufhost_subset sound accepted) called

/-- `sys_read` on a buffer the check decides rightly. -/
theorem sysRead_stretch (buffers : sys.sched.BuffersIn (box ∘ proc))
    (sound : NoWrapIntoBox (box (proc t)) bufp size 1)
    (result : sysRead proc box sys t fd bufp size io = some (sys', obs)) :
    sys'.sched.Stretch (box ∘ proc) obs := by
  refine sysTransfer_stretch buffers sound ?_ result
  intro read buf inBox called
  cases read with
  | kread =>
      simp only [Option.map_eq_some_iff] at called
      obtain ⟨obs, transferred, pair⟩ := called
      cases pair
      exact ⟨buffers, fun o mem => (hostTransfer_within transferred o mem).confined inBox⟩
  | pipeRead p =>
      simp only [Option.map_eq_some_iff] at called
      obtain ⟨⟨r, obs⟩, read, pair⟩ := called
      cases pair
      exact pipeRead_stretch buffers inBox read

/-- `sys_write` on a buffer the check decides rightly. -/
theorem sysWrite_stretch (buffers : sys.sched.BuffersIn (box ∘ proc))
    (sound : NoWrapIntoBox (box (proc t)) bufp size 1)
    (result : sysWrite proc box sys t fd bufp size src io = some (sys', obs)) :
    sys'.sched.Stretch (box ∘ proc) obs := by
  refine sysTransfer_stretch buffers sound ?_ result
  intro write buf inBox called
  cases write with
  | kwrite =>
      simp only [Option.map_eq_some_iff] at called
      obtain ⟨obs, transferred, pair⟩ := called
      cases pair
      exact ⟨buffers, fun o mem => (hostTransfer_within transferred o mem).confined inBox⟩
  | pipeWrite p =>
      simp only [Option.map_eq_some_iff] at called
      obtain ⟨⟨r, obs⟩, written, pair⟩ := called
      cases pair
      exact pipeWrite_stretch buffers inBox written

/-- One step whose buffer the check decides rightly. -/
theorem LPSSys.step_stretch {event : SysEvent} (buffers : sys.sched.BuffersIn (box ∘ proc))
    (allowed : BufferOk proc box sys event)
    (stepped : LPSSys.step proc box sys event = some (sys', obs)) :
    sys'.sched.Stretch (box ∘ proc) obs := by
  cases event with
  | sched event =>
      simp only [LPSSys.step] at stepped
      split at stepped
      · contradiction
      · rename_i notTransfer
        simp only [Option.map_eq_some_iff] at stepped
        obtain ⟨⟨r, obs⟩, stepped, pair⟩ := stepped
        cases pair
        exact RRSched.step_stretch buffers (by simpa using notTransfer) stepped
  | assign fd file =>
      simp only [LPSSys.step, Option.bind_eq_bind, Option.bind_eq_some_iff, Option.some.injEq,
        Prod.mk.injEq] at stepped
      obtain ⟨t, _, rfl, rfl⟩ := stepped
      exact ⟨buffers, by simp⟩
  | read fd bufp size io =>
      simp only [LPSSys.step, Option.bind_eq_bind, Option.bind_eq_some_iff] at stepped
      obtain ⟨t, user, called⟩ := stepped
      exact sysRead_stretch buffers (allowed t user) called
  | write fd bufp size src io =>
      simp only [LPSSys.step, Option.bind_eq_bind, Option.bind_eq_some_iff] at stepped
      obtain ⟨t, user, called⟩ := stepped
      exact sysWrite_stretch buffers (allowed t user) called

/-- The buffer check decides rightly on exactly the buffers that do not wrap into
the box, and a run whose calls all have such buffers touches sandbox memory in
the caller's box only. -/
theorem sys_buffers_confined (proc : Tid → ProcId) (box : ProcId → BoxRange) :
    (∀ (sandbox : BoxRange) (p size align : Word),
      (bufcheck sandbox.toLPSBoxInfo p size align = true → bytesAt p size.toNat ⊆ sandbox.bytes) ↔
        NoWrapIntoBox sandbox p size align) ∧
    (∀ (source target : LPSSys) (trace : List PipeObs),
      (∀ t, (source.sched.threads t).call = none) →
      Run (LPSSys.step proc box) (BufferOk proc box) source trace target →
      ∀ t addr len, .access t addr len ∈ trace →
        bytesAt addr len ⊆ (box (proc t)).bytes) := by
  refine ⟨bufcheck_subset_iff, ?_⟩
  intro source target trace noCall run t addr len mem
  have initial : source.sched.BuffersIn (box ∘ proc) := by
    intro u call suspended
    rw [noCall u] at suspended
    contradiction
  refine run.forall_observed (fun sys => sys.sched.BuffersIn (box ∘ proc))
    (PipeObs.Confined (box ∘ proc)) initial ?_ _ mem
  intro observed state next event buffers allowed stepped
  exact LPSSys.step_stretch buffers allowed stepped

end System

/-- A host file read into the last bytes of a box. -/
theorem sys_buffers_confined_last_bytes :
    ∃ box : BoxRange, ∃ source target trace,
      Run (LPSSys.step (fun _ => 0) fun _ => box) (BufferOk (fun _ => 0) fun _ => box)
        source trace target ∧
      .access 1 0x10ff8 8 ∈ trace ∧ bytesAt 0x10ff8 8 ⊆ box.bytes := by
  let box : BoxRange := ⟨⟨0x10000, 0x1000⟩, by decide⟩
  let source : LPSSys :=
    ⟨{ initial [] fun _ _ => 0 with current := some 1 }, fun _ _ => some filenew⟩
  have accepted : bufhost box.toLPSBoxInfo 0x10ff8 8 1 = 0x10ff8 := by decide
  have read : LPSSys.step (fun _ => 0) (fun _ => box) source (.read 1 0x10ff8 8 (.done 8)) =
      some (source, [.access 1 0x10ff8 8, .returned 1 8]) := by
    have user : source.sched.userThread = some 1 := rfl
    have file : fdfget (source.fdtable 0) 1 = some filenew := rfl
    have transfer : hostTransfer 1 0x10ff8 8 (.done 8) =
        some [.access 1 0x10ff8 8, .returned 1 8] := by decide
    simp only [LPSSys.step, user, Option.bind_eq_bind, Option.bind_some, sysRead, sysTransfer,
      file, accepted, filenew, transfer, Option.map_some]
    rfl
  have sound : NoWrapIntoBox box 0x10ff8 8 1 := .inr (.inl (by decide))
  have allowed : BufferOk (fun _ => 0) (fun _ => box) source (.read 1 0x10ff8 8 (.done 8)) :=
    fun _ _ => sound
  have run := Run.single allowed read
  have mem : PipeObs.access 1 0x10ff8 8 ∈ [PipeObs.access 1 0x10ff8 8, .returned 1 8] := by
    simp
  exact ⟨box, source, _, _, run, mem,
    (sys_buffers_confined _ _).2 source _ _ (fun _ => rfl) run 1 0x10ff8 8 mem⟩

/-! ## The buffer that wraps -/

/-- Two boxes of one page next to each other. -/
def adjacentBoxes : ProcId → BoxRange
  | 0 => ⟨⟨0x10000, 0x1000⟩, by decide⟩
  | _ => ⟨⟨0x11000, 0x1000⟩, by decide⟩

/-- Thread `1` of process `0` can read from the pipe thread `2` of process `1`
can write to. -/
def pipeBetween : LPSSys where
  sched := initial [2, 1] fun _ _ => 0
  fdtable := fun proc fd =>
    if fd = 3 then some (pipeEnd 0 (proc = 0)) else none

/-- The buffer of `2 ^ 64 - 1` bytes at the last byte of a box is accepted, and a
read of two bytes into it writes to the box behind it. -/
theorem wrapping_buffer_escapes :
    (bufcheck (adjacentBoxes 0).toLPSBoxInfo 0x10fff (-1) 1 = true ∧
      ¬bytesAt 0x10fff (-1 : Word).toNat ⊆ (adjacentBoxes 0).bytes) ∧
    ∃ trace target,
      Run (LPSSys.step (fun t => t - 1) adjacentBoxes) (Always _ _) pipeBetween trace target ∧
      .access 1 0x10fff 2 ∈ trace ∧ ¬bytesAt 0x10fff 2 ⊆ (adjacentBoxes 0).bytes := by
  have outside : ∀ len : Nat, 1 < len → ¬bytesAt 0x10fff len ⊆ (adjacentBoxes 0).bytes := by
    intro len long inside
    rw [LPSBoxInfo.bytes, bytesAt.eq_def (adjacentBoxes 0).base,
      bytesAt_subset_iff (by omega)] at inside
    simp [adjacentBoxes] at inside
    omega
  refine ⟨⟨by decide, outside _ (by decide)⟩, ?_⟩
  have seen : (exec (LPSSys.step (fun t => t - 1) adjacentBoxes) pipeBetween
      [.sched .pick, .write 3 0x11000 2 (fun _ => 7) (.failed 0), .sched .yield,
        .sched .pick, .read 3 0x10fff (-1) (.failed 0)]).map Prod.snd =
      some [.access 2 0x11000 2, .copied 0 [7, 7], .returned 2 2,
        .access 1 0x10fff 2, .delivered 0 [7, 7], .returned 1 2] := by
    decide +kernel
  obtain ⟨⟨target, trace⟩, executed, isTrace⟩ := Option.map_eq_some_iff.mp seen
  refine ⟨trace, target, run_of_exec executed, ?_, outside 2 (by decide)⟩
  rw [show trace = _ from isTrace]
  decide

end Lps.Linux

import Lps.Linux.FdPipe

/-!
# Making a pipe

`lps_pipe_new` takes an entry of the static array, memory for the buffer, the two files and what
they refer to, and a slot in each of two descriptor tables.  When one of these cannot be had, what
was taken before is given back in part.  Memory that is lost on the way is not modelled.
-/

namespace Lps.Linux

open Lps.Core

/-- What `pipe_new` gets from `malloc`, in order, with what is stored there. -/
structure PipeMallocs where
  data : Option (Nat → Byte)
  p0 : Option Junk
  p1 : Option Junk
  rend : Bool
  wend : Bool

/-- There is memory for all of it. -/
def PipeMallocs.Succeed (m : PipeMallocs) : Prop :=
  m.data ≠ none ∧ m.p0 ≠ none ∧ m.p1 ≠ none ∧ m.rend = true ∧ m.wend = true

instance (m : PipeMallocs) : Decidable m.Succeed := by
  unfold PipeMallocs.Succeed
  cases m.data <;> cases m.p0 <;> cases m.p1 <;> infer_instance

namespace FdPipes

/-- An entry of the array that `pipe_new` has set up, and given back. -/
def abandoned (data : Option (Nat → Byte)) : Pipe :=
  { RRSched.newPipe (fun _ => 0) with data, allocated := false }

/-- `pipe_new`: the entry that was taken with the memory of the two files, and the pipes. -/
def pipeNew (s : FdPipes) (m : PipeMallocs) : Option (PipeId × Junk × Junk) × RRSched :=
  match s.unallocated with
  | none => (none, s.sched)
  | some q =>
      match m.data with
      | none => (none, s.sched.setPipe q (abandoned none))
      | some data =>
          match m.p0, m.p1 with
          | none, _ => (none, s.sched.setPipe q (abandoned (some data)))
          | some _, none => (none, s.sched.setPipe q (abandoned (some data)))
          | some readJunk, some writeJunk =>
              if !m.rend || !m.wend then (none, s.sched.setPipe q (abandoned none))
              else (some (q, readJunk, writeJunk), s.sched.setPipe q (RRSched.newPipe data))

/-- `lps_pipe_new` and what it returns. -/
def lpsPipeNewWith (s : FdPipes) (m : PipeMallocs) (source : ProcId) (fromfd : Int) (target : ProcId)
    (tofd : Int) : Option (Bool × FdPipes) :=
  match s.pipeNew m with
  | (none, sched) => some (false, { s with sched })
  | (some (q, readJunk, writeJunk), sched) => do
      let readf := s.world.made
      let writef := s.world.made + 1
      let (ok, world, _) ← s.world.lpsPipeNew source fromfd target tofd q readJunk writeJunk
      some (ok,
        { s with
          sched
          world
          ends := Function.update s.ends q fun isRead =>
            if ok then some (if isRead then readf else writef) else none })

/-! ## All or nothing -/

/-- A descriptor refers to an end of a pipe. -/
def Refers (w : FdWorld) (p : ProcId) (fd : Int) (q : PipeId) (isRead : Bool) : Prop :=
  ∃ f file, w.fdfget p fd = some f ∧ w.files f = some file ∧ file.dev = .pipeEnd q isRead

/-- The two descriptors refer to the ends of a pipe that is new, and nothing else changed. -/
structure Connected (s s' : FdPipes) (source : ProcId) (fromfd : Int) (target : ProcId) (tofd : Int)
    (q : PipeId) : Prop where
  fresh : (s.sched.pipes q).allocated = false
  pipe : ∃ data, s'.sched = s.sched.setPipe q (RRSched.newPipe data)
  reader : Refers s'.world target tofd q true
  writer : Refers s'.world source fromfd q false
  others : ∀ p fd, (p, fd) ≠ (target, tofd.toNat) → (p, fd) ≠ (source, fromfd.toNat) →
    s'.world.table p fd = s.world.table p fd

/-- The tables and the pipes that are allocated are as before. -/
structure Undone (s s' : FdPipes) : Prop where
  tables : s'.world.table = s.world.table
  allocated : ∀ q, (s'.sched.pipes q).allocated = (s.sched.pipes q).allocated

/-- A call that returns true has connected a new pipe, and one that returns false has undone all. -/
def AllOrNothing (s : FdPipes) (source : ProcId) (fromfd : Int) (target : ProcId) (tofd : Int) :
    Option (Bool × FdPipes) → Prop
  | none => False
  | some (true, s') => ∃ q, Connected s s' source fromfd target tofd q
  | some (false, s') => Undone s s'

/-- The slots for the two ends can be had: they are in range, free, and not the same. -/
def SlotsFree (w : FdWorld) (source : ProcId) (fromfd : Int) (target : ProcId) (tofd : Int) : Prop :=
  FdWorld.InRange tofd ∧ FdWorld.InRange fromfd ∧ w.table target tofd.toNat = none ∧
    w.table source fromfd.toNat = none ∧ (target, tofd) ≠ (source, fromfd)

section PipeNew

variable {s : FdPipes} {m : PipeMallocs} {source target : ProcId} {fromfd tofd : Int} {q : PipeId}

/-- The entry that is taken was not allocated. -/
theorem allocated_of_unallocated (found : s.unallocated = some q) :
    (s.sched.pipes q).allocated = false := by
  have free := List.find?_some found
  simpa using free

/-- Giving the entry back leaves the entries allocated that were. -/
theorem allocated_abandoned (found : s.unallocated = some q) (data : Option (Nat → Byte))
    (other : PipeId) :
    ((s.sched.setPipe q (abandoned data)).pipes other).allocated = (s.sched.pipes other).allocated := by
  rw [RRSched.setPipe]
  dsimp only
  by_cases same : other = q
  · rw [same, Function.update_self, allocated_of_unallocated found]
    rfl
  · rw [Function.update_of_ne same]

/-- `pipe_new` that fails leaves the entries allocated that were. -/
theorem pipeNew_fails (fails : s.unallocated = none ∨ ¬m.Succeed) :
    ∃ sched, s.pipeNew m = (none, sched) ∧
      ∀ q, (sched.pipes q).allocated = (s.sched.pipes q).allocated := by
  cases found : s.unallocated with
  | none => exact ⟨s.sched, by rw [pipeNew, found], fun _ => rfl⟩
  | some q =>
      have lacks : ¬m.Succeed := fails.resolve_left (by rw [found]; nofun)
      obtain ⟨data, p0, p1, rend, wend⟩ := m
      have given := allocated_abandoned found
      unfold pipeNew
      rw [found]
      cases data with
      | none => exact ⟨_, rfl, given none⟩
      | some data =>
          cases p0 with
          | none => exact ⟨_, rfl, given (some data)⟩
          | some readJunk =>
              cases p1 with
              | none => exact ⟨_, rfl, given (some data)⟩
              | some writeJunk =>
                  cases rend with
                  | false => exact ⟨_, rfl, given none⟩
                  | true =>
                      cases wend with
                      | false => exact ⟨_, rfl, given none⟩
                      | true => exact absurd ⟨nofun, nofun, nofun, rfl, rfl⟩ lacks

/-- `pipe_new` that has all it needs sets up the entry. -/
theorem pipeNew_succeeds (found : s.unallocated = some q) (succeed : m.Succeed) :
    ∃ data readJunk writeJunk, s.pipeNew m =
      (some (q, readJunk, writeJunk), s.sched.setPipe q (RRSched.newPipe data)) := by
  obtain ⟨data, p0, p1, rend, wend⟩ := m
  obtain ⟨data, rfl⟩ := Option.ne_none_iff_exists'.mp succeed.1
  obtain ⟨readJunk, rfl⟩ := Option.ne_none_iff_exists'.mp succeed.2.1
  obtain ⟨writeJunk, rfl⟩ := Option.ne_none_iff_exists'.mp succeed.2.2.1
  obtain rfl : rend = true := succeed.2.2.2.1
  obtain rfl : wend = true := succeed.2.2.2.2
  refine ⟨data, readJunk, writeJunk, ?_⟩
  rw [pipeNew, found]
  rfl

/-- With memory for all of it this is `lps_pipe_new` on the tables and files. -/
theorem lpsPipeNewWith_succeeds (found : s.unallocated = some q) (succeed : m.Succeed) :
    ∃ data readJunk writeJunk, (s.lpsPipeNewWith m source fromfd target tofd).map Prod.snd =
      s.lpsPipeNew source fromfd target tofd data readJunk writeJunk := by
  obtain ⟨data, readJunk, writeJunk, made⟩ := pipeNew_succeeds found succeed
  refine ⟨data, readJunk, writeJunk, ?_⟩
  rw [lpsPipeNewWith, made, lpsPipeNew, found]
  dsimp only
  cases s.world.lpsPipeNew source fromfd target tofd q readJunk writeJunk with
  | none => rfl
  | some result => rfl

/-- The files of a pipe whose slots are free are found there. -/
theorem connected_of_slotsFree (found : s.unallocated = some q) (succeed : m.Succeed)
    (free : SlotsFree s.world source fromfd target tofd) :
    ∃ s', s.lpsPipeNewWith m source fromfd target tofd = some (true, s') ∧
      Connected s s' source fromfd target tofd q := by
  obtain ⟨data, readJunk, writeJunk, made⟩ := pipeNew_succeeds found succeed
  obtain ⟨toRange, fromRange, toFree, fromFree, apart⟩ := free
  have placed := @FdWorld.lpsPipeNew_spec s.world source target fromfd tofd q readJunk writeJunk toRange
    fromRange toFree fromFree apart
  have inRange : ∀ {fd : Int}, FdWorld.InRange fd → ¬(fd < 0 ∨ fd ≥ LINUX_NOFILE) := by
    rintro fd ⟨low, high⟩
    omega
  have slots : ¬(target = source ∧ tofd.toNat = fromfd.toNat) := by
    rintro ⟨rfl, same⟩
    have toLow := toRange.1
    have fromLow := fromRange.1
    exact apart (Prod.ext rfl (by omega))
  rw [lpsPipeNewWith, made]
  dsimp only
  rw [placed]
  refine ⟨_, rfl, ?_⟩
  constructor
  · exact allocated_of_unallocated found
  · exact ⟨data, rfl⟩
  · refine ⟨s.world.made, FdWorld.pipeFile q true readJunk, ?_, ?_, rfl⟩
    · rw [FdWorld.fdfget, if_neg (inRange toRange), FdWorld.table_setSlot, if_neg slots]
      change (FdWorld.setSlot _ target tofd.toNat (some s.world.made)).table target tofd.toNat = _
      rw [FdWorld.table_setSlot, if_pos ⟨rfl, rfl⟩]
    · change (FdWorld.setFile _ (s.world.made + 1) _).files s.world.made = _
      rw [FdWorld.files_setFile, if_neg (Nat.ne_of_lt (Nat.lt_succ_self _))]
      change (FdWorld.setFile _ s.world.made _).files s.world.made = _
      rw [FdWorld.files_setFile, if_pos rfl]
  · refine ⟨s.world.made + 1, FdWorld.pipeFile q false writeJunk, ?_, ?_, rfl⟩
    · rw [FdWorld.fdfget, if_neg (inRange fromRange), FdWorld.table_setSlot, if_pos ⟨rfl, rfl⟩]
    · change (FdWorld.setFile _ (s.world.made + 1) _).files (s.world.made + 1) = _
      rw [FdWorld.files_setFile, if_pos rfl]
  · intro p fd notReader notWriter
    rw [FdWorld.table_setSlot, if_neg fun same => notWriter (Prod.ext same.1 same.2)]
    change (FdWorld.setSlot _ target tofd.toNat (some s.world.made)).table p fd = _
    rw [FdWorld.table_setSlot, if_neg fun same => notReader (Prod.ext same.1 same.2)]
    rfl

/-- `fdassign` that does not fail has found the slot free. -/
theorem fdassign_assigned {w w' : FdWorld} {p : ProcId} {fd r : Int} {f : FileId}
    (result : w.fdassign p fd f = some (r, w')) (ok : ¬r < 0) :
    FdWorld.InRange fd ∧ w.table p fd.toNat = none ∧ w' = w.setSlot p fd.toNat (some f) := by
  rw [FdWorld.fdassign] at result
  split at result
  · cases result
  · rename_i inRange
    split at result
    · cases result
      exact absurd (by decide) ok
    · rename_i free
      cases result
      refine ⟨⟨by omega, by omega⟩, ?_, rfl⟩
      simpa using free

/-- `lps_pipe_new` that returns true has found both slots free. -/
theorem slotsFree_of_true {w w' : FdWorld} {obs : List FdObs} {readJunk writeJunk : Junk}
    (result : w.lpsPipeNew source fromfd target tofd q readJunk writeJunk = some (true, w', obs)) :
    SlotsFree w source fromfd target tofd := by
  rw [FdWorld.lpsPipeNew_eq] at result
  obtain ⟨⟨r, w₁⟩, first, rest⟩ := Option.bind_eq_some_iff.mp result
  have assigned : ¬r < 0 := by
    intro failed
    simp only [failed, if_true, Option.bind_eq_bind, Option.bind_some] at rest
    cases rest
  simp only [assigned, if_false] at rest
  obtain ⟨⟨r', w₂⟩, second, rest⟩ := Option.bind_eq_some_iff.mp rest
  have ok : ¬r' < 0 := by
    intro failed
    simp only [failed, if_true] at rest
    cases rest
  obtain ⟨toRange, toFree, rfl⟩ := fdassign_assigned first assigned
  obtain ⟨fromRange, fromFree, -⟩ := fdassign_assigned second ok
  rw [FdWorld.table_setSlot] at fromFree
  split at fromFree
  · cases fromFree
  · rename_i slots
    refine ⟨toRange, fromRange, toFree, fromFree, ?_⟩
    intro same
    cases same
    exact slots ⟨rfl, rfl⟩

/-- A pipe that was set up stays allocated. -/
theorem not_undone (found : s.unallocated = some q) (data : Nat → Byte) (world : FdWorld)
    (ends : PipeId → Bool → Option FileId) :
    ¬Undone s { s with sched := s.sched.setPipe q (RRSched.newPipe data), world, ends } := by
  intro undone
  have same := undone.allocated q
  rw [allocated_of_unallocated found, RRSched.setPipe] at same
  dsimp only at same
  rw [Function.update_self] at same
  cases same

/-- When the slots are not free, what was taken is not given back. -/
theorem slotsFree_of_allOrNothing (found : s.unallocated = some q) (succeed : m.Succeed)
    (holds : AllOrNothing s source fromfd target tofd (s.lpsPipeNewWith m source fromfd target tofd)) :
    SlotsFree s.world source fromfd target tofd := by
  obtain ⟨data, readJunk, writeJunk, made⟩ := pipeNew_succeeds found succeed
  rw [lpsPipeNewWith, made] at holds
  dsimp only at holds
  -- A result that is true needs both slots, and one that is false leaves the pipe allocated.
  cases result : s.world.lpsPipeNew source fromfd target tofd q readJunk writeJunk with
  | none =>
      rw [result] at holds
      exact holds.elim
  | some next =>
      obtain ⟨ok, world, obs⟩ := next
      rw [result] at holds
      cases ok with
      | false => exact absurd holds (not_undone found data world _)
      | true => exact slotsFree_of_true result

end PipeNew

/-- `lps_pipe_new` does all or nothing exactly when `pipe_new` fails or the slots for both ends are
in range, free and not the same. -/
theorem lpsPipeNew_allOrNothing_iff (s : FdPipes) (m : PipeMallocs) (source : ProcId) (fromfd : Int)
    (target : ProcId) (tofd : Int) :
    AllOrNothing s source fromfd target tofd (s.lpsPipeNewWith m source fromfd target tofd) ↔
      s.unallocated = none ∨ ¬m.Succeed ∨ SlotsFree s.world source fromfd target tofd := by
  by_cases fails : s.unallocated = none ∨ ¬m.Succeed
  · apply iff_of_true
    · obtain ⟨sched, made, same⟩ := pipeNew_fails fails
      rw [lpsPipeNewWith, made]
      exact ⟨rfl, same⟩
    · rcases fails with full | lacks
      · exact .inl full
      · exact .inr (.inl lacks)
  · obtain ⟨some_, all⟩ := not_or.mp fails
    obtain ⟨q, found⟩ := Option.ne_none_iff_exists'.mp some_
    have succeed := not_not.mp all
    constructor
    · exact fun holds => .inr (.inr (slotsFree_of_allOrNothing found succeed holds))
    · rintro (full | lacks | free)
      · exact absurd full some_
      · exact absurd succeed lacks
      · obtain ⟨s', returns, connected⟩ := connected_of_slotsFree found succeed free
        rw [returns]
        exact ⟨q, connected⟩

/-- Memory for everything, in which there are zeros. -/
def enoughMemory : PipeMallocs :=
  ⟨some fun _ => 0, some ⟨0, .null, true⟩, some ⟨0, .null, true⟩, true, true⟩

/-- A descriptor of the reader that is taken: false is returned, and the pipe stays allocated. -/
theorem lpsPipeNew_leaks_pipe :
    ¬∀ (s : FdPipes) (m : PipeMallocs) (source : ProcId) (fromfd : Int) (target : ProcId) (tofd : Int),
      AllOrNothing s source fromfd target tofd (s.lpsPipeNewWith m source fromfd target tofd) := by
  intro claim
  have holds := claim { init with world := FdWorld.init.fdinit 0 0 1 2 } enoughMemory 0 3 0 0
  have leaked := holds.allocated 0
  revert leaked
  decide

end FdPipes

end Lps.Linux

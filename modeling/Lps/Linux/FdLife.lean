import Lps.Linux.Fd

/-!
# The lifetime of open files

Exit closes every slot of a table, and is the only operation that calls the close
function of a file.  A file is closed and freed once, with its last descriptor, as
long as no other operation removes one that it should not free, and no exit meets a
file twice.
-/

namespace Lps.Linux

open Lps.Transition

/-- The operations on descriptor tables. -/
inductive FdEvent
  /-- `lps_proc_new`, with the duplicates of the host's standard streams. -/
  | newProc (p : ProcId) (stdin stdout stderr : Int)
  | pipeNew (source : ProcId) (fromfd : Int) (target : ProcId) (tofd : Int) (pipe : PipeId)
      (readJunk writeJunk : Junk)
  /-- `openat`, when the host opens the file. -/
  | openat (p : ProcId) (kfd : Int)
  | dup (p : ProcId) (oldfd : Int)
  | dup3 (p : ProcId) (oldfd newfd : Int) (flags : CInt)
  | close (p : ProcId) (fd : Int)
  /-- `fdfree`, on the way out of `exit`. -/
  | exit (p : ProcId)
  deriving DecidableEq

namespace FdWorld

/-- The processes that an operation is for. -/
def subjects : FdEvent → List ProcId
  | .newProc _ _ _ _ => []
  | .pipeNew source _ target _ _ _ _ => [source, target]
  | .openat p _ => [p]
  | .dup p _ => [p]
  | .dup3 p _ _ _ => [p]
  | .close p _ => [p]
  | .exit p => [p]

/-- What an operation does. -/
def perform (w : FdWorld) : FdEvent → Option (FdWorld × List FdObs)
  | .newProc p stdin stdout stderr =>
      some ({ w.fdinit p stdin stdout stderr with procs := p :: w.procs }, [])
  | .pipeNew source fromfd target tofd pipe readJunk writeJunk =>
      (w.lpsPipeNew source fromfd target tofd pipe readJunk writeJunk).map fun (_, w, obs) => (w, obs)
  | .openat p kfd => (w.sysOpenat p kfd).map fun (r, w) => (w, [.returned r])
  | .dup p oldfd => (w.sysDup p oldfd).map fun (r, w) => (w, [.returned r])
  | .dup3 p oldfd newfd flags =>
      (w.sysDup3 p oldfd newfd flags).map fun (r, w) => (w, [.returned r])
  | .close p fd => (w.sysClose p fd).map fun (r, w, obs) => (w, obs ++ [.returned r])
  | .exit p => w.fdfree p

/-- Processes are new once, and operate on their tables from then on. -/
def enabled (w : FdWorld) (event : FdEvent) : Bool :=
  (match event with
    | .newProc p _ _ _ => !w.procs.contains p
    | _ => true) && (subjects event).all w.procs.contains

/-- One operation; the world is gone after one without a result. -/
def step : Step (Option FdWorld) FdEvent FdObs
  | none, _ => none
  | some w, event =>
      if w.enabled event then
        match w.perform event with
        | none => some (none, [])
        | some (w, obs) => some (some w, obs)
      else none

/-! ## What should hold -/

/-- A slot refers to the file. -/
def Referred (w : FdWorld) (f : FileId) : Prop := ∃ p fd, w.table p fd = some f

/-- How often the close function of a file is called. -/
def closes (f : FileId) (trace : List FdObs) : Nat :=
  trace.countP fun | .closed g _ => g = f | _ => false

/-- How often a file is freed. -/
def frees (f : FileId) (trace : List FdObs) : Nat :=
  trace.countP fun | .freed g => g = f | _ => false

/-- How often a file should have been closed and freed: once when it is gone. -/
def gone (w : FdWorld) (f : FileId) : Nat := if f < w.made ∧ w.files f = none then 1 else 0

/-- A file is on the heap as long as a slot refers to it, and is closed once and freed
once when the last one goes. -/
structure Lifetime (trace : List FdObs) (w : FdWorld) : Prop where
  live : ∀ f, w.files f ≠ none ↔ w.Referred f
  closed : ∀ f, closes f trace = w.gone f
  freed : ∀ f, frees f trace = w.gone f

/-! ## The condition -/

/-- The slot that `fdfdup2` fills, if it gets that far. -/
def dupSlot (w : FdWorld) (p : ProcId) (newfd : Int) : Option Nat :=
  if newfd < -1 ∨ newfd ≥ LINUX_NOFILE then none
  else if newfd = -1 then w.firstFree p
  else if (w.table p newfd.toNat).isSome then none
  else some newfd.toNat

/-- A duplicate that gets a slot locks the file. -/
def DupLocks (w : FdWorld) (p : ProcId) (oldfd newfd : Int) : Prop :=
  ∀ f ∈ w.fdfget p oldfd, (w.dupSlot p newfd).isSome → (w.lock f).isSome

instance (w : FdWorld) (p : ProcId) (oldfd newfd : Int) : Decidable (w.DupLocks p oldfd newfd) :=
  inferInstanceAs (Decidable (∀ f ∈ _, _))

/-- The descriptor is in the table's range. -/
def InRange (fd : Int) : Prop := 0 ≤ fd ∧ fd < LINUX_NOFILE

instance (fd : Int) : Decidable (InRange fd) := inferInstanceAs (Decidable (_ ∧ _))

/-- An open, a pipe or a duplicate finds free slots and mutexes; a close that finds a
file leaves it another slot, and finds its count at one; an exit finds each file
once, and no wild path. -/
def Careful (w : FdWorld) : FdEvent → Prop
  | .newProc _ _ _ _ => True
  | .pipeNew source fromfd target tofd _ _ _ =>
      InRange tofd ∧ InRange fromfd ∧ w.table target tofd.toNat = none ∧
        w.table source fromfd.toNat = none ∧ (target, tofd) ≠ (source, fromfd)
  | .openat p _ => (w.firstFree p).isSome
  | .dup p oldfd => w.DupLocks p oldfd (-1)
  | .dup3 p oldfd newfd flags => flags = 0 → w.DupLocks p oldfd newfd
  | .close p fd =>
      ∀ f ∈ w.fdfget p fd, (∃ file ∈ w.lock f, file.refs = 1) ∧
        ∃ fd' < LINUX_NOFILE, fd' ≠ fd.toNat ∧ w.table p fd' = some f
  | .exit p =>
      ∀ fd < LINUX_NOFILE, ∀ f ∈ w.table p fd, (∀ file ∈ w.files f, file.path ≠ .wild) ∧
        ∀ fd' < LINUX_NOFILE, w.table p fd' = some f → fd' = fd

instance (w : FdWorld) : (event : FdEvent) → Decidable (w.Careful event)
  | .newProc _ _ _ _ => inferInstanceAs (Decidable True)
  | .pipeNew .. => inferInstanceAs (Decidable (_ ∧ _))
  | .openat .. => inferInstanceAs (Decidable (_ = true))
  | .dup .. => inferInstanceAs (Decidable (DupLocks ..))
  | .dup3 .. => inferInstanceAs (Decidable (_ → DupLocks ..))
  | .close .. => inferInstanceAs (Decidable (∀ f ∈ _, (∃ file ∈ _, _) ∧ ∃ fd' < LINUX_NOFILE, _))
  | .exit _ => inferInstanceAs (Decidable (∀ fd < LINUX_NOFILE, ∀ f ∈ _, (∀ file ∈ _, _) ∧
      ∀ fd' < LINUX_NOFILE, _))

/-- The condition as one on the steps of a run. -/
def StepCareful : Option FdWorld → FdEvent → Prop
  | none, _ => True
  | some w, event => w.Careful event

instance : ∀ state event, Decidable (StepCareful state event)
  | none, _ => inferInstanceAs (Decidable True)
  | some w, event => inferInstanceAs (Decidable (w.Careful event))

/-! ## The invariant -/

/-- The lifetimes are right, a file belongs to one process, and only its slots in range
are used. -/
structure Sound (trace : List FdObs) (w : FdWorld) : Prop extends Lifetime trace w where
  bound : ∀ {f}, w.files f ≠ none → f < w.made
  owner : ∀ {p p' fd fd' f}, w.table p fd = some f → w.table p' fd' = some f → p = p'
  inRange : ∀ {p fd f}, w.table p fd = some f → fd < LINUX_NOFILE
  known : ∀ {p fd f}, w.table p fd = some f → p ∈ w.procs

theorem init_sound : Sound [] init where
  live := by simp [init, Referred]
  closed := by simp [init, closes, gone]
  freed := by simp [init, frees, gone]
  bound := by simp [init]
  owner := by simp [init]
  inRange := by simp [init]
  known := by simp [init]

variable {w : FdWorld} {trace : List FdObs} {p : ProcId} {i j : Nat} {f : FileId}

/-! ## Slots and files -/

@[simp]
theorem files_setSlot (x : Option FileId) : (w.setSlot p i x).files = w.files := rfl

@[simp]
theorem made_setSlot (x : Option FileId) : (w.setSlot p i x).made = w.made := rfl

@[simp]
theorem procs_setSlot (x : Option FileId) : (w.setSlot p i x).procs = w.procs := rfl

theorem table_setSlot (x : Option FileId) (p' : ProcId) (j : Nat) :
    (w.setSlot p i x).table p' j = if p' = p ∧ j = i then x else w.table p' j := by
  simp only [setSlot, Function.update_apply]
  split
  · rename_i same
    subst same
    simp [Function.update_apply]
  · rename_i other
    simp [other]

@[simp]
theorem table_setFile (file : Option OpenFile) : (w.setFile f file).table = w.table := rfl

@[simp]
theorem made_setFile (file : Option OpenFile) : (w.setFile f file).made = w.made := rfl

@[simp]
theorem procs_setFile (file : Option OpenFile) : (w.setFile f file).procs = w.procs := rfl

theorem files_setFile (file : Option OpenFile) (g : FileId) :
    (w.setFile f file).files g = if g = f then file else w.files g := by
  simp only [setFile, Function.update_apply]

/-- A file that a slot refers to is on the heap. -/
theorem Sound.live_of_slot (sound : Sound trace w) (slot : w.table p i = some f) :
    w.files f ≠ none := (sound.live f).mpr ⟨p, i, slot⟩

/-! ## What the operations do to the invariant -/

/-- A new file goes into a free slot. -/
theorem Sound.place (sound : Sound trace w) (file : OpenFile) (isFree : w.table p i = none)
    (small : i < LINUX_NOFILE) (known : p ∈ w.procs) :
    Sound trace ((w.alloc file).2.setSlot p i (some w.made)) := by
  have unused : ∀ {p' j}, w.table p' j ≠ some w.made := by
    intro p' j slot
    exact Nat.lt_irrefl _ (sound.bound (sound.live_of_slot slot))
  have slots : ∀ p' j, ((w.alloc file).2.setSlot p i (some w.made)).table p' j =
      if p' = p ∧ j = i then some w.made else w.table p' j := fun p' j => table_setSlot ..
  have heap : ∀ g, ((w.alloc file).2.setSlot p i (some w.made)).files g =
      if g = w.made then some file else w.files g := fun g => files_setFile ..
  have gone : ∀ g, ((w.alloc file).2.setSlot p i (some w.made)).gone g = w.gone g := by
    intro g
    simp only [FdWorld.gone, heap]
    change (if g < w.made + 1 ∧ _ then 1 else 0) = _
    by_cases same : g = w.made
    · simp [same]
    · simp only [if_neg same]
      congr 1
      simp only [eq_iff_iff, and_congr_left_iff]
      intro _
      exact ⟨fun lt => Nat.lt_of_le_of_ne (Nat.le_of_lt_succ lt) same, Nat.lt_succ_of_lt⟩
  constructor
  · constructor
    · intro g
      simp only [Referred, heap, slots]
      by_cases same : g = w.made
      · subst same
        exact ⟨fun _ => ⟨p, i, by simp⟩, fun _ => by simp⟩
      · rw [if_neg same, sound.live]
        constructor
        · rintro ⟨p', j, slot⟩
          refine ⟨p', j, ?_⟩
          rw [if_neg, slot]
          rintro ⟨rfl, rfl⟩
          cases isFree.symm.trans slot
        · rintro ⟨p', j, slot⟩
          split at slot
          · exact absurd (Option.some.inj slot).symm same
          · exact ⟨p', j, slot⟩
    · exact fun g => (sound.closed g).trans (gone g).symm
    · exact fun g => (sound.freed g).trans (gone g).symm
  · intro g isLive
    rw [heap] at isLive
    change g < w.made + 1
    split at isLive
    · rename_i same
      exact same ▸ Nat.lt_succ_self _
    · exact Nat.lt_succ_of_lt (sound.bound isLive)
  · intro p₁ p₂ j₁ j₂ g first second
    rw [slots] at first second
    split at first <;> split at second
    · rename_i here here'
      exact here.1.trans here'.1.symm
    · exact absurd (second.trans first.symm) unused
    · exact absurd (first.trans second.symm) unused
    · exact sound.owner first second
  · intro p' j g used
    rw [slots] at used
    split at used
    · rename_i here
      exact here.2 ▸ small
    · exact sound.inRange used
  · intro p' j g used
    rw [slots] at used
    split at used
    · rename_i here
      exact here.1 ▸ known
    · exact sound.known used

/-- A file on the heap changes. -/
theorem Sound.setFile (sound : Sound trace w) (isLive : w.files f ≠ none) (file : OpenFile) :
    Sound trace (w.setFile f (some file)) := by
  have heap : ∀ g, (w.setFile f (some file)).files g = none ↔ w.files g = none := by
    intro g
    rw [files_setFile]
    split
    · rename_i same
      subst same
      simp [isLive]
    · exact Iff.rfl
  have gone : ∀ g, (w.setFile f (some file)).gone g = w.gone g := by
    intro g
    simp only [FdWorld.gone, heap, made_setFile]
  refine ⟨⟨?_, fun g => (sound.closed g).trans (gone g).symm,
    fun g => (sound.freed g).trans (gone g).symm⟩, ?_, sound.owner, sound.inRange, sound.known⟩
  · exact fun g => (not_congr (heap g)).trans (sound.live g)
  · exact fun isLive => sound.bound ((not_congr (heap _)).mp isLive)

/-- A free slot refers to a file of the process. -/
theorem Sound.share (sound : Sound trace w) (slot : w.table p j = some f)
    (isFree : w.table p i = none) (small : i < LINUX_NOFILE) :
    Sound trace (w.setSlot p i (some f)) := by
  constructor
  · refine ⟨?_, sound.closed, sound.freed⟩
    intro g
    rw [files_setSlot, sound.live]
    simp only [Referred, table_setSlot]
    constructor
    · rintro ⟨p', k, used⟩
      refine ⟨p', k, ?_⟩
      rw [if_neg, used]
      rintro ⟨rfl, rfl⟩
      cases isFree.symm.trans used
    · rintro ⟨p', k, used⟩
      split at used
      · exact ⟨p, j, slot.trans used⟩
      · exact ⟨p', k, used⟩
  · exact sound.bound
  · intro p₁ p₂ j₁ j₂ g first second
    rw [table_setSlot] at first second
    split at first <;> split at second
    · rename_i here here'
      exact here.1.trans here'.1.symm
    · rename_i here _
      exact here.1.trans (sound.owner (slot.trans first) second)
    · rename_i _ here
      exact (sound.owner first (slot.trans second)).trans here.1.symm
    · exact sound.owner first second
  · intro p' k g used
    rw [table_setSlot] at used
    split at used
    · rename_i here
      exact here.2 ▸ small
    · exact sound.inRange used
  · intro p' k g used
    rw [table_setSlot] at used
    split at used
    · rename_i here
      rw [here.1]
      exact sound.known slot
    · exact sound.known used

/-- A slot is emptied while another one refers to its file. -/
theorem Sound.drop (sound : Sound trace w) (slot : w.table p i = some f)
    (other : w.table p j = some f) (ne : j ≠ i) : Sound trace (w.setSlot p i none) := by
  have kept : ∀ {p' k g}, (w.setSlot p i none).table p' k = some g → w.table p' k = some g := by
    intro p' k g used
    rw [table_setSlot] at used
    split at used
    · cases used
    · exact used
  constructor
  · refine ⟨?_, sound.closed, sound.freed⟩
    intro g
    rw [files_setSlot, sound.live]
    constructor
    · rintro ⟨p', k, used⟩
      by_cases here : p' = p ∧ k = i
      · obtain ⟨rfl, rfl⟩ := here
        refine ⟨p', j, ?_⟩
        rw [table_setSlot, if_neg fun same => ne same.2, other]
        exact slot.symm.trans used
      · exact ⟨p', k, by rw [table_setSlot, if_neg here, used]⟩
    · rintro ⟨p', k, used⟩
      exact ⟨p', k, kept used⟩
  · exact sound.bound
  · exact fun first second => sound.owner (kept first) (kept second)
  · exact fun used => sound.inRange (kept used)
  · exact fun used => sound.known (kept used)

/-- The last slot of a file is emptied, and the file closed and freed. -/
theorem Sound.release (sound : Sound trace w) (slot : w.table p i = some f)
    (last : ∀ j, w.table p j = some f → j = i) (dev : FDDev) :
    Sound (trace ++ [.closed f dev, .freed f]) ((w.setFile f none).setSlot p i none) := by
  have kept : ∀ {p' k g}, ((w.setFile f none).setSlot p i none).table p' k = some g ↔
      w.table p' k = some g ∧ g ≠ f := by
    intro p' k g
    rw [table_setSlot, table_setFile]
    split
    · rename_i here
      obtain ⟨rfl, rfl⟩ := here
      constructor
      · exact nofun
      · rintro ⟨used, other⟩
        exact absurd (Option.some.inj (used.symm.trans slot)) other
    · rename_i elsewhere
      constructor
      · intro used
        refine ⟨used, ?_⟩
        rintro rfl
        have same := sound.owner used slot
        subst same
        exact elsewhere ⟨rfl, last k used⟩
      · exact And.left
  have heap : ∀ g, ((w.setFile f none).setSlot p i none).files g =
      if g = f then none else w.files g := fun g => files_setFile ..
  have isLive := sound.live_of_slot slot
  have gone : ∀ g, ((w.setFile f none).setSlot p i none).gone g = w.gone g + if f = g then 1 else 0 := by
    intro g
    simp only [FdWorld.gone, heap, made_setSlot, made_setFile]
    by_cases same : g = f
    · subst same
      simp [sound.bound isLive, isLive]
    · simp [same, Ne.symm same]
  constructor
  · constructor
    · intro g
      rw [heap]
      by_cases same : g = f
      · subst same
        simp only [if_pos, ne_eq, not_true_eq_false, false_iff]
        rintro ⟨p', k, used⟩
        exact (kept.mp used).2 rfl
      · rw [if_neg same, sound.live]
        constructor
        · rintro ⟨p', k, used⟩
          exact ⟨p', k, kept.mpr ⟨used, same⟩⟩
        · rintro ⟨p', k, used⟩
          exact ⟨p', k, (kept.mp used).1⟩
    · intro g
      rw [gone, ← sound.closed]
      simp [closes, List.countP_append, List.countP_cons]
    · intro g
      rw [gone, ← sound.freed]
      simp [frees, List.countP_append, List.countP_cons]
  · intro g live
    rw [heap] at live
    split at live
    · exact absurd rfl live
    · exact sound.bound live
  · exact fun first second => sound.owner (kept.mp first).1 (kept.mp second).1
  · exact fun used => sound.inRange (kept.mp used).1
  · exact fun used => sound.known (kept.mp used).1

/-- Returning a value changes nothing. -/
theorem Sound.returns (sound : Sound trace w) (r : Int) : Sound (trace ++ [.returned r]) w := by
  refine { sound with closed := ?_, freed := ?_ }
  · intro g
    rw [← sound.closed]
    simp [closes, List.countP_append]
  · intro g
    rw [← sound.freed]
    simp [frees, List.countP_append]

/-! ## The calls -/

theorem firstFree_spec (found : w.firstFree p = some i) :
    i < LINUX_NOFILE ∧ w.table p i = none := by
  unfold firstFree at found
  have mem := List.mem_of_find?_eq_some found
  have isFree := List.find?_some found
  rw [List.mem_range] at mem
  rw [Option.isNone_iff_eq_none] at isFree
  exact ⟨mem, isFree⟩

theorem firstFree_congr {w' : FdWorld} (same : w'.table = w.table) :
    w'.firstFree p = w.firstFree p := by
  unfold firstFree
  rw [same]

theorem dupSlot_spec {newfd : Int} (found : w.dupSlot p newfd = some i) :
    i < LINUX_NOFILE ∧ w.table p i = none := by
  rw [dupSlot] at found
  split at found
  · cases found
  · rename_i range
    split at found
    · exact firstFree_spec found
    · split at found
      · cases found
      · rename_i isFree
        cases found
        refine ⟨by omega, ?_⟩
        simpa using isFree

/-- Filling a slot counts the reference. -/
theorem fill_spec {file : OpenFile} (locks : w.lock f = some file) :
    w.fill p i f = some ((i : Int),
      (w.setSlot p i (some f)).setFile f (some { file with refs := file.refs + 1 })) := by
  rw [fill, locks]
  rfl

theorem lock_live {file : OpenFile} (locks : w.lock f = some file) : w.files f ≠ none := by
  rw [lock, Option.filter_eq_some_iff] at locks
  simp [locks.1]

theorem fdfassign_spec {file : OpenFile} (found : w.firstFree p = some i)
    (locks : w.lock f = some file) :
    w.fdfassign p f = some ((i : Int),
      (w.setSlot p i (some f)).setFile f (some { file with refs := file.refs + 1 })) := by
  rw [fdfassign, found]
  exact fill_spec locks

/-- An open file gets a slot and counts it. -/
theorem sysOpenat_spec {kfd : Int} (found : w.firstFree p = some i) :
    w.sysOpenat p kfd = some ((i : Int),
      ((w.alloc ⟨.host kfd, 0, .owned, true⟩).2.setSlot p i (some w.made)).setFile w.made
        (some ⟨.host kfd, 1, .owned, true⟩)) := by
  have file : (w.filenew kfd .owned).2.files w.made = some ⟨.host kfd, 0, .owned, true⟩ :=
    Function.update_self ..
  have locks : (w.filenew kfd .owned).2.lock w.made = some ⟨.host kfd, 0, .owned, true⟩ := by
    rw [lock, file]
    rfl
  have same : (w.filenew kfd .owned).2.firstFree p = some i :=
    (@firstFree_congr w p (w.filenew kfd .owned).2 rfl).trans found
  have assigned := fdfassign_spec same locks
  have id : (w.filenew kfd .owned).1 = w.made := rfl
  have notNegative : ¬(i : Int) < 0 := by omega
  simp only [sysOpenat, id, assigned, Option.bind_eq_bind, Option.bind_some, if_neg notNegative]
  rfl

theorem sysOpenat_sound {kfd : Int} (sound : Sound trace w) (room : (w.firstFree p).isSome)
    (known : p ∈ w.procs) :
    ∃ r w', w.sysOpenat p kfd = some (r, w') ∧ w'.procs = w.procs ∧ Sound trace w' := by
  obtain ⟨i, found⟩ := Option.isSome_iff_exists.mp room
  obtain ⟨small, isFree⟩ := firstFree_spec found
  have placed := sound.place ⟨.host kfd, 0, .owned, true⟩ isFree small known
  have isLive : ((w.alloc ⟨.host kfd, 0, .owned, true⟩).2.setSlot p i (some w.made)).files
      w.made ≠ none := by
    simp [alloc, setFile]
  exact ⟨_, _, sysOpenat_spec found, rfl, placed.setFile isLive _⟩

/-- A duplicate that gets a slot shares the file and counts it; the others change
nothing. -/
theorem fdfdup2_cases (w : FdWorld) (p : ProcId) (oldfd newfd : Int) :
    (∃ r < 0, w.fdfdup2 p oldfd newfd = some (r, w)) ∨
      ∃ f i, w.fdfget p oldfd = some f ∧ w.dupSlot p newfd = some i ∧
        w.fdfdup2 p oldfd newfd = w.fill p i f := by
  have badf : -LINUX_BADF < 0 := by decide
  have emfile : -LINUX_EMFILE < 0 := by decide
  rw [fdfdup2, fdfget, dupSlot]
  split
  · exact .inl ⟨_, badf, rfl⟩
  rename_i range
  simp only [not_or] at range
  obtain ⟨oldLow, oldHigh, newLow, newHigh⟩ := range
  rw [if_neg (by simp [oldLow, oldHigh]), if_neg (by simp [newLow, newHigh])]
  cases slot : w.table p oldfd.toNat with
  | none => exact .inl ⟨_, badf, rfl⟩
  | some f =>
      dsimp only
      split
      · cases found : w.firstFree p with
        | none => exact .inl ⟨_, emfile, rfl⟩
        | some i => exact .inr ⟨f, i, rfl, rfl, rfl⟩
      · split
        · exact .inl ⟨_, badf, rfl⟩
        · exact .inr ⟨f, _, rfl, rfl, rfl⟩

theorem fdfget_eq_some {fd : Int} (slot : w.fdfget p fd = some f) :
    InRange fd ∧ w.table p fd.toNat = some f := by
  rw [fdfget] at slot
  split at slot
  · cases slot
  · rename_i range
    refine ⟨?_, slot⟩
    simp only [not_or, not_lt, ge_iff_le, not_le] at range
    exact range

/-- A duplicate keeps the lifetimes. -/
theorem fdfdup2_sound {oldfd newfd : Int} (sound : Sound trace w)
    (locks : w.DupLocks p oldfd newfd) :
    ∃ r w', w.fdfdup2 p oldfd newfd = some (r, w') ∧ w'.procs = w.procs ∧ Sound trace w' := by
  rcases fdfdup2_cases w p oldfd newfd with ⟨r, -, fails⟩ | ⟨f, i, look, found, fills⟩
  · exact ⟨r, w, fails, rfl, sound⟩
  · obtain ⟨file, locked⟩ := Option.isSome_iff_exists.mp (locks f look (by rw [found]; rfl))
    obtain ⟨small, isFree⟩ := dupSlot_spec found
    rw [fill_spec locked] at fills
    have shared := sound.share (fdfget_eq_some look).2 isFree small
    exact ⟨_, _, fills, rfl, shared.setFile (lock_live locked) _⟩

/-- A close that finds the count at one leaves the file to the other slots. -/
theorem fdfclose_spec {fd : Int} {file : OpenFile} (look : w.fdfget p fd = some f)
    (locked : w.lock f = some file) (one : file.refs = 1) :
    w.fdfclose p fd = some (true,
      (w.setFile f (some { file with refs := 0 })).setSlot p fd.toNat none, []) := by
  have kept : w.filefree f = some (w.setFile f (some { file with refs := 0 }), []) := by
    rw [filefree, locked]
    simp [one]
  simp only [fdfclose, look, kept]
  rfl

theorem sysClose_sound {fd : Int} (sound : Sound trace w) (careful : w.Careful (.close p fd)) :
    ∃ r w', w.sysClose p fd = some (r, w', []) ∧ w'.procs = w.procs ∧ Sound trace w' := by
  cases look : w.fdfget p fd with
  | none =>
      refine ⟨-LINUX_BADF, w, ?_, rfl, sound⟩
      simp [sysClose, fdfclose, look]
  | some f =>
      obtain ⟨⟨file, locked, one⟩, j, -, ne, other⟩ := careful f look
      have slot := (fdfget_eq_some look).2
      have dropped := (sound.drop slot other ne).setFile (lock_live locked) { file with refs := 0 }
      have closed : w.sysClose p fd = some (0,
          (w.setFile f (some { file with refs := 0 })).setSlot p fd.toNat none, []) := by
        rw [sysClose, fdfclose_spec look locked one]
        rfl
      exact ⟨_, _, closed, rfl, dropped⟩

/-- `fdinit` of a new process keeps what putting a file of the host into a free slot
keeps. -/
theorem fdinit_keeps {stdin stdout stderr : Int} (inv : FdWorld → Prop)
    (place : ∀ {w i kfd} (file : OpenFile), inv w → file.dev = .host kfd → w.table p i = none →
      i < LINUX_NOFILE → p ∈ w.procs → inv ((w.alloc file).2.setSlot p i (some w.made)))
    (held : inv { w with procs := p :: w.procs }) (empty : ∀ i, w.table p i = none) :
    inv { w.fdinit p stdin stdout stderr with procs := p :: w.procs } := by
  have cleared : Function.update w.table p (fun _ => none) = w.table := by
    funext p' i
    by_cases same : p' = p
    · subst same
      rw [Function.update_self, empty]
    · rw [Function.update_of_ne same]
  let known : FdWorld := { w with procs := p :: w.procs }
  have one := place ⟨.host stdin, 0, .null, true⟩ held rfl (empty 0) (by decide)
    List.mem_cons_self
  have empty₁ : ∀ i, i ≠ 0 → ((known.alloc ⟨.host stdin, 0, .null, true⟩).2.setSlot p 0
      (some known.made)).table p i = none := by
    intro i other
    rw [table_setSlot, if_neg (by simp [other])]
    exact empty i
  have two := place ⟨.host stdout, 0, .null, true⟩ one rfl (empty₁ 1 (by decide))
    (by decide) List.mem_cons_self
  have three := place ⟨.host stderr, 0, .null, true⟩ two (i := 2) rfl ?_ (by decide)
    List.mem_cons_self
  · simp only [fdinit, cleared]
    exact three
  · rw [table_setSlot, if_neg (by simp)]
    exact empty₁ 2 (by decide)

/-- New standard streams go into an empty table. -/
theorem fdinit_sound {stdin stdout stderr : Int} (sound : Sound trace w) (isNew : p ∉ w.procs) :
    Sound trace { w.fdinit p stdin stdout stderr with procs := p :: w.procs } := by
  refine fdinit_keeps (Sound trace)
    (fun file sound _ isFree small known => sound.place file isFree small known)
    { sound with known := fun slot => List.mem_cons_of_mem _ (sound.known slot) } ?_
  intro i
  cases slot : w.table p i with
  | none => rfl
  | some f => exact absurd (sound.known slot) isNew

theorem fdassign_spec {fd : Int} (range : InRange fd) (isFree : w.table p fd.toNat = none) :
    w.fdassign p fd f = some (fd, w.setSlot p fd.toNat (some f)) := by
  obtain ⟨low, high⟩ := range
  rw [fdassign, if_neg (by omega), if_neg (by simp [isFree])]

/-- The files of `pipe_new` on the heap. -/
def withEnds (w : FdWorld) (pipe : PipeId) (readJunk writeJunk : Junk) : FdWorld :=
  ((w.alloc (pipeFile pipe true readJunk)).2.alloc (pipeFile pipe false writeJunk)).2

theorem lpsPipeNew_eq (w : FdWorld) (source : ProcId) (fromfd : Int) (target : ProcId) (tofd : Int)
    (pipe : PipeId) (readJunk writeJunk : Junk) :
    w.lpsPipeNew source fromfd target tofd pipe readJunk writeJunk = (do
      let (r, w₁) ← (w.withEnds pipe readJunk writeJunk).fdassign target tofd w.made
      let (r, w₁) ← if r < 0 then some (r, w₁) else w₁.fdassign source fromfd (w.made + 1)
      if r < 0 then
        some (false, (w₁.setFile w.made none).setFile (w.made + 1) none,
          [.freed w.made, .freed (w.made + 1)])
      else some (true, w₁, [])) :=
  rfl

/-- Both ends of a pipe go into free slots. -/
theorem lpsPipeNew_spec {source target : ProcId} {fromfd tofd : Int} {pipe : PipeId}
    {readJunk writeJunk : Junk} (tofdRange : InRange tofd) (fromfdRange : InRange fromfd)
    (tofdFree : w.table target tofd.toNat = none) (fromfdFree : w.table source fromfd.toNat = none)
    (apart : (target, tofd) ≠ (source, fromfd)) :
    w.lpsPipeNew source fromfd target tofd pipe readJunk writeJunk = some (true,
      ((((w.alloc (pipeFile pipe true readJunk)).2.setSlot target tofd.toNat (some w.made)).alloc
        (pipeFile pipe false writeJunk)).2.setSlot source fromfd.toNat (some (w.made + 1))), []) := by
  let made := w.withEnds pipe readJunk writeJunk
  have first : made.fdassign target tofd w.made =
      some (tofd, made.setSlot target tofd.toNat (some w.made)) := fdassign_spec tofdRange tofdFree
  have second : (made.setSlot target tofd.toNat (some w.made)).fdassign source fromfd (w.made + 1) =
      some (fromfd, (made.setSlot target tofd.toNat (some w.made)).setSlot source fromfd.toNat
        (some (w.made + 1))) := by
    refine fdassign_spec fromfdRange ?_
    rw [table_setSlot, if_neg]
    · exact fromfdFree
    · rintro ⟨rfl, same⟩
      obtain ⟨toLow, -⟩ := tofdRange
      obtain ⟨fromLow, -⟩ := fromfdRange
      exact apart (Prod.ext rfl (by omega))
  have toOk : ¬tofd < 0 := not_lt.mpr tofdRange.1
  have fromOk : ¬fromfd < 0 := not_lt.mpr fromfdRange.1
  rw [lpsPipeNew_eq, first]
  simp only [Option.bind_eq_bind, Option.bind_some, if_neg toOk, second, if_neg fromOk]
  rfl

theorem lpsPipeNew_sound {source target : ProcId} {fromfd tofd : Int} {pipe : PipeId}
    {readJunk writeJunk : Junk} (sound : Sound trace w)
    (careful : w.Careful (.pipeNew source fromfd target tofd pipe readJunk writeJunk))
    (knownSource : source ∈ w.procs) (knownTarget : target ∈ w.procs) :
    ∃ w', w.lpsPipeNew source fromfd target tofd pipe readJunk writeJunk = some (true, w', []) ∧
      w'.procs = w.procs ∧ Sound trace w' := by
  obtain ⟨tofdRange, fromfdRange, tofdFree, fromfdFree, apart⟩ := careful
  have small : ∀ {fd : Int}, InRange fd → fd.toNat < LINUX_NOFILE := fun range => by
    obtain ⟨low, high⟩ := range
    omega
  have first := sound.place (pipeFile pipe true readJunk) tofdFree (small tofdRange) knownTarget
  have stillFree : ((w.alloc (pipeFile pipe true readJunk)).2.setSlot target tofd.toNat
      (some w.made)).table source fromfd.toNat = none := by
    rw [table_setSlot, if_neg]
    · exact fromfdFree
    · rintro ⟨rfl, same⟩
      obtain ⟨toLow, -⟩ := tofdRange
      obtain ⟨fromLow, -⟩ := fromfdRange
      exact apart (Prod.ext rfl (by omega))
  have second := first.place (pipeFile pipe false writeJunk) stillFree (small fromfdRange) knownSource
  exact ⟨_, lpsPipeNew_spec tofdRange fromfdRange tofdFree fromfdFree apart, rfl, second⟩

/-- The loop of `fdfree` keeps what closing the only slot of a file keeps. -/
theorem fdfreeSlots_keeps {slots : List Nat} (inv : List FdObs → FdWorld → Prop)
    (release : ∀ {trace w i f file}, inv trace w → w.table p i = some f →
      w.files f = some file → (∀ j, w.table p j = some f → j = i) →
      inv (trace ++ [.closed f file.dev, .freed f]) ((w.setFile f none).setSlot p i none))
    (held : inv trace w)
    (careful : ∀ i f, w.table p i = some f → (∃ file ∈ w.files f, file.path ≠ .wild) ∧
      ∀ j, w.table p j = some f → j = i) :
    ∃ w' obs, w.fdfreeSlots p slots = some (w', obs) ∧ w'.procs = w.procs ∧
      inv (trace ++ obs) w' ∧ ∀ i, w'.table p i = if i ∈ slots then none else w.table p i := by
  induction slots generalizing w trace with
  | nil => exact ⟨w, [], rfl, rfl, by simpa using held, by simp⟩
  | cons i rest ih =>
      cases slot : w.table p i with
      | none =>
          obtain ⟨w', obs, frees, procs, held', tables⟩ := ih held careful
          have skips : w.fdfreeSlot p i = some (w, []) := by rw [fdfreeSlot, slot]
          refine ⟨w', obs, ?_, procs, held', ?_⟩
          · rw [fdfreeSlots, skips]
            simp [frees]
          · intro j
            rw [tables]
            by_cases same : j = i
            · subst same
              simp [slot]
            · simp [same]
      | some f =>
          obtain ⟨⟨file, isFile, tame⟩, last⟩ := careful i f slot
          have released := release held slot isFile last
          have first : w.fdfreeSlot p i =
              some ((w.setFile f none).setSlot p i none, [.closed f file.dev, .freed f]) := by
            rw [fdfreeSlot, slot]
            dsimp only
            rw [isFile]
            exact if_neg tame
          have careful' : ∀ j g, ((w.setFile f none).setSlot p i none).table p j = some g →
              (∃ file ∈ ((w.setFile f none).setSlot p i none).files g, file.path ≠ .wild) ∧
              ∀ k, ((w.setFile f none).setSlot p i none).table p k = some g → k = j := by
            intro j g used
            rw [table_setSlot, table_setFile] at used
            split at used
            · cases used
            · rename_i elsewhere
              obtain ⟨live, last'⟩ := careful j g used
              have other : g ≠ f := by
                rintro rfl
                exact elsewhere ⟨rfl, last j used⟩
              constructor
              · rwa [files_setSlot, files_setFile, if_neg other]
              · intro k used'
                rw [table_setSlot, table_setFile] at used'
                split at used'
                · cases used'
                · exact last' k used'
          obtain ⟨w', obs, frees, procs, held', tables⟩ := ih released careful'
          refine ⟨w', [.closed f file.dev, .freed f] ++ obs, ?_, procs, ?_, ?_⟩
          · rw [fdfreeSlots, first]
            simp [frees]
          · rw [← List.append_assoc]
            exact held'
          · intro j
            rw [tables, table_setSlot]
            by_cases same : j = i
            · subst same
              simp
            · simp [same]

/-- `fdfree` empties the table of a process, and keeps what closing the only slot of a
file keeps. -/
theorem fdfree_keeps (inv : List FdObs → FdWorld → Prop)
    (release : ∀ {trace w i f file}, inv trace w → w.table p i = some f →
      w.files f = some file → (∀ j, w.table p j = some f → j = i) →
      inv (trace ++ [.closed f file.dev, .freed f]) ((w.setFile f none).setSlot p i none))
    (held : inv trace w) (inRange : ∀ {i f}, w.table p i = some f → i < LINUX_NOFILE)
    (careful : ∀ fd < LINUX_NOFILE, ∀ f ∈ w.table p fd,
      (∃ file ∈ w.files f, file.path ≠ .wild) ∧
        ∀ fd' < LINUX_NOFILE, w.table p fd' = some f → fd' = fd) :
    ∃ w' obs, w.fdfree p = some (w', obs) ∧ w'.procs = w.procs ∧ inv (trace ++ obs) w' ∧
      ∀ i, w'.table p i = none := by
  obtain ⟨w', obs, frees, procs, held', tables⟩ :=
    @fdfreeSlots_keeps w trace p (List.range LINUX_NOFILE) inv release held (by
      intro i f slot
      obtain ⟨live, last⟩ := careful i (inRange slot) f slot
      exact ⟨live, fun j slot' => last j (inRange slot') slot'⟩)
  refine ⟨w', obs, frees, procs, held', fun i => ?_⟩
  rw [tables]
  split
  · rfl
  · rename_i outside
    cases slot : w.table p i with
    | none => rfl
    | some f => exact absurd (List.mem_range.mpr (inRange slot)) outside

/-- A careful exit empties the table and keeps the lifetimes. -/
theorem fdfree_sound (sound : Sound trace w) (careful : w.Careful (.exit p)) :
    ∃ w' obs, w.fdfree p = some (w', obs) ∧ w'.procs = w.procs ∧ Sound (trace ++ obs) w' ∧
      ∀ i, w'.table p i = none := by
  refine fdfree_keeps Sound (fun sound slot _ last => sound.release slot last _) sound
    sound.inRange ?_
  intro fd small f slot
  obtain ⟨tame, last⟩ := careful fd small f slot
  obtain ⟨file, isFile⟩ := Option.ne_none_iff_exists'.mp (sound.live_of_slot slot)
  exact ⟨⟨file, isFile, tame file isFile⟩, last⟩

/-- A careful operation has a result, and keeps the lifetimes. -/
theorem perform_sound {event : FdEvent} (sound : Sound trace w) (enabled : w.enabled event = true)
    (careful : w.Careful event) :
    ∃ w' obs, w.perform event = some (w', obs) ∧ Sound (trace ++ obs) w' := by
  simp only [FdWorld.enabled, Bool.and_eq_true, List.all_eq_true, List.contains_iff_mem] at enabled
  obtain ⟨isNew, known⟩ := enabled
  cases event with
  | newProc p stdin stdout stderr =>
      have fresh : p ∉ w.procs := by simpa using isNew
      exact ⟨_, [], rfl, by simpa using fdinit_sound sound fresh⟩
  | pipeNew source fromfd target tofd pipe readJunk writeJunk =>
      obtain ⟨w', made, -, sound'⟩ := lpsPipeNew_sound sound careful
        (known source (by simp [subjects])) (known target (by simp [subjects]))
      exact ⟨w', [], by simp [perform, made], by simpa using sound'⟩
  | openat p kfd =>
      obtain ⟨r, w', opened, -, sound'⟩ := @sysOpenat_sound w trace p kfd sound careful
        (known p (by simp [subjects]))
      exact ⟨w', [.returned r], by simp [perform, opened], sound'.returns r⟩
  | dup p oldfd =>
      obtain ⟨r, w', dups, -, sound'⟩ := fdfdup2_sound sound careful
      exact ⟨w', [.returned r], by simp [perform, sysDup, dups], sound'.returns r⟩
  | dup3 p oldfd newfd flags =>
      by_cases flagged : flags = 0
      · obtain ⟨r, w', dups, -, sound'⟩ := fdfdup2_sound sound (careful flagged)
        exact ⟨w', [.returned r], by simp [perform, sysDup3, flagged, dups], sound'.returns r⟩
      · refine ⟨w, [.returned (-LINUX_INVAL)], ?_, sound.returns _⟩
        rw [perform, sysDup3, if_pos flagged]
        rfl
  | close p fd =>
      obtain ⟨r, w', closes, -, sound'⟩ := sysClose_sound sound careful
      exact ⟨w', [.returned r], by simp [perform, closes], by simpa using sound'.returns r⟩
  | exit p =>
      obtain ⟨w', obs, frees, -, sound', -⟩ := fdfree_sound sound careful
      exact ⟨w', obs, frees, sound'⟩

/-! ## Runs -/

/-- In every run of careful operations each file is on the heap exactly while a slot
refers to it, and has been closed and freed once when none does; and exit leaves no
slot. -/
theorem files_closed_with_last_descriptor {trace : List FdObs} {target : Option FdWorld}
    (run : Run step StepCareful (some init) trace target) :
    ∃ w, target = some w ∧ w.Lifetime trace ∧
      ∀ p w' obs, w.Careful (.exit p) → step (some w) (.exit p) = some (some w', obs) →
        w'.Lifetime (trace ++ obs) ∧ ∀ fd, w'.table p fd = none := by
  have sound : ∃ w, target = some w ∧ w.Sound trace := by
    refine run.invariant (fun trace target => ∃ w, target = some w ∧ w.Sound trace)
      ⟨init, rfl, init_sound⟩ ?_
    rintro trace observed _ next event ⟨w, rfl, sound⟩ careful stepped
    rw [step] at stepped
    split at stepped
    · rename_i enabled
      obtain ⟨w', obs, performs, sound'⟩ := perform_sound sound enabled careful
      rw [performs] at stepped
      cases stepped
      exact ⟨w', rfl, sound'⟩
    · cases stepped
  obtain ⟨w, rfl, sound⟩ := sound
  refine ⟨w, rfl, sound.toLifetime, ?_⟩
  intro p w' obs careful stepped
  obtain ⟨last, obs', frees, -, sound', empty⟩ := fdfree_sound sound careful
  have performs : w.perform (.exit p) = some (last, obs') := frees
  rw [step] at stepped
  split at stepped
  · rw [performs] at stepped
    cases stepped
    exact ⟨sound'.toLifetime, empty⟩
  · cases stepped

/-- The run of a process that duplicates a standard stream, closes the duplicate, opens
a file and exits. -/
theorem files_closed_with_last_descriptor_exit :
    ∃ trace target, Run step StepCareful (some init) trace target ∧
      closes 3 trace = 1 ∧ frees 3 trace = 1 ∧
      ∃ w, target = some w ∧ w.Lifetime trace ∧
        ∀ p w' obs, w.Careful (.exit p) → step (some w) (.exit p) = some (some w', obs) →
          w'.Lifetime (trace ++ obs) ∧ ∀ fd, w'.table p fd = none := by
  have seen : (exec (guarded step StepCareful) (some init) [.newProc 1 10 11 12, .dup 1 0,
      .close 1 3, .openat 1 13, .exit 1]).map (fun (_, trace) => (closes 3 trace, frees 3 trace)) =
      some (1, 1) := by
    decide +kernel
  obtain ⟨⟨target, trace⟩, executed, shown⟩ := Option.map_eq_some_iff.mp seen
  have run := run_of_exec_guarded executed
  exact ⟨trace, target, run, congrArg Prod.fst shown, congrArg Prod.snd shown,
    files_closed_with_last_descriptor run⟩

/-- A close of a standard stream frees its file without calling the close function. -/
theorem standard_stream_freed_unclosed :
    ¬∀ (trace : List FdObs) (target : Option FdWorld),
      Run step (Always (Option FdWorld) FdEvent) (some init) trace target →
      ∃ w, target = some w ∧ w.Lifetime trace := by
  intro claim
  have seen : (exec step (some init) [.newProc 1 10 11 12, .close 1 1]).map Prod.snd =
      some [.freed 1, .returned 0] := by
    decide +kernel
  obtain ⟨⟨target, trace⟩, executed, rfl⟩ := Option.map_eq_some_iff.mp seen
  obtain ⟨w, -, lifetime⟩ := claim _ _ (run_of_exec executed)
  have differ : closes 1 [.freed 1, .returned 0] = frees 1 [.freed 1, .returned 0] :=
    (lifetime.closed 1).trans (lifetime.freed 1).symm
  exact absurd differ (by decide)

end FdWorld

end Lps.Linux

import Lps.Linux.FdLife

/-!
# Descriptor tables against the POSIX ones

`fdfdup2` refuses to replace an open descriptor and takes the descriptor -1 for a
request of any free one, so `dup3` is not the one of POSIX.  Where no call gets that
far, a table behaves as the reference table does.
-/

namespace Lps.Linux

open Lps.Transition

variable {File : Type*}

/-- What a table of POSIX holds at each descriptor. -/
abbrev PosixTable (File : Type*) := Nat → Option File

namespace PosixTable

/-- The file of a descriptor. -/
def lookup (t : PosixTable File) (fd : Int) : Option File :=
  if 0 ≤ fd ∧ fd < LINUX_NOFILE then t fd.toNat else none

/-- The lowest free descriptor. -/
@[irreducible]
def lowest (t : PosixTable File) : Option Nat :=
  (List.range LINUX_NOFILE).find? fun i => (t i).isNone

/-- Open a file at the lowest free descriptor. -/
def openat (t : PosixTable File) (file : File) : Option Nat × PosixTable File :=
  match t.lowest with
  | none => (none, t)
  | some i => (some i, Function.update t i (some file))

/-- Open the file of a descriptor again. -/
def dup (t : PosixTable File) (oldfd : Int) : Option Nat × PosixTable File :=
  match t.lookup oldfd with
  | none => (none, t)
  | some file => t.openat file

/-- Make a descriptor refer to the file of another one, whatever it referred to. -/
def dup3 (t : PosixTable File) (oldfd newfd : Int) : Option Nat × PosixTable File :=
  match t.lookup oldfd with
  | none => (none, t)
  | some file =>
      if 0 ≤ newfd ∧ newfd < LINUX_NOFILE then
        (some newfd.toNat, Function.update t newfd.toNat (some file))
      else (none, t)

/-- Free a descriptor. -/
def close (t : PosixTable File) (fd : Int) : Option Nat × PosixTable File :=
  match t.lookup fd with
  | none => (none, t)
  | some _ => (some 0, Function.update t fd.toNat none)

end PosixTable

/-- The calls of a process on its table; `dup3` has no flags, and the host opens the
file of `openat`. -/
inductive FdCall
  | openat (kfd : Int)
  | dup (oldfd : Int)
  | dup3 (oldfd newfd : Int)
  | close (fd : Int)
  deriving DecidableEq

/-- A call on the reference table; a file that is opened is this one. -/
def PosixTable.perform (t : PosixTable File) (file : File) :
    FdCall → Option Nat × PosixTable File
  | .openat _ => t.openat file
  | .dup oldfd => t.dup oldfd
  | .dup3 oldfd newfd => t.dup3 oldfd newfd
  | .close fd => t.close fd

namespace FdWorld

/-- A call of a process. -/
def call (w : FdWorld) (p : ProcId) : FdCall → Option (Int × FdWorld)
  | .openat kfd => w.sysOpenat p kfd
  | .dup oldfd => w.sysDup p oldfd
  | .dup3 oldfd newfd => w.sysDup3 p oldfd newfd 0
  | .close fd => (w.sysClose p fd).map fun (r, w, _) => (r, w)

/-- A call returns what the reference does, or a negative number when that fails. -/
def Returns (r : Int) : Option Nat → Prop
  | none => r < 0
  | some expected => r = expected

/-- A call and the one on the reference table; the file that `openat` makes is the
same in both. -/
def beside (p : ProcId) : Step (Option FdWorld × PosixTable FileId) FdCall (Int × Option Nat)
  | (none, _), _ => none
  | (some w, t), call =>
      let (expected, t) := t.perform w.made call
      match w.call p call with
      | none => some ((none, t), [])
      | some (r, w) => some ((some w, t), [(r, expected)])

/-! ## The condition -/

/-- A duplicate that gets a slot, and a close of an open descriptor, find a mutex in the
file, and the close frees no wild path; `dup3` of an open descriptor is not onto another
open one, and onto -1 only when the table is full. -/
def Conforming (w : FdWorld) (p : ProcId) : FdCall → Prop
  | .openat _ => True
  | .dup oldfd => w.DupLocks p oldfd (-1)
  | .dup3 oldfd newfd =>
      ∀ f ∈ w.fdfget p oldfd, (newfd = -1 → w.firstFree p = none) ∧
        (InRange newfd → w.table p newfd.toNat = none ∧ (w.lock f).isSome)
  | .close fd =>
      ∀ f ∈ w.fdfget p fd, ∃ file ∈ w.lock f, file.refs - 1 = 0 ∨ file.path ≠ .wild

instance (w : FdWorld) (p : ProcId) : (call : FdCall) → Decidable (w.Conforming p call)
  | .openat _ => inferInstanceAs (Decidable True)
  | .dup .. => inferInstanceAs (Decidable (DupLocks ..))
  | .dup3 .. => inferInstanceAs (Decidable (∀ f ∈ _, (_ → _) ∧ (_ → _ ∧ _)))
  | .close .. => inferInstanceAs (Decidable (∀ f ∈ _, ∃ file ∈ _, _ ∨ _))

/-- The condition as one on the steps of a run. -/
def StepConforming (p : ProcId) : Option FdWorld × PosixTable FileId → FdCall → Prop
  | (none, _), _ => True
  | (some w, _), call => w.Conforming p call

instance (p : ProcId) : ∀ state call, Decidable (StepConforming p state call)
  | (none, _), _ => inferInstanceAs (Decidable True)
  | (some w, _), call => inferInstanceAs (Decidable (w.Conforming p call))

/-! ## One call -/

variable {w : FdWorld} {p : ProcId} {i : Nat} {f : FileId}

/-- What a call did agrees with the reference. -/
def Agrees (p : ProcId) (done : Option (Int × FdWorld))
    (expected : Option Nat × PosixTable FileId) : Prop :=
  ∃ r w', done = some (r, w') ∧ Returns r expected.1 ∧ w'.table p = expected.2

theorem fdfget_lookup (fd : Int) : w.fdfget p fd = PosixTable.lookup (w.table p) fd := by
  rw [fdfget, PosixTable.lookup]
  by_cases range : 0 ≤ fd ∧ fd < LINUX_NOFILE
  · rw [if_pos range, if_neg (by omega)]
  · rw [if_neg range, if_pos (by omega)]

theorem firstFree_lowest : w.firstFree p = PosixTable.lowest (w.table p) := by
  unfold firstFree PosixTable.lowest
  rfl

theorem setSlot_table (x : Option FileId) :
    (w.setSlot p i x).table p = Function.update (w.table p) i x :=
  Function.update_self ..

/-- Filling a slot agrees when the file can be locked. -/
theorem fill_agrees :
    Agrees p (w.fill p i f) (some i, Function.update (w.table p) i (some f)) ↔
      (w.lock f).isSome := by
  constructor
  · rintro ⟨r, w', fills, -, -⟩
    cases locks : w.lock f with
    | none =>
        rw [fill, locks] at fills
        cases fills
    | some file => rfl
  · intro locks
    obtain ⟨file, locked⟩ := Option.isSome_iff_exists.mp locks
    exact ⟨_, _, fill_spec locked, rfl, setSlot_table _⟩

/-- A failure agrees with a failure. -/
theorem fail_agrees {r : Int} (negative : r < 0) : Agrees p (some (r, w)) (none, w.table p) :=
  ⟨r, w, rfl, negative, rfl⟩

theorem not_agrees_fail {r : Int} {n : Nat} {t : PosixTable FileId} (negative : r < 0) :
    ¬Agrees p (some (r, w)) (some n, t) := by
  rintro ⟨_, _, done, returns, -⟩
  cases done
  have : r = n := returns
  omega

theorem openat_agrees (kfd : Int) :
    Agrees p (w.call p (.openat kfd)) (PosixTable.perform (w.table p) w.made (.openat kfd)) := by
  rw [call, PosixTable.perform, PosixTable.openat]
  cases found : PosixTable.lowest (w.table p) with
  | some i =>
      have free : w.firstFree p = some i := firstFree_lowest.trans found
      exact ⟨_, _, sysOpenat_spec free, rfl, setSlot_table _⟩
  | none =>
      have full : (w.filenew kfd .owned).2.firstFree p = none :=
        (@firstFree_congr w p (w.filenew kfd .owned).2 rfl).trans
          (firstFree_lowest.trans found)
      have emfile : -LINUX_EMFILE < 0 := by decide
      refine ⟨-LINUX_EMFILE, (w.filenew kfd .owned).2, ?_, emfile, rfl⟩
      simp only [sysOpenat, fdfassign, full, Option.bind_eq_bind, Option.bind_some]
      rfl

/-- `fdfdup2` of a descriptor that is not open. -/
theorem fdfdup2_closed {oldfd newfd : Int} (look : w.fdfget p oldfd = none) :
    w.fdfdup2 p oldfd newfd = some (-LINUX_BADF, w) := by
  rcases fdfdup2_cases w p oldfd newfd with ⟨r, -, fails⟩ | ⟨f, i, open', -, -⟩
  · rw [fdfdup2] at fails ⊢
    rw [fdfget] at look
    split
    · rfl
    · rename_i range
      rw [if_neg (by omega)] at look
      rw [look]
  · exact absurd (open'.symm.trans look) (by rintro ⟨⟩)

/-- `fdfdup2` of an open descriptor onto any free one. -/
theorem fdfdup2_any {oldfd : Int} (look : w.fdfget p oldfd = some f) :
    w.fdfdup2 p oldfd (-1) = match w.firstFree p with
      | none => some (-LINUX_EMFILE, w)
      | some i => w.fill p i f := by
  obtain ⟨range, slot⟩ := fdfget_eq_some look
  have bounded : ¬(oldfd < 0 ∨ oldfd ≥ LINUX_NOFILE ∨ (-1 : Int) < -1 ∨ (-1 : Int) ≥ LINUX_NOFILE) := by
    obtain ⟨low, high⟩ := range
    have small : ¬(-1 : Int) ≥ LINUX_NOFILE := by decide
    simp [small, not_lt.mpr low, not_le.mpr high]
  rw [fdfdup2, if_neg bounded, slot]
  rfl

/-- `fdfdup2` of an open descriptor onto one in range. -/
theorem fdfdup2_onto {oldfd newfd : Int} (look : w.fdfget p oldfd = some f)
    (range : InRange newfd) :
    w.fdfdup2 p oldfd newfd =
      if (w.table p newfd.toNat).isSome then some (-LINUX_BADF, w)
      else w.fill p newfd.toNat f := by
  obtain ⟨⟨low, high⟩, slot⟩ := fdfget_eq_some look
  obtain ⟨newLow, newHigh⟩ := range
  have bounded : ¬(oldfd < 0 ∨ oldfd ≥ LINUX_NOFILE ∨ newfd < -1 ∨ newfd ≥ LINUX_NOFILE) := by
    omega
  rw [fdfdup2, if_neg bounded, slot]
  dsimp only
  rw [if_neg (by omega)]

/-- `fdfdup2` onto a descriptor out of range. -/
theorem fdfdup2_outside {oldfd newfd : Int} (outside : ¬InRange newfd) (given : newfd ≠ -1) :
    w.fdfdup2 p oldfd newfd = some (-LINUX_BADF, w) := by
  rw [fdfdup2, if_pos]
  rw [InRange] at outside
  omega

theorem dup_agrees (oldfd : Int) :
    Agrees p (w.call p (.dup oldfd)) (PosixTable.perform (w.table p) w.made (.dup oldfd)) ↔
      w.Conforming p (.dup oldfd) := by
  have badf : -LINUX_BADF < 0 := by decide
  have emfile : -LINUX_EMFILE < 0 := by decide
  rw [call, sysDup, PosixTable.perform, PosixTable.dup, ← fdfget_lookup, Conforming, DupLocks]
  cases look : w.fdfget p oldfd with
  | none =>
      rw [fdfdup2_closed look]
      simp [fail_agrees badf]
  | some f =>
      have slot : w.dupSlot p (-1) = w.firstFree p := by
        rw [dupSlot, if_neg (by decide), if_pos rfl]
      simp only [fdfdup2_any look, slot, PosixTable.openat, ← firstFree_lowest, Option.mem_def,
        Option.some.injEq, forall_eq']
      cases w.firstFree p with
      | none => simp [fail_agrees emfile]
      | some i => simp [fill_agrees]

theorem dup3_agrees (oldfd newfd : Int) :
    Agrees p (w.call p (.dup3 oldfd newfd))
        (PosixTable.perform (w.table p) w.made (.dup3 oldfd newfd)) ↔
      w.Conforming p (.dup3 oldfd newfd) := by
  have badf : -LINUX_BADF < 0 := by decide
  have emfile : -LINUX_EMFILE < 0 := by decide
  rw [call, sysDup3, if_neg (by simp), PosixTable.perform, PosixTable.dup3, ← fdfget_lookup,
    Conforming]
  cases look : w.fdfget p oldfd with
  | none =>
      rw [fdfdup2_closed look]
      simp [fail_agrees badf]
  | some f =>
      simp only [Option.mem_def, Option.some.injEq, forall_eq']
      by_cases range : InRange newfd
      · have given : newfd ≠ -1 := by
          rintro rfl
          exact absurd range (by decide)
        rw [fdfdup2_onto look range, if_pos (show 0 ≤ newfd ∧ newfd < LINUX_NOFILE from range)]
        cases slot : w.table p newfd.toNat with
        | none =>
            simp [fill_agrees, given, range]
        | some g => simp [not_agrees_fail badf, given, range]
      · rw [if_neg (show ¬(0 ≤ newfd ∧ newfd < LINUX_NOFILE) from range)]
        by_cases any : newfd = -1
        · subst any
          rw [fdfdup2_any look]
          cases found : w.firstFree p with
          | none => simp [fail_agrees emfile, range]
          | some i =>
              simp only [forall_const, reduceCtorEq, false_and, iff_false]
              rintro ⟨r, w', fills, negative, -⟩
              rw [fill] at fills
              cases locks : w.lock f with
              | none =>
                  rw [locks] at fills
                  cases fills
              | some file =>
                  rw [locks] at fills
                  cases fills
                  exact absurd negative (by simp [Returns])
        · rw [fdfdup2_outside range any]
          simp [fail_agrees badf, any, range]

theorem close_agrees (fd : Int) :
    Agrees p (w.call p (.close fd)) (PosixTable.perform (w.table p) w.made (.close fd)) ↔
      w.Conforming p (.close fd) := by
  have badf : -LINUX_BADF < 0 := by decide
  rw [call, sysClose, fdfclose, PosixTable.perform, PosixTable.close, ← fdfget_lookup, Conforming]
  cases look : w.fdfget p fd with
  | none => simp [fail_agrees badf]
  | some f =>
      simp only [filefree, Option.mem_def, Option.some.injEq, forall_eq']
      cases locks : w.lock f with
      | none => simp [Agrees]
      | some file =>
          simp only [Option.bind_eq_bind, Option.bind_some, Option.some.injEq, exists_eq_left']
          by_cases last : file.refs - 1 = 0
          · simp only [last, if_pos, true_or, iff_true]
            exact ⟨0, _, rfl, rfl, setSlot_table _⟩
          · by_cases wild : file.path = .wild
            · have wrong : ¬(file.refs - 1 = 0 ∨ file.path ≠ .wild) :=
                fun either => either.elim last fun tame => tame wild
              simp only [wrong, iff_false, if_neg last, if_pos wild, Agrees]
              rintro ⟨r, w', crashes, -⟩
              cases crashes
            · simp only [last, wild, if_false, ne_eq, not_false_eq_true, or_true, iff_true]
              exact ⟨0, _, rfl, rfl, setSlot_table _⟩

/-- A call agrees with the reference exactly when it meets the condition. -/
theorem call_agrees (call : FdCall) :
    Agrees p (w.call p call) (PosixTable.perform (w.table p) w.made call) ↔
      w.Conforming p call := by
  cases call with
  | openat kfd => exact ⟨fun _ => trivial, fun _ => openat_agrees kfd⟩
  | dup oldfd => exact dup_agrees oldfd
  | dup3 oldfd newfd => exact dup3_agrees oldfd newfd
  | close fd => exact close_agrees fd

/-! ## Runs -/

/-- In every run of calls that meet the condition, from any table, each call returns what
the reference returns, and every lookup finds what it finds in the reference. -/
theorem calls_match_posix {start : FdWorld} {trace : List (Int × Option Nat)}
    {target : Option FdWorld × PosixTable FileId}
    (run : Run (beside p) (StepConforming p) (some start, start.table p) trace target) :
    (∀ returned ∈ trace, Returns returned.1 returned.2) ∧
      ∃ w, target.1 = some w ∧ ∀ fd, w.fdfget p fd = target.2.lookup fd := by
  have sound : (∃ w, target = (some w, w.table p)) ∧
      ∀ returned ∈ trace, Returns returned.1 returned.2 := by
    refine run.invariant (fun trace target => (∃ w, target = (some w, w.table p)) ∧
      ∀ returned ∈ trace, Returns returned.1 returned.2) ⟨⟨start, rfl⟩, by simp⟩ ?_
    rintro trace observed _ next event ⟨⟨w, rfl⟩, earlier⟩ conforming stepped
    obtain ⟨r, w', done, returns, tables⟩ := (call_agrees event).mpr conforming
    simp only [beside, done, Option.some.injEq, Prod.mk.injEq] at stepped
    obtain ⟨rfl, rfl⟩ := stepped
    refine ⟨⟨w', by rw [tables]⟩, ?_⟩
    intro returned mem
    rcases List.mem_append.mp mem with old | new
    · exact earlier returned old
    · rw [List.mem_singleton] at new
      subst new
      exact returns
  obtain ⟨⟨w, rfl⟩, matching⟩ := sound
  exact ⟨matching, w, rfl, fdfget_lookup⟩

/-- A process that duplicates a standard stream, closes the duplicate, opens a file in
its place and duplicates that onto a free descriptor. -/
theorem calls_match_posix_stdio :
    ∃ start trace target,
      Run (beside 1) (StepConforming 1) (some start, start.table 1) trace target ∧
        trace = [(3, some 3), (0, some 0), (3, some 3), (9, some 9), (-9, none)] ∧
        (∀ returned ∈ trace, Returns returned.1 returned.2) ∧
        ∃ w, target.1 = some w ∧ ∀ fd, w.fdfget 1 fd = target.2.lookup fd := by
  let start := init.fdinit 1 10 11 12
  have seen : (exec (guarded (beside 1) (StepConforming 1)) (some start, start.table 1)
      [.dup 1, .close 3, .openat 13, .dup3 3 9, .dup 5]).map Prod.snd =
      some [(3, some 3), (0, some 0), (3, some 3), (9, some 9), (-9, none)] := by
    decide +kernel
  obtain ⟨⟨target, trace⟩, executed, rfl⟩ := Option.map_eq_some_iff.mp seen
  have run := run_of_exec_guarded executed
  exact ⟨start, _, target, run, rfl, calls_match_posix run⟩

/-- Standard error cannot be made to refer to standard output. -/
theorem redirection_refused :
    ¬∀ (start : FdWorld) (p : ProcId) (trace : List (Int × Option Nat))
        (target : Option FdWorld × PosixTable FileId),
      Run (beside p) (Always _ FdCall) (some start, start.table p) trace target →
        (∀ returned ∈ trace, Returns returned.1 returned.2) ∧
        ∃ w, target.1 = some w ∧ ∀ fd, w.fdfget p fd = target.2.lookup fd := by
  intro claim
  let start := init.fdinit 1 10 11 12
  have seen : (exec (beside 1) (some start, start.table 1) [.dup3 1 2]).map Prod.snd =
      some [(-9, some 2)] := by
    decide +kernel
  obtain ⟨⟨target, trace⟩, executed, rfl⟩ := Option.map_eq_some_iff.mp seen
  obtain ⟨matching, -⟩ := claim start 1 _ target (run_of_exec executed)
  have returns : (-9 : Int) = (2 : Nat) := matching _ List.mem_cons_self
  exact absurd returns (by decide)

end FdWorld

end Lps.Linux

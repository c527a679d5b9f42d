import Mathlib.Data.List.Basic
import Mathlib.Tactic.Common

/-!
# Walking along segments

A path is a list of segments: each stays where one is, goes back, or enters a name.  Walking along
a path keeps a stack of the segments that are in effect, and what goes back takes the last name
away.  At a root there is nothing to go back to; elsewhere a segment that goes back and finds no
name stays in effect.

Whether a segment is in effect at the end can be told without a stack, from what stands before it
and behind it: a name is taken away by what is behind it, and a segment that goes back is used up
by a name before it.
-/

namespace Lps.Segments

universe u

/-- What a segment does. -/
inductive SegmentKind
  | current
  | back
  | normal
  deriving DecidableEq

variable {α : Type u} (kind : α → SegmentKind) (rooted : Bool)

/-- One segment; the last one in effect is on top of the stack. -/
def enter (stack : List α) (s : α) : List α :=
  match kind s with
  | .current => stack
  | .normal => s :: stack
  | .back => match stack with
    | [] => if rooted then [] else [s]
    | top :: below => if kind top = .normal then below else s :: top :: below

/-- All segments of a path. -/
def walk (stack segments : List α) : List α := segments.foldl (enter kind rooted) stack

/-- The segments in effect at the end of a path. -/
def resolve (segments : List α) : List α := (walk kind rooted [] segments).reverse

/-- How many of the names before them these segments take away, if there are enough. -/
def pops : List α → Nat
  | [] => 0
  | s :: after => match kind s with
    | .current => pops after
    | .normal => pops after - 1
    | .back => pops after + 1

/-- How many names are in effect behind these segments, nearest first. -/
def standing : List α → Nat
  | [] => 0
  | s :: before => match kind s with
    | .current => standing before
    | .normal => standing before + 1
    | .back => standing before - 1

/-- Whether a segment is not in effect at the end. -/
def Removed (before : List α) (s : α) (after : List α) : Prop :=
  match kind s with
  | .current => True
  | .back => rooted = true ∨ 0 < standing kind before
  | .normal => 0 < pops kind after

instance (before : List α) (s : α) (after : List α) : Decidable (Removed kind rooted before s after) := by
  unfold Removed
  split <;> infer_instance

/-- The segments that are not removed. -/
def kept : List α → List α → List α
  | _, [] => []
  | before, s :: after =>
      if Removed kind rooted before s after then kept (s :: before) after
      else s :: kept (s :: before) after

/-! ## What a walk leaves on the stack -/

/-- A stack of names above segments that go back; with a root there are names only. -/
structure Settled (names backs : List α) : Prop where
  isName : ∀ s ∈ names, kind s = .normal
  isBack : ∀ s ∈ backs, kind s = .back
  atRoot : rooted = true → backs = []

variable {kind rooted} {names backs before segments front : List α} {s : α}

theorem enter_current {stack : List α} (what : kind s = .current) :
    enter kind rooted stack s = stack := by
  simp [enter, what]

theorem enter_normal {stack : List α} (what : kind s = .normal) :
    enter kind rooted stack s = s :: stack := by
  simp [enter, what]

theorem standing_normal (what : kind s = .normal) :
    standing kind (s :: before) = standing kind before + 1 := by
  simp [standing, what]

theorem standing_back (what : kind s = .back) :
    standing kind (s :: before) = standing kind before - 1 := by
  simp [standing, what]

theorem standing_current (what : kind s = .current) :
    standing kind (s :: before) = standing kind before := by
  simp [standing, what]

theorem settled_nil : Settled kind rooted [] [] :=
  ⟨List.forall_mem_nil _, List.forall_mem_nil _, fun _ => rfl⟩

theorem walk_cons {stack : List α} : walk kind rooted stack (s :: segments) =
    walk kind rooted (enter kind rooted stack s) segments := rfl

theorem walk_append {stack : List α} : walk kind rooted stack (front ++ segments) =
    walk kind rooted (walk kind rooted stack front) segments :=
  List.foldl_append

namespace Settled

/-- A segment that goes back takes the last name away. -/
theorem enter_back (settled : Settled kind rooted (front ++ names) backs) (isBack : kind s = .back)
    (one : front.length = 1) : enter kind rooted (front ++ names ++ backs) s = names ++ backs := by
  obtain ⟨top, rfl⟩ := List.length_eq_one_iff.mp one
  have isName : kind top = .normal := settled.isName top (List.mem_append_left _ (List.mem_singleton_self _))
  simp [enter, isBack, isName]

/-- With no name left, it stays in effect when there is no root. -/
theorem enter_back_nil (settled : Settled kind rooted [] backs) (isBack : kind s = .back) :
    enter kind rooted backs s = if rooted then backs else s :: backs := by
  cases backs with
  | nil => simp [enter, isBack]
  | cons top below =>
      have notRooted : rooted = false := by
        cases rooted with
        | false => rfl
        | true => cases settled.atRoot rfl
      have noName : kind top = .back := settled.isBack top List.mem_cons_self
      simp [enter, isBack, noName, notRooted]

theorem tail (settled : Settled kind rooted (s :: names) backs) : Settled kind rooted names backs :=
  ⟨fun t mem => settled.isName t (List.mem_cons_of_mem _ mem), settled.isBack, settled.atRoot⟩

theorem name (settled : Settled kind rooted names backs) (isName : kind s = .normal) :
    Settled kind rooted (s :: names) backs :=
  ⟨List.forall_mem_cons.mpr ⟨isName, settled.isName⟩, settled.isBack, settled.atRoot⟩

theorem back (settled : Settled kind rooted [] backs) (isBack : kind s = .back)
    (noRoot : rooted = false) : Settled kind rooted [] (s :: backs) := by
  refine ⟨List.forall_mem_nil _, List.forall_mem_cons.mpr ⟨isBack, settled.isBack⟩, fun root => ?_⟩
  rw [noRoot] at root
  cases root

/-- One segment. -/
theorem enter (settled : Settled kind rooted names backs) :
    ∃ names' backs', enter kind rooted (names ++ backs) s = names' ++ backs' ∧
      Settled kind rooted names' backs' := by
  cases what : kind s with
  | current => exact ⟨names, backs, by simp [Segments.enter, what], settled⟩
  | normal => exact ⟨s :: names, backs, by simp [Segments.enter, what], settled.name what⟩
  | back =>
      cases names with
      | cons top names =>
          have taken := @enter_back _ kind rooted names backs [top] s settled what rfl
          exact ⟨names, backs, taken, settled.tail⟩
      | nil =>
          have last := settled.enter_back_nil what
          cases root : rooted with
          | true =>
              subst root
              exact ⟨[], backs, last, settled⟩
          | false =>
              subst root
              exact ⟨[], s :: backs, last, settled.back what rfl⟩

/-- A whole path. -/
theorem walk (settled : Settled kind rooted names backs) :
    ∃ names' backs', walk kind rooted (names ++ backs) segments = names' ++ backs' ∧
      Settled kind rooted names' backs' := by
  induction segments generalizing names backs with
  | nil => exact ⟨names, backs, rfl, settled⟩
  | cons s segments ih =>
      obtain ⟨names', backs', entered, settled'⟩ := @enter _ kind rooted names backs s settled
      rw [walk_cons, entered]
      exact ih settled'

/-- What is kept of a path is in effect at its end, on top of the names that it does not take
away. -/
theorem walk_eq (settled : Settled kind rooted names backs)
    (counted : names.length = standing kind before) :
    Segments.walk kind rooted (names ++ backs) segments =
      (kept kind rooted before segments).reverse ++ names.drop (pops kind segments) ++ backs := by
  induction segments generalizing names backs before with
  | nil => rfl
  | cons s segments ih =>
      rw [walk_cons, kept]
      cases what : kind s with
      | current =>
          have gone : Removed kind rooted before s segments := by simp [Removed, what]
          have later := @ih names backs (s :: before) settled (counted.trans (standing_current what).symm)
          rw [enter_current what, if_pos gone, later]
          simp [pops, what]
      | normal =>
          have more : (s :: names).length = standing kind (s :: before) := by
            rw [standing_normal what, List.length_cons, counted]
          have later := @ih (s :: names) backs (s :: before) (settled.name what) more
          rw [enter_normal what, ← List.cons_append, later, pops, what]
          dsimp only
          cases taken : pops kind segments with
          | zero =>
              have stays : ¬Removed kind rooted before s segments := by simp [Removed, what, taken]
              rw [if_neg stays]
              simp
          | succ n =>
              have gone : Removed kind rooted before s segments := by simp [Removed, what, taken]
              rw [if_pos gone]
              simp
      | back =>
          rw [pops, what]
          dsimp only
          cases names with
          | cons top names =>
              have gone : Removed kind rooted before s segments := by
                rw [List.length_cons] at counted
                simp only [Removed, what]
                exact Or.inr (by omega)
              have taken := @enter_back _ kind rooted names backs [top] s settled what rfl
              rw [if_pos gone]
              have fewer : names.length = standing kind (s :: before) := by
                rw [standing_back what, ← counted, List.length_cons, Nat.add_sub_cancel]
              calc Segments.walk kind rooted
                    (Segments.enter kind rooted (top :: names ++ backs) s) segments
                  = Segments.walk kind rooted (names ++ backs) segments :=
                    congrArg (Segments.walk kind rooted · segments) taken
                _ = (kept kind rooted (s :: before) segments).reverse ++
                    names.drop (pops kind segments) ++ backs := ih settled.tail fewer
          | nil =>
              have none : standing kind before = 0 := counted.symm
              have still : standing kind (s :: before) = 0 := by
                rw [standing_back what, none]
              rw [List.nil_append, settled.enter_back_nil what, List.drop_nil]
              cases root : rooted with
              | true =>
                  subst root
                  have gone : Removed kind true before s segments := by simp [Removed, what]
                  rw [if_pos gone, if_pos rfl]
                  have later := @ih [] backs (s :: before) settled still.symm
                  rwa [List.nil_append, List.drop_nil] at later
              | false =>
                  subst root
                  have stays : ¬Removed kind false before s segments := by simp [Removed, what, none]
                  have later := @ih [] (s :: backs) (s :: before) (settled.back what rfl) still.symm
                  rw [if_neg stays, if_neg (by decide)]
                  rw [List.nil_append, List.drop_nil] at later
                  rw [later]
                  simp

/-- A stack is what walking along it from the bottom leaves. -/
theorem walk_reverse (settled : Settled kind rooted names backs) :
    Segments.walk kind rooted [] (names ++ backs).reverse = names ++ backs := by
  rw [List.reverse_append, walk_append]
  have bottom : Segments.walk kind rooted [] backs.reverse = backs := by
    induction backs with
    | nil => rfl
    | cons s backs ih =>
        have below : Settled kind rooted [] backs :=
          ⟨List.forall_mem_nil _, fun t mem => settled.isBack t (List.mem_cons_of_mem _ mem), fun root => by
            cases settled.atRoot root⟩
        have isBack : kind s = .back := settled.isBack s List.mem_cons_self
        rw [List.reverse_cons, walk_append, ih ⟨settled.isName, below.isBack, below.atRoot⟩]
        rw [walk_cons, below.enter_back_nil isBack, if_neg fun root => by cases settled.atRoot root]
        rfl
  rw [bottom]
  induction names with
  | nil => rfl
  | cons s names ih =>
      have isName : kind s = .normal := settled.isName s List.mem_cons_self
      rw [List.reverse_cons, walk_append, ih settled.tail, walk_cons, enter_normal isName]
      rfl

end Settled

/-! ## What is in effect at the end -/

/-- The segments in effect are those that are not removed. -/
theorem kept_eq_resolve : kept kind rooted [] segments = resolve kind rooted segments := by
  have whole := @Settled.walk_eq _ kind rooted [] [] [] segments settled_nil rfl
  rw [List.nil_append, List.drop_nil, List.append_nil, List.append_nil] at whole
  rw [resolve, whole, List.reverse_reverse]

/-- They go back first and then enter names; with a root they only enter names. -/
theorem resolve_settled : ∃ names backs, resolve kind rooted segments = backs ++ names ∧
    (∀ s ∈ names, kind s = .normal) ∧ (∀ s ∈ backs, kind s = .back) ∧
    (rooted = true → backs = []) := by
  obtain ⟨names, backs, same, settled⟩ := @Settled.walk _ kind rooted [] [] segments settled_nil
  rw [List.nil_append] at same
  refine ⟨names.reverse, backs.reverse, ?_, ?_, ?_, ?_⟩
  · rw [resolve, same, List.reverse_append]
  · exact fun s mem => settled.isName s (List.mem_reverse.mp mem)
  · exact fun s mem => settled.isBack s (List.mem_reverse.mp mem)
  · intro root
    rw [settled.atRoot root, List.reverse_nil]

/-- To go on from where a path has led, one may go on from what it resolves to. -/
theorem resolve_append : resolve kind rooted (resolve kind rooted front ++ segments) =
    resolve kind rooted (front ++ segments) := by
  obtain ⟨names, backs, same, settled⟩ := @Settled.walk _ kind rooted [] [] front settled_nil
  rw [List.nil_append] at same
  rw [resolve, resolve, resolve, walk_append, walk_append, same, settled.walk_reverse]

/-- What a path resolves to resolves to itself. -/
theorem resolve_resolve : resolve kind rooted (resolve kind rooted segments) =
    resolve kind rooted segments := by
  have self := @resolve_append _ kind rooted [] segments
  rwa [List.append_nil, List.append_nil] at self

/-- Segments are left out of a path; the others stay in their order. -/
theorem resolve_sublist : (resolve kind rooted segments).Sublist segments := by
  have among : ∀ before, (kept kind rooted before segments).Sublist segments := by
    induction segments with
    | nil => exact fun before => List.Sublist.refl []
    | cons s segments ih =>
        intro before
        rw [kept]
        split
        · exact (ih (s :: before)).cons s
        · exact (ih (s :: before)).cons_cons s
  rw [← kept_eq_resolve]
  exact among []

end Lps.Segments

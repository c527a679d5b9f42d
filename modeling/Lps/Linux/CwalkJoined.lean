import Lps.Linux.CwalkSegments

/-!
# The segments of several paths

The segments of a list of paths are the names of all of them.  Whether a segment is removed is found
by going through the names behind it, or through those before it, and agrees with what a walk along
all the names leaves in effect.
-/

namespace Lps.Linux.Cwk

open Lps.Segments

/-- The names of all paths. -/
def namesOf (paths : List (List Byte)) : List (List Byte) := paths.flatMap (names separator)

/-- A segment of several paths is at a name; those before it are listed backward. -/
def AtJoined (paths : List (List Byte)) (sj : SegmentJoined) (before : List (List Byte))
    (part : List Byte) (after : List (List Byte)) : Prop :=
  ∃ front path rest earlier later, paths = front ++ path :: rest ∧ sj.paths = paths ∧
    sj.pathIndex = front.length ∧ At sj.segment earlier part later ∧
    names separator path = earlier.reverse ++ part :: later ∧
    before = earlier ++ (namesOf front).reverse ∧ after = later ++ namesOf rest

variable {paths front rest : List (List Byte)} {path part : List Byte} {sj : SegmentJoined}
  {before after earlier later : List (List Byte)} {segment : Segment}

@[simp]
theorem namesOf_nil : namesOf [] = [] := rfl

theorem namesOf_append : namesOf (front ++ rest) = namesOf front ++ namesOf rest :=
  List.flatMap_append

theorem namesOf_cons : namesOf (path :: rest) = names separator path ++ namesOf rest :=
  List.flatMap_cons

/-! ## From path to path -/

/-- What a function that looks for the first segment of a path finds. -/
def FindsFirst (path : List Byte) (found : Option Segment) : Prop :=
  (found = none ∧ names separator path = []) ∨
    ∃ segment part after, found = some segment ∧ names separator path = part :: after ∧
      At segment [] part after

/-- What a function that looks for the last segment of a path finds. -/
def FindsLast (path : List Byte) (found : Option (Option Segment)) : Prop :=
  (found = some none ∧ names separator path = []) ∨
    ∃ segment part before, found = some (some segment) ∧
      (names separator path).reverse = part :: before ∧ At segment before part []

theorem getFirstSegmentWithoutRoot_finds (noNul : 0 ∉ path) :
    FindsFirst path (getFirstSegmentWithoutRoot path 0) :=
  @getFirstSegmentWithoutRoot_spec [] path noNul (List.forall_mem_nil _)

theorem getFirstSegment_finds (noNul : 0 ∉ path) : FindsFirst path (getFirstSegment path) := by
  rw [getFirstSegment, getRoot]
  split
  · rename_i sep
    cases path with
    | nil => cases sep
    | cons c path =>
        have same : c = separator := isSeparator_iff.mp sep
        exact @getFirstSegmentWithoutRoot_spec [c] path noNul (List.forall_mem_singleton.mpr same)
  · exact getFirstSegmentWithoutRoot_finds noNul

/-- From the first segment to the last. -/
theorem FindsFirst.last {found : Option Segment} (first : FindsFirst path found) :
    FindsLast path (found.elim (some none) fun segment => (toLastSegment segment).map some) := by
  rcases first with ⟨rfl, empty⟩ | ⟨segment, part, after, rfl, named, at_⟩
  · exact Or.inl ⟨rfl, empty⟩
  · obtain ⟨last, name, before, reached, atLast, all⟩ := at_.toLast
    refine Or.inr ⟨last, name, before, ?_, ?_, atLast⟩
    · rw [Option.elim_some, reached, Option.map_some]
    · rw [named, List.reverse_cons]
      exact all.symm

theorem getLastSegment_finds (noNul : 0 ∉ path) : FindsLast path (getLastSegment path) := by
  have last := (getFirstSegment_finds noNul).last
  rw [getLastSegment]
  split <;> rename_i found <;> rwa [found] at last

theorem getLastSegmentWithoutRoot_finds (noNul : 0 ∉ path) :
    FindsLast path (getLastSegmentWithoutRoot path) := by
  have last := (getFirstSegmentWithoutRoot_finds noNul).last
  rw [getLastSegmentWithoutRoot]
  split <;> rename_i found <;> rwa [found] at last

/-- The first segment of a path is the first one of the paths from there on. -/
theorem atJoined_first (at_ : At segment [] part later) (named : names separator path = part :: later) :
    AtJoined (front ++ path :: rest) ⟨segment, front ++ path :: rest, front.length⟩
      (namesOf front).reverse part (later ++ namesOf rest) :=
  ⟨front, path, rest, [], later, rfl, rfl, rfl, at_, named, rfl, rfl⟩

/-- What the loops that look for the first segment from a path on find. -/
def FindsFrom (front rest : List (List Byte)) (found : Option SegmentJoined) : Prop :=
  (found = none ∧ namesOf rest = []) ∨
    ∃ sj part after, found = some sj ∧ namesOf rest = part :: after ∧
      AtJoined (front ++ rest) sj (namesOf front).reverse part after

/-- In one path, or in those behind it. -/
theorem findsFrom_cons {found : Option Segment} {others : Option SegmentJoined}
    (first : FindsFirst path found) (behind : FindsFrom (front ++ [path]) rest others) :
    FindsFrom front (path :: rest)
      (found.elim others fun segment => some ⟨segment, front ++ path :: rest, front.length⟩) := by
  rw [FindsFrom, namesOf_cons]
  rcases first with ⟨rfl, empty⟩ | ⟨segment, part, after, rfl, named, at_⟩
  · rw [empty, List.nil_append, Option.elim_none]
    rcases behind with none | ⟨sj, part, after, found, named, at_⟩
    · exact Or.inl none
    · rw [List.append_assoc, List.singleton_append, namesOf_append, namesOf_cons, empty,
        namesOf_nil, List.append_nil, List.append_nil] at at_
      exact Or.inr ⟨sj, part, after, found, named, at_⟩
  · rw [named]
    exact Or.inr ⟨_, part, _, rfl, rfl, atJoined_first at_ named⟩

theorem nextSegmentFrom_finds (noNul : ∀ path ∈ rest, 0 ∉ path) :
    FindsFrom front rest (nextSegmentFrom (front ++ rest) front.length) := by
  induction rest generalizing front with
  | nil =>
      rw [nextSegmentFrom, dif_neg (by simp)]
      exact Or.inl ⟨rfl, rfl⟩
  | cons path rest ih =>
      obtain ⟨here, others⟩ := List.forall_mem_cons.mp noNul
      have behind := @ih (front ++ [path]) others
      have all := findsFrom_cons (getFirstSegmentWithoutRoot_finds here) behind
      rw [List.append_assoc, List.singleton_append, List.length_append] at all
      rw [nextSegmentFrom, dif_pos (by simp), List.getElem_append_right (Nat.le_refl _)]
      simp only [Nat.sub_self, List.getElem_cons_zero]
      split <;> rename_i found <;> rwa [found] at all

theorem firstSegmentFrom_finds (noNul : ∀ path ∈ rest, 0 ∉ path) :
    FindsFrom front rest (firstSegmentFrom (front ++ rest) front.length) := by
  induction rest generalizing front with
  | nil =>
      rw [firstSegmentFrom, dif_neg (by simp)]
      exact Or.inl ⟨rfl, rfl⟩
  | cons path rest ih =>
      obtain ⟨here, others⟩ := List.forall_mem_cons.mp noNul
      have behind := @ih (front ++ [path]) others
      have all := findsFrom_cons (getFirstSegment_finds here) behind
      rw [List.append_assoc, List.singleton_append, List.length_append] at all
      rw [firstSegmentFrom, dif_pos (by simp), List.getElem_append_right (Nat.le_refl _)]
      simp only [Nat.sub_self, List.getElem_cons_zero]
      split <;> rename_i found <;> rwa [found] at all

/-- The last segment of the paths before one. -/
theorem previousSegmentFrom_finds (noNul : ∀ path ∈ front, 0 ∉ path) :
    (previousSegmentFrom (front ++ rest) front.length = some none ∧ namesOf front = []) ∨
      ∃ sj part before, previousSegmentFrom (front ++ rest) front.length = some (some sj) ∧
        (namesOf front).reverse = part :: before ∧
        AtJoined (front ++ rest) sj before part (namesOf rest) := by
  induction front using List.reverseRecOn generalizing rest with
  | nil => exact Or.inl ⟨rfl, rfl⟩
  | append_singleton front path ih =>
      obtain ⟨others, here⟩ := List.forall_mem_append.mp noNul
      have noNulHere : 0 ∉ path := here path (List.mem_singleton_self path)
      have last : FindsLast path
          (if front.length = 0 then getLastSegment path else getLastSegmentWithoutRoot path) := by
        split
        · exact getLastSegment_finds noNulHere
        · exact getLastSegmentWithoutRoot_finds noNulHere
      have earlier := @ih (path :: rest) others
      have this : (front ++ path :: rest).getD front.length [] = path := by simp
      rw [List.append_assoc, List.singleton_append, List.length_append, List.length_singleton,
        previousSegmentFrom, namesOf_append, namesOf_cons, namesOf_nil, List.append_nil, this]
      generalize (if front.length = 0 then getLastSegment path else getLastSegmentWithoutRoot path) = found
        at last ⊢
      rcases last with ⟨rfl, empty⟩ | ⟨segment, part, before, rfl, named, at_⟩
      · rw [namesOf_cons, empty, List.nil_append] at earlier
        rwa [empty, List.append_nil]
      · refine Or.inr ⟨_, part, before ++ (namesOf front).reverse, rfl, ?_,
          front, path, rest, before, [], rfl, rfl, rfl, at_, ?_, rfl, rfl⟩
        · rw [List.reverse_append, named]
          rfl
        · rw [← List.reverse_reverse (names separator path), named, List.reverse_cons]

namespace AtJoined

/-- Forward by one name. -/
theorem next (at_ : AtJoined paths sj before part after) (noNul : ∀ path ∈ paths, 0 ∉ path) :
    (getNextSegmentJoined sj = some none ∧ after = []) ∨
      ∃ next name later, getNextSegmentJoined sj = some (some next) ∧ after = name :: later ∧
        AtJoined paths next (part :: before) name later := by
  obtain ⟨front, path, rest, earlier, later, rfl, same, index, at_, named, rfl, rfl⟩ := at_
  have inside : sj.pathIndex < sj.paths.length := by
    rw [same, index]
    simp
  rw [getNextSegmentJoined, if_pos inside]
  rcases at_.next with ⟨stop, rfl⟩ | ⟨next, name, later, found, rfl, at'⟩
  · rw [stop]
    dsimp only
    have others : ∀ path ∈ rest, 0 ∉ path := fun path mem =>
      noNul path (List.mem_append_right _ (List.mem_cons_of_mem _ mem))
    have following := @nextSegmentFrom_finds (front ++ [path]) rest others
    have passed : (namesOf (front ++ [path])).reverse = part :: (earlier ++ (namesOf front).reverse) := by
      rw [namesOf_append, namesOf_cons, namesOf_nil, List.append_nil, named, List.reverse_append,
        List.reverse_append]
      simp
    rw [List.append_assoc, List.singleton_append, List.length_append, List.length_singleton] at following
    rw [same, index, List.nil_append]
    rcases following with ⟨none, empty⟩ | ⟨next, name, after, found, more, at'⟩
    · exact Or.inl ⟨congrArg some none, empty⟩
    · rw [List.append_assoc, List.singleton_append, passed] at at'
      exact Or.inr ⟨next, name, after, congrArg some found, more, at'⟩
  · rw [found]
    refine Or.inr ⟨_, name, later ++ namesOf rest, rfl, rfl,
      front, path, rest, part :: earlier, later, rfl, same, index, at', ?_, rfl, rfl⟩
    rw [named, List.reverse_cons, List.append_assoc]
    rfl

/-- Backward by one name. -/
theorem previous (at_ : AtJoined paths sj before part after) (noNul : ∀ path ∈ paths, 0 ∉ path) :
    (getPreviousSegmentJoined sj = some none ∧ before = []) ∨
      ∃ previous name earlier, getPreviousSegmentJoined sj = some (some previous) ∧
        before = name :: earlier ∧ AtJoined paths previous earlier name (part :: after) := by
  obtain ⟨front, path, rest, earlier, later, rfl, same, index, at_, named, rfl, rfl⟩ := at_
  have some_ : sj.paths ≠ [] := by
    rw [same]
    simp
  rw [getPreviousSegmentJoined, if_neg some_]
  rcases at_.previous with ⟨stop, rfl⟩ | ⟨previous, name, earlier, found, rfl, at'⟩
  · rw [stop]
    dsimp only
    have others : ∀ path ∈ front, 0 ∉ path := fun path mem => noNul path (List.mem_append_left _ mem)
    have preceding := @previousSegmentFrom_finds front (path :: rest) others
    rw [namesOf_cons, named] at preceding
    rw [same, index, List.nil_append]
    rcases preceding with ⟨none, empty⟩ | ⟨previous, name, before, found, more, at'⟩
    · exact Or.inl ⟨none, List.reverse_eq_nil_iff.mpr empty⟩
    · exact Or.inr ⟨previous, name, before, found, more, at'⟩
  · rw [found]
    refine Or.inr ⟨_, name, earlier ++ (namesOf front).reverse, rfl, rfl,
      front, path, rest, earlier, part :: later, rfl, same, index, at', ?_, rfl, rfl⟩
    rw [named, List.reverse_cons, List.append_assoc]
    rfl

/-- Where a segment is among all names. -/
theorem namesOf_eq (at_ : AtJoined paths sj before part after) :
    namesOf paths = before.reverse ++ part :: after := by
  obtain ⟨front, path, rest, earlier, later, rfl, -, -, -, named, rfl, rfl⟩ := at_
  rw [namesOf_append, namesOf_cons, named, List.reverse_append, List.reverse_reverse]
  simp only [List.append_assoc, List.cons_append]

end AtJoined

/-- The first segment of all, if they have names. -/
theorem getFirstSegmentJoined_spec (noNul : ∀ path ∈ paths, 0 ∉ path) :
    (getFirstSegmentJoined paths = none ∧ namesOf paths = []) ∨
      ∃ sj part after, getFirstSegmentJoined paths = some sj ∧ namesOf paths = part :: after ∧
        AtJoined paths sj [] part after :=
  @firstSegmentFrom_finds [] paths noNul

/-! ## What is removed -/

/-- The type of a segment depends on its name. -/
def kind (part : List Byte) : SegmentKind :=
  if part = [dot] then .current
  else if part = [dot, dot] then .back
  else .normal

/-- The types under the library's names. -/
def SegmentType.kind : SegmentType → SegmentKind
  | .CWK_NORMAL => .normal
  | .CWK_CURRENT => .current
  | .CWK_BACK => .back

/-- A string and a name are compared up to the name's length. -/
theorem strncmpEq_iff {s t rest : List Byte} (noNul : 0 ∉ s) :
    strncmpEq (s ++ rest) t s.length = true ↔ s <+: t := by
  induction s generalizing t with
  | nil => simp [strncmpEq]
  | cons c s ih =>
      obtain ⟨nonzero, others⟩ := not_or.mp (List.mem_cons.not.mp noNul)
      have other : c ≠ 0 := fun nul => nonzero nul.symm
      rw [List.cons_append, List.length_cons, strncmpEq]
      cases t with
      | nil => simpa using fun nul => absurd nul other
      | cons d t => simpa [ih others, List.cons_prefix_cons] using fun _ nul => absurd nul other

theorem kind_getSegmentType (at_ : At segment before part after) :
    (getSegmentType segment).kind = kind part := by
  obtain ⟨front, rest, placed, -, -⟩ := at_
  have noNul : 0 ∉ part := by
    have all := placed.noNul
    rw [placed.path] at all
    exact (not_mem_append (not_mem_append all).2).1
  have text : segment.path.drop segment.begin = part ++ rest := by
    rw [placed.path, placed.begin, List.drop_left]
  obtain ⟨c, part, rfl⟩ := List.exists_cons_of_ne_nil placed.isName.ne_nil
  have one : c :: part <+: [dot] ↔ c :: part = [dot] := by
    simp [List.cons_prefix_cons]
  have two : c :: part <+: [dot, dot] ↔ c :: part = [dot] ∨ c :: part = [dot, dot] := by
    cases part with
    | nil => simp [List.cons_prefix_cons]
    | cons d part => simp [List.cons_prefix_cons]
  rw [getSegmentType, kind, text, placed.size]
  simp only [strncmpEq_iff noNul, one, two]
  by_cases current : c :: part = [dot]
  · rw [if_pos current, if_pos current]
    rfl
  · rw [if_neg current, if_neg current]
    by_cases back : c :: part = [dot, dot]
    · rw [if_pos (Or.inr back), if_pos back]
      rfl
    · rw [if_neg (fun either => either.elim current back), if_neg back]
      rfl

theorem kind_joined (at_ : AtJoined paths sj before part after) :
    (getSegmentType sj.segment).kind = kind part := by
  obtain ⟨front, path, rest, earlier, later, -, -, -, at_, -⟩ := at_
  exact kind_getSegmentType at_

/-- The counters of the loops count as integers do as long as there is room. -/
theorem toInt_add_one {counter : CInt} {i : Int} (counts : counter.toInt = i) (below : -2 ^ 31 ≤ i)
    (above : i + 1 < 2 ^ 31) : (counter + 1).toInt = i + 1 := by
  have one : (1 : CInt).toInt = 1 := by decide
  rw [BitVec.toInt_add, counts, one]
  exact Int.bmod_eq_of_le (by omega) (by omega)

theorem toInt_sub_one {counter : CInt} {i : Int} (counts : counter.toInt = i) (below : -2 ^ 31 ≤ i - 1)
    (above : i < 2 ^ 31) : (counter - 1).toInt = i - 1 := by
  have one : (1 : CInt).toInt = 1 := by decide
  rw [BitVec.toInt_sub, counts, one]
  exact Int.bmod_eq_of_le (by omega) (by omega)

/-- A name is removed if those behind it go back over it. -/
theorem normalWillBeRemoved_eq {n : Nat} {counter : CInt} (at_ : AtJoined paths sj before part after)
    (noNul : ∀ path ∈ paths, 0 ∉ path) (counts : counter.toInt = n) (few : n + after.length < 2 ^ 31) :
    normalWillBeRemoved sj counter = some (decide (n < pops kind after)) := by
  induction after generalizing sj before part n counter with
  | nil =>
      rcases at_.next noNul with ⟨stop, -⟩ | ⟨next, name, later, -, none, -⟩
      · rw [normalWillBeRemoved]
        split <;> rename_i found <;> rw [stop] at found
        · cases found
        · simp [pops]
        · cases found
      · cases none
  | cons name later ih =>
      rcases at_.next noNul with ⟨-, none⟩ | ⟨next, name', later', found, same, at'⟩
      · cases none
      · obtain ⟨rfl, rfl⟩ := List.cons.inj same
        have type := kind_joined at'
        rw [normalWillBeRemoved]
        split <;> rename_i found' <;> rw [found] at found'
        · cases found'
        · cases found'
        · cases found'
          rw [List.length_cons] at few
          rw [pops, ← type]
          split
          · rename_i normal
            rw [normal]
            have more : (counter + 1).toInt = (n + 1 : Nat) := toInt_add_one counts (by omega) (by omega)
            rw [ih at' more (by omega)]
            congr 2
            simp only [SegmentType.kind]
            exact propext (by omega)
          · rename_i back
            rw [back]
            simp only [SegmentType.kind]
            have less : (counter - 1).toInt = (n : Int) - 1 := toInt_sub_one counts (by omega) (by omega)
            rw [less]
            cases n with
            | zero => simp
            | succ n =>
                have fewer : (counter - 1).toInt = n := less.trans (by omega)
                rw [if_neg (by omega), ih at' fewer (by omega)]
                congr 2
                exact propext (by omega)
          · rename_i current
            rw [current]
            exact ih at' counts (by omega)

/-- A segment that goes back is removed if there is a name before it that nothing else takes away. -/
theorem backWillBeRemoved_eq {n : Nat} {counter : CInt} (at_ : AtJoined paths sj before part after)
    (noNul : ∀ path ∈ paths, 0 ∉ path) (counts : counter.toInt = -n) (few : n + before.length < 2 ^ 31) :
    backWillBeRemoved sj counter = some (decide (n < standing kind before)) := by
  induction before generalizing sj after part n counter with
  | nil =>
      rcases at_.previous noNul with ⟨stop, -⟩ | ⟨previous, name, earlier, -, none, -⟩
      · rw [backWillBeRemoved]
        split <;> rename_i found <;> rw [stop] at found
        · cases found
        · simp [standing]
        · cases found
      · cases none
  | cons name earlier ih =>
      rcases at_.previous noNul with ⟨-, none⟩ | ⟨previous, name', earlier', found, same, at'⟩
      · cases none
      · obtain ⟨rfl, rfl⟩ := List.cons.inj same
        have type := kind_joined at'
        rw [backWillBeRemoved]
        split <;> rename_i found' <;> rw [found] at found'
        · cases found'
        · cases found'
        · cases found'
          rw [List.length_cons] at few
          rw [standing, ← type]
          split
          · rename_i normal
            rw [normal]
            simp only [SegmentType.kind]
            have more : (counter + 1).toInt = -(n : Int) + 1 := toInt_add_one counts (by omega) (by omega)
            rw [more]
            cases n with
            | zero => simp
            | succ n =>
                have fewer : (counter + 1).toInt = -(n : Int) := more.trans (by omega)
                rw [if_neg (by omega), ih at' fewer (by omega)]
                congr 2
                exact propext (by omega)
          · rename_i back
            rw [back]
            have less : (counter - 1).toInt = -(n : Int) - 1 := toInt_sub_one counts (by omega) (by omega)
            have more : (counter - 1).toInt = -((n + 1 : Nat) : Int) := less.trans (by omega)
            rw [ih at' more (by omega)]
            congr 2
            simp only [SegmentType.kind]
            exact propext (by omega)
          · rename_i current
            rw [current]
            exact ih at' counts (by omega)

/-- The segments that are removed are those that are not in effect at the end. -/
theorem segmentWillBeRemoved_eq {absolute : Bool} (at_ : AtJoined paths sj before part after)
    (noNul : ∀ path ∈ paths, 0 ∉ path) (few : (namesOf paths).length < 2 ^ 31) :
    segmentWillBeRemoved sj absolute = some (decide (Removed kind absolute before part after)) := by
  have type := kind_joined at_
  rw [at_.namesOf_eq, List.length_append, List.length_reverse, List.length_cons] at few
  have back := @backWillBeRemoved_eq paths part sj before after 0 0 at_ noNul rfl (by omega)
  have normal := @normalWillBeRemoved_eq paths part sj before after 0 0 at_ noNul rfl (by omega)
  rw [segmentWillBeRemoved]
  split
  · rename_i current
    rw [current] at type
    simp [Removed, ← type, SegmentType.kind]
  · rename_i isBack
    rw [isBack] at type
    cases absolute with
    | true => simp [Removed, ← type, SegmentType.kind]
    | false =>
        rw [if_neg (by decide), back]
        simp [Removed, ← type, SegmentType.kind]
  · rename_i isNormal
    rw [isNormal] at type
    rw [normal]
    simp [Removed, ← type, SegmentType.kind]

end Lps.Linux.Cwk

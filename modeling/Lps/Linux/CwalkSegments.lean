import Lps.Linux.Cwalk
import Lps.Segments.Names
import Lps.Segments.Resolve

/-!
# The segments of a path are its names

A segment is found at a name of its path, with the names before it and behind it.  The functions that
move from one segment to another go through these names one by one, forward and backward.
-/

namespace Lps.Linux.Cwk

open Lps.Segments

variable {path u v part rest seps : List Byte}

theorem charAt_cons {c : Byte} : charAt (u ++ c :: v) u.length = c := by
  simp [charAt]

theorem charAt_end : charAt u u.length = 0 := by
  simp [charAt]

theorem length_concat {c : Byte} : (u ++ [c]).length = u.length + 1 := List.length_append

/-- A character in the middle, counted from there. -/
theorem charAt_middle {c : Byte} (suffix : path = u ++ v) (char : v.head? = some c) :
    charAt path u.length = c := by
  cases v with
  | nil => cases char
  | cons d v =>
      obtain rfl : d = c := by simpa using char
      rw [suffix, charAt_cons]

theorem isSeparator_iff {c : Byte} : isSeparator c = true ↔ c = separator := beq_iff_eq

theorem isSeparator_zero : isSeparator 0 = false := by decide

theorem isSeparator_separator : isSeparator separator = true := by decide

theorem isSeparator_eq_false {c : Byte} (other : c ≠ separator) : isSeparator c = false :=
  beq_eq_false_iff_ne.mpr other

/-- What comes behind a name. -/
def EndsHere (rest : List Byte) : Prop := rest = [] ∨ ∃ later, rest = separator :: later

/-- What comes before a name. -/
def BeginsHere (front : List Byte) : Prop := front = [] ∨ ∃ begun, front = begun ++ [separator]

/-! ## The characters that are passed over -/

/-- The next stop is behind the name. -/
theorem findNextStop_name (noSep : separator ∉ part) (noNul : 0 ∉ part) (ends : EndsHere rest) :
    findNextStop (u ++ (part ++ rest)) u.length = u.length + part.length := by
  induction part generalizing u with
  | nil =>
      rw [findNextStop, if_neg]
      · rfl
      rintro ⟨char, other⟩
      rcases ends with rfl | ⟨later, rfl⟩
      · rw [List.append_nil, List.append_nil, charAt_end] at char
        exact char rfl
      · rw [List.nil_append, charAt_cons] at other
        cases other
  | cons c part ih =>
      have here : c ≠ 0 ∧ isSeparator c = false :=
        ⟨fun nul => noNul (nul ▸ List.mem_cons_self),
          isSeparator_eq_false fun sep => noSep (sep ▸ List.mem_cons_self)⟩
      rw [List.cons_append, findNextStop, charAt_cons, if_pos here]
      have later := @ih (u ++ [c]) (fun mem => noSep (List.mem_cons_of_mem _ mem))
        (fun mem => noNul (List.mem_cons_of_mem _ mem))
      rw [List.append_assoc, List.singleton_append, length_concat] at later
      rw [later, List.length_cons]
      omega

/-- A list that does not begin with a separator. -/
def NoSepHere (rest : List Byte) : Prop := ∀ c, rest.head? = some c → c ≠ separator

theorem noSepHere_name (isName : IsName separator part) : NoSepHere (part ++ rest) := by
  intro c char same
  cases part with
  | nil => exact isName.ne_nil rfl
  | cons d part =>
      obtain rfl : d = c := by simpa using char
      exact isName.noSep (same ▸ List.mem_cons_self)

theorem isSeparator_noSepHere (noSep : NoSepHere rest) :
    isSeparator (charAt (u ++ rest) u.length) = false := by
  cases rest with
  | nil =>
      rw [List.append_nil, charAt_end]
      exact isSeparator_zero
  | cons c rest =>
      rw [charAt_cons]
      exact isSeparator_eq_false (noSep c rfl)

/-- Separators are passed over. -/
theorem overSeparators_seps (allSeps : ∀ c ∈ seps, c = separator) (noSep : NoSepHere rest) :
    overSeparators (u ++ (seps ++ rest)) u.length = u.length + seps.length := by
  induction seps generalizing u with
  | nil =>
      rw [overSeparators, if_neg]
      · rfl
      rw [List.nil_append, isSeparator_noSepHere noSep]
      decide
  | cons c seps ih =>
      obtain ⟨rfl, others⟩ := List.forall_mem_cons.mp allSeps
      rw [List.cons_append, overSeparators, charAt_cons, if_pos isSeparator_separator]
      have later := @ih (u ++ [separator]) others
      rw [List.append_assoc, List.singleton_append, length_concat] at later
      rw [later, List.length_cons]
      omega

/-- Before a name they are passed over as well. -/
theorem skipSeparators_name (allSeps : ∀ c ∈ seps, c = separator) (isName : IsName separator part)
    (noNul : 0 ∉ part) :
    skipSeparators (u ++ (seps ++ (part ++ rest))) u.length = some (u.length + seps.length) := by
  induction seps generalizing u with
  | nil =>
      rw [skipSeparators, if_neg]
      · rfl
      rw [List.nil_append, isSeparator_noSepHere (noSepHere_name isName)]
      decide
  | cons c seps ih =>
      obtain ⟨rfl, others⟩ := List.forall_mem_cons.mp allSeps
      have later := @ih (u ++ [separator]) others
      rw [List.append_assoc, List.singleton_append, length_concat] at later
      have following : charAt (u ++ separator :: (seps ++ (part ++ rest))) (u.length + 1) ≠ 0 := by
        have char : ∃ d, (seps ++ (part ++ rest)).head? = some d ∧ d ≠ 0 := by
          cases seps with
          | cons d seps =>
              obtain ⟨rfl, -⟩ := List.forall_mem_cons.mp others
              exact ⟨separator, rfl, by decide⟩
          | nil =>
              cases part with
              | nil => exact absurd rfl isName.ne_nil
              | cons d part => exact ⟨d, rfl, fun nul => noNul (nul ▸ List.mem_cons_self)⟩
        obtain ⟨d, head, nonzero⟩ := char
        rw [← length_concat (c := separator), @charAt_middle _ (u ++ [separator]) _ d (by simp) head]
        exact nonzero
      rw [List.cons_append, skipSeparators, charAt_cons, if_pos isSeparator_separator, if_neg following,
        later, List.length_cons]
      congr 1
      omega

/-- A path that is made of separators has no segment. -/
theorem skipSeparators_seps {c : Byte} (allSeps : ∀ d ∈ c :: seps, d = separator) :
    skipSeparators (u ++ c :: seps) u.length = none := by
  induction seps generalizing u c with
  | nil =>
      obtain ⟨rfl, -⟩ := List.forall_mem_cons.mp allSeps
      have stop : charAt (u ++ [separator]) (u.length + 1) = 0 := by
        rw [← length_concat (c := separator), charAt_end]
      rw [skipSeparators, charAt_cons, if_pos isSeparator_separator, if_pos stop]
  | cons d seps ih =>
      obtain ⟨rfl, others⟩ := List.forall_mem_cons.mp allSeps
      have later := @ih (u ++ [separator]) d others
      rw [List.append_assoc, List.singleton_append, length_concat] at later
      rw [skipSeparators, charAt_cons, if_pos isSeparator_separator, later, ite_self]

/-- From inside a name the way back ends where it begins. -/
theorem backToStop_name {begin n : Nat} (noSep : separator ∉ part) (begins : BeginsHere u)
    (within : begin ≤ u.length) (inside : n < part.length) :
    (backToStop (u ++ (part ++ rest)) begin (u.length + n) = u.length ∧
      isSeparator (charAt (u ++ (part ++ rest)) u.length) = false) ∨
    (backToStop (u ++ (part ++ rest)) begin (u.length + n) + 1 = u.length ∧
      isSeparator (charAt (u ++ (part ++ rest)) (u.length - 1)) = true) := by
  have inName : ∀ i, i < part.length → isSeparator (charAt (u ++ (part ++ rest)) (u.length + i)) = false := by
    intro i less
    have char : charAt (u ++ (part ++ rest)) (u.length + i) = part[i] := by
      simp [charAt, List.getElem?_append_right, List.getElem?_append_left less, less]
    rw [char]
    exact isSeparator_eq_false fun sep => noSep (sep ▸ List.getElem_mem less)
  induction n with
  | succ n ih =>
      by_cases more : begin < u.length + n + 1
      · rw [← Nat.add_assoc, backToStop, if_pos ⟨more, inName (n + 1) inside⟩]
        exact ih (Nat.lt_of_succ_lt inside)
      · omega
  | zero =>
      have here := inName 0 inside
      rw [Nat.add_zero] at here
      rcases begins with rfl | ⟨begun, rfl⟩
      · exact Or.inl ⟨rfl, here⟩
      · rw [length_concat] at within here ⊢
        rw [Nat.add_zero, backToStop, Nat.add_sub_cancel]
        split
        · apply Or.inr
          have sep : isSeparator (charAt (begun ++ [separator] ++ (part ++ rest)) begun.length) = true := by
            rw [List.append_assoc, List.singleton_append, charAt_cons]
            rfl
          refine ⟨?_, sep⟩
          cases begun with
          | nil => rfl
          | cons c begun =>
              rw [List.length_cons, backToStop, if_neg]
              rintro ⟨-, other⟩
              rw [List.length_cons] at sep
              rw [sep] at other
              cases other
        · exact Or.inl ⟨rfl, here⟩

/-- The previous stop is where the name begins. -/
theorem findPreviousStop_name {begin n : Nat} (noSep : separator ∉ part) (begins : BeginsHere u)
    (within : begin ≤ u.length) (inside : n < part.length) :
    findPreviousStop (u ++ (part ++ rest)) begin (u.length + n) = u.length := by
  rw [findPreviousStop]
  rcases @backToStop_name u part rest begin n noSep begins within inside with ⟨stop, char⟩ | ⟨stop, char⟩
  · rw [stop, char]
    rfl
  · rw [Nat.eq_sub_of_add_eq stop, char, if_pos rfl]
    omega

/-- The way back over separators ends inside a name, if there is one before it. -/
theorem overSeparatorsBack_name {segments : Nat} (allSeps : ∀ c ∈ seps, c = separator)
    (isName : IsName separator part) (within : segments ≤ u.length) :
    overSeparatorsBack (u ++ (part ++ (seps ++ rest))) segments (u.length + part.length + seps.length) =
      some (u.length + (part.length - 1)) := by
  induction seps using List.reverseRecOn generalizing rest with
  | nil =>
      obtain ⟨begun, c, rfl⟩ := (List.eq_nil_or_concat' part).resolve_left isName.ne_nil
      have char : charAt (u ++ (begun ++ [c] ++ ([] ++ rest))) (u.length + begun.length) = c := by
        simp [charAt]
      have other : c ≠ separator := fun sep => isName.noSep (sep ▸ by simp)
      rw [length_concat, List.length_nil, Nat.add_zero, ← Nat.add_assoc, overSeparatorsBack,
        if_neg (by omega), char, isSeparator_eq_false other]
      rfl
  | append_singleton seps c ih =>
      obtain ⟨others, here⟩ := List.forall_mem_append.mp allSeps
      obtain rfl : c = separator := here c (List.mem_singleton_self c)
      have char : charAt (u ++ (part ++ (seps ++ [separator] ++ rest)))
          (u.length + part.length + seps.length) = separator := by
        rw [← List.length_append, ← List.length_append]
        apply @charAt_middle _ (u ++ part ++ seps) ([separator] ++ rest)
        · simp
        · rfl
      have earlier := @ih (separator :: rest) others
      rw [length_concat, ← Nat.add_assoc, overSeparatorsBack, if_neg (by omega), char,
        if_pos isSeparator_separator]
      rw [List.append_assoc, List.singleton_append]
      exact earlier

/-- Where there are separators only, it finds nothing. -/
theorem overSeparatorsBack_seps {segments : Nat} (allSeps : ∀ c ∈ seps, c = separator) :
    overSeparatorsBack (seps ++ rest) segments seps.length = none := by
  induction seps using List.reverseRecOn generalizing rest with
  | nil => rfl
  | append_singleton seps c ih =>
      obtain ⟨others, here⟩ := List.forall_mem_append.mp allSeps
      obtain rfl : c = separator := here c (List.mem_singleton_self c)
      rw [length_concat, overSeparatorsBack, List.append_assoc, List.singleton_append, charAt_cons,
        if_pos isSeparator_separator, ih others, ite_self]

/-! ## A segment at a name -/

/-- Where a segment is: between these parts of its path, behind what may be the root. -/
structure Placed (segment : Segment) (front part rest : List Byte) : Prop where
  path : segment.path = front ++ (part ++ rest)
  begin : segment.begin = front.length
  size : segment.size = part.length
  isName : IsName separator part
  noNul : 0 ∉ segment.path
  begins : BeginsHere front
  ends : EndsHere rest
  behindRoot : segment.segments ≤ front.length
  root : ∀ c ∈ front.take segment.segments, c = separator

/-- A segment is at a name; those before it are listed backward. -/
def At (segment : Segment) (before : List (List Byte)) (part : List Byte) (after : List (List Byte)) : Prop :=
  ∃ front rest, Placed segment front part rest ∧ (names separator front).reverse = before ∧
    names separator rest = after

variable {segment : Segment} {before after : List (List Byte)} {front : List Byte} {root : Nat}

theorem not_mem_append (noNul : 0 ∉ u ++ v) : 0 ∉ u ∧ 0 ∉ v :=
  ⟨fun mem => noNul (List.mem_append_left _ mem), fun mem => noNul (List.mem_append_right _ mem)⟩

/-- What ends with separators. -/
theorem beginsHere_seps (some_ : seps ≠ []) (allSeps : ∀ c ∈ seps, c = separator) :
    BeginsHere (u ++ seps) := by
  obtain ⟨begun, c, rfl⟩ := (List.eq_nil_or_concat' seps).resolve_left some_
  obtain rfl : c = separator := allSeps c (by simp)
  exact Or.inr ⟨u ++ begun, (List.append_assoc ..).symm⟩

theorem endsHere_head {c : Byte} (ends : EndsHere (c :: rest)) : c = separator := by
  rcases ends with none | ⟨later, same⟩
  · cases none
  · exact (List.cons.inj same).1

theorem charAt_ne_zero {c : Byte} (noNul : 0 ∉ u ++ c :: v) : charAt (u ++ c :: v) u.length ≠ 0 := by
  rw [charAt_cons]
  rintro rfl
  exact noNul (List.mem_append_right _ List.mem_cons_self)

namespace Placed

theorem stop (placed : Placed segment front part rest) :
    segment.begin + segment.size = (front ++ part).length := by
  rw [placed.begin, placed.size, List.length_append]

theorem path_eq (placed : Placed segment front part rest) : segment.path = front ++ part ++ rest := by
  rw [placed.path, List.append_assoc]

/-- With separators only behind it, there is no next segment. -/
theorem next_none (placed : Placed segment front part rest) (seps : ∀ c ∈ rest, c = separator) :
    getNextSegment segment = some none := by
  rw [getNextSegment]
  dsimp only
  rw [placed.stop, placed.path_eq]
  cases rest with
  | nil =>
      rw [List.append_nil, charAt_end]
      rfl
  | cons c rest =>
      obtain ⟨rfl, others⟩ := List.forall_mem_cons.mp seps
      have noNul : 0 ∉ front ++ part ++ separator :: rest := placed.path_eq ▸ placed.noNul
      have skipped := @overSeparators_seps (front ++ part ++ [separator]) [] rest others
        (fun c char => by cases char)
      rw [List.append_nil, List.append_assoc (front ++ part), List.singleton_append, length_concat] at skipped
      have stop : charAt (front ++ part ++ separator :: rest) ((front ++ part).length + 1 + rest.length) = 0 := by
        have last : (front ++ part).length + 1 + rest.length = (front ++ part ++ separator :: rest).length := by
          simp only [List.length_append, List.length_cons]
          omega
        rw [last, charAt_end]
      rw [if_neg (charAt_ne_zero noNul), charAt_cons, if_neg (by decide), skipped, if_pos stop]

/-- Otherwise the next segment is at the next name. -/
theorem next {seps later : List Byte} {name : List Byte}
    (placed : Placed segment front part (seps ++ (name ++ later))) (allSeps : ∀ c ∈ seps, c = separator)
    (isName : IsName separator name) (ends : EndsHere later) :
    ∃ next, getNextSegment segment = some (some next) ∧
      Placed next (front ++ part ++ seps) name later := by
  cases seps with
  | nil =>
      obtain ⟨c, name, rfl⟩ := List.exists_cons_of_ne_nil isName.ne_nil
      exact absurd (endsHere_head placed.ends) fun same => isName.noSep (same ▸ List.mem_cons_self)
  | cons c seps =>
      obtain ⟨rfl, others⟩ := List.forall_mem_cons.mp allSeps
      rw [List.cons_append] at placed
      have noNul : 0 ∉ front ++ part ++ separator :: (seps ++ (name ++ later)) :=
        placed.path_eq ▸ placed.noNul
      have nameNul : 0 ∉ name :=
        (not_mem_append (not_mem_append (List.not_mem_of_not_mem_cons (not_mem_append noNul).2)).2).1
      have skipped := @overSeparators_seps (front ++ part ++ [separator]) (name ++ later) seps others
        (noSepHere_name isName)
      have found := @findNextStop_name (front ++ part ++ separator :: seps) name later isName.noSep nameNul ends
      have start : (front ++ part).length + 1 + seps.length = (front ++ part ++ separator :: seps).length := by
        simp only [List.length_append, List.length_cons]
        omega
      have whole : front ++ part ++ separator :: seps ++ (name ++ later) =
          front ++ part ++ separator :: (seps ++ (name ++ later)) := List.append_assoc ..
      rw [List.append_assoc (front ++ part), List.singleton_append, length_concat, start] at skipped
      have char : charAt (front ++ part ++ separator :: (seps ++ (name ++ later)))
          (front ++ part ++ separator :: seps).length ≠ 0 := by
        obtain ⟨c, name, rfl⟩ := List.exists_cons_of_ne_nil isName.ne_nil
        rw [← whole] at noNul ⊢
        exact charAt_ne_zero noNul
      refine ⟨⟨segment.path, segment.segments, (front ++ part ++ separator :: seps).length,
        (front ++ part ++ separator :: seps).length + name.length, name.length⟩, ?_,
        ⟨placed.path_eq.trans whole.symm, rfl, rfl, isName, placed.noNul, ?_, ends, ?_, ?_⟩⟩
      · rw [getNextSegment]
        dsimp only
        rw [placed.stop, placed.path_eq, if_neg (charAt_ne_zero noNul), charAt_cons, if_neg (by decide),
          skipped, if_neg char, ← whole, found, Nat.add_sub_cancel_left]
      · exact beginsHere_seps (List.cons_ne_nil _ _) allSeps
      · exact placed.behindRoot.trans (by simp only [List.length_append]; omega)
      · rw [List.append_assoc, List.take_append_of_le_length placed.behindRoot]
        exact placed.root

/-- With separators only before it, there is no previous segment. -/
theorem previous_none (placed : Placed segment front part rest) (seps : ∀ c ∈ front, c = separator) :
    getPreviousSegment segment = none := by
  rw [getPreviousSegment, placed.begin, placed.path, overSeparatorsBack_seps seps]
  exact ite_self _

/-- Otherwise the previous segment is at the name before it. -/
theorem previous {begun seps name : List Byte} (placed : Placed segment (begun ++ (name ++ seps)) part rest)
    (allSeps : ∀ c ∈ seps, c = separator) (isName : IsName separator name) (begins : BeginsHere begun) :
    ∃ previous, getPreviousSegment segment = some previous ∧
      Placed previous begun name (seps ++ (part ++ rest)) := by
  have pos : 0 < name.length := List.length_pos_iff.mpr isName.ne_nil
  have behindRoot : segment.segments ≤ begun.length := by
    by_contra inside
    obtain ⟨c, name, rfl⟩ := List.exists_cons_of_ne_nil isName.ne_nil
    have inRoot : c ∈ (begun ++ (c :: name ++ seps)).take segment.segments := by
      obtain ⟨n, more⟩ := Nat.exists_eq_add_of_lt (Nat.not_le.mp inside)
      rw [more, Nat.add_assoc, List.take_length_add_append]
      exact List.mem_append_right _ List.mem_cons_self
    have sep := placed.root c inRoot
    exact isName.noSep (sep ▸ List.mem_cons_self)
  have start : (begun ++ (name ++ seps)).length = begun.length + name.length + seps.length := by
    simp only [List.length_append, Nat.add_assoc]
  have later : ¬segment.begin ≤ segment.segments := by
    rw [placed.begin, start]
    omega
  have back := @overSeparatorsBack_name begun name (part ++ rest) seps segment.segments allSeps isName behindRoot
  have stop := @findPreviousStop_name begun name (seps ++ (part ++ rest)) segment.segments (name.length - 1)
    isName.noSep begins behindRoot (by omega)
  have whole : begun ++ (name ++ seps) ++ (part ++ rest) = begun ++ (name ++ (seps ++ (part ++ rest))) := by
    simp only [List.append_assoc]
  have ends : EndsHere (seps ++ (part ++ rest)) := by
    cases seps with
    | cons c seps =>
        obtain ⟨rfl, -⟩ := List.forall_mem_cons.mp allSeps
        exact Or.inr ⟨_, rfl⟩
    | nil =>
        rw [List.append_nil] at placed
        rcases placed.begins with empty | ⟨front, same⟩
        · exact absurd (List.append_eq_nil_iff.mp empty).2 isName.ne_nil
        · obtain ⟨front', c, rfl⟩ := (List.eq_nil_or_concat' name).resolve_left isName.ne_nil
          rw [← List.append_assoc] at same
          obtain rfl := (List.append_singleton_inj.mp same).2
          exact absurd (List.mem_append_right _ (List.mem_singleton_self _)) isName.noSep
  refine ⟨⟨segment.path, segment.segments, begun.length, begun.length + name.length, name.length⟩, ?_,
    ⟨placed.path.trans whole, rfl, rfl, isName, placed.noNul, begins, ends, behindRoot, ?_⟩⟩
  · have end_ : begun.length + (name.length - 1) + 1 = begun.length + name.length := by omega
    rw [getPreviousSegment, if_neg later, placed.begin, start, placed.path, whole, back]
    simp only [Option.map_some, stop, end_, Nat.add_sub_cancel_left]
  · have root := placed.root
    rwa [List.take_append_of_le_length behindRoot] at root

end Placed

/-- A path with separators only has no first segment. -/
theorem getFirstSegmentWithoutRoot_none (seps : ∀ c ∈ v, c = separator) :
    getFirstSegmentWithoutRoot (u ++ v) u.length = none := by
  rw [getFirstSegmentWithoutRoot]
  cases v with
  | nil => rw [List.append_nil, charAt_end, if_pos rfl]
  | cons c v =>
      rw [skipSeparators_seps seps]
      exact ite_self _

/-- The first segment is at the first name. -/
theorem getFirstSegmentWithoutRoot_placed (noNul : 0 ∉ u ++ (seps ++ (part ++ rest)))
    (root : ∀ c ∈ u, c = separator) (allSeps : ∀ c ∈ seps, c = separator)
    (isName : IsName separator part) (ends : EndsHere rest) :
    ∃ segment, getFirstSegmentWithoutRoot (u ++ (seps ++ (part ++ rest))) u.length = some segment ∧
      Placed segment (u ++ seps) part rest := by
  have nameNul : 0 ∉ part := (not_mem_append (not_mem_append (not_mem_append noNul).2).2).1
  have all : ∀ c ∈ u ++ seps, c = separator := List.forall_mem_append.mpr ⟨root, allSeps⟩
  have char : charAt (u ++ (seps ++ (part ++ rest))) u.length ≠ 0 := by
    obtain ⟨c, v, same⟩ : ∃ c v, seps ++ (part ++ rest) = c :: v := by
      apply List.exists_cons_of_ne_nil
      simp [isName.ne_nil]
    rw [same] at noNul ⊢
    exact charAt_ne_zero noNul
  have begins : BeginsHere (u ++ seps) := by
    by_cases empty : u ++ seps = []
    · exact Or.inl empty
    · exact @beginsHere_seps [] _ empty all
  have skip := @skipSeparators_name u part rest seps allSeps isName nameNul
  have stop := @findNextStop_name (u ++ seps) part rest isName.noSep nameNul ends
  rw [List.append_assoc, List.length_append] at stop
  refine ⟨⟨u ++ (seps ++ (part ++ rest)), u.length, (u ++ seps).length, (u ++ seps).length + part.length,
    part.length⟩, ?_,
    ⟨(List.append_assoc ..).symm, rfl, rfl, isName, noNul, begins, ends, ?_, ?_⟩⟩
  · rw [getFirstSegmentWithoutRoot, if_neg char, skip]
    simp only [Option.bind_eq_bind, Option.bind_some, stop, Nat.add_sub_cancel_left, List.length_append]
    rfl
  · dsimp only
    rw [List.length_append]
    omega
  · exact fun c mem => all c (List.mem_of_mem_take mem)

theorem endsHere_seps (allSeps : ∀ c ∈ seps, c = separator) : EndsHere seps := by
  cases seps with
  | nil => exact Or.inl rfl
  | cons c seps =>
      obtain ⟨rfl, -⟩ := List.forall_mem_cons.mp allSeps
      exact Or.inr ⟨seps, rfl⟩

theorem toLastSegment_stop (stop : getNextSegment segment = some none) :
    toLastSegment segment = some segment := by
  rw [toLastSegment]
  split <;> rename_i found <;> rw [stop] at found
  · cases found
  · cases found

theorem toLastSegment_next {next : Segment} (step : getNextSegment segment = some (some next)) :
    toLastSegment segment = toLastSegment next := by
  rw [toLastSegment]
  split <;> rename_i found <;> rw [step] at found
  · cases found
  · cases found
  · cases found
    rfl

namespace At

/-- Forward by one name. -/
theorem next (at_ : At segment before part after) :
    (getNextSegment segment = some none ∧ after = []) ∨
      ∃ next name later, getNextSegment segment = some (some next) ∧ after = name :: later ∧
        At next (part :: before) name later := by
  obtain ⟨front, rest, placed, rfl, rfl⟩ := at_
  rcases @first_name _ separator rest with seps | ⟨seps, name, later, rfl, allSeps, isName, ends⟩
  · exact Or.inl ⟨placed.next_none seps, names_seps seps⟩
  · apply Or.inr
    obtain ⟨next, found, placed'⟩ := placed.next allSeps isName ends
    refine ⟨next, name, names separator later, found, ?_, _, _, placed', ?_, rfl⟩
    · rw [names_append_seps allSeps, names_name_append isName ends]
    · rw [List.append_assoc, names_append placed.begins,
        names_name_append placed.isName (endsHere_seps allSeps), names_seps allSeps, List.reverse_append]
      rfl

/-- Backward by one name. -/
theorem previous (at_ : At segment before part after) :
    (getPreviousSegment segment = none ∧ before = []) ∨
      ∃ previous name earlier, getPreviousSegment segment = some previous ∧ before = name :: earlier ∧
        At previous earlier name (part :: after) := by
  obtain ⟨front, rest, placed, rfl, rfl⟩ := at_
  rcases @last_name _ separator front with seps | ⟨begun, name, seps, rfl, allSeps, isName, begins⟩
  · exact Or.inl ⟨placed.previous_none seps, List.reverse_eq_nil_iff.mpr (names_seps seps)⟩
  · apply Or.inr
    obtain ⟨previous, found, placed'⟩ := placed.previous allSeps isName begins
    refine ⟨previous, name, (names separator begun).reverse, found, ?_, _, _, placed', rfl, ?_⟩
    · rw [names_append begins, names_name_append isName (endsHere_seps allSeps), names_seps allSeps,
        List.reverse_append]
      rfl
    · rw [names_append_seps allSeps, names_name_append placed.isName placed.ends]

/-- The last segment is at the last name. -/
theorem toLast (at_ : At segment before part after) :
    ∃ last name earlier, toLastSegment segment = some last ∧ At last earlier name [] ∧
      name :: earlier = after.reverse ++ part :: before := by
  induction after generalizing segment before part with
  | nil =>
      rcases at_.next with ⟨stop, -⟩ | ⟨next, name, later, -, none, -⟩
      · exact ⟨segment, part, before, toLastSegment_stop stop, at_, rfl⟩
      · cases none
  | cons name later ih =>
      rcases at_.next with ⟨-, none⟩ | ⟨next, name', later', found, same, at'⟩
      · cases none
      · obtain ⟨rfl, rfl⟩ := List.cons.inj same
        obtain ⟨last, name', earlier, reached, atLast, all⟩ := ih at'
        refine ⟨last, name', earlier, (toLastSegment_next found).trans reached, atLast, ?_⟩
        rw [all, List.reverse_cons, List.append_assoc]
        rfl

end At

/-- The first segment of a path, if it has names. -/
theorem getFirstSegmentWithoutRoot_spec (noNul : 0 ∉ u ++ v) (root : ∀ c ∈ u, c = separator) :
    (getFirstSegmentWithoutRoot (u ++ v) u.length = none ∧ names separator (u ++ v) = []) ∨
      ∃ segment part after, getFirstSegmentWithoutRoot (u ++ v) u.length = some segment ∧
        names separator (u ++ v) = part :: after ∧ At segment [] part after := by
  rw [names_append_seps root]
  rcases @first_name _ separator v with seps | ⟨seps, part, rest, rfl, allSeps, isName, ends⟩
  · exact Or.inl ⟨getFirstSegmentWithoutRoot_none seps, names_seps seps⟩
  · apply Or.inr
    obtain ⟨segment, found, placed⟩ := getFirstSegmentWithoutRoot_placed noNul root allSeps isName ends
    refine ⟨segment, part, names separator rest, found, ?_, _, _, placed, ?_, rfl⟩
    · rw [names_append_seps allSeps, names_name_append isName ends]
    · rw [names_append_seps root, names_seps allSeps]
      rfl

end Lps.Linux.Cwk

import Mathlib.Data.List.Basic
import Mathlib.Tactic.Common

/-!
# Names between separators

A string is cut at its separators; what lies between two of them, and is not empty, is a name.
Separators next to each other, at the beginning or at the end make no difference.
-/

namespace Lps.Segments

universe u

variable {α : Type u} (sep : α)

/-- Names with a separator between any two of them. -/
def joined (parts : List (List α)) : List α := [sep].intercalate parts

/-- A name is not empty and has no separator. -/
structure IsName (part : List α) : Prop where
  ne_nil : part ≠ []
  noSep : sep ∉ part

variable {sep} {text front rest part : List α} {parts : List (List α)}

/-- One more name. -/
theorem joined_concat : joined sep (parts ++ [part]) =
    if parts = [] then part else joined sep parts ++ sep :: part := by
  induction parts with
  | nil => exact List.intercalate_singleton
  | cons first parts ih =>
      rw [if_neg (List.cons_ne_nil _ _)]
      cases parts with
      | nil => simp [joined]
      | cons second parts =>
          rw [if_neg (List.cons_ne_nil _ _)] at ih
          rw [List.cons_append, joined, List.cons_append, List.intercalate_cons_cons,
            ← List.cons_append, ← joined, ih, joined, joined, List.intercalate_cons_cons]
          simp

/-- A string is made of separators, or it has a first name. -/
theorem first_name (text : List α) : (∀ c ∈ text, c = sep) ∨ ∃ seps part rest,
    text = seps ++ (part ++ rest) ∧ (∀ c ∈ seps, c = sep) ∧ IsName sep part ∧
      (rest = [] ∨ ∃ later, rest = sep :: later) := by
  induction text with
  | nil => exact Or.inl (List.forall_mem_nil _)
  | cons c text ih =>
      by_cases isSep : c = sep
      · rcases ih with seps | ⟨seps, part, rest, rfl, allSeps, isName, ends⟩
        · exact Or.inl (List.forall_mem_cons.mpr ⟨isSep, seps⟩)
        · exact Or.inr ⟨c :: seps, part, rest, rfl, List.forall_mem_cons.mpr ⟨isSep, allSeps⟩,
            isName, ends⟩
      · apply Or.inr
        have single : IsName sep [c] :=
          ⟨List.cons_ne_nil _ _, fun mem => isSep (List.mem_singleton.mp mem).symm⟩
        rcases ih with seps | ⟨seps, part, rest, rfl, allSeps, isName, ends⟩
        · refine ⟨[], [c], text, rfl, List.forall_mem_nil _, single, ?_⟩
          cases text with
          | nil => exact Or.inl rfl
          | cons d text => exact Or.inr ⟨text, by rw [seps d List.mem_cons_self]⟩
        · cases seps with
          | nil =>
              refine ⟨[], c :: part, rest, rfl, List.forall_mem_nil _, ⟨List.cons_ne_nil _ _, ?_⟩, ends⟩
              intro mem
              rcases List.mem_cons.mp mem with same | inside
              · exact isSep same.symm
              · exact isName.noSep inside
          | cons d seps =>
              obtain ⟨rfl, -⟩ := List.forall_mem_cons.mp allSeps
              exact ⟨[], [c], _, rfl, List.forall_mem_nil _, single, Or.inr ⟨_, rfl⟩⟩

/-- A string is made of separators, or it has a last name. -/
theorem last_name (text : List α) : (∀ c ∈ text, c = sep) ∨ ∃ front part seps,
    text = front ++ (part ++ seps) ∧ (∀ c ∈ seps, c = sep) ∧ IsName sep part ∧
      (front = [] ∨ ∃ begun, front = begun ++ [sep]) := by
  rcases @first_name _ sep text.reverse with seps | ⟨seps, part, rest, same, allSeps, isName, ends⟩
  · exact Or.inl fun c mem => seps c (List.mem_reverse.mpr mem)
  · apply Or.inr
    refine ⟨rest.reverse, part.reverse, seps.reverse, ?_, ?_, ?_, ?_⟩
    · rw [← List.reverse_reverse text, same]
      simp
    · exact fun c mem => allSeps c (List.mem_reverse.mp mem)
    · exact ⟨fun empty => isName.ne_nil (List.reverse_eq_nil_iff.mp empty),
        fun mem => isName.noSep (List.mem_reverse.mp mem)⟩
    · rcases ends with rfl | ⟨later, rfl⟩
      · exact Or.inl rfl
      · exact Or.inr ⟨later.reverse, List.reverse_cons⟩

variable [DecidableEq α]

/-- The names in a string. -/
def names (sep : α) (text : List α) : List (List α) :=
  (text.splitOn sep).filter fun part => !part.isEmpty

@[simp]
theorem names_nil : names sep [] = [] := rfl

/-- A separator divides the names before it from those behind it. -/
theorem names_append_cons : names sep (front ++ sep :: rest) = names sep front ++ names sep rest := by
  rw [names, List.splitOn_append_cons_self, List.filter_append]
  rfl

theorem names_cons_sep : names sep (sep :: rest) = names sep rest := by
  have cut : names sep ([] ++ sep :: rest) = names sep [] ++ names sep rest := names_append_cons
  rwa [List.nil_append, names_nil, List.nil_append] at cut

theorem names_append_seps (seps : ∀ c ∈ front, c = sep) : names sep (front ++ rest) = names sep rest := by
  induction front with
  | nil => rfl
  | cons c front ih =>
      obtain ⟨rfl, others⟩ := List.forall_mem_cons.mp seps
      rw [List.cons_append, names_cons_sep, ih others]

theorem names_seps (seps : ∀ c ∈ front, c = sep) : names sep front = [] := by
  have only : names sep (front ++ []) = names sep [] := names_append_seps seps
  rwa [List.append_nil] at only

/-- What ends with a separator, or is empty, ends between names. -/
theorem names_append (ended : front = [] ∨ ∃ begun, front = begun ++ [sep]) :
    names sep (front ++ rest) = names sep front ++ names sep rest := by
  rcases ended with rfl | ⟨begun, rfl⟩
  · rfl
  · rw [List.append_assoc, List.singleton_append, names_append_cons, names_append_cons, names_nil,
      List.append_nil]

/-- A name in front of a separator, or alone. -/
theorem names_name_append (isName : IsName sep part) (ends : rest = [] ∨ ∃ later, rest = sep :: later) :
    names sep (part ++ rest) = part :: names sep rest := by
  have single : names sep part = [part] := by
    rw [names, List.splitOn_eq_singleton isName.noSep]
    simp [isName.ne_nil]
  rcases ends with rfl | ⟨later, rfl⟩
  · rw [List.append_nil, single, names_nil]
  · rw [names_append_cons, single, names_cons_sep]
    rfl

/-- What the pieces of a string are made of. -/
theorem mem_of_mem_splitOn {c : α} (piece : part ∈ text.splitOn sep) (char : c ∈ part) :
    c ∈ text ∧ c ≠ sep := by
  induction text generalizing part with
  | nil =>
      rw [List.splitOn_nil] at piece
      rw [List.mem_singleton.mp piece] at char
      cases char
  | cons d text ih =>
      rw [List.splitOn_cons_eq_if_modifyHead] at piece
      split at piece
      · rcases List.mem_cons.mp piece with rfl | later
        · cases char
        · exact ⟨List.mem_cons_of_mem _ (ih later char).1, (ih later char).2⟩
      · rename_i other
        obtain ⟨first, others, same⟩ := List.exists_cons_of_ne_nil (List.splitOn_ne_nil sep text)
        rw [same, List.modifyHead_cons] at piece
        rw [same] at ih
        rcases List.mem_cons.mp piece with rfl | later
        · rcases List.mem_cons.mp char with rfl | behind
          · exact ⟨List.mem_cons_self, fun same => other (by simp [same])⟩
          · have inside := ih List.mem_cons_self behind
            exact ⟨List.mem_cons_of_mem _ inside.1, inside.2⟩
        · have inside := ih (List.mem_cons_of_mem _ later) char
          exact ⟨List.mem_cons_of_mem _ inside.1, inside.2⟩

/-- The names in a string are names. -/
theorem isName_of_mem (mem : part ∈ names sep text) : IsName sep part := by
  obtain ⟨piece, nonempty⟩ := List.mem_filter.mp mem
  exact ⟨by simpa using nonempty, fun char => (mem_of_mem_splitOn piece char).2 rfl⟩

/-- Their characters are those of the string. -/
theorem mem_of_mem_names {c : α} (mem : part ∈ names sep text) (char : c ∈ part) : c ∈ text :=
  (mem_of_mem_splitOn (List.mem_filter.mp mem).1 char).1

/-- Names come back from what they are joined to. -/
theorem names_joined (all : ∀ part ∈ parts, IsName sep part) : names sep (joined sep parts) = parts := by
  cases parts with
  | nil => rfl
  | cons part parts =>
      rw [names, joined, List.splitOn_intercalate sep (fun part mem => (all part mem).noSep)
        (List.cons_ne_nil _ _), List.filter_eq_self]
      intro other mem
      simp [(all other mem).ne_nil]

/-! ## The room that names need -/

/-- The characters of names, and a separator for each. -/
def room : List (List α) → Nat
  | [] => 0
  | part :: parts => part.length + 1 + room parts

omit [DecidableEq α] in
theorem room_cons : room (part :: parts) = part.length + 1 + room parts := rfl

omit [DecidableEq α] in
theorem room_sublist {others : List (List α)} (sub : others.Sublist parts) : room others ≤ room parts := by
  induction sub with
  | slnil => exact Nat.le_refl 0
  | cons part sub ih =>
      rw [room_cons]
      omega
  | cons_cons part sub ih =>
      rw [room_cons, room_cons]
      omega

omit [DecidableEq α] in
/-- Joined names do not need the last separator. -/
theorem length_joined (some_ : parts ≠ []) : (joined sep parts).length + 1 = room parts := by
  induction parts with
  | nil => exact absurd rfl some_
  | cons first parts ih =>
      cases parts with
      | nil => simp [joined, room]
      | cons second parts =>
          have later := ih (List.cons_ne_nil _ _)
          rw [room_cons, ← later, joined, List.intercalate_cons_cons, ← joined]
          simp only [List.length_append, List.length_singleton]
          omega

omit [DecidableEq α] in
theorem length_le_room : parts.length ≤ room parts := by
  induction parts with
  | nil => exact Nat.le_refl 0
  | cons part parts ih =>
      rw [List.length_cons, room_cons]
      omega

/-- A string has room for its names, but for one separator. -/
theorem room_names_le : ∀ (n : Nat) {text : List α}, text.length ≤ n → room (names sep text) ≤ text.length + 1 := by
  intro n
  induction n with
  | zero =>
      intro text short
      rw [List.length_eq_zero_iff.mp (Nat.le_zero.mp short)]
      exact Nat.zero_le _
  | succ n ih =>
      intro text short
      rcases @first_name _ sep text with seps | ⟨seps, part, rest, rfl, allSeps, isName, ends⟩
      · rw [names_seps seps]
        exact Nat.zero_le _
      · rw [names_append_seps allSeps, names_name_append isName ends, room_cons, List.length_append,
          List.length_append]
        rcases ends with rfl | ⟨later, rfl⟩
        · simp [room]
        · rw [List.length_append, List.length_append, List.length_cons] at short
          have fewer := @ih later (by omega)
          rw [names_cons_sep, List.length_cons]
          omega

/-- There are no more names than characters, and one. -/
theorem length_names_le : (names sep text).length ≤ text.length + 1 :=
  Nat.le_trans length_le_room (room_names_le text.length (Nat.le_refl _))

end Lps.Segments

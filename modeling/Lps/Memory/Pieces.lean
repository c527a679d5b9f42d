import Mathlib.Data.List.Basic
import Mathlib.Tactic.Common

/-!
# Pieces of a list of buffers

Buffers that follow each other are read as one.  A place is the number of a buffer and an
offset inside it.  When only the first places of each buffer are taken, they are the first
places of the whole just when nothing is taken behind a buffer that was not taken whole.
-/

namespace Lps.Memory

/-- The first `len i` places of buffer `i`, of the next one, and so on, of `n` buffers. -/
def places (len : Nat → Nat) (i : Nat) : Nat → List (Nat × Nat)
  | 0 => []
  | n + 1 => (List.range (len i)).map (fun offset => (i, offset)) ++ places len (i + 1) n

/-- How many places these are. -/
def amount (len : Nat → Nat) (i : Nat) : Nat → Nat
  | 0 => 0
  | n + 1 => len i + amount len (i + 1) n

variable {len taken : Nat → Nat} {i n j offset : Nat}

theorem length_places : (places len i n).length = amount len i n := by
  induction n generalizing i with
  | zero => rfl
  | succ n ih => rw [places, amount, List.length_append, List.length_map, List.length_range, ih]

theorem mem_places :
    (j, offset) ∈ places len i n ↔ (i ≤ j ∧ j < i + n) ∧ offset < len j := by
  induction n generalizing i with
  | zero =>
      constructor
      · exact fun mem => absurd mem List.not_mem_nil
      · rintro ⟨⟨above, below⟩, -⟩
        omega
  | succ n ih =>
      have first : (j, offset) ∈ (List.range (len i)).map (fun offset => (i, offset)) ↔
          j = i ∧ offset < len j := by
        constructor
        · intro mem
          obtain ⟨offset', inside, same⟩ := List.mem_map.mp mem
          cases same
          exact ⟨rfl, List.mem_range.mp inside⟩
        · rintro ⟨rfl, inside⟩
          exact List.mem_map.mpr ⟨offset, List.mem_range.mpr inside, rfl⟩
      rw [places, List.mem_append, first, ih]
      constructor
      · rintro (⟨rfl, inside⟩ | ⟨⟨above, below⟩, inside⟩)
        · exact ⟨⟨Nat.le_refl _, by omega⟩, inside⟩
        · exact ⟨⟨by omega, by omega⟩, inside⟩
      · rintro ⟨⟨above, below⟩, inside⟩
        by_cases here : j = i
        · exact .inl ⟨here, inside⟩
        · exact .inr ⟨⟨by omega, by omega⟩, inside⟩

theorem amount_eq_zero : amount len i n = 0 ↔ ∀ j, i ≤ j → j < i + n → len j = 0 := by
  induction n generalizing i with
  | zero =>
      constructor
      · intro _ j above below
        omega
      · exact fun _ => rfl
  | succ n ih =>
      rw [amount, Nat.add_eq_zero_iff, ih]
      constructor
      · rintro ⟨here, later⟩ j above below
        by_cases same : j = i
        · rw [same]
          exact here
        · exact later j (by omega) (by omega)
      · intro all
        exact ⟨all i (Nat.le_refl _) (by omega), fun j above below => all j (by omega) (by omega)⟩

/-- Nothing is taken behind a buffer that was not taken whole. -/
def TakenInOrder (taken len : Nat → Nat) (i n : Nat) : Prop :=
  ∀ k j, i ≤ j → j < k → k < i + n → taken k ≠ 0 → taken j = len j

theorem TakenInOrder.succ_iff (whole : taken i = len i) :
    TakenInOrder taken len i (n + 1) ↔ TakenInOrder taken len (i + 1) n := by
  constructor
  · intro inOrder k j above before below some
    exact inOrder k j (by omega) before (by omega) some
  · intro inOrder k j above before below some
    by_cases first : j = i
    · rw [first]
      exact whole
    · exact inOrder k j (by omega) before (by omega) some

/-- The places that are taken are the first ones just when they are taken in order. -/
theorem places_eq_take_iff (le : ∀ j, taken j ≤ len j) :
    places taken i n = (places len i n).take (amount taken i n) ↔ TakenInOrder taken len i n := by
  induction n generalizing i with
  | zero =>
      constructor
      · intro _ k j above before below
        omega
      · exact fun _ => rfl
  | succ n ih =>
      by_cases whole : taken i = len i
      · rw [TakenInOrder.succ_iff whole, ← ih, places, places, amount, whole, List.take_append,
          List.length_map, List.length_range, Nat.add_sub_cancel_left,
          List.take_of_length_le (by simp), List.append_cancel_left_eq]
      have short : taken i < len i := Nat.lt_of_le_of_ne (le i) whole
      by_cases last : amount taken (i + 1) n = 0
      · have nothing : places taken (i + 1) n = [] :=
          List.eq_nil_of_length_eq_zero (length_places.trans last)
        have inside : taken i ≤ ((List.range (len i)).map fun offset => (i, offset)).length := by
          simpa using le i
        constructor
        · intro _ k j above before below some
          exact absurd (amount_eq_zero.mp last k (by omega) (by omega)) some
        · intro _
          rw [places, places, amount, nothing, last, List.append_nil, Nat.add_zero,
            List.take_append_of_le_length inside, ← List.map_take, List.take_range,
            Nat.min_eq_left (le i)]
      · constructor
        · intro same
          exfalso
          -- The first place that was left out is among the first ones.
          have among : (i, taken i) ∈ (places len i (n + 1)).take (amount taken i (n + 1)) := by
            rw [places, amount]
            apply List.mem_take_iff_getElem.mpr
            refine ⟨taken i, ?_, ?_⟩
            · simp only [List.length_append, List.length_map, List.length_range]
              omega
            · rw [List.getElem_append_left (by simpa using short)]
              simp
          rw [← same] at among
          exact Nat.lt_irrefl _ (mem_places.mp among).2
        · intro inOrder
          exfalso
          apply last
          apply amount_eq_zero.mpr
          intro k above below
          by_contra some
          exact whole (inOrder k i (Nat.le_refl _) (by omega) (by omega) some)

end Lps.Memory

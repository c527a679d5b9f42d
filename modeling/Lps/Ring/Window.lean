import Mathlib.Data.List.Basic
import Mathlib.Data.Nat.ModEq
import Mathlib.Logic.Function.Basic

/-!
# Windows of a ring of cells

A ring of `size` cells addressed by free-running positions: position `n` lives
in cell `n % size`.  The window from `lo` to `hi` is the list of the cells at
the positions `lo, …, hi - 1`.  The two laws below are the ones a ring buffer
needs when it copies in contiguous chunks: storing a chunk at the upper end
appends it to the window, and loading a chunk at the lower end splits it off.
-/

namespace Lps.Ring

universe u

variable {β : Type u} {cells : Nat → β} {size lo hi : Nat}

/-- Overwrite the consecutive cells from `start` on with `values`. -/
def store (cells : Nat → β) (start : Nat) (values : List β) : Nat → β := fun i =>
  if start ≤ i then (values[i - start]?).getD (cells i) else cells i

/-- The `count` consecutive cells from `start` on. -/
def load (cells : Nat → β) (start count : Nat) : List β :=
  (List.range count).map fun k => cells (start + k)

/-- The contents of the positions from `lo` up to `hi`. -/
def window (cells : Nat → β) (size lo hi : Nat) : List β :=
  (List.range (hi - lo)).map fun k => cells ((lo + k) % size)

@[simp]
theorem length_load (start count : Nat) : (load cells start count).length = count := by
  simp [load]

@[simp]
theorem length_window : (window cells size lo hi).length = hi - lo := by
  simp [window]

@[simp]
theorem window_self : window cells size lo lo = [] := by
  simp [window]

@[simp]
theorem store_nil (start : Nat) : store cells start [] = cells := by
  funext i
  simp [store]

/-- A position that stays in front of the ring's end keeps its offset. -/
theorem mod_add_of_add_lt {n k : Nat} (fits : n % size + k < size) :
    (n + k) % size = n % size + k := by
  rw [Nat.add_mod, Nat.mod_eq_of_lt (show k < size by omega), Nat.mod_eq_of_lt fits]

/-- Positions less than one revolution apart live in different cells. -/
theorem mod_ne_of_lt {m n : Nat} (lt : m < n) (near : n < m + size) :
    m % size ≠ n % size := by
  intro same
  have divides : size ∣ n - m := (Nat.modEq_iff_dvd' lt.le).mp same
  have := Nat.le_of_dvd (by omega) divides
  omega

/-- Storing a chunk that does not cross the ring's end at the upper end of a
window with room for it appends the chunk. -/
theorem window_store {values : List β} (le : lo ≤ hi)
    (noWrap : hi % size + values.length ≤ size)
    (room : hi - lo + values.length ≤ size) :
    window (store cells (hi % size) values) size lo (hi + values.length) =
      window cells size lo hi ++ values := by
  apply List.ext_getElem
  · simp only [length_window, List.length_append]
    omega
  · intro k inWindow _
    simp only [length_window] at inWindow
    rw [List.getElem_append]
    simp only [window, List.getElem_map, List.getElem_range, List.length_map,
      List.length_range]
    split
    · -- An old position: the chunk lies less than one revolution ahead of it.
      rename_i old
      have apart : ∀ j < values.length, (lo + k) % size ≠ hi % size + j := by
        intro j jLt same
        rw [← mod_add_of_add_lt (by omega)] at same
        exact mod_ne_of_lt (by omega) (by omega) same
      simp only [store]
      split
      · rename_i above
        rw [List.getElem?_eq_none, Option.getD_none]
        by_contra inside
        exact apart ((lo + k) % size - hi % size) (by omega) (by omega)
      · rfl
    · rename_i new
      have index : (lo + k) % size = hi % size + (k - (hi - lo)) := by
        rw [← mod_add_of_add_lt (by omega)]
        congr 1
        omega
      simp only [store, index]
      rw [if_pos (by omega), Nat.add_sub_cancel_left,
        List.getElem?_eq_getElem (by omega), Option.getD_some]

/-- Loading a chunk that does not cross the ring's end from the lower end of a
window splits it off. -/
theorem window_load {count : Nat} (le : lo + count ≤ hi)
    (noWrap : lo % size + count ≤ size) :
    window cells size lo hi =
      load cells (lo % size) count ++ window cells size (lo + count) hi := by
  apply List.ext_getElem
  · simp only [length_window, List.length_append, length_load]
    omega
  · intro k inWindow _
    simp only [length_window] at inWindow
    rw [List.getElem_append]
    simp only [window, load, List.getElem_map, List.getElem_range, List.length_map,
      List.length_range]
    split
    · rw [mod_add_of_add_lt (by omega)]
    · congr 2
      omega

/-- Only the cell a window starts in matters, not the revolution. -/
theorem window_mod (count : Nat) :
    window cells size (lo % size) (lo % size + count) = window cells size lo (lo + count) := by
  simp only [window, Nat.add_sub_cancel_left, Nat.mod_add_mod]

/-- A window split at its lower end. -/
theorem window_cons (lt : lo < hi) :
    window cells size lo hi = cells (lo % size) :: window cells size (lo + 1) hi := by
  have length : hi - lo = hi - (lo + 1) + 1 := by omega
  simp only [window, length, List.range_succ_eq_map, List.map_cons, List.map_map, Nat.add_zero]
  congr 2
  funext k
  simp only [Function.comp_apply, Nat.succ_eq_add_one]
  congr 2
  omega

/-- A window split at its upper end. -/
theorem window_concat (le : lo ≤ hi) :
    window cells size lo (hi + 1) = window cells size lo hi ++ [cells (hi % size)] := by
  have length : hi + 1 - lo = hi - lo + 1 := by omega
  simp only [window, length, List.range_succ, List.map_append, List.map_cons, List.map_nil]
  rw [Nat.add_sub_cancel' le]

/-- Storing one value is updating one cell. -/
theorem store_singleton (start : Nat) (value : β) :
    store cells start [value] = Function.update cells start value := by
  funext i
  by_cases same : i = start
  · subst same
    simp [store]
  · rw [Function.update_of_ne same, store]
    split
    · rw [List.getElem?_eq_none (by simp; omega), Option.getD_none]
    · rfl

end Lps.Ring

import Lps.Interval.Ordered
import Mathlib.Order.Lattice

/-!
# The item at a key

Items in order assign to every key at most one item: the one whose interval the key lies
in.  Empty items are assigned to no key.
-/

namespace Lps.Interval

universe u v

variable {α : Type u} {κ : Type v} [LinearOrder κ] {start stop : α → κ} {items items' rest : List α}
  {item : α} {key lo hi : κ}

/-- The first item whose interval contains the key. -/
def lookup (start stop : α → κ) (items : List α) (key : κ) : Option α :=
  items.find? fun item => start item ≤ key ∧ key < stop item

@[simp]
theorem lookup_nil : lookup start stop ([] : List α) key = none := rfl

theorem lookup_cons : lookup start stop (item :: items) key =
    if start item ≤ key ∧ key < stop item then some item else lookup start stop items key := by
  rw [lookup, List.find?_cons]
  split
  · rename_i holds
    rw [if_pos (of_decide_eq_true holds)]
  · rename_i fails
    rw [if_neg (of_decide_eq_false fails)]
    rfl

theorem lookup_append : lookup start stop (items ++ rest) key =
    (lookup start stop items key).or (lookup start stop rest key) :=
  List.find?_append

/-- What is found is an item around the key. -/
theorem lookup_some (found : lookup start stop items key = some item) :
    item ∈ items ∧ start item ≤ key ∧ key < stop item :=
  ⟨List.mem_of_find?_eq_some found, by simpa using List.find?_some found⟩

theorem lookup_eq_none_iff : lookup start stop items key = none ↔
    ∀ item ∈ items, start item ≤ key → stop item ≤ key := by
  rw [lookup, List.find?_eq_none]
  simp only [decide_eq_true_eq, not_and, not_lt]

namespace Ordered

/-- Nothing is found outside the bounds. -/
theorem lookup_bounds (ordered : Ordered start stop lo hi items)
    (found : lookup start stop items key = some item) : lo ≤ key ∧ key < hi := by
  obtain ⟨mem, above, below⟩ := lookup_some found
  obtain ⟨lower, -, upper⟩ := ordered.of_mem mem
  exact ⟨lower.trans above, below.trans_le upper⟩

theorem lookup_before (ordered : Ordered start stop lo hi items) (before : key < lo) :
    lookup start stop items key = none := by
  apply Option.eq_none_iff_forall_ne_some.mpr
  intro item found
  exact (ordered.lookup_bounds found).1.not_gt before

/-- In order, the item around a key is found. -/
theorem lookup_eq_some_iff (ordered : Ordered start stop lo hi items) :
    lookup start stop items key = some item ↔
      item ∈ items ∧ start item ≤ key ∧ key < stop item := by
  constructor
  · exact lookup_some
  · rintro ⟨mem, above, below⟩
    induction items generalizing lo with
    | nil => cases mem
    | cons head rest ih =>
        rw [lookup_cons]
        rcases List.mem_cons.mp mem with rfl | later
        · exact if_pos ⟨above, below⟩
        · have behind := (ordered.2.2.of_mem later).1.trans above
          rw [if_neg fun inHead => behind.not_gt inHead.2]
          exact ih ordered.2.2 later

/-- A new item takes its interval, wherever it stands in the list. -/
theorem lookup_insert (ordered : Ordered start stop lo hi items)
    (ordered' : Ordered start stop lo hi items') (perm : items'.Perm (item :: items)) :
    lookup start stop items' key =
      if start item ≤ key ∧ key < stop item then some item else lookup start stop items key := by
  split
  · rename_i inside
    exact ordered'.lookup_eq_some_iff.mpr ⟨perm.mem_iff.mpr List.mem_cons_self, inside⟩
  · rename_i outside
    ext other
    rw [ordered'.lookup_eq_some_iff, ordered.lookup_eq_some_iff, perm.mem_iff, List.mem_cons]
    constructor
    · rintro ⟨rfl | old, inside⟩
      · exact absurd inside outside
      · exact ⟨old, inside⟩
    · rintro ⟨old, inside⟩
      exact ⟨.inr old, inside⟩

end Ordered

end Lps.Interval

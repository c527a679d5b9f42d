import Lps.Memory.Blocks

/-!
# Strings in memory

A string ends at the first terminator, which is the zero of the values.
-/

namespace Lps.Memory

universe u

variable {α : Type u} [Zero α] [DecidableEq α]

/-- The string that is read from an address on, if it ends within `n` bytes. -/
def cstring (mem : Nat → α) (addr : Nat) : Nat → Option (List α)
  | 0 => none
  | n + 1 => if mem addr = 0 then some [] else (cstring mem (addr + 1) n).map (mem addr :: ·)

variable {mem : Nat → α} {addr n : Nat} {text : List α}

theorem cstring_of_holds (held : Holds mem addr (text ++ [0])) (noNul : 0 ∉ text) (short : text.length < n) :
    cstring mem addr n = some text := by
  induction text generalizing addr n with
  | nil =>
      obtain ⟨nul, -⟩ := holds_cons.mp held
      cases n with
      | zero => omega
      | succ n => rw [cstring, if_pos nul]
  | cons c text ih =>
      obtain ⟨here, behind⟩ := holds_cons.mp held
      obtain ⟨nonzero, others⟩ := not_or.mp (List.mem_cons.not.mp noNul)
      cases n with
      | zero => omega
      | succ n =>
          have more : mem addr ≠ 0 := fun nul => nonzero (nul.symm.trans here)
          rw [cstring, if_neg more, ih behind others (Nat.lt_of_succ_lt_succ short), here]
          rfl

theorem cstring_some (found : cstring mem addr n = some text) : 0 ∉ text ∧ text.length < n := by
  induction n generalizing addr text with
  | zero => cases found
  | succ n ih =>
      rw [cstring] at found
      split at found
      · cases found
        exact ⟨List.not_mem_nil, Nat.succ_pos n⟩
      · rename_i more
        obtain ⟨rest, behind, rfl⟩ := Option.map_eq_some_iff.mp found
        obtain ⟨noNul, short⟩ := ih behind
        refine ⟨fun inside => ?_, Nat.succ_lt_succ short⟩
        rcases List.mem_cons.mp inside with nul | later
        · exact more nul.symm
        · exact noNul later

/-- The first character of the string is the first one in memory. -/
theorem cstring_eq_nil (found : cstring mem addr n = some text) : text = [] ↔ mem addr = 0 := by
  cases n with
  | zero => cases found
  | succ n =>
      rw [cstring] at found
      split at found
      · rename_i nul
        cases found
        exact iff_of_true rfl nul
      · rename_i more
        obtain ⟨rest, -, rfl⟩ := Option.map_eq_some_iff.mp found
        exact iff_of_false (List.cons_ne_nil _ _) more

omit [Zero α] [DecidableEq α] in
/-- A list read from memory begins with what was stored there. -/
theorem map_range_store {values : List α} (within : values.length ≤ n) :
    ∃ rest, (List.range n).map (Block.store mem ⟨0, values⟩) = values ++ rest := by
  refine ⟨((List.range n).map (Block.store mem ⟨0, values⟩)).drop values.length, ?_⟩
  rw [← List.take_append_drop values.length ((List.range n).map _)]
  congr 1
  · apply List.ext_getElem
    · rw [List.length_take, List.length_map, List.length_range]
      exact Nat.min_eq_left within
    · intro i inside inside'
      rw [List.getElem_take, List.getElem_map, List.getElem_range]
      exact Block.store_of_mem (Nat.zero_le i) inside'
  · rw [List.take_append_drop]

end Lps.Memory

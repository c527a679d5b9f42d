import Mathlib.Data.List.Basic
import Mathlib.Data.List.Pairwise
import Mathlib.Order.CompletePartialOrder
import Mathlib.Order.Interval.Set.Disjoint

/-!
# Blocks of memory

A block is a list of values for the addresses from one on.  When no two of the blocks that are
stored overlap, each can be read back, in whatever order they were stored.  Blocks that follow
each other hold one list.
-/

namespace Lps.Memory

universe u

variable {α : Type u}

/-- Values for the addresses from `addr` on. -/
structure Block (α : Type u) where
  addr : Nat
  data : List α

/-- The memory holds these values from an address on. -/
def Holds (mem : Nat → α) (addr : Nat) (values : List α) : Prop :=
  ∀ i (inside : i < values.length), mem (addr + i) = values[i]

variable {mem : Nat → α} {addr : Nat} {values rest : List α} {value : α}

theorem holds_nil : Holds mem addr [] := nofun

theorem holds_append :
    Holds mem addr (values ++ rest) ↔
      Holds mem addr values ∧ Holds mem (addr + values.length) rest := by
  constructor
  · intro all
    constructor
    · intro i inside
      have here := all i (by rw [List.length_append]; omega)
      rwa [List.getElem_append_left inside] at here
    · intro i inside
      have there := all (values.length + i) (by rw [List.length_append]; omega)
      rw [List.getElem_append_right (Nat.le_add_right _ _)] at there
      rw [Nat.add_assoc, there]
      congr 1
      omega
  · rintro ⟨first, second⟩ i inside
    rw [List.getElem_append]
    split
    · rename_i before
      exact first i before
    · rename_i behind
      have there := second (i - values.length) (by rw [List.length_append] at inside; omega)
      rw [← there]
      congr 1
      omega

theorem holds_cons :
    Holds mem addr (value :: rest) ↔ mem addr = value ∧ Holds mem (addr + 1) rest := by
  rw [← List.singleton_append, holds_append, List.length_singleton]
  apply and_congr_left'
  constructor
  · exact fun single => single 0 Nat.zero_lt_one
  · intro same i inside
    have first : i = 0 := by
      rw [List.length_singleton] at inside
      omega
    subst first
    exact same

namespace Block

variable {block other : Block α} {blocks stored : List (Block α)}

/-- The addresses of a block. -/
def range (block : Block α) : Set Nat := Set.Ico block.addr (block.addr + block.data.length)

/-- Store a block. -/
def store (mem : Nat → α) (block : Block α) : Nat → α := fun a =>
  if inside : block.addr ≤ a ∧ a < block.addr + block.data.length then
    block.data[a - block.addr]
  else mem a

/-- Store blocks one after another. -/
def storeAll (mem : Nat → α) (blocks : List (Block α)) : Nat → α := blocks.foldl store mem

theorem store_of_notMem {a : Nat} (outside : a ∉ block.range) : store mem block a = mem a :=
  dif_neg outside

/-- What has been stored is there. -/
theorem holds_store : Holds (store mem block) block.addr block.data := by
  intro i inside
  have within : block.addr ≤ block.addr + i ∧
      block.addr + i < block.addr + block.data.length := by omega
  rw [store, dif_pos within]
  congr 1
  omega

/-- What lies elsewhere stays. -/
theorem holds_storeAll (held : Holds mem block.addr block.data)
    (apart : ∀ other ∈ blocks, Disjoint block.range other.range) :
    Holds (storeAll mem blocks) block.addr block.data := by
  induction blocks generalizing mem with
  | nil => exact held
  | cons other blocks ih =>
      obtain ⟨here, later⟩ := List.forall_mem_cons.mp apart
      apply ih _ later
      intro i inside
      have own : block.addr + i ∈ block.range := by
        constructor <;> omega
      rw [store_of_notMem (Set.disjoint_left.mp here own)]
      exact held i inside

/-- What lies outside all blocks stays. -/
theorem storeAll_of_notMem {a : Nat} (outside : ∀ block ∈ blocks, a ∉ block.range) :
    storeAll mem blocks a = mem a := by
  induction blocks generalizing mem with
  | nil => rfl
  | cons block blocks ih =>
      obtain ⟨here, later⟩ := List.forall_mem_cons.mp outside
      exact (ih later).trans (store_of_notMem here)

/-- Of blocks that do not overlap every one is there. -/
theorem holds_of_mem (apart : blocks.Pairwise (Function.onFun Disjoint range))
    (mem_ : block ∈ blocks) : Holds (storeAll mem blocks) block.addr block.data := by
  induction blocks generalizing mem with
  | nil => cases mem_
  | cons other blocks ih =>
      obtain ⟨here, later⟩ := List.pairwise_cons.mp apart
      rcases List.mem_cons.mp mem_ with rfl | behind
      · exact @holds_storeAll _ _ block blocks holds_store here
      · exact ih later behind

/-- Nothing to store. -/
theorem store_nil : store mem ⟨addr, []⟩ = mem := by
  funext a
  exact dif_neg fun inside => by
    rw [List.length_nil] at inside
    omega

/-- What is stored at `a`. -/
theorem store_of_mem {a : Nat} (below : addr ≤ a) (inside : a - addr < values.length) :
    store mem ⟨addr, values⟩ a = values[a - addr] := by
  rw [store, dif_pos ⟨below, by dsimp only; omega⟩]

/-- One block behind another. -/
theorem store_append : store (store mem ⟨addr, values⟩) ⟨addr + values.length, rest⟩ =
    store mem ⟨addr, values ++ rest⟩ := by
  funext a
  simp only [store, List.length_append]
  split
  · rename_i behind
    rw [dif_pos (by omega), List.getElem_append_right (by omega)]
    congr 1
    omega
  · rename_i other
    split
    · rename_i inside
      rw [dif_pos (by omega), List.getElem_append_left (by omega)]
    · rw [dif_neg (by omega)]

/-- A block is overwritten by one of its length. -/
theorem store_store (same : rest.length = values.length) :
    store (store mem ⟨addr, values⟩) ⟨addr, rest⟩ = store mem ⟨addr, rest⟩ := by
  funext a
  simp only [store]
  split
  · rfl
  · rename_i outside
    rw [dif_neg (by rwa [same] at outside)]

/-- Blocks that follow each other from an address on. -/
def Contiguous : Nat → List (Block α) → Prop
  | _, [] => True
  | addr, block :: blocks => block.addr = addr ∧ Contiguous (addr + block.data.length) blocks

/-- Where they end. -/
theorem Contiguous.within (contiguous : Contiguous addr blocks) (mem_ : block ∈ blocks) :
    addr ≤ block.addr ∧
      block.addr + block.data.length ≤ addr + (blocks.flatMap Block.data).length := by
  induction blocks generalizing addr with
  | nil => cases mem_
  | cons other blocks ih =>
      obtain ⟨same, later⟩ := contiguous
      rw [List.flatMap_cons, List.length_append]
      rcases List.mem_cons.mp mem_ with rfl | behind
      · omega
      · have inside := ih later behind
        omega

theorem contiguous_append {front back : List (Block α)} :
    Contiguous addr (front ++ back) ↔
      Contiguous addr front ∧ Contiguous (addr + (front.flatMap Block.data).length) back := by
  induction front generalizing addr with
  | nil => exact (and_iff_right trivial).symm
  | cons block front ih =>
      rw [List.cons_append, Contiguous, Contiguous, ih, and_assoc, List.flatMap_cons,
        List.length_append, Nat.add_assoc]

/-- They do not overlap. -/
theorem Contiguous.pairwise (contiguous : Contiguous addr blocks) :
    blocks.Pairwise (Function.onFun Disjoint range) := by
  induction blocks generalizing addr with
  | nil => exact List.Pairwise.nil
  | cons block blocks ih =>
      obtain ⟨same, later⟩ := contiguous
      apply List.Pairwise.cons
      · intro other behind
        have inside := later.within behind
        apply Set.disjoint_left.mpr
        rintro a ⟨_, below⟩ ⟨above, _⟩
        omega
      · exact ih later

/-- However they are stored, blocks that follow each other hold the list of all their values. -/
theorem Contiguous.holds (contiguous : Contiguous addr blocks) (perm : stored.Perm blocks) :
    Holds (storeAll mem stored) addr (blocks.flatMap Block.data) := by
  have apart : stored.Pairwise (Function.onFun Disjoint range) :=
    perm.symm.pairwise contiguous.pairwise fun {_ _} disjoint => Disjoint.symm disjoint
  have each : ∀ block ∈ blocks, Holds (storeAll mem stored) block.addr block.data :=
    fun block mem_ => holds_of_mem apart (perm.mem_iff.mpr mem_)
  clear perm apart
  induction blocks generalizing addr with
  | nil => exact holds_nil
  | cons block blocks ih =>
      obtain ⟨same, later⟩ := contiguous
      obtain ⟨here, others⟩ := List.forall_mem_cons.mp each
      rw [List.flatMap_cons, holds_append]
      exact ⟨same ▸ here, ih later others⟩

end Block

end Lps.Memory

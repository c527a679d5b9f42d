import Lps.Word
import Mathlib.Logic.Function.Basic

/-!
# Straight-line assembly

The integer registers, the control registers and a block memory, and what
sequences of loads, stores and register moves do to them.  A pointer is a block
with a byte offset; every access is one aligned double word, so that a cell of a
block is named by its offset.  Code and blocks are parameters.

A context switch is mostly lists of stores and lists of loads.  `exec_saves`,
`exec_loads` and `exec_copyPairs` say what a whole list does, so that a routine
is verified list by list and not instruction by instruction.
-/

namespace Lps.Asm

/-- The integer registers other than the zero register. -/
inductive Reg
  | ra | sp | gp | tp
  | t0 | t1 | t2
  | s0 | s1
  | a0 | a1 | a2 | a3 | a4 | a5 | a6 | a7
  | s2 | s3 | s4 | s5 | s6 | s7 | s8 | s9 | s10 | s11
  | t3 | t4 | t5 | t6
  deriving DecidableEq

/-- What a register or a cell holds: a word, an address in a block, or the
address of a piece of code. -/
inductive Val (β ℓ : Type)
  | word (w : Word)
  | ptr (b : β) (off : Nat)
  | code (l : ℓ)
  deriving DecidableEq

/-- The memory: one value for each double word of each block. -/
abbrev Mem (β ℓ : Type) := β → Nat → Val β ℓ

/-- What the instructions work on.  Control registers are named by number. -/
structure State (β ℓ : Type) where
  regs : Reg → Val β ℓ
  csrs : Nat → Val β ℓ
  mem : Mem β ℓ

inductive Instr
  | sd (src : Reg) (off : Nat) (base : Reg)
  | ld (dst : Reg) (off : Nat) (base : Reg)
  | mv (dst src : Reg)
  | csrr (dst : Reg) (csr : Nat)
  | csrw (csr : Nat) (src : Reg)
  | csrrw (dst : Reg) (csr : Nat) (src : Reg)
  deriving DecidableEq

variable {β ℓ : Type} [DecidableEq β]

namespace State

/-- Write a register. -/
def setReg (s : State β ℓ) (r : Reg) (v : Val β ℓ) : State β ℓ :=
  { s with regs := Function.update s.regs r v }

/-- Write a control register. -/
def setCsr (s : State β ℓ) (csr : Nat) (v : Val β ℓ) : State β ℓ :=
  { s with csrs := Function.update s.csrs csr v }

/-- Write a cell. -/
def store (s : State β ℓ) (b : β) (off : Nat) (v : Val β ℓ) : State β ℓ :=
  { s with mem := Function.update s.mem b (Function.update (s.mem b) off v) }

section Access

variable (s : State β ℓ) (b : β) (r : Reg) (csr off : Nat) (v : Val β ℓ)

omit [DecidableEq β] in
@[simp]
theorem setReg_self : (s.setReg r v).regs r = v := Function.update_self ..

omit [DecidableEq β] in
@[simp]
theorem setReg_of_ne {q : Reg} (other : q ≠ r) : (s.setReg r v).regs q = s.regs q :=
  Function.update_of_ne other ..

omit [DecidableEq β] in
@[simp]
theorem setReg_csrs : (s.setReg r v).csrs = s.csrs := rfl

omit [DecidableEq β] in
@[simp]
theorem setReg_mem : (s.setReg r v).mem = s.mem := rfl

omit [DecidableEq β] in
@[simp]
theorem setCsr_self : (s.setCsr csr v).csrs csr = v := Function.update_self ..

omit [DecidableEq β] in
@[simp]
theorem setCsr_of_ne {other : Nat} (ne : other ≠ csr) :
    (s.setCsr csr v).csrs other = s.csrs other :=
  Function.update_of_ne ne ..

omit [DecidableEq β] in
@[simp]
theorem setCsr_regs : (s.setCsr csr v).regs = s.regs := rfl

omit [DecidableEq β] in
@[simp]
theorem setCsr_mem : (s.setCsr csr v).mem = s.mem := rfl

@[simp]
theorem store_regs : (s.store b off v).regs = s.regs := rfl

@[simp]
theorem store_csrs : (s.store b off v).csrs = s.csrs := rfl

@[simp]
theorem store_self : (s.store b off v).mem b off = v := by simp [store]

@[simp]
theorem store_of_ne {other : Nat} (ne : other ≠ off) :
    (s.store b off v).mem b other = s.mem b other := by simp [store, ne]

@[simp]
theorem store_block {b' : β} (other : b' ≠ b) : (s.store b off v).mem b' = s.mem b' :=
  Function.update_of_ne other ..

end Access

end State

/-- One instruction; an access through something that is no address is stuck. -/
def Instr.exec (s : State β ℓ) : Instr → Option (State β ℓ)
  | .sd src off base =>
      match s.regs base with
      | .ptr b o => some (s.store b (o + off) (s.regs src))
      | _ => none
  | .ld dst off base =>
      match s.regs base with
      | .ptr b o => some (s.setReg dst (s.mem b (o + off)))
      | _ => none
  | .mv dst src => some (s.setReg dst (s.regs src))
  | .csrr dst csr => some (s.setReg dst (s.csrs csr))
  | .csrw csr src => some (s.setCsr csr (s.regs src))
  | .csrrw dst csr src => some ((s.setCsr csr (s.regs src)).setReg dst (s.csrs csr))

/-- A sequence of instructions. -/
def exec (s : State β ℓ) : List Instr → Option (State β ℓ)
  | [] => some s
  | i :: code => (i.exec s).bind fun s => exec s code

theorem exec_append (s : State β ℓ) (first second : List Instr) :
    exec s (first ++ second) = (exec s first).bind fun s => exec s second := by
  induction first generalizing s with
  | nil => rfl
  | cons i code ih =>
      rw [List.cons_append, exec, exec, Option.bind_assoc]
      exact congrArg _ (funext fun s => ih s)

/-- The instruction stores to memory. -/
def Instr.stores : Instr → Bool
  | .sd .. => true
  | _ => false

theorem Instr.exec_mem {i : Instr} {s s' : State β ℓ} (silent : i.stores = false)
    (executed : i.exec s = some s') : s'.mem = s.mem := by
  cases i with
  | sd src off base => contradiction
  | ld dst off base =>
      rw [Instr.exec] at executed
      split at executed
      · rw [Option.some.injEq] at executed
        rw [← executed, State.setReg_mem]
      · contradiction
  | mv | csrr | csrw | csrrw =>
      rw [Instr.exec, Option.some.injEq] at executed
      rw [← executed]
      rfl

/-- Code without a store leaves the memory alone. -/
theorem exec_mem {code : List Instr} {s s' : State β ℓ}
    (silent : ∀ i ∈ code, i.stores = false) (executed : exec s code = some s') :
    s'.mem = s.mem := by
  induction code generalizing s with
  | nil =>
      rw [exec, Option.some.injEq] at executed
      rw [executed]
  | cons i code ih =>
      rw [exec, Option.bind_eq_some_iff] at executed
      obtain ⟨next, first, rest⟩ := executed
      rw [List.forall_mem_cons] at silent
      rw [ih silent.2 rest, i.exec_mem silent.1 first]

/-! ## Updates at a list of places -/

section UpdateAll

variable {α γ : Type} [DecidableEq α] {f : α → γ} {places : List (α × γ)} {a : α} {x : γ}

/-- Update a function at several places, one after the other. -/
def updateAll (f : α → γ) : List (α × γ) → α → γ
  | [] => f
  | (a, x) :: rest => updateAll (Function.update f a x) rest

theorem updateAll_of_not_mem (other : a ∉ places.map Prod.fst) : updateAll f places a = f a := by
  induction places generalizing f with
  | nil => rfl
  | cons place rest ih =>
      rw [List.map_cons, List.mem_cons, not_or] at other
      rw [updateAll, ih other.2, Function.update_of_ne other.1]

theorem updateAll_of_mem (nodup : (places.map Prod.fst).Nodup) (mem : (a, x) ∈ places) :
    updateAll f places a = x := by
  induction places generalizing f with
  | nil => contradiction
  | cons place rest ih =>
      rw [List.map_cons, List.nodup_cons] at nodup
      rw [updateAll]
      rcases List.mem_cons.mp mem with rfl | later
      · rw [updateAll_of_not_mem nodup.1, Function.update_self]
      · exact ih nodup.2 later

end UpdateAll

/-! ## Lists of stores and lists of loads -/

/-- The memory after storing `value` for each item at its offset behind `o` in
block `b`. -/
structure Stored {ι : Type} (items : List ι) (offset : ι → Nat) (value : ι → Val β ℓ) (b : β)
    (o : Nat) (before after : Mem β ℓ) : Prop where
  stored : ∀ i ∈ items, after b (o + offset i) = value i
  kept : ∀ x, (∀ i ∈ items, x ≠ o + offset i) → after b x = before b x
  blocks : ∀ c, c ≠ b → after c = before c

theorem stored_updateAll {ι : Type} {items : List ι} {offset : ι → Nat} {value : ι → Val β ℓ}
    {b : β} {o : Nat} (before : Mem β ℓ) (nodup : (items.map offset).Nodup) :
    Stored items offset value b o before (Function.update before b
      (updateAll (before b) (items.map fun i => (o + offset i, value i)))) where
  stored := by
    intro i mem
    rw [Function.update_self]
    apply updateAll_of_mem
    · have shifted : (items.map fun i => (o + offset i, value i)).map Prod.fst =
          (items.map offset).map (o + ·) := by simp
      rw [shifted]
      exact nodup.map fun _ _ same => Nat.add_left_cancel same
    · exact List.mem_map.mpr ⟨i, mem, rfl⟩
  kept := by
    intro x apart
    rw [Function.update_self]
    apply updateAll_of_not_mem
    rintro mem
    obtain ⟨place, inPlaces, rfl⟩ := List.mem_map.mp mem
    obtain ⟨i, inItems, rfl⟩ := List.mem_map.mp inPlaces
    exact apart i inItems rfl
  blocks := fun _ other => Function.update_of_ne other ..

/-- Store each register at its offset from `base`. -/
def saves (slots : List (Reg × Nat)) (base : Reg) : List Instr :=
  slots.map fun slot => .sd slot.1 slot.2 base

/-- Load each register from its offset from `base`. -/
def loads (slots : List (Reg × Nat)) (base : Reg) : List Instr :=
  slots.map fun slot => .ld slot.1 slot.2 base

variable {s : State β ℓ} {slots : List (Reg × Nat)} {base : Reg} {b : β} {o : Nat}

variable (slots) in
/-- A list of stores. -/
theorem exec_saves (at_base : s.regs base = .ptr b o) (nodup : (slots.map Prod.snd).Nodup) :
    ∃ mem, exec s (saves slots base) = some { s with mem := mem } ∧
      Stored slots Prod.snd (fun slot => s.regs slot.1) b o s.mem mem := by
  refine ⟨_, ?_, stored_updateAll s.mem nodup⟩
  clear nodup
  induction slots generalizing s with
  | nil => simp [saves, exec, updateAll]
  | cons slot rest ih =>
      have stored : (Instr.sd slot.1 slot.2 base).exec s =
          some (s.store b (o + slot.2) (s.regs slot.1)) := by
        rw [Instr.exec, at_base]
      have later := ih (s := s.store b (o + slot.2) (s.regs slot.1)) at_base
      simp only [saves, List.map_cons, exec, stored, Option.bind_some]
      refine later.trans ?_
      simp [State.store, updateAll]

variable (slots) in
/-- A list of loads. -/
theorem exec_loads (at_base : s.regs base = .ptr b o) (kept : base ∉ slots.map Prod.fst)
    (nodup : (slots.map Prod.fst).Nodup) :
    ∃ regs, exec s (loads slots base) = some { s with regs := regs } ∧
      (∀ slot ∈ slots, regs slot.1 = s.mem b (o + slot.2)) ∧
      ∀ r, r ∉ slots.map Prod.fst → regs r = s.regs r := by
  have loaded : exec s (loads slots base) = some ⟨updateAll s.regs
      (slots.map fun slot => (slot.1, s.mem b (o + slot.2))), s.csrs, s.mem⟩ := by
    clear nodup
    induction slots generalizing s with
    | nil => rfl
    | cons slot rest ih =>
        rw [List.map_cons, List.mem_cons, not_or] at kept
        have one : (Instr.ld slot.1 slot.2 base).exec s =
            some (s.setReg slot.1 (s.mem b (o + slot.2))) := by
          rw [Instr.exec, at_base]
        have still : (s.setReg slot.1 (s.mem b (o + slot.2))).regs base = .ptr b o := by
          rw [State.setReg_of_ne _ _ _ kept.1, at_base]
        simp only [loads, List.map_cons, exec, one, Option.bind_some]
        exact ih still kept.2
  refine ⟨_, loaded, ?_, ?_⟩
  · intro slot mem
    apply updateAll_of_mem
    · rwa [List.map_map]
    · exact List.mem_map.mpr ⟨slot, mem, rfl⟩
  · intro r other
    apply updateAll_of_not_mem
    rwa [List.map_map]

/-! ## Control registers -/

/-- A control register and the offset it is copied to or from. -/
structure CsrSlot where
  off : Nat
  csr : Nat
  deriving DecidableEq

/-- Store each control register at its offset from `base`, going through `t`. -/
def saveCsrs (csrSlots : List CsrSlot) (t base : Reg) : List Instr :=
  csrSlots.flatMap fun slot => [.csrr t slot.csr, .sd t slot.off base]

/-- Storing control registers changes the register it goes through and the cells
it stores to. -/
theorem exec_saveCsrs {t : Reg} {csrSlots : List CsrSlot} (at_base : s.regs base = .ptr b o)
    (baseNeT : base ≠ t) (nodup : (csrSlots.map CsrSlot.off).Nodup) :
    ∃ regs mem, exec s (saveCsrs csrSlots t base) = some ⟨regs, s.csrs, mem⟩ ∧
      (∀ r, r ≠ t → regs r = s.regs r) ∧
      Stored csrSlots CsrSlot.off (fun slot => s.csrs slot.csr) b o s.mem mem := by
  have saved : ∃ regs, exec s (saveCsrs csrSlots t base) = some ⟨regs, s.csrs,
      Function.update s.mem b (updateAll (s.mem b)
        (csrSlots.map fun slot => (o + slot.off, s.csrs slot.csr)))⟩ ∧
      ∀ r, r ≠ t → regs r = s.regs r := by
    clear nodup
    induction csrSlots generalizing s with
    | nil => exact ⟨s.regs, by simp [saveCsrs, exec, updateAll], fun _ _ => rfl⟩
    | cons slot rest ih =>
        have one : exec s [.csrr t slot.csr, .sd t slot.off base] =
            some ((s.setReg t (s.csrs slot.csr)).store b (o + slot.off) (s.csrs slot.csr)) := by
          simp [exec, Instr.exec, at_base, baseNeT]
        obtain ⟨regs, later, others⟩ :=
          ih (s := (s.setReg t (s.csrs slot.csr)).store b (o + slot.off) (s.csrs slot.csr))
            (by rw [State.store_regs, State.setReg_of_ne _ _ _ baseNeT, at_base])
        refine ⟨regs, ?_, ?_⟩
        · rw [saveCsrs, List.flatMap_cons, exec_append, one, Option.bind_some]
          refine later.trans ?_
          simp [updateAll, State.store]
        · intro r notT
          rw [others r notT, State.store_regs, State.setReg_of_ne _ _ _ notT]
  obtain ⟨regs, executed, others⟩ := saved
  exact ⟨regs, _, executed, others, stored_updateAll s.mem nodup⟩

/-- Load two cells and write them to two control registers. -/
def copyPair (base t u : Reg) (pair : CsrSlot × CsrSlot) : List Instr :=
  [.ld t pair.1.off base, .ld u pair.2.off base, .csrw pair.1.csr t, .csrw pair.2.csr u]

/-- The slots of a list of pairs. -/
def pairSlots (pairs : List (CsrSlot × CsrSlot)) : List CsrSlot :=
  pairs.flatMap fun pair => [pair.1, pair.2]

/-- Copying changes the two registers it goes through and the control registers it
copies to. -/
theorem exec_copyPairs {t u : Reg} (pairs : List (CsrSlot × CsrSlot))
    (at_base : s.regs base = .ptr b o) (baseNeT : base ≠ t) (baseNeU : base ≠ u) (tNeU : t ≠ u)
    (nodup : ((pairSlots pairs).map CsrSlot.csr).Nodup) :
    ∃ regs csrs, exec s (pairs.flatMap (copyPair base t u)) = some ⟨regs, csrs, s.mem⟩ ∧
      (∀ r, r ≠ t → r ≠ u → regs r = s.regs r) ∧
      (∀ slot ∈ pairSlots pairs, csrs slot.csr = s.mem b (o + slot.off)) ∧
      ∀ csr, csr ∉ (pairSlots pairs).map CsrSlot.csr → csrs csr = s.csrs csr := by
  have copied : ∃ regs, exec s (pairs.flatMap (copyPair base t u)) = some ⟨regs,
      updateAll s.csrs ((pairSlots pairs).map fun slot => (slot.csr, s.mem b (o + slot.off))),
      s.mem⟩ ∧ ∀ r, r ≠ t → r ≠ u → regs r = s.regs r := by
    clear nodup
    induction pairs generalizing s with
    | nil => exact ⟨s.regs, rfl, fun _ _ _ => rfl⟩
    | cons pair rest ih =>
        obtain ⟨next, step⟩ : ∃ next, next =
            (((s.setReg t (s.mem b (o + pair.1.off))).setReg u (s.mem b (o + pair.2.off))).setCsr
              pair.1.csr (s.mem b (o + pair.1.off))).setCsr pair.2.csr
                (s.mem b (o + pair.2.off)) := ⟨_, rfl⟩
        have one : exec s (copyPair base t u pair) = some next := by
          simp [step, copyPair, exec, Instr.exec, at_base, baseNeT, tNeU]
        obtain ⟨regs, later, others⟩ := ih (s := next) (by simp [step, baseNeT, baseNeU, at_base])
        refine ⟨regs, ?_, ?_⟩
        · rw [List.flatMap_cons, exec_append, one, Option.bind_some, later]
          simp [step, pairSlots, updateAll, State.setCsr]
        · intro r notT notU
          rw [others r notT notU]
          simp [step, notT, notU]
  obtain ⟨regs, executed, others⟩ := copied
  refine ⟨regs, _, executed, others, ?_, ?_⟩
  · intro slot mem
    apply updateAll_of_mem
    · rwa [List.map_map]
    · exact List.mem_map.mpr ⟨slot, mem, rfl⟩
  · intro csr other
    apply updateAll_of_not_mem
    rwa [List.map_map]

end Lps.Asm

import Lps.Core.Bound

/-!
# The bound registers as a file

A register file has a configuration and two limits for each index, and an operation on one
index leaves the others alone.  The configuration words do not keep to that for the upper
indices: the masks and the bits are computed in an `int`, whose sign is copied to the upper
half of the word, and which is shifted by no more than the low five bits of the distance.
-/

namespace Lps.Core

/-! ## Configuration words -/

/-- The four bits of a configuration word that belong to an index. -/
def cfgField (cfg : Word) (i : Nat) : BitVec 4 := cfg.extractLsb' (4 * i) 4

/-- Where the bits of an index are shifted to in an `int`. -/
def cfgSlot (idx : Nat) : Nat := idx % 8

variable {cfg : Word} {idx i k : Nat} {bits : CInt}

theorem intShl_cfg : intShl bits (idx * 4) = bits <<< (4 * cfgSlot idx) := by
  rw [intShl, cfgSlot]
  congr 1
  omega

/-- The bits of an `int` that is widened with its sign. -/
theorem getLsbD_widened (low : k < 64) :
    ((intShl bits (idx * 4)).signExtend 64).getLsbD k =
      (decide (4 * cfgSlot idx ≤ min k 31) && bits.getLsbD (min k 31 - 4 * cfgSlot idx)) := by
  have slot : cfgSlot idx < 8 := Nat.mod_lt _ (by decide)
  rw [BitVec.getLsbD_signExtend, decide_eq_true low, Bool.true_and, intShl_cfg]
  by_cases lower : k < 32
  · have least : min k 31 = k := by omega
    rw [if_pos lower, BitVec.getLsbD_shiftLeft, least, decide_eq_true lower, Bool.true_and]
    congr 1
    rw [← decide_not]
    simp
  · have least : min k 31 = 31 := by omega
    rw [if_neg lower, BitVec.msb_eq_getLsbD_last, BitVec.getLsbD_shiftLeft, least]
    have below : 4 * cfgSlot idx ≤ 31 := by omega
    simp [below]

theorem getLsbD_fifteen (j : Nat) : (0xf : CInt).getLsbD j = decide (j < 4) := by
  rw [show (0xf : CInt) = BitVec.ofNat 32 (2 ^ 4 - 1) from rfl, BitVec.getLsbD_ofNat,
    Nat.testBit_two_pow_sub_one]
  by_cases low : j < 4
  · have small : j < 32 := by omega
    simp [low, small]
  · simp [low]

/-- The index whose bits are cleared for `idx`, and all those of the upper half when the sign of
the mask is. -/
def cfgCleared (idx i : Nat) : Prop := i = cfgSlot idx ∨ 8 ≤ i ∧ cfgSlot idx = 7

instance (idx i : Nat) : Decidable (cfgCleared idx i) := inferInstanceAs (Decidable (_ ∨ _))

/-- The bits of a mask. -/
theorem getLsbD_mask (low : i < 16) {j : Nat} (small : j < 4) :
    ((~~~(intShl 0xf (idx * 4))).signExtend 64).getLsbD (4 * i + j) =
      decide ¬cfgCleared idx i := by
  have slot : cfgSlot idx < 8 := Nat.mod_lt _ (by decide)
  have inWord : 4 * i + j < 64 := by omega
  have widened : ((~~~(intShl 0xf (idx * 4))).signExtend 64).getLsbD (4 * i + j) =
      !((intShl 0xf (idx * 4)).signExtend 64).getLsbD (4 * i + j) := by
    rw [BitVec.getLsbD_signExtend, BitVec.getLsbD_signExtend, decide_eq_true inWord,
      Bool.true_and, Bool.true_and]
    split
    · rename_i lower
      rw [BitVec.getLsbD_not, decide_eq_true lower, Bool.true_and]
    · rw [BitVec.msb_eq_getLsbD_last, BitVec.msb_eq_getLsbD_last, BitVec.getLsbD_not]
      rfl
  rw [widened, getLsbD_widened inWord, getLsbD_fifteen, ← Bool.decide_and, ← decide_not]
  apply decide_eq_decide.mpr
  rw [cfgCleared]
  omega

/-- What clearing the configuration of an index clears. -/
theorem cfgField_clearCfg (low : i < 16) :
    cfgField (clearCfg cfg idx) i = if cfgCleared idx i then 0 else cfgField cfg i := by
  apply BitVec.eq_of_getLsbD_eq
  intro j small
  have inside : ∀ w : Word, (cfgField w i).getLsbD j = w.getLsbD (4 * i + j) := by
    intro w
    rw [cfgField, BitVec.getLsbD_extractLsb', decide_eq_true small, Bool.true_and]
  rw [inside, clearCfg, BitVec.getLsbD_and, getLsbD_mask low small]
  split
  · rename_i cleared
    simp [cleared]
  · rename_i kept
    simp [kept, inside]

/-- What setting the configuration of an index sets: the upper half gets the sign. -/
theorem cfgField_setCfg (low : i < 16) (narrow : bits.toNat < 16) :
    cfgField (setCfg cfg idx bits) i =
      if i = cfgSlot idx then bits.setWidth 4
      else if 8 ≤ i ∧ cfgSlot idx = 7 then (if bits.getLsbD 3 then 0xf else 0)
      else cfgField cfg i := by
  have slot : cfgSlot idx < 8 := Nat.mod_lt _ (by decide)
  apply BitVec.eq_of_getLsbD_eq
  intro j small
  have inside : ∀ w : Word, (cfgField w i).getLsbD j = w.getLsbD (4 * i + j) := by
    intro w
    rw [cfgField, BitVec.getLsbD_extractLsb', decide_eq_true small, Bool.true_and]
  have high : ∀ n, 4 ≤ n → bits.getLsbD n = false := by
    intro n large
    apply Nat.testBit_lt_two_pow
    exact narrow.trans_le (Nat.pow_le_pow_right Nat.two_pos large)
  rw [inside, setCfg, BitVec.getLsbD_or, BitVec.getLsbD_and, getLsbD_mask low small,
    getLsbD_widened (by omega)]
  by_cases own : i = cfgSlot idx
  · have cleared : cfgCleared idx i := Or.inl own
    have place : min (4 * i + j) 31 = 4 * cfgSlot idx + j := by omega
    rw [if_pos own, place, BitVec.getLsbD_setWidth]
    simp [cleared, small]
  rw [if_neg own]
  by_cases sign : 8 ≤ i ∧ cfgSlot idx = 7
  · have cleared : cfgCleared idx i := Or.inr sign
    have place : min (4 * i + j) 31 = 4 * cfgSlot idx + 3 := by omega
    have three : 4 * cfgSlot idx + 3 - 4 * cfgSlot idx = 3 := by omega
    have ones : ∀ j < 4, (0xf : BitVec 4).getLsbD j = true := by decide
    rw [if_pos sign, place, three]
    generalize bits.getLsbD 3 = top
    cases top with
    | false => simp [cleared]
    | true =>
        rw [if_pos rfl, ones j small]
        simp
  · have kept : ¬cfgCleared idx i := by
      rintro (same | upper)
      · exact own same
      · exact sign upper
    rw [if_neg sign, inside]
    by_cases before : 4 * cfgSlot idx ≤ min (4 * i + j) 31
    · rw [high _ (by omega)]
      simp [kept]
    · simp [kept, before]

/-! ## Operations -/

/-- The protection of a memory bound: any combination of `LIBCFG_R` and `LIBCFG_W`. -/
def libcfg (readable writable : Bool) : CInt :=
  (if readable then LIBCFG_R else 0) ||| (if writable then LIBCFG_W else 0)

/-- An operation on the bounds of a context. -/
inductive BoundOp
  | memboundSet (idx : Fin 16) (readable writable : Bool) (low high : Word)
  | memboundClear (idx : Fin 16)
  | jmpboundSet (idx : Fin 4) (low high : Word)
  | jmpboundClear (idx : Fin 4)
  deriving DecidableEq

/-- What the operation does to the registers. -/
def BoundOp.apply (regs : BoundRegs) : BoundOp → BoundRegs
  | memboundSet idx readable writable low high => lpsMemboundSet regs idx (libcfg readable writable) low high
  | memboundClear idx => lpsMemboundClear regs idx
  | jmpboundSet idx low high => lpsJmpboundSet regs idx low high
  | jmpboundClear idx => lpsJmpboundClear regs idx

/-- The registers after some operations on a new context. -/
def BoundRegs.after (ops : List BoundOp) : BoundRegs := ops.foldl BoundOp.apply .zero

/-- A register file: the configuration and the limits of each index. -/
structure BoundFile where
  mem : Fin 16 → BitVec 4 × Word × Word
  jmp : Fin 4 → BitVec 4 × Word × Word

/-- What the operation writes at its index. -/
def BoundOp.write (file : BoundFile) : BoundOp → BoundFile
  | memboundSet idx readable writable low high =>
      { file with
        mem := Function.update file.mem idx
          ((libcfg readable writable ||| LIBCFG_V).setWidth 4, low, high) }
  | memboundClear idx => { file with mem := Function.update file.mem idx (0, 0, 0) }
  | jmpboundSet idx low high =>
      { file with jmp := Function.update file.jmp idx (JMPCFG_V.setWidth 4, low, high) }
  | jmpboundClear idx => { file with jmp := Function.update file.jmp idx (0, 0, 0) }

/-- The register file after some operations: every index holds what the last one wrote there. -/
def BoundFile.after (ops : List BoundOp) : BoundFile :=
  ops.foldl BoundOp.write ⟨fun _ => (0, 0, 0), fun _ => (0, 0, 0)⟩

/-- The registers hold what the file holds. -/
structure BoundRegs.Holds (regs : BoundRegs) (file : BoundFile) : Prop where
  mem : ∀ i : Fin 16, (cfgField regs.memcfg i, regs.membound i) = file.mem i
  jmp : ∀ i : Fin 4, (cfgField regs.jmpcfg i, regs.jmpbound i) = file.jmp i

/-- An operation keeps to its index: one that sets a memory bound has one of the first seven, and
one that clears a memory bound has none whose configuration eight places before is set. -/
def BoundOp.Precise (file : BoundFile) : BoundOp → Prop
  | memboundSet idx .. => idx.val < 7
  | memboundClear idx => ∀ i : Fin 16, i.val + 8 = idx.val → (file.mem i).1 = 0
  | jmpboundSet .. => True
  | jmpboundClear .. => True

/-! ## Steps -/

variable {regs : BoundRegs} {file : BoundFile} {op : BoundOp} {ops : List BoundOp}

/-- The bits that a memory bound is configured with. -/
theorem libcfg_narrow (readable writable : Bool) :
    (libcfg readable writable ||| LIBCFG_V).toNat < 16 ∧
      (libcfg readable writable ||| LIBCFG_V).getLsbD 3 = true ∧
      (libcfg readable writable ||| LIBCFG_V).setWidth 4 ≠ 0 ∧
      (libcfg readable writable ||| LIBCFG_V).setWidth 4 ≠ 0xf := by
  revert readable writable
  decide

/-- No configuration of the upper half is set. -/
def BoundFile.LowHalf (file : BoundFile) : Prop := ∀ i : Fin 16, 8 ≤ i.val → (file.mem i).1 = 0

theorem cfgSlot_low (low : idx < 8) : cfgSlot idx = idx := Nat.mod_eq_of_lt low

theorem cfgSlot_high (low : idx < 16) (high : 8 ≤ idx) : cfgSlot idx = idx - 8 := by
  rw [cfgSlot]
  omega

/-- An operation on the memory bounds, when the configuration is what it writes. -/
theorem BoundRegs.Holds.writeMem {idx : Fin 16} {cfg' : Word} {field : BitVec 4}
    {limits : Word × Word} (holds : regs.Holds file)
    (same : ∀ i : Fin 16, cfgField cfg' i = if i = idx then field else (file.mem i).1) :
    BoundRegs.Holds
      { regs with membound := Function.update regs.membound idx limits, memcfg := cfg' }
      { file with mem := Function.update file.mem idx (field, limits) } := by
  refine ⟨fun i => ?_, holds.jmp⟩
  have before := holds.mem i
  dsimp only
  rw [same]
  by_cases own : i = idx
  · rw [if_pos own, own, Function.update_self, Function.update_self]
  · rw [if_neg own, Function.update_of_ne own, Function.update_of_ne own, ← before]

/-- An operation on the jump bounds. -/
theorem BoundRegs.Holds.writeJmp {idx : Fin 4} {cfg' : Word} {field : BitVec 4}
    {limits : Word × Word} (holds : regs.Holds file)
    (same : ∀ i : Fin 4, cfgField cfg' i = if i = idx then field else (file.jmp i).1) :
    BoundRegs.Holds
      { regs with jmpbound := Function.update regs.jmpbound idx limits, jmpcfg := cfg' }
      { file with jmp := Function.update file.jmp idx (field, limits) } := by
  refine ⟨holds.mem, fun i => ?_⟩
  have before := holds.jmp i
  dsimp only
  rw [same]
  by_cases own : i = idx
  · rw [if_pos own, own, Function.update_self, Function.update_self]
  · rw [if_neg own, Function.update_of_ne own, Function.update_of_ne own, ← before]

theorem BoundRegs.Holds.memField (holds : regs.Holds file) (i : Fin 16) :
    cfgField regs.memcfg i = (file.mem i).1 := congrArg Prod.fst (holds.mem i)

theorem BoundRegs.Holds.jmpField (holds : regs.Holds file) (i : Fin 4) :
    cfgField regs.jmpcfg i = (file.jmp i).1 := congrArg Prod.fst (holds.jmp i)

/-- Writing zero, or at one of the lower indices, leaves the upper half clear. -/
theorem BoundFile.LowHalf.write {idx : Fin 16} {value : BitVec 4 × Word × Word}
    (lowHalf : file.LowHalf) (small : idx.val < 8 ∨ value.1 = 0) :
    BoundFile.LowHalf { file with mem := Function.update file.mem idx value } := by
  intro i high
  dsimp only
  by_cases own : i = idx
  · subst own
    rw [Function.update_self]
    exact small.resolve_left (by omega)
  · rw [Function.update_of_ne own]
    exact lowHalf i high

theorem BoundOp.Precise.clears {idx : Fin 16} (precise : (memboundClear idx).Precise file) :
    idx.val < 8 ∨ 8 ≤ idx.val ∧ (file.mem (idx - 8)).1 = 0 := by
  rcases Nat.lt_or_ge idx.val 8 with low | high
  · exact Or.inl low
  · exact Or.inr ⟨high, precise (idx - 8) (by omega)⟩

/-- A precise operation on registers that hold a file. -/
theorem BoundOp.Precise.holds (precise : op.Precise file) (holds : regs.Holds file)
    (lowHalf : file.LowHalf) : (op.apply regs).Holds (op.write file) ∧ (op.write file).LowHalf := by
  cases op with
  | memboundSet idx readable writable low high =>
      have below : idx.val < 7 := precise
      have slot := cfgSlot_low (show idx.val < 8 by omega)
      refine ⟨holds.writeMem fun i => ?_, lowHalf.write (Or.inl (by omega))⟩
      rw [cfgField_setCfg i.isLt (libcfg_narrow readable writable).1, slot, ← holds.memField]
      simp only [Fin.ext_iff]
      rw [if_neg (show ¬(8 ≤ i.val ∧ idx.val = 7) by omega)]
  | memboundClear idx =>
      refine ⟨holds.writeMem fun i => ?_, lowHalf.write (Or.inr rfl)⟩
      rw [cfgField_clearCfg i.isLt]
      have upper := lowHalf i
      by_cases own : i = idx
      · subst own
        rw [if_pos rfl]
        split
        · rfl
        · rename_i kept
          have high : 8 ≤ i.val := by
            by_contra low
            exact kept (Or.inl (cfgSlot_low (by omega)).symm)
          rw [holds.memField, upper high]
      rw [if_neg own]
      split
      · rename_i cleared
        rcases cleared with slot | sign
        · rcases precise.clears with low | ⟨high, clear⟩
          · rw [cfgSlot_low low] at slot
            exact absurd (Fin.ext slot) own
          · have before : i = idx - 8 := by
              rw [cfgSlot_high idx.isLt high] at slot
              omega
            rw [before, clear]
        · rw [upper sign.1]
      · exact holds.memField i
  | jmpboundSet idx low high =>
      have slot := cfgSlot_low (show idx.val < 8 by omega)
      refine ⟨holds.writeJmp fun i => ?_, lowHalf⟩
      rw [cfgField_setCfg (by omega) (by decide), slot, ← holds.jmpField]
      simp only [Fin.ext_iff]
      rw [if_neg (show ¬(8 ≤ i.val ∧ idx.val = 7) by omega)]
  | jmpboundClear idx =>
      have slot := cfgSlot_low (show idx.val < 8 by omega)
      refine ⟨holds.writeJmp fun i => ?_, lowHalf⟩
      have onlySlot : cfgCleared idx.val i.val ↔ i = idx := by
        rw [cfgCleared, slot, Fin.ext_iff]
        omega
      rw [cfgField_clearCfg (by omega), ← holds.jmpField]
      simp only [onlySlot]

/-- Any other one. -/
theorem BoundOp.not_holds (imprecise : ¬op.Precise file) (holds : regs.Holds file)
    (lowHalf : file.LowHalf) : ¬(op.apply regs).Holds (op.write file) := by
  intro after
  cases op with
  | memboundSet idx readable writable low high =>
      obtain ⟨narrow, top, nonzero, partial_⟩ := libcfg_narrow readable writable
      have above : 7 ≤ idx.val := Nat.not_lt.mp imprecise
      rcases Nat.eq_or_lt_of_le above with seventh | upper
      · -- The sign of the bits reaches the upper half.
        have eighth := after.memField 8
        have other : (8 : Fin 16) ≠ idx := by
          intro same
          rw [← same] at seventh
          exact absurd seventh (by decide)
        simp only [apply, write, lpsMemboundSet] at eighth
        rw [cfgField_setCfg (by decide) narrow, ← seventh, Function.update_of_ne other,
          lowHalf 8 (Nat.le_refl 8), if_neg (by decide), if_pos (by decide), if_pos top] at eighth
        exact absurd eighth (by decide)
      · -- The bits of another index are set.
        have field := after.memField idx
        simp only [apply, write, lpsMemboundSet] at field
        rw [cfgField_setCfg idx.isLt narrow, Function.update_self, cfgSlot_high idx.isLt upper,
          if_neg (by omega), holds.memField, lowHalf idx upper, if_pos top] at field
        split at field
        · exact partial_ field.symm
        · exact nonzero field.symm
  | memboundClear idx =>
      simp only [Precise, not_forall] at imprecise
      obtain ⟨i, place, set⟩ := imprecise
      have before : i.val = cfgSlot idx := by
        rw [cfgSlot_high idx.isLt (by omega)]
        omega
      have other : i ≠ idx := by omega
      have field := after.memField i
      simp only [apply, write, lpsMemboundClear] at field
      have cleared : cfgCleared idx.val i.val := Or.inl before
      rw [cfgField_clearCfg i.isLt, Function.update_of_ne other, if_pos cleared] at field
      exact set field.symm
  | jmpboundSet idx low high => exact imprecise trivial
  | jmpboundClear idx => exact imprecise trivial

/-! ## Sequences -/

theorem zero_holds : BoundRegs.zero.Holds (.after []) := by
  constructor
  · decide
  · decide

theorem after_concat : (BoundRegs.after (ops ++ [op])) = op.apply (.after ops) ∧
    BoundFile.after (ops ++ [op]) = op.write (.after ops) := by
  constructor
  · exact List.foldl_concat ..
  · exact List.foldl_concat ..

/-- While every operation keeps to its index, no configuration of the upper half is set. -/
theorem lowHalf_after (precise : ∀ done op, done ++ [op] <+: ops → op.Precise (.after done))
    (holds : ∀ done, done <+: ops → (BoundRegs.after done).Holds (.after done)) :
    (BoundFile.after ops).LowHalf := by
  induction ops using List.reverseRecOn with
  | nil => exact fun _ _ => rfl
  | append_singleton ops op ih =>
      rw [after_concat.2]
      have before := ih (fun done op within => precise done op (within.trans (List.prefix_append ..)))
        fun done within => holds done (within.trans (List.prefix_append ..))
      exact ((precise ops op (List.prefix_refl _)).holds
        (holds ops (List.prefix_append ..)) before).2

/-- For every sequence of operations on a new context: at each point the registers hold what the
last operation on each index wrote there, exactly when every operation keeps to its index. -/
theorem bounds_are_file_iff (ops : List BoundOp) :
    (∀ done, done <+: ops → (BoundRegs.after done).Holds (.after done)) ↔
      ∀ done op, done ++ [op] <+: ops → op.Precise (.after done) := by
  induction ops using List.reverseRecOn with
  | nil =>
      constructor
      · intro _ done op within
        exact absurd (List.prefix_nil.mp within) (List.append_ne_nil_of_right_ne_nil _ nofun)
      · intro _ done within
        rw [List.prefix_nil.mp within]
        exact zero_holds
  | append_singleton ops op ih =>
      constructor
      · intro holds
        have before : ∀ done, done <+: ops → (BoundRegs.after done).Holds (.after done) :=
          fun done within => holds done (within.trans (List.prefix_append ..))
        have precise := ih.mp before
        intro done last within
        rcases List.prefix_concat_iff.mp within with same | earlier
        · obtain ⟨rfl, rfl⟩ := List.append_singleton_inj.mp same
          by_contra imprecise
          have all := holds (done ++ [last]) (List.prefix_refl _)
          rw [after_concat.1, after_concat.2] at all
          exact BoundOp.not_holds imprecise (before done (List.prefix_refl _))
            (lowHalf_after precise before) all
        · exact precise done last earlier
      · intro precise
        have sooner : ∀ done op, done ++ [op] <+: ops → op.Precise (.after done) :=
          fun done op within => precise done op (within.trans (List.prefix_append ..))
        have before := ih.mpr sooner
        intro done within
        rcases List.prefix_concat_iff.mp within with rfl | earlier
        · rw [after_concat.1, after_concat.2]
          exact ((precise ops op (List.prefix_refl _)).holds (before ops (List.prefix_refl _))
            (lowHalf_after sooner before)).1
        · exact before done earlier

/-- A bound of the upper half overwrites the configuration of another one. -/
theorem upper_bound_misses :
    ¬∀ ops : List BoundOp, ∀ done, done <+: ops →
      (BoundRegs.after done).Holds (.after done) := by
  intro claim
  have all := (claim [.memboundSet 9 true true 0x1000 0x2000] _ (List.prefix_refl _)).mem 9
  exact absurd (congrArg Prod.fst all) (by decide)

end Lps.Core

import Lps.Core.BoxMap

/-!
# What the box map hands out

Seen from outside, a box map is a set of addresses in use.  Handing out a chunk
adds a new address that belongs to a region, taking one back removes that
address and no other, and the shape of the regions never changes.
-/

namespace Lps.Core

/-! ## Alignment -/

theorem truncp_toNat (addr align : Word) :
    (truncp addr align).toNat = addr.toNat / align.toNat * align.toNat := by
  have rem : (addr % align).toNat = addr.toNat % align.toNat := BitVec.toNat_umod
  have split := Nat.div_add_mod' addr.toNat align.toNat
  have le : (addr % align).toNat ≤ addr.toNat := rem ▸ Nat.mod_le ..
  rw [truncp, BitVec.toNat_sub_of_le le, rem]
  omega

/-- Rounding up an address in the lower half of the address space does not wrap. -/
theorem ceilp_spec {addr align : Word} (pos : 0 < align.toNat) (low : addr.toNat ≤ 2 ^ 63) :
    align.toNat ∣ (ceilp addr align).toNat ∧ addr.toNat ≤ (ceilp addr align).toNat := by
  have rem : (addr % align).toNat = addr.toNat % align.toNat := BitVec.toNat_umod
  have split := Nat.div_add_mod' addr.toNat align.toNat
  unfold ceilp
  split
  · rename_i aligned
    have aligned : addr.toNat % align.toNat = 0 := by
      rw [← rem, aligned]
      rfl
    exact ⟨Nat.dvd_of_mod_eq_zero aligned, le_rfl⟩
  · rename_i misaligned
    have remLt := Nat.mod_lt addr.toNat pos
    have remPos : 0 < (addr % align).toNat := by bv_omega
    have up : (addr + (align - addr % align)).toNat =
        (addr.toNat / align.toNat + 1) * align.toNat := by
      rw [Nat.add_mul, Nat.one_mul]
      by_cases small : addr.toNat < align.toNat
      · have quotient : addr.toNat / align.toNat = 0 := Nat.div_eq_of_lt small
        rw [quotient] at split ⊢
        bv_omega
      · bv_omega
    rw [up]
    refine ⟨Nat.dvd_mul_left .., ?_⟩
    rw [Nat.add_mul, Nat.one_mul]
    omega

/-! ## Bits -/

theorem bit_eq_one_iff {bitvec : BitVector} {i : Nat} :
    bit bitvec i = 1 ↔ (bitvec (i / 8)).getLsbD (7 - i % 8) = true := by
  rw [bit, show (1 : Byte) = 1#8 from rfl, BitVec.and_one_eq_setWidth_ofBool_getLsbD,
    BitVec.getLsbD_ushiftRight, Nat.add_zero]
  cases (bitvec (i / 8)).getLsbD (7 - i % 8) <;> decide

theorem bit_eq_zero_iff {bitvec : BitVector} {i : Nat} :
    bit bitvec i = 0 ↔ bit bitvec i ≠ 1 := by
  rw [Ne, bit_eq_one_iff, bit, show (1 : Byte) = 1#8 from rfl,
    BitVec.and_one_eq_setWidth_ofBool_getLsbD, BitVec.getLsbD_ushiftRight, Nat.add_zero]
  cases (bitvec (i / 8)).getLsbD (7 - i % 8) <;> decide

/-- Setting a bit sets that bit and no other. -/
theorem bit_setBit {bitvec : BitVector} {i j : Nat} {val : Bool} :
    bit (setBit bitvec i val) j = 1 ↔ if j = i then val = true else bit bitvec j = 1 := by
  rw [bit_eq_one_iff, bit_eq_one_iff, setBit]
  by_cases sameByte : j / 8 = i / 8
  · rw [sameByte, Function.update_self]
    have one : ∀ k < 8, ∀ m < 8, ((1 : Byte) <<< k).getLsbD m = decide (m = k) := by decide
    have value := one (7 - i % 8) (by omega) (7 - j % 8) (by omega)
    have sameBit : (7 - j % 8 = 7 - i % 8) ↔ j = i := by omega
    cases val with
    | true =>
        simp only [if_true, BitVec.getLsbD_or, value, sameBit]
        by_cases same : j = i <;> simp [same]
    | false =>
        simp only [Bool.false_eq_true, if_false, BitVec.getLsbD_and, BitVec.getLsbD_not, value,
          sameBit]
        have low : 7 - j % 8 < 8 := by omega
        by_cases same : j = i <;> simp [same, low]
  · rw [Function.update_of_ne sameByte, if_neg (by rintro rfl; exact sameByte rfl)]

/-- Setting a range of bits sets these bits and no others. -/
theorem bit_bitvecSet {bitvec : BitVector} {start length j : Nat} {val : Bool} :
    bit (bitvecSet bitvec start val length) j = 1 ↔
      if start ≤ j ∧ j < start + length then val = true else bit bitvec j = 1 := by
  induction length with
  | zero =>
      rw [bitvecSet, if_neg]
      omega
  | succ length ih =>
      rw [bitvecSet, bit_setBit]
      by_cases last : j = start + length
      · rw [if_pos last, if_pos (by omega)]
      · have same : (start ≤ j ∧ j < start + length) ↔ start ≤ j ∧ j < start + (length + 1) := by
          omega
        rw [if_neg last, ih]
        simp only [same]

/-- Setting one bit. -/
theorem bit_bitvecSet_one {bitvec : BitVector} {i j : Nat} {val : Bool} :
    bit (bitvecSet bitvec i val 1) j = 1 ↔ if j = i then val = true else bit bitvec j = 1 := by
  have same : (i ≤ j ∧ j < i + 1) ↔ j = i := by omega
  rw [bit_bitvecSet]
  simp only [same]

/-- The `n` bits from bit `i` on are zero. -/
def ZeroRun (bitvec : BitVector) (i n : Nat) : Prop := ∀ j < n, bit bitvec (i + j) = 0

/-- A search for a run of zeroes: one that succeeds finds the first run, and one that fails has
passed none. -/
theorem findZeroes_spec {bitvec : BitVector} {n rest i count : Nat} (less : count < n)
    (le : count ≤ i) (run : ZeroRun bitvec (i - count) count)
    (before : ∀ k < i - count, ¬ZeroRun bitvec k n) :
    (∀ found, findZeroes bitvec n rest i count = some found →
      ZeroRun bitvec found n ∧ found + n ≤ i + rest ∧ ∀ k < found, ¬ZeroRun bitvec k n) ∧
    (findZeroes bitvec n rest i count = none → ∀ k, k + n ≤ i + rest → ¬ZeroRun bitvec k n) := by
  induction rest generalizing i count with
  | zero =>
      constructor
      · nofun
      · exact fun _ k inside => before k (by omega)
  | succ rest ih =>
      rw [findZeroes, ← Nat.add_assoc, Nat.add_right_comm]
      by_cases zero : bit bitvec i = 0
      · rw [if_pos zero]
        have longer : ZeroRun bitvec (i - count) (count + 1) := by
          intro j inside
          rcases Nat.lt_succ_iff_lt_or_eq.mp inside with old | last
          · exact run j old
          · have here : i - count + j = i := by omega
            rw [here]
            exact zero
        by_cases enough : count + 1 = n
        · rw [if_pos enough]
          have start : i + 1 - n = i - count := by omega
          constructor
          · intro found same
            cases same
            rw [start]
            exact ⟨enough ▸ longer, by omega, before⟩
          · nofun
        · rw [if_neg enough]
          have same : i + 1 - (count + 1) = i - count := by omega
          apply ih
          · omega
          · omega
          · rw [same]
            exact longer
          · rw [same]
            exact before
      · rw [if_neg zero]
        apply ih
        · omega
        · exact Nat.zero_le _
        · exact fun j inside => absurd inside (Nat.not_lt_zero j)
        · intro k inside all
          -- A run that starts before the one met here would have to end before it, too.
          by_cases early : k < i - count
          · exact before k early all
          · apply zero
            have here : k + (i - k) = i := by omega
            rw [← here]
            exact all (i - k) (by omega)

/-- What `bitvec_find_zeroes` finds is the first run. -/
theorem bitvecFindZeroes_some {bitvec : BitVector} {size n : Word} {found : Nat}
    (search : bitvecFindZeroes bitvec size n = some found) :
    ZeroRun bitvec found n.toNat ∧ found + n.toNat ≤ (size * 8).toNat ∧
      ∀ k < found, ¬ZeroRun bitvec k n.toNat := by
  rw [bitvecFindZeroes] at search
  split at search
  · contradiction
  · rename_i nonzero
    have pos : 0 < n.toNat :=
      Nat.pos_of_ne_zero fun zero => nonzero (.inl (BitVec.eq_of_toNat_eq zero))
    have result := (findZeroes_spec pos (Nat.zero_le 0) (fun _ inside => absurd inside (Nat.not_lt_zero _))
      (fun _ below => absurd below (Nat.not_lt_zero _))).1 found search
    rw [Nat.zero_add] at result
    exact result

/-- When it finds nothing, it has passed no run. -/
theorem bitvecFindZeroes_none {bitvec : BitVector} {size n : Word} (pos : n ≠ 0) (bits : size ≠ 0)
    (search : bitvecFindZeroes bitvec size n = none) {k : Nat}
    (inside : k + n.toNat ≤ (size * 8).toNat) : ¬ZeroRun bitvec k n.toNat := by
  rw [bitvecFindZeroes, if_neg (not_or.mpr ⟨pos, bits⟩)] at search
  have pos : 0 < n.toNat :=
    Nat.pos_of_ne_zero fun zero => pos (BitVec.eq_of_toNat_eq zero)
  apply (findZeroes_spec pos (Nat.zero_le 0) (fun _ inside => absurd inside (Nat.not_lt_zero _))
      (fun _ below => absurd below (Nat.not_lt_zero _))).2 search
  rw [Nat.zero_add]
  exact inside

theorem zeroRun_one {bitvec : BitVector} {i : Nat} : ZeroRun bitvec i 1 ↔ bit bitvec i = 0 := by
  constructor
  · exact fun run => run 0 Nat.one_pos
  · intro zero j inside
    rw [Nat.lt_one_iff.mp inside]
    exact zero

/-! ## Regions -/

namespace AddrRegion

/-- The addresses of a region. -/
def bytes (r : AddrRegion) : Set Nat := bytesAt r.base r.size.toNat

/-- The address of chunk `i`. -/
def slot (r : AddrRegion) (i : Nat) : Nat :=
  (r.alloc.base.toNat + i) * r.alloc.chunksize.toNat

/-- Address `a` is the start of a chunk of the region that is in use. -/
def Holds (r : AddrRegion) (a : Nat) : Prop :=
  ∃ i < r.alloc.size.toNat, a = r.slot i ∧ bit r.alloc.bitvec i = 1

/-- A region is a whole number of chunks in the lower half of the address space. -/
structure Ok (chunk : Word) (r : AddrRegion) : Prop where
  chunk_pos : 0 < chunk.toNat
  chunksize : r.alloc.chunksize = chunk
  base : r.base.toNat = r.alloc.base.toNat * chunk.toNat
  size : r.size.toNat = r.alloc.size.toNat * chunk.toNat
  bound : r.base.toNat + r.size.toNat ≤ 2 ^ 63

/-- Two regions that differ in their bits and their counter at most. -/
structure Same (r r' : AddrRegion) : Prop where
  base : r'.base = r.base
  size : r'.size = r.size
  allocBase : r'.alloc.base = r.alloc.base
  allocSize : r'.alloc.size = r.alloc.size
  chunksize : r'.alloc.chunksize = r.alloc.chunksize

variable {chunk : Word} {r r' : AddrRegion} {a : Nat}

theorem Same.refl (r : AddrRegion) : r.Same r := ⟨rfl, rfl, rfl, rfl, rfl⟩

theorem Same.bytes (same : r.Same r') : r'.bytes = r.bytes := by
  rw [AddrRegion.bytes, AddrRegion.bytes, same.base, same.size]

theorem Same.slot (same : r.Same r') (i : Nat) : r'.slot i = r.slot i := by
  rw [AddrRegion.slot, AddrRegion.slot, same.allocBase, same.chunksize]

theorem Same.ok (same : r.Same r') (ok : r.Ok chunk) : r'.Ok chunk where
  chunk_pos := ok.chunk_pos
  chunksize := same.chunksize.trans ok.chunksize
  base := by rw [same.base, same.allocBase, ok.base]
  size := by rw [same.size, same.allocSize, ok.size]
  bound := by rw [same.base, same.size]; exact ok.bound

/-- A chunk lies inside its region. -/
theorem Ok.slot_le (ok : r.Ok chunk) {i : Nat} (lt : i < r.alloc.size.toNat) :
    r.base.toNat ≤ r.slot i ∧ r.slot i + chunk.toNat ≤ r.base.toNat + r.size.toNat := by
  rw [slot, ok.chunksize, ok.base, ok.size]
  constructor
  · exact Nat.mul_le_mul_right _ (Nat.le_add_right ..)
  · rw [← Nat.succ_mul, ← Nat.add_mul]
    exact Nat.mul_le_mul_right _ (by omega)

/-- The address of a chunk, as the code computes it. -/
theorem Ok.toNat_slot (ok : r.Ok chunk) {i : Nat} (lt : i < r.alloc.size.toNat) :
    ((r.alloc.base + BitVec.ofNat 64 i) * chunk).toNat = r.slot i := by
  have inside := ok.slot_le lt
  have bound := ok.bound
  have pos := ok.chunk_pos
  rw [slot, ok.chunksize] at inside ⊢
  have product : (r.alloc.base.toNat + i) * chunk.toNat < 2 ^ 64 := by omega
  have sum : r.alloc.base.toNat + i < 2 ^ 64 := (Nat.le_mul_of_pos_right _ pos).trans_lt product
  rw [BitVec.toNat_mul, BitVec.toNat_add, BitVec.toNat_ofNat,
    Nat.mod_eq_of_lt (show i < 2 ^ 64 by omega), Nat.mod_eq_of_lt sum, Nat.mod_eq_of_lt product]

/-- One chunk is asked for. -/
theorem Ok.one_chunk (ok : r.Ok chunk) : chunk / chunk = 1 := by
  apply BitVec.eq_of_toNat_eq
  rw [BitVec.toNat_udiv, Nat.div_self ok.chunk_pos]
  rfl

/-- Different chunks have different addresses. -/
theorem Ok.slot_injective (ok : r.Ok chunk) {i j : Nat} (same : r.slot i = r.slot j) :
    i = j := by
  rw [slot, slot, ok.chunksize] at same
  have := Nat.eq_of_mul_eq_mul_right ok.chunk_pos same
  omega

/-- A chunk in use lies inside its region and starts at a multiple of the chunk
size. -/
theorem Ok.of_holds (ok : r.Ok chunk) (holds : r.Holds a) :
    chunk.toNat ∣ a ∧ r.base.toNat ≤ a ∧ a + chunk.toNat ≤ r.base.toNat + r.size.toNat := by
  obtain ⟨i, lt, rfl, _⟩ := holds
  refine ⟨?_, ok.slot_le lt⟩
  rw [slot, ok.chunksize]
  exact Nat.dvd_mul_left ..

/-- The start of a chunk in use is an address of the region. -/
theorem Ok.mem_bytes (ok : r.Ok chunk) (holds : r.Holds a) : a ∈ r.bytes := by
  have inside := ok.of_holds holds
  have pos := ok.chunk_pos
  rw [AddrRegion.bytes, bytesAt, Set.mem_Ico]
  omega

end AddrRegion

/-! ## The addresses in use -/

/-- Address `a` is the start of a chunk in use. -/
def Used (regions : List AddrRegion) (a : Nat) : Prop := ∃ r ∈ regions, r.Holds a

/-- Regions that are well formed and do not overlap. -/
structure RegionsOk (chunk : Word) (regions : List AddrRegion) : Prop where
  each : ∀ r ∈ regions, r.Ok chunk
  apart : regions.Pairwise fun r r' => Disjoint r.bytes r'.bytes

variable {chunk size : Word} {r : AddrRegion} {rest regions regions' : List AddrRegion}

theorem RegionsOk.tail (ok : RegionsOk chunk (r :: rest)) : RegionsOk chunk rest where
  each := fun r mem => ok.each r (List.mem_cons_of_mem _ mem)
  apart := (List.pairwise_cons.mp ok.apart).2

/-- A region of the new list has the shape of one of the old list. -/
theorem exists_same (same : List.Forall₂ AddrRegion.Same regions regions')
    {s : AddrRegion} (mem : s ∈ regions') : ∃ s₀ ∈ regions, s₀.Same s := by
  induction same with
  | nil => contradiction
  | @cons r r' rest rest' head _ ih =>
      rcases List.mem_cons.mp mem with rfl | mem
      · exact ⟨r, List.mem_cons_self .., head⟩
      · obtain ⟨s₀, mem₀, same₀⟩ := ih mem
        exact ⟨s₀, List.mem_cons_of_mem _ mem₀, same₀⟩

/-- Regions of the same shape are as well formed. -/
theorem RegionsOk.same (ok : RegionsOk chunk regions)
    (same : List.Forall₂ AddrRegion.Same regions regions') : RegionsOk chunk regions' := by
  induction same with
  | nil => exact ok
  | @cons r r' rest rest' head tail ih =>
      have okTail := ih ok.tail
      refine ⟨?_, ?_⟩
      · intro s mem
        rcases List.mem_cons.mp mem with rfl | mem
        · exact head.ok (ok.each r (List.mem_cons_self ..))
        · exact okTail.each s mem
      · refine List.pairwise_cons.mpr ⟨?_, okTail.apart⟩
        intro s mem
        obtain ⟨s₀, mem₀, same₀⟩ := exists_same tail mem
        rw [head.bytes, same₀.bytes]
        exact (List.pairwise_cons.mp ok.apart).1 s₀ mem₀

/-! ## Handing out a chunk -/

theorem extallocIsFull_eq_false {a : ExtAlloc} (notFull : extallocIsFull a = false) :
    ∃ i < a.size.toNat, bit a.bitvec i = 0 := by
  rw [extallocIsFull, List.all_eq_false] at notFull
  obtain ⟨i, mem, ne⟩ := notFull
  exact ⟨i, List.mem_range.mp mem, bit_eq_zero_iff.mpr (by simpa using ne)⟩

/-- A region that is not full hands out a free chunk, or `0` when the search
gives up. -/
theorem AddrRegion.Ok.alloc (ok : r.Ok chunk) (notFull : extallocIsFull r.alloc = false)
    {addr : Word} {alloc : ExtAlloc}
    (result : extallocAlloc r.alloc chunk = some (addr, alloc)) :
    r.Same { r with active := r.active + 1, alloc := alloc } ∧
    (∀ a, r.Holds a → AddrRegion.Holds { r with active := r.active + 1, alloc := alloc } a) ∧
    (addr = 0 ∨ (¬r.Holds addr.toNat ∧
      AddrRegion.Holds { r with active := r.active + 1, alloc := alloc } addr.toNat)) := by
  simp only [extallocAlloc, ok.chunksize, ok.one_chunk] at result
  split at result
  · cases search : bitvecFindZeroes r.alloc.bitvec r.alloc.size 1 with
    | none =>
        rw [search] at result
        simp only [Option.some.injEq, Prod.mk.injEq] at result
        obtain ⟨rfl, rfl⟩ := result
        exact ⟨⟨rfl, rfl, rfl, rfl, rfl⟩, fun a holds => holds, .inl rfl⟩
    | some idx =>
        rw [search] at result
        simp only [Option.some.injEq, Prod.mk.injEq] at result
        obtain ⟨rfl, rfl⟩ := result
        -- The search finds the first zero, and there is one inside the region.
        obtain ⟨run, -, first⟩ := bitvecFindZeroes_some search
        have found : bit r.alloc.bitvec idx = 0 := zeroRun_one.mp run
        obtain ⟨free, freeLt, isFree⟩ := extallocIsFull_eq_false notFull
        have idxLt : idx < r.alloc.size.toNat := by
          by_contra beyond
          exact first free (by omega) (zeroRun_one.mpr isFree)
        have address := ok.toNat_slot idxLt
        have used : ∀ j, bit (bitvecSet r.alloc.bitvec idx true (1 : Word).toNat) j = 1 ↔
            j = idx ∨ bit r.alloc.bitvec j = 1 := by
          intro j
          rw [show (1 : Word).toNat = 1 from rfl, bit_bitvecSet_one]
          by_cases same : j = idx <;> simp [same]
        refine ⟨⟨rfl, rfl, rfl, rfl, ok.chunksize.symm⟩, ?_, .inr ⟨?_, ?_⟩⟩
        · rintro a ⟨i, lt, rfl, isUsed⟩
          exact ⟨i, lt, by rw [AddrRegion.slot, ok.chunksize]; rfl, (used i).mpr (.inr isUsed)⟩
        · rintro ⟨i, lt, same, isUsed⟩
          rw [address] at same
          rw [ok.slot_injective same] at found
          exact bit_eq_zero_iff.mp found isUsed
        · exact ⟨idx, idxLt, by rw [address, AddrRegion.slot, ok.chunksize]; rfl,
            (used idx).mpr (.inl rfl)⟩
  · contradiction

/-- What `allocslot` does to the set of addresses in use. -/
theorem allocslot_spec (ok : RegionsOk chunk regions) {addr : Word}
    (result : allocslot chunk regions = some (addr, regions')) :
    List.Forall₂ AddrRegion.Same regions regions' ∧
    (∀ a, Used regions a → Used regions' a) ∧
    (addr = 0 ∨ (¬Used regions addr.toNat ∧ Used regions' addr.toNat)) := by
  induction regions generalizing regions' with
  | nil => contradiction
  | cons r rest ih =>
      have okHead := ok.each r (List.mem_cons_self ..)
      have apart := (List.pairwise_cons.mp ok.apart).1
      simp only [allocslot] at result
      split at result
      · simp only [Option.bind_eq_bind, Option.bind_eq_some_iff, Prod.exists, Option.some.injEq,
          Prod.mk.injEq] at result
        obtain ⟨_, rest', allocated, rfl, rfl⟩ := result
        obtain ⟨same, kept, fresh⟩ := ih ok.tail allocated
        refine ⟨.cons (.refl r) same, ?_, ?_⟩
        · rintro a ⟨s, mem, holds⟩
          rcases List.mem_cons.mp mem with rfl | mem
          · exact ⟨s, List.mem_cons_self .., holds⟩
          · obtain ⟨s', mem', holds'⟩ := kept a ⟨s, mem, holds⟩
            exact ⟨s', List.mem_cons_of_mem _ mem', holds'⟩
        · rcases fresh with zero | ⟨unused, s, mem, holds⟩
          · exact .inl zero
          · refine .inr ⟨?_, s, List.mem_cons_of_mem _ mem, holds⟩
            rintro ⟨u, memU, holdsU⟩
            rcases List.mem_cons.mp memU with rfl | memU
            · -- The address lies in another region than the full one.
              obtain ⟨s₀, mem₀, same₀⟩ := exists_same same mem
              have inHead := okHead.mem_bytes holdsU
              have inRest := (same₀.ok (ok.tail.each s₀ mem₀)).mem_bytes holds
              rw [same₀.bytes] at inRest
              exact Set.disjoint_left.mp (apart s₀ mem₀) inHead inRest
            · exact unused ⟨u, memU, holdsU⟩
      · rename_i notFull
        simp only [Option.bind_eq_bind, Option.bind_eq_some_iff, Prod.exists, Option.some.injEq,
          Prod.mk.injEq] at result
        obtain ⟨_, alloc, allocated, rfl, rfl⟩ := result
        obtain ⟨same, kept, fresh⟩ :=
          okHead.alloc (Bool.eq_false_of_not_eq_true notFull) allocated
        refine ⟨.cons same (List.forall₂_same.mpr fun s _ => .refl s), ?_, ?_⟩
        · rintro a ⟨s, mem, holds⟩
          rcases List.mem_cons.mp mem with rfl | mem
          · exact ⟨_, List.mem_cons_self .., kept a holds⟩
          · exact ⟨s, List.mem_cons_of_mem _ mem, holds⟩
        · rcases fresh with zero | ⟨unused, holds⟩
          · exact .inl zero
          · refine .inr ⟨?_, _, List.mem_cons_self .., holds⟩
            rintro ⟨u, memU, holdsU⟩
            rcases List.mem_cons.mp memU with rfl | memU
            · exact unused holdsU
            · have inHead := (same.ok okHead).mem_bytes holds
              rw [same.bytes] at inHead
              exact Set.disjoint_left.mp (apart u memU) inHead
                ((ok.each u (List.mem_cons_of_mem _ memU)).mem_bytes holdsU)

/-- What `boxmap_addspace` does to the set of addresses in use. -/
theorem boxmapAddspace_spec {map map' : BoxMap} {addr : Word}
    (ok : RegionsOk chunk map.regions)
    (result : boxmapAddspace map chunk = some (addr, map')) :
    map'.chunksize = map.chunksize ∧
    List.Forall₂ AddrRegion.Same map.regions map'.regions ∧
    (∀ a, Used map.regions a → Used map'.regions a) ∧
    (addr = 0 ∨ (¬Used map.regions addr.toNat ∧ Used map'.regions addr.toNat)) := by
  simp only [boxmapAddspace] at result
  split at result
  · simp only [Option.some.injEq, Prod.mk.injEq] at result
    obtain ⟨rfl, rfl⟩ := result
    exact ⟨rfl, List.forall₂_same.mpr fun s _ => .refl s, fun _ used => used, .inl rfl⟩
  · simp only [Option.bind_eq_bind, Option.bind_eq_some_iff, Prod.exists, Option.some.injEq,
      Prod.mk.injEq] at result
    obtain ⟨_, regions', allocated, rfl, rfl⟩ := result
    exact ⟨rfl, allocslot_spec ok allocated⟩

/-! ## Taking a chunk back -/

/-- A region that holds the address frees that chunk and no other. -/
theorem AddrRegion.Ok.deleteslot (ok : r.Ok chunk) {base : Word} {r' : AddrRegion}
    (aligned : chunk.toNat ∣ base.toNat)
    (result : AddrRegion.deleteslot base chunk r = some r') :
    r.Same r' ∧ ∀ a, a ≠ base.toNat → r.Holds a → r'.Holds a := by
  simp only [AddrRegion.deleteslot] at result
  split at result
  · rename_i inside
    simp only [Option.bind_eq_bind, Option.bind_eq_some_iff, Option.some.injEq] at result
    obtain ⟨alloc, freed, rfl⟩ := result
    simp only [extallocFree, ok.chunksize, ok.one_chunk] at freed
    split at freed
    · simp only [Option.some.injEq] at freed
      subst freed
      refine ⟨⟨rfl, rfl, rfl, rfl, ok.chunksize.symm⟩, ?_⟩
      rintro a other ⟨i, lt, rfl, isUsed⟩
      refine ⟨i, lt, by rw [AddrRegion.slot, ok.chunksize]; rfl, ?_⟩
      rw [show (1 : Word).toNat = 1 from rfl, bit_bitvecSet_one, if_neg ?_]
      · exact isUsed
      · -- The freed bit is the one of the address.
        rintro rfl
        apply other
        have bound := ok.bound
        have above : r.base.toNat ≤ base.toNat := inside.1
        have quotient : r.alloc.base.toNat ≤ base.toNat / chunk.toNat := by
          rw [ok.base] at above
          exact (Nat.le_div_iff_mul_le ok.chunk_pos).mpr above
        have difference : (base / chunk - r.alloc.base).toNat =
            base.toNat / chunk.toNat - r.alloc.base.toNat := by
          have div : (base / chunk).toNat = base.toNat / chunk.toNat := BitVec.toNat_udiv
          rw [BitVec.toNat_sub_of_le (by rw [BitVec.le_def, div]; exact quotient), div]
        rw [AddrRegion.slot, ok.chunksize, difference, Nat.add_sub_cancel' quotient,
          Nat.div_mul_cancel aligned]
    · contradiction
  · simp only [Option.some.injEq] at result
    subst result
    exact ⟨.refl r, fun a _ holds => holds⟩

/-- What `boxmap_rmspace` does to the set of addresses in use. -/
theorem boxmapRmspace_spec {map map' : BoxMap} {base : Word}
    (ok : RegionsOk chunk map.regions) (aligned : chunk.toNat ∣ base.toNat)
    (result : boxmapRmspace map base chunk = some map') :
    map'.chunksize = map.chunksize ∧
    List.Forall₂ AddrRegion.Same map.regions map'.regions ∧
    ∀ a, a ≠ base.toNat → Used map.regions a → Used map'.regions a := by
  simp only [boxmapRmspace, Option.bind_eq_bind, Option.bind_eq_some_iff,
    Option.some.injEq] at result
  obtain ⟨regions', deleted, rfl⟩ := result
  refine ⟨rfl, ?_⟩
  generalize map.regions = regions at ok deleted
  induction regions generalizing regions' with
  | nil =>
      simp only [List.mapM_nil, Option.pure_def, Option.some.injEq] at deleted
      subst deleted
      exact ⟨.nil, fun a _ used => used⟩
  | cons r rest ih =>
      simp only [List.mapM_cons, Option.bind_eq_bind, Option.bind_eq_some_iff, Option.pure_def,
        Option.some.injEq] at deleted
      obtain ⟨r', head, rest', tail, rfl⟩ := deleted
      obtain ⟨same, kept⟩ := (ok.each r (List.mem_cons_self ..)).deleteslot aligned head
      obtain ⟨sameRest, keptRest⟩ := ih rest' ok.tail tail
      refine ⟨.cons same sameRest, ?_⟩
      rintro a other ⟨s, mem, holds⟩
      rcases List.mem_cons.mp mem with rfl | mem
      · exact ⟨r', List.mem_cons_self .., kept a other holds⟩
      · obtain ⟨s', mem', holds'⟩ := keptRest a other ⟨s, mem, holds⟩
        exact ⟨s', List.mem_cons_of_mem _ mem', holds'⟩

end Lps.Core

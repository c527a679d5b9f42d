import Lps.Core.Engine
import Mathlib.Algebra.BigOperators.Group.List.Basic
import Mathlib.Data.Finset.Card

/-!
# How many boxes an engine has room for

Each box takes one free chunk.  A reservation that starts at a multiple of the
box size has room for every box it was made for, and any other one loses the
chunk that the alignment cuts off.
-/

namespace Lps.Core

/-! ## Free chunks -/

/-- The free chunks of a region. -/
def AddrRegion.free (r : AddrRegion) : Finset Nat :=
  (Finset.range r.alloc.size.toNat).filter fun i => bit r.alloc.bitvec i = 0

/-- How many chunks are free in all regions. -/
def freeChunks (regions : List AddrRegion) : Nat :=
  (regions.map fun r => r.free.card).sum

variable {chunk base size : Word} {r : AddrRegion} {rest regions regions' : List AddrRegion}

theorem AddrRegion.mem_free {i : Nat} :
    i ∈ r.free ↔ i < r.alloc.size.toNat ∧ bit r.alloc.bitvec i = 0 := by
  rw [AddrRegion.free, Finset.mem_filter, Finset.mem_range]

@[simp]
theorem freeChunks_cons : freeChunks (r :: rest) = r.free.card + freeChunks rest := by
  simp [freeChunks]

theorem AddrRegion.card_free_le : r.free.card ≤ r.alloc.size.toNat :=
  (Finset.card_filter_le _ _).trans_eq (Finset.card_range _)

/-- All chunks of a new region are free. -/
theorem AddrRegion.Trimmed.free (trimmed : r.Trimmed chunk base size) :
    r.free = Finset.range r.alloc.size.toNat := by
  rw [AddrRegion.free, Finset.filter_eq_self]
  exact fun i mem => trimmed.zero i (Finset.mem_range.mp mem)

theorem extallocIsFull_iff : extallocIsFull r.alloc = true ↔ r.free = ∅ := by
  constructor
  · intro full
    rw [Finset.eq_empty_iff_forall_notMem]
    intro i mem
    rw [AddrRegion.mem_free] at mem
    have used := List.all_eq_true.mp full i (List.mem_range.mpr mem.1)
    exact bit_eq_zero_iff.mp mem.2 (by simpa using used)
  · intro none
    by_contra notFull
    obtain ⟨i, lt, zero⟩ := extallocIsFull_eq_false (Bool.eq_false_of_not_eq_true notFull)
    have mem : i ∈ r.free := AddrRegion.mem_free.mpr ⟨lt, zero⟩
    rw [none] at mem
    exact Finset.notMem_empty i mem

/-- The box map is full when no chunk is free. -/
theorem isfull_iff {map : BoxMap} : map.isfull = true ↔ freeChunks map.regions = 0 := by
  rw [BoxMap.isfull]
  induction map.regions with
  | nil => simp [freeChunks]
  | cons r rest ih =>
      rw [List.all_cons, Bool.and_eq_true, ih, extallocIsFull_iff, freeChunks_cons,
        Nat.add_eq_zero_iff, Finset.card_eq_zero]

/-! ## Handing out a chunk -/

/-- A region with a free chunk hands out the first one. -/
theorem AddrRegion.Ok.takes_first (ok : r.Ok chunk) (page : 4096 ≤ chunk.toNat)
    (nonempty : r.free.Nonempty) :
    ∃ idx ∈ r.free, (∀ j ∈ r.free, idx ≤ j) ∧ ∃ addr alloc,
      extallocAlloc r.alloc chunk = some (addr, alloc) ∧ addr.toNat = r.slot idx ∧
      AddrRegion.free { r with active := r.active + 1, alloc := alloc } = r.free.erase idx := by
  obtain ⟨j, mem⟩ := nonempty
  rw [mem_free] at mem
  have chunks : r.alloc.size.toNat * 4096 ≤ 2 ^ 63 := by
    refine le_trans (Nat.mul_le_mul_left _ page) ?_
    rw [← ok.size]
    exact (Nat.le_add_left ..).trans ok.bound
  -- The search runs over as many bytes as there are bits, so it covers all bits.
  have covered : (r.alloc.size * 8).toNat = r.alloc.size.toNat * 8 := by
    rw [BitVec.toNat_mul]
    exact Nat.mod_eq_of_lt (by simp; omega)
  have sizeNe : r.alloc.size ≠ 0 := by
    rintro zero
    rw [zero] at mem
    simp at mem
  obtain ⟨idx, found⟩ : ∃ idx, bitvecFindZeroes r.alloc.bitvec r.alloc.size 1 = some idx := by
    apply Option.ne_none_iff_exists'.mp
    intro none
    have inside : j + (1 : Word).toNat ≤ (r.alloc.size * 8).toNat := by
      rw [covered]
      change j + 1 ≤ _
      omega
    exact bitvecFindZeroes_none (by decide) sizeNe none inside (zeroRun_one.mpr mem.2)
  obtain ⟨run, -, first⟩ := bitvecFindZeroes_some found
  have zero : bit r.alloc.bitvec idx = 0 := zeroRun_one.mp run
  have first : ∀ j, bit r.alloc.bitvec j = 0 → idx ≤ j := by
    intro j zero
    by_contra before
    exact first j (by omega) (zeroRun_one.mpr zero)
  have lt : idx < r.alloc.size.toNat := (first j mem.2).trans_lt mem.1
  have whole : chunk % chunk = 0 := BitVec.umod_self
  refine ⟨idx, mem_free.mpr ⟨lt, zero⟩, fun i free => first i (mem_free.mp free).2,
    (r.alloc.base + BitVec.ofNat 64 idx) * chunk,
    { r.alloc with bitvec := bitvecSet r.alloc.bitvec idx true 1 }, ?_, ok.toNat_slot lt, ?_⟩
  · simp only [extallocAlloc, ok.chunksize, if_pos whole, ok.one_chunk, found]
    rfl
  · ext i
    rw [Finset.mem_erase, mem_free, mem_free, bit_eq_zero_iff, bit_eq_zero_iff, Ne,
      bit_bitvecSet_one]
    by_cases same : i = idx <;> simp [same]

/-- While a chunk is free, `allocslot` hands out the first free chunk of a region. -/
theorem allocslot_takes (ok : RegionsOk chunk regions) (page : 4096 ≤ chunk.toNat)
    (room : 0 < freeChunks regions) :
    ∃ addr regions', allocslot chunk regions = some (addr, regions') ∧
      freeChunks regions' + 1 = freeChunks regions ∧
      ∃ r ∈ regions, ∃ idx ∈ r.free, (∀ j ∈ r.free, idx ≤ j) ∧ addr.toNat = r.slot idx := by
  induction regions with
  | nil => simp [freeChunks] at room
  | cons r rest ih =>
      rw [freeChunks_cons] at room ⊢
      by_cases full : extallocIsFull r.alloc = true
      · have none : r.free.card = 0 := Finset.card_eq_zero.mpr (extallocIsFull_iff.mp full)
        obtain ⟨addr, rest', allocated, fewer, s, mem, first⟩ := ih ok.tail (by omega)
        refine ⟨addr, r :: rest', ?_, ?_, s, List.mem_cons_of_mem _ mem, first⟩
        · simp [allocslot, full, allocated]
        · rw [freeChunks_cons]
          omega
      · have nonempty : r.free.Nonempty := by
          rw [Finset.nonempty_iff_ne_empty]
          exact fun none => full (extallocIsFull_iff.mpr none)
        obtain ⟨idx, mem, first, addr, alloc, allocated, address, taken⟩ :=
          (ok.each r List.mem_cons_self).takes_first page nonempty
        refine ⟨addr, { r with active := r.active + 1, alloc := alloc } :: rest, ?_, ?_, r,
          List.mem_cons_self, idx, mem, first, address⟩
        · simp only [allocslot, if_neg full, allocated, Option.bind_eq_bind, Option.bind_some]
        · rw [freeChunks_cons, taken, Finset.card_erase_of_mem mem]
          have pos := Finset.card_pos.mpr nonempty
          omega

/-! ## Boxes one after the other -/

namespace LPSEngine

/-- The next `n` calls of `lps_box_new` all return a box, when there is memory. -/
def Serves : LPSEngine → Nat → Prop
  | _, 0 => True
  | engine, n + 1 =>
      ∃ box engine', lpsBoxNew engine true = some (some box, engine') ∧ engine'.Serves n

/-- An engine whose regions hold whole boxes. -/
structure Ok (engine : LPSEngine) : Prop where
  page : 4096 ≤ engine.boxsize.toNat
  regions : RegionsOk engine.boxsize engine.bm.regions

variable {engine : LPSEngine} {n : Nat}

theorem Ok.boxNew_full (full : freeChunks engine.bm.regions = 0) :
    lpsBoxNew engine true = some (none, engine) := by
  rw [lpsBoxNew_true, boxmapAddspace, if_pos (isfull_iff.mpr full)]
  rfl

/-- While a chunk is free, `lps_box_new` takes one; the box is there unless the
chunk lies at address zero. -/
theorem Ok.boxNew (ok : engine.Ok) (room : 0 < freeChunks engine.bm.regions) :
    ∃ (addr : Word) (engine' : LPSEngine),
      lpsBoxNew engine true =
        some (if addr = 0 then none else some ⟨addr, engine.boxsize⟩, engine') ∧
      engine'.Ok ∧ freeChunks engine'.bm.regions + 1 = freeChunks engine.bm.regions ∧
      List.Forall₂ AddrRegion.Same engine.bm.regions engine'.bm.regions ∧
      ∃ r ∈ engine.bm.regions, ∃ idx ∈ r.free, (∀ j ∈ r.free, idx ≤ j) ∧
        addr.toNat = r.slot idx := by
  obtain ⟨addr, regions', allocated, fewer, first⟩ := allocslot_takes ok.regions ok.page room
  have same := (allocslot_spec ok.regions allocated).1
  have notFull : ¬engine.bm.isfull = true := by
    rw [isfull_iff]
    omega
  refine ⟨addr, ⟨{ engine.bm with regions := regions' }, engine.boxsize⟩, ?_,
    ⟨ok.page, ok.regions.same same⟩, fewer, same, first⟩
  simp only [lpsBoxNew_true, boxmapAddspace, if_neg notFull, allocated, Option.bind_eq_bind,
    Option.bind_some, Option.map_some]

/-- No more boxes than there are free chunks. -/
theorem Ok.le_of_serves (ok : engine.Ok) (serves : engine.Serves n) :
    n ≤ freeChunks engine.bm.regions := by
  induction n generalizing engine with
  | zero => exact Nat.zero_le _
  | succ n ih =>
      obtain ⟨box, engine', made, rest⟩ := serves
      by_cases full : freeChunks engine.bm.regions = 0
      · rw [Ok.boxNew_full full] at made
        simp at made
      · obtain ⟨addr, next, called, okNext, fewer, _⟩ := ok.boxNew (Nat.pos_of_ne_zero full)
        rw [called, Option.some.injEq, Prod.mk.injEq] at made
        rw [← made.2] at rest
        have left := ih okNext rest
        omega

/-- As many boxes as there are free chunks, when no region starts at address zero. -/
theorem Ok.serves (ok : engine.Ok) (nonzero : ∀ r ∈ engine.bm.regions, r.base.toNat ≠ 0)
    (room : n ≤ freeChunks engine.bm.regions) : engine.Serves n := by
  induction n generalizing engine with
  | zero => trivial
  | succ n ih =>
      obtain ⟨addr, engine', called, okNext, fewer, same, r, mem, idx, free, _, address⟩ :=
        ok.boxNew (by omega)
      have inside := (ok.regions.each r mem).slot_le (AddrRegion.mem_free.mp free).1
      have notZero : addr ≠ 0 := by
        rintro rfl
        have := nonzero r mem
        simp at address
        omega
      rw [if_neg notZero] at called
      refine ⟨_, engine', called, ih okNext ?_ (by omega)⟩
      intro s mem'
      obtain ⟨s₀, mem₀, same₀⟩ := exists_same same mem'
      rw [same₀.base]
      exact nonzero s₀ mem₀

/-- The first box of a single new region at address zero is not there. -/
theorem Ok.not_serves_zero (ok : engine.Ok) (single : engine.bm.regions = [r])
    (zero : r.base.toNat = 0) (new : r.free = Finset.range r.alloc.size.toNat)
    (serves : engine.Serves (n + 1)) : False := by
  have room := ok.le_of_serves serves
  obtain ⟨box, engine', made, _⟩ := serves
  obtain ⟨addr, next, called, _, _, _, s, mem, idx, free, first, address⟩ :=
    ok.boxNew (by omega)
  rw [single, List.mem_singleton] at mem
  subst mem
  have okRegion := ok.regions.each s (by rw [single]; exact List.mem_singleton_self s)
  have idxZero : idx = 0 := by
    have lt := (AddrRegion.mem_free.mp free).1
    exact Nat.le_zero.mp (first 0 (by rw [new, Finset.mem_range]; omega))
  have atZero : addr = 0 := by
    apply BitVec.eq_of_toNat_eq
    rw [address, idxZero, AddrRegion.slot, Nat.add_zero, okRegion.chunksize, ← okRegion.base, zero]
    rfl
  rw [called, if_pos atZero] at made
  simp at made

end LPSEngine

/-! ## What a reservation has room for -/

/-- How many bytes the regions have. -/
def regionBytes (regions : List AddrRegion) : Nat :=
  (regions.map fun r => r.size.toNat).sum

theorem freeChunks_mul_le (ok : RegionsOk chunk regions) :
    freeChunks regions * chunk.toNat ≤ regionBytes regions := by
  induction regions with
  | nil => simp [freeChunks, regionBytes]
  | cons r rest ih =>
      have others := ih ok.tail
      have own : r.free.card * chunk.toNat ≤ r.size.toNat := by
        rw [(ok.each r List.mem_cons_self).size]
        exact Nat.mul_le_mul_right _ r.card_free_le
      rw [freeChunks_cons, Nat.add_mul]
      simpa [regionBytes] using Nat.add_le_add own others

section Reservation

variable {host : HostMem} {reserved : host.State → Set Nat} {userTop : Nat}
  {map map' : BoxMap} {beyond : BitVector} {s s' : host.State}

theorem reserve_le {size threshold got base : Word}
    (result : reserve host size threshold s = (some (got, base), s')) :
    got.toNat ≤ size.toNat := by
  fun_induction reserve host size threshold s with
  | case1 size s granted s₁ asked =>
      simp only [Prod.mk.injEq] at result
      split at result
      · simp at result
      · simp only [Option.some.injEq, Prod.mk.injEq] at result
        rw [result.1.1]
  | case2 size s s₁ asked stop => simp at result
  | case3 size s s₁ asked more ih =>
      have half : (size / 2).toNat = size.toNat / 2 := BitVec.toNat_udiv
      have le := ih result
      omega

/-- The least size that is asked for is granted at the first call or not at all. -/
theorem reserve_self {size got base : Word} (pos : 0 < size.toNat)
    (result : reserve host size size s = (some (got, base), s')) :
    got = size ∧ host.mmap s size = (some base, s') := by
  rw [reserve] at result
  split at result
  · rename_i granted s₁ asked
    rw [if_neg (by simp)] at result
    simp only [Prod.mk.injEq, Option.some.injEq] at result
    obtain ⟨⟨rfl, rfl⟩, rfl⟩ := result
    exact ⟨rfl, asked⟩
  · have half : (size / 2).toNat = size.toNat / 2 := BitVec.toNat_udiv
    have less : size / 2 < size := by
      rw [BitVec.lt_def]
      omega
    rw [dif_pos (.inl less)] at result
    simp at result

theorem AddrRegion.Trimmed.size_le (trimmed : r.Trimmed chunk base size)
    (bound : base.toNat ≤ 2 ^ 63) : r.size.toNat ≤ size.toNat := by
  have above := (ceilp_spec trimmed.ok.chunk_pos bound).2
  have down := Nat.div_mul_le_self (base.toNat + size.toNat) chunk.toNat
  have high := trimmed.high
  rw [← trimmed.low] at above
  omega

/-- The loop of `boxmap_reserve` makes regions of no more bytes than it is told to
reserve in total. -/
theorem boxmapReserveLoop_bytes (lawful : host.Lawful reserved userTop) {chunk : Word}
    (pos : 0 < chunk.toNat) {least wanted total size totalgot got : Word} {rounds : Nat}
    (le : size.toNat ≤ total.toNat) (chunksize : map.chunksize = chunk)
    (result : boxmapReserveLoop host least wanted beyond rounds total size totalgot map s =
      some (got, map', s')) :
    regionBytes map'.regions ≤ regionBytes map.regions + total.toNat := by
  induction rounds generalizing total size totalgot map s with
  | zero =>
      simp only [boxmapReserveLoop, Option.some.injEq, Prod.mk.injEq] at result
      obtain ⟨_, rfl, rfl⟩ := result
      exact Nat.le_add_right ..
  | succ rounds ih =>
      simp only [boxmapReserveLoop] at result
      split at result
      · simp only [Option.some.injEq, Prod.mk.injEq] at result
        obtain ⟨_, rfl, rfl⟩ := result
        exact Nat.le_add_right ..
      · rename_i granted base s₁ asked
        have bound := (reserve_spec lawful asked).1
        have fits := (reserve_le asked).trans le
        split at result
        · contradiction
        · rename_i map₁ s₂ added
          obtain ⟨same, _, r, regions, trimmed, _⟩ :=
            addregion_spec lawful (chunksize ▸ pos) bound added
          have own := trimmed.size_le (by omega)
          have more : regionBytes map₁.regions = regionBytes map.regions + r.size.toNat := by
            simp [regionBytes, regions]
          split at result
          · simp only [Option.some.injEq, Prod.mk.injEq] at result
            obtain ⟨_, rfl, rfl⟩ := result
            omega
          · have left : (total - granted).toNat = total.toNat - granted.toNat :=
              BitVec.toNat_sub_of_le fits
            have rest := ih (Nat.le_refl _) (same.trans chunksize) result
            omega

end Reservation

/-! ## The promise of `lps_new` -/

section Promise

variable {host : HostMem} {reserved : host.State → Set Nat} {userTop : Nat}
  {boxsize nsandboxes : Word} {beyond : BitVector} {s₀ s₁ : host.State} {engine : LPSEngine}

theorem lpsNew_ok (lawful : host.Lawful reserved userTop) (page : 4096 ≤ boxsize.toNat)
    (created : lpsNew host boxsize nsandboxes beyond s₀ = some (engine, s₁)) : engine.Ok := by
  have isolated := lpsNew_isolated lawful (by omega) created
  have boxsize_eq : engine.boxsize = boxsize := isolated.boxsize
  exact ⟨boxsize_eq ▸ page, boxsize_eq ▸ isolated.map.regions⟩

/-- The loop that a successful `lps_new` goes through. -/
theorem lpsNew_loop
    (created : lpsNew host boxsize nsandboxes beyond s₀ = some (engine, s₁)) :
    engine.boxsize = boxsize ∧ ∃ got,
      boxmapReserveLoop host
        (if nsandboxes * boxsize = 0 then gb 32 else nsandboxes * boxsize)
        (if nsandboxes * boxsize = 0 then tb 255 else nsandboxes * boxsize) beyond
        ADDR_REGION_MAX
        (if nsandboxes * boxsize = 0 then tb 256 else nsandboxes * boxsize)
        (if nsandboxes * boxsize = 0 then tb 255 else nsandboxes * boxsize) 0 ⟨[], boxsize⟩ s₀ =
          some (got, engine.bm, s₁) ∧
      ¬got < if nsandboxes * boxsize = 0 then tb 255 else nsandboxes * boxsize := by
  simp only [lpsNew, boxmapReserve, Option.bind_eq_bind, Option.bind_eq_some_iff, Prod.exists,
    Option.some.injEq, Prod.mk.injEq] at created
  obtain ⟨bm, s₂, ⟨got, map, s₃, looped, enough⟩, rfl, rfl⟩ := created
  generalize (if nsandboxes * boxsize = 0 then tb 255 else nsandboxes * boxsize) = wanted
    at looped enough ⊢
  split at enough
  · contradiction
  · rename_i reached
    simp only [Option.some.injEq, Prod.mk.injEq] at enough
    obtain ⟨rfl, rfl⟩ := enough
    exact ⟨rfl, got, looped, reached⟩

/-- All regions of a new engine together are no larger than what it reserves. -/
theorem lpsNew_bytes (lawful : host.Lawful reserved userTop) (page : 4096 ≤ boxsize.toNat)
    (created : lpsNew host boxsize nsandboxes beyond s₀ = some (engine, s₁)) :
    regionBytes engine.bm.regions ≤
      (if nsandboxes * boxsize = 0 then tb 256 else nsandboxes * boxsize).toNat := by
  obtain ⟨_, got, looped, _⟩ := lpsNew_loop created
  have bytes := boxmapReserveLoop_bytes lawful (show 0 < boxsize.toNat by omega) ?_ rfl looped
  · simpa [regionBytes] using bytes
  · split
    · decide
    · exact Nat.le_refl _

/-- A request that does not wrap to zero is met by one reservation. -/
theorem lpsNew_single (lawful : host.Lawful reserved userTop) (page : 4096 ≤ boxsize.toNat)
    (request : nsandboxes * boxsize ≠ 0)
    (created : lpsNew host boxsize nsandboxes beyond s₀ = some (engine, s₁)) :
    ∃ base s r, host.mmap s₀ (nsandboxes * boxsize) = (some base, s) ∧
      engine.bm.regions = [r] ∧ r.Trimmed boxsize base (nsandboxes * boxsize) ∧
      base.toNat + (nsandboxes * boxsize).toNat ≤ 2 ^ 63 := by
  obtain ⟨_, got, looped, reached⟩ := lpsNew_loop created
  simp only [if_neg request] at looped reached
  generalize nsandboxes * boxsize = size at request looped reached ⊢
  have pos : 0 < size.toNat := by
    rw [Nat.pos_iff_ne_zero]
    exact fun zero => request (BitVec.eq_of_toNat_eq zero)
  rw [ADDR_REGION_MAX, boxmapReserveLoop] at looped
  split at looped
  · simp only [Option.some.injEq, Prod.mk.injEq] at looped
    obtain ⟨rfl, _, _⟩ := looped
    exact absurd pos reached
  · rename_i granted base s asked
    obtain ⟨rfl, answer⟩ := reserve_self pos asked
    have bound := (reserve_spec lawful asked).1
    split at looped
    · contradiction
    · rename_i map s₂ added
      obtain ⟨_, _, r, regions, trimmed, _⟩ := addregion_spec lawful (show 0 < boxsize.toNat by omega) bound added
      rw [if_pos (by simp)] at looped
      simp only [Option.some.injEq, Prod.mk.injEq] at looped
      obtain ⟨_, rfl, _⟩ := looped
      exact ⟨base, s, r, answer, by simpa using regions, trimmed, bound⟩

/-- A region made of `n` chunks' worth of bytes has `n` chunks exactly when it need
not be aligned. -/
theorem AddrRegion.Trimmed.le_chunks_iff {n : Nat} (trimmed : r.Trimmed chunk base size)
    (whole : size.toNat = n * chunk.toNat) (bound : base.toNat + size.toNat ≤ 2 ^ 63) :
    n ≤ r.alloc.size.toNat ↔ chunk.toNat ∣ base.toNat ∨ n = 0 := by
  have pos := trimmed.ok.chunk_pos
  have high := trimmed.high
  rw [whole, Nat.add_mul_div_right _ _ pos, trimmed.ok.base, trimmed.ok.size, ← Nat.add_mul] at high
  have chunks := Nat.eq_of_mul_eq_mul_right pos high
  obtain ⟨up, above⟩ := ceilp_spec pos (show base.toNat ≤ 2 ^ 63 by omega)
  rw [← trimmed.low, trimmed.ok.base] at above
  constructor
  · intro enough
    by_cases none : n = 0
    · exact .inr none
    · -- With all chunks there, the base lies no higher than its own last multiple.
      have le : r.alloc.base.toNat ≤ base.toNat / chunk.toNat := by omega
      have down := Nat.div_mul_le_self base.toNat chunk.toNat
      have same := Nat.mul_le_mul_right chunk.toNat le
      exact .inl ⟨r.alloc.base.toNat, by rw [Nat.mul_comm]; omega⟩
  · rintro (aligned | none)
    · have low : r.base = base := by
        have rem : (base % chunk).toNat = 0 := by
          rw [BitVec.toNat_umod, Nat.mod_eq_zero_of_dvd aligned]
        rw [trimmed.low, ceilp, if_pos (BitVec.eq_of_toNat_eq rem)]
      have quotient : r.alloc.base.toNat = base.toNat / chunk.toNat := by
        rw [← low, trimmed.ok.base, Nat.mul_div_cancel _ pos]
      omega
    · omega

/-- An engine that `lps_new` made for `nsandboxes` boxes gives that many boxes one
after the other exactly when the request does not wrap and the host's reservation
for it starts at a multiple of the box size other than zero. -/
theorem engine_serves_iff (lawful : host.Lawful reserved userTop)
    (paged : 4096 ∣ boxsize.toNat) (pos : 0 < boxsize.toNat) (one : 1 ≤ nsandboxes.toNat)
    (created : lpsNew host boxsize nsandboxes beyond s₀ = some (engine, s₁)) :
    engine.Serves nsandboxes.toNat ↔
      nsandboxes.toNat * boxsize.toNat < 2 ^ 64 ∧
        ∃ base s, host.mmap s₀ (nsandboxes * boxsize) = (some base, s) ∧
          base ≠ 0 ∧ boxsize.toNat ∣ base.toNat := by
  have page : 4096 ≤ boxsize.toNat := Nat.le_of_dvd pos paged
  have ok := lpsNew_ok lawful page created
  have boxsize_eq := (lpsNew_loop created).1
  have product : (nsandboxes * boxsize).toNat =
      nsandboxes.toNat * boxsize.toNat % 2 ^ 64 := BitVec.toNat_mul ..
  have requestPos : 0 < nsandboxes.toNat * boxsize.toNat := Nat.mul_pos one pos
  by_cases wraps : nsandboxes.toNat * boxsize.toNat < 2 ^ 64
  · -- One reservation for exactly the boxes asked for.
    rw [Nat.mod_eq_of_lt wraps] at product
    have request : nsandboxes * boxsize ≠ 0 := by
      intro zero
      rw [zero] at product
      simp only [BitVec.toNat_zero, BitVec.ofNat_eq_ofNat] at product
      omega
    obtain ⟨base, s, r, asked, single, trimmed, bound⟩ :=
      lpsNew_single lawful page request created
    have chunks : freeChunks engine.bm.regions = r.alloc.size.toNat := by
      rw [single, freeChunks_cons, trimmed.free, Finset.card_range]
      rfl
    have enough := trimmed.le_chunks_iff product bound
    have answer : (∃ base s, host.mmap s₀ (nsandboxes * boxsize) = (some base, s) ∧
        base ≠ 0 ∧ boxsize.toNat ∣ base.toNat) ↔ base ≠ 0 ∧ boxsize.toNat ∣ base.toNat := by
      simp [asked]
    rw [answer]
    constructor
    · intro serves
      have fits := ok.le_of_serves serves
      rw [chunks, enough] at fits
      have aligned := fits.resolve_right (by omega)
      refine ⟨wraps, ?_, aligned⟩
      rintro rfl
      have zero : r.base.toNat = 0 := by
        rw [trimmed.low, ceilp, if_pos (by simp)]
        rfl
      obtain ⟨n, more⟩ : ∃ n, nsandboxes.toNat = n + 1 := ⟨nsandboxes.toNat - 1, by omega⟩
      rw [more] at serves
      exact ok.not_serves_zero single zero trimmed.free serves
    · rintro ⟨_, notZero, aligned⟩
      refine ok.serves ?_ (by rw [chunks, enough]; exact .inl aligned)
      intro r' mem zero
      rw [single, List.mem_singleton] at mem
      subst mem
      have above := (ceilp_spec pos (show base.toNat ≤ 2 ^ 63 by omega)).2
      rw [← trimmed.low, zero] at above
      exact notZero (BitVec.eq_of_toNat_eq (Nat.le_zero.mp above))
  · -- The regions are too small for boxes of more than the address space.
    refine iff_of_false (fun serves => ?_) (fun both => wraps both.1)
    have fits := ok.le_of_serves serves
    have bytes := freeChunks_mul_le ok.regions
    have reserved := lpsNew_bytes lawful page created
    rw [boxsize_eq] at bytes
    have needed := Nat.mul_le_mul_right boxsize.toNat fits
    have small := (if nsandboxes * boxsize = 0 then tb 256 else nsandboxes * boxsize).isLt
    omega

/-- The page host starts a reservation at page 16, which is a multiple of the box
size. -/
theorem engine_serves_iff_aligned :
    ∃ engine s₁, lpsNew pageHost 0x10000 2 (fun _ => 0) (16 : Nat) = some (engine, s₁) ∧
      engine.Serves 2 := by
  have works : (lpsNew pageHost 0x10000 2 (fun _ => 0) (16 : Nat)).isSome = true := by
    decide +kernel
  obtain ⟨⟨engine, s₁⟩, created⟩ := Option.isSome_iff_exists.mp works
  exact ⟨engine, s₁, created, (engine_serves_iff pageHost_lawful (by decide) (by decide)
    (by decide) created).mpr ⟨by decide, 0x10000, (48 : Nat),
      (show pageMmap 16 (2 * 0x10000) = (some 0x10000, 48) by decide +kernel), by decide,
      by decide⟩⟩

/-- From page 1 on, the same reservation has room for one box only. -/
theorem unaligned_reservation_loses_box :
    ¬∀ (host : HostMem) (reserved : host.State → Set Nat) (userTop : Nat)
      (boxsize nsandboxes : Word) (beyond : BitVector) (s₀ s₁ : host.State) (engine : LPSEngine),
      host.Lawful reserved userTop → 4096 ∣ boxsize.toNat → 0 < boxsize.toNat →
      1 ≤ nsandboxes.toNat →
      lpsNew host boxsize nsandboxes beyond s₀ = some (engine, s₁) →
      engine.Serves nsandboxes.toNat := by
  intro claim
  have second : ((lpsNew pageHost 0x10000 2 (fun _ => 0) (1 : Nat)).bind fun created =>
      (lpsBoxNew created.1 true).bind fun first =>
        (lpsBoxNew first.2 true).map fun second => (first.1, second.1)) =
      some (some ⟨0x10000, 0x10000⟩, none) := by
    decide +kernel
  obtain ⟨⟨engine, s₁⟩, created, second⟩ := Option.bind_eq_some_iff.mp second
  obtain ⟨first, made, second⟩ := Option.bind_eq_some_iff.mp second
  obtain ⟨next, again, pair⟩ := Option.map_eq_some_iff.mp second
  obtain ⟨box, engine', made', box', engine'', again', _⟩ :=
    claim pageHost _ _ _ 2 _ _ _ engine pageHost_lawful (by decide) (by decide) (by decide)
      created
  rw [made, Option.some.injEq] at made'
  rw [made'] at again
  rw [again, Option.some.injEq] at again'
  rw [again'] at pair
  simp at pair

end Promise

end Lps.Core

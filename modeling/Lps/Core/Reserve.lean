import Lps.Core.BoxMapSpec

/-!
# Reserving address space

Every region added to a fresh box map is a whole number of chunks inside one
reservation of the host.  Reservations do not overlap, so regions do not.
-/

namespace Lps.Core

variable {host : HostMem} {reserved : host.State → Set Nat} {userTop : Nat}
  {map map' : BoxMap} {beyond : BitVector} {s s' : host.State}

/-- A reservation the host grants. -/
theorem reserve_spec (lawful : host.Lawful reserved userTop) {size threshold got base : Word}
    (result : reserve host size threshold s = (some (got, base), s')) :
    base.toNat + got.toNat ≤ 2 ^ 63 ∧ Disjoint (bytesAt base got.toNat) (reserved s) ∧
      reserved s' = reserved s ∪ bytesAt base got.toNat := by
  fun_induction reserve host size threshold s with
  | case1 size s granted s₁ asked =>
      simp only [Prod.mk.injEq] at result
      obtain ⟨granted_eq, rfl⟩ := result
      split at granted_eq
      · contradiction
      · simp only [Option.some.injEq, Prod.mk.injEq] at granted_eq
        obtain ⟨rfl, rfl⟩ := granted_eq
        obtain ⟨_, bound, apart, extended⟩ := lawful.mmap_some asked
        exact ⟨bound.trans lawful.userTop_le, apart, extended⟩
  | case2 size s s₁ asked stop => simp at result
  | case3 size s s₁ asked more ih =>
      rw [← lawful.mmap_none asked]
      exact ih result

/-- A refused reservation leaves the reserved addresses alone or adds some. -/
theorem reserve_subset (lawful : host.Lawful reserved userTop) {size threshold : Word}
    {granted : Option (Word × Word)} (result : reserve host size threshold s = (granted, s')) :
    reserved s ⊆ reserved s' := by
  fun_induction reserve host size threshold s with
  | case1 size s base s₁ asked =>
      simp only [Prod.mk.injEq] at result
      obtain ⟨_, rfl⟩ := result
      rw [(lawful.mmap_some asked).2.2.2]
      exact Set.subset_union_left
  | case2 size s s₁ asked stop =>
      simp only [Prod.mk.injEq] at result
      obtain ⟨_, rfl⟩ := result
      rw [lawful.mmap_none asked]
  | case3 size s s₁ asked more ih =>
      rw [← lawful.mmap_none asked]
      exact ih result

/-- The region that `addregion` makes of a reservation: all of its whole chunks,
and all of them free. -/
structure AddrRegion.Trimmed (chunk base size : Word) (r : AddrRegion) : Prop where
  ok : r.Ok chunk
  low : r.base = ceilp base chunk
  high : r.base.toNat + r.size.toNat =
    (base.toNat + size.toNat) / chunk.toNat * chunk.toNat
  zero : ∀ i < r.alloc.size.toNat, bit r.alloc.bitvec i = 0

/-- Every bit of a new allocator is clear. -/
theorem extallocNew_spec {base size chunksize : Word} {alloc : ExtAlloc}
    (created : extallocNew base size chunksize beyond = some alloc) :
    alloc.base = base / chunksize ∧ alloc.size = size / chunksize ∧
      alloc.chunksize = chunksize ∧ ∀ i < alloc.size.toNat, bit alloc.bitvec i = 0 := by
  simp only [extallocNew] at created
  split at created
  · simp only [Option.some.injEq] at created
    subst created
    refine ⟨rfl, rfl, rfl, fun i lt => ?_⟩
    have inside : i / 8 < (size / chunksize / 8 + 1).toNat := by
      generalize size / chunksize = chunks at lt
      have eighth : (chunks / 8).toNat = chunks.toNat / 8 := BitVec.toNat_udiv
      have bound := chunks.isLt
      rw [BitVec.toNat_add, eighth, show (1 : Word).toNat = 1 from rfl,
        Nat.mod_eq_of_lt (by omega)]
      exact Nat.lt_succ_of_le (Nat.div_le_div_right (Nat.le_of_lt lt))
    simp only [bit, if_pos inside]
    change 0#8 >>> (7 - i % 8) &&& 1#8 = 0#8
    rw [BitVec.zero_ushiftRight, BitVec.zero_and]
  · contradiction

/-- The region `addregion` adds lies inside the reservation. -/
theorem addregion_spec (lawful : host.Lawful reserved userTop) {base size : Word}
    (chunk : 0 < map.chunksize.toNat) (bound : base.toNat + size.toNat ≤ 2 ^ 63)
    (result : addregion host map base size beyond s = some (map', s')) :
    map'.chunksize = map.chunksize ∧ reserved s' = reserved s ∧
    ∃ r : AddrRegion, map'.regions = map.regions ++ [r] ∧
      r.Trimmed map.chunksize base size ∧ r.bytes ⊆ bytesAt base size.toNat := by
  simp only [addregion] at result
  split at result
  · contradiction
  simp only [Option.bind_eq_bind, Option.bind_eq_some_iff] at result
  obtain ⟨alloc, created, mapped⟩ := result
  obtain ⟨up, above⟩ := ceilp_spec chunk (show base.toNat ≤ 2 ^ 63 by omega)
  generalize low : ceilp base map.chunksize = alignbase at created mapped up above
  have endEq : alignbase + (size - (alignbase - base)) = base + size := by bv_omega
  have topEq : (base + size).toNat = base.toNat + size.toNat := by bv_omega
  have down := truncp_toNat (base + size) map.chunksize
  rw [endEq] at created mapped
  generalize truncp (base + size) map.chunksize = top at *
  rw [topEq] at down
  have topLe : top.toNat ≤ base.toNat + size.toNat := by
    rw [down]
    exact Nat.div_mul_le_self ..
  have topDvd : map.chunksize.toNat ∣ top.toNat := down ▸ Nat.dvd_mul_left ..
  split at mapped
  · contradiction
  rename_i s₁ asked
  simp only [Option.some.injEq, Prod.mk.injEq] at mapped
  obtain ⟨rfl, rfl⟩ := mapped
  obtain ⟨kept, sound⟩ := lawful.mmapFixed asked
  obtain ⟨nonempty, inUser⟩ := sound rfl
  -- Were the top below the aligned base, the length would reach the upper half.
  have userLow := lawful.userTop_le
  have ordered : alignbase.toNat ≤ top.toNat := by
    by_contra lt
    bv_omega
  have sizeEq : (top - alignbase).toNat = top.toNat - alignbase.toNat :=
    BitVec.toNat_sub_of_le ordered
  obtain ⟨allocBase, allocSize, allocChunk, zero⟩ := extallocNew_spec created
  refine ⟨rfl, kept, _, rfl, ⟨⟨chunk, allocChunk, ?_, ?_, ?_⟩, low.symm, ?_, zero⟩, ?_⟩
  · rw [allocBase, BitVec.toNat_udiv]
    exact (Nat.div_mul_cancel up).symm
  · simp only [allocSize, BitVec.toNat_udiv, sizeEq]
    exact (Nat.div_mul_cancel (Nat.dvd_sub topDvd up)).symm
  · simp only [sizeEq]
    omega
  · simp only [sizeEq, ← down]
    omega
  · intro a inRegion
    simp only [AddrRegion.bytes, bytesAt, Set.mem_Ico, sizeEq] at inRegion ⊢
    omega

/-- A box map whose regions are well formed and inside the reserved addresses. -/
structure BoxMap.Ok (reservedNow : Set Nat) (chunk : Word) (map : BoxMap) : Prop where
  chunksize : map.chunksize = chunk
  regions : RegionsOk chunk map.regions
  inside : ∀ r ∈ map.regions, r.bytes ⊆ reservedNow

/-- A region inside a new reservation is apart from the regions before it. -/
theorem BoxMap.Ok.addregion {reservedNow fresh : Set Nat} {chunk : Word} {r : AddrRegion}
    (ok : map.Ok reservedNow chunk) (okRegion : r.Ok chunk) (inFresh : r.bytes ⊆ fresh)
    (apart : Disjoint fresh reservedNow) (chunksize : map'.chunksize = map.chunksize)
    (regions : map'.regions = map.regions ++ [r]) : map'.Ok (reservedNow ∪ fresh) chunk where
  chunksize := chunksize.trans ok.chunksize
  regions := by
    rw [regions]
    constructor
    · intro s mem
      rcases List.mem_append.mp mem with old | new
      · exact ok.regions.each s old
      · rw [List.mem_singleton.mp new]
        exact okRegion
    · rw [List.pairwise_append]
      refine ⟨ok.regions.apart, List.pairwise_singleton .., ?_⟩
      intro s old s' new
      rw [List.mem_singleton.mp new]
      exact apart.symm.mono (ok.inside s old) inFresh
  inside := by
    rw [regions]
    intro s mem
    rcases List.mem_append.mp mem with old | new
    · exact (ok.inside s old).trans Set.subset_union_left
    · rw [List.mem_singleton.mp new]
      exact inFresh.trans Set.subset_union_right

/-- The regions stay inside when more is reserved. -/
theorem BoxMap.Ok.mono {reservedNow reservedLater : Set Nat} {chunk : Word}
    (ok : map.Ok reservedNow chunk) (more : reservedNow ⊆ reservedLater) :
    map.Ok reservedLater chunk :=
  ⟨ok.chunksize, ok.regions, fun r mem => (ok.inside r mem).trans more⟩

/-- Every round of the loop of `boxmap_reserve` keeps the box map well formed. -/
theorem boxmapReserveLoop_ok (lawful : host.Lawful reserved userTop) {chunk : Word}
    (pos : 0 < chunk.toNat) {least wanted total size totalgot got : Word} {rounds : Nat}
    (ok : map.Ok (reserved s) chunk)
    (result : boxmapReserveLoop host least wanted beyond rounds total size totalgot map s =
      some (got, map', s')) : map'.Ok (reserved s') chunk := by
  induction rounds generalizing total size totalgot map s with
  | zero =>
      simp only [boxmapReserveLoop, Option.some.injEq, Prod.mk.injEq] at result
      obtain ⟨_, rfl, rfl⟩ := result
      exact ok
  | succ rounds ih =>
      simp only [boxmapReserveLoop] at result
      split at result
      · rename_i s₁ asked
        simp only [Option.some.injEq, Prod.mk.injEq] at result
        obtain ⟨_, rfl, rfl⟩ := result
        exact ok.mono (reserve_subset lawful asked)
      · rename_i granted base s₁ asked
        obtain ⟨bound, apart, extended⟩ := reserve_spec lawful asked
        split at result
        · contradiction
        · rename_i map₁ s₂ added
          obtain ⟨chunksize, kept, r, regions, trimmed, inside⟩ :=
            addregion_spec lawful (ok.chunksize ▸ pos) bound added
          have okNext : map₁.Ok (reserved s₂) chunk := by
            rw [kept, extended]
            exact ok.addregion (ok.chunksize ▸ trimmed.ok) inside apart chunksize regions
          split at result
          · simp only [Option.some.injEq, Prod.mk.injEq] at result
            obtain ⟨_, rfl, rfl⟩ := result
            exact okNext
          · exact ih okNext result

/-- A successful `boxmap_reserve` of a fresh box map. -/
theorem boxmapReserve_ok (lawful : host.Lawful reserved userTop) {chunk size : Word}
    (pos : 0 < chunk.toNat)
    (result : boxmapReserve host ⟨[], chunk⟩ size beyond s = some (map, s')) :
    map.Ok (reserved s') chunk := by
  simp only [boxmapReserve, Option.bind_eq_bind, Option.bind_eq_some_iff, Prod.exists] at result
  obtain ⟨got, map₁, s₁, looped, enough⟩ := result
  generalize (if size = 0 then tb 255 else size) = wanted at looped enough
  split at enough
  · contradiction
  · simp only [Option.some.injEq, Prod.mk.injEq] at enough
    obtain ⟨rfl, rfl⟩ := enough
    refine boxmapReserveLoop_ok lawful pos ?_ looped
    exact ⟨rfl, ⟨by simp, .nil⟩, by simp⟩

end Lps.Core

import Lps.Core.Engine
import Lps.Transition.Outputs

/-!
# Spaces of several chunks

A user of the box map asks for spaces of any number of chunks and gives them back.  The search
for a run of free chunks is told the length of its bit vector in bits where it expects bytes: it
goes on behind the last chunk of a region, where what it finds belongs to somebody else.
-/

namespace Lps.Core

open Lps.Transition

/-! ## Reserved regions -/

/-- What calls of `boxmap_reserve` make of a new box map, also those that fail on the way. -/
inductive BoxMap.Reserved (host : HostMem) (chunk : Word) : BoxMap → host.State → Prop
  | new (s : host.State) : Reserved host chunk ⟨[], chunk⟩ s
  | asked {map : BoxMap} {s s' : host.State} {size threshold : Word}
      {granted : Option (Word × Word)} : Reserved host chunk map s →
      reserve host size threshold s = (granted, s') → Reserved host chunk map s'
  | refused {map : BoxMap} {s s' : host.State} {addr len : Word} :
      Reserved host chunk map s → host.mmapFixed s addr len = (false, s') →
      Reserved host chunk map s'
  | added {map map' : BoxMap} {s s₁ s' : host.State} {size threshold got base : Word}
      {beyond : BitVector} : Reserved host chunk map s →
      reserve host size threshold s = (some (got, base), s₁) →
      addregion host map base got beyond s₁ = some (map', s') → Reserved host chunk map' s'

section Reserved

variable {host : HostMem} {reserved : host.State → Set Nat} {userTop : Nat} {chunk : Word}
  {map map' : BoxMap} {beyond : BitVector} {s s' : host.State}

theorem BoxMap.Reserved.loop (made : BoxMap.Reserved host chunk map s) {rounds : Nat}
    {least wanted total size totalgot got : Word}
    (result : boxmapReserveLoop host least wanted beyond rounds total size totalgot map s =
      some (got, map', s')) : BoxMap.Reserved host chunk map' s' := by
  induction rounds generalizing total size totalgot map s with
  | zero =>
      cases result
      exact made
  | succ rounds ih =>
      rw [boxmapReserveLoop] at result
      split at result
      · rename_i s₁ asked
        cases result
        exact .asked made asked
      · rename_i granted base s₁ asked
        split at result
        · contradiction
        · rename_i map₁ s₂ added
          split at result
          · cases result
            exact .added made asked added
          · exact ih (.added made asked added) result

/-- A call of `boxmap_reserve` that succeeds. -/
theorem BoxMap.Reserved.reserve (made : BoxMap.Reserved host chunk map s) {size : Word}
    (result : boxmapReserve host map size beyond s = some (map', s')) :
    BoxMap.Reserved host chunk map' s' := by
  simp only [boxmapReserve, Option.bind_eq_bind, Option.bind_eq_some_iff, Prod.exists] at result
  obtain ⟨got, map₁, s₁, looped, enough⟩ := result
  generalize (if size = 0 then tb 255 else size) = wanted at looped enough
  split at enough
  · contradiction
  · cases enough
    exact made.loop looped

/-- A region that `addregion` adds has no active spaces. -/
theorem addregion_active {base size : Word}
    (result : addregion host map base size beyond s = some (map', s')) :
    ∃ r : AddrRegion, map'.regions = map.regions ++ [r] ∧ r.active = 0 := by
  simp only [addregion] at result
  split at result
  · contradiction
  simp only [Option.bind_eq_bind, Option.bind_eq_some_iff] at result
  obtain ⟨alloc, created, mapped⟩ := result
  split at mapped
  · contradiction
  · cases mapped
    exact ⟨_, rfl, rfl⟩

/-- Reserved regions are well formed, and have no active spaces. -/
theorem BoxMap.Reserved.ok (lawful : host.Lawful reserved userTop) (pos : 0 < chunk.toNat)
    (made : BoxMap.Reserved host chunk map s) :
    map.Ok (reserved s) chunk ∧ ∀ r ∈ map.regions, r.active = 0 := by
  induction made with
  | new s =>
      refine ⟨⟨rfl, ⟨?_, .nil⟩, ?_⟩, ?_⟩ <;> exact fun r mem => absurd mem List.not_mem_nil
  | asked _ asked ih => exact ⟨ih.1.mono (reserve_subset lawful asked), ih.2⟩
  | refused _ refused ih =>
      rw [(lawful.mmapFixed refused).1]
      exact ih
  | added _ asked added ih =>
      obtain ⟨ok, inactive⟩ := ih
      obtain ⟨bound, apart, extended⟩ := reserve_spec lawful asked
      obtain ⟨chunksize, kept, r, regions, trimmed, inside⟩ :=
        addregion_spec lawful (ok.chunksize ▸ pos) bound added
      constructor
      · rw [kept, extended]
        exact ok.addregion (ok.chunksize ▸ trimmed.ok) inside apart chunksize regions
      · obtain ⟨r', regions', zero⟩ := addregion_active added
        rw [regions']
        intro q mem
        rcases List.mem_append.mp mem with old | new
        · exact inactive q old
        · rw [List.mem_singleton.mp new]
          exact zero

end Reserved

/-! ## The search -/

/-- The bits that `bitvec_find_zeroes` examines from bit `i` on. -/
def examined (bitvec : BitVector) (n : Nat) : Nat → Nat → Nat → List Nat
  | 0, _, _ => []
  | rest + 1, i, count =>
      i :: if bit bitvec i = 0 then
        if count + 1 = n then [] else examined bitvec n rest (i + 1) (count + 1)
      else examined bitvec n rest (i + 1) 0

/-- An examined bit, and how many chunks the region of the bit vector has. -/
structure BitRead where
  bit : Nat
  chunks : Word

/-- The bit stands for a chunk. -/
def BitRead.Inside (read : BitRead) : Prop := read.bit < read.chunks.toNat

/-- The bits that the search of `extalloc_alloc` for `n` chunks examines. -/
def ExtAlloc.search (a : ExtAlloc) (n : Word) : List BitRead :=
  if n = 0 ∨ a.size = 0 then []
  else (examined a.bitvec n.toNat (a.size * 8).toNat 0 0).map fun i => ⟨i, a.size⟩

/-- The region that `allocslot` allocates in. -/
def BoxMap.roomy (map : BoxMap) : Option AddrRegion :=
  map.regions.find? fun r => !extallocIsFull r.alloc

/-- The bits that `boxmap_addspace` examines in its search. -/
def BoxMap.search (map : BoxMap) (size : Word) : List BitRead :=
  match map.roomy with
  | none => []
  | some r => r.alloc.search (size / r.alloc.chunksize)

section Search

variable {bitvec : BitVector} {n rest i count j : Nat} {a : ExtAlloc}

/-- A search that succeeds examines bits up to the end of the run that it finds. -/
theorem examined_of_found {found : Nat} (less : count < n) (le : count ≤ i)
    (search : findZeroes bitvec n rest i count = some found) :
    i < found + n ∧ found + n - 1 ∈ examined bitvec n rest i count ∧
      ∀ j ∈ examined bitvec n rest i count, j < found + n := by
  induction rest generalizing i count with
  | zero => contradiction
  | succ rest ih =>
      have goesOn : ∀ {bits : List Nat}, i + 1 < found + n ∧ found + n - 1 ∈ bits ∧
          (∀ j ∈ bits, j < found + n) →
          i < found + n ∧ found + n - 1 ∈ i :: bits ∧ ∀ j ∈ i :: bits, j < found + n := by
        rintro bits ⟨later, last, all⟩
        refine ⟨by omega, List.mem_cons_of_mem _ last, ?_⟩
        intro j mem
        rcases List.mem_cons.mp mem with rfl | mem
        · omega
        · exact all j mem
      rw [findZeroes] at search
      rw [examined]
      by_cases zero : bit bitvec i = 0
      · rw [if_pos zero] at search ⊢
        by_cases enough : count + 1 = n
        · rw [if_pos enough] at search ⊢
          cases search
          have stop : i + 1 - n + n = i + 1 := by omega
          rw [stop, List.mem_singleton]
          refine ⟨Nat.lt_succ_self i, rfl, ?_⟩
          intro j mem
          rw [List.mem_singleton.mp mem]
          exact Nat.lt_succ_self i
        · rw [if_neg enough] at search ⊢
          exact goesOn (ih (by omega) (by omega) search)
      · rw [if_neg zero] at search ⊢
        exact goesOn (ih (by omega) (Nat.zero_le _) search)

/-- All bits that a successful search examines stand for chunks just when the run does. -/
theorem search_inside_iff {chunks : Word} {found : Nat}
    (search : bitvecFindZeroes a.bitvec a.size chunks = some found) :
    (∀ read ∈ a.search chunks, read.Inside) ↔ found + chunks.toNat ≤ a.size.toNat := by
  rw [bitvecFindZeroes] at search
  rw [ExtAlloc.search]
  split at search
  · contradiction
  · rename_i some
    have pos : 0 < chunks.toNat :=
      Nat.pos_of_ne_zero fun zero => some (.inl (BitVec.eq_of_toNat_eq zero))
    obtain ⟨-, last, all⟩ := examined_of_found pos (Nat.zero_le _) search
    rw [if_neg some]
    constructor
    · intro inside
      have read := inside _ (List.mem_map_of_mem last)
      rw [BitRead.Inside] at read
      dsimp only at read
      omega
    · intro fits read mem
      obtain ⟨j, examined, rfl⟩ := List.mem_map.mp mem
      exact (all j examined).trans_le fits

end Search

/-! ## Spaces -/

/-- What `boxmap_addspace` returned for a size. -/
structure Space where
  base : Word
  size : Word
  deriving DecidableEq

/-- The addresses of a space. -/
def Space.bytes (space : Space) : Set Nat := bytesAt space.base space.size.toNat

/-- The space is a run of chunks of the region, all of them in use. -/
structure AddrRegion.LendsAt (r : AddrRegion) (space : Space) (idx n : Nat) : Prop where
  pos : 0 < n
  inside : idx + n ≤ r.alloc.size.toNat
  base : space.base.toNat = r.slot idx
  size : space.size.toNat = n * r.alloc.chunksize.toNat
  used : ∀ j < n, bit r.alloc.bitvec (idx + j) = 1

namespace AddrRegion.LendsAt

variable {chunk : Word} {r r' : AddrRegion} {space space' : Space} {idx n idx' n' i : Nat}

/-- A chunk starts in a space when it is one of the run. -/
theorem slot_mem_iff (ok : r.Ok chunk) (lends : r.LendsAt space idx n) :
    r.slot i ∈ space.bytes ↔ idx ≤ i ∧ i < idx + n := by
  have stop : r.slot idx + n * r.alloc.chunksize.toNat = r.slot (idx + n) := by
    rw [slot, slot, ← Nat.add_mul, Nat.add_assoc]
  have pos : 0 < r.alloc.chunksize.toNat := ok.chunksize ▸ ok.chunk_pos
  rw [Space.bytes, bytesAt, Set.mem_Ico, lends.base, lends.size, stop, slot, slot, slot,
    Nat.mul_le_mul_right_iff pos, Nat.mul_lt_mul_right pos]
  omega

theorem bytes_subset (ok : r.Ok chunk) (lends : r.LendsAt space idx n) : space.bytes ⊆ r.bytes := by
  have inside := Nat.mul_le_mul_right chunk.toNat lends.inside
  have base := lends.base
  have size := lends.size
  rw [slot, ok.chunksize] at base
  rw [ok.chunksize] at size
  intro a mem
  rw [Space.bytes, bytesAt, Set.mem_Ico, base, size] at mem
  rw [AddrRegion.bytes, bytesAt, Set.mem_Ico, ok.base, ok.size]
  rw [Nat.add_mul] at mem inside
  omega

theorem aligned (ok : r.Ok chunk) (lends : r.LendsAt space idx n) :
    chunk.toNat ∣ space.base.toNat := by
  rw [lends.base, slot, ok.chunksize]
  exact Nat.dvd_mul_left ..

/-- A space is not empty. -/
theorem base_mem (ok : r.Ok chunk) (lends : r.LendsAt space idx n) :
    space.base.toNat ∈ space.bytes := by
  rw [lends.base, slot_mem_iff ok lends]
  exact ⟨Nat.le_refl _, Nat.lt_add_of_pos_right lends.pos⟩

/-- Disjoint spaces of a region have no chunk in common. -/
theorem apart (ok : r.Ok chunk) (lends : r.LendsAt space idx n) (lends' : r.LendsAt space' idx' n')
    (disjoint : Disjoint space.bytes space'.bytes) : idx + n ≤ idx' ∨ idx' + n' ≤ idx := by
  have pos := lends.pos
  have pos' := lends'.pos
  by_contra both
  have common : max idx idx' < idx + n ∧ max idx idx' < idx' + n' := by omega
  apply Set.disjoint_left.mp disjoint
  · exact (slot_mem_iff ok lends).mpr ⟨Nat.le_max_left idx idx', common.1⟩
  · exact (slot_mem_iff ok lends').mpr ⟨Nat.le_max_right idx idx', common.2⟩

/-- Runs of a region that have no chunk in common are disjoint spaces. -/
theorem disjoint (same : r.Same r') (lends : r.LendsAt space idx n)
    (lends' : r'.LendsAt space' idx' n') (apart : idx + n ≤ idx' ∨ idx' + n' ≤ idx) :
    Disjoint space.bytes space'.bytes := by
  have below : ∀ {i j : Nat}, i ≤ j → r.slot i ≤ r.slot j := by
    intro i j le
    exact Nat.mul_le_mul_right _ (Nat.add_le_add_left le _)
  have stop : ∀ i k : Nat, r.slot i + k * r.alloc.chunksize.toNat = r.slot (i + k) := by
    intro i k
    rw [slot, slot, ← Nat.add_mul, Nat.add_assoc]
  rw [Set.disjoint_left]
  intro a mem mem'
  rw [Space.bytes, bytesAt, Set.mem_Ico, lends.base, lends.size, stop] at mem
  rw [Space.bytes, bytesAt, Set.mem_Ico, lends'.base, lends'.size, same.slot, same.chunksize,
    stop] at mem'
  rcases apart with first | second
  · have := below first
    omega
  · have := below second
    omega

/-- The bits of other chunks may change. -/
theorem congr (lends : r.LendsAt space idx n) (same : r.Same r')
    (kept : ∀ j < n, bit r.alloc.bitvec (idx + j) = 1 → bit r'.alloc.bitvec (idx + j) = 1) :
    r'.LendsAt space idx n where
  pos := lends.pos
  inside := by
    rw [same.allocSize]
    exact lends.inside
  base := by
    rw [same.slot]
    exact lends.base
  size := by
    rw [same.chunksize]
    exact lends.size
  used := fun j inside => kept j inside (lends.used j inside)

end AddrRegion.LendsAt

/-- The region has the space. -/
def AddrRegion.Lends (r : AddrRegion) (space : Space) : Prop := ∃ idx n, r.LendsAt space idx n

/-- A box map and its live spaces. -/
structure SpaceMap where
  map : BoxMap
  live : List Space

/-- The calls of a user of the box map. -/
inductive SpaceCall
  | addspace (size : Word)
  | rmspace (space : Space)

/-- One call: a size is a positive multiple of the chunk size, and only live spaces are given
back. -/
def SpaceMap.step : Step SpaceMap SpaceCall BitRead := fun w call =>
  match call with
  | .addspace size =>
      if size ≠ 0 ∧ size % w.map.chunksize = 0 then do
        let (addr, map) ← boxmapAddspace w.map size
        let live := if addr = 0 then w.live else ⟨addr, size⟩ :: w.live
        some (⟨map, live⟩, w.map.search size)
      else none
  | .rmspace space =>
      if space ∈ w.live then do
        let map ← boxmapRmspace w.map space.base space.size
        some (⟨map, w.live.erase space⟩, [])
      else none

/-- Live spaces lie in one reserved region each, at a multiple of the chunk size, apart from each
other, and `boxmap_active` is how many there are. -/
structure SpaceMap.Kept (reservedNow : Set Nat) (chunk : Word) (w : SpaceMap) : Prop where
  inside : ∀ space ∈ w.live, ∃ r ∈ w.map.regions, space.bytes ⊆ r.bytes ∧ r.bytes ⊆ reservedNow
  aligned : ∀ space ∈ w.live, chunk.toNat ∣ space.base.toNat
  apart : w.live.Pairwise fun space space' => Disjoint space.bytes space'.bytes
  active : (boxmapActive w.map).toNat = w.live.length

instance {bitvec : BitVector} {i n : Nat} : Decidable (ZeroRun bitvec i n) :=
  inferInstanceAs (Decidable (∀ j < n, bit bitvec (i + j) = 0))

/-- The region has that many free chunks in a row where the search comes by, and the search does
not end with a run at address zero. -/
structure AddrRegion.Serves (r : AddrRegion) (n : Word) : Prop where
  room : ∃ idx < r.alloc.size.toNat, idx + n.toNat ≤ r.alloc.size.toNat ∧
    idx + n.toNat ≤ (r.alloc.size * 8).toNat ∧ ZeroRun r.alloc.bitvec idx n.toNat
  nonzero : r.base = 0 → ¬ZeroRun r.alloc.bitvec 0 n.toNat

instance {r : AddrRegion} {n : Word} : Decidable (r.Serves n) :=
  decidable_of_iff
    ((∃ idx < r.alloc.size.toNat, idx + n.toNat ≤ r.alloc.size.toNat ∧
      idx + n.toNat ≤ (r.alloc.size * 8).toNat ∧ ZeroRun r.alloc.bitvec idx n.toNat) ∧
        (r.base = 0 → ¬ZeroRun r.alloc.bitvec 0 n.toNat))
    ⟨fun both => ⟨both.1, both.2⟩, fun serves => ⟨serves.room, serves.nonzero⟩⟩

/-- The condition on a call: the first region that is not full serves it. -/
def SpaceCall.Fits (map : BoxMap) : SpaceCall → Prop
  | .addspace size => ∀ r ∈ map.roomy, r.Serves (size / map.chunksize)
  | .rmspace _ => True

instance {map : BoxMap} : (call : SpaceCall) → Decidable (call.Fits map)
  | .addspace size => inferInstanceAs (Decidable (∀ r ∈ map.roomy, r.Serves (size / map.chunksize)))
  | .rmspace _ => .isTrue trivial

/-! ## The first region that is not full -/

section Regions

variable {chunk size addr : Word} {r r' : AddrRegion} {before rest regions regions' : List AddrRegion}
  {map map' : BoxMap} {space : Space} {idx n : Nat}

/-- A change of one region keeps the shape of the list. -/
theorem same_of_replace (same : r.Same r') :
    List.Forall₂ AddrRegion.Same (before ++ r :: rest) (before ++ r' :: rest) := by
  induction before with
  | nil => exact .cons same (List.forall₂_same.mpr fun s _ => .refl s)
  | cons first before ih => exact .cons (.refl first) ih

theorem foldl_active (total more : Word) :
    regions.foldl (fun total r => total + r.active) (total + more) =
      regions.foldl (fun total r => total + r.active) total + more := by
  induction regions generalizing total with
  | nil => rfl
  | cons r rest ih =>
      rw [List.foldl_cons, List.foldl_cons, ← ih]
      congr 1
      rw [BitVec.add_assoc, BitVec.add_assoc, BitVec.add_comm more]

/-- A change of one region changes the number of active spaces as it does in the region. -/
theorem active_of_replace (old : map.regions = before ++ r :: rest)
    (new : map'.regions = before ++ r' :: rest) {more : Word} (counted : r'.active = r.active + more) :
    boxmapActive map' = boxmapActive map + more := by
  rw [boxmapActive, boxmapActive, old, new, List.foldl_append, List.foldl_append, List.foldl_cons,
    List.foldl_cons, counted, ← BitVec.add_assoc, foldl_active]

/-- What `allocslot` does: it allocates in the region that it finds, and leaves the others. -/
theorem allocslot_cases (result : allocslot size regions = some (addr, regions')) :
    ∃ before r rest alloc, regions = before ++ r :: rest ∧
      regions.find? (fun r => !extallocIsFull r.alloc) = some r ∧ extallocIsFull r.alloc = false ∧
      extallocAlloc r.alloc size = some (addr, alloc) ∧
      regions' = before ++ { r with active := r.active + 1, alloc := alloc } :: rest := by
  induction regions generalizing regions' with
  | nil => contradiction
  | cons first others ih =>
      rw [allocslot] at result
      split at result
      · rename_i full
        simp only [Option.bind_eq_bind, Option.bind_eq_some_iff, Prod.exists] at result
        obtain ⟨addr', others', allocated, pair⟩ := result
        cases pair
        obtain ⟨before, r, rest, alloc, split, found, notFull, taken, rfl⟩ := ih allocated
        refine ⟨first :: before, r, rest, alloc, ?_, ?_, notFull, taken, rfl⟩
        · rw [split, List.cons_append]
        · rw [List.find?_cons, full]
          exact found
      · rename_i notFull
        have notFull : extallocIsFull first.alloc = false := Bool.eq_false_of_not_eq_true notFull
        simp only [Option.bind_eq_bind, Option.bind_eq_some_iff, Prod.exists] at result
        obtain ⟨addr', alloc, allocated, pair⟩ := result
        cases pair
        refine ⟨[], first, others, alloc, rfl, ?_, notFull, allocated, rfl⟩
        rw [List.find?_cons, notFull]
        rfl

/-- The box map is full when no region is found. -/
theorem BoxMap.roomy_eq_none_iff : map.roomy = none ↔ map.isfull = true := by
  rw [BoxMap.roomy, List.find?_eq_none, BoxMap.isfull, List.all_eq_true]
  constructor
  · intro all r mem
    have full := all r mem
    simpa using full
  · intro all r mem
    simp [all r mem]

/-- What `boxmap_addspace` does. -/
theorem boxmapAddspace_cases (result : boxmapAddspace map size = some (addr, map')) :
    (map.roomy = none ∧ addr = 0 ∧ map' = map) ∨
    ∃ before r rest alloc, map.regions = before ++ r :: rest ∧ map.roomy = some r ∧
      extallocIsFull r.alloc = false ∧ extallocAlloc r.alloc size = some (addr, alloc) ∧
      map'.chunksize = map.chunksize ∧
      map'.regions = before ++ { r with active := r.active + 1, alloc := alloc } :: rest := by
  rw [boxmapAddspace] at result
  split at result
  · rename_i full
    cases result
    exact .inl ⟨BoxMap.roomy_eq_none_iff.mpr full, rfl, rfl⟩
  · simp only [Option.bind_eq_bind, Option.bind_eq_some_iff, Prod.exists] at result
    obtain ⟨addr', regions', allocated, pair⟩ := result
    cases pair
    obtain ⟨before, r, rest, alloc, split, found, notFull, taken, rfl⟩ := allocslot_cases allocated
    exact .inr ⟨before, r, rest, alloc, split, found, notFull, taken, rfl, rfl⟩

/-- For whole chunks no assertion fails. -/
theorem boxmapAddspace_isSome (whole : ∀ r ∈ map.regions, size % r.alloc.chunksize = 0) :
    (boxmapAddspace map size).isSome = true := by
  have allocates : ∀ {a : ExtAlloc}, size % a.chunksize = 0 →
      ∃ addr alloc, extallocAlloc a size = some (addr, alloc) := by
    intro a whole
    rw [extallocAlloc, if_pos whole]
    dsimp only
    split
    · exact ⟨_, _, rfl⟩
    · exact ⟨_, _, rfl⟩
  rw [boxmapAddspace]
  split
  · rfl
  · rename_i notFull
    suffices some : ∃ addr regions, allocslot size map.regions = some (addr, regions) by
      obtain ⟨addr, regions, result⟩ := some
      rw [result]
      rfl
    rw [BoxMap.isfull] at notFull
    generalize map.regions = regions at whole notFull
    induction regions with
    | nil => exact absurd rfl notFull
    | cons r rest ih =>
        rw [allocslot]
        by_cases full : extallocIsFull r.alloc = true
        · rw [List.all_cons, full, Bool.true_and] at notFull
          obtain ⟨addr, rest', result⟩ := ih (fun s mem => whole s (List.mem_cons_of_mem _ mem)) notFull
          rw [if_pos full, result]
          exact ⟨_, _, rfl⟩
        · obtain ⟨addr, alloc, result⟩ := allocates (whole r List.mem_cons_self)
          rw [if_neg full, result]
          exact ⟨_, _, rfl⟩

/-- What `extalloc_alloc` does. -/
theorem extallocAlloc_cases {a a' : ExtAlloc} (result : extallocAlloc a size = some (addr, a')) :
    (bitvecFindZeroes a.bitvec a.size (size / a.chunksize) = none ∧ addr = 0 ∧ a' = a) ∨
    ∃ idx, bitvecFindZeroes a.bitvec a.size (size / a.chunksize) = some idx ∧
      addr = (a.base + BitVec.ofNat 64 idx) * a.chunksize ∧
      a' = { a with bitvec := bitvecSet a.bitvec idx true (size / a.chunksize).toNat } := by
  rw [extallocAlloc] at result
  split at result
  · cases search : bitvecFindZeroes a.bitvec a.size (size / a.chunksize) with
    | none =>
        simp only [search] at result
        cases result
        exact .inl ⟨rfl, rfl, rfl⟩
    | some idx =>
        simp only [search] at result
        cases result
        exact .inr ⟨idx, rfl, rfl, rfl⟩
  · contradiction

/-- A region serves a call just when the search finds a free run of its own, not at address
zero. -/
theorem AddrRegion.Ok.serves_iff (ok : r.Ok chunk) {chunks : Word} (pos : 0 < chunks.toNat)
    (nonempty : r.alloc.size ≠ 0) :
    r.Serves chunks ↔ ∃ idx, bitvecFindZeroes r.alloc.bitvec r.alloc.size chunks = some idx ∧
      idx + chunks.toNat ≤ r.alloc.size.toNat ∧ r.slot idx ≠ 0 := by
  constructor
  · intro serves
    obtain ⟨room, -, inside, looked, run⟩ := serves.room
    cases search : bitvecFindZeroes r.alloc.bitvec r.alloc.size chunks with
    | none =>
        have nonzero : chunks ≠ 0 := by
          rintro rfl
          exact Nat.lt_irrefl 0 pos
        exact absurd run (bitvecFindZeroes_none nonzero nonempty search looked)
    | some idx =>
        obtain ⟨zero, -, first⟩ := bitvecFindZeroes_some search
        have le : idx ≤ room := by
          by_contra before
          exact first room (by omega) run
        refine ⟨idx, rfl, by omega, ?_⟩
        intro atZero
        have pos := ok.chunk_pos
        rw [slot, ok.chunksize, Nat.mul_eq_zero] at atZero
        have both : r.alloc.base.toNat = 0 ∧ idx = 0 := by omega
        apply serves.nonzero
        · apply BitVec.eq_of_toNat_eq
          rw [ok.base, both.1, Nat.zero_mul]
          rfl
        · rw [← both.2]
          exact zero
  · rintro ⟨idx, search, inside, nonzero⟩
    obtain ⟨run, looked, first⟩ := bitvecFindZeroes_some search
    constructor
    · exact ⟨idx, by omega, inside, looked, run⟩
    · intro base atStart
      apply nonzero
      have start : idx = 0 := by
        by_contra later
        exact first 0 (Nat.pos_of_ne_zero later) atStart
      rw [start, slot, Nat.add_zero, ok.chunksize, ← ok.base, base]
      rfl

/-- The test of `deleteslot` is whether the address belongs to the region. -/
theorem AddrRegion.Ok.mem_bytes_iff (ok : r.Ok chunk) :
    addr.toNat ∈ r.bytes ↔ addr ≥ r.base ∧ addr < r.base + r.size := by
  have bound := ok.bound
  have stop : (r.base + r.size).toNat = r.base.toNat + r.size.toNat := by
    rw [BitVec.toNat_add, Nat.mod_eq_of_lt (by omega)]
  rw [AddrRegion.bytes, bytesAt, Set.mem_Ico, ge_iff_le, BitVec.le_def, BitVec.lt_def, stop]

/-- A region that does not contain the base of a space stays as it is. -/
theorem AddrRegion.Ok.deleteslot_other (ok : r.Ok chunk) (outside : space.base.toNat ∉ r.bytes) :
    AddrRegion.deleteslot space.base space.size r = some r := by
  rw [ok.mem_bytes_iff] at outside
  rw [AddrRegion.deleteslot, if_neg outside]

/-- A region that has a space clears the bits of its run. -/
theorem AddrRegion.LendsAt.deleteslot (ok : r.Ok chunk) (lends : r.LendsAt space idx n) :
    AddrRegion.deleteslot space.base space.size r = some { r with
      active := r.active - 1
      alloc := { r.alloc with bitvec := bitvecSet r.alloc.bitvec idx false n } } := by
  have inside := lends.bytes_subset ok (lends.base_mem ok)
  have base := lends.base
  have size := lends.size
  have pos := ok.chunk_pos
  rw [slot, ok.chunksize] at base
  rw [ok.chunksize] at size
  have wholeBase : space.base % chunk = 0 := by
    apply BitVec.eq_of_toNat_eq
    rw [BitVec.toNat_umod, base]
    exact Nat.mul_mod_left ..
  have wholeSize : space.size % chunk = 0 := by
    apply BitVec.eq_of_toNat_eq
    rw [BitVec.toNat_umod, size]
    exact Nat.mul_mod_left ..
  have start : (space.base / chunk - r.alloc.base).toNat = idx := by
    have quotient : (space.base / chunk).toNat = r.alloc.base.toNat + idx := by
      rw [BitVec.toNat_udiv, base, Nat.mul_div_cancel _ pos]
    rw [BitVec.toNat_sub_of_le, quotient, Nat.add_sub_cancel_left]
    rw [BitVec.le_def, quotient]
    exact Nat.le_add_right ..
  have length : (space.size / chunk).toNat = n := by
    rw [BitVec.toNat_udiv, size, Nat.mul_div_cancel _ pos]
  rw [AddrRegion.deleteslot, if_pos (ok.mem_bytes_iff.mp inside), extallocFree]
  simp only [ok.chunksize, wholeBase, wholeSize, start, length, and_self, if_true]
  rfl

/-- A region among others. -/
theorem RegionsOk.others (ok : RegionsOk chunk (before ++ r :: rest)) :
    r.Ok chunk ∧ ∀ s ∈ before ++ rest, s.Ok chunk ∧ Disjoint r.bytes s.bytes := by
  constructor
  · exact ok.each r (List.mem_append_right _ List.mem_cons_self)
  · have apart := ok.apart
    rw [List.pairwise_middle fun disjoint => disjoint.symm, List.pairwise_cons] at apart
    intro s mem
    refine ⟨ok.each s ?_, apart.1 s mem⟩
    rcases List.mem_append.mp mem with first | last
    · exact List.mem_append_left _ first
    · exact List.mem_append_right _ (List.mem_cons_of_mem _ last)

/-- Only the region that has a space changes when it is given back. -/
theorem boxmapRmspace_eq (ok : RegionsOk chunk map.regions) (split : map.regions = before ++ r :: rest)
    (lends : r.LendsAt space idx n) :
    boxmapRmspace map space.base space.size = some { map with
      regions := before ++ { r with
        active := r.active - 1
        alloc := { r.alloc with bitvec := bitvecSet r.alloc.bitvec idx false n } } :: rest } := by
  obtain ⟨here, apart⟩ := (split ▸ ok).others
  have inside := lends.bytes_subset here (lends.base_mem here)
  have others : ∀ s ∈ before ++ rest, AddrRegion.deleteslot space.base space.size s = some s := by
    intro s mem
    obtain ⟨okOther, disjoint⟩ := apart s mem
    exact okOther.deleteslot_other fun mem' => Set.disjoint_left.mp disjoint inside mem'
  have unchanged : ∀ regions : List AddrRegion,
      (∀ s ∈ regions, AddrRegion.deleteslot space.base space.size s = some s) →
      regions.mapM (AddrRegion.deleteslot space.base space.size) = some regions := by
    intro regions all
    induction regions with
    | nil => rfl
    | cons first regions ih =>
        rw [List.mapM_cons, all first List.mem_cons_self,
          ih fun s mem => all s (List.mem_cons_of_mem _ mem)]
        rfl
  rw [boxmapRmspace, split, List.mapM_append, List.mapM_cons,
    unchanged before fun s mem => others s (List.mem_append_left _ mem),
    unchanged rest fun s mem => others s (List.mem_append_right _ mem), lends.deleteslot here]
  rfl

end Regions

/-! ## Accounts -/

/-- The live spaces are runs of chunks in use of the regions, apart from each other, and the
counters count them. -/
structure SpaceMap.Accounted (reservedNow : Set Nat) (chunk : Word) (w : SpaceMap) : Prop where
  map : w.map.Ok reservedNow chunk
  lent : ∀ space ∈ w.live, ∃ r ∈ w.map.regions, r.Lends space
  apart : w.live.Pairwise fun space space' => Disjoint space.bytes space'.bytes
  active : boxmapActive w.map = BitVec.ofNat 64 w.live.length

namespace SpaceMap.Accounted

variable {reservedNow : Set Nat} {chunk size addr : Word} {w w' : SpaceMap} {reads : List BitRead}
  {r r' : AddrRegion} {before rest : List AddrRegion} {space : Space} {idx n : Nat}

/-- There are fewer live spaces than addresses. -/
theorem length_lt (accounted : w.Accounted reservedNow chunk) : w.live.length < 2 ^ 64 := by
  have mem : ∀ space ∈ w.live, space.base.toNat ∈ space.bytes := by
    intro space live
    obtain ⟨r, inMap, idx, n, lends⟩ := accounted.lent space live
    exact lends.base_mem (accounted.map.regions.each r inMap)
  have nodup : (w.live.map fun space => space.base.toNat).Nodup := by
    rw [List.Nodup, List.pairwise_map]
    apply accounted.apart.imp_of_mem
    intro space space' live live' disjoint same
    apply Set.disjoint_left.mp disjoint (mem space live)
    rw [same]
    exact mem space' live'
  have low : (w.live.map fun space => space.base.toNat).toFinset ⊆ Finset.range (2 ^ 63) := by
    intro a among
    obtain ⟨space, live, rfl⟩ := List.mem_map.mp (List.mem_toFinset.mp among)
    obtain ⟨r, inMap, idx, n, lends⟩ := accounted.lent space live
    have ok := accounted.map.regions.each r inMap
    have inside := lends.bytes_subset ok (mem space live)
    have bound := ok.bound
    rw [AddrRegion.bytes, bytesAt, Set.mem_Ico] at inside
    rw [Finset.mem_range]
    omega
  have fewer := Finset.card_le_card low
  rw [List.toFinset_card_of_nodup nodup, List.length_map, Finset.card_range] at fewer
  omega

/-- Accounted spaces are kept. -/
theorem kept (accounted : w.Accounted reservedNow chunk) : w.Kept reservedNow chunk where
  inside := by
    intro space live
    obtain ⟨r, inMap, idx, n, lends⟩ := accounted.lent space live
    exact ⟨r, inMap, lends.bytes_subset (accounted.map.regions.each r inMap),
      accounted.map.inside r inMap⟩
  aligned := by
    intro space live
    obtain ⟨r, inMap, idx, n, lends⟩ := accounted.lent space live
    exact lends.aligned (accounted.map.regions.each r inMap)
  apart := accounted.apart
  active := by
    rw [accounted.active, BitVec.toNat_ofNat, Nat.mod_eq_of_lt accounted.length_lt]

/-- A counter that went up without a new space. -/
theorem not_kept (accounted : w.Accounted reservedNow chunk) (live : w'.live = w.live)
    (counted : boxmapActive w'.map = boxmapActive w.map + 1) : ¬w'.Kept reservedNow chunk := by
  intro kept
  have now := kept.active
  rw [counted, live, ← accounted.kept.active, BitVec.toNat_add] at now
  have bound := (boxmapActive w.map).isLt
  have one : (1 : Word).toNat = 1 := rfl
  omega

/-- The spaces that a region does not lend are in the others. -/
theorem lent_cases (accounted : w.Accounted reservedNow chunk)
    (split : w.map.regions = before ++ r :: rest) (live : space ∈ w.live) :
    r.Lends space ∨ ∃ s ∈ before ++ rest, s.Lends space := by
  obtain ⟨s, inMap, lends⟩ := accounted.lent space live
  rw [split, List.mem_append, List.mem_cons] at inMap
  rcases inMap with first | rfl | last
  · exact .inr ⟨s, List.mem_append_left _ first, lends⟩
  · exact .inl lends
  · exact .inr ⟨s, List.mem_append_right _ last, lends⟩

theorem mem_others {s : AddrRegion} (mem : s ∈ before ++ rest) : s ∈ before ++ r' :: rest := by
  rcases List.mem_append.mp mem with first | last
  · exact List.mem_append_left _ first
  · exact List.mem_append_right _ (List.mem_cons_of_mem _ last)

/-- A free run inside the region becomes a live space. -/
theorem serve (accounted : w.Accounted reservedNow chunk)
    (split : w.map.regions = before ++ r :: rest) {map : BoxMap} (pos : 0 < n)
    (chunksize : map.chunksize = w.map.chunksize)
    (regions : map.regions = before ++ { r with
      active := r.active + 1
      alloc := { r.alloc with bitvec := bitvecSet r.alloc.bitvec idx true n } } :: rest)
    (free : ZeroRun r.alloc.bitvec idx n) (fits : idx + n ≤ r.alloc.size.toNat)
    (base : space.base.toNat = r.slot idx) (length : space.size.toNat = n * chunk.toNat) :
    SpaceMap.Accounted reservedNow chunk ⟨map, space :: w.live⟩ := by
  obtain ⟨ok, others⟩ := (split ▸ accounted.map.regions).others
  generalize changed : { r with
      active := r.active + 1
      alloc := { r.alloc with bitvec := bitvecSet r.alloc.bitvec idx true n } } = r' at regions
  have same : r.Same r' := by
    rw [← changed]
    exact ⟨rfl, rfl, rfl, rfl, rfl⟩
  have bits : ∀ j, bit r'.alloc.bitvec j = 1 ↔
      if idx ≤ j ∧ j < idx + n then true = true else bit r.alloc.bitvec j = 1 := by
    intro j
    rw [← changed]
    exact bit_bitvecSet
  have new : r'.LendsAt space idx n := by
    refine ⟨pos, same.allocSize ▸ fits, ?_, ?_, ?_⟩
    · rw [same.slot, base]
    · rw [same.chunksize, ok.chunksize, length]
    · intro j inside
      rw [bits, if_pos (by omega)]
  constructor
  · apply accounted.map.same chunksize
    rw [split, regions]
    exact same_of_replace same
  · intro old live
    rw [regions]
    rcases List.mem_cons.mp live with rfl | live
    · exact ⟨r', List.mem_append_right _ List.mem_cons_self, idx, n, new⟩
    · rcases accounted.lent_cases split live with ⟨idx', n', lends⟩ | ⟨s, mem, lends⟩
      · refine ⟨r', List.mem_append_right _ List.mem_cons_self, idx', n', lends.congr same ?_⟩
        intro j _ used
        rw [bits]
        split
        · rfl
        · exact used
      · exact ⟨s, mem_others mem, lends⟩
  · rw [List.pairwise_cons]
    refine ⟨?_, accounted.apart⟩
    intro old live
    rcases accounted.lent_cases split live with ⟨idx', n', lends⟩ | ⟨s, mem, idx', n', lends⟩
    · apply Disjoint.symm
      apply AddrRegion.LendsAt.disjoint same lends new
      by_contra both
      -- A chunk of both would be in use and free.
      have pos' := lends.pos
      have used := lends.used (max idx idx' - idx') (by omega)
      have zero := free (max idx idx' - idx) (by omega)
      rw [show idx' + (max idx idx' - idx') = max idx idx' by omega] at used
      rw [show idx + (max idx idx' - idx) = max idx idx' by omega] at zero
      exact bit_eq_zero_iff.mp zero used
    · obtain ⟨okOther, apart⟩ := others s mem
      have inRegion := new.bytes_subset (same.ok ok)
      rw [same.bytes] at inRegion
      exact apart.mono inRegion (lends.bytes_subset okOther)
  · have counted : r'.active = r.active + 1 := by rw [← changed]
    rw [active_of_replace split regions counted, accounted.active, List.length_cons, BitVec.ofNat_add]
    rfl

/-- A live space that is given back. -/
theorem giveBack (accounted : w.Accounted reservedNow chunk) (live : space ∈ w.live) :
    ∃ map, boxmapRmspace w.map space.base space.size = some map ∧
      SpaceMap.Accounted reservedNow chunk ⟨map, w.live.erase space⟩ := by
  obtain ⟨r, inMap, idx, n, lends⟩ := accounted.lent space live
  obtain ⟨before, rest, split⟩ := List.append_of_mem inMap
  obtain ⟨ok, others⟩ := (split ▸ accounted.map.regions).others
  refine ⟨_, boxmapRmspace_eq accounted.map.regions split lends, ?_⟩
  generalize changed : { r with
      active := r.active - 1
      alloc := { r.alloc with bitvec := bitvecSet r.alloc.bitvec idx false n } } = r'
  have same : r.Same r' := by
    rw [← changed]
    exact ⟨rfl, rfl, rfl, rfl, rfl⟩
  obtain ⟨first, last, -, whole, erased⟩ := List.exists_erase_eq live
  have apart := accounted.apart
  rw [whole, List.pairwise_middle fun disjoint => disjoint.symm, List.pairwise_cons] at apart
  rw [erased]
  constructor
  · refine accounted.map.same rfl ?_
    rw [split]
    exact same_of_replace same
  · intro other among
    have live' : other ∈ w.live := List.mem_of_mem_erase (erased ▸ among)
    rcases accounted.lent_cases split live' with ⟨idx', n', lends'⟩ | ⟨s, mem, lends'⟩
    · refine ⟨r', List.mem_append_right _ List.mem_cons_self, idx', n', lends'.congr same ?_⟩
      intro j inside used
      have distinct := lends.apart ok lends' (apart.1 other among)
      rw [← changed]
      apply bit_bitvecSet.mpr
      rw [if_neg (by omega)]
      exact used
    · exact ⟨s, mem_others mem, lends'⟩
  · exact apart.2
  · have counted : r'.active = r.active + -1 := by
      rw [← changed, ← BitVec.sub_eq_add_neg]
    rw [active_of_replace split rfl counted, accounted.active, whole]
    have length : (first ++ space :: last).length = (first ++ last).length + 1 := by
      rw [List.length_append, List.length_append, List.length_cons, Nat.add_assoc]
    rw [length, BitVec.ofNat_add, BitVec.add_assoc]
    exact BitVec.add_zero _

/-- A size that is accepted is some chunks. -/
theorem chunks_pos (nonzero : size ≠ 0) (whole : size % chunk = 0) :
    size.toNat = (size / chunk).toNat * chunk.toNat ∧ 0 < (size / chunk).toNat := by
  have rem := congrArg BitVec.toNat whole
  rw [BitVec.toNat_umod] at rem
  have length : size.toNat = (size / chunk).toNat * chunk.toNat := by
    rw [BitVec.toNat_udiv]
    exact (Nat.div_mul_cancel (Nat.dvd_of_mod_eq_zero rem)).symm
  refine ⟨length, Nat.pos_of_ne_zero fun zero => nonzero (BitVec.eq_of_toNat_eq ?_)⟩
  rw [length, zero, Nat.zero_mul]
  rfl

/-- `boxmap_addspace` of some chunks keeps the accounts exactly when the first region that is not
full serves it. -/
theorem addspace (accounted : w.Accounted reservedNow chunk) (nonzero : size ≠ 0)
    (whole : size % w.map.chunksize = 0) {map : BoxMap}
    (result : boxmapAddspace w.map size = some (addr, map)) :
    let w' : SpaceMap := ⟨map, if addr = 0 then w.live else ⟨addr, size⟩ :: w.live⟩
    ((w'.Kept reservedNow chunk ∧ ∀ read ∈ w.map.search size, read.Inside) ↔
        (SpaceCall.addspace size).Fits w.map) ∧
      ((SpaceCall.addspace size).Fits w.map → w'.Accounted reservedNow chunk) := by
  dsimp only
  rw [SpaceCall.Fits, BoxMap.search, accounted.map.chunksize]
  rw [accounted.map.chunksize] at whole
  rcases boxmapAddspace_cases result with ⟨none, rfl, rfl⟩ |
      ⟨before, r, rest, alloc, split, found, notFull, allocated, chunksize, regions⟩
  · rw [none, if_pos rfl]
    constructor
    · constructor
      · exact fun _ r mem => absurd mem (Option.not_mem_none r)
      · exact fun _ => ⟨accounted.kept, fun read mem => absurd mem List.not_mem_nil⟩
    · exact fun _ => accounted
  · obtain ⟨ok, -⟩ := (split ▸ accounted.map.regions).others
    obtain ⟨length, pos⟩ := chunks_pos nonzero whole
    obtain ⟨free, inside, -⟩ := extallocIsFull_eq_false notFull
    have nonempty : r.alloc.size ≠ 0 := by
      intro zero
      rw [zero] at inside
      exact Nat.not_lt_zero free inside
    have serves := ok.serves_iff pos nonempty
    have only : (∀ r' ∈ some r, r'.Serves (size / chunk)) ↔ r.Serves (size / chunk) := by
      simp
    have counted : boxmapActive map = boxmapActive w.map + 1 := active_of_replace split regions rfl
    rw [found, only, serves]
    dsimp only
    rw [ok.chunksize]
    have failing : addr = 0 → ¬(SpaceMap.mk map (if addr = 0 then w.live else ⟨addr, size⟩ :: w.live)).Kept
        reservedNow chunk := fun zero => accounted.not_kept (if_pos zero) counted
    rcases extallocAlloc_cases allocated with ⟨search, zero, rfl⟩ | ⟨idx, search, addr_eq, rfl⟩
    · rw [ok.chunksize] at search
      rw [search]
      constructor
      · constructor
        · exact fun both => absurd both.1 (failing zero)
        · rintro ⟨idx, impossible, -⟩
          contradiction
      · rintro ⟨idx, impossible, -⟩
        contradiction
    · rw [ok.chunksize] at search
      have here : (∃ idx', bitvecFindZeroes r.alloc.bitvec r.alloc.size (size / chunk) = some idx' ∧
          idx' + (size / chunk).toNat ≤ r.alloc.size.toNat ∧ r.slot idx' ≠ 0) ↔
          idx + (size / chunk).toNat ≤ r.alloc.size.toNat ∧ r.slot idx ≠ 0 := by
        constructor
        · rintro ⟨idx', search', inside⟩
          cases search.symm.trans search'
          exact inside
        · exact fun inside => ⟨idx, search, inside⟩
      rw [here, search_inside_iff search]
      by_cases fits : idx + (size / chunk).toNat ≤ r.alloc.size.toNat
      · have address : addr.toNat = r.slot idx := by
          rw [addr_eq, ok.chunksize]
          exact ok.toNat_slot (by omega)
        by_cases zero : addr = 0
        · have atZero : r.slot idx = 0 := by
            rw [← address, zero]
            rfl
          constructor
          · constructor
            · exact fun both => absurd both.1 (failing zero)
            · exact fun both => absurd atZero both.2
          · exact fun both => absurd atZero both.2
        · have served : SpaceMap.Accounted reservedNow chunk ⟨map, ⟨addr, size⟩ :: w.live⟩ := by
            have chunks : size / r.alloc.chunksize = size / chunk := by rw [ok.chunksize]
            rw [chunks] at regions
            exact accounted.serve split pos chunksize regions (bitvecFindZeroes_some search).1 fits
              address length
          have elsewhere : r.slot idx ≠ 0 := by
            rw [← address]
            exact fun same => zero (BitVec.eq_of_toNat_eq same)
          rw [if_neg zero]
          constructor
          · constructor
            · exact fun _ => ⟨fits, elsewhere⟩
            · exact fun _ => ⟨served.kept, fits⟩
          · exact fun _ => served
      · constructor
        · constructor
          · exact fun both => absurd both.2 fits
          · exact fun both => absurd both.1 fits
        · exact fun both => absurd both.1 fits

/-- One call keeps the accounts exactly when it fits. -/
theorem step (accounted : w.Accounted reservedNow chunk) {call : SpaceCall}
    (stepped : SpaceMap.step w call = some (w', reads)) :
    ((w'.Kept reservedNow chunk ∧ ∀ read ∈ reads, read.Inside) ↔ call.Fits w.map) ∧
      (call.Fits w.map → w'.Accounted reservedNow chunk) := by
  cases call with
  | addspace size =>
      rw [SpaceMap.step] at stepped
      split at stepped
      · rename_i proper
        simp only [Option.bind_eq_bind, Option.bind_eq_some_iff, Prod.exists] at stepped
        obtain ⟨addr, map, result, pair⟩ := stepped
        cases pair
        exact accounted.addspace proper.1 proper.2 result
      · contradiction
  | rmspace space =>
      rw [SpaceMap.step] at stepped
      split at stepped
      · rename_i live
        obtain ⟨map, result, after⟩ := accounted.giveBack live
        rw [result] at stepped
        cases stepped
        constructor
        · constructor
          · exact fun _ => trivial
          · exact fun _ => ⟨after.kept, fun read mem => absurd mem List.not_mem_nil⟩
        · exact fun _ => after
      · contradiction

/-- No call of such a size or of a live space fails an assertion. -/
theorem step_isSome (accounted : w.Accounted reservedNow chunk) {call : SpaceCall}
    (proper : match call with
      | .addspace size => size ≠ 0 ∧ size % w.map.chunksize = 0
      | .rmspace space => space ∈ w.live) : (SpaceMap.step w call).isSome = true := by
  cases call with
  | addspace size =>
      have whole : ∀ r ∈ w.map.regions, size % r.alloc.chunksize = 0 := by
        intro r mem
        rw [(accounted.map.regions.each r mem).chunksize, ← accounted.map.chunksize]
        exact proper.2
      obtain ⟨⟨addr, map⟩, result⟩ := Option.isSome_iff_exists.mp (boxmapAddspace_isSome whole)
      rw [SpaceMap.step, if_pos proper, result]
      rfl
  | rmspace space =>
      obtain ⟨map, result, -⟩ := accounted.giveBack proper
      rw [SpaceMap.step, if_pos proper, result]
      rfl

end SpaceMap.Accounted

/-! ## All sequences of calls -/

/-- On reserved regions the accounts begin without spaces. -/
theorem BoxMap.Reserved.accounted {host : HostMem} {reserved : host.State → Set Nat} {userTop : Nat}
    {chunk : Word} {map : BoxMap} {s : host.State} (lawful : host.Lawful reserved userTop)
    (pos : 0 < chunk.toNat) (made : BoxMap.Reserved host chunk map s) :
    SpaceMap.Accounted (reserved s) chunk ⟨map, []⟩ := by
  obtain ⟨ok, inactive⟩ := made.ok lawful pos
  constructor
  · exact ok
  · exact fun space live => absurd live List.not_mem_nil
  · exact .nil
  · rw [boxmapActive]
    change _ = (0 : Word)
    clear made ok
    generalize map.regions = regions at inactive
    induction regions with
    | nil => rfl
    | cons r rest ih =>
        rw [List.foldl_cons, inactive r List.mem_cons_self]
        exact ih fun q mem => inactive q (List.mem_cons_of_mem _ mem)

/-- For every sequence of calls on reserved regions: after each call the live spaces are apart,
each inside a region, and counted, and its search examined no bit behind the chunks of the
region, exactly when each call fits. -/
theorem spaces_kept_iff {host : HostMem} {reserved : host.State → Set Nat} {userTop : Nat}
    {chunk : Word} {map : BoxMap} {s : host.State} (lawful : host.Lawful reserved userTop)
    (pos : 0 < chunk.toNat) (made : BoxMap.Reserved host chunk map s) (calls : List SpaceCall) :
    SpaceMap.Kept (reserved s) chunk ⟨map, []⟩ ∧
    (Throughout SpaceMap.step
        (fun _ _ w reads => w.Kept (reserved s) chunk ∧ ∀ read ∈ reads, read.Inside)
        ⟨map, []⟩ calls ↔
      Throughout SpaceMap.step (fun w call _ _ => call.Fits w.map) ⟨map, []⟩ calls) := by
  have start := made.accounted lawful pos
  constructor
  · exact start.kept
  · refine Throughout.iff (fun w => w.Accounted (reserved s) chunk) ?_ start calls
    intro w call w' reads accounted stepped
    exact accounted.step stepped

/-- Two of four chunks together, the third one, and the two given back. -/
theorem spaces_kept_three_calls :
    ∃ (map : BoxMap) (s : Nat) (middle w : SpaceMap) (trace reads : List BitRead),
      boxmapReserve pageHost ⟨[], 0x10000⟩ 0x40000 (fun _ => 0) (16 : Nat) = some (map, s) ∧
      exec SpaceMap.step ⟨map, []⟩ [.addspace 0x20000, .addspace 0x10000] = some (middle, trace) ∧
      SpaceMap.step middle (.rmspace ⟨0x10000, 0x20000⟩) = some (w, reads) ∧
      w.live = [⟨0x30000, 0x10000⟩] ∧ w.Kept (Set.Ico 0 (4096 * s)) 0x10000 := by
  have seen : ((boxmapReserve pageHost ⟨[], 0x10000⟩ 0x40000 (fun _ => 0) (16 : Nat)).bind fun made =>
      (exec SpaceMap.step ⟨made.1, []⟩ [.addspace 0x20000, .addspace 0x10000]).bind fun middle =>
      (SpaceMap.step middle.1 (.rmspace ⟨0x10000, 0x20000⟩)).bind fun last =>
      (exec (guarded SpaceMap.step fun w call => call.Fits w.map) ⟨made.1, []⟩
        [.addspace 0x20000, .addspace 0x10000, .rmspace ⟨0x10000, 0x20000⟩]).map fun _ =>
        last.1.live) = some [⟨0x30000, 0x10000⟩] := by
    decide +kernel
  obtain ⟨⟨map, s⟩, made, seen⟩ := Option.bind_eq_some_iff.mp seen
  obtain ⟨⟨middle, trace⟩, executed, seen⟩ := Option.bind_eq_some_iff.mp seen
  obtain ⟨⟨w, reads⟩, stepped, seen⟩ := Option.bind_eq_some_iff.mp seen
  obtain ⟨⟨_, _⟩, fitted, live⟩ := Option.map_eq_some_iff.mp seen
  have kept := (spaces_kept_iff pageHost_lawful (by decide) (BoxMap.Reserved.reserve (.new _) made)
    ([.addspace 0x20000, .addspace 0x10000] ++ [.rmspace ⟨0x10000, 0x20000⟩])).2.mpr
      (throughout_of_exec_guarded fitted)
  exact ⟨map, s, middle, w, trace, reads, made, executed, stepped, live,
    (kept.last executed stepped).1⟩

/-- Of two chunks the first is taken, and two more are asked for: the space that is returned
reaches behind the region. -/
theorem space_leaves_region :
    ¬∀ (host : HostMem) (reserved : host.State → Set Nat) (userTop : Nat) (chunk : Word)
      (map : BoxMap) (s : host.State), host.Lawful reserved userTop → 0 < chunk.toNat →
      BoxMap.Reserved host chunk map s → ∀ calls : List SpaceCall,
      Throughout SpaceMap.step
        (fun _ _ w reads => w.Kept (reserved s) chunk ∧ ∀ read ∈ reads, read.Inside)
        ⟨map, []⟩ calls := by
  intro claim
  have seen : ((boxmapReserve pageHost ⟨[], 0x10000⟩ 0x20000 (fun _ => 0) (16 : Nat)).bind fun made =>
      (exec SpaceMap.step ⟨made.1, []⟩ [.addspace 0x10000]).bind fun middle =>
      (SpaceMap.step middle.1 (.addspace 0x20000)).map fun last =>
        (last.1.live, last.1.map.regions.map fun r => (r.base, r.size))) =
      some ([⟨0x20000, 0x20000⟩, ⟨0x10000, 0x10000⟩], [(0x10000, 0x20000)]) := by
    decide +kernel
  obtain ⟨⟨map, s⟩, made, seen⟩ := Option.bind_eq_some_iff.mp seen
  obtain ⟨⟨middle, trace⟩, executed, seen⟩ := Option.bind_eq_some_iff.mp seen
  obtain ⟨⟨last, reads⟩, stepped, pair⟩ := Option.map_eq_some_iff.mp seen
  simp only [Prod.mk.injEq] at pair
  have all := claim pageHost _ _ 0x10000 map s pageHost_lawful (by decide)
    (BoxMap.Reserved.reserve (.new _) made) ([.addspace 0x10000] ++ [.addspace 0x20000])
  obtain ⟨kept, -⟩ := all.last executed stepped
  obtain ⟨r, mem, inside, -⟩ := kept.inside ⟨0x20000, 0x20000⟩ (by rw [pair.1]; exact List.mem_cons_self)
  have shape : (r.base, r.size) ∈ last.map.regions.map fun r => (r.base, r.size) :=
    List.mem_map_of_mem mem
  rw [pair.2, List.mem_singleton, Prod.mk.injEq] at shape
  have beyond : 0x30000 ∈ r.bytes := inside (by rw [Space.bytes, bytesAt, Set.mem_Ico]; decide)
  rw [AddrRegion.bytes, bytesAt, Set.mem_Ico, shape.1, shape.2] at beyond
  exact absurd beyond.2 (by decide)

end Lps.Core

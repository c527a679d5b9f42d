import Lps.Word
import Mathlib.Data.Set.Lattice
import Mathlib.Order.CompletePartialOrder

/-!
# The box map

The engine reserves address space from the host and hands it out in chunks.  A
region is a chunk-aligned part of one reservation with one bit for each chunk.
The host's `mmap` is a parameter; `none` stands for a call that does not return
the structure asked for, because it fails or because an assertion does.
-/

namespace Lps.Core

/-- `truncp` of the box map. -/
def truncp (addr align : Word) : Word := addr - addr % align

/-- `ceilp` of the box map. -/
def ceilp (addr align : Word) : Word :=
  if addr % align = 0 then addr else addr + (align - addr % align)

/-! ## The host -/

/-- The host's `mmap`, for reservations at an address of its choice and at a
fixed address. -/
structure HostMem where
  State : Type
  mmap : State → Word → Option Word × State
  mmapFixed : State → Word → Word → Bool × State

/-- What the documentation of `mmap` promises: reservations are page-aligned,
lie in the user half of the address space and do not overlap the ones made
before; a mapping at a fixed address is not empty and lies in the user half. -/
structure HostMem.Lawful (host : HostMem) (reserved : host.State → Set Nat) (userTop : Nat) :
    Prop where
  userTop_le : userTop ≤ 2 ^ 63
  mmap_some : ∀ {s s' : host.State} {size base : Word},
    host.mmap s size = (some base, s') →
      4096 ∣ base.toNat ∧ base.toNat + size.toNat ≤ userTop ∧
      Disjoint (bytesAt base size.toNat) (reserved s) ∧
      reserved s' = reserved s ∪ bytesAt base size.toNat
  mmap_none : ∀ {s s' : host.State} {size : Word},
    host.mmap s size = (none, s') → reserved s' = reserved s
  mmapFixed : ∀ {s s' : host.State} {addr len : Word} {ok : Bool},
    host.mmapFixed s addr len = (ok, s') →
      reserved s' = reserved s ∧
      (ok = true → 0 < len.toNat ∧ addr.toNat + len.toNat ≤ userTop)

/-! ## Bit vectors -/

/-- The memory from the start of a bit vector on. -/
abbrev BitVector := Nat → Byte

/-- `bit`: the bits are numbered from the top of each byte. -/
def bit (bitvec : BitVector) (i : Nat) : Byte :=
  (bitvec (i / 8) >>> (7 - i % 8)) &&& 1

/-- `bitvec_find_zeroes` from bit `i` on, with `rest` bits to go and `count`
zeroes seen in a row. -/
def findZeroes (bitvec : BitVector) (n : Nat) : Nat → Nat → Nat → Option Nat
  | 0, _, _ => none
  | rest + 1, i, count =>
      if bit bitvec i = 0 then
        if count + 1 = n then some (i + 1 - n)
        else findZeroes bitvec n rest (i + 1) (count + 1)
      else findZeroes bitvec n rest (i + 1) 0

/-- `bitvec_find_zeroes`. -/
def bitvecFindZeroes (bitvec : BitVector) (bitvecSize n : Word) : Option Nat :=
  if n = 0 ∨ bitvecSize = 0 then none
  else findZeroes bitvec n.toNat (bitvecSize * 8).toNat 0 0

/-- One round of the loop of `bitvec_set`. -/
def setBit (bitvec : BitVector) (i : Nat) (val : Bool) : BitVector :=
  Function.update bitvec (i / 8)
    (if val then bitvec (i / 8) ||| ((1 : Byte) <<< (7 - i % 8))
    else bitvec (i / 8) &&& ~~~((1 : Byte) <<< (7 - i % 8)))

/-- `bitvec_set`. -/
def bitvecSet (bitvec : BitVector) (start : Nat) (val : Bool) : Nat → BitVector
  | 0 => bitvec
  | length + 1 => setBit (bitvecSet bitvec start val length) (start + length) val

/-! ## Chunk allocators -/

/-- `struct ExtAlloc`; `base` and `size` count chunks. -/
structure ExtAlloc where
  base : Word
  size : Word
  chunksize : Word
  bitvec : BitVector

/-- `extalloc_new`; `beyond` is the memory behind the allocated bit vector. -/
def extallocNew (base size chunksize : Word) (beyond : BitVector) : Option ExtAlloc :=
  if base % chunksize = 0 ∧ size % chunksize = 0 then
    some {
      base := base / chunksize
      size := size / chunksize
      chunksize := chunksize
      bitvec := fun i => if i < (size / chunksize / 8 + 1).toNat then 0 else beyond i }
  else none

/-- `extalloc_is_full`. -/
def extallocIsFull (a : ExtAlloc) : Bool :=
  (List.range a.size.toNat).all fun i => bit a.bitvec i == 1

/-- `extalloc_alloc`; returns the address, `0` when nothing fits. -/
def extallocAlloc (a : ExtAlloc) (n : Word) : Option (Word × ExtAlloc) :=
  if n % a.chunksize = 0 then
    let n := n / a.chunksize
    match bitvecFindZeroes a.bitvec a.size n with
    | none => some (0, a)
    | some idx =>
        let bitvec := bitvecSet a.bitvec idx true n.toNat
        some ((a.base + BitVec.ofNat 64 idx) * a.chunksize, { a with bitvec := bitvec })
  else none

/-- `extalloc_free`. -/
def extallocFree (a : ExtAlloc) (at_ n : Word) : Option ExtAlloc :=
  if at_ % a.chunksize = 0 ∧ n % a.chunksize = 0 then
    let start := (at_ / a.chunksize - a.base).toNat
    some { a with bitvec := bitvecSet a.bitvec start false (n / a.chunksize).toNat }
  else none

/-! ## Regions -/

/-- `struct AddrRegion`. -/
structure AddrRegion where
  base : Word
  size : Word
  active : Word
  alloc : ExtAlloc

/-- `struct BoxMap`; the first `nregions` entries of its array, in order. -/
structure BoxMap where
  regions : List AddrRegion
  chunksize : Word

def ADDR_REGION_MAX : Nat := 16

/-- `boxmap_active`. -/
def boxmapActive (map : BoxMap) : Word :=
  map.regions.foldl (fun total r => total + r.active) 0

/-- `isfull`. -/
def BoxMap.isfull (map : BoxMap) : Bool :=
  map.regions.all fun r => extallocIsFull r.alloc

/-- `allocslot`: allocate in the first region that is not full. -/
def allocslot (size : Word) : List AddrRegion → Option (Word × List AddrRegion)
  | [] => none
  | r :: rest =>
      if extallocIsFull r.alloc then do
        let (addr, rest) ← allocslot size rest
        some (addr, r :: rest)
      else do
        let (addr, alloc) ← extallocAlloc r.alloc size
        some (addr, { r with active := r.active + 1, alloc := alloc } :: rest)

/-- The body of the loop of `deleteslot`. -/
def AddrRegion.deleteslot (base size : Word) (r : AddrRegion) : Option AddrRegion :=
  if base ≥ r.base ∧ base < r.base + r.size then do
    let alloc ← extallocFree r.alloc base size
    some { r with active := r.active - 1, alloc := alloc }
  else some r

/-- `boxmap_addspace`; returns the address, `0` when an error occurred. -/
def boxmapAddspace (map : BoxMap) (size : Word) : Option (Word × BoxMap) :=
  if map.isfull then some (0, map)
  else do
    let (addr, regions) ← allocslot size map.regions
    some (addr, { map with regions := regions })

/-- `boxmap_rmspace`. -/
def boxmapRmspace (map : BoxMap) (space size : Word) : Option BoxMap := do
  let regions ← map.regions.mapM (AddrRegion.deleteslot space size)
  some { map with regions := regions }

/-! ## Reservation -/

section Reservation

variable (host : HostMem)

/-- `reserve`: halve the size until the host grants it; returns the size and the
base of the reservation. -/
def reserve (size threshold : Word) (s : host.State) : Option (Word × Word) × host.State :=
  match host.mmap s size with
  | (some base, s) => (if size < threshold then none else some (size, base), s)
  | (none, s) =>
      -- With a threshold of `0` the source would go on asking for `0` bytes.
      if _more : size / 2 < threshold ∨ size / 2 = 0 then (none, s)
      else reserve (size / 2) threshold s
termination_by size.toNat
decreasing_by
  have half : (size / 2).toNat = size.toNat / 2 := BitVec.toNat_udiv
  have pos : (size / 2).toNat ≠ 0 := fun zero =>
    _more (.inr (BitVec.eq_of_toNat_eq zero))
  omega

/-- `addregion`. -/
def addregion (map : BoxMap) (base size : Word) (beyond : BitVector) (s : host.State) :
    Option (BoxMap × host.State) :=
  if map.regions.length ≥ ADDR_REGION_MAX then none
  else do
    let alignbase := ceilp base map.chunksize
    let alignsize :=
      truncp (alignbase + (size - (alignbase - base))) map.chunksize - alignbase
    let alloc ← extallocNew alignbase alignsize map.chunksize beyond
    match host.mmapFixed s alignbase alignsize with
    | (false, _) => none
    | (true, s) =>
        let region : AddrRegion := ⟨alignbase, alignsize, 0, alloc⟩
        some ({ map with regions := map.regions ++ [region] }, s)

/-- The loop of `boxmap_reserve`, with the number of rounds left; returns
`totalgot` as well. -/
def boxmapReserveLoop (least wanted : Word) (beyond : BitVector) :
    Nat → Word → Word → Word → BoxMap → host.State → Option (Word × BoxMap × host.State)
  | 0, _, _, totalgot, map, s => some (totalgot, map, s)
  | rounds + 1, total, size, totalgot, map, s =>
      match reserve host size least s with
      | (none, s) => some (totalgot, map, s)
      | (some (got, base), s) =>
          match addregion host map base got beyond s with
          | none => none
          | some (map, s) =>
              if totalgot + got ≥ wanted then some (totalgot + got, map, s)
              else boxmapReserveLoop least wanted beyond rounds (total - got) (total - got)
                (totalgot + got) map s

/-- `gb`. -/
def gb (x : Word) : Word := x * 1024 * 1024 * 1024

/-- `tb`. -/
def tb (x : Word) : Word := x * 1024 * 1024 * 1024 * 1024

/-- `boxmap_reserve`. -/
def boxmapReserve (map : BoxMap) (size : Word) (beyond : BitVector) (s : host.State) :
    Option (BoxMap × host.State) := do
  let total := if size = 0 then tb 256 else size
  let wanted := if size = 0 then tb 255 else size
  let least := if size = 0 then gb 32 else size
  let (totalgot, map, s) ←
    boxmapReserveLoop host least wanted beyond ADDR_REGION_MAX total wanted 0 map s
  if totalgot < wanted then none else some (map, s)

end Reservation

end Lps.Core

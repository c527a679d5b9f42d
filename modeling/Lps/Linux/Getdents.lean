import Lps.Linux.FileOps
import Lps.Linux.StackDecode

/-!
# Directory records

The build compiles the version of `host_getdents64` that reads a directory entry by entry.  Each
record is as long as its name needs, but a whole `struct Dirent` is cleared for it, and a record is
begun as soon as one byte is left.
-/

namespace Lps.Linux

open Lps.Core Lps.Memory

/-- `struct dirent`, as `readdir` returns it. -/
structure DirEntry where
  d_ino : Word
  d_type : Byte
  d_name : CString
  short : d_name.bytes.length ≤ 255

/-- `errno`, which is never negative. -/
structure Errno where
  val : CInt
  nonnegative : val.slt 0 = false

/-- The size of a `struct Dirent`, with its padding. -/
def sizeofDirent : Nat := 280

namespace DirEntry

/-- How much of the name is copied. -/
def len (ent : DirEntry) : Nat :=
  if ent.d_name.bytes.length ≥ 256 then 256 - 1 else ent.d_name.bytes.length

/-- `d_reclen`, an `unsigned short`. -/
def reclen (ent : DirEntry) : BitVec 16 :=
  (ceilp (BitVec.ofNat 64 (8 + 8 + 2 + 1 + ent.len + 1)) 8).setWidth 16

/-- What is stored for an entry, in order: the `memset`, and the fields of a `struct Dirent`. -/
def stores (ent : DirEntry) (written : Nat) : List (Memory.Block Byte) :=
  [⟨written, List.replicate sizeofDirent 0⟩,
    ⟨written, wordBytes ent.d_ino⟩,
    ⟨written + 8, wordBytes (-1)⟩,
    ⟨written + 18, [ent.d_type]⟩,
    ⟨written + 16, littleEndian 2 ent.reclen.toNat⟩,
    ⟨written + 19, ent.d_name.bytes.take ent.len⟩]

end DirEntry

/-- The loop of `host_getdents64`: how much was written, and what was stored. -/
def getdentsLoop (count : Word) : List DirEntry → Word → Word × List (Memory.Block Byte)
  | [], written => (written, [])
  | ent :: dir, written =>
      if written < count then
        let (total, stores) := getdentsLoop count dir (written + ent.reclen.setWidth 64)
        (total, ent.stores written.toNat ++ stores)
      else (written, [])

/-- `host_getdents64`; `none` stands for a directory that cannot be opened.  Addresses count from
`dirp` on. -/
def hostGetdents64 (dir : Option (List DirEntry)) (errno : Errno) (count : Word) :
    Word × List (Memory.Block Byte) :=
  match dir with
  | none => (hostErr errno.val, [])
  | some dir =>
      let (written, stores) := getdentsLoop count dir 0
      if errno.val.slt 0 then (hostErr errno.val, stores) else (written, stores)

/-! ## Walking through the records -/

/-- The inode numbers and names of the records between two addresses, when there are at most `fuel`
and the last one is complete. -/
def walk (mem : Nat → Byte) (stop : Nat) : Nat → Nat → Option (List (Word × List Byte))
  | 0, addr => if addr = stop then some [] else none
  | fuel + 1, addr =>
      if addr = stop then some []
      else
        let reclen := numberAt mem (addr + 16) 2
        if stop < addr + reclen then none
        else do
          let name ← stringAt mem (reclen - 19) (addr + 19)
          let rest ← walk mem stop fuel (addr + reclen)
          some ((wordAt mem addr, name) :: rest)

/-- The records in the first `stop` bytes. -/
def direntsAt (mem : Nat → Byte) (stop : Nat) : Option (List (Word × List Byte)) :=
  walk mem stop stop 0

namespace DirEntry

/-- What a record says. -/
def shown (ent : DirEntry) : Word × List Byte := (ent.d_ino, ent.d_name.bytes)

/-- The bytes of a record. -/
def record (ent : DirEntry) : List Byte :=
  wordBytes ent.d_ino ++ wordBytes (-1) ++ littleEndian 2 ent.reclen.toNat ++ [ent.d_type] ++
    ent.d_name.bytes ++ List.replicate (ent.reclen.toNat - 19 - ent.d_name.bytes.length) 0

variable {ent : DirEntry} {mem : Nat → Byte} {addr : Nat}

theorem len_eq : ent.len = ent.d_name.bytes.length := if_neg (by have := ent.short; omega)

/-- The length of a record. -/
theorem reclen_toNat : ent.reclen.toNat = (ent.d_name.bytes.length + 27) / 8 * 8 := by
  have short := ent.short
  have sum : (BitVec.ofNat 64 (8 + 8 + 2 + 1 + ent.len + 1) + (8 - 1) : Word).toNat =
      ent.d_name.bytes.length + 27 := by
    rw [len_eq]
    bv_omega
  have ceiled : (ceilp (BitVec.ofNat 64 (8 + 8 + 2 + 1 + ent.len + 1)) 8).toNat =
      (ent.d_name.bytes.length + 27) / 8 * 8 := by
    rw [← sum]
    exact @toNat_and_not_mask 3 _ (by decide)
  rw [reclen, BitVec.toNat_setWidth, ceiled]
  omega

theorem length_record : ent.record.length = ent.reclen.toNat := by
  have short := ent.short
  have length := @reclen_toNat ent
  simp only [record, List.length_append, length_wordBytes, length_littleEndian, List.length_replicate,
    List.length_singleton]
  omega

/-- The fields that are set, as they follow each other. -/
def fields (ent : DirEntry) (addr : Nat) : List (Memory.Block Byte) :=
  [⟨addr, wordBytes ent.d_ino⟩, ⟨addr + 8, wordBytes (-1)⟩,
    ⟨addr + 16, littleEndian 2 ent.reclen.toNat⟩, ⟨addr + 18, [ent.d_type]⟩,
    ⟨addr + 19, ent.d_name.bytes.take ent.len⟩]

theorem fields_contiguous : Block.Contiguous addr (ent.fields addr) := by
  simp only [fields, Block.Contiguous, length_wordBytes, length_littleEndian, List.length_singleton,
    Nat.add_assoc, Nat.reduceAdd, and_true]

/-- What is stored for an entry is its record. -/
theorem holds_stores : Holds (Block.storeAll mem (ent.stores addr)) addr ent.record := by
  have short := ent.short
  have length := @reclen_toNat ent
  have whole : ent.d_name.bytes.take ent.len = ent.d_name.bytes := by rw [len_eq, List.take_length]
  have cleared : Block.storeAll mem (ent.stores addr) =
      Block.storeAll (Block.store mem ⟨addr, List.replicate sizeofDirent 0⟩) (ent.stores addr).tail := by
    rw [stores, Block.storeAll, List.foldl_cons, List.tail_cons, Block.storeAll]
  have perm : (ent.stores addr).tail.Perm (ent.fields addr) :=
    .cons _ (.cons _ (.swap _ _ _))
  have values : (ent.fields addr).flatMap Block.data =
      wordBytes ent.d_ino ++ wordBytes (-1) ++ littleEndian 2 ent.reclen.toNat ++ [ent.d_type] ++
        ent.d_name.bytes := by
    simp [fields, whole]
  rw [record, holds_append, cleared]
  constructor
  · rw [← values]
    exact fields_contiguous.holds perm
  · have filled : (wordBytes ent.d_ino ++ wordBytes (-1) ++ littleEndian 2 ent.reclen.toNat ++
        [ent.d_type] ++ ent.d_name.bytes).length = 19 + ent.d_name.bytes.length := by
      simp only [List.length_append, length_wordBytes, length_littleEndian, List.length_singleton]
    rw [filled]
    refine @Block.holds_storeAll _ _ ⟨addr + (19 + ent.d_name.bytes.length),
      List.replicate (ent.reclen.toNat - 19 - ent.d_name.bytes.length) 0⟩ _ ?_ fun other among => ?_
    · intro i inside
      rw [List.length_replicate] at inside
      have zero := @Block.holds_store _ mem ⟨addr, List.replicate sizeofDirent 0⟩
        (19 + ent.d_name.bytes.length + i) (by rw [List.length_replicate, sizeofDirent]; omega)
      dsimp only at zero ⊢
      rw [← Nat.add_assoc] at zero
      rw [zero, List.getElem_replicate, List.getElem_replicate]
    · have before := fields_contiguous.within (perm.mem_iff.mp among)
      rw [values, filled] at before
      apply Set.disjoint_left.mpr
      rintro a ⟨above, -⟩ ⟨-, below⟩
      dsimp only at above
      omega

/-- Where these stores go. -/
theorem stores_within {block : Memory.Block Byte} (among : block ∈ ent.stores addr) :
    addr ≤ block.addr ∧ block.addr + block.data.length ≤ addr + sizeofDirent := by
  have short := ent.short
  have length := @len_eq ent
  simp only [stores, List.mem_cons, List.not_mem_nil, or_false] at among
  rcases among with rfl | rfl | rfl | rfl | rfl | rfl
  · simp only [List.length_replicate, Nat.le_refl, and_self]
  · simp only [length_wordBytes, sizeofDirent]
    omega
  · simp only [length_wordBytes, sizeofDirent]
    omega
  · simp only [List.length_singleton, sizeofDirent]
    omega
  · simp only [length_littleEndian, sizeofDirent]
    omega
  · simp only [List.length_take, sizeofDirent]
    omega

/-- What is read of a record. -/
theorem shown_of_holds (held : Holds mem addr ent.record) :
    numberAt mem (addr + 16) 2 = ent.reclen.toNat ∧
      stringAt mem (ent.reclen.toNat - 19) (addr + 19) = some ent.d_name.bytes ∧
        wordAt mem addr = ent.d_ino := by
  have length := @reclen_toNat ent
  have small : ent.reclen.toNat < 256 ^ 2 := ent.reclen.isLt
  obtain ⟨zeros, more⟩ : ∃ zeros, ent.reclen.toNat - 19 - ent.d_name.bytes.length = zeros + 1 :=
    ⟨_, (Nat.succ_pred_eq_of_pos (by omega)).symm⟩
  rw [record, more, List.replicate_succ, holds_append, holds_append, holds_append, holds_append,
    holds_append] at held
  simp only [List.length_append, length_wordBytes, length_littleEndian, List.length_singleton,
    ← Nat.add_assoc] at held
  obtain ⟨⟨⟨⟨⟨ino, -⟩, size⟩, -⟩, name⟩, padding⟩ := held
  obtain ⟨last, -⟩ := holds_cons.mp padding
  refine ⟨?_, ?_, wordAt_of_holds ino⟩
  · rw [numberAt_of_holds size, Nat.mod_eq_of_lt small]
  · refine stringAt_of_holds ?_ ent.d_name.nonzero (by omega)
    exact holds_append.mpr ⟨name, holds_cons.mpr ⟨last, holds_nil⟩⟩

end DirEntry

/-! ## What the loop stores -/

/-- Where the record of an entry starts, when all before it are written. -/
def recordStart (dir : List DirEntry) (k : Nat) : Nat := ((dir.take k).map (·.reclen.toNat)).sum

/-- A record that is begun before the end of the buffer has room for a `struct Dirent`. -/
def RoomForDirents (dir : List DirEntry) (count : Word) : Prop :=
  ∀ k < dir.length, recordStart dir k < count.toNat → recordStart dir k + sizeofDirent ≤ count.toNat

section Loop

variable {dir : List DirEntry} {ent : DirEntry} {count written : Word} {mem : Nat → Byte} {k : Nat}

theorem recordStart_zero : recordStart dir 0 = 0 := rfl

theorem recordStart_cons :
    recordStart (ent :: dir) (k + 1) = ent.reclen.toNat + recordStart dir k := by
  rw [recordStart, List.take_succ_cons, List.map_cons, List.sum_cons, recordStart]

theorem toNat_next (fits : written.toNat + ent.reclen.toNat < 2 ^ 64) :
    (written + ent.reclen.setWidth 64).toNat = written.toNat + ent.reclen.toNat := by
  have bound := ent.reclen.isLt
  rw [BitVec.toNat_add, BitVec.toNat_setWidth, Nat.mod_eq_of_lt (show ent.reclen.toNat < 2 ^ 64 by omega),
    Nat.mod_eq_of_lt fits]

/-- Every record that starts before the end of the buffer is begun. -/
theorem getdentsLoop_begins (less : k < dir.length)
    (before : written.toNat + recordStart dir k < count.toNat) :
    ⟨written.toNat + recordStart dir k, List.replicate sizeofDirent 0⟩ ∈
      (getdentsLoop count dir written).2 := by
  have bound := count.isLt
  induction dir generalizing written k with
  | nil => exact absurd less (Nat.not_lt_zero k)
  | cons ent dir ih =>
      have goesOn : written < count := by
        rw [BitVec.lt_def]
        omega
      rw [getdentsLoop, if_pos goesOn]
      dsimp only
      apply List.mem_append.mpr
      cases k with
      | zero => exact .inl (.head _)
      | succ k =>
          rw [recordStart_cons, ← Nat.add_assoc] at before ⊢
          have next := @toNat_next ent written (by omega)
          rw [← next] at before ⊢
          exact .inr (ih (Nat.lt_of_succ_lt_succ less) before)

/-- Records were written from an address on, for the first `n` entries. -/
structure Recorded (dir : List DirEntry) (count written total : Word) (stores : List (Memory.Block Byte))
    (n : Nat) : Prop where
  length : total.toNat = written.toNat + ((dir.take n).flatMap DirEntry.record).length
  le : total ≤ count
  within : ∀ block ∈ stores, written.toNat ≤ block.addr ∧
    block.addr + block.data.length ≤ count.toNat
  holds : ∀ mem, Holds (Block.storeAll mem stores) written.toNat ((dir.take n).flatMap DirEntry.record)

theorem Recorded.stops (le : written ≤ count) : Recorded dir count written written [] 0 :=
  ⟨rfl, le, nofun, fun _ => holds_nil⟩

/-- The loop writes records of whole entries when there is room for each that it begins. -/
theorem getdentsLoop_recorded (le : written ≤ count)
    (room : ∀ k < dir.length, written.toNat + recordStart dir k < count.toNat →
      written.toNat + recordStart dir k + sizeofDirent ≤ count.toNat) :
    ∃ n, Recorded dir count written (getdentsLoop count dir written).1
      (getdentsLoop count dir written).2 n := by
  induction dir generalizing written with
  | nil => exact ⟨0, .stops le⟩
  | cons ent dir ih =>
      rw [getdentsLoop]
      split
      · rename_i goesOn
        have begun := room 0 (Nat.zero_lt_succ _) goesOn
        rw [recordStart_zero, Nat.add_zero, sizeofDirent] at begun
        have short := @DirEntry.reclen_toNat ent
        have name := ent.short
        have bound := count.isLt
        have next := @toNat_next ent written (by omega)
        obtain ⟨n, rest⟩ := @ih (written + ent.reclen.setWidth 64) (by bv_omega) (by
          intro k less before
          have whole := room (k + 1) (Nat.succ_lt_succ less)
          rw [recordStart_cons, ← Nat.add_assoc, ← next] at whole
          exact whole before)
        refine ⟨n + 1, ?_, rest.le, ?_, ?_⟩
        · rw [List.take_succ_cons, List.flatMap_cons, List.length_append, DirEntry.length_record,
            rest.length, next, Nat.add_assoc]
        · intro block among
          rcases List.mem_append.mp among with here | later
          · have inside := DirEntry.stores_within here
            rw [sizeofDirent] at inside
            omega
          · have inside := rest.within block later
            omega
        · intro mem
          rw [List.take_succ_cons, List.flatMap_cons, holds_append, DirEntry.length_record, ← next,
            Block.storeAll, List.foldl_append]
          refine ⟨?_, rest.holds _⟩
          refine @Block.holds_storeAll _ _ ⟨written.toNat, ent.record⟩ _ DirEntry.holds_stores
            fun other later => ?_
          have behind := (rest.within other later).1
          apply Set.disjoint_left.mpr
          rintro a ⟨-, below⟩ ⟨above, -⟩
          dsimp only at below
          rw [DirEntry.length_record] at below
          omega
      · exact ⟨0, .stops le⟩

/-- Records that follow each other are walked through. -/
theorem walk_of_holds {addr fuel : Nat} (held : Holds mem addr (dir.flatMap DirEntry.record))
    (enough : dir.length ≤ fuel) :
    walk mem (addr + (dir.flatMap DirEntry.record).length) fuel addr = some (dir.map DirEntry.shown) := by
  induction dir generalizing addr fuel with
  | nil =>
      rw [List.flatMap_nil, List.length_nil, Nat.add_zero]
      cases fuel with
      | zero => exact if_pos rfl
      | succ fuel => exact if_pos rfl
  | cons ent dir ih =>
      obtain ⟨fuel, rfl⟩ := Nat.exists_eq_add_one.mpr (Nat.zero_lt_of_lt enough)
      rw [List.flatMap_cons, holds_append] at held
      obtain ⟨size, name, ino⟩ := DirEntry.shown_of_holds held.1
      have rest := ih held.2 (Nat.le_of_succ_le_succ enough)
      have length := @DirEntry.reclen_toNat ent
      have record := @DirEntry.length_record ent
      rw [List.flatMap_cons, List.length_append, ← Nat.add_assoc, walk, if_neg (by omega), size,
        if_neg (by omega), name, ino, ← record, rest]
      rfl

/-- Every record takes some bytes. -/
theorem length_le_flatMap_record : dir.length ≤ (dir.flatMap DirEntry.record).length := by
  induction dir with
  | nil => exact Nat.le_refl 0
  | cons ent dir ih =>
      have length := @DirEntry.reclen_toNat ent
      rw [List.flatMap_cons, List.length_append, List.length_cons, DirEntry.length_record]
      omega

end Loop

/-- A call stays in its buffer, says how much it wrote, and wrote the records of the first entries. -/
structure DirentsEncoded (dir : List DirEntry) (count : Word) (result : Word × List (Memory.Block Byte)) :
    Prop where
  within : ∀ block ∈ result.2, block.addr + block.data.length ≤ count.toNat
  le : result.1 ≤ count
  walked : ∀ mem, ∃ n, direntsAt (Block.storeAll mem result.2) result.1.toNat =
    some ((dir.take n).map DirEntry.shown)

section Encoded

variable {dir : List DirEntry} {errno : Errno} {count : Word}

theorem hostGetdents64_some : hostGetdents64 (some dir) errno count = getdentsLoop count dir 0 := by
  simp only [hostGetdents64, errno.nonnegative, Bool.false_eq_true, if_false]

/-- A record that is begun is cleared as a whole `struct Dirent`. -/
theorem DirentsEncoded.room (encoded : DirentsEncoded dir count (hostGetdents64 (some dir) errno count)) :
    RoomForDirents dir count := by
  intro k less before
  rw [hostGetdents64_some] at encoded
  have first : (0 : Word).toNat + recordStart dir k = recordStart dir k := Nat.zero_add _
  have begun := @getdentsLoop_begins dir count 0 k less (by rwa [first])
  have inside := encoded.within _ begun
  rwa [first, List.length_replicate] at inside

theorem RoomForDirents.encoded (room : RoomForDirents dir count) :
    DirentsEncoded dir count (hostGetdents64 (some dir) errno count) := by
  have first : ∀ n, (0 : Word).toNat + n = n := Nat.zero_add
  obtain ⟨n, recorded⟩ := @getdentsLoop_recorded dir count 0 (by bv_omega) (by
    intro k less before
    rw [first] at before ⊢
    exact room k less before)
  rw [hostGetdents64_some]
  refine ⟨fun block among => (recorded.within block among).2, recorded.le, fun mem => ⟨n, ?_⟩⟩
  have length := recorded.length
  have walked := walk_of_holds (recorded.holds mem) length_le_flatMap_record
  rw [first] at length walked
  rw [← length] at walked
  exact walked

end Encoded

/-- `host_getdents64` encodes the entries in its buffer exactly when every record that starts before
the end of the buffer has room for a whole `struct Dirent`. -/
theorem hostGetdents64_encodes_iff (dir : List DirEntry) (errno : Errno) (count : Word) :
    DirentsEncoded dir count (hostGetdents64 (some dir) errno count) ↔ RoomForDirents dir count :=
  ⟨DirentsEncoded.room, RoomForDirents.encoded⟩

/-- An entry with a short name. -/
def shortEntry : DirEntry := ⟨7, 8, ⟨[0x62], by decide⟩, by decide⟩

/-- A buffer of 24 bytes, as many as the record of the entry has: 280 are cleared. -/
theorem getdents64_clears_past_buffer :
    ¬∀ (dir : List DirEntry) (errno : Errno) (count : Word),
      DirentsEncoded dir count (hostGetdents64 (some dir) errno count) := by
  intro claim
  have room := (claim [shortEntry] ⟨0, by decide⟩ 24).room
  exact absurd (room 0 (by decide) (by decide)) (by decide)

end Lps.Linux

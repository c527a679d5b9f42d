import Lps.Core.BoxMemSpec
import Lps.Core.MmapPages
import Lps.Program.Play

/-!
# The memory of the host

The host keeps, for every page, what was mapped there last, and for every address a byte.
It may refuse any allocation and any mapping; it always refuses ranges that are not aligned
or have no pages, and what it refuses changes nothing.  A mapping is at first made for the
runtime; it counts as requested once `lps_box_mapat` or `lps_box_mapany` has returned it.
-/

namespace Lps.Core

open Lps.Program Lps.Interval

/-- The last mapping of a page. -/
structure HostPage where
  prot : CInt
  flags : CInt
  fd : Int
  offset : Word
  requested : Bool
  deriving DecidableEq

/-- The host: its choices, which may depend on the calls made before, and the bytes of its
files and of the image that a `memcpy` copies from.  What it has behind the end of a file or of
the image stands for nothing: what is said of their bytes is said of those in front of it. -/
structure Os where
  memory : List HostCall → Bool
  grants : List HostCall → HostCall → Bool
  protects : List HostCall → Int
  file : Int → Nat → Byte
  image : Nat → Byte

/-- The host's memory, and the calls made in the operation that is running. -/
structure OsMem where
  made : List HostCall
  page : Nat → Option HostPage
  byte : Nat → Byte

/-- How many pages the host maps for a length in bytes. -/
def hostPages (len : Word) : Nat := (len.toNat + 4095) % 2 ^ 64 / 4096

/-- The host maps this range when it wants to. -/
def placeable (addr len : Word) : Prop := addr.toNat % 4096 = 0 ∧ hostPages len ≠ 0

/-- The page is one of those the host maps for a range. -/
def InPages (addr len : Word) (page : Nat) : Prop :=
  addr.toNat / 4096 ≤ page ∧ page < addr.toNat / 4096 + hostPages len

instance (addr len : Word) : Decidable (placeable addr len) := inferInstanceAs (Decidable (_ ∧ _))

instance (addr len : Word) (page : Nat) : Decidable (InPages addr len page) :=
  inferInstanceAs (Decidable (_ ∧ _))

namespace OsMem

/-- The call is one of those made. -/
def log (h : OsMem) (c : HostCall) : OsMem := { h with made := h.made ++ [c] }

/-- A range is mapped: the pages are new, and their bytes are zeroes or those of the file. -/
def map (h : OsMem) (os : Os) (addr len : Word) (prot flags : CInt) (fd : Int) (off : Word) :
    OsMem where
  made := h.made
  page q := if InPages addr len q then
      some ⟨prot, flags, fd, off + BitVec.ofNat 64 (4096 * (q - addr.toNat / 4096)), false⟩
    else h.page q
  byte a := if InPages addr len (a / 4096) then
      if flags &&& MAP_ANONYMOUS ≠ 0 then 0 else os.file fd (off.toNat + (a - addr.toNat))
    else h.byte a

/-- The protection of a range changes. -/
def protect (h : OsMem) (addr len : Word) (prot : CInt) : OsMem :=
  { h with page := fun q =>
      if InPages addr len q then (h.page q).map fun page => { page with prot := prot }
      else h.page q }

/-- Bytes are written. -/
def write (h : OsMem) (addr count : Word) (bytes : Nat → Byte) : OsMem :=
  { h with byte := fun a =>
      if addr.toNat ≤ a ∧ a < addr.toNat + count.toNat then bytes (a - addr.toNat) else h.byte a }

/-- A mapping that was requested is returned. -/
def claim (h : OsMem) (addr len : Word) : OsMem :=
  { h with page := fun q =>
      if InPages addr len q then (h.page q).map fun page => { page with requested := true }
      else h.page q }

/-- The page holds a requested mapping. -/
def Requested (h : OsMem) (q : Nat) : Prop := ∃ page ∈ h.page q, page.requested = true

end OsMem

/-- How the host answers. -/
def Os.answer (os : Os) : Handler HostCall HostReply OsMem
  | .malloc, h => (os.memory h.made, h.log .malloc)
  | .mmap addr len prot flags fd off, h =>
      let c := HostCall.mmap addr len prot flags fd off
      if os.grants h.made c = true ∧ placeable addr len then
        (addr, (h.map os addr len prot flags fd off).log c)
      else (-1, h.log c)
  | .mprotect addr len prot, h =>
      let r := os.protects h.made
      (r, (if r = 0 then h.protect addr len prot else h).log (.mprotect addr len prot))
  | .memcpy to_ count offset, h =>
      ((), (h.write to_ count fun i => os.image (offset.toNat + i)).log (.memcpy to_ count offset))
  | .memset to_ count, h => ((), (h.write to_ count fun _ => 0).log (.memset to_ count))

/-- The host maps a range at its address or nowhere; the runtime may go down. -/
def hosted : Contract HostCall HostReply Fault where
  replies
    | .mmap addr len _ _ _ _, reply => reply = -1 ∨ reply = addr ∧ placeable addr len
    | _, _ => True
  calls _ := True
  faults _ := True

variable {os : Os} {h h' : OsMem} {addr len : Word} {q : Nat}

theorem Os.answer_hosted (c : HostCall) (h : OsMem) : hosted.replies c (os.answer c h).1 := by
  cases c with
  | mmap addr len prot flags fd off =>
      simp only [answer]
      split
      · rename_i made
        exact .inr ⟨rfl, made.2⟩
      · exact .inl rfl
  | _ => trivial

/-! ## Pages of ranges -/

theorem hostPages_pageAddr {len : Word} (small : len.toNat < 2 ^ 52) :
    hostPages (len <<< 12) = len.toNat := by
  rw [hostPages, toNat_pageAddr small]
  omega

/-- The host rounds like the tracker. -/
theorem MMAddrSpace.mmceil_hostPages {mm : MMAddrSpace} (paged : mm.p2pagesize = 12) (len : Word) :
    (mm.mmceil len).toNat = hostPages len :=
  mmceil_toNat paged len

/-- The host maps the pages the tracker records. -/
theorem MMAddrSpace.inPages_iff {mm : MMAddrSpace} (paged : mm.p2pagesize = 12) :
    InPages addr len q ↔ InRange (mm.mmtrunc addr) (mm.mmceil len) q := by
  rw [InPages, InRange, mmtrunc_toNat paged, mmceil_hostPages paged]

/-! ## Requested mappings -/

namespace OsMem

@[simp]
theorem log_page (c : HostCall) : (h.log c).page = h.page := rfl

@[simp]
theorem log_byte (c : HostCall) : (h.log c).byte = h.byte := rfl

theorem requested_congr (same : h'.page q = h.page q) : h'.Requested q ↔ h.Requested q := by
  rw [Requested, Requested, same]

@[simp]
theorem log_requested (c : HostCall) : (h.log c).Requested q ↔ h.Requested q := Iff.rfl

/-- A new mapping is not requested yet. -/
theorem map_requested {prot flags : CInt} {fd : Int} {off : Word} :
    (h.map os addr len prot flags fd off).Requested q ↔ ¬InPages addr len q ∧ h.Requested q := by
  by_cases inside : InPages addr len q
  · simp [Requested, map, inside]
  · simp [Requested, map, inside]

theorem protect_requested {prot : CInt} :
    (h.protect addr len prot).Requested q ↔ h.Requested q := by
  by_cases inside : InPages addr len q
  · simp [Requested, protect, inside]
  · simp [Requested, protect, inside]

theorem claim_requested :
    (h.claim addr len).Requested q ↔ h.Requested q ∨ InPages addr len q ∧ (h.page q).isSome := by
  by_cases inside : InPages addr len q
  · cases found : h.page q <;> simp [Requested, claim, inside, found]
  · simp [Requested, claim, inside]

end OsMem

end Lps.Core

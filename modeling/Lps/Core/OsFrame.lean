import Lps.Core.OsMem

/-!
# Pages that a program leaves alone

A call of the host changes the pages it names and no others.  A program whose calls name
no page of a set leaves the mappings and the contents of that set as they were.
-/

namespace Lps.Core

open Lps.Program Lps.Interval

/-- The mapping and the contents of a page are the same in both memories. -/
structure OsMem.Unchanged (h h' : OsMem) (q : Nat) : Prop where
  page : h'.page q = h.page q
  byte : ∀ a, a / 4096 = q → h'.byte a = h.byte a

/-- The call names no byte of the page; a range that the host never maps names none. -/
def HostCall.Spares (q : Nat) : HostCall → Prop
  | .malloc => True
  | .mmap addr len _ _ _ _ => placeable addr len → ¬InPages addr len q
  | .mprotect addr len _ => ¬InPages addr len q
  | .memcpy to_ count _ =>
      ∀ a, a / 4096 = q → ¬(to_.toNat ≤ a ∧ a < to_.toNat + count.toNat)
  | .memset to_ count =>
      ∀ a, a / 4096 = q → ¬(to_.toNat ≤ a ∧ a < to_.toNat + count.toNat)

/-- Whatever the host answers, the pages are spared; the runtime may go down. -/
def sparing (pages : Nat → Prop) : Contract HostCall HostReply Fault where
  replies := fun _ _ => True
  calls := fun c => ∀ q, pages q → c.Spares q
  faults := fun _ => True

variable {os : Os} {h h' h'' : OsMem} {addr len : Word} {q : Nat} {pages : Nat → Prop}

namespace OsMem

theorem Unchanged.refl : h.Unchanged h q := ⟨rfl, fun _ _ => rfl⟩

theorem Unchanged.trans (first : h.Unchanged h' q) (second : h'.Unchanged h'' q) :
    h.Unchanged h'' q :=
  ⟨second.page.trans first.page,
    fun a inPage => (second.byte a inPage).trans (first.byte a inPage)⟩

/-- The log is not part of the memory. -/
theorem Unchanged.log (same : h.Unchanged h' q) (c : HostCall) : h.Unchanged (h'.log c) q :=
  ⟨same.page, same.byte⟩

theorem map_unchanged {prot flags : CInt} {fd : Int} {off : Word} (outside : ¬InPages addr len q) :
    h.Unchanged (h.map os addr len prot flags fd off) q where
  page := if_neg outside
  byte := by
    rintro a rfl
    exact if_neg outside

theorem protect_unchanged {prot : CInt} (outside : ¬InPages addr len q) :
    h.Unchanged (h.protect addr len prot) q :=
  ⟨if_neg outside, fun _ _ => rfl⟩

theorem write_unchanged {bytes : Nat → Byte}
    (outside : ∀ a, a / 4096 = q → ¬(addr.toNat ≤ a ∧ a < addr.toNat + len.toNat)) :
    h.Unchanged (h.write addr len bytes) q :=
  ⟨rfl, fun a inPage => if_neg (outside a inPage)⟩

end OsMem

/-- A call that spares a page leaves it unchanged. -/
theorem Os.answer_unchanged {c : HostCall} (spares : c.Spares q) :
    h.Unchanged (os.answer c h).2 q := by
  cases c with
  | malloc => exact OsMem.Unchanged.refl.log _
  | mmap addr len prot flags fd off =>
      simp only [Os.answer]
      split
      · rename_i made
        exact (OsMem.map_unchanged (spares made.2)).log _
      · exact OsMem.Unchanged.refl.log _
  | mprotect addr len prot =>
      simp only [Os.answer]
      split
      · exact (OsMem.protect_unchanged spares).log _
      · exact OsMem.Unchanged.refl.log _
  | memcpy to_ count offset => exact (OsMem.write_unchanged spares).log _
  | memset to_ count => exact (OsMem.write_unchanged spares).log _

/-- A program that spares a set of pages leaves it unchanged. -/
theorem unchanged_of_sparing {α : Type} {prog : HostProg α} {post : α → Prop} {value : α}
    (meets : prog.Meets (sparing pages) post) (returns : prog.Returns os.answer h value h') :
    ∀ q, pages q → h.Unchanged h' q := by
  refine meets.frame (fun h h' => ∀ q, pages q → OsMem.Unchanged h h' q) ?_ ?_ ?_
    (fun _ _ => trivial) returns
  · exact fun h q _ => .refl
  · exact fun first second q mem => (first q mem).trans (second q mem)
  · exact fun c h spares q mem => os.answer_unchanged (spares q mem)

/-! ## Memories that agree on some pages -/

/-- In the same operation, with the same mapping and contents of these pages. -/
structure OsMem.Alike (pages : Nat → Prop) (h h' : OsMem) : Prop where
  made : h'.made = h.made
  same : ∀ q, pages q → h.Unchanged h' q

namespace OsMem

theorem Alike.log (alike : h.Alike pages h') (c : HostCall) : (h.log c).Alike pages (h'.log c) where
  made := congrArg (fun calls => calls ++ [c]) alike.made
  same := fun q mem => ⟨(alike.same q mem).page, (alike.same q mem).byte⟩

theorem Alike.map {prot flags : CInt} {fd : Int} {off : Word} (alike : h.Alike pages h') :
    (h.map os addr len prot flags fd off).Alike pages (h'.map os addr len prot flags fd off) where
  made := alike.made
  same := by
    intro q mem
    constructor
    · simp only [OsMem.map, (alike.same q mem).page]
    · intro a inPage
      simp only [OsMem.map, (alike.same q mem).byte a inPage]

theorem Alike.protect {prot : CInt} (alike : h.Alike pages h') :
    (h.protect addr len prot).Alike pages (h'.protect addr len prot) where
  made := alike.made
  same := by
    intro q mem
    constructor
    · simp only [OsMem.protect, (alike.same q mem).page]
    · exact (alike.same q mem).byte

theorem Alike.write {bytes : Nat → Byte} (alike : h.Alike pages h') :
    (h.write addr len bytes).Alike pages (h'.write addr len bytes) where
  made := alike.made
  same := by
    intro q mem
    constructor
    · exact (alike.same q mem).page
    · intro a inPage
      simp only [OsMem.write, (alike.same q mem).byte a inPage]

end OsMem

/-- Memories that agree are answered alike, and agree afterwards. -/
theorem Os.answer_alike (c : HostCall) (alike : h.Alike pages h') :
    (os.answer c h').1 = (os.answer c h).1 ∧ (os.answer c h).2.Alike pages (os.answer c h').2 := by
  cases c with
  | malloc => exact ⟨by rw [Os.answer, Os.answer, alike.made], alike.log _⟩
  | mmap addr len prot flags fd off =>
      simp only [Os.answer, alike.made]
      split
      · exact ⟨rfl, alike.map.log _⟩
      · exact ⟨rfl, alike.log _⟩
  | mprotect addr len prot =>
      simp only [Os.answer, alike.made]
      split
      · exact ⟨trivial, alike.protect.log _⟩
      · exact ⟨trivial, alike.log _⟩
  | memcpy to_ count offset => exact ⟨rfl, alike.write.log _⟩
  | memset to_ count => exact ⟨rfl, alike.write.log _⟩

/-! ## Pages of a box -/

/-- The page lies in the box. -/
def LPSBoxInfo.Page (box : LPSBoxInfo) (q : Nat) : Prop := 4096 * q ∈ box.bytes

/-- A box of whole pages has a page as a whole. -/
theorem LPSBox.Paged.page_iff {box : LPSBox} (paged : box.Paged) {a : Nat} :
    box.toLPSBoxInfo.Page (a / 4096) ↔ a ∈ box.bytes := by
  have base_mod := paged.base_mod
  have size_mod := paged.size_mod
  rw [LPSBoxInfo.Page, LPSBoxInfo.bytes, bytesAt, Set.mem_Ico, Set.mem_Ico]
  omega

/-- A call that stays in the box names no page outside. -/
theorem HostCall.spares_of_confined {box : LPSBox} {c : HostCall} {q : Nat} (paged : box.Paged)
    (confined : c.Confined box.toLPSBoxInfo) (outside : ¬box.toLPSBoxInfo.Page q) :
    c.Spares q := by
  have base_mod := paged.base_mod
  have size_mod := paged.size_mod
  have fits := paged.fits
  have range : ∀ {addr len : Word}, box.Contains addr len → ¬InPages addr len q := by
    rintro addr len ⟨above, below⟩ ⟨first, last⟩
    apply outside
    rw [hostPages] at last
    rw [LPSBoxInfo.Page, LPSBoxInfo.bytes, bytesAt, Set.mem_Ico]
    omega
  have stored : ∀ {addr len : Word}, box.Contains addr len →
      ∀ a, a / 4096 = q → ¬(addr.toNat ≤ a ∧ a < addr.toNat + len.toNat) := by
    rintro addr len ⟨above, below⟩ a rfl ⟨first, last⟩
    apply outside
    rw [paged.page_iff, LPSBoxInfo.bytes, bytesAt, Set.mem_Ico]
    omega
  cases c with
  | malloc => trivial
  | mmap addr len prot flags fd off => exact fun _ => range confined
  | mprotect addr len prot => exact range confined
  | memcpy to_ count offset => exact stored confined
  | memset to_ count => exact stored confined

/-! ## Operations of a box -/

namespace LPSBox

variable {box : LPSBox} {size : Word} {prot flags : CInt} {fd : Int} {off : Word}

/-- The callback spares what its range does not name. -/
theorem cbunmap_sparing :
    Handles (sparing pages) cbunmap fun page len =>
      page.toNat + len.toNat < 2 ^ 52 ∧ ∀ q, pages q → ¬InRange page len q := by
  rintro page len info ⟨small, outside⟩
  have range : ∀ q, InPages (page <<< 12) (len <<< 12) q ↔ InRange page len q := by
    intro q
    have pageAddr : (page <<< 12).toNat = 4096 * page.toNat := toNat_pageAddr (by omega)
    rw [InPages, InRange, hostPages_pageAddr (by omega), pageAddr]
    omega
  rw [cbunmap, Prog.meets_bind]
  refine ⟨fun q mem _ => (range q).not.mpr (outside q mem), fun reply _ => ?_⟩
  rw [Prog.meets_ret, Prog.meets_check]
  split <;> exact trivial

/-- Unmapping an accepted range calls back inside it. -/
theorem covers_sparing (ok : box.Ok) (accepted : box.accepts addr size = true)
    (outside : ∀ q, pages q → ¬InPages addr size q) :
    Covers (box.mm.mmtrunc addr) (box.mm.mmceil size) box.mm.nodes fun page len =>
      page.toNat + len.toNat < 2 ^ 52 ∧ ∀ q, pages q → ¬InRange page len q := by
  obtain ⟨above, below⟩ := MMAddrSpace.valid_inside ok.tracked accepted
  have space : box.mm.base.toNat + box.mm.len.toNat < 2 ^ 52 := by
    have fits := ok.fits
    rw [ok.mmBase, ok.mmLen]
    omega
  have within : ∀ page len : Word, (box.mm.mmtrunc addr).toNat ≤ page.toNat →
      page.toNat + len.toNat ≤ (box.mm.mmtrunc addr).toNat + (box.mm.mmceil size).toNat →
      page.toNat + len.toNat < 2 ^ 52 ∧ ∀ q, pages q → ¬InRange page len q := by
    intro page len low high
    refine ⟨by omega, fun q mem inside => outside q mem ?_⟩
    rw [MMAddrSpace.inPages_iff ok.tracked.paged]
    exact ⟨low.trans inside.1, inside.2.trans_le high⟩
  have small : (box.mm.mmtrunc addr).toNat + (box.mm.mmceil size).toNat < 2 ^ 64 := by omega
  refine ⟨fun page len low high _ => within page len low high, fun node mem inside => ?_,
    fun node mem _ => within _ _ le_rfl le_rfl⟩
  have nodeBelow : node.base.toNat + node.len.toNat ≤
      box.mm.base.toNat + box.mm.len.toNat := (ok.tracked.ordered.of_mem mem).2.2
  rw [contained_iff (by omega) small] at inside
  exact within _ _ inside.1 inside.2

/-- `lps_box_mapat` spares the pages outside its range. -/
theorem mayMapat_sparing (ok : box.Ok) (outside : ∀ q, pages q → ¬InPages addr size q) :
    box.MayMapat (sparing pages) addr size prot flags fd off where
  mallocs := fun _ _ => trivial
  asserts := fun _ => trivial
  unmaps := fun _ _ _ _ => trivial
  replaces := fun _ accepted => ⟨_, cbunmap_sparing, covers_sparing ok accepted outside⟩
  maps := fun _ _ _ q mem _ => outside q mem
  strays := by
    intro _ _ q _ placed
    exact absurd placed.1 (by decide)

end LPSBox

end Lps.Core

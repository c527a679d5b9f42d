import Lps.Core.BoxMem
import Lps.Core.MmapSearch

/-!
# What the memory operations of a box do to the host

Every operation keeps the box and its tracker in step.  Which ranges reach the
host, and when the runtime goes down, is said for any contract with the host: an
operation needs permission for the calls it can make and tolerance for the
faults it can end in, and nothing more.
-/

namespace Lps.Core

open Lps.Program Lps.Interval

/-- The range of bytes lies in the box, without wrapping around. -/
def LPSBoxInfo.Contains (box : LPSBoxInfo) (addr len : Word) : Prop :=
  box.base.toNat ≤ addr.toNat ∧ addr.toNat + len.toNat ≤ box.base.toNat + box.size.toNat

instance (box : LPSBoxInfo) (addr len : Word) : Decidable (box.Contains addr len) :=
  inferInstanceAs (Decidable (_ ∧ _))

/-- A box with its tracker. -/
structure LPSBox.Ok (box : LPSBox) : Prop where
  fits : box.base.toNat + box.size.toNat < 2 ^ 64
  tracked : box.mm.Tracked
  mmBase : box.mm.base.toNat = box.base.toNat / 4096
  mmLen : box.mm.len.toNat = box.size.toNat / 4096

/-- The other box is in the same place, with a proper tracker. -/
structure LPSBox.Keeps (box box' : LPSBox) : Prop where
  ok : box'.Ok
  info : box'.toLPSBoxInfo = box.toLPSBoxInfo

/-- A new box tracks nothing. -/
theorem LPSBoxInfo.track_ok {box : LPSBoxInfo} (fits : box.base.toNat + box.size.toNat < 2 ^ 64) :
    box.track.Ok := by
  have pages : getpow (4 * 1024) = 12 := by decide
  have base : (box.base >>> getpow (4 * 1024)).toNat = box.base.toNat / 4096 := by
    rw [pages, toNat_page]
  have len : (box.size >>> getpow (4 * 1024)).toNat = box.size.toNat / 4096 := by
    rw [pages, toNat_page]
  refine ⟨fits, ⟨pages, ?_, ?_, ?_⟩, base, len⟩
  · change (box.base >>> getpow (4 * 1024)).toNat + (box.size >>> getpow (4 * 1024)).toNat ≤ _
    omega
  · exact Nat.le_add_right _ _
  · exact fun _ mem => absurd mem (Option.not_mem_none _)

namespace LPSBox

variable {box : LPSBox} {contract : Contract HostCall HostReply Fault}

theorem Ok.keeps (ok : box.Ok) : box.Keeps box := ⟨ok, rfl⟩

theorem Keeps.trans {box' box'' : LPSBox} (first : box.Keeps box') (second : box'.Keeps box'') :
    box.Keeps box'' :=
  ⟨second.ok, second.info.trans first.info⟩

/-- A box whose tracker did some work. -/
theorem Ok.withMM {mm : MMAddrSpace} (ok : box.Ok) (keeps : box.mm.Keeps mm) :
    box.Keeps { box with mm := mm } := by
  refine ⟨⟨ok.fits, keeps.tracked, ?_, ?_⟩, rfl⟩
  · exact (congrArg BitVec.toNat keeps.base).trans ok.mmBase
  · exact (congrArg BitVec.toNat keeps.len).trans ok.mmLen

/-- Mapping a tracked range keeps the box; it returns `-1` or what the host
answered. -/
theorem mapTracked_meets {addr size : Word} {prot flags : CInt} {fd : Int} {off : Word}
    (ok : box.Ok) (mallocs : contract.calls .malloc)
    (maps : contract.calls (.mmap addr size prot (flags ||| MAP_FIXED) fd off)) :
    (box.mapTracked addr size prot flags fd off).Meets contract fun (p, box') =>
      box.Keeps box' ∧
        (p = -1 ∨ contract.replies (.mmap addr size prot (flags ||| MAP_FIXED) fd off) p) := by
  rw [mapTracked, Prog.meets_bind]
  refine ⟨maps, ?_⟩
  intro mem answered
  simp only [Prog.meets_ret]
  split
  · rw [Prog.meets_bind]
    refine (MMAddrSpace.mmUnmap_meets ok.tracked mallocs).mono ?_
    exact fun _ keeps => ⟨ok.withMM keeps, .inl rfl⟩
  · exact ⟨ok.keeps, .inr answered⟩

/-- The tracker accepts the range. -/
def accepts (box : LPSBox) (addr size : Word) : Bool :=
  box.mm.mmvalid (box.mm.mmtrunc addr) (box.mm.mmceil size)

/-- What `lps_box_mapat` needs of the contract. -/
structure MayMapat (contract : Contract HostCall HostReply Fault) (box : LPSBox)
    (addr size : Word) (prot flags : CInt) (fd : Int) (off : Word) : Prop where
  mallocs : contract.calls .malloc
  /-- It goes down for a range that does not pass its assertion. -/
  asserts : box.holds addr size = false → contract.faults .boxMapat
  /-- It goes down for a range without pages, and without memory for the tracker. -/
  unmaps : box.holds addr size = true → box.mm.aligned addr = true →
    box.accepts addr size = true →
    box.mm.mmceil size = 0 ∨ contract.replies .malloc false → contract.faults .mapatUnmap
  /-- It unmaps what it replaces. -/
  replaces : box.holds addr size = true → box.accepts addr size = true →
    ∃ ok, Handles contract cbunmap ok ∧
      Covers (box.mm.mmtrunc addr) (box.mm.mmceil size) box.mm.nodes ok
  /-- It maps the range. -/
  maps : box.holds addr size = true → box.mm.aligned addr = true →
    box.accepts addr size = true →
    contract.calls (.mmap addr size prot (flags ||| MAP_FIXED) fd off)
  /-- It takes the tracker's error code for an address. -/
  strays : box.holds addr size = true → box.accepts addr size = false →
    contract.calls (.mmap (BitVec.ofInt 64 (-MM_EINVAL)) size prot (flags ||| MAP_FIXED) fd off)

/-- A contract that permits everything permits `lps_box_mapat`. -/
theorem mayMapat_all {addr size : Word} {prot flags : CInt} {fd : Int} {off : Word}
    (calls : ∀ c, contract.calls c) (faults : ∀ reason, contract.faults reason) :
    box.MayMapat contract addr size prot flags fd off where
  mallocs := calls _
  asserts := fun _ => faults _
  unmaps := fun _ _ _ _ => faults _
  replaces := fun _ _ => ⟨_, handles_all calls faults cbunmap, covers_all ..⟩
  maps := fun _ _ _ => calls _
  strays := fun _ _ => calls _

/-- A callback that is never called. -/
theorem handles_nothing {ufn : UpdateFn} : Handles contract ufn fun _ _ => False :=
  fun _ _ _ impossible => impossible.elim

theorem lpsBoxMapat_meets {addr size : Word} {prot flags : CInt} {fd : Int} {off : Word}
    (ok : box.Ok) (may : box.MayMapat contract addr size prot flags fd off) :
    (lpsBoxMapat box addr size prot flags fd off).Meets contract fun (p, box') =>
      box.Keeps box' ∧
        (p = -1 ∨ box.holds addr size = true ∧
          (box.accepts addr size = true ∧ box.mm.aligned addr = true ∧ box.mm.mmceil size ≠ 0 ∧
              contract.replies (.mmap addr size prot (flags ||| MAP_FIXED) fd off) p ∨
            box.accepts addr size = false ∧ contract.replies
              (.mmap (BitVec.ofInt 64 (-MM_EINVAL)) size prot (flags ||| MAP_FIXED) fd off) p)) := by
  rw [lpsBoxMapat, Prog.meets_bind, Prog.meets_check]
  split
  · rename_i inBox
    have tracks : (box.mm.mmMapatCb addr size prot flags fd off cbunmap).Meets contract
        fun result => box.mm.Keeps result.2 ∧
          (result.1 = -1 ∨ result.1 = BitVec.ofInt 64 (-MM_EINVAL) ∧ box.accepts addr size = false ∨
            result.1 = addr ∧ box.mm.aligned addr = true ∧ box.accepts addr size = true ∧
              box.mm.mmceil size ≠ 0) := by
      cases accepted : box.accepts addr size with
      | true =>
          obtain ⟨okRange, handles, covers⟩ := may.replaces inBox accepted
          refine (MMAddrSpace.mmMapatCb_meets ok.tracked handles may.mallocs (fun _ => covers)
            (fun aligned _ => may.unmaps inBox aligned accepted)).mono ?_
          rintro ⟨p, mm'⟩ ⟨keeps, result⟩
          refine ⟨keeps, ?_⟩
          rcases result with failed | ⟨-, invalid⟩ | ⟨same, aligned, -, pages⟩
          · exact .inl failed
          · exact absurd (accepted.symm.trans invalid) (by decide)
          · exact .inr (.inr ⟨same, aligned, rfl, pages⟩)
      | false =>
          have invalid : ∀ valid : box.mm.mmvalid (box.mm.mmtrunc addr) (box.mm.mmceil size) = true,
              False := fun valid => absurd (valid.symm.trans accepted) (by decide)
          refine (MMAddrSpace.mmMapatCb_meets ok.tracked handles_nothing may.mallocs
            (fun valid => (invalid valid).elim) (fun _ valid => (invalid valid).elim)).mono ?_
          rintro ⟨p, mm'⟩ ⟨keeps, result⟩
          refine ⟨keeps, ?_⟩
          rcases result with failed | ⟨code, -⟩ | ⟨-, -, valid, -⟩
          · exact .inl failed
          · exact .inr (.inl ⟨code, rfl⟩)
          · exact (invalid valid).elim
    rw [Prog.meets_bind]
    refine tracks.mono ?_
    rintro ⟨p, mm'⟩ ⟨keeps, result⟩
    have kept := ok.withMM keeps
    dsimp only
    split
    · exact ⟨kept, .inl rfl⟩
    · rename_i mapped
      rcases result with failed | ⟨rfl, invalid⟩ | ⟨rfl, aligned, accepted, pages⟩
      · exact absurd failed mapped
      · refine (mapTracked_meets kept.ok may.mallocs (may.strays inBox invalid)).mono ?_
        rintro ⟨mem, box'⟩ ⟨last, answer⟩
        exact ⟨kept.trans last, answer.imp_right fun reply => ⟨inBox, .inr ⟨invalid, reply⟩⟩⟩
      · refine (mapTracked_meets kept.ok may.mallocs (may.maps inBox aligned accepted)).mono ?_
        rintro ⟨mem, box'⟩ ⟨last, answer⟩
        exact ⟨kept.trans last,
          answer.imp_right fun reply => ⟨inBox, .inl ⟨accepted, aligned, pages, reply⟩⟩⟩
  · rename_i outside
    exact may.asserts (Bool.not_eq_true _ ▸ outside)

/-- `lps_box_mapany` maps a range of the tracker's address space, or fails. -/
theorem lpsBoxMapany_meets {size : Word} {prot flags : CInt} {fd : Int} {off : Word} (ok : box.Ok)
    (mallocs : contract.calls .malloc)
    (maps : ∀ page : Word, box.mm.Inside page (box.mm.mmceil size) →
      contract.calls (.mmap (page <<< 12) size prot (flags ||| MAP_FIXED) fd off)) :
    (lpsBoxMapany box size prot flags fd off).Meets contract fun (_, box') => box.Keeps box' := by
  rw [lpsBoxMapany, Prog.meets_bind]
  refine (MMAddrSpace.mmMapany_meets ok.tracked mallocs).mono ?_
  rintro ⟨p, mm'⟩ ⟨keeps, result⟩
  have kept := ok.withMM keeps
  dsimp only
  split
  · exact kept
  · rename_i mapped
    obtain ⟨page, rfl, inside⟩ := result.resolve_left mapped
    refine (mapTracked_meets kept.ok mallocs (maps page inside)).mono ?_
    exact fun _ result => kept.trans result.1

/-- `lps_box_munmap` unmaps what is mapped in the range, or fails. -/
theorem lpsBoxMunmap_meets {addr size : Word} (ok : box.Ok) (mallocs : contract.calls .malloc)
    (replaces : box.holds addr size = true → box.mm.aligned addr = true → size ≠ 0 →
      box.accepts addr size = true →
      ∃ ok, Handles contract cbunmap ok ∧
        Covers (box.mm.mmtrunc addr) (box.mm.mmceil size) box.mm.nodes ok) :
    (lpsBoxMunmap box addr size).Meets contract fun (_, box') => box.Keeps box' := by
  rw [lpsBoxMunmap]
  split
  · rename_i inBox
    rw [Prog.meets_bind]
    have unmaps : (box.mm.mmUnmapCb addr size cbunmap).Meets contract
        fun result => box.mm.Keeps result.2 := by
      by_cases runs : box.mm.aligned addr = true ∧ size ≠ 0 ∧ box.accepts addr size = true
      · obtain ⟨aligned, nonzero, accepted⟩ := runs
        obtain ⟨okRange, handles, covers⟩ := replaces inBox aligned nonzero accepted
        refine (MMAddrSpace.mmUnmapCb_meets ok.tracked handles mallocs
          fun _ _ _ => covers).mono ?_
        exact fun _ result => result.1
      · refine (MMAddrSpace.mmUnmapCb_meets ok.tracked handles_nothing mallocs ?_).mono ?_
        · exact fun aligned nonzero accepted => absurd ⟨aligned, nonzero, accepted⟩ runs
        · exact fun _ result => result.1
    refine unmaps.mono ?_
    exact fun _ keeps => ok.withMM keeps
  · exact ok.keeps

/-- `lps_box_mprotect` asks the host when its assertion holds. -/
theorem lpsBoxMprotect_meets {addr size : Word} {prot : CInt}
    (asserts : box.holds addr size = false → contract.faults .boxMprotect)
    (protects : box.holds addr size = true → contract.calls (.mprotect addr size prot)) :
    (lpsBoxMprotect box addr size prot).Meets contract fun _ => True := by
  rw [lpsBoxMprotect, Prog.meets_bind, Prog.meets_check]
  split
  · rename_i inBox
    exact ⟨protects inBox, fun _ _ => trivial⟩
  · rename_i outside
    exact asserts (Bool.not_eq_true _ ▸ outside)

/-! ## Ranges of a box -/

theorem holds_iff (ok : box.Ok) {addr size : Word} :
    box.holds addr size = true ↔
      box.base.toNat ≤ addr.toNat ∧
        (addr.toNat + size.toNat) % 2 ^ 64 ≤ box.base.toNat + box.size.toNat := by
  have fits := ok.fits
  simp only [holds, Bool.and_eq_true, decide_eq_true_eq, ge_iff_le, BitVec.le_def,
    BitVec.toNat_add]
  rw [Nat.mod_eq_of_lt fits]

/-- A range that passes the test and does not wrap around lies in the box. -/
theorem contains_of_holds (ok : box.Ok) {addr size : Word} (inBox : box.holds addr size = true)
    (noWrap : addr.toNat + size.toNat < 2 ^ 64) : box.Contains addr size := by
  rw [holds_iff ok, Nat.mod_eq_of_lt noWrap] at inBox
  exact inBox

theorem accepts_iff (ok : box.Ok) {addr size : Word} :
    box.accepts addr size = true ↔
      box.base.toNat / 4096 ≤ addr.toNat / 4096 ∧
        addr.toNat / 4096 + (size.toNat + 4095) % 2 ^ 64 / 4096 ≤
          box.base.toNat / 4096 + box.size.toNat / 4096 := by
  have paged := ok.tracked.paged
  rw [accepts, MMAddrSpace.mmvalid_iff ok.tracked (MMAddrSpace.page_small ok.tracked addr)
    (MMAddrSpace.pages_small ok.tracked size), MMAddrSpace.mmtrunc_toNat paged,
    MMAddrSpace.mmceil_toNat paged, ok.mmBase, ok.mmLen]

/-- A box of whole pages. -/
structure Paged (box : LPSBox) : Prop extends box.Ok where
  base_mod : box.base.toNat % 4096 = 0
  size_mod : box.size.toNat % 4096 = 0

/-- In a box of whole pages the tracker accepts the ranges of the box. -/
theorem Paged.accepts (paged : box.Paged) {addr size : Word} (contains : box.Contains addr size)
    (addr_mod : addr.toNat % 4096 = 0) : box.accepts addr size = true := by
  have base_mod := paged.base_mod
  have size_mod := paged.size_mod
  have fits := paged.fits
  obtain ⟨above, below⟩ := contains
  rw [accepts_iff paged.toOk]
  omega

/-- The pages of the tracker are those of the box. -/
theorem Paged.contains (paged : box.Paged) {page len : Word} (inside : box.mm.Inside page len) :
    box.Contains (page <<< 12) (len <<< 12) ∧
      (page <<< 12).toNat = 4096 * page.toNat ∧ (len <<< 12).toNat = 4096 * len.toNat := by
  have base_mod := paged.base_mod
  have size_mod := paged.size_mod
  have fits := paged.fits
  obtain ⟨above, below⟩ := inside
  rw [paged.mmBase] at above below
  rw [paged.mmLen] at below
  have pageAddr : (page <<< 12).toNat = 4096 * page.toNat := toNat_pageAddr (by omega)
  have lenAddr : (len <<< 12).toNat = 4096 * len.toNat := toNat_pageAddr (by omega)
  refine ⟨⟨?_, ?_⟩, pageAddr, lenAddr⟩
  · rw [pageAddr]
    omega
  · rw [pageAddr, lenAddr]
    omega

theorem Paged.keeps {box' : LPSBox} (paged : box.Paged) (keeps : box.Keeps box') : box'.Paged :=
  ⟨keeps.ok, by rw [keeps.info]; exact paged.base_mod, by rw [keeps.info]; exact paged.size_mod⟩

/-- What an accepted range covers, when every callback in it is `ok`. -/
theorem covers_of_accepts (ok : box.Ok) {addr size : Word} (accepted : box.accepts addr size = true)
    {okRange : Word → Word → Prop}
    (inside : ∀ page len : Word, box.mm.Inside page len → 0 < len.toNat → okRange page len)
    (node : ∀ node ∈ box.mm.nodes,
      contained node.base node.len (box.mm.mmtrunc addr) (box.mm.mmceil size) = true →
        box.mm.Inside node.base node.len → okRange node.base node.len)
    (range : ∀ node ∈ box.mm.nodes,
      contained (box.mm.mmtrunc addr) (box.mm.mmceil size) node.base node.len = true →
        box.mm.Inside (box.mm.mmtrunc addr) (box.mm.mmceil size) →
        okRange (box.mm.mmtrunc addr) (box.mm.mmceil size)) :
    Covers (box.mm.mmtrunc addr) (box.mm.mmceil size) box.mm.nodes okRange := by
  have valid := MMAddrSpace.valid_inside ok.tracked accepted
  refine ⟨?_, ?_, ?_⟩
  · intro page len above below pos
    exact inside page len ⟨valid.1.trans above, below.trans valid.2⟩ pos
  · intro item mem within
    obtain ⟨above, -, below⟩ := ok.tracked.ordered.of_mem mem
    exact node item mem within ⟨above, below⟩
  · intro item mem around
    exact range item mem around valid

end LPSBox

/-- An accepted range with pages lies in the box. -/
theorem contains_of_accepts {box : LPSBox} {addr size : Word} (ok : box.Ok) (accepted : box.accepts addr size = true)
    (inBox : box.holds addr size = true) (addr_mod : addr.toNat % 4096 = 0)
    (pages : box.mm.mmceil size ≠ 0) :
    box.Contains addr size ∧ 0 < size.toNat ∧
      addr.toNat + 4096 * ((size.toNat + 4095) / 4096) ≤
        4096 * (box.base.toNat / 4096 + box.size.toNat / 4096) := by
  have some : (size.toNat + 4095) % 2 ^ 64 / 4096 ≠ 0 := by
    rw [← MMAddrSpace.mmceil_toNat ok.tracked.paged]
    exact fun zero => pages (BitVec.eq_of_toNat_eq zero)
  have above := ((LPSBox.holds_iff ok).mp inBox).1
  rw [LPSBox.accepts_iff ok] at accepted
  have length := size.isLt
  refine ⟨⟨above, ?_⟩, ?_, ?_⟩
  · omega
  · omega
  · omega

/-! ## The host's mappings stay in the box -/

/-- The addresses of a call that reaches the host lie in the box. -/
def HostCall.Confined (box : LPSBoxInfo) : HostCall → Prop
  | .malloc => True
  | .mmap addr len _ _ _ _ => box.Contains addr len
  | .mprotect addr len _ => box.Contains addr len
  | .memcpy to_ count _ => box.Contains to_ count
  | .memset to_ count => box.Contains to_ count

/-- Whatever the host answers, only addresses of the box reach it; the runtime
may go down. -/
def confining (box : LPSBoxInfo) : Contract HostCall HostReply Fault where
  replies := fun _ _ => True
  calls := HostCall.Confined box
  faults := fun _ => True

/-- Whatever is called, the runtime does not go down, as long as there is memory
and the host maps what is a whole number of pages of the box. -/
def returning (box : LPSBoxInfo) : Contract HostCall HostReply Fault where
  replies
    | .malloc, reply => reply = true
    | .mmap addr len _ _ _ _, reply =>
        0 < len.toNat → addr.toNat % 4096 = 0 → len.toNat % 4096 = 0 → box.Contains addr len →
          reply = addr
    | .mprotect .., _ => True
    | .memcpy .., _ => True
    | .memset .., _ => True
  calls := fun _ => True
  faults := fun _ => False

namespace LPSBox

variable {box : LPSBox} {addr size : Word} {prot flags : CInt} {fd : Int} {off : Word}

/-- The callback reserves pages of the box. -/
theorem Paged.cbunmap_confining (paged : box.Paged) :
    Handles (confining box.toLPSBoxInfo) cbunmap box.mm.Inside := by
  intro page len info inside
  rw [cbunmap, Prog.meets_bind]
  refine ⟨(paged.contains inside).1, fun reply _ => ?_⟩
  rw [Prog.meets_ret, Prog.meets_check]
  split <;> exact trivial

/-- The callback succeeds on pages of the box. -/
theorem Paged.cbunmap_returning (paged : box.Paged) :
    Handles (returning box.toLPSBoxInfo) cbunmap fun page len =>
      box.mm.Inside page len ∧ 0 < len.toNat := by
  rintro page len info ⟨inside, pos⟩
  obtain ⟨contains, pageAddr, lenAddr⟩ := paged.contains inside
  rw [cbunmap, Prog.meets_bind]
  refine ⟨trivial, fun reply answered => ?_⟩
  have mapped : reply = page <<< 12 := answered (by omega) (by omega) (by omega) contains
  rw [Prog.meets_ret, Prog.meets_check, if_pos (by simpa using mapped)]
  exact trivial

/-- `lps_box_mapat` maps only addresses of the box, when its range does not wrap
around. -/
theorem Paged.mayMapat_confining (paged : box.Paged) (addr_mod : addr.toNat % 4096 = 0)
    (noWrap : box.holds addr size = true → addr.toNat + size.toNat < 2 ^ 64) :
    box.MayMapat (confining box.toLPSBoxInfo) addr size prot flags fd off where
  mallocs := trivial
  asserts := fun _ => trivial
  unmaps := fun _ _ _ _ => trivial
  replaces := by
    intro _ accepted
    refine ⟨_, paged.cbunmap_confining, covers_of_accepts paged.toOk accepted ?_ ?_ ?_⟩
    · exact fun _ _ inside _ => inside
    · exact fun _ _ _ inside => inside
    · exact fun _ _ _ inside => inside
  maps := fun inBox _ _ => contains_of_holds paged.toOk inBox (noWrap inBox)
  strays := by
    intro inBox invalid
    have valid := paged.accepts (contains_of_holds paged.toOk inBox (noWrap inBox)) addr_mod
    exact absurd (valid.symm.trans invalid) (by decide)

end LPSBox

/-- No callback of an unmapping is made for an empty range: no empty node lies in
the range, and an empty range lies on no node. -/
def MMAddrSpace.NoEmptyUpdate (mm : MMAddrSpace) (page len : Word) : Prop :=
  ∀ node ∈ mm.nodes, (contained node.base node.len page len = true → node.len ≠ 0) ∧
    (contained page len node.base node.len = true → len ≠ 0)

instance (mm : MMAddrSpace) (page len : Word) : Decidable (mm.NoEmptyUpdate page len) :=
  inferInstanceAs (Decidable (∀ node ∈ mm.nodes, _))

namespace LPSBox

variable {box : LPSBox} {addr size : Word} {prot flags : CInt} {fd : Int} {off : Word}

/-- Unmapping a range without empty callbacks does not bring the runtime down. -/
theorem Paged.covers_returning (paged : box.Paged) (accepted : box.accepts addr size = true)
    (noEmpty : box.mm.NoEmptyUpdate (box.mm.mmtrunc addr) (box.mm.mmceil size)) :
    Covers (box.mm.mmtrunc addr) (box.mm.mmceil size) box.mm.nodes fun page len =>
      box.mm.Inside page len ∧ 0 < len.toNat := by
  have pos : ∀ {len : Word}, len ≠ 0 → 0 < len.toNat := fun ne =>
    Nat.pos_of_ne_zero fun zero => ne (BitVec.eq_of_toNat_eq zero)
  refine covers_of_accepts paged.toOk accepted ?_ ?_ ?_
  · exact fun _ _ inside more => ⟨inside, more⟩
  · exact fun node mem within inside => ⟨inside, pos ((noEmpty node mem).1 within)⟩
  · exact fun node mem around inside => ⟨inside, pos ((noEmpty node mem).2 around)⟩

/-- `lps_box_mapat` does not bring the runtime down for a range that passes its
assertion, has pages and replaces no empty region. -/
theorem Paged.mayMapat_returning (paged : box.Paged) (inBox : box.holds addr size = true)
    (pages : box.accepts addr size = true → box.mm.mmceil size ≠ 0 ∧
      box.mm.NoEmptyUpdate (box.mm.mmtrunc addr) (box.mm.mmceil size)) :
    box.MayMapat (returning box.toLPSBoxInfo) addr size prot flags fd off where
  mallocs := trivial
  asserts := fun outside => absurd (inBox.symm.trans outside) (by decide)
  unmaps := by
    rintro _ _ accepted (none | noMemory)
    · exact absurd none (pages accepted).1
    · exact absurd noMemory Bool.false_ne_true
  replaces := fun _ accepted =>
    ⟨_, paged.cbunmap_returning, paged.covers_returning accepted (pages accepted).2⟩
  maps := fun _ _ _ => trivial
  strays := fun _ _ => trivial

end LPSBox

end Lps.Core

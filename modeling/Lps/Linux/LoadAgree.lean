import Lps.Linux.LoadImage
import Lps.Linux.LoadTouches

/-!
# When an image is accepted

On a host that maps every range of the box, an image is accepted when it passes the checks that both
load paths make, and those that only one of them makes: from memory all bytes must be in the image,
and from a file a segment that is longer than its bytes must be writable, and the page in which they
end must be one of the file.  Otherwise it is rejected, or it brings the runtime down.
-/

namespace Lps.Linux

open Lps.Core Lps.Program Lps.Transition

variable {p : Elf64Phdr} {buf : Buf} {target target' : ElfTarget} {box : LPSBox} {os : Os} {h h' : OsMem}
  {phdrs : List Elf64Phdr} {s s' : ElfLoop} {count room : Nat} {protects : Int → Prop}
  {data : Nat → Byte}

/-! ## The loop -/

/-- When the loop ends all segments were accepted and loaded, and there was room to record them. -/
theorem elfLoop_loaded (keeps : box.Keeps target.box) (ok : box.Ok) (nonzero : box.base ≠ 0)
    (atBase : s.base = box.base)
    (returns : (elfLoop box.base buf phdrs s target).Returns os.answer h (some s', target') h') :
    (∀ p ∈ loadable phdrs, p.accepted (4 * 1024) = true ∧ p.loads box buf box.base) ∧
      (loadable phdrs ≠ [] → target.seginfo.length + (loadable phdrs).length ≤ ELFSEGMAXN) := by
  induction phdrs generalizing s target h with
  | nil => exact ⟨List.forall_mem_nil _, fun some_ => absurd rfl some_⟩
  | cons p phdrs ih =>
      by_cases skips : p.skipped = true
      · rw [elfLoop, if_pos skips] at returns
        rw [loadable_skipped skips]
        exact ih keeps atBase returns
      rw [elfLoop, if_neg skips] at returns
      rw [loadable_kept skips]
      by_cases accepted : p.accepted (4 * 1024) = true
      · rw [accepted, Bool.not_true, if_neg Bool.false_ne_true, Prog.returns_bind] at returns
        obtain ⟨⟨done, middle⟩, h1, loaded, rest⟩ := returns
        rw [atBase] at loaded
        have result := (Elf64Phdr.load_hosted keeps ok).returns Os.answer_hosted loaded
        dsimp only at rest
        cases done with
        | false =>
            rw [Bool.not_false, if_pos rfl, Prog.returns_pure] at rest
            cases rest.1
        | true =>
            rw [Bool.not_true, if_neg Bool.false_ne_true, atBase, if_neg nonzero] at rest
            obtain ⟨loads, few, recorded⟩ := result.2 rfl
            obtain ⟨others, room⟩ := ih result.1 rfl rest
            refine ⟨List.forall_mem_cons.mpr ⟨⟨accepted, loads⟩, others⟩, fun _ => ?_⟩
            by_cases none : loadable phdrs = []
            · rw [none]
              exact few
            · have more := room none
              rw [List.length_cons]
              omega
      · rw [Bool.eq_false_iff.mpr accepted, Bool.not_false, if_pos rfl, Prog.returns_pure] at returns
        cases returns.1

theorem nextBase_of_nonzero (nonzero : box.base ≠ 0) : p.nextBase box.base = box.base := if_neg nonzero

/-- Segments that are all loaded do not bring the runtime down, and the loop goes on to the end. -/
theorem survives_of_loads (nonzero : box.base ≠ 0)
    (all : ∀ p ∈ loadable phdrs, p.accepted (4 * 1024) = true ∧ p.loads box buf box.base)
    (few : (loadable phdrs).length ≤ room) :
    Survives box buf room box.base phdrs ∧ Finishes box buf room box.base phdrs := by
  induction phdrs generalizing room with
  | nil => exact ⟨⟨by rintro _ ⟨⟩, by rintro _ ⟨⟩, Nat.zero_le _⟩, by rintro _ ⟨⟩, by rintro _ ⟨⟩⟩
  | cons p phdrs ih =>
      by_cases skips : p.skipped = true
      · rw [loadable_skipped skips] at all few
        rw [survives_skipped skips, finishes_skipped skips]
        exact ih all few
      rw [loadable_kept skips] at all few
      rw [List.length_cons] at few
      obtain ⟨⟨accepted, loads⟩, others⟩ := List.forall_mem_cons.mp all
      obtain ⟨survives, finishes⟩ := @ih (room - 1) others (by omega)
      have some_ : room ≠ 0 := by omega
      rw [survives_cons skips accepted, finishes_cons skips some_, nextBase_of_nonzero nonzero]
      exact ⟨⟨loads.1.1, fun _ _ => loads.2.2, fun _ => ⟨some_, survives⟩⟩, accepted, loads, finishes⟩

/-- When all segments are loaded each one is judged for itself, if what was mapped before does not matter. -/
theorem touchable_iff {fit : Elf64Phdr → Prop} {pages : PageMap} (nonzero : box.base ≠ 0)
    (all : ∀ p ∈ loadable phdrs, p.accepted (4 * 1024) = true ∧ p.loads box buf box.base)
    (few : (loadable phdrs).length ≤ room)
    (judged : ∀ p ∈ loadable phdrs, ∀ pages, p.touches buf box.base pages ↔ fit p) :
    Touchable box buf pages (tried box buf room box.base phdrs) ↔ ∀ p ∈ loadable phdrs, fit p := by
  induction phdrs generalizing room pages with
  | nil => exact iff_of_true trivial (List.forall_mem_nil _)
  | cons p phdrs ih =>
      by_cases skips : p.skipped = true
      · rw [loadable_skipped skips] at all few judged ⊢
        rw [tried_skipped skips]
        exact ih all few judged
      rw [loadable_kept skips] at all few judged ⊢
      rw [List.length_cons] at few
      obtain ⟨⟨accepted, loads⟩, others⟩ := List.forall_mem_cons.mp all
      obtain ⟨judgedHere, judgedLater⟩ := List.forall_mem_cons.mp judged
      have some_ : room ≠ 0 := by omega
      rw [tried_accepted skips accepted, if_pos ⟨some_, loads⟩, nextBase_of_nonzero nonzero,
        List.forall_mem_cons]
      have fewer : (loadable phdrs).length ≤ room - 1 := by omega
      exact (imp_iff_right loads.1).trans (and_congr (judgedHere pages) (ih others fewer judgedLater))

/-! ## Memory that is touched -/

/-- From memory all bytes of a segment must be in the image. -/
theorem Elf64Phdr.touches_memory {pages : PageMap} (ok : box.Ok) (proper : p.Proper)
    (taken : p.taken box box.base) (spans : p.Spans) (inMemory : buf.fd = -1)
    (full : buf.readCount p.p_filesz p.p_offset = p.p_filesz) :
    p.touches buf box.base pages ↔ p.p_offset.toNat + p.p_filesz.toNat ≤ buf.size.toNat := by
  obtain ⟨startAt, aligned, stopAt, onPages⟩ := p.place ok proper taken
  have to_ := p.address ok proper taken spans
  have start_le := p.start_le
  have filesz := proper.filesz
  have span : p.p_vaddr.toNat + p.p_memsz.toNat ≤ p.stop.toNat := spans
  have covers : (p.mapped buf box.base pages).Covers (box.base + p.start + (p.p_vaddr - p.start)) p.p_filesz := by
    intro i less
    have inside : InPages (box.base + p.start) (p.span box.base)
        (((box.base + p.start + (p.p_vaddr - p.start)).toNat + i) / 4096) :=
      (onPages _).mpr ((p.onPage_of_lt aligned proper).mpr (by omega))
    rw [mapped, if_pos inMemory, PageMap.map, if_pos inside]
    exact ⟨rfl, rfl⟩
  rw [touches, if_pos inMemory, full, and_iff_left covers]
  constructor
  · rintro (none | inside)
    · have zero : p.p_filesz.toNat = 0 := congrArg BitVec.toNat none
      by_contra outside
      -- Behind the end some bytes would be read.
      have some := @Buf.readCount_pos buf p.p_filesz p.p_offset (by omega)
      rw [full] at some
      omega
    · exact inside
  · exact Or.inr

/-- The page in which the bytes of a segment end, unless they end with it, is one of the file. -/
def Elf64Phdr.endsInFile (p : Elf64Phdr) (size : Word) : Prop :=
  (p.p_vaddr.toNat + p.p_filesz.toNat) % 4096 = 0 ∨
    (truncp p.p_offset p.p_align).toNat +
      4096 * ((p.p_vaddr.toNat + p.p_filesz.toNat - p.start.toNat) / 4096) < size.toNat

instance (p : Elf64Phdr) (size : Word) : Decidable (p.endsInFile size) :=
  inferInstanceAs (Decidable (_ ∨ _))

/-- In a file a segment that is longer than its bytes is cleared from there to the end of the page. -/
theorem Elf64Phdr.touches_file {pages : PageMap} (ok : box.Ok) (proper : p.Proper)
    (taken : p.taken box box.base) (spans : p.Spans) (isFile : buf.fd ≠ -1) (longer : p.p_memsz > p.p_filesz)
    (writable : pflags p.p_flags &&& PROT_WRITE ≠ 0) :
    p.touches buf box.base pages ↔ p.endsInFile buf.size := by
  obtain ⟨startAt, aligned, stopAt, onPages⟩ := p.place ok proper taken
  obtain ⟨bssAt, rest_mod, startRest, restStop⟩ := p.bss ok proper taken spans
  have start_le := p.start_le
  have start_mod := proper.start_mod
  have count : (p.bssRest box.base - p.bssStart box.base).toNat =
      (4096 - (p.bssStart box.base).toNat % 4096) % 4096 :=
    toNat_ceilPage_sub _
  have span : p.p_vaddr.toNat + p.p_memsz.toNat ≤ p.stop.toNat := spans
  have fewer : p.p_filesz.toNat < p.p_memsz.toNat := longer
  -- All bytes that are cleared are in one page.
  have page : ∀ i < (p.bssRest box.base - p.bssStart box.base).toNat,
      p.mapped buf box.base pages (((p.bssStart box.base).toNat + i) / 4096) =
        ⟨true, decide ((truncp p.p_offset p.p_align).toNat +
          4096 * ((p.p_vaddr.toNat + p.p_filesz.toNat - p.start.toNat) / 4096) < buf.size.toNat)⟩ := by
    intro i less
    have inside : InPages (box.base + p.start) (p.span box.base) (((p.bssStart box.base).toNat + i) / 4096) :=
      (onPages _).mpr ((p.onPage_of_lt aligned proper).mpr (by omega))
    have distance : ((p.bssStart box.base).toNat + i) / 4096 - (box.base + p.start).toNat / 4096 =
        (p.p_vaddr.toNat + p.p_filesz.toNat - p.start.toNat) / 4096 := by
      omega
    rw [mapped, if_neg isFile, PageMap.map, if_pos inside, distance, decide_eq_true writable]
    rfl
  rw [touches, if_neg isFile, endsInFile]
  constructor
  · intro fit
    by_cases whole : (p.p_vaddr.toNat + p.p_filesz.toNat) % 4096 = 0
    · exact Or.inl whole
    · have some : 0 < (p.bssRest box.base - p.bssStart box.base).toNat := by omega
      have first := (fit longer writable 0 some).2
      rw [page 0 some] at first
      exact Or.inr (of_decide_eq_true first)
  · rintro (whole | inFile) - - i less
    · omega
    · rw [page i less]
      exact ⟨rfl, decide_eq_true inFile⟩

/-! ## Processes -/

variable {info : LPSBoxInfo} {opts : LPSLinuxOpts} {kfds : Nat → Option Int}

/-- The checks that both load paths make. -/
structure Checked (info : LPSBoxInfo) (brksize : Word) (buf : Buf) : Prop where
  header : buf.headerOk = true
  table : buf.tableOk = true
  segments : ∀ p ∈ loadable buf.phdrs, p.accepted (4 * 1024) = true ∧ p.taken info.track info.base
  few : (loadable buf.phdrs).length ≤ ELFSEGMAXN
  window : info.track.Takes (windowStart info buf) brksize

/-- What is checked of each segment in one of the paths. -/
def ReadsAll (info : LPSBoxInfo) (buf : Buf) : Prop :=
  ∀ p ∈ loadable buf.phdrs, p.reads buf ∧ p.restHolds info.track buf info.base

/-- What the loader does then with an image that passes all checks. -/
theorem procLoad_granted (fits : info.base.toNat + info.size.toNat < 2 ^ 64) (nonzero : info.base ≠ 0)
    (checked : Checked info opts.brksize buf) (reads : ReadsAll info buf) :
    ((lpsProcNew info opts kfds).procLoad buf).Meets (granting info (0 ≤ ·)) fun (done, _) => done = true := by
  have ok : info.track.Ok := LPSBoxInfo.track_ok fits
  have here := @lpsProcNew_at info opts kfds ok
  have none : (0 : Nat) + ELFSEGMAXN = ELFSEGMAXN := Nat.zero_add _
  have all : ∀ p ∈ loadable buf.phdrs, p.accepted (4 * 1024) = true ∧ p.loads info.track buf info.track.base :=
    fun p mem => ⟨(checked.segments p mem).1, (checked.segments p mem).2, reads p mem⟩
  obtain ⟨survives, finishes⟩ := @survives_of_loads buf info.track buf.phdrs ELFSEGMAXN nonzero all checked.few
  rw [LPSProc.procLoad, Prog.meets_bind, elfLoadOne, checked.header, Bool.not_true,
    if_neg Bool.false_ne_true, Prog.meets_bind]
  refine ⟨trivial, ?_⟩
  rintro _ rfl
  rw [Prog.meets_ret, Bool.not_true, if_neg Bool.false_ne_true, checked.table, Bool.not_true,
    if_neg Bool.false_ne_true, Prog.meets_bind]
  have loop := @elfLoop_granted buf (lpsProcNew info opts kfds).toElfTarget info.track (0 ≤ ·) ELFSEGMAXN 0
    buf.phdrs info.base ⟨info.base, 0, 0⟩ here ok none survives
  apply loop.mono
  rintro ⟨loop, target'⟩ ⟨ended, ends⟩
  cases loop with
  | none =>
      have goesOn := ends (fun _ nonneg => nonneg) finishes
      cases goesOn
  | some s' =>
      obtain ⟨-, isLast, count', there⟩ := ended s' rfl
      dsimp only
      rw [Prog.meets_pure]
      dsimp only
      rw [Prog.meets_bind, isLast]
      have takes := (there.keeps.takes_iff ok).mpr checked.window
      have maps := @LPSBox.lpsBoxMapat_granted target'.box (windowStart info buf) opts.brksize PROT_NONE
        (MAP_PRIVATE ||| MAP_ANONYMOUS) (-1) 0 (0 ≤ ·) there.keeps.ok there.sound takes
      rw [there.keeps.info] at maps
      apply maps.mono
      rintro ⟨r, box'⟩ ⟨mapped, -⟩
      have address : r ≠ -1 := mapped ▸ checked.window.ne_neg_one ok
      rw [Prog.meets_pure]
      exact decide_eq_true address

/-- An image is accepted when it passes all checks. -/
theorem accepts_iff (fits : info.base.toNat + info.size.toNat < 2 ^ 64) (nonzero : info.base ≠ 0)
    (grants : os.Grants info (0 ≤ ·)) :
    Accepts ((lpsProcNew info opts kfds).procLoad buf) os h ↔
      Checked info opts.brksize buf ∧ ReadsAll info buf := by
  have ok : info.track.Ok := LPSBoxInfo.track_ok fits
  have here := @lpsProcNew_at info opts kfds ok
  constructor
  · rintro ⟨proc, h', returns⟩
    obtain ⟨headerOk, tableOk, h1, s, target, h2, r, box', looped, succeeded, mapped⟩ :=
      procLoad_accepted returns
    obtain ⟨all, few⟩ := @elfLoop_loaded buf (lpsProcNew info opts kfds).toElfTarget target info.track os h1 h2
      buf.phdrs ⟨info.base, 0, 0⟩ s here.keeps ok nonzero rfl looped
    have layout := (@elfLoop_layout info.base buf buf.phdrs ⟨info.base, 0, 0⟩
      (lpsProcNew info opts kfds).toElfTarget ok (by rintro seg ⟨⟩)).returns MemWorld.answer_refuses looped
    have isLast : s.last = windowStart info buf := (layout.2 s rfl).2.1
    have taken := (LPSBox.lpsBoxMapat_taken layout.1 ok).returns Os.answer_hosted mapped
    have window := (taken.2.2 succeeded).2
    rw [isLast] at window
    refine ⟨⟨headerOk, tableOk, fun p mem => ⟨(all p mem).1, (all p mem).2.1⟩, ?_, window⟩,
      fun p mem => (all p mem).2.2⟩
    by_cases none : loadable buf.phdrs = []
    · rw [none]
      exact Nat.zero_le _
    · have enough := few none
      rwa [here.recorded, Nat.zero_add] at enough
  · rintro ⟨checked, reads⟩
    obtain ⟨⟨done, proc⟩, h', returns, accepted⟩ :=
      (procLoad_granted fits nonzero checked reads).play_returns grants.answer (fun _ => id) h
    obtain rfl : done = true := accepted
    exact ⟨proc, h', returns⟩

/-- A load is accepted, and touches only memory that the loader may touch. -/
structure Admits (load : HostProg (Bool × LPSProc)) (os : Os) (h : OsMem) (buf : Buf) : Prop where
  table : buf.ReadsInside (PHDR_SIZE * buf.ehdr.e_phnum) buf.ehdr.e_phoff
  accepts : Accepts load os h
  touches : (touching buf.size).Accepts .none (load.heard os.answer h)

/-- The table of program headers is in the image. -/
def TableInside (buf : Buf) : Prop :=
  buf.ehdr.e_phoff.toNat + (PHDR_SIZE * buf.ehdr.e_phnum).toNat ≤ buf.size.toNat

/-- A table that is accepted was read within the image when it is there. -/
theorem readsInside_table (tableOk : buf.tableOk = true) :
    buf.ReadsInside (PHDR_SIZE * buf.ehdr.e_phnum) buf.ehdr.e_phoff ↔ TableInside buf := by
  simp only [Buf.tableOk, Bool.and_eq_true, Bool.not_eq_true', decide_eq_true_eq, decide_eq_false_iff_not,
    ge_iff_le, BitVec.not_le] at tableOk
  obtain ⟨⟨before, full⟩, -⟩ := tableOk
  have size := buf.size.isLt
  have inFile : buf.ehdr.e_phoff.toNat < buf.size.toNat := before
  rw [Buf.readsInside_iff before, TableInside]
  constructor
  · intro noWrap
    have bytes := @Buf.readCount_toNat buf (PHDR_SIZE * buf.ehdr.e_phnum) buf.ehdr.e_phoff (Nat.le_of_lt inFile)
    rw [full, Nat.mod_eq_of_lt noWrap] at bytes
    split at bytes <;> omega
  · omega

/-- An image whose segments are each judged for themselves. -/
theorem admits_iff {fit : Elf64Phdr → Prop} (fits : info.base.toNat + info.size.toNat < 2 ^ 64)
    (nonzero : info.base ≠ 0) (grants : os.Grants info (0 ≤ ·))
    (judged : ∀ p ∈ loadable buf.phdrs, p.Proper → p.loads info.track buf info.base →
      ∀ pages, p.touches buf info.base pages ↔ fit p) :
    Admits ((lpsProcNew info opts kfds).procLoad buf) os h buf ↔
      Checked info opts.brksize buf ∧ TableInside buf ∧ ReadsAll info buf ∧ ∀ p ∈ loadable buf.phdrs, fit p := by
  have accepts := @accepts_iff buf os h info opts kfds fits nonzero grants
  -- What is touched is known when the image is accepted.
  have touches : Accepts ((lpsProcNew info opts kfds).procLoad buf) os h →
      ((touching buf.size).Accepts .none (((lpsProcNew info opts kfds).procLoad buf).heard os.answer h) ↔
        ∀ p ∈ loadable buf.phdrs, fit p) := by
    intro accepted
    obtain ⟨checked, reads⟩ := accepts.mp accepted
    obtain ⟨proc, h', returns⟩ := accepted
    have verdict := (@procLoad_judged buf info (0 ≤ ·) opts kfds fits).returns grants.answer returns
    have all : ∀ p ∈ loadable buf.phdrs, p.accepted (4 * 1024) = true ∧ p.loads info.track buf info.track.base :=
      fun p mem => ⟨(checked.segments p mem).1, (checked.segments p mem).2, reads p mem⟩
    have each := @touchable_iff buf info.track buf.phdrs ELFSEGMAXN fit .none nonzero all checked.few
      fun p mem => judged p mem (Elf64Phdr.proper_of_accepted (all p mem).1) (all p mem).2
    rw [← Monitor.verdict_after, ← each]
    exact ⟨fun isSome => verdict.2 (fun _ => id) isSome checked.header checked.table,
      fun touchable => verdict.1 fun _ _ => touchable⟩
  constructor
  · rintro ⟨table, accepted, touched⟩
    obtain ⟨checked, reads⟩ := accepts.mp accepted
    exact ⟨checked, (readsInside_table checked.table).mp table, reads, (touches accepted).mp touched⟩
  · rintro ⟨checked, table, reads, fit⟩
    have accepted := accepts.mpr ⟨checked, reads⟩
    exact ⟨(readsInside_table checked.table).mpr table, accepted, (touches accepted).mpr fit⟩

/-- The image in memory has all bytes of its segments. -/
def Complete (buf : Buf) : Prop :=
  ∀ p ∈ loadable buf.phdrs, p.p_offset.toNat + p.p_filesz.toNat ≤ buf.size.toNat

/-- The segments that are longer than their bytes are writable, and their bytes end in the file. -/
def Clearable (buf : Buf) : Prop :=
  ∀ p ∈ loadable buf.phdrs, p.p_memsz > p.p_filesz → pflags p.p_flags &&& PROT_WRITE ≠ 0 ∧ p.endsInFile buf.size

/-- All that is asked of a segment in memory is that its bytes are there. -/
theorem readsAll_memory (inMemory : buf.fd = -1) (complete : Complete buf) : ReadsAll info buf := by
  intro p mem
  have inside := complete p mem
  have size := buf.size.isLt
  refine ⟨⟨fun isFile => absurd inMemory isFile, fun _ => BitVec.eq_of_toNat_eq ?_⟩,
    fun rest => absurd inMemory rest.1⟩
  rw [Buf.readCount_toNat (by omega), if_neg (by omega)]

/-- Of the segments of a file, that those that are longer are writable: the pages behind are in the box with
them. -/
theorem readsAll_file (fits : info.base.toNat + info.size.toNat < 2 ^ 64) (isFile : buf.fd ≠ -1)
    (spans : ∀ p ∈ loadable buf.phdrs, p.Spans) (checked : Checked info opts.brksize buf) :
    ReadsAll info buf ↔
      ∀ p ∈ loadable buf.phdrs, p.p_memsz > p.p_filesz → pflags p.p_flags &&& PROT_WRITE ≠ 0 := by
  constructor
  · intro reads p mem longer
    exact (reads p mem).1.1 isFile longer
  · intro writable p mem
    refine ⟨⟨fun _ => writable p mem, fun inMemory => absurd inMemory isFile⟩, fun rest => ?_⟩
    have accepted := checked.segments p mem
    exact (p.taken_rest (LPSBoxInfo.track_ok fits) (Elf64Phdr.proper_of_accepted accepted.1) accepted.2
      (spans p mem) rest.2.2).1

theorem admits_memory (fits : info.base.toNat + info.size.toNat < 2 ^ 64) (nonzero : info.base ≠ 0)
    (inMemory : buf.fd = -1) (grants : os.Grants info (0 ≤ ·)) (spans : ∀ p ∈ loadable buf.phdrs, p.Spans) :
    Admits ((lpsProcNew info opts kfds).procLoad buf) os h buf ↔
      Checked info opts.brksize buf ∧ TableInside buf ∧ Complete buf := by
  have ok : info.track.Ok := LPSBoxInfo.track_ok fits
  have judged : ∀ p ∈ loadable buf.phdrs, p.Proper → p.loads info.track buf info.base →
      ∀ pages, p.touches buf info.base pages ↔ p.p_offset.toNat + p.p_filesz.toNat ≤ buf.size.toNat := by
    intro p mem proper loads pages
    exact @Elf64Phdr.touches_memory p buf info.track pages ok proper loads.1 (spans p mem) inMemory
      (loads.2.1.2 inMemory)
  rw [admits_iff fits nonzero grants judged]
  exact and_congr_right fun _ => and_congr_right fun _ =>
    ⟨fun both => both.2, fun complete => ⟨readsAll_memory inMemory complete, complete⟩⟩

theorem admits_file (fits : info.base.toNat + info.size.toNat < 2 ^ 64) (nonzero : info.base ≠ 0)
    (isFile : buf.fd ≠ -1) (grants : os.Grants info (0 ≤ ·)) (spans : ∀ p ∈ loadable buf.phdrs, p.Spans) :
    Admits ((lpsProcNew info opts kfds).procLoad buf) os h buf ↔
      Checked info opts.brksize buf ∧ TableInside buf ∧ Clearable buf := by
  have ok : info.track.Ok := LPSBoxInfo.track_ok fits
  have judged : ∀ p ∈ loadable buf.phdrs, p.Proper → p.loads info.track buf info.base →
      ∀ pages, p.touches buf info.base pages ↔ (p.p_memsz > p.p_filesz → p.endsInFile buf.size) := by
    intro p mem proper loads pages
    by_cases longer : p.p_memsz > p.p_filesz
    · rw [imp_iff_right longer]
      exact @Elf64Phdr.touches_file p buf info.track pages ok proper loads.1 (spans p mem) isFile longer
        (loads.2.1.1 isFile longer)
    · rw [Elf64Phdr.touches, if_neg isFile]
      exact iff_of_true (fun more => absurd more longer) fun more => absurd more longer
  rw [admits_iff fits nonzero grants judged]
  refine and_congr_right fun checked => and_congr_right fun _ => ?_
  rw [readsAll_file fits isFile spans checked]
  constructor
  · rintro ⟨writable, ends⟩ p mem longer
    exact ⟨writable p mem longer, ends p mem longer⟩
  · intro clearable
    exact ⟨fun p mem longer => (clearable p mem longer).1, fun p mem longer => (clearable p mem longer).2⟩

/-- Which images the two load paths accept on a host that maps every range of the box, without touching other
memory, when the segments end by the end of their pages: they make the same checks, and then the one from
memory asks for all bytes of the segments, and the one from a file asks for segments that it can clear. -/
theorem load_paths_accept {fd : Int} {size : Word} (fits : info.base.toNat + info.size.toNat < 2 ^ 64)
    (nonzero : info.base ≠ 0) (isFile : fd ≠ -1) (grants : os.Grants info (0 ≤ ·))
    (spans : ∀ p ∈ loadable (Buf.mk fd data size).phdrs, p.Spans) :
    (Admits ((lpsProcNew info opts kfds).lpsProcLoad data size) os h ⟨-1, data, size⟩ ↔
      Checked info opts.brksize ⟨-1, data, size⟩ ∧ TableInside ⟨-1, data, size⟩ ∧ Complete ⟨-1, data, size⟩) ∧
    (Admits ((lpsProcNew info opts kfds).lpsProcLoadFd fd (some (data, size))) os h ⟨fd, data, size⟩ ↔
      Checked info opts.brksize ⟨-1, data, size⟩ ∧ TableInside ⟨-1, data, size⟩ ∧ Clearable ⟨-1, data, size⟩) := by
  have same : Checked info opts.brksize ⟨fd, data, size⟩ ↔ Checked info opts.brksize ⟨-1, data, size⟩ :=
    ⟨fun checked => ⟨checked.header, checked.table, checked.segments, checked.few, checked.window⟩,
      fun checked => ⟨checked.header, checked.table, checked.segments, checked.few, checked.window⟩⟩
  constructor
  · exact admits_memory fits nonzero rfl grants spans
  · rw [← same]
    exact admits_file fits nonzero isFile grants spans

/-! ## An image that both take -/

theorem checked_small : Checked smallBox smallOpts.brksize (smallBuf (-1)) :=
  ⟨by decide +kernel, by decide +kernel, by decide +kernel, by decide +kernel, by decide +kernel⟩

theorem tableInside_small : TableInside (smallBuf (-1)) := by
  rw [TableInside]
  decide +kernel

theorem complete_small : Complete (smallBuf (-1)) := by
  rw [Complete, loadable_smallBuf]
  decide +kernel

theorem clearable_small : Clearable (smallBuf (-1)) := by
  rw [Clearable, loadable_smallBuf]
  decide +kernel

/-- Both load paths accept the small image. -/
theorem load_paths_accept_small :
    Admits ((lpsProcNew smallBox smallOpts fun _ => none).lpsProcLoad smallImage.data smallImage.size)
        imageOs bareHost (smallBuf (-1)) ∧
      Admits ((lpsProcNew smallBox smallOpts fun _ => none).lpsProcLoadFd 3
        (some (smallImage.data, smallImage.size))) imageOs bareHost (smallBuf 3) := by
  have accept := @load_paths_accept imageOs bareHost smallImage.data smallBox smallOpts (fun _ => none) 3
    smallImage.size (by decide) (by decide) (by decide) (imageOs_grants smallBox) (placed_smallBuf 3).spans
  exact ⟨accept.1.mpr ⟨checked_small, tableInside_small, complete_small⟩,
    accept.2.mpr ⟨checked_small, tableInside_small, clearable_small⟩⟩

end Lps.Linux

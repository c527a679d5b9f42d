import Lps.Linux.ElfImage
import Lps.Linux.ElfServed

/-!
# Loading on a host that serves it

Whether an image brings the runtime down while it is loaded, and whether it is accepted,
depends on its bytes, on the box and on the size of the heap window only.
-/

namespace Lps.Linux

open Lps.Core Lps.Program

variable {p : Elf64Phdr} {buf : Buf} {base : Word} {target target' : ElfTarget} {box : LPSBox}
  {protects : Int → Prop} {room count : Nat} {phdrs : List Elf64Phdr}

/-! ## One segment -/

/-- Recording a segment takes room. -/
theorem ElfTarget.record_survives {seg : ElfSeg} {post : Bool × ElfTarget → Prop}
    (recorded : target.seginfo.length = count)
    (meets : (target.record seg).Meets (granting box.toLPSBoxInfo protects) post) :
    count < ELFSEGMAXN := by
  rw [ElfTarget.record, Prog.meets_bind, Prog.meets_check] at meets
  split at meets
  · rename_i room
    rw [← recorded]
    simpa using room
  · exact meets.elim

/-- Of what the loader does after mapping another range, this happens on some host. -/
theorem ElfTarget.At.mapat_survives {α : Type} {addr size : Word} {prot flags : CInt} {fd : Int}
    {off : Word} {rest : Word × LPSBox → HostProg α} {post : α → Prop} (here : target.At box count)
    (ok : box.Ok) (pages : box.mm.mmceil size ≠ 0)
    (meets : (lpsBoxMapat target.box addr size prot flags fd off >>= rest).Meets
      (granting box.toLPSBoxInfo (0 ≤ ·)) post) :
    box.holds addr size = true ∧ ∃ r box', ({ target with box := box' } : ElfTarget).At box count ∧
      (box.Takes addr size → r = addr) ∧
      (rest (r, box')).Meets (granting box.toLPSBoxInfo (0 ≤ ·)) post := by
  rw [Prog.meets_bind] at meets
  have held : box.holds addr size = true := by
    have survives := LPSBox.lpsBoxMapat_survives here.sound (by rw [here.keeps.info]; exact meets)
    rw [← (@here.keeps.tests _ _ addr size ok).1]
    exact survives.1
  have maps := @ElfTarget.At.mapat target box (0 ≤ ·) addr size prot flags fd off count here ok
    held pages
  obtain ⟨⟨r, box'⟩, goesOn, there, taken, -⟩ := (meets.and maps fun _ _ same => same).exists_value
    (granting_replies ⟨0, Int.le_refl 0⟩) fun _ => id
  exact ⟨held, r, box', there, taken, goesOn⟩

/-- What a segment must be when loading it does not bring the runtime down. -/
theorem Elf64Phdr.load_survives {post : Bool × ElfTarget → Prop} (here : target.At box count)
    (ok : box.Ok) (proper : p.Proper)
    (meets : (p.load buf base target).Meets (granting box.toLPSBoxInfo (0 ≤ ·)) post) :
    box.holds (base + p.start) (p.span base) = true ∧
      (p.taken box base → p.reads buf → p.restHolds box buf base) ∧
      (p.loads box buf base → count < ELFSEGMAXN) := by
  have somePages : box.mm.mmceil (p.span base) ≠ 0 := proper.pages ok.tracked.paged
  have address : p.taken box base → base + p.start ≠ -1 := fun taken => taken.ne_neg_one ok
  rw [load, bufReadElfseg] at meets
  split at meets
  · rename_i isFile
    rw [mapElfseg] at meets
    obtain ⟨held, r, box', here', mapped, goesOn⟩ := here.mapat_survives ok somePages meets
    refine ⟨held, ?_⟩
    suffices both : p.taken box base → p.reads buf →
        p.restHolds box buf base ∧ (p.restHolds box buf base → count < ELFSEGMAXN) from
      ⟨fun taken reads => (both taken reads).1,
        fun loads => (both loads.1 loads.2.1).2 loads.2.2⟩
    intro taken reads
    dsimp only at goesOn
    rw [mapped taken, if_neg (address taken)] at goesOn
    split at goesOn
    · rename_i longer
      rw [if_neg (reads.1 isFile longer), Prog.meets_bind] at goesOn
      have cleared := goesOn.2 ⟨⟩ trivial
      rw [Prog.meets_ret] at cleared
      split at cleared
      · rename_i before
        obtain ⟨restHeld, r', box'', here'', -, records⟩ :=
          here'.mapat_survives ok (proper.restPages ok taken before).2 cleared
        refine ⟨fun _ => restHeld, fun _ => ?_⟩
        exact ElfTarget.record_survives here''.recorded records
      · rename_i whole
        refine ⟨fun needs => absurd needs.2.2 whole, fun _ => ?_⟩
        exact ElfTarget.record_survives here'.recorded cleared
    · rename_i whole
      refine ⟨fun needs => absurd needs.2.1 whole, fun _ => ?_⟩
      exact ElfTarget.record_survives here'.recorded goesOn
  · rename_i notFile
    have inMemory : buf.fd = -1 := not_not.mp notFile
    rw [copyElfseg] at meets
    obtain ⟨held, r, box', here', mapped, goesOn⟩ := here.mapat_survives ok somePages meets
    refine ⟨held, fun _ _ needs => absurd inMemory needs.1, fun loads => ?_⟩
    dsimp only at goesOn
    rw [mapped loads.1, if_neg (address loads.1), Prog.meets_bind] at goesOn
    have copied := goesOn.2 ⟨⟩ trivial
    rw [Prog.meets_ret, if_neg (not_not.mpr (loads.2.1.2 inMemory)), Prog.meets_bind,
      lpsBoxMprotect, Prog.meets_bind, Prog.meets_check] at copied
    split at copied
    · have shielded := copied.2 0 (Int.le_refl 0)
      rw [Prog.meets_ret, if_neg (Int.lt_irrefl 0)] at shielded
      exact ElfTarget.record_survives here'.recorded shielded
    · exact copied.elim

/-! ## The loop -/

/-- The loop goes on to the end when it loads all segments. -/
theorem elfLoop_granted {elfbase : Word} {s : ElfLoop} (here : target.At box count) (ok : box.Ok)
    (left : count + room = ELFSEGMAXN) (survives : Survives box buf room s.base phdrs) :
    (elfLoop elfbase buf phdrs s target).Meets (granting box.toLPSBoxInfo protects)
      fun (loop, target') =>
        (∀ s', loop = some s' → Finishes box buf room s.base phdrs ∧
          s'.last = loadEnd s.base s.last phdrs ∧ ∃ count', target'.At box count') ∧
        ((∀ r, protects r → 0 ≤ r) → Finishes box buf room s.base phdrs → loop.isSome = true) := by
  induction phdrs generalizing s target count room with
  | nil =>
      refine ⟨?_, fun _ _ => rfl⟩
      rintro s' ⟨⟩
      exact ⟨⟨by rintro _ ⟨⟩, by rintro _ ⟨⟩⟩, rfl, count, here⟩
  | cons p phdrs ih =>
      rw [elfLoop]
      split
      · rename_i skips
        rw [finishes_skipped skips, loadEnd, if_pos skips]
        exact ih here left ((survives_skipped skips).mp survives)
      rename_i kept
      split
      · rename_i rejected
        have rejects : p.accepted (4 * 1024) = false := by simpa using rejected
        refine ⟨by rintro _ ⟨⟩, fun _ finishes => ?_⟩
        have accepts := finishes.accepted p List.mem_cons_self kept
        exact absurd (rejects.symm.trans accepts) Bool.false_ne_true
      rename_i accepts
      have accepted : p.accepted (4 * 1024) = true := by simpa using accepts
      obtain ⟨inBox, rest, later⟩ := (survives_cons kept accepted).mp survives
      have loads := @Elf64Phdr.load_granted p buf s.base target box protects count here ok
        (Elf64Phdr.proper_of_accepted accepted) inBox rest fun all => by
          have some := (later all).1
          omega
      rw [Elf64Phdr.load] at loads
      rw [Prog.meets_bind]
      apply loads.mono
      rintro ⟨done, target'⟩ ⟨came, comes⟩
      dsimp only at came comes ⊢
      cases done with
      | false =>
          refine ⟨by rintro _ ⟨⟩, fun nonneg finishes => ?_⟩
          have loaded := finishes.loaded (s.base, p) (by
            rw [tried_accepted kept accepted]
            exact List.mem_cons_self)
          exact absurd (comes nonneg loaded) Bool.false_ne_true
      | true =>
          obtain ⟨all, here'⟩ := came rfl
          obtain ⟨some, survives'⟩ := later all
          rw [Bool.not_true, if_neg Bool.false_ne_true, finishes_cons kept some, loadEnd,
            if_neg kept]
          apply (ih here' (by omega) survives').mono
          rintro ⟨loop, target''⟩ ⟨ended, ends⟩
          refine ⟨fun s' isLoop => ?_, fun nonneg finishes => ends nonneg finishes.2.2⟩
          obtain ⟨finishes, isLast, there⟩ := ended s' isLoop
          exact ⟨⟨accepted, all, finishes⟩, isLast, there⟩

/-- An image whose segments do not bring the runtime down, and what is done with it then. -/
theorem elfLoop_survives {elfbase : Word} {s : ElfLoop} {post : Option ElfLoop × ElfTarget → Prop}
    (here : target.At box count) (ok : box.Ok) (left : count + room = ELFSEGMAXN)
    (meets : (elfLoop elfbase buf phdrs s target).Meets
      (granting box.toLPSBoxInfo (0 ≤ ·)) post) :
    Survives box buf room s.base phdrs := by
  induction phdrs generalizing s target count room with
  | nil => exact ⟨by rintro _ ⟨⟩, by rintro _ ⟨⟩, Nat.zero_le _⟩
  | cons p phdrs ih =>
      rw [elfLoop] at meets
      split at meets
      · rename_i skips
        rw [survives_skipped skips]
        exact ih here left meets
      rename_i kept
      split at meets
      · rename_i rejected
        have rejects : p.accepted (4 * 1024) = false := by simpa using rejected
        have none := @tried_rejected p buf s.base box room phdrs kept rejects
        refine ⟨?_, ?_, ?_⟩
        · rw [none]
          rintro _ ⟨⟩
        · rw [none]
          rintro _ ⟨⟩
        · rw [none]
          exact Nat.zero_le _
      rename_i accepts
      have accepted : p.accepted (4 * 1024) = true := by simpa using accepts
      have proper := Elf64Phdr.proper_of_accepted accepted
      rw [survives_cons kept accepted]
      rw [Prog.meets_bind] at meets
      obtain ⟨inBox, rest, some⟩ := Elf64Phdr.load_survives here ok proper meets
      refine ⟨inBox, rest, fun all => ?_⟩
      have loads := @Elf64Phdr.load_granted p buf s.base target box (0 ≤ ·) count here ok proper
        inBox rest some
      rw [Elf64Phdr.load] at loads
      obtain ⟨⟨done, target'⟩, goesOn, came, comes⟩ :=
        (meets.and loads fun _ _ same => same).exists_value
          (granting_replies ⟨0, Int.le_refl 0⟩) fun _ => id
      have isDone : done = true := comes (fun _ nonneg => nonneg) all
      dsimp only at goesOn
      rw [isDone, Bool.not_true, if_neg Bool.false_ne_true] at goesOn
      have room := some all
      exact ⟨by omega, ih (came isDone).2 (by omega) goesOn⟩

/-! ## Processes -/

/-- The range of the heap window, behind the last segment. -/
def windowStart (box : LPSBoxInfo) (buf : Buf) : Word := loadEnd box.base 0 buf.phdrs

/-- An image that may be loaded into a box: no segment brings the runtime down and, when all are
loaded, neither does the heap window behind the last one.  It passes the assertion of the box, and
its length is not rounded to nothing. -/
structure Tolerable (box : LPSBoxInfo) (brksize : Word) (buf : Buf) : Prop where
  segments : Survives box.track buf ELFSEGMAXN box.base buf.phdrs
  held : Finishes box.track buf ELFSEGMAXN box.base buf.phdrs →
    box.track.holds (windowStart box buf) brksize = true
  pages : Finishes box.track buf ELFSEGMAXN box.base buf.phdrs →
    box.track.mm.aligned (windowStart box buf) = true →
    box.track.accepts (windowStart box buf) brksize = true → box.track.mm.mmceil brksize ≠ 0

instance (box : LPSBoxInfo) (brksize : Word) (buf : Buf) : Decidable (Tolerable box brksize buf) :=
  decidable_of_iff
    (Survives box.track buf ELFSEGMAXN box.base buf.phdrs ∧
      (Finishes box.track buf ELFSEGMAXN box.base buf.phdrs →
        box.track.holds (windowStart box buf) brksize = true) ∧
      (Finishes box.track buf ELFSEGMAXN box.base buf.phdrs →
        box.track.mm.aligned (windowStart box buf) = true →
        box.track.accepts (windowStart box buf) brksize = true → box.track.mm.mmceil brksize ≠ 0))
    ⟨fun ⟨segments, held, pages⟩ => ⟨segments, held, pages⟩,
      fun ⟨segments, held, pages⟩ => ⟨segments, held, pages⟩⟩

/-- A call of `lps_box_mapat` brings nothing down when its range passes the assertion and has
pages. -/
theorem LPSBox.lpsBoxMapat_stands {addr size : Word} {prot flags : CInt} {fd : Int} {off : Word}
    (ok : box.Ok) (sound : box.mm.Sound) (inBox : box.holds addr size = true)
    (pages : box.mm.aligned addr = true → box.accepts addr size = true → box.mm.mmceil size ≠ 0) :
    (lpsBoxMapat box addr size prot flags fd off).Meets (granting box.toLPSBoxInfo protects)
      fun (r, _) => (r ≠ -1 ↔ box.Takes addr size) := by
  by_cases takes : box.Takes addr size
  · apply (LPSBox.lpsBoxMapat_granted ok sound takes).mono
    rintro ⟨r, box'⟩ ⟨rfl, -⟩
    refine iff_of_true (fun same => ?_) takes
    have multiple := (takes.contains ok).2.1.1
    rw [same] at multiple
    exact absurd multiple (by decide)
  · apply (LPSBox.lpsBoxMapat_declined ok inBox fun both => takes ⟨inBox, both.1, both.2,
      pages both.1 both.2⟩).mono
    rintro ⟨r, box'⟩ ⟨rfl, -⟩
    exact iff_of_false (fun other => other rfl) takes

variable {info : LPSBoxInfo} {opts : LPSLinuxOpts} {kfds : Nat → Option Int}

/-- A new process has no segments. -/
theorem lpsProcNew_at (ok : info.track.Ok) :
    (lpsProcNew info opts kfds).toElfTarget.At info.track 0 :=
  ⟨ok.keeps, LPSBoxInfo.track_sound ok.fits, rfl⟩

/-- Loading brings nothing down exactly when the image may be loaded. -/
theorem procLoad_meets_iff (fits : info.base.toNat + info.size.toNat < 2 ^ 64) :
    (((lpsProcNew info opts kfds).procLoad buf).Meets (granting info fun _ => True) fun _ => True) ↔
      (buf.headerOk = true → buf.tableOk = true → Tolerable info opts.brksize buf) := by
  have ok : info.track.Ok := LPSBoxInfo.track_ok fits
  have here := @lpsProcNew_at info opts kfds ok
  have none : (0 : Nat) + ELFSEGMAXN = ELFSEGMAXN := Nat.zero_add _
  constructor
  · intro meets headerOk tableOk
    have granted := meets.weaken (granting info (0 ≤ ·)) (fun c _ allowed => by
      cases c with
      | mprotect => trivial
      | _ => exact allowed) (fun _ => id) fun _ => id
    rw [LPSProc.procLoad, Prog.meets_bind, elfLoadOne, headerOk, Bool.not_true,
      if_neg Bool.false_ne_true, Prog.meets_bind] at granted
    have found := granted.2 true rfl
    rw [Prog.meets_ret, Bool.not_true, if_neg Bool.false_ne_true, tableOk, Bool.not_true,
      if_neg Bool.false_ne_true, Prog.meets_bind] at found
    have survives := elfLoop_survives here ok none found
    -- When all segments are loaded, the heap window is mapped behind the last one.
    have brk : Finishes info.track buf ELFSEGMAXN info.base buf.phdrs →
        info.track.holds (windowStart info buf) opts.brksize = true ∧
          (info.track.mm.aligned (windowStart info buf) = true →
            info.track.accepts (windowStart info buf) opts.brksize = true →
            info.track.mm.mmceil opts.brksize ≠ 0) := by
      intro finishes
      obtain ⟨⟨loop, target'⟩, goesOn, ended, ends⟩ :=
        (found.and (elfLoop_granted here ok none survives) fun _ _ same => same).exists_value
          (granting_replies ⟨0, Int.le_refl 0⟩) fun _ => id
      obtain ⟨s', isLoop⟩ := Option.isSome_iff_exists.mp (ends (fun _ nonneg => nonneg) finishes)
      obtain ⟨-, isLast, count', there⟩ := ended s' isLoop
      dsimp only at goesOn isLoop
      subst isLoop
      dsimp only at goesOn
      rw [Prog.meets_pure] at goesOn
      dsimp only at goesOn
      rw [Prog.meets_bind, isLast] at goesOn
      have stands := LPSBox.lpsBoxMapat_survives there.sound (by
        rw [there.keeps.info]
        exact goesOn)
      obtain ⟨held, isAligned, accepted, pages⟩ :=
        @there.keeps.tests _ _ (windowStart info buf) opts.brksize ok
      rw [← held, ← isAligned, ← accepted, ← pages]
      exact stands
    exact ⟨survives, fun finishes => (brk finishes).1, fun finishes => (brk finishes).2⟩
  · intro tolerable
    rw [LPSProc.procLoad, Prog.meets_bind, elfLoadOne]
    split
    · exact trivial
    rename_i headerOk
    rw [Prog.meets_bind]
    refine ⟨trivial, fun memory _ => ?_⟩
    rw [Prog.meets_ret]
    split
    · exact trivial
    split
    · exact trivial
    rename_i tableOk
    obtain ⟨survives, held, pages⟩ := tolerable (by simpa using headerOk) (by simpa using tableOk)
    rw [Prog.meets_bind]
    apply (elfLoop_granted here ok none survives).mono
    rintro ⟨loop, target'⟩ ⟨ended, -⟩
    cases loop with
    | none => exact trivial
    | some s' =>
        obtain ⟨finishes, isLast, count', there⟩ := ended s' rfl
        dsimp only
        rw [Prog.meets_pure]
        dsimp only
        rw [Prog.meets_bind, isLast]
        obtain ⟨holds, isAligned, accepted, length⟩ :=
          @there.keeps.tests _ _ (windowStart info buf) opts.brksize ok
        have stands := @LPSBox.lpsBoxMapat_stands target'.box (fun _ => True) (windowStart info buf)
          opts.brksize PROT_NONE (MAP_PRIVATE ||| MAP_ANONYMOUS) (-1) 0 there.keeps.ok there.sound
          (holds.trans (held finishes)) (by
            rw [isAligned, accepted, length]
            exact pages finishes)
        rw [there.keeps.info] at stands
        exact stands.mono fun _ _ => trivial

end Lps.Linux

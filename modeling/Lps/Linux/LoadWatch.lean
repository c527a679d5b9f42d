import Lps.Linux.LoadServed
import Lps.Program.Watch

/-!
# Watching the loader

A property of what the loader does for each segment is watched by a monitor that follows the
program headers.  All that is done for an image is as the monitor expects it exactly when the
segments that the loop comes to, and that the box takes, are fit for it.
-/

namespace Lps.Core

open Lps.Program Lps.Transition

/-- A host that serves a box maps a range at its address or nowhere. -/
theorem granting_hosted {box : LPSBoxInfo} {protects : Int → Prop} (c : HostCall)
    (reply : HostReply c) (allowed : (granting box protects).replies c reply) :
    hosted.replies c reply := by
  cases c with
  | mmap addr len prot flags fd off => exact allowed.1
  | _ => trivial

theorem hosted_replies (c : HostCall) : ∃ reply, hosted.replies c reply := by
  cases c with
  | malloc => exact ⟨true, trivial⟩
  | mmap addr len prot flags fd off => exact ⟨(-1 : Word), Or.inl rfl⟩
  | mprotect addr len prot => exact ⟨(0 : Int), trivial⟩
  | memcpy to_ count source => exact ⟨⟨⟩, trivial⟩
  | memset to_ count => exact ⟨⟨⟩, trivial⟩

variable {box box' : LPSBox} {addr size : Word} {prot flags : CInt} {fd : Int} {off : Word}

/-- `lps_box_mapat` goes down for a range that does not pass its assertion. -/
theorem LPSBox.lpsBoxMapat_holds :
    (lpsBoxMapat box addr size prot flags fd off).Meets hosted fun _ =>
      box.holds addr size = true := by
  rw [lpsBoxMapat, Prog.meets_bind, Prog.meets_check]
  split
  · rename_i inBox
    apply (Prog.meets_permitted (fun _ => trivial) fun _ => trivial).mono
    exact fun _ _ => inBox
  · trivial

/-- On any host a range that was mapped is one that the box takes. -/
theorem LPSBox.lpsBoxMapat_taken (keeps : box.Keeps box') (ok : box.Ok) :
    (lpsBoxMapat box' addr size prot flags fd off).Meets hosted fun (r, box'') =>
      box.Keeps box'' ∧ box.holds addr size = true ∧ (r ≠ -1 → r = addr ∧ box.Takes addr size) := by
  have maps := @LPSBox.lpsBoxMapat_meets box' hosted addr size prot flags fd off keeps.ok
    (LPSBox.mayMapat_all (fun _ => trivial) fun _ => trivial)
  obtain ⟨held, -⟩ := @keeps.tests _ _ addr size ok
  apply (maps.and (@LPSBox.lpsBoxMapat_holds box' addr size prot flags fd off) fun _ _ => id).mono
  rintro ⟨r, box''⟩ ⟨⟨keeps', result⟩, inBox⟩
  refine ⟨keeps.trans keeps', held.symm.trans inBox, fun mapped => ?_⟩
  rcases result.resolve_left mapped with ⟨-, ⟨accepted, isAligned, pages, failed | same⟩ |
    ⟨-, failed | stray⟩⟩
  · exact absurd failed mapped
  · exact ⟨same.1, (keeps.takes_iff ok).mp ⟨inBox, isAligned, accepted, pages⟩⟩
  · exact absurd failed mapped
  · exact absurd stray.2.1 (by decide)

end Lps.Core

namespace Lps.Linux

open Lps.Core Lps.Program Lps.Transition

universe v

variable {p : Elf64Phdr} {buf : Buf} {base : Word} {target target' : ElfTarget} {box : LPSBox}
  {info : LPSBoxInfo} {room count : Nat} {phdrs : List Elf64Phdr} {addr size : Word}
  {prot flags : CInt} {fd : Int} {off : Word}

/-! ## One segment on any host -/

/-- What follows when a range is mapped or not. -/
theorem mapat_hosted {α : Type} {rest : Word × LPSBox → HostProg α} {post : α → Prop}
    {box' : LPSBox} (keeps : box.Keeps box') (ok : box.Ok)
    (goesOn : ∀ r box'', box.Keeps box'' → box.holds addr size = true →
      (r ≠ -1 → r = addr ∧ box.Takes addr size) → (rest (r, box'')).Meets hosted post) :
    (lpsBoxMapat box' addr size prot flags fd off >>= rest).Meets hosted post := by
  rw [Prog.meets_bind]
  apply (@LPSBox.lpsBoxMapat_taken box box' addr size prot flags fd off keeps ok).mono
  rintro ⟨r, box''⟩ ⟨keeps', held, taken⟩
  exact goesOn r box'' keeps' held taken

/-- A segment is loaded only when the box takes it, it is read, the pages behind those of the
file pass the assertion, and there is room for it. -/
theorem Elf64Phdr.load_hosted (keeps : box.Keeps target.box) (ok : box.Ok) :
    (p.load buf base target).Meets hosted fun (done, target') => box.Keeps target'.box ∧
      (done = true → p.loads box buf base ∧ target.seginfo.length < ELFSEGMAXN ∧
        target'.seginfo.length = target.seginfo.length + 1) := by
  have records : ∀ {box' : LPSBox} {seg : ElfSeg}, box.Keeps box' → p.loads box buf base →
      (({ target with box := box' } : ElfTarget).record seg).Meets hosted fun (done, target') =>
        box.Keeps target'.box ∧ (done = true → p.loads box buf base ∧
          target.seginfo.length < ELFSEGMAXN ∧
          target'.seginfo.length = target.seginfo.length + 1) := by
    intro box' seg keeps' loads
    rw [ElfTarget.record, Prog.meets_bind, Prog.meets_check]
    split
    · rename_i room
      exact ⟨keeps', fun _ => ⟨loads, by simpa using room, List.length_append⟩⟩
    · trivial
  rw [load, bufReadElfseg]
  split
  · rename_i isFile
    rw [mapElfseg]
    apply mapat_hosted keeps ok
    intro r box' keeps' held mapped
    dsimp only
    split
    · exact ⟨keeps', by rintro ⟨⟩⟩
    rename_i succeeded
    obtain ⟨-, taken⟩ := mapped succeeded
    split
    · split
      · exact ⟨keeps', by rintro ⟨⟩⟩
      rename_i writable
      have isRead : p.reads buf := ⟨fun _ _ => writable, fun inMemory => absurd inMemory isFile⟩
      rw [Prog.meets_bind]
      refine ⟨trivial, fun reply _ => ?_⟩
      rw [Prog.meets_ret]
      split
      · apply mapat_hosted keeps' ok
        intro _ box'' keeps'' restHeld _
        exact records keeps'' ⟨taken, isRead, fun _ => restHeld⟩
      · rename_i whole
        exact records keeps' ⟨taken, isRead, fun needs => absurd needs.2.2 whole⟩
    · rename_i whole
      have isRead : p.reads buf :=
        ⟨fun _ longer => absurd longer whole, fun inMemory => absurd inMemory isFile⟩
      exact records keeps' ⟨taken, isRead, fun needs => absurd needs.2.1 whole⟩
  · rename_i notFile
    have inMemory : buf.fd = -1 := not_not.mp notFile
    rw [copyElfseg]
    apply mapat_hosted keeps ok
    intro r box' keeps' held mapped
    dsimp only
    split
    · exact ⟨keeps', by rintro ⟨⟩⟩
    rename_i succeeded
    obtain ⟨-, taken⟩ := mapped succeeded
    rw [Prog.meets_bind]
    refine ⟨trivial, fun reply _ => ?_⟩
    rw [Prog.meets_ret]
    split
    · exact ⟨keeps', by rintro ⟨⟩⟩
    rename_i full
    have all : p.loads box buf base := ⟨taken, ⟨fun isFile => absurd inMemory isFile,
      fun _ => not_not.mp full⟩, fun needs => absurd inMemory needs.1⟩
    rw [Prog.meets_bind, lpsBoxMprotect, Prog.meets_bind, Prog.meets_check]
    split
    · refine ⟨trivial, fun result _ => ?_⟩
      rw [Prog.meets_ret]
      split
      · exact ⟨keeps', by rintro ⟨⟩⟩
      · exact records keeps' all
    · trivial

/-! ## Monitors that follow the segments -/

section Mapat

variable {μ : Type v} {mon : Monitor μ (Exchange HostCall HostReply)} {m : μ} {α : Type}
  {rest : Word × LPSBox → HostProg α} {post : α → μ → Prop}
  {reached : Word × LPSBox → μ → Prop}

/-- What is watched when a range is mapped or not. -/
theorem mapat_watched {box' : LPSBox} (keeps : box.Keeps box') (ok : box.Ok)
    (maps : (lpsBoxMapat box' addr size prot flags fd off).Watched hosted mon reached m)
    (goesOn : ∀ r box'' m', box.Keeps box'' → (r ≠ -1 → r = addr ∧ box.Takes addr size) →
      reached (r, box'') m' → (rest (r, box'')).Watched hosted mon post m') :
    (lpsBoxMapat box' addr size prot flags fd off >>= rest).Watched hosted mon post m := by
  rw [Prog.watched_bind]
  have takes := @LPSBox.lpsBoxMapat_taken box box' addr size prot flags fd off keeps ok
  apply (maps.meets takes fun _ _ => id).mono
  rintro ⟨r, box''⟩ m' ⟨isReached, keeps', -, taken⟩
  exact goesOn r box'' m' keeps' taken isReached

/-- On some host a range that the box takes is mapped, and what follows is watched. -/
theorem ElfTarget.At.mapat_watched (here : target.At box count) (ok : box.Ok)
    (takes : box.Takes addr size)
    (maps : (lpsBoxMapat target.box addr size prot flags fd off).Watched hosted mon reached m)
    (watched : (lpsBoxMapat target.box addr size prot flags fd off >>= rest).Watched hosted mon
      post m) :
    addr ≠ -1 ∧ ∃ box' m', reached (addr, box') m' ∧
      (rest (addr, box')).Watched hosted mon post m' := by
  rw [Prog.watched_bind] at watched
  have granted := @LPSBox.lpsBoxMapat_granted target.box addr size prot flags fd off (0 ≤ ·)
    here.keeps.ok here.sound ((here.keeps.takes_iff ok).mpr takes)
  obtain ⟨⟨r, box'⟩, m', ⟨goesOn, isReached⟩, same, -⟩ :=
    (watched.and maps).exists_value granted granting_hosted
      (granting_replies ⟨0, Int.le_refl 0⟩) fun _ => id
  subst same
  exact ⟨takes.ne_neg_one ok, box', m', isReached, goesOn⟩

end Mapat

/-- A monitor that follows the program headers: `follows` relates the headers that are left to
what it remembers, and a segment that the box takes is loaded as it expects exactly when the
segment is fit. -/
structure Follows {μ : Type v} (mon : Monitor μ (Exchange HostCall HostReply))
    (box : LPSBox) (buf : Buf) (fit : Elf64Phdr → Prop) (follows : List Elf64Phdr → μ → Prop) :
    Prop where
  skips : ∀ {p phdrs m}, p.skipped = true → follows (p :: phdrs) m → follows phdrs m
  mallocs : ∀ {phdrs m reply}, follows phdrs m → mon.expects m ⟨.malloc, reply⟩ ∧
    follows phdrs (mon.next m ⟨.malloc, reply⟩)
  maps : ∀ {box' addr size prot flags fd off m}, box.Keeps box' →
    (lpsBoxMapat box' addr size prot flags fd off).Watched hosted mon (fun _ _ => True) m
  watches : ∀ {p : Elf64Phdr} {phdrs target base m}, box.Keeps target.box → p.Proper →
    ¬p.skipped = true → follows (p :: phdrs) m → (p.taken box base → fit p) →
    (p.load buf base target).Watched hosted mon (fun (done, _) m' =>
      done = true → follows phdrs m') m
  needs : ∀ {p : Elf64Phdr} {phdrs target base count m} {post : Bool × ElfTarget → μ → Prop},
    target.At box count → p.Proper → ¬p.skipped = true → follows (p :: phdrs) m →
    p.taken box base → (p.load buf base target).Watched hosted mon post m → fit p

namespace Follows

variable {μ : Type v} {mon : Monitor μ (Exchange HostCall HostReply)} {fit : Elf64Phdr → Prop}
  {follows : List Elf64Phdr → μ → Prop} {m : μ} {elfbase : Word} {s : ElfLoop}

/-- When the segments that the loop comes to are fit, all is as expected. -/
theorem elfLoop_watched (mons : Follows mon box buf fit follows) (keeps : box.Keeps target.box)
    (ok : box.Ok) (left : target.seginfo.length + room = ELFSEGMAXN) (here : follows phdrs m)
    (fits : ∀ x ∈ tried box buf room s.base phdrs, x.2.taken box x.1 → fit x.2) :
    (elfLoop elfbase buf phdrs s target).Watched hosted mon
      (fun (_, target') _ => box.Keeps target'.box) m := by
  induction phdrs generalizing s target m room with
  | nil => exact keeps
  | cons p phdrs ih =>
      rw [elfLoop]
      split
      · rename_i skips
        rw [tried_skipped skips] at fits
        exact ih keeps left (mons.skips skips here) fits
      rename_i kept
      split
      · exact keeps
      rename_i accepts
      have accepted : p.accepted (4 * 1024) = true := by simpa using accepts
      rw [tried_accepted kept accepted] at fits
      obtain ⟨fitHere, later⟩ := List.forall_mem_cons.mp fits
      have watched := mons.watches keeps (Elf64Phdr.proper_of_accepted accepted) kept here fitHere
      have loads := @Elf64Phdr.load_hosted p buf s.base target box keeps ok
      rw [Elf64Phdr.load] at watched loads
      rw [Prog.watched_bind]
      apply (watched.meets loads fun _ _ => id).mono
      rintro ⟨done, target'⟩ m' ⟨goesOn, keeps', came⟩
      cases done with
      | false => exact keeps'
      | true =>
          obtain ⟨all, few, more⟩ := came rfl
          have some : room ≠ 0 := by omega
          rw [if_pos ⟨some, all⟩] at later
          dsimp only at more ⊢
          rw [Bool.not_true, if_neg Bool.false_ne_true]
          exact ih keeps' (by omega) (goesOn rfl) later

/-- When all is as expected, the segments that the loop comes to are fit. -/
theorem elfLoop_fits {post : Option ElfLoop × ElfTarget → μ → Prop}
    (mons : Follows mon box buf fit follows) (here : target.At box count) (ok : box.Ok)
    (left : count + room = ELFSEGMAXN) (monitored : follows phdrs m)
    (watched : (elfLoop elfbase buf phdrs s target).Watched hosted mon post m) :
    ∀ x ∈ tried box buf room s.base phdrs, x.2.taken box x.1 → fit x.2 := by
  induction phdrs generalizing s target count m room with
  | nil => rintro _ ⟨⟩
  | cons p phdrs ih =>
      rw [elfLoop] at watched
      split at watched
      · rename_i skips
        rw [tried_skipped skips]
        exact ih here left (mons.skips skips monitored) watched
      rename_i kept
      split at watched
      · rename_i rejected
        rw [tried_rejected kept (by simpa using rejected)]
        rintro _ ⟨⟩
      rename_i accepts
      have accepted : p.accepted (4 * 1024) = true := by simpa using accepts
      have proper := Elf64Phdr.proper_of_accepted accepted
      rw [Prog.watched_bind] at watched
      have fitHere : p.taken box s.base → fit p :=
        fun taken => mons.needs here proper kept monitored taken watched
      rw [tried_accepted kept accepted, List.forall_mem_cons]
      refine ⟨fitHere, ?_⟩
      split
      · rename_i goes
        obtain ⟨some, all⟩ := goes
        have loads := @Elf64Phdr.load_granted p buf s.base target box (0 ≤ ·) count here ok proper
          all.1.1 (fun _ _ => all.2.2) fun _ => by omega
        have follow := mons.watches here.keeps proper kept monitored fitHere
        rw [Elf64Phdr.load] at loads follow
        obtain ⟨⟨done, target'⟩, m', ⟨goesOn, monitored'⟩, came, comes⟩ :=
          (watched.and follow).exists_value loads granting_hosted
            (granting_replies ⟨0, Int.le_refl 0⟩) fun _ => id
        have isDone : done = true := comes (fun _ nonneg => nonneg) all
        dsimp only at goesOn
        rw [isDone, Bool.not_true, if_neg Bool.false_ne_true] at goesOn
        exact ih (came isDone).2 (by omega) (monitored' isDone) goesOn
      · rintro _ ⟨⟩

variable {opts : LPSLinuxOpts} {kfds : Nat → Option Int}

/-- The image is loaded as expected exactly when the segments that the loop comes to, and that
the box takes, are fit. -/
theorem procLoad_iff {m : μ} (mons : Follows mon info.track buf fit follows)
    (fits : info.base.toNat + info.size.toNat < 2 ^ 64) (start : follows buf.phdrs m) :
    ((lpsProcNew info opts kfds).procLoad buf).Watched hosted mon (fun _ _ => True) m ↔
      (buf.headerOk = true → buf.tableOk = true →
        ∀ x ∈ tried info.track buf ELFSEGMAXN info.base buf.phdrs,
          x.2.taken info.track x.1 → fit x.2) := by
  have ok : info.track.Ok := LPSBoxInfo.track_ok fits
  have here := @lpsProcNew_at info opts kfds ok
  have none : (0 : Nat) + ELFSEGMAXN = ELFSEGMAXN := Nat.zero_add _
  constructor
  · intro watched headerOk tableOk
    rw [LPSProc.procLoad, Prog.watched_bind, elfLoadOne, headerOk, Bool.not_true,
      if_neg Bool.false_ne_true, Prog.watched_bind] at watched
    obtain ⟨-, found⟩ := watched true trivial
    rw [Prog.watched_ret, Bool.not_true, if_neg Bool.false_ne_true, tableOk, Bool.not_true,
      if_neg Bool.false_ne_true, Prog.watched_bind] at found
    exact mons.elfLoop_fits here ok none (mons.mallocs start).2 found
  · intro fit
    rw [LPSProc.procLoad, Prog.watched_bind, elfLoadOne]
    split
    · exact trivial
    rename_i headerOk
    rw [Prog.watched_bind]
    refine fun memory _ => ⟨(mons.mallocs start).1, ?_⟩
    rw [Prog.watched_ret]
    split
    · exact trivial
    split
    · exact trivial
    rename_i tableOk
    rw [Prog.watched_bind]
    apply (mons.elfLoop_watched here.keeps ok none (mons.mallocs start).2
      (fit (by simpa using headerOk) (by simpa using tableOk))).mono
    rintro ⟨loop, target'⟩ m' keeps
    cases loop with
    | none => exact trivial
    | some s' =>
        dsimp only
        rw [Prog.watched_pure]
        dsimp only
        rw [Prog.watched_bind]
        apply (mons.maps keeps).mono
        intro _ _ _
        trivial

end Follows

end Lps.Linux

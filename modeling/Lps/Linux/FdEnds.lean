import Lps.Linux.FdPipe

/-!
# Which ends of pipes are open

An end of a pipe is open exactly while a slot refers to its file, as long as no close
removes the last one: only `fdfree` calls `pipe_close`.  The files of the host may leak
and dangle.
-/

namespace Lps.Linux

variable {w : FdWorld} {p : ProcId} {i j : Nat} {f : FileId}
  {ends : PipeId → Bool → Option FileId} {opened : PipeId → Bool → Bool}

namespace FdWorld

/-- The slots and files fit together, and the open ends of pipes are those that a slot
refers to. -/
structure Linked (ends : PipeId → Bool → Option FileId) (opened : PipeId → Bool → Bool)
    (w : FdWorld) : Prop where
  bound : ∀ {f}, w.files f ≠ none → f < w.made
  slotBound : ∀ {p i f}, w.table p i = some f → f < w.made
  endBound : ∀ {q b f}, ends q b = some f → f < w.made
  owner : ∀ {p p' i j f}, w.table p i = some f → w.table p' j = some f → p = p'
  inRange : ∀ {p i f}, w.table p i = some f → i < LINUX_NOFILE
  known : ∀ {p i f}, w.table p i = some f → p ∈ w.procs
  isEnd : ∀ {f file q b}, w.files f = some file → file.dev = .pipeEnd q b → ends q b = some f
  endDev : ∀ {q b f file}, ends q b = some f → w.files f = some file → file.dev = .pipeEnd q b
  endLive : ∀ {q b f}, ends q b = some f → (w.files f ≠ none ↔ w.Referred f)
  isOpen : ∀ {q b f}, ends q b = some f → (opened q b = true ↔ w.Referred f)

/-- The file is not one of an end. -/
def NoEnd (ends : PipeId → Bool → Option FileId) (f : FileId) : Prop := ∀ q b, ends q b ≠ some f

namespace Linked

theorem init_linked (opened : PipeId → Bool → Bool) :
    Linked (fun _ _ => none) opened FdWorld.init where
  bound := by simp [init]
  slotBound := by simp [init]
  endBound := by simp
  owner := by simp [init]
  inRange := by simp [init]
  known := by simp [init]
  isEnd := by simp [init]
  endDev := by simp
  endLive := by simp
  isOpen := by simp

/-- A file of the host is not one of an end. -/
theorem noEnd_of_host (linked : w.Linked ends opened) {file : OpenFile} {kfd : Int}
    (isFile : w.files f = some file) (host : file.dev = .host kfd) : NoEnd ends f := by
  intro q b isEnd
  have dev := linked.endDev isEnd isFile
  rw [host] at dev
  cases dev

/-- A file that is about to be made is not one of an end, and no slot refers to it. -/
theorem noEnd_made (linked : w.Linked ends opened) : NoEnd ends w.made :=
  fun _ _ isEnd => Nat.lt_irrefl _ (linked.endBound isEnd)

theorem unused_made (linked : w.Linked ends opened) : w.table p i ≠ some w.made :=
  fun slot => Nat.lt_irrefl _ (linked.slotBound slot)

/-- A file of the host is made. -/
theorem alloc (linked : w.Linked ends opened) {file : OpenFile} {kfd : Int}
    (host : file.dev = .host kfd) : (w.alloc file).2.Linked ends opened := by
  have heap : ∀ {q b g}, ends q b = some g → (w.alloc file).2.files g = w.files g := by
    intro q b g isEnd
    refine (files_setFile ..).trans (if_neg ?_)
    rintro rfl
    exact linked.noEnd_made q b isEnd
  refine
    { bound := ?_
      slotBound := fun slot => Nat.lt_succ_of_lt (linked.slotBound slot)
      endBound := fun isEnd => Nat.lt_succ_of_lt (linked.endBound isEnd)
      owner := linked.owner
      inRange := linked.inRange
      known := linked.known
      isEnd := ?_
      endDev := fun isEnd isFile => linked.endDev isEnd ((heap isEnd).symm.trans isFile)
      endLive := fun isEnd => by rw [heap isEnd]; exact linked.endLive isEnd
      isOpen := linked.isOpen }
  · intro g live
    change g < w.made + 1
    rw [show (w.alloc file).2.files g = _ from files_setFile ..] at live
    split at live
    · rename_i same
      exact same ▸ Nat.lt_succ_self _
    · exact Nat.lt_succ_of_lt (linked.bound live)
  · intro g file' q b isFile dev
    rw [show (w.alloc file).2.files g = _ from files_setFile ..] at isFile
    split at isFile
    · cases isFile
      rw [host] at dev
      cases dev
    · exact linked.isEnd isFile dev

/-- A free slot gets a file that a slot of the same process refers to, or that is not one
of an end. -/
theorem fillSlot (linked : w.Linked ends opened) (isFree : w.table p i = none)
    (small : i < LINUX_NOFILE) (known : p ∈ w.procs) (made : f < w.made)
    (owned : ∀ {p' j}, w.table p' j = some f → p' = p)
    (used : w.Referred f ∨ NoEnd ends f) : (w.setSlot p i (some f)).Linked ends opened := by
  have referred : ∀ {q b g}, ends q b = some g →
      ((w.setSlot p i (some f)).Referred g ↔ w.Referred g) := by
    intro q b g isEnd
    simp only [Referred, table_setSlot]
    constructor
    · rintro ⟨p', j, slot⟩
      split at slot
      · cases slot
        exact used.elim id fun none => absurd isEnd (none q b)
      · exact ⟨p', j, slot⟩
    · rintro ⟨p', j, slot⟩
      refine ⟨p', j, ?_⟩
      rw [if_neg, slot]
      rintro ⟨rfl, rfl⟩
      cases isFree.symm.trans slot
  refine
    { linked with
      slotBound := ?_
      owner := ?_
      inRange := ?_
      known := ?_
      endLive := fun isEnd => (linked.endLive isEnd).trans (referred isEnd).symm
      isOpen := fun isEnd => (linked.isOpen isEnd).trans (referred isEnd).symm }
  · intro p' j g slot
    rw [table_setSlot] at slot
    split at slot
    · cases slot
      exact made
    · exact linked.slotBound slot
  · intro p₁ p₂ j₁ j₂ g first second
    rw [table_setSlot] at first second
    split at first <;> split at second
    · rename_i here here'
      exact here.1.trans here'.1.symm
    · rename_i here _
      cases first
      exact here.1.trans (owned second).symm
    · rename_i _ here
      cases second
      exact (owned first).trans here.1.symm
    · exact linked.owner first second
  · intro p' j g slot
    rw [table_setSlot] at slot
    split at slot
    · rename_i here
      exact here.2 ▸ small
    · exact linked.inRange slot
  · intro p' j g slot
    rw [table_setSlot] at slot
    split at slot
    · rename_i here
      exact here.1 ▸ known
    · exact linked.known slot

/-- A file on the heap changes, but not what it is made for. -/
theorem changeFile (linked : w.Linked ends opened) {old new : OpenFile}
    (isFile : w.files f = some old) (dev : new.dev = old.dev) :
    (w.setFile f (some new)).Linked ends opened := by
  have heap : ∀ g, (w.setFile f (some new)).files g ≠ none ↔ w.files g ≠ none := by
    intro g
    rw [files_setFile]
    split
    · rename_i same
      subst same
      simp [isFile]
    · exact Iff.rfl
  refine
    { linked with
      bound := fun live => linked.bound ((heap _).mp live)
      isEnd := ?_
      endDev := ?_
      endLive := fun isEnd => (heap _).trans (linked.endLive isEnd)
      isOpen := linked.isOpen }
  · intro g file q b isFile' isDev
    rw [files_setFile] at isFile'
    split at isFile'
    · rename_i same
      subst same
      cases isFile'
      exact linked.isEnd isFile (dev.symm.trans isDev)
    · exact linked.isEnd isFile' isDev
  · intro q b g file isEnd isFile'
    rw [files_setFile] at isFile'
    split at isFile'
    · rename_i same
      subst same
      cases isFile'
      exact dev.trans (linked.endDev isEnd isFile)
    · exact linked.endDev isEnd isFile'

/-- A file that is not one of an end is freed. -/
theorem freeFile (linked : w.Linked ends opened) (none : NoEnd ends f) :
    (w.setFile f Option.none).Linked ends opened := by
  have heap : ∀ {q b g}, ends q b = some g → (w.setFile f Option.none).files g = w.files g := by
    intro q b g isEnd
    rw [files_setFile, if_neg]
    rintro rfl
    exact none q b isEnd
  refine
    { linked with
      bound := ?_
      isEnd := ?_
      endDev := fun isEnd isFile => linked.endDev isEnd ((heap isEnd).symm.trans isFile)
      endLive := fun isEnd => by rw [heap isEnd]; exact linked.endLive isEnd
      isOpen := linked.isOpen }
  · intro g live
    rw [files_setFile] at live
    split at live
    · exact absurd rfl live
    · exact linked.bound live
  · intro g file q b isFile dev
    rw [files_setFile] at isFile
    split at isFile
    · cases isFile
    · exact linked.isEnd isFile dev

/-- A slot is emptied, and another one refers to its file or that is not one of an
end. -/
theorem emptySlot (linked : w.Linked ends opened) (slot : w.table p i = some f)
    (spare : (∃ j, j ≠ i ∧ w.table p j = some f) ∨ NoEnd ends f) :
    (w.setSlot p i none).Linked ends opened := by
  have kept : ∀ {p' k g}, (w.setSlot p i none).table p' k = some g → w.table p' k = some g := by
    intro p' k g used
    rw [table_setSlot] at used
    split at used
    · cases used
    · exact used
  have referred : ∀ {q b g}, ends q b = some g →
      ((w.setSlot p i none).Referred g ↔ w.Referred g) := by
    intro q b g isEnd
    constructor
    · rintro ⟨p', k, used⟩
      exact ⟨p', k, kept used⟩
    · rintro ⟨p', k, used⟩
      by_cases here : p' = p ∧ k = i
      · obtain ⟨rfl, rfl⟩ := here
        cases slot.symm.trans used
        rcases spare with ⟨j, ne, other⟩ | none
        · exact ⟨p', j, by rw [table_setSlot, if_neg fun same => ne same.2, other]⟩
        · exact absurd isEnd (none q b)
      · exact ⟨p', k, by rw [table_setSlot, if_neg here, used]⟩
  exact
    { linked with
      slotBound := fun used => linked.slotBound (kept used)
      owner := fun first second => linked.owner (kept first) (kept second)
      inRange := fun used => linked.inRange (kept used)
      known := fun used => linked.known (kept used)
      endLive := fun isEnd => (linked.endLive isEnd).trans (referred isEnd).symm
      isOpen := fun isEnd => (linked.isOpen isEnd).trans (referred isEnd).symm }

/-! ## The calls -/

/-- A new file of the host goes into a free slot. -/
theorem place (linked : w.Linked ends opened) (file : OpenFile) {kfd : Int}
    (host : file.dev = .host kfd) (isFree : w.table p i = none) (small : i < LINUX_NOFILE)
    (known : p ∈ w.procs) :
    ((w.alloc file).2.setSlot p i (some w.made)).Linked ends opened :=
  (linked.alloc host).fillSlot isFree small known (Nat.lt_succ_self _)
    (fun slot => absurd slot linked.unused_made) (.inr linked.noEnd_made)

/-- `sysOpenat` always has a result. -/
theorem sysOpenat (linked : w.Linked ends opened) (known : p ∈ w.procs) (kfd : Int) :
    ∃ r w', w.sysOpenat p kfd = some (r, w') ∧ w'.procs = w.procs ∧ w'.Linked ends opened := by
  cases found : w.firstFree p with
  | none =>
      refine ⟨-LINUX_EMFILE, (w.filenew kfd .owned).2, ?_, rfl, linked.alloc rfl⟩
      have full : (w.filenew kfd .owned).2.firstFree p = none :=
        (@firstFree_congr w p (w.filenew kfd .owned).2 rfl).trans found
      rw [FdWorld.sysOpenat]
      simp only [fdfassign, full, Option.bind_eq_bind, Option.bind_some]
      rfl
  | some i =>
      obtain ⟨small, isFree⟩ := firstFree_spec found
      have placed := linked.place ⟨.host kfd, 0, .owned, true⟩ rfl isFree small known
      have isFile : ((w.alloc ⟨.host kfd, 0, .owned, true⟩).2.setSlot p i (some w.made)).files
          w.made = some ⟨.host kfd, 0, .owned, true⟩ := by
        simp [FdWorld.alloc, setFile]
      exact ⟨_, _, sysOpenat_spec found, rfl, placed.changeFile isFile rfl⟩

/-- `fdfdup2` has a result when it can lock the file. -/
theorem fdfdup2 (linked : w.Linked ends opened) {oldfd newfd : Int}
    (locks : w.DupLocks p oldfd newfd) :
    ∃ r w', w.fdfdup2 p oldfd newfd = some (r, w') ∧ w'.procs = w.procs ∧
      w'.Linked ends opened := by
  rcases fdfdup2_cases w p oldfd newfd with ⟨r, -, fails⟩ | ⟨f, i, look, found, fills⟩
  · exact ⟨r, w, fails, rfl, linked⟩
  · obtain ⟨file, locked⟩ := Option.isSome_iff_exists.mp (locks f look (by rw [found]; rfl))
    obtain ⟨small, isFree⟩ := dupSlot_spec found
    have slot := (fdfget_eq_some look).2
    rw [fill_spec locked] at fills
    have shared := linked.fillSlot isFree small (linked.known slot) (linked.slotBound slot)
      (fun other => linked.owner other slot) (.inl ⟨p, _, slot⟩)
    rw [FdWorld.lock, Option.filter_eq_some_iff] at locked
    exact ⟨_, _, fills, rfl, shared.changeFile locked.1 rfl⟩

/-- `sysClose` has a result when its condition is met. -/
theorem sysClose (linked : w.Linked ends opened) {fd : Int}
    (ok : ∀ f ∈ w.fdfget p fd, ∃ file ∈ w.lock f, FdPipes.CloseOk w p fd f file) :
    ∃ r w' obs, w.sysClose p fd = some (r, w', obs) ∧ w'.procs = w.procs ∧
      w'.Linked ends opened := by
  cases look : w.fdfget p fd with
  | none =>
      refine ⟨-LINUX_BADF, w, [], ?_, rfl, linked⟩
      simp [FdWorld.sysClose, fdfclose, look]
  | some f =>
      obtain ⟨file, locked, closeOk⟩ := ok f look
      have slot := (fdfget_eq_some look).2
      have isFile : w.files f = some file := by
        rw [Option.mem_def, FdWorld.lock, Option.filter_eq_some_iff] at locked
        exact locked.1
      -- What `filefree` leaves of the file, and why the slot may go.
      have freed : ∃ w₁ obs, w.filefree f = some (w₁, obs) ∧ w₁.procs = w.procs ∧
          w₁.Linked ends opened ∧ w₁.table = w.table ∧
          ((∃ j, j ≠ fd.toNat ∧ w₁.table p j = some f) ∨ NoEnd ends f) := by
        rw [filefree, locked]
        rw [FdPipes.CloseOk] at closeOk
        cases dev : file.dev with
        | host kfd =>
            rw [dev] at closeOk
            have none := linked.noEnd_of_host isFile dev
            by_cases last : file.refs - 1 = 0
            · exact ⟨_, _, if_pos last, rfl, linked.changeFile isFile rfl, rfl, .inr none⟩
            · have tame := closeOk.resolve_left last
              exact ⟨_, _, (if_neg last).trans (if_neg tame), rfl, linked.freeFile none, rfl,
                .inr none⟩
        | pipeEnd q b =>
            rw [dev] at closeOk
            obtain ⟨one, j, -, ne, other⟩ := closeOk
            exact ⟨_, _, if_pos (by rw [one]; rfl), rfl, linked.changeFile isFile rfl, rfl,
              .inl ⟨j, ne, other⟩⟩
      obtain ⟨w₁, obs, frees, procs, linked₁, table, spare⟩ := freed
      have closed : w.sysClose p fd = some (0, w₁.setSlot p fd.toNat none, obs) := by
        simp [FdWorld.sysClose, fdfclose, look, frees]
      exact ⟨_, _, _, closed, procs, linked₁.emptySlot (table ▸ slot) spare⟩

/-- New standard streams go into an empty table. -/
theorem fdinit (linked : w.Linked ends opened) (isNew : p ∉ w.procs) (stdin stdout stderr : Int) :
    Linked ends opened { w.fdinit p stdin stdout stderr with procs := p :: w.procs } := by
  refine fdinit_keeps (Linked ends opened)
    (fun file linked host isFree small known => linked.place file host isFree small known)
    { linked with known := fun slot => List.mem_cons_of_mem _ (linked.known slot) } ?_
  intro i
  cases slot : w.table p i with
  | none => rfl
  | some f => exact absurd (linked.known slot) isNew

/-- The only slot of a file is emptied and the file freed: if it is that of an end, the
end is no longer open. -/
theorem release (linked : w.Linked ends opened) {file : OpenFile}
    (slot : w.table p i = some f) (isFile : w.files f = some file)
    (last : ∀ j, w.table p j = some f → j = i) {opened' : PipeId → Bool → Bool}
    (closes : ∀ q b, opened' q b = if file.dev = .pipeEnd q b then false else opened q b) :
    ((w.setFile f none).setSlot p i none).Linked ends opened' := by
  have kept : ∀ {p' k g}, ((w.setFile f none).setSlot p i none).table p' k = some g ↔
      w.table p' k = some g ∧ g ≠ f := by
    intro p' k g
    rw [table_setSlot, table_setFile]
    split
    · rename_i here
      obtain ⟨rfl, rfl⟩ := here
      constructor
      · exact nofun
      · rintro ⟨used, other⟩
        exact absurd (Option.some.inj (used.symm.trans slot)) other
    · rename_i elsewhere
      constructor
      · intro used
        refine ⟨used, ?_⟩
        rintro rfl
        have same := linked.owner used slot
        subst same
        exact elsewhere ⟨rfl, last k used⟩
      · exact And.left
  have heap : ∀ g, ((w.setFile f none).setSlot p i none).files g =
      if g = f then none else w.files g := fun g => files_setFile ..
  have referred : ∀ g, ((w.setFile f none).setSlot p i none).Referred g ↔
      w.Referred g ∧ g ≠ f := by
    intro g
    simp only [Referred, kept]
    constructor
    · rintro ⟨p', k, used, other⟩
      exact ⟨⟨p', k, used⟩, other⟩
    · rintro ⟨⟨p', k, used⟩, other⟩
      exact ⟨p', k, used, other⟩
  constructor
  · intro g live
    rw [heap] at live
    split at live
    · exact absurd rfl live
    · exact linked.bound live
  · exact fun used => linked.slotBound (kept.mp used).1
  · exact linked.endBound
  · exact fun first second => linked.owner (kept.mp first).1 (kept.mp second).1
  · exact fun used => linked.inRange (kept.mp used).1
  · exact fun used => linked.known (kept.mp used).1
  · intro g file' q b isFile' dev
    rw [heap] at isFile'
    split at isFile'
    · cases isFile'
    · exact linked.isEnd isFile' dev
  · intro q b g file' isEnd isFile'
    rw [heap] at isFile'
    split at isFile'
    · cases isFile'
    · exact linked.endDev isEnd isFile'
  · intro q b g isEnd
    rw [heap, referred, ← linked.endLive isEnd]
    by_cases same : g = f <;> simp [same]
  · intro q b g isEnd
    rw [closes, referred, ← linked.isOpen isEnd]
    by_cases same : g = f
    · subst same
      simp [linked.endDev isEnd isFile]
    · have other : file.dev ≠ .pipeEnd q b := by
        intro dev
        exact same (Option.some.inj (isEnd.symm.trans (linked.isEnd isFile dev)))
      simp [other, same]

/-- The file of an end of a pipe goes into a free slot; no slot refers to the file that
the end had before. -/
theorem addEnd (linked : w.Linked ends opened) {q : PipeId} {b : Bool} (junk : Junk)
    (isFree : w.table p i = none) (small : i < LINUX_NOFILE) (known : p ∈ w.procs)
    (unused : ∀ f, ends q b = some f → ¬w.Referred f)
    {ends' : PipeId → Bool → Option FileId} {opened' : PipeId → Bool → Bool}
    (becomes : ∀ q' b', ends' q' b' = if q' = q ∧ b' = b then some w.made else ends q' b')
    (opens : ∀ q' b', opened' q' b' = if q' = q ∧ b' = b then true else opened q' b') :
    ((w.alloc (pipeFile q b junk)).2.setSlot p i (some w.made)).Linked ends' opened' := by
  have slots : ∀ p' j, ((w.alloc (pipeFile q b junk)).2.setSlot p i (some w.made)).table p' j =
      if p' = p ∧ j = i then some w.made else w.table p' j := fun p' j => table_setSlot ..
  have heap : ∀ g, ((w.alloc (pipeFile q b junk)).2.setSlot p i (some w.made)).files g =
      if g = w.made then some (pipeFile q b junk) else w.files g := fun g => files_setFile ..
  have referred : ∀ g, ((w.alloc (pipeFile q b junk)).2.setSlot p i (some w.made)).Referred g ↔
      g = w.made ∨ w.Referred g := by
    intro g
    simp only [Referred, slots]
    constructor
    · rintro ⟨p', j, slot⟩
      split at slot
      · exact .inl (Option.some.inj slot).symm
      · exact .inr ⟨p', j, slot⟩
    · rintro (rfl | ⟨p', j, slot⟩)
      · exact ⟨p, i, by simp⟩
      · refine ⟨p', j, ?_⟩
        rw [if_neg, slot]
        rintro ⟨rfl, rfl⟩
        cases isFree.symm.trans slot
  constructor
  · intro g live
    change g < w.made + 1
    rw [heap] at live
    split at live
    · rename_i same
      exact same ▸ Nat.lt_succ_self _
    · exact Nat.lt_succ_of_lt (linked.bound live)
  · intro p' j g slot
    change g < w.made + 1
    rw [slots] at slot
    split at slot
    · cases slot
      exact Nat.lt_succ_self _
    · exact Nat.lt_succ_of_lt (linked.slotBound slot)
  · intro q' b' g isEnd
    change g < w.made + 1
    rw [becomes] at isEnd
    split at isEnd
    · cases isEnd
      exact Nat.lt_succ_self _
    · exact Nat.lt_succ_of_lt (linked.endBound isEnd)
  · intro p₁ p₂ j₁ j₂ g first second
    rw [slots] at first second
    split at first <;> split at second
    · rename_i here here'
      exact here.1.trans here'.1.symm
    · cases first
      exact absurd second linked.unused_made
    · cases second
      exact absurd first linked.unused_made
    · exact linked.owner first second
  · intro p' j g slot
    rw [slots] at slot
    split at slot
    · rename_i here
      exact here.2 ▸ small
    · exact linked.inRange slot
  · intro p' j g slot
    rw [slots] at slot
    split at slot
    · rename_i here
      exact here.1 ▸ known
    · exact linked.known slot
  · intro g file q' b' isFile dev
    rw [heap] at isFile
    rw [becomes]
    split at isFile
    · rename_i same
      cases isFile
      cases dev
      simp [same]
    · have isEnd := linked.isEnd isFile dev
      rw [if_neg, isEnd]
      rintro ⟨rfl, rfl⟩
      exact unused g isEnd ((linked.endLive isEnd).mp (by rw [isFile]; rintro ⟨⟩))
  · intro q' b' g file isEnd isFile
    rw [becomes] at isEnd
    rw [heap] at isFile
    split at isEnd
    · rename_i here
      cases isEnd
      rw [if_pos rfl] at isFile
      cases isFile
      obtain ⟨rfl, rfl⟩ := here
      rfl
    · have other : g ≠ w.made := fun same => linked.noEnd_made q' b' (same ▸ isEnd)
      rw [if_neg other] at isFile
      exact linked.endDev isEnd isFile
  · intro q' b' g isEnd
    rw [becomes] at isEnd
    rw [heap, referred]
    split at isEnd
    · cases isEnd
      simp
    · have other : g ≠ w.made := fun same => linked.noEnd_made q' b' (same ▸ isEnd)
      rw [if_neg other, linked.endLive isEnd]
      simp [other]
  · intro q' b' g isEnd
    rw [becomes] at isEnd
    rw [opens, referred]
    split at isEnd
    · rename_i here
      cases isEnd
      simp [here]
    · rename_i elsewhere
      have other : g ≠ w.made := fun same => linked.noEnd_made q' b' (same ▸ isEnd)
      rw [if_neg elsewhere, linked.isOpen isEnd]
      simp [other]

/-- A pipe whose ends no slot refers to is forgotten. -/
theorem forgetEnds (linked : w.Linked ends opened) {q : PipeId}
    (unused : ∀ b f, ends q b = some f → ¬w.Referred f)
    {ends' : PipeId → Bool → Option FileId} {opened' : PipeId → Bool → Bool}
    (becomes : ∀ q' b', ends' q' b' = if q' = q then none else ends q' b')
    (opens : ∀ q' b', q' ≠ q → opened' q' b' = opened q' b') :
    w.Linked ends' opened' := by
  have kept : ∀ {q' b' g}, ends' q' b' = some g → ends q' b' = some g ∧ q' ≠ q := by
    intro q' b' g isEnd
    rw [becomes] at isEnd
    split at isEnd
    · cases isEnd
    · rename_i other
      exact ⟨isEnd, other⟩
  refine
    { linked with
      endBound := fun isEnd => linked.endBound (kept isEnd).1
      isEnd := ?_
      endDev := fun isEnd => linked.endDev (kept isEnd).1
      endLive := fun isEnd => linked.endLive (kept isEnd).1
      isOpen := ?_ }
  · intro g file q' b' isFile dev
    have isEnd := linked.isEnd isFile dev
    rw [becomes, if_neg, isEnd]
    rintro rfl
    exact unused b' g isEnd ((linked.endLive isEnd).mp (by rw [isFile]; nofun))
  · intro q' b' g isEnd
    rw [opens q' b' (kept isEnd).2]
    exact linked.isOpen (kept isEnd).1

end Linked

/-- `lps_pipe_new` when the slot for the read end is taken: the files are freed. -/
theorem lpsPipeNew_taken (linked : w.Linked ends opened) {source target : ProcId}
    {fromfd tofd : Int} {q : PipeId} {readJunk writeJunk : Junk} (range : InRange tofd)
    (taken : w.table target tofd.toNat ≠ none) :
    w.lpsPipeNew source fromfd target tofd q readJunk writeJunk =
      some (false, { w with made := w.made + 1 + 1 }, [.freed w.made, .freed (w.made + 1)]) := by
  have refused : (w.withEnds q readJunk writeJunk).fdassign target tofd w.made =
      some (-1, w.withEnds q readJunk writeJunk) := by
    obtain ⟨low, high⟩ := range
    have used : ((w.withEnds q readJunk writeJunk).table target tofd.toNat).isSome :=
      Option.isSome_iff_ne_none.mpr taken
    rw [fdassign, if_neg (by omega), if_pos used]
  have absent : ∀ g, w.made ≤ g → w.files g = none := by
    intro g above
    by_contra live
    exact Nat.lt_irrefl _ ((linked.bound live).trans_le above)
  have heap : (((w.withEnds q readJunk writeJunk).setFile w.made none).setFile (w.made + 1)
      none).files = w.files := by
    funext g
    simp only [files_setFile]
    split
    · rename_i same
      exact (absent g (by rw [same]; exact Nat.le_succ _)).symm
    · split
      · rename_i same
        exact (absent g (Nat.le_of_eq same.symm)).symm
      · rename_i notWrite notRead
        exact (files_setFile ..).trans ((if_neg notWrite).trans
          ((files_setFile ..).trans (if_neg notRead)))
  have world : ((w.withEnds q readJunk writeJunk).setFile w.made none).setFile (w.made + 1) none =
      { w with files := w.files, made := w.made + 1 + 1 } := by
    rw [← heap]
    rfl
  rw [lpsPipeNew_eq, refused]
  change some (false, _, _) = _
  rw [world]

/-- `lps_pipe_new` opens both ends of the pipe, or frees their files. -/
theorem Linked.lpsPipeNew (linked : w.Linked ends opened) {source target : ProcId}
    {fromfd tofd : Int} {q : PipeId} {readJunk writeJunk : Junk} (toRange : InRange tofd)
    (second : w.table target tofd.toNat = none →
      InRange fromfd ∧ w.table source fromfd.toNat = none ∧ (target, tofd) ≠ (source, fromfd))
    (knownSource : source ∈ w.procs) (knownTarget : target ∈ w.procs)
    (unused : ∀ b f, ends q b = some f → ¬w.Referred f) {opened' : PipeId → Bool → Bool}
    (opens : ∀ q' b', opened' q' b' = if q' = q then true else opened q' b') :
    ∃ ok w' obs, w.lpsPipeNew source fromfd target tofd q readJunk writeJunk = some (ok, w', obs) ∧
      w'.procs = w.procs ∧
      w'.Linked (Function.update ends q fun isRead =>
        if ok then some (if isRead then w.made else w.made + 1) else none) opened' := by
  by_cases isFree : w.table target tofd.toNat = none
  · obtain ⟨fromRange, fromFree, apart⟩ := second isFree
    have small : ∀ {fd : Int}, InRange fd → fd.toNat < LINUX_NOFILE := fun range => by
      obtain ⟨low, high⟩ := range
      omega
    refine ⟨_, _, _, lpsPipeNew_spec toRange fromRange isFree fromFree apart, rfl, ?_⟩
    let ends₁ : PipeId → Bool → Option FileId := fun q' b' =>
      if q' = q ∧ b' = true then some w.made else ends q' b'
    let opened₁ : PipeId → Bool → Bool := fun q' b' =>
      if q' = q ∧ b' = true then true else opened q' b'
    have first : Linked ends₁ opened₁ _ := linked.addEnd readJunk isFree (small toRange) knownTarget
      (unused true) (fun _ _ => rfl) fun _ _ => rfl
    refine first.addEnd (q := q) (b := false) writeJunk ?_ (small fromRange) knownSource ?_ ?_ ?_
    · rw [table_setSlot, if_neg]
      · exact fromFree
      · rintro ⟨rfl, same⟩
        obtain ⟨toLow, -⟩ := toRange
        obtain ⟨fromLow, -⟩ := fromRange
        exact apart (Prod.ext rfl (by omega))
    · intro f isEnd
      have isEnd : ends q false = some f := by simpa [ends₁] using isEnd
      rintro ⟨p', j, slot⟩
      rw [table_setSlot] at slot
      split at slot
      · cases slot
        exact linked.noEnd_made q false isEnd
      · exact unused false f isEnd ⟨p', j, slot⟩
    · intro q' b'
      by_cases same : q' = q
      · subst same
        cases b' with
        | false =>
            simp [ends₁]
            rfl
        | true => simp [ends₁]
      · simp [ends₁, same]
    · intro q' b'
      rw [opens]
      by_cases same : q' = q <;> cases b' <;> simp [opened₁, same]
  · refine ⟨_, _, _, lpsPipeNew_taken linked toRange isFree, rfl, ?_⟩
    have grown : Linked ends opened { w with made := w.made + 1 + 1 } :=
      { linked with
        bound := fun live => Nat.lt_add_right 2 (linked.bound live)
        slotBound := fun slot => Nat.lt_add_right 2 (linked.slotBound slot)
        endBound := fun isEnd => Nat.lt_add_right 2 (linked.endBound isEnd) }
    refine grown.forgetEnds unused ?_ ?_
    · intro q' b'
      by_cases same : q' = q
      · subst same
        simp
      · simp [same]
    · intro q' b' other
      rw [opens, if_neg other]

end FdWorld

end Lps.Linux

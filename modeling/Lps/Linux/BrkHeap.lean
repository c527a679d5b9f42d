import Lps.Core.BoxResult
import Lps.Linux.BrkWindow

/-!
# The heap below the break

`sys_brk` never unmaps.  A heap that grows is mapped from the page behind the old break on,
or from the base when it was empty, and what it maps reaches at least to the new break; so all
pages below the break stay mapped, and those below the old break keep their contents.
-/

namespace Lps.Linux

open Lps.Core Lps.Program Lps.Transition

namespace LPSProc

variable {p p' : LPSProc} {addr value : Word} {os : Os} {h h' : OsMem} {q : Nat}

/-- The break, as a number. -/
def heapEnd (p : LPSProc) : Nat := p.brkbase.toNat + p.brksize.toNat

/-- A byte of the page lies below the break. -/
def HeapPage (p : LPSProc) (q : Nat) : Prop :=
  p.brkbase.toNat ≤ 4096 * q ∧ 4096 * q < p.heapEnd

/-- The pages below the break are readable and writable. -/
def HeapBacked (p : LPSProc) (h : OsMem) : Prop :=
  ∀ q, p.HeapPage q → ∃ page, h.page q = some page ∧ page.prot = PROT_READ ||| PROT_WRITE

/-- The growth of a heap reaches to the new break and spares the pages of the old heap. -/
theorem Loaded.growth_covers (loaded : p.Loaded) {newsize : Word} (grows : p.brksize < newsize)
    (bounded : newsize < p.opts.brksize) :
    (p.HeapPage q → ¬InPages (p.growth newsize).1 (p.growth newsize).2 q) ∧
      (p.brkbase.toNat ≤ 4096 * q → 4096 * q < p.brkbase.toNat + newsize.toNat →
        p.HeapPage q ∨ InPages (p.growth newsize).1 (p.growth newsize).2 q) := by
  have fits := loaded.paged.fits
  have below := loaded.window.2
  have brk_mod := loaded.brk_mod
  have base_mod := loaded.paged.base_mod
  have size_mod := loaded.paged.size_mod
  have current : (p.brkbase + p.brksize).toNat = p.brkbase.toNat + p.brksize.toNat := by
    bv_omega
  have ceil := ceilp_page_toNat (p.brkbase + p.brksize)
  rw [BitVec.lt_def] at grows bounded
  rw [current] at ceil
  simp only [HeapPage, heapEnd, InPages, hostPages, growth]
  split
  · rename_i empty
    have none : p.brksize.toNat = 0 := by
      rw [empty]
      rfl
    dsimp only
    constructor <;> omega
  · have difference : (newsize - p.brksize).toNat = newsize.toNat - p.brksize.toNat := by
      bv_omega
    dsimp only
    rw [ceil, difference]
    constructor <;> omega

/-- `sys_brk` spares the pages of the heap. -/
theorem Loaded.sysBrk_spares (loaded : p.Loaded) :
    (sysBrk p addr).Meets (sparing p.HeapPage) fun (_, p') => p.Keeps p' := by
  refine sysBrk_meets loaded (fun _ _ => trivial) ?_
  intro _ grows bounded
  apply LPSBox.mayMapat_sparing loaded.paged.toOk
  exact fun q mem => (loaded.growth_covers grows bounded).1 mem

/-- `sys_brk` fails and keeps the break, or returns the new break, below which every page is
one of the old heap or newly mapped. -/
theorem Loaded.sysBrk_returns (loaded : p.Loaded)
    (returns : (sysBrk p addr).Returns os.answer h (value, p') h') :
    value = -1 ∧ p'.brksize = p.brksize ∨
      value.toNat = p'.heapEnd ∧ ∀ q, p'.HeapPage q → p.HeapPage q ∨
        ∃ page, h'.page q = some page ∧ page.prot = PROT_READ ||| PROT_WRITE := by
  have fits := loaded.paged.fits
  have windowBelow := loaded.window.2
  have brk := loaded.brk
  have size := loaded.newsize_toNat addr
  have bounds := loaded.brkp_bounds addr
  rw [sysBrk] at returns
  split at returns
  · cases returns
    exact .inl ⟨rfl, rfl⟩
  simp only [Prog.returns_bind, Prog.returns_check, decide_eq_true_eq] at returns
  obtain ⟨_, _, ⟨bounded, rfl⟩, returns⟩ := returns
  have newBreak : (p.brkbase + (p.brkp addr - p.brkbase)).toNat =
      p.brkbase.toNat + (p.brkp addr - p.brkbase).toNat := by
    bv_omega
  split at returns
  · rename_i same
    cases returns
    refine .inr ⟨?_, fun q mem => .inl mem⟩
    rw [heapEnd, ← same]
    omega
  split at returns
  · rename_i moves above
    have grows : p.brksize < p.brkp addr - p.brkbase := by
      bv_omega
    simp only [Prog.returns_bind] at returns
    obtain ⟨⟨map, box⟩, middle, mapped, rest⟩ := returns
    by_cases failed : map = -1
    · rw [if_pos failed] at rest
      cases rest
      exact .inl ⟨rfl, rfl⟩
    · rw [if_neg failed] at rest
      cases rest
      have made := (lpsBoxMapat_mapped loaded.paged.toOk failed mapped).2
      refine .inr ⟨newBreak, fun q mem => ?_⟩
      rcases (loaded.growth_covers grows bounded).2 mem.1 mem.2 with old | new
      · exact .inl old
      · exact .inr ⟨_, made q new, rfl⟩
  · rename_i below
    have shrinks : (p.brkp addr - p.brkbase).toNat ≤ p.brksize.toNat := by
      bv_omega
    cases returns
    refine .inr ⟨newBreak, fun q mem => .inl ⟨mem.1, ?_⟩⟩
    exact mem.2.trans_le (Nat.add_le_add_left shrinks _)

/-- The pages below the break stay mapped. -/
theorem Loaded.sysBrk_backed (loaded : p.Loaded) (backed : p.HeapBacked h)
    (returns : (sysBrk p addr).Returns os.answer h (value, p') h') : p'.HeapBacked h' := by
  have keeps := loaded.sysBrk_spares.returns (fun _ _ => trivial) returns
  have same := unchanged_of_sparing loaded.sysBrk_spares returns
  have old : ∀ q, p.HeapPage q →
      ∃ page, h'.page q = some page ∧ page.prot = PROT_READ ||| PROT_WRITE := by
    intro q mem
    rw [(same q mem).page]
    exact backed q mem
  intro q mem
  rcases loaded.sysBrk_returns returns with ⟨-, kept⟩ | ⟨-, pages⟩
  · apply old
    rwa [HeapPage, heapEnd, keeps.brkbase, kept] at mem
  · exact (pages q mem).elim (old q) id

/-- A process that was started has an empty heap. -/
theorem Started.brksize {box : LPSBoxInfo} {opts : LPSLinuxOpts} (started : Started box opts p) :
    p.brksize = 0 := by
  have load : ∀ {p : LPSProc} {buf : Buf},
      (p.procLoad buf).Meets loading fun result => result.1 = true → result.2.brksize = 0 := by
    intro p buf
    rw [procLoad, Prog.meets_bind]
    apply (Prog.meets_permitted (fun _ => trivial) fun _ => trivial).mono
    rintro ⟨info, target⟩ -
    cases info with
    | none => rintro ⟨⟩
    | some info =>
        rw [Prog.meets_bind]
        exact (Prog.meets_permitted (fun _ => trivial) fun _ => trivial).mono fun _ _ _ => rfl
  have stack : ∀ {p : LPSProc}, p.mapStack.Meets loading fun result => result.2.brksize = p.brksize := by
    intro p
    rw [mapStack, stackMapat, Prog.meets_bind, Prog.meets_bind]
    exact (Prog.meets_permitted (fun _ => trivial) fun _ => trivial).mono fun _ _ => rfl
  cases started with
  | mk loadRefuses stackRefuses loaded stacked =>
      rw [stack.run_ok stackRefuses [] _ (congrArg Prod.snd stacked)]
      exact load.run_ok loadRefuses [] _ (congrArg Prod.snd loaded) rfl

end LPSProc

/-! ## Runs -/

namespace MemWorld

/-- The system calls of the run are `sys_brk` calls. -/
def OnlyBrk : MemWorld → WorldEvent → Prop
  | _, .syscall call _ => ∃ addr, call = .brk addr
  | _, .threadNew _ => False
  | _, _ => True

/-- What a `sys_brk` call that does not fail returns is a break in the window of the process;
below it all pages are readable and writable, and what was below both breaks is the same. -/
def HeapKept (p : LPSProc) (done : MemDone) : Prop :=
  ∀ addr, done.call = .brk addr → done.value ≠ -1 →
    (p.brkbase.toNat ≤ done.value.toNat ∧
      done.value.toNat ≤ p.brkbase.toNat + p.opts.brksize.toNat) ∧
    (∀ a, p.brkbase.toNat ≤ a → a < done.value.toNat →
      ∃ page, done.after.host.page (a / 4096) = some page ∧
        page.prot = PROT_READ ||| PROT_WRITE) ∧
    ∀ a, p.brkbase.toNat ≤ a → a < min done.before.proc.heapEnd done.value.toNat →
      done.after.host.byte a = done.before.host.byte a

instance : ∀ call : MemCall, Decidable (∃ addr, call = .brk addr)
  | .brk addr => isTrue ⟨addr, rfl⟩
  | .mmap .. => isFalse (by rintro ⟨_, ⟨⟩⟩)
  | .mprotect .. => isFalse (by rintro ⟨_, ⟨⟩⟩)
  | .munmap .. => isFalse (by rintro ⟨_, ⟨⟩⟩)

instance : ∀ w event, Decidable (OnlyBrk w event)
  | _, .syscall call _ => inferInstanceAs (Decidable (∃ addr, call = .brk addr))
  | _, .threadNew _ => inferInstanceAs (Decidable False)
  | _, .assign _ _ => inferInstanceAs (Decidable True)
  | _, .store _ => inferInstanceAs (Decidable True)

/-- A call on a heap that is backed keeps it backed, and keeps what is below both breaks. -/
theorem step_keeps_heap {w w' : MemWorld} {event : WorldEvent} {observed : List MemDone}
    (loaded : w.proc.Loaded) (backed : w.proc.HeapBacked w.host) (only : OnlyBrk w event)
    (stepped : step w event = some (w', observed)) :
    w'.proc.HeapBacked w'.host ∧ ∀ done ∈ observed, HeapKept w.proc done := by
  cases event with
  | syscall call os =>
      obtain ⟨addr, rfl⟩ := only
      obtain ⟨value, returns, rfl⟩ := step_syscall stepped
      have stillBacked := @LPSProc.Loaded.sysBrk_backed _ _ _ _ _ w.entered _ loaded backed returns
      refine ⟨stillBacked, fun done mem addr' isBrk works => ?_⟩
      rw [List.mem_singleton.mp mem] at works ⊢
      dsimp only at works ⊢
      have keeps := loaded.sysBrk_spares.returns (fun _ _ => trivial) returns
      have same := unchanged_of_sparing loaded.sysBrk_spares returns
      have brk := keeps.loaded.brk
      have brk_mod := loaded.brk_mod
      obtain ⟨isBreak, -⟩ := (loaded.sysBrk_returns returns).resolve_left fun failed =>
        works failed.1
      rw [LPSProc.heapEnd, keeps.brkbase] at isBreak
      rw [keeps.opts, BitVec.lt_def] at brk
      refine ⟨⟨by omega, by omega⟩, fun a above below => ?_, fun a above below => ?_⟩
      · apply stillBacked
        rw [LPSProc.HeapPage, LPSProc.heapEnd, keeps.brkbase]
        omega
      · have inHeap : w.proc.HeapPage (a / 4096) := by
          rw [LPSProc.HeapPage]
          omega
        exact (same _ inHeap).byte a rfl
  | threadNew os => exact only.elim
  | assign fd kfd =>
      cases stepped
      exact ⟨backed, fun done mem => absurd mem List.not_mem_nil⟩
  | store bytes =>
      cases stepped
      exact ⟨backed, fun done mem => absurd mem List.not_mem_nil⟩

/-- In every run of `sys_brk` calls of a process that was started, each call that does not
fail backs the heap and keeps its contents. -/
theorem brk_keeps_heap {box : LPSBoxInfo} {opts : LPSLinuxOpts} {w w' : MemWorld}
    {trace : List MemDone} (started : LPSProc.Started box opts w.proc)
    (fits : box.base.toNat + box.size.toNat < 2 ^ 64) (run : Run step OnlyBrk w trace w') :
    ∀ done ∈ trace, HeapKept w.proc done := by
  have empty : w.proc.HeapBacked w.host := by
    intro q mem
    have none := mem.2
    rw [LPSProc.heapEnd, started.brksize] at none
    exact absurd mem.1 (Nat.not_le.mpr none)
  refine run.forall_observed (fun w' => w.proc.Keeps w'.proc ∧ w'.proc.HeapBacked w'.host)
    (HeapKept w.proc) ⟨(started.loaded fits).keeps, empty⟩ ?_
  rintro observed state next event ⟨keeps, backed⟩ only stepped
  obtain ⟨stillBacked, kept⟩ := step_keeps_heap keeps.loaded backed only stepped
  refine ⟨⟨keeps.trans (step_keeps keeps.loaded stepped), stillBacked⟩, fun done mem => ?_⟩
  have same := kept done mem
  rwa [HeapKept, keeps.brkbase, keeps.opts] at same

/-- A host that only takes pages back. -/
def stingyOs : Os where
  memory _ := true
  grants
    | _, .mmap _ _ prot _ _ _ => prot = PROT_NONE
    | _, _ => false
  protects _ := 0
  file _ _ := 0
  image _ := 0

/-- The small process grows its heap by a part of a page, fails to grow it, stores, shrinks it
and grows it again. -/
theorem brk_keeps_heap_small :
    ∃ p trace w', LPSProc.Started smallBox smallOpts p ∧ Run step OnlyBrk ⟨p, bareHost⟩ trace w' ∧
      trace.map (fun done => (done.value, done.after.host.byte 0x101100)) =
        [(0x101801, 0), (-1, 0), (0x101200, 7), (0x103004, 7)] ∧
      ∀ done ∈ trace, HeapKept p done := by
  have seen : small (guarded step OnlyBrk)
      [.syscall (.brk 0x101801) servingOs, .syscall (.brk 0x104000) stingyOs,
        .store (fun a => if a = 0x101100 then 7 else 0), .syscall (.brk 0x101200) servingOs,
        .syscall (.brk 0x103004) servingOs]
      (fun _ trace => trace.map fun done => (done.value, done.after.host.byte 0x101100)) =
      some [(0x101801, 0), (-1, 0), (0x101200, 7), (0x103004, 7)] := by
    decide +kernel
  obtain ⟨p, trace, w', started, executed, shown⟩ := small_exec seen
  have run := run_of_exec_guarded executed
  exact ⟨p, trace, w', started, run, shown,
    @brk_keeps_heap _ _ ⟨p, bareHost⟩ _ _ started (by decide) run⟩

end MemWorld

end Lps.Linux

import Lps.Core.MmapMap

/-!
# Room for a mapping

Over all runs of the tracker: the search for a gap finds free pages unless they lie in front
of the first region, where it never looks, or an empty region divides them.
-/

namespace Lps.Core

open Lps.Program Lps.Interval Lps.Transition

variable {mm : MMAddrSpace} {nodes : List MMNode}

/-- There is room when no region reaches into some pages from the start on. -/
theorem room_iff {limit len start : Nat} (ordered : NodesIn start limit nodes) :
    Room limit len start nodes ↔
      ∃ page, start ≤ page ∧ page + len ≤ limit ∧ NodesOff page (page + len) nodes := by
  induction nodes generalizing start with
  | nil =>
      constructor
      · exact fun room => ⟨start, Nat.le_refl _, room, Clear.nil⟩
      · rintro ⟨page, le, fits, -⟩
        exact (Nat.add_le_add_right le len).trans fits
  | cons node rest ih =>
      obtain ⟨above, proper, below⟩ := ordered
      rw [Room, ih below]
      constructor
      · rintro (here | ⟨page, le, fits, off⟩)
        · have behind : NodesOff start (start + len) rest :=
            fun other mem => .inr ((here.trans proper).trans (below.of_mem mem).1)
          refine ⟨start, Nat.le_refl _, ?_, Clear.cons_iff.mpr ⟨.inr here, behind⟩⟩
          exact here.trans (proper.trans below.bounds)
        · exact ⟨page, (above.trans proper).trans le, fits, Clear.cons_iff.mpr ⟨.inl le, off⟩⟩
      · rintro ⟨page, le, fits, off⟩
        obtain ⟨before | behind, rest⟩ := Clear.cons_iff.mp off
        · exact .inr ⟨page, before, fits, rest⟩
        · exact .inl ((Nat.add_le_add_right le len).trans behind)

namespace MMAddrSpace

/-- The pages from `page` on lie in the address space and in no region. -/
def Unmapped (mm : MMAddrSpace) (page len : Nat) : Prop :=
  mm.base.toNat ≤ page ∧ page + len ≤ mm.base.toNat + mm.len.toNat ∧
    ∀ q, page ≤ q → q < page + len → infoAt mm.nodes q = none

/-- The pages are unmapped, none of them lies in front of the first region, and no empty
region divides them. -/
def Gap (mm : MMAddrSpace) (page len : Nat) : Prop :=
  mm.Unmapped page len ∧ (mm.startAt mm.nodes).toNat ≤ page ∧ NodesOff page (page + len) mm.nodes

/-- There is room when there is a gap. -/
theorem hasRoom_iff {len : Word} (inOrder : mm.InOrder) (pages : mm.mmceil len ≠ 0) :
    mm.HasRoom len ↔ ∃ page, mm.Gap page (mm.mmceil len).toNat := by
  have pos : 0 < (mm.mmceil len).toNat :=
    Nat.pos_of_ne_zero fun zero => pages (BitVec.eq_of_toNat_eq zero)
  obtain ⟨lower, second⟩ := @startAt_spec mm [] mm.nodes _ inOrder.ordered fun _ => rfl
  have base : mm.base.toNat ≤ (mm.startAt mm.nodes).toNat := lower
  rw [HasRoom, room_iff second]
  constructor
  · rintro ⟨page, le, fits, off⟩
    refine ⟨page, ⟨base.trans le, fits, fun q => ?_⟩, le, off⟩
    exact infoAt_of_off off
  · rintro ⟨page, unmapped, le, off⟩
    exact ⟨page, le, unmapped.2.1, off⟩

/-! ## Runs -/

/-- Perform a call. -/
def perform (mm : MMAddrSpace) : MMCall → HostProg (MMObs × MMAddrSpace)
  | .mapany len prot flags fd offset => do
      let (p, mm) ← mm.mmMapany len prot flags fd offset
      return (.address p, mm)
  | .mapat addr length prot flags fd offset ufn => do
      let (p, mm) ← mm.mmMapatCb addr length prot flags fd offset ufn
      return (.address p, mm)
  | .unmap addr length ufn => do
      let (r, mm) ← mm.mmUnmapCb addr length ufn
      return (.result r, mm)

/-- A step of the tracker; there is none when it goes down. -/
def step : Step MMAddrSpace MMEvent MMObs := fun mm event =>
  match ((mm.perform event.call).run event.host []).2 with
  | .ok (seen, mm) => some (mm, [seen])
  | .error _ => none

/-- Every call keeps the regions in order, whatever it asks for. -/
theorem perform_permitted (call : MMCall) (inOrder : mm.InOrder) :
    (mm.perform call).Meets permitted fun (_, mm') => mm.KeepsOrder mm' := by
  have handles : ∀ ufn, HandlesPages mm.p2pagesize permitted ufn fun _ _ => True :=
    handlesPages_all (fun _ => trivial) (fun _ => trivial) mm.p2pagesize
  cases call with
  | mapany len prot flags fd offset =>
      exact (mmMapany_inOrder inOrder trivial).bind fun _ result => result.1
  | mapat addr length prot flags fd offset ufn =>
      have meets := @mmMapatCb_inOrder mm permitted ufn _ addr length prot flags fd offset inOrder
        (handles ufn) trivial (fun _ => covers_all ..) fun _ _ _ => trivial
      exact meets.bind fun _ result => result.1
  | unmap addr length ufn =>
      have meets := @mmUnmapCb_inOrder mm permitted ufn _ addr length inOrder (handles ufn) trivial
        fun _ _ _ => covers_all ..
      exact meets.bind fun _ result => result.1

/-- After every run from `mm_init` the regions are in order. -/
theorem inOrder_of_run {p : Nat} (paged : 0 < p ∧ p < 31) {start size : Word} {trace : List MMObs}
    (run : Run step (Always _ _) (mmInit start size (MMHeap.pageSize p)) trace mm) :
    mm.InOrder := by
  refine run.stateInvariant InOrder (MMHeap.init_sound paged start size).inOrder ?_
  intro observed state next event inOrder _ stepped
  rw [step] at stepped
  split at stepped
  · rename_i seen last returned
    cases stepped
    exact ((perform_permitted event.call inOrder).run_ok (fun _ _ => trivial) [] _ returned).inOrder
  · cases stepped

/-- `mm_mapany` succeeds when there is a gap, and only then. -/
theorem mmMapany_succeeds_iff {len : Word} {prot flags : CInt} {fd : Int} {offset : Word}
    (inOrder : mm.InOrder) (pages : mm.mmceil len ≠ 0) {host : Prog.Host HostCall HostReply}
    (memory : ∀ made, host made .malloc = true) (made : List HostCall) :
    (∃ q mm', q ≠ -1 ∧ ((mm.mmMapany len prot flags fd offset).run host made).2 = .ok (q, mm')) ↔
      ∃ page, mm.Gap page (mm.mmceil len).toNat := by
  rw [← hasRoom_iff inOrder pages]
  have replies : ∀ made c, serving.replies c (host made c) := by
    intro made c
    cases c with
    | malloc => exact memory made
    | _ => trivial
  obtain ⟨⟨q, mm'⟩, returned, -, result⟩ := (@mmMapany_inOrder mm serving len prot flags fd offset
    inOrder trivial).run_returns replies (fun _ => id) made
  rcases result with ⟨rfl, rfl, none⟩ | ⟨page, rfl, -, some⟩
  · refine iff_of_false ?_ (none pages Bool.false_ne_true)
    rintro ⟨q, mm'', found, returned'⟩
    rw [returned] at returned'
    cases returned'
    exact found rfl
  · exact iff_of_true ⟨_, _, shiftLeft_ne_neg_one inOrder.paged.1, returned⟩ (some pages)

/-- In every state a run reaches, `mm_mapany` finds free pages whenever there are some, if
and only if some of them form a gap. -/
theorem mapany_finds_iff {p : Nat} (paged : 0 < p ∧ p < 31) {start size : Word} {trace : List MMObs}
    (run : Run step (Always _ _) (mmInit start size (MMHeap.pageSize p)) trace mm) {len : Word}
    {prot flags : CInt} {fd : Int} {offset : Word} (pages : mm.mmceil len ≠ 0)
    {host : Prog.Host HostCall HostReply} (memory : ∀ made, host made .malloc = true)
    (made : List HostCall) :
    ((∃ page, mm.Unmapped page (mm.mmceil len).toNat) →
        ∃ q mm', q ≠ -1 ∧ ((mm.mmMapany len prot flags fd offset).run host made).2 = .ok (q, mm')) ↔
      ((∃ page, mm.Unmapped page (mm.mmceil len).toNat) →
        ∃ page, mm.Gap page (mm.mmceil len).toNat) := by
  rw [mmMapany_succeeds_iff (inOrder_of_run paged run) pages memory made]

/-- The pages of the space are all mapped in three calls, two of them are freed in front of the
cursor, and some behind it are mapped again. -/
def freedInFront : List MMEvent :=
  [.mapat 0x100000 0x4000 3 0x22 (-1) 0 noUpdate, .mapat 0x104000 0x4000 3 0x22 (-1) 0 noUpdate,
    .mapany 0x8000 3 0x22 (-1) 0, .unmap 0x104000 0x2000 noUpdate,
    .mapat 0x10c000 0x2000 1 0x22 (-1) 0 noUpdate].map fun call => ⟨call, MMHeap.servingHost⟩

/-- The regions that are left. -/
def fiveRegions : List MMNode :=
  [⟨0, 0x100, 4, ⟨3, 0x22, -1, 0, false⟩⟩, ⟨5, 0x106, 2, ⟨3, 0x22, -1, 0, false⟩⟩,
    ⟨4, 0x108, 4, ⟨3, 0x22, -1, 0, false⟩⟩, ⟨6, 0x10c, 2, ⟨1, 0x22, -1, 0, false⟩⟩,
    ⟨7, 0x10e, 2, ⟨3, 0x22, -1, 0, false⟩⟩]

/-- Behind the cursor, which points to the second of the five regions, there is no room left:
the gap in front of it is found from the head. -/
theorem mapany_finds_iff_wrapped :
    ∃ trace, Run step (Always _ _) (mmInit 0x100000 0x10000 (MMHeap.pageSize 12)) trace
        ⟨0x100, 0x10, 12, fiveRegions, some 5, 8⟩ ∧
      ∃ q mm', q ≠ -1 ∧ ((mmMapany ⟨0x100, 0x10, 12, fiveRegions, some 5, 8⟩ 0x2000 3 0x22 (-1)
        0).run MMHeap.servingHost []).2 = .ok (q, mm') := by
  have seen : (exec step (mmInit 0x100000 0x10000 (MMHeap.pageSize 12)) freedInFront).map Prod.fst =
      some ⟨0x100, 0x10, 12, fiveRegions, some 5, 8⟩ := by decide +kernel
  obtain ⟨⟨mm, trace⟩, executed, rfl⟩ := Option.map_eq_some_iff.mp seen
  have run := run_of_exec executed
  have off : NodesOff 0x104 (0x104 + 2) fiveRegions := by
    unfold NodesOff Clear
    decide
  have unmapped : Unmapped ⟨0x100, 0x10, 12, fiveRegions, some 5, 8⟩ 0x104 2 :=
    ⟨by decide, by decide, fun q => infoAt_of_off off⟩
  have iff := @mapany_finds_iff _ 12 ⟨by decide, by decide⟩ 0x100000 0x10000 trace run 0x2000 3
    0x22 (-1) 0 (by decide) MMHeap.servingHost (fun _ => rfl) []
  exact ⟨trace, run, iff.mpr (fun _ => ⟨0x104, unmapped, by decide, off⟩) ⟨0x104, unmapped⟩⟩

/-- A mapping of everything but the first page. -/
def behindFirstPage : MMEvent :=
  ⟨.mapat 0x101000 0xf000 3 0x22 (-1) 0 noUpdate, MMHeap.servingHost⟩

/-- The first page is free, and `mm_mapany` does not find it. -/
theorem mapany_misses_first_page :
    ∃ trace mm, Run step (Always _ _) (mmInit 0x100000 0x10000 (MMHeap.pageSize 12)) trace mm ∧
      mm.Unmapped 0x100 (mm.mmceil 0x1000).toNat ∧
      ¬∃ q mm', q ≠ -1 ∧
        ((mm.mmMapany 0x1000 3 0x22 (-1) 0).run MMHeap.servingHost []).2 = .ok (q, mm') := by
  have seen : (exec step (mmInit 0x100000 0x10000 (MMHeap.pageSize 12)) [behindFirstPage]).map
      Prod.fst = some ⟨0x100, 0x10, 12, [⟨0, 0x101, 0xf, ⟨3, 0x22, -1, 0, false⟩⟩], none, 2⟩ := by
    decide +kernel
  obtain ⟨⟨mm, trace⟩, executed, rfl⟩ := Option.map_eq_some_iff.mp seen
  refine ⟨trace, _, run_of_exec executed, ⟨by decide, by decide, fun q above below => ?_⟩, ?_⟩
  · obtain rfl : q = 0x100 := Nat.le_antisymm (Nat.le_of_lt_succ below) above
    rfl
  · rintro ⟨q, mm', found, returned⟩
    cases returned
    exact found rfl

end MMAddrSpace

end Lps.Core

import Lps.Core.Bound
import Lps.Core.Reserve
import Mathlib.Order.Interval.Set.Disjoint
import Lps.Transition.Run

/-!
# The engine

An engine makes boxes in its reservation, takes them back, and makes contexts
whose DASICS bounds cover the box they belong to.  The addresses one sandbox may
use are never addresses of another one.
-/

namespace Lps.Core

open Lps.Transition

/-- `struct LPSEngine`. -/
structure LPSEngine where
  bm : BoxMap
  boxsize : Word

/-- `lps_new`; `none` when it returns `NULL`. -/
def lpsNew (host : HostMem) (boxsize nsandboxes : Word) (beyond : BitVector)
    (s : host.State) : Option (LPSEngine × host.State) := do
  let (bm, s) ← boxmapReserve host ⟨[], boxsize⟩ (nsandboxes * boxsize) beyond s
  some (⟨bm, boxsize⟩, s)

/-- What `mm_init` returns, on its only path. -/
def mmInitDone : Bool := true

/-- `lps_box_new`; `memory` tells whether `malloc` finds memory for the box, which is `none` when
`NULL` is returned. -/
def lpsBoxNew (engine : LPSEngine) (memory : Bool) : Option (Option LPSBoxInfo × LPSEngine) := do
  if !memory then return (none, engine)
  let size := engine.boxsize
  let (base, bm) ← boxmapAddspace engine.bm size
  if base = 0 then return (none, { engine with bm := bm })
  if !mmInitDone then
    let bm ← boxmapRmspace bm base size
    return (none, { engine with bm := bm })
  return (some ⟨base, size⟩, { engine with bm := bm })

@[simp]
theorem lpsBoxNew_false {engine : LPSEngine} : lpsBoxNew engine false = some (none, engine) := rfl

/-- A tracker can always be made for the box. -/
theorem lpsBoxNew_true {engine : LPSEngine} :
    lpsBoxNew engine true = (boxmapAddspace engine.bm engine.boxsize).map fun (base, bm) =>
      (if base = 0 then none else some ⟨base, engine.boxsize⟩, { engine with bm := bm }) := by
  cases added : boxmapAddspace engine.bm engine.boxsize with
  | none => simp [lpsBoxNew, added]
  | some result =>
      simp only [lpsBoxNew, added, mmInitDone, Bool.not_true, Bool.false_eq_true, if_false,
        Option.bind_eq_bind, Option.bind_some, Option.map_some]
      split <;> rfl

/-- Boxes are numbered in the order they are made. -/
abbrev BoxId := Nat

/-- What `struct LPSContext` says about the memory the context may use. -/
structure LPSContext where
  box : BoxId
  info : LPSBoxInfo
  bounds : BoundRegs

/-- `lps_ctx_new`. -/
def lpsCtxNew (id : BoxId) (box : LPSBoxInfo) : LPSContext where
  box := id
  info := box
  bounds := boundBox .zero box.base (box.base + box.size)

/-- `lps_thread_new`; `stackMapped` tells whether `lps_box_mapat` gave it a stack. -/
def lpsThreadNew (id : BoxId) (box : LPSBoxInfo) (stackMapped : Bool) : Option LPSContext :=
  let ctx := lpsCtxNew id box
  if stackMapped then
    some { ctx with bounds := boundBox ctx.bounds box.base (box.base + box.size) }
  else none

/-- An engine with its live boxes and the contexts made so far. -/
structure Sandboxes where
  engine : LPSEngine
  made : BoxId
  boxes : BoxId → Option LPSBoxInfo
  ctxs : List LPSContext

/-- The calls of the engine's user, with what the host answers; contexts are made for live boxes. -/
inductive EngineCall
  | boxNew (memory : Bool)
  | boxRelease (id : BoxId)
  | ctxNew (id : BoxId)
  | threadNew (id : BoxId) (stackMapped : Bool)

namespace Sandboxes

/-- Right after `lps_new`. -/
def start (engine : LPSEngine) : Sandboxes where
  engine := engine
  made := 0
  boxes := fun _ => none
  ctxs := []

/-- One call. -/
def step : Step Sandboxes EngineCall Empty := fun s call =>
  match call with
  | .boxNew memory => do
      let (box, engine) ← lpsBoxNew s.engine memory
      some ({ s with
        engine := engine
        made := s.made + 1
        boxes := Function.update s.boxes s.made box }, [])
  | .boxRelease id => do
      let box ← s.boxes id
      let bm ← boxmapRmspace s.engine.bm box.base box.size
      let engine := { s.engine with bm := bm }
      some ({ s with engine := engine, boxes := Function.update s.boxes id none }, [])
  | .ctxNew id => do
      let box ← s.boxes id
      some ({ s with ctxs := lpsCtxNew id box :: s.ctxs }, [])
  | .threadNew id stackMapped => do
      let box ← s.boxes id
      some ({ s with ctxs := (lpsThreadNew id box stackMapped).toList ++ s.ctxs }, [])

end Sandboxes

/-! ## Confined contexts -/

/-- The bounds of a context cover its own box, which does not wrap. -/
structure LPSContext.Confined (ctx : LPSContext) : Prop where
  fits : ctx.info.base.toNat + ctx.info.size.toNat < 2 ^ 64
  covers : ctx.bounds.Covers ctx.info.base (ctx.info.base + ctx.info.size)

/-- The window from a box's base to its end is the box. -/
theorem window_box {box : LPSBoxInfo} (fits : box.base.toNat + box.size.toNat < 2 ^ 64) :
    window (box.base, box.base + box.size) = box.bytes := by
  rw [window, LPSBoxInfo.bytes, bytesAt]
  congr 1
  bv_omega

namespace LPSContext.Confined

variable {ctx : LPSContext}

/-- Every enabled window of the context is its box. -/
theorem windows (confined : ctx.Confined) :
    (∀ idx, ctx.bounds.memEnabled idx = true →
      window (ctx.bounds.membound idx) ⊆ ctx.info.bytes) ∧
    (∀ idx, ctx.bounds.jmpEnabled idx = true →
      window (ctx.bounds.jmpbound idx) ⊆ ctx.info.bytes) := by
  obtain ⟨mem, jmp⟩ := confined.covers.window_eq
  rw [window_box confined.fits] at mem jmp
  constructor
  · intro idx enabled
    rw [mem idx enabled]
  · intro idx enabled
    rw [jmp idx enabled]

theorem mem_of_admits (confined : ctx.Confined) {addr : Nat} (admits : ctx.bounds.Admits addr) :
    addr ∈ ctx.info.bytes := by
  rcases admits with ⟨idx, enabled, inside⟩ | ⟨idx, enabled, inside⟩
  · exact confined.windows.1 idx enabled inside
  · exact confined.windows.2 idx enabled inside

/-- The enabled bounds of a context admit every address of its box and no other one. -/
theorem admits_iff (confined : ctx.Confined) {addr : Nat} :
    ctx.bounds.Admits addr ↔ addr ∈ ctx.info.bytes := by
  constructor
  · exact confined.mem_of_admits
  · intro inside
    refine .inl ⟨0, ?_, ?_⟩
    · rw [BoundRegs.memEnabled, confined.covers.memcfg]
      decide
    · rw [confined.covers.membound, window_box confined.fits]
      exact inside

end LPSContext.Confined

theorem lpsCtxNew_confined {box : LPSBoxInfo}
    (fits : box.base.toNat + box.size.toNat < 2 ^ 64) (id : BoxId) :
    (lpsCtxNew id box).Confined :=
  ⟨fits, boundBox_zero ..⟩

theorem lpsThreadNew_confined {box : LPSBoxInfo}
    (fits : box.base.toNat + box.size.toNat < 2 ^ 64) {id : BoxId} {stackMapped : Bool}
    {ctx : LPSContext} (created : lpsThreadNew id box stackMapped = some ctx) :
    ctx.Confined := by
  simp only [lpsThreadNew] at created
  split at created
  · simp only [Option.some.injEq] at created
    subst created
    exact ⟨fits, (lpsCtxNew_confined fits id).covers.boundBox⟩
  · contradiction

/-! ## Isolation -/

/-- Live boxes are chunks in use, no two the same one, and contexts are confined. -/
structure Sandboxes.Isolated (reservedNow : Set Nat) (chunk : Word) (s : Sandboxes) : Prop where
  boxsize : s.engine.boxsize = chunk
  map : s.engine.bm.Ok reservedNow chunk
  used : ∀ id box, s.boxes id = some box →
    box.size = chunk ∧ Used s.engine.bm.regions box.base.toNat
  fresh : ∀ id, s.made ≤ id → s.boxes id = none
  distinct : ∀ id id' box box', s.boxes id = some box → s.boxes id' = some box' →
    box.base = box'.base → id = id'
  confined : ∀ ctx ∈ s.ctxs, ctx.Confined

/-- The shape of the regions decides whether a box map is well formed. -/
theorem BoxMap.Ok.same {reservedNow : Set Nat} {chunk : Word} {map map' : BoxMap}
    (ok : map.Ok reservedNow chunk) (chunksize : map'.chunksize = map.chunksize)
    (same : List.Forall₂ AddrRegion.Same map.regions map'.regions) :
    map'.Ok reservedNow chunk where
  chunksize := chunksize.trans ok.chunksize
  regions := ok.regions.same same
  inside := by
    intro r mem
    obtain ⟨r₀, mem₀, same₀⟩ := exists_same same mem
    rw [same₀.bytes]
    exact ok.inside r₀ mem₀

namespace Sandboxes.Isolated

variable {reservedNow : Set Nat} {chunk : Word} {s s' : Sandboxes} {id id' : BoxId}
  {box box' : LPSBoxInfo} {call : EngineCall} {observed : List Empty}

/-- A live box lies in one region, at a multiple of the box size. -/
theorem of_live (isolated : s.Isolated reservedNow chunk) (live : s.boxes id = some box) :
    chunk.toNat ∣ box.base.toNat ∧ box.base.toNat + box.size.toNat ≤ 2 ^ 63 ∧
    ∃ r ∈ s.engine.bm.regions, box.bytes ⊆ r.bytes := by
  obtain ⟨size, r, mem, holds⟩ := isolated.used id box live
  have ok := isolated.map.regions.each r mem
  obtain ⟨aligned, above, below⟩ := ok.of_holds holds
  have bound := ok.bound
  rw [size]
  refine ⟨aligned, by omega, r, mem, ?_⟩
  intro a inside
  simp only [LPSBoxInfo.bytes, AddrRegion.bytes, bytesAt, Set.mem_Ico, size] at inside ⊢
  omega

theorem fits (isolated : s.Isolated reservedNow chunk) (live : s.boxes id = some box) :
    box.base.toNat + box.size.toNat < 2 ^ 64 := by
  have := (isolated.of_live live).2.1
  omega

/-- Two live boxes do not overlap: they are different multiples of the box size. -/
theorem disjoint (isolated : s.Isolated reservedNow chunk) (live : s.boxes id = some box)
    (live' : s.boxes id' = some box') (ne : id ≠ id') : Disjoint box.bytes box'.bytes := by
  obtain ⟨⟨k, atK⟩, _⟩ := isolated.of_live live
  obtain ⟨⟨k', atK'⟩, _⟩ := isolated.of_live live'
  have size := (isolated.used id box live).1
  have size' := (isolated.used id' box' live').1
  have apart : k ≠ k' := by
    rintro rfl
    apply ne
    exact isolated.distinct id id' box box' live live'
      (BitVec.eq_of_toNat_eq (atK.trans atK'.symm))
  rw [Set.disjoint_left]
  intro a inside inside'
  simp only [LPSBoxInfo.bytes, bytesAt, Set.mem_Ico, size, size', atK, atK'] at inside inside'
  have pos : 0 < chunk.toNat := by omega
  rcases Nat.lt_or_gt_of_ne apart with lt | gt
  · have := Nat.mul_le_mul_left chunk.toNat lt
    rw [Nat.mul_succ] at this
    omega
  · have := Nat.mul_le_mul_left chunk.toNat gt
    rw [Nat.mul_succ] at this
    omega

/-- When no box is made there are the same boxes. -/
theorem boxes_none (isolated : s.Isolated reservedNow chunk) :
    Function.update s.boxes s.made none = s.boxes :=
  Function.update_eq_self_iff.mpr (isolated.fresh s.made (Nat.le_refl _)).symm

/-- `lps_box_new` without memory for the box. -/
theorem boxNew_false (isolated : s.Isolated reservedNow chunk) :
    Sandboxes.step s (.boxNew false) = some ({ s with made := s.made + 1 }, []) ∧
      Sandboxes.Isolated reservedNow chunk { s with made := s.made + 1 } := by
  constructor
  · simp only [Sandboxes.step, lpsBoxNew_false, Option.bind_eq_bind, Option.bind_some, isolated.boxes_none]
  · exact { isolated with fresh := fun id later => isolated.fresh id (Nat.le_of_succ_le later) }

/-- `lps_box_new` keeps boxes apart: what it hands out was not in use. -/
theorem boxNew_true (isolated : s.Isolated reservedNow chunk)
    (stepped : Sandboxes.step s (.boxNew true) = some (s', observed)) :
    s'.Isolated reservedNow chunk := by
  simp only [Sandboxes.step, lpsBoxNew_true, Option.map_eq_some_iff, Option.bind_eq_bind,
    Option.bind_eq_some_iff, Prod.exists, Option.some.injEq, Prod.mk.injEq] at stepped
  obtain ⟨created, engine, ⟨base, bm, added, rfl, rfl⟩, rfl, _⟩ := stepped
  rw [isolated.boxsize] at added
  obtain ⟨chunksize, same, kept, fresh⟩ := boxmapAddspace_spec isolated.map.regions added
  -- Every box of the new state is an old one or the new one.
  have cases_box : ∀ id box,
      Function.update s.boxes s.made (if base = 0 then none else some ⟨base, s.engine.boxsize⟩)
        id = some box →
      (s.boxes id = some box ∧ id ≠ s.made) ∨
        (id = s.made ∧ base ≠ 0 ∧ box = ⟨base, s.engine.boxsize⟩) := by
    intro id box isBox
    by_cases new : id = s.made
    · rw [new, Function.update_self] at isBox
      split at isBox
      · contradiction
      · rename_i nonzero
        exact .inr ⟨new, nonzero, (Option.some.inj isBox).symm⟩
    · rw [Function.update_of_ne new] at isBox
      exact .inl ⟨isBox, new⟩
  have unused : base ≠ 0 → ¬Used s.engine.bm.regions base.toNat ∧ Used bm.regions base.toNat :=
    fun nonzero => fresh.resolve_left nonzero
  refine ⟨isolated.boxsize, isolated.map.same chunksize same, ?_, ?_, ?_, isolated.confined⟩
  · intro id box isBox
    rcases cases_box id box isBox with ⟨live, _⟩ | ⟨_, nonzero, rfl⟩
    · exact ⟨(isolated.used id box live).1, kept _ (isolated.used id box live).2⟩
    · exact ⟨isolated.boxsize, (unused nonzero).2⟩
  · intro id later
    have ne : id ≠ s.made := Nat.ne_of_gt later
    simp only [Function.update_of_ne ne]
    exact isolated.fresh id (Nat.le_of_succ_le later)
  · intro id id' box box' isBox isBox' sameBase
    rcases cases_box id box isBox with ⟨live, _⟩ | ⟨isNew, nonzero, rfl⟩ <;>
      rcases cases_box id' box' isBox' with ⟨live', _⟩ | ⟨isNew', nonzero', rfl⟩
    · exact isolated.distinct id id' box box' live live' sameBase
    · have := (isolated.used id box live).2
      rw [sameBase] at this
      exact absurd this (unused nonzero').1
    · have := (isolated.used id' box' live').2
      rw [← sameBase] at this
      exact absurd this (unused nonzero).1
    · exact isNew.trans isNew'.symm

theorem boxNew {memory : Bool} (isolated : s.Isolated reservedNow chunk)
    (stepped : Sandboxes.step s (.boxNew memory) = some (s', observed)) :
    s'.Isolated reservedNow chunk := by
  cases memory with
  | false =>
      obtain ⟨made, isolated'⟩ := isolated.boxNew_false
      rw [made] at stepped
      cases stepped
      exact isolated'
  | true => exact isolated.boxNew_true stepped

/-- Releasing a live box frees its chunk and no other. -/
theorem boxRelease (isolated : s.Isolated reservedNow chunk)
    (stepped : Sandboxes.step s (.boxRelease id) = some (s', observed)) :
    s'.Isolated reservedNow chunk := by
  simp only [Sandboxes.step, Option.bind_eq_bind, Option.bind_eq_some_iff, Option.some.injEq,
    Prod.mk.injEq] at stepped
  obtain ⟨box, live, bm, removed, rfl, _⟩ := stepped
  rw [(isolated.used id box live).1] at removed
  obtain ⟨chunksize, same, kept⟩ :=
    boxmapRmspace_spec isolated.map.regions (isolated.of_live live).1 removed
  have cases_box : ∀ other box', Function.update s.boxes id none other = some box' →
      s.boxes other = some box' ∧ other ≠ id := by
    intro other box' isBox
    by_cases gone : other = id
    · rw [gone, Function.update_self] at isBox
      contradiction
    · rw [Function.update_of_ne gone] at isBox
      exact ⟨isBox, gone⟩
  refine ⟨isolated.boxsize, isolated.map.same chunksize same, ?_, ?_, ?_, isolated.confined⟩
  · intro other box' isBox
    obtain ⟨live', ne⟩ := cases_box other box' isBox
    refine ⟨(isolated.used other box' live').1,
      kept _ ?_ (isolated.used other box' live').2⟩
    intro sameBase
    exact ne (isolated.distinct other id box' box live' live (BitVec.eq_of_toNat_eq sameBase))
  · intro other later
    by_cases gone : other = id
    · rw [gone]
      exact Function.update_self ..
    · simp only [Function.update_of_ne gone]
      exact isolated.fresh other later
  · intro other other' box₁ box₂ isBox isBox' sameBase
    exact isolated.distinct other other' box₁ box₂ (cases_box other box₁ isBox).1
      (cases_box other' box₂ isBox').1 sameBase

/-- New contexts are confined to their live box. -/
theorem addCtxs (isolated : s.Isolated reservedNow chunk) {ctxs : List LPSContext}
    (confined : ∀ ctx ∈ ctxs, ctx.Confined) :
    Sandboxes.Isolated reservedNow chunk { s with ctxs := ctxs ++ s.ctxs } where
  boxsize := isolated.boxsize
  map := isolated.map
  used := isolated.used
  fresh := isolated.fresh
  distinct := isolated.distinct
  confined := by
    intro ctx mem
    rcases List.mem_append.mp mem with new | old
    · exact confined ctx new
    · exact isolated.confined ctx old

/-- Every call keeps the sandboxes isolated. -/
theorem step (isolated : s.Isolated reservedNow chunk)
    (stepped : Sandboxes.step s call = some (s', observed)) : s'.Isolated reservedNow chunk := by
  cases call with
  | boxNew memory => exact isolated.boxNew stepped
  | boxRelease id => exact isolated.boxRelease stepped
  | ctxNew id =>
      simp only [Sandboxes.step, Option.bind_eq_bind, Option.bind_eq_some_iff,
        Option.some.injEq, Prod.mk.injEq] at stepped
      obtain ⟨box, live, rfl, _⟩ := stepped
      have new : ∀ ctx ∈ [lpsCtxNew id box], ctx.Confined := by
        simpa using lpsCtxNew_confined (isolated.fits live) id
      exact isolated.addCtxs new
  | threadNew id stackMapped =>
      simp only [Sandboxes.step, Option.bind_eq_bind, Option.bind_eq_some_iff,
        Option.some.injEq, Prod.mk.injEq] at stepped
      obtain ⟨box, live, rfl, _⟩ := stepped
      refine isolated.addCtxs ?_
      intro ctx mem
      exact lpsThreadNew_confined (isolated.fits live) (by simpa using mem)

end Sandboxes.Isolated

/-- A new engine has no boxes, and its regions lie in the reserved addresses. -/
theorem lpsNew_isolated {host : HostMem} {reserved : host.State → Set Nat} {userTop : Nat}
    {boxsize nsandboxes : Word} {beyond : BitVector} {s₀ s₁ : host.State} {engine : LPSEngine}
    (lawful : host.Lawful reserved userTop) (pos : 0 < boxsize.toNat)
    (created : lpsNew host boxsize nsandboxes beyond s₀ = some (engine, s₁)) :
    (Sandboxes.start engine).Isolated (reserved s₁) boxsize := by
  simp only [lpsNew, Option.bind_eq_bind, Option.bind_eq_some_iff, Prod.exists,
    Option.some.injEq, Prod.mk.injEq] at created
  obtain ⟨bm, s₂, reservation, rfl, rfl⟩ := created
  exact {
    boxsize := rfl
    map := boxmapReserve_ok lawful pos reservation
    used := by simp [Sandboxes.start]
    fresh := by simp [Sandboxes.start]
    distinct := by simp [Sandboxes.start]
    confined := by simp [Sandboxes.start] }

/-- Live boxes of one engine are disjoint parts of its reservation, every enabled
bound of a context stays in the context's own box, and neither a bound nor
`lps_box_ptrvalid` of one live sandbox admits an address of another one. -/
theorem sandboxes_isolated {host : HostMem} {reserved : host.State → Set Nat} {userTop : Nat}
    {boxsize nsandboxes : Word} {beyond : BitVector} {s₀ s₁ : host.State} {engine : LPSEngine}
    {trace : List Empty} {s : Sandboxes}
    (lawful : host.Lawful reserved userTop) (pos : 0 < boxsize.toNat)
    (created : lpsNew host boxsize nsandboxes beyond s₀ = some (engine, s₁))
    (run : Run Sandboxes.step (Always _ _) (Sandboxes.start engine) trace s) :
    (∀ id id' box box', s.boxes id = some box → s.boxes id' = some box' → id ≠ id' →
      Disjoint box.bytes box'.bytes) ∧
    (∀ id box, s.boxes id = some box →
      box.base.toNat + box.size.toNat < 2 ^ 64 ∧
      ∃ r ∈ s.engine.bm.regions, box.bytes ⊆ r.bytes ∧ r.bytes ⊆ reserved s₁) ∧
    (∀ ctx ∈ s.ctxs,
      (∀ idx, ctx.bounds.memEnabled idx = true →
        window (ctx.bounds.membound idx) ⊆ ctx.info.bytes) ∧
      (∀ idx, ctx.bounds.jmpEnabled idx = true →
        window (ctx.bounds.jmpbound idx) ⊆ ctx.info.bytes)) ∧
    (∀ ctx ∈ s.ctxs, s.boxes ctx.box = some ctx.info → ∀ addr, ctx.bounds.Admits addr →
      ∀ id box, s.boxes id = some box → id ≠ ctx.box → addr ∉ box.bytes) ∧
    (∀ id box, s.boxes id = some box → ∀ addr, lpsBoxPtrvalid box addr = true →
      ∀ id' box', s.boxes id' = some box' → id' ≠ id → addr.toNat ∉ box'.bytes) := by
  have isolated : s.Isolated (reserved s₁) boxsize :=
    run.stateInvariant (fun s => s.Isolated (reserved s₁) boxsize)
      (lpsNew_isolated lawful pos created) fun isolated _ stepped => isolated.step stepped
  refine ⟨?_, ?_, ?_, ?_, ?_⟩
  · intro id id' box box' live live' ne
    exact isolated.disjoint live live' ne
  · intro id box live
    obtain ⟨_, _, r, mem, inside⟩ := isolated.of_live live
    exact ⟨isolated.fits live, r, mem, inside, isolated.map.inside r mem⟩
  · intro ctx mem
    exact (isolated.confined ctx mem).windows
  · intro ctx mem live addr admits id box live' ne inside
    have inOwn := (isolated.confined ctx mem).mem_of_admits admits
    exact Set.disjoint_left.mp (isolated.disjoint live live' ne.symm) inOwn inside
  · intro id box live addr valid id' box' live' ne inside
    have inOwn : addr.toNat ∈ box.bytes :=
      (@lpsBoxPtrvalid_iff ⟨box, (isolated.fits live).le⟩ addr).mp valid |>.1
    exact Set.disjoint_left.mp (isolated.disjoint live live' ne.symm) inOwn inside

/-- A host that hands out whole pages one after the other, from page `next` on. -/
def pageMmap (next : Nat) (size : Word) : Option Word × Nat :=
  if size.toNat % 4096 = 0 ∧ 4096 * next + size.toNat ≤ 2 ^ 47 then
    (some (BitVec.ofNat 64 (4096 * next)), next + size.toNat / 4096)
  else (none, next)

/-- Fixed mappings on that host. -/
def pageMmapFixed (next : Nat) (addr len : Word) : Bool × Nat :=
  (decide (0 < len.toNat ∧ addr.toNat + len.toNat ≤ 2 ^ 47), next)

def pageHost : HostMem where
  State := Nat
  mmap := pageMmap
  mmapFixed := pageMmapFixed

/-- The page host behaves as `mmap` is documented. -/
theorem pageHost_lawful :
    pageHost.Lawful (fun next : Nat => Set.Ico 0 (4096 * next)) (2 ^ 47) where
  userTop_le := by decide
  mmap_some := by
    intro (next : Nat) (next' : Nat) size base (granted : pageMmap next size = (some base, next'))
    simp only [pageMmap] at granted
    split at granted
    · rename_i fits
      simp only [Prod.mk.injEq, Option.some.injEq] at granted
      obtain ⟨rfl, rfl⟩ := granted
      have address : (BitVec.ofNat 64 (4096 * next)).toNat = 4096 * next := by
        rw [BitVec.toNat_ofNat]
        omega
      have extended : 4096 * (next + size.toNat / 4096) = 4096 * next + size.toNat := by
        omega
      rw [bytesAt, address, extended]
      exact ⟨Nat.dvd_mul_right .., fits.2, Disjoint.symm Set.Ico_disjoint_Ico_same,
        (Set.Ico_union_Ico_eq_Ico (Nat.zero_le _) (Nat.le_add_right ..)).symm⟩
    · simp at granted
  mmap_none := by
    intro (next : Nat) (next' : Nat) size (refused : pageMmap next size = (none, next'))
    simp only [pageMmap] at refused
    split at refused
    · simp at refused
    · simp only [Prod.mk.injEq, true_and] at refused
      rw [refused]
  mmapFixed := by
    intro (next : Nat) (next' : Nat) addr len ok (mapped : pageMmapFixed next addr len = (ok, next'))
    simp only [pageMmapFixed, Prod.mk.injEq] at mapped
    obtain ⟨rfl, rfl⟩ := mapped
    exact ⟨rfl, of_decide_eq_true⟩

/-- Two boxes of an engine for two. -/
theorem sandboxes_isolated_two_boxes :
    ∃ engine s₁ trace s box box',
      lpsNew pageHost 0x10000 2 (fun _ => 0) (16 : Nat) = some (engine, s₁) ∧
      Run Sandboxes.step (Always _ _) (Sandboxes.start engine) trace s ∧
      s.boxes 0 = some box ∧ s.boxes 1 = some box' ∧ Disjoint box.bytes box'.bytes := by
  have seen : ((lpsNew pageHost 0x10000 2 (fun _ => 0) (16 : Nat)).bind fun created =>
      (exec Sandboxes.step (Sandboxes.start created.1) [.boxNew true, .boxNew true, .ctxNew 0]).map
        fun result => (result.1.boxes 0, result.1.boxes 1)) =
      some (some ⟨0x10000, 0x10000⟩, some ⟨0x20000, 0x10000⟩) := by
    decide +kernel
  obtain ⟨⟨engine, s₁⟩, created, seen⟩ := Option.bind_eq_some_iff.mp seen
  obtain ⟨⟨s, trace⟩, executed, seen⟩ := Option.map_eq_some_iff.mp seen
  simp only [Prod.mk.injEq] at seen
  have run := run_of_exec executed
  exact ⟨engine, s₁, trace, s, _, _, created, run, seen.1, seen.2,
    (sandboxes_isolated pageHost_lawful (by decide) created run).1 0 1 _ _ seen.1 seen.2
      (by decide)⟩

end Lps.Core

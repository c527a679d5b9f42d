import Lps.Core.Capacity
import Lps.Core.Spaces

/-!
# No chunk is lost

Over any history of boxes made and released, the live boxes and the free chunks together
are the chunks that the engine reserved.  So a box is refused just when all of the
reservation is in live boxes, and a release makes room for another one.
-/

namespace Lps.Core

open Lps.Transition

/-! ## Giving a chunk back -/

section Regions

variable {chunk : Word} {r : AddrRegion} {before rest regions : List AddrRegion} {map : BoxMap}
  {box : LPSBoxInfo}

theorem freeChunks_middle :
    freeChunks (before ++ r :: rest) = freeChunks before + r.free.card + freeChunks rest := by
  simp only [freeChunks, List.map_append, List.map_cons, List.sum_append, List.sum_cons]
  omega

/-- Clearing the bit of a chunk in use frees this chunk. -/
theorem AddrRegion.free_clear {idx : Nat} (lt : idx < r.alloc.size.toNat) {active : Word} :
    AddrRegion.free { r with
      active := active
      alloc := { r.alloc with bitvec := bitvecSet r.alloc.bitvec idx false 1 } } =
        insert idx r.free := by
  ext i
  rw [Finset.mem_insert, mem_free, mem_free, bit_eq_zero_iff, bit_eq_zero_iff, Ne,
    bit_bitvecSet_one]
  by_cases same : i = idx
  · simp [same, lt]
  · simp [same]

/-- `boxmap_rmspace` of a chunk in use succeeds, and one more chunk is free after it. -/
theorem boxmapRmspace_frees (ok : RegionsOk chunk map.regions) (size : box.size = chunk)
    (used : Used map.regions box.base.toNat) :
    ∃ map', boxmapRmspace map box.base box.size = some map' ∧
      freeChunks map'.regions = freeChunks map.regions + 1 := by
  obtain ⟨r, mem, idx, lt, address, one⟩ := used
  obtain ⟨before, rest, split⟩ := List.append_of_mem mem
  have okRegion := ok.each r mem
  have lends : r.LendsAt ⟨box.base, box.size⟩ idx 1 := by
    refine ⟨Nat.one_pos, lt, address, ?_, ?_⟩
    · rw [okRegion.chunksize, size, Nat.one_mul]
    · intro j inside
      rw [Nat.lt_one_iff.mp inside]
      exact one
  refine ⟨_, boxmapRmspace_eq ok split lends, ?_⟩
  have inUse : idx ∉ r.free := by
    intro free
    rw [AddrRegion.mem_free, bit_eq_zero_iff] at free
    exact free.2 one
  rw [split, freeChunks_middle, freeChunks_middle, AddrRegion.free_clear lt,
    Finset.card_insert_of_notMem inUse]
  omega

/-- All chunks of reserved regions are free. -/
theorem BoxMap.Reserved.unused {host : HostMem} {reserved : host.State → Set Nat} {userTop : Nat}
    {s : host.State} (lawful : host.Lawful reserved userTop) (pos : 0 < chunk.toNat)
    (made : BoxMap.Reserved host chunk map s) :
    ∀ r ∈ map.regions, r.free = Finset.range r.alloc.size.toNat := by
  induction made with
  | new s => exact fun r mem => absurd mem List.not_mem_nil
  | asked _ _ ih => exact ih
  | refused _ _ ih => exact ih
  | added made asked added ih =>
      have ok := (made.ok lawful pos).1
      have bound := (reserve_spec lawful asked).1
      obtain ⟨_, _, r, regions, trimmed, _⟩ :=
        addregion_spec lawful (ok.chunksize ▸ pos) bound added
      rw [regions]
      intro q mem
      rcases List.mem_append.mp mem with old | new
      · exact ih q old
      · rw [List.mem_singleton.mp new]
        exact trimmed.free

/-- Regions without a chunk in use have as many free chunks as fit. -/
theorem freeChunks_unused (ok : RegionsOk chunk regions) (pos : 0 < chunk.toNat)
    (unused : ∀ r ∈ regions, r.free = Finset.range r.alloc.size.toNat) :
    freeChunks regions = regionBytes regions / chunk.toNat := by
  symm
  apply Nat.div_eq_of_eq_mul_left pos
  induction regions with
  | nil => simp [freeChunks, regionBytes]
  | cons r rest ih =>
      have others := ih ok.tail fun s mem => unused s (List.mem_cons_of_mem _ mem)
      have own : r.size.toNat = r.free.card * chunk.toNat := by
        rw [unused r List.mem_cons_self, Finset.card_range]
        exact (ok.each r List.mem_cons_self).size
      have cons : regionBytes (r :: rest) = r.size.toNat + regionBytes rest := by
        simp [regionBytes]
      rw [cons, own, others, freeChunks_cons, Nat.add_mul]

end Regions

/-! ## Live boxes -/

namespace Sandboxes

/-- The boxes made and not released yet. -/
def live (s : Sandboxes) : Finset BoxId :=
  (Finset.range s.made).filter fun id => (s.boxes id).isSome

variable {reservedNow : Set Nat} {chunk : Word} {room : Nat} {s s' : Sandboxes} {id : BoxId}
  {call : EngineCall} {observed : List Empty}

theorem Isolated.mem_live (isolated : s.Isolated reservedNow chunk) :
    id ∈ s.live ↔ (s.boxes id).isSome := by
  rw [live, Finset.mem_filter, Finset.mem_range]
  constructor
  · exact And.right
  · intro there
    refine ⟨?_, there⟩
    by_contra later
    rw [isolated.fresh id (Nat.le_of_not_lt later)] at there
    contradiction

/-- The live boxes and the free chunks together are `room`, and no region starts at
address zero, where a box would count as none. -/
structure Balanced (reservedNow : Set Nat) (chunk : Word) (room : Nat) (s : Sandboxes) :
    Prop where
  isolated : s.Isolated reservedNow chunk
  nonzero : ∀ r ∈ s.engine.bm.regions, r.base ≠ 0
  balance : s.live.card + freeChunks s.engine.bm.regions = room

namespace Balanced

theorem engine_ok (balanced : s.Balanced reservedNow chunk room) (page : 4096 ≤ chunk.toNat) :
    s.engine.Ok := by
  have boxsize := balanced.isolated.boxsize
  exact ⟨boxsize ▸ page, boxsize ▸ balanced.isolated.map.regions⟩

/-- A call that leaves the regions and the live boxes alone. -/
theorem keep (balanced : s.Balanced reservedNow chunk room)
    (isolated : s'.Isolated reservedNow chunk) (engine : s'.engine = s.engine)
    (live : s'.live = s.live) : s'.Balanced reservedNow chunk room where
  isolated := isolated
  nonzero := engine ▸ balanced.nonzero
  balance := by rw [engine, live, balanced.balance]

/-- Without memory for the box, or when no chunk is free, `lps_box_new` returns `NULL`. -/
theorem boxNew_null (balanced : s.Balanced reservedNow chunk room) {memory : Bool}
    (none : ¬(memory = true ∧ s.live.card < room)) :
    ∃ s', Sandboxes.step s (.boxNew memory) = some (s', []) ∧ s'.Balanced reservedNow chunk room ∧
      (s'.boxes s.made).isSome = false ∧ s'.live = s.live := by
  have balance := balanced.balance
  have unmade := balanced.isolated.fresh _ (Nat.le_refl s.made)
  have stepped : Sandboxes.step s (.boxNew memory) = some ({ s with made := s.made + 1 }, []) := by
    cases memory with
    | false => exact balanced.isolated.boxNew_false.1
    | true =>
        have full : freeChunks s.engine.bm.regions = 0 := by
          by_contra some
          exact none ⟨rfl, by omega⟩
        simp only [Sandboxes.step, LPSEngine.Ok.boxNew_full full, Option.bind_eq_bind, Option.bind_some,
          balanced.isolated.boxes_none]
  have isolated := balanced.isolated.step stepped
  have same : Sandboxes.live { s with made := s.made + 1 } = s.live := by
    ext id
    rw [isolated.mem_live, balanced.isolated.mem_live]
  refine ⟨_, stepped, balanced.keep isolated rfl same, ?_, same⟩
  rw [unmade]
  rfl

/-- With memory for the box and a free chunk, `lps_box_new` makes a box. -/
theorem boxNew_some (balanced : s.Balanced reservedNow chunk room) (page : 4096 ≤ chunk.toNat)
    (few : s.live.card < room) :
    ∃ s', Sandboxes.step s (.boxNew true) = some (s', []) ∧ s'.Balanced reservedNow chunk room ∧
      (s'.boxes s.made).isSome = true ∧ s'.live = insert s.made s.live := by
  have balance := balanced.balance
  have unmade : s.made ∉ s.live := by
    rw [balanced.isolated.mem_live, balanced.isolated.fresh _ (Nat.le_refl _)]
    exact Bool.false_ne_true
  have ok := balanced.engine_ok page
  obtain ⟨addr, engine, called, _, fewer, same, r, mem, idx, free, _, address⟩ :=
    ok.boxNew (by omega)
  have notZero : addr ≠ 0 := by
    rintro rfl
    have inside := (ok.regions.each r mem).slot_le (AddrRegion.mem_free.mp free).1
    apply balanced.nonzero r mem
    apply BitVec.eq_of_toNat_eq
    rw [← address] at inside
    exact Nat.le_zero.mp inside.1
  rw [if_neg notZero] at called
  have stepped : Sandboxes.step s (.boxNew true) = some ({ s with
      engine := engine
      made := s.made + 1
      boxes := Function.update s.boxes s.made (some ⟨addr, s.engine.boxsize⟩) }, []) := by
    simp only [Sandboxes.step, called, Option.bind_eq_bind, Option.bind_some]
  have isolated := balanced.isolated.step stepped
  have live : Sandboxes.live { s with
      engine := engine
      made := s.made + 1
      boxes := Function.update s.boxes s.made (some ⟨addr, s.engine.boxsize⟩) } =
        insert s.made s.live := by
    ext id
    rw [isolated.mem_live, Finset.mem_insert, balanced.isolated.mem_live]
    by_cases new : id = s.made
    · simp [new]
    · simp [new]
  refine ⟨_, stepped, ⟨isolated, ?_, ?_⟩, ?_, live⟩
  · intro q memQ
    obtain ⟨q₀, mem₀, same₀⟩ := exists_same same memQ
    rw [same₀.base]
    exact balanced.nonzero q₀ mem₀
  · rw [live, Finset.card_insert_of_notMem unmade]
    dsimp only
    omega
  · dsimp only
    rw [Function.update_self]
    rfl

/-- `lps_box_new` always returns: a box when there is memory for it and a chunk is free, and otherwise
`NULL`. -/
theorem boxNew (balanced : s.Balanced reservedNow chunk room) (page : 4096 ≤ chunk.toNat)
    (memory : Bool) :
    ∃ s', Sandboxes.step s (.boxNew memory) = some (s', []) ∧ s'.Balanced reservedNow chunk room ∧
      ((s'.boxes s.made).isSome ↔ memory = true ∧ s.live.card < room) ∧
      s'.live = if memory = true ∧ s.live.card < room then insert s.made s.live else s.live := by
  by_cases goes : memory = true ∧ s.live.card < room
  · obtain ⟨rfl, few⟩ := goes
    obtain ⟨s', stepped, balanced', made, live⟩ := balanced.boxNew_some page few
    rw [if_pos ⟨rfl, few⟩]
    exact ⟨s', stepped, balanced', iff_of_true made ⟨rfl, few⟩, live⟩
  · obtain ⟨s', stepped, balanced', none, live⟩ := balanced.boxNew_null goes
    rw [if_neg goes]
    exact ⟨s', stepped, balanced', iff_of_false (none ▸ Bool.false_ne_true) goes, live⟩

/-- Releasing a live box always succeeds, and gives its chunk back. -/
theorem boxRelease (balanced : s.Balanced reservedNow chunk room) (there : id ∈ s.live) :
    ∃ s', Sandboxes.step s (.boxRelease id) = some (s', []) ∧
      s'.Balanced reservedNow chunk room ∧ s'.live = s.live.erase id := by
  have balance := balanced.balance
  have pos := Finset.card_pos.mpr ⟨id, there⟩
  obtain ⟨box, isBox⟩ := Option.isSome_iff_exists.mp (balanced.isolated.mem_live.mp there)
  obtain ⟨size, used⟩ := balanced.isolated.used id box isBox
  have regions := balanced.isolated.map.regions
  obtain ⟨bm, removed, more⟩ := boxmapRmspace_frees regions size used
  have stepped : Sandboxes.step s (.boxRelease id) = some ({ s with
      engine := { s.engine with bm := bm }
      boxes := Function.update s.boxes id none }, []) := by
    simp only [Sandboxes.step, isBox, removed, Option.bind_eq_bind, Option.bind_some]
  have isolated := balanced.isolated.step stepped
  have live : Sandboxes.live { s with
      engine := { s.engine with bm := bm }
      boxes := Function.update s.boxes id none } = s.live.erase id := by
    ext other
    rw [isolated.mem_live, Finset.mem_erase, balanced.isolated.mem_live]
    by_cases gone : other = id
    · simp [gone]
    · simp [gone]
  rw [size] at removed
  have same := (boxmapRmspace_spec regions (balanced.isolated.of_live isBox).1 removed).2.1
  refine ⟨_, stepped, ⟨isolated, ?_, ?_⟩, live⟩
  · intro q memQ
    obtain ⟨q₀, mem₀, same₀⟩ := exists_same same memQ
    rw [same₀.base]
    exact balanced.nonzero q₀ mem₀
  · rw [live, Finset.card_erase_of_mem there]
    dsimp only
    omega

/-- Every call keeps the balance. -/
theorem step (balanced : s.Balanced reservedNow chunk room) (page : 4096 ≤ chunk.toNat)
    (stepped : Sandboxes.step s call = some (s', observed)) :
    s'.Balanced reservedNow chunk room := by
  have isolated := balanced.isolated.step stepped
  cases call with
  | boxNew memory =>
      obtain ⟨s₁, stepped₁, after, _⟩ := balanced.boxNew page memory
      rw [stepped₁] at stepped
      cases stepped
      exact after
  | boxRelease id =>
      have there : id ∈ s.live := by
        rw [balanced.isolated.mem_live]
        by_contra gone
        simp [Sandboxes.step, Option.not_isSome_iff_eq_none.mp gone] at stepped
      obtain ⟨s₁, stepped₁, after, _⟩ := balanced.boxRelease there
      rw [stepped₁] at stepped
      cases stepped
      exact after
  | ctxNew id =>
      simp only [Sandboxes.step, Option.bind_eq_bind, Option.bind_eq_some_iff,
        Option.some.injEq, Prod.mk.injEq] at stepped
      obtain ⟨box, _, rfl, _⟩ := stepped
      exact balanced.keep isolated rfl rfl
  | threadNew id stackMapped =>
      simp only [Sandboxes.step, Option.bind_eq_bind, Option.bind_eq_some_iff,
        Option.some.injEq, Prod.mk.injEq] at stepped
      obtain ⟨box, _, rfl, _⟩ := stepped
      exact balanced.keep isolated rfl rfl

end Balanced

end Sandboxes

/-! ## All histories of an engine -/

section Histories

variable {host : HostMem} {reserved : host.State → Set Nat} {userTop : Nat}
  {boxsize nsandboxes : Word} {beyond : BitVector} {s₀ s₁ : host.State} {engine : LPSEngine}

/-- A new engine has all of its reservation free. -/
theorem lpsNew_unused (lawful : host.Lawful reserved userTop) (page : 4096 ≤ boxsize.toNat)
    (created : lpsNew host boxsize nsandboxes beyond s₀ = some (engine, s₁)) :
    freeChunks engine.bm.regions = regionBytes engine.bm.regions / boxsize.toNat := by
  have pos : 0 < boxsize.toNat := by omega
  have regions := (lpsNew_isolated lawful pos created).map.regions
  apply freeChunks_unused regions pos
  simp only [lpsNew, Option.bind_eq_bind, Option.bind_eq_some_iff, Prod.exists,
    Option.some.injEq, Prod.mk.injEq] at created
  obtain ⟨bm, s₂, reservation, rfl, rfl⟩ := created
  exact (BoxMap.Reserved.reserve (.new _) reservation).unused lawful pos

/-- However boxes were made and released: the live boxes and the free chunks add up to the
chunks of the regions; the next `lps_box_new` returns, with a box exactly when there is memory
for it and fewer boxes are live than there are chunks; and each live box can be released. -/
theorem boxes_balance {trace : List Empty} {s : Sandboxes}
    (lawful : host.Lawful reserved userTop) (page : 4096 ≤ boxsize.toNat)
    (created : lpsNew host boxsize nsandboxes beyond s₀ = some (engine, s₁))
    (elsewhere : ∀ r ∈ engine.bm.regions, r.base ≠ 0)
    (run : Run Sandboxes.step (Always _ _) (Sandboxes.start engine) trace s) :
    s.live.card + freeChunks s.engine.bm.regions =
      regionBytes engine.bm.regions / boxsize.toNat ∧
    (∀ memory, ∃ s', Sandboxes.step s (.boxNew memory) = some (s', []) ∧
      ((s'.boxes s.made).isSome ↔
        memory = true ∧ s.live.card < regionBytes engine.bm.regions / boxsize.toNat) ∧
      s'.live = if memory = true ∧ s.live.card < regionBytes engine.bm.regions / boxsize.toNat then
        insert s.made s.live else s.live) ∧
    ∀ id ∈ s.live, ∃ s', Sandboxes.step s (.boxRelease id) = some (s', []) ∧
      s'.live = s.live.erase id := by
  have balanced : s.Balanced (reserved s₁) boxsize
      (regionBytes engine.bm.regions / boxsize.toNat) := by
    apply run.stateInvariant (fun s => s.Balanced (reserved s₁) boxsize
      (regionBytes engine.bm.regions / boxsize.toNat))
    · refine ⟨lpsNew_isolated lawful (by omega) created, elsewhere, ?_⟩
      rw [← lpsNew_unused lawful page created]
      simp [Sandboxes.live, Sandboxes.start]
    · exact fun balanced _ stepped => balanced.step page stepped
  refine ⟨balanced.balance, ?_, ?_⟩
  · intro memory
    obtain ⟨s', stepped, _, made, live⟩ := balanced.boxNew page memory
    exact ⟨s', stepped, made, live⟩
  · intro id there
    obtain ⟨s', stepped, _, live⟩ := balanced.boxRelease there
    exact ⟨s', stepped, live⟩

/-- An engine for two boxes: a call without memory makes none, both are made, the first is
released, and there is room for a third one. -/
theorem boxes_balance_two_chunks :
    ∃ engine s₁ trace s,
      lpsNew pageHost 0x10000 2 (fun _ => 0) (16 : Nat) = some (engine, s₁) ∧
      Run Sandboxes.step (Always _ _) (Sandboxes.start engine) trace s ∧ s.made = 3 ∧
      s.live.card = 1 ∧ ∃ s', Sandboxes.step s (.boxNew true) = some (s', []) ∧
        (s'.boxes 3).isSome := by
  have seen : ((lpsNew pageHost 0x10000 2 (fun _ => 0) (16 : Nat)).bind fun created =>
      (exec Sandboxes.step (Sandboxes.start created.1)
        [.boxNew true, .boxNew false, .boxNew true, .boxRelease 0]).map
        fun result => (created.1.bm.regions.map fun r => (r.base, r.size), result.1.made,
          (List.range 3).filter fun id => (result.1.boxes id).isSome)) =
      some ([(0x10000, 0x20000)], 3, [2]) := by
    decide +kernel
  obtain ⟨⟨engine, s₁⟩, created, seen⟩ := Option.bind_eq_some_iff.mp seen
  obtain ⟨⟨s, trace⟩, executed, seen⟩ := Option.map_eq_some_iff.mp seen
  simp only [Prod.mk.injEq] at seen
  obtain ⟨shape, made, boxes⟩ := seen
  have live : s.live = {2} := by
    ext id
    have mem : id ∈ (List.range 3).filter (fun id => (s.boxes id).isSome) ↔ id ∈ [2] := by
      rw [boxes]
    rw [Sandboxes.live, made, Finset.mem_filter, Finset.mem_range, Finset.mem_singleton]
    rw [List.mem_filter, List.mem_range, List.mem_singleton] at mem
    exact mem
  have elsewhere : ∀ r ∈ engine.bm.regions, r.base ≠ 0 := by
    intro r mem zero
    have pair : (r.base, r.size) ∈ engine.bm.regions.map fun r => (r.base, r.size) :=
      List.mem_map_of_mem mem
    rw [shape, List.mem_singleton, Prod.mk.injEq, zero] at pair
    exact absurd pair.1 (by decide)
  have capacity : regionBytes engine.bm.regions = 0x20000 := by
    have bytes : engine.bm.regions.map (fun r => r.size.toNat) = [0x20000] := by
      have := congrArg (List.map fun pair : Word × Word => pair.2.toNat) shape
      simpa using this
    rw [regionBytes, bytes]
    rfl
  have run := run_of_exec executed
  obtain ⟨_, next, _⟩ := boxes_balance pageHost_lawful (by decide) created elsewhere run
  obtain ⟨s', stepped, there, _⟩ := next true
  refine ⟨engine, s₁, trace, s, created, run, made, by rw [live]; rfl, s', stepped, ?_⟩
  rw [made] at there
  apply there.mpr
  rw [live, capacity]
  exact ⟨rfl, by decide⟩

end Histories

end Lps.Core

import Lps.Core.MmapHeapSpec
import Lps.Transition.Run

/-!
# Runs of the mapping tracker

From `mm_init` on, whatever is mapped and unmapped while there is memory, the list of the
tracker stays well formed, and no operation goes down but in the callback it was given.
-/

namespace Lps.Core

open Lps.Program Lps.Linked Lps.Interval Lps.Transition

/-- A call of the tracker, with lengths in bytes. -/
inductive MMCall
  | mapany (len : Word) (prot flags : CInt) (fd : Int) (offset : Word)
  | mapat (addr length : Word) (prot flags : CInt) (fd : Int) (offset : Word) (ufn : UpdateFn)
  | unmap (addr length : Word) (ufn : UpdateFn)

/-- The length of the range a call asks for. -/
def MMCall.length : MMCall → Word
  | .mapany len .. => len
  | .mapat _ length .. => length
  | .unmap _ length _ => length

/-- What a caller sees of the tracker. -/
inductive MMObs
  | address (p : Word)
  | result (r : Int)
  | down (reason : ListFault)
  deriving DecidableEq

/-- A call and the host it is made on. -/
structure MMEvent where
  call : MMCall
  host : Prog.Host HostCall HostReply

/-- There is memory. -/
def MMEvent.Served (event : MMEvent) : Prop := ∀ made, event.host made .malloc = true

namespace MMHeap

/-- Perform a call. -/
def perform (h : MMHeap) : MMCall → ListProg (MMObs × MMHeap)
  | .mapany len prot flags fd offset => do
      let (p, h) ← h.mmMapany len prot flags fd offset
      return (.address p, h)
  | .mapat addr length prot flags fd offset ufn => do
      let (p, h) ← h.mmMapatCb addr length prot flags fd offset ufn
      return (.address p, h)
  | .unmap addr length ufn => do
      let (r, h) ← h.mmUnmapCb addr length ufn
      return (.result r, h)

/-- A step of the tracker; there is none after it has gone down. -/
def step : Step (Option MMHeap) MMEvent MMObs
  | none, _ => none
  | some h, event =>
      match ((h.perform event.call).run event.host []).2 with
      | .ok (seen, h) => some (some h, [seen])
      | .error reason => some (none, [.down reason])

/-- The call asks for at least one page. -/
def AsksPages (state : Option MMHeap) (event : MMEvent) : Prop :=
  ∀ h ∈ state, h.space.mmceil event.call.length ≠ 0

/-- The list of the tracker is well formed and consists of these nodes. -/
structure Proper (h : MMHeap) (nodes : List MMNode) : Prop where
  /-- The pointers link the nodes, from a null pointer to a null pointer. -/
  listed : h.links.Listed (nodes.map MMNode.id)
  head : h.links.head = (nodes.map MMNode.id).head?
  inverse : ∀ a ∈ nodes.map MMNode.id, ∀ b ∈ nodes.map MMNode.id,
    h.links.next a = some b ↔ h.links.prev b = some a
  /-- No node has been freed. -/
  allocated : ∀ node ∈ nodes, h.node node.id = some node
  sorted : nodes.Pairwise fun node later => node.base < later.base
  disjoint : nodes.Pairwise fun node later => node.behind ≤ later.first
  nonempty : ∀ node ∈ nodes, 0 < node.len.toNat
  inside : ∀ node ∈ nodes,
    h.base.toNat ≤ node.first ∧ node.behind ≤ h.base.toNat + h.len.toNat
  cursor : ∀ id ∈ h.cursor, id ∈ nodes.map MMNode.id

/-- The memory stands for a sound tracker. -/
def Sound (h : MMHeap) : Prop := ∃ mm : MMAddrSpace, h.Represents mm ∧ mm.Sound

variable {h : MMHeap}

theorem Sound.proper (sound : h.Sound) : ∃ nodes, h.Proper nodes := by
  obtain ⟨mm, rep, kept⟩ := sound
  have regions := kept.wellFormed.regions
  have pairwise := regions.ordered.pairwise
  refine ⟨mm.nodes, ?_⟩
  constructor
  · exact rep.holds.listed
  · exact rep.holds.listed.head
  · exact fun a mem b mem' => rep.holds.listed.next_eq_iff mem mem'
  · exact rep.holds.node
  · refine pairwise.imp_of_mem ?_
    intro node later mem _ order
    exact (Nat.lt_add_of_pos_right (regions.nonempty node mem)).trans_le order
  · exact pairwise
  · exact regions.nonempty
  · intro node mem
    obtain ⟨above, -, below⟩ := regions.ordered.of_mem mem
    rw [rep.base, rep.len]
    exact ⟨above, below⟩
  · rw [rep.cursor]
    exact kept.admissible

/-- There is memory, and only callbacks go down. -/
def keeping : Contract HostCall HostReply ListFault where
  replies := serving.replies
  calls _ := True
  faults reason := ∃ fault, reason = .callback fault

/-- What an operation on the list keeps, the operation in memory keeps. -/
theorem keeps_of_simulates {α : Type} {p : ListProg (α × MMHeap)} {q : HostProg (α × MMAddrSpace)}
    (simulates : Prog.Simulates serving.replies callbackOnly Agrees p q)
    (meets : q.Meets served fun (_, mm) => mm.Sound) :
    p.Meets keeping fun (_, h) => h.Sound := by
  have kept := simulates.meets keeping
    (fun _ _ allowed => ⟨allowed, allowed⟩) (fun _ _ => trivial)
    (fun _ _ isCallback _ => ⟨_, isCallback⟩) meets
  refine kept.mono ?_
  rintro ⟨a, h⟩ ⟨⟨b, mm⟩, ⟨-, rep⟩, sound⟩
  exact ⟨mm, rep, sound⟩

/-- Every call keeps the tracker sound. -/
theorem Sound.perform {call : MMCall} (sound : h.Sound) (pages : h.space.mmceil call.length ≠ 0) :
    (h.perform call).Meets keeping fun (seen, h) => (∀ reason, seen ≠ .down reason) ∧ h.Sound := by
  obtain ⟨mm, rep, kept⟩ := sound
  rw [rep.mmceil] at pages
  cases call with
  | mapany len prot flags fd offset =>
      have meets : (mm.mmMapany len prot flags fd offset).Meets served fun result => result.2.Sound := by
        have found := (@MMAddrSpace.mmMapany_serving mm len prot flags fd offset kept pages).mono
          fun _ result => result.2
        exact found.weaken served (fun _ _ allowed => allowed) (fun _ => id) fun _ _ => trivial
      exact (keeps_of_simulates (rep.mmMapany_simulates kept) meets).bind fun _ sound => ⟨by rintro _ ⟨⟩, sound⟩
  | mapat addr length prot flags fd offset ufn =>
      have meets := (@MMAddrSpace.mmMapatCb_sound mm addr length ufn served prot flags fd offset kept
        pages (fun _ => trivial) fun _ => trivial).mono fun _ result => result.1
      exact (keeps_of_simulates (rep.mmMapatCb_simulates kept pages) meets).bind
        fun _ sound => ⟨by rintro _ ⟨⟩, sound⟩
  | unmap addr length ufn =>
      have meets := (@MMAddrSpace.mmUnmapCb_served mm addr length ufn kept pages).mono
        fun _ result => result.1
      exact (keeps_of_simulates (rep.mmUnmapCb_simulates kept) meets).bind fun _ sound => ⟨by rintro _ ⟨⟩, sound⟩

/-- A page size. -/
def pageSize (p : Nat) : Word := BitVec.ofNat 64 (2 ^ p)

theorem getpow_pageSize {p : Nat} (paged : 0 < p ∧ p < 31) : getpow (pageSize p) = p := by
  have small : 2 ^ p < 2 ^ 64 := Nat.pow_lt_pow_right (by decide) (by omega)
  rw [getpow, pageSize, BitVec.toNat_ofNat, Nat.mod_eq_of_lt small, Nat.log_pow (by decide)]

/-- An address space without nodes is sound. -/
theorem init_sound {p : Nat} (paged : 0 < p ∧ p < 31) (start len : Word) :
    (Core.mmInit start len (pageSize p)).Sound := by
  have pages := getpow_pageSize paged
  have lower := @toNat_shiftRight_lt p start (by omega)
  have size := @toNat_shiftRight_lt p len (by omega)
  have small : 2 ^ (64 - p) ≤ 2 ^ 63 := Nat.pow_le_pow_right (by decide) (by omega)
  refine ⟨⟨?_, ?_, ?_, ?_, ?_⟩, ?_⟩
  · simp only [Core.mmInit, pages]
    exact paged
  · simp only [Core.mmInit, pages]
    omega
  · exact ⟨Nat.le_add_right _ _, fun _ mem => absurd mem List.not_mem_nil⟩
  · exact List.nodup_nil
  · exact fun _ mem => absurd mem List.not_mem_nil
  · exact fun _ mem => absurd mem (Option.not_mem_none _)

theorem mmInit_sound {p : Nat} (paged : 0 < p ∧ p < 31) (start len : Word) :
    (mmInit start len (pageSize p)).Sound := by
  refine ⟨Core.mmInit start len (pageSize p), ⟨rfl, rfl, rfl, ?_, rfl, rfl⟩, init_sound paged start len⟩
  exact ⟨Links.listed_nil.mpr rfl, fun _ mem => absurd mem List.not_mem_nil⟩

/-- One step keeps the tracker, or goes down in a callback. -/
theorem Sound.step {event : MMEvent} {next : Option MMHeap} {observed : List MMObs}
    (sound : h.Sound) (pages : AsksPages (some h) event) (memory : event.Served)
    (stepped : MMHeap.step (some h) event = some (next, observed)) :
    (∀ h' ∈ next, h'.Sound) ∧
      ∀ reason, .down reason ∈ observed → ∃ fault, reason = .callback fault := by
  have meets := sound.perform (pages h rfl)
  have replies : ∀ made c, keeping.replies c (event.host made c) := by
    intro made c
    cases c with
    | malloc => exact memory made
    | _ => trivial
  rw [MMHeap.step] at stepped
  split at stepped
  · rename_i seen h' returned
    cases stepped
    obtain ⟨notDown, kept⟩ := meets.run_ok replies [] _ returned
    refine ⟨?_, ?_⟩
    · rintro _ ⟨⟩
      exact kept
    · intro reason mem
      exact absurd (List.mem_singleton.mp mem).symm (notDown reason)
  · rename_i reason down
    cases stepped
    refine ⟨fun _ mem => absurd mem (Option.not_mem_none _), ?_⟩
    intro other mem
    cases List.mem_singleton.mp mem
    exact meets.run_error replies [] _ down

/-- In every run from `mm_init`, while there is memory and every call asks for at least one
page, the list stays well formed and nothing goes down but a callback. -/
theorem tracker_stays_proper {p : Nat} (paged : 0 < p ∧ p < 31) {start len : Word}
    {trace : List MMObs} {target : Option MMHeap}
    (run : Run step (fun state event => AsksPages state event ∧ event.Served)
      (some (mmInit start len (pageSize p))) trace target) :
    (∀ h ∈ target, ∃ nodes, h.Proper nodes) ∧
      ∀ reason, .down reason ∈ trace → ∃ fault, reason = .callback fault := by
  have sound : (∀ h ∈ target, h.Sound) ∧
      ∀ reason, .down reason ∈ trace → ∃ fault, reason = .callback fault := by
    refine run.invariant (fun trace target => (∀ h ∈ target, h.Sound) ∧
      ∀ reason, .down reason ∈ trace → ∃ fault, reason = .callback fault) ⟨?_, ?_⟩ ?_
    · rintro _ ⟨⟩
      exact mmInit_sound paged start len
    · exact fun _ mem => absurd mem List.not_mem_nil
    · intro trace observed state next event held allowed stepped
      cases state with
      | none => cases stepped
      | some h =>
          obtain ⟨kept, fine⟩ := (held.1 h rfl).step allowed.1 allowed.2 stepped
          refine ⟨kept, fun reason mem => ?_⟩
          exact (List.mem_append.mp mem).elim (held.2 reason) (fine reason)
  exact ⟨fun h mem => (sound.1 h mem).proper, sound.2⟩

instance (state : Option MMHeap) (event : MMEvent) : Decidable (AsksPages state event) :=
  inferInstanceAs (Decidable (∀ h ∈ state, _))

/-- A host with memory that maps whatever it is asked to. -/
def servingHost : Prog.Host HostCall HostReply
  | _, .malloc => true
  | _, .mmap addr .. => addr
  | _, .mprotect .. => 0
  | _, .memcpy .. => ()
  | _, .memset .. => ()

/-- Regions are mapped, cut, removed and mapped again. -/
theorem tracker_stays_proper_remapped :
    ∃ trace target, Run step (fun state event => AsksPages state event ∧ event.Served)
        (some (mmInit 0x100000 0x10000 (pageSize 12))) trace target ∧
      trace = [.address 0x100000, .address 0x108000, .result 0, .address 0x105000, .result 0,
        .address 0x10b000] ∧
      (∀ h ∈ target, ∃ nodes, h.Proper nodes) := by
  have seen : (exec (guarded step AsksPages) (some (mmInit 0x100000 0x10000 (pageSize 12)))
      ([.mapany 0x4fff 3 0x22 (-1) 0, .mapat 0x108000 0x3000 3 0x22 (-1) 0 noUpdate,
        .unmap 0x101000 0x1000 noUpdate, .mapat 0x105000 0x4000 1 0x22 (-1) 0 noUpdate,
        .unmap 0x100000 0x3000 noUpdate, .mapany 0x1000 3 0x22 (-1) 0].map
        fun call => ⟨call, servingHost⟩)).map Prod.snd =
      some [.address 0x100000, .address 0x108000, .result 0, .address 0x105000, .result 0,
        .address 0x10b000] := by
    decide +kernel
  obtain ⟨⟨target, trace⟩, executed, rfl⟩ := Option.map_eq_some_iff.mp seen
  have run := @run_of_exec_checked _ _ _ _ _ _ MMEvent.Served _ _ _ _ executed (by
    intro event mem made
    obtain ⟨call, -, rfl⟩ := List.mem_map.mp mem
    rfl)
  exact ⟨_, _, run, rfl, (tracker_stays_proper ⟨by decide, by decide⟩ run).1⟩

end MMHeap

end Lps.Core

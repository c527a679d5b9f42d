import Lps.Linux.FileVec
import Lps.Linux.SysConfine
import Mathlib.Order.CompletePartialOrder
import Mathlib.Order.Interval.Set.Disjoint

/-!
# The entries that `sys_readv` and `sys_writev` examine

The number of entries is multiplied by their size modulo `2 ^ 64`, and this product is what is
checked, allocated and copied, while the loop runs up to the number itself.  To see which entries
the loop examines, every `iov[i]` is a call of its own here.
-/

namespace Lps.Linux

open Lps.Core Lps.Program

/-- What the two calls do to their surroundings, and the entry that is examined. -/
inductive EntryCall
  | vec (c : VecCall)
  | entry (i : Nat)

/-- The answers. -/
abbrev EntryReply : EntryCall → Type
  | .vec c => VecReply c
  | .entry _ => IOVec

abbrev EntryProg := Prog EntryCall EntryReply VecFault

/-- What the two calls do besides. -/
def vecPart : Part VecCall VecReply VecFault EntryCall EntryReply VecFault where
  call := .vec
  reply _ reply := reply
  fault := id

/-- The loop over the entries, `vecLoop`, with `n` entries to go. -/
def examineLoop (one : Nat → IOVec → FileProg Word) : Nat → Nat → Word → EntryProg Word
  | 0, _, total => return total
  | n + 1, i, total => do
      let e ← Prog.ask (EntryCall.entry i)
      let r ← ((one i e).lift (entryPart i)).lift vecPart
      if r.slt 0 then return r
      examineLoop one n (i + 1) (total + r)

/-- `sysVec`. -/
def examineVec (one : Nat → IOVec → FileProg Word) (box : LPSBoxInfo) (iovp iovcnt : Word) :
    EntryProg Word := do
  if bufcheck box iovp (iovcnt * 16) 8 = false then return -LINUX_EINVAL
  let iov ← (copyoutVec box iovp (iovcnt * 16)).lift vecPart
  match iov with
  | none => return -LINUX_ENOMEM
  | some _ =>
      let total ← examineLoop one iovcnt.toNat 0 0
      Prog.ask (EntryCall.vec .free)
      return total

section Calls

variable (d : Nat → Descriptor) (box : LPSBoxInfo)

/-- `sys_readv`. -/
def examineReadv (iovp iovcnt : Word) : EntryProg Word :=
  examineVec (fun i e => (d i).sysRead box e.base e.len) box iovp iovcnt

/-- `sys_writev`. -/
def examineWritev (iovp iovcnt : Word) : EntryProg Word :=
  examineVec (fun i e => (d i).sysWrite box e.base e.len) box iovp iovcnt

end Calls

/-! ## The same calls -/

/-- An entry that is examined is one that was copied. -/
def VecHost.examined (env : VecHost) : Handler EntryCall EntryReply VecLog
  | .vec c, log => env.answer c log
  | .entry i, log => (env.iov i, log)

section Same

variable {env : VecHost} {log : VecLog} {one : Nat → IOVec → FileProg Word} {box : LPSBoxInfo}
  {iovp iovcnt : Word}

theorem VecHost.play_vecPart {α : Type} {p : VecProg α} :
    (p.lift vecPart).play env.examined log = p.play env.answer log := by
  induction p generalizing log with
  | ret value => rfl
  | fault reason => rfl
  | call c next ih => exact ih _

theorem examineLoop_play {n i : Nat} {total : Word} :
    (examineLoop one n i total).play env.examined log =
      (vecLoop one env.iov n i total).play env.answer log := by
  induction n generalizing i total log with
  | zero => rfl
  | succ n ih =>
      rw [vecLoop, Prog.play_bind, ← VecHost.play_vecPart]
      change (((one i (env.iov i)).lift (entryPart i)).lift vecPart >>= fun r =>
        if r.slt 0 then pure r else examineLoop one n (i + 1) (total + r)).play env.examined log = _
      rw [Prog.play_bind]
      split
      · split
        · rfl
        · exact ih
      · rfl

/-- What `copyout` comes to. -/
theorem copyoutVec_play {p size : Word} :
    (copyoutVec box p size).play env.answer log =
      if bufcheck box p size 1 = true then
        (.ok (if env.memory = true then some env.iov else none), log)
      else (.error .copyout, log) := by
  unfold copyoutVec
  cases bufcheck box p size 1 with
  | false => rfl
  | true =>
      rw [if_pos rfl]
      change (if (!env.memory) = true then pure none
        else do
          let iov ← Prog.ask (VecCall.memcpy p size)
          pure (some iov) : VecProg (Option (Nat → IOVec))).play env.answer log = _
      cases env.memory with
      | false => rfl
      | true => rfl

/-- To examine the entries one by one is to read them from the copy. -/
theorem examineVec_play :
    (examineVec one box iovp iovcnt).play env.examined log =
      (sysVec one box iovp iovcnt).play env.answer log := by
  unfold examineVec sysVec
  split
  · rfl
  rw [Prog.play_bind, Prog.play_bind, VecHost.play_vecPart, copyoutVec_play]
  cases bufcheck box iovp (iovcnt * 16) 1 with
  | false => rfl
  | true =>
      cases env.memory with
      | false => rfl
      | true =>
          change (examineLoop one iovcnt.toNat 0 0 >>= fun total => Prog.ask (EntryCall.vec .free) >>=
              fun _ => pure total).play env.examined log =
            (vecLoop one env.iov iovcnt.toNat 0 0 >>= fun total => Prog.ask VecCall.free >>=
              fun _ => pure total).play env.answer log
          rw [Prog.play_bind, Prog.play_bind, examineLoop_play]
          rfl

end Same

/-! ## Where the entries are -/

/-- Memory of this size can be had from `malloc`: it does not wrap around, and is apart from the
box. -/
def Apart (box : LPSBoxInfo) (size : Word) : Prop :=
  ∃ host : Word, host.toNat + size.toNat ≤ 2 ^ 64 ∧ Disjoint (bytesAt host size.toNat) box.bytes

/-- The entry lies in what was copied, and so in the box. -/
structure Copied (box : LPSBoxInfo) (iovp iovcnt : Word) (i : Nat) : Prop where
  inCopy : 16 * i + 16 ≤ (iovcnt * 16).toNat
  inBox : Set.Ico (iovp.toNat + 16 * i) (iovp.toNat + 16 * i + 16) ⊆ box.bytes

/-- A call gets past its checks: the buffer of the entries is accepted, and there is memory. -/
def Passes (host : Prog.Host EntryCall EntryReply) (box : LPSBoxInfo) (iovp iovcnt : Word) : Prop :=
  bufcheck box iovp (iovcnt * 16) 8 = true ∧ host [] (.vec (.malloc (iovcnt * 16))) = true

/-- The entries are within the bounds of their array. -/
structure VecBounded (host : Prog.Host EntryCall EntryReply) (box : LPSBoxInfo) (iovp iovcnt : Word)
    (p : EntryProg Word) : Prop where
  size : Passes host box iovp iovcnt → 16 * iovcnt.toNat = (iovcnt * 16).toNat
  copied : ∀ i, .entry i ∈ (p.run host []).1 → Copied box iovp iovcnt i

/-- The product does not wrap around. -/
theorem sixteen_times_iff {n : Word} : 16 * n.toNat = (n * 16).toNat ↔ n.toNat < 2 ^ 60 := by
  have size : (n * 16).toNat = n.toNat * 16 % 2 ^ 64 := BitVec.toNat_mul ..
  have bound := n.isLt
  omega

/-- An accepted buffer lies in the box when there is memory for a copy of it. -/
theorem Apart.subset {box : BoxRange} {p size align : Word} (apart : Apart box.toLPSBoxInfo size)
    (checked : bufcheck box.toLPSBoxInfo p size align = true) :
    bytesAt p size.toNat ⊆ box.bytes := by
  refine (bufcheck_subset_iff box p size align).mpr ?_ checked
  obtain ⟨host, fits, disjoint⟩ := apart
  obtain ⟨first, -, -⟩ := bufcheck_iff.mp checked
  obtain ⟨inBox, noWrap⟩ := lpsBoxPtrvalid_iff.mp first
  rw [LPSBoxInfo.bytes, bytesAt, Set.mem_Ico] at inBox
  rw [LPSBoxInfo.bytes, bytesAt, bytesAt, Set.Ico_disjoint_Ico] at disjoint
  by_cases empty : size = 0
  · exact .inl empty
  · have some : 0 < size.toNat := by bv_omega
    refine .inr (.inl ?_)
    omega

/-- What the calls rely on, and which entries they may examine. -/
def vecContract (box : LPSBoxInfo) (iovp iovcnt : Word) : Contract EntryCall EntryReply VecFault where
  replies
    | .vec (.malloc size), got => got = true → Apart box size
    | _, _ => True
  calls
    | .vec _ => True
    | .entry i => Copied box iovp iovcnt i
  faults _ := True

section Bounds

variable {box : BoxRange} {iovp iovcnt : Word} {one : Nat → IOVec → FileProg Word}
  {host : Prog.Host EntryCall EntryReply}

/-- What the calls do besides is permitted. -/
theorem meets_vecPart {α : Type} {p : VecProg α} :
    (p.lift vecPart).Meets (vecContract box.toLPSBoxInfo iovp iovcnt) fun _ => True := by
  rw [Prog.meets_lift]
  exact Prog.meets_permitted (fun _ => trivial) (fun _ => trivial)

theorem examineLoop_meets {n i : Nat} {total : Word}
    (copied : ∀ j, i ≤ j → j < i + n → Copied box.toLPSBoxInfo iovp iovcnt j) :
    (examineLoop one n i total).Meets (vecContract box.toLPSBoxInfo iovp iovcnt) fun _ => True := by
  induction n generalizing i total with
  | zero => trivial
  | succ n ih =>
      rw [examineLoop, Prog.meets_bind, Prog.meets_ask]
      refine ⟨copied i (Nat.le_refl i) (by omega), fun e _ => meets_vecPart.bind fun r _ => ?_⟩
      split
      · trivial
      · exact ih fun j above below => copied j (by omega) (by omega)

/-- Every entry was copied, when the product does not wrap around and there is memory. -/
theorem copied_of_apart (apart : Apart box.toLPSBoxInfo (iovcnt * 16))
    (checked : bufcheck box.toLPSBoxInfo iovp (iovcnt * 16) 8 = true) (small : iovcnt.toNat < 2 ^ 60)
    {i : Nat} (less : i < iovcnt.toNat) : Copied box.toLPSBoxInfo iovp iovcnt i := by
  have size := sixteen_times_iff.mpr small
  have inBox := apart.subset checked
  constructor
  · omega
  · refine Set.Subset.trans ?_ inBox
    exact Set.Ico_subset_Ico (by omega) (by omega)

/-- Only entries that were copied are examined. -/
theorem examineVec_meets (small : iovcnt.toNat < 2 ^ 60) :
    (examineVec one box.toLPSBoxInfo iovp iovcnt).Meets (vecContract box.toLPSBoxInfo iovp iovcnt)
      fun _ => True := by
  unfold examineVec
  split
  · trivial
  · rename_i checked
    have passed := Bool.eq_true_of_not_eq_false checked
    have memory : (copyoutVec box.toLPSBoxInfo iovp (iovcnt * 16)).Meets
        ((vecContract box.toLPSBoxInfo iovp iovcnt).part vecPart)
        fun iov => iov ≠ none → Apart box.toLPSBoxInfo (iovcnt * 16) := by
      rw [copyoutVec, Prog.meets_bind, Prog.meets_check, bufcheck_align_one passed, if_pos rfl,
        Prog.meets_bind, Prog.meets_ask]
      refine ⟨trivial, ?_⟩
      rintro got ⟨_, apart, rfl⟩
      split
      · exact fun some => absurd rfl some
      · rename_i got
        have memory := Bool.eq_true_of_not_eq_false (mt (congrArg not) got)
        exact ⟨trivial, fun _ _ _ => apart memory⟩
    refine (Prog.meets_lift.mpr memory).bind fun iov apart => ?_
    cases iov with
    | none => trivial
    | some iov =>
        refine (examineLoop_meets fun j _ less => ?_).bind fun total _ => ?_
        · exact copied_of_apart (apart (by rintro ⟨⟩)) passed small (by omega)
        · exact ⟨trivial, fun _ _ => trivial⟩

/-- A call that does not get past its checks examines no entry. -/
theorem examineVec_stops (stops : ¬Passes host box.toLPSBoxInfo iovp iovcnt) (i : Nat) :
    .entry i ∉ ((examineVec one box.toLPSBoxInfo iovp iovcnt).run host []).1 := by
  unfold examineVec
  split
  · exact List.not_mem_nil
  · rename_i checked
    have passed := Bool.eq_true_of_not_eq_false checked
    have memory : host [] (.vec (.malloc (iovcnt * 16))) = false := by
      by_contra found
      exact stops ⟨passed, Bool.eq_true_of_not_eq_false found⟩
    have asks : (copyoutVec box.toLPSBoxInfo iovp (iovcnt * 16)).lift vecPart =
        Prog.call (.vec (.malloc (iovcnt * 16))) fun memory =>
          (if !memory then pure none else do
            let iov ← Prog.ask (VecCall.memcpy iovp (iovcnt * 16))
            return some iov : VecProg (Option (Nat → IOVec))).lift vecPart := by
      rw [copyoutVec, bufcheck_align_one passed]
      rfl
    rw [asks]
    change _ ∉ (Prog.run host (Prog.call _ _) []).1
    rw [Prog.run, memory]
    change EntryCall.entry i ∉ [EntryCall.vec _]
    intro mem
    cases List.mem_singleton.mp mem
theorem examineVec_bounded_iff
    (apart : ∀ made size, host made (.vec (.malloc size)) = true → Apart box.toLPSBoxInfo size) :
    VecBounded host box.toLPSBoxInfo iovp iovcnt (examineVec one box.toLPSBoxInfo iovp iovcnt) ↔
      (Passes host box.toLPSBoxInfo iovp iovcnt → iovcnt.toNat < 2 ^ 60) := by
  constructor
  · exact fun bounded passes => sixteen_times_iff.mp (bounded.size passes)
  · intro small
    refine ⟨fun passes => sixteen_times_iff.mpr (small passes), fun i examined => ?_⟩
    by_cases passes : Passes host box.toLPSBoxInfo iovp iovcnt
    · refine (examineVec_meets (small passes)).run_calls ?_ [] (.entry i) examined
      rintro made (c | entry)
      · cases c with
        | malloc size => exact apart made size
        | memcpy addr size => trivial
        | free => trivial
        | file entry c => trivial
      · trivial
    · exact absurd examined (examineVec_stops passes i)

end Bounds

/-- `sys_readv` and `sys_writev` keep within the bounds of their array exactly when they are turned
down or have fewer than `2 ^ 60` entries. -/
theorem vec_bounded_iff (d : Nat → Descriptor) (box : BoxRange) (iovp iovcnt : Word)
    (host : Prog.Host EntryCall EntryReply)
    (apart : ∀ made size, host made (.vec (.malloc size)) = true → Apart box.toLPSBoxInfo size) :
    (VecBounded host box.toLPSBoxInfo iovp iovcnt (examineReadv d box.toLPSBoxInfo iovp iovcnt) ↔
      (Passes host box.toLPSBoxInfo iovp iovcnt → iovcnt.toNat < 2 ^ 60)) ∧
    (VecBounded host box.toLPSBoxInfo iovp iovcnt (examineWritev d box.toLPSBoxInfo iovp iovcnt) ↔
      (Passes host box.toLPSBoxInfo iovp iovcnt → iovcnt.toNat < 2 ^ 60)) := by
  constructor
  · exact examineVec_bounded_iff apart
  · exact examineVec_bounded_iff apart

/-- A host with little memory, and empty entries. -/
def littleMemory : Prog.Host EntryCall EntryReply := fun _ c =>
  match c with
  | .vec (.malloc size) => decide (size ≤ 4096)
  | .vec (.memcpy ..) => fun _ => ⟨0, 0⟩
  | .vec .free => ()
  | .vec (.file _ c) => FileReply.nothing c
  | .entry _ => ⟨0, 0⟩

theorem littleMemory_apart (made : List EntryCall) (size : Word)
    (got : littleMemory made (.vec (.malloc size)) = true) : Apart vecBox size := by
  have small : size ≤ 4096 := of_decide_eq_true got
  refine ⟨0x1000, by bv_omega, ?_⟩
  rw [LPSBoxInfo.bytes, bytesAt, bytesAt, Set.Ico_disjoint_Ico, vecBox]
  bv_omega

/-- Two empty entries are copied from the box and examined. -/
theorem vec_bounded_two :
    VecBounded littleMemory vecBox 0x100000 2 (examineReadv (fun _ => .closed) vecBox 0x100000 2) :=
  (vec_bounded_iff (fun _ => .closed) ⟨vecBox, by decide⟩ 0x100000 2 littleMemory
    littleMemory_apart).1.mpr fun _ => by decide

/-- With a product of one entry, and empty entries, the second entry is examined. -/
theorem second_examined {iovcnt : Word} {n : Nat} (size : iovcnt * 16 = 16)
    (more : iovcnt.toNat = n + 2) :
    EntryCall.entry 1 ∈
      ((examineReadv (fun _ => .closed) vecBox 0x100000 iovcnt).run littleMemory []).1 := by
  have checked : bufcheck vecBox 0x100000 16 8 = true := by decide
  have rest := bufcheck_align_one checked
  rw [examineReadv, examineVec, size, more, if_neg (by rw [checked]; decide), copyoutVec, rest]
  change _ ∈ EntryCall.vec (.malloc 16) :: EntryCall.vec (.memcpy 0x100000 16) ::
    EntryCall.entry 0 :: EntryCall.entry 1 :: _
  exact .tail _ (.tail _ (.tail _ (.head _)))

/-- With `2 ^ 60 + 1` entries one is copied, and the loop examines the second one as well. -/
theorem readv_examines_past_copy :
    ¬∀ (d : Nat → Descriptor) (box : BoxRange) (iovp iovcnt : Word)
      (host : Prog.Host EntryCall EntryReply),
      (∀ made size, host made (.vec (.malloc size)) = true → Apart box.toLPSBoxInfo size) →
      VecBounded host box.toLPSBoxInfo iovp iovcnt (examineReadv d box.toLPSBoxInfo iovp iovcnt) := by
  intro claim
  have bounded := claim (fun _ => .closed) ⟨vecBox, by decide⟩ 0x100000 0x1000000000000001 littleMemory
    littleMemory_apart
  have size : (0x1000000000000001 : Word) * 16 = 16 := by decide
  have more : (0x1000000000000001 : Word).toNat = 0xfffffffffffffff + 2 := by decide
  have copied := bounded.copied 1 (second_examined size more)
  have short := copied.inCopy
  rw [size] at short
  exact absurd short (by decide)

end Lps.Linux

import Lps.Program.Lift
import Lps.Program.Play

/-!
# Programs that read a memory

Some calls of a program load from a memory that stays as it is meanwhile.  A program reads a region
only when every address it loads from lies there, whatever else its host replies.  What lies outside
of the region then makes no difference to it.
-/

namespace Lps.Program

universe u v

/-- Calls among which are loads from the addresses `A`. -/
inductive Loading (A κ : Type u)
  | load (addr : A)
  | other (c : κ)

variable {A B κ : Type u} {ρ : κ → Type u} {φ α : Type u} {σ : Type v}

/-- A load is answered by what is stored there. -/
abbrev LoadReply (B : Type u) (ρ : κ → Type u) : Loading A κ → Type u
  | .load _ => B
  | .other c => ρ c

/-- The other calls among these. -/
def otherPart : Part κ ρ φ (Loading A κ) (LoadReply B ρ) φ where
  call := .other
  reply _ reply := reply
  fault := id

/-- Loads give what the memory holds, and are permitted in a region. -/
def readsIn (region : Set A) (mem : A → B) : Contract (Loading A κ) (LoadReply B ρ) φ where
  replies
    | .load addr, value => value = mem addr
    | .other _, _ => True
  calls
    | .load addr => addr ∈ region
    | .other _ => True
  faults _ := True

/-- A host with a state, and a memory. -/
def withMemory (mem : A → B) (env : Handler κ ρ σ) : Handler (Loading A κ) (LoadReply B ρ) σ
  | .load addr, s => (mem addr, s)
  | .other c, s => env c s

namespace Prog

variable {region : Set A} {mem mem' : A → B} {env : Handler κ ρ σ} {s : σ}
  {p : Prog (Loading A κ) (LoadReply B ρ) φ α}

/-- A program that does not load reads nothing. -/
theorem meets_otherPart {p : Prog κ ρ φ α} :
    (p.lift (otherPart (A := A) (B := B))).Meets (readsIn region mem) fun _ => True := by
  rw [meets_lift]
  exact meets_permitted (fun _ => trivial) fun _ => trivial

/-- What lies outside of the region makes no difference. -/
theorem Meets.play_agree {post : α → Prop} (meets : p.Meets (readsIn region mem) post)
    (agree : ∀ addr ∈ region, mem addr = mem' addr) :
    p.play (withMemory mem env) s = p.play (withMemory mem' env) s := by
  induction p generalizing s with
  | ret value => rfl
  | fault reason => rfl
  | call c next ih =>
      cases c with
      | load addr =>
          change (next (mem addr)).play _ s = (next (mem' addr)).play _ s
          rw [← agree addr meets.1]
          exact ih _ (meets.2 _ rfl)
      | other c => exact ih _ (meets.2 _ trivial)

/-- The host has this memory. -/
def Host.Holds (host : Host (Loading A κ) (LoadReply B ρ)) (mem : A → B) : Prop :=
  ∀ made addr, host made (.load addr) = mem addr

theorem Host.Holds.replies {host : Host (Loading A κ) (LoadReply B ρ)} (holds : host.Holds mem)
    (made : List (Loading A κ)) (c : Loading A κ) :
    (readsIn (φ := φ) region mem).replies c (host made c) := by
  cases c with
  | load addr => exact holds made addr
  | other c => trivial

/-- To read a region only is a property of the executions. -/
theorem meets_readsIn_iff (some : ∀ c, Nonempty (ρ c)) :
    p.Meets (readsIn region mem) (fun _ => True) ↔
      ∀ host : Host (Loading A κ) (LoadReply B ρ), host.Holds mem →
        ∀ addr, .load addr ∈ (p.run host []).1 → addr ∈ region := by
  constructor
  · intro meets host holds addr loaded
    exact meets.run_calls holds.replies [] (.load addr) loaded
  generalize [] = made
  intro inside
  induction p generalizing made with
  | ret value => trivial
  | fault reason => trivial
  | call c next ih =>
      cases c with
      | load addr =>
          refine ⟨?_, fun value stored => ?_⟩
          · refine inside (fun _ c => match c with
              | .load addr => mem addr
              | .other c => Classical.choice (some c)) (fun _ _ => rfl) addr ?_
            exact List.mem_cons_self
          · cases stored
            refine ih _ (made ++ [.load addr]) fun host holds other loaded => ?_
            refine inside host holds other (List.mem_cons_of_mem _ ?_)
            rw [holds made addr]
            exact loaded
      | other c =>
          refine ⟨trivial, fun reply _ => ih _ (made ++ [.other c]) fun host holds addr loaded => ?_⟩
          have answering : (host.answering made (.other c) reply).Holds mem := by
            intro later addr
            rw [Host.answering_other (by rintro ⟨-, ⟨⟩⟩)]
            exact holds later addr
          refine inside _ answering addr (List.mem_cons_of_mem _ ?_)
          rw [Host.answering_now,
            run_congr fun later d longer => (Host.answering_later longer).symm]
          exact loaded

end Prog

end Lps.Program

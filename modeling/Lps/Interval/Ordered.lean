import Mathlib.Order.Basic

/-!
# Lists of intervals in order

Items that each occupy an interval lie one behind the other between two bounds.
Items may be empty and may touch.  The list can be cut anywhere, and an item
fits wherever the items before it end early enough and those behind it start
late enough.
-/

namespace Lps.Interval

universe u v

variable {α : Type u} {κ : Type v} [Preorder κ]

/-- The intervals from `start` to `stop` of the items lie in order between `lo`
and `hi`. -/
def Ordered (start stop : α → κ) : κ → κ → List α → Prop
  | lo, hi, [] => lo ≤ hi
  | lo, hi, item :: rest =>
      lo ≤ start item ∧ start item ≤ stop item ∧ Ordered start stop (stop item) hi rest

/-- No item reaches into the interval from `lo` to `hi`. -/
def Clear (start stop : α → κ) (lo hi : κ) (items : List α) : Prop :=
  ∀ item ∈ items, stop item ≤ lo ∨ hi ≤ start item

namespace Ordered

variable {start stop : α → κ} {lo hi lo' hi' mid : κ} {items rest : List α} {item : α}

@[simp]
theorem nil_iff : Ordered start stop lo hi [] ↔ lo ≤ hi := Iff.rfl

@[simp]
theorem cons_iff : Ordered start stop lo hi (item :: items) ↔
    lo ≤ start item ∧ start item ≤ stop item ∧ Ordered start stop (stop item) hi items :=
  Iff.rfl

/-- The bounds of an ordered list are in order. -/
theorem bounds (ordered : Ordered start stop lo hi items) : lo ≤ hi := by
  induction items generalizing lo with
  | nil => exact ordered
  | cons item rest ih => exact (ordered.1.trans ordered.2.1).trans (ih ordered.2.2)

theorem mono (ordered : Ordered start stop lo hi items) (lower : lo' ≤ lo) (upper : hi ≤ hi') :
    Ordered start stop lo' hi' items := by
  induction items generalizing lo lo' with
  | nil => exact (lower.trans ordered).trans upper
  | cons item rest ih => exact ⟨lower.trans ordered.1, ordered.2.1, ih ordered.2.2 le_rfl⟩

/-- An ordered list without its first item. -/
theorem tail (ordered : Ordered start stop lo hi (item :: rest)) :
    Ordered start stop lo hi rest :=
  ordered.2.2.mono (ordered.1.trans ordered.2.1) le_rfl

/-- The first item may be left out. -/
theorem optional (p : Prop) [Decidable p] (ordered : Ordered start stop lo hi (item :: rest)) :
    Ordered start stop lo hi ((if p then [] else [item]) ++ rest) := by
  split
  · exact ordered.tail
  · exact ordered

/-- An item of an ordered list lies between the bounds. -/
theorem of_mem (ordered : Ordered start stop lo hi items) (mem : item ∈ items) :
    lo ≤ start item ∧ start item ≤ stop item ∧ stop item ≤ hi := by
  induction items generalizing lo with
  | nil => cases mem
  | cons head rest ih =>
      rcases List.mem_cons.mp mem with rfl | later
      · exact ⟨ordered.1, ordered.2.1, ordered.2.2.bounds⟩
      · obtain ⟨lower, proper, upper⟩ := ih ordered.2.2 later
        exact ⟨(ordered.1.trans ordered.2.1).trans lower, proper, upper⟩

/-- Two ordered lists with a common bound form one. -/
theorem append (first : Ordered start stop lo mid items) (second : Ordered start stop mid hi rest) :
    Ordered start stop lo hi (items ++ rest) := by
  induction items generalizing lo with
  | nil => exact second.mono first le_rfl
  | cons item items ih => exact ⟨first.1, first.2.1, ih first.2.2⟩

/-- Every item may be replaced by items in its interval. -/
theorem flatMap {f : α → List α} (ordered : Ordered start stop lo hi items)
    (inside : ∀ item ∈ items, Ordered start stop (start item) (stop item) (f item)) :
    Ordered start stop lo hi (items.flatMap f) := by
  induction items generalizing lo with
  | nil => exact ordered
  | cons item rest ih =>
      rw [List.flatMap_cons]
      have first := (inside item List.mem_cons_self).mono ordered.1 le_rfl
      exact first.append (ih ordered.2.2 fun other mem => inside other (List.mem_cons_of_mem _ mem))

/-- An ordered list can be cut anywhere: the items behind the cut start where
those before it are over. -/
theorem cut (ordered : Ordered start stop lo hi (items ++ rest)) :
    ∃ mid, Ordered start stop lo mid items ∧ Ordered start stop mid hi rest ∧
      ∀ upper, lo ≤ upper → (∀ item ∈ items, stop item ≤ upper) → mid ≤ upper := by
  induction items generalizing lo with
  | nil => exact ⟨lo, le_rfl, ordered, fun _ le _ => le⟩
  | cons item items ih =>
      obtain ⟨mid, first, second, least⟩ := ih ordered.2.2
      refine ⟨mid, ⟨ordered.1, ordered.2.1, first⟩, second, ?_⟩
      intro upper _ below
      refine least upper (below item (List.mem_cons_self ..)) ?_
      intro other mem
      exact below other (List.mem_cons_of_mem _ mem)

/-- The items behind a cut start behind every item before it. -/
theorem before_after (ordered : Ordered start stop lo hi (items ++ rest)) {other : α}
    (before : item ∈ items) (after : other ∈ rest) : stop item ≤ start other := by
  obtain ⟨mid, first, second, -⟩ := ordered.cut
  exact (first.of_mem before).2.2.trans (second.of_mem after).1

/-- Every item ends before the later ones start. -/
theorem pairwise (ordered : Ordered start stop lo hi items) :
    items.Pairwise fun item other => stop item ≤ start other := by
  induction items generalizing lo with
  | nil => exact List.Pairwise.nil
  | cons item rest ih =>
      refine List.pairwise_cons.mpr ⟨fun other mem => ?_, ih ordered.2.2⟩
      exact (ordered.2.2.of_mem mem).1

/-- Items that are not empty can stand in one order only. -/
theorem eq_of_perm {items' : List α} (ordered : Ordered start stop lo hi items)
    (ordered' : Ordered start stop lo' hi' items') (nonempty : ∀ item ∈ items, start item < stop item)
    (perm : items.Perm items') : items = items' := by
  apply perm.eq_of_pairwise _ ordered.pairwise ordered'.pairwise
  intro item other mem mem' before behind
  have first := (nonempty item mem).trans_le before
  have second := (nonempty other (perm.mem_iff.mpr mem')).trans_le behind
  exact absurd (first.trans second) (lt_irrefl _)

/-- An item fits between two ordered lists that leave room for it. -/
theorem insert (first : Ordered start stop lo (start item) items)
    (proper : start item ≤ stop item) (second : Ordered start stop (stop item) hi rest) :
    Ordered start stop lo hi (items ++ item :: rest) :=
  first.append ⟨le_rfl, proper, second⟩

end Ordered

namespace Clear

variable {start stop : α → κ} {lo hi : κ} {items rest : List α} {item : α}

@[simp]
theorem nil : Clear start stop lo hi ([] : List α) := fun _ mem => absurd mem List.not_mem_nil

@[simp]
theorem cons_iff : Clear start stop lo hi (item :: items) ↔
    (stop item ≤ lo ∨ hi ≤ start item) ∧ Clear start stop lo hi items :=
  List.forall_mem_cons

@[simp]
theorem append_iff : Clear start stop lo hi (items ++ rest) ↔
    Clear start stop lo hi items ∧ Clear start stop lo hi rest :=
  List.forall_mem_append

/-- The first item may be left out. -/
theorem optional (p : Prop) [Decidable p] (clear : Clear start stop lo hi (item :: rest)) :
    Clear start stop lo hi ((if p then [] else [item]) ++ rest) := by
  split
  · exact (cons_iff.mp clear).2
  · exact clear

end Clear

/-- Items behind an interval leave it alone. -/
theorem Ordered.clear {start stop : α → κ} {lo hi last : κ} {items : List α}
    (ordered : Ordered start stop hi last items) : Clear start stop lo hi items :=
  fun _ mem => .inr (ordered.of_mem mem).1

/-! ## A new item in its place -/

section Place

variable {start stop : α → κ} [DecidableLT κ] {lo hi : κ} {items before rest : List α}
  {item other : α}

/-- Put an item behind those that start before it. -/
def place (start : α → κ) (item : α) (items : List α) : List α :=
  items.takeWhile (fun other => start other < start item) ++
    item :: items.dropWhile fun other => start other < start item

theorem place_cons_of_lt (lt : start other < start item) :
    place start item (other :: rest) = other :: place start item rest := by
  simp [place, lt]

theorem place_cons_of_not_lt (notLt : ¬start other < start item) :
    place start item (other :: rest) = item :: other :: rest := by
  simp [place, notLt]

theorem place_append (lt : ∀ other ∈ before, start other < start item) :
    place start item (before ++ rest) = before ++ place start item rest := by
  induction before with
  | nil => rfl
  | cons other before ih =>
      rw [List.cons_append, place_cons_of_lt (lt other List.mem_cons_self),
        ih fun another mem => lt another (List.mem_cons_of_mem _ mem)]
      rfl

theorem place_perm : (place start item items).Perm (item :: items) := by
  refine List.perm_middle.trans (List.Perm.cons item ?_)
  rw [List.takeWhile_append_dropWhile]

/-- An item that no other one reaches into fits in its place. -/
theorem Ordered.place (ordered : Ordered start stop lo hi items)
    (nonempty : ∀ other ∈ items, start other < stop other) (lower : lo ≤ start item)
    (proper : start item ≤ stop item) (upper : stop item ≤ hi)
    (clear : Clear start stop (start item) (stop item) items) :
    Ordered start stop lo hi (place start item items) := by
  induction items generalizing lo with
  | nil => exact ⟨lower, proper, upper⟩
  | cons other rest ih =>
      obtain ⟨here, later⟩ := Clear.cons_iff.mp clear
      have otherNonempty := nonempty other List.mem_cons_self
      by_cases lt : start other < start item
      · rw [place_cons_of_lt lt]
        have ends : stop other ≤ start item := by
          refine here.resolve_right fun behind => ?_
          exact (proper.trans behind).not_gt lt
        exact ⟨ordered.1, ordered.2.1,
          ih ordered.2.2 (fun another mem => nonempty another (List.mem_cons_of_mem _ mem)) ends later⟩
      · rw [place_cons_of_not_lt lt]
        have behind : stop item ≤ start other := by
          refine here.resolve_left fun ends => ?_
          exact lt (otherNonempty.trans_le ends)
        exact ⟨lower, proper, behind, ordered.2⟩

end Place

end Lps.Interval

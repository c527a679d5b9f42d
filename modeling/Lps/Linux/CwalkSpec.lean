import Lps.Linux.CwalkJoined
import Lps.Memory.Strings

/-!
# What joining paths writes

The output is the root of the first path and the names that a walk along all of them leaves in
effect.  It is written from left to right into a buffer of any size, and cut with a terminator where
the buffer ends.
-/

namespace Lps.Linux.Cwk

open Lps.Memory Lps.Segments

/-- The root of a list of paths is that of the first one. -/
def rootOf (paths : List (List Byte)) : List Byte := (paths.headD []).take (getRoot (paths.headD []))

/-- The names in effect at the end of a list of paths. -/
def resolved (paths : List (List Byte)) : List (List Byte) :=
  resolve kind (isAbsolute (paths.headD [])) (namesOf paths)

/-- The path that a list of paths is normalized to. -/
def normalized (paths : List (List Byte)) : List Byte :=
  let text := rootOf paths ++ joined separator (resolved paths)
  if text = [] ∧ namesOf paths ≠ [] then [dot] else text

/-- The string in an array, if it has a terminator. -/
def terminated (text : List Byte) (size : Nat) : List Byte :=
  if size = 0 then [] else text.take (size - 1) ++ [0]

variable {paths : List (List Byte)} {path part text : List Byte} {sj : SegmentJoined}
  {before after parts : List (List Byte)} {segment : Segment} {size : Nat} {absolute : Bool} {out : Output}

/-! ## The output -/

/-- The name of a segment, with a separator if there is one before it. -/
def Output.name (out : Output) (size : Nat) (part : List Byte) : Output :=
  let out := if out.hasSegmentOutput then out.write size [separator] 1 else out
  { out with hasSegmentOutput := true }.write size part part.length

/-- The names of several segments. -/
def Output.names (out : Output) (size : Nat) (parts : List (List Byte)) : Output :=
  parts.foldl (fun out part => out.name size part) out

/-- The output has this text, as far as there is room. -/
structure Shows (size : Nat) (out : Output) (text : List Byte) : Prop where
  pos : out.pos = text.length
  stored : ∀ buffer, Block.storeAll buffer out.written = Block.store buffer ⟨0, text.take size⟩

/-- What is written is a part of the string that ends with the buffer. -/
theorem outputSized_data {position length : Nat} {str : List Byte} :
    (outputSized size position str length).data = (str.take length).take (size - position) := by
  rw [outputSized, List.take_take]
  dsimp only
  congr 1
  split
  · omega
  · split <;> omega

theorem storeAll_append {buffer : Nat → Byte} {written later : List (Block Byte)} :
    Block.storeAll buffer (written ++ later) = Block.storeAll (Block.storeAll buffer written) later :=
  List.foldl_append

namespace Shows

/-- A string goes behind the text. -/
theorem write {str : List Byte} {length : Nat} (shows : Shows size out text) (within : length ≤ str.length) :
    Shows size (out.write size str length) (text ++ str.take length) := by
  constructor
  · simp only [Output.write, shows.pos, List.length_append, List.length_take, Nat.min_eq_left within]
  · intro buffer
    have block : outputSized size text.length str length =
        ⟨text.length, (str.take length).take (size - text.length)⟩ := by
      rw [← outputSized_data]
      rfl
    rw [Output.write, storeAll_append, shows.stored, shows.pos, block]
    dsimp only [Block.storeAll, List.foldl_cons, List.foldl_nil]
    rw [List.take_append]
    rcases Nat.le_total text.length size with room | full
    · rw [List.take_of_length_le room]
      have behind := @Block.store_append _ buffer 0 text ((str.take length).take (size - text.length))
      rwa [Nat.zero_add] at behind
    · rw [Nat.sub_eq_zero_of_le full, List.take_zero, Block.store_nil, List.append_nil]

/-- The name of a segment. -/
theorem name (shows : Shows size out (text ++ joined separator parts))
    (flag : out.hasSegmentOutput = decide (parts ≠ [])) :
    Shows size (out.name size part) (text ++ joined separator (parts ++ [part])) ∧
      (out.name size part).hasSegmentOutput = decide (parts ++ [part] ≠ []) := by
  constructor
  · rw [Output.name, joined_concat, flag]
    by_cases first : parts = []
    · subst first
      rw [joined, List.intercalate_nil, List.append_nil] at shows
      have alone := (show Shows size { out with hasSegmentOutput := true } text from
        ⟨shows.pos, shows.stored⟩).write (Nat.le_refl part.length)
      rwa [List.take_length] at alone
    · rw [if_neg first, decide_eq_true first, if_pos rfl]
      have sep := @write _ _ _ [separator] 1 shows (Nat.le_refl 1)
      have behind := (show Shows size { out.write size [separator] 1 with hasSegmentOutput := true } _ from
        ⟨sep.pos, sep.stored⟩).write (Nat.le_refl part.length)
      rw [List.take_length] at behind
      rwa [List.append_assoc, List.append_assoc] at behind
  · simp [Output.name, Output.write]

/-- Several names. -/
theorem names {root : List Byte} (shows : Shows size out root) (none : out.hasSegmentOutput = false) :
    Shows size (out.names size parts) (root ++ joined separator parts) ∧
      (out.names size parts).hasSegmentOutput = decide (parts ≠ []) := by
  induction parts using List.reverseRecOn with
  | nil =>
      rw [joined, List.intercalate_nil, List.append_nil]
      exact ⟨shows, none⟩
  | append_singleton parts part ih =>
      rw [Output.names, List.foldl_append]
      exact ih.1.name ih.2

/-- The terminator ends the text, or the buffer. -/
theorem done (shows : Shows size out text) :
    out.done size = (text.length, (out.done size).2) ∧
      ∀ buffer, Block.storeAll buffer (out.done size).2 =
        Block.store buffer ⟨0, terminated text size⟩ := by
  constructor
  · rw [Output.done, shows.pos]
  · intro buffer
    rw [Output.done]
    dsimp only
    rw [storeAll_append, shows.stored, shows.pos, terminateOutput, terminated]
    cases size with
    | zero =>
        rw [List.take_zero]
        rfl
    | succ size =>
        rw [if_pos (Nat.succ_pos size), if_neg (Nat.succ_ne_zero size), Nat.add_sub_cancel]
        dsimp only [Block.storeAll, List.foldl_cons, List.foldl_nil]
        rcases Nat.lt_or_ge text.length (size + 1) with room | full
        · rw [if_neg (by omega), List.take_of_length_le (by omega), List.take_of_length_le (by omega)]
          have behind := @Block.store_append _ buffer 0 text [0]
          rwa [Nat.zero_add] at behind
        · have inside : size < text.length := full
          have cut : text.take (size + 1) = text.take size ++ [text[size]] :=
            List.take_succ_eq_append_getElem inside
          have last := @Block.store_store _ (Block.store buffer ⟨0, text.take size⟩)
            (0 + (text.take size).length) [text[size]] [0] rfl
          rw [Block.store_append, Block.store_append, List.length_take, Nat.min_eq_left (by omega),
            Nat.zero_add] at last
          rw [if_pos full, cut]
          exact last

end Shows

/-! ## The loop -/

/-- What is behind the length is not written. -/
theorem outputSized_append {position : Nat} {rest : List Byte} :
    outputSized size position (part ++ rest) part.length = outputSized size position part part.length := by
  have data : (outputSized size position (part ++ rest) part.length).data =
      (outputSized size position part part.length).data := by
    rw [outputSized_data, outputSized_data, List.take_left, List.take_length]
  exact congrArg (Block.mk position) data

/-- A segment is written as its name. -/
theorem segment_eq_name (at_ : AtJoined paths sj before part after) :
    out.segment size sj.segment = out.name size part := by
  obtain ⟨front, path, rest, earlier, later, -, -, -, ⟨begun, ended, placed, -, -⟩, -⟩ := at_
  have text : sj.segment.path.drop sj.segment.begin = part ++ ended := by
    rw [placed.path, placed.begin, List.drop_left]
  rw [Output.segment, Output.name, placed.size, text]
  dsimp only [Output.write]
  rw [outputSized_append]

/-- The names that are not removed are written. -/
theorem joinLoop_eq (at_ : AtJoined paths sj before part after) (noNul : ∀ path ∈ paths, 0 ∉ path)
    (few : (namesOf paths).length < 2 ^ 31) :
    joinLoop absolute size sj out = some (out.names size (kept kind absolute before (part :: after))) := by
  induction after generalizing sj before part out with
  | nil =>
      rw [joinLoop, segmentWillBeRemoved_eq at_ noNul few, segment_eq_name at_, kept]
      rcases at_.next noNul with ⟨stop, -⟩ | ⟨next, name, later, -, none, -⟩
      · dsimp only
        split <;> rename_i found <;> rw [stop] at found
        · cases found
        · by_cases gone : Removed kind absolute before part []
          · rw [if_pos gone, decide_eq_true gone]
            rfl
          · rw [if_neg gone, decide_eq_false gone]
            rfl
        · cases found
      · cases none
  | cons name later ih =>
      rw [joinLoop, segmentWillBeRemoved_eq at_ noNul few, segment_eq_name at_, kept]
      rcases at_.next noNul with ⟨-, none⟩ | ⟨next, name', later', reached, same, at'⟩
      · cases none
      · obtain ⟨rfl, rfl⟩ := List.cons.inj same
        dsimp only
        split <;> rename_i found <;> rw [reached] at found
        · cases found
        · cases found
        · cases found
          by_cases gone : Removed kind absolute before part (name :: later)
          · rw [if_pos gone, decide_eq_true gone, if_pos rfl]
            exact ih at'
          · rw [if_neg gone, decide_eq_false gone, if_neg (by decide)]
            exact ih at'

/-! ## The result -/

theorem rootOf_eq : rootOf paths = if isAbsolute (paths.headD []) then [separator] else [] := by
  rw [rootOf, isAbsolute]
  cases paths.headD [] with
  | nil => rfl
  | cons c path =>
      rw [getRoot, isRootAbsolute]
      cases sep : isSeparator (charAt (c :: path) 0) with
      | true =>
          have same : c = separator := isSeparator_iff.mp sep
          subst same
          rfl
      | false => rfl

theorem length_rootOf : (rootOf paths).length = getRoot (paths.headD []) := by
  rw [rootOf, List.length_take]
  apply Nat.min_eq_left
  rw [getRoot]
  split
  · rename_i sep
    exact lt_of_isSeparator sep
  · exact Nat.zero_le _

/-- A path of names is empty if there are none. -/
theorem joined_eq_nil (all : ∀ part ∈ parts, IsName separator part) : joined separator parts = [] ↔ parts = [] := by
  constructor
  · intro empty
    have back : names separator (joined separator parts) = parts := names_joined all
    rw [← back, empty]
    rfl
  · rintro rfl
    exact List.intercalate_nil

theorem isName_of_mem_namesOf (mem : part ∈ namesOf paths) : IsName separator part := by
  obtain ⟨path, -, inside⟩ := List.mem_flatMap.mp mem
  exact isName_of_mem inside

theorem isName_of_mem_resolved (mem : part ∈ resolved paths) : IsName separator part :=
  isName_of_mem_namesOf (resolve_sublist.subset mem)

/-- The root is written first. -/
theorem shows_root : Shows size ⟨getRoot (paths.headD []), false,
    [outputSized size 0 (paths.headD []) (getRoot (paths.headD []))]⟩ (rootOf paths) := by
  have empty : Shows size ⟨0, false, []⟩ [] := by
    refine ⟨rfl, fun buffer => ?_⟩
    rw [List.take_nil, Block.store_nil]
    rfl
  have root := @Shows.write _ _ _ (paths.headD []) (getRoot (paths.headD [])) empty
  rw [Output.write, Nat.zero_add, List.nil_append, List.nil_append] at root
  apply root
  have length := @length_rootOf paths
  rw [rootOf, List.length_take] at length
  omega

/-- Nothing is written only if there is no root and no name is in effect. -/
theorem text_eq_nil : rootOf paths ++ joined separator (resolved paths) = [] ↔
    isAbsolute (paths.headD []) = false ∧ resolved paths = [] := by
  rw [List.append_eq_nil_iff, joined_eq_nil fun part => isName_of_mem_resolved, rootOf_eq]
  cases isAbsolute (paths.headD []) <;> simp

theorem head?_eq (some_ : paths ≠ []) : paths.head? = some (paths.headD []) := by
  cases paths with
  | nil => exact absurd rfl some_
  | cons path paths => rfl

/-- Paths whose names an `int` can count are joined, and any buffer is written inside only: it then has
the normalized path, or as much of it as fits, with a terminator behind it. -/
theorem joinAndNormalizeMultiple_eq (some_ : paths ≠ []) (noNul : ∀ path ∈ paths, 0 ∉ path)
    (few : (namesOf paths).length < 2 ^ 31) :
    ∃ written, joinAndNormalizeMultiple paths size = some ((normalized paths).length, written) ∧
      ∀ buffer, Block.storeAll buffer written = Block.store buffer ⟨0, terminated (normalized paths) size⟩ := by
  have root := @shows_root paths size
  have empty := @text_eq_nil paths
  rw [joinAndNormalizeMultiple, normalized, head?_eq some_, Option.bind_eq_bind, Option.bind_some]
  dsimp only
  rcases getFirstSegmentJoined_spec noNul with ⟨none, noNames⟩ | ⟨sj, part, after, found, named, at_⟩
  · have noneLeft : joined separator (resolved paths) = [] := by
      rw [resolved, noNames]
      rfl
    rw [none, noneLeft, noNames, List.append_nil, if_neg (fun both => both.2 rfl)]
    exact ⟨_, congrArg some root.done.1, root.done.2⟩
  · have left : kept kind (isAbsolute (paths.headD [])) [] (part :: after) = resolved paths := by
      rw [kept_eq_resolve, ← named, resolved]
    obtain ⟨final, loop, shows, flag⟩ : ∃ final, joinLoop (isAbsolute (paths.headD [])) size sj
          ⟨getRoot (paths.headD []), false, [outputSized size 0 (paths.headD []) (getRoot (paths.headD []))]⟩ =
        some final ∧ Shows size final (rootOf paths ++ joined separator (resolved paths)) ∧
        final.hasSegmentOutput = decide (resolved paths ≠ []) := by
      obtain ⟨shows, flag⟩ := @Shows.names (resolved paths) _ _ _ root rfl
      refine ⟨_, ?_, shows, flag⟩
      rw [joinLoop_eq at_ noNul few, left]
    have someNames : namesOf paths ≠ [] := by
      rw [named]
      exact List.cons_ne_nil _ _
    have nothing : final.hasSegmentOutput = false ∧ final.pos = 0 ↔
        rootOf paths ++ joined separator (resolved paths) = [] := by
      rw [flag, shows.pos, List.length_eq_zero_iff]
      apply and_iff_right_of_imp
      intro noText
      simp [(empty.mp noText).2]
    rw [found]
    dsimp only
    rw [isAbsolute] at loop
    rw [loop, Option.bind_eq_bind, Option.bind_some]
    by_cases noText : rootOf paths ++ joined separator (resolved paths) = []
    · have relative : isRootAbsolute (paths.headD []) (getRoot (paths.headD [])) = false :=
        (empty.mp noText).1
      rw [if_pos (nothing.mpr noText), relative, if_neg Bool.false_ne_true, if_pos ⟨noText, someNames⟩]
      rw [noText] at shows
      have alone := @Shows.write _ _ _ [dot] 1 shows (Nat.le_refl 1)
      exact ⟨_, congrArg some alone.done.1, alone.done.2⟩
    · rw [if_neg (noText ∘ nothing.mp), if_neg (fun both => noText both.1)]
      exact ⟨_, congrArg some shows.done.1, shows.done.2⟩

theorem mem_joined {c : Byte} (mem : c ∈ joined separator parts) : c = separator ∨ ∃ part ∈ parts, c ∈ part := by
  induction parts using List.reverseRecOn with
  | nil => cases mem
  | append_singleton parts part ih =>
      rw [joined_concat] at mem
      split at mem
      · exact Or.inr ⟨part, by simp, mem⟩
      · rcases List.mem_append.mp mem with earlier | later
        · rcases ih earlier with sep | ⟨other, inside, char⟩
          · exact Or.inl sep
          · exact Or.inr ⟨other, List.mem_append_left _ inside, char⟩
        · rcases List.mem_cons.mp later with sep | char
          · exact Or.inl sep
          · exact Or.inr ⟨part, by simp, char⟩

/-- The normalized path is a string. -/
theorem noNul_normalized (noNul : ∀ path ∈ paths, 0 ∉ path) : 0 ∉ normalized paths := by
  have noText : 0 ∉ rootOf paths ++ joined separator (resolved paths) := by
    rw [rootOf_eq]
    intro mem
    rcases List.mem_append.mp mem with root | name
    · split at root
      · cases List.mem_singleton.mp root
      · cases root
    · rcases mem_joined name with sep | ⟨part, inside, char⟩
      · cases sep
      · obtain ⟨path, among, named⟩ := List.mem_flatMap.mp (resolve_sublist.subset inside)
        exact noNul path among (mem_of_mem_names named char)
  rw [normalized]
  split
  · decide
  · exact noText

/-! ## Paths that were joined before -/

/-- Where a path is absolute, its first character is a separator. -/
theorem isAbsolute_iff : isAbsolute path = true ↔ path.head? = some separator := by
  rw [isAbsolute, isRootAbsolute, getRoot]
  cases path with
  | nil => decide
  | cons c path =>
      cases sep : isSeparator (charAt (c :: path) 0) with
      | true =>
          have same : c = separator := isSeparator_iff.mp sep
          subst same
          exact iff_of_true rfl rfl
      | false =>
          have other : c ≠ separator := fun same => by
            rw [same] at sep
            cases sep
          simpa using other

theorem head_joined (some_ : part ∈ parts.head?) (isName : IsName separator part) :
    (joined separator parts).head? = part.head? := by
  cases parts with
  | nil => cases some_
  | cons first parts =>
      obtain rfl : first = part := Option.some.inj some_
      obtain ⟨c, first, rfl⟩ := List.exists_cons_of_ne_nil isName.ne_nil
      cases parts with
      | nil => rfl
      | cons second parts => rfl

/-- The normalized path is absolute just when the first one was. -/
theorem isAbsolute_normalized : isAbsolute (normalized paths) = isAbsolute (paths.headD []) := by
  rw [normalized]
  cases absolute : isAbsolute (paths.headD []) with
  | true =>
      rw [rootOf_eq, absolute, if_pos rfl, if_neg (fun both => by cases both.1)]
      exact isAbsolute_iff.mpr rfl
  | false =>
      rw [rootOf_eq, absolute, if_neg Bool.false_ne_true, List.nil_append]
      split
      · rfl
      · rw [Bool.eq_false_iff]
        intro rooted
        have head := isAbsolute_iff.mp rooted
        cases left : resolved paths with
        | nil =>
            rw [left] at head
            cases head
        | cons part parts =>
            have isName : IsName separator part :=
              isName_of_mem_resolved (left ▸ List.mem_cons_self)
            have same := @head_joined part (part :: parts) rfl isName
            rw [left, same] at head
            exact isName.noSep (List.mem_of_head? head)

theorem names_text : names separator (rootOf paths ++ joined separator (resolved paths)) = resolved paths := by
  have seps : ∀ c ∈ rootOf paths, c = separator := by
    rw [rootOf_eq]
    split
    · exact List.forall_mem_singleton.mpr rfl
    · exact List.forall_mem_nil _
  rw [names_append_seps seps, names_joined fun part => isName_of_mem_resolved]

/-- The names of the normalized path are those in effect; a dot stands for none. -/
theorem names_normalized : names separator (normalized paths) = resolved paths ∨
    (names separator (normalized paths) = [[dot]] ∧ resolved paths = []) := by
  rw [normalized]
  split
  · rename_i noText
    exact Or.inr ⟨rfl, (text_eq_nil.mp noText.1).2⟩
  · exact Or.inl names_text

/-- There are no more of them than of the paths. -/
theorem length_names_normalized : (names separator (normalized paths)).length ≤ (namesOf paths).length := by
  rw [normalized]
  split
  · rename_i noText
    exact Nat.succ_le_of_lt (List.length_pos_of_ne_nil noText.2)
  · rw [names_text]
    exact resolve_sublist.length_le

/-- A relative path does not lose all names. -/
theorem names_normalized_eq_nil (relative : isAbsolute (paths.headD []) = false) :
    names separator (normalized paths) = [] ↔ namesOf paths = [] := by
  rw [normalized]
  split
  · rename_i noText
    exact iff_of_false (List.cons_ne_nil _ _) noText.2
  · rename_i text
    rw [names_text]
    constructor
    · intro none
      by_contra some_
      exact text ⟨text_eq_nil.mpr ⟨relative, none⟩, some_⟩
    · intro none
      rw [resolved, none]
      rfl

/-- To go on from the normalized path is to go on from the paths. -/
theorem resolve_normalized {more : List (List Byte)} :
    resolve kind (isAbsolute (paths.headD [])) (names separator (normalized paths) ++ more) =
      resolve kind (isAbsolute (paths.headD [])) (namesOf paths ++ more) := by
  have whole : resolve kind (isAbsolute (paths.headD [])) (resolved paths ++ more) =
      resolve kind (isAbsolute (paths.headD [])) (namesOf paths ++ more) := resolve_append
  rw [← whole]
  rcases names_normalized with same | ⟨single, none⟩
  · rw [same]
  · rw [single, none]
    rfl

/-- A list of paths may be joined in two steps. -/
theorem normalized_append {front rest : List (List Byte)} (some_ : front ≠ []) :
    normalized (normalized front :: rest) = normalized (front ++ rest) := by
  have head : (front ++ rest).headD [] = front.headD [] := by
    cases front with
    | nil => exact absurd rfl some_
    | cons path front => rfl
  have root : rootOf (normalized front :: rest) = rootOf (front ++ rest) := by
    rw [rootOf_eq, rootOf_eq, head, List.headD_cons, isAbsolute_normalized]
  have left : resolved (normalized front :: rest) = resolved (front ++ rest) := by
    rw [resolved, resolved, head, List.headD_cons, isAbsolute_normalized, namesOf_cons, resolve_normalized,
      namesOf_append]
  have text : normalized (normalized front :: rest) =
      if rootOf (front ++ rest) ++ joined separator (resolved (front ++ rest)) = [] ∧
        namesOf (normalized front :: rest) ≠ [] then [dot]
      else rootOf (front ++ rest) ++ joined separator (resolved (front ++ rest)) := by
    rw [← root, ← left]
    rfl
  have whole : normalized (front ++ rest) =
      if rootOf (front ++ rest) ++ joined separator (resolved (front ++ rest)) = [] ∧
        namesOf (front ++ rest) ≠ [] then [dot]
      else rootOf (front ++ rest) ++ joined separator (resolved (front ++ rest)) := rfl
  rw [text, whole]
  cases absolute : isAbsolute (front.headD []) with
  | true =>
      have some_ : rootOf (front ++ rest) ++ joined separator (resolved (front ++ rest)) ≠ [] := by
        rw [rootOf_eq, head, absolute]
        exact List.cons_ne_nil _ _
      rw [if_neg (fun both => some_ both.1), if_neg (fun both => some_ both.1)]
  | false =>
      have someNames : namesOf (normalized front :: rest) = [] ↔ namesOf (front ++ rest) = [] := by
        rw [namesOf_cons, namesOf_append, List.append_eq_nil_iff, List.append_eq_nil_iff,
          names_normalized_eq_nil absolute]
      simp only [ne_eq, someNames]

/-- A path that has segments that go back only at the beginning, and none at a root, with one
separator between any two segments; a dot alone is left of a relative path that leads nowhere. -/
def Normal (path : List Byte) : Prop :=
  path = [dot] ∨ ∃ backs ahead, path = rootOf [path] ++ joined separator (backs ++ ahead) ∧
    (∀ part ∈ backs, part = [dot, dot]) ∧
    (∀ part ∈ ahead, IsName separator part ∧ part ≠ [dot] ∧ part ≠ [dot, dot]) ∧
    (isAbsolute path = true → backs = [])

theorem kind_eq_back : kind part = .back ↔ part = [dot, dot] := by
  rw [kind]
  split
  · rename_i same
    rw [same]
    decide
  · split
    · rename_i same
      exact iff_of_true rfl same
    · rename_i other
      exact iff_of_false SegmentKind.noConfusion other

theorem ne_of_kind_normal (normal : kind part = .normal) : part ≠ [dot] ∧ part ≠ [dot, dot] := by
  constructor
  · rintro rfl
    cases normal
  · rintro rfl
    cases normal

/-- What is written is in normal form. -/
theorem normal_normalized : Normal (normalized paths) := by
  have root : rootOf [normalized paths] = rootOf paths := by
    rw [rootOf_eq, rootOf_eq, List.headD_cons, isAbsolute_normalized]
  rw [Normal, root, isAbsolute_normalized]
  obtain ⟨ahead, backs, same, normals, allBacks, atRoot⟩ :=
    @resolve_settled _ kind (isAbsolute (paths.headD [])) (namesOf paths)
  rw [normalized]
  split
  · exact Or.inl rfl
  · refine Or.inr ⟨backs, ahead, ?_, fun part mem => kind_eq_back.mp (allBacks part mem), ?_, atRoot⟩
    · rw [← same, resolved]
    · intro part mem
      have among : part ∈ resolved paths := by
        rw [resolved, same]
        exact List.mem_append_right _ mem
      exact ⟨isName_of_mem_resolved among, ne_of_kind_normal (normals part mem)⟩

/-- As much of a string as fits is read back from the buffer. -/
theorem cstring_terminated {buffer : Nat → Byte} (noNul : 0 ∉ text) (pos : 0 < size) :
    cstring (Block.store buffer ⟨0, terminated text size⟩) 0 size = some (text.take (size - 1)) := by
  rw [terminated, if_neg (Nat.ne_of_gt pos)]
  apply cstring_of_holds Block.holds_store
  · exact fun mem => noNul (List.mem_of_mem_take mem)
  · rw [List.length_take]
    omega

theorem length_terminated : (terminated text size).length ≤ size := by
  rw [terminated]
  split
  · exact Nat.zero_le _
  · rw [List.length_append, List.length_take, List.length_singleton]
    omega

/-- Paths whose names an `int` can count are joined in a buffer of any size: no assertion fails, what is
returned is the length of the normalized path, the buffer has as much of it as fits, and nothing behind
the buffer changes. -/
theorem joinAndNormalizeMultiple_buffer (some_ : paths ≠ []) (noNul : ∀ path ∈ paths, 0 ∉ path)
    (few : (namesOf paths).length < 2 ^ 31) :
    ∃ written, joinAndNormalizeMultiple paths size = some ((normalized paths).length, written) ∧
      ∀ buffer, (∀ i, size ≤ i → Block.storeAll buffer written i = buffer i) ∧
        (0 < size → cstring (Block.storeAll buffer written) 0 size =
          some ((normalized paths).take (size - 1))) := by
  obtain ⟨written, result, stored⟩ := @joinAndNormalizeMultiple_eq paths size some_ noNul few
  refine ⟨written, result, fun buffer => ?_⟩
  rw [stored buffer]
  constructor
  · intro i behind
    apply Block.store_of_notMem
    rintro ⟨-, before⟩
    have short := @length_terminated (normalized paths) size
    dsimp only at before
    omega
  · exact cstring_terminated (noNul_normalized noNul)

/-- From the root up to it again. -/
theorem joinAndNormalizeMultiple_buffer_root :
    ∃ written, joinAndNormalizeMultiple [[separator], [dot, dot]] 2 = some (1, written) ∧
      ∀ buffer, (∀ i, 2 ≤ i → Block.storeAll buffer written i = buffer i) ∧
        (0 < 2 → cstring (Block.storeAll buffer written) 0 2 = some [separator]) :=
  @joinAndNormalizeMultiple_buffer [[separator], [dot, dot]] 2 (by decide) (by decide) (by decide)

/-- A result that fits in the buffer is in normal form, it is normalized to itself, and it may be joined to
other paths instead of the paths it was made of. -/
theorem joinAndNormalizeMultiple_twice {front rest : List (List Byte)} {len size' : Nat}
    {written : List (Block Byte)} (some_ : front ≠ []) (noNul : ∀ path ∈ front ++ rest, 0 ∉ path)
    (few : (namesOf (front ++ rest)).length < 2 ^ 31)
    (result : joinAndNormalizeMultiple front size = some (len, written)) (fits : len < size)
    (buffer : Nat → Byte) :
    ∃ text, cstring (Block.storeAll buffer written) 0 size = some text ∧ Normal text ∧
      (∃ again, normalize text size = some (len, again) ∧
        ∀ buffer', Block.storeAll buffer' again = Block.storeAll buffer' written) ∧
      ∃ len' once twice, joinAndNormalizeMultiple (front ++ rest) size' = some (len', once) ∧
        joinAndNormalizeMultiple (text :: rest) size' = some (len', twice) ∧
        ∀ buffer', Block.storeAll buffer' twice = Block.storeAll buffer' once := by
  obtain ⟨frontNoNul, restNoNul⟩ := List.forall_mem_append.mp noNul
  have all := few
  rw [namesOf_append, List.length_append] at few
  obtain ⟨written', result', stored⟩ := @joinAndNormalizeMultiple_eq front size some_ frontNoNul (by omega)
  obtain ⟨rfl, rfl⟩ := Prod.mk.inj (Option.some.inj (result.symm.trans result'))
  have textNoNul : 0 ∉ normalized front := noNul_normalized frontNoNul
  have fewer := @length_names_normalized front
  have bothSome : front ++ rest ≠ [] := fun none => some_ (List.append_eq_nil_iff.mp none).1
  obtain ⟨once, first, storedOnce⟩ := @joinAndNormalizeMultiple_eq (front ++ rest) size' bothSome noNul all
  obtain ⟨twice, second, storedTwice⟩ := @joinAndNormalizeMultiple_eq (normalized front :: rest) size'
    (List.cons_ne_nil _ _) (List.forall_mem_cons.mpr ⟨textNoNul, restNoNul⟩) (by
      rw [namesOf_cons, List.length_append]
      omega)
  obtain ⟨again, alone, storedAgain⟩ := @joinAndNormalizeMultiple_eq [normalized front] size
    (List.cons_ne_nil _ _) (List.forall_mem_singleton.mpr textNoNul) (by
      rw [namesOf_cons, namesOf_nil, List.append_nil]
      omega)
  have itself : normalized [normalized front] = normalized front := by
    rw [normalized_append some_, List.append_nil]
  rw [itself] at alone storedAgain
  rw [normalized_append some_] at second storedTwice
  refine ⟨normalized front, ?_, normal_normalized, ⟨again, alone, fun buffer' => ?_⟩, _, once, twice, first,
    second, fun buffer' => ?_⟩
  · rw [stored buffer, cstring_terminated textNoNul (Nat.zero_lt_of_lt fits),
      List.take_of_length_le (Nat.le_sub_one_of_lt fits)]
  · rw [storedAgain, stored]
  · rw [storedOnce, storedTwice]

/-- The root is left of it and a step up, also when it has been normalized before. -/
theorem joinAndNormalizeMultiple_twice_root :
    ∃ text, text.length = 1 ∧ Normal text ∧
      ∃ len' once twice, joinAndNormalizeMultiple [[separator], [dot, dot]] 2 = some (len', once) ∧
        joinAndNormalizeMultiple [text, [dot, dot]] 2 = some (len', twice) ∧
        ∀ buffer', Block.storeAll buffer' twice = Block.storeAll buffer' once := by
  obtain ⟨written, result, stored⟩ := @joinAndNormalizeMultiple_eq [[separator]] 2 (by decide) (by decide)
    (by decide)
  obtain ⟨text, found, normal, -, same⟩ := @joinAndNormalizeMultiple_twice 2 [[separator]] [[dot, dot]] 1 2
    written (by decide) (by decide) (by decide) result (by decide) (fun _ => 0)
  refine ⟨text, ?_, normal, same⟩
  rw [stored, cstring_terminated (by decide) (by decide)] at found
  cases found
  rfl

end Lps.Linux.Cwk

import Lps.Linux.CwalkSpec
import Lps.Linux.Getcwd

/-!
# The working directory

`proc_chdir` keeps the working directory as a path in an array.  An absolute path is copied, and a
relative one is joined to the path that is there.  What does not fit in the array is cut.
-/

namespace Lps.Linux

open Lps.Memory Lps.Segments

/-- `proc_chdir`: what it returns, and the array it leaves.  `cwd` is the memory from `cwd.path` on,
and `stack` what the array `joined` holds when it is declared.  `none` is a string that is read
behind its array, or an assertion that fails. -/
def procChdir (stack cwd : Nat → Byte) (path : List Byte) : Option (Int × (Nat → Byte)) :=
  if Cwk.isAbsolute path then
    let len := strnlen (Cwk.charAt path) (Path.FILENAME_MAX - 1)
    let cwd := Block.store cwd ⟨0, path.take len⟩
    some (0, Block.store cwd ⟨len, [0]⟩)
  else if cwd 0 = 0 then some (-Path.LINUX_ENOENT.toNat, cwd)
  else do
    let base ← cstring cwd 0 Path.FILENAME_MAX
    let result ← Cwk.join base path Path.FILENAME_MAX
    let joined := Block.storeAll stack result.2
    let copied := Path.hostStrncpy ((List.range Path.FILENAME_MAX).map joined) Path.FILENAME_MAX
    let cwd := Block.store cwd ⟨0, copied⟩
    return (0, Block.store cwd ⟨Path.FILENAME_MAX - 1, [0]⟩)

/-- A call of `proc_chdir`; its path was copied by `pathcopy`, or comes from a file that was opened
with such a path. -/
structure Chdir where
  stack : Nat → Byte
  path : List Byte
  noNul : 0 ∉ path
  short : path.length < Path.FILENAME_MAX

/-- Calls one after another. -/
def chdirs (cwd : Nat → Byte) : List Chdir → Option (Nat → Byte)
  | [] => some cwd
  | call :: calls => do
      let result ← procChdir call.stack cwd call.path
      chdirs result.2 calls

/-! ## Directories -/

/-- A directory is the list of names that lead to it from the root. -/
abbrev Directory := List (List Byte)

/-- The path of a directory. -/
def Directory.pathname (dir : Directory) : List Byte := Cwk.separator :: joined Cwk.separator dir

/-- The directory in which one is after going there; at first there is none. -/
def enterDir (dir : Option Directory) (path : List Byte) : Option Directory :=
  if Cwk.isAbsolute path then some (resolve Cwk.kind true (names Cwk.separator path))
  else dir.map fun dir => resolve Cwk.kind true (dir ++ names Cwk.separator path)

/-- The directory that a string stands for; the empty string stands for none. -/
def directoryOf (text : List Byte) : Option Directory :=
  if text = [] then none else some (resolve Cwk.kind true (names Cwk.separator text))

/-- The directory that is in the array, if there is a string in it. -/
def workDir (cwd : Nat → Byte) : Option (Option Directory) :=
  (cstring cwd 0 Path.FILENAME_MAX).map directoryOf

/-- The directory after these calls. -/
def dirAfter (dir : Option Directory) (calls : List Chdir) : Option Directory :=
  calls.foldl (fun dir call => enterDir dir call.path) dir

/-- The path of a directory has room in the array. -/
def Fits (dir : Option Directory) : Prop := ∀ names ∈ dir, names.pathname.length < Path.FILENAME_MAX

/-! ## Strings in arrays -/

variable {mem cwd stack : Nat → Byte} {addr n : Nat} {text path : List Byte}

theorem strnlen_charAt (noNul : 0 ∉ path) : strnlen (Cwk.charAt path) n = min path.length n := by
  induction n generalizing path with
  | zero => exact (Nat.min_zero _).symm
  | succ n ih =>
      rw [strnlen]
      cases path with
      | nil => simp [Cwk.charAt]
      | cons c path =>
          obtain ⟨nonzero, others⟩ := not_or.mp (List.mem_cons.not.mp noNul)
          have more : Cwk.charAt (c :: path) 0 ≠ 0 := fun nul => nonzero nul.symm
          have later := ih others
          rw [if_neg more, List.length_cons]
          have same : (fun i => Cwk.charAt (c :: path) (i + 1)) = Cwk.charAt path := rfl
          rw [same, later]
          omega

theorem hostStrncpy_eq {rest : List Byte} (noNul : 0 ∉ text) (short : text.length < n) :
    Path.hostStrncpy (text ++ 0 :: rest) n = text ++ 0 :: List.replicate (n - text.length - 1) 0 := by
  induction text generalizing n with
  | nil =>
      cases n with
      | zero => omega
      | succ n =>
          rw [List.nil_append, Path.hostStrncpy, if_pos rfl]
          simp [List.replicate_succ]
  | cons c text ih =>
      obtain ⟨nonzero, others⟩ := not_or.mp (List.mem_cons.not.mp noNul)
      cases n with
      | zero => omega
      | succ n =>
          rw [List.cons_append, Path.hostStrncpy, if_neg (fun nul => nonzero nul.symm),
            ih others (Nat.lt_of_succ_lt_succ short)]
          simp

/-- The copy of a string, and the terminator at the end of the array. -/
theorem store_hostStrncpy {rest : List Byte} (noNul : 0 ∉ text) (short : text.length ≤ n) :
    Block.store (Block.store cwd ⟨0, Path.hostStrncpy (text ++ 0 :: rest) (n + 1)⟩) ⟨n, [0]⟩ =
      Block.store cwd ⟨0, text ++ 0 :: List.replicate (n - text.length) 0⟩ := by
  have copy := @hostStrncpy_eq (n + 1) text rest noNul (Nat.lt_succ_of_le short)
  have padded : text ++ 0 :: List.replicate (n - text.length) 0 =
      text ++ List.replicate (n - text.length) 0 ++ [0] := by
    rw [List.append_assoc, ← List.replicate_succ', ← List.replicate_succ]
  have length : (text ++ List.replicate (n - text.length) (0 : Byte)).length = n := by
    rw [List.length_append, List.length_replicate]
    omega
  have last := @Block.store_append _ cwd 0 (text ++ List.replicate (n - text.length) 0) [0]
  have again := @Block.store_store _ (Block.store cwd ⟨0, text ++ List.replicate (n - text.length) 0⟩) n [0] [0] rfl
  rw [Nat.zero_add, length] at last
  have left : n + 1 - text.length - 1 = n - text.length := by omega
  rw [copy, left, padded, ← last, again]

/-! ## One call -/

/-- An absolute path is copied. -/
theorem procChdir_absolute (absolute : Cwk.isAbsolute path = true) (noNul : 0 ∉ path)
    (short : path.length < Path.FILENAME_MAX) :
    procChdir stack cwd path = some (0, Block.store cwd ⟨0, path ++ [0]⟩) := by
  have whole : strnlen (Cwk.charAt path) (Path.FILENAME_MAX - 1) = path.length := by
    rw [strnlen_charAt noNul]
    exact Nat.min_eq_left (Nat.le_pred_of_lt short)
  have behind := @Block.store_append _ cwd 0 path [0]
  rw [Nat.zero_add] at behind
  rw [procChdir, if_pos absolute, whole]
  dsimp only
  rw [List.take_length, behind]

/-- Two paths that are short enough have few names. -/
theorem namesOf_short (first : text.length < Path.FILENAME_MAX) (second : path.length < Path.FILENAME_MAX) :
    (Cwk.namesOf [text, path]).length < 2 ^ 31 := by
  have names := @length_names_le _ Cwk.separator text _
  have names' := @length_names_le _ Cwk.separator path _
  have max : Path.FILENAME_MAX = 4096 := rfl
  rw [Cwk.namesOf_cons, Cwk.namesOf_cons, Cwk.namesOf_nil, List.append_nil, List.length_append]
  omega

/-- A relative path is joined to what is there, and cut. -/
theorem procChdir_relative (relative : Cwk.isAbsolute path = false) (noNul : 0 ∉ path)
    (short : path.length < Path.FILENAME_MAX)
    (found : cstring cwd 0 Path.FILENAME_MAX = some text) (some_ : text ≠ []) :
    ∃ cwd', procChdir stack cwd path = some (0, cwd') ∧
      cstring cwd' 0 Path.FILENAME_MAX =
        some ((Cwk.normalized [text, path]).take (Path.FILENAME_MAX - 1)) ∧
      ∀ i, Path.FILENAME_MAX ≤ i → cwd' i = cwd i := by
  have bothNoNul : ∀ path' ∈ [text, path], 0 ∉ path' := by
    simpa using ⟨(cstring_some found).1, noNul⟩
  obtain ⟨written, result, stored⟩ := @Cwk.joinAndNormalizeMultiple_eq [text, path] Path.FILENAME_MAX
    (List.cons_ne_nil _ _) bothNoNul (namesOf_short (cstring_some found).2 short)
  generalize cutEq : (Cwk.normalized [text, path]).take (Path.FILENAME_MAX - 1) = cut
  have cutNoNul : 0 ∉ cut := by
    rw [← cutEq]
    exact fun mem => Cwk.noNul_normalized bothNoNul (List.mem_of_mem_take mem)
  have cutShort : cut.length ≤ 4095 := by
    rw [← cutEq, List.length_take]
    exact Nat.min_le_left ..
  have inside : Block.storeAll stack written = Block.store stack ⟨0, cut ++ [0]⟩ := by
    rw [stored stack, ← cutEq]
    rfl
  have within : (cut ++ [0]).length ≤ Path.FILENAME_MAX := by
    rw [List.length_append]
    exact Nat.succ_le_succ cutShort
  obtain ⟨rest, read⟩ := @map_range_store _ stack Path.FILENAME_MAX (cut ++ [0]) within
  rw [List.append_assoc, List.singleton_append] at read
  have first : cwd 0 ≠ 0 := fun nul => some_ ((cstring_eq_nil found).mpr nul)
  refine ⟨Block.store cwd ⟨0, cut ++ 0 :: List.replicate (4095 - cut.length) 0⟩, ?_, ?_, ?_⟩
  · have join : Cwk.join text path Path.FILENAME_MAX = some ((Cwk.normalized [text, path]).length, written) :=
      result
    rw [procChdir, if_neg (Bool.eq_false_iff.mp relative), if_neg first, found, Option.bind_eq_bind,
      Option.bind_some, join, Option.bind_eq_bind, Option.bind_some]
    dsimp only
    rw [inside, read]
    exact congrArg (fun cwd => some (0, cwd)) (store_hostStrncpy cutNoNul cutShort)
  · have held : Holds (Block.store cwd ⟨0, cut ++ 0 :: List.replicate (4095 - cut.length) 0⟩) 0
        (cut ++ [0] ++ List.replicate (4095 - cut.length) 0) := by
      rw [List.append_assoc, List.singleton_append]
      exact Block.holds_store
    exact cstring_of_holds (holds_append.mp held).1 cutNoNul (Nat.lt_succ_of_le cutShort)
  · intro i behind
    apply Block.store_of_notMem
    rintro ⟨-, before⟩
    simp only [List.length_append, List.length_cons, List.length_replicate] at before
    have outside : 4096 ≤ i := behind
    omega

/-- The string that a call leaves in the array. -/
def entered (text path : List Byte) : List Byte :=
  if Cwk.isAbsolute path then path
  else if text = [] then []
  else (Cwk.normalized [text, path]).take (Path.FILENAME_MAX - 1)

/-- There is a string in the array, which is empty or an absolute path. -/
structure HasPath (cwd : Nat → Byte) (text : List Byte) : Prop where
  string : cstring cwd 0 Path.FILENAME_MAX = some text
  rooted : text = [] ∨ Cwk.isAbsolute text = true

theorem isAbsolute_take {n : Nat} (absolute : Cwk.isAbsolute path = true) :
    Cwk.isAbsolute (path.take (n + 1)) = true := by
  have head := Cwk.isAbsolute_iff.mp absolute
  apply Cwk.isAbsolute_iff.mpr
  cases path with
  | nil => cases head
  | cons c path => exact head

theorem ne_nil_of_isAbsolute (absolute : Cwk.isAbsolute path = true) : path ≠ [] := by
  rintro rfl
  cases absolute

/-- What is joined to an absolute path is absolute, also when it is cut. -/
theorem isAbsolute_cut (absolute : Cwk.isAbsolute text = true) :
    Cwk.isAbsolute ((Cwk.normalized [text, path]).take (Path.FILENAME_MAX - 1)) = true := by
  apply isAbsolute_take
  rw [Cwk.isAbsolute_normalized]
  exact absolute

theorem entered_rooted (rooted : text = [] ∨ Cwk.isAbsolute text = true) :
    entered text path = [] ∨ Cwk.isAbsolute (entered text path) = true := by
  rw [entered]
  split
  · rename_i absolute
    exact Or.inr absolute
  · split
    · exact Or.inl rfl
    · rename_i some_
      exact Or.inr (isAbsolute_cut (rooted.resolve_left some_))

/-- There is no directory as long as no absolute path was entered. -/
theorem entered_eq_nil (rooted : text = [] ∨ Cwk.isAbsolute text = true) :
    entered text path = [] ↔ text = [] ∧ Cwk.isAbsolute path = false := by
  rw [entered]
  split
  · rename_i absolute
    exact iff_of_false (ne_nil_of_isAbsolute absolute) fun both => both.2 ▸ absolute |> Bool.false_ne_true
  · rename_i relative
    split
    · rename_i none
      exact iff_of_true rfl ⟨none, Bool.eq_false_iff.mpr relative⟩
    · rename_i some_
      exact iff_of_false (ne_nil_of_isAbsolute (isAbsolute_cut (rooted.resolve_left some_)))
        fun both => some_ both.1

/-- A call leaves a path in the array, and nothing else is changed. -/
theorem HasPath.procChdir (has : HasPath cwd text) (noNul : 0 ∉ path) (short : path.length < Path.FILENAME_MAX) :
    ∃ cwd', procChdir stack cwd path = some (if entered text path = [] then -2 else 0, cwd') ∧
      HasPath cwd' (entered text path) ∧ ∀ i, Path.FILENAME_MAX ≤ i → cwd' i = cwd i := by
  have rooted := @entered_rooted text path has.rooted
  have empty := @entered_eq_nil text path has.rooted
  cases absolute : Cwk.isAbsolute path with
  | true =>
      have same : entered text path = path := if_pos absolute
      rw [same] at rooted ⊢
      rw [if_neg (ne_nil_of_isAbsolute absolute)]
      refine ⟨_, procChdir_absolute absolute noNul short, ⟨?_, rooted⟩, ?_⟩
      · exact cstring_of_holds Block.holds_store noNul short
      · intro i behind
        apply Block.store_of_notMem
        rintro ⟨-, before⟩
        simp only [List.length_append, List.length_singleton] at before
        omega
  | false =>
      by_cases none : text = []
      · have first : cwd 0 = 0 := (cstring_eq_nil has.string).mp none
        have same : entered text path = [] := empty.mpr ⟨none, absolute⟩
        rw [same, if_pos rfl]
        refine ⟨cwd, ?_, none ▸ has, fun i behind => rfl⟩
        rw [Linux.procChdir, if_neg (Bool.eq_false_iff.mp absolute), if_pos first]
        rfl
      · obtain ⟨cwd', result, found, unchanged⟩ :=
          @procChdir_relative cwd stack text path absolute noNul short has.string none
        have same : entered text path = (Cwk.normalized [text, path]).take (Path.FILENAME_MAX - 1) := by
          rw [entered, if_neg (Bool.eq_false_iff.mp absolute), if_neg none]
        rw [if_neg fun nothing => none (empty.mp nothing).1]
        exact ⟨cwd', result, ⟨same ▸ found, rooted⟩, unchanged⟩

/-! ## Runs -/

/-- The string that calls leave in the array. -/
def enteredAll (text : List Byte) (calls : List Chdir) : List Byte :=
  calls.foldl (fun text call => entered text call.path) text

/-- After any calls there is a path in the array, and nothing behind the array has changed. -/
theorem HasPath.chdirs {calls : List Chdir} (has : HasPath cwd text) :
    ∃ cwd', chdirs cwd calls = some cwd' ∧ HasPath cwd' (enteredAll text calls) ∧
      ∀ i, Path.FILENAME_MAX ≤ i → cwd' i = cwd i := by
  induction calls generalizing cwd text with
  | nil => exact ⟨cwd, rfl, has, fun i behind => rfl⟩
  | cons call calls ih =>
      obtain ⟨cwd', result, has', same⟩ :=
        @HasPath.procChdir cwd call.stack text call.path has call.noNul call.short
      obtain ⟨cwd'', results, has'', same'⟩ := ih has'
      refine ⟨cwd'', ?_, has'', fun i behind => (same' i behind).trans (same i behind)⟩
      rw [Linux.chdirs, result, Option.bind_eq_bind, Option.bind_some]
      exact results

theorem enteredAll_eq_nil {calls : List Chdir} (rooted : text = [] ∨ Cwk.isAbsolute text = true) :
    enteredAll text calls = [] ↔ text = [] ∧ ∀ call ∈ calls, Cwk.isAbsolute call.path = false := by
  induction calls generalizing text with
  | nil => exact (and_iff_left (List.forall_mem_nil _)).symm
  | cons call calls ih =>
      have later : enteredAll text (call :: calls) = enteredAll (entered text call.path) calls := rfl
      rw [later, ih (entered_rooted rooted), entered_eq_nil rooted, List.forall_mem_cons, and_assoc]

/-! ## The right directory -/

theorem length_pathname {dir : Directory} : dir.pathname.length = max 1 (room dir) := by
  rw [Directory.pathname, List.length_cons]
  by_cases none : dir = []
  · subst none
    rfl
  · rw [length_joined none]
    cases dir with
    | nil => exact absurd rfl none
    | cons part dir =>
        rw [room_cons]
        omega

/-- An absolute path has room for its names, with a separator before each of them. -/
theorem room_names_absolute (absolute : Cwk.isAbsolute path = true) :
    room (names Cwk.separator path) ≤ path.length := by
  have head := Cwk.isAbsolute_iff.mp absolute
  cases path with
  | nil => cases head
  | cons c path =>
      obtain rfl : c = Cwk.separator := Option.some.inj head
      rw [names_cons_sep]
      exact room_names_le path.length (Nat.le_refl _)

/-- A string that is in the array stands for a directory whose path has room there. -/
theorem fits_directoryOf (rooted : text = [] ∨ Cwk.isAbsolute text = true)
    (short : text.length < Path.FILENAME_MAX) : Fits (directoryOf text) := by
  intro dir mem
  rw [directoryOf] at mem
  split at mem
  · cases mem
  · rename_i some_
    obtain rfl : resolve Cwk.kind true (names Cwk.separator text) = dir := Option.some.inj mem
    have absolute : Cwk.isAbsolute text = true := rooted.resolve_left some_
    have all : room (resolve Cwk.kind true (names Cwk.separator text)) ≤ text.length :=
      (room_sublist resolve_sublist).trans (room_names_absolute absolute)
    rw [length_pathname]
    exact max_lt (by decide) (all.trans_lt short)

/-- A call leads to the right directory just when its path has room in the array. -/
theorem directoryOf_entered (rooted : text = [] ∨ Cwk.isAbsolute text = true)
    (short : path.length < Path.FILENAME_MAX) :
    directoryOf (entered text path) = enterDir (directoryOf text) path ↔
      Fits (enterDir (directoryOf text) path) := by
  cases absolute : Cwk.isAbsolute path with
  | true =>
      have same : entered text path = path := if_pos absolute
      have right : directoryOf path = enterDir (directoryOf text) path := by
        rw [directoryOf, if_neg (ne_nil_of_isAbsolute absolute), enterDir, if_pos absolute]
      rw [same]
      exact iff_of_true right (right ▸ fits_directoryOf (Or.inr absolute) short)
  | false =>
      by_cases none : text = []
      · have same : entered text path = [] := (entered_eq_nil rooted).mpr ⟨none, absolute⟩
        have nowhere : enterDir (directoryOf text) path = Option.none := by
          rw [none, enterDir, if_neg (Bool.eq_false_iff.mp absolute)]
          rfl
        rw [same, nowhere]
        exact iff_of_true rfl fun dir mem => by cases mem
      · have textAbsolute : Cwk.isAbsolute text = true := rooted.resolve_left none
        have same : entered text path = (Cwk.normalized [text, path]).take (Path.FILENAME_MAX - 1) := by
          rw [entered, if_neg (Bool.eq_false_iff.mp absolute), if_neg none]
        have goal : enterDir (directoryOf text) path = some (Cwk.resolved [text, path]) := by
          rw [enterDir, if_neg (Bool.eq_false_iff.mp absolute), directoryOf, if_neg none, Option.map_some,
            resolve_append, Cwk.resolved, List.headD_cons, textAbsolute, Cwk.namesOf_cons, Cwk.namesOf_cons,
            Cwk.namesOf_nil, List.append_nil]
        have whole : Cwk.normalized [text, path] = Directory.pathname (Cwk.resolved [text, path]) := by
          rw [Cwk.normalized, Cwk.rootOf_eq, List.headD_cons, textAbsolute, if_pos rfl,
            if_neg (fun both => by cases both.1)]
          rfl
        constructor
        · intro right
          rw [← right]
          apply fits_directoryOf (entered_rooted rooted)
          rw [same, List.length_take]
          exact (Nat.min_le_left ..).trans_lt (by decide)
        · intro fits
          have room : (Directory.pathname (Cwk.resolved [text, path])).length < Path.FILENAME_MAX :=
            fits _ goal
          have cut : entered text path = Directory.pathname (Cwk.resolved [text, path]) := by
            rw [same, whole]
            exact List.take_of_length_le (Nat.le_pred_of_lt room)
          have back : resolve Cwk.kind true (Cwk.resolved [text, path]) = Cwk.resolved [text, path] := by
            rw [Cwk.resolved, List.headD_cons, textAbsolute, resolve_resolve]
          rw [cut, goal, directoryOf, Directory.pathname, if_neg (List.cons_ne_nil _ _), names_cons_sep,
            names_joined fun part => Cwk.isName_of_mem_resolved, back]

theorem forall_prefix_cons {α : Type} {a : α} {as : List α} {p : List α → Prop} :
    (∀ done, done <+: a :: as → p done) ↔ p [] ∧ ∀ done, done <+: as → p (a :: done) := by
  constructor
  · intro all
    exact ⟨all [] List.nil_prefix, fun done before => all _ (List.cons_prefix_cons.mpr ⟨rfl, before⟩)⟩
  · rintro ⟨first, later⟩ done before
    cases done with
    | nil => exact first
    | cons b done =>
        obtain ⟨rfl, inside⟩ := List.cons_prefix_cons.mp before
        exact later done inside

/-- All calls lead to the right directory just when the paths of all these directories have room. -/
theorem directoryOf_enteredAll {calls : List Chdir} (rooted : text = [] ∨ Cwk.isAbsolute text = true)
    (fits : Fits (directoryOf text)) :
    (∀ done, done <+: calls → directoryOf (enteredAll text done) = dirAfter (directoryOf text) done) ↔
      ∀ done, done <+: calls → Fits (dirAfter (directoryOf text) done) := by
  induction calls generalizing text with
  | nil =>
      apply iff_of_true
      · intro done none
        rw [List.prefix_nil.mp none]
        rfl
      · intro done none
        rw [List.prefix_nil.mp none]
        exact fits
  | cons call calls ih =>
      rw [forall_prefix_cons, forall_prefix_cons]
      have step := @directoryOf_entered text call.path rooted call.short
      have rooted' := @entered_rooted text call.path rooted
      constructor
      · rintro ⟨-, later⟩
        have right : directoryOf (entered text call.path) = enterDir (directoryOf text) call.path :=
          later [] List.nil_prefix
        have all := ih rooted' (right ▸ step.mp right)
        rw [right] at all
        exact ⟨fits, all.mp later⟩
      · rintro ⟨-, later⟩
        have right : directoryOf (entered text call.path) = enterDir (directoryOf text) call.path :=
          step.mpr (later [] List.nil_prefix)
        have all := ih rooted' (right ▸ step.mp right)
        rw [right] at all
        exact ⟨rfl, all.mpr later⟩

theorem hasPath_unset (unset : cwd 0 = 0) : HasPath cwd [] :=
  ⟨if_pos unset, Or.inl rfl⟩

/-- In any run from a new process, `proc_chdir` reads inside its arrays and its assertions hold; the
array has a string, which is an absolute path as soon as one was entered, and nothing behind the
array changes. -/
theorem chdirs_keeps_path {calls : List Chdir} (unset : cwd 0 = 0) :
    ∃ cwd' text, chdirs cwd calls = some cwd' ∧ cstring cwd' 0 Path.FILENAME_MAX = some text ∧
      (text = [] ∨ Cwk.isAbsolute text = true) ∧
      (text = [] ↔ ∀ call ∈ calls, Cwk.isAbsolute call.path = false) ∧
      ∀ i, Path.FILENAME_MAX ≤ i → cwd' i = cwd i := by
  obtain ⟨cwd', results, has, same⟩ := @HasPath.chdirs cwd [] calls (hasPath_unset unset)
  refine ⟨cwd', _, results, has.string, has.rooted, ?_, same⟩
  rw [enteredAll_eq_nil (Or.inl rfl)]
  exact and_iff_right rfl

/-- To the root, and up from there. -/
def upFromRoot : List Chdir :=
  [⟨fun _ => 0, [Cwk.separator], by decide, by decide⟩,
    ⟨fun _ => 0, [Cwk.dot, Cwk.dot], by decide, by decide⟩]

/-- Going up from the root leaves an absolute path in the array. -/
theorem upFromRoot_keeps_path :
    ∃ cwd' text, chdirs (fun _ => 0) upFromRoot = some cwd' ∧
      cstring cwd' 0 Path.FILENAME_MAX = some text ∧
      (text = [] ∨ Cwk.isAbsolute text = true) ∧
      (text = [] ↔ ∀ call ∈ upFromRoot, Cwk.isAbsolute call.path = false) ∧
      ∀ i, Path.FILENAME_MAX ≤ i → cwd' i = 0 :=
  chdirs_keeps_path rfl

/-- In a run from a new process the working directory is the right one after every call just when
the path of each directory that is entered has room in the array. -/
theorem workDir_right_iff {calls : List Chdir} (unset : cwd 0 = 0) :
    (∀ done, done <+: calls →
      ∃ cwd', chdirs cwd done = some cwd' ∧ workDir cwd' = some (dirAfter none done)) ↔
      ∀ done, done <+: calls → Fits (dirAfter none done) := by
  have exact_ := @directoryOf_enteredAll [] calls (Or.inl rfl) (fun dir mem => by cases mem)
  rw [directoryOf, if_pos rfl] at exact_
  rw [← exact_]
  apply forall₂_congr
  intro done before
  obtain ⟨cwd', results, has, -⟩ := @HasPath.chdirs cwd [] done (hasPath_unset unset)
  have held : workDir cwd' = some (directoryOf (enteredAll [] done)) := by
    rw [workDir, has.string, Option.map_some]
  constructor
  · rintro ⟨cwd'', results', right⟩
    obtain rfl : cwd' = cwd'' := Option.some.inj (results.symm.trans results')
    exact Option.some.inj (held.symm.trans right)
  · intro right
    exact ⟨cwd', results, held.trans (congrArg some right)⟩

/-- Before and after going up from the root, the directory is the root. -/
theorem upFromRoot_right :
    (∃ cwd', chdirs (fun _ => 0) (upFromRoot.take 1) = some cwd' ∧ workDir cwd' = some (some [])) ∧
      ∃ cwd', chdirs (fun _ => 0) upFromRoot = some cwd' ∧ workDir cwd' = some (some []) := by
  have root : Fits (some []) := by
    rintro dir ⟨⟩
    decide
  have right := (@workDir_right_iff (fun _ => 0) upFromRoot rfl).mpr (by
    rw [upFromRoot, forall_prefix_cons, forall_prefix_cons]
    refine ⟨by rintro dir ⟨⟩, root, ?_⟩
    intro done before
    rw [List.prefix_nil.mp before]
    exact root)
  exact ⟨right _ (List.take_prefix 1 _), right _ List.prefix_rfl⟩

end Lps.Linux

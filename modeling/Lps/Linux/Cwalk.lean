import Lps.Memory.Blocks
import Lps.Word

/-!
# Joining paths

The part of the path library that `proc_chdir` uses.  A pointer into a string is a number, and reads
`'\0'` at the end of the string; a pointer to a segment has its string with it.  The segments of a
list of paths are visited one by one, and for each of them those before it or behind it are visited
to see whether it is removed: nothing is allocated.

`none` is an assertion that fails, or a null pointer that is followed.  What a call leaves in a
structure when it finds no segment is not read by anybody, so that such a call has no structure.
-/

namespace Lps.Linux.Cwk

open Lps.Memory

/-- `separators[CWK_STYLE_UNIX]`. -/
def separator : Byte := 0x2f

def dot : Byte := 0x2e

/-- The character that a pointer into a string points to. -/
def charAt (path : List Byte) (c : Nat) : Byte := path.getD c 0

/-- `cwk_path_is_separator`. -/
def isSeparator (c : Byte) : Bool := c == separator

theorem lt_of_charAt_ne {path : List Byte} {c : Nat} (char : charAt path c ≠ 0) : c < path.length := by
  by_contra outside
  apply char
  rw [charAt, List.getD_eq_getElem?_getD, List.getElem?_eq_none (Nat.not_lt.mp outside)]
  rfl

theorem lt_of_isSeparator {path : List Byte} {c : Nat} (sep : isSeparator (charAt path c) = true) :
    c < path.length := by
  apply lt_of_charAt_ne
  rw [eq_of_beq sep]
  decide

/-! ## Segments of a path -/

/-- `struct cwk_segment`; the pointers are into `path`. -/
structure Segment where
  path : List Byte
  segments : Nat
  begin : Nat
  end_ : Nat
  size : Nat

/-- `cwk_path_find_next_stop`. -/
def findNextStop (path : List Byte) (c : Nat) : Nat :=
  if charAt path c ≠ 0 ∧ isSeparator (charAt path c) = false then findNextStop path (c + 1) else c
termination_by path.length - c
decreasing_by
  rename_i goesOn
  have inside := lt_of_charAt_ne goesOn.1
  omega

/-- The first loop of `cwk_path_find_previous_stop`. -/
def backToStop (path : List Byte) (begin : Nat) : Nat → Nat
  | 0 => 0
  | c + 1 =>
      if begin < c + 1 ∧ isSeparator (charAt path (c + 1)) = false then backToStop path begin c
      else c + 1

/-- `cwk_path_find_previous_stop`. -/
def findPreviousStop (path : List Byte) (begin c : Nat) : Nat :=
  let c := backToStop path begin c
  if isSeparator (charAt path c) then c + 1 else c

/-- The loop of `cwk_path_get_next_segment`, behind its first step. -/
def overSeparators (path : List Byte) (c : Nat) : Nat :=
  if isSeparator (charAt path c) then overSeparators path (c + 1) else c
termination_by path.length - c
decreasing_by
  rename_i sep
  have inside := lt_of_isSeparator sep
  omega

/-- The loop of `cwk_path_get_first_segment_without_root`. -/
def skipSeparators (path : List Byte) (segments : Nat) : Option Nat :=
  if isSeparator (charAt path segments) then
    if charAt path (segments + 1) = 0 then none else skipSeparators path (segments + 1)
  else some segments
termination_by path.length - segments
decreasing_by
  rename_i sep _
  have inside := lt_of_isSeparator sep
  omega

/-- `cwk_path_get_first_segment_without_root`. -/
def getFirstSegmentWithoutRoot (path : List Byte) (segments : Nat) : Option Segment :=
  if charAt path segments = 0 then none
  else do
    let begin ← skipSeparators path segments
    let stop := findNextStop path begin
    return ⟨path, segments, begin, stop, stop - begin⟩

/-- `cwk_path_get_root_unix`. -/
def getRoot (path : List Byte) : Nat := if isSeparator (charAt path 0) then 1 else 0

/-- `cwk_path_is_root_absolute`. -/
def isRootAbsolute (path : List Byte) (length : Nat) : Bool :=
  if length = 0 then false else isSeparator (charAt path (length - 1))

/-- `cwk_path_is_absolute`. -/
def isAbsolute (path : List Byte) : Bool := isRootAbsolute path (getRoot path)

/-- `cwk_path_get_first_segment`. -/
def getFirstSegment (path : List Byte) : Option Segment :=
  getFirstSegmentWithoutRoot path (getRoot path)

/-- `cwk_path_get_next_segment`. -/
def getNextSegment (segment : Segment) : Option (Option Segment) :=
  let c := segment.begin + segment.size
  if charAt segment.path c = 0 then some none
  else if isSeparator (charAt segment.path c) = false then none
  else
    let c := overSeparators segment.path (c + 1)
    if charAt segment.path c = 0 then some none
    else
      let stop := findNextStop segment.path c
      some (some { segment with begin := c, end_ := stop, size := stop - c })

/-- The loop of `cwk_path_get_previous_segment`. -/
def overSeparatorsBack (path : List Byte) (segments : Nat) : Nat → Option Nat
  | 0 => none
  | c + 1 =>
      if c < segments then none
      else if isSeparator (charAt path c) then overSeparatorsBack path segments c
      else some c

/-- `cwk_path_get_previous_segment`. -/
def getPreviousSegment (segment : Segment) : Option Segment :=
  if segment.begin ≤ segment.segments then none
  else (overSeparatorsBack segment.path segment.segments segment.begin).map fun c =>
    let begin := findPreviousStop segment.path segment.segments c
    { segment with begin, end_ := c + 1, size := c + 1 - begin }

theorem getNextSegment_later {segment next : Segment} (found : getNextSegment segment = some (some next)) :
    next.path = segment.path ∧ segment.begin < next.begin ∧ segment.begin < segment.path.length := by
  have forward : ∀ c, c ≤ overSeparators segment.path c := by
    intro c
    induction c using overSeparators.induct segment.path with
    | case1 c sep ih =>
        rw [overSeparators, if_pos sep]
        omega
    | case2 c other =>
        rw [overSeparators, if_neg other]
  rw [getNextSegment] at found
  dsimp only at found
  split at found
  · cases found
  · rename_i char
    split at found
    · cases found
    · split at found
      · cases found
      · cases found
        have inside := lt_of_charAt_ne char
        have past := forward (segment.begin + segment.size + 1)
        dsimp only
        exact ⟨rfl, by omega, by omega⟩

/-- The loops of `cwk_path_get_last_segment` and `cwk_path_get_last_segment_without_root`. -/
def toLastSegment (segment : Segment) : Option Segment :=
  match _ : getNextSegment segment with
  | none => none
  | some none => some segment
  | some (some next) => toLastSegment next
termination_by segment.path.length - segment.begin
decreasing_by
  rename_i found
  obtain ⟨same, later, inside⟩ := getNextSegment_later found
  rw [same]
  omega

/-- `cwk_path_get_last_segment_without_root`. -/
def getLastSegmentWithoutRoot (path : List Byte) : Option (Option Segment) :=
  match getFirstSegmentWithoutRoot path 0 with
  | none => some none
  | some segment => (toLastSegment segment).map some

/-- `cwk_path_get_last_segment`. -/
def getLastSegment (path : List Byte) : Option (Option Segment) :=
  match getFirstSegment path with
  | none => some none
  | some segment => (toLastSegment segment).map some

/-- `strncmp(s, t, n) == 0`. -/
def strncmpEq : List Byte → List Byte → Nat → Bool
  | _, _, 0 => true
  | s, t, n + 1 => s.headD 0 == t.headD 0 && (s.headD 0 == 0 || strncmpEq s.tail t.tail n)

/-- `enum cwk_segment_type`. -/
inductive SegmentType
  | CWK_NORMAL
  | CWK_CURRENT
  | CWK_BACK
  deriving DecidableEq

/-- `cwk_path_get_segment_type`. -/
def getSegmentType (segment : Segment) : SegmentType :=
  if strncmpEq (segment.path.drop segment.begin) [dot] segment.size then .CWK_CURRENT
  else if strncmpEq (segment.path.drop segment.begin) [dot, dot] segment.size then .CWK_BACK
  else .CWK_NORMAL

/-! ## Segments of several paths -/

/-- `struct cwk_segment_joined`. -/
structure SegmentJoined where
  segment : Segment
  paths : List (List Byte)
  pathIndex : Nat

/-- The loop of `cwk_path_get_first_segment_joined`. -/
def firstSegmentFrom (paths : List (List Byte)) (pathIndex : Nat) : Option SegmentJoined :=
  if _ : pathIndex < paths.length then
    match getFirstSegment paths[pathIndex] with
    | some segment => some ⟨segment, paths, pathIndex⟩
    | none => firstSegmentFrom paths (pathIndex + 1)
  else none
termination_by paths.length - pathIndex

/-- `cwk_path_get_first_segment_joined`. -/
def getFirstSegmentJoined (paths : List (List Byte)) : Option SegmentJoined := firstSegmentFrom paths 0

/-- The loop of `cwk_path_get_next_segment_joined`, behind the increment. -/
def nextSegmentFrom (paths : List (List Byte)) (pathIndex : Nat) : Option SegmentJoined :=
  if _ : pathIndex < paths.length then
    match getFirstSegmentWithoutRoot paths[pathIndex] 0 with
    | some segment => some ⟨segment, paths, pathIndex⟩
    | none => nextSegmentFrom paths (pathIndex + 1)
  else none
termination_by paths.length - pathIndex

/-- `cwk_path_get_next_segment_joined`. -/
def getNextSegmentJoined (sj : SegmentJoined) : Option (Option SegmentJoined) :=
  if sj.pathIndex < sj.paths.length then
    match getNextSegment sj.segment with
    | none => none
    | some (some segment) => some (some { sj with segment })
    | some none => some (nextSegmentFrom sj.paths (sj.pathIndex + 1))
  else some none

/-- The loop of `cwk_path_get_previous_segment_joined`. -/
def previousSegmentFrom (paths : List (List Byte)) : Nat → Option (Option SegmentJoined)
  | 0 => some none
  | pathIndex + 1 =>
      let path := paths.getD pathIndex []
      match if pathIndex = 0 then getLastSegment path else getLastSegmentWithoutRoot path with
      | none => none
      | some (some segment) => some (some ⟨segment, paths, pathIndex⟩)
      | some none => previousSegmentFrom paths pathIndex

/-- `cwk_path_get_previous_segment_joined`. -/
def getPreviousSegmentJoined (sj : SegmentJoined) : Option (Option SegmentJoined) :=
  if sj.paths = [] then some none
  else match getPreviousSegment sj.segment with
    | some segment => some (some { sj with segment })
    | none => previousSegmentFrom sj.paths sj.pathIndex

/-! ## Progress -/

theorem findPreviousStop_le {path : List Byte} {begin c : Nat} (other : isSeparator (charAt path c) = false) :
    findPreviousStop path begin c ≤ c := by
  have stops : ∀ c, backToStop path begin c ≤ c := by
    intro c
    induction c with
    | zero => exact Nat.le_refl 0
    | succ c ih =>
        rw [backToStop]
        split
        · exact ih.trans (Nat.le_succ c)
        · exact Nat.le_refl _
  have stop := stops c
  rw [findPreviousStop]
  split
  · rename_i sep
    have moved : backToStop path begin c ≠ c := by
      intro same
      rw [same, other] at sep
      cases sep
    omega
  · exact stop

theorem getPreviousSegment_earlier {segment previous : Segment}
    (found : getPreviousSegment segment = some previous) : previous.begin < segment.begin := by
  have back : ∀ {path segments} c {stop}, overSeparatorsBack path segments c = some stop →
      stop < c ∧ isSeparator (charAt path stop) = false := by
    intro path segments c stop found
    induction c with
    | zero => cases found
    | succ c ih =>
        rw [overSeparatorsBack] at found
        split at found
        · cases found
        · split at found
          · have earlier := ih found
            exact ⟨by omega, earlier.2⟩
          · rename_i other
            cases found
            exact ⟨Nat.lt_succ_self _, Bool.eq_false_iff.mpr other⟩
  rw [getPreviousSegment] at found
  split at found
  · cases found
  · obtain ⟨c, stopped, rfl⟩ := Option.map_eq_some_iff.mp found
    have before := back _ stopped
    exact (findPreviousStop_le before.2).trans_lt before.1

theorem previousSegmentFrom_earlier {paths : List (List Byte)} {pathIndex : Nat} {sj : SegmentJoined}
    (found : previousSegmentFrom paths pathIndex = some (some sj)) : sj.pathIndex < pathIndex := by
  induction pathIndex with
  | zero => cases found
  | succ pathIndex ih =>
      rw [previousSegmentFrom] at found
      generalize (if pathIndex = 0 then getLastSegment (paths.getD pathIndex [])
        else getLastSegmentWithoutRoot (paths.getD pathIndex [])) = last at found
      rcases last with _ | _ | segment
      · cases found
      · exact (ih found).trans (Nat.lt_succ_self pathIndex)
      · cases found
        exact Nat.lt_succ_self pathIndex

/-- The previous segment is one of an earlier path, or begins earlier. -/
theorem getPreviousSegmentJoined_earlier {sj previous : SegmentJoined}
    (found : getPreviousSegmentJoined sj = some (some previous)) :
    previous.pathIndex < sj.pathIndex ∨
      previous.pathIndex = sj.pathIndex ∧ previous.segment.begin < sj.segment.begin := by
  rw [getPreviousSegmentJoined] at found
  split at found
  · cases found
  · split at found
    · rename_i segment earlier
      cases found
      exact Or.inr ⟨rfl, getPreviousSegment_earlier earlier⟩
    · exact Or.inl (previousSegmentFrom_earlier found)

theorem nextSegmentFrom_later {paths : List (List Byte)} {pathIndex : Nat} {sj : SegmentJoined}
    (found : nextSegmentFrom paths pathIndex = some sj) :
    sj.paths = paths ∧ pathIndex ≤ sj.pathIndex := by
  induction pathIndex using nextSegmentFrom.induct paths with
  | case1 pathIndex inside segment first =>
      rw [nextSegmentFrom, dif_pos inside, first] at found
      cases found
      exact ⟨rfl, Nat.le_refl _⟩
  | case2 pathIndex inside none ih =>
      rw [nextSegmentFrom, dif_pos inside, none] at found
      have later := ih found
      exact ⟨later.1, by omega⟩
  | case3 pathIndex outside =>
      rw [nextSegmentFrom, dif_neg outside] at found
      cases found

/-- What is left to visit: paths, and characters of the path. -/
def SegmentJoined.left (sj : SegmentJoined) : Nat × Nat :=
  (sj.paths.length - sj.pathIndex, sj.segment.path.length - sj.segment.begin)

theorem getNextSegmentJoined_later {sj next : SegmentJoined}
    (found : getNextSegmentJoined sj = some (some next)) : Prod.Lex (· < ·) (· < ·) next.left sj.left := by
  rw [getNextSegmentJoined] at found
  split at found
  · rename_i inside
    split at found
    · cases found
    · rename_i segment following
      cases found
      obtain ⟨same, later, within⟩ := getNextSegment_later following
      apply Prod.Lex.right
      dsimp only
      rw [same]
      omega
    · obtain ⟨same, later⟩ := nextSegmentFrom_later (Option.some.inj found)
      apply Prod.Lex.left
      rw [same]
      omega
  · cases found

/-! ## Segments that are removed -/

/-- The loop of `cwk_path_segment_back_will_be_removed`. -/
def backWillBeRemoved (sj : SegmentJoined) (counter : CInt) : Option Bool :=
  match _ : getPreviousSegmentJoined sj with
  | none => none
  | some none => some false
  | some (some previous) =>
      match getSegmentType previous.segment with
      | .CWK_NORMAL =>
          if (counter + 1).toInt > 0 then some true else backWillBeRemoved previous (counter + 1)
      | .CWK_BACK => backWillBeRemoved previous (counter - 1)
      | .CWK_CURRENT => backWillBeRemoved previous counter
termination_by (sj.pathIndex, sj.segment.begin)
decreasing_by
  all_goals
    rcases getPreviousSegmentJoined_earlier (by assumption) with path | ⟨same, begin⟩
    · exact Prod.Lex.left _ _ path
    · rw [same]
      exact Prod.Lex.right _ begin

/-- The loop of `cwk_path_segment_normal_will_be_removed`. -/
def normalWillBeRemoved (sj : SegmentJoined) (counter : CInt) : Option Bool :=
  match _ : getNextSegmentJoined sj with
  | none => none
  | some none => some false
  | some (some next) =>
      match getSegmentType next.segment with
      | .CWK_NORMAL => normalWillBeRemoved next (counter + 1)
      | .CWK_BACK =>
          if (counter - 1).toInt < 0 then some true else normalWillBeRemoved next (counter - 1)
      | .CWK_CURRENT => normalWillBeRemoved next counter
termination_by sj.left
decreasing_by
  all_goals
    apply getNextSegmentJoined_later
    assumption

/-- `cwk_path_segment_will_be_removed`. -/
def segmentWillBeRemoved (sj : SegmentJoined) (absolute : Bool) : Option Bool :=
  match getSegmentType sj.segment with
  | .CWK_CURRENT => some true
  | .CWK_BACK => if absolute then some true else backWillBeRemoved sj 0
  | .CWK_NORMAL => normalWillBeRemoved sj 0

/-! ## Output -/

/-- `cwk_path_output_sized`: the bytes that are written to the buffer. -/
def outputSized (bufferSize position : Nat) (str : List Byte) (length : Nat) : Block Byte :=
  ⟨position, str.take
    (if bufferSize > position + length then length
    else if bufferSize > position then bufferSize - position
    else 0)⟩

/-- `cwk_path_terminate_output`. -/
def terminateOutput (bufferSize pos : Nat) : List (Block Byte) :=
  if bufferSize > 0 then [⟨if pos ≥ bufferSize then bufferSize - 1 else pos, [0]⟩] else []

/-- The variables of `cwk_path_join_and_normalize_multiple`, and what has been written. -/
structure Output where
  pos : Nat
  hasSegmentOutput : Bool
  written : List (Block Byte)

namespace Output

/-- `pos += cwk_path_output_sized(buffer, buffer_size, pos, str, length)`. -/
def write (out : Output) (bufferSize : Nat) (str : List Byte) (length : Nat) : Output :=
  { out with
    pos := out.pos + length
    written := out.written ++ [outputSized bufferSize out.pos str length] }

/-- A segment, with a separator if there is one before it. -/
def segment (out : Output) (bufferSize : Nat) (segment : Segment) : Output :=
  let out := if out.hasSegmentOutput then out.write bufferSize [separator] 1 else out
  { out with hasSegmentOutput := true }.write bufferSize (segment.path.drop segment.begin) segment.size

/-- What is returned, and all that has been written. -/
def done (out : Output) (bufferSize : Nat) : Nat × List (Block Byte) :=
  (out.pos, out.written ++ terminateOutput bufferSize out.pos)

end Output

/-- The loop of `cwk_path_join_and_normalize_multiple`. -/
def joinLoop (absolute : Bool) (bufferSize : Nat) (sj : SegmentJoined) (out : Output) : Option Output :=
  match segmentWillBeRemoved sj absolute with
  | none => none
  | some removed =>
      let out := if removed then out else out.segment bufferSize sj.segment
      match _ : getNextSegmentJoined sj with
      | none => none
      | some none => some out
      | some (some next) => joinLoop absolute bufferSize next out
termination_by sj.left
decreasing_by
  apply getNextSegmentJoined_later
  assumption

/-- `cwk_path_join_and_normalize_multiple`; `cwk_path_fix_root` only affects Windows. -/
def joinAndNormalizeMultiple (paths : List (List Byte)) (bufferSize : Nat) :
    Option (Nat × List (Block Byte)) := do
  let first ← paths.head?
  let root := getRoot first
  let absolute := isRootAbsolute first root
  let out : Output := ⟨root, false, [outputSized bufferSize 0 first root]⟩
  match getFirstSegmentJoined paths with
  | none => return out.done bufferSize
  | some sj =>
      let out ← joinLoop absolute bufferSize sj out
      if out.hasSegmentOutput = false ∧ out.pos = 0 then
        if absolute then none
        else return (out.write bufferSize [dot] 1).done bufferSize
      else return out.done bufferSize

/-- `cwk_path_join`. -/
def join (pathA pathB : List Byte) (bufferSize : Nat) : Option (Nat × List (Block Byte)) :=
  joinAndNormalizeMultiple [pathA, pathB] bufferSize

/-- `cwk_path_normalize`. -/
def normalize (path : List Byte) (bufferSize : Nat) : Option (Nat × List (Block Byte)) :=
  joinAndNormalizeMultiple [path] bufferSize

end Lps.Linux.Cwk

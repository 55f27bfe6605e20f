import Clink.Verified.Text
import Mathlib.Data.List.Dedup
import Mathlib.Data.List.Sort

/-!
# The COMPLETED marker of a checkpoint

The embedding of `parse_completed_marker` and `completed_marker_body`
(`src/cluster/state_location.cpp`).  A marker is lines of `key=value`; a line
without `=` is skipped, a later line replaces an earlier one of its key, and a
value that does not parse leaves the fields of some keys as they were.

The participant set is the ascending list of its members.  A list with one
token that is no index is no set at all, so a reader never walks half of it.
-/

namespace Clink.Ports.StateLocation

open Clink.Verified

/-! ## Reading a marker -/

/-- `std::numeric_limits<std::uint32_t>::max()`. -/
def u32Max : Nat := 2 ^ 32 - 1

/-- `parse_u64`: a run of at most twenty digits that fits 64 bits. -/
def parseU64 (text : List Char) : Option Nat :=
  if text.length ≤ 20 then parseDecimal (2 ^ 64) text else none

/-- An index of the participant set. -/
def parseIndex (token : List Char) : Option Nat :=
  match parseU64 token with
  | some idx => if idx ≤ u32Max then some idx else none
  | none => none

structure CompletedMarker where
  job : Option Nat := none
  checkpoint : Option Nat := none
  generation : Option Nat := none
  subtasks : Option (List Nat) := none
  state : Option (List Char) := none
  deriving DecidableEq, Repr

/-- A `std::set` of the given members, in its iteration order. -/
def setOf (members : List Nat) : List Nat := members.dedup.insertionSort (· ≤ ·)

/-- The members of a comma-separated list, if each of its tokens is an index. -/
def parseSubtasks (value : List Char) : Option (List Nat) :=
  if value.isEmpty then none
  else ((value.splitOn ',').mapM parseIndex).map setOf

/-- What one `key=value` line does to the marker read so far. -/
def readField (out : CompletedMarker) (key value : List Char) : CompletedMarker :=
  if key = "job".toList then { out with job := parseU64 value }
  else if key = "checkpoint".toList then { out with checkpoint := parseU64 value }
  else if key = "generation".toList then
    match parseIndex value with
    | some g => { out with generation := some g }
    | none => out
  else if key = "subtasks".toList then
    match parseSubtasks value with
    | some set => { out with subtasks := some set }
    | none => out
  else if key = "state".toList ∧ value ≠ [] then { out with state := some value }
  else out

def readLine (out : CompletedMarker) (line : List Char) : CompletedMarker :=
  match line.dropWhile (· != '=') with
  | [] => out
  | _ :: value => readField out (line.takeWhile (· != '=')) value

/-- `parse_completed_marker`. -/
def parseCompletedMarker (body : List Char) : CompletedMarker :=
  (body.splitOn '\n').foldl readLine {}

/-! ## Writing a marker -/

/-- The members of a set, separated by commas. -/
def subtaskList (subtasks : List Nat) : List Char := [','].intercalate (subtasks.map decimal)

def fieldLine (key value : List Char) : List Char := key ++ '=' :: (value ++ ['\n'])

/-- `completed_marker_body`. -/
def completedMarkerBody (job checkpoint generation : Nat) (subtasks : List Nat)
    (state : List Char) : List Char :=
  fieldLine "job".toList (decimal job) ++ fieldLine "checkpoint".toList (decimal checkpoint) ++
    fieldLine "generation".toList (decimal generation) ++
    fieldLine "subtasks".toList (subtaskList subtasks) ++
    if state.isEmpty then [] else fieldLine "state".toList state

/-! ## What is written reads back -/

theorem parseU64_decimal {n : Nat} (h : n < 2 ^ 64) : parseU64 (decimal n) = some n := by
  have hlength : (decimal n).length ≤ 20 := by
    rw [decimal, Nat.length_toDigits_le_iff (by decide) (by decide)]
    omega
  rw [parseU64, if_pos hlength, parseDecimal_decimal h]

theorem parseIndex_decimal {n : Nat} (h : n ≤ u32Max) :
    parseIndex (decimal n) = some n := by
  have hword : n < 2 ^ 64 := by
    unfold u32Max at h
    omega
  rw [parseIndex, parseU64_decimal hword]
  exact if_pos h

private theorem mapM_parseIndex_decimal {subtasks : List Nat} (h : ∀ s ∈ subtasks, s ≤ u32Max) :
    (subtasks.map decimal).mapM parseIndex = some subtasks := by
  induction subtasks with
  | nil => rfl
  | cons s rest ih =>
      have hrest := ih fun t ht => h t (List.mem_cons_of_mem _ ht)
      rw [List.map_cons, List.mapM_cons, parseIndex_decimal (h s List.mem_cons_self), hrest]
      rfl

theorem setOf_eq_self {members : List Nat} (h : members.Pairwise (· < ·)) :
    setOf members = members := by
  have hnodup : members.dedup = members := List.dedup_eq_self.mpr (h.imp Nat.ne_of_lt)
  rw [setOf, hnodup]
  exact List.Pairwise.insertionSort_eq (h.imp Nat.le_of_lt)

theorem parseSubtasks_subtaskList {subtasks : List Nat} (hne : subtasks ≠ [])
    (hsorted : subtasks.Pairwise (· < ·)) (hindex : ∀ s ∈ subtasks, s ≤ u32Max) :
    parseSubtasks (subtaskList subtasks) = some subtasks := by
  have hmap : subtasks.map decimal ≠ [] := by
    simpa using hne
  have hsplit : (subtaskList subtasks).splitOn ',' = subtasks.map decimal := by
    refine List.splitOn_intercalate _ ?_ hmap
    intro token htoken
    rcases List.mem_map.mp htoken with ⟨s, -, hs⟩
    rw [← hs]
    exact not_mem_decimal (by decide)
  have hempty : (subtaskList subtasks).isEmpty = false := by
    rcases subtasks with - | ⟨s, rest⟩
    · exact absurd rfl hne
    · have hdigits := decimal_ne_nil s
      cases rest with
      | nil => simpa [subtaskList] using hdigits
      | cons t rest => simp [subtaskList, List.intercalate_cons_cons]
  rw [parseSubtasks, hempty, hsplit, mapM_parseIndex_decimal hindex]
  exact congrArg some (setOf_eq_self hsorted)

private theorem newline_not_mem_subtaskList (subtasks : List Nat) :
    '\n' ∉ subtaskList subtasks := by
  have hdigits : ∀ n : Nat, '\n' ∉ decimal n := fun n => not_mem_decimal (by decide)
  induction subtasks with
  | nil => simp [subtaskList]
  | cons s rest ih =>
      cases rest with
      | nil => simpa [subtaskList] using hdigits s
      | cons t rest =>
          unfold subtaskList at ih ⊢
          rw [List.map_cons, List.map_cons, List.intercalate_cons_cons]
          simpa [hdigits s] using ih

private theorem readLine_field {key : List Char} (hkey : '=' ∉ key) (value : List Char)
    (out : CompletedMarker) : readLine out (key ++ '=' :: value) = readField out key value := by
  obtain ⟨hread, hrest⟩ := takeWhile_dropWhile_append hkey value
  rw [readLine, hrest, hread]

/-- A field's line is read as that field, before whatever follows it. -/
theorem readLines_fieldLine {key value : List Char} (hkey : '=' ∉ key)
    (hline : '\n' ∉ key ++ value) (rest : List Char) (out : CompletedMarker) :
    ((fieldLine key value ++ rest).splitOn '\n').foldl readLine out =
      (rest.splitOn '\n').foldl readLine (readField out key value) := by
  have hnot : '\n' ∉ key ++ '=' :: value := by
    simpa using hline
  have hshape : fieldLine key value ++ rest = (key ++ '=' :: value) ++ '\n' :: rest := by
    simp [fieldLine]
  rw [hshape, List.splitOn_append_cons_self_of_not_mem hnot, List.foldl_cons,
    readLine_field hkey]

/-- A marker reads back as what it was written from: the participant set of a
marker the coordinator wrote is never absent. -/
theorem parseCompletedMarker_body {job checkpoint generation : Nat} {subtasks : List Nat}
    {state : List Char} (hjob : job < 2 ^ 64) (hcheckpoint : checkpoint < 2 ^ 64)
    (hgeneration : generation ≤ u32Max) (hne : subtasks ≠ [])
    (hsorted : subtasks.Pairwise (· < ·)) (hindex : ∀ s ∈ subtasks, s ≤ u32Max)
    (hstate : '\n' ∉ state) :
    parseCompletedMarker (completedMarkerBody job checkpoint generation subtasks state) =
      { job := some job, checkpoint := some checkpoint, generation := some generation,
        subtasks := some subtasks, state := if state = [] then none else some state } := by
  have hdigits : ∀ n : Nat, '\n' ∉ decimal n := fun n => not_mem_decimal (by decide)
  unfold parseCompletedMarker completedMarkerBody
  simp only [List.append_assoc]
  rw [readLines_fieldLine (by decide) (by simp [hdigits]),
    readLines_fieldLine (by decide) (by simp [hdigits]),
    readLines_fieldLine (by decide) (by simp [hdigits]),
    readLines_fieldLine (by decide) (by simp [newline_not_mem_subtaskList])]
  have hread : readField (readField (readField (readField {} "job".toList (decimal job))
      "checkpoint".toList (decimal checkpoint)) "generation".toList (decimal generation))
      "subtasks".toList (subtaskList subtasks) =
      { job := some job, checkpoint := some checkpoint, generation := some generation,
        subtasks := some subtasks } := by
    simp [readField, parseU64_decimal hjob, parseU64_decimal hcheckpoint,
      parseIndex_decimal hgeneration, parseSubtasks_subtaskList hne hsorted hindex]
  rw [hread]
  by_cases hempty : state = []
  · rw [hempty]
    rfl
  · have hwritten : (if state.isEmpty then [] else fieldLine "state".toList state) =
        fieldLine "state".toList state ++ [] := by
      simp [hempty]
    rw [hwritten, readLines_fieldLine (by decide) (by simp [hstate]), if_neg hempty]
    simp [readField, hempty, readLine]

theorem parseCompletedMarker_body_two :
    (parseCompletedMarker (completedMarkerBody 7 9 2 [0, 3] [])).subtasks = some [0, 3] := by
  rw [parseCompletedMarker_body (by decide) (by decide) (by decide) (by decide) (by decide)
    (by decide) (by decide)]

end Clink.Ports.StateLocation

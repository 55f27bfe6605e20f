import Clink.Ports.StateLocation
import Mathlib.Data.List.Infix

/-!
# Staged resume handles

The embedding of `read_completed_marker`, `snapshot_root_for` and
`read_resume_handles` (`src/cluster/in_doubt_resolution.cpp`): the handles a
completed checkpoint's snapshots hold, in the order a walk visits them.  The
snapshot files are a parameter, from a path to what loading it gives.

A key that carries the handle prefix but names no subtask makes the whole
checkpoint unreadable, as a snapshot that does not load does.  A row whose
handle does not name this checkpoint is a copy of an older one and is no
handle of it.
-/

namespace Clink.Ports.InDoubt

open Clink.Verified
open Clink.Ports.StateLocation

/-! ## The marker and its snapshots -/

structure CompletedMarkerInfo where
  generation : Nat
  subtasks : List Nat
  state : Option (List Char)
  deriving DecidableEq, Repr

/-- `read_completed_marker`: nothing for a marker without a participant set. -/
def readCompletedMarker (body : List Char) : Option CompletedMarkerInfo :=
  let marker := parseCompletedMarker body
  marker.subtasks.map fun subtasks =>
    { generation := marker.generation.getD 1, subtasks := subtasks, state := marker.state }

/-- A path below a directory, as `std::filesystem::path` joins them. -/
def joinPath (dir name : List Char) : List Char :=
  if dir.getLast? = some '/' then dir ++ name else dir ++ '/' :: name

/-- `snapshot_root_for`. -/
def snapshotRootFor (checkpointDir : List Char) (info : CompletedMarkerInfo) :
    Option (List Char) :=
  match info.state with
  | none => some checkpointDir
  | some state =>
      if "file://".toList <+: state then some (state.drop 7)
      else if "://".toList <:+: state then none
      else if state.head? = some '/' then some state
      else some (joinPath checkpointDir state)

/-- `state_dir_for`. -/
def stateDirFor (base : List Char) (generation subtask : Nat) : List Char :=
  base ++ "/v".toList ++ decimal generation ++ '/' :: decimal subtask

def snapshotPath (root : List Char) (generation subtask id : Nat) : List Char :=
  joinPath (stateDirFor root generation subtask)
    ("checkpoint-".toList ++ decimal id ++ ".snap".toList)

/-- What is at a snapshot's path: no file, one that does not load, or its rows
of stored key and value. -/
inductive Snapshot where
  | missing
  | unreadable
  | rows (rows : List (List Char × List Char))
  deriving DecidableEq, Repr

/-! ## The handles of a snapshot -/

/-- `std::strtoul` in base ten: blanks, a sign, and the digits that follow. -/
def strtoul (text : List Char) : Nat :=
  let text := text.dropWhile (· ∈ [' ', '\t', '\n', '\x0b', '\x0c', '\r'])
  let negative := text.head? = some '-'
  let digits := if negative ∨ text.head? = some '+' then text.tail else text
  let value := Nat.ofDigitChars 10 (digits.takeWhile Char.isDigit) 0
  if 2 ^ 64 ≤ value then 2 ^ 64 - 1
  else if negative then (2 ^ 64 - value) % 2 ^ 64 else value

structure StagedHandle where
  subtask : Nat
  participant : Nat
  handle : List Char
  deriving DecidableEq, Repr

/-- `kOperatorStateKeyPrefix`, the byte 0xFF. -/
def operatorStateKeyPrefix : Char := Char.ofNat 255

/-- `kTxnResumeStateKeyPrefix`. -/
def txnResumeStateKeyPrefix : List Char := "_clink_txn_resume_".toList

/-- What follows the two prefixes in a staged handle's key. -/
def handleSuffix (key : List Char) : Option (List Char) :=
  let stored := operatorStateKeyPrefix :: txnResumeStateKeyPrefix
  if stored <+: key then some (key.drop stored.length) else none

/-- The field by which a handle names the checkpoint it was staged at. -/
def ckptTag (id : Nat) : List Char := "\"ckpt\":\"".toList ++ decimal id ++ ['"']

/-- The handles of one row: none of a row of other state or of an older
checkpoint; a handle key that names no subtask is an error. -/
def readRow (subtask id : Nat) (row : List Char × List Char) : Option (List StagedHandle) :=
  match handleSuffix row.1 with
  | none => some []
  | some suffix =>
      if suffix.length < 4 ∨ ¬ "sub".toList <+: suffix then none
      else if ckptTag id <:+: row.2 then
        some [{ subtask := strtoul (suffix.drop 3) % 2 ^ 32, participant := subtask,
                handle := row.2 }]
      else some []

def readSnapshot (subtask id : Nat) : Snapshot → Option (List StagedHandle)
  | .missing => some []
  | .unreadable => none
  | .rows rows => (rows.mapM (readRow subtask id)).map List.flatten

/-- `read_resume_handles`: nothing when a snapshot could not be read. -/
def readResumeHandles (checkpointDir : List Char) (snapshots : List Char → Snapshot)
    (info : CompletedMarkerInfo) (id : Nat) : Option (List StagedHandle) :=
  match snapshotRootFor checkpointDir info with
  | none => none
  | some root =>
      (info.subtasks.mapM fun subtask =>
        readSnapshot subtask id (snapshots (snapshotPath root info.generation subtask id))).map
        List.flatten

end Clink.Ports.InDoubt

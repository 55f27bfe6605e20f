import Clink.Verified.Buckets
import Clink.Verified.Changelog
import Clink.Ports.LiveRows

/-!
# The semi and anti joins

The embedding of `SemiAntiJoinRowOp` (`src/sql/install.cpp`), retention off:
IN, EXISTS, NOT EXISTS and NOT IN.  The output is the left rows that qualify.

The plain operator keeps, by key tuple, the left rows with their emitted flag
and how often the tuple came on the right, an int64 that it counts up in `int`; it
runs synchronously (`handleKeyed`) or as tasks (`handleAsync`).  The null-aware operator keeps the
tuples without a NULL in such maps, or in entry partitions, and beside them the
left rows and the right tuples with a NULL, whose NULL positions match
anything.
-/

namespace Clink.Ports.SemiAntiJoin

open Clink.Verified
open Clink.Ports.SqlRow

variable {V : Type} [DecidableEq V]

structure SemiAntiJoinRowOp where
  leftKeyColumns : List Column
  rightKeyColumns : List Column
  anti : Bool
  nullAware : Bool
  /-- The two sides' key columns come in pairs. -/
  arity : leftKeyColumns.length = rightKeyColumns.length

structure LeftEntry (V : Type) where
  row : Row V
  emitted : Bool := false

/-- A key by position; `none` where it is NULL. -/
abbrev MaskedKey (V : Type) := List (Option V)

/-- A left row with a NULL in its key. -/
structure NaProbe (V : Type) where
  row : Row V
  key : MaskedKey V
  emitted : Bool := false

/-- An append-only row of one of the inputs. -/
structure Arrival (V : Type) where
  isLeft : Bool
  row : Row V

namespace SemiAntiJoinRowOp

/-! ## Keys -/

omit [DecidableEq V] in
def maskedKeyOf (row : Row V) (cols : List Column) : MaskedKey V := cols.map (cell row)

omit [DecidableEq V] in
/-- The key tuple; none when a component is NULL. -/
def keyOf (row : Row V) : List Column → Option (List V)
  | [] => some []
  | col :: cols => do
      let v ← cell row col
      let rest ← keyOf row cols
      return v :: rest

omit [DecidableEq V] in
def maskedKeyFromExact (key : List V) : MaskedKey V := key.map some

/-- Two tuples agree on every position where both are known. -/
def potentialMatch : MaskedKey V → MaskedKey V → Bool
  | some x :: a, some y :: b => if x ≠ y then false else potentialMatch a b
  | _ :: a, _ :: b => potentialMatch a b
  | _, _ => true

/-! ## The plain paths -/

variable (op : SemiAntiJoinRowOp)

/-- The two slots, by key tuple: the left entries and the right count. -/
structure Keyed (V : Type) where
  left : List V → Option (List (LeftEntry V)) := fun _ => none
  right : List V → Option Int := fun _ => none

omit [DecidableEq V] in
/-- The first right row of a key: matched rows come or go. -/
def transition (anti : Bool) :
    List (LeftEntry V) → List (LeftEntry V) × List (Change (Row V)) × Bool
  | [] => ([], [], false)
  | e :: rest =>
      let (entries, out, changed) := transition anti rest
      if anti then
        if e.emitted then ({ e with emitted := false } :: entries, .delete e.row :: out, true)
        else (e :: entries, out, changed)
      else if !e.emitted then ({ e with emitted := true } :: entries, .insert e.row :: out, true)
      else (e :: entries, out, changed)

def handleLeftKeyed (st : Keyed V) (row : Row V) : Keyed V × List (Change (Row V)) :=
  match keyOf row op.leftKeyColumns with
  | none => (st, if op.anti then [.insert row] else [])
  | some key =>
      let rightPresent := decide ((st.right key).getD 0 > 0)
      let emitted := if !op.anti then rightPresent else !rightPresent
      let list := (st.left key).getD []
      ({ st with left := Function.update st.left key (some (list ++ [⟨row, emitted⟩])) },
        if emitted then [.insert row] else [])

def handleRightKeyed (st : Keyed V) (row : Row V) : Keyed V × List (Change (Row V)) :=
  match keyOf row op.rightKeyColumns with
  | none => (st, [])
  | some key =>
      let before := toInt32 ((st.right key).getD 0)
      let st := { st with right := Function.update st.right key (some (toInt32 (before + 1))) }
      if before ≠ 0 then (st, [])
      else
        let (list, out, changed) := transition op.anti ((st.left key).getD [])
        (if changed then { st with left := Function.update st.left key (some list) } else st, out)

/-- The synchronous keyed path. -/
def handleKeyed (st : Keyed V) (a : Arrival V) : Keyed V × List (Change (Row V)) :=
  if a.isLeft then op.handleLeftKeyed st a.row else op.handleRightKeyed st a.row

/-- The tasks of the asynchronous path; a left task reads the right count first
and the list last. -/
def handleAsync (st : Keyed V) (a : Arrival V) : Keyed V × List (Change (Row V)) :=
  if a.isLeft then
    match keyOf a.row op.leftKeyColumns with
    | none => (st, if op.anti then [.insert a.row] else [])
    | some key =>
        let rightPresent := decide ((st.right key).getD 0 > 0)
        let e : LeftEntry V :=
          if !op.anti then (if rightPresent then ⟨a.row, true⟩ else ⟨a.row, false⟩)
          else if !rightPresent then ⟨a.row, true⟩ else ⟨a.row, false⟩
        ({ st with left := Function.update st.left key (some ((st.left key).getD [] ++ [e])) },
          if e.emitted then [.insert e.row] else [])
  else
    match keyOf a.row op.rightKeyColumns with
    | none => (st, [])
    | some key =>
        let before := toInt32 ((st.right key).getD 0)
        let st := { st with right := Function.update st.right key (some (toInt32 (before + 1))) }
        if before ≠ 0 then (st, [])
        else
          let (list, out, changed) := transition op.anti ((st.left key).getD [])
          (if changed then { st with left := Function.update st.left key (some list) } else st, out)

/-! ## The null-aware operator -/

structure NullAware (V : Type) where
  leftState : Buckets (List V) (LeftEntry V) := ∅
  rightCount : AList (fun _ : List V => Nat) := ∅
  /-- In arrival order. -/
  nullProbes : List (NaProbe V) := []
  /-- Distinct. -/
  nullRights : List (MaskedKey V) := []

def naNullRightMatches (st : NullAware V) (pk : MaskedKey V) : Bool :=
  st.nullRights.any fun rk => potentialMatch pk rk

def naProbeHasRightMatch (st : NullAware V) (pk : MaskedKey V) : Bool :=
  (st.rightCount.entries.any fun e =>
    decide (e.2 > 0) && potentialMatch pk (maskedKeyFromExact e.1)) || naNullRightMatches st pk

/-- `right_count_[key]`. -/
def countOf (st : NullAware V) (key : List V) : Nat := (st.rightCount.lookup key).getD 0

/-- A left row with a NULL in its key. -/
def handleNullProbe (st : NullAware V) (row : Row V) : NullAware V × List (Change (Row V)) :=
  if op.anti && !op.nullAware then (st, [.insert row])
  else if op.anti && op.nullAware then
    let pk := maskedKeyOf row op.leftKeyColumns
    let matched := naProbeHasRightMatch st pk
    ({ st with nullProbes := st.nullProbes ++ [⟨row, pk, !matched⟩] },
      if !matched then [.insert row] else [])
  else (st, [])

def handleLeftLoaded (st : NullAware V) (row : Row V) : NullAware V × List (Change (Row V)) :=
  match keyOf row op.leftKeyColumns with
  | none => op.handleNullProbe st row
  | some key =>
      let count := countOf st key
      let emitted :=
        if !op.anti then decide (count > 0)
        else decide (count = 0) &&
          (!op.nullAware || !naNullRightMatches st (maskedKeyOf row op.leftKeyColumns))
      ({ st with
          leftState := st.leftState.insert key (st.leftState.bucket key ++ [⟨row, emitted⟩]) },
        if emitted then [.insert row] else [])

/-- The entry partitions: the flag is known before the row is appended. -/
def handleLeftEntries (st : NullAware V) (row : Row V) : NullAware V × List (Change (Row V)) :=
  match keyOf row op.leftKeyColumns with
  | none => op.handleNullProbe st row
  | some key =>
      let matched := decide (countOf st key > 0)
      let entry : LeftEntry V := ⟨row,
        if op.anti then !matched && !naNullRightMatches st (maskedKeyOf row op.leftKeyColumns)
        else matched⟩
      ({ st with leftState := st.leftState.insert key (st.leftState.bucket key ++ [entry]) },
        if entry.emitted then [.insert row] else [])

omit [DecidableEq V] in
/-- Retract the emitted rows that a condition picks. -/
def poison (hit : Row V → Bool) (entries : List (LeftEntry V)) :
    List (LeftEntry V) × List (Change (Row V)) :=
  (entries.map fun e => if e.emitted && hit e.row then { e with emitted := false } else e,
    (entries.filter fun e => e.emitted && hit e.row).map fun e => .delete e.row)

/-- Retract the emitted null probes a right tuple poisons. -/
def poisonProbes (rk : MaskedKey V) (probes : List (NaProbe V)) :
    List (NaProbe V) × List (Change (Row V)) :=
  (probes.map fun p => if p.emitted && potentialMatch p.key rk then { p with emitted := false }
    else p,
    (probes.filter fun p => p.emitted && potentialMatch p.key rk).map fun p => .delete p.row)

/-- A new right tuple with a NULL: every probe it agrees with is retracted. -/
def retractPoisoned (st : NullAware V) (rk : MaskedKey V) : NullAware V × List (Change (Row V)) :=
  let hit := fun row => potentialMatch (maskedKeyOf row op.leftKeyColumns) rk
  let (probes, probesOut) := poisonProbes rk st.nullProbes
  ({ st with
      leftState := st.leftState.visit fun entries => (poison hit entries).1
      nullProbes := probes },
    st.leftState.entries.flatMap (fun e => (poison hit e.2).2) ++ probesOut)

/-- A right row; on the entry partitions each entry of the key is written back. -/
def handleRightLoaded (st : NullAware V) (row : Row V) : NullAware V × List (Change (Row V)) :=
  let rk := maskedKeyOf row op.rightKeyColumns
  match keyOf row op.rightKeyColumns with
  | none =>
      if !op.nullAware then (st, [])
      else if rk ∈ st.nullRights then (st, [])
      else
        let st := { st with nullRights := st.nullRights ++ [rk] }
        if op.anti then op.retractPoisoned st rk else (st, [])
  | some key =>
      let before := countOf st key
      let st := { st with rightCount := st.rightCount.insert key (before + 1) }
      if before ≠ 0 then (st, [])
      else
        let (entries, out, _) := transition op.anti (st.leftState.bucket key)
        let st :=
          if key ∈ st.leftState then { st with leftState := st.leftState.insert key entries }
          else st
        if op.anti && op.nullAware && st.nullProbes.length ≠ 0 then
          let (probes, probesOut) := poisonProbes rk st.nullProbes
          ({ st with nullProbes := probes }, out ++ probesOut)
        else (st, out)

/-- The null-aware operator on the in-memory maps. -/
def handleLoaded (st : NullAware V) (a : Arrival V) : NullAware V × List (Change (Row V)) :=
  if a.isLeft then op.handleLeftLoaded st a.row else op.handleRightLoaded st a.row

/-- The null-aware operator on the entry partitions. -/
def handleEntries (st : NullAware V) (a : Arrival V) : NullAware V × List (Change (Row V)) :=
  if a.isLeft then op.handleLeftEntries st a.row else op.handleRightLoaded st a.row

end SemiAntiJoinRowOp

end Clink.Ports.SemiAntiJoin

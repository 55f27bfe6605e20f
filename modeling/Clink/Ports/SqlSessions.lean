import Clink.Ports.SqlAggregate
import Clink.Ports.WindowArithmetic

/-!
# Session windows of the SQL runtime

The embedding of `merge_into` and `fold_session_` of `SessionWindowRowOp`
(`src/sql/install.cpp`).  A group's sessions are a map from their start; a
session ends at the last timestamp seen.  A row at `ts` opens a session, or all
the sessions within the gap of it become one, the earliest, whose aggregates
take in those of the others and then the row.
-/

namespace Clink.Ports.SessionWindowRow

open Clink.Verified
open Clink.Ports.FixedPoint (decAdd)
open Clink.Ports.SqlRow
open Clink.Ports.SqlAggregate
open Clink.Ports.WindowArithmetic

variable {D : Type} {n : Nat}

structure Session (D : Type) (n : Nat) where
  start : Int
  /-- The last timestamp seen. -/
  endTs : Int
  aggStates : Fin n → AggState D
  groupValues : Row (Datum D)

structure SessionWindowRowOp (D : Type) (n : Nat) where
  num : Numerics D
  gapMs : Int
  /-- The constructor throws otherwise. -/
  gapPos : 0 < gapMs
  /-- It is an int64. -/
  gapMax : gapMs ≤ int64Max
  /-- The grouping columns, each with the name it is emitted under. -/
  groupKeys : List (Column × Column)
  aggregates : Fin n → AggSpec D
  allowedLatenessMs : Int := 0
  reportLate : Bool := false

/-! ## Merging the aggregates -/

section States

variable (num : Numerics D) (spec : AggSpec D)

/-- The exact sums of two states. -/
def mergeSum (a b : AggState D) : AggState D :=
  let a :=
    if b.sumDecStarted then
      if a.sumDecStarted then
        match decAdd a.runningSumDec b.runningSumDec with
        | some s => { a with runningSumDec := s }
        | none => { a with sumDecComplete := false }
      else { a with runningSumDec := b.runningSumDec, sumDecStarted := true }
    else a
  { a with
    sumSawDecimal := a.sumSawDecimal || b.sumSawDecimal
    sumDecComplete := a.sumDecComplete && b.sumDecComplete }

/-- The running extremes of two states: the first state's stays where the other
does not replace it. -/
def mergeExtreme (isMin : Bool) (a b : AggState D) : AggState D :=
  let ours := if isMin then a.runningMin else a.runningMax
  let theirs := if isMin then b.runningMin else b.runningMax
  let taken : AggState D :=
    if isMin then { a with runningMin := theirs } else { a with runningMax := theirs }
  if !a.initialised then { taken with initialised := b.initialised }
  else if b.initialised && theirs.any (fun v => ours.any (replaces num isMin v)) then taken
  else a

/-- One aggregate of `merge_into`: every family's fields are combined. -/
def mergeState (a b : AggState D) : AggState D :=
  let a := { a with
    runningSum := num.add a.runningSum b.runningSum
    runningSumSq := num.add a.runningSumSq b.runningSumSq
    runningCount := a.runningCount + b.runningCount }
  let a := mergeSum a b
  let a := { a with
    valueCounts := addCounts textLess a.valueCounts b.valueCounts
    minmaxCounts := addCounts (jsonValueLess num) a.minmaxCounts b.minmaxCounts
    percentileValues := a.percentileValues ++ b.percentileValues
    arrayValues := a.arrayValues ++ b.arrayValues }
  match spec.fn with
  | .min => mergeExtreme num true a b
  | .max => mergeExtreme num false a b
  | _ => a

end States

namespace SessionWindowRowOp

variable (op : SessionWindowRowOp D n)

def mergeInto (dst src : Session D n) : Session D n where
  start := min dst.start src.start
  endTs := max dst.endTs src.endTs
  aggStates i := mergeState op.num (op.aggregates i) (dst.aggStates i) (src.aggStates i)
  groupValues := dst.groupValues

/-! ## Folding a row -/

/-- The late horizon; with no watermark yet nothing is late. -/
def lateBound (watermark : Option Int) : Int :=
  match watermark with
  | none => int64Min
  | some wm => satSub wm op.allowedLatenessMs

/-- The sessions within the gap of `ts`, in order of their start. -/
def overlaps (ts : Int) : List (Int × Session D n) → List (Int × Session D n)
  | [] => []
  | e :: rest =>
      if satAdd e.2.endTs op.gapMs < ts then overlaps ts rest
      else if e.2.start > satAdd ts op.gapMs then []
      else e :: overlaps ts rest

def groupValuesOf (row : Row (Datum D)) : Row (Datum D) :=
  op.groupKeys.foldl
    (fun values k =>
      match row.find? k.1 with
      | some v => assign values k.2 v
      | none => values)
    SortedMap.empty

def updateStates (states : Fin n → AggState D) (row : Row (Datum D)) : Fin n → AggState D :=
  fun i => updateAgg op.num (states i) (op.aggregates i) row

def freshSession (row : Row (Datum D)) (ts : Int) : Session D n where
  start := ts
  endTs := ts
  aggStates := op.updateStates (fun _ => emptyState op.num) row
  groupValues := op.groupValuesOf row

/-- The sessions a row overlaps merged into the earliest, and the row folded in. -/
def joinedSession (first : Int × Session D n) (others : List (Int × Session D n))
    (row : Row (Datum D)) (ts : Int) : Session D n :=
  let merged := others.foldl (fun m e => op.mergeInto m e.2) first.2
  { merged with
    start := min merged.start ts
    endTs := max merged.endTs ts
    aggStates := op.updateStates merged.aggStates row }

/-- `emplace`: a key that is there keeps its value. -/
def emplace (sessions : SortedMap Int (Session D n)) (key : Int) (s : Session D n) :
    SortedMap Int (Session D n) :=
  sessions.upsert key fun old => old.getD s

structure Folded (D : Type) (n : Nat) where
  sessions : SortedMap Int (Session D n)
  /-- The start of the session the row landed in. -/
  landed : Option Int
  /-- What goes to the dead-letter channel. -/
  late : List (Row (Datum D))

def foldSession (sessions : SortedMap Int (Session D n)) (row : Row (Datum D))
    (ts lateBound : Int) :
    Folded D n :=
  match op.overlaps ts sessions.entries with
  | [] =>
      if satAdd ts op.gapMs ≤ lateBound then
        ⟨sessions, none, if op.reportLate then [row] else []⟩
      else ⟨emplace sessions ts (op.freshSession row ts), some ts, []⟩
  | first :: others =>
      let left := sessions.retain fun k _ => k ∉ (first :: others).map Prod.fst
      let merged := op.joinedSession first others row ts
      ⟨emplace left merged.start merged, some merged.start, []⟩

/-- A group's sessions after its rows, with no watermark between them. -/
def sessionsAfter (arrivals : List (Int × Row (Datum D))) : SortedMap Int (Session D n) :=
  arrivals.foldl (fun m a => (op.foldSession m a.2 a.1 (op.lateBound none)).sessions)
    SortedMap.empty

/-! ## What they should be -/

/-- One accumulator over the rows. -/
def foldRows (i : Fin n) (rows : List (Row (Datum D))) : AggState D :=
  rows.foldl (fun st row => updateAgg op.num st (op.aggregates i) row) (emptyState op.num)

end SessionWindowRowOp

end Clink.Ports.SessionWindowRow

import Clink.Verified.Changelog
import Clink.Verified.KeyedSteps
import Clink.Ports.SqlAggregate

/-!
# Grouped aggregation

The embedding of `AggregateRowOp` (`src/sql/install.cpp`): a bucket per group,
found by the text of the grouping columns, holds the state of each aggregate
and the row emitted last.  The fold of a row into its bucket is the one both the
in-memory map and the keyed state use.
-/

namespace Clink.Ports.AggregateRow

open Clink.Verified
open Clink.Ports.SqlRow
open Clink.Ports.SqlValue
open Clink.Ports.SqlAggregate

/-- An input row, with its `__row_kind` if it has one. -/
structure InputRow (D : Type) where
  kind : Option RowKind
  row : Row (Datum D)

/-- An emitted row, tagged or not. -/
abbrev OutputRow (D : Type) := Option RowKind × Row (Output D)

structure AggBucket (D : Type) where
  groupValues : Row (Output D)
  aggStates : List (AggState D)
  priorEmitted : Option (Row (Output D))

structure AggregateRowOp (D : Type) where
  groupKeys : List Column
  aggregates : List (AggSpec D)
  groupKeyOutputs : List Column
  emitChangelog : Bool
  num : Numerics D

variable {D : Type}

def InputRow.retracts (r : InputRow D) : Bool := r.kind.any RowKind.isDeleteLike

/-! ## Texts -/

def keySeparator : Char := Char.ofNat 0x1f

/-- The JSON text of a result value. -/
def serializeOutput (num : Numerics D) : Option (Output D) → Text
  | none => ['n', 'u', 'l', 'l']
  | some (.datum v) => serialize num v
  | some (.array items) => '[' :: [','].intercalate (items.map (serialize num)) ++ [']']

/-- The JSON text of a row. -/
def serializeRow (num : Numerics D) (row : Row (Output D)) : Text :=
  '\x7b' :: [','].intercalate
    (row.entries.map fun e => escapeString e.1 ++ ':' :: serializeOutput num e.2) ++ ['\x7d']

namespace AggregateRowOp

variable (op : AggregateRowOp D)

/-- The text of one grouping column; NULL has none. -/
def keyText (row : Row (Datum D)) (column : Column) : Text :=
  match cell row column with
  | none => []
  | some v => serialize op.num v

def groupKey (row : Row (Datum D)) : Text :=
  [keySeparator].intercalate (op.groupKeys.map (op.keyText row))

/-! ## Buckets -/

/-- One grouping column under its output name; a missing column is left out. -/
def putGroupValue (row : Row (Datum D)) (values : Row (Output D)) (k : Column × Column) :
    Row (Output D) :=
  match row.find? k.1 with
  | none => values
  | some v => assign values k.2 (v.map .datum)

def groupValuesOf (row : Row (Datum D)) : Row (Output D) :=
  (op.groupKeys.zip op.groupKeyOutputs).foldl (putGroupValue row) .empty

def initBucket (row : Row (Datum D)) : AggBucket D where
  groupValues := op.groupValuesOf row
  aggStates := op.aggregates.map fun _ => emptyState op.num
  priorEmitted := none

/-- The row's contribution to every aggregate. -/
def foldStep (b : AggBucket D) (r : InputRow D) : AggBucket D :=
  let fold (st : AggState D) (spec : AggSpec D) : AggState D :=
    if r.retracts then retractAgg op.num st spec r.row else updateAgg op.num st spec r.row
  { b with aggStates := List.zipWith fold b.aggStates op.aggregates }

/-- The values under the aggregates' names. -/
def putResults (values : List (Option (Output D))) (row : Row (Output D)) : Row (Output D) :=
  (op.aggregates.zip values).foldl (fun row e => assign row e.1.outputName e.2) row

def resultOf (b : AggBucket D) : Row (Output D) :=
  op.putResults (List.zipWith (finalizeAgg op.num) b.aggStates op.aggregates) b.groupValues

/-- Equal by their JSON texts. -/
def rowsEqual (a b : Row (Output D)) : Bool := serializeRow op.num a == serializeRow op.num b

/-- In append mode the new result; in changelog mode the row emitted before is
taken back and the new result emitted, unless they are equal. -/
def emitGroup (b : AggBucket D) (inputWasChangelog : Bool) : AggBucket D × List (OutputRow D) :=
  let result := op.resultOf b
  if !op.emitChangelog then (b, [(if inputWasChangelog then some .updateAfter else none, result)])
  else
    match b.priorEmitted with
    | none => ({ b with priorEmitted := some result }, [(some .insert, result)])
    | some prior =>
        if op.rowsEqual prior result then (b, [])
        else
          ({ b with priorEmitted := some result },
            [(some .updateBefore, prior), (some .updateAfter, result)])

def foldInto (b : AggBucket D) (r : InputRow D) : AggBucket D × List (OutputRow D) :=
  op.emitGroup (op.foldStep b r) r.kind.isSome

/-- One row on the bucket of its group. -/
def handleBucket (b : Option (AggBucket D)) (r : InputRow D) :
    Option (AggBucket D) × List (OutputRow D) :=
  let (b, out) := op.foldInto (b.getD (op.initBucket r.row)) r
  (some b, out)

/-- One row on the buckets. -/
def handle (s : Text → Option (AggBucket D)) (r : InputRow D) :
    (Text → Option (AggBucket D)) × List (OutputRow D) :=
  atKey (fun r => op.groupKey r.row) op.handleBucket s r

end AggregateRowOp

end Clink.Ports.AggregateRow

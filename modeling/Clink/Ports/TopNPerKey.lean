import Clink.Verified.Changelog
import Clink.Verified.Run
import Clink.Ports.SqlRow
import Clink.Ports.SqlValue

/-!
# Top-N per key

The embedding of `TopNPerKeyRowOp` (`src/sql/install.cpp`).  Each partition
keeps its best rows in order; an arriving row is put before the rows it does
not come after, and the rows from the first rank above the count on are cut off
and retracted.  The partitions live in memory (`handleLoaded`) or row by row in
entry partitions (`handleEntries`).
-/

namespace Clink.Ports.TopNPerKey

open Clink.Verified
open Clink.Ports.SqlRow
open Clink.Ports.SqlValue

inductive OverRankKind where
  | rowNumber
  | rank
  | denseRank
  deriving DecidableEq

structure TopNPerKeyRowOp where
  partitionColumns : List Column
  /-- The sort columns, each with its descending flag. -/
  sortColumns : List (Column × Bool)
  count : Int
  rankKind : OverRankKind
  /-- How arrow prints a coefficient at a scale. -/
  toText : Int → Nat → Text

/-- A retained row: its encoded form reads back as the row, and the values of
the sort columns are held beside it. -/
structure StoredRow where
  encoded : Row Value
  sortVals : List (Option Value)

/-- The partitions, by the values of the partition columns. -/
abbrev Partitions := List (Option Value) → List StoredRow

namespace TopNPerKeyRowOp

variable (op : TopNPerKeyRowOp)

def sortValsOf (row : Row Value) : List (Option Value) := op.sortColumns.map fun c => cell row c.1

def partitionKey (row : Row Value) : List (Option Value) := op.partitionColumns.map (cell row)

/-! ## Comparison -/

/-- One sort column: NULL first, numbers as doubles, texts byte by byte. -/
def cmpVal : Option Value → Option Value → Int
  | none, none => 0
  | none, some _ => -1
  | some _, none => 1
  | some (.int a), some (.int b) =>
      if toDouble a < toDouble b then -1 else if toDouble a > toDouble b then 1 else 0
  | some a, some b =>
      match asString op.toText a, asString op.toText b with
      | some s, some t => compareText s t
      | _, _ => compareText (serialize op.toText a) (serialize op.toText b)

/-- The columns in turn, from the descending flags and the values. -/
def betterFrom : List Bool → List (Option Value) → List (Option Value) → Bool
  | descending :: rest, x :: a, y :: b =>
      let cmp := op.cmpVal x y
      if cmp = 0 then betterFrom rest a b
      else if descending then decide (cmp > 0) else decide (cmp < 0)
  | _, _, _ => false

/-- The first tuple sorts before the second. -/
def better (a b : List (Option Value)) : Bool := op.betterFrom (op.sortColumns.map Prod.snd) a b

def tied (a b : List (Option Value)) : Bool := !op.better a b && !op.better b a

/-! ## The cut -/

/-- The walk down the buffer: the index, the start and the number of the
current tie group, and the row before. -/
def cutFrom (i groupStart groupIdx : Nat) : Option (List (Option Value)) → List StoredRow → Nat
  | _, [] => i
  | previous, r :: rest =>
      let next := match previous with
        | none => false
        | some vals => !op.tied r.sortVals vals
      let groupStart : Nat := if next then i else groupStart
      let groupIdx : Nat := if next then groupIdx + 1 else groupIdx
      let rank : Nat := match op.rankKind with
        | .rowNumber => i + 1
        | .rank => groupStart + 1
        | .denseRank => groupIdx + 1
      if (rank : Int) > op.count then i
      else cutFrom (i + 1) groupStart groupIdx (some r.sortVals) rest

/-- The index of the first row whose rank exceeds the count. -/
def computeCut (part : List StoredRow) : Nat :=
  if op.rankKind = .rowNumber then min op.count.toNat part.length
  else op.cutFrom 0 0 0 none part

/-- The same walk over the entries of a partition. -/
def entriesCutFrom (index groupStart groupIndex : Nat) :
    Option (List (Option Value)) → List StoredRow → Nat
  | _, [] => index
  | previous, current :: rest =>
      let next := previous.any fun vals => !op.tied current.sortVals vals
      let groupStart : Nat := if next then index else groupStart
      let groupIndex : Nat := if next then groupIndex + 1 else groupIndex
      let rank : Nat := if op.rankKind = .rank then groupStart + 1 else groupIndex + 1
      if rank > op.count.toNat then index
      else entriesCutFrom (index + 1) groupStart groupIndex (some current.sortVals) rest

def entriesCut (part : List StoredRow) : Nat :=
  if op.rankKind ≠ .rowNumber then op.entriesCutFrom 0 0 0 none part
  else min part.length op.count.toNat

/-! ## Arrivals -/

/-- A row, with the cut of its partition found by `cutOf`: the rows from the cut
on are retracted, the new one apart, which is emitted only before the cut. -/
def handle (cutOf : List StoredRow → Nat) (st : Partitions) (row : Row Value) :
    Partitions × List (Change (Row Value)) :=
  if op.count ≤ 0 then (st, [])
  else
    let key := op.partitionKey row
    let incoming : StoredRow := ⟨row, op.sortValsOf row⟩
    let pos := ((st key).takeWhile fun r => op.better r.sortVals incoming.sortVals).length
    let part := (st key).take pos ++ incoming :: (st key).drop pos
    let cut := cutOf part
    let evicted := (part.zipIdx.drop cut).filter fun e => e.2 ≠ pos
    (Function.update st key (part.take cut),
      (evicted.map fun e => .delete e.1.encoded) ++ if pos < cut then [.insert row] else [])

/-- The partitions in memory. -/
def handleLoaded : Partitions → Row Value → Partitions × List (Change (Row Value)) :=
  op.handle op.computeCut

/-- The entry partitions. -/
def handleEntries : Partitions → Row Value → Partitions × List (Change (Row Value)) :=
  op.handle op.entriesCut

end TopNPerKeyRowOp

end Clink.Ports.TopNPerKey

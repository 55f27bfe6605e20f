import Mathlib.Data.Char
import Mathlib.Data.List.Lex
import Clink.Verified.SortedMap

/-!
# Rows of the SQL runtime

The part of `include/clink/sql/row.hpp` and `include/clink/sql/row_kind.hpp`
that the SQL operators look at.  A row is an ordered map from column names to
cells.  The operators compare cells only through their canonical text, so a
value stands here for all values with that text, and NULL is the absence of a
value.  The reserved `__row_kind` column is kept beside the others.
-/

namespace Clink.Ports.SqlRow

open Clink.Verified

abbrev Column := List Char

/-- The columns of a row over the values `V`; `none` is NULL. -/
abbrev Row (V : Type) := SortedMap Column (Option V)

variable {V : Type}

/-- The value of a column; a column the row does not have reads as NULL. -/
def cell (row : Row V) (column : Column) : Option V := (row.find? column).join

/-- The `__row_kind` of a changelog row. -/
inductive RowKind where
  | insert
  | delete
  | updateBefore
  | updateAfter
  deriving DecidableEq

def RowKind.isDeleteLike : RowKind → Bool
  | delete | updateBefore => true
  | insert | updateAfter => false

inductive EquiJoinKind where
  | inner
  | leftOuter
  | rightOuter
  | fullOuter
  deriving DecidableEq

namespace EquiJoinKind

def leftKeepsUnmatched : EquiJoinKind → Bool
  | leftOuter | fullOuter => true
  | inner | rightOuter => false

def rightKeepsUnmatched : EquiJoinKind → Bool
  | rightOuter | fullOuter => true
  | inner | leftOuter => false

/-- Whether one side's unmatched rows are kept. -/
def keepsUnmatched (kind : EquiJoinKind) (isLeft : Bool) : Bool :=
  if isLeft then kind.leftKeepsUnmatched else kind.rightKeepsUnmatched

end EquiJoinKind

/-- `alias_column`. -/
def prefixed (tableAlias column : Column) : Column := tableAlias ++ '_' :: column

/-- `values[column] = v`. -/
def assign (row : Row V) (column : Column) (v : Option V) : Row V := row.upsert column fun _ => v

/-- The synthetic routing column, `__key`. -/
def routingColumn : Column := ['_', '_', 'k', 'e', 'y']

/-- The row as it is emitted: the synthetic routing key is dropped. -/
def emitRow (row : Row V) : Row V := row.erase routingColumn

end Clink.Ports.SqlRow

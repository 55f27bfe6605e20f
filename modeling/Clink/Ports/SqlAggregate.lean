import Clink.Verified.Tally
import Clink.Ports.DecimalArithmetic
import Clink.Ports.SqlRow
import Clink.Ports.SqlValue

/-!
# The built-in aggregates

The embedding of `AggSpec`, `AggState`, `update_agg`, `retract_agg` and
`finalize_agg` (`src/sql/install.cpp`) over the DECIMAL arithmetic of
`include/clink/config/decimal.hpp`.  Doubles are a type `D` with the
operations the code applies to them (`Numerics`).  A value is what a column of
a `JsonValue` row can hold; of an array or an object only the JSON text is read.

An aggregate that can be retracted keeps how often it holds each value, in maps
ordered by the values' texts (`valueCounts`) or by `JsonValueLess`
(`minmaxCounts`).  The multiplicities are `int` and wrap; the row counters are
int64, and no run reaches their end.
-/

namespace Clink.Ports.SqlAggregate

open Clink.Verified
open Clink.Ports.FixedPoint (Decimal decAdd decSub decCompare maxDecimalPrecision)
open Clink.Ports.SqlRow
open Clink.Ports.SqlValue

/-- The doubles, with how doubles and DECIMALs are printed. -/
structure Numerics (D : Type) where
  ofInt : Int → D
  /-- `Decimal128::ToDouble` of a coefficient and a scale. -/
  ofDecimal : Int → Nat → D
  add : D → D → D
  sub : D → D → D
  mul : D → D → D
  div : D → D → D
  sqrt : D → D
  less : D → D → Bool
  equal : D → D → Bool
  floor : D → Nat
  ceil : D → Nat
  /-- The int64 a double is equal to. -/
  toInt64 : D → Option Int
  /-- The JSON text of a double. -/
  text : D → Text
  /-- The name of a NaN or an infinity. -/
  nonFiniteName : D → Option Text
  /-- How arrow prints a coefficient at a scale. -/
  toText : Int → Nat → Text

/-- A value of a column; NULL is the absence of one. -/
inductive Datum (D : Type) where
  | bool (b : Bool)
  | int (n : Int)
  | double (d : D)
  | decimal (unscaled : Int) (scale : Nat)
  | string (text : Text)
  /-- An array or an object, by its JSON text. -/
  | composite (text : Text)
  deriving DecidableEq

/-- A value of a result column. -/
inductive Output (D : Type) where
  | datum (v : Datum D)
  | array (items : List (Datum D))
  deriving DecidableEq

/-- `int`. -/
abbrev Count := BitVec 32

inductive AggFn where
  | count
  | sum
  | avg
  | min
  | max
  /-- The family of `stddev` and `variance`; the sample forms divide by `n - 1`. -/
  | variance (sample isStddev : Bool)
  | stringAgg
  | percentile
  | arrayAgg
  deriving DecidableEq

structure AggSpec (D : Type) where
  outputName : Column
  fn : AggFn
  /-- Empty for `COUNT(*)`. -/
  inputColumn : Column
  distinct : Bool
  separator : Text
  percentile : D
  /-- MIN and MAX keep every live value. -/
  retractable : Bool

structure AggState (D : Type) where
  runningSum : D
  runningSumSq : D
  runningCount : Nat := 0
  runningMin : Option (Datum D) := none
  runningMax : Option (Datum D) := none
  initialised : Bool := false
  sumDecStarted : Bool := false
  sumSawDecimal : Bool := false
  sumDecComplete : Bool := true
  valueCounts : List (Text × Count) := []
  minmaxCounts : List (Datum D × Count) := []
  percentileValues : List D := []
  arrayValues : List (Datum D) := []
  runningSumDec : Decimal := ⟨0, 0⟩

/-! ## DECIMALs -/

/-- `dec_compare(a, b) < 0`. -/
def decLess (a b : Decimal) : Bool := decCompare a b < 0

/-- The int64 a decimal of scale 0 is. -/
def decToInt64 (a : Decimal) : Option Int :=
  if a.scale ≠ 0 then none
  else if -2 ^ 63 ≤ a.unscaled ∧ a.unscaled < 2 ^ 63 then some a.unscaled else none

/-- Trailing zeros of the fraction cut off. -/
def decStrip (unscaled : Int) : Nat → Decimal
  | 0 => ⟨unscaled, 0⟩
  | scale + 1 =>
      if unscaled % 10 = 0 then decStrip (unscaled / 10) scale else ⟨unscaled, scale + 1⟩

variable {D : Type} (num : Numerics D)

def decCanonicalKey (a : Decimal) : Text :=
  let stripped := decStrip a.unscaled a.scale
  decFormat num.toText stripped.unscaled stripped.scale

/-! ## Values -/

/-- `serialize(0)`. -/
def serialize : Datum D → Text
  | .bool b => if b then ['t', 'r', 'u', 'e'] else ['f', 'a', 'l', 's', 'e']
  | .int n => (toString n).toList
  | .double d => num.text d
  | .decimal unscaled scale => escapeString (decimalSentinel :: decFormat num.toText unscaled scale)
  | .string text => escapeString text
  | .composite text => text

def asDecimal : Datum D → Option Decimal
  | .decimal unscaled scale => some ⟨unscaled, scale⟩
  | .int n => some ⟨n, 0⟩
  | .double d => (num.toInt64 d).map fun n => ⟨n, 0⟩
  | _ => none

/-- `as_number` of a number. -/
def asNumber : Datum D → Option D
  | .int n => some (num.ofInt n)
  | .double d => some d
  | _ => none

/-- A number or a DECIMAL as a double. -/
def aggNumericDouble : Datum D → Option D
  | .decimal unscaled scale => some (num.ofDecimal unscaled scale)
  | v => asNumber num v

def isDecString : Datum D → Bool
  | .decimal _ _ => true
  | _ => false

/-- `JsonValueLess::rank_`. -/
def rank : Datum D → Nat
  | .bool _ => 1
  | .int _ | .double _ | .decimal _ _ => 2
  | .string _ => 3
  | .composite _ => 4

/-- Two numbers: exactly where a DECIMAL is one of them and both have a decimal
value, else as doubles. -/
def numberLess (a b : Datum D) : Bool :=
  let byDouble :=
    match aggNumericDouble num a, aggNumericDouble num b with
    | some x, some y => num.less x y
    | _, _ => false
  if isDecString a || isDecString b then
    match asDecimal num a, asDecimal num b with
    | some x, some y => decLess x y
    | _, _ => byDouble
  else byDouble

/-- The order of the MIN and MAX multiset. -/
def jsonValueLess (a b : Datum D) : Bool :=
  if rank a ≠ rank b then rank a < rank b
  else
    match a, b with
    | .string s, .string t => s < t
    | .bool x, .bool y => !x && y
    | .composite _, _ => false
    | _, _ => numberLess num a b

/-- The order of the texts' map. -/
def textLess (s t : Text) : Bool := s < t

/-- The text a value is counted under. -/
def aggValueKey (v : Datum D) (spec : AggSpec D) : Text :=
  match v with
  | .decimal unscaled scale => decCanonicalKey num ⟨unscaled, scale⟩
  | .string text => if spec.fn = .stringAgg then text else serialize num v
  | .double d =>
      if spec.fn = .stringAgg then (num.nonFiniteName d).getD (serialize num v)
      else serialize num v
  | _ => serialize num v

/-! ## Updates -/

def emptyState : AggState D := { runningSum := num.ofInt 0, runningSumSq := num.ofInt 0 }

/-- A value summed: a double into the double sum, an integer or a DECIMAL also
into the exact one. -/
def updateSum (st : AggState D) (v : Datum D) : AggState D :=
  let st := match v with
    | .double d => { st with runningSum := num.add st.runningSum d, sumDecComplete := false }
    | _ =>
        match asDecimal num v with
        | none => st
        | some dv =>
            let st :=
              if st.sumDecStarted then
                match decAdd st.runningSumDec dv with
                | some s => { st with runningSumDec := s }
                | none => { st with sumDecComplete := false }
              else { st with runningSumDec := dv, sumDecStarted := true }
            { st with
              sumSawDecimal := st.sumSawDecimal || isDecString v
              runningSum := num.add st.runningSum (num.ofDecimal dv.unscaled dv.scale) }
  { st with runningCount := st.runningCount + 1 }

def retractSum (st : AggState D) (v : Datum D) : AggState D :=
  let st := match v with
    | .double d => { st with runningSum := num.sub st.runningSum d, sumDecComplete := false }
    | _ =>
        match asDecimal num v with
        | none => st
        | some dv =>
            let st :=
              if st.sumDecStarted then
                match decSub st.runningSumDec dv with
                | some s => { st with runningSumDec := s }
                | none => { st with sumDecComplete := false }
              else st
            { st with runningSum := num.sub st.runningSum (num.ofDecimal dv.unscaled dv.scale) }
  { st with runningCount := st.runningCount - 1 }

def updateVariance (st : AggState D) (v : Datum D) : AggState D :=
  let st := match aggNumericDouble num v with
    | some d =>
        { st with
          runningSum := num.add st.runningSum d
          runningSumSq := num.add st.runningSumSq (num.mul d d) }
    | none => st
  { st with runningCount := st.runningCount + 1 }

def retractVariance (st : AggState D) (v : Datum D) : AggState D :=
  let st := match aggNumericDouble num v with
    | some d =>
        { st with
          runningSum := num.sub st.runningSum d
          runningSumSq := num.sub st.runningSumSq (num.mul d d) }
    | none => st
  { st with runningCount := st.runningCount - 1 }

/-- Whether a value replaces the running extreme. -/
def replaces (isMin : Bool) (v running : Datum D) : Bool :=
  if isDecString v || isDecString running then
    match asDecimal num v, asDecimal num running with
    | some dv, some dr => if isMin then decLess dv dr else decLess dr dv
    | _, _ => false
  else
    match v, running with
    | .string s, .string t => if isMin then s < t else t < s
    | _, _ =>
        match asNumber num v, asNumber num running with
        | some x, some y => if isMin then num.less x y else num.less y x
        | _, _ => false

def updateExtreme (st : AggState D) (isMin retractable : Bool) (v : Datum D) : AggState D :=
  if retractable then
    { st with minmaxCounts := bump (jsonValueLess num) v st.minmaxCounts }
  else
    let running := if isMin then st.runningMin else st.runningMax
    if !st.initialised || running.any (replaces num isMin v) then
      if isMin then { st with runningMin := some v, initialised := true }
      else { st with runningMax := some v, initialised := true }
    else st

/-- A value that is not NULL into an aggregate with an input column. -/
def updateValue (st : AggState D) (spec : AggSpec D) (v : Datum D) : AggState D :=
  match spec.fn with
  | .count =>
      if spec.distinct then
        { st with valueCounts := bump textLess (aggValueKey num v spec) st.valueCounts }
      else { st with runningCount := st.runningCount + 1 }
  | .stringAgg => { st with valueCounts := bump textLess (aggValueKey num v spec) st.valueCounts }
  | .percentile =>
      match asNumber num v with
      | some d => { st with percentileValues := st.percentileValues ++ [d] }
      | none => st
  | .arrayAgg => { st with arrayValues := st.arrayValues ++ [v] }
  | .sum | .avg => updateSum num st v
  | .variance _ _ => updateVariance num st v
  | .min => updateExtreme num st true spec.retractable v
  | .max => updateExtreme num st false spec.retractable v

/-- The same value taken out again. -/
def retractValue (st : AggState D) (spec : AggSpec D) (v : Datum D) : AggState D :=
  match spec.fn with
  | .count =>
      if spec.distinct then
        { st with valueCounts := unbump textLess (aggValueKey num v spec) st.valueCounts }
      else { st with runningCount := st.runningCount - 1 }
  | .stringAgg =>
      { st with valueCounts := unbump textLess (aggValueKey num v spec) st.valueCounts }
  | .percentile =>
      match asNumber num v with
      | some d =>
          { st with percentileValues := st.percentileValues.eraseP fun x => num.equal x d }
      | none => st
  | .arrayAgg =>
      { st with
        arrayValues := st.arrayValues.eraseP fun x => serialize num x == serialize num v }
  | .sum | .avg => retractSum num st v
  | .variance _ _ => retractVariance num st v
  | .min | .max =>
      if spec.retractable then
        { st with minmaxCounts := unbump (jsonValueLess num) v st.minmaxCounts }
      else st

def updateAgg (st : AggState D) (spec : AggSpec D) (row : Row (Datum D)) : AggState D :=
  if spec.fn = .count ∧ spec.inputColumn = [] then { st with runningCount := st.runningCount + 1 }
  else
    match cell row spec.inputColumn with
    | none => st
    | some v => updateValue num st spec v

def retractAgg (st : AggState D) (spec : AggSpec D) (row : Row (Datum D)) : AggState D :=
  if spec.fn = .count ∧ spec.inputColumn = [] then { st with runningCount := st.runningCount - 1 }
  else
    match cell row spec.inputColumn with
    | none => st
    | some v => retractValue num st spec v

/-! ## Results -/

/-- Linear interpolation between the two closest ranks. -/
def interpolate (percentile : D) (sorted : List D) : D :=
  let nth (i : Nat) : D := sorted.getD i (num.ofInt 0)
  let idx := num.mul percentile (num.ofInt (sorted.length - 1 : Nat))
  let lo := num.floor idx
  let hi := num.ceil idx
  let w := num.sub idx (num.ofInt lo)
  num.add (nth lo) (num.mul (num.sub (nth hi) (nth lo)) w)

/-- The variance from the count, the sum and the sum of squares. -/
def varianceOf (sample isStddev : Bool) (n : Nat) (sum sumSq : D) : D :=
  let mean := num.div sum (num.ofInt n)
  let ss := num.sub sumSq (num.mul (num.mul (num.ofInt n) mean) mean)
  let ss := if num.less ss (num.ofInt 0) then num.ofInt 0 else ss
  let var := num.div ss (num.ofInt (if sample then (n : Int) - 1 else n))
  if isStddev then num.sqrt var else var

/-- The texts with the separator between them. -/
def joinTexts (separator : Text) (texts : List Text) : Text := separator.intercalate texts

/-- The first of the values with each text. -/
def dedupByText : List (Datum D) → List Text → List (Datum D)
  | [], _ => []
  | v :: rest, seen =>
      if seen.contains (serialize num v) then dedupByText rest seen
      else v :: dedupByText rest (serialize num v :: seen)

def finalizeSum (st : AggState D) : Output D :=
  if st.sumDecStarted && st.sumDecComplete then
    if st.sumSawDecimal then .datum (.decimal st.runningSumDec.unscaled st.runningSumDec.scale)
    else
      match decToInt64 st.runningSumDec with
      | some i => .datum (.int i)
      | none => .datum (.decimal st.runningSumDec.unscaled st.runningSumDec.scale)
  else .datum (.double st.runningSum)

/-- The value of an aggregate; `none` is NULL. -/
def finalizeAgg (st : AggState D) (spec : AggSpec D) : Option (Output D) :=
  match spec.fn with
  | .count =>
      if spec.distinct then some (.datum (.int st.valueCounts.length))
      else some (.datum (.int st.runningCount))
  | .percentile =>
      if st.percentileValues = [] then none
      else
        let sorted := st.percentileValues.mergeSort fun a b => !num.less b a
        some (.datum (.double (interpolate num spec.percentile sorted)))
  | .arrayAgg =>
      if st.arrayValues = [] then none
      else if spec.distinct then some (.array (dedupByText num st.arrayValues []))
      else some (.array st.arrayValues)
  | .stringAgg =>
      if st.valueCounts = [] then none
      else
        some (.datum (.string (joinTexts spec.separator (st.valueCounts.flatMap fun e =>
          List.replicate (if spec.distinct then 1 else e.2.toInt.toNat) e.1))))
  | .sum => if st.runningCount = 0 then none else some (finalizeSum st)
  | .avg =>
      if st.runningCount = 0 then none
      else some (.datum (.double (num.div st.runningSum (num.ofInt st.runningCount))))
  | .min =>
      if spec.retractable then st.minmaxCounts.head?.map fun e => .datum e.1
      else st.runningMin.map .datum
  | .max =>
      if spec.retractable then st.minmaxCounts.getLast?.map fun e => .datum e.1
      else st.runningMax.map .datum
  | .variance sample isStddev =>
      if st.runningCount = 0 ∨ (sample = true ∧ st.runningCount < 2) then none
      else
        some (.datum (.double
          (varianceOf num sample isStddev st.runningCount st.runningSum st.runningSumSq)))

end Clink.Ports.SqlAggregate

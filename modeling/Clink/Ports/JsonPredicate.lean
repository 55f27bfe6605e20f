import Clink.Ports.Decimal
import Clink.Verified.ThreeValued

/-!
# Compiled predicates

`operators/json_predicate.hpp`: a predicate given as JSON is compiled once to a tree
of nodes, and the tree is evaluated against every row in three-valued logic.  A shape
that makes no sense compiles to a node that throws when it is reached, so an error
behind a short circuit is never seen.

`compare` chooses its branch by the kinds of the two values.  The tagged decimals come
first and are compared exactly where both sides have a decimal; then, as soon as one
side is a number, both are coerced to doubles, integers included; two strings are
compared as bytes and two booleans as false before true.  `IN` asks `compare` for
equality and remembers of everything else only whether a NULL was in the list.
-/

namespace Clink.Ports.Predicate

open Clink.Verified
open Clink.Verified.StrictJson
open Clink.Ports.Json
open Clink.Ports.FixedPoint

/-- What the evaluator uses of the doubles and of the arrow library. -/
structure Numerics (F : Type) extends DoubleText F where
  /-- `static_cast<double>` of an `int64`. -/
  ofInt64 : Int64 → F
  less : F → F → Bool
  /-- `std::stod` of a string it consumes to its end. -/
  stod : Bytes → Option (Double F)
  /-- `Decimal128::ToDouble`. -/
  toDouble : Int → Nat → Double F
  /-- `Decimal128::FromString`. -/
  fromString : Bytes → Option (Int × Int)
  /-- `std::to_string` of a number, without a fraction where it has none. -/
  textOf : Double F → Bytes

variable {F : Type} (N : Numerics F)

/-! ## Comparing values -/

/-- `<` of doubles. -/
def doubleLess : Double F → Double F → Bool
  | .nan, _ | _, .nan => false
  | .finite a, .finite b => N.less a b
  | .infinity a, .infinity b => a && !b
  | .infinity a, .finite _ => a
  | .finite _, .infinity b => !b

/-- `dec_parse`. -/
def parseDecimal (text : Bytes) : Option Decimal := decParse N.fromString text

/-- `as_decimal`. -/
def asDecimal : JsonValue F → Option Decimal
  | .string s => if s.head? = some decimalSentinel then parseDecimal N s else none
  | .int n => some ⟨n.toInt, 0⟩
  | .number (.finite f) => (N.castInt64 f).map fun n => ⟨n.toInt, 0⟩
  | _ => none

/-- `try_to_number`. -/
def tryToNumber : JsonValue F → Option (Double F)
  | .int n => some (.finite (N.ofInt64 n))
  | .number d => some d
  | .string s =>
      if s.head? = some decimalSentinel then
        (parseDecimal N s).map fun d => N.toDouble d.unscaled d.scale
      else N.stod s
  | .bool b => some (.finite (N.ofInt64 (if b then 1 else 0)))
  | .null | .array _ | .object _ => none

/-- The order of two doubles, as the source asks for it: neither below the other is equal. -/
def numberOrder (a b : Double F) : Int :=
  if doubleLess N a b then -1 else if doubleLess N b a then 1 else 0

def isNumber : JsonValue F → Bool
  | .int _ | .number _ => true
  | _ => false

def isNull : JsonValue F → Bool
  | .null => true
  | _ => false

/-- The order of two operands that were coerced, if both could be. -/
def coercedCompare : Option (Double F) → Option (Double F) → Option Int
  | some a, some b => some (numberOrder N a b)
  | none, _ | _, none => none

/-- The paths of `compare` for two strings and for two booleans. -/
def plainCompare : JsonValue F → JsonValue F → Option Int
  | .string sa, .string sb => some (if sa < sb then -1 else if sb < sa then 1 else 0)
  | .bool ba, .bool bb => some (if ba = bb then 0 else if bb then -1 else 1)
  | _, _ => none

/-- `compare`: negative, zero or positive, or nothing for values that are not ordered. -/
def compare (a b : JsonValue F) : Option Int :=
  if isNull a || isNull b then none
  else if isDecString a || isDecString b then
    match asDecimal N a, asDecimal N b with
    | some da, some db => some (decCompare da db)
    | none, _ | _, none => coercedCompare N (tryToNumber N a) (tryToNumber N b)
  else if isNumber a || isNumber b then coercedCompare N (tryToNumber N a) (tryToNumber N b)
  else plainCompare a b

/-! ## Three-valued connectives -/

def fromBool (b : Bool) : TriBool := if b then .true else .false

def notTri (t : TriBool) : TriBool :=
  if t = .true then .false else if t = .false then .true else .unknown

def andTri (a b : TriBool) : TriBool :=
  if a = .false ∨ b = .false then .false
  else if a = .unknown ∨ b = .unknown then .unknown
  else .true

def orTri (a b : TriBool) : TriBool :=
  if a = .true ∨ b = .true then .true
  else if a = .unknown ∨ b = .unknown then .unknown
  else .false

/-! ## LIKE -/

/-- The loop of `like_match`: the two positions, and those of the last `%` that was met.
The fuel bounds its rounds. -/
def likeLoop (pattern input : Bytes) : Nat → Nat → Nat → Option (Nat × Nat) → Bool
  | 0, _, _, _ => false
  | fuel + 1, pi, ii, star =>
      match input[ii]? with
      | none => ((pattern.drop pi).dropWhile (· == 0x25)).isEmpty
      | some c =>
          if pattern[pi]? = some 0x25 then
            likeLoop pattern input fuel (pi + 1) ii (some (pi, ii))
          else if pattern[pi]? = some 0x5F ∨ pattern[pi]? = some c then
            likeLoop pattern input fuel (pi + 1) (ii + 1) star
          else
            match star with
            | some (starPi, starIi) =>
                likeLoop pattern input fuel (starPi + 1) (starIi + 1) (some (starPi, starIi + 1))
            | none => false

/-- `like_match`: between two moves of the star at most the input is read once. -/
def likeMatch (pattern input : Bytes) : Bool :=
  likeLoop pattern input ((pattern.length + input.length + 2) * (input.length + 2)) 0 0 none

/-- `to_text`. -/
def toText [DecidableEq F] : JsonValue F → Bytes
  | .string s => if s.head? = some decimalSentinel then s.tail else s
  | .null => []
  | .bool b => if b then ascii "true" else ascii "false"
  | .int n => N.textOf (.finite (N.ofInt64 n))
  | .number d => N.textOf d
  | v => serialize N.toDoubleText false .tagged v

/-! ## Nodes -/

inductive CmpOp where
  | eq
  | ne
  | lt
  | le
  | gt
  | ge
  deriving DecidableEq, Repr

/-- The operator on what `compare` gave. -/
def CmpOp.holds : CmpOp → Int → Bool
  | .eq, cmp => cmp == 0
  | .ne, cmp => cmp != 0
  | .lt, cmp => cmp < 0
  | .le, cmp => cmp ≤ 0
  | .gt, cmp => cmp > 0
  | .ge, cmp => cmp ≥ 0

/-- The node kinds, with what each one keeps. -/
inductive PredNode (F : Type) where
  | throws (msg : Bytes)
  | and (children : List (PredNode F))
  | or (children : List (PredNode F))
  | not (child : PredNode F)
  | isNull (col : Bytes) (negate : Bool)
  | like (col pattern : Bytes)
  | inList (col : Bytes) (values : List (JsonValue F)) (hasNull : Bool)
  | cmp (op : CmpOp) (col : Bytes) (rhsCol : Option Bytes) (literal : JsonValue F)

/-- `InNode::eval`. -/
def evalIn (val : JsonValue F) (values : List (JsonValue F)) (hasNull : Bool) : TriBool :=
  if isNull val then .unknown
  else if values.any fun v => compare N val v == some 0 then .true
  else if hasNull then .unknown
  else .false

/-- `CmpNode::eval` on the two values. -/
def evalCmp (op : CmpOp) (lhs rhs : JsonValue F) : TriBool :=
  if isNull lhs || isNull rhs then .unknown
  else
    match compare N lhs rhs with
    | none => .unknown
    | some cmp => fromBool (op.holds cmp)

mutual

/-- `eval` of a node on a row; a message for a node that throws. -/
def eval [DecidableEq F] (resolve : Bytes → JsonValue F) : PredNode F → Except Bytes TriBool
  | .throws msg => .error msg
  | .and children => evalAnd resolve .true children
  | .or children => evalOr resolve .false children
  | .not child =>
      match eval resolve child with
      | .error msg => .error msg
      | .ok t => .ok (notTri t)
  | .isNull col negate =>
      .ok (fromBool (if negate then !isNull (resolve col) else isNull (resolve col)))
  | .like col pattern =>
      .ok (if isNull (resolve col) then .unknown
        else fromBool (likeMatch pattern (toText N (resolve col))))
  | .inList col values hasNull => .ok (evalIn N (resolve col) values hasNull)
  | .cmp op col rhsCol literal =>
      .ok (evalCmp N op (resolve col)
        (match rhsCol with
          | some rhs => resolve rhs
          | none => literal))
termination_by structural node => node

/-- The children of a conjunction, up to the first that makes it false. -/
def evalAnd [DecidableEq F] (resolve : Bytes → JsonValue F) (acc : TriBool) :
    List (PredNode F) → Except Bytes TriBool
  | [] => .ok acc
  | child :: children =>
      match eval resolve child with
      | .error msg => .error msg
      | .ok t =>
          if andTri acc t = .false then .ok .false
          else evalAnd resolve (andTri acc t) children
termination_by structural children => children

/-- The children of a disjunction, up to the first that makes it true. -/
def evalOr [DecidableEq F] (resolve : Bytes → JsonValue F) (acc : TriBool) :
    List (PredNode F) → Except Bytes TriBool
  | [] => .ok acc
  | child :: children =>
      match eval resolve child with
      | .error msg => .error msg
      | .ok t =>
          if orTri acc t = .true then .ok .true
          else evalOr resolve (orTri acc t) children
termination_by structural children => children

end

/-! ## Compilation -/

/-- `FlatMap::find`: the value under a key. -/
def find? (members : List (Bytes × JsonValue F)) (key : Bytes) : Option (JsonValue F) :=
  (members.find? fun m => m.1 == key).map Prod.snd

def asString? : Option (JsonValue F) → Option Bytes
  | some (.string s) => some s
  | _ => none

def asArray? : Option (JsonValue F) → Option (List (JsonValue F))
  | some (.array items) => some items
  | _ => none

/-- `json_predicate: 'op' needs ...`. -/
def needs (op : Bytes) (what : String) : Bytes :=
  ascii "json_predicate: '" ++ op ++ ascii "' needs " ++ ascii what

def cmpOp? (op : Bytes) : Option CmpOp :=
  if op = ascii "eq" then some .eq
  else if op = ascii "ne" then some .ne
  else if op = ascii "lt" then some .lt
  else if op = ascii "le" then some .le
  else if op = ascii "gt" then some .gt
  else if op = ascii "ge" then some .ge
  else none

/-- The node of an operator that has no predicates below it. -/
def compileLeaf (op : Bytes) (members : List (Bytes × JsonValue F)) : PredNode F :=
  match asString? (find? members (ascii "col")) with
  | none => .throws (needs op "a 'col' string")
  | some col =>
      if op = ascii "is_null" ∨ op = ascii "is_not_null" then
        .isNull col (op == ascii "is_not_null")
      else if op = ascii "like" then
        match asString? (find? members (ascii "pattern")) with
        | none => .throws (needs op "a 'pattern' string")
        | some pattern => .like col pattern
      else if op = ascii "in" then
        match asArray? (find? members (ascii "values")) with
        | none => .throws (needs op "a 'values' array")
        | some values => .inList col (values.filter fun v => !isNull v) (values.any isNull)
      else
        match cmpOp? op with
        | none => .throws (ascii "json_predicate: unknown op '" ++ op ++ ascii "'")
        | some cmp =>
            match find? members (ascii "rhs_col") with
            | some (.string rhs) => .cmp cmp col (some rhs) .null
            | some _ => .throws (ascii "json_predicate: 'rhs_col' must be a string")
            | none =>
                match find? members (ascii "literal") with
                | some literal => .cmp cmp col none literal
                | none => .throws (needs op "'literal' or 'rhs_col'")

mutual

/-- `compile_pred`. -/
def compilePred : JsonValue F → PredNode F
  | .object members =>
      match find? members (ascii "op") with
      | none => .throws (ascii "json_predicate: missing 'op'")
      | some (.string op) =>
          if op = ascii "and" then
            match compileArgs members with
            | none => .throws (needs op "an 'args' array")
            | some children => .and children
          else if op = ascii "or" then
            match compileArgs members with
            | none => .throws (needs op "an 'args' array")
            | some children => .or children
          else if op = ascii "not" then
            match compileArg members with
            | none => .throws (ascii "json_predicate: 'not' needs 'arg'")
            | some child => .not child
          else compileLeaf op members
      | some _ => .throws (ascii "json_predicate: 'op' must be a string")
  | _ => .throws (ascii "json_predicate: missing 'op'")
termination_by structural pred => pred

/-- The predicates of the array under `args`. -/
def compileArgs : List (Bytes × JsonValue F) → Option (List (PredNode F))
  | [] => none
  | (key, value) :: members =>
      if key = ascii "args" then compileArray value else compileArgs members
termination_by structural members => members

/-- The predicate under `arg`. -/
def compileArg : List (Bytes × JsonValue F) → Option (PredNode F)
  | [] => none
  | (key, value) :: members =>
      if key = ascii "arg" then some (compilePred value) else compileArg members
termination_by structural members => members

def compileArray : JsonValue F → Option (List (PredNode F))
  | .array items => some (compileAll items)
  | _ => none
termination_by structural value => value

def compileAll : List (JsonValue F) → List (PredNode F)
  | [] => []
  | item :: items => compilePred item :: compileAll items
termination_by structural items => items

end

/-- `CompiledPredicate::evaluate_tri`. -/
def evaluateTri [DecidableEq F] (pred : JsonValue F) (resolve : Bytes → JsonValue F) :
    Except Bytes TriBool :=
  eval N resolve (compilePred pred)

/-- `CompiledPredicate::evaluate`: only a true predicate keeps the row. -/
def evaluate [DecidableEq F] (pred : JsonValue F) (resolve : Bytes → JsonValue F) :
    Except Bytes Bool :=
  match evaluateTri N pred resolve with
  | .error msg => .error msg
  | .ok t => .ok (t == .true)

end Clink.Ports.Predicate

import Clink.Ports.DecimalOrder

/-!
# Value expressions over BIGINT

`eval_value_op` of `json_value_expr.hpp`, the operations that BIGINT expressions are made
of: arithmetic, `COALESCE` and the casts to BIGINT, DECIMAL and VARCHAR.  The operation
picks integer or decimal evaluation by the kinds of its operands.  Integer arithmetic is
exact or NULL; a cast of an integer goes through a double, in `cast_int` by itself and in
the other two by `to_text`.

An expression of SQL is typed: `Expr k` has the expressions of a kind.  Its arithmetic is on
BIGINT and DECIMAL, without the division of DECIMALs, whose quotient has a fraction.  `Exact`
says that no value on the way is another one than over the unbounded integers, and
`bigint_exact_iff` that this is so exactly when every integer that is cast is one that its
double converts back to.

The values that occur are NULL, integers and strings, a DECIMAL being a tagged string;
the operands of no operation are doubles, so the floating path of the arithmetic, taken
when an operand is no number, gives NULL.
-/

namespace Clink.Ports.ValueExpr

open Clink.Verified
open Clink.Ports.SqlValue (Text toDouble decFormat decimalSentinel)
open Clink.Ports.FixedPoint hiding decimalSentinel isDecString decParse

/-! ## Values -/

inductive Value where
  | null
  | int (n : Int)
  | string (text : Text)
  deriving DecidableEq, Repr

def minInt64 : Int := -2 ^ 63

def maxInt64 : Int := 2 ^ 63 - 1

/-- The values of an `int64`. -/
def InInt64 (n : Int) : Prop := minInt64 ≤ n ∧ n ≤ maxInt64

instance (n : Int) : Decidable (InInt64 n) := inferInstanceAs (Decidable (_ ∧ _))

/-- `std::to_string` of an integer. -/
def intText (n : Int) : Text := (if n < 0 then ['-'] else []) ++ decimal n.natAbs

/-- `std::stoll`: blanks, a sign and digits; nothing where it throws. -/
def stoll (text : Text) : Option Int :=
  let text := text.dropWhile (· ∈ [' ', '\t', '\n', '\x0b', '\x0c', '\r'])
  let negative := text.head? = some '-'
  let digits := (if negative ∨ text.head? = some '+' then text.tail else text).takeWhile
    Char.isDigit
  let value : Int := if negative then -(digitsValue digits : Int) else digitsValue digits
  if digits = [] ∨ ¬InInt64 value then none else some value

/-- What the code uses of the platform and of arrow: what a conversion of a double beyond
`int64` gives, which C++ leaves open, and `Decimal128::FromString`. -/
structure Platform where
  beyond : Int64
  fromString : Text → Option (Int × Int)

variable (P : Platform)

/-- `static_cast<int64_t>` of a double without a fraction. -/
def toInt64 (d : Int) : Int := if InInt64 d then d else P.beyond.toInt

/-! ### Decimals -/

def isDecString : Value → Bool
  | .string text => text.head? == some decimalSentinel
  | _ => false

def decParse (text : Text) : Option Decimal :=
  let text := if text.head? = some decimalSentinel then text.tail else text
  match P.fromString text with
  | none => none
  | some (out, scale) =>
      if scale < 0 then some ⟨wrap128 (out * 10 ^ (-scale).toNat), 0⟩
      else some ⟨out, scale.toNat⟩

def asDecimal : Value → Option Decimal
  | .string text => if text.head? = some decimalSentinel then decParse P text else none
  | .int n => some ⟨n, 0⟩
  | .null => none

def makeDecValue (d : Decimal) : Value :=
  .string (decimalSentinel :: decFormat decimalText d.unscaled d.scale)

def decNegate (d : Decimal) : Decimal := ⟨wrap128 (0 - d.unscaled), d.scale⟩

/-- `to_text`; an integer is read as a double. -/
def toText : Value → Text
  | .string text => if text.head? = some decimalSentinel then text.tail else text
  | .null => []
  | .int n =>
      let d := toDouble n
      if d = toDouble (toInt64 P d) then intText (toInt64 P d)
      else intText d ++ ".000000".toList

/-! ## Operations -/

inductive ArithOp where
  | add
  | sub
  | mul
  | div
  | mod
  deriving DecidableEq, Repr

inductive ValueOp where
  | arith (op : ArithOp)
  | neg
  | coalesce
  | castInt
  | castStr
  | castDecimal (precision scale : Nat)
  deriving DecidableEq, Repr

def ArithOp.name : ArithOp → String
  | .add => "add"
  | .sub => "sub"
  | .mul => "mul"
  | .div => "div"
  | .mod => "mod"

/-- `decimal_binop`; the outer `none` falls through. -/
def decimalBinop (op : ArithOp) (x y : Value) : Option Value :=
  if ¬isDecString x ∧ ¬isDecString y then none
  else if x = .null ∨ y = .null then some .null
  else
    match asDecimal P x, asDecimal P y with
    | some a, some b =>
        let r := match op with
          | .add => decAdd a b
          | .sub => decSub a b
          | .mul => decMul a b
          | .div => decDiv a b (max (max a.scale b.scale) 6 : Nat)
          | .mod => decMod a b
        some (match r with
          | none => .null
          | some d => makeDecValue d)
    | _, _ => none

/-- An `int64` result, NULL on overflow. -/
def checked (n : Int) : Value := if InInt64 n then .int n else .null

/-- `int_binop`; the outer `none` falls through. -/
def intBinop (op : ArithOp) (x y : Value) : Option Value :=
  match x, y with
  | .int a, .int b =>
      some (match op with
        | .add => checked (a + b)
        | .sub => checked (a - b)
        | .mul => checked (a * b)
        | .div => if b = 0 ∨ (a = minInt64 ∧ b = -1) then .null else .int (a.tdiv b)
        | .mod =>
            if b = 0 then .null
            else .int (if a = minInt64 ∧ b = -1 then 0 else a.tmod b))
  | _, _ => none

/-- The message of an operation that was given another number of operands. -/
def arityError (name count : String) : String :=
  "json_value_expr: '" ++ name ++ "' takes " ++ count

def evalArith (op : ArithOp) : List Value → Except String Value
  | [x, y] =>
      match decimalBinop P op x y with
      | some v => .ok v
      | none =>
          match intBinop op x y with
          | some v => .ok v
          -- `numeric_binop`: an operand is NULL or no number
          | none => .ok .null
  | _ => .error (arityError op.name "two args")

def evalNeg : Value → Value
  | .null => .null
  | .int n => if n = minInt64 then .null else .int (-n)
  | .string text =>
      if text.head? = some decimalSentinel then
        match asDecimal P (.string text) with
        | some d => makeDecValue (decNegate d)
        | none => .null
      else .null

/-- A `JsonValue` of what `std::stoll` gave, NULL where it threw. -/
def parsed : Option Int → Value
  | some n => .int n
  | none => .null

def castInt : Value → Value
  | .null => .null
  | .int n => .int (toInt64 P (toDouble n))
  | .string text =>
      if text.head? = some decimalSentinel then
        match asDecimal P (.string text) with
        | none => .null
        | some d =>
            let trunc := if d.scale > 0 then reduceScaleBy d.unscaled d.scale false else d.unscaled
            parsed (stoll (decimalText trunc 0))
      else parsed (stoll text)

def castStr : Value → Value
  | .null => .null
  | v => .string (toText P v)

def castDecimal (precision scale : Nat) : Value → Value
  | .null => .null
  | v =>
      let d := if isDecString v then asDecimal P v else decParse P (toText P v)
      match d with
      | none => .null
      | some d =>
          match decRescale d scale with
          | none => .null
          | some r => if fitsInPrecision r.unscaled precision then makeDecValue r else .null

def evalValueOp : ValueOp → List Value → Except String Value
  | .arith op, args => evalArith P op args
  | .neg, [x] => .ok (evalNeg P x)
  | .neg, _ => .error (arityError "neg" "one arg")
  | .coalesce, args => .ok ((args.find? (· ≠ .null)).getD .null)
  | .castInt, [x] => .ok (castInt P x)
  | .castInt, _ => .error (arityError "cast_int" "one arg")
  | .castStr, [x] => .ok (castStr P x)
  | .castStr, _ => .error (arityError "cast_str" "one arg")
  | .castDecimal precision scale, [x] => .ok (castDecimal P precision scale x)
  | .castDecimal _ _, _ => .error (arityError "cast_decimal" "one arg")

/-! ## Expressions -/

inductive Kind where
  | bigint
  | decimal
  | varchar
  deriving DecidableEq, Repr

/-- Two kinds of numbers, one at least DECIMAL. -/
def Mixed (j k : Kind) : Prop := j ≠ .varchar ∧ k ≠ .varchar ∧ (j = .decimal ∨ k = .decimal)

/-- The expressions of a kind over `int64` columns and literals. -/
inductive Expr : Kind → Type
  | col (name : String) : Expr .bigint
  | lit (v : Option Int64) : Expr .bigint
  | arith (op : ArithOp) (a b : Expr .bigint) : Expr .bigint
  | decimalArith (op : ArithOp) (hop : op ≠ .div) {j k : Kind} (hmixed : Mixed j k)
      (a : Expr j) (b : Expr k) : Expr .decimal
  | neg {k : Kind} (hnumber : k ≠ .varchar) (a : Expr k) : Expr k
  | coalesce {k : Kind} {n : Nat} (args : Fin n → Expr k) : Expr k
  | castBigint {k : Kind} (a : Expr k) : Expr .bigint
  | castDecimal {k : Kind} (precision : Nat) (hwide : 19 ≤ precision) (a : Expr k) : Expr .decimal
  | castVarchar {k : Kind} (a : Expr k) : Expr .varchar

/-- An `int64` of a row or of a literal. -/
def ofInt64 : Option Int64 → Value
  | none => .null
  | some n => .int n.toInt

variable (row : String → Option Int64)

/-- `eval` of the compiled expression: the arguments first, then the operation. -/
def Expr.eval : {k : Kind} → Expr k → Except String Value
  | _, .col name => .ok (ofInt64 (row name))
  | _, .lit v => .ok (ofInt64 v)
  | _, .arith op a b => do
      let x ← a.eval
      let y ← b.eval
      evalValueOp P (.arith op) [x, y]
  | _, .decimalArith op _ _ a b => do
      let x ← a.eval
      let y ← b.eval
      evalValueOp P (.arith op) [x, y]
  | _, .neg _ a => do
      let x ← a.eval
      evalValueOp P .neg [x]
  | _, .coalesce args => do
      let xs ← (List.ofFn fun i => (args i).eval).mapM id
      evalValueOp P .coalesce xs
  | _, .castBigint a => do
      let x ← a.eval
      evalValueOp P .castInt [x]
  | _, .castDecimal precision _ a => do
      let x ← a.eval
      evalValueOp P (.castDecimal precision 0) [x]
  | _, .castVarchar a => do
      let x ← a.eval
      evalValueOp P .castStr [x]

/-! ## Over the unbounded integers -/

/-- The operation on integers, where it has a result. -/
def ArithOp.over (op : ArithOp) (a b : Int) : Option Int :=
  match op with
  | .add => some (a + b)
  | .sub => some (a - b)
  | .mul => some (a * b)
  | .div => if b = 0 then none else some (a.tdiv b)
  | .mod => if b = 0 then none else some (a.tmod b)

/-- The integers that a kind has: those of an `int64`, or of at most 38 digits. -/
def Fits : Kind → Int → Prop
  | .bigint, n => InInt64 n
  | _, n => fitsInPrecision n maxDecimalPrecision

instance : (k : Kind) → (n : Int) → Decidable (Fits k n)
  | .bigint, n => inferInstanceAs (Decidable (InInt64 n))
  | .decimal, n => inferInstanceAs (Decidable (fitsInPrecision n _))
  | .varchar, n => inferInstanceAs (Decidable (fitsInPrecision n _))

/-- A result, NULL when its kind does not have it. -/
def bounded (k : Kind) (n : Int) : Option Int := if Fits k n then some n else none

/-- A result, NULL when it has more digits. -/
def within (precision : Nat) (n : Int) : Option Int :=
  if fitsInPrecision n precision then some n else none

/-- The number an expression stands for, if it is not NULL. -/
def Expr.number : {k : Kind} → Expr k → Option Int
  | _, .col name => (row name).map Int64.toInt
  | _, .lit v => v.map Int64.toInt
  | _, .arith op a b => do
      let x ← a.number
      let y ← b.number
      let r ← op.over x y
      bounded .bigint r
  | _, .decimalArith op _ _ a b => do
      let x ← a.number
      let y ← b.number
      let r ← op.over x y
      bounded .decimal r
  | k, .neg _ a => do
      let x ← a.number
      bounded k (-x)
  | _, .coalesce args => (List.ofFn fun i => (args i).number).findSome? id
  | _, .castBigint a => a.number.bind (bounded .bigint)
  | _, .castDecimal precision _ a => a.number.bind (within precision)
  | _, .castVarchar a => a.number

/-- A number as a value of a kind. -/
def shown (k : Kind) : Option Int → Value
  | none => .null
  | some n =>
      match k with
      | .bigint => .int n
      | .decimal => .string (decimalSentinel :: intText n)
      | .varchar => .string (intText n)

/-- The expression evaluates to the number it stands for. -/
def Expr.Right {k : Kind} (e : Expr k) : Prop := e.eval P row = .ok (shown k (e.number row))

/-- No value on the way is another one than over the unbounded integers. -/
def Expr.Exact : {k : Kind} → Expr k → Prop
  | _, .col name => (Expr.col name).Right P row
  | _, .lit v => (Expr.lit v).Right P row
  | _, .arith op a b => a.Exact ∧ b.Exact ∧ (Expr.arith op a b).Right P row
  | _, .decimalArith op hop hmixed a b =>
      a.Exact ∧ b.Exact ∧ (Expr.decimalArith op hop hmixed a b).Right P row
  | _, .neg hnumber a => a.Exact ∧ (Expr.neg hnumber a).Right P row
  | _, .coalesce args => (∀ i, (args i).Exact) ∧ (Expr.coalesce args).Right P row
  | _, .castBigint a => a.Exact ∧ (Expr.castBigint a).Right P row
  | _, .castDecimal p hwide a => a.Exact ∧ (Expr.castDecimal p hwide a).Right P row
  | _, .castVarchar a => a.Exact ∧ (Expr.castVarchar a).Right P row

/-- The argument of a cast is no BIGINT, or one that its double converts back to. -/
def Keeps (k : Kind) (v : Option Int) : Prop :=
  k = .bigint → ∀ n, v = some n → toInt64 P (toDouble n) = n

/-- Every integer that is cast is one that its double converts back to. -/
def Expr.Survives : {k : Kind} → Expr k → Prop
  | _, .col _ => True
  | _, .lit _ => True
  | _, .arith _ a b => a.Survives ∧ b.Survives
  | _, .decimalArith _ _ _ a b => a.Survives ∧ b.Survives
  | _, .neg _ a => a.Survives
  | _, .coalesce args => ∀ i, (args i).Survives
  | _, @Expr.castBigint k a => a.Survives ∧ Keeps P k (a.number row)
  | _, @Expr.castDecimal k _ _ a => a.Survives ∧ Keeps P k (a.number row)
  | _, @Expr.castVarchar k a => a.Survives ∧ Keeps P k (a.number row)

/-! ### Integers -/

theorem inInt64_toInt (n : Int64) : InInt64 n.toInt := by
  have hlow : -2 ^ 63 ≤ n.toInt := n.le_toInt
  have hhigh := n.toInt_lt
  unfold InInt64 minInt64 maxInt64
  omega

variable {n : Int} {k : Kind}

theorem Fits.small (h : Fits k n) : fitsInPrecision n maxDecimalPrecision := by
  cases k with
  | bigint =>
      unfold Fits InInt64 minInt64 maxInt64 at h
      unfold fitsInPrecision maxDecimalPrecision
      omega
  | decimal => exact h
  | varchar => exact h

theorem fits_of_bounded {r : Int} (h : bounded k n = some r) : Fits k r := by
  unfold bounded at h
  split at h
  · rename_i hinside
    exact Option.some.inj h ▸ hinside
  · cases h

theorem fits_number (e : Expr k) (h : e.number row = some n) : Fits k n := by
  induction e generalizing n with
  | col name =>
      obtain ⟨v, -, rfl⟩ := Option.map_eq_some_iff.1 h
      exact inInt64_toInt v
  | lit v =>
      obtain ⟨v, -, rfl⟩ := Option.map_eq_some_iff.1 h
      exact inInt64_toInt v
  | arith op a b =>
      obtain ⟨x, -, h⟩ := Option.bind_eq_some_iff.1 h
      obtain ⟨y, -, h⟩ := Option.bind_eq_some_iff.1 h
      obtain ⟨r, -, h⟩ := Option.bind_eq_some_iff.1 h
      exact fits_of_bounded h
  | decimalArith op hop hmixed a b =>
      obtain ⟨x, -, h⟩ := Option.bind_eq_some_iff.1 h
      obtain ⟨y, -, h⟩ := Option.bind_eq_some_iff.1 h
      obtain ⟨r, -, h⟩ := Option.bind_eq_some_iff.1 h
      exact fits_of_bounded h
  | neg hnumber a =>
      obtain ⟨x, -, h⟩ := Option.bind_eq_some_iff.1 h
      exact fits_of_bounded h
  | coalesce args ih =>
      obtain ⟨v, hmem, heq⟩ := List.exists_of_findSome?_eq_some h
      obtain ⟨i, rfl⟩ := List.mem_ofFn.1 hmem
      exact ih i heq
  | castBigint a =>
      obtain ⟨x, -, h⟩ := Option.bind_eq_some_iff.1 h
      exact fits_of_bounded h
  | castDecimal precision hwide a ih =>
      obtain ⟨x, hx, h⟩ := Option.bind_eq_some_iff.1 h
      unfold within at h
      split at h
      · exact Option.some.inj h ▸ (ih hx).small
      · cases h
  | castVarchar a ih => exact (ih h).small

variable {a b : Int}

private theorem inInt64_tdiv (ha : InInt64 a) (hb : b ≠ 0) (hfits : ¬(a = minInt64 ∧ b = -1)) :
    InInt64 (a.tdiv b) := by
  unfold InInt64 minInt64 maxInt64 at *
  by_cases hunit : b.natAbs = 1
  · rcases Int.natAbs_eq b with hpos | hneg
    · rw [hunit] at hpos
      subst hpos
      rw [Nat.cast_one, Int.tdiv_one]
      exact ha
    · rw [hunit] at hneg
      subst hneg
      rw [Nat.cast_one, Int.tdiv_neg, Int.tdiv_one]
      omega
  · have hhalf : (a.tdiv b).natAbs ≤ a.natAbs / 2 := by
      rw [Int.natAbs_tdiv]
      exact Nat.div_le_div_left (by omega) (by decide)
    omega

private theorem inInt64_tmod (hb : InInt64 b) (hne : b ≠ 0) : InInt64 (a.tmod b) := by
  have hsize := Int.natAbs_tmod a b
  have hless := Nat.mod_lt a.natAbs (show 0 < b.natAbs by omega)
  unfold InInt64 minInt64 maxInt64 at *
  omega

theorem checked_eq (n : Int) : checked n = shown .bigint (bounded .bigint n) := by
  unfold checked bounded
  by_cases hinside : InInt64 n
  · rw [if_pos hinside, if_pos (show Fits .bigint n from hinside)]
    rfl
  · rw [if_neg hinside, if_neg (show ¬Fits .bigint n from hinside)]
    rfl

theorem intBinop_eq {op : ArithOp} (ha : InInt64 a) (hb : InInt64 b) :
    intBinop op (.int a) (.int b) =
      some (shown .bigint ((op.over a b).bind (bounded .bigint))) := by
  cases op with
  | add => exact congrArg some (checked_eq (a + b))
  | sub => exact congrArg some (checked_eq (a - b))
  | mul => exact congrArg some (checked_eq (a * b))
  | div =>
      simp only [intBinop, ArithOp.over]
      by_cases hzero : b = 0
      · rw [if_pos (.inl hzero), if_pos hzero]
        rfl
      · rw [if_neg hzero, Option.bind_some]
        by_cases hpast : a = minInt64 ∧ b = -1
        · obtain ⟨rfl, rfl⟩ := hpast
          rw [if_pos (.inr ⟨rfl, rfl⟩)]
          decide
        · have hinside : Fits .bigint (a.tdiv b) := inInt64_tdiv ha hzero hpast
          rw [if_neg (by tauto), bounded, if_pos hinside]
          rfl
  | mod =>
      simp only [intBinop, ArithOp.over]
      by_cases hzero : b = 0
      · rw [if_pos hzero, if_pos hzero]
        rfl
      · have hinside : Fits .bigint (a.tmod b) := inInt64_tmod hb hzero
        rw [if_neg hzero, if_neg hzero, Option.bind_some, bounded, if_pos hinside]
        by_cases hpast : a = minInt64 ∧ b = -1
        · obtain ⟨rfl, rfl⟩ := hpast
          decide
        · rw [if_neg hpast]
          rfl

variable {x : Option Int}

theorem evalArith_shown (op : ArithOp) {y : Option Int} (hx : ∀ n, x = some n → InInt64 n)
    (hy : ∀ n, y = some n → InInt64 n) :
    evalArith P op [shown .bigint x, shown .bigint y] =
      .ok (shown .bigint (x.bind fun a => y.bind fun b =>
        (op.over a b).bind (bounded .bigint))) := by
  cases x with
  | none => cases y <;> rfl
  | some a =>
      cases y with
      | none => rfl
      | some b =>
          change (match intBinop op (.int a) (.int b) with
            | some v => Except.ok v
            | none => .ok .null) = _
          rw [intBinop_eq (hx a rfl) (hy b rfl)]
          rfl

theorem coalesce_shown (k : Kind) (xs : List (Option Int)) :
    ((xs.map (shown k)).find? (· ≠ .null)).getD .null = shown k (xs.findSome? id) := by
  induction xs with
  | nil => rfl
  | cons x xs ih =>
      cases x with
      | none => simpa [shown] using ih
      | some n => cases k <;> rfl

/-! ### Texts -/

theorem decimalText_zero (n : Int) : decimalText n 0 = intText n := by
  simp [decimalText, intText]

theorem intText_injective : Function.Injective intText := by
  intro m n h
  rw [← decimalText_zero, ← decimalText_zero] at h
  exact (decimalText_injective h).1

theorem decFormat_intText (n : Int) : decFormat decimalText n 0 = intText n := by
  rw [decFormat_decimalText, decimalText_zero]

theorem makeDecValue_int (n : Int) : makeDecValue ⟨n, 0⟩ = shown .decimal (some n) := by
  simp only [makeDecValue, decFormat_intText]
  rfl

theorem head_intText (n : Int) :
    ∃ c rest, intText n = c :: rest ∧ (c = '-' ∧ n < 0 ∨ c.isDigit = true ∧ 0 ≤ n) := by
  unfold intText
  split
  · rename_i hnegative
    exact ⟨'-', decimal n.natAbs, rfl, .inl ⟨rfl, hnegative⟩⟩
  · rename_i hpositive
    cases htext : decimal n.natAbs with
    | nil => exact absurd htext (decimal_ne_nil _)
    | cons c rest =>
        refine ⟨c, rest, by simp, .inr ⟨?_, by omega⟩⟩
        exact isDigit_of_mem_decimal (htext ▸ List.mem_cons_self)

theorem untagged_intText (n : Int) (behind : Text) :
    (intText n ++ behind).head? ≠ some decimalSentinel := by
  obtain ⟨c, rest, heq, hkind⟩ := head_intText n
  rw [heq]
  intro htag
  obtain rfl : c = decimalSentinel := Option.some.inj htag
  rcases hkind with ⟨hminus, -⟩ | ⟨hdigit, -⟩
  · exact absurd hminus (by decide)
  · exact absurd hdigit (by decide)

theorem stoll_intText (n : Int) : stoll (intText n) = bounded .bigint n := by
  obtain ⟨c, rest, heq, hkind⟩ := head_intText n
  have hblank : c ∉ [' ', '\t', '\n', '\x0b', '\x0c', '\r'] := by
    rcases hkind with ⟨rfl, -⟩ | ⟨hdigit, -⟩
    · decide
    · intro hmem
      simp only [List.mem_cons, List.not_mem_nil, or_false] at hmem
      rcases hmem with rfl | rfl | rfl | rfl | rfl | rfl <;> exact absurd hdigit (by decide)
  have hstart : (intText n).dropWhile (· ∈ [' ', '\t', '\n', '\x0b', '\x0c', '\r']) =
      intText n := by
    rw [heq, List.dropWhile_cons_of_neg (by simpa using hblank)]
  have hdigits : (decimal n.natAbs).takeWhile Char.isDigit = decimal n.natAbs :=
    List.takeWhile_eq_self_iff.2 fun c hmem => isDigit_of_mem_decimal hmem
  have hvalue : digitsValue (decimal n.natAbs) = n.natAbs := Nat.ofDigitChars_ten_toDigits
  have hresult : (if decimal n.natAbs = [] ∨ ¬InInt64 n then none else some n) =
      bounded .bigint n := by
    by_cases hinside : InInt64 n
    · rw [if_neg (by simp [decimal_ne_nil, hinside]), bounded,
        if_pos (show Fits .bigint n from hinside)]
    · rw [if_pos (.inr hinside), bounded, if_neg (show ¬Fits .bigint n from hinside)]
  unfold stoll
  simp only [hstart]
  rcases hkind with ⟨rfl, hnegative⟩ | ⟨hdigit, hpositive⟩
  · have htext : intText n = '-' :: decimal n.natAbs := by simp [intText, hnegative]
    have hnumber : -(n.natAbs : Int) = n := by omega
    simp only [htext, List.head?_cons, true_or, if_true, List.tail_cons, hdigits, hvalue, hnumber,
      hresult]
  · have htext : intText n = decimal n.natAbs := by
      simp [intText, show ¬n < 0 by omega]
    have hnumber : (n.natAbs : Int) = n := by omega
    have hunsigned : (decimal n.natAbs).head? ≠ some '-' ∧ (decimal n.natAbs).head? ≠ some '+' := by
      rw [← htext, heq]
      constructor <;> rintro ⟨⟩ <;> exact absurd hdigit (by decide)
    simp only [htext, hunsigned.1, hunsigned.2, or_self, if_false, hdigits, hvalue, hnumber,
      hresult]

/-! ## The casts -/

/-- What arrow documents of `FromString`: it reads a numeral of at most 38 digits as it is. -/
structure Platform.Reads : Prop where
  integer : ∀ n : Int, n.natAbs < 10 ^ 38 → P.fromString (intText n) = some (n, 0)
  fraction : ∀ n : Int, n.natAbs < 10 ^ 32 →
    P.fromString (intText n ++ ".000000".toList) = some (n * 10 ^ 6, 6)

variable {P}

theorem toText_int (n : Int) : toText P (.int n) = intText n ↔ toInt64 P (toDouble n) = n := by
  simp only [toText]
  constructor
  · intro h
    split at h
    · exact intText_injective h
    · have hpoint : '.' ∈ intText n := h ▸ List.mem_append_right _ (by decide)
      unfold intText at hpoint
      rcases List.mem_append.1 hpoint with hsign | hdigit
      · split at hsign <;> simp at hsign
      · exact absurd hdigit (not_mem_decimal (by decide))
  · intro h
    rw [h, if_pos rfl]

theorem decParse_intText (hreads : P.Reads) (hsmall : n.natAbs < 10 ^ 38) :
    decParse P (intText n) = some ⟨n, 0⟩ := by
  have huntagged := untagged_intText n []
  rw [List.append_nil] at huntagged
  unfold decParse
  simp [if_neg huntagged, hreads.integer n hsmall]

theorem asDecimal_shown (hreads : P.Reads) (hnumber : k ≠ .varchar) (h : Fits k n) :
    asDecimal P (shown k (some n)) = some ⟨n, 0⟩ := by
  cases k with
  | bigint => rfl
  | decimal =>
      change (if (decimalSentinel :: intText n).head? = some decimalSentinel then
        decParse P (decimalSentinel :: intText n) else none) = _
      rw [if_pos List.head?_cons]
      unfold decParse
      simp [hreads.integer n h]
  | varchar => exact absurd rfl hnumber

theorem parsed_eq (x : Option Int) : parsed x = shown .bigint x := by
  cases x <;> rfl

theorem castInt_shown (hreads : P.Reads) (hx : ∀ n, x = some n → Fits k n) :
    castInt P (shown k x) = shown .bigint (x.bind (bounded .bigint)) ↔ Keeps P k x := by
  cases x with
  | none => simp [Keeps, shown, castInt]
  | some n =>
      have hfits := hx n rfl
      rw [Option.bind_some]
      cases k with
      | bigint =>
          rw [bounded, if_pos hfits]
          simp [Keeps, shown, castInt]
      | decimal =>
          have hvalue : castInt P (shown .decimal (some n)) = parsed (stoll (intText n)) := by
            have hread := asDecimal_shown hreads (by decide) hfits
            simp only [shown] at hread
            simp [shown, castInt, hread, decimalText_zero]
          rw [hvalue, stoll_intText, parsed_eq]
          exact iff_of_true rfl nofun
      | varchar =>
          have huntagged := untagged_intText n []
          rw [List.append_nil] at huntagged
          have hvalue : castInt P (shown .varchar (some n)) = parsed (stoll (intText n)) := by
            simp [shown, castInt, if_neg huntagged]
          rw [hvalue, stoll_intText, parsed_eq]
          exact iff_of_true rfl nofun

/-! ### DECIMAL arithmetic -/

theorem wrap128_eq (h : n.natAbs < 10 ^ 38) : wrap128 n = n := by
  rw [wrap128]
  refine Int.bmod_eq_of_le ?_ ?_ <;> omega

theorem narrow_whole (n : Int) : narrow n 0 = (bounded .decimal n).map (⟨·, 0⟩) := by
  unfold narrow bounded
  by_cases hfits : fitsInPrecision n maxDecimalPrecision
  · rw [if_pos hfits, if_pos (show Fits .decimal n from hfits)]
    rfl
  · rw [if_neg hfits, if_neg (show ¬Fits .decimal n from hfits)]
    rfl

theorem increaseScaleBy_zero (h : fitsInPrecision n maxDecimalPrecision) :
    increaseScaleBy n 0 = n := by
  rw [increaseScaleBy, pow_zero, mul_one]
  exact wrap256_eq (h.trans (by decide))

/-- Two DECIMALs without a fraction: 256 bits have room for the result. -/
theorem decimalBinop_whole (hreads : P.Reads) {op : ArithOp} (hop : op ≠ .div) {j : Kind}
    (hmixed : Mixed j k) (ha : Fits j a) (hb : Fits k b) :
    decimalBinop P op (shown j (some a)) (shown k (some b)) =
      some (shown .decimal ((op.over a b).bind (bounded .decimal))) := by
  have htagged : ¬(¬isDecString (shown j (some a)) ∧ ¬isDecString (shown k (some b))) := by
    rcases hmixed.2.2 with rfl | rfl
    · exact fun h => h.1 rfl
    · exact fun h => h.2 rfl
  have hvalues : ¬(shown j (some a) = .null ∨ shown k (some b) = .null) := by
    cases j <;> cases k <;> simp [shown]
  have hscaleda := increaseScaleBy_zero ha.small
  have hscaledb := increaseScaleBy_zero hb.small
  have hmade : ∀ r : Option Int, (match r.map fun n => (⟨n, 0⟩ : Decimal) with
      | none => Value.null
      | some d => makeDecValue d) = shown .decimal r := by
    intro r
    cases r with
    | none => rfl
    | some n => exact makeDecValue_int n
  have ha' : a.natAbs < 10 ^ 38 := ha.small
  have hb' : b.natAbs < 10 ^ 38 := hb.small
  rw [decimalBinop, if_neg htagged, if_neg hvalues, asDecimal_shown hreads hmixed.1 ha,
    asDecimal_shown hreads hmixed.2.1 hb]
  refine congrArg some ?_
  rw [← hmade]
  cases op with
  | add =>
      have hsum : decAdd ⟨a, 0⟩ ⟨b, 0⟩ = (bounded .decimal (a + b)).map (⟨·, 0⟩) := by
        rw [← narrow_whole]
        simp only [decAdd, max_self, Nat.sub_self, hscaleda, hscaledb]
        rw [wrap256_eq (by omega)]
      simp only [hsum, ArithOp.over, Option.bind_some]
  | sub =>
      have hdifference : decSub ⟨a, 0⟩ ⟨b, 0⟩ = (bounded .decimal (a - b)).map (⟨·, 0⟩) := by
        rw [← narrow_whole]
        simp only [decSub, max_self, Nat.sub_self, hscaleda, hscaledb]
        rw [wrap256_eq (by omega)]
      simp only [hdifference, ArithOp.over, Option.bind_some]
  | mul =>
      have hproduct : decMul ⟨a, 0⟩ ⟨b, 0⟩ = (bounded .decimal (a * b)).map (⟨·, 0⟩) := by
        have hroom : (a * b).natAbs < 10 ^ 76 := by
          rw [Int.natAbs_mul, show 76 = 38 + 38 from rfl, Nat.pow_add]
          exact Nat.mul_lt_mul'' ha' hb'
        rw [← narrow_whole]
        simp only [decMul, wrap256_eq hroom, Nat.add_zero]
      simp only [hproduct, ArithOp.over, Option.bind_some]
  | div => exact absurd rfl hop
  | mod =>
      by_cases hzero : b = 0
      · simp [decMod, ArithOp.over, hzero]
      · have hrest : decMod ⟨a, 0⟩ ⟨b, 0⟩ = (bounded .decimal (a.tmod b)).map (⟨·, 0⟩) := by
          rw [← narrow_whole]
          simp only [decMod, max_self, Nat.sub_self, hscaleda, hscaledb, if_neg hzero]
        simp only [hrest, ArithOp.over, if_neg hzero, Option.bind_some]

theorem evalArith_mixed (hreads : P.Reads) {op : ArithOp} (hop : op ≠ .div) {j : Kind}
    (hmixed : Mixed j k) {y : Option Int} (hx : ∀ n, x = some n → Fits j n)
    (hy : ∀ n, y = some n → Fits k n) :
    evalArith P op [shown j x, shown k y] =
      .ok (shown .decimal (x.bind fun a => y.bind fun b =>
        (op.over a b).bind (bounded .decimal))) := by
  cases x with
  | none =>
      cases y with
      | none => rfl
      | some b =>
          cases k with
          | bigint => rfl
          | decimal => rfl
          | varchar => exact absurd rfl hmixed.2.1
  | some a =>
      cases y with
      | none =>
          cases j with
          | bigint => rfl
          | decimal => rfl
          | varchar => exact absurd rfl hmixed.1
      | some b =>
          rw [evalArith, decimalBinop_whole hreads hop hmixed (hx a rfl) (hy b rfl)]
          rfl

theorem evalNeg_shown (hreads : P.Reads) (hnumber : k ≠ .varchar)
    (hx : ∀ n, x = some n → Fits k n) :
    evalNeg P (shown k x) = shown k (x.bind fun n => bounded k (-n)) := by
  cases x with
  | none => rfl
  | some n =>
      have hfits := hx n rfl
      rw [Option.bind_some]
      cases k with
      | bigint =>
          unfold Fits InInt64 minInt64 maxInt64 at hfits
          change (if n = minInt64 then Value.null else .int (-n)) = _
          by_cases hleast : n = minInt64
          · subst hleast
            decide
          · have hinside : Fits .bigint (-n) := by
              unfold Fits InInt64 minInt64 maxInt64
              unfold minInt64 at hleast
              omega
            rw [if_neg hleast, bounded, if_pos hinside]
            rfl
      | decimal =>
          have hopposite : Fits .decimal (-n) := by
            change (-n).natAbs < _
            rw [Int.natAbs_neg]
            exact hfits
          have hread := asDecimal_shown hreads hnumber hfits
          simp only [shown] at hread
          have hwrapped : wrap128 (0 - n) = -n := by
            rw [zero_sub]
            exact wrap128_eq hopposite
          rw [bounded, if_pos hopposite]
          simp only [shown, evalNeg, List.head?_cons, if_true, hread, decNegate, hwrapped]
          exact makeDecValue_int (-n)
      | varchar => exact absurd rfl hnumber

/-! ### To text and to DECIMAL -/

theorem castStr_shown (k : Kind) (x : Option Int) :
    castStr P (shown k x) = shown .varchar x ↔ Keeps P k x := by
  cases x with
  | none => simp [Keeps, shown, castStr]
  | some n =>
      cases k with
      | bigint =>
          simp only [shown, castStr, Value.string.injEq, toText_int]
          simp [Keeps]
      | decimal => simp [Keeps, shown, castStr, toText]
      | varchar =>
          have huntagged := untagged_intText n []
          rw [List.append_nil] at huntagged
          simp [Keeps, shown, castStr, toText, if_neg huntagged]

theorem toDouble_small (h : InInt64 n) : (toDouble n).natAbs < 10 ^ 19 := by
  have hlow := SqlValue.toDouble_mono h.1
  have hhigh := SqlValue.toDouble_mono h.2
  have hleast : toDouble minInt64 = -2 ^ 63 := by decide +kernel
  have hgreatest : toDouble maxInt64 = 2 ^ 63 := by decide +kernel
  omega

theorem inInt64_toInt64 (d : Int) : InInt64 (toInt64 P d) := by
  unfold toInt64
  split
  · assumption
  · exact inInt64_toInt _

theorem natAbs_lt_of_inInt64 (h : InInt64 n) {p : Nat} (hwide : 19 ≤ p) : n.natAbs < 10 ^ p := by
  have hsmall : n.natAbs < 10 ^ 19 := by
    unfold InInt64 minInt64 maxInt64 at h
    omega
  exact hsmall.trans_le (Nat.pow_le_pow_right (by decide) hwide)

/-- A value that is read as a number without a fraction is made that DECIMAL, or NULL. -/
theorem castDecimal_read {v : Value} {m : Int} {p : Nat} {d : Decimal} (hne : v ≠ .null)
    (hread : (if isDecString v then asDecimal P v else decParse P (toText P v)) = some d)
    (hwhole : decRescale d (0 : Nat) = some ⟨m, 0⟩) :
    castDecimal P p 0 v = shown .decimal (within p m) := by
  have hmade : (if fitsInPrecision m p then makeDecValue ⟨m, 0⟩ else .null) =
      shown .decimal (within p m) := by
    unfold within
    split
    · exact makeDecValue_int m
    · rfl
  cases v with
  | null => exact absurd rfl hne
  | int n => simp only [castDecimal, hread, hwhole, hmade]
  | string text => simp only [castDecimal, hread, hwhole, hmade]

theorem within_of_inInt64 (h : InInt64 n) {p : Nat} (hwide : 19 ≤ p) : within p n = some n :=
  if_pos (natAbs_lt_of_inInt64 h hwide)

theorem rescale_whole (m : Int) : decRescale ⟨m, 0⟩ (0 : Nat) = some ⟨m, 0⟩ := by
  simp [decRescale]

private theorem rescale_point {d : Int} (hsmall : d.natAbs < 10 ^ 32) :
    decRescale ⟨d * 10 ^ 6, 6⟩ (0 : Nat) = some ⟨d, 0⟩ := by
  have hwhole : (d * 10 ^ 6).tdiv (10 ^ 6) = d := Int.mul_tdiv_cancel d (by decide)
  have hrest : (d * 10 ^ 6).tmod (10 ^ 6) = 0 := Int.mul_tmod_left d _
  have hreduced : reduceScaleBy (d * 10 ^ 6) 6 true = d := by
    simp only [reduceScaleBy, hwhole, hrest]
    rw [if_neg (by decide)]
  have hfits : fitsInPrecision d maxDecimalPrecision := hsmall.trans (by decide)
  change narrow (reduceScaleBy (d * 10 ^ 6) 6 true) 0 = _
  rw [hreduced, narrow, if_pos hfits]

theorem castDecimal_int (hreads : P.Reads) (hinside : InInt64 n) {p : Nat} (hwide : 19 ≤ p) :
    castDecimal P p 0 (.int n) =
      shown .decimal (some (if toDouble n = toDouble (toInt64 P (toDouble n)) then
        toInt64 P (toDouble n) else toDouble n)) := by
  by_cases hinRange : toDouble n = toDouble (toInt64 P (toDouble n))
  · rw [if_pos hinRange]
    rw [← within_of_inInt64 (inInt64_toInt64 _) hwide]
    refine castDecimal_read (by simp) ?_ (rescale_whole _)
    simp only [isDecString, Bool.false_eq_true, if_false, toText, if_pos hinRange]
    exact decParse_intText hreads (natAbs_lt_of_inInt64 (inInt64_toInt64 _) (by decide))
  · rw [if_neg hinRange]
    have hfits : fitsInPrecision (toDouble n) p :=
      (toDouble_small hinside).trans_le (Nat.pow_le_pow_right (by decide) hwide)
    have hsmall : (toDouble n).natAbs < 10 ^ 32 := (toDouble_small hinside).trans (by decide)
    have hwithin : within p (toDouble n) = some (toDouble n) := if_pos hfits
    rw [← hwithin]
    refine castDecimal_read (by simp) ?_ (rescale_point hsmall)
    simp only [isDecString, Bool.false_eq_true, if_false, toText, if_neg hinRange, decParse]
    simp only [if_neg (untagged_intText (toDouble n) ".000000".toList), hreads.fraction _ hsmall]
    rfl

theorem castDecimal_shown (hreads : P.Reads) {p : Nat} (hwide : 19 ≤ p)
    (hx : ∀ n, x = some n → Fits k n) :
    castDecimal P p 0 (shown k x) = shown .decimal (x.bind (within p)) ↔ Keeps P k x := by
  cases x with
  | none => simp [Keeps, shown, castDecimal]
  | some n =>
      have hinside := hx n rfl
      rw [Option.bind_some]
      cases k with
      | bigint =>
          change castDecimal P p 0 (.int n) = _ ↔ _
          rw [castDecimal_int hreads hinside hwide, within_of_inInt64 hinside hwide]
          simp only [shown, Value.string.injEq, List.cons.injEq, true_and,
            intText_injective.eq_iff]
          have hkeeps : Keeps P .bigint (some n) ↔ toInt64 P (toDouble n) = n := by
            simp [Keeps]
          rw [hkeeps]
          split
          · rfl
          · -- a double beyond `int64` that is no `int64` is not the integer either
            rename_i hbeyond
            constructor
            · intro hsame
              refine absurd ?_ hbeyond
              rw [hsame, toInt64, if_pos (show InInt64 n from hinside)]
              exact hsame.symm
            · intro hback
              rw [hback] at hbeyond
              exact absurd rfl hbeyond
      | decimal =>
          exact iff_of_true (castDecimal_read (by simp [shown])
            (asDecimal_shown hreads (by decide) hinside) (rescale_whole n)) nofun
      | varchar =>
          have huntagged := untagged_intText n []
          rw [List.append_nil] at huntagged
          refine iff_of_true (castDecimal_read (by simp [shown]) ?_ (rescale_whole n)) nofun
          simp only [shown, isDecString, beq_iff_eq, if_neg huntagged, toText]
          exact decParse_intText hreads hinside

/-! ## Whole expressions -/

theorem Expr.Exact.right {k : Kind} {e : Expr k} (h : e.Exact P row) : e.Right P row := by
  cases e with
  | col name => exact h
  | lit v => exact h
  | arith op a b => exact h.2.2
  | decimalArith op hop hmixed a b => exact h.2.2
  | neg hnumber a => exact h.2
  | coalesce args => exact h.2
  | castBigint a => exact h.2
  | castDecimal precision hwide a => exact h.2
  | castVarchar a => exact h.2

private theorem mapM_ok {n : Nat} {α β : Type} {f : Fin n → Except β α} {g : Fin n → α}
    (h : ∀ i, f i = .ok (g i)) : (List.ofFn f).mapM id = .ok (List.ofFn g) := by
  have hall : List.ofFn f = (List.ofFn g).map Except.ok := by
    rw [List.map_ofFn]
    exact congrArg List.ofFn (funext h)
  rw [hall, List.mapM_map]
  exact List.mapM_pure.trans (congrArg pure (List.map_id _))

theorem ofInt64_shown (v : Option Int64) : ofInt64 v = shown .bigint (v.map Int64.toInt) := by
  cases v <;> rfl

/-- BIGINT expressions are exact where every integer that is cast survives its double. -/
theorem bigint_exact_iff (hreads : P.Reads) {k : Kind} (e : Expr k) :
    e.Exact P row ↔ e.Survives P row := by
  induction e with
  | col name => exact iff_of_true (congrArg Except.ok (ofInt64_shown _)) trivial
  | lit v => exact iff_of_true (congrArg Except.ok (ofInt64_shown _)) trivial
  | arith op a b iha ihb =>
      simp only [Expr.Exact, Expr.Survives, ← iha, ← ihb]
      refine ⟨fun h => ⟨h.1, h.2.1⟩, fun h => ⟨h.1, h.2, ?_⟩⟩
      have hra := h.1.right
      have hrb := h.2.right
      unfold Expr.Right at hra hrb ⊢
      rw [Expr.eval, hra, hrb]
      exact evalArith_shown P op (fun _ => fits_number row a) (fun _ => fits_number row b)
  | decimalArith op hop hmixed a b iha ihb =>
      simp only [Expr.Exact, Expr.Survives, ← iha, ← ihb]
      refine ⟨fun h => ⟨h.1, h.2.1⟩, fun h => ⟨h.1, h.2, ?_⟩⟩
      have hra := h.1.right
      have hrb := h.2.right
      unfold Expr.Right at hra hrb ⊢
      rw [Expr.eval, hra, hrb]
      exact evalArith_mixed hreads hop hmixed (fun _ => fits_number row a)
        (fun _ => fits_number row b)
  | neg hnumber a ih =>
      simp only [Expr.Exact, Expr.Survives, ← ih]
      refine ⟨fun h => h.1, fun h => ⟨h, ?_⟩⟩
      have hra := h.right
      unfold Expr.Right at hra ⊢
      rw [Expr.eval, hra]
      exact congrArg Except.ok (evalNeg_shown hreads hnumber fun _ => fits_number row a)
  | @coalesce k n args ih =>
      simp only [Expr.Exact, Expr.Survives, ← ih]
      refine ⟨fun h => h.1, fun h => ⟨h, ?_⟩⟩
      have hall := mapM_ok fun i => (h i).right
      unfold Expr.Right
      rw [Expr.eval, hall]
      have hvalues := coalesce_shown k (List.ofFn fun i => (args i).number row)
      rw [List.map_ofFn] at hvalues
      exact congrArg Except.ok hvalues
  | castBigint a ih =>
      simp only [Expr.Exact, Expr.Survives, ← ih]
      refine and_congr_right fun h => ?_
      have hra := h.right
      unfold Expr.Right at hra ⊢
      rw [Expr.eval, hra]
      change Except.ok (castInt P _) = .ok _ ↔ _
      rw [Except.ok.injEq]
      exact castInt_shown hreads fun _ => fits_number row a
  | castDecimal precision hwide a ih =>
      simp only [Expr.Exact, Expr.Survives, ← ih]
      refine and_congr_right fun h => ?_
      have hra := h.right
      unfold Expr.Right at hra ⊢
      rw [Expr.eval, hra]
      change Except.ok (castDecimal P precision 0 _) = .ok _ ↔ _
      rw [Except.ok.injEq]
      exact castDecimal_shown hreads hwide fun _ => fits_number row a
  | castVarchar a ih =>
      simp only [Expr.Exact, Expr.Survives, ← ih]
      refine and_congr_right fun h => ?_
      have hra := h.right
      unfold Expr.Right at hra ⊢
      rw [Expr.eval, hra]
      change Except.ok (castStr P _) = .ok _ ↔ _
      rw [Except.ok.injEq]
      exact castStr_shown _ _

theorem converts_back (h : n.natAbs ≤ 2 ^ 53) : toInt64 P (toDouble n) = n := by
  have hsame : toDouble n = n := by
    simp only [toDouble, if_pos h]
  have hinside : InInt64 n := by
    unfold InInt64 minInt64 maxInt64
    omega
  rw [hsame, toInt64, if_pos hinside]

/-! ### A platform -/

/-- A machine whose conversions out of range give the least `int64`. -/
def x86 : Platform := ⟨Int64.minValue, readNumeral⟩

theorem x86_reads : x86.Reads where
  integer n _ := by
    rw [← decimalText_zero]
    exact readNumeral_decimalText n 0
  fraction n _ := by
    have htext : intText n ++ ".000000".toList = decimalText (n * 10 ^ 6) 6 := by
      have hnegative : n * 10 ^ 6 < 0 ↔ n < 0 := by omega
      have hwhole : (n * 10 ^ 6).natAbs = n.natAbs * 10 ^ 6 := by rw [Int.natAbs_mul]; rfl
      simp only [decimalText, intText, hnegative, hwhole,
        Nat.mul_div_cancel _ (by decide : 0 < 10 ^ 6),
        Nat.mul_mod_left]
      rfl
    rw [htext]
    exact readNumeral_decimalText (n * 10 ^ 6) 6

/-- The product of two columns, made a DECIMAL, less one of them, as a text. -/
theorem bigint_exact_iff_product :
    (Expr.castVarchar (.decimalArith .sub (by decide) ⟨by decide, by decide, .inl rfl⟩
        (.castDecimal 19 (by decide) (.arith .mul (.col "a") (.col "b"))) (.col "b"))).Exact x86
      (fun name => if name = "a" then some 3000000 else some (-7)) :=
  (bigint_exact_iff _ x86_reads _).2
    ⟨⟨⟨⟨trivial, trivial⟩, fun _ n hvalue => by
      obtain rfl : -21000000 = n := Option.some.inj hvalue
      exact converts_back (by decide)⟩, trivial⟩, nofun⟩

/-- An integer beyond `2 ^ 53` is another one after a cast to its own type, and as a text. -/
theorem casts_round :
    (Expr.castBigint (.lit (some 9007199254740993))).eval x86 (fun _ => none) =
        .ok (.int 9007199254740992) ∧
      (Expr.castVarchar (.lit (some 9007199254740993))).eval x86 (fun _ => none) =
        .ok (.string "9007199254740992".toList) ∧
      ¬∀ (row : String → Option Int64) (k : Kind) (e : Expr k), e.Right x86 row := by
  have hcast : (Expr.castBigint (.lit (some 9007199254740993))).eval x86 (fun _ => none) =
      .ok (.int 9007199254740992) := by
    decide +kernel
  refine ⟨hcast, by decide +kernel, fun hright => ?_⟩
  have hvalue := hright (fun _ => none) .bigint (.castBigint (.lit (some 9007199254740993)))
  unfold Expr.Right at hvalue
  rw [hcast] at hvalue
  exact absurd hvalue (by decide +kernel)

end Clink.Ports.ValueExpr

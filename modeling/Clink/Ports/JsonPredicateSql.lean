import Clink.Ports.JsonPredicate
import Clink.Ports.SqlValue

/-!
# Predicates in SQL

What SQL makes of a predicate, and where the compiled predicate gives that value.  A
value of a row is read by its kind: a string that carries the decimal tag is the
DECIMAL it spells.  Integers and decimals are compared by value, texts by their bytes,
a number with a text or a boolean after coercing both to doubles; operands that are
not ordered against each other give unknown.

The source departs from this in two places.  Two integers are compared after rounding
to doubles, so different integers may come out equal; and a number that is coerced
together with a NaN comes out equal to it.  `IN` takes an element that cannot be
compared for one that differs.
-/

namespace Clink.Ports.Predicate

open Clink.Verified
open Clink.Verified.StrictJson
open Clink.Ports.Json
open Clink.Ports.FixedPoint

variable {F : Type} (N : Numerics F)

/-! ## Values -/

/-- The kinds of value a row holds. -/
inductive Kind where
  | null
  | int (n : Int64)
  | decimal (d : Decimal)
  | text (s : Bytes)
  | bool (b : Bool)
  /-- A tagged string that spells no decimal; it is ordered against nothing. -/
  | malformed

/-- The kind of a value of the runtime. -/
def kindOf : JsonValue F → Kind
  | .null => .null
  | .int n => .int n
  | .bool b => .bool b
  | .string s =>
      if s.head? = some decimalSentinel then
        match parseDecimal N s with
        | some d => .decimal d
        | none => .malformed
      else .text s
  | .number _ | .array _ | .object _ => .malformed

/-- A NULL, an `int64`, a boolean or a string; a DECIMAL is within the range of its type. -/
def IsSql : JsonValue F → Prop
  | .null | .int _ | .bool _ => True
  | .string s => s.head? = some decimalSentinel → ∀ d, parseDecimal N s = some d → InRange d
  | .number _ | .array _ | .object _ => False

/-- The decimal an exact number is. -/
def Kind.asDecimal : Kind → Option Decimal
  | .int n => some ⟨n.toInt, 0⟩
  | .decimal d => some d
  | _ => none

/-- The double a value is coerced to. -/
def Kind.asNumber : Kind → Option (Double F)
  | .int n => some (.finite (N.ofInt64 n))
  | .decimal d => some (N.toDouble d.unscaled d.scale)
  | .text s => N.stod s
  | .bool b => some (.finite (N.ofInt64 (if b then 1 else 0)))
  | .null | .malformed => none

/-! ## Comparison in SQL -/

def isNan : Double F → Bool
  | .nan => true
  | .finite _ | .infinity _ => false

/-- Doubles are ordered unless one of them is a NaN. -/
def doubleCompare (a b : Double F) : Option Ordering :=
  if isNan a || isNan b then none
  else some (if doubleLess N a b then .lt else if doubleLess N b a then .gt else .eq)

def textCompare (s t : Bytes) : Ordering := if s < t then .lt else if t < s then .gt else .eq

def boolCompare : Bool → Bool → Ordering
  | false, true => .lt
  | true, false => .gt
  | false, false | true, true => .eq

/-- The order of two values, or nothing for operands that are not comparable. -/
def sqlCompare (a b : Kind) : Option Ordering :=
  match a.asDecimal, b.asDecimal with
  | some x, some y => some (cmp (value x) (value y))
  | none, none =>
      match a, b with
      | .text s, .text t => some (textCompare s t)
      | .bool p, .bool q => some (boolCompare p q)
      | _, _ => none
  | _, _ =>
      match a.asNumber N, b.asNumber N with
      | some x, some y => doubleCompare N x y
      | _, _ => none

/-- The operator on an order. -/
def CmpOp.truth : CmpOp → Ordering → Bool
  | .eq, o => o == .eq
  | .ne, o => o != .eq
  | .lt, o => o == .lt
  | .le, o => o != .gt
  | .gt, o => o == .gt
  | .ge, o => o != .lt

def sqlCmp (op : CmpOp) (a b : Kind) : TriBool :=
  match sqlCompare N a b with
  | none => .unknown
  | some o => fromBool (op.truth o)

/-! ## Where the source compares otherwise -/

/-- Two integers that round to one double. -/
def Collide (m n : Int64) : Prop :=
  m ≠ n ∧ SqlValue.toDouble m.toInt = SqlValue.toDouble n.toInt

/-- An exact number against a value that is coerced, with a NaN among the two doubles. -/
def Unordered (a b : Kind) : Prop :=
  a.asDecimal.isSome ≠ b.asDecimal.isSome ∧
    ∃ x y, a.asNumber N = some x ∧ b.asNumber N = some y ∧ (isNan x || isNan y) = true

/-- The source takes the two for equal, SQL does not. -/
def Confused (a b : JsonValue F) : Prop :=
  (∃ m n, a = .int m ∧ b = .int n ∧ Collide m n) ∨ Unordered N (kindOf N a) (kindOf N b)

/-- What is documented of the conversion of an integer: it rounds to the nearest double,
of two to the even one, and doubles compare by value. -/
structure Numerics.Lawful (N : Numerics F) : Prop where
  less_ofInt64 : ∀ m n, N.less (N.ofInt64 m) (N.ofInt64 n)
    = decide (SqlValue.toDouble m.toInt < SqlValue.toDouble n.toInt)

/-- The sign `compare` reports an order by. -/
def sign : Ordering → Int
  | .lt => -1
  | .eq => 0
  | .gt => 1

variable {N}

/-- The kinds of value, with what the source asks of each. -/
inductive View (N : Numerics F) : JsonValue F → Kind → Prop where
  | null : View N .null .null
  | int (n : Int64) : View N (.int n) (.int n)
  | bool (b : Bool) : View N (.bool b) (.bool b)
  | text (s : Bytes) (h : s.head? ≠ some decimalSentinel) : View N (.string s) (.text s)
  | decimal (s : Bytes) (d : Decimal) (h : s.head? = some decimalSentinel)
      (hparse : parseDecimal N s = some d) (hrange : InRange d) : View N (.string s) (.decimal d)
  | malformed (s : Bytes) (h : s.head? = some decimalSentinel) (hparse : parseDecimal N s = none) :
      View N (.string s) .malformed

variable {v : JsonValue F}

theorem view_kindOf (h : IsSql N v) : View N v (kindOf N v) := by
  cases v with
  | null => exact .null
  | bool b => exact .bool b
  | int n => exact .int n
  | number d => exact h.elim
  | array items => exact h.elim
  | object members => exact h.elim
  | string s =>
      rw [kindOf]
      split
      case isTrue htag =>
        cases hparse : parseDecimal N s with
        | none => exact .malformed s htag hparse
        | some d => exact .decimal s d htag hparse (h htag d hparse)
      case isFalse htag => exact .text s htag

variable {k : Kind}

theorem View.asDecimal (h : View N v k) : asDecimal N v = k.asDecimal := by
  cases h with
  | null => rfl
  | int n => rfl
  | bool b => rfl
  | text s h => simp [Predicate.asDecimal, Kind.asDecimal, h]
  | decimal s d h hparse hrange => simp [Predicate.asDecimal, Kind.asDecimal, h, hparse]
  | malformed s h hparse => simp [Predicate.asDecimal, Kind.asDecimal, h, hparse]

theorem View.tryToNumber (h : View N v k) : tryToNumber N v = k.asNumber N := by
  cases h with
  | null => rfl
  | int n => rfl
  | bool b => rfl
  | text s h => simp [Predicate.tryToNumber, Kind.asNumber, h]
  | decimal s d h hparse hrange => simp [Predicate.tryToNumber, Kind.asNumber, h, hparse]
  | malformed s h hparse => simp [Predicate.tryToNumber, Kind.asNumber, h, hparse]

theorem View.inRange (h : View N v k) {d : Decimal} (hd : k.asDecimal = some d) : InRange d := by
  cases h with
  | int n =>
      rw [Kind.asDecimal, Option.some.injEq] at hd
      rw [← hd]
      have hlow := n.le_toInt
      have hhigh := n.toInt_lt
      refine ⟨?_, Nat.zero_le _⟩
      simp only [maxDecimalPrecision]
      omega
  | decimal s d' h hparse hrange =>
      rw [Kind.asDecimal, Option.some.injEq] at hd
      exact hd ▸ hrange
  | null => simp [Kind.asDecimal] at hd
  | bool b => simp [Kind.asDecimal] at hd
  | text s h => simp [Kind.asDecimal] at hd
  | malformed s h hparse => simp [Kind.asDecimal] at hd

/-! ## The branches of `compare` -/

theorem coercedCompare_none_left (y : Option (Double F)) : coercedCompare N none y = none := by
  cases y <;> rfl

theorem coercedCompare_none_right (x : Option (Double F)) : coercedCompare N x none = none := by
  cases x <;> rfl

theorem sign_textCompare (s t : Bytes) :
    sign (textCompare s t) = if s < t then -1 else if t < s then 1 else 0 := by
  rw [textCompare]
  split_ifs <;> rfl

theorem sign_boolCompare (p q : Bool) :
    sign (boolCompare p q) = if p = q then 0 else if q then -1 else 1 := by
  cases p <;> cases q <;> rfl

theorem sign_cmp (x y : ℚ) : sign (cmp x y) = if x < y then -1 else if y < x then 1 else 0 := by
  rw [cmp, cmpUsing]
  split_ifs <;> rfl

variable {a b : JsonValue F} {ka kb : Kind}

theorem compare_exact (ha : View N a ka) (hb : View N b kb) {x y : Decimal}
    (hx : ka.asDecimal = some x) (hy : kb.asDecimal = some y)
    (hint : ∀ m n, a = .int m → b ≠ .int n) :
    compare N a b = some (sign (cmp (value x) (value y))) := by
  have hdec : (isDecString a || isDecString b) = true := by
    cases ha <;> cases hb <;> simp_all [isDecString, Kind.asDecimal]
  have hnull : ¬ (isNull a || isNull b) = true := by
    cases ha <;> cases hb <;> simp_all [isNull, Kind.asDecimal]
  rw [compare, if_neg hnull, if_pos hdec, ha.asDecimal, hb.asDecimal, hx, hy, sign_cmp]
  exact congrArg some (decCompare_eq (ha.inRange hx) (hb.inRange hy))

theorem compare_coerced (ha : View N a ka) (hb : View N b kb)
    (hone : ka.asDecimal.isSome ≠ kb.asDecimal.isSome) :
    compare N a b = coercedCompare N (ka.asNumber N) (kb.asNumber N) := by
  rw [← ha.tryToNumber, ← hb.tryToNumber]
  cases ha <;> cases hb <;>
    simp_all [compare, Kind.asDecimal, isNull, isDecString, isNumber, asDecimal, tryToNumber,
      coercedCompare]

/-- Neither side is an exact number. -/
theorem compare_plain (ha : View N a ka) (hb : View N b kb) (hka : ka.asDecimal = none)
    (hkb : kb.asDecimal = none) : compare N a b = (sqlCompare N ka kb).map sign := by
  cases ha <;> cases hb <;> dsimp only [sqlCompare, Kind.asDecimal] <;>
    simp_all [compare, Kind.asDecimal, isNull, isDecString, isNumber, asDecimal, tryToNumber,
      coercedCompare_none_left, coercedCompare_none_right, plainCompare, sign_textCompare,
        sign_boolCompare]

theorem compare_int (hN : N.Lawful) (m n : Int64) :
    compare N (.int m) (.int n)
      = some (if SqlValue.toDouble m.toInt < SqlValue.toDouble n.toInt then -1
        else if SqlValue.toDouble n.toInt < SqlValue.toDouble m.toInt then 1 else 0) := by
  simp [compare, isNull, isDecString, isNumber, tryToNumber, coercedCompare, numberOrder,
    doubleLess, hN.less_ofInt64]

/-! ## Agreement with SQL -/

theorem sqlCompare_int (m n : Int64) :
    sqlCompare N (.int m) (.int n) = some (cmp (m.toInt : ℚ) n.toInt) := by
  have hvalue (k : Int64) : value ⟨k.toInt, 0⟩ = k.toInt := by simp [value]
  change some (cmp (value ⟨m.toInt, 0⟩) (value ⟨n.toInt, 0⟩)) = _
  rw [hvalue, hvalue]

variable {m n : Int64}

theorem int_ne_of_lt (h : m.toInt < n.toInt) : m ≠ n := by
  rintro rfl
  exact absurd h (lt_irrefl _)

/-- Integers that do not collide keep their order through the rounding. -/
theorem compare_int_eq (hN : N.Lawful) (h : ¬ Collide m n) :
    compare N (.int m) (.int n) = (sqlCompare N (.int m) (.int n)).map sign := by
  rw [compare_int hN, sqlCompare_int, Option.map_some, sign_cmp]
  simp only [Int.cast_lt]
  rcases lt_trichotomy m.toInt n.toInt with hlt | heq | hgt
  · have hne : SqlValue.toDouble m.toInt ≠ SqlValue.toDouble n.toInt := fun heq =>
      h ⟨int_ne_of_lt hlt, heq⟩
    have hle := SqlValue.toDouble_mono hlt.le
    rw [if_pos hlt, if_pos (lt_of_le_of_ne hle hne)]
  · simp [heq]
  · have hne : SqlValue.toDouble n.toInt ≠ SqlValue.toDouble m.toInt := fun heq =>
      h ⟨(int_ne_of_lt hgt).symm, heq.symm⟩
    have hle := SqlValue.toDouble_mono hgt.le
    have hlt := lt_of_le_of_ne hle hne
    rw [if_neg hgt.not_gt, if_pos hgt, if_neg hlt.not_gt, if_pos hlt]

theorem numberOrder_eq {x y : Double F} (h : ¬ (isNan x || isNan y) = true) :
    (doubleCompare N x y).map sign = some (numberOrder N x y) := by
  rw [doubleCompare, if_neg h, numberOrder, Option.map_some]
  split_ifs <;> rfl

/-- A NaN is below nothing and above nothing. -/
theorem numberOrder_nan {x y : Double F} (h : (isNan x || isNan y) = true) :
    numberOrder N x y = 0 := by
  cases x <;> cases y <;> first | rfl | exact absurd h (by decide) | simp [isNan] at h

theorem sqlCompare_coerced {a b : Kind} (h : a.asDecimal.isSome ≠ b.asDecimal.isSome) :
    sqlCompare N a b =
      match a.asNumber N, b.asNumber N with
      | some x, some y => doubleCompare N x y
      | _, _ => none := by
  unfold sqlCompare
  cases hx : a.asDecimal <;> cases hy : b.asDecimal <;> first | rfl | simp [hx, hy] at h

theorem coercedCompare_eq {a b : Kind} (hone : a.asDecimal.isSome ≠ b.asDecimal.isSome)
    (h : ¬ Unordered N a b) :
    coercedCompare N (a.asNumber N) (b.asNumber N) = (sqlCompare N a b).map sign := by
  rw [sqlCompare_coerced hone]
  cases hx : a.asNumber N with
  | none => rfl
  | some x =>
      cases hy : b.asNumber N with
      | none => rfl
      | some y => exact (numberOrder_eq fun hnan => h ⟨hone, x, y, hx, hy, hnan⟩).symm

/-- Off the confused pairs the source compares as SQL does. -/
theorem compare_of_not_confused (hN : N.Lawful) (ha : IsSql N a) (hb : IsSql N b)
    (h : ¬ Confused N a b) : compare N a b = (sqlCompare N (kindOf N a) (kindOf N b)).map sign := by
  have hva := view_kindOf ha
  have hvb := view_kindOf hb
  by_cases hint : ∃ m n, a = .int m ∧ b = .int n
  · obtain ⟨m, n, rfl, rfl⟩ := hint
    exact compare_int_eq hN fun hcollide => h (.inl ⟨m, n, rfl, rfl, hcollide⟩)
  by_cases hone : (kindOf N a).asDecimal.isSome ≠ (kindOf N b).asDecimal.isSome
  · rw [compare_coerced hva hvb hone, coercedCompare_eq hone fun hun => h (.inr hun)]
  · cases hx : (kindOf N a).asDecimal with
    | some x =>
        obtain ⟨y, hy⟩ : ∃ y, (kindOf N b).asDecimal = some y :=
          Option.ne_none_iff_exists'.mp (by simpa [hx] using hone)
        rw [compare_exact hva hvb hx hy fun m n hm hn => hint ⟨m, n, hm, hn⟩]
        unfold sqlCompare
        rw [hx, hy, Option.map_some]
    | none =>
        have hy : (kindOf N b).asDecimal = none := by simpa [hx] using hone
        exact compare_plain hva hvb hx hy

theorem compare_of_confused (hN : N.Lawful) (ha : IsSql N a) (hb : IsSql N b) (h : Confused N a b) :
    compare N a b = some 0 := by
  rcases h with ⟨m, n, rfl, rfl, -, hround⟩ | ⟨hone, x, y, hx, hy, hnan⟩
  · rw [compare_int hN, hround]
    simp
  · rw [compare_coerced (view_kindOf ha) (view_kindOf hb) hone, hx, hy, coercedCompare,
      numberOrder_nan hnan]

theorem sqlCompare_of_unordered {a b : Kind} (h : Unordered N a b) : sqlCompare N a b = none := by
  obtain ⟨hone, x, y, hx, hy, hnan⟩ := h
  rw [sqlCompare_coerced hone, hx, hy]
  exact if_pos hnan

/-- Values that are equal in SQL are equal for the source. -/
theorem compare_of_sqlCompare_eq (hN : N.Lawful) (ha : IsSql N a) (hb : IsSql N b)
    (h : sqlCompare N (kindOf N a) (kindOf N b) = some .eq) : compare N a b = some 0 := by
  by_cases hconf : Confused N a b
  · exact compare_of_confused hN ha hb hconf
  · rw [compare_of_not_confused hN ha hb hconf, h]
    rfl

/-! ## Comparisons -/

theorem holds_sign (op : CmpOp) (o : Ordering) : op.holds (sign o) = op.truth o := by
  cases op <;> cases o <;> rfl

theorem compare_null (h : (isNull a || isNull b) = true) : compare N a b = none := by
  rw [compare, if_pos h]

theorem evalCmp_eq (op : CmpOp) (a b : JsonValue F) :
    evalCmp N op a b =
      match compare N a b with
      | none => .unknown
      | some c => fromBool (op.holds c) := by
  rw [evalCmp]
  split
  case isTrue h => rw [compare_null h]
  case isFalse => rfl

/-- The operator has one value for integers in this order and for equal ones. -/
def Blind (op : CmpOp) (m n : Int64) : Prop :=
  (m.toInt < n.toInt ∧ (op = .le ∨ op = .gt)) ∨ (n.toInt < m.toInt ∧ (op = .lt ∨ op = .ge))

/-- Where a comparison has its SQL value: integers that round to one double are in an order
to which the operator is blind, and no number is coerced together with a NaN. -/
def CmpExact (N : Numerics F) (op : CmpOp) (a b : JsonValue F) : Prop :=
  (∀ m n, a = .int m → b = .int n → Collide m n → Blind op m n) ∧
    ¬ Unordered N (kindOf N a) (kindOf N b)

theorem toInt_ne_of_ne (h : m ≠ n) : m.toInt ≠ n.toInt := fun heq =>
  h (Int64.toInt_inj.mp heq)

theorem fromBool_inj {p q : Bool} : fromBool p = fromBool q ↔ p = q := by
  cases p <;> cases q <;> decide

/-- Of two colliding integers the source says what it says of equal ones. -/
theorem blind_iff (h : Collide m n) (op : CmpOp) :
    fromBool (op.holds 0) = sqlCmp N op (.int m) (.int n) ↔ Blind op m n := by
  rw [sqlCmp, sqlCompare_int, fromBool_inj]
  rcases lt_or_gt_of_ne (toInt_ne_of_ne h.1) with hlt | hgt
  · have hcmp : cmp (m.toInt : ℚ) n.toInt = .lt := cmp_eq_lt_iff _ _ |>.mpr (by exact_mod_cast hlt)
    rw [hcmp]
    cases op <;> simp [CmpOp.holds, CmpOp.truth, Blind, hlt, hlt.not_gt]
  · have hcmp : cmp (m.toInt : ℚ) n.toInt = .gt := cmp_eq_gt_iff _ _ |>.mpr (by exact_mod_cast hgt)
    rw [hcmp]
    cases op <;> simp [CmpOp.holds, CmpOp.truth, Blind, hgt, hgt.not_gt]

/-- A comparison has its SQL value exactly when it meets the condition. -/
theorem evalCmp_iff (hN : N.Lawful) (op : CmpOp) (ha : IsSql N a) (hb : IsSql N b) :
    evalCmp N op a b = sqlCmp N op (kindOf N a) (kindOf N b) ↔ CmpExact N op a b := by
  rw [evalCmp_eq]
  by_cases hun : Unordered N (kindOf N a) (kindOf N b)
  · rw [compare_of_confused hN ha hb (.inr hun), sqlCmp, sqlCompare_of_unordered hun]
    refine iff_of_false ?_ fun h => h.2 hun
    cases op <;> decide
  by_cases hcollide : ∃ m n, a = .int m ∧ b = .int n ∧ Collide m n
  · obtain ⟨m, n, rfl, rfl, hmn⟩ := hcollide
    rw [compare_of_confused hN ha hb (.inl ⟨m, n, rfl, rfl, hmn⟩)]
    refine (blind_iff hmn op).trans ⟨fun hblind => ⟨?_, hun⟩, fun h => h.1 m n rfl rfl hmn⟩
    intro m' n' hm hn _
    obtain rfl := JsonValue.int.inj hm
    obtain rfl := JsonValue.int.inj hn
    exact hblind
  · have hconf : ¬ Confused N a b := by
      rintro (hc | hc)
      · exact hcollide hc
      · exact hun hc
    rw [compare_of_not_confused hN ha hb hconf, sqlCmp]
    refine iff_of_true ?_ ⟨fun m n hm hn hmn => absurd ⟨m, n, hm, hn, hmn⟩ hcollide, hun⟩
    cases sqlCompare N (kindOf N a) (kindOf N b) with
    | none => rfl
    | some o => exact congrArg fromBool (holds_sign op o)

/-! ## Lists -/

/-- The value of `x = v` is true for one `v`. -/
def HasEqual (N : Numerics F) (x : JsonValue F) (values : List (JsonValue F)) : Prop :=
  ∃ v ∈ values, sqlCompare N (kindOf N x) (kindOf N v) = some .eq

/-- Where `IN` has its SQL value.  A NULL is in no list but the empty one has an unknown
answer for it; for any other value an element is equal to it, or none is confused with it
and every one can be compared, unless a NULL in the list makes the answer unknown anyway. -/
def InExact (N : Numerics F) (x : JsonValue F) (values : List (JsonValue F)) : Prop :=
  (x = .null → values ≠ []) ∧
    (x ≠ .null → HasEqual N x values ∨
      (∀ v ∈ values, ¬ Confused N x v) ∧
        (.null ∈ values ∨
          ∀ v ∈ values, sqlCompare N (kindOf N x) (kindOf N v) ≠ none))

/-- `x = v1 OR ... OR x = vn`. -/
def sqlIn (N : Numerics F) (x : JsonValue F) (values : List (JsonValue F)) : TriBool :=
  TriBool.any (values.map fun v => sqlCmp N .eq (kindOf N x) (kindOf N v))

theorem isNull_iff : isNull v = true ↔ v = .null := by
  cases v <;> simp [isNull]

theorem sqlCompare_null_left (b : Kind) : sqlCompare N .null b = none := by
  cases b <;> rfl

theorem sqlCompare_null_right (a : Kind) : sqlCompare N a .null = none := by
  cases a <;> rfl

theorem sqlCmp_eq_true {a b : Kind} :
    sqlCmp N .eq a b = .true ↔ sqlCompare N a b = some .eq := by
  rw [sqlCmp]
  cases sqlCompare N a b with
  | none => simp
  | some o => cases o <;> simp [CmpOp.truth, fromBool]

theorem sqlCmp_eq_unknown {op : CmpOp} {a b : Kind} :
    sqlCmp N op a b = .unknown ↔ sqlCompare N a b = none := by
  rw [sqlCmp]
  cases sqlCompare N a b with
  | none => simp
  | some o => cases op <;> cases o <;> simp [CmpOp.truth, fromBool]

variable {x : JsonValue F} {values : List (JsonValue F)}

theorem sqlIn_eq_true : sqlIn N x values = .true ↔ HasEqual N x values := by
  rw [sqlIn, TriBool.any_eq_true, List.mem_map]
  simp only [sqlCmp_eq_true, HasEqual]

theorem sqlIn_eq_unknown :
    sqlIn N x values = .unknown ↔ ¬ HasEqual N x values ∧
      ∃ v ∈ values, sqlCompare N (kindOf N x) (kindOf N v) = none := by
  rw [sqlIn, TriBool.any_eq_unknown, ← TriBool.any_eq_true, ← sqlIn, sqlIn_eq_true, List.mem_map]
  simp only [sqlCmp_eq_unknown]

theorem any_filter_eq (x : JsonValue F) (values : List (JsonValue F)) :
    ((values.filter fun v => !isNull v).any fun v => compare N x v == some 0) = true ↔
      ∃ v ∈ values, compare N x v = some 0 := by
  simp only [List.any_filter, List.any_eq_true, Bool.and_eq_true, Bool.not_eq_true', beq_iff_eq]
  constructor
  · rintro ⟨v, hv, -, hcmp⟩
    exact ⟨v, hv, hcmp⟩
  · rintro ⟨v, hv, hcmp⟩
    refine ⟨v, hv, ?_, hcmp⟩
    by_contra hnull
    rw [compare_null (by simp [hnull])] at hcmp
    exact absurd hcmp (by simp)

theorem any_isNull : values.any isNull = true ↔ .null ∈ values := by
  simp only [List.any_eq_true, isNull_iff]
  constructor
  · rintro ⟨v, hv, rfl⟩
    exact hv
  · intro h
    exact ⟨_, h, rfl⟩

theorem evalIn_null_iff (values : List (JsonValue F)) (hasNull : Bool)
    (stripped : List (JsonValue F)) :
    evalIn N .null stripped hasNull = sqlIn N .null values ↔ InExact N .null values := by
  rw [evalIn, if_pos (isNull_iff.mpr rfl), eq_comm, sqlIn_eq_unknown]
  cases values with
  | nil => simp [InExact]
  | cons v values => simp [InExact, HasEqual, kindOf, sqlCompare_null_left]

theorem hasEqual_of_found (hN : N.Lawful) (hx : IsSql N x) (hvalues : ∀ v ∈ values, IsSql N v)
    (hfound : ∃ v ∈ values, compare N x v = some 0) (hconf : ∀ v ∈ values, ¬ Confused N x v) :
    HasEqual N x values := by
  obtain ⟨v, hv, hcmp⟩ := hfound
  rw [compare_of_not_confused hN hx (hvalues v hv) (hconf v hv)] at hcmp
  refine ⟨v, hv, ?_⟩
  cases hsql : sqlCompare N (kindOf N x) (kindOf N v) with
  | none => simp [hsql] at hcmp
  | some o => cases o <;> simp_all [sign]

/-- When nothing is found the answer hangs on the elements that cannot be compared. -/
theorem missing_iff (heq : ¬ HasEqual N x values) :
    (if values.any isNull then TriBool.unknown else .false) = sqlIn N x values ↔
      .null ∈ values ∨ ∀ v ∈ values, sqlCompare N (kindOf N x) (kindOf N v) ≠ none := by
  by_cases hlist : .null ∈ values
  · rw [if_pos (any_isNull.mpr hlist), eq_comm, sqlIn_eq_unknown]
    exact iff_of_true ⟨heq, _, hlist, sqlCompare_null_right _⟩ (.inl hlist)
  rw [if_neg fun h => hlist (any_isNull.mp h), or_iff_right hlist]
  by_cases hall : ∀ v ∈ values, sqlCompare N (kindOf N x) (kindOf N v) ≠ none
  · refine iff_of_true ?_ hall
    cases hin : sqlIn N x values with
    | false => rfl
    | true => exact absurd (sqlIn_eq_true.mp hin) heq
    | unknown =>
        obtain ⟨v, hv, hcmp⟩ := (sqlIn_eq_unknown.mp hin).2
        exact absurd hcmp (hall v hv)
  · refine iff_of_false ?_ hall
    push Not at hall
    rw [sqlIn_eq_unknown.mpr ⟨heq, hall⟩]
    decide

theorem evalIn_iff (hN : N.Lawful) (hx : IsSql N x) (hvalues : ∀ v ∈ values, IsSql N v) :
    evalIn N x (values.filter fun v => !isNull v) (values.any isNull) = sqlIn N x values ↔
      InExact N x values := by
  by_cases hnull : x = .null
  · subst hnull
    exact evalIn_null_iff values _ _
  have hsplit : InExact N x values ↔ HasEqual N x values ∨
      (∀ v ∈ values, ¬ Confused N x v) ∧ (.null ∈ values ∨
        ∀ v ∈ values, sqlCompare N (kindOf N x) (kindOf N v) ≠ none) := by
    simp [InExact, hnull]
  rw [hsplit, evalIn, if_neg fun h => hnull (isNull_iff.mp h)]
  by_cases heq : HasEqual N x values
  · obtain ⟨v, hv, hcmp⟩ := id heq
    rw [if_pos ((any_filter_eq x values).mpr
      ⟨v, hv, compare_of_sqlCompare_eq hN hx (hvalues v hv) hcmp⟩), sqlIn_eq_true.mpr heq]
    exact iff_of_true rfl (.inl heq)
  rw [or_iff_right heq]
  by_cases hfound : ∃ v ∈ values, compare N x v = some 0
  · rw [if_pos ((any_filter_eq x values).mpr hfound), eq_comm, sqlIn_eq_true]
    refine iff_of_false heq ?_
    rintro ⟨hconf, -⟩
    exact heq (hasEqual_of_found hN hx hvalues hfound hconf)
  · have hconf : ∀ v ∈ values, ¬ Confused N x v := fun v hv hc =>
      hfound ⟨v, hv, compare_of_confused hN hx (hvalues v hv) hc⟩
    rw [if_neg fun h => hfound ((any_filter_eq x values).mp h), and_iff_right hconf]
    exact missing_iff heq

end Clink.Ports.Predicate

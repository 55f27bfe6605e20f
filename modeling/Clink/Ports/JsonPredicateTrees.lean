import Clink.Ports.JsonPredicateSql

/-!
# Predicate trees

A predicate of SQL is a tree of `AND`, `OR` and `NOT` over comparisons, `IS NULL`
tests and `IN` lists; the binder hands it to the source as JSON.  Its compiled form
never throws, and gives on every row the value of the tree in three-valued logic as
soon as the leaves give theirs: the early exits of the two connectives leave nothing
out.  So a family of leaves gives the SQL value in every tree that is built of them,
and the `WHERE` keeps the rows SQL keeps, exactly when each leaf meets its condition
on the row.
-/

namespace Clink.Ports.Predicate

open Clink.Verified
open Clink.Verified.StrictJson
open Clink.Ports.Json
open Clink.Ports.FixedPoint

/-- The right-hand side of a comparison. -/
inductive Operand (F : Type) where
  | literal (v : JsonValue F)
  | column (col : Bytes)

/-- A leaf of a predicate. -/
inductive Atom (F : Type) where
  | cmp (op : CmpOp) (col : Bytes) (rhs : Operand F)
  | isNull (col : Bytes) (negate : Bool)
  | inList (col : Bytes) (values : List (JsonValue F))

inductive Pred (F : Type) where
  | atom (a : Atom F)
  | and (args : List (Pred F))
  | or (args : List (Pred F))
  | not (arg : Pred F)

variable {F : Type}

/-! ## As JSON -/

def CmpOp.name : CmpOp → Bytes
  | .eq => ascii "eq"
  | .ne => ascii "ne"
  | .lt => ascii "lt"
  | .le => ascii "le"
  | .gt => ascii "gt"
  | .ge => ascii "ge"

/-- A leaf in the shape the evaluator documents. -/
def Atom.toJson : Atom F → JsonValue F
  | .cmp op col (.literal v) =>
      .object [(ascii "col", .string col), (ascii "literal", v), (ascii "op", .string op.name)]
  | .cmp op col (.column rhs) =>
      .object [(ascii "col", .string col), (ascii "op", .string op.name),
        (ascii "rhs_col", .string rhs)]
  | .isNull col negate =>
      .object [(ascii "col", .string col),
        (ascii "op", .string (if negate then ascii "is_not_null" else ascii "is_null"))]
  | .inList col values =>
      .object [(ascii "col", .string col), (ascii "op", .string (ascii "in")),
        (ascii "values", .array values)]

mutual

def Pred.toJson : Pred F → JsonValue F
  | .atom a => a.toJson
  | .and args =>
      .object [(ascii "args", .array (toJsonAll args)), (ascii "op", .string (ascii "and"))]
  | .or args =>
      .object [(ascii "args", .array (toJsonAll args)), (ascii "op", .string (ascii "or"))]
  | .not arg => .object [(ascii "arg", arg.toJson), (ascii "op", .string (ascii "not"))]
termination_by structural p => p

def toJsonAll : List (Pred F) → List (JsonValue F)
  | [] => []
  | arg :: args => arg.toJson :: toJsonAll args
termination_by structural args => args

end

/-! ## In SQL -/

def Operand.value (resolve : Bytes → JsonValue F) : Operand F → JsonValue F
  | .literal v => v
  | .column col => resolve col

def Atom.sqlValue (N : Numerics F) (resolve : Bytes → JsonValue F) : Atom F → TriBool
  | .cmp op col rhs => sqlCmp N op (kindOf N (resolve col)) (kindOf N (rhs.value resolve))
  | .isNull col negate =>
      fromBool (if negate then !Predicate.isNull (resolve col) else Predicate.isNull (resolve col))
  | .inList col values => sqlIn N (resolve col) values

mutual

/-- The value of a predicate on a row. -/
def Pred.sqlValue (N : Numerics F) (resolve : Bytes → JsonValue F) : Pred F → TriBool
  | .atom a => a.sqlValue N resolve
  | .and args => TriBool.all (sqlValues N resolve args)
  | .or args => TriBool.any (sqlValues N resolve args)
  | .not arg => (arg.sqlValue N resolve).not
termination_by structural p => p

def sqlValues (N : Numerics F) (resolve : Bytes → JsonValue F) : List (Pred F) → List TriBool
  | [] => []
  | arg :: args => arg.sqlValue N resolve :: sqlValues N resolve args
termination_by structural args => args

end

mutual

/-- The leaves of a predicate. -/
def Pred.atoms : Pred F → List (Atom F)
  | .atom a => [a]
  | .and args | .or args => atomsOf args
  | .not arg => arg.atoms
termination_by structural p => p

def atomsOf : List (Pred F) → List (Atom F)
  | [] => []
  | arg :: args => arg.atoms ++ atomsOf args
termination_by structural args => args

end

/-! ## The connectives -/

theorem notTri_eq (t : TriBool) : notTri t = t.not := by
  cases t <;> rfl

theorem andTri_eq (a b : TriBool) : andTri a b = min a b := by
  cases a <;> cases b <;> decide

theorem orTri_eq (a b : TriBool) : orTri a b = max a b := by
  cases a <;> cases b <;> decide

/-! ## Compilation -/

/-- The node of a leaf. -/
def Atom.node : Atom F → PredNode F
  | .cmp op col (.literal v) => .cmp op col none v
  | .cmp op col (.column rhs) => .cmp op col (some rhs) .null
  | .isNull col negate => .isNull col negate
  | .inList col values =>
      .inList col (values.filter fun v => !Predicate.isNull v) (values.any Predicate.isNull)

theorem compilePred_atom (a : Atom F) : compilePred a.toJson = a.node := by
  cases a with
  | cmp op col rhs =>
      cases rhs with
      | literal v => cases op <;> rfl
      | column c => cases op <;> rfl
  | isNull col negate => cases negate <;> rfl
  | inList col values => rfl

theorem compilePred_and (args : List (Pred F)) :
    compilePred (Pred.and args).toJson = .and (compileAll (toJsonAll args)) := rfl

theorem compilePred_or (args : List (Pred F)) :
    compilePred (Pred.or args).toJson = .or (compileAll (toJsonAll args)) := rfl

theorem compilePred_not (arg : Pred F) :
    compilePred (Pred.not arg).toJson = .not (compilePred arg.toJson) := rfl

/-! ## Leaves -/

variable {N : Numerics F} {resolve : Bytes → JsonValue F}

/-- What the source gives for a leaf. -/
def Atom.given (N : Numerics F) (resolve : Bytes → JsonValue F) : Atom F → TriBool
  | .cmp op col rhs => evalCmp N op (resolve col) (rhs.value resolve)
  | .isNull col negate =>
      fromBool (if negate then !Predicate.isNull (resolve col) else Predicate.isNull (resolve col))
  | .inList col values =>
      evalIn N (resolve col) (values.filter fun v => !Predicate.isNull v)
        (values.any Predicate.isNull)

/-- The literals of a leaf are values of SQL. -/
def Atom.IsSql (N : Numerics F) : Atom F → Prop
  | .cmp _ _ (.literal v) => Predicate.IsSql N v
  | .cmp _ _ (.column _) | .isNull _ _ => True
  | .inList _ values => ∀ v ∈ values, Predicate.IsSql N v

/-- Where a leaf has its SQL value on a row. -/
def Atom.Exact (N : Numerics F) (resolve : Bytes → JsonValue F) : Atom F → Prop
  | .cmp op col rhs => CmpExact N op (resolve col) (rhs.value resolve)
  | .isNull _ _ => True
  | .inList col values => InExact N (resolve col) values

theorem given_iff (hN : N.Lawful) (hrow : ∀ col, IsSql N (resolve col)) {a : Atom F}
    (ha : a.IsSql N) : a.given N resolve = a.sqlValue N resolve ↔ a.Exact N resolve := by
  cases a with
  | cmp op col rhs =>
      refine evalCmp_iff hN op (hrow col) ?_
      cases rhs with
      | literal v => exact ha
      | column c => exact hrow c
  | isNull col negate => exact iff_of_true rfl trivial
  | inList col values => exact evalIn_iff hN (hrow col) ha

/-! ## Evaluation -/

variable [DecidableEq F]

theorem eval_atom (a : Atom F) : eval N resolve a.node = .ok (a.given N resolve) := by
  cases a with
  | cmp op col rhs => cases rhs <;> rfl
  | isNull col negate => rfl
  | inList col values => rfl

mutual

/-- A tree whose leaves have their SQL values has its own. -/
theorem eval_compilePred (p : Pred F)
    (h : ∀ a ∈ p.atoms, a.given N resolve = a.sqlValue N resolve) :
    eval N resolve (compilePred p.toJson) = .ok (p.sqlValue N resolve) := by
  cases p with
  | atom a =>
      rw [Pred.toJson, compilePred_atom, eval_atom, Pred.sqlValue]
      exact congrArg Except.ok (h a (List.mem_singleton_self a))
  | and args =>
      rw [compilePred_and, eval, evalAnd_compileAll args h .true, TriBool.true_min, Pred.sqlValue]
  | or args =>
      rw [compilePred_or, eval, evalOr_compileAll args h .false, TriBool.false_max, Pred.sqlValue]
  | not arg =>
      rw [compilePred_not, eval, eval_compilePred arg h, Pred.sqlValue]
      exact congrArg Except.ok (notTri_eq _)

theorem evalAnd_compileAll (args : List (Pred F))
    (h : ∀ a ∈ atomsOf args, a.given N resolve = a.sqlValue N resolve) (acc : TriBool) :
    evalAnd N resolve acc (compileAll (toJsonAll args))
      = .ok (min acc (TriBool.all (sqlValues N resolve args))) := by
  match args with
  | [] =>
      rw [toJsonAll, compileAll, evalAnd, sqlValues, TriBool.all_nil,
        min_eq_left (TriBool.le_true _)]
  | arg :: args =>
      have harg := eval_compilePred arg fun a ha => h a (List.mem_append_left _ ha)
      have hargs := evalAnd_compileAll args fun a ha => h a (List.mem_append_right _ ha)
      rw [toJsonAll, compileAll, evalAnd, harg]
      simp only [andTri_eq, sqlValues, TriBool.all_cons, ← min_assoc]
      split
      case isTrue hfalse => rw [hfalse, TriBool.false_min]
      case isFalse => exact hargs _

theorem evalOr_compileAll (args : List (Pred F))
    (h : ∀ a ∈ atomsOf args, a.given N resolve = a.sqlValue N resolve) (acc : TriBool) :
    evalOr N resolve acc (compileAll (toJsonAll args))
      = .ok (max acc (TriBool.any (sqlValues N resolve args))) := by
  match args with
  | [] =>
      rw [toJsonAll, compileAll, evalOr, sqlValues, TriBool.any_nil,
        max_eq_left (TriBool.false_le _)]
  | arg :: args =>
      have harg := eval_compilePred arg fun a ha => h a (List.mem_append_left _ ha)
      have hargs := evalOr_compileAll args fun a ha => h a (List.mem_append_right _ ha)
      rw [toJsonAll, compileAll, evalOr, harg]
      simp only [orTri_eq, sqlValues, TriBool.any_cons, ← max_assoc]
      split
      case isTrue htrue => rw [htrue, TriBool.true_max]
      case isFalse => exact hargs _

end

/-! ## Rows kept -/

/-- On a row, every predicate over a family of leaves has its SQL value, and keeps the row
exactly when that value is true, if and only if every leaf meets its condition there. -/
theorem where_follows_sql_iff (hN : N.Lawful) (hrow : ∀ col, IsSql N (resolve col))
    (leaves : Set (Atom F)) (hleaves : ∀ a ∈ leaves, a.IsSql N) :
    (∀ p : Pred F, (∀ a ∈ p.atoms, a ∈ leaves) →
        evaluateTri N p.toJson resolve = .ok (p.sqlValue N resolve) ∧
          evaluate N p.toJson resolve = .ok (p.sqlValue N resolve == .true)) ↔
      ∀ a ∈ leaves, a.Exact N resolve := by
  constructor
  · intro h a ha
    have hatom := (h (.atom a) (by simpa [Pred.atoms] using ha)).1
    rw [evaluateTri, Pred.toJson, compilePred_atom, eval_atom, Pred.sqlValue] at hatom
    exact (given_iff hN hrow (hleaves a ha)).mp (Except.ok.inj hatom)
  · intro h p hp
    have htri : evaluateTri N p.toJson resolve = .ok (p.sqlValue N resolve) :=
      eval_compilePred p fun a ha => (given_iff hN hrow (hleaves a (hp a ha))).mpr (h a (hp a ha))
    refine ⟨htri, ?_⟩
    rw [evaluate, htri]

/-! ## Whole numbers -/

/-- Doubles by their integral value, enough for integers and integral texts. -/
def wholeNumbers : Numerics Int where
  castInt64 f := if -2 ^ 63 ≤ f ∧ f < 2 ^ 63 then some (Int64.ofInt f) else none
  signbit f := f < 0
  snprintf _ f := integerToken f
  strtod text := if numberKind text = some .integer then some (integerValue text) else none
  ofUInt64 n := SqlValue.toDouble n.toNat
  ofInt64 n := SqlValue.toDouble n.toInt
  less a b := a < b
  stod text :=
    if numberKind text = some .integer then some (.finite (SqlValue.toDouble (integerValue text)))
    else none
  toDouble unscaled scale := .finite (SqlValue.toDouble (unscaled / 10 ^ scale))
  fromString text :=
    if numberKind text = some .integer then some (integerValue text, 0) else none
  textOf
    | .finite f => integerToken f
    | _ => []

theorem wholeNumbers_lawful : wholeNumbers.Lawful where
  less_ofInt64 _ _ := rfl

/-- A row of one integer column. -/
def integerRow (n : Int64) (col : Bytes) : JsonValue Int :=
  if col = ascii "a" then .int n else .null

theorem integerRow_isSql (n : Int64) (col : Bytes) : IsSql wholeNumbers (integerRow n col) := by
  rw [integerRow]
  split <;> trivial

/-- Below the integer that rounds to the same double, and in no list with a NULL in it. -/
def blindPred : Pred Int :=
  .and [.atom (.cmp .le (ascii "a") (.literal (.int 9007199254740993))),
    .not (.atom (.inList (ascii "a") [.int 1, .null, .string (ascii "abc")]))]

/-- The leaves of the predicate meet their conditions: `<=` is blind to the one order in
which the two integers stand, and the NULL in the list makes the answer unknown. -/
theorem blindPred_exact {a : Atom Int} (ha : a ∈ blindPred.atoms) :
    a.IsSql wholeNumbers ∧ a.Exact wholeNumbers (integerRow 9007199254740992) := by
  obtain rfl | rfl : a = .cmp .le (ascii "a") (.literal (.int 9007199254740993)) ∨
      a = .inList (ascii "a") [.int 1, .null, .string (ascii "abc")] := by
    simpa [blindPred, Pred.atoms, atomsOf] using ha
  · refine ⟨trivial, ?_, fun h => h.1 rfl⟩
    intro m n hm hn _
    obtain rfl : (9007199254740992 : Int64) = m := JsonValue.int.inj hm
    obtain rfl : (9007199254740993 : Int64) = n := JsonValue.int.inj hn
    exact .inl ⟨by decide, .inl rfl⟩
  · refine ⟨?_, ?_, fun _ => .inr ⟨?_, .inl ?_⟩⟩
    · simp [Atom.IsSql, IsSql]
      decide
    · intro h
      exact absurd h (by simp [integerRow])
    · intro v hv
      rcases List.mem_cons.mp hv with rfl | hv
      · rintro (⟨m, n, hm, hn, -, hround⟩ | hun)
        · obtain rfl : (9007199254740992 : Int64) = m := JsonValue.int.inj hm
          obtain rfl : (1 : Int64) = n := JsonValue.int.inj hn
          exact absurd hround (by decide)
        · exact hun.1 rfl
      rcases List.mem_cons.mp hv with rfl | hv
      · rintro (⟨m, n, hm, hn, -⟩ | ⟨-, x, y, hx, hy, -⟩)
        · cases hn
        · cases hy
      · obtain rfl := List.mem_singleton.mp hv
        rintro (⟨m, n, hm, hn, -⟩ | ⟨-, x, y, hx, hy, -⟩)
        · cases hn
        · cases hy
    · simp

theorem blindPred_follows_sql :
    evaluateTri wholeNumbers blindPred.toJson (integerRow 9007199254740992)
        = .ok (blindPred.sqlValue wholeNumbers (integerRow 9007199254740992)) ∧
      evaluate wholeNumbers blindPred.toJson (integerRow 9007199254740992)
        = .ok (blindPred.sqlValue wholeNumbers (integerRow 9007199254740992) == .true) :=
  (where_follows_sql_iff wholeNumbers_lawful (integerRow_isSql _) {a | a ∈ blindPred.atoms}
    fun _ ha => (blindPred_exact ha).1).mpr (fun _ ha => (blindPred_exact ha).2) blindPred
      fun _ ha => ha

/-- Two integers past `2 ^ 53` are taken for equal, and a row is kept because a list holds a
text it could not be compared with. -/
theorem where_departs_from_sql :
    (evaluate wholeNumbers
          (Pred.atom (.cmp .eq (ascii "a") (.literal (.int 9007199254740992)))).toJson
          (integerRow 9007199254740993) = .ok true ∧
        (Pred.atom (.cmp .eq (ascii "a") (.literal (.int 9007199254740992)))).sqlValue wholeNumbers
          (integerRow 9007199254740993) = .false) ∧
      evaluate wholeNumbers
          (Pred.not (.atom (.inList (ascii "a") [.string (ascii "abc")]))).toJson
          (integerRow 5) = .ok true ∧
        (Pred.not (.atom (.inList (ascii "a") [.string (ascii "abc")]))).sqlValue wholeNumbers
          (integerRow 5) = .unknown := by
  decide +kernel

end Clink.Ports.Predicate

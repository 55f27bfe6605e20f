import Mathlib.Order.MinMax

/-!
# Three-valued truth

False, unknown and true, ordered in this way.  Conjunction is the least of its
operands and disjunction the greatest, negation turns the order around; an empty
conjunction is true, an empty disjunction false.  The rules for lists say when
these values are reached: a disjunction is true by one true operand, and false only
when every operand is false.
-/

namespace Clink.Verified

inductive TriBool where
  | false
  | unknown
  | true
  deriving DecidableEq, Repr

namespace TriBool

def rank : TriBool → Nat
  | .false => 0
  | .unknown => 1
  | .true => 2

theorem rank_injective : Function.Injective rank := by
  intro a b h
  cases a <;> cases b <;> first | rfl | exact absurd h (by decide)

instance : LinearOrder TriBool := LinearOrder.lift' rank rank_injective

protected def not : TriBool → TriBool
  | .false => .true
  | .unknown => .unknown
  | .true => .false

/-- The conjunction of a list. -/
def all (values : List TriBool) : TriBool := values.foldr min .true

/-- The disjunction of a list. -/
def any (values : List TriBool) : TriBool := values.foldr max .false

theorem false_le (a : TriBool) : .false ≤ a := by
  cases a <;> decide

theorem le_true (a : TriBool) : a ≤ .true := by
  cases a <;> decide

@[simp] theorem false_min (a : TriBool) : min .false a = .false := min_eq_left (false_le a)

@[simp] theorem true_min (a : TriBool) : min .true a = a := min_eq_right (le_true a)

@[simp] theorem false_max (a : TriBool) : max .false a = a := max_eq_right (false_le a)

@[simp] theorem true_max (a : TriBool) : max .true a = .true := max_eq_left (le_true a)

@[simp] theorem all_nil : all [] = .true := rfl

@[simp] theorem all_cons (a : TriBool) (values : List TriBool) :
    all (a :: values) = min a (all values) := rfl

@[simp] theorem any_nil : any [] = .false := rfl

@[simp] theorem any_cons (a : TriBool) (values : List TriBool) :
    any (a :: values) = max a (any values) := rfl

theorem max_eq_true {a b : TriBool} : max a b = .true ↔ a = .true ∨ b = .true := by
  cases a <;> cases b <;> decide

theorem max_eq_false {a b : TriBool} : max a b = .false ↔ a = .false ∧ b = .false := by
  cases a <;> cases b <;> decide

theorem any_eq_true {values : List TriBool} : any values = .true ↔ .true ∈ values := by
  induction values with
  | nil => simp
  | cons a values ih =>
      rw [any_cons, max_eq_true, ih, List.mem_cons, eq_comm]

theorem any_eq_false {values : List TriBool} :
    any values = .false ↔ ∀ a ∈ values, a = .false := by
  induction values with
  | nil => simp
  | cons a values ih =>
      rw [any_cons, max_eq_false, ih, List.forall_mem_cons]

/-- A disjunction that is neither true nor false is unknown. -/
theorem any_eq_unknown {values : List TriBool} :
    any values = .unknown ↔ .true ∉ values ∧ .unknown ∈ values := by
  constructor
  · intro h
    refine ⟨fun htrue => ?_, ?_⟩
    · rw [any_eq_true.mpr htrue] at h
      exact absurd h (by decide)
    · by_contra hmem
      have hfalse : any values = .false := by
        rw [any_eq_false]
        intro a ha
        cases a with
        | false => rfl
        | unknown => exact absurd ha hmem
        | true =>
            rw [any_eq_true.mpr ha] at h
            exact absurd h (by decide)
      rw [hfalse] at h
      exact absurd h (by decide)
  · rintro ⟨htrue, hunknown⟩
    cases hany : any values with
    | unknown => rfl
    | true => exact absurd (any_eq_true.mp hany) htrue
    | false => exact absurd (any_eq_false.mp hany _ hunknown) (by decide)

end TriBool

end Clink.Verified

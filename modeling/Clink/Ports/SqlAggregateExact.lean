import Clink.Ports.AggregateRowNet

/-!
# Exact aggregates of exact columns

Runs of `update_agg` and `retract_agg` over a column of int64 or of DECIMALs of
one scale.  COUNT, SUM, STRING_AGG and ARRAY_AGG are those of the live values in
every run, and so are MIN and MAX of DECIMALs.  MIN and MAX of int64 compare
through doubles, in the multiset and in the append-only form alike: they are
right in every run exactly where no two integers of the column have the same
double (`Distinguishes`).
-/

namespace Clink.Ports.SqlAggregate

open Clink.Verified
open Clink.Ports.FixedPoint (value InRange decCompare_eq maxDecimalPrecision)
open Clink.Ports.SqlRow
open Clink.Ports.SqlValue
open Clink.Ports.AggregateRow

/-- Doubles that round an integer to the nearest, and arrow's texts of DECIMALs. -/
structure Arithmetic extends Doubles where
  round_int : ∀ n : Int, round n = toDouble n
  prints : PrintsDecimals toText

/-! ## Columns -/

inductive ColumnType where
  | int64
  | decimal (scale : Nat)

def ColumnType.scale : ColumnType → Nat
  | .int64 => 0
  | .decimal scale => scale

def ColumnType.Holds : ColumnType → Datum ℚ → Prop
  | .int64, .int n => -2 ^ 63 ≤ n ∧ n < 2 ^ 63
  | .decimal scale, .decimal unscaled scale' =>
      unscaled.natAbs < 10 ^ maxDecimalPrecision ∧ scale' = scale
  | _, _ => False

/-- The values that may stand in a column. -/
structure TypedColumn where
  type : ColumnType
  scale_le : type.scale ≤ maxDecimalPrecision
  values : Set (Datum ℚ)
  typed : ∀ v ∈ values, type.Holds v

/-- No two integers of the column have the same double. -/
def TypedColumn.Distinguishes (column : TypedColumn) : Prop :=
  ∀ m n, .int m ∈ column.values → .int n ∈ column.values → toDouble m = toDouble n → m = n

/-! ## Calls -/

/-- The aggregates whose results are exact, DISTINCT where it has a meaning. -/
structure ExactSpec (spec : AggSpec ℚ) : Prop where
  fn : spec.fn = .count ∨ spec.fn = .sum ∨ spec.fn = .min ∨ spec.fn = .max ∨
    spec.fn = .stringAgg ∨ spec.fn = .arrayAgg
  distinct : spec.distinct = true → spec.fn = .count ∨ spec.fn = .stringAgg ∨ spec.fn = .arrayAgg
  star : spec.distinct = true → spec.inputColumn ≠ []

inductive AggCall where
  | update (row : Row (Datum ℚ))
  | retract (row : Row (Datum ℚ))

def AggCall.row : AggCall → Row (Datum ℚ)
  | .update row => row
  | .retract row => row

def callAgg (num : Numerics ℚ) (spec : AggSpec ℚ) (st : AggState ℚ) : AggCall → AggState ℚ
  | .update row => updateAgg num st spec row
  | .retract row => retractAgg num st spec row

/-- The live values after one more call. -/
def liveStep (spec : AggSpec ℚ) (live : Multiset (Datum ℚ)) : AggCall → Multiset (Datum ℚ)
  | .update row => (inputOf spec row).elim live fun v => v ::ₘ live
  | .retract row => (inputOf spec row).elim live live.erase

/-- The values updated and not retracted; for `COUNT(*)` one for each row. -/
def liveValues (spec : AggSpec ℚ) (calls : List AggCall) : Multiset (Datum ℚ) :=
  calls.foldl (liveStep spec) 0

/-- The aggregates that count how often each value is held, in an `int`. -/
def KeepsCounts (spec : AggSpec ℚ) : Prop :=
  (spec.fn = .count ∧ spec.distinct = true) ∨ spec.fn = .stringAgg ∨
    ((spec.fn = .min ∨ spec.fn = .max) ∧ spec.retractable = true)

/-- A call on a row of the column; a retracted value is live, the append-only MIN and
MAX are not retracted, the exact sum does not leave 38 digits, and no value that is
counted is live 2³¹ times. -/
structure Permitted (column : TypedColumn) (spec : AggSpec ℚ) (calls : List AggCall)
    (c : AggCall) : Prop where
  typed : ¬ (spec.fn = .count ∧ spec.inputColumn = []) →
    ∀ v, cell c.row spec.inputColumn = some v → v ∈ column.values
  live : ∀ row, c = .retract row → ∀ v, inputOf spec row = some v → v ∈ liveValues spec calls
  appendOnly : ∀ row, c = .retract row → spec.fn = .min ∨ spec.fn = .max → spec.retractable = true
  fits : spec.fn = .sum →
    |total (liveValues spec (calls ++ [c]))| * 10 ^ column.type.scale < 10 ^ maxDecimalPrecision
  counted : KeepsCounts spec → ∀ v, (liveValues spec (calls ++ [c])).count v < 2 ^ 31

/-! ## What SQL asks for -/

/-- The numeral of a value, without trailing zeros of the fraction. -/
def numeral (toText : Int → Nat → Text) : Datum ℚ → Text
  | .int n => (toString n).toList
  | .decimal unscaled scale =>
      toText (decStrip unscaled scale).unscaled (decStrip unscaled scale).scale
  | _ => []

/-- The result over the live values: STRING_AGG joins their numerals and ARRAY_AGG
lists them, in any order; the others are as in `IsAggregate`. -/
def IsExact (d : Doubles) (spec : AggSpec ℚ) (values : Multiset (Datum ℚ))
    (result : Option (Output ℚ)) : Prop :=
  match spec.fn with
  | .stringAgg =>
      if values = 0 then result = none
      else ∃ texts : List Text,
        (texts : Multiset Text) =
          (if spec.distinct then (values.map (numeral d.toText)).dedup
            else values.map (numeral d.toText)) ∧
        result = some (.datum (.string (joinTexts spec.separator texts)))
  | .arrayAgg =>
      if values = 0 then result = none
      else ∃ items : List (Datum ℚ),
        (items : Multiset (Datum ℚ)) = (if spec.distinct then values.dedup else values) ∧
        result = some (.array items)
  | _ => IsAggregate d.numerics spec values result

/-! ## One column -/

section Values

variable {d : Arithmetic} {column : TypedColumn} {v w : Datum ℚ}

theorem holds_cases {type : ColumnType} (h : type.Holds v) :
    (type = .int64 ∧ ∃ n, v = .int n) ∨
      ∃ unscaled scale, type = .decimal scale ∧ v = .decimal unscaled scale ∧
        unscaled.natAbs < 10 ^ maxDecimalPrecision := by
  cases type with
  | int64 =>
      cases v with
      | int n => exact .inl ⟨rfl, n, rfl⟩
      | bool | double | decimal | string | composite => exact h.elim
  | decimal scale =>
      cases v with
      | decimal unscaled scale' =>
          obtain ⟨hdigits, rfl⟩ := h
          exact .inr ⟨unscaled, scale', rfl, rfl, hdigits⟩
      | bool | int | double | string | composite => exact h.elim

section

variable (hv : v ∈ column.values)
include hv

theorem two_cases (hw : w ∈ column.values) :
    (∃ m n, v = .int m ∧ w = .int n) ∨
      ∃ m n, v = .decimal m column.type.scale ∧ w = .decimal n column.type.scale := by
  rcases holds_cases (column.typed v hv) with ⟨htype, m, rfl⟩ | ⟨m, scale, htype, rfl, -⟩
  · rcases holds_cases (column.typed w hw) with ⟨-, n, rfl⟩ | ⟨n, scale, hother, rfl, -⟩
    · exact .inl ⟨m, n, rfl, rfl⟩
    · exact absurd (htype.symm.trans hother) (by simp)
  · rcases holds_cases (column.typed w hw) with ⟨hother, n, rfl⟩ | ⟨n, scale', hother, rfl, -⟩
    · exact absurd (htype.symm.trans hother) (by simp)
    · have hscale : column.type.scale = scale := by rw [htype]; rfl
      have hscale' : column.type.scale = scale' := by rw [hother]; rfl
      exact .inr ⟨m, n, by rw [hscale], by rw [hscale']⟩

theorem plain_of_mem : v.Plain := by
  rcases holds_cases (column.typed v hv) with ⟨-, n, rfl⟩ | ⟨n, scale, htype, rfl, hdigits⟩
  · trivial
  · refine ⟨hdigits, ?_⟩
    have hscale := column.scale_le
    rw [htype] at hscale
    exact hscale

private theorem summable_of_mem : Summable v := by
  have hplain := plain_of_mem hv
  have htyped := column.typed v hv
  rcases holds_cases htyped with ⟨htype, n, rfl⟩ | ⟨n, scale, -, rfl, -⟩
  · rw [htype] at htyped
    exact htyped
  · exact hplain

omit hv in
private theorem value_inj {m n : Int} {scale : Nat}
    (h : value ⟨m, scale⟩ = value ⟨n, scale⟩) : m = n := by
  unfold value at h
  rw [div_left_inj' (by positivity), Int.cast_inj] at h
  exact h

theorem eq_of_sqlKey_eq (hw : w ∈ column.values) (h : sqlKey v = sqlKey w) : v = w := by
  rcases two_cases hv hw with ⟨m, n, rfl, rfl⟩ | ⟨m, n, rfl, rfl⟩
  · have hcast : (m : ℚ) = n := Sum.inl.inj h
    rw [Int.cast_inj.mp hcast]
  · rw [value_inj (Sum.inl.inj h)]

theorem serialize_injOn (hw : w ∈ column.values)
    (h : serialize d.numerics v = serialize d.numerics w) : v = w :=
  eq_of_sqlKey_eq hv hw
    (sqlKey_eq_of_serialize_eq d.prints (plain_of_mem hv) (plain_of_mem hw) h)

theorem aggValueKey_numeral (spec : AggSpec ℚ) :
    aggValueKey d.numerics v spec = numeral d.toText v := by
  have hplain := plain_of_mem hv
  rcases holds_cases (column.typed v hv) with ⟨-, n, rfl⟩ | ⟨n, scale, -, rfl, -⟩
  · rfl
  · exact decFormat_eq d.prints _ ((decStrip_le n scale).trans hplain.2)

end

private theorem decLess_eq {a b : FixedPoint.Decimal} (ha : InRange a) (hb : InRange b) :
    decLess a b = decide (value a < value b) := by
  unfold decLess
  rw [decCompare_eq ha hb, decide_eq_decide]
  split
  · simp_all
  · split <;> simp_all

theorem less_int (m n : Int) :
    jsonValueLess d.numerics (.int m) (.int n) = decide (toDouble m < toDouble n) := by
  change decide (d.round (m : ℚ) < d.round (n : ℚ)) = _
  rw [d.round_int, d.round_int, decide_eq_decide, Int.cast_lt]

/-- Rounding keeps the order of integers it tells apart. -/
theorem toDouble_lt_iff {m n : Int} (h : toDouble m = toDouble n → m = n) :
    toDouble m < toDouble n ↔ m < n := by
  constructor
  · intro hlt
    by_contra hge
    exact absurd (toDouble_mono (not_lt.mp hge)) (not_le.mpr hlt)
  · intro hlt
    refine lt_of_le_of_ne (toDouble_mono hlt.le) fun heq => ?_
    exact absurd (h heq) hlt.ne

/-- Where the doubles tell the integers apart the comparison is that of SQL. -/
theorem comparesBy_column (hdistinguishes : column.Distinguishes) (hv : v ∈ column.values)
    (hw : w ∈ column.values) : ComparesBy (jsonValueLess d.numerics) sqlKey v w := by
  rcases two_cases hv hw with ⟨m, n, rfl, rfl⟩ | ⟨m, n, rfl, rfl⟩
  · have hkey : ∀ a b : Int,
        (sqlKey (.int a : Datum ℚ) < sqlKey (.int b : Datum ℚ)) ↔ a < b := by
      intro a b
      change Sum.inlₗ (a : ℚ) < Sum.inlₗ (b : ℚ) ↔ a < b
      rw [Sum.Lex.inl_lt_inl_iff, Int.cast_lt]
    constructor
    · rw [less_int, decide_eq_decide, hkey]
      exact toDouble_lt_iff (hdistinguishes m n hv hw)
    · rw [less_int, decide_eq_decide, hkey]
      exact toDouble_lt_iff (hdistinguishes n m hw hv)
  · have hkey : ∀ a b : Int, InRange ⟨a, column.type.scale⟩ → InRange ⟨b, column.type.scale⟩ →
        jsonValueLess d.numerics (.decimal a column.type.scale) (.decimal b column.type.scale) =
          decide (sqlKey (.decimal a column.type.scale : Datum ℚ) <
            sqlKey (.decimal b column.type.scale : Datum ℚ)) := by
      intro a b ha hb
      refine (decLess_eq ha hb).trans (decide_eq_decide.mpr ?_)
      exact (Sum.Lex.inl_lt_inl_iff).symm
    exact ⟨hkey m n (plain_of_mem hv) (plain_of_mem hw),
      hkey n m (plain_of_mem hw) (plain_of_mem hv)⟩

/-- The append-only form compares as the multiset does. -/
theorem replaces_eq (hv : v ∈ column.values) (hw : w ∈ column.values) (isMin : Bool) :
    replaces d.numerics isMin v w =
      if isMin then jsonValueLess d.numerics v w else jsonValueLess d.numerics w v := by
  rcases two_cases hv hw with ⟨m, n, rfl, rfl⟩ | ⟨m, n, rfl, rfl⟩
  · cases isMin <;> rfl
  · cases isMin <;> rfl

end Values

/-! ## Runs -/

section Calls

variable {d : Arithmetic} {column : TypedColumn} {spec : AggSpec ℚ} {calls : List AggCall}
  {c : AggCall} {st : AggState ℚ}

theorem liveValues_snoc (spec : AggSpec ℚ) (calls : List AggCall) (c : AggCall) :
    liveValues spec (calls ++ [c]) = liveStep spec (liveValues spec calls) c := by
  rw [liveValues, List.foldl_append]
  rfl

/-- The values of all calls, retracted ones too. -/
def receivedValues (spec : AggSpec ℚ) (calls : List AggCall) : Multiset (Datum ℚ) :=
  ↑(calls.filterMap fun c => inputOf spec c.row)

theorem receivedValues_snoc (spec : AggSpec ℚ) (calls : List AggCall) (c : AggCall) :
    receivedValues spec (calls ++ [c]) =
      (inputOf spec c.row).elim (receivedValues spec calls) fun v =>
        v ::ₘ receivedValues spec calls := by
  unfold receivedValues
  rw [List.filterMap_append]
  cases hinput : inputOf spec c.row with
  | none => simp [hinput]
  | some v =>
      simp only [List.filterMap_cons, hinput, List.filterMap_nil, Option.elim_some,
        Multiset.cons_coe, Multiset.coe_eq_coe]
      exact List.perm_append_singleton v _

theorem received_of_live (spec : AggSpec ℚ) (calls : List AggCall) :
    ∀ w ∈ liveValues spec calls, w ∈ receivedValues spec calls := by
  induction calls using List.reverseRecOn with
  | nil => exact fun w hw => absurd hw (Multiset.notMem_zero w)
  | append_singleton calls c ih =>
      intro w hw
      rw [liveValues_snoc] at hw
      rw [receivedValues_snoc]
      cases c with
      | update row =>
          unfold liveStep AggCall.row at *
          cases hinput : inputOf spec row with
          | none =>
              simp only [hinput, Option.elim_none] at hw ⊢
              exact ih w hw
          | some v =>
              simp only [hinput, Option.elim_some, Multiset.mem_cons] at hw ⊢
              exact hw.imp_right (ih w)
      | retract row =>
          unfold liveStep AggCall.row at *
          cases hinput : inputOf spec row with
          | none =>
              simp only [hinput, Option.elim_none] at hw ⊢
              exact ih w hw
          | some v =>
              simp only [hinput, Option.elim_some] at hw ⊢
              exact Multiset.mem_cons_of_mem (ih w (Multiset.mem_of_mem_erase hw))

theorem received_typed {init : AggState ℚ}
    (h : Runs (callAgg d.numerics spec) (fun calls _ c => Permitted column spec calls c) init
        calls st)
    (hstar : ¬ (spec.fn = .count ∧ spec.inputColumn = [])) :
    ∀ w ∈ receivedValues spec calls, w ∈ column.values := by
  refine h.induct (I := fun calls _ => ∀ w ∈ receivedValues spec calls, w ∈ column.values)
    (fun w hw => absurd hw (Multiset.notMem_zero w)) ?_
  intro calls st c _ ih hpermitted w hw
  rw [receivedValues_snoc] at hw
  cases hinput : inputOf spec c.row with
  | none =>
      rw [hinput] at hw
      exact ih w hw
  | some v =>
      rw [hinput, Option.elim_some, Multiset.mem_cons] at hw
      rcases hw with rfl | hw
      · rw [inputOf, if_neg hstar] at hinput
        exact hpermitted.typed hstar w hinput
      · exact ih w hw

private theorem maxScale_le {values : Multiset (Datum ℚ)} (h : ∀ w ∈ values, w ∈ column.values) :
    maxScale values ≤ column.type.scale := by
  refine Multiset.sup_le.mpr fun scale hscale => ?_
  obtain ⟨w, hw, rfl⟩ := Multiset.mem_map.mp hscale
  rcases holds_cases (column.typed w (h w hw)) with ⟨-, n, rfl⟩ | ⟨n, scale, htype, rfl, -⟩
  · exact Nat.zero_le _
  · rw [htype]
    exact le_refl scale

theorem exact_of_column (hspec : ExactSpec spec) {seen live : Multiset (Datum ℚ)}
    (hdistinguishes : spec.fn = .min ∨ spec.fn = .max → column.Distinguishes)
    (hseen : ¬ (spec.fn = .count ∧ spec.inputColumn = []) → ∀ w ∈ seen, w ∈ column.values)
    (hfits : spec.fn = .sum →
      |total live| * 10 ^ column.type.scale < 10 ^ maxDecimalPrecision) :
    Exact d.toDoubles spec seen live := by
  unfold Exact
  rcases hspec.fn with hfn | hfn | hfn | hfn | hfn | hfn
  · rw [hfn]
    trivial
  · have hcolumn := hseen (by simp [hfn])
    rw [hfn]
    refine ⟨fun v hv => ?_, lt_of_le_of_lt ?_ (hfits hfn)⟩
    · exact summable_of_mem (hcolumn v hv)
    · have hscale := maxScale_le hcolumn
      gcongr
      norm_num
  · have hcolumn := hseen (by simp [hfn])
    rw [hfn]
    exact fun v hv w hw =>
      comparesBy_column (hdistinguishes (.inl hfn)) (hcolumn v hv) (hcolumn w hw)
  · have hcolumn := hseen (by simp [hfn])
    rw [hfn]
    exact fun v hv w hw =>
      comparesBy_column (hdistinguishes (.inr hfn)) (hcolumn v hv) (hcolumn w hw)
  · rw [hfn]
    trivial
  · rw [hfn]
    trivial

theorem holds_lt {κ : Type*} [LinearOrder κ] {f : Datum ℚ → κ} {live : Multiset (Datum ℚ)}
    (hinj : ∀ x ∈ live, ∀ y ∈ live, f x = f y → x = y) (hcount : ∀ v, live.count v < 2 ^ 31)
    (o : κ) : holds f live o < 2 ^ 31 := by
  by_cases hsome : ∃ x ∈ live, f x = o
  · obtain ⟨x, hx, rfl⟩ := hsome
    have hholds : holds f live (f x) = live.count x :=
      Multiset.countP_congr rfl fun y hy => propext
        ⟨fun heq => (hinj y hy x hx heq).symm, fun heq => congrArg f heq.symm⟩
    rw [hholds]
    exact hcount x
  · push Not at hsome
    rw [holds, Multiset.countP_eq_zero.mpr hsome]
    decide

/-- In one column equal texts are of equal values. -/
theorem aggValueKey_injOn {v w : Datum ℚ} (hv : v ∈ column.values) (hw : w ∈ column.values)
    (h : aggValueKey d.numerics v spec = aggValueKey d.numerics w spec) : v = w := by
  have hcount : ∀ u ∈ column.values, aggValueKey d.numerics u { spec with fn := .count } =
      aggValueKey d.numerics u spec := by
    intro u hu
    rcases holds_cases (column.typed u hu) with ⟨-, n, rfl⟩ | ⟨n, scale, -, rfl, -⟩
    · rfl
    · rfl
  rw [← hcount v hv, ← hcount w hw] at h
  have hnotList : ({ spec with fn := AggFn.count } : AggSpec ℚ).fn ≠ .stringAgg := by simp
  exact eq_of_sqlKey_eq hv hw
    ((aggValueKey_eq_iff d.prints hnotList (plain_of_mem hv) (plain_of_mem hw)).mp h)

theorem countable_of_column (hspec : ExactSpec spec) {live : Multiset (Datum ℚ)}
    (hlive : ¬ (spec.fn = .count ∧ spec.inputColumn = []) → ∀ w ∈ live, w ∈ column.values)
    (hcounted : KeepsCounts spec → ∀ v, live.count v < 2 ^ 31) :
    Countable d.toDoubles spec live := by
  have htexts : KeepsCounts spec → ¬ (spec.fn = .count ∧ spec.inputColumn = []) →
      ∀ t, holds (fun v => aggValueKey d.numerics v spec) live t < 2 ^ 31 := fun hkeeps hstar =>
    holds_lt (fun x hx y hy => aggValueKey_injOn (hlive hstar x hx) (hlive hstar y hy))
      (hcounted hkeeps)
  have hextremes : KeepsCounts spec → ¬ (spec.fn = .count ∧ spec.inputColumn = []) →
      ∀ key, holds sqlKey live key < 2 ^ 31 := fun hkeeps hstar =>
    holds_lt (fun x hx y hy => eq_of_sqlKey_eq (hlive hstar x hx) (hlive hstar y hy))
      (hcounted hkeeps)
  unfold Countable
  rcases hspec.fn with hfn | hfn | hfn | hfn | hfn | hfn
  · simp only [hfn]
    exact fun hdistinct => htexts (.inl ⟨hfn, hdistinct⟩) fun hstar => hspec.star hdistinct hstar.2
  · simp only [hfn]
  · simp only [hfn]
    exact fun hretracts => hextremes (.inr (.inr ⟨.inl hfn, hretracts⟩)) (by simp [hfn])
  · simp only [hfn]
    exact fun hretracts => hextremes (.inr (.inr ⟨.inr hfn, hretracts⟩)) (by simp [hfn])
  · simp only [hfn]
    exact htexts (.inr (.inl hfn)) (by simp [hfn])
  · simp only [hfn]

/-- A call keeps what the state says of the live values. -/
theorem valueInv_call (hspec : ExactSpec spec)
    (hretracts : spec.fn = .min ∨ spec.fn = .max → spec.retractable = true)
    (hpermitted : Permitted column spec calls c)
    (hexact : Exact d.toDoubles spec (receivedValues spec (calls ++ [c]))
      (liveValues spec (calls ++ [c])))
    (hcountable : Countable d.toDoubles spec (liveValues spec calls))
    (h : ValueInv d.toDoubles spec (receivedValues spec calls) (liveValues spec calls) st) :
    ValueInv d.toDoubles spec (receivedValues spec (calls ++ [c])) (liveValues spec (calls ++ [c]))
      (callAgg d.numerics spec st c) := by
  have hsub := received_of_live spec calls
  rw [receivedValues_snoc, liveValues_snoc] at *
  cases c with
  | update row =>
      simp only [liveStep, AggCall.row, callAgg] at hexact ⊢
      rw [updateAgg_eq hspec.star]
      cases hinput : inputOf spec row with
      | none => exact h
      | some v =>
          rw [hinput] at hexact
          exact h.update hretracts hsub hexact
  | retract row =>
      have hlive := hpermitted.live row rfl
      simp only [liveStep, AggCall.row, callAgg] at hexact ⊢
      rw [retractAgg_eq hspec.star]
      cases hinput : inputOf spec row with
      | none => exact h
      | some v =>
          have hmem := hlive v hinput
          rw [hinput] at hexact
          rw [← Multiset.cons_erase hmem] at h hcountable
          exact h.retract hretracts (hsub v hmem) hexact hcountable

end Calls

/-! ## Results over a column -/

theorem eq_of_map_eq {α β : Type*} {f : α → β} {s t : Multiset α}
    (hmap : s.map f = t.map f) (hinj : ∀ x ∈ s, ∀ y ∈ t, f x = f y → x = y) : s = t := by
  induction s using Multiset.induction_on generalizing t with
  | empty => exact (Multiset.map_eq_zero.mp hmap.symm).symm
  | cons x s ih =>
      have hmem : f x ∈ t.map f := by
        rw [← hmap, Multiset.map_cons]
        exact Multiset.mem_cons_self _ _
      obtain ⟨y, hy, heq⟩ := Multiset.mem_map.mp hmem
      obtain rfl := hinj x (Multiset.mem_cons_self x s) y hy heq.symm
      obtain ⟨t, rfl⟩ := Multiset.exists_cons_of_mem hy
      rw [Multiset.map_cons, Multiset.map_cons, Multiset.cons_inj_right] at hmap
      rw [ih hmap fun x' hx' y' hy' =>
        hinj x' (Multiset.mem_cons_of_mem hx') y' (Multiset.mem_cons_of_mem hy')]

private theorem dedup_map {α β : Type*} [DecidableEq α] [DecidableEq β] {f : α → β} {s : Multiset α}
    (hinj : ∀ x ∈ s, ∀ y ∈ s, f x = f y → x = y) : (s.map f).dedup = s.dedup.map f := by
  have hnodup : (s.dedup.map f).Nodup := by
    refine Multiset.Nodup.map_on ?_ (Multiset.nodup_dedup s)
    exact fun x hx y hy =>
      hinj x (Multiset.mem_dedup.mp hx) y (Multiset.mem_dedup.mp hy)
  rw [Multiset.Nodup.ext (Multiset.nodup_dedup _) hnodup]
  intro b
  simp

private theorem mem_of_mem_dedupByText {num : Numerics ℚ} {x : Datum ℚ} {l : List (Datum ℚ)}
    {seen : List Text} (h : x ∈ dedupByText num l seen) : x ∈ l := by
  induction l generalizing seen with
  | nil => exact h
  | cons v l ih =>
      rw [dedupByText] at h
      split at h
      · exact List.mem_cons_of_mem v (ih h)
      · rcases List.mem_cons.mp h with rfl | h
        · exact List.mem_cons_self
        · exact List.mem_cons_of_mem v (ih h)

section Results

variable {d : Arithmetic} {column : TypedColumn} {spec : AggSpec ℚ} {calls : List AggCall}
  {c : AggCall} {st : AggState ℚ} {live : Multiset (Datum ℚ)}

private theorem isExact_stringAgg (hfn : spec.fn = .stringAgg)
    (hlive : ∀ w ∈ live, w ∈ column.values)
    (h : IsAggregate d.numerics spec live (finalizeAgg d.numerics st spec)) :
    IsExact d.toDoubles spec live (finalizeAgg d.numerics st spec) := by
  have htexts : (live.map fun v => aggValueKey d.numerics v spec) = live.map (numeral d.toText) :=
    Multiset.map_congr rfl fun w hw => aggValueKey_numeral (hlive w hw) spec
  unfold IsAggregate at h
  unfold IsExact
  simp only [hfn] at h ⊢
  rw [htexts] at h
  split
  · rename_i hzero
    rw [if_pos hzero] at h
    exact h
  · rename_i hnonzero
    rw [if_neg hnonzero] at h
    exact ⟨_, Multiset.sort_eq _ _, h⟩

private theorem isExact_arrayAgg (hfn : spec.fn = .arrayAgg)
    (hlive : ∀ w ∈ live, w ∈ column.values) (harray : ∀ x ∈ st.arrayValues, x ∈ column.values)
    (h : IsAggregate d.numerics spec live (finalizeAgg d.numerics st spec)) :
    IsExact d.toDoubles spec live (finalizeAgg d.numerics st spec) := by
  have hinj : ∀ x ∈ column.values, ∀ y ∈ column.values,
      serialize d.numerics x = serialize d.numerics y → x = y :=
    fun x hx y hy => serialize_injOn hx hy
  have hitems : ∀ items, finalizeAgg d.numerics st spec = some (.array items) →
      ∀ x ∈ items, x ∈ column.values := by
    intro items hresult x hx
    unfold finalizeAgg at hresult
    simp only [hfn] at hresult
    split at hresult
    · exact absurd hresult (by simp)
    · split at hresult
      · obtain rfl := Output.array.inj (Option.some.inj hresult)
        exact harray x (mem_of_mem_dedupByText hx)
      · obtain rfl := Output.array.inj (Option.some.inj hresult)
        exact harray x hx
  unfold IsAggregate at h
  unfold IsExact
  simp only [hfn] at h ⊢
  split
  · rename_i hzero
    rw [if_pos hzero] at h
    exact h
  · rename_i hnonzero
    rw [if_neg hnonzero] at h
    obtain ⟨items, hresult, htexts⟩ := h
    refine ⟨items, ?_, hresult⟩
    have hcolumn := hitems items hresult
    rw [← Multiset.map_coe] at htexts
    split at htexts
    · rename_i hdistinct
      rw [if_pos hdistinct]
      rw [dedup_map fun x hx y hy => hinj x (hlive x hx) y (hlive y hy)] at htexts
      refine eq_of_map_eq htexts fun x hx y hy => hinj x (hcolumn x hx) y ?_
      exact hlive y (Multiset.mem_dedup.mp hy)
    · rename_i hall
      rw [if_neg hall]
      exact eq_of_map_eq htexts fun x hx y hy => hinj x (hcolumn x hx) y (hlive y hy)

theorem arrayValues_call (hspec : ExactSpec spec) (hfn : spec.fn = .arrayAgg)
    (h : ∀ x ∈ st.arrayValues, x ∈ receivedValues spec calls) :
    ∀ x ∈ (callAgg d.numerics spec st c).arrayValues, x ∈ receivedValues spec (calls ++ [c]) := by
  intro x hx
  rw [receivedValues_snoc]
  cases c with
  | update row =>
      simp only [AggCall.row, callAgg] at hx ⊢
      rw [updateAgg_eq hspec.star] at hx
      cases hinput : inputOf spec row with
      | none =>
          rw [hinput] at hx
          exact h x hx
      | some v =>
          simp only [hinput, Option.map_some, Option.getD_some, updateValue, hfn,
            List.mem_append, List.mem_singleton] at hx
          rw [Option.elim_some]
          rcases hx with hx | rfl
          · exact Multiset.mem_cons_of_mem (h x hx)
          · exact Multiset.mem_cons_self _ _
  | retract row =>
      simp only [AggCall.row, callAgg] at hx ⊢
      rw [retractAgg_eq hspec.star] at hx
      cases hinput : inputOf spec row with
      | none =>
          rw [hinput] at hx
          exact h x hx
      | some v =>
          simp only [hinput, Option.map_some, Option.getD_some, retractValue, hfn] at hx
          exact Multiset.mem_cons_of_mem (h x (List.mem_of_mem_eraseP hx))

theorem isExact_of_isAggregate {values : Multiset (Datum ℚ)} {result : Option (Output ℚ)}
    (hfn : spec.fn ≠ .stringAgg ∧ spec.fn ≠ .arrayAgg)
    (h : IsAggregate d.numerics spec values result) : IsExact d.toDoubles spec values result := by
  unfold IsExact
  split
  · rename_i hstring
    exact absurd hstring hfn.1
  · rename_i harray
    exact absurd harray hfn.2
  · exact h

/-- The aggregates that can be retracted, in every run. -/
theorem isExact_of_runs (hspec : ExactSpec spec)
    (hretracts : spec.fn = .min ∨ spec.fn = .max → spec.retractable = true)
    (hdistinguishes : spec.fn = .min ∨ spec.fn = .max → column.Distinguishes)
    (h : Runs (callAgg d.numerics spec) (fun calls _ c => Permitted column spec calls c)
      (emptyState d.numerics) calls st) :
    IsExact d.toDoubles spec (liveValues spec calls) (finalizeAgg d.numerics st spec) := by
  have htyped := received_typed h
  have hsub := received_of_live spec calls
  obtain ⟨hvalue, hexact, hcountable, harray⟩ :
      ValueInv d.toDoubles spec (receivedValues spec calls) (liveValues spec calls) st ∧
        Exact d.toDoubles spec (receivedValues spec calls) (liveValues spec calls) ∧
        Countable d.toDoubles spec (liveValues spec calls) ∧
        (spec.fn = .arrayAgg → ∀ x ∈ st.arrayValues, x ∈ receivedValues spec calls) := by
    refine h.induct
      (I := fun calls st =>
        ValueInv d.toDoubles spec (receivedValues spec calls) (liveValues spec calls) st ∧
          Exact d.toDoubles spec (receivedValues spec calls) (liveValues spec calls) ∧
          Countable d.toDoubles spec (liveValues spec calls) ∧
          (spec.fn = .arrayAgg → ∀ x ∈ st.arrayValues, x ∈ receivedValues spec calls)) ?_ ?_
    · refine ⟨valueInv_empty d.toDoubles spec, ?_, countable_zero d.toDoubles spec,
        fun _ x hx => absurd hx List.not_mem_nil⟩
      refine exact_of_column hspec hdistinguishes
        (fun _ w hw => absurd hw (Multiset.notMem_zero w)) fun _ => ?_
      simp [liveValues, total, maxDecimalPrecision]
    · rintro calls st c hrun ⟨hvalue, -, hcountable, harray⟩ hpermitted
      have hreceived := received_typed (.snoc hrun hpermitted)
      have hnext := exact_of_column (d := d) hspec hdistinguishes hreceived hpermitted.fits
      have hfits := countable_of_column (d := d) hspec (fun hstar w hw =>
        hreceived hstar w (received_of_live spec (calls ++ [c]) w hw)) hpermitted.counted
      exact ⟨valueInv_call hspec hretracts hpermitted hnext hcountable hvalue, hnext, hfits,
        fun hfn => arrayValues_call hspec hfn (harray hfn)⟩
  have hplain : spec.distinct = true → ∀ w ∈ liveValues spec calls, w.Plain := by
    intro hdistinct w hw
    exact plain_of_mem (htyped (fun hstar => hspec.star hdistinct hstar.2) w (hsub w hw))
  have hresult := hvalue.finalize d.prints hretracts hsub hplain hexact hcountable
  rcases hspec.fn with hfn | hfn | hfn | hfn | hfn | hfn
  · exact isExact_of_isAggregate (by simp [hfn]) hresult
  · exact isExact_of_isAggregate (by simp [hfn]) hresult
  · exact isExact_of_isAggregate (by simp [hfn]) hresult
  · exact isExact_of_isAggregate (by simp [hfn]) hresult
  · have hcolumn := htyped (by simp [hfn])
    exact isExact_stringAgg hfn (fun w hw => hcolumn w (hsub w hw)) hresult
  · have hcolumn := htyped (by simp [hfn])
    exact isExact_arrayAgg hfn (fun w hw => hcolumn w (hsub w hw))
      (fun x hx => hcolumn x (harray hfn x hx)) hresult

end Results

/-! ## The append-only MIN and MAX -/

section AppendOnly

variable {d : Arithmetic} {column : TypedColumn} {spec : AggSpec ℚ} {calls : List AggCall}
  {c : AggCall} {st : AggState ℚ} {live : Multiset (Datum ℚ)} {isMin : Bool}

def running (isMin : Bool) (st : AggState ℚ) : Option (Datum ℚ) :=
  if isMin then st.runningMin else st.runningMax

/-- A value as extreme as another. -/
def Reaches (isMin : Bool) (v w : Datum ℚ) : Prop :=
  if isMin then sqlKey v ≤ sqlKey w else sqlKey w ≤ sqlKey v

/-- What the append-only form says of the values so far. -/
structure RunningInv (isMin : Bool) (live : Multiset (Datum ℚ)) (st : AggState ℚ) : Prop where
  idle : live = 0 → st.initialised = false ∧ running isMin st = none
  extreme : live ≠ 0 → st.initialised = true ∧
    ∃ v, running isMin st = some v ∧ v ∈ live ∧ ∀ w ∈ live, Reaches isMin v w

theorem Reaches.trans {u v w : Datum ℚ} (h : Reaches isMin u v) (h' : Reaches isMin v w) :
    Reaches isMin u w := by
  unfold Reaches at *
  cases isMin with
  | true => exact le_trans h h'
  | false => exact le_trans h' h

theorem replaces_cases (isMin : Bool) (hdistinguishes : column.Distinguishes)
    {v w : Datum ℚ} (hv : v ∈ column.values) (hw : w ∈ column.values) :
    (replaces d.numerics isMin v w = true ∧ Reaches isMin v w) ∨
      (replaces d.numerics isMin v w = false ∧ Reaches isMin w v) := by
  obtain ⟨hless, hmore⟩ := comparesBy_column (d := d) hdistinguishes hv hw
  rw [replaces_eq hv hw]
  unfold Reaches
  cases isMin with
  | true =>
      simp only [if_true, hless, decide_eq_true_eq, decide_eq_false_iff_not, not_lt]
      exact (lt_or_ge (sqlKey v) (sqlKey w)).imp (fun h => ⟨h, h.le⟩) fun h => ⟨h, h⟩
  | false =>
      simp only [Bool.false_eq_true, if_false, hmore, decide_eq_true_eq, decide_eq_false_iff_not,
        not_lt]
      exact (lt_or_ge (sqlKey w) (sqlKey v)).imp (fun h => ⟨h, h.le⟩) fun h => ⟨h, h⟩

theorem updateExtreme_appendOnly (isMin : Bool) (st : AggState ℚ) (v : Datum ℚ)
    (num : Numerics ℚ) :
    ((!st.initialised || (running isMin st).any (replaces num isMin v)) = true →
      (updateExtreme num st isMin false v).initialised = true ∧
        running isMin (updateExtreme num st isMin false v) = some v) ∧
      ((!st.initialised || (running isMin st).any (replaces num isMin v)) = false →
        updateExtreme num st isMin false v = st) := by
  have heq : updateExtreme num st isMin false v =
      if (!st.initialised || (running isMin st).any (replaces num isMin v)) = true then
        if isMin then { st with runningMin := some v, initialised := true }
        else { st with runningMax := some v, initialised := true }
      else st := rfl
  constructor
  · intro h
    rw [heq, if_pos h]
    cases isMin <;> exact ⟨rfl, rfl⟩
  · intro h
    rw [heq, if_neg (by rw [h]; exact Bool.false_ne_true)]

theorem RunningInv.update (hdistinguishes : column.Distinguishes)
    (hlive : ∀ w ∈ live, w ∈ column.values) {v : Datum ℚ} (hv : v ∈ column.values)
    (h : RunningInv isMin live st) :
    RunningInv isMin (v ::ₘ live) (updateExtreme d.numerics st isMin false v) := by
  obtain ⟨htakes, hkeeps⟩ := updateExtreme_appendOnly isMin st v d.numerics
  have hself : Reaches isMin v v := by
    unfold Reaches
    cases isMin <;> exact le_refl _
  refine ⟨fun hzero => absurd hzero (Multiset.cons_ne_zero), fun _ => ?_⟩
  by_cases hzero : live = 0
  · -- The first value is the extreme.
    obtain ⟨hinitialised, hnone⟩ := htakes (by rw [(h.idle hzero).1]; rfl)
    refine ⟨hinitialised, v, hnone, Multiset.mem_cons_self v live, fun w hw => ?_⟩
    rw [hzero, Multiset.mem_cons] at hw
    obtain rfl := hw.resolve_right (Multiset.notMem_zero w)
    exact hself
  · obtain ⟨hinitialised, u, hrunning, hmem, hreach⟩ := h.extreme hzero
    rcases replaces_cases (d := d) isMin hdistinguishes hv (hlive u hmem) with
      ⟨hreplaces, hvu⟩ | ⟨hkept, huv⟩
    · obtain ⟨hnow, hsome⟩ := htakes (by simp [hrunning, hreplaces])
      refine ⟨hnow, v, hsome, Multiset.mem_cons_self v live, fun w hw => ?_⟩
      rcases Multiset.mem_cons.mp hw with rfl | hw
      · exact hself
      · exact hvu.trans (hreach w hw)
    · rw [hkeeps (by simp [hinitialised, hrunning, hkept])]
      refine ⟨hinitialised, u, hrunning, Multiset.mem_cons_of_mem hmem, fun w hw => ?_⟩
      rcases Multiset.mem_cons.mp hw with rfl | hw
      · exact huv
      · exact hreach w hw

private theorem runningInv_call (hspec : ExactSpec spec)
    (hfn : spec.fn = if isMin then .min else .max) (happendOnly : spec.retractable = false)
    (hdistinguishes : column.Distinguishes) (hlive : ∀ w ∈ liveValues spec calls, w ∈ column.values)
    (hpermitted : Permitted column spec calls c)
    (h : RunningInv isMin (liveValues spec calls) st) :
    RunningInv isMin (liveValues spec (calls ++ [c])) (callAgg d.numerics spec st c) := by
  have hstar : ¬ (spec.fn = .count ∧ spec.inputColumn = []) := by
    rw [hfn]
    cases isMin <;> simp
  rw [liveValues_snoc]
  cases c with
  | update row =>
      simp only [liveStep, callAgg]
      rw [updateAgg_eq hspec.star]
      cases hinput : inputOf spec row with
      | none => exact h
      | some v =>
          have hcell : cell row spec.inputColumn = some v := by
            rw [inputOf, if_neg hstar] at hinput
            exact hinput
          have hupdate := h.update (d := d) hdistinguishes hlive (hpermitted.typed hstar v hcell)
          simp only [Option.elim_some, Option.map_some, Option.getD_some, updateValue, hfn]
          rw [happendOnly]
          cases isMin <;> exact hupdate
  | retract row =>
      have hextreme : spec.fn = .min ∨ spec.fn = .max := by
        rw [hfn]
        cases isMin <;> simp
      have hretracts := hpermitted.appendOnly row rfl hextreme
      rw [happendOnly] at hretracts
      exact absurd hretracts Bool.false_ne_true

theorem RunningInv.finalize (hfn : spec.fn = if isMin then .min else .max)
    (happendOnly : spec.retractable = false) (h : RunningInv isMin live st) :
    IsExact d.toDoubles spec live (finalizeAgg d.numerics st spec) := by
  obtain ⟨hidle, hextreme⟩ := h
  unfold IsExact IsAggregate finalizeAgg running at *
  cases isMin with
  | true =>
      simp only [hfn, happendOnly, if_true, Bool.false_eq_true, if_false] at hidle hextreme ⊢
      split
      · rename_i hzero
        rw [(hidle hzero).2]
        rfl
      · rename_i hnonzero
        obtain ⟨-, v, hrunning, hmem, hreach⟩ := hextreme hnonzero
        rw [hrunning]
        exact ⟨v, rfl, ⟨v, hmem, rfl⟩, hreach⟩
  | false =>
      simp only [hfn, happendOnly, Bool.false_eq_true, if_false] at hidle hextreme ⊢
      split
      · rename_i hzero
        rw [(hidle hzero).2]
        rfl
      · rename_i hnonzero
        obtain ⟨-, v, hrunning, hmem, hreach⟩ := hextreme hnonzero
        rw [hrunning]
        exact ⟨v, rfl, ⟨v, hmem, rfl⟩, hreach⟩

theorem isExact_appendOnly (isMin : Bool) (hspec : ExactSpec spec)
    (hfn : spec.fn = if isMin then .min else .max)
    (happendOnly : spec.retractable = false) (hdistinguishes : column.Distinguishes)
    (h : Runs (callAgg d.numerics spec) (fun calls _ c => Permitted column spec calls c)
      (emptyState d.numerics) calls st) :
    IsExact d.toDoubles spec (liveValues spec calls) (finalizeAgg d.numerics st spec) := by
  have hstar : ¬ (spec.fn = .count ∧ spec.inputColumn = []) := by
    rw [hfn]
    cases isMin <;> simp
  have hrunning : RunningInv isMin (liveValues spec calls) st := by
    refine h.induct (I := fun calls st => RunningInv isMin (liveValues spec calls) st) ?_ ?_
    · refine ⟨fun _ => ⟨rfl, ?_⟩, fun hnonzero => absurd rfl hnonzero⟩
      cases isMin <;> rfl
    · intro calls st c hrun ih hpermitted
      have hlive : ∀ w ∈ liveValues spec calls, w ∈ column.values := fun w hw =>
        received_typed hrun hstar w (received_of_live spec calls w hw)
      exact runningInv_call hspec hfn happendOnly hdistinguishes hlive hpermitted ih
  exact hrunning.finalize hfn happendOnly

end AppendOnly

/-! ## Exactly when -/

section Collapse

variable {d : Arithmetic} {column : TypedColumn} {spec : AggSpec ℚ}

/-- A row with one column. -/
def rowOf (name : Column) (v : Datum ℚ) : Row (Datum ℚ) := assign SortedMap.empty name (some v)

theorem cell_rowOf (name : Column) (v : Datum ℚ) : cell (rowOf name v) name = some v := by
  unfold cell rowOf assign
  rw [SortedMap.find?_upsert, if_pos rfl]
  rfl

/-- Two updates, the second with another integer. -/
def twoUpdates (spec : AggSpec ℚ) (m n : Int) : List AggCall :=
  [.update (rowOf spec.inputColumn (.int m)), .update (rowOf spec.inputColumn (.int n))]

theorem inputOf_rowOf (hextreme : spec.fn = .min ∨ spec.fn = .max) (v : Datum ℚ) :
    inputOf spec (rowOf spec.inputColumn v) = some v := by
  have hstar : ¬ (spec.fn = .count ∧ spec.inputColumn = []) := by
    rcases hextreme with hfn | hfn <;> simp [hfn]
  rw [inputOf, if_neg hstar, cell_rowOf]

theorem liveValues_twoUpdates (hextreme : spec.fn = .min ∨ spec.fn = .max) (m n : Int) :
    liveValues spec (twoUpdates spec m n) = {.int n, .int m} := by
  simp only [liveValues, twoUpdates, List.foldl_cons, List.foldl_nil, liveStep,
    inputOf_rowOf hextreme, Option.elim_some]
  rfl

/-- The second of two integers with the same double is lost. -/
theorem finalize_twoUpdates (hspec : ExactSpec spec)
    (hextreme : spec.fn = .min ∨ spec.fn = .max) {m n : Int} (hsame : toDouble m = toDouble n) :
    finalizeAgg d.numerics ((twoUpdates spec m n).foldl (callAgg d.numerics spec)
      (emptyState d.numerics)) spec = some (.datum (.int m)) := by
  have hless : jsonValueLess d.numerics (.int m) (.int n) = false := by
    rw [less_int, hsame, decide_eq_false_iff_not]
    exact lt_irrefl _
  have hmore : jsonValueLess d.numerics (.int n) (.int m) = false := by
    rw [less_int, hsame, decide_eq_false_iff_not]
    exact lt_irrefl _
  have hkept : ∀ isMin, replaces d.numerics isMin (.int n) (.int m) = false := by
    intro isMin
    cases isMin with
    | true => exact hmore
    | false => exact hless
  simp only [twoUpdates, List.foldl_cons, List.foldl_nil, callAgg, updateAgg_eq hspec.star,
    inputOf_rowOf hextreme, Option.map_some, Option.getD_some]
  rcases hextreme with hfn | hfn
  · cases hretractable : spec.retractable with
    | true =>
        simp [finalizeAgg, updateValue, updateExtreme, hfn, hretractable, emptyState, bump,
          addCount, hless, hmore]
    | false =>
        simp [finalizeAgg, updateValue, updateExtreme, hfn, hretractable, emptyState, hkept]
  · cases hretractable : spec.retractable with
    | true =>
        simp [finalizeAgg, updateValue, updateExtreme, hfn, hretractable, emptyState, bump,
          addCount, hless, hmore]
    | false =>
        simp [finalizeAgg, updateValue, updateExtreme, hfn, hretractable, emptyState, hkept]

theorem runs_twoUpdates (hextreme : spec.fn = .min ∨ spec.fn = .max) {m n : Int}
    (hm : .int m ∈ column.values) (hn : .int n ∈ column.values) :
    Runs (callAgg d.numerics spec) (fun calls _ c => Permitted column spec calls c)
      (emptyState d.numerics) (twoUpdates spec m n)
      ((twoUpdates spec m n).foldl (callAgg d.numerics spec) (emptyState d.numerics)) := by
  have hpermitted : ∀ calls v, v ∈ column.values → (liveValues spec calls).card ≤ 1 →
      Permitted column spec calls (.update (rowOf spec.inputColumn v)) := by
    intro calls v hv hfew
    refine ⟨fun _ w hw => ?_, fun row heq => (nomatch heq),
      fun row heq => (nomatch heq), fun hsum => ?_, fun _ w => ?_⟩
    · rw [AggCall.row, cell_rowOf] at hw
      rwa [← Option.some.inj hw]
    · rcases hextreme with hfn | hfn <;> simp [hfn] at hsum
    · have hcard := Multiset.count_le_card w (v ::ₘ liveValues spec calls)
      rw [Multiset.card_cons] at hcard
      rw [liveValues_snoc, liveStep, inputOf_rowOf hextreme, Option.elim_some]
      omega
  have hone : (liveValues spec [.update (rowOf spec.inputColumn (.int m))]).card ≤ 1 := by
    simp [liveValues, liveStep, inputOf_rowOf hextreme]
  exact .of_allowed ⟨hpermitted _ _ hm (Nat.zero_le _), hpermitted _ _ hn hone, trivial⟩

/-- Where every run of MIN or MAX is exact the doubles tell the integers apart. -/
theorem distinguishes_of_exact (hspec : ExactSpec spec)
    (hextreme : spec.fn = .min ∨ spec.fn = .max)
    (h : ∀ calls st,
      Runs (callAgg d.numerics spec) (fun calls _ c => Permitted column spec calls c)
        (emptyState d.numerics) calls st →
      IsExact d.toDoubles spec (liveValues spec calls) (finalizeAgg d.numerics st spec)) :
    column.Distinguishes := by
  have hnone : ∀ m n : Int, .int m ∈ column.values → .int n ∈ column.values →
      toDouble m = toDouble n → ¬ m < n := by
    intro m n hm hn hsame hlt
    have hkey : sqlKey (.int m : Datum ℚ) < sqlKey (.int n : Datum ℚ) :=
      Sum.Lex.inl_lt_inl_iff.mpr (Int.cast_lt.mpr hlt)
    rcases hextreme with hfn | hfn
    · -- MIN keeps the greater one, which came first.
      have hexact := h _ _ (runs_twoUpdates (.inl hfn) hn hm)
      rw [liveValues_twoUpdates (.inl hfn),
        finalize_twoUpdates hspec (.inl hfn) hsame.symm] at hexact
      simp only [IsExact, IsAggregate, hfn] at hexact
      rw [if_neg (by simp)] at hexact
      obtain ⟨v, hv, -, hleast⟩ := hexact
      obtain rfl := Output.datum.inj (Option.some.inj hv)
      exact absurd (hleast (.int m) (by simp)) (not_le.mpr hkey)
    · have hexact := h _ _ (runs_twoUpdates (.inr hfn) hm hn)
      rw [liveValues_twoUpdates (.inr hfn), finalize_twoUpdates hspec (.inr hfn) hsame] at hexact
      simp only [IsExact, IsAggregate, hfn] at hexact
      rw [if_neg (by simp)] at hexact
      obtain ⟨v, hv, -, hgreatest⟩ := hexact
      obtain rfl := Output.datum.inj (Option.some.inj hv)
      exact absurd (hgreatest (.int n) (by simp)) (not_le.mpr hkey)
  intro m n hm hn hsame
  rcases lt_trichotomy m n with hlt | heq | hgt
  · exact absurd hlt (hnone m n hm hn hsame)
  · exact heq
  · exact absurd hgt (hnone n m hn hm hsame.symm)

/-- Over a column every run of an exact aggregate gives the result over the live
values exactly where MIN and MAX are not asked of two integers with the same double. -/
theorem exact_aggregates_iff (d : Arithmetic) (column : TypedColumn) (spec : AggSpec ℚ)
    (hspec : ExactSpec spec) :
    (∀ calls st,
      Runs (callAgg d.numerics spec) (fun calls _ c => Permitted column spec calls c)
        (emptyState d.numerics) calls st →
      IsExact d.toDoubles spec (liveValues spec calls) (finalizeAgg d.numerics st spec)) ↔
      (spec.fn = .min ∨ spec.fn = .max → column.Distinguishes) := by
  constructor
  · exact fun h hextreme => distinguishes_of_exact hspec hextreme h
  · intro hdistinguishes calls st hruns
    by_cases hretracts : spec.fn = .min ∨ spec.fn = .max → spec.retractable = true
    · exact isExact_of_runs hspec hretracts hdistinguishes hruns
    · obtain ⟨hextreme, happendOnly⟩ := Classical.not_imp.mp hretracts
      rw [Bool.not_eq_true] at happendOnly
      have hcolumn := hdistinguishes hextreme
      rcases hextreme with hfn | hfn
      · exact isExact_appendOnly true hspec hfn happendOnly hcolumn hruns
      · exact isExact_appendOnly false hspec hfn happendOnly hcolumn hruns

end Collapse

/-! ## Small and large integers -/

/-- Whole numbers rounded to the nearest double, the others left alone. -/
def nearest : Arithmetic where
  round q := if q.den = 1 then toDouble q.num else q
  round_zero := by decide
  sqrt := id
  ofDecimal unscaled scale := unscaled / 10 ^ scale
  text q := (toString q.num).toList
  toText := FixedPoint.decimalText
  round_int n := by simp
  prints := FixedPoint.decimalText_prints

/-- The int64 of a column up to a bound. -/
def int64Column (bound : Nat) : TypedColumn where
  type := .int64
  scale_le := by decide
  values := { v | ∃ n : Int, v = .int n ∧ n.natAbs ≤ bound ∧ -2 ^ 63 ≤ n ∧ n < 2 ^ 63 }
  typed := by
    rintro _ ⟨n, rfl, -, hrange⟩
    exact hrange

/-- The doubles of integers up to 2⁵³ are these integers. -/
theorem distinguishes_small : (int64Column (2 ^ 53)).Distinguishes := by
  rintro m n ⟨m', hm, hsmall, -⟩ ⟨n', hn, hsmall', -⟩ hsame
  obtain rfl := Datum.int.inj hm
  obtain rfl := Datum.int.inj hn
  simp only [toDouble, if_pos hsmall, if_pos hsmall'] at hsame
  exact hsame

/-- The retractable MIN of a column `x`. -/
def minOfX : AggSpec ℚ where
  outputName := ['m']
  fn := .min
  inputColumn := ['x']
  distinct := false
  separator := []
  percentile := 0
  retractable := true

theorem minOfX_exact : ExactSpec minOfX where
  fn := .inr (.inr (.inl rfl))
  distinct := fun h => nomatch h
  star := fun h => nomatch h

theorem exact_aggregates_iff_minOfX :
    ExactSpec minOfX ∧
      ∀ calls st,
        Runs (callAgg nearest.numerics minOfX)
          (fun calls _ c => Permitted (int64Column (2 ^ 53)) minOfX calls c)
          (emptyState nearest.numerics) calls st →
        IsExact nearest.toDoubles minOfX (liveValues minOfX calls)
          (finalizeAgg nearest.numerics st minOfX) := by
  refine ⟨minOfX_exact, (exact_aggregates_iff nearest _ minOfX minOfX_exact).mpr fun _ =>
    distinguishes_small⟩

/-- MIN of 2⁵³ + 1 and 2⁵³ is 2⁵³ + 1. -/
theorem min_collapses :
    Runs (callAgg nearest.numerics minOfX)
        (fun calls _ c => Permitted (int64Column (2 ^ 63)) minOfX calls c)
        (emptyState nearest.numerics) (twoUpdates minOfX 9007199254740993 9007199254740992)
        ((twoUpdates minOfX 9007199254740993 9007199254740992).foldl
          (callAgg nearest.numerics minOfX) (emptyState nearest.numerics)) ∧
      finalizeAgg nearest.numerics ((twoUpdates minOfX 9007199254740993 9007199254740992).foldl
        (callAgg nearest.numerics minOfX) (emptyState nearest.numerics)) minOfX =
          some (.datum (.int 9007199254740993)) ∧
      ¬ IsExact nearest.toDoubles minOfX
        (liveValues minOfX (twoUpdates minOfX 9007199254740993 9007199254740992))
        (some (.datum (.int 9007199254740993))) := by
  refine ⟨runs_twoUpdates (.inl rfl) ⟨_, rfl, by decide⟩ ⟨_, rfl, by decide⟩,
    finalize_twoUpdates minOfX_exact (.inl rfl) (by decide), fun hexact => ?_⟩
  rw [liveValues_twoUpdates (.inl rfl)] at hexact
  simp only [IsExact, IsAggregate, minOfX] at hexact
  rw [if_neg (by simp)] at hexact
  obtain ⟨v, hv, -, hleast⟩ := hexact
  obtain rfl := Output.datum.inj (Option.some.inj hv)
  have hkey := hleast (.int 9007199254740992) (by simp)
  have hcast : ((9007199254740993 : Int) : ℚ) ≤ ((9007199254740992 : Int) : ℚ) :=
    Sum.Lex.inl_le_inl_iff.mp hkey
  exact absurd (Int.cast_le.mp hcast) (by decide)

end Clink.Ports.SqlAggregate

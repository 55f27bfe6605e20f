import Mathlib.Order.Lattice.Nat
import Mathlib.Data.Rat.Floor
import Clink.Ports.SqlText

/-!
# Aggregates of the live values

What an aggregate of a multiset of values is in SQL (`IsAggregate`), and that
the state `update_agg` and `retract_agg` keep gives it (`ValueInv.finalize`).
A finite double is the rational it is, and each operation on doubles is the
exact one, rounded (`Doubles`).

ARRAY_AGG and a COUNT of rows are right on any values.  The others are where the
multiplicities they keep fit an `int` (`Countable`) and the representation they
keep is exact (`Exact`): SUM while the exact sum fits 38
digits, AVG and the variances while no double sum is rounded, MIN and MAX where
`JsonValueLess` orders the values seen as SQL does, PERCENTILE on values that
are not DECIMALs, which it passes over.
-/

namespace Clink.Ports.SqlAggregate

open Clink.Verified
open Clink.Ports.FixedPoint
open Clink.Ports.SqlRow
open Clink.Ports.SqlValue hiding decimalSentinel

/-! ## Doubles -/

structure Doubles where
  round : ℚ → ℚ
  round_zero : round 0 = 0
  sqrt : ℚ → ℚ
  ofDecimal : Int → Nat → ℚ
  text : ℚ → Text
  toText : Int → Nat → Text

def Doubles.numerics (d : Doubles) : Numerics ℚ where
  ofInt n := d.round n
  ofDecimal := d.ofDecimal
  add x y := d.round (x + y)
  sub x y := d.round (x - y)
  mul x y := d.round (x * y)
  div x y := d.round (x / y)
  sqrt := d.sqrt
  less x y := x < y
  equal x y := x = y
  floor x := ⌊x⌋.toNat
  ceil x := ⌈x⌉.toNat
  toInt64 x := if x.den = 1 ∧ -2 ^ 63 ≤ x.num ∧ x.num < 2 ^ 63 then some x.num else none
  text := d.text
  nonFiniteName _ := none
  toText := d.toText

/-! ## What SQL asks for -/

/-- The sum of the numbers. -/
def total (values : Multiset (Datum ℚ)) : ℚ := (values.map fun v => (numberOf v).getD 0).sum

/-- The sum of their squares. -/
def totalSq (values : Multiset (Datum ℚ)) : ℚ :=
  (values.map fun v => (numberOf v).getD 0 ^ 2).sum

/-- The result of an aggregate over the values that are not NULL.  MIN, MAX and
SUM are right by value, an array in any order. -/
def IsAggregate (num : Numerics ℚ) (spec : AggSpec ℚ) (values : Multiset (Datum ℚ))
    (result : Option (Output ℚ)) : Prop :=
  match spec.fn with
  | .count =>
      result = some (.datum (.int
        (if spec.distinct then (values.map sqlKey).toFinset.card else values.card)))
  | .sum =>
      if values = 0 then result = none
      else ∃ v, result = some (.datum v) ∧ numberOf v = some (total values)
  | .avg =>
      if values = 0 then result = none
      else result = some (.datum (.double (num.div (total values) (num.ofInt values.card))))
  | .variance sample isStddev =>
      if values = 0 ∨ (sample = true ∧ values.card < 2) then result = none
      else result = some (.datum (.double
        (varianceOf num sample isStddev values.card (total values) (totalSq values))))
  | .min =>
      if values = 0 then result = none
      else ∃ v, result = some (.datum v) ∧ (∃ x ∈ values, sqlKey x = sqlKey v) ∧
        ∀ x ∈ values, sqlKey v ≤ sqlKey x
  | .max =>
      if values = 0 then result = none
      else ∃ v, result = some (.datum v) ∧ (∃ x ∈ values, sqlKey x = sqlKey v) ∧
        ∀ x ∈ values, sqlKey x ≤ sqlKey v
  | .stringAgg =>
      if values = 0 then result = none
      else
        let texts := values.map fun v => aggValueKey num v spec
        result = some (.datum (.string (joinTexts spec.separator
          ((if spec.distinct then texts.dedup else texts).sort (· ≤ ·)))))
  | .percentile =>
      if values.filterMap (aggNumericDouble num) = 0 then result = none
      else result = some (.datum (.double (interpolate num spec.percentile
        ((values.filterMap (aggNumericDouble num)).sort (· ≤ ·)))))
  | .arrayAgg =>
      if values = 0 then result = none
      else ∃ items, result = some (.array items) ∧
        ((items.map (serialize num) : List Text) : Multiset Text) =
          if spec.distinct then (values.map (serialize num)).dedup else values.map (serialize num)

/-! ## Where the state is exact -/

/-- The scale of a value. -/
def scaleOf : Datum ℚ → Nat
  | .decimal _ scale => scale
  | _ => 0

/-- The greatest scale among values. -/
def maxScale (values : Multiset (Datum ℚ)) : Nat := (values.map scaleOf).sup

/-- The double kept for a value is the number it stands for. -/
def ExactDouble (d : Doubles) (v : Datum ℚ) : Prop :=
  ∃ a, asDecimal d.numerics v = some a ∧ numberOf v = some (value a) ∧
    d.ofDecimal a.unscaled a.scale = value a ∧ aggNumericDouble d.numerics v = some (value a)

/-- An int64, or a DECIMAL of at most 38 digits. -/
def Summable : Datum ℚ → Prop
  | .int n => -2 ^ 63 ≤ n ∧ n < 2 ^ 63
  | .decimal unscaled scale => InRange ⟨unscaled, scale⟩
  | _ => False

instance : DecidablePred Summable
  | .int _ => inferInstanceAs (Decidable (_ ∧ _))
  | .decimal _ _ => inferInstanceAs (Decidable (InRange _))
  | .bool _ | .double _ | .string _ | .composite _ => isFalse id

/-- What is required of the values a group has seen and of those live after the
step. -/
def Exact (d : Doubles) (spec : AggSpec ℚ) (seen live : Multiset (Datum ℚ)) : Prop :=
  match spec.fn with
  | .count | .stringAgg | .arrayAgg => True
  | .sum =>
      (∀ v ∈ seen, Summable v) ∧
        |total live| * 10 ^ maxScale seen < 10 ^ maxDecimalPrecision
  | .avg => (∀ v ∈ seen, ExactDouble d v) ∧ d.round (total live) = total live
  | .variance _ _ =>
      (∀ v ∈ seen, ExactDouble d v ∧ d.round ((numberOf v).getD 0 ^ 2) = (numberOf v).getD 0 ^ 2) ∧
        d.round (total live) = total live ∧ d.round (totalSq live) = totalSq live
  | .min | .max => ∀ v ∈ seen, ∀ w ∈ seen, ComparesBy (jsonValueLess d.numerics) sqlKey v w
  | .percentile => ∀ v ∈ seen, isDecString v = false

/-- No multiplicity kept of the live values reaches the end of an `int`. -/
def Countable (d : Doubles) (spec : AggSpec ℚ) (live : Multiset (Datum ℚ)) : Prop :=
  match spec.fn with
  | .count =>
      spec.distinct = true → ∀ t, holds (fun v => aggValueKey d.numerics v spec) live t < 2 ^ 31
  | .stringAgg => ∀ t, holds (fun v => aggValueKey d.numerics v spec) live t < 2 ^ 31
  | .min | .max => spec.retractable = true → ∀ key, holds sqlKey live key < 2 ^ 31
  | _ => True

/-- What the planner builds: DISTINCT where it has a meaning, and MIN and MAX
that can be retracted. -/
structure Planned (spec : AggSpec ℚ) : Prop where
  distinct : spec.distinct = true → spec.fn = .count ∨ spec.fn = .stringAgg ∨ spec.fn = .arrayAgg
  star : spec.distinct = true → spec.inputColumn ≠ []
  retractable : spec.retractable = true

/-- What the state says of the values seen and of the live ones. -/
def ValueInv (d : Doubles) (spec : AggSpec ℚ) (seen live : Multiset (Datum ℚ)) (st : AggState ℚ) :
    Prop :=
  match spec.fn with
  | .count =>
      if spec.distinct then
        Tallies id st.valueCounts (live.map fun v => aggValueKey d.numerics v spec)
      else st.runningCount = live.card
  | .stringAgg => Tallies id st.valueCounts (live.map fun v => aggValueKey d.numerics v spec)
  | .percentile =>
      (st.percentileValues : Multiset ℚ) = live.filterMap (asNumber d.numerics)
  | .arrayAgg =>
      ((st.arrayValues.map (serialize d.numerics) : List Text) : Multiset Text) =
        live.map (serialize d.numerics)
  | .sum =>
      st.runningCount = live.card ∧ st.sumDecComplete = true ∧
        (st.sumDecStarted = false → seen = 0) ∧
        (st.sumDecStarted = true →
          InRange st.runningSumDec ∧ value st.runningSumDec = total live ∧
            st.runningSumDec.scale = maxScale seen)
  | .avg => st.runningCount = live.card ∧ st.runningSum = total live
  | .variance _ _ =>
      st.runningCount = live.card ∧ st.runningSum = total live ∧ st.runningSumSq = totalSq live
  | .min | .max =>
      Tallies sqlKey st.minmaxCounts live ∧ ∀ e ∈ st.minmaxCounts, e.1 ∈ seen

variable {d : Doubles} {spec : AggSpec ℚ} {seen live : Multiset (Datum ℚ)} {st : AggState ℚ}
  {v : Datum ℚ}

theorem valueInv_empty (d : Doubles) (spec : AggSpec ℚ) :
    ValueInv d spec 0 0 (emptyState d.numerics) := by
  have hzero : d.numerics.ofInt 0 = 0 := by
    change d.round ((0 : Int) : ℚ) = 0
    rw [Int.cast_zero, d.round_zero]
  unfold ValueInv emptyState
  cases spec.fn with
  | count =>
      simp only
      split
      · exact tallies_nil id
      · rfl
  | stringAgg => exact tallies_nil id
  | percentile => rfl
  | arrayAgg => rfl
  | sum => exact ⟨rfl, rfl, fun _ => rfl, fun h => absurd h (by simp)⟩
  | avg => exact ⟨rfl, hzero⟩
  | variance => exact ⟨rfl, hzero, hzero⟩
  | min | max => exact ⟨tallies_nil sqlKey, by simp⟩

theorem holds_map {κ : Type*} [LinearOrder κ] (f : Datum ℚ → κ) (live : Multiset (Datum ℚ))
    (o : κ) :
    holds id (live.map f) o = holds f live o := by
  unfold holds
  rw [Multiset.countP_map, Multiset.countP_eq_card_filter]
  rfl

theorem countable_zero (d : Doubles) (spec : AggSpec ℚ) : Countable d spec 0 := by
  unfold Countable
  split <;> simp [holds]

/-! ## Numbers -/

@[simp] theorem total_cons (v : Datum ℚ) (values : Multiset (Datum ℚ)) :
    total (v ::ₘ values) = (numberOf v).getD 0 + total values := by
  simp [total]

@[simp] theorem totalSq_cons (v : Datum ℚ) (values : Multiset (Datum ℚ)) :
    totalSq (v ::ₘ values) = (numberOf v).getD 0 ^ 2 + totalSq values := by
  simp [totalSq]

@[simp] theorem maxScale_cons (v : Datum ℚ) (values : Multiset (Datum ℚ)) :
    maxScale (v ::ₘ values) = max (scaleOf v) (maxScale values) := by
  simp [maxScale]

theorem asDecimal_of_summable (num : Numerics ℚ) (h : Summable v) :
    ∃ a, asDecimal num v = some a ∧ InRange a ∧ numberOf v = some (value a) ∧
      a.scale = scaleOf v := by
  cases v with
  | int n =>
      refine ⟨⟨n, 0⟩, rfl, ⟨?_, Nat.zero_le _⟩, ?_, rfl⟩
      · have hbound : n.natAbs ≤ 2 ^ 63 := by
          have hlower : -2 ^ 63 ≤ n := h.1
          have hupper : n < 2 ^ 63 := h.2
          omega
        exact hbound.trans_lt (by norm_num [maxDecimalPrecision])
      · simp [numberOf, value]
  | decimal u s => exact ⟨⟨u, s⟩, rfl, h, rfl, rfl⟩
  | bool | double | string | composite => exact h.elim

variable {a b : Decimal}

/-- Coefficients in range, brought to the greater scale and combined: nothing wraps. -/
theorem combine_exact (ha : InRange a) (hb : InRange b) (f : Int → Int → Int)
    (hf : ∀ x y, (f x y).natAbs ≤ x.natAbs + y.natAbs) :
    wrap256 (f (increaseScaleBy a.unscaled (max a.scale b.scale - a.scale))
        (increaseScaleBy b.unscaled (max a.scale b.scale - b.scale))) =
      f (rescaled a (max a.scale b.scale)) (rescaled b (max a.scale b.scale)) ∧
    (rescaled a (max a.scale b.scale) : ℚ) = value a * 10 ^ max a.scale b.scale ∧
    (rescaled b (max a.scale b.scale) : ℚ) = value b * 10 ^ max a.scale b.scale := by
  have hscale : max a.scale b.scale ≤ maxDecimalPrecision := max_le ha.2 hb.2
  have hfits : ∀ {c : Decimal}, InRange c →
      (rescaled c (max a.scale b.scale)).natAbs < 10 ^ 76 := by
    intro c hc
    rw [rescaled_eq hc hscale, Int.natAbs_mul, Int.natAbs_pow]
    calc c.unscaled.natAbs * 10 ^ (max a.scale b.scale - c.scale)
        ≤ c.unscaled.natAbs * 10 ^ maxDecimalPrecision :=
          Nat.mul_le_mul_left _ (Nat.pow_le_pow_right (by decide) (by omega))
      _ < 10 ^ maxDecimalPrecision * 10 ^ maxDecimalPrecision :=
          Nat.mul_lt_mul_of_pos_right hc.1 (by positivity)
      _ = 10 ^ 76 := by rw [← Nat.pow_add]; rfl
  refine ⟨wrap256_eq_of_lt ((hf _ _).trans_lt ?_), rescaled_cast (rescaled_eq ha hscale)
    (le_max_left _ _), rescaled_cast (rescaled_eq hb hscale) (le_max_right _ _)⟩
  have hsum := Nat.add_lt_add (hfits ha) (hfits hb)
  exact hsum.trans (by norm_num)

theorem narrow_of_value {x : Int} {s : Nat} {q : ℚ} (hx : (x : ℚ) = q * 10 ^ s)
    (hs : s ≤ maxDecimalPrecision) (hfits : |q| * 10 ^ s < 10 ^ maxDecimalPrecision) :
    ∃ c, narrow x s = some c ∧ InRange c ∧ value c = q ∧ c.scale = s := by
  have hpow : (0 : ℚ) < 10 ^ s := by positivity
  have hdigits : fitsInPrecision x maxDecimalPrecision := by
    have habs : ((x.natAbs : Nat) : ℚ) < 10 ^ maxDecimalPrecision := by
      rw [Nat.cast_natAbs, Int.cast_abs, hx, abs_mul, abs_of_pos hpow]
      exact hfits
    exact_mod_cast habs
  refine ⟨⟨x, s⟩, if_pos hdigits, ⟨hdigits, hs⟩, ?_, rfl⟩
  unfold value
  rw [hx]
  field_simp

theorem decAdd_of_fits (ha : InRange a) (hb : InRange b)
    (hfits : |value a + value b| * 10 ^ max a.scale b.scale < 10 ^ maxDecimalPrecision) :
    ∃ c, decAdd a b = some c ∧ InRange c ∧ value c = value a + value b ∧
      c.scale = max a.scale b.scale := by
  obtain ⟨hexact, hfirst, hsecond⟩ := combine_exact ha hb (· + ·) Int.natAbs_add_le
  refine narrow_of_value ?_ (max_le ha.2 hb.2) hfits
  rw [hexact, Int.cast_add, hfirst, hsecond, add_mul]

private theorem decSub_of_fits (ha : InRange a) (hb : InRange b)
    (hfits : |value a - value b| * 10 ^ max a.scale b.scale < 10 ^ maxDecimalPrecision) :
    ∃ c, decSub a b = some c ∧ InRange c ∧ value c = value a - value b ∧
      c.scale = max a.scale b.scale := by
  obtain ⟨hexact, hfirst, hsecond⟩ := combine_exact ha hb (· - ·) Int.natAbs_sub_le
  refine narrow_of_value ?_ (max_le ha.2 hb.2) hfits
  rw [hexact, Int.cast_sub, hfirst, hsecond, sub_mul]

variable {num : Numerics ℚ}

/-- What an integer or a DECIMAL does to the state of a sum. -/
theorem updateSum_of_asDecimal {q : ℚ} (hnumber : numberOf v = some q)
    (ha : asDecimal num v = some a) :
    updateSum num st v =
      { (if st.sumDecStarted then
          match decAdd st.runningSumDec a with
          | some s => { st with runningSumDec := s }
          | none => { st with sumDecComplete := false }
        else { st with runningSumDec := a, sumDecStarted := true }) with
        sumSawDecimal := st.sumSawDecimal || isDecString v
        runningSum := num.add st.runningSum (num.ofDecimal a.unscaled a.scale)
        runningCount := st.runningCount + 1 } := by
  cases v with
  | int n =>
      unfold updateSum
      simp only [ha]
      cases st.sumDecStarted <;> cases decAdd st.runningSumDec a <;> rfl
  | decimal u s =>
      unfold updateSum
      simp only [ha]
      cases st.sumDecStarted <;> cases decAdd st.runningSumDec a <;> rfl
  | bool | double | string | composite => simp [numberOf] at hnumber

theorem retractSum_of_asDecimal {q : ℚ} (hnumber : numberOf v = some q)
    (ha : asDecimal num v = some a) :
    retractSum num st v =
      { (if st.sumDecStarted then
          match decSub st.runningSumDec a with
          | some s => { st with runningSumDec := s }
          | none => { st with sumDecComplete := false }
        else st) with
        runningSum := num.sub st.runningSum (num.ofDecimal a.unscaled a.scale)
        runningCount := st.runningCount - 1 } := by
  cases v with
  | int n =>
      unfold retractSum
      simp only [ha]
      cases st.sumDecStarted <;> cases decSub st.runningSumDec a <;> rfl
  | decimal u s =>
      unfold retractSum
      simp only [ha]
      cases st.sumDecStarted <;> cases decSub st.runningSumDec a <;> rfl
  | bool | double | string | composite => simp [numberOf] at hnumber

private theorem updateSum_sum (hfn : spec.fn = .sum) (h : ValueInv d spec seen live st)
    (hsub : ∀ w ∈ live, w ∈ seen) (hexact : Exact d spec (v ::ₘ seen) (v ::ₘ live)) :
    ValueInv d spec (v ::ₘ seen) (v ::ₘ live) (updateSum d.numerics st v) := by
  unfold ValueInv Exact at *
  simp only [hfn] at *
  obtain ⟨hcount, hcomplete, hidle, hstarted⟩ := h
  obtain ⟨hnumbers, hfits⟩ := hexact
  obtain ⟨a, ha, hrange, hq, hscale⟩ :=
    asDecimal_of_summable d.numerics (hnumbers v (Multiset.mem_cons_self v seen))
  rw [total_cons, hq, Option.getD_some, maxScale_cons] at hfits
  rw [updateSum_of_asDecimal hq ha]
  cases hst : st.sumDecStarted with
  | false =>
      -- The first number of the group is its sum.
      obtain rfl := hidle hst
      obtain rfl : live = 0 := by
        rw [Multiset.eq_zero_iff_forall_notMem]
        exact fun w hw => absurd (hsub w hw) (Multiset.notMem_zero w)
      refine ⟨?_, hcomplete, fun hfalse => absurd hfalse (by simp), fun _ => ⟨hrange, ?_, ?_⟩⟩
      · simp [hcount]
      · simp [hq, total]
      · simp [hscale, maxScale]
  | true =>
      obtain ⟨hsumRange, hsum, hsumScale⟩ := hstarted hst
      have hmax : max st.runningSumDec.scale a.scale = max (scaleOf v) (maxScale seen) := by
        rw [hsumScale, hscale, max_comm]
      have hadd : value st.runningSumDec + value a = value a + total live := by
        rw [hsum, add_comm]
      rw [← hmax, ← hadd] at hfits
      obtain ⟨c, hc, hcrange, hcvalue, hcscale⟩ := decAdd_of_fits hsumRange hrange hfits
      rw [hc]
      refine ⟨?_, hcomplete, fun hfalse => absurd hfalse (by simp), fun _ => ⟨hcrange, ?_, ?_⟩⟩
      · simp [hcount]
      · simp [hcvalue, hadd, hq]
      · simp [hcscale, hmax]

private theorem retractSum_sum (hfn : spec.fn = .sum) (h : ValueInv d spec seen (v ::ₘ live) st)
    (hmem : v ∈ seen) (hexact : Exact d spec (v ::ₘ seen) live) :
    ValueInv d spec (v ::ₘ seen) live (retractSum d.numerics st v) := by
  unfold ValueInv Exact at *
  simp only [hfn] at *
  obtain ⟨hcount, hcomplete, hidle, hstarted⟩ := h
  obtain ⟨hnumbers, hfits⟩ := hexact
  obtain ⟨a, ha, hrange, hq, hscale⟩ :=
    asDecimal_of_summable d.numerics (hnumbers v (Multiset.mem_cons_self v seen))
  rw [maxScale_cons] at hfits
  rw [retractSum_of_asDecimal hq ha]
  cases hst : st.sumDecStarted with
  | false =>
      rw [hidle hst] at hmem
      exact absurd hmem (Multiset.notMem_zero v)
  | true =>
      obtain ⟨hsumRange, hsum, hsumScale⟩ := hstarted hst
      rw [total_cons, hq, Option.getD_some] at hsum
      have hmax : max st.runningSumDec.scale a.scale = max (scaleOf v) (maxScale seen) := by
        rw [hsumScale, hscale, max_comm]
      have hsub : value st.runningSumDec - value a = total live := by
        rw [hsum, add_sub_cancel_left]
      rw [← hmax, ← hsub] at hfits
      obtain ⟨c, hc, hcrange, hcvalue, hcscale⟩ := decSub_of_fits hsumRange hrange hfits
      rw [hc]
      refine ⟨?_, hcomplete, fun hfalse => absurd hfalse (by simp), fun _ => ⟨hcrange, ?_, ?_⟩⟩
      · simp [hcount]
      · simp [hcvalue, hsub]
      · simp [hcscale, hmax]

private theorem updateSum_avg (hfn : spec.fn = .avg) (h : ValueInv d spec seen live st)
    (hexact : Exact d spec (v ::ₘ seen) (v ::ₘ live)) :
    ValueInv d spec (v ::ₘ seen) (v ::ₘ live) (updateSum d.numerics st v) := by
  unfold ValueInv Exact at *
  simp only [hfn] at *
  obtain ⟨hcount, hsum⟩ := h
  obtain ⟨hdoubles, hround⟩ := hexact
  obtain ⟨a, ha, hq, hdouble, -⟩ := hdoubles v (Multiset.mem_cons_self v seen)
  rw [updateSum_of_asDecimal hq ha]
  refine ⟨?_, ?_⟩
  · simp [hcount]
  · change d.round (st.runningSum + d.ofDecimal a.unscaled a.scale) = total (v ::ₘ live)
    rw [hsum, hdouble, ← hround, total_cons, hq, Option.getD_some, add_comm]

private theorem retractSum_avg (hfn : spec.fn = .avg) (h : ValueInv d spec seen (v ::ₘ live) st)
    (hexact : Exact d spec (v ::ₘ seen) live) :
    ValueInv d spec (v ::ₘ seen) live (retractSum d.numerics st v) := by
  unfold ValueInv Exact at *
  simp only [hfn] at *
  obtain ⟨hcount, hsum⟩ := h
  obtain ⟨hdoubles, hround⟩ := hexact
  obtain ⟨a, ha, hq, hdouble, -⟩ := hdoubles v (Multiset.mem_cons_self v seen)
  rw [retractSum_of_asDecimal hq ha]
  refine ⟨?_, ?_⟩
  · simp [hcount]
  · change d.round (st.runningSum - d.ofDecimal a.unscaled a.scale) = total live
    rw [hsum, hdouble, total_cons, hq, Option.getD_some, add_sub_cancel_left, hround]

private theorem updateVariance_inv {sample isStddev : Bool}
    (hfn : spec.fn = .variance sample isStddev)
    (h : ValueInv d spec seen live st) (hexact : Exact d spec (v ::ₘ seen) (v ::ₘ live)) :
    ValueInv d spec (v ::ₘ seen) (v ::ₘ live) (updateVariance d.numerics st v) := by
  unfold ValueInv Exact at *
  simp only [hfn] at *
  obtain ⟨hcount, hsum, hsumSq⟩ := h
  obtain ⟨hdoubles, hround, hroundSq⟩ := hexact
  obtain ⟨⟨a, -, hq, -, hdouble⟩, hsquare⟩ := hdoubles v (Multiset.mem_cons_self v seen)
  rw [hq, Option.getD_some] at hsquare
  unfold updateVariance
  rw [hdouble]
  refine ⟨?_, ?_, ?_⟩
  · simp [hcount]
  · change d.round (st.runningSum + value a) = total (v ::ₘ live)
    rw [hsum, ← hround, total_cons, hq, Option.getD_some, add_comm]
  · change d.round (st.runningSumSq + d.round (value a * value a)) = totalSq (v ::ₘ live)
    rw [← pow_two, hsquare, hsumSq, ← hroundSq, totalSq_cons, hq, Option.getD_some, add_comm]

private theorem retractVariance_inv {sample isStddev : Bool}
    (hfn : spec.fn = .variance sample isStddev) (h : ValueInv d spec seen (v ::ₘ live) st)
    (hexact : Exact d spec (v ::ₘ seen) live) :
    ValueInv d spec (v ::ₘ seen) live (retractVariance d.numerics st v) := by
  unfold ValueInv Exact at *
  simp only [hfn] at *
  obtain ⟨hcount, hsum, hsumSq⟩ := h
  obtain ⟨hdoubles, hround, hroundSq⟩ := hexact
  obtain ⟨⟨a, -, hq, -, hdouble⟩, hsquare⟩ := hdoubles v (Multiset.mem_cons_self v seen)
  rw [hq, Option.getD_some] at hsquare
  unfold retractVariance
  rw [hdouble]
  refine ⟨?_, ?_, ?_⟩
  · simp [hcount]
  · change d.round (st.runningSum - value a) = total live
    rw [hsum, total_cons, hq, Option.getD_some, add_sub_cancel_left, hround]
  · change d.round (st.runningSumSq - d.round (value a * value a)) = totalSq live
    rw [← pow_two, hsquare, hsumSq, totalSq_cons, hq, Option.getD_some, add_sub_cancel_left,
      hroundSq]

/-! ## One value -/

theorem comparesBy_text (s t : Text) : ComparesBy textLess id s t :=
  ⟨decide_eq_decide.mpr Iff.rfl, decide_eq_decide.mpr Iff.rfl⟩

private theorem map_eraseP_text (num : Numerics ℚ) (l : List (Datum ℚ)) (key : Text) :
    (((l.eraseP fun x => serialize num x == key).map (serialize num) : List Text) :
        Multiset Text) = ((l.map (serialize num) : List Text) : Multiset Text).erase key := by
  induction l with
  | nil => rfl
  | cons x l ih =>
      rw [List.map_cons, ← Multiset.cons_coe]
      by_cases h : serialize num x = key
      · rw [List.eraseP_cons_of_pos (by simpa using h), h, Multiset.erase_cons_head]
      · rw [List.eraseP_cons_of_neg (by simpa using h), List.map_cons, ← Multiset.cons_coe, ih,
          Multiset.erase_cons_tail _ h]

theorem ValueInv.update (hretracts : spec.fn = .min ∨ spec.fn = .max → spec.retractable = true)
    (h : ValueInv d spec seen live st)
    (hsub : ∀ w ∈ live, w ∈ seen) (hexact : Exact d spec (v ::ₘ seen) (v ::ₘ live)) :
    ValueInv d spec (v ::ₘ seen) (v ::ₘ live) (updateValue d.numerics st spec v) := by
  have htext : ∀ l : List (Text × Count),
      ∀ e ∈ l, ComparesBy textLess id e.1 (aggValueKey d.numerics v spec) :=
    fun l e _ => comparesBy_text _ _
  unfold updateValue
  cases hfn : spec.fn with
  | count =>
      unfold ValueInv at h ⊢
      simp only [hfn] at h ⊢
      cases hdistinct : spec.distinct with
      | true =>
          simp only [hdistinct, if_true] at h ⊢
          rw [Multiset.map_cons]
          exact h.added (htext _)
      | false =>
          simp only [hdistinct, Bool.false_eq_true, if_false] at h ⊢
          rw [h, Multiset.card_cons]
  | stringAgg =>
      unfold ValueInv at h ⊢
      simp only [hfn] at h ⊢
      rw [Multiset.map_cons]
      exact h.added (htext _)
  | percentile =>
      unfold ValueInv at h ⊢
      simp only [hfn] at h ⊢
      cases hnumber : asNumber d.numerics v with
      | none =>
          rw [Multiset.filterMap_cons_none v live hnumber]
          exact h
      | some x =>
          rw [Multiset.filterMap_cons_some _ v live hnumber, ← h, Multiset.cons_coe,
            Multiset.coe_eq_coe]
          exact List.perm_append_singleton x st.percentileValues
  | arrayAgg =>
      unfold ValueInv at h ⊢
      simp only [hfn] at h ⊢
      rw [Multiset.map_cons, ← h, Multiset.cons_coe, Multiset.coe_eq_coe, List.map_append]
      exact List.perm_append_singleton _ _
  | sum => exact updateSum_sum hfn h hsub hexact
  | avg => exact updateSum_avg hfn h hexact
  | variance sample isStddev => exact updateVariance_inv hfn h hexact
  | min | max =>
      unfold ValueInv Exact at *
      simp only [hfn] at h hexact ⊢
      obtain ⟨htally, hseen⟩ := h
      unfold updateExtreme
      rw [if_pos (hretracts (by simp [hfn]))]
      have hkeys : ∀ e ∈ st.minmaxCounts, e.1 ∈ v ::ₘ seen :=
        fun e he => Multiset.mem_cons_of_mem (hseen e he)
      refine ⟨htally.added fun e he => ?_, ?_⟩
      · exact hexact e.1 (hkeys e he) v (Multiset.mem_cons_self v seen)
      · exact forall_bump (P := fun x => x ∈ v ::ₘ seen) hkeys (Multiset.mem_cons_self v seen)

theorem ValueInv.retract (hretracts : spec.fn = .min ∨ spec.fn = .max → spec.retractable = true)
    (h : ValueInv d spec seen (v ::ₘ live) st) (hmem : v ∈ seen)
    (hexact : Exact d spec (v ::ₘ seen) live) (hcountable : Countable d spec (v ::ₘ live)) :
    ValueInv d spec (v ::ₘ seen) live (retractValue d.numerics st spec v) := by
  have htexts : (∀ t, holds (fun w => aggValueKey d.numerics w spec) (v ::ₘ live) t < 2 ^ 31) →
      Tallies id st.valueCounts ((v ::ₘ live).map fun w => aggValueKey d.numerics w spec) →
      Tallies id (unbump textLess (aggValueKey d.numerics v spec) st.valueCounts)
        (live.map fun w => aggValueKey d.numerics w spec) := by
    intro hfits htally
    rw [Multiset.map_cons] at htally
    refine htally.removed (fun e _ => comparesBy_text _ _) ?_
    rw [← Multiset.map_cons (fun w => aggValueKey d.numerics w spec), holds_map]
    have hbound := hfits (id (aggValueKey d.numerics v spec))
    omega
  unfold retractValue
  cases hfn : spec.fn with
  | count =>
      unfold ValueInv at h ⊢
      simp only [hfn] at h ⊢
      cases hdistinct : spec.distinct with
      | true =>
          simp only [Countable, hfn] at hcountable
          simp only [hdistinct, if_true] at h ⊢
          exact htexts (hcountable hdistinct) h
      | false =>
          simp only [hdistinct, Bool.false_eq_true, if_false] at h ⊢
          rw [h, Multiset.card_cons, Nat.add_sub_cancel]
  | stringAgg =>
      unfold ValueInv at h ⊢
      simp only [Countable, hfn] at h hcountable ⊢
      exact htexts hcountable h
  | percentile =>
      unfold ValueInv at h ⊢
      simp only [hfn] at h ⊢
      cases hnumber : asNumber d.numerics v with
      | none =>
          rw [Multiset.filterMap_cons_none v live hnumber] at h
          exact h
      | some x =>
          rw [Multiset.filterMap_cons_some _ v live hnumber] at h
          have herase : (st.percentileValues.eraseP fun y => d.numerics.equal y x) =
              st.percentileValues.erase x := by
            rw [List.erase_eq_eraseP']
            rfl
          simp only
          rw [herase, ← Multiset.coe_erase, h, Multiset.erase_cons_head]
  | arrayAgg =>
      unfold ValueInv at h ⊢
      simp only [hfn] at h ⊢
      rw [map_eraseP_text, h, Multiset.map_cons, Multiset.erase_cons_head]
  | sum => exact retractSum_sum hfn h hmem hexact
  | avg => exact retractSum_avg hfn h hexact
  | variance sample isStddev => exact retractVariance_inv hfn h hexact
  | min | max =>
      unfold ValueInv Exact Countable at *
      simp only [hfn] at h hexact hcountable ⊢
      obtain ⟨htally, hseen⟩ := h
      have hretractable := hretracts (by simp [hfn])
      rw [if_pos hretractable]
      have hkeys : ∀ e ∈ st.minmaxCounts, e.1 ∈ v ::ₘ seen :=
        fun e he => Multiset.mem_cons_of_mem (hseen e he)
      have hcompares : ∀ e ∈ st.minmaxCounts, ComparesBy (jsonValueLess d.numerics) sqlKey e.1 v :=
        fun e he => hexact e.1 (hkeys e he) v (Multiset.mem_cons_self v seen)
      have hbound := hcountable hretractable (sqlKey v)
      exact ⟨htally.removed hcompares (by omega),
        forall_unbump (P := fun x => x ∈ v ::ₘ seen) hkeys⟩

/-! ## Results -/

/-- What tells apart at least as much takes at least as many values. -/
theorem card_image_le_of_eq {α β γ : Type*} [DecidableEq β] [DecidableEq γ] {f : α → β}
    {g : α → γ} {s : Finset α} (h : ∀ x ∈ s, ∀ y ∈ s, f x = f y → g x = g y) :
    (s.image g).card ≤ (s.image f).card := by
  have hrep : ∀ u : s.image g, ∃ x ∈ s, g x = u := fun u => Finset.mem_image.mp u.2
  choose rep hmem hval using hrep
  have hinj : Function.Injective fun u : s.image g =>
      (⟨f (rep u), Finset.mem_image_of_mem f (hmem u)⟩ : s.image f) := by
    intro u u' heq
    apply Subtype.ext
    rw [← hval u, ← hval u']
    exact h _ (hmem u) _ (hmem u') (congrArg Subtype.val heq)
  exact Finset.card_le_card_of_injective hinj

/-- The texts COUNT(DISTINCT) keeps are as many as the values SQL tells apart. -/
theorem card_keys (htext : PrintsDecimals d.toText) (hfn : spec.fn ≠ .stringAgg)
    (hplain : ∀ w ∈ live, w.Plain) :
    (live.map fun w => aggValueKey d.numerics w spec).toFinset.card =
      (live.map sqlKey).toFinset.card := by
  have hkey : ∀ w ∈ live.toFinset, ∀ w' ∈ live.toFinset,
      aggValueKey d.numerics w spec = aggValueKey d.numerics w' spec ↔ sqlKey w = sqlKey w' := by
    intro w hw w' hw'
    have hplainw := hplain w (Multiset.mem_toFinset.mp hw)
    have hplainw' := hplain w' (Multiset.mem_toFinset.mp hw')
    exact aggValueKey_eq_iff htext hfn hplainw hplainw'
  rw [Multiset.toFinset_map, Multiset.toFinset_map]
  apply le_antisymm
  · exact card_image_le_of_eq fun w hw w' hw' heq => (hkey w hw w' hw').mpr heq
  · exact card_image_le_of_eq fun w hw w' hw' heq => (hkey w hw w' hw').mp heq

theorem mem_dedupByText (num : Numerics ℚ) (t : Text) (l : List (Datum ℚ))
    (seen : List Text) :
    t ∈ (dedupByText num l seen).map (serialize num) ↔
      t ∈ l.map (serialize num) ∧ t ∉ seen := by
  induction l generalizing seen with
  | nil => simp [dedupByText]
  | cons v l ih =>
      rw [dedupByText]
      split
      · rename_i hmem
        rw [ih, List.map_cons, List.mem_cons]
        constructor
        · rintro ⟨hl, hseen⟩
          exact ⟨Or.inr hl, hseen⟩
        · rintro ⟨heq | hl, hseen⟩
          · exact absurd (heq ▸ List.contains_iff_mem.mp hmem) hseen
          · exact ⟨hl, hseen⟩
      · rename_i hnew
        rw [List.map_cons, List.mem_cons, ih, List.map_cons, List.mem_cons, List.mem_cons]
        by_cases heq : t = serialize num v
        · subst heq
          simpa using fun hmem => hnew (List.contains_iff_mem.mpr hmem)
        · simp [heq]

private theorem nodup_dedupByText (num : Numerics ℚ) (l : List (Datum ℚ)) (seen : List Text) :
    ((dedupByText num l seen).map (serialize num)).Nodup := by
  induction l generalizing seen with
  | nil => simp [dedupByText]
  | cons v l ih =>
      rw [dedupByText]
      split
      · exact ih seen
      · rw [List.map_cons, List.nodup_cons]
        refine ⟨?_, ih _⟩
        rw [mem_dedupByText]
        simp

private theorem coe_dedupByText (num : Numerics ℚ) (l : List (Datum ℚ)) :
    (((dedupByText num l []).map (serialize num) : List Text) : Multiset Text) =
      ((l.map (serialize num) : List Text) : Multiset Text).dedup := by
  rw [Multiset.Nodup.ext (Multiset.coe_nodup.mpr (nodup_dedupByText num l []))
    (Multiset.nodup_dedup _)]
  intro t
  rw [Multiset.mem_coe, mem_dedupByText, Multiset.mem_dedup, Multiset.mem_coe]
  simp

private theorem finalize_sum (hfn : spec.fn = .sum) (h : ValueInv d spec seen live st)
    (hsub : ∀ w ∈ live, w ∈ seen) :
    IsAggregate d.numerics spec live (finalizeAgg d.numerics st spec) := by
  unfold ValueInv at h
  unfold IsAggregate finalizeAgg
  simp only [hfn] at h ⊢
  obtain ⟨hcount, hcomplete, hidle, hstarted⟩ := h
  by_cases hlive : live = 0
  · simp [hlive, hcount]
  · rw [if_neg hlive, if_neg (by rw [hcount]; exact (Multiset.card_pos.mpr hlive).ne')]
    have hst : st.sumDecStarted = true := by
      cases hst : st.sumDecStarted with
      | true => rfl
      | false =>
          obtain ⟨w, hw⟩ := Multiset.exists_mem_of_ne_zero hlive
          have hmem := hsub w hw
          rw [hidle hst] at hmem
          exact absurd hmem (Multiset.notMem_zero w)
    obtain ⟨-, hvalue, -⟩ := hstarted hst
    have hnumber : numberOf (.decimal st.runningSumDec.unscaled st.runningSumDec.scale : Datum ℚ) =
        some (total live) := congrArg some hvalue
    unfold finalizeSum
    simp only [hst, hcomplete, Bool.and_self, if_true]
    split
    · exact ⟨_, rfl, hnumber⟩
    · cases hint : decToInt64 st.runningSumDec with
      | none => exact ⟨_, rfl, hnumber⟩
      | some i =>
          refine ⟨_, rfl, ?_⟩
          rw [← hvalue]
          unfold decToInt64 at hint
          split at hint
          · exact absurd hint (by simp)
          · rename_i hscale
            split at hint
            · obtain rfl : st.runningSumDec.unscaled = i := Option.some.inj hint
              simp only [numberOf, value, not_not.mp hscale, pow_zero, div_one]
            · exact absurd hint (by simp)

private theorem filterMap_asNumber (h : ∀ w ∈ live, isDecString w = false) :
    live.filterMap (aggNumericDouble num) = live.filterMap (asNumber num) := by
  induction live using Multiset.induction_on with
  | empty => rfl
  | cons w live ih =>
      have hhead : aggNumericDouble num w = asNumber num w := by
        have hdec := h w (Multiset.mem_cons_self w live)
        cases w with
        | decimal => simp [isDecString] at hdec
        | bool | int | double | string | composite => rfl
      rw [Multiset.filterMap_cons, Multiset.filterMap_cons, hhead,
        ih fun w' hw' => h w' (Multiset.mem_cons_of_mem hw')]

private theorem finalize_percentile (hfn : spec.fn = .percentile)
    (h : ValueInv d spec seen live st) (hsub : ∀ w ∈ live, w ∈ seen)
    (hexact : Exact d spec seen live) :
    IsAggregate d.numerics spec live (finalizeAgg d.numerics st spec) := by
  unfold ValueInv at h
  unfold Exact at hexact
  unfold IsAggregate finalizeAgg
  simp only [hfn] at h hexact ⊢
  rw [← filterMap_asNumber fun w hw => hexact w (hsub w hw)] at h
  have hsort : (st.percentileValues.mergeSort fun a b => !d.numerics.less b a) =
      (live.filterMap (aggNumericDouble d.numerics)).sort (· ≤ ·) := by
    rw [← h, Multiset.coe_sort]
    congr 1
    funext a b
    change (!decide (b < a)) = decide (a ≤ b)
    rw [← decide_not]
    exact decide_eq_decide.mpr not_lt
  by_cases hnil : st.percentileValues = []
  · rw [if_pos hnil, if_pos (by rw [← h, hnil]; rfl)]
  · rw [if_neg hnil, if_neg (by rw [← h, Multiset.coe_eq_zero]; exact hnil), hsort]

private theorem finalize_count (htext : PrintsDecimals d.toText) (hfn : spec.fn = .count)
    (h : ValueInv d spec seen live st) (hplain : spec.distinct = true → ∀ w ∈ live, w.Plain) :
    IsAggregate d.numerics spec live (finalizeAgg d.numerics st spec) := by
  unfold ValueInv at h
  unfold IsAggregate finalizeAgg
  simp only [hfn] at h ⊢
  cases hdistinct : spec.distinct with
  | true =>
      simp only [hdistinct, if_true] at h ⊢
      have hnotList : spec.fn ≠ .stringAgg := by simp [hfn]
      have hkeys := card_keys htext hnotList (hplain hdistinct)
      have hlength : st.valueCounts.length = (live.map sqlKey).toFinset.card := by
        rw [← hkeys, h.length_eq, Multiset.map_id]
        congr!
      rw [hlength]
  | false =>
      simp only [hdistinct, Bool.false_eq_true, if_false] at h ⊢
      rw [h]

private theorem finalize_stringAgg (hfn : spec.fn = .stringAgg)
    (h : ValueInv d spec seen live st) (hcountable : Countable d spec live) :
    IsAggregate d.numerics spec live (finalizeAgg d.numerics st spec) := by
  unfold ValueInv Countable at *
  unfold IsAggregate finalizeAgg
  simp only [hfn] at h hcountable ⊢
  have hnil : st.valueCounts = [] ↔ live = 0 := by rw [h.nil_iff, Multiset.map_eq_zero]
  by_cases hlive : live = 0
  · rw [if_pos hlive, if_pos (hnil.mpr hlive)]
  · rw [if_neg hlive, if_neg (mt hnil.mp hlive)]
    cases hdistinct : spec.distinct with
    | true =>
        have hkeys : (st.valueCounts.flatMap fun e => [e.1]) =
            (live.map fun v => aggValueKey d.numerics v spec).dedup.sort (· ≤ ·) := by
          rw [← List.map_eq_flatMap, h.keys_eq]
          congr!
        simp only [if_true, List.replicate_one, hkeys]
    | false =>
        simp only [Bool.false_eq_true, if_false]
        rw [h.expand fun t => by
          rw [holds_map]
          have hbound := hcountable t
          omega]

private theorem finalize_arrayAgg (hfn : spec.fn = .arrayAgg) (h : ValueInv d spec seen live st) :
    IsAggregate d.numerics spec live (finalizeAgg d.numerics st spec) := by
  unfold ValueInv at h
  unfold IsAggregate finalizeAgg
  simp only [hfn] at h ⊢
  have hnil : st.arrayValues = [] ↔ live = 0 := by
    rw [← Multiset.map_eq_zero (f := serialize d.numerics), ← h, Multiset.coe_eq_zero,
      List.map_eq_nil_iff]
  by_cases hlive : live = 0
  · rw [if_pos hlive, if_pos (hnil.mpr hlive)]
  · rw [if_neg hlive, if_neg (mt hnil.mp hlive)]
    cases hdistinct : spec.distinct with
    | true =>
        refine ⟨_, rfl, ?_⟩
        rw [if_pos rfl, coe_dedupByText, h]
    | false =>
        refine ⟨_, rfl, ?_⟩
        rw [if_neg (by simp), h]

/-- Of the live values the state says what SQL asks for. -/
theorem ValueInv.finalize (htext : PrintsDecimals d.toText)
    (hretracts : spec.fn = .min ∨ spec.fn = .max → spec.retractable = true)
    (h : ValueInv d spec seen live st) (hsub : ∀ w ∈ live, w ∈ seen)
    (hplain : spec.distinct = true → ∀ w ∈ live, w.Plain)
    (hexact : Exact d spec seen live) (hcountable : Countable d spec live) :
    IsAggregate d.numerics spec live (finalizeAgg d.numerics st spec) := by
  cases hfn : spec.fn with
  | sum => exact finalize_sum hfn h hsub
  | count => exact finalize_count htext hfn h hplain
  | stringAgg => exact finalize_stringAgg hfn h hcountable
  | percentile => exact finalize_percentile hfn h hsub hexact
  | arrayAgg => exact finalize_arrayAgg hfn h
  | avg =>
      unfold ValueInv at h
      unfold IsAggregate finalizeAgg
      simp only [hfn] at h ⊢
      rw [h.1, h.2]
      by_cases hlive : live = 0
      · rw [if_pos hlive, if_pos (Multiset.card_eq_zero.mpr hlive)]
      · rw [if_neg hlive, if_neg (mt Multiset.card_eq_zero.mp hlive)]
  | variance sample isStddev =>
      unfold ValueInv at h
      unfold IsAggregate finalizeAgg
      simp only [hfn] at h ⊢
      rw [h.1, h.2.1, h.2.2]
      have hnull : (live.card = 0 ∨ sample = true ∧ live.card < 2) ↔
          (live = 0 ∨ sample = true ∧ live.card < 2) :=
        or_congr_left Multiset.card_eq_zero
      by_cases hlive : live = 0 ∨ sample = true ∧ live.card < 2
      · rw [if_pos hlive, if_pos (hnull.mpr hlive)]
      · rw [if_neg hlive, if_neg (mt hnull.mp hlive)]
  | min =>
      have hretractable := hretracts (.inl hfn)
      unfold ValueInv at h
      unfold IsAggregate finalizeAgg
      simp only [hfn, hretractable, if_true] at h ⊢
      cases hhead : st.minmaxCounts.head? with
      | none =>
          rw [if_pos (h.1.nil_iff.mp (List.head?_eq_none_iff.mp hhead))]
          rfl
      | some e =>
          have hlive : live ≠ 0 := by
            intro hzero
            rw [h.1.nil_iff.mpr hzero] at hhead
            simp at hhead
          rw [if_neg hlive]
          exact ⟨e.1, rfl, h.1.head hhead⟩
  | max =>
      have hretractable := hretracts (.inr hfn)
      unfold ValueInv at h
      unfold IsAggregate finalizeAgg
      simp only [hfn, hretractable, if_true] at h ⊢
      cases hlast : st.minmaxCounts.getLast? with
      | none =>
          rw [if_pos (h.1.nil_iff.mp (List.getLast?_eq_none_iff.mp hlast))]
          rfl
      | some e =>
          have hlive : live ≠ 0 := by
            intro hzero
            rw [h.1.nil_iff.mpr hzero] at hlast
            simp at hlast
          rw [if_neg hlive]
          exact ⟨e.1, rfl, h.1.last hlast⟩

end Clink.Ports.SqlAggregate

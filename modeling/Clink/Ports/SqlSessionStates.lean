import Clink.Ports.SqlAggregateExact
import Clink.Ports.SqlSessions

/-!
# Merged aggregates

What the state of an aggregate says of the values it has taken in (`StateInv`)
does not depend on how they came: it is kept by an update, and `merge_into`
gives it for the values of both sessions.  Two states of the same values have
the same result.
-/

namespace Clink.Ports.SessionWindowRow

open Clink.Verified
open Clink.Ports.FixedPoint (value decAdd maxDecimalPrecision)
open Clink.Ports.SqlRow
open Clink.Ports.SqlValue
open Clink.Ports.SqlAggregate
open Clink.Ports.AggregateRow

/-- COUNT, COUNT(DISTINCT), SUM, MIN, MAX and STRING_AGG. -/
structure MergeableSpec (spec : AggSpec ℚ) : Prop extends ExactSpec spec where
  notArray : spec.fn ≠ .arrayAgg

/-- The numbers are of one column, and no part of them has a sum that leaves 38
digits. -/
structure Sound (column : TypedColumn) (spec : AggSpec ℚ) (values : Multiset (Datum ℚ)) : Prop where
  typed : spec.fn = .sum ∨ spec.fn = .min ∨ spec.fn = .max → ∀ v ∈ values, v ∈ column.values
  fits : spec.fn = .sum → ∀ part ≤ values,
    |total part| * 10 ^ column.type.scale < 10 ^ maxDecimalPrecision

/-- MIN and MAX that keep one value. -/
def AppendOnly (spec : AggSpec ℚ) : Prop :=
  (spec.fn = .min ∨ spec.fn = .max) ∧ spec.retractable = false

/-- What a state says of the values it has taken in. -/
structure StateInv (d : Doubles) (spec : AggSpec ℚ) (values : Multiset (Datum ℚ))
    (st : AggState ℚ) : Prop where
  value : ¬ AppendOnly spec → ValueInv d spec values values st
  running : AppendOnly spec → RunningInv (decide (spec.fn = .min)) values st
  sawDecimal : spec.fn = .sum →
    (st.sumSawDecimal = true ↔ ∃ v ∈ values, isDecString v = true)

variable {d : Arithmetic} {column : TypedColumn} {spec : AggSpec ℚ}
  {values values' : Multiset (Datum ℚ)} {st st' a b : AggState ℚ} {v : Datum ℚ}

theorem Sound.mono (h : Sound column spec values) (hle : values' ≤ values) :
    Sound column spec values' :=
  ⟨fun hfn w hw => h.typed hfn w (Multiset.mem_of_le hle hw),
    fun hsum part hpart => h.fits hsum part (hpart.trans hle)⟩

theorem retractable_of_not_appendOnly (h : ¬ AppendOnly spec) :
    spec.fn = .min ∨ spec.fn = .max → spec.retractable = true := by
  intro hextreme
  cases hretractable : spec.retractable with
  | true => rfl
  | false => exact absurd ⟨hextreme, hretractable⟩ h

theorem MergeableSpec.cases (hspec : MergeableSpec spec) :
    spec.fn = .count ∨ spec.fn = .sum ∨ spec.fn = .min ∨ spec.fn = .max ∨ spec.fn = .stringAgg := by
  rcases hspec.fn with h | h | h | h | h | h
  · exact .inl h
  · exact .inr (.inl h)
  · exact .inr (.inr (.inl h))
  · exact .inr (.inr (.inr (.inl h)))
  · exact .inr (.inr (.inr (.inr h)))
  · exact absurd h hspec.notArray

theorem Sound.exact (h : Sound column spec values) (hspec : MergeableSpec spec)
    (hdistinguishes : spec.fn = .min ∨ spec.fn = .max → column.Distinguishes) :
    Exact d.toDoubles spec values values := by
  have hnumbers : spec.fn = .sum ∨ spec.fn = .min ∨ spec.fn = .max →
      Exact d.toDoubles spec values values := fun hfn =>
    exact_of_column hspec.toExactSpec hdistinguishes (fun _ => h.typed hfn)
      fun hsum => h.fits hsum values le_rfl
  rcases hspec.cases with hfn | hfn | hfn | hfn | hfn
  · unfold Exact
    rw [hfn]
    trivial
  · exact hnumbers (.inl hfn)
  · exact hnumbers (.inr (.inl hfn))
  · exact hnumbers (.inr (.inr hfn))
  · unfold Exact
    rw [hfn]
    trivial

theorem StateInv.empty (d : Doubles) (spec : AggSpec ℚ) :
    StateInv d spec 0 (emptyState d.numerics) where
  value _ := valueInv_empty d spec
  running _ := by
    refine ⟨fun _ => ⟨rfl, ?_⟩, fun hnonzero => absurd rfl hnonzero⟩
    unfold SqlAggregate.running
    split <;> rfl
  sawDecimal _ := by simp [emptyState]

/-! ## An update -/

theorem updateSum_sawDecimal (hnumber : Summable v) :
    (updateSum d.numerics st v).sumSawDecimal = (st.sumSawDecimal || isDecString v) := by
  unfold updateSum
  cases v with
  | int n | decimal unscaled scale =>
      simp only [asDecimal]
      split
      · split <;> rfl
      · rfl
  | bool | double | string | composite => exact hnumber.elim

theorem StateInv.update (hspec : MergeableSpec spec)
    (hdistinguishes : spec.fn = .min ∨ spec.fn = .max → column.Distinguishes)
    (hsound : Sound column spec (v ::ₘ values)) (h : StateInv d.toDoubles spec values st) :
    StateInv d.toDoubles spec (v ::ₘ values) (updateValue d.numerics st spec v) where
  value hretracts :=
    (h.value hretracts).update (retractable_of_not_appendOnly hretracts) (fun w hw => hw)
      (hsound.exact hspec hdistinguishes)
  running happend := by
    have hcolumn := hsound.typed (.inr happend.1)
    have hstep := (h.running happend).update (d := d) (hdistinguishes happend.1)
      (fun w hw => hcolumn w (Multiset.mem_cons_of_mem hw))
      (hcolumn v (Multiset.mem_cons_self v values))
    unfold updateValue
    rcases happend with ⟨hfn | hfn, hretractable⟩
    · rw [hfn] at hstep
      simp only [hfn, hretractable]
      exact hstep
    · rw [hfn] at hstep
      simp only [hfn, hretractable]
      exact hstep
  sawDecimal hsum := by
    have hexact := hsound.exact (d := d) hspec hdistinguishes
    unfold Exact at hexact
    simp only [hsum] at hexact
    unfold updateValue
    simp only [hsum]
    rw [updateSum_sawDecimal (hexact.1 v (Multiset.mem_cons_self v values)), Bool.or_eq_true,
      h.sawDecimal hsum]
    simp [or_comm]

/-! ## A merge -/

theorem mergeSum_frame (a b : AggState ℚ) :
    ∃ dec started complete, mergeSum a b =
      { a with
        runningSumDec := dec
        sumDecStarted := started
        sumDecComplete := complete
        sumSawDecimal := a.sumSawDecimal || b.sumSawDecimal } := by
  unfold mergeSum
  split
  · split
    · split
      · exact ⟨_, _, _, rfl⟩
      · exact ⟨_, _, _, rfl⟩
    · exact ⟨_, _, _, rfl⟩
  · exact ⟨_, _, _, rfl⟩

private theorem mergeExtreme_frame (num : Numerics ℚ) (isMin : Bool) (a b : AggState ℚ) :
    ∃ least greatest initialised, mergeExtreme num isMin a b =
      { a with runningMin := least, runningMax := greatest, initialised := initialised } := by
  unfold mergeExtreme
  cases isMin with
  | true | false =>
      simp only [if_true, Bool.false_eq_true, if_false]
      split
      · exact ⟨_, _, _, rfl⟩
      · split
        · exact ⟨_, _, _, rfl⟩
        · exact ⟨_, _, _, rfl⟩

theorem mergeState_counts (num : Numerics ℚ) (spec : AggSpec ℚ) (a b : AggState ℚ) :
    (mergeState num spec a b).runningCount = a.runningCount + b.runningCount ∧
      (mergeState num spec a b).valueCounts = addCounts textLess a.valueCounts b.valueCounts ∧
      (mergeState num spec a b).minmaxCounts =
        addCounts (jsonValueLess num) a.minmaxCounts b.minmaxCounts := by
  obtain ⟨dec, started, complete, hsum⟩ := mergeSum_frame { a with
    runningSum := num.add a.runningSum b.runningSum
    runningSumSq := num.add a.runningSumSq b.runningSumSq
    runningCount := a.runningCount + b.runningCount } b
  have hextreme : ∀ isMin, ∀ st : AggState ℚ,
      (mergeExtreme num isMin st b).runningCount = st.runningCount ∧
        (mergeExtreme num isMin st b).valueCounts = st.valueCounts ∧
        (mergeExtreme num isMin st b).minmaxCounts = st.minmaxCounts := by
    intro isMin st
    obtain ⟨_, _, _, heq⟩ := mergeExtreme_frame num isMin st b
    rw [heq]
    exact ⟨rfl, rfl, rfl⟩
  unfold mergeState
  dsimp only
  rw [hsum]
  cases spec.fn with
  | min => exact hextreme true _
  | max => exact hextreme false _
  | _ => exact ⟨rfl, rfl, rfl⟩

theorem total_add (values values' : Multiset (Datum ℚ)) :
    total (values + values') = total values + total values' := by
  simp [total]

theorem maxScale_add (values values' : Multiset (Datum ℚ)) :
    maxScale (values + values') = max (maxScale values) (maxScale values') := by
  simp [maxScale]

private theorem mergeSum_value (hfn : spec.fn = .sum)
    (hexact : Exact d.toDoubles spec (values + values') (values + values'))
    (ha : ValueInv d.toDoubles spec values values a)
    (hb : ValueInv d.toDoubles spec values' values' b) :
    (mergeSum a b).sumDecComplete = true ∧
      ((mergeSum a b).sumDecStarted = false → values + values' = 0) ∧
      ((mergeSum a b).sumDecStarted = true →
        FixedPoint.InRange (mergeSum a b).runningSumDec ∧
          value (mergeSum a b).runningSumDec = total (values + values') ∧
          (mergeSum a b).runningSumDec.scale = maxScale (values + values')) := by
  unfold ValueInv Exact at *
  simp only [hfn] at ha hb hexact
  obtain ⟨-, hcomplete, hidle, hstarted⟩ := ha
  obtain ⟨-, hcomplete', hidle', hstarted'⟩ := hb
  unfold mergeSum
  cases hb : b.sumDecStarted with
  | false =>
      obtain rfl := hidle' hb
      simp only [Bool.false_eq_true, if_false, hcomplete, hcomplete', add_zero]
      exact ⟨rfl, hidle, hstarted⟩
  | true =>
      obtain ⟨hrange', hvalue', hscale'⟩ := hstarted' hb
      cases ha : a.sumDecStarted with
      | false =>
          obtain rfl := hidle ha
          simp only [if_true, Bool.false_eq_true, if_false, hcomplete, hcomplete', zero_add]
          exact ⟨rfl, fun h => (nomatch h), fun _ => ⟨hrange', hvalue', hscale'⟩⟩
      | true =>
          obtain ⟨hrange, hvalue, hscale⟩ := hstarted ha
          have hfits := hexact.2
          rw [total_add, maxScale_add, ← hvalue, ← hvalue', ← hscale, ← hscale'] at hfits
          obtain ⟨c, hadd, hcrange, hsum, hmax⟩ := decAdd_of_fits hrange hrange' hfits
          simp only [if_true, hadd, hcomplete, hcomplete']
          refine ⟨rfl, fun h => (nomatch h), fun _ => ?_⟩
          rw [total_add, maxScale_add, ← hvalue, ← hvalue', ← hscale, ← hscale']
          exact ⟨hcrange, hsum, hmax⟩

/-- The running extreme of the other state is taken where there was none, or
where it replaces that of the first. -/
theorem mergeExtreme_cases (num : Numerics ℚ) (isMin : Bool) (a b : AggState ℚ) :
    (a.initialised = false → (mergeExtreme num isMin a b).initialised = b.initialised ∧
      running isMin (mergeExtreme num isMin a b) = running isMin b) ∧
    (a.initialised = true → ∀ u w, running isMin a = some u → running isMin b = some w →
      b.initialised = true → replaces num isMin w u = true →
        (mergeExtreme num isMin a b).initialised = true ∧
          running isMin (mergeExtreme num isMin a b) = some w) ∧
    (a.initialised = true → b.initialised = false → mergeExtreme num isMin a b = a) ∧
    (a.initialised = true → ∀ u w, running isMin a = some u → running isMin b = some w →
      replaces num isMin w u = false → mergeExtreme num isMin a b = a) := by
  unfold mergeExtreme running
  cases isMin with
  | true | false =>
      simp only [if_true, Bool.false_eq_true, if_false]
      refine ⟨fun ha => ?_, fun ha u w hu hw hb hreplaces => ?_, fun ha hb => ?_,
        fun ha u w hu hw hkept => ?_⟩
      · simp [ha]
      · simp [ha, hb, hu, hw, hreplaces]
      · simp [ha, hb]
      · simp [ha, hu, hw, hkept]

theorem RunningInv.congr {isMin : Bool} (h : RunningInv isMin values st)
    (hinitialised : st'.initialised = st.initialised)
    (hrunning : running isMin st' = running isMin st) :
    RunningInv isMin values st' := by
  obtain ⟨hidle, hextreme⟩ := h
  rw [← hinitialised, ← hrunning] at hidle hextreme
  exact ⟨hidle, hextreme⟩

theorem RunningInv.merge {isMin : Bool} (hdistinguishes : column.Distinguishes)
    (hvalues : ∀ w ∈ values + values', w ∈ column.values) (ha : RunningInv isMin values a)
    (hb : RunningInv isMin values' b) :
    RunningInv isMin (values + values') (mergeExtreme d.numerics isMin a b) := by
  obtain ⟨htheirs, htaken, hours, hkept⟩ := mergeExtreme_cases d.numerics isMin a b
  by_cases hzero : values = 0
  · obtain ⟨hinitialised, hrunning⟩ := htheirs (ha.idle hzero).1
    rw [hzero, zero_add]
    exact RunningInv.congr hb hinitialised hrunning
  obtain ⟨hinitialised, u, hu, hmem, hreach⟩ := ha.extreme hzero
  by_cases hzero' : values' = 0
  · rw [hours hinitialised (hb.idle hzero').1, hzero', add_zero]
    exact ha
  obtain ⟨hinitialised', w, hw, hmem', hreach'⟩ := hb.extreme hzero'
  have hmemu : u ∈ values + values' := Multiset.mem_add.mpr (.inl hmem)
  have hmemw : w ∈ values + values' := Multiset.mem_add.mpr (.inr hmem')
  refine ⟨fun hnone => ?_, fun _ => ?_⟩
  · rw [hnone] at hmemu
    exact absurd hmemu (Multiset.notMem_zero u)
  rcases replaces_cases (d := d) isMin hdistinguishes (hvalues w hmemw) (hvalues u hmemu) with
    ⟨hreplaces, hwu⟩ | ⟨hkeeps, huw⟩
  · obtain ⟨hnow, hsome⟩ := htaken hinitialised u w hu hw hinitialised' hreplaces
    refine ⟨hnow, w, hsome, hmemw, fun x hx => ?_⟩
    rcases Multiset.mem_add.mp hx with hx | hx
    · exact hwu.trans (hreach x hx)
    · exact hreach' x hx
  · rw [hkept hinitialised u w hu hw hkeeps]
    refine ⟨hinitialised, u, hu, hmemu, fun x hx => ?_⟩
    rcases Multiset.mem_add.mp hx with hx | hx
    · exact hreach x hx
    · exact huw.trans (hreach' x hx)

/-- The rest of `merge_into` for an aggregate that has no running extreme. -/
theorem mergeState_sums (hfn : spec.fn = .sum) (num : Numerics ℚ) (a b : AggState ℚ) :
    (mergeState num spec a b).sumDecComplete = (mergeSum a b).sumDecComplete ∧
      (mergeState num spec a b).sumDecStarted = (mergeSum a b).sumDecStarted ∧
      (mergeState num spec a b).runningSumDec = (mergeSum a b).runningSumDec ∧
      (mergeState num spec a b).sumSawDecimal = (a.sumSawDecimal || b.sumSawDecimal) := by
  unfold mergeState mergeSum
  simp only [hfn]
  cases b.sumDecStarted with
  | false => exact ⟨rfl, rfl, rfl, rfl⟩
  | true =>
      cases a.sumDecStarted with
      | false => exact ⟨rfl, rfl, rfl, rfl⟩
      | true => cases decAdd a.runningSumDec b.runningSumDec <;> simp

theorem mergeState_extreme (isMin : Bool) (hfn : spec.fn = if isMin then .min else .max)
    (num : Numerics ℚ) (a b : AggState ℚ) :
    ∃ a' : AggState ℚ, a'.initialised = a.initialised ∧ running isMin a' = running isMin a ∧
      mergeState num spec a b = mergeExtreme num isMin a' b := by
  obtain ⟨dec, started, complete, hsum⟩ := mergeSum_frame { a with
    runningSum := num.add a.runningSum b.runningSum
    runningSumSq := num.add a.runningSumSq b.runningSumSq
    runningCount := a.runningCount + b.runningCount } b
  unfold mergeState
  dsimp only
  rw [hsum, hfn]
  cases isMin with
  | true | false =>
      refine ⟨_, ?_, ?_, rfl⟩
      · rfl
      · rfl

theorem merged_texts {texts texts' : Multiset Text} (h : Tallies id a.valueCounts texts)
    (h' : Tallies id b.valueCounts texts') :
    Tallies id (addCounts textLess a.valueCounts b.valueCounts) (texts + texts') :=
  h.merged (P := fun _ => True) (fun s t _ _ => comparesBy_text s t) h' (fun _ _ => trivial)
    fun _ _ => trivial

theorem merged_extremes
    (hcompares : ∀ v ∈ values + values', ∀ w ∈ values + values',
      ComparesBy (jsonValueLess d.numerics) sqlKey v w)
    (h : Tallies sqlKey a.minmaxCounts values ∧ ∀ e ∈ a.minmaxCounts, e.1 ∈ values)
    (h' : Tallies sqlKey b.minmaxCounts values' ∧ ∀ e ∈ b.minmaxCounts, e.1 ∈ values') :
    Tallies sqlKey (addCounts (jsonValueLess d.numerics) a.minmaxCounts b.minmaxCounts)
        (values + values') ∧
      ∀ e ∈ addCounts (jsonValueLess d.numerics) a.minmaxCounts b.minmaxCounts,
        e.1 ∈ values + values' := by
  have hleft : ∀ e ∈ a.minmaxCounts, e.1 ∈ values + values' :=
    fun e he => Multiset.mem_add.mpr (.inl (h.2 e he))
  have hright : ∀ e ∈ b.minmaxCounts, e.1 ∈ values + values' :=
    fun e he => Multiset.mem_add.mpr (.inr (h'.2 e he))
  refine ⟨?_, forall_addCounts (P := fun v => v ∈ values + values') hleft hright⟩
  exact h.1.merged (P := fun v => v ∈ values + values') (fun v w hv hw => hcompares v hv w hw)
    h'.1 hleft hright

/-- `merge_into` takes the states of two sessions to that of the values of both. -/
theorem StateInv.merge (hspec : MergeableSpec spec)
    (hdistinguishes : spec.fn = .min ∨ spec.fn = .max → column.Distinguishes)
    (hsound : Sound column spec (values + values')) (ha : StateInv d.toDoubles spec values a)
    (hb : StateInv d.toDoubles spec values' b) :
    StateInv d.toDoubles spec (values + values') (mergeState d.numerics spec a b) where
  value hretracts := by
    have hvalue := ha.value hretracts
    have hvalue' := hb.value hretracts
    have hexact := hsound.exact (d := d) hspec hdistinguishes
    obtain ⟨hcount, htexts, hextremes⟩ := mergeState_counts d.numerics spec a b
    unfold Exact at hexact
    rcases hspec.cases with hfn | hfn | hfn | hfn | hfn
    · unfold ValueInv at hvalue hvalue' ⊢
      simp only [hfn] at hvalue hvalue' ⊢
      split
      · rename_i hdistinct
        rw [if_pos hdistinct] at hvalue hvalue'
        rw [htexts, Multiset.map_add]
        exact merged_texts hvalue hvalue'
      · rename_i hdistinct
        rw [if_neg hdistinct] at hvalue hvalue'
        rw [hcount, hvalue, hvalue', Multiset.card_add]
    · obtain ⟨hcomplete, hstarted, hsum, -⟩ := mergeState_sums hfn d.numerics a b
      have hsums := mergeSum_value hfn (hsound.exact hspec hdistinguishes) hvalue hvalue'
      unfold ValueInv at hvalue hvalue' ⊢
      simp only [hfn] at hvalue hvalue' ⊢
      rw [hcomplete, hstarted, hsum, hcount, hvalue.1, hvalue'.1, Multiset.card_add]
      exact ⟨rfl, hsums⟩
    · unfold ValueInv at hvalue hvalue' ⊢
      simp only [hfn] at hvalue hvalue' hexact ⊢
      rw [hextremes]
      exact merged_extremes hexact hvalue hvalue'
    · unfold ValueInv at hvalue hvalue' ⊢
      simp only [hfn] at hvalue hvalue' hexact ⊢
      rw [hextremes]
      exact merged_extremes hexact hvalue hvalue'
    · unfold ValueInv at hvalue hvalue' ⊢
      simp only [hfn] at hvalue hvalue' ⊢
      rw [htexts, Multiset.map_add]
      exact merged_texts hvalue hvalue'
  running happend := by
    have hfn : spec.fn = if decide (spec.fn = .min) then .min else .max := by
      rcases happend.1 with hfn | hfn
      · simp [hfn]
      · simp [hfn]
    obtain ⟨a', hinitialised, hrunning, hmerge⟩ :=
      mergeState_extreme (decide (spec.fn = .min)) hfn d.numerics a b
    rw [hmerge]
    exact RunningInv.merge (hdistinguishes happend.1) (hsound.typed (.inr happend.1))
      (RunningInv.congr (ha.running happend) hinitialised hrunning) (hb.running happend)
  sawDecimal hsum := by
    obtain ⟨-, -, -, hsaw⟩ := mergeState_sums hsum d.numerics a b
    rw [hsaw, Bool.or_eq_true, ha.sawDecimal hsum, hb.sawDecimal hsum]
    simp only [Multiset.mem_add, or_and_right, exists_or]

/-! ## Results -/

theorem StateInv.extreme {isMin : Bool} (hfn : spec.fn = if isMin then .min else .max)
    (h : StateInv d.toDoubles spec values st) :
    (values = 0 ∧ finalizeAgg d.numerics st spec = none) ∨
      ∃ v ∈ values, finalizeAgg d.numerics st spec = some (.datum v) ∧
        ∀ w ∈ values, Reaches isMin v w := by
  have hextreme : spec.fn = .min ∨ spec.fn = .max := by
    cases isMin with
    | true => exact .inl hfn
    | false => exact .inr hfn
  have hmin : decide (spec.fn = .min) = isMin := by
    cases isMin <;> simp [hfn]
  cases hretractable : spec.retractable with
  | false =>
      have hrunning := h.running ⟨hextreme, hretractable⟩
      rw [hmin] at hrunning
      have hresult : finalizeAgg d.numerics st spec =
          (SqlAggregate.running isMin st).map .datum := by
        unfold finalizeAgg
        cases isMin <;> simp [hfn, hretractable, SqlAggregate.running]
      rw [hresult]
      by_cases hzero : values = 0
      · rw [(hrunning.idle hzero).2]
        exact .inl ⟨hzero, rfl⟩
      · obtain ⟨-, v, hv, hmem, hreach⟩ := hrunning.extreme hzero
        rw [hv]
        exact .inr ⟨v, hmem, rfl, hreach⟩
  | true =>
      have hvalue := h.value fun happend => absurd happend.2 (by simp [hretractable])
      unfold ValueInv at hvalue
      unfold finalizeAgg
      cases isMin with
      | true =>
          simp only [hfn, if_true, hretractable] at hvalue ⊢
          cases hhead : st.minmaxCounts.head? with
          | none => exact .inl ⟨hvalue.1.nil_iff.mp (List.head?_eq_none_iff.mp hhead), rfl⟩
          | some e =>
              have hmem := hvalue.2 e (List.mem_of_mem_head? hhead)
              exact .inr ⟨e.1, hmem, rfl, (hvalue.1.head hhead).2⟩
      | false =>
          simp only [hfn, Bool.false_eq_true, if_false, hretractable, if_true] at hvalue ⊢
          cases hlast : st.minmaxCounts.getLast? with
          | none => exact .inl ⟨hvalue.1.nil_iff.mp (List.getLast?_eq_none_iff.mp hlast), rfl⟩
          | some e =>
              have hmem := hvalue.2 e (List.mem_of_getLast? hlast)
              exact .inr ⟨e.1, hmem, rfl, (hvalue.1.last hlast).2⟩

theorem finalize_extreme_eq (isMin : Bool) (hfn : spec.fn = if isMin then .min else .max)
    (hvalues : ∀ w ∈ values, w ∈ column.values) (h : StateInv d.toDoubles spec values st)
    (h' : StateInv d.toDoubles spec values st') :
    finalizeAgg d.numerics st spec = finalizeAgg d.numerics st' spec := by
  rcases h.extreme hfn with ⟨hzero, hresult⟩ | ⟨v, hv, hresult, hreach⟩
  · rcases h'.extreme hfn with ⟨-, hresult'⟩ | ⟨w, hw, -, -⟩
    · rw [hresult, hresult']
    · rw [hzero] at hw
      exact absurd hw (Multiset.notMem_zero w)
  · rcases h'.extreme hfn with ⟨hzero, -⟩ | ⟨w, hw, hresult', hreach'⟩
    · rw [hzero] at hv
      exact absurd hv (Multiset.notMem_zero v)
    · have hkey : sqlKey v = sqlKey w := by
        have hle := hreach w hw
        have hge := hreach' v hv
        unfold Reaches at hle hge
        cases isMin with
        | true => exact le_antisymm hle hge
        | false => exact le_antisymm hge hle
      rw [hresult, hresult', eq_of_sqlKey_eq (hvalues v hv) (hvalues w hw) hkey]

private theorem finalize_sum_eq (hfn : spec.fn = .sum) (h : StateInv d.toDoubles spec values st)
    (h' : StateInv d.toDoubles spec values st') :
    finalizeAgg d.numerics st spec = finalizeAgg d.numerics st' spec := by
  have hretracts : ¬ AppendOnly spec := by
    rintro ⟨hextreme, -⟩
    simp [hfn] at hextreme
  have hvalue := h.value hretracts
  have hvalue' := h'.value hretracts
  unfold ValueInv at hvalue hvalue'
  simp only [hfn] at hvalue hvalue'
  obtain ⟨hcount, hcomplete, hidle, hstarted⟩ := hvalue
  obtain ⟨hcount', hcomplete', hidle', hstarted'⟩ := hvalue'
  have hsaw : st.sumSawDecimal = st'.sumSawDecimal := by
    rw [Bool.eq_iff_iff, h.sawDecimal hfn, h'.sawDecimal hfn]
  unfold finalizeAgg
  simp only [hfn]
  rw [hcount, hcount']
  by_cases hzero : values = 0
  · rw [hzero, Multiset.card_zero, if_pos rfl, if_pos rfl]
  · have hcard : values.card ≠ 0 := mt Multiset.card_eq_zero.mp hzero
    have hst : st.sumDecStarted = true := by
      rw [← Bool.not_eq_false]
      exact fun hfalse => hzero (hidle hfalse)
    have hst' : st'.sumDecStarted = true := by
      rw [← Bool.not_eq_false]
      exact fun hfalse => hzero (hidle' hfalse)
    obtain ⟨-, hsum, hscale⟩ := hstarted hst
    obtain ⟨-, hsum', hscale'⟩ := hstarted' hst'
    have hdec : st.runningSumDec = st'.runningSumDec := by
      have heq : value st.runningSumDec = value st'.runningSumDec := hsum.trans hsum'.symm
      have hscales := hscale.trans hscale'.symm
      unfold value at heq
      rw [hscales, div_left_inj' (by positivity), Int.cast_inj] at heq
      exact FixedPoint.Decimal.ext heq hscales
    rw [if_neg hcard, if_neg hcard]
    unfold finalizeSum
    simp only [hst, hst', hcomplete, hcomplete', hsaw, hdec, Bool.and_self, if_true]

/-- Two states of the same values have the same result. -/
theorem StateInv.finalize_eq (hspec : MergeableSpec spec) (hsound : Sound column spec values)
    (h : StateInv d.toDoubles spec values st) (h' : StateInv d.toDoubles spec values st') :
    finalizeAgg d.numerics st spec = finalizeAgg d.numerics st' spec := by
  have hretracts : spec.fn ≠ .min → spec.fn ≠ .max → ¬ AppendOnly spec :=
    fun hmin hmax happend => happend.1.elim hmin hmax
  rcases hspec.cases with hfn | hfn | hfn | hfn | hfn
  · have hvalue := h.value (hretracts (by simp [hfn]) (by simp [hfn]))
    have hvalue' := h'.value (hretracts (by simp [hfn]) (by simp [hfn]))
    unfold ValueInv at hvalue hvalue'
    unfold finalizeAgg
    simp only [hfn] at hvalue hvalue' ⊢
    cases hdistinct : spec.distinct with
    | true =>
        simp only [hdistinct, if_true] at hvalue hvalue' ⊢
        rw [hvalue.length_eq, hvalue'.length_eq]
    | false =>
        simp only [hdistinct, Bool.false_eq_true, if_false] at hvalue hvalue' ⊢
        rw [hvalue, hvalue']
  · exact finalize_sum_eq hfn h h'
  · exact finalize_extreme_eq true hfn (hsound.typed (.inr (.inl hfn))) h h'
  · exact finalize_extreme_eq false hfn (hsound.typed (.inr (.inr hfn))) h h'
  · have hvalue := h.value (hretracts (by simp [hfn]) (by simp [hfn]))
    have hvalue' := h'.value (hretracts (by simp [hfn]) (by simp [hfn]))
    unfold ValueInv at hvalue hvalue'
    simp only [hfn] at hvalue hvalue'
    have hcounts : st.valueCounts = st'.valueCounts := hvalue.eq_map.trans hvalue'.eq_map.symm
    unfold finalizeAgg
    simp only [hfn, hcounts]

end Clink.Ports.SessionWindowRow

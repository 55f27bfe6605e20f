import Clink.Ports.DecimalOrder
import Clink.Ports.SqlAggregateLive

/-!
# What grouped aggregation nets to

In changelog mode the operator keeps for every group it has received a row of
exactly one live output row, the row it emitted last (`Tracks`).  Where the
aggregates' states are exact that row carries the aggregates of the group's live
rows, so the changelog nets to SQL's GROUP BY as long as every group still has a
live row.  A group whose rows have all been deleted keeps its row: no delete is
ever emitted.
-/

namespace Clink.Ports.AggregateRow

open Clink.Verified
open Clink.Ports.SqlRow
open Clink.Ports.SqlValue
open Clink.Ports.SqlAggregate

/-! ## The live input -/

/-- An input row as a change. -/
def InputRow.change (r : InputRow ℚ) : Change (Row (Datum ℚ)) :=
  if r.retracts then .delete r.row else .insert r.row

/-- Each delete-like row equals a live row. -/
def Valid (inputs : List (InputRow ℚ)) : Prop :=
  (replay 0 (inputs.map InputRow.change)).isSome

instance (inputs : List (InputRow ℚ)) : Decidable (Valid inputs) :=
  inferInstanceAs (Decidable (_ = true))

/-- The live rows. -/
def liveRows (inputs : List (InputRow ℚ)) : Multiset (Row (Datum ℚ)) :=
  (replay 0 (inputs.map InputRow.change)).getD 0

/-- The rows received. -/
def seenRows (inputs : List (InputRow ℚ)) : Multiset (Row (Datum ℚ)) :=
  ↑(inputs.map InputRow.row)

/-- What a row gives an aggregate: `COUNT(*)` counts every row. -/
def inputOf (spec : AggSpec ℚ) (row : Row (Datum ℚ)) : Option (Datum ℚ) :=
  if spec.fn = .count ∧ spec.inputColumn = [] then some (.bool true)
  else cell row spec.inputColumn

/-- An emitted row as a change. -/
def OutputRow.change (r : OutputRow ℚ) : Change (Row (Output ℚ)) :=
  if r.1.any RowKind.isDeleteLike then .delete r.2 else .insert r.2

namespace AggregateRowOp

variable (op : AggregateRowOp ℚ)

abbrev GroupCells := List (Option (ℚ ⊕ₗ Text))

/-- The groups of rows. -/
def groups (rows : Multiset (Row (Datum ℚ))) : Finset GroupCells := (rows.map op.groupOf).toFinset

/-- The values the rows of a group give an aggregate. -/
def valuesOf (spec : AggSpec ℚ) (rows : Multiset (Row (Datum ℚ))) (g : GroupCells) :
    Multiset (Datum ℚ) :=
  (rows.filter fun row => op.groupOf row = g).filterMap (inputOf spec)

/-! ## The claim -/

/-- The row of a group: the grouping columns of one of its rows and the
aggregates of its live rows. -/
def Carries (inputs : List (InputRow ℚ)) (g : GroupCells) (row : Row (Output ℚ)) : Prop :=
  ∃ r ∈ inputs, op.groupOf r.row = g ∧ ∃ values,
    List.Forall₂ (fun spec => IsAggregate op.num spec (op.valuesOf spec (liveRows inputs) g))
      op.aggregates values ∧
    op.rowsEqual row (op.putResults values (op.groupValuesOf r.row)) = true

/-- What is emitted for the inputs. -/
def emitted (inputs : List (InputRow ℚ)) : List (OutputRow ℚ) :=
  (inputs.foldl (emitting op.handle) (fun _ => none, [])).2

/-- The changelog nets to one row for each group with a live row, carrying the
group's aggregates, and to no other row. -/
def NetsToGroups (inputs : List (InputRow ℚ)) : Prop :=
  ∃ rowOf : GroupCells → Row (Output ℚ),
    replay 0 ((op.emitted inputs).map OutputRow.change) =
      some ((op.groups (liveRows inputs)).val.map rowOf) ∧
    ∀ g ∈ op.groups (liveRows inputs), op.Carries inputs g (rowOf g)

/-- Every group received still has a live row. -/
def NoGroupEmpty (inputs : List (InputRow ℚ)) : Prop :=
  op.groups (seenRows inputs) ⊆ op.groups (liveRows inputs)

instance (inputs : List (InputRow ℚ)) : Decidable (op.NoGroupEmpty inputs) :=
  inferInstanceAs (Decidable ((_ : Finset GroupCells) ⊆ _))

/-! ## What is asked of the input -/

/-- What the planner builds. -/
structure Configured (d : Doubles) : Prop where
  changelog : op.emitChangelog = true
  keys : op.groupKeys ≠ []
  planned : ∀ spec ∈ op.aggregates, Planned spec
  numerics : op.num = d.numerics

/-- The rows hold integers, DECIMALs and texts; the grouping values of a group
are written alike; and at every point the states of the aggregates are exact and
no value is live so often that its multiplicity leaves `int`. -/
structure Representable (d : Doubles) (inputs : List (InputRow ℚ)) : Prop where
  plain : ∀ r ∈ inputs, PlainRow r.row
  alike : ∀ r ∈ inputs, ∀ r' ∈ inputs, op.groupOf r.row = op.groupOf r'.row →
    op.groupKey r.row = op.groupKey r'.row
  exact : ∀ pre, pre <+: inputs → ∀ spec ∈ op.aggregates, ∀ g,
    Exact d spec (op.valuesOf spec (seenRows pre) g) (op.valuesOf spec (liveRows pre) g)
  countable : ∀ pre, pre <+: inputs → ∀ spec ∈ op.aggregates, ∀ g,
    Countable d spec (op.valuesOf spec (liveRows pre) g)

end AggregateRowOp

/-! ## Live rows after one more -/

variable {inputs : List (InputRow ℚ)} {r : InputRow ℚ}

private theorem replay_snoc (inputs : List (InputRow ℚ)) (r : InputRow ℚ) :
    replay 0 ((inputs ++ [r]).map InputRow.change) =
      (replay 0 (inputs.map InputRow.change)).bind fun m => replay m [r.change] := by
  rw [List.map_append, replay_append]
  rfl

theorem Valid.snoc (h : Valid (inputs ++ [r])) :
    Valid inputs ∧
      if r.retracts then liveRows inputs = r.row ::ₘ liveRows (inputs ++ [r])
      else liveRows (inputs ++ [r]) = r.row ::ₘ liveRows inputs := by
  unfold Valid liveRows at *
  rw [replay_snoc] at h ⊢
  cases hm : replay 0 (inputs.map InputRow.change) with
  | none => simp [hm] at h
  | some m =>
      refine ⟨rfl, ?_⟩
      rw [hm, Option.bind_some] at h
      simp only [Option.bind_some, Option.getD_some]
      unfold InputRow.change at h ⊢
      cases hkind : r.retracts with
      | true =>
          simp only [hkind, if_true, replay] at h ⊢
          by_cases hmem : r.row ∈ m
          · rw [if_pos hmem, Option.getD_some, Multiset.cons_erase hmem]
          · rw [if_neg hmem] at h
            exact absurd h (by simp)
      | false => simp

theorem Valid.start {pre : List (InputRow ℚ)} (h : Valid inputs) (hpre : pre <+: inputs) :
    Valid pre := by
  obtain ⟨post, rfl⟩ := hpre
  unfold Valid at *
  rw [List.map_append, replay_append] at h
  cases hm : replay 0 (pre.map InputRow.change) with
  | none => simp [hm] at h
  | some m => rfl

theorem seenRows_snoc (inputs : List (InputRow ℚ)) (r : InputRow ℚ) :
    seenRows (inputs ++ [r]) = r.row ::ₘ seenRows inputs := by
  unfold seenRows
  rw [List.map_append, Multiset.cons_coe, Multiset.coe_eq_coe]
  exact List.perm_append_singleton _ _

theorem mem_seenRows_of_live (h : Valid inputs) {row : Row (Datum ℚ)}
    (hrow : row ∈ liveRows inputs) :
    row ∈ seenRows inputs := by
  induction inputs using List.reverseRecOn with
  | nil => simp [liveRows] at hrow
  | append_singleton inputs r ih =>
      obtain ⟨hvalid, hlive⟩ := h.snoc
      rw [seenRows_snoc]
      split at hlive
      · exact Multiset.mem_cons_of_mem (ih hvalid (hlive ▸ Multiset.mem_cons_of_mem hrow))
      · rw [hlive] at hrow
        rcases Multiset.mem_cons.mp hrow with rfl | hmem
        · exact Multiset.mem_cons_self _ _
        · exact Multiset.mem_cons_of_mem (ih hvalid hmem)

/-! ## One row on the state of an aggregate -/

private theorem distinct_of_star {spec : AggSpec ℚ}
    (hcolumn : spec.distinct = true → spec.inputColumn ≠ []) (hstar : spec.inputColumn = []) :
    spec.distinct = false :=
  Bool.eq_false_of_not_eq_true fun hdistinct => hcolumn hdistinct hstar

theorem updateAgg_eq {num : Numerics ℚ} {spec : AggSpec ℚ}
    (hcolumn : spec.distinct = true → spec.inputColumn ≠ []) (st : AggState ℚ)
    (row : Row (Datum ℚ)) :
    updateAgg num st spec row = ((inputOf spec row).map (updateValue num st spec)).getD st := by
  unfold updateAgg inputOf
  by_cases hstar : spec.fn = .count ∧ spec.inputColumn = []
  · have hdistinct := distinct_of_star hcolumn hstar.2
    rw [if_pos hstar, if_pos hstar, Option.map_some, Option.getD_some]
    simp [updateValue, hstar.1, hdistinct]
  · rw [if_neg hstar, if_neg hstar]
    cases cell row spec.inputColumn <;> rfl

theorem retractAgg_eq {num : Numerics ℚ} {spec : AggSpec ℚ}
    (hcolumn : spec.distinct = true → spec.inputColumn ≠ []) (st : AggState ℚ)
    (row : Row (Datum ℚ)) :
    retractAgg num st spec row = ((inputOf spec row).map (retractValue num st spec)).getD st := by
  unfold retractAgg inputOf
  by_cases hstar : spec.fn = .count ∧ spec.inputColumn = []
  · have hdistinct := distinct_of_star hcolumn hstar.2
    rw [if_pos hstar, if_pos hstar, Option.map_some, Option.getD_some]
    simp [retractValue, hstar.1, hdistinct]
  · rw [if_neg hstar, if_neg hstar]
    cases cell row spec.inputColumn <;> rfl

namespace AggregateRowOp

variable {op : AggregateRowOp ℚ} {d : Doubles}

variable {spec : AggSpec ℚ} {row : Row (Datum ℚ)}

theorem valuesOf_cons_none (h : inputOf spec row = none) (rows : Multiset (Row (Datum ℚ)))
    (g : GroupCells) : op.valuesOf spec (row ::ₘ rows) g = op.valuesOf spec rows g := by
  unfold valuesOf
  by_cases hg : op.groupOf row = g
  · rw [Multiset.filter_cons_of_pos (p := fun row => op.groupOf row = g) _ hg,
      Multiset.filterMap_cons_none _ _ h]
  · rw [Multiset.filter_cons_of_neg (p := fun row => op.groupOf row = g) _ hg]

variable {v : Datum ℚ}

theorem valuesOf_cons_some (h : inputOf spec row = some v) (rows : Multiset (Row (Datum ℚ))) :
    op.valuesOf spec (row ::ₘ rows) (op.groupOf row) =
      v ::ₘ op.valuesOf spec rows (op.groupOf row) := by
  unfold valuesOf
  rw [Multiset.filter_cons_of_pos (p := fun row' => op.groupOf row' = op.groupOf row) _ rfl,
    Multiset.filterMap_cons_some _ _ _ h]

variable {g : GroupCells}

theorem valuesOf_cons_of_ne (h : op.groupOf row ≠ g) (rows : Multiset (Row (Datum ℚ))) :
    op.valuesOf spec (row ::ₘ rows) g = op.valuesOf spec rows g := by
  unfold valuesOf
  rw [Multiset.filter_cons_of_neg (p := fun row => op.groupOf row = g) _ h]

theorem mem_valuesOf_seen (h : Valid inputs) (hv : v ∈ op.valuesOf spec (liveRows inputs) g) :
    v ∈ op.valuesOf spec (seenRows inputs) g := by
  unfold valuesOf at hv ⊢
  obtain ⟨row, hrow, hvalue⟩ := (Multiset.mem_filterMap _ _).mp hv
  obtain ⟨hlive, hgroup⟩ := Multiset.mem_filter.mp hrow
  exact (Multiset.mem_filterMap _ _).mpr
    ⟨row, Multiset.mem_filter.mpr ⟨mem_seenRows_of_live h hlive, hgroup⟩, hvalue⟩

/-- What an aggregate's state says of the group of a row, before and after. -/
theorem valueInv_row (hvalid : Valid (inputs ++ [r]))
    (hplanned : Planned spec) {st : AggState ℚ}
    (hinv : ValueInv d spec (op.valuesOf spec (seenRows inputs) (op.groupOf r.row))
      (op.valuesOf spec (liveRows inputs) (op.groupOf r.row)) st)
    (hexact : Exact d spec (op.valuesOf spec (seenRows (inputs ++ [r])) (op.groupOf r.row))
      (op.valuesOf spec (liveRows (inputs ++ [r])) (op.groupOf r.row)))
    (hcountable : Countable d spec (op.valuesOf spec (liveRows inputs) (op.groupOf r.row))) :
    ValueInv d spec (op.valuesOf spec (seenRows (inputs ++ [r])) (op.groupOf r.row))
      (op.valuesOf spec (liveRows (inputs ++ [r])) (op.groupOf r.row))
      (if r.retracts then retractAgg d.numerics st spec r.row
        else updateAgg d.numerics st spec r.row) := by
  obtain ⟨hbefore, hlive⟩ := hvalid.snoc
  rw [updateAgg_eq hplanned.star, retractAgg_eq hplanned.star, seenRows_snoc] at *
  cases hinput : inputOf spec r.row with
  | none =>
      rw [valuesOf_cons_none hinput] at *
      simp only [Option.map_none, Option.getD_none, ite_self]
      split at hlive
      · rw [hlive, valuesOf_cons_none hinput] at hinv
        exact hinv
      · rw [hlive, valuesOf_cons_none hinput]
        exact hinv
  | some v =>
      rw [valuesOf_cons_some hinput] at *
      simp only [Option.map_some, Option.getD_some]
      split at hlive
      · rename_i hretracts
        rw [if_pos hretracts]
        have hmem : v ∈ op.valuesOf spec (seenRows inputs) (op.groupOf r.row) := by
          apply mem_valuesOf_seen hbefore
          rw [hlive, valuesOf_cons_some hinput]
          exact Multiset.mem_cons_self _ _
        rw [hlive, valuesOf_cons_some hinput] at hinv hcountable
        exact hinv.retract (fun _ => hplanned.retractable) hmem hexact hcountable
      · rename_i hretracts
        rw [if_neg hretracts]
        rw [hlive, valuesOf_cons_some hinput] at hexact ⊢
        exact hinv.update (fun _ => hplanned.retractable)
          (fun w hw => mem_valuesOf_seen hbefore hw) hexact

/-! ## One row on its bucket -/

/-- What a bucket says of its group. -/
structure BucketInv (op : AggregateRowOp ℚ) (d : Doubles) (inputs : List (InputRow ℚ))
    (g : GroupCells)
    (b : AggBucket ℚ) : Prop where
  group : ∃ r ∈ inputs, op.groupOf r.row = g ∧ b.groupValues = op.groupValuesOf r.row
  states : List.Forall₂ (fun st spec =>
    ValueInv d spec (op.valuesOf spec (seenRows inputs) g)
      (op.valuesOf spec (liveRows inputs) g) st)
    b.aggStates op.aggregates

theorem forall₂_zipWith {α β : Type*} {R R' : α → β → Prop} {f : α → β → α} {l : List α}
    {m : List β} (h : List.Forall₂ R l m) (hf : ∀ a, ∀ b ∈ m, R a b → R' (f a b) b) :
    List.Forall₂ R' (List.zipWith f l m) m := by
  induction h with
  | nil => exact List.Forall₂.nil
  | cons hab _ ih =>
      refine List.Forall₂.cons (hf _ _ List.mem_cons_self hab) (ih ?_)
      exact fun a b hb => hf a b (List.mem_cons_of_mem _ hb)

theorem valuesOf_unseen {rows : Multiset (Row (Datum ℚ))} (h : g ∉ op.groups rows) :
    op.valuesOf spec rows g = 0 := by
  unfold valuesOf
  rw [Multiset.filter_eq_nil.mpr, Multiset.filterMap_zero]
  intro row hrow hg
  apply h
  unfold groups
  rw [Multiset.mem_toFinset, ← hg]
  exact Multiset.mem_map_of_mem op.groupOf hrow

theorem groups_live_subset (h : Valid inputs) :
    op.groups (liveRows inputs) ⊆ op.groups (seenRows inputs) := by
  intro g hg
  unfold groups at hg ⊢
  rw [Multiset.mem_toFinset, Multiset.mem_map] at hg ⊢
  obtain ⟨row, hrow, rfl⟩ := hg
  exact ⟨row, mem_seenRows_of_live h hrow, rfl⟩

theorem mem_groups_seen : g ∈ op.groups (seenRows inputs) ↔ ∃ r ∈ inputs, op.groupOf r.row = g := by
  unfold groups seenRows
  rw [Multiset.mem_toFinset, Multiset.mem_map]
  constructor
  · rintro ⟨row, hrow, rfl⟩
    obtain ⟨r, hr, rfl⟩ := List.mem_map.mp (Multiset.mem_coe.mp hrow)
    exact ⟨r, hr, rfl⟩
  · rintro ⟨r, hr, rfl⟩
    exact ⟨r.row, List.mem_map_of_mem hr, rfl⟩

private theorem foldStep_inv (hconf : op.Configured d) (hvalid : Valid (inputs ++ [r]))
    (hrep : op.Representable d (inputs ++ [r])) {ob : Option (AggBucket ℚ)}
    (hnew : ob = none → op.groupOf r.row ∉ op.groups (seenRows inputs))
    (hold : ∀ b, ob = some b → BucketInv op d inputs (op.groupOf r.row) b) :
    BucketInv op d (inputs ++ [r]) (op.groupOf r.row)
      (op.foldStep (ob.getD (op.initBucket r.row)) r) := by
  have hmem : r ∈ inputs ++ [r] := by simp
  have hstep : ∀ (st : AggState ℚ), ∀ spec ∈ op.aggregates,
      ValueInv d spec (op.valuesOf spec (seenRows inputs) (op.groupOf r.row))
        (op.valuesOf spec (liveRows inputs) (op.groupOf r.row)) st →
      ValueInv d spec (op.valuesOf spec (seenRows (inputs ++ [r])) (op.groupOf r.row))
        (op.valuesOf spec (liveRows (inputs ++ [r])) (op.groupOf r.row))
        (if r.retracts then retractAgg op.num st spec r.row
          else updateAgg op.num st spec r.row) := by
    intro st spec hspec hinv
    rw [hconf.numerics]
    exact valueInv_row hvalid (hconf.planned spec hspec) hinv
      (hrep.exact _ (List.prefix_refl _) spec hspec _)
      (hrep.countable _ (List.prefix_append _ _) spec hspec _)
  cases ob with
  | none =>
      refine ⟨⟨r, hmem, rfl, rfl⟩, ?_⟩
      refine forall₂_zipWith ?_ hstep
      -- No row of the group has been received.
      rw [Option.getD_none, initBucket, List.forall₂_map_left_iff, List.forall₂_same]
      intro spec _
      rw [valuesOf_unseen (hnew rfl), valuesOf_unseen
        (fun hlive => hnew rfl (groups_live_subset hvalid.snoc.1 hlive)), hconf.numerics]
      exact valueInv_empty d spec
  | some b =>
      obtain ⟨⟨r', hr', hgroup, hvalues⟩, hstates⟩ := hold b rfl
      exact ⟨⟨r', List.mem_append_left _ hr', hgroup, hvalues⟩, forall₂_zipWith hstates hstep⟩

/-- A row of another group leaves what a bucket says true. -/
theorem BucketInv.other (hvalid : Valid (inputs ++ [r])) {b : AggBucket ℚ}
    (h : BucketInv op d inputs g b) (hg : op.groupOf r.row ≠ g) :
    BucketInv op d (inputs ++ [r]) g b := by
  obtain ⟨⟨r', hr', hgroup, hvalues⟩, hstates⟩ := h
  refine ⟨⟨r', List.mem_append_left _ hr', hgroup, hvalues⟩, ?_⟩
  have hlive : ∀ spec, op.valuesOf spec (liveRows (inputs ++ [r])) g =
      op.valuesOf spec (liveRows inputs) g := by
    intro spec
    have hsnoc := hvalid.snoc.2
    split at hsnoc
    · rw [hsnoc, valuesOf_cons_of_ne hg]
    · rw [hsnoc, valuesOf_cons_of_ne hg]
  simp only [seenRows_snoc, valuesOf_cons_of_ne hg, hlive]
  exact hstates

theorem BucketInv.carries (htext : PrintsDecimals d.toText) (hconf : op.Configured d)
    (hvalid : Valid inputs) (hrep : op.Representable d inputs) {b : AggBucket ℚ}
    (h : BucketInv op d inputs g b) {row : Row (Output ℚ)}
    (hrow : op.rowsEqual row (op.resultOf b) = true) : op.Carries inputs g row := by
  obtain ⟨⟨r', hr', hgroup, hvalues⟩, hstates⟩ := h
  refine ⟨r', hr', hgroup, List.zipWith (finalizeAgg op.num) b.aggStates op.aggregates, ?_, ?_⟩
  · have hplain : ∀ spec ∈ op.aggregates, spec.distinct = true →
        ∀ v ∈ op.valuesOf spec (liveRows inputs) g, v.Plain := by
      intro spec hspec hdistinct v hv
      unfold valuesOf at hv
      obtain ⟨row, hmem, hinput⟩ := (Multiset.mem_filterMap _ _).mp hv
      obtain ⟨r'', hr'', rfl⟩ := List.mem_map.mp (Multiset.mem_coe.mp
        (mem_seenRows_of_live hvalid (Multiset.mem_filter.mp hmem).1))
      unfold inputOf at hinput
      rw [if_neg fun hstar => (hconf.planned spec hspec).star hdistinct hstar.2] at hinput
      exact hrep.plain r'' hr'' _ v hinput
    have hresult : ∀ st, ∀ spec ∈ op.aggregates,
        ValueInv d spec (op.valuesOf spec (seenRows inputs) g)
          (op.valuesOf spec (liveRows inputs) g) st →
        IsAggregate op.num spec (op.valuesOf spec (liveRows inputs) g)
          (finalizeAgg op.num st spec) := by
      intro st spec hspec hinv
      rw [hconf.numerics]
      exact hinv.finalize htext (fun _ => (hconf.planned spec hspec).retractable)
        (fun w hw => mem_valuesOf_seen hvalid hw) (hplain spec hspec)
        (hrep.exact inputs (List.prefix_refl _) spec hspec g)
        (hrep.countable inputs (List.prefix_refl _) spec hspec g)
    clear hvalues hrow
    generalize b.aggStates = states at hstates
    generalize op.aggregates = specs at hstates hresult
    induction hstates with
    | nil => exact List.Forall₂.nil
    | cons hhead _ ih =>
        refine List.Forall₂.cons (hresult _ _ List.mem_cons_self hhead) (ih ?_)
        exact fun st spec hspec => hresult st spec (List.mem_cons_of_mem _ hspec)
  · rw [← hvalues]
    exact hrow

/-! ## What is emitted for a bucket -/

/-- In changelog mode a bucket has a row in the output, equal to its result, and
what is emitted replaces the row it had. -/
theorem emitGroup_spec (hchangelog : op.emitChangelog = true) (b : AggBucket ℚ)
    (tagged : Bool) :
    ∃ row, (op.emitGroup b tagged).1 = { b with priorEmitted := some row } ∧
      op.rowsEqual row (op.resultOf b) = true ∧
      match b.priorEmitted with
      | none => (op.emitGroup b tagged).2.map OutputRow.change = [.insert row]
      | some prior =>
          (row = prior ∧ (op.emitGroup b tagged).2 = []) ∨
            (op.emitGroup b tagged).2.map OutputRow.change = [.delete prior, .insert row] := by
  have hself : op.rowsEqual (op.resultOf b) (op.resultOf b) = true := by simp [rowsEqual]
  unfold emitGroup
  simp only [hchangelog, Bool.not_true, Bool.false_eq_true, if_false]
  cases hprior : b.priorEmitted with
  | none => exact ⟨op.resultOf b, rfl, hself, rfl⟩
  | some prior =>
      simp only
      split
      · rename_i hequal
        refine ⟨prior, ?_, hequal, Or.inl ⟨rfl, rfl⟩⟩
        rw [← hprior]
      · exact ⟨op.resultOf b, rfl, hself, Or.inr rfl⟩

/-! ## Whole runs -/

/-- Every group received has a bucket that says the truth and the row it emitted
last. -/
structure Tracks (op : AggregateRowOp ℚ) (d : Doubles) (inputs : List (InputRow ℚ))
    (s : Text → Option (AggBucket ℚ)) (rowOf : GroupCells → Row (Output ℚ)) : Prop where
  fresh : ∀ k, (∀ r ∈ inputs, op.groupKey r.row ≠ k) → s k = none
  bucket : ∀ r ∈ inputs, ∃ b, s (op.groupKey r.row) = some b ∧
    BucketInv op d inputs (op.groupOf r.row) b ∧
    b.priorEmitted = some (rowOf (op.groupOf r.row)) ∧
    op.rowsEqual (rowOf (op.groupOf r.row)) (op.resultOf b) = true

theorem groupKey_eq_iff (htext : PrintsDecimals d.toText) (hconf : op.Configured d)
    (hrep : op.Representable d inputs) {r r' : InputRow ℚ} (hr : r ∈ inputs) (hr' : r' ∈ inputs) :
    op.groupKey r.row = op.groupKey r'.row ↔ op.groupOf r.row = op.groupOf r'.row := by
  constructor
  · have htext' : PrintsDecimals op.num.toText := by
      rw [hconf.numerics]
      exact htext
    exact op.groupOf_eq_of_groupKey_eq htext' hconf.keys (hrep.plain r hr) (hrep.plain r' hr')
  · exact hrep.alike r hr r' hr'

private theorem groups_seen_snoc (op : AggregateRowOp ℚ) (inputs : List (InputRow ℚ))
    (r : InputRow ℚ) :
    op.groups (seenRows (inputs ++ [r])) =
      insert (op.groupOf r.row) (op.groups (seenRows inputs)) := by
  unfold groups
  rw [seenRows_snoc, Multiset.map_cons, Multiset.toFinset_cons]

/-- One row keeps the buckets true, and the changelog to one row per group. -/
theorem Tracks.step (htext : PrintsDecimals d.toText) (hconf : op.Configured d)
    (hvalid : Valid (inputs ++ [r])) (hrep : op.Representable d (inputs ++ [r]))
    {s : Text → Option (AggBucket ℚ)} {rowOf : GroupCells → Row (Output ℚ)}
    (h : op.Tracks d inputs s rowOf) :
    ∃ rowOf', op.Tracks d (inputs ++ [r]) (op.handle s r).1 rowOf' ∧
      replay ((op.groups (seenRows inputs)).val.map rowOf)
          ((op.handle s r).2.map OutputRow.change) =
        some ((op.groups (seenRows (inputs ++ [r]))).val.map rowOf') := by
  have hr : r ∈ inputs ++ [r] := by simp
  have hkey : ∀ r' ∈ inputs,
      op.groupKey r'.row = op.groupKey r.row ↔ op.groupOf r'.row = op.groupOf r.row :=
    fun r' hr' => groupKey_eq_iff htext hconf hrep (List.mem_append_left _ hr') hr
  have hnew : s (op.groupKey r.row) = none →
      op.groupOf r.row ∉ op.groups (seenRows inputs) := by
    intro hnone hseen
    obtain ⟨r', hr', hgroup⟩ := mem_groups_seen.mp hseen
    obtain ⟨b, hb, -⟩ := h.bucket r' hr'
    rw [(hkey r' hr').mpr hgroup, hnone] at hb
    exact absurd hb (by simp)
  have hold : ∀ b, s (op.groupKey r.row) = some b →
      op.groupOf r.row ∈ op.groups (seenRows inputs) ∧
        BucketInv op d inputs (op.groupOf r.row) b ∧
        b.priorEmitted = some (rowOf (op.groupOf r.row)) := by
    intro b hb
    by_cases hseen : ∃ r' ∈ inputs, op.groupKey r'.row = op.groupKey r.row
    · obtain ⟨r', hr', heq⟩ := hseen
      have hgroup := (hkey r' hr').mp heq
      obtain ⟨b', hb', hinv, hprior, -⟩ := h.bucket r' hr'
      rw [heq, hb] at hb'
      obtain rfl := Option.some.inj hb'
      rw [hgroup] at hinv hprior
      exact ⟨mem_groups_seen.mpr ⟨r', hr', hgroup⟩, hinv, hprior⟩
    · push Not at hseen
      rw [h.fresh _ hseen] at hb
      exact absurd hb (by simp)
  have hinv := foldStep_inv hconf hvalid hrep hnew fun b hb => (hold b hb).2.1
  obtain ⟨row, hnext, hequal, hout⟩ := emitGroup_spec hconf.changelog
    (op.foldStep ((s (op.groupKey r.row)).getD (op.initBucket r.row)) r) r.kind.isSome
  have hs : (op.handle s r).1 = Function.update s (op.groupKey r.row)
      (some { op.foldStep ((s (op.groupKey r.row)).getD (op.initBucket r.row)) r with
        priorEmitted := some row }) := by
    rw [← hnext]
    rfl
  refine ⟨Function.update rowOf (op.groupOf r.row) row, ⟨?_, ?_⟩, ?_⟩
  · intro k hk
    rw [hs, Function.update_of_ne (Ne.symm (hk r hr))]
    exact h.fresh k fun r' hr' => hk r' (List.mem_append_left _ hr')
  · intro r' hr'
    by_cases hgroup : op.groupOf r'.row = op.groupOf r.row
    · rw [hs, (groupKey_eq_iff htext hconf hrep hr' hr).mpr hgroup, hgroup, Function.update_self,
        Function.update_self]
      exact ⟨_, rfl, ⟨hinv.group, hinv.states⟩, rfl, hequal⟩
    · have hne := mt (groupKey_eq_iff htext hconf hrep hr' hr).mp hgroup
      rw [hs, Function.update_of_ne hne, Function.update_of_ne hgroup]
      rcases List.mem_append.mp hr' with hmem | hmem
      · obtain ⟨b, hb, hbinv, hprior, hresult⟩ := h.bucket r' hmem
        exact ⟨b, hb, hbinv.other hvalid (Ne.symm hgroup), hprior, hresult⟩
      · rw [List.mem_singleton.mp hmem] at hgroup
        exact absurd rfl hgroup
  · rw [groups_seen_snoc]
    change replay _ (((op.emitGroup _ r.kind.isSome).2).map OutputRow.change) = _
    cases hb : s (op.groupKey r.row) with
    | none =>
        rw [hb] at hout
        have hinsert : (op.emitGroup (op.foldStep (op.initBucket r.row) r) r.kind.isSome).2.map
            OutputRow.change = [.insert row] := hout
        rw [Option.getD_none, hinsert]
        exact replay_family_new (hnew hb) row
    | some b =>
        obtain ⟨hseen, -, hprior⟩ := hold b hb
        rw [hb] at hout
        rw [Finset.insert_eq_of_mem hseen]
        have hout' : (row = rowOf (op.groupOf r.row) ∧
            (op.emitGroup (op.foldStep b r) r.kind.isSome).2 = []) ∨
            (op.emitGroup (op.foldStep b r) r.kind.isSome).2.map OutputRow.change =
              [.delete (rowOf (op.groupOf r.row)), .insert row] := by
          have hfold : (op.foldStep b r).priorEmitted = some (rowOf (op.groupOf r.row)) := hprior
          simp only [Option.getD_some, hfold] at hout
          exact hout
        rw [Option.getD_some]
        rcases hout' with ⟨hsame, hnone⟩ | hreplace
        · rw [hnone, hsame, Function.update_eq_self]
          rfl
        · rw [hreplace]
          exact replay_family_replace hseen row

theorem Representable.start {pre : List (InputRow ℚ)} (h : op.Representable d inputs)
    (hpre : pre <+: inputs) : op.Representable d pre where
  plain r hr := h.plain r (hpre.subset hr)
  alike r hr r' hr' := h.alike r (hpre.subset hr) r' (hpre.subset hr')
  exact p hp := h.exact p (hp.trans hpre)
  countable p hp := h.countable p (hp.trans hpre)

/-- At the end of every run there is one output row per group received. -/
theorem tracks_run (htext : PrintsDecimals d.toText) (hconf : op.Configured d)
    (hvalid : Valid inputs) (hrep : op.Representable d inputs) :
    ∃ rowOf, op.Tracks d inputs (inputs.foldl (emitting op.handle) (fun _ => none, [])).1 rowOf ∧
      replay 0 ((op.emitted inputs).map OutputRow.change) =
        some ((op.groups (seenRows inputs)).val.map rowOf) := by
  induction inputs using List.reverseRecOn with
  | nil =>
      refine ⟨fun _ => .empty, ⟨fun _ _ => rfl, ?_⟩, rfl⟩
      intro r hr
      exact absurd hr List.not_mem_nil
  | append_singleton inputs r ih =>
      obtain ⟨rowOf, htracks, hreplay⟩ :=
        ih hvalid.snoc.1 (hrep.start (List.prefix_append _ _))
      obtain ⟨rowOf', htracks', hstep⟩ := htracks.step htext hconf hvalid hrep
      refine ⟨rowOf', ?_, ?_⟩
      · rw [List.foldl_append]
        exact htracks'
      · unfold emitted at hreplay ⊢
        rw [List.foldl_append, List.foldl_cons, List.foldl_nil]
        simp only [emitting, List.map_append]
        exact replay_trans hreplay hstep

/-- The output carries the groups exactly where none of them has lost its rows. -/
theorem netsToGroups_iff (htext : PrintsDecimals d.toText) (hconf : op.Configured d)
    (hvalid : Valid inputs) (hrep : op.Representable d inputs) :
    op.NetsToGroups inputs ↔ op.NoGroupEmpty inputs := by
  obtain ⟨rowOf, htracks, hreplay⟩ := tracks_run htext hconf hvalid hrep
  have hsubset : op.groups (liveRows inputs) ⊆ op.groups (seenRows inputs) :=
    groups_live_subset hvalid
  constructor
  · rintro ⟨rowOf', hnet, -⟩
    rw [hreplay] at hnet
    have hcard := congrArg Multiset.card (Option.some.inj hnet)
    rw [Multiset.card_map, Multiset.card_map, Finset.card_val, Finset.card_val] at hcard
    exact (Finset.eq_of_subset_of_card_le hsubset hcard.le).ge
  · intro hfull
    have hgroups : op.groups (liveRows inputs) = op.groups (seenRows inputs) :=
      Finset.Subset.antisymm hsubset hfull
    refine ⟨rowOf, ?_, ?_⟩
    · rw [hgroups]
      exact hreplay
    · intro g hg
      rw [hgroups] at hg
      obtain ⟨r, hr, rfl⟩ := mem_groups_seen.mp hg
      obtain ⟨b, -, hinv, -, hresult⟩ := htracks.bucket r hr
      exact hinv.carries htext hconf hvalid hrep hresult

/-- Doubles without rounding. -/
def exactDoubles : Doubles where
  round := id
  round_zero := rfl
  sqrt := id
  ofDecimal unscaled scale := unscaled / 10 ^ scale
  text q := (toString q.num).toList
  toText := FixedPoint.decimalText

/-- The rows of each key and their total. -/
def countByKey : AggregateRowOp ℚ where
  groupKeys := [['k']]
  aggregates := [⟨['n'], .count, [], false, [], 0, true⟩, ⟨['t'], .sum, ['x'], false, [], 0, true⟩]
  groupKeyOutputs := [['k']]
  emitChangelog := true
  num := exactDoubles.numerics

/-- A row of the key `a`. -/
def saleOf (kind : RowKind) (x : Int) : InputRow ℚ where
  kind := some kind
  row := assign (assign .empty ['k'] (some (.string ['a']))) ['x'] (some (.int x))

theorem countByKey_configured : countByKey.Configured exactDoubles where
  changelog := rfl
  keys := by decide
  planned spec hspec := by
    simp only [countByKey, List.mem_cons, List.not_mem_nil, or_false] at hspec
    rcases hspec with rfl | rfl
    · exact ⟨by simp, by simp, rfl⟩
    · exact ⟨by simp, by simp, rfl⟩
  numerics := rfl

/-- Their group. -/
def saleCells : GroupCells := [some (Sum.inrₗ ['a'])]

theorem plainRow_assign (h : PlainRow row) (column : Column) (hv : v.Plain) :
    PlainRow (assign row column (some v)) := by
  intro c w hw
  unfold cell assign at hw
  rw [SortedMap.find?_upsert] at hw
  split at hw
  · obtain rfl : v = w := Option.some.inj hw
    exact hv
  · exact h c w hw

theorem plainRow_saleOf (kind : RowKind) (x : Int) : PlainRow (saleOf kind x).row := by
  refine plainRow_assign (plainRow_assign ?_ _ ?_) _ trivial
  · intro c w hw
    simp [cell, SortedMap.find?, SortedMap.empty] at hw
  · change ['a'].head? ≠ some decimalSentinel
    decide

private theorem sales_representable : countByKey.Representable exactDoubles
    [saleOf .insert 3, saleOf .insert 4, saleOf .delete 3] where
  plain r hr := by
    simp only [List.mem_cons, List.not_mem_nil, or_false] at hr
    rcases hr with rfl | rfl | rfl
    · exact plainRow_saleOf _ _
    · exact plainRow_saleOf _ _
    · exact plainRow_saleOf _ _
  alike := by decide +kernel
  exact pre hpre spec hspec g := by
    simp only [countByKey, List.mem_cons, List.not_mem_nil, or_false] at hspec
    rcases hspec with rfl | rfl
    · trivial
    · rw [← List.mem_inits] at hpre
      have hseen : ∀ p ∈ [saleOf .insert 3, saleOf .insert 4, saleOf .delete 3].inits,
          countByKey.groups (seenRows p) ⊆ {saleCells} := by decide +kernel
      have hlive : ∀ p ∈ [saleOf .insert 3, saleOf .insert 4, saleOf .delete 3].inits,
          countByKey.groups (liveRows p) ⊆ {saleCells} := by decide +kernel
      by_cases hg : g = saleCells
      · subst hg
        unfold Exact
        simp only
        revert pre
        decide +kernel
      · rw [valuesOf_unseen, valuesOf_unseen]
        · unfold Exact
          simp only
          decide +kernel
        · exact fun hmem => hg (Finset.mem_singleton.mp (hlive pre hpre hmem))
        · exact fun hmem => hg (Finset.mem_singleton.mp (hseen pre hpre hmem))
  countable pre hpre spec hspec g := by
    simp only [countByKey, List.mem_cons, List.not_mem_nil, or_false] at hspec
    rcases hspec with rfl | rfl
    · exact fun hdistinct => absurd hdistinct (by decide)
    · trivial

/-- The row of a group without rows. -/
def emptiedRow : Row (Output ℚ) :=
  assign (assign (assign .empty ['k'] (some (.datum (.string ['a'])))) ['n']
    (some (.datum (.int 0)))) ['t'] none

end AggregateRowOp

end Clink.Ports.AggregateRow

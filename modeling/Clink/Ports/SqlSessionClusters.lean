import Clink.Ports.SessionClusters
import Clink.Ports.SqlSessionStates

/-!
# SQL sessions are the clusters of their rows

With no watermark between them a group's rows make the sessions of the clusters
of their timestamps, in whatever order they come: the sessions follow those of
an operator that keeps the bag of a session's rows (`Tracks`), and the state of
each aggregate is one of the values of that bag.  So the result of an aggregate
is that of one accumulator over the session's rows, for MIN and MAX exactly
where the doubles tell the integers of the column apart.
-/

namespace Clink.Ports.SessionWindowRow

open Clink.Verified
open Clink.Ports.SqlRow
open Clink.Ports.SqlValue
open Clink.Ports.SqlAggregate
open Clink.Ports.AggregateRow
open Clink.Ports.WindowArithmetic
open Clink.Ports.SessionWindowOperator (Aggregate Merged Grouped Holds firstTime lastTime)

/-! ## What is asked -/

/-- The rows between the ends of a run, in order of arrival. -/
def rowsIn (arrivals : List (Int × Row (Datum ℚ))) (run : List Int) : List (Row (Datum ℚ)) :=
  (arrivals.filter fun a => firstTime run ≤ a.1 ∧ a.1 ≤ lastTime run).map Prod.snd

/-- The values rows give an aggregate. -/
def valuesOf (spec : AggSpec ℚ) (bag : Multiset (Row (Datum ℚ))) : Multiset (Datum ℚ) :=
  bag.filterMap (inputOf spec)

namespace SessionWindowRowOp

variable {n : Nat} (op : SessionWindowRowOp ℚ n) (i : Fin n)

def InRange (ts : Int) : Prop := int64Min ≤ ts ∧ ts + op.gapMs ≤ int64Max

/-- Rows of a group: their times are in range, and the numbers of each session are
those of a column whose sums stay within 38 digits. -/
structure Arrives (column : TypedColumn) (arrivals : List (Int × Row (Datum ℚ))) : Prop where
  times : ∀ a ∈ arrivals, op.InRange a.1
  sound : ∀ run ∈ clusters op.gapMs (arrivals.map Prod.fst),
    Sound column (op.aggregates i) (valuesOf (op.aggregates i) ↑(rowsIn arrivals run))

/-- The sessions are the clusters of the timestamps, keyed by the first and ending
at the last, each with the result of one accumulator over its rows. -/
def AsFolded (arrivals : List (Int × Row (Datum ℚ))) : Prop :=
  ((op.sessionsAfter arrivals).entries.map fun e =>
      (e.1, e.2.start, e.2.endTs, finalizeAgg op.num (e.2.aggStates i) (op.aggregates i))) =
    (clusters op.gapMs (arrivals.map Prod.fst)).map fun run =>
      (firstTime run, firstTime run, lastTime run,
        finalizeAgg op.num (op.foldRows i (rowsIn arrivals run)) (op.aggregates i))

end SessionWindowRowOp

/-! ## Bags of rows -/

/-- A session's rows, in no order. -/
def rowBag : Aggregate (Row (Datum ℚ)) (Multiset (Row (Datum ℚ))) :=
  ⟨0, fun bag row => row ::ₘ bag, (· + ·)⟩

theorem rowBag_fold (rows : List (Row (Datum ℚ))) : rowBag.fold rows = ↑rows := by
  induction rows using List.reverseRecOn with
  | nil => rfl
  | append_singleton rows row ih =>
      rw [Aggregate.fold_snoc, ih]
      exact Multiset.coe_eq_coe.mpr (List.perm_append_singleton row rows).symm

theorem rowBag_lawful : rowBag.Lawful where
  comm rows rows' h := by
    rw [rowBag_fold, rowBag_fold]
    exact Multiset.coe_eq_coe.mpr h
  merge rows rows' := by
    rw [rowBag_fold, rowBag_fold, rowBag_fold]
    exact Multiset.coe_add rows rows'

variable {d : Arithmetic} {column : TypedColumn} {n : Nat} {op : SessionWindowRowOp ℚ n}
  {i : Fin n} {spec : AggSpec ℚ} {st : AggState ℚ} {bag : Multiset (Row (Datum ℚ))}

/-- One more row: what a state says of sound values it says with the row's. -/
theorem update_row (hspec : MergeableSpec spec)
    (hdistinguishes : spec.fn = .min ∨ spec.fn = .max → column.Distinguishes)
    (h : Sound column spec (valuesOf spec bag) → StateInv d.toDoubles spec (valuesOf spec bag) st)
    (row : Row (Datum ℚ)) (hsound : Sound column spec (valuesOf spec (row ::ₘ bag))) :
    StateInv d.toDoubles spec (valuesOf spec (row ::ₘ bag)) (updateAgg d.numerics st spec row) := by
  rw [updateAgg_eq hspec.star]
  unfold valuesOf at *
  cases hinput : inputOf spec row with
  | none =>
      rw [Multiset.filterMap_cons_none row bag hinput] at hsound ⊢
      exact h hsound
  | some v =>
      rw [Multiset.filterMap_cons_some _ row bag hinput] at hsound ⊢
      exact (h (hsound.mono (Multiset.le_cons_self _ v))).update hspec hdistinguishes hsound

theorem foldRows_inv (hnum : op.num = d.numerics) (hspec : MergeableSpec (op.aggregates i))
    (hdistinguishes : (op.aggregates i).fn = .min ∨ (op.aggregates i).fn = .max →
      column.Distinguishes) (rows : List (Row (Datum ℚ)))
    (hsound : Sound column (op.aggregates i) (valuesOf (op.aggregates i) ↑rows)) :
    StateInv d.toDoubles (op.aggregates i) (valuesOf (op.aggregates i) ↑rows)
      (op.foldRows i rows) := by
  induction rows using List.reverseRecOn with
  | nil =>
      unfold SessionWindowRowOp.foldRows
      rw [hnum]
      exact StateInv.empty d.toDoubles _
  | append_singleton rows row ih =>
      have hbag : (↑(rows ++ [row]) : Multiset (Row (Datum ℚ))) = row ::ₘ ↑rows :=
        Multiset.coe_eq_coe.mpr (List.perm_append_singleton row rows)
      have hfold : op.foldRows i (rows ++ [row]) =
          updateAgg d.numerics (op.foldRows i rows) (op.aggregates i) row := by
        unfold SessionWindowRowOp.foldRows
        rw [List.foldl_append, hnum]
        rfl
      rw [hbag] at hsound ⊢
      rw [hfold]
      exact update_row hspec hdistinguishes ih row hsound

/-! ## A session and its bag -/

/-- A session beside the one that keeps the bag of its rows. -/
structure Matches (d : Arithmetic) (column : TypedColumn) (op : SessionWindowRowOp ℚ n) (i : Fin n)
    (e : Int × Session ℚ n)
    (e' : Int × SessionWindowOperator.Session (Multiset (Row (Datum ℚ)))) : Prop where
  key : e.1 = e'.1
  start : e.2.start = e'.1
  endTs : e.2.endTs + op.gapMs = e'.2.endTs
  state : Sound column (op.aggregates i) (valuesOf (op.aggregates i) e'.2.agg) →
    StateInv d.toDoubles (op.aggregates i) (valuesOf (op.aggregates i) e'.2.agg) (e.2.aggStates i)

/-- The sessions are those of the bags. -/
def Tracks (d : Arithmetic) (column : TypedColumn) (op : SessionWindowRowOp ℚ n) (i : Fin n)
    (sessions : SortedMap Int (Session ℚ n)) (arrivals : List (Int × Row (Datum ℚ))) : Prop :=
  ∃ entries pairs, Grouped op.gapMs rowBag entries arrivals pairs ∧
    List.Forall₂ (Matches d column op i) sessions.entries entries

/-- The merged session beside the variables of the bags' scan, before the row. -/
structure MergedMatches (d : Arithmetic) (column : TypedColumn) (op : SessionWindowRowOp ℚ n)
    (i : Fin n) (ts : Int) (m : Session ℚ n) (m' : Merged (Multiset (Row (Datum ℚ)))) : Prop where
  start : m'.start = min m.start ts
  endTs : m'.endTs = max m.endTs ts + op.gapMs
  state : ∃ bag, m'.agg = some bag ∧
    (Sound column (op.aggregates i) (valuesOf (op.aggregates i) bag) →
    StateInv d.toDoubles (op.aggregates i) (valuesOf (op.aggregates i) bag) (m.aggStates i))

section Step

variable (hnum : op.num = d.numerics) (hspec : MergeableSpec (op.aggregates i))
  (hdistinguishes : (op.aggregates i).fn = .min ∨ (op.aggregates i).fn = .max →
    column.Distinguishes)
  {ts : Int} {e : Int × Session ℚ n}
  {e' : Int × SessionWindowOperator.Session (Multiset (Row (Datum ℚ)))} {m : Session ℚ n}
  {m' : Merged (Multiset (Row (Datum ℚ)))}

theorem MergedMatches.first (ts : Int) (h : Matches d column op i e e') :
    MergedMatches d column op i ts e.2
      (Merged.absorb rowBag.merger ⟨ts, ts + op.gapMs, none, false⟩ e') := by
  have hend := h.endTs
  refine ⟨?_, ?_, e'.2.agg, rfl, h.state⟩
  · rw [h.start]
    exact min_comm _ _
  · change max (ts + op.gapMs) e'.2.endTs = _
    omega

include hnum hspec hdistinguishes in
theorem MergedMatches.merge (hm : MergedMatches d column op i ts m m')
    (he : Matches d column op i e e') :
    MergedMatches d column op i ts (op.mergeInto m e.2) (m'.absorb rowBag.merger e') := by
  obtain ⟨hstart, hend, bag, hbag, hstate⟩ := hm
  have hend' := he.endTs
  refine ⟨?_, ?_, bag + e'.2.agg, ?_, ?_⟩
  · change min m'.start e'.1 = min (min m.start e.2.start) ts
    rw [hstart, he.start, min_right_comm]
  · change max m'.endTs e'.2.endTs = max (max m.endTs e.2.endTs) ts + op.gapMs
    omega
  · unfold Merged.absorb
    rw [hbag]
    rfl
  · intro hsound
    have hvalues : valuesOf (op.aggregates i) (bag + e'.2.agg) =
        valuesOf (op.aggregates i) bag + valuesOf (op.aggregates i) e'.2.agg :=
      Multiset.filterMap_add ..
    rw [hvalues] at hsound ⊢
    change StateInv _ _ _ (mergeState op.num _ _ _)
    rw [hnum]
    exact (hstate (hsound.mono (Multiset.le_add_right _ _))).merge hspec hdistinguishes hsound
      (he.state (hsound.mono (Multiset.le_add_left _ _)))

include hnum hspec hdistinguishes in
private theorem MergedMatches.mergeAll {others : List (Int × Session ℚ n)}
    {others' : List (Int × SessionWindowOperator.Session (Multiset (Row (Datum ℚ))))}
    (h : List.Forall₂ (Matches d column op i) others others')
    (hm : MergedMatches d column op i ts m m') :
    MergedMatches d column op i ts (others.foldl (fun m e => op.mergeInto m e.2) m)
      (others'.foldl (Merged.absorb rowBag.merger) m') := by
  induction h generalizing m m' with
  | nil => exact hm
  | cons he _ ih => exact ih (hm.merge hnum hspec hdistinguishes he)

/-- The scan passes over the sessions that ended, and stops at the first that has
not begun. -/
theorem overlaps_parts (before near after : List (Int × Session ℚ n))
    (hbefore : ∀ e ∈ before, satAdd e.2.endTs op.gapMs < ts)
    (hnear : ∀ e ∈ near, ts ≤ satAdd e.2.endTs op.gapMs ∧ e.2.start ≤ satAdd ts op.gapMs)
    (hafter : ∀ e ∈ after, ts ≤ satAdd e.2.endTs op.gapMs ∧ satAdd ts op.gapMs < e.2.start) :
    op.overlaps ts (before ++ (near ++ after)) = near := by
  induction before with
  | nil =>
      induction near with
      | nil =>
          cases after with
          | nil => rfl
          | cons e after =>
              obtain ⟨hend, hstart⟩ := hafter e List.mem_cons_self
              simp only [List.nil_append, SessionWindowRowOp.overlaps]
              rw [if_neg (not_lt.mpr hend), if_pos hstart]
      | cons e near ih =>
          obtain ⟨⟨hend, hstart⟩, hrest⟩ := List.forall_mem_cons.mp hnear
          simp only [List.nil_append, List.cons_append, SessionWindowRowOp.overlaps]
          rw [if_neg (not_lt.mpr hend), if_neg (not_lt.mpr hstart)]
          exact congrArg (List.cons e) (ih hrest)
  | cons e before ih =>
      obtain ⟨hend, hrest⟩ := List.forall_mem_cons.mp hbefore
      rw [List.cons_append, SessionWindowRowOp.overlaps, if_pos hend]
      exact ih hrest

theorem satAdd_inRange (h : op.InRange ts) : satAdd ts op.gapMs = ts + op.gapMs := by
  have := op.gapPos
  obtain ⟨hlower, hupper⟩ := h
  exact clampToInt64_eq_self (by omega) hupper

variable {arrivals : List (Int × Row (Datum ℚ))}

theorem Matches.satAdd_end (h : Matches d column op i e e')
    {entries : List (Int × SessionWindowOperator.Session (Multiset (Row (Datum ℚ))))} {pairs}
    (hgrouped : Grouped op.gapMs rowBag entries arrivals pairs)
    (hrange : ∀ a ∈ arrivals, op.InRange a.1) (he : e' ∈ entries) :
    satAdd e.2.endTs op.gapMs = e'.2.endTs ∧ e'.1 < e'.2.endTs := by
  rw [← hgrouped.sessions] at he
  obtain ⟨p, hp, rfl⟩ := List.mem_map.mp he
  have hholds := hgrouped.holds p hp
  refine ⟨?_, hholds.start_lt_end op.gapPos⟩
  obtain ⟨r, hr, hlast⟩ := hholds.last
  have hmem : r ∈ arrivals := hgrouped.all.mem_iff.mp (List.mem_flatMap.mpr ⟨p, hp, hr⟩)
  have hend := h.endTs
  have htime : e.2.endTs = r.1 := by omega
  rw [htime, satAdd_inRange (hrange r hmem), hlast]

private theorem filter_others {l before near after : List (Int × Session ℚ n)}
    (hl : l = before ++ (near ++ after)) (hsorted : l.Pairwise fun a b => a.1 < b.1) :
    (l.filter fun e => decide (e.1 ∉ near.map Prod.fst)) = before ++ after := by
  have hnear : (near.filter fun e => decide (e.1 ∉ near.map Prod.fst)) = [] := by
    rw [List.filter_eq_nil_iff]
    intro e he
    simpa using ⟨e.2, he⟩
  rw [hl] at hsorted ⊢
  obtain ⟨-, hrest, hfirst⟩ := List.pairwise_append.mp hsorted
  obtain ⟨-, -, hlast⟩ := List.pairwise_append.mp hrest
  have hbefore : (before.filter fun e => decide (e.1 ∉ near.map Prod.fst)) = before := by
    refine List.filter_eq_self.mpr fun e he => decide_eq_true fun hmem => ?_
    obtain ⟨e', he', heq⟩ := List.mem_map.mp hmem
    exact absurd heq (hfirst e he e' (List.mem_append_left _ he')).ne'
  have hafter : (after.filter fun e => decide (e.1 ∉ near.map Prod.fst)) = after := by
    refine List.filter_eq_self.mpr fun e he => decide_eq_true fun hmem => ?_
    obtain ⟨e', he', heq⟩ := List.mem_map.mp hmem
    exact absurd heq (hlast e' he' e he).ne
  rw [List.filter_append, List.filter_append, hbefore, hnear, hafter, List.nil_append]

theorem foldSession_opens {sessions : SortedMap Int (Session ℚ n)}
    (before after : List (Int × Session ℚ n)) (hoverlaps : op.overlaps ts sessions.entries = [])
    (hsessions : sessions.entries = before ++ after) (hts : op.InRange ts)
    (hbelow : ∀ e ∈ before, e.1 < ts) (habove : ∀ e ∈ after, ts < e.1) (row : Row (Datum ℚ)) :
    (op.foldSession sessions row ts (op.lateBound none)).sessions.entries =
      before ++ (ts, op.freshSession row ts) :: after := by
  have hnotLate : ¬ satAdd ts op.gapMs ≤ op.lateBound none := by
    have := op.gapPos
    rw [satAdd_inRange hts]
    obtain ⟨hlower, -⟩ := hts
    simp only [SessionWindowRowOp.lateBound]
    omega
  unfold SessionWindowRowOp.foldSession SessionWindowRowOp.emplace
  rw [hoverlaps]
  simp only [if_neg hnotLate]
  exact SortedMap.entries_upsert_between hsessions hbelow habove _

theorem foldSession_joins {sessions : SortedMap Int (Session ℚ n)}
    (before after : List (Int × Session ℚ n)) {others : List (Int × Session ℚ n)}
    {first : Int × Session ℚ n} (row : Row (Datum ℚ))
    (hoverlaps : op.overlaps ts sessions.entries = first :: others)
    (hsessions : sessions.entries = before ++ (first :: others ++ after))
    (hbelow : ∀ e ∈ before, e.1 < (op.joinedSession first others row ts).start)
    (habove : ∀ e ∈ after, (op.joinedSession first others row ts).start < e.1) (lateBound : Int) :
    (op.foldSession sessions row ts lateBound).sessions.entries =
      before ++ ((op.joinedSession first others row ts).start,
        op.joinedSession first others row ts) :: after := by
  unfold SessionWindowRowOp.foldSession SessionWindowRowOp.emplace
  rw [hoverlaps]
  exact SortedMap.entries_upsert_between (filter_others hsessions sessions.sorted) hbelow habove _

theorem forall₂_append_right {α β : Type*} {R : α → β → Prop} {l : List α}
    {l₁ l₂ : List β} (h : List.Forall₂ R l (l₁ ++ l₂)) :
    ∃ k₁ k₂, l = k₁ ++ k₂ ∧ List.Forall₂ R k₁ l₁ ∧ List.Forall₂ R k₂ l₂ :=
  ⟨_, _, (List.take_append_drop l₁.length l).symm, List.forall₂_take_append l l₁ l₂ h,
    List.forall₂_drop_append l l₁ l₂ h⟩

theorem exists_of_forall₂ {α β : Type*} {R : α → β → Prop} {l : List α} {k : List β}
    (h : List.Forall₂ R l k) : ∀ x ∈ l, ∃ y ∈ k, R x y := by
  intro x hx
  obtain ⟨i, hi, rfl⟩ := List.mem_iff_getElem.mp hx
  exact ⟨_, List.getElem_mem (h.length_eq ▸ hi), h.get hi _⟩

include hnum hspec hdistinguishes in
theorem Tracks.foldSession {sessions : SortedMap Int (Session ℚ n)}
    (hrange : ∀ a ∈ arrivals, op.InRange a.1) (hts : op.InRange ts) (row : Row (Datum ℚ))
    (h : Tracks d column op i sessions arrivals) :
    Tracks d column op i (op.foldSession sessions row ts (op.lateBound none)).sessions
      (arrivals ++ [(ts, row)]) := by
  obtain ⟨entries, pairs, hgrouped, hmatches⟩ := h
  obtain ⟨before', near', after', hentries, hbefore, hnear, hafter, hjoin⟩ :=
    hgrouped.join rowBag_lawful op.gapPos ts row
  generalize hm : near'.foldl (Merged.absorb rowBag.merger) ⟨ts, ts + op.gapMs, none, false⟩ = m'
  obtain ⟨hbelow', habove', pairs', hgrouped'⟩ := hjoin m' hm.symm
  have hgap := op.gapPos
  have hsat := satAdd_inRange hts
  rw [hentries] at hmatches
  obtain ⟨before, rest, hsessions, hmatchesBefore, hmatchesRest⟩ := forall₂_append_right hmatches
  obtain ⟨near, after, rfl, hmatchesNear, hmatchesAfter⟩ := forall₂_append_right hmatchesRest
  have hmem : ∀ e', e' ∈ before' ∨ e' ∈ near' ∨ e' ∈ after' → e' ∈ entries := by
    intro e' he'
    rw [hentries]
    simpa using he'
  have hoverlaps : op.overlaps ts sessions.entries = near := by
    rw [hsessions]
    refine overlaps_parts before near after ?_ ?_ ?_
    · intro e he
      obtain ⟨e', he', hmatch⟩ := exists_of_forall₂ hmatchesBefore e he
      rw [(hmatch.satAdd_end hgrouped hrange (hmem e' (.inl he'))).1]
      exact (hbefore e' he').2
    · intro e he
      obtain ⟨e', he', hmatch⟩ := exists_of_forall₂ hmatchesNear e he
      rw [(hmatch.satAdd_end hgrouped hrange (hmem e' (.inr (.inl he')))).1, hsat, hmatch.start]
      exact ⟨(hnear e' he').2, (hnear e' he').1⟩
    · intro e he
      obtain ⟨e', he', hmatch⟩ := exists_of_forall₂ hmatchesAfter e he
      obtain ⟨hend, hlt⟩ := hmatch.satAdd_end hgrouped hrange (hmem e' (.inr (.inr he')))
      have hstart := hafter e' he'
      rw [hend, hsat, hmatch.start]
      exact ⟨by omega, hstart⟩
  -- The keys on both sides of the merged session are those of the bags.
  have hbelow : ∀ e ∈ before, e.1 < m'.start := by
    intro e he
    obtain ⟨e', he', hmatch⟩ := exists_of_forall₂ hmatchesBefore e he
    rw [hmatch.key]
    exact hbelow' e' he'
  have habove : ∀ e ∈ after, m'.start < e.1 := by
    intro e he
    obtain ⟨e', he', hmatch⟩ := exists_of_forall₂ hmatchesAfter e he
    rw [hmatch.key]
    exact habove' e' he'
  refine ⟨_, pairs', hgrouped', ?_⟩
  cases hmatchesNear with
  | nil =>
      rw [List.foldl_nil] at hm
      subst hm
      rw [foldSession_opens before after hoverlaps hsessions hts hbelow habove]
      refine List.rel_append hmatchesBefore (.cons ⟨rfl, rfl, rfl, ?_⟩ hmatchesAfter)
      change Sound _ _ (valuesOf _ (row ::ₘ 0)) → StateInv _ _ (valuesOf _ (row ::ₘ 0))
        (updateAgg op.num (emptyState op.num) (op.aggregates i) row)
      rw [hnum]
      exact update_row hspec hdistinguishes (fun _ => StateInv.empty d.toDoubles _) row
  | @cons first first' others others' hfirst hothers =>
      have hmerged := (MergedMatches.first ts hfirst).mergeAll hnum hspec hdistinguishes hothers
      rw [List.foldl_cons] at hm
      rw [hm] at hmerged
      obtain ⟨hstart, hend, bag, hbag, hstate⟩ := hmerged
      rw [hstart] at hbelow habove
      rw [foldSession_joins before after row hoverlaps hsessions hbelow habove]
      refine List.rel_append hmatchesBefore
        (.cons ⟨hstart.symm, hstart.symm, hend.symm, ?_⟩ hmatchesAfter)
      change Sound _ _ (valuesOf _ (row ::ₘ m'.agg.getD 0)) →
        StateInv _ _ (valuesOf _ (row ::ₘ m'.agg.getD 0)) (updateAgg op.num _ (op.aggregates i) row)
      rw [hnum, hbag]
      exact update_row hspec hdistinguishes hstate row

include hnum hspec hdistinguishes in
theorem tracks_sessionsAfter (arrivals : List (Int × Row (Datum ℚ)))
    (hrange : ∀ a ∈ arrivals, op.InRange a.1) :
    Tracks d column op i (op.sessionsAfter arrivals) arrivals := by
  induction arrivals using List.reverseRecOn with
  | nil => exact ⟨[], [], Grouped.nil, .nil⟩
  | append_singleton arrivals a ih =>
      have hbefore : ∀ a ∈ arrivals, op.InRange a.1 :=
        fun a' ha' => hrange a' (List.mem_append_left _ ha')
      have hstep := (ih hbefore).foldSession hnum hspec hdistinguishes hbefore
        (hrange a (by simp)) a.2
      unfold SessionWindowRowOp.sessionsAfter at hstep ⊢
      rw [List.foldl_append]
      exact hstep

include hnum hspec hdistinguishes in
theorem asFolded_of_distinguishes (harrives : op.Arrives i column arrivals) :
    op.AsFolded i arrivals := by
  obtain ⟨entries, pairs, hgrouped, hmatches⟩ :=
    tracks_sessionsAfter hnum hspec hdistinguishes arrivals harrives.times
  rw [hgrouped.eq_expected rowBag_lawful op.gapPos] at hmatches
  unfold SessionWindowOperator.expectedSessions at hmatches
  have hboth := (List.forall₂_and_left _ _).mpr
    ⟨harrives.sound, (List.forall₂_map_right_iff.mp hmatches).flip⟩
  unfold SessionWindowRowOp.AsFolded
  rw [← List.forall₂_eq_eq_eq, List.forall₂_map_left_iff, List.forall₂_map_right_iff]
  refine hboth.flip.imp ?_
  rintro e run ⟨hsound, hmatch⟩
  have hend : e.2.endTs = lastTime run := by
    have := hmatch.endTs
    simp only [SessionWindowOperator.sessionOf] at this
    omega
  have hbag : (SessionWindowOperator.sessionOf op.gapMs rowBag arrivals run).2.agg =
      ↑(rowsIn arrivals run) := rowBag_fold _
  have hstate := hmatch.state
  rw [hbag] at hstate
  have hresult := (hstate hsound).finalize_eq hspec hsound
    (foldRows_inv hnum hspec hdistinguishes (rowsIn arrivals run) hsound)
  rw [hnum, hmatch.key, hmatch.start, hend, hresult]
  rfl

end Step

/-! ## Exactly when -/

section Collapse

variable {x y : Int}

/-- Two sessions a gap and one apart, the later one first, and a row that joins them. -/
def bridge (op : SessionWindowRowOp ℚ n) (later earlier between : Row (Datum ℚ)) :
    List (Int × Row (Datum ℚ)) :=
  [(int64Min + op.gapMs + 1, later), (int64Min, earlier), (int64Min + 1, between)]

section Bridge

variable (op : SessionWindowRowOp ℚ n) (later earlier between : Row (Datum ℚ))

theorem bridge_inRange :
    op.InRange (int64Min + op.gapMs + 1) ∧ op.InRange int64Min ∧ op.InRange (int64Min + 1) := by
  have hpos := op.gapPos
  have hmax := op.gapMax
  unfold SessionWindowRowOp.InRange int64Min
  unfold int64Max at *
  omega

/-- The three rows make one session, in which the earlier session takes in the later. -/
theorem sessionsAfter_bridge :
    (op.sessionsAfter (bridge op later earlier between)).entries =
      [(int64Min, op.joinedSession (int64Min, op.freshSession earlier int64Min)
        [(int64Min + op.gapMs + 1, op.freshSession later (int64Min + op.gapMs + 1))] between
        (int64Min + 1))] := by
  obtain ⟨hlater, hearlier, hbetween⟩ := bridge_inRange op
  have hpos := op.gapPos
  have hlaterEnd := satAdd_inRange hlater
  have hearlierEnd := satAdd_inRange hearlier
  have hbetweenEnd := satAdd_inRange hbetween
  have hnone : ∀ (P : Int × Session ℚ n → Prop), ∀ e ∈ [], P e := by simp
  have hfirst : (op.foldSession SortedMap.empty later (int64Min + op.gapMs + 1)
      (op.lateBound none)).sessions.entries =
        [(int64Min + op.gapMs + 1, op.freshSession later (int64Min + op.gapMs + 1))] :=
    foldSession_opens [] [] rfl rfl hlater (hnone _) (hnone _) later
  have hscan : op.overlaps int64Min
      [(int64Min + op.gapMs + 1, op.freshSession later (int64Min + op.gapMs + 1))] = [] := by
    refine overlaps_parts [] [] _ (hnone _) (hnone _) (List.forall_mem_singleton.mpr ?_)
    change int64Min ≤ satAdd (int64Min + op.gapMs + 1) op.gapMs ∧
      satAdd int64Min op.gapMs < int64Min + op.gapMs + 1
    rw [hlaterEnd, hearlierEnd]
    omega
  have hsecond :=
    foldSession_opens [] _ ((congrArg (op.overlaps _) hfirst).trans hscan) hfirst hearlier (hnone _)
    (by simp only [List.forall_mem_singleton]; omega) earlier
  rw [List.nil_append] at hsecond
  have hscan' : op.overlaps (int64Min + 1)
      [(int64Min, op.freshSession earlier int64Min),
        (int64Min + op.gapMs + 1, op.freshSession later (int64Min + op.gapMs + 1))] =
      [(int64Min, op.freshSession earlier int64Min),
        (int64Min + op.gapMs + 1, op.freshSession later (int64Min + op.gapMs + 1))] := by
    refine overlaps_parts [] _ [] (hnone _) (List.forall_mem_cons.mpr
      ⟨?_, List.forall_mem_singleton.mpr ?_⟩) (hnone _)
    · change int64Min + 1 ≤ satAdd int64Min op.gapMs ∧ int64Min ≤ satAdd (int64Min + 1) op.gapMs
      rw [hearlierEnd, hbetweenEnd]
      omega
    · change int64Min + 1 ≤ satAdd (int64Min + op.gapMs + 1) op.gapMs ∧
        int64Min + op.gapMs + 1 ≤ satAdd (int64Min + 1) op.gapMs
      rw [hlaterEnd, hbetweenEnd]
      omega
  have hstart : (op.joinedSession (int64Min, op.freshSession earlier int64Min)
      [(int64Min + op.gapMs + 1, op.freshSession later (int64Min + op.gapMs + 1))] between
      (int64Min + 1)).start = int64Min := by
    change min (min int64Min (int64Min + op.gapMs + 1)) (int64Min + 1) = int64Min
    omega
  have hthird := foldSession_joins [] [] between
    ((congrArg (op.overlaps _) hsecond).trans hscan') hsecond (hnone _) (hnone _)
    (op.lateBound none)
  rw [hstart, List.nil_append] at hthird
  exact hthird

end Bridge

section Ties

variable {isMin : Bool} {v w : Datum ℚ}

/-- Merging and updating keep the value of the earlier part where nothing replaces it. -/
theorem running_tie (hfn : spec.fn = if isMin then .min else .max)
    (hwv : replaces d.numerics isMin w v = false) :
    let first := updateExtreme d.numerics (emptyState d.numerics) isMin false v
    let other := updateExtreme d.numerics (emptyState d.numerics) isMin false w
    running isMin
      (updateExtreme d.numerics (mergeState d.numerics spec first other) isMin false w) =
      some v := by
  intro first other
  have htakes : ∀ u, (updateExtreme d.numerics (emptyState d.numerics) isMin false u).initialised =
      true ∧ running isMin (updateExtreme d.numerics (emptyState d.numerics) isMin false u) =
        some u :=
    fun u => (updateExtreme_appendOnly isMin (emptyState d.numerics) u d.numerics).1 rfl
  obtain ⟨first', hinitialised, hrunning, hmerge⟩ :=
    mergeState_extreme isMin hfn d.numerics first other
  rw [(htakes v).1] at hinitialised
  rw [(htakes v).2] at hrunning
  have hmerged : mergeState d.numerics spec first other = first' := by
    rw [hmerge]
    exact (mergeExtreme_cases d.numerics isMin first' other).2.2.2 hinitialised v w hrunning
      (htakes w).2 hwv
  rw [hmerged, (updateExtreme_appendOnly isMin first' w d.numerics).2
    (by simp [hinitialised, hrunning, hwv])]
  exact hrunning

private theorem counts_tie (hwv : jsonValueLess d.numerics w v = false)
    (hvw : jsonValueLess d.numerics v w = false) :
    let first := updateExtreme d.numerics (emptyState d.numerics) isMin true v
    let other := updateExtreme d.numerics (emptyState d.numerics) isMin true w
    (updateExtreme d.numerics (mergeState d.numerics spec first other) isMin true w).minmaxCounts =
      [(v, 3)] := by
  intro first other
  obtain ⟨-, -, hcounts⟩ := mergeState_counts d.numerics spec first other
  change bump _ w (mergeState d.numerics spec first other).minmaxCounts = _
  rw [hcounts]
  change bump _ w (addCount _ w 1 [(v, 1)]) = _
  simp [addCount, bump, hwv, hvw]

/-- One accumulator keeps the value that came first. -/
theorem fold_tie (hvw : replaces d.numerics isMin v w = false)
    (hww : replaces d.numerics isMin w w = false) :
    let first := updateExtreme d.numerics (emptyState d.numerics) isMin false w
    running isMin (updateExtreme d.numerics (updateExtreme d.numerics first isMin false v)
      isMin false w) = some w := by
  intro first
  obtain ⟨hinitialised, hrunning⟩ :=
    (updateExtreme_appendOnly isMin (emptyState d.numerics) w d.numerics).1 rfl
  have hkept : updateExtreme d.numerics first isMin false v = first :=
    (updateExtreme_appendOnly isMin first v d.numerics).2
      (by simp [first, hinitialised, hrunning, hvw])
  rw [hkept, (updateExtreme_appendOnly isMin first w d.numerics).2
    (by simp [first, hinitialised, hrunning, hww])]
  exact hrunning

theorem finalize_running (hfn : spec.fn = if isMin then .min else .max)
    (hretractable : spec.retractable = false) (h : running isMin st = some v) :
    finalizeAgg d.numerics st spec = some (.datum v) := by
  unfold finalizeAgg
  cases isMin with
  | true | false => simpa [hfn, hretractable, running] using h

theorem finalize_counts (hfn : spec.fn = if isMin then .min else .max)
    (hretractable : spec.retractable = true) {c : Count} (h : st.minmaxCounts = [(v, c)]) :
    finalizeAgg d.numerics st spec = some (.datum v) := by
  unfold finalizeAgg
  cases isMin with
  | true | false => simp [hfn, hretractable, h]

/-- Of two integers with the same double the session keeps that of its earlier part,
one accumulator that which came first. -/
theorem finalize_bridge (isMin : Bool) (hnum : op.num = d.numerics)
    (hspec : MergeableSpec (op.aggregates i))
    (hfn : (op.aggregates i).fn = if isMin then .min else .max) {x y : Int}
    (hsame : toDouble x = toDouble y) {later earlier : Row (Datum ℚ)}
    (hlater : later = rowOf (op.aggregates i).inputColumn (.int x))
    (hearlier : earlier = rowOf (op.aggregates i).inputColumn (.int y)) :
    finalizeAgg op.num ((op.joinedSession (int64Min, op.freshSession earlier int64Min)
        [(int64Min + op.gapMs + 1, op.freshSession later (int64Min + op.gapMs + 1))] later
        (int64Min + 1)).aggStates i) (op.aggregates i) = some (.datum (.int y)) ∧
      finalizeAgg op.num (op.foldRows i [later, earlier, later]) (op.aggregates i) =
        some (.datum (.int x)) := by
  have hless : ∀ u w : Int, toDouble u = toDouble w →
      jsonValueLess d.numerics (.int u) (.int w) = false := by
    intro u w heq
    rw [less_int, heq, decide_eq_false_iff_not]
    exact lt_irrefl _
  have hkept : ∀ u w : Int, toDouble u = toDouble w →
      replaces d.numerics isMin (.int u) (.int w) = false := by
    intro u w heq
    cases isMin with
    | true => exact hless u w heq
    | false => exact hless w u heq.symm
  have hupdate : ∀ (st : AggState ℚ) (z : Int), updateAgg d.numerics st (op.aggregates i)
      (rowOf (op.aggregates i).inputColumn (.int z)) =
        updateExtreme d.numerics st isMin (op.aggregates i).retractable (.int z) := by
    intro st z
    have hextreme : (op.aggregates i).fn = .min ∨ (op.aggregates i).fn = .max := by
      cases isMin <;> simp [hfn]
    rw [updateAgg_eq hspec.star, inputOf_rowOf hextreme, Option.map_some, Option.getD_some]
    unfold updateValue
    cases isMin <;> simp [hfn]
  have hstate : (op.joinedSession (int64Min, op.freshSession earlier int64Min)
      [(int64Min + op.gapMs + 1, op.freshSession later (int64Min + op.gapMs + 1))] later
      (int64Min + 1)).aggStates i =
        updateAgg op.num (mergeState op.num (op.aggregates i)
          (updateAgg op.num (emptyState op.num) (op.aggregates i) earlier)
          (updateAgg op.num (emptyState op.num) (op.aggregates i) later)) (op.aggregates i)
            later := rfl
  have hfold : op.foldRows i [later, earlier, later] =
      updateAgg op.num
        (updateAgg op.num (updateAgg op.num (emptyState op.num) (op.aggregates i) later)
        (op.aggregates i) earlier) (op.aggregates i) later := rfl
  rw [hstate, hfold, hlater, hearlier, hnum]
  simp only [hupdate]
  cases hretractable : (op.aggregates i).retractable with
  | true =>
      refine
        ⟨finalize_counts hfn hretractable (counts_tie (hless _ _ hsame) (hless _ _ hsame.symm)),
        finalize_counts hfn hretractable (c := 3) ?_⟩
      change bump _ (Datum.int x) (bump _ (Datum.int y) [(Datum.int x, 1)]) = _
      simp [bump, addCount, hless _ _ hsame, hless _ _ hsame.symm, hless x x rfl]
  | false =>
      exact ⟨finalize_running hfn hretractable (running_tie hfn (hkept _ _ hsame)),
        finalize_running hfn hretractable (fold_tie (hkept _ _ hsame.symm) (hkept x x rfl))⟩

end Ties

theorem bridge_arrives
    (hextreme : (op.aggregates i).fn = .min ∨ (op.aggregates i).fn = .max) {x y : Int}
    (hx : .int x ∈ column.values) (hy : .int y ∈ column.values) {later earlier : Row (Datum ℚ)}
    (hlater : later = rowOf (op.aggregates i).inputColumn (.int x))
    (hearlier : earlier = rowOf (op.aggregates i).inputColumn (.int y)) :
    op.Arrives i column (bridge op later earlier later) := by
  obtain ⟨hlate, hearly, hbetween⟩ := bridge_inRange op
  refine
    ⟨by simp [bridge, hlate, hearly, hbetween], fun run _ => ⟨fun _ v hv => ?_, fun hsum => ?_⟩⟩
  · obtain ⟨row, hrow, hinput⟩ := (Multiset.mem_filterMap _ _).mp hv
    obtain ⟨a, ha, rfl⟩ := List.mem_map.mp (Multiset.mem_coe.mp hrow)
    have hmem := (List.mem_filter.mp ha).1
    simp only [bridge, List.mem_cons, List.not_mem_nil, or_false] at hmem
    rcases hmem with rfl | rfl | rfl
    · rw [hlater, inputOf_rowOf hextreme] at hinput
      rwa [← Option.some.inj hinput]
    · rw [hearlier, inputOf_rowOf hextreme] at hinput
      rwa [← Option.some.inj hinput]
    · rw [hlater, inputOf_rowOf hextreme] at hinput
      rwa [← Option.some.inj hinput]
  · rcases hextreme with hfn | hfn <;> simp [hfn] at hsum

/-- Where the session of the three rows has the result of one accumulator the two
integers are one. -/
theorem eq_of_asFolded_bridge {later earlier : Row (Datum ℚ)} {x y : Int}
    (hsession : finalizeAgg op.num ((op.joinedSession (int64Min, op.freshSession earlier int64Min)
        [(int64Min + op.gapMs + 1, op.freshSession later (int64Min + op.gapMs + 1))] later
        (int64Min + 1)).aggStates i) (op.aggregates i) = some (.datum (.int y)))
    (hone : finalizeAgg op.num (op.foldRows i [later, earlier, later]) (op.aggregates i) =
      some (.datum (.int x)))
    (hfolded : op.AsFolded i (bridge op later earlier later)) : x = y := by
  unfold SessionWindowRowOp.AsFolded at hfolded
  rw [sessionsAfter_bridge, List.map_singleton, hsession] at hfolded
  obtain ⟨run, -, hrun⟩ := List.map_eq_singleton_iff.mp hfolded.symm
  simp only [Prod.mk.injEq] at hrun
  obtain ⟨hfirst, -, hlast, hresult⟩ := hrun
  have hrows : rowsIn (bridge op later earlier later) run = [later, earlier, later] := by
    have hpos := op.gapPos
    have hend : lastTime run = int64Min + op.gapMs + 1 := by
      rw [hlast]
      change max (max int64Min (int64Min + op.gapMs + 1)) (int64Min + 1) = _
      omega
    unfold rowsIn
    rw [hfirst, hend, List.filter_eq_self.mpr]
    · rfl
    · simp only [bridge, List.forall_mem_cons]
      simp
      omega
  rw [hrows, hone] at hresult
  exact Datum.int.inj (Output.datum.inj (Option.some.inj hresult))

/-- Where the sessions of MIN or MAX are always those of one accumulator the doubles
tell the integers apart. -/
theorem distinguishes_of_asFolded (hnum : op.num = d.numerics)
    (hspec : MergeableSpec (op.aggregates i))
    (hextreme : (op.aggregates i).fn = .min ∨ (op.aggregates i).fn = .max)
    (h : ∀ arrivals, op.Arrives i column arrivals → op.AsFolded i arrivals) :
    column.Distinguishes := by
  intro x y hx hy hsame
  obtain ⟨isMin, hfn⟩ : ∃ isMin : Bool, (op.aggregates i).fn = if isMin then .min else .max := by
    rcases hextreme with hfn | hfn
    · exact ⟨true, hfn⟩
    · exact ⟨false, hfn⟩
  obtain ⟨hsession, hone⟩ := finalize_bridge isMin hnum hspec hfn hsame rfl rfl
  exact eq_of_asFolded_bridge hsession hone (h _ (bridge_arrives hextreme hx hy rfl rfl))

/-- With no watermark between its rows a group's sessions are the clusters of their
timestamps, each with the result of one accumulator over its rows, in every order of
arrival exactly where MIN and MAX are not asked of two integers with the same double. -/
theorem sessions_folded_iff (d : Arithmetic) (column : TypedColumn) (op : SessionWindowRowOp ℚ n)
    (i : Fin n) (hnum : op.num = d.numerics) (hspec : MergeableSpec (op.aggregates i)) :
    (∀ arrivals, op.Arrives i column arrivals → op.AsFolded i arrivals) ↔
      ((op.aggregates i).fn = .min ∨ (op.aggregates i).fn = .max → column.Distinguishes) :=
  ⟨fun h hextreme => distinguishes_of_asFolded hnum hspec hextreme h,
    fun h _ harrives => asFolded_of_distinguishes hnum hspec h harrives⟩

end Collapse

private theorem ten_pos : (0 : Int) < 10 := by decide

/-- A session window with a gap of ten and the MIN of a column `x`. -/
def minPerSession : SessionWindowRowOp ℚ 1 where
  num := nearest.numerics
  gapMs := 10
  gapPos := ten_pos
  gapMax := by decide
  groupKeys := []
  aggregates _ := minOfX

theorem minOfX_mergeable : MergeableSpec minOfX where
  fn := .inr (.inr (.inl rfl))
  distinct := fun h => nomatch h
  star := fun h => nomatch h
  notArray := fun h => nomatch h

theorem sessions_folded_iff_minPerSession :
    MergeableSpec minOfX ∧ ∀ arrivals, minPerSession.Arrives 0 (int64Column (2 ^ 53)) arrivals →
      minPerSession.AsFolded 0 arrivals := by
  exact ⟨minOfX_mergeable,
    (sessions_folded_iff nearest _ minPerSession 0 rfl minOfX_mergeable).mpr fun _ =>
      distinguishes_small⟩

/-- 2⁵³ + 1 eleven past the least time, then 2⁵³ at the least time, then 2⁵³ + 1 between
them. -/
def mergedTie : List (Int × Row (Datum ℚ)) :=
  bridge minPerSession (rowOf ['x'] (.int 9007199254740993)) (rowOf ['x'] (.int 9007199254740992))
    (rowOf ['x'] (.int 9007199254740993))

/-- The MIN of the session is 2⁵³, that of one accumulator over its rows 2⁵³ + 1. -/
theorem session_min_depends_on_merges :
    minPerSession.Arrives 0 (int64Column (2 ^ 63)) mergedTie ∧
      (minPerSession.sessionsAfter mergedTie).entries.map (fun e =>
        finalizeAgg nearest.numerics (e.2.aggStates 0) minOfX) =
          [some (.datum (.int 9007199254740992))] ∧
      finalizeAgg nearest.numerics (minPerSession.foldRows 0 (mergedTie.map Prod.snd)) minOfX =
        some (.datum (.int 9007199254740993)) ∧
      ¬ minPerSession.AsFolded 0 mergedTie := by
  have hnum : minPerSession.num = nearest.numerics := rfl
  have hspec : MergeableSpec (minPerSession.aggregates 0) := minOfX_mergeable
  obtain ⟨hsession, hone⟩ := finalize_bridge true hnum hspec rfl
    (x := 9007199254740993) (y := 9007199254740992) (by decide) rfl rfl
  have hlater : .int 9007199254740993 ∈ (int64Column (2 ^ 63)).values := ⟨_, rfl, by decide⟩
  have hearlier : .int 9007199254740992 ∈ (int64Column (2 ^ 63)).values := ⟨_, rfl, by decide⟩
  refine ⟨bridge_arrives (.inl rfl) hlater hearlier rfl rfl, ?_, hone, ?_⟩
  · unfold mergedTie
    rw [sessionsAfter_bridge, List.map_singleton]
    exact congrArg (fun result => [result]) hsession
  · intro hfolded
    exact absurd (eq_of_asFolded_bridge hsession hone hfolded) (by decide)

end Clink.Ports.SessionWindowRow

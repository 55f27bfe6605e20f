import Mathlib.Order.Bounds.Basic
import Clink.Ports.SlidingWindowOperator

/-!
# Late records of the sliding window operator

A record is in several windows, each with a purge deadline of its own.  The late
check looks at the last of them only, and folds it from zero; a record that
passes goes into every window it is in.  `LateRouting` says what the deadlines ask
for, `Settings.Clear` when the operator does it: the watermark is past all the
deadlines of the record, or ahead of none.  Along a run of such records no window
past its deadline emits.
-/

namespace Clink.Ports.SlidingWindowOperator

open Clink.Verified
open Clink.Ports.Time
open Clink.Ports.WindowTrigger
open Clink.Ports.WindowArithmetic
open Clink.Ports.TumblingWindowOperator (Aggregate StateKey WindowEntry Backend Pane Record Emitted
  Action Event emitData)

section Routing

variable {K V A τ : Type} [LinearOrder K]

/-- The ends of the windows that contain `ts`. -/
def Settings.windowEnds (cfg : Settings) (ts : Int) : Set Int :=
  {e | ∃ s, PaneStart ts cfg.windowSize cfg.slideSize s ∧ e = s + cfg.windowSize}

/-- The starts of the windows the record is handed to. -/
def Operator.updatedStarts (cfg : Settings) (op : Operator K A τ) (r : Record K V) : List Int :=
  if op.RoutesLate cfg r then [] else cfg.windowStartsFor r.ts

/-- The record goes to the late output when its last window is past its deadline,
and otherwise into its windows that are not. -/
structure LateRouting (cfg : Settings) (agg : Aggregate V A) (trig : Trigger V τ)
    (op : Operator K A τ) (r : Record K V) : Prop where
  late : .late r.value r.eventTime ∈ (op.ingestOne cfg agg trig r).2 ↔
    ∃ e, IsGreatest (cfg.windowEnds r.ts) e ∧ op.ctx.currentWatermark ≥ e + cfg.allowedLateness
  updates : .late r.value r.eventTime ∉ (op.ingestOne cfg agg trig r).2 →
    ∀ s, s ∈ op.updatedStarts cfg r ↔ PaneStart r.ts cfg.windowSize cfg.slideSize s ∧
      op.ctx.currentWatermark < s + cfg.windowSize + cfg.allowedLateness

/-- The watermark is past the deadline of the last window, counted as no earlier
than the epoch, or ahead of the deadline of the first. -/
def Settings.Clear (cfg : Settings) (ts wm : Int) : Prop :=
  max 0 (cfg.latestStart ts + cfg.windowSize) + cfg.allowedLateness ≤ wm ∨
    wm < cfg.latestStart ts + cfg.slideSize + cfg.allowedLateness

instance (cfg : Settings) (ts wm : Int) : Decidable (cfg.Clear ts wm) :=
  inferInstanceAs (Decidable (_ ∨ _))

end Routing

/-! ## One record -/

section Record

variable {K V A τ : Type} [LinearOrder K] {cfg : Settings} {agg : Aggregate V A}
  {trig : Trigger V τ} {op : Operator K A τ} {r : Record K V} {ts : Int}

theorem isGreatest_windowEnds (h : cfg.Valid) :
    IsGreatest (cfg.windowEnds ts) (cfg.latestStart ts + cfg.windowSize) := by
  refine ⟨⟨_, h.paneStart_latestStart, rfl⟩, ?_⟩
  rintro e ⟨s, hs, rfl⟩
  have := h.le_latestStart hs.1 hs.2.1
  omega

/-- The record's first window ends one slide after its last one starts. -/
theorem paneStart_first (h : cfg.Valid) : PaneStart ts cfg.windowSize cfg.slideSize
    (cfg.latestStart ts - cfg.windowSize + cfg.slideSize) := by
  obtain ⟨n, -, -, hmul⟩ := h.exists_count
  have hlt : ts < cfg.latestStart ts + cfg.slideSize := h.lt_latestStart_add
  have hle : cfg.latestStart ts ≤ ts := h.latestStart_le
  have hslide := h.slide_le_size
  refine ⟨?_, by omega, by omega⟩
  have hlatest : cfg.slideSize ∣ cfg.latestStart ts := Int.dvd_mul_left _ _
  have hsize : cfg.slideSize ∣ cfg.windowSize := by
    rw [hmul]
    exact Int.dvd_mul_left _ _
  exact Int.dvd_add (Int.dvd_sub hlatest hsize) (Int.dvd_refl _)

omit [LinearOrder K] in
private theorem late_notMem_emitData (panes : List (Pane K A)) (v : V) (et : Option Int) :
    Emitted.late v et ∉ (emitData panes : List (Emitted K V A)) := by
  unfold emitData
  split <;> simp

private theorem late_notMem_handleStarts (key : K) (v : V) (ts : Int) (et : Option Int)
    (starts : List Int) : ∀ op : Operator K A τ,
    Emitted.late v et ∉ (op.handleStarts cfg agg trig key v ts starts).2 := by
  induction starts with
  | nil => exact fun op => List.not_mem_nil
  | cons s rest ih =>
      intro op hmem
      rcases List.mem_append.mp hmem with hmem | hmem
      · exact late_notMem_emitData _ _ _ hmem
      · exact ih _ hmem

/-- The side output gets the record exactly when the late check says so. -/
theorem late_mem_ingestOne :
    .late r.value r.eventTime ∈ (op.ingestOne cfg agg trig r).2 ↔ op.RoutesLate cfg r := by
  unfold Operator.ingestOne
  split
  · rename_i hlate
    simp [hlate]
  · rename_i hlate
    simp only [hlate, iff_false]
    exact late_notMem_handleStarts _ _ _ _ _ _

section Exact

variable (h : cfg.Valid) (hsize : InInt64 cfg.windowSize) (hlateness : 0 ≤ cfg.allowedLateness)

include h hsize hlateness

theorem mem_windowStartsFor_of_fits (hfits : cfg.Fits ts) {s : Int} :
    s ∈ cfg.windowStartsFor ts ↔ PaneStart ts cfg.windowSize cfg.slideSize s := by
  have hupper := hfits.upper
  exact mem_windowStartsFor h hsize hfits.lower (by omega)

theorem routesLate_iff (htag : cfg.lateTag = true) (hfits : cfg.Fits r.ts)
    (hmax : cfg.allowedLateness ≤ int64Max) : op.RoutesLate cfg r ↔
      max 0 (cfg.latestStart r.ts + cfg.windowSize) + cfg.allowedLateness ≤
        op.ctx.currentWatermark := by
  have hlatest : cfg.latestStart r.ts ∈ cfg.windowStartsFor r.ts :=
    (mem_windowStartsFor_of_fits h hsize hlateness hfits).mpr h.paneStart_latestStart
  have hupper := hfits.upper
  have hmin : int64Min ≤ 0 := by decide
  have hexact : add64 (max 0 (cfg.latestStart r.ts + cfg.windowSize)) cfg.allowedLateness =
      max 0 (cfg.latestStart r.ts + cfg.windowSize) + cfg.allowedLateness :=
    bmod_of_inInt64 ⟨by omega, by omega⟩
  unfold Operator.RoutesLate
  rw [latestEnd_windowStartsFor h hsize hlateness hfits, hexact]
  constructor
  · exact fun hlate => hlate.2.2
  · exact fun hpast => ⟨htag, List.ne_nil_of_mem hlatest, hpast⟩

/-- A record is routed by its deadlines exactly where the watermark is past all of
them or ahead of all of them. -/
theorem lateRouting_iff (htag : cfg.lateTag = true) (hfits : cfg.Fits r.ts)
    (hmax : cfg.allowedLateness ≤ int64Max) :
    LateRouting cfg agg trig op r ↔ cfg.Clear r.ts op.ctx.currentWatermark := by
  have hroutes : op.RoutesLate cfg r ↔ _ := routesLate_iff h hsize hlateness htag hfits hmax
  have hslide := h.slide_le_size
  have hgreatest : (∃ e, IsGreatest (cfg.windowEnds r.ts) e ∧
      op.ctx.currentWatermark ≥ e + cfg.allowedLateness) ↔
      cfg.latestStart r.ts + cfg.windowSize + cfg.allowedLateness ≤ op.ctx.currentWatermark := by
    constructor
    · rintro ⟨e, he, hpast⟩
      rw [he.unique (isGreatest_windowEnds h)] at hpast
      exact hpast
    · exact fun hpast => ⟨_, isGreatest_windowEnds h, hpast⟩
  unfold Settings.Clear
  constructor
  · intro hrouting
    by_cases hlate : op.RoutesLate cfg r
    · exact .inl (hroutes.mp hlate)
    · -- A record that is not late is handed to its first window too.
      have hfirst := hrouting.updates (fun hmem => hlate (late_mem_ingestOne.mp hmem))
        (cfg.latestStart r.ts - cfg.windowSize + cfg.slideSize)
      unfold Operator.updatedStarts at hfirst
      rw [if_neg hlate, mem_windowStartsFor_of_fits h hsize hlateness hfits] at hfirst
      have hahead := (hfirst.mp (paneStart_first h)).2
      exact .inr (by omega)
  · intro hclear
    refine ⟨?_, ?_⟩
    · rw [late_mem_ingestOne, hroutes, hgreatest]
      omega
    · intro hnot s
      rw [late_mem_ingestOne] at hnot
      unfold Operator.updatedStarts
      rw [if_neg hnot, mem_windowStartsFor_of_fits h hsize hlateness hfits]
      rw [hroutes] at hnot
      constructor
      · intro hs
        have hfirst := h.first_le hs
        exact ⟨hs, by omega⟩
      · exact fun hs => hs.1

end Exact

end Record

/-! ## Runs -/

section Runs

variable {K V A τ : Type} [LinearOrder K] {cfg : Settings} {agg : Aggregate V A}
  {trig : Trigger V τ} {op : Operator K A τ} {sk : StateKey K}

/-- The window's bounds and its deadline are within int64. -/
structure Settings.WindowFits (cfg : Settings) (start : Int) : Prop where
  lower : int64Min ≤ start
  upper : start + cfg.windowSize + cfg.allowedLateness ≤ int64Max

/-- The window is ahead of its deadline. -/
def Settings.AheadOf (cfg : Settings) (wm start : Int) : Prop :=
  wm < start + cfg.windowSize + cfg.allowedLateness

/-- The records of a run fit and are clear of the watermark; what is restored
holds windows that fit. -/
def Admissible (cfg : Settings) (op : Operator K A τ) : Event K V A → Prop
  | .record r => cfg.Fits r.ts ∧ cfg.Clear r.ts op.ctx.currentWatermark
  | .restore backend => ∀ sk ∈ backend.windows.keys, cfg.WindowFits sk.start
  | _ => True

/-- Each window held is ahead of its deadline. -/
def HoldsAhead (cfg : Settings) (op : Operator K A τ) : Prop :=
  ∀ sk ∈ op.windows.keys, cfg.WindowFits sk.start ∧ cfg.AheadOf op.ctx.currentWatermark sk.start

/-- Every pane the event emits is of a window that was ahead of its deadline. -/
def EmitsAhead (cfg : Settings) (agg : Aggregate V A) (trig : Trigger V τ) (op : Operator K A τ)
    (e : Event K V A) : Prop :=
  ∀ batch, .data batch ∈ op.emits cfg agg trig e → ∀ pane ∈ batch,
    op.ctx.currentWatermark < pane.eventTime + 1 + cfg.allowedLateness

/-- What a pane carries is one less than its window's end. -/
theorem maxTimestamp_window (hpos : 0 < cfg.windowSize) (hlate : 0 ≤ cfg.allowedLateness)
    {start : Int} (hfits : cfg.WindowFits start) :
    (cfg.window start).maxTimestamp = start + cfg.windowSize - 1 := by
  obtain ⟨hlower, hupper⟩ := hfits
  have hend : add64 start cfg.windowSize = start + cfg.windowSize :=
    bmod_of_inInt64 ⟨by omega, by omega⟩
  change add64 (add64 start cfg.windowSize) (-1) = _
  rw [hend]
  exact bmod_of_inInt64 ⟨by omega, by omega⟩

private theorem purgeAt_window (hpos : 0 < cfg.windowSize) (hlate : 0 ≤ cfg.allowedLateness)
    {start : Int} (hfits : cfg.WindowFits start) :
    cfg.purgeAt (cfg.window start) = start + cfg.windowSize + cfg.allowedLateness := by
  obtain ⟨hlower, hupper⟩ := hfits
  have hend : add64 start cfg.windowSize = start + cfg.windowSize :=
    bmod_of_inInt64 ⟨by omega, by omega⟩
  change add64 (add64 start cfg.windowSize) cfg.allowedLateness = _
  rw [hend]
  exact bmod_of_inInt64 ⟨by omega, by omega⟩

private theorem windowFits_of_paneStart (h : cfg.Valid) {ts start : Int} (hfits : cfg.Fits ts)
    (hs : PaneStart ts cfg.windowSize cfg.slideSize start) : cfg.WindowFits start := by
  have hfirst := h.first_le hs
  have hlast := h.le_latestStart hs.1 hs.2.1
  have hlower := hfits.lower
  have hupper := hfits.upper
  exact ⟨by omega, by omega⟩

/-! ### Records -/

variable (agg) (trig) in
theorem handleRecord_spec (op : Operator K A τ) (key : K) (w : TimeWindow) (v : V)
    (ts : Int) :
    (op.handleRecord agg trig key w v ts).1.ctx = op.ctx ∧
      (∀ sk ∈ (op.handleRecord agg trig key w v ts).1.windows.keys,
        sk = toLex (w.start, key) ∨ sk ∈ op.windows.keys) ∧
      ∀ batch, .data batch ∈ (op.handleRecord agg trig key w v ts).2 →
        ∀ pane ∈ batch, pane.eventTime = w.maxTimestamp := by
  unfold Operator.handleRecord
  dsimp only
  refine ⟨?_, ?_, ?_⟩
  · split <;> rfl
  · intro sk hsk
    split at hsk
    · exact SortedMap.mem_keys_upsert.mp (SortedMap.mem_keys_erase.mp hsk).2
    · exact SortedMap.mem_keys_upsert.mp hsk
  · intro batch hbatch pane hpane
    unfold emitData WindowEntry.onRecord at hbatch
    dsimp only at hbatch
    split_ifs at hbatch <;> simp_all

variable (cfg) (agg) (trig) in
private theorem handleStarts_spec (key : K) (v : V) (ts : Int) (starts : List Int) :
    ∀ op : Operator K A τ,
      (op.handleStarts cfg agg trig key v ts starts).1.ctx = op.ctx ∧
        (∀ sk ∈ (op.handleStarts cfg agg trig key v ts starts).1.windows.keys,
          sk.start ∈ starts ∨ sk ∈ op.windows.keys) ∧
        ∀ batch, .data batch ∈ (op.handleStarts cfg agg trig key v ts starts).2 →
          ∀ pane ∈ batch, ∃ s ∈ starts, pane.eventTime = (cfg.window s).maxTimestamp := by
  induction starts with
  | nil =>
      intro op
      exact ⟨rfl, fun sk hsk => .inr hsk, fun batch hbatch => absurd hbatch List.not_mem_nil⟩
  | cons s rest ih =>
      intro op
      obtain ⟨hctx, hkeys, hpanes⟩ := handleRecord_spec agg trig op key (cfg.window s) v ts
      obtain ⟨hctx', hkeys', hpanes'⟩ := ih (op.handleRecord agg trig key (cfg.window s) v ts).1
      refine ⟨hctx'.trans hctx, ?_, ?_⟩
      · intro sk hsk
        rcases hkeys' sk hsk with hrest | hheld
        · exact .inl (List.mem_cons_of_mem _ hrest)
        · rcases hkeys sk hheld with rfl | hheld
          · exact .inl List.mem_cons_self
          · exact .inr hheld
      · intro batch hbatch pane hpane
        rcases List.mem_append.mp hbatch with hfirst | hmore
        · exact ⟨s, List.mem_cons_self, hpanes batch hfirst pane hpane⟩
        · obtain ⟨s', hs', heq⟩ := hpanes' batch hmore pane hpane
          exact ⟨s', List.mem_cons_of_mem _ hs', heq⟩

/-! ### Sweeps -/

variable (cfg) (trig) in
/-- An action keeps the clocks and leaves no window it purges. -/
theorem applyAction_spec (op : Operator K A τ) (a : Action K A) :
    (op.applyAction cfg trig a).1.ctx = op.ctx ∧
      (∀ sk ∈ (op.applyAction cfg trig a).1.windows.keys,
        (sk = a.sk ∨ sk ∈ op.windows.keys) ∧ ¬ (sk = a.sk ∧ a.purge = true)) ∧
      ∀ pane ∈ (op.applyAction cfg trig a).2,
        pane.eventTime = (cfg.window a.sk.start).maxTimestamp := by
  unfold Operator.applyAction
  dsimp only
  refine ⟨?_, ?_, ?_⟩
  · split <;> split <;> rfl
  · intro sk hsk
    have hfired : ∀ k, k ∈ (if a.fire then (op.store a.sk
        { a.entry with nextPaneIndex := add64 a.entry.nextPaneIndex 1, fired := true })
          else op).windows.keys → k = a.sk ∨ k ∈ op.windows.keys := by
      intro k hk
      split at hk
      · exact SortedMap.mem_keys_upsert.mp hk
      · exact .inr hk
    cases hpurge : a.purge with
    | true =>
        rw [hpurge] at hsk
        obtain ⟨hne, hsk⟩ := SortedMap.mem_keys_erase.mp hsk
        refine ⟨hfired sk ?_, fun heq => hne heq.1⟩
        split at hsk <;> simp_all
    | false =>
        rw [hpurge] at hsk
        refine ⟨hfired sk ?_, fun heq => absurd heq.2 Bool.false_ne_true⟩
        simp only [Bool.false_eq_true, if_false] at hsk
        split at hsk <;> simp_all
  · intro pane hpane
    split at hpane <;> simp_all

variable (cfg) (trig) in
/-- The actions leave no window that all of theirs purge, and bring none back. -/
theorem applyActions_spec (acts : List (Action K A)) : ∀ op : Operator K A τ,
    (op.applyActions cfg trig acts).1.ctx = op.ctx ∧
      (∀ sk ∈ (op.applyActions cfg trig acts).1.windows.keys,
        (sk ∈ op.windows.keys ∨ ∃ a ∈ acts, a.sk = sk) ∧
          ((∀ a ∈ acts, a.sk = sk → a.purge = true) → ∀ a ∈ acts, a.sk ≠ sk)) ∧
      ∀ pane ∈ (op.applyActions cfg trig acts).2,
        ∃ a ∈ acts, pane.eventTime = (cfg.window a.sk.start).maxTimestamp := by
  induction acts with
  | nil =>
      intro op
      refine ⟨rfl, fun sk hsk => ⟨.inl hsk, ?_⟩, ?_⟩
      · exact fun _ a ha => absurd ha List.not_mem_nil
      · exact fun pane hpane => absurd hpane List.not_mem_nil
  | cons a rest ih =>
      intro op
      obtain ⟨hctx, hkeys, hpanes⟩ := applyAction_spec cfg trig op a
      obtain ⟨hctx', hkeys', hpanes'⟩ := ih (op.applyAction cfg trig a).1
      refine ⟨hctx'.trans hctx, ?_, ?_⟩
      · intro sk hsk
        obtain ⟨hfrom, hpurged⟩ := hkeys' sk hsk
        refine ⟨?_, ?_⟩
        · rcases hfrom with hheld | ⟨a', ha', heq⟩
          · rcases (hkeys sk hheld).1 with rfl | hheld
            · exact .inr ⟨a, List.mem_cons_self, rfl⟩
            · exact .inl hheld
          · exact .inr ⟨a', List.mem_cons_of_mem _ ha', heq⟩
        · intro hall
          have hrest := hpurged fun a' ha' => hall a' (List.mem_cons_of_mem _ ha')
          have hheld : sk ∈ (op.applyAction cfg trig a).1.windows.keys := by
            rcases hfrom with hheld | ⟨a', ha', heq⟩
            · exact hheld
            · exact absurd heq (hrest a' ha')
          intro a' ha' heq
          rcases List.mem_cons.mp ha' with rfl | ha'
          · exact (hkeys sk hheld).2 ⟨heq.symm, hall a' List.mem_cons_self heq⟩
          · exact hrest a' ha' heq
      · intro pane hpane
        rcases List.mem_append.mp hpane with hpane | hpane
        · exact ⟨a, List.mem_cons_self, hpanes pane hpane⟩
        · obtain ⟨a', ha', heq⟩ := hpanes' pane hpane
          exact ⟨a', List.mem_cons_of_mem _ ha', heq⟩

variable (cfg) (trig) in
omit [LinearOrder K] in
/-- Each action is about a visited window and purges it past its deadline; each
window past its deadline has one. -/
theorem collectActions_spec (wm : Int) (ctx : TriggerContext)
    (l : List (StateKey K × WindowEntry A)) : ∀ t : τ,
    (∀ a ∈ (TumblingWindowOperator.collectActions cfg.toSettings trig wm ctx t l).2,
        (∃ e ∈ l, e.1 = a.sk) ∧ (wm ≥ cfg.purgeAt (cfg.window a.sk.start) → a.purge = true)) ∧
      ∀ e ∈ l, wm ≥ cfg.purgeAt (cfg.window e.1.start) →
        ∃ a ∈ (TumblingWindowOperator.collectActions cfg.toSettings trig wm ctx t l).2,
          a.sk = e.1 := by
  induction l with
  | nil =>
      intro t
      exact ⟨fun a ha => absurd ha List.not_mem_nil, fun e he => absurd he List.not_mem_nil⟩
  | cons e rest ih =>
      intro t
      obtain ⟨a, ha⟩ : ∃ a,
        (TumblingWindowOperator.consider cfg.toSettings trig wm ctx t e).2 = a :=
        ⟨_, rfl⟩
      have hconsider : a.sk = e.1 ∧
          (wm ≥ cfg.purgeAt (cfg.window e.1.start) → a.purge = true) := by
        rw [← ha]
        unfold TumblingWindowOperator.consider
        dsimp only
        split <;> exact ⟨rfl, fun hpast => by simp [hpast]⟩
      obtain ⟨hsound, hcover⟩ :=
        ih (TumblingWindowOperator.consider cfg.toSettings trig wm ctx t e).1
      unfold TumblingWindowOperator.collectActions
      dsimp only
      rw [ha]
      constructor
      · intro a' ha'
        have hcases : a' = a ∨
            a' ∈ (TumblingWindowOperator.collectActions cfg.toSettings trig wm ctx
            (TumblingWindowOperator.consider cfg.toSettings trig wm ctx t e).1 rest).2 := by
          split at ha'
          · exact List.mem_cons.mp ha'
          · exact .inr ha'
        rcases hcases with rfl | ha'
        · rw [hconsider.1]
          exact ⟨⟨e, List.mem_cons_self, rfl⟩, hconsider.2⟩
        · obtain ⟨⟨e', he', heq⟩, hpurge⟩ := hsound a' ha'
          exact ⟨⟨e', List.mem_cons_of_mem _ he', heq⟩, hpurge⟩
      · intro e' he' hpast
        rcases List.mem_cons.mp he' with rfl | he'
        · rw [hconsider.2 hpast, Bool.or_true, if_pos rfl]
          exact ⟨a, List.mem_cons_self, hconsider.1⟩
        · obtain ⟨a', ha', heq⟩ := hcover e' he' hpast
          refine ⟨a', ?_, heq⟩
          split
          · exact List.mem_cons_of_mem _ ha'
          · exact ha'

section Steps

variable (h : cfg.Valid) (hsize : InInt64 cfg.windowSize) (hlate : 0 ≤ cfg.allowedLateness)

variable (trig) in
include h hlate in
/-- A sweep emits for windows it found, and leaves those ahead of their deadlines. -/
theorem sweep_spec (wm : Int) (hfits : ∀ sk ∈ op.windows.keys, cfg.WindowFits sk.start) :
    (op.onWatermarkAdvance (V := V) cfg trig wm).1.ctx = op.ctx ∧
      (∀ sk ∈ (op.onWatermarkAdvance (V := V) cfg trig wm).1.windows.keys,
        sk ∈ op.windows.keys ∧ cfg.AheadOf wm sk.start) ∧
      ∀ batch, .data batch ∈ (op.onWatermarkAdvance (V := V) cfg trig wm).2 → ∀ pane ∈ batch,
        ∃ sk ∈ op.windows.keys, pane.eventTime = (cfg.window sk.start).maxTimestamp := by
  unfold Operator.onWatermarkAdvance Operator.collectActions
  dsimp only
  obtain ⟨hsound, hcover⟩ := collectActions_spec cfg trig wm op.ctx op.windows.entries op.trigger
  generalize TumblingWindowOperator.collectActions cfg.toSettings trig wm op.ctx op.trigger
    op.windows.entries = collected at hsound hcover ⊢
  obtain ⟨hctx, hkeys, hpanes⟩ :=
    applyActions_spec cfg trig collected.2 { op with trigger := collected.1 }
  have hheld : ∀ a ∈ collected.2, a.sk ∈ op.windows.keys := by
    intro a ha
    obtain ⟨e, he, heq⟩ := (hsound a ha).1
    rw [← heq]
    exact List.mem_map_of_mem he
  refine ⟨hctx, ?_, ?_⟩
  · intro sk hsk
    obtain ⟨hfrom, hpurged⟩ := hkeys sk hsk
    have hmem : sk ∈ op.windows.keys := by
      rcases hfrom with hmem | ⟨a, ha, rfl⟩
      · exact hmem
      · exact hheld a ha
    refine ⟨hmem, ?_⟩
    by_contra hpast
    have hpast : wm ≥ cfg.purgeAt (cfg.window sk.start) := by
      rw [purgeAt_window h.size_pos hlate (hfits sk hmem)]
      unfold Settings.AheadOf at hpast
      omega
    obtain ⟨v, hv⟩ := SortedMap.mem_keys_iff.mp hmem
    obtain ⟨a, ha, heq⟩ := hcover (sk, v) (SortedMap.find?_eq_some_iff.mp hv) hpast
    refine hpurged ?_ a ha heq
    rintro a' ha' rfl
    exact (hsound a' ha').2 hpast
  · intro batch hbatch pane hpane
    obtain ⟨p, hp, heq⟩ := List.mem_map.mp hbatch
    injection heq with heq
    subst heq
    obtain ⟨a, ha, htime⟩ := hpanes p hp
    rw [List.mem_singleton.mp hpane]
    exact ⟨a.sk, hheld a ha, htime⟩

variable (trig) in
include h hlate in
/-- A watermark keeps the windows ahead of their deadlines. -/
theorem watermark_step (hheld : HoldsAhead cfg op) (wm : Int) :
    HoldsAhead cfg ((op.setWatermark wm).onWatermarkAdvance (V := V) cfg trig wm).1 ∧
      ∀ batch, .data batch ∈ ((op.setWatermark wm).onWatermarkAdvance (V := V) cfg trig wm).2 →
        ∀ pane ∈ batch, op.ctx.currentWatermark < pane.eventTime + 1 + cfg.allowedLateness := by
  have hfits : ∀ sk ∈ (op.setWatermark wm).windows.keys, cfg.WindowFits sk.start :=
    fun sk hsk => (hheld sk hsk).1
  obtain ⟨hctx, hkeys, hpanes⟩ := sweep_spec (V := V) trig h hlate wm hfits
  constructor
  · intro sk hsk
    obtain ⟨hmem, hahead⟩ := hkeys sk hsk
    refine ⟨hfits sk hmem, ?_⟩
    rw [hctx]
    exact hahead
  · intro batch hbatch pane hpane
    obtain ⟨sk, hsk, htime⟩ := hpanes batch hbatch pane hpane
    obtain ⟨hfit, hahead⟩ := hheld sk hsk
    rw [htime, maxTimestamp_window h.size_pos hlate hfit]
    unfold Settings.AheadOf at hahead
    omega

include h hsize hlate in
/-- A record clear of the watermark goes into windows ahead of their deadlines. -/
theorem record_step (htag : cfg.lateTag = true) (hmax : cfg.allowedLateness ≤ int64Max)
    (hheld : HoldsAhead cfg op) {r : Record K V} (hfits : cfg.Fits r.ts)
    (hclear : cfg.Clear r.ts op.ctx.currentWatermark) :
    HoldsAhead cfg (op.ingestOne cfg agg trig r).1 ∧
      ∀ batch, .data batch ∈ (op.ingestOne cfg agg trig r).2 →
        ∀ pane ∈ batch, op.ctx.currentWatermark < pane.eventTime + 1 + cfg.allowedLateness := by
  have hroutes : op.RoutesLate cfg r ↔ _ := routesLate_iff h hsize hlate htag hfits hmax
  unfold Operator.ingestOne
  split
  · exact ⟨hheld, fun batch hbatch => by simp at hbatch⟩
  · rename_i hlate'
    rw [hroutes] at hlate'
    -- Not late and clear, so ahead of the deadline of the record's first window.
    have hstarts : ∀ s ∈ cfg.windowStartsFor r.ts,
        cfg.WindowFits s ∧ cfg.AheadOf op.ctx.currentWatermark s := by
      intro s hs
      have hs := (mem_windowStartsFor_of_fits h hsize hlate hfits).mp hs
      have hfirst := h.first_le hs
      refine ⟨windowFits_of_paneStart h hfits hs, ?_⟩
      unfold Settings.Clear at hclear
      unfold Settings.AheadOf
      omega
    obtain ⟨hctx, hkeys, hpanes⟩ := handleStarts_spec cfg agg trig r.key r.value r.ts
      (cfg.windowStartsFor r.ts) op
    constructor
    · intro sk hsk
      rw [hctx]
      rcases hkeys sk hsk with hstart | hmem
      · exact hstarts _ hstart
      · exact hheld sk hmem
    · intro batch hbatch pane hpane
      obtain ⟨s, hs, htime⟩ := hpanes batch hbatch pane hpane
      obtain ⟨hfit, hahead⟩ := hstarts s hs
      rw [htime, maxTimestamp_window h.size_pos hlate hfit]
      unfold Settings.AheadOf at hahead
      omega

include h hlate in
theorem holdsAhead_opened {backend : Backend K A}
    (hfits : ∀ sk ∈ backend.windows.keys, cfg.WindowFits sk.start) :
    HoldsAhead cfg (Operator.opened cfg trig backend) := by
  have hpos := h.size_pos
  unfold HoldsAhead Operator.opened
  intro sk hsk
  split at hsk
  · rename_i hpersistent
    rw [if_pos hpersistent]
    have hfit := hfits sk hsk
    have hlower := hfit.lower
    refine ⟨hfit, ?_⟩
    change int64Min < sk.start + cfg.windowSize + cfg.allowedLateness
    omega
  · exact absurd hsk List.not_mem_nil

include h hsize hlate in
/-- One event: the windows held stay ahead of their deadlines, and what is emitted
is of such windows. -/
theorem step_ahead (htag : cfg.lateTag = true) (hmax : cfg.allowedLateness ≤ int64Max)
    (hheld : HoldsAhead cfg op) {e : Event K V A} (hok : Admissible cfg op e) :
    HoldsAhead cfg (op.next cfg agg trig e) ∧ EmitsAhead cfg agg trig op e := by
  cases e with
  | beginBatch now => exact ⟨hheld, fun batch hbatch => absurd hbatch List.not_mem_nil⟩
  | record r => exact record_step h hsize hlate htag hmax hheld hok.1 hok.2
  | watermark wm =>
      obtain ⟨hkeep, hpanes⟩ := watermark_step (V := V) trig h hlate hheld wm.timestamp.millis
      refine ⟨hkeep, fun batch hbatch => hpanes batch ?_⟩
      rcases List.mem_append.mp hbatch with hbatch | hbatch
      · exact hbatch
      · simp at hbatch
  | barrier id =>
      refine ⟨?_, fun batch hbatch => by simp [Operator.emits, Operator.step] at hbatch⟩
      change HoldsAhead cfg (op.onBarrier cfg trig)
      unfold Operator.onBarrier
      split <;> exact hheld
  | flush => exact watermark_step trig h hlate hheld _
  | restore backend =>
      exact ⟨holdsAhead_opened h hlate hok, fun batch hbatch => absurd hbatch List.not_mem_nil⟩

end Steps

/-- A sliding operator with a late output routes a record by its windows' deadlines
exactly where the watermark is clear of them; in a run of such records no window
past its deadline emits another pane. -/
theorem late_routing_iff (h : cfg.Valid) (hsize : InInt64 cfg.windowSize)
    (hlate : 0 ≤ cfg.allowedLateness) (hmax : cfg.allowedLateness ≤ int64Max)
    (htag : cfg.lateTag = true) :
    (∀ (op : Operator K A τ) (r : Record K V), cfg.Fits r.ts →
      (LateRouting cfg agg trig op r ↔ cfg.Clear r.ts op.ctx.currentWatermark)) ∧
    (∀ (backend : Backend K A) (es : List (Event K V A)) (op : Operator K A τ),
      (∀ sk ∈ backend.windows.keys, cfg.WindowFits sk.start) →
      Runs (Operator.next cfg agg trig) (fun _ op e => Admissible cfg op e)
        (Operator.opened cfg trig backend) es op →
      ∀ e, Admissible cfg op e → EmitsAhead cfg agg trig op e) := by
  refine ⟨fun op r hfits => lateRouting_iff h hsize hlate htag hfits hmax, ?_⟩
  intro backend es op hfits hrun e hok
  have hheld : HoldsAhead cfg op := by
    refine hrun.induct (I := fun _ op => HoldsAhead cfg op) (holdsAhead_opened h hlate hfits) ?_
    intro es op e _ hheld hok
    exact (step_ahead h hsize hlate htag hmax hheld hok).1
  exact (step_ahead h hsize hlate htag hmax hheld hok).2

end Runs

/-! ### Concrete runs -/

/-- Ten seconds sliding by five, with a late output. -/
def taggedTenByFive : Settings := { tenByFive with lateTag := true }

def slidingSum : Aggregate Int Int := ⟨0, fun a v => a + v⟩

def slidingRecordAt (ts : Int) : Record Nat Int := ⟨1, 1, some ts⟩

def watermarkAt (ts : Int) : Watermark :=
  ⟨⟨max (-2 ^ 63) (min ts (2 ^ 63 - 1)), by omega, by omega⟩, false⟩

def slidingRunOf (es : List (Event Nat Int Int)) : Operator Nat Int Unit :=
  es.foldl (Operator.next taggedTenByFive slidingSum (eventTimeTrigger Int))
    (Operator.opened taggedTenByFive (eventTimeTrigger Int) {})

theorem late_routing_iff_ten_by_five :
    LateRouting taggedTenByFive slidingSum (eventTimeTrigger Int)
        (slidingRunOf [.watermark (watermarkAt 16000)]) (slidingRecordAt 7000) ∧
      EmitsAhead taggedTenByFive slidingSum (eventTimeTrigger Int)
        (slidingRunOf [.record (slidingRecordAt 7000), .watermark (watermarkAt 10000)])
        (.record (slidingRecordAt 8000)) := by
  have hvalid : taggedTenByFive.Valid := ⟨by decide, by decide, by decide⟩
  obtain ⟨hone, hruns⟩ := late_routing_iff (K := Nat) (A := Int) hvalid ⟨by decide, by decide⟩
    (by decide) (by decide) rfl
  refine ⟨(hone _ _ ⟨by decide, by decide⟩).mpr (by decide), ?_⟩
  refine hruns {} [.record (slidingRecordAt 7000), .watermark (watermarkAt 10000)] _
    (fun sk hsk => absurd hsk List.not_mem_nil) (Runs.of_allowed ?_) _ ?_
  · exact ⟨⟨⟨by decide, by decide⟩, by decide⟩, trivial, trivial⟩
  · exact ⟨⟨by decide, by decide⟩, by decide⟩

/-- A record whose windows all ended before the epoch is not routed late; a record
late for its first window alone goes into it, and brings back a purged window that
emits again. -/
theorem late_routing_differs :
    ¬ LateRouting taggedTenByFive slidingSum (eventTimeTrigger Int)
        (slidingRunOf [.watermark (watermarkAt (-5000))]) (slidingRecordAt (-20000)) ∧
      ¬ LateRouting taggedTenByFive slidingSum (eventTimeTrigger Int)
        (slidingRunOf [.watermark (watermarkAt 11500)]) (slidingRecordAt 7000) ∧
      ¬ EmitsAhead taggedTenByFive slidingSum (eventTimeTrigger Int)
        (slidingRunOf [.record (slidingRecordAt 7000), .watermark (watermarkAt 11000)])
        (.record (slidingRecordAt 7000)) := by
  have hvalid : taggedTenByFive.Valid := ⟨by decide, by decide, by decide⟩
  have hsize : InInt64 taggedTenByFive.windowSize := ⟨by decide, by decide⟩
  refine ⟨?_, ?_, ?_⟩
  · rw [lateRouting_iff hvalid hsize (by decide) rfl ⟨by decide, by decide⟩ (by decide)]
    decide
  · rw [lateRouting_iff hvalid hsize (by decide) rfl ⟨by decide, by decide⟩ (by decide)]
    decide
  · intro hahead
    have hpane := hahead [⟨1, 1, 9999, .onTime, 0, true, false⟩] (by decide) _
      (List.mem_singleton.mpr rfl)
    exact absurd hpane (by decide)

end Clink.Ports.SlidingWindowOperator

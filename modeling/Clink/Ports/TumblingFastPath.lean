import Clink.Ports.TumblingWindowCopies

/-!
# The tumbling operator's fast path

A watermark below `earliest_window_end_` skips the sweep.  The bound is sound
when no window of the working set ends before it; then a skipped sweep would
have fired nothing.  Records and restores keep the bound sound, and so do
barriers; a sweep recomputes it from the durable copy when there is one, and in
write-back mode that copy lacks the windows opened since the last barrier.
-/

namespace Clink.Ports.TumblingWindowOperator

open Clink.Verified
open Clink.Ports.Time
open Clink.Ports.WindowTrigger

variable {K V A τ : Type} [LinearOrder K] {cfg : Settings} {agg : Aggregate V A}
  {trig : Trigger V τ} {op : Operator K A τ}

/-- The end of a window. -/
def StateKey.windowEnd (cfg : Settings) (sk : StateKey K) : Int := (cfg.window sk.start).endTs

/-- No window of the working set ends before the bound. -/
def Sound (cfg : Settings) (op : Operator K A τ) : Prop :=
  ∀ sk ∈ op.mem.keys, op.earliestWindowEnd ≤ sk.windowEnd cfg

/-- The bound is sound, and a watermark below it would fire no pane. -/
def FastPathSound (cfg : Settings) (trig : Trigger V τ) (op : Operator K A τ) : Prop :=
  Sound cfg op ∧
    ∀ wm, wm < op.earliestWindowEnd → ((op.setWatermark wm).sweep cfg trig wm).2 = []

/-- Each window a sweep keeps is matched by a row it keeps that ends no later;
the bound is never above the last time. -/
def CoveredAt (cfg : Settings) (trig : Trigger V τ) (op : Operator K A τ) (wm : Int) : Prop :=
  cfg.wbCacheSkip = true → op.earliestWindowEnd ≤ wm → ∀ b ∈ op.backend, ∀ sk ∈ op.mem.keys,
    ¬ Purges (op.actions cfg trig wm).2 sk →
      2 ^ 63 - 1 ≤ sk.windowEnd cfg ∨
        ∃ sk' ∈ b.windows.keys, ¬ Purges (op.actions cfg trig wm).2 sk' ∧
          sk'.windowEnd cfg ≤ sk.windowEnd cfg

/-- The condition at an event: only a watermark that sweeps has one. -/
def Covered (cfg : Settings) (trig : Trigger V τ) (op : Operator K A τ) : Event K V A → Prop
  | .watermark wm =>
      CoveredAt cfg trig (op.setWatermark wm.timestamp.millis) wm.timestamp.millis
  | .flush =>
      CoveredAt cfg trig (op.setWatermark Watermark.max.timestamp.millis)
        Watermark.max.timestamp.millis
  | _ => True

/-! ## The recomputed bound -/

theorem earliestEnd_le_iff (windows : SortedMap (StateKey K) (WindowEntry A)) (bound : Int) :
    Operator.earliestEnd cfg windows ≤ bound ↔
      2 ^ 63 - 1 ≤ bound ∨ ∃ sk ∈ windows.keys, sk.windowEnd cfg ≤ bound := by
  have hkey : ∀ (l : List (StateKey K × WindowEntry A)) (start : Int),
      l.foldl (fun earliest e =>
        let windowEnd := (cfg.window e.1.start).endTs
        if windowEnd < earliest then windowEnd else earliest) start ≤ bound ↔
      start ≤ bound ∨ ∃ sk ∈ l.map Prod.fst, sk.windowEnd cfg ≤ bound := by
    intro l
    induction l with
    | nil => simp
    | cons e rest ih =>
        intro start
        have hmin : (if (cfg.window e.1.start).endTs < start then (cfg.window e.1.start).endTs
            else start) ≤ bound ↔ start ≤ bound ∨ e.1.windowEnd cfg ≤ bound := by
          unfold StateKey.windowEnd
          split <;> omega
        rw [List.foldl_cons, ih, hmin, List.map_cons]
        simp only [List.mem_cons, exists_eq_or_imp]
        exact or_assoc
  exact hkey windows.entries (2 ^ 63 - 1)

theorem earliestEnd_le {windows : SortedMap (StateKey K) (WindowEntry A)} {sk : StateKey K}
    (h : sk ∈ windows.keys) : Operator.earliestEnd cfg windows ≤ sk.windowEnd cfg :=
  (earliestEnd_le_iff windows _).mpr (.inr ⟨sk, h, le_refl _⟩)

/-! ## What a skipped sweep would have done -/

omit [LinearOrder K] in
/-- While every window is open the trigger is not asked, and an action only
purges a window whose deadline is before its end. -/
theorem collectActions_of_open (trig : Trigger V τ) {wm : Int} (ctx : TriggerContext)
    (l : List (StateKey K × WindowEntry A)) (hopen : ∀ e ∈ l, wm < e.1.windowEnd cfg) (t : τ) :
    (collectActions cfg trig wm ctx t l).1 = t ∧
      ∀ a ∈ (collectActions cfg trig wm ctx t l).2,
        a.fire = false ∧ ∃ e ∈ l, cfg.purgeAt (cfg.window e.1.start) ≤ wm := by
  induction l with
  | nil => exact ⟨rfl, by simp [collectActions]⟩
  | cons e rest ih =>
      have hwm := hopen e List.mem_cons_self
      have hconsidered : consider cfg trig wm ctx t e =
          (t, ⟨e.1, e.2, false, decide (wm ≥ cfg.purgeAt (cfg.window e.1.start))⟩) := by
        unfold consider
        dsimp only
        rw [if_neg]
        unfold StateKey.windowEnd at hwm
        omega
      obtain ⟨htrigger, hrest⟩ := ih fun e' he' => hopen e' (List.mem_cons_of_mem _ he')
      have hlater : ∀ a ∈ (collectActions cfg trig wm ctx t rest).2,
          a.fire = false ∧ ∃ e' ∈ e :: rest, cfg.purgeAt (cfg.window e'.1.start) ≤ wm := by
        intro a ha
        obtain ⟨hfire, e', he', hdue⟩ := hrest a ha
        exact ⟨hfire, e', List.mem_cons_of_mem _ he', hdue⟩
      unfold collectActions
      rw [hconsidered]
      refine ⟨htrigger, fun a ha => ?_⟩
      dsimp only at ha
      split at ha
      · rename_i hdue
        rcases List.mem_cons.mp ha with rfl | ha
        · exact ⟨rfl, e, List.mem_cons_self, by simpa using hdue⟩
        · exact hlater a ha
      · exact hlater a ha

private theorem panes_applyActions (acts : List (Action K A)) :
    ∀ {op : Operator K A τ}, (∀ a ∈ acts, a.fire = false) →
      (op.applyActions cfg trig acts).2 = [] := by
  induction acts with
  | nil => exact fun _ => rfl
  | cons a rest ih =>
      intro op hfire
      have hone : (op.applyAction cfg trig a).2 = [] := by
        unfold Operator.applyAction
        dsimp only
        rw [hfire a List.mem_cons_self]
        rfl
      change (op.applyAction cfg trig a).2 ++
        ((op.applyAction cfg trig a).1.applyActions cfg trig rest).2 = []
      rw [hone, ih fun a' ha' => hfire a' (List.mem_cons_of_mem _ ha')]
      rfl

/-- The windows are open at a watermark below a sound bound. -/
theorem Sound.open (h : Sound cfg op) {wm : Int} (hwm : wm < op.earliestWindowEnd) :
    ∀ e ∈ op.mem.entries, wm < e.1.windowEnd cfg := by
  intro e he
  exact lt_of_lt_of_le hwm (h e.1 (List.mem_map_of_mem he))

/-- Below a sound bound a sweep emits nothing. -/
theorem Sound.fastPathSound (h : Sound cfg op) : FastPathSound cfg trig op := by
  refine ⟨h, fun wm hwm => ?_⟩
  have hfire : ∀ a ∈ ((op.setWatermark wm).actions cfg trig wm).2, a.fire = false := by
    intro a ha
    exact ((collectActions_of_open trig _ op.mem.entries (h.open hwm) op.trigger).2 a ha).1
  unfold Operator.sweep
  dsimp only
  rw [panes_applyActions _ hfire]
  rfl

/-! ## One event -/

namespace Sound

theorem accumulate (h : Sound cfg op) (sk : StateKey K) (v : V) :
    Sound cfg (op.accumulate cfg agg sk v).1 := by
  intro k hk
  rw [Operator.accumulate_mem, SortedMap.mem_keys_upsert] at hk
  unfold Operator.accumulate
  cases hfind : op.mem.find? sk with
  | some entry =>
      have hsk : sk ∈ op.mem.keys := SortedMap.mem_keys_iff.mpr ⟨entry, hfind⟩
      exact h k (hk.elim (fun heq => heq ▸ hsk) id)
  | none =>
      change (if sk.windowEnd cfg < op.earliestWindowEnd then sk.windowEnd cfg
        else op.earliestWindowEnd) ≤ k.windowEnd cfg
      rcases hk with rfl | hk
      · split <;> omega
      · have hbound := h k hk
        split <;> omega

theorem ingestOne (h : Sound cfg op) (r : Record K V) :
    Sound cfg (op.ingestOne cfg agg trig r).1 := by
  have hacc : Sound cfg (op.accumulate cfg agg (r.stateKey cfg) r.value).1 := h.accumulate _ _
  have hrecorded : Sound cfg (op.recorded cfg agg trig r) := by
    intro k hk
    change (Operator.mirror cfg _ _ _).earliestWindowEnd ≤ _
    rw [Operator.mirror_earliestWindowEnd]
    apply hacc k
    rw [Operator.accumulate_mem, SortedMap.mem_keys_upsert]
    exact mem_keys_recorded.mp hk
  unfold Operator.ingestOne
  dsimp only
  split
  · exact h
  · change Sound cfg (op.handleRecord cfg agg trig r.key (r.window cfg) r.value r.ts).1
    rw [Operator.handleRecord_eq]
    dsimp only
    split
    · intro k hk
      exact hrecorded k (SortedMap.mem_keys_erase.mp hk).2
    · exact hrecorded

theorem opened (cfg : Settings) (trig : Trigger V τ) (backend : Backend K A) :
    Sound cfg (Operator.opened cfg trig backend) := by
  intro k hk
  unfold Operator.opened at hk ⊢
  cases hpersistent : cfg.persistent with
  | true =>
      rw [hpersistent] at hk
      exact earliestEnd_le hk
  | false =>
      rw [hpersistent] at hk
      simp [SortedMap.keys] at hk

theorem earliestWindowEnd_sweep (op : Operator K A τ) (wm : Int) :
    (op.sweep cfg trig wm).1.earliestWindowEnd =
      match (op.sweep cfg trig wm).1.backend with
      | some b => Operator.earliestEnd cfg b.windows
      | none => Operator.earliestEnd cfg (op.sweep cfg trig wm).1.mem := rfl

/-- In memory the bound is taken from the working set itself. -/
theorem sweep_inMemory (hb : op.backend = none) (wm : Int) :
    Sound cfg (op.sweep cfg trig wm).1 := by
  have hnone : (op.sweep cfg trig wm).1.backend = none := by
    rw [← Option.not_isSome_iff_eq_none, Valid.isSome_sweep, hb]
    simp
  intro k hk
  rw [earliestWindowEnd_sweep, hnone]
  exact earliestEnd_le hk

/-- A write-through sweep leaves a row for every window of the working set. -/
theorem sweep_writeThrough (hv : Valid cfg op) (hskip : cfg.wbCacheSkip = false)
    {b : Backend K A} (hb : op.backend = some b) (wm : Int) :
    Sound cfg (op.sweep cfg trig wm).1 := by
  have hsome : (op.sweep cfg trig wm).1.backend.isSome = true := by
    rw [Valid.isSome_sweep, hb]
    rfl
  obtain ⟨b', hb'⟩ := Option.isSome_iff_exists.mp hsome
  have hrows := (hv.shadows.sweep Shadows.tracks wm) b' hb'
  intro k hk
  obtain ⟨entry, hentry⟩ := SortedMap.mem_keys_iff.mp hk
  have hagg := (hrows k).2 hskip
  rw [hentry] at hagg
  obtain ⟨row, hrow, -⟩ := Option.map_eq_some_iff.mp hagg
  rw [earliestWindowEnd_sweep, hb']
  exact earliestEnd_le (SortedMap.mem_keys_iff.mpr ⟨row, hrow⟩)

/-- A write-back sweep takes the bound from the rows it leaves. -/
theorem sweep_writeBack_iff (hskip : cfg.wbCacheSkip = true) {b : Backend K A}
    (hb : op.backend = some b) (wm : Int) :
    Sound cfg (op.sweep cfg trig wm).1 ↔ ∀ sk ∈ op.mem.keys,
      ¬ Purges (op.actions cfg trig wm).2 sk →
        2 ^ 63 - 1 ≤ sk.windowEnd cfg ∨
          ∃ sk' ∈ b.windows.keys, ¬ Purges (op.actions cfg trig wm).2 sk' ∧
            sk'.windowEnd cfg ≤ sk.windowEnd cfg := by
  obtain ⟨b', hb', hrows⟩ := rows_sweep trig hskip hb wm
  unfold Sound
  rw [earliestWindowEnd_sweep, hb']
  simp only [mem_keys_sweep, earliestEnd_le_iff, hrows, and_imp, and_assoc]

/-- What the bound is after a sweep depends on the copy it was taken from. -/
theorem sweep_iff (hv : Valid cfg op) {wm : Int} (hsweeps : op.earliestWindowEnd ≤ wm) :
    Sound cfg (op.sweep cfg trig wm).1 ↔ CoveredAt cfg trig op wm := by
  unfold CoveredAt
  cases hb : op.backend with
  | none =>
      have hsound : Sound cfg (op.sweep cfg trig wm).1 := sweep_inMemory hb wm
      simp [hsound]
  | some b =>
      cases hskip : cfg.wbCacheSkip with
      | false =>
          have hsound : Sound cfg (op.sweep cfg trig wm).1 := sweep_writeThrough hv hskip hb wm
          simp [hsound]
      | true =>
          rw [sweep_writeBack_iff hskip hb]
          simp [hsweeps]

theorem onWatermarkAdvance_iff (h : Sound cfg op) (hv : Valid cfg op) (wm : Int) :
    Sound cfg ((op.setWatermark wm).onWatermarkAdvance cfg trig wm).1 ↔
      CoveredAt cfg trig (op.setWatermark wm) wm := by
  have hv' : Valid cfg (op.setWatermark wm) := ⟨hv.attached, hv.shadows⟩
  unfold Operator.onWatermarkAdvance
  by_cases hskips : wm < (op.setWatermark wm).earliestWindowEnd
  · rw [if_pos hskips]
    refine iff_of_true h ?_
    intro _ hsweeps
    exact absurd hskips (not_lt.mpr hsweeps)
  · rw [if_neg hskips]
    exact sweep_iff hv' (not_lt.mp hskips)

/-- The step rule, exactly: an event keeps a sound bound sound if and only if
the rows a sweep leaves cover the windows it leaves. -/
theorem next_iff (h : Sound cfg op) (hv : Valid cfg op) (e : Event K V A) :
    Sound cfg (op.next cfg agg trig e) ↔ Covered cfg trig op e := by
  cases e with
  | beginBatch now => exact iff_of_true h trivial
  | record r => exact iff_of_true (h.ingestOne r) trivial
  | watermark wm => exact h.onWatermarkAdvance_iff hv _
  | barrier id => exact iff_of_true h trivial
  | flush => exact h.onWatermarkAdvance_iff hv _
  | restore backend => exact iff_of_true (opened cfg trig backend) trivial

end Sound

/-- Only a write-back sweep has a condition to meet. -/
theorem covered_of_mode (hv : Valid cfg op)
    (hmode : cfg.persistent = false ∨ cfg.wbCacheSkip = false) (e : Event K V A) :
    Covered cfg trig op e := by
  have hat : ∀ wm, CoveredAt cfg trig (op.setWatermark wm) wm := by
    intro wm hskip _ b hb
    rcases hmode with hmemory | hthrough
    · have hattached := hv.attached
      rw [hmemory, Option.isSome_eq_false_iff, Option.isNone_iff_eq_none] at hattached
      change op.backend = some b at hb
      rw [hattached] at hb
      simp at hb
    · rw [hthrough] at hskip
      simp at hskip
  cases e with
  | watermark wm => exact hat _
  | flush => exact hat _
  | _ => trivial

/-! ## Every run -/

/-- In memory and write-through the bound is sound in every state reached; in
write-back mode it is sound all along a run if and only if every sweep of the
run leaves rows that cover the windows it leaves. -/
theorem earliest_window_end_sound (cfg : Settings) (agg : Aggregate V A) (trig : Trigger V τ)
    (es : List (Event K V A)) :
    (cfg.persistent = false ∨ cfg.wbCacheSkip = false → ∀ pre, pre <+: es →
      FastPathSound cfg trig
        (pre.foldl (Operator.next cfg agg trig) (Operator.opened cfg trig {}))) ∧
    ((∀ pre, pre <+: es → FastPathSound cfg trig
        (pre.foldl (Operator.next cfg agg trig) (Operator.opened cfg trig {}))) ↔
      Runs.Allowed (Operator.next cfg agg trig) (fun _ op e => Covered cfg trig op e) []
        (Operator.opened cfg trig {}) es) := by
  have hexact : (∀ pre, pre <+: es → FastPathSound cfg trig
      (pre.foldl (Operator.next cfg agg trig) (Operator.opened cfg trig {}))) ↔
      Runs.Allowed (Operator.next cfg agg trig) (fun _ op e => Covered cfg trig op e) []
        (Operator.opened cfg trig {}) es := by
    refine Runs.allowed_iff (I := Valid cfg) (fun op e hv => hv.next e) ?_
      (Valid.opened cfg trig {}) (Sound.opened cfg trig {}).fastPathSound
    intro op e hv h
    exact Iff.trans ⟨fun h => h.1, fun h => h.fastPathSound⟩ (h.1.next_iff hv e)
  refine ⟨fun hmode => hexact.mpr ?_, hexact⟩
  exact Runs.allowed_of_inv (I := Valid cfg) (fun op e hv => hv.next e)
    (fun op e hv => covered_of_mode hv hmode e) (Valid.opened cfg trig {})

/-! ### A write-back operator that skips a window that is due -/

def sumAggregate : Aggregate Int Int := ⟨0, fun total v => total + v⟩

def writeBack : Settings := { windowSize := 10, persistent := true, wbCacheSkip := true }

/-- A record of value 1 for key 1. -/
def recordAt (ts : Int) : Event Nat Int Int := .record ⟨1, 1, some ts⟩

def watermark10 : Watermark := ⟨⟨10, by decide, by decide⟩, false⟩

def watermark110 : Watermark := ⟨⟨110, by decide, by decide⟩, false⟩

/-- The windows from 0 and from 100 are open and have no row yet.  The first
watermark purges the one and takes the bound from the empty rows; the second
one skips the other, which a sweep would fire. -/
theorem write_back_skips_due_window :
    let op := [recordAt 5, recordAt 105, .watermark watermark10].foldl
      (Operator.next writeBack sumAggregate (eventTimeTrigger Int))
      (Operator.opened writeBack (eventTimeTrigger Int) {})
    ¬ FastPathSound writeBack (eventTimeTrigger Int) op ∧
      op.mem.keys = [toLex (100, 1)] ∧ op.earliestWindowEnd = 2 ^ 63 - 1 ∧
      op.emits writeBack sumAggregate (eventTimeTrigger Int) (.watermark watermark110) =
        [.watermark watermark110] ∧
      ((op.setWatermark 110).sweep writeBack (eventTimeTrigger Int) 110).2 =
        [.data [⟨1, 1, 109, .onTime, 0, true, true⟩]] := by
  refine ⟨fun h => ?_, by decide, by decide, by decide, by decide⟩
  have hbound := h.1 (toLex (100, 1)) (by decide)
  exact absurd hbound (by decide)

end Clink.Ports.TumblingWindowOperator

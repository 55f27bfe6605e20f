import Clink.Ports.TumblingFastPath

/-!
# Checkpoints of a tumbling operator

At a barrier the durable rows are compared with the working set, and an
operator opened on them with the one that goes on.  The two operators may
differ in the fast path's bound alone; while both bounds are sound that does
not show, because a sweep below one of them has nothing to do.

The watermark is not part of a checkpoint: a restored operator starts at the
least time and learns the watermark from the stream.
-/

namespace Clink.Ports.TumblingWindowOperator

open Clink.Verified
open Clink.Ports.Time
open Clink.Ports.WindowTrigger

variable {K V A τ : Type} [LinearOrder K] {cfg : Settings} {agg : Aggregate V A}
  {trig : Trigger V τ} {op op' : Operator K A τ}

/-! ## The rows at a barrier -/

/-- The record emits a pane of a window that stays. -/
def Operator.EmitsAndKeeps (cfg : Settings) (trig : Trigger V τ) (op : Operator K A τ)
    (r : Record K V) : Prop :=
  ¬ op.RoutesLate cfg r ∧
    ((op.mem.find? (r.stateKey cfg)).any WindowEntry.fired = true ∨
      (op.answer cfg trig r).2.shouldFire = true) ∧
    (op.answer cfg trig r).2.shouldPurge = false

instance (op : Operator K A τ) (r : Record K V) : Decidable (op.EmitsAndKeeps cfg trig r) :=
  inferInstanceAs (Decidable (_ ∧ _ ∧ _))

/-- The event leaves nothing of a write-through operator's entries unmirrored. -/
def Mirrors (cfg : Settings) (trig : Trigger V τ) (op : Operator K A τ) : Event K V A → Prop
  | .record r => cfg.wbCacheSkip = false → ¬ op.EmitsAndKeeps cfg trig r
  | _ => True

instance (op : Operator K A τ) : (e : Event K V A) → Decidable (Mirrors cfg trig op e)
  | .record r =>
      inferInstanceAs (Decidable (cfg.wbCacheSkip = false → ¬ op.EmitsAndKeeps cfg trig r))
  | .beginBatch _ | .watermark _ | .barrier _ | .flush | .restore _ => .isTrue trivial

/-- A write-through row is its entry. -/
def SameRow (cfg : Settings) (row entry : Option (WindowEntry A)) : Prop :=
  cfg.wbCacheSkip = false → row = entry

theorem SameRow.tracks : Tracks cfg (SameRow (A := A) cfg) where
  absent _ := rfl
  same _ _ := rfl
  back hskip row entry hthrough := by
    rw [hskip] at hthrough
    simp at hthrough

private theorem accumulate_fired (op : Operator K A τ) (sk : StateKey K) (v : V) :
    (op.accumulate cfg agg sk v).2.fired = (op.mem.find? sk).any WindowEntry.fired := by
  unfold Operator.accumulate
  cases op.mem.find? sk <;> rfl

/-- Without an emission the entry is the one that was put. -/
theorem entryAfter_of_quiet {r : Record K V} {tr : TriggerResult}
    (hfired : (op.mem.find? (r.stateKey cfg)).any WindowEntry.fired = false)
    (hfire : tr.shouldFire = false) :
    (op.entryAfter cfg agg r tr).1 = (op.accumulate cfg agg (r.stateKey cfg) r.value).2 := by
  unfold Operator.entryAfter WindowEntry.onRecord
  rw [accumulate_fired, hfired, hfire]
  rfl

theorem Related.next_sameRow (h : Related (SameRow cfg) op) {e : Event K V A}
    (hmirrors : Mirrors cfg trig op e) : Related (SameRow cfg) (op.next cfg agg trig e) := by
  refine h.next SameRow.tracks e ?_
  intro r he hlate hskip hpurge _
  subst he
  have hquiet : ¬ op.EmitsAndKeeps cfg trig r := hmirrors hskip
  have hsilent : ¬ ((op.mem.find? (r.stateKey cfg)).any WindowEntry.fired = true ∨
      (op.answer cfg trig r).2.shouldFire = true) := fun hemits => hquiet ⟨hlate, hemits, hpurge⟩
  rw [not_or, Bool.not_eq_true, Bool.not_eq_true] at hsilent
  rw [entryAfter_of_quiet hsilent.1 hsilent.2]

variable {b : Backend K A}

/-- The flush of a write-back operator, and the mirror of a write-through one. -/
theorem rows_onBarrier (hv : Valid cfg op) (h : Related (SameRow cfg) op)
    (hb : (op.onBarrier cfg trig).backend = some b) : b.windows = op.mem := by
  obtain ⟨b₀, hb₀, rfl⟩ := Option.map_eq_some_iff.mp hb
  change (if cfg.wbCacheSkip then b₀.windows.putAll op.mem else b₀.windows) = op.mem
  refine SortedMap.ext_find? fun k => ?_
  cases hskip : cfg.wbCacheSkip with
  | false => exact h b₀ hb₀ k hskip
  | true =>
      rw [if_pos rfl, SortedMap.find?_putAll]
      cases hentry : op.mem.find? k with
      | some entry => rfl
      | none =>
          have hrow := (hv.shadows b₀ hb₀ k).1
          rw [hentry] at hrow
          cases hfind : b₀.windows.find? k with
          | none => rfl
          | some row =>
              rw [hfind] at hrow
              exact absurd (hrow rfl) (by simp)

/-- The aggregates are in the rows whatever the records have emitted. -/
theorem aggs_onBarrier (hv : Valid cfg op) (hb : (op.onBarrier cfg trig).backend = some b)
    (sk : StateKey K) :
    (b.windows.find? sk).map WindowEntry.agg = (op.mem.find? sk).map WindowEntry.agg := by
  cases hskip : cfg.wbCacheSkip with
  | false => exact (hv.shadows.onBarrier Shadows.tracks b hb sk).2 hskip
  | true =>
      have hvacuous : Related (SameRow cfg) op := by
        intro b _ sk hthrough
        rw [hskip] at hthrough
        simp at hthrough
      rw [rows_onBarrier hv hvacuous hb]

/-! ## Operators that differ in the bound -/

/-- The operators are the same but for the bound. -/
def Agrees (op op' : Operator K A τ) : Prop :=
  ∃ bound, op' = { op with earliestWindowEnd := bound }

namespace Agrees

theorem lowerEarliest (h : Agrees op op') (sk : StateKey K) :
    Agrees (op.lowerEarliest cfg sk) (op'.lowerEarliest cfg sk) := by
  obtain ⟨bound, rfl⟩ := h
  exact ⟨_, rfl⟩

theorem mirror (cfg : Settings) (h : Agrees op op') (sk : StateKey K) (entry : WindowEntry A) :
    Agrees (op.mirror cfg sk entry) (op'.mirror cfg sk entry) := by
  obtain ⟨bound, rfl⟩ := h
  refine ⟨bound, ?_⟩
  unfold Operator.mirror
  split <;> rfl

theorem store (h : Agrees op op') (sk : StateKey K) (entry : WindowEntry A) :
    Agrees (op.store cfg sk entry) (op'.store cfg sk entry) := by
  obtain ⟨bound, rfl⟩ := h
  exact lowerEarliest (mirror cfg ⟨bound, rfl⟩ sk entry) sk

theorem purge (h : Agrees op op') (sk : StateKey K) (window : TimeWindow) :
    Agrees (op.purge trig sk window) (op'.purge trig sk window) := by
  obtain ⟨bound, rfl⟩ := h
  exact ⟨bound, rfl⟩

theorem accumulate (cfg : Settings) (agg : Aggregate V A) (h : Agrees op op')
    (sk : StateKey K) (v : V) :
    Agrees (op.accumulate cfg agg sk v).1 (op'.accumulate cfg agg sk v).1 ∧
      (op'.accumulate cfg agg sk v).2 = (op.accumulate cfg agg sk v).2 := by
  obtain ⟨bound, rfl⟩ := h
  unfold Operator.accumulate
  dsimp only
  cases op.mem.find? sk with
  | some entry => exact ⟨⟨bound, rfl⟩, rfl⟩
  | none => exact ⟨⟨_, rfl⟩, rfl⟩

theorem recorded (cfg : Settings) (agg : Aggregate V A) (trig : Trigger V τ)
    (h : Agrees op op') (r : Record K V) :
    Agrees (op.recorded cfg agg trig r) (op'.recorded cfg agg trig r) ∧
      op'.entryAfter cfg agg r (op'.answer cfg trig r).2 =
        op.entryAfter cfg agg r (op.answer cfg trig r).2 := by
  obtain ⟨hacc, hentry⟩ := h.accumulate cfg agg (r.stateKey cfg) r.value
  obtain ⟨bound, hop⟩ := h
  have hafter : op'.entryAfter cfg agg r (op'.answer cfg trig r).2 =
      op.entryAfter cfg agg r (op.answer cfg trig r).2 := by
    unfold Operator.entryAfter Operator.answer
    rw [hentry, hop]
  refine ⟨?_, hafter⟩
  unfold Operator.recorded
  dsimp only
  rw [hafter, hentry]
  obtain ⟨bound', hmirror⟩ := hacc.mirror cfg (r.stateKey cfg)
    (op.accumulate cfg agg (r.stateKey cfg) r.value).2
  refine ⟨bound', ?_⟩
  rw [hmirror]
  unfold Operator.answer
  rw [hop]

theorem ingestOne (cfg : Settings) (agg : Aggregate V A) (trig : Trigger V τ)
    (h : Agrees op op') (r : Record K V) :
    Agrees (op.ingestOne cfg agg trig r).1 (op'.ingestOne cfg agg trig r).1 ∧
      (op'.ingestOne cfg agg trig r).2 = (op.ingestOne cfg agg trig r).2 := by
  obtain ⟨hrecorded, hafter⟩ := h.recorded cfg agg trig r
  have hctx : op'.ctx = op.ctx := by
    obtain ⟨bound, rfl⟩ := h
    rfl
  have hanswer : op'.answer cfg trig r = op.answer cfg trig r := by
    obtain ⟨bound, rfl⟩ := h
    rfl
  have hhandled : Agrees (op.handleRecord cfg agg trig r.key (r.window cfg) r.value r.ts).1
      (op'.handleRecord cfg agg trig r.key (r.window cfg) r.value r.ts).1 ∧
      (op'.handleRecord cfg agg trig r.key (r.window cfg) r.value r.ts).2 =
        (op.handleRecord cfg agg trig r.key (r.window cfg) r.value r.ts).2 := by
    rw [Operator.handleRecord_eq, Operator.handleRecord_eq, hafter, hanswer]
    refine ⟨?_, rfl⟩
    dsimp only
    split
    · exact hrecorded.purge _ _
    · exact hrecorded
  unfold Operator.ingestOne
  dsimp only
  rw [hctx]
  split
  · exact ⟨h, rfl⟩
  · exact hhandled

/-! ### Sweeps -/

theorem applyAction (cfg : Settings) (trig : Trigger V τ) (h : Agrees op op') (a : Action K A) :
    Agrees (op.applyAction cfg trig a).1 (op'.applyAction cfg trig a).1 := by
  have hfired : Agrees (op.firedBy cfg a) (op'.firedBy cfg a) := by
    unfold Operator.firedBy
    split
    · exact h.store _ _
    · exact h
  rw [Operator.applyAction_fst, Operator.applyAction_fst]
  split
  · exact hfired.purge _ _
  · exact hfired

theorem applyActions (cfg : Settings) (trig : Trigger V τ) (acts : List (Action K A)) :
    ∀ {op op' : Operator K A τ},
    Agrees op op' → Agrees (op.applyActions cfg trig acts).1 (op'.applyActions cfg trig acts).1 ∧
      (op'.applyActions cfg trig acts).2 = (op.applyActions cfg trig acts).2 := by
  induction acts with
  | nil =>
      intro op op' h
      exact ⟨h, rfl⟩
  | cons a rest ih =>
      intro op op' h
      have hpanes : (op'.applyAction cfg trig a).2 = (op.applyAction cfg trig a).2 := by
        unfold Operator.applyAction
        cases a.fire <;> rfl
      obtain ⟨hrest, hmore⟩ := ih (h.applyAction cfg trig a)
      refine ⟨hrest, ?_⟩
      simp only [Operator.applyActions]
      rw [hpanes, hmore]

private theorem recompute (cfg : Settings) (h : Agrees op op') :
    Agrees (op.recomputeEarliestWindowEnd cfg) (op'.recomputeEarliestWindowEnd cfg) := by
  obtain ⟨bound, rfl⟩ := h
  exact ⟨(op.recomputeEarliestWindowEnd cfg).earliestWindowEnd, rfl⟩

theorem sweep (h : Agrees op op') (wm : Int) :
    Agrees (op.sweep cfg trig wm).1 (op'.sweep cfg trig wm).1 ∧
      (op'.sweep cfg trig wm).2 = (op.sweep cfg trig wm).2 := by
  have hacts : op'.actions cfg trig wm = op.actions cfg trig wm := by
    obtain ⟨bound, rfl⟩ := h
    rfl
  have hstart : Agrees ({ op with trigger := (op.actions cfg trig wm).1 } : Operator K A τ)
      { op' with trigger := (op.actions cfg trig wm).1 } := by
    obtain ⟨bound, rfl⟩ := h
    exact ⟨bound, rfl⟩
  obtain ⟨happlied, hpanes⟩ := applyActions cfg trig (op.actions cfg trig wm).2 hstart
  unfold Operator.sweep
  rw [hacts]
  exact ⟨happlied.recompute cfg, congrArg emitData hpanes⟩

end Agrees

/-- The lateness deadline is not before the window's end: the lateness is not
negative and the sum fits. -/
def Timely (cfg : Settings) (window : TimeWindow) : Prop := window.endTs ≤ cfg.purgeAt window

instance (window : TimeWindow) : Decidable (Timely cfg window) :=
  inferInstanceAs (Decidable (_ ≤ _))

def TimelyWindows (cfg : Settings) (windows : SortedMap (StateKey K) (WindowEntry A)) : Prop :=
  ∀ sk ∈ windows.keys, Timely cfg (cfg.window sk.start)

theorem sweep_of_open {wm : Int} (hopen : ∀ e ∈ op.mem.entries, wm < e.1.windowEnd cfg)
    (htimely : TimelyWindows cfg op.mem) :
    op.sweep cfg trig wm = (op.recomputeEarliestWindowEnd cfg, []) := by
  obtain ⟨htrigger, hacts⟩ :=
    collectActions_of_open trig op.ctx op.mem.entries hopen op.trigger
  have hnone : (op.actions cfg trig wm).2 = [] := by
    rw [List.eq_nil_iff_forall_not_mem]
    intro a ha
    obtain ⟨-, e, he, hdue⟩ := hacts a ha
    have hend := hopen e he
    have hlater : (cfg.window e.1.start).endTs ≤ cfg.purgeAt (cfg.window e.1.start) :=
      htimely e.1 (List.mem_map_of_mem he)
    unfold StateKey.windowEnd at hend
    omega
  have hasked : (op.actions cfg trig wm).1 = op.trigger := htrigger
  unfold Operator.sweep
  dsimp only
  rw [hnone, hasked]
  rfl

namespace Agrees

/-- A watermark does the same to both, also when only one of them sweeps. -/
theorem onWatermarkAdvance (trig : Trigger V τ) (h : Agrees op op')
    (hsound : Sound cfg op) (hsound' : Sound cfg op') (htimely : TimelyWindows cfg op.mem)
    (wm : Int) :
    Agrees (op.onWatermarkAdvance cfg trig wm).1 (op'.onWatermarkAdvance cfg trig wm).1 ∧
      (op'.onWatermarkAdvance cfg trig wm).2 = (op.onWatermarkAdvance cfg trig wm).2 := by
  have hmem : op'.mem = op.mem := by
    obtain ⟨bound, rfl⟩ := h
    rfl
  unfold Operator.onWatermarkAdvance
  by_cases hskips : wm < op.earliestWindowEnd
  · rw [if_pos hskips]
    by_cases hskips' : wm < op'.earliestWindowEnd
    · rw [if_pos hskips']
      exact ⟨h, rfl⟩
    · rw [if_neg hskips', sweep_of_open (hmem ▸ hsound.open hskips) (hmem ▸ htimely)]
      obtain ⟨bound, rfl⟩ := h
      exact ⟨⟨_, rfl⟩, rfl⟩
  · rw [if_neg hskips]
    by_cases hskips' : wm < op'.earliestWindowEnd
    · rw [if_pos hskips', sweep_of_open (hmem ▸ hsound'.open hskips') htimely]
      obtain ⟨bound, rfl⟩ := h
      exact ⟨⟨bound, rfl⟩, rfl⟩
    · rw [if_neg hskips']
      exact h.sweep wm

end Agrees

/-! ## Runs -/

/-- The windows an event brings have their deadline after their end. -/
def Event.Timely (cfg : Settings) : Event K V A → Prop
  | .record r => TumblingWindowOperator.Timely cfg (r.window cfg)
  | .restore backend => TimelyWindows cfg backend.windows
  | _ => True

instance : (e : Event K V A) → Decidable (e.Timely cfg)
  | .record r => inferInstanceAs (Decidable (TumblingWindowOperator.Timely cfg (r.window cfg)))
  | .restore backend =>
      inferInstanceAs (Decidable (∀ sk ∈ backend.windows.keys,
        TumblingWindowOperator.Timely cfg (cfg.window sk.start)))
  | .beginBatch _ | .watermark _ | .barrier _ | .flush => .isTrue trivial

theorem TimelyWindows.next (h : TimelyWindows cfg op.mem) {e : Event K V A}
    (he : e.Timely cfg) : TimelyWindows cfg (op.next cfg agg trig e).mem := by
  have hadvance : ∀ wm, TimelyWindows cfg
      ((op.setWatermark wm).onWatermarkAdvance cfg trig wm).1.mem := by
    intro wm
    unfold Operator.onWatermarkAdvance
    split
    · exact h
    · intro sk hsk
      exact h sk ((mem_keys_sweep (op.setWatermark wm) wm sk).mp hsk).1
  cases e with
  | beginBatch now => exact h
  | record r =>
      intro sk hsk
      rcases mem_keys_ingestOne hsk with heq | hold
      · rw [heq]
        exact he
      · exact h sk hold
  | watermark wm => exact hadvance _
  | barrier id => exact h
  | flush => exact hadvance _
  | restore backend =>
      intro sk hsk
      change sk ∈ (Operator.opened cfg trig backend).mem.keys at hsk
      unfold Operator.opened at hsk
      split at hsk
      · exact he sk hsk
      · simp [SortedMap.keys] at hsk

private theorem timelyWindows_opened_empty :
    TimelyWindows cfg (Operator.opened cfg trig ({} : Backend K A)).mem := by
  intro sk hsk
  unfold Operator.opened at hsk
  split at hsk <;> simp [SortedMap.keys] at hsk

/-- Two operators that agree, with a sound bound each. -/
structure Twins (cfg : Settings) (op op' : Operator K A τ) : Prop where
  agrees : Agrees op op'
  valid : Valid cfg op
  valid' : Valid cfg op'
  sound : Sound cfg op
  sound' : Sound cfg op'
  timely : TimelyWindows cfg op.mem

namespace Twins

private theorem agrees_next (agg : Aggregate V A) (trig : Trigger V τ) (h : Twins cfg op op')
    (e : Event K V A) :
    Agrees (op.next cfg agg trig e) (op'.next cfg agg trig e) ∧
      op'.emits cfg agg trig e = op.emits cfg agg trig e := by
  obtain ⟨bound, hop⟩ := h.agrees
  have hadvance : ∀ wm,
      Agrees ((op.setWatermark wm).onWatermarkAdvance cfg trig wm).1
        ((op'.setWatermark wm).onWatermarkAdvance cfg trig wm).1 ∧
      ((op'.setWatermark wm).onWatermarkAdvance cfg trig wm).2 =
        ((op.setWatermark wm).onWatermarkAdvance cfg trig wm).2 := by
    intro wm
    have hset : Agrees (op.setWatermark wm) (op'.setWatermark wm) := ⟨bound, by rw [hop]; rfl⟩
    exact hset.onWatermarkAdvance trig h.sound h.sound' h.timely wm
  cases e with
  | beginBatch now => exact ⟨⟨bound, by rw [hop]; rfl⟩, rfl⟩
  | record r => exact h.agrees.ingestOne cfg agg trig r
  | watermark wm =>
      obtain ⟨hnext, hout⟩ := hadvance wm.timestamp.millis
      refine ⟨hnext, ?_⟩
      change _ ++ _ = _ ++ _
      rw [hout]
  | barrier id => exact ⟨⟨bound, by rw [hop]; rfl⟩, rfl⟩
  | flush => exact hadvance Watermark.max.timestamp.millis
  | restore backend => exact ⟨⟨_, rfl⟩, rfl⟩

theorem next (agg : Aggregate V A) (h : Twins cfg op op') (e : Event K V A)
    (hcovered : Covered cfg trig op e ∧ e.Timely cfg) (hcovered' : Covered cfg trig op' e) :
    Twins cfg (op.next cfg agg trig e) (op'.next cfg agg trig e) ∧
      op.emits cfg agg trig e = op'.emits cfg agg trig e := by
  obtain ⟨hagrees, hout⟩ := h.agrees_next agg trig e
  exact
    ⟨{ agrees := hagrees
       valid := h.valid.next e
       valid' := h.valid'.next e
       sound := (h.sound.next_iff h.valid e).mpr hcovered.1
       sound' := (h.sound'.next_iff h.valid' e).mpr hcovered'
       timely := h.timely.next hcovered.2 }, hout.symm⟩

end Twins

/-! ## An operator opened on a checkpoint -/

theorem opened_trigger (hpersistent : cfg.persistent = true)
    (hb : (op.onBarrier cfg trig).backend = some b) (hdurable : trig.Durable op.trigger) :
    (Operator.opened cfg trig b).trigger = op.trigger := by
  obtain ⟨b₀, -, rfl⟩ := Option.map_eq_some_iff.mp hb
  unfold Operator.opened
  rw [if_pos hpersistent]
  unfold Trigger.Durable at hdurable
  dsimp only
  by_cases hstateful : trig.isStateful = true
  · rw [if_pos hstateful] at hdurable
    rw [if_pos hstateful, if_pos hstateful]
    exact hdurable
  · rw [if_neg hstateful] at hdurable
    rw [if_neg hstateful]
    exact hdurable

/-- Once both have seen a time and a watermark nothing but the bound differs. -/
theorem twins_opened (agg : Aggregate V A) (hpersistent : cfg.persistent = true)
    (hv : Valid cfg op) (hsound : Sound cfg op) (htimely : TimelyWindows cfg op.mem)
    (hb : op.backend = some b) (hrows : b.windows = op.mem)
    (htrigger : (Operator.opened cfg trig b).trigger = op.trigger) (now wm : Int) :
    Twins cfg ((op.next cfg agg trig (.beginBatch now)).setWatermark wm)
      (((Operator.opened cfg trig b).next cfg agg trig (.beginBatch now)).setWatermark wm) where
  agrees := by
    refine ⟨(Operator.opened cfg trig b).earliestWindowEnd, ?_⟩
    have hmem : (Operator.opened cfg trig b).mem = op.mem := by
      unfold Operator.opened
      rw [if_pos hpersistent]
      exact hrows
    have hbackend : (Operator.opened cfg trig b).backend = op.backend := by
      unfold Operator.opened
      rw [if_pos hpersistent, hb]
    change Operator.mk (Operator.opened cfg trig b).mem (Operator.opened cfg trig b).backend
      (Operator.opened cfg trig b).trigger ⟨wm, now⟩ _ =
        ⟨op.mem, op.backend, op.trigger, ⟨wm, now⟩, _⟩
    rw [hmem, hbackend, htrigger]
    rfl
  valid := ⟨hv.attached, hv.shadows⟩
  valid' := ⟨(Valid.opened cfg trig b).attached, (Valid.opened cfg trig b).shadows⟩
  sound := hsound
  sound' := Sound.opened cfg trig b
  timely := htimely

private theorem answers_opened (hpersistent : cfg.persistent = true) (hv : Valid cfg op)
    (hsound : Sound cfg op) (htimely : TimelyWindows cfg op.mem)
    (hb : op.backend = some b) (hrows : b.windows = op.mem)
    (htrigger : (Operator.opened cfg trig b).trigger = op.trigger) {now : Int} {wm : Watermark}
    {more pre : List (Event K V A)}
    (hall : Runs.Allowed (Operator.next cfg agg trig)
      (fun _ op e => Covered cfg trig op e ∧ e.Timely cfg) pre op
      (.beginBatch now :: .watermark wm :: more))
    (hall' : Runs.Allowed (Operator.next cfg agg trig) (fun _ op e => Covered cfg trig op e) []
      (Operator.opened cfg trig b) (.beginBatch now :: .watermark wm :: more)) :
    answers (Operator.next cfg agg trig) (Operator.emits cfg agg trig) op
        (.beginBatch now :: .watermark wm :: more) =
      answers (Operator.next cfg agg trig) (Operator.emits cfg agg trig)
        (Operator.opened cfg trig b) (.beginBatch now :: .watermark wm :: more) := by
  have htwins : Twins cfg _ _ := twins_opened agg hpersistent hv hsound htimely hb hrows
    htrigger now wm.timestamp.millis
  obtain ⟨hnext, hout⟩ := htwins.next agg (.watermark wm) hall.2.1 hall'.2.1
  have hmore := answers_eq_of_simulation (R := Twins cfg)
    (fun op op' e h hok hok' => h.next agg e hok hok') hnext hall.2.2 hall'.2.2
  have hwatermark :
      (op.next cfg agg trig (.beginBatch now)).emits cfg agg trig (.watermark wm) =
        ((Operator.opened cfg trig b).next cfg agg trig (.beginBatch now)).emits cfg agg trig
          (.watermark wm) := hout
  simp only [answers]
  rw [hwatermark]
  exact congrArg (fun rest => [] :: _ :: rest) hmore

/-- A run whose sweeps are covered keeps the bound sound. -/
theorem sound_of_covered {es : List (Event K V A)}
    (hall : Runs.Allowed (Operator.next cfg agg trig)
      (fun _ op e => Covered cfg trig op e ∧ e.Timely cfg) [] (Operator.opened cfg trig {}) es) :
    Sound cfg (es.foldl (Operator.next cfg agg trig) (Operator.opened cfg trig {})) ∧
      TimelyWindows cfg
        (es.foldl (Operator.next cfg agg trig) (Operator.opened cfg trig {})).mem := by
  have hrun := (Runs.of_allowed hall).induct
    (I := fun _ op => Valid cfg op ∧ Sound cfg op ∧ TimelyWindows cfg op.mem)
    ⟨Valid.opened cfg trig {}, Sound.opened cfg trig {}, timelyWindows_opened_empty⟩ ?_
  · exact hrun.2
  · intro _ op e _ h hok
    obtain ⟨hv, hsound, htimely⟩ := h
    exact ⟨hv.next e, (hsound.next_iff hv e).mpr hok.1, htimely.next hok.2⟩

/-- At a barrier the rows have the windows and the aggregates of the working
set.  They are the working set, in write-through mode when no record has emitted
a pane of a window it kept; an operator opened on them then emits what the one
that goes on does, from the next watermark on and while the fast path's bounds
stay sound. -/
theorem restored_emits_same (cfg : Settings) (agg : Aggregate V A) (trig : Trigger V τ)
    (hpersistent : cfg.persistent = true) (es : List (Event K V A)) (id : Nat) :
    let next := Operator.next cfg agg trig
    let emits := Operator.emits cfg agg trig
    let init : Operator K A τ := Operator.opened cfg trig {}
    let op := (es ++ [Event.barrier id]).foldl next init
    ∃ b, op.backend = some b ∧
      (∀ sk, (b.windows.find? sk).map WindowEntry.agg = (op.mem.find? sk).map WindowEntry.agg) ∧
      (Runs.Allowed next (fun _ op e => Mirrors cfg trig op e) [] init es →
        b.windows = op.mem ∧
        (trig.Durable op.trigger → ∀ now wm more,
          Runs.Allowed next (fun _ op e => Covered cfg trig op e ∧ e.Timely cfg) [] init
            (es ++ .barrier id :: .beginBatch now :: .watermark wm :: more) →
          Runs.Allowed next (fun _ op e => Covered cfg trig op e) [] (Operator.opened cfg trig b)
            (.beginBatch now :: .watermark wm :: more) →
          answers next emits (Operator.opened cfg trig b)
              (.beginBatch now :: .watermark wm :: more) =
            answers next emits op (.beginBatch now :: .watermark wm :: more))) := by
  intro next emits init op
  have hv : Valid cfg (es.foldl next init) := (Valid.opened cfg trig {}).run es
  have hop : op = (es.foldl next init).onBarrier cfg trig := by
    change (es ++ [Event.barrier id]).foldl next init = _
    rw [List.foldl_append]
    rfl
  have hvop : Valid cfg op := by
    have hnext : Valid cfg (next (es.foldl next init) (.barrier id)) := hv.next _
    rw [hop]
    exact hnext
  obtain ⟨b, hb⟩ := Option.isSome_iff_exists.mp (hvop.attached.trans hpersistent)
  have hb' : ((es.foldl next init).onBarrier cfg trig).backend = some b := hop ▸ hb
  have hmem : op.mem = (es.foldl next init).mem := by
    rw [hop]
    rfl
  refine ⟨b, hb, fun sk => ?_, fun hmirrors => ?_⟩
  · rw [hmem]
    exact aggs_onBarrier hv hb' sk
  have hsame : Related (SameRow cfg) (es.foldl next init) :=
    (Runs.of_allowed hmirrors).induct (I := fun _ op => Related (SameRow cfg) op)
      (Related.opened SameRow.tracks {}) fun _ op e _ h hok => h.next_sameRow hok
  have hrows : b.windows = op.mem := (rows_onBarrier hv hsame hb').trans hmem.symm
  refine ⟨hrows, fun hdurable now wm more hall hall' => ?_⟩
  obtain ⟨hbefore, -, hafter⟩ := Runs.allowed_append.mp hall
  have hinv := sound_of_covered hbefore
  have htrigger : (Operator.opened cfg trig b).trigger = op.trigger := by
    have hkept : op.trigger = (es.foldl next init).trigger := by
      rw [hop]
      rfl
    rw [hkept] at hdurable ⊢
    exact opened_trigger hpersistent hb' hdurable
  have hsound : Sound cfg op := by
    rw [hop]
    exact hinv.1
  have htimely : TimelyWindows cfg op.mem := by
    rw [hmem]
    exact hinv.2
  have hcontinues : next (es.foldl next init) (.barrier id) = op := hop.symm
  rw [hcontinues] at hafter
  exact (answers_opened hpersistent hvop hsound htimely hb hrows htrigger hafter hall').symm

/-! ### Concrete checkpoints -/

def writeThrough : Settings := { windowSize := 10, allowedLateness := 20, persistent := true }

def watermark15 : Watermark := ⟨⟨15, by decide, by decide⟩, false⟩

def runOf (cfg : Settings) (trig : Trigger Int τ) (es : List (Event Nat Int Int)) :
    Operator Nat Int τ :=
  es.foldl (Operator.next cfg sumAggregate trig) (Operator.opened cfg trig {})

def outputsOf (cfg : Settings) (trig : Trigger Int τ) (op : Operator Nat Int τ)
    (es : List (Event Nat Int Int)) : List (List (Emitted Nat Int Int)) :=
  answers (Operator.next cfg sumAggregate trig) (Operator.emits cfg sumAggregate trig) op es

/-- A count trigger with one record of two counted at the barrier: the restored
operator fires at the next one, as the original does. -/
theorem restored_emits_same_counting :
    let trig := countTrigger Int 2
    let op := runOf writeThrough trig [recordAt 105, .barrier 1]
    let more := [.beginBatch 0, .watermark watermark10, recordAt 106]
    ∃ b, op.backend = some b ∧ b.windows = op.mem ∧
      outputsOf writeThrough trig (Operator.opened writeThrough trig b) more =
        outputsOf writeThrough trig op more ∧
      outputsOf writeThrough trig op more =
        [[], [.watermark watermark10], [.data [⟨1, 2, 109, .early, 0, true, true⟩]]] := by
  intro trig op more
  obtain ⟨b, hb, -, hmirrored⟩ :=
    restored_emits_same writeThrough sumAggregate trig rfl [recordAt 105] 1
  obtain ⟨hrows, hsame⟩ := hmirrored (by decide)
  have hcounts : op.trigger.entries = [(toLex (100, 110), 1)] := by decide
  have hfits : CountTrigger.Fits op.trigger := by
    constructor <;> rw [hcounts] <;> decide
  have hthrough : ∀ op : Operator Nat Int Counts, ∀ wm, CoveredAt writeThrough trig op wm :=
    fun op wm hskip => absurd hskip (by decide)
  refine ⟨b, hb, hrows, ?_, by decide⟩
  exact hsame (countTrigger_durable hfits) 0 watermark10 [recordAt 106]
    ⟨⟨trivial, by decide⟩, ⟨trivial, trivial⟩, ⟨trivial, trivial⟩, ⟨hthrough _ _, trivial⟩,
      ⟨trivial, by decide⟩, trivial⟩
    ⟨trivial, hthrough _ _, trivial, trivial⟩

def watermark25 : Watermark := ⟨⟨25, by decide, by decide⟩, false⟩

/-- Four ways in which the copies or the restored operator differ: a record that
fires a window it keeps after the put of its entry; a late record before the
restored operator has seen a watermark; a write-back bound that has lost a
window; a lateness deadline before the window's end. -/
theorem restored_operator_differs :
    (let op := runOf writeThrough (eventTimeTrigger Int)
        [.watermark watermark15, recordAt 3, .barrier 1]
     op.mem.entries = [(toLex (0, 1), ⟨1, true, 1⟩)] ∧
       op.backend.map (fun b => b.windows.entries) =
          some [(toLex (0, 1), ⟨1, false, 0⟩)]) ∧
    (let op := runOf writeThrough (eventTimeTrigger Int) [.watermark watermark15, .barrier 1]
     let restored := Operator.opened writeThrough (eventTimeTrigger Int) (op.backend.getD {})
     outputsOf writeThrough (eventTimeTrigger Int) op [recordAt 3] =
          [[.data [⟨1, 1, 9, .onTime, 0, true, false⟩]]] ∧
       outputsOf writeThrough (eventTimeTrigger Int) restored [recordAt 3] = [[]]) ∧
    (let op := runOf writeBack (eventTimeTrigger Int)
        [recordAt 5, recordAt 105, .watermark watermark10, .barrier 1]
     let restored := Operator.opened writeBack (eventTimeTrigger Int) (op.backend.getD {})
     let more := [.beginBatch 0, .watermark watermark110]
     outputsOf writeBack (eventTimeTrigger Int) op more = [[], [.watermark watermark110]] ∧
       outputsOf writeBack (eventTimeTrigger Int) restored more =
          [[], [.data [⟨1, 1, 109, .onTime, 0, true, true⟩], .watermark watermark110]]) ∧
    (let cfg : Settings := { windowSize := 10, allowedLateness := -5, persistent := true }
     let op := runOf cfg (countTrigger Int 2) [recordAt 5, recordAt 5, recordAt 25, .barrier 1]
     let restored := Operator.opened cfg (countTrigger Int 2) (op.backend.getD {})
     let more := [.beginBatch 0, .watermark watermark25, recordAt 26]
     outputsOf cfg (countTrigger Int 2) op more = [[], [.watermark watermark25], []] ∧
       outputsOf cfg (countTrigger Int 2) restored more =
          [[], [.watermark watermark25], [.data [⟨1, 2, 29, .early, 0, true, true⟩]]]) := by
  decide +kernel

end Clink.Ports.TumblingWindowOperator

import Clink.Ports.TumblingWindowOperator

/-!
# The two copies of a tumbling operator's windows

A relation between the durable row and the working entry of one window is kept
along every run when it holds of an absent pair, of a pair just put and, in
write-back mode, of any row beside a new entry.  The one step such a relation
has to answer for is a record that emits a pane and keeps its window: a
write-through operator has put the entry before that.

The second part says which windows a sweep leaves in each copy.
-/

namespace Clink.Ports.TumblingWindowOperator

open Clink.Verified
open Clink.Ports.Time
open Clink.Ports.WindowTrigger

variable {K V A τ : Type} [LinearOrder K] {cfg : Settings} {agg : Aggregate V A}
  {trig : Trigger V τ} {op : Operator K A τ}
  {R : Option (WindowEntry A) → Option (WindowEntry A) → Prop}

/-- The window a record belongs to. -/
def Record.window (cfg : Settings) (r : Record K V) : TimeWindow :=
  cfg.window (windowStartFor r.ts cfg.windowSize)

def Record.stateKey (cfg : Settings) (r : Record K V) : StateKey K :=
  toLex ((r.window cfg).start, r.key)

/-- The relation holds between the copies, window by window. -/
def Related (R : Option (WindowEntry A) → Option (WindowEntry A) → Prop)
    (op : Operator K A τ) : Prop :=
  ∀ b, op.backend = some b → ∀ sk, R (b.windows.find? sk) (op.mem.find? sk)

structure Tracks (cfg : Settings) (R : Option (WindowEntry A) → Option (WindowEntry A) → Prop) :
    Prop where
  absent : R none none
  same : ∀ entry, R (some entry) (some entry)
  back : cfg.wbCacheSkip = true → ∀ row entry, R row (some entry)

/-- The record goes to the late output. -/
def Operator.RoutesLate (cfg : Settings) (op : Operator K A τ) (r : Record K V) : Prop :=
  cfg.lateTag = true ∧ op.ctx.currentWatermark ≥ cfg.purgeAt (r.window cfg)

instance (op : Operator K A τ) (r : Record K V) : Decidable (op.RoutesLate cfg r) :=
  inferInstanceAs (Decidable (_ ∧ _))

/-- The entry a record leaves when the trigger answers `tr`. -/
def Operator.entryAfter (cfg : Settings) (agg : Aggregate V A) (op : Operator K A τ)
    (r : Record K V) (tr : TriggerResult) : WindowEntry A × List (Pane K A) :=
  (op.accumulate cfg agg (r.stateKey cfg) r.value).2.onRecord r.key (r.window cfg)
    op.ctx.currentWatermark tr

/-- The trigger's answer to a record. -/
def Operator.answer (cfg : Settings) (trig : Trigger V τ) (op : Operator K A τ)
    (r : Record K V) : τ × TriggerResult :=
  trig.onElement op.trigger r.value r.ts (r.window cfg) op.ctx

/-- The operator once a record's window is updated, before a purge. -/
def Operator.recorded (cfg : Settings) (agg : Aggregate V A) (trig : Trigger V τ)
    (op : Operator K A τ) (r : Record K V) : Operator K A τ :=
  let sk := r.stateKey cfg
  let accumulated := op.accumulate cfg agg sk r.value
  let put := accumulated.1.mirror cfg sk accumulated.2
  { put with
    trigger := (op.answer cfg trig r).1
    mem := put.mem.upsert sk fun _ => (op.entryAfter cfg agg r (op.answer cfg trig r).2).1 }

/-- The operator once an action's pane is out, before a purge. -/
def Operator.firedBy (cfg : Settings) (op : Operator K A τ) (a : Action K A) : Operator K A τ :=
  if a.fire then
    op.store cfg a.sk
      { a.entry with nextPaneIndex := add64 a.entry.nextPaneIndex 1, fired := true }
  else op

/-! ## What each change leaves alone -/

namespace Operator

variable (sk : StateKey K) (entry : WindowEntry A) (v : V)

/-- A mirrored entry changes the durable copy alone. -/
theorem mirror_eq : op.mirror cfg sk entry =
    { op with backend :=
        if cfg.wbCacheSkip then op.backend
        else op.backend.map fun b =>
          { b with windows := b.windows.upsert sk fun _ => entry } } := by
  unfold mirror
  split <;> rfl

@[simp] theorem mirror_mem : (op.mirror cfg sk entry).mem = op.mem := by
  rw [mirror_eq]

@[simp] theorem mirror_trigger : (op.mirror cfg sk entry).trigger = op.trigger := by
  rw [mirror_eq]

@[simp] theorem mirror_ctx : (op.mirror cfg sk entry).ctx = op.ctx := by
  rw [mirror_eq]

@[simp] theorem mirror_earliestWindowEnd :
    (op.mirror cfg sk entry).earliestWindowEnd = op.earliestWindowEnd := by
  rw [mirror_eq]

theorem mirror_backend : (op.mirror cfg sk entry).backend =
    if cfg.wbCacheSkip then op.backend
    else op.backend.map fun b => { b with windows := b.windows.upsert sk fun _ => entry } := by
  rw [mirror_eq]

/-- A folded value changes the window's entry and the bound alone. -/
theorem accumulate_eq : (op.accumulate cfg agg sk v).1 =
    { op with
      mem := op.mem.upsert sk fun _ => (op.accumulate cfg agg sk v).2
      earliestWindowEnd := (op.accumulate cfg agg sk v).1.earliestWindowEnd } := by
  unfold accumulate
  split <;> rfl

@[simp] theorem accumulate_mem : (op.accumulate cfg agg sk v).1.mem =
    op.mem.upsert sk fun _ => (op.accumulate cfg agg sk v).2 := by
  rw [accumulate_eq]

@[simp] theorem accumulate_backend : (op.accumulate cfg agg sk v).1.backend = op.backend := by
  rw [accumulate_eq]

@[simp] theorem accumulate_trigger : (op.accumulate cfg agg sk v).1.trigger = op.trigger := by
  rw [accumulate_eq]

@[simp] theorem accumulate_ctx : (op.accumulate cfg agg sk v).1.ctx = op.ctx := by
  rw [accumulate_eq]

theorem handleRecord_eq (r : Record K V) :
    op.handleRecord cfg agg trig r.key (r.window cfg) r.value r.ts =
      (if (op.answer cfg trig r).2.shouldPurge then
        (op.recorded cfg agg trig r).purge trig (r.stateKey cfg) (r.window cfg)
      else op.recorded cfg agg trig r,
        emitData (op.entryAfter cfg agg r (op.answer cfg trig r).2).2) := by
  simp only [handleRecord, recorded, entryAfter, answer, Record.stateKey, mirror_trigger,
    mirror_ctx, accumulate_trigger, accumulate_ctx]

theorem applyAction_fst (a : Action K A) : (op.applyAction cfg trig a).1 =
    if a.purge then (op.firedBy cfg a).purge trig a.sk (cfg.window a.sk.start)
    else op.firedBy cfg a := by
  unfold applyAction firedBy
  cases a.fire <;> rfl

end Operator

/-! ## One change -/

namespace Related

variable {op' : Operator K A τ} {sk : StateKey K}

section

variable (hR : Tracks cfg R)
include hR

/-- An entry put in the working set and mirrored. -/
theorem put (h : Related R op) (sk : StateKey K)
    (entry : WindowEntry A) (hmem : op'.mem = op.mem.upsert sk fun _ => entry)
    (hbackend : op'.backend = if cfg.wbCacheSkip then op.backend
      else op.backend.map fun b => { b with windows := b.windows.upsert sk fun _ => entry }) :
    Related R op' := by
  intro b hb k
  rw [hbackend] at hb
  rw [hmem, SortedMap.find?_upsert]
  by_cases hskip : cfg.wbCacheSkip = true
  · rw [if_pos hskip] at hb
    by_cases hk : k = sk
    · rw [if_pos hk]
      exact hR.back hskip _ _
    · rw [if_neg hk]
      exact h b hb k
  · rw [if_neg hskip] at hb
    obtain ⟨b₀, hb₀, rfl⟩ := Option.map_eq_some_iff.mp hb
    rw [SortedMap.find?_upsert]
    by_cases hk : k = sk
    · rw [if_pos hk, if_pos hk]
      exact hR.same entry
    · rw [if_neg hk, if_neg hk]
      exact h b₀ hb₀ k

theorem store (h : Related R op) (sk : StateKey K) (entry : WindowEntry A) :
    Related R (op.store cfg sk entry) := by
  refine put hR h sk entry ?_ ?_
  · exact Operator.mirror_mem sk entry
  · exact Operator.mirror_backend sk entry

/-- What the purged window held before does not matter. -/
theorem purge
    (h : ∀ b, op.backend = some b → ∀ k, k ≠ sk → R (b.windows.find? k) (op.mem.find? k))
    (window : TimeWindow) : Related R (op.purge trig sk window) := by
  intro b hb k
  obtain ⟨b₀, hb₀, rfl⟩ := Option.map_eq_some_iff.mp hb
  change R ((b₀.windows.erase sk).find? k) ((op.mem.erase sk).find? k)
  rw [SortedMap.find?_erase, SortedMap.find?_erase]
  by_cases hk : k = sk
  · rw [if_pos hk, if_pos hk]
    exact hR.absent
  · rw [if_neg hk, if_neg hk]
    exact h b₀ hb₀ k hk

/-! ## One event -/

theorem handleRecord (h : Related R op) (r : Record K V)
    (hemit : cfg.wbCacheSkip = false → (op.answer cfg trig r).2.shouldPurge = false →
      R (some (op.accumulate cfg agg (r.stateKey cfg) r.value).2)
        (some (op.entryAfter cfg agg r (op.answer cfg trig r).2).1)) :
    Related R (op.handleRecord cfg agg trig r.key (r.window cfg) r.value r.ts).1 := by
  have hput : Related R ((op.accumulate cfg agg (r.stateKey cfg) r.value).1.mirror cfg
      (r.stateKey cfg) (op.accumulate cfg agg (r.stateKey cfg) r.value).2) := by
    refine put hR h (r.stateKey cfg) (op.accumulate cfg agg (r.stateKey cfg) r.value).2 ?_ ?_
    · rw [Operator.mirror_mem, Operator.accumulate_mem]
    · rw [Operator.mirror_backend, Operator.accumulate_backend]
  -- Beside the record's own window the update changes nothing.
  have hother : ∀ b, (op.recorded cfg agg trig r).backend = some b → ∀ k, k ≠ r.stateKey cfg →
      R (b.windows.find? k) ((op.recorded cfg agg trig r).mem.find? k) := by
    intro b hb k hk
    have hrow := hput b hb k
    unfold Operator.recorded
    rw [SortedMap.find?_upsert, if_neg hk]
    exact hrow
  rw [Operator.handleRecord_eq]
  by_cases hpurge : (op.answer cfg trig r).2.shouldPurge = true
  · rw [if_pos hpurge]
    exact purge hR hother _
  · rw [if_neg hpurge]
    intro b hb k
    by_cases hk : k = r.stateKey cfg
    · unfold Operator.recorded
      rw [SortedMap.find?_upsert, if_pos hk, hk]
      cases hskip : cfg.wbCacheSkip with
      | true => exact hR.back hskip _ _
      | false =>
          have hrow : b.windows.find? (r.stateKey cfg) =
              some (op.accumulate cfg agg (r.stateKey cfg) r.value).2 := by
            have hb : ((op.accumulate cfg agg (r.stateKey cfg) r.value).1.mirror cfg
                (r.stateKey cfg) _).backend = some b := hb
            rw [Operator.mirror_backend, hskip, if_neg (by simp)] at hb
            obtain ⟨b₀, -, rfl⟩ := Option.map_eq_some_iff.mp hb
            rw [SortedMap.find?_upsert, if_pos rfl]
          rw [hrow]
          exact hemit hskip (by simpa using hpurge)
    · exact hother b hb k hk

theorem ingestOne (h : Related R op) (r : Record K V)
    (hemit : ¬ op.RoutesLate cfg r → cfg.wbCacheSkip = false →
        (op.answer cfg trig r).2.shouldPurge = false →
      R (some (op.accumulate cfg agg (r.stateKey cfg) r.value).2)
        (some (op.entryAfter cfg agg r (op.answer cfg trig r).2).1)) :
    Related R (op.ingestOne cfg agg trig r).1 := by
  unfold Operator.ingestOne
  dsimp only
  split
  · exact h
  · rename_i hlate
    exact handleRecord hR h r (hemit hlate)

theorem applyAction (h : Related R op) (a : Action K A) :
    Related R (op.applyAction cfg trig a).1 := by
  have hfired : Related R (op.firedBy cfg a) := by
    unfold Operator.firedBy
    split
    · exact store hR h _ _
    · exact h
  rw [Operator.applyAction_fst]
  split
  · exact purge hR (fun b hb k _ => hfired b hb k) _
  · exact hfired

theorem applyActions (acts : List (Action K A)) :
    ∀ {op : Operator K A τ}, Related R op → Related R (op.applyActions cfg trig acts).1 := by
  induction acts with
  | nil =>
      intro op h
      exact h
  | cons a rest ih =>
      intro op h
      exact ih (applyAction hR h a)

theorem sweep (h : Related R op) (wm : Int) : Related R (op.sweep cfg trig wm).1 := by
  have hstart : Related R ({ op with trigger := (op.actions cfg trig wm).1 } :
      Operator K A τ) := h
  exact applyActions hR (op.actions cfg trig wm).2 hstart

theorem onWatermarkAdvance (h : Related R op) (wm : Int) :
    Related R ((op.setWatermark wm).onWatermarkAdvance cfg trig wm).1 := by
  unfold Operator.onWatermarkAdvance
  split
  · exact h
  · have hset : Related R (op.setWatermark wm) := h
    exact sweep hR hset wm

theorem onBarrier (h : Related R op) : Related R (op.onBarrier cfg trig) := by
  intro b hb k
  obtain ⟨b₀, hb₀, rfl⟩ := Option.map_eq_some_iff.mp hb
  change R ((if cfg.wbCacheSkip then b₀.windows.putAll op.mem else b₀.windows).find? k)
    (op.mem.find? k)
  have hrow := h b₀ hb₀ k
  split
  · rw [SortedMap.find?_putAll]
    cases hentry : op.mem.find? k with
    | none =>
        rw [hentry] at hrow
        exact hrow
    | some entry => exact hR.same entry
  · exact hrow

theorem opened (backend : Backend K A) : Related R (Operator.opened cfg trig backend) := by
  intro b hb k
  unfold Operator.opened at hb ⊢
  by_cases hpersistent : cfg.persistent = true
  · rw [if_pos hpersistent] at hb ⊢
    obtain rfl := Option.some.inj hb
    cases backend.windows.find? k with
    | none => exact hR.absent
    | some entry => exact hR.same entry
  · rw [if_neg hpersistent] at hb
    exact absurd hb (by simp)

theorem next (h : Related R op) (e : Event K V A)
    (hemit : ∀ r, e = .record r → ¬ op.RoutesLate cfg r → cfg.wbCacheSkip = false →
      (op.answer cfg trig r).2.shouldPurge = false →
      R (some (op.accumulate cfg agg (r.stateKey cfg) r.value).2)
        (some (op.entryAfter cfg agg r (op.answer cfg trig r).2).1)) :
    Related R (op.next cfg agg trig e) := by
  cases e with
  | beginBatch now => exact h
  | record r => exact ingestOne hR h r (hemit r rfl)
  | watermark wm => exact onWatermarkAdvance hR h _
  | barrier id => exact onBarrier hR h
  | flush => exact onWatermarkAdvance hR h _
  | restore backend => exact opened hR backend

end

end Related

/-! ## Every run -/

/-- What always holds of a row: its window is in the working set, and a
write-through row has the aggregate of its entry. -/
def Shadows (cfg : Settings) (row entry : Option (WindowEntry A)) : Prop :=
  (row.isSome = true → entry.isSome = true) ∧
    (cfg.wbCacheSkip = false → row.map WindowEntry.agg = entry.map WindowEntry.agg)

omit [LinearOrder K] in
theorem WindowEntry.agg_onRecord (entry : WindowEntry A) (key : K) (window : TimeWindow) (wm : Int)
    (tr : TriggerResult) : (entry.onRecord key window wm tr).1.agg = entry.agg := by
  unfold onRecord
  cases entry.fired with
  | true => rfl
  | false => cases tr.shouldFire <;> rfl

theorem Shadows.tracks : Tracks cfg (Shadows (A := A) cfg) where
  absent := ⟨by simp, by simp⟩
  same entry := ⟨by simp, by simp⟩
  back hskip row entry := ⟨by simp, by simp [hskip]⟩

structure Valid (cfg : Settings) (op : Operator K A τ) : Prop where
  attached : op.backend.isSome = cfg.persistent
  shadows : Related (Shadows cfg) op

namespace Valid

private theorem isSome_applyActions (acts : List (Action K A)) : ∀ op : Operator K A τ,
    (op.applyActions cfg trig acts).1.backend.isSome = op.backend.isSome := by
  have hfired : ∀ (op : Operator K A τ) (a : Action K A),
      (op.firedBy cfg a).backend.isSome = op.backend.isSome := by
    intro op a
    unfold Operator.firedBy
    split
    · change ((Operator.mirror cfg _ _ _).backend).isSome = _
      rw [Operator.mirror_backend]
      split <;> simp
    · rfl
  induction acts with
  | nil => exact fun op => rfl
  | cons a rest ih =>
      intro op
      change ((op.applyAction cfg trig a).1.applyActions cfg trig rest).1.backend.isSome = _
      rw [ih, Operator.applyAction_fst]
      split
      · rw [← hfired op a]
        exact Option.isSome_map
      · exact hfired op a

theorem isSome_sweep (op : Operator K A τ) (wm : Int) :
    (op.sweep cfg trig wm).1.backend.isSome = op.backend.isSome :=
  isSome_applyActions _ _

theorem isSome_onWatermarkAdvance (op : Operator K A τ) (wm : Int) :
    ((op.setWatermark wm).onWatermarkAdvance cfg trig wm).1.backend.isSome =
      op.backend.isSome := by
  unfold Operator.onWatermarkAdvance
  split
  · rfl
  · exact isSome_sweep _ wm

private theorem isSome_recorded (op : Operator K A τ) (r : Record K V) :
    (op.recorded cfg agg trig r).backend.isSome = op.backend.isSome := by
  change ((Operator.mirror cfg _ _ _).backend).isSome = _
  rw [Operator.mirror_backend, Operator.accumulate_backend]
  split <;> simp

private theorem isSome_ingestOne (op : Operator K A τ) (r : Record K V) :
    (op.ingestOne cfg agg trig r).1.backend.isSome = op.backend.isSome := by
  unfold Operator.ingestOne
  dsimp only
  split
  · rfl
  · change (op.handleRecord cfg agg trig r.key (r.window cfg) r.value r.ts).1.backend.isSome = _
    rw [Operator.handleRecord_eq, ← isSome_recorded op r]
    split
    · exact Option.isSome_map
    · rfl

theorem opened (cfg : Settings) (trig : Trigger V τ) (backend : Backend K A) :
    Valid cfg (Operator.opened cfg trig backend) where
  attached := by
    unfold Operator.opened
    cases cfg.persistent <;> rfl
  shadows := Related.opened Shadows.tracks backend

theorem next (h : Valid cfg op) (e : Event K V A) : Valid cfg (op.next cfg agg trig e) where
  attached := by
    cases e with
    | beginBatch now => exact h.attached
    | record r => exact (isSome_ingestOne op r).trans h.attached
    | watermark wm => exact (isSome_onWatermarkAdvance op _).trans h.attached
    | barrier id => exact Option.isSome_map.trans h.attached
    | flush => exact (isSome_onWatermarkAdvance op _).trans h.attached
    | restore backend => exact (opened cfg trig backend).attached
  shadows := by
    refine h.shadows.next Shadows.tracks e ?_
    intro r _ _ _ _
    refine ⟨by simp, fun _ => ?_⟩
    simp [Operator.entryAfter, WindowEntry.agg_onRecord]

theorem run (h : Valid cfg op) (es : List (Event K V A)) :
    Valid cfg (es.foldl (Operator.next cfg agg trig) op) := by
  induction es generalizing op with
  | nil => exact h
  | cons e rest ih => exact ih (h.next e)

end Valid

/-! ## The windows a record leaves -/

variable {sk : StateKey K}

theorem mem_keys_recorded {r : Record K V} :
    sk ∈ (op.recorded cfg agg trig r).mem.keys ↔ sk = r.stateKey cfg ∨ sk ∈ op.mem.keys := by
  change sk ∈ ((Operator.mirror cfg _ _ _).mem.upsert _ _).keys ↔ _
  rw [SortedMap.mem_keys_upsert, Operator.mirror_mem, Operator.accumulate_mem,
    SortedMap.mem_keys_upsert, or_self_left]

theorem mem_keys_ingestOne {r : Record K V} (h : sk ∈ (op.ingestOne cfg agg trig r).1.mem.keys) :
    sk = r.stateKey cfg ∨ sk ∈ op.mem.keys := by
  unfold Operator.ingestOne at h
  dsimp only at h
  split at h
  · exact .inr h
  · change sk ∈ (op.handleRecord cfg agg trig r.key (r.window cfg) r.value r.ts).1.mem.keys at h
    rw [Operator.handleRecord_eq] at h
    dsimp only at h
    split at h
    · exact mem_keys_recorded.mp (SortedMap.mem_keys_erase.mp h).2
    · exact mem_keys_recorded.mp h

/-! ## The windows a sweep leaves -/

/-- Some action purges the window. -/
def Purges (acts : List (Action K A)) (sk : StateKey K) : Prop :=
  ∃ a ∈ acts, a.sk = sk ∧ a.purge = true

omit [LinearOrder K] in
theorem purges_cons {a : Action K A} {rest : List (Action K A)} :
    Purges (a :: rest) sk ↔ (a.sk = sk ∧ a.purge = true) ∨ Purges rest sk := by
  simp [Purges]

omit [LinearOrder K] in
/-- An action is about one of the visited windows, each at most once. -/
theorem collectActions_sublist (wm : Int) (ctx : TriggerContext)
    (l : List (StateKey K × WindowEntry A)) : ∀ t : τ,
    ((collectActions cfg trig wm ctx t l).2.map Action.sk).Sublist (l.map Prod.fst) := by
  induction l with
  | nil => exact fun t => .refl _
  | cons e rest ih =>
      intro t
      have hsk : (consider cfg trig wm ctx t e).2.sk = e.1 := by
        unfold consider
        dsimp only
        split <;> rfl
      have hrest := ih (consider cfg trig wm ctx t e).1
      unfold collectActions
      dsimp only
      split
      · rw [List.map_cons, List.map_cons, hsk]
        exact hrest.cons_cons _
      · exact hrest.cons _

theorem mem_keys_applyAction {a : Action K A} (ha : a.sk ∈ op.mem.keys) :
    sk ∈ (op.applyAction cfg trig a).1.mem.keys ↔
      sk ∈ op.mem.keys ∧ ¬ (a.sk = sk ∧ a.purge = true) := by
  have hfired : ∀ k, k ∈ (op.firedBy cfg a).mem.keys ↔ k ∈ op.mem.keys := by
    intro k
    unfold Operator.firedBy
    split
    · change k ∈ (Operator.mirror cfg _ _ _).mem.keys ↔ _
      rw [Operator.mirror_mem, SortedMap.mem_keys_upsert]
      exact ⟨fun h => h.elim (fun h => h ▸ ha) id, .inr⟩
    · rfl
  rw [Operator.applyAction_fst]
  by_cases hpurge : a.purge = true
  · rw [if_pos hpurge]
    change sk ∈ ((op.firedBy cfg a).mem.erase a.sk).keys ↔ _
    rw [SortedMap.mem_keys_erase, hfired]
    constructor
    · exact fun h => ⟨h.2, fun heq => h.1 heq.1.symm⟩
    · exact fun h => ⟨fun heq => h.2 ⟨heq.symm, hpurge⟩, h.1⟩
  · rw [if_neg hpurge, hfired]
    exact ⟨fun h => ⟨h, fun heq => hpurge heq.2⟩, fun h => h.1⟩

private theorem mem_keys_applyActions (acts : List (Action K A)) :
    ∀ {op : Operator K A τ}, (∀ a ∈ acts, a.sk ∈ op.mem.keys) → (acts.map Action.sk).Nodup →
      (sk ∈ (op.applyActions cfg trig acts).1.mem.keys ↔ sk ∈ op.mem.keys ∧ ¬ Purges acts sk) := by
  induction acts with
  | nil =>
      intro op _ _
      simp [Operator.applyActions, Purges]
  | cons a rest ih =>
      intro op hpresent hnodup
      obtain ⟨hfresh, hrest⟩ := List.nodup_cons.mp hnodup
      have ha : a.sk ∈ op.mem.keys := hpresent a List.mem_cons_self
      -- No later action is about this window, so its purge takes nothing from them.
      have hkept : ∀ a' ∈ rest, a'.sk ∈ (op.applyAction cfg trig a).1.mem.keys := by
        intro a' ha'
        rw [mem_keys_applyAction ha]
        refine ⟨hpresent a' (List.mem_cons_of_mem _ ha'), fun h => hfresh ?_⟩
        rw [h.1]
        exact List.mem_map_of_mem ha'
      change sk ∈ ((op.applyAction cfg trig a).1.applyActions cfg trig rest).1.mem.keys ↔ _
      rw [ih hkept hrest, mem_keys_applyAction ha, purges_cons]
      tauto

/-- Until a barrier a write-back operator only takes rows away. -/
theorem rows_applyActions (hskip : cfg.wbCacheSkip = true) (acts : List (Action K A)) :
    ∀ {op : Operator K A τ} {b : Backend K A}, op.backend = some b →
      ∃ b', (op.applyActions cfg trig acts).1.backend = some b' ∧
        ∀ sk, sk ∈ b'.windows.keys ↔ sk ∈ b.windows.keys ∧ ¬ Purges acts sk := by
  induction acts with
  | nil =>
      intro op b hb
      exact ⟨b, hb, by simp [Purges]⟩
  | cons a rest ih =>
      intro op b hb
      have hfired : (op.firedBy cfg a).backend = some b := by
        unfold Operator.firedBy
        split
        · change (Operator.mirror cfg _ _ _).backend = some b
          rw [Operator.mirror_backend, if_pos hskip]
          exact hb
        · exact hb
      have hone : ∃ b₁, (op.applyAction cfg trig a).1.backend = some b₁ ∧
          ∀ sk, sk ∈ b₁.windows.keys ↔ sk ∈ b.windows.keys ∧ ¬ (a.sk = sk ∧ a.purge = true) := by
        rw [Operator.applyAction_fst]
        by_cases hpurge : a.purge = true
        · rw [if_pos hpurge]
          refine ⟨{ b with windows := b.windows.erase a.sk }, ?_, fun sk => ?_⟩
          · change (op.firedBy cfg a).backend.map _ = _
            rw [hfired]
            rfl
          · rw [SortedMap.mem_keys_erase]
            simp only [hpurge]
            tauto
        · rw [if_neg hpurge]
          exact ⟨b, hfired, fun sk => by simp [hpurge]⟩
      obtain ⟨b₁, hb₁, hrows₁⟩ := hone
      obtain ⟨b', hb', hrows⟩ := ih hb₁
      refine ⟨b', hb', fun sk => ?_⟩
      rw [hrows, hrows₁, purges_cons]
      tauto

theorem mem_keys_sweep (op : Operator K A τ) (wm : Int) (sk : StateKey K) :
    sk ∈ (op.sweep cfg trig wm).1.mem.keys ↔
      sk ∈ op.mem.keys ∧ ¬ Purges (op.actions cfg trig wm).2 sk := by
  have hsub : ((op.actions cfg trig wm).2.map Action.sk).Sublist op.mem.keys :=
    collectActions_sublist wm op.ctx op.mem.entries op.trigger
  refine mem_keys_applyActions (op.actions cfg trig wm).2 ?_ (op.mem.nodup_keys.sublist hsub)
  intro a ha
  exact hsub.subset (List.mem_map_of_mem ha)

theorem rows_sweep (trig : Trigger V τ) (hskip : cfg.wbCacheSkip = true) {b : Backend K A}
    (hb : op.backend = some b) (wm : Int) : ∃ b', (op.sweep cfg trig wm).1.backend = some b' ∧
      ∀ sk, sk ∈ b'.windows.keys ↔
        sk ∈ b.windows.keys ∧ ¬ Purges (op.actions cfg trig wm).2 sk :=
  rows_applyActions hskip (op.actions cfg trig wm).2 hb

end Clink.Ports.TumblingWindowOperator

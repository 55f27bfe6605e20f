import Clink.Ports.TumblingWindowOperator
import Clink.Ports.WindowArithmetic

/-!
# The sliding window operator

The embedding of `include/clink/operators/sliding_window_operator.hpp`.  The
operator writes through: a persistent one reads and writes the rows of the state
backend, any other one its map, so one map of windows stands for both.  Entries,
panes, triggers and the visit of a sweep are those of the tumbling operator.

Its window starts are computed in raw 64-bit arithmetic, as the tumbling
operator's window ends are; `SlidingAgrees` and `TumblingAgrees` say that they are
the shared arithmetic's and that no operation left int64 on the way.
-/

namespace Clink.Ports.SlidingWindowOperator

open Clink.Verified
open Clink.Ports.Time
open Clink.Ports.WindowTrigger
open Clink.Ports.WindowArithmetic
open Clink.Ports.TumblingWindowOperator (Aggregate StateKey WindowEntry Backend Pane Record Emitted
  Action emitData consider)

/-- Signed 64-bit subtraction and multiplication as the machine performs them. -/
def sub64 (a b : Int) : Int := (a - b).bmod (2 ^ 64)

def mul64 (a b : Int) : Int := (a * b).bmod (2 ^ 64)

structure Settings extends TumblingWindowOperator.Settings where
  slideSize : Int

namespace Settings

variable (cfg : Settings)

/-- What `validate_` lets through. -/
structure Valid : Prop where
  slide_pos : 0 < cfg.slideSize
  size_pos : 0 < cfg.windowSize
  multiple : cfg.windowSize.tmod cfg.slideSize = 0

/-- `window_starts_for_`, from the latest window backwards. -/
def windowStartsFor (ts : Int) : List Int :=
  let latestStart := mul64 (floorDivWide ts cfg.slideSize) cfg.slideSize
  (List.range (cfg.windowSize.tdiv cfg.slideSize).toNat).filterMap fun (i : Nat) =>
    let s := sub64 latestStart (mul64 i cfg.slideSize)
    if add64 s cfg.windowSize > ts ∧ s ≤ ts then some s else none

/-- One round of the late check's loop over the starts. -/
def laterEnd (latest s : Int) : Int :=
  let e := add64 s cfg.windowSize
  if e > latest then e else latest

/-- The end the late check compares with, folded from zero. -/
def latestEnd (starts : List Int) : Int := starts.foldl cfg.laterEnd 0

end Settings

/-! ## The operator -/

section Operator

variable {K V A τ : Type} [LinearOrder K]

structure Operator (K A τ : Type) [LinearOrder K] where
  /-- The rows of `sliding_windows`, or `mem_` without a backend. -/
  windows : SortedMap (StateKey K) (WindowEntry A) := .empty
  /-- The blob under `trigger_state`. -/
  triggerState : Option (List UInt8) := none
  trigger : τ
  ctx : TriggerContext := {}

namespace Operator

variable (cfg : Settings) (agg : Aggregate V A) (trig : Trigger V τ) (op : Operator K A τ)

def opened (backend : Backend K A) : Operator K A τ :=
  if cfg.persistent then
    { windows := backend.windows
      triggerState := backend.triggerState
      trigger :=
        if trig.isStateful then
          match backend.triggerState with
          | some blob => trig.restoreState trig.initial blob
          | none => trig.initial
        else trig.initial }
  else { trigger := trig.initial }

def store (sk : StateKey K) (entry : WindowEntry A) : Operator K A τ :=
  { op with windows := op.windows.upsert sk fun _ => entry }

def purge (sk : StateKey K) (window : TimeWindow) : Operator K A τ :=
  { op with
    windows := op.windows.erase sk
    trigger := trig.clear op.trigger window op.ctx }

/-- `load_or_init_`, with the value folded in. -/
def accumulated (sk : StateKey K) (v : V) : WindowEntry A :=
  let entry := (op.windows.find? sk).getD { agg := agg.initial }
  { entry with agg := agg.combiner entry.agg v }

def handleRecord (key : K) (window : TimeWindow) (v : V) (ts : Int) :
    Operator K A τ × List (Emitted K V A) :=
  let sk : StateKey K := toLex (window.start, key)
  let entry := op.accumulated agg sk v
  let asked := trig.onElement op.trigger v ts window op.ctx
  let fired := entry.onRecord key window op.ctx.currentWatermark asked.2
  let op := ({ op with trigger := asked.1 } : Operator K A τ).store sk fired.1
  (if asked.2.shouldPurge then op.purge trig sk window else op, emitData fired.2)

/-- The record goes into each of its windows in turn. -/
def handleStarts (key : K) (v : V) (ts : Int) : Operator K A τ → List Int →
    Operator K A τ × List (Emitted K V A)
  | op, [] => (op, [])
  | op, start :: rest =>
      let handled := op.handleRecord agg trig key (cfg.window start) v ts
      let more := handleStarts key v ts handled.1 rest
      (more.1, handled.2 ++ more.2)

/-- The late check of a record. -/
def RoutesLate (r : Record K V) : Prop :=
  cfg.lateTag ∧ cfg.windowStartsFor r.ts ≠ [] ∧
    op.ctx.currentWatermark ≥
      add64 (cfg.latestEnd (cfg.windowStartsFor r.ts)) cfg.allowedLateness

instance (r : Record K V) : Decidable (op.RoutesLate cfg r) := inferInstanceAs (Decidable (_ ∧ _))

def ingestOne (r : Record K V) : Operator K A τ × List (Emitted K V A) :=
  if op.RoutesLate cfg r then (op, [.late r.value r.eventTime])
  else op.handleStarts cfg agg trig r.key r.value r.ts (cfg.windowStartsFor r.ts)

/-- The actions of the windows that have one. -/
def collectActions (wm : Int) (ctx : TriggerContext) :
    τ → List (StateKey K × WindowEntry A) → τ × List (Action K A) :=
  TumblingWindowOperator.collectActions cfg.toSettings trig wm ctx

def applyAction (a : Action K A) : Operator K A τ × List (Pane K A) :=
  let window := cfg.window a.sk.start
  let fired : Operator K A τ × List (Pane K A) :=
    if a.fire then
      (op.store a.sk
        { a.entry with nextPaneIndex := add64 a.entry.nextPaneIndex 1, fired := true },
        [⟨a.sk.key, a.entry.agg, window.maxTimestamp, .onTime, a.entry.nextPaneIndex,
          a.entry.nextPaneIndex == 0, a.purge⟩])
    else (op, [])
  (if a.purge then fired.1.purge trig a.sk window else fired.1, fired.2)

def applyActions : Operator K A τ → List (Action K A) → Operator K A τ × List (Pane K A)
  | op, [] => (op, [])
  | op, a :: rest =>
      let applied := op.applyAction cfg trig a
      let more := applyActions applied.1 rest
      (more.1, applied.2 ++ more.2)

def setWatermark (wm : Int) : Operator K A τ :=
  { op with ctx := { op.ctx with currentWatermark := wm } }

/-- `on_watermark_advance_`; each pane is emitted in a batch of its own. -/
def onWatermarkAdvance (wm : Int) : Operator K A τ × List (Emitted K V A) :=
  let collected := collectActions cfg trig wm op.ctx op.trigger op.windows.entries
  let applied := ({ op with trigger := collected.1 } : Operator K A τ).applyActions cfg trig
    collected.2
  (applied.1, applied.2.map fun pane => .data [pane])

def onBarrier : Operator K A τ :=
  if cfg.persistent ∧ trig.isStateful then
    { op with triggerState := some (trig.snapshotState op.trigger) }
  else op

def step : TumblingWindowOperator.Event K V A → Operator K A τ × List (Emitted K V A)
  | .beginBatch now => ({ op with ctx := { op.ctx with currentProcessingTime := now } }, [])
  | .record r => op.ingestOne cfg agg trig r
  | .watermark wm =>
      let advanced := (op.setWatermark wm.timestamp.millis).onWatermarkAdvance cfg trig
        wm.timestamp.millis
      (advanced.1, advanced.2 ++ [.watermark wm])
  | .barrier id => (op.onBarrier cfg trig, [.barrier id])
  | .flush =>
      (op.setWatermark Watermark.max.timestamp.millis).onWatermarkAdvance cfg trig
        Watermark.max.timestamp.millis
  | .restore backend => (opened cfg trig backend, [])

def next (e : TumblingWindowOperator.Event K V A) : Operator K A τ := (op.step cfg agg trig e).1

def emits (e : TumblingWindowOperator.Event K V A) : List (Emitted K V A) :=
  (op.step cfg agg trig e).2

end Operator

end Operator

/-! ## Agreement with the shared arithmetic -/

/-- The tumbling operator's window is the shared arithmetic's, and neither its
end nor its purge deadline leaves int64. -/
structure TumblingAgrees (cfg : TumblingWindowOperator.Settings) (ts : Int) : Prop where
  bounds : cfg.window (windowStartFor ts cfg.windowSize) =
    ⟨windowStartFor ts cfg.windowSize,
      windowEndFor (windowStartFor ts cfg.windowSize) cfg.windowSize⟩
  endFits : InInt64 (windowStartFor ts cfg.windowSize + cfg.windowSize)
  purgeFits : InInt64 (windowStartFor ts cfg.windowSize + cfg.windowSize + cfg.allowedLateness)

/-- The latest multiple of the slide that is no later than `ts`, unbounded. -/
def Settings.latestStart (cfg : Settings) (ts : Int) : Int :=
  floorDivWide ts cfg.slideSize * cfg.slideSize

/-- The sliding operator's window starts are the shared arithmetic's, and no
operation on the way to them, to their ends or to a purge deadline leaves int64. -/
structure SlidingAgrees (cfg : Settings) (ts : Int) : Prop where
  starts : ∀ s, s ∈ cfg.windowStartsFor ts ↔
    s ∈ hopWindowStartsFor ts cfg.windowSize cfg.slideSize
  latestFits : InInt64 (cfg.latestStart ts)
  offsetFits : ∀ i : Nat, i < (cfg.windowSize.tdiv cfg.slideSize).toNat →
    InInt64 (i * cfg.slideSize)
  startFits : ∀ i : Nat, i < (cfg.windowSize.tdiv cfg.slideSize).toNat →
    InInt64 (cfg.latestStart ts - i * cfg.slideSize)
  endFits : ∀ i : Nat, i < (cfg.windowSize.tdiv cfg.slideSize).toNat →
    InInt64 (cfg.latestStart ts - i * cfg.slideSize + cfg.windowSize)
  purgeFits : ∀ i : Nat, i < (cfg.windowSize.tdiv cfg.slideSize).toNat →
    InInt64 (cfg.latestStart ts - i * cfg.slideSize + cfg.windowSize + cfg.allowedLateness)
  lateFits : InInt64 (cfg.latestEnd (cfg.windowStartsFor ts) + cfg.allowedLateness)

theorem bmod_of_inInt64 {v : Int} (h : InInt64 v) : v.bmod (2 ^ 64) = v := by
  obtain ⟨hlower, hupper⟩ := h
  unfold int64Min at hlower
  unfold int64Max at hupper
  rw [Int.bmod_eq_of_le] <;> omega

section Sliding

variable {cfg : Settings} {ts : Int}

namespace Settings.Valid

section

variable (h : cfg.Valid)
include h

theorem exists_count :
    ∃ n : Nat, 0 < n ∧ (cfg.windowSize.tdiv cfg.slideSize).toNat = n ∧
      cfg.windowSize = n * cfg.slideSize := by
  obtain ⟨q, hq⟩ := Int.dvd_of_tmod_eq_zero h.multiple
  have hpos : 0 < q := by
    have hsize := h.size_pos
    by_contra hnonpos
    have hmul := Int.mul_le_mul_of_nonneg_left (show q ≤ 0 by omega) h.slide_pos.le
    rw [Int.mul_zero, ← hq] at hmul
    omega
  refine ⟨q.toNat, by omega, ?_, ?_⟩
  · rw [hq, Int.mul_tdiv_cancel_left _ h.slide_pos.ne']
  · rw [Int.toNat_of_nonneg hpos.le, hq, Int.mul_comm]

theorem latestStart_le : cfg.latestStart ts ≤ ts :=
  floorDivWide_mul_le h.slide_pos

theorem lt_latestStart_add : ts < cfg.latestStart ts + cfg.slideSize :=
  lt_floorDivWide_mul_add h.slide_pos

theorem le_latestStart {s : Int} (hdvd : cfg.slideSize ∣ s) (hle : s ≤ ts) :
    s ≤ cfg.latestStart ts := by
  obtain ⟨q, rfl⟩ := hdvd
  unfold Settings.latestStart
  rw [floorDivWide_eq h.slide_pos, Int.mul_comm]
  refine Int.mul_le_mul_of_nonneg_right ?_ h.slide_pos.le
  exact (Int.le_ediv_iff_mul_le h.slide_pos).mpr (by rw [Int.mul_comm]; exact hle)

theorem slide_le_size : cfg.slideSize ≤ cfg.windowSize := by
  obtain ⟨n, hn, -, hmul⟩ := h.exists_count
  have hstep : 1 * cfg.slideSize ≤ (n : Int) * cfg.slideSize :=
    Int.mul_le_mul_of_nonneg_right (by exact_mod_cast hn) h.slide_pos.le
  omega

/-- No window of the record starts before the one the loop ends at. -/
theorem first_le {s : Int} (hs : PaneStart ts cfg.windowSize cfg.slideSize s) :
    cfg.latestStart ts - cfg.windowSize + cfg.slideSize ≤ s := by
  obtain ⟨⟨q, rfl⟩, hle, hlt⟩ := hs
  obtain ⟨n, -, -, hmul⟩ := h.exists_count
  have hbefore : cfg.latestStart ts ≤ ts := h.latestStart_le
  have hlatest : cfg.latestStart ts = cfg.slideSize * floorDivWide ts cfg.slideSize :=
    Int.mul_comm _ _
  have hbelow : cfg.slideSize * floorDivWide ts cfg.slideSize < cfg.slideSize * (q + n) := by
    rw [Int.mul_add, Int.mul_comm cfg.slideSize n, ← hmul, ← hlatest]
    omega
  have hq := Int.lt_of_mul_lt_mul_left hbelow h.slide_pos.le
  have hstep := Int.mul_le_mul_of_nonneg_left
    (show floorDivWide ts cfg.slideSize + 1 ≤ q + n by omega) h.slide_pos.le
  rw [Int.mul_add, Int.mul_add, Int.mul_comm cfg.slideSize n, ← hmul, ← hlatest] at hstep
  omega

theorem paneStart_latestStart : PaneStart ts cfg.windowSize cfg.slideSize (cfg.latestStart ts) := by
  have hlt : ts < cfg.latestStart ts + cfg.slideSize := h.lt_latestStart_add
  have hslide := h.slide_le_size
  exact ⟨Int.dvd_mul_left _ _, h.latestStart_le, by omega⟩

/-- The loop's offsets run from zero to one slide short of the size. -/
theorem offset_bounds {i : Nat} (hi : i < (cfg.windowSize.tdiv cfg.slideSize).toNat) :
    0 ≤ (i : Int) * cfg.slideSize ∧ (i : Int) * cfg.slideSize ≤ cfg.windowSize - cfg.slideSize := by
  obtain ⟨n, -, hcount, hmul⟩ := h.exists_count
  rw [hcount] at hi
  refine ⟨Int.mul_nonneg (Int.natCast_nonneg i) h.slide_pos.le, ?_⟩
  rw [hmul]
  have hstep : ((i : Int) + 1) * cfg.slideSize ≤ (n : Int) * cfg.slideSize :=
    Int.mul_le_mul_of_nonneg_right (by exact_mod_cast hi) h.slide_pos.le
  rw [Int.add_mul] at hstep
  omega

end

end Settings.Valid

/-- The windows a record is in are those whose starts fit, from the latest to the
first; where they all fit the raw arithmetic computes them. -/
theorem mem_windowStartsFor (h : cfg.Valid) (hsize : InInt64 cfg.windowSize)
    (hlower : int64Min ≤ cfg.latestStart ts - cfg.windowSize + cfg.slideSize)
    (hupper : cfg.latestStart ts + cfg.windowSize ≤ int64Max) {s : Int} :
    s ∈ cfg.windowStartsFor ts ↔ PaneStart ts cfg.windowSize cfg.slideSize s := by
  obtain ⟨n, hn, hcount, hmul⟩ := h.exists_count
  have hslide := h.slide_pos
  have hle : cfg.latestStart ts ≤ ts := h.latestStart_le
  have hlt : ts < cfg.latestStart ts + cfg.slideSize := h.lt_latestStart_add
  have hoffset : ∀ i : Nat, i < n →
      0 ≤ (i : Int) * cfg.slideSize ∧
        (i : Int) * cfg.slideSize ≤ cfg.windowSize - cfg.slideSize := by
    intro i hi
    exact h.offset_bounds (by rw [hcount]; exact hi)
  have hlatest : mul64 (floorDivWide ts cfg.slideSize) cfg.slideSize = cfg.latestStart ts := by
    apply bmod_of_inInt64
    constructor
    · change int64Min ≤ cfg.latestStart ts
      have := (hoffset 0 hn).2
      omega
    · change cfg.latestStart ts ≤ int64Max
      have := h.size_pos
      omega
  have hstart : ∀ i : Nat, i < n →
      sub64 (cfg.latestStart ts) (mul64 i cfg.slideSize) = cfg.latestStart ts - i * cfg.slideSize ∧
        add64 (cfg.latestStart ts - i * cfg.slideSize) cfg.windowSize =
          cfg.latestStart ts - i * cfg.slideSize + cfg.windowSize := by
    intro i hi
    obtain ⟨hnonneg, hbelow⟩ := hoffset i hi
    have hmul64 : mul64 i cfg.slideSize = i * cfg.slideSize := by
      apply bmod_of_inInt64
      refine ⟨?_, ?_⟩
      · exact le_trans (by decide) hnonneg
      · have := hsize.2
        omega
    have hpos := h.size_pos
    rw [hmul64]
    exact ⟨bmod_of_inInt64 ⟨by omega, by omega⟩, bmod_of_inInt64 ⟨by omega, by omega⟩⟩
  unfold Settings.windowStartsFor
  simp only [List.mem_filterMap, List.mem_range, Option.ite_none_right_eq_some, Option.some.injEq,
    hcount, hlatest]
  constructor
  · rintro ⟨i, hi, ⟨hend, hbefore⟩, rfl⟩
    rw [(hstart i hi).1] at hend hbefore ⊢
    rw [(hstart i hi).2] at hend
    refine ⟨Int.dvd_sub (Int.dvd_mul_left _ _) (Int.dvd_mul_left _ _), hbefore, hend⟩
  · rintro ⟨⟨q, rfl⟩, hbefore, hend⟩
    have hq : cfg.slideSize * q ≤ cfg.latestStart ts :=
      h.le_latestStart (Int.dvd_mul_right _ _) hbefore
    have hlatestq : cfg.latestStart ts = cfg.slideSize * floorDivWide ts cfg.slideSize :=
      Int.mul_comm _ _
    have hqle : q ≤ floorDivWide ts cfg.slideSize := by
      rw [hlatestq] at hq
      exact Int.le_of_mul_le_mul_left hq hslide
    have hbelow : cfg.slideSize * (floorDivWide ts cfg.slideSize - q) < cfg.slideSize * n := by
      rw [Int.mul_sub, ← hlatestq, Int.mul_comm cfg.slideSize n, ← hmul]
      omega
    have hi : (floorDivWide ts cfg.slideSize - q).toNat < n := by
      have := Int.lt_of_mul_lt_mul_left hbelow hslide.le
      omega
    have hindex : (((floorDivWide ts cfg.slideSize - q).toNat : Nat) : Int) * cfg.slideSize =
        cfg.latestStart ts - cfg.slideSize * q := by
      rw [Int.toNat_of_nonneg (by omega), Int.sub_mul, Int.mul_comm q]
      rfl
    refine ⟨_, hi, ?_⟩
    rw [(hstart _ hi).1, (hstart _ hi).2, hindex]
    exact ⟨⟨by omega, by omega⟩, by omega⟩

private theorem foldl_laterEnd (cfg : Settings) (starts : List Int) (latest : Int) :
    (starts.foldl cfg.laterEnd latest = latest ∨
        ∃ s ∈ starts, starts.foldl cfg.laterEnd latest = add64 s cfg.windowSize) ∧
      latest ≤ starts.foldl cfg.laterEnd latest ∧
      ∀ s ∈ starts, add64 s cfg.windowSize ≤ starts.foldl cfg.laterEnd latest := by
  induction starts generalizing latest with
  | nil => simp
  | cons s starts ih =>
      have hstep :
          (cfg.laterEnd latest s = latest ∨ cfg.laterEnd latest s = add64 s cfg.windowSize) ∧
          latest ≤ cfg.laterEnd latest s ∧ add64 s cfg.windowSize ≤ cfg.laterEnd latest s := by
        unfold Settings.laterEnd
        dsimp only
        split <;> omega
      rw [List.foldl_cons]
      obtain ⟨hwhich, hle, hall⟩ := ih (cfg.laterEnd latest s)
      refine ⟨?_, hstep.2.1.trans hle, ?_⟩
      · rcases hwhich with heq | ⟨s', hs', heq⟩
        · rw [heq]
          rcases hstep.1 with hsame | hnew
          · exact .inl hsame
          · exact .inr ⟨s, List.mem_cons_self, hnew⟩
        · exact .inr ⟨s', List.mem_cons_of_mem _ hs', heq⟩
      · intro s' hs'
        rcases List.mem_cons.mp hs' with rfl | hs'
        · exact hstep.2.2.trans hle
        · exact hall s' hs'

theorem latestEnd_spec (cfg : Settings) (starts : List Int) :
    (cfg.latestEnd starts = 0 ∨ ∃ s ∈ starts, cfg.latestEnd starts = add64 s cfg.windowSize) ∧
      0 ≤ cfg.latestEnd starts ∧ ∀ s ∈ starts, add64 s cfg.windowSize ≤ cfg.latestEnd starts :=
  foldl_laterEnd cfg starts 0

/-- The condition under which the raw arithmetic of a record stays within int64. -/
structure Settings.Fits (cfg : Settings) (ts : Int) : Prop where
  lower : int64Min ≤ cfg.latestStart ts - cfg.windowSize + cfg.slideSize
  upper : cfg.latestStart ts + cfg.windowSize + cfg.allowedLateness ≤ int64Max

/-- The end the late check uses, in exact arithmetic: the latest window's, but no
less than zero. -/
theorem latestEnd_windowStartsFor (h : cfg.Valid) (hsize : InInt64 cfg.windowSize)
    (hlate : 0 ≤ cfg.allowedLateness) (hfits : cfg.Fits ts) :
    cfg.latestEnd (cfg.windowStartsFor ts) = max 0 (cfg.latestStart ts + cfg.windowSize) := by
  have hupper : cfg.latestStart ts + cfg.windowSize ≤ int64Max := by
    have := hfits.upper
    omega
  have hmem : ∀ s, s ∈ cfg.windowStartsFor ts ↔ PaneStart ts cfg.windowSize cfg.slideSize s :=
    fun s => mem_windowStartsFor h hsize hfits.lower hupper
  have hend : ∀ s ∈ cfg.windowStartsFor ts, add64 s cfg.windowSize = s + cfg.windowSize ∧
      s ≤ cfg.latestStart ts := by
    intro s hs
    obtain ⟨hdvd, hle, hlt⟩ := (hmem s).mp hs
    have hlatest := h.le_latestStart hdvd hle
    have hfirst := h.first_le ((hmem s).mp hs)
    have hlower := hfits.lower
    have hpos := h.slide_pos
    refine ⟨?_, hlatest⟩
    exact bmod_of_inInt64 ⟨by omega, by omega⟩
  have hlatest : cfg.latestStart ts ∈ cfg.windowStartsFor ts :=
    (hmem _).mpr h.paneStart_latestStart
  obtain ⟨hwhich, hnonneg, hall⟩ := latestEnd_spec cfg (cfg.windowStartsFor ts)
  have hge := hall _ hlatest
  rw [(hend _ hlatest).1] at hge
  rcases hwhich with hzero | ⟨s, hs, heq⟩
  · omega
  · rw [(hend s hs).1] at heq
    have := (hend s hs).2
    omega

/-- The sliding operator's arithmetic is the shared one exactly where its windows
and their deadlines stay within int64. -/
theorem slidingAgrees_iff (h : cfg.Valid) (hts : InInt64 ts) (hsize : InInt64 cfg.windowSize)
    (hlateness : InInt64 cfg.allowedLateness) (hlate : 0 ≤ cfg.allowedLateness) :
    SlidingAgrees cfg ts ↔ cfg.Fits ts := by
  obtain ⟨n, hn, hcount, hmul⟩ := h.exists_count
  constructor
  · intro hagrees
    refine ⟨?_, ?_⟩
    · have hfirst := (hagrees.startFits (n - 1) (by omega)).1
      have hlast : (((n - 1 : Nat) : Int)) * cfg.slideSize = cfg.windowSize - cfg.slideSize := by
        rw [hmul, show (((n - 1 : Nat) : Int)) = (n : Int) - 1 by omega, Int.sub_mul, Int.one_mul]
      rw [hlast] at hfirst
      omega
    · have hpurge := (hagrees.purgeFits 0 (by omega)).2
      simpa using hpurge
  · intro hfits
    have hlower := hfits.lower
    have hupper := hfits.upper
    have hslide := h.slide_pos
    have hwidth := h.slide_le_size
    have hmem : ∀ s, s ∈ cfg.windowStartsFor ts ↔ PaneStart ts cfg.windowSize cfg.slideSize s :=
      fun s => mem_windowStartsFor h hsize hlower (by omega)
    have hbounds : ∀ i : Nat, i < (cfg.windowSize.tdiv cfg.slideSize).toNat →
        0 ≤ (i : Int) * cfg.slideSize ∧
          (i : Int) * cfg.slideSize ≤ cfg.windowSize - cfg.slideSize :=
      fun i hi => h.offset_bounds hi
    have hmin : int64Min ≤ 0 := by decide
    refine ⟨?_, ⟨by omega, by omega⟩, ?_, ?_, ?_, ?_, ?_⟩
    · intro s
      rw [hmem, mem_hopWindowStartsFor hslide]
      have hself : ∀ s', PaneStart ts cfg.windowSize cfg.slideSize s' → clampToInt64 s' = s' := by
        intro s' hs'
        have hfirst := h.first_le hs'
        exact clampToInt64_eq_self (by omega) (hs'.2.1.trans hts.2)
      constructor
      · intro hs
        exact ⟨s, hself s hs, hs⟩
      · rintro ⟨s', rfl, hs'⟩
        rw [hself s' hs']
        exact hs'
    · intro i hi
      have := hbounds i hi
      have := hsize.2
      exact ⟨by omega, by omega⟩
    · intro i hi
      have := hbounds i hi
      exact ⟨by omega, by omega⟩
    · intro i hi
      have := hbounds i hi
      exact ⟨by omega, by omega⟩
    · intro i hi
      have := hbounds i hi
      exact ⟨by omega, by omega⟩
    · rw [latestEnd_windowStartsFor h hsize hlate hfits]
      have := hlateness.2
      exact ⟨by omega, by omega⟩

end Sliding

private theorem tumblingAgrees_iff {cfg : TumblingWindowOperator.Settings} {ts : Int}
    (hpos : 0 < cfg.windowSize) (hlate : 0 ≤ cfg.allowedLateness) :
    TumblingAgrees cfg ts ↔
      windowStartFor ts cfg.windowSize + cfg.windowSize + cfg.allowedLateness ≤ int64Max := by
  have hstart : int64Min ≤ windowStartFor ts cfg.windowSize := by
    unfold windowStartFor clampToInt64 int64Min
    split_ifs <;> omega
  constructor
  · intro hagrees
    exact hagrees.purgeFits.2
  · intro hfits
    have hend : InInt64 (windowStartFor ts cfg.windowSize + cfg.windowSize) := ⟨by omega, by omega⟩
    refine ⟨?_, hend, ⟨by omega, hfits⟩⟩
    unfold TumblingWindowOperator.Settings.window windowEndFor add64
    rw [bmod_of_inInt64 hend, clampToInt64_eq_self hend.1 hend.2]

/-- The window operators assign the shared arithmetic's windows without leaving
int64 exactly where the purge deadline of the record's last window, and for a
sliding operator the start of its first, are within int64. -/
theorem operators_agree_iff {tumbling : TumblingWindowOperator.Settings} {sliding : Settings}
    {ts : Int} (hts : InInt64 ts) (hpos : 0 < tumbling.windowSize)
    (hlate : 0 ≤ tumbling.allowedLateness) (hvalid : sliding.Valid)
    (hsize : InInt64 sliding.windowSize) (hlateness : InInt64 sliding.allowedLateness)
    (hlate' : 0 ≤ sliding.allowedLateness) :
    (TumblingAgrees tumbling ts ↔ windowStartFor ts tumbling.windowSize + tumbling.windowSize +
        tumbling.allowedLateness ≤ int64Max) ∧
      (SlidingAgrees sliding ts ↔ sliding.Fits ts) :=
  ⟨tumblingAgrees_iff hpos hlate, slidingAgrees_iff hvalid hts hsize hlateness hlate'⟩

/-- Ten seconds sliding by five, with a lateness of one. -/
def tenByFive : Settings where
  windowSize := 10000
  slideSize := 5000
  allowedLateness := 1000

theorem operators_agree_iff_ten_by_five :
    TumblingAgrees tenByFive.toSettings (-15000) ∧ SlidingAgrees tenByFive (-15000) := by
  have hts : InInt64 (-15000) := ⟨by decide, by decide⟩
  have hvalid : tenByFive.Valid := ⟨by decide, by decide, by decide⟩
  have hagree := operators_agree_iff hts (show 0 < tenByFive.toSettings.windowSize by decide)
    (by decide) hvalid ⟨by decide, by decide⟩ ⟨by decide, by decide⟩ (by decide)
  exact ⟨hagree.1.mpr (by decide), hagree.2.mpr ⟨by decide, by decide⟩⟩

/-- At the upper end of int64 the tumbling operator's window end wraps around, and
at the lower end the sliding operator's window starts do. -/
theorem raw_bounds_overflow :
    ¬ (∀ (cfg : Settings) (ts : Int), InInt64 ts → InInt64 cfg.windowSize → cfg.Valid →
        InInt64 cfg.allowedLateness → 0 ≤ cfg.allowedLateness →
          TumblingAgrees cfg.toSettings ts) ∧
      ¬ (∀ (cfg : Settings) (ts : Int), InInt64 ts → InInt64 cfg.windowSize → cfg.Valid →
        InInt64 cfg.allowedLateness → 0 ≤ cfg.allowedLateness → SlidingAgrees cfg ts) := by
  have hvalid : tenByFive.Valid := ⟨by decide, by decide, by decide⟩
  refine ⟨fun hall => ?_, fun hall => ?_⟩
  · have hagrees := hall tenByFive int64Max ⟨by decide, by decide⟩ ⟨by decide, by decide⟩ hvalid
      ⟨by decide, by decide⟩ (by decide)
    exact absurd hagrees.endFits.2 (by decide)
  · have hagrees := hall tenByFive int64Min ⟨by decide, by decide⟩ ⟨by decide, by decide⟩ hvalid
      ⟨by decide, by decide⟩ (by decide)
    exact absurd hagrees.latestFits.1 (by decide)

end Clink.Ports.SlidingWindowOperator

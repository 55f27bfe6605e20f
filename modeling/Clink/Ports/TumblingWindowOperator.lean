import Clink.Verified.Run
import Clink.Ports.WindowTrigger

/-!
# The tumbling window operator

The embedding of `include/clink/operators/tumbling_window_operator.hpp`.  The
working set maps a window start and a key to the window's entry; a persistent
operator has a second copy of it in the state backend, written with every
change (write-through) or at a barrier only (write-back).  The map is hashed in
the source and its order is unspecified; here a sweep visits it in key order.
Additions on times are the machine's.
-/

namespace Clink.Ports.TumblingWindowOperator

open Clink.Verified
open Clink.Ports.Time
open Clink.Ports.WindowTrigger

variable {K V A τ : Type} [LinearOrder K]

/-- What the user supplies. -/
structure Aggregate (V A : Type) where
  initial : A
  combiner : A → V → A

structure Settings where
  windowSize : Int
  allowedLateness : Int := 0
  /-- A late output tag is set and a runtime is attached. -/
  lateTag : Bool := false
  /-- Codecs were given and the runtime has a state backend. -/
  persistent : Bool := false
  /-- `CLINK_WB_STATE_CACHE=1`. -/
  wbCacheSkip : Bool := false

namespace Settings

variable (cfg : Settings)

def window (start : Int) : TimeWindow := ⟨start, add64 start cfg.windowSize⟩

def purgeAt (window : TimeWindow) : Int := add64 window.endTs cfg.allowedLateness

end Settings

/-- The window's start and the key. -/
abbrev StateKey (K : Type) := Int ×ₗ K

def StateKey.start (sk : StateKey K) : Int := (ofLex sk).1

def StateKey.key (sk : StateKey K) : K := (ofLex sk).2

structure WindowEntry (A : Type) where
  agg : A
  fired : Bool := false
  nextPaneIndex : Int := 0
  deriving DecidableEq

/-- The durable state: the rows of `windows` and the blob of `trigger_state`. -/
structure Backend (K A : Type) [LinearOrder K] where
  windows : SortedMap (StateKey K) (WindowEntry A) := .empty
  triggerState : Option (List UInt8) := none

structure Operator (K A τ : Type) [LinearOrder K] where
  mem : SortedMap (StateKey K) (WindowEntry A) := .empty
  /-- What `keyed_` and `trigger_state_` are handles on; none in memory mode. -/
  backend : Option (Backend K A) := none
  trigger : τ
  ctx : TriggerContext := {}
  earliestWindowEnd : Int := 2 ^ 63 - 1

inductive Timing where
  | early
  | onTime
  | late
  deriving DecidableEq

/-- A record with its pane. -/
structure Pane (K A : Type) where
  key : K
  agg : A
  eventTime : Int
  timing : Timing
  paneIndex : Int
  isFirst : Bool
  isLast : Bool
  deriving DecidableEq

structure Record (K V : Type) where
  key : K
  value : V
  eventTime : Option Int

def Record.ts (r : Record K V) : Int := r.eventTime.getD 0

deriving instance DecidableEq for Watermark

inductive Emitted (K V A : Type) where
  | data (batch : List (Pane K A))
  | late (value : V) (eventTime : Option Int)
  | watermark (wm : Watermark)
  | barrier (id : Nat)
  deriving DecidableEq

/-- An empty batch is not emitted. -/
def emitData (panes : List (Pane K A)) : List (Emitted K V A) :=
  if panes.isEmpty then [] else [.data panes]

namespace Operator

variable (cfg : Settings) (agg : Aggregate V A) (trig : Trigger V τ) (op : Operator K A τ)

/-! ## The two copies and the bound -/

/-- `keyed_->put`, unless the put waits for the barrier. -/
def mirror (sk : StateKey K) (entry : WindowEntry A) : Operator K A τ :=
  if cfg.wbCacheSkip then op
  else { op with backend := op.backend.map fun b =>
    { b with windows := b.windows.upsert sk fun _ => entry } }

def lowerEarliest (sk : StateKey K) : Operator K A τ :=
  let windowEnd := (cfg.window sk.start).endTs
  { op with earliestWindowEnd :=
      if windowEnd < op.earliestWindowEnd then windowEnd else op.earliestWindowEnd }

def store (sk : StateKey K) (entry : WindowEntry A) : Operator K A τ :=
  (({ op with mem := op.mem.upsert sk fun _ => entry } : Operator K A τ).mirror cfg sk
    entry).lowerEarliest cfg sk

/-- Both copies and the trigger's own state of the window go. -/
def purge (sk : StateKey K) (window : TimeWindow) : Operator K A τ :=
  { op with
    mem := op.mem.erase sk
    backend := op.backend.map fun b => { b with windows := b.windows.erase sk }
    trigger := trig.clear op.trigger window op.ctx }

/-- The earliest end among the windows of a copy. -/
def earliestEnd (windows : SortedMap (StateKey K) (WindowEntry A)) : Int :=
  windows.entries.foldl (fun earliest e =>
    let windowEnd := (cfg.window e.1.start).endTs
    if windowEnd < earliest then windowEnd else earliest) (2 ^ 63 - 1)

def recomputeEarliestWindowEnd : Operator K A τ :=
  { op with earliestWindowEnd :=
      match op.backend with
      | some b => earliestEnd cfg b.windows
      | none => earliestEnd cfg op.mem }

/-! ## Opening -/

/-- A fresh operator, opened on what the backend holds. -/
def opened (backend : Backend K A) : Operator K A τ :=
  if cfg.persistent then
    { mem := backend.windows
      backend := some backend
      trigger :=
        if trig.isStateful then
          match backend.triggerState with
          | some blob => trig.restoreState trig.initial blob
          | none => trig.initial
        else trig.initial
      earliestWindowEnd := earliestEnd cfg backend.windows }
  else { trigger := trig.initial }

/-! ## Records -/

/-- The window's entry with the value folded in; a new window lowers the bound. -/
def accumulate (sk : StateKey K) (v : V) : Operator K A τ × WindowEntry A :=
  match op.mem.find? sk with
  | some entry =>
      let entry := { entry with agg := agg.combiner entry.agg v }
      ({ op with mem := op.mem.upsert sk fun _ => entry }, entry)
  | none =>
      let entry : WindowEntry A := { agg := agg.combiner agg.initial v }
      (({ op with mem := op.mem.upsert sk fun _ => entry } : Operator K A τ).lowerEarliest cfg sk,
        entry)

end Operator

/-- What a record emits: again when the window has fired, at first when the
trigger says so. -/
def WindowEntry.onRecord (entry : WindowEntry A) (key : K) (window : TimeWindow) (wm : Int)
    (tr : TriggerResult) : WindowEntry A × List (Pane K A) :=
  let timing : Timing :=
    if entry.fired then .late else if wm < window.endTs then .early else .onTime
  if entry.fired then
    ({ entry with nextPaneIndex := add64 entry.nextPaneIndex 1 },
      [⟨key, entry.agg, window.maxTimestamp, timing, entry.nextPaneIndex, false,
        tr.shouldPurge⟩])
  else if tr.shouldFire then
    ({ entry with nextPaneIndex := add64 entry.nextPaneIndex 1, fired := true },
      [⟨key, entry.agg, window.maxTimestamp, timing, entry.nextPaneIndex, true,
        tr.shouldPurge⟩])
  else (entry, [])

namespace Operator

variable (cfg : Settings) (agg : Aggregate V A) (trig : Trigger V τ) (op : Operator K A τ)

/-- The put of a write-through operator comes before the trigger is asked. -/
def handleRecord (key : K) (window : TimeWindow) (v : V) (ts : Int) :
    Operator K A τ × List (Emitted K V A) :=
  let sk : StateKey K := toLex (window.start, key)
  let accumulated := op.accumulate cfg agg sk v
  let op := accumulated.1.mirror cfg sk accumulated.2
  let asked := trig.onElement op.trigger v ts window op.ctx
  let tr := asked.2
  let fired := accumulated.2.onRecord key window op.ctx.currentWatermark tr
  let op := { op with trigger := asked.1, mem := op.mem.upsert sk fun _ => fired.1 }
  (if tr.shouldPurge then op.purge trig sk window else op, emitData fired.2)

/-- The record's window, the late check and the dispatch. -/
def ingestOne (r : Record K V) : Operator K A τ × List (Emitted K V A) :=
  let window := cfg.window (windowStartFor r.ts cfg.windowSize)
  if cfg.lateTag ∧ op.ctx.currentWatermark ≥ cfg.purgeAt window then
    (op, [.late r.value r.eventTime])
  else op.handleRecord cfg agg trig r.key window r.value r.ts

end Operator

/-! ## Watermarks -/

structure Action (K A : Type) where
  sk : StateKey K
  entry : WindowEntry A
  fire : Bool
  purge : Bool

/-- What a sweep does to one window; the trigger is asked at the window's end
when the window has not fired yet. -/
def consider (cfg : Settings) (trig : Trigger V τ) (wm : Int) (ctx : TriggerContext)
    (t : τ) (e : StateKey K × WindowEntry A) : τ × Action K A :=
  let window := cfg.window e.1.start
  let late := decide (wm ≥ cfg.purgeAt window)
  if !e.2.fired ∧ wm ≥ window.endTs then
    let asked := trig.onEventTime t window.endTs window ctx
    (asked.1, ⟨e.1, e.2, asked.2.shouldFire, asked.2.shouldPurge || late⟩)
  else (t, ⟨e.1, e.2, false, late⟩)

/-- The actions of the windows that have one, the trigger's state threaded
through the visit. -/
def collectActions (cfg : Settings) (trig : Trigger V τ) (wm : Int) (ctx : TriggerContext) :
    τ → List (StateKey K × WindowEntry A) → τ × List (Action K A)
  | t, [] => (t, [])
  | t, e :: rest =>
      let considered := consider cfg trig wm ctx t e
      let more := collectActions cfg trig wm ctx considered.1 rest
      (more.1, if considered.2.fire || considered.2.purge then considered.2 :: more.2 else more.2)

namespace Operator

variable (cfg : Settings) (agg : Aggregate V A) (trig : Trigger V τ) (op : Operator K A τ)

def applyAction (a : Action K A) : Operator K A τ × List (Pane K A) :=
  let window := cfg.window a.sk.start
  let fired : Operator K A τ × List (Pane K A) :=
    if a.fire then
      (op.store cfg a.sk
        { a.entry with nextPaneIndex := add64 a.entry.nextPaneIndex 1, fired := true },
        [⟨a.sk.key, a.entry.agg, window.maxTimestamp, .onTime, a.entry.nextPaneIndex,
          a.entry.nextPaneIndex == 0, a.purge⟩])
    else (op, [])
  (if a.purge then fired.1.purge trig a.sk window else fired.1, fired.2)

def applyActions : Operator K A τ → List (Action K A) → Operator K A τ × List (Pane K A)
  | op, [] => (op, [])
  | op, a :: rest =>
      let applied := op.applyAction cfg trig a
      let more := applyActions applied.1 rest
      (more.1, applied.2 ++ more.2)

/-- The actions a sweep at `wm` collects. -/
def actions (wm : Int) : τ × List (Action K A) :=
  collectActions cfg trig wm op.ctx op.trigger op.mem.entries

/-- The full sweep. -/
def sweep (wm : Int) : Operator K A τ × List (Emitted K V A) :=
  let collected := op.actions cfg trig wm
  let applied := ({ op with trigger := collected.1 } : Operator K A τ).applyActions cfg trig
    collected.2
  (applied.1.recomputeEarliestWindowEnd cfg, emitData applied.2)

/-- A watermark below the bound skips the sweep. -/
def onWatermarkAdvance (wm : Int) : Operator K A τ × List (Emitted K V A) :=
  if wm < op.earliestWindowEnd then (op, []) else op.sweep cfg trig wm

def setWatermark (wm : Int) : Operator K A τ :=
  { op with ctx := { op.ctx with currentWatermark := wm } }

/-! ## Barriers -/

/-- The flush of a write-back operator and the trigger's blob. -/
def onBarrier : Operator K A τ :=
  { op with backend := op.backend.map fun b =>
    { windows := if cfg.wbCacheSkip then b.windows.putAll op.mem else b.windows
      triggerState :=
        if trig.isStateful then some (trig.snapshotState op.trigger) else b.triggerState } }

end Operator

/-! ## Events -/

/-- The calls on an operator.  `process` is `beginBatch` and then the records,
the watermark or the barrier of the element. -/
inductive Event (K V A : Type) [LinearOrder K] where
  | beginBatch (now : Int)
  | record (r : Record K V)
  | watermark (wm : Watermark)
  | barrier (id : Nat)
  | flush
  /-- A new operator opened on a restored backend. -/
  | restore (backend : Backend K A)

namespace Operator

variable (cfg : Settings) (agg : Aggregate V A) (trig : Trigger V τ) (op : Operator K A τ)

def step : Event K V A → Operator K A τ × List (Emitted K V A)
  | .beginBatch now => ({ op with ctx := { op.ctx with currentProcessingTime := now } }, [])
  | .record r => op.ingestOne cfg agg trig r
  | .watermark wm =>
      let advanced := (op.setWatermark wm.timestamp.millis).onWatermarkAdvance cfg trig
        wm.timestamp.millis
      (advanced.1, advanced.2 ++ [.watermark wm])
  | .barrier id => (op.onBarrier cfg trig, [.barrier id])
  | .flush =>
      (op.setWatermark Watermark.max.timestamp.millis).onWatermarkAdvance cfg trig
        Watermark.max.timestamp.millis
  | .restore backend => (opened cfg trig backend, [])

def next (e : Event K V A) : Operator K A τ := (op.step cfg agg trig e).1

def emits (e : Event K V A) : List (Emitted K V A) := (op.step cfg agg trig e).2

end Operator

end Clink.Ports.TumblingWindowOperator

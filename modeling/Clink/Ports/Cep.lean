import Clink.Ports.Time

/-!
# Complex event processing: patterns and their automaton

The embedding of `include/clink/cep/pattern.hpp` and of the matching half of
`include/clink/cep/cep_operator.hpp`.  A pattern is a list of named steps; a
partial match is the events captured so far and the step it waits at, and
`advanceOne` walks one partial over one record.  The walk is a bounded loop of
turns; what a turn can do is listed once, in `TurnSpec`, and everything proved
about a walk goes through `advanceOne_induct`.

`advanceForKey` drives all partials of a key over a record and `pruneExpired`
evicts them at a watermark; `keyStep` is the two together, as the history of
one key.  A captured event also carries the index of its step and its place in
that history, which the code does not keep and no function here reads.
-/

namespace Clink.Ports.Cep

open Clink.Ports.Time

/-- Signed 64-bit subtraction as the machine performs it. -/
def sub64 (a b : Int) : Int := (a - b).bmod (2 ^ 64)

theorem sub64_eq {a b : Int} (hlower : -2 ^ 63 ≤ a - b) (hupper : a - b ≤ 2 ^ 63 - 1) :
    sub64 a b = a - b := by
  unfold sub64
  rw [Int.bmod_eq_of_le] <;> omega

/-! ## Patterns -/

inductive EdgeKind
  | begin
  | next
  | followedBy
  | notNext
  | notFollowedBy
  deriving DecidableEq

def EdgeKind.isNegativeEdge : EdgeKind → Bool
  | notNext | notFollowedBy => true
  | begin | next | followedBy => false

inductive SkipStrategy
  | noSkip
  | skipPastLastEvent
  | skipToNext
  | skipToFirst (nameTarget : String)
  | skipToLast (nameTarget : String)
  deriving DecidableEq

/-- The captured events by step name; a name without events has none. -/
abbrev PatternMatch (T : Type*) := String → List T

structure Step (T : Type*) where
  name : String
  incoming : EdgeKind
  predicate : Option (T → Bool) := none
  iterative : Option (T → PatternMatch T → Bool) := none
  minCount : Nat := 1
  maxCount : Nat := 1
  consecutive : Bool := false
  lazy : Bool := false

/-- The quantifier range the builder lets through. -/
def Step.Quantified {T : Type*} (s : Step T) : Prop := 1 ≤ s.maxCount ∧ s.minCount ≤ s.maxCount

instance {T : Type*} (s : Step T) : Decidable s.Quantified := inferInstanceAs (Decidable (_ ∧ _))

structure Pattern (T : Type*) where
  steps : List (Step T)
  within : Option Int := none
  stateTtl : Option Int := none
  skip : SkipStrategy := .noSkip
  quantified : ∀ s ∈ steps, s.Quantified

/-- What `Pattern::validate` complains about; the texts are the source's. -/
inductive PatternError
  | empty
  | firstNotBegin
  | beginNotFirst (name : String)
  | negativeQuantified (name : String)
  | trailingUnbounded (name : String)
  | duplicateName (name : String)
  deriving DecidableEq

def PatternError.message : PatternError → String
  | empty => "pattern is empty (call begin(...))"
  | firstNotBegin => "first step must have Begin edge kind"
  | beginNotFirst name => "step '" ++ name ++ "' has Begin edge but is not first"
  | negativeQuantified name => "negative step '" ++ name ++ "' cannot carry a quantifier"
  | trailingUnbounded name => "trailing not_followed_by step '" ++ name ++
      "' requires .within(duration) so the negative deadline is bounded"
  | duplicateName name => "duplicate step name '" ++ name ++ "'"

namespace Pattern

variable {T : Type*}

/-- The tighter of the two bounds. -/
def evictionBound (pat : Pattern T) : Option Int :=
  match pat.within, pat.stateTtl with
  | some w, some ttl => some (min w ttl)
  | some w, none => some w
  | none, ttl => ttl

def duplicateName? : List (Step T) → Option String
  | [] => none
  | s :: rest => if rest.any fun t => s.name = t.name then some s.name else duplicateName? rest

/-- `Pattern::validate`: the first complaint, `none` for a well-formed pattern. -/
def validate (pat : Pattern T) : Option PatternError :=
  match pat.steps with
  | [] => some .empty
  | first :: rest =>
      if first.incoming ≠ .begin then some .firstNotBegin
      else match rest.find? fun s => s.incoming = .begin with
      | some s => some (.beginNotFirst s.name)
      | none =>
          match pat.steps.find? fun s =>
            s.incoming.isNegativeEdge && (s.minCount ≠ 1 || s.maxCount ≠ 1) with
          | some s => some (.negativeQuantified s.name)
          | none =>
              match pat.steps.getLast?.filter fun s =>
                s.incoming = .notFollowedBy && pat.within.isNone with
              | some s => some (.trailingUnbounded s.name)
              | none => (duplicateName? pat.steps).map .duplicateName

end Pattern

/-! ## Partial matches -/

structure Record (T : Type*) where
  value : T
  eventTime : Option EventTime

/-- `rec.event_time().value_or(EventTime{0})`. -/
def Record.eventTs {T : Type*} (r : Record T) : Int :=
  (r.eventTime.map EventTime.millis).getD 0

structure Captured (T : Type*) where
  stepName : String
  value : T
  ts : Int
  step : Nat
  pos : Nat

structure PartialMatch (T : Type*) where
  startTs : Int := 0
  matched : List (Captured T) := []
  currentStep : Nat := 0
  currentStepCount : Nat := 0

section Automaton

variable {T : Type*}

/-- `build_match_view_`. -/
def buildMatchView (matched : List (Captured T)) : PatternMatch T := fun name =>
  (matched.filter fun c => c.stepName = name).map Captured.value

/-- `evaluate_step_`: the iterative predicate wins, no predicate accepts. -/
def evaluateStep (step : Step T) (v : T) (matched : List (Captured T)) : Bool :=
  match step.iterative, step.predicate with
  | some iterative, _ => iterative v (buildMatchView matched)
  | none, some predicate => predicate v
  | none, none => true

inductive StepOutcome
  | keep
  | advanced
  | completed
  | died
  deriving DecidableEq

namespace PartialMatch

/-- `++p.current_step; p.current_step_count = 0`. -/
def nextStep (p : PartialMatch T) : PartialMatch T :=
  { p with currentStep := p.currentStep + 1, currentStepCount := 0 }

def capture (p : PartialMatch T) (step : Step T) (pos : Nat) (r : Record T) : PartialMatch T :=
  { p with
    startTs := if p.matched.isEmpty then r.eventTs else p.startTs
    matched := p.matched ++ [⟨step.name, r.value, r.eventTs, p.currentStep, pos⟩]
    currentStepCount := p.currentStepCount + 1 }

@[simp] theorem nextStep_matched (p : PartialMatch T) : p.nextStep.matched = p.matched := rfl
@[simp] theorem nextStep_startTs (p : PartialMatch T) : p.nextStep.startTs = p.startTs := rfl
@[simp] theorem nextStep_currentStep (p : PartialMatch T) :
    p.nextStep.currentStep = p.currentStep + 1 := rfl
@[simp] theorem nextStep_currentStepCount (p : PartialMatch T) :
    p.nextStep.currentStepCount = 0 := rfl

@[simp] theorem capture_currentStep (p : PartialMatch T) (step : Step T) (pos : Nat)
    (r : Record T) : (p.capture step pos r).currentStep = p.currentStep := rfl
@[simp] theorem capture_currentStepCount (p : PartialMatch T) (step : Step T) (pos : Nat)
    (r : Record T) : (p.capture step pos r).currentStepCount = p.currentStepCount + 1 := rfl
@[simp] theorem capture_matched (p : PartialMatch T) (step : Step T) (pos : Nat) (r : Record T) :
    (p.capture step pos r).matched =
      p.matched ++ [⟨step.name, r.value, r.eventTs, p.currentStep, pos⟩] := rfl
@[simp] theorem capture_startTs (p : PartialMatch T) (step : Step T) (pos : Nat) (r : Record T) :
    (p.capture step pos r).startTs = if p.matched.isEmpty then r.eventTs else p.startTs := rfl

end PartialMatch

/-! ## One turn of the walk -/

/-- What one turn of the loop of `advance_one_` decides. -/
inductive Turn (T : Type*)
  | again (p : PartialMatch T)
  | done (o : StepOutcome) (p : PartialMatch T)

/-- The turn at a negative step. -/
def negativeTurn (steps : List (Step T)) (step : Step T) (isMatch : Bool) (p : PartialMatch T) :
    Turn T :=
  if isMatch then .done .died p
  else if p.currentStep + 1 = steps.length ∧ step.incoming = .notFollowedBy then .done .keep p
  else if steps.length ≤ p.currentStep + 1 then .done .completed p.nextStep
  else if step.incoming = .notNext then .done .advanced p.nextStep
  else .again p.nextStep

/-- A lazy step with its minimum met gives way to a positive step that takes the event. -/
def lazyAdvances (steps : List (Step T)) (step : Step T) (r : Record T) (p : PartialMatch T) :
    Bool :=
  step.lazy && decide (step.minCount ≤ p.currentStepCount) &&
    match steps[p.currentStep + 1]? with
    | none => false
    | some nextStep =>
        !nextStep.incoming.isNegativeEdge && evaluateStep nextStep r.value p.matched

/-- The turn at a positive step that takes the event. -/
def captureTurn (steps : List (Step T)) (step : Step T) (pos : Nat) (r : Record T)
    (p : PartialMatch T) : Turn T :=
  let q := if p.currentStepCount < step.maxCount then p.capture step pos r else p
  if step.maxCount ≤ q.currentStepCount then
    if steps.length ≤ q.currentStep + 1 then .done .completed q.nextStep
    else .done .advanced q.nextStep
  else .done .advanced q

/-- The turn at a positive step that does not take the event. -/
def missTurn (steps : List (Step T)) (step : Step T) (p : PartialMatch T) : Turn T :=
  if step.minCount ≤ p.currentStepCount then
    if steps.length ≤ p.currentStep + 1 then .done .completed p.nextStep
    else .again p.nextStep
  else if step.incoming = .next ∨ step.consecutive = true ∧ 0 < p.currentStepCount then
    .done .died p
  else .done .keep p

def turn (steps : List (Step T)) (pos : Nat) (r : Record T) (p : PartialMatch T) : Turn T :=
  match steps[p.currentStep]? with
  | none => .done .completed p
  | some step =>
      let isMatch := evaluateStep step r.value p.matched
      if step.incoming.isNegativeEdge then negativeTurn steps step isMatch p
      else if isMatch then
        if lazyAdvances steps step r p then .again p.nextStep
        else captureTurn steps step pos r p
      else missTurn steps step p

/-- The loop of `advance_one_`; the guard is the fuel. -/
def advanceLoop (steps : List (Step T)) (pos : Nat) (r : Record T) :
    Nat → PartialMatch T → StepOutcome × PartialMatch T
  | 0, p => (.keep, p)
  | guard + 1, p =>
      match turn steps pos r p with
      | .again q => advanceLoop steps pos r guard q
      | .done o q => (o, q)

/-- `advance_one_`: a match is emitted exactly where it answers `completed`. -/
def advanceOne (pat : Pattern T) (pos : Nat) (r : Record T) (p : PartialMatch T) :
    StepOutcome × PartialMatch T :=
  advanceLoop pat.steps pos r (pat.steps.length + 1) p

/-! ## What a turn can do -/

/-- The count of the step a partial waits at is below its maximum: at the
maximum the walk has moved on. -/
def Counted (steps : List (Step T)) (p : PartialMatch T) : Prop :=
  ∀ step, steps[p.currentStep]? = some step → p.currentStepCount < step.maxCount

/-- The ways a turn over `r` can go, each with the guards that lead there. -/
inductive TurnSpec (steps : List (Step T)) (pos : Nat) (r : Record T) (p : PartialMatch T) :
    Turn T → Prop
  | offEnd (hcur : steps.length ≤ p.currentStep) : TurnSpec steps pos r p (.done .completed p)
  | violated (step : Step T) (hstep : steps[p.currentStep]? = some step)
      (hneg : step.incoming.isNegativeEdge = true)
      (hacc : evaluateStep step r.value p.matched = true) :
      TurnSpec steps pos r p (.done .died p)
  | pending (step : Step T) (hstep : steps[p.currentStep]? = some step)
      (hneg : step.incoming = .notFollowedBy) (hlast : p.currentStep + 1 = steps.length)
      (hacc : evaluateStep step r.value p.matched = false) :
      TurnSpec steps pos r p (.done .keep p)
  | consumed (step : Step T) (hstep : steps[p.currentStep]? = some step)
      (hneg : step.incoming = .notNext) (hlast : p.currentStep + 1 < steps.length)
      (hacc : evaluateStep step r.value p.matched = false) :
      TurnSpec steps pos r p (.done .advanced p.nextStep)
  | consumedLast (step : Step T) (hstep : steps[p.currentStep]? = some step)
      (hneg : step.incoming = .notNext) (hlast : p.currentStep + 1 = steps.length)
      (hacc : evaluateStep step r.value p.matched = false) :
      TurnSpec steps pos r p (.done .completed p.nextStep)
  | passed (step : Step T) (hstep : steps[p.currentStep]? = some step)
      (hneg : step.incoming = .notFollowedBy) (hlast : p.currentStep + 1 < steps.length)
      (hacc : evaluateStep step r.value p.matched = false) :
      TurnSpec steps pos r p (.again p.nextStep)
  | gaveWay (step next : Step T) (hstep : steps[p.currentStep]? = some step)
      (hpos : step.incoming.isNegativeEdge = false) (hlazy : step.lazy = true)
      (hmin : step.minCount ≤ p.currentStepCount)
      (hnext : steps[p.currentStep + 1]? = some next)
      (hnextPos : next.incoming.isNegativeEdge = false)
      (hnextAcc : evaluateStep next r.value p.matched = true) :
      TurnSpec steps pos r p (.again p.nextStep)
  | captured (step : Step T) (hstep : steps[p.currentStep]? = some step)
      (hpos : step.incoming.isNegativeEdge = false)
      (hacc : evaluateStep step r.value p.matched = true)
      (hmax : p.currentStepCount + 1 < step.maxCount) :
      TurnSpec steps pos r p (.done .advanced (p.capture step pos r))
  | filled (step : Step T) (hstep : steps[p.currentStep]? = some step)
      (hpos : step.incoming.isNegativeEdge = false)
      (hacc : evaluateStep step r.value p.matched = true)
      (hmax : p.currentStepCount + 1 = step.maxCount) (hlast : p.currentStep + 1 < steps.length) :
      TurnSpec steps pos r p (.done .advanced (p.capture step pos r).nextStep)
  | filledLast (step : Step T) (hstep : steps[p.currentStep]? = some step)
      (hpos : step.incoming.isNegativeEdge = false)
      (hacc : evaluateStep step r.value p.matched = true)
      (hmax : p.currentStepCount + 1 = step.maxCount) (hlast : p.currentStep + 1 = steps.length) :
      TurnSpec steps pos r p (.done .completed (p.capture step pos r).nextStep)
  | skipped (step : Step T) (hstep : steps[p.currentStep]? = some step)
      (hpos : step.incoming.isNegativeEdge = false)
      (hacc : evaluateStep step r.value p.matched = false)
      (hmin : step.minCount ≤ p.currentStepCount) (hlast : p.currentStep + 1 < steps.length) :
      TurnSpec steps pos r p (.again p.nextStep)
  | ended (step : Step T) (hstep : steps[p.currentStep]? = some step)
      (hpos : step.incoming.isNegativeEdge = false)
      (hacc : evaluateStep step r.value p.matched = false)
      (hmin : step.minCount ≤ p.currentStepCount) (hlast : p.currentStep + 1 = steps.length) :
      TurnSpec steps pos r p (.done .completed p.nextStep)
  | broken (step : Step T) (hstep : steps[p.currentStep]? = some step)
      (hpos : step.incoming.isNegativeEdge = false)
      (hacc : evaluateStep step r.value p.matched = false)
      (hmin : p.currentStepCount < step.minCount)
      (hstrict : step.incoming = .next ∨ step.consecutive = true ∧ 0 < p.currentStepCount) :
      TurnSpec steps pos r p (.done .died p)
  | waited (step : Step T) (hstep : steps[p.currentStep]? = some step)
      (hpos : step.incoming.isNegativeEdge = false)
      (hacc : evaluateStep step r.value p.matched = false)
      (hmin : p.currentStepCount < step.minCount)
      (hrelaxed : ¬ (step.incoming = .next ∨ step.consecutive = true ∧ 0 < p.currentStepCount)) :
      TurnSpec steps pos r p (.done .keep p)

variable {steps : List (Step T)} {pos : Nat} {r : Record T} {p q : PartialMatch T}
  {step : Step T}

theorem negative_cases (h : step.incoming.isNegativeEdge = true)
    (hne : step.incoming ≠ .notNext) : step.incoming = .notFollowedBy := by
  cases hin : step.incoming <;> simp_all [EdgeKind.isNegativeEdge]

private theorem negativeTurn_spec (hstep : steps[p.currentStep]? = some step)
    (hneg : step.incoming.isNegativeEdge = true) :
    TurnSpec steps pos r p
      (negativeTurn steps step (evaluateStep step r.value p.matched) p) := by
  obtain ⟨hlt, -⟩ := List.getElem?_eq_some_iff.mp hstep
  unfold negativeTurn
  by_cases hacc : evaluateStep step r.value p.matched = true
  · rw [if_pos hacc]
    exact .violated step hstep hneg hacc
  rw [if_neg hacc]
  rw [Bool.not_eq_true] at hacc
  by_cases hpend : p.currentStep + 1 = steps.length ∧ step.incoming = .notFollowedBy
  · rw [if_pos hpend]
    exact .pending step hstep hpend.2 hpend.1 hacc
  rw [if_neg hpend]
  by_cases hend : steps.length ≤ p.currentStep + 1
  · rw [if_pos hend]
    have hlast : p.currentStep + 1 = steps.length := by omega
    have hnext : step.incoming = .notNext := by
      by_contra hne
      exact hpend ⟨hlast, negative_cases hneg hne⟩
    exact .consumedLast step hstep hnext hlast hacc
  rw [if_neg hend]
  by_cases hnext : step.incoming = .notNext
  · rw [if_pos hnext]
    exact .consumed step hstep hnext (by omega) hacc
  · rw [if_neg hnext]
    exact .passed step hstep (negative_cases hneg hnext) (by omega) hacc

private theorem captureTurn_spec (hstep : steps[p.currentStep]? = some step)
    (hpos : step.incoming.isNegativeEdge = false)
    (hacc : evaluateStep step r.value p.matched = true)
    (hcount : p.currentStepCount < step.maxCount) :
    TurnSpec steps pos r p (captureTurn steps step pos r p) := by
  obtain ⟨hlt, -⟩ := List.getElem?_eq_some_iff.mp hstep
  unfold captureTurn
  rw [if_pos hcount]
  by_cases hfull : step.maxCount ≤ p.currentStepCount + 1
  · have hmax : p.currentStepCount + 1 = step.maxCount := by omega
    by_cases hend : steps.length ≤ p.currentStep + 1
    · simpa [hfull, hend] using
        TurnSpec.filledLast step hstep hpos hacc hmax (by omega)
    · simpa [hfull, hend] using
        TurnSpec.filled step hstep hpos hacc hmax (by omega)
  · simpa [hfull] using
      TurnSpec.captured step hstep hpos hacc (by omega)

private theorem missTurn_spec (hstep : steps[p.currentStep]? = some step)
    (hpos : step.incoming.isNegativeEdge = false)
    (hacc : evaluateStep step r.value p.matched = false) :
    TurnSpec steps pos r p (missTurn steps step p) := by
  obtain ⟨hlt, -⟩ := List.getElem?_eq_some_iff.mp hstep
  unfold missTurn
  by_cases hmin : step.minCount ≤ p.currentStepCount
  · rw [if_pos hmin]
    by_cases hend : steps.length ≤ p.currentStep + 1
    · rw [if_pos hend]
      exact .ended step hstep hpos hacc hmin (by omega)
    · rw [if_neg hend]
      exact .skipped step hstep hpos hacc hmin (by omega)
  · rw [if_neg hmin]
    rw [not_le] at hmin
    by_cases hstrict : step.incoming = .next ∨ step.consecutive = true ∧ 0 < p.currentStepCount
    · rw [if_pos hstrict]
      exact .broken step hstep hpos hacc hmin hstrict
    · rw [if_neg hstrict]
      exact .waited step hstep hpos hacc hmin hstrict

theorem turn_spec (hp : Counted steps p) : TurnSpec steps pos r p (turn steps pos r p) := by
  unfold turn
  cases hstep : steps[p.currentStep]? with
  | none => exact .offEnd (List.getElem?_eq_none_iff.mp hstep)
  | some step =>
      dsimp only
      cases hneg : step.incoming.isNegativeEdge with
      | true =>
          rw [if_pos rfl]
          exact negativeTurn_spec hstep hneg
      | false =>
          rw [if_neg Bool.false_ne_true]
          cases hacc : evaluateStep step r.value p.matched with
          | false =>
              rw [if_neg Bool.false_ne_true]
              exact missTurn_spec hstep hneg hacc
          | true =>
              rw [if_pos rfl]
              by_cases hlazy : lazyAdvances steps step r p = true
              · rw [if_pos hlazy]
                simp only [lazyAdvances, Bool.and_eq_true, decide_eq_true_eq] at hlazy
                obtain ⟨⟨hflag, hmin⟩, hpeek⟩ := hlazy
                cases hnext : steps[p.currentStep + 1]? with
                | none => simp [hnext] at hpeek
                | some next =>
                    simp only [hnext, Bool.and_eq_true, Bool.not_eq_true'] at hpeek
                    exact .gaveWay step next hstep hneg hflag hmin hnext hpeek.1 hpeek.2
              · rw [if_neg hlazy]
                exact captureTurn_spec hstep hneg hacc (hp step hstep)

/-! ## Walks -/

/-- A turn that goes on moves to the next step, which exists. -/
theorem TurnSpec.again_eq (h : TurnSpec steps pos r p (.again q)) :
    q = p.nextStep ∧ p.currentStep + 1 < steps.length := by
  cases h with
  | passed _ _ _ hlast _ => exact ⟨rfl, hlast⟩
  | gaveWay _ _ _ _ _ _ hnext _ _ => exact ⟨rfl, (List.getElem?_eq_some_iff.mp hnext).1⟩
  | skipped _ _ _ _ _ hlast => exact ⟨rfl, hlast⟩

theorem counted_nextStep (hsteps : ∀ s ∈ steps, s.Quantified) : Counted steps p.nextStep := by
  intro step hstep
  exact Nat.lt_of_lt_of_le Nat.zero_lt_one (hsteps step (List.mem_of_getElem? hstep)).1

variable {o : StepOutcome}

/-- The count stays below the maximum wherever a turn stops. -/
theorem TurnSpec.counted (hsteps : ∀ s ∈ steps, s.Quantified) (hp : Counted steps p)
    (h : TurnSpec steps pos r p (.done o q)) : Counted steps q := by
  cases h with
  | offEnd _ | violated _ _ _ _ | pending _ _ _ _ _ | broken _ _ _ _ _ _
  | waited _ _ _ _ _ _ => exact hp
  | consumed _ _ _ _ _ | consumedLast _ _ _ _ _ | ended _ _ _ _ _ _
  | filled _ _ _ _ _ _ | filledLast _ _ _ _ _ _ => exact counted_nextStep hsteps
  | captured step hstep _ _ hmax =>
      intro step' hstep'
      obtain rfl : step = step' := by simpa [hstep] using hstep'
      exact hmax

private theorem advanceLoop_induct (hsteps : ∀ s ∈ steps, s.Quantified)
    {P : PartialMatch T → Prop} {Q : StepOutcome → PartialMatch T → Prop}
    (hagain : ∀ p q, Counted steps p → P p → TurnSpec steps pos r p (.again q) → P q)
    (hdone : ∀ p o q, Counted steps p → P p → TurnSpec steps pos r p (.done o q) → Q o q)
    {guard : Nat} (hguard : 0 < guard)
    (hroom : p.currentStep < steps.length → steps.length < p.currentStep + guard)
    (hp : Counted steps p) (hP : P p) :
    Q (advanceLoop steps pos r guard p).1 (advanceLoop steps pos r guard p).2 := by
  induction guard generalizing p with
  | zero => exact absurd hguard (lt_irrefl 0)
  | succ guard ih =>
      have hspec : TurnSpec steps pos r p (turn steps pos r p) := turn_spec hp
      simp only [advanceLoop]
      cases hturn : turn steps pos r p with
      | done o q =>
          rw [hturn] at hspec
          exact hdone p o q hp hP hspec
      | again q =>
          rw [hturn] at hspec
          obtain ⟨hq, hlt⟩ := hspec.again_eq
          have hroom' := hroom (by omega)
          have hP' := hagain p q hp hP hspec
          subst hq
          refine ih (by omega) ?_ (counted_nextStep hsteps) hP'
          intro _
          rw [PartialMatch.nextStep_currentStep]
          omega

variable {pat : Pattern T}

/-- The rule for a walk: what every turn that goes on keeps is there at the
turn that stops, and the guard never runs out before that turn. -/
theorem advanceOne_induct {P : PartialMatch T → Prop} {Q : StepOutcome → PartialMatch T → Prop}
    (hp : Counted pat.steps p) (hP : P p)
    (hagain : ∀ p q, Counted pat.steps p → P p → TurnSpec pat.steps pos r p (.again q) → P q)
    (hdone : ∀ p o q, Counted pat.steps p → P p → TurnSpec pat.steps pos r p (.done o q) → Q o q) :
    Q (advanceOne pat pos r p).1 (advanceOne pat pos r p).2 :=
  advanceLoop_induct pat.quantified hagain hdone (Nat.succ_pos _) (fun _ => by omega) hp hP

theorem counted_advanceOne (hp : Counted pat.steps p) :
    Counted pat.steps (advanceOne pat pos r p).2 :=
  advanceOne_induct (P := fun _ => True) (Q := fun _ q => Counted pat.steps q) hp trivial
    (fun _ _ _ _ _ => trivial) fun _ _ _ hp _ h => h.counted pat.quantified hp

/-- A walk captures the record at most once, and only there sets the start. -/
def Extends (pos : Nat) (r : Record T) (p q : PartialMatch T) : Prop :=
  q.matched = p.matched ∧ q.startTs = p.startTs ∨
    ∃ name i, q.matched = p.matched ++ [⟨name, r.value, r.eventTs, i, pos⟩] ∧
      q.startTs = if p.matched.isEmpty then r.eventTs else p.startTs

theorem TurnSpec.extends (h : TurnSpec steps pos r p (.done o q)) : Extends pos r p q := by
  cases h with
  | captured step _ _ _ _ | filled step _ _ _ _ _ | filledLast step _ _ _ _ _ =>
      exact .inr ⟨step.name, p.currentStep, rfl, rfl⟩
  | offEnd _ | violated _ _ _ _ | pending _ _ _ _ _ | broken _ _ _ _ _ _
  | waited _ _ _ _ _ _ | consumed _ _ _ _ _ | consumedLast _ _ _ _ _ | ended _ _ _ _ _ _ =>
      exact .inl ⟨rfl, rfl⟩

theorem extends_advanceOne (hp : Counted pat.steps p) :
    Extends pos r p (advanceOne pat pos r p).2 := by
  refine advanceOne_induct (P := fun q => q.matched = p.matched ∧ q.startTs = p.startTs)
    (Q := fun _ q => Extends pos r p q) hp ⟨rfl, rfl⟩ ?_ ?_
  · intro q q' _ hq h
    obtain ⟨rfl, -⟩ := h.again_eq
    exact hq
  · intro q o q' _ hq h
    have hext := h.extends
    unfold Extends at hext
    rw [hq.1, hq.2] at hext
    exact hext

/-- A partial that goes on waits at a step of the pattern. -/
theorem TurnSpec.lt_length (h : TurnSpec steps pos r p (.done o q))
    (ho : o = .keep ∨ o = .advanced) : q.currentStep < steps.length := by
  cases h with
  | offEnd _ | violated _ _ _ _ | consumedLast _ _ _ _ _ | ended _ _ _ _ _ _
  | filledLast _ _ _ _ _ _ | broken _ _ _ _ _ _ => simp at ho
  | pending _ hstep _ _ _ | waited _ hstep _ _ _ _ | captured _ hstep _ _ _ =>
      exact (List.getElem?_eq_some_iff.mp hstep).1
  | consumed _ _ _ hlast _ | filled _ _ _ _ _ hlast => exact hlast

theorem lt_length_advanceOne (hp : Counted pat.steps p) (hone : advanceOne pat pos r p = (o, q))
    (ho : o = .keep ∨ o = .advanced) : q.currentStep < pat.steps.length := by
  have hwalk : (advanceOne pat pos r p).1 = .keep ∨ (advanceOne pat pos r p).1 = .advanced →
      (advanceOne pat pos r p).2.currentStep < pat.steps.length :=
    advanceOne_induct (P := fun _ => True)
      (Q := fun o q => o = .keep ∨ o = .advanced → q.currentStep < pat.steps.length) hp trivial
      (fun _ _ _ _ _ => trivial) fun _ _ _ _ _ h ho => h.lt_length ho
  rw [hone] at hwalk
  exact hwalk ho

end Automaton

/-! ## All partials of a key -/

section Key

variable {T : Type*}

/-- What a match is emitted with: the events it captured and its event time. -/
structure Emitted (T : Type*) where
  found : PartialMatch T
  ts : Option Int

/-- The timestamp of the first, or the last, event captured for a named step. -/
def namedTs (first : Bool) (name : String) (matched : List (Captured T)) : Option Int :=
  let named := (matched.filter fun c => c.stepName = name).map Captured.ts
  if first then named.head? else named.getLast?

/-- `should_evict_for_strategy_`, and the same decision of `apply_skip_strategy_`. -/
def shouldEvictForStrategy (strategy : SkipStrategy) (completed p : PartialMatch T) : Bool :=
  let matchedEndTs := (completed.matched.getLast?.map Captured.ts).getD completed.startTs
  match strategy with
  | .noSkip => false
  | .skipPastLastEvent => p.startTs ≤ matchedEndTs
  | .skipToNext => p.startTs = completed.startTs
  | .skipToFirst name => (namedTs true name completed.matched).any (p.startTs < ·)
  | .skipToLast name => (namedTs false name completed.matched).any (p.startTs < ·)

/-- `apply_skip_strategy_`: the survivors of a completion. -/
def applySkipStrategy (strategy : SkipStrategy) (completed : PartialMatch T)
    (survivors : List (PartialMatch T)) : List (PartialMatch T) :=
  survivors.filter fun p => !shouldEvictForStrategy strategy completed p

/-- `is_pending_trailing_negative_`. -/
def isPendingTrailingNegative (pat : Pattern T) (p : PartialMatch T) : Bool :=
  decide (p.currentStep + 1 = pat.steps.length) &&
    (pat.steps[p.currentStep]?).any fun step => step.incoming = .notFollowedBy

/-- A record past `start_ts + within` expires a partial that has captured. -/
def expiresAt (pat : Pattern T) (r : Record T) (p : PartialMatch T) : Bool :=
  match pat.within, r.eventTime with
  | some w, some ts => !p.matched.isEmpty && decide (w < sub64 ts.millis p.startTs)
  | _, _ => false

/-- The accumulators of `advance_for_key_`. -/
structure Dispatch (T : Type*) where
  nextPartials : List (PartialMatch T) := []
  emitted : List (Emitted T) := []
  timedOut : List (PartialMatch T) := []
  completedThisEvent : List (PartialMatch T) := []

namespace Dispatch

def keep (d : Dispatch T) (p : PartialMatch T) : Dispatch T :=
  { d with nextPartials := d.nextPartials ++ [p] }

/-- An expired partial: a success stamped at its deadline, or timed out. -/
def expire (pat : Pattern T) (d : Dispatch T) (p : PartialMatch T) : Dispatch T :=
  if isPendingTrailingNegative pat p then
    { d with emitted := d.emitted ++ [⟨p, pat.within.map (add64 p.startTs)⟩] }
  else { d with timedOut := d.timedOut ++ [p] }

def complete (pat : Pattern T) (r : Record T) (d : Dispatch T) (p : PartialMatch T) :
    Dispatch T :=
  { d with
    nextPartials := applySkipStrategy pat.skip p d.nextPartials
    emitted := d.emitted ++ [⟨p, r.eventTime.map EventTime.millis⟩]
    completedThisEvent := d.completedThisEvent ++ [p] }

end Dispatch

/-- The loop over the partials; a completion also erases partials that are
still to come, so the loop is bounded by the number there were. -/
def dispatchLoop (pat : Pattern T) (pos : Nat) (r : Record T) :
    Nat → List (PartialMatch T) → Dispatch T → Dispatch T
  | 0, _, d => d
  | _, [], d => d
  | n + 1, p :: partials, d =>
      if expiresAt pat r p then dispatchLoop pat pos r n partials (d.expire pat p)
      else match advanceOne pat pos r p with
      | (.keep, q) | (.advanced, q) => dispatchLoop pat pos r n partials (d.keep q)
      | (.completed, q) =>
          dispatchLoop pat pos r n (applySkipStrategy pat.skip q partials) (d.complete pat r q)
      | (.died, _) => dispatchLoop pat pos r n partials d

/-- The fresh partial a record may begin. -/
def spawn (pat : Pattern T) (pos : Nat) (r : Record T) (d : Dispatch T) : Dispatch T :=
  if pat.skip = .skipPastLastEvent ∧ d.completedThisEvent ≠ [] then d
  else match advanceOne pat pos r {} with
  | (.advanced, q) => d.keep q
  | (.completed, q) => d.complete pat r q
  | (.died, _) | (.keep, _) => d

/-- `advance_for_key_`. -/
def advanceForKey (pat : Pattern T) (pos : Nat) (r : Record T) (partials : List (PartialMatch T)) :
    Dispatch T :=
  spawn pat pos r (dispatchLoop pat pos r partials.length partials {})

/-- `prune_expired_` at one key: the partials that started before the cutoff
leave, pending trailing negations as successes stamped with the watermark. -/
def pruneExpired (pat : Pattern T) (cutoffTs : Int) (wm : Watermark)
    (partials : List (PartialMatch T)) : Dispatch T :=
  let expired := partials.filter fun p => p.startTs < cutoffTs
  { nextPartials := partials.filter fun p => !decide (p.startTs < cutoffTs)
    emitted := (expired.filter (isPendingTrailingNegative pat)).map
      fun p => ⟨p, some wm.timestamp.millis⟩
    timedOut := expired.filter fun p => !isPendingTrailingNegative pat p }

/-- What reaches the partials of one key. -/
inductive KeyEvent (T : Type*)
  | record (r : Record T)
  | watermark (wm : Watermark)

/-- A key's partials, and what came of it so far. -/
structure KeyState (T : Type*) where
  partials : List (PartialMatch T) := []
  emitted : List (Emitted T) := []
  timedOut : List (PartialMatch T) := []
  log : List (KeyEvent T) := []

/-- The part of `on_watermark` that concerns one key. -/
def pruneAt (pat : Pattern T) (wm : Watermark) (partials : List (PartialMatch T)) : Dispatch T :=
  match pat.evictionBound with
  | some bound => pruneExpired pat (sub64 wm.timestamp.millis bound) wm partials
  | none => { nextPartials := partials }

def keyDispatch (pat : Pattern T) (s : KeyState T) : KeyEvent T → Dispatch T
  | .record r => advanceForKey pat s.log.length r s.partials
  | .watermark wm => pruneAt pat wm s.partials

/-- One event at a key. -/
def keyStep (pat : Pattern T) (s : KeyState T) (e : KeyEvent T) : KeyState T :=
  { partials := (keyDispatch pat s e).nextPartials
    emitted := s.emitted ++ (keyDispatch pat s e).emitted
    timedOut := s.timedOut ++ (keyDispatch pat s e).timedOut
    log := s.log ++ [e] }

/-! ## Where the partials after a record come from -/

variable {pat : Pattern T} {pos : Nat} {r : Record T} {partials : List (PartialMatch T)}
  {d : Dispatch T}

/-- A partial the record is walked over: a live one of the key, or a fresh one. -/
def Walked (pat : Pattern T) (r : Record T) (partials : List (PartialMatch T))
    (p : PartialMatch T) : Prop :=
  p ∈ partials ∧ expiresAt pat r p = false ∨ p = {}

/-- Everything a dispatch holds comes from a partial of the key: kept and
completed ones from a walk, expired ones from the record's being too late. -/
structure Dispatch.From (pat : Pattern T) (pos : Nat) (r : Record T)
    (partials : List (PartialMatch T)) (d : Dispatch T) : Prop where
  kept : ∀ q ∈ d.nextPartials, ∃ p, Walked pat r partials p ∧
    (advanceOne pat pos r p = (.keep, q) ∨ advanceOne pat pos r p = (.advanced, q))
  emitted : ∀ e ∈ d.emitted,
    (e.found ∈ partials ∧ expiresAt pat r e.found = true ∧
      isPendingTrailingNegative pat e.found = true) ∨
    ∃ p, Walked pat r partials p ∧ advanceOne pat pos r p = (.completed, e.found)
  timedOut : ∀ p ∈ d.timedOut, p ∈ partials ∧ expiresAt pat r p = true

variable {p : PartialMatch T}

theorem mem_applySkipStrategy {strategy : SkipStrategy} {completed : PartialMatch T}
    (h : p ∈ applySkipStrategy strategy completed partials) : p ∈ partials :=
  List.mem_of_mem_filter h

namespace Dispatch.From

theorem empty : From pat pos r partials {} :=
  ⟨fun _ h => absurd h List.not_mem_nil, fun _ h => absurd h List.not_mem_nil,
    fun _ h => absurd h List.not_mem_nil⟩

variable {p : PartialMatch T}

section

variable (h : From pat pos r partials d)
include h

theorem keep {q : PartialMatch T} (hp : Walked pat r partials p)
    (hq : advanceOne pat pos r p = (.keep, q) ∨ advanceOne pat pos r p = (.advanced, q)) :
    From pat pos r partials (d.keep q) := by
  refine ⟨fun q' hq' => ?_, h.emitted, h.timedOut⟩
  rcases List.mem_append.mp hq' with hold | hnew
  · exact h.kept q' hold
  · rw [List.mem_singleton.mp hnew]
    exact ⟨p, hp, hq⟩

theorem complete {q : PartialMatch T} (hp : Walked pat r partials p)
    (hq : advanceOne pat pos r p = (.completed, q)) :
    From pat pos r partials (d.complete pat r q) := by
  refine ⟨fun q' hq' => h.kept q' (mem_applySkipStrategy hq'), fun e he => ?_, h.timedOut⟩
  rcases List.mem_append.mp he with hold | hnew
  · exact h.emitted e hold
  · rw [List.mem_singleton.mp hnew]
    exact .inr ⟨p, hp, hq⟩

theorem expire (hp : p ∈ partials) (hexp : expiresAt pat r p = true) :
    From pat pos r partials (d.expire pat p) := by
  unfold Dispatch.expire
  cases hpend : isPendingTrailingNegative pat p with
  | true =>
      rw [if_pos rfl]
      refine ⟨h.kept, fun e he => ?_, h.timedOut⟩
      rcases List.mem_append.mp he with hold | hnew
      · exact h.emitted e hold
      · rw [List.mem_singleton.mp hnew]
        exact .inl ⟨hp, hexp, hpend⟩
  | false =>
      rw [if_neg Bool.false_ne_true]
      refine ⟨h.kept, h.emitted, fun q hq => ?_⟩
      rcases List.mem_append.mp hq with hold | hnew
      · exact h.timedOut q hold
      · rw [List.mem_singleton.mp hnew]
        exact ⟨hp, hexp⟩

theorem loop {n : Nat} {pending : List (PartialMatch T)} (hsub : ∀ p ∈ pending, p ∈ partials) :
    From pat pos r partials (dispatchLoop pat pos r n pending d) := by
  induction n generalizing pending d with
  | zero => exact h
  | succ n ih =>
      cases pending with
      | nil => exact h
      | cons p pending =>
          obtain ⟨hp, hrest⟩ := List.forall_mem_cons.mp hsub
          unfold dispatchLoop
          cases hexp : expiresAt pat r p with
          | true =>
              rw [if_pos rfl]
              exact ih (h.expire hp hexp) hrest
          | false =>
              rw [if_neg Bool.false_ne_true]
              have hwalk : Walked pat r partials p := .inl ⟨hp, hexp⟩
              rcases hone : advanceOne pat pos r p with ⟨o, q⟩
              cases o with
              | keep => exact ih (h.keep hwalk (.inl hone)) hrest
              | advanced => exact ih (h.keep hwalk (.inr hone)) hrest
              | completed =>
                  exact ih (h.complete hwalk hone) fun p' hp' =>
                    hrest p' (mem_applySkipStrategy hp')
              | died => exact ih h hrest

end

theorem advanceForKey : From pat pos r partials (advanceForKey pat pos r partials) := by
  have hloop : From pat pos r partials (dispatchLoop pat pos r partials.length partials {}) :=
    empty.loop fun _ hp => hp
  unfold Cep.advanceForKey spawn
  by_cases hskip : pat.skip = .skipPastLastEvent ∧
      (dispatchLoop pat pos r partials.length partials {}).completedThisEvent ≠ []
  · rw [if_pos hskip]
    exact hloop
  · rw [if_neg hskip]
    rcases hone : advanceOne pat pos r {} with ⟨o, q⟩
    cases o with
    | keep | died => exact hloop
    | advanced => exact hloop.keep (.inr rfl) (.inr hone)
    | completed => exact hloop.complete (.inr rfl) hone

end Dispatch.From

theorem counted_empty (pat : Pattern T) : Counted pat.steps {} := by
  intro step hstep
  exact Nat.lt_of_lt_of_le Nat.zero_lt_one (pat.quantified step (List.mem_of_getElem? hstep)).1

variable {wm : Watermark}

theorem mem_pruneAt (h : p ∈ (pruneAt pat wm partials).nextPartials) : p ∈ partials := by
  unfold pruneAt at h
  split at h
  · exact List.mem_of_mem_filter h
  · exact h

/-- What `prune_expired_` takes out started before the cutoff. -/
def Pruned (pat : Pattern T) (wm : Watermark) (partials : List (PartialMatch T))
    (p : PartialMatch T) : Prop :=
  p ∈ partials ∧ ∃ bound, pat.evictionBound = some bound ∧
    p.startTs < sub64 wm.timestamp.millis bound

theorem pruned_of_emitted {e : Emitted T} (h : e ∈ (pruneAt pat wm partials).emitted) :
    Pruned pat wm partials e.found ∧ isPendingTrailingNegative pat e.found = true := by
  unfold pruneAt at h
  split at h
  · next bound hbound =>
      obtain ⟨p, hp, rfl⟩ := List.mem_map.mp h
      obtain ⟨hexp, hpend⟩ := List.mem_filter.mp hp
      obtain ⟨hmem, hlt⟩ := List.mem_filter.mp hexp
      exact ⟨⟨hmem, bound, hbound, by simpa using hlt⟩, hpend⟩
  · exact absurd h List.not_mem_nil

theorem pruned_of_timedOut (h : p ∈ (pruneAt pat wm partials).timedOut) :
    Pruned pat wm partials p := by
  unfold pruneAt at h
  split at h
  · next bound hbound =>
      obtain ⟨hmem, hlt⟩ := List.mem_filter.mp (List.mem_of_mem_filter h)
      exact ⟨hmem, bound, hbound, by simpa using hlt⟩
  · exact absurd h List.not_mem_nil

/-- The count of every partial stays below the maximum of its step. -/
theorem counted_keyStep {s : KeyState T} {e : KeyEvent T}
    (h : ∀ p ∈ s.partials, Counted pat.steps p) :
    ∀ p ∈ (keyStep pat s e).partials, Counted pat.steps p := by
  intro q hq
  cases e with
  | watermark wm => exact h q (mem_pruneAt hq)
  | record r =>
      obtain ⟨p, hwalk, hone⟩ := Dispatch.From.advanceForKey.kept q hq
      have hp : Counted pat.steps p := by
        rcases hwalk with ⟨hmem, -⟩ | rfl
        · exact h p hmem
        · exact counted_empty pat
      have hq : q = (advanceOne pat s.log.length r p).2 := by
        rcases hone with hone | hone <;> rw [hone]
      rw [hq]
      exact counted_advanceOne hp

end Key

end Clink.Ports.Cep

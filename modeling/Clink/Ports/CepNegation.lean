import Clink.Ports.CepOperator

/-!
# Negation between two steps of a pattern

A `not_followed_by` step between two positive ones should rule out, over the
whole stretch between the last event captured before it and the first captured
after it, every event that satisfies it.  The automaton keeps one step index
per partial (`include/clink/cep/cep_operator.hpp`): the event that moves it
past the negative step is checked, the events it then waits through are not.

`Zone` is the invariant of a partial that holds as long as no event exploits
this (`Respected`): a partial that has captured nothing after the negative
step has met no forbidden event since its last capture, once all it still owes
before that step is optional.
-/

namespace Clink.Ports.Cep

open Clink.Ports.Time Clink.Verified

variable {T : Type*}

/-- Step `n` of the pattern is a `not_followed_by` between two positive steps,
the later one reached by `followed_by`. -/
structure Negation (pat : Pattern T) (n : Nat) (neg : Step T) : Prop where
  step : pat.steps[n]? = some neg
  incoming : neg.incoming = .notFollowedBy
  before : ∃ m step, n = m + 1 ∧ pat.steps[m]? = some step ∧ step.incoming.isNegativeEdge = false
  after : ∃ step, pat.steps[n + 1]? = some step ∧ step.incoming = .followedBy

/-- No record strictly between the last event captured before step `n` and the
first captured after it satisfies the negative step. -/
def Negated (log : List (KeyEvent T)) (n : Nat) (neg : Step T) (matched : List (Captured T)) :
    Prop :=
  ∀ c ∈ (matched.filter fun c => c.step < n).getLast?,
    ∀ d ∈ (matched.filter fun c => n < c.step).head?,
      ∀ j r, c.pos < j → j < d.pos → log[j]? = some (.record r) →
        evaluateStep neg r.value (matched.filter fun c => c.step < n) = false

/-- Every positive step up to `n` that the partial has yet to leave has met its
minimum: the partial owes no capture before step `n`. -/
def FreeUntil (pat : Pattern T) (n : Nat) (p : PartialMatch T) : Prop :=
  ∀ j step, p.currentStep ≤ j → j < n → pat.steps[j]? = some step →
    step.incoming.isNegativeEdge = false →
    step.minCount ≤ if j = p.currentStep then p.currentStepCount else 0

/-- Where the negative step accepts the record, a live partial with nothing
captured after it either waits past it at a step that takes the record, or
still stands before it and will check it. -/
def Respected (pat : Pattern T) (n : Nat) (neg : Step T) (s : KeyState T) : KeyEvent T → Prop
  | .watermark _ => True
  | .record r => ∀ p ∈ s.partials, expiresAt pat r p = false → (∀ c ∈ p.matched, c.step < n) →
      evaluateStep neg r.value p.matched = true →
      (n < p.currentStep → ∃ step, pat.steps[p.currentStep]? = some step ∧
        evaluateStep step r.value p.matched = true) ∧
      (p.currentStep ≤ n → FreeUntil pat n p → ∀ j step, p.currentStep ≤ j → j < n →
        pat.steps[j]? = some step → step.incoming ≠ .notNext)

/-! ## The stretch a partial waits through -/

/-- No record since the last capture satisfies the negative step. -/
def ClearSince (log : List (KeyEvent T)) (neg : Step T) (matched : List (Captured T)) : Prop :=
  ∀ c ∈ matched.getLast?, ∀ j r, c.pos < j → log[j]? = some (.record r) →
    evaluateStep neg r.value matched = false

structure Zone (pat : Pattern T) (n : Nat) (neg : Step T) (log : List (KeyEvent T))
    (p : PartialMatch T) : Prop where
  step_le : ∀ c ∈ p.matched, c.step ≤ p.currentStep
  step_ne : ∀ c ∈ p.matched, c.step ≠ n
  pos_lt : ∀ c ∈ p.matched, c.pos < log.length
  negated : Negated log n neg p.matched
  clear : (∀ c ∈ p.matched, c.step < n) → FreeUntil pat n p → ClearSince log neg p.matched

section Walk

variable {pat : Pattern T} {n : Nat} {neg step : Step T} {log : List (KeyEvent T)}
  {p q : PartialMatch T} {r : Record T} {e : KeyEvent T} {matched : List (Captured T)}

theorem Negated.grow (h : Negated log n neg matched) (hpos : ∀ c ∈ matched, c.pos < log.length) :
    Negated (log ++ [e]) n neg matched := by
  intro c hc d hd j r hcj hjd hlog
  have hd' : d.pos < log.length := hpos d (List.mem_of_mem_filter (List.mem_of_head? hd))
  rw [List.getElem?_append_left (by omega)] at hlog
  exact h c hc d hd j r hcj hjd hlog

theorem ClearSince.grow (h : ClearSince log neg matched)
    (he : ∀ r, e = .record r → matched ≠ [] → evaluateStep neg r.value matched = false) :
    ClearSince (log ++ [e]) neg matched := by
  intro c hc j r hcj hlog
  by_cases hj : j < log.length
  · rw [List.getElem?_append_left hj] at hlog
    exact h c hc j r hcj hlog
  · rw [List.getElem?_append_right (not_lt.mp hj)] at hlog
    have hje : e = .record r := by
      have hmem := List.mem_of_getElem? hlog
      simpa using (List.mem_singleton.mp hmem).symm
    refine he r hje fun hnil => ?_
    rw [hnil] at hc
    exact absurd hc (by simp)

/-- Leaving a step that is negative or has met its minimum changes nothing in
what the partial still owes. -/
theorem freeUntil_nextStep (hstep : pat.steps[p.currentStep]? = some step)
    (hmet : step.incoming.isNegativeEdge = false → step.minCount ≤ p.currentStepCount) :
    FreeUntil pat n p.nextStep ↔ FreeUntil pat n p := by
  constructor
  · intro h j step' hle hlt hj hpos
    by_cases hcur : j = p.currentStep
    · subst hcur
      obtain rfl : step = step' := by simpa [hstep] using hj
      rw [if_pos rfl]
      exact hmet hpos
    · have hnext := h j step' (by rw [PartialMatch.nextStep_currentStep]; omega) hlt hj hpos
      rw [if_neg hcur]
      rw [PartialMatch.nextStep_currentStepCount, ite_self] at hnext
      exact hnext
  · intro h j step' hle hlt hj hpos
    rw [PartialMatch.nextStep_currentStep] at hle
    have hold := h j step' (by omega) hlt hj hpos
    rw [if_neg (by omega)] at hold
    omega

/-- A capture before step `n` opens a new stretch, one after it closes the
stretch there was. -/
theorem Zone.capture (hz : Zone pat n neg log p) {c₀ : Captured T}
    (hstep : c₀.step = p.currentStep) (hpos : c₀.pos = log.length) (hne : p.currentStep ≠ n) :
    Negated (log ++ [e]) n neg (p.matched ++ [c₀]) ∧
      ClearSince (log ++ [e]) neg (p.matched ++ [c₀]) := by
  refine ⟨fun c hc d hd j r' hcj hjd hlog => ?_, fun c hc j r' hcj hlog => ?_⟩
  · rcases Nat.lt_or_gt_of_ne hne with hbefore | hafter
    · -- Everything captured so far stands before step `n`.
      have hnone : ∀ x ∈ p.matched ++ [c₀], ¬ n < x.step := by
        intro x hx
        rcases List.mem_append.mp hx with hold | hnew
        · have := hz.step_le x hold
          omega
        · rw [List.mem_singleton.mp hnew, hstep]
          exact Nat.lt_asymm hbefore
      rw [List.filter_eq_nil_iff.mpr fun x hx => by simpa using hnone x hx] at hd
      simp at hd
    · have hpre : (p.matched ++ [c₀]).filter (fun c => c.step < n) =
          p.matched.filter fun c => c.step < n := by
        rw [List.filter_append, List.filter_cons_of_neg (by simp [hstep, le_of_lt hafter])]
        exact List.append_nil _
      rw [hpre] at hc ⊢
      by_cases hpost : ∀ c ∈ p.matched, c.step < n
      · have hall : p.matched.filter (fun c => c.step < n) = p.matched :=
          List.filter_eq_self.mpr fun x hx => by simpa using hpost x hx
        have hfree : FreeUntil pat n p := by
          intro j _ hle hlt
          omega
        rw [hall] at hc ⊢
        have hdpos : d.pos = log.length := by
          rw [List.filter_append, List.filter_eq_nil_iff.mpr
            (fun x hx => by simpa using le_of_lt (hpost x hx)), List.nil_append,
            List.filter_cons_of_pos (by simpa [hstep] using hafter)] at hd
          rw [← Option.some.inj hd]
          exact hpos
        rw [List.getElem?_append_left (by omega)] at hlog
        exact hz.clear hpost hfree c hc j r' hcj hlog
      · have hhead : d ∈ (p.matched.filter fun c => n < c.step).head? := by
          push Not at hpost
          obtain ⟨x, hx, hxn⟩ := hpost
          have hxne := hz.step_ne x hx
          have hmem : x ∈ p.matched.filter fun c => n < c.step :=
            List.mem_filter.mpr ⟨hx, by simpa using by omega⟩
          rw [List.filter_append, List.head?_append_of_ne_nil _
            (List.ne_nil_of_mem hmem)] at hd
          exact hd
        exact hz.negated.grow hz.pos_lt c hc d hhead j r' hcj hjd hlog
  · -- Nothing follows the capture yet.
    rw [List.getLast?_concat] at hc
    have hcpos : c.pos = log.length := by
      rw [← Option.some.inj hc]
      exact hpos
    have hlt := (List.getElem?_eq_some_iff.mp hlog).1
    rw [List.length_append, List.length_singleton] at hlt
    omega

/-- A partial the event passed by: nothing is captured. -/
theorem Zone.stay (hz : Zone pat n neg log p) (hmatched : q.matched = p.matched)
    (hcur : p.currentStep ≤ q.currentStep) (hfree : FreeUntil pat n q → FreeUntil pat n p)
    (hrej : (∀ c ∈ p.matched, c.step < n) → FreeUntil pat n q →
      ∀ r, e = .record r → p.matched ≠ [] → evaluateStep neg r.value p.matched = false) :
    Zone pat n neg (log ++ [e]) q := by
  refine ⟨?_, ?_, ?_, ?_, ?_⟩ <;> rw [hmatched]
  · exact fun c hc => le_trans (hz.step_le c hc) hcur
  · exact hz.step_ne
  · intro c hc
    rw [List.length_append]
    exact Nat.lt_add_right _ (hz.pos_lt c hc)
  · exact hz.negated.grow hz.pos_lt
  · intro hall hq
    exact (hz.clear hall (hfree hq)).grow (hrej hall hq)

theorem Zone.took (hz : Zone pat n neg log p) {c₀ : Captured T}
    (hmatched : q.matched = p.matched ++ [c₀]) (hcur : p.currentStep ≤ q.currentStep)
    (hstep : c₀.step = p.currentStep) (hpos : c₀.pos = log.length) (hne : p.currentStep ≠ n) :
    Zone pat n neg (log ++ [e]) q := by
  obtain ⟨hneg, hclear⟩ := hz.capture (e := e) hstep hpos hne
  refine ⟨?_, ?_, ?_, ?_, ?_⟩ <;> rw [hmatched]
  · intro c hc
    rcases List.mem_append.mp hc with hold | hnew
    · exact le_trans (hz.step_le c hold) hcur
    · rw [List.mem_singleton.mp hnew, hstep]
      exact hcur
  · intro c hc
    rcases List.mem_append.mp hc with hold | hnew
    · exact hz.step_ne c hold
    · rw [List.mem_singleton.mp hnew, hstep]
      exact hne
  · intro c hc
    rw [List.length_append, List.length_singleton]
    rcases List.mem_append.mp hc with hold | hnew
    · exact Nat.lt_succ_of_lt (hz.pos_lt c hold)
    · rw [List.mem_singleton.mp hnew, hpos]
      exact Nat.lt_succ_self _
  · exact hneg
  · exact fun _ _ => hclear

/-! ## One walk -/

/-- What `Respected` asks of one partial. -/
def Checked (pat : Pattern T) (n : Nat) (neg : Step T) (r : Record T) (p : PartialMatch T) :
    Prop :=
  (∀ c ∈ p.matched, c.step < n) → p.matched ≠ [] → evaluateStep neg r.value p.matched = true →
    (n < p.currentStep → ∃ step, pat.steps[p.currentStep]? = some step ∧
      evaluateStep step r.value p.matched = true) ∧
    (p.currentStep ≤ n → FreeUntil pat n p → ∀ j step, p.currentStep ≤ j → j < n →
      pat.steps[j]? = some step → step.incoming ≠ .notNext)

/-- A step that goes on without taking the event is negative or has met its minimum. -/
theorem step_of_again {pos : Nat} (h : TurnSpec pat.steps pos r p (.again q)) :
    ∃ step, pat.steps[p.currentStep]? = some step ∧
      (step.incoming.isNegativeEdge = false → step.minCount ≤ p.currentStepCount) := by
  cases h with
  | passed step hstep hneg _ _ =>
      exact ⟨step, hstep, fun hpos => by rw [hneg] at hpos; exact absurd hpos (by decide)⟩
  | gaveWay step _ hstep _ _ hmin _ _ _ => exact ⟨step, hstep, fun _ => hmin⟩
  | skipped step hstep _ _ hmin _ => exact ⟨step, hstep, fun _ => hmin⟩

theorem Zone.again {pos : Nat} (hz : Zone pat n neg log p)
    (h : TurnSpec pat.steps pos r p (.again q)) : Zone pat n neg log q := by
  obtain ⟨step, hstep, hmet⟩ := step_of_again h
  obtain ⟨rfl, -⟩ := h.again_eq
  refine ⟨fun c hc => ?_, hz.step_ne, hz.pos_lt, hz.negated, fun hall hfree => ?_⟩
  · exact Nat.le_succ_of_le (hz.step_le c hc)
  · exact hz.clear hall ((freeUntil_nextStep hstep hmet).mp hfree)

theorem Checked.again {pos : Nat} (hneg : pat.steps[n]? = some neg)
    (hkind : neg.incoming = .notFollowedBy) (hc : Checked pat n neg r p)
    (h : TurnSpec pat.steps pos r p (.again q)) : Checked pat n neg r q := by
  obtain ⟨step, hstep, hmet⟩ := step_of_again h
  obtain ⟨rfl, -⟩ := h.again_eq
  intro hall hne hacc
  obtain ⟨hafter, hbefore⟩ := hc hall hne hacc
  refine ⟨fun hlt => ?_, fun hle hfree j step' hj => ?_⟩
  · rw [PartialMatch.nextStep_currentStep] at hlt ⊢
    rcases Nat.lt_or_ge n p.currentStep with hpast | hat
    · -- The step it waits at takes the event, so it can only give way to one that does.
      obtain ⟨step', hstep', htakes⟩ := hafter hpast
      cases h with
      | passed s hs _ _ hrej | skipped s hs _ hrej _ _ =>
          obtain rfl : s = step' := by simpa [hs] using hstep'
          exact absurd (htakes.symm.trans hrej) (by decide)
      | gaveWay _ next _ _ _ _ hnext _ hnextAcc => exact ⟨next, hnext, hnextAcc⟩
    · obtain rfl : n = p.currentStep := by omega
      cases h with
      | passed s hs _ _ hrej =>
          obtain rfl : s = neg := by simpa [hs] using hneg
          exact absurd (hacc.symm.trans hrej) (by decide)
      | gaveWay s _ hs hpos _ _ _ _ _ | skipped s hs hpos _ _ _ =>
          obtain rfl : s = neg := by simpa [hs] using hneg
          rw [hkind] at hpos
          exact absurd hpos (by decide)
  · rw [PartialMatch.nextStep_currentStep] at hle hj
    exact hbefore (by omega) ((freeUntil_nextStep hstep hmet).mp hfree) j step' (by omega)

/-- What a walk leaves: a kept partial keeps its zone, a completed one is a
match without a forbidden event. -/
def WalkedZone (pat : Pattern T) (n : Nat) (neg : Step T) (log : List (KeyEvent T)) :
    StepOutcome → PartialMatch T → Prop
  | .died, _ => True
  | .completed, q => Negated log n neg q.matched ∧ ∀ c ∈ q.matched, c.pos < log.length
  | .keep, q | .advanced, q => Zone pat n neg log q

/-- A match is final as soon as nothing more is captured. -/
theorem Zone.completed (hz : Zone pat n neg log p) (hmatched : q.matched = p.matched) :
    WalkedZone pat n neg (log ++ [e]) .completed q := by
  refine ⟨?_, fun c hc => ?_⟩
  · rw [hmatched]
    exact hz.negated.grow hz.pos_lt
  · rw [hmatched] at hc
    rw [List.length_append]
    exact Nat.lt_add_right _ (hz.pos_lt c hc)

/-- A step other than the negative one that does not take the event: past the
negative step the event does not satisfy it either. -/
theorem Checked.rejects (hc : Checked pat n neg r p)
    (hstep : pat.steps[p.currentStep]? = some step)
    (hrej : evaluateStep step r.value p.matched = false) (hall : ∀ c ∈ p.matched, c.step < n)
    (hpast : n < p.currentStep) (hne : p.matched ≠ []) :
    evaluateStep neg r.value p.matched = false := by
  by_contra hacc
  obtain ⟨step', hstep', htakes⟩ := (hc hall hne (by simpa using hacc)).1 hpast
  obtain rfl : step = step' := by simpa [hstep] using hstep'
  exact absurd (htakes.symm.trans hrej) (by decide)

theorem Zone.done (hneg : pat.steps[n]? = some neg) (hkind : neg.incoming = .notFollowedBy)
    (hz : Zone pat n neg log p) (hc : Checked pat n neg r p) {o : StepOutcome}
    (h : TurnSpec pat.steps log.length r p (.done o q)) :
    WalkedZone pat n neg (log ++ [.record r]) o q := by
  have hn : n < pat.steps.length := (List.getElem?_eq_some_iff.mp hneg).1
  -- The partial waits at the negative step only where the turn says so.
  have hother : ∀ step, pat.steps[p.currentStep]? = some step →
      step.incoming ≠ .notFollowedBy → p.currentStep ≠ n := by
    intro step hstep hedge heq
    rw [heq] at hstep
    obtain rfl : step = neg := by simpa [hstep] using hneg
    exact hedge hkind
  have hpositive : ∀ step : Step T, step.incoming.isNegativeEdge = false →
      step.incoming ≠ .notFollowedBy := by
    intro step hpos hedge
    rw [hedge] at hpos
    exact absurd hpos (by decide)
  cases h with
  | offEnd _ => exact hz.completed rfl
  | violated _ _ _ _ | broken _ _ _ _ _ _ => trivial
  | consumedLast _ _ _ _ _ | ended _ _ _ _ _ _ => exact hz.completed rfl
  | captured step hstep hpos _ _ =>
      exact hz.took rfl (le_refl _) rfl rfl (hother step hstep (hpositive step hpos))
  | filled step hstep hpos _ _ _ =>
      exact hz.took rfl (Nat.le_succ _) rfl rfl (hother step hstep (hpositive step hpos))
  | filledLast step hstep hpos _ _ _ =>
      have htook : Zone pat n neg (log ++ [.record r]) (p.capture step log.length r).nextStep :=
        hz.took rfl (Nat.le_succ _) rfl rfl (hother step hstep (hpositive step hpos))
      exact ⟨htook.negated, htook.pos_lt⟩
  | pending step hstep hedge hlast hrej =>
      refine hz.stay rfl (le_refl _) id fun hall _ r' hr hne => ?_
      obtain rfl : r = r' := by simpa using hr
      rcases Nat.lt_or_ge n p.currentStep with hpast | hat
      · exact hc.rejects hstep hrej hall hpast hne
      · obtain rfl : n = p.currentStep := by omega
        obtain rfl : step = neg := by simpa [hstep] using hneg
        exact hrej
  | waited step hstep hpos hrej hmin _ =>
      refine hz.stay rfl (le_refl _) id fun hall hfree r' hr hne => ?_
      obtain rfl : r = r' := by simpa using hr
      rcases Nat.lt_trichotomy n p.currentStep with hpast | hat | hbefore
      · exact hc.rejects hstep hrej hall hpast hne
      · exact absurd hat.symm (hother step hstep (hpositive step hpos))
      · have hmet := hfree _ step (le_refl _) hbefore hstep hpos
        rw [if_pos rfl] at hmet
        exact absurd hmin (not_lt.mpr hmet)
  | consumed step hstep hedge _ hrej =>
      have hfree : FreeUntil pat n p.nextStep ↔ FreeUntil pat n p :=
        freeUntil_nextStep hstep fun hpos => by
          rw [hedge] at hpos
          exact absurd hpos (by decide)
      refine hz.stay rfl (Nat.le_succ _) hfree.mp fun hall hq r' hr hne => ?_
      obtain rfl : r = r' := by simpa using hr
      have hat : p.currentStep ≠ n := hother step hstep (by rw [hedge]; decide)
      rcases Nat.lt_or_gt_of_ne hat with hbefore | hpast
      · by_contra hacc
        exact (hc hall hne (by simpa using hacc)).2 (le_of_lt hbefore) (hfree.mp hq) _ step
          (le_refl _) hbefore hstep hedge
      · exact hc.rejects hstep hrej hall hpast hne

/-- One walk over a record that respects the negative step. -/
theorem Zone.advanceOne (hneg : pat.steps[n]? = some neg) (hkind : neg.incoming = .notFollowedBy)
    (hcounted : Counted pat.steps p) (hz : Zone pat n neg log p) (hc : Checked pat n neg r p) :
    WalkedZone pat n neg (log ++ [.record r]) (advanceOne pat log.length r p).1
      (advanceOne pat log.length r p).2 :=
  advanceOne_induct (P := fun p => Zone pat n neg log p ∧ Checked pat n neg r p) hcounted ⟨hz, hc⟩
    (fun _ _ _ hp h => ⟨hp.1.again h, hp.2.again hneg hkind h⟩)
    fun _ _ _ _ hp h => hp.1.done hneg hkind hp.2 h

theorem zone_empty : Zone pat n neg log {} := by
  refine ⟨?_, ?_, ?_, ?_, ?_⟩
  · simp
  · simp
  · simp
  · intro c hc
    simp at hc
  · intro _ _ c hc
    simp at hc

/-! ## Every run -/

/-- The invariant of a key over runs that respect the negative step. -/
structure ZoneInv (pat : Pattern T) (n : Nat) (neg : Step T) (s : KeyState T) : Prop where
  counted : ∀ p ∈ s.partials, Counted pat.steps p
  zone : ∀ p ∈ s.partials, Zone pat n neg s.log p
  emitted : ∀ e ∈ s.emitted, Negated s.log n neg e.found.matched ∧
    ∀ c ∈ e.found.matched, c.pos < s.log.length

variable {s : KeyState T}

section

variable (hneg : pat.steps[n]? = some neg)
include hneg

theorem ZoneInv.walked (hkind : neg.incoming = .notFollowedBy) (h : ZoneInv pat n neg s)
    (hresp : Respected pat n neg s (.record r)) (hp : Walked pat r s.partials p) :
    WalkedZone pat n neg (s.log ++ [.record r]) (advanceOne pat s.log.length r p).1
      (advanceOne pat s.log.length r p).2 := by
  rcases hp with ⟨hmem, hlive⟩ | rfl
  · refine (h.zone p hmem).advanceOne hneg hkind (h.counted p hmem) ?_
    exact fun hall _ hacc => hresp p hmem hlive hall hacc
  · refine zone_empty.advanceOne hneg hkind (counted_empty pat) ?_
    exact fun _ hne => absurd rfl hne

private theorem ZoneInv.zone_keyStep (hkind : neg.incoming = .notFollowedBy)
    (h : ZoneInv pat n neg s) (hresp : Respected pat n neg s e)
    (hq : q ∈ (keyStep pat s e).partials) : Zone pat n neg (s.log ++ [e]) q := by
  cases e with
  | watermark wm =>
      refine (h.zone q (mem_pruneAt hq)).stay rfl (le_refl _) id fun _ _ r hr => ?_
      exact absurd hr (by simp)
  | record r =>
      obtain ⟨p, hp, hone⟩ := Dispatch.From.advanceForKey.kept q hq
      have hwalk := h.walked hneg hkind hresp hp
      rcases hone with hone | hone <;> rw [hone] at hwalk <;> exact hwalk

private theorem ZoneInv.emitted_keyStep (hkind : neg.incoming = .notFollowedBy)
    (h : ZoneInv pat n neg s) (hresp : Respected pat n neg s e) {m : Emitted T}
    (hm : m ∈ (keyDispatch pat s e).emitted) :
    WalkedZone pat n neg (s.log ++ [e]) .completed m.found := by
  cases e with
  | watermark wm => exact (h.zone _ (pruned_of_emitted hm).1.1).completed rfl
  | record r =>
      rcases Dispatch.From.advanceForKey.emitted m hm with ⟨hmem, -, -⟩ | ⟨p, hp, hone⟩
      · exact (h.zone _ hmem).completed rfl
      · have hwalk := h.walked hneg hkind hresp hp
        rw [hone] at hwalk
        exact hwalk

theorem ZoneInv.keyStep (hkind : neg.incoming = .notFollowedBy) (h : ZoneInv pat n neg s)
    (hresp : Respected pat n neg s e) : ZoneInv pat n neg (keyStep pat s e) := by
  refine ⟨counted_keyStep h.counted, fun q hq => h.zone_keyStep hneg hkind hresp hq,
    fun m hm => ?_⟩
  rcases List.mem_append.mp hm with hold | hnew
  · obtain ⟨hneg', hpos⟩ := h.emitted m hold
    refine ⟨hneg'.grow hpos, fun c hc => ?_⟩
    have hlog : (Cep.keyStep pat s e).log = s.log ++ [e] := rfl
    rw [hlog, List.length_append]
    exact Nat.lt_add_right _ (hpos c hc)
  · exact h.emitted_keyStep hneg hkind hresp hnew

omit hneg in
theorem zoneInv_empty : ZoneInv pat n neg {} := by
  refine ⟨?_, ?_, ?_⟩ <;> simp

/-- The invariant holds after every history whose events respect the negative step. -/
theorem zoneInv_of_allowed (hkind : neg.incoming = .notFollowedBy)
    (hall : Runs.Allowed (Cep.keyStep pat) (fun _ s e => Respected pat n neg s e) [] {} log) :
    ZoneInv pat n neg (log.foldl (Cep.keyStep pat) {}) :=
  (Runs.of_allowed hall).induct (I := fun _ s => ZoneInv pat n neg s) zoneInv_empty
    fun _ _ _ _ h hresp => h.keyStep hneg hkind hresp

end

end Walk

/-- In every run of the operator in which the events that reach a key respect
a negative step, no match of that key has an event satisfying it between the
last one captured before and the first one captured after. -/
theorem negation_holds {K : Type*} [LinearOrder K] (op : CepOperator K T) (es : List (Event T))
    (k : K) {n : Nat} {neg : Step T} (hn : Negation op.pattern n neg)
    (hresp : Runs.Allowed (keyStep op.pattern) (fun _ s e => Respected op.pattern n neg s e) [] {}
      ((es.foldl (step op) {}).keys k).log) :
    ∀ m ∈ ((es.foldl (step op) {}).keys k).emitted,
      Negated ((es.foldl (step op) {}).keys k).log n neg m.found.matched := by
  intro m hm
  have hinv := zoneInv_of_allowed hn.step hn.incoming hresp
  rw [← keys_eq_foldl op es k] at hinv
  exact (hinv.emitted m hm).1

/-- `begin("a").not_followed_by("bad").followed_by("c")`, events being numbers. -/
def aNotBadC : Pattern Nat where
  steps := [{ name := "a", incoming := .begin, predicate := some (· == 0) },
    { name := "bad", incoming := .notFollowedBy, predicate := some (· == 2) },
    { name := "c", incoming := .followedBy, predicate := some (· == 3) }]
  quantified := by decide

def badStep : Step Nat :=
  { name := "bad", incoming := .notFollowedBy, predicate := some (· == 2) }

theorem negation_aNotBadC : Negation aNotBadC 1 badStep :=
  ⟨rfl, rfl, ⟨0, _, rfl, rfl, rfl⟩, ⟨_, rfl, rfl⟩⟩

/-- The operator on that pattern after the events `vs` of one key. -/
def afterEvents (vs : List Nat) : CepState Nat Nat :=
  (vs.map fun v => Event.record ⟨v, none⟩).foldl
    (step { pattern := aNotBadC, keyFn := fun _ => 0 }) {}

/-- The match of `a` and `c` with nothing forbidden between them. -/
theorem negation_holds_a_c : ((afterEvents [0, 1, 3]).keys 0).emitted.length = 1 ∧
    ∀ m ∈ ((afterEvents [0, 1, 3]).keys 0).emitted,
      Negated ((afterEvents [0, 1, 3]).keys 0).log 1 badStep m.found.matched := by
  refine ⟨by decide, ?_⟩
  refine negation_holds { pattern := aNotBadC, keyFn := fun _ => 0 } _ 0 negation_aNotBadC ?_
  have hclean : ∀ s v, v ≠ 2 → Respected aNotBadC 1 badStep s (.record ⟨v, none⟩) := by
    intro s v hv p _ _ _ hacc
    exact absurd (by simpa [evaluateStep, badStep] using hacc) hv
  exact ⟨hclean _ 0 (by decide), hclean _ 1 (by decide), hclean _ 3 (by decide), trivial⟩

/-- Over `a x bad c` the match of `a` and `c` is emitted although `bad` lies
between them: `x` moved the partial past the negative step. -/
theorem bad_event_between : aNotBadC.validate = none ∧ Negation aNotBadC 1 badStep ∧
    ∃ m ∈ ((afterEvents [0, 1, 2, 3]).keys 0).emitted,
      ¬ Negated ((afterEvents [0, 1, 2, 3]).keys 0).log 1 badStep m.found.matched := by
  refine ⟨by decide, ⟨rfl, rfl, ⟨0, _, rfl, rfl, rfl⟩, ⟨_, rfl, rfl⟩⟩, _,
    List.mem_of_getElem? (i := 0) rfl, fun h => ?_⟩
  have hrejected := h _ rfl _ rfl 2 ⟨2, none⟩ (by decide) (by decide) rfl
  exact absurd hrejected (by decide)

end Clink.Ports.Cep

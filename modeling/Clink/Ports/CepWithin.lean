import Clink.Ports.CepNegation

/-!
# The time bounds of a pattern

`within` bounds the event-time span of a match and decides when a trailing
`not_followed_by` has held; `state_ttl` bounds how long a partial is kept
(`include/clink/cep/pattern.hpp`, `include/clink/cep/cep_operator.hpp`).  Both
are enforced per record, against the start of a partial, and per watermark,
against a cutoff below the watermark.

The two checks bound a match, justify an emitted negation and justify an
eviction as long as no event reaches one of their gaps (`Timely`): a record
behind the start of an open partial, an idle watermark or one whose cutoff
wraps, and a watermark between the retention bound and the window's end.
-/

namespace Clink.Ports.Cep

open Clink.Ports.Time Clink.Verified

variable {T : Type*}

/-- A record, or a watermark that is not idle, past the time `t`. -/
def PastEvent (t : Int) : KeyEvent T → Prop
  | .record r => ∃ ts, r.eventTime = some ts ∧ t < ts.millis
  | .watermark wm => wm.isIdle = false ∧ t < wm.timestamp.millis

/-- The event times of a match lie within `w` of each other. -/
def Spans (w : Int) (matched : List (Captured T)) : Prop :=
  matched.Pairwise fun c d => c.ts - d.ts ≤ w ∧ d.ts - c.ts ≤ w

/-- A match that ends in the negative step is emitted at an event past its
window and after its last capture, and nothing processed between the two
satisfied the step. -/
def Held (w : Int) (log : List (KeyEvent T)) (neg : Step T) (m : PartialMatch T) : Prop :=
  ∃ j e, log[j]? = some e ∧ PastEvent (m.startTs + w) e ∧
    ∀ c ∈ m.matched.getLast?, c.pos < j ∧ ∀ i r, c.pos < i → i < j →
      log[i]? = some (.record r) → evaluateStep neg r.value m.matched = false

/-- The last step of the pattern is a `not_followed_by`. -/
structure Trailing (pat : Pattern T) (n : Nat) (neg : Step T) : Prop where
  last : n + 1 = pat.steps.length
  step : pat.steps[n]? = some neg
  incoming : neg.incoming = .notFollowedBy

/-- An event that stays clear of the gaps of the two checks.  A record carries
an event time and is not behind the start of an open partial, nor so far ahead
that the difference wraps.  A watermark evicts only when it is not idle and its
cutoff does not wrap, and finds no pending negation whose retention bound it
has passed but whose window it has not. -/
def Timely (pat : Pattern T) (w : Int) (s : KeyState T) : KeyEvent T → Prop
  | .record r => ∃ ts, r.eventTime = some ts ∧ ∀ p ∈ s.partials, p.matched ≠ [] →
      p.startTs ≤ ts.millis ∧ ts.millis - p.startTs < 2 ^ 63
  | .watermark wm => ∀ bound, pat.evictionBound = some bound → ∀ p ∈ s.partials,
      sub64 wm.timestamp.millis bound = wm.timestamp.millis - bound ∧
      (p.startTs < wm.timestamp.millis - bound → wm.isIdle = false) ∧
      (isPendingTrailingNegative pat p = true →
        ¬ (p.startTs + bound < wm.timestamp.millis ∧ wm.timestamp.millis ≤ p.startTs + w))

/-- No record that satisfies a trailing negation is consumed by a `not_next`
before it, with everything before it captured. -/
def TrailingRespected (pat : Pattern T) (s : KeyState T) (e : KeyEvent T) : Prop :=
  ∀ n neg, Trailing pat n neg → Respected pat n neg s e

/-! ## The span of a partial -/

/-- Everything captured lies between the start and the end of the window. -/
structure InWindow (w : Int) (p : PartialMatch T) : Prop where
  head : ∀ c ∈ p.matched.head?, c.ts = p.startTs
  tail : ∀ c ∈ p.matched.tail, p.startTs ≤ c.ts ∧ c.ts ≤ p.startTs + w

section Window

variable {pat : Pattern T} {w : Int} {p q : PartialMatch T} {r : Record T} {pos : Nat}

theorem inWindow_empty : InWindow w ({} : PartialMatch T) := by
  refine ⟨?_, ?_⟩ <;> simp

theorem InWindow.spans (h : InWindow w p) : Spans w p.matched := by
  unfold Spans
  cases hm : p.matched with
  | nil => exact List.Pairwise.nil
  | cons c rest =>
      have hstart : c.ts = p.startTs := h.head c (by rw [hm]; rfl)
      have hrest : ∀ d ∈ rest, p.startTs ≤ d.ts ∧ d.ts ≤ p.startTs + w := fun d hd =>
        h.tail d (by rw [hm]; exact hd)
      refine List.pairwise_cons.mpr ⟨fun d hd => ?_, ?_⟩
      · obtain ⟨hlo, hhi⟩ := hrest d hd
        omega
      · refine List.pairwise_of_forall_mem_list fun d hd d' hd' => ?_
        obtain ⟨hlo, hhi⟩ := hrest d hd
        obtain ⟨hlo', hhi'⟩ := hrest d' hd'
        omega

theorem InWindow.of_extends (h : InWindow w p) (hext : Extends pos r p q)
    (hr : p.matched ≠ [] → p.startTs ≤ r.eventTs ∧ r.eventTs ≤ p.startTs + w) : InWindow w q := by
  rcases hext with ⟨hm, hs⟩ | ⟨name, i, hm, hs⟩
  · refine ⟨?_, ?_⟩ <;> rw [hm, hs]
    · exact h.head
    · exact h.tail
  · cases hp : p.matched with
    | nil =>
        rw [hp] at hm hs
        refine ⟨?_, ?_⟩ <;> rw [hm]
        · intro c hc
          rw [hs, ← Option.some.inj hc]
          rfl
        · exact fun c hc => absurd hc List.not_mem_nil
    | cons c rest =>
        rw [hp] at hm hs
        refine ⟨?_, ?_⟩ <;> rw [hm, hs]
        · intro c' hc'
          exact h.head c' (by rw [hp]; exact hc')
        · intro c' hc'
          rcases List.mem_append.mp hc' with hold | hnew
          · exact h.tail c' (by rw [hp]; exact hold)
          · rw [List.mem_singleton.mp hnew]
            exact hr (by rw [hp]; exact List.cons_ne_nil _ _)

/-- A record a live partial is walked over lies in its window. -/
theorem in_window_of_live {ts : EventTime} (hw : pat.within = some w)
    (hts : r.eventTime = some ts) (hlive : expiresAt pat r p = false) (hne : p.matched ≠ [])
    (hr : p.startTs ≤ ts.millis ∧ ts.millis - p.startTs < 2 ^ 63) :
    p.startTs ≤ r.eventTs ∧ r.eventTs ≤ p.startTs + w := by
  have hev : r.eventTs = ts.millis := by rw [Record.eventTs, hts]; rfl
  have hsub : sub64 ts.millis p.startTs = ts.millis - p.startTs :=
    sub64_eq (by omega) (by omega)
  have hle : ¬ w < ts.millis - p.startTs := by
    intro hlt
    simp [expiresAt, hw, hts, hne, hsub, hlt] at hlive
  omega

theorem past_of_expired {ts : EventTime} (hw : pat.within = some w)
    (hts : r.eventTime = some ts) (hexp : expiresAt pat r p = true)
    (hr : p.matched ≠ [] → p.startTs ≤ ts.millis ∧ ts.millis - p.startTs < 2 ^ 63) :
    PastEvent (p.startTs + w) (.record r) := by
  simp only [expiresAt, hw, hts, Bool.and_eq_true, Bool.not_eq_true', List.isEmpty_eq_false_iff,
    decide_eq_true_eq] at hexp
  obtain ⟨hne, hlt⟩ := hexp
  obtain ⟨hlo, hhi⟩ := hr hne
  rw [sub64_eq (by omega) (by omega)] at hlt
  exact ⟨ts, hts, by omega⟩

theorem bound_le {bound : Int} (hw : pat.within = some w) (hb : pat.evictionBound = some bound) :
    bound ≤ w := by
  unfold Pattern.evictionBound at hb
  cases httl : pat.stateTtl with
  | none =>
      rw [hw, httl] at hb
      exact le_of_eq (Option.some.inj hb).symm
  | some ttl =>
      rw [hw, httl] at hb
      rw [← Option.some.inj hb]
      exact min_le_left _ _

theorem PastEvent.mono {t t' : Int} {e : KeyEvent T} (h : PastEvent t e) (hle : t' ≤ t) :
    PastEvent t' e := by
  cases e with
  | record r =>
      obtain ⟨ts, hts, hlt⟩ := h
      exact ⟨ts, hts, by omega⟩
  | watermark wm => exact ⟨h.1, by have := h.2; omega⟩

end Window

/-! ## Trailing negations -/

section Trailing

variable {pat : Pattern T} {w : Int} {n : Nat} {neg : Step T} {p q : PartialMatch T}
  {r : Record T} {pos : Nat} {log : List (KeyEvent T)} {e : KeyEvent T}

/-- A pattern that ends in a `not_followed_by` never completes on a record. -/
theorem Trailing.not_completed (ht : Trailing pat n neg) (hp : Counted pat.steps p)
    (hlt : p.currentStep < pat.steps.length) : (advanceOne pat pos r p).1 ≠ .completed := by
  refine advanceOne_induct (P := fun p => p.currentStep < pat.steps.length)
    (Q := fun o _ => o ≠ .completed) hp hlt ?_ ?_
  · intro p q _ _ h
    obtain ⟨rfl, hnext⟩ := h.again_eq
    exact hnext
  · intro p o q _ hlt h
    have hlastStep : ∀ step, pat.steps[p.currentStep]? = some step →
        p.currentStep + 1 = pat.steps.length → step.incoming = .notFollowedBy := by
      intro step hstep hlast
      have heq : p.currentStep = n := by have := ht.last; omega
      rw [heq] at hstep
      obtain rfl : step = neg := by simpa [hstep] using ht.step
      exact ht.incoming
    cases h with
    | offEnd hcur => omega
    | violated _ _ _ _ | pending _ _ _ _ _ | consumed _ _ _ _ _ | captured _ _ _ _ _
    | filled _ _ _ _ _ _ | broken _ _ _ _ _ _ | waited _ _ _ _ _ _ => simp
    | consumedLast step hstep hneg hlast _ =>
        have := hneg.symm.trans (hlastStep step hstep hlast)
        exact absurd this (by decide)
    | filledLast step hstep hpos _ _ hlast | ended step hstep hpos _ _ hlast =>
        rw [hlastStep step hstep hlast] at hpos
        exact absurd hpos (by decide)

/-- A pending partial has met nothing forbidden since its last capture. -/
theorem Zone.clear_of_pending (ht : Trailing pat n neg) (hz : Zone pat n neg log p)
    (hpend : isPendingTrailingNegative pat p = true) : ClearSince log neg p.matched := by
  have hcur : p.currentStep = n := by
    simp only [isPendingTrailingNegative, Bool.and_eq_true, decide_eq_true_eq] at hpend
    have := ht.last
    omega
  refine hz.clear (fun c hc => ?_) fun j _ hle hlt => ?_
  · have hle := hz.step_le c hc
    have hne := hz.step_ne c hc
    omega
  · omega

theorem Held.grow (h : Held w log neg p) : Held w (log ++ [e]) neg p := by
  obtain ⟨j, e', hj, hpast, hclear⟩ := h
  have hlt := (List.getElem?_eq_some_iff.mp hj).1
  refine ⟨j, e', ?_, hpast, fun c hc => ⟨(hclear c hc).1, fun i r hci hij hi => ?_⟩⟩
  · rw [List.getElem?_append_left hlt]
    exact hj
  · rw [List.getElem?_append_left (by omega)] at hi
    exact (hclear c hc).2 i r hci hij hi

/-- A pending partial let go at an event past its window has held. -/
theorem Zone.held (ht : Trailing pat n neg) (hz : Zone pat n neg log p)
    (hpend : isPendingTrailingNegative pat p = true) (hpast : PastEvent (p.startTs + w) e) :
    Held w (log ++ [e]) neg p := by
  refine ⟨log.length, e, List.getElem?_concat_length, hpast, fun c hc => ⟨?_, ?_⟩⟩
  · exact hz.pos_lt c (List.mem_of_getLast? hc)
  · intro i r hci hij hi
    rw [List.getElem?_append_left hij] at hi
    exact hz.clear_of_pending ht hpend c hc i r hci hi

end Trailing

/-! ## Every run -/

/-- Evicted only at an event past the retention bound. -/
def Outlived (pat : Pattern T) (log : List (KeyEvent T)) (p : PartialMatch T) : Prop :=
  ∃ bound, pat.evictionBound = some bound ∧
    ∃ (j : Nat) (e : KeyEvent T), log[j]? = some e ∧ PastEvent (p.startTs + bound) e

/-- The invariant of a key over timely runs. -/
structure WithinInv (pat : Pattern T) (w : Int) (s : KeyState T) : Prop where
  counted : ∀ p ∈ s.partials, Counted pat.steps p
  inRange : ∀ p ∈ s.partials, p.currentStep < pat.steps.length
  inWindow : ∀ p ∈ s.partials, InWindow w p
  zone : ∀ n neg, Trailing pat n neg → ZoneInv pat n neg s
  spans : ∀ m ∈ s.emitted, Spans w m.found.matched
  held : ∀ n neg, Trailing pat n neg → ∀ m ∈ s.emitted, Held w s.log neg m.found
  outlived : ∀ p ∈ s.timedOut, Outlived pat s.log p

namespace WithinInv

variable {pat : Pattern T} {w : Int} {s : KeyState T} {r : Record T} {e : KeyEvent T}
  {p q : PartialMatch T} {m : Emitted T}

theorem counted_walked (h : WithinInv pat w s) (hp : Walked pat r s.partials p) :
    Counted pat.steps p := by
  rcases hp with ⟨hmem, -⟩ | rfl
  · exact h.counted p hmem
  · exact counted_empty pat

theorem inWindow_walked (h : WithinInv pat w s) (hw : pat.within = some w)
    (htime : Timely pat w s (.record r)) (hp : Walked pat r s.partials p) :
    InWindow w (advanceOne pat s.log.length r p).2 := by
  have hext : Extends s.log.length r p (advanceOne pat s.log.length r p).2 :=
    extends_advanceOne (h.counted_walked hp)
  rcases hp with ⟨hmem, hlive⟩ | rfl
  · obtain ⟨ts, hts, hall⟩ := htime
    exact (h.inWindow p hmem).of_extends hext fun hne =>
      in_window_of_live hw hts hlive hne (hall p hmem hne)
  · exact inWindow_empty.of_extends hext fun hne => absurd rfl hne

theorem kept (h : WithinInv pat w s) (hw : pat.within = some w) (htime : Timely pat w s e)
    (hq : q ∈ (keyStep pat s e).partials) :
    q.currentStep < pat.steps.length ∧ InWindow w q := by
  cases e with
  | watermark wm =>
      have hmem := mem_pruneAt hq
      exact ⟨h.inRange q hmem, h.inWindow q hmem⟩
  | record r =>
      obtain ⟨p, hp, hone⟩ := Dispatch.From.advanceForKey.kept q hq
      have hwin := h.inWindow_walked hw htime hp
      rcases hone with hone | hone
      · rw [hone] at hwin
        exact ⟨lt_length_advanceOne (h.counted_walked hp) hone (.inl rfl), hwin⟩
      · rw [hone] at hwin
        exact ⟨lt_length_advanceOne (h.counted_walked hp) hone (.inr rfl), hwin⟩

theorem past_of_pruned {wm : Watermark} (htime : Timely pat w s (.watermark wm))
    (hp : Pruned pat wm s.partials p) : ∃ bound, pat.evictionBound = some bound ∧
      PastEvent (p.startTs + bound) (.watermark wm : KeyEvent T) := by
  obtain ⟨hmem, bound, hbound, hlt⟩ := hp
  obtain ⟨hexact, hidle, -⟩ := htime bound hbound p hmem
  rw [hexact] at hlt
  exact ⟨bound, hbound, hidle hlt, by omega⟩

private theorem held_of_emitted (h : WithinInv pat w s) (hw : pat.within = some w)
    (htime : Timely pat w s e) {n : Nat} {neg : Step T} (ht : Trailing pat n neg)
    (hm : m ∈ (keyDispatch pat s e).emitted) : Held w (s.log ++ [e]) neg m.found := by
  cases e with
  | watermark wm =>
      obtain ⟨hpruned, hpend⟩ := pruned_of_emitted hm
      obtain ⟨bound, hbound, hidle, hlt⟩ := past_of_pruned htime hpruned
      have hgap := (htime bound hbound _ hpruned.1).2.2 hpend
      exact ((h.zone n neg ht).zone _ hpruned.1).held ht hpend ⟨hidle, by omega⟩
  | record r =>
      rcases Dispatch.From.advanceForKey.emitted m hm with ⟨hmem, hexp, hpend⟩ | ⟨p, hp, hone⟩
      · obtain ⟨ts, hts, hall⟩ := htime
        exact ((h.zone n neg ht).zone _ hmem).held ht hpend
          (past_of_expired hw hts hexp (hall _ hmem))
      · have hlt : p.currentStep < pat.steps.length := by
          rcases hp with ⟨hmem, -⟩ | rfl
          · exact h.inRange p hmem
          · rw [← ht.last]
            exact Nat.succ_pos n
        have hnot : (advanceOne pat s.log.length r p).1 ≠ .completed :=
          ht.not_completed (h.counted_walked hp) hlt
        rw [hone] at hnot
        exact absurd rfl hnot

private theorem spans_of_emitted (h : WithinInv pat w s) (hw : pat.within = some w)
    (htime : Timely pat w s e) (hm : m ∈ (keyDispatch pat s e).emitted) :
    Spans w m.found.matched := by
  cases e with
  | watermark wm => exact (h.inWindow _ (pruned_of_emitted hm).1.1).spans
  | record r =>
      rcases Dispatch.From.advanceForKey.emitted m hm with ⟨hmem, -, -⟩ | ⟨p, hp, hone⟩
      · exact (h.inWindow _ hmem).spans
      · have hwin := h.inWindow_walked hw htime hp
        rw [hone] at hwin
        exact hwin.spans

private theorem outlived_of_timedOut (hw : pat.within = some w) (htime : Timely pat w s e)
    (hp : p ∈ (keyDispatch pat s e).timedOut) : Outlived pat (s.log ++ [e]) p := by
  have hpast : ∃ bound, pat.evictionBound = some bound ∧ PastEvent (p.startTs + bound) e := by
    cases e with
    | watermark wm => exact past_of_pruned htime (pruned_of_timedOut hp)
    | record r =>
        obtain ⟨hmem, hexp⟩ := Dispatch.From.advanceForKey.timedOut p hp
        obtain ⟨ts, hts, hall⟩ := htime
        obtain ⟨bound, hbound⟩ : ∃ bound, pat.evictionBound = some bound := by
          unfold Pattern.evictionBound
          rw [hw]
          cases pat.stateTtl with
          | none => exact ⟨_, rfl⟩
          | some ttl => exact ⟨_, rfl⟩
        refine ⟨bound, hbound, (past_of_expired hw hts hexp (hall _ hmem)).mono ?_⟩
        have := bound_le hw hbound
        omega
  obtain ⟨bound, hbound, hpast⟩ := hpast
  exact ⟨bound, hbound, s.log.length, e, List.getElem?_concat_length, hpast⟩

theorem keyStep (hw : pat.within = some w) (h : WithinInv pat w s) (htime : Timely pat w s e)
    (hresp : TrailingRespected pat s e) : WithinInv pat w (keyStep pat s e) where
  counted := counted_keyStep h.counted
  inRange q hq := (h.kept hw htime hq).1
  inWindow q hq := (h.kept hw htime hq).2
  zone n neg ht := (h.zone n neg ht).keyStep ht.step ht.incoming (hresp n neg ht)
  spans m hm := by
    rcases List.mem_append.mp hm with hold | hnew
    · exact h.spans m hold
    · exact h.spans_of_emitted hw htime hnew
  held n neg ht m hm := by
    rcases List.mem_append.mp hm with hold | hnew
    · exact (h.held n neg ht m hold).grow
    · exact h.held_of_emitted hw htime ht hnew
  outlived p hp := by
    rcases List.mem_append.mp hp with hold | hnew
    · obtain ⟨bound, hbound, j, e', hj, hpast⟩ := h.outlived p hold
      refine ⟨bound, hbound, j, e', ?_, hpast⟩
      exact (List.getElem?_append_left (List.getElem?_eq_some_iff.mp hj).1).trans hj
    · exact outlived_of_timedOut hw htime hnew

theorem empty : WithinInv pat w {} := by
  refine ⟨?_, ?_, ?_, fun _ _ _ => zoneInv_empty, ?_, ?_, ?_⟩ <;> simp

end WithinInv

/-- In every run of the operator whose events at a key are timely, the event
times of a match lie within `w` of each other, a trailing negation is emitted
only past its window with nothing forbidden since, and a partial times out
only past its retention bound. -/
theorem within_holds {K : Type*} [LinearOrder K] (op : CepOperator K T) (es : List (Event T))
    (k : K) {w : Int} (hw : op.pattern.within = some w)
    (hok : Runs.Allowed (keyStep op.pattern)
      (fun _ s e => Timely op.pattern w s e ∧ TrailingRespected op.pattern s e) [] {}
      ((es.foldl (step op) {}).keys k).log) :
    let s := (es.foldl (step op) {}).keys k
    (∀ m ∈ s.emitted, Spans w m.found.matched) ∧
    (∀ n neg, Trailing op.pattern n neg → ∀ m ∈ s.emitted, Held w s.log neg m.found) ∧
    ∀ p ∈ s.timedOut, Outlived op.pattern s.log p := by
  intro s
  have hinv : WithinInv op.pattern w s := by
    have hrun := (Runs.of_allowed hok).induct (I := fun _ s => WithinInv op.pattern w s) .empty
      fun _ _ _ _ h hstep => h.keyStep hw hstep.1 hstep.2
    rw [← keys_eq_foldl op es k] at hrun
    exact hrun
  exact ⟨hinv.spans, hinv.held, hinv.outlived⟩

/-- `begin("a")` and then a step of the given edge for the event `1`. -/
def aThen (edge : EdgeKind) (within : Int) (stateTtl : Option Int) : Pattern Nat where
  steps := [{ name := "a", incoming := .begin, predicate := some (· == 0) },
    { name := "b", incoming := edge, predicate := some (· == 1) }]
  within := some within
  stateTtl := stateTtl
  quantified := by simp [Step.Quantified]

/-- The operator on a pattern after events of one key. -/
def afterRun (pat : Pattern Nat) (es : List (Event Nat)) : KeyState Nat :=
  (es.foldl (step { pattern := pat, keyFn := fun _ => 0 }) ({} : CepState Nat Nat)).keys 0

/-- `a` is not followed by `b` for 100 ms, which the watermark 200 decides. -/
theorem within_holds_a_not_b :
    let s := afterRun (aThen .notFollowedBy 100 none)
      [.record ⟨0, some ⟨0, by decide, by decide⟩⟩,
        .watermark ⟨⟨200, by decide, by decide⟩, false⟩]
    s.emitted.length = 1 ∧ (∀ m ∈ s.emitted, Spans 100 m.found.matched) ∧
      (∀ n neg, Trailing (aThen .notFollowedBy 100 none) n neg →
        ∀ m ∈ s.emitted, Held 100 s.log neg m.found) ∧
      ∀ p ∈ s.timedOut, Outlived (aThen .notFollowedBy 100 none) s.log p := by
  refine ⟨by decide, within_holds { pattern := aThen .notFollowedBy 100 none, keyFn := fun _ => 0 }
    _ 0 rfl ⟨⟨⟨_, rfl, ?_⟩, ?_⟩, ⟨?_, ?_⟩, trivial⟩⟩
  · exact fun p hp => absurd hp List.not_mem_nil
  · exact fun _ _ _ p hp => absurd hp List.not_mem_nil
  · intro bound hbound p hp
    obtain rfl : (100 : Int) = bound := Option.some.inj hbound
    obtain rfl := List.mem_singleton.mp hp
    exact ⟨by decide, fun _ => rfl, fun _ => by decide⟩
  · exact fun _ _ _ => trivial

/-- Three valid patterns and runs that break the bounds: a record behind the
start of a partial completes a match 50 ms wide within 10; a watermark past the
retention bound emits a negation whose window is open; an idle watermark times
a partial out. -/
theorem bounds_broken :
    (let pat := aThen .followedBy 10 none
      let s := afterRun pat [.record ⟨0, some ⟨100, by decide, by decide⟩⟩,
        .record ⟨1, some ⟨50, by decide, by decide⟩⟩]
      pat.validate = none ∧ ∃ m ∈ s.emitted, ¬ Spans 10 m.found.matched) ∧
    (let pat := aThen .notFollowedBy 100 (some 10)
      let s := afterRun pat [.record ⟨0, some ⟨0, by decide, by decide⟩⟩,
        .watermark ⟨⟨50, by decide, by decide⟩, false⟩]
      pat.validate = none ∧ ∃ m ∈ s.emitted,
        ¬ ∃ e ∈ s.log, PastEvent (m.found.startTs + 100) e) ∧
    (let pat := aThen .followedBy 10 none
      let s := afterRun pat [.record ⟨0, some ⟨0, by decide, by decide⟩⟩,
        .watermark ⟨⟨100, by decide, by decide⟩, true⟩]
      pat.validate = none ∧ ∃ p ∈ s.timedOut,
        ¬ ∃ e ∈ s.log, PastEvent (p.startTs + 10) e) := by
  refine ⟨⟨by decide, _, List.mem_of_getElem? (i := 0) rfl, ?_⟩,
    ⟨by decide, _, List.mem_of_getElem? (i := 0) rfl, ?_⟩,
    ⟨by decide, _, List.mem_of_getElem? (i := 0) rfl, ?_⟩⟩
  · intro hspan
    exact absurd ((List.pairwise_cons.mp hspan).1 _ (List.mem_of_getElem? (i := 0) rfl)).1
      (by decide)
  · rintro ⟨e, he, hpast⟩
    rcases List.mem_pair.mp he with rfl | rfl
    · obtain ⟨ts, hts, hlt⟩ := hpast
      rw [← Option.some.inj hts] at hlt
      exact absurd hlt (by decide)
    · exact absurd hpast.2 (by decide)
  · rintro ⟨e, he, hpast⟩
    rcases List.mem_pair.mp he with rfl | rfl
    · obtain ⟨ts, hts, hlt⟩ := hpast
      rw [← Option.some.inj hts] at hlt
      exact absurd hlt (by decide)
    · exact absurd hpast.1 (by decide)

end Clink.Ports.Cep

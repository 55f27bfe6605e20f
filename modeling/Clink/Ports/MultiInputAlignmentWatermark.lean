import Clink.Ports.MultiInputAlignmentEffects

/-!
# The watermark of a fan-in

The one invariant is `floor`: the watermark emitted last is at most the
recorded watermark of every input.  An idle or closed input is recorded at the
end of time, a re-joining or new one at the emitted watermark, so every path
keeps it, and with it the forced emission after an all-idle phase needs no
comparison to be monotone.

Barrier calls do not touch time (`SameTime`), so the results hold for every
mix of calls, whatever the operator captures.
-/

namespace Clink.Ports.MultiInputAlignment

open Clink.Verified
open Clink.Ports.Time

variable {n : Nat} {captures : Bool} {es : List Call} {c : Call} {a a' : Alignment} {i j : Nat}

/-! ## Barrier calls do not touch time -/

/-- The fields the watermark is computed from are unchanged. -/
structure SameTime (a a' : Alignment) : Prop where
  inputCount : a'.inputCount = a.inputCount
  inputWm : a'.inputWm = a.inputWm
  closed : a'.closed = a.closed
  cancelledClose : a'.cancelledClose = a.cancelledClose
  drained : a'.drained = a.drained
  idle : a'.idle = a.idle
  emittedWm : a'.emittedWm = a.emittedWm
  lastEmittedIdle : a'.lastEmittedIdle = a.lastEmittedIdle

namespace SameTime

theorem refl (a : Alignment) : SameTime a a := ⟨rfl, rfl, rfl, rfl, rfl, rfl, rfl, rfl⟩

theorem trans {a'' : Alignment} (h : SameTime a a') (h' : SameTime a' a'') : SameTime a a'' :=
  ⟨h'.inputCount.trans h.inputCount, h'.inputWm.trans h.inputWm, h'.closed.trans h.closed,
    h'.cancelledClose.trans h.cancelledClose, h'.drained.trans h.drained, h'.idle.trans h.idle,
    h'.emittedWm.trans h.emittedWm, h'.lastEmittedIdle.trans h.lastEmittedIdle⟩

theorem foldl {f : Alignment → Nat → Alignment} (hf : ∀ a x, SameTime a (f a x))
    (xs : List Nat) (a : Alignment) : SameTime a (xs.foldl f a) := by
  induction xs generalizing a with
  | nil => exact refl a
  | cons x xs ih => exact (hf a x).trans (ih (f a x))

theorem maybeDropSeen (a : Alignment) (id : Nat) : SameTime a (a.maybeDropSeen id) := by
  unfold Alignment.maybeDropSeen
  cases a.seenBarriers.lookup id with
  | none => exact refl a
  | some flags =>
      dsimp only
      split_ifs
      · exact ⟨rfl, rfl, rfl, rfl, rfl, rfl, rfl, rfl⟩
      · exact refl a

theorem checkAlignment (a : Alignment) (id : Nat) : SameTime a (a.checkAlignment id).1 := by
  unfold Alignment.checkAlignment
  cases a.seenBarriers.lookup id with
  | none => exact refl a
  | some flags =>
      dsimp only
      split_ifs <;> exact ⟨rfl, rfl, rfl, rfl, rfl, rfl, rfl, rfl⟩

theorem recordSeen (a : Alignment) (i : Nat) (b : CheckpointBarrier) :
    SameTime a (a.recordSeen i b) := by
  unfold Alignment.recordSeen
  dsimp only
  split_ifs <;> exact ⟨rfl, rfl, rfl, rfl, rfl, rfl, rfl, rfl⟩

theorem deliver (a : Alignment) (i : Nat) (b : CheckpointBarrier) :
    SameTime a (a.deliver i b).1 := by
  have hrec := recordSeen a i b
  have hpause : SameTime (a.recordSeen i b)
      { a.recordSeen i b with paused := setAt (a.recordSeen i b).paused i true } :=
    ⟨rfl, rfl, rfl, rfl, rfl, rfl, rfl, rfl⟩
  unfold Alignment.deliver
  dsimp only
  split_ifs
  · exact hrec.trans (maybeDropSeen _ b.id)
  · exact hrec
  · exact (hrec.trans hpause).trans (checkAlignment _ b.id)

theorem pass (a : Alignment) (i ck : Nat) : SameTime a (a.pass i ck) := by
  have hdrop : ∀ (a : Alignment) (id : Nat), SameTime a (a.dropPending id) :=
    fun a id => ⟨rfl, rfl, rfl, rfl, rfl, rfl, rfl, rfl⟩
  have hset : SameTime a { a with passed := setAt a.passed i ck } :=
    ⟨rfl, rfl, rfl, rfl, rfl, rfl, rfl, rfl⟩
  exact hset.trans (foldl hdrop _ _)

theorem onBarrier (a : Alignment) (i : Nat) (b : CheckpointBarrier) :
    SameTime a (a.onBarrier i b).1 := by
  have hnote : ∀ a : Alignment, SameTime a a.noteSkipped :=
    fun a => ⟨rfl, rfl, rfl, rfl, rfl, rfl, rfl, rfl⟩
  unfold Alignment.onBarrier
  dsimp only
  split_ifs
  · exact deliver a i b
  · exact hnote a
  · exact (pass a i b.id).trans (hnote _)
  · exact (pass a i b.id).trans (deliver _ i b)

theorem closeLoop (a : Alignment) (order : List Nat) : SameTime a (a.closeLoop order).1 := by
  induction order generalizing a with
  | nil => exact refl a
  | cons id ids ih =>
      unfold Alignment.closeLoop
      split_ifs
      · exact (maybeDropSeen a id).trans (ih _)
      · exact checkAlignment a id
      · exact (checkAlignment a id).trans (ih _)

end SameTime

/-! ## Recomputing -/

/-- What `recompute_watermark_` comes to. -/
inductive Recomputes (a : Alignment) : Alignment × WatermarkAdvance → Prop
  | quiet : Recomputes a (a, {})
  /-- Every alive input is idle. -/
  | idle (halive : ∃ j < a.inputCount, a.closed j = false)
      (hidle : ∀ j < a.inputCount, a.closed j = false → a.idle j = true) :
      Recomputes a ({ a with lastEmittedIdle := true },
        { forward := true, watermark := .idle a.emittedWm.timestamp })
  /-- The smallest recorded watermark, which moved or follows an idle phase. -/
  | active {current : Watermark}
      (hle : ∀ j < a.inputCount, current.timestamp ≤ (a.inputWm j).timestamp)
      (hmem : ∃ j < a.inputCount, a.inputWm j = current)
      (hmoved : a.lastEmittedIdle = true ∨ a.emittedWm.timestamp < current.timestamp)
      (hopen : (∃ j < a.inputCount, a.closed j = false) ∨
        ∀ j < a.inputCount, a.cancelledClose j = false) :
      Recomputes a ({ a with lastEmittedIdle := false, emittedWm := current },
        { forward := true, watermark := current })

private theorem idle_of_not_anyAliveActive (h : a.anyAliveActive = false) :
    ∀ j < a.inputCount, a.closed j = false → a.idle j = true := by
  intro j hj hc
  rw [Alignment.anyAliveActive, List.any_eq_false] at h
  have hactive := h j (List.mem_range.mpr hj)
  simpa [hc] using hactive

private theorem open_or_finished
    (h : ¬ (!a.anyAlive && (List.range a.inputCount).any a.cancelledClose) = true) :
    (∃ j < a.inputCount, a.closed j = false) ∨
      ∀ j < a.inputCount, a.cancelledClose j = false := by
  by_cases halive : a.anyAlive = true
  · left
    simpa [Alignment.anyAlive] using halive
  · right
    simpa [halive] using h

theorem recomputes_recomputeWatermark (a : Alignment) :
    Recomputes a a.recomputeWatermark := by
  unfold Alignment.recomputeWatermark
  by_cases hidle : (a.anyAlive && !a.anyAliveActive) = true
  · rw [if_pos hidle]
    have hboth : a.anyAlive = true ∧ a.anyAliveActive = false := by simpa using hidle
    have halive : ∃ j < a.inputCount, a.closed j = false := by
      simpa [Alignment.anyAlive] using hboth.1
    have hall := idle_of_not_anyAliveActive hboth.2
    by_cases hlast : (!a.lastEmittedIdle) = true
    · rw [if_pos hlast]
      exact .idle halive hall
    · rw [if_neg hlast]
      exact .quiet
  rw [if_neg hidle]
  by_cases hcancel : (!a.anyAlive && (List.range a.inputCount).any a.cancelledClose) = true
  · rw [if_pos hcancel]
    exact .quiet
  rw [if_neg hcancel]
  have hopen := open_or_finished hcancel
  cases hmap : (List.range a.inputCount).map a.inputWm with
  | nil => exact .quiet
  | cons first rest =>
      have hspec := Watermark.minElement_spec first rest
      rw [← hmap] at hspec
      have hle : ∀ j < a.inputCount,
          (Watermark.minElement first rest).timestamp ≤ (a.inputWm j).timestamp := by
        intro j hj
        exact hspec.2 _ (List.mem_map_of_mem (List.mem_range.mpr hj))
      have hmem : ∃ j < a.inputCount, a.inputWm j = Watermark.minElement first rest := by
        have h := List.mem_map.mp hspec.1
        simpa using h
      dsimp only
      by_cases hforce : a.lastEmittedIdle = true
      · rw [if_pos hforce]
        exact .active hle hmem (.inl hforce) hopen
      rw [if_neg hforce]
      by_cases hmoved : (Watermark.minElement first rest).timestamp > a.emittedWm.timestamp
      · rw [if_pos hmoved]
        have heq : a.lastEmittedIdle = false := by simpa using hforce
        have h := Recomputes.active hle hmem (.inr hmoved) hopen
        rw [← heq] at h
        exact h
      · rw [if_neg hmoved]
        exact .quiet

/-- An all-closed set with a cut-short input says nothing. -/
theorem recomputeWatermark_of_cut (hall : ∀ j < a.inputCount, a.closed j = true)
    (hcut : ∃ j < a.inputCount, a.cancelledClose j = true) :
    a.recomputeWatermark.2.forward = false := by
  have hr := recomputes_recomputeWatermark a
  have hdead : ¬ ∃ j < a.inputCount, a.closed j = false := by
    intro hex
    rcases hex with ⟨j, hj, hopen⟩
    rw [hall j hj] at hopen
    exact absurd hopen (by simp)
  cases hrec : a.recomputeWatermark
  rw [hrec] at hr
  cases hr with
  | quiet => rfl
  | idle halive _ => exact absurd halive hdead
  | active _ _ _ hopen =>
      rcases hcut with ⟨j, hj, hcut⟩
      rw [hopen.resolve_left hdead j hj] at hcut
      exact absurd hcut (by simp)

/-! ## Histories -/

/-- The watermarks input `j` delivered, in order. -/
def watermarksBy (j : Nat) (es : List Call) : List Watermark :=
  es.filterMap fun
    | .watermark i wm => if i = j then some wm else none
    | _ => none

/-- The watermarks the aligner told its runner to forward, in order. -/
def forwardedWatermarks (n : Nat) (captures : Bool) (es : List Call) : List Watermark :=
  ((answers next answer (.ofInputs n captures) es).filter fun r => r.watermark.forward).map
    fun r => r.watermark.watermark

/-- The call names an input there is. -/
def Valid (_ : List Call) (a : Alignment) : Call → Prop
  | .barrier i _ => i < a.inputCount
  | .watermark i _ => i < a.inputCount
  | .drain i => i < a.inputCount
  | .rows i => i < a.inputCount
  | .inputClosed i _ _ => i < a.inputCount
  | .refreshWatermark => True
  | .addInput => True

/-- Input `j` is open and has never been idle. -/
def Steady (es : List Call) (a : Alignment) (j : Nat) : Prop :=
  a.closed j = false ∧ ∀ wm ∈ watermarksBy j es, wm.isIdle = false

/-- Input `j` closed by cancellation, or after a drain marker. -/
def CutShort (n : Nat) (captures : Bool) (es : List Call) (j : Nat) : Prop :=
  ∃ pre cancelled order post, es = pre ++ .inputClosed j cancelled order :: post ∧
    (pre.foldl next (.ofInputs n captures)).closed j = false ∧
    (cancelled = true ∨ .drain j ∈ pre)

/-- What the fields of time mean, in terms of the calls made. -/
structure Timed (n : Nat) (captures : Bool) (es : List Call) (a : Alignment) : Prop where
  members : n ≤ a.inputCount
  floor : ∀ j < a.inputCount, a.emittedWm.timestamp ≤ (a.inputWm j).timestamp
  steady : ∀ j < n, Steady es a j → a.idle j = false ∧ a.lastEmittedIdle = false ∧
    (a.inputWm j = .min ∨ a.inputWm j ∈ watermarksBy j es)
  drained : ∀ j, .drain j ∈ es → j < a.inputCount ∧ a.drained j = true
  cut : ∀ j, CutShort n captures es j →
    j < a.inputCount ∧ a.closed j = true ∧ a.cancelledClose j = true

theorem watermarksBy_snoc (j : Nat) (es : List Call) (c : Call) :
    watermarksBy j (es ++ [c]) = watermarksBy j es ++ watermarksBy j [c] := by
  rw [watermarksBy, List.filterMap_append]
  rfl

theorem CutShort.of_snoc (h : CutShort n captures (es ++ [c]) j) :
    CutShort n captures es j ∨
      ∃ cancelled order, c = .inputClosed j cancelled order ∧
        (es.foldl next (.ofInputs n captures)).closed j = false ∧
        (cancelled = true ∨ .drain j ∈ es) := by
  rcases h with ⟨pre, cancelled, order, post, heq, hclosed, hcut⟩
  rcases List.eq_nil_or_concat post with hpost | ⟨post', d, hpost⟩
  · rw [hpost] at heq
    have hboth := List.append_inj' heq rfl
    rw [← hboth.1] at hclosed hcut
    have hc : c = .inputClosed j cancelled order := by simpa using hboth.2
    exact .inr ⟨cancelled, order, hc, hclosed, hcut⟩
  · rw [hpost, List.concat_eq_append, ← List.cons_append, ← List.append_assoc] at heq
    have hboth := List.append_inj' heq rfl
    exact .inl ⟨pre, cancelled, order, post', hboth.1, hclosed, hcut⟩

/-! ## One call -/

section

variable (h : Timed n captures es a)
include h

theorem Timed.snoc_same (hstate : es.foldl next (.ofInputs n captures) = a)
    (hsame : SameTime a a') (hwm : ∀ j, watermarksBy j [c] = []) (hdrain : ∀ j, c ≠ .drain j)
    (hclose : ∀ j cancelled order, c = .inputClosed j cancelled order → a.closed j = true) :
    Timed n captures (es ++ [c]) a' where
  members := by
    rw [hsame.inputCount]
    exact h.members
  floor := by
    rw [hsame.inputCount, hsame.emittedWm, hsame.inputWm]
    exact h.floor
  steady j hj hs := by
    rw [Steady, watermarksBy_snoc, hwm, List.append_nil, hsame.closed] at hs
    rw [hsame.idle, hsame.lastEmittedIdle, hsame.inputWm, watermarksBy_snoc, hwm, List.append_nil]
    exact h.steady j hj hs
  drained j hj := by
    rw [hsame.inputCount, hsame.drained]
    refine h.drained j ((List.mem_append.mp hj).resolve_right fun hmem => ?_)
    exact hdrain j (List.mem_singleton.mp hmem).symm
  cut j hj := by
    rw [hsame.inputCount, hsame.closed, hsame.cancelledClose]
    rcases hj.of_snoc with hj | ⟨cancelled, order, hc, hopen, -⟩
    · exact h.cut j hj
    · have hclosed := hclose j cancelled order hc
      rw [hstate, hclosed] at hopen
      exact absurd hopen (by simp)

theorem Timed.drain (hi : i < a.inputCount) :
    Timed n captures (es ++ [.drain i]) (a.onDrain i) where
  members := h.members
  floor := h.floor
  steady j hj hs := by
    rw [Steady, watermarksBy_snoc] at hs
    rw [watermarksBy_snoc]
    simp only [watermarksBy, List.filterMap_cons, List.filterMap_nil, List.append_nil] at hs ⊢
    exact h.steady j hj hs
  drained j hj := by
    rcases List.mem_append.mp hj with hj | hj
    · have hold := h.drained j hj
      constructor
      · exact hold.1
      · show setAt a.drained i true j = true
        by_cases hji : j = i
        · rw [hji, setAt_self]
        · rw [setAt_ne _ _ hji]
          exact hold.2
    · have hji : j = i := by simpa using hj
      rw [hji]
      exact ⟨hi, setAt_self _ _ _⟩
  cut j hj := by
    rcases hj.of_snoc with hj | ⟨_, _, hc, -⟩
    · exact h.cut j hj
    · exact absurd hc (by simp)

private theorem Timed.close {cancelled : Bool} {order : List Nat} (hi : i < a.inputCount)
    (hopen : a.closed i = false) (hsame : SameTime (a.markClosed i cancelled) a') :
    Timed n captures (es ++ [.inputClosed i cancelled order]) a' where
  members := by
    rw [hsame.inputCount]
    exact h.members
  floor j hj := by
    rw [hsame.inputCount] at hj
    rw [hsame.emittedWm, hsame.inputWm]
    show a.emittedWm.timestamp ≤ (setAt a.inputWm i .max j).timestamp
    by_cases hji : j = i
    · rw [hji, setAt_self]
      exact le_top
    · rw [setAt_ne _ _ hji]
      exact h.floor j hj
  steady j hj hs := by
    rw [Steady, watermarksBy_snoc, hsame.closed] at hs
    rw [hsame.idle, hsame.lastEmittedIdle, hsame.inputWm, watermarksBy_snoc]
    simp only [watermarksBy, List.filterMap_cons, List.filterMap_nil, List.append_nil] at hs ⊢
    have hji : j ≠ i := by
      intro hji
      have hclosed : setAt a.closed i true j = false := hs.1
      rw [hji, setAt_self] at hclosed
      exact absurd hclosed (by simp)
    have hopen : a.closed j = false := by
      have hclosed : setAt a.closed i true j = false := hs.1
      rwa [setAt_ne _ _ hji] at hclosed
    show a.idle j = false ∧ a.lastEmittedIdle = false ∧
      (setAt a.inputWm i .max j = .min ∨ setAt a.inputWm i .max j ∈ _)
    rw [setAt_ne _ _ hji]
    exact h.steady j hj ⟨hopen, hs.2⟩
  drained j hj := by
    rw [hsame.inputCount, hsame.drained]
    refine h.drained j ((List.mem_append.mp hj).resolve_right fun hmem => ?_)
    simp at hmem
  cut j hj := by
    rw [hsame.inputCount, hsame.closed, hsame.cancelledClose]
    show j < a.inputCount ∧ setAt a.closed i true j = true ∧
      setAt a.cancelledClose i (cancelled || a.drained i) j = true
    by_cases hji : j = i
    · subst hji
      rw [setAt_self, setAt_self]
      rcases hj.of_snoc with hj | ⟨_, _, hc, -, hcut⟩
      · rw [(h.cut j hj).2.1] at hopen
        exact absurd hopen (by simp)
      · injection hc with _ hc
        rcases hcut with hcut | hcut
        · exact ⟨hi, rfl, by rw [hc, hcut, Bool.true_or]⟩
        · exact ⟨hi, rfl, by rw [(h.drained j hcut).2, Bool.or_true]⟩
    · rw [setAt_ne _ _ hji, setAt_ne _ _ hji]
      rcases hj.of_snoc with hj | ⟨_, _, hc, -⟩
      · exact h.cut j hj
      · injection hc with hc
        exact absurd hc.symm hji

omit h in
private theorem noteWatermark_other (wm : Watermark) (hji : j ≠ i) :
    (a.noteWatermark i wm).idle j = a.idle j ∧
      (a.noteWatermark i wm).inputWm j = a.inputWm j := by
  unfold Alignment.noteWatermark
  split_ifs <;> simp [setAt_ne _ _ hji]

omit h in
private theorem noteWatermark_floor (wm : Watermark)
    (h : a.emittedWm.timestamp ≤ (a.inputWm i).timestamp) :
    a.emittedWm.timestamp ≤ ((a.noteWatermark i wm).inputWm i).timestamp := by
  unfold Alignment.noteWatermark
  split_ifs with hidle hrejoin hgt hgt
  · simp only [setAt_self]
    exact le_top
  · simp only [setAt_self]
    exact le_of_lt hgt
  · simp only [setAt_self]
    exact le_refl _
  · simp only [setAt_self]
    exact le_trans h (le_of_lt hgt)
  · exact h

omit h in
private theorem noteWatermark_active (wm : Watermark) (hwm : wm.isIdle = false)
    (hidle : a.idle i = false) :
    (a.noteWatermark i wm).idle i = false ∧
      ((a.noteWatermark i wm).inputWm i = wm ∨
        (a.noteWatermark i wm).inputWm i = a.inputWm i) := by
  unfold Alignment.noteWatermark
  rw [if_neg (by simp [hwm]), if_neg (by simp [hidle])]
  split_ifs
  · exact ⟨hidle, .inl (setAt_self _ _ _)⟩
  · exact ⟨hidle, .inr rfl⟩

theorem Timed.watermark {wm : Watermark} :
    Timed n captures (es ++ [.watermark i wm]) (a.noteWatermark i wm) := by
  have hother := fun j (hji : j ≠ i) => noteWatermark_other (a := a) wm hji
  have hfloor := noteWatermark_floor (a := a) (i := i) wm
  have hactive := noteWatermark_active (a := a) (i := i) wm
  rcases Alignment.noteWatermark_fields a i wm with ⟨idle, inputWm, heq⟩
  rw [heq] at hother hfloor hactive ⊢
  dsimp only at hother hfloor hactive
  constructor
  · exact h.members
  · intro j hj
    by_cases hji : j = i
    · rw [hji] at hj ⊢
      exact hfloor (h.floor i hj)
    · show a.emittedWm.timestamp ≤ (inputWm j).timestamp
      rw [(hother j hji).2]
      exact h.floor j hj
  · intro j hj hs
    rw [Steady, watermarksBy_snoc] at hs
    have hold := h.steady j hj ⟨hs.1, fun w hw => hs.2 w (List.mem_append_left _ hw)⟩
    rw [watermarksBy_snoc]
    show idle j = false ∧ a.lastEmittedIdle = false ∧ (inputWm j = .min ∨ inputWm j ∈ _)
    by_cases hji : j = i
    · subst hji
      have hself : watermarksBy j [.watermark j wm] = [wm] := by simp [watermarksBy]
      rw [hself] at hs ⊢
      rcases hactive (hs.2 wm (by simp)) hold.1 with ⟨hidle, hwm⟩
      refine ⟨hidle, hold.2.1, ?_⟩
      rcases hwm with hwm | hwm
      · rw [hwm]
        exact .inr (by simp)
      · rw [hwm]
        rcases hold.2.2 with hmin | hmem
        · exact .inl hmin
        · exact .inr (List.mem_append_left _ hmem)
    · have hnone : watermarksBy j [.watermark i wm] = [] := by
        simp [watermarksBy, Ne.symm hji]
      rw [hnone, List.append_nil, (hother j hji).1, (hother j hji).2]
      exact hold
  · intro j hj
    refine h.drained j ((List.mem_append.mp hj).resolve_right fun hmem => ?_)
    simp at hmem
  · intro j hj
    rcases hj.of_snoc with hj | ⟨_, _, hc, -⟩
    · exact h.cut j hj
    · exact absurd hc (by simp)

private theorem Timed.admits (hstate : es.foldl next (.ofInputs n captures) = a) :
    Timed n captures (es ++ [.addInput]) a.addInput.1 := by
  have hsame : SameTime a (a.seenBarriers.keys.foldl Alignment.maybeDropSeen a) :=
    SameTime.foldl SameTime.maybeDropSeen _ a
  have hswept := h.snoc_same (c := .addInput) hstate hsame (fun _ => rfl) (fun _ => by simp)
    (fun _ _ _ hc => by simp at hc)
  unfold Alignment.addInput
  dsimp only
  split_ifs with hkeys
  · exact hswept
  · generalize a.seenBarriers.keys.foldl Alignment.maybeDropSeen a = s at hswept
    have hne : ∀ j, j < s.inputCount → j ≠ s.inputCount := fun j hj => by omega
    constructor
    · exact le_trans hswept.members (Nat.le_succ _)
    · intro j hj
      show s.emittedWm.timestamp ≤ (setAt s.inputWm s.inputCount _ j).timestamp
      by_cases hjn : j = s.inputCount
      · rw [hjn, setAt_self]
      · rw [setAt_ne _ _ hjn]
        have hlt : j < s.inputCount + 1 := hj
        exact hswept.floor j (by omega)
    · intro j hj hs
      have hjn := hne j (lt_of_lt_of_le hj hswept.members)
      have hopen : setAt s.closed s.inputCount false j = false := hs.1
      show setAt s.idle s.inputCount false j = false ∧ s.lastEmittedIdle = false ∧
        (setAt s.inputWm s.inputCount _ j = .min ∨ setAt s.inputWm s.inputCount _ j ∈ _)
      rw [setAt_ne _ _ hjn] at hopen
      rw [setAt_ne _ _ hjn, setAt_ne _ _ hjn]
      exact hswept.steady j hj ⟨hopen, hs.2⟩
    · intro j hj
      rcases hswept.drained j hj with ⟨hlt, hd⟩
      show j < s.inputCount + 1 ∧ setAt s.drained s.inputCount false j = true
      rw [setAt_ne _ _ (hne j hlt)]
      exact ⟨by omega, hd⟩
    · intro j hj
      rcases hswept.cut j hj with ⟨hlt, hclosed, hcut⟩
      show j < s.inputCount + 1 ∧ setAt s.closed s.inputCount false j = true ∧
        setAt s.cancelledClose s.inputCount false j = true
      rw [setAt_ne _ _ (hne j hlt), setAt_ne _ _ (hne j hlt)]
      exact ⟨by omega, hclosed, hcut⟩

/-- Every call leads to a state with the same emitted watermark where the
invariant holds, and recomputes there or says nothing about time. -/
theorem timed_step (hstate : es.foldl next (.ofInputs n captures) = a) (hok : Valid es a c) :
    ∃ a₁, Timed n captures (es ++ [c]) a₁ ∧ a₁.emittedWm = a.emittedWm ∧
      a₁.closed = (next a c).closed ∧
      Recomputes a₁ (next a c, (answer a c).watermark) := by
  cases c with
  | barrier i b =>
      have hsame := SameTime.onBarrier a i b
      exact ⟨_, h.snoc_same hstate hsame (fun _ => rfl) (fun _ => by simp)
        (fun _ _ _ hc => by simp at hc), hsame.emittedWm, rfl, .quiet⟩
  | watermark i wm =>
      rcases Alignment.noteWatermark_fields a i wm with ⟨idle, inputWm, heq⟩
      rcases Alignment.recomputeWatermark_fields (a.noteWatermark i wm) with ⟨_, _, heq'⟩
      refine ⟨_, h.watermark, by rw [heq], ?_, recomputes_recomputeWatermark _⟩
      show _ = (a.noteWatermark i wm).recomputeWatermark.1.closed
      rw [heq']
  | drain i => exact ⟨_, h.drain hok, rfl, rfl, .quiet⟩
  | rows i =>
      exact ⟨_, h.snoc_same hstate (.refl a) (fun _ => rfl) (fun _ => by simp)
        (fun _ _ _ hc => by simp at hc), rfl, rfl, .quiet⟩
  | inputClosed i cancelled order =>
      refine ⟨_, ?_, ?_, rfl, .quiet⟩
      · show Timed n captures _ (a.onInputClosed i cancelled order).1
        unfold Alignment.onInputClosed
        cases hclosed : a.closed i with
        | true =>
            refine h.snoc_same hstate (.refl a) (fun _ => rfl) (fun _ => by simp) ?_
            intro j _ _ hc
            injection hc with hc
            rw [← hc]
            exact hclosed
        | false => exact h.close hok hclosed (SameTime.closeLoop _ order)
      · show (a.onInputClosed i cancelled order).1.emittedWm = a.emittedWm
        unfold Alignment.onInputClosed
        split_ifs
        · rfl
        · exact (SameTime.closeLoop (a.markClosed i cancelled) order).emittedWm
  | refreshWatermark =>
      rcases Alignment.recomputeWatermark_fields a with ⟨_, _, heq⟩
      refine ⟨a, h.snoc_same hstate (.refl a) (fun _ => rfl) (fun _ => by simp)
        (fun _ _ _ hc => by simp at hc), rfl, ?_, recomputes_recomputeWatermark a⟩
      show _ = a.recomputeWatermark.1.closed
      rw [heq]
  | addInput =>
      refine ⟨_, h.admits hstate, ?_, rfl, .quiet⟩
      have hsame : SameTime a (a.seenBarriers.keys.foldl Alignment.maybeDropSeen a) :=
        SameTime.foldl SameTime.maybeDropSeen _ a
      unfold Alignment.addInput
      dsimp only
      split_ifs
      · exact hsame.emittedWm
      · exact hsame.emittedWm

/-- Recomputing keeps the invariant; what it forwards is the time it then
counts as emitted, and not earlier than before. -/
theorem Timed.recomputes {r : Alignment × WatermarkAdvance} (hr : Recomputes a r) :
    Timed n captures es r.1 ∧ a.emittedWm.timestamp ≤ r.1.emittedWm.timestamp ∧
      (r.2.forward = true → r.2.watermark.timestamp = r.1.emittedWm.timestamp) := by
  cases hr with
  | quiet => exact ⟨h, le_refl _, fun hf => by simp at hf⟩
  | idle _ hidle =>
      refine ⟨⟨h.members, h.floor, ?_, h.drained, h.cut⟩, le_refl _, fun _ => rfl⟩
      intro j hj hs
      have hactive := (h.steady j hj hs).1
      rw [hidle j (lt_of_lt_of_le hj h.members) hs.1] at hactive
      exact absurd hactive (by simp)
  | active hle hmem hmoved hopen =>
      refine ⟨⟨h.members, hle, ?_, h.drained, h.cut⟩, ?_, fun _ => rfl⟩
      · intro j hj hs
        have hold := h.steady j hj hs
        exact ⟨hold.1, rfl, hold.2.2⟩
      · rcases hmem with ⟨j, hj, heq⟩
        rw [← heq]
        exact h.floor j hj

end

/-! ## The whole run -/

theorem timed_nil (n : Nat) (captures : Bool) :
    Timed n captures [] (.ofInputs n captures) where
  members := le_refl _
  floor _ _ := le_refl _
  steady _ _ _ := ⟨rfl, rfl, .inl rfl⟩
  drained j hj := by simp at hj
  cut j hj := by
    rcases hj with ⟨pre, _, _, _, heq, -⟩
    simp at heq

theorem timed_of_runs (h : Runs next Valid (.ofInputs n captures) es a) :
    Timed n captures es a := by
  refine h.induct (I := fun es a => Timed n captures es a) (timed_nil n captures) ?_
  intro es a c hrun ih hok
  rcases timed_step ih hrun.state_eq.symm hok with ⟨a₁, h₁, -, -, hr⟩
  exact (h₁.recomputes hr).1

/-- Every forwarded time is at most the one emitted last, and they never go
back. -/
theorem sorted_of_runs (h : Runs next Valid (.ofInputs n captures) es a) :
    (∀ w ∈ forwardedWatermarks n captures es, w.timestamp ≤ a.emittedWm.timestamp) ∧
      (forwardedWatermarks n captures es).Pairwise (·.timestamp ≤ ·.timestamp) := by
  refine h.induct (I := fun es a =>
    (∀ w ∈ forwardedWatermarks n captures es, w.timestamp ≤ a.emittedWm.timestamp) ∧
      (forwardedWatermarks n captures es).Pairwise (·.timestamp ≤ ·.timestamp)) ?_ ?_
  · simp [forwardedWatermarks]
  · intro es a c hrun ih hok
    rcases timed_step (timed_of_runs hrun) hrun.state_eq.symm hok with ⟨a₁, h₁, hem, -, hr⟩
    rcases h₁.recomputes hr with ⟨-, hle, hfwd⟩
    rw [hem] at hle
    have hsnoc : forwardedWatermarks n captures (es ++ [c]) =
        forwardedWatermarks n captures es ++
          if (answer a c).watermark.forward then [(answer a c).watermark.watermark] else [] := by
      rw [forwardedWatermarks, hrun.answers_snoc, List.filter_append, List.map_append]
      cases hf : (answer a c).watermark.forward <;> simp [forwardedWatermarks, hf]
    rw [hsnoc]
    cases hf : (answer a c).watermark.forward with
    | false =>
        simp only [Bool.false_eq_true, if_false, List.append_nil]
        exact ⟨fun w hw => le_trans (ih.1 w hw) hle, ih.2⟩
    | true =>
        have heq := hfwd hf
        simp only [if_true]
        constructor
        · intro w hw
          rcases List.mem_append.mp hw with hw | hw
          · exact le_trans (ih.1 w hw) hle
          · rw [List.mem_singleton.mp hw]
            exact le_of_eq heq
        · rw [List.pairwise_append]
          refine ⟨ih.2, List.pairwise_singleton _ _, ?_⟩
          intro w hw w' hw'
          rw [List.mem_singleton.mp hw']
          exact le_trans (ih.1 w hw) (le_trans hle (le_of_eq heq.symm))

/-- A steady input has delivered a watermark that the forwarded one does not
exceed. -/
theorem Timed.forwarded_le {r : Alignment × WatermarkAdvance}
    (h : Timed n captures es a) (hr : Recomputes a r) (hf : r.2.forward = true)
    (hactive : r.2.watermark.isIdle = false) (hj : j < n) (hs : Steady es a j) :
    ∃ wm ∈ watermarksBy j es, r.2.watermark.timestamp ≤ wm.timestamp := by
  cases hr with
  | quiet => exact absurd hf (by simp)
  | idle => exact absurd hactive (by simp [Watermark.idle])
  | active hle hmem hmoved hopen =>
      rcases h.steady j hj hs with ⟨-, hlast, hwm⟩
      have hbound := hle j (lt_of_lt_of_le hj h.members)
      rcases hwm with hwm | hwm
      · rw [hlast] at hmoved
        have hlt := hmoved.resolve_left (by simp)
        rw [hwm] at hbound
        exact absurd (lt_of_lt_of_le hlt hbound) not_lt_bot
      · exact ⟨_, hwm, hbound⟩

private theorem le_getLast_of_pairwise {ws : List Watermark} {wm : Watermark}
    (hws : ws.Pairwise (·.timestamp ≤ ·.timestamp)) (hmem : wm ∈ ws) :
    ∃ last, ws.getLast? = some last ∧ wm.timestamp ≤ last.timestamp := by
  rcases List.eq_nil_or_concat ws with hnil | ⟨init, last, heq⟩
  · rw [hnil] at hmem
    simp at hmem
  · rw [List.concat_eq_append] at heq
    rw [heq] at hws hmem ⊢
    refine ⟨last, by simp, ?_⟩
    rcases List.mem_append.mp hmem with hmem | hmem
    · exact (List.pairwise_append.mp hws).2.2 wm hmem last (by simp)
    · rw [List.mem_singleton.mp hmem]

/-- Over every run of calls, barriers and new members among them: the
forwarded times never decrease; a forwarded active watermark does not exceed
the greatest one delivered by any input that was there from the start, is open
and was never idle, nor its last one if that input's own never went back; and
once every input is closed and one of them was cut short, nothing is
forwarded. -/
theorem forwarded_watermarks_sound (h : Runs next Valid (.ofInputs n captures) es a) :
    (forwardedWatermarks n captures es).Pairwise (·.timestamp ≤ ·.timestamp) ∧
      ∀ pre c post, es = pre ++ c :: post →
        let before := pre.foldl next (.ofInputs n captures)
        let forwarded := (answer before c).watermark
        (forwarded.forward = true → forwarded.watermark.isIdle = false →
          ∀ j < n, Steady (pre ++ [c]) (next before c) j →
            (∃ wm ∈ watermarksBy j (pre ++ [c]),
              forwarded.watermark.timestamp ≤ wm.timestamp) ∧
            ((watermarksBy j (pre ++ [c])).Pairwise (·.timestamp ≤ ·.timestamp) →
              ∃ last, (watermarksBy j (pre ++ [c])).getLast? = some last ∧
                forwarded.watermark.timestamp ≤ last.timestamp)) ∧
        (before.allClosed = true → (∃ j, CutShort n captures pre j) →
          forwarded.forward = false) := by
  constructor
  · exact (sorted_of_runs h).2
  · intro pre c post hes
    rcases h.split hes with ⟨t, hrun, hok, -⟩
    rw [← hrun.state_eq]
    have ht := timed_of_runs hrun
    rcases timed_step ht hrun.state_eq.symm hok with ⟨a₁, h₁, -, hclosed, hr⟩
    constructor
    · intro hf hactive j hj hs
      have hs₁ : Steady (pre ++ [c]) a₁ j := by
        rw [Steady, hclosed]
        exact hs
      have hsome := h₁.forwarded_le hr hf hactive hj hs₁
      constructor
      · exact hsome
      · intro hmono
        rcases hsome with ⟨wm, hmem, hle⟩
        rcases le_getLast_of_pairwise hmono hmem with ⟨last, hlast, hle'⟩
        exact ⟨last, hlast, le_trans hle hle'⟩
    · intro hall hcut
      rcases hcut with ⟨j, hcut⟩
      rcases ht.cut j hcut with ⟨hlt, -, hcancelled⟩
      have hclosed_all : ∀ j < t.inputCount, t.closed j = true := by
        simpa [Alignment.allClosed] using hall
      cases c with
      | watermark i wm =>
          rcases Alignment.noteWatermark_fields t i wm with ⟨idle, inputWm, heq⟩
          show (t.noteWatermark i wm).recomputeWatermark.2.forward = false
          rw [heq]
          exact recomputeWatermark_of_cut hclosed_all ⟨j, hlt, hcancelled⟩
      | refreshWatermark => exact recomputeWatermark_of_cut hclosed_all ⟨j, hlt, hcancelled⟩
      | barrier | drain | rows | inputClosed | addInput => rfl

instance (es : List Call) (a : Alignment) : ∀ c, Decidable (Valid es a c)
  | .barrier _ _ | .watermark _ _ | .drain _ | .rows _ | .inputClosed _ _ _ =>
      inferInstanceAs (Decidable (_ < _))
  | .refreshWatermark | .addInput => inferInstanceAs (Decidable True)

/-- The active watermark at `t` milliseconds. -/
def wmAt (t : Fin (2 ^ 63)) : Watermark :=
  { timestamp := ⟨t.val, by omega, by omega⟩ }

/-- Two inputs at 10 and 20: 10 is forwarded, the last watermark of the first. -/
theorem forwarded_watermarks_two_inputs :
    ∃ last, (watermarksBy 0 [.watermark 0 (wmAt 10), .watermark 1 (wmAt 20)]).getLast? =
        some last ∧ (wmAt 10).timestamp ≤ last.timestamp := by
  have hrun : Runs next Valid (.ofInputs 2 false)
      [.watermark 0 (wmAt 10), .watermark 1 (wmAt 20)] _ := .of_allowed (by decide)
  have h := (forwarded_watermarks_sound hrun).2 [.watermark 0 (wmAt 10)]
    (.watermark 1 (wmAt 20)) [] rfl
  exact (h.1 (by decide) (by decide) 0 (by decide) ⟨by decide, by decide⟩).2 (by decide)

/-- An input that goes back from 10 to 5 does not take the aligner back: 10 is
forwarded after its last watermark was 5. -/
theorem regressed_watermark_is_exceeded :
    ∃ es a, Runs next Valid (.ofInputs 2 false) es a ∧
      ¬ ∀ pre c post, es = pre ++ c :: post →
        let before := pre.foldl next (.ofInputs 2 false)
        let forwarded := (answer before c).watermark
        forwarded.forward = true → forwarded.watermark.isIdle = false →
          ∀ j < 2, Steady (pre ++ [c]) (next before c) j →
            ∀ last, (watermarksBy j (pre ++ [c])).getLast? = some last →
              forwarded.watermark.timestamp ≤ last.timestamp := by
  have hrun : Runs next Valid (.ofInputs 2 false)
      [.watermark 0 (wmAt 10), .watermark 0 (wmAt 5), .watermark 1 (wmAt 20)] _ :=
    .of_allowed (by decide)
  refine ⟨_, _, hrun, ?_⟩
  intro hall
  have hle := hall [.watermark 0 (wmAt 10), .watermark 0 (wmAt 5)]
    (.watermark 1 (wmAt 20)) [] rfl (by decide) (by decide) 0 (by decide)
    ⟨by decide, by decide⟩ (wmAt 5) rfl
  exact absurd hle (by decide)

end Clink.Ports.MultiInputAlignment

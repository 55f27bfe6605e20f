import Clink.Ports.CepOperator
import Mathlib.Data.List.DropRight

/-!
# Matching in event-time order

What `CepOperator` with `order_by_event_time` feeds each key
(`include/clink/cep/cep_operator.hpp`).  The due index is always the earliest
held time of every key that holds records (`Indexed`), so a release feeds each
key its held records up to the bound and nothing else (`releaseHeld_spec`).

What the operator is for is the abstract `Arrivals`: the highest non-idle
watermark and, per key, the records that came above every watermark before
them.  The operator feeds their stable sort by event time, cut at the
watermark, if and only if no record falls between the watermarks seen and the
epoch that the late bound is folded from (`event_time_order_iff`).
-/

namespace Clink.Ports.Cep

open Clink.Ports.Time Clink.Verified

variable {K T : Type*} [LinearOrder K]

namespace CepState

variable {op : CepOperator K T} {s : CepState K T} {k k' : K} {bound : EventTime}

/-! ## The due index -/

/-- Each key's held records are in order, and the index has the earliest. -/
structure Indexed (s : CepState K T) : Prop where
  ordered : ∀ k, Ordered HeldRecord.ts (s.loadHeld k)
  index : ∀ t k, toLex (t, k) ∈ s.due ↔ (s.loadHeld k).head?.map HeldRecord.ts = some t

theorem loadHeld_saveHeld (held : List (HeldRecord T)) :
    (s.saveHeld k held).loadHeld k' = if k' = k then held else s.loadHeld k' := by
  unfold loadHeld saveHeld
  cases held with
  | nil =>
      simp only [List.isEmpty_nil, if_true, SortedMap.find?_erase]
      by_cases hk : k' = k <;> simp [hk]
  | cons h rest =>
      simp only [List.isEmpty_cons, Bool.false_eq_true, if_false, SortedMap.find?_upsert]
      by_cases hk : k' = k <;> simp [hk]

private theorem loadHeld_foldl_feed (l : List (HeldRecord T)) :
    (l.foldl (fun s h => s.feed op k h.record) s).loadHeld = s.loadHeld := by
  induction l generalizing s with
  | nil => rfl
  | cons x l ih => exact ih

/-- Feed a key its records, one after the other. -/
def feedAll (op : CepOperator K T) (l : List (HeldRecord T)) (ks : KeyState T) : KeyState T :=
  l.foldl (fun ks h => keyStep op.pattern ks (.record h.record)) ks

private theorem keys_foldl_feed (l : List (HeldRecord T)) :
    (l.foldl (fun s h => s.feed op k h.record) s).keys k' =
      if k' = k then feedAll op l (s.keys k') else s.keys k' := by
  induction l generalizing s with
  | nil => simp [feedAll]
  | cons x l ih =>
      rw [List.foldl_cons, ih]
      by_cases hk : k' = k
      · subst hk
        simp [feed, feedAll]
      · simp [feed, hk]

theorem Indexed.empty : Indexed ({} : CepState K T) := by
  refine ⟨fun k => ?_, fun t k => ?_⟩
  · exact List.Pairwise.nil
  · simp [loadHeld, SortedMap.find?]

private theorem head?_insertAfter (h : HeldRecord T) (held : List (HeldRecord T)) :
    (insertAfter HeldRecord.ts h held).head?.map HeldRecord.ts =
      some (match held with
        | [] => h.ts
        | front :: _ => if h.ts < front.ts then h.ts else front.ts) := by
  cases held with
  | nil => rfl
  | cons front rest =>
      by_cases hlt : h.ts < front.ts
      · simp [insertAfter, hlt]
      · simp [insertAfter, not_lt.mp hlt, hlt]

theorem Indexed.hold (hs : Indexed s) (h : HeldRecord T) : Indexed (s.hold k h) := by
  have hload : ∀ k', (s.hold k h).loadHeld k' =
      if k' = k then insertAfter HeldRecord.ts h (s.loadHeld k) else s.loadHeld k' := by
    intro k'
    exact loadHeld_saveHeld _
  have hdue : (s.hold k h).due = match s.loadHeld k with
      | [] => insert (toLex (h.ts, k)) s.due
      | front :: _ =>
          if h.ts < front.ts then insert (toLex (h.ts, k)) (s.due.erase (toLex (front.ts, k)))
          else s.due := rfl
  refine ⟨fun k' => ?_, fun t k' => ?_⟩
  · rw [hload]
    split
    · exact ordered_insertAfter (hs.ordered k)
    · exact hs.ordered k'
  · rw [hload, hdue]
    by_cases hk : k' = k
    · subst hk
      rw [if_pos rfl, head?_insertAfter]
      have hindex := hs.index t k'
      cases hheld : s.loadHeld k' with
      | nil =>
          rw [hheld] at hindex
          simp only [List.head?_nil, Option.map_none, reduceCtorEq, iff_false] at hindex
          simp [hindex, eq_comm]
      | cons front rest =>
          rw [hheld] at hindex
          simp only [List.head?_cons, Option.map_some, Option.some.injEq] at hindex
          by_cases hlt : h.ts < front.ts
          · simp only [if_pos hlt, Finset.mem_insert, Finset.mem_erase, hindex, Option.some.injEq]
            simp only [ne_eq, EmbeddingLike.apply_eq_iff_eq, Prod.mk.injEq, and_true]
            constructor
            · rintro (heq | ⟨hne, heq⟩)
              · exact heq.symm
              · exact absurd heq.symm hne
            · exact fun heq => .inl heq.symm
          · simp only [if_neg hlt, hindex, Option.some.injEq]
    · rw [if_neg hk, ← hs.index t k']
      cases s.loadHeld k with
      | nil => simp [hk]
      | cons front rest =>
          dsimp only
          split <;> simp [hk]

/-! ## Releasing -/

variable {d : EventTime ×ₗ K}

theorem loadHeld_releaseOne : (s.releaseOne op bound d).loadHeld k' =
    if k' = (ofLex d).2 then (s.loadHeld k').dropWhile fun h => h.ts ≤ bound
    else s.loadHeld k' := by
  have hsave : (s.releaseOne op bound d).loadHeld k' =
      ((((s.loadHeld (ofLex d).2).takeWhile fun h => h.ts ≤ bound).foldl
        (fun s h => feed op s (ofLex d).2 h.record) s).saveHeld (ofLex d).2
        ((s.loadHeld (ofLex d).2).dropWhile fun h => h.ts ≤ bound)).loadHeld k' := rfl
  rw [hsave, loadHeld_saveHeld, loadHeld_foldl_feed]
  split
  · next hk => rw [hk]
  · rfl

private theorem keys_releaseOne : (s.releaseOne op bound d).keys k' =
    if k' = (ofLex d).2 then
      feedAll op ((s.loadHeld k').takeWhile fun h => h.ts ≤ bound) (s.keys k')
    else s.keys k' := by
  have hfed : (s.releaseOne op bound d).keys k' =
      (((s.loadHeld (ofLex d).2).takeWhile fun h => h.ts ≤ bound).foldl
        (fun s h => feed op s (ofLex d).2 h.record) s).keys k' := rfl
  rw [hfed, keys_foldl_feed]
  split
  · next hk => rw [hk]
  · rfl

/-- The next held record of a key that was fed up to the bound is above it. -/
theorem lt_of_head?_dropWhile {held : List (HeldRecord T)} {t : EventTime}
    (h : (held.dropWhile fun h => h.ts ≤ bound).head?.map HeldRecord.ts = some t) : bound < t := by
  obtain ⟨front, hfront, rfl⟩ := Option.map_eq_some_iff.mp h
  have hnot := List.head?_dropWhile_not (fun h : HeldRecord T => decide (h.ts ≤ bound)) held
  rw [hfront] at hnot
  simpa using hnot

theorem mem_due_releaseOne (hs : Indexed s) (hd : d ∈ s.due) {e : EventTime ×ₗ K} :
    e ∈ (s.releaseOne op bound d).due ↔
      (e ∈ s.due ∧ (ofLex e).2 ≠ (ofLex d).2) ∨ (ofLex e).2 = (ofLex d).2 ∧
        ((s.loadHeld (ofLex d).2).dropWhile fun h => h.ts ≤ bound).head?.map HeldRecord.ts =
          some (ofLex e).1 := by
  -- The key of `d` has no other entry.
  have hone : e ∈ s.due.erase d ↔ e ∈ s.due ∧ (ofLex e).2 ≠ (ofLex d).2 := by
    rw [Finset.mem_erase]
    constructor
    · rintro ⟨hne, he⟩
      refine ⟨he, fun hk => hne ?_⟩
      have htimes := ((hs.index _ _).mp he).symm.trans (hk ▸ (hs.index _ _).mp hd)
      exact ofLex.injective (Prod.ext (Option.some.inj htimes) hk)
    · rintro ⟨he, hk⟩
      exact ⟨fun heq => hk (by rw [heq]), he⟩
  have hdue : (s.releaseOne op bound d).due =
      match (s.loadHeld (ofLex d).2).dropWhile fun h => h.ts ≤ bound with
      | [] => s.due.erase d
      | front :: _ => insert (toLex (front.ts, (ofLex d).2)) (s.due.erase d) := rfl
  rw [hdue]
  cases (s.loadHeld (ofLex d).2).dropWhile fun h => h.ts ≤ bound with
  | nil => simp [hone]
  | cons front rest =>
      rw [Finset.mem_insert, hone, or_comm]
      refine or_congr Iff.rfl ?_
      rw [List.head?_cons, Option.map_some, Option.some.injEq]
      constructor
      · rintro rfl
        exact ⟨rfl, rfl⟩
      · rintro ⟨hk, ht⟩
        exact ofLex.injective (Prod.ext ht.symm hk)

theorem Indexed.releaseOne (hs : Indexed s) (hd : d ∈ s.due) :
    Indexed (s.releaseOne op bound d) := by
  refine ⟨fun k => ?_, fun t k => ?_⟩
  · rw [loadHeld_releaseOne]
    split
    · rw [dropWhile_eq_filter (hs.ordered k)]
      exact (hs.ordered k).filter _
    · exact hs.ordered k
  · rw [mem_due_releaseOne hs hd, loadHeld_releaseOne]
    by_cases hk : k = (ofLex d).2
    · rw [if_pos hk]
      simp [hk]
    · rw [if_neg hk]
      simp [hk, hs.index]

/-- The entries a release still has to take off the index. -/
def overdue (s : CepState K T) (bound : EventTime) : Finset (EventTime ×ₗ K) :=
  s.due.filter fun e => (ofLex e).1 ≤ bound

private theorem overdue_releaseOne (hs : Indexed s) (hd : d ∈ s.due) :
    (s.releaseOne op bound d).overdue bound ⊆ (s.overdue bound).erase d := by
  intro e he
  obtain ⟨hmem, hle⟩ := Finset.mem_filter.mp he
  rcases (mem_due_releaseOne hs hd).mp hmem with ⟨hold, hk⟩ | ⟨-, hhead⟩
  · refine Finset.mem_erase.mpr ⟨fun heq => hk (by rw [heq]), ?_⟩
    exact Finset.mem_filter.mpr ⟨hold, hle⟩
  · exact absurd hle (not_le.mpr (lt_of_head?_dropWhile hhead))

/-- A state in which `s` has been released up to the bound. -/
structure Released (op : CepOperator K T) (bound : EventTime) (s s' : CepState K T) : Prop where
  indexed : Indexed s'
  haveWm : s'.haveWm = s.haveWm
  currentWm : s'.currentWm = s.currentWm
  held : ∀ k, s'.loadHeld k = (s.loadHeld k).dropWhile fun h => h.ts ≤ bound
  keys : ∀ k, s'.keys k =
    feedAll op ((s.loadHeld k).takeWhile fun h => h.ts ≤ bound) (s.keys k)

theorem Released.refl (hs : Indexed s) (hnone : s.overdue bound = ∅) :
    Released op bound s s := by
  have habove : ∀ k, (s.loadHeld k).filter (fun h => decide (h.ts ≤ bound)) = [] := by
    intro k
    rw [List.filter_eq_nil_iff]
    intro x hx hle
    cases hheld : s.loadHeld k with
    | nil =>
        rw [hheld] at hx
        exact absurd hx List.not_mem_nil
    | cons front rest =>
        have hfront : front.ts ≤ x.ts := by
          have hord := hs.ordered k
          rw [hheld] at hord hx
          rcases List.mem_cons.mp hx with rfl | hmem
          · exact le_refl _
          · exact (List.pairwise_cons.mp hord).1 x hmem
        have hdue : toLex (front.ts, k) ∈ s.due := (hs.index _ _).mpr (by rw [hheld]; rfl)
        have hbound : front.ts ≤ bound := le_trans hfront (by simpa using hle)
        have hmem : toLex (front.ts, k) ∈ s.overdue bound :=
          Finset.mem_filter.mpr ⟨hdue, hbound⟩
        rw [hnone] at hmem
        exact absurd hmem (Finset.notMem_empty _)
  refine ⟨hs, rfl, rfl, fun k => ?_, fun k => ?_⟩
  · have hsplit :=
      List.takeWhile_append_dropWhile (p := fun h : HeldRecord T => decide (h.ts ≤ bound))
      (l := s.loadHeld k)
    rw [takeWhile_eq_filter (hs.ordered k), habove k, List.nil_append] at hsplit
    exact hsplit.symm
  · rw [takeWhile_eq_filter (hs.ordered k), habove k]
    rfl

private theorem haveWm_foldl_feed (l : List (HeldRecord T)) :
    (l.foldl (fun s h => s.feed op k h.record) s).haveWm = s.haveWm ∧
      (l.foldl (fun s h => s.feed op k h.record) s).currentWm = s.currentWm := by
  induction l generalizing s with
  | nil => exact ⟨rfl, rfl⟩
  | cons x l ih => exact ih

/-- A key that has been fed up to the bound has nothing more to be fed. -/
theorem Released.of_releaseOne {s' : CepState K T}
    (h : Released op bound (s.releaseOne op bound d) s') : Released op bound s s' := by
  have hwm : (s.releaseOne op bound d).haveWm = s.haveWm ∧
      (s.releaseOne op bound d).currentWm = s.currentWm := haveWm_foldl_feed _
  refine ⟨h.indexed, h.haveWm.trans hwm.1, h.currentWm.trans hwm.2, fun k => ?_, fun k => ?_⟩
  · rw [h.held, loadHeld_releaseOne]
    split
    · exact List.dropWhile_idempotent _ _
    · rfl
  · rw [h.keys, loadHeld_releaseOne, keys_releaseOne]
    split
    · have hnil : ((s.loadHeld k).dropWhile fun h => decide (h.ts ≤ bound)).takeWhile
          (fun h => decide (h.ts ≤ bound)) = [] := by
        cases hdrop : (s.loadHeld k).dropWhile fun h => decide (h.ts ≤ bound) with
        | nil => rfl
        | cons front rest =>
            have hlt : bound < front.ts := lt_of_head?_dropWhile (by rw [hdrop]; rfl)
            exact List.takeWhile_cons_of_neg (by simpa using hlt)
      rw [hnil]
      rfl
    · rfl

private theorem releaseLoop_spec {n : Nat} (hs : Indexed s) (hn : (s.overdue bound).card ≤ n) :
    Released op bound s (releaseLoop op bound n s) := by
  induction n generalizing s with
  | zero => exact .refl hs (Finset.card_eq_zero.mp (Nat.le_zero.mp hn))
  | succ n ih =>
      unfold releaseLoop
      by_cases hne : s.due.Nonempty
      · rw [dif_pos hne]
        have hmin : s.due.min' hne ∈ s.due := s.due.min'_mem hne
        by_cases hle : (ofLex (s.due.min' hne)).1 ≤ bound
        · rw [if_pos hle]
          refine .of_releaseOne (ih (hs.releaseOne hmin) ?_)
          have hover : s.due.min' hne ∈ s.overdue bound := Finset.mem_filter.mpr ⟨hmin, hle⟩
          have hsub : (s.releaseOne op bound (s.due.min' hne)).overdue bound ⊆
              (s.overdue bound).erase (s.due.min' hne) := overdue_releaseOne hs hmin
          have hcard := Finset.card_le_card hsub
          rw [Finset.card_erase_of_mem hover] at hcard
          omega
        · rw [if_neg hle]
          refine .refl hs (Finset.filter_eq_empty_iff.mpr fun e he hbound => hle ?_)
          have hfirst : (ofLex (s.due.min' hne)).1 ≤ (ofLex e).1 :=
            Prod.Lex.monotone_fst _ _ (s.due.min'_le e he)
          exact le_trans hfirst hbound
      · rw [dif_neg hne]
        refine .refl hs ?_
        rw [overdue, Finset.not_nonempty_iff_eq_empty.mp hne, Finset.filter_empty]

theorem releaseHeld_spec (hs : Indexed s) : Released op bound s (s.releaseHeld op bound) :=
  releaseLoop_spec hs (Finset.card_filter_le _ _)

end CepState

/-! ## What ordering by event time is for -/

/-- What reaches an operator whose records all carry event times. -/
inductive Arrival (T : Type*)
  | record (h : HeldRecord T)
  | watermark (wm : Watermark)
  | restore

def Arrival.event : Arrival T → Event T
  | record h => .record h.record
  | watermark wm => .watermark wm
  | restore => .restore

/-- The highest non-idle watermark, and each key's records that came above
every non-idle watermark before them, in arrival order. -/
structure Arrivals (K T : Type*) where
  top : WithBot EventTime := ⊥
  admitted : K → List (HeldRecord T) := fun _ => []

def Arrivals.arrive (keyFn : T → K) (a : Arrivals K T) : Arrival T → Arrivals K T
  | .record h =>
      if a.top < h.ts then
        let k := keyFn h.value
        { a with admitted := Function.update a.admitted k (a.admitted k ++ [h]) }
      else a
  | .watermark wm => if wm.isIdle then a else { a with top := max a.top wm.timestamp }
  | .restore => a

/-- The records a key's automaton has been fed, in the order it was fed them. -/
def KeyState.fed (ks : KeyState T) : List (HeldRecord T) :=
  ks.log.filterMap fun
    | .record r => r.eventTime.map fun ts => ⟨ts, r.value⟩
    | .watermark _ => none

/-- An operator that orders by event time. -/
def byEventTime (pat : Pattern T) (keyFn : T → K) (dropLate : Bool) : CepOperator K T :=
  { pattern := pat, keyFn, dropLate, orderByEventTime := true }

/-- The operator beside the arrivals it should feed. -/
def arriveStep (op : CepOperator K T) (s : CepState K T × Arrivals K T) (e : Arrival T) :
    CepState K T × Arrivals K T :=
  (step op s.1 e.event, s.2.arrive op.keyFn e)

/-- Every key has been fed the stable sort of its admitted records, as far as
the watermark has come, and a flush feeds it the rest. -/
def InOrder (op : CepOperator K T) (s : CepState K T × Arrivals K T) : Prop :=
  ∀ k, (s.1.keys k).fed =
      (byKey HeldRecord.ts (s.2.admitted k)).filter
        (fun h => (h.ts : WithBot EventTime) ≤ s.2.top) ∧
    ((s.1.flush op).keys k).fed = byKey HeldRecord.ts (s.2.admitted k)

/-- Nothing lies between the non-idle watermarks seen and the epoch: no record
arrives there once there is a watermark, none is there when a watermark comes. -/
def ClearOfEpoch (a : Arrivals K T) : Arrival T → Prop
  | .record h => a.top = ⊥ ∨ (h.ts : WithBot EventTime) ≤ a.top ∨ epoch < h.ts
  | .watermark wm => wm.isIdle = true ∨ ∀ k, ∀ h ∈ a.admitted k,
      (h.ts : WithBot EventTime) ≤ max a.top wm.timestamp ∨ epoch < h.ts
  | .restore => True

namespace CepState

variable {pat : Pattern T} {keyFn : T → K} {dropLate : Bool} {s : CepState K T}
  {a : Arrivals K T} {k : K}

theorem fed_keyStep_record (ks : KeyState T) (h : HeldRecord T) :
    (keyStep pat ks (.record h.record)).fed = ks.fed ++ [h] := by
  have hlog : (keyStep pat ks (.record h.record)).log = ks.log ++ [.record h.record] := rfl
  rw [KeyState.fed, hlog, List.filterMap_append]
  rfl

theorem fed_keyStep_watermark (ks : KeyState T) (wm : Watermark) :
    (keyStep pat ks (.watermark wm)).fed = ks.fed := by
  have hlog : (keyStep pat ks (.watermark wm)).log = ks.log ++ [.watermark wm] := rfl
  rw [KeyState.fed, hlog, List.filterMap_append]
  exact List.append_nil _

omit [LinearOrder K] in
theorem fed_feedAll {op : CepOperator K T} (l : List (HeldRecord T)) (ks : KeyState T) :
    (feedAll op l ks).fed = ks.fed ++ l := by
  induction l generalizing ks with
  | nil => exact (List.append_nil _).symm
  | cons h l ih =>
      have hnext : feedAll op (h :: l) ks =
          feedAll op l (keyStep op.pattern ks (.record h.record)) := rfl
      rw [hnext, ih, fed_keyStep_record, List.append_assoc, List.singleton_append]

/-- What the operator keeps of the arrivals: the index, and a late bound that
never falls below the epoch. -/
structure Tracks (s : CepState K T) (a : Arrivals K T) : Prop where
  indexed : Indexed s
  haveWm : s.haveWm = true ↔ a.top ≠ ⊥
  currentWm : (s.currentWm : WithBot EventTime) = max (epoch : WithBot EventTime) a.top

/-- The admitted records are split at the watermark into fed and held ones. -/
structure Settled (s : CepState K T) (a : Arrivals K T) : Prop where
  split : ∀ k, (s.keys k).fed ++ s.loadHeld k = byKey HeldRecord.ts (a.admitted k)
  fed : ∀ k, ∀ h ∈ (s.keys k).fed, (h.ts : WithBot EventTime) ≤ a.top
  held : ∀ k, ∀ h ∈ s.loadHeld k, a.top < (h.ts : WithBot EventTime)

theorem fed_flush (hs : Indexed s) :
    ((s.flush (byEventTime pat keyFn dropLate)).keys k).fed = (s.keys k).fed ++ s.loadHeld k := by
  have hrel : Released (byEventTime pat keyFn dropLate) ⊤ s
      (s.flush (byEventTime pat keyFn dropLate)) := releaseHeld_spec hs
  rw [hrel.keys, fed_feedAll, takeWhile_eq_filter (hs.ordered k),
    List.filter_eq_self.mpr fun h _ => by simp]

theorem inOrder_iff_settled (hs : Indexed s) :
    InOrder (byEventTime pat keyFn dropLate) (s, a) ↔ Settled s a := by
  constructor
  · intro h
    have hsplit : ∀ k, (s.keys k).fed ++ s.loadHeld k = byKey HeldRecord.ts (a.admitted k) :=
      fun k => (fed_flush hs).symm.trans (h k).2
    have hfed : ∀ k, ∀ x ∈ (s.keys k).fed, (x.ts : WithBot EventTime) ≤ a.top := by
      intro k x hx
      rw [(h k).1] at hx
      simpa using List.of_mem_filter hx
    refine ⟨hsplit, hfed, fun k x hx => ?_⟩
    -- The part fed is the whole part up to the watermark, so nothing held is.
    have hpart := (h k).1
    rw [← hsplit k, List.filter_append,
      List.filter_eq_self.mpr fun x hx => by simpa using hfed k x hx] at hpart
    have hnone := List.self_eq_append_right.mp hpart
    rw [List.filter_eq_nil_iff] at hnone
    simpa using hnone x hx
  · intro h k
    refine ⟨?_, (fed_flush hs).trans (h.split k)⟩
    rw [← h.split k, List.filter_append,
      List.filter_eq_self.mpr fun x hx => by simpa using h.fed k x hx,
      List.filter_eq_nil_iff.mpr fun x hx => by simpa using h.held k x hx, List.append_nil]

theorem mem_dueOf (held : SortedMap K (List (HeldRecord T))) (t : EventTime) (k : K) :
    toLex (t, k) ∈ dueOf held ↔ ((held.find? k).getD []).head?.map HeldRecord.ts = some t := by
  simp only [dueOf, List.mem_toFinset, List.mem_filterMap, Option.map_eq_some_iff]
  constructor
  · rintro ⟨⟨k', l⟩, hmem, front, hfront, heq⟩
    obtain ⟨rfl, rfl⟩ := Prod.mk.inj (toLex.injective heq)
    rw [SortedMap.find?_eq_some_iff.mpr hmem]
    exact ⟨front, hfront, rfl⟩
  · rintro ⟨front, hfront, rfl⟩
    cases hfind : held.find? k with
    | none => simp [hfind] at hfront
    | some l =>
        rw [hfind] at hfront
        exact ⟨(k, l), SortedMap.find?_eq_some_iff.mp hfind, front, hfront, rfl⟩

theorem snapshotTimers_byEventTime :
    s.snapshotTimers (byEventTime pat keyFn dropLate) =
      if s.haveWm then some s.currentWm else none := by
  simp [snapshotTimers, byEventTime]

/-! ## One arrival -/

variable {h : HeldRecord T} {wm : Watermark}

theorem processRecord_byEventTime : s.processRecord (byEventTime pat keyFn dropLate) h.record =
    if s.haveWm = true ∧ h.ts ≤ s.currentWm then s else s.hold (keyFn h.value) h := by
  simp [processRecord, byEventTime, HeldRecord.record]

/-- The late bound drops what the watermarks passed, and all up to the epoch. -/
theorem Tracks.dropped_iff (hs : Tracks s a) :
    s.haveWm = true ∧ h.ts ≤ s.currentWm ↔
      a.top ≠ ⊥ ∧ ((h.ts : WithBot EventTime) ≤ a.top ∨ h.ts ≤ epoch) := by
  rw [hs.haveWm, ← WithBot.coe_le_coe, hs.currentWm, le_max_iff, WithBot.coe_le_coe,
    or_comm (a := h.ts ≤ epoch)]

/-- A watermark that is not idle: the state it leads to before pruning. -/
def advanceTo (s : CepState K T) (wm : Watermark) : CepState K T :=
  { s with haveWm := true, currentWm := max s.currentWm wm.timestamp }

theorem onWatermark_idle (hidle : wm.isIdle = true) :
    s.onWatermark (byEventTime pat keyFn dropLate) wm =
      { s with keys := fun k => keyStep pat (s.keys k) (.watermark wm) } := by
  simp [onWatermark, hidle, byEventTime]

theorem onWatermark_byEventTime (hidle : wm.isIdle = false) :
    s.onWatermark (byEventTime pat keyFn dropLate) wm =
      let t := (s.advanceTo wm).releaseHeld (byEventTime pat keyFn dropLate)
        (max s.currentWm wm.timestamp)
      { t with keys := fun k => keyStep pat (t.keys k) (.watermark wm) } := by
  simp [onWatermark, hidle, byEventTime, advanceTo]

theorem Tracks.restore (hs : Tracks s a) :
    Tracks (s.restore (byEventTime pat keyFn dropLate)) a := by
  refine ⟨⟨hs.indexed.ordered, fun t k => mem_dueOf s.held t k⟩, ?_, ?_⟩
  · have hsome : (s.restore (byEventTime pat keyFn dropLate)).haveWm = s.haveWm := by
      simp only [CepState.restore, snapshotTimers_byEventTime]
      cases s.haveWm <;> rfl
    rw [hsome]
    exact hs.haveWm
  · have hbound : (s.restore (byEventTime pat keyFn dropLate)).currentWm =
        if s.haveWm then s.currentWm else epoch := by
      simp only [CepState.restore, snapshotTimers_byEventTime]
      cases s.haveWm <;> rfl
    rw [hbound]
    cases hhave : s.haveWm with
    | true => exact hs.currentWm
    | false =>
        have htop : a.top = ⊥ := by
          by_contra hne
          exact Bool.false_ne_true (hhave.symm.trans (hs.haveWm.mpr hne))
        simp [htop]

theorem Tracks.record (hs : Tracks s a) :
    Tracks (s.processRecord (byEventTime pat keyFn dropLate) h.record)
      (a.arrive keyFn (.record h)) := by
  have htop : (a.arrive keyFn (.record h)).top = a.top := by
    simp only [Arrivals.arrive]
    split <;> rfl
  rw [processRecord_byEventTime]
  split
  · exact ⟨hs.indexed, by rw [htop]; exact hs.haveWm, by rw [htop]; exact hs.currentWm⟩
  · exact ⟨hs.indexed.hold h, by rw [htop]; exact hs.haveWm, by rw [htop]; exact hs.currentWm⟩

/-- The late bound after a watermark is the highest watermark, or the epoch. -/
theorem Tracks.bound (hs : Tracks s a) :
    ((max s.currentWm wm.timestamp : EventTime) : WithBot EventTime) =
      max (epoch : WithBot EventTime) (max a.top wm.timestamp) := by
  rw [WithBot.coe_max, hs.currentWm, max_assoc]

theorem Tracks.watermark (hs : Tracks s a) :
    Tracks (s.onWatermark (byEventTime pat keyFn dropLate) wm)
      (a.arrive keyFn (.watermark wm)) := by
  cases hidle : wm.isIdle with
  | true =>
      rw [onWatermark_idle hidle, Arrivals.arrive, if_pos hidle]
      exact ⟨⟨hs.indexed.ordered, hs.indexed.index⟩, hs.haveWm, hs.currentWm⟩
  | false =>
      have hadv : Indexed (s.advanceTo wm) := ⟨hs.indexed.ordered, hs.indexed.index⟩
      have hrel : Released (byEventTime pat keyFn dropLate) (max s.currentWm wm.timestamp) _ _ :=
        releaseHeld_spec hadv
      rw [onWatermark_byEventTime hidle, Arrivals.arrive, if_neg (by simp [hidle])]
      refine ⟨⟨hrel.indexed.ordered, hrel.indexed.index⟩, ?_, ?_⟩
      · refine iff_of_true hrel.haveWm ?_
        exact ne_of_gt (lt_of_lt_of_le (WithBot.bot_lt_coe _) (le_max_right _ _))
      · exact (congrArg _ hrel.currentWm).trans hs.bound

theorem loadHeld_hold : (s.hold k h).loadHeld = Function.update s.loadHeld k
    (insertAfter HeldRecord.ts h (s.loadHeld k)) := by
  funext k'
  rw [Function.update_apply]
  exact loadHeld_saveHeld _

/-- A record held beside settled ones takes its place in time. -/
theorem Settled.hold (hset : Settled s a) (habove : a.top < (h.ts : WithBot EventTime)) :
    Settled (s.hold (keyFn h.value) h) (a.arrive keyFn (.record h)) := by
  have hkeys : (s.hold (keyFn h.value) h).keys = s.keys := rfl
  rw [Arrivals.arrive, if_pos habove]
  refine ⟨fun k => ?_, ?_, fun k x hx => ?_⟩
  · rw [hkeys, loadHeld_hold]
    by_cases hk : k = keyFn h.value
    · subst hk
      have hfed : ∀ x ∈ (s.keys (keyFn h.value)).fed, x.ts ≤ h.ts := fun x hx =>
        WithBot.coe_le_coe.mp (le_trans (hset.fed _ x hx) (le_of_lt habove))
      simp only [Function.update_self]
      rw [byKey_snoc, ← hset.split, insertAfter_append hfed]
    · simp only [Function.update_of_ne hk]
      exact hset.split k
  · rw [hkeys]
    exact hset.fed
  · rw [loadHeld_hold] at hx
    by_cases hk : k = keyFn h.value
    · subst hk
      rw [Function.update_self] at hx
      rcases mem_insertAfter.mp hx with rfl | hold
      · exact habove
      · exact hset.held _ x hold
    · rw [Function.update_of_ne hk] at hx
      exact hset.held k x hx

/-- A dropped record that was admitted is missing for good. -/
theorem not_settled_of_dropped (hset : Settled s a)
    (habove : a.top < (h.ts : WithBot EventTime)) :
    ¬ Settled s (a.arrive keyFn (.record h)) := by
  intro hnew
  have hlen := congrArg List.length (hnew.split (keyFn h.value))
  rw [Arrivals.arrive, if_pos habove, hset.split] at hlen
  simp only [Function.update_self, (perm_byKey _).length_eq, List.length_append,
    List.length_singleton] at hlen
  omega

theorem settled_record_iff (hs : Tracks s a) (hset : Settled s a) :
    Settled (s.processRecord (byEventTime pat keyFn dropLate) h.record)
      (a.arrive keyFn (.record h)) ↔ ClearOfEpoch a (.record h) := by
  rw [processRecord_byEventTime]
  by_cases hdrop : s.haveWm = true ∧ h.ts ≤ s.currentWm
  · rw [if_pos hdrop]
    obtain ⟨hwm, hle⟩ := hs.dropped_iff.mp hdrop
    by_cases habove : a.top < (h.ts : WithBot EventTime)
    · refine iff_of_false (not_settled_of_dropped hset habove) ?_
      rintro (htop | hpassed | hepoch)
      · exact hwm htop
      · exact absurd habove (not_lt.mpr hpassed)
      · rcases hle with hpassed | hearly
        · exact absurd habove (not_lt.mpr hpassed)
        · exact absurd hepoch (not_lt.mpr hearly)
    · rw [Arrivals.arrive, if_neg habove]
      exact iff_of_true hset (.inr (.inl (not_lt.mp habove)))
  · rw [if_neg hdrop]
    rw [hs.dropped_iff, not_and_or, not_or, not_not, not_le, not_le] at hdrop
    have habove : a.top < (h.ts : WithBot EventTime) := by
      rcases hdrop with htop | ⟨hlt, -⟩
      · rw [htop]
        exact WithBot.bot_lt_coe _
      · exact hlt
    refine iff_of_true (hset.hold habove) ?_
    rcases hdrop with htop | ⟨-, hepoch⟩
    · exact .inl htop
    · exact .inr (.inr hepoch)

/-- A release up to a bound at or above the watermark stays settled if and
only if it releases nothing above the watermark. -/
theorem settled_released_iff {op : CepOperator K T} {t : CepState K T}
    {bound : EventTime} {top : WithBot EventTime} (hset : Settled s a) (hord : Indexed s)
    (hrel : Released op bound s t) (hgrow : a.top ≤ top)
    (hbound : (bound : WithBot EventTime) = max (epoch : WithBot EventTime) top) :
    Settled t { a with top } ↔
      ∀ k, ∀ x ∈ a.admitted k, (x.ts : WithBot EventTime) ≤ top ∨ epoch < x.ts := by
  have hle : ∀ x : HeldRecord T, x.ts ≤ bound ↔
      x.ts ≤ epoch ∨ (x.ts : WithBot EventTime) ≤ top := by
    intro x
    rw [← WithBot.coe_le_coe, hbound, le_max_iff, WithBot.coe_le_coe]
  have hfed : ∀ k, (t.keys k).fed =
      (s.keys k).fed ++ (s.loadHeld k).filter fun x => x.ts ≤ bound := by
    intro k
    rw [hrel.keys, fed_feedAll, takeWhile_eq_filter (hord.ordered k)]
  have hheld : ∀ k, t.loadHeld k = (s.loadHeld k).filter fun x => bound < x.ts := by
    intro k
    rw [hrel.held, dropWhile_eq_filter (hord.ordered k)]
  constructor
  · intro hnew k x hx
    by_contra hgap
    rw [not_or, not_lt] at hgap
    have hmem : x ∈ (s.keys k).fed ++ s.loadHeld k := by
      rw [hset.split]
      exact mem_byKey.mpr hx
    rcases List.mem_append.mp hmem with hold | hheldx
    · exact hgap.1 (le_trans (hset.fed k x hold) hgrow)
    · refine hgap.1 (hnew.fed k x ?_)
      rw [hfed]
      refine List.mem_append_right _ (List.mem_filter.mpr ⟨hheldx, ?_⟩)
      simpa using (hle x).mpr (.inl hgap.2)
  · intro hclear
    refine ⟨fun k => ?_, fun k x hx => ?_, fun k x hx => ?_⟩
    · rw [hrel.keys, fed_feedAll, hrel.held, List.append_assoc, List.takeWhile_append_dropWhile]
      exact hset.split k
    · rw [hfed] at hx
      rcases List.mem_append.mp hx with hold | hnew
      · exact le_trans (hset.fed k x hold) hgrow
      · obtain ⟨hheldx, hxb⟩ := List.mem_filter.mp hnew
        have hadm : x ∈ a.admitted k := by
          rw [← mem_byKey (f := HeldRecord.ts), ← hset.split]
          exact List.mem_append_right _ hheldx
        rcases (hle x).mp (by simpa using hxb) with hearly | htop
        · rcases hclear k x hadm with htop | hlate
          · exact htop
          · exact absurd hlate (not_lt.mpr hearly)
        · exact htop
    · rw [hheld] at hx
      have hlt : bound < x.ts := by simpa using (List.mem_filter.mp hx).2
      refine lt_of_le_of_lt (le_trans (le_max_right _ _) (le_of_eq hbound.symm)) ?_
      exact WithBot.coe_lt_coe.mpr hlt

theorem settled_watermark_iff (hs : Tracks s a) (hset : Settled s a) :
    Settled (s.onWatermark (byEventTime pat keyFn dropLate) wm)
      (a.arrive keyFn (.watermark wm)) ↔ ClearOfEpoch a (.watermark wm) := by
  cases hidle : wm.isIdle with
  | true =>
      rw [onWatermark_idle hidle, Arrivals.arrive, if_pos hidle]
      refine iff_of_true ⟨fun k => ?_, fun k x hx => ?_, hset.held⟩ (.inl hidle)
      · simp only [fed_keyStep_watermark]
        exact hset.split k
      · simp only [fed_keyStep_watermark] at hx
        exact hset.fed k x hx
  | false =>
      have hadv : Indexed (s.advanceTo wm) := ⟨hs.indexed.ordered, hs.indexed.index⟩
      have hsetAdv : Settled (s.advanceTo wm) a := ⟨hset.split, hset.fed, hset.held⟩
      have hrel : Released (byEventTime pat keyFn dropLate) (max s.currentWm wm.timestamp)
          (s.advanceTo wm) _ := releaseHeld_spec hadv
      have hiff := settled_released_iff hsetAdv hadv hrel (le_max_left a.top wm.timestamp) hs.bound
      rw [onWatermark_byEventTime hidle, Arrivals.arrive, if_neg (by simp [hidle])]
      have hclear : ClearOfEpoch a (.watermark wm) ↔ ∀ k, ∀ x ∈ a.admitted k,
          (x.ts : WithBot EventTime) ≤ max a.top wm.timestamp ∨ epoch < x.ts := by
        simp [ClearOfEpoch, hidle]
      rw [hclear, ← hiff]
      -- The pruning that follows feeds nothing and holds nothing.
      constructor
      · intro h
        refine ⟨fun k => ?_, fun k x hx => h.fed k x ?_, h.held⟩
        · rw [← h.split k]
          simp only [fed_keyStep_watermark]
          rfl
        · simp only [fed_keyStep_watermark]
          exact hx
      · intro h
        refine ⟨fun k => ?_, fun k x hx => h.fed k x ?_, h.held⟩
        · rw [← h.split k]
          simp only [fed_keyStep_watermark]
          rfl
        · simp only [fed_keyStep_watermark] at hx
          exact hx

theorem Settled.restore (hset : Settled s a) :
    Settled (s.restore (byEventTime pat keyFn dropLate)) a :=
  ⟨hset.split, hset.fed, hset.held⟩

theorem inOrder_step_iff (hs : Tracks s a) (hset : Settled s a) (e : Arrival T) :
    Settled (step (byEventTime pat keyFn dropLate) s e.event) (a.arrive keyFn e) ↔
      ClearOfEpoch a e := by
  cases e with
  | record h => exact settled_record_iff hs hset
  | watermark wm => exact settled_watermark_iff hs hset
  | restore => exact iff_of_true hset.restore trivial

theorem Tracks.step (hs : Tracks s a) (e : Arrival T) :
    Tracks (step (byEventTime pat keyFn dropLate) s e.event) (a.arrive keyFn e) := by
  cases e with
  | record h => exact hs.record
  | watermark wm => exact hs.watermark
  | restore => exact hs.restore

end CepState

/-! ## The whole run -/

/-- At every point of a run each key has been fed its admitted records up to
the watermark in event-time order, with the rest to come at the flush, if and
only if nothing ever lies between the watermarks and the epoch. -/
theorem event_time_order_iff (pat : Pattern T) (keyFn : T → K) (dropLate : Bool)
    (es : List (Arrival T)) :
    let op := byEventTime pat keyFn dropLate
    (∀ pre, pre <+: es → InOrder op (pre.foldl (arriveStep op) ({}, {}))) ↔
      Runs.Allowed (arriveStep op) (fun _ s e => ClearOfEpoch s.2 e) [] ({}, {}) es := by
  intro op
  have htracks : CepState.Tracks ({} : CepState K T) ({} : Arrivals K T) :=
    ⟨.empty, by simp, by simp⟩
  have hsettled : CepState.Settled ({} : CepState K T) ({} : Arrivals K T) := by
    refine ⟨fun k => ?_, fun k h hh => ?_, fun k h hh => ?_⟩
    · simp [KeyState.fed, CepState.loadHeld, SortedMap.find?]
    · simp [KeyState.fed] at hh
    · simp [CepState.loadHeld, SortedMap.find?] at hh
  refine Runs.allowed_iff (I := fun s => CepState.Tracks s.1 s.2) ?_ ?_ htracks
    ((CepState.inOrder_iff_settled htracks.indexed).mpr hsettled)
  · intro s e hs
    exact hs.step e
  · intro s e hs hP
    have hset := (CepState.inOrder_iff_settled hs.indexed).mp hP
    rw [← CepState.inOrder_step_iff hs hset e]
    exact CepState.inOrder_iff_settled (hs.step e).indexed

/-- A one-step pattern that takes every event. -/
def anyEvent : Pattern Nat where
  steps := [{ name := "a", incoming := .begin }]
  quantified := by decide

/-- After the watermark `-5` a record at `-1` is ahead of every watermark, yet
it is dropped: the late bound already stands at the epoch. -/
theorem record_before_epoch_dropped :
    let op : CepOperator Nat Nat := byEventTime anyEvent id false
    ¬ InOrder op ([.watermark ⟨⟨-5, by decide, by decide⟩, false⟩,
      .record ⟨⟨-1, by decide, by decide⟩, 0⟩].foldl (arriveStep op) ({}, {})) := by
  intro op h
  have hflush := congrArg List.length (h 0).2
  rw [(perm_byKey _).length_eq] at hflush
  revert hflush
  decide

end Clink.Ports.Cep

import Clink.Ports.StateTtl

/-!
# What a touch is owed

The calls on a `StateTtlTracker` in event time, in any order.  A key touched after
an event time was observed is owed the ttl after that time; one touched before
there was a clock or an event time is owed the ttl after the first watermark; a
restored deadline stays until a later touch.

A key may wait for the clock and have a deadline at once: touched first without
any clock, then stamped from an observed event time, it is still among the keys
the first watermark promotes, and the promotion overwrites the deadline.
`Sound` leaves that out, and restoring or enrolling a key the tracker knows
otherwise; along every run of such calls what is owed is kept.
-/

namespace Clink.Ports.StateTtl

open Clink.Verified

variable {κ : Type} [DecidableEq κ]

inductive Call (κ : Type) where
  | observeEventTime (ts : Int)
  | touch (key : κ)
  | advanceWatermark (ms : Int)
  | forget (key : κ)
  | flush (slot : StateTtlTracker.DeadlineSlot κ)
  | restore (slot : StateTtlTracker.DeadlineSlot κ)
  | enrolRestoredKey (key : κ)

namespace StateTtlTracker

def call (t : StateTtlTracker κ) : Call κ → StateTtlTracker κ
  | .observeEventTime ts => t.observeEventTime ts
  | .touch key => t.touch key
  | .advanceWatermark ms => (t.advanceWatermark ms).1
  | .forget key => t.forget fun k => decide (k = key)
  | .flush slot => (t.flush slot).1
  | .restore slot => t.restore slot
  | .enrolRestoredKey key => t.enrolRestoredKeys fun k => decide (k = key)

/-- The key was forgotten before its deadline. -/
def ForgottenEarly (init : StateTtlTracker κ) (cs : List (Call κ)) (key : κ) : Prop :=
  ∃ pre post, cs = pre ++ .forget key :: post ∧ (pre.foldl call init).expired key = false

/-- A watermark that promotes no key to a deadline before the one it has; a restore
and an enrolment of keys not forgotten early, the restore of keys that neither wait
nor have another deadline. -/
def Sound (init : StateTtlTracker κ) (cs : List (Call κ)) (t : StateTtlTracker κ) : Call κ → Prop
  | .advanceWatermark ms => (t.advanceWatermark ms).2 = true →
      ∀ key, t.preClock key = true → ∀ d, t.deadlines key = some d → d ≤ ms + t.ttlMs
  | .restore slot => ∀ key d, slot key = some d → t.preClock key = false ∧
      (∀ d', t.deadlines key = some d' → d' = d) ∧ ¬ ForgottenEarly init cs key
  | .enrolRestoredKey key => ¬ ForgottenEarly init cs key
  | _ => True

/-- What is owed to a key until `bound` is kept: the clock is there already, or its
deadline is no earlier, or it was forgotten early and is not known. -/
def Keeps (init : StateTtlTracker κ) (cs : List (Call κ)) (t : StateTtlTracker κ) (key : κ)
    (bound : Int) : Prop :=
  (∃ now, t.watermarkMs = some now ∧ bound ≤ now) ∨
    (∃ d, t.deadlines key = some d ∧ bound ≤ d) ∨
    (t.deadlines key = none ∧ t.preClock key = false ∧ ForgottenEarly init cs key)

section Steps

variable {init t : StateTtlTracker κ} {cs : List (Call κ)} {key : κ} {bound : Int} {c : Call κ}

theorem ForgottenEarly.snoc (h : ForgottenEarly init cs key) (c : Call κ) :
    ForgottenEarly init (cs ++ [c]) key := by
  obtain ⟨pre, post, rfl, hexpired⟩ := h
  exact ⟨pre, post ++ [c], by simp, hexpired⟩

theorem Keeps.not_expired (h : Keeps init cs t key bound) {now : Int}
    (hnow : t.watermarkMs = some now) (hlt : now < bound) : t.expired key = false := by
  unfold expired
  rw [hnow]
  rcases h with ⟨now', hnow', hle⟩ | ⟨d, hd, hle⟩ | ⟨hd, -, -⟩
  · rw [hnow] at hnow'
    obtain rfl := Option.some.inj hnow'
    omega
  · rw [hd]
    exact decide_eq_false (by omega)
  · rw [hd]
    rfl

/-- A call that leaves the clock, the key's deadline and its waiting alone. -/
theorem Keeps.of_same (h : Keeps init cs t key bound) (c : Call κ) {t' : StateTtlTracker κ}
    (hclock : t'.watermarkMs = t.watermarkMs) (hdeadline : t'.deadlines key = t.deadlines key)
    (hwaits : t'.preClock key = t.preClock key) : Keeps init (cs ++ [c]) t' key bound := by
  unfold Keeps
  rw [hclock, hdeadline, hwaits]
  exact h.imp_right (Or.imp_right fun hgone => ⟨hgone.1, hgone.2.1, hgone.2.2.snoc c⟩)

theorem touch_other {k : κ} (hk : key ≠ k) (t : StateTtlTracker κ) :
    (t.touch k).deadlines key = t.deadlines key ∧ (t.touch k).preClock key = t.preClock key ∧
      (t.touch k).watermarkMs = t.watermarkMs := by
  obtain ⟨deadline, heq, -⟩ | ⟨-, heq⟩ := t.touch_spec k
  · rw [heq]
    exact ⟨Function.update_of_ne hk _ _, rfl, rfl⟩
  · rw [heq]
    exact ⟨rfl, Function.update_of_ne hk _ _, rfl⟩

theorem watermark_touch (t : StateTtlTracker κ) (k : κ) :
    (t.touch k).watermarkMs = t.watermarkMs := by
  obtain ⟨deadline, heq, -⟩ | ⟨-, heq⟩ := t.touch_spec k
  · rw [heq]
    rfl
  · rw [heq]

omit [DecidableEq κ] in
theorem observeEventTime_other (t : StateTtlTracker κ) (ts : Int) :
    (t.observeEventTime ts).watermarkMs = t.watermarkMs ∧
      (t.observeEventTime ts).deadlines = t.deadlines ∧
      (t.observeEventTime ts).preClock = t.preClock := by
  unfold observeEventTime
  split
  · exact ⟨rfl, rfl, rfl⟩
  · split <;> exact ⟨rfl, rfl, rfl⟩

omit [DecidableEq κ] in
theorem advanceWatermark_moved {ms : Int} (h : (t.advanceWatermark ms).2 = true) :
    (∀ now, t.watermarkMs = some now → now < ms) ∧
      (t.advanceWatermark ms).1 =
        { t with
          watermarkMs := some ms
          deadlines := fun key => if t.preClock key then some (ms + t.ttlMs) else t.deadlines key
          dirty := fun key => t.preClock key || t.dirty key
          preClock := fun _ => false } := by
  unfold advanceWatermark at h ⊢
  split at h
  · exact absurd h Bool.false_ne_true
  · rename_i hold
    rw [if_neg hold]
    refine ⟨fun now hnow => ?_, rfl⟩
    rw [hnow] at hold
    simpa using hold

omit [DecidableEq κ] in
theorem advanceWatermark_still {ms : Int} (h : (t.advanceWatermark ms).2 = false) :
    (t.advanceWatermark ms).1 = t := by
  unfold advanceWatermark at h ⊢
  split at h
  · rename_i hold
    rw [if_pos hold]
  · exact absurd h.symm Bool.false_ne_true

/-- What is owed stays kept by every sound call that does not touch the key, and by
one that touches it later than that. -/
theorem Keeps.call (h : Keeps init cs t key bound) (hstate : t = cs.foldl StateTtlTracker.call init)
    (hsound : Sound init cs t c)
    (htouch : c = .touch key → ∃ d, (t.touch key).deadlines key = some d ∧ bound ≤ d) :
    Keeps init (cs ++ [c]) (t.call c) key bound := by
  cases c with
  | observeEventTime ts =>
      obtain ⟨hclock, hdeadlines, hwaits⟩ := observeEventTime_other t ts
      exact h.of_same _ hclock (congrFun hdeadlines key) (congrFun hwaits key)
  | touch k =>
      by_cases hk : key = k
      · subst hk
        obtain ⟨d, hd, hle⟩ := htouch rfl
        exact .inr (.inl ⟨d, hd, hle⟩)
      · obtain ⟨hdeadline, hwaits, hclock⟩ := touch_other hk t
        exact h.of_same _ hclock hdeadline hwaits
  | advanceWatermark ms =>
      unfold StateTtlTracker.call
      dsimp only
      cases hmoved : (t.advanceWatermark ms).2 with
      | false =>
          rw [advanceWatermark_still hmoved]
          exact h.of_same _ rfl rfl rfl
      | true =>
          obtain ⟨hforward, heq⟩ := advanceWatermark_moved hmoved
          rw [heq]
          rcases h with ⟨now, hnow, hle⟩ | ⟨d, hd, hle⟩ | ⟨hd, hwaits, hgone⟩
          · have hlt := hforward now hnow
            exact .inl ⟨ms, rfl, by omega⟩
          · refine .inr (.inl ?_)
            dsimp only
            cases hwaits : t.preClock key with
            | true =>
                -- A promoted key: not to an earlier deadline.
                have hlater := hsound hmoved key hwaits d hd
                exact ⟨ms + t.ttlMs, by simp, by omega⟩
            | false => exact ⟨d, by simp [hd], hle⟩
          · refine .inr (.inr ⟨?_, rfl, hgone.snoc _⟩)
            dsimp only
            rw [hwaits, hd]
            rfl
  | forget k =>
      unfold StateTtlTracker.call forget
      dsimp only
      by_cases hk : key = k
      · subst hk
        rcases h with hpast | ⟨d, hd, hle⟩ | ⟨hd, hwaits, hgone⟩
        · exact .inl hpast
        · cases hexpired : t.expired key with
          | true =>
              refine .inl ?_
              unfold expired at hexpired
              cases hnow : t.watermarkMs with
              | none =>
                  rw [hnow] at hexpired
                  exact absurd hexpired Bool.false_ne_true
              | some now =>
                  rw [hnow, hd] at hexpired
                  have hpast : d ≤ now := of_decide_eq_true hexpired
                  exact ⟨now, rfl, by omega⟩
          | false =>
              refine .inr (.inr ⟨by simp, by simp, cs, [], rfl, ?_⟩)
              rw [← hstate]
              exact hexpired
        · exact .inr (.inr ⟨by simp, by simp, hgone.snoc _⟩)
      · exact h.of_same _ rfl (by simp [hk]) (by simp [hk])
  | flush slot => exact h.of_same _ rfl rfl rfl
  | restore slot =>
      unfold Keeps StateTtlTracker.call restore
      dsimp only
      rcases h with hpast | ⟨d, hd, hle⟩ | ⟨hd, hwaits, hgone⟩
      · exact .inl hpast
      · refine .inr (.inl ⟨d, ?_, hle⟩)
        cases hslot : slot key with
        | none => exact hd
        | some d' => rw [(hsound key d' hslot).2.1 d hd]; rfl
      · cases hslot : slot key with
        | none => exact .inr (.inr ⟨hd, hwaits, hgone.snoc _⟩)
        | some d' => exact absurd hgone (hsound key d' hslot).2.2
  | enrolRestoredKey k =>
      unfold Keeps StateTtlTracker.call enrolRestoredKeys
      dsimp only
      rcases h with hpast | hdeadline | ⟨hd, hwaits, hgone⟩
      · exact .inl hpast
      · exact .inr (.inl hdeadline)
      · by_cases hk : key = k
        · subst hk
          exact absurd hgone hsound
        · exact .inr (.inr ⟨hd, by simp [hwaits, hk], hgone.snoc _⟩)

end Steps

/-! ## What is owed -/

/-- The key was touched after `e` was observed. -/
def TouchedAfter (cs : List (Call κ)) (key : κ) (e : Int) : Prop :=
  ∃ pre post, cs = pre ++ .touch key :: post ∧ .observeEventTime e ∈ pre

/-- The key was touched, but only before any watermark and any observed event time. -/
structure Pending (cs : List (Call κ)) (key : κ) : Prop where
  unclocked : ∀ ms, .advanceWatermark ms ∉ cs
  touched : .touch key ∈ cs
  unobserved : ∀ pre post, cs = pre ++ .touch key :: post → ∀ e, .observeEventTime e ∉ pre

/-- The key was touched only so before the first watermark `w`. -/
def TouchedBefore (cs : List (Call κ)) (key : κ) (w : Int) : Prop :=
  ∃ pre post, cs = pre ++ .advanceWatermark w :: post ∧ Pending pre key ∧ .touch key ∉ post

/-- The key's deadline was restored, and the key neither touched nor forgotten since. -/
def Restored (cs : List (Call κ)) (key : κ) (d : Int) : Prop :=
  ∃ pre slot post, cs = pre ++ .restore slot :: post ∧ slot key = some d ∧
    .touch key ∉ post ∧ .forget key ∉ post

section Histories

variable {cs : List (Call κ)} {c : Call κ} {key : κ}

omit [DecidableEq κ] in
theorem split_snoc {α : Type} {l pre post : List α} {a x : α} (h : l ++ [a] = pre ++ x :: post) :
    (l = pre ∧ a = x ∧ post = []) ∨ ∃ post', post = post' ++ [a] ∧ l = pre ++ x :: post' := by
  rcases List.eq_nil_or_concat post with rfl | ⟨post', b, rfl⟩
  · obtain ⟨rfl, hx⟩ := List.append_inj' h rfl
    exact .inl ⟨rfl, (List.cons.inj hx).1, rfl⟩
  · rw [List.concat_eq_append, ← List.cons_append, ← List.append_assoc] at h
    obtain ⟨rfl, hb⟩ := List.append_inj' h rfl
    refine .inr ⟨post', ?_, rfl⟩
    rw [List.concat_eq_append, (List.cons.inj hb).1]

omit [DecidableEq κ] in
private theorem touchedAfter_snoc {e : Int} (h : TouchedAfter (cs ++ [c]) key e) :
    TouchedAfter cs key e ∨ (c = .touch key ∧ .observeEventTime e ∈ cs) := by
  obtain ⟨pre, post, heq, hmem⟩ := h
  rcases split_snoc heq with ⟨rfl, hc, -⟩ | ⟨post', -, rfl⟩
  · exact .inr ⟨hc, hmem⟩
  · exact .inl ⟨pre, post', rfl, hmem⟩

omit [DecidableEq κ] in
private theorem pending_snoc (h : Pending (cs ++ [c]) key) :
    (Pending cs key ∧ c ≠ .touch key) ∨ (c = .touch key ∧ (∀ ms, .advanceWatermark ms ∉ cs) ∧
      ∀ e, .observeEventTime e ∉ cs) := by
  have hclock : ∀ ms, .advanceWatermark ms ∉ cs :=
    fun ms hmem => h.unclocked ms (List.mem_append_left _ hmem)
  by_cases hlast : c = .touch key
  · refine .inr ⟨hlast, hclock, fun e => ?_⟩
    exact h.unobserved cs [] (by rw [hlast]) e
  · refine .inl ⟨⟨hclock, ?_, fun pre post heq => ?_⟩, hlast⟩
    · rcases List.mem_append.mp h.touched with hmem | hmem
      · exact hmem
      · exact absurd (List.mem_singleton.mp hmem).symm hlast
    · exact h.unobserved pre (post ++ [c]) (by rw [heq]; simp)

omit [DecidableEq κ] in
private theorem touchedBefore_snoc {w : Int} (h : TouchedBefore (cs ++ [c]) key w) :
    (TouchedBefore cs key w ∧ c ≠ .touch key) ∨ (c = .advanceWatermark w ∧ Pending cs key) := by
  obtain ⟨pre, post, heq, hpending, huntouched⟩ := h
  rcases split_snoc heq with ⟨rfl, hc, -⟩ | ⟨post', rfl, rfl⟩
  · exact .inr ⟨hc, hpending⟩
  · refine .inl ⟨⟨pre, post', rfl, hpending, ?_⟩, ?_⟩
    · exact fun hmem => huntouched (List.mem_append_left _ hmem)
    · rintro rfl
      exact huntouched (List.mem_append_right _ List.mem_cons_self)

omit [DecidableEq κ] in
private theorem restored_snoc {d : Int} (h : Restored (cs ++ [c]) key d) :
    (Restored cs key d ∧ c ≠ .touch key ∧ c ≠ .forget key) ∨
      ∃ slot, c = .restore slot ∧ slot key = some d := by
  obtain ⟨pre, slot, post, heq, hslot, huntouched, hkept⟩ := h
  rcases split_snoc heq with ⟨rfl, hc, -⟩ | ⟨post', rfl, rfl⟩
  · exact .inr ⟨slot, hc, hslot⟩
  · refine .inl ⟨⟨pre, slot, post', rfl, hslot, ?_, ?_⟩, ?_, ?_⟩
    · exact fun hmem => huntouched (List.mem_append_left _ hmem)
    · exact fun hmem => hkept (List.mem_append_left _ hmem)
    · rintro rfl
      exact huntouched (List.mem_append_right _ List.mem_cons_self)
    · rintro rfl
      exact hkept (List.mem_append_right _ List.mem_cons_self)

end Histories

/-! ## Runs -/

section Runs

variable {init t : StateTtlTracker κ} {cs : List (Call κ)} {c : Call κ} {key : κ}

theorem ttlMs_call (t : StateTtlTracker κ) (c : Call κ) : (t.call c).ttlMs = t.ttlMs := by
  cases c with
  | observeEventTime ts =>
      change (t.observeEventTime ts).ttlMs = _
      unfold observeEventTime
      split
      · rfl
      · split <;> rfl
  | touch key =>
      change (t.touch key).ttlMs = _
      obtain ⟨deadline, heq, -⟩ | ⟨-, heq⟩ := t.touch_spec key
      · rw [heq]
        rfl
      · rw [heq]
  | advanceWatermark ms =>
      change (t.advanceWatermark ms).1.ttlMs = _
      unfold advanceWatermark
      split <;> rfl
  | _ => rfl

theorem highEventTs_call (t : StateTtlTracker κ) {c : Call κ} (hc : ∀ e, c ≠ .observeEventTime e) :
    (t.call c).highEventTs = t.highEventTs := by
  cases c with
  | observeEventTime ts => exact absurd rfl (hc ts)
  | touch key =>
      change (t.touch key).highEventTs = _
      obtain ⟨deadline, heq, -⟩ | ⟨-, heq⟩ := t.touch_spec key
      · rw [heq]
        rfl
      · rw [heq]
  | advanceWatermark ms =>
      change (t.advanceWatermark ms).1.highEventTs = _
      unfold advanceWatermark
      split <;> rfl
  | _ => rfl

theorem watermarkMs_call (t : StateTtlTracker κ) {c : Call κ}
    (hc : ∀ ms, c ≠ .advanceWatermark ms) : (t.call c).watermarkMs = t.watermarkMs := by
  cases c with
  | observeEventTime ts => exact (observeEventTime_other t ts).1
  | touch key => exact watermark_touch t key
  | advanceWatermark ms => exact absurd rfl (hc ms)
  | _ => rfl

/-- The newest event time is one observed, and no earlier than any. -/
structure Highest (cs : List (Call κ)) (t : StateTtlTracker κ) : Prop where
  reaches : ∀ e, .observeEventTime e ∈ cs → ∃ high, t.highEventTs = some high ∧ e ≤ high
  observed : t.highEventTs.isSome → ∃ e, .observeEventTime e ∈ cs

theorem Highest.call (h : Highest cs t) (c : Call κ) : Highest (cs ++ [c]) (t.call c) := by
  by_cases hobserve : ∃ ts, c = .observeEventTime ts
  · obtain ⟨ts, rfl⟩ := hobserve
    have hts : ∃ high, (t.observeEventTime ts).highEventTs = some high ∧ ts ≤ high ∧
        ∀ old, t.highEventTs = some old → old ≤ high := by
      unfold observeEventTime
      cases hhigh : t.highEventTs with
      | none => exact ⟨ts, rfl, Int.le_refl _, fun old hold => nomatch hold⟩
      | some high =>
          dsimp only
          split
          · rename_i hlt
            refine ⟨ts, rfl, Int.le_refl _, fun old hold => ?_⟩
            obtain rfl := Option.some.inj hold
            omega
          · rename_i hge
            refine ⟨high, hhigh, by omega, fun old hold => ?_⟩
            obtain rfl := Option.some.inj hold
            exact Int.le_refl _
    obtain ⟨high, hhigh, hle, hold⟩ := hts
    refine
      ⟨fun e he => ⟨high, hhigh, ?_⟩, fun _ => ⟨ts, List.mem_append_right _ List.mem_cons_self⟩⟩
    rcases List.mem_append.mp he with he | he
    · obtain ⟨old, heq, hlt⟩ := h.reaches e he
      exact hlt.trans (hold old heq)
    · obtain rfl : e = ts := by simpa using he
      exact hle
  · have hother : ∀ e, c ≠ .observeEventTime e := fun e heq => hobserve ⟨e, heq⟩
    have hsame := highEventTs_call t hother
    refine ⟨fun e he => ?_, fun hsome => ?_⟩
    · rw [hsame]
      rcases List.mem_append.mp he with he | he
      · exact h.reaches e he
      · exact absurd (List.mem_singleton.mp he).symm (hother e)
    · rw [hsame] at hsome
      obtain ⟨e, he⟩ := h.observed hsome
      exact ⟨e, List.mem_append_left _ he⟩

/-- A touch stamps the ttl after every event time observed. -/
theorem touch_after {e high : Int} (hhigh : t.highEventTs = some high) (hle : e ≤ high) (key : κ) :
    ∃ d, (t.touch key).deadlines key = some d ∧ e + t.ttlMs ≤ d := by
  unfold touch
  cases t.watermarkMs with
  | none =>
      rw [hhigh]
      exact ⟨high + t.ttlMs, Function.update_self _ _ _, by omega⟩
  | some now =>
      rw [hhigh]
      refine ⟨max now high + t.ttlMs, Function.update_self _ _ _, ?_⟩
      have := le_max_right now high
      omega

/-- A key owed the ttl after the first watermark waits for it, or was forgotten. -/
def Waits (init : StateTtlTracker κ) (cs : List (Call κ)) (t : StateTtlTracker κ) (key : κ) :
    Prop :=
  t.preClock key = true ∨
    (t.deadlines key = none ∧ t.preClock key = false ∧ ForgottenEarly init cs key)

theorem Waits.of_same (h : Waits init cs t key) (c : Call κ) {t' : StateTtlTracker κ}
    (hdeadline : t'.deadlines key = t.deadlines key) (hwaits : t'.preClock key = t.preClock key) :
    Waits init (cs ++ [c]) t' key := by
  unfold Waits
  rw [hdeadline, hwaits]
  exact h.imp_right fun hgone => ⟨hgone.1, hgone.2.1, hgone.2.2.snoc c⟩

/-- Without a clock a key goes on waiting until it is touched again. -/
theorem Waits.call (h : Waits init cs t key) (hstate : t = cs.foldl StateTtlTracker.call init)
    (hclock : t.watermarkMs = none) (hsound : Sound init cs t c) (htouch : c ≠ .touch key)
    (hadvance : ∀ ms, c ≠ .advanceWatermark ms) : Waits init (cs ++ [c]) (t.call c) key := by
  cases c with
  | observeEventTime ts =>
      obtain ⟨-, hdeadlines, hwaits⟩ := observeEventTime_other t ts
      exact h.of_same _ (congrFun hdeadlines key) (congrFun hwaits key)
  | touch k =>
      have hk : key ≠ k := fun heq => htouch (by rw [heq])
      obtain ⟨hdeadline, hwaits, -⟩ := touch_other hk t
      exact h.of_same _ hdeadline hwaits
  | advanceWatermark ms => exact absurd rfl (hadvance ms)
  | forget k =>
      unfold StateTtlTracker.call forget
      dsimp only
      by_cases hk : key = k
      · subst hk
        refine .inr ⟨by simp, by simp, cs, [], rfl, ?_⟩
        rw [← hstate]
        unfold expired
        rw [hclock]
      · exact h.of_same _ (by simp [hk]) (by simp [hk])
  | flush slot => exact h.of_same _ rfl rfl
  | restore slot =>
      rcases h with hwaits | ⟨hd, hwaits, hgone⟩
      · exact .inl hwaits
      · cases hslot : slot key with
        | none =>
            refine .inr ⟨?_, hwaits, hgone.snoc _⟩
            change (slot key).or (t.deadlines key) = none
            rw [hslot, hd]
            rfl
        | some d => exact absurd hgone (hsound key d hslot).2.2
  | enrolRestoredKey k =>
      unfold Waits StateTtlTracker.call enrolRestoredKeys
      dsimp only
      rcases h with hwaits | ⟨hd, hwaits, hgone⟩
      · exact .inl (by simp [hwaits])
      · by_cases hk : key = k
        · subst hk
          exact absurd hgone hsound
        · exact .inr ⟨hd, by simp [hwaits, hk], hgone.snoc _⟩

/-- A restored deadline, of a key that does not wait, is moved by no sound call but a
touch or a forget of the key. -/
theorem deadline_call {d : Int} (hd : t.deadlines key = some d) (hwaits : t.preClock key = false)
    (hsound : Sound init cs t c) (htouch : c ≠ .touch key) (hforget : c ≠ .forget key) :
    (t.call c).deadlines key = some d ∧ (t.call c).preClock key = false := by
  cases c with
  | observeEventTime ts =>
      obtain ⟨-, hdeadlines, hsame⟩ := observeEventTime_other t ts
      exact ⟨(congrFun hdeadlines key).trans hd, (congrFun hsame key).trans hwaits⟩
  | touch k =>
      have hk : key ≠ k := fun heq => htouch (by rw [heq])
      obtain ⟨hdeadline, hsame, -⟩ := touch_other hk t
      exact ⟨hdeadline.trans hd, hsame.trans hwaits⟩
  | advanceWatermark ms =>
      unfold StateTtlTracker.call
      dsimp only
      cases hmoved : (t.advanceWatermark ms).2 with
      | false =>
          rw [advanceWatermark_still hmoved]
          exact ⟨hd, hwaits⟩
      | true =>
          rw [(advanceWatermark_moved hmoved).2]
          refine ⟨?_, rfl⟩
          dsimp only
          rw [hwaits]
          exact hd
  | forget k =>
      have hk : key ≠ k := fun heq => hforget (by rw [heq])
      unfold StateTtlTracker.call forget
      exact ⟨by simp [hk, hd], by simp [hwaits]⟩
  | flush slot => exact ⟨hd, hwaits⟩
  | restore slot =>
      refine ⟨?_, hwaits⟩
      change (slot key).or (t.deadlines key) = some d
      cases hslot : slot key with
      | none => exact hd
      | some d' => rw [(hsound key d' hslot).2.1 d hd]; rfl
  | enrolRestoredKey k =>
      unfold StateTtlTracker.call enrolRestoredKeys
      exact ⟨hd, by simp [hwaits, hd]⟩

/-- What holds along a run: each of the three dues is kept. -/
structure Owed (init : StateTtlTracker κ) (cs : List (Call κ)) (t : StateTtlTracker κ) : Prop where
  ttl : t.ttlMs = init.ttlMs
  highest : Highest cs t
  unclocked : (∀ ms, .advanceWatermark ms ∉ cs) → t.watermarkMs = none
  waits : ∀ key, Pending cs key → Waits init cs t key
  after : ∀ key e, TouchedAfter cs key e → Keeps init cs t key (e + init.ttlMs)
  before : ∀ key w, TouchedBefore cs key w → Keeps init cs t key (w + init.ttlMs)
  restored : ∀ key d, Restored cs key d → t.deadlines key = some d ∧ t.preClock key = false

theorem owed_fresh (t : StateTtlTracker κ) : Owed t.fresh [] t.fresh where
  ttl := rfl
  highest := ⟨fun e he => (List.not_mem_nil he).elim, fun hsome => nomatch hsome⟩
  unclocked := fun _ => rfl
  waits := fun key h => (List.not_mem_nil h.touched).elim
  after := fun key e ⟨pre, post, heq, _⟩ => by simp at heq
  before := fun key w ⟨pre, post, heq, _⟩ => by simp at heq
  restored := fun key d ⟨pre, slot, post, heq, _⟩ => by simp at heq

section

variable (h : Owed init cs t)
include h

private theorem Owed.unclocked_call (hnone : ∀ ms, .advanceWatermark ms ∉ cs ++ [c]) :
    (t.call c).watermarkMs = none := by
  have hc : ∀ ms, c ≠ .advanceWatermark ms := fun ms heq =>
    hnone ms (List.mem_append_right _ (by rw [heq]; exact List.mem_cons_self))
  rw [watermarkMs_call t hc]
  exact h.unclocked fun ms hmem => hnone ms (List.mem_append_left _ hmem)

private theorem Owed.waits_call (hstate : t = cs.foldl StateTtlTracker.call init)
    (hsound : Sound init cs t c) (hpending : Pending (cs ++ [c]) key) :
    Waits init (cs ++ [c]) (t.call c) key := by
  rcases pending_snoc hpending with ⟨hbefore, huntouched⟩ | ⟨rfl, hclock, hunobserved⟩
  · refine (h.waits key hbefore).call hstate (h.unclocked hbefore.unclocked) hsound huntouched ?_
    rintro ms rfl
    exact hpending.unclocked ms (List.mem_append_right _ List.mem_cons_self)
  · -- Neither a clock nor an event time: the key is put among those that wait.
    have hnow := h.unclocked hclock
    have hhigh : t.highEventTs = none := by
      cases hsome : t.highEventTs with
      | none => rfl
      | some high =>
          obtain ⟨e, he⟩ := h.highest.observed (by rw [hsome]; rfl)
          exact absurd he (hunobserved e)
    refine .inl ?_
    change (t.touch key).preClock key = true
    unfold touch
    rw [hnow, hhigh]
    exact Function.update_self _ _ _

private theorem Owed.after_call (hstate : t = cs.foldl StateTtlTracker.call init)
    (hsound : Sound init cs t c) {e : Int} (hafter : TouchedAfter (cs ++ [c]) key e) :
    Keeps init (cs ++ [c]) (t.call c) key (e + init.ttlMs) := by
  have hstamp : .observeEventTime e ∈ cs →
      ∃ d, (t.touch key).deadlines key = some d ∧ e + init.ttlMs ≤ d := by
    intro hmem
    obtain ⟨high, hhigh, hle⟩ := h.highest.reaches e hmem
    rw [← h.ttl]
    exact touch_after hhigh hle key
  rcases touchedAfter_snoc hafter with hbefore | ⟨rfl, hmem⟩
  · obtain ⟨pre, post, hsplit, hmem⟩ := hbefore
    refine (h.after key e ⟨pre, post, hsplit, hmem⟩).call hstate hsound fun _ => hstamp ?_
    rw [hsplit]
    exact List.mem_append_left _ hmem
  · obtain ⟨d, hd, hle⟩ := hstamp hmem
    exact .inr (.inl ⟨d, hd, hle⟩)

private theorem Owed.before_call (hstate : t = cs.foldl StateTtlTracker.call init)
    (hsound : Sound init cs t c) {w : Int} (hbefore : TouchedBefore (cs ++ [c]) key w) :
    Keeps init (cs ++ [c]) (t.call c) key (w + init.ttlMs) := by
  rcases touchedBefore_snoc hbefore with ⟨hbefore, huntouched⟩ | ⟨rfl, hpending⟩
  · exact (h.before key w hbefore).call hstate hsound fun htouch => absurd htouch huntouched
  · -- The first watermark promotes the key.
    have hnow := h.unclocked hpending.unclocked
    have hmoved : (t.advanceWatermark w).2 = true := by
      unfold advanceWatermark
      rw [hnow]
      rfl
    unfold StateTtlTracker.call
    dsimp only
    rw [(advanceWatermark_moved hmoved).2]
    rcases h.waits key hpending with hwaits | ⟨hd, hwaits, hgone⟩
    · refine .inr (.inl ⟨w + t.ttlMs, by simp [hwaits], ?_⟩)
      rw [h.ttl]
    · refine .inr (.inr ⟨?_, rfl, hgone.snoc _⟩)
      dsimp only
      rw [hwaits, hd]
      rfl

private theorem Owed.restored_call (hsound : Sound init cs t c) {d : Int}
    (hrestored : Restored (cs ++ [c]) key d) :
    (t.call c).deadlines key = some d ∧ (t.call c).preClock key = false := by
  rcases restored_snoc hrestored with ⟨hbefore, huntouched, hkept⟩ | ⟨slot, rfl, hslot⟩
  · obtain ⟨hd, hwaits⟩ := h.restored key d hbefore
    exact deadline_call hd hwaits hsound huntouched hkept
  · refine ⟨?_, (hsound key d hslot).1⟩
    change (slot key).or (t.deadlines key) = some d
    rw [hslot]
    rfl

theorem Owed.call (hstate : t = cs.foldl StateTtlTracker.call init) (hsound : Sound init cs t c) :
    Owed init (cs ++ [c]) (t.call c) where
  ttl := (ttlMs_call t c).trans h.ttl
  highest := h.highest.call c
  unclocked := h.unclocked_call
  waits := fun _ hpending => h.waits_call hstate hsound hpending
  after := fun _ _ hafter => h.after_call hstate hsound hafter
  before := fun _ _ hbefore => h.before_call hstate hsound hbefore
  restored := fun _ _ hrestored => h.restored_call hsound hrestored

end

theorem owed_of_runs (h : Runs StateTtlTracker.call (Sound init.fresh) init.fresh cs t) :
    Owed init.fresh cs t :=
  h.induct (owed_fresh init) fun _ _ _ hrun ih hsound => ih.call hrun.state_eq hsound

/-- Along every run of sound calls on a tracker just built: a key touched after an
event time was observed is not reported before the ttl after it, one touched only
before the first watermark and without event times not before the ttl after that
watermark, and a restored deadline stays until the key is touched or forgotten. -/
theorem retention_covers_touches
    (h : Runs StateTtlTracker.call (Sound init.fresh) init.fresh cs t) :
    (∀ key e now, TouchedAfter cs key e → t.watermarkMs = some now → now < e + init.ttlMs →
      t.expired key = false) ∧
      (∀ key w now, TouchedBefore cs key w → t.watermarkMs = some now → now < w + init.ttlMs →
        t.expired key = false) ∧
      ∀ key d, Restored cs key d → t.deadlines key = some d := by
  have howed := owed_of_runs h
  refine ⟨fun key e now hafter hnow hlt => ?_, fun key w now hbefore hnow hlt => ?_,
    fun key d hrestored => ?_⟩
  · exact (howed.after key e hafter).not_expired hnow hlt
  · exact (howed.before key w hbefore).not_expired hnow hlt
  · exact (howed.restored key d hrestored).1

end Runs

def twentyMs : StateTtlTracker Nat where
  ttlMs := 20
  enabled := by decide

/-- A restored deadline, a touch before the first watermark and one after an event time. -/
def threeDues : List (Call Nat) :=
  [.restore fun k => if k = 9 then some 50 else none, .touch 7, .advanceWatermark 10,
    .observeEventTime 100, .touch 8, .advanceWatermark 20]

theorem retention_covers_touches_threeDues :
    (threeDues.foldl call twentyMs.fresh).expired 8 = false ∧
      (threeDues.foldl call twentyMs.fresh).expired 7 = false ∧
      (threeDues.foldl call twentyMs.fresh).deadlines 9 = some 50 := by
  have hrun : Runs call (Sound twentyMs.fresh) twentyMs.fresh threeDues
      (threeDues.foldl call twentyMs.fresh) := by
    refine Runs.of_allowed ⟨?_, trivial, ?_, trivial, trivial, ?_, trivial⟩
    · refine fun key d _ => ⟨rfl, fun d' hd' => (nomatch hd'), ?_⟩
      rintro ⟨pre, post, heq, -⟩
      simp at heq
    · intro _ key hwaits d hd
      obtain rfl : key = 7 := by
        by_contra hne
        simp [call, restore, touch, fresh, twentyMs, hne] at hwaits
      simp [call, restore, touch, fresh, twentyMs] at hd
    · intro _ key hwaits
      simp [call, restore, touch, fresh, twentyMs, advanceWatermark, stamp, observeEventTime]
        at hwaits
  obtain ⟨hafter, hbefore, hrestored⟩ := retention_covers_touches hrun
  refine ⟨hafter 8 100 20 ?_ rfl (by decide), hbefore 7 10 20 ?_ rfl (by decide),
    hrestored 9 50 ?_⟩
  · exact ⟨threeDues.take 4, threeDues.drop 5, rfl, by simp [threeDues]⟩
  · refine ⟨threeDues.take 2, threeDues.drop 3, rfl, ⟨?_, ?_, ?_⟩, ?_⟩
    · simp [threeDues]
    · simp [threeDues]
    · intro pre post heq e he
      rcases pre with _ | ⟨a, _ | ⟨b, pre⟩⟩
      · simp at he
      · simp [threeDues] at heq he
        rw [← he] at heq
        exact absurd heq.1 (by simp)
      · simp [threeDues] at heq
    · simp [threeDues]
  · exact ⟨[], _, threeDues.drop 1, rfl, rfl, by simp [threeDues], by simp [threeDues]⟩

/-- Touched without a clock, then after event time 100: the watermark 10 promotes the
key to 30, below the 120 it is owed. -/
def touchedTwice : List (Call Nat) :=
  [.touch 7, .observeEventTime 100, .touch 7, .advanceWatermark 10, .advanceWatermark 40]

theorem promotion_undercuts_touch :
    TouchedAfter touchedTwice 7 100 ∧
      (touchedTwice.foldl call twentyMs.fresh).watermarkMs = some 40 ∧
      40 < 100 + twentyMs.ttlMs ∧ (touchedTwice.foldl call twentyMs.fresh).expired 7 = true := by
  refine ⟨⟨touchedTwice.take 2, touchedTwice.drop 3, rfl, ?_⟩, rfl, by decide, by decide⟩
  simp [touchedTwice]

end StateTtlTracker

end Clink.Ports.StateTtl

import Clink.Verified.Run

/-!
# Steps that touch one key

A component whose state is a family indexed by keys, and whose step looks at
and changes the state of its event's key only (`atKey`).  What it emits for the
events of a key then depends on these events alone (`batches_filter_key`), so
any order of the events that keeps each key's own order gives every event the
same answer (`batches_eq_of_rearranged`).
-/

namespace Clink.Verified

variable {κ τ σ ε ω : Type*} [DecidableEq κ]

/-- A step on the state of the event's key. -/
def atKey (keyOf : ε → κ) (step : τ → ε → τ × List ω) (s : κ → τ) (e : ε) : (κ → τ) × List ω :=
  (Function.update s (keyOf e) (step (s (keyOf e)) e).1, (step (s (keyOf e)) e).2)

/-- The events with what each of them emits. -/
def batches (step : σ → ε → σ × List ω) (s : σ) : List ε → List (ε × List ω)
  | [] => []
  | e :: es => (e, (step s e).2) :: batches step (step s e).1 es

omit [DecidableEq κ] in
theorem foldl_emitting (step : σ → ε → σ × List ω) (s : σ) (out : List ω) (es : List ε) :
    (es.foldl (emitting step) (s, out)).2 = out ++ (batches step s es).flatMap Prod.snd := by
  induction es generalizing s out with
  | nil => simp [batches]
  | cons e es ih => simp [batches, emitting, ih]

/-- A key's events are answered from the key's own state. -/
theorem batches_filter_key (keyOf : ε → κ) (step : τ → ε → τ × List ω) (s : κ → τ) (es : List ε)
    (k : κ) :
    (batches (atKey keyOf step) s es).filter (fun b => keyOf b.1 = k) =
      batches step (s k) (es.filter fun e => keyOf e = k) := by
  induction es generalizing s with
  | nil => rfl
  | cons e es ih =>
      rw [batches]
      by_cases h : keyOf e = k
      · subst h
        rw [List.filter_cons_of_pos (by simp), List.filter_cons_of_pos (by simp), ih, batches]
        simp [atKey]
      · rw [List.filter_cons_of_neg (by simpa using h), List.filter_cons_of_neg (by simpa using h),
          ih, atKey]
        simp only
        rw [Function.update_of_ne (Ne.symm h)]

/-- The same events in an order that keeps the order of each key's. -/
def Rearranged (keyOf : ε → κ) (es es' : List ε) : Prop :=
  ∀ k, es'.filter (fun e => keyOf e = k) = es.filter fun e => keyOf e = k

/-- An event happens after the same events of its key in both orders. -/
theorem Rearranged.split {keyOf : ε → κ} {es es' pre' post' : List ε} {e : ε}
    (h : Rearranged keyOf es es') (hes' : es' = pre' ++ e :: post') :
    ∃ pre post, es = pre ++ e :: post ∧
      pre.filter (fun f => keyOf f = keyOf e) = pre'.filter fun f => keyOf f = keyOf e := by
  have hkey := h (keyOf e)
  rw [hes', List.filter_append, List.filter_cons_of_pos (by simp)] at hkey
  obtain ⟨pre, rest, rfl, hpre, hrest⟩ := List.filter_eq_append_iff.mp hkey.symm
  obtain ⟨skipped, post, rfl, hskipped, -, -⟩ := List.filter_eq_cons_iff.mp hrest
  refine ⟨pre ++ skipped, post, by simp, ?_⟩
  rw [List.filter_append, hpre, List.filter_eq_nil_iff.mpr hskipped, List.append_nil]

theorem batches_eq_of_rearranged {keyOf : ε → κ} {es es' : List ε} (h : Rearranged keyOf es es')
    (step : τ → ε → τ × List ω) (s : κ → τ) (k : κ) :
    (batches (atKey keyOf step) s es').filter (fun b => keyOf b.1 = k) =
      (batches (atKey keyOf step) s es).filter fun b => keyOf b.1 = k := by
  rw [batches_filter_key, batches_filter_key, h k]

omit [DecidableEq κ] in
theorem batches_eq_of_follows {σ' : Type*} {step : σ → ε → σ × List ω}
    {step' : σ' → ε → σ' × List ω} {R : σ → σ' → Prop}
    (hstep : ∀ s s' e, R s s' → R (step s e).1 (step' s' e).1 ∧ (step s e).2 = (step' s' e).2)
    {s : σ} {s' : σ'} (h : R s s') (es : List ε) : batches step s es = batches step' s' es := by
  induction es generalizing s s' with
  | nil => rfl
  | cons e es ih =>
      obtain ⟨hnext, hout⟩ := hstep s s' e h
      rw [batches, batches, hout, ih hnext]

end Clink.Verified

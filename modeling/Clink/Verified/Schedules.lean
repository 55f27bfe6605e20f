import Mathlib.Data.List.Basic

/-!
# Schedules of guarded steps

Several parties take turns: `step a s` is what action `a` does in `s`, or
`none` where it has to wait.  A schedule is any order in which enabled actions
happen.  With a measure that every step lowers, schedules are bounded and each
can be driven to a state in which every party waits; what is wanted of a
finished system is then a statement about the stuck states.

A system whose states are encodings of another's (`encode`) has the same
schedules, which is how a byte-level system is reasoned about by its messages.
-/

namespace Clink.Verified

variable {σ τ α : Type*} {step : α → σ → Option σ} {init s : σ} {as : List α}

/-- The actions `as`, each enabled when it happens, lead from `init` to `s`. -/
inductive Schedule (step : α → σ → Option σ) (init : σ) : List α → σ → Prop
  | nil : Schedule step init [] init
  | snoc {as : List α} {s t : σ} {a : α} :
      Schedule step init as s → step a s = some t → Schedule step init (as ++ [a]) t

/-- Every party waits. -/
def Stuck (step : α → σ → Option σ) (s : σ) : Prop := ∀ a, step a s = none

namespace Schedule

theorem induct {I : σ → Prop} (h : Schedule step init as s) (hinit : I init)
    (hstep : ∀ a s t, I s → step a s = some t → I t) : I s := by
  induction h with
  | nil => exact hinit
  | snoc _ hs ih => exact hstep _ _ _ ih hs

/-- A measure that every step lowers bounds the schedules. -/
theorem length_add_le {I : σ → Prop} {μ : σ → Nat} (h : Schedule step init as s) (hinit : I init)
    (hstep : ∀ a s t, I s → step a s = some t → I t)
    (hlower : ∀ a s t, I s → step a s = some t → μ t < μ s) : as.length + μ s ≤ μ init := by
  induction h with
  | nil => simp
  | snoc hrun hs ih =>
      have hdown := hlower _ _ _ (hrun.induct hinit hstep) hs
      rw [List.length_append, List.length_singleton]
      omega

theorem trans {bs : List α} {t : σ} (h : Schedule step init as s) (h' : Schedule step s bs t) :
    Schedule step init (as ++ bs) t := by
  induction h' with
  | nil =>
      rw [List.append_nil]
      exact h
  | snoc _ hs ih =>
      rw [← List.append_assoc]
      exact .snoc ih hs

/-- With a measure that every step lowers, a schedule comes to a stuck state. -/
theorem exists_stuck {I : σ → Prop} {μ : σ → Nat} (hinit : I init)
    (hstep : ∀ a s t, I s → step a s = some t → I t)
    (hlower : ∀ a s t, I s → step a s = some t → μ t < μ s) :
    ∃ as s, Schedule step init as s ∧ Stuck step s := by
  generalize hn : μ init = n
  induction n using Nat.strongRecOn generalizing init with
  | _ n ih =>
      by_cases hstuck : Stuck step init
      · exact ⟨[], init, .nil, hstuck⟩
      · simp only [Stuck, not_forall] at hstuck
        obtain ⟨a, ha⟩ := hstuck
        obtain ⟨t, ht⟩ := Option.ne_none_iff_exists'.mp ha
        obtain ⟨as, s, hrun, hend⟩ :=
          ih (μ t) (hn ▸ hlower a init t hinit ht) (hstep a init t hinit ht) rfl
        exact ⟨[] ++ [a] ++ as, s, trans (.snoc .nil ht) hrun, hend⟩

/-! ## Encoded systems -/

section Encoded

variable {stepE : α → τ → Option τ} {encode : σ → τ} {I : σ → Prop}

theorem of_encoded (hinit : I init) (hstep : ∀ a s t, I s → step a s = some t → I t)
    (hsim : ∀ a s, I s → stepE a (encode s) = (step a s).map encode) {x : τ}
    (h : Schedule stepE (encode init) as x) : ∃ s, Schedule step init as s ∧ x = encode s := by
  induction h with
  | nil => exact ⟨init, .nil, rfl⟩
  | @snoc as x y a hrun hs ih =>
      obtain ⟨s, hsched, rfl⟩ := ih
      rw [hsim a s (hsched.induct hinit hstep)] at hs
      obtain ⟨t, ht, rfl⟩ := Option.map_eq_some_iff.mp hs
      exact ⟨t, .snoc hsched ht, rfl⟩

theorem encoded (hinit : I init) (hstep : ∀ a s t, I s → step a s = some t → I t)
    (hsim : ∀ a s, I s → stepE a (encode s) = (step a s).map encode)
    (h : Schedule step init as s) : Schedule stepE (encode init) as (encode s) := by
  induction h with
  | nil => exact .nil
  | @snoc as s t a hrun hs ih =>
      refine .snoc ih ?_
      rw [hsim a s (hrun.induct hinit hstep), hs]
      rfl

theorem stuck_encoded (hsim : ∀ a s, I s → stepE a (encode s) = (step a s).map encode)
    (hs : I s) : Stuck stepE (encode s) ↔ Stuck step s := by
  simp only [Stuck, hsim _ s hs, Option.map_eq_none_iff]

end Encoded

end Schedule

end Clink.Verified

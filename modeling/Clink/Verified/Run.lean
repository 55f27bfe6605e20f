import Mathlib.Data.List.Induction

/-!
# Histories of a step function

A component is a step function `next : σ → ε → σ`: an event carries the call
made on it and whatever the environment chose (a schedule, an answer from
outside).  `Runs next ok init es s` says that `es` is a history the caller's
discipline `ok` allows, and that it leads to `s`.  The discipline of an event
may look at everything that happened before it, so "at most one terminal per
input" and "nothing after a close" are ordinary disciplines.

Histories grow at their end: what holds after a history is shown by
`Runs.induct`, one case for the start and one for one more event.  The
answers given along a history are collected by `answers`; a component that
emits runs as `emitting` its step.
-/

namespace Clink.Verified

variable {σ ε ω : Type*} {next : σ → ε → σ} {ok ok' : List ε → σ → ε → Prop}
  {init s : σ} {es pre post : List ε} {e : ε}

/-- The history `es`, each event allowed at the history and the state before
it, leads from `init` to `s`. -/
inductive Runs (next : σ → ε → σ) (ok : List ε → σ → ε → Prop) (init : σ) :
    List ε → σ → Prop
  | nil : Runs next ok init [] init
  | snoc {es : List ε} {s : σ} {e : ε} :
      Runs next ok init es s → ok es s e → Runs next ok init (es ++ [e]) (next s e)

namespace Runs

/-- The state a history leads to is the fold of its events. -/
theorem state_eq (h : Runs next ok init es s) : s = es.foldl next init := by
  induction h with
  | nil => rfl
  | snoc _ _ ih => rw [List.foldl_append, ← ih]; rfl

/-- The invariant rule: what holds at the start and is kept by every allowed
event holds after every history, the history being part of the claim. -/
theorem induct {I : List ε → σ → Prop} (h : Runs next ok init es s) (hinit : I [] init)
    (hstep : ∀ es s e, Runs next ok init es s → I es s → ok es s e →
      I (es ++ [e]) (next s e)) : I es s := by
  induction h with
  | nil => exact hinit
  | snoc hrun hok ih => exact hstep _ _ _ hrun ih hok

/-- A stricter discipline allows fewer histories. -/
theorem mono (h : Runs next ok init es s)
    (himp : ∀ es s e, ok es s e → ok' es s e) : Runs next ok' init es s := by
  induction h with
  | nil => exact .nil
  | snoc _ hok ih => exact .snoc ih (himp _ _ _ hok)

/-- Every event of a history was allowed where it happened. -/
theorem split (h : Runs next ok init es s) : ∀ {pre e post}, es = pre ++ e :: post →
    ∃ t, Runs next ok init pre t ∧ ok pre t e ∧
      Runs next ok init (pre ++ [e]) (next t e) := by
  induction h with
  | nil => intro pre e post heq; simp at heq
  | @snoc es s f hrun hok ih =>
      intro pre e post heq
      rcases List.eq_nil_or_concat post with rfl | ⟨post', g, rfl⟩
      · obtain ⟨rfl, hf⟩ := List.append_inj' heq rfl
        obtain rfl : f = e := by simpa using hf
        exact ⟨s, hrun, hok, .snoc hrun hok⟩
      · rw [List.concat_eq_append, ← List.cons_append, ← List.append_assoc] at heq
        obtain ⟨hes, -⟩ := List.append_inj' heq rfl
        exact ih hes

/-- The events `es` are allowed one after the other, from a state reached by `pre`. -/
def Allowed (next : σ → ε → σ) (ok : List ε → σ → ε → Prop) : List ε → σ → List ε → Prop
  | _, _, [] => True
  | pre, s, e :: es => ok pre s e ∧ Allowed next ok (pre ++ [e]) (next s e) es

instance decidableAllowed [∀ es s e, Decidable (ok es s e)] :
    ∀ pre s es, Decidable (Allowed next ok pre s es)
  | _, _, [] => .isTrue trivial
  | pre, s, e :: es =>
      haveI := decidableAllowed (pre ++ [e]) (next s e) es
      inferInstanceAs (Decidable (_ ∧ _))

theorem allowed_append {pre : List ε} : Allowed next ok pre s (es ++ post) ↔
    Allowed next ok pre s es ∧ Allowed next ok (pre ++ es) (es.foldl next s) post := by
  induction es generalizing pre s with
  | nil => simp [Allowed]
  | cons e es ih =>
      simp only [List.cons_append, Allowed, List.foldl_cons, ih, List.append_assoc,
        List.nil_append, and_assoc]

private theorem extend (h : Runs next ok init pre s) (hall : Allowed next ok pre s es) :
    Runs next ok init (pre ++ es) (es.foldl next s) := by
  induction es generalizing pre s with
  | nil =>
      rw [List.append_nil]
      exact h
  | cons e es ih =>
      have hrest := ih (.snoc h hall.1) hall.2
      rw [List.append_assoc] at hrest
      exact hrest

theorem of_allowed (hall : Allowed next ok [] init es) :
    Runs next ok init es (es.foldl next init) :=
  extend .nil hall

theorem start (h : Runs next ok init (pre ++ post) s) :
    Runs next ok init pre (pre.foldl next init) := by
  cases post with
  | nil =>
      rw [List.append_nil] at h
      rw [← h.state_eq]
      exact h
  | cons e post =>
      rcases h.split rfl with ⟨t, hrun, -, -⟩
      rw [← hrun.state_eq]
      exact hrun

/-- A history each of whose steps meets a condition runs under it. -/
theorem strengthen {P : σ → ε → Prop} (h : Runs next ok init es s)
    (hcond : ∀ pre e post, es = pre ++ e :: post → P (pre.foldl next init) e) :
    Runs next (fun es s e => ok es s e ∧ P s e) init es s := by
  induction h with
  | nil => exact .nil
  | @snoc es s e hrun hok ih =>
      have hlast := hcond es e [] rfl
      rw [← hrun.state_eq] at hlast
      refine .snoc (ih ?_) ⟨hok, hlast⟩
      intro pre f post hes
      exact hcond pre f (post ++ [e]) (by rw [hes]; simp)

variable {okAt : σ → ε → Prop}

/-- Under an invariant that allows every event, every history is allowed. -/
theorem allowed_of_inv {I : σ → Prop} (hkeep : ∀ s e, I s → I (next s e))
    (hok : ∀ s e, I s → okAt s e) (hinit : I init) :
    Allowed next (fun _ s e => okAt s e) post init es := by
  induction es generalizing init post with
  | nil => trivial
  | cons e es ih => exact ⟨hok init e hinit, ih (hkeep init e hinit)⟩

/-- The exact rule: where allowed steps keep an invariant that gives the
property, and only they keep the property, it holds all along a history if and
only if all of the history is allowed. -/
theorem allowed_iff_of_inv {J P : σ → Prop} (hJP : ∀ s, J s → P s)
    (hkeep : ∀ s e, J s → okAt s e → J (next s e)) (hneed : ∀ s e, J s → P (next s e) → okAt s e)
    (hinit : J init) :
    (∀ pre, pre <+: es → P (pre.foldl next init)) ↔
      Allowed next (fun _ s e => okAt s e) post init es := by
  induction es generalizing init post with
  | nil =>
      refine iff_of_true ?_ trivial
      intro pre hpre
      rw [List.prefix_nil.mp hpre]
      exact hJP init hinit
  | cons e es ih =>
      constructor
      · intro hall
        have hok : okAt init e := hneed init e hinit (hall [e] (by simp))
        refine ⟨hok, (ih (hkeep init e hinit hok)).mp ?_⟩
        intro pre hpre
        exact hall (e :: pre) (List.cons_prefix_cons.mpr ⟨rfl, hpre⟩)
      · intro hallowed pre hpre
        have hrest := (ih (hkeep init e hinit hallowed.1)).mpr hallowed.2
        cases pre with
        | nil => exact hJP init hinit
        | cons e' pre =>
            obtain ⟨rfl, htail⟩ := List.cons_prefix_cons.mp hpre
            exact hrest pre htail

/-- The same, where a step keeps the property if and only if it is allowed and
the invariant is kept by every step. -/
theorem allowed_iff {I P : σ → Prop} (hkeep : ∀ s e, I s → I (next s e))
    (hstep : ∀ s e, I s → P s → (P (next s e) ↔ okAt s e)) (hinit : I init) (hP : P init) :
    (∀ pre, pre <+: es → P (pre.foldl next init)) ↔
      Allowed next (fun _ s e => okAt s e) post init es := by
  refine allowed_iff_of_inv (J := fun s => I s ∧ P s) (fun _ h => h.2) ?_ ?_ ⟨hinit, hP⟩
  · intro s e h hok
    exact ⟨hkeep s e h.1, (hstep s e h.1 h.2).mpr hok⟩
  · intro s e h hnext
    exact (hstep s e h.1 h.2).mp hnext

end Runs

/-! ## The answers along a history -/

/-- The answers `out` gives, event by event. -/
def answers (next : σ → ε → σ) (out : σ → ε → ω) (init : σ) : List ε → List ω
  | [] => []
  | e :: es => out init e :: answers next out (next init e) es

@[simp] theorem answers_nil (out : σ → ε → ω) : answers next out init [] = [] := rfl

/-- The last answer is given at the state the earlier events lead to. -/
theorem answers_snoc (out : σ → ε → ω) (init : σ) (es : List ε) (e : ε) :
    answers next out init (es ++ [e]) =
      answers next out init es ++ [out (es.foldl next init) e] := by
  induction es generalizing init with
  | nil => rfl
  | cons f es ih =>
      simp only [List.cons_append, answers, List.foldl_cons]
      rw [ih]

/-- The simulation rule: two states whose related steps give the same answers
answer every history they both allow in the same way. -/
theorem answers_eq_of_simulation {R : σ → σ → Prop} {okAt okAt' : σ → ε → Prop} {out : σ → ε → ω}
    (hstep : ∀ s s' e, R s s' → okAt s e → okAt' s' e →
      R (next s e) (next s' e) ∧ out s e = out s' e)
    {s s' : σ} {pre pre' : List ε} (h : R s s')
    (hall : Runs.Allowed next (fun _ s e => okAt s e) pre s es)
    (hall' : Runs.Allowed next (fun _ s e => okAt' s e) pre' s' es) :
    answers next out s es = answers next out s' es := by
  induction es generalizing s s' pre pre' with
  | nil => rfl
  | cons e es ih =>
      obtain ⟨hnext, hout⟩ := hstep s s' e h hall.1 hall'.1
      simp only [answers]
      rw [hout, ih hnext hall.2 hall'.2]

/-- Along a history the last answer is given at its own last state. -/
theorem Runs.answers_snoc (h : Runs next ok init es s) (out : σ → ε → ω) (e : ε) :
    answers next out init (es ++ [e]) = answers next out init es ++ [out s e] := by
  rw [Verified.answers_snoc, ← h.state_eq]

/-! ## Steps that emit -/

/-- A step that emits, on a state that keeps everything emitted so far. -/
def emitting (step : σ → ε → σ × List ω) (s : σ × List ω) (e : ε) : σ × List ω :=
  ((step s.1 e).1, s.2 ++ (step s.1 e).2)

end Clink.Verified

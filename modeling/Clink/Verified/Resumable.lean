import Mathlib.Data.List.Basic

/-!
# Computations that stop at their requests

A suspended computation is the request it waits for and what it does with the
answer.  `after` follows a computation along a transcript of requests and
answers; it fails when the transcript answers a request the computation did
not make, so `c.after t = some rest` says that `t` is how `c` really went.
-/

namespace Clink.Verified

inductive Resumable (Q A : Type) where
  | done
  | ask (q : Q) (next : A → Resumable Q A)

namespace Resumable

variable {Q A : Type} [DecidableEq Q]

/-- What is left of a computation once the transcript has happened. -/
def after : Resumable Q A → List (Q × A) → Option (Resumable Q A)
  | c, [] => some c
  | .done, _ :: _ => none
  | .ask q next, (q', a) :: rest => if q = q' then (next a).after rest else none

@[simp] theorem after_nil (c : Resumable Q A) : c.after [] = some c := by
  cases c <;> rfl

/-- One more answer, to the request the computation has stopped at. -/
theorem after_snoc {c : Resumable Q A} {t : List (Q × A)} {q : Q} {next : A → Resumable Q A}
    (h : c.after t = some (.ask q next)) (a : A) : c.after (t ++ [(q, a)]) = some (next a) := by
  induction t generalizing c with
  | nil =>
      rw [after_nil] at h
      obtain rfl := Option.some.inj h
      simp [after]
  | cons e rest ih =>
      obtain ⟨q', a'⟩ := e
      cases c with
      | done => simp [after] at h
      | ask q₀ next₀ =>
          simp only [after, List.cons_append] at h ⊢
          by_cases hq : q₀ = q'
          · rw [if_pos hq] at h ⊢
            exact ih h
          · rw [if_neg hq] at h
            exact absurd h (by simp)

end Resumable

end Clink.Verified

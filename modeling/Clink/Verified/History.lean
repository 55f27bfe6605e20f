import Mathlib.Data.List.Basic

/-!
# Histories whose actions are permitted by what came before them

A history is the list of what a system did, oldest first.  `Grew` says that
one history continues another by actions of some kind.  A history is lawful
under a rule when every action of it was permitted by the history before that
action, and is grown one permitted action at a time.  `Occurred` is the
dual: some action of the history was of a kind that may depend on what came
before it.
-/

namespace Clink.Verified

variable {α : Type*} {P : List α → α → Prop} {Q R : α → Prop} {log log' log'' : List α} {a : α}

/-- The second history is the first with actions of the kind after it. -/
def Grew (Q : α → Prop) (log log' : List α) : Prop :=
  ∃ more, log' = log ++ more ∧ ∀ a ∈ more, Q a

namespace Grew

theorem refl (Q : α → Prop) (log : List α) : Grew Q log log := ⟨[], by simp⟩

theorem snoc (h : Q a) : Grew Q log (log ++ [a]) := ⟨[a], rfl, by simpa using h⟩

theorem trans (h : Grew Q log log') (h' : Grew Q log' log'') : Grew Q log log'' := by
  obtain ⟨more, hlog, hmore⟩ := h
  obtain ⟨more', hlog', hmore'⟩ := h'
  refine ⟨more ++ more', by rw [hlog', hlog, List.append_assoc], ?_⟩
  intro a ha
  rcases List.mem_append.mp ha with ha | ha
  · exact hmore a ha
  · exact hmore' a ha

theorem imp (h : Grew Q log log') (hQ : ∀ a, Q a → R a) : Grew R log log' := by
  obtain ⟨more, hlog, hmore⟩ := h
  exact ⟨more, hlog, fun a ha => hQ a (hmore a ha)⟩

theorem mem (h : Grew Q log log') (ha : a ∈ log) : a ∈ log' := by
  obtain ⟨more, hlog, -⟩ := h
  rw [hlog]
  exact List.mem_append_left _ ha

theorem mem_or (h : Grew Q log log') (ha : a ∈ log') : a ∈ log ∨ Q a := by
  obtain ⟨more, hlog, hmore⟩ := h
  rw [hlog] at ha
  rcases List.mem_append.mp ha with ha | ha
  · exact .inl ha
  · exact .inr (hmore a ha)

end Grew

def Lawful (P : List α → α → Prop) (log : List α) : Prop :=
  ∀ before a after, log = before ++ a :: after → P before a

namespace Lawful

theorem nil : Lawful P [] := by
  intro before a after h
  simp at h

theorem snoc (h : Lawful P log) (ha : P log a) : Lawful P (log ++ [a]) := by
  intro before b after hsplit
  rcases List.eq_nil_or_concat after with hafter | ⟨after', last, hafter⟩
  · rw [hafter] at hsplit
    obtain ⟨hlog, hlast⟩ := List.append_inj' hsplit rfl
    rw [← hlog, ← List.singleton_inj.mp hlast]
    exact ha
  · rw [hafter, List.concat_eq_append, ← List.cons_append, ← List.append_assoc] at hsplit
    exact h before b after' (List.append_inj' hsplit rfl).1

/-- Actions that are always permitted keep a history lawful. -/
theorem grew (h : Lawful P log) (hgrew : Grew (fun a => ∀ before, P before a) log log') :
    Lawful P log' := by
  obtain ⟨more, hlog, hmore⟩ := hgrew
  rw [hlog]
  clear hlog
  induction more generalizing log with
  | nil => simpa using h
  | cons a more ih =>
      have hfirst : Lawful P (log ++ [a]) := h.snoc (hmore a List.mem_cons_self log)
      have hrest := ih hfirst fun b hb => hmore b (List.mem_cons_of_mem _ hb)
      simpa using hrest

theorem start (h : Lawful P (log ++ log')) : Lawful P log := by
  intro before a after hlog
  exact h before a (after ++ log') (by rw [hlog]; simp)

end Lawful

/-- Some action of the history had the property where it happened. -/
def Occurred (P : List α → α → Prop) (log : List α) : Prop :=
  ∃ before a after, log = before ++ a :: after ∧ P before a

namespace Occurred

theorem not_nil : ¬ Occurred P [] := by
  rintro ⟨before, a, after, h, -⟩
  simp at h

/-- What occurred in a history and one more action. -/
theorem snoc_iff : Occurred P (log ++ [a]) ↔ Occurred P log ∨ P log a := by
  constructor
  · rintro ⟨before, b, after, hsplit, hb⟩
    rcases List.eq_nil_or_concat after with hafter | ⟨after', last, hafter⟩
    · rw [hafter] at hsplit
      obtain ⟨hlog, hlast⟩ := List.append_inj' hsplit rfl
      right
      rw [hlog, List.singleton_inj.mp hlast]
      exact hb
    · rw [hafter, List.concat_eq_append, ← List.cons_append, ← List.append_assoc] at hsplit
      exact .inl ⟨before, b, after', (List.append_inj' hsplit rfl).1, hb⟩
  · intro h
    rcases h with ⟨before, b, after, hlog, hb⟩ | ha
    · exact ⟨before, b, after ++ [a], by rw [hlog]; simp, hb⟩
    · exact ⟨log, a, [], rfl, ha⟩

theorem append (h : Occurred P log) (log' : List α) : Occurred P (log ++ log') := by
  obtain ⟨before, a, after, hlog, ha⟩ := h
  exact ⟨before, a, after ++ log', by rw [hlog]; simp, ha⟩

end Occurred

end Clink.Verified

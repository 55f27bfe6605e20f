import Mathlib.Order.Lattice
import Mathlib.Data.List.Basic
import Mathlib.Data.List.TakeWhile

/-!
# Items that come before a deadline is marked

A log is a list of arrivals: items, and marks on a linear order.  A deadline is
closed once a mark at or past it has come, whatever came since, and `covered`
are the items that came before that: they are what a result released at the
deadline is about.  An arrival at a closed deadline changes nothing
(`covered_snoc_of_closed`).
-/

namespace Clink.Verified

variable {α τ : Type*}

inductive Arrival (α τ : Type*) where
  | item (a : α)
  | mark (t : τ)

namespace Arrival

/-- The item, if it is one that `p` asks for. -/
def item? (p : α → Bool) : Arrival α τ → Option α
  | item a => if p a then some a else none
  | mark _ => none

variable [LinearOrder τ]

/-- A mark at or past the deadline. -/
def closes (d : τ) : Arrival α τ → Bool
  | item _ => false
  | mark t => d ≤ t

end Arrival

variable [LinearOrder τ] {d : τ} {log : List (Arrival α τ)} {p : α → Bool} {i j : Nat}

/-- A mark at or past the deadline has come. -/
def Closed (d : τ) (log : List (Arrival α τ)) : Prop := ∃ t, .mark t ∈ log ∧ d ≤ t

/-- The items `p` asks for that came while the deadline was not closed. -/
def covered (p : α → Bool) (d : τ) (log : List (Arrival α τ)) : List α :=
  (log.takeWhile fun x => !x.closes d).filterMap (Arrival.item? p)

/-- The arrival at the position closes the deadline. -/
def ClosedAt (d : τ) (log : List (Arrival α τ)) (i : Nat) : Prop :=
  Closed d (log.take (i + 1)) ∧ ¬Closed d (log.take i)

/-! ## One more arrival -/

theorem closed_snoc {x : Arrival α τ} :
    Closed d (log ++ [x]) ↔ Closed d log ∨ x.closes d = true := by
  cases x with
  | item a => simp [Closed, Arrival.closes]
  | mark t =>
      simp only [Closed, List.mem_append, List.mem_singleton, Arrival.mark.injEq, Arrival.closes,
        decide_eq_true_eq]
      constructor
      · rintro ⟨t', hmem | rfl, hle⟩
        · exact .inl ⟨t', hmem, hle⟩
        · exact .inr hle
      · rintro (⟨t', hmem, hle⟩ | hle)
        · exact ⟨t', .inl hmem, hle⟩
        · exact ⟨t, .inr rfl, hle⟩

@[simp] theorem closed_snoc_item {a : α} : Closed d (log ++ [.item a]) ↔ Closed d log := by
  rw [closed_snoc]
  simp [Arrival.closes]

@[simp] theorem closed_snoc_mark {t : τ} :
    Closed d (log ++ [.mark t]) ↔ Closed d log ∨ d ≤ t := by
  rw [closed_snoc]
  simp [Arrival.closes]

theorem closed_iff_exists_closes : Closed d log ↔ ∃ x ∈ log, x.closes d = true := by
  constructor
  · rintro ⟨t, hmem, hle⟩
    exact ⟨_, hmem, by simpa [Arrival.closes] using hle⟩
  · rintro ⟨x, hmem, hcl⟩
    cases x with
    | item a => cases hcl
    | mark t => exact ⟨t, hmem, by simpa [Arrival.closes] using hcl⟩

theorem Closed.append (h : Closed d log) (rest : List (Arrival α τ)) : Closed d (log ++ rest) := by
  obtain ⟨t, hmem, hle⟩ := h
  exact ⟨t, List.mem_append_left _ hmem, hle⟩

/-- Before the deadline is closed nothing is cut off. -/
theorem takeWhile_of_open (h : ¬Closed d log) :
    (log.takeWhile fun x => !x.closes d) = log := by
  rw [List.takeWhile_eq_self_iff]
  intro x hx
  by_contra hcl
  exact h (closed_iff_exists_closes.mpr ⟨x, hx, by simpa using hcl⟩)

private theorem takeWhile_append_of_closed (h : Closed d log) (rest : List (Arrival α τ)) :
    ((log ++ rest).takeWhile fun x => !x.closes d) = log.takeWhile fun x => !x.closes d := by
  obtain ⟨x, hmem, hcl⟩ := closed_iff_exists_closes.mp h
  induction log with
  | nil => cases hmem
  | cons y log ih =>
      by_cases hy : y.closes d = true
      · simp [hy]
      · rcases List.mem_cons.mp hmem with rfl | hmem
        · exact absurd hcl hy
        · have hlog : Closed d log := closed_iff_exists_closes.mpr ⟨x, hmem, hcl⟩
          simp [hy, ih hlog hmem]

theorem covered_snoc_of_closed (h : Closed d log) (x : Arrival α τ) :
    covered p d (log ++ [x]) = covered p d log := by
  unfold covered
  rw [takeWhile_append_of_closed h]

theorem covered_of_open (h : ¬Closed d log) :
    covered p d log = log.filterMap (Arrival.item? p) := by
  unfold covered
  rw [takeWhile_of_open h]

theorem covered_snoc_item_of_open (h : ¬Closed d log) (a : α) :
    covered p d (log ++ [.item a]) =
      if p a then covered p d log ++ [a] else covered p d log := by
  have hopen : ¬Closed d (log ++ [.item a]) := by simpa using h
  rw [covered_of_open h, covered_of_open hopen, List.filterMap_append]
  by_cases hp : p a <;> simp [Arrival.item?, hp]

@[simp] theorem covered_snoc_mark (t : τ) : covered p d (log ++ [.mark t]) = covered p d log := by
  by_cases h : Closed d log
  · exact covered_snoc_of_closed h _
  · unfold covered
    rw [List.takeWhile_append_of_pos, takeWhile_of_open h]
    · by_cases ht : d ≤ t <;> simp [Arrival.closes, Arrival.item?, ht]
    · intro x hx
      by_contra hcl
      exact h (closed_iff_exists_closes.mpr ⟨x, hx, by simpa using hcl⟩)

@[simp] theorem covered_nil : covered p d ([] : List (Arrival α τ)) = [] := rfl

@[simp] theorem not_closed_nil : ¬Closed d ([] : List (Arrival α τ)) := by
  rintro ⟨t, hmem, -⟩
  cases hmem

/-! ## The position that closes a deadline -/

theorem ClosedAt.lt_length (h : ClosedAt d log i) : i < log.length := by
  by_contra hge
  have htake : log.take (i + 1) = log.take i := by
    rw [List.take_of_length_le (by omega), List.take_of_length_le (by omega)]
  rw [ClosedAt, htake] at h
  exact h.2 h.1

theorem ClosedAt.closed (h : ClosedAt d log i) : Closed d log := by
  have happ := h.1.append (log.drop (i + 1))
  rwa [List.take_append_drop] at happ

/-- The new arrival closes what it reaches that was open, and the earlier ones
what they did. -/
theorem closedAt_snoc {x : Arrival α τ} : ClosedAt d (log ++ [x]) i ↔
    ClosedAt d log i ∨ i = log.length ∧ ¬Closed d log ∧ x.closes d = true := by
  rcases Nat.lt_trichotomy i log.length with hlt | rfl | hgt
  · have htake : (log ++ [x]).take (i + 1) = log.take (i + 1) :=
      List.take_append_of_le_length (by omega)
    have htake' : (log ++ [x]).take i = log.take i := List.take_append_of_le_length (by omega)
    simp only [ClosedAt, htake, htake', hlt.ne, false_and, or_false]
  · have hnot : ¬ClosedAt d log log.length := fun h => lt_irrefl _ h.lt_length
    have htake : (log ++ [x]).take (log.length + 1) = log ++ [x] := by
      rw [List.take_of_length_le (by simp)]
    simp only [ClosedAt, htake, List.take_left, closed_snoc, true_and] at hnot ⊢
    tauto
  · have hnot : ¬ClosedAt d log i := fun h => absurd h.lt_length (by omega)
    have hnot' : ¬ClosedAt d (log ++ [x]) i := fun h => by
      have := h.lt_length
      rw [List.length_append, List.length_singleton] at this
      omega
    simp [hnot, hnot', hgt.ne']

end Clink.Verified

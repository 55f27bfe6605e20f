import Mathlib.Algebra.Order.Ring.Int
import Mathlib.Data.List.Basic

/-!
# Event time and watermarks

The embedding of `include/clink/time/event_time.hpp` and
`include/clink/time/watermark.hpp`.  An event time is a 64-bit millisecond
count; the width is a field, so the extreme times really are extreme
(`⊥` and `⊤`).  A watermark is an event time with an idle mark, ordered by
the time first and the mark second, as the defaulted comparison does.
-/

namespace Clink.Ports.Time

/-- Signed 64-bit addition as the machine performs it. -/
def add64 (a b : Int) : Int := (a + b).bmod (2 ^ 64)

theorem add64_eq {a b : Int} (hlower : -2 ^ 63 ≤ a + b) (hupper : a + b ≤ 2 ^ 63 - 1) :
    add64 a b = a + b := by
  unfold add64
  rw [Int.bmod_eq_of_le] <;> omega

/-- Milliseconds since the epoch, a signed 64-bit count. -/
structure EventTime where
  millis : Int
  lower : -2 ^ 63 ≤ millis
  upper : millis ≤ 2 ^ 63 - 1

namespace EventTime

theorem millis_injective : Function.Injective millis := by
  rintro ⟨a, _, _⟩ ⟨b, _, _⟩ h
  simpa using h

instance : LinearOrder EventTime := LinearOrder.lift' millis millis_injective

instance : BoundedOrder EventTime where
  bot := ⟨-2 ^ 63, by decide, by decide⟩
  top := ⟨2 ^ 63 - 1, by decide, by decide⟩
  bot_le a := a.lower
  le_top a := a.upper

end EventTime

structure Watermark where
  timestamp : EventTime
  isIdle : Bool := false

namespace Watermark

/-- `Watermark::min()`. -/
def min : Watermark := ⟨⊥, false⟩

/-- `Watermark::max()`. -/
def max : Watermark := ⟨⊤, false⟩

/-- `Watermark::idle(t)`. -/
def idle (t : EventTime) : Watermark := ⟨t, true⟩

/-- The defaulted comparison: the timestamp, then the idle mark. -/
def lt (a b : Watermark) : Prop :=
  a.timestamp < b.timestamp ∨
    a.timestamp = b.timestamp ∧ a.isIdle = false ∧ b.isIdle = true

instance (a b : Watermark) : Decidable (a.lt b) := inferInstanceAs (Decidable (_ ∨ _))

/-- `std::min_element`: the first of the smallest, from a first candidate. -/
def minElement (first : Watermark) (rest : List Watermark) : Watermark :=
  rest.foldl (fun m w => if w.lt m then w else m) first

theorem minElement_spec (first : Watermark) (rest : List Watermark) :
    minElement first rest ∈ first :: rest ∧
      ∀ w ∈ first :: rest, (minElement first rest).timestamp ≤ w.timestamp := by
  induction rest generalizing first with
  | nil => simp [minElement]
  | cons w rest ih =>
      have hstep : minElement first (w :: rest) =
          minElement (if w.lt first then w else first) rest := rfl
      obtain ⟨hmem, hle⟩ := ih (if w.lt first then w else first)
      rw [hstep]
      -- The kept candidate is one of the two and not later than either.
      have hkept : ∀ x ∈ [first, w],
          (if w.lt first then w else first).timestamp ≤ x.timestamp := by
        intro x hx
        by_cases hlt : w.lt first
        · rw [if_pos hlt]
          have hwle : w.timestamp ≤ first.timestamp := by
            rcases hlt with h | ⟨h, -⟩
            · exact le_of_lt h
            · exact le_of_eq h
          rcases List.mem_pair.mp hx with rfl | rfl
          · exact hwle
          · exact le_refl _
        · rw [if_neg hlt]
          have hfle : first.timestamp ≤ w.timestamp :=
            not_lt.mp fun h => hlt (.inl h)
          rcases List.mem_pair.mp hx with rfl | rfl
          · exact le_refl _
          · exact hfle
      refine ⟨?_, fun x hx => ?_⟩
      · rcases List.mem_cons.mp hmem with h | h
        · rw [h]
          split <;> simp
        · exact List.mem_cons_of_mem _ (List.mem_cons_of_mem _ h)
      · have hcand := hle _ List.mem_cons_self
        rcases List.mem_cons.mp hx with rfl | hx
        · exact le_trans hcand (hkept x (by simp))
        · rcases List.mem_cons.mp hx with rfl | hx
          · exact le_trans hcand (hkept x (by simp))
          · exact hle x (List.mem_cons_of_mem _ hx)

end Watermark

end Clink.Ports.Time

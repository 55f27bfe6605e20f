import Mathlib.Data.List.Basic

/-!
# UTF-8 as a machine over bytes

A byte sequence is checked one byte at a time.  Between two characters a byte
starts a new one; inside a character the next byte has to be a continuation byte
within bounds that the first byte sets, which rules out overlong forms, surrogates
and code points past the last one.  A byte below `0x80` is a whole character, so it
never stands inside one: a text cut at such a byte is valid exactly when both of
its parts are.
-/

namespace Clink.Verified.Utf8

/-- Where a check stands between two bytes. -/
inductive State where
  /-- At the border of a character. -/
  | between
  /-- Inside one: the bounds of the next byte, and the plain continuation bytes after it. -/
  | owing (low high : UInt8) (more : Nat)
  /-- No continuation makes the text valid. -/
  | invalid
  deriving DecidableEq, Repr

/-- The state behind the first byte of a character. -/
def lead (b : UInt8) : State :=
  if b < 0x80 then .between
  else if b < 0xC2 then .invalid
  else if b < 0xE0 then .owing 0x80 0xBF 0
  else if b = 0xE0 then .owing 0xA0 0xBF 1
  else if b = 0xED then .owing 0x80 0x9F 1
  else if b < 0xF0 then .owing 0x80 0xBF 1
  else if b = 0xF0 then .owing 0x90 0xBF 2
  else if b < 0xF4 then .owing 0x80 0xBF 2
  else if b = 0xF4 then .owing 0x80 0x8F 2
  else .invalid

/-- The state once a continuation byte is read and `more` are left. -/
def continued : Nat → State
  | 0 => .between
  | more + 1 => .owing 0x80 0xBF more

def step : State → UInt8 → State
  | .between, b => lead b
  | .owing low high more, b =>
      if 0x80 ≤ b ∧ low ≤ b ∧ b ≤ high then continued more else .invalid
  | .invalid, _ => .invalid

def run (st : State) (bytes : List UInt8) : State := bytes.foldl step st

/-- The bytes are whole characters of UTF-8. -/
def Valid (bytes : List UInt8) : Prop := run .between bytes = .between

instance (bytes : List UInt8) : Decidable (Valid bytes) :=
  inferInstanceAs (Decidable (run .between bytes = .between))

/-- A byte that is a character of its own. -/
def Ascii (b : UInt8) : Prop := b < 0x80

instance (b : UInt8) : Decidable (Ascii b) := inferInstanceAs (Decidable (b < 0x80))

/-! ## Runs -/

@[simp] theorem run_nil (st : State) : run st [] = st := rfl

@[simp] theorem run_cons (st : State) (b : UInt8) (bytes : List UInt8) :
    run st (b :: bytes) = run (step st b) bytes := rfl

theorem run_append (st : State) (front back : List UInt8) :
    run st (front ++ back) = run (run st front) back :=
  List.foldl_append

@[simp] theorem run_invalid (bytes : List UInt8) : run .invalid bytes = .invalid := by
  induction bytes with
  | nil => rfl
  | cons b bytes ih =>
      rw [run_cons]
      exact ih

@[simp] theorem step_between_ascii {b : UInt8} (h : Ascii b) : step .between b = .between := by
  simp only [step, lead]
  exact if_pos h

/-- A character of one byte never stands inside another character. -/
theorem step_ascii {b : UInt8} (h : Ascii b) {st : State} (hst : st ≠ .between) :
    step st b = .invalid := by
  cases st with
  | between => exact absurd rfl hst
  | owing low high more =>
      rw [step, if_neg]
      rintro ⟨hb, -, -⟩
      exact absurd h (UInt8.not_lt.mpr hb)
  | invalid => rfl

theorem run_ascii {bytes : List UInt8} (h : ∀ b ∈ bytes, Ascii b) :
    run .between bytes = .between := by
  induction bytes with
  | nil => rfl
  | cons b bytes ih =>
      rw [run_cons, step_between_ascii (h b List.mem_cons_self)]
      exact ih fun b' hb' => h b' (List.mem_cons_of_mem _ hb')

/-! ## Valid texts -/

theorem valid_nil : Valid [] := rfl

theorem valid_of_ascii {bytes : List UInt8} (h : ∀ b ∈ bytes, Ascii b) : Valid bytes :=
  run_ascii h

/-- What stands behind a valid text is judged on its own. -/
theorem valid_append {front : List UInt8} (h : Valid front) (back : List UInt8) :
    Valid (front ++ back) ↔ Valid back := by
  rw [Valid, run_append, h, Valid]

theorem valid_ascii_append {front : List UInt8} (h : ∀ b ∈ front, Ascii b) (back : List UInt8) :
    Valid (front ++ back) ↔ Valid back :=
  valid_append (valid_of_ascii h) back

theorem valid_ascii_cons {b : UInt8} (h : Ascii b) (back : List UInt8) :
    Valid (b :: back) ↔ Valid back := by
  rw [Valid, run_cons, step_between_ascii h, Valid]

/-- A character of one byte cuts a text into two that are judged on their own. -/
theorem valid_append_ascii_cons {b : UInt8} (h : Ascii b) (front back : List UInt8) :
    Valid (front ++ b :: back) ↔ Valid front ∧ Valid back := by
  by_cases hfront : Valid front
  · rw [valid_append hfront, valid_ascii_cons h]
    simp [hfront]
  · rw [Valid, run_append, run_cons, step_ascii h hfront, run_invalid]
    simp [hfront]

/-- A code that moves the check as the byte it stands for keeps validity. -/
theorem run_flatMap {code : UInt8 → List UInt8}
    (h : ∀ st b, run st (code b) = step st b) (st : State) (bytes : List UInt8) :
    run st (bytes.flatMap code) = run st bytes := by
  induction bytes generalizing st with
  | nil => rfl
  | cons b bytes ih =>
      rw [List.flatMap_cons, run_append, h, ih, run_cons]

theorem valid_flatMap {code : UInt8 → List UInt8}
    (h : ∀ st b, run st (code b) = step st b) (bytes : List UInt8) :
    Valid (bytes.flatMap code) ↔ Valid bytes := by
  rw [Valid, run_flatMap h, Valid]

/-- A text of one-byte characters moves the check as any one of them does. -/
theorem run_ascii_eq_step {b : UInt8} (hb : Ascii b) {code : List UInt8}
    (hcode : ∀ c ∈ code, Ascii c) (hne : code ≠ []) (st : State) :
    run st code = step st b := by
  by_cases hst : st = .between
  · rw [hst, run_ascii hcode, step_between_ascii hb]
  · obtain ⟨c, more, rfl⟩ := List.exists_cons_of_ne_nil hne
    rw [run_cons, step_ascii (hcode c List.mem_cons_self) hst, run_invalid, step_ascii hb hst]

end Clink.Verified.Utf8

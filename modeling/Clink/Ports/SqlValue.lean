import Mathlib.Algebra.Order.Ring.Int
import Mathlib.Data.Char
import Mathlib.Data.List.Lex
import Mathlib.Data.Nat.Log

/-!
# Values of the SQL runtime

The values `JsonValue` (`include/clink/config/json.hpp`) holds in typed columns:
an int64, a DECIMAL, or a text.  A DECIMAL is kept by the runtime as a text with
a tag byte in front (`include/clink/config/decimal.hpp`), whose digits the
arrow library prints (`toText`); here it is its coefficient and scale, which
that text tells apart.
-/

namespace Clink.Ports.SqlValue

abbrev Text := List Char

/-- A value of a column; NULL is the absence of one. -/
inductive Value where
  | int (n : Int)
  | decimal (unscaled : Int) (scale : Nat)
  | string (text : Text)
  deriving DecidableEq

/-- `compare` of two texts: negative, zero or positive. -/
def compareText (a b : Text) : Int := if a < b then -1 else if b < a then 1 else 0

/-! ## Numbers -/

/-- The nearest double of an integer; of two, the one with an even last digit. -/
def toDouble (n : Int) : Int :=
  let m := n.natAbs
  if m ≤ 2 ^ 53 then n
  else
    let e := Nat.log2 m - 52
    let q := m / 2 ^ e
    let rest := m % 2 ^ e
    let half := 2 ^ (e - 1)
    let q := if rest > half ∨ (rest = half ∧ q % 2 = 1) then q + 1 else q
    n.sign * ((q * 2 ^ e : Nat) : Int)

def decimalSentinel : Char := Char.ofNat 1

variable (toText : Int → Nat → Text)

/-- The digits of a DECIMAL; a zero has no sign. -/
def decFormat (unscaled : Int) (scale : Nat) : Text :=
  let s := toText unscaled scale
  let magnitudeZero := s.all fun c => c == '-' || c == '.' || c == '0'
  if magnitudeZero && s.head? == some '-' then s.tail else s

/-- The text of a value the runtime keeps as one. -/
def asString : Value → Option Text
  | .int _ => none
  | .decimal unscaled scale => some (decimalSentinel :: decFormat toText unscaled scale)
  | .string text => some text

/-! ## JSON text -/

def hexDigit (n : Nat) : Char := if n < 10 then Char.ofNat (48 + n) else Char.ofNat (87 + n)

/-- A character inside a JSON string. -/
def escapeChar (c : Char) : Text :=
  if c = '"' then ['\\', '"']
  else if c = '\\' then ['\\', '\\']
  else if c.toNat = 8 then ['\\', 'b']
  else if c.toNat = 12 then ['\\', 'f']
  else if c = '\n' then ['\\', 'n']
  else if c = '\r' then ['\\', 'r']
  else if c = '\t' then ['\\', 't']
  else if c.toNat < 0x20 then
    ['\\', 'u', '0', '0', hexDigit (c.toNat / 16), hexDigit (c.toNat % 16)]
  else [c]

def escapeString (s : Text) : Text := '"' :: s.flatMap escapeChar ++ ['"']

/-- The JSON text of a value. -/
def serialize : Value → Text
  | .int n => (toString n).toList
  | .decimal unscaled scale => escapeString (decimalSentinel :: decFormat toText unscaled scale)
  | .string text => escapeString text

/-! ## Rounding keeps the order -/

/-- The nearest double of a natural number. -/
def nearestDouble (m : Nat) : Nat :=
  if m ≤ 2 ^ 53 then m
  else
    let e := Nat.log2 m - 52
    let q := m / 2 ^ e
    let rest := m % 2 ^ e
    let half := 2 ^ (e - 1)
    (if rest > half ∨ (rest = half ∧ q % 2 = 1) then q + 1 else q) * 2 ^ e

theorem toDouble_eq (n : Int) : toDouble n = n.sign * (nearestDouble n.natAbs : Int) := by
  simp only [toDouble, nearestDouble]
  split
  case isTrue => exact (Int.sign_mul_natAbs n).symm
  case isFalse => rfl

private theorem quotient_bounds {m : Nat} (h : ¬ m ≤ 2 ^ 53) :
    2 ^ 52 ≤ m / 2 ^ (Nat.log2 m - 52) ∧ m / 2 ^ (Nat.log2 m - 52) < 2 ^ 53 ∧
      1 ≤ Nat.log2 m - 52 := by
  have hm : m ≠ 0 := by omega
  have hlog : 53 ≤ Nat.log2 m := (Nat.le_log2 hm).mpr (by omega)
  have hlow : 2 ^ Nat.log2 m ≤ m := Nat.log2_self_le hm
  have hhigh : m < 2 ^ (Nat.log2 m + 1) := Nat.lt_log2_self
  refine ⟨?_, ?_, by omega⟩
  · rw [Nat.le_div_iff_mul_le (Nat.two_pow_pos _), ← Nat.pow_add]
    rwa [show 52 + (Nat.log2 m - 52) = Nat.log2 m by omega]
  · rw [Nat.div_lt_iff_lt_mul (Nat.two_pow_pos _), ← Nat.pow_add]
    rwa [show 53 + (Nat.log2 m - 52) = Nat.log2 m + 1 by omega]

theorem nearestDouble_bounds {m : Nat} (h : ¬ m ≤ 2 ^ 53) :
    2 ^ Nat.log2 m ≤ nearestDouble m ∧ nearestDouble m ≤ 2 ^ (Nat.log2 m + 1) := by
  obtain ⟨hlow, hhigh, he⟩ := quotient_bounds h
  simp only [nearestDouble, if_neg h]
  constructor
  · calc 2 ^ Nat.log2 m = 2 ^ 52 * 2 ^ (Nat.log2 m - 52) := by
          rw [← Nat.pow_add]
          congr 1
          omega
      _ ≤ _ := Nat.mul_le_mul_right _ (by split <;> omega)
  · calc _ ≤ 2 ^ 53 * 2 ^ (Nat.log2 m - 52) := Nat.mul_le_mul_right _ (by split <;> omega)
      _ = 2 ^ (Nat.log2 m + 1) := by
          rw [← Nat.pow_add]
          congr 1
          omega

theorem nearestDouble_mono {m n : Nat} (h : m ≤ n) : nearestDouble m ≤ nearestDouble n := by
  by_cases hm : m ≤ 2 ^ 53
  · by_cases hn : n ≤ 2 ^ 53
    · simpa only [nearestDouble, if_pos hm, if_pos hn] using h
    · have hlog : 53 ≤ Nat.log2 n := (Nat.le_log2 (by omega)).mpr (by omega)
      calc nearestDouble m = m := by rw [nearestDouble, if_pos hm]
        _ ≤ 2 ^ 53 := hm
        _ ≤ 2 ^ Nat.log2 n := Nat.pow_le_pow_right (by decide) hlog
        _ ≤ nearestDouble n := (nearestDouble_bounds hn).1
  · have hn : ¬ n ≤ 2 ^ 53 := by omega
    have hlog : Nat.log2 m ≤ Nat.log2 n :=
      (Nat.le_log2 (by omega)).mpr ((Nat.log2_self_le (by omega)).trans h)
    rcases Nat.lt_or_eq_of_le hlog with hlt | heq
    · calc nearestDouble m ≤ 2 ^ (Nat.log2 m + 1) := (nearestDouble_bounds hm).2
        _ ≤ 2 ^ Nat.log2 n := Nat.pow_le_pow_right (by decide) hlt
        _ ≤ nearestDouble n := (nearestDouble_bounds hn).1
    · simp only [nearestDouble, if_neg hm, if_neg hn, heq]
      refine Nat.mul_le_mul_right _ ?_
      have hq : m / 2 ^ (Nat.log2 n - 52) ≤ n / 2 ^ (Nat.log2 n - 52) := Nat.div_le_div_right h
      rcases Nat.lt_or_eq_of_le hq with hqlt | hqeq
      · split <;> split <;> omega
      · have hrest : m % 2 ^ (Nat.log2 n - 52) ≤ n % 2 ^ (Nat.log2 n - 52) := by
          have hmd := Nat.div_add_mod m (2 ^ (Nat.log2 n - 52))
          have hnd := Nat.div_add_mod n (2 ^ (Nat.log2 n - 52))
          rw [hqeq] at hmd
          omega
        rw [hqeq]
        split <;> split <;> omega

theorem toDouble_mono {m n : Int} (h : m ≤ n) : toDouble m ≤ toDouble n := by
  rw [toDouble_eq, toDouble_eq]
  rcases lt_trichotomy m 0 with hm | rfl | hm
  · rcases lt_trichotomy n 0 with hn | rfl | hn
    · rw [Int.sign_eq_neg_one_of_neg hm, Int.sign_eq_neg_one_of_neg hn]
      have := nearestDouble_mono (show n.natAbs ≤ m.natAbs by omega)
      omega
    · rw [Int.sign_eq_neg_one_of_neg hm, Int.sign_zero]
      omega
    · rw [Int.sign_eq_neg_one_of_neg hm, Int.sign_eq_one_of_pos hn]
      omega
  · rcases lt_trichotomy n 0 with hn | rfl | hn
    · omega
    · exact le_refl _
    · rw [Int.sign_zero, Int.sign_eq_one_of_pos hn]
      omega
  · rw [Int.sign_eq_one_of_pos hm, Int.sign_eq_one_of_pos (by omega : 0 < n)]
    have := nearestDouble_mono (show m.natAbs ≤ n.natAbs by omega)
    omega

end Clink.Ports.SqlValue

import Clink.Ports.JsonValue
import Mathlib.Tactic.FieldSimp
import Mathlib.Tactic.NormNum
import Mathlib.Tactic.Positivity
import Mathlib.Tactic.Ring

/-!
# Fixed-point decimals

`config/decimal.hpp`: a DECIMAL is a coefficient and a scale, and travels in a
string whose first byte is a tag.  Coefficients are brought to a common scale in 256
bits, which wrap; within the range of the SQL type, 38 digits and a scale of at most
38, nothing wraps and the comparison is that of the exact values.
-/

namespace Clink.Ports.FixedPoint

open Clink.Verified.StrictJson
open Clink.Ports.Json

/-- `kDecimalSentinel`. -/
def decimalSentinel : UInt8 := 0x01

/-- `kMaxDecimalPrecision`. -/
def maxDecimalPrecision : Nat := 38

/-- `unscaled * 10 ^ -scale`. -/
@[ext] structure Decimal where
  unscaled : Int
  scale : Nat
  deriving DecidableEq, Repr

/-- A signed integer of 256 bits. -/
def wrap256 (n : Int) : Int := n.bmod (2 ^ 256)

/-- A signed integer of 128 bits. -/
def wrap128 (n : Int) : Int := n.bmod (2 ^ 128)

/-- `is_dec_string`. -/
def isDecString {F : Type} : JsonValue F → Bool
  | .string s => s.head? == some decimalSentinel
  | _ => false

/-- `dec_parse` over arrow's `Decimal128::FromString`, which gives a coefficient and a
scale; a negative scale is folded into the coefficient. -/
def decParse (fromString : Bytes → Option (Int × Int)) (text : Bytes) : Option Decimal :=
  let text := if text.head? = some decimalSentinel then text.tail else text
  match fromString text with
  | none => none
  | some (out, scale) =>
      if scale < 0 then some ⟨wrap128 (out * 10 ^ (-scale).toNat), 0⟩
      else some ⟨out, scale.toNat⟩

/-- A coefficient brought to a greater scale, `IncreaseScaleBy` in 256 bits. -/
def rescaled (d : Decimal) (scale : Nat) : Int := wrap256 (d.unscaled * 10 ^ (scale - d.scale))

/-- `dec_compare`. -/
def decCompare (a b : Decimal) : Int :=
  let s := max a.scale b.scale
  if rescaled a s < rescaled b s then -1
  else if rescaled a s > rescaled b s then 1
  else 0

/-! ## Exact values -/

/-- The number a decimal stands for. -/
def value (d : Decimal) : ℚ := d.unscaled / 10 ^ d.scale

/-- A value of the SQL type: at most 38 digits and a scale of at most 38. -/
def InRange (d : Decimal) : Prop :=
  d.unscaled.natAbs < 10 ^ maxDecimalPrecision ∧ d.scale ≤ maxDecimalPrecision

instance (d : Decimal) : Decidable (InRange d) :=
  inferInstanceAs (Decidable (_ ∧ _))

theorem wrap256_eq_of_lt {n : Int} (h : n.natAbs < 2 ^ 255) : wrap256 n = n := by
  rw [wrap256]
  refine Int.bmod_eq_of_le ?_ ?_
  · norm_num at h ⊢
    omega
  · norm_num at h ⊢
    omega

theorem wrap256_eq {n : Int} (h : n.natAbs < 10 ^ 76) : wrap256 n = n :=
  wrap256_eq_of_lt (h.trans (by norm_num))

/-- Within the range of the type nothing wraps. -/
theorem rescaled_eq {d : Decimal} (h : InRange d) {scale : Nat}
    (hscale : scale ≤ maxDecimalPrecision) :
    rescaled d scale = d.unscaled * 10 ^ (scale - d.scale) := by
  refine wrap256_eq ?_
  rw [Int.natAbs_mul, Int.natAbs_pow]
  calc d.unscaled.natAbs * (10 : Int).natAbs ^ (scale - d.scale)
      ≤ d.unscaled.natAbs * 10 ^ 38 :=
        Nat.mul_le_mul_left _ (Nat.pow_le_pow_right (by decide) (by
          simp only [maxDecimalPrecision] at hscale
          omega))
    _ < 10 ^ 38 * 10 ^ 38 := Nat.mul_lt_mul_of_pos_right h.1 (by positivity)
    _ = 10 ^ 76 := by rw [← Nat.pow_add]

/-- A coefficient that did not wrap is the value in units of the scale. -/
theorem rescaled_cast {d : Decimal} {scale : Nat}
    (hexact : rescaled d scale = d.unscaled * 10 ^ (scale - d.scale)) (hle : d.scale ≤ scale) :
    (rescaled d scale : ℚ) = value d * 10 ^ scale := by
  rw [hexact, value]
  have hpow : (10 : ℚ) ^ scale = 10 ^ (scale - d.scale) * 10 ^ d.scale := by
    rw [← pow_add, Nat.sub_add_cancel hle]
  push_cast
  rw [hpow]
  field_simp

/-- Where neither coefficient wraps the comparison is that of the exact values. -/
theorem decCompare_of_exact {a b : Decimal}
    (ha : rescaled a (max a.scale b.scale) = a.unscaled * 10 ^ (max a.scale b.scale - a.scale))
    (hb : rescaled b (max a.scale b.scale) = b.unscaled * 10 ^ (max a.scale b.scale - b.scale)) :
    decCompare a b = if value a < value b then -1 else if value b < value a then 1 else 0 := by
  have hlt : ∀ {c d : Decimal}, (rescaled c (max a.scale b.scale) : ℚ) =
      value c * 10 ^ max a.scale b.scale → (rescaled d (max a.scale b.scale) : ℚ) =
      value d * 10 ^ max a.scale b.scale →
      (rescaled c (max a.scale b.scale) < rescaled d (max a.scale b.scale) ↔
        value c < value d) := by
    intro c d hc hd
    rw [← Int.cast_lt (R := ℚ), hc, hd]
    exact mul_lt_mul_iff_left₀ (by positivity)
  have hcasta := rescaled_cast ha (le_max_left _ _)
  have hcastb := rescaled_cast hb (le_max_right _ _)
  simp only [decCompare, gt_iff_lt, hlt hcasta hcastb, hlt hcastb hcasta]

/-- Within the range of the type the comparison is that of the exact values. -/
theorem decCompare_eq {a b : Decimal} (ha : InRange a) (hb : InRange b) :
    decCompare a b = if value a < value b then -1 else if value b < value a then 1 else 0 :=
  have hscale : max a.scale b.scale ≤ maxDecimalPrecision := max_le ha.2 hb.2
  decCompare_of_exact (rescaled_eq ha hscale) (rescaled_eq hb hscale)

end Clink.Ports.FixedPoint

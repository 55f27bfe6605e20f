import Mathlib.Tactic.LinearCombination
import Clink.Ports.Decimal
import Clink.Verified.HalfAway

/-!
# DECIMAL arithmetic

The operations of `config/decimal.hpp` over arrow's integers of 256 bits, which
wrap.  Every result is narrowed to 38 digits.  `dec_div` divides with one guard
digit, after a test of the room in 256 bits that is meant to refuse only what
38 digits could not hold either; it refuses more.
-/

namespace Clink.Ports.FixedPoint

open Clink.Verified

/-- `FitsInPrecision`: at most so many digits. -/
def fitsInPrecision (v : Int) (precision : Nat) : Prop := v.natAbs < 10 ^ precision

instance (v : Int) (precision : Nat) : Decidable (fitsInPrecision v precision) :=
  inferInstanceAs (Decidable (_ < _))

/-- `IncreaseScaleBy`. -/
def increaseScaleBy (v : Int) (increase : Nat) : Int := wrap256 (v * 10 ^ increase)

/-- `ReduceScaleBy`: cut off, or rounded half away from zero. -/
def reduceScaleBy (v : Int) (reduce : Nat) (round : Bool) : Int :=
  let quotient := v.tdiv (10 ^ reduce)
  if round = true ∧ 10 ^ reduce ≤ 2 * (v.tmod (10 ^ reduce)).natAbs then quotient + v.sign
  else quotient

/-- `dec_detail::narrow`. -/
def narrow (v : Int) (scale : Nat) : Option Decimal :=
  if fitsInPrecision v maxDecimalPrecision then some ⟨v, scale⟩ else none

def decAdd (a b : Decimal) : Option Decimal :=
  let s := max a.scale b.scale
  narrow (wrap256 (increaseScaleBy a.unscaled (s - a.scale) +
    increaseScaleBy b.unscaled (s - b.scale))) s

def decSub (a b : Decimal) : Option Decimal :=
  let s := max a.scale b.scale
  narrow (wrap256 (increaseScaleBy a.unscaled (s - a.scale) -
    increaseScaleBy b.unscaled (s - b.scale))) s

def decMul (a b : Decimal) : Option Decimal :=
  narrow (wrap256 (a.unscaled * b.unscaled)) (a.scale + b.scale)

/-- `kHeadroom`: the digits of 256 bits. -/
def headroom : Int := maxDecimalPrecision * 2

def decDiv (a b : Decimal) (resultScale : Int) : Option Decimal :=
  if b.unscaled = 0 then none
  else
    let scale := resultScale.toNat
    let shift : Int := (scale + 1 : Nat) + b.scale - a.scale
    let num : Option Int :=
      if 0 ≤ shift then
        if shift > headroom ∨ ¬ fitsInPrecision a.unscaled (headroom - shift).toNat then none
        else some (increaseScaleBy a.unscaled shift.toNat)
      else some (reduceScaleBy a.unscaled (-shift).toNat false)
    num.bind fun num =>
      let digits := num.tdiv b.unscaled
      let quotient := digits.tdiv 10
      let guardRem := digits.tmod 10
      narrow (if guardRem ≥ 5 then wrap256 (quotient + 1)
        else if guardRem ≤ -5 then wrap256 (quotient - 1) else quotient) scale

def decMod (a b : Decimal) : Option Decimal :=
  if b.unscaled = 0 then none
  else
    let s := max a.scale b.scale
    let y := increaseScaleBy b.unscaled (s - b.scale)
    -- A divisor that wraps to zero is refused by `Divide`.
    if y = 0 then none
    else narrow ((increaseScaleBy a.unscaled (s - a.scale)).tmod y) s

def decRescale (a : Decimal) (targetScale : Int) : Option Decimal :=
  let target := targetScale.toNat
  if target = a.scale then some a
  else if target > a.scale then narrow (increaseScaleBy a.unscaled (target - a.scale)) target
  else narrow (reduceScaleBy a.unscaled (a.scale - target) true) target

/-! ## Division -/

/-- The room a division needs, for the coefficient shifted by `shift` digits: 76
digits, unless the quotient is beyond 38 digits itself. -/
def DivRoom (a b : Decimal) (scale : Nat) : Prop :=
  ∀ shift : Nat, a.scale + shift = scale + 1 + b.scale →
    (shift ≤ 76 ∧ a.unscaled.natAbs * 10 ^ shift < 10 ^ 76) ∨
      (10 ^ 39 - 5) * b.unscaled.natAbs ≤ a.unscaled.natAbs * 10 ^ shift

section Division

variable {a b : Decimal} {scale : Nat}

/-- The quotient with the guard digit on, over integers. -/
theorem value_div_of_shift {shift : Nat} (hshift : a.scale + shift = scale + 1 + b.scale)
    (hb : b.unscaled ≠ 0) :
    value a / value b * 10 ^ scale = ((a.unscaled * 10 ^ shift : Int) : ℚ) / (10 * b.unscaled) := by
  have hb' : (b.unscaled : ℚ) ≠ 0 := Int.cast_ne_zero.mpr hb
  have hpow : (10 : ℚ) ^ a.scale * 10 ^ shift = 10 ^ scale * 10 * 10 ^ b.scale := by
    rw [← pow_add, hshift, pow_add, pow_succ]
  unfold value
  push_cast
  field_simp
  linear_combination -a.unscaled * hpow

private theorem value_div_of_cut {cut : Nat} (hcut : a.scale = scale + 1 + b.scale + cut)
    (hb : b.unscaled ≠ 0) :
    value a / value b * 10 ^ scale =
      (a.unscaled : ℚ) / (10 * ((10 ^ cut : Nat) * b.unscaled : Int)) := by
  have hb' : (b.unscaled : ℚ) ≠ 0 := Int.cast_ne_zero.mpr hb
  unfold value
  rw [hcut, pow_add, pow_add, pow_succ]
  push_cast
  field_simp

/-- The guard digit dropped in 256 bits, where the quotient fits them. -/
theorem narrow_dropGuard {digits : Int} (h : digits.natAbs < 10 ^ 76) :
    narrow (if digits.tmod 10 ≥ 5 then wrap256 (digits.tdiv 10 + 1)
        else if digits.tmod 10 ≤ -5 then wrap256 (digits.tdiv 10 - 1) else digits.tdiv 10) scale =
      narrow (dropGuard digits) scale := by
  have hle : (digits.tdiv 10).natAbs = digits.natAbs / 10 := Int.natAbs_tdiv digits 10
  unfold dropGuard
  rw [wrap256_eq (by omega), wrap256_eq (by omega)]

private theorem decDiv_of_shift {shift : Nat} (hshift : a.scale + shift = scale + 1 + b.scale)
    (hb : b.unscaled ≠ 0) :
    decDiv a b scale =
      if shift ≤ 76 ∧ a.unscaled.natAbs * 10 ^ shift < 10 ^ 76 then
        narrow (roundHalfAway (value a / value b * 10 ^ scale)) scale
      else none := by
  have hval : ((scale + 1 : Nat) : Int) + b.scale - a.scale = shift := by omega
  have hfits : (shift : Int) ≤ headroom → (fitsInPrecision a.unscaled (headroom - shift).toNat ↔
      a.unscaled.natAbs * 10 ^ shift < 10 ^ 76) := by
    intro hle
    have hsplit : (headroom - shift).toNat + shift = 76 := by
      unfold headroom maxDecimalPrecision at *
      omega
    rw [← hsplit, pow_add, fitsInPrecision]
    exact (Nat.mul_lt_mul_right (by positivity)).symm
  have hhead : (shift : Int) > headroom ↔ ¬ shift ≤ 76 := by
    unfold headroom maxDecimalPrecision
    omega
  unfold decDiv
  simp only [if_neg hb, Int.toNat_natCast, hval, if_pos (Int.natCast_nonneg shift), hhead]
  by_cases hle : shift ≤ 76
  · have hiff := hfits (by unfold headroom maxDecimalPrecision; omega)
    by_cases hroom : a.unscaled.natAbs * 10 ^ shift < 10 ^ 76
    · have hnum : increaseScaleBy a.unscaled shift = a.unscaled * 10 ^ shift := by
        refine wrap256_eq ?_
        rwa [Int.natAbs_mul, Int.natAbs_pow]
      have hdigits : ((a.unscaled * 10 ^ shift).tdiv b.unscaled).natAbs < 10 ^ 76 := by
        refine Nat.lt_of_le_of_lt (Int.natAbs_tdiv_le_natAbs _ _) ?_
        rwa [Int.natAbs_mul, Int.natAbs_pow]
      have hgo : ¬ (¬ shift ≤ 76 ∨ ¬ fitsInPrecision a.unscaled (headroom - shift).toNat) :=
        fun h => h.elim (fun h => h hle) fun h => h (hiff.mpr hroom)
      rw [if_neg hgo, if_pos ⟨hle, hroom⟩, Option.bind_some, hnum,
        narrow_dropGuard hdigits, dropGuard_tdiv _ hb, value_div_of_shift hshift hb]
    · rw [if_pos (.inr (mt hiff.mp hroom)), if_neg (fun h => hroom h.2), Option.bind_none]
  · rw [if_pos (.inl hle), if_neg (fun h => hle h.1), Option.bind_none]

private theorem decDiv_of_cut {cut : Nat} (hcut : a.scale = scale + 1 + b.scale + (cut + 1))
    (ha : a.unscaled.natAbs < 10 ^ 38) (hb : b.unscaled ≠ 0) :
    decDiv a b scale = narrow (roundHalfAway (value a / value b * 10 ^ scale)) scale := by
  have hval : ((scale + 1 : Nat) : Int) + b.scale - a.scale = -((cut + 1 : Nat) : Int) := by omega
  have hcutInt : ((10 ^ (cut + 1) : Nat) : Int) = 10 ^ (cut + 1) := by push_cast; rfl
  unfold decDiv
  simp only [if_neg hb, Int.toNat_natCast, hval, neg_neg]
  rw [if_neg (by omega), Option.bind_some]
  have hreduce : reduceScaleBy a.unscaled (cut + 1) false = a.unscaled.tdiv (10 ^ (cut + 1)) := by
    simp [reduceScaleBy]
  have hdigits : ((a.unscaled.tdiv (10 ^ (cut + 1))).tdiv b.unscaled).natAbs < 10 ^ 76 :=
    Nat.lt_of_le_of_lt ((Int.natAbs_tdiv_le_natAbs _ _).trans (Int.natAbs_tdiv_le_natAbs _ _))
      (ha.trans (by norm_num))
  rw [hreduce, narrow_dropGuard hdigits, ← hcutInt, tdiv_tdiv _ hb,
    dropGuard_tdiv _ (by positivity),
    value_div_of_cut hcut hb]

end Division

/-- The quotient is rounded half away from zero, and refused only beyond 38 digits,
exactly where the shifted dividend has the room the code asks for or the quotient is
beyond 38 digits. -/
theorem decDiv_rounds_iff (a b : Decimal) (ha : a.unscaled.natAbs < 10 ^ maxDecimalPrecision)
    (hzero : b.unscaled ≠ 0) (scale : Nat) :
    (decDiv a b scale =
      if (roundHalfAway (value a / value b * 10 ^ scale)).natAbs < 10 ^ 38 then
        some ⟨roundHalfAway (value a / value b * 10 ^ scale), scale⟩
      else none) ↔ DivRoom a b scale := by
  by_cases hcut : scale + 1 + b.scale < a.scale
  · obtain ⟨cut, hcut'⟩ : ∃ cut, a.scale = scale + 1 + b.scale + (cut + 1) :=
      ⟨a.scale - (scale + 1 + b.scale) - 1, by omega⟩
    refine iff_of_true (decDiv_of_cut hcut' ha hzero) ?_
    intro shift hshift
    omega
  · obtain ⟨shift, hshift⟩ : ∃ shift, a.scale + shift = scale + 1 + b.scale :=
      ⟨scale + 1 + b.scale - a.scale, by omega⟩
    have hsmall : (roundHalfAway (value a / value b * 10 ^ scale)).natAbs < 10 ^ 38 ↔
        a.unscaled.natAbs * 10 ^ shift < (10 ^ 39 - 5) * b.unscaled.natAbs := by
      rw [value_div_of_shift hshift hzero, natAbs_roundHalfAway_lt_iff _ hzero (by norm_num),
        Int.natAbs_mul, Int.natAbs_pow]
      rfl
    have hroom : DivRoom a b scale ↔
        (shift ≤ 76 ∧ a.unscaled.natAbs * 10 ^ shift < 10 ^ 76) ∨
          ¬ (roundHalfAway (value a / value b * 10 ^ scale)).natAbs < 10 ^ 38 := by
      rw [hsmall, Nat.not_lt]
      refine ⟨fun h => h shift hshift, fun h shift' hshift' => ?_⟩
      obtain rfl : shift' = shift := by omega
      exact h
    rw [hroom, decDiv_of_shift hshift hzero]
    by_cases hfits : shift ≤ 76 ∧ a.unscaled.natAbs * 10 ^ shift < 10 ^ 76
    · rw [if_pos hfits]
      exact iff_of_true rfl (.inl hfits)
    · rw [if_neg hfits]
      by_cases hdigits : (roundHalfAway (value a / value b * 10 ^ scale)).natAbs < 10 ^ 38
      · rw [if_pos hdigits]
        exact iff_of_false nofun fun h => h.elim hfits fun h => h hdigits
      · rw [if_neg hdigits]
        exact iff_of_true rfl (.inr hdigits)

/-- Two thirds, at two digits. -/
theorem decDiv_two_thirds :
    decDiv ⟨2, 0⟩ ⟨3, 0⟩ 2 =
      if (roundHalfAway (value ⟨2, 0⟩ / value ⟨3, 0⟩ * 10 ^ 2)).natAbs < 10 ^ 38 then
        some ⟨roundHalfAway (value ⟨2, 0⟩ / value ⟨3, 0⟩ * 10 ^ 2), 2⟩
      else none := by
  refine (decDiv_rounds_iff ⟨2, 0⟩ ⟨3, 0⟩ (by decide) (by decide) 2).mpr ?_
  intro shift hshift
  obtain rfl : shift = 3 := by simpa using hshift
  exact .inl ⟨by decide, by decide⟩

/-- A half at 38 digits, 1e37 / 2e37, is refused; so is zero over a decimal of scale 38. -/
theorem representable_quotients_refused :
    (∃ n : Int, roundHalfAway (value ⟨10 ^ 37, 0⟩ / value ⟨2 * 10 ^ 37, 0⟩ * 10 ^ 38) = n ∧
      n.natAbs < 10 ^ 38 ∧ decDiv ⟨10 ^ 37, 0⟩ ⟨2 * 10 ^ 37, 0⟩ 38 = none) ∧
    ∃ n : Int, roundHalfAway (value ⟨0, 0⟩ / value ⟨1, 38⟩ * 10 ^ 38) = n ∧
      n.natAbs < 10 ^ 38 ∧ decDiv ⟨0, 0⟩ ⟨1, 38⟩ 38 = none := by
  refine ⟨⟨5 * 10 ^ 37, ?_, by norm_num, by decide +kernel⟩, 0, ?_, by norm_num, by decide +kernel⟩
  · norm_num [roundHalfAway, value, Int.floor_eq_iff]
  · norm_num [roundHalfAway, value]

end Clink.Ports.FixedPoint

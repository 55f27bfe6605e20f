import Mathlib.Data.Rat.Floor

/-!
# Rounding a quotient half away from zero

A quotient of integers is rounded by dividing with one more digit than asked
for, cutting off what follows, and letting that guard digit decide
(`dropGuard`).  Cutting keeps the guard digit, so this is the exact quotient
rounded half away from zero (`dropGuard_tdiv`).  Both sides are odd functions,
which leaves the case of natural numbers.
-/

namespace Clink.Verified

/-- The nearest integer; of two, the one further from zero. -/
def roundHalfAway (q : ℚ) : Int := if 0 ≤ q then ⌊q + 1 / 2⌋ else -⌊-q + 1 / 2⌋

theorem roundHalfAway_neg (q : ℚ) : roundHalfAway (-q) = -roundHalfAway q := by
  unfold roundHalfAway
  rcases lt_trichotomy q 0 with hneg | rfl | hpos
  · rw [if_pos (by linarith), if_neg (by linarith), neg_neg]
  · norm_num
  · rw [if_neg (by linarith), if_pos hpos.le, neg_neg]

/-- The last decimal digit dropped, away from zero from five on. -/
def dropGuard (d : Int) : Int :=
  if d.tmod 10 ≥ 5 then d.tdiv 10 + 1
  else if d.tmod 10 ≤ -5 then d.tdiv 10 - 1
  else d.tdiv 10

theorem dropGuard_neg (d : Int) : dropGuard (-d) = -dropGuard d := by
  unfold dropGuard
  rw [Int.neg_tdiv, Int.neg_tmod]
  split_ifs <;> omega

/-- An odd property of two integers follows from that of natural numbers. -/
theorem of_natAbs {P : Int → Int → Prop} (h : ∀ m n : Nat, 0 < n → P m n)
    (hleft : ∀ a b, P a b → P (-a) b) (hright : ∀ a b, P a b → P a (-b)) (a : Int) {b : Int}
    (hb : b ≠ 0) : P a b := by
  have hpos : 0 < b.natAbs := Int.natAbs_pos.mpr hb
  rcases Int.natAbs_eq a with ha | ha <;> rcases Int.natAbs_eq b with hb' | hb' <;>
    rw [ha, hb']
  · exact h _ _ hpos
  · exact hright _ _ (h _ _ hpos)
  · exact hleft _ _ (h _ _ hpos)
  · exact hright _ _ (hleft _ _ (h _ _ hpos))

theorem roundHalfAway_natCast_div (m n : Nat) (hn : 0 < n) :
    roundHalfAway ((m : ℚ) / (10 * n)) = ((m / n + 5) / 10 : Nat) := by
  have hsum : (m : ℚ) / (10 * n) + 1 / 2 = ((m + 5 * n : Nat) : Int) / ((10 * n : Nat) : ℚ) := by
    push_cast
    field_simp
    ring
  have hquot : (m + 5 * n) / (10 * n) = (m / n + 5) / 10 := by
    rw [Nat.mul_comm 10 n, ← Nat.div_div_eq_div_mul, Nat.add_mul_div_right _ _ hn]
  rw [roundHalfAway, if_pos (by positivity), hsum, Rat.floor_intCast_div_natCast]
  exact_mod_cast hquot

/-- A quotient with a guard digit, dropped, is the exact quotient rounded. -/
theorem dropGuard_tdiv (a : Int) {b : Int} (hb : b ≠ 0) :
    dropGuard (a.tdiv b) = roundHalfAway ((a : ℚ) / (10 * b)) := by
  refine of_natAbs (P := fun a b => dropGuard (a.tdiv b) = roundHalfAway ((a : ℚ) / (10 * b)))
    ?_ ?_ ?_ a hb
  · intro m n hn
    have hround := roundHalfAway_natCast_div m n hn
    rw [Int.cast_natCast, Int.cast_natCast, hround, ← Int.ofNat_tdiv]
    generalize m / n = t
    unfold dropGuard
    rw [Int.tdiv_eq_ediv_of_nonneg (by omega), Int.tmod_eq_emod_of_nonneg (by omega)]
    split_ifs <;> omega
  · intro a b h
    rw [Int.neg_tdiv, dropGuard_neg, h, ← roundHalfAway_neg]
    push_cast
    rw [neg_div]
  · intro a b h
    rw [Int.tdiv_neg, dropGuard_neg, h, ← roundHalfAway_neg]
    push_cast
    rw [mul_neg, div_neg]

/-- How small a quotient is once it is rounded. -/
theorem natAbs_roundHalfAway_lt_iff (a : Int) {b : Int} (hb : b ≠ 0) {k : Nat} (hk : 0 < k) :
    (roundHalfAway ((a : ℚ) / (10 * b))).natAbs < k ↔ a.natAbs < (10 * k - 5) * b.natAbs := by
  refine of_natAbs (P := fun a b => (roundHalfAway ((a : ℚ) / (10 * b))).natAbs < k ↔
    a.natAbs < (10 * k - 5) * b.natAbs) ?_ ?_ ?_ a hb
  · intro m n hn
    rw [Int.cast_natCast, Int.cast_natCast, roundHalfAway_natCast_div m n hn, Int.natAbs_natCast,
      Int.natAbs_natCast, Int.natAbs_natCast, ← Nat.div_lt_iff_lt_mul hn]
    omega
  · intro a b h
    rwa [Int.natAbs_neg, Int.cast_neg, neg_div, roundHalfAway_neg, Int.natAbs_neg]
  · intro a b h
    rwa [Int.natAbs_neg, Int.cast_neg, mul_neg, div_neg, roundHalfAway_neg, Int.natAbs_neg]

/-- Cutting twice is cutting once. -/
theorem tdiv_tdiv (a : Int) {b : Int} (hb : b ≠ 0) (c : Nat) :
    (a.tdiv c).tdiv b = a.tdiv (c * b) := by
  refine of_natAbs (P := fun a b => (a.tdiv c).tdiv b = a.tdiv (c * b)) ?_ ?_ ?_ a hb
  · intro m n _
    rw [← Int.ofNat_tdiv, ← Int.ofNat_tdiv, ← Int.natCast_mul, ← Int.ofNat_tdiv,
      Nat.div_div_eq_div_mul]
  · intro a b h
    rw [Int.neg_tdiv, Int.neg_tdiv, Int.neg_tdiv, h]
  · intro a b h
    rw [Int.tdiv_neg, Int.mul_neg, Int.tdiv_neg, h]

end Clink.Verified

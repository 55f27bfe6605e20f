import Mathlib.Data.List.Basic
import Mathlib.Tactic.Ring

/-!
# Fixed-width big-endian numbers

`putBE n v` is the last `n` bytes of `v`, the most significant first, and
`readBE` folds bytes back into a number.  A number that fits the width is read
back, and bytes are put back as they were read.
-/

namespace Clink.Verified

/-- The `n` low bytes of `v`, the most significant first. -/
def putBE : Nat → Nat → List UInt8
  | 0, _ => []
  | n + 1, v => UInt8.ofNat (v / 256 ^ n) :: putBE n v

def readBE (bytes : List UInt8) : Nat := bytes.foldl (fun v b => v * 256 + b.toNat) 0

@[simp] theorem length_putBE (n v : Nat) : (putBE n v).length = n := by
  induction n with
  | zero => rfl
  | succ n ih =>
      rw [putBE, List.length_cons, ih]

/-- Reading on from `high`, the low bytes of `v` are appended to it. -/
theorem foldl_putBE (n v high : Nat) :
    (putBE n v).foldl (fun v b => v * 256 + b.toNat) high = high * 256 ^ n + v % 256 ^ n := by
  induction n generalizing high with
  | zero => simp [putBE, Nat.mod_one]
  | succ n ih =>
      have hbyte : (UInt8.ofNat (v / 256 ^ n)).toNat = v / 256 ^ n % 256 := UInt8.toNat_ofNat'
      have hsplit : v % 256 ^ (n + 1) = v % 256 ^ n + 256 ^ n * (v / 256 ^ n % 256) := by
        rw [Nat.pow_succ, Nat.mod_mul]
      rw [putBE, List.foldl_cons, ih, hbyte, hsplit, Nat.add_mul, Nat.pow_succ]
      rw [Nat.mul_comm (v / 256 ^ n % 256), Nat.mul_assoc, Nat.mul_comm 256]
      omega

theorem readBE_putBE {n v : Nat} (h : v < 256 ^ n) : readBE (putBE n v) = v := by
  rw [readBE, foldl_putBE, Nat.mod_eq_of_lt h]
  omega

private theorem foldl_readBE (bytes : List UInt8) (high : Nat) :
    bytes.foldl (fun v b => v * 256 + b.toNat) high = high * 256 ^ bytes.length + readBE bytes := by
  induction bytes generalizing high with
  | nil => simp [readBE]
  | cons b bytes ih =>
      have hrest : readBE (b :: bytes) = b.toNat * 256 ^ bytes.length + readBE bytes := by
        rw [readBE, List.foldl_cons, ih]
        simp
      rw [List.foldl_cons, ih, hrest, List.length_cons, Nat.pow_succ, Nat.add_mul]
      rw [Nat.mul_assoc, Nat.mul_comm 256]
      omega

theorem readBE_cons (b : UInt8) (bytes : List UInt8) :
    readBE (b :: bytes) = b.toNat * 256 ^ bytes.length + readBE bytes := by
  rw [readBE, List.foldl_cons, foldl_readBE]
  simp

theorem readBE_lt (bytes : List UInt8) : readBE bytes < 256 ^ bytes.length := by
  induction bytes with
  | nil => simp [readBE]
  | cons b bytes ih =>
      have hbyte : b.toNat ≤ 255 := by
        have := b.toNat_lt
        omega
      have hhigh : b.toNat * 256 ^ bytes.length ≤ 255 * 256 ^ bytes.length :=
        Nat.mul_le_mul_right _ hbyte
      rw [readBE_cons, List.length_cons, Nat.pow_succ]
      omega

/-- Bytes above the width are cut off. -/
theorem putBE_add (n high low : Nat) : putBE n (high * 256 ^ n + low) = putBE n low := by
  suffices h : ∀ k, k ≤ n → putBE k (high * 256 ^ n + low) = putBE k low by
    exact h n le_rfl
  intro k hk
  induction k with
  | zero => rfl
  | succ k ih =>
      obtain ⟨d, rfl⟩ := Nat.exists_eq_add_of_le hk
      have hpow : high * 256 ^ (k + 1 + d) = 256 ^ k * (256 * (high * 256 ^ d)) := by
        rw [Nat.pow_add, Nat.pow_succ]
        ring
      have hbyte : UInt8.ofNat ((high * 256 ^ (k + 1 + d) + low) / 256 ^ k) =
          UInt8.ofNat (low / 256 ^ k) := by
        rw [hpow, Nat.mul_add_div (Nat.pow_pos (by decide))]
        apply UInt8.toNat.inj
        rw [UInt8.toNat_ofNat', UInt8.toNat_ofNat', Nat.mul_add_mod]
      rw [putBE, putBE, hbyte, ih (by omega)]

theorem putBE_readBE (bytes : List UInt8) : putBE bytes.length (readBE bytes) = bytes := by
  induction bytes with
  | nil => rfl
  | cons b bytes ih =>
      have hlow := readBE_lt bytes
      have hdiv : (b.toNat * 256 ^ bytes.length + readBE bytes) / 256 ^ bytes.length = b.toNat := by
        rw [Nat.mul_comm, Nat.mul_add_div (Nat.pow_pos (by decide)), Nat.div_eq_of_lt hlow]
        rfl
      rw [readBE_cons, List.length_cons, putBE, putBE_add, ih, hdiv]
      simp

/-- Numbers that fit are in the order of their bytes. -/
theorem putBE_lt_putBE {n v w : Nat} (h : v < w) (hw : w < 256 ^ n) : putBE n v < putBE n w := by
  induction n generalizing v w with
  | zero =>
      rw [Nat.pow_zero] at hw
      omega
  | succ n ih =>
      have hpos : 0 < 256 ^ n := Nat.pow_pos (by omega)
      have hbyte : ∀ u : Nat, u < 256 ^ (n + 1) →
          (UInt8.ofNat (u / 256 ^ n)).toNat = u / 256 ^ n := by
        intro u hu
        rw [Nat.pow_succ, Nat.mul_comm] at hu
        rw [UInt8.toNat_ofNat', Nat.mod_eq_of_lt ((Nat.div_lt_iff_lt_mul hpos).mpr hu)]
      have hhigh : v / 256 ^ n ≤ w / 256 ^ n := Nat.div_le_div_right (Nat.le_of_lt h)
      rw [putBE, putBE, List.cons_lt_cons_iff]
      obtain hlt | heq := Nat.lt_or_eq_of_le hhigh
      · refine Or.inl (UInt8.lt_iff_toNat_lt.mpr ?_)
        rw [hbyte v (Nat.lt_trans h hw), hbyte w hw]
        exact hlt
      · refine Or.inr ⟨by rw [heq], ?_⟩
        -- The leading bytes agree, so the numbers differ below them.
        rw [← Nat.div_add_mod v (256 ^ n), ← Nat.div_add_mod w (256 ^ n), heq,
          Nat.mul_comm (256 ^ n), putBE_add, putBE_add]
        refine ih ?_ (Nat.mod_lt w hpos)
        have hv := Nat.div_add_mod v (256 ^ n)
        have hw' := Nat.div_add_mod w (256 ^ n)
        rw [heq] at hv
        omega

end Clink.Verified

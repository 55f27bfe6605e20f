import Mathlib.Logic.Function.Iterate

/-!
# Linear feedback shift registers

A register of `w` bits that moves down one place at a time and, when the bit that leaves
it is set, takes in a polynomial.  Bits are fed in at the low end (`feed`).  A shift is
linear in exclusive or, and it loses nothing when the top bit of the polynomial is set.

At most `w` bits that are fed in act as one number (`feed_eq_iterate`), so a window of `w`
bits can be told from any other (`feed_ne_of_burst`).
-/

namespace Clink.Verified.ShiftRegister

variable {w : Nat} (poly : BitVec w)

/-- One place down, with the polynomial for a bit that leaves. -/
def shift (c : BitVec w) : BitVec w :=
  if c.getLsbD 0 then (c >>> 1) ^^^ poly else c >>> 1

/-- The bits of a message, from the first on. -/
def feed (c : BitVec w) (bits : List Bool) : BitVec w :=
  bits.foldl (fun c b => shift poly (c ^^^ (BitVec.ofBool b).setWidth w)) c

/-- The number with these bits, the first one lowest. -/
def number : List Bool → BitVec w
  | [] => 0
  | b :: bits => (BitVec.ofBool b).setWidth w ^^^ (number bits <<< 1)

/-! ## One shift -/

theorem shift_xor (a b : BitVec w) : shift poly (a ^^^ b) = shift poly a ^^^ shift poly b := by
  unfold shift
  rw [BitVec.getLsbD_xor, BitVec.ushiftRight_xor_distrib]
  cases a.getLsbD 0 <;> cases b.getLsbD 0 <;>
    simp only [Bool.false_xor, Bool.true_xor, Bool.not_true, Bool.not_false, Bool.false_eq_true,
      if_true, if_false]
  · rw [BitVec.xor_assoc]
  · rw [BitVec.xor_assoc, BitVec.xor_assoc, BitVec.xor_comm poly]
  · rw [BitVec.xor_assoc, BitVec.xor_comm poly, BitVec.xor_assoc, BitVec.xor_self,
      BitVec.xor_zero]

theorem shift_of_even {c : BitVec w} (h : c.getLsbD 0 = false) : shift poly c = c >>> 1 := by
  rw [shift, h]
  rfl

/-- The bit that left is the top bit of what is there. -/
theorem msb_shift (h : poly.msb = true) (c : BitVec w) : (shift poly c).msb = c.getLsbD 0 := by
  have hclear : (c >>> 1).msb = false := by
    simp [BitVec.msb_ushiftRight]
  unfold shift
  cases c.getLsbD 0 with
  | true => simp [BitVec.msb_xor, hclear, h]
  | false => exact hclear

theorem shift_injective (h : poly.msb = true) : Function.Injective (shift poly) := by
  intro a b heq
  have hlow : a.getLsbD 0 = b.getLsbD 0 := by
    rw [← msb_shift poly h a, heq, msb_shift poly h b]
  have hhigh : a >>> 1 = b >>> 1 := by
    unfold shift at heq
    rw [hlow] at heq
    split at heq
    · exact BitVec.xor_left_inj _ |>.1 heq
    · exact heq
  apply BitVec.eq_of_getLsbD_eq
  intro i _
  cases i with
  | zero => exact hlow
  | succ i =>
      have hbit := congrArg (fun c => BitVec.getLsbD c i) hhigh
      simpa [BitVec.getLsbD_ushiftRight, Nat.add_comm] using hbit

theorem iterate_shift_high (y : BitVec w) {n : Nat} (hclear : ∀ i < n, y.getLsbD i = false) :
    (shift poly)^[n] y = y >>> n := by
  induction n with
  | zero => simp
  | succ n ih =>
      rw [Function.iterate_succ_apply', ih fun i hless => hclear i (by omega), shift_of_even,
        ← BitVec.shiftRight_add]
      simpa using hclear n (by omega)

theorem iterate_shift_xor (n : Nat) (a b : BitVec w) :
    (shift poly)^[n] (a ^^^ b) = (shift poly)^[n] a ^^^ (shift poly)^[n] b := by
  induction n generalizing a b with
  | zero => rfl
  | succ n ih => rw [Function.iterate_succ_apply, shift_xor, ih]; rfl

/-- The low bits go through the polynomial, the rest only moves down. -/
theorem iterate_shift_split (n : Nat) (x : BitVec w) :
    (shift poly)^[n] x = (shift poly)^[n] (x ^^^ (x >>> n <<< n)) ^^^ x >>> n := by
  have hclear : ∀ i < n, (x >>> n <<< n).getLsbD i = false := fun i hless => by
    simp [BitVec.getLsbD_shiftLeft, hless]
  have hback : x >>> n <<< n >>> n = x >>> n := by
    apply BitVec.eq_of_getLsbD_eq
    intro i _
    rw [BitVec.getLsbD_ushiftRight, BitVec.getLsbD_shiftLeft]
    by_cases hinside : n + i < w
    · simp [hinside]
    · simp [hinside, BitVec.getLsbD_of_ge x (n + i) (by omega)]
  rw [iterate_shift_xor, iterate_shift_high poly _ hclear, hback, BitVec.xor_assoc, BitVec.xor_self,
    BitVec.xor_zero]

/-! ## Bits fed in -/

theorem feed_append (c : BitVec w) (a b : List Bool) :
    feed poly c (a ++ b) = feed poly (feed poly c a) b :=
  List.foldl_append

/-- What is fed in loses nothing of the register. -/
theorem feed_injective (h : poly.msb = true) (bits : List Bool) :
    Function.Injective fun c => feed poly c bits := by
  induction bits with
  | nil => exact fun _ _ heq => heq
  | cons b bits ih =>
      intro a c heq
      have hshifted := shift_injective poly h (ih heq)
      exact (BitVec.xor_left_inj _).1 hshifted

theorem getLsbD_number (bits : List Bool) {i : Nat} (h : i < w) :
    (number bits : BitVec w).getLsbD i = bits.getD i false := by
  induction bits generalizing i with
  | nil => simp [number]
  | cons b bits ih =>
      rw [number, BitVec.getLsbD_xor]
      cases i with
      | zero => simp [h]
      | succ i =>
          have hnext := ih (show i < w by omega)
          rw [BitVec.getLsbD_shiftLeft]
          simpa [h] using hnext

/-- A number that has room is moved down by a shift. -/
theorem shift_number {bits : List Bool} (hroom : bits.length < w) :
    shift poly (number bits <<< 1) = number bits := by
  rw [shift_of_even _ (by simp)]
  apply BitVec.eq_of_getLsbD_eq
  intro i hless
  rw [BitVec.getLsbD_ushiftRight, BitVec.getLsbD_shiftLeft]
  by_cases hlast : 1 + i < w
  · simp [hlast]
  · have hpast : bits.getD i false = false := by
      rw [List.getD_eq_getElem?_getD, List.getElem?_eq_none (by omega)]
      rfl
    rw [getLsbD_number bits hless, hpast]
    simp [hlast]

/-- Bits that fit into the register act as one number. -/
theorem feed_eq_iterate {bits : List Bool} (hroom : bits.length ≤ w) (c : BitVec w) :
    feed poly c bits = (shift poly)^[bits.length] (c ^^^ number bits) := by
  induction bits generalizing c with
  | nil => simp [feed, number]
  | cons b bits ih =>
      have hone : feed poly c (b :: bits) =
          feed poly (shift poly (c ^^^ (BitVec.ofBool b).setWidth w)) bits := rfl
      rw [hone, ih (Nat.le_of_succ_le hroom), List.length_cons, Function.iterate_succ_apply, number,
        ← BitVec.xor_assoc, shift_xor poly (c ^^^ _) (number bits <<< 1),
        shift_number poly (Nat.lt_of_succ_le hroom)]

theorem number_injective {a b : List Bool} (hlen : a.length = b.length) (hroom : a.length ≤ w)
    (heq : (number a : BitVec w) = number b) : a = b := by
  apply List.ext_getElem hlen
  intro i ha hb
  have hbit := congrArg (fun c => BitVec.getLsbD c i) heq
  simpa [getLsbD_number _ (show i < w by omega), List.getD_eq_getElem?_getD, ha, hb] using hbit

/-- Two messages that differ within a window of the register's width leave different
registers. -/
theorem feed_ne_of_burst (h : poly.msb = true) (c : BitVec w) {a b : List Bool}
    (hlen : a.length = b.length) {k : Nat}
    (hburst : ∀ i, a[i]? ≠ b[i]? → k ≤ i ∧ i < k + w) (hne : a ≠ b) :
    feed poly c a ≠ feed poly c b := by
  have hcut : ∀ l : List Bool, l = l.take k ++ ((l.drop k).take w ++ l.drop (k + w)) := fun l => by
    rw [← List.drop_drop, List.take_append_drop, List.take_append_drop]
  have hbefore : a.take k = b.take k := by
    apply List.ext_getElem?
    intro i
    by_cases hless : i < k
    · rw [List.getElem?_take_of_lt hless, List.getElem?_take_of_lt hless]
      by_contra hdiffer
      exact absurd (hburst i hdiffer).1 (by omega)
    · rw [List.getElem?_take_eq_none (by omega), List.getElem?_take_eq_none (by omega)]
  have hbehind : a.drop (k + w) = b.drop (k + w) := by
    apply List.ext_getElem?
    intro i
    rw [List.getElem?_drop, List.getElem?_drop]
    by_contra hdiffer
    exact absurd (hburst _ hdiffer).2 (by omega)
  have hwindow : (a.drop k).take w ≠ (b.drop k).take w := by
    intro hsame
    apply hne
    rw [hcut a, hcut b, hbefore, hsame, hbehind]
  intro heq
  rw [hcut a, hcut b, hbefore, hbehind] at heq
  simp only [feed_append] at heq
  have hinside := feed_injective poly h _ heq
  have hroom : ((a.drop k).take w).length ≤ w := List.length_take_le _ _
  have hsize : ((a.drop k).take w).length = ((b.drop k).take w).length := by
    simp [hlen]
  simp only [feed_eq_iterate poly hroom, feed_eq_iterate poly (hsize ▸ hroom), hsize] at hinside
  have hnumbers := (shift_injective poly h).iterate _ hinside
  exact hwindow (number_injective hsize hroom ((BitVec.xor_right_inj _).1 hnumbers))

end Clink.Verified.ShiftRegister

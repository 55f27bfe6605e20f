import Mathlib.Tactic.IntervalCases
import Clink.Ports.DecimalArithmetic
import Clink.Ports.SqlText

/-!
# The order and the grouping key of decimals

`dec_compare` brings two decimals to a common scale in 256 bits, and
`dec_canonical_key` strips the zeros at the end of the fraction.  The key is
that of the exact value whatever the scale (`canonicalKey_eq_iff`).  The
comparison is only as long as nothing wraps: products add their scales without
a limit, and a decimal brought up by 39 digits or more may leave 256 bits.
-/

namespace Clink.Ports.FixedPoint

open Clink.Verified
open Clink.Verified.StrictJson (Bytes)
open Clink.Ports.SqlValue (Text decFormat toString_ofNat toString_negSucc)
open Clink.Ports.SqlAggregate (decStrip value_decStrip stripped_decStrip eq_of_stripped
  PrintsDecimals)

/-! ## The text of a decimal -/

/-- `ToString(scale)`: the digits, `scale` of them after the point. -/
def decimalText (unscaled : Int) (scale : Nat) : Text :=
  (if unscaled < 0 then ['-'] else []) ++ decimal (unscaled.natAbs / 10 ^ scale) ++
    if scale = 0 then [] else '.' :: zeroPadded scale (unscaled.natAbs % 10 ^ scale)

def decCanonicalKey (a : Decimal) : Text :=
  let stripped := decStrip a.unscaled a.scale
  decFormat decimalText stripped.unscaled stripped.scale

/-- What follows the digits of a numeral: nothing, or an exponent. -/
def readExponent : Text → Option Int
  | [] => some 0
  | mark :: rest =>
      let negative := rest.head? = some '-'
      let digits := if negative ∨ rest.head? = some '+' then rest.tail else rest
      if (mark = 'e' ∨ mark = 'E') ∧ digits ≠ [] ∧ digits.all Char.isDigit then
        some (if negative then -(digitsValue digits : Int) else digitsValue digits)
      else none

/-- Digits with a point among them, and an exponent. -/
def readUnsigned (body : Text) : Option (Nat × Int) :=
  let whole := body.takeWhile Char.isDigit
  let rest := body.dropWhile Char.isDigit
  let fraction := if rest.head? = some '.' then rest.tail.takeWhile Char.isDigit else []
  let tail := if rest.head? = some '.' then rest.tail.dropWhile Char.isDigit else rest
  if whole ++ fraction = [] then none
  else (readExponent tail).map fun exponent =>
    (digitsValue (whole ++ fraction), fraction.length - exponent)

/-- A numeral with its sign: a coefficient and a scale. -/
def readNumeral (text : Text) : Option (Int × Int) :=
  if text.head? = some '-' then (readUnsigned text.tail).map fun r => (-(r.1 : Int), r.2)
  else
    (readUnsigned (if text.head? = some '+' then text.tail else text)).map fun r =>
      ((r.1 : Int), r.2)

private theorem digitsValue_append (a b : Text) :
    digitsValue (a ++ b) = 10 ^ b.length * digitsValue a + digitsValue b := by
  unfold digitsValue
  rw [Nat.ofDigitChars_append, Nat.ofDigitChars_eq_ofDigitChars_zero]

theorem readUnsigned_pieces {whole fraction : Text} (hne : whole ≠ [])
    (hwhole : whole.all Char.isDigit = true) (hfraction : fraction.all Char.isDigit = true) :
    readUnsigned (whole ++ if fraction = [] then [] else '.' :: fraction) =
      some (digitsValue (whole ++ fraction), (fraction.length : Int)) := by
  have hpoint : ('.' : Char).isDigit = false := by decide
  have hpieces : ∀ tail : Text, tail.takeWhile Char.isDigit = [] →
      (whole ++ tail).takeWhile Char.isDigit = whole ∧
        (whole ++ tail).dropWhile Char.isDigit = tail.dropWhile Char.isDigit := by
    intro tail htail
    rw [List.takeWhile_append_of_pos (by simpa using hwhole),
      List.dropWhile_append_of_pos (by simpa using hwhole), htail, List.append_nil]
    exact ⟨rfl, rfl⟩
  unfold readUnsigned
  by_cases hempty : fraction = []
  · subst hempty
    rw [if_pos rfl, (hpieces [] rfl).1, (hpieces [] rfl).2]
    simp [readExponent, hne]
  · have hall : fraction.takeWhile Char.isDigit = fraction ∧
        fraction.dropWhile Char.isDigit = [] := by
      rw [List.takeWhile_eq_self_iff, List.dropWhile_eq_nil_iff]
      exact ⟨by simpa using hfraction, by simpa using hfraction⟩
    obtain ⟨htake, hdrop⟩ := hpieces ('.' :: fraction) (by simp [hpoint])
    rw [List.dropWhile_cons_of_neg (by simp [hpoint])] at hdrop
    rw [if_neg hempty, htake, hdrop]
    simp [hall, readExponent, hne]

private theorem readNumeral_signed {u : Int} {digits rest : Text} {s : Int} (hne : digits ≠ [])
    (hdigits : digits.all Char.isDigit = true)
    (h : readUnsigned (digits ++ rest) = some (u.natAbs, s)) :
    readNumeral ((if u < 0 then ['-'] else []) ++ digits ++ rest) = some (u, s) := by
  obtain ⟨c, digits, rfl⟩ := List.exists_cons_of_ne_nil hne
  rw [List.all_cons, Bool.and_eq_true] at hdigits
  have hsign : ∀ d : Char, d.isDigit = false → ((c :: digits) ++ rest).head? ≠ some d := by
    rintro d hd hhead
    rw [List.cons_append, List.head?_cons] at hhead
    rw [Option.some.inj hhead, hd] at hdigits
    exact absurd hdigits.1 Bool.false_ne_true
  unfold readNumeral
  by_cases hneg : u < 0
  · rw [if_pos hneg, List.append_assoc, List.singleton_append, List.head?_cons, if_pos rfl,
      List.tail_cons, h, Option.map_some]
    refine congrArg some (Prod.ext ?_ rfl)
    change -(u.natAbs : Int) = u
    omega
  · rw [if_neg hneg, List.nil_append, if_neg (hsign '-' (by decide)),
      if_neg (hsign '+' (by decide)),
      h, Option.map_some]
    refine congrArg some (Prod.ext ?_ rfl)
    change (u.natAbs : Int) = u
    omega

theorem readNumeral_decimalText (u : Int) (s : Nat) :
    readNumeral (decimalText u s) = some (u, (s : Int)) := by
  have hwhole : (decimal (u.natAbs / 10 ^ s)).all Char.isDigit = true :=
    List.all_eq_true.mpr fun c hc => isDigit_of_mem_decimal hc
  have hread : ∀ n : Nat, digitsValue (decimal n) = n := fun n => Nat.ofDigitChars_ten_toDigits
  refine readNumeral_signed (decimal_ne_nil _) hwhole ?_
  by_cases hs : s = 0
  · subst hs
    refine (readUnsigned_pieces (decimal_ne_nil _) hwhole
      (show ([] : Text).all Char.isDigit = true from rfl)).trans ?_
    rw [List.append_nil, hread, pow_zero, Nat.div_one]
    rfl
  · have hlength : (zeroPadded s (u.natAbs % 10 ^ s)).length = s :=
      length_zeroPadded (Nat.pos_of_ne_zero hs) (Nat.mod_lt _ (by positivity))
    have hne : zeroPadded s (u.natAbs % 10 ^ s) ≠ [] := by
      intro hnil
      rw [hnil, List.length_nil] at hlength
      exact hs hlength.symm
    have hpieces := readUnsigned_pieces (decimal_ne_nil (u.natAbs / 10 ^ s)) hwhole
      (all_isDigit_zeroPadded s (u.natAbs % 10 ^ s))
    rw [if_neg hne, digitsValue_append, hlength, digitsValue_zeroPadded, hread,
      Nat.div_add_mod] at hpieces
    rw [if_neg hs]
    exact hpieces

theorem decimalText_injective {u u' : Int} {s s' : Nat}
    (h : decimalText u s = decimalText u' s') : u = u' ∧ s = s' := by
  have hread := congrArg readNumeral h
  rw [readNumeral_decimalText, readNumeral_decimalText] at hread
  obtain ⟨hu, hs⟩ := Prod.mk.inj (Option.some.inj hread)
  exact ⟨hu, Int.ofNat_inj.mp hs⟩

theorem mem_decimalText {u : Int} {s : Nat} {c : Char} (h : c ∈ decimalText u s) :
    c.isDigit = true ∨ c = '-' ∨ c = '.' := by
  rcases List.mem_append.mp h with hfront | hfraction
  · rcases List.mem_append.mp hfront with hsign | hdigit
    · split at hsign
      · exact .inr (.inl (List.mem_singleton.mp hsign))
      · simp at hsign
    · exact .inl (isDigit_of_mem_decimal hdigit)
  · split at hfraction
    · simp at hfraction
    · rcases List.mem_cons.mp hfraction with hpoint | hdigit
      · exact .inr (.inr hpoint)
      · exact .inl (List.all_eq_true.mp (all_isDigit_zeroPadded _ _) c hdigit)

/-- A decimal other than zero has a digit other than zero. -/
theorem exists_significant {u : Int} (s : Nat) (hu : u ≠ 0) :
    ∃ c ∈ decimalText u s, c.isDigit = true ∧ c ≠ '0' := by
  by_cases hint : u.natAbs / 10 ^ s = 0
  · have hlt : u.natAbs < 10 ^ s := (Nat.div_eq_zero_iff.mp hint).resolve_left (by positivity)
    have hs : s ≠ 0 := by
      rintro rfl
      rw [pow_zero] at hlt
      omega
    obtain ⟨c, hc, hne⟩ := exists_digit_ne_zero (Int.natAbs_ne_zero.mpr hu)
    refine ⟨c, List.mem_append_right _ ?_, isDigit_of_mem_decimal hc, hne⟩
    rw [if_neg hs, Nat.mod_eq_of_lt hlt]
    exact List.mem_cons_of_mem _ (List.mem_append_right _ hc)
  · obtain ⟨c, hc, hne⟩ := exists_digit_ne_zero hint
    exact ⟨c, List.mem_append_left _ (List.mem_append_right _ hc), isDigit_of_mem_decimal hc, hne⟩

theorem head?_decimalText_zero (s : Nat) : (decimalText 0 s).head? ≠ some '-' := by
  rw [decimalText, if_neg (by decide), List.nil_append]
  obtain ⟨c, rest, hdigits⟩ :=
    List.exists_cons_of_ne_nil (decimal_ne_nil ((0 : Int).natAbs / 10 ^ s))
  have hdigit := isDigit_of_mem_decimal (hdigits ▸ List.mem_cons_self : c ∈ _)
  rw [hdigits, List.cons_append, List.head?_cons]
  intro hminus
  rw [Option.some.inj hminus] at hdigit
  exact absurd hdigit (by decide)

/-- Arrow prints decimals as its documentation says. -/
theorem decimalText_prints : PrintsDecimals decimalText where
  integer u := by
    cases u with
    | ofNat n =>
        rw [toString_ofNat]
        simp [decimalText]
    | negSucc n =>
        rw [toString_negSucc]
        simp [decimalText, Int.negSucc_lt_zero]
  injective _ _ _ _ _ _ h := decimalText_injective h
  significant u s _ hu := by
    obtain ⟨c, hc, hdigit, hne⟩ := exists_significant s hu
    refine ⟨c, hc, ?_, ?_, hne⟩
    · rintro rfl
      exact absurd hdigit (by decide)
    · rintro rfl
      exact absurd hdigit (by decide)
  unsigned s _ := head?_decimalText_zero s
  unquoted u s h := by
    rcases mem_decimalText h with hdigit | hminus | hpoint
    · exact absurd hdigit (by decide)
    · exact absurd hminus (by decide)
    · exact absurd hpoint (by decide)

theorem decFormat_decimalText (u : Int) (s : Nat) :
    decFormat decimalText u s = decimalText u s := by
  unfold decFormat
  refine if_neg fun hcond => ?_
  rw [Bool.and_eq_true, List.all_eq_true, beq_iff_eq] at hcond
  by_cases hu : u = 0
  · subst hu
    exact head?_decimalText_zero s hcond.2
  · obtain ⟨c, hc, hdigit, hne⟩ := exists_significant s hu
    have hall := hcond.1 c hc
    simp only [Bool.or_eq_true, beq_iff_eq] at hall
    rcases hall with (rfl | rfl) | rfl
    · exact absurd hdigit (by decide)
    · exact absurd hdigit (by decide)
    · exact hne rfl

theorem canonicalKey_eq_iff (a b : Decimal) :
    decCanonicalKey a = decCanonicalKey b ↔ value a = value b := by
  unfold decCanonicalKey
  rw [decFormat_decimalText, decFormat_decimalText]
  constructor
  · intro h
    have hstrip := Decimal.ext_iff.mpr (decimalText_injective h)
    have ha := value_decStrip a.unscaled a.scale
    rw [hstrip, value_decStrip] at ha
    exact ha.symm
  · intro h
    have hvalue := (value_decStrip a.unscaled a.scale).trans
      (h.trans (value_decStrip b.unscaled b.scale).symm)
    rw [eq_of_stripped (stripped_decStrip _ _) (stripped_decStrip _ _) hvalue]

/-! ## What the operations reach -/

/-- What arrow's documentation says of `FromString`: at most 38 digits are read, and
the numerals `1` and `0.1` as they are. -/
structure ReadsNumerals (fromString : Bytes → Option (Int × Int)) : Prop where
  digits : ∀ text u s, fromString text = some (u, s) → u.natAbs < 10 ^ maxDecimalPrecision
  one : fromString "1".toUTF8.toList = some (1, 0)
  tenth : fromString "0.1".toUTF8.toList = some (1, 1)

/-- The decimals numerals and the operations on them give; the scale of a product is an
`int`. -/
inductive Reachable (fromString : Bytes → Option (Int × Int)) : Decimal → Prop
  | parse {text d} : decParse fromString text = some d → Reachable fromString d
  | add {a b d} : Reachable fromString a → Reachable fromString b → decAdd a b = some d →
      Reachable fromString d
  | sub {a b d} : Reachable fromString a → Reachable fromString b → decSub a b = some d →
      Reachable fromString d
  | mul {a b d} : Reachable fromString a → Reachable fromString b → a.scale + b.scale < 2 ^ 31 →
      decMul a b = some d → Reachable fromString d
  | div {a b d} (resultScale : Int) : Reachable fromString a → Reachable fromString b →
      decDiv a b resultScale = some d → Reachable fromString d
  | mod {a b d} : Reachable fromString a → Reachable fromString b → decMod a b = some d →
      Reachable fromString d
  | rescale {a d} (targetScale : Int) : Reachable fromString a →
      decRescale a targetScale = some d → Reachable fromString d

theorem fits_of_narrow {v : Int} {s : Nat} {d : Decimal} (h : narrow v s = some d) :
    d.unscaled.natAbs ≤ 2 ^ 127 := by
  unfold narrow at h
  split at h
  · rename_i hfits
    rw [← Option.some.inj h]
    exact (Nat.le_of_lt hfits).trans (by norm_num [maxDecimalPrecision])
  · cases h

theorem decParse_of_read {fromString : Bytes → Option (Int × Int)} {text : Bytes} {u : Int}
    {s : Nat} (hread : fromString text = some (u, (s : Int)))
    (htag : text.head? ≠ some decimalSentinel) :
    decParse fromString text = some ⟨u, s⟩ := by
  unfold decParse
  simp only [if_neg htag, hread]
  rw [if_neg (by omega), Int.toNat_natCast]

section Reaching

variable {fromString : Bytes → Option (Int × Int)} (hreads : ReadsNumerals fromString)
include hreads

theorem Reachable.fits {d : Decimal} (h : Reachable fromString d) :
    d.unscaled.natAbs ≤ 2 ^ 127 := by
  induction h with
  | @parse text d hparse =>
      unfold decParse at hparse
      dsimp only at hparse
      generalize (if text.head? = some decimalSentinel then text.tail else text) = numeral at hparse
      cases hread : fromString numeral with
      | none =>
          rw [hread] at hparse
          cases hparse
      | some out =>
          obtain ⟨u, s⟩ := out
          have hu := hreads.digits numeral u s hread
          rw [hread] at hparse
          dsimp only at hparse
          split at hparse
          · rw [← Option.some.inj hparse]
            have hle := Int.bmod_le (x := u * 10 ^ (-s).toNat) (m := 2 ^ 128) (by norm_num)
            have hge := Int.le_bmod (x := u * 10 ^ (-s).toNat) (m := 2 ^ 128) (by norm_num)
            unfold wrap128
            norm_num at hle hge ⊢
            omega
          · rw [← Option.some.inj hparse]
            exact hu.le.trans (by norm_num [maxDecimalPrecision])
  | add _ _ hd _ _ => exact fits_of_narrow hd
  | sub _ _ hd _ _ => exact fits_of_narrow hd
  | mul _ _ _ hd _ _ => exact fits_of_narrow hd
  | div resultScale _ _ hd _ _ =>
      unfold decDiv at hd
      split at hd
      · cases hd
      · obtain ⟨num, -, hnarrow⟩ := Option.bind_eq_some_iff.mp hd
        exact fits_of_narrow hnarrow
  | mod _ _ hd _ _ =>
      unfold decMod at hd
      split at hd
      · cases hd
      · dsimp only at hd
        split at hd
        · cases hd
        · exact fits_of_narrow hd
  | rescale targetScale _ hd ih =>
      unfold decRescale at hd
      dsimp only at hd
      split at hd
      · rwa [← Option.some.inj hd]
      · split at hd <;> exact fits_of_narrow hd

theorem reachable_power (s : Nat) (hs : s < 2 ^ 31) : Reachable fromString ⟨1, s⟩ := by
  induction s with
  | zero => exact .parse (decParse_of_read (s := 0) hreads.one (by decide +kernel))
  | succ s ih =>
      have htenth : Reachable fromString ⟨1, 1⟩ :=
        .parse (decParse_of_read (s := 1) hreads.tenth (by decide +kernel))
      refine .mul (ih (by omega)) htenth hs ?_
      unfold decMul
      rw [show wrap256 (1 * 1) = 1 by decide]
      rfl

/-- Every coefficient of at most 38 digits is reached at every scale. -/
theorem reachable_of_fits {s : Nat} (hs : s < 2 ^ 31) {n : Nat}
    (hn : n < 10 ^ maxDecimalPrecision) : Reachable fromString ⟨n, s⟩ := by
  have hone := reachable_power hreads s hs
  have hsame : ∀ m k : Int, m.natAbs < 10 ^ 76 → k.natAbs < 10 ^ 76 →
      increaseScaleBy m (max s s - s) = m := by
    intro m k hm _
    rw [max_self, Nat.sub_self, increaseScaleBy, pow_zero, mul_one, wrap256_eq hm]
  unfold maxDecimalPrecision at hn
  induction n with
  | zero =>
      refine .sub hone hone ?_
      unfold decSub
      dsimp only
      rw [hsame 1 1 (by norm_num) (by norm_num), max_self, show wrap256 (1 - 1) = 0 by decide]
      rfl
  | succ n ih =>
      refine .add (ih (by omega)) hone ?_
      unfold decAdd
      dsimp only
      rw [hsame n 1 (by rw [Int.natAbs_natCast]; omega) (by norm_num),
        hsame 1 1 (by norm_num) (by norm_num), max_self, wrap256_eq (by omega), narrow,
        if_pos (by unfold fitsInPrecision maxDecimalPrecision; omega)]
      push_cast
      rfl

end Reaching

/-! ## The comparison -/

/-- The comparison is that of the exact values and the keys go with it. -/
def OrdersByValue (a b : Decimal) : Prop :=
  decCompare a b = (if value a < value b then -1 else if value b < value a then 1 else 0) ∧
    (decCanonicalKey a = decCanonicalKey b ↔ decCompare a b = 0)

private theorem ordersByValue_of_compare {a b : Decimal}
    (h : decCompare a b = if value a < value b then -1 else if value b < value a then 1 else 0) :
    OrdersByValue a b := by
  refine ⟨h, ?_⟩
  rw [canonicalKey_eq_iff, h]
  rcases lt_trichotomy (value a) (value b) with hlt | heq | hgt
  · simp [hlt, hlt.ne]
  · simp [heq]
  · simp [hgt, hgt.asymm, hgt.ne']

/-- Up to 38 digits a coefficient of 128 bits stays within 256. -/
theorem rescaled_of_near {d : Decimal} (hfits : d.unscaled.natAbs ≤ 2 ^ 127) {scale : Nat}
    (hnear : scale ≤ d.scale + 38) :
    rescaled d scale = d.unscaled * 10 ^ (scale - d.scale) := by
  refine wrap256_eq_of_lt ?_
  rw [Int.natAbs_mul, Int.natAbs_pow]
  calc d.unscaled.natAbs * (10 : Int).natAbs ^ (scale - d.scale)
      ≤ 2 ^ 127 * 10 ^ 38 :=
        Nat.mul_le_mul hfits (Nat.pow_le_pow_right (by decide) (by omega))
    _ < 2 ^ 255 := by norm_num

/-- The least coefficient that `d` more digits take out of the positive numbers. -/
def wrappedBy (d : Nat) : Nat :=
  if wrap256 (10 ^ d) ≤ 0 then 1 else (2 ^ 255 / wrap256 (10 ^ d)).toNat + 1

/-- From 39 digits on some coefficient leaves 256 bits for a number that is not positive. -/
theorem exists_wrapped {d : Nat} (hd : 39 ≤ d) :
    ∃ u : Nat, 0 < u ∧ u < 10 ^ maxDecimalPrecision ∧ wrap256 (u * 10 ^ d) ≤ 0 := by
  by_cases hlarge : 256 ≤ d
  · refine ⟨1, by decide, by decide, le_of_eq ?_⟩
    have hdvd : ((2 ^ 256 : Nat) : Int) ∣ (1 : Nat) * 10 ^ d := by
      obtain ⟨k, rfl⟩ := Nat.exists_eq_add_of_le hlarge
      refine ⟨5 ^ 256 * 10 ^ k, ?_⟩
      rw [pow_add]
      push_cast
      ring
    exact Int.bmod_eq_zero_of_dvd hdvd
  · have hcheck : ∀ d < 256, 39 ≤ d →
        0 < wrappedBy d ∧ wrappedBy d < 10 ^ maxDecimalPrecision ∧
          wrap256 (wrappedBy d * 10 ^ d) ≤ 0 := by
      decide +kernel
    exact ⟨wrappedBy d, hcheck d (by omega) hd⟩

/-- The comparison of two decimals of given scales is that of their values, and their
keys are equal exactly when it is 0, whatever the operations reach, if and only if the
scales are at most 38 apart. -/
theorem orders_by_value_iff {fromString : Bytes → Option (Int × Int)}
    (hreads : ReadsNumerals fromString) (s s' : Nat) (hs : s < 2 ^ 31) (hs' : s' < 2 ^ 31) :
    (∀ a b, Reachable fromString a → Reachable fromString b → a.scale = s → b.scale = s' →
      OrdersByValue a b) ↔ s ≤ s' + 38 ∧ s' ≤ s + 38 := by
  have hzero : ∀ m k : Nat, rescaled ⟨0, m⟩ k = 0 := by
    intro m k
    rw [rescaled, zero_mul]
    rfl
  have hvalue : ∀ {u m : Nat}, 0 < u → 0 < value ⟨u, m⟩ := by
    intro u m hu
    unfold value
    have hcast : (0 : ℚ) < ((u : Int) : ℚ) := by exact_mod_cast hu
    positivity
  have hnone : ∀ m : Nat, value ⟨0, m⟩ = 0 := by
    intro m
    simp [value]
  constructor
  · intro h
    by_contra hfar
    rcases not_and_or.mp hfar with hfar | hfar
    · obtain ⟨u, hpos, hu, hwrap⟩ := exists_wrapped (d := s - s') (by omega)
      obtain ⟨hcompare, -⟩ := h ⟨0, s⟩ ⟨u, s'⟩ (reachable_of_fits hreads hs (by decide))
        (reachable_of_fits hreads hs' hu) rfl rfl
      have hmax : max s s' = s := by omega
      rw [hnone, if_pos (hvalue hpos), decCompare, hmax, hzero, rescaled,
        if_neg (not_lt.mpr hwrap)] at hcompare
      split at hcompare <;> cases hcompare
    · obtain ⟨u, hpos, hu, hwrap⟩ := exists_wrapped (d := s' - s) (by omega)
      obtain ⟨hcompare, -⟩ := h ⟨u, s⟩ ⟨0, s'⟩ (reachable_of_fits hreads hs hu)
        (reachable_of_fits hreads hs' (by decide)) rfl rfl
      have hmax : max s s' = s' := by omega
      rw [hnone, if_neg (not_lt.mpr (hvalue hpos).le), if_pos (hvalue hpos), decCompare, hmax,
        hzero, rescaled, if_neg (not_lt.mpr hwrap : ¬ wrap256 (u * 10 ^ (s' - s)) > 0)] at hcompare
      split at hcompare <;> cases hcompare
  · rintro ⟨hnear, hnear'⟩ a b ha hb rfl rfl
    exact ordersByValue_of_compare (decCompare_of_exact
      (rescaled_of_near (ha.fits hreads) (max_le (by omega) hnear'))
      (rescaled_of_near (hb.fits hreads) (max_le hnear (by omega))))

/-- The numerals `1` and `0.1`. -/
def readOnes (text : Bytes) : Option (Int × Int) :=
  if text = "1".toUTF8.toList then some (1, 0)
  else if text = "0.1".toUTF8.toList then some (1, 1) else none

theorem readsNumerals_readOnes : ReadsNumerals readOnes where
  digits text u s h := by
    unfold readOnes at h
    split at h
    · cases h
      decide
    · split at h
      · cases h
        decide
      · cases h
  one := by decide +kernel
  tenth := by decide +kernel

/-- One and a tenth. -/
theorem orders_one_tenth : OrdersByValue ⟨1, 0⟩ ⟨1, 1⟩ :=
  (orders_by_value_iff readsNumerals_readOnes 0 1 (by decide) (by decide)).mpr
    ⟨by decide, by decide⟩ _ _
    (.parse (decParse_of_read (s := 0) readsNumerals_readOnes.one (by decide +kernel)))
    (.parse (decParse_of_read (s := 1) readsNumerals_readOnes.tenth (by decide +kernel))) rfl rfl

/-- The product of 77 factors `0.1` is below 1 and compares as above it. -/
theorem small_product_above_one :
    Reachable readOnes ⟨1, 0⟩ ∧ Reachable readOnes ⟨1, 77⟩ ∧ value ⟨1, 77⟩ < value ⟨1, 0⟩ ∧
      decCompare ⟨1, 0⟩ ⟨1, 77⟩ = -1 :=
  ⟨reachable_power readsNumerals_readOnes 0 (by decide),
    reachable_power readsNumerals_readOnes 77 (by decide), by norm_num [value], by decide +kernel⟩

end Clink.Ports.FixedPoint

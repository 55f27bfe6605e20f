import Mathlib.Algebra.Order.Field.Rat
import Mathlib.Data.Sum.Order
import Mathlib.Tactic.FieldSimp
import Mathlib.Tactic.Ring
import Clink.Verified.Text
import Clink.Ports.AggregateRow

/-!
# What the texts of values tell

SQL tells integers and DECIMALs apart by the number they stand for and texts by
their characters (`sqlKey`).  The text a value is counted under distinguishes
exactly that (`aggValueKey_eq_iff`); the text a value is grouped by
distinguishes at least that (`groupOf_eq_of_groupKey_eq`), and more: DECIMALs
of different scales have different texts.

Of arrow's printing of DECIMALs only what its documentation says is used
(`PrintsDecimals`), for DECIMALs of 38 digits.
-/

namespace Clink.Ports.SqlValue

open Clink.Verified

/-! ## JSON strings -/

/-- The characters written with a backslash. -/
def escaped : List Char := '"' :: '\\' :: (List.range 32).map Char.ofNat

theorem mem_escaped {c : Char} (h : c.toNat < 32) : c ∈ escaped := by
  have hc : c = Char.ofNat c.toNat := (Char.ofNat_toNat c).symm
  rw [hc]
  exact List.mem_cons_of_mem _ (List.mem_cons_of_mem _
    (List.mem_map_of_mem (List.mem_range.mpr h)))

theorem escapeChar_of_not_mem {c : Char} (h : c ∉ escaped) : escapeChar c = [c] := by
  have hsmall : ¬ c.toNat < 32 := fun hlt => h (mem_escaped hlt)
  have hquote : c ≠ '"' := fun heq => h (by rw [heq]; decide)
  have hslash : c ≠ '\\' := fun heq => h (by rw [heq]; decide)
  have hne : ∀ d : Char, d.toNat < 32 → c ≠ d := fun d hd heq => hsmall (heq ▸ hd)
  unfold escapeChar
  rw [if_neg hquote, if_neg hslash, if_neg (by omega), if_neg (by omega),
    if_neg (hne _ (by decide)), if_neg (hne _ (by decide)), if_neg (hne _ (by decide)),
    if_neg hsmall]

private theorem escaped_prefixCode :
    ∀ c ∈ escaped, ∀ d ∈ escaped, escapeChar c <+: escapeChar d → c = d := by
  have hall : (escaped.all fun c => escaped.all fun d =>
      !(escapeChar c).isPrefixOf (escapeChar d) || c == d) = true := by decide +kernel
  intro c hc d hd hpre
  have hcd := List.all_eq_true.mp (List.all_eq_true.mp hall c hc) d hd
  rw [List.isPrefixOf_iff_prefix.mpr hpre] at hcd
  simpa using hcd

theorem escaped_head : ∀ c ∈ escaped, (escapeChar c).head? = some '\\' := by
  have hall : (escaped.all fun c => (escapeChar c).head? == some '\\') = true := by decide +kernel
  intro c hc
  exact beq_iff_eq.mp (List.all_eq_true.mp hall c hc)

private theorem escaped_visible : ∀ c ∈ escaped, ∀ d ∈ escapeChar c, ¬ d.toNat < 32 := by
  have hall : (escaped.all fun c => (escapeChar c).all fun d => !decide (d.toNat < 32)) = true := by
    decide +kernel
  intro c hc d hd
  simpa using List.all_eq_true.mp (List.all_eq_true.mp hall c hc) d hd

theorem escapeChar_ne_nil (c : Char) : escapeChar c ≠ [] := by
  by_cases h : c ∈ escaped
  · intro hnil
    have hhead := escaped_head c h
    rw [hnil] at hhead
    simp at hhead
  · rw [escapeChar_of_not_mem h]
    simp

/-- The first character of a text tells what was escaped there. -/
theorem eq_of_escapeChar_prefix {c d : Char} (h : escapeChar c <+: escapeChar d) :
    c = d := by
  by_cases hc : c ∈ escaped
  · by_cases hd : d ∈ escaped
    · exact escaped_prefixCode c hc d hd h
    · exfalso
      rw [escapeChar_of_not_mem hd] at h
      obtain ⟨rest, hrest⟩ := h
      have hhead := escaped_head c hc
      cases heq : escapeChar c with
      | nil => exact escapeChar_ne_nil c heq
      | cons x xs =>
          rw [heq] at hhead hrest
          simp only [List.cons_append, List.cons.injEq] at hrest
          have hx : x = '\\' := Option.some.inj hhead
          apply hd
          rw [← hrest.1, hx]
          decide
  · rw [escapeChar_of_not_mem hc] at h
    obtain ⟨rest, hrest⟩ := h
    by_cases hd : d ∈ escaped
    · exfalso
      have hhead := escaped_head d hd
      rw [← hrest] at hhead
      have hx : c = '\\' := Option.some.inj hhead
      apply hc
      rw [hx]
      decide
    · rw [escapeChar_of_not_mem hd] at hrest
      simpa using (List.cons.inj hrest).1

theorem escapeString_injective : Function.Injective escapeString := by
  intro s t h
  have hflat : s.flatMap escapeChar = t.flatMap escapeChar := by
    unfold escapeString at h
    simpa using h
  refine flatMap_injective escapeChar_ne_nil ?_ hflat
  exact fun c d hstart => eq_of_escapeChar_prefix hstart

theorem visible_of_mem_escapeString {s : Text} {c : Char} (h : c ∈ escapeString s) :
    ¬ c.toNat < 32 := by
  unfold escapeString at h
  simp only [List.cons_append, List.mem_cons, List.mem_append, List.mem_flatMap,
    List.not_mem_nil, or_false] at h
  rcases h with rfl | ⟨d, -, hd⟩ | rfl
  · decide
  · by_cases hmem : d ∈ escaped
    · exact escaped_visible d hmem c hd
    · rw [escapeChar_of_not_mem hmem, List.mem_singleton] at hd
      subst hd
      exact fun hlt => hmem (mem_escaped hlt)
  · decide

/-! ## Integers -/

theorem toString_ofNat (n : Nat) : (toString (Int.ofNat n)).toList = decimal n := by
  change (Nat.repr n).toList = decimal n
  simp [Nat.repr, decimal]

theorem toString_negSucc (n : Nat) :
    (toString (Int.negSucc n)).toList = '-' :: decimal (n + 1) := by
  change ("-" ++ Nat.repr (n + 1)).toList = '-' :: decimal (n + 1)
  simp [Nat.repr, decimal]

theorem toString_injective : Function.Injective fun n : Int => (toString n).toList := by
  have hsign : ∀ m n : Nat, decimal m ≠ '-' :: decimal n := by
    intro m n h
    have hmem : '-' ∈ decimal m := by
      rw [h]
      exact List.mem_cons_self
    exact not_mem_decimal (by decide) hmem
  intro m n h
  cases m with
  | ofNat m =>
      cases n with
      | ofNat n =>
          simp only [toString_ofNat] at h
          rw [decimal_injective h]
      | negSucc n =>
          simp only [toString_ofNat, toString_negSucc] at h
          exact absurd h (hsign _ _)
  | negSucc m =>
      cases n with
      | ofNat n =>
          simp only [toString_ofNat, toString_negSucc] at h
          exact absurd h.symm (hsign _ _)
      | negSucc n =>
          simp only [toString_negSucc, List.cons.injEq, true_and] at h
          have hsucc := decimal_injective h
          rw [Nat.succ.inj hsucc]

/-- An integer is written with digits and a sign. -/
theorem mem_toString {n : Int} {c : Char} (h : c ∈ (toString n).toList) :
    c.isDigit = true ∨ c = '-' := by
  cases n with
  | ofNat n =>
      rw [toString_ofNat] at h
      exact Or.inl (isDigit_of_mem_decimal h)
  | negSucc n =>
      rw [toString_negSucc] at h
      rcases List.mem_cons.mp h with rfl | hmem
      · exact Or.inr rfl
      · exact Or.inl (isDigit_of_mem_decimal hmem)

end Clink.Ports.SqlValue

namespace Clink.Ports.SqlAggregate

open Clink.Verified
open Clink.Ports.FixedPoint (Decimal value InRange maxDecimalPrecision)
open Clink.Ports.SqlRow
open Clink.Ports.SqlValue

variable {D : Type}

/-! ## The values of SQL -/

/-- An integer, a DECIMAL of at most 38 digits or a text; a text with the tag of
a DECIMAL in front is one. -/
def Datum.Plain : Datum D → Prop
  | .int _ => True
  | .decimal unscaled scale => InRange ⟨unscaled, scale⟩
  | .string text => text.head? ≠ some decimalSentinel
  | _ => False

/-- The number a value stands for. -/
def numberOf : Datum D → Option ℚ
  | .int n => some n
  | .decimal unscaled scale => some (value ⟨unscaled, scale⟩)
  | _ => none

/-- What SQL compares plain values by: numbers by value, texts by characters. -/
def sqlKey : Datum D → ℚ ⊕ₗ Text
  | .int n => Sum.inlₗ (n : ℚ)
  | .decimal unscaled scale => Sum.inlₗ (value ⟨unscaled, scale⟩)
  | .string text => Sum.inrₗ text
  | _ => Sum.inrₗ []

/-- What arrow's documentation says of the texts of DECIMALs: a scale of 0 prints
the coefficient, different DECIMALs print differently, only a zero prints
without a significant digit, and then without a sign. -/
structure PrintsDecimals (toText : Int → Nat → Text) : Prop where
  integer : ∀ u, toText u 0 = (toString u).toList
  injective : ∀ u s u' s', s ≤ maxDecimalPrecision → s' ≤ maxDecimalPrecision →
    toText u s = toText u' s' → u = u' ∧ s = s'
  significant : ∀ u s, s ≤ maxDecimalPrecision → u ≠ 0 →
    ∃ c ∈ toText u s, c ≠ '-' ∧ c ≠ '.' ∧ c ≠ '0'
  unsigned : ∀ s, s ≤ maxDecimalPrecision → (toText 0 s).head? ≠ some '-'
  unquoted : ∀ u s, '"' ∉ toText u s

/-! ## DECIMALs -/

theorem decFormat_eq {toText : Int → Nat → Text} (h : PrintsDecimals toText) (u : Int) {s : Nat}
    (hs : s ≤ maxDecimalPrecision) : decFormat toText u s = toText u s := by
  unfold decFormat
  apply if_neg
  intro hcond
  rw [Bool.and_eq_true, List.all_eq_true, beq_iff_eq] at hcond
  by_cases hu : u = 0
  · subst hu
    exact h.unsigned s hs hcond.2
  · obtain ⟨c, hc, hminus, hdot, hzero⟩ := h.significant u s hs hu
    have hall := hcond.1 c hc
    simp [hminus, hdot, hzero] at hall

theorem decStrip_le (u : Int) (s : Nat) : (decStrip u s).scale ≤ s := by
  induction s generalizing u with
  | zero => exact le_refl 0
  | succ s ih =>
      rw [decStrip]
      split
      · exact (ih (u / 10)).trans (Nat.le_succ s)
      · exact le_refl _

theorem value_decStrip (u : Int) (s : Nat) : value (decStrip u s) = value ⟨u, s⟩ := by
  induction s generalizing u with
  | zero => rfl
  | succ s ih =>
      rw [decStrip]
      split
      · rename_i hdvd
        obtain ⟨k, rfl⟩ := Int.dvd_of_emod_eq_zero hdvd
        rw [ih, Int.mul_ediv_cancel_left k (by decide)]
        unfold value
        push_cast
        rw [pow_succ]
        field_simp
      · rfl

/-- Nothing is left to strip. -/
def Stripped (a : Decimal) : Prop := a.scale = 0 ∨ ¬ a.unscaled % 10 = 0

theorem stripped_decStrip (u : Int) (s : Nat) : Stripped (decStrip u s) := by
  induction s generalizing u with
  | zero => exact Or.inl rfl
  | succ s ih =>
      rw [decStrip]
      split
      · exact ih (u / 10)
      · rename_i h
        exact Or.inr h

theorem scale_le_of_value_eq {a b : Decimal} (ha : Stripped a)
    (h : a.unscaled * 10 ^ b.scale = b.unscaled * 10 ^ a.scale) : a.scale ≤ b.scale := by
  by_contra hlt
  push Not at hlt
  obtain ⟨k, hk⟩ : ∃ k, a.scale = b.scale + (k + 1) := ⟨a.scale - b.scale - 1, by omega⟩
  have hfactor : a.unscaled = b.unscaled * 10 ^ (k + 1) := by
    rw [hk, pow_add, mul_comm (10 ^ b.scale : Int), ← mul_assoc] at h
    exact mul_right_cancel₀ (pow_ne_zero _ (by decide)) h
  rcases ha with hzero | hlast
  · omega
  · apply hlast
    rw [hfactor, pow_succ, ← mul_assoc, Int.mul_emod_left]

theorem eq_of_stripped {a b : Decimal} (ha : Stripped a) (hb : Stripped b)
    (h : value a = value b) : a = b := by
  have hcross : a.unscaled * 10 ^ b.scale = b.unscaled * 10 ^ a.scale := by
    unfold value at h
    rw [div_eq_div_iff (pow_ne_zero _ (by norm_num)) (pow_ne_zero _ (by norm_num))] at h
    exact_mod_cast h
  have hscale : a.scale = b.scale :=
    le_antisymm (scale_le_of_value_eq ha hcross) (scale_le_of_value_eq hb hcross.symm)
  have hunscaled : a.unscaled = b.unscaled := by
    rw [hscale] at hcross
    exact mul_right_cancel₀ (pow_ne_zero _ (by decide)) hcross
  exact Decimal.ext hunscaled hscale

section Texts

variable {num : Numerics D} (h : PrintsDecimals num.toText)

include h

theorem decCanonicalKey_eq {a : Decimal} (ha : a.scale ≤ maxDecimalPrecision) :
    decCanonicalKey num a =
      num.toText (decStrip a.unscaled a.scale).unscaled (decStrip a.unscaled a.scale).scale :=
  decFormat_eq h _ ((decStrip_le a.unscaled a.scale).trans ha)

private theorem decCanonicalKey_eq_iff {a b : Decimal} (ha : a.scale ≤ maxDecimalPrecision)
    (hb : b.scale ≤ maxDecimalPrecision) :
    decCanonicalKey num a = decCanonicalKey num b ↔ value a = value b := by
  rw [decCanonicalKey_eq h ha, decCanonicalKey_eq h hb]
  constructor
  · intro heq
    obtain ⟨hu, hs⟩ := h.injective _ _ _ _ ((decStrip_le a.unscaled a.scale).trans ha)
      ((decStrip_le b.unscaled b.scale).trans hb) heq
    have hstrip : decStrip a.unscaled a.scale = decStrip b.unscaled b.scale := Decimal.ext hu hs
    rw [← value_decStrip a.unscaled a.scale, hstrip, value_decStrip]
  · intro heq
    have hvalue : value (decStrip a.unscaled a.scale) = value (decStrip b.unscaled b.scale) := by
      rw [value_decStrip, value_decStrip]
      exact heq
    rw [eq_of_stripped (stripped_decStrip _ _) (stripped_decStrip _ _) hvalue]

theorem decCanonicalKey_ne_quoted (a : Decimal) (ha : a.scale ≤ maxDecimalPrecision) (t : Text) :
    decCanonicalKey num a ≠ escapeString t := by
  intro heq
  rw [decCanonicalKey_eq h ha] at heq
  refine h.unquoted (decStrip a.unscaled a.scale).unscaled (decStrip a.unscaled a.scale).scale ?_
  rw [heq]
  exact List.mem_cons_self

/-- A plain value is counted as a number or as a text. -/
theorem aggValueKey_cases {spec : AggSpec D} (hfn : spec.fn ≠ .stringAgg) {v : Datum D}
    (hv : v.Plain) :
    (∃ a : Decimal, a.scale ≤ maxDecimalPrecision ∧ aggValueKey num v spec = decCanonicalKey num a ∧
      sqlKey v = Sum.inlₗ (value a)) ∨
    ∃ t, aggValueKey num v spec = escapeString t ∧ sqlKey v = Sum.inrₗ t := by
  cases v with
  | int n =>
      refine Or.inl ⟨⟨n, 0⟩, Nat.zero_le _, ?_, ?_⟩
      · rw [decCanonicalKey_eq h (Nat.zero_le _)]
        exact (h.integer n).symm
      · simp [sqlKey, value]
  | decimal u s => exact Or.inl ⟨⟨u, s⟩, hv.2, rfl, rfl⟩
  | string t =>
      refine Or.inr ⟨t, ?_, rfl⟩
      simp only [aggValueKey, if_neg hfn, serialize]
  | bool | double | composite => exact hv.elim

/-- COUNT(DISTINCT) tells apart what SQL does. -/
theorem aggValueKey_eq_iff {spec : AggSpec D} (hfn : spec.fn ≠ .stringAgg) {v w : Datum D}
    (hv : v.Plain) (hw : w.Plain) :
    aggValueKey num v spec = aggValueKey num w spec ↔ sqlKey v = sqlKey w := by
  rcases aggValueKey_cases h hfn hv with ⟨a, ha, hkey, hsql⟩ | ⟨s, hkey, hsql⟩
  · rcases aggValueKey_cases h hfn hw with ⟨b, hb, hkey', hsql'⟩ | ⟨t, hkey', hsql'⟩
    · rw [hkey, hkey', hsql, hsql', decCanonicalKey_eq_iff h ha hb]
      simp
    · rw [hkey, hkey', hsql, hsql']
      exact iff_of_false (decCanonicalKey_ne_quoted h a ha t) (by simp)
  · rcases aggValueKey_cases h hfn hw with ⟨b, hb, hkey', hsql'⟩ | ⟨t, hkey', hsql'⟩
    · rw [hkey, hkey', hsql, hsql']
      exact iff_of_false (decCanonicalKey_ne_quoted h b hb s).symm (by simp)
    · rw [hkey, hkey', hsql, hsql', escapeString_injective.eq_iff]
      simp

/-! ## Grouping texts -/

/-- The JSON text of a plain value is its own. -/
theorem sqlKey_eq_of_serialize_eq {v w : Datum D} (hv : v.Plain) (hw : w.Plain)
    (heq : serialize num v = serialize num w) : sqlKey v = sqlKey w := by
  have hnumber : ∀ (n : Int) (t : Text), (toString n).toList ≠ escapeString t := by
    intro n t hnt
    have hmem : '"' ∈ (toString n).toList := by
      rw [hnt]
      exact List.mem_cons_self
    rcases mem_toString hmem with hdigit | hsign
    · exact absurd hdigit (by decide)
    · exact absurd hsign (by decide)
  cases v with
  | int m =>
      cases w with
      | int n => rw [toString_injective heq]
      | decimal u s => exact absurd heq (hnumber m _)
      | string t => exact absurd heq (hnumber m t)
      | bool | double | composite => exact hw.elim
  | decimal u s =>
      cases w with
      | int n => exact absurd heq.symm (hnumber n _)
      | decimal u' s' =>
          have htext := (List.cons.inj (escapeString_injective heq)).2
          rw [decFormat_eq h u hv.2, decFormat_eq h u' hw.2] at htext
          obtain ⟨rfl, rfl⟩ := h.injective _ _ _ _ hv.2 hw.2 htext
          rfl
      | string t =>
          have htext := escapeString_injective heq
          exact absurd (congrArg List.head? htext).symm hw
      | bool | double | composite => exact hw.elim
  | string s =>
      cases w with
      | int n => exact absurd heq.symm (hnumber n s)
      | decimal u s' =>
          have htext := escapeString_injective heq
          exact absurd (congrArg List.head? htext) hv
      | string t => rw [escapeString_injective heq]
      | bool | double | composite => exact hw.elim
  | bool | double | composite => exact hv.elim

omit h in
/-- The text of a plain value is not empty and does not hold the separator of a
grouping key. -/
theorem serialize_plain {v : Datum D} (hv : v.Plain) :
    serialize num v ≠ [] ∧ AggregateRow.keySeparator ∉ serialize num v := by
  have hquoted : ∀ t, escapeString t ≠ [] ∧ AggregateRow.keySeparator ∉ escapeString t := by
    intro t
    refine ⟨by simp [escapeString], ?_⟩
    intro hmem
    exact absurd (visible_of_mem_escapeString hmem) (by decide)
  cases v with
  | int n =>
      refine ⟨?_, ?_⟩
      · cases n with
        | ofNat n =>
            rw [serialize, toString_ofNat]
            exact decimal_ne_nil n
        | negSucc n =>
            rw [serialize, toString_negSucc]
            simp
      · intro hmem
        rcases mem_toString hmem with hdigit | hsign
        · exact absurd hdigit (by decide)
        · exact absurd hsign (by decide)
  | decimal u s => exact hquoted _
  | string t => exact hquoted t
  | bool | double | composite => exact hv.elim

end Texts

end Clink.Ports.SqlAggregate

namespace Clink.Ports.AggregateRow.AggregateRowOp

open Clink.Verified
open Clink.Ports.SqlRow
open Clink.Ports.SqlValue
open Clink.Ports.SqlAggregate

variable {D : Type} (op : AggregateRowOp D)

/-- Every value of the row is plain. -/
def PlainRow (row : Row (Datum D)) : Prop := ∀ column v, cell row column = some v → v.Plain

/-- The group of a row in SQL: the values of the grouping columns, NULL with
NULL. -/
def groupOf (row : Row (Datum D)) : List (Option (ℚ ⊕ₗ Text)) :=
  op.groupKeys.map fun column => (cell row column).map sqlKey

private theorem keyText_eq (h : PrintsDecimals op.num.toText) {row row' : Row (Datum D)}
    (hrow : PlainRow row) (hrow' : PlainRow row') {column : Column}
    (heq : op.keyText row column = op.keyText row' column) :
    (cell row column).map sqlKey = (cell row' column).map sqlKey := by
  unfold keyText at heq
  cases hv : cell row column with
  | none =>
      cases hw : cell row' column with
      | none => rfl
      | some w =>
          simp only [hv, hw] at heq
          exact absurd heq.symm (serialize_plain (hrow' column w hw)).1
  | some v =>
      cases hw : cell row' column with
      | none =>
          simp only [hv, hw] at heq
          exact absurd heq (serialize_plain (hrow column v hv)).1
      | some w =>
          simp only [hv, hw] at heq
          rw [Option.map_some, Option.map_some,
            sqlKey_eq_of_serialize_eq h (hrow column v hv) (hrow' column w hw) heq]

private theorem separator_notMem_keyText {row : Row (Datum D)} (hrow : PlainRow row)
    (column : Column) : keySeparator ∉ op.keyText row column := by
  unfold keyText
  cases hv : cell row column with
  | none => simp
  | some v => exact (serialize_plain (hrow column v hv)).2

theorem groupOf_eq_of_groupKey_eq (h : PrintsDecimals op.num.toText) (hkeys : op.groupKeys ≠ [])
    {row row' : Row (Datum D)} (hrow : PlainRow row) (hrow' : PlainRow row')
    (heq : op.groupKey row = op.groupKey row') : op.groupOf row = op.groupOf row' := by
  have hsplit : ∀ {r : Row (Datum D)}, PlainRow r →
      (op.groupKey r).splitOn keySeparator = op.groupKeys.map (op.keyText r) := by
    intro r hr
    refine List.splitOn_intercalate keySeparator ?_ (by simpa using hkeys)
    intro text htext
    obtain ⟨column, -, rfl⟩ := List.mem_map.mp htext
    exact op.separator_notMem_keyText hr column
  have htexts : op.groupKeys.map (op.keyText row) = op.groupKeys.map (op.keyText row') := by
    rw [← hsplit hrow, heq, hsplit hrow']
  unfold groupOf
  apply List.map_congr_left
  intro column hcolumn
  exact op.keyText_eq h hrow hrow' (List.map_inj_left.mp htexts column hcolumn)

end Clink.Ports.AggregateRow.AggregateRowOp

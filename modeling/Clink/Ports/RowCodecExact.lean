import Clink.Ports.RowCodec

/-!
# Which rows survive the codec

A row is read back as it was written exactly when all its strings and keys are
UTF-8 and none of its string values is one of the three tags.  The text of a row is
read by the strict parser's rules as the document the row stands for (`toElement`),
by one induction over the value; `from_dom` then gives the value with every tagged
string replaced by the double it tags (`untag`).  On the way out the writer leaves
the state of a UTF-8 check as the bytes of the strings do, so one bad string is
enough to make the text one that is not UTF-8.
-/

namespace Clink.Ports.Json

open Clink.Verified
open Clink.Verified.StrictJson

/-! ## Strings -/

/-- The escapes of the control bytes, each of which is below `0x20`. -/
theorem hex4_control :
    ∀ n < 32, hex4 0x30 0x30 (hexDigit (n / 16)) (hexDigit (n % 16)) = some n := by
  decide

theorem readString_escapeByte (b : UInt8) (rest : Bytes) :
    readString (escapeByte b ++ rest) = prepend [b] (readString rest) := by
  by_cases hquote : b = 0x22
  · subst hquote
    exact readString_short rfl (by decide) rest
  by_cases hback : b = 0x5C
  · subst hback
    exact readString_short rfl (by decide) rest
  by_cases h8 : b = 0x08
  · subst h8
    exact readString_short rfl (by decide) rest
  by_cases hc : b = 0x0C
  · subst hc
    exact readString_short rfl (by decide) rest
  by_cases ha : b = 0x0A
  · subst ha
    exact readString_short rfl (by decide) rest
  by_cases hd : b = 0x0D
  · subst hd
    exact readString_short rfl (by decide) rest
  by_cases h9 : b = 0x09
  · subst h9
    exact readString_short rfl (by decide) rest
  by_cases hlow : b < 0x20
  · have hn : b.toNat < 32 := UInt8.lt_iff_toNat_lt.mp hlow
    have hread := readString_unicode (hex4_control b.toNat hn)
      (by simp [isHighSurrogate]; omega) (by simp [isLowSurrogate]; omega) rest
    have hpoint : encodePoint b.toNat = [b] := by
      rw [encodePoint, if_pos (by omega), UInt8.ofNat_toNat]
    rw [hpoint] at hread
    rw [escapeByte, if_neg hquote, if_neg hback, if_neg h8, if_neg hc, if_neg ha, if_neg hd,
      if_neg h9, if_pos hlow]
    exact hread
  · rw [escapeByte, if_neg hquote, if_neg hback, if_neg h8, if_neg hc, if_neg ha, if_neg hd,
      if_neg h9, if_neg hlow]
    exact readString_raw hquote hback hlow rest

theorem readString_escaped (s rest : Bytes) :
    readString (s.flatMap escapeByte ++ quote :: rest) = some (s, rest) :=
  readString_flatMap readString_escapeByte s rest

private theorem ascii_of_lt {b : UInt8} (h : Utf8.Ascii b) : ∀ c ∈ escapeByte b, Utf8.Ascii c := by
  have htable : ∀ n < 128, (escapeByte (UInt8.ofNat n)).all (· < 0x80) = true := by decide
  have hb := htable b.toNat (UInt8.lt_iff_toNat_lt.mp h)
  rw [UInt8.ofNat_toNat, List.all_eq_true] at hb
  intro c hc
  exact of_decide_eq_true (hb c hc)

theorem escapeByte_ne_nil (b : UInt8) : escapeByte b ≠ [] := by
  intro h
  have hread := readString_escapeByte b [quote]
  rw [h, List.nil_append, readString_quote] at hread
  simp [prepend] at hread

/-- An escape moves a UTF-8 check as the byte it stands for. -/
theorem run_escapeByte (st : Utf8.State) (b : UInt8) :
    Utf8.run st (escapeByte b) = Utf8.step st b := by
  by_cases hb : Utf8.Ascii b
  · exact Utf8.run_ascii_eq_step hb (ascii_of_lt hb) (escapeByte_ne_nil b) st
  · have hraw : escapeByte b = [b] := by
      have hne : ∀ c : UInt8, Utf8.Ascii c → b ≠ c := fun c hc heq => hb (heq ▸ hc)
      have hlow : ¬ b < 0x20 := fun h => hb (UInt8.lt_trans h (by decide))
      rw [escapeByte, if_neg (hne _ (by decide)), if_neg (hne _ (by decide)),
        if_neg (hne _ (by decide)), if_neg (hne _ (by decide)), if_neg (hne _ (by decide)),
        if_neg (hne _ (by decide)), if_neg (hne _ (by decide)), if_neg hlow]
    rw [hraw, Utf8.run_cons, Utf8.run_nil]

theorem valid_escapeString (s rest : Bytes) :
    Utf8.Valid (escapeString s ++ rest) ↔ Utf8.Valid s ∧ Utf8.Valid rest := by
  rw [escapeString, List.cons_append, Utf8.valid_ascii_cons (by decide), List.append_assoc,
    List.cons_append, List.nil_append, Utf8.valid_append_ascii_cons (by decide),
    Utf8.valid_flatMap run_escapeByte]

theorem readValue_escapeString (s rest : Bytes) (fuel : Nat) :
    readValue (fuel + 1) (escapeString s ++ rest) = some (.string s, rest) := by
  rw [escapeString, List.cons_append, List.append_assoc]
  exact readValue_string (readString_escaped s rest) fuel

/-! ## Numbers -/

variable {F : Type} {T : DoubleText F}

theorem integerToken_isSome (n : Int) : (numberKind (integerToken n)).isSome = true := by
  rw [numberKind_integerToken]
  rfl

theorem numberValue_integerToken (n : Int64) :
    numberValue T (integerToken n.toInt) = some (.int n) := by
  have hlow : -2 ^ 63 ≤ n.toInt := n.le_toInt
  have hhigh : n.toInt < 2 ^ 63 := n.toInt_lt
  simp only [numberValue, numberKind_integerToken, integerValue_integerToken]
  rw [if_pos ⟨hlow, hhigh⟩, Int64.ofInt_toInt]

theorem nonFiniteText_tagged {d : Double F} (h : ∀ f, d ≠ .finite f) :
    nonFiniteText d .tagged = escapeString (nonFiniteTag :: nonFiniteName d) := by
  cases d with
  | finite f => exact absurd rfl (h f)
  | nan => rfl
  | infinity negative =>
      cases negative with
      | false => rfl
      | true => rfl

variable [DecidableEq F]

/-- The loop ends with a text that reads back, at the latest with seventeen digits. -/
theorem tryPrecisions_reads (hT : T.Lawful) (f : F) :
    ∃ prec ∈ [15, 16, 17], tryPrecisions T f [15, 16, 17] [] = T.snprintf prec f ∧
      T.strtod (T.snprintf prec f) = some f := by
  simp only [tryPrecisions]
  split
  case isTrue h => exact ⟨15, by decide, rfl, h.2.2⟩
  case isFalse =>
    split
    case isTrue h => exact ⟨16, by decide, rfl, h.2.2⟩
    case isFalse => exact ⟨17, by decide, by split <;> rfl, hT.strtod_snprintf f⟩

/-- The text of a finite double keeps its kind and its value. -/
theorem numberText_spec (hT : T.Lawful) (f : F) :
    numberKind (numberText T true f) = some .fractional ∧
      T.strtod (numberText T true f) = some f := by
  rw [numberText]
  cases hcast : T.castInt64 f with
  | some n =>
      simp only [Bool.true_and, if_pos]
      split
      case isTrue hzero =>
        rw [Bool.and_eq_true, beq_iff_eq] at hzero
        obtain ⟨rfl, hsign⟩ := hzero
        exact ⟨rfl, hT.strtod_negativeZero f hcast hsign⟩
      case isFalse hzero =>
        refine ⟨numberKind_integerToken_fraction _, hT.strtod_fraction f n hcast ?_⟩
        rw [Bool.and_eq_true, beq_iff_eq, not_and_or, Bool.not_eq_true] at hzero
        exact hzero
  | none =>
      obtain ⟨prec, hprec, htext, hread⟩ := tryPrecisions_reads hT f
      simp only [htext]
      refine ⟨?_, hread⟩
      have htoken := hT.snprintf_token prec hprec f
      cases hkind : numberKind (T.snprintf prec f) with
      | none =>
          rw [hkind] at htoken
          simp at htoken
      | some kind =>
          cases kind with
          | fractional => rfl
          | integer =>
              -- a bare integer of so few digits would read back as an integral double
              have hint :=
                hT.strtod_integer _ f hkind (hT.snprintf_integer prec hprec f hkind) hread
              rw [hcast] at hint
              simp at hint

theorem numberText_isSome (hT : T.Lawful) (f : F) :
    (numberKind (numberText T true f)).isSome = true := by
  rw [(numberText_spec hT f).1]
  rfl

theorem numberValue_numberText (hT : T.Lawful) (f : F) :
    numberValue T (numberText T true f) = some (.number (.finite f)) := by
  obtain ⟨hkind, hread⟩ := numberText_spec hT f
  simp only [numberValue, hkind, hread, Option.map_some]

/-! ## The document of a value -/

mutual

/-- What the parser sees of a value: doubles JSON has no token for are tagged strings. -/
def toElement (T : DoubleText F) : JsonValue F → Element
  | .null => .null
  | .bool b => .bool b
  | .string s => .string s
  | .int n => .number (integerToken n.toInt)
  | .number (.finite f) => .number (numberText T true f)
  | .number d => .string (nonFiniteTag :: nonFiniteName d)
  | .array items => .array (toElements T items)
  | .object members => .object (toMembers T members)
termination_by structural v => v

def toElements (T : DoubleText F) : List (JsonValue F) → List Element
  | [] => []
  | item :: items => toElement T item :: toElements T items
termination_by structural items => items

def toMembers (T : DoubleText F) : List (Bytes × JsonValue F) → List (Bytes × Element)
  | [] => []
  | (key, value) :: members => (key, toElement T value) :: toMembers T members
termination_by structural members => members

end

theorem serialize_nonFinite {d : Double F} (h : ∀ f, d ≠ .finite f) :
    serializeKindPreserving T (.number d) = escapeString (nonFiniteTag :: nonFiniteName d) := by
  rw [← nonFiniteText_tagged h]
  cases d with
  | finite f => exact absurd rfl (h f)
  | nan => rfl
  | infinity negative => rfl

theorem toElement_nonFinite {d : Double F} (h : ∀ f, d ≠ .finite f) :
    toElement T (.number d) = .string (nonFiniteTag :: nonFiniteName d) := by
  cases d with
  | finite f => exact absurd rfl (h f)
  | nan => rfl
  | infinity negative => rfl

theorem starts_escapeString (s : Bytes) : Starts (escapeString s) :=
  starts_cons (by decide) (by decide) _

theorem starts_serialize (hT : T.Lawful) (v : JsonValue F) :
    Starts (serializeKindPreserving T v) := by
  cases v with
  | null => exact starts_cons (by decide) (by decide) _
  | bool b =>
      cases b with
      | false => exact starts_cons (by decide) (by decide) _
      | true => exact starts_cons (by decide) (by decide) _
  | number d =>
      by_cases hd : ∃ f, d = .finite f
      · obtain ⟨f, rfl⟩ := hd
        exact starts_token (numberText_isSome hT f)
      · rw [serialize_nonFinite fun f hf => hd ⟨f, hf⟩]
        exact starts_escapeString _
  | string s => exact starts_escapeString s
  | array items => exact starts_cons (by decide) (by decide) _
  | object members => exact starts_cons (by decide) (by decide) _
  | int n => exact starts_token (integerToken_isSome n.toInt)

theorem serialize_length_pos (hT : T.Lawful) (v : JsonValue F) :
    0 < (serializeKindPreserving T v).length := by
  obtain ⟨b, more, htext, -, -⟩ := starts_serialize hT v
  rw [htext]
  exact Nat.succ_pos _

/-- The items of an array with the bracket behind them. -/
def itemsText (T : DoubleText F) (items : List (JsonValue F)) : Bytes :=
  serializeItems T true .tagged items ++ [closeBracket]

theorem itemsText_singleton (item : JsonValue F) :
    itemsText T [item] = serializeKindPreserving T item ++ [closeBracket] := by
  simp [itemsText, serializeItems, serializeKindPreserving]

theorem itemsText_cons (item next : JsonValue F) (items : List (JsonValue F)) :
    itemsText T (item :: next :: items)
      = serializeKindPreserving T item ++ comma :: itemsText T (next :: items) := by
  simp [itemsText, serializeItems, serializeKindPreserving]

/-- The members of an object with the brace behind them. -/
def membersText (T : DoubleText F) (members : List (Bytes × JsonValue F)) : Bytes :=
  serializeMembers T true .tagged members ++ [closeBrace]

theorem membersText_singleton (key : Bytes) (value : JsonValue F) :
    membersText T [(key, value)]
      = escapeString key ++ colon :: (serializeKindPreserving T value ++ [closeBrace]) := by
  simp [membersText, serializeMembers, serializeKindPreserving]

theorem membersText_cons (key : Bytes) (value : JsonValue F) (next : Bytes × JsonValue F)
    (members : List (Bytes × JsonValue F)) :
    membersText T ((key, value) :: next :: members)
      = escapeString key ++ colon :: (serializeKindPreserving T value ++ comma ::
          membersText T (next :: members)) := by
  simp [membersText, serializeMembers, serializeKindPreserving]

/-! ## Reading the text back -/

mutual

/-- The text of a value, with any text behind it that does not go on a number, is read as
the document of the value.  The fuel is what the text has bytes. -/
theorem readValue_serialize (hT : T.Lawful) (v : JsonValue F) {rest : Bytes} (hrest : Ends rest)
    {fuel : Nat} (hfuel : (serializeKindPreserving T v).length ≤ fuel) :
    readValue fuel (serializeKindPreserving T v ++ rest) = some (toElement T v, rest) := by
  obtain ⟨fuel, rfl⟩ : ∃ n, fuel = n + 1 :=
    Nat.exists_eq_succ_of_ne_zero (by have := serialize_length_pos hT v; omega)
  cases v with
  | null => exact readValue_null rest fuel
  | bool b =>
      cases b with
      | false => exact readValue_false rest fuel
      | true => exact readValue_true rest fuel
  | number d =>
      by_cases hd : ∃ f, d = .finite f
      · obtain ⟨f, rfl⟩ := hd
        exact readValue_number (numberText_isSome hT f) hrest fuel
      · have hnot : ∀ f, d ≠ .finite f := fun f hf => hd ⟨f, hf⟩
        rw [serialize_nonFinite hnot, toElement_nonFinite hnot]
        exact readValue_escapeString _ rest fuel
  | string s => exact readValue_escapeString s rest fuel
  | int n => exact readValue_number (integerToken_isSome n.toInt) hrest fuel
  | array items =>
      have htext : serializeKindPreserving T (.array items) = openBracket :: itemsText T items :=
        rfl
      rw [htext] at hfuel ⊢
      cases items with
      | nil => exact readValue_array_nil rest fuel
      | cons item items =>
          refine readValue_array ?_ (readItems_itemsText hT (item :: items) (by simp) rest ?_)
          · cases items with
            | nil =>
                rw [itemsText_singleton]
                exact ((starts_serialize hT item).append _).append rest
            | cons next items =>
                rw [itemsText_cons]
                exact ((starts_serialize hT item).append _).append rest
          · rw [List.length_cons] at hfuel
            omega
  | object members =>
      have htext :
          serializeKindPreserving T (.object members) = openBrace :: membersText T members := rfl
      rw [htext] at hfuel ⊢
      match members with
      | [] => exact readValue_object_nil rest fuel
      | (key, value) :: members =>
          have hlength : (membersText T ((key, value) :: members)).length ≤ fuel := by
            rw [List.length_cons] at hfuel
            omega
          have hread := readMembers_membersText hT ((key, value) :: members) (by simp) rest hlength
          cases members with
          | nil =>
              rw [membersText_singleton] at hread ⊢
              exact readValue_object hread
          | cons next members =>
              rw [membersText_cons] at hread ⊢
              exact readValue_object hread
termination_by structural v

theorem readItems_itemsText (hT : T.Lawful) (items : List (JsonValue F)) (hne : items ≠ [])
    (rest : Bytes) {fuel : Nat} (hfuel : (itemsText T items).length ≤ fuel) :
    readItems fuel (itemsText T items ++ rest) = some (toElements T items, rest) := by
  match items with
  | [] => exact absurd rfl hne
  | [item] =>
      rw [itemsText_singleton, List.length_append, List.length_singleton] at hfuel
      obtain ⟨fuel, rfl⟩ : ∃ n, fuel = n + 1 := Nat.exists_eq_succ_of_ne_zero (by omega)
      rw [itemsText_singleton, List.append_assoc]
      exact readItems_last (readValue_serialize hT item (ends_cons (by decide) rest) (by omega))
  | item :: next :: items =>
      rw [itemsText_cons, List.length_append, List.length_cons] at hfuel
      obtain ⟨fuel, rfl⟩ : ∃ n, fuel = n + 1 := Nat.exists_eq_succ_of_ne_zero (by omega)
      rw [itemsText_cons, List.append_assoc, List.cons_append]
      exact readItems_more (readValue_serialize hT item (ends_cons (by decide) _) (by omega))
        (readItems_itemsText hT (next :: items) (by simp) rest (by omega))
termination_by structural items

theorem readMembers_membersText (hT : T.Lawful) (members : List (Bytes × JsonValue F))
    (hne : members ≠ []) (rest : Bytes) {fuel : Nat}
    (hfuel : (membersText T members).length ≤ fuel) :
    readMembers fuel (membersText T members ++ rest) = some (toMembers T members, rest) := by
  match members with
  | [] => exact absurd rfl hne
  | [(key, value)] =>
      rw [membersText_singleton, List.length_append, List.length_cons, List.length_append,
        List.length_singleton] at hfuel
      obtain ⟨fuel, rfl⟩ : ∃ n, fuel = n + 1 := Nat.exists_eq_succ_of_ne_zero (by omega)
      rw [membersText_singleton, escapeString, List.cons_append, List.cons_append]
      refine readMembers_last ?_
        (readValue_serialize hT value (ends_cons (by decide) rest) (by omega))
      simpa using readString_escaped key _
  | (key, value) :: next :: members =>
      rw [membersText_cons, List.length_append, List.length_cons, List.length_append,
        List.length_cons] at hfuel
      obtain ⟨fuel, rfl⟩ : ∃ n, fuel = n + 1 := Nat.exists_eq_succ_of_ne_zero (by omega)
      rw [membersText_cons, escapeString, List.cons_append, List.cons_append]
      refine readMembers_more ?_
        (readValue_serialize hT value (ends_cons (by decide) _) (by omega))
        (readMembers_membersText hT (next :: members) (by simp) rest (by omega))
      simpa using readString_escaped key _
termination_by structural members

end

/-! ## Texts that are UTF-8 -/

mutual

/-- Every string of the value is UTF-8, keys included. -/
def IsText : JsonValue F → Prop
  | .string s => Utf8.Valid s
  | .array items => AllText items
  | .object members => MembersText members
  | .null | .bool _ | .number _ | .int _ => True
termination_by structural v => v

def AllText : List (JsonValue F) → Prop
  | [] => True
  | item :: items => IsText item ∧ AllText items
termination_by structural items => items

def MembersText : List (Bytes × JsonValue F) → Prop
  | [] => True
  | (key, value) :: members => Utf8.Valid key ∧ IsText value ∧ MembersText members
termination_by structural members => members

end

theorem ascii_token {token : Bytes} (h : (numberKind token).isSome = true) :
    ∀ b ∈ token, Utf8.Ascii b := by
  intro b hb
  have hnumber := isNumberByte_of_mem_token h hb
  simp only [isNumberByte, isDigit, Bool.or_eq_true, Bool.and_eq_true, decide_eq_true_eq,
    beq_iff_eq] at hnumber
  obtain (((((⟨-, hb⟩ | rfl) | rfl) | rfl) | rfl) | rfl) := hnumber
  · exact UInt8.lt_of_le_of_lt hb (by decide)
  all_goals decide

mutual

/-- The text of a value is UTF-8 exactly when all its strings are, whatever follows it. -/
theorem valid_serialize (hT : T.Lawful) (v : JsonValue F) (rest : Bytes) :
    Utf8.Valid (serializeKindPreserving T v ++ rest) ↔ IsText v ∧ Utf8.Valid rest := by
  cases v with
  | null =>
      rw [IsText, true_and]
      exact Utf8.valid_append (show Utf8.Valid (ascii "null") from rfl) rest
  | bool b =>
      rw [IsText, true_and]
      cases b with
      | false => exact Utf8.valid_append (show Utf8.Valid (ascii "false") from rfl) rest
      | true => exact Utf8.valid_append (show Utf8.Valid (ascii "true") from rfl) rest
  | number d =>
      rw [IsText, true_and]
      by_cases hd : ∃ f, d = .finite f
      · obtain ⟨f, rfl⟩ := hd
        exact Utf8.valid_ascii_append (ascii_token (numberText_isSome hT f)) rest
      · rw [serialize_nonFinite fun f hf => hd ⟨f, hf⟩, valid_escapeString, and_iff_right]
        cases d with
        | finite f => exact absurd ⟨f, rfl⟩ hd
        | nan => rfl
        | infinity negative =>
            cases negative with
            | false => rfl
            | true => rfl
  | string s => exact valid_escapeString s rest
  | int n =>
      rw [IsText, true_and]
      exact Utf8.valid_ascii_append (ascii_token (integerToken_isSome n.toInt)) rest
  | array items =>
      have htext : serializeKindPreserving T (.array items) = openBracket :: itemsText T items :=
        rfl
      rw [htext, List.cons_append, Utf8.valid_ascii_cons (by decide), IsText]
      exact valid_itemsText hT items rest
  | object members =>
      have htext :
          serializeKindPreserving T (.object members) = openBrace :: membersText T members := rfl
      rw [htext, List.cons_append, Utf8.valid_ascii_cons (by decide), IsText]
      exact valid_membersText hT members rest
termination_by structural v

theorem valid_itemsText (hT : T.Lawful) (items : List (JsonValue F)) (rest : Bytes) :
    Utf8.Valid (itemsText T items ++ rest) ↔ AllText items ∧ Utf8.Valid rest := by
  match items with
  | [] =>
      rw [AllText, true_and]
      exact Utf8.valid_ascii_cons (by decide) rest
  | [item] =>
      rw [itemsText_singleton, List.append_assoc, valid_serialize hT item, AllText, AllText,
        and_true]
      exact and_congr_right fun _ => Utf8.valid_ascii_cons (by decide) rest
  | item :: next :: items =>
      have hall : AllText (item :: next :: items) ↔ IsText item ∧ AllText (next :: items) :=
        Iff.rfl
      rw [itemsText_cons, List.append_assoc, valid_serialize hT item, List.cons_append,
        Utf8.valid_ascii_cons (by decide), valid_itemsText hT (next :: items) rest, hall, and_assoc]
termination_by structural items

theorem valid_membersText (hT : T.Lawful) (members : List (Bytes × JsonValue F)) (rest : Bytes) :
    Utf8.Valid (membersText T members ++ rest) ↔ MembersText members ∧ Utf8.Valid rest := by
  match members with
  | [] =>
      rw [MembersText, true_and]
      exact Utf8.valid_ascii_cons (by decide) rest
  | [(key, value)] =>
      rw [membersText_singleton, List.append_assoc, valid_escapeString, List.cons_append,
        Utf8.valid_ascii_cons (by decide), List.append_assoc, valid_serialize hT value,
        MembersText, MembersText, and_true, and_assoc]
      exact and_congr_right fun _ => and_congr_right fun _ => Utf8.valid_ascii_cons (by decide) rest
  | (key, value) :: next :: members =>
      have hall : MembersText ((key, value) :: next :: members) ↔
          Utf8.Valid key ∧ IsText value ∧ MembersText (next :: members) := Iff.rfl
      rw [membersText_cons, List.append_assoc, valid_escapeString, List.cons_append,
        Utf8.valid_ascii_cons (by decide), List.append_assoc, valid_serialize hT value,
        List.cons_append, Utf8.valid_ascii_cons (by decide),
        valid_membersText hT (next :: members) rest, hall, and_assoc, and_assoc]
termination_by structural members

end

/-! ## Tags -/

section Tags

variable {F : Type} {T : DoubleText F}

/-- A string that is read as a double. -/
def IsTag (s : Bytes) : Prop :=
  s = nonFiniteTag :: ascii "NaN" ∨ s = nonFiniteTag :: ascii "Infinity" ∨
    s = nonFiniteTag :: ascii "-Infinity"

theorem taggedNonFinite_none {s : Bytes} (h : ¬ IsTag s) :
    (taggedNonFinite s : Option (Double F)) = none := by
  cases s with
  | nil => rfl
  | cons b s =>
      rw [taggedNonFinite]
      split
      case isTrue => rfl
      case isFalse hfront =>
        have hb : b = nonFiniteTag := by
          rw [not_or, not_not, List.head?_cons, Option.some.injEq] at hfront
          exact hfront.2
        rw [hb] at h
        rw [if_neg, if_neg, if_neg]
        · exact fun hs => h (.inr (.inr (congrArg _ hs)))
        · exact fun hs => h (.inr (.inl (congrArg _ hs)))
        · exact fun hs => h (.inl (congrArg _ hs))

theorem taggedNonFinite_isTag {s : Bytes} (h : IsTag s) :
    ∃ d : Double F, taggedNonFinite s = some d := by
  obtain rfl | rfl | rfl := h
  · exact ⟨.nan, rfl⟩
  · exact ⟨.infinity false, rfl⟩
  · exact ⟨.infinity true, rfl⟩

/-- A tag is read as the double it was written for. -/
theorem taggedNonFinite_name {d : Double F} (h : ∀ f, d ≠ .finite f) :
    taggedNonFinite (nonFiniteTag :: nonFiniteName d) = some d := by
  cases d with
  | finite f => exact absurd rfl (h f)
  | nan => rfl
  | infinity negative =>
      cases negative with
      | false => rfl
      | true => rfl

mutual

/-- No string value is a tag.  Keys are never read as anything but keys. -/
def Untagged : JsonValue F → Prop
  | .string s => ¬ IsTag s
  | .array items => AllUntagged items
  | .object members => MembersUntagged members
  | .null | .bool _ | .number _ | .int _ => True
termination_by structural v => v

def AllUntagged : List (JsonValue F) → Prop
  | [] => True
  | item :: items => Untagged item ∧ AllUntagged items
termination_by structural items => items

def MembersUntagged : List (Bytes × JsonValue F) → Prop
  | [] => True
  | (_, value) :: members => Untagged value ∧ MembersUntagged members
termination_by structural members => members

end

mutual

/-- The value with every tag taken for the double it tags. -/
def untag : JsonValue F → JsonValue F
  | .string s =>
      match taggedNonFinite s with
      | some d => .number d
      | none => .string s
  | .array items => .array (untagItems items)
  | .object members => .object (untagMembers members)
  | .null => .null
  | .bool b => .bool b
  | .number d => .number d
  | .int n => .int n
termination_by structural v => v

def untagItems : List (JsonValue F) → List (JsonValue F)
  | [] => []
  | item :: items => untag item :: untagItems items
termination_by structural items => items

def untagMembers : List (Bytes × JsonValue F) → List (Bytes × JsonValue F)
  | [] => []
  | (key, value) :: members => (key, untag value) :: untagMembers members
termination_by structural members => members

end

mutual

theorem untag_eq_self_iff (v : JsonValue F) : untag v = v ↔ Untagged v := by
  cases v with
  | null => exact iff_of_true rfl trivial
  | bool b => exact iff_of_true rfl trivial
  | number d => exact iff_of_true rfl trivial
  | int n => exact iff_of_true rfl trivial
  | string s =>
      rw [untag, Untagged]
      by_cases hs : IsTag s
      · obtain ⟨d, hd⟩ : ∃ d : Double F, taggedNonFinite s = some d := taggedNonFinite_isTag hs
        simp [hd, hs]
      · have hnone : (taggedNonFinite s : Option (Double F)) = none := taggedNonFinite_none hs
        simp [hnone, hs]
  | array items =>
      rw [untag, Untagged, JsonValue.array.injEq]
      exact untagItems_eq_self_iff items
  | object members =>
      rw [untag, Untagged, JsonValue.object.injEq]
      exact untagMembers_eq_self_iff members

theorem untagItems_eq_self_iff (items : List (JsonValue F)) :
    untagItems items = items ↔ AllUntagged items := by
  match items with
  | [] => exact iff_of_true rfl trivial
  | item :: items =>
      rw [untagItems, AllUntagged, List.cons.injEq, untag_eq_self_iff item,
        untagItems_eq_self_iff items]

theorem untagMembers_eq_self_iff (members : List (Bytes × JsonValue F)) :
    untagMembers members = members ↔ MembersUntagged members := by
  match members with
  | [] => exact iff_of_true rfl trivial
  | (key, value) :: members =>
      rw [untagMembers, MembersUntagged, List.cons.injEq, Prod.mk.injEq, eq_self_iff_true, true_and,
        untag_eq_self_iff value, untagMembers_eq_self_iff members]

end

theorem map_fst_untagMembers (members : List (Bytes × JsonValue F)) :
    (untagMembers members).map Prod.fst = members.map Prod.fst := by
  induction members with
  | nil => rfl
  | cons m members ih =>
      obtain ⟨key, value⟩ := m
      rw [untagMembers, List.map_cons, List.map_cons, ih]

theorem sortedUnique_untagMembers {members : List (Bytes × JsonValue F)}
    (h : SortedUnique members) : SortedUnique (untagMembers members) := by
  rw [SortedUnique, map_fst_untagMembers]
  exact h

end Tags

/-! ## Rows through the codec -/

mutual

/-- What `from_dom` makes of the document of a value: the value, its tags read as doubles. -/
theorem fromDom_toElement (hT : T.Lawful) (v : JsonValue F) (hv : WellFormed v) :
    fromDom T (toElement T v) = some (untag v) := by
  cases v with
  | null => rfl
  | bool b => rfl
  | number d =>
      by_cases hd : ∃ f, d = .finite f
      · obtain ⟨f, rfl⟩ := hd
        exact numberValue_numberText hT f
      · have hnot : ∀ f, d ≠ .finite f := fun f hf => hd ⟨f, hf⟩
        rw [toElement_nonFinite hnot, fromDom, taggedNonFinite_name hnot, untag]
  | int n => exact numberValue_integerToken n
  | string s =>
      rw [toElement, fromDom, untag]
      cases (taggedNonFinite s : Option (Double F)) with
      | none => rfl
      | some d => rfl
  | array items =>
      rw [toElement, fromDom, fromDomItems_toElements hT items hv, Option.map_some, untag]
  | object members =>
      rw [toElement, fromDom, fromDomMembers_toMembers hT members hv.2, Option.map_some, untag,
        fromEntries_of_sortedUnique (sortedUnique_untagMembers hv.1)]

theorem fromDomItems_toElements (hT : T.Lawful) (items : List (JsonValue F))
    (h : WellFormedItems items) :
    fromDomItems T (toElements T items) = some (untagItems items) := by
  match items with
  | [] => rfl
  | item :: items =>
      rw [toElements, fromDomItems, fromDom_toElement hT item h.1,
        fromDomItems_toElements hT items h.2, untagItems]

theorem fromDomMembers_toMembers (hT : T.Lawful) (members : List (Bytes × JsonValue F))
    (h : WellFormedMembers members) :
    fromDomMembers T (toMembers T members) = some (untagMembers members) := by
  match members with
  | [] => rfl
  | (key, value) :: members =>
      rw [toMembers, fromDomMembers, fromDom_toElement hT value h.1,
        fromDomMembers_toMembers hT members h.2, untagMembers]

end

/-- The text of a row is read as the row with its tags read as doubles, if it is UTF-8. -/
theorem parseObject_encode (hT : T.Lawful) (r : Row F) :
    parseObject T (encode T r)
      = if Utf8.Valid (encode T r) then some (untagMembers r.values) else none := by
  have hobject : toJsonObject r.values = r.values := fromEntries_of_sortedUnique r.sorted
  by_cases hvalid : Utf8.Valid (encode T r)
  · have hread := readValue_serialize hT (.object (toJsonObject r.values)) ends_nil
      (Nat.le_succ _)
    rw [List.append_nil] at hread
    have hparse : parse (encode T r) = some (.object (toMembers T r.values)) := by
      rw [parse_of_readValue hvalid hread, toElement, hobject]
    rw [if_pos hvalid, parseObject, hparse]
    simp only [fromDomMembers_toMembers hT r.values r.wellFormed, Option.map_some,
      fromEntries_of_sortedUnique (sortedUnique_untagMembers r.sorted)]
  · rw [if_neg hvalid, parseObject, parse_eq_none hvalid]

theorem valid_encode (hT : T.Lawful) (r : Row F) :
    Utf8.Valid (encode T r) ↔ MembersText r.values := by
  have hobject : toJsonObject r.values = r.values := fromEntries_of_sortedUnique r.sorted
  have hvalid := valid_serialize hT (.object (toJsonObject r.values)) []
  rw [List.append_nil, IsText, hobject, and_iff_left Utf8.valid_nil] at hvalid
  rw [encode, hobject]
  exact hvalid

/-- A row is read back as it was written exactly when its strings and keys are UTF-8 and
no string value is a tag.  Equality is that of the trees, so it keeps the kind of every
number, the sign of a zero and the infinities. -/
theorem row_survives_iff (hT : T.Lawful) (r : Row F) :
    decode T (encode T r) = some r ↔ MembersText r.values ∧ MembersUntagged r.values := by
  rw [decode_eq_some_iff, parseObject_encode hT]
  by_cases htext : MembersText r.values
  · have hcolumns : rowColumnsFromJson (untagMembers r.values) = untagMembers r.values :=
      fromEntries_of_sortedUnique (sortedUnique_untagMembers r.sorted)
    rw [if_pos ((valid_encode hT r).mpr htext), and_iff_right htext, ← untagMembers_eq_self_iff]
    constructor
    · rintro ⟨obj, hobj, hvalues⟩
      rw [← Option.some.inj hobj, hcolumns] at hvalues
      exact hvalues
    · intro hvalues
      exact ⟨_, rfl, hcolumns.trans hvalues⟩
  · rw [if_neg fun hvalid => htext ((valid_encode hT r).mp hvalid)]
    simp [htext]

/-! ## Three doubles -/

/-- The two zeros and a half. -/
inductive Sample where
  | zero
  | negativeZero
  | half
  deriving DecidableEq, Repr

namespace Sample

def castInt64 : Sample → Option Int64
  | .zero | .negativeZero => some 0
  | .half => none

def snprintf : Sample → Bytes
  | .zero => ascii "0"
  | .negativeZero => ascii "-0"
  | .half => ascii "0.5"

def strtod (text : Bytes) : Option Sample :=
  if text = ascii "0" ∨ text = ascii "0.0" then some .zero
  else if text = ascii "-0" ∨ text = ascii "-0.0" then some .negativeZero
  else if text = ascii "0.5" then some .half
  else none

def text : DoubleText Sample where
  castInt64 := castInt64
  signbit f := f == .negativeZero
  snprintf _ := snprintf
  strtod := strtod
  ofUInt64 _ := .zero

theorem text_lawful : text.Lawful where
  snprintf_token _ _ f := by cases f <;> rfl
  snprintf_integer _ _ f _ := by
    cases f with
    | zero => exact (by decide : (ascii "0").length ≤ 18)
    | negativeZero => exact (by decide : (ascii "-0").length ≤ 18)
    | half => exact (by decide : (ascii "0.5").length ≤ 18)
  strtod_snprintf f := by cases f <;> decide
  strtod_integer t f hkind _ hread := by
    cases f with
    | zero => rfl
    | negativeZero => rfl
    | half =>
        have ht : t = ascii "0.5" := by
          simp only [text, strtod] at hread
          split at hread
          · simp at hread
          · split at hread
            · simp at hread
            · split at hread
              · assumption
              · simp at hread
        rw [ht] at hkind
        exact absurd hkind (by decide)
  strtod_fraction f n hcast hsign := by
    cases f with
    | zero =>
        obtain rfl : (0 : Int64) = n := Option.some.inj hcast
        decide
    | negativeZero =>
        obtain rfl : (0 : Int64) = n := Option.some.inj hcast
        simp [text] at hsign
    | half => simp [text, castInt64] at hcast
  strtod_negativeZero f hcast hsign := by
    cases f with
    | zero => simp [text] at hsign
    | negativeZero => decide
    | half => simp [text] at hsign

/-- A row of one column. -/
def column (v : JsonValue Sample) (h : WellFormed v) : Row Sample where
  values := [(ascii "a", v)]
  sorted := List.isChain_singleton _
  wellFormed := ⟨h, trivial⟩

end Sample

/-- One value of each kind, a character of two bytes and a tagged decimal among them. -/
def mixedValue : JsonValue Sample :=
  .array [.null, .bool true, .int (-5), .number (.finite .zero), .number (.finite .negativeZero),
    .number (.finite .half), .number .nan, .number (.infinity true), .string [0xC3, 0xA9, 0x0A],
    .object [(ascii "k", .string (0x01 :: ascii "123.45")), (ascii "l", .array [])]]

theorem mixedValue_wellFormed : WellFormed mixedValue := by
  simp only [mixedValue, WellFormed, WellFormedItems, WellFormedMembers, and_true, true_and]
  decide

theorem mixed_row_survives :
    decode Sample.text (encode Sample.text (Sample.column mixedValue mixedValue_wellFormed))
      = some (Sample.column mixedValue mixedValue_wellFormed) := by
  refine (row_survives_iff Sample.text_lawful _).mpr ⟨?_, ?_⟩
  · simp only [Sample.column, mixedValue, MembersText, IsText, AllText, and_true, true_and]
    decide
  · simp only [Sample.column, mixedValue, MembersUntagged, Untagged, AllUntagged, IsTag, and_true,
      true_and]
    decide

/-- Half of a character, as a byte-wise `SUBSTRING` cuts one, loses the row; text that is a
tag comes back as a number. -/
theorem strings_lost_and_retyped :
    decode Sample.text (encode Sample.text (Sample.column (.string [0xC3]) trivial)) = none ∧
      decode Sample.text
          (encode Sample.text (Sample.column (.string (0x02 :: ascii "NaN")) trivial))
        = some (Sample.column (.number .nan) trivial) :=
  ⟨rfl, rfl⟩

end Clink.Ports.Json

import Clink.Ports.RowCodecExact

/-!
# Rows as text and as lines

The compact text `serialize(0)` of a row, which does not keep the kind of an
integral double, and the line a file sink writes of it: the `DECIMAL` columns
rescaled (`requantise_row_decimals` of `sql/row.hpp`) and the dec-strings unquoted
(`serialize_output` of `config/decimal.hpp`).  Arrow's decimals and the text of a
double in fixed notation are the functions of `DecimalText`.

The text is that of the row with its integral doubles made integers (`plain`), so
reading it gives that row, and rows of one text have one line.
-/

namespace Clink.Ports.Json

open Clink.Verified
open Clink.Verified.StrictJson

variable {F : Type}

/-! ## Integral doubles as integers -/

mutual

def plain (T : DoubleText F) : JsonValue F → JsonValue F
  | .null => .null
  | .bool b => .bool b
  | .string s => .string s
  | .int n => .int n
  | .number (.finite f) =>
      match T.castInt64 f with
      | some n => .int n
      | none => .number (.finite f)
  | .number d => .number d
  | .array items => .array (plainItems T items)
  | .object members => .object (plainMembers T members)
termination_by structural v => v

def plainItems (T : DoubleText F) : List (JsonValue F) → List (JsonValue F)
  | [] => []
  | item :: items => plain T item :: plainItems T items
termination_by structural items => items

def plainMembers (T : DoubleText F) : List (Bytes × JsonValue F) → List (Bytes × JsonValue F)
  | [] => []
  | (key, value) :: members => (key, plain T value) :: plainMembers T members
termination_by structural members => members

end

variable {T : DoubleText F}

theorem plain_number_finite (f : F) :
    plain T (.number (.finite f)) = (T.castInt64 f).elim (.number (.finite f)) .int := by
  rw [plain]
  cases T.castInt64 f with
  | none => rfl
  | some n => rfl

theorem map_fst_plainMembers (members : List (Bytes × JsonValue F)) :
    (plainMembers T members).map Prod.fst = members.map Prod.fst := by
  induction members with
  | nil => rfl
  | cons m members ih =>
      obtain ⟨key, value⟩ := m
      rw [plainMembers, List.map_cons, List.map_cons, ih]

theorem sortedUnique_plainMembers {members : List (Bytes × JsonValue F)}
    (h : SortedUnique members) : SortedUnique (plainMembers T members) := by
  rw [SortedUnique, map_fst_plainMembers]
  exact h

mutual

theorem wellFormed_plain (v : JsonValue F) (h : WellFormed v) : WellFormed (plain T v) := by
  match v with
  | .null => trivial
  | .bool _ => trivial
  | .string _ => trivial
  | .int _ => trivial
  | .number (.finite f) =>
      rw [plain_number_finite]
      cases T.castInt64 f with
      | none => trivial
      | some n => trivial
  | .number .nan => trivial
  | .number (.infinity _) => trivial
  | .array items => exact wellFormedItems_plainItems items h
  | .object members =>
      exact ⟨sortedUnique_plainMembers h.1, wellFormedMembers_plainMembers members h.2⟩

theorem wellFormedItems_plainItems (items : List (JsonValue F)) (h : WellFormedItems items) :
    WellFormedItems (plainItems T items) := by
  match items with
  | [] => trivial
  | item :: items => exact ⟨wellFormed_plain item h.1, wellFormedItems_plainItems items h.2⟩

theorem wellFormedMembers_plainMembers (members : List (Bytes × JsonValue F))
    (h : WellFormedMembers members) : WellFormedMembers (plainMembers T members) := by
  match members with
  | [] => trivial
  | (_, value) :: members =>
      exact ⟨wellFormed_plain value h.1, wellFormedMembers_plainMembers members h.2⟩

end

def plainRow (T : DoubleText F) (r : Row F) : Row F where
  values := plainMembers T r.values
  sorted := sortedUnique_plainMembers r.sorted
  wellFormed := wellFormedMembers_plainMembers r.values r.wellFormed

mutual

theorem plain_plain (v : JsonValue F) : plain T (plain T v) = plain T v := by
  match v with
  | .null => rfl
  | .bool _ => rfl
  | .string _ => rfl
  | .int _ => rfl
  | .number (.finite f) =>
      cases hcast : T.castInt64 f with
      | none => rw [plain_number_finite, hcast, Option.elim_none, plain_number_finite, hcast,
          Option.elim_none]
      | some n => rw [plain_number_finite, hcast, Option.elim_some, plain]
  | .number .nan => rfl
  | .number (.infinity _) => rfl
  | .array items => rw [plain, plain, plainItems_plainItems items]
  | .object members => rw [plain, plain, plainMembers_plainMembers members]

theorem plainItems_plainItems (items : List (JsonValue F)) :
    plainItems T (plainItems T items) = plainItems T items := by
  match items with
  | [] => rfl
  | item :: items => rw [plainItems, plainItems, plain_plain item, plainItems_plainItems items]

theorem plainMembers_plainMembers (members : List (Bytes × JsonValue F)) :
    plainMembers T (plainMembers T members) = plainMembers T members := by
  match members with
  | [] => rfl
  | (key, value) :: members =>
      rw [plainMembers, plainMembers, plain_plain value, plainMembers_plainMembers members]

end

mutual

theorem untagged_plain (v : JsonValue F) (h : Untagged v) : Untagged (plain T v) := by
  match v with
  | .null => trivial
  | .bool _ => trivial
  | .string _ => exact h
  | .int _ => trivial
  | .number (.finite f) =>
      rw [plain_number_finite]
      cases T.castInt64 f with
      | none => trivial
      | some n => trivial
  | .number .nan => trivial
  | .number (.infinity _) => trivial
  | .array items => exact allUntagged_plainItems items h
  | .object members => exact membersUntagged_plainMembers members h

theorem allUntagged_plainItems (items : List (JsonValue F)) (h : AllUntagged items) :
    AllUntagged (plainItems T items) := by
  match items with
  | [] => trivial
  | item :: items => exact ⟨untagged_plain item h.1, allUntagged_plainItems items h.2⟩

theorem membersUntagged_plainMembers (members : List (Bytes × JsonValue F))
    (h : MembersUntagged members) : MembersUntagged (plainMembers T members) := by
  match members with
  | [] => trivial
  | (_, value) :: members =>
      exact ⟨untagged_plain value h.1, membersUntagged_plainMembers members h.2⟩

end

theorem isEmpty_plainItems (items : List (JsonValue F)) :
    (plainItems T items).isEmpty = items.isEmpty := by
  cases items with
  | nil => rfl
  | cons item items => rfl

theorem isEmpty_plainMembers (members : List (Bytes × JsonValue F)) :
    (plainMembers T members).isEmpty = members.isEmpty := by
  cases members with
  | nil => rfl
  | cons m members => rfl

section Text

variable [DecidableEq F]

mutual

/-- The text without kinds is the text with them of the value whose integral doubles are
integers. -/
theorem serialize_plain (policy : NonFinite) (v : JsonValue F) :
    serialize T true policy (plain T v) = serialize T false policy v := by
  match v with
  | .null => rfl
  | .bool _ => rfl
  | .string _ => rfl
  | .int _ => rfl
  | .number (.finite f) =>
      rw [plain_number_finite, serialize, numberText]
      cases hcast : T.castInt64 f with
      | none =>
          rw [Option.elim_none, serialize, numberText, hcast]
      | some n =>
          rw [Option.elim_some, serialize]
          simp
  | .number .nan => rfl
  | .number (.infinity _) => rfl
  | .array items => rw [plain, serialize, serialize, serializeItems_plain policy items]
  | .object members => rw [plain, serialize, serialize, serializeMembers_plain policy members]

theorem serializeItems_plain (policy : NonFinite) (items : List (JsonValue F)) :
    serializeItems T true policy (plainItems T items) = serializeItems T false policy items := by
  match items with
  | [] => rfl
  | item :: items =>
      rw [plainItems, serializeItems, serializeItems, serialize_plain policy item,
        serializeItems_plain policy items, isEmpty_plainItems]

theorem serializeMembers_plain (policy : NonFinite) (members : List (Bytes × JsonValue F)) :
    serializeMembers T true policy (plainMembers T members)
      = serializeMembers T false policy members := by
  match members with
  | [] => rfl
  | (key, value) :: members =>
      rw [plainMembers, serializeMembers, serializeMembers, serialize_plain policy value,
        serializeMembers_plain policy members, isEmpty_plainMembers]

end

/-- `JsonValue{to_json_object(values)}.serialize(0)`. -/
def rowText (T : DoubleText F) (r : Row F) : Bytes :=
  serialize T false .tagged (.object (toJsonObject r.values))

theorem rowText_eq (r : Row F) : rowText T r = encode T (plainRow T r) := by
  have hobject : toJsonObject r.values = r.values := fromEntries_of_sortedUnique r.sorted
  have hplain : toJsonObject (plainRow T r).values = plainMembers T r.values :=
    fromEntries_of_sortedUnique (plainRow T r).sorted
  rw [rowText, encode, hobject, hplain, serializeKindPreserving, ← serialize_plain, plain]

theorem rowText_plainRow (r : Row F) : rowText T (plainRow T r) = rowText T r := by
  have htwice : plainRow T (plainRow T r) = plainRow T r :=
    Row.ext (plainMembers_plainMembers r.values)
  rw [rowText_eq, rowText_eq, htwice]

/-- What is read of a text is the row with its integral doubles made integers. -/
theorem decode_rowText (hT : T.Lawful) (r : Row F) (htags : MembersUntagged r.values) :
    decode T (rowText T r) = if Utf8.Valid (rowText T r) then some (plainRow T r) else none := by
  have hsame : untagMembers (plainRow T r).values = (plainRow T r).values :=
    (untagMembers_eq_self_iff _).mpr (membersUntagged_plainMembers r.values htags)
  have hparse := parseObject_encode hT (plainRow T r)
  rw [hsame, ← rowText_eq] at hparse
  by_cases hvalid : Utf8.Valid (rowText T r)
  · rw [if_pos hvalid] at hparse ⊢
    rw [decode_eq_some_iff]
    exact ⟨_, hparse, fromEntries_of_sortedUnique (plainRow T r).sorted⟩
  · rw [if_neg hvalid] at hparse ⊢
    rw [decode]
    split
    · rfl
    · rename_i obj hsome
      rw [hparse] at hsome
      exact absurd hsome (by simp)

theorem readValue_rowText (hT : T.Lawful) (r : Row F) :
    readValue (rowText T r).length (rowText T r)
      = some (.object (toMembers T (plainRow T r).values), []) := by
  have hobject : toJsonObject (plainRow T r).values = (plainRow T r).values :=
    fromEntries_of_sortedUnique (plainRow T r).sorted
  have hvalue := readValue_serialize hT (.object (plainRow T r).values) ends_nil (Nat.le_refl _)
  rw [List.append_nil, toElement] at hvalue
  rw [rowText_eq, encode, hobject]
  exact hvalue

theorem fromDomMembers_plainRow (hT : T.Lawful) {r : Row F}
    (htags : MembersUntagged r.values) :
    fromDomMembers T (toMembers T (plainRow T r).values) = some (plainRow T r).values := by
  have hsame : untagMembers (plainRow T r).values = (plainRow T r).values :=
    (untagMembers_eq_self_iff _).mpr (membersUntagged_plainMembers r.values htags)
  rw [fromDomMembers_toMembers hT _ (plainRow T r).wellFormed, hsame]

theorem plainRow_eq_of_rowText_eq (hT : T.Lawful) {r r' : Row F} (hr : MembersUntagged r.values)
    (hr' : MembersUntagged r'.values) (h : rowText T r = rowText T r') :
    plainRow T r = plainRow T r' := by
  have hread := readValue_rowText hT r
  rw [h, readValue_rowText hT r', Option.some.injEq, Prod.mk.injEq, Element.object.injEq] at hread
  have hvalues := fromDomMembers_plainRow hT hr
  rw [← hread.1, fromDomMembers_plainRow hT hr'] at hvalues
  exact Row.ext (Option.some.inj hvalues).symm

end Text

/-! ## Lines -/

/-- What the sink uses of decimals and of doubles in fixed notation. -/
structure DecimalText (F : Type) where
  Dec : Type
  /-- `static_cast<double>` of an integer. -/
  ofInt64 : Int64 → F
  /-- `double_to_fixed_text`. -/
  fixedText : Double F → Bytes
  /-- `dec_parse`. -/
  parse : Bytes → Option Dec
  /-- `dec_rescale`. -/
  rescale : Dec → Int → Option Dec
  /-- `dec_format`. -/
  format : Dec → Bytes

/-- An integral double is the integer it is cast to but for the sign of a zero, which a
decimal does not have. -/
def DecimalText.Lawful (D : DecimalText F) (T : DoubleText F) : Prop :=
  ∀ f n, T.castInt64 f = some n →
    D.parse (D.fixedText (.finite (D.ofInt64 n))) = D.parse (D.fixedText (.finite f))

/-- `row_decimal_for`; `as_decimal` of a dec-string is `dec_parse` of it. -/
def rowDecimalFor (D : DecimalText F) (v : JsonValue F) (scale : Int) : Option D.Dec :=
  let d :=
    match v with
    | .number d => D.parse (D.fixedText d)
    | .int n => D.parse (D.fixedText (.finite (D.ofInt64 n)))
    | .string s => D.parse s
    | _ => none
  d.bind fun d => D.rescale d scale

/-- `kDecimalSentinel`. -/
def decimalSentinel : UInt8 := 0x01

/-- `make_dec_value`. -/
def makeDecValue (D : DecimalText F) (d : D.Dec) : JsonValue F :=
  .string (decimalSentinel :: D.format d)

/-- The value of a column that is there. -/
def assign (column : Bytes) (v : JsonValue F) (values : List (Bytes × JsonValue F)) :
    List (Bytes × JsonValue F) :=
  values.map fun m => if m.1 = column then (m.1, v) else m

/-- One column of `requantise_row_decimals`. -/
def requantiseColumn (D : DecimalText F) (values : List (Bytes × JsonValue F))
    (column : Bytes × Int) : List (Bytes × JsonValue F) :=
  match values.lookup column.1 with
  | none => values
  | some .null => values
  | some v =>
      match rowDecimalFor D v column.2 with
      | some q => assign column.1 (makeDecValue D q) values
      | none => values

/-- `requantise_row_decimals`. -/
def requantiseRowDecimals (D : DecimalText F) (decimalScales : List (Bytes × Int))
    (values : List (Bytes × JsonValue F)) : List (Bytes × JsonValue F) :=
  decimalScales.foldl (requantiseColumn D) values

/-- `is_dec_string` of a string. -/
def isDecString (s : Bytes) : Bool := s.head? == some decimalSentinel

section Lines

variable [DecidableEq F]

mutual

/-- `serialize_output`. -/
def serializeOutput (T : DoubleText F) (policy : NonFinite) : JsonValue F → Bytes
  | .string s => if isDecString s then s.tail else serialize T false policy (.string s)
  | .array items => openBracket :: (outputItems T policy items ++ [closeBracket])
  | .object members => openBrace :: (outputMembers T policy members ++ [closeBrace])
  | .null => serialize T false policy .null
  | .bool b => serialize T false policy (.bool b)
  | .number d => serialize T false policy (.number d)
  | .int n => serialize T false policy (.int n)
termination_by structural v => v

def outputItems (T : DoubleText F) (policy : NonFinite) : List (JsonValue F) → Bytes
  | [] => []
  | item :: items =>
      serializeOutput T policy item ++ (if items.isEmpty then [] else [comma])
        ++ outputItems T policy items
termination_by structural items => items

def outputMembers (T : DoubleText F) (policy : NonFinite) : List (Bytes × JsonValue F) → Bytes
  | [] => []
  | (key, value) :: members =>
      escapeString key ++ colon :: serializeOutput T policy value
        ++ (if members.isEmpty then [] else [comma]) ++ outputMembers T policy members
termination_by structural members => members

end

/-- A line of a file sink, without its end. -/
def rowLine (T : DoubleText F) (D : DecimalText F) (decimalScales : List (Bytes × Int))
    (policy : NonFinite) (r : Row F) : Bytes :=
  serializeOutput T policy (.object (toJsonObject (requantiseRowDecimals D decimalScales r.values)))

mutual

theorem serializeOutput_plain (policy : NonFinite) (v : JsonValue F) :
    serializeOutput T policy (plain T v) = serializeOutput T policy v := by
  match v with
  | .null => rfl
  | .bool _ => rfl
  | .string _ => rfl
  | .int _ => rfl
  | .number (.finite f) =>
      have htext := serialize_plain (T := T) policy (.number (.finite f))
      have hagain := serialize_plain (T := T) policy (plain T (.number (.finite f)))
      rw [plain_plain, htext] at hagain
      rw [serializeOutput, hagain, plain_number_finite]
      cases T.castInt64 f with
      | none => rfl
      | some n => rfl
  | .number .nan => rfl
  | .number (.infinity _) => rfl
  | .array items => rw [plain, serializeOutput, serializeOutput, outputItems_plain policy items]
  | .object members =>
      rw [plain, serializeOutput, serializeOutput, outputMembers_plain policy members]

theorem outputItems_plain (policy : NonFinite) (items : List (JsonValue F)) :
    outputItems T policy (plainItems T items) = outputItems T policy items := by
  match items with
  | [] => rfl
  | item :: items =>
      rw [plainItems, outputItems, outputItems, serializeOutput_plain policy item,
        outputItems_plain policy items, isEmpty_plainItems]

theorem outputMembers_plain (policy : NonFinite) (members : List (Bytes × JsonValue F)) :
    outputMembers T policy (plainMembers T members) = outputMembers T policy members := by
  match members with
  | [] => rfl
  | (key, value) :: members =>
      rw [plainMembers, outputMembers, outputMembers, serializeOutput_plain policy value,
        outputMembers_plain policy members, isEmpty_plainMembers]

end

/-! ### One line for rows of one text -/

variable {D : DecimalText F} {decimalScales : List (Bytes × Int)} {policy : NonFinite}
  {values : List (Bytes × JsonValue F)}

omit [DecidableEq F]

private theorem plainMembers_eq_map :
    plainMembers T values = values.map fun m => (m.1, plain T m.2) := by
  induction values with
  | nil => rfl
  | cons m values ih => rw [plainMembers, List.map_cons, ih]

private theorem lookup_plainMembers (column : Bytes) :
    (plainMembers T values).lookup column = (values.lookup column).map (plain T) := by
  induction values with
  | nil => rfl
  | cons m values ih =>
      rw [plainMembers, List.lookup_cons, List.lookup_cons, ih]
      cases column == m.1 with
      | true => rfl
      | false => rfl

private theorem rowDecimalFor_plain (hD : D.Lawful T) (v : JsonValue F) (scale : Int) :
    rowDecimalFor D (plain T v) scale = rowDecimalFor D v scale := by
  match v with
  | .null => rfl
  | .bool _ => rfl
  | .string _ => rfl
  | .int _ => rfl
  | .number (.finite f) =>
      rw [plain_number_finite]
      cases hcast : T.castInt64 f with
      | none => rfl
      | some n =>
          have hsame := hD f n hcast
          simp only [Option.elim_some, rowDecimalFor, hsame]
  | .number .nan => rfl
  | .number (.infinity _) => rfl
  | .array _ => rfl
  | .object _ => rfl

private theorem assign_plainMembers (column s : Bytes) :
    assign column (.string s) (plainMembers T values)
      = plainMembers T (assign column (.string s) values) := by
  simp only [assign, plainMembers_eq_map, List.map_map]
  apply List.map_congr_left
  intro m _
  dsimp only [Function.comp_apply]
  split
  · rfl
  · rfl

private theorem map_fst_assign (column : Bytes) (v : JsonValue F) :
    (assign column v values).map Prod.fst = values.map Prod.fst := by
  rw [assign, List.map_map]
  apply List.map_congr_left
  intro m _
  dsimp only [Function.comp_apply]
  split
  · rfl
  · rfl

theorem requantiseColumn_eq (column : Bytes × Int) :
    requantiseColumn D values column =
      match (values.lookup column.1).bind fun v => rowDecimalFor D v column.2 with
      | some q => assign column.1 (makeDecValue D q) values
      | none => values := by
  unfold requantiseColumn
  split
  · rename_i hnone
    rw [hnone]
    rfl
  · rename_i hnull
    rw [hnull]
    rfl
  · rename_i v _ hsome
    rw [hsome]
    rfl

private theorem requantiseColumn_plain (hD : D.Lawful T) (column : Bytes × Int) :
    requantiseColumn D (plainMembers T values) column
      = plainMembers T (requantiseColumn D values column) := by
  have hdecimal : ((plainMembers T values).lookup column.1).bind
        (fun v => rowDecimalFor D v column.2)
      = (values.lookup column.1).bind fun v => rowDecimalFor D v column.2 := by
    rw [lookup_plainMembers]
    cases values.lookup column.1 with
    | none => rfl
    | some v => exact rowDecimalFor_plain hD v column.2
  rw [requantiseColumn_eq, requantiseColumn_eq, hdecimal]
  split
  · exact assign_plainMembers _ _
  · rfl

private theorem requantise_plain (hD : D.Lawful T) :
    requantiseRowDecimals D decimalScales (plainMembers T values)
      = plainMembers T (requantiseRowDecimals D decimalScales values) := by
  unfold requantiseRowDecimals
  induction decimalScales generalizing values with
  | nil => rfl
  | cons column decimalScales ih =>
      rw [List.foldl_cons, List.foldl_cons, requantiseColumn_plain hD, ih]

private theorem map_fst_requantise :
    (requantiseRowDecimals D decimalScales values).map Prod.fst = values.map Prod.fst := by
  unfold requantiseRowDecimals
  induction decimalScales generalizing values with
  | nil => rfl
  | cons column decimalScales ih =>
      rw [List.foldl_cons, ih, requantiseColumn_eq]
      split
      · exact map_fst_assign _ _
      · rfl

variable [DecidableEq F]

theorem rowLine_eq (r : Row F) :
    rowLine T D decimalScales policy r
      = serializeOutput T policy (.object (requantiseRowDecimals D decimalScales r.values)) := by
  have hsorted : SortedUnique (requantiseRowDecimals D decimalScales r.values) := by
    rw [SortedUnique, map_fst_requantise]
    exact r.sorted
  rw [rowLine, toJsonObject, fromEntries_of_sortedUnique hsorted]

theorem rowLine_plainRow (hD : D.Lawful T) (r : Row F) :
    rowLine T D decimalScales policy (plainRow T r) = rowLine T D decimalScales policy r := by
  rw [rowLine_eq, rowLine_eq, plainRow, requantise_plain hD,
    ← serializeOutput_plain policy (.object (requantiseRowDecimals D decimalScales r.values)),
      plain]

theorem rowLine_eq_of_rowText_eq (hT : T.Lawful) (hD : D.Lawful T) {r r' : Row F}
    (hr : MembersUntagged r.values) (hr' : MembersUntagged r'.values)
    (h : rowText T r = rowText T r') :
    rowLine T D decimalScales policy r = rowLine T D decimalScales policy r' := by
  rw [← rowLine_plainRow hD r, ← rowLine_plainRow hD r', plainRow_eq_of_rowText_eq hT hr hr' h]

end Lines

end Clink.Ports.Json

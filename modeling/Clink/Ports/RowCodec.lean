import Clink.Ports.JsonValue

/-!
# The row codec

`row_json_codec` of `sql/row.hpp`: a row travels between operators and rests in
state as one JSON object, written by `serialize_kind_preserving_into` and read back
by `parse_object`, which takes a strict parser's document apart with `from_dom`.

Numbers come back with their kind: an integral double carries a fraction, a double
JSON has no token for travels as a tagged string.  Strings need not come back.  The
writer copies their bytes into the text as they are, so a string that is not UTF-8
makes the whole text one that the parser refuses, and the row is dropped; and a
string that happens to be one of the three tags is read as the double it tags.
-/

namespace Clink.Ports.Json

open Clink.Verified
open Clink.Verified.StrictJson

variable {F : Type}

/-! ## From the document to values -/

/-- `tagged_non_finite`. -/
def taggedNonFinite (s : Bytes) : Option (Double F) :=
  if s.length < 4 ∨ s.head? ≠ some nonFiniteTag then none
  else if s.tail = ascii "NaN" then some .nan
  else if s.tail = ascii "Infinity" then some (.infinity false)
  else if s.tail = ascii "-Infinity" then some (.infinity true)
  else none

/-- A number token as the parser types it: an integer in the range of `int64` or, above
it, of `uint64`, which widens to a double; a token with a fraction or an exponent is a
double.  A token no such number represents fails the parse. -/
def numberValue (T : DoubleText F) (token : Bytes) : Option (JsonValue F) :=
  match numberKind token with
  | none => none
  | some .integer =>
      let n := integerValue token
      if -2 ^ 63 ≤ n ∧ n < 2 ^ 63 then some (.int (Int64.ofInt n))
      else if 0 ≤ n ∧ n < 2 ^ 64 then
        some (.number (.finite (T.ofUInt64 (UInt64.ofNat n.toNat))))
      else none
  | some .fractional => (T.strtod token).map fun f => .number (.finite f)

mutual

/-- `from_dom`. -/
def fromDom (T : DoubleText F) : Element → Option (JsonValue F)
  | .null => some .null
  | .bool b => some (.bool b)
  | .number token => numberValue T token
  | .string s =>
      match taggedNonFinite s with
      | some d => some (.number d)
      | none => some (.string s)
  | .array items => (fromDomItems T items).map .array
  | .object members => (fromDomMembers T members).map fun entries => .object (fromEntries entries)
termination_by structural e => e

def fromDomItems (T : DoubleText F) : List Element → Option (List (JsonValue F))
  | [] => some []
  | item :: items =>
      match fromDom T item, fromDomItems T items with
      | some v, some vs => some (v :: vs)
      | _, _ => none
termination_by structural items => items

def fromDomMembers (T : DoubleText F) : List (Bytes × Element) → Option (List (Bytes × JsonValue F))
  | [] => some []
  | (key, value) :: members =>
      match fromDom T value, fromDomMembers T members with
      | some v, some vs => some ((key, v) :: vs)
      | _, _ => none
termination_by structural members => members

end

/-- `parse_object`: nothing for a malformed text or a root that is no object. -/
def parseObject (T : DoubleText F) (text : Bytes) : Option (List (Bytes × JsonValue F)) :=
  match parse text with
  | some (.object members) => (fromDomMembers T members).map fromEntries
  | _ => none

/-! ## Rows -/

mutual

/-- Every object in the value is a `FlatMap`: its keys ascend. -/
def WellFormed : JsonValue F → Prop
  | .array items => WellFormedItems items
  | .object members => SortedUnique members ∧ WellFormedMembers members
  | .null | .bool _ | .number _ | .string _ | .int _ => True
termination_by structural v => v

def WellFormedItems : List (JsonValue F) → Prop
  | [] => True
  | item :: items => WellFormed item ∧ WellFormedItems items
termination_by structural items => items

def WellFormedMembers : List (Bytes × JsonValue F) → Prop
  | [] => True
  | (_, value) :: members => WellFormed value ∧ WellFormedMembers members
termination_by structural members => members

end

theorem wellFormedMembers_iff {members : List (Bytes × JsonValue F)} :
    WellFormedMembers members ↔ ∀ m ∈ members, WellFormed m.2 := by
  induction members with
  | nil => simp [WellFormedMembers]
  | cons m members ih =>
      obtain ⟨key, value⟩ := m
      simp [WellFormedMembers, ih]

theorem wellFormedMembers_fromEntries {entries : List (Bytes × JsonValue F)}
    (h : WellFormedMembers entries) : WellFormedMembers (fromEntries entries) :=
  wellFormedMembers_iff.mpr fun _ hm => wellFormedMembers_iff.mp h _ (mem_of_mem_fromEntries hm)

variable {T : DoubleText F}

theorem wellFormed_numberValue {token : Bytes} {v : JsonValue F}
    (h : numberValue T token = some v) : WellFormed v := by
  rw [numberValue] at h
  split at h
  case h_1 => simp at h
  case h_2 =>
    dsimp only at h
    split at h
    · rw [← Option.some.inj h]
      trivial
    · split at h
      · rw [← Option.some.inj h]
        trivial
      · simp at h
  case h_3 =>
    obtain ⟨f, -, rfl⟩ := Option.map_eq_some_iff.mp h
    trivial

mutual

variable {T : DoubleText F}

/-- Whatever document is read, the value that comes out of it is well formed. -/
theorem wellFormed_fromDom (e : Element) {v : JsonValue F} (h : fromDom T e = some v) :
    WellFormed v := by
  cases e with
  | null =>
      rw [fromDom, Option.some.injEq] at h
      exact h ▸ trivial
  | bool b =>
      rw [fromDom, Option.some.injEq] at h
      exact h ▸ trivial
  | number token => exact wellFormed_numberValue (by rwa [fromDom] at h)
  | string s =>
      rw [fromDom] at h
      split at h
      · exact Option.some.inj h ▸ trivial
      · exact Option.some.inj h ▸ trivial
  | array items =>
      rw [fromDom] at h
      obtain ⟨vs, hvs, rfl⟩ := Option.map_eq_some_iff.mp h
      exact wellFormed_fromDomItems items hvs
  | object members =>
      rw [fromDom] at h
      obtain ⟨entries, hentries, rfl⟩ := Option.map_eq_some_iff.mp h
      exact ⟨sortedUnique_fromEntries entries,
        wellFormedMembers_fromEntries (wellFormed_fromDomMembers members hentries)⟩

theorem wellFormed_fromDomItems (items : List Element) {vs : List (JsonValue F)}
    (h : fromDomItems T items = some vs) : WellFormedItems vs := by
  match items with
  | [] =>
      rw [fromDomItems, Option.some.injEq] at h
      exact h ▸ trivial
  | item :: items =>
      rw [fromDomItems] at h
      split at h
      next v vs' hv hvs =>
        rw [← Option.some.inj h]
        exact ⟨wellFormed_fromDom item hv, wellFormed_fromDomItems items hvs⟩
      next => simp at h

theorem wellFormed_fromDomMembers (members : List (Bytes × Element))
    {entries : List (Bytes × JsonValue F)} (h : fromDomMembers T members = some entries) :
    WellFormedMembers entries := by
  match members with
  | [] =>
      rw [fromDomMembers, Option.some.injEq] at h
      exact h ▸ trivial
  | (key, value) :: members =>
      rw [fromDomMembers] at h
      split at h
      next v vs hv hvs =>
        rw [← Option.some.inj h]
        exact ⟨wellFormed_fromDom value hv, wellFormed_fromDomMembers members hvs⟩
      next => simp at h

end

/-- A row: its columns by name, each value a tree whose objects are sorted as well. -/
@[ext]
structure Row (F : Type) where
  values : List (Bytes × JsonValue F)
  sorted : SortedUnique values
  wellFormed : WellFormedMembers values

/-- `to_json_object`. -/
def toJsonObject (columns : List (Bytes × JsonValue F)) : List (Bytes × JsonValue F) :=
  fromEntries columns

/-- `row_columns_from_json`. -/
def rowColumnsFromJson (obj : List (Bytes × JsonValue F)) : List (Bytes × JsonValue F) :=
  fromEntries obj

/-- `encode` of `row_json_codec`. -/
def encode [DecidableEq F] (T : DoubleText F) (r : Row F) : Bytes :=
  serializeKindPreserving T (.object (toJsonObject r.values))

theorem parseObject_wellFormed {text : Bytes} {obj : List (Bytes × JsonValue F)}
    (h : parseObject T text = some obj) : WellFormedMembers obj := by
  rw [parseObject] at h
  split at h
  next members _ =>
    obtain ⟨entries, hentries, rfl⟩ := Option.map_eq_some_iff.mp h
    exact wellFormedMembers_fromEntries (wellFormed_fromDomMembers members hentries)
  next => simp at h

/-- `decode` of `row_json_codec`. -/
def decode (T : DoubleText F) (text : Bytes) : Option (Row F) :=
  match h : parseObject T text with
  | none => none
  | some obj =>
      some
        { values := rowColumnsFromJson obj
          sorted := sortedUnique_fromEntries obj
          wellFormed := wellFormedMembers_fromEntries (parseObject_wellFormed h) }

theorem decode_eq_some_iff {text : Bytes} {r : Row F} :
    decode T text = some r ↔
      ∃ obj, parseObject T text = some obj ∧ rowColumnsFromJson obj = r.values := by
  rw [decode]
  split
  next hparse => simp [hparse]
  next obj hparse =>
    rw [Option.some.injEq]
    constructor
    · rintro rfl
      exact ⟨obj, hparse, rfl⟩
    · rintro ⟨obj', hparse', hvalues⟩
      obtain rfl : obj = obj' := Option.some.inj (hparse.symm.trans hparse')
      exact Row.ext hvalues

end Clink.Ports.Json

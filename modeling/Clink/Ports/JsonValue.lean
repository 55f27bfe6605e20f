import Clink.Verified.StrictJson
import Mathlib.Data.List.Chain

/-!
# JSON values and their compact text

`JsonValue` and `serialize_append` of `config/json.cpp`, and the bulk build of the
sorted `FlatMap` that holds an object's members.  A number is an exact `int64` or a
double, and the text of a double depends on what the C library prints and reads
back, so printing and reading finite doubles are the functions of `DoubleText`, with
what the library documents about them as `DoubleText.Lawful`.  The writer's two
switches are kept: whether an integral double carries its kind as a `.0` fraction,
and which form a double takes for which JSON has no token.
-/

namespace Clink.Ports.Json

open Clink.Verified
open Clink.Verified.StrictJson

/-- A double over the type of its finite values.  A NaN has neither sign nor payload. -/
inductive Double (F : Type) where
  | finite (f : F)
  | nan
  | infinity (negative : Bool)
  deriving DecidableEq, Repr

/-- `JsonValue`, in the order of its alternatives. -/
inductive JsonValue (F : Type) where
  | null
  | bool (b : Bool)
  | number (d : Double F)
  | string (s : Bytes)
  | array (items : List (JsonValue F))
  | object (members : List (Bytes × JsonValue F))
  | int (n : Int64)

/-- How a writer renders a double that is not finite. -/
inductive NonFinite where
  | tagged
  | null
  | string
  deriving DecidableEq, Repr

/-- `kNonFiniteTag`. -/
def nonFiniteTag : UInt8 := 0x02

/-! ## Finite doubles as text -/

/-- What the writer and the reader use of the C library's finite doubles. -/
structure DoubleText (F : Type) where
  /-- The value as an `int64`, when the double is in its range and integral. -/
  castInt64 : F → Option Int64
  signbit : F → Bool
  /-- `snprintf` with `%.*g` at a precision. -/
  snprintf : Nat → F → Bytes
  /-- The finite double nearest to a decimal text. -/
  strtod : Bytes → Option F
  /-- The double nearest to an unsigned integer. -/
  ofUInt64 : UInt64 → F

/-- What is documented of printing and reading: `%g` writes a JSON number and, at
seventeen digits, one that reads back as the same double; at most seventeen digits
stand before the point where it writes no exponent; and reading is exact on integers. -/
structure DoubleText.Lawful {F : Type} (T : DoubleText F) : Prop where
  snprintf_token : ∀ prec ∈ [15, 16, 17], ∀ f, (numberKind (T.snprintf prec f)).isSome = true
  snprintf_integer : ∀ prec ∈ [15, 16, 17], ∀ f,
    numberKind (T.snprintf prec f) = some .integer → (T.snprintf prec f).length ≤ 18
  strtod_snprintf : ∀ f, T.strtod (T.snprintf 17 f) = some f
  strtod_integer : ∀ text f, numberKind text = some .integer → text.length ≤ 18 →
    T.strtod text = some f → (T.castInt64 f).isSome = true
  strtod_fraction : ∀ f n, T.castInt64 f = some n → (n ≠ 0 ∨ T.signbit f = false) →
    T.strtod (integerToken n.toInt ++ ascii ".0") = some f
  strtod_negativeZero : ∀ f, T.castInt64 f = some 0 → T.signbit f = true →
    T.strtod (ascii "-0.0") = some f

variable {F : Type} [DecidableEq F]

/-- The writer's loop over the precisions: the first text that reads back, else the last. -/
def tryPrecisions (T : DoubleText F) (f : F) : List Nat → Bytes → Bytes
  | [], buf => buf
  | prec :: rest, _ =>
      let buf := T.snprintf prec f
      if 0 < buf.length ∧ buf.length < 32 ∧ T.strtod buf = some f then buf
      else tryPrecisions T f rest buf

/-- The text of a finite double. -/
def numberText (T : DoubleText F) (keepKind : Bool) (f : F) : Bytes :=
  match T.castInt64 f with
  | some n =>
      if keepKind && n == 0 && T.signbit f then ascii "-0.0"
      else integerToken n.toInt ++ (if keepKind then ascii ".0" else [])
  | none => tryPrecisions T f [15, 16, 17] []

/-! ## The writer -/

/-- `non_finite_name`; a finite double has none. -/
def nonFiniteName : Double F → Bytes
  | .finite _ => []
  | .nan => ascii "NaN"
  | .infinity false => ascii "Infinity"
  | .infinity true => ascii "-Infinity"

/-- `append_non_finite`. -/
def nonFiniteText (d : Double F) : NonFinite → Bytes
  | .null => ascii "null"
  | .string => quote :: (nonFiniteName d ++ [quote])
  | .tagged => quote :: (ascii "\\u0002" ++ (nonFiniteName d ++ [quote]))

/-- A digit of `%04x`. -/
def hexDigit (n : Nat) : UInt8 := if n < 10 then UInt8.ofNat (0x30 + n) else UInt8.ofNat (0x57 + n)

/-- What `escape_string` writes for one byte. -/
def escapeByte (b : UInt8) : Bytes :=
  if b = 0x22 then ascii "\\\""
  else if b = 0x5C then ascii "\\\\"
  else if b = 0x08 then ascii "\\b"
  else if b = 0x0C then ascii "\\f"
  else if b = 0x0A then ascii "\\n"
  else if b = 0x0D then ascii "\\r"
  else if b = 0x09 then ascii "\\t"
  else if b < 0x20 then ascii "\\u00" ++ [hexDigit (b.toNat / 16), hexDigit (b.toNat % 16)]
  else [b]

def escapeString (s : Bytes) : Bytes := quote :: (s.flatMap escapeByte ++ [quote])

mutual

/-- `serialize_append` with no indentation. -/
def serialize (T : DoubleText F) (keepKind : Bool) (policy : NonFinite) : JsonValue F → Bytes
  | .null => ascii "null"
  | .bool b => if b then ascii "true" else ascii "false"
  | .string s => escapeString s
  | .int n => integerToken n.toInt
  | .number (.finite f) => numberText T keepKind f
  | .number d => nonFiniteText d policy
  | .array items => openBracket :: (serializeItems T keepKind policy items ++ [closeBracket])
  | .object members => openBrace :: (serializeMembers T keepKind policy members ++ [closeBrace])
termination_by structural v => v

def serializeItems (T : DoubleText F) (keepKind : Bool) (policy : NonFinite) :
    List (JsonValue F) → Bytes
  | [] => []
  | item :: items =>
      serialize T keepKind policy item ++ (if items.isEmpty then [] else [comma])
        ++ serializeItems T keepKind policy items
termination_by structural items => items

def serializeMembers (T : DoubleText F) (keepKind : Bool) (policy : NonFinite) :
    List (Bytes × JsonValue F) → Bytes
  | [] => []
  | (key, value) :: members =>
      escapeString key ++ colon :: serialize T keepKind policy value
        ++ (if members.isEmpty then [] else [comma]) ++ serializeMembers T keepKind policy members
termination_by structural members => members

end

/-- `serialize_kind_preserving_into`. -/
def serializeKindPreserving (T : DoubleText F) (v : JsonValue F) : Bytes :=
  serialize T true .tagged v

/-! ## Sorted members -/

section FlatMap

variable {V : Type}

/-- Each key is below the next one. -/
def SortedUnique (entries : List (Bytes × V)) : Prop :=
  (entries.map Prod.fst).IsChain (· < ·)

instance (entries : List (Bytes × V)) : Decidable (SortedUnique entries) :=
  inferInstanceAs (Decidable ((entries.map Prod.fst).IsChain (· < ·)))

/-- One round of the insertion sort: the entry swaps down past every greater key.  The
sorted part is listed from its end. -/
def sink (entry : Bytes × V) : List (Bytes × V) → List (Bytes × V)
  | [] => [entry]
  | last :: before =>
      if entry.1 < last.1 then last :: sink entry before else entry :: last :: before

def insertionSort (entries : List (Bytes × V)) : List (Bytes × V) :=
  (entries.foldl (fun sorted entry => sink entry sorted) []).reverse

/-- `std::unique` by key: of neighbours with one key the first stays. -/
def unique : List (Bytes × V) → List (Bytes × V)
  | [] => []
  | entry :: entries => entry :: unique.behind entry.1 entries
where
  behind (key : Bytes) : List (Bytes × V) → List (Bytes × V)
    | [] => []
    | entry :: entries =>
        if key = entry.1 then behind key entries else entry :: behind entry.1 entries

/-- `from_entries`. -/
def fromEntries (entries : List (Bytes × V)) : List (Bytes × V) :=
  if SortedUnique entries then entries else unique (insertionSort entries)

variable {entries : List (Bytes × V)}

theorem fromEntries_of_sortedUnique (h : SortedUnique entries) : fromEntries entries = entries :=
  if_pos h

/-! ### The bulk build keeps the invariant -/

/-- The keys descend, as the sorted part does from its end. -/
def Descending (entries : List (Bytes × V)) : Prop :=
  entries.IsChain fun a b => b.1 ≤ a.1

theorem head?_sink (entry : Bytes × V) (entries : List (Bytes × V)) :
    (sink entry entries).head? = some entry ∨ (sink entry entries).head? = entries.head? := by
  cases entries with
  | nil => exact .inl rfl
  | cons last before =>
      rw [sink]
      split
      case isTrue => exact .inr rfl
      case isFalse => exact .inl rfl

theorem Descending.sink (h : Descending entries) (entry : Bytes × V) :
    Descending (sink entry entries) := by
  induction entries with
  | nil => exact List.isChain_singleton _
  | cons last before ih =>
      rw [Json.sink]
      split
      case isTrue hlt =>
        have hbefore := ih (List.isChain_cons.mp h).2
        refine List.isChain_cons.mpr ⟨?_, hbefore⟩
        intro next hnext
        rcases head?_sink entry before with hhead | hhead
        · rw [hhead, Option.mem_some_iff] at hnext
          exact hnext ▸ List.le_of_lt hlt
        · exact (List.isChain_cons.mp h).1 next (hhead ▸ hnext)
      case isFalse hlt =>
        exact List.isChain_cons_cons.mpr ⟨List.not_lt.mp hlt, h⟩

theorem descending_foldl_sink (entries : List (Bytes × V)) {sorted : List (Bytes × V)}
    (h : Descending sorted) :
    Descending (entries.foldl (fun sorted entry => sink entry sorted) sorted) := by
  induction entries generalizing sorted with
  | nil => exact h
  | cons entry entries ih => exact ih (h.sink entry)

theorem isChain_insertionSort (entries : List (Bytes × V)) :
    (insertionSort entries).IsChain fun a b => a.1 ≤ b.1 :=
  List.isChain_reverse.mpr (descending_foldl_sink entries List.isChain_nil)

theorem isChain_behind {key : Bytes} (h : (key :: entries.map Prod.fst).IsChain (· ≤ ·)) :
    (key :: (unique.behind key entries).map Prod.fst).IsChain (· < ·) := by
  induction entries generalizing key with
  | nil => exact List.isChain_singleton _
  | cons entry entries ih =>
      rw [List.map_cons, List.isChain_cons_cons] at h
      rw [unique.behind]
      split
      case isTrue heq => exact ih (heq ▸ h.2)
      case isFalse hne =>
        refine List.isChain_cons_cons.mpr ⟨?_, ih h.2⟩
        by_contra hlt
        exact hne (List.le_antisymm h.1 (List.not_lt.mp hlt))

/-- Whatever the entries, the map that is built of them is sorted with no key twice. -/
theorem sortedUnique_fromEntries (entries : List (Bytes × V)) :
    SortedUnique (fromEntries entries) := by
  rw [fromEntries]
  split
  case isTrue h => exact h
  case isFalse =>
    have hchain := isChain_insertionSort entries
    cases hsort : insertionSort entries with
    | nil => exact List.isChain_nil
    | cons entry rest =>
        rw [hsort] at hchain
        refine isChain_behind ?_
        simpa using (List.isChain_map Prod.fst).mpr hchain

variable {e : Bytes × V}

theorem mem_sink {entry : Bytes × V} (h : e ∈ sink entry entries) : e = entry ∨ e ∈ entries := by
  induction entries with
  | nil => exact .inl (List.mem_singleton.mp h)
  | cons last before ih =>
      rw [sink] at h
      split at h
      case isTrue =>
        rcases List.mem_cons.mp h with rfl | h
        · exact .inr List.mem_cons_self
        · exact (ih h).imp_right (List.mem_cons_of_mem _)
      case isFalse => exact List.mem_cons.mp h

theorem mem_foldl_sink {sorted : List (Bytes × V)}
    (h : e ∈ entries.foldl (fun sorted entry => sink entry sorted) sorted) :
    e ∈ entries ∨ e ∈ sorted := by
  induction entries generalizing sorted with
  | nil => exact .inr h
  | cons entry entries ih =>
      rcases ih h with h | h
      · exact .inl (List.mem_cons_of_mem _ h)
      · rcases mem_sink h with rfl | h
        · exact .inl List.mem_cons_self
        · exact .inr h

theorem mem_behind {key : Bytes} (h : e ∈ unique.behind key entries) : e ∈ entries := by
  induction entries generalizing key with
  | nil => exact absurd h List.not_mem_nil
  | cons entry entries ih =>
      rw [unique.behind] at h
      split at h
      case isTrue => exact List.mem_cons_of_mem _ (ih h)
      case isFalse =>
        rcases List.mem_cons.mp h with rfl | h
        · exact List.mem_cons_self
        · exact List.mem_cons_of_mem _ (ih h)

theorem mem_unique (h : e ∈ unique entries) : e ∈ entries := by
  cases entries with
  | nil => exact h
  | cons entry entries =>
      rcases List.mem_cons.mp h with rfl | h
      · exact List.mem_cons_self
      · exact List.mem_cons_of_mem _ (mem_behind h)

/-- The map holds nothing but entries it was built of. -/
theorem mem_of_mem_fromEntries (h : e ∈ fromEntries entries) : e ∈ entries := by
  rw [fromEntries] at h
  split at h
  case isTrue => exact h
  case isFalse =>
    have hmem := List.mem_reverse.mp (mem_unique h)
    rcases mem_foldl_sink hmem with hmem | hmem
    · exact hmem
    · exact absurd hmem List.not_mem_nil

end FlatMap

end Clink.Ports.Json

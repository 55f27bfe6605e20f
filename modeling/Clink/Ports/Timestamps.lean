import Clink.Verified.Calendar
import Clink.Verified.Text

/-!
# Timestamps as text

`format_timestamp` and `parse_timestamp` of `json_value_expr.hpp`: epoch milliseconds
(UTC) written with the tokens yyyy, MM, dd, HH, mm and ss of a format, and read back, over
the date conversions `days_from_civil` and `civil_from_days`.

The conversions are inverse to each other between the days and the dates of the calendar,
and a text that was written is read back as the second it was written from.  Reading asks
less than it should: a field may be out of range, a token that stands twice may be read
as two values, and the text may go on where the format ends.  `Sound` is the texts without
these, and `parsed_text_iff` says that they are those that are written back.

A text is a list of characters and a format is cut into its tokens first, as both loops
cut it in the same way.  `unsigned` arithmetic is modulo `2 ^ 32`, which is seen for the
day 0; `int64` is `Int`, as nothing here leaves its range for an `int64` time.
-/

namespace Clink.Ports.Timestamps

open Clink.Verified Clink.Verified.Calendar

/-! ## Days and dates -/

/-- The value of an `unsigned`. -/
def u32 (n : Int) : Nat := (n % 2 ^ 32).toNat

theorem u32_eq {a : Int} {n : Nat} (heq : a = n) (hsmall : n < 2 ^ 32) : u32 a = n := by
  unfold u32
  omega

def floordiv (a b : Int) : Int :=
  let q := a.tdiv b
  let r := a.tmod b
  if r ≠ 0 ∧ (decide (r < 0) ≠ decide (b < 0)) then q - 1 else q

def daysFromCivil (y : Int) (m d : Nat) : Int :=
  let y := y - if m ≤ 2 then 1 else 0
  let era := (if y ≥ 0 then y else y - 399).tdiv 400
  let yoe := u32 (y - era * 400)
  let doy := u32 (u32 (153 * u32 (m + if m > 2 then -3 else 9) + 2) / 5 + d - 1)
  let doe := u32 (yoe * 365 + yoe / 4 - yoe / 100 + doy)
  era * 146097 + doe - 719468

structure CivilDate where
  y : Int
  m : Nat
  d : Nat
  deriving DecidableEq, Repr

def civilFromDays (z : Int) : CivilDate :=
  let z := z + 719468
  let era := (if z ≥ 0 then z else z - 146096).tdiv 146097
  let doe := u32 (z - era * 146097)
  let yoe := u32 (doe - doe / 1460 + doe / 36524 - doe / 146096) / 365
  let y := yoe + era * 400
  let doy := u32 (doe - (365 * yoe + yoe / 4 - yoe / 100))
  let mp := u32 (5 * doy + 2) / 153
  let d := u32 (doy - u32 (153 * mp + 2) / 5 + 1)
  let m := u32 (mp + if mp < 10 then 3 else -9)
  ⟨y + if m ≤ 2 then 1 else 0, m, d⟩

/-! ### The divisions round down -/

theorem floordiv_day (ms : Int) : floordiv ms 86400000 = ms / 86400000 := by
  unfold floordiv
  rw [Int.tdiv_eq_ediv, Int.tmod_eq_emod]
  have hsign : Int.sign 86400000 = 1 := rfl
  have hsize : Int.natAbs 86400000 = 86400000 := rfl
  rw [hsign, hsize]
  by_cases hwhole : 0 ≤ ms ∨ 86400000 ∣ ms
  · have hpositive : ¬ms % 86400000 < 0 := by omega
    simp [hwhole, hpositive]
  · have hnegative : ms % 86400000 - 86400000 ≠ 0 ∧ ms % 86400000 - 86400000 < 0 := by omega
    simp [hwhole, hnegative]

private theorem era_of_year (y : Int) : (if y ≥ 0 then y else y - 399).tdiv 400 = y / 400 := by
  rw [Int.tdiv_eq_ediv]
  have hsign : Int.sign 400 = 1 := rfl
  rw [hsign]
  split <;> split <;> omega

private theorem era_of_day (z : Int) :
    (if z ≥ 0 then z else z - 146096).tdiv 146097 = z / 146097 := by
  rw [Int.tdiv_eq_ediv]
  have hsign : Int.sign 146097 = 1 := rfl
  rw [hsign]
  split <;> split <;> omega

/-- The year a date is counted from: it begins in March. -/
def marchYear (y : Int) (m : Nat) : Int := y - if m ≤ 2 then 1 else 0

/-- The day of the year that begins in March. -/
def dayOfYear (m d : Nat) : Nat := monthStart (sinceMarch m) + (d - 1)

variable {m d : Nat}

theorem daysFromCivil_eq {y : Int} (hm : 1 ≤ m ∧ m ≤ 12) (hd : 1 ≤ d ∧ d ≤ 31) :
    daysFromCivil y m d = marchYear y m / 400 * 146097 +
      (yearStart (marchYear y m % 400).toNat + dayOfYear m d : Nat) - 719468 := by
  have hmonth : u32 (m + if m > 2 then -3 else 9) = sinceMarch m := by
    unfold u32 sinceMarch
    split <;> omega
  have hlate : sinceMarch m < 12 := by
    unfold sinceMarch
    split <;> omega
  have hstart : u32 (153 * sinceMarch m + 2) = 153 * sinceMarch m + 2 :=
    u32_eq (by push_cast; omega) (by omega)
  have hday : u32 ((153 * sinceMarch m + 2 : Nat) / 5 + d - 1) = dayOfYear m d := by
    unfold dayOfYear monthStart
    exact u32_eq (by omega) (by omega)
  have hyear : u32 (marchYear y m - marchYear y m / 400 * 400) = (marchYear y m % 400).toNat :=
    u32_eq (by omega) (by omega)
  have hshort : dayOfYear m d < 400 := by
    unfold dayOfYear monthStart
    omega
  have hplace : u32 ((marchYear y m % 400).toNat * 365 + (marchYear y m % 400).toNat / 4 -
      (marchYear y m % 400).toNat / 100 + dayOfYear m d) =
      yearStart (marchYear y m % 400).toNat + dayOfYear m d := by
    unfold yearStart
    exact u32_eq (by omega) (by omega)
  unfold daysFromCivil
  simp only [hmonth, hstart, hday, ← marchYear.eq_1, era_of_year, hyear, hplace]

theorem civilFromDays_eq (z : Int) :
    civilFromDays z =
      let doe := ((z + 719468) % 146097).toNat
      let yoe := yearOfEra doe
      let doy := doe - yearStart yoe
      let mp := monthOfYear doy
      ⟨yoe + (z + 719468) / 146097 * 400 + if ofMarch mp ≤ 2 then 1 else 0, ofMarch mp,
        doy - monthStart mp + 1⟩ := by
  have hearly : ((z + 719468) % 146097).toNat < 146097 := by omega
  obtain ⟨hyear, hlow, hhigh⟩ := yearOfEra_spec hearly
  have hlength := yearLength_le (yearOfEra ((z + 719468) % 146097).toNat)
  have hday : u32 (z + 719468 - (z + 719468) / 146097 * 146097) =
      ((z + 719468) % 146097).toNat := u32_eq (by omega) (by omega)
  generalize ((z + 719468) % 146097).toNat = doe at hearly hyear hlow hhigh hlength hday
  have hyear : u32 (doe - doe / 1460 + doe / 36524 - doe / 146096) / 365 = yearOfEra doe := by
    unfold yearOfEra
    rw [u32_eq (show (doe - doe / 1460 + doe / 36524 - doe / 146096 : Int) =
      (doe - doe / 1460 + doe / 36524 - doe / 146096 : Nat) by omega) (by omega)]
  have hrest : u32 (doe - (365 * yearOfEra doe + yearOfEra doe / 4 - yearOfEra doe / 100)) =
      doe - yearStart (yearOfEra doe) := by
    unfold yearStart at hlow ⊢
    exact u32_eq (by omega) (by omega)
  have hshort : doe - yearStart (yearOfEra doe) < 366 := by omega
  obtain ⟨hmonth, hbegun, -⟩ := monthOfYear_spec hshort
  generalize hdoy : doe - yearStart (yearOfEra doe) = doy at hmonth hbegun hrest hshort
  have hmonth : u32 (5 * doy + 2) / 153 = monthOfYear doy := by
    unfold monthOfYear
    rw [u32_eq (show (5 * doy + 2 : Int) = (5 * doy + 2 : Nat) by omega) (by omega)]
  have hstart : u32 (153 * monthOfYear doy + 2) = 153 * monthOfYear doy + 2 :=
    u32_eq (by push_cast; omega) (by omega)
  have hdayOfMonth : u32 (doy - (153 * monthOfYear doy + 2 : Nat) / 5 + 1) =
      doy - monthStart (monthOfYear doy) + 1 := by
    unfold monthStart at hbegun ⊢
    exact u32_eq (by omega) (by omega)
  have hnamed : u32 (monthOfYear doy + if monthOfYear doy < 10 then 3 else -9) =
      ofMarch (monthOfYear doy) := by
    unfold u32 ofMarch
    split <;> omega
  unfold civilFromDays
  simp only [era_of_day, hday, hyear, hrest, hmonth, hstart, hdayOfMonth, hnamed, hdoy]

theorem ofMarch_sinceMarch (hm : 1 ≤ m ∧ m ≤ 12) : ofMarch (sinceMarch m) = m := by
  unfold ofMarch sinceMarch
  split <;> split <;> omega

theorem sinceMarch_ofMarch {mp : Nat} (h : mp < 12) : sinceMarch (ofMarch mp) = mp := by
  unfold ofMarch sinceMarch
  split <;> split <;> omega

theorem ofMarch_bounds {mp : Nat} (h : mp < 12) : 1 ≤ ofMarch mp ∧ ofMarch mp ≤ 12 := by
  unfold ofMarch
  split <;> omega

theorem daysInMonth_le (y : Int) (m : Nat) : daysInMonth y m ≤ 31 := by
  unfold daysInMonth
  split
  · split <;> omega
  · omega
  · omega
  · omega
  · omega
  · omega

theorem civilFromDays_daysFromCivil {y : Int} (h : RealDate y m d) :
    civilFromDays (daysFromCivil y m d) = ⟨y, m, d⟩ := by
  have hm : 1 ≤ m ∧ m ≤ 12 := ⟨h.1, h.2.1⟩
  have hd : 1 ≤ d ∧ d ≤ 31 := ⟨h.2.2.1, h.2.2.2.trans (daysInMonth_le y m)⟩
  obtain ⟨hinMonth, hinYear⟩ := (realDate_iff hm hd.1).1 h
  have hmonths : sinceMarch m < 12 := by
    unfold sinceMarch
    split <;> omega
  change dayOfYear m d < yearLength (marchYear y m % 400).toNat at hinYear
  have hinEra := yearStart_add_lt (show (marchYear y m % 400).toNat < 400 by omega) hinYear
  have heq := daysFromCivil_eq (y := y) hm hd
  have hdoe : ((daysFromCivil y m d + 719468) % 146097).toNat =
      yearStart (marchYear y m % 400).toNat + dayOfYear m d := by omega
  have hera : (daysFromCivil y m d + 719468) / 146097 = marchYear y m / 400 := by omega
  have hyear := yearOfEra_eq (show (marchYear y m % 400).toNat < 400 by omega) hinYear
  have hmonth : monthOfYear (dayOfYear m d) = sinceMarch m := monthOfYear_eq hmonths hinMonth
  rw [civilFromDays_eq]
  simp only [hdoe, hera, hyear, Nat.add_sub_cancel_left, hmonth, ofMarch_sinceMarch hm]
  have hday : dayOfYear m d - monthStart (sinceMarch m) + 1 = d := by
    unfold dayOfYear
    omega
  have hwhole : ((marchYear y m % 400).toNat : Int) + marchYear y m / 400 * 400 +
      (if m ≤ 2 then 1 else 0) = y := by
    unfold marchYear
    omega
  rw [hday, hwhole]

theorem daysFromCivil_civilFromDays (z : Int) :
    RealDate (civilFromDays z).y (civilFromDays z).m (civilFromDays z).d ∧
      daysFromCivil (civilFromDays z).y (civilFromDays z).m (civilFromDays z).d = z := by
  have hearly : ((z + 719468) % 146097).toNat < 146097 := by omega
  obtain ⟨hyear, hlow, hhigh⟩ := yearOfEra_spec hearly
  have hlength := yearLength_le (yearOfEra ((z + 719468) % 146097).toNat)
  have hshort : ((z + 719468) % 146097).toNat -
      yearStart (yearOfEra ((z + 719468) % 146097).toNat) < 366 := by omega
  obtain ⟨hmonth, hbegun, hwithin⟩ := monthOfYear_spec hshort
  rw [civilFromDays_eq]
  generalize hdoe : ((z + 719468) % 146097).toNat = doe
    at hearly hyear hlow hhigh hlength hshort hmonth hbegun hwithin
  generalize hdoy : doe - yearStart (yearOfEra doe) = doy at hshort hmonth hbegun hwithin
  simp only [hdoy]
  generalize yearOfEra doe = yoe at hyear hlow hhigh hlength hdoy
  generalize hmp : monthOfYear doy = mp at hmonth hbegun hwithin
  have hm := ofMarch_bounds hmonth
  have hmarch : marchYear (yoe + (z + 719468) / 146097 * 400 + if ofMarch mp ≤ 2 then 1 else 0)
      (ofMarch mp) = yoe + (z + 719468) / 146097 * 400 := by
    unfold marchYear
    omega
  have hplace : dayOfYear (ofMarch mp) (doy - monthStart mp + 1) = doy := by
    unfold dayOfYear
    rw [sinceMarch_ofMarch hmonth]
    omega
  have hinYear : ((yoe : Int) + (z + 719468) / 146097 * 400) % 400 = yoe := by omega
  have hreal : RealDate (yoe + (z + 719468) / 146097 * 400 + if ofMarch mp ≤ 2 then 1 else 0)
      (ofMarch mp) (doy - monthStart mp + 1) := by
    rw [realDate_iff hm (by omega), ← marchYear.eq_1, ← dayOfYear.eq_1, hmarch, hplace, hinYear,
      sinceMarch_ofMarch hmonth]
    constructor
    · omega
    · simp only [Int.toNat_natCast]
      omega
  refine ⟨hreal, ?_⟩
  rw [daysFromCivil_eq hm ⟨by omega, hreal.2.2.2.trans (daysInMonth_le _ _)⟩, hmarch, hplace,
    hinYear,
    Int.toNat_natCast]
  omega

/-! ## Formats -/

/-- The parts of a time that a format can name. -/
inductive Field where
  | yyyy
  | MM
  | dd
  | HH
  | mm
  | ss
  deriving DecidableEq, Repr

inductive Token where
  | field (k : Field)
  | literal (c : Char)
  deriving DecidableEq, Repr

/-- The tokens of a format, as both loops cut it. -/
def tokens : List Char → List Token
  | 'y' :: 'y' :: 'y' :: 'y' :: fmt => .field .yyyy :: tokens fmt
  | 'M' :: 'M' :: fmt => .field .MM :: tokens fmt
  | 'd' :: 'd' :: fmt => .field .dd :: tokens fmt
  | 'H' :: 'H' :: fmt => .field .HH :: tokens fmt
  | 'm' :: 'm' :: fmt => .field .mm :: tokens fmt
  | 's' :: 's' :: fmt => .field .ss :: tokens fmt
  | c :: fmt => .literal c :: tokens fmt
  | [] => []

/-- How a field is named in a format. -/
def Field.name : Field → List Char
  | .yyyy => ['y', 'y', 'y', 'y']
  | .MM => ['M', 'M']
  | .dd => ['d', 'd']
  | .HH => ['H', 'H']
  | .mm => ['m', 'm']
  | .ss => ['s', 's']

def Field.width : Field → Nat
  | .yyyy => 4
  | _ => 2

/-- The values of the fields: the locals of both functions. -/
abbrev Fields := Field → Int

/-! ### Writing -/

/-- `std::to_string`, and zeros before it up to a width. -/
def padInt (v : Int) (width : Nat) : List Char :=
  let s := if v < 0 then '-' :: decimal v.natAbs else decimal v.toNat
  List.replicate (width - s.length) '0' ++ s

/-- The fields of a time. -/
def fieldsOf (ms : Int) : Fields :=
  let days := floordiv ms 86400000
  let tod := ms - days * 86400000
  let cd := civilFromDays days
  fun
    | .yyyy => cd.y
    | .MM => cd.m
    | .dd => cd.d
    | .HH => tod.tdiv 3600000
    | .mm => (tod.tdiv 60000).tmod 60
    | .ss => (tod.tdiv 1000).tmod 60

def Fields.write (f : Fields) : Token → List Char
  | .field k => padInt (f k) k.width
  | .literal c => [c]

def formatTimestamp (ms : Int) (fmt : List Char) : List Char :=
  (tokens fmt).flatMap (fieldsOf ms).write

/-! ### Reading -/

def takeInt (width : Nat) (s : List Char) : Option (Int × List Char) :=
  if width ≤ s.length ∧ (s.take width).all Char.isDigit = true then
    some (digitsValue (s.take width), s.drop width)
  else none

def Fields.read (f : Fields) (s : List Char) : Token → Option (Fields × List Char)
  | .field k => do
      let (v, s) ← takeInt k.width s
      some (Function.update f k v, s)
  | .literal c =>
      match s with
      | [] => none
      | c' :: s => if c' ≠ c then none else some (f, s)

def Fields.readAll (f : Fields) (s : List Char) : List Token → Option (Fields × List Char)
  | [] => some (f, s)
  | tok :: toks => do
      let (f, s) ← f.read s tok
      f.readAll s toks

/-- What a field is when the format does not name it. -/
def Fields.initial : Fields
  | .yyyy => 1970
  | .MM => 1
  | .dd => 1
  | _ => 0

def Fields.time (f : Fields) : Int :=
  daysFromCivil (f .yyyy) (u32 (f .MM)) (u32 (f .dd)) * 86400000 + f .HH * 3600000 +
    f .mm * 60000 + f .ss * 1000

def parseTimestamp (s fmt : List Char) : Option Int := do
  let (f, _) ← Fields.initial.readAll s (tokens fmt)
  some f.time

/-! ## Texts of a format -/

/-- The texts that a token is read from. -/
def Matches : Token → List Char → Prop
  | .field k, piece => piece.length = k.width ∧ piece.all Char.isDigit = true
  | .literal c, piece => piece = [c]

/-- The values that the pieces of a text have for the fields, the last one counting. -/
def Fields.setAll (f : Fields) : List Token → List (List Char) → Fields
  | .field k :: toks, piece :: pieces =>
      Fields.setAll (Function.update f k (digitsValue piece)) toks pieces
  | .literal _ :: toks, _ :: pieces => f.setAll toks pieces
  | _, _ => f

theorem width_pos (k : Field) : 0 < k.width := by
  cases k <;> decide

variable {toks : List Token} {pieces : List (List Char)}

/-- A text that has the pieces of a format is read, up to what is behind them. -/
theorem readAll_pieces (h : List.Forall₂ Matches toks pieces) (f : Fields) (rest : List Char) :
    f.readAll (pieces.flatten ++ rest) toks = some (f.setAll toks pieces, rest) := by
  induction h generalizing f with
  | nil => rfl
  | @cons tok piece toks pieces hone hmore ih =>
      have hstep : ∃ f', f.read ((piece :: pieces).flatten ++ rest) tok =
          some (f', pieces.flatten ++ rest) ∧
          f.setAll (tok :: toks) (piece :: pieces) = f'.setAll toks pieces := by
        cases tok with
        | field k =>
            obtain ⟨hlen, hdigits⟩ := hone
            have htaken : (piece ++ (pieces.flatten ++ rest)).take k.width = piece := by
              rw [← hlen, List.take_left]
            have hleft : (piece ++ (pieces.flatten ++ rest)).drop k.width =
                pieces.flatten ++ rest := by
              rw [← hlen, List.drop_left]
            refine ⟨Function.update f k (digitsValue piece), ?_, rfl⟩
            rw [List.flatten_cons, List.append_assoc, Fields.read, takeInt, htaken, hleft,
              if_pos ⟨by simp [← hlen], hdigits⟩]
            rfl
        | literal c =>
            obtain rfl : piece = [c] := hone
            refine ⟨f, ?_, rfl⟩
            simp [Fields.read]
      obtain ⟨f', hread, hset⟩ := hstep
      rw [Fields.readAll, hread, hset]
      exact ih f'

variable {f : Fields}

theorem exists_pieces {f' : Fields} {s rest : List Char} (h : f.readAll s toks = some (f', rest)) :
    ∃ pieces, List.Forall₂ Matches toks pieces ∧ s = pieces.flatten ++ rest ∧
      f' = f.setAll toks pieces := by
  induction toks generalizing f s with
  | nil =>
      obtain ⟨rfl, rfl⟩ := Prod.mk.inj (Option.some.inj h)
      exact ⟨[], .nil, rfl, rfl⟩
  | cons tok toks ih =>
      rw [Fields.readAll] at h
      obtain ⟨⟨f₁, s₁⟩, hread, hmore⟩ := Option.bind_eq_some_iff.1 h
      obtain ⟨pieces, hmatched, hcut, hvalues⟩ := ih hmore
      cases tok with
      | field k =>
          obtain ⟨⟨v, s₂⟩, htaken, heq⟩ := Option.bind_eq_some_iff.1 hread
          obtain ⟨rfl, rfl⟩ := Prod.mk.inj (Option.some.inj heq)
          unfold takeInt at htaken
          split at htaken
          · rename_i hok
            obtain ⟨rfl, rfl⟩ := Prod.mk.inj (Option.some.inj htaken)
            refine ⟨s.take k.width :: pieces, .cons ⟨?_, hok.2⟩ hmatched, ?_, hvalues⟩
            · rw [List.length_take, Nat.min_eq_left hok.1]
            · rw [List.flatten_cons, List.append_assoc, ← hcut, List.take_append_drop]
          · exact absurd htaken (by simp)
      | literal c =>
          cases s with
          | nil => exact absurd hread (by simp [Fields.read])
          | cons c' s =>
              simp only [Fields.read, ne_eq, ite_not] at hread
              split at hread
              · rename_i hsame
                obtain ⟨rfl, rfl⟩ := Prod.mk.inj (Option.some.inj hread)
                exact ⟨[c] :: pieces, .cons rfl hmatched, by simp [hsame, ← hcut], hvalues⟩
              · exact absurd hread (by simp)

/-- A text has the pieces of a format in one way. -/
theorem pieces_unique {pieces' : List (List Char)} (h : List.Forall₂ Matches toks pieces)
    (h' : List.Forall₂ Matches toks pieces') {rest rest' : List Char}
    (heq : pieces.flatten ++ rest = pieces'.flatten ++ rest') :
    pieces = pieces' ∧ rest = rest' := by
  induction h generalizing pieces' with
  | nil =>
      cases h'
      exact ⟨rfl, heq⟩
  | @cons tok piece toks pieces hone hmore ih =>
      cases h' with
      | @cons _ piece' _ pieces' hone' hmore' =>
          have hlen : piece.length = piece'.length := by
            cases tok with
            | field k => exact hone.1.trans hone'.1.symm
            | literal c =>
                obtain rfl : piece = [c] := hone
                obtain rfl : piece' = [c] := hone'
                rfl
          rw [List.flatten_cons, List.flatten_cons, List.append_assoc, List.append_assoc] at heq
          obtain ⟨hsame, htails⟩ := List.append_inj heq hlen
          obtain ⟨rfl, rfl⟩ := ih hmore' htails
          exact ⟨by rw [hsame], rfl⟩

/-! ### What is written -/

/-- Every field has as many digits as its token. -/
def Fields.Fit (f : Fields) : Prop := ∀ k, 0 ≤ f k ∧ f k < 10 ^ k.width

theorem padInt_natCast (n width : Nat) : padInt n width = zeroPadded width n := by
  have hpositive : ¬(n : Int) < 0 := by omega
  simp only [padInt, hpositive, if_false, Int.toNat_natCast, zeroPadded]

theorem matches_write (hfit : f.Fit) (tok : Token) : Matches tok (f.write tok) := by
  cases tok with
  | field k =>
      obtain ⟨n, heq⟩ := Int.eq_ofNat_of_zero_le (hfit k).1
      have hsmall := (hfit k).2
      rw [heq] at hsmall
      change (padInt (f k) k.width).length = k.width ∧ _
      rw [Fields.write, heq, padInt_natCast]
      exact ⟨length_zeroPadded (width_pos k) (by exact_mod_cast hsmall),
        all_isDigit_zeroPadded _ _⟩
  | literal c => rfl

theorem forall₂_write (hfit : f.Fit) (toks : List Token) :
    List.Forall₂ Matches toks (toks.map f.write) := by
  induction toks with
  | nil => exact .nil
  | cons tok toks ih => exact .cons (matches_write hfit tok) ih

/-- The fields are what the pieces of a text say. -/
def Agrees (f : Fields) (toks : List Token) (pieces : List (List Char)) : Prop :=
  List.Forall₂ (fun tok piece => ∀ k, tok = .field k → f k = digitsValue piece) toks pieces

/-- A text that agrees with the fields is the one written from them. -/
theorem map_write_of_agrees (h : List.Forall₂ Matches toks pieces)
    (hagrees : Agrees f toks pieces) : toks.map f.write = pieces := by
  induction h with
  | nil => rfl
  | @cons tok piece toks pieces hone hmore ih =>
      cases hagrees with
      | cons hvalue hvalues =>
          rw [List.map_cons, ih hvalues]
          congr 1
          cases tok with
          | field k =>
              obtain ⟨hlen, hdigits⟩ := hone
              have hne : piece ≠ [] := by
                rintro rfl
                exact absurd hlen (width_pos k).ne
              rw [Fields.write, hvalue k rfl, padInt_natCast, ← hlen,
                zeroPadded_digitsValue hne hdigits]
          | literal c => exact hone.symm

theorem agrees_write (hfit : f.Fit) (toks : List Token) : Agrees f toks (toks.map f.write) := by
  induction toks with
  | nil => exact .nil
  | cons tok toks ih =>
      refine .cons (fun k heq => ?_) ih
      obtain ⟨n, hvalue⟩ := Int.eq_ofNat_of_zero_le (hfit k).1
      rw [heq, Fields.write, hvalue, padInt_natCast, digitsValue_zeroPadded]

theorem setAll_of_agrees {g : Fields} (hagrees : Agrees g toks pieces) (f : Fields) :
    f.setAll toks pieces = fun k => if .field k ∈ toks then g k else f k := by
  induction hagrees generalizing f with
  | nil => simp [Fields.setAll]
  | @cons tok piece toks pieces hvalue hvalues ih =>
      cases tok with
      | field k =>
          rw [Fields.setAll, ih]
          funext k'
          by_cases hsame : k' = k
          · subst hsame
            simp [hvalue k' rfl]
          · simp [hsame]
      | literal c =>
          rw [Fields.setAll, ih]
          funext k'
          simp

/-! ### Fields of a time -/

/-- The fields are a date of the calendar and a time of the day. -/
def Fields.Real (f : Fields) : Prop :=
  RealDate (f .yyyy) (f .MM).toNat (f .dd).toNat ∧ (0 ≤ f .HH ∧ f .HH < 24) ∧
    (0 ≤ f .mm ∧ f .mm < 60) ∧ 0 ≤ f .ss ∧ f .ss < 60

theorem fieldsOf_clock (ms : Int) :
    fieldsOf ms .HH = ms % 86400000 / 3600000 ∧
      fieldsOf ms .mm = ms % 86400000 / 60000 % 60 ∧
      fieldsOf ms .ss = ms % 86400000 / 1000 % 60 := by
  have htod : ms - ms / 86400000 * 86400000 = ms % 86400000 := by omega
  have hpositive : 0 ≤ ms % 86400000 := by omega
  unfold fieldsOf
  simp only [floordiv_day, htod]
  rw [Int.tdiv_eq_ediv_of_nonneg hpositive, Int.tdiv_eq_ediv_of_nonneg hpositive,
    Int.tdiv_eq_ediv_of_nonneg hpositive, Int.tmod_eq_emod_of_nonneg (by omega),
    Int.tmod_eq_emod_of_nonneg (by omega)]
  exact ⟨rfl, rfl, rfl⟩

theorem fieldsOf_date (ms : Int) :
    fieldsOf ms .yyyy = (civilFromDays (ms / 86400000)).y ∧
      fieldsOf ms .MM = (civilFromDays (ms / 86400000)).m ∧
      fieldsOf ms .dd = (civilFromDays (ms / 86400000)).d := by
  rw [← floordiv_day]
  exact ⟨rfl, rfl, rfl⟩

theorem real_fieldsOf (ms : Int) : (fieldsOf ms).Real := by
  obtain ⟨hyear, hmonth, hday⟩ := fieldsOf_date ms
  obtain ⟨hour, hminute, hsecond⟩ := fieldsOf_clock ms
  unfold Fields.Real
  rw [hyear, hmonth, hday, hour, hminute, hsecond]
  exact ⟨(daysFromCivil_civilFromDays _).1, by omega, by omega, by omega⟩

/-- Reading the fields of a time as a time cuts it to the second. -/
theorem time_fieldsOf (ms : Int) : (fieldsOf ms).time = ms / 1000 * 1000 := by
  obtain ⟨hyear, hmonth, hday⟩ := fieldsOf_date ms
  obtain ⟨hour, hminute, hsecond⟩ := fieldsOf_clock ms
  obtain ⟨hreal, hinverse⟩ := daysFromCivil_civilFromDays (ms / 86400000)
  have hmonthSmall := hreal.2.1
  have hdaySmall := hreal.2.2.2.trans (daysInMonth_le _ _)
  unfold Fields.time
  rw [hyear, hmonth, hday, hour, hminute, hsecond, u32_eq rfl (by omega), u32_eq rfl (by omega),
    hinverse]
  omega

theorem fieldsOf_time (hreal : f.Real) : fieldsOf f.time = f := by
  obtain ⟨hdate, hour, hminute, hsecond⟩ := hreal
  have hm : u32 (f .MM) = (f .MM).toNat := by
    have := hdate.1
    have := hdate.2.1
    exact u32_eq (by omega) (by omega)
  have hd : u32 (f .dd) = (f .dd).toNat := by
    have := hdate.2.2.1
    have := hdate.2.2.2.trans (daysInMonth_le _ _)
    exact u32_eq (by omega) (by omega)
  have hdays : f.time / 86400000 = daysFromCivil (f .yyyy) (f .MM).toNat (f .dd).toNat := by
    unfold Fields.time
    rw [hm, hd]
    omega
  have htod : f.time % 86400000 = f .HH * 3600000 + f .mm * 60000 + f .ss * 1000 := by
    unfold Fields.time
    omega
  obtain ⟨hyear, hmonth, hday⟩ := fieldsOf_date f.time
  obtain ⟨hour', hminute', hsecond'⟩ := fieldsOf_clock f.time
  rw [hdays, civilFromDays_daysFromCivil hdate] at hyear hmonth hday
  rw [htod] at hour' hminute' hsecond'
  have hpositive := hdate.1
  have hpositive' := hdate.2.2.1
  funext k
  cases k with
  | yyyy => exact hyear
  | MM => exact hmonth.trans (Int.toNat_of_nonneg (by omega))
  | dd => exact hday.trans (Int.toNat_of_nonneg (by omega))
  | HH => rw [hour']; omega
  | mm => rw [hminute']; omega
  | ss => rw [hsecond']; omega

/-! ## Reading what was written -/

/-- The times whose year has four digits. -/
def InYears (ms : Int) : Prop := 0 ≤ fieldsOf ms .yyyy ∧ fieldsOf ms .yyyy ≤ 9999

theorem fit_fieldsOf {ms : Int} (h : InYears ms) : (fieldsOf ms).Fit := by
  obtain ⟨⟨-, hmonth, -, hday⟩, hour, hminute, hsecond⟩ := real_fieldsOf ms
  have hshort := hday.trans (daysInMonth_le _ _)
  have hnumbers := fieldsOf_date ms
  intro k
  cases k with
  | yyyy => exact ⟨h.1, by have := h.2; change _ < 10 ^ 4; omega⟩
  | MM => change _ ∧ _ < 10 ^ 2; omega
  | dd => change _ ∧ _ < 10 ^ 2; omega
  | HH => change _ ∧ _ < 10 ^ 2; omega
  | mm => change _ ∧ _ < 10 ^ 2; omega
  | ss => change _ ∧ _ < 10 ^ 2; omega

theorem formatTimestamp_eq (ms : Int) (fmt : List Char) :
    formatTimestamp ms fmt = ((tokens fmt).map (fieldsOf ms).write).flatten ++ [] := by
  rw [List.append_nil, formatTimestamp, List.flatMap_def]

variable {k : Field} {fmt : List Char}

private theorem infix_of_append {l : List Char} (hother : ∀ c ∈ l, c ∉ k.name)
    (h : k.name <:+: l ++ fmt) : k.name <:+: fmt := by
  induction l with
  | nil => exact h
  | cons c l ih =>
      rcases List.infix_cons_iff.1 h with ⟨rest, heq⟩ | hlater
      · have hinside : c ∈ k.name := by
          cases k <;> exact (List.cons.inj heq).1 ▸ List.mem_cons_self
        exact absurd hinside (hother c List.mem_cons_self)
      · exact ih (fun c' hmem => hother c' (List.mem_cons_of_mem _ hmem)) hlater

theorem mem_behind (k' : Field) (h : k.name <:+: k'.name ++ fmt)
    (ih : k.name <:+: fmt → .field k ∈ tokens fmt) : .field k ∈ .field k' :: tokens fmt := by
  by_cases hsame : k = k'
  · exact hsame ▸ List.mem_cons_self
  · have hother : ∀ c ∈ k'.name, c ∉ k.name := by
      cases k <;> cases k' <;> simp [Field.name] at hsame ⊢
    exact List.mem_cons_of_mem _ (ih (infix_of_append hother h))

theorem field_mem_tokens (h : k.name <:+: fmt) : .field k ∈ tokens fmt := by
  fun_induction tokens fmt with
  | case1 fmt ih => exact mem_behind .yyyy h ih
  | case2 fmt ih => exact mem_behind .MM h ih
  | case3 fmt ih => exact mem_behind .dd h ih
  | case4 fmt ih => exact mem_behind .HH h ih
  | case5 fmt ih => exact mem_behind .mm h ih
  | case6 fmt ih => exact mem_behind .ss h ih
  | case7 c fmt hyyyy hMM hdd hHH hmm hss ih =>
      rcases List.infix_cons_iff.1 h with ⟨rest, heq⟩ | hlater
      · obtain ⟨hhead, htail⟩ : k.name.head? = some c ∧ k.name.tail ++ rest = fmt := by
          cases k <;> exact ⟨congrArg some (List.cons.inj heq).1, (List.cons.inj heq).2⟩
        subst htail
        cases k with
        | yyyy => exact (hyyyy rest (Option.some.inj hhead).symm rfl).elim
        | MM => exact (hMM rest (Option.some.inj hhead).symm rfl).elim
        | dd => exact (hdd rest (Option.some.inj hhead).symm rfl).elim
        | HH => exact (hHH rest (Option.some.inj hhead).symm rfl).elim
        | mm => exact (hmm rest (Option.some.inj hhead).symm rfl).elim
        | ss => exact (hss rest (Option.some.inj hhead).symm rfl).elim
      · exact List.mem_cons_of_mem _ (ih hlater)
  | case8 => cases k <;> simp [Field.name] at h

theorem parse_format {ms : Int} (hyears : InYears ms) (hnamed : ∀ k : Field, k.name <:+: fmt) :
    parseTimestamp (formatTimestamp ms fmt) fmt = some (ms / 1000 * 1000) := by
  have hfit := fit_fieldsOf hyears
  have hall : (fun k => if .field k ∈ tokens fmt then fieldsOf ms k else Fields.initial k) =
      fieldsOf ms := by
    funext k
    rw [if_pos (field_mem_tokens (hnamed k))]
  rw [parseTimestamp, formatTimestamp_eq, readAll_pieces (forall₂_write hfit _),
    setAll_of_agrees (agrees_write hfit _), hall]
  change some (fieldsOf ms).time = _
  rw [time_fieldsOf]

/-! ## The texts that are written back -/

/-- A text that begins as the format asks is no longer than that, and its numbers are a date
of the calendar and a time of the day. -/
def Sound (s fmt : List Char) : Prop :=
  ∀ pieces rest, List.Forall₂ Matches (tokens fmt) pieces → s = pieces.flatten ++ rest →
    rest = [] ∧ ∃ f : Fields, f.Real ∧ Agrees f (tokens fmt) pieces ∧
      ∀ k, .field k ∉ tokens fmt → f k = Fields.initial k

theorem twentyEight_le_daysInMonth (y : Int) (m : Nat) : 28 ≤ daysInMonth y m := by
  unfold daysInMonth
  split
  · split <;> omega
  · omega
  · omega
  · omega
  · omega
  · omega

theorem daysFromCivil_overflow {y : Int} (hm : 1 ≤ m ∧ m ≤ 12) (hd : daysInMonth y m < d ∧ d ≤ 31) :
    m < 12 ∧ daysFromCivil y m d = daysFromCivil y (m + 1) (d - daysInMonth y m) := by
  have hshort : m = 2 ∨ m = 4 ∨ m = 6 ∨ m = 9 ∨ m = 11 := by
    by_contra hlong
    have hdays : daysInMonth y m = 31 := by
      unfold daysInMonth
      split <;> simp_all
    omega
  have hleast := twentyEight_le_daysInMonth y m
  refine ⟨by omega, ?_⟩
  rw [daysFromCivil_eq hm ⟨by omega, hd.2⟩,
    daysFromCivil_eq ⟨by omega, by omega⟩ ⟨by omega, by omega⟩]
  unfold dayOfYear
  rcases hshort with rfl | hothers
  · -- the year that begins in March changes
    have hlast : monthStart (sinceMarch 2) = 337 := rfl
    have hfirst : monthStart (sinceMarch (2 + 1)) = 0 := rfl
    have hbefore : marchYear y 2 = y - 1 := rfl
    have hafter : marchYear y (2 + 1) = y := by simp [marchYear]
    have hdays : daysInMonth y 2 = if isLeap y then 29 else 28 := rfl
    have hbegins := yearStart_pred y
    rw [hlast, hfirst, hbefore, hafter]
    rw [hdays] at hd ⊢
    split at hd
    · rename_i hleap
      rw [if_pos hleap] at hbegins ⊢
      omega
    · rename_i hplain
      rw [if_neg hplain] at hbegins ⊢
      omega
  · have hdays : daysInMonth y m = 30 := by
      rcases hothers with rfl | rfl | rfl | rfl <;> rfl
    have hnext : monthStart (sinceMarch (m + 1)) = monthStart (sinceMarch m) + 30 := by
      rcases hothers with rfl | rfl | rfl | rfl <;> rfl
    have hsame : marchYear y (m + 1) = marchYear y m := by
      rcases hothers with rfl | rfl | rfl | rfl <;> simp [marchYear]
    rw [hdays, hnext, hsame]
    omega

/-- Fields that are those of their own time, where the format does not leave them open, are
a date and a time. -/
theorem real_of_written (h : ∀ k, f k = fieldsOf f.time k ∨ f k = Fields.initial k) : f.Real := by
  obtain ⟨⟨hm1, hm2, hd1, hd2⟩, hour, hminute, hsecond⟩ := real_fieldsOf f.time
  have hd3 := hd2.trans (daysInMonth_le _ _)
  have hmonth : 1 ≤ f .MM ∧ f .MM ≤ 12 := by
    rcases h .MM with heq | heq <;> rw [heq]
    · omega
    · exact ⟨le_rfl, by decide⟩
  have hday : 1 ≤ f .dd ∧ f .dd ≤ 31 := by
    rcases h .dd with heq | heq <;> rw [heq]
    · omega
    · exact ⟨le_rfl, by decide⟩
  have hclock : (0 ≤ f .HH ∧ f .HH < 24) ∧ (0 ≤ f .mm ∧ f .mm < 60) ∧ 0 ≤ f .ss ∧ f .ss < 60 := by
    refine ⟨?_, ?_, ?_⟩
    · rcases h .HH with heq | heq <;> rw [heq]
      · exact hour
      · decide
    · rcases h .mm with heq | heq <;> rw [heq]
      · exact hminute
      · decide
    · rcases h .ss with heq | heq <;> rw [heq]
      · exact hsecond
      · decide
  refine ⟨⟨by omega, by omega, by omega, ?_⟩, hclock⟩
  by_contra hpast
  -- the day is in the next month, where its number is another one
  obtain ⟨hearly, hmoved⟩ := daysFromCivil_overflow
    (show 1 ≤ (f .MM).toNat ∧ (f .MM).toNat ≤ 12 by omega)
    (show daysInMonth (f .yyyy) (f .MM).toNat < (f .dd).toNat ∧ (f .dd).toNat ≤ 31 by omega)
  have hleast := twentyEight_le_daysInMonth (f .yyyy) (f .MM).toNat
  have hleast' := twentyEight_le_daysInMonth (f .yyyy) ((f .MM).toNat + 1)
  have hreal : RealDate (f .yyyy) ((f .MM).toNat + 1)
      ((f .dd).toNat - daysInMonth (f .yyyy) (f .MM).toNat) :=
    ⟨by omega, by omega, by omega, by omega⟩
  have hdays : f.time / 86400000 = daysFromCivil (f .yyyy) (f .MM).toNat (f .dd).toNat := by
    unfold Fields.time
    rw [u32_eq (show f .MM = (f .MM).toNat by omega) (by omega),
      u32_eq (show f .dd = (f .dd).toNat by omega) (by omega)]
    omega
  have hshown : fieldsOf f.time .dd = (f .dd).toNat - daysInMonth (f .yyyy) (f .MM).toNat := by
    rw [(fieldsOf_date f.time).2.2, hdays, hmoved, civilFromDays_daysFromCivil hreal]
    change (((f .dd).toNat - daysInMonth (f .yyyy) (f .MM).toNat : Nat) : Int) = _
    omega
  rcases h .dd with heq | heq
  · omega
  · change f .dd = 1 at heq
    omega

private theorem agrees_congr {g : Fields} (hagrees : Agrees g toks pieces)
    (hsame : ∀ k, .field k ∈ toks → f k = g k) : Agrees f toks pieces := by
  induction hagrees with
  | nil => exact .nil
  | cons hvalue hvalues ih =>
      refine .cons (fun k heq => ?_) (ih fun k hmem => hsame k (List.mem_cons_of_mem _ hmem))
      rw [hsame k (heq ▸ List.mem_cons_self), hvalue k heq]

/-- A number that was read has the digits of its token. -/
theorem named_fits (h : List.Forall₂ Matches toks pieces) (hagrees : Agrees f toks pieces)
    (hnamed : .field k ∈ toks) : 0 ≤ f k ∧ f k < 10 ^ k.width := by
  induction h with
  | nil => exact absurd hnamed List.not_mem_nil
  | @cons tok piece toks pieces hone hmore ih =>
      cases hagrees with
      | cons hvalue hvalues =>
          rcases List.mem_cons.1 hnamed with rfl | hlater
          · obtain ⟨hlen, hdigits⟩ := hone
            have hsmall := digitsValue_lt piece hdigits
            rw [hlen] at hsmall
            rw [hvalue k rfl]
            exact ⟨Int.natCast_nonneg _, by exact_mod_cast hsmall⟩
          · exact ih hvalues hlater

/-- The texts that are written back as they were read. -/
theorem parsed_text_iff (s fmt : List Char) :
    (∀ t, parseTimestamp s fmt = some t → InYears t ∧ formatTimestamp t fmt = s) ↔
      Sound s fmt := by
  constructor
  · intro hback pieces rest hmatched hcut
    have hread := readAll_pieces hmatched Fields.initial rest
    generalize hf : Fields.initial.setAll (tokens fmt) pieces = f at hread
    obtain ⟨hyears, hwritten⟩ := hback f.time (by rw [parseTimestamp, hcut, hread]; rfl)
    have hfit := fit_fieldsOf hyears
    rw [formatTimestamp_eq, hcut] at hwritten
    obtain ⟨hsame, rfl⟩ := pieces_unique (forall₂_write hfit _) hmatched hwritten
    have hagrees : Agrees (fieldsOf f.time) (tokens fmt) pieces := hsame ▸ agrees_write hfit _
    rw [setAll_of_agrees hagrees] at hf
    have hnamed : ∀ k, .field k ∈ tokens fmt → f k = fieldsOf f.time k := fun k hmem => by
      have hvalue := congrFun hf k
      rw [if_pos hmem] at hvalue
      exact hvalue.symm
    have hunnamed : ∀ k, .field k ∉ tokens fmt → f k = Fields.initial k := fun k hfree => by
      have hvalue := congrFun hf k
      rw [if_neg hfree] at hvalue
      exact hvalue.symm
    refine ⟨rfl, f, real_of_written fun k => ?_, agrees_congr hagrees hnamed, hunnamed⟩
    by_cases hmem : .field k ∈ tokens fmt
    · exact .inl (hnamed k hmem)
    · exact .inr (hunnamed k hmem)
  · intro hsound t hparsed
    obtain ⟨⟨f, rest⟩, hread, htime⟩ := Option.bind_eq_some_iff.1 hparsed
    obtain ⟨pieces, hmatched, hcut, hvalues⟩ := exists_pieces hread
    obtain ⟨rfl, g, hreal, hagrees, hunnamed⟩ := hsound pieces rest hmatched hcut
    rw [setAll_of_agrees hagrees] at hvalues
    have hsame : f = g := by
      rw [hvalues]
      funext k
      split
      · rfl
      · rename_i hfree
        exact (hunnamed k hfree).symm
    subst hsame
    obtain rfl : f.time = t := Option.some.inj htime
    have hfields := fieldsOf_time hreal
    refine ⟨?_, ?_⟩
    · unfold InYears
      rw [hfields]
      by_cases hmem : .field .yyyy ∈ tokens fmt
      · obtain ⟨hlow, hhigh⟩ := named_fits hmatched hagrees hmem
        change f .yyyy < 10 ^ 4 at hhigh
        omega
      · rw [hunnamed .yyyy hmem]
        decide
    · rw [formatTimestamp_eq, hfields, map_write_of_agrees hmatched hagrees, hcut]

/-- Timestamps as text: what is written from a time with a year of four digits, in a format
that names every field, is read back as its second; a text is the one of the time it is read
as exactly when it is sound; and days and dates are converted into each other. -/
theorem timestamps_roundTrip (s fmt : List Char) :
    (∀ ms : Int, InYears ms → (∀ k : Field, k.name <:+: fmt) →
      parseTimestamp (formatTimestamp ms fmt) fmt = some (ms / 1000 * 1000)) ∧
    ((∀ t, parseTimestamp s fmt = some t → InYears t ∧ formatTimestamp t fmt = s) ↔
      Sound s fmt) ∧
    (∀ z : Int, RealDate (civilFromDays z).y (civilFromDays z).m (civilFromDays z).d ∧
      daysFromCivil (civilFromDays z).y (civilFromDays z).m (civilFromDays z).d = z) ∧
    ∀ (y : Int) (m d : Nat), RealDate y m d →
      civilFromDays (daysFromCivil y m d) = ⟨y, m, d⟩ :=
  ⟨fun _ hyears hnamed => parse_format hyears hnamed, parsed_text_iff s fmt,
    daysFromCivil_civilFromDays, fun _ _ _ hreal => civilFromDays_daysFromCivil hreal⟩

/-- The thirtieth of February is read, as the first of March. -/
theorem february_thirtieth_read :
    parseTimestamp "2024-02-30".toList "yyyy-MM-dd".toList = some 1709251200000 ∧
      formatTimestamp 1709251200000 "yyyy-MM-dd".toList = "2024-03-01".toList ∧
      ¬∀ (s fmt : List Char) (t : Int), parseTimestamp s fmt = some t →
        formatTimestamp t fmt = s := by
  have hread : parseTimestamp "2024-02-30".toList "yyyy-MM-dd".toList = some 1709251200000 := by
    decide +kernel
  have hshown : formatTimestamp 1709251200000 "yyyy-MM-dd".toList = "2024-03-01".toList := by
    decide +kernel
  refine ⟨hread, hshown, fun hall => ?_⟩
  have hsame := hall _ _ _ hread
  rw [hshown] at hsame
  exact absurd hsame (by decide)

end Clink.Ports.Timestamps

import Clink.Verified.Text
import Clink.Verified.Utf8

/-!
# Strict JSON texts

A reader of the RFC 8259 grammar over bytes: blanks, the three words, numbers,
strings with their escapes, arrays and objects, with no trailing comma, no leading
zero, no raw control byte in a string and nothing but blanks behind the value.  A
text that is not UTF-8 is refused as a whole.  A number stays the token it was
written as, with its kind: whether the token is an integer or has a fraction or an
exponent.  The members of an object stay in the order of the text, duplicates
included.

The rules behind the reader say what each production reads off the front of a text,
so that a printer is proved inverse to it by one induction over what it prints.
-/

namespace Clink.Verified.StrictJson

abbrev Bytes := List UInt8

/-- The bytes of an ASCII text. -/
def ascii (text : String) : Bytes := text.toList.map Char.toUInt8

/-- What a text denotes, before any reading of its numbers. -/
inductive Element where
  | null
  | bool (b : Bool)
  | number (token : Bytes)
  | string (s : Bytes)
  | array (items : List Element)
  | object (members : List (Bytes × Element))

/-! ## Bytes of the grammar -/

def quote : UInt8 := 0x22
def backslash : UInt8 := 0x5C
def comma : UInt8 := 0x2C
def colon : UInt8 := 0x3A
def openBracket : UInt8 := 0x5B
def closeBracket : UInt8 := 0x5D
def openBrace : UInt8 := 0x7B
def closeBrace : UInt8 := 0x7D
def minus : UInt8 := 0x2D
def point : UInt8 := 0x2E

/-- Space, tab, line feed and carriage return. -/
def isBlank (b : UInt8) : Bool := b == 0x20 || b == 0x09 || b == 0x0A || b == 0x0D

def isDigit (b : UInt8) : Bool := 0x30 ≤ b && b ≤ 0x39

/-- The bytes a number token is made of: digits, signs, the point and the exponent letters. -/
def isNumberByte (b : UInt8) : Bool :=
  isDigit b || b == minus || b == 0x2B || b == point || b == 0x65 || b == 0x45

def skipBlanks (text : Bytes) : Bytes := text.dropWhile isBlank

/-! ## Numbers -/

inductive NumberKind where
  | integer
  | fractional
  deriving DecidableEq, Repr

/-- What follows a non-empty run of digits. -/
def digits : Bytes → Option Bytes
  | [] => none
  | d :: rest => if isDigit d then some (rest.dropWhile isDigit) else none

/-- What follows the integer part, a zero alone or a run of digits with no leading zero. -/
def integerPart : Bytes → Option Bytes
  | [] => none
  | d :: rest => if d = 0x30 then some rest else digits (d :: rest)

def fraction : Bytes → Option Bytes
  | [] => some []
  | b :: rest => if b = point then digits rest else some (b :: rest)

/-- An exponent sign that may be left out. -/
def exponentSign : Bytes → Bytes
  | [] => []
  | b :: rest => if b = minus ∨ b = 0x2B then rest else b :: rest

def exponent : Bytes → Option Bytes
  | [] => some []
  | b :: rest => if b = 0x65 ∨ b = 0x45 then digits (exponentSign rest) else some (b :: rest)

def magnitude : Bytes → Bytes
  | [] => []
  | b :: rest => if b = minus then rest else b :: rest

/-- The kind of a token that is a number of the grammar. -/
def numberKind (token : Bytes) : Option NumberKind :=
  match integerPart (magnitude token) with
  | none => none
  | some [] => some .integer
  | some (b :: rest) =>
      match (fraction (b :: rest)).bind exponent with
      | some [] => some .fractional
      | _ => none

/-- The value of an integer token. -/
def integerValue (token : Bytes) : Int :=
  let value : Nat := Nat.ofDigitChars 10 ((magnitude token).map fun b => Char.ofNat b.toNat) 0
  if token.head? = some minus then -value else value

/-- An integer, printed in full. -/
def integerToken (n : Int) : Bytes :=
  (if n < 0 then [minus] else []) ++ (decimal n.natAbs).map Char.toUInt8

/-! ## Strings -/

def hexValue (b : UInt8) : Option Nat :=
  if isDigit b then some (b.toNat - 0x30)
  else if 0x61 ≤ b ∧ b ≤ 0x66 then some (b.toNat - 0x57)
  else if 0x41 ≤ b ∧ b ≤ 0x46 then some (b.toNat - 0x37)
  else none

def hex4 (a b c d : UInt8) : Option Nat :=
  match hexValue a, hexValue b, hexValue c, hexValue d with
  | some a, some b, some c, some d => some (((a * 16 + b) * 16 + c) * 16 + d)
  | _, _, _, _ => none

/-- A code point in UTF-8. -/
def encodePoint (code : Nat) : Bytes :=
  if code < 0x80 then [UInt8.ofNat code]
  else if code < 0x800 then [UInt8.ofNat (0xC0 + code / 0x40), UInt8.ofNat (0x80 + code % 0x40)]
  else if code < 0x10000 then
    [UInt8.ofNat (0xE0 + code / 0x1000), UInt8.ofNat (0x80 + code / 0x40 % 0x40),
      UInt8.ofNat (0x80 + code % 0x40)]
  else
    [UInt8.ofNat (0xF0 + code / 0x40000), UInt8.ofNat (0x80 + code / 0x1000 % 0x40),
      UInt8.ofNat (0x80 + code / 0x40 % 0x40), UInt8.ofNat (0x80 + code % 0x40)]

/-- The byte behind a backslash, other than `u`. -/
def shortEscape (b : UInt8) : Option UInt8 :=
  if b = quote ∨ b = backslash ∨ b = 0x2F then some b
  else if b = 0x62 then some 0x08
  else if b = 0x66 then some 0x0C
  else if b = 0x6E then some 0x0A
  else if b = 0x72 then some 0x0D
  else if b = 0x74 then some 0x09
  else none

/-- Bytes in front of a string that was read. -/
def prepend (front : Bytes) (read : Option (Bytes × Bytes)) : Option (Bytes × Bytes) :=
  read.map fun p => (front ++ p.1, p.2)

def isHighSurrogate (code : Nat) : Bool := 0xD800 ≤ code && code < 0xDC00
def isLowSurrogate (code : Nat) : Bool := 0xDC00 ≤ code && code < 0xE000

/-- A string from behind its opening quote, with what follows its closing one. -/
def readString : Bytes → Option (Bytes × Bytes)
  | [] => none
  | b :: rest =>
      if b = quote then some ([], rest)
      else if b = backslash then
        match rest with
        | [] => none
        | e :: rest =>
            if e = 0x75 then
              match rest with
              | h1 :: h2 :: h3 :: h4 :: rest =>
                  match hex4 h1 h2 h3 h4 with
                  | none => none
                  | some code =>
                      if isHighSurrogate code then
                        -- a pair of escapes is one code point; half a pair is none
                        match rest with
                        | s :: u :: l1 :: l2 :: l3 :: l4 :: rest =>
                            match hex4 l1 l2 l3 l4 with
                            | none => none
                            | some low =>
                                if s = backslash ∧ u = 0x75 ∧ isLowSurrogate low then
                                  prepend (encodePoint
                                    (0x10000 + (code - 0xD800) * 0x400 + (low - 0xDC00)))
                                    (readString rest)
                                else none
                        | _ => none
                      else if isLowSurrogate code then none
                      else prepend (encodePoint code) (readString rest)
              | _ => none
            else
              match shortEscape e with
              | none => none
              | some c => prepend [c] (readString rest)
      else if b < 0x20 then none
      else prepend [b] (readString rest)

/-! ## Values -/

/-- One of the three words. -/
def readWord (text : Bytes) : Option (Element × Bytes) :=
  if ascii "null" <+: text then some (.null, text.drop 4)
  else if ascii "true" <+: text then some (.bool true, text.drop 4)
  else if ascii "false" <+: text then some (.bool false, text.drop 5)
  else none

def readNumber (text : Bytes) : Option (Element × Bytes) :=
  let token := text.takeWhile isNumberByte
  if (numberKind token).isSome then some (.number token, text.dropWhile isNumberByte) else none

mutual

/-- The value at the front of a text. -/
def readValue : Nat → Bytes → Option (Element × Bytes)
  | 0, _ => none
  | fuel + 1, text =>
      match skipBlanks text with
      | [] => none
      | b :: rest =>
          if b = quote then
            match readString rest with
            | none => none
            | some (s, rest) => some (.string s, rest)
          else if b = openBracket then
            match skipBlanks rest with
            | [] => none
            | c :: more =>
                if c = closeBracket then some (.array [], more)
                else
                  match readItems fuel (c :: more) with
                  | none => none
                  | some (items, rest) => some (.array items, rest)
          else if b = openBrace then
            match skipBlanks rest with
            | [] => none
            | c :: more =>
                if c = closeBrace then some (.object [], more)
                else
                  match readMembers fuel (c :: more) with
                  | none => none
                  | some (members, rest) => some (.object members, rest)
          else if isNumberByte b then readNumber (b :: rest)
          else readWord (b :: rest)

/-- The items of an array up to its closing bracket. -/
def readItems : Nat → Bytes → Option (List Element × Bytes)
  | 0, _ => none
  | fuel + 1, text =>
      match readValue fuel text with
      | none => none
      | some (item, rest) =>
          match skipBlanks rest with
          | [] => none
          | c :: more =>
              if c = closeBracket then some ([item], more)
              else if c = comma then
                match readItems fuel more with
                | none => none
                | some (items, rest) => some (item :: items, rest)
              else none

/-- The members of an object up to its closing brace. -/
def readMembers : Nat → Bytes → Option (List (Bytes × Element) × Bytes)
  | 0, _ => none
  | fuel + 1, text =>
      match skipBlanks text with
      | [] => none
      | q :: rest =>
          if q = quote then
            match readString rest with
            | none => none
            | some (key, rest) =>
                match skipBlanks rest with
                | [] => none
                | s :: rest =>
                    if s = colon then
                      match readValue fuel rest with
                      | none => none
                      | some (value, rest) =>
                          match skipBlanks rest with
                          | [] => none
                          | c :: more =>
                              if c = closeBrace then some ([(key, value)], more)
                              else if c = comma then
                                match readMembers fuel more with
                                | none => none
                                | some (members, rest) => some ((key, value) :: members, rest)
                              else none
                    else none
          else none

end

/-- The one value of a text in UTF-8.  A value has no more parts than its text has bytes. -/
def parse (text : Bytes) : Option Element :=
  if Utf8.Valid text then
    match readValue (text.length + 1) text with
    | none => none
    | some (value, rest) => if skipBlanks rest = [] then some value else none
  else none

/-! ## Rules for blanks and strings -/

variable {b : UInt8}

theorem skipBlanks_cons (h : isBlank b = false) (rest : Bytes) :
    skipBlanks (b :: rest) = b :: rest := by
  simp [skipBlanks, h]

theorem readString_quote (rest : Bytes) : readString (quote :: rest) = some ([], rest) := by
  rw [readString.eq_def]
  simp

theorem readString_raw (hquote : b ≠ quote) (hback : b ≠ backslash) (hb : ¬ b < 0x20)
    (rest : Bytes) : readString (b :: rest) = prepend [b] (readString rest) := by
  rw [readString.eq_def]
  simp only [if_neg hquote, if_neg hback, if_neg hb]

theorem readString_short {e c : UInt8} (h : shortEscape e = some c) (hu : e ≠ 0x75)
    (rest : Bytes) : readString (backslash :: e :: rest) = prepend [c] (readString rest) := by
  rw [readString.eq_def]
  simp only [if_neg (show backslash ≠ quote by decide), if_pos, if_neg hu, h]

theorem readString_unicode {h1 h2 h3 h4 : UInt8} {code : Nat} (h : hex4 h1 h2 h3 h4 = some code)
    (hhigh : isHighSurrogate code = false) (hlow : isLowSurrogate code = false) (rest : Bytes) :
    readString (backslash :: 0x75 :: h1 :: h2 :: h3 :: h4 :: rest)
      = prepend (encodePoint code) (readString rest) := by
  rw [readString.eq_def]
  simp [show backslash ≠ quote by decide, h, hhigh, hlow]

/-- Codes read one by one are read in a row, up to the closing quote. -/
theorem readString_flatMap {code : UInt8 → Bytes}
    (h : ∀ b rest, readString (code b ++ rest) = prepend [b] (readString rest))
    (s rest : Bytes) : readString (s.flatMap code ++ quote :: rest) = some (s, rest) := by
  induction s with
  | nil => exact readString_quote rest
  | cons b s ih =>
      rw [List.flatMap_cons, List.append_assoc, h, ih]
      rfl

/-! ## Rules for numbers -/

/-- `rest` is `text` without a run of bytes that numbers are made of. -/
def Consumes (text rest : Bytes) : Prop :=
  ∃ run, text = run ++ rest ∧ ∀ b ∈ run, isNumberByte b = true

theorem Consumes.refl (text : Bytes) : Consumes text text := ⟨[], rfl, by simp⟩

theorem Consumes.trans {a b c : Bytes} (hab : Consumes a b) (hbc : Consumes b c) :
    Consumes a c := by
  obtain ⟨front, rfl, hfront⟩ := hab
  obtain ⟨back, rfl, hback⟩ := hbc
  refine ⟨front ++ back, by simp, ?_⟩
  intro x hx
  rcases List.mem_append.mp hx with hx | hx
  · exact hfront x hx
  · exact hback x hx

variable {text rest : Bytes}

theorem Consumes.cons (hb : isNumberByte b = true) (h : Consumes text rest) :
    Consumes (b :: text) rest :=
  Consumes.trans ⟨[b], rfl, by simpa using hb⟩ h

theorem isNumberByte_of_isDigit (h : isDigit b = true) : isNumberByte b = true := by
  simp [isNumberByte, h]

theorem consumes_dropWhile (text : Bytes) : Consumes text (text.dropWhile isDigit) := by
  refine ⟨text.takeWhile isDigit, List.takeWhile_append_dropWhile.symm, ?_⟩
  intro b hb
  exact isNumberByte_of_isDigit (List.mem_takeWhile_imp hb)

theorem consumes_digits (h : digits text = some rest) : Consumes text rest := by
  cases text with
  | nil => simp [digits] at h
  | cons d text =>
      rw [digits] at h
      split at h
      case isTrue hd =>
        rw [Option.some.injEq] at h
        rw [← h]
        exact (consumes_dropWhile text).cons (isNumberByte_of_isDigit hd)
      case isFalse => simp at h

theorem consumes_integerPart (h : integerPart text = some rest) : Consumes text rest := by
  cases text with
  | nil => simp [integerPart] at h
  | cons d text =>
      rw [integerPart] at h
      split at h
      case isTrue hd =>
        rw [Option.some.injEq] at h
        rw [← h, hd]
        exact (Consumes.refl text).cons (by decide)
      case isFalse => exact consumes_digits h

theorem consumes_fraction (h : fraction text = some rest) : Consumes text rest := by
  cases text with
  | nil =>
      rw [fraction, Option.some.injEq] at h
      rw [← h]
      exact Consumes.refl []
  | cons b text =>
      rw [fraction] at h
      split at h
      case isTrue hb =>
        rw [hb]
        exact (consumes_digits h).cons (by decide)
      case isFalse =>
        rw [Option.some.injEq] at h
        rw [← h]
        exact Consumes.refl _

theorem consumes_exponentSign (text : Bytes) : Consumes text (exponentSign text) := by
  cases text with
  | nil => exact Consumes.refl []
  | cons b text =>
      rw [exponentSign]
      split
      case isTrue hb =>
        refine (Consumes.refl text).cons ?_
        rcases hb with rfl | rfl
        · decide
        · decide
      case isFalse => exact Consumes.refl _

theorem consumes_exponent (h : exponent text = some rest) : Consumes text rest := by
  cases text with
  | nil =>
      rw [exponent, Option.some.injEq] at h
      rw [← h]
      exact Consumes.refl []
  | cons b text =>
      rw [exponent] at h
      split at h
      case isTrue hb =>
        refine ((consumes_exponentSign text).trans (consumes_digits h)).cons ?_
        rcases hb with rfl | rfl
        · decide
        · decide
      case isFalse =>
        rw [Option.some.injEq] at h
        rw [← h]
        exact Consumes.refl _

theorem consumes_magnitude (token : Bytes) : Consumes token (magnitude token) := by
  cases token with
  | nil => exact Consumes.refl []
  | cons b token =>
      rw [magnitude]
      split
      case isTrue hb =>
        rw [hb]
        exact (Consumes.refl token).cons (by decide)
      case isFalse => exact Consumes.refl _

variable {token : Bytes}

theorem isNumberByte_of_mem_token (h : (numberKind token).isSome = true) (hb : b ∈ token) :
    isNumberByte b = true := by
  have hall : Consumes token [] := by
    refine (consumes_magnitude token).trans ?_
    rw [numberKind] at h
    split at h
    next => simp at h
    next hint => exact consumes_integerPart hint
    next c rest hint =>
      refine (consumes_integerPart hint).trans ?_
      split at h
      next hrest =>
        obtain ⟨mid, hfraction, hexponent⟩ := Option.bind_eq_some_iff.mp hrest
        exact (consumes_fraction hfraction).trans (consumes_exponent hexponent)
      next => simp at h
  obtain ⟨run, hrun, hbytes⟩ := hall
  rw [List.append_nil] at hrun
  exact hbytes b (hrun ▸ hb)

theorem token_ne_nil (h : (numberKind token).isSome = true) : token ≠ [] := by
  rintro rfl
  simp [numberKind, magnitude, integerPart] at h

/-- No byte of a number stands at the front. -/
def Ends (rest : Bytes) : Prop := ∀ b, rest.head? = some b → isNumberByte b = false

theorem ends_nil : Ends [] := by
  intro b hb
  simp at hb

theorem ends_cons (h : isNumberByte b = false) (rest : Bytes) : Ends (b :: rest) := by
  intro c hc
  rw [List.head?_cons, Option.some.injEq] at hc
  exact hc ▸ h

theorem readNumber_token (h : (numberKind token).isSome = true) (hrest : Ends rest) :
    readNumber (token ++ rest) = some (.number token, rest) := by
  have hall : ∀ b ∈ token, isNumberByte b = true := fun b hb => isNumberByte_of_mem_token h hb
  have htake : rest.takeWhile isNumberByte = [] := by
    cases rest with
    | nil => rfl
    | cons b rest => simp [hrest b rfl]
  have hdrop : rest.dropWhile isNumberByte = rest := by
    cases rest with
    | nil => rfl
    | cons b rest => simp [hrest b rfl]
  rw [readNumber, List.takeWhile_append_of_pos hall, List.dropWhile_append_of_pos hall, htake,
    hdrop, List.append_nil, if_pos h]

/-! ## Integers -/

variable {c : Char}

theorem byte_of_digit (h : c.isDigit = true) :
    48 ≤ c.toNat ∧ c.toNat ≤ 57 ∧ c.toUInt8.toNat = c.toNat := by
  obtain ⟨hlow, hhigh⟩ : 48 ≤ c.toNat ∧ c.toNat ≤ 57 := by
    simpa [Char.isDigit, UInt32.le_iff_toNat_le] using h
  have hbyte : c.toUInt8.toNat = c.toNat := by
    rw [Char.toUInt8, UInt32.toNat_toUInt8]
    exact Nat.mod_eq_of_lt (by change c.toNat < 256; omega)
  exact ⟨hlow, hhigh, hbyte⟩

theorem isDigit_toUInt8 (h : c.isDigit = true) : isDigit c.toUInt8 = true := by
  obtain ⟨hlow, hhigh, hbyte⟩ := byte_of_digit h
  simp only [isDigit, Bool.and_eq_true, decide_eq_true_eq, UInt8.le_iff_toNat_le, hbyte]
  exact ⟨hlow, hhigh⟩

theorem ofNat_toUInt8 (h : c.isDigit = true) : Char.ofNat c.toUInt8.toNat = c := by
  rw [(byte_of_digit h).2.2, Char.ofNat_toNat]

theorem isDigit_of_mem_digits {m : Nat} (h : b ∈ (decimal m).map Char.toUInt8) :
    isDigit b = true := by
  obtain ⟨c, hc, rfl⟩ := List.mem_map.mp h
  exact isDigit_toUInt8 (isDigit_of_mem_decimal hc)

/-- Only zero is printed with a leading zero. -/
theorem decimal_head {m : Nat} (h : m ≠ 0) {rest : List Char} (hm : decimal m = c :: rest) :
    c ≠ '0' := by
  induction m using Nat.strongRecOn generalizing rest with
  | ind m ih =>
      by_cases hlt : m < 10
      · rw [decimal, Nat.toDigits_of_lt_base hlt, List.cons.injEq] at hm
        rw [← hm.1]
        have hdigits : ∀ d < 10, d ≠ 0 → Nat.digitChar d ≠ '0' := by decide
        exact hdigits m hlt h
      · have hge : 10 ≤ m := Nat.le_of_not_lt hlt
        rw [decimal, Nat.toDigits_of_base_le (by decide) hge] at hm
        obtain ⟨c', rest', hfront⟩ := List.exists_cons_of_ne_nil (decimal_ne_nil (m / 10))
        have hc : c' = c := by
          rw [show Nat.toDigits 10 (m / 10) = c' :: rest' from hfront, List.cons_append,
            List.cons.injEq] at hm
          exact hm.1
        rw [hc] at hfront
        exact ih (m / 10) (by omega) (by omega) hfront

/-- The digits of a number are read up to what is no digit. -/
theorem integerPart_decimal (m : Nat) (hrest : ∀ b, rest.head? = some b → isDigit b = false) :
    integerPart ((decimal m).map Char.toUInt8 ++ rest) = some rest := by
  have hdrop : rest.dropWhile isDigit = rest := by
    cases rest with
    | nil => rfl
    | cons b rest => simp [hrest b rfl]
  by_cases hm : m = 0
  · subst hm
    rfl
  · obtain ⟨c, more, hcons⟩ := List.exists_cons_of_ne_nil (decimal_ne_nil m)
    have hall : ∀ b ∈ (decimal m).map Char.toUInt8, isDigit b = true := fun b hb =>
      isDigit_of_mem_digits hb
    have hc : c.isDigit = true := isDigit_of_mem_decimal (hcons ▸ List.mem_cons_self)
    have hhead : c.toUInt8 ≠ 0x30 := by
      intro heq
      have := ofNat_toUInt8 hc
      rw [heq] at this
      exact decimal_head hm hcons this.symm
    rw [hcons, List.map_cons] at hall ⊢
    rw [List.cons_append, integerPart, if_neg hhead, digits,
      if_pos (hall _ List.mem_cons_self),
      List.dropWhile_append_of_pos fun b hb => hall b (List.mem_cons_of_mem _ hb), hdrop]

theorem magnitude_digits (m : Nat) (rest : Bytes) :
    magnitude ((decimal m).map Char.toUInt8 ++ rest) = (decimal m).map Char.toUInt8 ++ rest := by
  obtain ⟨c, more, hcons⟩ := List.exists_cons_of_ne_nil (decimal_ne_nil m)
  have hc : isDigit c.toUInt8 = true :=
    isDigit_toUInt8 (isDigit_of_mem_decimal (hcons ▸ List.mem_cons_self))
  have hminus : c.toUInt8 ≠ minus := by
    intro heq
    rw [heq] at hc
    exact absurd hc (by decide)
  rw [hcons, List.map_cons, List.cons_append, magnitude, if_neg hminus]

theorem magnitude_integerToken (n : Int) (rest : Bytes) :
    magnitude (integerToken n ++ rest) = (decimal n.natAbs).map Char.toUInt8 ++ rest := by
  rw [integerToken]
  split
  case isTrue => rfl
  case isFalse => exact magnitude_digits _ rest

theorem numberKind_integerToken (n : Int) : numberKind (integerToken n) = some .integer := by
  have hpart : integerPart (magnitude (integerToken n ++ [])) = some [] := by
    rw [magnitude_integerToken]
    exact integerPart_decimal _ (by simp)
  rw [List.append_nil] at hpart
  rw [numberKind, hpart]

theorem numberKind_integerToken_fraction (n : Int) :
    numberKind (integerToken n ++ ascii ".0") = some .fractional := by
  have hpart : integerPart (magnitude (integerToken n ++ ascii ".0")) = some (ascii ".0") := by
    rw [magnitude_integerToken]
    refine integerPart_decimal _ fun b hb => ?_
    rw [← Option.some.inj hb]
    rfl
  rw [numberKind, hpart]
  rfl

theorem head?_integerToken (n : Int) : (integerToken n).head? = some minus ↔ n < 0 := by
  rw [integerToken]
  split
  case isTrue hn => simp [hn]
  case isFalse hn =>
    rw [List.nil_append, List.head?_map, Option.map_eq_some_iff]
    constructor
    · rintro ⟨c, hc, heq⟩
      have hdigit := isDigit_toUInt8 (isDigit_of_mem_decimal (List.mem_of_head? hc))
      rw [heq] at hdigit
      exact absurd hdigit (by decide)
    · intro h
      exact absurd h hn

theorem integerValue_integerToken (n : Int) : integerValue (integerToken n) = n := by
  have hmag : magnitude (integerToken n) = (decimal n.natAbs).map Char.toUInt8 := by
    simpa using magnitude_integerToken n []
  have hchars : ((decimal n.natAbs).map Char.toUInt8).map (fun b => Char.ofNat b.toNat)
      = decimal n.natAbs := by
    rw [List.map_map]
    conv_rhs => rw [← List.map_id (decimal n.natAbs)]
    refine List.map_congr_left fun c hc => ?_
    exact ofNat_toUInt8 (isDigit_of_mem_decimal hc)
  have hvalue : Nat.ofDigitChars 10 (decimal n.natAbs) 0 = n.natAbs :=
    Nat.ofDigitChars_ten_toDigits
  simp only [integerValue, hmag, hchars, hvalue, head?_integerToken]
  split
  case isTrue hn => omega
  case isFalse hn => omega

/-! ## Rules for values -/

theorem not_isBlank_of_isNumberByte (h : isNumberByte b = true) :
    isBlank b = false ∧ b ≠ quote ∧ b ≠ openBracket ∧ b ≠ openBrace := by
  refine ⟨?_, ?_, ?_, ?_⟩
  · by_contra hblank
    simp only [isBlank, Bool.not_eq_false, Bool.or_eq_true, beq_iff_eq] at hblank
    obtain ((rfl | rfl) | rfl) | rfl := hblank <;> exact absurd h (by decide)
  all_goals
    rintro rfl
    exact absurd h (by decide)

variable {body : Bytes}

theorem readValue_string {s : Bytes} (h : readString body = some (s, rest)) (fuel : Nat) :
    readValue (fuel + 1) (quote :: body) = some (.string s, rest) := by
  rw [readValue, skipBlanks_cons (by decide)]
  simp only [if_pos, h]

theorem readValue_number (h : (numberKind token).isSome = true) (hrest : Ends rest) (fuel : Nat) :
    readValue (fuel + 1) (token ++ rest) = some (.number token, rest) := by
  obtain ⟨b, more, rfl⟩ := List.exists_cons_of_ne_nil (token_ne_nil h)
  have hb : isNumberByte b = true := isNumberByte_of_mem_token h List.mem_cons_self
  obtain ⟨hblank, hquote, hbracket, hbrace⟩ := not_isBlank_of_isNumberByte hb
  rw [List.cons_append, readValue, skipBlanks_cons hblank]
  simp only [if_neg hquote, if_neg hbracket, if_neg hbrace, if_pos hb]
  exact readNumber_token h hrest

theorem readValue_null (rest : Bytes) (fuel : Nat) :
    readValue (fuel + 1) (ascii "null" ++ rest) = some (.null, rest) := rfl

theorem readValue_true (rest : Bytes) (fuel : Nat) :
    readValue (fuel + 1) (ascii "true" ++ rest) = some (.bool true, rest) := rfl

theorem readValue_false (rest : Bytes) (fuel : Nat) :
    readValue (fuel + 1) (ascii "false" ++ rest) = some (.bool false, rest) := rfl

theorem readValue_array_nil (rest : Bytes) (fuel : Nat) :
    readValue (fuel + 1) (openBracket :: closeBracket :: rest) = some (.array [], rest) := rfl

theorem readValue_object_nil (rest : Bytes) (fuel : Nat) :
    readValue (fuel + 1) (openBrace :: closeBrace :: rest) = some (.object [], rest) := rfl

/-- The text begins with a byte that a value of an array can begin with. -/
def Starts (text : Bytes) : Prop :=
  ∃ b more, text = b :: more ∧ isBlank b = false ∧ b ≠ closeBracket

theorem starts_cons (hblank : isBlank b = false) (hclose : b ≠ closeBracket) (more : Bytes) :
    Starts (b :: more) :=
  ⟨b, more, rfl, hblank, hclose⟩

theorem Starts.append (h : Starts text) (rest : Bytes) : Starts (text ++ rest) := by
  obtain ⟨b, more, rfl, hblank, hclose⟩ := h
  exact starts_cons hblank hclose (more ++ rest)

theorem starts_token (h : (numberKind token).isSome = true) : Starts token := by
  obtain ⟨b, more, rfl⟩ := List.exists_cons_of_ne_nil (token_ne_nil h)
  have hb : isNumberByte b = true := isNumberByte_of_mem_token h List.mem_cons_self
  refine starts_cons (not_isBlank_of_isNumberByte hb).1 ?_ more
  rintro rfl
  exact absurd hb (by decide)

variable {fuel : Nat}

theorem readValue_array {items : List Element} (hstart : Starts text)
    (h : readItems fuel text = some (items, rest)) :
    readValue (fuel + 1) (openBracket :: text) = some (.array items, rest) := by
  obtain ⟨b, more, rfl, hblank, hclose⟩ := hstart
  rw [readValue, skipBlanks_cons (by decide)]
  simp only [if_neg (show openBracket ≠ quote by decide), if_pos, skipBlanks_cons hblank,
    if_neg hclose, h]

theorem readItems_last {item : Element}
    (h : readValue fuel text = some (item, closeBracket :: rest)) :
    readItems (fuel + 1) text = some ([item], rest) := by
  rw [readItems, h]
  simp only [skipBlanks_cons (show isBlank closeBracket = false by decide), if_pos]

theorem readItems_more {more : Bytes} {item : Element} {items : List Element}
    (h : readValue fuel text = some (item, comma :: more))
    (hmore : readItems fuel more = some (items, rest)) :
    readItems (fuel + 1) text = some (item :: items, rest) := by
  rw [readItems, h]
  simp only [skipBlanks_cons (show isBlank comma = false by decide),
    if_neg (show comma ≠ closeBracket by decide), if_pos, hmore]

theorem readValue_object {members : List (Bytes × Element)}
    (h : readMembers fuel (quote :: body) = some (members, rest)) :
    readValue (fuel + 1) (openBrace :: quote :: body) = some (.object members, rest) := by
  rw [readValue, skipBlanks_cons (by decide)]
  simp only [if_neg (show openBrace ≠ quote by decide),
    if_neg (show openBrace ≠ openBracket by decide), if_pos,
    skipBlanks_cons (show isBlank quote = false by decide),
    if_neg (show quote ≠ closeBrace by decide), h]

variable {value : Element}

theorem readMembers_last {key : Bytes} (hkey : readString body = some (key, colon :: text))
    (h : readValue fuel text = some (value, closeBrace :: rest)) :
    readMembers (fuel + 1) (quote :: body) = some ([(key, value)], rest) := by
  rw [readMembers, skipBlanks_cons (by decide)]
  simp only [if_pos, hkey, skipBlanks_cons (show isBlank colon = false by decide), h,
    skipBlanks_cons (show isBlank closeBrace = false by decide)]

theorem readMembers_more {more key : Bytes} {members : List (Bytes × Element)}
    (hkey : readString body = some (key, colon :: text))
    (h : readValue fuel text = some (value, comma :: more))
    (hmore : readMembers fuel more = some (members, rest)) :
    readMembers (fuel + 1) (quote :: body) = some ((key, value) :: members, rest) := by
  rw [readMembers, skipBlanks_cons (by decide)]
  simp only [if_pos, hkey, skipBlanks_cons (show isBlank colon = false by decide), h,
    skipBlanks_cons (show isBlank comma = false by decide),
    if_neg (show comma ≠ closeBrace by decide), hmore]

/-! ## Whole texts -/

theorem parse_of_readValue (hvalid : Utf8.Valid text)
    (h : readValue (text.length + 1) text = some (value, [])) : parse text = some value := by
  rw [parse, if_pos hvalid, h]
  rfl

theorem parse_eq_none (h : ¬ Utf8.Valid text) : parse text = none := by
  rw [parse, if_neg h]

end Clink.Verified.StrictJson

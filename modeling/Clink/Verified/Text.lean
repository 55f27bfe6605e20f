import Mathlib.Algebra.Order.Ring.Int
import Mathlib.Data.List.DropRight

/-!
# Line-oriented text records

Records kept as text are lists of characters here: decimal numbers, the line a
text starts with, and the blanks cut from the end of a line.  A number is
printed by its decimal digits and parsed back only from a non-empty run of
digits below a limit, so printing and parsing are inverse below the limit.
-/

namespace Clink.Verified

/-- The decimal digits of a number. -/
def decimal (n : Nat) : List Char := Nat.toDigits 10 n

/-- A non-empty run of decimal digits whose value is below `limit`. -/
def parseDecimal (limit : Nat) (text : List Char) : Option Nat :=
  if text ≠ [] ∧ text.all Char.isDigit = true ∧ Nat.ofDigitChars 10 text 0 < limit then
    some (Nat.ofDigitChars 10 text 0)
  else none

theorem decimal_ne_nil (n : Nat) : decimal n ≠ [] := Nat.toDigits_ne_nil

variable {n : Nat} {c : Char}

theorem isDigit_of_mem_decimal (h : c ∈ decimal n) : c.isDigit = true :=
  Nat.isDigit_of_mem_toDigits (by decide) (by decide) h

theorem not_mem_decimal (h : c.isDigit = false) : c ∉ decimal n := by
  intro hmem
  rw [isDigit_of_mem_decimal hmem] at h
  exact absurd h (by simp)

theorem parseDecimal_decimal {limit : Nat} (h : n < limit) :
    parseDecimal limit (decimal n) = some n := by
  have hvalue : Nat.ofDigitChars 10 (decimal n) 0 = n := Nat.ofDigitChars_ten_toDigits
  have hall : (decimal n).all Char.isDigit = true := by
    rw [List.all_eq_true]
    intro c hc
    exact isDigit_of_mem_decimal hc
  rw [parseDecimal, hvalue, if_pos ⟨decimal_ne_nil n, hall, h⟩]

theorem decimal_injective : Function.Injective decimal := by
  intro a b h
  have hvalue := congrArg (fun text => Nat.ofDigitChars 10 text 0) h
  simpa [decimal] using hvalue

theorem exists_digit_ne_zero (h : n ≠ 0) : ∃ c ∈ decimal n, c ≠ '0' := by
  by_contra hnone
  push Not at hnone
  have hzero : ∀ text : List Char, (∀ c ∈ text, c = '0') → Nat.ofDigitChars 10 text 0 = 0 := by
    intro text htext
    induction text with
    | nil => rfl
    | cons c text ih =>
        rw [htext c List.mem_cons_self, Nat.ofDigitChars_cons]
        exact ih fun c' hc' => htext c' (List.mem_cons_of_mem _ hc')
  have hvalue : Nat.ofDigitChars 10 (decimal n) 0 = n := Nat.ofDigitChars_ten_toDigits
  rw [hzero _ hnone] at hvalue
  exact h hvalue.symm

/-! ## Lines -/

/-- The lines of a text. -/
def lines : List Char → List (List Char)
  | [] => []
  | c :: rest =>
      if c = '\n' then [] :: lines rest
      else
        match lines rest with
        | [] => [[c]]
        | line :: more => (c :: line) :: more

variable {line : List Char}

theorem lines_append (h : '\n' ∉ line) (rest : List Char) :
    lines (line ++ '\n' :: rest) = line :: lines rest := by
  induction line with
  | nil => simp [lines]
  | cons c line ih =>
      rw [List.mem_cons, not_or] at h
      rw [List.cons_append, lines, if_neg (Ne.symm h.1), ih h.2]

theorem newline_notMem_lines (text : List Char) : ∀ line ∈ lines text, '\n' ∉ line := by
  induction text with
  | nil => exact fun line h => absurd h List.not_mem_nil
  | cons c rest ih =>
      intro line h
      rw [lines] at h
      split at h
      · rcases List.mem_cons.mp h with rfl | h
        · exact List.not_mem_nil
        · exact ih line h
      · rename_i hc
        cases hrest : lines rest with
        | nil =>
            rw [hrest] at h
            rw [List.mem_singleton.mp h, List.mem_singleton]
            exact Ne.symm hc
        | cons first more =>
            rw [hrest] at h ih
            rcases List.mem_cons.mp h with rfl | h
            · rw [List.mem_cons, not_or]
              exact ⟨Ne.symm hc, ih first List.mem_cons_self⟩
            · exact ih line (List.mem_cons_of_mem _ h)

variable {text : List Char}

/-- A text before the first `c`, and what stands from there on. -/
theorem takeWhile_dropWhile_append (h : c ∉ text) (rest : List Char) :
    (text ++ c :: rest).takeWhile (· != c) = text ∧
      (text ++ c :: rest).dropWhile (· != c) = c :: rest := by
  have hall : ∀ x ∈ text, (x != c) = true := by
    intro x hx
    rw [bne_iff_ne]
    intro heq
    exact h (heq ▸ hx)
  rw [List.takeWhile_append_of_pos hall, List.dropWhile_append_of_pos hall]
  simp

/-- The characters before the first newline. -/
def firstLine (text : List Char) : List Char := text.takeWhile (· != '\n')

theorem firstLine_append (h : '\n' ∉ line) (rest : List Char) :
    firstLine (line ++ '\n' :: rest) = line := (takeWhile_dropWhile_append h rest).1

theorem dropWhile_append_newline (h : '\n' ∉ line) (rest : List Char) :
    (line ++ '\n' :: rest).dropWhile (· != '\n') = '\n' :: rest :=
  (takeWhile_dropWhile_append h rest).2

/-- A newline at the end adds nothing to the first line. -/
theorem firstLine_snoc_newline (text : List Char) :
    firstLine (text ++ ['\n']) = firstLine text := by
  induction text with
  | nil => rfl
  | cons c text ih =>
      simp only [firstLine, List.cons_append, List.takeWhile_cons] at ih ⊢
      rw [ih]

theorem firstLine_eq_self (h : '\n' ∉ line) : firstLine line = line := by
  rw [firstLine, List.takeWhile_eq_self_iff]
  intro c hc
  rw [bne_iff_ne]
  intro heq
  exact h (heq ▸ hc)

/-- A line without the blanks at its end. -/
def trimEnd (blank : Char → Bool) (line : List Char) : List Char := line.rdropWhile blank

theorem trimEnd_eq_self {blank : Char → Bool} (h : ∀ c, line.getLast? = some c → blank c = false) :
    trimEnd blank line = line := by
  rw [trimEnd, List.rdropWhile_eq_self_iff]
  intro hne
  rw [h _ (List.getLast?_eq_some_getLast hne)]
  simp

theorem trimEnd_decimal {blank : Char → Bool} (h : ∀ c, blank c = true → c.isDigit = false)
    (n : Nat) : trimEnd blank (decimal n) = decimal n := by
  refine trimEnd_eq_self fun c hc => ?_
  have hdigit := isDigit_of_mem_decimal (List.mem_of_getLast? hc)
  cases hblank : blank c with
  | false => rfl
  | true =>
      rw [h c hblank] at hdigit
      exact absurd hdigit (by simp)

/-! ## Lines in a row -/

/-- The lines with a newline between any two. -/
def joinLines : List (List Char) → List Char
  | [] => []
  | [line] => line
  | line :: next :: rest => line ++ '\n' :: joinLines (next :: rest)

private theorem lines_single (hne : line ≠ []) (h : '\n' ∉ line) : lines line = [line] := by
  induction line with
  | nil => exact absurd rfl hne
  | cons c rest ih =>
      rw [List.mem_cons, not_or] at h
      rw [lines, if_neg (Ne.symm h.1)]
      cases rest with
      | nil => rfl
      | cons c' rest => rw [ih (List.cons_ne_nil _ _) h.2]

theorem lines_joinLines {ls : List (List Char)} (h : ∀ line ∈ ls, line ≠ [] ∧ '\n' ∉ line) :
    lines (joinLines ls) = ls := by
  induction ls with
  | nil => rfl
  | cons line rest ih =>
      obtain ⟨hne, hline⟩ := h line List.mem_cons_self
      cases rest with
      | nil => exact lines_single hne hline
      | cons next rest =>
          rw [joinLines, lines_append hline]
          rw [ih fun line hmem => h line (List.mem_cons_of_mem _ hmem)]

/-! ## Fields of a line -/

/-- What is before the first `c` and what follows it. -/
def cutAt (c : Char) (text : List Char) : Option (List Char × List Char) :=
  if c ∈ text then some (text.takeWhile (· != c), (text.dropWhile (· != c)).tail) else none

theorem cutAt_append {field : List Char} (h : c ∉ field) (rest : List Char) :
    cutAt c (field ++ c :: rest) = some (field, rest) := by
  obtain ⟨hfield, hrest⟩ := takeWhile_dropWhile_append h rest
  rw [cutAt, if_pos (List.mem_append_right _ List.mem_cons_self), hfield, hrest, List.tail_cons]

theorem cutAt_eq_none (h : c ∉ text) : cutAt c text = none :=
  if_neg h

/-- The field cut off has no `c`, and both parts are of the text. -/
theorem cutAt_eq_some {field rest : List Char} (h : cutAt c text = some (field, rest)) :
    c ∉ field ∧ (∀ x ∈ field, x ∈ text) ∧ ∀ x ∈ rest, x ∈ text := by
  unfold cutAt at h
  split at h
  · obtain ⟨rfl, rfl⟩ := Prod.mk.inj (Option.some.inj h)
    refine ⟨fun hmem => ?_, fun x hx => (List.takeWhile_sublist _).mem hx, fun x hx => ?_⟩
    · have hne := List.mem_takeWhile_imp hmem
      simp at hne
    · exact (List.dropWhile_sublist _).mem (List.mem_of_mem_tail hx)
  · exact absurd h (Option.some_ne_none _).symm

/-! ## Padded numbers -/

/-- The value of a run of decimal digits. -/
def digitsValue (text : List Char) : Nat := Nat.ofDigitChars 10 text 0

/-- The decimal digits of a number, with zeros before them. -/
def zeroPadded (width n : Nat) : List Char :=
  List.replicate (width - (decimal n).length) '0' ++ decimal n

@[simp] theorem digitsValue_zeroPadded (width n : Nat) : digitsValue (zeroPadded width n) = n := by
  unfold digitsValue zeroPadded decimal
  rw [Nat.ofDigitChars_append, Nat.ofDigitChars_replicate_zero, Nat.mul_zero,
    Nat.ofDigitChars_ten_toDigits]

theorem all_isDigit_zeroPadded (width n : Nat) : (zeroPadded width n).all Char.isDigit = true := by
  rw [List.all_eq_true]
  intro c hc
  rcases List.mem_append.1 hc with hzero | hdigit
  · rw [List.eq_of_mem_replicate hzero]
    decide
  · exact isDigit_of_mem_decimal hdigit

variable {width : Nat}

theorem length_zeroPadded (hpos : 0 < width) (h : n < 10 ^ width) :
    (zeroPadded width n).length = width := by
  have hshort : (decimal n).length ≤ width :=
    (Nat.length_toDigits_le_iff (by decide) hpos).2 h
  rw [zeroPadded, List.length_append, List.length_replicate, Nat.sub_add_cancel hshort]

theorem isDigit_bounds (h : c.isDigit = true) : 48 ≤ c.toNat ∧ c.toNat ≤ 57 := by
  simp only [Char.isDigit, Bool.and_eq_true, decide_eq_true_eq] at h
  exact h

theorem digitsValue_snoc (text : List Char) (c : Char) :
    digitsValue (text ++ [c]) = 10 * digitsValue text + (c.toNat - 48) := by
  simp [digitsValue, Nat.ofDigitChars_append, Nat.ofDigitChars_cons]

/-- Digits of the same number that are as many are the same. -/
theorem digitsValue_injective {a b : List Char} (hlen : a.length = b.length)
    (ha : a.all Char.isDigit = true) (hb : b.all Char.isDigit = true)
    (hvalue : digitsValue a = digitsValue b) : a = b := by
  induction a using List.reverseRecOn generalizing b with
  | nil => exact (List.eq_nil_of_length_eq_zero hlen.symm).symm
  | append_singleton a c ih =>
      rcases List.eq_nil_or_concat b with rfl | ⟨b, c', rfl⟩
      · simp at hlen
      · rw [List.concat_eq_append] at *
        rw [digitsValue_snoc, digitsValue_snoc] at hvalue
        simp only [List.all_append, List.all_cons, List.all_nil, Bool.and_true,
          Bool.and_eq_true] at ha hb
        have hlow := isDigit_bounds ha.2
        have hlow' := isDigit_bounds hb.2
        have hsame : a = b := ih (by simpa using hlen) ha.1 hb.1 (by omega)
        have hlast : c = c' := Char.toNat_inj.1 (by omega)
        rw [hsame, hlast]

theorem digitsValue_lt (text : List Char) (h : text.all Char.isDigit = true) :
    digitsValue text < 10 ^ text.length := by
  induction text using List.reverseRecOn with
  | nil => simp [digitsValue]
  | append_singleton text c ih =>
      simp only [List.all_append, List.all_cons, List.all_nil, Bool.and_true,
        Bool.and_eq_true] at h
      have hlow := isDigit_bounds h.2
      have hfront := ih h.1
      rw [digitsValue_snoc, List.length_append, List.length_singleton, Nat.pow_succ]
      omega

/-- A run of digits is the number it is read as, padded to its width. -/
theorem zeroPadded_digitsValue (hne : text ≠ []) (h : text.all Char.isDigit = true) :
    zeroPadded text.length (digitsValue text) = text := by
  have hlen := length_zeroPadded (List.length_pos_iff.2 hne) (digitsValue_lt text h)
  exact digitsValue_injective hlen (all_isDigit_zeroPadded _ _) h (digitsValue_zeroPadded _ _)

/-! ## Hexadecimal numbers -/

def hexChar (d : Nat) : Char := if d < 10 then Char.ofNat (48 + d) else Char.ofNat (87 + d)

/-- The last `width` hexadecimal digits of a number, zeros in front. -/
def hexPadded : Nat → Nat → List Char
  | 0, _ => []
  | width + 1, n => hexPadded width (n / 16) ++ [hexChar (n % 16)]

def isHexDigit (c : Char) : Bool :=
  c.isDigit || ('a' ≤ c && c ≤ 'f') || ('A' ≤ c && c ≤ 'F')

def hexDigit (c : Char) : Nat :=
  if c.isDigit then c.toNat - 48 else if 'a' ≤ c then c.toNat - 87 else c.toNat - 55

def hexValue (text : List Char) : Nat := text.foldl (fun n c => 16 * n + hexDigit c) 0

theorem hexDigit_hexChar {d : Nat} (h : d < 16) :
    hexDigit (hexChar d) = d ∧ isHexDigit (hexChar d) = true ∧ hexChar d ≠ '|' ∧
      hexChar d ≠ '\n' := by
  have hall : ∀ d : Fin 16, hexDigit (hexChar d) = d ∧ isHexDigit (hexChar d) = true ∧
      hexChar d ≠ '|' ∧ hexChar d ≠ '\n' := by decide
  exact hall ⟨d, h⟩

theorem length_hexPadded (width n : Nat) : (hexPadded width n).length = width := by
  induction width generalizing n with
  | zero => rfl
  | succ width ih => rw [hexPadded, List.length_append, ih, List.length_singleton]

theorem mem_hexPadded (h : c ∈ hexPadded width n) : ∃ d, d < 16 ∧ c = hexChar d := by
  induction width generalizing n with
  | zero => exact absurd h List.not_mem_nil
  | succ width ih =>
      rcases List.mem_append.mp h with h | h
      · exact ih h
      · exact ⟨n % 16, Nat.mod_lt _ (by decide), List.mem_singleton.mp h⟩

theorem hexValue_hexPadded (h : n < 16 ^ width) : hexValue (hexPadded width n) = n := by
  induction width generalizing n with
  | zero =>
      rw [Nat.pow_zero] at h
      rw [Nat.lt_one_iff.mp h]
      rfl
  | succ width ih =>
      have hdiv : n / 16 < 16 ^ width := by
        rw [Nat.pow_succ] at h
        omega
      have hrest := ih hdiv
      unfold hexValue at hrest ⊢
      rw [hexPadded, List.foldl_append, hrest, List.foldl_cons, List.foldl_nil,
        (hexDigit_hexChar (Nat.mod_lt n (by decide))).1]
      omega

/-! ## Codes -/

/-- Codes of which none begins another are told apart in a row. -/
theorem flatMap_injective {α β : Type*} {code : α → List β} (hne : ∀ a, code a ≠ [])
    (hstart : ∀ a b, code a <+: code b → a = b) :
    Function.Injective fun l : List α => l.flatMap code := by
  intro l l' h
  induction l generalizing l' with
  | nil =>
      cases l' with
      | nil => rfl
      | cons b bs =>
          simp only [List.flatMap_nil, List.flatMap_cons] at h
          exact absurd (List.append_eq_nil_iff.mp h.symm).1 (hne b)
  | cons a as ih =>
      cases l' with
      | nil =>
          simp only [List.flatMap_nil, List.flatMap_cons] at h
          exact absurd (List.append_eq_nil_iff.mp h).1 (hne a)
      | cons b bs =>
          simp only [List.flatMap_cons] at h
          obtain rfl : a = b := by
            rcases List.prefix_or_prefix_of_prefix (List.prefix_append (code a) (as.flatMap code))
              (h ▸ List.prefix_append (code b) (bs.flatMap code)) with hab | hba
            · exact hstart a b hab
            · exact (hstart b a hba).symm
          rw [ih (List.append_cancel_left h)]

end Clink.Verified

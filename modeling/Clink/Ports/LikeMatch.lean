import Clink.Ports.JsonPredicate

/-!
# LIKE and the language of its pattern

`like_match` of `json_predicate.hpp` is a loop over two positions that remembers the last
`%` it met and where in the input it met it.  When the input does not go on, that `%` takes
one byte more; no earlier one is ever asked again.

A text is in the language of a pattern when it can be cut so that every byte of the pattern
takes its piece (`InLanguage`).  Between the last `%` and the position, the pattern has
agreed with the input byte by byte (`Agrees`), so a text that is matched at all is matched
from where that `%` stands now: an earlier `%` could only have moved the same bytes further
on.  `rounds` counts the rounds that are left.
-/

namespace Clink.Ports.Predicate

open Clink.Verified.StrictJson

/-! ## The language -/

/-- The pieces that a byte of a pattern takes. -/
def Takes (c : UInt8) (piece : Bytes) : Prop :=
  if c = 0x25 then True
  else if c = 0x5F then piece.length = 1
  else piece = [c]

/-- The input can be cut into pieces that the bytes of the pattern take. -/
def InLanguage (pattern input : Bytes) : Prop :=
  ∃ pieces, List.Forall₂ Takes pattern pieces ∧ input = pieces.flatten

theorem inLanguage_nil (input : Bytes) : InLanguage [] input ↔ input = [] := by
  constructor
  · rintro ⟨pieces, hnone, rfl⟩
    cases hnone
    rfl
  · rintro rfl
    exact ⟨[], .nil, rfl⟩

theorem inLanguage_percent (pattern input : Bytes) :
    InLanguage (0x25 :: pattern) input ↔ ∃ j, InLanguage pattern (input.drop j) := by
  constructor
  · rintro ⟨pieces, htaken, rfl⟩
    cases htaken with
    | @cons _ piece _ pieces _ htaken =>
        exact ⟨piece.length, pieces, htaken, by rw [List.flatten_cons, List.drop_left]⟩
  · rintro ⟨j, pieces, htaken, hcut⟩
    refine ⟨input.take j :: pieces, .cons trivial htaken, ?_⟩
    rw [List.flatten_cons, ← hcut, List.take_append_drop]

theorem inLanguage_byte {c : UInt8} (h : c ≠ 0x25) (pattern input : Bytes) :
    InLanguage (c :: pattern) input ↔
      ∃ b rest, input = b :: rest ∧ (c = 0x5F ∨ c = b) ∧ InLanguage pattern rest := by
  constructor
  · rintro ⟨pieces, htaken, rfl⟩
    cases htaken with
    | @cons _ piece _ pieces hone htaken =>
        rw [Takes, if_neg h] at hone
        split at hone
        · rename_i hwild
          obtain ⟨b, rfl⟩ := List.length_eq_one_iff.1 hone
          exact ⟨b, pieces.flatten, rfl, .inl hwild, pieces, htaken, rfl⟩
        · subst hone
          exact ⟨c, pieces.flatten, rfl, .inr rfl, pieces, htaken, rfl⟩
  · rintro ⟨b, rest, rfl, hfits, pieces, htaken, rfl⟩
    refine ⟨[b] :: pieces, .cons ?_ htaken, rfl⟩
    rw [Takes, if_neg h]
    split
    · rfl
    · rename_i hplain
      rcases hfits with hwild | rfl
      · exact absurd hwild hplain
      · rfl

/-- An empty text is in the language of a pattern that is nothing but `%`. -/
theorem inLanguage_empty (pattern : Bytes) :
    InLanguage pattern [] ↔ (pattern.dropWhile (· == 0x25)).isEmpty = true := by
  induction pattern with
  | nil => simp [inLanguage_nil]
  | cons c pattern ih =>
      by_cases hpercent : c = 0x25
      · subst hpercent
        rw [inLanguage_percent, List.dropWhile_cons_of_pos (by decide), ← ih]
        simp
      · rw [inLanguage_byte hpercent, List.dropWhile_cons_of_neg (by simpa using hpercent)]
        simp

/-! ### From two positions -/

section Positions

variable (pattern input : Bytes)

/-- The rest of the input is in the language of the rest of the pattern. -/
def MatchesFrom (p i : Nat) : Prop := InLanguage (pattern.drop p) (input.drop i)

variable {pattern input} {p i : Nat}

theorem matchesFrom_past (h : pattern[p]? = none) :
    MatchesFrom pattern input p i ↔ input[i]? = none := by
  rw [List.getElem?_eq_none_iff] at h
  rw [MatchesFrom, List.drop_eq_nil_of_le h, inLanguage_nil, List.drop_eq_nil_iff,
    List.getElem?_eq_none_iff]

theorem matchesFrom_percent (h : pattern[p]? = some 0x25) :
    MatchesFrom pattern input p i ↔ ∃ j, i ≤ j ∧ MatchesFrom pattern input (p + 1) j := by
  obtain ⟨hless, hbyte⟩ := List.getElem?_eq_some_iff.1 h
  unfold MatchesFrom
  rw [List.drop_eq_getElem_cons hless, hbyte, inLanguage_percent]
  constructor
  · rintro ⟨j, hrest⟩
    exact ⟨i + j, by omega, by rwa [List.drop_drop] at hrest⟩
  · rintro ⟨j, hle, hrest⟩
    exact ⟨j - i, by rwa [List.drop_drop, Nat.add_sub_cancel' hle]⟩

theorem matchesFrom_byte {c b : UInt8} (hc : pattern[p]? = some c) (hne : c ≠ 0x25)
    (hb : input[i]? = some b) :
    MatchesFrom pattern input p i ↔
      (c = 0x5F ∨ c = b) ∧ MatchesFrom pattern input (p + 1) (i + 1) := by
  obtain ⟨hless, hbyte⟩ := List.getElem?_eq_some_iff.1 hc
  obtain ⟨hless', hbyte'⟩ := List.getElem?_eq_some_iff.1 hb
  unfold MatchesFrom
  rw [List.drop_eq_getElem_cons hless, hbyte, inLanguage_byte hne, List.drop_eq_getElem_cons hless',
    hbyte']
  constructor
  · rintro ⟨b', rest, heq, hfits, hlater⟩
    obtain ⟨rfl, rfl⟩ := List.cons.inj heq
    exact ⟨hfits, hlater⟩
  · rintro ⟨hfits, hlater⟩
    exact ⟨b, _, rfl, hfits, hlater⟩

theorem not_matchesFrom_end {c : UInt8} (hc : pattern[p]? = some c) (hne : c ≠ 0x25)
    (hi : input[i]? = none) : ¬MatchesFrom pattern input p i := by
  obtain ⟨hless, hbyte⟩ := List.getElem?_eq_some_iff.1 hc
  rw [List.getElem?_eq_none_iff] at hi
  unfold MatchesFrom
  rw [List.drop_eq_getElem_cons hless, hbyte, inLanguage_byte hne, List.drop_eq_nil_of_le hi]
  rintro ⟨b, rest, heq, -⟩
  cases heq

/-- So many bytes of the pattern, none of them a `%`, agree with the input. -/
def Agrees (pattern input : Bytes) (p i len : Nat) : Prop :=
  ∀ d < len, ∃ c b, pattern[p + d]? = some c ∧ c ≠ 0x25 ∧ input[i + d]? = some b ∧
    (c = 0x5F ∨ c = b)

theorem Agrees.matchesFrom_iff {len : Nat} (h : Agrees pattern input p i len) :
    MatchesFrom pattern input p i ↔ MatchesFrom pattern input (p + len) (i + len) := by
  induction len with
  | zero => rfl
  | succ len ih =>
      obtain ⟨c, b, hc, hne, hb, hfits⟩ := h len (by omega)
      rw [ih fun d hless => h d (by omega), matchesFrom_byte hc hne hb]
      exact and_iff_right hfits

/-- Where the pattern has no `%`, it takes one byte of the input for each of its own. -/
theorem Agrees.advance {len : Nat} (h : Agrees pattern input p i len) {j : Nat}
    (hmatched : MatchesFrom pattern input p j) : MatchesFrom pattern input (p + len) (j + len) := by
  induction len with
  | zero => exact hmatched
  | succ len ih =>
      obtain ⟨c, -, hc, hne, -⟩ := h len (by omega)
      have hbefore := ih fun d hless => h d (by omega)
      cases hb : input[j + len]? with
      | none => exact absurd hbefore (not_matchesFrom_end hc hne hb)
      | some b => exact ((matchesFrom_byte hc hne hb).1 hbefore).2

end Positions

/-! ## The loop -/

/-- The loop returns from these positions. -/
inductive Returns (pattern input : Bytes) : Nat → Nat → Option (Nat × Nat) → Bool → Prop
  | ends {pi ii star} : input[ii]? = none →
      Returns pattern input pi ii star ((pattern.drop pi).dropWhile (· == 0x25)).isEmpty
  | percent {pi ii star c r} : input[ii]? = some c → pattern[pi]? = some 0x25 →
      Returns pattern input (pi + 1) ii (some (pi, ii)) r → Returns pattern input pi ii star r
  | takes {pi ii star c r} : input[ii]? = some c → pattern[pi]? ≠ some 0x25 →
      (pattern[pi]? = some 0x5F ∨ pattern[pi]? = some c) →
      Returns pattern input (pi + 1) (ii + 1) star r → Returns pattern input pi ii star r
  | back {pi ii starPi starIi c r} : input[ii]? = some c → pattern[pi]? ≠ some 0x25 →
      ¬(pattern[pi]? = some 0x5F ∨ pattern[pi]? = some c) →
      Returns pattern input (starPi + 1) (starIi + 1) (some (starPi, starIi + 1)) r →
      Returns pattern input pi ii (some (starPi, starIi)) r
  | fails {pi ii c} : input[ii]? = some c → pattern[pi]? ≠ some 0x25 →
      ¬(pattern[pi]? = some 0x5F ∨ pattern[pi]? = some c) →
      Returns pattern input pi ii none false

/-- What the loop has settled: the text is in the language exactly when the rest is, or,
behind a `%`, when some rest from where it stands is. -/
def Settled (pattern input : Bytes) (pi ii : Nat) : Option (Nat × Nat) → Prop
  | none => InLanguage pattern input ↔ MatchesFrom pattern input pi ii
  | some (starPi, starIi) =>
      (InLanguage pattern input ↔
        ∃ j, starIi ≤ j ∧ MatchesFrom pattern input (starPi + 1) j) ∧
      ∃ len, pi = starPi + 1 + len ∧ ii = starIi + len ∧
        Agrees pattern input (starPi + 1) starIi len

variable {pattern input : Bytes} {pi ii : Nat} {star : Option (Nat × Nat)}

theorem settled_start : Settled pattern input 0 0 none := by
  simp [Settled, MatchesFrom]

theorem Settled.percent (h : Settled pattern input pi ii star) (hp : pattern[pi]? = some 0x25) :
    Settled pattern input (pi + 1) ii (some (pi, ii)) := by
  refine ⟨?_, 0, rfl, rfl, fun d hless => absurd hless (by omega)⟩
  cases star with
  | none => exact h.trans (matchesFrom_percent hp)
  | some mark =>
      obtain ⟨starPi, starIi⟩ := mark
      obtain ⟨hiff, len, rfl, rfl, hagrees⟩ := h
      rw [hiff, ← matchesFrom_percent hp]
      constructor
      · rintro ⟨j, hle, hmatched⟩
        obtain ⟨k, hlater, hrest⟩ := (matchesFrom_percent hp).1 (hagrees.advance hmatched)
        exact (matchesFrom_percent hp).2 ⟨k, by omega, hrest⟩
      · intro hmatched
        exact ⟨starIi, le_rfl, hagrees.matchesFrom_iff.2 hmatched⟩

theorem Settled.takes (h : Settled pattern input pi ii star) {c : UInt8}
    (hi : input[ii]? = some c) (hp : pattern[pi]? ≠ some 0x25)
    (hfits : pattern[pi]? = some 0x5F ∨ pattern[pi]? = some c) :
    Settled pattern input (pi + 1) (ii + 1) star := by
  obtain ⟨b, hb, hne, htakes⟩ : ∃ b, pattern[pi]? = some b ∧ b ≠ 0x25 ∧ (b = 0x5F ∨ b = c) := by
    rcases hfits with hwild | hsame
    · exact ⟨0x5F, hwild, by decide, .inl rfl⟩
    · exact ⟨c, hsame, fun heq => hp (heq ▸ hsame), .inr rfl⟩
  cases star with
  | none => exact h.trans ((matchesFrom_byte hb hne hi).trans (and_iff_right htakes))
  | some mark =>
      obtain ⟨starPi, starIi⟩ := mark
      obtain ⟨hiff, len, rfl, rfl, hagrees⟩ := h
      refine ⟨hiff, len + 1, rfl, rfl, fun d hless => ?_⟩
      by_cases hlast : d = len
      · exact hlast ▸ ⟨b, c, hb, hne, hi, htakes⟩
      · exact hagrees d (by omega)

theorem not_matchesFrom {c : UInt8} (hi : input[ii]? = some c) (hp : pattern[pi]? ≠ some 0x25)
    (hdiffers : ¬(pattern[pi]? = some 0x5F ∨ pattern[pi]? = some c)) :
    ¬MatchesFrom pattern input pi ii := by
  cases hb : pattern[pi]? with
  | none =>
      rw [matchesFrom_past hb, hi]
      simp
  | some b =>
      rw [hb] at hp hdiffers
      have hne : b ≠ 0x25 := fun heq => hp (congrArg some heq)
      rw [matchesFrom_byte hb hne hi]
      rintro ⟨hfits, -⟩
      exact hdiffers (hfits.imp (congrArg some) (congrArg some))

theorem Settled.back {starPi starIi : Nat} (h : Settled pattern input pi ii (some (starPi, starIi)))
    (hno : ¬MatchesFrom pattern input pi ii) :
    Settled pattern input (starPi + 1) (starIi + 1) (some (starPi, starIi + 1)) := by
  obtain ⟨hiff, len, rfl, rfl, hagrees⟩ := h
  refine ⟨?_, 0, rfl, rfl, fun d hless => absurd hless (by omega)⟩
  rw [hiff]
  constructor
  · rintro ⟨j, hle, hmatched⟩
    have hne : j ≠ starIi := by
      rintro rfl
      exact hno (hagrees.matchesFrom_iff.1 hmatched)
    exact ⟨j, by omega, hmatched⟩
  · rintro ⟨j, hle, hmatched⟩
    exact ⟨j, by omega, hmatched⟩

/-- At the end of the input only the rest of the pattern is left to see. -/
theorem Settled.ends (h : Settled pattern input pi ii star) (hi : input[ii]? = none) :
    InLanguage pattern input ↔ MatchesFrom pattern input pi ii := by
  cases star with
  | none => exact h
  | some mark =>
      obtain ⟨starPi, starIi⟩ := mark
      obtain ⟨hiff, len, rfl, rfl, hagrees⟩ := h
      rw [List.getElem?_eq_none_iff] at hi
      rw [hiff]
      constructor
      · rintro ⟨j, hle, hmatched⟩
        have hlater := hagrees.advance hmatched
        have hpast : ∀ k, input.length ≤ k → input.drop k = [] := fun _ => List.drop_eq_nil_of_le
        unfold MatchesFrom at hlater ⊢
        rw [hpast _ (by omega)] at hlater ⊢
        exact hlater
      · intro hmatched
        exact ⟨starIi, le_rfl, hagrees.matchesFrom_iff.2 hmatched⟩

/-- What the loop returns is whether the text is in the language. -/
theorem Returns.iff {r : Bool} (h : Returns pattern input pi ii star r)
    (hsettled : Settled pattern input pi ii star) : r = true ↔ InLanguage pattern input := by
  induction h with
  | @ends pi ii star hi =>
      have hpast : input.drop ii = [] := List.drop_eq_nil_of_le (List.getElem?_eq_none_iff.1 hi)
      rw [hsettled.ends hi, MatchesFrom, hpast, inLanguage_empty]
  | percent hi hp _ ih => exact ih (hsettled.percent hp)
  | takes hi hp hfits _ ih => exact ih (hsettled.takes hi hp hfits)
  | back hi hp hdiffers _ ih => exact ih (hsettled.back (not_matchesFrom hi hp hdiffers))
  | fails hi hp hdiffers =>
      have hno := not_matchesFrom hi hp hdiffers
      simp [hsettled.trans (iff_false_intro hno)]

/-! ### Termination -/

/-- How often the last `%` can still take one byte more. -/
def movesLeft (input : Bytes) : Option (Nat × Nat) → Nat
  | none => input.length + 1
  | some (_, starIi) => input.length - starIi

/-- The rounds that are left at most: every move pays for a pass over both texts. -/
def rounds (pattern input : Bytes) (pi ii : Nat) (star : Option (Nat × Nat)) : Nat :=
  movesLeft input star * (pattern.length + input.length + 1) + (pattern.length - pi) +
    (input.length - ii)

private theorem rounds_percent (hp : pi < pattern.length) (hbehind : ∀ mark ∈ star, mark.2 ≤ ii) :
    rounds pattern input (pi + 1) ii (some (pi, ii)) < rounds pattern input pi ii star := by
  have hmoves : movesLeft input (some (pi, ii)) ≤ movesLeft input star := by
    cases star with
    | none =>
        change input.length - ii ≤ input.length + 1
        omega
    | some mark =>
        have hle := hbehind mark rfl
        change input.length - ii ≤ input.length - mark.2
        omega
  have hpasses := Nat.mul_le_mul_right (pattern.length + input.length + 1) hmoves
  unfold rounds
  omega

private theorem rounds_takes (hp : pi < pattern.length) :
    rounds pattern input (pi + 1) (ii + 1) star < rounds pattern input pi ii star := by
  unfold rounds
  omega

private theorem rounds_back {starPi starIi : Nat} (hi : starIi < input.length) :
    rounds pattern input (starPi + 1) (starIi + 1) (some (starPi, starIi + 1)) <
      rounds pattern input pi ii (some (starPi, starIi)) := by
  have hmoves : movesLeft input (some (starPi, starIi)) =
      movesLeft input (some (starPi, starIi + 1)) + 1 := by
    change input.length - starIi = input.length - (starIi + 1) + 1
    omega
  unfold rounds
  rw [hmoves, Nat.add_mul]
  omega

theorem returns_likeLoop {fuel : Nat} (hbehind : ∀ mark ∈ star, mark.2 ≤ ii)
    (henough : rounds pattern input pi ii star < fuel) :
    Returns pattern input pi ii star (likeLoop pattern input fuel pi ii star) := by
  induction fuel generalizing pi ii star with
  | zero => omega
  | succ fuel ih =>
      unfold likeLoop
      cases hi : input[ii]? with
      | none => exact .ends hi
      | some c =>
          have hless := (List.getElem?_eq_some_iff.1 hi).1
          simp only
          split
          · rename_i hp
            have hinPattern := (List.getElem?_eq_some_iff.1 hp).1
            have hfewer : rounds pattern input (pi + 1) ii _ < _ :=
              rounds_percent hinPattern hbehind
            refine .percent hi hp (ih (fun mark hmem => ?_) (by omega))
            rw [← Option.some.inj hmem]
          · rename_i hp
            split
            · rename_i hfits
              have hinPattern : pi < pattern.length := by
                rcases hfits with hwild | hsame
                · exact (List.getElem?_eq_some_iff.1 hwild).1
                · exact (List.getElem?_eq_some_iff.1 hsame).1
              have hfewer : rounds pattern input (pi + 1) (ii + 1) star < _ :=
                rounds_takes hinPattern
              refine .takes hi hp hfits (ih (fun mark hmem => ?_) (by omega))
              exact (hbehind mark hmem).trans (by omega)
            · rename_i hdiffers
              cases star with
              | none => exact .fails hi hp hdiffers
              | some mark =>
                  obtain ⟨starPi, starIi⟩ := mark
                  have hle : starIi ≤ ii := hbehind _ rfl
                  have hfewer : rounds pattern input (starPi + 1) (starIi + 1) _ <
                      rounds pattern input pi ii _ := rounds_back (by omega)
                  refine .back hi hp hdiffers (ih (fun mark hmem => ?_) (by omega))
                  rw [← Option.some.inj hmem]

/-- LIKE is the language of the pattern: the loop returns, and what it returns is whether
the input can be cut as the pattern asks. -/
theorem likeMatch_language (pattern input : Bytes) :
    Returns pattern input 0 0 none (likeMatch pattern input) ∧
      ∀ r, Returns pattern input 0 0 none r →
        r = likeMatch pattern input ∧ (r = true ↔ InLanguage pattern input) := by
  have henough : rounds pattern input 0 0 none <
      (pattern.length + input.length + 2) * (input.length + 2) := by
    have hmoves : movesLeft input none = input.length + 1 := rfl
    rw [rounds, hmoves, show (pattern.length + input.length + 2) * (input.length + 2) =
      (input.length + 1) * (pattern.length + input.length + 1) +
        (pattern.length + input.length + 2 + (input.length + 1)) by ring]
    omega
  have hreturns : Returns pattern input 0 0 none (likeMatch pattern input) :=
    returns_likeLoop nofun henough
  refine ⟨hreturns, fun r hother => ?_⟩
  have hlanguage := hother.iff settled_start
  refine ⟨?_, hlanguage⟩
  rw [Bool.eq_iff_iff, hlanguage, hreturns.iff settled_start]

end Clink.Ports.Predicate

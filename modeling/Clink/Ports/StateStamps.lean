import Mathlib.Data.Prod.Lex
import Mathlib.Data.Char
import Mathlib.Data.List.Lex
import Clink.Verified.SortedMap
import Clink.Verified.Text

/-!
# State stamps in a snapshot

The embedding of `StateVersionMap` and `StateFingerprintMap` from
`src/state/schema_version.cpp`: maps that travel in a snapshot's metadata as lines
of fields.  A byte is the character of its code.  Unpacking reads a line and sets
its stamp; what is documented for a corrupt text is `std::runtime_error`, and
`set` and `std::stoull` have other exceptions.
-/

namespace Clink.Ports.StateStamps

open Clink.Verified

inductive Exception where
  | runtimeError (what : String)
  | invalidArgument (what : String)
  | outOfRange (what : String)
  deriving DecidableEq

/-- What a caller of an `unpack` is told to expect. -/
def Documented {σ : Type} (result : Except Exception σ) : Prop :=
  (∃ m, result = .ok m) ∨ ∃ what, result = .error (.runtimeError what)

theorem documented_error {σ : Type} {e : Exception} :
    Documented (.error e : Except Exception σ) ↔ ∃ what, e = .runtimeError what := by
  constructor
  · rintro (⟨m, hm⟩ | ⟨what, hwhat⟩)
    · exact nomatch hm
    · exact ⟨what, Except.error.inj hwhat⟩
  · rintro ⟨what, rfl⟩
    exact .inr ⟨what, rfl⟩

/-! ## Reading lines -/

section Lines

variable {σ α : Type} (read : List Char → Except Exception α) (put : σ → α → Except Exception σ)

/-- The loop of an `unpack`: blank lines are skipped, the others read and put. -/
def unpackLines : σ → List (List Char) → Except Exception σ
  | m, [] => .ok m
  | m, line :: rest =>
      if line = [] then unpackLines m rest
      else
        match read line with
        | .error e => .error e
        | .ok stamp =>
            match put m stamp with
            | .error e => .error e
            | .ok m' => unpackLines m' rest

/-- What is read before the first line that cannot be. -/
def readable : List (List Char) → List α
  | [] => []
  | line :: rest =>
      if line = [] then readable rest
      else
        match read line with
        | .error _ => []
        | .ok stamp => stamp :: readable rest

/-- Stamps put one after the other. -/
def putAll : σ → List α → Except Exception σ
  | m, [] => .ok m
  | m, stamp :: rest =>
      match put m stamp with
      | .error e => .error e
      | .ok m' => putAll m' rest

variable {read} {put}

theorem putAll_snoc (stamps : List α) (stamp : α) : ∀ m : σ,
    putAll put m (stamps ++ [stamp]) =
      match putAll put m stamps with
      | .error e => .error e
      | .ok m' => put m' stamp := by
  induction stamps with
  | nil =>
      intro m
      change (match put m stamp with
        | .error e => .error e
        | .ok m' => .ok m') = put m stamp
      cases put m stamp <;> rfl
  | cons first rest ih =>
      intro m
      rw [List.cons_append, putAll, putAll]
      cases put m first with
      | error e => rfl
      | ok m' => exact ih m'

variable (read) (put) in
/-- An unpack ends as the puts of what it can read, or at the first line that it
cannot. -/
theorem unpackLines_cases (ls : List (List Char)) : ∀ m : σ,
    unpackLines read put m ls = putAll put m (readable read ls) ∨
      (∃ m', putAll put m (readable read ls) = .ok m') ∧
        ∃ line e, read line = .error e ∧ unpackLines read put m ls = .error e := by
  induction ls with
  | nil => exact fun m => .inl rfl
  | cons line rest ih =>
      intro m
      rw [unpackLines, readable]
      by_cases hblank : line = []
      · rw [if_pos hblank, if_pos hblank]
        exact ih m
      · rw [if_neg hblank, if_neg hblank]
        cases hread : read line with
        | error e => exact .inr ⟨⟨m, rfl⟩, line, e, hread, rfl⟩
        | ok stamp =>
            dsimp only
            rw [putAll]
            cases put m stamp with
            | error e => exact .inl rfl
            | ok m' => exact ih m'

/-- Where only a put can throw something else, an unpack is as documented as the
puts of what it can read. -/
theorem documented_unpackLines
    (hread : ∀ line e, read line = .error e → ∃ what, e = .runtimeError what) (m : σ)
    (ls : List (List Char)) :
    Documented (unpackLines read put m ls) ↔ Documented (putAll put m (readable read ls)) := by
  rcases unpackLines_cases read put ls m with heq | ⟨⟨m', hok⟩, line, e, herror, heq⟩
  · rw [heq]
  · obtain ⟨what, rfl⟩ := hread line e herror
    rw [heq, hok]
    exact ⟨fun _ => .inl ⟨m', rfl⟩, fun _ => .inr ⟨what, rfl⟩⟩

theorem of_readable {P : α → Prop} {ls : List (List Char)}
    (h : ∀ line ∈ ls, ∀ stamp, read line = .ok stamp → P stamp) :
    ∀ stamp ∈ readable read ls, P stamp := by
  induction ls with
  | nil => exact fun stamp hmem => absurd hmem List.not_mem_nil
  | cons line rest ih =>
      intro stamp hmem
      have hrest := ih fun l hl => h l (List.mem_cons_of_mem _ hl)
      rw [readable] at hmem
      split at hmem
      · exact hrest stamp hmem
      · cases hread : read line with
        | error e =>
            rw [hread] at hmem
            exact absurd hmem List.not_mem_nil
        | ok first =>
            rw [hread] at hmem
            rcases List.mem_cons.mp hmem with rfl | hmem
            · exact h line List.mem_cons_self stamp hread
            · exact hrest stamp hmem

theorem unpackLines_map {ls : List α} {code : α → List Char}
    (hcode : ∀ stamp ∈ ls, code stamp ≠ [] ∧ read (code stamp) = .ok stamp) : ∀ m : σ,
    unpackLines read put m (ls.map code) = putAll put m ls := by
  induction ls with
  | nil => exact fun m => rfl
  | cons stamp rest ih =>
      intro m
      obtain ⟨hne, hread⟩ := hcode stamp List.mem_cons_self
      rw [List.map_cons, unpackLines, if_neg hne, hread, putAll]
      dsimp only
      cases put m stamp with
      | error e => rfl
      | ok m' => exact ih (fun s hs => hcode s (List.mem_cons_of_mem _ hs)) m'

end Lines

/-! ## Versions -/

structure Stamp where
  version : Nat
  slot : List Char
  deriving DecidableEq

/-- Keyed by operator and state type, in the order `entries()` sorts them. -/
abbrev StateVersionMap := SortedMap (Nat ×ₗ List Char) Stamp

/-- A call of `set`, or what a line says. -/
structure VersionEntry where
  op : Nat
  stateType : List Char
  version : Nat
  slot : List Char
  deriving DecidableEq

def VersionEntry.key (e : VersionEntry) : Nat ×ₗ List Char := toLex (e.op, e.stateType)

def VersionEntry.stamp (e : VersionEntry) : Stamp := ⟨e.version, e.slot⟩

def hasDelimiter (text : List Char) : Bool := '\n' ∈ text ∨ '|' ∈ text

/-- The two slots are two different names. -/
def rebinds (existing slot : List Char) : Bool := existing ≠ [] ∧ slot ≠ [] ∧ existing ≠ slot

namespace StateVersionMap

def set (m : StateVersionMap) (e : VersionEntry) : Except Exception StateVersionMap :=
  if hasDelimiter e.stateType then
    .error (.invalidArgument ("StateVersionMap::set: state_type must not contain '\\n' or '|' " ++
      "(delimiters reserved for on-disk packing)"))
  else if hasDelimiter e.slot then
    .error (.invalidArgument ("StateVersionMap::set: slot must not contain '\\n' or '|' " ++
      "(delimiters reserved for on-disk packing)"))
  else
    match m.find? e.key with
    | none => .ok (m.upsert e.key fun _ => e.stamp)
    | some existing =>
        if rebinds existing.slot e.slot then
          .error (.invalidArgument ("StateVersionMap::set: state_type '" ++
            String.ofList e.stateType ++ "' is already bound to slot '" ++
            String.ofList existing.slot ++ "' on this operator; give each keyed-state slot a " ++
            "distinct state_type tag"))
        else .ok (m.upsert e.key fun _ => e.stamp)

def entries (m : StateVersionMap) : List VersionEntry :=
  SortedMap.entries m |>.map fun e => ⟨(ofLex e.1).1, (ofLex e.1).2, e.2.version, e.2.slot⟩

/-- The fourth field is written for a named slot only. -/
def packEntry (e : VersionEntry) : List Char :=
  decimal e.op ++ '|' :: (e.stateType ++ '|' :: (decimal e.version ++
    if e.slot ≠ [] then '|' :: e.slot else []))

def pack (m : StateVersionMap) : List Char := joinLines (m.entries.map packEntry)

def readEntry (line : List Char) : Except Exception VersionEntry :=
  match cutAt '|' line with
  | none => .error (.runtimeError "StateVersionMap::unpack: missing '|' separator in line")
  | some (opStr, rest) =>
      match cutAt '|' rest with
      | none => .error (.runtimeError "StateVersionMap::unpack: missing second '|' separator")
      | some (typeStr, rest) =>
          let fields := (cutAt '|' rest).getD (rest, [])
          if '|' ∈ fields.2 then
            .error (.runtimeError "StateVersionMap::unpack: too many '|' separators in line")
          else
            match parseDecimal (2 ^ 64) opStr with
            | none => .error (.runtimeError "StateVersionMap::unpack: invalid op_id")
            | some op =>
                match parseDecimal (2 ^ 32) fields.1 with
                | none => .error (.runtimeError "StateVersionMap::unpack: invalid version")
                | some version => .ok ⟨op, typeStr, version, fields.2⟩

def unpack (packed : List Char) : Except Exception StateVersionMap :=
  unpackLines readEntry set .empty (lines packed)

/-- What calls of `set` make. -/
inductive Built : StateVersionMap → Prop
  | empty : Built .empty
  | set {m m' : StateVersionMap} {e : VersionEntry} : Built m → e.op < 2 ^ 64 →
      e.version < 2 ^ 32 → set m e = .ok m' → Built m'

end StateVersionMap

/-! ## Fingerprints -/

abbrev StateFingerprintMap := SortedMap (Nat ×ₗ List Char) Nat

structure FingerprintEntry where
  op : Nat
  slot : List Char
  fingerprint : Nat
  deriving DecidableEq

def FingerprintEntry.key (e : FingerprintEntry) : Nat ×ₗ List Char := toLex (e.op, e.slot)

namespace StateFingerprintMap

def set (m : StateFingerprintMap) (e : FingerprintEntry) : Except Exception StateFingerprintMap :=
  if hasDelimiter e.slot then
    .error (.invalidArgument ("StateFingerprintMap: slot must not contain '\\n' or '|' " ++
      "(delimiters reserved for the packing format)"))
  else .ok (m.upsert e.key fun _ => e.fingerprint)

def entries (m : StateFingerprintMap) : List FingerprintEntry :=
  SortedMap.entries m |>.map fun e => ⟨(ofLex e.1).1, (ofLex e.1).2, e.2⟩

def packEntry (e : FingerprintEntry) : List Char :=
  decimal e.op ++ '|' :: (e.slot ++ '|' :: hexPadded 16 e.fingerprint)

def pack (m : StateFingerprintMap) : List Char := joinLines (m.entries.map packEntry)

/-- The checks of a line; the operator's digits are not yet a number of 64 bits. -/
def readEntry (line : List Char) : Except Exception FingerprintEntry :=
  match cutAt '|' line with
  | none => malformed
  | some (opStr, rest) =>
      match cutAt '|' rest with
      | none => malformed
      | some (slot, fpStr) =>
          if '|' ∈ fpStr then malformed
          else if opStr = [] ∨ ¬ opStr.all Char.isDigit then
            .error (.runtimeError "StateFingerprintMap::unpack: invalid op_id")
          else if fpStr = [] ∨ fpStr.length > 16 ∨ ¬ fpStr.all isHexDigit then
            .error (.runtimeError "StateFingerprintMap::unpack: invalid fingerprint hex")
          else .ok ⟨Nat.ofDigitChars 10 opStr 0, slot, hexValue fpStr⟩
where
  malformed : Except Exception FingerprintEntry :=
    .error (.runtimeError "StateFingerprintMap::unpack: a line is not '<op>|<slot>|<fp-hex>'")

/-- `std::stoull` of the operator, and the `set`. -/
def setRead (m : StateFingerprintMap) (e : FingerprintEntry) :
    Except Exception StateFingerprintMap :=
  if e.op ≥ 2 ^ 64 then .error (.outOfRange "stoull") else set m e

def unpack (packed : List Char) : Except Exception StateFingerprintMap :=
  unpackLines readEntry setRead .empty (lines packed)

/-- What calls of `set` make. -/
inductive Built : StateFingerprintMap → Prop
  | empty : Built .empty
  | set {m m' : StateFingerprintMap} {e : FingerprintEntry} : Built m → e.op < 2 ^ 64 →
      e.fingerprint < 2 ^ 64 → set m e = .ok m' → Built m'

end StateFingerprintMap

/-! ## Which texts of versions are unpacked as documented -/

namespace StateVersionMap

/-- The last stamp of a key. -/
def lastOf (es : List VersionEntry) (key : Nat ×ₗ List Char) : Option VersionEntry :=
  es.reverse.find? (·.key = key)

/-- No stamp binds another slot than the one before it of the same operator and
state type, where both name one. -/
def SlotsAgree (es : List VersionEntry) : Prop :=
  ∀ pre e post, es = pre ++ e :: post → ∀ e', lastOf pre e.key = some e' →
    rebinds e'.slot e.slot = false

private theorem lastOf_snoc (es : List VersionEntry) (e : VersionEntry) (key : Nat ×ₗ List Char) :
    lastOf (es ++ [e]) key = if e.key = key then some e else lastOf es key := by
  unfold lastOf
  rw [List.reverse_append, List.reverse_singleton, List.singleton_append, List.find?_cons]
  by_cases hkey : e.key = key <;> simp [hkey]

variable {e : VersionEntry}

private theorem slotsAgree_snoc {es : List VersionEntry} :
    SlotsAgree (es ++ [e]) ↔
      SlotsAgree es ∧ ∀ e', lastOf es e.key = some e' → rebinds e'.slot e.slot = false := by
  constructor
  · intro h
    refine ⟨fun pre x post heq => ?_, h es e [] rfl⟩
    exact h pre x (post ++ [e]) (by rw [heq]; simp)
  · rintro ⟨hinit, hlast⟩ pre x post heq
    rcases List.eq_nil_or_concat post with rfl | ⟨post, y, rfl⟩
    · obtain ⟨rfl, hx⟩ := List.append_inj' heq rfl
      obtain rfl : e = x := (List.cons.inj hx).1
      exact hlast
    · rw [List.concat_eq_append, ← List.cons_append, ← List.append_assoc] at heq
      exact hinit pre x post (List.append_inj' heq rfl).1

variable {m : StateVersionMap}

/-- A `set` of a line: only another slot for the same key is refused. -/
theorem set_of_clean (htype : hasDelimiter e.stateType = false)
    (hslot : hasDelimiter e.slot = false) :
    ((∀ existing, m.find? e.key = some existing → rebinds existing.slot e.slot = false) →
        set m e = .ok (m.upsert e.key fun _ => e.stamp)) ∧
      ((∃ existing, m.find? e.key = some existing ∧ rebinds existing.slot e.slot = true) →
        ∃ what, set m e = .error (.invalidArgument what)) := by
  have htype' : ¬ hasDelimiter e.stateType = true := by simp [htype]
  have hslot' : ¬ hasDelimiter e.slot = true := by simp [hslot]
  unfold set
  rw [if_neg htype', if_neg hslot']
  constructor
  · intro hbound
    cases hfind : m.find? e.key with
    | none => rfl
    | some existing =>
        dsimp only
        rw [if_neg (by simp [hbound existing hfind])]
  · rintro ⟨existing, hfind, hrebinds⟩
    rw [hfind]
    dsimp only
    rw [if_pos hrebinds]
    exact ⟨_, rfl⟩

theorem putAll_set (es : List VersionEntry)
    (hclean : ∀ e ∈ es, hasDelimiter e.stateType = false ∧ hasDelimiter e.slot = false) :
    (SlotsAgree es → ∃ m, putAll set .empty es = .ok m ∧
        ∀ key, m.find? key = (lastOf es key).map VersionEntry.stamp) ∧
      (¬ SlotsAgree es → ∃ what, putAll set .empty es = .error (.invalidArgument what)) := by
  induction es using List.reverseRecOn with
  | nil =>
      refine ⟨fun _ => ⟨.empty, rfl, fun key => rfl⟩, fun hnot => absurd ?_ hnot⟩
      exact fun pre e post heq => by simp at heq
  | append_singleton es e ih =>
      obtain ⟨hagree, hdiffer⟩ := ih fun x hx => hclean x (List.mem_append_left _ hx)
      obtain ⟨htype, hslot⟩ := hclean e (List.mem_append_right _ List.mem_cons_self)
      rw [slotsAgree_snoc]
      by_cases hes : SlotsAgree es
      · obtain ⟨m, hm, hfind⟩ := hagree hes
        rw [putAll_snoc, hm]
        dsimp only
        obtain ⟨hset, hrefuse⟩ := set_of_clean (m := m) htype hslot
        constructor
        · rintro ⟨-, hlast⟩
          refine ⟨_, hset fun existing hexisting => ?_, fun key => ?_⟩
          · rw [hfind] at hexisting
            obtain ⟨e', he', rfl⟩ := Option.map_eq_some_iff.mp hexisting
            exact hlast e' he'
          · rw [SortedMap.find?_upsert, lastOf_snoc]
            by_cases hkey : key = e.key
            · rw [if_pos hkey, if_pos hkey.symm]
              rfl
            · rw [if_neg hkey, if_neg (Ne.symm hkey), hfind]
        · intro hnot
          have hlast : ∃ e', lastOf es e.key = some e' ∧ rebinds e'.slot e.slot = true := by
            by_contra hnone
            refine hnot ⟨hes, fun e' he' => ?_⟩
            by_contra htrue
            exact hnone ⟨e', he', Bool.of_not_eq_false htrue⟩
          obtain ⟨e', he', hrebinds⟩ := hlast
          refine hrefuse ⟨e'.stamp, ?_, hrebinds⟩
          rw [hfind, he']
          rfl
      · obtain ⟨what, herror⟩ := hdiffer hes
        rw [putAll_snoc, herror]
        exact ⟨fun h => absurd h.1 hes, fun _ => ⟨what, rfl⟩⟩

theorem readEntry_error {line : List Char} {e : Exception}
    (h : readEntry line = .error e) : ∃ what, e = .runtimeError what := by
  unfold readEntry at h
  split at h
  · exact ⟨_, (Except.error.inj h).symm⟩
  split at h
  · exact ⟨_, (Except.error.inj h).symm⟩
  dsimp only at h
  split at h
  · exact ⟨_, (Except.error.inj h).symm⟩
  split at h
  · exact ⟨_, (Except.error.inj h).symm⟩
  split at h
  · exact ⟨_, (Except.error.inj h).symm⟩
  · exact nomatch h

theorem readEntry_clean {line : List Char} (hline : '\n' ∉ line) (h : readEntry line = .ok e) :
    hasDelimiter e.stateType = false ∧ hasDelimiter e.slot = false := by
  unfold readEntry at h
  split at h
  · exact nomatch h
  rename_i opStr rest hop
  split at h
  · exact nomatch h
  rename_i typeStr rest' htype
  dsimp only at h
  split at h
  · exact nomatch h
  rename_i hslot
  split at h
  · exact nomatch h
  split at h
  · exact nomatch h
  obtain rfl := Except.ok.inj h
  obtain ⟨-, -, hrest⟩ := cutAt_eq_some hop
  obtain ⟨hbar, htypeSub, hrestSub⟩ := cutAt_eq_some htype
  have hsub : ∀ x ∈ ((cutAt '|' rest').getD (rest', [])).2, x ∈ rest' := by
    intro x hx
    cases hcut : cutAt '|' rest' with
    | none =>
        rw [hcut] at hx
        exact absurd hx List.not_mem_nil
    | some fields =>
        rw [hcut] at hx
        exact (cutAt_eq_some hcut).2.2 x hx
  unfold hasDelimiter
  constructor
  · refine decide_eq_false (not_or.mpr ⟨fun hnl => hline ?_, hbar⟩)
    exact hrest _ (htypeSub _ hnl)
  · refine decide_eq_false (not_or.mpr ⟨fun hnl => hline ?_, hslot⟩)
    exact hrest _ (hrestSub _ (hsub _ hnl))

/-- An unpack of versions is as documented exactly where the slots of what it reads
agree. -/
theorem documented_unpack (packed : List Char) :
    Documented (unpack packed) ↔ SlotsAgree (readable readEntry (lines packed)) := by
  unfold unpack
  rw [documented_unpackLines fun line e => readEntry_error]
  obtain ⟨hagree, hdiffer⟩ := putAll_set (readable readEntry (lines packed))
    (of_readable fun line hline e => readEntry_clean (newline_notMem_lines packed line hline))
  by_cases hslots : SlotsAgree (readable readEntry (lines packed))
  · obtain ⟨m, hm, -⟩ := hagree hslots
    exact ⟨fun _ => hslots, fun _ => .inl ⟨m, hm⟩⟩
  · obtain ⟨what, herror⟩ := hdiffer hslots
    refine ⟨fun hdoc => ?_, fun h => absurd h hslots⟩
    rw [herror, documented_error] at hdoc
    obtain ⟨what', hwhat⟩ := hdoc
    exact nomatch hwhat

/-! ### The round trip -/

/-- What can be written so that it reads back. -/
structure Writable (e : VersionEntry) : Prop where
  op : e.op < 2 ^ 64
  version : e.version < 2 ^ 32
  stateType : hasDelimiter e.stateType = false
  slot : hasDelimiter e.slot = false

theorem notMem_of_clean {text : List Char} (h : hasDelimiter text = false) :
    '\n' ∉ text ∧ '|' ∉ text :=
  not_or.mp (of_decide_eq_false h)

theorem readEntry_packEntry (h : Writable e) :
    packEntry e ≠ [] ∧ '\n' ∉ packEntry e ∧ readEntry (packEntry e) = .ok e := by
  obtain ⟨htypeLine, htypeBar⟩ := notMem_of_clean h.stateType
  obtain ⟨hslotLine, hslotBar⟩ := notMem_of_clean h.slot
  have hopBar : '|' ∉ decimal e.op := not_mem_decimal (by decide)
  have hversionBar : '|' ∉ decimal e.version := not_mem_decimal (by decide)
  have hopLine : '\n' ∉ decimal e.op := not_mem_decimal (by decide)
  have hversionLine : '\n' ∉ decimal e.version := not_mem_decimal (by decide)
  refine ⟨?_, ?_, ?_⟩
  · unfold packEntry
    simp [decimal_ne_nil]
  · unfold packEntry
    split <;> simp [hopLine, htypeLine, hversionLine, hslotLine]
  · have hfields : (cutAt '|' (decimal e.version ++ if e.slot ≠ [] then '|' :: e.slot else [])).getD
        (decimal e.version ++ if e.slot ≠ [] then '|' :: e.slot else [], []) =
          (decimal e.version, e.slot) := by
      by_cases hslot : e.slot = []
      · rw [if_neg (not_not.mpr hslot), List.append_nil, cutAt_eq_none hversionBar, hslot]
        rfl
      · rw [if_pos hslot, cutAt_append hversionBar]
        rfl
    unfold readEntry packEntry
    rw [cutAt_append hopBar]
    dsimp only
    rw [cutAt_append htypeBar]
    dsimp only
    rw [hfields, if_neg hslotBar, parseDecimal_decimal h.op, parseDecimal_decimal h.version]

theorem Built.writable (h : Built m) : ∀ e ∈ m.entries, Writable e := by
  have hall : ∀ key stamp, m.find? key = some stamp →
      Writable ⟨(ofLex key).1, (ofLex key).2, stamp.version, stamp.slot⟩ := by
    induction h with
    | empty => exact fun key stamp hfind => nomatch hfind
    | @set m m' e _ hop hversion hset ih =>
        intro key stamp hfind
        have hmap : m' = m.upsert e.key (fun _ => e.stamp) ∧
            hasDelimiter e.stateType = false ∧ hasDelimiter e.slot = false := by
          unfold StateVersionMap.set at hset
          split at hset
          · exact nomatch hset
          rename_i htype
          split at hset
          · exact nomatch hset
          rename_i hslot
          refine ⟨?_, Bool.of_not_eq_true htype, Bool.of_not_eq_true hslot⟩
          split at hset
          · exact (Except.ok.inj hset).symm
          · split at hset
            · exact nomatch hset
            · exact (Except.ok.inj hset).symm
        obtain ⟨rfl, htype, hslot⟩ := hmap
        rw [SortedMap.find?_upsert] at hfind
        by_cases hkey : key = e.key
        · rw [if_pos hkey] at hfind
          obtain rfl := Option.some.inj hfind
          rw [hkey]
          exact ⟨hop, hversion, htype, hslot⟩
        · rw [if_neg hkey] at hfind
          exact ih key stamp hfind
  intro e he
  obtain ⟨⟨key, stamp⟩, hmem, rfl⟩ := List.mem_map.mp he
  exact hall key stamp (SortedMap.find?_eq_some_iff.mpr hmem)

theorem mem_of_lastOf {es : List VersionEntry} {key : Nat ×ₗ List Char}
    (h : lastOf es key = some e) : e ∈ es ∧ e.key = key :=
  ⟨List.mem_reverse.mp (List.mem_of_find?_eq_some h), by simpa using List.find?_some h⟩

private theorem keys_entries (m : StateVersionMap) : m.entries.map VersionEntry.key = m.keys := by
  unfold entries SortedMap.keys
  rw [List.map_map]
  rfl

private theorem slotsAgree_entries (m : StateVersionMap) : SlotsAgree m.entries := by
  intro pre e post heq e' he'
  obtain ⟨hmem, hkey⟩ := mem_of_lastOf he'
  have hnodup := m.nodup_keys
  rw [← keys_entries, heq, List.map_append, List.nodup_append] at hnodup
  exact absurd hkey
    (hnodup.2.2 _ (List.mem_map_of_mem hmem) _ (List.mem_map_of_mem List.mem_cons_self))

private theorem lastOf_entries (m : StateVersionMap) (key : Nat ×ₗ List Char) :
    (lastOf m.entries key).map VersionEntry.stamp = m.find? key := by
  cases hlast : lastOf m.entries key with
  | none =>
      cases hfind : m.find? key with
      | none => rfl
      | some stamp =>
          have hmem : (⟨(ofLex key).1, (ofLex key).2, stamp.version, stamp.slot⟩ : VersionEntry) ∈
              m.entries := List.mem_map_of_mem (SortedMap.find?_eq_some_iff.mp hfind)
          have hnone := List.find?_eq_none.mp hlast _ (List.mem_reverse.mpr hmem)
          exact absurd rfl (of_decide_eq_false (Bool.of_not_eq_true hnone))
  | some e =>
      obtain ⟨hmem, rfl⟩ := mem_of_lastOf hlast
      obtain ⟨⟨key, stamp⟩, hentry, rfl⟩ := List.mem_map.mp hmem
      exact (SortedMap.find?_eq_some_iff.mpr hentry).symm

theorem unpack_pack (h : Built m) : unpack m.pack = .ok m := by
  have hwritable := h.writable
  have hlines : lines m.pack = m.entries.map packEntry := by
    apply lines_joinLines
    intro line hline
    obtain ⟨e, he, rfl⟩ := List.mem_map.mp hline
    obtain ⟨hne, hnl, -⟩ := readEntry_packEntry (hwritable e he)
    exact ⟨hne, hnl⟩
  obtain ⟨m', hput, hfind⟩ := (putAll_set m.entries fun e he =>
    ⟨(hwritable e he).stateType, (hwritable e he).slot⟩).1 (slotsAgree_entries m)
  have hsame : m' = m := by
    apply SortedMap.ext_find?
    intro key
    rw [hfind, lastOf_entries]
  unfold unpack
  rw [hlines, unpackLines_map, hput, hsame]
  intro e he
  obtain ⟨hne, -, hread⟩ := readEntry_packEntry (hwritable e he)
  exact ⟨hne, hread⟩

end StateVersionMap

/-! ## Which texts of fingerprints are unpacked as documented -/

namespace StateFingerprintMap

theorem readEntry_error {line : List Char} {e : Exception}
    (h : readEntry line = .error e) : ∃ what, e = .runtimeError what := by
  unfold readEntry readEntry.malformed at h
  split at h
  · exact ⟨_, (Except.error.inj h).symm⟩
  split at h
  · exact ⟨_, (Except.error.inj h).symm⟩
  split at h
  · exact ⟨_, (Except.error.inj h).symm⟩
  split at h
  · exact ⟨_, (Except.error.inj h).symm⟩
  split at h
  · exact ⟨_, (Except.error.inj h).symm⟩
  · exact nomatch h

theorem readEntry_clean {line : List Char} {e : FingerprintEntry} (hline : '\n' ∉ line)
    (h : readEntry line = .ok e) : hasDelimiter e.slot = false := by
  unfold readEntry readEntry.malformed at h
  split at h
  · exact nomatch h
  rename_i opStr rest hop
  split at h
  · exact nomatch h
  rename_i slot fpStr hslot
  split at h
  · exact nomatch h
  split at h
  · exact nomatch h
  split at h
  · exact nomatch h
  obtain rfl := Except.ok.inj h
  obtain ⟨-, -, hrest⟩ := cutAt_eq_some hop
  obtain ⟨hbar, hsub, -⟩ := cutAt_eq_some hslot
  exact decide_eq_false (not_or.mpr ⟨fun hnl => hline (hrest _ (hsub _ hnl)), hbar⟩)

/-- The operators of a list are numbers of 64 bits. -/
def OpsFit (es : List FingerprintEntry) : Prop := ∀ e ∈ es, e.op < 2 ^ 64

theorem putAll_setRead (es : List FingerprintEntry)
    (hclean : ∀ e ∈ es, hasDelimiter e.slot = false) : ∀ m : StateFingerprintMap,
    (OpsFit es → putAll setRead m es =
        .ok (es.foldl (fun m e => m.upsert e.key fun _ => e.fingerprint) m)) ∧
      (¬ OpsFit es → putAll setRead m es = .error (.outOfRange "stoull")) := by
  induction es with
  | nil =>
      intro m
      exact ⟨fun _ => rfl, fun hnot => absurd (fun e he => absurd he List.not_mem_nil) hnot⟩
  | cons e rest ih =>
      intro m
      have hslot : ¬ hasDelimiter e.slot = true := by simp [hclean e List.mem_cons_self]
      have hrest := ih fun x hx => hclean x (List.mem_cons_of_mem _ hx)
      by_cases hop : e.op < 2 ^ 64
      · have hset : setRead m e = .ok (m.upsert e.key fun _ => e.fingerprint) := by
          unfold setRead set
          rw [if_neg (Nat.not_le.mpr hop), if_neg hslot]
        have hfits : OpsFit (e :: rest) ↔ OpsFit rest := by
          constructor
          · exact fun h x hx => h x (List.mem_cons_of_mem _ hx)
          · exact fun h x hx => (List.mem_cons.mp hx).elim (fun heq => heq ▸ hop) (h x)
        rw [putAll, hset, hfits]
        exact hrest _
      · have hset : setRead m e = .error (.outOfRange "stoull") := if_pos (Nat.not_lt.mp hop)
        refine ⟨fun h => absurd (h e List.mem_cons_self) hop, fun _ => ?_⟩
        rw [putAll, hset]

theorem documented_unpack (packed : List Char) :
    Documented (unpack packed) ↔ OpsFit (readable readEntry (lines packed)) := by
  unfold unpack
  rw [documented_unpackLines fun line e => readEntry_error]
  obtain ⟨hfits, hlarge⟩ := putAll_setRead (readable readEntry (lines packed))
    (of_readable fun line hline e => readEntry_clean (newline_notMem_lines packed line hline))
      .empty
  by_cases hops : OpsFit (readable readEntry (lines packed))
  · exact ⟨fun _ => hops, fun _ => .inl ⟨_, hfits hops⟩⟩
  · refine ⟨fun hdoc => ?_, fun h => absurd h hops⟩
    rw [hlarge hops, documented_error] at hdoc
    obtain ⟨what, hwhat⟩ := hdoc
    exact nomatch hwhat

/-! ### The round trip -/

structure Writable (e : FingerprintEntry) : Prop where
  op : e.op < 2 ^ 64
  fingerprint : e.fingerprint < 2 ^ 64
  slot : hasDelimiter e.slot = false

theorem readEntry_packEntry {e : FingerprintEntry} (h : Writable e) :
    packEntry e ≠ [] ∧ '\n' ∉ packEntry e ∧ readEntry (packEntry e) = .ok e := by
  obtain ⟨hslotLine, hslotBar⟩ := StateVersionMap.notMem_of_clean h.slot
  have hopBar : '|' ∉ decimal e.op := not_mem_decimal (by decide)
  have hopLine : '\n' ∉ decimal e.op := not_mem_decimal (by decide)
  have hhex : ∀ c ∈ hexPadded 16 e.fingerprint, isHexDigit c = true ∧ c ≠ '|' ∧ c ≠ '\n' := by
    intro c hc
    obtain ⟨d, hd, rfl⟩ := mem_hexPadded hc
    exact (hexDigit_hexChar hd).2
  have hlength := length_hexPadded 16 e.fingerprint
  refine ⟨?_, ?_, ?_⟩
  · unfold packEntry
    simp
  · intro hmem
    unfold packEntry at hmem
    simp only [List.mem_append, List.mem_cons] at hmem
    rcases hmem with hmem | hmem | hmem | hmem | hmem
    · exact hopLine hmem
    · exact absurd hmem (by decide)
    · exact hslotLine hmem
    · exact absurd hmem (by decide)
    · exact (hhex _ hmem).2.2 rfl
  · have hbar : '|' ∉ hexPadded 16 e.fingerprint := fun hmem => (hhex _ hmem).2.1 rfl
    have hdigits : ¬ (decimal e.op = [] ∨ ¬ (decimal e.op).all Char.isDigit = true) := by
      rw [not_or, not_not, List.all_eq_true]
      exact ⟨decimal_ne_nil _, fun c hc => isDigit_of_mem_decimal hc⟩
    have hhexed : ¬ (hexPadded 16 e.fingerprint = [] ∨
        (hexPadded 16 e.fingerprint).length > 16 ∨
          ¬ (hexPadded 16 e.fingerprint).all isHexDigit = true) := by
      rw [not_or, not_or, not_not, List.all_eq_true]
      refine ⟨fun hnil => ?_, by omega, fun c hc => (hhex c hc).1⟩
      rw [hnil] at hlength
      exact absurd hlength (by decide)
    have hop : Nat.ofDigitChars 10 (decimal e.op) 0 = e.op := Nat.ofDigitChars_ten_toDigits
    unfold readEntry packEntry
    rw [cutAt_append hopBar]
    dsimp only
    rw [cutAt_append hslotBar]
    dsimp only
    rw [if_neg hbar, if_neg hdigits, if_neg hhexed, hop,
      hexValue_hexPadded (show e.fingerprint < 16 ^ 16 from h.fingerprint)]

theorem Built.writable {m : StateFingerprintMap} (h : Built m) :
    ∀ e ∈ m.entries, Writable e := by
  have hall : ∀ key fingerprint, m.find? key = some fingerprint →
      Writable ⟨(ofLex key).1, (ofLex key).2, fingerprint⟩ := by
    induction h with
    | empty => exact fun key fingerprint hfind => nomatch hfind
    | @set m m' e _ hop hfingerprint hset ih =>
        intro key fingerprint hfind
        unfold StateFingerprintMap.set at hset
        split at hset
        · exact nomatch hset
        rename_i hslot
        obtain rfl := Except.ok.inj hset
        rw [SortedMap.find?_upsert] at hfind
        by_cases hkey : key = e.key
        · rw [if_pos hkey] at hfind
          obtain rfl := Option.some.inj hfind
          rw [hkey]
          exact ⟨hop, hfingerprint, Bool.of_not_eq_true hslot⟩
        · rw [if_neg hkey] at hfind
          exact ih key fingerprint hfind
  intro e he
  obtain ⟨⟨key, fingerprint⟩, hmem, rfl⟩ := List.mem_map.mp he
  exact hall key fingerprint (SortedMap.find?_eq_some_iff.mpr hmem)

theorem unpack_pack {m : StateFingerprintMap} (h : Built m) : unpack m.pack = .ok m := by
  have hwritable := h.writable
  have hlines : lines m.pack = m.entries.map packEntry := by
    apply lines_joinLines
    intro line hline
    obtain ⟨e, he, rfl⟩ := List.mem_map.mp hline
    obtain ⟨hne, hnl, -⟩ := readEntry_packEntry (hwritable e he)
    exact ⟨hne, hnl⟩
  have hput := (putAll_setRead m.entries (fun e he => (hwritable e he).slot) .empty).1
    fun e he => (hwritable e he).op
  have hsame : m.entries.foldl (fun m e => m.upsert e.key fun _ => e.fingerprint)
      (SortedMap.empty : StateFingerprintMap) = m := by
    have hall : m.entries.foldl (fun m e => m.upsert e.key fun _ => e.fingerprint)
        (SortedMap.empty : StateFingerprintMap) = SortedMap.putAll .empty m := by
      unfold entries
      rw [List.foldl_map]
      rfl
    rw [hall]
    apply SortedMap.ext_find?
    intro key
    rw [SortedMap.find?_putAll, SortedMap.find?_empty, Option.or_none]
  unfold unpack
  rw [hlines, unpackLines_map, hput, hsame]
  intro e he
  obtain ⟨hne, -, hread⟩ := readEntry_packEntry (hwritable e he)
  exact ⟨hne, hread⟩

end StateFingerprintMap

/-- Maps of stamps survive packing; a text of versions is unpacked or refused as
documented exactly where no two stamps it can read bind a state type to two slots,
and a text of fingerprints where the operators it can read are numbers of 64 bits. -/
theorem stamp_codecs_iff (versions : StateVersionMap) (fingerprints : StateFingerprintMap)
    (packed : List Char) :
    (StateVersionMap.Built versions →
      StateVersionMap.unpack (StateVersionMap.pack versions) = .ok versions) ∧
    (StateFingerprintMap.Built fingerprints →
      StateFingerprintMap.unpack (StateFingerprintMap.pack fingerprints) = .ok fingerprints) ∧
    (Documented (StateVersionMap.unpack packed) ↔
      StateVersionMap.SlotsAgree (readable StateVersionMap.readEntry (lines packed))) ∧
    (Documented (StateFingerprintMap.unpack packed) ↔
      StateFingerprintMap.OpsFit (readable StateFingerprintMap.readEntry (lines packed))) :=
  ⟨StateVersionMap.unpack_pack, StateFingerprintMap.unpack_pack,
    StateVersionMap.documented_unpack packed, StateFingerprintMap.documented_unpack packed⟩

/-- One stamp with a slot. -/
def counterStamp : StateVersionMap :=
  SortedMap.empty.upsert (toLex (7, "Counter".toList)) fun _ => ⟨2, "slot_a".toList⟩

theorem stamp_codecs_iff_counter :
    StateVersionMap.pack counterStamp = "7|Counter|2|slot_a".toList ∧
      StateVersionMap.unpack "7|Counter|2|slot_a".toList = .ok counterStamp ∧
      Documented (StateFingerprintMap.unpack "7|slot|zz".toList) := by
  obtain ⟨hversions, -, -, hdocumented⟩ :=
    stamp_codecs_iff counterStamp SortedMap.empty "7|slot|zz".toList
  have hpack : StateVersionMap.pack counterStamp = "7|Counter|2|slot_a".toList := by decide +kernel
  have hbuilt : StateVersionMap.Built counterStamp :=
    .set (e := ⟨7, "Counter".toList, 2, "slot_a".toList⟩) .empty (by decide) (by decide)
      (by decide +kernel)
  refine ⟨hpack, hpack ▸ hversions hbuilt, hdocumented.mpr ?_⟩
  have hnone : readable StateFingerprintMap.readEntry (lines "7|slot|zz".toList) = [] := by
    decide +kernel
  rw [hnone]
  exact fun e he => absurd he List.not_mem_nil

/-- A second slot for a state type escapes as `std::invalid_argument`, an operator
beyond 64 bits as `std::out_of_range`. -/
theorem unpack_throws_others :
    ¬ Documented (StateVersionMap.unpack "1|T|1|a\n1|T|1|b".toList) ∧
      ¬ Documented (StateFingerprintMap.unpack "18446744073709551616|s|0".toList) := by
  have hslot : StateVersionMap.unpack "1|T|1|a\n1|T|1|b".toList =
      .error (.invalidArgument ("StateVersionMap::set: state_type 'T' is already bound to slot " ++
        "'a' on this operator; give each keyed-state slot a distinct state_type tag")) := by
    decide +kernel
  have hop : StateFingerprintMap.unpack "18446744073709551616|s|0".toList =
      .error (.outOfRange "stoull") := by
    decide +kernel
  rw [hslot, hop, documented_error, documented_error]
  constructor
  · rintro ⟨what, hwhat⟩
    exact nomatch hwhat
  · rintro ⟨what, hwhat⟩
    exact nomatch hwhat

end Clink.Ports.StateStamps

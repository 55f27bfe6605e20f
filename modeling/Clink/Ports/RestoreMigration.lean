import Clink.Ports.InMemoryStateBackend
import Clink.Ports.StateMigration
import Clink.Ports.StateStamps

/-!
# Migration of restored state

The embedding of `check_restore_compatibility` and `migrate_restored_state`
(`src/state/state_migration_on_restore.cpp`) over a backend of
`Clink.Ports.InMemoryStateBackend`, the registry of `Clink.Ports.StateMigration` and the
stamps of `Clink.Ports.StateStamps`.  The expected entries are taken one after another:
the rows an entry names are read, put through the chain and written back, and the
fingerprints of the entry are cleared; the versions are stamped at the end.

What a throw leaves behind is therefore what the entries before it have done, and an entry
without a slot names every row of its operator, of operator state too.  `writes` is a
record of the rows written, for counting.
-/

namespace Clink.Ports.RestoreMigration

open Clink.Verified
open Clink.Ports.InMemoryStateBackend (Backend Key Value isOperatorState)
open Clink.Ports.StateMigration (Bytes Registry Schema MigrateError)
open Clink.Ports.StateStamps

variable {ε : Type}

/-- A backend after its restore. -/
structure Restored where
  backend : Backend
  versions : StateVersionMap
  fingerprints : StateFingerprintMap
  /-- The rows a migration has written, in order. -/
  writes : List (Nat × Key) := []

inductive Failure (ε : Type)
  | noPath (op : Nat) (stateType : List Char) (fromVersion toVersion : Nat)
  | migrate (e : MigrateError ε)
  | refused (e : Exception)

structure StateIncompatibility where
  op : Nat
  stateType : List Char
  fromVersion : Nat
  toVersion : Nat

/-- `stored.get(op, state_type).value_or(1)`. -/
def storedVersion (stored : StateVersionMap) (e : VersionEntry) : Nat :=
  ((stored.find? e.key).map Stamp.version).getD 1

/-- The bytes of a name. -/
def slotBytes (slot : List Char) : Key := slot.map fun c => UInt8.ofNat c.toNat

/-- The rows an entry names: `[kg_byte][slot_name]['|'][user_key_bytes]`, all of them for no
slot. -/
def inSlot (slot : List Char) (key : Key) : Bool :=
  if slot = [] then true
  else if key.length < 1 + slot.length + 1 then false
  else (key.drop 1).take slot.length == slotBytes slot && key[1 + slot.length]? == some 0x7C

/-- `StateFingerprintMap::clear_for`. -/
def clearFor (m : StateFingerprintMap) (op : Nat) (slot : List Char) : StateFingerprintMap :=
  if slot ≠ [] then m.erase (toLex (op, slot)) else m.retain fun key _ => (ofLex key).1 ≠ op

section

variable (reg : Registry ε) (arrowMigrateBytes : Bytes → Schema → Schema → Except ε Bytes)

def hasPath (stored : StateVersionMap) (e : VersionEntry) : Bool :=
  reg.hasPath (String.ofList e.stateType) (storedVersion stored e) e.version

/-- The chain from the stored version to the expected one. -/
def chain (stored : StateVersionMap) (e : VersionEntry) (value : Value) :
    Except (MigrateError ε) Value :=
  reg.migrate arrowMigrateBytes (String.ofList e.stateType) (storedVersion stored e) e.version value

def checkRestoreCompatibility (stored expected : StateVersionMap) : List StateIncompatibility :=
  (StateVersionMap.entries expected).filterMap fun e =>
    if storedVersion stored e = e.version then none
    else if hasPath reg stored e then none
    else some ⟨e.op, e.stateType, storedVersion stored e, e.version⟩

/-- The rows of the entry, migrated. -/
def collect (stored : StateVersionMap) (e : VersionEntry) :
    List (Key × Value) → Except (MigrateError ε) (List (Key × Value))
  | [] => .ok []
  | (key, value) :: rows =>
      if inSlot e.slot key then
        match chain reg arrowMigrateBytes stored e value with
        | .error x => .error x
        | .ok value' => (collect stored e rows).map ((key, value') :: ·)
      else collect stored e rows

/-- The rows are written back. -/
def writeBack (s : Restored) (op : Nat) (rows : List (Key × Value)) : Restored :=
  rows.foldl (fun s row =>
    { s with backend := s.backend.put op row.1 row.2, writes := s.writes ++ [(op, row.1)] }) s

/-- The loop over the expected entries. -/
def migrateEntries (stored : StateVersionMap) :
    List VersionEntry → Restored → Restored × Option (Failure ε)
  | [], s => (s, none)
  | e :: es, s =>
      if storedVersion stored e = e.version then migrateEntries stored es s
      else if !hasPath reg stored e then
        (s, some (.noPath e.op e.stateType (storedVersion stored e) e.version))
      else
        match collect reg arrowMigrateBytes stored e (s.backend.rows e.op) with
        | .error x => (s, some (.migrate x))
        | .ok migrated =>
            let s' := writeBack s e.op migrated
            migrateEntries stored es
              { s' with fingerprints := clearFor s'.fingerprints e.op e.slot }

def migrateRestoredState (s : Restored) (expected : StateVersionMap) :
    Restored × Option (Failure ε) :=
  let entries := StateVersionMap.entries expected
  let r := migrateEntries reg arrowMigrateBytes s.versions entries s
  match r.2 with
  | some failure => (r.1, some failure)
  | none =>
      match putAll StateVersionMap.set s.versions entries with
      | .error e => (r.1, some (.refused e))
      | .ok restamped => ({ r.1 with versions := restamped }, none)

end

/-! ## What is asked of a migration -/

/-- The entry names the row of the operator. -/
def Covers (e : VersionEntry) (op : Nat) (key : Key) : Prop :=
  e.op = op ∧ inSlot e.slot key = true

instance (e : VersionEntry) (op : Nat) (key : Key) : Decidable (Covers e op key) :=
  inferInstanceAs (Decidable (_ ∧ _))

/-- The entries whose version differs from the stored one. -/
def active (stored expected : StateVersionMap) : List VersionEntry :=
  (StateVersionMap.entries expected).filter fun e => storedVersion stored e ≠ e.version

/-- All or nothing; each keyed value of an entry through its chain once, every other row left
alone; the stamps merged; nothing to do a second time; and a missing path fails as the checker
says. -/
structure Migrates (reg : Registry ε)
    (arrowMigrateBytes : Bytes → Schema → Schema → Except ε Bytes) (s : Restored)
    (expected : StateVersionMap) (r : Restored × Option (Failure ε)) : Prop where
  thrown : r.2 ≠ none → r.1 = s
  migrated : r.2 = none → ∀ op key value, s.backend.get op key = some value →
    isOperatorState key = false → ∀ e ∈ active s.versions expected, Covers e op key →
      r.1.writes.count (op, key) = s.writes.count (op, key) + 1 ∧
      ∃ value', chain reg arrowMigrateBytes s.versions e value = .ok value' ∧
        r.1.backend.get op key = some value'
  others : r.2 = none → ∀ op key, (s.backend.get op key = none ∨ isOperatorState key = true ∨
      ∀ e ∈ active s.versions expected, ¬ Covers e op key) →
    r.1.backend.get op key = s.backend.get op key ∧
    r.1.writes.count (op, key) = s.writes.count (op, key)
  stamps : r.2 = none → ∀ key,
    r.1.versions.find? key = (SortedMap.find? expected key).or (s.versions.find? key)
  again : r.2 = none →
    migrateRestoredState reg arrowMigrateBytes r.1 expected = (r.1, none)
  path : (∃ op stateType fromVersion toVersion,
      r.2 = some (.noPath op stateType fromVersion toVersion)) ↔
    checkRestoreCompatibility reg s.versions expected ≠ []

/-! ## When it is met -/

/-- The entry has no path, or its chain fails on a value it names. -/
def Fails (reg : Registry ε) (arrowMigrateBytes : Bytes → Schema → Schema → Except ε Bytes)
    (s : Restored) (e : VersionEntry) : Prop :=
  hasPath reg s.versions e = false ∨
    ∃ key value x, s.backend.get e.op key = some value ∧ inSlot e.slot key = true ∧
      chain reg arrowMigrateBytes s.versions e value = .error x

/-- A fingerprint is stamped for the entry. -/
def Stamped (m : StateFingerprintMap) (e : VersionEntry) : Prop :=
  ∃ slot, (m.find? (toLex (e.op, slot))).isSome = true ∧ (e.slot = [] ∨ e.slot = slot)

/-- The entry names a row or a fingerprint. -/
def Touches (s : Restored) (e : VersionEntry) : Prop :=
  (∃ key value, s.backend.get e.op key = some value ∧ inSlot e.slot key = true) ∨
    Stamped s.fingerprints e

/-- The stamp of the entry cannot be set: its state type is bound to another slot. -/
def Refused (stored : StateVersionMap) (e : VersionEntry) : Prop :=
  hasDelimiter e.stateType = true ∨ hasDelimiter e.slot = true ∨
    ∃ stamp, stored.find? e.key = some stamp ∧ rebinds stamp.slot e.slot = true

/-- The first entry that fails comes before every entry that names anything, and lacks a path
if any does.  Where none fails, nothing is named if a stamp is refused; otherwise no row of
operator state is named and no row twice. -/
structure Meets (reg : Registry ε)
    (arrowMigrateBytes : Bytes → Schema → Schema → Except ε Bytes) (s : Restored)
    (expected : StateVersionMap) : Prop where
  failing : ∀ pre e post, active s.versions expected = pre ++ e :: post →
    (∀ x ∈ pre, ¬ Fails reg arrowMigrateBytes s x) → Fails reg arrowMigrateBytes s e →
    (∀ x ∈ pre, ¬ Touches s x) ∧
    (hasPath reg s.versions e = false ∨
      ∀ x ∈ active s.versions expected, hasPath reg s.versions x = true)
  refused : (∀ x ∈ active s.versions expected, ¬ Fails reg arrowMigrateBytes s x) →
    (∃ x ∈ StateVersionMap.entries expected, Refused s.versions x) →
    ∀ x ∈ active s.versions expected, ¬ Touches s x
  apart : (∀ x ∈ active s.versions expected, ¬ Fails reg arrowMigrateBytes s x) →
    (∀ x ∈ StateVersionMap.entries expected, ¬ Refused s.versions x) →
    (∀ x ∈ active s.versions expected, ∀ key value, s.backend.get x.op key = some value →
      inSlot x.slot key = true → isOperatorState key = false) ∧
    (active s.versions expected).Pairwise fun x y => ∀ op key value,
      s.backend.get op key = some value → ¬ (Covers x op key ∧ Covers y op key)

/-! ## One entry -/

section Steps

variable {reg : Registry ε} {arrowMigrateBytes : Bytes → Schema → Schema → Except ε Bytes}
  {stored : StateVersionMap} {e : VersionEntry}

variable {rows : List (Key × Value)}

theorem collect_ok {migrated : List (Key × Value)}
    (h : collect reg arrowMigrateBytes stored e rows = .ok migrated) :
    migrated.map Prod.fst = (rows.filter fun row => inSlot e.slot row.1).map Prod.fst ∧
    ∀ key value, (key, value) ∈ rows → inSlot e.slot key = true →
      ∃ value', chain reg arrowMigrateBytes stored e value = .ok value' ∧
        (key, value') ∈ migrated := by
  induction rows generalizing migrated with
  | nil =>
      cases h
      exact ⟨rfl, by simp⟩
  | cons row rows ih =>
      obtain ⟨key, value⟩ := row
      unfold collect at h
      by_cases hnamed : inSlot e.slot key = true
      · rw [if_pos hnamed] at h
        cases hone : chain reg arrowMigrateBytes stored e value with
        | error x => simp [hone] at h
        | ok value' =>
            simp only [hone] at h
            cases hrest : collect reg arrowMigrateBytes stored e rows with
            | error x => simp [hrest, Except.map] at h
            | ok more =>
                rw [hrest] at h
                obtain rfl := Except.ok.inj h
                obtain ⟨hkeys, hvalues⟩ := ih hrest
                refine ⟨by simp [hnamed, hkeys], fun key₂ value₂ hmem hslot => ?_⟩
                obtain hsame | hmem := List.mem_cons.mp hmem
                · obtain ⟨rfl, rfl⟩ := Prod.mk.inj hsame
                  exact ⟨value', hone, List.mem_cons_self⟩
                · obtain ⟨v, hchained, hmem'⟩ := hvalues key₂ value₂ hmem hslot
                  exact ⟨v, hchained, List.mem_cons_of_mem _ hmem'⟩
      · rw [if_neg hnamed] at h
        obtain ⟨hkeys, hvalues⟩ := ih h
        refine ⟨by simp [hnamed, hkeys], fun key₂ value₂ hmem hslot => ?_⟩
        obtain hsame | hmem := List.mem_cons.mp hmem
        · obtain ⟨rfl, rfl⟩ := Prod.mk.inj hsame
          exact absurd hslot hnamed
        · exact hvalues key₂ value₂ hmem hslot

theorem collect_succeeds
    (h : ∀ row ∈ rows, inSlot e.slot row.1 = true →
      ∀ x, chain reg arrowMigrateBytes stored e row.2 ≠ .error x) :
    ∃ migrated, collect reg arrowMigrateBytes stored e rows = .ok migrated := by
  induction rows with
  | nil => exact ⟨[], rfl⟩
  | cons row rows ih =>
      obtain ⟨key, value⟩ := row
      obtain ⟨more, hrest⟩ := ih fun row hmem => h row (List.mem_cons_of_mem _ hmem)
      unfold collect
      by_cases hnamed : inSlot e.slot key = true
      · rw [if_pos hnamed]
        cases hone : chain reg arrowMigrateBytes stored e value with
        | error x => exact absurd hone (h _ List.mem_cons_self hnamed x)
        | ok value' => exact ⟨(key, value') :: more, by rw [hrest]; rfl⟩
      · rw [if_neg hnamed]
        exact ⟨more, hrest⟩

theorem writeBack_fields (s : Restored) (op : Nat) (rows : List (Key × Value)) :
    (writeBack s op rows).writes = s.writes ++ rows.map (fun row => (op, row.1)) ∧
    (writeBack s op rows).versions = s.versions ∧
    (writeBack s op rows).fingerprints = s.fingerprints := by
  induction rows generalizing s with
  | nil => simp [writeBack]
  | cons row rows ih =>
      obtain ⟨hwrites, hversions, hfingerprints⟩ := ih
        { s with backend := s.backend.put op row.1 row.2, writes := s.writes ++ [(op, row.1)] }
      refine ⟨?_, hversions, hfingerprints⟩
      exact hwrites.trans (by simp)

theorem get_writeBack_of_ne (s : Restored) {op op' : Nat} {key : Key}
    (h : ¬ (op = op' ∧ key ∈ rows.map Prod.fst)) :
    (writeBack s op rows).backend.get op' key = s.backend.get op' key := by
  induction rows generalizing s with
  | nil => rfl
  | cons row rows ih =>
      rw [List.map_cons, List.mem_cons, and_or_left, not_or] at h
      refine (ih
        { s with backend := s.backend.put op row.1 row.2, writes := s.writes ++ [(op, row.1)] }
        h.2).trans ?_
      rw [InMemoryStateBackend.get_put, if_neg]
      rintro ⟨rfl, heq⟩
      exact h.1 ⟨rfl, heq.symm⟩

theorem get_writeBack (s : Restored) {op : Nat} {key : Key} {value : Value}
    (hnodup : (rows.map Prod.fst).Nodup) (hmem : (key, value) ∈ rows) :
    (writeBack s op rows).backend.get op key = some value := by
  induction rows generalizing s with
  | nil => exact absurd hmem (by simp)
  | cons row rows ih =>
      rw [List.map_cons, List.nodup_cons] at hnodup
      obtain rfl | hmem := List.mem_cons.mp hmem
      · refine (get_writeBack_of_ne _ fun hother => hnodup.1 hother.2).trans ?_
        rw [InMemoryStateBackend.get_put, if_pos ⟨rfl, rfl⟩]
      · exact ih _ hnodup.2 hmem

theorem find?_clearFor (m : StateFingerprintMap) (op : Nat) (slot : List Char)
    (key : Nat ×ₗ List Char) :
    (clearFor m op slot).find? key =
      if (ofLex key).1 = op ∧ (slot = [] ∨ (ofLex key).2 = slot) then none else m.find? key := by
  unfold clearFor
  by_cases hnamed : slot ≠ []
  · rw [if_pos hnamed, SortedMap.find?_erase]
    have hsame : key = toLex (op, slot) ↔ (ofLex key).1 = op ∧
        (slot = [] ∨ (ofLex key).2 = slot) := by
      rw [or_iff_right hnamed]
      exact ⟨fun heq => by rw [heq]; exact ⟨rfl, rfl⟩,
        fun ⟨hone, htwo⟩ => by rw [← hone, ← htwo]; rfl⟩
    simp only [hsame]
  · rw [if_neg hnamed, SortedMap.find?_retain]
    rw [not_not] at hnamed
    by_cases hown : (ofLex key).1 = op
    · rw [if_pos ⟨hown, .inl hnamed⟩]
      simp [hown]
    · rw [if_neg fun hboth => hown hboth.1]
      cases m.find? key <;> simp [hown]

theorem clearFor_of_not_stamped {m : StateFingerprintMap} (h : ¬ Stamped m e) :
    clearFor m e.op e.slot = m := by
  refine SortedMap.ext_find? fun key => ?_
  rw [find?_clearFor]
  split
  · rename_i hown
    cases hfound : m.find? key with
    | none => rfl
    | some fingerprint =>
        refine absurd ⟨(ofLex key).2, ?_, hown.2.imp id Eq.symm⟩ h
        rw [← hown.1]
        change (m.find? key).isSome = true
        rw [hfound]
        rfl
  · rfl

/-- What one entry does to the state. -/
structure Stepped (reg : Registry ε)
    (arrowMigrateBytes : Bytes → Schema → Schema → Except ε Bytes) (stored : StateVersionMap)
    (e : VersionEntry) (s s' : Restored) : Prop where
  kept : ∀ op key, ¬ Covers e op key → s'.backend.get op key = s.backend.get op key
  absent : ∀ op key, s.backend.get op key = none → s'.backend.get op key = none
  chained : ∀ key value, inSlot e.slot key = true → s.backend.get e.op key = some value →
    ∃ value', chain reg arrowMigrateBytes stored e value = .ok value' ∧
      s'.backend.get e.op key = some value'
  counted : ∀ op key, s'.writes.count (op, key) = s.writes.count (op, key) +
    if Covers e op key ∧ (s.backend.get op key).isSome = true then 1 else 0
  versions : s'.versions = s.versions
  fingerprints : s'.fingerprints = clearFor s.fingerprints e.op e.slot
  idle : ¬ Touches s e → s' = s

theorem stepped {s : Restored} {migrated : List (Key × Value)}
    (h : collect reg arrowMigrateBytes stored e (s.backend.rows e.op) = .ok migrated) :
    Stepped reg arrowMigrateBytes stored e s
      { writeBack s e.op migrated with
        fingerprints := clearFor (writeBack s e.op migrated).fingerprints e.op e.slot } := by
  obtain ⟨hkeys, hvalues⟩ := collect_ok h
  obtain ⟨hwrites, hversions, hfingerprints⟩ := writeBack_fields s e.op migrated
  have hnodup : (migrated.map Prod.fst).Nodup := by
    rw [hkeys]
    exact (InMemoryStateBackend.nodup_rows s.backend e.op).sublist
      (List.filter_sublist.map Prod.fst)
  have hnamed : ∀ key, key ∈ migrated.map Prod.fst ↔
      inSlot e.slot key = true ∧ (s.backend.get e.op key).isSome = true := by
    intro key
    rw [hkeys, List.mem_map]
    constructor
    · rintro ⟨row, hmem, rfl⟩
      obtain ⟨hmem, hslot⟩ := List.mem_filter.mp hmem
      exact ⟨hslot, by rw [InMemoryStateBackend.mem_rows.mp hmem]; rfl⟩
    · rintro ⟨hslot, hsome⟩
      obtain ⟨value, hgot⟩ := Option.isSome_iff_exists.mp hsome
      exact ⟨(key, value), List.mem_filter.mpr ⟨InMemoryStateBackend.mem_rows.mpr hgot, hslot⟩, rfl⟩
  refine ⟨fun op key hother => ?_, fun op key hnone => ?_, fun key value hslot hgot => ?_,
    fun op key => ?_, hversions, by simp [hfingerprints], fun hstill => ?_⟩
  · exact get_writeBack_of_ne s fun hmem => hother ⟨hmem.1, ((hnamed key).mp hmem.2).1⟩
  · refine (get_writeBack_of_ne s fun hmem => ?_).trans hnone
    have hsome := ((hnamed key).mp hmem.2).2
    rw [hmem.1, hnone] at hsome
    exact absurd hsome (by simp)
  · obtain ⟨value', hok, hmem⟩ := hvalues key value (InMemoryStateBackend.mem_rows.mpr hgot) hslot
    exact ⟨value', hok, get_writeBack s hnodup hmem⟩
  · have hpairs : (migrated.map fun row => (e.op, row.1)).Nodup := by
      have hinj : Function.Injective (Prod.mk e.op : Key → Nat × Key) := Prod.mk_right_injective _
      have := hnodup.map hinj
      rwa [List.map_map] at this
    have hmember : (op, key) ∈ migrated.map (fun row => (e.op, row.1)) ↔
        Covers e op key ∧ (s.backend.get op key).isSome = true := by
      constructor
      · intro hmem
        obtain ⟨row, hrowMem, heq⟩ := List.mem_map.mp hmem
        obtain ⟨rfl, rfl⟩ := Prod.mk.inj heq
        obtain ⟨hslot, hsome⟩ := (hnamed row.1).mp (List.mem_map.mpr ⟨row, hrowMem, rfl⟩)
        exact ⟨⟨rfl, hslot⟩, hsome⟩
      · rintro ⟨⟨rfl, hslot⟩, hsome⟩
        obtain ⟨row, hmem, rfl⟩ := List.mem_map.mp ((hnamed key).mpr ⟨hslot, hsome⟩)
        exact List.mem_map.mpr ⟨row, hmem, rfl⟩
    change (writeBack s e.op migrated).writes.count (op, key) = _
    rw [hwrites, List.count_append, hpairs.count]
    simp only [hmember]
  · have hnone : migrated = [] := by
      refine (List.map_eq_nil_iff (f := Prod.fst)).mp
        (List.eq_nil_iff_forall_not_mem.mpr fun key hmem => ?_)
      obtain ⟨hslot, hsome⟩ := (hnamed key).mp hmem
      obtain ⟨value, hgot⟩ := Option.isSome_iff_exists.mp hsome
      exact hstill (.inl ⟨key, value, hgot, hslot⟩)
    subst hnone
    have hsame : clearFor s.fingerprints e.op e.slot = s.fingerprints :=
      clearFor_of_not_stamped fun hstamp => hstill (.inr hstamp)
    simp [writeBack, hsame]

/-! ## The loop -/

theorem migrateEntries_eq (s : Restored) (es : List VersionEntry) :
    migrateEntries reg arrowMigrateBytes stored (e :: es) s =
      if storedVersion stored e = e.version then migrateEntries reg arrowMigrateBytes stored es s
      else if !hasPath reg stored e then
        (s, some (.noPath e.op e.stateType (storedVersion stored e) e.version))
      else
        match collect reg arrowMigrateBytes stored e (s.backend.rows e.op) with
        | .error x => (s, some (.migrate x))
        | .ok migrated =>
            migrateEntries reg arrowMigrateBytes stored es
              { writeBack s e.op migrated with
                fingerprints := clearFor (writeBack s e.op migrated).fingerprints e.op e.slot } :=
  rfl

theorem migrateEntries_filter (es : List VersionEntry) (s : Restored) :
    migrateEntries reg arrowMigrateBytes stored es s =
      migrateEntries reg arrowMigrateBytes stored
        (es.filter fun e => storedVersion stored e ≠ e.version) s := by
  induction es generalizing s with
  | nil => rfl
  | cons e es ih =>
      by_cases hcurrent : storedVersion stored e = e.version
      · rw [List.filter_cons_of_neg (by simpa using hcurrent)]
        rw [migrateEntries_eq, if_pos hcurrent]
        exact ih s
      · rw [List.filter_cons_of_pos (by simpa using hcurrent)]
        rw [migrateEntries_eq, migrateEntries_eq, if_neg hcurrent, if_neg hcurrent]
        split
        · rfl
        · split
          · rfl
          · exact ih _

/-- An entry of another version fails, or does its step. -/
theorem migrateEntries_cons (reg : Registry ε)
    (arrowMigrateBytes : Bytes → Schema → Schema → Except ε Bytes) (s : Restored)
    (hdiffers : storedVersion stored e ≠ e.version)
    (es : List VersionEntry) :
    (hasPath reg stored e = false ∧ migrateEntries reg arrowMigrateBytes stored (e :: es) s =
      (s, some (.noPath e.op e.stateType (storedVersion stored e) e.version))) ∨
    (hasPath reg stored e = true ∧
      ((∃ key value x, s.backend.get e.op key = some value ∧ inSlot e.slot key = true ∧
          chain reg arrowMigrateBytes stored e value = .error x) ∧
        ∃ x, migrateEntries reg arrowMigrateBytes stored (e :: es) s = (s, some (.migrate x))) ∨
      hasPath reg stored e = true ∧ ∃ s', Stepped reg arrowMigrateBytes stored e s s' ∧
        migrateEntries reg arrowMigrateBytes stored (e :: es) s =
          migrateEntries reg arrowMigrateBytes stored es s') := by
  rw [migrateEntries_eq, if_neg hdiffers]
  cases hpath : hasPath reg stored e with
  | false => exact .inl ⟨rfl, rfl⟩
  | true =>
      refine .inr ?_
      rw [if_neg (by simp)]
      cases hdone : collect reg arrowMigrateBytes stored e (s.backend.rows e.op) with
      | error x =>
          refine .inl ⟨rfl, ?_, x, rfl⟩
          by_contra hnone
          obtain ⟨migrated, hok⟩ : ∃ migrated,
              collect reg arrowMigrateBytes stored e (s.backend.rows e.op) = .ok migrated :=
            collect_succeeds fun row hmem hslot x herror =>
              hnone ⟨row.1, row.2, x, InMemoryStateBackend.mem_rows.mp hmem, hslot, herror⟩
          exact absurd (hdone.symm.trans hok) (by simp)
      | ok migrated => exact .inr ⟨rfl, _, stepped hdone, rfl⟩

theorem migrateEntries_grows (reg : Registry ε)
    (arrowMigrateBytes : Bytes → Schema → Schema → Except ε Bytes) {es : List VersionEntry}
    (hdiffer : ∀ e ∈ es, storedVersion stored e ≠ e.version) (s : Restored) :
    (∀ row, s.writes.count row ≤
      (migrateEntries reg arrowMigrateBytes stored es s).1.writes.count row) ∧
    ∀ key, s.fingerprints.find? key = none →
      (migrateEntries reg arrowMigrateBytes stored es s).1.fingerprints.find? key = none := by
  induction es generalizing s with
  | nil => exact ⟨fun _ => Nat.le_refl _, fun _ hnone => hnone⟩
  | cons e es ih =>
      obtain ⟨-, heq⟩ | ⟨-, -, x, heq⟩ | ⟨-, s', hstep, heq⟩ := migrateEntries_cons reg
        arrowMigrateBytes s (hdiffer e List.mem_cons_self) es
      · rw [heq]
        exact ⟨fun _ => Nat.le_refl _, fun _ hnone => hnone⟩
      · rw [heq]
        exact ⟨fun _ => Nat.le_refl _, fun _ hnone => hnone⟩
      · rw [heq]
        obtain ⟨hwrites, hfingerprints⟩ :=
          ih (fun x hmem => hdiffer x (List.mem_cons_of_mem _ hmem)) s'
        refine ⟨fun row => Nat.le_trans ?_ (hwrites row), fun key hnone => hfingerprints key ?_⟩
        · rw [hstep.counted row.1 row.2]
          exact Nat.le_add_right _ _
        · rw [hstep.fingerprints, find?_clearFor, hnone]
          split <;> rfl

/-- A loop that ends has put every row through the chains of the entries that name it. -/
theorem migrateEntries_ends {es : List VersionEntry}
    (hdiffer : ∀ e ∈ es, storedVersion stored e ≠ e.version) {s s' : Restored}
    (hends : migrateEntries reg arrowMigrateBytes stored es s = (s', none)) :
    (∀ e ∈ es, hasPath reg stored e = true) ∧ s'.versions = s.versions ∧ ∀ op key,
      (s.backend.get op key = none → s'.backend.get op key = none ∧
        s'.writes.count (op, key) = s.writes.count (op, key)) ∧
      ∀ value, s.backend.get op key = some value →
        (∃ value', (es.filter fun e => Covers e op key).foldlM
          (fun v e => chain reg arrowMigrateBytes stored e v) value = .ok value' ∧
          s'.backend.get op key = some value') ∧
        s'.writes.count (op, key) =
          s.writes.count (op, key) + (es.filter fun e => Covers e op key).length := by
  induction es generalizing s with
  | nil =>
      obtain ⟨rfl, -⟩ := Prod.mk.inj hends
      refine ⟨by simp, rfl, fun op key => ⟨fun hnone => ⟨hnone, rfl⟩, fun value hgot => ?_⟩⟩
      exact ⟨⟨value, rfl, hgot⟩, rfl⟩
  | cons e es ih =>
      obtain ⟨-, heq⟩ | ⟨-, -, x, heq⟩ | ⟨hpath, s₁, hstep, heq⟩ := migrateEntries_cons reg
        arrowMigrateBytes s (hdiffer e List.mem_cons_self) es
      · exact absurd (congrArg Prod.snd (heq.symm.trans hends)) (by simp)
      · exact absurd (congrArg Prod.snd (heq.symm.trans hends)) (by simp)
      · obtain ⟨hpaths, hversions, hrows⟩ :=
          ih (fun x hmem => hdiffer x (List.mem_cons_of_mem _ hmem)) (heq.symm.trans hends)
        refine ⟨?_, hversions.trans hstep.versions,
          fun op key => ⟨fun hnone => ?_, fun value hgot => ?_⟩⟩
        · intro x hmem
          obtain rfl | hmem := List.mem_cons.mp hmem
          · exact hpath
          · exact hpaths x hmem
        · obtain ⟨hgone, hcount⟩ := (hrows op key).1 (hstep.absent op key hnone)
          refine ⟨hgone, hcount.trans ?_⟩
          simp [hstep.counted op key, hnone]
        · by_cases hcovers : Covers e op key
          · obtain ⟨rfl, hslot⟩ := hcovers
            obtain ⟨value₁, hone, hgot₁⟩ := hstep.chained key value hslot hgot
            obtain ⟨⟨value', hall, hgot'⟩, hcount⟩ := (hrows e.op key).2 value₁ hgot₁
            rw [List.filter_cons_of_pos (by simpa [Covers] using hslot)]
            refine ⟨⟨value', ?_, hgot'⟩, hcount.trans ?_⟩
            · rw [List.foldlM_cons, hone]
              exact hall
            · rw [hstep.counted e.op key, if_pos ⟨⟨rfl, hslot⟩, by simp [hgot]⟩, List.length_cons]
              omega
          · rw [List.filter_cons_of_neg (by simpa using hcovers)]
            obtain ⟨hvalues, hcount⟩ :=
              (hrows op key).2 value ((hstep.kept op key hcovers).trans hgot)
            refine ⟨hvalues, hcount.trans ?_⟩
            rw [hstep.counted op key, if_neg fun hboth => hcovers hboth.1, Nat.add_zero]

end Steps

/-! ## Entries that do nothing -/

section Loop

variable {reg : Registry ε} {arrowMigrateBytes : Bytes → Schema → Schema → Except ε Bytes}
  {s : Restored} {es pre : List VersionEntry}

variable {e : VersionEntry}

theorem step_of_not_fails (hdiffers : storedVersion s.versions e ≠ e.version)
    (hsound : ¬ Fails reg arrowMigrateBytes s e) (es : List VersionEntry) :
    ∃ s', Stepped reg arrowMigrateBytes s.versions e s s' ∧
      migrateEntries reg arrowMigrateBytes s.versions (e :: es) s =
        migrateEntries reg arrowMigrateBytes s.versions es s' := by
  obtain ⟨hlacks, -⟩ | ⟨-, hfails, -⟩ | ⟨-, s', hstep, heq⟩ :=
    migrateEntries_cons reg arrowMigrateBytes s hdiffers es
  · exact absurd (.inl hlacks) hsound
  · exact absurd (.inr hfails) hsound
  · exact ⟨s', hstep, heq⟩

theorem throws_of_fails (hdiffers : storedVersion s.versions e ≠ e.version)
    (hfails : Fails reg arrowMigrateBytes s e) (es : List VersionEntry) :
    (hasPath reg s.versions e = false ∧
      migrateEntries reg arrowMigrateBytes s.versions (e :: es) s =
        (s, some (.noPath e.op e.stateType (storedVersion s.versions e) e.version))) ∨
    (hasPath reg s.versions e = true ∧
      ∃ x, migrateEntries reg arrowMigrateBytes s.versions (e :: es) s =
        (s, some (.migrate x))) := by
  obtain hlacks | ⟨hpath, -, hthrown⟩ | ⟨hpath, s', hstep, -⟩ :=
    migrateEntries_cons reg arrowMigrateBytes s hdiffers es
  · exact .inl hlacks
  · exact .inr ⟨hpath, hthrown⟩
  · obtain hlacks | ⟨key, value, x, hgot, hslot, herror⟩ := hfails
    · exact absurd (hpath.symm.trans hlacks) (by simp)
    · obtain ⟨value', hok, -⟩ := hstep.chained key value hslot hgot
      exact absurd (herror.symm.trans hok) (by simp)

theorem quiet_entries (hdiffer : ∀ e ∈ pre, storedVersion s.versions e ≠ e.version)
    (hsound : ∀ e ∈ pre, ¬ Fails reg arrowMigrateBytes s e) (hstill : ∀ e ∈ pre, ¬ Touches s e)
    (es : List VersionEntry) :
    migrateEntries reg arrowMigrateBytes s.versions (pre ++ es) s =
      migrateEntries reg arrowMigrateBytes s.versions es s := by
  induction pre with
  | nil => rfl
  | cons e pre ih =>
      obtain ⟨s', hstep, heq⟩ := step_of_not_fails (hdiffer e List.mem_cons_self)
        (hsound e List.mem_cons_self) (pre ++ es)
      rw [List.cons_append, heq, hstep.idle (hstill e List.mem_cons_self)]
      exact ih (fun x hmem => hdiffer x (List.mem_cons_of_mem _ hmem))
        (fun x hmem => hsound x (List.mem_cons_of_mem _ hmem))
        (fun x hmem => hstill x (List.mem_cons_of_mem _ hmem))

/-- A loop that leaves the state as it was has passed no entry that names anything. -/
theorem untouched_of_same (hdiffer : ∀ e ∈ pre ++ es, storedVersion s.versions e ≠ e.version)
    (hsound : ∀ e ∈ pre, ¬ Fails reg arrowMigrateBytes s e)
    (hsame : (migrateEntries reg arrowMigrateBytes s.versions (pre ++ es) s).1 = s) :
    ∀ e ∈ pre, ¬ Touches s e := by
  induction pre with
  | nil => simp
  | cons e pre ih =>
      obtain ⟨s', hstep, heq⟩ := step_of_not_fails (hdiffer e List.mem_cons_self)
        (hsound e List.mem_cons_self) (pre ++ es)
      have hlater : ∀ x ∈ pre ++ es, storedVersion s.versions x ≠ x.version :=
        fun x hmem => hdiffer x (List.mem_cons_of_mem _ hmem)
      rw [List.cons_append, heq] at hsame
      have hgrows := migrateEntries_grows reg arrowMigrateBytes hlater s'
      rw [hsame] at hgrows
      have hstill : ¬ Touches s e := by
        rintro (⟨key, value, hgot, hslot⟩ | ⟨slot, hstamped, hown⟩)
        · have hcount := hgrows.1 (e.op, key)
          rw [hstep.counted e.op key, if_pos ⟨⟨rfl, hslot⟩, by simp [hgot]⟩] at hcount
          omega
        · have hcleared : s'.fingerprints.find? (toLex (e.op, slot)) = none := by
            rw [hstep.fingerprints, find?_clearFor]
            exact if_pos ⟨rfl, hown.imp id Eq.symm⟩
          rw [hgrows.2 _ hcleared] at hstamped
          exact absurd hstamped (by simp)
      rw [hstep.idle hstill] at hsame
      intro x hmem
      obtain rfl | hmem := List.mem_cons.mp hmem
      · exact hstill
      · exact ih hlater (fun y hmem => hsound y (List.mem_cons_of_mem _ hmem)) hsame x hmem

variable {stored : StateVersionMap}

/-- Entries that name no row in common end where none of them fails by itself. -/
theorem ends_of_apart
    (hdiffer : ∀ e ∈ es, storedVersion stored e ≠ e.version)
    (hpaths : ∀ e ∈ es, hasPath reg stored e = true)
    (hsound : ∀ e ∈ es, ∀ key value x, s.backend.get e.op key = some value →
      inSlot e.slot key = true → chain reg arrowMigrateBytes stored e value ≠ .error x)
    (hapart : es.Pairwise fun x y => ∀ op key value, s.backend.get op key = some value →
      ¬ (Covers x op key ∧ Covers y op key)) :
    ∃ s', migrateEntries reg arrowMigrateBytes stored es s = (s', none) := by
  induction es generalizing s with
  | nil => exact ⟨s, rfl⟩
  | cons e es ih =>
      obtain ⟨hapart₁, hapart₂⟩ := List.pairwise_cons.mp hapart
      obtain ⟨hlacks, -⟩ | ⟨-, ⟨key, value, x, hgot, hslot, herror⟩, -⟩ | ⟨-, s', hstep, heq⟩ :=
        migrateEntries_cons reg arrowMigrateBytes s (hdiffer e List.mem_cons_self) es
      · exact absurd ((hpaths e List.mem_cons_self).symm.trans hlacks) (by simp)
      · exact absurd herror (hsound e List.mem_cons_self key value x hgot hslot)
      · have hback : ∀ op key value, s'.backend.get op key = some value →
            ∃ value₀, s.backend.get op key = some value₀ := by
          intro op key value hgot
          cases hbefore : s.backend.get op key with
          | none => exact absurd ((hstep.absent op key hbefore).symm.trans hgot) (by simp)
          | some value₀ => exact ⟨value₀, rfl⟩
        rw [heq]
        refine ih (fun x hmem => hdiffer x (List.mem_cons_of_mem _ hmem))
          (fun x hmem => hpaths x (List.mem_cons_of_mem _ hmem)) ?_ ?_
        · intro x hmem key value error hgot hslot
          obtain ⟨value₀, hgot₀⟩ := hback x.op key value hgot
          have hother : ¬ Covers e x.op key := fun hcovers =>
            hapart₁ x hmem x.op key value₀ hgot₀ ⟨hcovers, rfl, hslot⟩
          rw [hstep.kept x.op key hother] at hgot
          exact hsound x (List.mem_cons_of_mem _ hmem) key value error hgot hslot
        · refine hapart₂.imp fun {x y} hnone op key value hgot => ?_
          obtain ⟨value₀, hgot₀⟩ := hback op key value hgot
          exact hnone op key value₀ hgot₀

open Classical in
theorem first_failing (reg : Registry ε)
    (arrowMigrateBytes : Bytes → Schema → Schema → Except ε Bytes) (s : Restored)
    (es : List VersionEntry) :
    (∀ x ∈ es, ¬ Fails reg arrowMigrateBytes s x) ∨
    ∃ pre e post, es = pre ++ e :: post ∧ (∀ x ∈ pre, ¬ Fails reg arrowMigrateBytes s x) ∧
      Fails reg arrowMigrateBytes s e := by
  induction es with
  | nil => exact .inl (by simp)
  | cons x es ih =>
      by_cases hhere : Fails reg arrowMigrateBytes s x
      · exact .inr ⟨[], x, es, rfl, by simp, hhere⟩
      · obtain hnone | ⟨pre, e, post, rfl, hsound, hfails⟩ := ih
        · refine .inl fun y hmem => ?_
          obtain rfl | hmem := List.mem_cons.mp hmem
          · exact hhere
          · exact hnone y hmem
        · refine .inr ⟨x :: pre, e, post, rfl, fun y hmem => ?_, hfails⟩
          obtain rfl | hmem := List.mem_cons.mp hmem
          · exact hhere
          · exact hsound y hmem

variable {expected : StateVersionMap}

theorem differ_active : ∀ e ∈ active stored expected, storedVersion stored e ≠ e.version := by
  intro e hmem
  simpa using (List.mem_filter.mp hmem).2

theorem check_eq_nil_iff :
    checkRestoreCompatibility reg stored expected = [] ↔
      ∀ e ∈ active stored expected, hasPath reg stored e = true := by
  unfold checkRestoreCompatibility active
  rw [List.filterMap_eq_nil_iff]
  constructor
  · intro hnone e hmem
    obtain ⟨hmem, hdiffers⟩ := List.mem_filter.mp hmem
    have htest := hnone e hmem
    rw [if_neg (by simpa using hdiffers)] at htest
    by_contra hlacks
    rw [if_neg hlacks] at htest
    exact absurd htest (by simp)
  · intro hpaths e hmem
    by_cases hcurrent : storedVersion stored e = e.version
    · rw [if_pos hcurrent]
    · rw [if_neg hcurrent, if_pos (hpaths e (List.mem_filter.mpr ⟨hmem, by simpa using hcurrent⟩))]

/-! ## Stamps -/

variable {m : StateVersionMap}

theorem set_eq :
    (¬ Refused m e → StateVersionMap.set m e = .ok (m.upsert e.key fun _ => e.stamp)) ∧
    (Refused m e → ∃ x, StateVersionMap.set m e = .error x) := by
  unfold StateVersionMap.set Refused
  by_cases htype : hasDelimiter e.stateType = true
  · exact ⟨fun hno => absurd (.inl htype) hno, fun _ => ⟨_, if_pos htype⟩⟩
  rw [if_neg htype]
  by_cases hslot : hasDelimiter e.slot = true
  · exact ⟨fun hno => absurd (.inr (.inl hslot)) hno, fun _ => ⟨_, if_pos hslot⟩⟩
  rw [if_neg hslot]
  cases hfound : m.find? e.key with
  | none => simp [htype, hslot]
  | some stamp =>
      by_cases hbound : rebinds stamp.slot e.slot = true
      · simp [hbound]
      · simp [hbound, htype, hslot]

theorem refused_upsert {x : VersionEntry} (hother : x.key ≠ e.key) :
    Refused (m.upsert e.key fun _ => e.stamp) x ↔ Refused m x := by
  unfold Refused
  rw [SortedMap.find?_upsert, if_neg hother]

theorem putAll_set_ok (hnodup : (es.map VersionEntry.key).Nodup) (hfree : ∀ e ∈ es, ¬ Refused m e) :
    ∃ m', putAll StateVersionMap.set m es = .ok m' ∧ ∀ key, m'.find? key =
      ((es.find? fun e => e.key = key).map VersionEntry.stamp).or (m.find? key) := by
  induction es generalizing m with
  | nil => exact ⟨m, rfl, fun key => by simp⟩
  | cons e es ih =>
      rw [List.map_cons, List.nodup_cons] at hnodup
      have hlater : ∀ x ∈ es, x.key ≠ e.key :=
        fun x hmem heq => hnodup.1 (List.mem_map.mpr ⟨x, hmem, heq⟩)
      obtain ⟨m', hok, hfound⟩ := ih (m := m.upsert e.key fun _ => e.stamp) hnodup.2
        fun x hmem =>
          (refused_upsert (hlater x hmem)).not.mpr (hfree x (List.mem_cons_of_mem _ hmem))
      refine ⟨m', ?_, fun key => ?_⟩
      · rw [putAll, set_eq.1 (hfree e List.mem_cons_self)]
        exact hok
      · rw [hfound, SortedMap.find?_upsert, List.find?_cons]
        by_cases hown : e.key = key
        · subst hown
          have hnone : (es.find? fun x => x.key = e.key) = none := by
            rw [List.find?_eq_none]
            intro x hmem
            simpa using hlater x hmem
          simp [hnone]
        · simp [hown, Ne.symm hown]

theorem putAll_set_error (hnodup : (es.map VersionEntry.key).Nodup)
    (hrefused : ∃ e ∈ es, Refused m e) : ∃ x, putAll StateVersionMap.set m es = .error x := by
  induction es generalizing m with
  | nil =>
      obtain ⟨e, hmem, -⟩ := hrefused
      exact absurd hmem (by simp)
  | cons e es ih =>
      rw [List.map_cons, List.nodup_cons] at hnodup
      rw [putAll]
      by_cases hhere : Refused m e
      · obtain ⟨x, herror⟩ := set_eq.2 hhere
        exact ⟨x, by rw [herror]⟩
      · rw [set_eq.1 hhere]
        obtain ⟨x, hmem, hlater⟩ := hrefused
        obtain rfl | hmem := List.mem_cons.mp hmem
        · exact absurd hlater hhere
        · refine ih hnodup.2 ⟨x, hmem, (refused_upsert fun heq => ?_).mpr hlater⟩
          exact hnodup.1 (List.mem_map.mpr ⟨x, hmem, heq⟩)

theorem nodup_entries (m : StateVersionMap) :
    ((StateVersionMap.entries m).map VersionEntry.key).Nodup := by
  unfold StateVersionMap.entries
  rw [List.map_map]
  exact SortedMap.nodup_keys m

theorem find?_of_mem_entries (hmem : e ∈ StateVersionMap.entries m) :
    SortedMap.find? m e.key = some e.stamp := by
  obtain ⟨row, hrowMem, rfl⟩ := List.mem_map.mp hmem
  exact SortedMap.find?_eq_some_iff.mpr hrowMem

theorem find_entries (m : StateVersionMap) (key : Nat ×ₗ List Char) :
    ((StateVersionMap.entries m).find? fun e => e.key = key).map VersionEntry.stamp =
      SortedMap.find? m key := by
  cases hfound : (StateVersionMap.entries m).find? fun e => e.key = key with
  | some e =>
      have hown : e.key = key := by simpa using List.find?_some hfound
      rw [← hown, find?_of_mem_entries (List.mem_of_find?_eq_some hfound)]
      rfl
  | none =>
      cases hstamped : SortedMap.find? m key with
      | none => rfl
      | some stamp =>
          have hmem : (⟨(ofLex key).1, (ofLex key).2, stamp.version, stamp.slot⟩ : VersionEntry) ∈
              StateVersionMap.entries m :=
            List.mem_map.mpr ⟨(key, stamp), SortedMap.find?_eq_some_iff.mp hstamped, rfl⟩
          exact absurd (decide_eq_true rfl) (List.find?_eq_none.mp hfound _ hmem)

theorem restamp (stored expected : StateVersionMap) :
    ((∀ e ∈ StateVersionMap.entries expected, ¬ Refused stored e) →
      ∃ m, putAll StateVersionMap.set stored (StateVersionMap.entries expected) = .ok m ∧
        ∀ key, m.find? key = (SortedMap.find? expected key).or (stored.find? key)) ∧
    ((∃ e ∈ StateVersionMap.entries expected, Refused stored e) →
      ∃ x, putAll StateVersionMap.set stored (StateVersionMap.entries expected) = .error x) := by
  refine ⟨fun hfree => ?_, putAll_set_error (nodup_entries expected)⟩
  obtain ⟨m, hok, hfound⟩ := putAll_set_ok (nodup_entries expected) hfree
  refine ⟨m, hok, fun key => ?_⟩
  rw [hfound, find_entries]

/-! ## The migration -/

theorem migrateRestoredState_eq (expected : StateVersionMap) :
    migrateRestoredState reg arrowMigrateBytes s expected =
      match migrateEntries reg arrowMigrateBytes s.versions (active s.versions expected) s with
      | (s', some failure) => (s', some failure)
      | (s', none) =>
          match putAll StateVersionMap.set s.versions (StateVersionMap.entries expected) with
          | .error x => (s', some (.refused x))
          | .ok m => ({ s' with versions := m }, none) := by
  have heq : migrateEntries reg arrowMigrateBytes s.versions (StateVersionMap.entries expected) s =
      migrateEntries reg arrowMigrateBytes s.versions (active s.versions expected) s :=
    migrateEntries_filter _ s
  unfold migrateRestoredState
  simp only [heq]
  obtain ⟨s', failed⟩ :=
    migrateEntries reg arrowMigrateBytes s.versions (active s.versions expected) s
  cases failed with
  | some failure => rfl
  | none => rfl

theorem state_of_thrown
    (hthrown : (migrateRestoredState reg arrowMigrateBytes s expected).2 ≠ none) :
    (migrateRestoredState reg arrowMigrateBytes s expected).1 =
      (migrateEntries reg arrowMigrateBytes s.versions (active s.versions expected) s).1 := by
  rw [migrateRestoredState_eq] at hthrown ⊢
  generalize migrateEntries reg arrowMigrateBytes s.versions (active s.versions expected) s = r
    at hthrown ⊢
  obtain ⟨s', failed⟩ := r
  cases failed with
  | some failure => rfl
  | none =>
      cases hstamps : putAll StateVersionMap.set s.versions (StateVersionMap.entries expected) with
      | error x => rfl
      | ok m => simp [hstamps] at hthrown

theorem ends_of_returned
    (hreturned : (migrateRestoredState reg arrowMigrateBytes s expected).2 = none) :
    ∃ s' m, migrateEntries reg arrowMigrateBytes s.versions (active s.versions expected) s =
        (s', none) ∧
      putAll StateVersionMap.set s.versions (StateVersionMap.entries expected) = .ok m ∧
      migrateRestoredState reg arrowMigrateBytes s expected =
        ({ s' with versions := m }, none) := by
  rw [migrateRestoredState_eq] at hreturned ⊢
  generalize migrateEntries reg arrowMigrateBytes s.versions (active s.versions expected) s = r
    at hreturned ⊢
  obtain ⟨s', failed⟩ := r
  cases failed with
  | some failure => exact absurd hreturned (by simp)
  | none =>
      cases hstamps : putAll StateVersionMap.set s.versions (StateVersionMap.entries expected) with
      | error x => simp [hstamps] at hreturned
      | ok m => exact ⟨s', m, rfl, rfl, rfl⟩

theorem returns_of_loop {s' : Restored}
    (hloop : migrateEntries reg arrowMigrateBytes s.versions (active s.versions expected) s =
      (s', none))
    (hok : putAll StateVersionMap.set s.versions (StateVersionMap.entries expected) = .ok m) :
    migrateRestoredState reg arrowMigrateBytes s expected =
      ({ s' with versions := m }, none) := by
  rw [migrateRestoredState_eq, hloop]
  simp only [hok]

/-- What was stamped is at its version, and a second migration finds nothing to do. -/
theorem again_of_stamped {s' : Restored}
    (hfree : ∀ e ∈ StateVersionMap.entries expected, ¬ Refused s.versions e)
    (hfound : ∀ key, m.find? key = (SortedMap.find? expected key).or (s.versions.find? key)) :
    migrateRestoredState reg arrowMigrateBytes { s' with versions := m } expected =
      ({ s' with versions := m }, none) := by
  have hstamped : ∀ e ∈ StateVersionMap.entries expected, m.find? e.key = some e.stamp := by
    intro e hmem
    rw [hfound, find?_of_mem_entries hmem, Option.some_or]
  have hidle : active m expected = [] := by
    refine List.filter_eq_nil_iff.mpr fun e hmem => ?_
    simp [storedVersion, hstamped e hmem, VersionEntry.stamp]
  have hfree' : ∀ e ∈ StateVersionMap.entries expected, ¬ Refused m e := by
    rintro e hmem (htype | hslot | ⟨stamp, hbound, hrebound⟩)
    · exact hfree e hmem (.inl htype)
    · exact hfree e hmem (.inr (.inl hslot))
    · rw [hstamped e hmem] at hbound
      obtain rfl := Option.some.inj hbound
      simp [rebinds, VersionEntry.stamp] at hrebound
  obtain ⟨m', hok, hfound'⟩ := (restamp m expected).1 hfree'
  have hsame : m' = m := by
    refine SortedMap.ext_find? fun key => ?_
    rw [hfound', hfound]
    cases SortedMap.find? expected key <;> simp
  subst hsame
  generalize hrestored : ({ s' with versions := m' } : Restored) = t
  have hversions : t.versions = m' := by rw [← hrestored]
  have hloop : migrateEntries reg arrowMigrateBytes t.versions (active t.versions expected) t =
      (t, none) := by
    rw [hversions, hidle]
    rfl
  rw [← hversions] at hok
  exact returns_of_loop hloop hok

theorem nodup_active (stored expected : StateVersionMap) : (active stored expected).Nodup :=
  (List.Nodup.of_map _ (nodup_entries expected)).filter _

/-- What the property says of the rows an entry names, in a loop that ended. -/
theorem counts_of_migrates
    (hmigrates : Migrates reg arrowMigrateBytes s expected
      (migrateRestoredState reg arrowMigrateBytes s expected))
    (hreturned : (migrateRestoredState reg arrowMigrateBytes s expected).2 = none)
    (hmem : e ∈ active s.versions expected) {key : Key} {value : Value}
    (hgot : s.backend.get e.op key = some value) (hslot : inSlot e.slot key = true) :
    isOperatorState key = false ∧
    ((active s.versions expected).filter fun x => Covers x e.op key).length = 1 := by
  obtain ⟨s', m, hloop, -, heq⟩ := ends_of_returned hreturned
  have hcount := (((migrateEntries_ends differ_active hloop).2.2 e.op key).2 value hgot).2
  have hown : e ∈ (active s.versions expected).filter fun x => Covers x e.op key :=
    List.mem_filter.mpr ⟨hmem, by simpa [Covers] using hslot⟩
  have hsome := List.length_pos_of_mem hown
  cases hkind : isOperatorState key with
  | true =>
      have halone := (hmigrates.others hreturned e.op key (.inr (.inl hkind))).2
      rw [heq] at halone
      change s'.writes.count (e.op, key) = _ at halone
      omega
  | false =>
      have honce := (hmigrates.migrated hreturned e.op key value hgot hkind e hmem ⟨rfl, hslot⟩).1
      rw [heq] at honce
      change s'.writes.count (e.op, key) = _ at honce
      exact ⟨rfl, by omega⟩

theorem meets_of_migrates
    (hmigrates : Migrates reg arrowMigrateBytes s expected
      (migrateRestoredState reg arrowMigrateBytes s expected)) :
    Meets reg arrowMigrateBytes s expected := by
  have hsame : (migrateRestoredState reg arrowMigrateBytes s expected).2 ≠ none →
      (migrateEntries reg arrowMigrateBytes s.versions (active s.versions expected) s).1 = s :=
    fun hthrown => (state_of_thrown hthrown).symm.trans (hmigrates.thrown hthrown)
  refine
    ⟨fun pre e post hsplit hsound hfails => ?_, fun hsound hrefused => ?_, fun hsound hfree => ?_⟩
  · have hmem : e ∈ active s.versions expected := by
      rw [hsplit]
      exact List.mem_append_right _ List.mem_cons_self
    have hthrown : (migrateRestoredState reg arrowMigrateBytes s expected).2 ≠ none := by
      intro hreturned
      obtain ⟨s', m, hloop, -⟩ := ends_of_returned hreturned
      obtain hlacks | ⟨key, value, x, hgot, hslot, herror⟩ := hfails
      · have hpath := (migrateEntries_ends differ_active hloop).1 e hmem
        exact absurd (hpath.symm.trans hlacks) (by simp)
      · have hkind := (counts_of_migrates hmigrates hreturned hmem hgot hslot).1
        obtain ⟨-, value', hok, -⟩ :=
          hmigrates.migrated hreturned e.op key value hgot hkind e hmem ⟨rfl, hslot⟩
        exact absurd (herror.symm.trans hok) (by simp)
    have hdiffer : ∀ x ∈ active s.versions expected, storedVersion s.versions x ≠ x.version :=
      differ_active
    have hsame := hsame hthrown
    rw [hsplit] at hdiffer hsame
    have hstill := untouched_of_same hdiffer hsound hsame
    refine ⟨hstill, ?_⟩
    have hquiet :=
      quiet_entries (fun x hmem => hdiffer x (List.mem_append_left _ hmem)) hsound hstill
      (e :: post)
    rw [← hsplit] at hquiet
    obtain ⟨hlacks, -⟩ | ⟨-, x, heq⟩ :=
      throws_of_fails (hdiffer e (List.mem_append_right _ List.mem_cons_self)) hfails post
    · exact .inl hlacks
    · refine .inr (check_eq_nil_iff.mp ?_)
      by_contra hreported
      obtain ⟨op, stateType, fromVersion, toVersion, hfailure⟩ := hmigrates.path.mpr hreported
      rw [migrateRestoredState_eq, hquiet, heq] at hfailure
      exact absurd hfailure (by simp)
  · have hthrown : (migrateRestoredState reg arrowMigrateBytes s expected).2 ≠ none := by
      intro hreturned
      obtain ⟨s', m, -, hok, -⟩ := ends_of_returned hreturned
      obtain ⟨x, herror⟩ := (restamp s.versions expected).2 hrefused
      exact absurd (herror.symm.trans hok) (by simp)
    have hsame := hsame hthrown
    rw [← List.append_nil (active s.versions expected)] at hsame
    exact untouched_of_same (by simpa using differ_active) hsound hsame
  · by_cases hreturned : (migrateRestoredState reg arrowMigrateBytes s expected).2 = none
    · refine ⟨fun x hmem key value hgot hslot =>
        (counts_of_migrates hmigrates hreturned hmem hgot hslot).1,
        ?_⟩
      refine (nodup_active s.versions expected).imp_of_mem fun {x y} hmemX hmemY hne => ?_
      rintro op key value hgot ⟨⟨rfl, hslot⟩, hcoversY⟩
      have hone := (counts_of_migrates hmigrates hreturned hmemX hgot hslot).2
      have hsub : [x, y] ⊆ (active s.versions expected).filter fun z => Covers z x.op key := by
        intro z hmem
        simp only [List.mem_cons, List.not_mem_nil, or_false] at hmem
        obtain rfl | rfl := hmem
        · exact List.mem_filter.mpr ⟨hmemX, by simpa [Covers] using hslot⟩
        · exact List.mem_filter.mpr ⟨hmemY, by simpa using hcoversY⟩
      have htwo := (List.subperm_of_subset (by simpa using hne) hsub).length_le
      simp only [List.length_cons, List.length_nil] at htwo
      omega
    · have hsame := hsame hreturned
      rw [← List.append_nil (active s.versions expected)] at hsame
      have hstill := untouched_of_same (by simpa using differ_active) hsound hsame
      refine
        ⟨fun x hmem key value hgot hslot => absurd (.inl ⟨key, value, hgot, hslot⟩) (hstill x hmem),
        ?_⟩
      refine (nodup_active s.versions expected).imp_of_mem fun {x y} hmemX _ _ => ?_
      rintro op key value hgot ⟨⟨rfl, hslot⟩, -⟩
      exact hstill x hmemX (.inl ⟨key, value, hgot, hslot⟩)

/-- A thrown failure with the state as it was meets everything but the path's part. -/
theorem migrates_of_thrown {failure : Failure ε}
    (hpath : (∃ op stateType fromVersion toVersion,
        failure = .noPath op stateType fromVersion toVersion) ↔
      checkRestoreCompatibility reg s.versions expected ≠ []) :
    Migrates reg arrowMigrateBytes s expected (s, some failure) where
  thrown := fun _ => rfl
  migrated := fun hnone => absurd hnone (by simp)
  others := fun hnone => absurd hnone (by simp)
  stamps := fun hnone => absurd hnone (by simp)
  again := fun hnone => absurd hnone (by simp)
  path := by simpa using hpath

/-- Where no row is named twice, an entry that names a row is the only one. -/
theorem filter_covers_eq
    (hmem : e ∈ active s.versions expected) {op : Nat} {key : Key} {value : Value}
    (hgot : s.backend.get op key = some value) (hcovers : Covers e op key)
    (hapart : (active s.versions expected).Pairwise fun x y => ∀ op key value,
      s.backend.get op key = some value → ¬ (Covers x op key ∧ Covers y op key)) :
    ((active s.versions expected).filter fun x => Covers x op key) = [e] := by
  have honly : ∀ x ∈ (active s.versions expected).filter fun x => Covers x op key, x = e := by
    intro x hmemX
    obtain ⟨hmemX, hcoversX⟩ := List.mem_filter.mp hmemX
    by_contra hne
    have hsymm : Std.Symm fun x y : VersionEntry => ∀ op key value,
        s.backend.get op key = some value → ¬ (Covers x op key ∧ Covers y op key) :=
      ⟨fun x y hnone op key value hgot hboth => hnone op key value hgot hboth.symm⟩
    exact hapart.forall hmemX hmem hne op key value hgot ⟨by simpa using hcoversX, hcovers⟩
  have hnodup := (nodup_active s.versions expected).filter fun x => Covers x op key
  have hown : e ∈ (active s.versions expected).filter fun x => Covers x op key :=
    List.mem_filter.mpr ⟨hmem, by simpa using hcovers⟩
  generalize (active s.versions expected).filter (fun x => Covers x op key) = l at honly hnodup hown
  match l, honly, hnodup, hown with
  | [x], honly, _, _ => rw [honly x List.mem_cons_self]
  | x :: y :: _, honly, hnodup, _ =>
      have heq : x = y := (honly x (by simp)).trans (honly y (by simp)).symm
      exact absurd hnodup (by simp [heq])

theorem migrates_of_meets (hmeets : Meets reg arrowMigrateBytes s expected) :
    Migrates reg arrowMigrateBytes s expected
      (migrateRestoredState reg arrowMigrateBytes s expected) := by
  obtain hsound | ⟨pre, e, post, hsplit, hsound, hfails⟩ :=
    first_failing reg arrowMigrateBytes s (active s.versions expected)
  · have hpaths : ∀ x ∈ active s.versions expected, hasPath reg s.versions x = true :=
      fun x hmem => Bool.of_not_eq_false fun hlacks => hsound x hmem (.inl hlacks)
    have hcheck := check_eq_nil_iff.mpr hpaths
    by_cases hrefused : ∃ x ∈ StateVersionMap.entries expected, Refused s.versions x
    · have hloop := quiet_entries differ_active hsound (hmeets.refused hsound hrefused) []
      rw [List.append_nil] at hloop
      obtain ⟨x, herror⟩ := (restamp s.versions expected).2 hrefused
      rw [migrateRestoredState_eq, hloop]
      simp only [migrateEntries, herror]
      exact migrates_of_thrown (by simp [hcheck])
    · have hfree : ∀ x ∈ StateVersionMap.entries expected, ¬ Refused s.versions x :=
        fun x hmem hbad => hrefused ⟨x, hmem, hbad⟩
      obtain ⟨hkeyed, hapart⟩ := hmeets.apart hsound hfree
      obtain ⟨s', hloop⟩ := ends_of_apart differ_active hpaths
        (fun x hmem key value failure hgot hslot herror =>
          hsound x hmem (.inr ⟨key, value, failure, hgot, hslot, herror⟩)) hapart
      obtain ⟨m, hok, hfound⟩ := (restamp s.versions expected).1 hfree
      obtain ⟨-, -, hrows⟩ := migrateEntries_ends differ_active hloop
      rw [returns_of_loop hloop hok]
      refine ⟨fun hsome => absurd rfl hsome, fun _ op key value hgot hkind e hmem hcovers => ?_,
        fun _ op key halone => ?_, fun _ => hfound, fun _ => again_of_stamped hfree hfound,
        by simp [hcheck]⟩
      · obtain ⟨⟨value', hchained, hgot'⟩, hcount⟩ := (hrows op key).2 value hgot
        rw [filter_covers_eq hmem hgot hcovers hapart] at hchained hcount
        refine ⟨hcount, value', ?_, hgot'⟩
        rw [List.foldlM_cons] at hchained
        cases hone : chain reg arrowMigrateBytes s.versions e value with
        | error x => simp [hone, bind, Except.bind] at hchained
        | ok v => simpa [hone, bind, Except.bind, pure, Except.pure] using hchained
      · cases hgot : s.backend.get op key with
        | none => exact (hrows op key).1 hgot
        | some value =>
            have hnone : ((active s.versions expected).filter fun x => Covers x op key) = [] := by
              refine List.filter_eq_nil_iff.mpr fun x hmem hcovers => ?_
              obtain ⟨rfl, hslot⟩ : Covers x op key := by simpa using hcovers
              obtain habsent | hkind | hno := halone
              · exact absurd (hgot.symm.trans habsent) (by simp)
              · exact absurd ((hkeyed x hmem key value hgot hslot).symm.trans hkind) (by simp)
              · exact hno x hmem ⟨rfl, hslot⟩
            obtain ⟨⟨value', hchained, hgot'⟩, hcount⟩ := (hrows op key).2 value hgot
            rw [hnone] at hchained hcount
            obtain rfl : value = value' := by
              simpa [pure, Except.pure] using hchained
            exact ⟨hgot', hcount⟩
  · obtain ⟨hstill, hpaths⟩ := hmeets.failing pre e post hsplit hsound hfails
    have hdiffer : ∀ x ∈ active s.versions expected, storedVersion s.versions x ≠ x.version :=
      differ_active
    rw [hsplit] at hdiffer
    have hquiet :=
      quiet_entries (fun x hmem => hdiffer x (List.mem_append_left _ hmem)) hsound hstill
      (e :: post)
    rw [← hsplit] at hquiet
    have hmem : e ∈ active s.versions expected := by
      rw [hsplit]
      exact List.mem_append_right _ List.mem_cons_self
    rw [migrateRestoredState_eq, hquiet]
    obtain ⟨hlacks, heq⟩ | ⟨hpath, x, heq⟩ :=
      throws_of_fails (hdiffer e (List.mem_append_right _ List.mem_cons_self)) hfails post
    · rw [heq]
      refine migrates_of_thrown ⟨fun _ hcheck => ?_, fun _ => ⟨_, _, _, _, rfl⟩⟩
      exact absurd ((check_eq_nil_iff.mp hcheck e hmem).symm.trans hlacks) (by simp)
    · rw [heq]
      have hcheck := check_eq_nil_iff.mpr
        (hpaths.resolve_left fun hlacks => absurd (hpath.symm.trans hlacks) (by simp))
      exact migrates_of_thrown (by simp [hcheck])

end Loop

/-- A migration of restored state does what is asked of it exactly where the entries meet the
condition. -/
theorem migrates_iff_meets (reg : Registry ε)
    (arrowMigrateBytes : Bytes → Schema → Schema → Except ε Bytes) (s : Restored)
    (expected : StateVersionMap) :
    Migrates reg arrowMigrateBytes s expected
        (migrateRestoredState reg arrowMigrateBytes s expected) ↔
      Meets reg arrowMigrateBytes s expected :=
  ⟨meets_of_migrates, migrates_of_meets⟩

/-- One migration of the type `t`, from version 1 to version 2. -/
def markSecond : Registry Unit where
  edges := SortedMap.empty.upsert (toLex ("t", 1)) fun _ => [⟨2, fun bytes => .ok (bytes ++ [2])⟩]

/-- A keyed row of the slot `s` and an offset in operator state. -/
def offsetAndRow : Restored where
  backend := Backend.put (Backend.put {} 1 [3, 115, 124, 107] [5]) 1 [255, 111] [7]
  versions := .empty
  fingerprints := .empty

/-- The type `t` without a slot, and a type `u` of the next operator. -/
def expectT : StateVersionMap :=
  SortedMap.empty.upsert (toLex (1, ['t'])) fun _ => ⟨2, []⟩

def expectTAndU : StateVersionMap :=
  expectT.upsert (toLex (2, ['u'])) fun _ => ⟨2, []⟩

/-- An entry without a slot rewrites an offset in operator state, and a second entry without a
path leaves the rows of the first rewritten. -/
theorem offset_rewritten_and_half_migrated :
    ¬ Migrates markSecond (fun bytes _ _ => .ok bytes) offsetAndRow expectT
      (migrateRestoredState markSecond (fun bytes _ _ => .ok bytes) offsetAndRow expectT) ∧
    ¬ Migrates markSecond (fun bytes _ _ => .ok bytes) offsetAndRow expectTAndU
      (migrateRestoredState markSecond (fun bytes _ _ => .ok bytes) offsetAndRow expectTAndU) := by
  constructor
  · intro hmigrates
    have hreturned : (migrateRestoredState markSecond (fun bytes _ _ => .ok bytes) offsetAndRow
        expectT).2.isNone = true := by decide +kernel
    have hwritten : (migrateRestoredState markSecond (fun bytes _ _ => .ok bytes) offsetAndRow
        expectT).1.backend.get 1 [255, 111] = some [7, 2] := by decide +kernel
    have halone := (hmigrates.others (Option.isNone_iff_eq_none.mp hreturned) 1 [255, 111]
      (.inr (.inl (by decide)))).1
    rw [hwritten] at halone
    exact absurd halone (by decide +kernel)
  · intro hmigrates
    have hthrown : (migrateRestoredState markSecond (fun bytes _ _ => .ok bytes) offsetAndRow
        expectTAndU).2.isSome = true := by decide +kernel
    have hwritten : (migrateRestoredState markSecond (fun bytes _ _ => .ok bytes) offsetAndRow
        expectTAndU).1.backend.get 1 [3, 115, 124, 107] = some [5, 2] := by decide +kernel
    rw [hmigrates.thrown (Option.ne_none_iff_isSome.mpr hthrown)] at hwritten
    exact absurd hwritten (by decide +kernel)

end Clink.Ports.RestoreMigration

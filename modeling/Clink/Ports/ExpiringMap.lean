import Clink.Ports.ExpiringElements
import Clink.Verified.Run

/-!
# A map per key, stored element by element

The embedding of `ExpiringMapState`.  The entry of a key and a map key is stored
under the composite of their bytes; `entries` and `clear` scan the slot for the
composites that start as the key's do.  While nothing expires the slot is a map
of composites, and it is the map of maps as long as composites tell their keys
apart: no two entries share one, none of another key starts as this key's do,
and no map key is empty.
-/

namespace Clink.Ports.ExpiringMap

open Clink.Verified
open Clink.Ports.InMemoryStateBackend (Bytes)
open Clink.Ports.KeyGroups (keyGroupForKey)
open Clink.Ports.KeyedState
open Clink.Ports.ExpiringElements

structure ExpiringMapState (K MK MV : Type) where
  slotName : Bytes
  valid : validSlotName slotName = true
  keyCodec : Codec K
  mapKeyCodec : Codec MK
  valueCodec : Codec MV
  ttl : TtlConfig := {}

namespace ExpiringMapState

variable {K MK MV : Type} (m : ExpiringMapState K MK MV) (host : Host)

/-- `state_`. -/
def state : Slot Bytes MV := elementSlot m.slotName m.valid m.valueCodec m.ttl

def composite (k : K) (mapKey : MK) : Bytes :=
  composeKey (m.keyCodec.encode k) (m.mapKeyCodec.encode mapKey)

def put (st : Store) (k : K) (mapKey : MK) (mv : MV) : Store :=
  { st with backend := m.state.put host st.clocks st.view st.backend (m.composite k mapKey) mv }

def get (st : Store) (k : K) (mapKey : MK) : Option MV × Store :=
  let (mv, view, backend) := m.state.get host st.clocks st.view st.backend (m.composite k mapKey)
  (mv, { st with view := view, backend := backend })

def remove (st : Store) (k : K) (mapKey : MK) : Store :=
  { st with backend := m.state.erase host st.backend (m.composite k mapKey) }

/-- The entries of a key, in the order the slot is scanned in. -/
def entries (st : Store) (k : K) : List (MK × MV) :=
  (m.state.scan host st.clocks st.view st.backend).filterMap fun e =>
    match elementOf (keyStart (m.keyCodec.encode k)) e.1 with
    | none => none
    | some element => (m.mapKeyCodec.decode element).map fun mapKey => (mapKey, e.2)

/-- Collected first, then erased. -/
def clear (st : Store) (k : K) : Store :=
  let doomed := ((m.state.scan host st.clocks st.view st.backend).filter fun e =>
    (elementOf (keyStart (m.keyCodec.encode k)) e.1).isSome).map Prod.fst
  { st with backend := doomed.foldl (fun b c => m.state.erase host b c) st.backend }

/-! ## The map of maps -/

/-- What is done to the collection, and around it. -/
inductive Action (K MK MV : Type)
  | put (k : K) (mapKey : MK) (mv : MV)
  | get (k : K) (mapKey : MK)
  | remove (k : K) (mapKey : MK)
  | entries (k : K)
  | clear (k : K)
  | advanceWatermark (watermarkMs : Int)
  | tick (clock : Nat) (now : Int)
  /-- The collection is opened again on the rows it left. -/
  | restart

/-- What the collection is for. -/
abbrev Contents (K MK MV : Type) := K → MK → Option MV

/-- The stored collection, and the map of maps it stands for. -/
structure System (K MK MV : Type) where
  store : Store
  contents : Contents K MK MV := fun _ _ => none

variable [DecidableEq K] [DecidableEq MK]

def writeContents (c : Contents K MK MV) (k : K) (mapKey : MK) (mv : Option MV) :
    Contents K MK MV :=
  Function.update c k (Function.update (c k) mapKey mv)

def nextStore (st : Store) : Action K MK MV → Store
  | .put k mapKey mv => m.put host st k mapKey mv
  | .get k mapKey => (m.get host st k mapKey).2
  | .remove k mapKey => m.remove host st k mapKey
  | .entries _ => st
  | .clear k => m.clear host st k
  | .advanceWatermark watermarkMs =>
      { st with view := Slot.advanceWatermark st.view watermarkMs }
  | .tick clock now => { st with clocks := Function.update st.clocks clock now }
  | .restart => { st with view := {} }

def nextContents (c : Contents K MK MV) : Action K MK MV → Contents K MK MV
  | .put k mapKey mv => writeContents c k mapKey (some mv)
  | .remove k mapKey => writeContents c k mapKey none
  | .clear k => Function.update c k fun _ => none
  | .get _ _ | .entries _ | .advanceWatermark _ | .tick _ _ | .restart => c

def next (s : System K MK MV) (a : Action K MK MV) : System K MK MV :=
  ⟨m.nextStore host s.store a, nextContents s.contents a⟩

omit [DecidableEq K] [DecidableEq MK] in
/-- What an action returns is what the map of maps has. -/
def Answers (s : System K MK MV) : Action K MK MV → Prop
  | .get k mapKey => (m.get host s.store k mapKey).1 = s.contents k mapKey
  | .entries k =>
      ((m.entries host s.store k).map Prod.fst).Nodup ∧
        ∀ mapKey mv, (mapKey, mv) ∈ m.entries host s.store k ↔ s.contents k mapKey = some mv
  | _ => True

omit [DecidableEq K] [DecidableEq MK] in
/-- Every stored entry goes with the records of its key. -/
def Placed (s : System K MK MV) : Prop :=
  ∀ k mapKey mv, s.contents k mapKey = some mv →
    RestoredWith (m.keyCodec.encode k) (m.state.encodeKey (m.composite k mapKey))

/-! ## The condition -/

omit [DecidableEq K] [DecidableEq MK] in
/-- No entry of the map has the composite of another. -/
def Apart (s : System K MK MV) (k : K) (mapKey : MK) : Prop :=
  ∀ k' mapKey' mv, s.contents k' mapKey' = some mv → m.composite k' mapKey' = m.composite k mapKey →
    k' = k ∧ mapKey' = mapKey

omit [DecidableEq K] [DecidableEq MK] in
/-- No entry of another key starts as this key's do. -/
def Alone (s : System K MK MV) (k : K) : Prop :=
  ∀ k' mapKey' mv, s.contents k' mapKey' = some mv →
    keyStart (m.keyCodec.encode k) <+: m.composite k' mapKey' → k' = k

omit [DecidableEq K] [DecidableEq MK] in
/-- The steps on which composites tell their keys apart; nothing has expired. -/
def Meets (s : System K MK MV) (a : Action K MK MV) : Prop :=
  Unexpired m.state host s.store ∧
    match a with
    | .put k mapKey _ => Apart m s k mapKey ∧ m.mapKeyCodec.encode mapKey ≠ []
    | .get k mapKey | .remove k mapKey => Apart m s k mapKey
    | .entries k | .clear k => Alone m s k
    | .advanceWatermark _ | .tick _ _ | .restart => True

/-! ## The invariant -/

omit [DecidableEq K] [DecidableEq MK] in
/-- The slot's map of composites stands for the map of maps. -/
structure Stands (s : System K MK MV) (flat : Bytes → Option MV) : Prop where
  holds : Holds m.state host s.store.backend flat
  flat : ∀ c mv, flat c = some mv ↔
    ∃ k mapKey, c = m.composite k mapKey ∧ s.contents k mapKey = some mv
  apart : ∀ k mapKey mv, s.contents k mapKey = some mv → Apart m s k mapKey
  nonempty : ∀ k mapKey mv, s.contents k mapKey = some mv → m.mapKeyCodec.encode mapKey ≠ []

variable {m host} {s : System K MK MV} {flat : Bytes → Option MV} {k k' : K} {mapKey mapKey' : MK}
  {mv : MV}

omit [DecidableEq K] [DecidableEq MK] in
/-- Under a composite no other entry has, the slot has what the map of maps has. -/
theorem Stands.at_composite (h : Stands m host s flat) (hapart : Apart m s k mapKey) :
    flat (m.composite k mapKey) = s.contents k mapKey := by
  refine Option.ext fun mv => ?_
  rw [h.flat]
  constructor
  · rintro ⟨k', mapKey', hcomposite, hmem⟩
    obtain ⟨rfl, rfl⟩ := hapart k' mapKey' mv hmem hcomposite.symm
    exact hmem
  · intro hmem
    exact ⟨k, mapKey, rfl, hmem⟩

theorem writeContents_self (c : Contents K MK MV) (k : K) (mapKey : MK) (v : Option MV) :
    writeContents c k mapKey v k mapKey = v := by
  simp [writeContents]

theorem writeContents_of_ne {c : Contents K MK MV} {v : Option MV}
    (h : ¬ (k' = k ∧ mapKey' = mapKey)) :
    writeContents c k mapKey v k' mapKey' = c k' mapKey' := by
  unfold writeContents
  by_cases hk : k' = k
  · subst hk
    rw [Function.update_self, Function.update_of_ne fun hmk => h ⟨rfl, hmk⟩]
  · rw [Function.update_of_ne hk]

section

variable (h : Stands m host s flat)
include h

/-- A composite no other entry has may be written. -/
theorem Stands.write {v : Option MV} {st : Store} (hapart : Apart m s k mapKey)
    (hholds : Holds m.state host st.backend (Function.update flat (m.composite k mapKey) v))
    (hnew : ∀ mv, v = some mv → m.mapKeyCodec.encode mapKey ≠ []) :
    Stands m host ⟨st, writeContents s.contents k mapKey v⟩
      (Function.update flat (m.composite k mapKey) v) := by
  -- Every entry after the write is the written one or was there before.
  have hcases : ∀ k' mapKey' mv, writeContents s.contents k mapKey v k' mapKey' = some mv →
      (k' = k ∧ mapKey' = mapKey ∧ v = some mv) ∨
        (¬ (k' = k ∧ mapKey' = mapKey) ∧ s.contents k' mapKey' = some mv) := by
    intro k' mapKey' mv hmem
    by_cases heq : k' = k ∧ mapKey' = mapKey
    · obtain ⟨rfl, rfl⟩ := heq
      rw [writeContents_self] at hmem
      exact Or.inl ⟨rfl, rfl, hmem⟩
    · rw [writeContents_of_ne heq] at hmem
      exact Or.inr ⟨heq, hmem⟩
  refine ⟨hholds, ?_, ?_, ?_⟩
  · intro c mv
    by_cases hc : c = m.composite k mapKey
    · subst hc
      rw [Function.update_self]
      constructor
      · intro hv
        exact ⟨k, mapKey, rfl, (writeContents_self s.contents k mapKey v).trans hv⟩
      · rintro ⟨k', mapKey', hcomposite, hmem⟩
        obtain ⟨rfl, rfl, hv⟩ | ⟨hne, hold⟩ := hcases k' mapKey' mv hmem
        · exact hv
        · exact absurd (hapart k' mapKey' mv hold hcomposite.symm) hne
    · rw [Function.update_of_ne hc, h.flat]
      constructor
      · rintro ⟨k', mapKey', rfl, hmem⟩
        refine ⟨k', mapKey', rfl, (writeContents_of_ne ?_).trans hmem⟩
        rintro ⟨rfl, rfl⟩
        exact hc rfl
      · rintro ⟨k', mapKey', rfl, hmem⟩
        obtain ⟨rfl, rfl, -⟩ | ⟨-, hold⟩ := hcases k' mapKey' mv hmem
        · exact absurd rfl hc
        · exact ⟨k', mapKey', rfl, hold⟩
  · intro k₁ mk₁ mv₁ hmem₁ k₂ mk₂ mv₂ hmem₂ hcomposite
    obtain ⟨rfl, rfl, -⟩ | ⟨hne₁, hold₁⟩ := hcases k₁ mk₁ mv₁ hmem₁
    · obtain ⟨rfl, rfl, -⟩ | ⟨-, hold₂⟩ := hcases k₂ mk₂ mv₂ hmem₂
      · exact ⟨rfl, rfl⟩
      · exact hapart k₂ mk₂ mv₂ hold₂ hcomposite
    · obtain ⟨rfl, rfl, -⟩ | ⟨-, hold₂⟩ := hcases k₂ mk₂ mv₂ hmem₂
      · exact absurd (hapart k₁ mk₁ mv₁ hold₁ hcomposite.symm) hne₁
      · exact h.apart k₁ mk₁ mv₁ hold₁ k₂ mk₂ mv₂ hold₂ hcomposite
  · intro k' mapKey' mv hmem
    obtain ⟨rfl, rfl, hv⟩ | ⟨-, hold⟩ := hcases k' mapKey' mv hmem
    · exact hnew mv hv
    · exact h.nonempty k' mapKey' mv hold

omit [DecidableEq K] [DecidableEq MK] in
/-- The elements a scan finds under a key are that key's entries. -/
theorem Stands.element (halone : Alone m s k) {c element : Bytes} (hflat : flat c = some mv)
    (helement : elementOf (keyStart (m.keyCodec.encode k)) c = some element) :
    ∃ mapKey, element = m.mapKeyCodec.encode mapKey ∧ c = m.composite k mapKey ∧
      s.contents k mapKey = some mv := by
  obtain ⟨k', mapKey, rfl, hmem⟩ := (h.flat c mv).mp hflat
  obtain ⟨-, hstart⟩ := elementOf_eq_some.mp helement
  obtain rfl : k' = k := halone k' mapKey mv hmem ⟨element, hstart.symm⟩
  refine ⟨mapKey, ?_, rfl, hmem⟩
  unfold composite at hstart
  rw [composeKey_eq] at hstart
  exact (List.append_cancel_left hstart).symm

omit [DecidableEq K] [DecidableEq MK] in
theorem Stands.elementOf_composite (hmem : s.contents k mapKey = some mv) :
    elementOf (keyStart (m.keyCodec.encode k)) (m.composite k mapKey) =
      some (m.mapKeyCodec.encode mapKey) := by
  refine elementOf_eq_some.mpr ⟨h.nonempty k mapKey mv hmem, ?_⟩
  unfold composite
  rw [composeKey_eq]

/-! ## Steps -/

omit [DecidableEq MK] in
/-- Clearing a key no other entry starts as leaves the other keys' entries. -/
theorem Stands.clear (hlive : Unexpired m.state host s.store) (halone : Alone m s k) :
    ∃ flat', Stands m host ⟨m.clear host s.store k, Function.update s.contents k fun _ => none⟩
      flat' := by
  refine ⟨_, h.holds.eraseKeys _, ?_, ?_, ?_⟩
  · intro c mv
    have hdoomed : c ∈ ((m.state.scan host s.store.clocks s.store.view s.store.backend).filter
          fun e => (elementOf (keyStart (m.keyCodec.encode k)) e.1).isSome).map Prod.fst ↔
        ∃ mapKey mv, c = m.composite k mapKey ∧ s.contents k mapKey = some mv := by
      rw [List.mem_map]
      constructor
      · rintro ⟨e, he, rfl⟩
        obtain ⟨hscan, hsome⟩ := List.mem_filter.mp he
        obtain ⟨element, helement⟩ := Option.isSome_iff_exists.mp hsome
        have hflat := (h.holds.mem_scan hlive e.1 e.2).mp hscan
        obtain ⟨mapKey, -, hc, hmem⟩ := h.element halone hflat helement
        exact ⟨mapKey, e.2, hc, hmem⟩
      · rintro ⟨mapKey, mv, rfl, hmem⟩
        refine ⟨(m.composite k mapKey, mv), List.mem_filter.mpr ⟨?_, ?_⟩, rfl⟩
        · exact (h.holds.mem_scan hlive _ mv).mpr ((h.flat _ mv).mpr ⟨k, mapKey, rfl, hmem⟩)
        · rw [h.elementOf_composite hmem]
          rfl
    split
    · rename_i hin
      obtain ⟨mapKey, mv', rfl, hmem⟩ := hdoomed.mp hin
      refine iff_of_false (by simp) ?_
      rintro ⟨k', mapKey', hcomposite, hkeep⟩
      by_cases hk : k' = k
      · subst hk
        simp at hkeep
      · simp only [Function.update_of_ne hk] at hkeep
        exact hk (h.apart k mapKey mv' hmem k' mapKey' mv hkeep hcomposite.symm).1
    · rename_i hout
      rw [h.flat]
      constructor
      · rintro ⟨k', mapKey', rfl, hmem⟩
        refine ⟨k', mapKey', rfl, ?_⟩
        have hk : k' ≠ k := by
          rintro rfl
          exact hout (hdoomed.mpr ⟨mapKey', mv, rfl, hmem⟩)
        simpa only [Function.update_of_ne hk] using hmem
      · rintro ⟨k', mapKey', rfl, hmem⟩
        refine ⟨k', mapKey', rfl, ?_⟩
        by_cases hk : k' = k
        · subst hk
          simp at hmem
        · simpa only [Function.update_of_ne hk] using hmem
  all_goals
    have hold : ∀ k' mapKey' mv,
        Function.update s.contents k (fun _ => none) k' mapKey' = some mv →
          s.contents k' mapKey' = some mv := by
      intro k' mapKey' mv hmem
      by_cases hk : k' = k
      · subst hk
        simp at hmem
      · simpa only [Function.update_of_ne hk] using hmem
  · intro k₁ mk₁ mv₁ hmem₁ k₂ mk₂ mv₂ hmem₂
    exact h.apart k₁ mk₁ mv₁ (hold k₁ mk₁ mv₁ hmem₁) k₂ mk₂ mv₂ (hold k₂ mk₂ mv₂ hmem₂)
  · intro k' mapKey' mv hmem
    exact h.nonempty k' mapKey' mv (hold k' mapKey' mv hmem)

/-- A step that meets the condition keeps the slot standing for the map of maps. -/
theorem Stands.next {a : Action K MK MV} (hmeets : Meets m host s a) :
    ∃ flat', Stands m host (m.next host s a) flat' := by
  obtain ⟨hlive, hmeets⟩ := hmeets
  cases a with
  | put k mapKey mv =>
      obtain ⟨hapart, hnonempty⟩ := hmeets
      exact ⟨_, h.write hapart (h.holds.put s.store.clocks s.store.view _ mv) fun _ _ => hnonempty⟩
  | get k mapKey =>
      exact ⟨flat, h.holds.get_snd hlive _, h.flat, h.apart, h.nonempty⟩
  | remove k mapKey =>
      refine ⟨_, h.write hmeets (h.holds.erase _) ?_⟩
      intro mv hv
      exact absurd hv (by simp)
  | entries k => exact ⟨flat, h⟩
  | clear k => exact h.clear hlive hmeets
  | advanceWatermark w => exact ⟨flat, h.holds, h.flat, h.apart, h.nonempty⟩
  | tick clock now => exact ⟨flat, h.holds, h.flat, h.apart, h.nonempty⟩
  | restart => exact ⟨flat, h.holds, h.flat, h.apart, h.nonempty⟩

omit [DecidableEq K] [DecidableEq MK] in
private theorem Stands.mem_entries (hlive : Unexpired m.state host s.store) (halone : Alone m s k)
    (mapKey : MK) (mv : MV) :
    (mapKey, mv) ∈ m.entries host s.store k ↔ s.contents k mapKey = some mv := by
  unfold entries
  rw [List.mem_filterMap]
  constructor
  · rintro ⟨e, he, hentry⟩
    have hflat := (h.holds.mem_scan hlive e.1 e.2).mp he
    cases helement : elementOf (keyStart (m.keyCodec.encode k)) e.1 with
    | none => simp [helement] at hentry
    | some element =>
        obtain ⟨mapKey', rfl, -, hmem⟩ := h.element halone hflat helement
        simp only [helement, m.mapKeyCodec.decode_encode, Option.map_some, Option.some.injEq,
          Prod.mk.injEq] at hentry
        obtain ⟨rfl, rfl⟩ := hentry
        exact hmem
  · intro hmem
    refine ⟨(m.composite k mapKey, mv), ?_, ?_⟩
    · exact (h.holds.mem_scan hlive _ mv).mpr ((h.flat _ mv).mpr ⟨k, mapKey, rfl, hmem⟩)
    · simp [h.elementOf_composite hmem, m.mapKeyCodec.decode_encode]

omit [DecidableEq K] [DecidableEq MK] in
private theorem Stands.nodup_entries (hlive : Unexpired m.state host s.store)
    (halone : Alone m s k) : ((m.entries host s.store k).map Prod.fst).Nodup := by
  have hscan := h.holds.nodup_scan
  unfold entries List.Nodup at *
  rw [List.pairwise_map, List.pairwise_filterMap]
  rw [List.pairwise_map] at hscan
  refine hscan.imp_of_mem ?_
  intro e e' he he' hne x hx x' hx' heq
  -- Two entries of one map key would have one composite.
  have hflat := (h.holds.mem_scan hlive e.1 e.2).mp he
  have hflat' := (h.holds.mem_scan hlive e'.1 e'.2).mp he'
  cases helement : elementOf (keyStart (m.keyCodec.encode k)) e.1 with
  | none => simp [helement] at hx
  | some element =>
      cases helement' : elementOf (keyStart (m.keyCodec.encode k)) e'.1 with
      | none => simp [helement'] at hx'
      | some element' =>
          obtain ⟨mapKey, rfl, hc, -⟩ := h.element halone hflat helement
          obtain ⟨mapKey', rfl, hc', -⟩ := h.element halone hflat' helement'
          simp only [helement, m.mapKeyCodec.decode_encode, Option.map_some,
            Option.some.injEq] at hx
          simp only [helement', m.mapKeyCodec.decode_encode, Option.map_some,
            Option.some.injEq] at hx'
          subst hx hx'
          obtain rfl : mapKey = mapKey' := heq
          exact hne (hc.trans hc'.symm)

omit [DecidableEq K] [DecidableEq MK] in
theorem Stands.answers {a : Action K MK MV} (hmeets : Meets m host s a) : Answers m host s a := by
  obtain ⟨hlive, hmeets⟩ := hmeets
  cases a with
  | get k mapKey =>
      have hget := h.holds.get_fst hlive (m.composite k mapKey)
      rw [h.at_composite hmeets] at hget
      exact hget
  | entries k =>
      exact ⟨h.nodup_entries hlive hmeets, h.mem_entries hlive hmeets⟩
  | put k mapKey mv => trivial
  | remove k mapKey => trivial
  | clear k => trivial
  | advanceWatermark w => trivial
  | tick clock now => trivial
  | restart => trivial

end

/-- Along a run that meets the condition the collection is a map of maps. -/
theorem answers_of_runs {clocks : Nat → Int} {as : List (Action K MK MV)}
    (hrun : Runs (m.next host) (fun _ s a => Meets m host s a)
        ⟨{ clocks := clocks }, fun _ _ => none⟩
      as s) {a : Action K MK MV} (hmeets : Meets m host s a) : Answers m host s a := by
  have hstands : ∃ flat, Stands m host s flat := by
    refine hrun.induct (I := fun _ s => ∃ flat, Stands m host s flat) ?_ ?_
    · refine ⟨fun _ => none, Holds.empty m.state host, ?_, ?_, ?_⟩
      · intro c mv
        simp
      · intro k mapKey mv hmem
        exact absurd hmem (by simp)
      · intro k mapKey mv hmem
        exact absurd hmem (by simp)
    · rintro _ s a _ ⟨flat, h⟩ hmeets
      exact h.next hmeets
  obtain ⟨flat, h⟩ := hstands
  exact h.answers hmeets

omit [DecidableEq K] [DecidableEq MK] in
/-- An entry goes with the records of its key exactly where its composite hashes
into the key's group. -/
theorem placed_iff : Placed m s ↔ ∀ k mapKey mv, s.contents k mapKey = some mv →
    keyGroupForKey (m.composite k mapKey) = keyGroupForKey (m.keyCodec.encode k) := by
  unfold Placed
  have hrow : ∀ k mapKey, RestoredWith (m.keyCodec.encode k)
      (m.state.encodeKey (m.composite k mapKey)) ↔
        keyGroupForKey (m.composite k mapKey) = keyGroupForKey (m.keyCodec.encode k) :=
    fun k mapKey => restoredWith_iff rfl
  simp only [hrow]

/-! ## Keys without the separator -/

omit [DecidableEq K] [DecidableEq MK] in
/-- An action whose key does not hold the separator, and that puts no empty map key. -/
def Plain (m : ExpiringMapState K MK MV) : Action K MK MV → Prop
  | .put k mapKey _ => elementSep ∉ m.keyCodec.encode k ∧ m.mapKeyCodec.encode mapKey ≠ []
  | .get k _ | .remove k _ | .entries k | .clear k => elementSep ∉ m.keyCodec.encode k
  | .advanceWatermark _ | .tick _ _ | .restart => True

omit [DecidableEq K] [DecidableEq MK] in
theorem meets_of_plain (hoff : m.ttl.enabled = false)
    (hkeys : ∀ k mapKey mv, s.contents k mapKey = some mv → elementSep ∉ m.keyCodec.encode k)
    {a : Action K MK MV} (h : Plain m a) : Meets m host s a := by
  have hlive : Unexpired m.state host s.store := fun hon => absurd (hoff.symm.trans hon) (by simp)
  have halone : ∀ {k}, elementSep ∉ m.keyCodec.encode k → Alone m s k := by
    intro k hk k' mapKey' mv hmem hstart
    exact (m.keyCodec.encode_injective (eq_of_keyStart hk (hkeys k' mapKey' mv hmem) hstart)).symm
  have hapart : ∀ {k mapKey}, elementSep ∉ m.keyCodec.encode k → Apart m s k mapKey := by
    intro k mapKey hk k' mapKey' mv hmem hsame
    have hstart : keyStart (m.keyCodec.encode k) <+: m.composite k' mapKey' := by
      rw [hsame, composite, composeKey_eq]
      exact List.prefix_append _ _
    obtain rfl := halone hk k' mapKey' mv hmem hstart
    rw [composite, composite, composeKey_eq, composeKey_eq] at hsame
    exact ⟨rfl, m.mapKeyCodec.encode_injective (List.append_cancel_left hsame)⟩
  cases a with
  | put k mapKey mv => exact ⟨hlive, hapart h.1, h.2⟩
  | get k mapKey => exact ⟨hlive, hapart h⟩
  | remove k mapKey => exact ⟨hlive, hapart h⟩
  | entries k => exact ⟨hlive, halone h⟩
  | clear k => exact ⟨hlive, halone h⟩
  | advanceWatermark w => exact ⟨hlive, trivial⟩
  | tick clock now => exact ⟨hlive, trivial⟩
  | restart => exact ⟨hlive, trivial⟩

variable (host) in
/-- Every run of plain actions meets the condition, and leaves plain keys. -/
theorem runs_of_plain (hoff : m.ttl.enabled = false) (clocks : Nat → Int)
    (as : List (Action K MK MV)) (h : ∀ a ∈ as, Plain m a) :
    Runs (m.next host) (fun _ s a => Meets m host s a) ⟨{ clocks := clocks }, fun _ _ => none⟩ as
      (as.foldl (m.next host) ⟨{ clocks := clocks }, fun _ _ => none⟩) ∧
    ∀ k mapKey mv,
      (as.foldl (m.next host) ⟨{ clocks := clocks }, fun _ _ => none⟩).contents k mapKey = some mv →
        elementSep ∉ m.keyCodec.encode k := by
  induction as using List.reverseRecOn with
  | nil => exact ⟨.nil, fun _ _ _ hmem => absurd hmem (by simp)⟩
  | append_singleton as a ih =>
      obtain ⟨hrun, hkeys⟩ := ih fun a' ha => h a' (List.mem_append_left [a] ha)
      have hplain := h a (by simp)
      rw [List.foldl_append]
      generalize as.foldl (m.next host) ⟨{ clocks := clocks }, fun _ _ => none⟩ = s at hrun hkeys ⊢
      refine ⟨.snoc hrun (meets_of_plain hoff hkeys hplain), ?_⟩
      intro k' mapKey' mv' hmem
      cases a with
      | put k mapKey mv =>
          by_cases hk : k' = k
          · rw [hk]
            exact hplain.1
          · refine hkeys k' mapKey' mv' ?_
            simpa [next, nextContents, writeContents, hk] using hmem
      | remove k mapKey =>
          by_cases hk : k' = k
          · rw [hk]
            exact hplain
          · refine hkeys k' mapKey' mv' ?_
            simpa [next, nextContents, writeContents, hk] using hmem
      | clear k =>
          by_cases hk : k' = k
          · rw [hk]
            exact hplain
          · refine hkeys k' mapKey' mv' ?_
            simpa [next, nextContents, hk] using hmem
      | get k mapKey => exact hkeys k' mapKey' mv' hmem
      | entries k => exact hkeys k' mapKey' mv' hmem
      | advanceWatermark w => exact hkeys k' mapKey' mv' hmem
      | tick clock now => exact hkeys k' mapKey' mv' hmem
      | restart => exact hkeys k' mapKey' mv' hmem

end ExpiringMapState

end Clink.Ports.ExpiringMap

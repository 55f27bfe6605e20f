import Clink.Ports.KeyedState

/-!
# Elements stored one by one

What `ExpiringMapState` and `ExpiringListState`
(`include/clink/state/expiring_collection_state.hpp`) share: each element of a
collection is its own entry of a keyed state slot whose keys are strings, under
the collection's key, a separator byte and the element's own bytes.

While no entry expires the slot is a plain map: `Holds` says which, and each
operation of the slot is given its effect on that map.  `RestoredWith` says that
a stored row follows the records of a key through a rescale.
-/

namespace Clink.Ports.ExpiringElements

open Clink.Verified
open Clink.Ports.InMemoryStateBackend (Backend Bytes Key Value KeyGroupRange outOfRange)
open Clink.Ports.KeyGroups
open Clink.Ports.KeyedState

/-- `kElementSep`. -/
def elementSep : UInt8 := 0x1F

def composeKey (userKey element : Bytes) : Bytes := userKey ++ elementSep :: element

/-- What every composite key of a user key starts with. -/
def keyStart (userKey : Bytes) : Bytes := userKey ++ [elementSep]

/-- The bytes after the start, when there are any. -/
def elementOf (start composite : Bytes) : Option Bytes :=
  if composite.length ≤ start.length || composite.take start.length ≠ start then none
  else some (composite.drop start.length)

/-- The slot of a collection: its keys are strings. -/
def elementSlot {V : Type} (slotName : Bytes) (hvalid : validSlotName slotName = true)
    (valueCodec : Codec V) (ttl : TtlConfig) : Slot Bytes V :=
  ⟨slotName, stringCodec, valueCodec, ttl, hvalid⟩

/-- The rows of the operator, the members of the slot and the clocks. -/
structure Store where
  backend : Backend := {}
  view : View := {}
  clocks : Nat → Int

/-! ## Composite keys -/

theorem composeKey_eq (userKey element : Bytes) :
    composeKey userKey element = keyStart userKey ++ element := by
  simp [composeKey, keyStart]

/-- A key without the separator is read off a composite up to the first one. -/
theorem eq_of_keyStart {a b element : Bytes} (ha : elementSep ∉ a) (hb : elementSep ∉ b)
    (h : keyStart a <+: composeKey b element) : a = b := by
  induction a generalizing b with
  | nil =>
      cases b with
      | nil => rfl
      | cons y b =>
          obtain ⟨heq, -⟩ := List.cons_prefix_cons.mp h
          exact absurd (heq ▸ List.mem_cons_self) hb
  | cons x a ih =>
      cases b with
      | nil =>
          obtain ⟨heq, -⟩ := List.cons_prefix_cons.mp h
          exact absurd (heq ▸ List.mem_cons_self) ha
      | cons y b =>
          obtain ⟨rfl, htail⟩ := List.cons_prefix_cons.mp h
          rw [ih (fun hmem => ha (List.mem_cons_of_mem x hmem))
            (fun hmem => hb (List.mem_cons_of_mem x hmem)) htail]

theorem elementOf_eq_some {start composite element : Bytes} :
    elementOf start composite = some element ↔ element ≠ [] ∧ composite = start ++ element := by
  unfold elementOf
  constructor
  · intro h
    split at h
    · exact absurd h (by simp)
    · rename_i hguard
      simp only [Bool.or_eq_true, decide_eq_true_eq, not_or, not_not, Nat.not_le] at hguard
      obtain ⟨hlen, htake⟩ := hguard
      obtain rfl := Option.some.inj h
      refine ⟨?_, ?_⟩
      · intro hnil
        have hzero := congrArg List.length hnil
        rw [List.length_drop, List.length_nil] at hzero
        omega
      · conv_lhs => rw [← List.take_append_drop start.length composite, htake]
  · rintro ⟨hne, rfl⟩
    have hpos : 0 < element.length := List.length_pos_iff.mpr hne
    have hguard : ¬ ((start ++ element).length ≤ start.length ||
        (start ++ element).take start.length ≠ start) = true := by
      simp only [List.length_append, List.take_left', Bool.or_eq_true, decide_eq_true_eq, ne_eq,
        not_true_eq_false, or_false]
      omega
    rw [if_neg hguard, List.drop_left']
    rfl

/-! ## A slot whose entries do not expire -/

section

variable {K V : Type} {slot : Slot K V} {host : Host} {st : Store} {b : Backend}
  {flat : K → Option V}

/-- What is stored for a value. -/
inductive RowHolds (slot : Slot K V) : Option Value → Option V → Prop
  | absent : RowHolds slot none none
  | plain {v : V} (hoff : slot.ttl.enabled = false) :
      RowHolds slot (some (slot.valueCodec.encode v)) (some v)
  | stamped {v : V} {stamp : Int} (hon : slot.ttl.enabled = true) :
      RowHolds slot (some (writeI64Le stamp ++ slot.valueCodec.encode v)) (some v)

/-- The rows are those of the map. -/
structure Holds (slot : Slot K V) (host : Host) (b : Backend) (flat : K → Option V) : Prop where
  owned : ∀ key raw, b.get host.op key = some raw → ∃ k, key = slot.encodeKey k
  rows : ∀ k, RowHolds slot (b.get host.op (slot.encodeKey k)) (flat k)

/-- No stored entry has expired. -/
def Unexpired (slot : Slot K V) (host : Host) (st : Store) : Prop :=
  slot.ttl.enabled = true → ∀ k raw, st.backend.get host.op (slot.encodeKey k) = some raw →
    slot.isExpired st.clocks st.view (readI64Le raw) = false

theorem encodeKey_injective : Function.Injective slot.encodeKey := fun _ _ h =>
  slot.keyCodec.encode_injective (Slot.encodeKey_inj h).2

theorem RowHolds.read {raw : Option Value} {v : Option V} (h : RowHolds slot raw v)
    (hlive : slot.ttl.enabled = true → ∀ bytes, raw = some bytes →
      slot.isExpired st.clocks st.view (readI64Le bytes) = false) :
    raw.bind (slot.readRow st.clocks st.view) = v := by
  cases h with
  | absent => rfl
  | plain hoff => simp [Slot.readRow, hoff, slot.valueCodec.decode_encode]
  | @stamped v stamp hon =>
      have hlen : ¬ (writeI64Le stamp ++ slot.valueCodec.encode v).length < 8 := by simp
      simp only [Option.bind_some, Slot.readRow, hon, hlen, hlive hon _ rfl, drop_writeI64Le,
        slot.valueCodec.decode_encode, Bool.not_true, Bool.false_eq_true, if_false]

namespace Holds

theorem empty (slot : Slot K V) (host : Host) : Holds slot host {} fun _ => none :=
  ⟨fun key raw hget => absurd hget (by simp [Backend.get]), fun _ => .absent⟩

variable [DecidableEq K]

theorem put (h : Holds slot host b flat) (clocks : Nat → Int) (view : View) (k : K) (v : V) :
    Holds slot host (slot.put host clocks view b k v) (Function.update flat k (some v)) := by
  rw [Slot.put_eq]
  refine ⟨?_, ?_⟩
  · intro key raw hget
    rw [InMemoryStateBackend.get_put] at hget
    by_cases hkey : slot.encodeKey k = key
    · exact ⟨k, hkey.symm⟩
    · rw [if_neg (fun h => hkey h.2)] at hget
      exact h.owned key raw hget
  · intro k'
    rw [InMemoryStateBackend.get_put]
    by_cases hk : k' = k
    · subst hk
      rw [if_pos ⟨rfl, rfl⟩, Function.update_self]
      cases hon : slot.ttl.enabled with
      | false => exact .plain hon
      | true => exact .stamped hon
    · rw [if_neg (fun h => hk (encodeKey_injective h.2).symm), Function.update_of_ne hk]
      exact h.rows k'

theorem erase (h : Holds slot host b flat) (k : K) :
    Holds slot host (slot.erase host b k) (Function.update flat k none) := by
  unfold Slot.erase
  refine ⟨?_, ?_⟩
  · intro key raw hget
    rw [InMemoryStateBackend.get_erase] at hget
    split at hget
    · exact absurd hget (by simp)
    · exact h.owned key raw hget
  · intro k'
    rw [InMemoryStateBackend.get_erase]
    by_cases hk : k' = k
    · subst hk
      rw [if_pos ⟨rfl, rfl⟩, Function.update_self]
      exact .absent
    · rw [if_neg (fun h => hk (encodeKey_injective h.2).symm), Function.update_of_ne hk]
      exact h.rows k'

theorem eraseKeys (h : Holds slot host b flat) (ks : List K) :
    Holds slot host (ks.foldl (fun b k => slot.erase host b k) b)
      fun k => if k ∈ ks then none else flat k := by
  induction ks generalizing b flat with
  | nil => simpa using h
  | cons k rest ih =>
      have hrest := ih (h.erase k)
      rw [List.foldl_cons]
      refine ⟨hrest.owned, ?_⟩
      intro k'
      have hrow := hrest.rows k'
      by_cases hk : k' = k
      · subst hk
        simpa using hrow
      · simpa [hk] using hrow

section

variable (h : Holds slot host st.backend flat)
include h

omit [DecidableEq K] in
theorem get_eq (hlive : Unexpired slot host st) (k : K) :
    (st.backend.get host.op (slot.encodeKey k)).bind (slot.readRow st.clocks st.view) = flat k :=
  (h.rows k).read fun hon bytes hget => hlive hon k bytes hget

omit [DecidableEq K] in
theorem get_fst (hlive : Unexpired slot host st) (k : K) :
    (slot.get host st.clocks st.view st.backend k).1 = flat k := by
  rw [Slot.get_fst]
  exact h.get_eq hlive k

/-- A read stores at most a new deadline. -/
theorem get_snd (hlive : Unexpired slot host st) (k : K) :
    Holds slot host (slot.get host st.clocks st.view st.backend k).2.2 flat := by
  have hrow := h.rows k
  generalize hraw : st.backend.get host.op (slot.encodeKey k) = raw at hrow
  generalize hv : flat k = v at hrow
  cases hrow with
  | absent =>
      rw [Slot.get_of_none st.clocks st.view hraw]
      exact h
  | plain hoff =>
      rw [Slot.get_of_plain st.clocks st.view hoff hraw]
      exact h
  | @stamped v stamp hon =>
      rw [Slot.get_of_stamped st.clocks st.view hon hraw, hlive hon k _ hraw, if_neg (by simp)]
      split
      · have hput := h.put st.clocks st.view k v
        rw [← hv, Function.update_eq_self] at hput
        exact hput
      · exact h

omit [DecidableEq K] in
theorem showsOwn : slot.ShowsOwn host st.clocks st.view st.backend := by
  rintro ⟨key, raw⟩ hrow k v hvisit
  obtain ⟨k', rfl⟩ := h.owned key raw (InMemoryStateBackend.mem_rows.mp hrow)
  rw [Slot.visitRow_encodeKey, Option.map_eq_some_iff] at hvisit
  obtain ⟨v', hread, heq⟩ := hvisit
  obtain ⟨rfl, rfl⟩ := Prod.mk.inj heq
  exact ⟨rfl, hread⟩

omit [DecidableEq K] in
theorem mem_scan (hlive : Unexpired slot host st) (k : K) (v : V) :
    (k, v) ∈ slot.scan host st.clocks st.view st.backend ↔ flat k = some v := by
  rw [h.showsOwn.mem_scan, h.get_eq hlive k]

omit [DecidableEq K] in
theorem nodup_scan : ((slot.scan host st.clocks st.view st.backend).map Prod.fst).Nodup :=
  h.showsOwn.nodup_scan

end

end Holds

end

/-! ## Rescaling -/

/-- The row is in the key group of the user key, and at every parallelism it is
restored on the subtask that receives the user key's records. -/
def RestoredWith (userKey : Bytes) (storedKey : Key) : Prop :=
  storedKey.head? = some (keyGroupForKey userKey).toUInt8 ∧
    ∀ p : UInt32, p ≠ 0 →
      let range := keyGroupRangeForSubtask (subtaskForKeyGroup (keyGroupForKey userKey) p) p
      outOfRange ⟨range.1, range.2⟩ storedKey = false

/-- A row follows the user key exactly where its key group is the user key's. -/
theorem restoredWith_iff {V : Type} {slot : Slot Bytes V} {userKey composite : Bytes}
    (hcodec : slot.keyCodec = stringCodec) :
    RestoredWith userKey (slot.encodeKey composite) ↔
      keyGroupForKey composite = keyGroupForKey userKey := by
  have hhead : slot.encodeKey composite =
      (keyGroupForKey composite).toUInt8 :: (slot.slotName ++ bar :: composite) := by
    unfold Slot.encodeKey
    rw [hcodec]
    rfl
  rw [hhead]
  constructor
  · rintro ⟨hbyte, -⟩
    have hlt := keyGroupForKey_lt userKey
    have hlt' := keyGroupForKey_lt composite
    have hnat := congrArg UInt8.toNat (Option.some.inj hbyte)
    rw [UInt16.toNat_toUInt8, UInt16.toNat_toUInt8] at hnat
    refine UInt16.toNat_inj.mp ?_
    omega
  intro h
  rw [h]
  refine ⟨rfl, ?_⟩
  intro p hp
  have hlt := keyGroupForKey_lt userKey
  have hbyte : (keyGroupForKey userKey).toUInt8.toUInt16 = keyGroupForKey userKey := by
    refine UInt16.toNat_inj.mp ?_
    rw [UInt8.toNat_toUInt16, UInt16.toNat_toUInt8]
    omega
  obtain ⟨hfirst, hlast⟩ := owns_subtaskForKeyGroup hlt hp
  have hcontains : KeyGroupRange.contains
      ⟨(keyGroupRangeForSubtask (subtaskForKeyGroup (keyGroupForKey userKey) p) p).1,
        (keyGroupRangeForSubtask (subtaskForKeyGroup (keyGroupForKey userKey) p) p).2⟩
      (keyGroupForKey userKey) = true := by
    unfold KeyGroupRange.contains
    rw [Bool.and_eq_true]
    exact ⟨decide_eq_true hfirst, decide_eq_true hlast⟩
  unfold outOfRange
  simp only [hbyte, hcontains, Bool.not_true, Bool.and_false]

end Clink.Ports.ExpiringElements

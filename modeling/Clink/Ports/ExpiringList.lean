import Clink.Ports.ExpiringMap
import Clink.Verified.BigEndian

/-!
# A list per key, stored element by element

The embedding of `ExpiringListState`.  An element is stored under its key and an
eight-byte sequence number, the most significant byte first; the next number of a
key is kept in memory and, after a restart, found again in the stored keys.  A
read collects what starts as the key does and sorts it by the bytes after that.

While nothing expires and no list reaches the last sequence number, the numbers
of a key are the positions of its elements, and the slot is a list per key as long
as no stored composite of another key starts as this key's do.
`collections_exact` puts the two collections together.
-/

namespace Clink.Ports.ExpiringList

open Clink.Verified
open Clink.Ports.InMemoryStateBackend (Bytes)
open Clink.Ports.KeyGroups (keyGroupForKey keyGroupForKey_parity)
open Clink.Ports.KeyedState
open Clink.Ports.ExpiringElements
open Clink.Ports.ExpiringMap (ExpiringMapState)

structure ExpiringListState (K E : Type) where
  slotName : Bytes
  valid : validSlotName slotName = true
  keyCodec : Codec K
  elementCodec : Codec E
  ttl : TtlConfig := {}

/-- `seqs_`: the next sequence number of each encoded key. -/
abbrev Seqs := AList fun _ : Bytes => Nat

/-- Big-endian, so that the order of the bytes is the order of the numbers. -/
def seqBytes (seq : Nat) : Bytes := putBE 8 seq

/-- The number after a stored one, when the composite is the key's. -/
def nextStored (start composite : Bytes) : Option Nat :=
  if composite.length ≠ start.length + 8 || composite.take start.length ≠ start then none
  else some ((readBE (composite.drop start.length) + 1) % 2 ^ 64)

namespace ExpiringListState

variable {K E : Type} (l : ExpiringListState K E) (host : Host)

/-- `state_`. -/
def state : Slot Bytes E := elementSlot l.slotName l.valid l.elementCodec l.ttl

/-- The high-water mark of the stored keys. -/
def storedHigh (st : Store) (encodedKey : Bytes) : Nat :=
  ((l.state.scan host st.clocks st.view st.backend).filterMap fun e =>
    nextStored (keyStart encodedKey) e.1).foldl max 0

/-- The next sequence number; the first one after a restart is read off what is stored. -/
def nextSeq (st : Store) (seqs : Seqs) (encodedKey : Bytes) : Nat × Seqs :=
  let seq := (seqs.lookup encodedKey).getD (l.storedHigh host st encodedKey)
  (seq, seqs.insert encodedKey ((seq + 1) % 2 ^ 64))

def add (st : Store) (seqs : Seqs) (k : K) (e : E) : Store × Seqs :=
  let key := l.keyCodec.encode k
  let (seq, seqs) := l.nextSeq host st seqs key
  ({ st with
      backend := l.state.put host st.clocks st.view st.backend (composeKey key (seqBytes seq)) e },
    seqs)

/-- The elements of a key, by the bytes of their sequence numbers. -/
def get (st : Store) (k : K) : List E :=
  let found := (l.state.scan host st.clocks st.view st.backend).filterMap fun e =>
    (elementOf (keyStart (l.keyCodec.encode k)) e.1).map fun seq => (seq, e.2)
  (found.mergeSort fun a b => a.1 ≤ b.1).map Prod.snd

def clear (st : Store) (seqs : Seqs) (k : K) : Store × Seqs :=
  let doomed := ((l.state.scan host st.clocks st.view st.backend).filter fun e =>
    (elementOf (keyStart (l.keyCodec.encode k)) e.1).isSome).map Prod.fst
  ({ st with backend := doomed.foldl (fun b c => l.state.erase host b c) st.backend },
    seqs.erase (l.keyCodec.encode k))

/-! ## A list per key -/

/-- What is done to the collection, and around it. -/
inductive Action (K E : Type)
  | add (k : K) (e : E)
  | get (k : K)
  | clear (k : K)
  | advanceWatermark (watermarkMs : Int)
  | tick (clock : Nat) (now : Int)
  /-- The collection is opened again on the rows it left. -/
  | restart

/-- What the collection is for. -/
abbrev Contents (K E : Type) := K → List E

/-- The stored collection, its counters, and the lists it stands for. -/
structure System (K E : Type) where
  store : Store
  seqs : Seqs := ∅
  contents : Contents K E := fun _ => []

variable [DecidableEq K]

def next (s : System K E) : Action K E → System K E
  | .add k e =>
      let (store, seqs) := l.add host s.store s.seqs k e
      ⟨store, seqs, Function.update s.contents k (s.contents k ++ [e])⟩
  | .get _ => s
  | .clear k =>
      let (store, seqs) := l.clear host s.store s.seqs k
      ⟨store, seqs, Function.update s.contents k []⟩
  | .advanceWatermark watermarkMs =>
      { s with store.view := Slot.advanceWatermark s.store.view watermarkMs }
  | .tick clock now => { s with store.clocks := Function.update s.store.clocks clock now }
  | .restart => { s with store.view := {}, seqs := ∅ }

omit [DecidableEq K] in
/-- A read returns the list of its key. -/
def Answers (s : System K E) : Action K E → Prop
  | .get k => l.get host s.store k = s.contents k
  | _ => True

omit [DecidableEq K] in
/-- Where the element at a position is stored. -/
def composite (k : K) (n : Nat) : Bytes := composeKey (l.keyCodec.encode k) (seqBytes n)

omit [DecidableEq K] in
/-- Every stored element goes with the records of its key. -/
def Placed (s : System K E) : Prop :=
  ∀ k n, n < (s.contents k).length →
    RestoredWith (l.keyCodec.encode k) (l.state.encodeKey (l.composite k n))

/-! ## The condition -/

omit [DecidableEq K] in
/-- No element of another key starts as this key's do. -/
def Alone (s : System K E) (k : K) : Prop :=
  ∀ k' n, n < (s.contents k').length →
    keyStart (l.keyCodec.encode k) <+: l.composite k' n → k' = k

omit [DecidableEq K] in
/-- The steps on which composites tell their keys apart; nothing has expired. -/
def Meets (s : System K E) (a : Action K E) : Prop :=
  Unexpired l.state host s.store ∧
    match a with
    | .add k _ => (s.contents k).length < 2 ^ 64 - 1
    | .get k | .clear k => Alone l s k
    | .advanceWatermark _ | .tick _ _ | .restart => True

/-! ## The invariant -/

omit [DecidableEq K] in
/-- The slot's map of composites stands for the lists: an element is stored under
its position, and a counter that is kept is the length. -/
structure Stands (s : System K E) (flat : Bytes → Option E) : Prop where
  holds : Holds l.state host s.store.backend flat
  flat : ∀ c e, flat c = some e ↔ ∃ k n, c = l.composite k n ∧ (s.contents k)[n]? = some e
  seqs : ∀ k n, s.seqs.lookup (l.keyCodec.encode k) = some n → n = (s.contents k).length
  short : ∀ k, (s.contents k).length < 2 ^ 64

variable {l host} {s : System K E} {flat : Bytes → Option E} {k k' : K} {n n' : Nat} {e : E}

omit [DecidableEq K] in
theorem seqBytes_inj (hn : n < 2 ^ 64) (hn' : n' < 2 ^ 64)
    (h : seqBytes n = seqBytes n') : n = n' := by
  have hread := congrArg readBE h
  unfold seqBytes at hread
  rwa [readBE_putBE (by omega), readBE_putBE (by omega)] at hread

omit [DecidableEq K] in
/-- A composite of this length names its key and its number. -/
theorem composite_inj (hn : n < 2 ^ 64) (hn' : n' < 2 ^ 64)
    (h : l.composite k n = l.composite k' n') : k = k' ∧ n = n' := by
  unfold composite composeKey at h
  obtain ⟨hkey, hseq⟩ := List.append_inj' h (by simp [seqBytes])
  exact ⟨l.keyCodec.encode_injective hkey, seqBytes_inj hn hn' (List.cons.inj hseq).2⟩

omit [DecidableEq K] in
theorem Stands.lt_of_mem (h : Stands l host s flat) (hmem : (s.contents k)[n]? = some e) :
    n < (s.contents k).length ∧ n < 2 ^ 64 := by
  have hlt := (List.getElem?_eq_some_iff.mp hmem).1
  exact ⟨hlt, Nat.lt_trans hlt (h.short k)⟩

/-! ## The high-water mark -/

omit [DecidableEq K] in
theorem nextStored_composite (hn : n < 2 ^ 64) :
    nextStored (keyStart (l.keyCodec.encode k)) (l.composite k n) = some ((n + 1) % 2 ^ 64) := by
  unfold nextStored composite
  rw [composeKey_eq]
  simp [seqBytes, readBE_putBE (show n < 256 ^ 8 by omega)]

omit [DecidableEq K] in
theorem eq_of_nextStored {x : Nat}
    (h : nextStored (keyStart (l.keyCodec.encode k)) (l.composite k' n) = some x) : k' = k := by
  unfold nextStored at h
  split at h
  · exact absurd h (by simp)
  · rename_i hguard
    simp only [Bool.or_eq_true, decide_eq_true_eq, not_or, not_not] at hguard
    obtain ⟨hlen, htake⟩ := hguard
    unfold composite at hlen htake
    rw [composeKey_eq] at hlen htake
    rw [List.length_append, seqBytes, length_putBE] at hlen
    have hstart : keyStart (l.keyCodec.encode k') = keyStart (l.keyCodec.encode k) := by
      rw [List.take_append_of_le_length (by omega), List.take_of_length_le (by omega)] at htake
      exact htake
    exact l.keyCodec.encode_injective (List.append_inj_left' hstart rfl)

private theorem foldl_max_le {xs : List Nat} {acc high : Nat} (hacc : acc ≤ high)
    (h : ∀ x ∈ xs, x ≤ high) : xs.foldl max acc ≤ high := by
  rw [List.foldl_max]
  cases hmax : xs.max? with
  | none => exact max_le hacc hacc
  | some m => exact max_le hacc (h m (List.max?_mem hmax))

private theorem le_foldl_max {xs : List Nat} {acc x : Nat} (h : x ≤ acc ∨ x ∈ xs) :
    x ≤ xs.foldl max acc := by
  rw [List.foldl_max]
  exact le_max_iff.mpr (h.imp_right List.le_max?_getD_of_mem)

section

variable (h : Stands l host s flat)
include h

omit [DecidableEq K] in
/-- What is stored gives the length of the list back. -/
theorem Stands.storedHigh (hlive : Unexpired l.state host s.store) (k : K) :
    l.storedHigh host s.store (l.keyCodec.encode k) = (s.contents k).length := by
  unfold ExpiringListState.storedHigh
  refine Nat.le_antisymm (foldl_max_le (Nat.zero_le _) ?_) (le_foldl_max ?_)
  · intro x hx
    obtain ⟨e, he, hnext⟩ := List.mem_filterMap.mp hx
    obtain ⟨k', n, hc, hmem⟩ := (h.flat e.1 e.2).mp ((h.holds.mem_scan hlive e.1 e.2).mp he)
    rw [hc] at hnext
    obtain rfl : k' = k := eq_of_nextStored hnext
    obtain ⟨hlt, hwide⟩ := h.lt_of_mem hmem
    rw [nextStored_composite hwide] at hnext
    have hshort := h.short k'
    have hx := Option.some.inj hnext
    rw [Nat.mod_eq_of_lt (by omega)] at hx
    omega
  · cases hlen : (s.contents k).length with
    | zero => exact Or.inl (Nat.le_refl 0)
    | succ n =>
        refine Or.inr (List.mem_filterMap.mpr ?_)
        have hshort := h.short k
        obtain ⟨e, hmem⟩ : ∃ e, (s.contents k)[n]? = some e :=
          ⟨_, List.getElem?_eq_getElem (show n < (s.contents k).length by omega)⟩
        refine ⟨(l.composite k n, e), (h.holds.mem_scan hlive _ _).mpr
          ((h.flat _ _).mpr ⟨k, n, rfl, hmem⟩), ?_⟩
        rw [nextStored_composite (by omega), Nat.mod_eq_of_lt (by omega)]

omit [DecidableEq K] in
theorem Stands.nextSeq (hlive : Unexpired l.state host s.store) (k : K)
    (hshort : (s.contents k).length < 2 ^ 64 - 1) :
    l.nextSeq host s.store s.seqs (l.keyCodec.encode k) =
      ((s.contents k).length,
        s.seqs.insert (l.keyCodec.encode k) ((s.contents k).length + 1)) := by
  have hseq : (s.seqs.lookup (l.keyCodec.encode k)).getD
      (l.storedHigh host s.store (l.keyCodec.encode k)) = (s.contents k).length := by
    cases hlookup : s.seqs.lookup (l.keyCodec.encode k) with
    | none => exact h.storedHigh hlive k
    | some n => exact h.seqs k n hlookup
  unfold ExpiringListState.nextSeq
  rw [hseq]
  simp only
  rw [Nat.mod_eq_of_lt (by omega)]

/-! ## Steps -/

theorem Stands.add (hlive : Unexpired l.state host s.store)
    (hshort : (s.contents k).length < 2 ^ 64 - 1) (e : E) :
    ∃ flat', Stands l host (l.next host s (.add k e)) flat' := by
  have hnext : l.next host s (.add k e) =
      ⟨{ s.store with
          backend := l.state.put host s.store.clocks s.store.view s.store.backend
            (l.composite k (s.contents k).length) e },
        s.seqs.insert (l.keyCodec.encode k) ((s.contents k).length + 1),
        Function.update s.contents k (s.contents k ++ [e])⟩ := by
    unfold ExpiringListState.next ExpiringListState.add
    simp only [h.nextSeq hlive k hshort]
    rfl
  rw [hnext]
  refine ⟨Function.update flat (l.composite k (s.contents k).length) (some e),
    h.holds.put s.store.clocks s.store.view _ e, ?_, ?_, ?_⟩
  · intro c x
    by_cases hc : c = l.composite k (s.contents k).length
    · subst hc
      rw [Function.update_self]
      constructor
      · intro hx
        exact ⟨k, _, rfl, by simpa using hx⟩
      · rintro ⟨k', n, hcomposite, hmem⟩
        -- Only the new element has the new number.
        have hwide : n < 2 ^ 64 := by
          have hlt := (List.getElem?_eq_some_iff.mp hmem).1
          by_cases hk : k' = k
          · subst hk
            simp only [Function.update_self, List.length_append, List.length_singleton] at hlt
            omega
          · simp only [Function.update_of_ne hk] at hlt
            exact Nat.lt_trans hlt (h.short k')
        obtain ⟨rfl, rfl⟩ := composite_inj (by omega) hwide hcomposite
        simpa using hmem
    · rw [Function.update_of_ne hc, h.flat]
      constructor
      · rintro ⟨k', n, rfl, hmem⟩
        refine ⟨k', n, rfl, ?_⟩
        by_cases hk : k' = k
        · subst hk
          simp only [Function.update_self]
          rw [List.getElem?_append_left (h.lt_of_mem hmem).1]
          exact hmem
        · simpa only [Function.update_of_ne hk] using hmem
      · rintro ⟨k', n, rfl, hmem⟩
        refine ⟨k', n, rfl, ?_⟩
        by_cases hk : k' = k
        · subst hk
          simp only [Function.update_self] at hmem
          have hn : n ≠ (s.contents k').length := by
            rintro rfl
            exact hc rfl
          have hlt := (List.getElem?_eq_some_iff.mp hmem).1
          rw [List.length_append, List.length_singleton] at hlt
          rwa [List.getElem?_append_left (by omega)] at hmem
        · simpa only [Function.update_of_ne hk] using hmem
  · intro k' n hlookup
    by_cases hk : k' = k
    · subst hk
      rw [AList.lookup_insert] at hlookup
      obtain rfl := Option.some.inj hlookup
      simp
    · rw [AList.lookup_insert_ne fun heq => hk (l.keyCodec.encode_injective heq)] at hlookup
      simpa only [Function.update_of_ne hk] using h.seqs k' n hlookup
  · intro k'
    by_cases hk : k' = k
    · subst hk
      simp only [Function.update_self, List.length_append, List.length_singleton]
      omega
    · simpa only [Function.update_of_ne hk] using h.short k'

omit [DecidableEq K] in
theorem Stands.element (halone : Alone l s k) {c element : Bytes} (hflat : flat c = some e)
    (helement : elementOf (keyStart (l.keyCodec.encode k)) c = some element) :
    ∃ n, element = seqBytes n ∧ c = l.composite k n ∧ (s.contents k)[n]? = some e := by
  obtain ⟨k', n, rfl, hmem⟩ := (h.flat c e).mp hflat
  obtain ⟨-, hstart⟩ := elementOf_eq_some.mp helement
  obtain rfl : k' = k := halone k' n (h.lt_of_mem hmem).1 ⟨element, hstart.symm⟩
  refine ⟨n, ?_, rfl, hmem⟩
  unfold composite at hstart
  rw [composeKey_eq] at hstart
  exact (List.append_cancel_left hstart).symm

omit h in
omit [DecidableEq K] in
theorem elementOf_composite (k : K) (n : Nat) :
    elementOf (keyStart (l.keyCodec.encode k)) (l.composite k n) = some (seqBytes n) := by
  refine elementOf_eq_some.mpr ⟨?_, ?_⟩
  · intro hnil
    have hlen := congrArg List.length hnil
    simp [seqBytes] at hlen
  · unfold composite
    rw [composeKey_eq]

theorem Stands.clear (hlive : Unexpired l.state host s.store) (halone : Alone l s k) :
    ∃ flat', Stands l host (l.next host s (.clear k)) flat' := by
  refine ⟨_, h.holds.eraseKeys _, ?_, ?_, ?_⟩
  · intro c e
    have hdoomed : c ∈ ((l.state.scan host s.store.clocks s.store.view s.store.backend).filter
          fun e => (elementOf (keyStart (l.keyCodec.encode k)) e.1).isSome).map Prod.fst ↔
        ∃ n e, c = l.composite k n ∧ (s.contents k)[n]? = some e := by
      rw [List.mem_map]
      constructor
      · rintro ⟨row, hrow, rfl⟩
        obtain ⟨hscan, hsome⟩ := List.mem_filter.mp hrow
        obtain ⟨element, helement⟩ := Option.isSome_iff_exists.mp hsome
        have hflat := (h.holds.mem_scan hlive row.1 row.2).mp hscan
        obtain ⟨n, -, hc, hmem⟩ := h.element halone hflat helement
        exact ⟨n, row.2, hc, hmem⟩
      · rintro ⟨n, e, rfl, hmem⟩
        refine ⟨(l.composite k n, e), List.mem_filter.mpr ⟨?_, ?_⟩, rfl⟩
        · exact (h.holds.mem_scan hlive _ e).mpr ((h.flat _ e).mpr ⟨k, n, rfl, hmem⟩)
        · rw [elementOf_composite]
          rfl
    have hcontents : (l.next host s (.clear k)).contents = Function.update s.contents k [] := rfl
    rw [hcontents]
    split
    · rename_i hin
      obtain ⟨n, e', rfl, hmem⟩ := hdoomed.mp hin
      refine iff_of_false (by simp) ?_
      rintro ⟨k', n', hcomposite, hkeep⟩
      by_cases hk : k' = k
      · subst hk
        simp at hkeep
      · rw [Function.update_of_ne hk] at hkeep
        exact hk (composite_inj (h.lt_of_mem hmem).2 (h.lt_of_mem hkeep).2 hcomposite).1.symm
    · rename_i hout
      rw [h.flat]
      constructor
      · rintro ⟨k', n, rfl, hmem⟩
        refine ⟨k', n, rfl, ?_⟩
        have hk : k' ≠ k := by
          rintro rfl
          exact hout (hdoomed.mpr ⟨n, e, rfl, hmem⟩)
        rw [Function.update_of_ne hk]
        exact hmem
      · rintro ⟨k', n, rfl, hmem⟩
        refine ⟨k', n, rfl, ?_⟩
        by_cases hk : k' = k
        · subst hk
          simp at hmem
        · rwa [Function.update_of_ne hk] at hmem
  · intro k' n hlookup
    change (s.seqs.erase (l.keyCodec.encode k)).lookup (l.keyCodec.encode k') = some n at hlookup
    change n = (Function.update s.contents k [] k').length
    by_cases hk : k' = k
    · subst hk
      rw [AList.lookup_erase] at hlookup
      exact absurd hlookup (by simp)
    · rw [AList.lookup_erase_ne fun heq => hk (l.keyCodec.encode_injective heq)] at hlookup
      rw [Function.update_of_ne hk]
      exact h.seqs k' n hlookup
  · intro k'
    change (Function.update s.contents k [] k').length < 2 ^ 64
    by_cases hk : k' = k
    · subst hk
      simp
    · rw [Function.update_of_ne hk]
      exact h.short k'

/-! ## Reading in order -/

/-- The elements of a list, each with the bytes of its position. -/
def indexed (xs : List E) : List (Bytes × E) := xs.zipIdx.map fun p => (seqBytes p.2, p.1)

omit h in
omit [DecidableEq K] in
theorem mem_indexed {xs : List E} {seq : Bytes} :
    (seq, e) ∈ indexed xs ↔ ∃ n, seq = seqBytes n ∧ xs[n]? = some e := by
  unfold indexed
  rw [List.mem_map]
  constructor
  · rintro ⟨⟨x, n⟩, hmem, heq⟩
    obtain ⟨rfl, rfl⟩ := Prod.mk.inj heq
    exact ⟨n, rfl, List.mem_zipIdx_iff_getElem?.mp hmem⟩
  · rintro ⟨n, rfl, hmem⟩
    exact ⟨(e, n), List.mem_zipIdx_iff_getElem?.mpr hmem, rfl⟩

omit h in
omit [DecidableEq K] in
/-- Positions that fit are in the order of their bytes. -/
theorem indexed_increasing {xs : List E} (hxs : xs.length < 2 ^ 64) :
    (indexed xs).Pairwise fun a b => a.1 < b.1 := by
  unfold indexed
  rw [List.pairwise_map]
  have hpos : (xs.zipIdx.map Prod.snd).Pairwise (· < ·) := by
    rw [List.zipIdx_map_snd]
    exact List.pairwise_lt_range'
  rw [List.pairwise_map] at hpos
  refine hpos.imp_of_mem ?_
  intro p q _ hq hlt
  have hbound := (List.getElem?_eq_some_iff.mp (List.mem_zipIdx_iff_getElem?.mp hq)).1
  exact putBE_lt_putBE hlt (by omega)

omit h in
omit [DecidableEq K] in
/-- Sorting elements by the bytes of their positions puts the list in order. -/
theorem sorted_eq_indexed {xs : List E} (hxs : xs.length < 2 ^ 64)
    {found : List (Bytes × E)} (hnodup : found.Nodup)
    (hmem : ∀ p, p ∈ found ↔ p ∈ indexed xs) :
    (found.mergeSort fun a b => a.1 ≤ b.1) = indexed xs := by
  have hincreasing := indexed_increasing hxs
  have hperm : (found.mergeSort fun a b => a.1 ≤ b.1).Perm (indexed xs) := by
    refine (List.mergeSort_perm found _).trans ?_
    refine (List.perm_ext_iff_of_nodup hnodup ?_).mpr hmem
    refine hincreasing.imp ?_
    rintro a b hlt rfl
    exact List.lt_irrefl a.1 hlt
  have hsorted := @List.pairwise_mergeSort _ (fun a b : Bytes × E => decide (a.1 ≤ b.1))
    (fun a b c => by simpa using fun h h' => List.le_trans h h')
    (fun a b => by simpa using List.le_total a.1 b.1) found
  refine hperm.eq_of_pairwise ?_ hsorted (hincreasing.imp ?_)
  · rintro ⟨seq, e⟩ ⟨seq', e'⟩ ha hb hle hle'
    obtain rfl : seq = seq' :=
      List.le_antisymm (of_decide_eq_true hle) (of_decide_eq_true hle')
    obtain ⟨n, hseq, he⟩ := mem_indexed.mp (hperm.mem_iff.mp ha)
    obtain ⟨n', hseq', he'⟩ := mem_indexed.mp hb
    have hn := (List.getElem?_eq_some_iff.mp he).1
    have hn' := (List.getElem?_eq_some_iff.mp he').1
    obtain rfl := seqBytes_inj (by omega) (by omega) (hseq.symm.trans hseq')
    rw [he] at he'
    obtain rfl := Option.some.inj he'
    rfl
  · intro a b hlt
    exact decide_eq_true (List.le_of_lt hlt)

omit [DecidableEq K] in
theorem Stands.get (hlive : Unexpired l.state host s.store) (halone : Alone l s k) :
    l.get host s.store k = s.contents k := by
  have hmem : ∀ p, p ∈ ((l.state.scan host s.store.clocks s.store.view s.store.backend).filterMap
        fun e => (elementOf (keyStart (l.keyCodec.encode k)) e.1).map fun seq => (seq, e.2)) ↔
      p ∈ indexed (s.contents k) := by
    rintro ⟨seq, e⟩
    rw [mem_indexed, List.mem_filterMap]
    constructor
    · rintro ⟨row, hrow, hsome⟩
      obtain ⟨element, helement, heq⟩ := Option.map_eq_some_iff.mp hsome
      obtain ⟨rfl, rfl⟩ := Prod.mk.inj heq
      have hflat := (h.holds.mem_scan hlive row.1 row.2).mp hrow
      obtain ⟨n, hseq, -, hat⟩ := h.element halone hflat helement
      exact ⟨n, hseq, hat⟩
    · rintro ⟨n, rfl, hat⟩
      refine ⟨(l.composite k n, e), (h.holds.mem_scan hlive _ e).mpr
        ((h.flat _ e).mpr ⟨k, n, rfl, hat⟩), ?_⟩
      rw [elementOf_composite]
      rfl
  have hnodup : ((l.state.scan host s.store.clocks s.store.view s.store.backend).filterMap
      fun e => (elementOf (keyStart (l.keyCodec.encode k)) e.1).map fun seq =>
        (seq, e.2)).Nodup := by
    refine List.Nodup.filterMap ?_ (List.Nodup.of_map Prod.fst h.holds.nodup_scan)
    rintro ⟨c, e⟩ ⟨c', e'⟩ p hp hp'
    obtain ⟨element, helement, rfl⟩ := Option.map_eq_some_iff.mp hp
    obtain ⟨element', helement', heq⟩ := Option.map_eq_some_iff.mp hp'
    obtain ⟨rfl, rfl⟩ := Prod.mk.inj heq
    have hc := (elementOf_eq_some.mp helement).2
    have hc' := (elementOf_eq_some.mp helement').2
    rw [Prod.mk.injEq]
    exact ⟨hc.trans hc'.symm, rfl⟩
  unfold ExpiringListState.get
  simp only
  rw [sorted_eq_indexed (h.short k) hnodup hmem]
  unfold indexed
  rw [List.map_map]
  exact List.zipIdx_map_fst 0 (s.contents k)

/-- A step that meets the condition keeps the slot standing for the lists. -/
theorem Stands.next {a : Action K E} (hmeets : Meets l host s a) :
    ∃ flat', Stands l host (l.next host s a) flat' := by
  obtain ⟨hlive, hmeets⟩ := hmeets
  cases a with
  | add k e => exact h.add hlive hmeets e
  | get k => exact ⟨flat, h⟩
  | clear k => exact h.clear hlive hmeets
  | advanceWatermark w => exact ⟨flat, h.holds, h.flat, h.seqs, h.short⟩
  | tick clock now => exact ⟨flat, h.holds, h.flat, h.seqs, h.short⟩
  | restart =>
      refine ⟨flat, h.holds, h.flat, ?_, h.short⟩
      intro k n hlookup
      exact absurd hlookup (by simp [ExpiringListState.next])

end

/-- Along a run that meets the condition the collection is a list per key. -/
theorem answers_of_runs {clocks : Nat → Int} {as : List (Action K E)}
    (hrun : Runs (l.next host) (fun _ s a => Meets l host s a)
        ⟨{ clocks := clocks }, ∅, fun _ => []⟩
      as s) {a : Action K E} (hmeets : Meets l host s a) : Answers l host s a := by
  have hstands : ∃ flat, Stands l host s flat := by
    refine hrun.induct (I := fun _ s => ∃ flat, Stands l host s flat) ?_ ?_
    · refine ⟨fun _ => none, Holds.empty l.state host, ?_, ?_, ?_⟩
      · intro c e
        simp
      · intro k n hlookup
        exact absurd hlookup (by simp)
      · intro k
        simp
    · rintro _ s a _ ⟨flat, h⟩ hmeets
      exact h.next hmeets
  obtain ⟨flat, h⟩ := hstands
  cases a with
  | get k => exact h.get hmeets.1 hmeets.2
  | add k e => trivial
  | clear k => trivial
  | advanceWatermark w => trivial
  | tick clock now => trivial
  | restart => trivial

/-! ## Key groups -/

/-- The separator is odd and the bytes of number zero are even: the first element
of a list is never in its key's group. -/
theorem keyGroup_first_ne (userKey : Bytes) :
    keyGroupForKey (composeKey userKey (seqBytes 0)) ≠ keyGroupForKey userKey := by
  intro h
  have hparity := congrArg (fun g => g.toNat % 2) h
  simp only [keyGroupForKey_parity, composeKey, List.map_append, List.map_cons,
    List.sum_append, List.sum_cons] at hparity
  have hzero : ((seqBytes 0).map UInt8.toNat).sum = 0 := rfl
  have hsep : elementSep.toNat = 31 := rfl
  rw [hzero, hsep] at hparity
  omega

omit [DecidableEq K] in
/-- Elements go with the records of their key only where there are none. -/
theorem placed_iff : Placed l s ↔ ∀ k, s.contents k = [] := by
  unfold Placed
  constructor
  · intro h k
    by_contra hne
    have hrestored := h k 0 (List.length_pos_iff.mpr hne)
    exact keyGroup_first_ne _ ((restoredWith_iff rfl).mp hrestored)
  · intro h k n hn
    rw [h k] at hn
    exact absurd hn (by simp)

/-! ## Keys without the separator -/

omit [DecidableEq K] in
/-- An action whose key does not hold the separator. -/
def Plain (l : ExpiringListState K E) : Action K E → Prop
  | .add k _ | .get k | .clear k => elementSep ∉ l.keyCodec.encode k
  | .advanceWatermark _ | .tick _ _ | .restart => True

omit [DecidableEq K] in
/-- Without a ttl, and with plain keys in the lists, plain actions meet the condition. -/
theorem meets_of_plain (hoff : l.ttl.enabled = false)
    (hkeys : ∀ k, s.contents k ≠ [] → elementSep ∉ l.keyCodec.encode k)
    (hshort : ∀ k, (s.contents k).length < 2 ^ 64 - 1) {a : Action K E} (h : Plain l a) :
    Meets l host s a := by
  have hlive : Unexpired l.state host s.store := fun hon => absurd (hoff.symm.trans hon) (by simp)
  have halone : ∀ {k}, elementSep ∉ l.keyCodec.encode k → Alone l s k := by
    intro k hk k' n hn hstart
    have hk' := hkeys k' (List.ne_nil_of_length_pos (by omega))
    exact (l.keyCodec.encode_injective (eq_of_keyStart hk hk' hstart)).symm
  cases a with
  | add k e => exact ⟨hlive, hshort k⟩
  | get k => exact ⟨hlive, halone h⟩
  | clear k => exact ⟨hlive, halone h⟩
  | advanceWatermark w => exact ⟨hlive, trivial⟩
  | tick clock now => exact ⟨hlive, trivial⟩
  | restart => exact ⟨hlive, trivial⟩

variable (host) in
/-- A plain action leaves a list as it is, or changes that of a plain key. -/
theorem next_plain (s : System K E) {a : Action K E} (h : Plain l a) (k : K) :
    (l.next host s a).contents k = s.contents k ∨ elementSep ∉ l.keyCodec.encode k ∧
      ((l.next host s a).contents k).length ≤ (s.contents k).length + 1 := by
  cases a with
  | add k' e =>
      by_cases hk : k = k'
      · subst hk
        refine .inr ⟨h, ?_⟩
        simp only [next, Function.update_self, List.length_append, List.length_singleton]
        exact Nat.le_refl _
      · exact .inl (Function.update_of_ne hk _ _)
  | clear k' =>
      by_cases hk : k = k'
      · subst hk
        refine .inr ⟨h, ?_⟩
        simp only [next, Function.update_self, List.length_nil]
        exact Nat.zero_le _
      · exact .inl (Function.update_of_ne hk _ _)
  | get k' => exact .inl rfl
  | advanceWatermark w => exact .inl rfl
  | tick clock now => exact .inl rfl
  | restart => exact .inl rfl

variable (host) in
/-- Every run of plain actions, shorter than the last sequence number, meets the condition. -/
theorem runs_of_plain (hoff : l.ttl.enabled = false) (clocks : Nat → Int)
    (as : List (Action K E)) (h : ∀ a ∈ as, Plain l a) (hlen : as.length < 2 ^ 64) :
    Runs (l.next host) (fun _ s a => Meets l host s a) ⟨{ clocks := clocks }, ∅, fun _ => []⟩ as
      (as.foldl (l.next host) ⟨{ clocks := clocks }, ∅, fun _ => []⟩) ∧
    ∀ k, ((as.foldl (l.next host) ⟨{ clocks := clocks }, ∅, fun _ => []⟩).contents k).length ≤
        as.length ∧
      ((as.foldl (l.next host) ⟨{ clocks := clocks }, ∅, fun _ => []⟩).contents k ≠ [] →
        elementSep ∉ l.keyCodec.encode k) := by
  induction as using List.reverseRecOn with
  | nil => exact ⟨.nil, fun _ => ⟨Nat.le_refl 0, fun hne => absurd rfl hne⟩⟩
  | append_singleton as a ih =>
      rw [List.length_append, List.length_singleton] at hlen ⊢
      obtain ⟨hrun, hkeys⟩ := ih (fun a' ha => h a' (List.mem_append_left [a] ha)) (by omega)
      have hplain := h a (by simp)
      rw [List.foldl_append]
      generalize as.foldl (l.next host) ⟨{ clocks := clocks }, ∅, fun _ => []⟩ = s at hrun hkeys ⊢
      have hshort : ∀ k, (s.contents k).length < 2 ^ 64 - 1 := by
        intro k
        have hle := (hkeys k).1
        omega
      refine ⟨.snoc hrun (meets_of_plain hoff (fun k => (hkeys k).2) hshort hplain), fun k => ?_⟩
      simp only [List.foldl_cons, List.foldl_nil]
      obtain ⟨hle, hkey⟩ := hkeys k
      rcases next_plain host s hplain k with hsame | ⟨hk, hgrows⟩
      · rw [hsame]
        exact ⟨by omega, hkey⟩
      · exact ⟨by omega, fun _ => hk⟩

end ExpiringListState

/-! ## Both collections -/

/-- In runs whose steps all meet the condition the two collections answer as a map
of maps and a list per key.  A map entry goes with the records of its key exactly
where its composite hashes into the key's group, a list only while it is empty. -/
theorem collections_exact {K MK MV K' E : Type} [DecidableEq K] [DecidableEq MK] [DecidableEq K']
    (m : ExpiringMapState K MK MV) (l : ExpiringListState K' E) (host : Host)
    (clocks : Nat → Int) :
    (∀ as s, Runs (m.next host) (fun _ s a => m.Meets host s a)
        ⟨{ clocks := clocks }, fun _ _ => none⟩ as s →
      (∀ a, m.Meets host s a → m.Answers host s a) ∧
        (m.Placed s ↔ ∀ k mapKey mv, s.contents k mapKey = some mv →
          keyGroupForKey (m.composite k mapKey) = keyGroupForKey (m.keyCodec.encode k))) ∧
      ∀ as s, Runs (l.next host) (fun _ s a => l.Meets host s a)
          ⟨{ clocks := clocks }, ∅, fun _ => []⟩ as s →
        (∀ a, l.Meets host s a → l.Answers host s a) ∧
          (l.Placed s ↔ ∀ k, s.contents k = []) := by
  refine ⟨?_, ?_⟩
  · intro as s hrun
    exact ⟨fun a hmeets => ExpiringMapState.answers_of_runs hrun hmeets,
      ExpiringMapState.placed_iff⟩
  · intro as s hrun
    exact ⟨fun a hmeets => ExpiringListState.answers_of_runs hrun hmeets,
      ExpiringListState.placed_iff⟩

/-- Strings for keys, map keys and values, without a ttl. -/
def stringMap : ExpiringMapState Bytes Bytes Bytes :=
  ⟨[0x73], rfl, stringCodec, stringCodec, stringCodec, {}⟩

def stringList : ExpiringListState Bytes Bytes := ⟨[0x73], rfl, stringCodec, stringCodec, {}⟩

/-- Entries of two keys, one of them removed, and the map opened again. -/
def twoKeys : List (ExpiringMapState.Action Bytes Bytes Bytes) :=
  [.put [0x6B] [0x61] [7], .put [0x6C] [0x61] [8], .put [0x6B] [0x62] [9], .restart,
    .put [0x6B] [0x61] [10], .remove [0x6B] [0x62], .put [0x6B] [0x63] [11]]

/-- Elements of two lists, in turn and over a restart. -/
def twoLists : List (ExpiringListState.Action Bytes Bytes) :=
  [.add [0x6B] [7], .add [0x6C] [8], .add [0x6B] [9], .restart, .add [0x6B] [10],
    .add [0x6C] [11], .clear [0x6C], .add [0x6C] [12]]

theorem collections_exact_two_keys :
    let s := twoKeys.foldl (stringMap.next tableHost) ⟨{ clocks := fun _ => 0 }, fun _ _ => none⟩
    let t := twoLists.foldl (stringList.next tableHost)
      ⟨{ clocks := fun _ => 0 }, ∅, fun _ => []⟩
    (stringMap.get tableHost s.store [0x6B] [0x61]).1 = some [10] ∧
      ([0x63], [11]) ∈ stringMap.entries tableHost s.store [0x6B] ∧
      ([0x62], [9]) ∉ stringMap.entries tableHost s.store [0x6B] ∧ ¬ stringMap.Placed s ∧
      stringList.get tableHost t.store [0x6B] = [[7], [9], [10]] ∧
      stringList.get tableHost t.store [0x6C] = [[12]] ∧ ¬ stringList.Placed t := by
  intro s t
  obtain ⟨hmap, hlist⟩ := collections_exact stringMap stringList tableHost fun _ => 0
  obtain ⟨hrun, hkeys⟩ := ExpiringMapState.runs_of_plain (m := stringMap) tableHost
    rfl (fun _ => 0) twoKeys (by simp [twoKeys, ExpiringMapState.Plain]; decide)
  obtain ⟨hrun', hkeys'⟩ := ExpiringListState.runs_of_plain (l := stringList) tableHost
    rfl (fun _ => 0) twoLists (by simp [twoLists, ExpiringListState.Plain]; decide)
    (by decide)
  obtain ⟨hanswers, hplaced⟩ := hmap _ _ hrun
  obtain ⟨hanswers', hplaced'⟩ := hlist _ _ hrun'
  have hentries := (hanswers (.entries [0x6B])
    (ExpiringMapState.meets_of_plain rfl hkeys (show elementSep ∉ [0x6B] by decide))).2
  have hshort : ∀ k, (t.contents k).length < 2 ^ 64 - 1 := fun k =>
    Nat.lt_of_le_of_lt (hkeys' k).1 (by decide)
  have hget : ∀ k, elementSep ∉ k → stringList.get tableHost t.store k = t.contents k :=
    fun k hk => hanswers' (.get k)
      (ExpiringListState.meets_of_plain rfl (fun k => (hkeys' k).2) hshort hk)
  refine ⟨?_, ?_, ?_, ?_, ?_, ?_, ?_⟩
  · exact hanswers (.get [0x6B] [0x61])
      (ExpiringMapState.meets_of_plain rfl hkeys (show elementSep ∉ [0x6B] by decide))
  · exact (hentries [0x63] [11]).mpr rfl
  · intro hmem
    exact absurd ((hentries [0x62] [9]).mp hmem) (by decide)
  · intro h
    exact absurd (hplaced.mp h [0x6B] [0x63] [11] rfl) (by decide)
  · exact hget [0x6B] (by decide)
  · exact hget [0x6C] (by decide)
  · intro h
    exact absurd (hplaced'.mp h [0x6C]) (by decide)

/-- The lists after one add, under `k`. -/
def oneElement : ExpiringListState.System Bytes Bytes :=
  stringList.next tableHost ⟨{ clocks := fun _ => 0 }, ∅, fun _ => []⟩ (.add [0x6B] [7])

/-- An entry whose map key is empty is not among the entries of its key, and the
only element of a list is not in its key's group. -/
theorem elements_lost_and_misplaced :
    ¬ stringMap.Answers tableHost
        (stringMap.next tableHost ⟨{ clocks := fun _ => 0 }, fun _ _ => none⟩ (.put [] [] [7]))
        (.entries []) ∧
      ¬ stringList.Placed oneElement := by
  refine ⟨?_, ?_⟩
  · intro h
    have hmem := (h.2 [] [7]).mpr rfl
    exact absurd hmem (by decide)
  · intro h
    have hhead := (h [0x6B] 0 (by decide)).1
    exact absurd hhead (by decide)

end Clink.Ports.ExpiringList

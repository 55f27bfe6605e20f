import Mathlib.Data.Char
import Mathlib.Data.List.Lex
import Mathlib.Data.UInt
import Clink.Verified.SortedMap
import Clink.Verified.Text
import Clink.Ports.RescaleDispatch

/-!
# Prepared transactions across a rescale

The embedding of the recovery of `include/clink/connectors/committing_sink.hpp`
and of `RestoreSuccession` (`include/clink/core/types.hpp`).  A sink persists the
handle of a prepared transaction in its operator state, under a key that names
the subtask and the checkpoint.  At open it walks that state: the handles of the
subtasks it succeeds are recovered and erased, those of the others erased when
the deploy names a succession.

The transactions themselves are the connector's: a handle is a value of a type
with a codec that reads back what it wrote, and a call of `recover` is recorded.
-/

namespace Clink.Ports.PreparedRecovery

open Clink.Verified
open Clink.Ports.RescaleDispatch

/-! ## Succession -/

structure RestoreSuccession where
  first : UInt32 := 0
  count : UInt32 := 1

def RestoreSuccession.succeeds (s : RestoreSuccession) (previousSubtask : UInt32) : Bool :=
  previousSubtask ≥ s.first && previousSubtask - s.first < s.count

/-- No override: the subtask succeeds itself. -/
def restoreFromSelf : UInt32 := 2 ^ 32 - 1

/-- The succession of a deployed subtask from the deploy's two fields. -/
def successionFor (succeedsFirst succeedsCount subtaskIdxInOp : UInt32) : RestoreSuccession :=
  if succeedsFirst = restoreFromSelf then { first := subtaskIdxInOp, count := 1 }
  else { first := succeedsFirst, count := succeedsCount }

/-! ## Keys of persisted handles -/

def subPrefix (sub : UInt32) : List Char := "sub".toList ++ decimal sub.toNat

def keyPrefix (subtaskIdx : UInt32) : List Char :=
  "_xo_pending_".toList ++ subPrefix subtaskIdx ++ ['_']

def stateKey (subtaskIdx : UInt32) (ckpt : UInt64) : List Char :=
  keyPrefix subtaskIdx ++ decimal ckpt.toNat

/-- The number the leading digits make, how many there are and what is behind
them; `none` once the number does not fit 32 bits. -/
def scanDigits (sub digits : Nat) : List Char → Option (Nat × Nat × List Char)
  | [] => some (sub, digits, [])
  | c :: rest =>
      if c.isDigit then
        if sub * 10 + (c.toNat - '0'.toNat) > 2 ^ 32 - 1 then none
        else scanDigits (sub * 10 + (c.toNat - '0'.toNat)) (digits + 1) rest
      else some (sub, digits, c :: rest)

/-- The subtask that prepared a persisted handle; `none` for any other key. -/
def pendingKeySubtask (key : List Char) : Option UInt32 :=
  let kPrefix := "_xo_pending_sub".toList
  if key.take kPrefix.length ≠ kPrefix then none
  else
    match scanDigits 0 0 (key.drop kPrefix.length) with
    | none => none
    | some (sub, digits, rest) =>
        if digits = 0 ∨ rest.length ≤ 1 ∨ rest.head? ≠ some '_' then none
        else some (UInt32.ofNat sub)

/-! ## The sink -/

/-- The connector's encoding of a handle. -/
structure HandleCodec (C : Type) where
  serialize : C → List UInt8
  deserialize : List UInt8 → C
  deserialize_serialize : ∀ c, deserialize (serialize c) = c

/-- The operator state of one sink subtask. -/
abbrev OperatorState := SortedMap (List Char) (List UInt8)

/-- A call of `recover`: who made it, for which persisted handle. -/
structure Recovery (C : Type) where
  subtask : UInt32
  key : List Char
  committable : C
  deriving DecidableEq

structure CommittingSink (C : Type) where
  codec : HandleCodec C
  subtaskIdx : UInt32
  /-- The deploy's succession, when the runtime carries one. -/
  restoreSuccession : Option RestoreSuccession := none

namespace CommittingSink

variable {C : Type} (sink : CommittingSink C)

/-- A barrier persists the handle of what it prepared. -/
def onBarrier (ckpt : UInt64) (prepared : Option C) (state : OperatorState) : OperatorState :=
  match prepared with
  | none => state
  | some c => state.upsert (stateKey sink.subtaskIdx ckpt) fun _ => sink.codec.serialize c

def succession : RestoreSuccession :=
  sink.restoreSuccession.getD { first := sink.subtaskIdx, count := 1 }

/-- A persisted handle this subtask finalises. -/
def owned (key : List Char) : Bool :=
  match pendingKeySubtask key with
  | none => false
  | some sub => sink.succession.succeeds sub

/-- A persisted handle another subtask finalises, to be erased here. -/
def isForeign (key : List Char) : Bool :=
  match pendingKeySubtask key with
  | none => false
  | some sub => !sink.succession.succeeds sub && sink.restoreSuccession.isSome

/-- Collect, then erase the foreign handles, then finalise the others. -/
def recoverAll (state : OperatorState) : List (Recovery C) × OperatorState :=
  let rows := state.entries.filter fun row => sink.owned row.1
  let foreign := (state.entries.filter fun row => sink.isForeign row.1).map Prod.fst
  rows.foldl
    (fun acc row =>
      (acc.1 ++ [⟨sink.subtaskIdx, row.1, sink.codec.deserialize row.2⟩], acc.2.erase row.1))
    ([], foreign.foldl SortedMap.erase state)

end CommittingSink

/-- Open the sinks of some subtasks, one after another, each on its own state. -/
def openAll {C : Type} (sink : UInt32 → CommittingSink C) :
    List UInt32 → (UInt32 → OperatorState) → List (Recovery C) × (UInt32 → OperatorState)
  | [], state => ([], state)
  | j :: rest, state =>
      let opened := (sink j).recoverAll (state j)
      let others := openAll sink rest (Function.update state j opened.2)
      (opened.1 ++ others.1, others.2)

/-! ## Keys are read back -/

theorem le_ofDigitChars (ds : List Char) (n : Nat) : n ≤ Nat.ofDigitChars 10 ds n := by
  induction ds generalizing n with
  | nil => simp
  | cons c rest ih =>
      rw [Nat.ofDigitChars_cons]
      have hrest := ih (10 * n + (c.toNat - '0'.toNat))
      omega

private theorem scanDigits_append {ds rest : List Char} (sub digits : Nat)
    (hdigits : ∀ c ∈ ds, c.isDigit = true)
    (hrest : ∀ c, rest.head? = some c → c.isDigit = false)
    (hfits : Nat.ofDigitChars 10 ds sub < 2 ^ 32) :
    scanDigits sub digits (ds ++ rest) =
      some (Nat.ofDigitChars 10 ds sub, digits + ds.length, rest) := by
  induction ds generalizing sub digits with
  | nil =>
      rw [List.nil_append, Nat.ofDigitChars_nil]
      cases rest with
      | nil => rfl
      | cons c rest =>
          have hc := hrest c rfl
          rw [scanDigits, if_neg (by simp [hc])]
          rfl
  | cons c ds ih =>
      have hc : c.isDigit = true := hdigits c List.mem_cons_self
      rw [Nat.ofDigitChars_cons] at hfits ⊢
      have hle := le_ofDigitChars ds (10 * sub + (c.toNat - '0'.toNat))
      rw [List.cons_append, scanDigits, if_pos hc, if_neg (by omega), Nat.mul_comm sub 10,
        ih _ _ (fun c hc => hdigits c (List.mem_cons_of_mem _ hc)) hfits, List.length_cons]
      congr 3
      omega

/-- The subtask is read out of the key it persisted a handle under. -/
theorem pendingKeySubtask_stateKey (sub : UInt32) (ckpt : UInt64) :
    pendingKeySubtask (stateKey sub ckpt) = some sub := by
  have hkey : stateKey sub ckpt =
      "_xo_pending_sub".toList ++ (decimal sub.toNat ++ '_' :: decimal ckpt.toNat) := by
    have hstart : "_xo_pending_sub".toList = "_xo_pending_".toList ++ "sub".toList := by decide
    unfold stateKey keyPrefix subPrefix
    rw [hstart]
    simp only [List.append_assoc, List.singleton_append]
  have hvalue : Nat.ofDigitChars 10 (decimal sub.toNat) 0 = sub.toNat :=
    Nat.ofDigitChars_ten_toDigits
  have hscan : scanDigits 0 0 (decimal sub.toNat ++ '_' :: decimal ckpt.toNat) =
      some (sub.toNat, (decimal sub.toNat).length, '_' :: decimal ckpt.toNat) := by
    have hfits : Nat.ofDigitChars 10 (decimal sub.toNat) 0 < 2 ^ 32 := by
      rw [hvalue]
      exact sub.toNat_lt
    have hstop : ∀ c, ('_' :: decimal ckpt.toNat).head? = some c → c.isDigit = false := by
      intro c hc
      obtain rfl : '_' = c := by simpa using hc
      decide
    rw [scanDigits_append 0 0 (fun c hc => isDigit_of_mem_decimal hc) hstop hfits, hvalue,
      Nat.zero_add]
  have hsome : (decimal sub.toNat).length ≠ 0 := by
    rw [Ne, List.length_eq_zero_iff]
    exact decimal_ne_nil _
  have hbehind : (decimal ckpt.toNat).length ≠ 0 := by
    rw [Ne, List.length_eq_zero_iff]
    exact decimal_ne_nil _
  unfold pendingKeySubtask
  simp only [hkey, List.take_left, List.drop_left, hscan]
  rw [if_neg (by simp), if_neg, UInt32.ofNat_toNat]
  rintro (h | h | h)
  · exact hsome h
  · rw [List.length_cons] at h
    omega
  · exact h rfl

/-! ## One open -/

namespace CommittingSink

variable {C : Type} (sink : CommittingSink C)

theorem foldl_finalise (rows : List (List Char × List UInt8)) (calls : List (Recovery C))
    (state : OperatorState) :
    rows.foldl
      (fun acc row =>
        (acc.1 ++ [⟨sink.subtaskIdx, row.1, sink.codec.deserialize row.2⟩], acc.2.erase row.1))
      (calls, state) =
    (calls ++ rows.map fun row => ⟨sink.subtaskIdx, row.1, sink.codec.deserialize row.2⟩,
      (rows.map Prod.fst).foldl SortedMap.erase state) := by
  induction rows generalizing calls state with
  | nil => simp
  | cons row rest ih =>
      rw [List.foldl_cons, ih]
      simp only [List.map_cons, List.foldl_cons, List.append_assoc, List.singleton_append]

/-- The calls an open makes are the handles it owns, in the order of the scan. -/
theorem recoverAll_calls (state : OperatorState) :
    (sink.recoverAll state).1 = (state.entries.filter fun row => sink.owned row.1).map
      fun row => ⟨sink.subtaskIdx, row.1, sink.codec.deserialize row.2⟩ := by
  unfold recoverAll
  rw [foldl_finalise]
  simp

/-- With a succession every persisted handle is gone after an open. -/
theorem not_pending_of_recoverAll (h : sink.restoreSuccession.isSome = true)
    {state : OperatorState} {key : List Char} (hkey : key ∈ (sink.recoverAll state).2.keys) :
    pendingKeySubtask key = none := by
  unfold recoverAll at hkey
  rw [foldl_finalise, SortedMap.mem_keys_foldl_erase, SortedMap.mem_keys_foldl_erase] at hkey
  obtain ⟨hnotOwned, hnotForeign, hmem⟩ := hkey
  obtain ⟨blob, hfind⟩ := SortedMap.mem_keys_iff.mp hmem
  have hrow := SortedMap.find?_eq_some_iff.mp hfind
  cases hsub : pendingKeySubtask key with
  | none => rfl
  | some sub =>
      exfalso
      by_cases howner : sink.succession.succeeds sub = true
      · apply hnotOwned
        refine List.mem_map.mpr ⟨(key, blob), List.mem_filter.mpr ⟨hrow, ?_⟩, rfl⟩
        simp only [owned, hsub, howner]
      · apply hnotForeign
        refine List.mem_map.mpr ⟨(key, blob), List.mem_filter.mpr ⟨hrow, ?_⟩, rfl⟩
        simp [isForeign, hsub, h, howner]

theorem recoverAll_calls_at (state : OperatorState) (key : List Char) :
    ((sink.recoverAll state).1.filter fun call => call.key = key) =
      if sink.owned key then (state.find? key).toList.map fun blob =>
        ⟨sink.subtaskIdx, key, sink.codec.deserialize blob⟩
      else [] := by
  rw [recoverAll_calls, List.filter_map, List.filter_filter]
  have hcomp : ∀ row : List Char × List UInt8,
      (((fun call : Recovery C => decide (call.key = key)) ∘
        fun row : List Char × List UInt8 =>
          (⟨sink.subtaskIdx, row.1, sink.codec.deserialize row.2⟩ : Recovery C)) row &&
        sink.owned row.1) = (sink.owned key && decide (row.1 = key)) := by
    intro row
    by_cases heq : row.1 = key <;> simp [heq]
  rw [List.filter_congr (fun row _ => hcomp row)]
  by_cases howned : sink.owned key = true
  · rw [if_pos howned]
    simp only [howned, Bool.true_and]
    rw [SortedMap.entries_filter_key state (fun row => decide_eq_true_iff), List.map_map]
    rfl
  · rw [if_neg howned]
    simp [howned]

end CommittingSink

/-! ## Opening every sink -/

section

variable {C : Type} (sink : UInt32 → CommittingSink C)

/-- Each subtask opens on its own state, so the order only orders the calls. -/
theorem openAll_eq {order : List UInt32} (hnodup : order.Nodup) (state : UInt32 → OperatorState) :
    (openAll sink order state).1 = order.flatMap (fun j => ((sink j).recoverAll (state j)).1) ∧
      ∀ j, (openAll sink order state).2 j =
        if j ∈ order then ((sink j).recoverAll (state j)).2 else state j := by
  induction order generalizing state with
  | nil => exact ⟨rfl, fun j => by simp [openAll]⟩
  | cons k rest ih =>
      obtain ⟨hk, hrest⟩ := List.nodup_cons.mp hnodup
      obtain ⟨hcalls, hstate⟩ :=
        ih hrest (Function.update state k ((sink k).recoverAll (state k)).2)
      have hother : ∀ j, j ≠ k →
          Function.update state k ((sink k).recoverAll (state k)).2 j = state j :=
        fun j hj => Function.update_of_ne hj _ _
      constructor
      · simp only [openAll, List.flatMap_cons, hcalls]
        congr 1
        apply List.flatMap_congr
        intro j hj
        rw [hother j (fun h => hk (h ▸ hj))]
      · intro j
        simp only [openAll, hstate]
        by_cases hj : j = k
        · subst hj
          rw [if_neg hk, Function.update_self, if_pos List.mem_cons_self]
        · rw [hother j hj]
          simp [hj]

end

/-! ## A rescale -/

section

variable {C : Type} (codec : HandleCodec C) (p q : UInt32)

/-- The sink a rescale opens as new subtask `j`. -/
def rescaledSink (j : UInt32) : CommittingSink C :=
  let m := rescaleParentMapping p q j
  { codec
    subtaskIdx := j
    restoreSuccession := some (successionFor m.succeedsFirst m.succeedsCount j) }

/-- The handles an old subtask persisted, by checkpoint. -/
abbrev Prepared (C : Type) := UInt32 → UInt64 → Option C

/-- The new subtasks hold copies of the old subtasks' rows, and each at least
those of the subtasks it succeeds; rows that are no handles are not restricted. -/
structure Distributed (prepared : Prepared C) (state : UInt32 → OperatorState) : Prop where
  copies : ∀ j < q, ∀ key blob, (state j).find? key = some blob → pendingKeySubtask key ≠ none →
    ∃ i < p, ∃ ckpt c, prepared i ckpt = some c ∧ key = stateKey i ckpt ∧
      blob = codec.serialize c
  inherits : ∀ j < q, ∀ i < p, Succeeds (rescaleParentMapping p q j) i →
    ∀ ckpt c, prepared i ckpt = some c →
      (state j).find? (stateKey i ckpt) = some (codec.serialize c)

variable {codec p q}

theorem successionFor_succeeds {m : RescaleParentMapping} {i j : UInt32}
    (h : m.succeedsFirst ≠ restoreFromSelf) :
    (successionFor m.succeedsFirst m.succeedsCount j).succeeds i = true ↔ Succeeds m i := by
  unfold successionFor RestoreSuccession.succeeds Succeeds
  rw [if_neg h]
  simp only [Bool.and_eq_true, decide_eq_true_eq, ge_iff_le, UInt32.le_iff_toNat_le,
    UInt32.lt_iff_toNat_lt]
  constructor
  · rintro ⟨hfirst, hcount⟩
    rw [UInt32.toNat_sub_of_le _ _ (UInt32.le_iff_toNat_le.mpr hfirst)] at hcount
    omega
  · rintro ⟨hfirst, hcount⟩
    rw [UInt32.toNat_sub_of_le _ _ (UInt32.le_iff_toNat_le.mpr hfirst)]
    omega

/-- A new subtask owns the handles of the subtasks it succeeds. -/
theorem owned_rescaledSink (hp : 0 < p.toNat) (hq : 0 < q.toNat)
    (hfactor : q % p = 0 ∨ p % q = 0) {i j : UInt32} (hj : j < q) (ckpt : UInt64) :
    (rescaledSink codec p q j).owned (stateKey i ckpt) = true ↔
      Succeeds (rescaleParentMapping p q j) i := by
  have hself : (rescaleParentMapping p q j).succeedsFirst ≠ restoreFromSelf := by
    intro heq
    have hlt := succeedsFirst_lt hp hq hfactor hj
    have hmax : restoreFromSelf.toNat = 2 ^ 32 - 1 := by decide
    have hbound := p.toNat_lt
    rw [heq, hmax] at hlt
    omega
  unfold CommittingSink.owned
  rw [pendingKeySubtask_stateKey]
  exact successionFor_succeeds hself

/-- Opening the new sinks, in any order, recovers every prepared handle once, at
the successor of the subtask that prepared it, recovers nothing else and leaves
no handle behind. -/
theorem recovers_each_handle_once (codec : HandleCodec C) (p q : UInt32)
    (haccepted : ∃ j, (rescaleParentMapping p q j).ok = true) (prepared : Prepared C)
    (state : UInt32 → OperatorState) (hdistributed : Distributed codec p q prepared state)
    (order : List UInt32) (hnodup : order.Nodup) (hall : ∀ j, j ∈ order ↔ j < q) :
    (∀ i < p, ∀ ckpt c, prepared i ckpt = some c →
      ∃ j < q, Succeeds (rescaleParentMapping p q j) i ∧
        ((openAll (rescaledSink codec p q) order state).1.filter
          fun call => call.key = stateKey i ckpt) = [⟨j, stateKey i ckpt, c⟩]) ∧
    (∀ call ∈ (openAll (rescaledSink codec p q) order state).1,
      ∃ i < p, ∃ ckpt c, prepared i ckpt = some c ∧ call.key = stateKey i ckpt) ∧
    ∀ j < q, ∀ key ∈ ((openAll (rescaledSink codec p q) order state).2 j).keys,
      pendingKeySubtask key = none := by
  obtain ⟨j₀, hok⟩ := haccepted
  obtain ⟨hp0, hq0, -, hfactor⟩ := (rescaleParentMapping_ok_iff p q j₀).mp hok
  have hp : 0 < p.toNat := Nat.pos_of_ne_zero fun h => hp0 (UInt32.toNat_inj.mp h)
  have hq : 0 < q.toNat := Nat.pos_of_ne_zero fun h => hq0 (UInt32.toNat_inj.mp h)
  obtain ⟨hcalls, hstate⟩ := openAll_eq (rescaledSink codec p q) hnodup state
  refine ⟨?_, ?_, ?_⟩
  · intro i hi ckpt c hc
    obtain ⟨j, ⟨hj, hsucceeds⟩, hunique⟩ := existsUnique_successor hp hq hfactor hi
    refine ⟨j, hj, hsucceeds, ?_⟩
    have hown : ((rescaledSink codec p q j).recoverAll (state j)).1.filter
        (fun call => call.key = stateKey i ckpt) = [⟨j, stateKey i ckpt, c⟩] := by
      rw [CommittingSink.recoverAll_calls_at,
        if_pos ((owned_rescaledSink hp hq hfactor hj ckpt).mpr hsucceeds),
        hdistributed.inherits j hj i hi hsucceeds ckpt c hc]
      simp [rescaledSink, codec.deserialize_serialize]
    have hothers : ∀ k ∈ order, k ≠ j →
        ((rescaledSink codec p q k).recoverAll (state k)).1.filter
          (fun call => call.key = stateKey i ckpt) = [] := by
      intro k hk hne
      rw [CommittingSink.recoverAll_calls_at, if_neg]
      intro howned
      have hkq := (hall k).mp hk
      exact hne (hunique k ⟨hkq, (owned_rescaledSink hp hq hfactor hkq ckpt).mp howned⟩)
    rw [hcalls, List.filter_flatMap, flatMap_eq_of_unique hnodup ((hall j).mpr hj) hothers, hown]
  · intro call hcall
    rw [hcalls, List.mem_flatMap] at hcall
    obtain ⟨j, hj, hcall⟩ := hcall
    rw [CommittingSink.recoverAll_calls, List.mem_map] at hcall
    obtain ⟨row, hrow, rfl⟩ := hcall
    obtain ⟨hmem, howned⟩ := List.mem_filter.mp hrow
    have hpending : pendingKeySubtask row.1 ≠ none := by
      intro hnone
      simp [CommittingSink.owned, hnone] at howned
    obtain ⟨i, hi, ckpt, c, hc, hkey, -⟩ := hdistributed.copies j ((hall j).mp hj) row.1 row.2
      (SortedMap.find?_eq_some_iff.mpr hmem) hpending
    exact ⟨i, hi, ckpt, c, hc, hkey⟩
  · intro j hj key hkey
    rw [hstate, if_pos ((hall j).mpr hj)] at hkey
    exact CommittingSink.not_pending_of_recoverAll _ rfl hkey

/-- One subtask with a prepared transaction of checkpoint 7 becomes two, and both
restore its row: the first commits it, the second drops its copy. -/
theorem recovers_each_handle_once_one_to_two :
    let codec : HandleCodec (List UInt8) := ⟨id, id, fun _ => rfl⟩
    let old : CommittingSink (List UInt8) := { codec, subtaskIdx := 0 }
    let state : UInt32 → OperatorState := fun _ => old.onBarrier 7 (some [42]) .empty
    ((openAll (rescaledSink codec 1 2) [1, 0] state).1.filter
      fun call => call.key = stateKey 0 7) = [⟨0, stateKey 0 7, [42]⟩] ∧
    ∀ key ∈ ((openAll (rescaledSink codec 1 2) [1, 0] state).2 1).keys,
      pendingKeySubtask key = none := by
  intro codec old state
  let prepared : Prepared (List UInt8) := fun i ckpt => if i = 0 ∧ ckpt = 7 then some [42] else none
  have hfind : ∀ key, (state 0).find? key = if key = stateKey 0 7 then some [42] else none := by
    intro key
    change (SortedMap.empty.upsert (stateKey 0 7) fun _ => [42]).find? key = _
    rw [SortedMap.find?_upsert]
    by_cases hkey : key = stateKey 0 7
    · rw [if_pos hkey, if_pos hkey]
    · rw [if_neg hkey, if_neg hkey]
      rfl
  have hdistributed : Distributed codec 1 2 prepared state := by
    constructor
    · intro j _ key blob hrow _
      rw [show state j = state 0 from rfl, hfind] at hrow
      by_cases hkey : key = stateKey 0 7
      · rw [if_pos hkey] at hrow
        exact ⟨0, by decide, 7, [42], rfl, hkey, (Option.some.inj hrow).symm⟩
      · simp [hkey] at hrow
    · intro j _ i _ _ ckpt c hc
      by_cases hat : i = 0 ∧ ckpt = 7
      · obtain ⟨rfl, rfl⟩ := hat
        rw [show state j = state 0 from rfl, hfind, if_pos rfl]
        exact hc
      · simp [prepared, hat] at hc
  have hall : ∀ j : UInt32, j ∈ [1, 0] ↔ j < 2 := by
    intro j
    rw [UInt32.lt_iff_toNat_lt]
    simp only [List.mem_cons, List.not_mem_nil, or_false, ← UInt32.toNat_inj]
    have htwo : (2 : UInt32).toNat = 2 := rfl
    have hone : (1 : UInt32).toNat = 1 := rfl
    have hzero : (0 : UInt32).toNat = 0 := rfl
    omega
  obtain ⟨honce, -, hclean⟩ := recovers_each_handle_once codec 1 2 ⟨0, by decide⟩ prepared state
    hdistributed [1, 0] (by decide) hall
  obtain ⟨j, hj, hsucceeds, hcalls⟩ := honce 0 (by decide) 7 [42] rfl
  have hj0 : j = 0 := by
    rcases List.mem_cons.mp ((hall j).mpr hj) with rfl | hmem
    · exact absurd hsucceeds.2 (by decide)
    · simpa using hmem
  subst hj0
  exact ⟨hcalls, hclean 1 (by decide)⟩

end

end Clink.Ports.PreparedRecovery

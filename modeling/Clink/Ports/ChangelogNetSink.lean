import Mathlib.Algebra.BigOperators.Group.List.Basic
import Mathlib.Data.List.AList
import Clink.Verified.Framing
import Clink.Ports.RowText

/-!
# The changelog-netting sink

The embedding of `ChangelogNetSink` (`src/sql/install.cpp`): a count of occurrences
for each row text, written through to keyed state after every batch, read back when
a restored sink opens, and written to the file when the input ends.  The order of
the lines is that of a hash map and says nothing.

The file holds the relation the changelog nets to as a set: every row whose count is
positive, once.
-/

namespace Clink.Ports.ChangelogNetSink

open Clink.Verified
open Clink.Verified.StrictJson (Bytes ascii)
open Clink.Ports.Json

/-! ## Records -/

/-- `kRowKindField`. -/
def rowKindField : Bytes := ascii "__row_kind"

variable {F : Type}

/-- `row_kind_of`: unmarked records are inserts. -/
def rowKindOf (r : Row F) : Bytes :=
  match r.values.lookup rowKindField with
  | some (.string kind) => kind
  | _ => ascii "insert"

def isDeleteLike (kind : Bytes) : Bool := kind == ascii "delete" || kind == ascii "update_before"

/-- A row without its kind. -/
def bare (r : Row F) : Row F where
  values := r.values.filter fun m => m.1 ≠ rowKindField
  sorted := by
    have hsorted : (r.values.map Prod.fst).Pairwise (· < ·) := List.isChain_iff_pairwise.mp r.sorted
    have hsub : List.Sublist (r.values.filter fun m => m.1 ≠ rowKindField) r.values :=
      List.filter_sublist
    exact List.isChain_iff_pairwise.mpr (hsorted.sublist (hsub.map Prod.fst))
  wellFormed := by
    rw [wellFormedMembers_iff]
    intro m hm
    exact wellFormedMembers_iff.mp r.wellFormed m (List.mem_filter.mp hm).1

/-- What a record does to the count of its row. -/
def sign (r : Row F) : Int := if isDeleteLike (rowKindOf r) then -1 else 1

structure Slot (F : Type) where
  row : Row F
  count : Int64 := 0

abbrev Slots (F : Type) := AList fun _ : Bytes => Slot F

/-- The keyed state `net`: encoded slots by key. -/
abbrev KeyedState := AList fun _ : Bytes => Bytes

structure Settings (F : Type) where
  path : String
  text : DoubleText F
  decimals : DecimalText F
  decimalScales : List (Bytes × Int)
  nonFinite : NonFinite
  /-- There is a runtime with a state backend. -/
  hasStateBackend : Bool
  /-- `supports_async_get`: the backend defers. -/
  supportsAsyncGet : Bool

/-- `persist_inmem_`. -/
def Settings.persistInmem (S : Settings F) : Bool := S.hasStateBackend && !S.supportsAsyncGet

structure Sink (F : Type) where
  state : Slots F := ∅
  flushed : Bool := false

/-- `config::parse` throws. -/
inductive ParseError where
  | malformed
  deriving DecidableEq

section Code

variable [DecidableEq F] (S : Settings F)

/-- The text a row is netted by. -/
def key (r : Row F) : Bytes := rowText S.text (bare r)

/-! ## The codec of slots -/

def encodeSlot (slot : Slot F) : Bytes :=
  putLE 8 slot.count.toUInt64.toNat ++
    (putLE 4 (rowText S.text slot.row).length ++ rowText S.text slot.row)

/-- The count and the text. -/
def readSlot : Reader (Nat × Bytes) :=
  (Reader.getLE 8).bind fun count =>
    (Reader.getLE 4).bind fun length => (Reader.take length).map fun text => (count, text)

/-- A row with no columns. -/
def noColumns : Row F := ⟨[], List.isChain_nil, trivial⟩

/-- The row of a text: no columns where it is no object. -/
def rowOfText (T : DoubleText F) (text : Bytes) : Except ParseError (Row F) :=
  match decode T text with
  | some r => .ok r
  | none =>
      match StrictJson.parse text with
      | none => .error .malformed
      | some (.object _) => .error .malformed
      | some element =>
          match fromDom T element with
          | none => .error .malformed
          | some _ => .ok noColumns

def decodeSlot (bytes : Bytes) : Except ParseError (Option (Slot F)) :=
  match readSlot bytes with
  | none => .ok none
  | some ((count, text), _) =>
      match rowOfText S.text text with
      | .error e => .error e
      | .ok row => .ok (some ⟨row, (UInt64.ofNat count).toInt64⟩)

/-! ## The sink -/

/-- One record of `on_data`. -/
def net (state : Slots F) (r : Row F) : Slots F :=
  let count := (state.lookup (key S r)).elim 0 Slot.count +
    (if isDeleteLike (rowKindOf r) then -1 else 1)
  if count ≤ 0 then state.erase (key S r)
  else state.insert (key S r) ⟨bare r, count⟩

/-- One dirty key of `on_data`. -/
def writeThrough (state : Slots F) (kv : KeyedState) (key : Bytes) : KeyedState :=
  match state.lookup key with
  | some slot => kv.insert key (encodeSlot S slot)
  | none => kv.erase key

def onData (sink : Sink F) (kv : KeyedState) (batch : List (Row F)) : Sink F × KeyedState :=
  let state := batch.foldl (net S) sink.state
  let dirty := if S.persistInmem then batch.map (key S) else []
  ({ sink with state := state }, dirty.foldl (writeThrough S state) kv)

/-- The scan of `open`. -/
def reload (state : Slots F) : List (Σ _ : Bytes, Bytes) → Except ParseError (Slots F)
  | [] => .ok state
  | ⟨key, bytes⟩ :: entries =>
      match decodeSlot S bytes with
      | .error e => .error e
      | .ok none => reload state entries
      | .ok (some slot) =>
          reload (if 0 < slot.count then state.insert key slot else state) entries

def openSink (sink : Sink F) (kv : KeyedState) : Except ParseError (Sink F) :=
  if S.persistInmem && sink.state.entries.isEmpty then
    match reload S sink.state kv.entries with
    | .error e => .error e
    | .ok state => .ok { sink with state := state }
  else .ok sink

/-- What the file system lets a flush do. -/
inductive Disk where
  | ready
  | refusesOpen
  | refusesWrite

inductive FlushError where
  | cannotOpen (tmpPath : String)
  | writeFailed (tmpPath path : String)
  deriving DecidableEq

def FlushError.message : FlushError → String
  | .cannotOpen tmpPath => "changelog_net_sink: cannot open " ++ tmpPath
  | .writeFailed tmpPath path =>
      "changelog_net_sink: write to " ++ tmpPath ++ " failed; " ++ path ++
        " keeps its previous contents"

/-- The line of a slot. -/
def line (slot : Slot F) : Bytes :=
  rowLine S.text S.decimals S.decimalScales S.nonFinite slot.row

/-- `flush`: the lines of the new file, if one takes the place of the old. -/
def flush (sink : Sink F) (disk : Disk) : Sink F × Except FlushError (Option (List Bytes)) :=
  if sink.flushed then (sink, .ok none)
  else
    let tmpPath := S.path ++ ".tmp"
    ({ sink with flushed := true },
      match disk with
      | .refusesOpen => .error (.cannotOpen tmpPath)
      | .refusesWrite => .error (.writeFailed tmpPath S.path)
      | .ready => .ok (some (sink.state.entries.map fun entry => line S entry.2)))

/-! ## Runs -/

inductive Event (F : Type) where
  | batch (rows : List (Row F))
  /-- The backend is saved. -/
  | checkpoint
  /-- A new sink over the backend of a checkpoint, where there is one. -/
  | restore (n : Nat)

structure Job (F : Type) where
  sink : Sink F := {}
  backend : KeyedState := ∅
  saved : List KeyedState := []

def step (job : Job F) : Event F → Except ParseError (Job F)
  | .batch rows =>
      let (sink, backend) := onData S job.sink job.backend rows
      .ok { job with sink := sink, backend := backend }
  | .checkpoint => .ok { job with saved := job.saved ++ [job.backend] }
  | .restore n =>
      match job.saved[n]? with
      | none => .ok job
      | some backend =>
          match openSink S {} backend with
          | .error e => .error e
          | .ok sink => .ok { job with sink := sink, backend := backend }

def run (job : Job F) : List (Event F) → Except ParseError (Job F)
  | [] => .ok job
  | e :: es =>
      match step S job e with
      | .error t => .error t
      | .ok job' => run job' es

end Code

/-- The records a sink stands on, and those of each checkpoint. -/
structure History (F : Type) where
  log : List (Row F) := []
  saved : List (List (Row F)) := []

def History.next (h : History F) : Event F → History F
  | .batch rows => { h with log := h.log ++ rows }
  | .checkpoint => { h with saved := h.saved ++ [h.log] }
  | .restore n =>
      match h.saved[n]? with
      | none => h
      | some log => { h with log := log }

def History.after (h : History F) (es : List (Event F)) : History F := es.foldl History.next h

/-! ## What a changelog nets to -/

section Spec

variable [DecidableEq F] (S : Settings F)

/-- The count of a text after some records. -/
def netCount (log : List (Row F)) (text : Bytes) : Int :=
  (log.map fun r => if key S r = text then sign r else 0).sum

/-- The rows of some records, one for each text. -/
def distinctRows (log : List (Row F)) : List (Row F) :=
  (log.map bare).pwFilter fun a b => rowText S.text a ≠ rowText S.text b

/-- The rows whose count is positive. -/
def relation (log : List (Row F)) : List (Row F) :=
  (distinctRows S log).filter fun r => 0 < netCount S log (rowText S.text r)

/-- No count goes negative, nor past an int64. -/
def InRange (log : List (Row F)) : Prop :=
  ∀ pre, pre <+: log → ∀ text, 0 ≤ netCount S pre text ∧ netCount S pre text < 2 ^ 63

/-- The slots count what the records net to; the row of a slot has the text of its key. -/
def Nets (log : List (Row F)) (state : Slots F) : Prop :=
  ∀ text, match state.lookup text with
    | none => netCount S log text = 0
    | some slot => slot.count.toInt = netCount S log text ∧ 0 < netCount S log text ∧
        rowText S.text slot.row = text ∧ MembersUntagged slot.row.values

end Spec

section Proofs

variable [DecidableEq F] {S : Settings F} {log : List (Row F)} {state : Slots F} {r : Row F}

theorem netCount_concat (S : Settings F) (log : List (Row F)) (r : Row F) (text : Bytes) :
    netCount S (log ++ [r]) text = netCount S log text + if key S r = text then sign r else 0 := by
  rw [netCount, List.map_append, List.sum_append, List.map_singleton, List.sum_singleton]
  rfl

theorem Nets.count (h : Nets S log state) (text : Bytes) :
    ((state.lookup text).elim 0 Slot.count).toInt = netCount S log text := by
  have hslot := h text
  cases hfind : state.lookup text with
  | none =>
      rw [hfind] at hslot
      rw [hslot]
      rfl
  | some slot =>
      rw [hfind] at hslot
      exact hslot.1

theorem Nets.counted (h : Nets S log state) (hrange : InRange S (log ++ [r])) :
    ((state.lookup (key S r)).elim 0 Slot.count +
      (if isDeleteLike (rowKindOf r) then -1 else 1)).toInt =
        netCount S (log ++ [r]) (key S r) := by
  have hsum := netCount_concat S log r (key S r)
  rw [if_pos rfl] at hsum
  have hbound := hrange (log ++ [r]) (List.prefix_refl _) (key S r)
  have hsign : (if isDeleteLike (rowKindOf r) then (-1 : Int64) else 1).toInt = sign r := by
    unfold sign
    split
    · rfl
    · rfl
  rw [Int64.toInt_add, h.count, hsign, ← hsum]
  exact Int.bmod_eq_of_le (by omega) (by omega)

theorem Nets.net (h : Nets S log state) (hrange : InRange S (log ++ [r]))
    (htags : MembersUntagged (bare r).values) : Nets S (log ++ [r]) (net S state r) := by
  have hcounted := h.counted hrange
  unfold ChangelogNetSink.net
  dsimp only
  generalize (state.lookup (key S r)).elim 0 Slot.count +
    (if isDeleteLike (rowKindOf r) then -1 else 1) = count at hcounted ⊢
  have hbound := (hrange (log ++ [r]) (List.prefix_refl _) (key S r)).1
  have hother : ∀ text, text ≠ key S r → netCount S (log ++ [r]) text = netCount S log text := by
    intro text htext
    rw [netCount_concat, if_neg (Ne.symm htext), Int.add_zero]
  intro text
  by_cases hle : count ≤ 0
  · rw [if_pos hle]
    by_cases htext : text = key S r
    · subst htext
      rw [AList.lookup_erase]
      have hcount := Int64.le_iff_toInt_le.mp hle
      rw [hcounted] at hcount
      exact Int.le_antisymm hcount hbound
    · rw [AList.lookup_erase_ne htext, hother text htext]
      exact h text
  · rw [if_neg hle]
    by_cases htext : text = key S r
    · subst htext
      rw [AList.lookup_insert]
      refine ⟨hcounted, ?_, rfl, htags⟩
      rw [← hcounted]
      exact Int.not_le.mp fun hcount => hle (Int64.le_iff_toInt_le.mpr hcount)
    · rw [AList.lookup_insert_ne htext, hother text htext]
      exact h text

theorem InRange.mono {log' : List (Row F)} (h : InRange S log) (hbefore : log' <+: log) :
    InRange S log' :=
  fun pre hpre => h pre (hpre.trans hbefore)

theorem Nets.foldl {rows : List (Row F)} (h : Nets S log state) (hrange : InRange S (log ++ rows))
    (htags : ∀ r ∈ rows, MembersUntagged (bare r).values) :
    Nets S (log ++ rows) (rows.foldl (ChangelogNetSink.net S) state) := by
  induction rows generalizing log state with
  | nil =>
      rw [List.append_nil]
      exact h
  | cons r rows ih =>
      rw [List.append_cons] at hrange ⊢
      have hbefore : InRange S (log ++ [r]) := hrange.mono (List.prefix_append _ _)
      exact ih (h.net hbefore (htags r List.mem_cons_self)) hrange
        fun r' hr' => htags r' (List.mem_cons_of_mem r hr')

/-! ### The keyed state -/

/-- The keyed state holds the slots, encoded. -/
def Mirrors (S : Settings F) (state : Slots F) (kv : KeyedState) : Prop :=
  ∀ text, kv.lookup text = (state.lookup text).map (encodeSlot S)

variable {text : Bytes}

/-- A record leaves the other slots. -/
theorem lookup_net (htext : text ≠ key S r) :
    (ChangelogNetSink.net S state r).lookup text = state.lookup text := by
  unfold ChangelogNetSink.net
  dsimp only
  generalize (state.lookup (key S r)).elim 0 Slot.count +
    (if isDeleteLike (rowKindOf r) then -1 else 1) = count
  split
  · exact AList.lookup_erase_ne htext
  · exact AList.lookup_insert_ne htext

theorem lookup_foldl_net {rows : List (Row F)} (htext : text ∉ rows.map (key S)) :
    (rows.foldl (ChangelogNetSink.net S) state).lookup text = state.lookup text := by
  induction rows generalizing state with
  | nil => rfl
  | cons r rows ih =>
      rw [List.map_cons, List.mem_cons, not_or] at htext
      rw [List.foldl_cons, ih htext.2, lookup_net htext.1]

theorem lookup_writeThrough (kv : KeyedState) (text text' : Bytes) :
    (writeThrough S state kv text).lookup text' =
      if text' = text then (state.lookup text).map (encodeSlot S) else kv.lookup text' := by
  unfold writeThrough
  by_cases h : text' = text
  · subst h
    rw [if_pos rfl]
    cases state.lookup text' with
    | none => exact AList.lookup_erase _ _
    | some slot => exact AList.lookup_insert _
  · rw [if_neg h]
    cases state.lookup text with
    | none => exact AList.lookup_erase_ne h
    | some slot => exact AList.lookup_insert_ne h

theorem lookup_foldl_writeThrough (dirty : List Bytes) (kv : KeyedState) (text : Bytes) :
    (dirty.foldl (writeThrough S state) kv).lookup text =
      if text ∈ dirty then (state.lookup text).map (encodeSlot S) else kv.lookup text := by
  induction dirty generalizing kv with
  | nil => rfl
  | cons first dirty ih =>
      rw [List.foldl_cons, ih, lookup_writeThrough]
      by_cases hmem : text ∈ dirty
      · rw [if_pos hmem, if_pos (List.mem_cons_of_mem first hmem)]
      · rw [if_neg hmem]
        by_cases hfirst : text = first
        · subst hfirst
          rw [if_pos rfl, if_pos List.mem_cons_self]
        · rw [if_neg hfirst, if_neg (by simp [hfirst, hmem])]

theorem Mirrors.onData {sink : Sink F} {kv : KeyedState} (hpersist : S.persistInmem = true)
    (h : Mirrors S sink.state kv) (rows : List (Row F)) :
    Mirrors S (onData S sink kv rows).1.state (onData S sink kv rows).2 := by
  intro text
  unfold ChangelogNetSink.onData
  dsimp only
  rw [if_pos hpersist, lookup_foldl_writeThrough]
  split
  · rfl
  · rename_i hclean
    rw [lookup_foldl_net hclean]
    exact h text

/-- A text that a slot is read back from. -/
def Readable (text : Bytes) : Prop := Utf8.Valid text ∧ text.length < 2 ^ 32

/-- A slot as it is read back. -/
def reread (S : Settings F) (slot : Slot F) : Slot F := ⟨plainRow S.text slot.row, slot.count⟩

theorem readSlot_encodeSlot {slot : Slot F} (hlength : (rowText S.text slot.row).length < 2 ^ 32) :
    readSlot (encodeSlot S slot)
      = some ((slot.count.toUInt64.toNat, rowText S.text slot.row), []) := by
  have hcount : slot.count.toUInt64.toNat < 256 ^ 8 := slot.count.toUInt64.toNat_lt
  have htext := (Frames.take (rowText S.text slot.row)).map
    fun text => (slot.count.toUInt64.toNat, text)
  have hlength' : (rowText S.text slot.row).length < 256 ^ 4 := hlength
  have hframe : Frames readSlot (encodeSlot S slot)
      (slot.count.toUInt64.toNat, rowText S.text slot.row) := by
    refine (Frames.getLE hcount).bind ?_
    exact Frames.bind (Frames.getLE hlength') htext
  have hread := hframe.reads []
  rw [List.append_nil] at hread
  exact hread

theorem decodeSlot_encodeSlot (hT : S.text.Lawful) {slot : Slot F}
    (htags : MembersUntagged slot.row.values) (hreadable : Readable (rowText S.text slot.row)) :
    decodeSlot S (encodeSlot S slot) = .ok (some (reread S slot)) := by
  have hrow : rowOfText S.text (rowText S.text slot.row) = .ok (plainRow S.text slot.row) := by
    rw [rowOfText, decode_rowText hT slot.row htags, if_pos hreadable.1]
  unfold decodeSlot
  rw [readSlot_encodeSlot hreadable.2]
  dsimp only
  rw [hrow]
  dsimp only
  rw [UInt64.ofNat_toNat, Int64.toInt64_toUInt64]
  rfl

theorem encodeSlot_reread (slot : Slot F) : encodeSlot S (reread S slot) = encodeSlot S slot := by
  simp only [encodeSlot, reread, rowText_plainRow]

omit [DecidableEq F] in
theorem reload_spec (state : Slots F) {entries : List (Σ _ : Bytes, Bytes)}
    (slotAt : Bytes → Option (Slot F))
    (hentries : ∀ e ∈ entries, ∃ slot, slotAt e.1 = some slot ∧
      decodeSlot S e.2 = .ok (some slot) ∧ 0 < slot.count) :
    ∃ state', reload S state entries = .ok state' ∧ ∀ text, state'.lookup text =
      if text ∈ entries.map Sigma.fst then slotAt text else state.lookup text := by
  induction entries generalizing state with
  | nil => exact ⟨state, rfl, fun text => rfl⟩
  | cons e entries ih =>
      obtain ⟨slot, hslot, hdecode, hpos⟩ := hentries e List.mem_cons_self
      obtain ⟨state', hreload, hlookup⟩ := ih (state.insert e.1 slot)
        fun e' he' => hentries e' (List.mem_cons_of_mem e he')
      rw [reload, hdecode]
      dsimp only
      rw [if_pos hpos]
      refine ⟨state', hreload, fun text => ?_⟩
      rw [hlookup, List.map_cons]
      by_cases hmem : text ∈ entries.map Sigma.fst
      · rw [if_pos hmem, if_pos (List.mem_cons_of_mem _ hmem)]
      · rw [if_neg hmem]
        by_cases hfirst : text = e.1
        · rw [hfirst, AList.lookup_insert, if_pos List.mem_cons_self, hslot]
        · rw [AList.lookup_insert_ne hfirst, if_neg]
          rw [List.mem_cons, not_or]
          exact ⟨hfirst, hmem⟩

/-- A sink opened over the keyed state of others counts as they did. -/
theorem openSink_spec (hT : S.text.Lawful) (hpersist : S.persistInmem = true) {kv : KeyedState}
    (hnets : Nets S log state) (hmirrors : Mirrors S state kv)
    (hreadable : ∀ text, 0 < netCount S log text → Readable text) :
    ∃ sink : Sink F, openSink S {} kv = .ok sink ∧ sink.flushed = false ∧ Nets S log sink.state ∧
      Mirrors S sink.state kv := by
  have hentries : ∀ e ∈ kv.entries, ∃ slot, (state.lookup e.1).map (reread S) = some slot ∧
      decodeSlot S e.2 = .ok (some slot) ∧ 0 < slot.count := by
    intro e he
    have hfind : kv.lookup e.1 = some e.2 := AList.mem_lookup_iff.mpr he
    have hslot := hnets e.1
    rw [hmirrors] at hfind
    cases hstate : state.lookup e.1 with
    | none =>
        rw [hstate] at hfind
        exact absurd hfind (by simp)
    | some slot =>
        rw [hstate] at hfind hslot
        obtain ⟨hcount, hpos, htext, htags⟩ := hslot
        refine ⟨reread S slot, rfl, ?_, ?_⟩
        · rw [← Option.some.inj hfind]
          exact decodeSlot_encodeSlot hT htags (htext ▸ hreadable e.1 hpos)
        · rw [Int64.lt_iff_toInt_lt]
          exact hcount ▸ hpos
  obtain ⟨state', hreload, hlookup⟩ :=
    reload_spec ∅ (fun text => (state.lookup text).map (reread S)) hentries
  have hstate' : ∀ text, state'.lookup text = (state.lookup text).map (reread S) := by
    intro text
    rw [hlookup]
    split
    · rfl
    · rename_i habsent
      have hnone : kv.lookup text = none := AList.lookup_eq_none.mpr habsent
      rw [hmirrors, Option.map_eq_none_iff] at hnone
      rw [hnone]
      rfl
  refine ⟨{ state := state' }, ?_, rfl, ?_, ?_⟩
  · have hopens : (S.persistInmem && ({} : Sink F).state.entries.isEmpty) = true := by
      rw [hpersist]
      rfl
    unfold openSink
    rw [if_pos hopens]
    dsimp only
    rw [hreload]
  · intro text
    rw [hstate']
    have hslot := hnets text
    cases hfind : state.lookup text with
    | none =>
        rw [hfind] at hslot
        exact hslot
    | some slot =>
        rw [hfind] at hslot
        obtain ⟨hcount, hpos, htext, htags⟩ := hslot
        exact ⟨hcount, hpos, (rowText_plainRow slot.row).trans htext,
          membersUntagged_plainMembers slot.row.values htags⟩
  · intro text
    rw [hstate', hmirrors, Option.map_map]
    congr 1
    funext slot
    exact (encodeSlot_reread slot).symm

/-! ### Runs -/

/-- Records the sink can stand on: no count leaves its range, no string is a tag and, where
they may have to be read back, every text can be. -/
structure Standing (S : Settings F) (restores : Prop) (log : List (Row F)) : Prop where
  range : InRange S log
  untagged : ∀ r ∈ log, MembersUntagged (bare r).values
  readable : restores → ∀ r ∈ log, Readable (key S r)

theorem inRange_nil (S : Settings F) : InRange S [] := by
  intro pre hpre text
  rw [List.prefix_nil.mp hpre]
  exact ⟨Int.le_refl 0, Int.lt_of_lt_of_le Int.zero_lt_one (by decide)⟩

theorem inRange_of_inserts (hinserts : ∀ r ∈ log, sign r = 1) (hlength : log.length < 2 ^ 63) :
    InRange S log := by
  have hcount : ∀ pre : List (Row F), (∀ r ∈ pre, sign r = 1) → ∀ text,
      0 ≤ netCount S pre text ∧ netCount S pre text ≤ pre.length := by
    intro pre hpre text
    induction pre with
    | nil => exact ⟨Int.le_refl 0, Int.le_refl 0⟩
    | cons r pre ih =>
        have ih := ih fun r' hr' => hpre r' (List.mem_cons_of_mem r hr')
        have hcons : netCount S (r :: pre) text
            = (if key S r = text then sign r else 0) + netCount S pre text := by
          rw [netCount, List.map_cons, List.sum_cons]
          rfl
        rw [hcons, hpre r List.mem_cons_self, List.length_cons]
        split <;> omega
  intro pre hpre text
  have hbound := hcount pre (fun r hr => hinserts r (hpre.subset hr)) text
  have hshort := hpre.length_le
  omega

theorem InRange.concat (h : InRange S log)
    (hr : ∀ text, 0 ≤ netCount S (log ++ [r]) text ∧ netCount S (log ++ [r]) text < 2 ^ 63) :
    InRange S (log ++ [r]) := by
  intro pre hpre
  rcases List.prefix_concat_iff.mp hpre with rfl | hpre
  · exact hr
  · exact h pre hpre

theorem mem_of_netCount_pos (h : 0 < netCount S log text) : text ∈ log.map (key S) := by
  by_contra habsent
  have hzero : netCount S log text = 0 := by
    unfold netCount
    apply List.sum_eq_zero
    intro x hx
    obtain ⟨r, hr, rfl⟩ := List.mem_map.mp hx
    rw [if_neg]
    intro hkey
    exact habsent (List.mem_map.mpr ⟨r, hr, hkey⟩)
  omega

/-- Slots that count the records, in keyed state. -/
def Saved (S : Settings F) (restores : Prop) (log : List (Row F)) (backend : KeyedState) : Prop :=
  Standing S restores log ∧
    (S.persistInmem = true → ∃ state, Nets S log state ∧ Mirrors S state backend)

structure Follows (S : Settings F) (restores : Prop) (h : History F) (job : Job F) : Prop where
  unflushed : job.sink.flushed = false
  nets : Nets S h.log job.sink.state
  standing : Standing S restores h.log
  mirrors : S.persistInmem = true → Mirrors S job.sink.state job.backend
  saved : List.Forall₂ (Saved S restores) h.saved job.saved

theorem follows_start (S : Settings F) (restores : Prop) : Follows S restores {} {} where
  unflushed := rfl
  nets := fun _ => rfl
  standing := ⟨inRange_nil S, fun _ hr => absurd hr List.not_mem_nil,
    fun _ _ hr => absurd hr List.not_mem_nil⟩
  mirrors := fun _ _ => rfl
  saved := .nil

omit [DecidableEq F] in
/-- Checkpoints stand at the same places. -/
theorem saved_cases {R : List (Row F) → KeyedState → Prop} {logs : List (List (Row F))}
    {backends : List KeyedState} (hsaved : List.Forall₂ R logs backends) (n : Nat) :
    (logs[n]? = none ∧ backends[n]? = none) ∨
      ∃ log backend, logs[n]? = some log ∧ backends[n]? = some backend ∧ R log backend := by
  induction hsaved generalizing n with
  | nil => exact .inl ⟨rfl, rfl⟩
  | cons hfirst _ ih =>
      cases n with
      | zero => exact .inr ⟨_, _, rfl, rfl, hfirst⟩
      | succ n => exact ih n

variable {restores : Prop} {h : History F} {job : Job F} {e : Event F}

theorem Follows.step (hT : S.text.Lawful) (hfollows : Follows S restores h job)
    (hrestores : ∀ n, e = .restore n → restores ∧ S.persistInmem = true)
    (hstanding : Standing S restores (h.next e).log) :
    ∃ job', step S job e = .ok job' ∧ Follows S restores (h.next e) job' := by
  cases e with
  | batch rows =>
      refine ⟨_, rfl, hfollows.unflushed, ?_, hstanding, ?_, hfollows.saved⟩
      · exact hfollows.nets.foldl hstanding.range
          fun r hr => hstanding.untagged r (List.mem_append_right _ hr)
      · exact fun hpersist => (hfollows.mirrors hpersist).onData hpersist rows
  | checkpoint =>
      refine ⟨_, rfl, hfollows.unflushed, hfollows.nets, hfollows.standing, hfollows.mirrors, ?_⟩
      refine List.rel_append hfollows.saved (.cons ?_ .nil)
      exact ⟨hfollows.standing,
        fun hpersist => ⟨job.sink.state, hfollows.nets, hfollows.mirrors hpersist⟩⟩
  | restore n =>
      obtain ⟨hrestore, hpersist⟩ := hrestores n rfl
      rcases saved_cases hfollows.saved n with ⟨hlog, hbackend⟩
        | ⟨log, backend, hlog, hbackend, hsaved⟩
      · refine ⟨job, ?_, ?_⟩
        · rw [ChangelogNetSink.step, hbackend]
        · rw [History.next, hlog]
          exact hfollows
      · obtain ⟨hstands, hkept⟩ := hsaved
        obtain ⟨state, hnets, hmirrors⟩ := hkept hpersist
        have hreadable : ∀ text, 0 < netCount S log text → Readable text := by
          intro text hpos
          obtain ⟨r, hr, rfl⟩ := List.mem_map.mp (mem_of_netCount_pos hpos)
          exact hstands.readable hrestore r hr
        obtain ⟨sink, hopen, hunflushed, hsink, hheld⟩ :=
          openSink_spec hT hpersist hnets hmirrors hreadable
        refine ⟨{ job with sink := sink, backend := backend }, ?_, ?_⟩
        · rw [ChangelogNetSink.step, hbackend]
          dsimp only
          rw [hopen]
        · rw [History.next, hlog]
          exact ⟨hunflushed, hsink, hstands, fun _ => hheld, hfollows.saved⟩

variable {events : List (Event F)}

theorem Follows.run (hT : S.text.Lawful) (hfollows : Follows S restores h job)
    (hrestores : ∀ n, Event.restore n ∈ events → restores ∧ S.persistInmem = true)
    (hstanding : ∀ pre, pre <+: events → Standing S restores (h.after pre).log) :
    ∃ job', run S job events = .ok job' ∧ Follows S restores (h.after events) job' := by
  induction events generalizing h job with
  | nil => exact ⟨job, rfl, hfollows⟩
  | cons e events ih =>
      have hfirst : Standing S restores (h.next e).log := hstanding [e] ⟨events, rfl⟩
      obtain ⟨job₁, hstep, hfollows₁⟩ := hfollows.step hT
        (fun n he => hrestores n (he ▸ List.mem_cons_self)) hfirst
      obtain ⟨job₂, hrun, hfollows₂⟩ := ih hfollows₁
        (fun n hn => hrestores n (List.mem_cons_of_mem e hn))
        fun pre hpre => hstanding (e :: pre) (List.cons_prefix_cons.mpr ⟨rfl, hpre⟩)
      rw [ChangelogNetSink.run, hstep]
      exact ⟨job₂, hrun, hfollows₂⟩

/-! ### The file -/

/-- Lists with the same labels have the same images, where labels decide them. -/
theorem perm_map_of_labels {α β γ δ : Type*} {f : α → γ} {f' : β → γ} {g : α → δ}
    {g' : β → δ} {l : List α} {l' : List β} (hlabels : (l.map f).Perm (l'.map f'))
    (hsame : ∀ a ∈ l, ∀ b ∈ l', f a = f' b → g a = g' b) : (l.map g).Perm (l'.map g') := by
  induction l generalizing l' with
  | nil =>
      rw [List.map_nil, List.nil_perm, List.map_eq_nil_iff] at hlabels
      rw [hlabels]
      exact List.Perm.refl _
  | cons a l ih =>
      obtain ⟨b, hb, hfb⟩ := List.mem_map.mp (hlabels.mem_iff.mp List.mem_cons_self)
      obtain ⟨before, behind, rfl⟩ := List.append_of_mem hb
      have hmiddle : (before ++ b :: behind).Perm (b :: (before ++ behind)) := List.perm_middle
      have hrest : (l.map f).Perm ((before ++ behind).map f') := by
        have hboth := hlabels.trans (hmiddle.map f')
        rw [List.map_cons, List.map_cons, hfb] at hboth
        exact hboth.cons_inv
      have ih := ih hrest fun a' ha' b' hb' =>
        hsame a' (List.mem_cons_of_mem a ha') b' (hmiddle.mem_iff.mpr (List.mem_cons_of_mem b hb'))
      rw [List.map_cons, hsame a List.mem_cons_self b hb hfb.symm]
      exact (ih.cons (g' b)).trans (hmiddle.map g').symm

theorem nodup_relation (log : List (Row F)) :
    ((relation S log).map (rowText S.text)).Nodup := by
  have hdistinct : (distinctRows S log).Pairwise fun a b => rowText S.text a ≠ rowText S.text b :=
    List.pairwise_pwFilter _
  exact List.pairwise_map.mpr (hdistinct.filter _)

theorem mem_relation_iff :
    text ∈ (relation S log).map (rowText S.text) ↔ 0 < netCount S log text := by
  constructor
  · intro hmem
    obtain ⟨r, hr, rfl⟩ := List.mem_map.mp hmem
    exact of_decide_eq_true (List.mem_filter.mp hr).2
  · intro hpos
    obtain ⟨r, hr, rfl⟩ := List.mem_map.mp (mem_of_netCount_pos hpos)
    have hrow : bare r ∈ log.map bare := List.mem_map_of_mem hr
    obtain ⟨r', hr', htext⟩ : ∃ r' ∈ distinctRows S log,
        rowText S.text r' = rowText S.text (bare r) := by
      by_contra hnone
      have hall : ∀ b ∈ distinctRows S log, rowText S.text (bare r) ≠ rowText S.text b :=
        fun b hb htext => hnone ⟨b, hb, htext.symm⟩
      have hsplit : ∀ {x y z : Row F}, rowText S.text x ≠ rowText S.text z →
          rowText S.text x ≠ rowText S.text y ∨ rowText S.text y ≠ rowText S.text z := by
        intro x y z hne
        by_contra hboth
        rw [not_or, not_not, not_not] at hboth
        exact hne (hboth.1.trans hboth.2)
      have hevery : ∀ b ∈ log.map bare, rowText S.text (bare r) ≠ rowText S.text b :=
        (List.forall_mem_pwFilter (R := fun a b => rowText S.text a ≠ rowText S.text b) hsplit _
          _).mp hall
      exact hevery (bare r) hrow rfl
    refine List.mem_map.mpr ⟨r', List.mem_filter.mpr ⟨hr', ?_⟩, htext⟩
    rw [htext]
    exact decide_eq_true hpos

theorem mem_bare_of_mem_relation (hr : r ∈ relation S log) : r ∈ log.map bare :=
  List.pwFilter_subset _ (List.mem_filter.mp hr).1

/-- The lines of slots that count the records are those of the relation. -/
theorem Nets.lines (hT : S.text.Lawful) (hD : S.decimals.Lawful S.text) (h : Nets S log state)
    (htags : ∀ r ∈ log, MembersUntagged (bare r).values) :
    (state.entries.map fun entry => line S entry.2).Perm
      ((relation S log).map (rowLine S.text S.decimals S.decimalScales S.nonFinite)) := by
  have hkeys : (state.entries.map Sigma.fst).Perm ((relation S log).map (rowText S.text)) := by
    refine (List.perm_ext_iff_of_nodup state.nodupKeys (nodup_relation log)).mpr fun text => ?_
    have hslot := h text
    rw [mem_relation_iff]
    change text ∈ state.keys ↔ _
    rw [← AList.mem_keys, ← AList.lookup_isSome]
    cases hfind : state.lookup text with
    | none =>
        rw [hfind] at hslot
        simp [hslot]
    | some slot =>
        rw [hfind] at hslot
        simp [hslot.2.1]
  refine perm_map_of_labels hkeys fun entry hentry r hr htext => ?_
  have hfind : state.lookup entry.1 = some entry.2 := AList.mem_lookup_iff.mpr hentry
  have hslot := h entry.1
  rw [hfind] at hslot
  obtain ⟨r', hr', rfl⟩ := List.mem_map.mp (mem_bare_of_mem_relation hr)
  exact rowLine_eq_of_rowText_eq hT hD hslot.2.2.2 (htags r' hr') (hslot.2.2.1.trans htext)

omit [DecidableEq F] in
/-- The records a run stands on came in its batches. -/
theorem log_of_batches {P : Row F → Prop} (hlog : ∀ r ∈ h.log, P r)
    (hsaved : ∀ log ∈ h.saved, ∀ r ∈ log, P r)
    (hbatches : ∀ rows, Event.batch rows ∈ events → ∀ r ∈ rows, P r) :
    ∀ r ∈ (h.after events).log, P r := by
  induction events generalizing h with
  | nil => exact hlog
  | cons e events ih =>
      have hrest : ∀ rows, Event.batch rows ∈ events → ∀ r ∈ rows, P r :=
        fun rows hrows => hbatches rows (List.mem_cons_of_mem e hrows)
      change ∀ r ∈ ((h.next e).after events).log, P r
      cases e with
      | batch rows =>
          refine ih (fun r hr => ?_) hsaved hrest
          rcases List.mem_append.mp hr with hr | hr
          · exact hlog r hr
          · exact hbatches rows List.mem_cons_self r hr
      | checkpoint =>
          refine ih hlog (fun log hmem => ?_) hrest
          rcases List.mem_append.mp hmem with hmem | hmem
          · exact hsaved log hmem
          · rw [List.mem_singleton.mp hmem]
            exact hlog
      | restore n =>
          rw [History.next]
          cases hfind : h.saved[n]? with
          | none => exact ih hlog hsaved hrest
          | some log => exact ih (hsaved log (List.mem_of_getElem? hfind)) hsaved hrest

/-- The runs: no count goes negative or past an int64, no string is the tag of a double that
is not finite, and restores happen over a backend that does not defer and of rows whose texts
are UTF-8 and shorter than 4 GiB. -/
structure Permitted (S : Settings F) (events : List (Event F)) : Prop where
  range : ∀ pre, pre <+: events → InRange S (({} : History F).after pre).log
  untagged : ∀ rows, Event.batch rows ∈ events → ∀ r ∈ rows, MembersUntagged (bare r).values
  persists : ∀ n, Event.restore n ∈ events → S.persistInmem = true
  readable : ∀ n, Event.restore n ∈ events →
    ∀ rows, Event.batch rows ∈ events → ∀ r ∈ rows, Readable (key S r)

theorem Permitted.standing (hpermitted : Permitted S events) {pre : List (Event F)}
    (hpre : pre <+: events) :
    Standing S (∃ n, Event.restore n ∈ events) (({} : History F).after pre).log where
  range := hpermitted.range pre hpre
  untagged := log_of_batches (fun r hr => absurd hr List.not_mem_nil)
    (fun log hmem => absurd hmem List.not_mem_nil)
    fun rows hrows => hpermitted.untagged rows (hpre.subset hrows)
  readable := by
    rintro ⟨n, hn⟩
    exact log_of_batches (fun r hr => absurd hr List.not_mem_nil)
      (fun log hmem => absurd hmem List.not_mem_nil)
      fun rows hrows => hpermitted.readable n hn rows (hpre.subset hrows)

/-- The file holds every row of positive count once, in any batching and across restores. -/
theorem flush_writes_relation (hT : S.text.Lawful) (hD : S.decimals.Lawful S.text)
    (events : List (Event F)) (hpermitted : Permitted S events) :
    ∃ job lines, run S {} events = .ok job ∧ (flush S job.sink .ready).2 = .ok (some lines) ∧
      lines.Perm ((relation S (({} : History F).after events).log).map
        (rowLine S.text S.decimals S.decimalScales S.nonFinite)) := by
  obtain ⟨job, hrun, hfollows⟩ :=
    (follows_start S (∃ n, Event.restore n ∈ events)).run hT
      (fun n hn => ⟨⟨n, hn⟩, hpermitted.persists n hn⟩) fun pre hpre => hpermitted.standing hpre
  refine ⟨job, _, hrun, ?_, hfollows.nets.lines hT hD hfollows.standing.untagged⟩
  unfold flush
  rw [hfollows.unflushed]
  rfl

end Proofs

/-! ## A column of integers -/

/-- No decimal columns. -/
def noDecimals : DecimalText Sample where
  Dec := Unit
  ofInt64 _ := .zero
  fixedText _ := []
  parse _ := none
  rescale _ _ := none
  format _ := []

def sampleSettings : Settings Sample where
  path := "out.ndjson"
  text := Sample.text
  decimals := noDecimals
  decimalScales := []
  nonFinite := .null
  hasStateBackend := true
  supportsAsyncGet := false

def inserted (n : Int64) : Row Sample := Sample.column (.int n) trivial

def deleted (n : Int64) : Row Sample where
  values := [(rowKindField, .string (ascii "delete")), (ascii "a", .int n)]
  sorted := (by decide : [rowKindField, ascii "a"].IsChain (· < ·))
  wellFormed := ⟨trivial, trivial, trivial⟩

/-- Two rows, a checkpoint, one of them deleted, twice, with a restore between. -/
def sampleEvents : List (Event Sample) :=
  [.batch [inserted 7, inserted 3], .checkpoint, .batch [deleted 7], .restore 0,
    .batch [deleted 7]]

def sampleLog : List (Row Sample) := [inserted 7, inserted 3, deleted 7]

private theorem netCount_sample (text : Bytes) :
    netCount sampleSettings sampleLog text
      = if key sampleSettings (inserted 3) = text then 1 else 0 := by
  have hkey : key sampleSettings (deleted 7) = key sampleSettings (inserted 7) := by decide
  have hinsert : ∀ n, sign (inserted n) = 1 := fun _ => rfl
  have hdelete : sign (deleted 7) = -1 := rfl
  simp only [netCount, sampleLog, List.map_cons, List.map_nil, List.sum_cons, List.sum_nil, hkey,
    hinsert, hdelete]
  split <;> split <;> rfl

theorem inRange_sampleLog : InRange sampleSettings sampleLog := by
  have hinserts : InRange sampleSettings [inserted 7, inserted 3] := by
    refine inRange_of_inserts (fun r hr => ?_) (by decide)
    simp only [List.mem_cons, List.not_mem_nil, or_false] at hr
    rcases hr with rfl | rfl
    · rfl
    · rfl
  refine hinserts.concat (r := deleted 7) fun text => ?_
  rw [show [inserted 7, inserted 3] ++ [deleted 7] = sampleLog from rfl, netCount_sample]
  split
  · decide
  · decide

theorem mem_sample {rows : List (Row Sample)} (hrows : Event.batch rows ∈ sampleEvents)
    {r : Row Sample} (hr : r ∈ rows) : r ∈ sampleLog := by
  simp only [sampleEvents, List.mem_cons, Event.batch.injEq, List.not_mem_nil, or_false,
    reduceCtorEq, false_or] at hrows
  rcases hrows with rfl | rfl | rfl
  · exact List.mem_append_left [deleted 7] hr
  · exact List.mem_append_right [inserted 7, inserted 3] hr
  · exact List.mem_append_right [inserted 7, inserted 3] hr

theorem forall_sampleLog {P : Row Sample → Prop} (h₇ : P (inserted 7)) (h₃ : P (inserted 3))
    (hdelete : P (deleted 7)) : ∀ r ∈ sampleLog, P r := by
  intro r hr
  simp only [sampleLog, List.mem_cons, List.not_mem_nil, or_false] at hr
  rcases hr with rfl | rfl | rfl
  · exact h₇
  · exact h₃
  · exact hdelete

theorem permitted_sample : Permitted sampleSettings sampleEvents where
  range := by
    intro pre hpre
    have hlog : (({} : History Sample).after pre).log <+: sampleLog := by
      simp only [sampleEvents, List.prefix_cons_iff, List.prefix_nil] at hpre
      rcases hpre with rfl | ⟨_, rfl, rfl | ⟨_, rfl, rfl | ⟨_, rfl, rfl | ⟨_, rfl, rfl |
        ⟨_, rfl, rfl⟩⟩⟩⟩⟩
      · exact ⟨sampleLog, rfl⟩
      · exact ⟨[deleted 7], rfl⟩
      · exact ⟨[deleted 7], rfl⟩
      · exact ⟨[], rfl⟩
      · exact ⟨[deleted 7], rfl⟩
      · exact ⟨[], rfl⟩
    exact inRange_sampleLog.mono hlog
  untagged := by
    intro rows hrows r hr
    refine forall_sampleLog (P := fun r => MembersUntagged (bare r).values) ?_ ?_ ?_ r
      (mem_sample hrows hr)
    · exact ⟨trivial, trivial⟩
    · exact ⟨trivial, trivial⟩
    · exact ⟨trivial, trivial⟩
  persists := fun _ _ => rfl
  readable := by
    intro n hn rows hrows r hr
    refine forall_sampleLog (P := fun r => Readable (key sampleSettings r)) ?_ ?_ ?_ r
      (mem_sample hrows hr)
    · exact ⟨by decide, by decide⟩
    · exact ⟨by decide, by decide⟩
    · exact ⟨by decide, by decide⟩

/-- One row is left. -/
theorem relation_of_sample :
    Permitted sampleSettings sampleEvents ∧
      ∃ job lines, run sampleSettings {} sampleEvents = .ok job ∧
        (flush sampleSettings job.sink .ready).2 = .ok (some lines) ∧
        lines.Perm ((relation sampleSettings (({} : History Sample).after sampleEvents).log).map
          (rowLine Sample.text noDecimals [] .null)) :=
  ⟨permitted_sample,
    flush_writes_relation Sample.text_lawful (fun _ _ _ => rfl) sampleEvents permitted_sample⟩

/-- A row inserted twice has count two and one line. -/
theorem duplicate_written_once :
    Permitted sampleSettings [.batch [inserted 7, inserted 7]] ∧
      netCount sampleSettings [inserted 7, inserted 7] (key sampleSettings (inserted 7)) = 2 ∧
      ∃ job, run sampleSettings {} [.batch [inserted 7, inserted 7]] = .ok job ∧
        (flush sampleSettings job.sink .ready).2 =
          .ok (some [rowLine Sample.text noDecimals [] .null (inserted 7)]) ∧
        ¬ [rowLine Sample.text noDecimals [] .null (inserted 7)].Perm
          ((distinctRows sampleSettings [inserted 7, inserted 7]).flatMap fun r =>
            List.replicate
              (netCount sampleSettings [inserted 7, inserted 7] (rowText Sample.text r)).toNat
              (rowLine Sample.text noDecimals [] .null r)) := by
  have hrows : ∀ r ∈ [inserted 7, inserted 7], r = inserted 7 := by
    intro r hr
    simp only [List.mem_cons, List.not_mem_nil, or_false, or_self] at hr
    exact hr
  have hrange : InRange sampleSettings [inserted 7, inserted 7] :=
    inRange_of_inserts (fun r hr => hrows r hr ▸ rfl) (by decide)
  have hbatch : ∀ rows, Event.batch rows ∈ [Event.batch [inserted 7, inserted 7]] →
      rows = [inserted 7, inserted 7] :=
    fun rows hmem => Event.batch.inj (List.mem_singleton.mp hmem)
  refine ⟨⟨?_, ?_, fun _ _ => rfl, ?_⟩, by decide, _, rfl, rfl, ?_⟩
  · intro pre hpre
    rcases List.prefix_cons_iff.mp hpre with rfl | ⟨rest, rfl, hrest⟩
    · exact inRange_nil sampleSettings
    · rw [List.prefix_nil.mp hrest]
      exact hrange
  · intro rows hmem r hr
    rw [hbatch rows hmem] at hr
    rw [hrows r hr]
    exact ⟨trivial, trivial⟩
  · intro n hn
    exact absurd (List.mem_singleton.mp hn) (by simp)
  · intro hperm
    exact absurd hperm.length_eq (by decide)

end Clink.Ports.ChangelogNetSink

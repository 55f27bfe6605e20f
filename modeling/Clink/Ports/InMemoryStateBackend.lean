import Clink.Ports.KeyGroups
import Clink.Verified.RecordCodec
import Clink.Verified.SortedMap
import Clink.Verified.Table

/-!
# The in-memory state backend

The embedding of `include/clink/state/in_memory_state_backend.hpp` and
`src/state/in_memory_state_backend.cpp`.  All state is a table of operators'
rows; `stageOperatorRows` pins a copy of one operator's rows for a
checkpoint, and `snapshot` writes the pinned copies in place of the live
rows of their operators.  A restore folds the rows of a snapshot into an empty
table: keyed rows outside the key-group range are dropped, and an operator-state
row met twice keeps the greater of two 8-byte offsets.

Arrow's IPC writer and reader are a parameter, `ArrowStream`: what they write
they read back, and a stream starts with Arrow's continuation marker.

`snapshotRows_at` says what a snapshot holds at one row, `restore_write` what
a restore makes of the rows of a stream, and `restore_snapshot` puts the two
together.
-/

namespace Clink.Ports.InMemoryStateBackend

open Clink.Verified
open Clink.Ports.KeyGroups (KeyGroup numKeyGroups)

abbrev Bytes := List UInt8
abbrev Key := Bytes
abbrev Value := Bytes

/-- The rows of one operator. -/
abbrev PerOp := AList fun _ : Key => Value

/-- One row of the snapshot schema: `op_id`, `key_bytes`, `value_bytes`. -/
abbrev SnapshotRow := Nat × Key × Value

/-- Arrow's IPC stream writer and reader, for the rows of one schema. -/
structure ArrowStream (Row : Type) where
  write : List Row → Bytes
  read : Bytes → Option (List Row)
  read_write : ∀ rows, read (write rows) = some rows
  /-- Every stream starts with the continuation marker. -/
  marker : ∀ rows, ∃ rest, write rows = 0xFF :: 0xFF :: 0xFF :: 0xFF :: rest

theorem ArrowStream.write_ne_nil {Row : Type} (ipc : ArrowStream Row) (rows : List Row) :
    ipc.write rows ≠ [] := by
  obtain ⟨rest, h⟩ := ipc.marker rows
  rw [h]
  exact List.cons_ne_nil _ _

/-- A writer that keeps the contract: the marker, then each row as a record. -/
def ArrowStream.records {Row : Type} (fields : Row → List Bytes)
    (row : List Bytes → Option Row) (hrow : ∀ r, row (fields r) = some r) : ArrowStream Row where
  write rows := [0xFF, 0xFF, 0xFF, 0xFF] ++ encodeRecords (rows.map fields)
  read bytes := (decodeRecords [] [] [] (bytes.drop 4)).bind (List.mapM row)
  read_write rows := by
    have hdrop : ∀ tail : Bytes, ([0xFF, 0xFF, 0xFF, 0xFF] ++ tail).drop 4 = tail := fun _ => rfl
    rw [hdrop, decodeRecords_encodeRecords, List.nil_append, Option.bind_some]
    induction rows with
    | nil => rfl
    | cons r rest ih =>
        rw [List.map_cons, List.mapM_cons, hrow, ih]
        rfl
  marker rows := ⟨encodeRecords (rows.map fields), rfl⟩

/-- The fields of a snapshot row, the operator in unary. -/
def snapshotRecords : ArrowStream SnapshotRow :=
  .records (fun row => [List.replicate row.1 0, row.2.1, row.2.2])
    (fun
      | [op, key, value] => some (op.length, key, value)
      | _ => none)
    (fun row => by simp)

structure Snapshot where
  checkpointId : Nat
  bytes : Bytes
  deriving DecidableEq

/-- The key groups a restore keeps, `[first, last)`. -/
structure KeyGroupRange where
  first : KeyGroup := 0
  last : KeyGroup := numKeyGroups
  deriving DecidableEq

def KeyGroupRange.coversAll (r : KeyGroupRange) : Bool := r.first = 0 && r.last = numKeyGroups

def KeyGroupRange.contains (r : KeyGroupRange) (g : KeyGroup) : Bool := r.first ≤ g && g < r.last

structure Backend where
  state : Table Nat Key Value := ∅
  /-- The pinned rows, by checkpoint and operator. -/
  staged : SortedMap Nat (AList fun _ : Nat => PerOp) := .empty

def Backend.get (b : Backend) (op : Nat) (key : Key) : Option Value := b.state.get op key

def Backend.put (b : Backend) (op : Nat) (key : Key) (value : Value) : Backend :=
  { b with state := b.state.put op key value }

def Backend.erase (b : Backend) (op : Nat) (key : Key) : Backend :=
  { b with state := b.state.erase op key }

/-- The rows of an operator, in the order the table keeps them. -/
def Backend.rows (b : Backend) (op : Nat) : List (Key × Value) :=
  ((b.state.lookup op).getD ∅).entries.map fun e => (e.1, e.2)

/-- Pin the operator's rows for the checkpoint; an operator with no rows
pins an empty copy. -/
def Backend.stageOperatorRows (b : Backend) (op id : Nat) : Backend :=
  { b with staged := b.staged.upsert id fun ops =>
      (ops.getD ∅).insert op ((b.state.lookup op).getD ∅) }

/-! ## Snapshots -/

/-- The rows pinned for an operator at a checkpoint, else its live ones. -/
def rowsFor (stagedOps : Option (AList fun _ : Nat => PerOp)) (op : Nat) (live : PerOp) : PerOp :=
  ((stagedOps.bind (AList.lookup op)).getD live)

/-- What a snapshot writes: the operators of the table, then the operators
that are only staged. -/
def Backend.snapshotSections (b : Backend) (id : Nat) : List (Σ _ : Nat, PerOp) :=
  let stagedOps := b.staged.find? id
  b.state.entries.map (fun e => ⟨e.1, rowsFor stagedOps e.1 e.2⟩) ++
    (stagedOps.getD ∅).entries.filter fun e => e.1 ∉ b.state

/-- The snapshot of a checkpoint uses up what is staged at or below it. -/
def Backend.snapshot (ipc : ArrowStream SnapshotRow) (b : Backend) (id : Nat) :
    Backend × Snapshot :=
  ({ b with staged := b.staged.above id }, ⟨id, ipc.write (sectionRows (b.snapshotSections id))⟩)

/-! ## Restore -/

/-- An exactly 8-byte little-endian value as a signed 64-bit integer. -/
def asOffsetI64 (v : Value) : Option Int64 :=
  if v.length = 8 then
    some ((List.range 8).foldl
      (fun u i => u ||| ((v.getD i 0).toUInt64 <<< (i * 8).toUInt64)) 0).toInt64
  else none

/-- A keyed row whose group lies outside the range. -/
def outOfRange (kgFilter : KeyGroupRange) : Key → Bool
  | [] => false
  | b :: _ => !kgFilter.coversAll && b.toUInt16 < numKeyGroups && !kgFilter.contains b.toUInt16

/-- A row under the reserved prefix byte of operator state. -/
def isOperatorState : Key → Bool
  | [] => false
  | b :: _ => numKeyGroups ≤ b.toUInt16

/-- The entry already there is an offset at least as far as the incoming one. -/
def atLeastAsAdvanced (existing : Option Value) (val : Value) : Bool :=
  match existing.bind asOffsetI64, asOffsetI64 val with
  | some cur, some inc => inc ≤ cur
  | _, _ => false

/-- One row of the snapshot, into the table being restored. -/
def restoreRow (kgFilter : KeyGroupRange) (t : Table Nat Key Value) (row : SnapshotRow) :
    Table Nat Key Value :=
  let (op, key, val) := row
  if outOfRange kgFilter key then t
  else if isOperatorState key && atLeastAsAdvanced (t.get op key) val then t
  else t.put op key val

/-- Everything the backend held is dropped, then the rows are read; `none`
when Arrow cannot read the stream. -/
def restore (ipc : ArrowStream SnapshotRow) (snap : Snapshot) (kgFilter : KeyGroupRange) :
    Option Backend :=
  if snap.bytes = [] then some {}
  else
    match ipc.read snap.bytes with
    | none => none
    | some rows => some { state := rows.foldl (restoreRow kgFilter) ∅ }

/-- The batches of every non-empty part, in one stream. -/
def mergeSnapshotBytes (ipc : ArrowStream SnapshotRow) (parts : List Bytes) : Option Bytes :=
  ((parts.filter (· ≠ [])).mapM ipc.read).map fun batches => ipc.write batches.flatten

def combineSnapshots (ipc : ArrowStream SnapshotRow) : List Snapshot → Option Snapshot
  | [] => some ⟨0, []⟩
  | [part] => some part
  | part :: parts =>
      (mergeSnapshotBytes ipc ((part :: parts).map Snapshot.bytes)).map
        fun bytes => ⟨part.checkpointId, bytes⟩

/-! ## What a snapshot holds -/

/-- The row a snapshot of the checkpoint holds: the pinned one when its
operator is staged for it, the live one otherwise. -/
def Backend.pinned (b : Backend) (id op : Nat) (key : Key) : Option Value :=
  match (b.staged.find? id).bind (AList.lookup op) with
  | some rows => rows.lookup key
  | none => b.get op key

/-- With nothing pinned for the checkpoint every row is the live one. -/
theorem pinned_unstaged {b : Backend} {id : Nat} (h : b.staged.find? id = none) (op : Nat)
    (key : Key) : b.pinned id op key = b.get op key := by
  unfold Backend.pinned
  rw [h]
  rfl

theorem get_put (b : Backend) (op op' : Nat) (key key' : Key) (value : Value) :
    (b.put op key value).get op' key' =
      if op = op' ∧ key = key' then some value else b.get op' key' :=
  Table.get_put b.state op op' key key' value

theorem get_erase (b : Backend) (op op' : Nat) (key key' : Key) :
    (b.erase op key).get op' key' = if op = op' ∧ key = key' then none else b.get op' key' :=
  Table.get_erase b.state op op' key key'

theorem mem_rows {b : Backend} {op : Nat} {key : Key} {value : Value} :
    (key, value) ∈ b.rows op ↔ b.get op key = some value := by
  unfold Backend.rows Backend.get Table.get
  cases hop : b.state.lookup op with
  | none => simp
  | some rows =>
      rw [Option.getD_some, Option.bind_some, List.mem_map]
      constructor
      · rintro ⟨e, he, heq⟩
        obtain ⟨rfl, rfl⟩ := Prod.mk.inj heq
        exact AList.mem_lookup_iff.mpr he
      · intro hfind
        exact ⟨⟨key, value⟩, AList.mem_lookup_iff.mp hfind, rfl⟩

theorem nodup_rows (b : Backend) (op : Nat) : ((b.rows op).map Prod.fst).Nodup := by
  unfold Backend.rows
  rw [List.map_map]
  exact ((b.state.lookup op).getD ∅).nodupKeys

/-- Replacing the sections' rows leaves the owners as they were. -/
theorem keys_map_rows (stagedOps : Option (AList fun _ : Nat => PerOp))
    (l : List (Σ _ : Nat, PerOp)) :
    (l.map fun e => (⟨e.1, rowsFor stagedOps e.1 e.2⟩ : Σ _ : Nat, PerOp)).keys = l.keys := by
  unfold List.keys
  rw [List.map_map]
  rfl

private theorem snapshotSections_nodup (b : Backend) (id : Nat) :
    (b.snapshotSections id).NodupKeys := by
  unfold Backend.snapshotSections List.NodupKeys
  have hstaged :
      ((((b.staged.find? id).getD ∅).entries.filter fun e => e.1 ∉ b.state).keys).Nodup :=
    ((b.staged.find? id).getD ∅).nodupKeys.sublist List.filter_sublist
  unfold List.keys at hstaged ⊢
  rw [List.map_append, List.nodup_append]
  refine ⟨?_, hstaged, ?_⟩
  · have hkeys := keys_map_rows (b.staged.find? id) b.state.entries
    unfold List.keys at hkeys
    rw [hkeys]
    exact b.state.nodupKeys
  · intro op hlive op' honly heq
    subst heq
    obtain ⟨e, he, rfl⟩ := List.mem_map.mp hlive
    obtain ⟨e₀, he₀, rfl⟩ := List.mem_map.mp he
    obtain ⟨e', he', hop⟩ := List.mem_map.mp honly
    have hnot := (List.mem_filter.mp he').2
    rw [hop] at hnot
    have hmem : e₀.1 ∈ b.state := AList.mem_keys.mpr (List.mem_keys_of_mem he₀)
    simp [hmem] at hnot

/-- Leaving out the owners of a table keeps the sections of every other. -/
theorem dlookup_filter_notMem {t : Table Nat Key Value} {op : Nat} (hop : op ∉ t)
    (l : List (Σ _ : Nat, PerOp)) :
    (l.filter fun e => e.1 ∉ t).dlookup op = l.dlookup op := by
  induction l with
  | nil => rfl
  | cons e rest ih =>
      obtain ⟨op', rows⟩ := e
      rw [List.filter_cons]
      by_cases h : op = op'
      · subst h
        rw [if_pos (by simpa using hop), List.dlookup_cons_eq, List.dlookup_cons_eq]
      · rw [List.dlookup_cons_ne rest ⟨op', rows⟩ h]
        split
        · rw [List.dlookup_cons_ne (rest.filter fun e => e.1 ∉ t) ⟨op', rows⟩ h, ih]
        · exact ih

private theorem snapshotSections_section (b : Backend) (id op : Nat) (key : Key) :
    ((b.snapshotSections id).dlookup op).bind (AList.lookup key) = b.pinned id op key := by
  unfold Backend.snapshotSections Backend.pinned Backend.get Table.get
  rw [List.dlookup_append]
  have hlive : (b.state.entries.map fun e =>
        (⟨e.1, rowsFor (b.staged.find? id) e.1 e.2⟩ : Σ _ : Nat, PerOp)).dlookup op =
      (b.state.lookup op).map (rowsFor (b.staged.find? id) op) :=
    List.dlookup_map₂ (f := fun op rows => rowsFor (b.staged.find? id) op rows) op
  rw [hlive]
  cases hop : b.state.lookup op with
  | some live =>
      unfold rowsFor
      cases (b.staged.find? id).bind (AList.lookup op) <;> rfl
  | none =>
      rw [dlookup_filter_notMem (AList.lookup_eq_none.mp hop)]
      cases b.staged.find? id with
      | none => rfl
      | some ops =>
          change (ops.lookup op).bind (AList.lookup key) = _
          rw [Option.bind_some]
          cases ops.lookup op <;> rfl

/-- A snapshot holds one row at a place, the pinned or live one. -/
theorem snapshotRows_at (b : Backend) (id op : Nat) (key : Key) :
    rowsAt (sectionRows (b.snapshotSections id)) op key =
      ((b.pinned id op key).map fun v => (op, key, v)).toList := by
  rw [sectionRows_at op key (snapshotSections_nodup b id), snapshotSections_section]

/-! ## What a restore makes of rows -/

/-- One row of the snapshot, at its own place. -/
def restoreValue (kgFilter : KeyGroupRange) (cur : Option Value) (row : SnapshotRow) :
    Option Value :=
  if outOfRange kgFilter row.2.1 then cur
  else if isOperatorState row.2.1 && atLeastAsAdvanced cur row.2.2 then cur
  else some row.2.2

private theorem get_restoreRow (kgFilter : KeyGroupRange) (t : Table Nat Key Value)
    (row : SnapshotRow) (op : Nat) (key : Key) :
    (restoreRow kgFilter t row).get op key =
      if (row.1, row.2.1) = (op, key) then restoreValue kgFilter (t.get op key) row
      else t.get op key := by
  obtain ⟨op', key', val⟩ := row
  unfold restoreRow restoreValue
  simp only [Prod.mk.injEq]
  by_cases hplace : op' = op ∧ key' = key
  · obtain ⟨rfl, rfl⟩ := hplace
    simp only [and_self, if_true]
    split
    · rfl
    · split
      · rfl
      · simp [Table.get_put]
  · rw [if_neg hplace]
    split
    · rfl
    · split
      · rfl
      · rw [Table.get_put, if_neg hplace]

/-- The restored row at a place is the fold of the rows at that place. -/
theorem get_restoreRows (kgFilter : KeyGroupRange) (rows : List SnapshotRow) (op : Nat)
    (key : Key) :
    Table.get (rows.foldl (restoreRow kgFilter) ∅) op key =
      (rowsAt rows op key).foldl (restoreValue kgFilter) none := by
  have hfold := foldl_at (fun (t : Table Nat Key Value) (p : Nat × Key) => t.get p.1 p.2)
    (fun row : SnapshotRow => (row.1, row.2.1)) (restoreRow kgFilter) (restoreValue kgFilter)
    (fun t row p => get_restoreRow kgFilter t row p.1 p.2) rows ∅ (op, key)
  unfold rowsAt
  simpa only [Prod.mk.injEq, Table.get_empty] using hfold

/-- Reading a written stream back restores its rows. -/
theorem restore_write (ipc : ArrowStream SnapshotRow) (id : Nat) (rows : List SnapshotRow)
    (kgFilter : KeyGroupRange) :
    restore ipc ⟨id, ipc.write rows⟩ kgFilter =
      some { state := rows.foldl (restoreRow kgFilter) ∅ } := by
  unfold restore
  rw [if_neg (ipc.write_ne_nil rows), ipc.read_write]

theorem restoreValue_none (kgFilter : KeyGroupRange) (row : SnapshotRow) :
    restoreValue kgFilter none row =
      if outOfRange kgFilter row.2.1 then none else some row.2.2 := by
  unfold restoreValue atLeastAsAdvanced
  simp

@[simp] theorem outOfRange_full (key : Key) : outOfRange {} key = false := by
  cases key <;> rfl

/-- A snapshot restored over the full range is the pinned and live rows. -/
theorem restore_snapshot (ipc : ArrowStream SnapshotRow) (b : Backend) (id : Nat) :
    ∃ r, restore ipc (b.snapshot ipc id).2 {} = some r ∧
      ∀ op key, r.get op key = b.pinned id op key := by
  refine ⟨_, restore_write ipc id _ {}, ?_⟩
  intro op key
  unfold Backend.get
  rw [get_restoreRows, snapshotRows_at]
  cases b.pinned id op key with
  | none => rfl
  | some v => simp [restoreValue_none]

theorem mapM_read_write (ipc : ArrowStream SnapshotRow) (parts : List (List SnapshotRow)) :
    (parts.map ipc.write).mapM ipc.read = some parts := by
  induction parts with
  | nil => rfl
  | cons rows rest ih =>
      rw [List.map_cons, List.mapM_cons, ipc.read_write, ih]
      rfl

theorem mergeSnapshotBytes_write (ipc : ArrowStream SnapshotRow)
    (parts : List (List SnapshotRow)) :
    mergeSnapshotBytes ipc (parts.map ipc.write) = some (ipc.write parts.flatten) := by
  have hall : (parts.map ipc.write).filter (· ≠ []) = parts.map ipc.write := by
    rw [List.filter_eq_self]
    intro bytes hbytes
    obtain ⟨rows, -, rfl⟩ := List.mem_map.mp hbytes
    simpa using ipc.write_ne_nil rows
  unfold mergeSnapshotBytes
  rw [hall, mapM_read_write]
  rfl

end Clink.Ports.InMemoryStateBackend

import Clink.Verified.Run
import Clink.Ports.InMemoryStateBackend

/-!
# The sharded in-memory state backend

The embedding of `include/clink/state/sharded_in_memory_state_backend.hpp`:
sixteen in-memory backends, a row in the one its key's leading byte names.  A
snapshot merges the shards' snapshots into one stream; a restore goes through a
plain backend and puts its rows into the shards there are.  The stamps of a
snapshot (the state versions) travel in the stream's schema metadata, so the
plain backend is taken here with its stamps.

Both backends are driven by the same calls (`System.step`), and
`sharded_agrees_iff` says along which histories nobody can tell them apart.
The shards know nothing of `stage_operator_rows`, which the sharded backend
inherits as a call that does nothing, and a restore does not empty them.
-/

namespace Clink.Ports.ShardedInMemoryStateBackend

open Clink.Verified
open Clink.Ports.KeyGroups (numKeyGroups)
open Clink.Ports.InMemoryStateBackend (Backend Bytes Key Value Snapshot SnapshotRow KeyGroupRange
  restoreRow restoreValue outOfRange)

/-! ## The plain backend with its stamps -/

/-- Arrow's IPC streams of snapshot rows, with the metadata of their schema. -/
structure SchemaStream (Meta : Type) where
  write : Meta → List SnapshotRow → Bytes
  read : Bytes → Option (Meta × List SnapshotRow)
  read_write : ∀ stamp rows, read (write stamp rows) = some (stamp, rows)
  write_ne_nil : ∀ stamp rows, write stamp rows ≠ []

/-- The streams, and how a `StateVersionMap` is packed into their metadata. -/
structure Platform (Versions Meta : Type) where
  stream : SchemaStream Meta
  noVersions : Versions
  pack : Versions → Meta
  unpack : Meta → Versions
  /-- The metadata of the bare canonical schema. -/
  bare : Meta

/-- `InMemoryStateBackend`. -/
structure Mono (Versions : Type) where
  rows : Backend := {}
  versions : Versions

variable {Versions Meta : Type}

namespace Mono

variable (P : Platform Versions Meta) (m : Mono Versions)

def fresh : Mono Versions := { versions := P.noVersions }

def get (op : Nat) (key : Key) : Option Value := m.rows.get op key

def put (op : Nat) (key : Key) (value : Value) : Mono Versions :=
  { m with rows := m.rows.put op key value }

def erase (op : Nat) (key : Key) : Mono Versions := { m with rows := m.rows.erase op key }

def scan (op : Nat) : List (Key × Value) := m.rows.rows op

def operatorIds : List Nat := m.rows.state.entries.map Sigma.fst

def stageOperatorRows (op id : Nat) : Mono Versions :=
  { m with rows := m.rows.stageOperatorRows op id }

def setStateVersions (versions : Versions) : Mono Versions := { m with versions }

def snapshot (id : Nat) : Mono Versions × Snapshot :=
  ({ m with rows := { m.rows with staged := m.rows.staged.above id } },
    ⟨id, P.stream.write (P.pack m.versions) (sectionRows (m.rows.snapshotSections id))⟩)

/-- Everything the backend held is dropped; `none` when the stream cannot be read. -/
def restore (snap : Snapshot) (kgFilter : KeyGroupRange) : Option (Mono Versions) :=
  if snap.bytes = [] then some (fresh P)
  else
    match P.stream.read snap.bytes with
    | none => none
    | some (stamp, rows) =>
        some ⟨{ state := rows.foldl (restoreRow kgFilter) ∅ }, P.unpack stamp⟩

end Mono

/-- The batches of every non-empty part in one stream, under the schema of the
first of them. -/
def mergeSnapshotBytes (P : Platform Versions Meta) (parts : List Bytes) : Option Bytes :=
  ((parts.filter (· ≠ [])).mapM P.stream.read).map fun batches =>
    P.stream.write ((batches.head?.map Prod.fst).getD P.bare) (batches.flatMap Prod.snd)

/-! ## The sharded backend -/

abbrev numShards : Nat := 16

/-- The leading byte when it is a key group, else shard 0. -/
def shardIndex : Key → Fin numShards
  | [] => 0
  | leading :: _ =>
      if leading.toUInt16 < numKeyGroups then ⟨leading.toNat % numShards, Nat.mod_lt _ (by decide)⟩
      else 0

structure Sharded (Versions : Type) where
  shards : Fin numShards → Mono Versions

namespace Sharded

variable (P : Platform Versions Meta) (s : Sharded Versions)

def fresh : Sharded Versions := ⟨fun _ => .fresh P⟩

/-- One shard replaced. -/
def setShard (i : Fin numShards) (m : Mono Versions) : Sharded Versions :=
  ⟨Function.update s.shards i m⟩

def put (op : Nat) (key : Key) (value : Value) : Sharded Versions :=
  s.setShard (shardIndex key) ((s.shards (shardIndex key)).put op key value)

def get (op : Nat) (key : Key) : Option Value := (s.shards (shardIndex key)).get op key

def erase (op : Nat) (key : Key) : Sharded Versions :=
  s.setShard (shardIndex key) ((s.shards (shardIndex key)).erase op key)

def scan (op : Nat) : List (Key × Value) :=
  (List.finRange numShards).flatMap fun i => (s.shards i).scan op

/-- Inherited from `StateBackend`, where it does nothing. -/
def stageOperatorRows (_op _id : Nat) : Sharded Versions := s

def setStateVersions (versions : Versions) : Sharded Versions :=
  ⟨fun i => (s.shards i).setStateVersions versions⟩

def restoredStateVersions : Versions := (s.shards 0).versions

def snapshot (id : Nat) : Option (Sharded Versions × Snapshot) :=
  let blobs := (List.finRange numShards).map fun i => ((s.shards i).snapshot P id).2.bytes
  (mergeSnapshotBytes P blobs).map fun bytes =>
    (⟨fun i => ((s.shards i).snapshot P id).1⟩, ⟨id, bytes⟩)

/-- The rows of a plain backend, put where they belong. -/
def redistribute (tmp : Mono Versions) : Sharded Versions :=
  (tmp.operatorIds.flatMap fun op => (tmp.scan op).map fun row => (op, row)).foldl
    (fun s row => s.put row.1 row.2.1 row.2.2) s

def restore (snap : Snapshot) (kgFilter : KeyGroupRange) : Option (Sharded Versions) :=
  match Mono.restore P snap kgFilter with
  | none => none
  | some tmp => some ((s.setStateVersions tmp.versions).redistribute tmp)

end Sharded

/-! ## Operator state

The base class keeps operator state in rows under a reserved leading byte.
-/

def operatorStateKeyPrefix : UInt8 := 0xFF

/-- The prefixed row, else the row of a checkpoint from before the prefix. -/
def getOperatorState (get : Nat → Key → Option Value) (op : Nat) (key : Key) : Option Value :=
  (get op (operatorStateKeyPrefix :: key)).or (get op key)

def scanOperatorState (rows : List (Key × Value)) : List (Key × Value) :=
  rows.filterMap fun row =>
    match row.1 with
    | [] => none
    | leading :: key => if leading = operatorStateKeyPrefix then some (key, row.2) else none

/-! ## Both backends under the same calls -/

inductive Call (Versions : Type) where
  | put (op : Nat) (key : Key) (value : Value)
  | erase (op : Nat) (key : Key)
  | putOperatorState (op : Nat) (key : Key) (value : Value)
  | stageOperatorRows (op id : Nat)
  | setStateVersions (versions : Versions)
  | snapshot (id : Nat)
  /-- The `i`-th snapshot taken, of the plain or of the sharded backend. -/
  | restore (i : Nat) (ofSharded : Bool) (kgFilter : KeyGroupRange)

/-- The snapshots of one checkpoint, and the rows it should hold: the staged
ones of a staged operator, the live ones otherwise. -/
structure Taken where
  mono : Snapshot
  sharded : Snapshot
  due : Nat → Key → Option Value

structure System (Versions : Type) where
  mono : Mono Versions
  sharded : Sharded Versions
  taken : List Taken := []

namespace System

variable (P : Platform Versions Meta) (s : System Versions)

def fresh : System Versions := { mono := .fresh P, sharded := .fresh P }

/-- No call throws (`Mirrored.step` finds every result); the alternatives are
only there to make the step a function. -/
def step : Call Versions → System Versions
  | .put op key value =>
      { s with mono := s.mono.put op key value, sharded := s.sharded.put op key value }
  | .erase op key => { s with mono := s.mono.erase op key, sharded := s.sharded.erase op key }
  | .putOperatorState op key value =>
      { s with
        mono := s.mono.put op (operatorStateKeyPrefix :: key) value
        sharded := s.sharded.put op (operatorStateKeyPrefix :: key) value }
  | .stageOperatorRows op id =>
      { s with
        mono := s.mono.stageOperatorRows op id
        sharded := s.sharded.stageOperatorRows op id }
  | .setStateVersions versions =>
      { s with
        mono := s.mono.setStateVersions versions
        sharded := s.sharded.setStateVersions versions }
  | .snapshot id =>
      match s.sharded.snapshot P id with
      | none => s
      | some (sharded, snap) =>
          { mono := (s.mono.snapshot P id).1
            sharded
            taken := s.taken ++ [⟨(s.mono.snapshot P id).2, snap, s.mono.rows.pinned id⟩] }
  | .restore i ofSharded kgFilter =>
      match s.taken[i]? with
      | none => s
      | some t =>
          let snap := if ofSharded then t.sharded else t.mono
          { s with
            mono := (Mono.restore P snap kgFilter).getD s.mono
            sharded := (s.sharded.restore P snap kgFilter).getD s.sharded }

end System

/-! ## What is asked of the two -/

/-- A snapshot restores, into a plain backend and into an empty sharded one, to
the rows due in the range and to the stamps it was taken with. -/
def RestoresTo (P : Platform Versions Meta) (snap : Snapshot) (due : Nat → Key → Option Value)
    (versions : Versions) : Prop :=
  ∀ kgFilter, ∃ m c, Mono.restore P snap kgFilter = some m ∧
    Sharded.restore P (.fresh P) snap kgFilter = some c ∧
    (∀ op key, m.get op key = (if outOfRange kgFilter key then none else due op key) ∧
      c.get op key = m.get op key) ∧
    m.versions = versions ∧ c.restoredStateVersions = versions

/-- Both snapshots of a checkpoint restore to the rows due and to the same stamps. -/
def SameSnapshots (P : Platform Versions Meta) (t : Taken) : Prop :=
  ∃ versions, RestoresTo P t.mono t.due versions ∧ RestoresTo P t.sharded t.due versions

structure Agrees (P : Platform Versions Meta) (s : System Versions) : Prop where
  get : ∀ op key, s.sharded.get op key = s.mono.get op key
  scan : ∀ op, (s.sharded.scan op).Perm (s.mono.scan op)
  getOperatorState : ∀ op key,
    getOperatorState s.sharded.get op key = getOperatorState s.mono.get op key
  scanOperatorState : ∀ op,
    (scanOperatorState (s.sharded.scan op)).Perm (scanOperatorState (s.mono.scan op))
  versions : s.sharded.restoredStateVersions = s.mono.versions
  snapshots : ∀ t ∈ s.taken, SameSnapshots P t

/-- A snapshot is taken where the staged rows are still the live ones, and a
restore finds no row that it does not restore. -/
def System.Keeps (s : System Versions) : Call Versions → Prop
  | .snapshot id => ∀ op key, s.mono.rows.pinned id op key = s.mono.get op key
  | .restore i _ kgFilter => ∀ t, s.taken[i]? = some t → ∀ op key,
      (s.mono.get op key).isSome → (t.due op key).isSome ∧ outOfRange kgFilter key = false
  | _ => True

/-! ## Rows in their shards -/

/-- Every row is in the shard its key names, nothing is staged in a shard, and
all have the same stamps. -/
structure Sharded.Plain (s : Sharded Versions) (versions : Versions) : Prop where
  homed : ∀ i op key, ((s.shards i).get op key).isSome → shardIndex key = i
  unstaged : ∀ i, (s.shards i).rows.staged = .empty
  stamps : ∀ i, (s.shards i).versions = versions

section Shards
variable {s : Sharded Versions} {versions : Versions}

theorem shards_setShard (s : Sharded Versions) (i j : Fin numShards) (m : Mono Versions) :
    (s.setShard i m).shards j = if j = i then m else s.shards j :=
  Function.update_apply ..

/-- Changing the shard of one key changes what is read under that key only. -/
private theorem get_setShard (s : Sharded Versions) {m : Mono Versions} {op op' : Nat}
    {key key' : Key} {change : Option Value}
    (hshard : m.get op' key' = if op = op' ∧ key = key' then change
      else (s.shards (shardIndex key)).get op' key') :
    (s.setShard (shardIndex key) m).get op' key' =
      if op = op' ∧ key = key' then change else s.get op' key' := by
  unfold Sharded.get
  rw [shards_setShard]
  by_cases hsame : shardIndex key' = shardIndex key
  · rw [if_pos hsame, hsame]
    exact hshard
  · rw [if_neg hsame, if_neg]
    rintro ⟨-, rfl⟩
    exact hsame rfl

theorem get_put (s : Sharded Versions) (op op' : Nat) (key key' : Key) (value : Value) :
    (s.put op key value).get op' key' =
      if op = op' ∧ key = key' then some value else s.get op' key' :=
  get_setShard s (InMemoryStateBackend.get_put _ op op' key key' value)

theorem get_erase (s : Sharded Versions) (op op' : Nat) (key key' : Key) :
    (s.erase op key).get op' key' =
      if op = op' ∧ key = key' then none else s.get op' key' :=
  get_setShard s (InMemoryStateBackend.get_erase _ op op' key key')

section

variable (h : s.Plain versions)
include h

/-- A shard may be replaced by one with rows of its own keys. -/
theorem Sharded.Plain.setShard {i : Fin numShards} {m : Mono Versions}
    (hrows : ∀ op key, (m.get op key).isSome → shardIndex key = i)
    (hstaged : m.rows.staged = .empty) (hstamps : m.versions = versions) :
    (s.setShard i m).Plain versions := by
  constructor
  · intro j op key hsome
    rw [shards_setShard] at hsome
    by_cases hj : j = i
    · rw [if_pos hj] at hsome
      rw [hj]
      exact hrows op key hsome
    · rw [if_neg hj] at hsome
      exact h.homed j op key hsome
  · intro j
    rw [shards_setShard]
    split
    · exact hstaged
    · exact h.unstaged j
  · intro j
    rw [shards_setShard]
    split
    · exact hstamps
    · exact h.stamps j

theorem Sharded.Plain.put (op : Nat) (key : Key) (value : Value) :
    (s.put op key value).Plain versions := by
  refine h.setShard ?_ (h.unstaged _) (h.stamps _)
  intro op' key' hsome
  unfold Mono.get Mono.put at hsome
  rw [InMemoryStateBackend.get_put] at hsome
  by_cases hrow : op = op' ∧ key = key'
  · rw [hrow.2]
  · rw [if_neg hrow] at hsome
    exact h.homed _ op' key' hsome

theorem Sharded.Plain.erase (op : Nat) (key : Key) : (s.erase op key).Plain versions := by
  refine h.setShard ?_ (h.unstaged _) (h.stamps _)
  intro op' key' hsome
  unfold Mono.get Mono.erase at hsome
  rw [InMemoryStateBackend.get_erase] at hsome
  by_cases hrow : op = op' ∧ key = key'
  · simp [hrow] at hsome
  · rw [if_neg hrow] at hsome
    exact h.homed _ op' key' hsome

theorem Sharded.Plain.get_of_ne {i : Fin numShards} {key : Key} (hi : i ≠ shardIndex key)
    (op : Nat) : (s.shards i).get op key = none := by
  cases hget : (s.shards i).get op key with
  | none => rfl
  | some v =>
      have := h.homed i op key (by rw [hget]; rfl)
      exact absurd this.symm hi

/-! ## Scans -/

theorem mem_scan {op : Nat} {key : Key} {value : Value} :
    (key, value) ∈ s.scan op ↔ s.get op key = some value := by
  unfold Sharded.scan
  rw [List.mem_flatMap]
  constructor
  · rintro ⟨i, -, hmem⟩
    have hget : (s.shards i).get op key = some value := InMemoryStateBackend.mem_rows.mp hmem
    have hi : shardIndex key = i := h.homed i op key (by rw [hget]; rfl)
    unfold Sharded.get
    rw [hi]
    exact hget
  · intro hget
    exact ⟨shardIndex key, List.mem_finRange _, InMemoryStateBackend.mem_rows.mpr hget⟩

omit h in
theorem nodup_rows (b : Backend) (op : Nat) : (b.rows op).Nodup :=
  .of_map _ (InMemoryStateBackend.nodup_rows b op)

theorem nodup_scan (op : Nat) : (s.scan op).Nodup := by
  unfold Sharded.scan
  rw [List.nodup_flatMap]
  refine ⟨fun i _ => nodup_rows _ op, ?_⟩
  refine (List.nodup_finRange numShards).imp ?_
  rintro i j hne ⟨key, value⟩ hi hj
  have hgeti : (s.shards i).get op key = some value := InMemoryStateBackend.mem_rows.mp hi
  have hgetj : (s.shards j).get op key = some value := InMemoryStateBackend.mem_rows.mp hj
  have hhi := h.homed i op key (by rw [hgeti]; rfl)
  have hhj := h.homed j op key (by rw [hgetj]; rfl)
  exact hne (hhi.symm.trans hhj)

/-- Backends with the same rows scan them in some order. -/
theorem scan_perm {m : Mono Versions} (hget : ∀ op key, s.get op key = m.get op key) (op : Nat) :
    (s.scan op).Perm (m.scan op) := by
  refine (List.perm_ext_iff_of_nodup (nodup_scan h op) (nodup_rows m.rows op)).mpr ?_
  rintro ⟨key, value⟩
  rw [mem_scan h, hget]
  exact InMemoryStateBackend.mem_rows.symm

/-! ## Restores -/

omit h in
/-- The rows a plain backend is read out in: what it holds, once. -/
theorem rows_of_operators (m : Mono Versions) (op : Nat) (key : Key) :
    rowsAt (m.operatorIds.flatMap fun op => (m.scan op).map fun row => (op, row)) op key =
      ((m.get op key).map fun v => (op, key, v)).toList := by
  have hrows : (m.operatorIds.flatMap fun op => (m.scan op).map fun row => (op, row)) =
      sectionRows m.rows.state.entries := by
    unfold Mono.operatorIds sectionRows
    rw [List.flatMap_map]
    refine List.flatMap_congr ?_
    intro e he
    have hlookup : m.rows.state.lookup e.1 = some e.2 := AList.mem_lookup_iff.mpr he
    unfold Mono.scan Backend.rows
    rw [hlookup, Option.getD_some, List.map_map]
    rfl
  rw [hrows, sectionRows_at op key m.rows.state.nodupKeys]
  rfl

omit h in
/-- A redistributed row takes the place of what the shard had, and every other
row of the shards stays. -/
theorem get_redistribute (s : Sharded Versions) (tmp : Mono Versions) (op : Nat) (key : Key) :
    (s.redistribute tmp).get op key = (tmp.get op key).or (s.get op key) := by
  have hfold := foldl_at (fun (s : Sharded Versions) (p : Nat × Key) => s.get p.1 p.2)
    (fun row : SnapshotRow => (row.1, row.2.1))
    (fun s row => s.put row.1 row.2.1 row.2.2) (fun _ row => some row.2.2)
    (fun s row p => by rw [get_put]; simp [Prod.ext_iff])
    (tmp.operatorIds.flatMap fun op => (tmp.scan op).map fun row => (op, row)) s (op, key)
  have hrows := rows_of_operators tmp op key
  unfold rowsAt at hrows
  simp only [Prod.mk.injEq] at hfold
  unfold Sharded.redistribute
  rw [hfold, hrows]
  cases tmp.get op key <;> rfl

private theorem Sharded.Plain.foldl_put (rows : List SnapshotRow) :
    (rows.foldl (fun s row => s.put row.1 row.2.1 row.2.2) s).Plain versions := by
  induction rows generalizing s with
  | nil => exact h
  | cons row rest ih => exact ih (h.put row.1 row.2.1 row.2.2)

theorem Sharded.Plain.redistribute (tmp : Mono Versions) : (s.redistribute tmp).Plain versions :=
  h.foldl_put _

theorem Sharded.Plain.setStateVersions (versions' : Versions) :
    (s.setStateVersions versions').Plain versions' :=
  ⟨h.homed, h.unstaged, fun _ => rfl⟩

end

variable {P : Platform Versions Meta}

theorem Sharded.Plain.fresh : (Sharded.fresh P).Plain P.noVersions :=
  ⟨fun i op key hsome => by simp [Sharded.fresh, Mono.fresh, Mono.get, Backend.get] at hsome,
    fun _ => rfl, fun _ => rfl⟩

/-- A restore of a written stream, into either backend. -/
theorem restore_write (stamp : Meta) (rows : List SnapshotRow) (id : Nat)
    (kgFilter : KeyGroupRange) (s : Sharded Versions) :
    ∃ m, Mono.restore P ⟨id, P.stream.write stamp rows⟩ kgFilter = some m ∧
      s.restore P ⟨id, P.stream.write stamp rows⟩ kgFilter =
        some ((s.setStateVersions m.versions).redistribute m) ∧
      m.versions = P.unpack stamp ∧ m.rows.staged = .empty ∧
      ∀ op key, m.get op key = (rowsAt rows op key).foldl (restoreValue kgFilter) none := by
  have hrestore : Mono.restore P ⟨id, P.stream.write stamp rows⟩ kgFilter =
      some ⟨{ state := rows.foldl (restoreRow kgFilter) ∅ }, P.unpack stamp⟩ := by
    unfold Mono.restore
    rw [if_neg (P.stream.write_ne_nil stamp rows), P.stream.read_write]
  refine ⟨_, hrestore, ?_, rfl, rfl, ?_⟩
  · unfold Sharded.restore
    rw [hrestore]
  · intro op key
    exact InMemoryStateBackend.get_restoreRows kgFilter rows op key

theorem restoresTo_write {stamp : Meta} {rows : List SnapshotRow} {id : Nat}
    {due : Nat → Key → Option Value}
    (hrows : ∀ op key, rowsAt rows op key = ((due op key).map fun v => (op, key, v)).toList) :
    RestoresTo P ⟨id, P.stream.write stamp rows⟩ due (P.unpack stamp) := by
  intro kgFilter
  obtain ⟨m, hm, hc, hversions, -, hget⟩ :=
    restore_write (P := P) stamp rows id kgFilter (.fresh P)
  refine ⟨m, _, hm, hc, ?_, hversions, ?_⟩
  · intro op key
    constructor
    · rw [hget, hrows]
      cases due op key with
      | none => simp
      | some v => simp [InMemoryStateBackend.restoreValue_none]
    · rw [get_redistribute]
      have hnone : ((Sharded.fresh P).setStateVersions m.versions).get op key = none := rfl
      rw [hnone, Option.or_none]
  · have hplain := ((Sharded.Plain.fresh (P := P)).setStateVersions m.versions).redistribute m
    exact (hplain.stamps 0).trans hversions

/-! ## Snapshots -/

theorem rowsAt_flatMap {ι : Type} (l : List ι) (f : ι → List SnapshotRow) (op : Nat)
    (key : Key) : rowsAt (l.flatMap f) op key = l.flatMap fun i => rowsAt (f i) op key := by
  unfold rowsAt
  rw [List.filter_flatMap]

/-- The rows of all shards, as a snapshot writes them. -/
def Sharded.snapshotRows (s : Sharded Versions) (id : Nat) : List SnapshotRow :=
  (List.finRange numShards).flatMap fun i => sectionRows ((s.shards i).rows.snapshotSections id)

/-- The shards' snapshots merge into one row at each place, the live one. -/
theorem snapshotRows_at (h : s.Plain versions) (id op : Nat) (key : Key) :
    rowsAt (s.snapshotRows id) op key = ((s.get op key).map fun v => (op, key, v)).toList := by
  have hshard : ∀ i, rowsAt (sectionRows ((s.shards i).rows.snapshotSections id)) op key =
      (((s.shards i).get op key).map fun v => (op, key, v)).toList := by
    intro i
    rw [InMemoryStateBackend.snapshotRows_at, InMemoryStateBackend.pinned_unstaged]
    · rfl
    · rw [h.unstaged]
      rfl
  unfold Sharded.snapshotRows
  rw [rowsAt_flatMap]
  simp only [hshard]
  refine flatMap_eq_of_unique (List.nodup_finRange _) (List.mem_finRange (shardIndex key)) ?_
  intro j _ hj
  rw [h.get_of_ne hj]
  rfl

private theorem mapM_read_write {ι : Type} (l : List ι) (stamp : ι → Meta)
    (rows : ι → List SnapshotRow) :
    (l.map fun i => P.stream.write (stamp i) (rows i)).mapM P.stream.read =
      some (l.map fun i => (stamp i, rows i)) := by
  induction l with
  | nil => rfl
  | cons i rest ih =>
      rw [List.map_cons, List.mapM_cons, P.stream.read_write, ih]
      rfl

theorem snapshot_eq (h : s.Plain versions) (id : Nat) :
    ∃ s', s.snapshot P id =
        some (s', ⟨id, P.stream.write (P.pack versions) (s.snapshotRows id)⟩) ∧
      s'.Plain versions ∧ ∀ op key, s'.get op key = s.get op key := by
  have hfilter : ((List.finRange numShards).map fun i =>
        ((s.shards i).snapshot P id).2.bytes).filter (· ≠ []) =
      (List.finRange numShards).map fun i => ((s.shards i).snapshot P id).2.bytes := by
    rw [List.filter_eq_self]
    intro bytes hbytes
    obtain ⟨i, -, rfl⟩ := List.mem_map.mp hbytes
    exact decide_eq_true (P.stream.write_ne_nil _ _)
  have hmerge : mergeSnapshotBytes P ((List.finRange numShards).map fun i =>
        ((s.shards i).snapshot P id).2.bytes) =
      some (P.stream.write (P.pack versions) (s.snapshotRows id)) := by
    have hread := mapM_read_write (P := P) (List.finRange numShards)
      (fun i => P.pack (s.shards i).versions)
      (fun i => sectionRows ((s.shards i).rows.snapshotSections id))
    unfold mergeSnapshotBytes
    rw [hfilter]
    change (List.mapM P.stream.read ((List.finRange numShards).map fun i =>
      P.stream.write (P.pack (s.shards i).versions)
        (sectionRows ((s.shards i).rows.snapshotSections id)))).map _ = _
    rw [hread, Option.map_some, List.flatMap_map]
    have hhead : (((List.finRange numShards).map fun i =>
        (P.pack (s.shards i).versions,
          sectionRows ((s.shards i).rows.snapshotSections id))).head?.map Prod.fst).getD P.bare =
        P.pack versions := by
      rw [← h.stamps 0]
      rfl
    rw [hhead]
    rfl
  refine ⟨⟨fun i => ((s.shards i).snapshot P id).1⟩, ?_, ⟨?_, ?_, ?_⟩, fun _ _ => rfl⟩
  · change (mergeSnapshotBytes P _).map _ = _
    rw [hmerge]
    rfl
  · exact fun i op key hsome => h.homed i op key hsome
  · intro i
    change (s.shards i).rows.staged.above id = .empty
    rw [h.unstaged]
    rfl
  · exact h.stamps

end Shards

/-! ## Both backends -/

/-- The shards hold the plain backend's rows and stamps, with nothing staged. -/
structure Mirrored (P : Platform Versions Meta) (s : System Versions) : Prop where
  plain : s.sharded.Plain s.mono.versions
  get : ∀ op key, s.sharded.get op key = s.mono.get op key
  snapshots : ∀ t ∈ s.taken, SameSnapshots P t

section Both
variable {P : Platform Versions Meta} {s : System Versions}

theorem Mirrored.agrees (h : Mirrored P s) : Agrees P s := by
  refine ⟨h.get, scan_perm h.plain h.get, ?_, ?_, h.plain.stamps 0, h.snapshots⟩
  · intro op key
    unfold ShardedInMemoryStateBackend.getOperatorState
    rw [h.get, h.get]
  · intro op
    exact (scan_perm h.plain h.get op).filterMap _

theorem Mirrored.fresh : Mirrored P (System.fresh P) :=
  ⟨.fresh, fun _ _ => rfl, fun t ht => by simp [System.fresh] at ht⟩

/-- A stamped row in both backends. -/
theorem Mirrored.put (h : Mirrored P s) (op : Nat) (key : Key) (value : Value) :
    Mirrored P { s with
      mono := s.mono.put op key value
      sharded := s.sharded.put op key value } := by
  refine ⟨h.plain.put op key value, ?_, h.snapshots⟩
  intro op' key'
  rw [get_put, h.get]
  exact (InMemoryStateBackend.get_put s.mono.rows op op' key key' value).symm

/-- The snapshots of a checkpoint: the plain one holds the rows due, the
sharded one the live rows. -/
theorem Mirrored.snapshot (h : Mirrored P s) (id : Nat) :
    ∃ sharded snap, s.sharded.snapshot P id = some (sharded, snap) ∧
      sharded.Plain s.mono.versions ∧ (∀ op key, sharded.get op key = s.mono.get op key) ∧
      RestoresTo P (s.mono.snapshot P id).2 (s.mono.rows.pinned id)
        (P.unpack (P.pack s.mono.versions)) ∧
      RestoresTo P snap s.mono.get (P.unpack (P.pack s.mono.versions)) := by
  obtain ⟨sharded, hsnap, hplain, hget⟩ := snapshot_eq (P := P) h.plain id
  refine ⟨sharded, _, hsnap, hplain, fun op key => (hget op key).trans (h.get op key), ?_, ?_⟩
  · exact restoresTo_write fun op key => InMemoryStateBackend.snapshotRows_at s.mono.rows id op key
  · refine restoresTo_write fun op key => ?_
    rw [snapshotRows_at h.plain, h.get]

theorem RestoresTo.unique {snap : Snapshot} {due due' : Nat → Key → Option Value}
    {versions versions' : Versions} (h : RestoresTo P snap due versions)
    (h' : RestoresTo P snap due' versions') (op : Nat) (key : Key) : due op key = due' op key := by
  obtain ⟨m, _, hm, -, hget, -⟩ := h {}
  obtain ⟨m', _, hm', -, hget', -⟩ := h' {}
  obtain rfl : m = m' := Option.some.inj (hm.symm.trans hm')
  have hdue := (hget op key).1
  have hdue' := (hget' op key).1
  rw [InMemoryStateBackend.outOfRange_full] at hdue hdue'
  exact hdue.symm.trans hdue'

/-- What a restore makes of both backends: the rows due in the range, in the
shards over the rows they had. -/
theorem restore_both {snap : Snapshot} {due : Nat → Key → Option Value} {versions : Versions}
    (h : RestoresTo P snap due versions) (kgFilter : KeyGroupRange) (sharded : Sharded Versions) :
    ∃ m c, Mono.restore P snap kgFilter = some m ∧ sharded.restore P snap kgFilter = some c ∧
      (∀ op key, m.get op key = if outOfRange kgFilter key then none else due op key) ∧
      (∀ op key, c.get op key = (m.get op key).or (sharded.get op key)) ∧
      ∀ old, sharded.Plain old → c.Plain m.versions := by
  obtain ⟨m, _, hm, -, hget, -⟩ := h kgFilter
  refine ⟨m, (sharded.setStateVersions m.versions).redistribute m, hm, ?_,
    fun op key => (hget op key).1, ?_, ?_⟩
  · unfold Sharded.restore
    rw [hm]
  · intro op key
    rw [get_redistribute]
    rfl
  · intro old hplain
    exact (hplain.setStateVersions m.versions).redistribute m

theorem SameSnapshots.either {t : Taken} (h : SameSnapshots P t) (ofSharded : Bool) :
    ∃ versions, RestoresTo P (if ofSharded then t.sharded else t.mono) t.due versions := by
  obtain ⟨versions, hmono, hsharded⟩ := h
  cases ofSharded with
  | true => exact ⟨versions, hsharded⟩
  | false => exact ⟨versions, hmono⟩

theorem Mirrored.restore_step (h : Mirrored P s) {i : Nat} {t : Taken}
    (ht : s.taken[i]? = some t) (ofSharded : Bool) (kgFilter : KeyGroupRange) :
    ∃ m c, s.step P (.restore i ofSharded kgFilter) = { s with mono := m, sharded := c } ∧
      (∀ op key, m.get op key = if outOfRange kgFilter key then none else t.due op key) ∧
      (∀ op key, c.get op key = (m.get op key).or (s.mono.get op key)) ∧
      c.Plain m.versions := by
  obtain ⟨versions, hrestores⟩ :=
    (h.snapshots t (List.mem_of_getElem? ht)).either ofSharded
  obtain ⟨m, c, hm, hc, hget, hover, hplain⟩ := restore_both hrestores kgFilter s.sharded
  refine ⟨m, c, ?_, hget, ?_, hplain _ h.plain⟩
  · simp only [System.step, ht, hm, hc, Option.getD_some]
  · intro op key
    rw [hover, h.get]

theorem Mirrored.step (h : Mirrored P s) {call : Call Versions} (hkeeps : s.Keeps call) :
    Mirrored P (s.step P call) := by
  cases call with
  | put op key value => exact h.put op key value
  | erase op key =>
      refine ⟨h.plain.erase op key, ?_, h.snapshots⟩
      intro op' key'
      exact (get_erase s.sharded op op' key key').trans
        (by rw [h.get]; exact (InMemoryStateBackend.get_erase s.mono.rows op op' key key').symm)
  | putOperatorState op key value => exact h.put op (operatorStateKeyPrefix :: key) value
  | stageOperatorRows op id => exact ⟨h.plain, h.get, h.snapshots⟩
  | setStateVersions versions =>
      exact ⟨h.plain.setStateVersions versions, h.get, h.snapshots⟩
  | snapshot id =>
      obtain ⟨sharded, snap, hsnap, hplain, hget, hmono, hsharded⟩ := h.snapshot id
      simp only [System.step, hsnap]
      refine ⟨hplain, hget, ?_⟩
      intro t ht
      rcases List.mem_append.mp ht with ht | ht
      · exact h.snapshots t ht
      · rw [List.mem_singleton.mp ht]
        have hdue : s.mono.rows.pinned id = s.mono.get := funext fun op => funext (hkeeps op)
        exact ⟨_, hmono, by rw [hdue]; exact hsharded⟩
  | restore i ofSharded kgFilter =>
      cases ht : s.taken[i]? with
      | none =>
          simp only [System.step, ht]
          exact h
      | some t =>
          obtain ⟨m, c, hstep, hget, hover, hplain⟩ := h.restore_step ht ofSharded kgFilter
          rw [hstep]
          refine ⟨hplain, ?_, h.snapshots⟩
          intro op key
          rw [hover]
          cases hold : s.mono.get op key with
          | none => exact Option.or_none
          | some v =>
              obtain ⟨hdue, hrange⟩ := hkeeps t ht op key (by rw [hold]; rfl)
              obtain ⟨w, hw⟩ := Option.isSome_iff_exists.mp hdue
              rw [hget, hrange, hw]
              rfl

theorem Mirrored.keeps (h : Mirrored P s) {call : Call Versions}
    (hnext : Agrees P (s.step P call)) : s.Keeps call := by
  cases call with
  | snapshot id =>
      obtain ⟨sharded, snap, hsnap, -, -, -, hsharded⟩ := h.snapshot id
      simp only [System.step, hsnap] at hnext
      obtain ⟨versions, -, hdue⟩ := hnext.snapshots
        ⟨(s.mono.snapshot P id).2, snap, s.mono.rows.pinned id⟩ (by simp)
      exact hdue.unique hsharded
  | restore i ofSharded kgFilter =>
      intro t ht op key hsome
      obtain ⟨m, c, hstep, hget, hover, -⟩ := h.restore_step ht ofSharded kgFilter
      rw [hstep] at hnext
      have hrow := hnext.get op key
      simp only [hover, hget] at hrow
      obtain ⟨v, hv⟩ := Option.isSome_iff_exists.mp hsome
      cases hrange : outOfRange kgFilter key with
      | true => simp [hrange, hv] at hrow
      | false =>
          cases hdue : t.due op key with
          | none => simp [hrange, hdue, hv] at hrow
          | some w => exact ⟨rfl, rfl⟩
  | _ => trivial

end Both

/-- From two empty backends, under any calls: the sharded backend answers as
the plain one in every state, and every snapshot of either restores into either
to the rows staged or live when it was taken and to its stamps, exactly when
every snapshot finds the staged rows unchanged and every restore finds only
rows it restores. -/
theorem sharded_agrees_iff (P : Platform Versions Meta) (calls : List (Call Versions)) :
    (∀ pre, pre <+: calls → Agrees P (pre.foldl (System.step P) (.fresh P))) ↔
      Runs.Allowed (System.step P) (fun _ s call => s.Keeps call) [] (.fresh P) calls :=
  Runs.allowed_iff_of_inv (J := Mirrored P) (fun _ h => h.agrees) (fun _ _ h hok => h.step hok)
    (fun _ _ h hnext => h.keeps hnext) .fresh

/-- Streams whose first row carries the metadata. -/
def recordStream : SchemaStream Bytes where
  write stamp rows := InMemoryStateBackend.snapshotRecords.write ((0, stamp, []) :: rows)
  read bytes :=
    match InMemoryStateBackend.snapshotRecords.read bytes with
    | some ((_, stamp, _) :: rows) => some (stamp, rows)
    | _ => none
  read_write stamp rows := by rw [InMemoryStateBackend.snapshotRecords.read_write]
  write_ne_nil stamp rows := InMemoryStateBackend.snapshotRecords.write_ne_nil _

def recordPlatform : Platform Bytes Bytes := ⟨recordStream, [], id, id, []⟩

/-- An offset is staged at the barrier of checkpoint 5 and then moves on. -/
def offsetStaged : List (Call Bytes) :=
  [.putOperatorState 1 [] [7], .stageOperatorRows 1 5, .putOperatorState 1 [] [8], .snapshot 5]

/-- The plain backend's snapshot holds the staged offset, the sharded one's the
later offset. -/
theorem sharded_ignores_staging :
    ((offsetStaged.foldl (System.step recordPlatform) (.fresh recordPlatform)).taken.map fun t =>
        ((Mono.restore recordPlatform t.mono {}).bind fun m => m.get 1 [0xFF],
          (Mono.restore recordPlatform t.sharded {}).bind fun m => m.get 1 [0xFF])) =
      [(some [7], some [8])] ∧
      ¬ Agrees recordPlatform
        (offsetStaged.foldl (System.step recordPlatform) (.fresh recordPlatform)) := by
  have hrows : ((offsetStaged.foldl (System.step recordPlatform)
      (.fresh recordPlatform)).taken.map fun t =>
        ((Mono.restore recordPlatform t.mono {}).bind fun m => m.get 1 [0xFF],
          (Mono.restore recordPlatform t.sharded {}).bind fun m => m.get 1 [0xFF])) =
      [(some [7], some [8])] := by decide +kernel
  refine ⟨hrows, ?_⟩
  intro hagrees
  obtain ⟨t, ht, hpair⟩ : ∃ t ∈ (offsetStaged.foldl (System.step recordPlatform)
      (.fresh recordPlatform)).taken,
      ((Mono.restore recordPlatform t.mono {}).bind fun m => m.get 1 [0xFF],
        (Mono.restore recordPlatform t.sharded {}).bind fun m => m.get 1 [0xFF]) =
      (some [7], some [8]) := by
    rw [← List.mem_map, hrows]
    exact List.mem_singleton_self _
  obtain ⟨versions, hmono, hsharded⟩ := hagrees.snapshots t ht
  obtain ⟨m, _, hm, -, hget, -⟩ := hmono {}
  obtain ⟨m', _, hm', -, hget', -⟩ := hsharded {}
  obtain ⟨hseven, height⟩ := Prod.mk.inj hpair
  rw [hm, Option.bind_some, (hget 1 [0xFF]).1] at hseven
  rw [hm', Option.bind_some, (hget' 1 [0xFF]).1, hseven] at height
  exact absurd height (by decide)

end Clink.Ports.ShardedInMemoryStateBackend

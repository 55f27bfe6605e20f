import Clink.Verified.Text
import Clink.Ports.InMemoryStateBackend

/-!
# The changelog state backend

The embedding of `include/clink/state/changelog_state_backend.hpp` and
`src/state/changelog_state_backend.cpp` over the in-memory backend.  Every
write goes to the inner backend and to a log; a snapshot is one row for the
last materialization (its bytes, or the handle an external store keeps them
under) followed by the log.  A materialization is the inner backend's own
snapshot, and empties the log.

`lastLogged` is what the log says of one row, `lastLogged_appendOrReplaceLog`
what one write makes of it whether or not it replaces an older entry, and
`restoreParts_get` what a restore makes of materializations and logs.
-/

namespace Clink.Ports.ChangelogStateBackend

open Clink.Verified
open Clink.Ports.KeyGroups (numKeyGroups)
open Clink.Ports.InMemoryStateBackend (ArrowStream Bytes Key Value Snapshot SnapshotRow
  KeyGroupRange)

/-! ## The backend -/

/-- One row of the changelog schema. -/
structure ChangelogRow where
  rowKind : UInt8
  opId : Nat
  keyBytes : Key
  valueBytes : Value
  deriving DecidableEq

def rowMaterialization : UInt8 := 0
def rowPut : UInt8 := 1
def rowErase : UInt8 := 2
def rowMaterializationHandle : UInt8 := 3

/-- What the backend takes from outside: Arrow's streams for the two schemas,
and the size the compiler gives a log entry. -/
structure Platform where
  ipc : ArrowStream SnapshotRow
  changelogIpc : ArrowStream ChangelogRow
  sizeofLogEntry : Nat

/-- The fields of a changelog row, the operator in unary. -/
def changelogRecords : ArrowStream ChangelogRow :=
  .records
    (fun row => [[row.rowKind], List.replicate row.opId 0, row.keyBytes, row.valueBytes])
    (fun
      | [[kind], op, key, value] => some ⟨kind, op.length, key, value⟩
      | _ => none)
    (fun row => by simp)

/-- A platform whose streams keep Arrow's contract. -/
def recordPlatform : Platform := ⟨InMemoryStateBackend.snapshotRecords, changelogRecords, 72⟩

/-- An `ExternalMaterializationStore`: a payload is kept under a handle
derived from its checkpoint, a later one of the checkpoint in its place. -/
structure MaterializationStore where
  handleFor : Nat → Bytes
  handleFor_ne_nil : ∀ id, handleFor id ≠ []
  payloads : AList fun _ : Bytes => Bytes := ∅

def MaterializationStore.write (st : MaterializationStore) (id : Nat) (bytes : Bytes) :
    MaterializationStore × Bytes :=
  ({ st with payloads := st.payloads.insert (st.handleFor id) bytes }, st.handleFor id)

def MaterializationStore.read (st : MaterializationStore) (handle : Bytes) : Option Bytes :=
  st.payloads.lookup handle

/-- `FileMaterializationStore`: the handle is the path `<dir>/mat-<id>.bin`. -/
def fileMaterializationStore (dir : Bytes) : MaterializationStore where
  handleFor id := dir ++ ("/mat-".toList ++ decimal id ++ ".bin".toList).map
    fun c => UInt8.ofNat c.toNat
  handleFor_ne_nil id := by simp

structure LogEntry where
  op : Nat
  key : Key
  value : Value
  isErase : Bool
  deriving DecidableEq

structure Backend where
  inner : InMemoryStateBackend.Backend := {}
  extStore : Option MaterializationStore := none
  lastMaterialization : Snapshot := ⟨0, []⟩
  lastMaterializationHandle : Bytes := []
  log : List LogEntry := []
  /-- Where the log entry of a row is.  The source keys it by the operator's
  eight bytes followed by the key. -/
  logIndex : AList fun _ : Nat × Key => Nat := ∅
  logCompactionEnabled : Bool := true
  logBytesEstimate : Nat := 0
  materializationThresholdBytes : Nat := 64 * 1024

/-- The row an entry is about. -/
def LogEntry.place (e : LogEntry) : Nat × Key := (e.op, e.key)

/-- What the entry leaves in its row. -/
def LogEntry.outcome (e : LogEntry) : Option Value := if e.isErase then none else some e.value

def entryBytes (P : Platform) (e : LogEntry) : Nat :=
  P.sizeofLogEntry + e.key.length + e.value.length

/-- Append the entry, or put it in the place of the one the index knows. -/
def Backend.appendOrReplaceLog (P : Platform) (b : Backend) (entry : LogEntry) : Backend :=
  let append : Backend :=
    { b with
      logBytesEstimate := b.logBytesEstimate + entryBytes P entry
      log := b.log ++ [entry] }
  if b.logCompactionEnabled then
    match b.logIndex.lookup entry.place with
    | some pos =>
        { b with
          logBytesEstimate :=
            b.logBytesEstimate - (b.log[pos]?.elim 0 (entryBytes P)) + entryBytes P entry
          log := b.log.set pos entry }
    | none => { append with logIndex := b.logIndex.insert entry.place b.log.length }
  else append

def Backend.put (P : Platform) (b : Backend) (op : Nat) (key : Key) (value : Value) : Backend :=
  { b with inner := b.inner.put op key value }.appendOrReplaceLog P ⟨op, key, value, false⟩

def Backend.erase (P : Platform) (b : Backend) (op : Nat) (key : Key) : Backend :=
  { b with inner := b.inner.erase op key }.appendOrReplaceLog P ⟨op, key, [], true⟩

def Backend.stageOperatorRows (b : Backend) (op id : Nat) : Backend :=
  { b with inner := b.inner.stageOperatorRows op id }

/-- The inner backend's snapshot becomes the materialization. -/
def Backend.materializeLocked (P : Platform) (b : Backend) (id : Nat) : Backend :=
  let (inner, mat) := b.inner.snapshot P.ipc id
  let b : Backend :=
    { b with inner, lastMaterialization := mat, log := [], logIndex := ∅, logBytesEstimate := 0 }
  match b.extStore with
  | some st =>
      let (st, handle) := st.write id mat.bytes
      { b with extStore := some st, lastMaterializationHandle := handle }
  | none => { b with lastMaterializationHandle := [] }

def Backend.materializeNow (P : Platform) (b : Backend) : Backend :=
  if b.log = [] then b else b.materializeLocked P 0

def Backend.setMaterializationThresholdBytes (b : Backend) (threshold : Nat) : Backend :=
  { b with materializationThresholdBytes := threshold }

def Backend.setLogCompactionEnabled (b : Backend) (enabled : Bool) : Backend :=
  { b with
    logCompactionEnabled := enabled
    logIndex := if enabled then b.logIndex else ∅ }

/-! ## Snapshots -/

def LogEntry.row (e : LogEntry) : ChangelogRow :=
  if e.isErase then ⟨rowErase, e.op, e.key, []⟩ else ⟨rowPut, e.op, e.key, e.value⟩

/-- Row 0: the materialization's bytes, or its handle. -/
def Backend.materializationRow (b : Backend) : ChangelogRow :=
  match b.extStore with
  | some _ => ⟨rowMaterializationHandle, 0, [], b.lastMaterializationHandle⟩
  | none => ⟨rowMaterialization, 0, [], b.lastMaterialization.bytes⟩

/-- The log is past its threshold. -/
def Backend.materializes (b : Backend) : Prop :=
  b.materializationThresholdBytes ≤ b.logBytesEstimate

instance (b : Backend) : Decidable b.materializes :=
  inferInstanceAs (Decidable (_ ≤ _))

def Backend.capture (P : Platform) (b : Backend) (id : Nat) : Backend × Snapshot :=
  let b := if b.materializes then b.materializeLocked P id else b
  (b, ⟨id, P.changelogIpc.write (b.materializationRow :: b.log.map LogEntry.row)⟩)

/-- With no working directory the captured blob is the snapshot. -/
def persist (handle : Snapshot) : Snapshot := handle

def Backend.snapshot (P : Platform) (b : Backend) (id : Nat) : Backend × Snapshot :=
  let (b, handle) := b.capture P id
  (b, persist handle)

/-! ## Frames of several blobs -/

/-- `CLMB`. -/
def multiBlobMagic : Bytes := [67, 76, 77, 66]

/-- The low 32 bits of a size, little-endian. -/
def putU32 (n : Nat) : Bytes :=
  [UInt8.ofNat n, UInt8.ofNat (n / 256), UInt8.ofNat (n / 65536), UInt8.ofNat (n / 16777216)]

def readU32 : Bytes → Option (Nat × Bytes)
  | b₀ :: b₁ :: b₂ :: b₃ :: rest =>
      some (b₀.toNat + 256 * b₁.toNat + 65536 * b₂.toNat + 16777216 * b₃.toNat, rest)
  | _ => none

/-- A single blob is kept as it is. -/
def frameBlobs : List Bytes → Bytes
  | [] => []
  | [blob] => blob
  | blobs =>
      multiBlobMagic ++ putU32 blobs.length ++
        blobs.flatMap fun blob => putU32 blob.length ++ blob

/-- The blobs of a frame; `none` when it ends too early. -/
def readBlobs : Nat → Bytes → Option (List Bytes)
  | 0, _ => some []
  | count + 1, bytes =>
      match readU32 bytes with
      | none => none
      | some (len, rest) =>
          if rest.length < len then none
          else (readBlobs count (rest.drop len)).map (rest.take len :: ·)

def splitBlobs (bytes : Bytes) : Option (List Bytes) :=
  if bytes.take 4 = multiBlobMagic then
    match readU32 (bytes.drop 4) with
    | none => none
    | some (count, rest) => readBlobs count rest
  else some [bytes]

/-! ## Restore -/

/-- What the blobs read so far hold. -/
structure Parsed where
  mats : List Snapshot := []
  pending : List ChangelogRow := []
  matRowSeen : Bool := false

/-- One row of a blob; `none` when the modes differ or the payload is gone. -/
def parseRow (store : Option MaterializationStore) (id : Nat) (acc : Parsed)
    (row : ChangelogRow) : Option Parsed :=
  if row.rowKind = rowMaterialization then
    if store.isSome then none
    else if row.valueBytes = [] then some { acc with matRowSeen := true }
    else some { acc with matRowSeen := true, mats := acc.mats ++ [⟨id, row.valueBytes⟩] }
  else if row.rowKind = rowMaterializationHandle then
    match store with
    | none => none
    | some st =>
        if row.valueBytes = [] then some { acc with matRowSeen := true }
        else
          match st.read row.valueBytes with
          | none => none
          | some bytes =>
              some { acc with matRowSeen := true, mats := acc.mats ++ [⟨id, bytes⟩] }
  else some { acc with pending := acc.pending ++ [row] }

/-- A blob without a materialization row is malformed. -/
def parseBlob (P : Platform) (store : Option MaterializationStore) (id : Nat) (acc : Parsed)
    (blob : Bytes) : Option Parsed :=
  match P.changelogIpc.read blob with
  | none => none
  | some rows =>
      match rows.foldlM (parseRow store id) { acc with matRowSeen := false } with
      | none => none
      | some out => if out.matRowSeen then some out else none

def keyInRange (filter : KeyGroupRange) : Key → Bool
  | [] => true
  | first :: _ =>
      filter.coversAll || numKeyGroups ≤ first.toUInt16 || filter.contains first.toUInt16

def replayRow (kgFilter : KeyGroupRange) (inner : InMemoryStateBackend.Backend)
    (row : ChangelogRow) : InMemoryStateBackend.Backend :=
  if !keyInRange kgFilter row.keyBytes then inner
  else if row.rowKind = rowErase then inner.erase row.opId row.keyBytes
  else inner.put row.opId row.keyBytes row.valueBytes

/-- The inner backend from the combined materializations, when there are
any, then every log row in turn. -/
def restoreParts (P : Platform) (inner : InMemoryStateBackend.Backend) (parsed : Parsed)
    (kgFilter : KeyGroupRange) : Option InMemoryStateBackend.Backend :=
  (if parsed.mats = [] then some inner
    else (InMemoryStateBackend.combineSnapshots P.ipc parsed.mats).bind
      fun combined => InMemoryStateBackend.restore P.ipc combined kgFilter).map
    fun inner => parsed.pending.foldl (replayRow kgFilter) inner

/-- A restored backend takes the inner state after the replay as its
materialization.  The log index is not touched. -/
def Backend.restore (P : Platform) (b : Backend) (snap : Snapshot) (kgFilter : KeyGroupRange) :
    Option Backend :=
  let b : Backend := { b with log := [], logBytesEstimate := 0 }
  if snap.bytes = [] then some b
  else
    match splitBlobs snap.bytes with
    | none => none
    | some blobs =>
        match blobs.foldlM (parseBlob P b.extStore snap.checkpointId) {} with
        | none => none
        | some parsed =>
            match restoreParts P b.inner parsed kgFilter with
            | none => none
            | some inner =>
                let (inner, mat) := inner.snapshot P.ipc snap.checkpointId
                let b : Backend := { b with inner, lastMaterialization := mat }
                match b.extStore with
                | some st =>
                    let (st, handle) := st.write snap.checkpointId mat.bytes
                    some { b with extStore := some st, lastMaterializationHandle := handle }
                | none => some b

/-! ## What a log says of one row -/

/-- The outcome of the last entry about a row, if there is one. -/
def lastLogged (log : List LogEntry) (op : Nat) (key : Key) : Option (Option Value) :=
  (log.filter (·.place = (op, key))).foldl (fun _ e => some e.outcome) none

@[simp] theorem lastLogged_nil (op : Nat) (key : Key) : lastLogged [] op key = none := rfl

theorem lastLogged_snoc (log : List LogEntry) (e : LogEntry) (op : Nat) (key : Key) :
    lastLogged (log ++ [e]) op key =
      if e.place = (op, key) then some e.outcome else lastLogged log op key := by
  unfold lastLogged
  rw [List.filter_append, List.foldl_append]
  by_cases h : e.place = (op, key)
  · simp [h]
  · simp [h]

theorem lastLogged_append (log log' : List LogEntry) (op : Nat) (key : Key) :
    lastLogged (log ++ log') op key = (lastLogged log' op key).or (lastLogged log op key) := by
  induction log' using List.reverseRecOn with
  | nil => simp
  | append_singleton rest e ih =>
      rw [← List.append_assoc, lastLogged_snoc, lastLogged_snoc, ih]
      by_cases h : e.place = (op, key)
      · simp [h]
      · simp [h]

/-- A log with no entry about a row says nothing of it. -/
theorem lastLogged_eq_none {log : List LogEntry} {op : Nat} {key : Key}
    (h : ∀ e ∈ log, e.place ≠ (op, key)) : lastLogged log op key = none := by
  unfold lastLogged
  rw [List.filter_eq_nil_iff.mpr (by simpa using h)]
  rfl

/-! ## One write -/

/-- The index points at the last entry of every row it knows. -/
structure IndexOk (b : Backend) : Prop where
  off : b.logCompactionEnabled = false → b.logIndex = ∅
  points : ∀ {place pos}, b.logIndex.lookup place = some pos →
    ∃ before old after, b.log = before ++ old :: after ∧ before.length = pos ∧
      old.place = place ∧ ∀ e ∈ after, e.place ≠ place

section
variable (P : Platform) (b : Backend) (e : LogEntry)

/-- A write to the log changes the log, its index and its size alone. -/
theorem appendOrReplaceLog_eq : b.appendOrReplaceLog P e =
    { b with
      log := (b.appendOrReplaceLog P e).log
      logIndex := (b.appendOrReplaceLog P e).logIndex
      logBytesEstimate := (b.appendOrReplaceLog P e).logBytesEstimate } := by
  unfold Backend.appendOrReplaceLog
  split
  · split <;> rfl
  · rfl

@[simp] theorem appendOrReplaceLog_inner : (b.appendOrReplaceLog P e).inner = b.inner := by
  rw [appendOrReplaceLog_eq]

@[simp] theorem appendOrReplaceLog_extStore :
    (b.appendOrReplaceLog P e).extStore = b.extStore := by
  rw [appendOrReplaceLog_eq]

@[simp] theorem appendOrReplaceLog_lastMaterialization :
    (b.appendOrReplaceLog P e).lastMaterialization = b.lastMaterialization := by
  rw [appendOrReplaceLog_eq]

@[simp] theorem appendOrReplaceLog_handle :
    (b.appendOrReplaceLog P e).lastMaterializationHandle = b.lastMaterializationHandle := by
  rw [appendOrReplaceLog_eq]

end

theorem lastLogged_cons (e : LogEntry) (log : List LogEntry) (op : Nat) (key : Key) :
    lastLogged (e :: log) op key =
      (lastLogged log op key).or (if e.place = (op, key) then some e.outcome else none) := by
  have hone : lastLogged [e] op key = if e.place = (op, key) then some e.outcome else none := by
    simpa using lastLogged_snoc [] e op key
  rw [← hone, ← lastLogged_append, List.singleton_append]

variable {P : Platform} {b : Backend}

/-- After a write the log says of its row what the write did, and of every
other row what it said before. -/
theorem lastLogged_appendOrReplaceLog (h : IndexOk b) (e : LogEntry) (op : Nat) (key : Key) :
    lastLogged (b.appendOrReplaceLog P e).log op key =
      if e.place = (op, key) then some e.outcome else lastLogged b.log op key := by
  unfold Backend.appendOrReplaceLog
  by_cases henabled : b.logCompactionEnabled
  · rw [if_pos henabled]
    cases hindex : b.logIndex.lookup e.place with
    | none => exact lastLogged_snoc b.log e op key
    | some pos =>
        obtain ⟨before, old, after, hlog, hpos, hplace, hafter⟩ := h.points hindex
        have hset : b.log.set pos e = before ++ e :: after := by
          rw [hlog, ← hpos]
          simp
        change lastLogged (b.log.set pos e) op key = _
        rw [hset, hlog, lastLogged_append, lastLogged_append, lastLogged_cons, lastLogged_cons,
          hplace]
        by_cases hrow : e.place = (op, key)
        · have hnone : lastLogged after op key = none :=
            lastLogged_eq_none fun e' he' => hrow ▸ hafter e' he'
          simp [hrow, hnone]
        · simp [hrow]
  · rw [if_neg henabled]
    exact lastLogged_snoc b.log e op key

/-- The same, with the write already made in the inner backend. -/
theorem lastLogged_write (h : IndexOk b) (inner : InMemoryStateBackend.Backend) (e : LogEntry)
    (op : Nat) (key : Key) :
    lastLogged ({ b with inner }.appendOrReplaceLog P e).log op key =
      if e.place = (op, key) then some e.outcome else lastLogged b.log op key :=
  lastLogged_appendOrReplaceLog (b := { b with inner }) ⟨h.off, h.points⟩ e op key

/-- A row the index knows keeps its place when the log grows by another's. -/
theorem points_snoc (h : IndexOk b) {place : Nat × Key} {pos : Nat}
    (hindex : b.logIndex.lookup place = some pos) {e : LogEntry} (hne : e.place ≠ place) :
    ∃ before old after, b.log ++ [e] = before ++ old :: after ∧ before.length = pos ∧
      old.place = place ∧ ∀ e' ∈ after, e'.place ≠ place := by
  obtain ⟨before, old, after, hlog, hpos, hplace, hafter⟩ := h.points hindex
  refine ⟨before, old, after ++ [e], by rw [hlog]; simp, hpos, hplace, ?_⟩
  intro e' he'
  rcases List.mem_append.mp he' with he' | he'
  · exact hafter e' he'
  · rw [List.mem_singleton.mp he']
    exact hne

theorem IndexOk.appendOrReplaceLog (h : IndexOk b) (P : Platform) (e : LogEntry) :
    IndexOk (b.appendOrReplaceLog P e) := by
  unfold Backend.appendOrReplaceLog
  by_cases henabled : b.logCompactionEnabled
  · rw [if_pos henabled]
    cases hindex : b.logIndex.lookup e.place with
    | none =>
        refine ⟨fun hoff => absurd hoff (by simp [henabled]), ?_⟩
        intro place pos hlookup
        change (b.logIndex.insert e.place b.log.length).lookup place = some pos at hlookup
        by_cases hplace : place = e.place
        · subst hplace
          rw [AList.lookup_insert] at hlookup
          exact ⟨b.log, e, [], rfl, by simpa using hlookup, rfl, by simp⟩
        · rw [AList.lookup_insert_ne hplace] at hlookup
          exact points_snoc h hlookup (Ne.symm hplace)
    | some pos =>
        refine ⟨h.off, ?_⟩
        intro place pos' hlookup
        obtain ⟨before, old, after, hlog, hpos, hplace, hafter⟩ := h.points hindex
        obtain ⟨before', old', after', hlog', hpos', hplace', hafter'⟩ := h.points hlookup
        change ∃ x y z, b.log.set pos e = x ++ y :: z ∧ _
        by_cases heq : place = e.place
        · subst heq
          have : pos' = pos := by
            rw [hindex] at hlookup
            exact (Option.some.inj hlookup).symm
          refine ⟨before, e, after, ?_, by rw [hpos, this], rfl, hafter⟩
          rw [hlog, ← hpos]
          simp
        · -- The replaced entry lies before or after the one this row has.
          have hne : before.length ≠ before'.length := by
            intro hlen
            obtain ⟨-, htail⟩ := List.append_inj (hlog.symm.trans hlog') hlen
            rw [← hplace', ← hplace, (List.cons.inj htail).1] at heq
            exact heq rfl
          rw [hlog', ← hpos]
          rcases Nat.lt_or_gt_of_ne hne with hlt | hgt
          · refine ⟨before'.set before.length e, old', after', ?_, by simpa using hpos', hplace',
              hafter'⟩
            rw [List.set_append_left _ _ hlt]
          · refine ⟨before', old', after'.set (before.length - before'.length - 1) e, ?_, hpos',
              hplace', ?_⟩
            · rw [List.set_append_right _ _ (Nat.le_of_lt hgt)]
              obtain ⟨d, hd⟩ : ∃ d, before.length - before'.length = d + 1 :=
                ⟨before.length - before'.length - 1, by omega⟩
              rw [hd, List.set_cons_succ]
              simp
            · intro e' he'
              rcases List.mem_or_eq_of_mem_set he' with he' | rfl
              · exact hafter' e' he'
              · exact fun hcontra => heq hcontra.symm
  · rw [if_neg henabled]
    refine ⟨h.off, ?_⟩
    intro place pos hlookup
    have hempty := h.off (by simpa using henabled)
    change b.logIndex.lookup place = some pos at hlookup
    rw [hempty] at hlookup
    simp at hlookup

/-! ## Replay -/

theorem keyInRange_eq (kgFilter : KeyGroupRange) (key : Key) :
    keyInRange kgFilter key = !InMemoryStateBackend.outOfRange kgFilter key := by
  cases key with
  | nil => rfl
  | cons first rest =>
      unfold keyInRange InMemoryStateBackend.outOfRange
      have hlt : decide (first.toUInt16 < numKeyGroups) =
          !decide (numKeyGroups ≤ first.toUInt16) := by
        simp [← UInt16.not_le]
      simp only [hlt]
      cases kgFilter.coversAll <;> cases decide (numKeyGroups ≤ first.toUInt16) <;>
        cases kgFilter.contains first.toUInt16 <;> rfl

private theorem get_replayRow (kgFilter : KeyGroupRange) (inner : InMemoryStateBackend.Backend)
    (e : LogEntry) (p : Nat × Key) :
    (replayRow kgFilter inner e.row).get p.1 p.2 =
      if e.place = p then (if keyInRange kgFilter e.key then e.outcome else inner.get p.1 p.2)
      else inner.get p.1 p.2 := by
  obtain ⟨op, key, value, isErase⟩ := e
  obtain ⟨op', key'⟩ := p
  unfold replayRow LogEntry.row LogEntry.place LogEntry.outcome
  cases isErase with
  | true =>
      cases hrange : keyInRange kgFilter key with
      | true =>
          simp [hrange, rowErase, InMemoryStateBackend.get_erase]
      | false => simp [hrange]
  | false =>
      cases hrange : keyInRange kgFilter key with
      | true =>
          simp [hrange, rowErase, rowPut, InMemoryStateBackend.get_put]
      | false => simp [hrange]

theorem get_replay (kgFilter : KeyGroupRange) (log : List LogEntry)
    (inner : InMemoryStateBackend.Backend) (op : Nat) (key : Key) :
    ((log.map LogEntry.row).foldl (replayRow kgFilter) inner).get op key =
      if keyInRange kgFilter key then (lastLogged log op key).getD (inner.get op key)
      else inner.get op key := by
  rw [List.foldl_map]
  induction log using List.reverseRecOn with
  | nil => simp
  | append_singleton rest e ih =>
      rw [List.foldl_append, List.foldl_cons, List.foldl_nil,
        get_replayRow kgFilter _ e (op, key), lastLogged_snoc]
      by_cases hplace : e.place = (op, key)
      · have hkey : e.key = key := congrArg Prod.snd hplace
        rw [if_pos hplace, if_pos hplace, hkey, ih]
        cases keyInRange kgFilter key <;> simp
      · rw [if_neg hplace, if_neg hplace, ih]

/-! ## Reading blobs and frames back -/

theorem readU32_putU32 {n : Nat} (h : n < 2 ^ 32) (rest : Bytes) :
    readU32 (putU32 n ++ rest) = some (n, rest) := by
  simp only [putU32, readU32, List.cons_append, List.nil_append, UInt8.toNat_ofNat']
  have hn : n % 256 + 256 * (n / 256 % 256) + 65536 * (n / 65536 % 256) +
      16777216 * (n / 16777216 % 256) = n := by omega
  exact congrArg (fun m => some (m, rest)) hn

/-- Blobs whose sizes fit the frame's 32-bit fields are read back. -/
theorem readBlobs_frames {blobs : List Bytes} (h : ∀ blob ∈ blobs, blob.length < 2 ^ 32) :
    readBlobs blobs.length (blobs.flatMap fun blob => putU32 blob.length ++ blob) =
      some blobs := by
  induction blobs with
  | nil => rfl
  | cons blob rest ih =>
      have hblob := h blob List.mem_cons_self
      have hrest := ih fun b hb => h b (List.mem_cons_of_mem _ hb)
      rw [List.flatMap_cons, List.length_cons, readBlobs, List.append_assoc,
        readU32_putU32 hblob]
      simp [hrest]

/-- The sizes a frame of several blobs has to hold. -/
def FitsFrame (blobs : List Bytes) : Prop :=
  blobs.length < 2 ^ 32 ∧ ∀ blob ∈ blobs, blob.length < 2 ^ 32

/-- A stream is never taken for a frame. -/
theorem splitBlobs_write (P : Platform) (rows : List ChangelogRow) :
    splitBlobs (P.changelogIpc.write rows) = some [P.changelogIpc.write rows] := by
  obtain ⟨rest, h⟩ := P.changelogIpc.marker rows
  unfold splitBlobs
  rw [h, if_neg]
  simp [multiBlobMagic]

theorem splitBlobs_frame {blobs : List Bytes} (h : FitsFrame blobs) :
    splitBlobs (multiBlobMagic ++ putU32 blobs.length ++
      blobs.flatMap fun blob => putU32 blob.length ++ blob) = some blobs := by
  have htake : ∀ tail : Bytes, (multiBlobMagic ++ tail).take 4 = multiBlobMagic := fun _ => rfl
  have hdrop : ∀ tail : Bytes, (multiBlobMagic ++ tail).drop 4 = tail := fun _ => rfl
  unfold splitBlobs
  rw [List.append_assoc, if_pos (htake _), hdrop, readU32_putU32 h.1]
  exact readBlobs_frames h.2

theorem splitBlobs_frameBlobs {parts : List (List ChangelogRow)} (hne : parts ≠ [])
    (hfits : parts.length ≠ 1 → FitsFrame (parts.map P.changelogIpc.write)) :
    splitBlobs (frameBlobs (parts.map P.changelogIpc.write)) =
      some (parts.map P.changelogIpc.write) := by
  match parts, hne, hfits with
  | [rows], _, _ => exact splitBlobs_write P rows
  | rows :: rows' :: rest, _, hfits => exact splitBlobs_frame (hfits (by simp))

/-- The store still keeps what the backend's materialization row names. -/
structure Resolves (store : Option MaterializationStore) (b : Backend) : Prop where
  mode : store.isSome = b.extStore.isSome
  unset : b.extStore.isSome → b.lastMaterialization.bytes = [] →
    b.lastMaterializationHandle = []
  kept : b.extStore.isSome → b.lastMaterialization.bytes ≠ [] →
    b.lastMaterializationHandle ≠ [] ∧
      ∃ st, store = some st ∧ st.read b.lastMaterializationHandle =
        some b.lastMaterialization.bytes

/-- The materialization of a blob, if it has one. -/
def Backend.mats (b : Backend) (id : Nat) : List Snapshot :=
  if b.lastMaterialization.bytes = [] then [] else [⟨id, b.lastMaterialization.bytes⟩]

variable {store : Option MaterializationStore}

private theorem parseRow_materialization (h : Resolves store b) (id : Nat) (acc : Parsed) :
    parseRow store id acc b.materializationRow =
      some { acc with matRowSeen := true, mats := acc.mats ++ b.mats id } := by
  have hmode := h.mode
  unfold parseRow Backend.materializationRow Backend.mats
  cases hext : b.extStore with
  | none =>
      rw [hext] at hmode
      simp only [Option.isSome_none] at hmode
      by_cases hbytes : b.lastMaterialization.bytes = []
      · simp [hmode, hbytes]
      · simp [hmode, hbytes]
  | some own =>
      have hsome : b.extStore.isSome := by rw [hext]; rfl
      by_cases hbytes : b.lastMaterialization.bytes = []
      · rw [hext] at hmode
        obtain ⟨st, hst⟩ := Option.isSome_iff_exists.mp hmode
        simp [rowMaterialization, rowMaterializationHandle, hst, h.unset hsome hbytes, hbytes]
      · obtain ⟨hhandle, st, hst, hread⟩ := h.kept hsome hbytes
        simp [rowMaterialization, rowMaterializationHandle, hst, hhandle, hread, hbytes]

private theorem foldlM_parseRow_log (store : Option MaterializationStore) (id : Nat)
    (log : List LogEntry) (acc : Parsed) :
    (log.map LogEntry.row).foldlM (parseRow store id) acc =
      some { acc with pending := acc.pending ++ log.map LogEntry.row } := by
  induction log generalizing acc with
  | nil => simp
  | cons e rest ih =>
      have hrow : parseRow store id acc e.row =
          some { acc with pending := acc.pending ++ [e.row] } := by
        unfold parseRow LogEntry.row
        cases e.isErase <;>
          simp [rowMaterialization, rowMaterializationHandle, rowErase, rowPut]
      rw [List.map_cons, List.foldlM_cons, hrow]
      simp [ih]

/-- The blob of a snapshot: its materialization row, then its log. -/
def Backend.blobRows (b : Backend) : List ChangelogRow :=
  b.materializationRow :: b.log.map LogEntry.row

/-- A snapshot's blob is parsed into its materialization and its log. -/
theorem parseBlob_write (h : Resolves store b) (id : Nat) (acc : Parsed) :
    parseBlob P store id acc (P.changelogIpc.write b.blobRows) =
      some ⟨acc.mats ++ b.mats id, acc.pending ++ b.log.map LogEntry.row, true⟩ := by
  unfold parseBlob Backend.blobRows
  rw [P.changelogIpc.read_write]
  simp only [List.foldlM_cons, parseRow_materialization h, Option.bind_eq_bind,
    Option.bind_some, foldlM_parseRow_log, if_true]

/-! ## What a restore makes of blobs -/

/-- The rows of the last materialization; `none` when there is none. -/
def Backend.matRows (P : Platform) (b : Backend) : Option (List SnapshotRow) :=
  if b.lastMaterialization.bytes = [] then none else P.ipc.read b.lastMaterialization.bytes

/-- A materialization is a stream the inner backend wrote. -/
def Written (P : Platform) (b : Backend) : Prop :=
  b.lastMaterialization.bytes = [] ∨ ∃ rows, b.lastMaterialization.bytes = P.ipc.write rows

private theorem mats_eq (h : Written P b) (id : Nat) :
    b.mats id = ((b.matRows P).map fun rows => (⟨id, P.ipc.write rows⟩ : Snapshot)).toList := by
  unfold Backend.mats Backend.matRows
  rcases h with h | ⟨rows, h⟩
  · simp [h]
  · rw [h, if_neg (P.ipc.write_ne_nil rows), if_neg (P.ipc.write_ne_nil rows), P.ipc.read_write]
    rfl

variable {bs : List Backend}

private theorem flatMap_mats (h : ∀ b ∈ bs, Written P b) (id : Nat) :
    bs.flatMap (·.mats id) =
      (bs.filterMap (·.matRows P)).map fun rows => (⟨id, P.ipc.write rows⟩ : Snapshot) := by
  induction bs with
  | nil => rfl
  | cons b rest ih =>
      rw [List.flatMap_cons, mats_eq (h b List.mem_cons_self),
        ih fun b' hb' => h b' (List.mem_cons_of_mem _ hb'), List.filterMap_cons]
      cases b.matRows P <;> rfl

theorem restore_combined (P : Platform) (id : Nat) {parts : List (List SnapshotRow)}
    (hne : parts ≠ []) (kgFilter : KeyGroupRange) :
    ((InMemoryStateBackend.combineSnapshots P.ipc
        (parts.map fun rows => ⟨id, P.ipc.write rows⟩)).bind
      fun combined => InMemoryStateBackend.restore P.ipc combined kgFilter) =
      some { state := parts.flatten.foldl (InMemoryStateBackend.restoreRow kgFilter) ∅ } := by
  match parts, hne with
  | [rows], _ =>
      simp [InMemoryStateBackend.combineSnapshots, InMemoryStateBackend.restore_write]
  | rows :: rows' :: rest, _ =>
      have hmerge := InMemoryStateBackend.mergeSnapshotBytes_write P.ipc (rows :: rows' :: rest)
      have hbytes : ((rows :: rows' :: rest).map fun rows =>
          (⟨id, P.ipc.write rows⟩ : Snapshot)).map Snapshot.bytes =
          (rows :: rows' :: rest).map P.ipc.write := by
        rw [List.map_map]
        rfl
      have hcombine : InMemoryStateBackend.combineSnapshots P.ipc
          ((rows :: rows' :: rest).map fun rows => (⟨id, P.ipc.write rows⟩ : Snapshot)) =
          some ⟨id, P.ipc.write (rows :: rows' :: rest).flatten⟩ := by
        change (InMemoryStateBackend.mergeSnapshotBytes P.ipc
          (((rows :: rows' :: rest).map fun rows =>
            (⟨id, P.ipc.write rows⟩ : Snapshot)).map Snapshot.bytes)).map _ = _
        rw [hbytes, hmerge]
        rfl
      rw [hcombine, Option.bind_some, InMemoryStateBackend.restore_write]

/-- The row the blobs' materializations leave, before any log is replayed. -/
def baseRow (P : Platform) (kgFilter : KeyGroupRange) (child : Backend) (bs : List Backend)
    (op : Nat) (key : Key) : Option Value :=
  if bs.filterMap (·.matRows P) = [] then child.inner.get op key
  else (rowsAt (bs.filterMap (·.matRows P)).flatten op key).foldl
    (InMemoryStateBackend.restoreValue kgFilter) none

theorem restoreParts_get (h : ∀ b ∈ bs, Written P b) (child : Backend) (id : Nat)
    (kgFilter : KeyGroupRange) :
    ∃ inner, restoreParts P child.inner
        ⟨bs.flatMap (·.mats id), bs.flatMap (·.log.map LogEntry.row), true⟩ kgFilter =
        some inner ∧
      ∀ op key, inner.get op key =
        if keyInRange kgFilter key then
          (lastLogged (bs.flatMap (·.log)) op key).getD (baseRow P kgFilter child bs op key)
        else baseRow P kgFilter child bs op key := by
  have hpending : (bs.flatMap (·.log.map LogEntry.row)) =
      (bs.flatMap (·.log)).map LogEntry.row := by
    rw [List.map_flatMap]
  unfold restoreParts baseRow
  simp only [hpending, flatMap_mats h, List.map_eq_nil_iff]
  by_cases hparts : bs.filterMap (·.matRows P) = []
  · rw [if_pos hparts]
    refine ⟨_, rfl, ?_⟩
    intro op key
    rw [get_replay, if_pos hparts]
  · rw [if_neg hparts, restore_combined P id hparts]
    refine ⟨_, rfl, ?_⟩
    intro op key
    rw [get_replay, if_neg hparts, ← InMemoryStateBackend.get_restoreRows]
    rfl

private theorem foldlM_parseBlob (h : ∀ b ∈ bs, Resolves store b) (id : Nat) (acc : Parsed)
    (hacc : acc.matRowSeen = true ∨ bs ≠ []) :
    (bs.map fun b => P.changelogIpc.write b.blobRows).foldlM (parseBlob P store id) acc =
      some ⟨acc.mats ++ bs.flatMap (·.mats id),
        acc.pending ++ bs.flatMap (·.log.map LogEntry.row), true⟩ := by
  induction bs generalizing acc with
  | nil =>
      obtain ⟨mats, pending, seen⟩ := acc
      obtain rfl : seen = true := by simpa using hacc
      simp
  | cons b rest ih =>
      rw [List.map_cons, List.foldlM_cons, parseBlob_write (h b List.mem_cons_self)]
      simp only [Option.bind_eq_bind, Option.bind_some]
      rw [ih (fun b' hb' => h b' (List.mem_cons_of_mem _ hb')) _ (.inl rfl)]
      simp

private theorem frameBlobs_ne_nil {parts : List (List ChangelogRow)} (hne : parts ≠ []) :
    frameBlobs (parts.map P.changelogIpc.write) ≠ [] := by
  match parts, hne with
  | [rows], _ => exact P.changelogIpc.write_ne_nil rows
  | rows :: rows' :: rest, _ => exact List.cons_ne_nil _ _

/-- A restore of several blobs leaves in a row what the last log entry about
it says, else what the materializations merge to. -/
theorem restore_frame (child : Backend) (bs : List Backend) (hne : bs ≠ [])
    (hfits : bs.length ≠ 1 → FitsFrame (bs.map fun b => P.changelogIpc.write b.blobRows))
    (hres : ∀ b ∈ bs, Resolves child.extStore b) (hwritten : ∀ b ∈ bs, Written P b) (id : Nat)
    (kgFilter : KeyGroupRange) :
    ∃ c, child.restore P
        ⟨id, frameBlobs (bs.map fun b => P.changelogIpc.write b.blobRows)⟩ kgFilter = some c ∧
      ∀ op key, c.inner.get op key =
        if keyInRange kgFilter key then
          (lastLogged (bs.flatMap (·.log)) op key).getD (baseRow P kgFilter child bs op key)
        else baseRow P kgFilter child bs op key := by
  have hmap : (bs.map fun b => P.changelogIpc.write b.blobRows) =
      (bs.map Backend.blobRows).map P.changelogIpc.write := by
    rw [List.map_map]
    rfl
  have hparts : bs.map Backend.blobRows ≠ [] := by simpa using hne
  obtain ⟨inner, hinner, hrows⟩ := restoreParts_get hwritten child id kgFilter
  have hsplit : splitBlobs (frameBlobs (bs.map fun b => P.changelogIpc.write b.blobRows)) =
      some (bs.map fun b => P.changelogIpc.write b.blobRows) := by
    rw [hmap] at hfits ⊢
    exact splitBlobs_frameBlobs hparts (by simpa using hfits)
  have hbytes : frameBlobs (bs.map fun b => P.changelogIpc.write b.blobRows) ≠ [] := by
    rw [hmap]
    exact frameBlobs_ne_nil hparts
  have hparse := foldlM_parseBlob (P := P) hres id {} (.inr hne)
  simp only [List.nil_append] at hparse
  unfold Backend.restore
  simp only [hbytes, if_false, hsplit, hparse, hinner]
  cases child.extStore with
  | none => exact ⟨_, rfl, hrows⟩
  | some st => exact ⟨_, rfl, hrows⟩

end Clink.Ports.ChangelogStateBackend

import Clink.Verified.Run
import Clink.Ports.ChangelogStaging

/-!
# The log, its index and its size

The log of the changelog backend goes with three more structures: the index
that lets a write replace the entry of its row, the byte estimate that decides
when to materialize, and the last materialization, which the log continues.
`LogConsistent` is what the four promise one another and `log_consistent_iff`
says along which histories they keep it.  Writes, snapshots, materializations
and the switch of the compaction always do (`Exact.put` and its siblings).  A
restore empties the log and sets the size back, but leaves the index as it
was, and when it has nothing to restore, or throws, it leaves the
materialization as well.
-/

namespace Clink.Ports.ChangelogStateBackend

open Clink.Verified
open Clink.Ports.InMemoryStateBackend (Key Value Bytes Snapshot SnapshotRow KeyGroupRange)

/-! ## Calls -/

/-- How far a restore that throws got: the handle it read last, and the rows
the inner backend had taken, when it was reached. -/
structure Thrown where
  handle : Bytes
  rows : Option (List SnapshotRow)

/-- The inner backend after the throw.  Its own restore drops everything first. -/
def Thrown.inner (thrown : Thrown) (b : Backend) (kgFilter : KeyGroupRange) :
    InMemoryStateBackend.Backend :=
  match thrown.rows with
  | none => b.inner
  | some rows => { state := rows.foldl (InMemoryStateBackend.restoreRow kgFilter) ∅ }

/-- The backend a call of `restore` leaves, whether it returns or throws. -/
def Backend.afterRestore (P : Platform) (b : Backend) (snap : Snapshot)
    (kgFilter : KeyGroupRange) (thrown : Thrown) : Backend :=
  match b.restore P snap kgFilter with
  | some b' => b'
  | none =>
      { b with
        inner := thrown.inner b kgFilter
        lastMaterializationHandle := thrown.handle
        log := []
        logBytesEstimate := 0 }

inductive LogCall where
  | put (op : Nat) (key : Key) (value : Value)
  | erase (op : Nat) (key : Key)
  | snapshot (id : Nat)
  | materializeNow
  | restore (snap : Snapshot) (kgFilter : KeyGroupRange) (thrown : Thrown)
  | setLogCompactionEnabled (enabled : Bool)
  | setMaterializationThresholdBytes (threshold : Nat)

/-- A snapshot is a capture followed by a write that leaves the backend alone. -/
def LogCall.apply (P : Platform) (b : Backend) : LogCall → Backend
  | .put op key value => b.put P op key value
  | .erase op key => b.erase P op key
  | .snapshot id => (b.snapshot P id).1
  | .materializeNow => b.materializeNow P
  | .restore snap kgFilter thrown => b.afterRestore P snap kgFilter thrown
  | .setLogCompactionEnabled enabled => b.setLogCompactionEnabled enabled
  | .setMaterializationThresholdBytes threshold => b.setMaterializationThresholdBytes threshold

/-! ## What the four structures promise -/

/-- The log replayed over the last materialization. -/
def Backend.replayed (P : Platform) (b : Backend) : Option InMemoryStateBackend.Backend :=
  (InMemoryStateBackend.restore P.ipc b.lastMaterialization {}).map fun m =>
    (b.log.map LogEntry.row).foldl (replayRow {}) m

def logBytes (P : Platform) (log : List LogEntry) : Nat := (log.map (entryBytes P)).sum

/-- The entry the index reaches at a position. -/
def Backend.Reaches (b : Backend) (pos : Nat) (e : LogEntry) : Prop :=
  (∃ place, b.logIndex.lookup place = some pos) ∧ b.log[pos]? = some e

structure LogConsistent (P : Platform) (b : Backend) : Prop where
  indexed : ∀ {op key pos}, b.logIndex.lookup (op, key) = some pos →
    pos < b.log.length ∧ ∃ e, b.log[pos]? = some e ∧ e.op = op ∧ e.key = key
  once : ∀ {pos pos' e e'}, b.Reaches pos e → b.Reaches pos' e' → e.op = e'.op →
    e.key = e'.key → pos = pos'
  bytes : b.logBytesEstimate = logBytes P b.log
  contents : ∃ m, b.replayed P = some m ∧ ∀ op key, m.get op key = b.inner.get op key

/-- The index is empty, and the inner backend is left with the contents of a
materialization the log has nothing to add to. -/
def RestoresWhole (P : Platform) (b : Backend) (snap : Snapshot) (kgFilter : KeyGroupRange)
    (thrown : Thrown) : Prop :=
  b.logIndex = ∅ ∧
    if snap.bytes = [] then ∀ op key, b.inner.get op key = b.materialized P op key
    else (b.restore P snap kgFilter).isSome ∨
      ∀ op key, (thrown.inner b kgFilter).get op key = b.materialized P op key

/-- Only a restore has a condition. -/
def LogCall.KeepsLog (P : Platform) (b : Backend) : LogCall → Prop
  | .restore snap kgFilter thrown => RestoresWhole P b snap kgFilter thrown
  | _ => True

/-! ## The invariant -/

/-- The inductive form: the index points at the last entry of its row, and
nothing is staged that a materialization would take instead of a live row. -/
structure Exact (P : Platform) (b : Backend) : Prop where
  index : IndexOk b
  bytes : b.logBytesEstimate = logBytes P b.log
  unstaged : b.inner.staged = .empty
  readable : (InMemoryStateBackend.restore P.ipc b.lastMaterialization {}).isSome
  contents : ∀ op key, (lastLogged b.log op key).getD (b.materialized P op key) =
    b.inner.get op key

section
variable {P : Platform} {b : Backend}

/-- Replaying the log leaves in every row what it says last. -/
theorem replayed_get {m : InMemoryStateBackend.Backend}
    (hm : InMemoryStateBackend.restore P.ipc b.lastMaterialization {} = some m) :
    ∃ m', b.replayed P = some m' ∧ ∀ op key, m'.get op key =
      (lastLogged b.log op key).getD (b.materialized P op key) := by
  refine ⟨_, by rw [Backend.replayed, hm]; rfl, ?_⟩
  intro op key
  have hmat : b.materialized P op key = m.get op key := by
    unfold Backend.materialized
    rw [hm]
    rfl
  rw [get_replay, hmat, keyInRange_eq, InMemoryStateBackend.outOfRange_full]
  rfl

theorem Exact.logConsistent (h : Exact P b) : LogConsistent P b := by
  have hpoints : ∀ {place pos}, b.logIndex.lookup place = some pos →
      ∃ e, b.log[pos]? = some e ∧ e.place = place := by
    intro place pos hlookup
    obtain ⟨before, old, after, hlog, hpos, hplace, -⟩ := h.index.points hlookup
    refine ⟨old, ?_, hplace⟩
    rw [hlog, ← hpos]
    simp
  refine ⟨?_, ?_, h.bytes, ?_⟩
  · intro op key pos hlookup
    obtain ⟨e, he, hplace⟩ := hpoints hlookup
    exact ⟨(List.getElem?_eq_some_iff.mp he).1, e, he, congrArg Prod.fst hplace,
      congrArg Prod.snd hplace⟩
  · rintro pos pos' e e' ⟨⟨place, hlookup⟩, he⟩ ⟨⟨place', hlookup'⟩, he'⟩ hop hkey
    obtain ⟨f, hf, rfl⟩ := hpoints hlookup
    obtain ⟨f', hf', rfl⟩ := hpoints hlookup'
    obtain rfl : e = f := Option.some.inj (he.symm.trans hf)
    obtain rfl : e' = f' := Option.some.inj (he'.symm.trans hf')
    have hplace : e.place = e'.place := Prod.ext hop hkey
    rw [hplace] at hlookup
    exact Option.some.inj (hlookup.symm.trans hlookup')
  · obtain ⟨m, hm⟩ := Option.isSome_iff_exists.mp h.readable
    obtain ⟨m', hreplayed, hget⟩ := replayed_get hm
    refine ⟨m', hreplayed, ?_⟩
    intro op key
    rw [hget, h.contents]

theorem Exact.fresh (store : Option MaterializationStore) (threshold : Nat) :
    Exact P { extStore := store, materializationThresholdBytes := threshold } := by
  refine ⟨⟨fun _ => rfl, fun h => by simp at h⟩, rfl, rfl, rfl, ?_⟩
  intro op key
  rfl

/-! ## Writes -/

theorem logBytes_append (log log' : List LogEntry) :
    logBytes P (log ++ log') = logBytes P log + logBytes P log' := by
  simp [logBytes]

theorem logBytes_cons (e : LogEntry) (log : List LogEntry) :
    logBytes P (e :: log) = entryBytes P e + logBytes P log := by
  simp [logBytes]

/-- An entry that is replaced gives back the bytes it was counted with. -/
theorem bytes_appendOrReplaceLog (hindex : IndexOk b)
    (hbytes : b.logBytesEstimate = logBytes P b.log) (e : LogEntry) :
    (b.appendOrReplaceLog P e).logBytesEstimate =
      logBytes P (b.appendOrReplaceLog P e).log := by
  have happend : b.logBytesEstimate + entryBytes P e = logBytes P (b.log ++ [e]) := by
    rw [logBytes_append, hbytes]
    simp [logBytes]
  unfold Backend.appendOrReplaceLog
  by_cases henabled : b.logCompactionEnabled
  · rw [if_pos henabled]
    cases hlookup : b.logIndex.lookup e.place with
    | none => exact happend
    | some pos =>
        obtain ⟨before, old, after, hlog, hpos, -, -⟩ := hindex.points hlookup
        have hold : b.log[pos]? = some old := by
          rw [hlog, ← hpos]
          simp
        have hset : b.log.set pos e = before ++ e :: after := by
          rw [hlog, ← hpos]
          simp
        change b.logBytesEstimate - (b.log[pos]?.elim 0 (entryBytes P)) + entryBytes P e =
          logBytes P (b.log.set pos e)
        rw [hold, hset, hbytes, hlog, logBytes_append, logBytes_append, logBytes_cons,
          logBytes_cons, Option.elim_some]
        omega
  · rw [if_neg henabled]
    exact happend

variable {inner : InMemoryStateBackend.Backend}

theorem Exact.write (h : Exact P b)
    {e : LogEntry} (hstaged : inner.staged = b.inner.staged)
    (hinner : ∀ op key, inner.get op key =
      if e.place = (op, key) then e.outcome else b.inner.get op key) :
    Exact P ({ b with inner }.appendOrReplaceLog P e) := by
  have hindex : IndexOk { b with inner } := ⟨h.index.off, h.index.points⟩
  have hmat : ∀ op key, ({ b with inner }.appendOrReplaceLog P e).materialized P op key =
      b.materialized P op key := by
    intro op key
    unfold Backend.materialized
    rw [appendOrReplaceLog_lastMaterialization]
  refine ⟨hindex.appendOrReplaceLog P e, bytes_appendOrReplaceLog hindex h.bytes e, ?_, ?_, ?_⟩
  · rw [appendOrReplaceLog_inner]
    exact hstaged.trans h.unstaged
  · rw [appendOrReplaceLog_lastMaterialization]
    exact h.readable
  · intro op key
    rw [appendOrReplaceLog_inner, lastLogged_write h.index, hmat, hinner, ← h.contents]
    by_cases hplace : e.place = (op, key)
    · rw [if_pos hplace, if_pos hplace]
      rfl
    · rw [if_neg hplace, if_neg hplace]

theorem Exact.put (h : Exact P b) (op : Nat) (key : Key) (value : Value) :
    Exact P (b.put P op key value) := by
  refine h.write (e := ⟨op, key, value, false⟩) rfl ?_
  intro op' key'
  simp [InMemoryStateBackend.get_put, LogEntry.place, LogEntry.outcome]

theorem Exact.erase (h : Exact P b) (op : Nat) (key : Key) : Exact P (b.erase P op key) := by
  refine h.write (e := ⟨op, key, [], true⟩) rfl ?_
  intro op' key'
  simp [InMemoryStateBackend.get_erase, LogEntry.place, LogEntry.outcome]

/-! ## Materializations -/

theorem staged_snapshot (h : inner.staged = .empty) (id : Nat) :
    (inner.snapshot P.ipc id).1.staged = .empty := by
  change inner.staged.above id = .empty
  rw [h]
  rfl

/-- With nothing staged the snapshot of the inner backend reads back as its
live rows. -/
theorem restore_unstaged (h : inner.staged = .empty) (id : Nat) :
    ∃ m, InMemoryStateBackend.restore P.ipc (inner.snapshot P.ipc id).2 {} = some m ∧
      ∀ op key, m.get op key = inner.get op key := by
  obtain ⟨m, hm, hrows⟩ := InMemoryStateBackend.restore_snapshot P.ipc inner id
  refine ⟨m, hm, ?_⟩
  intro op key
  rw [hrows, InMemoryStateBackend.pinned_unstaged]
  rw [h]
  rfl

/-- A backend just materialized: an empty log over its own live rows. -/
theorem Exact.of_materialized (id : Nat) (hunstaged : inner.staged = .empty)
    (hindex : b.logIndex = ∅) (hlog : b.log = []) (hbytes : b.logBytesEstimate = 0)
    (hinner : b.inner = (inner.snapshot P.ipc id).1)
    (hmat : b.lastMaterialization = (inner.snapshot P.ipc id).2) : Exact P b := by
  obtain ⟨m, hm, hrows⟩ := restore_unstaged (P := P) hunstaged id
  refine ⟨⟨fun _ => hindex, fun h => by simp [hindex] at h⟩, by rw [hbytes, hlog]; rfl, ?_, ?_, ?_⟩
  · rw [hinner]
    exact staged_snapshot hunstaged id
  · rw [hmat, hm]
    rfl
  · intro op key
    unfold Backend.materialized
    rw [hlog, hmat, hm, hinner]
    exact hrows op key

theorem Exact.materializeLocked (h : Exact P b) (id : Nat) :
    Exact P (b.materializeLocked P id) := by
  refine .of_materialized id h.unstaged (materializeLocked_logIndex P b id)
    (materializeLocked_log P b id) ?_ (materializeLocked_inner P b id)
    (materializeLocked_lastMaterialization P b id)
  unfold Backend.materializeLocked
  cases b.extStore <;> rfl

theorem Exact.materializeNow (h : Exact P b) : Exact P (b.materializeNow P) := by
  unfold Backend.materializeNow
  by_cases hlog : b.log = []
  · rw [if_pos hlog]
    exact h
  · rw [if_neg hlog]
    exact h.materializeLocked 0

theorem Exact.snapshot (h : Exact P b) (id : Nat) : Exact P (b.snapshot P id).1 := by
  rw [snapshot_fst]
  by_cases hmat : b.materializes
  · rw [if_pos hmat]
    exact h.materializeLocked id
  · rw [if_neg hmat]
    exact h

/-- Switching the compaction off drops the index, on leaves it as it is: an
entry no index knows of is older than every one that follows. -/
theorem Exact.setLogCompactionEnabled (h : Exact P b) (enabled : Bool) :
    Exact P (b.setLogCompactionEnabled enabled) := by
  refine ⟨⟨?_, ?_⟩, h.bytes, h.unstaged, h.readable, h.contents⟩
  · intro hoff
    change enabled = false at hoff
    subst hoff
    rfl
  · intro place pos hlookup
    cases enabled with
    | true => exact h.index.points hlookup
    | false => simp [Backend.setLogCompactionEnabled] at hlookup

/-! ## Restores -/

theorem staged_replay (kgFilter : KeyGroupRange) (rows : List ChangelogRow)
    (inner : InMemoryStateBackend.Backend) :
    (rows.foldl (replayRow kgFilter) inner).staged = inner.staged := by
  induction rows generalizing inner with
  | nil => rfl
  | cons row rest ih =>
      rw [List.foldl_cons, ih]
      unfold replayRow
      split
      · rfl
      · split <;> rfl

private theorem staged_restoreParts {inner' : InMemoryStateBackend.Backend} {parsed : Parsed}
    {kgFilter : KeyGroupRange} (h : restoreParts P inner parsed kgFilter = some inner')
    (hstaged : inner.staged = .empty) : inner'.staged = .empty := by
  obtain ⟨base, hbase, rfl⟩ := Option.map_eq_some_iff.mp h
  rw [staged_replay]
  by_cases hmats : parsed.mats = []
  · rw [if_pos hmats] at hbase
    rw [← Option.some.inj hbase]
    exact hstaged
  · rw [if_neg hmats] at hbase
    obtain ⟨combined, -, hrestore⟩ := Option.bind_eq_some_iff.mp hbase
    unfold InMemoryStateBackend.restore at hrestore
    split at hrestore
    · rw [← Option.some.inj hrestore]
    · split at hrestore
      · simp at hrestore
      · rw [← Option.some.inj hrestore]

/-- What a restore that returns does: nothing but empty the log when the
snapshot is empty, a fresh materialization otherwise.  The index stays. -/
theorem restore_cases {snap : Snapshot} {kgFilter : KeyGroupRange} {b' : Backend}
    (h : b.restore P snap kgFilter = some b') :
    b'.logIndex = b.logIndex ∧ b'.log = [] ∧ b'.logBytesEstimate = 0 ∧
      (snap.bytes = [] ∧ b'.inner = b.inner ∧ b'.lastMaterialization = b.lastMaterialization ∨
        snap.bytes ≠ [] ∧ ∃ inner parsed,
          restoreParts P b.inner parsed kgFilter = some inner ∧
          b'.inner = (inner.snapshot P.ipc snap.checkpointId).1 ∧
          b'.lastMaterialization = (inner.snapshot P.ipc snap.checkpointId).2) := by
  unfold Backend.restore at h
  by_cases hbytes : snap.bytes = []
  · rw [if_pos hbytes] at h
    obtain rfl := Option.some.inj h
    exact ⟨rfl, rfl, rfl, .inl ⟨hbytes, rfl, rfl⟩⟩
  · rw [if_neg hbytes] at h
    cases hsplit : splitBlobs snap.bytes with
    | none => simp [hsplit] at h
    | some blobs =>
        cases hparse : blobs.foldlM (parseBlob P b.extStore snap.checkpointId) {} with
        | none => simp [hsplit, hparse] at h
        | some parsed =>
            cases hparts : restoreParts P b.inner parsed kgFilter with
            | none => simp [hsplit, hparse, hparts] at h
            | some inner =>
                simp only [hsplit, hparse, hparts] at h
                cases hstore : b.extStore with
                | none =>
                    simp only [hstore] at h
                    obtain rfl := Option.some.inj h
                    exact ⟨rfl, rfl, rfl, .inr ⟨hbytes, inner, parsed, hparts, rfl, rfl⟩⟩
                | some st =>
                    simp only [hstore] at h
                    obtain rfl := Option.some.inj h
                    exact ⟨rfl, rfl, rfl, .inr ⟨hbytes, inner, parsed, hparts, rfl, rfl⟩⟩

/-- An emptied log over the materialization there was. -/
theorem Exact.of_emptied (h : Exact P b) {b' : Backend} (hindex : b'.logIndex = ∅)
    (hlog : b'.log = []) (hbytes : b'.logBytesEstimate = 0)
    (hmat : b'.lastMaterialization = b.lastMaterialization)
    (hstaged : b'.inner.staged = .empty)
    (hrows : ∀ op key, b'.inner.get op key = b.materialized P op key) : Exact P b' := by
  refine ⟨⟨fun _ => hindex, fun hlookup => by simp [hindex] at hlookup⟩,
    by rw [hbytes, hlog]; rfl, hstaged, hmat ▸ h.readable, ?_⟩
  intro op key
  rw [hrows, hlog]
  unfold Backend.materialized
  rw [hmat]
  rfl

theorem LogConsistent.index_empty (h : LogConsistent P b) (hlog : b.log = []) :
    b.logIndex = ∅ := by
  have hnone : ∀ place, b.logIndex.lookup place = none := by
    rintro ⟨op, key⟩
    cases hlookup : b.logIndex.lookup (op, key) with
    | none => rfl
    | some pos =>
        have hlt := (h.indexed hlookup).1
        simp [hlog] at hlt
  have hentries : b.logIndex.entries = [] := by
    rw [List.eq_nil_iff_forall_not_mem]
    rintro ⟨place, pos⟩ hmem
    have hlookup := AList.mem_lookup_iff.mpr hmem
    simp [hnone] at hlookup
  exact AList.ext hentries

/-- Under an empty log the inner backend has the materialization's rows. -/
theorem LogConsistent.materialized (h : LogConsistent P b) (hlog : b.log = [])
    (op : Nat) (key : Key) : b.inner.get op key = b.materialized P op key := by
  obtain ⟨m, hreplayed, hget⟩ := h.contents
  unfold Backend.replayed at hreplayed
  unfold Backend.materialized
  rw [hlog] at hreplayed
  obtain ⟨m', hm', rfl⟩ := Option.map_eq_some_iff.mp hreplayed
  rw [hm', ← hget]
  rfl

private theorem staged_thrown (h : Exact P b) (thrown : Thrown) (kgFilter : KeyGroupRange) :
    (thrown.inner b kgFilter).staged = .empty := by
  unfold Thrown.inner
  cases thrown.rows with
  | none => exact h.unstaged
  | some rows => rfl

variable {snap : Snapshot} {kgFilter : KeyGroupRange} {thrown : Thrown}

theorem afterRestore_thrown (h : b.restore P snap kgFilter = none) :
    b.afterRestore P snap kgFilter thrown =
      { b with
        inner := thrown.inner b kgFilter
        lastMaterializationHandle := thrown.handle
        log := []
        logBytesEstimate := 0 } := by
  unfold Backend.afterRestore
  rw [h]

theorem bytes_ne_nil_of_thrown (h : b.restore P snap kgFilter = none) :
    snap.bytes ≠ [] := by
  intro hbytes
  simp [Backend.restore, hbytes] at h

theorem Exact.afterRestore (h : Exact P b) (hwhole : RestoresWhole P b snap kgFilter thrown) :
    Exact P (b.afterRestore P snap kgFilter thrown) := by
  obtain ⟨hindex, hrows⟩ := hwhole
  cases hrestore : b.restore P snap kgFilter with
  | none =>
      rw [if_neg (bytes_ne_nil_of_thrown hrestore), hrestore] at hrows
      rw [afterRestore_thrown hrestore]
      refine h.of_emptied hindex rfl rfl rfl (staged_thrown h thrown kgFilter) ?_
      intro op key
      rcases hrows with hsome | hrows
      · simp at hsome
      · exact hrows op key
  | some b' =>
      have heq : b.afterRestore P snap kgFilter thrown = b' := by
        unfold Backend.afterRestore
        rw [hrestore]
      rw [heq]
      obtain ⟨hindex', hlog, hbytes, ⟨hempty, hinner, hmat⟩ | ⟨-, inner, parsed, hparts, hinner,
        hmat⟩⟩ := restore_cases hrestore
      · rw [if_pos hempty] at hrows
        refine h.of_emptied (hindex'.trans hindex) hlog hbytes hmat
          (by rw [hinner]; exact h.unstaged) ?_
        intro op key
        rw [hinner]
        exact hrows op key
      · exact .of_materialized _ (staged_restoreParts hparts h.unstaged) (hindex'.trans hindex)
          hlog hbytes hinner hmat

/-- Only such a restore leaves the four structures in agreement. -/
theorem restoresWhole_of_logConsistent
    (h : LogConsistent P (b.afterRestore P snap kgFilter thrown)) :
    RestoresWhole P b snap kgFilter thrown := by
  cases hrestore : b.restore P snap kgFilter with
  | none =>
      rw [afterRestore_thrown hrestore] at h
      refine ⟨h.index_empty rfl, ?_⟩
      rw [if_neg (bytes_ne_nil_of_thrown hrestore)]
      right
      intro op key
      exact h.materialized rfl op key
  | some b' =>
      have heq : b.afterRestore P snap kgFilter thrown = b' := by
        unfold Backend.afterRestore
        rw [hrestore]
      rw [heq] at h
      obtain ⟨hindex', hlog, -, hcases⟩ := restore_cases hrestore
      refine ⟨hindex'.symm.trans (h.index_empty hlog), ?_⟩
      rcases hcases with ⟨hempty, hinner, hmat⟩ | ⟨hne, -⟩
      · rw [if_pos hempty]
        intro op key
        have hrow := h.materialized hlog op key
        unfold Backend.materialized at hrow ⊢
        rw [hinner, hmat] at hrow
        exact hrow
      · rw [if_neg hne, hrestore]
        exact .inl rfl

/-! ## Whole histories -/

theorem Exact.apply (h : Exact P b) {c : LogCall} (hkeeps : c.KeepsLog P b) :
    Exact P (c.apply P b) := by
  cases c with
  | put op key value => exact h.put op key value
  | erase op key => exact h.erase op key
  | snapshot id => exact h.snapshot id
  | materializeNow => exact h.materializeNow
  | restore snap kgFilter thrown => exact h.afterRestore hkeeps
  | setLogCompactionEnabled enabled => exact h.setLogCompactionEnabled enabled
  | setMaterializationThresholdBytes threshold =>
      exact ⟨⟨h.index.off, h.index.points⟩, h.bytes, h.unstaged, h.readable, h.contents⟩

end

/-- From a fresh backend, index, size, log and materialization agree in every
state of a history exactly when every restore in it finds the index empty and,
where it has nothing to restore or throws, leaves the inner backend with the
rows of the last materialization. -/
theorem log_consistent_iff (P : Platform) (store : Option MaterializationStore) (threshold : Nat)
    (calls : List LogCall) :
    (∀ pre, pre <+: calls → LogConsistent P (pre.foldl (LogCall.apply P)
        { extStore := store, materializationThresholdBytes := threshold })) ↔
      Runs.Allowed (LogCall.apply P) (fun _ b c => c.KeepsLog P b) []
        { extStore := store, materializationThresholdBytes := threshold } calls := by
  refine Runs.allowed_iff_of_inv (fun _ h => h.logConsistent) (fun _ _ h hok => h.apply hok) ?_
    (Exact.fresh store threshold)
  intro b c _ hnext
  cases c with
  | restore snap kgFilter thrown => exact restoresWhole_of_logConsistent hnext
  | _ => trivial

/-- One row written, then a snapshot restored into the same backend. -/
def restoredInPlace : List LogCall :=
  [.put 1 [5] [7],
    .restore ((({} : Backend).put recordPlatform 1 [5] [7]).snapshot recordPlatform 1).2 {}
      ⟨[], none⟩]

/-- The restore returns, empties the log and leaves the index pointing into it. -/
theorem restore_leaves_stale_index :
    (((({} : Backend).put recordPlatform 1 [5] [7]).restore recordPlatform
        ((({} : Backend).put recordPlatform 1 [5] [7]).snapshot recordPlatform 1).2 {}).isSome ∧
      (restoredInPlace.foldl (LogCall.apply recordPlatform) {}).logIndex.lookup (1, [5]) =
        some 0 ∧
      (restoredInPlace.foldl (LogCall.apply recordPlatform) {}).log = []) ∧
      ¬ LogConsistent recordPlatform (restoredInPlace.foldl (LogCall.apply recordPlatform) {}) := by
  have hindex : (restoredInPlace.foldl (LogCall.apply recordPlatform) {}).logIndex.lookup
      (1, [5]) = some 0 := by decide +kernel
  have hlog : (restoredInPlace.foldl (LogCall.apply recordPlatform) {}).log = [] := by
    decide +kernel
  refine ⟨⟨by decide +kernel, hindex, hlog⟩, ?_⟩
  intro h
  have hlt := (h.indexed hindex).1
  rw [hlog] at hlt
  exact absurd hlt (by decide)

end Clink.Ports.ChangelogStateBackend

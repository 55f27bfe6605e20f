import Clink.Ports.ChangelogStateBackend

/-!
# Changelog snapshots and staged rows

Runs of calls on a changelog backend, from a fresh one.  `Rows` is the plain
account of what such a run did: the live rows, and for each checkpoint the
rows an operator had when it was staged.  A snapshot of a checkpoint is due
the staged rows of the operators staged for it and the live rows of the others
(`Rows.due`).

Staging reaches the inner backend only, so a snapshot that does not
materialize carries live rows of the log in place of staged ones, and a
snapshot that does leaves a materialization without the writes made after the
barrier, which the emptied log no longer has.  `Honours` is what it takes for
one snapshot to come out right, and
`snapshot_restores_due_iff` says that this is exactly when it does.
-/

namespace Clink.Ports.ChangelogStateBackend

open Clink.Verified
open Clink.Ports.InMemoryStateBackend (Bytes Key Value Snapshot PerOp)

/-! ## Runs -/

inductive Call where
  | put (op : Nat) (key : Key) (value : Value)
  | erase (op : Nat) (key : Key)
  | stageOperatorRows (op id : Nat)
  | materializeNow
  | setMaterializationThresholdBytes (threshold : Nat)
  | setLogCompactionEnabled (enabled : Bool)
  | snapshot (id : Nat)
  deriving DecidableEq

def Call.apply (P : Platform) (b : Backend) : Call → Backend
  | .put op key value => b.put P op key value
  | .erase op key => b.erase P op key
  | .stageOperatorRows op id => b.stageOperatorRows op id
  | .materializeNow => b.materializeNow P
  | .setMaterializationThresholdBytes threshold => b.setMaterializationThresholdBytes threshold
  | .setLogCompactionEnabled enabled => b.setLogCompactionEnabled enabled
  | .snapshot id => (b.snapshot P id).1

def run (P : Platform) (b : Backend) (calls : List Call) : Backend :=
  calls.foldl (Call.apply P) b

/-- The live rows, and the rows each operator had when it was last staged for
a checkpoint. -/
structure Rows where
  live : Nat → Key → Option Value := fun _ _ => none
  staged : Nat → Nat → Option (Key → Option Value) := fun _ _ => none

def Rows.next (r : Rows) : Call → Rows
  | .put op key value =>
      { r with live := fun op' key' =>
          if op = op' ∧ key = key' then some value else r.live op' key' }
  | .erase op key =>
      { r with live := fun op' key' => if op = op' ∧ key = key' then none else r.live op' key' }
  | .stageOperatorRows op id =>
      { r with staged := fun id' op' =>
          if id = id' ∧ op = op' then some (r.live op) else r.staged id' op' }
  | _ => r

/-- The account of a run. -/
def recorded (calls : List Call) : Rows := calls.foldl Rows.next {}

/-- The rows a snapshot of the checkpoint has to hold. -/
def Rows.due (r : Rows) (id op : Nat) (key : Key) : Option Value :=
  match r.staged id op with
  | some rows => rows key
  | none => r.live op key

/-! ## What a run keeps -/

/-- The backend's rows, copies and log are those of the account. -/
structure Tracks (P : Platform) (b : Backend) (r : Rows) : Prop where
  live : ∀ op key, b.inner.get op key = r.live op key
  pinned : ∀ {id op rows}, (b.inner.staged.find? id).bind (AList.lookup op) = some rows →
    ∃ f, r.staged id op = some f ∧ ∀ key, rows.lookup key = f key
  logged : ∀ {op key o}, lastLogged b.log op key = some o → o = r.live op key
  index : IndexOk b
  written : Written P b
  resolves : Resolves b.extStore b

variable {P : Platform} {b : Backend} {r : Rows}

theorem Tracks.fresh (store : Option MaterializationStore) :
    Tracks P { extStore := store } {} where
  live _ _ := rfl
  pinned h := by simp [SortedMap.find?, SortedMap.empty] at h
  logged h := by simp at h
  index := ⟨fun _ => rfl, fun h => by simp at h⟩
  written := .inl rfl
  resolves := ⟨rfl, fun _ _ => rfl, fun _ h => absurd rfl h⟩

theorem Tracks.log_write (h : Tracks P b r) {inner : InMemoryStateBackend.Backend}
    {live : Nat → Key → Option Value} (e : LogEntry) (hstaged : inner.staged = b.inner.staged)
    (hinner : ∀ op key, inner.get op key = live op key)
    (hrow : live e.op e.key = e.outcome)
    (hother : ∀ op key, e.place ≠ (op, key) → live op key = r.live op key) :
    Tracks P ({ b with inner }.appendOrReplaceLog P e) { r with live } := by
  have hindex : IndexOk { b with inner } := ⟨h.index.off, h.index.points⟩
  refine ⟨?_, ?_, ?_, hindex.appendOrReplaceLog P e, ?_, ?_⟩
  · simpa using hinner
  · intro id op rows hcopy
    rw [appendOrReplaceLog_inner, hstaged] at hcopy
    exact h.pinned hcopy
  · intro op key o ho
    rw [lastLogged_appendOrReplaceLog hindex] at ho
    by_cases hplace : e.place = (op, key)
    · rw [if_pos hplace] at ho
      obtain ⟨rfl, rfl⟩ := Prod.mk.inj hplace
      exact (Option.some.inj ho).symm.trans hrow.symm
    · rw [if_neg hplace] at ho
      exact (h.logged ho).trans (hother op key hplace).symm
  · unfold Written
    rw [appendOrReplaceLog_lastMaterialization]
    exact h.written
  · refine ⟨by simp, ?_, ?_⟩
    · simpa using h.resolves.unset
    · simpa using h.resolves.kept

theorem Tracks.put (h : Tracks P b r) (op : Nat) (key : Key) (value : Value) :
    Tracks P (b.put P op key value) (r.next (.put op key value)) := by
  refine h.log_write ⟨op, key, value, false⟩ rfl ?_ ?_ ?_
  · intro op' key'
    rw [InMemoryStateBackend.get_put, h.live]
  · simp [LogEntry.outcome]
  · intro op' key' hplace
    exact if_neg fun heq => hplace (Prod.ext heq.1 heq.2)

theorem Tracks.erase (h : Tracks P b r) (op : Nat) (key : Key) :
    Tracks P (b.erase P op key) (r.next (.erase op key)) := by
  refine h.log_write ⟨op, key, [], true⟩ rfl ?_ ?_ ?_
  · intro op' key'
    rw [InMemoryStateBackend.get_erase, h.live]
  · simp [LogEntry.outcome]
  · intro op' key' hplace
    exact if_neg fun heq => hplace (Prod.ext heq.1 heq.2)

theorem staged_stageOperatorRows (b : InMemoryStateBackend.Backend) (op id op' id' : Nat) :
    ((b.stageOperatorRows op id).staged.find? id').bind (AList.lookup op') =
      if id = id' ∧ op = op' then some ((b.state.lookup op).getD ∅)
      else (b.staged.find? id').bind (AList.lookup op') := by
  unfold InMemoryStateBackend.Backend.stageOperatorRows
  simp only [SortedMap.find?_upsert]
  by_cases hid : id' = id
  · subst hid
    rw [if_pos rfl, Option.bind_some]
    by_cases hop : op' = op
    · subst hop
      simp
    · rw [AList.lookup_insert_ne hop, if_neg fun h => hop h.2.symm]
      cases b.staged.find? id' <;> rfl
  · rw [if_neg hid, if_neg fun h => hid h.1.symm]

theorem Tracks.stageOperatorRows (h : Tracks P b r) (op id : Nat) :
    Tracks P (b.stageOperatorRows op id) (r.next (.stageOperatorRows op id)) := by
  refine ⟨h.live, ?_, h.logged, ⟨h.index.off, h.index.points⟩, h.written,
    ⟨h.resolves.mode, h.resolves.unset, h.resolves.kept⟩⟩
  intro id' op' rows hcopy
  change ((b.inner.stageOperatorRows op id).staged.find? id').bind _ = _ at hcopy
  rw [staged_stageOperatorRows] at hcopy
  change ∃ f, (if id = id' ∧ op = op' then some (r.live op) else r.staged id' op') = some f ∧ _
  by_cases hsame : id = id' ∧ op = op'
  · rw [if_pos hsame] at hcopy ⊢
    refine ⟨_, rfl, ?_⟩
    intro key
    rw [← h.live, ← Option.some.inj hcopy]
    unfold InMemoryStateBackend.Backend.get Table.get
    cases b.inner.state.lookup op <;> rfl
  · rw [if_neg hsame] at hcopy ⊢
    exact h.pinned hcopy

/-- The backend keeps the payload a materialization just wrote. -/
theorem resolves_materializeLocked (b : Backend) (id : Nat) :
    Resolves (b.materializeLocked P id).extStore (b.materializeLocked P id) := by
  have hbytes : (b.inner.snapshot P.ipc id).2.bytes ≠ [] := P.ipc.write_ne_nil _
  unfold Backend.materializeLocked
  cases hext : b.extStore with
  | none => exact ⟨rfl, fun h => by simp at h, fun h => by simp at h⟩
  | some st =>
      refine ⟨rfl, fun _ h => absurd h hbytes, fun _ _ => ⟨st.handleFor_ne_nil id, _, rfl, ?_⟩⟩
      unfold MaterializationStore.read MaterializationStore.write
      exact AList.lookup_insert _

section
variable (P : Platform) (b : Backend) (id : Nat)

@[simp] theorem materializeLocked_inner :
    (b.materializeLocked P id).inner = (b.inner.snapshot P.ipc id).1 := by
  unfold Backend.materializeLocked
  cases b.extStore <;> rfl

@[simp] theorem materializeLocked_lastMaterialization :
    (b.materializeLocked P id).lastMaterialization = (b.inner.snapshot P.ipc id).2 := by
  unfold Backend.materializeLocked
  cases b.extStore <;> rfl

@[simp] theorem materializeLocked_log : (b.materializeLocked P id).log = [] := by
  unfold Backend.materializeLocked
  cases b.extStore <;> rfl

@[simp] theorem materializeLocked_logIndex : (b.materializeLocked P id).logIndex = ∅ := by
  unfold Backend.materializeLocked
  cases b.extStore <;> rfl

end

theorem Tracks.materializeLocked (h : Tracks P b r) (id : Nat) :
    Tracks P (b.materializeLocked P id) r := by
  refine ⟨?_, ?_, ?_, ⟨fun _ => by simp, fun hindex => by simp at hindex⟩, ?_,
    resolves_materializeLocked b id⟩
  · intro op key
    rw [materializeLocked_inner]
    exact h.live op key
  · intro id' op rows hcopy
    rw [materializeLocked_inner] at hcopy
    change ((b.inner.staged.above id).find? id').bind _ = _ at hcopy
    cases hops : (b.inner.staged.above id).find? id' with
    | none => simp [hops] at hcopy
    | some ops =>
        have hold : b.inner.staged.find? id' = some ops :=
          SortedMap.find?_eq_some_iff.mpr
            (SortedMap.mem_above.mp (SortedMap.find?_eq_some_iff.mp hops)).1
        rw [hops, ← hold] at hcopy
        exact h.pinned hcopy
  · intro op key o ho
    simp at ho
  · right
    rw [materializeLocked_lastMaterialization]
    exact ⟨_, rfl⟩

/-- The backend a snapshot leaves behind, and whose rows its blob carries. -/
theorem snapshot_fst (b : Backend) (id : Nat) :
    (b.snapshot P id).1 = if b.materializes then b.materializeLocked P id else b := rfl

theorem Tracks.apply (h : Tracks P b r) (c : Call) : Tracks P (c.apply P b) (r.next c) := by
  cases c with
  | put op key value => exact h.put op key value
  | erase op key => exact h.erase op key
  | stageOperatorRows op id => exact h.stageOperatorRows op id
  | materializeNow =>
      change Tracks P (if b.log = [] then b else b.materializeLocked P 0) r
      split
      · exact h
      · exact h.materializeLocked 0
  | setMaterializationThresholdBytes threshold =>
      exact ⟨h.live, h.pinned, h.logged, ⟨h.index.off, h.index.points⟩, h.written,
        ⟨h.resolves.mode, h.resolves.unset, h.resolves.kept⟩⟩
  | setLogCompactionEnabled enabled =>
      refine ⟨h.live, h.pinned, h.logged, ⟨?_, ?_⟩, h.written,
        ⟨h.resolves.mode, h.resolves.unset, h.resolves.kept⟩⟩
      · intro hoff
        change enabled = false at hoff
        subst hoff
        rfl
      · intro place pos hindex
        cases enabled with
        | true => exact h.index.points hindex
        | false =>
            change (∅ : AList fun _ : Nat × Key => Nat).lookup place = some pos at hindex
            simp at hindex
  | snapshot id =>
      change Tracks P (b.snapshot P id).1 r
      rw [snapshot_fst]
      split
      · exact h.materializeLocked id
      · exact h

theorem run_tracks (P : Platform) (store : Option MaterializationStore) (calls : List Call) :
    Tracks P (run P { extStore := store } calls) (recorded calls) := by
  induction calls using List.reverseRecOn with
  | nil => exact .fresh store
  | append_singleton rest c ih =>
      unfold run recorded at ih ⊢
      rw [List.foldl_append, List.foldl_append]
      exact ih.apply c

/-! ## What a snapshot restores to -/

/-- The row the last materialization holds. -/
def Backend.materialized (P : Platform) (b : Backend) (op : Nat) (key : Key) : Option Value :=
  (InMemoryStateBackend.restore P.ipc b.lastMaterialization {}).bind fun m => m.get op key

/-- Restored over the full range into a fresh backend on this store, the
snapshot yields these rows. -/
def Restores (P : Platform) (store : Option MaterializationStore) (snap : Snapshot)
    (rows : Nat → Key → Option Value) : Prop :=
  ∃ c, Backend.restore P { extStore := store } snap {} = some c ∧
    ∀ op key, c.inner.get op key = rows op key

private theorem baseRow_single (h : Written P b) (store : Option MaterializationStore)
    (op : Nat) (key : Key) :
    baseRow P {} { extStore := store } [b] op key = b.materialized P op key := by
  have hsnap : b.lastMaterialization =
      ⟨b.lastMaterialization.checkpointId, b.lastMaterialization.bytes⟩ := rfl
  unfold baseRow Backend.materialized Backend.matRows
  rw [List.filterMap_cons, List.filterMap_nil]
  rcases h with h | ⟨rows, h⟩
  · rw [if_pos h, InMemoryStateBackend.restore, if_pos h]
    rfl
  · rw [hsnap, h, if_neg (P.ipc.write_ne_nil rows), P.ipc.read_write,
      InMemoryStateBackend.restore_write]
    simp only [Option.bind_some, List.cons_ne_nil, if_false, List.flatten_cons,
      List.flatten_nil, List.append_nil]
    exact (InMemoryStateBackend.get_restoreRows {} rows op key).symm

theorem restore_blob {store : Option MaterializationStore} (hres : Resolves store b)
    (hwritten : Written P b) (id : Nat) :
    ∃ c, Backend.restore P { extStore := store } ⟨id, P.changelogIpc.write b.blobRows⟩ {} =
        some c ∧
      ∀ op key, c.inner.get op key =
        (lastLogged b.log op key).getD (b.materialized P op key) := by
  have hframe := restore_frame (P := P) { extStore := store } [b]
    (List.cons_ne_nil _ _) (fun h => absurd rfl h) (by simpa using hres) (by simpa using hwritten)
    id {}
  obtain ⟨c, hc, hrows⟩ := hframe
  refine ⟨c, hc, ?_⟩
  intro op key
  have hrange : keyInRange {} key = true := by
    rw [keyInRange_eq, InMemoryStateBackend.outOfRange_full]
    rfl
  rw [hrows, hrange, if_pos rfl, baseRow_single hwritten]
  simp

theorem restores_iff {store : Option MaterializationStore} (h : Tracks P b r) (id : Nat)
    (hres : Resolves store (b.snapshot P id).1) (rows : Nat → Key → Option Value) :
    Restores P store (b.snapshot P id).2 rows ↔
      ∀ op key, (lastLogged (b.snapshot P id).1.log op key).getD
        ((b.snapshot P id).1.materialized P op key) = rows op key := by
  have hwritten : Written P (b.snapshot P id).1 := (h.apply (.snapshot id)).written
  obtain ⟨c, hc, hrows⟩ := restore_blob hres hwritten id
  constructor
  · rintro ⟨c', hc', hrows'⟩ op key
    have hsame : some c = some c' := hc.symm.trans hc'
    rw [← hrows, Option.some.inj hsame, hrows']
  · intro hall
    exact ⟨c, hc, fun op key => (hrows op key).trans (hall op key)⟩

/-- The checkpoint still has a pinned copy of the operator's rows. -/
def StillPinned (b : Backend) (id op : Nat) : Prop :=
  ((b.inner.staged.find? id).bind (AList.lookup op)).isSome

/-- What it takes for a snapshot of the checkpoint to hold the rows it is
due.  When it materializes: every operator staged for it still has its copy, or
live rows equal to the staged ones.  When it does not: a logged row is due its
live value, and every other row the value it has in the last materialization. -/
def Honours (P : Platform) (b : Backend) (r : Rows) (id : Nat) : Prop :=
  if b.materializes then
    ∀ op rows, r.staged id op = some rows → StillPinned b id op ∨ ∀ key, rows key = r.live op key
  else
    ∀ op key,
      if (lastLogged b.log op key).isSome then r.live op key = r.due id op key
      else b.materialized P op key = r.due id op key

theorem materialized_materializeLocked (id op : Nat) (key : Key) :
    (b.materializeLocked P id).materialized P op key = b.inner.pinned id op key := by
  obtain ⟨m, hm, hrows⟩ := InMemoryStateBackend.restore_snapshot P.ipc b.inner id
  unfold Backend.materialized
  rw [materializeLocked_lastMaterialization, hm]
  exact hrows op key

/-- The inner snapshot holds what is due except where a staged copy is gone. -/
theorem pinned_eq_due_iff (h : Tracks P b r) (id : Nat) :
    (∀ op key, b.inner.pinned id op key = r.due id op key) ↔
      ∀ op rows, r.staged id op = some rows →
        StillPinned b id op ∨ ∀ key, rows key = r.live op key := by
  unfold InMemoryStateBackend.Backend.pinned Rows.due StillPinned
  constructor
  · intro hall op rows hstaged
    cases hcopy : (b.inner.staged.find? id).bind (AList.lookup op) with
    | some copy => exact .inl rfl
    | none =>
        right
        intro key
        have hrow := hall op key
        rw [hcopy, hstaged, h.live] at hrow
        exact hrow.symm
  · intro hcond op key
    cases hcopy : (b.inner.staged.find? id).bind (AList.lookup op) with
    | some copy =>
        obtain ⟨f, hstaged, hf⟩ := h.pinned hcopy
        rw [hstaged]
        exact hf key
    | none =>
        cases hstaged : r.staged id op with
        | none => exact h.live op key
        | some rows =>
            rcases hcond op rows hstaged with hpinned | hsame
            · simp [hcopy] at hpinned
            · exact (h.live op key).trans (hsame key).symm

theorem honours_iff (h : Tracks P b r) (id : Nat) :
    (∀ op key, (lastLogged (b.snapshot P id).1.log op key).getD
        ((b.snapshot P id).1.materialized P op key) = r.due id op key) ↔ Honours P b r id := by
  unfold Honours
  rw [snapshot_fst]
  by_cases hmat : b.materializes
  · rw [if_pos hmat, if_pos hmat, ← pinned_eq_due_iff h id]
    simp only [materializeLocked_log, lastLogged_nil, Option.getD_none,
      materialized_materializeLocked]
  · rw [if_neg hmat, if_neg hmat]
    refine forall_congr' fun op => forall_congr' fun key => ?_
    cases hlogged : lastLogged b.log op key with
    | none => simp
    | some o => simp [h.logged hlogged]

/-! ## Restoring later -/

/-- The checkpoint a call materializes under, if it does. -/
def Backend.materializesUnder (b : Backend) : Call → Option Nat
  | .materializeNow => if b.log = [] then none else some 0
  | .snapshot id => if b.materializes then some id else none
  | _ => none

/-- None of the calls writes to an external store under the handle. -/
def KeepsPayload (P : Platform) (handle : Bytes) : Backend → List Call → Prop
  | _, [] => True
  | b, c :: rest =>
      (∀ st, b.extStore = some st → ∀ id, b.materializesUnder c = some id →
        st.handleFor id ≠ handle) ∧
      KeepsPayload P handle (c.apply P b) rest

private theorem extStore_apply (b : Backend) (c : Call) :
    (c.apply P b).extStore =
      match b.materializesUnder c with
      | none => b.extStore
      | some id => (b.materializeLocked P id).extStore := by
  unfold Backend.materializesUnder
  cases c with
  | put op key value => simp [Call.apply, Backend.put]
  | erase op key => simp [Call.apply, Backend.erase]
  | stageOperatorRows op id => rfl
  | setMaterializationThresholdBytes threshold => rfl
  | setLogCompactionEnabled enabled => rfl
  | materializeNow =>
      change (if b.log = [] then b else b.materializeLocked P 0).extStore = _
      by_cases hlog : b.log = []
      · simp [hlog]
      · simp [hlog]
  | snapshot id =>
      change (b.snapshot P id).1.extStore = _
      rw [snapshot_fst]
      by_cases hmat : b.materializes
      · simp [hmat]
      · simp [hmat]

private theorem extStore_materializeLocked (id : Nat) (hext : b.extStore = none) :
    (b.materializeLocked P id).extStore = none := by
  unfold Backend.materializeLocked
  rw [hext]

/-- A materialization keeps every payload but the one it writes over. -/
theorem read_materializeLocked {st : MaterializationStore} (hext : b.extStore = some st)
    (id : Nat) :
    ∃ st', (b.materializeLocked P id).extStore = some st' ∧
      ∀ handle, st.handleFor id ≠ handle → st'.read handle = st.read handle := by
  unfold Backend.materializeLocked
  rw [hext]
  refine ⟨_, rfl, ?_⟩
  intro handle hne
  exact AList.lookup_insert_ne (Ne.symm hne)

private theorem resolves_apply {taken : Backend} (hres : Resolves b.extStore taken) (c : Call)
    (hkept : ∀ st, b.extStore = some st → ∀ id, b.materializesUnder c = some id →
      st.handleFor id ≠ taken.lastMaterializationHandle) :
    Resolves (c.apply P b).extStore taken := by
  rw [extStore_apply]
  cases hunder : b.materializesUnder c with
  | none => exact hres
  | some id =>
      cases hext : b.extStore with
      | none =>
          rw [hext] at hres
          change Resolves (b.materializeLocked P id).extStore taken
          rw [extStore_materializeLocked id hext]
          exact hres
      | some st =>
          obtain ⟨st', hst', hread⟩ := read_materializeLocked (P := P) hext id
          change Resolves (b.materializeLocked P id).extStore taken
          rw [hst']
          rw [hext] at hres
          refine ⟨hres.mode, hres.unset, ?_⟩
          intro hsome hbytes
          obtain ⟨hhandle, own, hown, hpayload⟩ := hres.kept hsome hbytes
          obtain rfl : st = own := Option.some.inj hown
          exact ⟨hhandle, st', rfl,
            (hread _ (hkept st hext id hunder)).trans hpayload⟩

/-- While its payload is kept, a materialization row resolves. -/
theorem resolves_run {taken : Backend} {calls : List Call}
    (hres : Resolves b.extStore taken)
    (hkept : KeepsPayload P taken.lastMaterializationHandle b calls) :
    Resolves (run P b calls).extStore taken := by
  induction calls generalizing b with
  | nil => exact hres
  | cons c rest ih =>
      obtain ⟨hfirst, hrest⟩ := hkept
      exact ih (resolves_apply hres c hfirst) hrest

/-- In every run, in-blob or over an external store, a snapshot restored at
any later point of the run yields the rows it is due exactly when it was taken
in a state that honours its staging; only the payload it names must not have
been overwritten in the store by then. -/
theorem snapshot_restores_due_iff (P : Platform) (store : Option MaterializationStore)
    (before after : List Call) (id : Nat)
    (hkept : KeepsPayload P
      ((run P { extStore := store } before).snapshot P id).1.lastMaterializationHandle
      ((run P { extStore := store } before).snapshot P id).1 after) :
    Restores P (run P { extStore := store } (before ++ .snapshot id :: after)).extStore
        ((run P { extStore := store } before).snapshot P id).2 ((recorded before).due id) ↔
      Honours P (run P { extStore := store } before) (recorded before) id := by
  have htracks := run_tracks P store before
  have hsnap : Resolves ((run P { extStore := store } before).snapshot P id).1.extStore
      ((run P { extStore := store } before).snapshot P id).1 :=
    (htracks.apply (.snapshot id)).resolves
  have hrun : run P { extStore := store } (before ++ .snapshot id :: after) =
      run P ((run P { extStore := store } before).snapshot P id).1 after := by
    unfold run
    rw [List.foldl_append, List.foldl_cons]
    rfl
  rw [hrun, restores_iff htracks id (resolves_run hsnap hkept)]
  exact honours_iff htracks id

/-- An offset row staged for checkpoint 5 and advanced before its snapshot. -/
def advancedAfterStaging : List Call :=
  [.put 1 [255] [7], .stageOperatorRows 1 5, .put 1 [255] [8]]

/-- The same over a file store, materialized by the snapshot, which keeps the
staged copy; the next checkpoint's payload goes to another file. -/
theorem snapshot_restores_due_materialized :
    Restores recordPlatform
      (run recordPlatform { extStore := some (fileMaterializationStore [109]) }
        ((advancedAfterStaging ++ [.setMaterializationThresholdBytes 0]) ++
          .snapshot 5 :: [.put 1 [255] [9], .snapshot 6])).extStore
      ((run recordPlatform { extStore := some (fileMaterializationStore [109]) }
        (advancedAfterStaging ++ [.setMaterializationThresholdBytes 0])).snapshot
          recordPlatform 5).2
      ((recorded (advancedAfterStaging ++ [.setMaterializationThresholdBytes 0])).due 5) := by
  refine (snapshot_restores_due_iff recordPlatform _ _ _ 5 ?_).mpr ?_
  · refine ⟨?_, ?_, trivial⟩
    · intro st _ id hid
      simp [Backend.materializesUnder] at hid
    · intro st hst id hid
      obtain rfl : _ = st := Option.some.inj hst
      obtain rfl : 6 = id := Option.some.inj hid
      decide
  · intro op rows hstaged
    left
    by_cases hop : 1 = op
    · subst hop
      rfl
    · change (if 5 = 5 ∧ 1 = op then _ else none) = some rows at hstaged
      rw [if_neg fun h => hop h.2] at hstaged
      simp at hstaged

/-- Below the threshold the log carries the later write over the staged row. -/
theorem staged_row_gives_way_to_log :
    ¬ Restores recordPlatform none
      ((run recordPlatform {} advancedAfterStaging).snapshot recordPlatform 5).2
      ((recorded advancedAfterStaging).due 5) := by
  have htracks := run_tracks recordPlatform none advancedAfterStaging
  have hres := (htracks.apply (.snapshot 5)).resolves
  intro hrestores
  have hhonours := (honours_iff htracks 5).mp ((restores_iff htracks 5 hres _).mp hrestores)
  have hrow := hhonours 1 [255]
  revert hrow
  decide

end Clink.Ports.ChangelogStateBackend

import Mathlib.Data.List.ReduceOption
import Clink.Ports.ChangelogStaging

/-!
# Scale-down over changelog snapshots

One new subtask inherits several parents.  The plain backend merges the rows of
their snapshots, keeping the greater of two offsets of one operator-state row.
The changelog backend merges only the materializations that way; the logs are
replayed after them, parent by parent, as plain writes.

`mergedRow` is what the plain merge keeps of one row.  A row that no log
mentions comes out the same (`restored_row` and `Split.covers`); a row some log mentions
is left as the last parent that logged it has it, so the two agree there
exactly when that parent's row is the one the merge keeps.
-/

namespace Clink.Ports.ChangelogStateBackend

open Clink.Verified
open Clink.Ports.InMemoryStateBackend (Bytes Key Value Snapshot SnapshotRow KeyGroupRange
  restoreValue outOfRange isOperatorState atLeastAsAdvanced)

/-! ## Parents -/

/-- A parent subtask: its store and everything it did before the snapshot. -/
structure Parent where
  store : Option MaterializationStore := none
  calls : List Call

def Parent.backend (P : Platform) (p : Parent) : Backend := run P { extStore := p.store } p.calls

/-- The parent once its snapshot is taken. -/
def Parent.taken (P : Platform) (id : Nat) (p : Parent) : Backend :=
  ((p.backend P).snapshot P id).1

/-- The parent's changelog snapshot. -/
def Parent.blob (P : Platform) (id : Nat) (p : Parent) : Bytes :=
  ((p.backend P).snapshot P id).2.bytes

/-- The plain snapshot of the parent's rows. -/
def Parent.plain (P : Platform) (id : Nat) (p : Parent) : Bytes :=
  ((p.backend P).inner.snapshot P.ipc id).2.bytes

/-- The parent's row when the snapshot is taken. -/
def Parent.row (p : Parent) (op : Nat) (key : Key) : Option Value :=
  (recorded p.calls).live op key

/-- A history of writes and materializations only. -/
def NoStaging (calls : List Call) : Prop := ∀ op id, Call.stageOperatorRows op id ∉ calls

/-! ## The split of a history between materialization and log -/

/-- Nothing is staged, the materialization has one row at a place, and it has
the live row wherever the log says nothing. -/
structure Split (P : Platform) (b : Backend) (r : Rows) : Prop where
  tracks : Tracks P b r
  unstaged : ∀ id, b.inner.staged.find? id = none
  single : ∀ {rows}, b.matRows P = some rows → ∀ op key,
    rowsAt rows op key = ((b.materialized P op key).map fun v => (op, key, v)).toList
  covers : ∀ op key, lastLogged b.log op key = none → b.materialized P op key = r.live op key

variable {P : Platform} {b : Backend} {r : Rows}

variable {id : Nat}

theorem Split.materializeLocked (h : Split P b r)
    (htracks : Tracks P (b.materializeLocked P id) r) : Split P (b.materializeLocked P id) r := by
  refine ⟨htracks, ?_, ?_, ?_⟩
  · intro id'
    rw [materializeLocked_inner]
    change (b.inner.staged.above id).find? id' = none
    cases hfind : (b.inner.staged.above id).find? id' with
    | none => rfl
    | some ops =>
        have hold : b.inner.staged.find? id' = some ops :=
          SortedMap.find?_eq_some_iff.mpr
            (SortedMap.mem_above.mp (SortedMap.find?_eq_some_iff.mp hfind)).1
        rw [h.unstaged id'] at hold
        simp at hold
  · intro rows hrows op key
    have hwritten : rows = sectionRows (b.inner.snapshotSections id) := by
      unfold Backend.matRows at hrows
      rw [materializeLocked_lastMaterialization] at hrows
      change (if P.ipc.write _ = [] then none else P.ipc.read (P.ipc.write _)) = some rows at hrows
      rw [if_neg (P.ipc.write_ne_nil _), P.ipc.read_write] at hrows
      exact (Option.some.inj hrows).symm
    rw [hwritten, InMemoryStateBackend.snapshotRows_at, materialized_materializeLocked]
  · intro op key _
    rw [materialized_materializeLocked, InMemoryStateBackend.pinned_unstaged (h.unstaged id),
      h.tracks.live]

theorem Split.log_write (h : Split P b r) {b' : Backend} {r' : Rows} {e : LogEntry}
    (htracks : Tracks P b' r') (hstaged : b'.inner.staged = b.inner.staged)
    (hmat : b'.lastMaterialization = b.lastMaterialization)
    (hlog : ∀ op key, lastLogged b'.log op key =
      if e.place = (op, key) then some e.outcome else lastLogged b.log op key)
    (hlive : ∀ op key, e.place ≠ (op, key) → r'.live op key = r.live op key) :
    Split P b' r' := by
  have hrows : b'.matRows P = b.matRows P := by
    unfold Backend.matRows
    rw [hmat]
  have hmaterialized : ∀ op key, b'.materialized P op key = b.materialized P op key := by
    intro op key
    unfold Backend.materialized
    rw [hmat]
  refine ⟨htracks, ?_, ?_, ?_⟩
  · intro id
    rw [hstaged]
    exact h.unstaged id
  · intro rows hread op key
    rw [hmaterialized]
    exact h.single (hrows ▸ hread) op key
  · intro op key hnone
    rw [hlog] at hnone
    by_cases hplace : e.place = (op, key)
    · rw [if_pos hplace] at hnone
      simp at hnone
    · rw [if_neg hplace] at hnone
      rw [hmaterialized, hlive op key hplace]
      exact h.covers op key hnone

/-- A call that leaves rows, copies, log and materialization alone. -/
theorem Split.frame (h : Split P b r) {b' : Backend} (htracks : Tracks P b' r)
    (hinner : b'.inner = b.inner) (hmat : b'.lastMaterialization = b.lastMaterialization)
    (hlog : b'.log = b.log) : Split P b' r := by
  refine ⟨htracks, ?_, ?_, ?_⟩
  · rw [hinner]
    exact h.unstaged
  · unfold Backend.matRows Backend.materialized
    rw [hmat]
    exact h.single
  · unfold Backend.materialized
    rw [hmat, hlog]
    exact h.covers

theorem Split.apply (h : Split P b r) {c : Call}
    (hc : ∀ op id, c ≠ .stageOperatorRows op id) : Split P (c.apply P b) (r.next c) := by
  have htracks := h.tracks.apply c
  cases c with
  | put op key value =>
      refine h.log_write (e := ⟨op, key, value, false⟩) htracks ?_ ?_ ?_ ?_
      · simp [Call.apply, Backend.put, InMemoryStateBackend.Backend.put]
      · simp [Call.apply, Backend.put]
      · intro op' key'
        exact lastLogged_write h.tracks.index _ _ op' key'
      · intro op' key' hplace
        exact if_neg fun heq => hplace (Prod.ext heq.1 heq.2)
  | erase op key =>
      refine h.log_write (e := ⟨op, key, [], true⟩) htracks ?_ ?_ ?_ ?_
      · simp [Call.apply, Backend.erase, InMemoryStateBackend.Backend.erase]
      · simp [Call.apply, Backend.erase]
      · intro op' key'
        exact lastLogged_write h.tracks.index _ _ op' key'
      · intro op' key' hplace
        exact if_neg fun heq => hplace (Prod.ext heq.1 heq.2)
  | stageOperatorRows op id => exact absurd rfl (hc op id)
  | setMaterializationThresholdBytes threshold => exact h.frame htracks rfl rfl rfl
  | setLogCompactionEnabled enabled => exact h.frame htracks rfl rfl rfl
  | materializeNow =>
      change Tracks P (if b.log = [] then b else b.materializeLocked P 0) r at htracks
      change Split P (if b.log = [] then b else b.materializeLocked P 0) r
      by_cases hlog : b.log = []
      · rw [if_pos hlog]
        exact h
      · rw [if_neg hlog] at htracks ⊢
        exact h.materializeLocked htracks
  | snapshot id =>
      change Tracks P (b.snapshot P id).1 r at htracks
      change Split P (b.snapshot P id).1 r
      rw [snapshot_fst] at htracks ⊢
      by_cases hmat : b.materializes
      · rw [if_pos hmat] at htracks ⊢
        exact h.materializeLocked htracks
      · rw [if_neg hmat]
        exact h

theorem run_split {calls : List Call} (hcalls : NoStaging calls)
    (store : Option MaterializationStore) :
    Split P (run P { extStore := store } calls) (recorded calls) := by
  induction calls using List.reverseRecOn with
  | nil =>
      refine ⟨.fresh store, fun _ => rfl, fun h => ?_, fun _ _ _ => rfl⟩
      simp [Backend.matRows, run] at h
  | append_singleton rest c ih =>
      have hrest : NoStaging rest := fun op id hmem => hcalls op id (by simp [hmem])
      have hc : ∀ op id, c ≠ .stageOperatorRows op id := by
        intro op id heq
        exact hcalls op id (by simp [heq])
      unfold run recorded at ih ⊢
      rw [List.foldl_append, List.foldl_append]
      exact (ih hrest).apply hc

/-! ## The merge of one row -/

/-- One parent's row, over what the earlier parents left. -/
def mergeRow (key : Key) (cur : Option Value) (v : Value) : Option Value :=
  if isOperatorState key && atLeastAsAdvanced cur v then cur else some v

/-- What the plain merge keeps of the parents' rows at one place. -/
def mergedRow (key : Key) (rows : List (Option Value)) : Option Value :=
  rows.reduceOption.foldl (mergeRow key) none

/-- Streams with at most one row at a place restore to the merge of those. -/
theorem fold_rowsAt (kgFilter : KeyGroupRange) (op : Nat) (key : Key)
    (held : List (Option Value)) (cur : Option Value) :
    (held.flatMap fun o => (o.map fun v => ((op, key, v) : SnapshotRow)).toList).foldl
        (restoreValue kgFilter) cur =
      if outOfRange kgFilter key then cur else held.reduceOption.foldl (mergeRow key) cur := by
  induction held generalizing cur with
  | nil => simp
  | cons o rest ih =>
      rw [List.flatMap_cons, List.foldl_append, ih]
      cases o with
      | none => simp [List.reduceOption_cons_of_none]
      | some v =>
          rw [List.reduceOption_cons_of_some, List.foldl_cons]
          by_cases hrange : outOfRange kgFilter key = true
          · simp [hrange, restoreValue]
          · simp [hrange, restoreValue, mergeRow]

theorem rowsAt_flatten {parts : List (List SnapshotRow)} (op : Nat) (key : Key) :
    rowsAt parts.flatten op key = parts.flatMap fun rows => rowsAt rows op key := by
  unfold rowsAt
  rw [List.filter_flatten, List.flatMap_def]

variable {parents : List Parent}

private theorem plain_row (hcalls : ∀ p ∈ parents, NoStaging p.calls) (id : Nat)
    (kgFilter : KeyGroupRange) :
    ∃ merged, InMemoryStateBackend.mergeSnapshotBytes P.ipc (parents.map (Parent.plain P id)) =
        some merged ∧
      ∃ plain, InMemoryStateBackend.restore P.ipc ⟨id, merged⟩ kgFilter = some plain ∧
        ∀ op key, plain.get op key =
          if outOfRange kgFilter key then none
          else mergedRow key (parents.map fun p => p.row op key) := by
  have hplain : parents.map (Parent.plain P id) =
      (parents.map fun p => sectionRows ((p.backend P).inner.snapshotSections id)).map
        P.ipc.write := by
    rw [List.map_map]
    rfl
  refine ⟨_, hplain ▸ InMemoryStateBackend.mergeSnapshotBytes_write P.ipc _, _,
    InMemoryStateBackend.restore_write P.ipc id _ kgFilter, ?_⟩
  intro op key
  have hrows : ((parents.map fun p => sectionRows ((p.backend P).inner.snapshotSections id)).flatMap
        fun rows => rowsAt rows op key) =
      (parents.map fun p => p.row op key).flatMap
        fun o => (o.map fun v => ((op, key, v) : SnapshotRow)).toList := by
    rw [List.flatMap_map, List.flatMap_map]
    refine List.flatMap_congr fun p hp => ?_
    have hsplit : Split P (p.backend P) (recorded p.calls) := run_split (hcalls p hp) p.store
    rw [InMemoryStateBackend.snapshotRows_at,
      InMemoryStateBackend.pinned_unstaged (hsplit.unstaged id)]
    exact congrArg (fun o : Option Value => (o.map fun v => (op, key, v)).toList)
      (hsplit.tracks.live op key)
  unfold InMemoryStateBackend.Backend.get
  rw [InMemoryStateBackend.get_restoreRows, rowsAt_flatten, hrows, fold_rowsAt]
  rfl

/-- The backend a parent's blob was taken from splits its history. -/
theorem taken_split {p : Parent} (hcalls : NoStaging p.calls) (id : Nat) :
    Split P (p.taken P id) (recorded p.calls) :=
  (run_split hcalls p.store).apply (c := .snapshot id) fun _ _ h => by simp at h

private theorem materialized_of_matRows_none (h : Written P b) (hnone : b.matRows P = none)
    (op : Nat) (key : Key) : b.materialized P op key = none := by
  unfold Backend.matRows at hnone
  rcases h with h | ⟨rows, h⟩
  · unfold Backend.materialized InMemoryStateBackend.restore
    rw [if_pos h]
    rfl
  · rw [h, if_neg (P.ipc.write_ne_nil rows), P.ipc.read_write] at hnone
    simp at hnone

/-- The merge of the materializations, before the logs. -/
theorem base_row (hcalls : ∀ p ∈ parents, NoStaging p.calls) (id : Nat) (kgFilter : KeyGroupRange)
    (store : Option MaterializationStore) (op : Nat) (key : Key) :
    baseRow P kgFilter { extStore := store } (parents.map (Parent.taken P id)) op key =
      if outOfRange kgFilter key then none
      else mergedRow key (parents.map fun p => (p.taken P id).materialized P op key) := by
  have hrows : (((parents.map (Parent.taken P id)).filterMap (·.matRows P)).flatMap
        fun rows => rowsAt rows op key) =
      (parents.map fun p => (p.taken P id).materialized P op key).flatMap
        fun o => (o.map fun v => ((op, key, v) : SnapshotRow)).toList := by
    induction parents with
    | nil => rfl
    | cons p rest ih =>
        have hsplit := taken_split (P := P) (hcalls p List.mem_cons_self) id
        have ih := ih fun q hq => hcalls q (List.mem_cons_of_mem _ hq)
        rw [List.map_cons, List.map_cons, List.flatMap_cons, List.filterMap_cons, ← ih]
        cases hmat : (p.taken P id).matRows P with
        | some rows =>
            rw [List.flatMap_cons, hsplit.single hmat op key]
        | none =>
            rw [materialized_of_matRows_none hsplit.tracks.written hmat]
            rfl
  have hfold := fold_rowsAt kgFilter op key
    (parents.map fun p => (p.taken P id).materialized P op key) none
  rw [← hrows, ← rowsAt_flatten] at hfold
  unfold baseRow
  by_cases hnil : (parents.map (Parent.taken P id)).filterMap (·.matRows P) = []
  · rw [if_pos hnil]
    rw [hnil] at hfold
    exact hfold
  · rw [if_neg hnil]
    exact hfold

variable {op : Nat}

/-- The last word of several logs is that of the last one that says anything. -/
theorem lastLogged_flatMap {log : Parent → List LogEntry} {key : Key} {o : Option Value}
    (h : lastLogged (parents.flatMap log) op key = some o) :
    ∃ pre p post, parents = pre ++ p :: post ∧ lastLogged (log p) op key = some o ∧
      ∀ q ∈ post, lastLogged (log q) op key = none := by
  induction parents using List.reverseRecOn with
  | nil => simp at h
  | append_singleton rest p ih =>
      rw [List.flatMap_append, lastLogged_append, List.flatMap_cons, List.flatMap_nil,
        List.append_nil] at h
      cases hlast : lastLogged (log p) op key with
      | some o' =>
          rw [hlast, Option.some_or] at h
          exact ⟨rest, p, [], rfl, hlast.trans h, by simp⟩
      | none =>
          rw [hlast, Option.none_or] at h
          obtain ⟨pre, q, post, hrest, hq, hpost⟩ := ih h
          refine ⟨pre, q, post ++ [p], by rw [hrest]; simp, hq, ?_⟩
          intro q' hq'
          rcases List.mem_append.mp hq' with hq' | hq'
          · exact hpost q' hq'
          · rw [List.mem_singleton.mp hq']
            exact hlast

private theorem lastLogged_flatMap_none {log : Parent → List LogEntry} {key : Key}
    (h : lastLogged (parents.flatMap log) op key = none) :
    ∀ p ∈ parents, lastLogged (log p) op key = none := by
  induction parents with
  | nil => simp
  | cons p rest ih =>
      rw [List.flatMap_cons, lastLogged_append] at h
      obtain ⟨hrest, hp⟩ := Option.or_eq_none_iff.mp h
      intro q hq
      rcases List.mem_cons.mp hq with rfl | hq
      · exact hp
      · exact ih hrest q hq

/-! ## When the two restores agree -/

/-- The last parent whose log mentions the row has the row that the merge of
all parents' rows keeps. -/
def LastLoggerKeeps (P : Platform) (id : Nat) (parents : List Parent) (op : Nat) (key : Key) :
    Prop :=
  ∀ pre p post, parents = pre ++ p :: post →
    (lastLogged (p.taken P id).log op key).isSome →
    (∀ q ∈ post, lastLogged (q.taken P id).log op key = none) →
    p.row op key = mergedRow key (parents.map fun q => q.row op key)

/-- The framed changelog snapshots, restored into a fresh changelog backend,
leave the rows that the merged plain snapshots leave in a plain one. -/
def SameRows (P : Platform) (store : Option MaterializationStore) (id : Nat)
    (kgFilter : KeyGroupRange) (parents : List Parent) : Prop :=
  ∃ c merged plain,
    Backend.restore P { extStore := store } ⟨id, frameBlobs (parents.map (Parent.blob P id))⟩
      kgFilter = some c ∧
    InMemoryStateBackend.mergeSnapshotBytes P.ipc (parents.map (Parent.plain P id)) =
      some merged ∧
    InMemoryStateBackend.restore P.ipc ⟨id, merged⟩ kgFilter = some plain ∧
    ∀ op key, c.inner.get op key = plain.get op key

private theorem changelog_row {store : Option MaterializationStore}
    (hcalls : ∀ p ∈ parents, NoStaging p.calls)
    (hstore : ∀ p ∈ parents, Resolves store (p.taken P id))
    (hfits : parents.length ≠ 1 → FitsFrame (parents.map (Parent.blob P id)))
    (kgFilter : KeyGroupRange) : ∃ c, Backend.restore P { extStore := store }
        ⟨id, frameBlobs (parents.map (Parent.blob P id))⟩ kgFilter = some c ∧
      ∀ op key, c.inner.get op key =
        if outOfRange kgFilter key then none
        else (lastLogged (parents.flatMap fun p => (p.taken P id).log) op key).getD
          (mergedRow key (parents.map fun p => (p.taken P id).materialized P op key)) := by
  by_cases hnil : parents = []
  · subst hnil
    refine ⟨_, rfl, ?_⟩
    intro op key
    cases outOfRange kgFilter key <;> rfl
  · have hblobs : parents.map (Parent.blob P id) =
        (parents.map (Parent.taken P id)).map fun b => P.changelogIpc.write b.blobRows := by
      rw [List.map_map]
      rfl
    rw [hblobs] at hfits ⊢
    obtain ⟨c, hc, hrows⟩ := restore_frame { extStore := store }
      (parents.map (Parent.taken P id)) (by simpa using hnil) (by simpa using hfits)
      (by simpa using hstore)
      (by simpa using fun p hp => (taken_split (hcalls p hp) id).tracks.written) id kgFilter
    refine ⟨c, hc, ?_⟩
    intro op key
    rw [hrows, keyInRange_eq, base_row hcalls, List.flatMap_map]
    cases outOfRange kgFilter key <;> rfl

/-- The two restores agree when they agree row by row in range. -/
theorem sameRows_iff {store : Option MaterializationStore} (kgFilter : KeyGroupRange)
    (hcalls : ∀ p ∈ parents, NoStaging p.calls)
    (hstore : ∀ p ∈ parents, Resolves store (p.taken P id))
    (hfits : parents.length ≠ 1 → FitsFrame (parents.map (Parent.blob P id))) :
    SameRows P store id kgFilter parents ↔
      ∀ op key, keyInRange kgFilter key →
        (lastLogged (parents.flatMap fun p => (p.taken P id).log) op key).getD
          (mergedRow key (parents.map fun p => (p.taken P id).materialized P op key)) =
        mergedRow key (parents.map fun p => p.row op key) := by
  obtain ⟨c, hc, hrows⟩ := changelog_row hcalls hstore hfits kgFilter
  obtain ⟨merged, hmerged, plain, hplain, hplainRows⟩ := plain_row (P := P) hcalls id kgFilter
  have hsame : SameRows P store id kgFilter parents ↔
      ∀ op key, c.inner.get op key = plain.get op key := by
    constructor
    · rintro ⟨c', merged', plain', hc', hmerged', hplain', hall⟩
      obtain rfl : c = c' := Option.some.inj (hc.symm.trans hc')
      obtain rfl : merged = merged' := Option.some.inj (hmerged.symm.trans hmerged')
      obtain rfl : plain = plain' := Option.some.inj (hplain.symm.trans hplain')
      exact hall
    · intro hall
      exact ⟨c, merged, plain, hc, hmerged, hplain, hall⟩
  rw [hsame]
  refine forall_congr' fun op => forall_congr' fun key => ?_
  rw [hrows, hplainRows, keyInRange_eq]
  cases outOfRange kgFilter key <;> simp

private theorem lastLogged_of_last (log : Parent → List LogEntry) (pre : List Parent)
    {post : List Parent} {p : Parent} {key : Key} (hp : (lastLogged (log p) op key).isSome)
    (hpost : ∀ q ∈ post, lastLogged (log q) op key = none) :
    lastLogged ((pre ++ p :: post).flatMap log) op key = lastLogged (log p) op key := by
  obtain ⟨o, ho⟩ := Option.isSome_iff_exists.mp hp
  have hnone : lastLogged (post.flatMap log) op key = none := by
    cases hlast : lastLogged (post.flatMap log) op key with
    | none => rfl
    | some o' =>
        obtain ⟨pre', q, post', hsplit, hq, -⟩ := lastLogged_flatMap hlast
        rw [hpost q (by simp [hsplit])] at hq
        simp at hq
  rw [List.flatMap_append, List.flatMap_cons, lastLogged_append, lastLogged_append, hnone, ho]
  simp

private theorem row_agrees_iff (hcalls : ∀ p ∈ parents, NoStaging p.calls) (op : Nat) (key : Key) :
    (lastLogged (parents.flatMap fun p => (p.taken P id).log) op key).getD
        (mergedRow key (parents.map fun p => (p.taken P id).materialized P op key)) =
        mergedRow key (parents.map fun p => p.row op key) ↔
      LastLoggerKeeps P id parents op key := by
  have hlogged : ∀ p ∈ parents, ∀ o, lastLogged (p.taken P id).log op key = some o →
      o = p.row op key :=
    fun p hp o ho => (taken_split (P := P) (hcalls p hp) id).tracks.logged ho
  cases hlast : lastLogged (parents.flatMap fun p => (p.taken P id).log) op key with
  | none =>
      have hnone := lastLogged_flatMap_none hlast
      have hheld : (parents.map fun p => (p.taken P id).materialized P op key) =
          parents.map fun p => p.row op key :=
        List.map_congr_left fun p hp =>
          (taken_split (hcalls p hp) id).covers op key (hnone p hp)
      rw [Option.getD_none, hheld]
      refine ⟨fun _ => ?_, fun _ => rfl⟩
      intro pre p post hparents hp _
      rw [hnone p (by simp [hparents])] at hp
      simp at hp
  | some o =>
      rw [Option.getD_some]
      constructor
      · intro ho pre p post hparents hp hpost
        obtain ⟨o', ho'⟩ := Option.isSome_iff_exists.mp hp
        have hsame := lastLogged_of_last (fun q : Parent => (q.taken P id).log) pre hp hpost
        rw [← hparents, hlast, ho'] at hsame
        rw [← hlogged p (by simp [hparents]) o' ho', ← Option.some.inj hsame]
        exact ho
      · intro hkeeps
        obtain ⟨pre, p, post, hparents, hp, hpost⟩ := lastLogged_flatMap hlast
        rw [hlogged p (by simp [hparents]) o hp]
        exact hkeeps pre p post hparents (by rw [hp]; rfl) hpost

/-- For every list of parents, every split of their histories and every
key-group range, the two restores leave the same rows exactly when, at every row in
range that some log mentions, the last parent to log it has the row the plain
merge keeps. -/
theorem scaleDown_agrees_iff {P : Platform} {parents : List Parent}
    {store : Option MaterializationStore} {id : Nat} (kgFilter : KeyGroupRange)
    (hcalls : ∀ p ∈ parents, NoStaging p.calls)
    (hstore : ∀ p ∈ parents, Resolves store (p.taken P id))
    (hfits : parents.length ≠ 1 → FitsFrame (parents.map (Parent.blob P id))) :
    SameRows P store id kgFilter parents ↔
      ∀ op key, keyInRange kgFilter key → LastLoggerKeeps P id parents op key := by
  rw [sameRows_iff kgFilter hcalls hstore hfits]
  refine forall_congr' fun op => forall_congr' fun key => imp_congr_right fun _ => ?_
  exact row_agrees_iff hcalls op key

/-! ## Two parents with one offset -/

/-- A parent that only ever wrote the offset of one partition. -/
def offsetParent (offset : UInt8) : Parent := ⟨none, [.put 1 [255] [offset, 0, 0, 0, 0, 0, 0, 0]]⟩

theorem offsetParent_noStaging (offset : UInt8) : NoStaging (offsetParent offset).calls := by
  intro op id hmem
  simp [offsetParent] at hmem

theorem offsetParent_resolves (offset : UInt8) :
    Resolves none ((offsetParent offset).taken recordPlatform 1) :=
  ((run_tracks recordPlatform none (offsetParent offset).calls).apply (.snapshot 1)).resolves

theorem offsetParent_row (offset : UInt8) (op : Nat) (key : Key) :
    (offsetParent offset).row op key =
      if 1 = op ∧ [255] = key then some [offset, 0, 0, 0, 0, 0, 0, 0] else none := rfl

theorem offsetParent_logged (offset : UInt8) (op : Nat) (key : Key) :
    lastLogged ((offsetParent offset).taken recordPlatform 1).log op key =
      if 1 = op ∧ [255] = key then some (some [offset, 0, 0, 0, 0, 0, 0, 0]) else none := by
  have hlog : ((offsetParent offset).taken recordPlatform 1).log =
      [] ++ [⟨1, [255], [offset, 0, 0, 0, 0, 0, 0, 0], false⟩] := rfl
  rw [hlog, lastLogged_snoc]
  simp [LogEntry.place, LogEntry.outcome]

theorem offsetParents_fit {a b : UInt8}
    (ha : ((offsetParent a).blob recordPlatform 1).length = 38)
    (hb : ((offsetParent b).blob recordPlatform 1).length = 38) :
    FitsFrame ([offsetParent a, offsetParent b].map (Parent.blob recordPlatform 1)) := by
  refine ⟨by simp, ?_⟩
  simp [ha, hb]

/-- Two subtasks with the offset of one partition in their logs, the further
one last. -/
theorem scaleDown_agrees_ascending :
    SameRows recordPlatform none 1 {} [offsetParent 3, offsetParent 5] := by
  refine (scaleDown_agrees_iff {} ?_ ?_ ?_).mpr ?_
  · simp [offsetParent_noStaging]
  · simp [offsetParent_resolves]
  · exact fun _ => offsetParents_fit (by decide +kernel) (by decide +kernel)
  · intro op key _ pre p post hparents hp hpost
    rcases pre with - | ⟨q, - | ⟨q', pre⟩⟩
    · obtain ⟨rfl, rfl⟩ := List.cons.inj hparents
      have hlast := hpost (offsetParent 5) List.mem_cons_self
      rw [offsetParent_logged] at hp hlast
      by_cases hplace : 1 = op ∧ [255] = key
      · simp [hplace] at hlast
      · simp [hplace] at hp
    · obtain ⟨-, htail⟩ := List.cons.inj hparents
      obtain ⟨rfl, -⟩ := List.cons.inj htail
      simp only [List.map_cons, List.map_nil, offsetParent_row]
      by_cases hplace : 1 = op ∧ [255] = key
      · obtain ⟨rfl, rfl⟩ := hplace
        decide
      · simp only [hplace, if_false]
        rfl
    · simp at hparents

theorem scaleDown_rewinds_offset :
    ¬ SameRows recordPlatform none 1 {} [offsetParent 5, offsetParent 3] := by
  rw [sameRows_iff {} (by simp [offsetParent_noStaging]) (by simp [offsetParent_resolves])
    fun _ => offsetParents_fit (by decide +kernel) (by decide +kernel)]
  intro hall
  have hrow := hall 1 [255] rfl
  simp only [List.flatMap_cons, List.flatMap_nil, List.append_nil, lastLogged_append,
    offsetParent_logged, List.map_cons, List.map_nil, offsetParent_row] at hrow
  revert hrow
  decide

end Clink.Ports.ChangelogStateBackend

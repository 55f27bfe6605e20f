import Mathlib.Algebra.Order.Ring.Nat
import Clink.Verified.Newest
import Clink.Verified.Run

/-!
# Checkpoint retention of a worker

The embedding of `include/clink/cluster/checkpoint_retention.hpp` and of the
retention half of `Worker::dispatch_commit_checkpoint_` in
`src/cluster/worker.cpp`.  A completed checkpoint evicts the oldest beyond the
window; what pins and the coordinator's floor leave of the evicted ids is purged
from every backend of the job, and then every backend that lists what it holds is
swept below a cutoff.  Commit receipts go with their checkpoints.

A purge is best effort: `Faults` says which calls of a dispatch throw or leave
the artefacts where they are.
-/

namespace Clink.Ports.WorkerRetention

open Clink.Verified

/-! ## The window -/

structure CheckpointRetention where
  numRetained : Nat
  completed : SortedMap Nat Unit := .empty

/-- The eviction loop over the ids in order: those to purge, oldest first, and
those that stay. -/
def evict (n : Nat) : List (Nat × Unit) → List Nat × List (Nat × Unit)
  | [] => ([], [])
  | e :: rest =>
      if (e :: rest).length > n then
        let more := evict n rest
        (e.1 :: more.1, more.2)
      else ([], e :: rest)

theorem evict_eq (n : Nat) (l : List (Nat × Unit)) :
    evict n l = ((l.take (l.length - n)).map Prod.fst, l.drop (l.length - n)) := by
  induction l with
  | nil => simp [evict]
  | cons e rest ih =>
      unfold evict
      by_cases hlen : (e :: rest).length > n
      · have hsucc : (e :: rest).length - n = (rest.length - n) + 1 := by
          rw [List.length_cons] at hlen ⊢
          omega
        rw [if_pos hlen, ih, hsucc, List.take_succ_cons, List.drop_succ_cons, List.map_cons]
      · rw [if_neg hlen, Nat.sub_eq_zero_of_le (by omega)]
        rfl

namespace CheckpointRetention

/-- At least the latest checkpoint is kept. -/
def new (numRetained : Nat) : CheckpointRetention :=
  { numRetained := if numRetained = 0 then 1 else numRetained }

variable (t : CheckpointRetention)

def recordCompleted (id : Nat) : CheckpointRetention × List Nat :=
  let inserted := t.completed.upsert id fun _ => ()
  let evicted := evict t.numRetained inserted.entries
  ({ t with completed := ⟨evicted.2, by
      rw [show evicted = _ from evict_eq _ _]
      exact inserted.sorted.sublist (List.drop_sublist _ _)⟩ }, evicted.1)

def retainedIds : List Nat := t.completed.keys

def sweepCutoff : Nat :=
  match t.completed.keys.getLast? with
  | none => 0
  | some newest =>
      let width := t.numRetained - 1
      if newest > width then newest - width else 0

end CheckpointRetention

/-! ## A dispatch -/

structure CommitCheckpointMsg where
  jobId : Nat
  checkpointId : Nat
  retainFloor : Nat := 0
  pinnedCheckpointIds : List Nat := []

/-- What is collected under the lock. -/
structure Plan where
  purgeIds : List Nat
  sweepCutoff : Nat
  sweepRetained : List Nat
  pinned : List Nat

namespace Plan

def of (t : CheckpointRetention) (msg : CommitCheckpointMsg) : CheckpointRetention × Plan :=
  let recorded := t.recordCompleted msg.checkpointId
  let purgeIds := recorded.2.filter (· ∉ msg.pinnedCheckpointIds)
  (recorded.1,
    { purgeIds :=
        if msg.retainFloor > 0 then purgeIds.filter (¬ · ≥ msg.retainFloor) else purgeIds
      sweepCutoff :=
        if msg.retainFloor > 0 then min recorded.1.sweepCutoff msg.retainFloor
        else recorded.1.sweepCutoff
      sweepRetained := recorded.1.retainedIds
      pinned := msg.pinnedCheckpointIds })

def isSweepable (p : Plan) (id : Nat) : Bool :=
  0 < p.sweepCutoff ∧ id < p.sweepCutoff ∧ id ∉ p.sweepRetained ∧ id ∉ p.pinned

end Plan

/-- The calls on a backend that fail in a dispatch. -/
structure Faults where
  listThrows : Bool := false
  /-- The purge of the id throws, or leaves its artefacts. -/
  purgeFails : Nat → Bool := fun _ => false

structure Backend where
  /-- The ids it has artefacts of on disk. -/
  held : List Nat
  /-- It overrides `list_checkpoints`, whose default is the empty list. -/
  lists : Bool
  deriving DecidableEq

namespace Backend

variable (f : Faults) (p : Plan) (b : Backend)

def purgeCheckpoint (id : Nat) : Backend :=
  if f.purgeFails id then b else { b with held := b.held.filter (· ≠ id) }

def purgeAll (ids : List Nat) : Backend := ids.foldl (purgeCheckpoint f) b

def listCheckpoints : Option (List Nat) :=
  if f.listThrows then none else if b.lists then some b.held else some []

/-- The ids the sweep purges. -/
def swept : List Nat :=
  if 0 < p.sweepCutoff then ((b.listCheckpoints f).getD []).filter p.isSweepable else []

/-- The purges of the evicted ids and then the sweep, with the ids purged. -/
def retain : Backend × List Nat :=
  let purged := b.purgeAll f p.purgeIds
  let ids := purged.swept f p
  (purged.purgeAll f ids, p.purgeIds ++ ids)

end Backend

/-! ## Receipts -/

/-- `std::strtoull` in base ten of a text without a minus sign. -/
def strtoull (text : List Char) : Nat :=
  let digits :=
    match text.dropWhile Char.isWhitespace with
    | '+' :: rest => rest.takeWhile Char.isDigit
    | rest => rest.takeWhile Char.isDigit
  min (2 ^ 64 - 1) (digits.foldl (fun n c => 10 * n + (c.toNat - '0'.toNat)) 0)

/-- The id of a file `sub<K>-<id>`; none for other files. -/
def receiptId (name : List Char) : Option Nat :=
  if "sub".toList.isPrefixOf name ∧ '-' ∈ name then
    some (strtoull (name.reverse.takeWhile (· ≠ '-')).reverse)
  else none

def Plan.dropsReceipt (p : Plan) (name : List Char) : Bool :=
  match receiptId name with
  | none => false
  | some id => p.isSweepable id || id ∈ p.purgeIds

/-- The store is looked at when there is something to purge or to sweep. -/
def Plan.receiptsDropped (p : Plan) (names : List (List Char)) : List (List Char) :=
  if p.purgeIds ≠ [] ∨ p.sweepCutoff > 0 then names.filter p.dropsReceipt else []

/-! ## The worker -/

/-- What the worker keeps of a job. -/
structure Job where
  retention : Option CheckpointRetention := none
  /-- The registered backends by subtask. -/
  backends : List (Nat × Option Backend) := []
  /-- The names under `_jobs/<id>/receipts`, for a job with a checkpoint directory. -/
  receipts : Option (List (List Char)) := none

structure Worker where
  checkpointNumRetained : Nat
  jobs : Nat → Job := fun _ => {}

/-- The worker after a dispatch, and the ids whose artefacts or receipts it took
away. -/
structure Dispatched where
  worker : Worker
  purged : List Nat

namespace Worker

variable (w : Worker)

/-- The job's tracker, made at its first completed checkpoint. -/
def tracker (job : Nat) : CheckpointRetention :=
  (w.jobs job).retention.getD (.new w.checkpointNumRetained)

def setJob (id : Nat) (job : Job) : Worker := { w with jobs := Function.update w.jobs id job }

/-- One registered backend; a null one is passed over. -/
def retainAt (p : Plan) (faults : Nat → Faults) (entry : Nat × Option Backend) :
    (Nat × Option Backend) × List Nat :=
  match entry.2 with
  | none => (entry, [])
  | some b => ((entry.1, some (b.retain (faults entry.1) p).1), (b.retain (faults entry.1) p).2)

def dispatchCommitCheckpoint (msg : CommitCheckpointMsg) (faults : Nat → Faults) : Dispatched :=
  let job := w.jobs msg.jobId
  let planned := Plan.of (w.tracker msg.jobId) msg
  let done := job.backends.map (retainAt planned.2 faults)
  let gone := (job.receipts.map planned.2.receiptsDropped).getD []
  { worker := w.setJob msg.jobId
      { retention := some planned.1
        backends := done.map Prod.fst
        receipts := job.receipts.map fun names => names.filter (· ∉ gone) }
    purged := done.flatMap Prod.snd ++ gone.filterMap receiptId }

/-- A subtask exits: the single-operator path also drops the job's tracker with
its last backend, the chain path does not. -/
def exitSubtask (job sub : Nat) (chained : Bool) : Worker :=
  let state := w.jobs job
  let rest := state.backends.filter (·.1 ≠ sub)
  if state.backends = [] then w
  else w.setJob job { state with
    backends := rest
    retention := if rest = [] ∧ ¬ chained then none else state.retention }

end Worker

inductive Event where
  | commit (msg : CommitCheckpointMsg) (faults : Nat → Faults)
  | registerBackend (job sub : Nat) (b : Option Backend)
  | exitSubtask (job sub : Nat) (chained : Bool)
  /-- The job's checkpoint directory and the receipts in it, as deployed or as written since. -/
  | receipts (job : Nat) (names : Option (List (List Char)))
  /-- What a backend has on disk changes: snapshots are taken, or lost. -/
  | disk (job sub : Nat) (held : List Nat)

namespace Worker

variable (w : Worker)

def next : Event → Worker
  | .commit msg faults => (w.dispatchCommitCheckpoint msg faults).worker
  | .registerBackend job sub b => w.setJob job { w.jobs job with
      backends := (sub, b) :: (w.jobs job).backends.filter (·.1 ≠ sub) }
  | .exitSubtask job sub chained => w.exitSubtask job sub chained
  | .receipts job names => w.setJob job { w.jobs job with receipts := names }
  | .disk job sub held => w.setJob job { w.jobs job with
      backends := (w.jobs job).backends.map fun entry =>
        if entry.1 = sub then (sub, entry.2.map fun b => { b with held := held }) else entry }

end Worker

/-! ## What the tracker keeps -/

/-- One of the `n` largest ids. -/
def Newest (n : Nat) (ids : List Nat) (id : Nat) : Prop :=
  id ∈ ids ∧ (ids.toFinset.filter (id < ·)).card < n

instance (n : Nat) (ids : List Nat) (id : Nat) : Decidable (Newest n ids id) :=
  inferInstanceAs (Decidable (_ ∧ _))

/-- The ids of the job's checkpoints a history has seen complete. -/
def completedIds (job : Nat) (es : List Event) : List Nat :=
  es.filterMap fun
    | .commit msg _ => if msg.jobId = job then some msg.checkpointId else none
    | _ => none

def recorded (ids : List Nat) : SortedMap Nat Unit :=
  ids.foldl (fun m id => m.upsert id fun _ => ()) .empty

private theorem mem_keys_recorded_aux (ids : List Nat) (id : Nat) : ∀ m : SortedMap Nat Unit,
    id ∈ (ids.foldl (fun m id => m.upsert id fun _ => ()) m).keys ↔ id ∈ ids ∨ id ∈ m.keys := by
  induction ids with
  | nil => simp
  | cons first rest ih =>
      intro m
      rw [List.foldl_cons, ih, SortedMap.mem_keys_upsert, List.mem_cons]
      tauto

theorem mem_keys_recorded {ids : List Nat} {id : Nat} :
    id ∈ (recorded ids).keys ↔ id ∈ ids := by
  unfold recorded
  rw [mem_keys_recorded_aux]
  exact or_iff_left List.not_mem_nil

theorem recorded_snoc (ids : List Nat) (id : Nat) :
    recorded (ids ++ [id]) = (recorded ids).upsert id fun _ => () := by
  unfold recorded
  rw [List.foldl_append]
  rfl

private theorem mem_newest_recorded {n : Nat} {ids : List Nat} {id : Nat} :
    id ∈ ((recorded ids).newest n).keys ↔ Newest n ids id := by
  have hsame : (recorded ids).keys.toFinset = ids.toFinset := by
    ext x
    rw [List.mem_toFinset, List.mem_toFinset, mem_keys_recorded]
  rw [SortedMap.mem_keys_newest, mem_keys_recorded, hsame]
  rfl

namespace CheckpointRetention

variable (t : CheckpointRetention) (id : Nat)

theorem completed_recordCompleted : (t.recordCompleted id).1.completed =
    (t.completed.upsert id fun _ => ()).newest t.numRetained := by
  apply SortedMap.ext_entries
  change (evict _ _).2 = _
  rw [evict_eq]
  rfl

private theorem notMem_retained_of_evicted {k : Nat} (hk : k ∈ (t.recordCompleted id).2) :
    k ∉ (t.recordCompleted id).1.retainedIds := by
  have hnodup := (t.completed.upsert id fun _ => ()).nodup_keys
  change k ∈ (evict _ _).1 at hk
  rw [evict_eq] at hk
  have hkeys : (t.recordCompleted id).1.retainedIds =
      ((t.completed.upsert id fun _ => ()).entries.drop
      ((t.completed.upsert id fun _ => ()).entries.length - t.numRetained)).map Prod.fst := by
    unfold retainedIds
    rw [completed_recordCompleted]
    rfl
  rw [hkeys]
  unfold SortedMap.keys at hnodup
  rw [← List.take_append_drop ((t.completed.upsert id fun _ => ()).entries.length - t.numRetained)
    (t.completed.upsert id fun _ => ()).entries, List.map_append, List.nodup_append] at hnodup
  exact fun hkept => hnodup.2.2 k hk k hkept rfl

end CheckpointRetention

/-! ## One dispatch -/

/-- The id is neither pinned, nor at or above a floor, nor in the window. -/
structure Spared (msg : CommitCheckpointMsg) (window : Nat → Prop) (id : Nat) : Prop where
  unpinned : id ∉ msg.pinnedCheckpointIds
  below : 0 < msg.retainFloor → id < msg.retainFloor
  outside : ¬ window id

section Dispatch

variable {t : CheckpointRetention} {msg : CommitCheckpointMsg} {f : Faults} {b : Backend}
  {p : Plan} {id : Nat}

theorem spared_of_purgeIds (hid : id ∈ (Plan.of t msg).2.purgeIds) :
    Spared msg (· ∈ (Plan.of t msg).1.retainedIds) id := by
  unfold Plan.of at hid ⊢
  dsimp only at hid ⊢
  have hevicted : id ∈ (t.recordCompleted msg.checkpointId).2 ∧ id ∉ msg.pinnedCheckpointIds ∧
      (0 < msg.retainFloor → id < msg.retainFloor) := by
    split at hid
    · simp only [List.mem_filter, decide_eq_true_eq] at hid
      exact ⟨hid.1.1, hid.1.2, fun _ => by omega⟩
    · rename_i hzero
      simp only [List.mem_filter, decide_eq_true_eq] at hid
      exact ⟨hid.1, hid.2, fun hfloor => absurd hfloor hzero⟩
  obtain ⟨hmem, hunpinned, hbelow⟩ := hevicted
  exact ⟨hunpinned, hbelow, t.notMem_retained_of_evicted msg.checkpointId hmem⟩

theorem spared_of_isSweepable (hid : (Plan.of t msg).2.isSweepable id = true) :
    Spared msg (· ∈ (Plan.of t msg).1.retainedIds) id := by
  unfold Plan.isSweepable at hid
  obtain ⟨-, hcutoff, hretained, hpinned⟩ := of_decide_eq_true hid
  refine ⟨hpinned, fun hfloor => ?_, hretained⟩
  unfold Plan.of at hcutoff
  dsimp only at hcutoff
  rw [if_pos hfloor] at hcutoff
  exact lt_of_lt_of_le hcutoff (Nat.min_le_right _ _)

private theorem lists_purgeAll (f : Faults) (ids : List Nat) : ∀ b : Backend,
    (b.purgeAll f ids).lists = b.lists := by
  induction ids with
  | nil => exact fun b => rfl
  | cons first rest ih =>
      intro b
      change ((b.purgeCheckpoint f first).purgeAll f rest).lists = _
      rw [ih]
      unfold Backend.purgeCheckpoint
      split <;> rfl

private theorem mem_held_purgeAll (f : Faults) (ids : List Nat) : ∀ b : Backend,
    id ∈ (b.purgeAll f ids).held ↔ id ∈ b.held ∧ (id ∈ ids → f.purgeFails id = true) := by
  induction ids with
  | nil => simp [Backend.purgeAll]
  | cons first rest ih =>
      intro b
      change id ∈ ((b.purgeCheckpoint f first).purgeAll f rest).held ↔ _
      rw [ih]
      unfold Backend.purgeCheckpoint
      by_cases hfails : f.purgeFails first = true
      · rw [if_pos hfails, List.mem_cons]
        constructor
        · rintro ⟨hheld, hrest⟩
          exact ⟨hheld, fun hmem => hmem.elim (fun heq => heq ▸ hfails) hrest⟩
        · exact fun h => ⟨h.1, fun hmem => h.2 (.inr hmem)⟩
      · rw [if_neg hfails, List.mem_cons]
        simp only [List.mem_filter, decide_eq_true_eq]
        constructor
        · rintro ⟨⟨hheld, hne⟩, hrest⟩
          exact ⟨hheld, fun hmem => hmem.elim (fun heq => absurd heq hne) hrest⟩
        · rintro ⟨hheld, hall⟩
          refine ⟨⟨hheld, fun heq => hfails (heq ▸ hall (.inl heq))⟩, fun hmem => hall (.inr hmem)⟩

/-- What a backend that lists still holds after a sweep is not sweepable. -/
theorem not_isSweepable_of_held (hlists : (b.retain f p).1.lists = true)
    (hlisted : f.listThrows = false) (hheld : id ∈ (b.retain f p).1.held)
    (hpurge : f.purgeFails id = false) : p.isSweepable id = false := by
  unfold Backend.retain at hlists hheld
  dsimp only at hlists hheld
  rw [lists_purgeAll] at hlists
  rw [mem_held_purgeAll] at hheld
  by_contra hsweep
  have hsweep := Bool.of_not_eq_false hsweep
  have hcutoff : 0 < p.sweepCutoff := (of_decide_eq_true hsweep).1
  have hmem : id ∈ (b.purgeAll f p.purgeIds).swept f p := by
    unfold Backend.swept Backend.listCheckpoints
    rw [if_pos hcutoff, hlisted, hlists]
    exact List.mem_filter.mpr ⟨hheld.1, hsweep⟩
  exact absurd (hheld.2 hmem) (by rw [hpurge]; exact Bool.false_ne_true)

private theorem spared_of_retain (hid : id ∈ (b.retain f (Plan.of t msg).2).2) :
    Spared msg (· ∈ (Plan.of t msg).1.retainedIds) id := by
  rcases List.mem_append.mp hid with hid | hid
  · exact spared_of_purgeIds hid
  · unfold Backend.swept at hid
    split at hid
    · exact spared_of_isSweepable (List.mem_filter.mp hid).2
    · exact absurd hid List.not_mem_nil

private theorem spared_of_receiptsDropped {names : List (List Char)} {name : List Char}
    (hname : name ∈ (Plan.of t msg).2.receiptsDropped names) (hid : receiptId name = some id) :
    Spared msg (· ∈ (Plan.of t msg).1.retainedIds) id := by
  unfold Plan.receiptsDropped at hname
  split at hname
  · have hdrops := (List.mem_filter.mp hname).2
    unfold Plan.dropsReceipt at hdrops
    rw [hid] at hdrops
    rcases Bool.or_eq_true _ _ ▸ hdrops with hsweep | hpurge
    · exact spared_of_isSweepable hsweep
    · exact spared_of_purgeIds (of_decide_eq_true hpurge)
  · exact absurd hname List.not_mem_nil

private theorem not_isSweepable_of_kept {names : List (List Char)} {name : List Char}
    (hname : name ∈ names) (hkept : name ∉ p.receiptsDropped names)
    (hid : receiptId name = some id) : p.isSweepable id = false := by
  by_contra hsweep
  have hsweep := Bool.of_not_eq_false hsweep
  have hcutoff : 0 < p.sweepCutoff := (of_decide_eq_true hsweep).1
  apply hkept
  unfold Plan.receiptsDropped
  rw [if_pos (.inr hcutoff)]
  refine List.mem_filter.mpr ⟨hname, ?_⟩
  unfold Plan.dropsReceipt
  rw [hid]
  exact Bool.or_eq_true _ _ ▸ .inl hsweep

end Dispatch

/-! ## Runs -/

namespace Worker

variable (w : Worker)

/-- How many checkpoints stay; at least the latest. -/
def window : Nat := (CheckpointRetention.new w.checkpointNumRetained).numRetained

/-- The cutoff of the message's sweep, clamped by its floor. -/
def sweepCutoff (msg : CommitCheckpointMsg) : Nat :=
    (Plan.of (w.tracker msg.jobId) msg).2.sweepCutoff

/-- The event leaves the job its tracker. -/
def KeepsTracker (job : Nat) (e : Event) : Prop :=
  (w.jobs job).retention.isSome → ((w.next e).jobs job).retention.isSome

instance (job : Nat) (e : Event) : Decidable (w.KeepsTracker job e) :=
  inferInstanceAs (Decidable (_ → _))

/-- A dispatch purges nothing that is pinned, floored or among the newest of the ids
seen; it leaves nothing else below the cutoff in a backend that lists what it
holds, nor among the receipts. -/
structure RetainsAt (msg : CommitCheckpointMsg) (faults : Nat → Faults) (seen : List Nat) :
    Prop where
  spares : ∀ id ∈ (w.dispatchCommitCheckpoint msg faults).purged,
    Spared msg (Newest w.window seen) id
  sweeps : ∀ sub b, (sub, some b) ∈
      ((w.dispatchCommitCheckpoint msg faults).worker.jobs msg.jobId).backends →
    b.lists = true → (faults sub).listThrows = false → ∀ id ∈ b.held,
      (faults sub).purgeFails id = false → id < w.sweepCutoff msg →
        Newest w.window seen id ∨ id ∈ msg.pinnedCheckpointIds
  sweepsReceipts : ∀ names,
    ((w.dispatchCommitCheckpoint msg faults).worker.jobs msg.jobId).receipts = some names →
    ∀ name ∈ names, ∀ id, receiptId name = some id → id < w.sweepCutoff msg →
      Newest w.window seen id ∨ id ∈ msg.pinnedCheckpointIds

/-- The tracker holds the newest of the ids seen. -/
structure Tracks (job n : Nat) (seen : List Nat) : Prop where
  setting : w.checkpointNumRetained = n
  none_seen : (w.jobs job).retention = none → seen = []
  width : (w.tracker job).numRetained = w.window
  completed : (w.tracker job).completed = (recorded seen).newest w.window

theorem setJob_self (id : Nat) (job : Job) : (w.setJob id job).jobs id = job :=
  Function.update_self _ _ _

private theorem setJob_other {id id' : Nat} (job : Job) (h : id' ≠ id) :
    (w.setJob id job).jobs id' = w.jobs id' :=
  Function.update_of_ne h _ _

private theorem setting_next (e : Event) :
    (w.next e).checkpointNumRetained = w.checkpointNumRetained := by
  cases e with
  | exitSubtask job sub chained =>
      change (w.exitSubtask job sub chained).checkpointNumRetained = _
      unfold exitSubtask
      dsimp only
      split <;> rfl
  | _ => rfl

/-- Apart from completions of its own, a job's tracker stays or is dropped. -/
theorem retention_next (job : Nat) {e : Event}
    (hother : ∀ msg faults, e = .commit msg faults → msg.jobId ≠ job) :
    ((w.next e).jobs job).retention = (w.jobs job).retention ∨
      ((w.next e).jobs job).retention = none := by
  have hset : ∀ (id : Nat) (state : Job), (id = job → state.retention = (w.jobs job).retention ∨
      state.retention = none) → ((w.setJob id state).jobs job).retention = (w.jobs job).retention ∨
        ((w.setJob id state).jobs job).retention = none := by
    intro id state hstate
    by_cases hid : job = id
    · subst hid
      rw [setJob_self]
      exact hstate rfl
    · rw [setJob_other w state hid]
      exact .inl rfl
  cases e with
  | commit msg faults =>
      exact hset msg.jobId _ fun heq => absurd heq (hother msg faults rfl)
  | registerBackend id sub b => exact hset id _ fun heq => .inl (by rw [heq])
  | receipts id names => exact hset id _ fun heq => .inl (by rw [heq])
  | disk id sub held => exact hset id _ fun heq => .inl (by rw [heq])
  | exitSubtask id sub chained =>
      rw [show w.next (.exitSubtask id sub chained) = w.exitSubtask id sub chained from rfl]
      unfold exitSubtask
      dsimp only
      split
      · exact .inl rfl
      · refine hset id _ fun heq => ?_
        dsimp only
        rw [heq]
        split
        · exact .inr rfl
        · exact .inl rfl

theorem completedIds_snoc (job : Nat) (es : List Event) (e : Event) :
    completedIds job (es ++ [e]) = completedIds job es ++ completedIds job [e] :=
  List.filterMap_append

variable {w} in
theorem Tracks.next {job n : Nat} {es : List Event} (h : w.Tracks job n (completedIds job es))
    {e : Event} (hkeep : w.KeepsTracker job e) :
    (w.next e).Tracks job n (completedIds job (es ++ [e])) := by
  have hsetting := w.setting_next e
  have hwindow : (w.next e).window = w.window := by
    unfold window
    rw [hsetting]
  rw [completedIds_snoc]
  by_cases hown : ∃ msg faults, e = .commit msg faults ∧ msg.jobId = job
  · obtain ⟨msg, faults, rfl, rfl⟩ := hown
    have hretention : ((w.next (.commit msg faults)).jobs msg.jobId).retention =
        some ((w.tracker msg.jobId).recordCompleted msg.checkpointId).1 := by
      change ((w.setJob msg.jobId _).jobs msg.jobId).retention = _
      rw [setJob_self]
      rfl
    have htracker : (w.next (.commit msg faults)).tracker msg.jobId =
        ((w.tracker msg.jobId).recordCompleted msg.checkpointId).1 := by
      unfold tracker
      rw [hretention]
      rfl
    have hids : completedIds msg.jobId [.commit msg faults] = [msg.checkpointId] := by
      simp [completedIds]
    rw [hids]
    refine ⟨hsetting.trans h.setting, fun hnone => ?_, ?_, ?_⟩
    · rw [hretention] at hnone
      exact absurd hnone (Option.some_ne_none _)
    · rw [htracker, hwindow]
      exact h.width
    · rw [htracker, hwindow, CheckpointRetention.completed_recordCompleted, h.width, h.completed,
        SortedMap.newest_upsert, recorded_snoc]
  · have hother : ∀ msg faults, e = .commit msg faults → msg.jobId ≠ job :=
      fun msg faults heq hjob => hown ⟨msg, faults, heq, hjob⟩
    have hids : completedIds job [e] = [] := by
      unfold completedIds
      cases e with
      | commit msg faults => simp [hother msg faults rfl]
      | _ => rfl
    -- The tracker is not dropped, so it is the one before.
    have hretention : ((w.next e).jobs job).retention = (w.jobs job).retention := by
      rcases w.retention_next job hother with hsame | hnone
      · exact hsame
      · rw [hnone]
        cases hbefore : (w.jobs job).retention with
        | none => rfl
        | some t =>
            have hsome := hkeep (by rw [hbefore]; rfl)
            rw [hnone] at hsome
            exact absurd hsome Bool.false_ne_true
    have htracker : (w.next e).tracker job = w.tracker job := by
      unfold tracker
      rw [hretention, hsetting]
    rw [hids, List.append_nil]
    refine ⟨hsetting.trans h.setting, fun hnone => ?_, ?_, ?_⟩
    · rw [hretention] at hnone
      exact h.none_seen hnone
    · rw [htracker, hwindow]
      exact h.width
    · rw [htracker, hwindow]
      exact h.completed

private theorem tracks_fresh {job : Nat} (hfresh : (w.jobs job).retention = none) :
    w.Tracks job w.checkpointNumRetained [] := by
  have htracker : w.tracker job = .new w.checkpointNumRetained := by
    unfold tracker
    rw [hfresh]
    rfl
  refine ⟨rfl, fun _ => rfl, ?_, ?_⟩
  · rw [htracker]
    rfl
  · rw [htracker]
    apply SortedMap.ext_entries
    rw [SortedMap.entries_newest]
    exact List.drop_nil.symm

variable {w} in
theorem mem_retainedIds {msg : CommitCheckpointMsg} {n : Nat} {seen : List Nat}
    (h : w.Tracks msg.jobId n seen) (id : Nat) :
    id ∈ (Plan.of (w.tracker msg.jobId) msg).1.retainedIds ↔
      Newest w.window (seen ++ [msg.checkpointId]) id := by
  change id ∈ ((w.tracker msg.jobId).recordCompleted msg.checkpointId).1.completed.keys ↔ _
  rw [CheckpointRetention.completed_recordCompleted, h.width, h.completed,
    SortedMap.newest_upsert, ← recorded_snoc, mem_newest_recorded]

variable {w} in
theorem newest_or_pinned {msg : CommitCheckpointMsg} {n : Nat} {seen : List Nat} {id : Nat}
    (h : w.Tracks msg.jobId n seen) (hcutoff : id < w.sweepCutoff msg)
    (hstays : (Plan.of (w.tracker msg.jobId) msg).2.isSweepable id = false) :
    Newest w.window (seen ++ [msg.checkpointId]) id ∨ id ∈ msg.pinnedCheckpointIds := by
  by_contra hneither
  obtain ⟨hold, hunpinned⟩ := not_or.mp hneither
  rw [← mem_retainedIds h] at hold
  have hsweep : (Plan.of (w.tracker msg.jobId) msg).2.isSweepable id = true :=
    decide_eq_true ⟨Nat.lt_of_le_of_lt (Nat.zero_le _) hcutoff, hcutoff, hold, hunpinned⟩
  rw [hstays] at hsweep
  exact absurd hsweep Bool.false_ne_true

variable {w} in
private theorem Tracks.retainsAt {msg : CommitCheckpointMsg} {n : Nat} {seen : List Nat}
    (h : w.Tracks msg.jobId n seen) (faults : Nat → Faults) :
    w.RetainsAt msg faults (seen ++ [msg.checkpointId]) := by
  have hjob : (w.dispatchCommitCheckpoint msg faults).worker.jobs msg.jobId = _ :=
    setJob_self w msg.jobId _
  refine ⟨?_, ?_, ?_⟩
  · intro id hid
    have hspared : Spared msg (· ∈ (Plan.of (w.tracker msg.jobId) msg).1.retainedIds) id := by
      rcases List.mem_append.mp hid with hid | hid
      · obtain ⟨done, hdone, hid⟩ := List.mem_flatMap.mp hid
        obtain ⟨⟨sub, b⟩, -, rfl⟩ := List.mem_map.mp hdone
        cases b with
        | none => exact absurd hid List.not_mem_nil
        | some b => exact spared_of_retain hid
      · obtain ⟨name, hname, hid⟩ := List.mem_filterMap.mp hid
        cases hnames : (w.jobs msg.jobId).receipts with
        | none =>
            rw [hnames] at hname
            exact absurd hname List.not_mem_nil
        | some names =>
            rw [hnames] at hname
            exact spared_of_receiptsDropped hname hid
    exact ⟨hspared.unpinned, hspared.below, fun hnewest =>
      hspared.outside ((mem_retainedIds h id).mpr hnewest)⟩
  · intro sub b hb hlists hlisted id hheld hpurge hcutoff
    rw [hjob] at hb
    obtain ⟨done, hdone, heq⟩ := List.mem_map.mp hb
    obtain ⟨⟨sub', b'⟩, -, rfl⟩ := List.mem_map.mp hdone
    cases b' with
    | none => exact absurd (congrArg Prod.snd heq) (by simp [retainAt])
    | some b' =>
        obtain ⟨rfl, hretain⟩ := Prod.mk.inj heq
        obtain rfl := Option.some.inj hretain
        exact newest_or_pinned h hcutoff (not_isSweepable_of_held hlists hlisted hheld hpurge)
  · intro names hnames name hname id hid hcutoff
    rw [hjob] at hnames
    cases hbefore : (w.jobs msg.jobId).receipts with
    | none =>
        rw [hbefore] at hnames
        exact absurd hnames (Option.some_ne_none _).symm
    | some all =>
        rw [hbefore] at hnames
        obtain rfl := Option.some.inj hnames
        obtain ⟨hall, hkept⟩ := List.mem_filter.mp hname
        exact newest_or_pinned h hcutoff
          (not_isSweepable_of_kept hall (of_decide_eq_true hkept) hid)

end Worker

/-- Since a job's tracker was made, whatever the messages, the backends and their
disks: a dispatch purges no id that is pinned, at or above a floor, or one of the
newest seen, and what it can list and purge below its cutoff is gone. -/
theorem retention_keeps {w₀ w : Worker} {es : List Event} (msg : CommitCheckpointMsg)
    (hfresh : (w₀.jobs msg.jobId).retention = none)
    (hrun : Runs Worker.next (fun _ w e => w.KeepsTracker msg.jobId e) w₀ es w)
    (faults : Nat → Faults) :
    w.RetainsAt msg faults (completedIds msg.jobId (es ++ [.commit msg faults])) := by
  have htracks : w.Tracks msg.jobId w₀.checkpointNumRetained (completedIds msg.jobId es) := by
    refine hrun.induct (I := fun es w =>
      w.Tracks msg.jobId w₀.checkpointNumRetained (completedIds msg.jobId es)) ?_ ?_
    · exact w₀.tracks_fresh hfresh
    · intro es w e _ htracks hkeep
      exact htracks.next hkeep
  rw [Worker.completedIds_snoc, show completedIds msg.jobId [.commit msg faults] =
    [msg.checkpointId] by simp [completedIds]]
  exact htracks.retainsAt faults

/-- A worker that hosts a backend with its own list of checkpoints and one without,
each with the snapshots of four checkpoints, and the receipts of two. -/
def hosting : Worker where
  checkpointNumRetained := 2
  jobs := Function.update (fun _ => {}) 7
    { backends := [(0, some ⟨[1, 2, 3, 4], true⟩), (1, some ⟨[1, 2, 3, 4], false⟩)]
      receipts := some ["sub0-1".toList, "sub1-4".toList] }

def committed (id floor : Nat) (pinned : List Nat) : CommitCheckpointMsg := ⟨7, id, floor, pinned⟩

theorem retention_keeps_hosting :
    (hosting.next (.commit (committed 3 0 []) fun _ => {})).RetainsAt (committed 4 3 [1])
      (fun _ => {}) [3, 4] := by
  have hrun : Runs Worker.next (fun _ w e => w.KeepsTracker 7 e) hosting
      [.commit (committed 3 0 []) fun _ => {}] _ := Runs.of_allowed ⟨by decide, trivial⟩
  exact retention_keeps (committed 4 3 [1]) rfl hrun fun _ => {}

/-- A backend that does not list what it holds keeps an orphan below the cutoff. -/
theorem unlisted_orphan_stays :
    ¬ ∀ (w₀ : Worker) (msg : CommitCheckpointMsg), (w₀.jobs msg.jobId).retention = none →
      ∀ sub b, (sub, some b) ∈ ((w₀.dispatchCommitCheckpoint msg fun _ => {}).worker.jobs
        msg.jobId).backends → ∀ id ∈ b.held, id < w₀.sweepCutoff msg →
          Newest w₀.window [msg.checkpointId] id ∨ id ∈ msg.pinnedCheckpointIds := by
  intro hall
  have hkept := hall hosting (committed 4 0 []) rfl 1 ⟨[1, 2, 3, 4], false⟩ (by decide) 1
    (by decide) (by decide)
  exact absurd hkept (by decide)

end Clink.Ports.WorkerRetention

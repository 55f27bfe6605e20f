import Clink.Verified.Run
import Mathlib.Data.Finset.Erase
import Mathlib.Data.Finset.SDiff

/-!
# Completing a checkpoint of a job

The embedding of the coordinator's checkpoint bookkeeping of one job
(`src/cluster/coordinator.cpp`): the places that trigger a checkpoint
(`checkpoint_trigger_loop_`, `take_savepoint_`, `decide_final_request_locked_`,
`hot_cutover_trigger_c_locked_`), the handler of a subtask's acknowledgement
(`handle_subtask_checkpointed_`) and the redeploy (`restart_job_locked_`).  Each
holds the coordinator's lock, so a run is a list of them in any order.  What the
clocks and the rest of the cluster decide comes with the event.

Several checkpoints collect acknowledgements at once.  One that fails leaves a
floor behind, above which nothing completes until the job is redeployed.
-/

namespace Clink.Ports.CheckpointCompletion

open Clink.Verified

variable {K : Type} [DecidableEq K]

/-- The checkpoint fields of `JobState`, over the keys of its subtasks. -/
structure JobState (K : Type) where
  taskRecords : Finset K
  /-- `checkpoint.checkpoint_dir` is not empty. -/
  hasCheckpointDir : Bool
  maxRestarts : Nat
  nextCheckpointId : Nat := 1
  cutoverCheckpoint : Option Nat := none
  finalCheckpointId : Option Nat := none
  periodicHeldForSavepoint : Bool := false
  pendingCheckpointAcks : Nat → Option (Finset K) := fun _ => none
  failedCheckpointAcks : Nat → Finset K := fun _ => ∅
  checkpointParticipants : Nat → Option (Finset K) := fun _ => none
  /-- `rewind_floor_checkpoint_id`; 0 is none. -/
  rewindFloor : Nat := 0
  awaitingRestart : Bool := false
  completionSignalled : Bool := false
  cancelRequested : Bool := false
  errorCancelBroadcast : Bool := false
  restartAttempts : Nat := 0
  consecutiveCkptFailureRestarts : Nat := 0

/-- What happens to the checkpoints of a job, in order. -/
inductive Entry (K : Type)
  | triggered (id : Nat) (participants : Finset K)
  | acked (id : Nat) (key : K) (ok : Bool)
  /-- With whether the job was running with checkpoints, neither cancelled nor
  completed. -/
  | failed (id : Nat) (running : Bool)
  | discarded (id : Nat)
  | completed (id : Nat) (subtasks : Finset K) (suppressCommit : Bool)
  | redeployed

/-! ## Triggers -/

inductive TriggerSite
  | periodic
  | savepoint (holdPeriodic : Bool)
  | final

namespace JobState

/-- Whether a site allocates an id in this state. -/
def allocates (site : TriggerSite) (job : JobState K) : Bool :=
  match site with
  | .periodic =>
      job.hasCheckpointDir && !job.completionSignalled && job.finalCheckpointId.isNone &&
        !job.awaitingRestart && !job.periodicHeldForSavepoint && job.cutoverCheckpoint.isNone
  | .savepoint _ => !job.completionSignalled && !job.cancelRequested && job.hasCheckpointDir
  | .final =>
      !job.completionSignalled && !job.cancelRequested && job.hasCheckpointDir &&
        job.finalCheckpointId.isNone

/-- The pending set and the participant record of a checkpoint. -/
def register (id : Nat) (job : JobState K) : JobState K × List (Entry K) :=
  ({ job with
      pendingCheckpointAcks :=
        Function.update job.pendingCheckpointAcks id (some job.taskRecords)
      checkpointParticipants :=
        Function.update job.checkpointParticipants id (some job.taskRecords) },
    [.triggered id job.taskRecords])

def trigger (site : TriggerSite) (job : JobState K) : JobState K × List (Entry K) :=
  if job.allocates site then
    let id := job.nextCheckpointId
    let job := { job with nextCheckpointId := id + 1 }
    match site with
    | .periodic => job.register id
    | .savepoint holdPeriodic =>
        { job with
          periodicHeldForSavepoint := job.periodicHeldForSavepoint || holdPeriodic }.register id
    | .final => { job with finalCheckpointId := some id }.register id
  else (job, [])

/-- `try_begin_hot_cutover_locked_` reserves the id of the cut. -/
def reserveCutover (job : JobState K) : JobState K :=
  { job with
    cutoverCheckpoint := some job.nextCheckpointId
    nextCheckpointId := job.nextCheckpointId + 1 }

/-- `hot_cutover_trigger_c_locked_`. -/
def triggerCutover (job : JobState K) : JobState K × List (Entry K) :=
  match job.cutoverCheckpoint with
  | none => (job, [])
  | some id => job.register id

/-- `renumber_above_held_ids_locked_`. -/
def renumberAboveHeldIds (held : Nat) (job : JobState K) : JobState K :=
  if held < job.nextCheckpointId then job else { job with nextCheckpointId := held + 1 }

/-! ## Restarts -/

end JobState

/-- What `restart_job_locked_` comes to: it waits, gives the job up, or
redeploys it, with its tasks and whether this is a rescale. -/
inductive Restart (K : Type)
  | waits
  | fails
  | redeploys (tasks : Finset K) (rescale : Bool)

namespace JobState

def restartJob (job : JobState K) : Restart K → JobState K × List (Entry K)
  | .waits => (job, [])
  | .fails => ({ job with awaitingRestart := false, completionSignalled := true }, [])
  | .redeploys tasks rescale =>
      ({ job with
          restartAttempts := if rescale then job.restartAttempts else job.restartAttempts + 1
          awaitingRestart := false
          errorCancelBroadcast := false
          taskRecords := tasks
          pendingCheckpointAcks := fun _ => none
          rewindFloor := 0
          finalCheckpointId := none },
        [.redeployed])

/-- `initiate_job_restart_locked_`: the job waits for its drain, or with nothing
in flight and nothing in doubt restarts at once. -/
def initiateJobRestart (atOnce : Option (Restart K)) (job : JobState K) :
    JobState K × List (Entry K) :=
  let job := { job with awaitingRestart := true }
  match atOnce with
  | none => (job, [])
  | some restart => job.restartJob restart

/-! ## Acknowledgements -/

end JobState

/-- `SubtaskCheckpointedMsg`, and what the handler reads elsewhere. -/
structure Ack (K : Type) where
  checkpointId : Nat
  key : K
  ok : Bool
  /-- The session was lost before. -/
  senderLost : Bool
  /-- `failure_span >= checkpoint_failure_restart_window`. -/
  failureSpanReached : Bool
  /-- `restart_budget_reset_after` has passed since the last restart. -/
  quietSinceRestart : Bool
  restart : Option (Restart K)

namespace JobState

def runningWithCheckpoints (job : JobState K) : Bool :=
  !job.completionSignalled && !job.cancelRequested && job.hasCheckpointDir

/-- The floor a failed checkpoint leaves: the lowest since the last redeploy. -/
def lowerFloor (id : Nat) (job : JobState K) : JobState K :=
  if job.runningWithCheckpoints && (job.rewindFloor == 0 || decide (id < job.rewindFloor)) then
    { job with rewindFloor := id }
  else job

/-- Forget the bookkeeping of a checkpoint. -/
def forget (id : Nat) (job : JobState K) : JobState K :=
  { job with
    failedCheckpointAcks := Function.update job.failedCheckpointAcks id ∅
    pendingCheckpointAcks := Function.update job.pendingCheckpointAcks id none }

/-- The rewind a failed checkpoint starts, or the failure of the job: too many
in a row, or no restart left. -/
def rewind (limit : Nat) (ack : Ack K) (job : JobState K) : JobState K × List (Entry K) :=
  if !job.awaitingRestart && job.runningWithCheckpoints &&
      decide (job.restartAttempts < job.maxRestarts) then
    let job :=
      { job with consecutiveCkptFailureRestarts := job.consecutiveCkptFailureRestarts + 1 }
    if limit ≠ 0 ∧ limit ≤ job.consecutiveCkptFailureRestarts ∧ ack.failureSpanReached then
      ({ job with errorCancelBroadcast := true }, [])
    else job.initiateJobRestart ack.restart
  else if job.runningWithCheckpoints && !job.awaitingRestart then
    ({ job with errorCancelBroadcast := true }, [])
  else (job, [])

/-- Every subtask has answered, one of them that it could not snapshot. -/
def failCheckpoint (limit : Nat) (ack : Ack K) (job : JobState K) :
    JobState K × List (Entry K) :=
  let result := ((job.lowerFloor ack.checkpointId).forget ack.checkpointId).rewind limit ack
  (result.1, .failed ack.checkpointId job.runningWithCheckpoints :: result.2)

/-- Every subtask has answered ok, above the floor. -/
def discardCheckpoint (id : Nat) (job : JobState K) : JobState K × List (Entry K) :=
  ({ job.forget id with
      checkpointParticipants := Function.update job.checkpointParticipants id none },
    [.discarded id])

/-- Every subtask has answered ok: the checkpoint is handed on as completed. -/
def completeCheckpoint (ack : Ack K) (job : JobState K) : JobState K × List (Entry K) :=
  let id := ack.checkpointId
  ({ job.forget id with
      consecutiveCkptFailureRestarts := 0
      restartAttempts :=
        if 0 < job.restartAttempts ∧ ack.quietSinceRestart then 0 else job.restartAttempts
      checkpointParticipants := Function.update job.checkpointParticipants id none },
    [.completed id ((job.checkpointParticipants id).getD ∅) job.awaitingRestart])

def aboveRewindFloor (id : Nat) (job : JobState K) : Bool :=
  job.rewindFloor != 0 && decide (job.rewindFloor < id)

/-- The acknowledgement is taken off the pending set, and a failed one is kept. -/
def noteAck (ack : Ack K) (pending : Finset K) (job : JobState K) : JobState K :=
  { job with
    pendingCheckpointAcks :=
      Function.update job.pendingCheckpointAcks ack.checkpointId (some (pending.erase ack.key))
    failedCheckpointAcks :=
      if ack.ok then job.failedCheckpointAcks
      else
        Function.update job.failedCheckpointAcks ack.checkpointId
          (insert ack.key (job.failedCheckpointAcks ack.checkpointId)) }

/-- What becomes of a checkpoint whose pending set has emptied. -/
def settle (limit : Nat) (ack : Ack K) (job : JobState K) : JobState K × List (Entry K) :=
  if job.failedCheckpointAcks ack.checkpointId ≠ ∅ then job.failCheckpoint limit ack
  else if job.aboveRewindFloor ack.checkpointId then job.discardCheckpoint ack.checkpointId
  else job.completeCheckpoint ack

/-- `handle_subtask_checkpointed_`. -/
def handleSubtaskCheckpointed (limit : Nat) (ack : Ack K) (job : JobState K) :
    JobState K × List (Entry K) :=
  if ack.senderLost then (job, [])
  else
    match job.pendingCheckpointAcks ack.checkpointId with
    | none => (job, [])
    | some pending =>
        let noted := job.noteAck ack pending
        let result := if pending.erase ack.key = ∅ then noted.settle limit ack else (noted, [])
        (result.1, .acked ack.checkpointId ack.key ack.ok :: result.2)

end JobState

/-! ## Runs -/

/-- A step of the coordinator on the job. -/
inductive Event (K : Type)
  | trigger (site : TriggerSite)
  | reserveCutover
  | triggerCutover
  /-- The cutover ends, with the tasks the job then has. -/
  | endCutover (tasks : Finset K)
  | renumber (held : Nat)
  | ack (ack : Ack K)
  /-- A restart begins for another cause. -/
  | initiateRestart (atOnce : Option (Restart K))
  | restart (restart : Restart K)
  | cancel
  | signalCompletion

/-- One step; `limit` is `checkpoint_failure_restart_limit`. -/
def step (limit : Nat) (job : JobState K) : Event K → JobState K × List (Entry K)
  | .trigger site => job.trigger site
  | .reserveCutover => (job.reserveCutover, [])
  | .triggerCutover => job.triggerCutover
  | .endCutover tasks => ({ job with cutoverCheckpoint := none, taskRecords := tasks }, [])
  | .renumber held => (job.renumberAboveHeldIds held, [])
  | .ack ack => job.handleSubtaskCheckpointed limit ack
  | .initiateRestart atOnce => job.initiateJobRestart atOnce
  | .restart restart => job.restartJob restart
  | .cancel => ({ job with cancelRequested := true }, [])
  | .signalCompletion => ({ job with completionSignalled := true }, [])

/-- The job as `deploy_internal_` makes it, numbering above the ids on record. -/
def JobState.start (tasks : Finset K) (hasCheckpointDir : Bool) (maxRestarts idFloor : Nat) :
    JobState K :=
  { taskRecords := tasks, hasCheckpointDir, maxRestarts, nextCheckpointId := idFloor + 1 }

/-- The job and what has happened to its checkpoints. -/
def run (limit : Nat) (job : JobState K) (events : List (Event K)) :
    JobState K × List (Entry K) :=
  events.foldl (emitting (step limit)) (job, [])

/-! ## What the log says -/

/-- Every participant of the checkpoint's last trigger has acknowledged it ok
since. -/
def AllAcked (log : List (Entry K)) (id : Nat) (participants : Finset K) : Prop :=
  ∃ before mid, log = before ++ .triggered id participants :: mid ∧
    (∀ ps, Entry.triggered id ps ∉ mid) ∧ ∀ p ∈ participants, Entry.acked id p true ∈ mid

/-- A completed checkpoint was acknowledged ok by every participant of its
trigger. -/
def CompletesAcked (log : List (Entry K)) : Prop :=
  ∀ before id subtasks suppress after, log = before ++ .completed id subtasks suppress :: after →
    AllAcked before id subtasks

/-- Behind a checkpoint that failed while the job was running with checkpoints,
none above it completes until the job is redeployed. -/
def RespectsFailures (log : List (Entry K)) : Prop :=
  ∀ before k mid j subtasks suppress after,
    log = before ++ .failed k true :: (mid ++ .completed j subtasks suppress :: after) → k < j →
      Entry.redeployed ∈ mid

variable {log : List (Entry K)} {e : Entry K}

omit [DecidableEq K] in
/-- Where an entry stands in a log that has grown by one. -/
theorem split_snoc {before after : List (Entry K)} {x : Entry K}
    (h : log ++ [e] = before ++ x :: after) :
    (after = [] ∧ before = log ∧ x = e) ∨ ∃ after', after = after' ++ [e] ∧
      log = before ++ x :: after' := by
  rcases List.eq_nil_or_concat after with rfl | ⟨after', y, rfl⟩
  · obtain ⟨hlog, hlast⟩ := List.append_inj' h rfl
    exact .inl ⟨rfl, hlog.symm, (List.singleton_inj.mp hlast).symm⟩
  · rw [List.concat_eq_append, ← List.cons_append, ← List.append_assoc] at h
    obtain ⟨hlog, hlast⟩ := List.append_inj' h rfl
    rw [List.concat_eq_append, List.singleton_inj.mp hlast]
    exact .inr ⟨after', rfl, hlog⟩

omit [DecidableEq K] in
theorem CompletesAcked.snoc (h : CompletesAcked log)
    (hlast : ∀ id subtasks suppress, e = .completed id subtasks suppress →
      AllAcked log id subtasks) : CompletesAcked (log ++ [e]) := by
  intro before id subtasks suppress after heq
  rcases split_snoc heq with ⟨-, rfl, hx⟩ | ⟨after', -, hlog⟩
  · exact hlast id subtasks suppress hx.symm
  · exact h before id subtasks suppress after' hlog

omit [DecidableEq K] in
theorem RespectsFailures.snoc (h : RespectsFailures log)
    (hlast : ∀ j subtasks suppress, e = .completed j subtasks suppress →
      ∀ before k mid, log = before ++ .failed k true :: mid → k < j → Entry.redeployed ∈ mid) :
    RespectsFailures (log ++ [e]) := by
  intro before k mid j subtasks suppress after heq hlt
  have hassoc : log ++ [e] =
      (before ++ .failed k true :: mid) ++ .completed j subtasks suppress :: after := by
    rw [heq, List.append_assoc, List.cons_append]
  rcases split_snoc hassoc with ⟨-, hlog, hx⟩ | ⟨after', -, hlog⟩
  · exact hlast j subtasks suppress hx.symm before k mid hlog.symm hlt
  · rw [List.append_assoc, List.cons_append] at hlog
    exact h before k mid j subtasks suppress after' hlog hlt

/-! ## The invariant -/

/-- A checkpoint that still waits for `pending`: whoever else of its trigger has
answered, and every failure is on record. -/
def Collecting (job : JobState K) (log : List (Entry K)) (id : Nat) (pending : Finset K) : Prop :=
  ∃ before participants mid, log = before ++ .triggered id participants :: mid ∧
    (∀ ps, Entry.triggered id ps ∉ mid) ∧
    job.checkpointParticipants id = some participants ∧
    (∀ p ∈ participants, p ∉ pending → ∃ ok, Entry.acked id p ok ∈ mid) ∧
    ∀ p, Entry.acked id p false ∈ mid → p ∈ job.failedCheckpointAcks id

/-- The floor covers every failure since the last redeploy. -/
def FloorCovers (job : JobState K) (log : List (Entry K)) : Prop :=
  ∀ before k after, log = before ++ .failed k true :: after → Entry.redeployed ∉ after →
    job.rewindFloor ≠ 0 ∧ job.rewindFloor ≤ k

structure Tracks (job : JobState K) (log : List (Entry K)) : Prop where
  next : 1 ≤ job.nextCheckpointId
  cutover : ∀ id, job.cutoverCheckpoint = some id → 1 ≤ id
  ids : ∀ id pending, job.pendingCheckpointAcks id = some pending → 1 ≤ id
  collecting : ∀ id pending, job.pendingCheckpointAcks id = some pending →
    Collecting job log id pending
  floor : FloorCovers job log
  acked : CompletesAcked log
  failures : RespectsFailures log

variable {job : JobState K}

omit [DecidableEq K] in
/-- An entry that is not about the checkpoint leaves it collecting. -/
theorem Collecting.snoc {job' : JobState K} {id : Nat} {pending : Finset K}
    (h : Collecting job log id pending)
    (hparticipants : job'.checkpointParticipants id = job.checkpointParticipants id)
    (hfailed : job'.failedCheckpointAcks id = job.failedCheckpointAcks id)
    (htriggered : ∀ ps, e ≠ .triggered id ps) (hacked : ∀ p, e ≠ .acked id p false) :
    Collecting job' (log ++ [e]) id pending := by
  obtain ⟨before, ps, mid, rfl, hfresh, hps, hanswered, hfails⟩ := h
  refine ⟨before, ps, mid ++ [e], by simp, ?_, hparticipants.trans hps, ?_, ?_⟩
  · intro ps' hmem
    rcases List.mem_append.mp hmem with hmem | hmem
    · exact hfresh ps' hmem
    · exact htriggered ps' (List.mem_singleton.mp hmem).symm
  · intro p hp hnot
    obtain ⟨ok, hok⟩ := hanswered p hp hnot
    exact ⟨ok, List.mem_append_left _ hok⟩
  · intro p hmem
    rcases List.mem_append.mp hmem with hmem | hmem
    · rw [hfailed]
      exact hfails p hmem
    · exact absurd (List.mem_singleton.mp hmem).symm (hacked p)

omit [DecidableEq K] in
/-- An entry other than a failure leaves the floor covering, if the floor stays. -/
theorem FloorCovers.snoc {job' : JobState K} (h : FloorCovers job log)
    (hfloor : job'.rewindFloor = job.rewindFloor) (he : ∀ k, e ≠ .failed k true) :
    FloorCovers job' (log ++ [e]) := by
  intro before k after heq hno
  rcases split_snoc heq with ⟨-, -, hx⟩ | ⟨after', rfl, hlog⟩
  · exact absurd hx.symm (he k)
  · rw [hfloor]
    exact h before k after' hlog fun hmem => hno (List.mem_append_left _ hmem)

/-- Two states with the same checkpoint bookkeeping. -/
structure SameBooks (job' job : JobState K) : Prop where
  pending : job'.pendingCheckpointAcks = job.pendingCheckpointAcks
  failed : job'.failedCheckpointAcks = job.failedCheckpointAcks
  participants : job'.checkpointParticipants = job.checkpointParticipants
  floor : job'.rewindFloor = job.rewindFloor

namespace Tracks

variable {job job' : JobState K} {log : List (Entry K)}

section

variable (h : Tracks job log)
include h

omit [DecidableEq K] in
theorem congr (hsame : SameBooks job' job) (hnext : 1 ≤ job'.nextCheckpointId)
    (hcutover : ∀ id, job'.cutoverCheckpoint = some id → 1 ≤ id) :
    Tracks job' log where
  next := hnext
  cutover := hcutover
  ids id pending hp := h.ids id pending (by rw [← hsame.pending]; exact hp)
  collecting id pending hp := by
    have hold := h.collecting id pending (by rw [← hsame.pending]; exact hp)
    rw [Collecting, hsame.participants, hsame.failed]
    exact hold
  floor := by
    rw [FloorCovers, hsame.floor]
    exact h.floor
  acked := h.acked
  failures := h.failures

omit [DecidableEq K] in
theorem register {id : Nat} (hid : 1 ≤ id) :
    Tracks (job.register id).1 (log ++ (job.register id).2) where
  next := h.next
  cutover := h.cutover
  ids id' pending hp := by
    by_cases heq : id' = id
    · rw [heq]
      exact hid
    · simp only [JobState.register, Function.update_of_ne heq] at hp
      exact h.ids id' pending hp
  collecting id' pending hp := by
    by_cases heq : id' = id
    · subst heq
      simp only [JobState.register, Function.update_self, Option.some.injEq] at hp
      refine ⟨log, job.taskRecords, [], rfl, by simp, by simp [JobState.register], ?_, by simp⟩
      intro p hmem hnot
      rw [← hp] at hnot
      exact absurd hmem hnot
    · simp only [JobState.register, Function.update_of_ne heq] at hp
      refine (h.collecting id' pending hp).snoc (by simp [JobState.register, heq]) rfl ?_ (by simp)
      intro ps hps
      simp only [Entry.triggered.injEq] at hps
      exact heq hps.1.symm
  floor := h.floor.snoc rfl (by simp)
  acked := h.acked.snoc (by simp)
  failures := h.failures.snoc (by simp)

omit [DecidableEq K] in
theorem redeploy (tasks : Finset K) (rescale : Bool) :
    Tracks (job.restartJob (.redeploys tasks rescale)).1
      (log ++ (job.restartJob (.redeploys tasks rescale)).2) where
  next := h.next
  cutover := h.cutover
  ids id pending hp := by cases hp
  collecting id pending hp := by cases hp
  floor := by
    intro before k after heq hno
    rcases split_snoc heq with ⟨-, -, hx⟩ | ⟨after', rfl, -⟩
    · cases hx
    · exact absurd (List.mem_append_right _ (List.mem_singleton_self _)) hno
  acked := h.acked.snoc (by simp)
  failures := h.failures.snoc (by simp)

omit [DecidableEq K] in
theorem restart (restart : Restart K) :
    Tracks (job.restartJob restart).1 (log ++ (job.restartJob restart).2) := by
  cases restart with
  | waits =>
      rw [show log ++ (job.restartJob .waits).2 = log from List.append_nil log]
      exact h
  | fails =>
      rw [show log ++ (job.restartJob .fails).2 = log from List.append_nil log]
      exact h.congr ⟨rfl, rfl, rfl, rfl⟩ h.next h.cutover
  | redeploys tasks rescale => exact h.redeploy tasks rescale

omit [DecidableEq K] in
theorem initiateRestart (atOnce : Option (Restart K)) :
    Tracks (job.initiateJobRestart atOnce).1 (log ++ (job.initiateJobRestart atOnce).2) := by
  have hwaiting : Tracks { job with awaitingRestart := true } log :=
    h.congr ⟨rfl, rfl, rfl, rfl⟩ h.next h.cutover
  cases atOnce with
  | none =>
      rw [show log ++ (job.initiateJobRestart none).2 = log from List.append_nil log]
      exact hwaiting
  | some restart => exact hwaiting.restart restart

theorem noteAck (ack : Ack K) {pending : Finset K}
    (hpending : job.pendingCheckpointAcks ack.checkpointId = some pending) :
    Tracks (job.noteAck ack pending)
      (log ++ [.acked ack.checkpointId ack.key ack.ok]) where
  next := h.next
  cutover := h.cutover
  ids id pending' hp := by
    by_cases heq : id = ack.checkpointId
    · rw [heq]
      exact h.ids _ pending hpending
    · simp only [JobState.noteAck, Function.update_of_ne heq] at hp
      exact h.ids id pending' hp
  collecting id pending' hp := by
    by_cases heq : id = ack.checkpointId
    · subst heq
      simp only [JobState.noteAck, Function.update_self, Option.some.injEq] at hp
      obtain ⟨before, ps, mid, rfl, hfresh, hps, hanswered, hfails⟩ :=
        h.collecting _ pending hpending
      refine ⟨before, ps, mid ++ [.acked ack.checkpointId ack.key ack.ok], by simp, ?_, hps, ?_, ?_⟩
      · intro ps' hmem
        rcases List.mem_append.mp hmem with hmem | hmem
        · exact hfresh ps' hmem
        · cases List.mem_singleton.mp hmem
      · intro p hmem hnot
        by_cases hkey : p = ack.key
        · exact ⟨ack.ok, List.mem_append_right _ (by rw [hkey]; exact List.mem_singleton_self _)⟩
        · obtain ⟨ok, hok⟩ := hanswered p hmem fun hin =>
            hnot (by rw [← hp]; exact Finset.mem_erase.mpr ⟨hkey, hin⟩)
          exact ⟨ok, List.mem_append_left _ hok⟩
      · intro p hmem
        rcases List.mem_append.mp hmem with hmem | hmem
        · have hold := hfails p hmem
          simp only [JobState.noteAck]
          split
          · exact hold
          · rw [Function.update_self]
            exact Finset.mem_insert_of_mem hold
        · have hthis := List.mem_singleton.mp hmem
          simp only [Entry.acked.injEq, true_and] at hthis
          simp only [JobState.noteAck, ← hthis.2, Bool.false_eq_true, if_false,
            Function.update_self, hthis.1]
          exact Finset.mem_insert_self _ _
    · simp only [JobState.noteAck, Function.update_of_ne heq] at hp
      refine (h.collecting id pending' hp).snoc rfl ?_ (by simp) ?_
      · simp only [JobState.noteAck]
        split
        · rfl
        · rw [Function.update_of_ne heq]
      · intro p hthis
        simp only [Entry.acked.injEq] at hthis
        exact heq hthis.1.symm
  floor := h.floor.snoc rfl (by simp)
  acked := h.acked.snoc (by simp)
  failures := h.failures.snoc (by simp)

omit [DecidableEq K] in
/-- Forgetting a checkpoint leaves the others collecting. -/
theorem collecting_forget (job' : JobState K) (id : Nat) (e : Entry K)
    (hparticipants : ∀ id', id' ≠ id →
      job'.checkpointParticipants id' = job.checkpointParticipants id')
    (hpending : job'.pendingCheckpointAcks = (job.forget id).pendingCheckpointAcks)
    (hfailed : job'.failedCheckpointAcks = (job.forget id).failedCheckpointAcks)
    (htriggered : ∀ id ps, e ≠ .triggered id ps) (hacked : ∀ id p, e ≠ .acked id p false)
    {id' : Nat} {pending : Finset K} (hp : job'.pendingCheckpointAcks id' = some pending) :
    1 ≤ id' ∧ Collecting job' (log ++ [e]) id' pending := by
  have hne : id' ≠ id := by
    rintro rfl
    simp [hpending, JobState.forget] at hp
  simp only [hpending, JobState.forget, Function.update_of_ne hne] at hp
  refine ⟨h.ids id' pending hp, (h.collecting id' pending hp).snoc (hparticipants id' hne) ?_
    (htriggered id') (hacked id')⟩
  simp only [hfailed, JobState.forget, Function.update_of_ne hne]

omit h in
omit [DecidableEq K] in
/-- The floor at or below the checkpoint that failed last. -/
theorem lowerFloor_covers (job : JobState K) (id : Nat) (hid : 1 ≤ id)
    (hrunning : job.runningWithCheckpoints = true) :
    (job.lowerFloor id).rewindFloor ≠ 0 ∧ (job.lowerFloor id).rewindFloor ≤ id ∧
      (job.rewindFloor ≠ 0 → (job.lowerFloor id).rewindFloor ≤ job.rewindFloor) := by
  rw [JobState.lowerFloor, hrunning, Bool.true_and]
  split
  · rename_i hlower
    simp only [Bool.or_eq_true, beq_iff_eq, decide_eq_true_eq] at hlower
    simp only
    omega
  · rename_i hkeep
    simp only [Bool.or_eq_true, beq_iff_eq, decide_eq_true_eq, not_or] at hkeep
    omega

omit h in
omit [DecidableEq K] in
private theorem lowerFloor_same (job : JobState K) (id : Nat) :
    (job.lowerFloor id).pendingCheckpointAcks = job.pendingCheckpointAcks ∧
      (job.lowerFloor id).failedCheckpointAcks = job.failedCheckpointAcks ∧
      (job.lowerFloor id).checkpointParticipants = job.checkpointParticipants ∧
      (job.lowerFloor id).nextCheckpointId = job.nextCheckpointId ∧
      (job.lowerFloor id).cutoverCheckpoint = job.cutoverCheckpoint := by
  rw [JobState.lowerFloor]
  split <;> exact ⟨rfl, rfl, rfl, rfl, rfl⟩

omit [DecidableEq K] in
theorem fails {id : Nat} (hid : 1 ≤ id) :
    Tracks ((job.lowerFloor id).forget id) (log ++ [.failed id job.runningWithCheckpoints]) := by
  obtain ⟨hpending, hfailed, hparticipants, hnext, hcutover⟩ := lowerFloor_same job id
  have hforget : ∀ {id' : Nat} {pending : Finset K},
      ((job.lowerFloor id).forget id).pendingCheckpointAcks id' = some pending →
      1 ≤ id' ∧ Collecting ((job.lowerFloor id).forget id)
        (log ++ [.failed id job.runningWithCheckpoints]) id' pending := by
    intro id' pending hp
    refine h.collecting_forget _ id (.failed id job.runningWithCheckpoints) ?_ ?_ ?_ (by simp)
      (by simp) hp
    · intro id'' _
      exact congrFun hparticipants id''
    · simp only [JobState.forget, hpending]
    · simp only [JobState.forget, hfailed]
  refine ⟨?_, ?_, fun id' pending hp => (hforget hp).1, fun id' pending hp => (hforget hp).2, ?_,
    h.acked.snoc (by simp), h.failures.snoc (by simp)⟩
  · show 1 ≤ (job.lowerFloor id).nextCheckpointId
    rw [hnext]
    exact h.next
  · intro id' hid'
    exact h.cutover id' (hcutover ▸ hid')
  · intro before k after heq hno
    show (job.lowerFloor id).rewindFloor ≠ 0 ∧ (job.lowerFloor id).rewindFloor ≤ k
    rcases split_snoc heq with ⟨-, -, hx⟩ | ⟨after', rfl, hlog⟩
    · simp only [Entry.failed.injEq] at hx
      have hcovers := lowerFloor_covers job id hid hx.2.symm
      exact ⟨hcovers.1, by omega⟩
    · have hold := h.floor before k after' hlog fun hmem => hno (List.mem_append_left _ hmem)
      cases hrunning : job.runningWithCheckpoints with
      | true =>
          have hcovers := lowerFloor_covers job id hid hrunning
          have := hcovers.2.2 hold.1
          exact ⟨hcovers.1, by omega⟩
      | false =>
          rw [JobState.lowerFloor, hrunning]
          exact hold

omit [DecidableEq K] in
theorem rewind (limit : Nat) (ack : Ack K) :
    Tracks (job.rewind limit ack).1 (log ++ (job.rewind limit ack).2) := by
  rw [JobState.rewind]
  split
  · have hcounted : Tracks { job with
        consecutiveCkptFailureRestarts := job.consecutiveCkptFailureRestarts + 1 } log :=
      h.congr ⟨rfl, rfl, rfl, rfl⟩ h.next h.cutover
    simp only
    split
    · rw [List.append_nil]
      exact hcounted.congr ⟨rfl, rfl, rfl, rfl⟩ h.next h.cutover
    · exact hcounted.initiateRestart ack.restart
  · split
    · rw [List.append_nil]
      exact h.congr ⟨rfl, rfl, rfl, rfl⟩ h.next h.cutover
    · rw [List.append_nil]
      exact h

omit [DecidableEq K] in
theorem failCheckpoint (limit : Nat) (ack : Ack K) (hid : 1 ≤ ack.checkpointId) :
    Tracks (job.failCheckpoint limit ack).1 (log ++ (job.failCheckpoint limit ack).2) := by
  have hrewound := (h.fails hid).rewind limit ack
  rw [List.append_assoc] at hrewound
  exact hrewound

omit [DecidableEq K] in
theorem discardCheckpoint (id : Nat) :
    Tracks (job.discardCheckpoint id).1 (log ++ (job.discardCheckpoint id).2) := by
  have hforget : ∀ {id' : Nat} {pending : Finset K},
      (job.discardCheckpoint id).1.pendingCheckpointAcks id' = some pending →
      1 ≤ id' ∧ Collecting (job.discardCheckpoint id).1 (log ++ [.discarded id]) id' pending := by
    intro id' pending hp
    refine h.collecting_forget (job.discardCheckpoint id).1 id (.discarded id) ?_ rfl rfl (by simp)
      (by simp) hp
    intro id'' hne
    simp only [JobState.discardCheckpoint, Function.update_of_ne hne]
  exact ⟨h.next, h.cutover, fun id' pending hp => (hforget hp).1,
    fun id' pending hp => (hforget hp).2, h.floor.snoc rfl (by simp), h.acked.snoc (by simp),
    h.failures.snoc (by simp)⟩

omit h in
omit [DecidableEq K] in
/-- With nothing pending and no failure on record, every participant has
acknowledged ok. -/
theorem allAcked {id : Nat} (h : Collecting job log id ∅)
    (hnone : job.failedCheckpointAcks id = ∅) :
    AllAcked log id ((job.checkpointParticipants id).getD ∅) := by
  obtain ⟨before, ps, mid, hlog, hfresh, hps, hanswered, hfails⟩ := h
  rw [hps, Option.getD_some]
  refine ⟨before, mid, hlog, hfresh, ?_⟩
  intro p hp
  obtain ⟨ok, hok⟩ := hanswered p hp (Finset.notMem_empty p)
  cases ok with
  | true => exact hok
  | false =>
      have hin := hfails p hok
      rw [hnone] at hin
      exact absurd hin (Finset.notMem_empty p)

omit [DecidableEq K] in
theorem completeCheckpoint (ack : Ack K)
    (hpending : job.pendingCheckpointAcks ack.checkpointId = some ∅)
    (hnone : job.failedCheckpointAcks ack.checkpointId = ∅)
    (hfloor : job.aboveRewindFloor ack.checkpointId = false) :
    Tracks (job.completeCheckpoint ack).1 (log ++ (job.completeCheckpoint ack).2) := by
  have hforget : ∀ {id' : Nat} {pending : Finset K},
      (job.completeCheckpoint ack).1.pendingCheckpointAcks id' = some pending →
      1 ≤ id' ∧ Collecting (job.completeCheckpoint ack).1
        (log ++ (job.completeCheckpoint ack).2) id' pending := by
    intro id' pending hp
    refine h.collecting_forget (job.completeCheckpoint ack).1 ack.checkpointId (.completed _ _ _) ?_
      rfl rfl (by simp) (by simp) hp
    intro id'' hne
    simp only [JobState.completeCheckpoint, Function.update_of_ne hne]
  refine ⟨h.next, h.cutover, fun id' pending hp => (hforget hp).1,
    fun id' pending hp => (hforget hp).2, h.floor.snoc rfl (by simp), h.acked.snoc ?_,
    h.failures.snoc ?_⟩
  · intro id subtasks suppress hx
    simp only [Entry.completed.injEq] at hx
    rw [← hx.1, ← hx.2.1]
    exact allAcked (h.collecting _ ∅ hpending) hnone
  · intro j subtasks suppress hx before k mid hlog hlt
    simp only [Entry.completed.injEq] at hx
    by_contra hno
    have hcovers := h.floor before k mid hlog hno
    simp only [JobState.aboveRewindFloor, Bool.and_eq_false_iff, bne_eq_false_iff_eq,
      decide_eq_false_iff_not] at hfloor
    omega

theorem settle (limit : Nat) (ack : Ack K)
    (hpending : job.pendingCheckpointAcks ack.checkpointId = some ∅) :
    Tracks (job.settle limit ack).1 (log ++ (job.settle limit ack).2) := by
  rw [JobState.settle]
  split
  · exact h.failCheckpoint limit ack (h.ids _ ∅ hpending)
  · rename_i hnone
    split
    · exact h.discardCheckpoint ack.checkpointId
    · rename_i hfloor
      exact h.completeCheckpoint ack hpending (by simpa using hnone) (by simpa using hfloor)

theorem handleSubtaskCheckpointed (limit : Nat) (ack : Ack K) :
    Tracks (job.handleSubtaskCheckpointed limit ack).1
      (log ++ (job.handleSubtaskCheckpointed limit ack).2) := by
  rw [JobState.handleSubtaskCheckpointed]
  split
  · rw [List.append_nil]
    exact h
  · split
    · rw [List.append_nil]
      exact h
    · rename_i pending hpending
      have hnoted := h.noteAck ack hpending
      simp only
      split
      · rename_i hempty
        have hsettled := hnoted.settle limit ack (by simp [JobState.noteAck, hempty])
        rw [List.append_assoc] at hsettled
        exact hsettled
      · exact hnoted

theorem step (limit : Nat) (e : Event K) :
    Tracks (step limit job e).1 (log ++ (step limit job e).2) := by
  cases e with
  | trigger site =>
      simp only [CheckpointCompletion.step, JobState.trigger]
      split
      · have hregister : ∀ job' : JobState K, SameBooks job' job →
            job'.nextCheckpointId = job.nextCheckpointId + 1 →
            job'.cutoverCheckpoint = job.cutoverCheckpoint →
            Tracks (job'.register job.nextCheckpointId).1
              (log ++ (job'.register job.nextCheckpointId).2) := by
          intro job' hsame hnext hcutover
          have htracks : Tracks job' log :=
            h.congr hsame (by omega) (fun id hid => h.cutover id (hcutover ▸ hid))
          exact htracks.register h.next
        cases site with
        | periodic => exact hregister _ ⟨rfl, rfl, rfl, rfl⟩ rfl rfl
        | savepoint holdPeriodic => exact hregister _ ⟨rfl, rfl, rfl, rfl⟩ rfl rfl
        | final => exact hregister _ ⟨rfl, rfl, rfl, rfl⟩ rfl rfl
      · rw [List.append_nil]
        exact h
  | reserveCutover =>
      simp only [CheckpointCompletion.step, List.append_nil]
      refine h.congr ⟨rfl, rfl, rfl, rfl⟩ (Nat.le_add_left 1 _) ?_
      intro id hid
      rw [← Option.some.inj hid]
      exact h.next
  | triggerCutover =>
      simp only [CheckpointCompletion.step, JobState.triggerCutover]
      split
      · rw [List.append_nil]
        exact h
      · rename_i id hid
        exact h.register (h.cutover id hid)
  | endCutover tasks =>
      simp only [CheckpointCompletion.step, List.append_nil]
      exact h.congr ⟨rfl, rfl, rfl, rfl⟩ h.next (fun id hid => by cases hid)
  | renumber held =>
      simp only [CheckpointCompletion.step, JobState.renumberAboveHeldIds, List.append_nil]
      split
      · exact h
      · exact h.congr ⟨rfl, rfl, rfl, rfl⟩ (Nat.le_add_left 1 _) h.cutover
  | ack ack => exact h.handleSubtaskCheckpointed limit ack
  | initiateRestart atOnce => exact h.initiateRestart atOnce
  | restart restart => exact h.restart restart
  | cancel =>
      simp only [CheckpointCompletion.step, List.append_nil]
      exact h.congr ⟨rfl, rfl, rfl, rfl⟩ h.next h.cutover
  | signalCompletion =>
      simp only [CheckpointCompletion.step, List.append_nil]
      exact h.congr ⟨rfl, rfl, rfl, rfl⟩ h.next h.cutover

end

end Tracks

omit [DecidableEq K] in
theorem tracks_start (tasks : Finset K) (hasCheckpointDir : Bool) (maxRestarts idFloor : Nat) :
    Tracks (JobState.start tasks hasCheckpointDir maxRestarts idFloor) [] where
  next := Nat.le_add_left 1 _
  cutover id hid := by cases hid
  ids id pending hp := by cases hp
  collecting id pending hp := by cases hp
  floor before k after heq := by simp at heq
  acked before id subtasks suppress after heq := by simp at heq
  failures before k mid j subtasks suppress after heq := by simp at heq

theorem tracks_run (limit : Nat) (events : List (Event K)) (h : Tracks job []) :
    Tracks (run limit job events).1 (run limit job events).2 := by
  suffices hfold : ∀ (s : JobState K × List (Entry K)), Tracks s.1 s.2 →
      Tracks (events.foldl (emitting (step limit)) s).1
        (events.foldl (emitting (step limit)) s).2 from hfold (job, []) h
  induction events with
  | nil =>
      intro s hs
      exact hs
  | cons e events ih =>
      intro s hs
      exact ih _ (hs.step limit e)

/-- In every run of a job, a completed checkpoint was acknowledged ok by every
participant of its trigger, and none completes above one that failed while the
job was running with checkpoints until the job is redeployed. -/
theorem no_completion_over_failure (limit : Nat) (tasks : Finset K) (hasCheckpointDir : Bool)
    (maxRestarts idFloor : Nat) (events : List (Event K)) :
    CompletesAcked
        (run limit (JobState.start tasks hasCheckpointDir maxRestarts idFloor) events).2 ∧
      RespectsFailures
        (run limit (JobState.start tasks hasCheckpointDir maxRestarts idFloor) events).2 := by
  have htracks := tracks_run limit events (tracks_start tasks hasCheckpointDir maxRestarts idFloor)
  exact ⟨htracks.acked, htracks.failures⟩

end Clink.Ports.CheckpointCompletion

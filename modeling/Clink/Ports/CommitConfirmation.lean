import Clink.Verified.Run
import Clink.Verified.SortedMap
import Mathlib.Data.Finset.Erase
import Mathlib.Data.Finset.Insert
import Mathlib.Data.List.DropRight

/-!
# Confirming the commits of a checkpoint

The embedding of the commit-confirmed restore protocol of one job.  The worker
runs a subtask's commit callbacks and confirms the checkpoint when all of them
executed (`dispatch_commit_checkpoint_`, `src/cluster/worker.cpp`).  The
coordinator broadcasts the commit of a completed checkpoint and tracks who has
to confirm it, takes the confirmations, writes CONFIRMED-N when the last one is
in, and then advances the job's confirmed restore point
(`handle_subtask_checkpointed_`, `handle_commit_confirmed_`,
`restart_job_locked_`, `src/cluster/coordinator.cpp`).

Both handlers drop the coordinator's lock around their durable write, so a
handler in flight is an entry of a list between its holds, and its steps
interleave with everything else.  Frames between worker and coordinator may be
lost, delayed and delivered in any order.
-/

namespace Clink.Ports.CommitConfirmation

open Clink.Verified

/-! ## The worker -/

/-- `CommitConfirmedMsg`, of the one job. -/
structure CommitConfirmedMsg where
  checkpointId : Nat
  role : String
  subtaskIdx : Nat
  deriving DecidableEq

/-- The key the coordinator tracks the task under. -/
def CommitConfirmedMsg.key (msg : CommitConfirmedMsg) : String :=
  msg.role ++ ":" ++ toString msg.subtaskIdx

/-- `kGenericSubtaskRole`. -/
def genericSubtaskRole : String := "__clink_subtask"

/-- What a call of a commit callback comes to. -/
inductive CommitOutcome
  | executed
  /-- `CommitDispatchRefused`. -/
  | refused
  /-- Any other throw. -/
  | failed
  deriving DecidableEq

structure CommitCallback where
  /-- Its gate has retired. -/
  dead : Bool
  outcome : CommitOutcome

/-- The callbacks of a subtask that are still dispatched to. -/
def liveCallbacks (entry : List CommitCallback) : List CommitCallback :=
  entry.filter fun callback => !callback.dead

/-- Every callback executed, and there was one. -/
def commitExecuted (entry : List CommitCallback) : Bool :=
  (liveCallbacks entry).all (fun callback => callback.outcome == .executed) &&
    !(liveCallbacks entry).isEmpty

/-- `dispatch_commit_checkpoint_`: the confirmations it sends. -/
def dispatchCommitCheckpoint (checkpointId : Nat)
    (committers : List (Nat × List CommitCallback)) : List CommitConfirmedMsg :=
  (committers.filter fun committer => commitExecuted committer.2).map fun committer =>
    { checkpointId, role := genericSubtaskRole, subtaskIdx := committer.1 }

/-! ## The coordinator -/

/-- The fields of `JobState` the protocol uses. -/
structure JobState where
  /-- `checkpoint.checkpoint_dir` is not empty. -/
  hasCheckpointDir : Bool
  confirmTaskKeys : Finset String
  latestConfirmedCheckpointId : Nat
  pendingConfirms : SortedMap Nat (Finset String) := .empty
  redeploys : Nat := 0
  awaitingRestart : Bool := false
  cancelRequested : Bool := false
  /-- The job is still in `jobs_`. -/
  present : Bool := true

/-- A checkpoint between the hold that completed it and the one that broadcasts
its commit (`CompletedCheckpoint`). -/
structure CompletedCheckpoint where
  checkpointId : Nat
  suppressCommit : Bool
  redeploys : Nat
  /-- The COMPLETED marker is durable, or the job keeps no directory. -/
  recorded : Bool

/-- A confirmation between the hold that drained its checkpoint and the one
that advances. -/
structure ConfirmedWrite where
  /-- The confirmations received before this one, counted. -/
  handler : Nat
  confirmedId : Nat
  redeploys : Nat
  /-- The put of the CONFIRMED marker returned. -/
  durable : Bool

/-- The bound on `pending_confirms`. -/
def maxPendingConfirms : Nat := 64

/-- `while (size > limit) erase(begin)`. -/
def keepNewest (limit : Nat) (pending : SortedMap Nat (Finset String)) :
    SortedMap Nat (Finset String) :=
  ⟨pending.entries.drop (pending.entries.length - limit),
    pending.sorted.sublist (List.drop_sublist _ _)⟩

namespace JobState

/-- Whether the hold that decides the broadcast sends the commit. -/
def broadcasts (job : JobState) (done : CompletedCheckpoint) : Bool :=
  done.recorded && !done.suppressCommit && job.present && job.redeploys == done.redeploys &&
    !(job.awaitingRestart || job.cancelRequested)

/-- The pending set a broadcast checkpoint gets, on a tracked job. -/
def track (job : JobState) (checkpointId : Nat) : JobState :=
  if job.confirmTaskKeys = ∅ then job
  else
    { job with
      pendingConfirms :=
        keepNewest maxPendingConfirms
          (job.pendingConfirms.upsert checkpointId fun _ => job.confirmTaskKeys) }

/-- The first hold of `handle_commit_confirmed_`, with the id whose marker is
due after it. -/
def receive (job : JobState) (msg : CommitConfirmedMsg) : JobState × Option Nat :=
  if !job.present then (job, none)
  else
    match job.pendingConfirms.find? msg.checkpointId with
    | none => (job, none)
    | some pending =>
        if pending.erase msg.key ≠ ∅ then
          ({ job with
              pendingConfirms :=
                job.pendingConfirms.upsert msg.checkpointId fun _ => pending.erase msg.key },
            none)
        else
          let job := { job with pendingConfirms := job.pendingConfirms.above msg.checkpointId }
          if job.hasCheckpointDir then (job, some msg.checkpointId)
          else
            ({ job with
                latestConfirmedCheckpointId :=
                  max job.latestConfirmedCheckpointId msg.checkpointId },
              none)

/-- The second hold advances: the job is there and in the run it was in. -/
def advances (job : JobState) (write : ConfirmedWrite) : Bool :=
  write.durable && job.present && job.redeploys == write.redeploys

def advance (job : JobState) (confirmedId : Nat) : JobState :=
  { job with latestConfirmedCheckpointId := max job.latestConfirmedCheckpointId confirmedId }

/-- What `restart_job_locked_` does to the fields. -/
def redeploy (job : JobState) : JobState :=
  { job with
    redeploys := job.redeploys + 1
    pendingConfirms := .empty
    awaitingRestart := false }

end JobState

/-! ## Runs -/

/-- What has happened, as the protocol sees it. -/
inductive Entry
  /-- The checkpoint's commit was broadcast, and these tasks have to confirm it. -/
  | tracked (checkpointId : Nat) (keys : Finset String)
  /-- The task's commit callbacks all executed. -/
  | executed (checkpointId : Nat) (key : String)
  /-- The coordinator took the task's confirmation. -/
  | received (handler checkpointId : Nat) (key : String)
  | durable (checkpointId : Nat)
  | advanced (handler checkpointId : Nat)
  | resolved (checkpointId : Nat)
  | redeployed
  deriving DecidableEq

/-- What has happened since the last redeploy. -/
def currentRun (log : List Entry) : List Entry := log.rtakeWhile fun e => e ≠ .redeployed

structure System where
  job : JobState
  /-- The CONFIRMED markers in the checkpoint directory. -/
  markers : Finset Nat
  completing : List CompletedCheckpoint := []
  /-- The CommitCheckpoint frames sent. -/
  commits : List Nat := []
  /-- The CommitConfirmed frames sent. -/
  confirms : List CommitConfirmedMsg := []
  writes : List ConfirmedWrite := []
  handlers : Nat := 0
  log : List Entry := []

/-- How a put ends. -/
inductive PutOutcome
  | succeeded
  /-- It threw, the marker having landed or not. -/
  | threw (landed : Bool)
  deriving DecidableEq

inductive Event
  /-- The last acknowledgement of the checkpoint is in. -/
  | completes (checkpointId : Nat)
  /-- The put of the COMPLETED marker of the i-th checkpoint completing. -/
  | completedMarker (i : Nat) (ok : Bool)
  /-- The hold that decides the broadcast of its commit. -/
  | broadcast (i : Nat)
  /-- A worker handles the commit of a checkpoint. -/
  | dispatch (checkpointId : Nat) (committers : List (Nat × List CommitCallback))
  /-- A confirmation reaches the coordinator. -/
  | confirm (msg : CommitConfirmedMsg) (senderLost : Bool)
  /-- The put of the CONFIRMED marker of the i-th write in flight. -/
  | confirmedMarker (i : Nat) (outcome : PutOutcome)
  /-- Its handler's second hold. -/
  | advance (i : Nat)
  | initiateRestart
  | cancel
  /-- A replan names the tracked tasks anew. -/
  | replan (keys : Finset String)
  | redeploy
  /-- The in-doubt walk of a held restart answers. -/
  | resolve (resolved : Nat)
  | evict

namespace System

def broadcast (s : System) (i : Nat) : System :=
  match s.completing[i]? with
  | none => s
  | some done =>
      let s := { s with completing := s.completing.eraseIdx i }
      if s.job.broadcasts done then
        { s with
          job := s.job.track done.checkpointId
          commits := s.commits ++ [done.checkpointId]
          log := s.log ++ [.tracked done.checkpointId s.job.confirmTaskKeys] }
      else s

def dispatch (s : System) (checkpointId : Nat)
    (committers : List (Nat × List CommitCallback)) : System :=
  let sent := dispatchCommitCheckpoint checkpointId committers
  { s with
    confirms := s.confirms ++ sent
    log := s.log ++ sent.map fun msg => .executed msg.checkpointId msg.key }

/-- The writes in flight after a first hold. -/
def writesAfter (s : System) : Option Nat → List ConfirmedWrite
  | none => s.writes
  | some confirmedId =>
      s.writes ++
        [{ handler := s.handlers, confirmedId, redeploys := s.job.redeploys, durable := false }]

/-- `handle_commit_confirmed_` up to the put. -/
def confirm (s : System) (msg : CommitConfirmedMsg) (senderLost : Bool) : System :=
  if senderLost then s
  else
    let received := s.job.receive msg
    { s with
      job := received.1
      handlers := s.handlers + 1
      log := s.log ++ [.received s.handlers msg.checkpointId msg.key]
      writes := s.writesAfter received.2 }

def confirmedMarker (s : System) (i : Nat) (outcome : PutOutcome) : System :=
  match s.writes[i]? with
  | none => s
  | some write =>
      match outcome with
      | .succeeded =>
          { s with
            markers := insert write.confirmedId s.markers
            writes := s.writes.set i { write with durable := true }
            log := s.log ++ [.durable write.confirmedId] }
      | .threw true =>
          { s with
            markers := insert write.confirmedId s.markers
            writes := s.writes.eraseIdx i
            log := s.log ++ [.durable write.confirmedId] }
      | .threw false => { s with writes := s.writes.eraseIdx i }

/-- `handle_commit_confirmed_` after the put. -/
def advance (s : System) (i : Nat) : System :=
  match s.writes[i]? with
  | none => s
  | some write =>
      let s := { s with writes := s.writes.eraseIdx i }
      if s.job.advances write then
        { s with
          job := s.job.advance write.confirmedId
          log := s.log ++ [.advanced write.handler write.confirmedId] }
      else s

/-- `in_doubt_resolution_loop_` applies the walk's answer. -/
def resolve (s : System) (resolved : Nat) : System :=
  if s.job.latestConfirmedCheckpointId < resolved then
    { s with
      job := { s.job with latestConfirmedCheckpointId := resolved }
      log := s.log ++ [.resolved resolved] }
  else s

def step (s : System) : Event → System
  | .completes checkpointId =>
      { s with
        completing :=
          s.completing ++
            [{ checkpointId, suppressCommit := s.job.awaitingRestart,
               redeploys := s.job.redeploys, recorded := !s.job.hasCheckpointDir }] }
  | .completedMarker i ok =>
      match s.completing[i]? with
      | none => s
      | some done =>
          if ok then { s with completing := s.completing.set i { done with recorded := true } }
          else { s with completing := s.completing.eraseIdx i }
  | .broadcast i => s.broadcast i
  | .dispatch checkpointId committers => s.dispatch checkpointId committers
  | .confirm msg senderLost => s.confirm msg senderLost
  | .confirmedMarker i outcome => s.confirmedMarker i outcome
  | .advance i => s.advance i
  | .initiateRestart => { s with job := { s.job with awaitingRestart := true } }
  | .cancel => { s with job := { s.job with cancelRequested := true } }
  | .replan keys => { s with job := { s.job with confirmTaskKeys := keys } }
  | .redeploy => { s with job := s.job.redeploy, log := s.log ++ [.redeployed] }
  | .resolve resolved => s.resolve resolved
  | .evict => { s with job := { s.job with present := false } }

/-- Workers handle commits that were sent, the coordinator confirmations that
were sent. -/
def delivered (_ : List Event) (s : System) : Event → Prop
  | .dispatch checkpointId _ => checkpointId ∈ s.commits
  | .confirm msg _ => msg ∈ s.confirms
  | _ => True

/-- The job as it is deployed, its confirmed restore point seeded from the
markers of an earlier run. -/
def start (hasCheckpointDir : Bool) (confirmTaskKeys : Finset String) (seed : Nat)
    (markers : Finset Nat) : System :=
  { job := { hasCheckpointDir, confirmTaskKeys, latestConfirmedCheckpointId := seed }
    markers }

end System

/-! ## What the log says -/

variable {log more : List Entry}

theorem currentRun_grow (h : Entry.redeployed ∉ more) :
    currentRun (log ++ more) = currentRun log ++ more := by
  induction more using List.reverseRecOn with
  | nil => simp
  | append_singleton more e ih =>
      simp only [List.mem_append, List.mem_singleton, not_or] at h
      have he : decide (e ≠ .redeployed) = true := by simpa using Ne.symm h.2
      have hlast : currentRun (log ++ more ++ [e]) = currentRun (log ++ more) ++ [e] :=
        List.rtakeWhile_concat_pos (fun e : Entry => decide (e ≠ .redeployed)) _ _ he
      rw [← List.append_assoc, hlast, ih h.1, List.append_assoc]

theorem mem_of_mem_currentRun {e : Entry} (h : e ∈ currentRun log) : e ∈ log :=
  (List.rtakeWhile_suffix _ _).subset h

/-- In the current run the checkpoint was tracked for some tasks, and of these
every one outside `pending` has confirmed it since. -/
def Collecting (log : List Entry) (id : Nat) (pending : Finset String) : Prop :=
  ∃ keys before mid, currentRun log = before ++ .tracked id keys :: mid ∧ keys ≠ ∅ ∧
    ∀ k ∈ keys, k ∉ pending → ∃ handler, Entry.received handler id k ∈ mid

/-- In the current run every task the checkpoint was tracked for has confirmed
it since, the last of them to this handler. -/
def ConfirmedByAll (log : List Entry) (handler id : Nat) : Prop :=
  ∃ keys before mid, currentRun log = before ++ .tracked id keys :: mid ∧ keys ≠ ∅ ∧
    (∀ k ∈ keys, ∃ handler', Entry.received handler' id k ∈ mid) ∧
    ∃ k, Entry.received handler id k ∈ mid

variable {id : Nat} {pending : Finset String}

theorem Collecting.grow (h : Collecting log id pending) (hmore : Entry.redeployed ∉ more) :
    Collecting (log ++ more) id pending := by
  obtain ⟨keys, before, mid, hrun, hne, hconfirmed⟩ := h
  refine ⟨keys, before, mid ++ more, ?_, hne, ?_⟩
  · rw [currentRun_grow hmore, hrun, List.append_assoc, List.cons_append]
  · intro k hk hnot
    obtain ⟨handler, hmem⟩ := hconfirmed k hk hnot
    exact ⟨handler, List.mem_append_left _ hmem⟩

theorem ConfirmedByAll.grow {handler : Nat} (h : ConfirmedByAll log handler id)
    (hmore : Entry.redeployed ∉ more) : ConfirmedByAll (log ++ more) handler id := by
  obtain ⟨keys, before, mid, hrun, hne, hconfirmed, k, hlast⟩ := h
  refine ⟨keys, before, mid ++ more, ?_, hne, ?_, k, List.mem_append_left _ hlast⟩
  · rw [currentRun_grow hmore, hrun, List.append_assoc, List.cons_append]
  · intro k' hk'
    obtain ⟨handler', hmem⟩ := hconfirmed k' hk'
    exact ⟨handler', List.mem_append_left _ hmem⟩

theorem Collecting.receive (h : Collecting log id pending) (handler : Nat) (key : String) :
    Collecting (log ++ [.received handler id key]) id (pending.erase key) := by
  obtain ⟨keys, before, mid, hrun, hne, hconfirmed⟩ := h
  refine ⟨keys, before, mid ++ [.received handler id key], ?_, hne, ?_⟩
  · rw [currentRun_grow (by simp), hrun, List.append_assoc, List.cons_append]
  · intro k hk hnot
    by_cases hkey : k = key
    · rw [hkey]
      exact ⟨handler, List.mem_append_right _ (List.mem_singleton.mpr rfl)⟩
    · have hpending : k ∉ pending := fun hmem => hnot (Finset.mem_erase.mpr ⟨hkey, hmem⟩)
      obtain ⟨handler', hmem⟩ := hconfirmed k hk hpending
      exact ⟨handler', List.mem_append_left _ hmem⟩

theorem Collecting.drained (h : Collecting log id pending) (handler : Nat) {key : String}
    (hempty : pending.erase key = ∅) :
    ConfirmedByAll (log ++ [.received handler id key]) handler id := by
  obtain ⟨keys, before, mid, hrun, hne, hconfirmed⟩ := h
  have hmem : Entry.received handler id key ∈ mid ++ [.received handler id key] :=
    List.mem_append_right _ (List.mem_singleton.mpr rfl)
  refine ⟨keys, before, mid ++ [.received handler id key], ?_, hne, ?_, key, hmem⟩
  · rw [currentRun_grow (by simp), hrun, List.append_assoc, List.cons_append]
  · intro k hk
    by_cases hkey : k = key
    · rw [hkey]
      exact ⟨handler, hmem⟩
    · have hpending : k ∉ pending := by
        intro hin
        have : k ∈ pending.erase key := Finset.mem_erase.mpr ⟨hkey, hin⟩
        rw [hempty] at this
        exact absurd this (Finset.notMem_empty k)
      obtain ⟨handler', hin⟩ := hconfirmed k hk hpending
      exact ⟨handler', List.mem_append_left _ hin⟩

/-! ## The invariant -/

theorem find?_keepNewest {limit : Nat} {pending : SortedMap Nat (Finset String)}
    {keys : Finset String} (h : (keepNewest limit pending).find? id = some keys) :
    pending.find? id = some keys := by
  rw [SortedMap.find?_eq_some_iff] at h ⊢
  exact (List.drop_sublist _ _).subset h

/-- The books of the protocol agree with the log. -/
structure Tracks (s : System) : Prop where
  dir : s.job.hasCheckpointDir = true
  pending : ∀ id keys, s.job.pendingConfirms.find? id = some keys → Collecting s.log id keys
  writes : ∀ w ∈ s.writes, w.redeploys = s.job.redeploys →
    ConfirmedByAll s.log w.handler w.confirmedId
  past : ∀ w ∈ s.writes, w.redeploys ≤ s.job.redeploys
  durable : ∀ w ∈ s.writes, w.durable = true → w.confirmedId ∈ s.markers
  handlers : ∀ handler id k, Entry.received handler id k ∈ s.log → handler < s.handlers
  named : ∀ handler id k id' k', Entry.received handler id k ∈ s.log →
    Entry.received handler id' k' ∈ s.log → id = id' ∧ k = k'
  executed : ∀ msg ∈ s.confirms, Entry.executed msg.checkpointId msg.key ∈ s.log
  confirmed : ∀ handler id k, Entry.received handler id k ∈ s.log → Entry.executed id k ∈ s.log

namespace Tracks

variable {s s' : System}

section

variable (h : Tracks s)
include h

/-- A step that keeps the pending sets and the run, takes no confirmation and
starts no write. -/
theorem frame (more : List Entry) (hlog : s'.log = s.log ++ more)
    (hmore : ∀ e ∈ more, e ≠ .redeployed ∧ ∀ handler id k, e ≠ .received handler id k)
    (hdir : s'.job.hasCheckpointDir = s.job.hasCheckpointDir)
    (hpending : s'.job.pendingConfirms = s.job.pendingConfirms)
    (hredeploys : s'.job.redeploys = s.job.redeploys)
    (hwrites : ∀ w ∈ s'.writes, ∃ w' ∈ s.writes, w.handler = w'.handler ∧
      w.confirmedId = w'.confirmedId ∧ w.redeploys = w'.redeploys ∧
      (w.durable = true → w'.durable = true ∨ w.confirmedId ∈ s'.markers))
    (hmarkers : s.markers ⊆ s'.markers) (hhandlers : s'.handlers = s.handlers)
    (hconfirms : ∀ msg ∈ s'.confirms, msg ∈ s.confirms ∨
      Entry.executed msg.checkpointId msg.key ∈ more) : Tracks s' := by
  have hrun : Entry.redeployed ∉ more := fun hmem => (hmore _ hmem).1 rfl
  have hreceived : ∀ {handler id k}, Entry.received handler id k ∈ s'.log →
      Entry.received handler id k ∈ s.log := by
    intro handler id k hmem
    rw [hlog] at hmem
    rcases List.mem_append.mp hmem with hmem | hmem
    · exact hmem
    · exact absurd rfl ((hmore _ hmem).2 handler id k)
  have hgrew : ∀ {e}, e ∈ s.log → e ∈ s'.log := by
    intro e he
    rw [hlog]
    exact List.mem_append_left _ he
  constructor
  case dir => rw [hdir, h.dir]
  case pending =>
    intro id keys hfind
    rw [hpending] at hfind
    rw [hlog]
    exact (h.pending id keys hfind).grow hrun
  case writes =>
    intro w hw hsame
    obtain ⟨w', hw', hhandler, hid, hred, -⟩ := hwrites w hw
    rw [hlog, hhandler, hid]
    refine (h.writes w' hw' ?_).grow hrun
    rw [← hred, hsame, hredeploys]
  case past =>
    intro w hw
    obtain ⟨w', hw', -, -, hred, -⟩ := hwrites w hw
    rw [hredeploys, hred]
    exact h.past w' hw'
  case durable =>
    intro w hw hdurable
    obtain ⟨w', hw', -, hid, -, hmarked⟩ := hwrites w hw
    rcases hmarked hdurable with hold | hnew
    · rw [hid]
      exact hmarkers (h.durable w' hw' hold)
    · exact hnew
  case handlers =>
    intro handler id k hmem
    rw [hhandlers]
    exact h.handlers handler id k (hreceived hmem)
  case named =>
    intro handler id k id' k' hmem hmem'
    exact h.named handler id k id' k' (hreceived hmem) (hreceived hmem')
  case executed =>
    intro msg hmsg
    rcases hconfirms msg hmsg with hold | hnew
    · exact hgrew (h.executed msg hold)
    · rw [hlog]
      exact List.mem_append_right _ hnew
  case confirmed =>
    intro handler id k hmem
    exact hgrew (h.confirmed handler id k (hreceived hmem))

/-- A step that touches none of the books. -/
theorem same (hlog : s'.log = s.log) (hdir : s'.job.hasCheckpointDir = s.job.hasCheckpointDir)
    (hpending : s'.job.pendingConfirms = s.job.pendingConfirms)
    (hredeploys : s'.job.redeploys = s.job.redeploys) (hwrites : s'.writes ⊆ s.writes)
    (hmarkers : s'.markers = s.markers) (hhandlers : s'.handlers = s.handlers)
    (hconfirms : s'.confirms = s.confirms) : Tracks s' := by
  refine h.frame [] (by simpa using hlog) (by simp) hdir hpending hredeploys ?_
    (by rw [hmarkers]) hhandlers ?_
  · intro w hw
    exact ⟨w, hwrites hw, rfl, rfl, rfl, .inl⟩
  · intro msg hmsg
    rw [hconfirms] at hmsg
    exact .inl hmsg

theorem broadcast (i : Nat) : Tracks (s.broadcast i) := by
  unfold System.broadcast
  cases hdone : s.completing[i]? with
  | none => exact h
  | some done =>
      dsimp only
      by_cases hsend : s.job.broadcasts done = true
      · rw [if_pos hsend]
        have htracked : Tracks
            { s with log := s.log ++ [.tracked done.checkpointId s.job.confirmTaskKeys] } := by
          refine h.frame [.tracked done.checkpointId s.job.confirmTaskKeys] rfl
            (by simp) rfl rfl rfl ?_ (Finset.Subset.refl _) rfl (fun msg hmsg => .inl hmsg)
          intro w hw
          exact ⟨w, hw, rfl, rfl, rfl, .inl⟩
        have hjob : (s.job.track done.checkpointId).hasCheckpointDir = s.job.hasCheckpointDir ∧
            (s.job.track done.checkpointId).redeploys = s.job.redeploys := by
          unfold JobState.track
          split
          · exact ⟨rfl, rfl⟩
          · exact ⟨rfl, rfl⟩
        refine { htracked with dir := ?_, pending := ?_, writes := ?_, past := ?_ }
        · exact hjob.1.trans h.dir
        · intro id keys hfind
          dsimp only at hfind
          unfold JobState.track at hfind
          by_cases hnone : s.job.confirmTaskKeys = ∅
          · rw [if_pos hnone] at hfind
            exact htracked.pending id keys hfind
          · rw [if_neg hnone] at hfind
            have hfind := find?_keepNewest hfind
            rw [SortedMap.find?_upsert] at hfind
            by_cases hid : id = done.checkpointId
            · -- the checkpoint just tracked: nobody has confirmed it yet
              rw [if_pos hid] at hfind
              obtain rfl := Option.some.inj hfind
              refine ⟨s.job.confirmTaskKeys, currentRun s.log, [], ?_, hnone, ?_⟩
              · rw [currentRun_grow (by simp), hid]
              · intro k hk hnot
                exact absurd hk hnot
            · rw [if_neg hid] at hfind
              exact htracked.pending id keys hfind
        · intro w hw hsame
          exact htracked.writes w hw (hsame.trans hjob.2)
        · intro w hw
          exact (htracked.past w hw).trans hjob.2.ge
      · rw [if_neg hsend]
        exact h.same rfl rfl rfl rfl (List.Subset.refl _) rfl rfl rfl

theorem dispatch (checkpointId : Nat) (committers : List (Nat × List CommitCallback)) :
    Tracks (s.dispatch checkpointId committers) := by
  have hentry : ∀ e ∈ (dispatchCommitCheckpoint checkpointId committers).map
      (fun msg => Entry.executed msg.checkpointId msg.key),
      e ≠ .redeployed ∧ ∀ handler id k, e ≠ .received handler id k := by
    intro e he
    obtain ⟨msg, -, rfl⟩ := List.mem_map.mp he
    exact ⟨by simp, by simp⟩
  refine h.frame _ rfl hentry rfl rfl rfl ?_ (Finset.Subset.refl _) rfl ?_
  · intro w hw
    exact ⟨w, hw, rfl, rfl, rfl, .inl⟩
  · intro msg hmsg
    rcases List.mem_append.mp hmsg with hold | hnew
    · exact .inl hold
    · exact .inr (List.mem_map_of_mem hnew)

/-- What the first hold of a confirmation does to the job. -/
theorem receive_spec (msg : CommitConfirmedMsg) (handler : Nat) :
    (s.job.receive msg).1.hasCheckpointDir = true ∧
      (s.job.receive msg).1.redeploys = s.job.redeploys ∧
      (s.job.receive msg).1.latestConfirmedCheckpointId = s.job.latestConfirmedCheckpointId ∧
      (∀ id keys, (s.job.receive msg).1.pendingConfirms.find? id = some keys →
        Collecting (s.log ++ [.received handler msg.checkpointId msg.key]) id keys) ∧
      ∀ id, (s.job.receive msg).2 = some id →
        ConfirmedByAll (s.log ++ [.received handler msg.checkpointId msg.key]) handler id := by
  have hkept : ∀ id keys, s.job.pendingConfirms.find? id = some keys →
      Collecting (s.log ++ [.received handler msg.checkpointId msg.key]) id keys := by
    intro id keys hfind
    exact (h.pending id keys hfind).grow (by simp)
  unfold JobState.receive
  by_cases hpresent : (!s.job.present) = true
  · rw [if_pos hpresent]
    exact ⟨h.dir, rfl, rfl, hkept, by simp⟩
  · rw [if_neg hpresent]
    cases hfind : s.job.pendingConfirms.find? msg.checkpointId with
    | none => exact ⟨h.dir, rfl, rfl, hkept, by simp⟩
    | some pending =>
        have hcollecting := h.pending msg.checkpointId pending hfind
        dsimp only
        by_cases hmore : pending.erase msg.key ≠ ∅
        · rw [if_pos hmore]
          refine ⟨h.dir, rfl, rfl, ?_, by simp⟩
          intro id keys hkeys
          rw [SortedMap.find?_upsert] at hkeys
          by_cases hid : id = msg.checkpointId
          · rw [if_pos hid] at hkeys
            obtain rfl := Option.some.inj hkeys
            rw [hid]
            exact hcollecting.receive handler msg.key
          · rw [if_neg hid] at hkeys
            exact hkept id keys hkeys
        · rw [if_neg hmore, if_pos h.dir]
          refine ⟨h.dir, rfl, rfl, ?_, ?_⟩
          · intro id keys hkeys
            rw [SortedMap.find?_eq_some_iff, SortedMap.mem_above] at hkeys
            exact hkept id keys (SortedMap.find?_eq_some_iff.mpr hkeys.1)
          · intro id hid
            obtain rfl := Option.some.inj hid
            exact hcollecting.drained handler (not_not.mp hmore)

theorem confirm {msg : CommitConfirmedMsg} (hsent : msg ∈ s.confirms) (senderLost : Bool) :
    Tracks (s.confirm msg senderLost) := by
  unfold System.confirm
  by_cases hlost : senderLost = true
  · rw [if_pos hlost]
    exact h
  · rw [if_neg hlost]
    obtain ⟨hdir, hredeploys, -, hpending, hdrained⟩ := h.receive_spec msg s.handlers
    have hnew : ∀ {handler id k}, Entry.received handler id k ∈
        s.log ++ [.received s.handlers msg.checkpointId msg.key] →
        Entry.received handler id k ∈ s.log ∨
          handler = s.handlers ∧ id = msg.checkpointId ∧ k = msg.key := by
      intro handler id k hmem
      rcases List.mem_append.mp hmem with hmem | hmem
      · exact .inl hmem
      · right
        simpa using hmem
    -- a write in flight is one there was, or the one this confirmation starts
    have hwrite : ∀ w ∈ s.writesAfter (s.job.receive msg).2, w ∈ s.writes ∨
        (s.job.receive msg).2 = some w.confirmedId ∧ w.handler = s.handlers ∧
          w.redeploys = s.job.redeploys ∧ w.durable = false := by
      intro w hw
      cases hdue : (s.job.receive msg).2 with
      | none =>
          rw [hdue] at hw
          exact .inl hw
      | some id =>
          rw [hdue] at hw
          rcases List.mem_append.mp hw with hw | hw
          · exact .inl hw
          · obtain rfl := List.mem_singleton.mp hw
            exact .inr ⟨rfl, rfl, rfl, rfl⟩
    constructor
    case dir => exact hdir
    case pending => exact hpending
    case writes =>
      intro w hw hsame
      rcases hwrite w hw with hold | ⟨hdue, hhandler, -, -⟩
      · exact (h.writes w hold (hsame.trans hredeploys)).grow (by simp)
      · rw [hhandler]
        exact hdrained w.confirmedId hdue
    case past =>
      intro w hw
      rcases hwrite w hw with hold | ⟨-, -, hrun, -⟩
      · exact (h.past w hold).trans hredeploys.ge
      · exact hrun.le.trans hredeploys.ge
    case durable =>
      intro w hw hdurable
      rcases hwrite w hw with hold | ⟨-, -, -, hnot⟩
      · exact h.durable w hold hdurable
      · rw [hnot] at hdurable
        exact absurd hdurable (by decide)
    case handlers =>
      intro handler id k hmem
      rcases hnew hmem with hold | ⟨rfl, -, -⟩
      · exact Nat.lt_succ_of_lt (h.handlers handler id k hold)
      · exact Nat.lt_succ_self _
    case named =>
      intro handler id k id' k' hmem hmem'
      rcases hnew hmem with hold | ⟨hhandler, rfl, rfl⟩
      · rcases hnew hmem' with hold' | ⟨hhandler', -, -⟩
        · exact h.named handler id k id' k' hold hold'
        · exact absurd hhandler' (h.handlers handler id k hold).ne
      · rcases hnew hmem' with hold' | ⟨-, rfl, rfl⟩
        · exact absurd hhandler (h.handlers handler id' k' hold').ne
        · exact ⟨rfl, rfl⟩
    case executed =>
      intro m hm
      exact List.mem_append_left _ (h.executed m hm)
    case confirmed =>
      intro handler id k hmem
      refine List.mem_append_left _ ?_
      rcases hnew hmem with hold | ⟨-, rfl, rfl⟩
      · exact h.confirmed handler id k hold
      · exact h.executed msg hsent

theorem confirmedMarker (i : Nat) (outcome : PutOutcome) :
    Tracks (s.confirmedMarker i outcome) := by
  unfold System.confirmedMarker
  cases hwrite : s.writes[i]? with
  | none => exact h
  | some write =>
      have hmem : write ∈ s.writes := List.mem_of_getElem? hwrite
      have hsub : s.writes.eraseIdx i ⊆ s.writes := (List.eraseIdx_sublist _ _).subset
      have hgrows : s.markers ⊆ insert write.confirmedId s.markers := Finset.subset_insert _ _
      cases outcome with
      | succeeded =>
          refine h.frame [.durable write.confirmedId] rfl (by simp) rfl rfl rfl ?_ hgrows rfl
            (fun msg hmsg => .inl hmsg)
          intro w hw
          rcases List.mem_or_eq_of_mem_set hw with hold | rfl
          · exact ⟨w, hold, rfl, rfl, rfl, .inl⟩
          · exact ⟨write, hmem, rfl, rfl, rfl, fun _ => .inr (Finset.mem_insert_self _ _)⟩
      | threw landed =>
          cases landed with
          | false => exact h.same rfl rfl rfl rfl hsub rfl rfl rfl
          | true =>
              refine h.frame [.durable write.confirmedId] rfl (by simp) rfl rfl rfl ?_ hgrows rfl
                (fun msg hmsg => .inl hmsg)
              intro w hw
              exact ⟨w, hsub hw, rfl, rfl, rfl, .inl⟩

theorem advance (i : Nat) : Tracks (s.advance i) := by
  unfold System.advance
  cases hwrite : s.writes[i]? with
  | none => exact h
  | some write =>
      have hsub : s.writes.eraseIdx i ⊆ s.writes := (List.eraseIdx_sublist _ _).subset
      dsimp only
      by_cases hadv : s.job.advances write = true
      · rw [if_pos hadv]
        refine h.frame [.advanced write.handler write.confirmedId] rfl (by simp) rfl rfl rfl ?_
          (Finset.Subset.refl _) rfl (fun msg hmsg => .inl hmsg)
        intro w hw
        exact ⟨w, hsub hw, rfl, rfl, rfl, .inl⟩
      · rw [if_neg hadv]
        exact h.same rfl rfl rfl rfl hsub rfl rfl rfl

theorem resolve (resolved : Nat) : Tracks (s.resolve resolved) := by
  unfold System.resolve
  by_cases hlt : s.job.latestConfirmedCheckpointId < resolved
  · rw [if_pos hlt]
    refine h.frame [.resolved resolved] rfl (by simp) rfl rfl rfl ?_ (Finset.Subset.refl _) rfl
      (fun msg hmsg => .inl hmsg)
    intro w hw
    exact ⟨w, hw, rfl, rfl, rfl, .inl⟩
  · rw [if_neg hlt]
    exact h

/-- A redeploy forgets every pending set and puts every write in flight behind. -/
theorem redeploy : Tracks { s with job := s.job.redeploy, log := s.log ++ [.redeployed] } := by
  have hreceived : ∀ {handler id k}, Entry.received handler id k ∈ s.log ++ [.redeployed] →
      Entry.received handler id k ∈ s.log := by
    intro handler id k hmem
    simpa using hmem
  constructor
  case dir => exact h.dir
  case pending =>
    intro id keys hfind
    rw [JobState.redeploy, SortedMap.find?_empty] at hfind
    exact absurd hfind (by simp)
  case writes =>
    intro w hw hsame
    have hpast : w.redeploys ≤ s.job.redeploys := h.past w hw
    rw [hsame] at hpast
    exact absurd hpast (Nat.not_succ_le_self _)
  case past =>
    intro w hw
    exact Nat.le_succ_of_le (h.past w hw)
  case durable => exact h.durable
  case handlers =>
    intro handler id k hmem
    exact h.handlers handler id k (hreceived hmem)
  case named =>
    intro handler id k id' k' hmem hmem'
    exact h.named handler id k id' k' (hreceived hmem) (hreceived hmem')
  case executed =>
    intro msg hmsg
    exact List.mem_append_left _ (h.executed msg hmsg)
  case confirmed =>
    intro handler id k hmem
    exact List.mem_append_left _ (h.confirmed handler id k (hreceived hmem))

theorem step {es : List Event} {e : Event} (hok : System.delivered es s e) : Tracks (s.step e) := by
  have hidle : ∀ {s' : System}, s'.log = s.log →
      s'.job.hasCheckpointDir = s.job.hasCheckpointDir →
      s'.job.pendingConfirms = s.job.pendingConfirms →
      s'.job.redeploys = s.job.redeploys → s'.writes = s.writes → s'.markers = s.markers →
      s'.handlers = s.handlers → s'.confirms = s.confirms → Tracks s' := by
    intro s' hlog hdir hpending hredeploys hwrites hmarkers hhandlers hconfirms
    refine h.same hlog hdir hpending hredeploys ?_ hmarkers hhandlers hconfirms
    rw [hwrites]
    exact List.Subset.refl _
  cases e with
  | completes checkpointId => exact hidle rfl rfl rfl rfl rfl rfl rfl rfl
  | completedMarker i ok =>
      simp only [System.step]
      split
      · exact h
      · split
        · exact hidle rfl rfl rfl rfl rfl rfl rfl rfl
        · exact hidle rfl rfl rfl rfl rfl rfl rfl rfl
  | broadcast i => exact h.broadcast i
  | dispatch checkpointId committers => exact h.dispatch checkpointId committers
  | confirm msg senderLost => exact h.confirm hok senderLost
  | confirmedMarker i outcome => exact h.confirmedMarker i outcome
  | advance i => exact h.advance i
  | initiateRestart => exact hidle rfl rfl rfl rfl rfl rfl rfl rfl
  | cancel => exact hidle rfl rfl rfl rfl rfl rfl rfl rfl
  | replan keys => exact hidle rfl rfl rfl rfl rfl rfl rfl rfl
  | redeploy => exact h.redeploy
  | resolve resolved => exact h.resolve resolved
  | evict => exact hidle rfl rfl rfl rfl rfl rfl rfl rfl

end

end Tracks

/-- The books agree with the log along every run of a job with a directory. -/
theorem tracks_of_runs {keys : Finset String} {seed : Nat} {markers : Finset Nat}
    {es : List Event} {s : System}
    (h : Runs System.step System.delivered (System.start true keys seed markers) es s) :
    Tracks s := by
  refine h.induct (I := fun _ s => Tracks s) ?_ ?_
  · constructor <;> simp [System.start, SortedMap.find?_empty]
  · intro es s e _ hs hok
    exact hs.step hok

/-! ## What moves the confirmed restore point -/

/-- A handler's second hold that advances. -/
structure AdvancesAt (s : System) (e : Event) (write : ConfirmedWrite) : Prop where
  isAdvance : ∃ i, e = .advance i
  inFlight : write ∈ s.writes
  advances : s.job.advances write = true
  job : (s.step e).job = s.job.advance write.confirmedId
  log : (s.step e).log = s.log ++ [.advanced write.handler write.confirmedId]

theorem AdvancesAt.confirmed {s : System} {e : Event} {write : ConfirmedWrite}
    (h : AdvancesAt s e write) (hs : Tracks s) :
    ConfirmedByAll s.log write.handler write.confirmedId ∧ write.confirmedId ∈ s.markers := by
  have hadv := h.advances
  simp only [JobState.advances, Bool.and_eq_true, beq_iff_eq] at hadv
  exact ⟨hs.writes write h.inFlight hadv.2.symm, hs.durable write h.inFlight hadv.1.1⟩

theorem receive_latest {job : JobState} (hdir : job.hasCheckpointDir = true)
    (msg : CommitConfirmedMsg) :
    (job.receive msg).1.latestConfirmedCheckpointId = job.latestConfirmedCheckpointId := by
  unfold JobState.receive
  split
  · rfl
  · split
    · rfl
    · split
      · rfl
      · rw [if_pos hdir]

/-- A step leaves the confirmed restore point and logs no advance, or is the
walk's answer, or a second hold that advances. -/
theorem step_cases {s : System} (hs : Tracks s) (e : Event) :
    ((s.step e).job.latestConfirmedCheckpointId = s.job.latestConfirmedCheckpointId ∧
        ∀ handler id, (s.step e).log ≠ s.log ++ [.advanced handler id]) ∨
      (∃ resolved, e = .resolve resolved ∧
        s.job.latestConfirmedCheckpointId < (s.step e).job.latestConfirmedCheckpointId ∧
        ∀ handler id, (s.step e).log ≠ s.log ++ [.advanced handler id]) ∨
      ∃ write, AdvancesAt s e write := by
  have hquiet : ∀ (handler id : Nat), s.log ≠ s.log ++ [.advanced handler id] := by
    intro handler id heq
    simpa using congrArg List.length heq
  cases e with
  | completes checkpointId => exact .inl ⟨rfl, hquiet⟩
  | completedMarker i ok =>
      left
      simp only [System.step]
      split
      · exact ⟨rfl, hquiet⟩
      · split
        · exact ⟨rfl, hquiet⟩
        · exact ⟨rfl, hquiet⟩
  | broadcast i =>
      left
      simp only [System.step, System.broadcast]
      split
      · exact ⟨rfl, hquiet⟩
      · split
        · refine ⟨?_, by simp⟩
          unfold JobState.track
          split
          · rfl
          · rfl
        · exact ⟨rfl, hquiet⟩
  | dispatch checkpointId committers =>
      left
      refine ⟨rfl, ?_⟩
      intro handler id heq
      have hmem : Entry.advanced handler id ∈
          (dispatchCommitCheckpoint checkpointId committers).map
            fun msg => Entry.executed msg.checkpointId msg.key := by
        rw [List.append_cancel_left heq]
        exact List.mem_singleton.mpr rfl
      simp at hmem
  | confirm msg senderLost =>
      left
      simp only [System.step, System.confirm]
      split
      · exact ⟨rfl, hquiet⟩
      · exact ⟨receive_latest hs.dir msg, by simp⟩
  | confirmedMarker i outcome =>
      left
      simp only [System.step, System.confirmedMarker]
      split
      · exact ⟨rfl, hquiet⟩
      · cases outcome with
        | succeeded => exact ⟨rfl, by simp⟩
        | threw landed =>
            cases landed with
            | false => exact ⟨rfl, hquiet⟩
            | true => exact ⟨rfl, by simp⟩
  | advance i =>
      cases hwrite : s.writes[i]? with
      | none =>
          left
          simp only [System.step, System.advance, hwrite]
          exact ⟨trivial, hquiet⟩
      | some write =>
          by_cases hadv : s.job.advances write = true
          · refine .inr (.inr ⟨write, ⟨i, rfl⟩, List.mem_of_getElem? hwrite, hadv, ?_, ?_⟩)
            · simp only [System.step, System.advance, hwrite, if_pos hadv]
            · simp only [System.step, System.advance, hwrite, if_pos hadv]
          · left
            simp only [System.step, System.advance, hwrite, if_neg hadv]
            exact ⟨trivial, hquiet⟩
  | initiateRestart => exact .inl ⟨rfl, hquiet⟩
  | cancel => exact .inl ⟨rfl, hquiet⟩
  | replan keys => exact .inl ⟨rfl, hquiet⟩
  | redeploy => exact .inl ⟨rfl, by simp [System.step]⟩
  | resolve resolved =>
      simp only [System.step, System.resolve]
      by_cases hlt : s.job.latestConfirmedCheckpointId < resolved
      · rw [if_pos hlt]
        exact .inr (.inl ⟨resolved, rfl, hlt, by simp⟩)
      · rw [if_neg hlt]
        exact .inl ⟨rfl, hquiet⟩
  | evict => exact .inl ⟨rfl, hquiet⟩

/-- The confirmed restore point is sound.  A step never lowers it.  Where a step
other than the in-doubt walk's answer moves it, it is the second hold of a
handler, it moves to a checkpoint that every task tracked for it has confirmed
in the current run, and that checkpoint's marker is durable.  The handler of a
confirmation received before the last redeploy does not advance it. -/
theorem confirmed_restore_point_sound {keys : Finset String} {seed : Nat} {markers : Finset Nat}
    {es : List Event} {s : System} {e : Event}
    (h : Runs System.step System.delivered (System.start true keys seed markers) es s) :
    s.job.latestConfirmedCheckpointId ≤ (s.step e).job.latestConfirmedCheckpointId ∧
      ((∀ resolved, e ≠ .resolve resolved) →
        (s.step e).job.latestConfirmedCheckpointId ≠ s.job.latestConfirmedCheckpointId →
        ∃ handler, (s.step e).log =
            s.log ++ [.advanced handler (s.step e).job.latestConfirmedCheckpointId] ∧
          ConfirmedByAll s.log handler (s.step e).job.latestConfirmedCheckpointId ∧
          (s.step e).job.latestConfirmedCheckpointId ∈ s.markers) ∧
      ∀ handler id k, Entry.received handler id k ∈ s.log →
        Entry.received handler id k ∉ currentRun s.log →
        ∀ id', (s.step e).log ≠ s.log ++ [.advanced handler id'] := by
  have hs := tracks_of_runs h
  rcases step_cases hs e with ⟨hsame, hquiet⟩ | ⟨resolved, he, hlt, hquiet⟩ | ⟨write, hadv⟩
  · exact ⟨hsame.ge, fun _ hne => absurd hsame hne, fun handler _ _ _ _ id' => hquiet handler id'⟩
  · exact ⟨hlt.le, fun hne => absurd he (hne resolved),
      fun handler _ _ _ _ id' => hquiet handler id'⟩
  · obtain ⟨hall, hmarker⟩ := hadv.confirmed hs
    have hlatest : (s.step e).job.latestConfirmedCheckpointId =
        max s.job.latestConfirmedCheckpointId write.confirmedId := by
      rw [hadv.job]
      rfl
    refine ⟨by rw [hlatest]; exact le_max_left _ _, ?_, ?_⟩
    · intro _ hmoved
      have heq : (s.step e).job.latestConfirmedCheckpointId = write.confirmedId := by
        rw [hlatest] at hmoved ⊢
        rcases max_choice s.job.latestConfirmedCheckpointId write.confirmedId with hmax | hmax
        · exact absurd hmax hmoved
        · exact hmax
      rw [heq]
      exact ⟨write.handler, hadv.log, hall, hmarker⟩
    · intro handler id k hreceived hpast id' hlog
      -- the advancing handler's own confirmation lies in the current run
      rw [hadv.log] at hlog
      have hlast := List.append_cancel_left hlog
      simp only [List.cons.injEq, Entry.advanced.injEq, and_true] at hlast
      obtain ⟨_, before, mid, hrun, -, -, k', hmem⟩ := hall
      have hcurrent : Entry.received write.handler write.confirmedId k' ∈ currentRun s.log := by
        rw [hrun]
        exact List.mem_append_right _ (List.mem_cons_of_mem _ hmem)
      rw [hlast.1] at hcurrent
      obtain ⟨hid, hk⟩ := hs.named handler id k _ _ hreceived (mem_of_mem_currentRun hcurrent)
      rw [← hid, ← hk] at hcurrent
      exact hpast hcurrent

/-- Checkpoint 5 of a job with one tracked task, up to the durable marker. -/
def confirmFive : List Event :=
  [.completes 5, .completedMarker 0 true, .broadcast 0,
    .dispatch 5 [(0, [{ dead := false, outcome := .executed }])],
    .confirm { checkpointId := 5, role := genericSubtaskRole, subtaskIdx := 0 } false,
    .confirmedMarker 0 .succeeded]

theorem confirmed_five :
    (((confirmFive.foldl System.step
        (System.start true {"__clink_subtask:0"} 3 {3})).step
          (.advance 0)).job.latestConfirmedCheckpointId = 5) ∧
      ∃ handler, ConfirmedByAll
        (confirmFive.foldl System.step (System.start true {"__clink_subtask:0"} 3 {3})).log
        handler 5 := by
  have hallowed : Runs.Allowed System.step System.delivered []
      (System.start true {"__clink_subtask:0"} 3 {3}) confirmFive := by
    refine ⟨trivial, trivial, trivial, ?_, ?_, trivial, trivial⟩
    · exact List.mem_singleton.mpr rfl
    · exact List.mem_singleton.mpr rfl
  have hfive : ((confirmFive.foldl System.step
      (System.start true {"__clink_subtask:0"} 3 {3})).step
        (.advance 0)).job.latestConfirmedCheckpointId = 5 := by
    decide
  obtain ⟨-, hmoved, -⟩ :=
    confirmed_restore_point_sound (e := .advance 0) (Runs.of_allowed hallowed)
  obtain ⟨handler, -, hall, -⟩ := hmoved (by simp) (by rw [hfive]; decide)
  rw [hfive] at hall
  exact ⟨hfive, handler, hall⟩

end Clink.Ports.CommitConfirmation

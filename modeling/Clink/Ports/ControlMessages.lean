import Clink.Verified.VersionedRecords

/-!
# Control messages on the wire

`messages.hpp` writes the body of a control message with `encode_body` and reads it
with a `decode_` function, two lists of fields written by hand.  Fields were added at
the end over time.  A decoder checks `eof` at the first field of an addition and leaves
the fields of the addition at their defaults where an older sender's body ends, so
`puts` below is the list of `encode_body` and `reads` that of the decoder, `ifMore`
being a field read after such a check.  The deployment's tasks are sent as a list and,
for the fields that tasks got later, as columns behind it.

Every body is read back, with no byte left, and a body cut where an addition begins is
read with the fields before the cut and the defaults after it.  A decoder asks for no
more memory than a fixed multiple of the body, whatever the bytes are.
-/

namespace Clink.Ports.ControlMessages

open Clink.Verified.Wire

/-! ## Fields -/

def u8 (name : String) : Part := .field name (.word 1)

def u16 (name : String) : Part := .field name (.word 2)

def u32 (name : String) : Part := .field name (.word 4)

/-- An unsigned integer, or the cast of a signed one. -/
def u64 (name : String) : Part := .field name (.word 8)

def flag (name : String) : Part := .field name .flag

def text (name : String) : Part := .field name (.text 0)

def list (name : String) (element : Layout) : Part := .field name (.list element)

/-- Read with no check of `eof`, after the field before it. -/
def next (p : Part) : Field := ⟨p, false, p.zero⟩

/-- Read after a check of `eof`, which leaves it default-constructed. -/
def ifMore (p : Part) : Field := ⟨p, true, p.zero⟩

/-- Read after a check of `eof`, which leaves it at `d`. -/
def ifMoreOr (p : Part) (d : p.Default) : Field := ⟨p, true, d⟩

abbrev Message := Record 4

/-! ## Registration -/

def kMaxRegisterStringBytes : Nat := 255

/-- The decoder refuses an id or a host that is too long once it has read both. -/
def register : Message where
  name := "Register"
  puts := [.limited "worker_id" "data_host" kMaxRegisterStringBytes, u32 "slot_count",
    u16 "http_port", u32 "protocol_version", u32 "min_compatible_protocol_version"]
  reads := [next (.limited "worker_id" "data_host" kMaxRegisterStringBytes),
    ifMoreOr (u32 "slot_count") (1 : BitVec 32), ifMore (u16 "http_port"),
    ifMore (u32 "protocol_version"), ifMore (u32 "min_compatible_protocol_version")]
  agree := rfl
  proper := rfl

def registerAck : Message where
  name := "RegisterAck"
  puts := [flag "ok", text "message", u64 "coordinator_epoch", u32 "protocol_version",
    u32 "min_compatible_protocol_version", flag "retryable"]
  reads := [next (flag "ok"), next (text "message"), ifMore (u64 "coordinator_epoch"),
    ifMore (u32 "protocol_version"), ifMore (u32 "min_compatible_protocol_version"),
    ifMore (flag "retryable")]
  agree := rfl
  proper := rfl

def helloClient : Message where
  name := "HelloClient"
  puts := [u32 "protocol_version", u32 "min_compatible_protocol_version"]
  reads := [ifMore (u32 "protocol_version"), ifMore (u32 "min_compatible_protocol_version")]
  agree := rfl
  proper := rfl

def heartbeat : Message where
  name := "Heartbeat"
  puts := [text "worker_id", u64 "sequence"]
  reads := [next (text "worker_id"), ifMore (u64 "sequence")]
  agree := rfl
  proper := rfl

def heartbeatAck : Message where
  name := "HeartbeatAck"
  puts := [text "worker_id", u64 "sequence", u64 "coordinator_epoch"]
  reads := [next (text "worker_id"), next (u64 "sequence"), ifMore (u64 "coordinator_epoch")]
  agree := rfl
  proper := rfl

/-! ## Deployment -/

/-- No override of the subtask that a task restores from. -/
def kRestoreFromSelf : BitVec 32 := BitVec.ofNat 32 (2 ^ 32 - 1)

def peerAddress : Layout :=
  .row [("role", .text 0), ("subtask_idx", .word 4), ("host", .text 0), ("data_port", .word 2)]

/-- The blob is read as a string and copied into the vector of bytes. -/
def pluginBinary : Layout :=
  .row [("name", .text 0), ("content_hash", .text 0), ("bytes", .text 1)]

/-- The fields of a task that stand in the list of tasks. -/
def deploymentTask : Layout :=
  .row [("role", .text 0), ("subtask_idx", .word 4), ("data_port", .word 2),
    ("peers", .list peerAddress), ("extra_config", .text 0)]

/-- The columns that tasks got later. -/
def rescaleDirective : Layout :=
  .row [("restore_from_subtask_idx", .word 4), ("key_group_first", .word 2),
    ("key_group_last", .word 2)]

def parentCount : Layout := .row [("restore_from_parent_count", .word 4)]

def succession : Layout := .row [("succeeds_first", .word 4), ("succeeds_count", .word 4)]

def deploy : Message where
  name := "Deploy"
  puts := [u64 "job_id", .items "tasks" deploymentTask, list "plugins" pluginBinary,
    text "checkpoint_dir", text "restore_from_dir", u64 "restore_from_checkpoint_id",
    .each rescaleDirective, .each parentCount, flag "unaligned_checkpoints",
    text "expected_state_versions_packed", text "state_backend_uri", text "capture_dir",
    u64 "capture_records", text "udfs_packed", u32 "generation", u32 "restore_generation",
    flag "adaptive_barrier_mode", u64 "coordinator_epoch", .each succession,
    .field "run_checkpoint_floor" (.optional 8)]
  reads := [next (u64 "job_id"), next (.items "tasks" deploymentTask),
    ifMore (list "plugins" pluginBinary),
    ifMore (text "checkpoint_dir"), next (text "restore_from_dir"),
    next (u64 "restore_from_checkpoint_id"),
    ifMoreOr (.each rescaleDirective)
      ((kRestoreFromSelf, 0, 0, ()) : BitVec 32 × BitVec 16 × BitVec 16 × Unit),
    ifMoreOr (.each parentCount) ((1, ()) : BitVec 32 × Unit),
    ifMore (flag "unaligned_checkpoints"), ifMore (text "expected_state_versions_packed"),
    ifMore (text "state_backend_uri"), ifMore (text "capture_dir"),
    ifMore (u64 "capture_records"), ifMore (text "udfs_packed"),
    ifMoreOr (u32 "generation") (1 : BitVec 32),
    ifMoreOr (u32 "restore_generation") (1 : BitVec 32),
    ifMore (flag "adaptive_barrier_mode"), ifMore (u64 "coordinator_epoch"),
    ifMoreOr (.each succession) ((kRestoreFromSelf, 1, ()) : BitVec 32 × BitVec 32 × Unit),
    ifMore (.field "run_checkpoint_floor" (.optional 8))]
  agree := rfl
  proper := rfl

/-- The tasks of an update and the peers of each. -/
def taskPeers (role subtask_idx : String) : Layout :=
  .row [(role, .text 0), (subtask_idx, .word 4), ("peers", .list peerAddress)]

def peerUpdate : Message where
  name := "PeerUpdate"
  puts := [u64 "job_id", list "tasks" (taskPeers "role" "subtask_idx"), u64 "coordinator_epoch"]
  reads := [next (u64 "job_id"), next (list "tasks" (taskPeers "role" "subtask_idx")),
    ifMore (u64 "coordinator_epoch")]
  agree := rfl
  proper := rfl

def subtaskListening : Message where
  name := "SubtaskListening"
  puts := [u64 "job_id", text "worker_id", text "role", u32 "subtask_idx", text "host",
    list "edge_ports" (.row [("upstream_role", .text 0), ("upstream_subtask_idx", .word 4),
      ("port", .word 2)])]
  reads := [next (u64 "job_id"), next (text "worker_id"), next (text "role"),
    next (u32 "subtask_idx"), next (text "host"),
    next (list "edge_ports" (.row [("upstream_role", .text 0), ("upstream_subtask_idx", .word 4),
      ("port", .word 2)]))]
  agree := rfl
  proper := rfl

def startJob : Message where
  name := "StartJob"
  puts := [u64 "job_id"]
  reads := [ifMore (u64 "job_id")]
  agree := rfl
  proper := rfl

def subtaskFinished : Message where
  name := "SubtaskFinished"
  puts := [u64 "job_id", text "worker_id", text "role", u32 "subtask_idx", flag "had_error",
    text "error_message", flag "fatal", flag "transport_only"]
  reads := [next (u64 "job_id"), next (text "worker_id"), next (text "role"),
    next (u32 "subtask_idx"), next (flag "had_error"), next (text "error_message"),
    ifMore (flag "fatal"), ifMore (flag "transport_only")]
  agree := rfl
  proper := rfl

/-! ## Jobs and their clients -/

/-- Self-heal where checkpoints are taken, which an explicit 0 turns off. -/
def kRestartAuto : BitVec 32 := BitVec.ofNat 32 (2 ^ 32 - 1)

def pluginAbiAdvert : Layout :=
  .row [("content_hash", .text 0), ("abi_fingerprint", .text 0), ("abi_hash", .text 0),
    ("abi_version", .word 4), ("target_triple", .text 0), ("toolchain", .text 0)]

/-- The last fields of the checkpoint configuration are in-process only. -/
def submitJob : Message where
  name := "SubmitJob"
  puts := [text "graph_json", list "plugins" pluginBinary, text "checkpoint.checkpoint_dir",
    u64 "checkpoint.interval_ms", text "checkpoint.restore_from_dir",
    u64 "checkpoint.restore_from_checkpoint_id", u32 "checkpoint.max_restarts_on_worker_loss",
    .field "checkpoint.alignment" (.choice 2), text "checkpoint.state_backend_uri",
    text "checkpoint.capture_dir", u64 "checkpoint.capture_records",
    list "plugin_abi_adverts" pluginAbiAdvert, .unwritten "checkpoint.track_runs" .flag,
    .unwritten "checkpoint.start_fresh" .flag, .unwritten "checkpoint.taken_over" .flag,
    .unwritten "checkpoint.resumed_completed" (.word 8),
    .unwritten "checkpoint.run_checkpoint_floor" (.optional 8)]
  reads := [next (text "graph_json"), ifMore (list "plugins" pluginBinary),
    ifMore (text "checkpoint.checkpoint_dir"), next (u64 "checkpoint.interval_ms"),
    next (text "checkpoint.restore_from_dir"), next (u64 "checkpoint.restore_from_checkpoint_id"),
    ifMoreOr (u32 "checkpoint.max_restarts_on_worker_loss") kRestartAuto,
    ifMore (.field "checkpoint.alignment" (.choice 2)),
    ifMore (text "checkpoint.state_backend_uri"), ifMore (text "checkpoint.capture_dir"),
    ifMore (u64 "checkpoint.capture_records"), ifMore (list "plugin_abi_adverts" pluginAbiAdvert),
    next (.unwritten "checkpoint.track_runs" .flag),
    next (.unwritten "checkpoint.start_fresh" .flag),
    next (.unwritten "checkpoint.taken_over" .flag),
    next (.unwritten "checkpoint.resumed_completed" (.word 8)),
    next (.unwritten "checkpoint.run_checkpoint_floor" (.optional 8))]
  agree := rfl
  proper := rfl

def submitJobAck : Message where
  name := "SubmitJobAck"
  puts := [u64 "job_id", flag "ok", text "message", list "missing_plugin_hashes" (.text 0),
    text "cluster_abi_fingerprint", text "cluster_target_triple", text "cluster_toolchain",
    text "cluster_abi_manifest"]
  reads := [next (u64 "job_id"), next (flag "ok"), next (text "message"),
    ifMore (list "missing_plugin_hashes" (.text 0)), ifMore (text "cluster_abi_fingerprint"),
    ifMore (text "cluster_target_triple"), ifMore (text "cluster_toolchain"),
    ifMore (text "cluster_abi_manifest")]
  agree := rfl
  proper := rfl

def jobCompleted : Message where
  name := "JobCompleted"
  puts := [u64 "job_id", flag "ok", list "errors" (.text 0)]
  reads := [next (u64 "job_id"), next (flag "ok"), next (list "errors" (.text 0))]
  agree := rfl
  proper := rfl

def cancelJob : Message where
  name := "CancelJob"
  puts := [u64 "job_id", u64 "coordinator_epoch"]
  reads := [ifMore (u64 "job_id"), ifMore (u64 "coordinator_epoch")]
  agree := rfl
  proper := rfl

def cancelJobAck : Message where
  name := "CancelJobAck"
  puts := [u64 "job_id", flag "ok", text "message"]
  reads := [ifMore (u64 "job_id"), next (flag "ok"), next (text "message")]
  agree := rfl
  proper := rfl

def stopJob : Message where
  name := "StopJob"
  puts := [u64 "job_id", u64 "timeout_ms"]
  reads := [next (u64 "job_id"), ifMore (u64 "timeout_ms")]
  agree := rfl
  proper := rfl

def stopSubtasks : Message where
  name := "StopSubtasks"
  puts := [u64 "job_id", u64 "coordinator_epoch"]
  reads := [next (u64 "job_id"), ifMore (u64 "coordinator_epoch")]
  agree := rfl
  proper := rfl

def stopJobAck : Message where
  name := "StopJobAck"
  puts := [u64 "job_id", flag "ok", u64 "savepoint_checkpoint_id", text "message"]
  reads := [next (u64 "job_id"), next (flag "ok"), ifMore (u64 "savepoint_checkpoint_id"),
    ifMore (text "message")]
  agree := rfl
  proper := rfl

def jobInfo : Layout :=
  .row [("job_id", .word 8), ("total_subtasks", .word 4), ("completed_subtasks", .word 4),
    ("completion_signalled", .flag)]

/-- The terminal status of each job stands behind the jobs, `Running` where it is not sent. -/
def listJobsAck : Message where
  name := "ListJobsAck"
  puts := [.items "jobs" jobInfo, .tailEach "terminal_status" 3]
  reads := [next (.items "jobs" jobInfo), ifMore (.tailEach "terminal_status" 3)]
  agree := rfl
  proper := rfl

/-! ## Rescaling -/

def rescaleJob : Message where
  name := "RescaleJob"
  puts := [u64 "job_id",
    list "role_parallelism" (.row [("role", .text 0), ("parallelism", .word 4)])]
  reads := [next (u64 "job_id"),
    next (list "role_parallelism" (.row [("role", .text 0), ("parallelism", .word 4)]))]
  agree := rfl
  proper := rfl

def rescaleJobAck : Message where
  name := "RescaleJobAck"
  puts := [u64 "job_id", flag "ok", text "message"]
  reads := [next (u64 "job_id"), next (flag "ok"), next (text "message")]
  agree := rfl
  proper := rfl

def rescaleOperator : Message where
  name := "RescaleOperator"
  puts := [u64 "job_id", text "op_id", u32 "new_parallelism"]
  reads := [next (u64 "job_id"), next (text "op_id"), next (u32 "new_parallelism")]
  agree := rfl
  proper := rfl

def rescaleOperatorAck : Message where
  name := "RescaleOperatorAck"
  puts := [u64 "job_id", flag "ok", u32 "accepted_target", text "message"]
  reads := [next (u64 "job_id"), next (flag "ok"), next (u32 "accepted_target"),
    next (text "message")]
  agree := rfl
  proper := rfl

def beginRescale : Message where
  name := "BeginRescale"
  puts := [u64 "job_id", text "op_id", u32 "target_parallelism", u64 "cutover_checkpoint",
    u64 "coordinator_epoch"]
  reads := [next (u64 "job_id"), next (text "op_id"), next (u32 "target_parallelism"),
    next (u64 "cutover_checkpoint"), ifMore (u64 "coordinator_epoch")]
  agree := rfl
  proper := rfl

def beginRescaleAck : Message where
  name := "BeginRescaleAck"
  puts := [u64 "job_id", text "op_id", text "worker_id", u32 "armed_callbacks", u32 "armed_groups",
    u32 "rebind_tasks", u64 "coordinator_epoch"]
  reads := [next (u64 "job_id"), next (text "op_id"), next (text "worker_id"),
    next (u32 "armed_callbacks"), next (u32 "armed_groups"), next (u32 "rebind_tasks"),
    ifMore (u64 "coordinator_epoch")]
  agree := rfl
  proper := rfl

def cutoverRebind : Message where
  name := "CutoverRebind"
  puts := [u64 "job_id", text "op_id", text "upstream_role", list "new_subtask_indices" (.word 4),
    u64 "coordinator_epoch"]
  reads := [next (u64 "job_id"), next (text "op_id"), next (text "upstream_role"),
    next (list "new_subtask_indices" (.word 4)), ifMore (u64 "coordinator_epoch")]
  agree := rfl
  proper := rfl

def cutoverPeerUpdate : Message where
  name := "CutoverPeerUpdate"
  puts := [u64 "job_id", text "op_id", list "tasks" (taskPeers "task_role" "task_subtask_idx"),
    u64 "coordinator_epoch"]
  reads := [next (u64 "job_id"), next (text "op_id"),
    next (list "tasks" (taskPeers "task_role" "task_subtask_idx")),
    ifMore (u64 "coordinator_epoch")]
  agree := rfl
  proper := rfl

/-! ## Checkpoints -/

def savepoint : Message where
  name := "Savepoint"
  puts := [u64 "job_id", u64 "timeout_ms"]
  reads := [next (u64 "job_id"), next (u64 "timeout_ms")]
  agree := rfl
  proper := rfl

def savepointAck : Message where
  name := "SavepointAck"
  puts := [u64 "job_id", flag "ok", u64 "checkpoint_id", text "checkpoint_dir", text "message"]
  reads := [next (u64 "job_id"), next (flag "ok"), next (u64 "checkpoint_id"),
    next (text "checkpoint_dir"), next (text "message")]
  agree := rfl
  proper := rfl

def triggerCheckpoint : Message where
  name := "TriggerCheckpoint"
  puts := [u64 "job_id", u64 "checkpoint_id", u64 "coordinator_epoch", u64 "generation",
    u8 "barrier_mode_plus1"]
  reads := [next (u64 "job_id"), next (u64 "checkpoint_id"), ifMore (u64 "coordinator_epoch"),
    ifMore (u64 "generation"), ifMore (u8 "barrier_mode_plus1")]
  agree := rfl
  proper := rfl

/-- The pinned ids are read until their count or the end of the body. -/
def commitCheckpoint : Message where
  name := "CommitCheckpoint"
  puts := [u64 "job_id", u64 "checkpoint_id", u64 "coordinator_epoch", u64 "retain_floor",
    .tailList "pinned_checkpoint_ids" (.word 8)]
  reads := [next (u64 "job_id"), next (u64 "checkpoint_id"), ifMore (u64 "coordinator_epoch"),
    ifMore (u64 "retain_floor"), ifMore (.tailList "pinned_checkpoint_ids" (.word 8))]
  agree := rfl
  proper := rfl

def abortCheckpoint : Message where
  name := "AbortCheckpoint"
  puts := [u64 "job_id", u64 "checkpoint_id", u64 "coordinator_epoch"]
  reads := [next (u64 "job_id"), next (u64 "checkpoint_id"), ifMore (u64 "coordinator_epoch")]
  agree := rfl
  proper := rfl

def commitConfirmed : Message where
  name := "CommitConfirmed"
  puts := [u64 "job_id", u64 "checkpoint_id", text "role", u32 "subtask_idx"]
  reads := [next (u64 "job_id"), next (u64 "checkpoint_id"), next (text "role"),
    next (u32 "subtask_idx")]
  agree := rfl
  proper := rfl

def subtaskCheckpointed : Message where
  name := "SubtaskCheckpointed"
  puts := [u64 "job_id", u64 "checkpoint_id", text "role", u32 "subtask_idx", flag "ok",
    text "error"]
  reads := [next (u64 "job_id"), next (u64 "checkpoint_id"), next (text "role"),
    next (u32 "subtask_idx"), next (flag "ok"), next (text "error")]
  agree := rfl
  proper := rfl

def requestFinalCheckpoint : Message where
  name := "RequestFinalCheckpoint"
  puts := [u64 "job_id", text "role", u32 "subtask_idx"]
  reads := [next (u64 "job_id"), next (text "role"), next (u32 "subtask_idx")]
  agree := rfl
  proper := rfl

/-- The reason of a decline is any byte, cast to its enumeration. -/
def finalCheckpointAssigned : Message where
  name := "FinalCheckpointAssigned"
  puts := [u64 "job_id", text "role", u32 "subtask_idx", u64 "final_checkpoint_id",
    u64 "coordinator_epoch", u8 "decline"]
  reads := [next (u64 "job_id"), next (text "role"), next (u32 "subtask_idx"),
    next (u64 "final_checkpoint_id"), ifMore (u64 "coordinator_epoch"), ifMore (u8 "decline")]
  agree := rfl
  proper := rfl

/-! ## All of them -/

/-- The messages with a decoder. -/
def controlMessages : List Message :=
  [register, registerAck, helloClient, heartbeat, heartbeatAck, deploy, peerUpdate,
    subtaskListening, startJob, subtaskFinished, submitJob, submitJobAck, jobCompleted, cancelJob,
    cancelJobAck, stopJob, stopSubtasks, stopJobAck, listJobsAck, rescaleJob, rescaleJobAck,
    rescaleOperator, rescaleOperatorAck, beginRescale, beginRescaleAck, cutoverRebind,
    cutoverPeerUpdate, savepoint, savepointAck, triggerCheckpoint, commitCheckpoint,
    abortCheckpoint, commitConfirmed, subtaskCheckpointed, requestFinalCheckpoint,
    finalCheckpointAssigned]

/-- The fields of a submitted job that do not leave the process. -/
def inProcessFields : List String :=
  ["checkpoint.track_runs", "checkpoint.start_fresh", "checkpoint.taken_over",
    "checkpoint.resumed_completed", "checkpoint.run_checkpoint_floor"]

private theorem unwritten_all : (controlMessages.all fun m =>
    m.unwritten = if m.name = "SubmitJob" then inProcessFields else []) = true := by
  decide +kernel

theorem unwritten_controlMessages {m : Message} (h : m ∈ controlMessages) :
    m.unwritten = if m.name = "SubmitJob" then inProcessFields else [] :=
  of_decide_eq_true (List.all_eq_true.mp unwritten_all m h)

/-- Every message is read back, but for the fields of a submitted job that are not sent,
and so is what older senders sent, and no bytes make a decoder ask for more than four
characters or elements for each of them. -/
theorem controlMessage_survives {m : Message} (h : m ∈ controlMessages) :
    (∀ v, m.Fits v →
      (m.decode (m.encode v)).result = .ok (m.carried v, []) ∧
      (m.name ≠ "SubmitJob" → m.carried v = v) ∧
      ∀ k, m.CutPoint k → (m.decode (m.encodeFirst k v)).result = .ok (m.cut k v, [])) ∧
    m.unwritten = (if m.name = "SubmitJob" then inProcessFields else []) ∧
    ∀ bytes, (m.decode bytes).asked ≤ 4 * bytes.length := by
  have hunwritten := unwritten_controlMessages h
  refine ⟨fun v hfits => ⟨Record.read_encode hfits, fun hname => ?_, fun k hcut => ?_⟩,
    hunwritten, m.asked_le⟩
  · rw [if_neg hname] at hunwritten
    exact Record.carried_eq hunwritten v
  · exact Record.read_cut hfits hcut

/-- Two tasks of job 7, the second with a peer, and a plugin. -/
def twoTasks (directives : List (BitVec 32 × BitVec 16 × BitVec 16 × Unit))
    (parents : List (BitVec 32 × Unit)) (backend : Bytes) (epoch : BitVec 64)
    (successions : List (BitVec 32 × BitVec 32 × Unit)) (floor : Option (BitVec 64)) :
    deploy.Value :=
  ((7, [([109, 97, 112], 0, 9000, [], [], ()),
      ([115, 105, 110, 107], 1, 9001, [([109, 97, 112], 0, [104], 9000, ())], [123, 125], ())],
    [([112], [48], [1, 2, 3], ())], [99, 107], [], 4, directives, parents, false, [], backend, [],
    0, [], 1, 1, false, epoch, successions, floor, ()) :
    BitVec 64 × List (Bytes × BitVec 32 × BitVec 16 ×
      List (Bytes × BitVec 32 × Bytes × BitVec 16 × Unit) × Bytes × Unit) ×
    List (Bytes × Bytes × Bytes × Unit) × Bytes × Bytes × BitVec 64 ×
    List (BitVec 32 × BitVec 16 × BitVec 16 × Unit) × List (BitVec 32 × Unit) × Bool × Bytes ×
    Bytes × Bytes × BitVec 64 × Bytes × BitVec 32 × BitVec 32 × Bool × BitVec 64 ×
    List (BitVec 32 × BitVec 32 × Unit) × Option (BitVec 64) × Unit)

/-- A rescaled deployment, and what is read of it from a sender that does not know the columns:
each task restores from itself. -/
theorem deploy_survives :
    let sent := twoTasks [(0, 0, 63, ()), (0, 64, 127, ())] [(1, ()), (2, ())] [102] 3
      [(0, 1, ()), (0, 2, ())] (some 2)
    (deploy.decode (deploy.encode sent)).result = .ok (sent, []) ∧
    (deploy.decode (deploy.encodeFirst 6 sent)).result =
      .ok (twoTasks [(kRestoreFromSelf, 0, 0, ()), (kRestoreFromSelf, 0, 0, ())] [(1, ()), (1, ())]
        [] 0 [(kRestoreFromSelf, 1, ()), (kRestoreFromSelf, 1, ())] none, []) := by
  intro sent
  have hmem : deploy ∈ controlMessages := by
    unfold controlMessages
    repeat first | exact List.mem_cons_self | apply List.mem_cons_of_mem
  have hcut : deploy.CutPoint 6 := by
    intro f hf
    obtain ⟨⟩ := hf
    rfl
  obtain ⟨hread, -, hfirst⟩ := (controlMessage_survives hmem).1 sent (by decide)
  exact ⟨hread, hfirst 6 hcut⟩

/-- A submitted job whose runs are tracked, all else at its default. -/
def trackedSubmission : submitJob.Value :=
  (([], [], [], 0#64, [], 0#64, kRestartAuto, (0 : Fin 3), [], [], 0#64, [], true, false, false,
    0#64,
    none, ()) :
    Bytes × List pluginBinary.Value × Bytes × BitVec 64 × Bytes × BitVec 64 × BitVec 32 × Fin 3 ×
      Bytes × Bytes × BitVec 64 × List pluginAbiAdvert.Value × Bool × Bool × Bool × BitVec 64 ×
      Option (BitVec 64) × Unit)

def trackRuns (v : submitJob.Value) : Bool := v.2.2.2.2.2.2.2.2.2.2.2.2.1

theorem trackedSubmission_not_read_back :
    submitJob.Fits trackedSubmission ∧
    (submitJob.decode (submitJob.encode trackedSubmission)).result ≠ .ok
      (trackedSubmission, []) := by
  have htext : ([] : Bytes).length < 2 ^ 32 := by decide
  have hlist : ∀ {l : Layout}, (Layout.list l).Fits ([] : List l.Value) :=
    ⟨Nat.two_pow_pos 32, List.forall_mem_nil _⟩
  have hfits : submitJob.Fits trackedSubmission :=
    ⟨htext, hlist, htext, trivial, htext, trivial, trivial, trivial, htext, htext, trivial, hlist,
      trivial, trivial, trivial, trivial, trivial, trivial⟩
  refine ⟨hfits, fun h => ?_⟩
  rw [Record.read_encode hfits] at h
  have hvalue := congrArg Prod.fst (Except.ok.inj h)
  exact Bool.noConfusion (congrArg trackRuns hvalue : false = true)

end Clink.Ports.ControlMessages

import Clink.Ports.ResumeHandles

/-!
# The in-doubt commit walk

The embedding of `resolve_in_doubt_commits`
(`src/cluster/in_doubt_resolution.cpp`): the walk over the completed and
unconfirmed checkpoints of a job that probes the staged handles of each and
writes CONFIRMED for a checkpoint whose handles are all committed.

The environment is a parameter: the snapshot files, the parser of a handle's
JSON, the registered resolvers, the cancel flag, and which writes and removals
of the store succeed.  Whatever may differ from one moment to the next takes
the moment as an argument, and the moment is the length of the walk's log, so
every behaviour of the resolvers and every moment of the cancellation is a
value of the parameter.  The log is the order of what the walk did; no branch
of the walk reads it.

A store maps a key's text to a body.  A write that throws leaves the record as
it was.
-/

namespace Clink.Ports.InDoubt

open Clink.Verified

/-! ## The environment -/

/-- What is read of a JSON value: a string's text, an object's members. -/
inductive Json where
  | string (text : List Char)
  | object (members : List (List Char × Json))
  | other

/-- `JsonValue::at`, which throws for a value that is no object and for a
missing key. -/
def Json.at (key : List Char) : Json → Option Json
  | .object members => members.lookup key
  | _ => none

/-- `JsonValue::as_string`. -/
def Json.asString : Json → Option (List Char)
  | .string text => some text
  | _ => none

/-- The answer of a resolver. -/
structure InDoubtResolution where
  committed : Bool
  transportInconclusive : Bool
  deriving DecidableEq, Repr

/-- A resolver, asked at a moment about a handle. -/
abbrev InDoubtResolver : Type := Nat → List Char → InDoubtResolution

structure Environment where
  checkpointDir : List Char
  jobId : Nat
  snapshots : List Char → Snapshot
  parse : List Char → Option Json
  resolvers : List Char → Option InDoubtResolver
  cancel : Nat → Bool
  putSucceeds : Nat → Bool
  removeSucceeds : Nat → Bool

/-- What a walk did.  A checkpoint's handles are named by their index. -/
inductive Action where
  | observed (cancelled : Bool)
  | probed (id index : Nat) (result : InDoubtResolution)
  | receipt (id index : Nat) (written : Bool)
  | confirmed (id : Nat) (written : Bool)
  | unresolved (id index : Nat) (written : Bool)
  | retired (id index : Nat)
  deriving DecidableEq, Repr

structure Walk where
  store : List Char → Option (List Char)
  log : List Action

/-- A handle during the walk of its checkpoint: `handle_committed` and
`handle_refused` at its index. -/
structure Slot where
  index : Nat
  staged : StagedHandle
  committed : Bool
  refused : Bool
  deriving DecidableEq, Repr

namespace Environment

variable (env : Environment)

/-! ## Keys -/

/-- `job_prefix`. -/
def jobPrefix : List Char := "_jobs/".toList ++ decimal env.jobId ++ ['/']

def completedKey (id : Nat) : List Char := env.jobPrefix ++ ("COMPLETED-".toList ++ decimal id)

def confirmedKey (id : Nat) : List Char := env.jobPrefix ++ ("CONFIRMED-".toList ++ decimal id)

/-- `commit_receipt_file_name`. -/
def commitReceiptFileName (subtask id : Nat) : List Char :=
  "sub".toList ++ (decimal subtask ++ '-' :: decimal id)

def receiptKey (subtask id : Nat) : List Char :=
  env.jobPrefix ++ ("receipts/".toList ++ commitReceiptFileName subtask id)

def markerKey (subtask id : Nat) : List Char :=
  env.receiptKey subtask id ++ ".unresolved".toList

/-! ## One interaction with the surroundings -/

/-- The value a load of the cancel flag returns. -/
def cancelled (w : Walk) : Bool := env.cancel w.log.length

def observe (w : Walk) : Walk := { w with log := w.log ++ [.observed (env.cancelled w)] }

def ask (resolver : InDoubtResolver) (handle : List Char) (w : Walk) : InDoubtResolution :=
  resolver w.log.length handle

def probed (id index : Nat) (result : InDoubtResolution) (w : Walk) : Walk :=
  { w with log := w.log ++ [.probed id index result] }

def written (w : Walk) : Bool := env.putSucceeds w.log.length

/-- `store->put`, logged with whether it threw. -/
def put (key body : List Char) (action : Bool → Action) (w : Walk) : Walk :=
  { store := if env.written w then Function.update w.store key (some body) else w.store
    log := w.log ++ [action (env.written w)] }

/-- `retire_marker`. -/
def retireMarker (id : Nat) (s : Slot) (w : Walk) : Walk :=
  { store := if env.removeSucceeds w.log.length then
        Function.update w.store (env.markerKey s.staged.subtask id) none
      else w.store
    log := w.log ++ [.retired id s.index] }

/-! ## Reading a checkpoint -/

def readHandles (info : CompletedMarkerInfo) (id : Nat) : Option (List StagedHandle) :=
  readResumeHandles env.checkpointDir env.snapshots info id

def slotsFrom (index : Nat) : List StagedHandle → List Slot
  | [] => []
  | h :: rest =>
      { index := index, staged := h, committed := false, refused := false } ::
        slotsFrom (index + 1) rest

/-- A handle with a commit receipt in the store is committed without a probe. -/
def readReceipts (id : Nat) : List Slot → Walk → List Slot × Walk
  | [], w => ([], w)
  | s :: rest, w =>
      if (w.store (env.receiptKey s.staged.subtask id)).isSome then
        let read := readReceipts id rest (env.retireMarker id s w)
        ({ s with committed := true } :: read.1, read.2)
      else
        let read := readReceipts id rest w
        (s :: read.1, read.2)

/-! ## Markers -/

/-- `persist_unresolved_markers`. -/
def persistUnresolvedMarkers (id : Nat) : List Slot → Walk → Walk
  | [], w => w
  | s :: rest, w =>
      if s.committed || s.refused then persistUnresolvedMarkers id rest w
      else persistUnresolvedMarkers id rest
        (env.put (env.markerKey s.staged.subtask id) s.staged.handle (.unresolved id s.index) w)

/-- A marker for each handle of one later checkpoint without a receipt. -/
def markUnreceipted (id : Nat) : List Slot → Walk → Walk
  | [], w => w
  | s :: rest, w =>
      if (w.store (env.receiptKey s.staged.subtask id)).isSome then markUnreceipted id rest w
      else markUnreceipted id rest
        (env.put (env.markerKey s.staged.subtask id) s.staged.handle (.unresolved id s.index) w)

/-- The handles staged at a checkpoint, when it completed with a participant set
and its snapshots can be read. -/
def stagedAt (store : List Char → Option (List Char)) (id : Nat) :
    Option (List StagedHandle) :=
  match store (env.completedKey id) with
  | none => none
  | some body =>
      match readCompletedMarker body with
      | none => none
      | some info => env.readHandles info id

/-- The handles `mark_later_unreceipted` visits at a later checkpoint. -/
def laterSlots (w : Walk) (id : Nat) : List Slot :=
  match env.stagedAt w.store id with
  | none => []
  | some handles => slotsFrom 0 handles

def markLater : List Nat → Walk → Walk
  | [], w => w
  | id :: ids, w => markLater ids (env.markUnreceipted id (env.laterSlots w id) w)

/-- `mark_later_unreceipted`. -/
def markLaterUnreceipted (completed stoppedAt : Nat) (w : Walk) : Walk :=
  env.markLater (List.range' (stoppedAt + 1) (completed - stoppedAt)) w

/-! ## Probing -/

/-- The resolver a handle names, when it parses and the resolver is registered. -/
def resolverOf (handle : List Char) : Option InDoubtResolver :=
  match env.parse handle with
  | none => none
  | some json =>
      match (json.at "resolver".toList).bind Json.asString with
      | none => none
      | some name => env.resolvers name

/-- The watermark horizon of a handle, empty when it carries none. -/
def horizon (handle : List Char) : List Char :=
  match env.parse handle with
  | none => []
  | some json => ((json.at "wm".toList).bind Json.asString).getD []

/-- The receipt of a commit proven over the wire, when its handle has a horizon. -/
def materialiseReceipt (id : Nat) (s : Slot) (w : Walk) : Walk :=
  if env.horizon s.staged.handle = [] then w
  else env.put (env.receiptKey s.staged.subtask id)
    ("wm=".toList ++ env.horizon s.staged.handle ++ ['\n']) (.receipt id s.index) w

/-- What became of one handle of a pass. -/
inductive Verdict where
  | cancelled
  | failed
  | committed
  | inconclusive
  deriving DecidableEq, Repr

structure Probe where
  verdict : Verdict
  slot : Slot
  walk : Walk

/-- The answer to a probe, acted on unless the flag is set by then. -/
def actOn (id : Nat) (s : Slot) (result : InDoubtResolution) (w : Walk) : Probe :=
  if env.cancelled w then ⟨.cancelled, s, env.observe w⟩
  else
    let w := env.observe w
    if result.committed then
      ⟨.committed, { s with committed := true },
        env.retireMarker id s (env.materialiseReceipt id s w)⟩
    else if result.transportInconclusive then ⟨.inconclusive, s, w⟩
    else ⟨.failed, { s with refused := true }, env.retireMarker id s w⟩

/-- One handle of a pass that is not yet committed. -/
def probeHandle (id : Nat) (s : Slot) (w : Walk) : Probe :=
  if env.cancelled w then ⟨.cancelled, s, env.observe w⟩
  else
    let w := env.observe w
    match env.resolverOf s.staged.handle with
    | none => ⟨.failed, s, w⟩
    | some resolver =>
        let result := ask resolver s.staged.handle w
        env.actOn id s result (probed id s.index result w)

structure Pass where
  slots : List Slot
  walk : Walk
  everythingDone : Bool
  verdictFailure : Bool

/-- One attempt: every handle not yet committed is probed, until the flag is
seen set. -/
def probeHandles (id : Nat) : List Slot → Walk → Pass
  | [], w => ⟨[], w, true, false⟩
  | s :: rest, w =>
      if s.committed then
        let pass := probeHandles id rest w
        { pass with slots := s :: pass.slots }
      else
        let probe := env.probeHandle id s w
        match probe.verdict with
        | .cancelled => ⟨probe.slot :: rest, probe.walk, false, true⟩
        | .committed =>
            let pass := probeHandles id rest probe.walk
            { pass with slots := probe.slot :: pass.slots }
        | .inconclusive =>
            let pass := probeHandles id rest probe.walk
            { pass with slots := probe.slot :: pass.slots, everythingDone := false }
        | .failed =>
            let pass := probeHandles id rest probe.walk
            ⟨probe.slot :: pass.slots, pass.walk, false, true⟩

/-- What the attempts at a checkpoint came to. -/
structure Attempted where
  allCommitted : Bool
  slots : List Slot
  walk : Walk

/-- The attempts at one checkpoint, at most `n` more of them. -/
def attempts (id : Nat) : Nat → List Slot → Walk → Attempted
  | 0, slots, w => ⟨false, slots, w⟩
  | n + 1, slots, w =>
      let pass := env.probeHandles id slots w
      if pass.everythingDone then ⟨true, pass.slots, pass.walk⟩
      else if env.cancelled pass.walk || pass.verdictFailure then
        ⟨false, pass.slots, env.observe pass.walk⟩
      else attempts id n pass.slots (env.observe pass.walk)

/-- `kTransportAttempts`. -/
def transportAttempts : Nat := 5

/-! ## The walk -/

/-- Where the walk of a checkpoint stops the whole walk. -/
inductive Stop where
  | noParticipantSet
  | noHandles
  | cancelledBeforeProbing
  | unresolved
  | cancelledBeforeConfirming
  | confirmationFailed
  deriving DecidableEq, Repr

inductive Outcome where
  | skipped
  | confirmed
  | stopped (why : Stop)
  deriving DecidableEq, Repr

def confirmedBody (id : Nat) : List Char :=
  "job=".toList ++ decimal env.jobId ++ "\ncheckpoint=".toList ++ decimal id ++
    "\nresolved=in-doubt\n".toList

/-- A checkpoint after its attempts. -/
def decideCheckpoint (completed id : Nat) (tried : Attempted) : Outcome × Walk :=
  if tried.allCommitted then
    if env.cancelled tried.walk then
      (.stopped .cancelledBeforeConfirming,
        env.markLaterUnreceipted completed id (env.observe tried.walk))
    else
      let w := env.observe tried.walk
      let w' := env.put (env.confirmedKey id) (env.confirmedBody id) (.confirmed id) w
      if env.written w then (.confirmed, w')
      else (.stopped .confirmationFailed, env.markLaterUnreceipted completed id w')
  else
    (.stopped .unresolved, env.markLaterUnreceipted completed id
      (env.persistUnresolvedMarkers id tried.slots (env.observe tried.walk)))

/-- A checkpoint whose handles were read. -/
def resolveHandles (completed id : Nat) (handles : List StagedHandle) (w : Walk) :
    Outcome × Walk :=
  let read := env.readReceipts id (slotsFrom 0 handles) w
  if env.cancelled read.2 then
    (.stopped .cancelledBeforeProbing,
      env.persistUnresolvedMarkers id read.1 (env.observe read.2))
  else
    env.decideCheckpoint completed id
      (env.attempts id transportAttempts read.1 (env.observe read.2))

/-- One id of the walk. -/
def resolveCheckpoint (completed id : Nat) (w : Walk) : Outcome × Walk :=
  match w.store (env.completedKey id) with
  | none => (.skipped, w)
  | some body =>
      match readCompletedMarker body with
      | none => (.stopped .noParticipantSet, env.markLaterUnreceipted completed id w)
      | some info =>
          match env.readHandles info id with
          | none => (.stopped .noHandles, env.markLaterUnreceipted completed id w)
          | some [] => (.stopped .noHandles, env.markLaterUnreceipted completed id w)
          | some (h :: rest) => env.resolveHandles completed id (h :: rest) w

/-- What a walk returns, and where it stopped when it stopped early. -/
structure Result where
  confirmed : Nat
  stop : Option (Nat × Stop)
  walk : Walk

def resolveIds (completed : Nat) : List Nat → Nat → Walk → Result
  | [], confirmed, w => ⟨confirmed, none, w⟩
  | id :: ids, confirmed, w =>
      match env.resolveCheckpoint completed id w with
      | (.skipped, w) => resolveIds completed ids confirmed w
      | (.confirmed, w) => resolveIds completed ids id w
      | (.stopped why, w) => ⟨confirmed, some (id, why), w⟩

/-- `resolve_in_doubt_commits`. -/
def resolveInDoubtCommits (store : List Char → Option (List Char)) (confirmed completed : Nat) :
    Result :=
  if env.checkpointDir = [] ∨ completed ≤ confirmed then ⟨confirmed, none, ⟨store, []⟩⟩
  else env.resolveIds completed (List.range' (confirmed + 1) (completed - confirmed)) confirmed
    ⟨store, []⟩

end Environment

end Clink.Ports.InDoubt

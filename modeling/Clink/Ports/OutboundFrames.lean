import Mathlib.Algebra.Order.Ring.Nat
import Mathlib.Data.List.Induction

/-!
# The outbound frames of one connection

The embedding of `Outbox` (`src/cluster/outbox.cpp`): a queue of encoded frames
that any thread posts to and one writer sends, in chunks, off the lock.

Every hold of the outbox's lock is one step, and so is every piece of a send
that reaches the transport.  A step carries what the outside decides: the clock,
whether an allocation succeeds, what the fault point and the transport answer.
The steps interleave in any order, so a stop may fall between any two of the
writer's.  Beside the outbox's own fields the state keeps the frames accepted,
written and given up so far and the bytes the transport has taken.
-/

namespace Clink.Ports.OutboundFrames

/-! ## The data -/

inductive FrameClass
  /-- Every frame but a Deploy. -/
  | control
  /-- A Deploy. -/
  | bulk
  deriving DecidableEq

inductive PostResult
  | queued
  | refused
  deriving DecidableEq

inductive OutboxState
  /-- `Open`. -/
  | opened
  | flushing
  | closed
  | stopped
  deriving DecidableEq

inductive OutboxStopReason
  | none
  | overflow
  | allocation
  | writeFailed
  | flushDeadline
  | aborted
  deriving DecidableEq

/-- `kMaxFrameBytes`. -/
def maxFrameBytes : Nat := 256 * 1024 * 1024

structure OutboxLimits where
  maxControlFrames : Nat := 10000
  maxControlBytes : Nat := 64 * 1024 * 1024
  maxBulkBytes : Nat := 4 * maxFrameBytes

/-- The byte bound of a class. -/
def OutboxLimits.maxBytes (limits : OutboxLimits) : FrameClass → Nat
  | .control => limits.maxControlBytes
  | .bulk => limits.maxBulkBytes

/-- A queued frame; its `bytes` are the frame's size. -/
structure Entry where
  frame : List UInt8
  cls : FrameClass
  deriving DecidableEq

def Entry.bytes (entry : Entry) : Nat := entry.frame.length

/-- `kWriteChunkBytes`. -/
def writeChunkBytes : Nat := 64 * 1024

/-- What a stop discarded, by class. -/
structure Discards where
  control : Nat
  bulk : Nat
  deriving DecidableEq

def Discards.total (discards : Discards) : Nat := discards.control + discards.bulk

/-- The fields under the lock. -/
structure Outbox where
  /-- The transport has not been released. -/
  conn : Bool := true
  queue : List Entry := []
  controlFrames : Nat := 0
  controlBytes : Nat := 0
  bulkFrames : Nat := 0
  bulkBytes : Nat := 0
  writing : Bool := false
  writingCls : FrameClass := .control
  writerClaimed : Bool := false
  state : OutboxState := .opened
  stopReason : OutboxStopReason := .none
  stopDetail : String := ""
  /-- None is `time_point::max()`. -/
  flushDeadline : Option Int := none
  progressAt : Int := 0
  framesWritten : Nat := 0
  bytesWritten : Nat := 0
  framesDiscarded : Nat := 0
  deriving DecidableEq

/-- Where the writer's thread stands between two holds. -/
inductive Writer
  /-- `run_writer` has not been called. -/
  | unclaimed
  /-- Claimed, and found no transport. -/
  | noTransport
  /-- At the wait of `write_loop_`. -/
  | waiting
  /-- Off the lock with a frame, before the fault point. -/
  | taken (entry : Entry)
  /-- At the first hold of `write_frame_`. -/
  | checking (entry : Entry)
  /-- In `send_all` of the chunk after `written` bytes, `took` of which the
  transport has taken. -/
  | sending (entry : Entry) (written took : Nat)
  /-- Back from `send_all`. -/
  | sent (entry : Entry) (written : Nat) (ok : Bool)
  /-- An exception is on its way to `run_writer`. -/
  | failing (entry : Entry) (what : Option String)
  | done
  deriving DecidableEq

/-- The frame the writer has taken and not yet let go of. -/
def Writer.held : Writer → List Entry
  | .taken entry | .checking entry | .sending entry _ _ | .sent entry _ _ | .failing entry _ =>
      [entry]
  | .unclaimed | .noTransport | .waiting | .done => []

structure System where
  box : Outbox := {}
  writer : Writer := .unclaimed
  /-- The calls of `release_transport` between their two holds. -/
  releasing : Nat := 0
  /-- The posts answered `Queued`, in order. -/
  accepted : List Entry := []
  /-- The frames counted in `frames_written_`. -/
  written : List Entry := []
  /-- The frames given up by a stop. -/
  discarded : List Entry := []
  /-- What `report_stop_` was called with. -/
  reported : List (OutboxStopReason × Discards) := []
  /-- The bytes the transport has taken. -/
  wire : List UInt8 := []
  deriving DecidableEq

/-! ## The operations -/

/-- `finished_locked_`. -/
def Outbox.finished (box : Outbox) : Bool :=
  box.state == .closed || box.state == .stopped

/-- The parts joined, or nothing where that cannot allocate. -/
def joined (fits : Bool) (parts : List String) : String :=
  if fits then String.join parts else ""

def overflowDetail (fits : Bool) (cls : FrameClass) (limits : OutboxLimits) (box : Outbox) :
    String :=
  match cls with
  | .bulk =>
      joined fits ["a bulk frame found ", toString box.bulkBytes,
        " bytes of bulk frames queued, against a bound of ", toString limits.maxBulkBytes]
  | .control =>
      if box.controlFrames ≥ limits.maxControlFrames then
        joined fits ["a control frame found ", toString box.controlFrames,
          " control frames queued, against a bound of ", toString limits.maxControlFrames]
      else
        joined fits ["a control frame found ", toString box.controlBytes,
          " bytes of control frames queued, against a bound of ", toString limits.maxControlBytes]

/-- The frame in flight, which a stop gives up too. -/
def System.inFlight (s : System) : List Entry :=
  if s.box.writing then s.writer.held else []

/-- `stop_`. -/
def stop (reason : OutboxStopReason) (detail : String) (s : System) : System :=
  if s.box.finished then s
  else
    let discards : Discards := {
      control := s.box.controlFrames +
        if s.box.writing && s.box.writingCls == .control then 1 else 0
      bulk := s.box.bulkFrames +
        if s.box.writing && s.box.writingCls == .bulk then 1 else 0 }
    { s with
      box := { s.box with
        state := .stopped
        stopReason := reason
        stopDetail := detail
        framesDiscarded := s.box.framesDiscarded + discards.total
        writing := false
        controlFrames := 0
        controlBytes := 0
        bulkFrames := 0
        bulkBytes := 0
        queue := [] }
      discarded := s.discarded ++ s.inFlight ++ s.box.queue
      reported := s.reported ++ [(reason, discards)] }

/-- The class is at a bound. -/
def atBound (limits : OutboxLimits) (box : Outbox) : FrameClass → Bool
  | .bulk => decide (box.bulkBytes ≥ limits.maxBulkBytes)
  | .control =>
      decide (box.controlFrames ≥ limits.maxControlFrames) ||
        decide (box.controlBytes ≥ limits.maxControlBytes)

/-- Count a frame in. -/
def Outbox.countIn (box : Outbox) (entry : Entry) : Outbox :=
  match entry.cls with
  | .bulk =>
      { box with
        bulkFrames := box.bulkFrames + 1
        bulkBytes := box.bulkBytes + entry.bytes }
  | .control =>
      { box with
        controlFrames := box.controlFrames + 1
        controlBytes := box.controlBytes + entry.bytes }

/-- Count a frame out. -/
def Outbox.remove (box : Outbox) (entry : Entry) : Outbox :=
  match entry.cls with
  | .bulk =>
      { box with
        bulkFrames := box.bulkFrames - 1
        bulkBytes := box.bulkBytes - entry.bytes }
  | .control =>
      { box with
        controlFrames := box.controlFrames - 1
        controlBytes := box.controlBytes - entry.bytes }

/-- What the outside decides in a step. -/
structure Moment where
  now : Int := 0
  /-- Building a detail text succeeds. -/
  fits : Bool := true
  deriving DecidableEq

/-- `Outbox::post`; a null frame is none, and `allocates` is false where the
queue throws. -/
def post (limits : OutboxLimits) (moment : Moment) (frame : Option (List UInt8)) (cls : FrameClass)
    (allocates : Bool) (s : System) : System × PostResult :=
  match frame with
  | none => (s, .refused)
  | some frame =>
      let entry : Entry := { frame, cls }
      if s.box.state ≠ .opened then (s, .refused)
      else if atBound limits s.box cls then
        (stop .overflow (overflowDetail moment.fits cls limits s.box) s, .refused)
      else if !allocates then
        (stop .allocation (joined moment.fits ["queueing a frame of ", toString entry.bytes,
          " bytes could not allocate"]) s, .refused)
      else
        let wasIdle := s.box.queue.isEmpty && !s.box.writing
        let box := ({ s.box with queue := s.box.queue ++ [entry] } : Outbox).countIn entry
        ({ s with
          box := { box with progressAt := if wasIdle then moment.now else box.progressAt }
          accepted := s.accepted ++ [entry] }, .queued)

/-- The first hold of `run_writer`. -/
def runWriter (s : System) : System :=
  if s.box.writerClaimed then s
  else
    { s with
      box := { s.box with writerClaimed := true }
      writer := if s.box.conn then .waiting else .noTransport }

/-- A stop on the writer's way out. -/
def leave (reason : OutboxStopReason) (detail : String) (s : System) : System :=
  { stop reason detail s with writer := .done }

/-- The hold of `run_writer` for a claim without a transport, and for an
exception. -/
def runWriterStop (moment : Moment) (s : System) : System :=
  match s.writer with
  | .noTransport => leave .writeFailed (joined moment.fits ["the outbox has no transport"]) s
  | .failing _ (some what) =>
      leave .writeFailed (joined moment.fits ["the writer failed: ", what]) s
  | .failing _ none => leave .writeFailed (joined moment.fits ["the writer failed"]) s
  | _ => s

/-- The hold of `write_loop_`, once its wait is over. -/
def writeLoop (s : System) : System :=
  match s.writer with
  | .waiting =>
      if s.box.finished then { s with writer := .done }
      else
        match s.box.queue with
        | [] =>
            if s.box.state = .opened then s
            else { s with box := { s.box with state := .closed }, writer := .done }
        | entry :: rest =>
            { s with
              box := { ({ s.box with queue := rest } : Outbox).remove entry with
                writing := true
                writingCls := entry.cls }
              writer := .taken entry }
  | _ => s

/-- What the fault point before a write does. -/
inductive Injected
  | none
  | error
  | throws (what : Option String)
  deriving DecidableEq

def faultPoint (moment : Moment) (injected : Injected) (s : System) : System :=
  match s.writer, injected with
  | .taken entry, .none => { s with writer := .checking entry }
  | .taken _, .error =>
      leave .writeFailed (joined moment.fits ["an injected fault failed the write"]) s
  | .taken entry, .throws what => { s with writer := .failing entry what }
  | _, _ => s

/-- The flush deadline has passed. -/
def Outbox.expired (box : Outbox) (now : Int) : Bool :=
  box.state == .flushing && box.flushDeadline.any (fun deadline => decide (now ≥ deadline))

/-- The frame the writer holds is all written. -/
def finishFrame (entry : Entry) (s : System) : System :=
  { s with
    box := { s.box with writing := false, framesWritten := s.box.framesWritten + 1 }
    written := s.written ++ [entry]
    writer := .waiting }

/-- The detail of a missed flush deadline. -/
def deadlineDetail (fits : Bool) : String :=
  joined fits ["the flush deadline passed with frames unwritten"]

/-- The first hold of `write_frame_`. -/
def writeFrame (moment : Moment) (s : System) : System :=
  match s.writer with
  | .checking entry =>
      if s.box.state = .stopped then { s with writer := .done }
      else if entry.bytes = 0 then finishFrame entry s
      else if s.box.expired moment.now then leave .flushDeadline (deadlineDetail moment.fits) s
      else { s with writer := .sending entry 0 0 }
  | _ => s

/-- The size of the chunk after `written` bytes. -/
def Entry.chunk (entry : Entry) (written : Nat) : Nat :=
  min writeChunkBytes (entry.bytes - written)

/-- The transport takes up to `count` more bytes of the chunk being sent. -/
def transmit (count : Nat) (s : System) : System :=
  match s.writer with
  | .sending entry written took =>
      let more := min count (entry.chunk written - took)
      { s with
        wire := s.wire ++ (entry.frame.drop (written + took)).take more
        writer := .sending entry written (took + more) }
  | _ => s

/-- What `send_all` comes to. -/
inductive SendResult
  | sent
  | failed
  | throws (what : Option String)
  deriving DecidableEq

/-- `send_all` returns; true only when the whole chunk was taken. -/
def sendAll (result : SendResult) (s : System) : System :=
  match s.writer, result with
  | .sending entry written took, .sent =>
      if took = entry.chunk written then { s with writer := .sent entry written true } else s
  | .sending entry written _, .failed => { s with writer := .sent entry written false }
  | .sending entry _ _, .throws what => { s with writer := .failing entry what }
  | _, _ => s

/-- The hold of `write_frame_` after a send. -/
def afterSend (moment : Moment) (s : System) : System :=
  match s.writer with
  | .sent entry written ok =>
      if s.box.state = .stopped then { s with writer := .done }
      else if !ok then
        leave .writeFailed (joined moment.fits ["the transport failed with ", toString written,
          " of a frame's ", toString entry.bytes, " bytes written"]) s
      else
        let reached := written + entry.chunk written
        let s := { s with
          box := { s.box with
            bytesWritten := s.box.bytesWritten + entry.chunk written
            progressAt := moment.now } }
        if reached = entry.bytes then finishFrame entry s
        else if s.box.expired moment.now then leave .flushDeadline (deadlineDetail moment.fits) s
        else { s with writer := .sending entry reached 0 }
  | _ => s

/-- `close_after_flush`; a deadline of none is `time_point::max()`. -/
def closeAfterFlush (deadline : Option Int) (s : System) : System :=
  if s.box.finished then s
  else
    let box := { s.box with
      state := .flushing
      flushDeadline :=
        if s.box.state = .opened then deadline
        else
          match s.box.flushDeadline, deadline with
          | some old, some new => some (min old new)
          | some old, none => some old
          | none, new => new }
    if box.queue.isEmpty && !box.writing then
      { s with box := { box with state := .closed } }
    else { s with box }

/-- `wait_closed` when its deadline comes first; the answer is whether the
outbox closed. -/
def waitClosed (moment : Moment) (s : System) : System × Bool :=
  if s.box.finished then (s, s.box.state == .closed)
  else (stop .flushDeadline (deadlineDetail moment.fits) s, false)

def abort (moment : Moment) (why : String) (s : System) : System :=
  stop .aborted (joined moment.fits [why]) s

/-- The first hold of `release_transport`, the only one of a finished outbox. -/
def releaseTransport (moment : Moment) (s : System) : System :=
  if s.box.finished then { s with box := { s.box with conn := false } }
  else
    { stop .aborted (joined moment.fits ["the transport was released"]) s with
      releasing := s.releasing + 1 }

/-- The second hold of `release_transport`. -/
def letGo (s : System) : System :=
  if s.releasing = 0 then s
  else { s with box := { s.box with conn := false }, releasing := s.releasing - 1 }

def restartStallClock (now : Int) (s : System) : System :=
  { s with box := { s.box with progressAt := max s.box.progressAt now } }

inductive Call
  | post (frame : Option (List UInt8)) (cls : FrameClass) (allocates : Bool)
  | runWriter
  | runWriterStop
  | writeLoop
  | faultPoint (injected : Injected)
  | writeFrame
  | transmit (count : Nat)
  | sendAll (result : SendResult)
  | afterSend
  | closeAfterFlush (deadline : Option Int)
  | waitClosed
  | abort (why : String)
  | releaseTransport
  | letGo
  | restartStallClock (now : Int)
  deriving DecidableEq

def step (limits : OutboxLimits) (s : System) (e : Moment × Call) : System :=
  match e.2 with
  | .post frame cls allocates => (post limits e.1 frame cls allocates s).1
  | .runWriter => runWriter s
  | .runWriterStop => runWriterStop e.1 s
  | .writeLoop => writeLoop s
  | .faultPoint injected => faultPoint e.1 injected s
  | .writeFrame => writeFrame e.1 s
  | .transmit count => transmit count s
  | .sendAll result => sendAll result s
  | .afterSend => afterSend e.1 s
  | .closeAfterFlush deadline => closeAfterFlush deadline s
  | .waitClosed => (waitClosed e.1 s).1
  | .abort why => abort e.1 why s
  | .releaseTransport => releaseTransport e.1 s
  | .letGo => letGo s
  | .restartStallClock now => restartStallClock now s

/-- Where a sequence of steps leads a new outbox. -/
def run (limits : OutboxLimits) (es : List (Moment × Call)) : System :=
  es.foldl (step limits) {}

/-! ## What the queue holds -/

/-- The frames of one class. -/
def classOf (cls : FrameClass) (entries : List Entry) : List Entry :=
  entries.filter fun entry => entry.cls = cls

def bytesOf (entries : List Entry) : Nat := (entries.map Entry.bytes).sum

/-- The queue counter of a class, in frames. -/
def Outbox.queuedFrames (box : Outbox) : FrameClass → Nat
  | .control => box.controlFrames
  | .bulk => box.bulkFrames

/-- The queue counter of a class, in bytes. -/
def Outbox.queuedBytes (box : Outbox) : FrameClass → Nat
  | .control => box.controlBytes
  | .bulk => box.bulkBytes

/-- The counters are those of the queue. -/
def Outbox.Counted (box : Outbox) : Prop :=
  ∀ cls, box.queuedFrames cls = (classOf cls box.queue).length ∧
    box.queuedBytes cls = bytesOf (classOf cls box.queue)

/-- Before its newest frame, the queue of each class was under its bound. -/
def Within (limits : OutboxLimits) (queue : List Entry) : Prop :=
  ∀ cls earlier last, classOf cls queue = earlier ++ [last] →
    bytesOf earlier < limits.maxBytes cls

variable {limits : OutboxLimits} {s : System} {moment : Moment} {entry : Entry}

theorem classOf_cons (cls : FrameClass) (entry : Entry) (entries : List Entry) :
    classOf cls (entry :: entries) =
      if entry.cls = cls then entry :: classOf cls entries else classOf cls entries := by
  by_cases h : entry.cls = cls <;> simp [classOf, h]

theorem classOf_append (cls : FrameClass) (a b : List Entry) :
    classOf cls (a ++ b) = classOf cls a ++ classOf cls b :=
  List.filter_append a b

theorem bytesOf_cons (entry : Entry) (entries : List Entry) :
    bytesOf (entry :: entries) = entry.bytes + bytesOf entries := by
  simp [bytesOf]

theorem bytesOf_append (a b : List Entry) : bytesOf (a ++ b) = bytesOf a + bytesOf b := by
  simp [bytesOf]

theorem length_classOf (entries : List Entry) :
    (classOf .control entries).length + (classOf .bulk entries).length = entries.length := by
  induction entries with
  | nil => rfl
  | cons entry entries ih =>
      rw [classOf_cons, classOf_cons]
      cases hcls : entry.cls with
      | control =>
          rw [if_pos rfl, if_neg (by decide), List.length_cons, List.length_cons]
          omega
      | bulk =>
          rw [if_neg (by decide), if_pos rfl, List.length_cons, List.length_cons]
          omega

theorem countIn_eq (box : Outbox) (entry : Entry) :
    box.countIn entry =
      { box with
        bulkFrames := if entry.cls = .bulk then box.bulkFrames + 1 else box.bulkFrames
        bulkBytes := if entry.cls = .bulk then box.bulkBytes + entry.bytes else box.bulkBytes
        controlFrames := if entry.cls = .control then box.controlFrames + 1 else box.controlFrames
        controlBytes :=
          if entry.cls = .control then box.controlBytes + entry.bytes else box.controlBytes } := by
  cases hcls : entry.cls <;> simp [Outbox.countIn, hcls]

theorem remove_eq (box : Outbox) (entry : Entry) :
    box.remove entry =
      { box with
        bulkFrames := if entry.cls = .bulk then box.bulkFrames - 1 else box.bulkFrames
        bulkBytes := if entry.cls = .bulk then box.bulkBytes - entry.bytes else box.bulkBytes
        controlFrames := if entry.cls = .control then box.controlFrames - 1 else box.controlFrames
        controlBytes :=
          if entry.cls = .control then box.controlBytes - entry.bytes else box.controlBytes } := by
  cases hcls : entry.cls <;> simp [Outbox.remove, hcls]

theorem Outbox.Counted.countIn {box : Outbox} (h : box.Counted) (entry : Entry) :
    (({ box with queue := box.queue ++ [entry] } : Outbox).countIn entry).Counted := by
  intro cls
  obtain ⟨hframes, hbytes⟩ := h cls
  rw [countIn_eq]
  cases cls <;> cases hcls : entry.cls <;>
    simp [queuedFrames, queuedBytes, bytesOf, hcls, classOf] at hframes hbytes ⊢ <;> omega

theorem Outbox.Counted.remove {box : Outbox} (h : box.Counted) {entry : Entry} {rest : List Entry}
    (hqueue : box.queue = entry :: rest) :
    (({ box with queue := rest } : Outbox).remove entry).Counted := by
  intro cls
  obtain ⟨hframes, hbytes⟩ := h cls
  rw [hqueue, classOf_cons] at hframes hbytes
  rw [remove_eq]
  cases cls <;> cases hcls : entry.cls <;>
    simp [queuedFrames, queuedBytes, bytesOf_cons, hcls] at hframes hbytes ⊢ <;> omega

theorem Within.countIn {queue : List Entry} (h : Within limits queue) {entry : Entry}
    (hroom : bytesOf (classOf entry.cls queue) < limits.maxBytes entry.cls) :
    Within limits (queue ++ [entry]) := by
  intro cls earlier last hlast
  rw [classOf_append, classOf_cons] at hlast
  by_cases hcls : entry.cls = cls
  · rw [if_pos hcls] at hlast
    obtain ⟨rfl, -⟩ := List.append_inj' hlast rfl
    rwa [← hcls]
  · rw [if_neg hcls] at hlast
    exact h cls earlier last (by simpa [classOf] using hlast)

theorem Within.remove {entry : Entry} {rest : List Entry} (h : Within limits (entry :: rest)) :
    Within limits rest := by
  intro cls earlier last hlast
  by_cases hcls : entry.cls = cls
  · have hwhole := h cls (entry :: earlier) last (by rw [classOf_cons, if_pos hcls, hlast]; rfl)
    rw [bytesOf_cons] at hwhole
    omega
  · exact h cls earlier last (by rw [classOf_cons, if_neg hcls, hlast])

/-! ## The invariant -/

/-- The frame after those written. -/
def System.nextFrame (s : System) : List UInt8 :=
  (s.accepted.drop s.written.length).head?.elim [] Entry.frame

/-- What the writer's place says of the bytes taken since the last frame
written. -/
def TailAt (tail : List UInt8) : Writer → Prop
  | .unclaimed | .noTransport | .waiting | .taken _ | .checking _ => tail = []
  | .sending entry written took =>
      tail = entry.frame.take (written + took) ∧ written < entry.bytes ∧
        took ≤ entry.chunk written
  | .sent entry written ok =>
      tail <+: entry.frame ∧ written < entry.bytes ∧
        (ok = true → tail = entry.frame.take (written + entry.chunk written))
  | .failing entry _ => tail <+: entry.frame
  | .done => True

structure Accounts (limits : OutboxLimits) (s : System) : Prop where
  /-- The writer holds the frame after those written, also once a stop has
  given it up. -/
  held : ∃ rest, s.accepted = s.written ++ s.writer.held ++ rest
  sent : ∃ tail, s.wire = s.written.flatMap Entry.frame ++ tail ∧ tail <+: s.nextFrame ∧
    TailAt tail s.writer
  accounted : s.accepted = s.written ++ s.discarded ++ s.inFlight ++ s.box.queue
  flying : s.writer.held ≠ [] → s.box.state ≠ .stopped → s.box.writing = true
  writing : s.box.writing = true → ∃ entry, s.writer.held = [entry] ∧ s.box.writingCls = entry.cls
  kept : s.box.state ≠ .stopped → s.discarded = [] ∧ s.reported = []
  ended : s.box.finished = true → s.box.queue = [] ∧ s.box.writing = false
  counted : s.box.Counted
  framesWritten : s.box.framesWritten = s.written.length
  framesDiscarded : s.box.framesDiscarded = s.discarded.length
  reported : s.box.state = .stopped → s.reported = [(s.box.stopReason,
    ⟨(classOf .control s.discarded).length, (classOf .bulk s.discarded).length⟩)]
  within : Within limits s.box.queue

theorem Accounts.start (limits : OutboxLimits) : Accounts limits {} where
  held := ⟨[], rfl⟩
  sent := ⟨[], rfl, List.nil_prefix, rfl⟩
  accounted := rfl
  flying h := absurd rfl h
  writing h := absurd h (by decide)
  kept _ := ⟨rfl, rfl⟩
  ended h := absurd h (by decide)
  counted cls := by cases cls <;> exact ⟨rfl, rfl⟩
  framesWritten := rfl
  framesDiscarded := rfl
  reported h := absurd h (by decide)
  within cls earlier last h := by simp [classOf] at h

namespace Accounts

theorem not_stopped {box : Outbox} (h : box.finished = false) : box.state ≠ .stopped := by
  intro hstate
  simp [Outbox.finished, hstate] at h

section

variable (h : Accounts limits s)
include h

theorem touch (conn writerClaimed : Bool) (progressAt : Int) (bytesWritten releasing : Nat) :
    Accounts limits { s with
      box := { s.box with
        conn := conn
        writerClaimed := writerClaimed
        progressAt := progressAt
        bytesWritten := bytesWritten }
      releasing := releasing } :=
  ⟨h.held, h.sent, h.accounted, h.flying, h.writing, h.kept, h.ended, h.counted, h.framesWritten,
    h.framesDiscarded, h.reported, h.within⟩

theorem move {writer : Writer} (hheld : writer.held = s.writer.held)
    (htail : ∀ tail, TailAt tail s.writer → TailAt tail writer) :
    Accounts limits { s with writer := writer } where
  held := by
    obtain ⟨rest, hrest⟩ := h.held
    exact ⟨rest, by rw [hheld]; exact hrest⟩
  sent := by
    obtain ⟨tail, hwire, hnext, hat⟩ := h.sent
    exact ⟨tail, hwire, hnext, htail tail hat⟩
  accounted := by
    have := h.accounted
    rw [System.inFlight] at this
    rw [System.inFlight]
    rwa [hheld]
  flying hne := h.flying (hheld ▸ hne)
  writing hw := by
    obtain ⟨entry, hentry, hcls⟩ := h.writing hw
    exact ⟨entry, hheld.trans hentry, hcls⟩
  kept := h.kept
  ended := h.ended
  counted := h.counted
  framesWritten := h.framesWritten
  framesDiscarded := h.framesDiscarded
  reported := h.reported
  within := h.within

/-- The writer goes once the outbox has finished. -/
theorem leaves (hend : s.box.finished = true) : Accounts limits { s with writer := .done } where
  held := by
    obtain ⟨rest, hrest⟩ := h.held
    exact ⟨s.writer.held ++ rest, by rw [hrest]; simp [Writer.held]⟩
  sent := by
    obtain ⟨tail, hwire, hnext, -⟩ := h.sent
    exact ⟨tail, hwire, hnext, trivial⟩
  accounted := by
    have := h.accounted
    rw [System.inFlight, (h.ended hend).2] at this
    rw [System.inFlight]
    simpa [(h.ended hend).2] using this
  flying hne := absurd rfl hne
  writing hw := by
    rw [(h.ended hend).2] at hw
    exact absurd hw (by decide)
  kept := h.kept
  ended := h.ended
  counted := h.counted
  framesWritten := h.framesWritten
  framesDiscarded := h.framesDiscarded
  reported := h.reported
  within := h.within

/-- The counters of a stop are those of the frames it gives up. -/
theorem discards_eq (cls : FrameClass) :
    (classOf cls (s.inFlight ++ s.box.queue)).length =
      s.box.queuedFrames cls + if s.box.writing && s.box.writingCls == cls then 1 else 0 := by
  rw [classOf_append, List.length_append, (h.counted cls).1, Nat.add_comm, System.inFlight]
  cases hw : s.box.writing with
  | false => rfl
  | true =>
      obtain ⟨entry, hheld, hcls⟩ := h.writing hw
      rw [if_pos rfl, hheld, classOf_cons, hcls]
      by_cases heq : entry.cls = cls <;> simp [heq, classOf]

theorem stop (reason : OutboxStopReason) (detail : String) :
    Accounts limits (stop reason detail s) := by
  unfold OutboundFrames.stop
  cases hend : s.box.finished with
  | true => exact h
  | false =>
      have hkept := h.kept (not_stopped hend)
      have hcontrol := h.discards_eq .control
      have hbulk := h.discards_eq .bulk
      rw [if_neg (by decide)]
      exact {
        held := h.held
        sent := h.sent
        accounted := by
          simp only [System.inFlight, if_neg (show ¬ false = true by decide), List.append_nil]
          rw [← List.append_assoc, ← List.append_assoc]
          exact h.accounted
        flying := fun _ hne => absurd rfl hne
        writing := fun hw => Bool.noConfusion hw
        kept := fun hne => absurd rfl hne
        ended := fun _ => ⟨rfl, rfl⟩
        counted := fun cls => by cases cls <;> exact ⟨rfl, rfl⟩
        framesWritten := h.framesWritten
        framesDiscarded := by
          have hsplit := length_classOf (s.inFlight ++ s.box.queue)
          rw [hcontrol, hbulk] at hsplit
          simp only [Outbox.queuedFrames] at hsplit
          simp only [Discards.total, h.framesDiscarded, hkept.1,
            List.nil_append, List.length_nil, Nat.zero_add]
          exact hsplit
        reported := fun _ => by
          simp only [hkept.1, hkept.2, List.nil_append, hcontrol, hbulk, Outbox.queuedFrames]
        within := fun cls earlier last hlast => by simp [classOf] at hlast }

omit h in
theorem stop_finished (reason : OutboxStopReason) (detail : String) (s : System) :
    (OutboundFrames.stop reason detail s).box.finished = true := by
  unfold OutboundFrames.stop
  cases hend : s.box.finished with
  | true => exact hend
  | false => rfl

theorem leave (reason : OutboxStopReason) (detail : String) :
    Accounts limits (leave reason detail s) :=
  (h.stop reason detail).leaves (stop_finished reason detail s)

private theorem nextFrame_of_held (hheld : s.writer.held = [entry]) :
    s.nextFrame = entry.frame := by
  obtain ⟨rest, hrest⟩ := h.held
  rw [System.nextFrame, hrest, hheld, List.append_assoc, List.drop_left]
  rfl

/-- A newly accepted frame leaves the next frame where there was one. -/
theorem grown_nextFrame (entry : Entry) {tail : List UInt8} (htail : tail <+: s.nextFrame) :
    tail <+: ({ s with accepted := s.accepted ++ [entry] } : System).nextFrame := by
  obtain ⟨rest, hrest⟩ := h.held
  have hdrop : (s.accepted ++ [entry]).drop s.written.length =
      s.accepted.drop s.written.length ++ [entry] := by
    rw [List.drop_append_of_le_length]
    simp [hrest]
  rw [System.nextFrame] at htail ⊢
  rw [hdrop]
  cases hnext : s.accepted.drop s.written.length with
  | nil =>
      rw [hnext] at htail
      rw [List.prefix_nil.mp htail]
      exact List.nil_prefix
  | cons next later =>
      rw [hnext] at htail
      exact htail

private theorem admitted (hopen : s.box.state = .opened)
    (hroom : bytesOf (classOf entry.cls s.box.queue) < limits.maxBytes entry.cls)
    (progressAt : Int) :
    Accounts limits { s with
      box := { ({ s.box with queue := s.box.queue ++ [entry] } : Outbox).countIn entry with
        progressAt := progressAt }
      accepted := s.accepted ++ [entry] } := by
  have hcounted := h.counted.countIn entry
  rw [countIn_eq] at hcounted ⊢
  have hlive : s.box.finished = false := by
    simp [Outbox.finished, hopen]
  exact {
    held := by
      obtain ⟨rest, hrest⟩ := h.held
      exact ⟨rest ++ [entry], by simp [hrest]⟩
    sent := by
      obtain ⟨tail, hwire, hnext, hat⟩ := h.sent
      exact ⟨tail, hwire, h.grown_nextFrame entry hnext, hat⟩
    accounted := by
      have haccounted := h.accounted
      rw [System.inFlight] at haccounted
      simp only [System.inFlight]
      rw [← List.append_assoc, ← haccounted]
    flying := h.flying
    writing := h.writing
    kept := h.kept
    ended := fun hend => absurd (hlive.symm.trans hend) (by decide)
    counted := hcounted
    framesWritten := h.framesWritten
    framesDiscarded := h.framesDiscarded
    reported := h.reported
    within := h.within.countIn hroom }

private theorem bytes_lt_of_room {cls : FrameClass} (hroom : atBound limits s.box cls = false) :
    bytesOf (classOf cls s.box.queue) < limits.maxBytes cls := by
  rw [← (h.counted cls).2]
  cases cls with
  | bulk =>
      rw [atBound, decide_eq_false_iff_not] at hroom
      exact Nat.lt_of_not_le hroom
  | control =>
      rw [atBound, Bool.or_eq_false_iff, decide_eq_false_iff_not, decide_eq_false_iff_not] at hroom
      exact Nat.lt_of_not_le hroom.2

theorem post (frame : Option (List UInt8)) (cls : FrameClass) (allocates : Bool) :
    Accounts limits (post limits moment frame cls allocates s).1 := by
  cases frame with
  | none => exact h
  | some frame =>
      unfold OutboundFrames.post
      dsimp only
      split
      · exact h
      · rename_i hopen
        rw [ne_eq, not_not] at hopen
        split
        · exact h.stop _ _
        · rename_i hroom
          rw [Bool.not_eq_true] at hroom
          split
          · exact h.stop _ _
          · exact h.admitted hopen (h.bytes_lt_of_room hroom) _

theorem runWriter (hstart : s.box.writerClaimed = false → s.writer = .unclaimed) :
    Accounts limits (runWriter s) := by
  unfold OutboundFrames.runWriter
  cases hclaimed : s.box.writerClaimed with
  | true => exact h
  | false =>
      rw [if_neg (by decide)]
      have hfirst := hstart hclaimed
      refine (h.touch s.box.conn true s.box.progressAt s.box.bytesWritten s.releasing).move ?_ ?_
      · rw [hfirst]
        cases s.box.conn <;> rfl
      · intro tail htail
        rw [show TailAt tail s.writer ↔ tail = [] by rw [hfirst]; rfl] at htail
        cases s.box.conn <;> exact htail

theorem runWriterStop : Accounts limits (runWriterStop moment s) := by
  unfold OutboundFrames.runWriterStop
  split
  · exact h.leave _ _
  · exact h.leave _ _
  · exact h.leave _ _
  · exact h

theorem takes (hwait : s.writer = .waiting) {rest : List Entry}
    (hqueue : s.box.queue = entry :: rest) :
    Accounts limits { s with
      box := { ({ s.box with queue := rest } : Outbox).remove entry with
        writing := true
        writingCls := entry.cls }
      writer := .taken entry } := by
  have hcounted := h.counted.remove hqueue
  have hlive : s.box.finished = false := by
    cases hend : s.box.finished with
    | false => rfl
    | true => simp [(h.ended hend).1] at hqueue
  have hidle : s.inFlight = [] := by
    rw [System.inFlight, hwait]
    cases s.box.writing <;> rfl
  have haccounted := h.accounted
  rw [(h.kept (not_stopped hlive)).1, hidle, hqueue, List.append_nil, List.append_nil] at haccounted
  rw [remove_eq] at hcounted ⊢
  exact {
    held := ⟨rest, by simp [haccounted, Writer.held]⟩
    sent := by
      obtain ⟨tail, hwire, hnext, hat⟩ := h.sent
      rw [hwait] at hat
      exact ⟨tail, hwire, hnext, hat⟩
    accounted := by
      simp only [System.inFlight, (h.kept (not_stopped hlive)).1, List.append_nil]
      simpa [Writer.held] using haccounted
    flying := fun _ _ => rfl
    writing := fun _ => ⟨entry, rfl, rfl⟩
    kept := h.kept
    ended := fun hend => absurd (hlive.symm.trans hend) (by decide)
    counted := hcounted
    framesWritten := h.framesWritten
    framesDiscarded := h.framesDiscarded
    reported := h.reported
    within := by
      have hwithin := h.within
      rw [hqueue] at hwithin
      exact hwithin.remove }

/-- With nothing queued and nothing in flight, the outbox closes or begins to
flush. -/
theorem becomes (hlive : s.box.finished = false) {state : OutboxState} (hstate : state ≠ .stopped)
    (deadline : Option Int) (hend : state = .closed → s.box.queue = [] ∧ s.box.writing = false) :
    Accounts limits { s with
      box := { s.box with state := state, flushDeadline := deadline } } where
  held := h.held
  sent := h.sent
  accounted := h.accounted
  flying hne _ := h.flying hne (not_stopped hlive)
  writing := h.writing
  kept _ := h.kept (not_stopped hlive)
  ended hfin := by
    refine hend ?_
    simpa [Outbox.finished, hstate] using hfin
  counted := h.counted
  framesWritten := h.framesWritten
  framesDiscarded := h.framesDiscarded
  reported hstop := absurd hstop hstate
  within := h.within

theorem writeLoop : Accounts limits (writeLoop s) := by
  unfold OutboundFrames.writeLoop
  split
  · rename_i hwait
    cases hend : s.box.finished with
    | true => exact h.leaves hend
    | false =>
        rw [if_neg (by decide)]
        split
        · rename_i hqueue
          split
          · exact h
          · have hidle : s.box.writing = false := by
              cases hw : s.box.writing with
              | false => rfl
              | true =>
                  obtain ⟨entry, hheld, -⟩ := h.writing hw
                  rw [hwait] at hheld
                  exact absurd hheld (by simp [Writer.held])
            exact (h.becomes hend (by decide) s.box.flushDeadline
              fun _ => ⟨hqueue, hidle⟩).leaves rfl
        · rename_i hqueue
          exact h.takes hwait hqueue
  · exact h

theorem faultPoint (injected : Injected) : Accounts limits (faultPoint moment injected s) := by
  unfold OutboundFrames.faultPoint
  split
  · rename_i hwriter
    refine h.move (by rw [hwriter]; rfl) fun tail htail => ?_
    rw [hwriter] at htail
    exact htail
  · exact h.leave _ _
  · rename_i hwriter
    refine h.move (by rw [hwriter]; rfl) fun tail htail => ?_
    rw [hwriter] at htail
    rw [show tail = [] from htail]
    exact List.nil_prefix
  · exact h

theorem finishFrame (hheld : s.writer.held = [entry]) (hlive : s.box.state ≠ .stopped)
    (hall : ∀ tail, TailAt tail s.writer → tail = entry.frame) :
    Accounts limits (finishFrame entry s) := by
  have hwriting := h.flying (by rw [hheld]; simp) hlive
  have haccounted := h.accounted
  rw [(h.kept hlive).1, System.inFlight, if_pos hwriting, hheld, List.append_nil] at haccounted
  exact {
    held := ⟨s.box.queue, by simpa [OutboundFrames.finishFrame, Writer.held] using haccounted⟩
    sent := by
      obtain ⟨tail, hwire, -, hat⟩ := h.sent
      refine ⟨[], ?_, List.nil_prefix, rfl⟩
      rw [hall tail hat] at hwire
      simpa [OutboundFrames.finishFrame] using hwire
    accounted := by
      simpa [OutboundFrames.finishFrame, System.inFlight, (h.kept hlive).1] using haccounted
    flying := fun hne => absurd rfl hne
    writing := fun hw => Bool.noConfusion hw
    kept := h.kept
    ended := fun hend => ⟨(h.ended hend).1, rfl⟩
    counted := h.counted
    framesWritten := by simp [OutboundFrames.finishFrame, h.framesWritten]
    framesDiscarded := h.framesDiscarded
    reported := h.reported
    within := h.within }

theorem writeFrame : Accounts limits (writeFrame moment s) := by
  unfold OutboundFrames.writeFrame
  split
  · rename_i entry hwriter
    split
    · rename_i hstop
      exact h.leaves (by simp [Outbox.finished, hstop])
    · rename_i hlive
      split
      · rename_i hempty
        refine h.finishFrame (by rw [hwriter]; rfl) hlive fun tail htail => ?_
        rw [hwriter] at htail
        rw [show tail = [] from htail]
        exact (List.eq_nil_of_length_eq_zero hempty).symm
      · rename_i hbytes
        split
        · exact h.leave _ _
        · refine h.move (by rw [hwriter]; rfl) fun tail htail => ?_
          rw [hwriter] at htail
          exact ⟨htail, Nat.pos_of_ne_zero hbytes, Nat.zero_le _⟩
  · exact h

/-- The transport takes `more` bytes of the chunk. -/
theorem sends {written took more : Nat} (hwriter : s.writer = .sending entry written took)
    (hmore : more ≤ entry.chunk written - took) :
    Accounts limits { s with
      wire := s.wire ++ (entry.frame.drop (written + took)).take more
      writer := .sending entry written (took + more) } := by
  have hheld : s.writer.held = [entry] := by rw [hwriter]; rfl
  have hgrow : entry.frame.take (written + (took + more)) =
      entry.frame.take (written + took) ++ (entry.frame.drop (written + took)).take more := by
    rw [← Nat.add_assoc, List.take_add]
  exact {
    held := by
      have := h.held
      rwa [hheld] at this
    sent := by
      obtain ⟨tail, hwire, -, hat⟩ := h.sent
      rw [hwriter] at hat
      obtain ⟨rfl, hbytes, htook⟩ := hat
      refine ⟨entry.frame.take (written + (took + more)), ?_, ?_, rfl, hbytes, by omega⟩
      · show s.wire ++ _ = s.written.flatMap Entry.frame ++ _
        rw [hwire, hgrow, List.append_assoc]
      · show _ <+: s.nextFrame
        rw [h.nextFrame_of_held hheld]
        exact List.take_prefix _ _
    accounted := by
      have := h.accounted
      rwa [System.inFlight, hheld] at this
    flying := fun _ => h.flying (by rw [hheld]; simp)
    writing := fun hw => by
      have := h.writing hw
      rwa [hheld] at this
    kept := h.kept
    ended := h.ended
    counted := h.counted
    framesWritten := h.framesWritten
    framesDiscarded := h.framesDiscarded
    reported := h.reported
    within := h.within }

theorem transmit (count : Nat) : Accounts limits (transmit count s) := by
  unfold OutboundFrames.transmit
  split
  · rename_i hwriter
    exact h.sends hwriter (Nat.min_le_right _ _)
  · exact h

theorem sendAll (result : SendResult) : Accounts limits (sendAll result s) := by
  unfold OutboundFrames.sendAll
  split
  · rename_i entry written took hwriter
    split
    · rename_i hwhole
      refine h.move (by rw [hwriter]; rfl) fun tail htail => ?_
      rw [hwriter] at htail
      obtain ⟨rfl, hbytes, -⟩ := htail
      exact ⟨List.take_prefix _ _, hbytes, fun _ => by rw [hwhole]⟩
    · exact h
  · rename_i hwriter
    refine h.move (by rw [hwriter]; rfl) fun tail htail => ?_
    rw [hwriter] at htail
    obtain ⟨rfl, hbytes, -⟩ := htail
    exact ⟨List.take_prefix _ _, hbytes, fun hok => absurd hok (by decide)⟩
  · rename_i hwriter
    refine h.move (by rw [hwriter]; rfl) fun tail htail => ?_
    rw [hwriter] at htail
    obtain ⟨rfl, -, -⟩ := htail
    exact List.take_prefix _ _
  · exact h

theorem afterSend : Accounts limits (afterSend moment s) := by
  unfold OutboundFrames.afterSend
  split
  · rename_i entry written ok hwriter
    split
    · rename_i hstop
      exact h.leaves (by simp [Outbox.finished, hstop])
    · rename_i hlive
      split
      · exact h.leave _ _
      · rename_i hok
        replace hok : ok = true := by simpa using hok
        have htouched := h.touch s.box.conn s.box.writerClaimed moment.now
          (s.box.bytesWritten + entry.chunk written) s.releasing
        have hheld : s.writer.held = [entry] := by rw [hwriter]; rfl
        have htake : ∀ tail, TailAt tail s.writer →
            tail = entry.frame.take (written + entry.chunk written) := by
          intro tail htail
          rw [hwriter] at htail
          exact htail.2.2 hok
        dsimp only
        split
        · rename_i hreached
          refine htouched.finishFrame hheld hlive fun tail htail => ?_
          rw [htake tail htail, hreached]
          exact List.take_length
        · rename_i hmore
          split
          · exact htouched.leave _ _
          · refine htouched.move hheld.symm fun tail htail => ?_
            refine ⟨htake tail htail, ?_, Nat.zero_le _⟩
            have hchunk : entry.chunk written ≤ entry.bytes - written := Nat.min_le_right _ _
            rw [show TailAt tail s.writer = TailAt tail (.sent entry written ok) by rw [hwriter]]
              at htail
            have hbytes := htail.2.1
            omega
  · exact h

theorem closeAfterFlush (deadline : Option Int) : Accounts limits (closeAfterFlush deadline s) := by
  unfold OutboundFrames.closeAfterFlush
  cases hend : s.box.finished with
  | true => exact h
  | false =>
      rw [if_neg (by decide)]
      dsimp only
      split
      · rename_i hidle
        rw [Bool.and_eq_true, List.isEmpty_iff, Bool.not_eq_true'] at hidle
        exact h.becomes hend (by decide) _ fun _ => hidle
      · exact h.becomes hend (by decide) _ fun hclosed => absurd hclosed (by decide)

theorem waitClosed : Accounts limits (waitClosed moment s).1 := by
  unfold OutboundFrames.waitClosed
  split
  · exact h
  · exact h.stop _ _

theorem releaseTransport : Accounts limits (releaseTransport moment s) := by
  unfold OutboundFrames.releaseTransport
  split
  · exact h.touch false s.box.writerClaimed s.box.progressAt s.box.bytesWritten s.releasing
  · have hstop := h.stop .aborted (joined moment.fits ["the transport was released"])
    exact hstop.touch _ _ _ _ (s.releasing + 1)

theorem letGo : Accounts limits (letGo s) := by
  unfold OutboundFrames.letGo
  split
  · exact h
  · exact h.touch false s.box.writerClaimed s.box.progressAt s.box.bytesWritten (s.releasing - 1)

end

end Accounts

/-! ## Runs -/

/-- Before a writer claims the outbox there is none. -/
def Unclaimed (s : System) : Prop := s.box.writerClaimed = false → s.writer = .unclaimed

private theorem stop_writer (reason : OutboxStopReason) (detail : String) (s : System) :
    (stop reason detail s).writer = s.writer := by
  unfold stop
  split <;> rfl

theorem stop_claimed (reason : OutboxStopReason) (detail : String) (s : System) :
    (stop reason detail s).box.writerClaimed = s.box.writerClaimed := by
  unfold stop
  split <;> rfl

theorem Unclaimed.stop (h : Unclaimed s) (reason : OutboxStopReason) (detail : String) :
    Unclaimed (stop reason detail s) := by
  rw [Unclaimed, stop_writer, stop_claimed]
  exact h

theorem Unclaimed.moved {t : System} (h : Unclaimed s) (hthere : s.writer ≠ .unclaimed)
    (hsame : t.box.writerClaimed = s.box.writerClaimed) : Unclaimed t := by
  intro hclaimed
  exact absurd (h (hsame ▸ hclaimed)) hthere

theorem Unclaimed.left (h : Unclaimed s) (hthere : s.writer ≠ .unclaimed)
    (reason : OutboxStopReason) (detail : String) : Unclaimed (leave reason detail s) :=
  h.moved hthere (stop_claimed reason detail s)

theorem Unclaimed.step (h : Unclaimed s) (e : Moment × Call) : Unclaimed (step limits s e) := by
  obtain ⟨moment, call⟩ := e
  cases call <;> unfold OutboundFrames.step <;> dsimp only
  case post frame cls allocates =>
    cases frame with
    | none => exact h
    | some frame =>
        unfold post
        dsimp only
        split
        · exact h
        · split
          · exact h.stop _ _
          · split
            · exact h.stop _ _
            · rw [countIn_eq]
              exact h
  case runWriter =>
    unfold runWriter
    split
    · exact h
    · exact fun hclaimed => Bool.noConfusion hclaimed
  case runWriterStop =>
    unfold runWriterStop
    split
    · rename_i hwriter
      exact h.left (by simp [hwriter]) _ _
    · rename_i hwriter
      exact h.left (by simp [hwriter]) _ _
    · rename_i hwriter
      exact h.left (by simp [hwriter]) _ _
    · exact h
  case writeLoop =>
    unfold writeLoop
    split
    · rename_i hwriter
      have hthere : s.writer ≠ .unclaimed := by simp [hwriter]
      split
      · exact h.moved hthere rfl
      · split
        · split
          · exact h
          · exact h.moved hthere rfl
        · rw [remove_eq]
          exact h.moved hthere rfl
    · exact h
  case faultPoint injected =>
    unfold faultPoint
    split
    · rename_i hwriter
      exact h.moved (by simp [hwriter]) rfl
    · rename_i hwriter
      exact h.left (by simp [hwriter]) _ _
    · rename_i hwriter
      exact h.moved (by simp [hwriter]) rfl
    · exact h
  case writeFrame =>
    unfold writeFrame
    split
    · rename_i hwriter
      have hthere : s.writer ≠ .unclaimed := by simp [hwriter]
      split
      · exact h.moved hthere rfl
      · split
        · exact h.moved hthere rfl
        · split
          · exact h.left hthere _ _
          · exact h.moved hthere rfl
    · exact h
  case transmit count =>
    unfold transmit
    split
    · rename_i hwriter
      exact h.moved (by simp [hwriter]) rfl
    · exact h
  case sendAll result =>
    unfold sendAll
    split
    · rename_i hwriter
      split
      · exact h.moved (by simp [hwriter]) rfl
      · exact h
    · rename_i hwriter
      exact h.moved (by simp [hwriter]) rfl
    · rename_i hwriter
      exact h.moved (by simp [hwriter]) rfl
    · exact h
  case afterSend =>
    unfold afterSend
    split
    · rename_i hwriter
      have hthere : s.writer ≠ .unclaimed := by simp [hwriter]
      split
      · exact h.moved hthere rfl
      · split
        · exact h.left hthere _ _
        · dsimp only
          split
          · exact h.moved hthere rfl
          · split
            · exact h.moved hthere (stop_claimed _ _ _)
            · exact h.moved hthere rfl
    · exact h
  case closeAfterFlush deadline =>
    unfold closeAfterFlush
    dsimp only
    split
    · exact h
    · split <;> exact h
  case waitClosed =>
    unfold waitClosed
    split
    · exact h
    · exact h.stop _ _
  case abort why => exact h.stop _ _
  case releaseTransport =>
    unfold releaseTransport
    split
    · exact h
    · exact h.stop _ _
  case letGo =>
    unfold letGo
    split <;> exact h
  case restartStallClock now => exact h

theorem Accounts.step (h : Accounts limits s) (hclaim : Unclaimed s) (e : Moment × Call) :
    Accounts limits (step limits s e) := by
  obtain ⟨moment, call⟩ := e
  cases call with
  | post frame cls allocates => exact h.post frame cls allocates
  | runWriter => exact h.runWriter hclaim
  | runWriterStop => exact h.runWriterStop
  | writeLoop => exact h.writeLoop
  | faultPoint injected => exact h.faultPoint injected
  | writeFrame => exact h.writeFrame
  | transmit count => exact h.transmit count
  | sendAll result => exact h.sendAll result
  | afterSend => exact h.afterSend
  | closeAfterFlush deadline => exact h.closeAfterFlush deadline
  | waitClosed => exact h.waitClosed
  | abort why => exact h.stop _ _
  | releaseTransport => exact h.releaseTransport
  | letGo => exact h.letGo
  | restartStallClock now => exact h.touch _ _ _ _ _

theorem Accounts.run (limits : OutboxLimits) (es : List (Moment × Call)) :
    Accounts limits (run limits es) ∧ Unclaimed (run limits es) := by
  induction es using List.reverseRecOn with
  | nil => exact ⟨.start limits, fun _ => rfl⟩
  | append_singleton es e ih =>
      rw [OutboundFrames.run, List.foldl_append]
      exact ⟨ih.1.step ih.2 e, ih.2.step e⟩

/-- What a stopped outbox never changes again. -/
structure SameAccounts (s t : System) : Prop where
  stopped : t.box.state = .stopped
  accepted : t.accepted = s.accepted
  written : t.written = s.written
  discarded : t.discarded = s.discarded
  reported : t.reported = s.reported
  framesWritten : t.box.framesWritten = s.box.framesWritten
  framesDiscarded : t.box.framesDiscarded = s.box.framesDiscarded

section

variable (hstop : s.box.state = .stopped)
include hstop

theorem stop_stopped (reason : OutboxStopReason) (detail : String) : stop reason detail s = s := by
  rw [stop, if_pos (by simp [Outbox.finished, hstop])]

theorem leave_stopped (reason : OutboxStopReason) (detail : String) :
    leave reason detail s = { s with writer := .done } := by
  rw [leave, stop_stopped hstop]

theorem SameAccounts.step (e : Moment × Call) : SameAccounts s (step limits s e) := by
  have hsame : SameAccounts s s := ⟨hstop, rfl, rfl, rfl, rfl, rfl, rfl⟩
  have hdone : SameAccounts s { s with writer := .done } := ⟨hstop, rfl, rfl, rfl, rfl, rfl, rfl⟩
  have hend : s.box.finished = true := by simp [Outbox.finished, hstop]
  obtain ⟨moment, call⟩ := e
  cases call <;> unfold OutboundFrames.step <;> dsimp only
  case post frame cls allocates =>
    cases frame with
    | none => exact hsame
    | some frame =>
        rw [post, if_pos (by simp [hstop])]
        exact hsame
  case runWriter =>
    unfold runWriter
    split
    · exact hsame
    · exact ⟨hstop, rfl, rfl, rfl, rfl, rfl, rfl⟩
  case runWriterStop =>
    unfold runWriterStop
    simp only [leave_stopped hstop]
    split <;> first | exact hdone | exact hsame
  case writeLoop =>
    unfold writeLoop
    split
    · rw [if_pos hend]
      exact hdone
    · exact hsame
  case faultPoint injected =>
    unfold faultPoint
    simp only [leave_stopped hstop]
    split <;> first | exact hsame | exact ⟨hstop, rfl, rfl, rfl, rfl, rfl, rfl⟩
  case writeFrame =>
    unfold writeFrame
    split
    · rw [if_pos hstop]
      exact hdone
    · exact hsame
  case transmit count =>
    unfold transmit
    split
    · exact ⟨hstop, rfl, rfl, rfl, rfl, rfl, rfl⟩
    · exact hsame
  case sendAll result =>
    unfold sendAll
    split
    · split
      · exact ⟨hstop, rfl, rfl, rfl, rfl, rfl, rfl⟩
      · exact hsame
    · exact ⟨hstop, rfl, rfl, rfl, rfl, rfl, rfl⟩
    · exact ⟨hstop, rfl, rfl, rfl, rfl, rfl, rfl⟩
    · exact hsame
  case afterSend =>
    unfold afterSend
    split
    · rw [if_pos hstop]
      exact hdone
    · exact hsame
  case closeAfterFlush deadline =>
    unfold closeAfterFlush
    rw [if_pos hend]
    exact hsame
  case waitClosed =>
    rw [waitClosed, if_pos hend]
    exact hsame
  case abort why =>
    rw [abort, stop_stopped hstop]
    exact hsame
  case releaseTransport =>
    rw [releaseTransport, if_pos hend]
    exact ⟨hstop, rfl, rfl, rfl, rfl, rfl, rfl⟩
  case letGo =>
    unfold letGo
    split
    · exact hsame
    · exact ⟨hstop, rfl, rfl, rfl, rfl, rfl, rfl⟩
  case restartStallClock now => exact ⟨hstop, rfl, rfl, rfl, rfl, rfl, rfl⟩

theorem SameAccounts.steps (es : List (Moment × Call)) :
    SameAccounts s (es.foldl (OutboundFrames.step limits) s) := by
  induction es using List.reverseRecOn with
  | nil => exact ⟨hstop, rfl, rfl, rfl, rfl, rfl, rfl⟩
  | append_singleton es e ih =>
      rw [List.foldl_append]
      have hlast : SameAccounts (es.foldl (OutboundFrames.step limits) s)
          (OutboundFrames.step limits (es.foldl (OutboundFrames.step limits) s) e) :=
        SameAccounts.step ih.stopped e
      exact ⟨hlast.stopped, hlast.accepted.trans ih.accepted, hlast.written.trans ih.written,
        hlast.discarded.trans ih.discarded, hlast.reported.trans ih.reported,
        hlast.framesWritten.trans ih.framesWritten, hlast.framesDiscarded.trans ih.framesDiscarded⟩

end

/-- The accounts of a state. -/
structure ExactAccounting (limits : OutboxLimits) (s : System) : Prop where
  /-- The bytes sent are those of the frames written and of a part, possibly
  all, of the next one accepted. -/
  sent : ∃ rest tail, s.accepted = s.written ++ rest ∧
    s.wire = s.written.flatMap Entry.frame ++ tail ∧ tail <+: rest.head?.elim [] Entry.frame
  framesWritten : s.box.framesWritten = s.written.length
  accounted : s.accepted.length = s.box.framesWritten + s.box.framesDiscarded +
    s.box.queue.length + if s.box.writing then 1 else 0
  counted : s.box.Counted
  closed : s.box.state = .closed → s.written = s.accepted
  stopped : s.box.state = .stopped → s.accepted = s.written ++ s.discarded ∧
    s.box.framesDiscarded = s.discarded.length ∧
    s.reported = [(s.box.stopReason,
      ⟨(classOf .control s.discarded).length, (classOf .bulk s.discarded).length⟩)]
  bounded : ∀ cls, s.box.queuedBytes cls ≤ limits.maxBytes cls ∨
    ∃ entry ∈ s.box.queue, entry.cls = cls ∧
      s.box.queuedBytes cls < limits.maxBytes cls + entry.bytes

theorem Within.bounded (h : Within limits s.box.queue) (hcounted : s.box.Counted)
    (cls : FrameClass) :
    s.box.queuedBytes cls ≤ limits.maxBytes cls ∨
      ∃ entry ∈ s.box.queue, entry.cls = cls ∧
        s.box.queuedBytes cls < limits.maxBytes cls + entry.bytes := by
  rw [(hcounted cls).2]
  rcases List.eq_nil_or_concat (classOf cls s.box.queue) with hnil | ⟨earlier, last, hlast⟩
  · left
    rw [hnil]
    exact Nat.zero_le _
  · right
    rw [List.concat_eq_append] at hlast
    have hmem : last ∈ classOf cls s.box.queue := by
      rw [hlast]
      exact List.mem_append_right _ List.mem_cons_self
    rw [classOf, List.mem_filter, decide_eq_true_eq] at hmem
    have hearlier := h cls earlier last hlast
    refine ⟨last, hmem.1, hmem.2, ?_⟩
    rw [hlast, bytesOf_append, bytesOf_cons]
    have hnone : bytesOf [] = 0 := rfl
    omega

theorem Accounts.toExact (h : Accounts limits s) : ExactAccounting limits s where
  sent := by
    obtain ⟨rest, hrest⟩ := h.held
    obtain ⟨tail, hwire, hnext, -⟩ := h.sent
    refine ⟨s.writer.held ++ rest, tail, by rw [hrest, List.append_assoc], hwire, ?_⟩
    rw [System.nextFrame, hrest, List.append_assoc, List.drop_left] at hnext
    exact hnext
  framesWritten := h.framesWritten
  accounted := by
    have hflight : s.inFlight.length = if s.box.writing then 1 else 0 := by
      rw [System.inFlight]
      cases hw : s.box.writing with
      | false => rfl
      | true =>
          obtain ⟨entry, hheld, -⟩ := h.writing hw
          rw [if_pos rfl, hheld]
          rfl
    rw [h.accounted, List.length_append, List.length_append, List.length_append, hflight,
      h.framesWritten, h.framesDiscarded]
    omega
  counted := h.counted
  closed hclosed := by
    have hend := h.ended (by simp [Outbox.finished, hclosed])
    have haccounted := h.accounted
    rw [(h.kept (by simp [hclosed])).1, System.inFlight, hend.1, hend.2] at haccounted
    simpa using haccounted.symm
  stopped hstop := by
    have hend := h.ended (by simp [Outbox.finished, hstop])
    have haccounted := h.accounted
    rw [System.inFlight, hend.1, hend.2] at haccounted
    exact ⟨by simpa using haccounted, h.framesDiscarded, h.reported hstop⟩
  bounded := h.within.bounded h.counted

/-- Over every interleaving the accounts are exact, and a stopped outbox's are
final. -/
theorem accounting_exact (limits : OutboxLimits) (es : List (Moment × Call)) :
    ExactAccounting limits (run limits es) ∧
      ∀ pre post, es = pre ++ post → (run limits pre).box.state = .stopped →
        SameAccounts (run limits pre) (run limits es) := by
  refine ⟨(Accounts.run limits es).1.toExact, fun pre post hes hstop => ?_⟩
  rw [hes, run, run, List.foldl_append]
  exact SameAccounts.steps hstop post

end Clink.Ports.OutboundFrames

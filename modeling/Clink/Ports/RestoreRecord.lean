import Clink.Ports.TriggeredRecord

/-!
# The RESTORED record

The embedding of `record_restore_point`, `read_restore_point`
(`src/cluster/in_doubt_resolution.cpp`) and of the marker scans
`latest_marker_id_on_disk` and `latest_completed_id_on_disk`
(`src/cluster/coordinator.cpp`), and of the deploys of one job that restores
from its newest completed checkpoint: a takeover by a new coordinator, which
chooses from the disk, and a restart by the running one
(`restart_job_locked_`), which chooses from its memory.  Either puts the record
before the run starts.

A COMPLETED marker is put without the coordinator's lock, so it can land after
the job was redeployed below it.  The run that restored below it has rolled its
transactions back, and the record names the interval a later restore passes
over.  Only the newest record is kept.
-/

namespace Clink.Ports.RestoreRecord

open Clink.Verified
open Clink.Ports.TriggeredRecord (isBlank isBlank_not_digit metadataWriteAllowed PutFate PutReply)

/-! ## The record and the markers -/

structure RestoredRecord where
  restore : Nat
  next : Nat
  deriving DecidableEq

/-- `RestoredRecord::passes_over`. -/
def RestoredRecord.passesOver (record : RestoredRecord) (id : Nat) : Bool :=
  decide (record.restore < id) && decide (id < record.next)

/-- The record the job has, if any, does not pass the marker over. -/
def eligible (restored : Option RestoredRecord) (id : Nat) : Bool :=
  !(restored.any fun record => record.passesOver id)

/-- The newest of the markers a restore may choose, 0 when there is none. -/
def latestId (ids : List Nat) (restored : Option RestoredRecord) : Nat :=
  (ids.filter (eligible restored)).foldl max 0

variable {id : Nat}

private theorem le_foldl_max {ids : List Nat} (b : Nat) (h : id ∈ ids) : id ≤ ids.foldl max b := by
  rw [List.foldl_max]
  exact le_max_of_le_right (List.le_max?_getD_of_mem h)

private theorem foldl_max_mem (ids : List Nat) (b : Nat) :
    ids.foldl max b = b ∨ ids.foldl max b ∈ ids := by
  rw [List.foldl_max]
  cases hmax : ids.max? with
  | none => exact .inl (max_self b)
  | some m =>
      rw [Option.getD_some]
      rcases max_choice b m with h | h <;> rw [h]
      · exact .inl rfl
      · exact .inr (List.max?_mem hmax)

theorem le_latestId {ids : List Nat} {restored : Option RestoredRecord} (h : id ∈ ids)
    (heligible : eligible restored id = true) : id ≤ latestId ids restored :=
  le_foldl_max 0 (List.mem_filter.mpr ⟨h, heligible⟩)

theorem latestId_mem (ids : List Nat) (restored : Option RestoredRecord) :
    latestId ids restored = 0 ∨
      latestId ids restored ∈ ids ∧ eligible restored (latestId ids restored) = true := by
  rcases foldl_max_mem (ids.filter (eligible restored)) 0 with h | h
  · exact .inl h
  · exact .inr (List.mem_filter.mp h)

/-! ## Their text -/

/-- The line starts with the field and has something after it. -/
def isFieldLine (field line : List Char) : Bool :=
  decide (field.length < line.length) && field.isPrefixOf line

/-- `restored_field_of`: the number on the field's first line. -/
def restoredFieldOf (body field : List Char) : Option Nat :=
  match ((lines body).map (trimEnd isBlank)).find? (isFieldLine field) with
  | none => none
  | some line => parseDecimal (2 ^ 64) (line.drop field.length)

def epochField : List Char := "epoch=".toList

def restoreField : List Char := "restore=".toList

def nextField : List Char := "next=".toList

/-- `restored_epoch_of`. -/
def restoredEpochOf (body : List Char) : Nat := (restoredFieldOf body epochField).getD 0

/-- The body `record_restore_point` puts; it refuses a record whose run does
not number above its restore point. -/
def restoredBody (epoch : Nat) (record : RestoredRecord) : Option (List Char) :=
  if record.next ≤ record.restore then none
  else
    some (epochField ++ decimal epoch ++ '\n' :: (restoreField ++ decimal record.restore ++
      '\n' :: (nextField ++ decimal record.next ++ ['\n'])))

/-- `read_restore_point` of a body; an error when it does not parse. -/
def readRestorePoint (body : List Char) : Option RestoredRecord :=
  match restoredFieldOf body restoreField, restoredFieldOf body nextField with
  | some restore, some next => some { restore, next }
  | _, _ => none

private theorem trimEnd_field (field : List Char) (n : Nat) :
    trimEnd isBlank (field ++ decimal n) = field ++ decimal n := by
  refine trimEnd_eq_self ?_
  intro c hc
  have hlast := List.getLast?_append_of_ne_nil field (decimal_ne_nil n)
  have hmem : c ∈ decimal n := List.mem_of_getLast? (hlast.symm.trans hc)
  by_contra hblank
  have hdigit := isBlank_not_digit c (by simpa using hblank)
  rw [isDigit_of_mem_decimal hmem] at hdigit
  exact absurd hdigit (by decide)

private theorem lines_body (epoch : Nat) (record : RestoredRecord) :
    (lines (epochField ++ decimal epoch ++ '\n' :: (restoreField ++ decimal record.restore ++
      '\n' :: (nextField ++ decimal record.next ++ ['\n'])))).map (trimEnd isBlank) =
      [epochField ++ decimal epoch, restoreField ++ decimal record.restore,
        nextField ++ decimal record.next] := by
  have hline : ∀ (field : List Char) (n : Nat), '\n' ∉ field → '\n' ∉ field ++ decimal n := by
    intro field n hfield hmem
    rcases List.mem_append.mp hmem with hmem | hmem
    · exact hfield hmem
    · exact not_mem_decimal (by decide) hmem
  rw [lines_append (hline _ _ (by decide)), lines_append (hline _ _ (by decide)),
    lines_append (hline _ _ (by decide))]
  simp only [lines, List.map_cons, List.map_nil, trimEnd_field]

theorem parse_field {field : List Char} {n : Nat} (h : n < 2 ^ 64) :
    parseDecimal (2 ^ 64) ((field ++ decimal n).drop field.length) = some n := by
  rw [List.drop_left, parseDecimal_decimal h]

theorem isFieldLine_own (field : List Char) (n : Nat) :
    isFieldLine field (field ++ decimal n) = true := by
  have hlen : 0 < (decimal n).length := List.length_pos_iff.mpr (decimal_ne_nil n)
  rw [isFieldLine, Bool.and_eq_true, List.isPrefixOf_iff_prefix]
  refine ⟨?_, List.prefix_append _ _⟩
  simpa using hlen

theorem isFieldLine_other {field other : List Char}
    (h : ∀ text : List Char, field.isPrefixOf (other ++ text) = false) (n : Nat) :
    ¬ isFieldLine field (other ++ decimal n) = true := by
  rw [isFieldLine, h, Bool.and_false]
  decide

/-- The record and the epoch of its writer, which fences the next one, read back as they
were put. -/
theorem restoredBody_reads_back {epoch : Nat} {record : RestoredRecord} {body : List Char}
    (hepoch : epoch < 2 ^ 64) (hrestore : record.restore < 2 ^ 64) (hnext : record.next < 2 ^ 64)
    (hbody : restoredBody epoch record = some body) :
    restoredEpochOf body = epoch ∧ readRestorePoint body = some record := by
  unfold restoredBody at hbody
  split at hbody
  · exact absurd hbody (by simp)
  obtain rfl := Option.some.inj hbody
  unfold restoredEpochOf readRestorePoint restoredFieldOf
  rw [lines_body, List.find?_cons_of_pos (isFieldLine_own epochField _),
    List.find?_cons_of_neg (isFieldLine_other (fun _ => rfl) _),
    List.find?_cons_of_pos (isFieldLine_own restoreField _),
    List.find?_cons_of_neg (isFieldLine_other (fun _ => rfl) _),
    List.find?_cons_of_neg (isFieldLine_other (fun _ => rfl) _),
    List.find?_cons_of_pos (isFieldLine_own nextField _)]
  simp only [parse_field hepoch, parse_field hrestore, parse_field hnext]
  exact ⟨rfl, trivial⟩

theorem restoredBody_reads_back_seven :
    readRestorePoint ((restoredBody 1 ⟨7, 8⟩).get rfl) = some ⟨7, 8⟩ :=
  (restoredBody_reads_back (by decide) (by decide) (by decide) (Option.some_get _).symm).2

/-- A whole marker: the prefix, then the id, then nothing. -/
def markerId (marker name : List Char) : Option Nat :=
  if marker.isPrefixOf name then
    let digits := name.drop marker.length
    if 20 < digits.length then none else parseDecimal (2 ^ 64) digits
  else none

/-- `latest_marker_id_on_disk` over the names in the job's directory. -/
def latestMarkerIdOnDisk (names : List (List Char)) (marker : List Char)
    (restored : Option RestoredRecord) : Nat :=
  names.foldl
    (fun latest name =>
      match markerId marker name with
      | none => latest
      | some id => if eligible restored id && decide (latest < id) then id else latest)
    0

/-- The scan of the names is the newest of the ids they spell. -/
theorem latestMarkerIdOnDisk_eq (names : List (List Char)) (marker : List Char)
    (restored : Option RestoredRecord) :
    latestMarkerIdOnDisk names marker restored =
      latestId (names.filterMap (markerId marker)) restored := by
  have hkey : ∀ b, names.foldl
      (fun latest name =>
        match markerId marker name with
        | none => latest
        | some id => if eligible restored id && decide (latest < id) then id else latest) b =
      ((names.filterMap (markerId marker)).filter (eligible restored)).foldl max b := by
    induction names with
    | nil =>
        intro b
        rfl
    | cons name names ih =>
        intro b
        rw [List.foldl_cons, ih]
        cases hid : markerId marker name with
        | none => rw [List.filterMap_cons_none hid]
        | some id =>
            rw [List.filterMap_cons_some hid]
            dsimp only
            by_cases hel : eligible restored id = true
            · rw [List.filter_cons_of_pos hel, List.foldl_cons, hel, Bool.true_and]
              by_cases hlt : b < id
              · rw [if_pos (decide_eq_true hlt), max_eq_right hlt.le]
              · rw [if_neg (by simpa using hlt), max_eq_left (not_lt.mp hlt)]
            · rw [List.filter_cons_of_neg hel, if_neg (by simp [hel])]
  exact hkey 0

def completedPrefix : List Char := "COMPLETED-".toList

/-- The marker of a checkpoint spells its id and no other. -/
theorem eq_of_markerId {id' : Nat}
    (h : markerId completedPrefix (completedPrefix ++ decimal id) = some id') : id' = id := by
  have hvalue : Nat.ofDigitChars 10 (decimal id) 0 = id := Nat.ofDigitChars_ten_toDigits
  unfold markerId parseDecimal at h
  simp only [List.drop_left, hvalue] at h
  split at h
  · split at h
    · exact absurd h (by simp)
    · split at h
      · exact (Option.some.inj h).symm
      · exact absurd h (by simp)
  · exact absurd h (by simp)

/-! ## Deploys -/

/-- The record in the store, with the epoch of its writer. -/
structure StoredRecord where
  epoch : Nat
  record : RestoredRecord

/-- The fields of `JobState` a restart chooses its restore point from. -/
structure JobState where
  /-- The epoch of the coordinator that runs the job. -/
  epoch : Nat
  nextCheckpointId : Nat
  latestCompletedCheckpointId : Nat := 0
  /-- `checkpoint.restore_from_dir` is not empty. -/
  hasRestoreFromDir : Bool := false
  restoreFromCheckpointId : Nat := 0

/-- The restore point of `restart_job_locked_`, for a job that is not tracked. -/
def JobState.restorePoint (job : JobState) : Nat :=
  if job.latestCompletedCheckpointId = 0 ∧ job.hasRestoreFromDir then job.restoreFromCheckpointId
  else job.latestCompletedCheckpointId

/-- A deploy that ran. -/
structure Deploy where
  restore : Nat
  next : Nat
  /-- The markers that were durable when it was deployed. -/
  durable : List Nat

structure System where
  record : Option StoredRecord
  /-- The names in the job's directory. -/
  names : List (List Char)
  /-- The id on the TRIGGERED record. -/
  triggeredOnRecord : Nat
  job : JobState
  /-- The deploys before the current one, oldest first. -/
  earlier : List Deploy
  current : Deploy
  /-- The ids triggered, with the deploy whose run triggered them. -/
  triggered : List (Nat × Nat)

namespace System

/-- Every deploy of the job, oldest first. -/
def deploys (s : System) : List Deploy := s.earlier ++ [s.current]

/-- The checkpoints whose COMPLETED marker is in the directory. -/
def markers (s : System) : List Nat := s.names.filterMap (markerId completedPrefix)

/-- A fresh submit: nothing on disk, nothing restored and no record put. -/
def fresh (epoch : Nat) : System where
  record := none
  names := []
  triggeredOnRecord := 0
  job := { epoch, nextCheckpointId := 1 }
  earlier := []
  current := { restore := 0, next := 1, durable := [] }
  triggered := []

/-- `record_restore_point`: the fenced put. -/
def recordRestorePoint (s : System) (epoch : Nat) (record : RestoredRecord) (fate : PutFate) :
    Option StoredRecord × PutReply :=
  if metadataWriteAllowed epoch ((s.record.map StoredRecord.epoch).getD 0) then
    match fate with
    | .reported => (some { epoch, record }, .landed)
    | .unreported => (some { epoch, record }, .refused)
    | .lost => (s.record, .refused)
    | .threw landed => (if landed then some { epoch, record } else s.record, .failed)
  else
    match fate with
    | .threw _ => (s.record, .failed)
    | _ => (s.record, .refused)

/-- The deploy goes ahead once its record is reported to have landed. -/
def deploy (s : System) (record : RestoredRecord) (job : JobState) (fate : PutFate) : System :=
  match s.recordRestorePoint job.epoch record fate with
  | (stored, .landed) =>
      { s with
        record := stored
        job
        earlier := s.earlier ++ [s.current]
        current := { restore := record.restore, next := record.next, durable := s.markers } }
  | (stored, _) => { s with record := stored }

/-- A new coordinator takes the job over; `floor` is the newest id a snapshot
file names. -/
def takeover (s : System) (epoch floor : Nat) (fate : PutFate) : System :=
  let restore := latestMarkerIdOnDisk s.names completedPrefix (s.record.map StoredRecord.record)
  let idFloor := max restore
    (max (latestMarkerIdOnDisk s.names completedPrefix none) (max floor s.triggeredOnRecord))
  let next := max (idFloor + 1) (restore + 1)
  s.deploy { restore, next }
    { epoch, nextCheckpointId := idFloor + 1, hasRestoreFromDir := decide (0 < restore),
      restoreFromCheckpointId := restore }
    fate

/-- The running coordinator restarts the job. -/
def restart (s : System) (fate : PutFate) : System :=
  let restore := s.job.restorePoint
  s.deploy { restore, next := max s.job.nextCheckpointId (restore + 1) } s.job fate

/-- The current run triggers a checkpoint, its id claimed on record. -/
def trigger (s : System) : System :=
  let id := s.job.nextCheckpointId
  { s with
    triggeredOnRecord := id
    job := { s.job with nextCheckpointId := id + 1 }
    triggered := s.triggered ++ [(id, s.earlier.length)] }

/-- A file appears in the directory. -/
def named (s : System) (name : List Char) : System := { s with names := s.names ++ [name] }

/-- A marker is put. -/
def put (s : System) (id : Nat) : System := s.named (completedPrefix ++ decimal id)

/-- The hold after the put of a marker, in the run the checkpoint completed in. -/
def advance (s : System) (id : Nat) : System :=
  { s with
    job :=
      { s.job with
        latestCompletedCheckpointId := max s.job.latestCompletedCheckpointId id } }

end System

inductive Event
  | takeover (epoch floor : Nat) (fate : PutFate)
  | restart (fate : PutFate)
  | trigger
  | put (id : Nat)
  /-- A writer that was killed leaves its temporary file. -/
  | leave (name : List Char)
  | advance (id : Nat)

def step (s : System) : Event → System
  | .takeover epoch floor fate => s.takeover epoch floor fate
  | .restart fate => s.restart fate
  | .trigger => s.trigger
  | .put id => s.put id
  | .leave name => s.named name
  | .advance id => s.advance id

/-- Markers are put for checkpoints that were triggered, by whatever run, and
other files are no whole markers.  The memory of the running coordinator
advances to checkpoints of the current run whose marker is durable. -/
def completes (_ : List Event) (s : System) : Event → Prop
  | .put id => ∃ run, (id, run) ∈ s.triggered
  | .leave name => markerId completedPrefix name = none
  | .advance id => (id, s.earlier.length) ∈ s.triggered ∧ id ∈ s.markers
  | _ => True

/-- A checkpoint of an earlier run, above the restore point of that run's
successor, whose marker was not durable when the successor was deployed. -/
def PassedOver (s : System) (id : Nat) : Prop :=
  ∃ run successor, (id, run) ∈ s.triggered ∧ s.deploys[run + 1]? = some successor ∧
    successor.restore < id ∧ id ∉ successor.durable

/-! ## The invariant -/

/-- A restore point the next deploy may have: the current one, or a completed
checkpoint of the current run. -/
def Follows (s : System) (restore : Nat) : Prop :=
  restore = s.current.restore ∨
    s.current.restore < restore ∧ restore ∈ s.markers ∧ (restore, s.earlier.length) ∈ s.triggered

/-- The record and the memory agree with the deploys. -/
structure Agrees (s : System) : Prop where
  /-- A run numbers above its restore point. -/
  numbers : s.current.restore < s.current.next
  next : s.current.next ≤ s.job.nextCheckpointId
  claimed : s.triggeredOnRecord < s.job.nextCheckpointId
  onRecord : ∀ id run, (id, run) ∈ s.triggered → id ≤ s.triggeredOnRecord
  runs : ∀ id run, (id, run) ∈ s.triggered → run ≤ s.earlier.length
  before : ∀ id run, (id, run) ∈ s.triggered → run < s.earlier.length → id < s.current.next
  own : ∀ id, (id, s.earlier.length) ∈ s.triggered → s.current.next ≤ id
  markers : ∀ id ∈ s.markers, ∃ run, (id, run) ∈ s.triggered
  restored : s.current.restore = 0 ∨ s.current.restore ∈ s.markers
  rises : ∀ d ∈ s.earlier, d.restore ≤ s.current.restore
  unrecorded : s.record = none → s.earlier = [] ∧ s.current.restore = 0
  recorded : ∀ stored, s.record = some stored →
    Follows s stored.record.restore ∧
      ∀ id run, (id, run) ∈ s.triggered → run < s.earlier.length → id < stored.record.next
  memory : Follows s s.job.restorePoint
  safe : ∀ id, PassedOver s id → ∀ d ∈ s.deploys, d.restore ≠ id

variable {s : System} {restore : Nat}

theorem Follows.le (h : Follows s restore) : s.current.restore ≤ restore := by
  rcases h with rfl | h
  · exact le_rfl
  · exact h.1.le

section

variable (hs : Agrees s)
include hs

theorem Follows.zero_or_mem (h : Follows s restore) : restore = 0 ∨ restore ∈ s.markers := by
  rcases h with rfl | h
  · exact hs.restored
  · exact .inr h.2.1

theorem Agrees.follows_of_mem (hid : id ∈ s.markers)
    (hnew : ∀ run, (id, run) ∈ s.triggered → ¬ run < s.earlier.length) : Follows s id := by
  obtain ⟨run, hmem⟩ := hs.markers id hid
  obtain rfl : run = s.earlier.length :=
    le_antisymm (hs.runs id run hmem) (not_lt.mp (hnew run hmem))
  exact .inr ⟨lt_of_lt_of_le hs.numbers (hs.own id hmem), hid, hmem⟩

/-- The recorded restore point can always be chosen again. -/
theorem Agrees.recorded_le_latestId {stored : StoredRecord} (hrec : s.record = some stored) :
    stored.record.restore ≤ latestId s.markers (some stored.record) := by
  rcases (hs.recorded stored hrec).1.zero_or_mem hs with hnone | hin
  · rw [hnone]
    exact Nat.zero_le _
  · refine le_latestId hin ?_
    simp [eligible, RestoredRecord.passesOver]

/-- What the disk offers past the recorded restore point is a checkpoint of the
current run: the record passes every other one over. -/
theorem Agrees.follows_latestId :
    Follows s (latestId s.markers (s.record.map StoredRecord.record)) := by
  cases hrec : s.record with
  | none =>
      obtain ⟨hempty, hzero⟩ := hs.unrecorded hrec
      rcases latestId_mem s.markers none with hnone | ⟨hmem, -⟩
      · left
        rw [hzero]
        exact hnone
      · refine hs.follows_of_mem hmem ?_
        intro run _ hlt
        rw [hempty] at hlt
        exact absurd hlt (Nat.not_lt_zero _)
  | some stored =>
      obtain ⟨hfollows, hbelow⟩ := hs.recorded stored hrec
      rw [Option.map_some]
      rcases (hs.recorded_le_latestId hrec).eq_or_lt with heq | hlt
      · rw [← heq]
        exact hfollows
      · rcases latestId_mem s.markers (some stored.record) with hnone | ⟨hmem, heligible⟩
        · rw [hnone] at hlt
          exact absurd hlt (Nat.not_lt_zero _)
        · -- above the recorded restore point and not passed over, it is above `next`
          have habove : stored.record.next ≤ latestId s.markers (some stored.record) := by
            simp only [eligible, RestoredRecord.passesOver, Option.any_some, Bool.not_eq_true',
              Bool.and_eq_false_iff, decide_eq_false_iff_not, not_lt] at heligible
            rcases heligible with hle | hle
            · exact absurd hlt (not_lt.mpr hle)
            · exact hle
          refine hs.follows_of_mem hmem ?_
          intro run htriggered hrun
          exact absurd (hbelow _ run htriggered hrun) (not_lt.mpr habove)

/-- What is passed over after a deploy was passed over before it, or lies above
its restore point in the run it ends. -/
theorem passedOver_deploy {s' : System} {d : Deploy} (h : PassedOver s' id)
    (hdeploys : s'.deploys = s.deploys ++ [d]) (htriggered : s'.triggered = s.triggered) :
    (PassedOver s id ∧ ∃ run, (id, run) ∈ s.triggered ∧ run < s.earlier.length) ∨
      d.restore < id := by
  obtain ⟨run, successor, hmem, hget, hlt, hnot⟩ := h
  rw [htriggered] at hmem
  rw [hdeploys] at hget
  have hlen : s.deploys.length = s.earlier.length + 1 := by simp [System.deploys]
  rcases (hs.runs id run hmem).lt_or_eq with hrun | rfl
  · left
    rw [List.getElem?_append_left (by rw [hlen]; omega)] at hget
    exact ⟨⟨run, successor, hmem, hget, hlt, hnot⟩, run, hmem, hrun⟩
  · right
    rw [← hlen, List.getElem?_concat_length] at hget
    obtain rfl := Option.some.inj hget
    exact hlt

theorem Agrees.deploy {record : RestoredRecord} {job : JobState}
    (hfollows : Follows s record.restore) (hnumbers : record.restore < record.next)
    (habove : s.triggeredOnRecord < record.next) (hnext : record.next ≤ job.nextCheckpointId)
    (hpoint : job.restorePoint = record.restore) (fate : PutFate) :
    Agrees (s.deploy record job fate) := by
  -- an attempt that does not run leaves at most its record behind
  have hleft : ∀ stored, stored = s.record ∨ stored = some { epoch := job.epoch, record } →
      Agrees { s with record := stored } := by
    intro stored hstored
    refine { hs with unrecorded := ?_, recorded := ?_ }
    · intro hnone
      rcases hstored with rfl | rfl
      · exact hs.unrecorded hnone
      · exact absurd hnone (by simp)
    · intro put hput
      rcases hstored with rfl | rfl
      · exact hs.recorded put hput
      · obtain rfl := Option.some.inj hput
        exact ⟨hfollows, fun id run hmem _ => lt_of_le_of_lt (hs.onRecord id run hmem) habove⟩
  have hran : Agrees
      { s with
        record := some { epoch := job.epoch, record }
        job
        earlier := s.earlier ++ [s.current]
        current := { restore := record.restore, next := record.next, durable := s.markers } } := by
    have hlength : (s.earlier ++ [s.current]).length = s.earlier.length + 1 := by simp
    constructor
    case numbers => exact hnumbers
    case next => exact hnext
    case claimed => exact lt_of_lt_of_le habove hnext
    case onRecord => exact hs.onRecord
    case runs =>
      intro id run hmem
      rw [hlength]
      exact Nat.le_succ_of_le (hs.runs id run hmem)
    case before =>
      intro id run hmem _
      exact lt_of_le_of_lt (hs.onRecord id run hmem) habove
    case own =>
      intro id hmem
      rw [hlength] at hmem
      exact absurd (hs.runs id _ hmem) (Nat.not_succ_le_self _)
    case markers => exact hs.markers
    case restored => exact Follows.zero_or_mem (s := s) hs hfollows
    case rises =>
      intro d hd
      rcases List.mem_append.mp hd with hd | hd
      · exact (hs.rises d hd).trans hfollows.le
      · rw [List.mem_singleton.mp hd]
        exact hfollows.le
    case unrecorded =>
      intro hnone
      exact absurd hnone (by simp)
    case recorded =>
      intro stored hstored
      obtain rfl := Option.some.inj hstored
      exact ⟨.inl rfl, fun id run hmem _ => lt_of_le_of_lt (hs.onRecord id run hmem) habove⟩
    case memory => exact .inl hpoint
    case safe =>
      intro id hpassed d hd
      rcases passedOver_deploy hs hpassed rfl rfl with ⟨hbefore, run, hmem, hrun⟩ | hlt
      · rcases List.mem_append.mp hd with hd | hd
        · exact hs.safe id hbefore d hd
        · rw [List.mem_singleton.mp hd]
          dsimp only
          rcases hfollows with heq | ⟨-, -, hown⟩
          · rw [heq]
            exact hs.safe id hbefore s.current
              (List.mem_append_right _ (List.mem_singleton.mpr rfl))
          · have hid := hs.before id run hmem hrun
            have hrestore := hs.own _ hown
            exact (lt_of_lt_of_le hid hrestore).ne'
      · refine (lt_of_le_of_lt ?_ hlt).ne
        rcases List.mem_append.mp hd with hd | hd
        · rcases List.mem_append.mp hd with hd | hd
          · exact (hs.rises d hd).trans hfollows.le
          · rw [List.mem_singleton.mp hd]
            exact hfollows.le
        · rw [List.mem_singleton.mp hd]
  unfold System.deploy System.recordRestorePoint
  split_ifs with hallowed
  · cases fate with
    | reported => exact hran
    | unreported => exact hleft _ (.inr rfl)
    | lost => exact hleft _ (.inl rfl)
    | threw landed =>
        cases landed with
        | true => exact hleft _ (.inr rfl)
        | false => exact hleft _ (.inl rfl)
  · cases fate with
    | reported => exact hleft _ (.inl rfl)
    | unreported => exact hleft _ (.inl rfl)
    | lost => exact hleft _ (.inl rfl)
    | threw landed => exact hleft _ (.inl rfl)

/-- The restore point of a deploy lies below every id still to be triggered. -/
theorem Follows.lt_next (h : Follows s restore) : restore < s.job.nextCheckpointId := by
  rcases h with rfl | h
  · exact lt_of_lt_of_le hs.numbers hs.next
  · exact lt_of_le_of_lt (hs.onRecord _ _ h.2.2) hs.claimed

theorem Agrees.takeover (epoch floor : Nat) (fate : PutFate) :
    Agrees (s.takeover epoch floor fate) := by
  have hscan : ∀ restored, latestMarkerIdOnDisk s.names completedPrefix restored =
      latestId s.markers restored := latestMarkerIdOnDisk_eq s.names completedPrefix
  unfold System.takeover
  simp only [hscan]
  have hfollows := hs.follows_latestId
  generalize latestId s.markers (s.record.map StoredRecord.record) = restore at hfollows ⊢
  generalize hfloor : max restore (max (latestId s.markers none) (max floor s.triggeredOnRecord)) =
    idFloor
  have hrestore : restore ≤ idFloor := by
    rw [← hfloor]
    exact le_max_left _ _
  have htriggered : s.triggeredOnRecord ≤ idFloor := by
    rw [← hfloor]
    exact le_max_of_le_right (le_max_of_le_right (le_max_right _ _))
  refine hs.deploy hfollows ?_ ?_ ?_ ?_ fate
  · exact lt_of_lt_of_le (Nat.lt_succ_self restore) (le_max_right _ _)
  · exact lt_of_lt_of_le (Nat.lt_succ_of_le htriggered) (le_max_left _ _)
  · exact max_le le_rfl (Nat.succ_le_succ hrestore)
  · rcases Nat.eq_zero_or_pos restore with hzero | hpos
    · simp [JobState.restorePoint, hzero]
    · simp [JobState.restorePoint, hpos]

theorem Agrees.restart (fate : PutFate) : Agrees (s.restart fate) := by
  have hlt := hs.memory.lt_next hs
  have hmax : max s.job.nextCheckpointId (s.job.restorePoint + 1) = s.job.nextCheckpointId :=
    max_eq_left hlt
  unfold System.restart
  dsimp only
  rw [hmax]
  exact hs.deploy hs.memory hlt hs.claimed le_rfl rfl fate

/-- A step that adds nothing to what the deploys and the triggers are. -/
theorem Agrees.safe_of_eq {s' : System} (hearlier : s'.earlier = s.earlier)
    (hcurrent : s'.current = s.current) (htriggered : s'.triggered = s.triggered) :
    ∀ id, PassedOver s' id → ∀ d ∈ s'.deploys, d.restore ≠ id := by
  have hdeploys : s'.deploys = s.deploys := by
    rw [System.deploys, System.deploys, hearlier, hcurrent]
  intro id h
  rw [hdeploys]
  refine hs.safe id ?_
  obtain ⟨run, successor, hmem, hget, hlt, hnot⟩ := h
  rw [htriggered] at hmem
  rw [hdeploys] at hget
  exact ⟨run, successor, hmem, hget, hlt, hnot⟩

theorem Agrees.trigger : Agrees s.trigger := by
  have hfollows : ∀ {restore}, Follows s restore → Follows s.trigger restore := by
    intro restore h
    rcases h with h | ⟨hlt, hmem, hrun⟩
    · exact .inl h
    · exact .inr ⟨hlt, hmem, List.mem_append_left _ hrun⟩
  have hcases : ∀ {id run}, (id, run) ∈ s.trigger.triggered →
      (id, run) ∈ s.triggered ∨ id = s.job.nextCheckpointId ∧ run = s.earlier.length := by
    intro id run hmem
    rcases List.mem_append.mp hmem with hmem | hmem
    · exact .inl hmem
    · right
      simpa using hmem
  constructor
  case numbers => exact hs.numbers
  case next => exact Nat.le_succ_of_le hs.next
  case claimed => exact Nat.lt_succ_self _
  case onRecord =>
    intro id run hmem
    rcases hcases hmem with hold | ⟨rfl, -⟩
    · exact (lt_of_le_of_lt (hs.onRecord id run hold) hs.claimed).le
    · exact le_rfl
  case runs =>
    intro id run hmem
    rcases hcases hmem with hold | ⟨-, rfl⟩
    · exact hs.runs id run hold
    · exact le_rfl
  case before =>
    intro id run hmem hrun
    rcases hcases hmem with hold | ⟨-, rfl⟩
    · exact hs.before id run hold hrun
    · exact absurd hrun (lt_irrefl _)
  case own =>
    intro id hmem
    rcases hcases hmem with hold | ⟨rfl, -⟩
    · exact hs.own id hold
    · exact hs.next
  case markers =>
    intro id hid
    obtain ⟨run, hmem⟩ := hs.markers id hid
    exact ⟨run, List.mem_append_left _ hmem⟩
  case restored => exact hs.restored
  case rises => exact hs.rises
  case unrecorded => exact hs.unrecorded
  case recorded =>
    intro stored hstored
    obtain ⟨hrestore, hbelow⟩ := hs.recorded stored hstored
    refine ⟨hfollows hrestore, ?_⟩
    intro id run hmem hrun
    rcases hcases hmem with hold | ⟨-, rfl⟩
    · exact hbelow id run hold hrun
    · exact absurd hrun (lt_irrefl _)
  case memory => exact hfollows hs.memory
  case safe =>
    intro id hpassed
    refine hs.safe id ?_
    obtain ⟨run, successor, hmem, hget, hlt, hnot⟩ := hpassed
    rcases hcases hmem with hold | ⟨-, rfl⟩
    · exact ⟨run, successor, hold, hget, hlt, hnot⟩
    · -- a checkpoint of the current run has no successor yet
      have hnone : s.trigger.deploys[s.earlier.length + 1]? = none := by
        simp [System.deploys, System.trigger]
      rw [hnone] at hget
      exact absurd hget (by simp)

theorem Agrees.named {name : List Char}
    (h : ∀ id, markerId completedPrefix name = some id → ∃ run, (id, run) ∈ s.triggered) :
    Agrees (s.named name) := by
  have hmarkers : (s.named name).markers =
      s.markers ++ [name].filterMap (markerId completedPrefix) := List.filterMap_append
  have hkept : ∀ {id}, id ∈ s.markers → id ∈ (s.named name).markers := by
    intro id hid
    rw [hmarkers]
    exact List.mem_append_left _ hid
  have hfollows : ∀ {restore}, Follows s restore → Follows (s.named name) restore := by
    intro restore h
    rcases h with h | ⟨hlt, hmem, hrun⟩
    · exact .inl h
    · exact .inr ⟨hlt, hkept hmem, hrun⟩
  refine
    { hs with
      markers := ?_, restored := hs.restored.imp_right hkept, recorded := ?_
      memory := hfollows hs.memory
      safe := hs.safe_of_eq rfl rfl rfl }
  · intro id hid
    rw [hmarkers] at hid
    rcases List.mem_append.mp hid with hold | hnew
    · exact hs.markers id hold
    · obtain ⟨name', hname, hspells⟩ := List.mem_filterMap.mp hnew
      rw [List.mem_singleton.mp hname] at hspells
      exact h id hspells
  · intro stored hstored
    exact ⟨hfollows (hs.recorded stored hstored).1, (hs.recorded stored hstored).2⟩

theorem Agrees.advance (hrun : (id, s.earlier.length) ∈ s.triggered) (hmarker : id ∈ s.markers) :
    Agrees (s.advance id) := by
  have hlt : s.current.restore < id := lt_of_lt_of_le hs.numbers (hs.own id hrun)
  have hid : id ≠ 0 := by
    intro hzero
    rw [hzero] at hlt
    exact absurd hlt (Nat.not_lt_zero _)
  refine { hs with memory := ?_, safe := hs.safe_of_eq rfl rfl rfl }
  have hpoint : (s.advance id).job.restorePoint = max s.job.latestCompletedCheckpointId id := by
    have hne : max s.job.latestCompletedCheckpointId id ≠ 0 := by
      intro hzero
      exact hid (Nat.le_zero.mp (hzero ▸ le_max_right _ _))
    simp [JobState.restorePoint, System.advance, hne]
  rw [hpoint]
  rcases le_or_gt s.job.latestCompletedCheckpointId id with hle | hgt
  · rw [max_eq_right hle]
    exact .inr ⟨hlt, hmarker, hrun⟩
  · rw [max_eq_left hgt.le]
    have hold : s.job.restorePoint = s.job.latestCompletedCheckpointId := by
      have hne : s.job.latestCompletedCheckpointId ≠ 0 := Nat.ne_of_gt (Nat.zero_lt_of_lt hgt)
      simp [JobState.restorePoint, hne]
    rw [← hold]
    exact hs.memory

theorem Agrees.step {es : List Event} {e : Event} (hok : completes es s e) : Agrees (step s e) := by
  cases e with
  | takeover epoch floor fate => exact hs.takeover epoch floor fate
  | restart fate => exact hs.restart fate
  | trigger => exact hs.trigger
  | put id =>
      refine hs.named fun id' hspells => ?_
      rw [eq_of_markerId hspells]
      exact hok
  | leave name => exact hs.named fun id hspells => absurd (hok.symm.trans hspells) (by simp)
  | advance id => exact hs.advance hok.1 hok.2

end

theorem agrees_fresh (epoch : Nat) : Agrees (System.fresh epoch) := by
  constructor <;>
    simp [System.fresh, System.markers, System.deploys, Follows, JobState.restorePoint, PassedOver]

/-- No deploy restores from a checkpoint that was passed over. -/
theorem passed_over_never_restored {epoch : Nat} {es : List Event} {s : System}
    (h : Runs step completes (System.fresh epoch) es s) {id : Nat} (hpassed : PassedOver s id) :
    ∀ d ∈ s.deploys, d.restore ≠ id := by
  have hs : Agrees s := h.induct (I := fun _ s => Agrees s) (agrees_fresh epoch)
    fun _ _ _ _ hs hok => hs.step hok
  exact hs.safe id hpassed

/-- Checkpoint 2 is still being put when the job restarts from checkpoint 1; a temporary file
of it is left behind. -/
def lateMarker : List Event :=
  [.trigger, .trigger, .put 1, .advance 1, .restart .reported,
    .leave (completedPrefix ++ "2.tmp.74715.0".toList), .put 2, .takeover 2 0 .reported]

theorem late_marker_passed_over :
    (lateMarker.foldl step (System.fresh 1)).deploys.map Deploy.restore = [0, 1, 1] ∧
      ∀ d ∈ (lateMarker.foldl step (System.fresh 1)).deploys, d.restore ≠ 2 := by
  have hallowed : Runs.Allowed step completes [] (System.fresh 1) lateMarker := by
    have hleft : markerId completedPrefix (completedPrefix ++ "2.tmp.74715.0".toList) = none := by
      decide
    refine ⟨trivial, trivial, ⟨0, ?_⟩, ⟨?_, ?_⟩, trivial, hleft, ⟨0, ?_⟩, trivial, trivial⟩ <;>
      decide
  refine ⟨by decide, passed_over_never_restored (Runs.of_allowed hallowed) ?_⟩
  exact ⟨0, { restore := 1, next := 3, durable := [1] }, by decide, rfl, by decide, by decide⟩

end Clink.Ports.RestoreRecord

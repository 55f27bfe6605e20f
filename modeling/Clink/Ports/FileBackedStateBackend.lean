import Clink.Ports.CheckpointIntegrity

/-!
# Publishing file-backed checkpoints

The embedding of `write_and_rename_`, `purge_checkpoint` and `verify_checkpoint`
of `FileBackedStateBackend` (`include/clink/state/file_backed_state_backend.hpp`)
and of `write_fsync_rename` (`include/clink/state/durable_file_write.hpp`), as
the file operations of any number of calls on one directory.  A call opens a
temporary file of its own, writes it, renames it to the checkpoint's payload,
and does the same for the sidecar that certifies the payload.  Every one of
these is a step of its own, calls interleave in any order, and the process may
die between any two steps.

A rename is atomic, and a call's temporary files are its own, so each of the two
files is always whole (`Private.renameTemp_eq`).  The last section lists all a
step can change.
-/

namespace Clink.Ports.FileBackedStateBackend

open Clink.Verified
open Clink.Ports.CheckpointIntegrity

/-! ## The directory -/

/-- The files of one kind: those at their final names and the temporary ones. -/
structure Files (α : Type) where
  final : UInt64 → Option (List α)
  temp : Nat → Option (List α)

namespace Files

variable {α : Type}

def empty : Files α where
  final _ := none
  temp _ := none

/-- `open` with `O_CREAT | O_TRUNC`. -/
def openTemp (f : Files α) (seq : Nat) : Files α :=
  { f with temp := Function.update f.temp seq (some []) }

/-- `write` of one chunk at the end. -/
def append (f : Files α) (seq : Nat) (chunk : List α) : Files α :=
  { f with temp := Function.update f.temp seq ((f.temp seq).map (· ++ chunk)) }

/-- `rename` of a temporary file that holds `data`. -/
def rename (f : Files α) (seq : Nat) (id : UInt64) (data : List α) : Files α where
  final := Function.update f.final id (some data)
  temp := Function.update f.temp seq none

/-- `remove`. -/
def remove (f : Files α) (id : UInt64) : Files α :=
  { f with final := Function.update f.final id none }

end Files

/-- Where a call of `write_and_rename_` stands: its payload's temporary file has
its first `off` bytes, the payload is in place, or the sidecar's temporary file
has its first `off` characters. -/
inductive Stage where
  | part (off : Nat)
  | published
  | sidecar (seq off : Nat)
  deriving DecidableEq

/-- A call of `write_and_rename_` that has not returned; its number is the one
in the name of its temporary file. -/
structure Writer where
  call : Nat
  id : UInt64
  bytes : List UInt8
  stage : Stage
  deriving DecidableEq

/-- The body of the sidecar the call writes. -/
def Writer.body (w : Writer) : List Char := (checkpointMeta w.id w.bytes).serialise

/-- The call has renamed its payload into place. -/
def Writer.Renamed (w : Writer) : Prop := ∀ off, w.stage ≠ .part off

/-- A directory, the calls at work on it, and of every checkpoint the bytes
written under it, those of the calls that returned, whether a call died since
the last one returned, and whether it was purged. -/
structure Directory where
  snaps : Files UInt8
  metas : Files Char
  partSeq : Nat
  metaSeq : Nat
  writers : List Writer
  purging : List UInt64
  written : UInt64 → List (List UInt8)
  returned : UInt64 → List (List UInt8)
  died : UInt64 → Bool
  purged : UInt64 → Bool

/-- `path_for` in the directory `dir`. -/
def pathFor (dir : List Char) (id : UInt64) : List Char :=
  dir ++ "/checkpoint-".toList ++ decimal id.toNat ++ ".snap".toList

inductive Event where
  /-- `write_and_rename_` is called: it opens its temporary file. -/
  | persist (id : UInt64) (bytes : List UInt8)
  /-- The open temporary file of a call takes `n` more. -/
  | write (call n : Nat)
  /-- A call renames its temporary file, written in full. -/
  | rename (call : Nat)
  /-- `write_checkpoint_meta` opens the sidecar's temporary file. -/
  | openMeta (call : Nat)
  /-- `purge_checkpoint` is called: it removes the sidecar. -/
  | purge (id : UInt64)
  /-- A purge removes the payload. -/
  | purgePayload (id : UInt64)
  /-- The process dies; the counters start again. -/
  | crash

namespace Directory

def empty : Directory where
  snaps := .empty
  metas := .empty
  partSeq := 0
  metaSeq := 0
  writers := []
  purging := []
  written _ := []
  returned _ := []
  died _ := false
  purged _ := false

/-- `verify_checkpoint` of the directory `dir`. -/
def verify (s : Directory) (dir : List Char) (id : UInt64) : VerifyResult :=
  verifyCheckpoint (pathFor dir id) (s.snaps.final id) (s.metas.final id)

def writer? (s : Directory) (call : Nat) : Option Writer := s.writers.find? (·.call = call)

/-- The call goes on at another stage. -/
def setStage (s : Directory) (call : Nat) (stage : Stage) : Directory :=
  { s with writers := s.writers.map fun w => if w.call = call then { w with stage } else w }

/-- The call is over. -/
def endCall (s : Directory) (call : Nat) : Directory :=
  { s with writers := s.writers.filter (·.call ≠ call) }

def persist (s : Directory) (id : UInt64) (bytes : List UInt8) : Directory :=
  { s with
    snaps := s.snaps.openTemp s.partSeq
    partSeq := s.partSeq + 1
    writers := s.writers ++ [⟨s.partSeq, id, bytes, .part 0⟩]
    written := Function.update s.written id (bytes :: s.written id) }

def writeChunk (s : Directory) (w : Writer) (n : Nat) : Directory :=
  match w.stage with
  | .part off =>
      { s.setStage w.call (.part (off + n)) with
        snaps := s.snaps.append w.call ((w.bytes.drop off).take n) }
  | .published => s
  | .sidecar seq off =>
      { s.setStage w.call (.sidecar seq (off + n)) with
        metas := s.metas.append seq ((w.body.drop off).take n) }

/-- The rename of a payload. -/
def publishPayload (s : Directory) (w : Writer) (data : List UInt8) : Directory :=
  { s.setStage w.call .published with snaps := s.snaps.rename w.call w.id data }

/-- The rename of a sidecar, after which the call returns. -/
def publishMeta (s : Directory) (w : Writer) (seq : Nat) (text : List Char) : Directory :=
  { s.endCall w.call with
    metas := s.metas.rename seq w.id text
    returned := Function.update s.returned w.id (w.bytes :: s.returned w.id)
    died := Function.update s.died w.id false }

/-- A call renames its temporary file once all of it is written; it throws
where the file is gone. -/
def renameTemp (s : Directory) (w : Writer) : Directory :=
  match w.stage with
  | .part off =>
      if w.bytes.length ≤ off then
        match s.snaps.temp w.call with
        | some data => s.publishPayload w data
        | none => s.endCall w.call
      else s
  | .published => s
  | .sidecar seq off =>
      if w.body.length ≤ off then
        match s.metas.temp seq with
        | some text => s.publishMeta w seq text
        | none => s.endCall w.call
      else s

def openMeta (s : Directory) (w : Writer) : Directory :=
  match w.stage with
  | .published =>
      { s.setStage w.call (.sidecar s.metaSeq 0) with
        metas := s.metas.openTemp s.metaSeq
        metaSeq := s.metaSeq + 1 }
  | _ => s

def purge (s : Directory) (id : UInt64) : Directory :=
  { s with
    metas := s.metas.remove id
    purging := id :: s.purging
    purged := Function.update s.purged id true }

def purgePayload (s : Directory) (id : UInt64) : Directory :=
  if id ∈ s.purging then
    { s with snaps := s.snaps.remove id, purging := s.purging.erase id }
  else s

/-- The files stay; what was under way is gone. -/
def crash (s : Directory) : Directory :=
  { s with
    partSeq := 0
    metaSeq := 0
    writers := []
    purging := []
    died := fun id => s.died id || s.writers.any (·.id = id) }

def step (s : Directory) : Event → Directory
  | .persist id bytes => s.persist id bytes
  | .write call n => (s.writer? call).elim s (s.writeChunk · n)
  | .rename call => (s.writer? call).elim s s.renameTemp
  | .openMeta call => (s.writer? call).elim s s.openMeta
  | .purge id => s.purge id
  | .purgePayload id => s.purgePayload id
  | .crash => s.crash

/-! ## What a reader is promised -/

/-- Every write of the checkpoint has returned, one did, and it was not purged. -/
def Settled (s : Directory) (id : UInt64) : Prop :=
  s.returned id ≠ [] ∧ (∀ w ∈ s.writers, w.id ≠ id) ∧ s.died id = false ∧ s.purged id = false

/-- What `verify_checkpoint` may report: a settled checkpoint is valid and holds
the bytes of one of its writes, nothing is valid that was not written under the
checkpoint, and nothing is corrupt. -/
def VerifiesAt (s : Directory) (dir : List Char) (id : UInt64) : Prop :=
  (s.Settled id → (s.verify dir id).status = .valid ∧
      ∃ bytes ∈ s.returned id, s.snaps.final id = some bytes) ∧
    ((s.verify dir id).status = .valid → ∃ bytes ∈ s.written id, s.snaps.final id = some bytes) ∧
    (s.verify dir id).status ≠ .corrupt

def Verifies (s : Directory) (dir : List Char) : Prop := ∀ id, s.VerifiesAt dir id

/-! ## The calls and their temporary files -/

variable {s : Directory} {w : Writer}

theorem mem_writers_setStage {call : Nat} {stage : Stage} :
    w ∈ (s.setStage call stage).writers ↔
      (w ∈ s.writers ∧ w.call ≠ call) ∨
        ∃ v ∈ s.writers, v.call = call ∧ w = { v with stage } := by
  simp only [setStage, List.mem_map]
  constructor
  · rintro ⟨v, hv, rfl⟩
    by_cases hcall : v.call = call
    · rw [if_pos hcall]
      exact .inr ⟨v, hv, hcall, rfl⟩
    · rw [if_neg hcall]
      exact .inl ⟨hv, hcall⟩
  · rintro (⟨hw, hcall⟩ | ⟨v, hv, hcall, rfl⟩)
    · exact ⟨w, hw, if_neg hcall⟩
    · exact ⟨v, hv, if_pos hcall⟩

theorem mem_writers_endCall {call : Nat} :
    w ∈ (s.endCall call).writers ↔ w ∈ s.writers ∧ w.call ≠ call := by
  simp [endCall]

theorem mem_of_writer? {call : Nat} (h : s.writer? call = some w) : w ∈ s.writers ∧ w.call = call :=
  ⟨List.mem_of_find?_eq_some h, by simpa using List.find?_some h⟩

/-- Every call has a number of its own below the counter, and its open temporary
file, which no other call has open, holds what it wrote so far. -/
structure Private (s : Directory) : Prop where
  fresh : ∀ w ∈ s.writers, w.call < s.partSeq
  unique : ∀ w ∈ s.writers, ∀ v ∈ s.writers, w.call = v.call → w = v
  part : ∀ w ∈ s.writers, ∀ off, w.stage = .part off →
    s.snaps.temp w.call = some (w.bytes.take off)
  sidecar : ∀ w ∈ s.writers, ∀ seq off, w.stage = .sidecar seq off →
    seq < s.metaSeq ∧ s.metas.temp seq = some (w.body.take off)
  sidecarUnique : ∀ w ∈ s.writers, ∀ v ∈ s.writers, ∀ seq off off',
    w.stage = .sidecar seq off → v.stage = .sidecar seq off' → w.call = v.call

theorem take_add_drop {α : Type} (data : List α) (off n : Nat) :
    data.take off ++ (data.drop off).take n = data.take (off + n) := by
  rw [List.take_add]

section

variable (h : s.Private)
include h

theorem Private.persist (id : UInt64) (bytes : List UInt8) :
    (s.persist id bytes).Private where
  fresh := by
    intro w hw
    rcases List.mem_append.mp hw with hw | hw
    · exact (h.fresh w hw).trans (Nat.lt_succ_self _)
    · rw [List.mem_singleton.mp hw]
      exact Nat.lt_succ_self _
  unique := by
    intro w hw v hv hcall
    rcases List.mem_append.mp hw with hw | hw <;> rcases List.mem_append.mp hv with hv | hv
    · exact h.unique w hw v hv hcall
    · rw [List.mem_singleton.mp hv] at hcall
      exact absurd hcall (h.fresh w hw).ne
    · rw [List.mem_singleton.mp hw] at hcall
      exact absurd hcall.symm (h.fresh v hv).ne
    · rw [List.mem_singleton.mp hw, List.mem_singleton.mp hv]
  part := by
    intro w hw off hstage
    rcases List.mem_append.mp hw with hw | hw
    · change Function.update s.snaps.temp s.partSeq (some []) w.call = _
      rw [Function.update_of_ne (h.fresh w hw).ne]
      exact h.part w hw off hstage
    · rw [List.mem_singleton.mp hw] at hstage ⊢
      obtain rfl : 0 = off := Stage.part.inj hstage
      exact Function.update_self _ _ _
  sidecar := by
    intro w hw seq off hstage
    rcases List.mem_append.mp hw with hw | hw
    · exact h.sidecar w hw seq off hstage
    · rw [List.mem_singleton.mp hw] at hstage
      cases hstage
  sidecarUnique := by
    intro w hw v hv seq off off' hstage hstage'
    rcases List.mem_append.mp hw with hw | hw
    · rcases List.mem_append.mp hv with hv | hv
      · exact h.sidecarUnique w hw v hv seq off off' hstage hstage'
      · rw [List.mem_singleton.mp hv] at hstage'
        cases hstage'
    · rw [List.mem_singleton.mp hw] at hstage
      cases hstage

/-- A call that is over takes its temporary files with it. -/
theorem Private.endCall {s' : Directory} (call : Nat)
    (hwriters : s'.writers = (s.endCall call).writers) (hpart : s'.partSeq = s.partSeq)
    (hmeta : s'.metaSeq = s.metaSeq)
    (htemp : ∀ w ∈ s.writers, w.call ≠ call → s'.snaps.temp w.call = s.snaps.temp w.call)
    (hside : ∀ w ∈ s.writers, w.call ≠ call → ∀ seq off, w.stage = .sidecar seq off →
      s'.metas.temp seq = s.metas.temp seq) : s'.Private := by
  have hmem : ∀ w ∈ s'.writers, w ∈ s.writers ∧ w.call ≠ call := by
    intro w hw
    rw [hwriters] at hw
    exact mem_writers_endCall.mp hw
  refine ⟨?_, ?_, ?_, ?_, ?_⟩
  · intro w hw
    rw [hpart]
    exact h.fresh w (hmem w hw).1
  · intro w hw v hv
    exact h.unique w (hmem w hw).1 v (hmem v hv).1
  · intro w hw off hstage
    rw [htemp w (hmem w hw).1 (hmem w hw).2]
    exact h.part w (hmem w hw).1 off hstage
  · intro w hw seq off hstage
    rw [hmeta, hside w (hmem w hw).1 (hmem w hw).2 seq off hstage]
    exact h.sidecar w (hmem w hw).1 seq off hstage
  · intro w hw v hv
    exact h.sidecarUnique w (hmem w hw).1 v (hmem v hv).1

/-- A call goes on at another stage, with the temporary file of that stage. -/
theorem Private.setStage {s' : Directory} (hw : w ∈ s.writers)
    {stage : Stage} (hwriters : s'.writers = (s.setStage w.call stage).writers)
    (hpart : s'.partSeq = s.partSeq) (hmeta : s.metaSeq ≤ s'.metaSeq)
    (htemp : ∀ v ∈ s.writers, v.call ≠ w.call → s'.snaps.temp v.call = s.snaps.temp v.call)
    (hside : ∀ v ∈ s.writers, v.call ≠ w.call → ∀ seq off, v.stage = .sidecar seq off →
      s'.metas.temp seq = s.metas.temp seq)
    (hownPart : ∀ off, stage = .part off → s'.snaps.temp w.call = some (w.bytes.take off))
    (hownSide : ∀ seq off, stage = .sidecar seq off →
      seq < s'.metaSeq ∧ s'.metas.temp seq = some (w.body.take off))
    (hown : ∀ v ∈ s.writers, v.call ≠ w.call → ∀ seq off off', stage = .sidecar seq off →
      v.stage ≠ .sidecar seq off') : s'.Private := by
  have hmem : ∀ v ∈ s'.writers, (v ∈ s.writers ∧ v.call ≠ w.call) ∨ v = { w with stage } := by
    intro v hv
    rw [hwriters] at hv
    rcases mem_writers_setStage.mp hv with hv | ⟨u, hu, hcall, rfl⟩
    · exact .inl hv
    · rw [h.unique u hu w hw hcall]
      exact .inr rfl
  refine ⟨?_, ?_, ?_, ?_, ?_⟩
  · intro v hv
    rw [hpart]
    rcases hmem v hv with ⟨hv, -⟩ | rfl
    · exact h.fresh v hv
    · exact h.fresh w hw
  · intro v hv u hu hcall
    rcases hmem v hv with ⟨hv, hvw⟩ | rfl <;> rcases hmem u hu with ⟨hu, huw⟩ | rfl
    · exact h.unique v hv u hu hcall
    · exact absurd hcall hvw
    · exact absurd hcall.symm huw
    · rfl
  · intro v hv off hstage
    rcases hmem v hv with ⟨hv, hvw⟩ | rfl
    · rw [htemp v hv hvw]
      exact h.part v hv off hstage
    · exact hownPart off hstage
  · intro v hv seq off hstage
    rcases hmem v hv with ⟨hv, hvw⟩ | rfl
    · obtain ⟨hlt, htext⟩ := h.sidecar v hv seq off hstage
      rw [hside v hv hvw seq off hstage]
      exact ⟨hlt.trans_le hmeta, htext⟩
    · exact hownSide seq off hstage
  · intro v hv u hu seq off off' hstage hstage'
    rcases hmem v hv with ⟨hv, hvw⟩ | rfl <;> rcases hmem u hu with ⟨hu, huw⟩ | rfl
    · exact h.sidecarUnique v hv u hu seq off off' hstage hstage'
    · exact absurd hstage (hown v hv hvw seq off' off hstage')
    · exact absurd hstage' (hown u hu huw seq off off' hstage)
    · rfl

theorem Private.writeChunk (hw : w ∈ s.writers) (n : Nat) : (s.writeChunk w n).Private := by
  unfold Directory.writeChunk
  cases hstage : w.stage with
  | part off =>
      refine h.setStage hw rfl rfl le_rfl ?_ (fun _ _ _ _ _ _ => rfl) ?_ (by simp) (by simp)
      · intro v hv hcall
        exact Function.update_of_ne hcall _ _
      · intro off' heq
        obtain rfl := Stage.part.inj heq
        change Function.update s.snaps.temp w.call _ w.call = _
        rw [Function.update_self, h.part w hw off hstage, Option.map_some, take_add_drop]
  | published => exact h
  | sidecar seq off =>
      obtain ⟨hlt, htext⟩ := h.sidecar w hw seq off hstage
      -- another call's sidecar has another temporary file
      have hother : ∀ v ∈ s.writers, v.call ≠ w.call → ∀ off', v.stage ≠ .sidecar seq off' := by
        intro v hv hcall off' hv'
        exact hcall (h.sidecarUnique v hv w hw seq off' off hv' hstage)
      refine h.setStage hw rfl rfl le_rfl (fun _ _ _ => rfl) ?_ (by simp) ?_ ?_
      · intro v hv hcall seq' off' hv'
        refine Function.update_of_ne ?_ _ _
        rintro rfl
        exact hother v hv hcall off' hv'
      · intro seq' off' heq
        obtain ⟨rfl, rfl⟩ := Stage.sidecar.inj heq
        refine ⟨hlt, ?_⟩
        change Function.update s.metas.temp seq _ seq = _
        rw [Function.update_self, htext, Option.map_some, take_add_drop]
      · intro v hv hcall seq' off' off'' heq
        obtain ⟨rfl, -⟩ := Stage.sidecar.inj heq
        exact hother v hv hcall off''

theorem Private.openMeta (hw : w ∈ s.writers) : (s.openMeta w).Private := by
  unfold Directory.openMeta
  split
  next hstage =>
    refine h.setStage hw rfl rfl (Nat.le_succ _) (fun _ _ _ => rfl) ?_ (by simp) ?_ ?_
    · intro v hv hcall seq off hv'
      exact Function.update_of_ne (h.sidecar v hv seq off hv').1.ne _ _
    · intro seq off heq
      obtain ⟨rfl, rfl⟩ := Stage.sidecar.inj heq
      exact ⟨Nat.lt_succ_self _, Function.update_self _ _ _⟩
    · intro v hv hcall seq off off' heq hv'
      obtain ⟨rfl, -⟩ := Stage.sidecar.inj heq
      exact absurd (h.sidecar v hv _ _ hv').1 (Nat.lt_irrefl _)
  next => exact h

/-- What a call renames is its own: the bytes it was given, and the sidecar
that certifies them. -/
theorem Private.renameTemp_eq (hw : w ∈ s.writers) :
    s.renameTemp w =
      match w.stage with
      | .part off => if w.bytes.length ≤ off then s.publishPayload w w.bytes else s
      | .published => s
      | .sidecar seq off => if w.body.length ≤ off then s.publishMeta w seq w.body else s := by
  unfold Directory.renameTemp
  cases hstage : w.stage with
  | part off =>
      dsimp only
      split
      next hfull => rw [h.part w hw off hstage, List.take_of_length_le hfull]
      next => rfl
  | published => rfl
  | sidecar seq off =>
      dsimp only
      split
      next hfull => rw [(h.sidecar w hw seq off hstage).2, List.take_of_length_le hfull]
      next => rfl

theorem Private.publishPayload (hw : w ∈ s.writers) (data : List UInt8) :
    (s.publishPayload w data).Private := by
  refine h.setStage hw rfl rfl le_rfl ?_ (fun _ _ _ _ _ _ => rfl) (by simp) (by simp) (by simp)
  intro v hv hcall
  exact Function.update_of_ne hcall _ _

theorem Private.publishMeta (hw : w ∈ s.writers) {seq off : Nat}
    (hstage : w.stage = .sidecar seq off) (text : List Char) :
    (s.publishMeta w seq text).Private := by
  refine h.endCall w.call rfl rfl rfl (fun _ _ _ => rfl) ?_
  intro v hv hcall seq' off' hv'
  refine Function.update_of_ne ?_ _ _
  rintro rfl
  exact hcall (h.sidecarUnique v hv w hw _ _ _ hv' hstage)

theorem Private.step (e : Event) : (s.step e).Private := by
  cases e with
  | persist id bytes => exact h.persist id bytes
  | write call n =>
      cases hw : s.writer? call with
      | none => simpa [Directory.step, hw] using h
      | some w => simpa [Directory.step, hw] using h.writeChunk (mem_of_writer? hw).1 n
  | rename call =>
      cases hw : s.writer? call with
      | none => simpa [Directory.step, hw] using h
      | some w =>
          have hmem := (mem_of_writer? hw).1
          have hstep : s.step (.rename call) = s.renameTemp w := by simp [Directory.step, hw]
          rw [hstep, h.renameTemp_eq hmem]
          cases hstage : w.stage with
          | part off =>
              dsimp only
              split
              · exact h.publishPayload hmem w.bytes
              · exact h
          | published => exact h
          | sidecar seq off =>
              dsimp only
              split
              · exact h.publishMeta hmem hstage w.body
              · exact h
  | openMeta call =>
      cases hw : s.writer? call with
      | none => simpa [Directory.step, hw] using h
      | some w => simpa [Directory.step, hw] using h.openMeta (mem_of_writer? hw).1
  | purge id => exact ⟨h.fresh, h.unique, h.part, h.sidecar, h.sidecarUnique⟩
  | purgePayload id =>
      simp only [Directory.step, Directory.purgePayload]
      split
      · exact ⟨h.fresh, h.unique, h.part, h.sidecar, h.sidecarUnique⟩
      · exact h
  | crash =>
      refine ⟨?_, ?_, ?_, ?_, ?_⟩ <;> intro w hw <;> exact absurd hw List.not_mem_nil

/-! ## What a step changes -/

/-- At the rename of a payload: the sidecar in place does not declare its size
with another checksum. -/
def PayloadFits (s : Directory) (w : Writer) : Prop :=
  ∀ m ∈ (s.metas.final w.id).bind CheckpointMeta.parse,
    m.payloadBytes = size w.bytes → m.payloadCrc32c = crc32c w.bytes 0

/-- At the rename of a sidecar: the payload in place is not of the declared size
with another checksum; and where this is the last call at work on a checkpoint
that was never purged, it is of the declared size. -/
def MetaFits (s : Directory) (w : Writer) : Prop :=
  ∀ data ∈ s.snaps.final w.id,
    (size data = size w.bytes → crc32c data 0 = crc32c w.bytes 0) ∧
      ((∀ v ∈ s.writers, v.id = w.id → v.call = w.call) → s.purged w.id = false →
        size data = size w.bytes)

/-- A rename puts a file beside one it goes with; nothing is asked of the other
steps. -/
def Fits (s : Directory) : Event → Prop
  | .rename call => ∀ w ∈ s.writer? call,
      match w.stage with
      | .part off => w.bytes.length ≤ off → s.PayloadFits w
      | .published => True
      | .sidecar _ off => w.body.length ≤ off → s.MetaFits w
  | _ => True

/-- Two calls of which the second is the first at a later stage on the same side
of its payload's rename. -/
def Continues (w w' : Writer) : Prop :=
  w'.id = w.id ∧ w'.bytes = w.bytes ∧ (w'.Renamed ↔ w.Renamed)

/-- Nothing at a final name changes. -/
structure Quiet (s s' : Directory) : Prop where
  snaps : s'.snaps.final = s.snaps.final
  metas : s'.metas.final = s.metas.final
  written : s'.written = s.written
  returned : s'.returned = s.returned
  died : s'.died = s.died
  purged : s'.purged = s.purged
  purging : s'.purging = s.purging
  back : ∀ w' ∈ s'.writers, ∃ w ∈ s.writers, Continues w w'
  forth : ∀ w ∈ s.writers, ∃ w' ∈ s'.writers, Continues w w'

omit h in
theorem Quiet.refl (s : Directory) : Quiet s s where
  snaps := rfl
  metas := rfl
  written := rfl
  returned := rfl
  died := rfl
  purged := rfl
  purging := rfl
  back := fun w hw => ⟨w, hw, rfl, rfl, Iff.rfl⟩
  forth := fun w hw => ⟨w, hw, rfl, rfl, Iff.rfl⟩

/-- What a step does to a directory, and what it takes for it to fit. -/
inductive Change (s : Directory) : Directory → Prop → Prop
  | quiet {s' : Directory} (h : Quiet s s') : Change s s' True
  | persist (id : UInt64) (bytes : List UInt8) : Change s (s.persist id bytes) True
  | payload (w : Writer) (off : Nat) (hw : w ∈ s.writers) (hstage : w.stage = .part off) :
      Change s (s.publishPayload w w.bytes) (s.PayloadFits w)
  | sidecar (w : Writer) (seq off : Nat) (hw : w ∈ s.writers)
      (hstage : w.stage = .sidecar seq off) :
      Change s (s.publishMeta w seq w.body) (s.MetaFits w)
  | purge (id : UInt64) : Change s (s.purge id) True
  | purgePayload (id : UInt64) (h : id ∈ s.purging) : Change s (s.purgePayload id) True
  | crash : Change s s.crash True

theorem continues_setStage (hw : w ∈ s.writers) (stage : Stage)
    (hsame : Writer.Renamed { w with stage } ↔ w.Renamed) :
    (∀ w' ∈ (s.setStage w.call stage).writers, ∃ v ∈ s.writers, Continues v w') ∧
      ∀ v ∈ s.writers, ∃ w' ∈ (s.setStage w.call stage).writers, Continues v w' := by
  constructor
  · intro w' hw'
    rcases mem_writers_setStage.mp hw' with ⟨hmem, -⟩ | ⟨v, hv, hcall, rfl⟩
    · exact ⟨w', hmem, rfl, rfl, Iff.rfl⟩
    · obtain rfl := h.unique v hv w hw hcall
      exact ⟨v, hv, rfl, rfl, hsame⟩
  · intro v hv
    by_cases hcall : v.call = w.call
    · obtain rfl := h.unique v hv w hw hcall
      exact ⟨_, mem_writers_setStage.mpr (.inr ⟨v, hv, rfl, rfl⟩), rfl, rfl, hsame⟩
    · exact ⟨v, mem_writers_setStage.mpr (.inl ⟨hv, hcall⟩), rfl, rfl, Iff.rfl⟩

theorem Private.quiet_writeChunk (hw : w ∈ s.writers) (n : Nat) : Quiet s (s.writeChunk w n) := by
  unfold Directory.writeChunk
  cases hstage : w.stage with
  | part off =>
      have hsame : Writer.Renamed { w with stage := .part (off + n) } ↔ w.Renamed := by
        simp [Writer.Renamed, hstage]
      obtain ⟨hfrom, hto⟩ := continues_setStage h hw (.part (off + n)) hsame
      exact ⟨rfl, rfl, rfl, rfl, rfl, rfl, rfl, hfrom, hto⟩
  | published => exact Quiet.refl s
  | sidecar seq off =>
      have hsame : Writer.Renamed { w with stage := .sidecar seq (off + n) } ↔ w.Renamed := by
        simp [Writer.Renamed, hstage]
      obtain ⟨hfrom, hto⟩ := continues_setStage h hw (.sidecar seq (off + n)) hsame
      exact ⟨rfl, rfl, rfl, rfl, rfl, rfl, rfl, hfrom, hto⟩

theorem Private.quiet_openMeta (hw : w ∈ s.writers) : Quiet s (s.openMeta w) := by
  unfold Directory.openMeta
  split
  next hstage =>
    have hsame : Writer.Renamed { w with stage := .sidecar s.metaSeq 0 } ↔ w.Renamed := by
      simp [Writer.Renamed, hstage]
    obtain ⟨hfrom, hto⟩ := continues_setStage h hw (.sidecar s.metaSeq 0) hsame
    exact ⟨rfl, rfl, rfl, rfl, rfl, rfl, rfl, hfrom, hto⟩
  next => exact Quiet.refl s

theorem Private.change_rename (call : Nat) :
    ∃ m, (s.Fits (.rename call) ↔ m) ∧ Change s (s.step (.rename call)) m := by
  cases hw : s.writer? call with
  | none =>
      refine ⟨True, by simp [Fits, hw], ?_⟩
      simpa [Directory.step, hw] using Change.quiet (Quiet.refl s)
  | some w =>
      have hmem := (mem_of_writer? hw).1
      have hstep : s.step (.rename call) = s.renameTemp w := by simp [Directory.step, hw]
      rw [hstep, h.renameTemp_eq hmem]
      cases hstage : w.stage with
      | part off =>
          dsimp only
          by_cases hfull : w.bytes.length ≤ off
          · rw [if_pos hfull]
            exact ⟨_, by simp [Fits, hw, hstage, hfull], .payload w off hmem hstage⟩
          · rw [if_neg hfull]
            exact ⟨_, by simp [Fits, hw, hstage, hfull], .quiet (Quiet.refl s)⟩
      | published => exact ⟨_, by simp [Fits, hw, hstage], .quiet (Quiet.refl s)⟩
      | sidecar seq off =>
          dsimp only
          by_cases hfull : w.body.length ≤ off
          · rw [if_pos hfull]
            exact ⟨_, by simp [Fits, hw, hstage, hfull], .sidecar w seq off hmem hstage⟩
          · rw [if_neg hfull]
            exact ⟨_, by simp [Fits, hw, hstage, hfull], .quiet (Quiet.refl s)⟩

theorem Private.change (e : Event) : ∃ m, (s.Fits e ↔ m) ∧ Change s (s.step e) m := by
  cases e with
  | persist id bytes => exact ⟨True, Iff.rfl, .persist id bytes⟩
  | write call n =>
      refine ⟨True, Iff.rfl, .quiet ?_⟩
      cases hw : s.writer? call with
      | none => simpa [Directory.step, hw] using Quiet.refl s
      | some w => simpa [Directory.step, hw] using h.quiet_writeChunk (mem_of_writer? hw).1 n
  | rename call => exact h.change_rename call
  | openMeta call =>
      refine ⟨True, Iff.rfl, .quiet ?_⟩
      cases hw : s.writer? call with
      | none => simpa [Directory.step, hw] using Quiet.refl s
      | some w => simpa [Directory.step, hw] using h.quiet_openMeta (mem_of_writer? hw).1
  | purge id => exact ⟨True, Iff.rfl, .purge id⟩
  | purgePayload id =>
      by_cases hid : id ∈ s.purging
      · exact ⟨True, Iff.rfl, .purgePayload id hid⟩
      · have hstep : s.step (.purgePayload id) = s := if_neg hid
        rw [hstep]
        exact ⟨True, Iff.rfl, .quiet (Quiet.refl s)⟩
  | crash => exact ⟨True, Iff.rfl, .crash⟩

end

end Directory

end Clink.Ports.FileBackedStateBackend

import Clink.Ports.FileBackedStateBackend

/-!
# Published checkpoints and their verdicts

Each of the two files of a checkpoint is always whole.  The pair is not: the
payload of one call of `write_and_rename_` can come to stand beside the sidecar
of another, when two calls persist one checkpoint at a time or when one rewrites
it and dies.  `verifies_iff_fits` says exactly which renames have to be kept
apart for every verdict of `verify_checkpoint` to be right.
-/

namespace Clink.Ports.FileBackedStateBackend.Directory

open Clink.Verified
open Clink.Ports.CheckpointIntegrity

/-! ## Where the files come from -/

/-- Whose bytes stand at a checkpoint: those of a call that returned, of one
that still has its sidecar to write, or, until another call renames its payload,
of one that died. -/
def Origin (s : Directory) (id : UInt64) (bytes : List UInt8) : Prop :=
  bytes ∈ s.returned id ∨
    (∃ w ∈ s.writers, w.id = id ∧ w.bytes = bytes ∧ w.Renamed) ∨
    (s.died id = true ∧ ∀ w ∈ s.writers, w.id = id → ¬ w.Renamed)

/-- A payload was put in place under the checkpoint. -/
def Placed (s : Directory) (id : UInt64) : Prop :=
  s.returned id ≠ [] ∨ ∃ w ∈ s.writers, w.id = id ∧ w.Renamed

structure Sound (s : Directory) : Prop where
  written : ∀ w ∈ s.writers, w.bytes ∈ s.written w.id
  payload : ∀ id bytes, s.snaps.final id = some bytes → bytes ∈ s.written id ∧ s.Origin id bytes
  certified : ∀ id text, s.metas.final id = some text →
    ∃ bytes ∈ s.written id, text = (checkpointMeta id bytes).serialise
  present : ∀ id, s.purged id = false → s.Placed id → s.snaps.final id ≠ none
  purging : ∀ id ∈ s.purging, s.purged id = true

theorem sound_empty : Sound empty where
  written := fun w hw => absurd hw List.not_mem_nil
  payload := fun id bytes h => absurd h (by simp [empty, Files.empty])
  certified := fun id text h => absurd h (by simp [empty, Files.empty])
  present := by
    rintro id - (h | ⟨w, hw, -⟩)
    · exact absurd rfl h
    · exact absurd hw List.not_mem_nil
  purging := fun id h => absurd h List.not_mem_nil

variable {s s' : Directory}

theorem Sound.quiet (hs : Sound s) (h : Quiet s s') :
    Sound s' where
  written := by
    intro w' hw'
    obtain ⟨w, hw, hid, hbytes, -⟩ := h.back w' hw'
    rw [hid, hbytes, h.written]
    exact hs.written w hw
  payload := by
    intro id bytes hfinal
    rw [h.snaps] at hfinal
    obtain ⟨hwritten, horigin⟩ := hs.payload id bytes hfinal
    rw [h.written]
    refine ⟨hwritten, ?_⟩
    rcases horigin with hret | ⟨w, hw, hid, hbytes, hren⟩ | ⟨hdied, hnone⟩
    · rw [← h.returned] at hret
      exact .inl hret
    · obtain ⟨w', hw', hid', hbytes', hren'⟩ := h.forth w hw
      exact .inr (.inl ⟨w', hw', hid'.trans hid, hbytes'.trans hbytes, hren'.mpr hren⟩)
    · rw [← h.died] at hdied
      refine .inr (.inr ⟨hdied, ?_⟩)
      intro w' hw' hid' hren'
      obtain ⟨w, hw, hid, -, hren⟩ := h.back w' hw'
      exact hnone w hw (hid.symm.trans hid') (hren.mp hren')
  certified := by
    rw [h.metas, h.written]
    exact hs.certified
  present := by
    intro id hpurged hplaced
    rw [h.purged] at hpurged
    rw [h.snaps]
    refine hs.present id hpurged ?_
    rcases hplaced with hret | ⟨w', hw', hid', hren'⟩
    · rw [h.returned] at hret
      exact .inl hret
    · obtain ⟨w, hw, hid, -, hren⟩ := h.back w' hw'
      exact .inr ⟨w, hw, hid.symm.trans hid', hren.mp hren'⟩
  purging := by
    rw [h.purging, h.purged]
    exact hs.purging

variable {id : UInt64}

theorem mem_update_cons {α : Type} {f : UInt64 → List α} {id' : UInt64} {a b : α} (h : a ∈ f id') :
    a ∈ Function.update f id (b :: f id) id' := by
  by_cases hid : id' = id
  · rw [hid] at h ⊢
    rw [Function.update_self]
    exact List.mem_cons_of_mem _ h
  · rwa [Function.update_of_ne hid]

theorem Sound.persist (hs : Sound s) (id : UInt64) (bytes : List UInt8) :
    Sound (s.persist id bytes) where
  written := by
    intro w hw
    rcases List.mem_append.mp hw with hw | hw
    · exact mem_update_cons (hs.written w hw)
    · rw [List.mem_singleton.mp hw]
      change bytes ∈ Function.update s.written id _ id
      rw [Function.update_self]
      exact List.mem_cons_self
  payload := by
    intro id' data hfinal
    obtain ⟨hwritten, horigin⟩ := hs.payload id' data hfinal
    refine ⟨mem_update_cons hwritten, ?_⟩
    rcases horigin with hret | ⟨w, hw, hrest⟩ | ⟨hdied, hnone⟩
    · exact .inl hret
    · exact .inr (.inl ⟨w, List.mem_append_left _ hw, hrest⟩)
    · refine .inr (.inr ⟨hdied, ?_⟩)
      intro w hw hid
      rcases List.mem_append.mp hw with hw | hw
      · exact hnone w hw hid
      · rw [List.mem_singleton.mp hw]
        exact fun hren => hren 0 rfl
  certified := by
    intro id' text hfinal
    obtain ⟨data, hdata, htext⟩ := hs.certified id' text hfinal
    exact ⟨data, mem_update_cons hdata, htext⟩
  present := by
    intro id' hpurged hplaced
    refine hs.present id' hpurged ?_
    rcases hplaced with hret | ⟨w, hw, hid, hren⟩
    · exact .inl hret
    · rcases List.mem_append.mp hw with hw | hw
      · exact .inr ⟨w, hw, hid, hren⟩
      · rw [List.mem_singleton.mp hw] at hren
        exact absurd rfl (hren 0)
  purging := hs.purging

variable {w : Writer}

theorem mem_published (h : s.Private) {v : Writer} (hw : w ∈ s.writers) :
    v ∈ (s.setStage w.call .published).writers ↔
      (v ∈ s.writers ∧ v.call ≠ w.call) ∨ v = { w with stage := .published } := by
  rw [mem_writers_setStage]
  refine or_congr_right ?_
  constructor
  · rintro ⟨u, hu, hcall, rfl⟩
    rw [h.unique u hu w hw hcall]
  · rintro rfl
    exact ⟨w, hw, rfl, rfl⟩

theorem Sound.payload_change (hs : Sound s) (h : s.Private) (hw : w ∈ s.writers) :
    Sound (s.publishPayload w w.bytes) where
  written := by
    intro v hv
    rcases (mem_published h hw).mp hv with ⟨hv, -⟩ | rfl
    · exact hs.written v hv
    · exact hs.written w hw
  payload := by
    intro id bytes hfinal
    change Function.update s.snaps.final w.id (some w.bytes) id = some bytes at hfinal
    by_cases hid : id = w.id
    · rw [hid, Function.update_self] at hfinal
      obtain rfl := Option.some.inj hfinal
      rw [hid]
      refine ⟨hs.written w hw, .inr (.inl ⟨_, (mem_published h hw).mpr (.inr rfl), rfl, rfl, ?_⟩)⟩
      intro off' heq
      cases heq
    · rw [Function.update_of_ne hid] at hfinal
      obtain ⟨hwritten, horigin⟩ := hs.payload id bytes hfinal
      refine ⟨hwritten, ?_⟩
      rcases horigin with hret | ⟨v, hv, hvid, hrest⟩ | ⟨hdied, hnone⟩
      · exact .inl hret
      · refine .inr (.inl ⟨v, (mem_published h hw).mpr (.inl ⟨hv, ?_⟩), hvid, hrest⟩)
        intro hcall
        rw [h.unique v hv w hw hcall] at hvid
        exact hid hvid.symm
      · refine .inr (.inr ⟨hdied, ?_⟩)
        intro v hv hvid
        rcases (mem_published h hw).mp hv with ⟨hv, -⟩ | rfl
        · exact hnone v hv hvid
        · exact absurd hvid.symm hid
  certified := hs.certified
  present := by
    intro id hpurged hplaced
    change Function.update s.snaps.final w.id (some w.bytes) id ≠ none
    by_cases hid : id = w.id
    · rw [hid, Function.update_self]
      simp
    · rw [Function.update_of_ne hid]
      refine hs.present id hpurged ?_
      rcases hplaced with hret | ⟨v, hv, hvid, hren⟩
      · exact .inl hret
      · rcases (mem_published h hw).mp hv with ⟨hv, -⟩ | rfl
        · exact .inr ⟨v, hv, hvid, hren⟩
        · exact absurd hvid.symm hid
  purging := hs.purging

variable {seq off : Nat}

theorem renamed_of_sidecar (h : w.stage = .sidecar seq off) : w.Renamed := by
  intro off' heq
  rw [h] at heq
  cases heq

theorem Sound.sidecar_change (hs : Sound s) (h : s.Private) (hw : w ∈ s.writers)
    (hstage : w.stage = .sidecar seq off) :
    Sound (s.publishMeta w seq w.body) where
  written := fun v hv => hs.written v (mem_writers_endCall.mp hv).1
  payload := by
    intro id bytes hfinal
    obtain ⟨hwritten, horigin⟩ := hs.payload id bytes hfinal
    refine ⟨hwritten, ?_⟩
    have hren := renamed_of_sidecar hstage
    rcases horigin with hret | ⟨v, hv, hvid, hbytes, hvren⟩ | ⟨hdied, hnone⟩
    · exact .inl (mem_update_cons hret)
    · by_cases hcall : v.call = w.call
      · -- the call that returns put the payload in place
        obtain rfl := h.unique v hv w hw hcall
        refine .inl ?_
        change bytes ∈ Function.update s.returned v.id (v.bytes :: s.returned v.id) id
        rw [← hvid, ← hbytes, Function.update_self]
        exact List.mem_cons_self
      · exact .inr (.inl ⟨v, mem_writers_endCall.mpr ⟨hv, hcall⟩, hvid, hbytes, hvren⟩)
    · by_cases hid : id = w.id
      · -- the call that returns renamed its payload over that of the dead one
        exact absurd hren (hnone w hw hid.symm)
      · refine .inr (.inr ⟨?_, fun v hv => hnone v (mem_writers_endCall.mp hv).1⟩)
        change Function.update s.died w.id false id = true
        rwa [Function.update_of_ne hid]
  certified := by
    intro id text hfinal
    change Function.update s.metas.final w.id (some w.body) id = some text at hfinal
    by_cases hid : id = w.id
    · rw [hid, Function.update_self] at hfinal
      rw [hid]
      exact ⟨w.bytes, hs.written w hw, (Option.some.inj hfinal).symm⟩
    · rw [Function.update_of_ne hid] at hfinal
      exact hs.certified id text hfinal
  present := by
    intro id hpurged hplaced
    refine hs.present id hpurged ?_
    have hren := renamed_of_sidecar hstage
    by_cases hid : id = w.id
    · exact .inr ⟨w, hw, hid.symm, hren⟩
    · rcases hplaced with hret | ⟨v, hv, hvrest⟩
      · change Function.update s.returned w.id _ id ≠ [] at hret
        rw [Function.update_of_ne hid] at hret
        exact .inl hret
      · exact .inr ⟨v, (mem_writers_endCall.mp hv).1, hvrest⟩
  purging := hs.purging

theorem Sound.purge (hs : Sound s) (id : UInt64) :
    Sound (s.purge id) where
  written := hs.written
  payload := hs.payload
  certified := by
    intro id' text hfinal
    change Function.update s.metas.final id none id' = some text at hfinal
    by_cases hid : id' = id
    · rw [hid, Function.update_self] at hfinal
      cases hfinal
    · rw [Function.update_of_ne hid] at hfinal
      exact hs.certified id' text hfinal
  present := by
    intro id' hpurged hplaced
    change Function.update s.purged id true id' = false at hpurged
    by_cases hid : id' = id
    · rw [hid, Function.update_self] at hpurged
      cases hpurged
    · rw [Function.update_of_ne hid] at hpurged
      exact hs.present id' hpurged hplaced
  purging := by
    intro id' hmem
    change Function.update s.purged id true id' = true
    by_cases hid : id' = id
    · rw [hid, Function.update_self]
    · rw [Function.update_of_ne hid]
      rcases List.mem_cons.mp hmem with heq | hmem
      · exact absurd heq hid
      · exact hs.purging id' hmem

theorem purgePayload_eq (h : id ∈ s.purging) :
    s.purgePayload id =
      { s with snaps := s.snaps.remove id, purging := s.purging.erase id } := if_pos h

theorem Sound.purgePayload (hs : Sound s) (h : id ∈ s.purging) : Sound (s.purgePayload id) := by
  rw [purgePayload_eq h]
  refine ⟨hs.written, ?_, hs.certified, ?_, ?_⟩
  · intro id' bytes hfinal
    change Function.update s.snaps.final id none id' = some bytes at hfinal
    by_cases hid : id' = id
    · rw [hid, Function.update_self] at hfinal
      cases hfinal
    · rw [Function.update_of_ne hid] at hfinal
      exact hs.payload id' bytes hfinal
  · intro id' hpurged hplaced
    change Function.update s.snaps.final id none id' ≠ none
    by_cases hid : id' = id
    · change s.purged id' = false at hpurged
      rw [hid, hs.purging id h] at hpurged
      cases hpurged
    · rw [Function.update_of_ne hid]
      exact hs.present id' hpurged hplaced
  · intro id' hmem
    exact hs.purging id' (List.mem_of_mem_erase hmem)

theorem Sound.crash (hs : Sound s) :
    Sound s.crash where
  written := fun w hw => absurd hw List.not_mem_nil
  payload := by
    intro id bytes hfinal
    obtain ⟨hwritten, horigin⟩ := hs.payload id bytes hfinal
    have hnone : ∀ w ∈ s.crash.writers, w.id = id → ¬ w.Renamed :=
      fun w hw => absurd hw List.not_mem_nil
    refine ⟨hwritten, ?_⟩
    rcases horigin with hret | ⟨w, hw, hid, -, -⟩ | ⟨hdied, -⟩
    · exact .inl hret
    · refine .inr (.inr ⟨?_, hnone⟩)
      have hany : s.writers.any (·.id = id) = true :=
        List.any_eq_true.mpr ⟨w, hw, by simpa using hid⟩
      change (s.died id || s.writers.any (·.id = id)) = true
      rw [hany, Bool.or_true]
    · refine .inr (.inr ⟨?_, hnone⟩)
      change (s.died id || s.writers.any (·.id = id)) = true
      rw [hdied, Bool.true_or]
  certified := hs.certified
  present := by
    intro id hpurged hplaced
    rcases hplaced with hret | ⟨w, hw, -⟩
    · exact hs.present id hpurged (.inl hret)
    · exact absurd hw List.not_mem_nil
  purging := fun id h => absurd h List.not_mem_nil

theorem Sound.change {m : Prop} (hs : Sound s) (h : s.Private) (hc : Change s s' m) : Sound s' := by
  cases hc with
  | quiet hq => exact hs.quiet hq
  | persist id bytes => exact hs.persist id bytes
  | payload w off hw hstage => exact hs.payload_change h hw
  | sidecar w seq off hw hstage => exact hs.sidecar_change h hw hstage
  | purge id => exact hs.purge id
  | purgePayload id hid => exact hs.purgePayload hid
  | crash => exact hs.crash

/-! ## The verdicts -/

variable {dir : List Char}

/-- Nothing is valid but what was written under the checkpoint. -/
theorem Sound.written_of_valid (hs : Sound s) (h : (s.verify dir id).status = .valid) :
    ∃ bytes ∈ s.written id, s.snaps.final id = some bytes := by
  cases hfinal : s.snaps.final id with
  | none =>
      rw [verify, hfinal] at h
      cases h
  | some bytes => exact ⟨bytes, (hs.payload id bytes hfinal).1, rfl⟩

/-- The verdict, from the payload and the bytes its sidecar certifies. -/
theorem status_of_sidecar {bytes : List UInt8}
    (hmeta : s.metas.final id = some (checkpointMeta id bytes).serialise) {data : List UInt8}
    (hdata : s.snaps.final id = some data) :
    (s.verify dir id).status =
      if size data ≠ size bytes then .incomplete
      else if crc32c data 0 ≠ crc32c bytes 0 then .corrupt
      else .valid := by
  rw [verify, hmeta, hdata, status_certified]

theorem status_no_sidecar (h : s.metas.final id = none) : (s.verify dir id).status ≠ .corrupt := by
  rw [verify, h]
  cases s.snaps.final id <;> simp [verifyCheckpoint]

theorem status_no_payload (h : s.snaps.final id = none) : (s.verify dir id).status ≠ .corrupt := by
  rw [verify, h]
  simp [verifyCheckpoint]

/-- A checkpoint whose files are as before and that is not newly settled verifies
as before. -/
theorem VerifiesAt.of_same (h : s.VerifiesAt dir id) (hs' : Sound s')
    (hsnap : s'.snaps.final id = s.snaps.final id) (hmeta : s'.metas.final id = s.metas.final id)
    (hreturned : s'.returned id = s.returned id) (hsettled : s'.Settled id → s.Settled id) :
    s'.VerifiesAt dir id := by
  have hverify : s'.verify dir id = s.verify dir id := by rw [verify, verify, hsnap, hmeta]
  refine ⟨?_, hs'.written_of_valid, by rw [hverify]; exact h.2.2⟩
  intro hset
  rw [hverify, hsnap, hreturned]
  exact h.1 (hsettled hset)

/-- A settled checkpoint has no call at work on it. -/
theorem not_settled (hw : w ∈ s.writers) (hid : w.id = id) :
    ¬ s.Settled id := fun h => h.2.1 w hw hid

section

variable (hv : s.Verifies dir)
include hv

theorem Verifies.quiet (hs' : Sound s') (h : Quiet s s') : s'.Verifies dir := by
  intro id
  refine (hv id).of_same hs' (by rw [h.snaps]) (by rw [h.metas]) (by rw [h.returned]) ?_
  rintro ⟨hret, hnone, hdied, hpurged⟩
  rw [h.returned] at hret
  rw [h.died] at hdied
  rw [h.purged] at hpurged
  refine ⟨hret, ?_, hdied, hpurged⟩
  intro w hw
  obtain ⟨w', hw', hid, -⟩ := h.forth w hw
  rw [← hid]
  exact hnone w' hw'

theorem Verifies.persist (hs : Sound s) (id : UInt64) (bytes : List UInt8) :
    (s.persist id bytes).Verifies dir := by
  intro id'
  refine (hv id').of_same (hs.persist id bytes) rfl rfl rfl ?_
  rintro ⟨hret, hnone, hdied, hpurged⟩
  exact ⟨hret, fun w hw => hnone w (List.mem_append_left _ hw), hdied, hpurged⟩

theorem Verifies.purge (hs : Sound s) (id : UInt64) : (s.purge id).Verifies dir := by
  intro id'
  by_cases hid : id' = id
  · have hpurged : (s.purge id).purged id' = true := by
      change Function.update s.purged id true id' = true
      rw [hid, Function.update_self]
    have hmeta : (s.purge id).metas.final id' = none := by
      change Function.update s.metas.final id none id' = none
      rw [hid, Function.update_self]
    refine ⟨?_, (hs.purge id).written_of_valid, status_no_sidecar hmeta⟩
    intro hset
    rw [hset.2.2.2] at hpurged
    cases hpurged
  · refine (hv id').of_same (hs.purge id) rfl (Function.update_of_ne hid _ _) rfl ?_
    rintro ⟨hret, hnone, hdied, hpurged⟩
    change Function.update s.purged id true id' = false at hpurged
    rw [Function.update_of_ne hid] at hpurged
    exact ⟨hret, hnone, hdied, hpurged⟩

theorem Verifies.purgePayload (hs : Sound s) (h : id ∈ s.purging) :
    (s.purgePayload id).Verifies dir := by
  have hs' := hs.purgePayload h
  rw [purgePayload_eq h] at hs' ⊢
  intro id'
  by_cases hid : id' = id
  · refine ⟨?_, hs'.written_of_valid, status_no_payload ?_⟩
    · intro hset
      have hpurged := hset.2.2.2
      change s.purged id' = false at hpurged
      rw [hid, hs.purging id h] at hpurged
      cases hpurged
    · change Function.update s.snaps.final id none id' = none
      rw [hid, Function.update_self]
  · exact (hv id').of_same hs' (Function.update_of_ne hid _ _) rfl rfl fun hset => hset

theorem Verifies.crash (hs : Sound s) : s.crash.Verifies dir := by
  intro id
  refine (hv id).of_same hs.crash rfl rfl rfl ?_
  rintro ⟨hret, -, hdied, hpurged⟩
  change (s.died id || s.writers.any (·.id = id)) = false at hdied
  rw [Bool.or_eq_false_iff, List.any_eq_false] at hdied
  refine ⟨hret, ?_, hdied.1, hpurged⟩
  intro w hw hid
  exact hdied.2 w hw (by simpa using hid)

/-- A payload may be put in place exactly when it fits the sidecar there. -/
theorem Verifies.payload_iff (hs : Sound s) (h : s.Private) (hw : w ∈ s.writers) :
    (s.publishPayload w w.bytes).Verifies dir ↔ s.PayloadFits w := by
  have hs' := hs.payload_change h hw
  have hdata : (s.publishPayload w w.bytes).snaps.final w.id = some w.bytes :=
    Function.update_self _ _ _
  have hmeta : (s.publishPayload w w.bytes).metas.final w.id = s.metas.final w.id := rfl
  have hown : { w with stage := .published } ∈ (s.publishPayload w w.bytes).writers :=
    (mem_published h hw).mpr (.inr rfl)
  constructor
  · intro hv' m hm hsize
    obtain ⟨text, htext, hparse⟩ := Option.mem_bind_iff.mp hm
    obtain ⟨bytes, -, rfl⟩ := hs.certified w.id text htext
    rw [parse_serialise] at hparse
    obtain rfl := Option.some.inj hparse
    change size bytes = size w.bytes at hsize
    change crc32c bytes 0 = crc32c w.bytes 0
    by_contra hcrc
    refine (hv' w.id).2.2 ?_
    rw [status_of_sidecar (hmeta.trans htext) hdata, if_neg (by simp [hsize]),
      if_pos (Ne.symm hcrc)]
  · intro hfits id
    by_cases hid : id = w.id
    · rw [hid]
      refine ⟨fun hset => absurd hset (not_settled hown rfl), hs'.written_of_valid, ?_⟩
      cases htext : s.metas.final w.id with
      | none => exact status_no_sidecar (hmeta.trans htext)
      | some text =>
          obtain ⟨bytes, -, rfl⟩ := hs.certified w.id text htext
          have hfit := hfits (checkpointMeta w.id bytes)
            (Option.mem_bind_iff.mpr ⟨_, htext, parse_serialise _⟩)
          change size bytes = size w.bytes → crc32c bytes 0 = crc32c w.bytes 0 at hfit
          rw [status_of_sidecar (hmeta.trans htext) hdata]
          by_cases hsize : size w.bytes = size bytes
          · rw [if_neg (by simp [hsize]), if_neg (by simp [hfit hsize.symm])]
            simp
          · rw [if_pos hsize]
            simp
    · refine (hv id).of_same hs' (Function.update_of_ne hid _ _) rfl rfl ?_
      rintro ⟨hret, hnone, hdied, hpurged⟩
      refine ⟨hret, ?_, hdied, hpurged⟩
      intro v hvw hvid
      refine hnone v ((mem_published h hw).mpr (.inl ⟨hvw, ?_⟩)) hvid
      intro hcall
      rw [h.unique v hvw w hw hcall] at hvid
      exact hid hvid.symm

omit hv in
/-- What stands at a settled checkpoint came from a call that returned. -/
theorem Sound.returned_of_settled (hs : Sound s) (h : s.Settled id) {data : List UInt8}
    (hdata : s.snaps.final id = some data) : data ∈ s.returned id := by
  rcases (hs.payload id data hdata).2 with hret | ⟨w, hw, hid, -⟩ | ⟨hdied, -⟩
  · exact hret
  · exact absurd h (not_settled hw hid)
  · rw [h.2.2.1] at hdied
    cases hdied

/-- A sidecar may be put in place exactly when it fits the payload there. -/
theorem Verifies.sidecar_iff (hs : Sound s) (h : s.Private) (hw : w ∈ s.writers)
    (hstage : w.stage = .sidecar seq off) :
    (s.publishMeta w seq w.body).Verifies dir ↔ s.MetaFits w := by
  have hs' := hs.sidecar_change h hw hstage
  have hmeta : (s.publishMeta w seq w.body).metas.final w.id =
      some (checkpointMeta w.id w.bytes).serialise := Function.update_self _ _ _
  have hsnap : (s.publishMeta w seq w.body).snaps.final w.id = s.snaps.final w.id := rfl
  have hret : (s.publishMeta w seq w.body).returned w.id = w.bytes :: s.returned w.id :=
    Function.update_self _ _ _
  have hdied : (s.publishMeta w seq w.body).died w.id = false := Function.update_self _ _ _
  constructor
  · intro hv' data hdata
    constructor
    · intro hsize
      by_contra hcrc
      refine (hv' w.id).2.2 ?_
      rw [status_of_sidecar hmeta (hsnap.trans hdata), if_neg (by simp [hsize]), if_pos hcrc]
    · intro hlast hpurged
      have hsettled : (s.publishMeta w seq w.body).Settled w.id := by
        refine ⟨by rw [hret]; simp, ?_, hdied, hpurged⟩
        intro v hvw hid
        exact (mem_writers_endCall.mp hvw).2 (hlast v (mem_writers_endCall.mp hvw).1 hid)
      have hvalid := ((hv' w.id).1 hsettled).1
      by_contra hsize
      rw [status_of_sidecar hmeta (hsnap.trans hdata), if_pos hsize] at hvalid
      cases hvalid
  · intro hfits id
    by_cases hid : id = w.id
    · rw [hid]
      refine ⟨?_, hs'.written_of_valid, ?_⟩
      · intro hset
        have hplaced := hs'.present w.id hset.2.2.2 (.inl hset.1)
        obtain ⟨data, hdata⟩ := Option.ne_none_iff_exists'.mp hplaced
        obtain ⟨hcrc, hsize⟩ := hfits data hdata
        have hsame : size data = size w.bytes := by
          refine hsize ?_ hset.2.2.2
          intro v hvw hvid
          by_contra hcall
          exact hset.2.1 v (mem_writers_endCall.mpr ⟨hvw, hcall⟩) hvid
        refine ⟨?_, data, hs'.returned_of_settled hset hdata, hdata⟩
        rw [status_of_sidecar hmeta hdata, if_neg (by simp [hsame]), if_neg (by simp [hcrc hsame])]
      · cases hdata : s.snaps.final w.id with
        | none => exact status_no_payload (hsnap.trans hdata)
        | some data =>
            rw [status_of_sidecar hmeta (hsnap.trans hdata)]
            by_cases hsize : size data = size w.bytes
            · rw [if_neg (by simp [hsize]), if_neg (by simp [(hfits data hdata).1 hsize])]
              simp
            · rw [if_pos hsize]
              simp
    · have hreturned : (s.publishMeta w seq w.body).returned id = s.returned id :=
        Function.update_of_ne hid _ _
      refine (hv id).of_same hs' rfl (Function.update_of_ne hid _ _) hreturned ?_
      rintro ⟨hsome, hnone, hlive, hpurged⟩
      change Function.update s.died w.id false id = false at hlive
      rw [hreturned] at hsome
      rw [Function.update_of_ne hid] at hlive
      refine ⟨hsome, ?_, hlive, hpurged⟩
      intro v hvw hvid
      refine hnone v (mem_writers_endCall.mpr ⟨hvw, ?_⟩) hvid
      intro hcall
      rw [h.unique v hvw w hw hcall] at hvid
      exact hid hvid.symm

/-- A change keeps the verdicts good exactly when it fits. -/
theorem Verifies.change_iff {m : Prop} (hs : Sound s) (h : s.Private) (hc : Change s s' m) :
    s'.Verifies dir ↔ m := by
  cases hc with
  | quiet hq => exact iff_of_true (hv.quiet (hs.quiet hq) hq) trivial
  | persist id bytes => exact iff_of_true (hv.persist hs id bytes) trivial
  | payload w off hw hstage => exact hv.payload_iff hs h hw
  | sidecar w seq off hw hstage => exact hv.sidecar_iff hs h hw hstage
  | purge id => exact iff_of_true (hv.purge hs id) trivial
  | purgePayload id hid => exact iff_of_true (hv.purgePayload hs hid) trivial
  | crash => exact iff_of_true (hv.crash hs) trivial

end

theorem private_empty : empty.Private := by
  refine ⟨?_, ?_, ?_, ?_, ?_⟩ <;> intro w hw <;> exact absurd hw List.not_mem_nil

theorem verifies_empty : empty.Verifies dir := by
  intro id
  refine ⟨fun hset => absurd rfl hset.1, sound_empty.written_of_valid, ?_⟩
  exact status_no_payload rfl

/-- Published checkpoints verify all along a history of calls, purges and
crashes if and only if every rename of it puts a file beside one it goes with. -/
theorem verifies_iff_fits (dir : List Char) (es : List Event) :
    (∀ pre, pre <+: es → (pre.foldl step empty).Verifies dir) ↔
      Runs.Allowed step (fun _ s e => s.Fits e) [] empty es := by
  refine Runs.allowed_iff (I := fun s => s.Private ∧ Sound s) (P := fun s => s.Verifies dir) ?_ ?_
    ⟨private_empty, sound_empty⟩ verifies_empty
  · intro s e hs
    obtain ⟨m, -, hchange⟩ := hs.1.change e
    exact ⟨hs.1.step e, hs.2.change hs.1 hchange⟩
  · intro s e hs hv
    obtain ⟨m, hm, hchange⟩ := hs.1.change e
    rw [hm]
    exact hv.change_iff hs.2 hs.1 hchange

/-- Two snapshot workers persist one checkpoint: the first renames its payload,
the second both its files, and the first then its sidecar, of as many bytes.
Both have returned, nothing was purged, and the verdict is that storage lied. -/
theorem interleaved_writers_corrupt :
    let es : List Event := [.persist 7 [1], .persist 7 [2], .write 0 1, .write 1 1, .rename 0,
      .rename 1, .openMeta 1, .write 1 200, .rename 1, .openMeta 0, .write 0 200, .rename 0]
    let s := es.foldl step empty
    s.Settled 7 ∧ (s.verify "snapshots".toList 7).status = .corrupt := by
  refine ⟨⟨?_, ?_, ?_, ?_⟩, ?_⟩ <;> decide +kernel

end Clink.Ports.FileBackedStateBackend.Directory

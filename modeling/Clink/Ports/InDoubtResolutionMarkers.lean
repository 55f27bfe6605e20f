import Clink.Ports.InDoubtResolutionConfirmed

/-!
# A stopped walk leaves markers

What a walk that stops at a checkpoint leaves in the store: a marker for each
handle it neither found receipted, nor proved committed, nor was refused, at
the checkpoint it stopped at and at the completed checkpoints above it.  Two
handles stay without a marker.  One answered committed that carries no
watermark horizon gets no receipt either, since there is nothing to write into
it; and a walk cancelled before the first probe of a checkpoint writes no
markers above that checkpoint.

The marks a walk keeps of its handles are accounted for by the log and the
receipts, and both only grow, so what is left is what the markers are written
for.
-/

namespace Clink.Ports.InDoubt

open Clink.Verified

/-- A probe of the handle was answered with a final refusal. -/
def FinallyRefused (id index : Nat) (log : List Action) : Prop :=
  ∃ result, .probed id index result ∈ log ∧ result.committed = false ∧
    result.transportInconclusive = false

/-- The handle was answered committed and has no watermark horizon. -/
def CommittedWithoutHorizon (env : Environment) (id index : Nat) (h : StagedHandle)
    (log : List Action) : Prop :=
  AnsweredCommitted id index log ∧ env.horizon h.handle = []

/-- Each handle staged at the checkpoint without a receipt, not refused and not
committed without a horizon, has a marker. -/
def Marked (env : Environment) (store : List Char → Option (List Char)) (id : Nat)
    (w : Walk) : Prop :=
  ∀ handles i h, env.stagedAt store id = some handles → handles[i]? = some h →
    w.store (env.receiptKey h.subtask id) = none → ¬ FinallyRefused id i w.log →
    ¬ CommittedWithoutHorizon env id i h w.log →
    (w.store (env.markerKey h.subtask id)).isSome

section Markers

variable {env : Environment} {store : List Char → Option (List Char)} {confirmed id : Nat}
  {handles : List StagedHandle} {slots done rest : List Slot} {s : Slot} {w w' : Walk}

/-! ## Writing the markers -/

variable (hput : ∀ n, env.putSucceeds n = true)

include hput

theorem put_isSome (key body : List Char) (action : Bool → Action) (w : Walk) :
    ((env.put key body action w).store key).isSome := by
  rw [Environment.put_written (hput _)]
  rfl

theorem persistUnresolvedMarkers_marked (w : Walk) (hs : s ∈ slots)
    (hcommitted : s.committed = false) (hrefused : s.refused = false) :
    ((env.persistUnresolvedMarkers id slots w).store
      (env.markerKey s.staged.subtask id)).isSome := by
  induction slots generalizing w with
  | nil => exact absurd hs List.not_mem_nil
  | cons t rest ih =>
      unfold Environment.persistUnresolvedMarkers
      rcases List.mem_cons.mp hs with hs | hs
      · rw [← hs, hcommitted, hrefused]
        exact (Marks.persistUnresolvedMarkers id rest _).kept _ (put_isSome hput _ _ _ w)
      · split
        · exact ih w hs
        · exact ih _ hs

theorem markUnreceipted_marked (w : Walk) (hs : s ∈ slots)
    (hreceipt : w.store (env.receiptKey s.staged.subtask id) = none) :
    ((env.markUnreceipted id slots w).store (env.markerKey s.staged.subtask id)).isSome := by
  induction slots generalizing w with
  | nil => exact absurd hs List.not_mem_nil
  | cons t rest ih =>
      unfold Environment.markUnreceipted
      rcases List.mem_cons.mp hs with hs | hs
      · rw [← hs, hreceipt]
        exact (Marks.markUnreceipted id rest _).kept _ (put_isSome hput _ _ _ w)
      · split
        · exact ih w hs hreceipt
        · refine ih _ hs ?_
          rw [(Marks.put id t w).receipt]
          exact hreceipt

omit hput in
theorem stagedAt_congr {store' : List Char → Option (List Char)}
    (h : store (env.completedKey id) = store' (env.completedKey id)) :
    env.stagedAt store id = env.stagedAt store' id := by
  unfold Environment.stagedAt
  rw [h]

theorem markLater_marked {ids : List Nat} {h : StagedHandle} (w : Walk) (hid : id ∈ ids)
    (hstaged : env.stagedAt w.store id = some handles) (hh : h ∈ handles)
    (hreceipt : w.store (env.receiptKey h.subtask id) = none) :
    ((env.markLater ids w).store (env.markerKey h.subtask id)).isSome := by
  induction ids generalizing w with
  | nil => exact absurd hid List.not_mem_nil
  | cons later ids ih =>
      have hmarks : Marks env w (env.markUnreceipted later (env.laterSlots w later) w) :=
        .markUnreceipted later _ w
      unfold Environment.markLater
      rcases List.mem_cons.mp hid with hid | hid
      · rw [← hid]
        obtain ⟨i, hi⟩ := List.mem_iff_getElem?.mp hh
        obtain ⟨s, hs, -, hplaced⟩ := (Placed.start handles).exists_slot hi
        have hmem : s ∈ env.laterSlots w id := by
          rw [Environment.laterSlots, hstaged]
          exact hs
        rw [← hplaced] at hreceipt ⊢
        exact (Marks.markLater ids _).kept _ (markUnreceipted_marked hput w hmem hreceipt)
      · refine ih _ hid ?_ ?_
        · rw [← hstaged]
          exact stagedAt_congr (hmarks.completed id)
        · rw [hmarks.receipt]
          exact hreceipt

variable {completed : Nat}

theorem markLaterUnreceipted_marked {stoppedAt : Nat} (w : Walk)
    (hcompleted : ∀ j, w.store (env.completedKey j) = store (env.completedKey j))
    (hlow : stoppedAt < id) (hhigh : id ≤ completed) :
    Marked env store id (env.markLaterUnreceipted completed stoppedAt w) := by
  intro handles i h hstaged hi hreceipt _ _
  have hid : id ∈ List.range' (stoppedAt + 1) (completed - stoppedAt) := by
    rw [List.mem_range'_1]
    omega
  rw [(Marks.markLaterUnreceipted completed stoppedAt w).receipt] at hreceipt
  rw [stagedAt_congr (hcompleted id).symm] at hstaged
  exact markLater_marked hput w hid hstaged (List.mem_of_getElem? hi) hreceipt

/-! ## The handles of the checkpoint the walk stops at -/

/-- The marks of a handle are accounted for by a receipt or by an answer. -/
structure Accounted (env : Environment) (id : Nat) (w : Walk) (s : Slot) : Prop where
  committed : s.committed = true → (w.store (env.receiptKey s.staged.subtask id)).isSome ∨
    CommittedWithoutHorizon env id s.index s.staged w.log
  refused : s.refused = true → FinallyRefused id s.index w.log

omit hput in
theorem Accounted.mono (h : Accounted env id w s) (hwithin : Within env id w w') :
    Accounted env id w' s := by
  constructor
  · intro hcommitted
    rcases h.committed hcommitted with hreceipt | ⟨⟨result, hmem, hresult⟩, hhorizon⟩
    · exact .inl (hwithin.receiptKept _ _ hreceipt)
    · exact .inr ⟨⟨result, hwithin.grew.mem hmem, hresult⟩, hhorizon⟩
  · intro hrefused
    obtain ⟨result, hmem, hresult⟩ := h.refused hrefused
    exact ⟨result, hwithin.grew.mem hmem, hresult⟩

theorem Accounted.probe {probe : Environment.Probe} (hprobe : Probed env id s w probe)
    (h : Accounted env id w s) : Accounted env id probe.walk probe.slot := by
  have hgrown := h.mono hprobe.within
  cases hprobe with
  | cancelled => exact hgrown
  | unasked => exact hgrown
  | tooLate result => exact hgrown
  | inconclusive result => exact hgrown
  | committed result hcancel hlate hresult =>
      refine ⟨fun _ => ?_, hgrown.refused⟩
      by_cases hhorizon : env.horizon s.staged.handle = []
      · refine .inr ⟨⟨result, ?_, hresult⟩, hhorizon⟩
        rw [Environment.materialiseReceipt, if_pos hhorizon]
        exact List.mem_append_left _ (mem_observe_asked env id s w result)
      · refine .inl ?_
        rw [Environment.retireMarker_other (env.receiptKey_ne_markerKey _ _ _ _),
          Environment.materialiseReceipt, if_neg hhorizon]
        exact put_isSome hput _ _ _ _
  | refused result hcancel hlate hresult htransport =>
      refine ⟨hgrown.committed, fun _ => ?_⟩
      exact ⟨result, List.mem_append_left _ (mem_observe_asked env id s w result), hresult,
        htransport⟩

omit hput in
theorem accounted_readReceipts (handles : List StagedHandle) (w : Walk)
    (hs : s ∈ (env.readReceipts id (Environment.slotsFrom 0 handles) w).1) :
    Accounted env id (env.readReceipts id (Environment.slotsFrom 0 handles) w).2 s ∧
      s.refused = false := by
  have hwithin : Within env id w (env.readReceipts id (Environment.slotsFrom 0 handles) w).2 :=
    Environment.within_readReceipts _ w
  rw [Environment.readReceipts_slots] at hs
  obtain ⟨s', hs', heq⟩ := List.mem_map.mp hs
  obtain ⟨hcommitted, hrefused⟩ := fresh_of_mem_slotsFrom hs'
  split at heq
  · rename_i hreceipt
    rw [← heq]
    exact ⟨⟨fun _ => .inl (hwithin.receiptKept _ _ hreceipt),
      fun hyes => absurd hyes (by simp [hrefused])⟩,
      hrefused⟩
  · rw [← heq]
    exact ⟨⟨fun hyes => absurd hyes (by simp [hcommitted]),
      fun hyes => absurd hyes (by simp [hrefused])⟩, hrefused⟩

/-- The handles of a checkpoint, in their order and accounted for. -/
def AllAccounted (env : Environment) (id : Nat) (handles : List StagedHandle)
    (slots : List Slot) (w : Walk) : Prop :=
  Placed handles slots ∧ ∀ s ∈ slots, Accounted env id w s

omit hput in
theorem AllAccounted.mono (h : AllAccounted env id handles slots w)
    (hwithin : Within env id w w') : AllAccounted env id handles slots w' :=
  ⟨h.1, fun s hs => (h.2 s hs).mono hwithin⟩

theorem AllAccounted.step (h : AllAccounted env id handles (done ++ s :: rest) w) :
    AllAccounted env id handles (done ++ (env.probeHandle id s w).slot :: rest)
      (env.probeHandle id s w).walk := by
  have hprobe := probed_probeHandle env id s w
  generalize env.probeHandle id s w = probe at hprobe ⊢
  refine ⟨h.1.replace hprobe.same, ?_⟩
  intro t ht
  rcases List.mem_append.mp ht with ht | ht
  · exact (h.2 t (List.mem_append_left _ ht)).mono hprobe.within
  · rcases List.mem_cons.mp ht with ht | ht
    · rw [ht]
      exact (h.2 s (by simp)).probe hput hprobe
    · exact (h.2 t (List.mem_append_right _ (List.mem_cons_of_mem _ ht))).mono hprobe.within

theorem AllAccounted.attempts (n : Nat) (h : AllAccounted env id handles slots w)
    (hquiet : Quiet w.log) :
    AllAccounted env id handles (env.attempts id n slots w).slots
      (env.attempts id n slots w).walk :=
  Environment.attempts_keeps (fun _ _ _ _ _ _ hp => AllAccounted.step hput hp)
    (fun _ _ hp => hp.mono Within.observe) n hquiet h

omit hput in
/-- Handles accounted for are marked once those without a mark are. -/
theorem AllAccounted.marked (h : AllAccounted env id handles slots w)
    (hstaged : env.stagedAt store id = some handles)
    (hmarked : ∀ s ∈ slots, s.committed = false → s.refused = false →
      (w.store (env.markerKey s.staged.subtask id)).isSome) : Marked env store id w := by
  intro handles' i staged hstaged' hi hreceipt hrefused hhorizon
  rw [hstaged] at hstaged'
  rw [← Option.some.inj hstaged'] at hi
  obtain ⟨s, hs, hindex, hplaced⟩ := h.1.exists_slot hi
  have haccounted := h.2 s hs
  rw [← hindex] at hrefused hhorizon
  rw [← hplaced] at hreceipt hhorizon ⊢
  refine hmarked s hs ?_ ?_
  · cases hcommitted : s.committed with
    | false => rfl
    | true =>
        rcases haccounted.committed hcommitted with hsome | hwithout
        · rw [hreceipt] at hsome
          exact absurd hsome (by simp)
        · exact absurd hwithout hhorizon
  · cases hs' : s.refused with
    | false => rfl
    | true => exact absurd (haccounted.refused hs') hrefused

/-! ## One checkpoint of the walk -/

/-- What a checkpoint that stops the walk leaves marked, and what is known of one
that does not. -/
def LeavesMarked (env : Environment) (store : List Char → Option (List Char))
    (completed id : Nat) : Environment.Outcome × Walk → Prop
  | (.stopped why, w) => (store (env.completedKey id)).isSome ∧ Marked env store id w ∧
      (why ≠ .cancelledBeforeProbing → ∀ later, id < later → later ≤ completed →
        Marked env store later w)
  | (.skipped, _) => store (env.completedKey id) = none
  | (.confirmed, _) => True

theorem leavesMarked_later {why : Environment.Stop}
    (hcompleted : ∀ j, w.store (env.completedKey j) = store (env.completedKey j))
    (hsome : (store (env.completedKey id)).isSome)
    (hmarked : Marked env store id (env.markLaterUnreceipted completed id w)) :
    LeavesMarked env store completed id
      (.stopped why, env.markLaterUnreceipted completed id w) :=
  ⟨hsome, hmarked, fun _ _ hlow hhigh => markLaterUnreceipted_marked hput w hcompleted hlow hhigh⟩

omit hput in
theorem completed_of_staged (hstaged : env.stagedAt store id = some handles) :
    (store (env.completedKey id)).isSome := by
  unfold Environment.stagedAt at hstaged
  cases hbody : store (env.completedKey id) with
  | none => simp [hbody] at hstaged
  | some body => rfl

theorem decideCheckpoint_marked {tried : Environment.Attempted}
    (hstaged : env.stagedAt store id = some handles)
    (hcompleted : ∀ j, tried.walk.store (env.completedKey j) = store (env.completedKey j))
    (haccounted : AllAccounted env id handles tried.slots tried.walk)
    (hdone : tried.allCommitted = true → ∀ s ∈ tried.slots, s.committed = true) :
    LeavesMarked env store completed id (env.decideCheckpoint completed id tried) := by
  have hsome := completed_of_staged hstaged
  have hobserved := haccounted.mono Within.observe
  have hwalk : ∀ j, (env.observe tried.walk).store (env.completedKey j) =
      store (env.completedKey j) := hcompleted
  unfold Environment.decideCheckpoint
  split
  · rename_i hall
    have hcommitted := hdone hall
    split
    · refine leavesMarked_later hput hwalk hsome ?_
      refine (hobserved.mono ((Marks.markLaterUnreceipted completed id _).within id)).marked
        hstaged ?_
      intro s hs hno
      rw [hcommitted s hs] at hno
      exact absurd hno (by decide)
    · dsimp only
      split
      · trivial
      · rename_i hwritten
        exact absurd (hput _) hwritten
  · refine leavesMarked_later hput ?_ hsome ?_
    · intro j
      rw [(Marks.persistUnresolvedMarkers id tried.slots _).completed]
      exact hwalk j
    · refine (hobserved.mono (((Marks.persistUnresolvedMarkers id tried.slots _).trans
        (.markLaterUnreceipted completed id _)).within id)).marked hstaged ?_
      intro s hs hno hnot
      exact (Marks.markLaterUnreceipted completed id _).kept _
        (persistUnresolvedMarkers_marked hput _ hs hno hnot)

theorem resolveHandles_marked (hstaged : env.stagedAt store id = some handles)
    (hcompleted : ∀ j, w.store (env.completedKey j) = store (env.completedKey j))
    (hquiet : Quiet w.log) :
    LeavesMarked env store completed id (env.resolveHandles completed id handles w) := by
  set read := env.readReceipts id (Environment.slotsFrom 0 handles) w with hread
  have hwithin : Within env id w (env.observe read.2) :=
    (Environment.within_readReceipts _ w).trans Within.observe
  have haccounted : AllAccounted env id handles read.1 (env.observe read.2) :=
    ⟨Environment.placed_readReceipts handles w,
      fun s hs => (accounted_readReceipts handles w hs).1.mono Within.observe⟩
  unfold Environment.resolveHandles
  dsimp only
  rw [← hread]
  split
  · refine ⟨completed_of_staged hstaged, ?_, fun hother => absurd rfl hother⟩
    refine (haccounted.mono ((Marks.persistUnresolvedMarkers id read.1 _).within id)).marked
      hstaged ?_
    intro s hs hno hnot
    exact persistUnresolvedMarkers_marked hput _ hs hno hnot
  · rename_i hcancel
    have hquiet' : Quiet (env.observe read.2).log :=
      (Environment.quiet_readReceipts _ hquiet).observe (Bool.eq_false_of_not_eq_true hcancel)
    refine decideCheckpoint_marked hput hstaged ?_ (haccounted.attempts hput _ hquiet')
      fun hall => (Environment.attempts_done _ hquiet' hall).2
    intro j
    rw [(hwithin.trans (Environment.within_attempts _ hquiet')).completed, hcompleted]

theorem resolveCheckpoint_marked
    (hcompleted : ∀ j, w.store (env.completedKey j) = store (env.completedKey j))
    (hquiet : Quiet w.log) :
    LeavesMarked env store completed id (env.resolveCheckpoint completed id w) := by
  have hstaged : ∀ staged, env.stagedAt w.store id = staged → env.stagedAt store id = staged := by
    intro staged heq
    rw [← heq]
    exact stagedAt_congr (hcompleted id).symm
  unfold Environment.resolveCheckpoint
  split
  · rename_i hnone
    rw [hcompleted] at hnone
    exact hnone
  · rename_i body hbody
    have hsome : (store (env.completedKey id)).isSome := by
      rw [← hcompleted, hbody]
      rfl
    -- nothing is staged, so nothing is left to mark at this checkpoint
    have hstop : ∀ why, (∀ handles, env.stagedAt w.store id = some handles → handles = []) →
        LeavesMarked env store completed id
          (.stopped why, env.markLaterUnreceipted completed id w) := by
      intro why hnothing
      refine leavesMarked_later hput hcompleted hsome ?_
      intro handles i h hat hi
      rw [stagedAt_congr (hcompleted id).symm] at hat
      rw [hnothing handles hat] at hi
      exact absurd hi (by simp)
    split
    · rename_i hinfo
      exact hstop _ fun handles hat => by simp [Environment.stagedAt, hbody, hinfo] at hat
    · rename_i info hinfo
      split
      · rename_i hhandles
        exact hstop _ fun handles hat => by
          simp [Environment.stagedAt, hbody, hinfo, hhandles] at hat
      · rename_i hhandles
        exact hstop _ fun handles hat => by
          simpa [Environment.stagedAt, hbody, hinfo, hhandles, eq_comm] using hat
      · rename_i first rest hhandles
        refine resolveHandles_marked hput (hstaged _ ?_) hcompleted hquiet
        simp [Environment.stagedAt, hbody, hinfo, hhandles]

/-! ## The whole walk -/

/-- The walk stopped at the first completed checkpoint it did not confirm. -/
structure StoppedAt (env : Environment) (store : List Char → Option (List Char))
    (completed k : Nat) (why : Environment.Stop) (r : Environment.Result) : Prop where
  stop : r.stop = some (k, why)
  above : r.confirmed < k
  within : k ≤ completed
  completed : (store (env.completedKey k)).isSome
  first : ∀ j, r.confirmed < j → j < k → store (env.completedKey j) = none

/-- What a walk that stopped at `k` leaves marked. -/
structure StopMarked (env : Environment) (store : List Char → Option (List Char))
    (completed k : Nat) (why : Environment.Stop) (r : Environment.Result) : Prop where
  here : Marked env store k r.walk
  later : why ≠ .cancelledBeforeProbing → ∀ id, k < id → id ≤ completed →
    Marked env store id r.walk

theorem Reached.resolveIds_marked {reached n : Nat}
    (h : Reached env store confirmed id w) (hreached : reached < id)
    (hskipped : ∀ j, reached < j → j < id → store (env.completedKey j) = none)
    (hend : id + n = completed + 1)
    (hleft : ∃ j, (env.resolveIds completed (List.range' id n) reached w).confirmed < j ∧
      j ≤ completed ∧ (store (env.completedKey j)).isSome) :
    ∃ k why, StoppedAt env store completed k why
        (env.resolveIds completed (List.range' id n) reached w) ∧
      StopMarked env store completed k why
        (env.resolveIds completed (List.range' id n) reached w) := by
  induction n generalizing id w reached with
  | zero =>
      obtain ⟨j, hlow, hhigh, hsome⟩ := hleft
      rw [hskipped j hlow (by omega)] at hsome
      exact absurd hsome (by simp)
  | succ n ih =>
      have hleaves := h.resolveCheckpoint completed
      have hmarked : LeavesMarked env store completed id
          (env.resolveCheckpoint completed id w) :=
        resolveCheckpoint_marked hput h.completed h.quiet
      rw [List.range'_succ] at hleft ⊢
      unfold Environment.resolveIds at hleft ⊢
      generalize env.resolveCheckpoint completed id w = outcome at hleft hleaves hmarked ⊢
      obtain ⟨outcome, w'⟩ := outcome
      cases outcome with
      | skipped =>
          refine ih hleaves (by omega) ?_ (by omega) hleft
          intro j hlow hhigh
          by_cases hj : j = id
          · rw [hj]
            exact hmarked
          · exact hskipped j hlow (by omega)
      | confirmed =>
          refine ih hleaves (Nat.lt_succ_self id) ?_ (by omega) hleft
          intro j hlow hhigh
          omega
      | stopped why =>
          obtain ⟨hsome, hhere, hlater⟩ := hmarked
          exact ⟨id, why, ⟨rfl, hreached, by omega, hsome, hskipped⟩, ⟨hhere, hlater⟩⟩

end Markers

/-- A walk that returns with a completed checkpoint unconfirmed stopped at the
first such, and left its handles, and unless it was cancelled before probing
them those of the later checkpoints, marked. -/
theorem stopped_walk_leaves_markers (env : Environment)
    (store : List Char → Option (List Char)) (confirmed completed : Nat)
    (hput : ∀ n, env.putSucceeds n = true) (hdir : env.checkpointDir ≠ [])
    (hleft : ∃ id, (env.resolveInDoubtCommits store confirmed completed).confirmed < id ∧
      id ≤ completed ∧ (store (env.completedKey id)).isSome) :
    ∃ k why,
      StoppedAt env store completed k why (env.resolveInDoubtCommits store confirmed completed) ∧
      StopMarked env store completed k why
        (env.resolveInDoubtCommits store confirmed completed) := by
  by_cases hnone : completed ≤ confirmed
  · rw [Environment.resolveInDoubtCommits, if_pos (.inr hnone)] at hleft
    obtain ⟨id, hlow, hhigh, -⟩ := hleft
    exact absurd hlow (Nat.not_lt_of_le (Nat.le_trans hhigh hnone))
  · have hwalk : env.resolveInDoubtCommits store confirmed completed =
        env.resolveIds completed (List.range' (confirmed + 1) (completed - confirmed)) confirmed
          ⟨store, []⟩ := by
      rw [Environment.resolveInDoubtCommits, if_neg]
      rintro (h | h)
      · exact hdir h
      · exact hnone h
    rw [hwalk] at hleft ⊢
    refine (reached_start env store confirmed).resolveIds_marked hput (Nat.lt_succ_self _) ?_ ?_
      hleft
    · intro j hlow hhigh
      omega
    · omega

/-! ## Two sinks -/

/-- A handle of checkpoint 1 staged without a watermark horizon. -/
def olderHandle : List Char := "\x7b\"ckpt\":\"1\",\"resolver\":\"kafka\"\x7d".toList

/-- A handle of checkpoint 1 with a watermark horizon. -/
def newerHandle : List Char :=
  "\x7b\"ckpt\":\"1\",\"resolver\":\"kafka\",\"wm\":\"40\"\x7d".toList

/-- Two sinks of job 7 with a handle each, the first staged by an older binary,
and a resolver that gives each handle one answer. -/
def twoSinks (older newer : InDoubtResolution) : Environment where
  checkpointDir := "/ckpt".toList
  jobId := 7
  snapshots := fun path =>
    if path = snapshotPath "/ckpt".toList 1 0 1 then
      .rows [(operatorStateKeyPrefix :: txnResumeStateKeyPrefix ++ "sub0".toList, olderHandle)]
    else if path = snapshotPath "/ckpt".toList 1 1 1 then
      .rows [(operatorStateKeyPrefix :: txnResumeStateKeyPrefix ++ "sub1".toList, newerHandle)]
    else .missing
  parse := fun text =>
    if text = olderHandle then
      some (.object [("ckpt".toList, .string "1".toList),
        ("resolver".toList, .string "kafka".toList)])
    else if text = newerHandle then
      some (.object [("ckpt".toList, .string "1".toList),
        ("resolver".toList, .string "kafka".toList), ("wm".toList, .string "40".toList)])
    else none
  resolvers := fun name =>
    if name = "kafka".toList then
      some fun _ handle => if handle = olderHandle then older else newer
    else none
  cancel := fun _ => false
  putSucceeds := fun _ => true
  removeSucceeds := fun _ => true

/-- Checkpoint 1 completed. -/
def oneCompleted (key : List Char) : Option (List Char) :=
  if key = "_jobs/7/COMPLETED-1".toList then
    some (StateLocation.completedMarkerBody 7 1 1 [0, 1] [])
  else none

def committedAnswer : InDoubtResolution := ⟨true, false⟩

def refusedAnswer : InDoubtResolution := ⟨false, false⟩

def inconclusiveAnswer : InDoubtResolution := ⟨false, true⟩

/-- The older sink's broker cannot be reached and the newer one's refuses. -/
def unreachableAndRefused : Environment := twoSinks inconclusiveAnswer refusedAnswer

/-- The older sink's transaction is committed and the newer one's refused. -/
def committedAndRefused : Environment := twoSinks committedAnswer refusedAnswer

theorem stopped_walk_leaves_markers_two_sinks :
    (∀ n, unreachableAndRefused.putSucceeds n = true) ∧
      unreachableAndRefused.checkpointDir ≠ [] ∧
      ∃ k why,
        StoppedAt unreachableAndRefused oneCompleted 1 k why
          (unreachableAndRefused.resolveInDoubtCommits oneCompleted 0 1) ∧
        StopMarked unreachableAndRefused oneCompleted 1 k why
          (unreachableAndRefused.resolveInDoubtCommits oneCompleted 0 1) :=
  ⟨fun _ => rfl, by decide, stopped_walk_leaves_markers _ oneCompleted 0 1 (fun _ => rfl)
    (by decide) ⟨1, by decide, by decide, by decide⟩⟩

/-- With one commit and one refusal the walk stops at checkpoint 1, and the
committed handle, which has no horizon, is left with neither a receipt nor a
marker. -/
theorem commit_without_horizon_unmarked :
    (∀ n, committedAndRefused.putSucceeds n = true) ∧
      committedAndRefused.stagedAt oneCompleted 1 =
        some [⟨0, 0, olderHandle⟩, ⟨1, 1, newerHandle⟩] ∧
      (committedAndRefused.resolveInDoubtCommits oneCompleted 0 1).stop = some (1, .unresolved) ∧
      ¬ ∀ handles i h, committedAndRefused.stagedAt oneCompleted 1 = some handles →
        handles[i]? = some h →
        (committedAndRefused.resolveInDoubtCommits oneCompleted 0 1).walk.store
          (committedAndRefused.receiptKey h.subtask 1) = none →
        ¬ FinallyRefused 1 i
          (committedAndRefused.resolveInDoubtCommits oneCompleted 0 1).walk.log →
        ((committedAndRefused.resolveInDoubtCommits oneCompleted 0 1).walk.store
          (committedAndRefused.markerKey h.subtask 1)).isSome := by
  have hstaged : committedAndRefused.stagedAt oneCompleted 1 =
      some [⟨0, 0, olderHandle⟩, ⟨1, 1, newerHandle⟩] := by
    decide
  refine ⟨fun _ => rfl, hstaged, by decide, fun hclaim => ?_⟩
  have hlog : (committedAndRefused.resolveInDoubtCommits oneCompleted 0 1).walk.log =
      [.observed false, .observed false, .probed 1 0 committedAnswer, .observed false,
        .retired 1 0, .observed false, .probed 1 1 refusedAnswer, .observed false, .retired 1 1,
        .observed false, .observed false] := by
    decide
  have hrefused : ¬ FinallyRefused 1 0
      (committedAndRefused.resolveInDoubtCommits oneCompleted 0 1).walk.log := by
    rw [hlog]
    rintro ⟨result, hmem, hcommitted, -⟩
    have hresult : result = committedAnswer := by
      simpa using hmem
    rw [hresult] at hcommitted
    exact absurd hcommitted (by decide)
  have hmarker := hclaim _ 0 _ hstaged rfl (by decide) hrefused
  exact absurd hmarker (by decide)

end Clink.Ports.InDoubt

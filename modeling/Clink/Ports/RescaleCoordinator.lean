import Mathlib.Data.Finset.Card
import Clink.Verified.Run

/-!
# The phases of an operator's rescale

The embedding of `RescaleCoordinator` (`src/cluster/rescale_coordinator.cpp`): the
record of one rescale per operator, which the handlers of the coordinator move from
phase to phase.  A phase ends when as many subtasks have reported as the operator has,
and a report is counted by the size of the set of indices reported.

The set also takes indices that are no subtask's, so a phase can end without the
reports it waits for.  As long as no such index is reported to a phase that waits
(`Permitted`), the set is full when its size says so (`Tally.full`).
-/

namespace Clink.Ports.RescaleCoordinator

open Clink.Verified

/-! ## The state machine -/

inductive RescaleState
  | idle
  | preparing
  | draining
  | cuttingOver
  | complete
  | aborted
  deriving DecidableEq

def RescaleState.toString : RescaleState → String
  | idle => "Idle"
  | preparing => "Preparing"
  | draining => "Draining"
  | cuttingOver => "CuttingOver"
  | complete => "Complete"
  | aborted => "Aborted"

/-- The status of an operator and the indices reported. -/
structure Entry where
  currentParallelism : UInt32
  targetParallelism : UInt32
  minParallelism : UInt32
  maxParallelism : UInt32
  state : RescaleState := .idle
  cutoverCheckpoint : UInt64 := 0
  oldSubtasksDrained : UInt32 := 0
  newSubtasksReady : UInt32 := 0
  drainedSubtasks : Finset UInt32 := ∅
  readySubtasks : Finset UInt32 := ∅

namespace Entry

def registerOperator (current min max : UInt32) : Entry where
  currentParallelism := current
  targetParallelism := current
  minParallelism := min
  maxParallelism := max

/-- The tallies of a rescale that has not begun to drain. -/
def cleared (e : Entry) : Entry :=
  { e with
    cutoverCheckpoint := 0
    oldSubtasksDrained := 0
    newSubtasksReady := 0
    drainedSubtasks := ∅
    readySubtasks := ∅ }

/-- Refused with the reason. -/
def requestRescale (opId : String) (e : Entry) (newParallelism : UInt32) : Except String Entry :=
  if e.minParallelism = 0 ∧ e.maxParallelism = 0 then
    .error ("operator '" ++ opId ++ "' has no autoscale bounds " ++
      "(min_parallelism / max_parallelism unset)")
  else if newParallelism < e.minParallelism then
    .error ("requested parallelism " ++ toString newParallelism.toNat ++
      " below min_parallelism " ++ toString e.minParallelism.toNat)
  else if e.maxParallelism < newParallelism then
    .error ("requested parallelism " ++ toString newParallelism.toNat ++
      " above max_parallelism " ++ toString e.maxParallelism.toNat)
  else if newParallelism = e.currentParallelism then
    .error "requested parallelism equals current; no-op"
  else if e.state ≠ .idle ∧ e.state ≠ .complete ∧ e.state ≠ .aborted then
    .error ("operator '" ++ opId ++ "' already has a rescale in progress (state=" ++
      e.state.toString ++ ")")
  else .ok { e.cleared with targetParallelism := newParallelism, state := .preparing }

def markCheckpointReady (e : Entry) (checkpointId : UInt64) : Option Entry :=
  if e.state ≠ .preparing then none
  else some { e with cutoverCheckpoint := checkpointId, state := .draining }

/-- The count of a set of indices after one more; a repeated one leaves it. -/
def countAfter (seen : Finset UInt32) (count subtaskIdx : UInt32) : UInt32 :=
  if subtaskIdx ∈ seen then count else UInt32.ofNat (insert subtaskIdx seen).card

def markOldDrained (e : Entry) (subtaskIdx : UInt32) : Option Entry :=
  if e.state ≠ .draining then none
  else
    let drained := countAfter e.drainedSubtasks e.oldSubtasksDrained subtaskIdx
    some { e with
      drainedSubtasks := insert subtaskIdx e.drainedSubtasks
      oldSubtasksDrained := drained
      state := if e.currentParallelism ≤ drained then .cuttingOver else e.state }

def markNewReady (e : Entry) (subtaskIdx : UInt32) : Option Entry :=
  if e.state ≠ .cuttingOver then none
  else
    let ready := countAfter e.readySubtasks e.newSubtasksReady subtaskIdx
    some { e with
      readySubtasks := insert subtaskIdx e.readySubtasks
      newSubtasksReady := ready
      currentParallelism :=
        if e.targetParallelism ≤ ready then e.targetParallelism else e.currentParallelism
      state := if e.targetParallelism ≤ ready then .complete else e.state }

def markReplanComplete (e : Entry) (newParallelism : UInt32) : Option Entry :=
  if e.state ≠ .preparing then none
  else some { e.cleared with
    currentParallelism := newParallelism
    targetParallelism := newParallelism
    state := .complete }

def abort (e : Entry) : Option Entry :=
  if e.state = .idle ∨ e.state = .complete then none
  else some { e.cleared with targetParallelism := e.currentParallelism, state := .aborted }

end Entry

/-! ## Calls -/

inductive Call
  | requestRescale (newParallelism : UInt32)
  | markCheckpointReady (checkpointId : UInt64)
  | markOldDrained (subtaskIdx : UInt32)
  | markNewReady (subtaskIdx : UInt32)
  | markReplanComplete (newParallelism : UInt32)
  | abort
  deriving DecidableEq

/-- The entry after a call, none where the call is refused. -/
def Entry.apply (opId : String) (e : Entry) : Call → Option Entry
  | .requestRescale n => (e.requestRescale opId n).toOption
  | .markCheckpointReady id => e.markCheckpointReady id
  | .markOldDrained i => e.markOldDrained i
  | .markNewReady i => e.markNewReady i
  | .markReplanComplete n => e.markReplanComplete n
  | .abort => e.abort

/-- The operators, and for each the calls accepted since its rescale was requested. -/
structure System where
  ops : String → Option Entry
  since : String → List Call := fun _ => []

/-- The calls since the request, once one more is accepted. -/
def sinceAfter (since : List Call) : Call → List Call
  | .requestRescale _ => []
  | c => since ++ [c]

/-- A call for one operator; one that is not registered is refused. -/
def next (s : System) (c : String × Call) : System :=
  match (s.ops c.1).bind fun e => e.apply c.1 c.2 with
  | none => s
  | some e =>
      { ops := Function.update s.ops c.1 (some e)
        since := Function.update s.since c.1 (sinceAfter (s.since c.1) c.2) }

/-- The operators as registered, with their parallelism and its bounds. -/
def registered (registry : String → Option (UInt32 × UInt32 × UInt32)) : System where
  ops opId := (registry opId).map fun r => Entry.registerOperator r.1 r.2.1 r.2.2

/-! ## Reports -/

/-- Every index seen is below `n` and was reported, and the count is theirs. -/
structure Tally (seen : Finset UInt32) (count n : UInt32) (mark : UInt32 → Call)
    (since : List Call) : Prop where
  below : ∀ i ∈ seen, i < n
  marked : ∀ i ∈ seen, mark i ∈ since
  counted : count.toNat = seen.card

namespace Tally

variable {seen : Finset UInt32} {count n : UInt32} {mark : UInt32 → Call} {since since' : List Call}

theorem empty (n : UInt32) (mark : UInt32 → Call) (since : List Call) :
    Tally ∅ 0 n mark since where
  below := nofun
  marked := nofun
  counted := rfl

theorem mono (h : Tally seen count n mark since) (hsub : since ⊆ since') :
    Tally seen count n mark since' :=
  ⟨h.below, fun i hi => hsub (h.marked i hi), h.counted⟩

theorem image_subset (h : ∀ i ∈ seen, i < n) :
    seen.image UInt32.toNat ⊆ Finset.range n.toNat := by
  intro k hk
  obtain ⟨i, hi, rfl⟩ := Finset.mem_image.mp hk
  exact Finset.mem_range.mpr (UInt32.lt_iff_toNat_lt.mp (h i hi))

theorem card_image (seen : Finset UInt32) :
    (seen.image UInt32.toNat).card = seen.card :=
  Finset.card_image_of_injective _ fun _ _ => UInt32.toNat_inj.mp

theorem insert (h : Tally seen count n mark since) {i : UInt32} (hi : i < n) :
    Tally (insert i seen) (UInt32.ofNat (Insert.insert i seen).card) n mark
      (since ++ [mark i]) where
  below := by
    intro j hj
    rcases Finset.mem_insert.mp hj with rfl | hj
    · exact hi
    · exact h.below j hj
  marked := by
    intro j hj
    rcases Finset.mem_insert.mp hj with rfl | hj
    · exact List.mem_append_right _ (List.mem_singleton_self _)
    · exact List.mem_append_left _ (h.marked j hj)
  counted := by
    have hbelow : ∀ j ∈ Insert.insert i seen, j < n := by
      intro j hj
      rcases Finset.mem_insert.mp hj with rfl | hj
      · exact hi
      · exact h.below j hj
    have hcard := Finset.card_le_card (image_subset hbelow)
    rw [card_image, Finset.card_range] at hcard
    exact UInt32.toNat_ofNat_of_lt' (lt_of_le_of_lt hcard n.toNat_lt)

/-- As many indices below `n` as `n` are all of them. -/
theorem full (h : Tally seen count n mark since) (hle : n ≤ count) :
    ∀ i, i < n → mark i ∈ since := by
  intro i hi
  have hcard : (Finset.range n.toNat).card ≤ (seen.image UInt32.toNat).card := by
    rw [card_image, Finset.card_range, ← h.counted]
    exact UInt32.le_iff_toNat_le.mp hle
  have hall := Finset.eq_of_subset_of_card_le (image_subset h.below) hcard
  have hmem : i.toNat ∈ seen.image UInt32.toNat := by
    rw [hall]
    exact Finset.mem_range.mpr (UInt32.lt_iff_toNat_lt.mp hi)
  obtain ⟨j, hj, hij⟩ := Finset.mem_image.mp hmem
  exact h.marked i (UInt32.toNat_inj.mp hij ▸ hj)

end Tally

/-! ## Runs without stray reports -/

/-- An index reported to a phase that waits is a subtask's, and a replan stays within
the bounds. -/
def Entry.Permits (e : Entry) : Call → Prop
  | .markOldDrained i => e.state = .draining → i < e.currentParallelism
  | .markNewReady i => e.state = .cuttingOver → i < e.targetParallelism
  | .markReplanComplete n => e.state = .preparing → e.minParallelism ≤ n ∧ n ≤ e.maxParallelism
  | _ => True

instance (e : Entry) : (c : Call) → Decidable (e.Permits c)
  | .markOldDrained i => inferInstanceAs (Decidable (_ = _ → i < _))
  | .markNewReady i => inferInstanceAs (Decidable (_ = _ → i < _))
  | .markReplanComplete n => inferInstanceAs (Decidable (_ = _ → _ ≤ n ∧ n ≤ _))
  | .requestRescale _ | .markCheckpointReady _ | .abort => .isTrue trivial

def Permitted (_ : List (String × Call)) (s : System) (c : String × Call) : Prop :=
  ∀ e ∈ s.ops c.1, e.Permits c.2

instance (es : List (String × Call)) (s : System) : DecidablePred (Permitted es s) := fun c =>
  inferInstanceAs (Decidable (∀ e ∈ s.ops c.1, e.Permits c.2))

def RescaleState.Active (s : RescaleState) : Prop := s = preparing ∨ s = draining ∨ s = cuttingOver

/-- An operator between calls, registered as `r`. -/
structure Entry.Inv (r : Entry) (e : Entry) (since : List Call) : Prop where
  min : e.minParallelism = r.minParallelism
  max : e.maxParallelism = r.maxParallelism
  current : e.currentParallelism = r.currentParallelism ∨
    (e.minParallelism ≤ e.currentParallelism ∧ e.currentParallelism ≤ e.maxParallelism)
  target : e.state.Active →
    e.minParallelism ≤ e.targetParallelism ∧ e.targetParallelism ≤ e.maxParallelism
  drained : e.state = .preparing ∨ e.state = .draining →
    Tally e.drainedSubtasks e.oldSubtasksDrained e.currentParallelism .markOldDrained since
  ready : e.state.Active →
    Tally e.readySubtasks e.newSubtasksReady e.targetParallelism .markNewReady since

/-- What a call does to the phase of an operator: a phase is entered once its reports are
in, and the parallelism changes with the last phase. -/
structure Entry.Advances (c : Call) (e e' : Entry) (since : List Call) : Prop where
  cuttingOver : e.state ≠ .cuttingOver → e'.state = .cuttingOver →
    ∀ i, i < e.currentParallelism → .markOldDrained i ∈ since
  complete : e.state ≠ .complete → e'.state = .complete → (∃ i, c = .markNewReady i) →
    ∀ i, i < e.targetParallelism → .markNewReady i ∈ since
  current : e'.currentParallelism ≠ e.currentParallelism →
    e.state ≠ .complete ∧ e'.state = .complete

namespace Entry

variable {r e e' : Entry} {since : List Call} {opId : String}

theorem Inv.registerOperator (current min max : UInt32) :
    Inv (Entry.registerOperator current min max) (Entry.registerOperator current min max) [] where
  min := rfl
  max := rfl
  current := .inl rfl
  target := nofun
  drained := nofun
  ready := nofun

theorem subset_snoc (since : List Call) (c : Call) : since ⊆ since ++ [c] :=
  List.subset_append_left _ _

section

variable (h : Inv r e since)
include h

theorem Inv.requestRescale {n : UInt32} (hok : e.requestRescale opId n = .ok e') :
    Inv r e' [] ∧ Advances (.requestRescale n) e e' [] := by
  unfold Entry.requestRescale at hok
  split_ifs at hok with hunset hmin hmax hsame hbusy
  obtain rfl := Except.ok.inj hok
  refine ⟨⟨h.min, h.max, h.current, fun _ => ⟨UInt32.not_lt.mp hmin, UInt32.not_lt.mp hmax⟩,
    fun _ => .empty _ _ _, fun _ => .empty _ _ _⟩, ⟨nofun, nofun, fun hne => absurd rfl hne⟩⟩

theorem Inv.markCheckpointReady {id : UInt64} (hok : e.markCheckpointReady id = some e') :
    Inv r e' (since ++ [.markCheckpointReady id]) ∧
      Advances (.markCheckpointReady id) e e' (since ++ [.markCheckpointReady id]) := by
  unfold Entry.markCheckpointReady at hok
  split at hok
  · exact nomatch hok
  · rename_i hstate
    have hpreparing : e.state = .preparing := not_not.mp hstate
    obtain rfl := Option.some.inj hok
    have hactive : e.state.Active := .inl hpreparing
    exact ⟨⟨h.min, h.max, h.current, fun _ => h.target hactive,
      fun _ => (h.drained (.inl hpreparing)).mono (subset_snoc _ _),
      fun _ => (h.ready hactive).mono (subset_snoc _ _)⟩, ⟨nofun, nofun, fun hne => absurd rfl hne⟩⟩

omit h in
theorem tally_report {seen : Finset UInt32} {count n i : UInt32} {mark : UInt32 → Call}
    (h : Tally seen count n mark since) (hi : i < n) :
    Tally (insert i seen) (countAfter seen count i) n mark (since ++ [mark i]) := by
  unfold countAfter
  split
  · rename_i hmem
    rw [Finset.insert_eq_of_mem hmem]
    exact h.mono (subset_snoc _ _)
  · exact h.insert hi

theorem Inv.markOldDrained {i : UInt32} (hpermits : e.Permits (.markOldDrained i))
    (hok : e.markOldDrained i = some e') :
    Inv r e' (since ++ [.markOldDrained i]) ∧
      Advances (.markOldDrained i) e e' (since ++ [.markOldDrained i]) := by
  unfold Entry.markOldDrained at hok
  split at hok
  · exact nomatch hok
  · rename_i hstate
    have hdraining : e.state = .draining := not_not.mp hstate
    have hactive : e.state.Active := .inr (.inl hdraining)
    have htally := tally_report (h.drained (.inr hdraining)) (hpermits hdraining)
    have hready := (h.ready hactive).mono (subset_snoc since (.markOldDrained i))
    obtain rfl := Option.some.inj hok
    refine ⟨⟨h.min, h.max, h.current, fun _ => h.target hactive, fun _ => htally, fun _ => hready⟩,
      ⟨fun _ hentered => ?_, fun _ hentered => ?_, fun hne => absurd rfl hne⟩⟩
    · dsimp only at hentered
      split at hentered
      · rename_i hfull
        exact htally.full hfull
      · exact nomatch hdraining.symm.trans hentered
    · dsimp only at hentered
      split at hentered
      · exact nomatch hentered
      · exact nomatch hdraining.symm.trans hentered

theorem Inv.markNewReady {i : UInt32} (hpermits : e.Permits (.markNewReady i))
    (hok : e.markNewReady i = some e') :
    Inv r e' (since ++ [.markNewReady i]) ∧
      Advances (.markNewReady i) e e' (since ++ [.markNewReady i]) := by
  unfold Entry.markNewReady at hok
  split at hok
  · exact nomatch hok
  · rename_i hstate
    have hcutting : e.state = .cuttingOver := not_not.mp hstate
    have hactive : e.state.Active := .inr (.inr hcutting)
    have htarget := h.target hactive
    have htally := tally_report (h.ready hactive) (hpermits hcutting)
    obtain rfl := Option.some.inj hok
    by_cases hfull : e.targetParallelism ≤ countAfter e.readySubtasks e.newSubtasksReady i
    · simp only [if_pos hfull]
      exact ⟨⟨h.min, h.max, .inr htarget, nofun, nofun, nofun⟩,
        ⟨nofun, fun _ _ _ => htally.full hfull, fun _ => ⟨hcutting ▸ nofun, rfl⟩⟩⟩
    · simp only [if_neg hfull]
      have hnot : ¬ (e.state = .preparing ∨ e.state = .draining) := by
        rw [hcutting]
        exact nofun
      exact ⟨⟨h.min, h.max, h.current, fun _ => htarget, fun hs => absurd hs hnot, fun _ => htally⟩,
        ⟨fun hne => absurd hcutting hne, fun hne heq => absurd heq hne, fun hne => absurd rfl hne⟩⟩

theorem Inv.markReplanComplete {n : UInt32} (hpermits : e.Permits (.markReplanComplete n))
    (hok : e.markReplanComplete n = some e') :
    Inv r e' (since ++ [.markReplanComplete n]) ∧
      Advances (.markReplanComplete n) e e' (since ++ [.markReplanComplete n]) := by
  unfold Entry.markReplanComplete at hok
  split at hok
  · exact nomatch hok
  · rename_i hstate
    have hpreparing : e.state = .preparing := not_not.mp hstate
    obtain rfl := Option.some.inj hok
    exact ⟨⟨h.min, h.max, .inr (hpermits hpreparing), nofun, nofun, nofun⟩,
      ⟨nofun, nofun, fun _ => ⟨hpreparing ▸ nofun, rfl⟩⟩⟩

theorem Inv.abort (hok : e.abort = some e') :
    Inv r e' (since ++ [.abort]) ∧ Advances .abort e e' (since ++ [.abort]) := by
  unfold Entry.abort at hok
  split at hok
  · exact nomatch hok
  · obtain rfl := Option.some.inj hok
    exact ⟨⟨h.min, h.max, h.current, nofun, nofun, nofun⟩,
      ⟨nofun, nofun, fun hne => absurd rfl hne⟩⟩

theorem Inv.apply {c : Call} (hpermits : e.Permits c) (hok : e.apply opId c = some e') :
    Inv r e' (sinceAfter since c) ∧ Advances c e e' (sinceAfter since c) := by
  cases c with
  | requestRescale n =>
      change (e.requestRescale opId n).toOption = some e' at hok
      cases hresult : e.requestRescale opId n with
      | error reason =>
          rw [hresult] at hok
          exact nomatch hok
      | ok a =>
          rw [hresult] at hok
          obtain rfl := Option.some.inj hok
          exact h.requestRescale hresult
  | markCheckpointReady id => exact h.markCheckpointReady hok
  | markOldDrained i => exact h.markOldDrained hpermits hok
  | markNewReady i => exact h.markNewReady hpermits hok
  | markReplanComplete n => exact h.markReplanComplete hpermits hok
  | abort => exact h.abort hok

end

theorem Advances.refused (c : Call) (e : Entry) (since : List Call) : Advances c e e since where
  cuttingOver hne heq := absurd heq hne
  complete hne heq := absurd heq hne
  current hne := absurd rfl hne

end Entry

section System

variable {registry : String → Option (UInt32 × UInt32 × UInt32)} {s : System} {c : String × Call}

/-- Every operator is registered and between calls. -/
def System.Inv (registry : String → Option (UInt32 × UInt32 × UInt32)) (s : System) : Prop :=
  ∀ opId e, s.ops opId = some e →
    ∃ r, registry opId = some r ∧
      Entry.Inv (Entry.registerOperator r.1 r.2.1 r.2.2) e (s.since opId)

theorem next_of_ne {opId : String} (hne : opId ≠ c.1) :
    (next s c).ops opId = s.ops opId ∧ (next s c).since opId = s.since opId := by
  unfold next
  split
  · exact ⟨rfl, rfl⟩
  · exact ⟨Function.update_of_ne hne _ _, Function.update_of_ne hne _ _⟩

/-- The operator called keeps its invariant, and its phase advances as it should. -/
theorem next_self {e : Entry} (hs : s.Inv registry) (hok : Permitted [] s c)
    (he : s.ops c.1 = some e) :
    ∃ e', (next s c).ops c.1 = some e' ∧ Entry.Advances c.2 e e' ((next s c).since c.1) ∧
      ∃ r, registry c.1 = some r ∧
        Entry.Inv (Entry.registerOperator r.1 r.2.1 r.2.2) e' ((next s c).since c.1) := by
  obtain ⟨r, hr, hinv⟩ := hs c.1 e he
  unfold next
  rw [he, Option.bind_some]
  cases happly : e.apply c.1 c.2 with
  | none => exact ⟨e, he, .refused c.2 e _, r, hr, hinv⟩
  | some e' =>
      obtain ⟨hinv', hadvances⟩ := hinv.apply (hok e he) happly
      dsimp only
      rw [Function.update_self, Function.update_self]
      exact ⟨e', rfl, hadvances, r, hr, hinv'⟩

theorem System.Inv.next (hs : s.Inv registry) (hok : Permitted [] s c) :
    (RescaleCoordinator.next s c).Inv registry := by
  intro opId e he
  by_cases hop : opId = c.1
  · subst hop
    cases hbefore : s.ops c.1 with
    | none =>
        unfold RescaleCoordinator.next at he ⊢
        rw [hbefore] at he ⊢
        exact nomatch hbefore.symm.trans he
    | some e₀ =>
        obtain ⟨e', he', -, hinv⟩ := next_self hs hok hbefore
        obtain rfl := Option.some.inj (he.symm.trans he')
        exact hinv
  · obtain ⟨hops, hsince⟩ := next_of_ne (s := s) hop
    rw [hsince]
    exact hs opId e (hops.symm.trans he)

theorem inv_of_runs {es : List (String × Call)}
    (hrun : Runs next Permitted (registered registry) es s) : s.Inv registry := by
  refine hrun.induct (I := fun _ s => s.Inv registry) ?_ fun es s c _ ih hok => ih.next hok
  intro opId e he
  obtain ⟨r, hr, rfl⟩ := Option.map_eq_some_iff.mp he
  exact ⟨r, hr, .registerOperator _ _ _⟩

/-- In a run without stray reports every call advances the phase of its operator only once
the reports are in and leaves the other operators alone, and the parallelism of an operator
is the one it was registered with or within the bounds. -/
theorem phases_acknowledged {es : List (String × Call)}
    (hrun : Runs next Permitted (registered registry) es s) (hok : Permitted es s c) :
    (∀ e, s.ops c.1 = some e → ∃ e', (next s c).ops c.1 = some e' ∧
      Entry.Advances c.2 e e' ((next s c).since c.1)) ∧
    (∀ opId, opId ≠ c.1 → (next s c).ops opId = s.ops opId) ∧
    ∀ opId e, s.ops opId = some e → ∃ r, registry opId = some r ∧
      (e.currentParallelism =
        r.1 ∨ (r.2.1 ≤ e.currentParallelism ∧ e.currentParallelism ≤ r.2.2)) := by
  have hs := inv_of_runs hrun
  refine ⟨fun e he => ?_, fun opId hne => (next_of_ne hne).1, fun opId e he => ?_⟩
  · obtain ⟨e', he', hadvances, -⟩ := next_self hs hok he
    exact ⟨e', he', hadvances⟩
  · obtain ⟨r, hr, hinv⟩ := hs opId e he
    have hcurrent := hinv.current
    rw [hinv.min, hinv.max] at hcurrent
    exact ⟨r, hr, hcurrent⟩

end System

/-! ## Reports of no subtask -/

/-- One operator of two subtasks, to be kept between one and four. -/
def twoSubtasks (opId : String) : Option (UInt32 × UInt32 × UInt32) :=
  if opId = "map" then some (2, 1, 4) else none

/-- The calls up to the first report of a rescale to three. -/
def untilReport (subtaskIdx : UInt32) : List (String × Call) :=
  [("map", .requestRescale 3), ("map", .markCheckpointReady 9), ("map", .markOldDrained subtaskIdx)]

/-- The report of the second of two subtasks ends the draining, the first having reported. -/
theorem phases_acknowledged_twoSubtasks :
    ((next ((untilReport 0).foldl next (registered twoSubtasks))
      ("map", .markOldDrained 1)).ops "map").map Entry.state = some .cuttingOver ∧
    ∃ e, ((untilReport 0).foldl next (registered twoSubtasks)).ops "map" = some e ∧
      ∀ i, i < e.currentParallelism → Call.markOldDrained i ∈
        (next ((untilReport 0).foldl next (registered twoSubtasks))
          ("map", .markOldDrained 1)).since
          "map" := by
  have hrun : Runs next Permitted (registered twoSubtasks) (untilReport 0) _ :=
    Runs.of_allowed (by decide)
  have hstep := (phases_acknowledged (c := ("map", .markOldDrained 1)) hrun (by decide)).1 _ rfl
  obtain ⟨e', he', hadvances⟩ := hstep
  obtain rfl := Option.some.inj he'
  exact ⟨rfl, _, rfl, hadvances.cuttingOver (by decide) rfl⟩

/-- Reports of the subtasks 7 and 9 end the draining of an operator that has two subtasks, and
a replan leaves the bounds. -/
theorem stray_reports_end_draining :
    (((untilReport 7).foldl next (registered twoSubtasks)).ops "map").map Entry.state =
      some .draining ∧
    ((next ((untilReport 7).foldl next (registered twoSubtasks))
      ("map", .markOldDrained 9)).ops "map").map Entry.state = some .cuttingOver ∧
    Call.markOldDrained 0 ∉
      (next ((untilReport 7).foldl next (registered twoSubtasks)) ("map", .markOldDrained 9)).since
        "map" ∧
    ((next (next (registered twoSubtasks) ("map", .requestRescale 3))
      ("map", .markReplanComplete 9)).ops "map").map Entry.currentParallelism = some 9 := by
  decide

end Clink.Ports.RescaleCoordinator

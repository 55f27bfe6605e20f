import Clink.Ports.OpLayout
import Clink.Verified.History
import Clink.Verified.Run

/-!
# Which directories a restarted job restores from

The part of a job's state in the cluster coordinator
(`src/cluster/coordinator.cpp`) that decides where each task restores from:
the request gate of a per-operator rescale, `restart_job_locked_` in both its
flavours, and the two places that move the restore point.  A replan rescale
is two events, the accepted request and the restart that carries it out;
checkpoints may complete and be confirmed between them.

A rescalable operator is alone in its chain
(`docs/internals/fault-tolerance-and-rescale.md`), so a replan keeps which
operators lead chains and changes one parallelism.  The retained graph is the
list of those leads.

`restart_job_locked_` redeploys from the tasks on record, so a directive a
replan put on a task is still on it at the next restart.  `Placed` follows
the directives through any history.
-/

namespace Clink.Ports.RestartLayout

open Clink.Verified Clink.Ports.OpLayout Clink.Ports.RescaleDispatch

variable {Op : Type*} [DecidableEq Op]

/-! ## The job -/

structure DeploymentTask where
  subtaskIdx : Nat
  /-- `none` is `kRestoreFromSelf`. -/
  restoreFromSubtaskIdx : Option Nat := none
  restoreFromParentCount : UInt32 := 1
  succeedsFirst : Option UInt32 := none
  succeedsCount : UInt32 := 1
  deriving DecidableEq

/-- The directories the worker reads for a task: the first index, and how many. -/
def DeploymentTask.source (d : DeploymentTask) : Nat × UInt32 :=
  (d.restoreFromSubtaskIdx.getD d.subtaskIdx,
    if d.restoreFromParentCount = 0 then 1 else d.restoreFromParentCount)

structure StaleBlock where
  base : Nat
  parallelism : UInt32
  deriving DecidableEq

structure JobState (Op : Type*) [DecidableEq Op] where
  /-- `confirm_task_keys` is not empty. -/
  tracked : Bool
  graph : List (Op × UInt32)
  taskOpIdentity : IdentityMap Op
  taskRecords : List DeploymentTask
  latestCompleted : Nat := 0
  latestConfirmed : Nat := 0
  staleLayoutBlocks : AList (fun _ : Op => StaleBlock) := ∅
  staleLayoutThrough : Nat := 0
  lastRescaleThrough : Nat := 0
  /-- `pending_op_parallelism`: set by one accepted request, and no other is
  accepted until the restart it staged. -/
  pendingOpParallelism : Option (Op × UInt32) := none

/-- `own_restore_id`: the newest confirmed checkpoint of a tracked job, the
newest completed one of any other. -/
def JobState.restorePoint (s : JobState Op) : Nat :=
  if s.tracked then s.latestConfirmed else s.latestCompleted

def restoreNeedsPreRescaleLayout (haveRetainedLayout : Bool)
    (latestCompletedCheckpointId layoutValidThrough : Nat) : Bool :=
  if !haveRetainedLayout then false
  else if latestCompletedCheckpointId = 0 then false
  else decide (latestCompletedCheckpointId ≤ layoutValidThrough)

/-- Point a task at its operator's block in an earlier layout, when there is a
mapping onto it. -/
def DeploymentTask.through (d : DeploymentTask) (block : StaleBlock) (newP idxInOp : UInt32) :
    DeploymentTask :=
  let mapping := rescaleParentMapping block.parallelism newP idxInOp
  if mapping.ok then
    { d with
      restoreFromSubtaskIdx := some (block.base + mapping.parentIdx.toNat)
      restoreFromParentCount := mapping.parentCount
      succeedsFirst := some mapping.succeedsFirst
      succeedsCount := mapping.succeedsCount }
  else d

/-- `replan_at_new_parallelism_`, on the leads of the retained graph. -/
def resize (graph : List (Op × UInt32)) (op : Op) (newP : UInt32) : List (Op × UInt32) :=
  graph.map fun lead => if lead.1 = op then (lead.1, newP) else lead

/-- A task of the replanned set, told which old directories it inherits. -/
def replanTask (oldOpBlocks : AList fun _ : Op => OpIndexBlock) (newIdentity : IdentityMap Op)
    (task : Nat × TaskOpIdentity Op) : DeploymentTask :=
  let d : DeploymentTask := { subtaskIdx := task.1 }
  match oldOpBlocks.lookup task.2.opId with
  | none => d
  | some block =>
      if block.consistent ∧ block.parallelism ≠ 0 then
        d.through { base := block.base, parallelism := block.parallelism }
          (UInt32.ofNat (taskCount newIdentity task.2.opId)) task.2.subtaskIdxInOp
      else d

/-- The block of an operator that is worth retaining. -/
def OpIndexBlock.retained (block : OpIndexBlock) : Option StaleBlock :=
  if block.consistent ∧ block.baseSet ∧ block.parallelism ≠ 0 then
    some { base := block.base, parallelism := block.parallelism }
  else none

def retainedBlocks (oldOpBlocks : AList fun _ : Op => OpIndexBlock) :
    AList fun _ : Op => StaleBlock :=
  oldOpBlocks.keys.foldl (fun blocks op =>
    match (oldOpBlocks.lookup op).bind OpIndexBlock.retained with
    | some block => blocks.insert op block
    | none => blocks) ∅

/-- A task of a restart that is not a replan: redeployed as it is on record,
or through the retained layout. -/
def JobState.restartTask (s : JobState Op) (d : DeploymentTask) : DeploymentTask :=
  if restoreNeedsPreRescaleLayout (!s.staleLayoutBlocks.keys.isEmpty) s.latestCompleted
      s.staleLayoutThrough then
    match s.taskOpIdentity.lookup d.subtaskIdx with
    | none => d
    | some ident =>
        match s.staleLayoutBlocks.lookup ident.opId with
        | none => d
        | some stale =>
            let newP := deployedParallelism s.taskOpIdentity ident.opId
            if stale.parallelism ≠ 0 ∧ newP ≠ 0 then d.through stale newP ident.subtaskIdxInOp
            else d
  else d

/-- `restart_job_locked_`. -/
def JobState.restart (s : JobState Op) : JobState Op :=
  match s.pendingOpParallelism with
  | some (op, newP) =>
      let oldOpBlocks := deriveOpIndexBlocks s.taskOpIdentity
      let graph := resize s.graph op newP
      let newIdentity := planTasks graph
      { s with
        graph := graph
        taskOpIdentity := newIdentity
        taskRecords := newIdentity.map (replanTask oldOpBlocks newIdentity)
        staleLayoutBlocks := retainedBlocks oldOpBlocks
        staleLayoutThrough := s.latestCompleted
        lastRescaleThrough := s.latestCompleted
        pendingOpParallelism := none }
  | none => { s with taskRecords := s.taskRecords.map s.restartTask }

/-- A checkpoint's completion is durable: the restore point moves, and past
the last rescale the retained layout is dropped. -/
def JobState.complete (s : JobState Op) (id : Nat) : JobState Op :=
  let latest := max s.latestCompleted id
  if !s.staleLayoutBlocks.keys.isEmpty ∧ s.staleLayoutThrough < latest then
    { s with latestCompleted := latest, staleLayoutBlocks := ∅, staleLayoutThrough := 0 }
  else { s with latestCompleted := latest }

/-- A checkpoint's commits are confirmed. -/
def JobState.confirm (s : JobState Op) (id : Nat) : JobState Op :=
  { s with latestConfirmed := max s.latestConfirmed id }

/-- How many subtasks the operator is running; the graph's value for a job
whose tasks have no identity records. -/
def JobState.oldParallelism (s : JobState Op) (op : Op) (graphP : UInt32) : UInt32 :=
  if taskCount s.taskOpIdentity op = 0 then graphP
  else UInt32.ofNat (taskCount s.taskOpIdentity op)

/-- `request_operator_rescale`, where it stages a replan; `admitted` is what
its checks of bounds, capacity and operator kind come to. -/
def JobState.requestRescale (s : JobState Op) (op : Op) (newP : UInt32) (admitted : Bool) :
    JobState Op :=
  if s.pendingOpParallelism.isSome then s
  else
    match s.graph.lookup op with
    | none => s
    | some graphP =>
        let oldP := s.oldParallelism op graphP
        if newP = 0 ∨ newP = oldP ∨ (rescaleParentMapping oldP newP 0).ok = false ∨
            admitted = false ∨ s.latestCompleted = 0 ∨
            (s.lastRescaleThrough ≠ 0 ∧ s.restorePoint ≤ s.lastRescaleThrough) then s
        else { s with pendingOpParallelism := some (op, newP) }

/-! ## Histories -/

inductive Event (Op : Type*) where
  | complete (id : Nat)
  | confirm (id : Nat)
  | requestRescale (op : Op) (newP : UInt32) (admitted : Bool)
  | restart
  deriving DecidableEq

def next (s : JobState Op) : Event Op → JobState Op
  | .complete id => s.complete id
  | .confirm id => s.confirm id
  | .requestRescale op newP admitted => s.requestRescale op newP admitted
  | .restart => s.restart

/-- The checkpoints completed along a history. -/
def completedIds (es : List (Event Op)) : List Nat :=
  es.filterMap fun e =>
    match e with
    | .complete id => some id
    | _ => none

/-- Ids grow, and what is confirmed had completed. -/
def Obeys (es : List (Event Op)) (_ : JobState Op) : Event Op → Prop
  | .complete id => 0 < id ∧ ∀ id' ∈ completedIds es, id' < id
  | .confirm id => id ∈ completedIds es
  | _ => True

instance (es : List (Event Op)) (s : JobState Op) : ∀ e, Decidable (Obeys es s e)
  | .complete _ => inferInstanceAs (Decidable (_ ∧ _))
  | .confirm _ => inferInstanceAs (Decidable (_ ∈ _))
  | .requestRescale _ _ _ => .isTrue trivial
  | .restart => .isTrue trivial

/-- What `plan_job` accepts: each operator once, at a positive parallelism. -/
structure ValidGraph (graph : List (Op × UInt32)) : Prop where
  nodup : (graph.map Prod.fst).Nodup
  positive : ∀ lead ∈ graph, lead.2 ≠ 0

/-- The first deployment of a job. -/
def deploy (tracked : Bool) (graph : List (Op × UInt32)) : JobState Op :=
  { tracked := tracked, graph := graph, taskOpIdentity := planTasks graph
    taskRecords := (planTasks graph).map fun task => { subtaskIdx := task.1 } }

/-- Checkpoint `r` was written by the tasks of this layout. -/
def WrittenUnder (init : JobState Op) (es : List (Event Op)) (r : Nat)
    (written : IdentityMap Op) : Prop :=
  Occurred (fun pre e => e = .complete r ∧
    (pre.foldl next init).taskOpIdentity = written) es

/-- The task's directive names its operator's block in the layout `written`,
from where the operator's block is in the layout `cur`. -/
def NamesBlock (written cur : IdentityMap Op) (d : DeploymentTask) : Prop :=
  ∃ op i base p curBase curP, (d.subtaskIdx, ⟨op, i⟩) ∈ cur ∧
    IsBlock written op base p ∧ IsBlock cur op curBase curP ∧
    (rescaleParentMapping p curP i).ok = true ∧
    d.source = (base + (rescaleParentMapping p curP i).parentIdx.toNat,
      (rescaleParentMapping p curP i).parentCount)

/-! ## Directives -/

variable {graph prev : List (Op × UInt32)} {op o : Op} {p q newP i : UInt32} {base g : Nat}
  {s : JobState Op} {es : List (Event Op)} {init : JobState Op} {e : Event Op}

omit [DecidableEq Op] in
/-- Directing a task through a block twice is directing it once. -/
theorem through_through (d : DeploymentTask) (block : StaleBlock) (newP idxInOp : UInt32) :
    (d.through block newP idxInOp).through block newP idxInOp = d.through block newP idxInOp := by
  unfold DeploymentTask.through
  cases h : (rescaleParentMapping block.parallelism newP idxInOp).ok with
  | true => simp [h]
  | false => simp [h]

@[simp] theorem through_subtaskIdx (d : DeploymentTask) (block : StaleBlock)
    (newP idxInOp : UInt32) : (d.through block newP idxInOp).subtaskIdx = d.subtaskIdx := by
  unfold DeploymentTask.through
  cases h : (rescaleParentMapping block.parallelism newP idxInOp).ok with
  | true => simp [h]
  | false => simp [h]

theorem lookup_retainedBlocks (blocks : AList fun _ : Op => OpIndexBlock) (op : Op) :
    (retainedBlocks blocks).lookup op = (blocks.lookup op).bind OpIndexBlock.retained := by
  have hfold : ∀ (keys : List Op) (m : AList fun _ : Op => StaleBlock),
      (∀ k, m.lookup k = none ∨ m.lookup k = (blocks.lookup k).bind OpIndexBlock.retained) →
      (op ∈ keys ∨ m.lookup op = (blocks.lookup op).bind OpIndexBlock.retained) →
      (keys.foldl (fun blocks' op =>
        match (blocks.lookup op).bind OpIndexBlock.retained with
        | some block => blocks'.insert op block
        | none => blocks') m).lookup op = (blocks.lookup op).bind OpIndexBlock.retained := by
    intro keys
    induction keys with
    | nil =>
        intro m hm hop
        rcases hop with hop | hop
        · simp at hop
        · exact hop
    | cons k keys ih =>
        intro m hm hop
        rw [List.foldl_cons]
        apply ih
        · intro k'
          cases hk : (blocks.lookup k).bind OpIndexBlock.retained with
          | none => exact hm k'
          | some block =>
              by_cases heq : k' = k
              · right
                rw [heq, AList.lookup_insert, hk]
              · rw [AList.lookup_insert_ne heq]
                exact hm k'
        · rcases hop with hop | hop
          · rcases List.mem_cons.mp hop with rfl | hop
            · right
              cases hk : (blocks.lookup op).bind OpIndexBlock.retained with
              | none =>
                  rcases hm op with hnone | hsame
                  · exact hnone
                  · rw [hsame, hk]
              | some block => rw [AList.lookup_insert]
            · exact .inl hop
          · right
            cases hk : (blocks.lookup k).bind OpIndexBlock.retained with
            | none => exact hop
            | some block =>
                by_cases heq : op = k
                · rw [heq, AList.lookup_insert, hk]
                · rw [AList.lookup_insert_ne heq]
                  exact hop
  apply hfold
  · intro k
    exact .inl rfl
  · by_cases hmem : op ∈ blocks.keys
    · exact .inl hmem
    · right
      have hnone : blocks.lookup op = none := AList.lookup_eq_none.mpr hmem
      rw [hnone]
      rfl

/-- A replanned task is directed through its operator's old block. -/
theorem replanTask_eq (hprev : ValidGraph prev) (hgraph : ValidGraph graph)
    (hold : (o, p) ∈ prev) (hnew : (o, q) ∈ graph) (hblock : IsBlock (planTasks prev) o base p) :
    replanTask (deriveOpIndexBlocks (planTasks prev)) (planTasks graph) (g, ⟨o, i⟩) =
      ({ subtaskIdx := g } : DeploymentTask).through { base := base, parallelism := p } q i := by
  have hp : p ≠ 0 := hprev.positive _ hold
  have hcount : taskCount (planTasks graph) o = q.toNat := taskCount_planFrom hgraph.nodup hnew
  unfold replanTask
  rw [derive_planTasks hprev.nodup hold hp hblock]
  simp [hp, hcount]

theorem retained_eq (hprev : ValidGraph prev) (hold : (o, p) ∈ prev)
    (hblock : IsBlock (planTasks prev) o base p) :
    (retainedBlocks (deriveOpIndexBlocks (planTasks prev))).lookup o =
      some { base := base, parallelism := p } := by
  have hp : p ≠ 0 := hprev.positive _ hold
  rw [lookup_retainedBlocks, derive_planTasks hprev.nodup hold hp hblock]
  simp [OpIndexBlock.retained, hp]

theorem resize_valid (h : ValidGraph graph) (hnew : newP ≠ 0) :
    ValidGraph (resize graph op newP) := by
  constructor
  · have hsame : (resize graph op newP).map Prod.fst = graph.map Prod.fst := by
      unfold resize
      rw [List.map_map]
      apply List.map_congr_left
      intro lead _
      by_cases hl : lead.1 = op <;> simp [hl]
    rw [hsame]
    exact h.nodup
  · intro lead hlead
    obtain ⟨old, hold, rfl⟩ := List.mem_map.mp hlead
    by_cases hl : old.1 = op
    · simp [hl, hnew]
    · simp [hl, h.positive old hold]

/-- An operator keeps its parallelism across a resize, unless it is the one. -/
theorem mem_resize (h : (o, q) ∈ resize graph op newP) :
    (o = op ∧ q = newP ∧ ∃ p, (op, p) ∈ graph) ∨ (o ≠ op ∧ (o, q) ∈ graph) := by
  obtain ⟨⟨o', p'⟩, hold, heq⟩ := List.mem_map.mp h
  by_cases hl : o' = op
  · simp only [hl, if_true, Prod.mk.injEq] at heq
    left
    exact ⟨heq.1.symm, heq.2.symm, p', hl ▸ hold⟩
  · simp only [hl, if_false, Prod.mk.injEq] at heq
    right
    obtain ⟨rfl, rfl⟩ := heq
    exact ⟨hl, hold⟩

theorem mem_resize_self (h : (op, p) ∈ graph) : (op, newP) ∈ resize graph op newP :=
  List.mem_map.mpr ⟨(op, p), h, by simp⟩

/-! ## What every history keeps -/

omit [DecidableEq Op] in
theorem mem_completedIds {id : Nat} : id ∈ completedIds es ↔ .complete id ∈ es := by
  simp only [completedIds, List.mem_filterMap]
  constructor
  · rintro ⟨e, hmem, he⟩
    cases e with
    | complete id' =>
        simp only [Option.some.injEq] at he
        rw [← he]
        exact hmem
    | confirm id' => simp at he
    | requestRescale op newP admitted => simp at he
    | restart => simp at he
  · intro hmem
    exact ⟨_, hmem, rfl⟩

theorem writtenUnder_snoc {k : Nat} {w : IdentityMap Op} (hs : s = es.foldl next init) :
    WrittenUnder init (es ++ [e]) k w ↔
      WrittenUnder init es k w ∨ (e = .complete k ∧ s.taskOpIdentity = w) := by
  rw [hs]
  exact Occurred.snoc_iff

/-- No replan has landed: every task restores from its own index. -/
structure Unscaled (init : JobState Op) (es : List (Event Op)) (s : JobState Op) : Prop where
  never : s.lastRescaleThrough = 0
  stale : s.staleLayoutBlocks = ∅
  records : s.taskRecords = s.taskOpIdentity.map fun task => { subtaskIdx := task.1 }
  written : ∀ k w, WrittenUnder init es k w → w = s.taskOpIdentity

/-- The last replan took the operator from `oldP` to `newP`, out of the graph
`prev`, whose layout wrote the checkpoints above `above`. -/
structure Replan (Op : Type*) where
  prev : List (Op × UInt32)
  above : Nat
  op : Op
  oldP : UInt32
  newP : UInt32

structure Rescaled (init : JobState Op) (es : List (Event Op)) (s : JobState Op)
    (r : Replan Op) : Prop where
  landed : s.lastRescaleThrough ≠ 0
  valid : ValidGraph r.prev
  mem : (r.op, r.oldP) ∈ r.prev
  graph : s.graph = resize r.prev r.op r.newP
  changed : r.newP ≠ r.oldP
  maps : (rescaleParentMapping r.oldP r.newP 0).ok = true
  records : s.taskRecords = s.taskOpIdentity.map
    (replanTask (deriveOpIndexBlocks (planTasks r.prev)) s.taskOpIdentity)
  stale : s.staleLayoutBlocks = ∅ ∨
    s.staleLayoutBlocks = retainedBlocks (deriveOpIndexBlocks (planTasks r.prev))
  point : r.above = 0 ∨ r.above < s.restorePoint
  since : ∀ k w, WrittenUnder init es k w → s.lastRescaleThrough < k → w = s.taskOpIdentity
  before : ∀ k w, WrittenUnder init es k w → r.above < k → k ≤ s.lastRescaleThrough →
    w = planTasks r.prev

structure Placed (init : JobState Op) (es : List (Event Op)) (s : JobState Op) : Prop where
  plan : s.taskOpIdentity = planTasks s.graph
  valid : ValidGraph s.graph
  done : ∀ id, .complete id ∈ es → 0 < id ∧ id ≤ s.latestCompleted
  completed : s.latestCompleted = 0 ∨ .complete s.latestCompleted ∈ es
  confirmed : s.latestConfirmed = 0 ∨ .complete s.latestConfirmed ∈ es
  through : s.lastRescaleThrough ≤ s.latestCompleted
  staged : ∀ op newP, s.pendingOpParallelism = some (op, newP) →
    ∃ p, (op, p) ∈ s.graph ∧ newP ≠ 0 ∧ newP ≠ p ∧ (rescaleParentMapping p newP 0).ok = true ∧
      s.latestCompleted ≠ 0 ∧ (s.lastRescaleThrough = 0 ∨ s.lastRescaleThrough < s.restorePoint)
  layouts : Unscaled init es s ∨ ∃ r, Rescaled init es s r

/-- An event that moves no task and no directive, and writes only above the
last rescale, keeps the layouts. -/
theorem layouts_keep {s' : JobState Op}
    (h : Unscaled init es s ∨ ∃ r, Rescaled init es s r)
    (hgraph : s'.graph = s.graph) (hident : s'.taskOpIdentity = s.taskOpIdentity)
    (hrecords : s'.taskRecords = s.taskRecords)
    (hlast : s'.lastRescaleThrough = s.lastRescaleThrough)
    (hstale : s'.staleLayoutBlocks = ∅ ∨ s'.staleLayoutBlocks = s.staleLayoutBlocks)
    (hpoint : s.restorePoint ≤ s'.restorePoint)
    (hwritten : ∀ k w, WrittenUnder init (es ++ [e]) k w →
      WrittenUnder init es k w ∨ (s.lastRescaleThrough < k ∧ w = s.taskOpIdentity)) :
    Unscaled init (es ++ [e]) s' ∨ ∃ r, Rescaled init (es ++ [e]) s' r := by
  rcases h with h | ⟨r, h⟩
  · left
    constructor
    · rw [hlast]
      exact h.never
    · rcases hstale with hstale | hstale
      · exact hstale
      · rw [hstale]
        exact h.stale
    · rw [hrecords, hident]
      exact h.records
    · intro k w hkw
      rw [hident]
      rcases hwritten k w hkw with hold | ⟨-, hnew⟩
      · exact h.written k w hold
      · exact hnew
  · right
    refine ⟨r, ?_⟩
    constructor
    · rw [hlast]
      exact h.landed
    · exact h.valid
    · exact h.mem
    · rw [hgraph]
      exact h.graph
    · exact h.changed
    · exact h.maps
    · rw [hrecords, hident]
      exact h.records
    · rcases hstale with hstale | hstale
      · exact .inl hstale
      · rw [hstale]
        exact h.stale
    · have hr := h.point
      omega
    · intro k w hkw hk
      rw [hlast] at hk
      rw [hident]
      rcases hwritten k w hkw with hold | ⟨-, hnew⟩
      · exact h.since k w hold hk
      · exact hnew
    · intro k w hkw hk hle
      rw [hlast] at hle
      rcases hwritten k w hkw with hold | ⟨hlt, -⟩
      · exact h.before k w hold hk hle
      · omega

/-- A completion moves the newest completed checkpoint and may drop the
retained layout; the rest of the job is as it was. -/
theorem complete_fields (s : JobState Op) (id : Nat) :
    (s.complete id = { s with latestCompleted := max s.latestCompleted id }) ∨
    (s.complete id =
      { s with
        latestCompleted := max s.latestCompleted id, staleLayoutBlocks := ∅
        staleLayoutThrough := 0 }) := by
  unfold JobState.complete
  by_cases h : (!s.staleLayoutBlocks.keys.isEmpty) = true ∧
      s.staleLayoutThrough < max s.latestCompleted id
  · right
    exact if_pos h
  · left
    exact if_neg h

theorem restorePoint_complete (s : JobState Op) (id : Nat) :
    s.restorePoint ≤ (s.complete id).restorePoint := by
  rcases complete_fields s id with h | h
  · rw [h]
    cases htracked : s.tracked <;> simp [JobState.restorePoint, htracked]
  · rw [h]
    cases htracked : s.tracked <;> simp [JobState.restorePoint, htracked]

theorem placed_complete {id : Nat} (h : Placed init es s) (hs : s = es.foldl next init)
    (hok : Obeys es s (.complete id)) : Placed init (es ++ [.complete id]) (s.complete id) := by
  obtain ⟨hpos, hgrow⟩ := hok
  have hlatest : s.latestCompleted < id := by
    rcases h.completed with hzero | hmem
    · omega
    · exact hgrow _ (mem_completedIds.mpr hmem)
  have hthrough := h.through
  have hmax : max s.latestCompleted id = id := by omega
  have hfields : (s.complete id).graph = s.graph ∧
      (s.complete id).taskOpIdentity = s.taskOpIdentity ∧
      (s.complete id).taskRecords = s.taskRecords ∧
      (s.complete id).lastRescaleThrough = s.lastRescaleThrough ∧
      (s.complete id).latestCompleted = id ∧
      (s.complete id).latestConfirmed = s.latestConfirmed ∧
      (s.complete id).pendingOpParallelism = s.pendingOpParallelism ∧
      ((s.complete id).staleLayoutBlocks = ∅ ∨
        (s.complete id).staleLayoutBlocks = s.staleLayoutBlocks) := by
    rcases complete_fields s id with hc | hc
    · rw [hc]
      simp [hmax]
    · rw [hc]
      simp [hmax]
  obtain ⟨hgraph, hident, hrecords, hlast, hcompleted, hconfirmed, hpending, hstale⟩ := hfields
  have hpoint := restorePoint_complete s id
  constructor
  · rw [hident, hgraph]
    exact h.plan
  · rw [hgraph]
    exact h.valid
  · intro id' hmem
    rw [hcompleted]
    rcases List.mem_append.mp hmem with hold | hnew
    · have hdone := h.done id' hold
      omega
    · simp only [List.mem_singleton, Event.complete.injEq] at hnew
      omega
  · right
    rw [hcompleted]
    simp
  · rw [hconfirmed]
    rcases h.confirmed with hzero | hmem
    · exact .inl hzero
    · exact .inr (List.mem_append_left _ hmem)
  · rw [hlast, hcompleted]
    omega
  · intro op newP hstaged
    rw [hpending] at hstaged
    obtain ⟨p, hp, hzero, hne, hmap, hdone, hgate⟩ := h.staged op newP hstaged
    refine ⟨p, by rw [hgraph]; exact hp, hzero, hne, hmap, ?_, ?_⟩
    · rw [hcompleted]
      omega
    · rw [hlast]
      omega
  · apply layouts_keep h.layouts hgraph hident hrecords hlast hstale hpoint
    intro k w hkw
    rcases (writtenUnder_snoc hs).mp hkw with hold | ⟨hk, hw⟩
    · exact .inl hold
    · simp only [Event.complete.injEq] at hk
      right
      exact ⟨by omega, hw.symm⟩

theorem placed_confirm {id : Nat} (h : Placed init es s) (hs : s = es.foldl next init)
    (hok : Obeys es s (.confirm id)) : Placed init (es ++ [.confirm id]) (s.confirm id) := by
  have hpoint : s.restorePoint ≤ (s.confirm id).restorePoint := by
    unfold JobState.confirm JobState.restorePoint
    cases s.tracked <;> simp
  constructor
  · exact h.plan
  · exact h.valid
  · intro id' hmem
    apply h.done id'
    simpa using hmem
  · rcases h.completed with hzero | hmem
    · exact .inl hzero
    · exact .inr (List.mem_append_left _ hmem)
  · change max s.latestConfirmed id = 0 ∨ Event.complete (max s.latestConfirmed id) ∈ _
    rcases Nat.le_total s.latestConfirmed id with hle | hle
    · rw [Nat.max_eq_right hle]
      exact .inr (List.mem_append_left _ (mem_completedIds.mp hok))
    · rw [Nat.max_eq_left hle]
      rcases h.confirmed with hzero | hmem
      · exact .inl hzero
      · exact .inr (List.mem_append_left _ hmem)
  · exact h.through
  · intro op newP hstaged
    obtain ⟨p, hp, hzero, hne, hmap, hdone, hgate⟩ := h.staged op newP hstaged
    refine ⟨p, hp, hzero, hne, hmap, hdone, ?_⟩
    change s.lastRescaleThrough = 0 ∨ s.lastRescaleThrough < (s.confirm id).restorePoint
    omega
  · have hgraph : (s.confirm id).graph = s.graph := rfl
    apply layouts_keep h.layouts hgraph rfl rfl rfl (.inr rfl) hpoint
    intro k w hkw
    rcases (writtenUnder_snoc hs).mp hkw with hold | ⟨hk, -⟩
    · exact .inl hold
    · simp at hk

/-- A request is refused and changes nothing, or it passed the gate. -/
theorem requestRescale_cases (s : JobState Op) (op : Op) (newP : UInt32) (admitted : Bool) :
    s.requestRescale op newP admitted = s ∨
    ∃ graphP, s.graph.lookup op = some graphP ∧ newP ≠ 0 ∧ newP ≠ s.oldParallelism op graphP ∧
      (rescaleParentMapping (s.oldParallelism op graphP) newP 0).ok = true ∧
      s.latestCompleted ≠ 0 ∧
      (s.lastRescaleThrough = 0 ∨ s.lastRescaleThrough < s.restorePoint) ∧
      s.requestRescale op newP admitted = { s with pendingOpParallelism := some (op, newP) } := by
  unfold JobState.requestRescale
  by_cases hpending : s.pendingOpParallelism.isSome = true
  · left
    rw [if_pos hpending]
  rw [if_neg hpending]
  cases hlook : s.graph.lookup op with
  | none => exact .inl rfl
  | some graphP =>
      by_cases hgate : newP = 0 ∨ newP = s.oldParallelism op graphP ∨
          (rescaleParentMapping (s.oldParallelism op graphP) newP 0).ok = false ∨
          admitted = false ∨ s.latestCompleted = 0 ∨
          (s.lastRescaleThrough ≠ 0 ∧ s.restorePoint ≤ s.lastRescaleThrough)
      · left
        exact if_pos hgate
      · have hopen := hgate
        simp only [not_or, not_and, not_le, Bool.not_eq_false] at hopen
        obtain ⟨hzero, hsame, hmap, -, hdone, hpoint⟩ := hopen
        right
        refine ⟨graphP, rfl, hzero, hsame, hmap, hdone, ?_, if_neg hgate⟩
        by_cases hlast : s.lastRescaleThrough = 0
        · exact .inl hlast
        · exact .inr (hpoint hlast)

omit [DecidableEq Op] in
private theorem mem_of_lookup [BEq Op] [LawfulBEq Op] {graph : List (Op × UInt32)}
    (h : graph.lookup op = some p) : (op, p) ∈ graph := by
  obtain ⟨l₁, l₂, rfl, -⟩ := List.lookup_eq_some_iff.mp h
  simp

theorem placed_requestRescale {admitted : Bool} (h : Placed init es s)
    (hs : s = es.foldl next init) :
    Placed init (es ++ [.requestRescale op newP admitted]) (s.requestRescale op newP admitted) := by
  have hwritten : ∀ k w, WrittenUnder init (es ++ [.requestRescale op newP admitted]) k w →
      WrittenUnder init es k w ∨ (s.lastRescaleThrough < k ∧ w = s.taskOpIdentity) := by
    intro k w hkw
    rcases (writtenUnder_snoc hs).mp hkw with hold | ⟨hk, -⟩
    · exact .inl hold
    · simp at hk
  have hdone : ∀ id, Event.complete id ∈ es ++ [.requestRescale op newP admitted] →
      0 < id ∧ id ≤ s.latestCompleted := by
    intro id hmem
    apply h.done id
    simpa using hmem
  have hgrow : ∀ id, (id = 0 ∨ Event.complete id ∈ es) →
      id = 0 ∨ Event.complete id ∈ es ++ [.requestRescale op newP admitted] := by
    intro id hid
    rcases hid with hzero | hmem
    · exact .inl hzero
    · exact .inr (List.mem_append_left _ hmem)
  rcases requestRescale_cases s op newP admitted with hsame |
      ⟨graphP, hlook, hzero, hne, hmap, hcompleted, hpoint, hstaged⟩
  · rw [hsame]
    exact ⟨h.plan, h.valid, hdone, hgrow _ h.completed, hgrow _ h.confirmed, h.through, h.staged,
      layouts_keep h.layouts rfl rfl rfl rfl (.inr rfl) (Nat.le_refl _) hwritten⟩
  · rw [hstaged]
    -- The operator runs at the parallelism the graph has for it.
    have hlead := mem_of_lookup hlook
    have hcount : taskCount s.taskOpIdentity op = graphP.toNat := by
      rw [h.plan]
      exact taskCount_planFrom h.valid.nodup hlead
    have hold : s.oldParallelism op graphP = graphP := by
      unfold JobState.oldParallelism
      rw [hcount, UInt32.ofNat_toNat]
      exact ite_self graphP
    rw [hold] at hne hmap
    constructor
    · exact h.plan
    · exact h.valid
    · exact hdone
    · exact hgrow _ h.completed
    · exact hgrow _ h.confirmed
    · exact h.through
    · intro op' newP' heq
      simp only [Option.some.injEq, Prod.mk.injEq] at heq
      obtain ⟨rfl, rfl⟩ := heq
      exact ⟨graphP, hlead, hzero, hne, hmap, hcompleted, hpoint⟩
    · have hle : s.restorePoint ≤
          ({ s with pendingOpParallelism := some (op, newP) } : JobState Op).restorePoint :=
        Nat.le_refl _
      have hgraph : ({ s with pendingOpParallelism := some (op, newP) } : JobState Op).graph =
          s.graph := rfl
      exact layouts_keep h.layouts hgraph rfl rfl rfl (.inr rfl) hle hwritten

variable {r : Replan Op}

/-- Every operator of a rescaled graph was in the graph before. -/
theorem Rescaled.old (h : Rescaled init es s r) (hmem : (o, q) ∈ s.graph) :
    ∃ p, (o, p) ∈ r.prev ∧ ((o = r.op ∧ p = r.oldP ∧ q = r.newP) ∨ (o ≠ r.op ∧ p = q)) := by
  rw [h.graph] at hmem
  rcases mem_resize hmem with ⟨ho, hq, -⟩ | ⟨hne, hold⟩
  · exact ⟨r.oldP, by rw [ho]; exact h.mem, .inl ⟨ho, rfl, hq⟩⟩
  · exact ⟨q, hold, .inr ⟨hne, rfl⟩⟩

variable {d : DeploymentTask}

theorem Rescaled.record (hplaced : Placed init es s) (h : Rescaled init es s r)
    (hd : d ∈ s.taskRecords) :
    ∃ g o i p q base, (g, ⟨o, i⟩) ∈ s.taskOpIdentity ∧ (o, p) ∈ r.prev ∧ (o, q) ∈ s.graph ∧
      ((o = r.op ∧ p = r.oldP ∧ q = r.newP) ∨ (o ≠ r.op ∧ p = q)) ∧ i < q ∧
      IsBlock (planTasks r.prev) o base p ∧
      d = ({ subtaskIdx := g } : DeploymentTask).through { base := base, parallelism := p } q
        i := by
  rw [h.records] at hd
  obtain ⟨⟨g, o, i⟩, hmem, rfl⟩ := List.mem_map.mp hd
  have hplanned := hmem
  rw [hplaced.plan] at hplanned
  obtain ⟨q, hq, hlt⟩ := mem_planFrom hplanned
  obtain ⟨p, hp, hcases⟩ := h.old hq
  obtain ⟨base, hblock⟩ := isBlock_planTasks h.valid.nodup hp
  refine ⟨g, o, i, p, q, base, hmem, hp, hq, hcases, hlt, hblock, ?_⟩
  rw [hplaced.plan]
  exact replanTask_eq h.valid hplaced.valid hp hq hblock

/-- A restart that is no replan redeploys every task as it is on record: with
or without the retained layout, a directive on record stays. -/
theorem restartTask_eq (h : Placed init es s) (hd : d ∈ s.taskRecords) : s.restartTask d = d := by
  have hempty (hstale : s.staleLayoutBlocks = ∅) : s.restartTask d = d := by
    unfold JobState.restartTask
    rw [hstale]
    rfl
  rcases h.layouts with hun | ⟨r, hre⟩
  · exact hempty hun.stale
  rcases hre.stale with hstale | hstale
  · exact hempty hstale
  obtain ⟨g, o, i, p, q, base, hmem, hp, hq, -, -, hblock, rfl⟩ := hre.record h hd
  unfold JobState.restartTask
  split
  · have hlook : s.taskOpIdentity.lookup g = some ⟨o, i⟩ := by
      rw [h.plan] at hmem ⊢
      exact lookup_planTasks hmem
    have hnew : deployedParallelism s.taskOpIdentity o = q := by
      obtain ⟨b, hb⟩ := isBlock_planTasks h.valid.nodup hq
      rw [h.plan]
      exact deployedParallelism_eq hb
    have hretained := retained_eq hre.valid hp hblock
    simp only [through_subtaskIdx, hlook, hstale, hretained, hnew]
    rw [if_pos ⟨hre.valid.positive _ hp, h.valid.positive _ hq⟩]
    exact through_through _ _ _ _
  · rfl

/-- A restart that is no replan leaves the job as it was. -/
theorem restart_plain (h : Placed init es s) (hplain : s.pendingOpParallelism = none) :
    s.restart = s := by
  have hsame : s.taskRecords.map s.restartTask = s.taskRecords := by
    conv => rhs; rw [← List.map_id s.taskRecords]
    apply List.map_congr_left
    intro d hd
    exact restartTask_eq h hd
  unfold JobState.restart
  split
  · rename_i heq
    rw [hplain] at heq
    simp at heq
  · rw [hsame]

theorem writtenUnder_restart (hs : s = es.foldl next init) {k w}
    (hkw : WrittenUnder init (es ++ [.restart]) k w) : WrittenUnder init es k w := by
  rcases (writtenUnder_snoc hs).mp hkw with hold | ⟨hk, -⟩
  · exact hold
  · simp at hk

theorem restart_staged {op newP} (hpending : s.pendingOpParallelism = some (op, newP)) :
    s.restart =
      { s with
        graph := resize s.graph op newP
        taskOpIdentity := planTasks (resize s.graph op newP)
        taskRecords := (planTasks (resize s.graph op newP)).map
          (replanTask (deriveOpIndexBlocks s.taskOpIdentity)
            (planTasks (resize s.graph op newP)))
        staleLayoutBlocks := retainedBlocks (deriveOpIndexBlocks s.taskOpIdentity)
        staleLayoutThrough := s.latestCompleted
        lastRescaleThrough := s.latestCompleted
        pendingOpParallelism := none } := by
  unfold JobState.restart
  rw [hpending]

/-- The checkpoints completed before the restart are those of the old plan. -/
theorem rescaled_restart (h : Placed init es s) (hs : s = es.foldl next init) {op newP p}
    (hpending : s.pendingOpParallelism = some (op, newP)) (hp : (op, p) ∈ s.graph)
    (hne : newP ≠ p) (hmap : (rescaleParentMapping p newP 0).ok = true)
    (hcompleted : s.latestCompleted ≠ 0)
    (hgate : s.lastRescaleThrough = 0 ∨ s.lastRescaleThrough < s.restorePoint) :
    Rescaled init (es ++ [.restart]) s.restart ⟨s.graph, s.lastRescaleThrough, op, p, newP⟩ := by
  rw [restart_staged hpending]
  constructor
  · exact hcompleted
  · exact h.valid
  · exact hp
  · rfl
  · exact hne
  · exact hmap
  · rw [h.plan]
  · right
    rw [h.plan]
  · exact hgate
  · intro k w hkw hk
    have hle : k ≤ s.latestCompleted := by
      obtain ⟨pre, e, post, hes, rfl, -⟩ := writtenUnder_restart hs hkw
      exact (h.done k (by rw [hes]; simp)).2
    change s.latestCompleted < k at hk
    omega
  · intro k w hkw hk _
    change w = planTasks s.graph
    rw [← h.plan]
    rcases h.layouts with hun | ⟨r, hre⟩
    · exact hun.written k w (writtenUnder_restart hs hkw)
    · exact hre.since k w (writtenUnder_restart hs hkw) hk

theorem placed_restart (h : Placed init es s) (hs : s = es.foldl next init) :
    Placed init (es ++ [.restart]) s.restart := by
  have hdone : ∀ id, Event.complete id ∈ es ++ [.restart] → 0 < id ∧ id ≤ s.latestCompleted := by
    intro id hmem
    apply h.done id
    simpa using hmem
  have hgrow : ∀ id, (id = 0 ∨ Event.complete id ∈ es) →
      id = 0 ∨ Event.complete id ∈ es ++ [Event.restart] := by
    intro id hid
    rcases hid with hzero | hmem
    · exact .inl hzero
    · exact .inr (List.mem_append_left _ hmem)
  cases hpending : s.pendingOpParallelism with
  | none =>
      rw [restart_plain h hpending]
      exact ⟨h.plan, h.valid, hdone, hgrow _ h.completed, hgrow _ h.confirmed, h.through, h.staged,
        layouts_keep h.layouts rfl rfl rfl rfl (.inr rfl) (Nat.le_refl _)
          fun k w hkw => .inl (writtenUnder_restart hs hkw)⟩
  | some staged =>
      obtain ⟨op, newP⟩ := staged
      obtain ⟨p, hp, hzero, hne, hmap, hcompleted, hgate⟩ := h.staged op newP hpending
      have hlayouts := rescaled_restart h hs hpending hp hne hmap hcompleted hgate
      rw [restart_staged hpending] at hlayouts ⊢
      constructor
      · rfl
      · exact resize_valid h.valid hzero
      · exact hdone
      · exact hgrow _ h.completed
      · exact hgrow _ h.confirmed
      · exact Nat.le_refl _
      · intro op' newP' hnone
        simp at hnone
      · exact .inr ⟨_, hlayouts⟩

theorem placed_of_runs {tracked : Bool} (hgraph : ValidGraph graph)
    (h : Runs next Obeys (deploy tracked graph) es s) : Placed (deploy tracked graph) es s := by
  apply h.induct
  · refine ⟨rfl, hgraph, ?_, .inl rfl, .inl rfl, Nat.le_refl _, ?_, .inl ⟨rfl, rfl, rfl, ?_⟩⟩
    · intro id hmem
      simp at hmem
    · intro op newP hnone
      simp [deploy] at hnone
    · intro k w hkw
      exact absurd hkw Occurred.not_nil
  · intro es s e hrun hplaced hok
    have hs := hrun.state_eq
    cases e with
    | complete id => exact placed_complete hplaced hs hok
    | confirm id => exact placed_confirm hplaced hs hok
    | requestRescale op newP admitted => exact placed_requestRescale hplaced hs
    | restart => exact placed_restart hplaced hs

/-! ## Where a restart restores from -/

theorem factor_of_ne {a b k : Nat} (ha : 0 < a) (hne : a ≠ b) (hk : a = b * k) :
    2 ≤ k := by
  by_contra hlt
  have hcases : k = 0 ∨ k = 1 := by omega
  rcases hcases with hz | hone
  · rw [hz] at hk
    omega
  · rw [hone] at hk
    omega

/-- A mapping that was found names at least one parent. -/
theorem parentCount_ne_zero (h : (rescaleParentMapping p q i).ok = true) :
    (rescaleParentMapping p q i).parentCount ≠ 0 := by
  obtain ⟨hp, hq, hi, hmod⟩ := (rescaleParentMapping_ok_iff p q i).mp h
  have hp' : p.toNat ≠ 0 := fun hz => hp (UInt32.toNat_inj.mp hz)
  have hq' : q.toNat ≠ 0 := fun hz => hq (UInt32.toNat_inj.mp hz)
  intro hzero
  have hzero' := congrArg UInt32.toNat hzero
  rw [UInt32.toNat_zero] at hzero'
  rcases hmod with hmod | hmod
  · have hmod' : q.toNat % p.toNat = 0 := by rw [← UInt32.toNat_mod, hmod, UInt32.toNat_zero]
    obtain ⟨k, hk⟩ := Nat.dvd_of_mod_eq_zero hmod'
    have hcount := (mapping_up (Nat.pos_of_ne_zero hp') hk hi).2.2.1
    omega
  · have hmod' : p.toNat % q.toNat = 0 := by rw [← UInt32.toNat_mod, hmod, UInt32.toNat_zero]
    obtain ⟨k, hk⟩ := Nat.dvd_of_mod_eq_zero hmod'
    by_cases hsame : p.toNat = q.toNat
    · have hup : q.toNat = p.toNat * 1 := by omega
      have hcount := (mapping_up (Nat.pos_of_ne_zero hp') hup hi).2.2.1
      omega
    · have hfactor : 1 < k := factor_of_ne (Nat.pos_of_ne_zero hp') hsame hk
      have hcount := (mapping_down hfactor hk hi).2.2.1
      omega

theorem through_source {block : StaleBlock}
    (h : (rescaleParentMapping block.parallelism q i).ok = true) :
    (d.through block q i).source =
      (block.base + (rescaleParentMapping block.parallelism q i).parentIdx.toNat,
        (rescaleParentMapping block.parallelism q i).parentCount) := by
  have hcount := parentCount_ne_zero h
  simp [DeploymentTask.through, DeploymentTask.source, h, hcount]

/-- An operator whose parallelism did not change maps onto itself. -/
theorem mapping_same (hp : p ≠ 0) (hi : i < p) :
    (rescaleParentMapping p p i).ok = true ∧ (rescaleParentMapping p p i).parentIdx = i ∧
      (rescaleParentMapping p p i).parentCount = 1 := by
  have hnot : ¬ i ≥ p := UInt32.not_le.mpr hi
  simp [rescaleParentMapping, hp, hnot]

omit [DecidableEq Op] in
/-- In the layout a task is deployed in, naming its block is naming its own index. -/
theorem NamesBlock.own {cur : IdentityMap Op} (h : NamesBlock cur cur d) :
    d.source = (d.subtaskIdx, 1) := by
  obtain ⟨op, i, base, p, base', p', hmem, hblock, hblock', -, hsource⟩ := h
  obtain ⟨hi, hg⟩ := (hblock _ _).mp hmem
  have hpos : 0 < p.toNat := by
    have hlt := UInt32.lt_iff_toNat_lt.mp hi
    omega
  obtain ⟨-, rfl⟩ := hblock.unique hblock' hpos
  have hp : p ≠ 0 := by
    rintro rfl
    simp at hpos
  obtain ⟨-, hidx, hcount⟩ := mapping_same hp hi
  rw [hsource, hidx, hcount, hg]

/-- A parallelism that changed by an integer factor sends some subtask to
directories other than its own, wherever the two blocks are. -/
theorem moved_of_changed (base base' : Nat) (hchanged : q ≠ p)
    (hmap : (rescaleParentMapping p q 0).ok = true) :
    ∃ i, i < q ∧ (rescaleParentMapping p q i).ok = true ∧
      (base + (rescaleParentMapping p q i).parentIdx.toNat,
        (rescaleParentMapping p q i).parentCount) ≠ (base' + i.toNat, 1) := by
  obtain ⟨hp, hq, hpos, hmod⟩ := (rescaleParentMapping_ok_iff p q 0).mp hmap
  have hp' : 0 < p.toNat := Nat.pos_of_ne_zero fun hz => hp (UInt32.toNat_inj.mp hz)
  have hq' : 0 < q.toNat := Nat.pos_of_ne_zero fun hz => hq (UInt32.toNat_inj.mp hz)
  have hne : q.toNat ≠ p.toNat := fun heq => hchanged (UInt32.toNat_inj.mp heq)
  rcases hmod with hmod | hmod
  · -- Scaled up: children 0 and 1 share a parent, so one of them is not at its own index.
    have hmod' : q.toNat % p.toNat = 0 := by rw [← UInt32.toNat_mod, hmod, UInt32.toNat_zero]
    obtain ⟨k, hk⟩ := Nat.dvd_of_mod_eq_zero hmod'
    have hfactor : 2 ≤ k := factor_of_ne hq' hne hk
    have htwo : 2 ≤ q.toNat := by
      have hmul : 1 * 2 ≤ p.toNat * k := Nat.mul_le_mul hp' hfactor
      omega
    have hone : (1 : UInt32) < q := UInt32.lt_iff_toNat_lt.mpr (by rw [UInt32.toNat_one]; omega)
    have hfirst := (mapping_up hp' hk hpos).2.1
    obtain ⟨hok, hsecond, -, -, -⟩ := mapping_up hp' hk hone
    rw [UInt32.toNat_zero, Nat.zero_div] at hfirst
    rw [UInt32.toNat_one, Nat.div_eq_of_lt (by omega)] at hsecond
    by_cases hbase : base = base'
    · refine ⟨1, hone, hok, ?_⟩
      simp only [ne_eq, Prod.mk.injEq, not_and, UInt32.toNat_one]
      omega
    · refine ⟨0, hpos, hmap, ?_⟩
      simp only [ne_eq, Prod.mk.injEq, not_and, UInt32.toNat_zero]
      omega
  · -- Scaled down: every subtask reads more than one directory.
    have hmod' : p.toNat % q.toNat = 0 := by rw [← UInt32.toNat_mod, hmod, UInt32.toNat_zero]
    obtain ⟨k, hk⟩ := Nat.dvd_of_mod_eq_zero hmod'
    have hfactor : 1 < k := factor_of_ne hp' hne.symm hk
    have hcount := (mapping_down hfactor hk hpos).2.2.1
    refine ⟨0, hpos, hmap, ?_⟩
    intro heq
    have hcount' := congrArg UInt32.toNat (Prod.mk.inj heq).2
    rw [UInt32.toNat_one] at hcount'
    omega

/-- The restart after `es` points every task at its operator's block in the
layout that wrote the restore point. -/
def RestoresThroughWriter (init : JobState Op) (es : List (Event Op)) (s : JobState Op) : Prop :=
  ∀ d ∈ s.restart.taskRecords, ∃ written, WrittenUnder init es s.restorePoint written ∧
    NamesBlock written s.taskOpIdentity d

/-- The restore point of a job that has one is a checkpoint some layout wrote. -/
theorem Placed.exists_written (h : Placed init es s) (hr : 0 < s.restorePoint) :
    ∃ w, WrittenUnder init es s.restorePoint w := by
  have hmem : .complete s.restorePoint ∈ es := by
    unfold JobState.restorePoint at hr ⊢
    have hcompleted := h.completed
    have hconfirmed := h.confirmed
    cases htracked : s.tracked with
    | true =>
        simp only [htracked, if_true] at hr ⊢
        exact hconfirmed.resolve_left (by omega)
    | false =>
        simp only [htracked, Bool.false_eq_true, if_false] at hr ⊢
        exact hcompleted.resolve_left (by omega)
  obtain ⟨pre, post, hes⟩ := List.append_of_mem hmem
  exact ⟨_, pre, _, post, hes, rfl, rfl⟩

/-- With no replan behind it, a restart leaves every task at its own index,
and every checkpoint was written there. -/
theorem Unscaled.restores (h : Placed init es s) (hun : Unscaled init es s)
    (hplain : s.pendingOpParallelism = none) (hr : 0 < s.restorePoint) :
    RestoresThroughWriter init es s := by
  obtain ⟨w, hw⟩ := h.exists_written hr
  intro d hd
  rw [restart_plain h hplain, hun.records] at hd
  obtain ⟨⟨g, o, i⟩, hmem, rfl⟩ := List.mem_map.mp hd
  have hplanned := hmem
  rw [h.plan] at hplanned
  obtain ⟨q, hq, hlt⟩ := mem_planFrom hplanned
  obtain ⟨base, hblock⟩ := isBlock_planTasks h.valid.nodup hq
  rw [← h.plan] at hblock
  obtain ⟨hok, hidx, hcount⟩ := mapping_same (h.valid.positive _ hq) hlt
  refine ⟨w, hw, o, i, base, q, base, q, hmem, ?_, hblock, hok, ?_⟩
  · rw [hun.written _ w hw]
    exact hblock
  · rw [hidx, hcount, ← ((hblock _ _).mp hmem).2]
    rfl

/-- At or below the last replan's restore point, the directives on record are
the ones that read the layout before it. -/
theorem Rescaled.restores (h : Placed init es s) (hre : Rescaled init es s r)
    (hplain : s.pendingOpParallelism = none) (hr : 0 < s.restorePoint)
    (hle : s.restorePoint ≤ s.lastRescaleThrough) : RestoresThroughWriter init es s := by
  obtain ⟨w, hw⟩ := h.exists_written hr
  have habove : r.above < s.restorePoint := by
    have hpoint := hre.point
    omega
  intro d hd
  rw [restart_plain h hplain] at hd
  obtain ⟨g, o, i, p, q, base, hmem, hp, hq, hcases, hi, hblock, rfl⟩ := hre.record h hd
  obtain ⟨base', hblock'⟩ := isBlock_planTasks h.valid.nodup hq
  rw [← h.plan] at hblock'
  have hok : (rescaleParentMapping p q i).ok = true := by
    rcases hcases with ⟨-, rfl, rfl⟩ | ⟨-, rfl⟩
    · obtain ⟨hp0, hq0, -, hmod⟩ := (rescaleParentMapping_ok_iff _ _ _).mp hre.maps
      exact (rescaleParentMapping_ok_iff _ _ _).mpr ⟨hp0, hq0, hi, hmod⟩
    · exact (mapping_same (h.valid.positive _ hq) hi).1
  refine ⟨w, hw, o, i, base, p, base', q, ?_, ?_, hblock', hok, through_source hok⟩
  · rw [through_subtaskIdx]
    exact hmem
  · rw [hre.before _ w hw habove hle]
    exact hblock

/-- Past it, a subtask of the rescaled operator that the replan sent to another
index is still sent there. -/
theorem Rescaled.not_restores (h : Placed init es s) (hre : Rescaled init es s r)
    (hplain : s.pendingOpParallelism = none) (hpast : s.lastRescaleThrough < s.restorePoint) :
    ¬ RestoresThroughWriter init es s := by
  intro hall
  have hnew : (r.op, r.newP) ∈ s.graph := by
    rw [hre.graph]
    exact mem_resize_self hre.mem
  obtain ⟨base', hblock'⟩ := isBlock_planTasks h.valid.nodup hnew
  obtain ⟨base, hblock⟩ := isBlock_planTasks hre.valid.nodup hre.mem
  obtain ⟨i, hi, hok, hmoved⟩ := moved_of_changed base base' hre.changed hre.maps
  have hmem : (base' + i.toNat, (⟨r.op, i⟩ : TaskOpIdentity Op)) ∈ s.taskOpIdentity := by
    rw [h.plan]
    exact (hblock' _ _).mpr ⟨hi, rfl⟩
  have hrecord := List.mem_map_of_mem
    (f := replanTask (deriveOpIndexBlocks (planTasks r.prev)) s.taskOpIdentity) hmem
  rw [← hre.records, ← restart_plain h hplain] at hrecord
  obtain ⟨w, hw, hnames⟩ := hall _ hrecord
  rw [hre.since _ w hw hpast] at hnames
  have hown := hnames.own
  rw [restart_plain h hplain, h.plan, replanTask_eq hre.valid h.valid hre.mem hnew hblock,
    through_source hok, through_subtaskIdx] at hown
  exact hmoved hown

/-- A plain restart restores each task through the layout that wrote the
restore point exactly when no replan has landed or the restore point is at or
below the last one: past it, the tasks still carry that replan's directives. -/
theorem restart_restores_through_writer_iff {tracked : Bool} {graph : List (Op × UInt32)}
    {es : List (Event Op)} {s : JobState Op} (hgraph : ValidGraph graph)
    (hrun : Runs next Obeys (deploy tracked graph) es s)
    (hplain : s.pendingOpParallelism = none) (hr : 0 < s.restorePoint) :
    RestoresThroughWriter (deploy tracked graph) es s ↔
      s.lastRescaleThrough = 0 ∨ s.restorePoint ≤ s.lastRescaleThrough := by
  have hplaced := placed_of_runs hgraph hrun
  rcases hplaced.layouts with hun | ⟨r, hre⟩
  · constructor
    · intro _
      exact .inl hun.never
    · intro _
      exact hun.restores hplaced hplain hr
  · constructor
    · intro hall
      by_contra hpast
      exact hre.not_restores hplaced hplain (by omega) hall
    · intro hcond
      exact hre.restores hplaced hplain hr (hcond.resolve_left hre.landed)

/-- Operator 0 is scaled from one subtask to two after checkpoint 1, and a
restart before any checkpoint at the new layout restores through the old one. -/
theorem restart_restores_through_writer_before_checkpoint :
    let es : List (Event Nat) := [.complete 1, .requestRescale 0 2 true, .restart]
    let s := es.foldl next (deploy false [(0, 1), (1, 1)])
    s.lastRescaleThrough = 1 ∧ s.restorePoint = 1 ∧
      RestoresThroughWriter (deploy false [(0, 1), (1, 1)]) es s := by
  intro es s
  have hrun : Runs next Obeys (deploy false [(0, 1), (1, 1)]) es s := Runs.of_allowed (by decide)
  have hgraph : ValidGraph [((0 : Nat), (1 : UInt32)), (1, 1)] := ⟨by decide, by decide⟩
  have hthrough : s.lastRescaleThrough = 1 := by decide
  have hpoint : s.restorePoint = 1 := by decide
  refine ⟨hthrough, hpoint, ?_⟩
  apply (restart_restores_through_writer_iff hgraph hrun (by decide) (by decide)).mpr
  omega

/-- Checkpoint 2 completes at the new layout and the job restarts from it.
Operator 1's task is at index 2 and wrote its part of the checkpoint there,
but is still told to read index 1, where operator 0's second subtask wrote. -/
theorem restart_past_rescale_reads_other_operator :
    let es : List (Event Nat) := [.complete 1, .requestRescale 0 2 true, .restart, .complete 2]
    let s := es.foldl next (deploy false [(0, 1), (1, 1)])
    (s.pendingOpParallelism = none ∧ s.restorePoint = 2 ∧
      WrittenUnder (deploy false [(0, 1), (1, 1)]) es 2 s.taskOpIdentity) ∧
    ((2, ⟨1, 0⟩) ∈ s.taskOpIdentity ∧ (1, ⟨0, 1⟩) ∈ s.taskOpIdentity) ∧
    (∃ d ∈ s.restart.taskRecords, d.subtaskIdx = 2 ∧ d.source = (1, 1)) ∧
    ¬ RestoresThroughWriter (deploy false [(0, 1), (1, 1)]) es s := by
  intro es s
  have hwritten : WrittenUnder (deploy false [(0, 1), (1, 1)]) es 2 s.taskOpIdentity :=
    ⟨es.take 3, .complete 2, [], rfl, rfl, by decide⟩
  have hdirected : ∃ d ∈ s.restart.taskRecords, d.subtaskIdx = 2 ∧ d.source = (1, 1) := by decide
  refine ⟨⟨by decide, by decide, hwritten⟩, ⟨by decide, by decide⟩, hdirected, ?_⟩
  have hrun : Runs next Obeys (deploy false [(0, 1), (1, 1)]) es s := Runs.of_allowed (by decide)
  have hplaced := placed_of_runs ⟨by decide, by decide⟩ hrun
  rcases hplaced.layouts with hun | ⟨r, hre⟩
  · have hnever := hun.never
    have hthrough : s.lastRescaleThrough = 1 := by decide
    omega
  · exact hre.not_restores hplaced (by decide) (by decide)

end Clink.Ports.RestartLayout

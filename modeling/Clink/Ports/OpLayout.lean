import Clink.Ports.RescaleDispatch
import Mathlib.Data.List.AList

/-!
# Where each operator's subtasks live in the job's index space

A snapshot lives in the directory of a job-global subtask index.  The planner
(`plan_job`, `src/cluster/job_planner.cpp`) gives each operator that leads a
chain one contiguous run of indices, in graph order; `planTasks` is that
allocation.  `derive_op_index_blocks` (`src/cluster/rescale_dispatch.cpp`)
reads the runs back from the deployed tasks' identity records.

The records are a hash map in the source.  `derive_lookup` shows that the
blocks read back do not depend on the order they are visited in, as long as
the records of an operator agree on its base.
-/

namespace Clink.Ports.OpLayout

variable {Op : Type*} [DecidableEq Op] {op : Op} {base : Nat} {p : UInt32}

/-- Which operator a deployed task hosts, and its index within it. -/
structure TaskOpIdentity (Op : Type*) where
  opId : Op
  subtaskIdxInOp : UInt32
  deriving DecidableEq

/-- The identity records with the job-global index each is kept under. -/
abbrev IdentityMap (Op : Type*) := List (Nat × TaskOpIdentity Op)

structure OpIndexBlock where
  base : Nat := 0
  parallelism : UInt32 := 0
  consistent : Bool := true
  baseSet : Bool := false
  deriving DecidableEq

/-- One round of the loop in `derive_op_index_blocks`, on the operator's block. -/
def noteTask (block : OpIndexBlock) (globalIdx : Nat) (idxInOp : UInt32) : OpIndexBlock :=
  if globalIdx < idxInOp.toNat then { block with consistent := false }
  else
    let base := globalIdx - idxInOp.toNat
    { base := if block.baseSet then min block.base base else base
      parallelism := block.parallelism + 1
      consistent := block.consistent && !(block.baseSet && block.base != base)
      baseSet := true }

def deriveOpIndexBlocks (identity : IdentityMap Op) : AList fun _ : Op => OpIndexBlock :=
  identity.foldl (fun blocks e =>
    blocks.insert e.2.opId
      (noteTask ((blocks.lookup e.2.opId).getD {}) e.1 e.2.subtaskIdxInOp)) ∅

/-! ## The planner's allocation -/

/-- The tasks of one operator, from its first index. -/
def blockTasks (base : Nat) (op : Op) (p : UInt32) : IdentityMap Op :=
  (List.range p.toNat).map fun i => (base + i, ⟨op, UInt32.ofNat i⟩)

def planFrom (base : Nat) : List (Op × UInt32) → IdentityMap Op
  | [] => []
  | (op, p) :: rest => blockTasks base op p ++ planFrom (base + p.toNat) rest

/-- The tasks of a graph whose chains are led by these operators at these
parallelisms. -/
def planTasks (leads : List (Op × UInt32)) : IdentityMap Op := planFrom 0 leads

/-- The operator's tasks are exactly the `p` indices from `base`. -/
def IsBlock (identity : IdentityMap Op) (op : Op) (base : Nat) (p : UInt32) : Prop :=
  ∀ g i, (g, ⟨op, i⟩) ∈ identity ↔ i < p ∧ g = base + i.toNat

variable {ident : TaskOpIdentity Op}

omit [DecidableEq Op] in
theorem mem_blockTasks {g : Nat} :
    (g, ident) ∈ blockTasks base op p ↔
      ident.opId = op ∧ ident.subtaskIdxInOp < p ∧ g = base + ident.subtaskIdxInOp.toNat := by
  simp only [blockTasks, List.mem_map, List.mem_range, Prod.mk.injEq]
  constructor
  · rintro ⟨i, hi, rfl, rfl⟩
    have hsize : i < UInt32.size := Nat.lt_trans hi p.toNat_lt
    have hto : (UInt32.ofNat i).toNat = i := UInt32.toNat_ofNat_of_lt hsize
    refine ⟨rfl, UInt32.lt_iff_toNat_lt.mpr ?_, ?_⟩
    · rw [hto]
      exact hi
    · rw [hto]
  · rintro ⟨rfl, hlt, rfl⟩
    refine ⟨ident.subtaskIdxInOp.toNat, UInt32.lt_iff_toNat_lt.mp hlt, rfl, ?_⟩
    rw [UInt32.ofNat_toNat]

variable {leads : List (Op × UInt32)}

omit [DecidableEq Op] in
/-- A planned task belongs to some lead, at an index inside its parallelism. -/
theorem mem_planFrom {g : Nat} (h : (g, ident) ∈ planFrom base leads) :
    ∃ p, (ident.opId, p) ∈ leads ∧ ident.subtaskIdxInOp < p := by
  induction leads generalizing base with
  | nil => simp [planFrom] at h
  | cons lead rest ih =>
      obtain ⟨o, q⟩ := lead
      rcases List.mem_append.mp h with hblock | hrest
      · obtain ⟨ho, hlt, -⟩ := mem_blockTasks.mp hblock
        exact ⟨q, by simp [ho], hlt⟩
      · obtain ⟨q', hmem, hlt⟩ := ih hrest
        exact ⟨q', List.mem_cons_of_mem _ hmem, hlt⟩

omit [DecidableEq Op] in
theorem isBlock_planFrom (hnodup : (leads.map Prod.fst).Nodup) (hmem : (op, p) ∈ leads) :
    ∃ b, IsBlock (planFrom base leads) op b p := by
  induction leads generalizing base with
  | nil => simp at hmem
  | cons lead rest ih =>
      obtain ⟨o, q⟩ := lead
      simp only [List.map_cons, List.nodup_cons] at hnodup
      rcases List.mem_cons.mp hmem with heq | hrest
      · simp only [Prod.mk.injEq] at heq
        obtain ⟨rfl, rfl⟩ := heq
        refine ⟨base, ?_⟩
        intro g i
        have hout : (g, (⟨op, i⟩ : TaskOpIdentity Op)) ∉ planFrom (base + p.toNat) rest := by
          intro hin
          obtain ⟨q', hq', -⟩ := mem_planFrom hin
          exact hnodup.1 (List.mem_map_of_mem hq')
        simp [planFrom, mem_blockTasks, hout]
      · obtain ⟨b, hb⟩ := ih hnodup.2 hrest
        refine ⟨b, ?_⟩
        intro g i
        have hne : op ≠ o := by
          rintro rfl
          exact hnodup.1 (List.mem_map_of_mem hrest)
        simp only [planFrom, List.mem_append, mem_blockTasks, hne, false_and, false_or]
        exact hb g i

omit [DecidableEq Op] in
/-- A lead's block is where the planner put it, and there is one for each. -/
theorem isBlock_planTasks (hnodup : (leads.map Prod.fst).Nodup) (hmem : (op, p) ∈ leads) :
    ∃ b, IsBlock (planTasks leads) op b p :=
  isBlock_planFrom hnodup hmem

variable {identity : IdentityMap Op}

omit [DecidableEq Op] in
theorem IsBlock.unique {base' : Nat} {p' : UInt32} (h : IsBlock identity op base p)
    (h' : IsBlock identity op base' p') (hp : 0 < p.toNat) : base = base' ∧ p = p' := by
  have hsame : ∀ i : UInt32, i < p → i < p' ∧ base = base' := by
    intro i hi
    have hin := (h' _ _).mp ((h (base + i.toNat) i).mpr ⟨hi, rfl⟩)
    exact ⟨hin.1, by omega⟩
  have hbase : base = base' := by
    have hzero : (0 : UInt32) < p := UInt32.lt_iff_toNat_lt.mpr (by simpa using hp)
    exact (hsame 0 hzero).2
  refine ⟨hbase, ?_⟩
  apply UInt32.toNat_inj.mp
  apply Nat.le_antisymm
  · by_contra hgt
    have hlt : p' < p := UInt32.lt_iff_toNat_lt.mpr (by omega)
    exact UInt32.lt_irrefl _ (hsame p' hlt).1
  · by_contra hgt
    have hlt : p < p' := UInt32.lt_iff_toNat_lt.mpr (by omega)
    have hin := (h _ _).mp ((h' (base' + p.toNat) p).mpr ⟨hlt, rfl⟩)
    exact UInt32.lt_irrefl _ hin.1

omit [DecidableEq Op] in
/-- The planned indices run from `base` without a gap. -/
theorem map_fst_planFrom (base : Nat) (leads : List (Op × UInt32)) :
    ∃ n, (planFrom base leads).map Prod.fst = List.range' base n := by
  induction leads generalizing base with
  | nil => exact ⟨0, rfl⟩
  | cons lead rest ih =>
      obtain ⟨op, p⟩ := lead
      obtain ⟨n, hn⟩ := ih (base + p.toNat)
      refine ⟨p.toNat + n, ?_⟩
      have hblock : (blockTasks base op p).map Prod.fst = List.range' base p.toNat := by
        simp [blockTasks, List.range'_eq_map_range]
      rw [planFrom, List.map_append, hblock, hn]
      exact List.range'_append_1

omit [DecidableEq Op] in
private theorem lookup_of_nodup {l : IdentityMap Op} {g : Nat} (hnodup : (l.map Prod.fst).Nodup)
    (hmem : (g, ident) ∈ l) : l.lookup g = some ident := by
  induction l with
  | nil => simp at hmem
  | cons e rest ih =>
      obtain ⟨g', ident'⟩ := e
      simp only [List.map_cons, List.nodup_cons] at hnodup
      rcases List.mem_cons.mp hmem with heq | hrest
      · simp only [Prod.mk.injEq] at heq
        obtain ⟨rfl, rfl⟩ := heq
        exact List.lookup_cons_self
      · have hne : g ≠ g' := by
          rintro rfl
          exact hnodup.1 (List.mem_map_of_mem hrest)
        rw [List.lookup_cons, beq_eq_false_iff_ne.mpr hne]
        exact ih hnodup.2 hrest

omit [DecidableEq Op] in
theorem lookup_planTasks {g : Nat} (hmem : (g, ident) ∈ planTasks leads) :
    (planTasks leads).lookup g = some ident := by
  obtain ⟨n, hn⟩ := map_fst_planFrom 0 leads
  apply lookup_of_nodup _ hmem
  rw [planTasks, hn]
  exact List.nodup_range'

/-! ## Reading the blocks back -/

/-- How many of the records are the operator's. -/
def taskCount (identity : IdentityMap Op) (op : Op) : Nat :=
  identity.countP fun e => e.2.opId = op

theorem deriveOpIndexBlocks_snoc (identity : IdentityMap Op) (e : Nat × TaskOpIdentity Op) :
    deriveOpIndexBlocks (identity ++ [e]) =
      (deriveOpIndexBlocks identity).insert e.2.opId
        (noteTask (((deriveOpIndexBlocks identity).lookup e.2.opId).getD {}) e.1
          e.2.subtaskIdxInOp) := by
  simp [deriveOpIndexBlocks]

/-- The block of an operator whose records agree on its base, whatever the
order they are visited in. -/
theorem derive_lookup (hbase : ∀ g i, (g, ⟨op, i⟩) ∈ identity → g = base + i.toNat) :
    (deriveOpIndexBlocks identity).lookup op =
      if taskCount identity op = 0 then none
      else some { base := base, parallelism := UInt32.ofNat (taskCount identity op)
                  consistent := true, baseSet := true } := by
  induction identity using List.reverseRecOn with
  | nil => rfl
  | append_singleton identity e ih =>
      obtain ⟨g, o, i⟩ := e
      have hih := ih fun g i h => hbase g i (List.mem_append_left _ h)
      rw [deriveOpIndexBlocks_snoc]
      by_cases ho : o = op
      · subst ho
        have hg : g = base + i.toNat := hbase g i (by simp)
        have hcount : taskCount (identity ++ [(g, ⟨o, i⟩)]) o = taskCount identity o + 1 := by
          simp [taskCount]
        rw [AList.lookup_insert, hcount, if_neg (by omega), hih]
        by_cases hzero : taskCount identity o = 0
        · simp [hzero, noteTask, hg]
        · have hnot : ¬ g < i.toNat := by omega
          have hsub : g - i.toNat = base := by omega
          simp [hzero, noteTask, hnot, hsub]
      · have hcount : taskCount (identity ++ [(g, ⟨o, i⟩)]) op = taskCount identity op := by
          simp [taskCount, ho]
        rw [AList.lookup_insert_ne (Ne.symm ho), hih, hcount]

theorem taskCount_planFrom (hnodup : (leads.map Prod.fst).Nodup) (hmem : (op, p) ∈ leads) :
    taskCount (planFrom base leads) op = p.toNat := by
  have hnone : ∀ {b : Nat} {leads : List (Op × UInt32)}, op ∉ leads.map Prod.fst →
      taskCount (planFrom b leads) op = 0 := by
    intro b leads hout
    unfold taskCount
    rw [List.countP_eq_zero]
    rintro ⟨g, ident⟩ hin
    obtain ⟨q, hq, -⟩ := mem_planFrom hin
    simp only [decide_eq_true_eq]
    rintro rfl
    exact hout (List.mem_map_of_mem hq)
  have hblock : ∀ b (o : Op) (q : UInt32), taskCount (blockTasks b o q) op =
      if o = op then q.toNat else 0 := by
    intro b o q
    unfold taskCount blockTasks
    rw [List.countP_map]
    by_cases ho : o = op
    · simp [ho, Function.comp_def]
    · simp [ho, Function.comp_def]
  induction leads generalizing base with
  | nil => simp at hmem
  | cons lead rest ih =>
      obtain ⟨o, q⟩ := lead
      simp only [List.map_cons, List.nodup_cons] at hnodup
      have hsplit : taskCount (planFrom base ((o, q) :: rest)) op =
          taskCount (blockTasks base o q) op + taskCount (planFrom (base + q.toNat) rest) op := by
        simp [planFrom, taskCount]
      rw [hsplit, hblock]
      rcases List.mem_cons.mp hmem with heq | hrest
      · simp only [Prod.mk.injEq] at heq
        obtain ⟨rfl, rfl⟩ := heq
        rw [hnone hnodup.1, if_pos rfl]
        omega
      · have hne : o ≠ op := by
          rintro rfl
          exact hnodup.1 (List.mem_map_of_mem hrest)
        rw [if_neg hne, ih hnodup.2 hrest]
        omega

/-- The blocks read back from a plan are the planned ones. -/
theorem derive_planTasks (hnodup : (leads.map Prod.fst).Nodup) (hmem : (op, p) ∈ leads)
    (hp : p ≠ 0) (hblock : IsBlock (planTasks leads) op base p) :
    (deriveOpIndexBlocks (planTasks leads)).lookup op =
      some { base := base, parallelism := p, consistent := true, baseSet := true } := by
  have hcount : taskCount (planTasks leads) op = p.toNat := taskCount_planFrom hnodup hmem
  have hpos : p.toNat ≠ 0 := by
    intro hzero
    exact hp (UInt32.toNat_inj.mp hzero)
  rw [derive_lookup fun g i h => ((hblock g i).mp h).2, hcount, if_neg hpos, UInt32.ofNat_toNat]

/-! ## The parallelism the deployed tasks describe -/

/-- The greatest index of the operator's tasks and one, as a restart that is
not a replan computes it. -/
def deployedParallelism (identity : IdentityMap Op) (op : Op) : UInt32 :=
  identity.foldl (fun newP e =>
    if e.2.opId = op ∧ newP < e.2.subtaskIdxInOp + 1 then e.2.subtaskIdxInOp + 1 else newP) 0

/-- One more task of the operator raises the result to one past its index. -/
theorem toNat_deployedParallelism_snoc {l : IdentityMap Op} {g o i} (hi : o = op → i < p) :
    (deployedParallelism (l ++ [(g, ⟨o, i⟩)]) op).toNat =
      if o = op then max (deployedParallelism l op).toNat (i.toNat + 1)
      else (deployedParallelism l op).toNat := by
  have hsnoc : deployedParallelism (l ++ [(g, ⟨o, i⟩)]) op =
      if o = op ∧ deployedParallelism l op < i + 1 then i + 1 else deployedParallelism l op := by
    unfold deployedParallelism
    rw [List.foldl_append]
    rfl
  rw [hsnoc]
  by_cases ho : o = op
  · have hlt := UInt32.lt_iff_toNat_lt.mp (hi ho)
    have hp := p.toNat_lt
    have hsucc : (i + 1).toNat = i.toNat + 1 := by
      rw [UInt32.toNat_add, UInt32.toNat_one, Nat.mod_eq_of_lt (by omega)]
    rw [if_pos ho]
    by_cases hgt : deployedParallelism l op < i + 1
    · have hgt' := UInt32.lt_iff_toNat_lt.mp hgt
      rw [if_pos ⟨ho, hgt⟩]
      omega
    · have hgt' : ¬ (deployedParallelism l op).toNat < (i + 1).toNat :=
        fun h => hgt (UInt32.lt_iff_toNat_lt.mpr h)
      rw [if_neg fun h => hgt h.2]
      omega
  · rw [if_neg fun h => ho h.1, if_neg ho]

/-- The fold stays within `p` and reaches one past every index it has seen. -/
theorem deployedParallelism_bounds (l : IdentityMap Op)
    (hin : ∀ g i, (g, ⟨op, i⟩) ∈ l → i < p) :
    (deployedParallelism l op).toNat ≤ p.toNat ∧
      ∀ g i, (g, ⟨op, i⟩) ∈ l → i.toNat + 1 ≤ (deployedParallelism l op).toNat := by
  induction l using List.reverseRecOn with
  | nil => simp [deployedParallelism]
  | append_singleton l e ih =>
      obtain ⟨g, o, i⟩ := e
      obtain ⟨hle, hreach⟩ := ih fun g i h => hin g i (List.mem_append_left _ h)
      have hi : o = op → i < p := by
        intro ho
        exact hin g i (by simp [ho])
      rw [toNat_deployedParallelism_snoc hi]
      by_cases ho : o = op
      · have hlt := UInt32.lt_iff_toNat_lt.mp (hi ho)
        rw [if_pos ho]
        refine ⟨by omega, ?_⟩
        intro g' i' hmem
        rcases List.mem_append.mp hmem with hold | hlast
        · have hr := hreach g' i' hold
          omega
        · simp only [List.mem_singleton, Prod.mk.injEq, TaskOpIdentity.mk.injEq] at hlast
          rw [hlast.2.2]
          omega
      · rw [if_neg ho]
        refine ⟨hle, ?_⟩
        intro g' i' hmem
        rcases List.mem_append.mp hmem with hold | hnew
        · exact hreach g' i' hold
        · simp only [List.mem_singleton, Prod.mk.injEq, TaskOpIdentity.mk.injEq] at hnew
          exact absurd hnew.2.1.symm ho

theorem deployedParallelism_eq (hblock : IsBlock identity op base p) :
    deployedParallelism identity op = p := by
  obtain ⟨hle, hreach⟩ := deployedParallelism_bounds identity fun g i h => ((hblock g i).mp h).1
  apply UInt32.toNat_inj.mp
  apply Nat.le_antisymm hle
  rcases Nat.eq_zero_or_pos p.toNat with hzero | hpos
  · omega
  · have hsize : p.toNat - 1 < UInt32.size := by
      have hp := p.toNat_lt
      change p.toNat - 1 < 2 ^ 32
      omega
    have hto : (UInt32.ofNat (p.toNat - 1)).toNat = p.toNat - 1 := UInt32.toNat_ofNat_of_lt hsize
    have hlast := hreach _ (UInt32.ofNat (p.toNat - 1)) ((hblock _ _).mpr
      ⟨UInt32.lt_iff_toNat_lt.mpr (by omega), rfl⟩)
    omega

end Clink.Ports.OpLayout

import Clink.Ports.RescaleDispatch

/-!
# Planning the cutover of one operator

The embedding of `plan_operator_cutover` (`src/cluster/rescale_dispatch.cpp`).
The new subtasks are placed one after another: a scan that starts at a cursor
takes the first worker with a free slot, and the cursor moves past it.

`placeTask_spec` says what one placement does to the slots: it takes one slot of
one worker, and it finds one whenever there is one.  The slots left and the
tasks placed therefore always add up to the slots given (`Placed`).  The test
before the loop adds the slots up in 32 bits, so it can refuse what the loop
could place.
-/

namespace Clink.Ports.RescaleDispatch

open Clink.Ports.KeyGroups

/-- The bytes of a `std::string`. -/
abbrev Bytes := List UInt8

structure PeerAddress where
  role : Bytes
  subtaskIdx : UInt32
  host : Bytes
  dataPort : UInt16
  deriving DecidableEq

/-- `kRestoreFromSelf`. -/
def restoreFromSelf : UInt32 := 0xFFFFFFFF

structure DeploymentTask where
  role : Bytes
  subtaskIdx : UInt32 := 0
  dataPort : UInt16 := 0
  peers : List PeerAddress := []
  extraConfig : Bytes := []
  restoreFromSubtaskIdx : UInt32 := restoreFromSelf
  restoreFromParentCount : UInt32 := 1
  keyGroupFirst : UInt16 := 0
  keyGroupLast : UInt16 := 0
  succeedsFirst : UInt32 := restoreFromSelf
  succeedsCount : UInt32 := 1
  deriving DecidableEq

structure CutoverDeployment where
  newTasks : List (Bytes × DeploymentTask) := []
  teardownKeys : List Bytes := []
  ok : Bool := false
  error : String := ""

/-! ## Placing tasks -/

/-- The workers with their free slots. -/
abbrev WorkerSlots := List (Bytes × UInt32)

/-- The first of the workers from the cursor on that has a free slot: the steps
to it, and the worker. -/
def scan (free : WorkerSlots) (rr : Nat) : Option (Nat × Bytes × UInt32) :=
  (List.range free.length).findSome? fun step =>
    free[(rr + step) % free.length]?.bind fun slot =>
      if 0 < slot.2 then some (step, slot) else none

/-- The locals of the placement loop. -/
structure Placing where
  free : WorkerSlots
  rr : Nat := 0
  newTasks : List (Bytes × DeploymentTask) := []

/-- The task of new subtask `i`. -/
def cutoverTask (opId : Bytes) (oldP newP : UInt32) (templateTask : DeploymentTask) (i : UInt32) :
    DeploymentTask :=
  { templateTask with
    role := opId
    subtaskIdx := i
    dataPort := 0
    keyGroupFirst := (keyGroupRangeForSubtask i newP).1
    keyGroupLast := (keyGroupRangeForSubtask i newP).2
    restoreFromSubtaskIdx := (rescaleParentMapping oldP newP i).parentIdx
    restoreFromParentCount := (rescaleParentMapping oldP newP i).parentCount
    succeedsFirst := (rescaleParentMapping oldP newP i).succeedsFirst
    succeedsCount := (rescaleParentMapping oldP newP i).succeedsCount }

/-- One round of the placement loop. -/
def placeTask (opId : Bytes) (oldP newP : UInt32) (templateTask : DeploymentTask) (i : UInt32)
    (s : Placing) : Except String Placing :=
  let mapping := rescaleParentMapping oldP newP i
  if mapping.ok = false then .error mapping.error
  else
    match scan s.free s.rr with
    | some (step, pickedWorker, slots) =>
        let at_ := (s.rr + step) % s.free.length
        if pickedWorker = [] then
          .error ("rescale: ran out of worker slots while placing subtask " ++ toString i.toNat)
        else
          .ok { free := s.free.set at_ (pickedWorker, slots - 1)
                rr := (s.rr + step + 1) % s.free.length
                newTasks := s.newTasks ++
                  [(pickedWorker, cutoverTask opId oldP newP templateTask i)] }
    | none =>
        .error ("rescale: ran out of worker slots while placing subtask " ++ toString i.toNat)

/-- The placement loop from subtask `i` on, over the `n` subtasks left. -/
def placeTasks (opId : Bytes) (oldP newP : UInt32) (templateTask : DeploymentTask) :
    Nat → Nat → Placing → Except String Placing
  | _, 0, s => .ok s
  | i, n + 1, s => do
      let s ← placeTask opId oldP newP templateTask (UInt32.ofNat i) s
      placeTasks opId oldP newP templateTask (i + 1) n s

/-- `total_free`: the slots added up in 32 bits. -/
def totalFree (workerFreeSlots : WorkerSlots) : UInt32 :=
  workerFreeSlots.foldl (fun total w => total + w.2) 0

def planOperatorCutover (opId : Bytes) (currentParallelism targetParallelism : UInt32)
    (templateTask : DeploymentTask) (oldSubtaskKeys : List Bytes)
    (workerFreeSlots : WorkerSlots) : CutoverDeployment :=
  let out : CutoverDeployment := { teardownKeys := oldSubtaskKeys }
  let newP := targetParallelism
  let oldP := currentParallelism
  if oldP = 0 ∨ newP = 0 then { out with error := "rescale: parallelism must be non-zero" }
  else if oldP = newP then { out with error := "rescale: target equals current; no-op" }
  else if newP > oldP ∧ newP % oldP ≠ 0 then
    { out with error := "rescale: target parallelism (" ++ toString newP.toNat ++
        ") must be an integer multiple of current (" ++ toString oldP.toNat ++ ")" }
  else if ¬ newP > oldP ∧ oldP % newP ≠ 0 then
    { out with error := "rescale: current parallelism (" ++ toString oldP.toNat ++
        ") must be an integer multiple of target (" ++ toString newP.toNat ++ ")" }
  else if totalFree workerFreeSlots < newP then
    { out with error := "rescale: insufficient free worker slots (" ++
        toString (totalFree workerFreeSlots).toNat ++ ") for target parallelism " ++
        toString newP.toNat }
  else
    match placeTasks opId oldP newP templateTask 0 newP.toNat { free := workerFreeSlots } with
    | .error e => { out with error := e }
    | .ok s => { out with newTasks := s.newTasks, ok := true }

/-! ## What a placement does to the slots -/

/-- The free slots of the workers `p` asks for, as they really add up. -/
def freeSlots (p : Bytes → Bool) (free : WorkerSlots) : Nat :=
  (free.map fun w => if p w.1 then w.2.toNat else 0).sum

variable {free : WorkerSlots} {slots : UInt32}

theorem freeSlots_take {p : Bytes → Bool} {i : Nat} {id : Bytes}
    (hslot : free[i]? = some (id, slots)) (hpos : 0 < slots) :
    freeSlots p (free.set i (id, slots - 1)) + (if p id then 1 else 0) = freeSlots p free := by
  have hsub : (slots - 1).toNat + 1 = slots.toNat := by
    have hone : (1 : UInt32) ≤ slots :=
      UInt32.le_iff_toNat_le.mpr (UInt32.lt_iff_toNat_lt.mp hpos)
    have hle : 1 ≤ slots.toNat := UInt32.le_iff_toNat_le.mp hone
    rw [UInt32.toNat_sub_of_le _ _ hone, UInt32.toNat_one]
    omega
  induction free generalizing i with
  | nil => simp at hslot
  | cons w rest ih =>
      cases i with
      | zero =>
          obtain rfl := Option.some.inj hslot
          simp only [freeSlots, List.set_cons_zero, List.map_cons, List.sum_cons]
          split <;> omega
      | succ i =>
          have htail := ih hslot
          simp only [freeSlots, List.set_cons_succ, List.map_cons, List.sum_cons] at htail ⊢
          omega

private theorem map_fst_take {i : Nat} {id : Bytes} (hslot : free[i]? = some (id, slots))
    (slots' : UInt32) : (free.set i (id, slots')).map Prod.fst = free.map Prod.fst := by
  have hfst : (free.map Prod.fst)[i]? = some id := by rw [List.getElem?_map, hslot, Option.map_some]
  obtain ⟨hi, hget⟩ := List.getElem?_eq_some_iff.mp hfst
  rw [List.map_set, ← hget]
  exact List.set_getElem_self hi

private theorem scan_some {rr step : Nat} {id : Bytes} (h : scan free rr = some (step, id, slots)) :
    free[(rr + step) % free.length]? = some (id, slots) ∧ 0 < slots := by
  obtain ⟨step', -, hfound⟩ := List.exists_of_findSome?_eq_some h
  obtain ⟨slot, hslot, hsome⟩ := Option.bind_eq_some_iff.mp hfound
  split at hsome
  · rename_i hpos
    obtain ⟨rfl, rfl⟩ := Prod.mk.inj (Option.some.inj hsome)
    exact ⟨hslot, hpos⟩
  · cases hsome

/-- The scan passes every worker, so it finds a slot if there is one. -/
theorem scan_none {rr : Nat} (h : scan free rr = none) : freeSlots (fun _ => true) free = 0 := by
  unfold freeSlots
  rw [List.sum_eq_zero_iff_forall_eq_nat]
  simp only [if_true, List.mem_map]
  rintro n ⟨w, hw, rfl⟩
  obtain ⟨i, hi, hget⟩ := List.mem_iff_getElem.mp hw
  -- The step at which the cursor stands at worker `i`.
  have hlen : 0 < free.length := by omega
  have hmod := Nat.mod_lt rr hlen
  obtain ⟨step, hstep, hat⟩ : ∃ step < free.length, (rr + step) % free.length = i := by
    by_cases hle : rr % free.length ≤ i
    · refine ⟨i - rr % free.length, by omega, ?_⟩
      rw [← Nat.mod_add_mod, Nat.add_sub_cancel' hle, Nat.mod_eq_of_lt hi]
    · refine ⟨i + free.length - rr % free.length, by omega, ?_⟩
      rw [← Nat.mod_add_mod, Nat.add_sub_cancel' (by omega), Nat.add_mod_right, Nat.mod_eq_of_lt hi]
  have hnone := List.findSome?_eq_none_iff.mp h step (List.mem_range.mpr hstep)
  rw [hat, List.getElem?_eq_getElem hi, hget, Option.bind_some] at hnone
  split at hnone
  · cases hnone
  · rename_i hzero
    have hle := UInt32.le_iff_toNat_le.mp (UInt32.not_lt.mp hzero)
    rw [UInt32.toNat_zero] at hle
    omega

section Runs

variable {opId : Bytes} {p q : UInt32} {templateTask : DeploymentTask} {given : WorkerSlots}

/-- The state of the loop before subtask `i`: the tasks so far, one for each
subtask below, and with them the slots they have taken. -/
structure Placed (opId : Bytes) (p q : UInt32) (templateTask : DeploymentTask)
    (given : WorkerSlots) (i : Nat) (s : Placing) : Prop where
  tasks : s.newTasks.map Prod.snd =
    (List.range i).map fun j => cutoverTask opId p q templateTask (UInt32.ofNat j)
  slots : ∀ who, freeSlots who s.free + s.newTasks.countP (fun t => who t.1) = freeSlots who given
  workers : s.free.map Prod.fst = given.map Prod.fst

private theorem placed_start : Placed opId p q templateTask given 0 { free := given } :=
  ⟨rfl, fun _ => rfl, rfl⟩

theorem Placed.step {i : Nat} {s : Placing} (h : Placed opId p q templateTask given i s)
    (hids : ∀ w ∈ given, w.1 ≠ []) (hok : (rescaleParentMapping p q (UInt32.ofNat i)).ok = true)
    (hfree : 0 < freeSlots (fun _ => true) s.free) :
    ∃ s', placeTask opId p q templateTask (UInt32.ofNat i) s = .ok s' ∧
      Placed opId p q templateTask given (i + 1) s' ∧
      freeSlots (fun _ => true) s'.free + 1 = freeSlots (fun _ => true) s.free := by
  cases hscan : scan s.free s.rr with
  | none =>
      have hzero := scan_none hscan
      omega
  | some found =>
      obtain ⟨step, id, slots⟩ := found
      obtain ⟨hslot, hpos⟩ := scan_some hscan
      have hid : id ≠ [] := by
        have hmem : id ∈ given.map Prod.fst := by
          rw [← h.workers]
          exact List.mem_map_of_mem (f := Prod.fst) (List.mem_of_getElem? hslot)
        obtain ⟨w, hw, rfl⟩ := List.mem_map.mp hmem
        exact hids w hw
      unfold placeTask
      simp only [hok, hscan, hid, if_false, Bool.true_eq_false]
      refine ⟨_, rfl, ⟨?_, fun who => ?_, ?_⟩, ?_⟩
      · rw [List.map_append, h.tasks, List.range_succ, List.map_append]
        rfl
      · have htake := freeSlots_take (p := who) hslot hpos
        have hsum := h.slots who
        rw [List.countP_append, List.countP_singleton]
        dsimp only
        omega
      · rw [map_fst_take hslot, h.workers]
      · exact freeSlots_take (p := fun _ => true) hslot hpos

/-- Enough slots for the subtasks left place all of them. -/
theorem Placed.run {i n : Nat} {s : Placing} (h : Placed opId p q templateTask given i s)
    (hids : ∀ w ∈ given, w.1 ≠ [])
    (hok : ∀ j < i + n, (rescaleParentMapping p q (UInt32.ofNat j)).ok = true)
    (hfree : n ≤ freeSlots (fun _ => true) s.free) :
    ∃ s', placeTasks opId p q templateTask i n s = .ok s' ∧
      Placed opId p q templateTask given (i + n) s' := by
  induction n generalizing i s with
  | zero => exact ⟨s, rfl, h⟩
  | succ n ih =>
      obtain ⟨s', hplace, hs', hslots⟩ := h.step hids (hok i (by omega)) (by omega)
      obtain ⟨s'', hrest, hs''⟩ := ih hs' (fun j hj => hok j (by omega)) (by omega)
      refine ⟨s'', ?_, by rwa [Nat.add_right_comm] at hs''⟩
      rw [placeTasks, hplace]
      exact hrest

end Runs

/-! ## The plan -/

theorem toNat_totalFree (workers : WorkerSlots) :
    (totalFree workers).toNat = freeSlots (fun _ => true) workers % 2 ^ 32 := by
  have hfold : ∀ (ws : WorkerSlots) (total : UInt32),
      (ws.foldl (fun total w => total + w.2) total).toNat =
        (total.toNat + freeSlots (fun _ => true) ws) % 2 ^ 32 := by
    intro ws
    induction ws with
    | nil =>
        intro total
        exact (Nat.mod_eq_of_lt total.toNat_lt).symm
    | cons w rest ih =>
        intro total
        rw [List.foldl_cons, ih, UInt32.toNat_add]
        simp only [freeSlots, List.map_cons, List.sum_cons, if_true]
        rw [Nat.mod_add_mod, Nat.add_assoc]
  rw [totalFree, hfold, UInt32.toNat_zero, Nat.zero_add]

theorem mod_eq_zero_iff {a b : UInt32} : a % b = 0 ↔ b.toNat ∣ a.toNat := by
  rw [← UInt32.toNat_inj, UInt32.toNat_mod, UInt32.toNat_zero, Nat.dvd_iff_mod_eq_zero]

section Plan

variable {opId : Bytes} {p q : UInt32} {templateTask : DeploymentTask} {workers : WorkerSlots}

/-- What the checks before the loop let through is placed. -/
theorem plan_cases (opId : Bytes) (templateTask : DeploymentTask) (keys : List Bytes)
    (hp : 0 < p) (hq : 0 < q) (hids : ∀ w ∈ workers, w.1 ≠ []) :
    ((planOperatorCutover opId p q templateTask keys workers).ok = true ↔
      p ≠ q ∧ (p.toNat ∣ q.toNat ∨ q.toNat ∣ p.toNat) ∧
        q.toNat ≤ freeSlots (fun _ => true) workers % 2 ^ 32) ∧
    ((planOperatorCutover opId p q templateTask keys workers).ok = true →
      ∃ s, Placed opId p q templateTask workers q.toNat s ∧
        (planOperatorCutover opId p q templateTask keys workers).newTasks = s.newTasks) := by
  have hpn : 0 < p.toNat := UInt32.lt_iff_toNat_lt.mp hp
  have hqn : 0 < q.toNat := UInt32.lt_iff_toNat_lt.mp hq
  have hp0 : p ≠ 0 := fun h => by simp [h] at hpn
  have hq0 : q ≠ 0 := fun h => by simp [h] at hqn
  have hfits : totalFree workers < q ↔ ¬ q.toNat ≤ freeSlots (fun _ => true) workers % 2 ^ 32 := by
    rw [UInt32.lt_iff_toNat_lt, toNat_totalFree, Nat.not_le]
  unfold planOperatorCutover
  simp only [hp0, hq0, or_self, if_false]
  by_cases heq : p = q
  · simp [heq]
  rw [if_neg heq]
  by_cases hup : q > p ∧ q % p ≠ 0
  · have hndvd : ¬ q.toNat ∣ p.toNat := fun hdvd =>
      absurd (Nat.le_of_dvd hpn hdvd) (Nat.not_le.mpr (UInt32.lt_iff_toNat_lt.mp hup.1))
    rw [if_pos hup]
    simp [hndvd, mt mod_eq_zero_iff.mpr hup.2]
  rw [if_neg hup]
  by_cases hdown : ¬ q > p ∧ p % q ≠ 0
  · have hndvd : ¬ p.toNat ∣ q.toNat := fun hdvd =>
      heq (UInt32.toNat_inj.mp (Nat.le_antisymm (Nat.le_of_dvd hqn hdvd)
        (UInt32.le_iff_toNat_le.mp (UInt32.not_lt.mp hdown.1))))
    rw [if_pos hdown]
    simp [hndvd, mt mod_eq_zero_iff.mpr hdown.2]
  rw [if_neg hdown]
  have hdvd : p.toNat ∣ q.toNat ∨ q.toNat ∣ p.toNat := by
    rw [← mod_eq_zero_iff, ← mod_eq_zero_iff]
    by_cases hgt : q > p
    · exact .inl (not_not.mp fun hne => hup ⟨hgt, hne⟩)
    · exact .inr (not_not.mp fun hne => hdown ⟨hgt, hne⟩)
  by_cases hshort : totalFree workers < q
  · rw [if_pos hshort]
    refine ⟨⟨fun hfalse => (nomatch hfalse), fun henough => ?_⟩, fun hfalse => (nomatch hfalse)⟩
    exact absurd henough.2.2 (hfits.mp hshort)
  rw [if_neg hshort]
  have henough := not_not.mp (mt hfits.mpr hshort)
  have hok : ∀ j < 0 + q.toNat, (rescaleParentMapping p q (UInt32.ofNat j)).ok = true := by
    intro j hj
    rw [Nat.zero_add] at hj
    rw [rescaleParentMapping_ok_iff]
    refine ⟨hp0, hq0, ?_, ?_⟩
    · rwa [UInt32.lt_iff_toNat_lt, UInt32.toNat_ofNat_of_lt' (Nat.lt_trans hj q.toNat_lt)]
    · rwa [mod_eq_zero_iff, mod_eq_zero_iff]
  have hstart : Placed opId p q templateTask workers 0 { free := workers } := placed_start
  obtain ⟨s, hs, hplaced⟩ := hstart.run hids hok (henough.trans (Nat.mod_le _ _))
  rw [Nat.zero_add] at hplaced
  rw [hs]
  exact ⟨⟨fun _ => ⟨heq, hdvd, henough⟩, fun _ => rfl⟩, fun _ => ⟨s, hplaced, rfl⟩⟩

/-- Old subtask `i` is among those the task restores from. -/
def DeploymentTask.RestoresFrom (t : DeploymentTask) (i : UInt32) : Prop :=
  t.restoreFromSubtaskIdx.toNat ≤ i.toNat ∧
    i.toNat < t.restoreFromSubtaskIdx.toNat + t.restoreFromParentCount.toNat

/-- Everything is placed exactly once: the subtasks, within the slots of the
workers, the key groups, and the old subtasks, which several new ones may share
only when scaling up. -/
structure PlacesOnce (p q : UInt32) (workers : WorkerSlots)
    (tasks : List (Bytes × DeploymentTask)) : Prop where
  subtasks : tasks.map (fun t => t.2.subtaskIdx.toNat) = List.range q.toNat
  slots : ∀ id, tasks.countP (fun t => t.1 = id) ≤ freeSlots (fun w => w = id) workers
  groups : ∀ g, g < numKeyGroups → ∃! t, t ∈ tasks ∧ t.2.keyGroupFirst ≤ g ∧ g < t.2.keyGroupLast
  onlyGroups : ∀ t ∈ tasks, ∀ g, t.2.keyGroupFirst ≤ g → g < t.2.keyGroupLast → g < numKeyGroups
  parents : ∀ i < p, ∃ t ∈ tasks, t.2.RestoresFrom i
  parentsOnce : q < p → ∀ i < p, ∃! t, t ∈ tasks ∧ t.2.RestoresFrom i

section Tasks

variable {s : Placing} (h : Placed opId p q templateTask workers q.toNat s)
include h

theorem Placed.subtasks :
    s.newTasks.map (fun t => t.2.subtaskIdx.toNat) = List.range q.toNat := by
  have hmap := congrArg (List.map fun t : DeploymentTask => t.subtaskIdx.toNat) h.tasks
  rw [List.map_map, List.map_map] at hmap
  rw [show (fun t : Bytes × DeploymentTask => t.2.subtaskIdx.toNat) =
    (fun t : DeploymentTask => t.subtaskIdx.toNat) ∘ Prod.snd from rfl, hmap]
  refine (List.map_congr_left fun j hj => ?_).trans (List.map_id _)
  exact UInt32.toNat_ofNat_of_lt' (Nat.lt_trans (List.mem_range.mp hj) q.toNat_lt)

theorem Placed.task {t : Bytes × DeploymentTask} (ht : t ∈ s.newTasks) :
    ∃ j < q, t.2 = cutoverTask opId p q templateTask j := by
  have hmem : t.2 ∈ s.newTasks.map Prod.snd := List.mem_map_of_mem ht
  rw [h.tasks] at hmem
  obtain ⟨j, hj, heq⟩ := List.mem_map.mp hmem
  obtain ⟨j', hlt, rfl⟩ := exists_subtask (List.mem_range.mp hj)
  exact ⟨j', hlt, by rw [← heq, UInt32.ofNat_toNat]⟩

theorem Placed.exists_task {j : UInt32} (hj : j < q) :
    ∃ t ∈ s.newTasks, t.2 = cutoverTask opId p q templateTask j := by
  have hmem : cutoverTask opId p q templateTask j ∈ s.newTasks.map Prod.snd := by
    rw [h.tasks]
    refine List.mem_map.mpr ⟨j.toNat, List.mem_range.mpr (UInt32.lt_iff_toNat_lt.mp hj), ?_⟩
    rw [UInt32.ofNat_toNat]
  exact List.mem_map.mp hmem

/-- What one subtask alone has, one task alone has. -/
theorem Placed.existsUnique {P : DeploymentTask → Prop}
    (hone : ∃! j, j < q ∧ P (cutoverTask opId p q templateTask j)) :
    ∃! t, t ∈ s.newTasks ∧ P t.2 := by
  obtain ⟨j, ⟨hj, hP⟩, hunique⟩ := hone
  obtain ⟨t, ht, hj'⟩ := h.exists_task hj
  refine ⟨t, ⟨ht, hj' ▸ hP⟩, ?_⟩
  rintro t' ⟨ht', hP'⟩
  obtain ⟨j'', hj'', heq⟩ := h.task ht'
  obtain rfl := hunique j'' ⟨hj'', heq ▸ hP'⟩
  have hnodup : (s.newTasks.map fun t => t.2.subtaskIdx.toNat).Nodup := by
    rw [h.subtasks]
    exact List.nodup_range
  exact List.inj_on_of_nodup_map hnodup ht' ht (by rw [heq, hj'])

end Tasks

private theorem placesOnce (hp : 0 < p) (hq : 0 < q)
    (hdvd : p.toNat ∣ q.toNat ∨ q.toNat ∣ p.toNat) {s : Placing}
    (h : Placed opId p q templateTask workers q.toNat s) : PlacesOnce p q workers s.newTasks := by
  have hpn : 0 < p.toNat := UInt32.lt_iff_toNat_lt.mp hp
  have hqn : 0 < q.toNat := UInt32.lt_iff_toNat_lt.mp hq
  have hq0 : q ≠ 0 := fun h => by simp [h] at hqn
  have hfactor : q % p = 0 ∨ p % q = 0 := by rwa [mod_eq_zero_iff, mod_eq_zero_iff]
  have hgroup : ∀ g : KeyGroup, g < numKeyGroups → g.toNat < 128 := fun g hg =>
    UInt16.lt_iff_toNat_lt.mp hg
  refine ⟨h.subtasks, fun id => ?_, fun g hg => ?_, fun t ht g hfirst hlast => ?_,
    fun i hi => ?_, fun hdown i hi => ?_⟩
  · have hsum := h.slots fun w => decide (w = id)
    omega
  · refine h.existsUnique (P := fun t => t.keyGroupFirst ≤ g ∧ g < t.keyGroupLast)
      ⟨subtaskForKeyGroup g q, ⟨subtaskForKeyGroup_lt (hgroup g hg) hq0,
        owns_subtaskForKeyGroup (hgroup g hg) hq0⟩, ?_⟩
    rintro j ⟨hj, hown⟩
    exact ((owns_iff_subtaskForKeyGroup hj (hgroup g hg)).mp hown).symm
  · obtain ⟨j, hj, heq⟩ := h.task ht
    rw [heq] at hfirst hlast
    exact UInt16.lt_iff_toNat_lt.mpr (lt_of_owns hj ⟨hfirst, hlast⟩)
  · obtain ⟨j, ⟨hj, hsucceeds⟩, -⟩ := existsUnique_successor hpn hqn hfactor hi
    obtain ⟨t, ht, heq⟩ := h.exists_task hj
    refine ⟨t, ht, heq ▸ ?_⟩
    change RestoresFrom (rescaleParentMapping p q j) i
    rcases factor_cases hpn hqn hfactor with ⟨k, -, hk⟩ | ⟨k, hk1, hk⟩
    · obtain ⟨-, hidx, hcount, hfirst, hsucc⟩ := mapping_up hpn hk hj
      rw [Succeeds, hfirst, hsucc] at hsucceeds
      rw [RestoresFrom, hidx, hcount]
      split at hsucceeds <;> omega
    · obtain ⟨-, hidx, hcount, hfirst, hsucc⟩ := mapping_down hk1 hk hj
      rw [Succeeds, hfirst, hsucc] at hsucceeds
      rwa [RestoresFrom, hidx, hcount]
  · refine h.existsUnique (P := fun t => t.RestoresFrom i) ?_
    rcases factor_cases hpn hqn hfactor with ⟨k, hkpos, hk⟩ | ⟨k, hk1, hk⟩
    · have hle := Nat.le_mul_of_pos_right p.toNat hkpos
      have hlt := UInt32.lt_iff_toNat_lt.mp hdown
      omega
    · -- Scaling down, the parents restored from are the ones succeeded.
      have hsame : ∀ j < q, Succeeds (rescaleParentMapping p q j) i ↔
          (cutoverTask opId p q templateTask j).RestoresFrom i := by
        intro j hj
        change _ ↔ RestoresFrom (rescaleParentMapping p q j) i
        obtain ⟨-, hidx, hcount, hfirst, hsucc⟩ := mapping_down hk1 hk hj
        rw [Succeeds, RestoresFrom, hidx, hcount, hfirst, hsucc]
      obtain ⟨j, ⟨hj, hsucceeds⟩, hunique⟩ := existsUnique_successor hpn hqn hfactor hi
      exact ⟨j, ⟨hj, (hsame j hj).mp hsucceeds⟩, fun j' hj' =>
        hunique j' ⟨hj'.1, (hsame j' hj'.1).mpr hj'.2⟩⟩

end Plan

/-- The plan is made exactly for an integer factor and enough free slots, and then
places everything once, exactly where the 32-bit sum of slots that suffice is
itself enough. -/
theorem cutover_places_once_iff (opId : Bytes) (p q : UInt32) (templateTask : DeploymentTask)
    (oldSubtaskKeys : List Bytes) (workers : WorkerSlots) (hp : 0 < p) (hq : 0 < q)
    (hids : ∀ w ∈ workers, w.1 ≠ []) :
    (((planOperatorCutover opId p q templateTask oldSubtaskKeys workers).ok = true ↔
        p ≠ q ∧ (p.toNat ∣ q.toNat ∨ q.toNat ∣ p.toNat) ∧
          q.toNat ≤ (workers.map fun w => w.2.toNat).sum) ∧
      ((planOperatorCutover opId p q templateTask oldSubtaskKeys workers).ok = true →
        PlacesOnce p q workers
          (planOperatorCutover opId p q templateTask oldSubtaskKeys workers).newTasks)) ↔
    (p ≠ q → p.toNat ∣ q.toNat ∨ q.toNat ∣ p.toNat →
      q.toNat ≤ (workers.map fun w => w.2.toNat).sum →
        q.toNat ≤ (workers.map fun w => w.2.toNat).sum % 2 ^ 32) := by
  obtain ⟨hok, hplaced⟩ := plan_cases opId templateTask oldSubtaskKeys hp hq hids
  have hsum : freeSlots (fun _ => true) workers = (workers.map fun w => w.2.toNat).sum := by
    simp [freeSlots]
  rw [hsum] at hok
  constructor
  · rintro ⟨hiff, -⟩ hne hdvd henough
    exact (hok.mp (hiff.mpr ⟨hne, hdvd, henough⟩)).2.2
  · intro hfits
    refine ⟨hok.trans ?_, fun hmade => ?_⟩
    · constructor
      · rintro ⟨hne, hdvd, henough⟩
        exact ⟨hne, hdvd, henough.trans (Nat.mod_le _ _)⟩
      · rintro ⟨hne, hdvd, henough⟩
        exact ⟨hne, hdvd, hfits hne hdvd henough⟩
    · obtain ⟨s, hs, htasks⟩ := hplaced hmade
      rw [htasks]
      exact placesOnce hp hq (hok.mp hmade).2.1 hs

/-- From two subtasks to four on two workers. -/
theorem cutover_two_to_four :
    (0 : UInt32) < 2 ∧
      PlacesOnce 2 4 [([97], 3), ([98], 2)]
        (planOperatorCutover [111] 2 4 { role := [111] } [] [([97], 3), ([98], 2)]).newTasks :=
  ⟨by decide, ((cutover_places_once_iff [111] 2 4 { role := [111] } [] [([97], 3), ([98], 2)]
    (by decide) (by decide) (by decide)).mpr (by decide)).2 (by decide)⟩

/-- Two workers with 2^31 free slots each are refused two subtasks. -/
theorem wrapped_slots_refused :
    ¬ ((planOperatorCutover [111] 1 2 { role := [111] } []
        [([97], 2147483648), ([98], 2147483648)]).ok = true ↔
      (1 : UInt32) ≠ 2 ∧ ((1 : UInt32).toNat ∣ (2 : UInt32).toNat ∨
        (2 : UInt32).toNat ∣ (1 : UInt32).toNat) ∧
        (2 : UInt32).toNat ≤ ([([97], 2147483648), ([98], 2147483648)].map
          fun w : Bytes × UInt32 => w.2.toNat).sum) := by
  decide

end Clink.Ports.RescaleDispatch

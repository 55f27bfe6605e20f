import Clink.Ports.KeyGroups

/-!
# Which parents a rescaled subtask restores from, and which it succeeds

The embedding of `rescale_parent_mapping`
(`src/cluster/rescale_dispatch.cpp`).  When an operator goes from `p` to `q`
subtasks, each new subtask reads the snapshots of a run of old subtasks, its
*parents*, and takes over the prepared transactions of those it *succeeds*.

Only integer factors are accepted.  `mapping_up` and `mapping_down` give the
mapping as plain arithmetic in the two directions (an unchanged parallelism
is the up direction with factor one); the coverage of key groups then comes
from the slice lemmas and the succession from uniqueness of quotients.
-/

namespace Clink.Ports.RescaleDispatch

open Clink.Ports.KeyGroups
open Clink.Verified.CeilSlice

structure RescaleParentMapping where
  parentIdx : UInt32 := 0
  parentCount : UInt32 := 1
  succeedsFirst : UInt32 := 0
  succeedsCount : UInt32 := 1
  ok : Bool := false
  error : String := ""

/-- The parents of new subtask `subtaskIdxInOp` and those it succeeds. -/
def rescaleParentMapping (oldParallelism newParallelism subtaskIdxInOp : UInt32) :
    RescaleParentMapping :=
  if oldParallelism = 0 ∨ newParallelism = 0 then
    { error := "rescale: parallelism must be non-zero (old=" ++
        toString oldParallelism.toNat ++ " new=" ++ toString newParallelism.toNat ++ ")" }
  else if subtaskIdxInOp ≥ newParallelism then
    { error := "rescale: subtask index " ++ toString subtaskIdxInOp.toNat ++
        " is outside the new parallelism " ++ toString newParallelism.toNat }
  else if newParallelism = oldParallelism then
    { parentIdx := subtaskIdxInOp, parentCount := 1
      succeedsFirst := subtaskIdxInOp, succeedsCount := 1, ok := true }
  else if newParallelism > oldParallelism then
    if newParallelism % oldParallelism ≠ 0 then
      { error := "rescale: target parallelism " ++ toString newParallelism.toNat ++
          " must be an integer multiple of current " ++ toString oldParallelism.toNat }
    else
      let kUp := newParallelism / oldParallelism
      let parent := subtaskIdxInOp / kUp
      -- Every child restores its parent's state; only the first succeeds it.
      { parentIdx := parent, parentCount := 1, succeedsFirst := parent
        succeedsCount := if subtaskIdxInOp % kUp = 0 then 1 else 0, ok := true }
  else if oldParallelism % newParallelism ≠ 0 then
    { error := "rescale: current parallelism " ++ toString oldParallelism.toNat ++
        " must be an integer multiple of target " ++ toString newParallelism.toNat }
  else
    let kDown := oldParallelism / newParallelism
    let first := subtaskIdxInOp * kDown
    { parentIdx := first, parentCount := kDown
      succeedsFirst := first, succeedsCount := kDown, ok := true }

/-- Old subtask `i` is among those the new subtask restores from. -/
def RestoresFrom (m : RescaleParentMapping) (i : UInt32) : Prop :=
  m.parentIdx.toNat ≤ i.toNat ∧ i.toNat < m.parentIdx.toNat + m.parentCount.toNat

/-- Old subtask `i` is among those the new subtask succeeds. -/
def Succeeds (m : RescaleParentMapping) (i : UInt32) : Prop :=
  m.succeedsFirst.toNat ≤ i.toNat ∧
    i.toNat < m.succeedsFirst.toNat + m.succeedsCount.toNat

/-! ## The mapping as plain arithmetic -/

variable {p q j : UInt32} {k : Nat}

/-- Scaling up by `k` (or not at all, `k = 1`): child `j` has the one parent
`j / k`, and succeeds it exactly when it is the first child. -/
theorem mapping_up (hp : 0 < p.toNat) (hk : q.toNat = p.toNat * k) (hj : j < q) :
    (rescaleParentMapping p q j).ok = true ∧
      (rescaleParentMapping p q j).parentIdx.toNat = j.toNat / k ∧
      (rescaleParentMapping p q j).parentCount.toNat = 1 ∧
      (rescaleParentMapping p q j).succeedsFirst.toNat = j.toNat / k ∧
      (rescaleParentMapping p q j).succeedsCount.toNat =
        if j.toNat % k = 0 then 1 else 0 := by
  have hjq : j.toNat < q.toNat := UInt32.lt_iff_toNat_lt.mp hj
  have hp0 : p ≠ 0 := by rintro rfl; simp at hp
  have hq0 : q ≠ 0 := by rintro rfl; simp at hjq
  have hnot : ¬ j ≥ q := by rw [ge_iff_le, UInt32.le_iff_toNat_le]; omega
  have hquot : q.toNat / p.toNat = k := by rw [hk, Nat.mul_div_cancel_left _ hp]
  by_cases heq : q = p
  · subst heq
    have hk1 : k = 1 := Nat.eq_of_mul_eq_mul_left hp (by omega)
    simp [rescaleParentMapping, hp0, hnot, hk1, Nat.mod_one]
  · have hne : q.toNat ≠ p.toNat := fun h => heq (UInt32.toNat_inj.mp h)
    have hge : p.toNat ≤ q.toNat := by
      rcases Nat.eq_zero_or_pos k with rfl | hkpos
      · omega
      · rw [hk]; exact Nat.le_mul_of_pos_right _ hkpos
    have hgt : q > p := UInt32.lt_iff_toNat_lt.mpr (by omega)
    have hmod : q % p = 0 := by
      apply UInt32.toNat_inj.mp
      rw [UInt32.toNat_mod, hk, Nat.mul_mod_right, UInt32.toNat_zero]
    have hfirst : j % (q / p) = 0 ↔ j.toNat % k = 0 := by
      rw [← UInt32.toNat_inj, UInt32.toNat_mod, UInt32.toNat_div, hquot,
        UInt32.toNat_zero]
    simp only [rescaleParentMapping, hp0, hq0, hnot, heq, hgt, hmod, hfirst, or_self,
      if_false, if_true, ne_eq, not_true_eq_false, UInt32.toNat_div, hquot,
      UInt32.toNat_one, true_and]
    split <;> rfl

/-- Scaling down by `k`: new subtask `j` absorbs, and succeeds, the run of
`k` parents from `j * k`. -/
theorem mapping_down (hk1 : 1 < k) (hk : p.toNat = q.toNat * k) (hj : j < q) :
    (rescaleParentMapping p q j).ok = true ∧
      (rescaleParentMapping p q j).parentIdx.toNat = j.toNat * k ∧
      (rescaleParentMapping p q j).parentCount.toNat = k ∧
      (rescaleParentMapping p q j).succeedsFirst.toNat = j.toNat * k ∧
      (rescaleParentMapping p q j).succeedsCount.toNat = k := by
  have hjq : j.toNat < q.toNat := UInt32.lt_iff_toNat_lt.mp hj
  have hq : 0 < q.toNat := by omega
  have hlt : q.toNat < p.toNat := by
    rw [hk]; exact (Nat.lt_mul_iff_one_lt_right hq).mpr hk1
  have hp0 : p ≠ 0 := by rintro rfl; simp at hlt
  have hq0 : q ≠ 0 := by rintro rfl; simp at hq
  have hnot : ¬ j ≥ q := by rw [ge_iff_le, UInt32.le_iff_toNat_le]; omega
  have heq : q ≠ p := by rintro rfl; omega
  have hngt : ¬ q > p := by rw [gt_iff_lt, UInt32.lt_iff_toNat_lt]; omega
  have hmod : p % q = 0 := by
    apply UInt32.toNat_inj.mp
    rw [UInt32.toNat_mod, hk, Nat.mul_mod_right, UInt32.toNat_zero]
  have hquot : p.toNat / q.toNat = k := by rw [hk, Nat.mul_div_cancel_left _ hq]
  have hprod : j.toNat * k < 2 ^ 32 := by
    have h1 : j.toNat * k < q.toNat * k := Nat.mul_lt_mul_of_pos_right hjq (by omega)
    have h2 : p.toNat < 2 ^ 32 := p.toNat_lt
    omega
  simp only [rescaleParentMapping, hp0, hq0, hnot, heq, hngt, hmod, or_self, if_false,
    ne_eq, not_true_eq_false, UInt32.toNat_mul, UInt32.toNat_div, hquot,
    Nat.mod_eq_of_lt hprod, and_self]

/-- What the mapping accepts: positive parallelisms, one a multiple of the
other, and an index inside the new parallelism. -/
theorem rescaleParentMapping_ok_iff (p q j : UInt32) :
    (rescaleParentMapping p q j).ok = true ↔
      p ≠ 0 ∧ q ≠ 0 ∧ j < q ∧ (q % p = 0 ∨ p % q = 0) := by
  unfold rescaleParentMapping
  split
  · rename_i h
    rcases h with rfl | rfl <;> simp
  · rename_i h
    push Not at h
    split
    · rename_i hj
      simp [h.1, h.2, UInt32.not_lt.mpr hj]
    · rename_i hj
      have hjq : j < q := UInt32.not_le.mp hj
      have hother : ∀ {a b : UInt32}, a ≠ 0 → a < b → a % b ≠ 0 := by
        intro a b ha hab hz
        have hz' := congrArg UInt32.toNat hz
        rw [UInt32.toNat_mod, UInt32.toNat_zero,
          Nat.mod_eq_of_lt (UInt32.lt_iff_toNat_lt.mp hab)] at hz'
        exact ha (UInt32.toNat_inj.mp hz')
      split
      · rename_i heq
        subst heq
        simp [h.1, hjq]
      · rename_i hne
        split
        · rename_i hgt
          have hpq := hother h.1 hgt
          split <;> rename_i hmod <;> simp_all
        · rename_i hngt
          have hle : q.toNat ≤ p.toNat := UInt32.le_iff_toNat_le.mp (UInt32.not_lt.mp hngt)
          have hne' : q.toNat ≠ p.toNat := fun he => hne (UInt32.toNat_inj.mp he)
          have hlt : q < p := UInt32.lt_iff_toNat_lt.mpr (by omega)
          have hqp := hother h.2 hlt
          split <;> rename_i hmod <;> simp_all

/-! ## Coverage of key groups and of prepared transactions -/

theorem exists_subtask {n : Nat} (h : n < q.toNat) : ∃ j < q, j.toNat = n := by
  have hcast : (UInt32.ofNat n).toNat = n :=
    UInt32.toNat_ofNat_of_lt' (Nat.lt_trans h q.toNat_lt)
  refine ⟨UInt32.ofNat n, UInt32.lt_iff_toNat_lt.mpr ?_, hcast⟩
  rwa [hcast]

theorem covered_up (hp : 0 < p.toNat) (hk : q.toNat = p.toNat * k) (hj : j < q) {g : KeyGroup}
    (hg : Owns j q g) : ∃ i < p, RestoresFrom (rescaleParentMapping p q j) i ∧ Owns i p g := by
  obtain ⟨-, hidx, hcount, -, -⟩ := mapping_up hp hk hj
  have hjq : j.toNat < p.toNat * k := hk ▸ UInt32.lt_iff_toNat_lt.mp hj
  have hkpos : 0 < k := Nat.pos_of_ne_zero fun h => by simp [h] at hjq
  have hparent : j.toNat / k < p.toNat := Nat.div_lt_of_lt_mul (by rwa [Nat.mul_comm])
  refine ⟨(rescaleParentMapping p q j).parentIdx, ?_, ?_, ?_⟩
  · rw [UInt32.lt_iff_toNat_lt, hidx]
    exact hparent
  · exact ⟨Nat.le_refl _, by omega⟩
  · rw [owns_iff_inSlice (UInt32.lt_iff_toNat_lt.mpr (hidx ▸ hparent)), hidx]
    rw [owns_iff_inSlice hj, hk] at hg
    exact inSlice_coarse hp hkpos hg

/-- Scaling down, each group of the new subtask is a group of one of the
parents it absorbs. -/
theorem covered_down (hk1 : 1 < k) (hk : p.toNat = q.toNat * k) (hj : j < q) {g : KeyGroup}
    (hg : Owns j q g) : ∃ i < p, RestoresFrom (rescaleParentMapping p q j) i ∧ Owns i p g := by
  obtain ⟨-, hidx, hcount, -, -⟩ := mapping_down hk1 hk hj
  have hjq : j.toNat < q.toNat := UInt32.lt_iff_toNat_lt.mp hj
  rw [owns_iff_inSlice hj] at hg
  obtain ⟨i, hlo, hhi, hin⟩ :=
    exists_fine_of_inSlice (by omega) (show 0 < k by omega) (by decide) hg
  have hip : i < p.toNat := by
    have h1 : (j.toNat + 1) * k ≤ q.toNat * k := Nat.mul_le_mul_right k hjq
    rw [Nat.add_mul] at h1
    omega
  obtain ⟨i', hlt, hcast⟩ := exists_subtask hip
  refine ⟨i', hlt, ?_, ?_⟩
  · rw [RestoresFrom, hidx, hcount, hcast]
    exact ⟨hlo, hhi⟩
  · rw [owns_iff_inSlice hlt, hcast, hk]
    exact hin

variable {i : UInt32}

/-- Scaling up, the successor of old subtask `i` is its first child. -/
theorem succeeds_up (hp : 0 < p.toNat) (hk : q.toNat = p.toNat * k) (hkpos : 0 < k) (hi : i < p) :
    ∃! j, j < q ∧ Succeeds (rescaleParentMapping p q j) i := by
  have hip : i.toNat < p.toNat := UInt32.lt_iff_toNat_lt.mp hi
  have hchild : i.toNat * k < q.toNat := by
    rw [hk]; exact Nat.mul_lt_mul_of_pos_right hip hkpos
  obtain ⟨child, hlt, hcast⟩ := exists_subtask hchild
  refine ⟨child, ⟨hlt, ?_⟩, ?_⟩
  · obtain ⟨-, -, -, hfirst, hcount⟩ := mapping_up hp hk hlt
    rw [hcast, Nat.mul_div_cancel _ hkpos] at hfirst
    rw [hcast, Nat.mul_mod_left, if_pos rfl] at hcount
    rw [Succeeds, hfirst, hcount]
    omega
  · rintro j ⟨hj, hs⟩
    obtain ⟨-, -, -, hfirst, hcount⟩ := mapping_up hp hk hj
    rw [Succeeds, hfirst, hcount] at hs
    apply UInt32.toNat_inj.mp
    rw [hcast]
    have hdm := Nat.div_add_mod j.toNat k
    split at hs
    · rename_i hz
      have hq : j.toNat / k = i.toNat := by omega
      rw [← hq, Nat.mul_comm]
      omega
    · omega

/-- Scaling down, the successor of old subtask `i` is the one that absorbs
it. -/
theorem succeeds_down (hk1 : 1 < k) (hk : p.toNat = q.toNat * k) (hi : i < p) :
    ∃! j, j < q ∧ Succeeds (rescaleParentMapping p q j) i := by
  have hip : i.toNat < q.toNat * k := hk ▸ UInt32.lt_iff_toNat_lt.mp hi
  have hchild : i.toNat / k < q.toNat := Nat.div_lt_of_lt_mul (by rwa [Nat.mul_comm])
  obtain ⟨heir, hlt, hcast⟩ := exists_subtask hchild
  refine ⟨heir, ⟨hlt, ?_⟩, ?_⟩
  · obtain ⟨-, -, -, hfirst, hcount⟩ := mapping_down hk1 hk hlt
    rw [Succeeds, hfirst, hcount, hcast]
    exact ⟨Nat.div_mul_le_self _ _, Nat.lt_div_mul_add (by omega)⟩
  · rintro j ⟨hj, hs⟩
    obtain ⟨-, -, -, hfirst, hcount⟩ := mapping_down hk1 hk hj
    rw [Succeeds, hfirst, hcount] at hs
    apply UInt32.toNat_inj.mp
    rw [hcast]
    refine (Nat.div_eq_of_lt_le hs.1 ?_).symm
    rw [Nat.add_mul]
    omega

/-- An integer factor between two parallelisms goes up, or down by more than
one. -/
theorem factor_cases (hp : 0 < p.toNat) (hq : 0 < q.toNat) (hfactor : q % p = 0 ∨ p % q = 0) :
    (∃ k, 0 < k ∧ q.toNat = p.toNat * k) ∨ ∃ k, 1 < k ∧ p.toNat = q.toNat * k := by
  by_cases hup : q % p = 0
  · obtain ⟨k, hk⟩ : p.toNat ∣ q.toNat :=
      Nat.dvd_of_mod_eq_zero (by rw [← UInt32.toNat_mod, hup, UInt32.toNat_zero])
    exact Or.inl ⟨k, Nat.pos_of_ne_zero fun h => by simp [hk, h] at hq, hk⟩
  · obtain ⟨k, hk⟩ : q.toNat ∣ p.toNat :=
      Nat.dvd_of_mod_eq_zero
        (by rw [← UInt32.toNat_mod, hfactor.resolve_left hup, UInt32.toNat_zero])
    refine Or.inr ⟨k, ?_, hk⟩
    -- The factor is above one: at factor one the other remainder vanishes too.
    rcases Nat.lt_or_ge 1 k with h | h
    · exact h
    · exfalso
      have hkeq : k = 1 := by
        have : k ≠ 0 := fun h0 => by simp [hk, h0] at hp
        omega
      have hpq : q = p := UInt32.toNat_inj.mp (by rw [hk, hkeq, Nat.mul_one])
      exact hup (by rw [hpq]; exact UInt32.mod_self)

theorem existsUnique_successor (hp : 0 < p.toNat) (hq : 0 < q.toNat)
    (hfactor : q % p = 0 ∨ p % q = 0) (hi : i < p) :
    ∃! j, j < q ∧ Succeeds (rescaleParentMapping p q j) i := by
  rcases factor_cases hp hq hfactor with ⟨k, hkpos, hk⟩ | ⟨k, hk1, hk⟩
  · exact succeeds_up hp hk hkpos hi
  · exact succeeds_down hk1 hk hi

/-- A succession starts inside the old parallelism. -/
theorem succeedsFirst_lt (hp : 0 < p.toNat) (hq : 0 < q.toNat) (hfactor : q % p = 0 ∨ p % q = 0)
    (hj : j < q) : (rescaleParentMapping p q j).succeedsFirst.toNat < p.toNat := by
  have hjq : j.toNat < q.toNat := UInt32.lt_iff_toNat_lt.mp hj
  rcases factor_cases hp hq hfactor with ⟨k, hkpos, hk⟩ | ⟨k, hk1, hk⟩
  · obtain ⟨-, -, -, hfirst, -⟩ := mapping_up hp hk hj
    rw [hfirst]
    exact Nat.div_lt_of_lt_mul (by rwa [Nat.mul_comm, ← hk])
  · obtain ⟨-, -, -, hfirst, -⟩ := mapping_down hk1 hk hj
    rw [hfirst, hk]
    exact Nat.mul_lt_mul_of_pos_right hjq (by omega)

/-- A rescale by an integer factor redistributes everything exactly once:
every new subtask's key groups are held by the parents it restores from, and
every old subtask has exactly one successor. -/
theorem rescale_covers_groups_and_succeeds_once (p q : UInt32) (hp : 0 < p) (hq : 0 < q)
    (hfactor : q % p = 0 ∨ p % q = 0) :
    (∀ j < q, (rescaleParentMapping p q j).ok = true ∧
      ∀ g, Owns j q g → ∃ i < p, RestoresFrom (rescaleParentMapping p q j) i ∧ Owns i p g) ∧
    ∀ i < p, ∃! j, j < q ∧ Succeeds (rescaleParentMapping p q j) i := by
  have hpn : 0 < p.toNat := UInt32.lt_iff_toNat_lt.mp hp
  have hqn : 0 < q.toNat := UInt32.lt_iff_toNat_lt.mp hq
  refine ⟨?_, fun i hi => existsUnique_successor hpn hqn hfactor hi⟩
  intro j hj
  rcases factor_cases hpn hqn hfactor with ⟨k, hkpos, hk⟩ | ⟨k, hk1, hk⟩
  · exact ⟨(mapping_up hpn hk hj).1, fun g hg => covered_up hpn hk hj hg⟩
  · exact ⟨(mapping_down hk1 hk hj).1, fun g hg => covered_down hk1 hk hj hg⟩

/-- From three subtasks to six: group 64 of child 3 is held by parent 1. -/
theorem rescale_three_to_six :
    (0 : UInt32) < 3 ∧ Owns 3 6 64 ∧
      ∃ i < (3 : UInt32), RestoresFrom (rescaleParentMapping 3 6 3) i ∧ Owns i 3 64 :=
  ⟨by decide, by decide,
    ((rescale_covers_groups_and_succeeds_once 3 6 (by decide) (by decide) (by decide)).1 3
      (by decide)).2 64 (by decide)⟩

end Clink.Ports.RescaleDispatch

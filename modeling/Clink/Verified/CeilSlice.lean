import Mathlib.Algebra.Order.Floor.Div
import Mathlib.Tactic.Ring

/-!
# Slicing a row of cells over owners with ceiling division

`total` cells are dealt to `parts` owners in contiguous slices: owner `i`
holds the cells from `⌈i·total / parts⌉` up to, but not including,
`⌈(i+1)·total / parts⌉`.  Everything about these slices follows from one
cross-multiplied form of membership, `mem_slice_iff`, which never mentions a
quotient: slices at two owner counts can then be compared by scaling.
-/

namespace Clink.Verified.CeilSlice

/-- First cell of owner `i`: the ceiling of `i * total / parts`. -/
def sliceStart (total parts i : Nat) : Nat := (i * total + parts - 1) / parts

/-- Cell `g` belongs to the slice of owner `i`. -/
def InSlice (total parts i g : Nat) : Prop :=
  sliceStart total parts i ≤ g ∧ g < sliceStart total parts (i + 1)

theorem sliceStart_eq_ceilDiv (total parts i : Nat) :
    sliceStart total parts i = i * total ⌈/⌉ parts := by
  rw [sliceStart, Nat.ceilDiv_eq_add_pred_div]

variable {total parts i g : Nat}

/-- The ceiling is the least cell whose scaled index reaches `i * total`. -/
theorem sliceStart_le_iff (hparts : 0 < parts) :
    sliceStart total parts i ≤ g ↔ i * total ≤ g * parts := by
  rw [sliceStart_eq_ceilDiv, ceilDiv_le_iff_le_mul hparts, Nat.mul_comm parts g]

theorem inSlice_iff (hparts : 0 < parts) :
    InSlice total parts i g ↔
      i * total ≤ g * parts ∧ g * parts < (i + 1) * total := by
  rw [InSlice, sliceStart_le_iff hparts]
  constructor
  · rintro ⟨hlo, hhi⟩
    refine ⟨hlo, Nat.lt_of_not_le fun hle => ?_⟩
    have := (sliceStart_le_iff hparts).mpr hle
    omega
  · rintro ⟨hlo, hhi⟩
    refine ⟨hlo, Nat.lt_of_not_le fun hle => ?_⟩
    have := (sliceStart_le_iff hparts).mp hle
    omega

/-- Multiplying the owner count by `k` refines every slice: the fine owner
`j` lies inside the coarse owner `j / k`. -/
theorem inSlice_coarse {k j : Nat} (hparts : 0 < parts) (hk : 0 < k)
    (h : InSlice total (parts * k) j g) : InSlice total parts (j / k) g := by
  obtain ⟨hlo, hhi⟩ := (inSlice_iff (Nat.mul_pos hparts hk)).mp h
  have hfloor : j / k * k ≤ j := Nat.div_mul_le_self j k
  have hceil : j + 1 ≤ (j / k + 1) * k := by
    have := Nat.lt_div_mul_add (a := j) hk
    rw [Nat.add_mul]
    omega
  refine (inSlice_iff hparts).mpr ⟨?_, ?_⟩
  · refine Nat.le_of_mul_le_mul_right ?_ hk
    calc j / k * total * k = j / k * k * total := by ring
      _ ≤ j * total := Nat.mul_le_mul_right total hfloor
      _ ≤ g * (parts * k) := hlo
      _ = g * parts * k := by ring
  · refine Nat.lt_of_mul_lt_mul_right (a := k) ?_
    calc g * parts * k = g * (parts * k) := by ring
      _ < (j + 1) * total := hhi
      _ ≤ (j / k + 1) * k * total := Nat.mul_le_mul_right total hceil
      _ = (j / k + 1) * total * k := by ring

/-- Conversely a cell of the coarse owner `i` is held by one of the `k` fine
owners `i * k, …, i * k + k - 1`. -/
theorem exists_fine_of_inSlice {k : Nat} (hparts : 0 < parts) (hk : 0 < k) (htotal : 0 < total)
    (h : InSlice total parts i g) :
    ∃ j, i * k ≤ j ∧ j < i * k + k ∧ InSlice total (parts * k) j g := by
  obtain ⟨hlo, hhi⟩ := (inSlice_iff hparts).mp h
  -- The fine owner is the quotient the scaled index lands on.
  refine ⟨g * (parts * k) / total, ?_, ?_, ?_⟩
  · rw [Nat.le_div_iff_mul_le htotal]
    calc i * k * total = i * total * k := by ring
      _ ≤ g * parts * k := Nat.mul_le_mul_right k hlo
      _ = g * (parts * k) := by ring
  · rw [Nat.div_lt_iff_lt_mul htotal]
    calc g * (parts * k) = g * parts * k := by ring
      _ < (i + 1) * total * k := Nat.mul_lt_mul_of_pos_right hhi hk
      _ = (i * k + k) * total := by ring
  · refine (inSlice_iff (Nat.mul_pos hparts hk)).mpr ⟨Nat.div_mul_le_self _ _, ?_⟩
    have := Nat.lt_div_mul_add (a := g * (parts * k)) htotal
    rw [Nat.add_mul]
    omega

end Clink.Verified.CeilSlice

/-- What one owner alone answers is what all of them answer together. -/
theorem Clink.Verified.flatMap_eq_of_unique {α β : Type} {l : List α} (hnodup : l.Nodup)
    {f : α → List β} {a : α} (ha : a ∈ l) (hothers : ∀ b ∈ l, b ≠ a → f b = []) :
    l.flatMap f = f a := by
  obtain ⟨before, after, rfl⟩ := List.append_of_mem ha
  have hnot := (List.nodup_cons.mp (List.nodup_middle.mp hnodup)).1
  have hnone : ∀ b ∈ before ++ after, f b = [] := by
    intro b hb
    refine hothers b ?_ fun heq => hnot (heq ▸ hb)
    exact List.perm_middle.mem_iff.mpr (List.mem_cons_of_mem a hb)
  obtain ⟨hbefore, hafter⟩ := List.append_eq_nil_iff.mp
    (List.flatMap_append ▸ List.flatMap_eq_nil_iff.mpr hnone)
  rw [List.flatMap_append, List.flatMap_cons, hbefore, hafter, List.nil_append, List.append_nil]

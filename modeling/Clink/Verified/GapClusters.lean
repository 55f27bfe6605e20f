import Mathlib.Data.List.Sort
import Mathlib.Data.List.SplitBy

/-!
# Times clustered by a gap

The clusters of a list of times are the longest runs of the sorted list whose
neighbours are at most `gap` apart.  Incrementally they are groups of times in
any order: a group is `Linked` when every cut through it has two times of the
group across it that are at most `gap` apart, and different groups are `Apart`.
Such groups are the clusters (`Clusters.splitBy`), and a new time joins all the
groups it is near to into one (`Clusters.absorb`).
-/

namespace Clink.Verified

variable {gap t : Int} {g h : List Int} {groups before near after : List (List Int)}

/-- The times in order. -/
def sortTimes (times : List Int) : List Int := times.mergeSort fun a b => decide (a ≤ b)

/-- The longest runs of neighbours at most `gap` apart. -/
def clusters (gap : Int) (times : List Int) : List (List Int) :=
  (sortTimes times).splitBy fun a b => decide (b ≤ a + gap)

/-- Every cut has two times across it that are at most `gap` apart. -/
def Linked (gap : Int) (g : List Int) : Prop :=
  ∀ cut, (∃ a ∈ g, a ≤ cut) → (∃ b ∈ g, cut < b) →
    ∃ a ∈ g, ∃ b ∈ g, a ≤ cut ∧ cut < b ∧ b ≤ a + gap

/-- All of one group is more than `gap` before all of the other. -/
def Apart (gap : Int) (g h : List Int) : Prop := ∀ a ∈ g, ∀ b ∈ h, a + gap < b

structure Clusters (gap : Int) (groups : List (List Int)) : Prop where
  nonempty : ∀ g ∈ groups, g ≠ []
  linked : ∀ g ∈ groups, Linked gap g
  apart : groups.Pairwise (Apart gap)

theorem Clusters.nil : Clusters gap [] := ⟨by simp, by simp, .nil⟩

/-! ## A time that joins groups -/

theorem Linked.absorb (hlinked : ∀ g ∈ near, Linked gap g)
    (hnear : ∀ g ∈ near, (∃ a ∈ g, t ≤ a + gap) ∧ ∃ b ∈ g, b ≤ t + gap) :
    Linked gap (t :: near.flatten) := by
  intro cut hleft hright
  have hin : ∀ g ∈ near, ∀ a ∈ g, a ∈ t :: near.flatten := by
    intro g hg a ha
    exact List.mem_cons_of_mem _ (List.mem_flatten.mpr ⟨g, hg, ha⟩)
  -- A group the cut goes through has its own pair.
  have hthrough : ∀ g ∈ near, (∃ a ∈ g, a ≤ cut) → (∃ b ∈ g, cut < b) →
      ∃ a ∈ t :: near.flatten, ∃ b ∈ t :: near.flatten, a ≤ cut ∧ cut < b ∧ b ≤ a + gap := by
    intro g hg hl hr
    obtain ⟨a, ha, b, hb, hpair⟩ := hlinked g hg cut hl hr
    exact ⟨a, hin g hg a ha, b, hin g hg b hb, hpair⟩
  by_cases ht : t ≤ cut
  · obtain ⟨b, hb, hcut⟩ := hright
    rcases List.mem_cons.mp hb with rfl | hb
    · omega
    obtain ⟨g, hg, hb⟩ := List.mem_flatten.mp hb
    by_cases hl : ∃ a ∈ g, a ≤ cut
    · exact hthrough g hg hl ⟨b, hb, hcut⟩
    · obtain ⟨-, c, hc, hclose⟩ := hnear g hg
      have hright : cut < c := by
        by_contra hle
        exact hl ⟨c, hc, by omega⟩
      exact ⟨t, List.mem_cons_self, c, hin g hg c hc, ht, hright, hclose⟩
  · obtain ⟨a, ha, hcut⟩ := hleft
    rcases List.mem_cons.mp ha with rfl | ha
    · omega
    obtain ⟨g, hg, ha⟩ := List.mem_flatten.mp ha
    by_cases hr : ∃ b ∈ g, cut < b
    · exact hthrough g hg ⟨a, ha, hcut⟩ hr
    · obtain ⟨⟨c, hc, hclose⟩, -⟩ := hnear g hg
      have hleft : c ≤ cut := by
        by_contra hlt
        exact hr ⟨c, hc, by omega⟩
      exact ⟨c, hin g hg c hc, t, List.mem_cons_self, hleft, by omega, hclose⟩

/-- The groups near a new time become one with it; the others are apart from it. -/
theorem Clusters.absorb (h : Clusters gap (before ++ (near ++ after)))
    (hbefore : ∀ g ∈ before, ∀ a ∈ g, a + gap < t)
    (hnear : ∀ g ∈ near, (∃ a ∈ g, t ≤ a + gap) ∧ ∃ b ∈ g, b ≤ t + gap)
    (hafter : ∀ g ∈ after, ∀ b ∈ g, t + gap < b) :
    Clusters gap (before ++ (t :: near.flatten) :: after) := by
  obtain ⟨hpre, hrest, hacross⟩ := List.pairwise_append.mp h.apart
  obtain ⟨-, hpost, hacross'⟩ := List.pairwise_append.mp hrest
  have hmem : ∀ g, g ∈ before ++ (t :: near.flatten) :: after →
      g ∈ before ++ (near ++ after) ∨ g = t :: near.flatten := by
    intro g hg
    rcases List.mem_append.mp hg with hg | hg
    · exact .inl (List.mem_append_left _ hg)
    · rcases List.mem_cons.mp hg with hg | hg
      · exact .inr hg
      · exact .inl (List.mem_append_right _ (List.mem_append_right _ hg))
  constructor
  · intro g hg
    rcases hmem g hg with hg | rfl
    · exact h.nonempty g hg
    · simp
  · intro g hg
    rcases hmem g hg with hg | rfl
    · exact h.linked g hg
    · refine Linked.absorb (fun g hg => h.linked g ?_) hnear
      exact List.mem_append_right _ (List.mem_append_left _ hg)
  · refine List.pairwise_append.mpr ⟨hpre, List.pairwise_cons.mpr ⟨?_, hpost⟩, ?_⟩
    · intro g hg a ha b hb
      rcases List.mem_cons.mp ha with rfl | ha
      · exact hafter g hg b hb
      · obtain ⟨k, hk, ha⟩ := List.mem_flatten.mp ha
        exact hacross' k hk g hg a ha b hb
    · intro g hg k hk a ha b hb
      rcases List.mem_cons.mp hk with rfl | hk
      · rcases List.mem_cons.mp hb with rfl | hb
        · exact hbefore g hg a ha
        · obtain ⟨k, hk, hb⟩ := List.mem_flatten.mp hb
          exact hacross g hg k (List.mem_append_left _ hk) a ha b hb
      · exact hacross g hg k (List.mem_append_right _ hk) a ha b hb

/-! ## Groups and runs of the sorted times -/

theorem sortTimes_perm (times : List Int) : (sortTimes times).Perm times :=
  List.mergeSort_perm times _

theorem sortTimes_sorted (times : List Int) : (sortTimes times).Pairwise (· ≤ ·) := by
  have hsorted : (sortTimes times).Pairwise fun a b => decide (a ≤ b) = true := by
    refine List.pairwise_mergeSort ?_ ?_ times
    · intro a b c hab hbc
      exact decide_eq_true (le_trans (of_decide_eq_true hab) (of_decide_eq_true hbc))
    · intro a b
      simpa using le_total a b
  exact hsorted.imp fun h => of_decide_eq_true h

theorem mem_sortTimes {times : List Int} : t ∈ sortTimes times ↔ t ∈ times :=
  (sortTimes_perm times).mem_iff

theorem sortTimes_eq_of_perm {times times' : List Int} (h : times.Perm times') :
    sortTimes times = sortTimes times' := by
  have hperm := (sortTimes_perm times).trans (h.trans (sortTimes_perm times').symm)
  exact hperm.eq_of_pairwise' (sortTimes_sorted times) (sortTimes_sorted times')

theorem clusters_eq_of_perm {times times' : List Int} (h : times.Perm times') :
    clusters gap times = clusters gap times' := by
  unfold clusters
  rw [sortTimes_eq_of_perm h]

/-- In a linked group the sorted neighbours are at most `gap` apart. -/
theorem Linked.isChain (hgap : 0 ≤ gap) (h : Linked gap g) (hsorted : g.Pairwise (· ≤ ·)) :
    g.IsChain fun a b => decide (b ≤ a + gap) = true := by
  rw [List.isChain_iff_forall_rel_of_append_cons_cons]
  intro x y l₁ l₂ hg
  refine decide_eq_true ?_
  by_contra hfar
  push Not at hfar
  rw [hg] at hsorted
  obtain ⟨-, hrest, hacross⟩ := List.pairwise_append.mp hsorted
  obtain ⟨-, hlater⟩ := List.pairwise_cons.mp hrest
  -- The pair across the cut at `x` is at least as far apart as `x` and `y`.
  obtain ⟨a, -, b, hb, hleft, hright, hclose⟩ := h x ⟨x, by simp [hg], le_refl x⟩
    ⟨y, by simp [hg], by omega⟩
  have hnext : y ≤ b := by
    rw [hg] at hb
    rcases List.mem_append.mp hb with hb | hb
    · have := hacross b hb x List.mem_cons_self
      omega
    · rcases List.mem_cons.mp hb with rfl | hb
      · omega
      · rcases List.mem_cons.mp hb with rfl | hb
        · exact le_refl _
        · exact (List.pairwise_cons.mp hlater).1 b hb
  omega

theorem flatten_sorted (hgap : 0 ≤ gap) (h : groups.Pairwise (Apart gap)) :
    (groups.map sortTimes).flatten.Pairwise (· ≤ ·) := by
  refine List.pairwise_flatten.mpr ⟨?_, ?_⟩
  · intro g hg
    obtain ⟨k, -, rfl⟩ := List.mem_map.mp hg
    exact sortTimes_sorted k
  · refine List.pairwise_map.mpr (h.imp ?_)
    intro g k happart a ha b hb
    have := happart a (mem_sortTimes.mp ha) b (mem_sortTimes.mp hb)
    omega

private theorem flatten_map_sort_perm (groups : List (List Int)) :
    (groups.map sortTimes).flatten.Perm groups.flatten := by
  induction groups with
  | nil => exact .refl _
  | cons g groups ih => exact (sortTimes_perm g).append ih

theorem Clusters.splitBy (h : Clusters gap groups) (hgap : 0 ≤ gap) :
    clusters gap groups.flatten = groups.map sortTimes := by
  have hsort : sortTimes groups.flatten = (groups.map sortTimes).flatten := by
    have hperm := (sortTimes_perm _).trans (flatten_map_sort_perm groups).symm
    exact hperm.eq_of_pairwise' (sortTimes_sorted _) (flatten_sorted hgap h.apart)
  have hne : ∀ g ∈ groups, sortTimes g ≠ [] := by
    intro g hg hnil
    have hperm := sortTimes_perm g
    rw [hnil] at hperm
    exact h.nonempty g hg hperm.symm.eq_nil
  unfold clusters
  rw [hsort]
  refine List.splitBy_flatten ?_ ?_ ?_
  · intro hmem
    obtain ⟨g, hg, hnil⟩ := List.mem_map.mp hmem
    exact hne g hg hnil
  · intro m hm
    obtain ⟨g, hg, rfl⟩ := List.mem_map.mp hm
    have hlinked : Linked gap (sortTimes g) := by
      intro cut hl hr
      simp only [mem_sortTimes] at hl hr ⊢
      exact h.linked g hg cut hl hr
    exact hlinked.isChain hgap (sortTimes_sorted g)
  · refine List.Pairwise.isChain ?_
    refine List.pairwise_map.mpr ?_
    refine (List.Pairwise.and_mem.mp h.apart).imp ?_
    rintro g k ⟨hg, hk, happart⟩
    refine ⟨hne g hg, hne k hk, ?_⟩
    have := happart _ (mem_sortTimes.mp (List.getLast_mem (hne g hg))) _
      (mem_sortTimes.mp (List.head_mem (hne k hk)))
    exact decide_eq_false (by omega)

end Clink.Verified

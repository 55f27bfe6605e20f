import Mathlib.Data.Finset.Max
import Mathlib.Data.Prod.Lex

/-!
# Ranks by a key

Members of a multiset ranked by a linearly ordered key, best first: `rank`
counts the members that come before, `denseRank` the distinct keys that do.

What a rank of either kind needs of the members (`Ranking`) is enough to keep
only the top: a member that fell out can never come back, so the top of a
growing multiset is the top of its old top and the newcomer (`Ranking.top_cons`).
On a list sorted by the key the top is a beginning of the list
(`Ranking.filter_eq_takeWhile`).
-/

namespace Clink.Verified

variable {α κ : Type*} [LinearOrder κ] {key : α → κ}

/-- One more than the members that come before. -/
def rank (key : α → κ) (m : Multiset α) (x : α) : Nat :=
  m.countP (fun y => key y < key x) + 1

/-- One more than the distinct keys that come before. -/
def denseRank (key : α → κ) (m : Multiset α) (x : α) : Nat :=
  ((m.map key).filter (· < key x)).toFinset.card + 1

/-- A rank that grows with the members and the key, and looks only at the
members that come before. -/
structure Ranking (key : α → κ) (r : Multiset α → α → Nat) : Prop where
  grows : ∀ {s t : Multiset α}, s ≤ t → ∀ x, r s x ≤ r t x
  local_before : ∀ {s t : Multiset α} {x : α},
    s.filter (fun y => key y < key x) = t.filter (fun y => key y < key x) → r s x = r t x
  follows : ∀ (m : Multiset α) {x y : α}, key x ≤ key y → r m x ≤ r m y

theorem ranking_rank (key : α → κ) : Ranking key (rank key) where
  grows h x := Nat.add_le_add_right (Multiset.countP_le_of_le _ h) 1
  local_before h := by
    unfold rank
    rw [Multiset.countP_eq_card_filter, h, ← Multiset.countP_eq_card_filter]
  follows m x y h := by
    unfold rank
    rw [Multiset.countP_eq_card_filter, Multiset.countP_eq_card_filter]
    have hle : m.filter (fun z => key z < key x) ≤ m.filter fun z => key z < key y :=
      Multiset.monotone_filter_right m fun z hz => lt_of_lt_of_le hz h
    exact Nat.add_le_add_right (Multiset.card_le_card hle) 1

theorem ranking_denseRank (key : α → κ) : Ranking key (denseRank key) where
  grows {s t} h x := by
    have hle : (s.map key).filter (· < key x) ≤ (t.map key).filter (· < key x) :=
      Multiset.filter_le_filter _ (Multiset.map_le_map h)
    have hsub := Multiset.toFinset_subset.mpr (Multiset.subset_of_le hle)
    exact Nat.add_le_add_right (Finset.card_le_card hsub) 1
  local_before h := by
    unfold denseRank
    rw [Multiset.filter_map, Multiset.filter_map]
    exact congrArg (fun m => (Multiset.map key m).toFinset.card + 1) h
  follows m x y h := by
    have hle : (m.map key).filter (· < key x) ≤ (m.map key).filter (· < key y) :=
      Multiset.monotone_filter_right _ fun z hz => lt_of_lt_of_le hz h
    have hsub := Multiset.toFinset_subset.mpr (Multiset.subset_of_le hle)
    exact Nat.add_le_add_right (Finset.card_le_card hsub) 1

/-- The members of rank at most `n`. -/
def top (r : Multiset α → α → Nat) (n : Nat) (m : Multiset α) : Multiset α :=
  m.filter fun x => r m x ≤ n

namespace Ranking

variable {r : Multiset α → α → Nat} {n : Nat}

theorem refine {κ' : Type*} [LinearOrder κ'] {key' : α → κ'} (h : Ranking key r)
    (hfine : ∀ x y, key x < key y → key' x < key' y) : Ranking key' r where
  grows := h.grows
  local_before {s t x} heq := by
    have hcoarse : ∀ m : Multiset α, (m.filter fun y => key' y < key' x).filter
        (fun y => key y < key x) = m.filter fun y => key y < key x := by
      intro m
      rw [Multiset.filter_filter]
      apply Multiset.filter_congr
      intro y _
      exact and_iff_left_of_imp (hfine y x)
    apply h.local_before
    rw [← hcoarse s, ← hcoarse t, heq]
  follows m x y hle := by
    apply h.follows m
    by_contra hlt
    exact absurd (hfine y x (not_le.mp hlt)) (not_lt.mpr hle)

/-- What fell out of the top is out of the way of what comes before it. -/
theorem lt_of_dropped (h : Ranking key r) {m : Multiset α} {x y : α} (hy : y ∈ m)
    (hout : n < r m y) (hxy : key y < key x) : n < r (top r n m) x := by
  classical
  -- The best of the members that fell out.
  let dropped : Finset α := (m.filter fun z => ¬ r m z ≤ n).toFinset
  have hne : dropped.Nonempty :=
    ⟨y, Multiset.mem_toFinset.mpr (Multiset.mem_filter.mpr ⟨hy, Nat.not_le.mpr hout⟩)⟩
  obtain ⟨z, hz, hleast⟩ := dropped.exists_min_image key hne
  have hzy : key z ≤ key y :=
    hleast y (Multiset.mem_toFinset.mpr (Multiset.mem_filter.mpr ⟨hy, Nat.not_le.mpr hout⟩))
  have hzout : n < r m z := Nat.not_le.mp (Multiset.mem_filter.mp (Multiset.mem_toFinset.mp hz)).2
  have hsame : (top r n m).filter (fun w => key w < key z) = m.filter fun w => key w < key z := by
    rw [top, Multiset.filter_filter]
    apply Multiset.filter_congr
    intro w hw
    rw [and_iff_left_iff_imp]
    intro hwz
    by_contra hwout
    have hzw := hleast w (Multiset.mem_toFinset.mpr (Multiset.mem_filter.mpr ⟨hw, hwout⟩))
    exact absurd (lt_of_le_of_lt hzw hwz) (lt_irrefl _)
  calc n < r m z := hzout
    _ = r (top r n m) z := (h.local_before hsame).symm
    _ ≤ r (top r n m) x := h.follows _ (hzy.trans hxy.le)

/-- The top after a newcomer is the top of the old top and the newcomer. -/
theorem top_cons (h : Ranking key r) (n : Nat) (x : α) (m : Multiset α) :
    top r n (x ::ₘ m) = top r n (x ::ₘ top r n m) := by
  have hle : top r n m ≤ m := Multiset.filter_le _ _
  have hsplit : x ::ₘ m = (x ::ₘ top r n m) + m.filter fun z => ¬ r m z ≤ n := by
    rw [Multiset.cons_add, top, Multiset.filter_add_not]
  have hrest : (m.filter fun z => ¬ r m z ≤ n).filter (fun z => r (x ::ₘ m) z ≤ n) = 0 := by
    rw [Multiset.filter_eq_nil]
    intro z hz hin
    exact (Multiset.mem_filter.mp hz).2 ((h.grows (Multiset.le_cons_self m x) z).trans hin)
  have hcongr : ∀ z, r (x ::ₘ m) z ≤ n ↔ r (x ::ₘ top r n m) z ≤ n := by
    intro z
    constructor
    · exact fun hz => (h.grows (Multiset.cons_le_cons x hle) z).trans hz
    · intro hz
      by_cases hdrop : ∃ y ∈ m, n < r m y ∧ key y < key z
      · obtain ⟨y, hy, hout, hyz⟩ := hdrop
        have hlt := h.lt_of_dropped hy hout hyz
        exact absurd (hlt.trans_le (h.grows (Multiset.le_cons_self _ x) z)) (Nat.not_lt.mpr hz)
      · have hsame : (x ::ₘ m).filter (fun w => key w < key z) =
            (x ::ₘ top r n m).filter fun w => key w < key z := by
          rw [hsplit, Multiset.filter_add]
          have hnone : (m.filter fun w => ¬ r m w ≤ n).filter (fun w => key w < key z) = 0 := by
            rw [Multiset.filter_eq_nil]
            intro w hw hwz
            obtain ⟨hwm, hwout⟩ := Multiset.mem_filter.mp hw
            exact hdrop ⟨w, hwm, Nat.not_le.mp hwout, hwz⟩
          rw [hnone, add_zero]
        rw [h.local_before hsame]
        exact hz
  have hkept : top r n (x ::ₘ m) = (x ::ₘ top r n m).filter fun z => r (x ::ₘ m) z ≤ n := by
    have hfilter := congrArg (Multiset.filter fun z => r (x ::ₘ m) z ≤ n) hsplit
    rw [Multiset.filter_add, hrest, add_zero] at hfilter
    exact hfilter
  rw [hkept]
  apply Multiset.filter_congr
  intro z _
  exact hcongr z

/-- On a sorted list the top is a beginning of the list. -/
theorem filter_eq_takeWhile (h : Ranking key r) (n : Nat) (m : Multiset α) {l : List α}
    (hsorted : l.Pairwise fun x y => key x ≤ key y) :
    l.filter (fun x => r m x ≤ n) = l.takeWhile fun x => r m x ≤ n := by
  induction l with
  | nil => rfl
  | cons x l ih =>
      obtain ⟨hfirst, hrest⟩ := List.pairwise_cons.mp hsorted
      by_cases hx : r m x ≤ n
      · rw [List.filter_cons_of_pos (by simpa using hx),
          List.takeWhile_cons_of_pos (by simpa using hx),
          ih hrest]
      · rw [List.filter_cons_of_neg (by simpa using hx),
          List.takeWhile_cons_of_neg (by simpa using hx),
          List.filter_eq_nil_iff]
        intro y hy hin
        exact hx ((h.follows m (hfirst y hy)).trans (by simpa using hin))

end Ranking

/-! ## Ranks along a sorted list -/

/-- A member all of whose predecessors come before it is ranked by its position. -/
theorem rank_eq_position {pre post : List α} {x : α} (hpre : ∀ y ∈ pre, key y < key x)
    (hpost : ∀ y ∈ post, key x ≤ key y) :
    rank key (↑(pre ++ x :: post) : Multiset α) x = pre.length + 1 := by
  have hcountPre : pre.countP (fun y => key y < key x) = pre.length := by
    rw [List.countP_eq_length]
    intro y hy
    exact decide_eq_true (hpre y hy)
  have hcountPost : post.countP (fun y => key y < key x) = 0 := by
    rw [List.countP_eq_zero]
    intro y hy
    simpa using hpost y hy
  rw [rank, Multiset.coe_countP, List.countP_append, List.countP_cons, hcountPre, hcountPost]
  simp

/-- In a list without ties the top is as long as it may be. -/
theorem takeWhile_rank {l : List α} (hsorted : l.Pairwise fun x y => key x < key y) (n : Nat) :
    (l.takeWhile fun x => rank key (↑l : Multiset α) x ≤ n) = l.take n := by
  have hgeneral : ∀ pre rest : List α, (pre ++ rest).Pairwise (fun x y => key x < key y) →
      (rest.takeWhile fun x => rank key (↑(pre ++ rest) : Multiset α) x ≤ n) =
        rest.take (n - pre.length) := by
    intro pre rest
    induction rest generalizing pre with
    | nil => simp
    | cons x rest ih =>
        intro hsorted
        obtain ⟨-, hright, hcross⟩ := List.pairwise_append.mp hsorted
        have hrank : rank key (↑(pre ++ x :: rest) : Multiset α) x = pre.length + 1 :=
          rank_eq_position (fun y hy => hcross y hy x List.mem_cons_self)
            fun y hy => ((List.pairwise_cons.mp hright).1 y hy).le
        have hsplit : pre ++ x :: rest = (pre ++ [x]) ++ rest := by simp
        by_cases hle : pre.length + 1 ≤ n
        · have hsucc : n - pre.length = (n - (pre ++ [x]).length) + 1 := by
            rw [List.length_append, List.length_singleton]
            omega
          have hrest := ih (pre ++ [x]) (by rwa [← hsplit])
          rw [← hsplit] at hrest
          rw [List.takeWhile_cons_of_pos (by simpa [hrank] using hle), hsucc,
            List.take_succ_cons, hrest]
        · have hzero : n - pre.length = 0 := by omega
          rw [List.takeWhile_cons_of_neg (by simpa [hrank] using hle), hzero, List.take_zero]
  exact hgeneral [] l hsorted

theorem denseRank_first {post : List α} {x : α} (hpost : ∀ y ∈ post, key x ≤ key y) :
    denseRank key (↑(x :: post) : Multiset α) x = 1 := by
  have hnone : ((↑(x :: post) : Multiset α).map key).filter (· < key x) = 0 := by
    rw [Multiset.filter_eq_nil]
    intro k hk
    obtain ⟨y, hy, rfl⟩ := Multiset.mem_map.mp hk
    rcases List.mem_cons.mp (Multiset.mem_coe.mp hy) with rfl | hmem
    · exact lt_irrefl _
    · exact not_lt.mpr (hpost y hmem)
  rw [denseRank, hnone]
  rfl

/-- The first member of the next group is one denser. -/
theorem denseRank_next {pre post : List α} {p x : α}
    (hsorted : (pre ++ p :: x :: post).Pairwise fun a b => key a ≤ key b) (hlt : key p < key x) :
    denseRank key (↑(pre ++ p :: x :: post) : Multiset α) x =
      denseRank key (↑(pre ++ p :: x :: post) : Multiset α) p + 1 := by
  obtain ⟨-, hright, hcross⟩ := List.pairwise_append.mp hsorted
  obtain ⟨-, hpost⟩ := List.pairwise_cons.mp hright
  have hinsert : (((↑(pre ++ p :: x :: post) : Multiset α).map key).filter (· < key x)).toFinset =
      insert (key p)
        (((↑(pre ++ p :: x :: post) : Multiset α).map key).filter (· < key p)).toFinset := by
    ext k
    rw [Finset.mem_insert, Multiset.mem_toFinset, Multiset.mem_toFinset, Multiset.mem_filter,
      Multiset.mem_filter]
    constructor
    · rintro ⟨hk, hkx⟩
      obtain ⟨y, hy, rfl⟩ := Multiset.mem_map.mp hk
      have hyp : key y ≤ key p := by
        rcases List.mem_append.mp (Multiset.mem_coe.mp hy) with hmem | hmem
        · exact hcross y hmem p List.mem_cons_self
        · rcases List.mem_cons.mp hmem with rfl | hmem
          · exact le_refl _
          · exfalso
            rcases List.mem_cons.mp hmem with rfl | hmem
            · exact lt_irrefl _ hkx
            · exact absurd hkx (not_lt.mpr ((List.pairwise_cons.mp hpost).1 y hmem))
      rcases hyp.eq_or_lt with heq | hlt'
      · exact Or.inl heq
      · exact Or.inr ⟨hk, hlt'⟩
    · rintro (rfl | ⟨hk, hkp⟩)
      · exact ⟨Multiset.mem_map_of_mem key (Multiset.mem_coe.mpr (by simp)), hlt⟩
      · exact ⟨hk, hkp.trans hlt⟩
  have hfresh : key p ∉
      (((↑(pre ++ p :: x :: post) : Multiset α).map key).filter (· < key p)).toFinset := by
    rw [Multiset.mem_toFinset, Multiset.mem_filter]
    exact fun hmem => lt_irrefl _ hmem.2
  rw [denseRank, denseRank, hinsert, Finset.card_insert_of_notMem hfresh]

end Clink.Verified

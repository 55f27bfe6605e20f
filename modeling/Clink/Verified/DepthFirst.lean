import Mathlib.Data.Finset.Card

/-!
# Depth-first walks without a visited set

A walk that keeps a stack of nodes, pops the top one and pushes its children
visits a node once for every path to it.  `preorder` lists the visits of a whole
walk; `popped` is what a walk of at most `n` pops visits.  Along a rank that
falls from a node to its children the first `n` visits are all there is to say
(`popped_eq_take`).  In a finite graph without cycles the number of a node's
ancestors is such a rank (`exists_rank`).
-/

namespace Clink.Verified.DepthFirst

variable {α : Type*} (children : α → List α)

/-- The nodes met below `a`, down to depth `d`, each before its children. -/
def preorder : Nat → α → List α
  | 0, a => [a]
  | d + 1, a => a :: (children a).flatMap (preorder d)

/-- The nodes popped by at most `n` rounds from the stack `work`, top first. -/
def popped : Nat → List α → List α
  | 0, _ => []
  | _ + 1, [] => []
  | n + 1, a :: work => a :: popped n (children a ++ work)

/-- A listed node is reached from the start along children. -/
theorem reached_of_mem_preorder {d : Nat} {a b : α} (h : b ∈ preorder children d a) :
    Relation.ReflTransGen (fun x y => y ∈ children x) a b := by
  induction d generalizing a with
  | zero =>
      rw [preorder, List.mem_singleton] at h
      rw [h]
  | succ d ih =>
      rw [preorder, List.mem_cons, List.mem_flatMap] at h
      obtain rfl | ⟨c, hc, hb⟩ := h
      · exact .refl
      · exact .head hc (ih hb)

section Ranked

variable {children} {rank : α → Nat} (hfalls : ∀ a, ∀ c ∈ children a, rank c < rank a)

include hfalls

/-- Below its rank a node's listing no longer depends on the depth. -/
theorem preorder_succ {d : Nat} {a : α} (h : rank a ≤ d) :
    preorder children (d + 1) a = preorder children d a := by
  induction d generalizing a with
  | zero =>
      have hnone : children a = [] := by
        refine List.eq_nil_iff_forall_not_mem.mpr fun c hc => ?_
        have := hfalls a c hc
        omega
      simp [preorder, hnone]
  | succ d ih =>
      rw [preorder, preorder]
      congr 1
      refine List.flatMap_congr fun c hc => ih ?_
      have := hfalls a c hc
      omega

theorem preorder_unfold {d : Nat} {a : α} (h : rank a ≤ d) :
    preorder children d a = a :: (children a).flatMap (preorder children d) := by
  rw [← preorder_succ hfalls h, preorder]

/-- The rounds of a walk visit the first nodes of the listing. -/
theorem popped_eq_take {d : Nat} (hbounded : ∀ a, rank a ≤ d) (n : Nat) (work : List α) :
    popped children n work = (work.flatMap (preorder children d)).take n := by
  induction n generalizing work with
  | zero => simp [popped]
  | succ n ih =>
      cases work with
      | nil => simp [popped]
      | cons a work =>
          rw [popped, ih, List.flatMap_cons, preorder_unfold hfalls (hbounded a),
            List.cons_append, List.take_succ_cons, List.flatMap_append]

end Ranked

/-- A relation without cycles, from nodes below `n`, climbs along a rank. -/
theorem exists_rank {r : Nat → Nat → Prop} {n : Nat} (hbelow : ∀ i j, r i j → i < n)
    (hacyclic : ∀ i, ¬ Relation.TransGen r i i) :
    ∃ rank : Nat → Nat, (∀ i < n, rank i < n) ∧ ∀ i j, r i j → rank i < rank j := by
  classical
  let ancestors : Nat → Finset Nat := fun j => (Finset.range n).filter (Relation.TransGen r · j)
  have hself : ∀ i, i ∉ ancestors i := fun i hi => hacyclic i (Finset.mem_filter.mp hi).2
  refine ⟨fun j => (ancestors j).card, fun i hi => ?_, fun i j hij => ?_⟩
  · have hss : ancestors i ⊂ Finset.range n :=
      (Finset.ssubset_iff_of_subset (Finset.filter_subset _ _)).mpr
        ⟨i, Finset.mem_range.mpr hi, hself i⟩
    simpa using Finset.card_lt_card hss
  · refine Finset.card_lt_card ((Finset.ssubset_iff_of_subset fun k hk => ?_).mpr ⟨i, ?_, hself i⟩)
    · obtain ⟨hn, hk⟩ := Finset.mem_filter.mp hk
      exact Finset.mem_filter.mpr ⟨hn, hk.tail hij⟩
    · exact Finset.mem_filter.mpr ⟨Finset.mem_range.mpr (hbelow i j hij), .single hij⟩

end Clink.Verified.DepthFirst

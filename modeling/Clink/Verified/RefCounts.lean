import Mathlib.Data.List.AList

/-!
# Counted holds

A map from keys to the number of holds on them, as a store of reference
counts keeps it: a key with no holds has no entry.  Taking and releasing the
keys of a list one by one changes each count by how often the key is in the
list (`count_takeAll`, `count_releaseAll`).
-/

namespace Clink.Verified

variable {κ : Type*} [DecidableEq κ]

structure RefCounts (κ : Type*) [DecidableEq κ] where
  counts : AList fun _ : κ => Nat
  positive : ∀ k n, counts.lookup k = some n → 0 < n

namespace RefCounts

def empty : RefCounts κ := ⟨∅, fun _ _ h => by simp at h⟩

def count (m : RefCounts κ) (k : κ) : Nat := (m.counts.lookup k).getD 0

/-- There is an entry for the key. -/
def held (m : RefCounts κ) (k : κ) : Bool := (m.counts.lookup k).isSome

theorem held_iff (m : RefCounts κ) (k : κ) : m.held k = true ↔ 0 < m.count k := by
  unfold held count
  cases h : m.counts.lookup k with
  | none => simp
  | some n => simpa using m.positive k n h

@[simp] theorem count_empty (k : κ) : (empty : RefCounts κ).count k = 0 := rfl

/-- One more hold on a key. -/
def take (m : RefCounts κ) (k : κ) : RefCounts κ where
  counts := m.counts.insert k (m.count k + 1)
  positive k' n h := by
    by_cases hk : k' = k
    · subst hk
      rw [AList.lookup_insert] at h
      have := Option.some.inj h
      omega
    · rw [AList.lookup_insert_ne hk] at h
      exact m.positive k' n h

/-- The counts with one hold on a key less. -/
def lessOne (counts : AList fun _ : κ => Nat) (k : κ) : AList fun _ : κ => Nat :=
  match counts.lookup k with
  | none => counts
  | some n => if n - 1 = 0 then counts.erase k else counts.insert k (n - 1)

theorem lookup_lessOne_ne (counts : AList fun _ : κ => Nat) {k k' : κ} (h : k' ≠ k) :
    (lessOne counts k).lookup k' = counts.lookup k' := by
  unfold lessOne
  split
  · rfl
  · split
    · exact AList.lookup_erase_ne h
    · exact AList.lookup_insert_ne h

theorem lookup_lessOne (counts : AList fun _ : κ => Nat) (k : κ) :
    (lessOne counts k).lookup k =
      (counts.lookup k).bind fun n => if n - 1 = 0 then none else some (n - 1) := by
  unfold lessOne
  cases h : counts.lookup k with
  | none => exact h
  | some n =>
      simp only [Option.bind_some]
      by_cases hlast : n - 1 = 0
      · rw [if_pos hlast, if_pos hlast]
        exact AList.lookup_erase k counts
      · rw [if_neg hlast, if_neg hlast]
        exact AList.lookup_insert counts

/-- One hold less; the entry goes with the last one. -/
def release (m : RefCounts κ) (k : κ) : RefCounts κ where
  counts := lessOne m.counts k
  positive k' n h := by
    by_cases hk : k' = k
    · subst hk
      rw [lookup_lessOne, Option.bind_eq_some_iff] at h
      obtain ⟨c, -, hc⟩ := h
      split at hc
      · simp at hc
      · have := Option.some.inj hc
        omega
    · rw [lookup_lessOne_ne m.counts hk] at h
      exact m.positive k' n h

theorem count_take (m : RefCounts κ) (k k' : κ) :
    (m.take k).count k' = m.count k' + if k = k' then 1 else 0 := by
  unfold take
  by_cases h : k' = k
  · subst h
    simp [count]
  · unfold count
    simp [AList.lookup_insert_ne h, Ne.symm h]

theorem count_release (m : RefCounts κ) (k k' : κ) :
    (m.release k).count k' = m.count k' - if k = k' then 1 else 0 := by
  unfold release count
  by_cases h : k' = k
  · subst h
    rw [lookup_lessOne, if_pos rfl]
    cases m.counts.lookup k' with
    | none => rfl
    | some n =>
        rw [Option.bind_some, Option.getD_some]
        split
        · rename_i hlast
          exact hlast.symm
        · rfl
  · rw [lookup_lessOne_ne m.counts h, if_neg (Ne.symm h), Nat.sub_zero]

def takeAll (m : RefCounts κ) (ks : List κ) : RefCounts κ := ks.foldl take m

def releaseAll (m : RefCounts κ) (ks : List κ) : RefCounts κ := ks.foldl release m

theorem count_takeAll (m : RefCounts κ) (ks : List κ) (k : κ) :
    (m.takeAll ks).count k = m.count k + ks.countP (· = k) := by
  unfold takeAll
  induction ks generalizing m with
  | nil => simp
  | cons k' ks ih =>
      rw [List.foldl_cons, ih, count_take, List.countP_cons]
      by_cases h : k' = k
      · simp [h]
        omega
      · simp [h]

theorem count_releaseAll (m : RefCounts κ) (ks : List κ) (k : κ) :
    (m.releaseAll ks).count k = m.count k - ks.countP (· = k) := by
  unfold releaseAll
  induction ks generalizing m with
  | nil => simp
  | cons k' ks ih =>
      rw [List.foldl_cons, ih, count_release, List.countP_cons]
      by_cases h : k' = k
      · simp [h]
        omega
      · simp [h]

end RefCounts

end Clink.Verified

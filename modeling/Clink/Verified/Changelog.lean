import Mathlib.Data.Finset.Basic

/-!
# Changelogs and what they net to

A changelog is a list of inserted and deleted rows.  `replay` keeps the multiset
of live rows; it fails at a delete of a row that is not live, so `replay 0 out`
being `some m` says both that the changelog nets to `m` and that every delete
repeats a row that was live at that point.

Rows a changelog does not touch may stand beside it (`replay_add`), so a
component that changes a part of its output is looked at on that part alone.
-/

namespace Clink.Verified

inductive Change (ρ : Type*) where
  | insert (row : ρ)
  | delete (row : ρ)
  deriving DecidableEq

variable {ρ ρ' : Type*} [DecidableEq ρ] [DecidableEq ρ']

omit [DecidableEq ρ] [DecidableEq ρ'] in
def Change.map (g : ρ → ρ') : Change ρ → Change ρ'
  | insert row => insert (g row)
  | delete row => delete (g row)

/-- The live rows after a changelog; `none` when a delete names no live row. -/
def replay : Multiset ρ → List (Change ρ) → Option (Multiset ρ)
  | m, [] => some m
  | m, .insert row :: cs => replay (row ::ₘ m) cs
  | m, .delete row :: cs => if row ∈ m then replay (m.erase row) cs else none

@[simp] theorem replay_nil (m : Multiset ρ) : replay m [] = some m := rfl

@[simp] theorem replay_insert (m : Multiset ρ) (row : ρ) (cs : List (Change ρ)) :
    replay m (.insert row :: cs) = replay (row ::ₘ m) cs := rfl

@[simp] theorem replay_delete (m : Multiset ρ) (row : ρ) (cs : List (Change ρ)) :
    replay (row ::ₘ m) (.delete row :: cs) = replay m cs := by
  rw [replay, if_pos (Multiset.mem_cons_self row m), Multiset.erase_cons_head]

theorem replay_append (m : Multiset ρ) (cs ds : List (Change ρ)) :
    replay m (cs ++ ds) = (replay m cs).bind fun m' => replay m' ds := by
  induction cs generalizing m with
  | nil => rfl
  | cons c cs ih =>
      cases c with
      | insert row => exact ih (row ::ₘ m)
      | delete row =>
          rw [List.cons_append, replay, replay]
          by_cases h : row ∈ m
          · rw [if_pos h, if_pos h]
            exact ih (m.erase row)
          · rw [if_neg h, if_neg h]
            rfl

variable {m m' : Multiset ρ} {cs : List (Change ρ)}

theorem replay_trans {m'' : Multiset ρ} {ds : List (Change ρ)} (hcs : replay m cs = some m')
    (hds : replay m' ds = some m'') : replay m (cs ++ ds) = some m'' := by
  rw [replay_append, hcs]
  exact hds

/-- A changelog does not mind other live rows. -/
theorem replay_add (h : replay m cs = some m') (others : Multiset ρ) :
    replay (others + m) cs = some (others + m') := by
  induction cs generalizing m with
  | nil =>
      obtain rfl : m = m' := Option.some.inj h
      rfl
  | cons c cs ih =>
      cases c with
      | insert row =>
          rw [replay, ← Multiset.add_cons]
          exact ih h
      | delete row =>
          rw [replay] at h
          by_cases hmem : row ∈ m
          · rw [if_pos hmem] at h
            rw [replay, if_pos (Multiset.mem_add.mpr (Or.inr hmem)),
              Multiset.erase_add_right_pos others hmem]
            exact ih h
          · rw [if_neg hmem] at h
            exact absurd h (by simp)

/-- Rendering the rows renders the net. -/
theorem replay_map (g : ρ → ρ') (h : replay m cs = some m') :
    replay (m.map g) (cs.map (Change.map g)) = some (m'.map g) := by
  induction cs generalizing m with
  | nil =>
      obtain rfl : m = m' := Option.some.inj h
      rfl
  | cons c cs ih =>
      cases c with
      | insert row =>
          have hrest := ih h
          rw [Multiset.map_cons] at hrest
          exact hrest
      | delete row =>
          rw [replay] at h
          by_cases hmem : row ∈ m
          · rw [if_pos hmem] at h
            obtain ⟨m₀, rfl⟩ := Multiset.exists_cons_of_mem hmem
            rw [Multiset.erase_cons_head] at h
            rw [List.map_cons, Change.map, Multiset.map_cons, replay_delete]
            exact ih h
          · rw [if_neg hmem] at h
            exact absurd h (by simp)

theorem replay_inserts (m : Multiset ρ) (rows : List ρ) :
    replay m (rows.map .insert) = some (m + ↑rows) := by
  induction rows generalizing m with
  | nil => simp
  | cons row rows ih =>
      rw [List.map_cons, replay_insert, ih, ← Multiset.cons_coe, Multiset.cons_add,
        Multiset.add_cons]

theorem replay_deletes (m : Multiset ρ) (rows : List ρ) :
    replay (m + (↑rows : Multiset ρ)) (rows.map .delete) = some m := by
  induction rows with
  | nil => simp
  | cons row rows ih =>
      rw [List.map_cons, ← Multiset.cons_coe, Multiset.add_cons, replay_delete, ih]

/-! ## One live row per key -/

section

variable {κ : Type*} [DecidableEq κ]

theorem replay_family_new {keys : Finset κ} {row : κ → ρ} {k : κ} (hk : k ∉ keys) (x : ρ) :
    replay (keys.val.map row) [.insert x] =
      some ((insert k keys).val.map (Function.update row k x)) := by
  have hothers : keys.val.map (Function.update row k x) = keys.val.map row := by
    apply Multiset.map_congr rfl
    intro k' hk'
    have hne : k' ≠ k := by
      rintro rfl
      exact hk hk'
    exact Function.update_of_ne hne x row
  rw [replay_insert, replay_nil, Finset.insert_val_of_notMem hk, Multiset.map_cons,
    Function.update_self, hothers]

theorem replay_family_replace {keys : Finset κ} {row : κ → ρ} {k : κ} (hk : k ∈ keys) (x : ρ) :
    replay (keys.val.map row) [.delete (row k), .insert x] =
      some (keys.val.map (Function.update row k x)) := by
  have hkeys : keys.val = k ::ₘ (keys.erase k).val := by
    rw [← Finset.insert_val_of_notMem (Finset.notMem_erase k keys), Finset.insert_erase hk]
  have hothers : (keys.erase k).val.map (Function.update row k x) = (keys.erase k).val.map row := by
    apply Multiset.map_congr rfl
    intro k' hk'
    exact Function.update_of_ne (Finset.ne_of_mem_erase hk') x row
  rw [hkeys, Multiset.map_cons, replay_delete, replay_insert, replay_nil, Multiset.map_cons,
    Function.update_self, hothers]

end

/-! ## The rows of a changelog -/

omit [DecidableEq ρ] [DecidableEq ρ'] in
/-- The rows a changelog inserts. -/
def insertedRows (cs : List (Change ρ)) : List ρ := cs.filterMap fun
  | .insert row => some row
  | .delete _ => none

omit [DecidableEq ρ] [DecidableEq ρ'] in
/-- The rows it deletes. -/
def deletedRows (cs : List (Change ρ)) : List ρ := cs.filterMap fun
  | .insert _ => none
  | .delete row => some row

omit [DecidableEq ρ] in
@[simp] theorem insertedRows_inserts (rows : List ρ) : insertedRows (rows.map .insert) = rows := by
  simp [insertedRows, List.filterMap_map]

omit [DecidableEq ρ] in
@[simp] theorem insertedRows_deletes (rows : List ρ) : insertedRows (rows.map .delete) = [] := by
  simp [insertedRows, List.filterMap_map]

omit [DecidableEq ρ] in
@[simp] theorem deletedRows_inserts (rows : List ρ) : deletedRows (rows.map .insert) = [] := by
  simp [deletedRows, List.filterMap_map]

omit [DecidableEq ρ] in
@[simp] theorem deletedRows_deletes (rows : List ρ) : deletedRows (rows.map .delete) = rows := by
  simp [deletedRows, List.filterMap_map]

end Clink.Verified

import Mathlib.Data.Finset.Card
import Clink.Verified.SortedMap

/-!
# The newest keys of a growing map

`newest n m` is `m` cut to its `n` largest keys.  Cutting a growing map after each
new key loses nothing: the cut of what was kept and the new key is the cut of all
the keys (`newest_upsert`).  A key is kept when fewer than `n` keys are larger
(`mem_keys_newest`).
-/

namespace Clink.Verified.SortedMap

variable {κ β : Type*} [LinearOrder κ] {k k' : κ} {n : Nat}

/-- The map with its `n` largest keys only. -/
def newest (n : Nat) (m : SortedMap κ β) : SortedMap κ β :=
  ⟨m.entries.drop (m.entries.length - n), m.sorted.sublist (List.drop_sublist _ _)⟩

theorem entries_newest (n : Nat) (m : SortedMap κ β) :
    (m.newest n).entries = m.entries.drop (m.entries.length - n) := rfl

/-! ## Cutting a list -/

/-- A first element beyond the last `n` is cut. -/
theorem lastOf_cons {α : Type*} {l : List α} (a : α) (hlen : n ≤ l.length) :
    (a :: l).drop ((a :: l).length - n) = l.drop (l.length - n) := by
  rw [List.length_cons, show l.length + 1 - n = (l.length - n) + 1 by omega, List.drop_succ_cons]

theorem lastOf_all {α : Type*} {l : List α} (hlen : l.length ≤ n) :
    l.drop (l.length - n) = l := by
  rw [Nat.sub_eq_zero_of_le hlen, List.drop_zero]

private theorem upsertEntries_cons (f : Option β → β) (e : κ × β) (rest : List (κ × β)) :
    upsertEntries k f (e :: rest) =
      if k < e.1 then (k, f none) :: e :: rest
      else if k = e.1 then (e.1, f (some e.2)) :: rest
      else e :: upsertEntries k f rest := rfl

private theorem length_upsertEntries (f : Option β → β) (l : List (κ × β)) :
    l.length ≤ (upsertEntries k f l).length := by
  induction l with
  | nil => exact Nat.zero_le _
  | cons e rest ih =>
      unfold upsertEntries
      split
      · exact Nat.le_succ _
      split
      · exact Nat.le_refl _
      · exact Nat.succ_le_succ ih

theorem upsertEntries_of_lt {f : Option β → β} {l : List (κ × β)}
    (h : ∀ e ∈ l, k < e.1) : upsertEntries k f l = (k, f none) :: l := by
  cases l with
  | nil => rfl
  | cons e rest =>
      unfold upsertEntries
      rw [if_pos (h e List.mem_cons_self)]

private theorem lastOf_upsertEntries (n : Nat) (f : Option β → β) {l : List (κ × β)}
    (hl : l.Pairwise fun a b => a.1 < b.1) :
    (upsertEntries k f (l.drop (l.length - n))).drop
        ((upsertEntries k f (l.drop (l.length - n))).length - n) =
      (upsertEntries k f l).drop ((upsertEntries k f l).length - n) := by
  induction l with
  | nil => rw [List.drop_nil]
  | cons e rest ih =>
      obtain ⟨hhead, hrest⟩ := List.pairwise_cons.mp hl
      by_cases hlen : (e :: rest).length ≤ n
      · rw [lastOf_all hlen]
      · -- The first entry is cut, before the new key and after it.
        have hcut : n ≤ rest.length := by
          rw [List.length_cons] at hlen
          omega
        rw [lastOf_cons e hcut, ih hrest, upsertEntries_cons]
        split
        · rename_i hlt
          have hsmall : ∀ e' ∈ rest, k < e'.1 := fun e' he' => lt_trans hlt (hhead e' he')
          rw [upsertEntries_of_lt hsmall, lastOf_cons _ hcut,
            lastOf_cons _ (hcut.trans (Nat.le_succ _)), lastOf_cons _ hcut]
        split
        · rename_i heq
          have hsmall : ∀ e' ∈ rest, k < e'.1 := fun e' he' => heq ▸ hhead e' he'
          rw [upsertEntries_of_lt hsmall, lastOf_cons _ hcut, lastOf_cons _ hcut]
        · rw [lastOf_cons e (hcut.trans (length_upsertEntries f rest))]

/-! ## New keys -/

/-- A new key in what was kept, cut again: all the keys, cut once. -/
theorem newest_upsert (n : Nat) (m : SortedMap κ β) (k : κ) (f : Option β → β) :
    ((m.newest n).upsert k f).newest n = (m.upsert k f).newest n :=
  ext_entries (lastOf_upsertEntries n f m.sorted)

private theorem mem_lastOf_iff {l : List κ} (hl : l.Pairwise (· < ·)) :
    k ∈ l.drop (l.length - n) ↔ k ∈ l ∧ (l.filter (k < ·)).length < n := by
  induction l with
  | nil => simp
  | cons a rest ih =>
      obtain ⟨hhead, hrest⟩ := List.pairwise_cons.mp hl
      by_cases hlen : (a :: rest).length ≤ n
      · rw [lastOf_all hlen]
        refine ⟨fun hk => ⟨hk, ?_⟩, fun hk => hk.1⟩
        have hlt : ((a :: rest).filter (k < ·)).length < (a :: rest).length :=
          List.length_filter_lt_length_iff_exists.mpr ⟨k, hk, by simp⟩
        exact lt_of_lt_of_le hlt hlen
      · have hcut : n ≤ rest.length := by
          rw [List.length_cons] at hlen
          omega
        rw [lastOf_cons a hcut, ih hrest, List.mem_cons]
        constructor
        · rintro ⟨hk, hcount⟩
          refine ⟨.inr hk, ?_⟩
          rw [List.filter_cons_of_neg (by simpa using (hhead k hk).le)]
          exact hcount
        · rintro ⟨rfl | hk, hcount⟩
          · -- The cut key has all the others above it.
            have hall : rest.filter (k < ·) = rest :=
              List.filter_eq_self.mpr fun x hx => by simpa using hhead x hx
            rw [List.filter_cons_of_neg (by simp), hall] at hcount
            omega
          · rw [List.filter_cons_of_neg (by simpa using (hhead k hk).le)] at hcount
            exact ⟨hk, hcount⟩

/-- A key is kept when fewer than `n` keys are larger. -/
theorem mem_keys_newest {m : SortedMap κ β} : k ∈ (m.newest n).keys ↔
    k ∈ m.keys ∧ (m.keys.toFinset.filter (k < ·)).card < n := by
  have hsorted : m.keys.Pairwise (· < ·) := List.pairwise_map.mpr m.sorted
  have hkeys : (m.newest n).keys = m.keys.drop (m.keys.length - n) := by
    unfold keys
    rw [entries_newest, List.map_drop, List.length_map]
  have hcard : (m.keys.toFinset.filter (k < ·)).card = (m.keys.filter (k < ·)).length := by
    rw [← List.toFinset_card_of_nodup (m.nodup_keys.filter _), List.toFinset_filter]
    simp
  rw [hkeys, mem_lastOf_iff hsorted, hcard]

end Clink.Verified.SortedMap

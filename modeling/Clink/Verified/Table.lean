import Mathlib.Data.List.AList

/-!
# Two-level tables and folds over their rows

`mapVals` maps the values of an association map.  A table keeps, for every owner,
a map of its rows.  `get`, `put` and `erase` reach one row; `sectionRows` lists the rows of a list
of sections (an owner
with its rows), which is how a table is written out.  An owner has one
section, and a section one row at a key, so the rows at one place are the
entry the table has there and nothing else (`sectionRows_at`).

Reading rows back is a fold, and a fold that touches one place per row acts
at each place by itself: `foldl_at` gives the entry at a place from the rows
at that place alone, in their order.
-/

namespace Clink.Verified

variable {γ κ β : Type*} [DecidableEq γ] [DecidableEq κ]

/-- Every value of a map through `f`, in place. -/
def mapVals {δ : Type*} (f : β → δ) (t : AList fun _ : κ => β) : AList fun _ : κ => δ :=
  ⟨t.entries.map (.map id fun _ => f), t.nodupKeys.map₂ _ _⟩

/-- The rows of every owner. -/
abbrev Table (γ κ β : Type*) := AList fun _ : γ => AList fun _ : κ => β

namespace Table

def get (t : Table γ κ β) (g : γ) (k : κ) : Option β := (t.lookup g).bind (AList.lookup k)

def put (t : Table γ κ β) (g : γ) (k : κ) (v : β) : Table γ κ β :=
  t.insert g (((t.lookup g).getD ∅).insert k v)

/-- Remove one row; the owner keeps its section. -/
def erase (t : Table γ κ β) (g : γ) (k : κ) : Table γ κ β :=
  match t.lookup g with
  | none => t
  | some rows => t.insert g (rows.erase k)

@[simp] theorem get_empty (g : γ) (k : κ) : get (∅ : Table γ κ β) g k = none := rfl

theorem get_put (t : Table γ κ β) (g g' : γ) (k k' : κ) (v : β) :
    (t.put g k v).get g' k' = if g = g' ∧ k = k' then some v else t.get g' k' := by
  unfold get put
  by_cases hg : g' = g
  · subst hg
    rw [AList.lookup_insert, Option.bind_some]
    by_cases hk : k' = k
    · subst hk
      simp
    · rw [AList.lookup_insert_ne hk, if_neg (fun h => hk h.2.symm)]
      cases t.lookup g' <;> rfl
  · rw [AList.lookup_insert_ne hg, if_neg (fun h => hg h.1.symm)]

theorem get_erase (t : Table γ κ β) (g g' : γ) (k k' : κ) :
    (t.erase g k).get g' k' = if g = g' ∧ k = k' then none else t.get g' k' := by
  unfold get erase
  cases hrows : t.lookup g with
  | none =>
      by_cases h : g = g' ∧ k = k'
      · rw [if_pos h, ← h.1, hrows]
        rfl
      · rw [if_neg h]
  | some rows =>
      by_cases hg : g' = g
      · subst hg
        rw [AList.lookup_insert, Option.bind_some, hrows, Option.bind_some]
        by_cases hk : k' = k
        · subst hk
          simp
        · rw [AList.lookup_erase_ne hk, if_neg (fun h => hk h.2.symm)]
      · rw [AList.lookup_insert_ne hg, if_neg (fun h => hg h.1.symm)]

end Table

/-! ## Writing sections out -/

/-- The rows of each section, one section after the other. -/
def sectionRows (sections : List (Σ _ : γ, AList fun _ : κ => β)) : List (γ × κ × β) :=
  sections.flatMap fun s => s.2.entries.map fun r => (s.1, r.1, r.2)

/-- The rows at one place. -/
def rowsAt (rows : List (γ × κ × β)) (g : γ) (k : κ) : List (γ × κ × β) :=
  rows.filter fun r => r.1 = g ∧ r.2.1 = k

/-- Entries with one value per key hold at a key what a lookup finds there. -/
theorem entries_at (g g' : γ) (k : κ) {l : List (Σ _ : κ, β)} (hl : l.NodupKeys) :
    rowsAt (l.map fun r => (g', r.1, r.2)) g k =
      if g' = g then ((l.dlookup k).map fun v => (g, k, v)).toList else [] := by
  induction l with
  | nil => simp [rowsAt]
  | cons e rest ih =>
      obtain ⟨k', v⟩ := e
      obtain ⟨hnot, hrest⟩ := List.nodupKeys_cons.mp hl
      have ih := ih hrest
      unfold rowsAt at ih ⊢
      rw [List.map_cons, List.filter_cons, ih]
      by_cases hg : g' = g
      · by_cases hk : k' = k
        · subst hk hg
          rw [List.dlookup_eq_none.mpr hnot]
          simp
        · rw [List.dlookup_cons_ne rest ⟨k', v⟩ (Ne.symm hk)]
          simp [hg, hk]
      · simp [hg]

/-- The rows written out at a place are the entry of its section there. -/
theorem sectionRows_at (g : γ) (k : κ) {sections : List (Σ _ : γ, AList fun _ : κ => β)}
    (hs : sections.NodupKeys) :
    rowsAt (sectionRows sections) g k =
      (((sections.dlookup g).bind (AList.lookup k)).map fun v => (g, k, v)).toList := by
  induction sections with
  | nil => rfl
  | cons s rest ih =>
      obtain ⟨g', rows⟩ := s
      obtain ⟨hnot, hrest⟩ := List.nodupKeys_cons.mp hs
      have hhead := entries_at g g' k rows.nodupKeys
      have htail := ih hrest
      unfold rowsAt at hhead htail ⊢
      unfold sectionRows at htail ⊢
      rw [List.flatMap_cons, List.filter_append, hhead, htail]
      by_cases hg : g' = g
      · subst hg
        rw [if_pos rfl, List.dlookup_eq_none.mpr hnot, List.dlookup_cons_eq, Option.bind_some]
        simp [AList.lookup]
      · rw [if_neg hg, List.dlookup_cons_ne rest ⟨g', rows⟩ (Ne.symm hg), List.nil_append]

/-! ## Folds that touch one place per row -/

/-- A step that changes only its row's own place is, at each place, the fold
over the rows of that place. -/
theorem foldl_at {σ ρ π υ : Type*} [DecidableEq π] (look : σ → π → υ) (place : ρ → π)
    (step : σ → ρ → σ) (update : υ → ρ → υ)
    (hstep : ∀ s r p, look (step s r) p =
      if place r = p then update (look s p) r else look s p)
    (rows : List ρ) (s : σ) (p : π) :
    look (rows.foldl step s) p = (rows.filter (place · = p)).foldl update (look s p) := by
  induction rows generalizing s with
  | nil => rfl
  | cons r rest ih =>
      rw [List.foldl_cons, ih, hstep, List.filter_cons]
      by_cases h : place r = p
      · simp [h]
      · simp [h]

end Clink.Verified

import Mathlib.Order.Lattice
import Mathlib.Data.List.Nodup
import Mathlib.Data.List.TakeWhile

/-!
# Ordered maps as strictly sorted entries

An ordered map is the list of its entries in key order; the order is a field,
so a map with a repeated or misplaced key cannot be built.  Iterating the
list is iterating the map from its first key.

`upsert` reaches the value at a key, making one when there is none (the
subscript operator followed by an update), `erase` removes a key, and
`upTo` / `above` cut the map at a bound, as a loop that consumes entries from
the front while their key is at most the bound does.
-/

namespace Clink.Verified

variable {κ β : Type*} [LinearOrder κ] {k k' : κ} {v : β}

structure SortedMap (κ β : Type*) [LinearOrder κ] where
  entries : List (κ × β)
  sorted : entries.Pairwise fun a b => a.1 < b.1

namespace SortedMap

theorem ext_entries {m m' : SortedMap κ β} (h : m.entries = m'.entries) : m = m' := by
  obtain ⟨entries, hsorted⟩ := m
  obtain ⟨entries', hsorted'⟩ := m'
  obtain rfl : entries = entries' := h
  rfl

instance [DecidableEq β] : DecidableEq (SortedMap κ β) := fun m m' =>
  decidable_of_iff (m.entries = m'.entries) ⟨ext_entries, fun h => h ▸ rfl⟩

def empty : SortedMap κ β := ⟨[], .nil⟩

@[simp] theorem entries_empty : (empty : SortedMap κ β).entries = [] := rfl

/-- The value at a key. -/
def find? (m : SortedMap κ β) (k : κ) : Option β := m.entries.lookup k

theorem find?_empty (k : κ) : (empty : SortedMap κ β).find? k = none := rfl

theorem lookup_cons_ite (k k₀ : κ) (v₀ : β) (rest : List (κ × β)) :
    ((k₀, v₀) :: rest).lookup k = if k = k₀ then some v₀ else rest.lookup k := by
  by_cases h : k = k₀
  · simp [h]
  · simp [List.lookup_cons, h, beq_eq_false_iff_ne.mpr h]

variable {l : List (κ × β)}

/-- Sorted entries hold one value per key. -/
theorem lookup_of_mem (hl : l.Pairwise fun a b => a.1 < b.1) (h : (k, v) ∈ l) :
    l.lookup k = some v := by
  induction l with
  | nil => simp at h
  | cons e rest ih =>
      obtain ⟨k', v'⟩ := e
      obtain ⟨hhead, htail⟩ := List.pairwise_cons.mp hl
      rcases List.mem_cons.mp h with heq | hmem
      · obtain ⟨rfl, rfl⟩ := Prod.mk.inj heq
        simp
      · have hne : k ≠ k' := ne_of_gt (hhead _ hmem)
        rw [lookup_cons_ite, if_neg hne, ih htail hmem]

private theorem mem_of_lookup (h : l.lookup k = some v) : (k, v) ∈ l := by
  obtain ⟨l₁, l₂, rfl, -⟩ := List.lookup_eq_some_iff.mp h
  simp

theorem find?_eq_some_iff {m : SortedMap κ β} : m.find? k = some v ↔ (k, v) ∈ m.entries :=
  ⟨mem_of_lookup, lookup_of_mem m.sorted⟩

def keys (m : SortedMap κ β) : List κ := m.entries.map Prod.fst

theorem nodup_keys (m : SortedMap κ β) : m.keys.Nodup := by
  have hsorted : m.keys.Pairwise (· < ·) := List.pairwise_map.mpr m.sorted
  exact hsorted.imp ne_of_lt

theorem mem_keys_iff {m : SortedMap κ β} : k ∈ m.keys ↔ ∃ v, m.find? k = some v := by
  simp [keys, find?_eq_some_iff]

theorem ext_find? {m m' : SortedMap κ β} (h : ∀ k, m.find? k = m'.find? k) : m = m' := by
  have hmem : ∀ e : κ × β, e ∈ m.entries ↔ e ∈ m'.entries := by
    intro e
    rw [← find?_eq_some_iff, ← find?_eq_some_iff, h]
  have hperm : m.entries.Perm m'.entries :=
    (List.perm_ext_iff_of_nodup (List.Nodup.of_map _ m.nodup_keys)
      (List.Nodup.of_map _ m'.nodup_keys)).mpr hmem
  have hentries : m.entries = m'.entries := by
    refine hperm.eq_of_pairwise ?_ m.sorted m'.sorted
    intro a b _ _ hab hba
    exact absurd hab (lt_asymm hba)
  exact ext_entries hentries

/-! ## Reaching a key -/

/-- Update the value at `k`, in place in key order. -/
def upsertEntries (k : κ) (f : Option β → β) : List (κ × β) → List (κ × β)
  | [] => [(k, f none)]
  | (k', v) :: rest =>
      if k < k' then (k, f none) :: (k', v) :: rest
      else if k = k' then (k', f (some v)) :: rest
      else (k', v) :: upsertEntries k f rest

variable {f : Option β → β}

/-- Every key after an update is the updated one or an old one. -/
theorem key_of_mem_upsertEntries {e : κ × β} (h : e ∈ upsertEntries k f l) :
    e.1 = k ∨ ∃ e' ∈ l, e'.1 = e.1 := by
  induction l with
  | nil => simp_all [upsertEntries]
  | cons hd rest ih =>
      obtain ⟨k', v'⟩ := hd
      simp only [upsertEntries] at h
      split at h
      · rcases List.mem_cons.mp h with rfl | h
        · exact .inl rfl
        · exact .inr ⟨e, h, rfl⟩
      split at h
      · rename_i hk
        rcases List.mem_cons.mp h with rfl | h
        · exact .inl hk.symm
        · exact .inr ⟨e, List.mem_cons_of_mem _ h, rfl⟩
      · rcases List.mem_cons.mp h with rfl | h
        · exact .inr ⟨_, List.mem_cons_self, rfl⟩
        · rcases ih h with hk | ⟨e', he', hk⟩
          · exact .inl hk
          · exact .inr ⟨e', List.mem_cons_of_mem _ he', hk⟩

private theorem sorted_upsertEntries (hl : l.Pairwise fun a b => a.1 < b.1) :
    (upsertEntries k f l).Pairwise fun a b => a.1 < b.1 := by
  induction l with
  | nil => exact List.pairwise_singleton _ _
  | cons hd rest ih =>
      obtain ⟨k', v'⟩ := hd
      obtain ⟨hhead, htail⟩ := List.pairwise_cons.mp hl
      simp only [upsertEntries]
      split
      · rename_i hlt
        refine List.pairwise_cons.mpr ⟨fun e he => ?_, hl⟩
        rcases List.mem_cons.mp he with rfl | he
        · exact hlt
        · exact lt_trans hlt (hhead e he)
      split
      · exact List.pairwise_cons.mpr ⟨hhead, htail⟩
      · rename_i hnlt hne
        refine List.pairwise_cons.mpr ⟨fun e he => ?_, ih htail⟩
        rcases key_of_mem_upsertEntries he with hk | ⟨e', he', hk⟩
        · exact hk ▸ lt_of_le_of_ne (not_lt.mp hnlt) (Ne.symm hne)
        · exact hk ▸ hhead e' he'

/-- Update the value at `k`, made from `none` when the key is absent. -/
def upsert (m : SortedMap κ β) (k : κ) (f : Option β → β) : SortedMap κ β :=
  ⟨upsertEntries k f m.entries, sorted_upsertEntries m.sorted⟩

private theorem lookup_upsertEntries (hl : l.Pairwise fun a b => a.1 < b.1) :
    (upsertEntries k f l).lookup k' =
      if k' = k then some (f (l.lookup k)) else l.lookup k' := by
  induction l with
  | nil =>
      by_cases h : k' = k <;> simp [upsertEntries, h]
  | cons hd rest ih =>
      obtain ⟨k₀, v₀⟩ := hd
      obtain ⟨hhead, htail⟩ := List.pairwise_cons.mp hl
      simp only [upsertEntries]
      split
      · rename_i hlt
        -- Inserted in front: the key was absent from the whole list.
        have habsent : ((k₀, v₀) :: rest).lookup k = none := by
          rw [List.lookup_eq_none_iff]
          intro p hp
          rcases List.mem_cons.mp hp with rfl | hp
          · simpa using ne_of_lt hlt
          · simpa using ne_of_lt (lt_trans hlt (hhead p hp))
        rw [habsent, lookup_cons_ite]
      split
      · rename_i heq
        subst heq
        by_cases h : k' = k <;> simp [lookup_cons_ite, h]
      · rename_i hne
        rw [lookup_cons_ite, ih htail, lookup_cons_ite, if_neg hne, lookup_cons_ite]
        by_cases h : k' = k₀
        · have hk' : k' ≠ k := fun he => hne (he ▸ h)
          rw [if_pos h, if_neg hk', if_pos h]
        · rw [if_neg h, if_neg h]

theorem find?_upsert (m : SortedMap κ β) (k k' : κ) (f : Option β → β) :
    (m.upsert k f).find? k' = if k' = k then some (f (m.find? k)) else m.find? k' :=
  lookup_upsertEntries m.sorted

theorem mem_keys_upsert {m : SortedMap κ β} : k' ∈ (m.upsert k f).keys ↔ k' = k ∨ k' ∈ m.keys := by
  rw [mem_keys_iff, mem_keys_iff, find?_upsert]
  by_cases h : k' = k <;> simp [h]

/-- A new key goes between the smaller and the larger ones. -/
theorem entries_upsert_between {m : SortedMap κ β} {k : κ} {lower upper : List (κ × β)}
    (hm : m.entries = lower ++ upper) (hlower : ∀ e ∈ lower, e.1 < k)
    (hupper : ∀ e ∈ upper, k < e.1) (f : Option β → β) :
    (m.upsert k f).entries = lower ++ (k, f none) :: upper := by
  have hkey : upsertEntries k f (lower ++ upper) = lower ++ (k, f none) :: upper := by
    clear hm
    induction lower with
    | nil =>
        cases upper with
        | nil => rfl
        | cons e rest =>
            have he := hupper e List.mem_cons_self
            rw [List.nil_append, upsertEntries, if_pos he]
            rfl
    | cons e rest ih =>
        have he := hlower e List.mem_cons_self
        rw [List.cons_append, upsertEntries, if_neg (lt_asymm he), if_neg (ne_of_gt he),
          ih fun e' he' => hlower e' (List.mem_cons_of_mem _ he')]
        rfl
  change upsertEntries k f m.entries = _
  rw [hm, hkey]

/-- A key past all others goes to the end. -/
theorem entries_upsert_of_lt {m : SortedMap κ β} {k : κ} (h : ∀ e ∈ m.entries, e.1 < k)
    (f : Option β → β) : (m.upsert k f).entries = m.entries ++ [(k, f none)] :=
  entries_upsert_between (List.append_nil _).symm h (by simp) f

/-- Put every entry of `m'`. -/
def putAll (m m' : SortedMap κ β) : SortedMap κ β :=
  m'.entries.foldl (fun m e => m.upsert e.1 fun _ => e.2) m

theorem find?_putAll (m m' : SortedMap κ β) (k : κ) :
    (m.putAll m').find? k = (m'.find? k).or (m.find? k) := by
  have hkey : ∀ (l : List (κ × β)) (m : SortedMap κ β), (l.Pairwise fun a b => a.1 < b.1) →
      (l.foldl (fun m e => m.upsert e.1 fun _ => e.2) m).find? k =
        (l.lookup k).or (m.find? k) := by
    intro l
    induction l with
    | nil =>
        intro m _
        simp
    | cons e rest ih =>
        intro m hl
        obtain ⟨hhead, htail⟩ := List.pairwise_cons.mp hl
        rw [List.foldl_cons, ih _ htail, find?_upsert, lookup_cons_ite]
        by_cases hk : k = e.1
        · have habsent : rest.lookup k = none := by
            rw [List.lookup_eq_none_iff]
            intro p hp
            simpa [hk] using ne_of_lt (hhead p hp)
          rw [habsent, if_pos hk, if_pos hk]
          rfl
        · rw [if_neg hk, if_neg hk]
  exact hkey m'.entries m m'.sorted

/-! ## Removing a key and cutting at a bound -/

def erase (m : SortedMap κ β) (k : κ) : SortedMap κ β :=
  ⟨m.entries.filter fun e => e.1 ≠ k, m.sorted.filter _⟩

theorem find?_erase (m : SortedMap κ β) (k k' : κ) :
    (m.erase k).find? k' = if k' = k then none else m.find? k' := by
  apply Option.ext
  intro v
  rw [find?_eq_some_iff]
  by_cases h : k' = k
  · simp [erase, h]
  · simp [erase, h, find?_eq_some_iff]

theorem mem_keys_erase {m : SortedMap κ β} : k' ∈ (m.erase k).keys ↔ k' ≠ k ∧ k' ∈ m.keys := by
  rw [mem_keys_iff, mem_keys_iff, find?_erase]
  by_cases h : k' = k <;> simp [h]

theorem mem_keys_foldl_erase {m : SortedMap κ β} {l : List κ} :
    k ∈ (l.foldl erase m).keys ↔ k ∉ l ∧ k ∈ m.keys := by
  induction l generalizing m with
  | nil => simp
  | cons k' rest ih =>
      rw [List.foldl_cons, ih, mem_keys_erase, List.mem_cons, not_or]
      constructor
      · rintro ⟨hrest, hne, hmem⟩
        exact ⟨⟨hne, hrest⟩, hmem⟩
      · rintro ⟨⟨hne, hrest⟩, hmem⟩
        exact ⟨hrest, hne, hmem⟩

theorem entries_filter_key (m : SortedMap κ β) {p : κ × β → Bool} (hp : ∀ e, p e = true ↔ e.1 = k) :
    m.entries.filter p = (m.find? k).toList.map fun v => (k, v) := by
  have hkey : ∀ l : List (κ × β), (l.Pairwise fun a b => a.1 < b.1) →
      l.filter p = (l.lookup k).toList.map fun v => (k, v) := by
    intro l hl
    induction l with
    | nil => rfl
    | cons e rest ih =>
        obtain ⟨k', v'⟩ := e
        obtain ⟨hhead, htail⟩ := List.pairwise_cons.mp hl
        rw [lookup_cons_ite]
        by_cases h : k = k'
        · subst h
          have hnil : rest.filter p = [] := by
            rw [List.filter_eq_nil_iff]
            intro e he
            rw [hp]
            exact ne_of_gt (hhead e he)
          rw [List.filter_cons_of_pos ((hp _).mpr rfl), hnil, if_pos rfl]
          rfl
        · have hne : ¬ p (k', v') = true := by
            rw [hp]
            exact Ne.symm h
          rw [if_neg h, ← ih htail, List.filter_cons_of_neg hne]
  exact hkey m.entries m.sorted

/-- Removing the least key leaves the others as they are. -/
theorem entries_erase_of_least {m : SortedMap κ β} {k : κ} {v : β} (hfind : m.find? k = some v)
    (hleast : ∀ e ∈ m.entries, k ≤ e.1) : m.entries = (k, v) :: (m.erase k).entries := by
  have hmem := find?_eq_some_iff.mp hfind
  have hsorted := m.sorted
  change m.entries = (k, v) :: m.entries.filter fun e => e.1 ≠ k
  cases hentries : m.entries with
  | nil => simp [hentries] at hmem
  | cons e rest =>
      rw [hentries] at hmem hsorted hleast
      obtain ⟨hhead, -⟩ := List.pairwise_cons.mp hsorted
      have he : (k, v) = e := by
        rcases List.mem_cons.mp hmem with he | hrest
        · exact he
        · exact absurd (hhead _ hrest) (not_lt.mpr (hleast e List.mem_cons_self))
      subst he
      have hkept : rest.filter (fun e => e.1 ≠ k) = rest := by
        rw [List.filter_eq_self]
        intro e he
        simpa using ne_of_gt (hhead e he)
      rw [List.filter_cons_of_neg (by simp), hkept]

/-- The entries a test keeps. -/
def retain (m : SortedMap κ β) (keep : κ → β → Bool) : SortedMap κ β :=
  ⟨m.entries.filter fun e => keep e.1 e.2, m.sorted.filter _⟩

theorem find?_retain (m : SortedMap κ β) (keep : κ → β → Bool) (k : κ) :
    (m.retain keep).find? k = (m.find? k).filter (keep k) := by
  apply Option.ext
  intro v
  rw [find?_eq_some_iff, Option.filter_eq_some_iff, find?_eq_some_iff]
  simp [retain]

/-- The entries a loop from the front consumes while the key is at most `c`. -/
def upTo (m : SortedMap κ β) (c : κ) : List (κ × β) := m.entries.takeWhile fun e => e.1 ≤ c

/-- The entries such a loop leaves. -/
def above (m : SortedMap κ β) (c : κ) : SortedMap κ β :=
  ⟨m.entries.dropWhile fun e => e.1 ≤ c,
    m.sorted.sublist (List.dropWhile_sublist _)⟩

theorem upTo_append_above (m : SortedMap κ β) (c : κ) :
    m.upTo c ++ (m.above c).entries = m.entries :=
  List.takeWhile_append_dropWhile

/-- A consumed entry was in the map, at a key within the bound. -/
theorem mem_upTo {m : SortedMap κ β} {c : κ} {e : κ × β} (h : e ∈ m.upTo c) :
    e ∈ m.entries ∧ e.1 ≤ c :=
  ⟨(List.takeWhile_sublist _).subset h, by simpa using List.mem_takeWhile_imp h⟩

/-- In key order the loop leaves exactly the entries above the bound. -/
theorem mem_above {m : SortedMap κ β} {c : κ} {e : κ × β} :
    e ∈ (m.above c).entries ↔ e ∈ m.entries ∧ c < e.1 := by
  have hkey : ∀ l : List (κ × β), (l.Pairwise fun a b => a.1 < b.1) →
      (e ∈ l.dropWhile (fun e => e.1 ≤ c) ↔ e ∈ l ∧ c < e.1) := by
    intro l hl
    induction l with
    | nil => simp
    | cons hd rest ih =>
        obtain ⟨hhead, htail⟩ := List.pairwise_cons.mp hl
        by_cases hle : hd.1 ≤ c
        · rw [List.dropWhile_cons_of_pos (by simpa using hle), ih htail, List.mem_cons]
          constructor
          · exact fun h => ⟨.inr h.1, h.2⟩
          · rintro ⟨rfl | h, hc⟩
            · exact absurd hle (not_le.mpr hc)
            · exact ⟨h, hc⟩
        · rw [List.dropWhile_cons_of_neg (by simpa using hle)]
          refine ⟨fun h => ⟨h, ?_⟩, fun h => h.1⟩
          rcases List.mem_cons.mp h with rfl | h
          · exact not_le.mp hle
          · exact lt_trans (not_le.mp hle) (hhead e h)
  exact hkey m.entries m.sorted

/-! ## Mapping the values

Every operation commutes with a map of the values: what a map does never
depends on what its values are.
-/

section MapValues

variable {γ : Type*} (g : β → γ)

def mapValues (m : SortedMap κ β) : SortedMap κ γ :=
  ⟨m.entries.map fun e => (e.1, g e.2), by simpa [List.pairwise_map] using m.sorted⟩

theorem find?_mapValues (m : SortedMap κ β) (k : κ) :
    (m.mapValues g).find? k = (m.find? k).map g := by
  have hkey : ∀ l : List (κ × β),
      (l.map fun e => (e.1, g e.2)).lookup k = (l.lookup k).map g := by
    intro l
    induction l with
    | nil => rfl
    | cons e rest ih =>
        rw [List.map_cons, lookup_cons_ite, lookup_cons_ite, ih]
        split <;> rfl
  exact hkey m.entries

theorem mapValues_upsert (m : SortedMap κ β) (k : κ) (f : Option β → β)
    (f' : Option γ → γ) (hf : ∀ o, g (f o) = f' (o.map g)) :
    (m.upsert k f).mapValues g = (m.mapValues g).upsert k f' := by
  have hkey : ∀ l : List (κ × β), (upsertEntries k f l).map (fun e => (e.1, g e.2)) =
      upsertEntries k f' (l.map fun e => (e.1, g e.2)) := by
    intro l
    induction l with
    | nil => simp [upsertEntries, hf]
    | cons e rest ih =>
        simp only [upsertEntries, List.map_cons]
        split
        · simp [hf]
        split
        · simp [hf]
        · simp [ih]
  simp only [upsert, mapValues, hkey]

theorem mapValues_erase (m : SortedMap κ β) (k : κ) :
    (m.erase k).mapValues g = (m.mapValues g).erase k := by
  simp only [erase, mapValues, List.filter_map, Function.comp_def]

theorem upTo_mapValues (m : SortedMap κ β) (c : κ) :
    (m.mapValues g).upTo c = (m.upTo c).map fun e => (e.1, g e.2) := by
  simp only [upTo, mapValues, List.takeWhile_map, Function.comp_def]

theorem mapValues_above (m : SortedMap κ β) (c : κ) :
    (m.above c).mapValues g = (m.mapValues g).above c := by
  simp only [above, mapValues, List.dropWhile_map, Function.comp_def]

end MapValues

end SortedMap

end Clink.Verified

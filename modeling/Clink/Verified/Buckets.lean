import Mathlib.Data.List.AList
import Mathlib.Data.Multiset.Bind

/-!
# Keyed buckets

A finite map from keys to lists, in no order that matters.  `bucket` reads the
list of a key, `content` is the multiset of everything held under any key, and
`visit` rewrites every list and drops the keys whose list becomes empty.

Replacing one list replaces its part of the content (`content_insert`), and a
visit that filters every list filters the content (`content_visit`), so
what a sweep over all keys does is said without naming the keys.
-/

namespace Clink.Verified

variable {κ β γ : Type*} [DecidableEq κ]

abbrev Buckets (κ β : Type*) := AList fun _ : κ => List β

namespace Buckets

/-- The list of a key; a key that is absent has none. -/
def bucket (s : Buckets κ β) (k : κ) : List β := (s.lookup k).getD []

@[simp] theorem bucket_empty (k : κ) : bucket (∅ : Buckets κ β) k = [] := rfl

theorem bucket_insert (s : Buckets κ β) (k k' : κ) (l : List β) :
    bucket (s.insert k l) k' = if k' = k then l else bucket s k' := by
  unfold bucket
  by_cases h : k' = k
  · subst h
    rw [AList.lookup_insert, if_pos rfl]
    rfl
  · rw [AList.lookup_insert_ne h, if_neg h]

theorem bucket_erase (s : Buckets κ β) (k k' : κ) :
    bucket (s.erase k) k' = if k' = k then [] else bucket s k' := by
  unfold bucket
  by_cases h : k' = k
  · subst h
    rw [AList.lookup_erase, if_pos rfl]
    rfl
  · rw [AList.lookup_erase_ne h, if_neg h]

/-- Everything held, under any key. -/
def content (s : Buckets κ β) : Multiset β := ↑(s.entries.flatMap fun e => e.2)

omit [DecidableEq κ] in
@[simp] theorem content_empty : content (∅ : Buckets κ β) = 0 := rfl

theorem content_insert (s : Buckets κ β) (k : κ) (l : List β) :
    content (s.insert k l) = ↑l + content (s.erase k) := by
  have hentries : (s.insert k l).entries = ⟨k, l⟩ :: (s.erase k).entries := AList.entries_insert
  unfold content
  rw [hentries, List.flatMap_cons, Multiset.coe_add]

private theorem perm_kerase (k : κ) {l : List (Σ _ : κ, List β)} (hl : l.NodupKeys) :
    (l.flatMap fun e => e.2).Perm
      ((l.dlookup k).getD [] ++ (l.kerase k).flatMap fun e => e.2) := by
  induction l with
  | nil => simp
  | cons e rest ih =>
      obtain ⟨k', v⟩ := e
      obtain ⟨-, hrest⟩ := List.nodupKeys_cons.mp hl
      by_cases h : k = k'
      · subst h
        have hkerase : List.kerase k (⟨k, v⟩ :: rest) = rest := List.kerase_cons_eq rfl
        rw [List.dlookup_cons_eq, hkerase]
        simp
      · rw [List.dlookup_cons_ne rest ⟨k', v⟩ h, List.kerase_cons_ne h]
        rw [List.flatMap_cons, List.flatMap_cons]
        have hswap := (ih hrest).append_left v
        refine hswap.trans ?_
        rw [← List.append_assoc, ← List.append_assoc]
        exact List.Perm.append_right _ List.perm_append_comm

theorem content_split (s : Buckets κ β) (k : κ) :
    content s = ↑(bucket s k) + content (s.erase k) := by
  rw [content, content, Multiset.coe_add, Multiset.coe_eq_coe]
  exact perm_kerase k s.nodupKeys

theorem mem_content {s : Buckets κ β} {b : β} : b ∈ content s ↔ ∃ k, b ∈ bucket s k := by
  constructor
  · intro h
    rw [content, Multiset.mem_coe, List.mem_flatMap] at h
    obtain ⟨e, he, hb⟩ := h
    refine ⟨e.1, ?_⟩
    have hlookup : s.lookup e.1 = some e.2 := List.mem_dlookup s.nodupKeys he
    rw [bucket, hlookup]
    exact hb
  · rintro ⟨k, hb⟩
    rw [content_split s k]
    exact Multiset.mem_add.mpr (Or.inl hb)

/-! ## Sweeps over every key -/

omit [DecidableEq κ] in
private theorem nodupKeys_visit (f : List β → List γ) {l : List (Σ _ : κ, List β)}
    (hl : l.NodupKeys) :
    ((l.filter fun e => !(f e.2).isEmpty).map fun e =>
      (⟨e.1, f e.2⟩ : Σ _ : κ, List γ)).NodupKeys := by
  have hkeys : ((l.filter fun e => !(f e.2).isEmpty).map
      fun e => (⟨e.1, f e.2⟩ : Σ _ : κ, List γ)).map Sigma.fst =
        (l.filter fun e => !(f e.2).isEmpty).map Sigma.fst := by
    rw [List.map_map]
    rfl
  unfold List.NodupKeys List.keys
  rw [hkeys]
  exact List.Nodup.sublist (List.filter_sublist.map Sigma.fst) hl

/-- Rewrite every list; a list that becomes empty leaves its key. -/
def visit (f : List β → List γ) (s : Buckets κ β) : Buckets κ γ :=
  ⟨(s.entries.filter fun e => !(f e.2).isEmpty).map fun e => ⟨e.1, f e.2⟩,
    nodupKeys_visit f s.nodupKeys⟩

omit [DecidableEq κ] in
theorem content_visit (f : List β → List γ) (s : Buckets κ β) :
    content (visit f s) = ↑(s.entries.flatMap fun e => f e.2) := by
  have hkey : ∀ l : List (Σ _ : κ, List β),
      (((l.filter fun e => !(f e.2).isEmpty).map
        fun e => (⟨e.1, f e.2⟩ : Σ _ : κ, List γ)).flatMap fun e => e.2) =
          l.flatMap fun e => f e.2 := by
    intro l
    induction l with
    | nil => rfl
    | cons e rest ih =>
        by_cases h : f e.2 = []
        · simp [h, ih]
        · simp [h, ih]
  unfold content visit
  rw [hkey]

omit [DecidableEq κ] in
theorem content_visit_map (g : β → γ) (s : Buckets κ β) :
    content (visit (List.map g) s) = (content s).map g := by
  rw [content_visit, content, Multiset.map_coe, List.map_flatMap]

theorem coe_filter (p : β → Bool) (l : List β) :
    (↑(l.filter p) : Multiset β) = (↑l : Multiset β).filter fun b => p b = true := by
  simp

omit [DecidableEq κ] in
/-- What a sweep that filters and maps every list collects. -/
theorem coe_flatMap_filter (p : β → Bool) (g : β → γ) (s : Buckets κ β) :
    (↑(s.entries.flatMap fun e => (e.2.filter p).map g) : Multiset γ) =
      ((content s).filter fun b => p b = true).map g := by
  have hkey : ∀ l : List (Σ _ : κ, List β),
      (l.flatMap fun e => (e.2.filter p).map g) = ((l.flatMap fun e => e.2).filter p).map g := by
    intro l
    induction l with
    | nil => rfl
    | cons e rest ih => simp [ih]
  rw [hkey, ← Multiset.map_coe, coe_filter]
  rfl

theorem bucket_visit (f : List β → List γ) (hnil : f [] = []) (s : Buckets κ β) (k : κ) :
    bucket (visit f s) k = f (bucket s k) := by
  have hkey : ∀ l : List (Σ _ : κ, List β), l.NodupKeys →
      ((((l.filter fun e => !(f e.2).isEmpty).map
        fun e => (⟨e.1, f e.2⟩ : Σ _ : κ, List γ)).dlookup k).getD []) =
          f ((l.dlookup k).getD []) := by
    intro l hl
    induction l with
    | nil => simp [hnil]
    | cons e rest ih =>
        obtain ⟨k', v⟩ := e
        obtain ⟨hnot, hrest⟩ := List.nodupKeys_cons.mp hl
        have ih := ih hrest
        by_cases hk : k = k'
        · subst hk
          rw [List.dlookup_eq_none.mpr hnot] at ih
          by_cases hv : f v = []
          · simp only [hv, List.filter_cons, List.isEmpty_nil, Bool.not_true, Bool.false_eq_true,
              if_false, List.dlookup_cons_eq, Option.getD_some]
            rw [ih]
            exact hnil
          · simp [hv]
        · rw [List.dlookup_cons_ne rest ⟨k', v⟩ hk]
          by_cases hv : f v = []
          · simpa [hv] using ih
          · rw [List.filter_cons_of_pos (by simpa using hv), List.map_cons,
              List.dlookup_cons_ne _ (⟨k', f v⟩ : Σ _ : κ, List γ) hk]
            exact ih
  exact hkey s.entries s.nodupKeys

/-! ## Values under their own key -/

/-- Every value is held under the key it has. -/
def Keyed (keyOf : β → κ) (s : Buckets κ β) : Prop := ∀ k, ∀ b ∈ bucket s k, keyOf b = k

variable {keyOf : β → κ} {s : Buckets κ β}

theorem keyed_empty : Keyed keyOf (∅ : Buckets κ β) := by
  intro k b hb
  simp at hb

section

variable (h : Keyed keyOf s)
include h

theorem Keyed.insert {k : κ} {l : List β} (hl : ∀ b ∈ l, keyOf b = k) :
    Keyed keyOf (s.insert k l) := by
  intro k' b hb
  rw [bucket_insert] at hb
  by_cases hk : k' = k
  · rw [if_pos hk] at hb
    rw [hk]
    exact hl b hb
  · rw [if_neg hk] at hb
    exact h k' b hb

theorem Keyed.visit_map {g : β → β} (hg : ∀ b, keyOf (g b) = keyOf b) :
    Keyed keyOf (Buckets.visit (List.map g) s) := by
  intro k b hb
  rw [bucket_visit _ List.map_nil] at hb
  obtain ⟨b', hb', rfl⟩ := List.mem_map.mp hb
  rw [hg]
  exact h k b' hb'

theorem Keyed.ne_of_mem_erase {k : κ} {b : β} (hb : b ∈ content (s.erase k)) : keyOf b ≠ k := by
  obtain ⟨k', hb'⟩ := mem_content.mp hb
  rw [bucket_erase] at hb'
  by_cases hk : k' = k
  · rw [if_pos hk] at hb'
    simp at hb'
  · rw [if_neg hk] at hb'
    rw [h k' b hb']
    exact hk

theorem Keyed.content_erase (k : κ) :
    content (s.erase k) = (content s).filter fun b => keyOf b ≠ k := by
  have hbucket : (↑(bucket s k) : Multiset β).filter (fun b => keyOf b ≠ k) = 0 := by
    rw [Multiset.filter_eq_nil]
    intro b hb
    exact not_not_intro (h k b hb)
  have hrest : (content (s.erase k)).filter (fun b => keyOf b ≠ k) = content (s.erase k) := by
    rw [Multiset.filter_eq_self]
    intro b hb
    exact h.ne_of_mem_erase hb
  rw [content_split s k, Multiset.filter_add, hbucket, hrest, zero_add]

theorem Keyed.coe_bucket (k : κ) :
    (↑(bucket s k) : Multiset β) = (content s).filter fun b => keyOf b = k := by
  have hbucket : (↑(bucket s k) : Multiset β).filter (fun b => keyOf b = k) = ↑(bucket s k) := by
    rw [Multiset.filter_eq_self]
    intro b hb
    exact h k b hb
  have hrest : (content (s.erase k)).filter (fun b => keyOf b = k) = 0 := by
    rw [Multiset.filter_eq_nil]
    intro b hb
    exact h.ne_of_mem_erase hb
  rw [content_split s k, Multiset.filter_add, hbucket, hrest, add_zero]

/-- Rewriting one key's list rewrites the values with that key. -/
theorem Keyed.content_insert_map (k : κ) {f g : β → β} (hf : ∀ b, keyOf b = k → g b = f b)
    (hne : ∀ b, keyOf b ≠ k → g b = b) :
    content (s.insert k ((bucket s k).map f)) = (content s).map g := by
  have hmapped : (↑((bucket s k).map f) : Multiset β) =
      ((content s).filter fun b => keyOf b = k).map g := by
    rw [← Multiset.map_coe, h.coe_bucket k]
    apply Multiset.map_congr rfl
    intro b hb
    exact (hf b (Multiset.mem_filter.mp hb).2).symm
  have hrest : ((content s).filter fun b => ¬ keyOf b = k).map g =
      (content s).filter fun b => ¬ keyOf b = k := by
    conv_rhs => rw [← Multiset.map_id ((content s).filter fun b => ¬ keyOf b = k)]
    apply Multiset.map_congr rfl
    intro b hb
    exact hne b (Multiset.mem_filter.mp hb).2
  rw [content_insert, h.content_erase k, hmapped, ← hrest, ← Multiset.map_add,
    Multiset.filter_add_not]

end

end Buckets

end Clink.Verified

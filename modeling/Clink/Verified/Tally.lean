import Mathlib.Data.BitVec
import Mathlib.Data.Finset.Sort

/-!
# Tallies

How often each value is held, as an ordered map from values to counts whose
order is a comparison given from outside.  Values the comparison does not tell
apart share an entry, under the value that came first.  A count is a signed
machine integer of `w` bits and wraps.

Where the comparison is that of a linearly ordered key, a tally of a multiset
(`Tallies`) follows it through additions, and two tallies added make that of both
multisets, whatever the counts do.  It follows a removal, and for the key itself
lists the multiset in order, where the counts fit.  Its first and last entries
hold the least and the greatest key, and it has an entry for each distinct key.
-/

namespace Clink.Verified

variable {α κ : Type*} [LinearOrder κ] {w : Nat}

/-- Count a value `c` times more. -/
def addCount (less : α → α → Bool) (v : α) (c : BitVec w) :
    List (α × BitVec w) → List (α × BitVec w)
  | [] => [(v, c)]
  | (k, n) :: rest =>
      if less k v then (k, n) :: addCount less v c rest
      else if less v k then (v, c) :: (k, n) :: rest
      else (k, n + c) :: rest

/-- Count a value once more. -/
def bump (less : α → α → Bool) (v : α) (l : List (α × BitVec w)) : List (α × BitVec w) :=
  addCount less v 1 l

/-- Count a value once less; an entry that is not positive then is dropped. -/
def unbump (less : α → α → Bool) (v : α) : List (α × BitVec w) → List (α × BitVec w)
  | [] => []
  | (k, c) :: rest =>
      if less k v then (k, c) :: unbump less v rest
      else if less v k then (k, c) :: rest
      else if (c - 1).toInt ≤ 0 then rest
      else (k, c - 1) :: rest

/-- The counts of one tally added to another. -/
def addCounts (less : α → α → Bool) (l counts : List (α × BitVec w)) : List (α × BitVec w) :=
  counts.foldl (fun l e => addCount less e.1 e.2 l) l

/-- The count of a key. -/
def multiplicity (key : α → κ) (l : List (α × BitVec w)) (o : κ) : BitVec w :=
  ((l.filter fun e => key e.1 = o).map Prod.snd).sum

/-- The comparison of two values is that of their keys. -/
def ComparesBy (less : α → α → Bool) (key : α → κ) (a b : α) : Prop :=
  less a b = decide (key a < key b) ∧ less b a = decide (key b < key a)

/-- How often a multiset holds a key. -/
def holds (key : α → κ) (s : Multiset α) (o : κ) : Nat := s.countP fun x => key x = o

/-- A tally of a multiset, by key. -/
structure Tallies (key : α → κ) (l : List (α × BitVec w)) (s : Multiset α) : Prop where
  sorted : l.Pairwise fun e f => key e.1 < key f.1
  keys : ∀ o, (∃ e ∈ l, key e.1 = o) ↔ ∃ x ∈ s, key x = o
  counts : ∀ o, multiplicity key l o = BitVec.ofNat w (holds key s o)

theorem tallies_nil (key : α → κ) : Tallies (w := w) key [] 0 where
  sorted := List.Pairwise.nil
  keys := by simp
  counts := by simp [multiplicity, holds]

section

variable {less : α → α → Bool} {key : α → κ} {v : α} {l : List (α × BitVec w)} {s : Multiset α}

theorem multiplicity_cons (e : α × BitVec w) (l : List (α × BitVec w)) (o : κ) :
    multiplicity key (e :: l) o = (if key e.1 = o then e.2 else 0) + multiplicity key l o := by
  unfold multiplicity
  by_cases h : key e.1 = o
  · rw [List.filter_cons_of_pos (by simpa using h), if_pos h, List.map_cons, List.sum_cons]
  · rw [List.filter_cons_of_neg (by simpa using h), if_neg h, zero_add]

private theorem multiplicity_eq_zero {o : κ} (h : ∀ e ∈ l, key e.1 ≠ o) :
    multiplicity key l o = 0 := by
  unfold multiplicity
  rw [List.filter_eq_nil_iff.mpr]
  · rfl
  · intro e he
    simpa using h e he

variable {e : α × BitVec w}

/-- Of a sorted tally the count of an entry's key is the entry's. -/
theorem multiplicity_of_mem (hsorted : l.Pairwise fun e f => key e.1 < key f.1) (he : e ∈ l) :
    multiplicity key l (key e.1) = e.2 := by
  induction l with
  | nil => simp at he
  | cons f rest ih =>
      obtain ⟨hfirst, hrest⟩ := List.pairwise_cons.mp hsorted
      rw [multiplicity_cons]
      rcases List.mem_cons.mp he with rfl | hmem
      · have hother : ∀ g ∈ rest, key g.1 ≠ key e.1 := fun g hg => (hfirst g hg).ne'
        rw [if_pos rfl, multiplicity_eq_zero hother, add_zero]
      · rw [if_neg (hfirst e hmem).ne, zero_add, ih hrest hmem]

theorem holds_cons (v : α) (s : Multiset α) (o : κ) :
    holds key (v ::ₘ s) o = holds key s o + if key v = o then 1 else 0 := by
  rw [holds, Multiset.countP_cons]
  rfl

/-! ## Additions -/

variable {P : α → Prop} {c : BitVec w}

/-- Whatever holds of the values holds of the entries. -/
theorem forall_addCount (hl : ∀ e ∈ l, P e.1) (hv : P v) : ∀ e ∈ addCount less v c l, P e.1 := by
  induction l with
  | nil => simpa [addCount] using hv
  | cons e rest ih =>
      obtain ⟨k, n⟩ := e
      obtain ⟨hfirst, hrest⟩ := List.forall_mem_cons.mp hl
      rw [addCount]
      split
      · exact List.forall_mem_cons.mpr ⟨hfirst, ih hrest⟩
      · split
        · exact List.forall_mem_cons.mpr ⟨hv, hl⟩
        · exact List.forall_mem_cons.mpr ⟨hfirst, hrest⟩

theorem forall_bump (hl : ∀ e ∈ l, P e.1) (hv : P v) : ∀ e ∈ bump less v l, P e.1 :=
  forall_addCount hl hv

theorem forall_addCounts {counts : List (α × BitVec w)} (hl : ∀ e ∈ l, P e.1)
    (hcounts : ∀ e ∈ counts, P e.1) : ∀ e ∈ addCounts less l counts, P e.1 := by
  induction counts generalizing l with
  | nil => exact hl
  | cons e counts ih =>
      obtain ⟨hfirst, hrest⟩ := List.forall_mem_cons.mp hcounts
      exact ih (forall_addCount hl hfirst) hrest

theorem sorted_addCount (h : l.Pairwise fun e f => key e.1 < key f.1)
    (hv : ∀ e ∈ l, ComparesBy less key e.1 v) :
    (addCount less v c l).Pairwise fun e f => key e.1 < key f.1 := by
  induction l with
  | nil => simp [addCount]
  | cons f rest ih =>
      obtain ⟨k, n⟩ := f
      obtain ⟨hfirst, hrest⟩ := List.pairwise_cons.mp h
      obtain ⟨⟨hkv, hvk⟩, hvrest⟩ := List.forall_mem_cons.mp hv
      rw [addCount, hkv, hvk]
      simp only [decide_eq_true_iff]
      by_cases hlt : key k < key v
      · rw [if_pos hlt]
        refine List.pairwise_cons.mpr ⟨?_, ih hrest hvrest⟩
        exact forall_addCount (P := fun x => key k < key x) hfirst hlt
      · rw [if_neg hlt]
        by_cases hgt : key v < key k
        · rw [if_pos hgt]
          refine List.pairwise_cons.mpr ⟨?_, h⟩
          exact List.forall_mem_cons.mpr ⟨hgt, fun e he => hgt.trans (hfirst e he)⟩
        · rw [if_neg hgt]
          exact List.pairwise_cons.mpr ⟨hfirst, hrest⟩

theorem keys_addCount (hv : ∀ e ∈ l, ComparesBy less key e.1 v) (o : κ) :
    (∃ e ∈ addCount less v c l, key e.1 = o) ↔ key v = o ∨ ∃ e ∈ l, key e.1 = o := by
  induction l with
  | nil => simp [addCount]
  | cons f rest ih =>
      obtain ⟨k, n⟩ := f
      obtain ⟨⟨hkv, hvk⟩, hvrest⟩ := List.forall_mem_cons.mp hv
      rw [addCount, hkv, hvk]
      simp only [decide_eq_true_iff]
      rcases lt_trichotomy (key k) (key v) with hlt | heq | hgt
      · rw [if_pos hlt, List.exists_mem_cons_iff, ih hvrest, List.exists_mem_cons_iff, or_left_comm]
      · rw [if_neg (by simp [heq]), if_neg (by simp [heq]), List.exists_mem_cons_iff,
          List.exists_mem_cons_iff, heq, ← or_assoc, or_self]
      · rw [if_neg hgt.not_gt, if_pos hgt, List.exists_mem_cons_iff]

theorem multiplicity_addCount (hv : ∀ e ∈ l, ComparesBy less key e.1 v) (o : κ) :
    multiplicity key (addCount less v c l) o =
      multiplicity key l o + if key v = o then c else 0 := by
  induction l with
  | nil => rw [addCount, multiplicity_cons, add_comm]
  | cons f rest ih =>
      obtain ⟨k, n⟩ := f
      obtain ⟨⟨hkv, hvk⟩, hvrest⟩ := List.forall_mem_cons.mp hv
      rw [addCount, hkv, hvk, multiplicity_cons]
      simp only [decide_eq_true_iff]
      rcases lt_trichotomy (key k) (key v) with hlt | heq | hgt
      · rw [if_pos hlt, multiplicity_cons, ih hvrest, add_assoc]
      · rw [if_neg (by simp [heq]), if_neg (by simp [heq]), multiplicity_cons, heq]
        by_cases ho : key v = o
        · simp only [if_pos ho]
          exact add_right_comm n c _
        · simp only [if_neg ho, add_zero]
      · rw [if_neg hgt.not_gt, if_pos hgt, multiplicity_cons, multiplicity_cons]
        exact add_comm _ _

theorem Tallies.added (h : Tallies key l s) (hv : ∀ e ∈ l, ComparesBy less key e.1 v) :
    Tallies key (bump less v l) (v ::ₘ s) where
  sorted := sorted_addCount h.sorted hv
  keys o := by
    unfold bump
    rw [keys_addCount hv, h.keys]
    simp
  counts o := by
    unfold bump
    rw [multiplicity_addCount hv, h.counts, holds_cons, BitVec.ofNat_add]
    split <;> rfl

theorem Tallies.merged (hcompares : ∀ a b, P a → P b → ComparesBy less key a b)
    {counts : List (α × BitVec w)} {t : Multiset α} (h : Tallies key l s)
    (hcounts : Tallies key counts t) (hl : ∀ e ∈ l, P e.1) (hentries : ∀ e ∈ counts, P e.1) :
    Tallies key (addCounts less l counts) (s + t) := by
  have hadded : ((addCounts less l counts).Pairwise fun e f => key e.1 < key f.1) ∧ ∀ o,
      ((∃ e ∈ addCounts less l counts, key e.1 = o) ↔
        (∃ e ∈ l, key e.1 = o) ∨ ∃ e ∈ counts, key e.1 = o) ∧
      multiplicity key (addCounts less l counts) o =
        multiplicity key l o + multiplicity key counts o := by
    obtain ⟨hsorted, -, -⟩ := h
    clear hcounts
    induction counts generalizing l with
    | nil => exact ⟨hsorted, fun o => ⟨by simp [addCounts], by simp [addCounts, multiplicity]⟩⟩
    | cons f counts ih =>
        obtain ⟨hfirst, hrest⟩ := List.forall_mem_cons.mp hentries
        have hv : ∀ e ∈ l, ComparesBy less key e.1 f.1 :=
          fun e he => hcompares e.1 f.1 (hl e he) hfirst
        obtain ⟨hsorted', hread⟩ := ih (forall_addCount hl hfirst) hrest
          (sorted_addCount (c := f.2) hsorted hv)
        refine ⟨hsorted', fun o => ?_⟩
        obtain ⟨hkeys, hmultiplicity⟩ := hread o
        refine ⟨hkeys.trans ?_, hmultiplicity.trans ?_⟩
        · rw [keys_addCount hv, List.exists_mem_cons_iff, or_assoc, or_left_comm]
        · rw [multiplicity_addCount hv, multiplicity_cons, add_assoc]
  refine ⟨hadded.1, fun o => ?_, fun o => ?_⟩
  · rw [(hadded.2 o).1, h.keys, hcounts.keys]
    simp only [Multiset.mem_add, or_and_right, exists_or]
  · rw [(hadded.2 o).2, h.counts, hcounts.counts, ← BitVec.ofNat_add, holds, holds, holds,
      Multiset.countP_add]

/-! ## Removals -/

theorem forall_unbump (hl : ∀ e ∈ l, P e.1) : ∀ e ∈ unbump less v l, P e.1 := by
  induction l with
  | nil => simp [unbump]
  | cons f rest ih =>
      obtain ⟨k, c⟩ := f
      obtain ⟨hfirst, hrest⟩ := List.forall_mem_cons.mp hl
      rw [unbump]
      split
      · exact List.forall_mem_cons.mpr ⟨hfirst, ih hrest⟩
      · split
        · exact hl
        · split
          · exact hrest
          · exact List.forall_mem_cons.mpr ⟨hfirst, hrest⟩

theorem toInt_ofNat_of_fits {n : Nat} (h : 2 * n < 2 ^ w) :
    (BitVec.ofNat w n).toInt = n := by
  have hnat : (BitVec.ofNat w n).toNat = n := by
    rw [BitVec.toNat_ofNat, Nat.mod_eq_of_lt (by omega)]
  rw [BitVec.toInt_eq_toNat_of_lt (by omega), hnat]

/-- The entry of the value has one less, and goes with its last one. -/
theorem unbump_read {n : Nat} (hsorted : l.Pairwise fun e f => key e.1 < key f.1)
    (hv : ∀ e ∈ l, ComparesBy less key e.1 v) (hmem : ∃ e ∈ l, key e.1 = key v)
    (hcount : ∀ e ∈ l, key e.1 = key v → e.2 = BitVec.ofNat w (n + 1))
    (hfits : 2 * (n + 1) < 2 ^ w) (o : κ) :
    ((∃ e ∈ unbump less v l, key e.1 = o) ↔ (∃ e ∈ l, key e.1 = o) ∧ (key v = o → n ≠ 0)) ∧
      multiplicity key (unbump less v l) o = multiplicity key l o - if key v = o then 1 else 0 := by
  induction l with
  | nil => simp at hmem
  | cons f rest ih =>
      obtain ⟨k, c⟩ := f
      obtain ⟨hfirst, hrest⟩ := List.pairwise_cons.mp hsorted
      obtain ⟨⟨hkv, hvk⟩, hvrest⟩ := List.forall_mem_cons.mp hv
      obtain ⟨hc, hcrest⟩ := List.forall_mem_cons.mp hcount
      rw [unbump, hkv, hvk]
      simp only [decide_eq_true_iff]
      rcases lt_trichotomy (key k) (key v) with hlt | heq | hgt
      · have hmem' : ∃ e ∈ rest, key e.1 = key v :=
          ((List.exists_mem_cons_iff _ _ _).mp hmem).resolve_left hlt.ne
        obtain ⟨hkeys, hmultiplicity⟩ := ih hrest hvrest hmem' hcrest
        rw [if_pos hlt, List.exists_mem_cons_iff, hkeys, List.exists_mem_cons_iff,
          multiplicity_cons,
          multiplicity_cons, hmultiplicity, add_sub_assoc]
        refine ⟨⟨?_, ?_⟩, rfl⟩
        · rintro (hk | ⟨hother, hleft⟩)
          · exact ⟨.inl hk, fun ho => absurd (hk.trans ho.symm) hlt.ne⟩
          · exact ⟨.inr hother, hleft⟩
        · rintro ⟨hk | hother, hleft⟩
          · exact .inl hk
          · exact .inr ⟨hother, hleft⟩
      · -- The entry of the value; the others have other keys.
        have hother : ∀ e ∈ rest, key e.1 ≠ key v := fun e he => heq ▸ (hfirst e he).ne'
        have hentry : c = BitVec.ofNat w (n + 1) := hc heq
        have hpred : c - 1 = BitVec.ofNat w n := by
          rw [hentry, BitVec.ofNat_add]
          exact add_sub_cancel_right _ _
        have hgone : (c - 1).toInt ≤ 0 ↔ n = 0 := by
          rw [hpred, toInt_ofNat_of_fits (by omega)]
          omega
        rw [if_neg (by simp [heq]), if_neg (by simp [heq]), List.exists_mem_cons_iff,
          multiplicity_cons, heq]
        by_cases hn : n = 0
        · rw [if_pos (hgone.mpr hn)]
          constructor
          · constructor
            · rintro ⟨e, he, rfl⟩
              exact ⟨.inr ⟨e, he, rfl⟩, fun ho => absurd ho.symm (hother e he)⟩
            · rintro ⟨ho | hrest, hleft⟩
              · exact absurd hn (hleft ho)
              · exact hrest
          · have hone : c = 1 := by
              rw [hentry, hn]
              rfl
            by_cases ho : key v = o
            · simp only [if_pos ho, hone, add_sub_cancel_left]
            · simp only [if_neg ho, zero_add, sub_zero]
        · rw [if_neg (mt hgone.mp hn), List.exists_mem_cons_iff, multiplicity_cons, heq]
          refine ⟨⟨fun hany => ⟨hany, fun _ => hn⟩, And.left⟩, ?_⟩
          by_cases ho : key v = o
          · simp only [if_pos ho, sub_add_eq_add_sub]
          · simp only [if_neg ho, sub_zero]
      · obtain hk | ⟨e, he, hkey⟩ := (List.exists_mem_cons_iff _ _ _).mp hmem
        · exact absurd hk hgt.ne'
        · exact absurd hkey (hgt.trans (hfirst e he)).ne'

private theorem sorted_unbump (h : l.Pairwise fun e f => key e.1 < key f.1) :
    (unbump less v l).Pairwise fun e f => key e.1 < key f.1 := by
  induction l with
  | nil => simp [unbump]
  | cons f rest ih =>
      obtain ⟨k, c⟩ := f
      obtain ⟨hfirst, hrest⟩ := List.pairwise_cons.mp h
      rw [unbump]
      split
      · exact List.pairwise_cons.mpr ⟨forall_unbump (P := fun x => key k < key x) hfirst, ih hrest⟩
      · split
        · exact h
        · split
          · exact hrest
          · exact List.pairwise_cons.mpr ⟨hfirst, hrest⟩

theorem Tallies.removed (h : Tallies key l (v ::ₘ s)) (hv : ∀ e ∈ l, ComparesBy less key e.1 v)
    (hfits : 2 * holds key (v ::ₘ s) (key v) < 2 ^ w) : Tallies key (unbump less v l) s := by
  have hholds : ∀ o, holds key (v ::ₘ s) o = holds key s o + if key v = o then 1 else 0 :=
    holds_cons v s
  rw [hholds, if_pos rfl] at hfits
  have hcount : ∀ e ∈ l, key e.1 = key v → e.2 = BitVec.ofNat w (holds key s (key v) + 1) := by
    intro e he hkey
    rw [← multiplicity_of_mem h.sorted he, h.counts, hkey, hholds, if_pos rfl]
  have hmem : ∃ e ∈ l, key e.1 = key v := (h.keys _).mpr ⟨v, Multiset.mem_cons_self v s, rfl⟩
  refine ⟨sorted_unbump h.sorted, fun o => ?_, fun o => ?_⟩
  · rw [(unbump_read h.sorted hv hmem hcount hfits o).1, h.keys]
    constructor
    · rintro ⟨⟨x, hx, hxo⟩, hleft⟩
      rcases Multiset.mem_cons.mp hx with rfl | hx
      · obtain ⟨y, hy, hkey⟩ := Multiset.countP_pos.mp (Nat.pos_of_ne_zero (hleft hxo))
        exact ⟨y, hy, hkey.trans hxo⟩
      · exact ⟨x, hx, hxo⟩
    · rintro ⟨x, hx, rfl⟩
      refine ⟨⟨x, Multiset.mem_cons_of_mem hx, rfl⟩, fun hkey => ?_⟩
      exact (Multiset.countP_pos.mpr ⟨x, hx, hkey.symm⟩).ne'
  · rw [(unbump_read h.sorted hv hmem hcount hfits o).2, h.counts, hholds, BitVec.ofNat_add]
    by_cases ho : key v = o
    · rw [if_pos ho, if_pos ho]
      exact add_sub_cancel_right _ _
    · simp [ho]

/-! ## Readings -/

theorem Tallies.nil_iff (h : Tallies key l s) : l = [] ↔ s = 0 := by
  constructor
  · rintro rfl
    rw [Multiset.eq_zero_iff_forall_notMem]
    intro x hx
    obtain ⟨e, he, -⟩ := (h.keys (key x)).mpr ⟨x, hx, rfl⟩
    simp at he
  · rintro rfl
    rw [List.eq_nil_iff_forall_not_mem]
    intro e he
    obtain ⟨x, hx, -⟩ := (h.keys (key e.1)).mp ⟨e, he, rfl⟩
    simp at hx

theorem Tallies.head (h : Tallies key l s) (he : l.head? = some e) :
    (∃ x ∈ s, key x = key e.1) ∧ ∀ x ∈ s, key e.1 ≤ key x := by
  obtain ⟨rest, rfl⟩ := List.head?_eq_some_iff.mp he
  refine ⟨(h.keys _).mp ⟨e, List.mem_cons_self, rfl⟩, ?_⟩
  intro x hx
  obtain ⟨f, hf, heq⟩ := (h.keys (key x)).mpr ⟨x, hx, rfl⟩
  rw [← heq]
  rcases List.mem_cons.mp hf with rfl | hmem
  · exact le_refl _
  · exact ((List.pairwise_cons.mp h.sorted).1 f hmem).le

theorem Tallies.last (h : Tallies key l s) (he : l.getLast? = some e) :
    (∃ x ∈ s, key x = key e.1) ∧ ∀ x ∈ s, key x ≤ key e.1 := by
  obtain ⟨front, rfl⟩ := List.getLast?_eq_some_iff.mp he
  refine ⟨(h.keys _).mp ⟨e, by simp, rfl⟩, ?_⟩
  intro x hx
  obtain ⟨f, hf, heq⟩ := (h.keys (key x)).mpr ⟨x, hx, rfl⟩
  rw [← heq]
  rcases List.mem_append.mp hf with hmem | hmem
  · exact ((List.pairwise_append.mp h.sorted).2.2 f hmem e (by simp)).le
  · rw [List.mem_singleton.mp hmem]

theorem Tallies.length_eq (h : Tallies key l s) : l.length = (s.map key).toFinset.card := by
  have hnodup : (l.map fun e => key e.1).Nodup :=
    (List.pairwise_map.mpr h.sorted).imp fun hlt => hlt.ne
  have hset : (s.map key).toFinset = (l.map fun e => key e.1).toFinset := by
    ext o
    rw [Multiset.mem_toFinset, Multiset.mem_map, List.mem_toFinset, List.mem_map]
    exact (h.keys o).symm
  rw [hset, List.toFinset_card_of_nodup hnodup, List.length_map]

/-- The distinct values of a tally by the values themselves, in order. -/
theorem Tallies.keys_eq {l : List (κ × BitVec w)} {s : Multiset κ} (h : Tallies id l s) :
    l.map Prod.fst = s.dedup.sort (· ≤ ·) := by
  have hsorted : (l.map Prod.fst).Pairwise (· < ·) := List.pairwise_map.mpr h.sorted
  have hperm : (l.map Prod.fst).Perm (s.dedup.sort (· ≤ ·)) := by
    rw [← Multiset.coe_eq_coe, Multiset.sort_eq,
      Multiset.Nodup.ext (Multiset.coe_nodup.mpr (hsorted.imp fun hlt => hlt.ne)) s.nodup_dedup]
    intro o
    have hmem := h.keys o
    simp only [id, exists_eq_right] at hmem
    rw [Multiset.mem_coe, List.mem_map, Multiset.mem_dedup]
    exact hmem
  exact hperm.eq_of_pairwise' (hsorted.imp fun hlt => hlt.le) (Multiset.pairwise_sort _ _)

/-- A tally by the values themselves is that of its multiset alone. -/
theorem Tallies.eq_map {l : List (κ × BitVec w)} {s : Multiset κ} (h : Tallies id l s) :
    l = (s.dedup.sort (· ≤ ·)).map fun k => (k, BitVec.ofNat w (holds id s k)) := by
  rw [← h.keys_eq, List.map_map]
  refine (List.map_id l).symm.trans (List.map_congr_left fun e he => ?_)
  have hcount : multiplicity id l e.1 = e.2 := multiplicity_of_mem h.sorted he
  rw [Function.comp_apply, ← h.counts, hcount]
  rfl

/-- The values of a tally by the values themselves, in order, where the counts fit. -/
theorem Tallies.expand {l : List (κ × BitVec w)} {s : Multiset κ} (h : Tallies id l s)
    (hfits : ∀ o, 2 * holds id s o < 2 ^ w) :
    (l.flatMap fun e => List.replicate e.2.toInt.toNat e.1) = s.sort (· ≤ ·) := by
  have hread : ∀ o, (BitVec.ofNat w (holds id s o)).toInt.toNat = s.count o := by
    intro o
    rw [toInt_ofNat_of_fits (hfits o), Int.toNat_natCast, holds, Multiset.count]
    exact Multiset.countP_congr rfl fun x _ => propext eq_comm
  have hcount : ∀ (keys : List κ) (o : κ), keys.Nodup →
      (keys.flatMap fun k => List.replicate (s.count k) k).count o =
        if o ∈ keys then s.count o else 0 := by
    intro keys o hnodup
    induction keys with
    | nil => rfl
    | cons k rest ih =>
        obtain ⟨hnew, hrest⟩ := List.nodup_cons.mp hnodup
        rw [List.flatMap_cons, List.count_append, ih hrest, List.count_replicate]
        by_cases hk : k = o
        · subst hk
          simp [hnew]
        · simp [hk, Ne.symm hk]
  have hsorted : ∀ keys : List κ, keys.Pairwise (· ≤ ·) →
      (keys.flatMap fun k => List.replicate (s.count k) k).Pairwise (· ≤ ·) := by
    intro keys hkeys
    induction keys with
    | nil => exact List.Pairwise.nil
    | cons k rest ih =>
        obtain ⟨hfirst, hrest⟩ := List.pairwise_cons.mp hkeys
        rw [List.flatMap_cons, List.pairwise_append]
        refine ⟨List.pairwise_replicate.mpr (Or.inr (le_refl _)), ih hrest, ?_⟩
        intro x hx y hy
        obtain ⟨k', hk', hyk⟩ := List.mem_flatMap.mp hy
        rw [List.eq_of_mem_replicate hx, List.eq_of_mem_replicate hyk]
        exact hfirst k' hk'
  have hlist : (l.flatMap fun e => List.replicate e.2.toInt.toNat e.1) =
      (s.dedup.sort (· ≤ ·)).flatMap fun k => List.replicate (s.count k) k := by
    rw [h.eq_map, List.flatMap_map]
    simp only [hread]
  rw [hlist]
  have hperm : ((s.dedup.sort (· ≤ ·)).flatMap fun k => List.replicate (s.count k) k).Perm
      (s.sort (· ≤ ·)) := by
    rw [← Multiset.coe_eq_coe, Multiset.sort_eq]
    refine Multiset.ext.mpr fun o => ?_
    have hnodup : (s.dedup.sort (· ≤ ·)).Nodup := by
      rw [← Multiset.coe_nodup, Multiset.sort_eq]
      exact s.nodup_dedup
    rw [Multiset.coe_count, hcount _ o hnodup]
    split
    · rfl
    · rename_i hnone
      rw [Multiset.mem_sort, Multiset.mem_dedup] at hnone
      exact (Multiset.count_eq_zero.mpr hnone).symm
  exact hperm.eq_of_pairwise' (hsorted _ (Multiset.pairwise_sort _ _)) (Multiset.pairwise_sort _ _)

end

end Clink.Verified

import Clink.Ports.SemiAntiJoinNet
import Mathlib.Tactic.Abel

/-!
# The null-aware paths of the semi and anti joins

The four indexes of the null-aware operator tell the run (`NullInv`): the rows
with and without a NULL in their key with their status, which tuples came on
the right, and the right tuples with a NULL.  Each arrival is answered as it
should be and keeps the indexes true, on the in-memory maps and on the entry
partitions alike.
-/

namespace Clink.Ports.SemiAntiJoin

open Clink.Verified
open Clink.Ports.SqlRow

variable {V : Type} [DecidableEq V]

namespace SemiAntiJoinRowOp

variable {op : SemiAntiJoinRowOp} {as : List (Arrival V)}

/-! ## Tuples and masks -/

variable {row : Row V} {key : List V}

omit [DecidableEq V] in
theorem keyOf_eq_some_iff {cols : List Column} :
    keyOf row cols = some key ↔ maskedKeyOf row cols = maskedKeyFromExact key := by
  induction cols generalizing key with
  | nil => cases key <;> simp [keyOf, maskedKeyOf, maskedKeyFromExact]
  | cons col cols ih =>
      unfold maskedKeyOf maskedKeyFromExact at ih
      cases hcell : cell row col with
      | none => cases key <;> simp [keyOf, maskedKeyOf, maskedKeyFromExact, hcell]
      | some v =>
          cases key with
          | nil =>
              cases keyOf row cols <;>
                simp [keyOf, maskedKeyOf, maskedKeyFromExact, hcell, Option.bind_eq_some_iff]
          | cons w key =>
              simp only [keyOf, hcell, maskedKeyOf, maskedKeyFromExact, List.map_cons,
                List.cons.injEq, Option.some.injEq, ← ih]
              cases keyOf row cols <;> simp

omit [DecidableEq V] in
/-- Full tuples of one length agree only if they are equal. -/
theorem agrees_exact {a b : List V} (hlen : a.length = b.length) :
    Agrees (maskedKeyFromExact a) (maskedKeyFromExact b) ↔ a = b := by
  constructor
  · intro h
    apply List.ext_getElem?
    intro i
    by_cases hi : i < a.length
    · have hib : i < b.length := hlen ▸ hi
      rw [List.getElem?_eq_getElem hi, List.getElem?_eq_getElem hib]
      exact congrArg some
        (h i _ _ (by simp [maskedKeyFromExact, hi]) (by simp [maskedKeyFromExact, hib]))
    · rw [List.getElem?_eq_none (not_lt.mp hi), List.getElem?_eq_none (hlen ▸ not_lt.mp hi)]
  · rintro rfl i x y hx hy
    rw [hx] at hy
    simpa using hy

omit [DecidableEq V] in
theorem length_of_keyOf {cols : List Column} (h : keyOf row cols = some key) :
    key.length = cols.length := by
  have hmask := congrArg List.length (keyOf_eq_some_iff.mp h)
  simpa [maskedKeyOf, maskedKeyFromExact] using hmask.symm

variable {l r : Row V}

omit [DecidableEq V] in
/-- Between rows without a NULL every kind compares the tuples. -/
theorem hits_exact {key' : List V} (hl : keyOf l op.leftKeyColumns = some key)
    (hr : keyOf r op.rightKeyColumns = some key') : op.Hits l r ↔ key = key' := by
  unfold Hits
  by_cases haware : op.anti = true ∧ op.nullAware = true
  · have hlen : key.length = key'.length := by
      rw [length_of_keyOf hl, length_of_keyOf hr, op.arity]
    rw [if_pos haware, keyOf_eq_some_iff.mp hl, keyOf_eq_some_iff.mp hr, agrees_exact hlen]
  · rw [if_neg haware, hl, hr]
    simp

omit [DecidableEq V] in
theorem hits_of_null
    (hnull : keyOf l op.leftKeyColumns = none ∨ keyOf r op.rightKeyColumns = none) :
    op.Hits l r ↔ (op.anti = true ∧ op.nullAware = true) ∧
      Agrees (maskedKeyOf l op.leftKeyColumns) (maskedKeyOf r op.rightKeyColumns) := by
  unfold Hits
  by_cases haware : op.anti = true ∧ op.nullAware = true
  · rw [if_pos haware, and_iff_right haware]
  · rw [if_neg haware]
    refine iff_of_false ?_ fun h => haware h.1
    rintro ⟨heq, hne⟩
    rcases hnull with hl | hr
    · exact hne hl
    · exact hne (heq.trans hr)

omit [DecidableEq V] in
theorem hits_aware (haware : op.anti = true ∧ op.nullAware = true) (l r : Row V) :
    op.Hits l r ↔
      Agrees (maskedKeyOf l op.leftKeyColumns) (maskedKeyOf r op.rightKeyColumns) := by
  unfold Hits
  rw [if_pos haware]

omit [DecidableEq V] in
/-- Right rows with the same mask decide over the same rows. -/
theorem hits_congr {r' : Row V}
    (hmask : maskedKeyOf r op.rightKeyColumns = maskedKeyOf r' op.rightKeyColumns) :
    op.Hits l r ↔ op.Hits l r' := by
  have hkey : keyOf r op.rightKeyColumns = keyOf r' op.rightKeyColumns := by
    apply Option.ext
    intro key
    rw [keyOf_eq_some_iff, keyOf_eq_some_iff, hmask]
  unfold Hits
  rw [hmask, hkey]

/-! ## The indexes -/

/-- The tuple of an entry of the exact index. -/
def entryKey (op : SemiAntiJoinRowOp) (e : LeftEntry V) : List V :=
  (keyOf e.row op.leftKeyColumns).getD []

/-- The indexes tell the run. -/
structure NullInv (op : SemiAntiJoinRowOp) (st : NullAware V) (as : List (Arrival V)) : Prop where
  keyed : Buckets.Keyed op.entryKey st.leftState
  rows : (Buckets.content st.leftState).map LeftEntry.row =
    (↑(lefts as) : Multiset (Row V)).filter fun l => keyOf l op.leftKeyColumns ≠ none
  emitted : ∀ e ∈ Buckets.content st.leftState, e.emitted = decide (op.Qualifies (rights as) e.row)
  probeRows : (↑(st.nullProbes.map NaProbe.row) : Multiset (Row V)) =
    (↑(lefts as) : Multiset (Row V)).filter fun l =>
      (op.anti = true ∧ op.nullAware = true) ∧ keyOf l op.leftKeyColumns = none
  probeKey : ∀ p ∈ st.nullProbes, p.key = maskedKeyOf p.row op.leftKeyColumns
  probeEmitted : ∀ p ∈ st.nullProbes, p.emitted = decide (op.Qualifies (rights as) p.row)
  count : ∀ key, 0 < countOf st key ↔ ∃ r ∈ rights as, keyOf r op.rightKeyColumns = some key
  nullRight : ∀ rk, rk ∈ st.nullRights ↔ op.nullAware = true ∧
    ∃ r ∈ rights as, keyOf r op.rightKeyColumns = none ∧ maskedKeyOf r op.rightKeyColumns = rk

theorem nullInv_nil (op : SemiAntiJoinRowOp) : op.NullInv ({} : NullAware V) [] where
  keyed := Buckets.keyed_empty
  rows := rfl
  emitted := by simp
  probeRows := rfl
  probeKey := by simp
  probeEmitted := by simp
  count := by simp [countOf, rights]
  nullRight := by simp [rights]

variable {st : NullAware V}

theorem NullInv.keyOf_entry (h : op.NullInv st as) {e : LeftEntry V}
    (he : e ∈ Buckets.content st.leftState) :
    keyOf e.row op.leftKeyColumns = some (op.entryKey e) := by
  have hmem : e.row ∈ (Buckets.content st.leftState).map LeftEntry.row :=
    Multiset.mem_map_of_mem _ he
  rw [h.rows] at hmem
  obtain ⟨key, hkey⟩ := Option.ne_none_iff_exists'.mp (Multiset.mem_filter.mp hmem).2
  rw [entryKey, hkey]
  rfl

omit [DecidableEq V] in
theorem qualifies_iff (rs : List (Row V)) (l : Row V) :
    op.Qualifies rs l ↔ if op.anti then ¬ ∃ r ∈ rs, op.Hits l r else ∃ r ∈ rs, op.Hits l r := by
  unfold Qualifies
  simp only [not_exists, not_and]

section

variable (h : op.NullInv st as)
include h

theorem NullInv.nullRightMatches_iff (hanti : op.anti = true) (l : Row V) :
    naNullRightMatches st (maskedKeyOf l op.leftKeyColumns) = true ↔
      ∃ r ∈ rights as, keyOf r op.rightKeyColumns = none ∧ op.Hits l r := by
  simp only [naNullRightMatches, List.any_eq_true, h.nullRight, potentialMatch_iff]
  constructor
  · rintro ⟨rk, ⟨haware, r, hr, hnull, rfl⟩, hagrees⟩
    exact ⟨r, hr, hnull, (hits_of_null (Or.inr hnull)).mpr ⟨⟨hanti, haware⟩, hagrees⟩⟩
  · rintro ⟨r, hr, hnull, hhits⟩
    obtain ⟨haware, hagrees⟩ := (hits_of_null (Or.inr hnull)).mp hhits
    exact ⟨_, ⟨haware.2, r, hr, hnull, rfl⟩, hagrees⟩

/-- The right tuples without a NULL that decide over a row without one. -/
theorem NullInv.countOf_iff (hkey : keyOf l op.leftKeyColumns = some key) :
    0 < countOf st key ↔ ∃ r ∈ rights as, keyOf r op.rightKeyColumns ≠ none ∧ op.Hits l r := by
  rw [h.count]
  constructor
  · rintro ⟨r, hr, hrkey⟩
    exact ⟨r, hr, by simp [hrkey], (hits_exact hkey hrkey).mpr rfl⟩
  · rintro ⟨r, hr, hne, hhits⟩
    obtain ⟨key', hkey'⟩ := Option.ne_none_iff_exists'.mp hne
    rw [(hits_exact hkey hkey').mp hhits]
    exact ⟨r, hr, hkey'⟩

/-- The indexes decide the status of a row without a NULL. -/
theorem NullInv.qualifies_exact (hkey : keyOf l op.leftKeyColumns = some key) :
    op.Qualifies (rights as) l ↔ if op.anti then
      ¬ 0 < countOf st key ∧ ¬ naNullRightMatches st (maskedKeyOf l op.leftKeyColumns) = true
      else 0 < countOf st key := by
  rw [qualifies_iff, h.countOf_iff hkey]
  cases hanti : op.anti with
  | true =>
      rw [if_pos rfl, if_pos rfl, h.nullRightMatches_iff hanti, ← not_or]
      refine not_congr ⟨?_, ?_⟩
      · rintro ⟨r, hr, hhits⟩
        by_cases hnull : keyOf r op.rightKeyColumns = none
        · exact Or.inr ⟨r, hr, hnull, hhits⟩
        · exact Or.inl ⟨r, hr, hnull, hhits⟩
      · rintro (⟨r, hr, -, hhits⟩ | ⟨r, hr, -, hhits⟩)
        · exact ⟨r, hr, hhits⟩
        · exact ⟨r, hr, hhits⟩
  | false =>
      rw [if_neg Bool.false_ne_true, if_neg Bool.false_ne_true]
      constructor
      · rintro ⟨r, hr, hhits⟩
        refine ⟨r, hr, ?_, hhits⟩
        intro hnull
        have haware := ((hits_of_null (Or.inr hnull)).mp hhits).1.1
        rw [hanti] at haware
        exact Bool.false_ne_true haware
      · rintro ⟨r, hr, -, hhits⟩
        exact ⟨r, hr, hhits⟩

/-- The scan over all right tuples decides the status of a probe with a NULL. -/
theorem NullInv.qualifies_probe (haware : op.anti = true ∧ op.nullAware = true)
    (hnull : keyOf l op.leftKeyColumns = none) :
    op.Qualifies (rights as) l ↔
      naProbeHasRightMatch st (maskedKeyOf l op.leftKeyColumns) = false := by
  rw [qualifies_iff, if_pos haware.1, ← Bool.not_eq_true]
  refine not_congr ?_
  rw [naProbeHasRightMatch, Bool.or_eq_true, h.nullRightMatches_iff haware.1, List.any_eq_true]
  constructor
  · rintro ⟨r, hr, hhits⟩
    cases hkey : keyOf r op.rightKeyColumns with
    | none => exact Or.inr ⟨r, hr, hkey, hhits⟩
    | some key =>
        have hpos : 0 < countOf st key := (h.count key).mpr ⟨r, hr, hkey⟩
        obtain ⟨n, hlookup⟩ : ∃ n, st.rightCount.lookup key = some n := by
          cases hn : st.rightCount.lookup key with
          | none => simp [countOf, hn] at hpos
          | some n => exact ⟨n, rfl⟩
        have hagrees := ((hits_of_null (Or.inl hnull)).mp hhits).2
        rw [keyOf_eq_some_iff.mp hkey] at hagrees
        refine Or.inl ⟨⟨key, n⟩, List.of_mem_dlookup hlookup, ?_⟩
        rw [countOf, hlookup, Option.getD_some] at hpos
        rw [Bool.and_eq_true, decide_eq_true_iff, potentialMatch_iff]
        exact ⟨hpos, hagrees⟩
  · rintro (⟨e, he, hmatch⟩ | ⟨r, hr, -, hhits⟩)
    · rw [Bool.and_eq_true, decide_eq_true_iff, potentialMatch_iff] at hmatch
      have hlookup : st.rightCount.lookup e.1 = some e.2 :=
        List.mem_dlookup st.rightCount.nodupKeys he
      have hpos : 0 < countOf st e.1 := by
        rw [countOf, hlookup]
        exact hmatch.1
      obtain ⟨r, hr, hkey⟩ := (h.count e.1).mp hpos
      refine ⟨r, hr, (hits_of_null (Or.inl hnull)).mpr ⟨haware, ?_⟩⟩
      rw [keyOf_eq_some_iff.mp hkey]
      exact hmatch.2
    · exact ⟨r, hr, hhits⟩

/-! ## Left rows -/

/-- A left row without a NULL, with the flag its status asks for. -/
theorem NullInv.append (hkey : keyOf row op.leftKeyColumns = some key) :
    op.NullInv
      { st with
        leftState := st.leftState.insert key
          (st.leftState.bucket key ++ [⟨row, decide (op.Qualifies (rights as) row)⟩]) }
      (as ++ [⟨true, row⟩]) := by
  have hlefts : lefts (as ++ [⟨true, row⟩]) = lefts as ++ [row] := lefts_snoc as ⟨true, row⟩
  have hrights : rights (as ++ [⟨true, row⟩]) = rights as := by
    rw [rights_snoc]
    simp
  have hcontent : Buckets.content (st.leftState.insert key
      (st.leftState.bucket key ++ [⟨row, decide (op.Qualifies (rights as) row)⟩])) =
        Buckets.content st.leftState + {⟨row, decide (op.Qualifies (rights as) row)⟩} := by
    rw [Buckets.content_insert, Buckets.content_split st.leftState key, ← Multiset.coe_add,
      Multiset.coe_singleton]
    abel
  refine ⟨?_, ?_, ?_, ?_, h.probeKey, ?_, ?_, ?_⟩
  · apply h.keyed.insert
    intro e he
    rcases List.mem_append.mp he with hold | hnew
    · exact h.keyed key e hold
    · rw [List.mem_singleton.mp hnew, entryKey, hkey]
      rfl
  · rw [hcontent, hlefts, ← Multiset.coe_add, Multiset.filter_add, Multiset.map_add, h.rows,
      Multiset.map_singleton, Multiset.coe_singleton, Multiset.filter_singleton,
      if_pos (by simp [hkey])]
  · intro e he
    rw [hrights]
    rw [hcontent] at he
    rcases Multiset.mem_add.mp he with hold | hnew
    · exact h.emitted e hold
    · rw [Multiset.mem_singleton.mp hnew]
  · rw [hlefts, ← Multiset.coe_add, Multiset.filter_add, h.probeRows]
    simp [Multiset.filter_singleton, hkey]
  · rw [hrights]
    exact h.probeEmitted
  · rw [hrights]
    exact h.count
  · rw [hrights]
    exact h.nullRight

private theorem NullInv.nullProbe (hnull : keyOf row op.leftKeyColumns = none) :
    op.Answers as ⟨true, row⟩ (op.handleNullProbe st row).2 ∧
      op.NullInv (op.handleNullProbe st row).1 (as ++ [⟨true, row⟩]) := by
  have hlefts : lefts (as ++ [⟨true, row⟩]) = lefts as ++ [row] := lefts_snoc as ⟨true, row⟩
  have hrights : rights (as ++ [⟨true, row⟩]) = rights as := by
    rw [rights_snoc]
    simp
  have hrows : (Buckets.content st.leftState).map LeftEntry.row =
      (↑(lefts (as ++ [⟨true, row⟩])) : Multiset (Row V)).filter
        fun l => keyOf l op.leftKeyColumns ≠ none := by
    rw [hlefts, ← Multiset.coe_add, Multiset.filter_add, h.rows]
    simp [hnull]
  by_cases haware : op.anti = true ∧ op.nullAware = true
  · have hmatched : (!naProbeHasRightMatch st (maskedKeyOf row op.leftKeyColumns)) =
        decide (op.Qualifies (rights as) row) := by
      rw [Bool.eq_iff_iff, decide_eq_true_iff, h.qualifies_probe haware hnull, Bool.not_eq_true']
    simp only [handleNullProbe, haware, Bool.not_true, Bool.and_false, Bool.false_eq_true, if_false,
      Bool.and_self, if_true, hmatched]
    constructor
    · simp only [Answers, if_true, decide_eq_true_iff]
    refine ⟨h.keyed, hrows, ?_, ?_, ?_, ?_, ?_, ?_⟩
    · rw [hrights]
      exact h.emitted
    · rw [hlefts, ← Multiset.coe_add, Multiset.filter_add, List.map_append, ← Multiset.coe_add,
        h.probeRows]
      simp [hnull, haware]
    · intro p hp
      rcases List.mem_append.mp hp with hold | hnew
      · exact h.probeKey p hold
      · rw [List.mem_singleton.mp hnew]
    · intro p hp
      rw [hrights]
      rcases List.mem_append.mp hp with hold | hnew
      · exact h.probeEmitted p hold
      · rw [List.mem_singleton.mp hnew]
    · rw [hrights]
      exact h.count
    · rw [hrights]
      exact h.nullRight
  · -- Nothing decides over the row: NOT EXISTS emits it, IN and EXISTS do not.
    have hstatus : op.Qualifies (rights as) row ↔ op.anti = true := by
      have hnone : ¬ ∃ r ∈ rights as, op.Hits row r := by
        rintro ⟨r, -, hhits⟩
        exact haware ((hits_of_null (Or.inl hnull)).mp hhits).1
      rw [qualifies_iff]
      cases op.anti <;> simp [hnone]
    have hstep : op.handleNullProbe st row = (st, if op.anti then [.insert row] else []) := by
      unfold handleNullProbe
      cases hanti : op.anti <;> cases hnullAware : op.nullAware <;> simp_all
    rw [hstep]
    constructor
    · simp only [Answers, if_true, hstatus]
    refine ⟨h.keyed, hrows, ?_, ?_, h.probeKey, ?_, ?_, ?_⟩
    · rw [hrights]
      exact h.emitted
    · rw [hlefts, ← Multiset.coe_add, Multiset.filter_add, h.probeRows]
      simp [haware]
    · rw [hrights]
      exact h.probeEmitted
    · rw [hrights]
      exact h.count
    · rw [hrights]
      exact h.nullRight

theorem NullInv.nullRightMatches_plain (hplain : op.nullAware = false) (pk : MaskedKey V) :
    naNullRightMatches st pk = false := by
  rw [naNullRightMatches, List.any_eq_false]
  intro rk hrk
  have haware := ((h.nullRight rk).mp hrk).1
  rw [hplain] at haware
  exact absurd haware Bool.false_ne_true

theorem NullInv.left (row : Row V) :
    op.Answers as ⟨true, row⟩ (op.handleLeftLoaded st row).2 ∧
      op.NullInv (op.handleLeftLoaded st row).1 (as ++ [⟨true, row⟩]) := by
  cases hkey : keyOf row op.leftKeyColumns with
  | none =>
      simp only [handleLeftLoaded, hkey]
      exact h.nullProbe hkey
  | some key =>
      have hstatus : (if !op.anti then decide (countOf st key > 0)
          else decide (countOf st key = 0) && (!op.nullAware ||
            !naNullRightMatches st (maskedKeyOf row op.leftKeyColumns))) =
          decide (op.Qualifies (rights as) row) := by
        rw [Bool.eq_iff_iff, decide_eq_true_iff, h.qualifies_exact hkey]
        cases op.anti <;> cases hplain : op.nullAware <;> simp [h.nullRightMatches_plain, hplain]
      simp only [handleLeftLoaded, hkey, hstatus]
      refine ⟨?_, h.append hkey⟩
      simp only [Answers, if_true, decide_eq_true_iff]

/-- The entry partitions know the same flag before they append. -/
theorem NullInv.handleLeftEntries_eq (row : Row V) :
    op.handleLeftEntries st row = op.handleLeftLoaded st row := by
  cases hkey : keyOf row op.leftKeyColumns with
  | none => simp only [handleLeftEntries, handleLeftLoaded, hkey]
  | some key =>
      have hflag : (if op.anti = true then !decide (countOf st key > 0) &&
            !naNullRightMatches st (maskedKeyOf row op.leftKeyColumns)
          else decide (countOf st key > 0)) =
          if !op.anti then decide (countOf st key > 0)
          else decide (countOf st key = 0) && (!op.nullAware ||
            !naNullRightMatches st (maskedKeyOf row op.leftKeyColumns)) := by
        rw [Bool.eq_iff_iff]
        cases op.anti <;> cases hplain : op.nullAware <;> simp [h.nullRightMatches_plain, hplain]
      simp only [handleLeftEntries, handleLeftLoaded, hkey, hflag]

/-! ## Right rows -/

/-- Only NOT IN keeps probes, and they have a NULL. -/
theorem NullInv.probe_of_mem {p : NaProbe V} (hp : p ∈ st.nullProbes) :
    (op.anti = true ∧ op.nullAware = true) ∧ keyOf p.row op.leftKeyColumns = none := by
  have hmem : p.row ∈ (↑(st.nullProbes.map NaProbe.row) : Multiset (Row V)) :=
    List.mem_map_of_mem hp
  rw [h.probeRows] at hmem
  exact (Multiset.mem_filter.mp hmem).2

theorem NullInv.changed (row : Row V) :
    (↑(lefts as) : Multiset (Row V)).filter (fun l =>
      (op.Qualifies (rights as) l ↔ op.anti = true) ∧ op.Hits l row) =
    ((Buckets.content st.leftState).filter fun e =>
      e.emitted = op.anti ∧ op.Hits e.row row).map LeftEntry.row +
    ↑((st.nullProbes.filter fun p => p.emitted &&
      potentialMatch p.key (maskedKeyOf row op.rightKeyColumns)).map NaProbe.row) := by
  have hexact : ((Buckets.content st.leftState).filter fun e =>
      e.emitted = op.anti ∧ op.Hits e.row row).map LeftEntry.row =
      ((↑(lefts as) : Multiset (Row V)).filter fun l => keyOf l op.leftKeyColumns ≠ none).filter
        fun l => (op.Qualifies (rights as) l ↔ op.anti = true) ∧ op.Hits l row := by
    rw [← h.rows, Multiset.filter_map]
    congr 1
    apply Multiset.filter_congr
    intro e he
    rw [Function.comp_apply, h.emitted e he, Bool.eq_iff_iff, decide_eq_true_iff]
  have hprobe : (↑((st.nullProbes.filter fun p => p.emitted &&
      potentialMatch p.key (maskedKeyOf row op.rightKeyColumns)).map NaProbe.row) :
        Multiset (Row V)) =
      ((↑(lefts as) : Multiset (Row V)).filter fun l =>
        (op.anti = true ∧ op.nullAware = true) ∧ keyOf l op.leftKeyColumns = none).filter
          fun l => (op.Qualifies (rights as) l ↔ op.anti = true) ∧ op.Hits l row := by
    rw [← h.probeRows, ← Multiset.map_coe, ← Multiset.map_coe, Multiset.filter_map,
      Buckets.coe_filter]
    congr 1
    apply Multiset.filter_congr
    intro p hp
    obtain ⟨haware, hnull⟩ := h.probe_of_mem hp
    rw [Function.comp_apply, h.probeEmitted p hp, h.probeKey p hp, Bool.and_eq_true,
      decide_eq_true_iff, potentialMatch_iff, hits_of_null (Or.inl hnull), and_iff_right haware,
      haware.1]
    simp
  have hsplit := Multiset.filter_add_not (fun l => keyOf l op.leftKeyColumns ≠ none)
    ((↑(lefts as) : Multiset (Row V)).filter fun l =>
      (op.Qualifies (rights as) l ↔ op.anti = true) ∧ op.Hits l row)
  rw [hexact, hprobe, ← hsplit, Multiset.filter_comm]
  congr 1
  rw [Multiset.filter_filter, Multiset.filter_filter]
  apply Multiset.filter_congr
  intro l _
  constructor
  · rintro ⟨hnull, hq, hhits⟩
    have hnull := not_not.mp hnull
    exact ⟨⟨hq, hhits⟩, ((hits_of_null (Or.inl hnull)).mp hhits).1, hnull⟩
  · rintro ⟨hl, -, hnull⟩
    exact ⟨not_not_intro hnull, hl⟩

/-- A right row that has the flags of both indexes set to the new status. -/
theorem NullInv.updated {st' : NullAware V}
    {g : LeftEntry V → LeftEntry V} {f : NaProbe V → NaProbe V}
    (hkeyed : Buckets.Keyed op.entryKey st'.leftState)
    (hcontent : Buckets.content st'.leftState = (Buckets.content st.leftState).map g)
    (hg : ∀ e ∈ Buckets.content st.leftState,
      g e = ⟨e.row, decide (op.Qualifies (rights as ++ [row]) e.row)⟩)
    (hprobes : st'.nullProbes = st.nullProbes.map f)
    (hf : ∀ p ∈ st.nullProbes,
      f p = ⟨p.row, p.key, decide (op.Qualifies (rights as ++ [row]) p.row)⟩)
    (hcount : ∀ key, 0 < countOf st' key ↔
      ∃ r ∈ rights as ++ [row], keyOf r op.rightKeyColumns = some key)
    (hnullRight : ∀ rk, rk ∈ st'.nullRights ↔ op.nullAware = true ∧ ∃ r ∈ rights as ++ [row],
      keyOf r op.rightKeyColumns = none ∧ maskedKeyOf r op.rightKeyColumns = rk) :
    op.NullInv st' (as ++ [⟨false, row⟩]) := by
  have hlefts : lefts (as ++ [⟨false, row⟩]) = lefts as := by
    rw [lefts_snoc]
    simp
  have hrights : rights (as ++ [⟨false, row⟩]) = rights as ++ [row] := rights_snoc as ⟨false, row⟩
  refine ⟨hkeyed, ?_, ?_, ?_, ?_, ?_, ?_, ?_⟩
  · rw [hlefts, ← h.rows, hcontent, Multiset.map_map]
    apply Multiset.map_congr rfl
    intro e he
    rw [Function.comp_apply, hg e he]
  · intro e he
    rw [hcontent] at he
    obtain ⟨e', he', rfl⟩ := Multiset.mem_map.mp he
    rw [hg e' he', hrights]
  · rw [hlefts, ← h.probeRows, hprobes, List.map_map]
    congr 1
    apply List.map_congr_left
    intro p hp
    rw [Function.comp_apply, hf p hp]
  · intro p hp
    rw [hprobes] at hp
    obtain ⟨p', hp', rfl⟩ := List.mem_map.mp hp
    rw [hf p' hp']
    exact h.probeKey p' hp'
  · intro p hp
    rw [hprobes] at hp
    obtain ⟨p', hp', rfl⟩ := List.mem_map.mp hp
    rw [hf p' hp', hrights]
  · rw [hrights]
    exact hcount
  · rw [hrights]
    exact hnullRight

omit h in
theorem poisoned_flag (haware : op.anti = true ∧ op.nullAware = true) {emitted : Bool}
    (hflag : emitted = decide (op.Qualifies (rights as) l)) :
    decide (op.Qualifies (rights as ++ [row]) l) = if emitted && potentialMatch
      (maskedKeyOf l op.leftKeyColumns) (maskedKeyOf row op.rightKeyColumns) then false
      else emitted := by
  by_cases hhits : op.Hits l row
  · have hafter : ¬ op.Qualifies (rights as ++ [row]) l := by
      rw [qualifies_snoc_of_hit hhits, haware.1]
      exact Bool.noConfusion
    rw [decide_eq_false hafter]
    rw [hits_aware haware, ← potentialMatch_iff] at hhits
    rw [hhits]
    cases emitted <;> rfl
  · rw [decide_eq_decide.mpr (qualifies_snoc_of_miss hhits), ← hflag]
    rw [hits_aware haware, ← potentialMatch_iff, Bool.not_eq_true] at hhits
    rw [hhits]
    simp

/-- The sweep over both indexes for a new right tuple. -/
theorem NullInv.poisoned
    (haware : op.anti = true ∧ op.nullAware = true) (row : Row V) (nullRights : List (MaskedKey V))
    (hcount : ∀ key, 0 < countOf st key ↔
      ∃ r ∈ rights as ++ [row], keyOf r op.rightKeyColumns = some key)
    (hnullRight : ∀ rk, rk ∈ nullRights ↔ op.nullAware = true ∧ ∃ r ∈ rights as ++ [row],
      keyOf r op.rightKeyColumns = none ∧ maskedKeyOf r op.rightKeyColumns = rk) :
    op.Answers as ⟨false, row⟩ (op.retractPoisoned { st with nullRights := nullRights }
        (maskedKeyOf row op.rightKeyColumns)).2 ∧
      op.NullInv (op.retractPoisoned { st with nullRights := nullRights }
        (maskedKeyOf row op.rightKeyColumns)).1 (as ++ [⟨false, row⟩]) := by
  let hit : Row V → Bool := fun l =>
    potentialMatch (maskedKeyOf l op.leftKeyColumns) (maskedKeyOf row op.rightKeyColumns)
  let picked : LeftEntry V → Bool := fun e => e.emitted && hit e.row
  let swept : List (Row V) :=
    st.leftState.entries.flatMap (fun e => (e.2.filter picked).map LeftEntry.row) ++
      (st.nullProbes.filter fun p => p.emitted &&
        potentialMatch p.key (maskedKeyOf row op.rightKeyColumns)).map NaProbe.row
  constructor
  · have hbatch : (op.retractPoisoned { st with nullRights := nullRights }
        (maskedKeyOf row op.rightKeyColumns)).2 =
        swept.map (if op.anti then .delete else .insert) := by
      simp only [retractPoisoned, poison, poisonProbes, swept, picked, hit, haware.1, if_true,
        List.map_append, List.map_flatMap, List.map_map]
      rfl
    rw [hbatch]
    apply answers_of_changed
    rw [h.changed row, ← Multiset.coe_add, Buckets.coe_flatMap_filter]
    congr 2
    apply Multiset.filter_congr
    intro e _
    rw [hits_aware haware, ← potentialMatch_iff, Bool.and_eq_true, haware.1]
  · refine h.updated (g := fun e => if picked e then { e with emitted := false } else e)
      (f := fun p => if p.emitted && potentialMatch p.key (maskedKeyOf row op.rightKeyColumns)
        then { p with emitted := false } else p) ?_ ?_ ?_ rfl ?_ hcount hnullRight
    · apply h.keyed.visit_map
      intro e
      simp only [entryKey]
      split <;> rfl
    · exact Buckets.content_visit_map _ _
    · intro e he
      rw [poisoned_flag haware (h.emitted e he)]
      simp only [picked, hit]
      split <;> rfl
    · intro p hp
      rw [poisoned_flag haware (h.probeEmitted p hp), ← h.probeKey p hp]
      split <;> rfl

theorem NullInv.silent {st' : NullAware V}
    (hsame : ∀ l, op.Hits l row → ∃ r' ∈ rights as, op.Hits l r')
    (hleft : st'.leftState = st.leftState) (hprobes : st'.nullProbes = st.nullProbes)
    (hcount : ∀ key, 0 < countOf st' key ↔
      ∃ r ∈ rights as ++ [row], keyOf r op.rightKeyColumns = some key)
    (hnullRight : ∀ rk, rk ∈ st'.nullRights ↔ op.nullAware = true ∧ ∃ r ∈ rights as ++ [row],
      keyOf r op.rightKeyColumns = none ∧ maskedKeyOf r op.rightKeyColumns = rk) :
    op.Answers as ⟨false, row⟩ [] ∧ op.NullInv st' (as ++ [⟨false, row⟩]) := by
  refine ⟨answers_silent hsame, h.updated (g := id) (f := id) ?_ ?_ ?_ ?_ ?_ hcount hnullRight⟩
  · rw [hleft]
    exact h.keyed
  · rw [hleft, Multiset.map_id]
  · intro e he
    simp only [qualifies_snoc_of_same hsame, ← h.emitted e he, id]
  · rw [hprobes, List.map_id]
  · intro p hp
    simp only [qualifies_snoc_of_same hsame, ← h.probeEmitted p hp, id]

private theorem NullInv.count_insert (hkey : keyOf row op.rightKeyColumns = some key)
    (key' : List V) :
    0 < ((st.rightCount.insert key (countOf st key + 1)).lookup key').getD 0 ↔
      ∃ r ∈ rights as ++ [row], keyOf r op.rightKeyColumns = some key' := by
  by_cases hk : key' = key
  · subst hk
    rw [AList.lookup_insert]
    exact iff_of_true (by simp) ⟨row, by simp, hkey⟩
  · have hold := h.count key'
    rw [countOf] at hold
    rw [AList.lookup_insert_ne hk, hold]
    simp [hkey, Ne.symm hk]

private theorem NullInv.nullRight_of_some (row : Row V)
    (hkey : keyOf row op.rightKeyColumns ≠ none) (rk : MaskedKey V) :
    rk ∈ st.nullRights ↔ op.nullAware = true ∧ ∃ r ∈ rights as ++ [row],
      keyOf r op.rightKeyColumns = none ∧ maskedKeyOf r op.rightKeyColumns = rk := by
  rw [h.nullRight]
  simp [hkey]

private theorem NullInv.rightNull (hnull : keyOf row op.rightKeyColumns = none) :
    op.Answers as ⟨false, row⟩ (op.handleRightLoaded st row).2 ∧
      op.NullInv (op.handleRightLoaded st row).1 (as ++ [⟨false, row⟩]) := by
  have hcount : ∀ key, 0 < countOf st key ↔
      ∃ r ∈ rights as ++ [row], keyOf r op.rightKeyColumns = some key := by
    intro key
    rw [h.count]
    simp [hnull]
  simp only [handleRightLoaded, hnull]
  cases haware : op.nullAware with
  | false =>
      rw [if_pos (by rfl)]
      refine h.silent ?_ rfl rfl hcount ?_
      · intro l hhits
        have hboth := ((hits_of_null (Or.inr hnull)).mp hhits).1.2
        rw [haware] at hboth
        exact absurd hboth Bool.false_ne_true
      · intro rk
        rw [h.nullRight, haware]
        simp
  | true =>
      rw [if_neg (by simp)]
      by_cases hseen : maskedKeyOf row op.rightKeyColumns ∈ st.nullRights
      · rw [if_pos hseen]
        obtain ⟨-, r', hr', hnull', hmask⟩ := (h.nullRight _).mp hseen
        refine h.silent ?_ rfl rfl hcount ?_
        · intro l hhits
          exact ⟨r', hr', (hits_congr hmask).mpr hhits⟩
        · intro rk
          rw [h.nullRight]
          constructor
          · rintro ⟨_, r, hr, hrow⟩
            exact ⟨haware, r, List.mem_append_left _ hr, hrow⟩
          · rintro ⟨_, r, hr, hrow⟩
            refine ⟨haware, ?_⟩
            rcases List.mem_append.mp hr with hold | hnew
            · exact ⟨r, hold, hrow⟩
            · rw [List.mem_singleton.mp hnew] at hrow
              exact ⟨r', hr', hnull', hmask.trans hrow.2⟩
      · rw [if_neg hseen]
        have hnullRight : ∀ rk, rk ∈ st.nullRights ++ [maskedKeyOf row op.rightKeyColumns] ↔
            op.nullAware = true ∧ ∃ r ∈ rights as ++ [row],
              keyOf r op.rightKeyColumns = none ∧ maskedKeyOf r op.rightKeyColumns = rk := by
          intro rk
          rw [List.mem_append, h.nullRight, List.mem_singleton]
          simp [haware, hnull, or_and_right, exists_or, eq_comm]
        cases hanti : op.anti with
        | false =>
            rw [if_neg Bool.false_ne_true]
            refine h.silent ?_ rfl rfl hcount hnullRight
            intro l hhits
            have hboth := ((hits_of_null (Or.inr hnull)).mp hhits).1.1
            rw [hanti] at hboth
            exact absurd hboth Bool.false_ne_true
        | true =>
            rw [if_pos rfl]
            exact h.poisoned ⟨hanti, haware⟩ row _ hcount hnullRight

/-- The first right row of a tuple on the exact index: the rows of the tuple end
alike. -/
theorem NullInv.transitioned (key : List V) :
    let s := if key ∈ st.leftState then
        st.leftState.insert key
          ((st.leftState.bucket key).map fun e => { e with emitted := !op.anti })
      else st.leftState
    Buckets.Keyed op.entryKey s ∧ Buckets.content s = (Buckets.content st.leftState).map fun e =>
      if op.entryKey e = key then { e with emitted := !op.anti } else e := by
  intro s
  by_cases hmem : key ∈ st.leftState
  · have hs : s = st.leftState.insert key
        ((st.leftState.bucket key).map fun e => { e with emitted := !op.anti }) := if_pos hmem
    rw [hs]
    constructor
    · apply h.keyed.insert
      intro e he
      obtain ⟨e', he', rfl⟩ := List.mem_map.mp he
      exact h.keyed key e' he'
    · apply h.keyed.content_insert_map
      · intro e he
        rw [if_pos he]
      · intro e he
        rw [if_neg he]
  · have hs : s = st.leftState := if_neg hmem
    rw [hs]
    refine ⟨h.keyed, ?_⟩
    conv_lhs => rw [← Multiset.map_id (Buckets.content st.leftState)]
    apply Multiset.map_congr rfl
    intro e he
    have hne : op.entryKey e ≠ key := by
      intro heq
      obtain ⟨k, hek⟩ := Buckets.mem_content.mp he
      have hk := h.keyed k e hek
      rw [← hk, heq, Buckets.bucket, AList.lookup_eq_none.mpr hmem] at hek
      simp at hek
    rw [if_neg hne]
    rfl

/-- The first right row of a tuple: the exact index and the probes. -/
theorem NullInv.handleRightLoaded_first (hkey : keyOf row op.rightKeyColumns = some key)
    (hbefore : countOf st key = 0) :
    op.handleRightLoaded st row =
      (⟨if key ∈ st.leftState then st.leftState.insert key
            ((st.leftState.bucket key).map fun e => { e with emitted := !op.anti })
          else st.leftState,
        st.rightCount.insert key (countOf st key + 1),
        (poisonProbes (maskedKeyOf row op.rightKeyColumns) st.nullProbes).1, st.nullRights⟩,
      (((st.leftState.bucket key).filter (·.emitted == op.anti)).map LeftEntry.row).map
          (if op.anti then .delete else .insert) ++
        (poisonProbes (maskedKeyOf row op.rightKeyColumns) st.nullProbes).2) := by
  simp only [handleRightLoaded, hkey, hbefore, ne_eq, not_true_eq_false, if_false, transition_eq]
  by_cases hprobes : st.nullProbes = []
  · have hnone : poisonProbes (maskedKeyOf row op.rightKeyColumns) ([] : List (NaProbe V)) =
        ([], []) := rfl
    rw [hprobes, hnone]
    by_cases hmem : key ∈ st.leftState
    · simp [hmem]
    · simp [hmem]
  · obtain ⟨p, hp⟩ := List.exists_mem_of_ne_nil _ hprobes
    obtain ⟨haware, -⟩ := h.probe_of_mem hp
    by_cases hmem : key ∈ st.leftState
    · simp [hmem, hprobes, haware]
    · simp [hmem, hprobes, haware]

private theorem NullInv.rightExact (hkey : keyOf row op.rightKeyColumns = some key) :
    op.Answers as ⟨false, row⟩ (op.handleRightLoaded st row).2 ∧
      op.NullInv (op.handleRightLoaded st row).1 (as ++ [⟨false, row⟩]) := by
  have hnullRight := h.nullRight_of_some row (by simp [hkey])
  have hcount := h.count_insert hkey
  by_cases hbefore : countOf st key = 0
  · have hhits : ∀ e ∈ Buckets.content st.leftState, op.Hits e.row row ↔ op.entryKey e = key :=
      fun e he => hits_exact (h.keyOf_entry he) hkey
    obtain ⟨hkeyed, hcontent⟩ := h.transitioned key
    rw [h.handleRightLoaded_first hkey hbefore]
    constructor
    · have hdeletes : (poisonProbes (maskedKeyOf row op.rightKeyColumns) st.nullProbes).2 =
          ((st.nullProbes.filter fun p => p.emitted && potentialMatch p.key
            (maskedKeyOf row op.rightKeyColumns)).map NaProbe.row).map
              (if op.anti then .delete else .insert) := by
        rw [poisonProbes, List.map_map]
        apply List.map_congr_left
        intro p hp
        rw [(h.probe_of_mem (List.mem_filter.mp hp).1).1.1]
        rfl
      rw [hdeletes, ← List.map_append]
      apply answers_of_changed
      rw [h.changed row, ← Multiset.coe_add, ← Multiset.map_coe, Buckets.coe_filter,
        h.keyed.coe_bucket, Multiset.filter_filter]
      congr 2
      apply Multiset.filter_congr
      intro e he
      rw [hhits e he, beq_iff_eq]
    · refine h.updated hkeyed hcontent ?_ rfl ?_ hcount hnullRight
      · intro e he
        by_cases hk : op.entryKey e = key
        · have hflag : (!op.anti) = decide (op.Qualifies (rights as ++ [row]) e.row) := by
            rw [Bool.eq_iff_iff, decide_eq_true_iff, qualifies_snoc_of_hit ((hhits e he).mpr hk),
              Bool.not_eq_true']
          rw [if_pos hk, hflag]
        · have hmiss : ¬ op.Hits e.row row := fun hhit => hk ((hhits e he).mp hhit)
          rw [if_neg hk, decide_eq_decide.mpr (qualifies_snoc_of_miss hmiss), ← h.emitted e he]
      · intro p hp
        rw [poisoned_flag (h.probe_of_mem hp).1 (h.probeEmitted p hp), ← h.probeKey p hp]
        split <;> rfl
  · simp only [handleRightLoaded, hkey, ne_eq, hbefore, not_false_eq_true, if_true]
    refine h.silent ?_ rfl rfl hcount hnullRight
    intro l hhits
    obtain ⟨r', hr', hkey'⟩ := (h.count key).mp (Nat.pos_of_ne_zero hbefore)
    refine ⟨r', hr', (hits_congr ?_).mpr hhits⟩
    rw [keyOf_eq_some_iff.mp hkey, keyOf_eq_some_iff.mp hkey']

theorem NullInv.right (row : Row V) :
    op.Answers as ⟨false, row⟩ (op.handleRightLoaded st row).2 ∧
      op.NullInv (op.handleRightLoaded st row).1 (as ++ [⟨false, row⟩]) := by
  cases hkey : keyOf row op.rightKeyColumns with
  | none => exact h.rightNull hkey
  | some key => exact h.rightExact hkey

/-! ## Whole runs -/

/-- A path nets to the qualifying rows, as they are and as they are emitted, and
each of its batches is the difference one arrival makes. -/
def NetsTo {σ : Type} (op : SemiAntiJoinRowOp) (step : σ → Arrival V → σ × List (Change (Row V)))
    (init : σ) (as : List (Arrival V)) : Prop :=
  replay 0 (as.foldl (emitting step) (init, [])).2 = some (op.qualifying as) ∧
  replay 0 ((as.foldl (emitting step) (init, [])).2.map (Change.map emitRow)) =
    some ((op.qualifying as).map emitRow) ∧
  ∀ pre a post, as = pre ++ a :: post →
    (↑(insertedRows (step (pre.foldl (emitting step) (init, [])).1 a).2) : Multiset (Row V)) =
        op.qualifying (pre ++ [a]) - op.qualifying pre ∧
      (↑(deletedRows (step (pre.foldl (emitting step) (init, [])).1 a).2) : Multiset (Row V)) =
        op.qualifying pre - op.qualifying (pre ++ [a])

omit h in
/-- A path that answers every arrival as it should, by an invariant it keeps. -/
theorem netsTo_of_answers {σ : Type} {step : σ → Arrival V → σ × List (Change (Row V))}
    {init : σ} {I : σ → List (Arrival V) → Prop} (hinit : I init []) {as : List (Arrival V)}
    (hstep : ∀ st pre a, pre ++ [a] <+: as → I st pre →
      op.Answers pre a (step st a).2 ∧ I (step st a).1 (pre ++ [a])) : op.NetsTo step init as := by
  have hrun : ∀ pre, pre <+: as → I (pre.foldl (emitting step) (init, [])).1 pre ∧
      replay 0 (pre.foldl (emitting step) (init, [])).2 = some (op.qualifying pre) := by
    intro pre hpre
    induction pre using List.reverseRecOn with
    | nil => exact ⟨hinit, rfl⟩
    | append_singleton pre a ih =>
        obtain ⟨hinv, hreplay⟩ := ih ((List.prefix_append _ _).trans hpre)
        obtain ⟨hanswers, hinv'⟩ := hstep _ pre a hpre hinv
        rw [List.foldl_append]
        exact ⟨hinv', replay_trans hreplay hanswers.replay⟩
  have hwhole := (hrun as (List.prefix_refl as)).2
  refine ⟨hwhole, ?_, ?_⟩
  · have hmap := replay_map emitRow hwhole
    rw [Multiset.map_zero] at hmap
    exact hmap
  · intro pre a post hsplit
    have hnext : pre ++ [a] <+: as := ⟨post, by rw [hsplit, List.append_assoc]; rfl⟩
    exact (hstep _ pre a hnext (hrun pre ((List.prefix_append _ _).trans hnext)).1).1.minimal

omit h in
theorem handleAsync_eq (op : SemiAntiJoinRowOp) :
    (op.handleAsync : Keyed V → Arrival V → _) = op.handleKeyed := by
  funext st a
  obtain ⟨isLeft, row⟩ := a
  cases isLeft with
  | true =>
      simp only [handleAsync, handleKeyed, handleLeftKeyed, if_true]
      cases keyOf row op.leftKeyColumns with
      | none => rfl
      | some key =>
          by_cases hpresent : (st.right key).getD 0 > 0
          · cases op.anti <;> simp [hpresent]
          · cases op.anti <;> simp [hpresent]
  | false => rfl

omit h in
theorem keyedInv_nil (op : SemiAntiJoinRowOp) : op.KeyedInv ({} : Keyed V) [] where
  rows := by simp [lefts]
  emitted := by simp
  count := by simp [rightRows, rights]

omit h in
theorem KeyedInv.step {st : Keyed V} (hplain : op.nullAware = false)
    (h : op.KeyedInv st as) (a : Arrival V) (hfits : op.Countable (as ++ [a])) :
    op.Answers as a (op.handleKeyed st a).2 ∧ op.KeyedInv (op.handleKeyed st a).1 (as ++ [a]) := by
  obtain ⟨isLeft, row⟩ := a
  cases isLeft with
  | true => exact h.left hplain row
  | false => exact h.right hplain row hfits

theorem NullInv.step (a : Arrival V) :
    op.Answers as a (op.handleLoaded st a).2 ∧ op.NullInv (op.handleLoaded st a).1 (as ++ [a]) := by
  obtain ⟨isLeft, row⟩ := a
  cases isLeft with
  | true => exact h.left row
  | false => exact h.right row

/-- In a state the run explains, both layouts do the same. -/
theorem NullInv.handleEntries_eq (a : Arrival V) :
    op.handleEntries st a = op.handleLoaded st a := by
  unfold handleEntries handleLoaded
  rw [h.handleLeftEntries_eq]

end

private theorem nullInv_run (op : SemiAntiJoinRowOp) (as : List (Arrival V)) :
    op.NullInv (as.foldl (emitting op.handleEntries) ({}, [])).1 as ∧
      as.foldl (emitting op.handleEntries) ({}, []) =
        as.foldl (emitting op.handleLoaded) ({}, []) := by
  induction as using List.reverseRecOn with
  | nil => exact ⟨nullInv_nil op, rfl⟩
  | append_singleton as a ih =>
      obtain ⟨hinv, heq⟩ := ih
      have hstep := hinv.handleEntries_eq a
      rw [List.foldl_append, List.foldl_append, ← heq]
      constructor
      · change op.NullInv (op.handleEntries _ a).1 _
        rw [hstep]
        exact (hinv.step a).2
      · simp only [List.foldl_cons, List.foldl_nil, emitting, hstep]

/-- The order in which the rows came does not matter to the query. -/
theorem qualifying_perm {as bs : List (Arrival V)} (h : as.Perm bs) :
    op.qualifying as = op.qualifying bs := by
  have hlefts : (↑(lefts as) : Multiset (Row V)) = ↑(lefts bs) :=
    Multiset.coe_eq_coe.mpr ((h.filter _).map _)
  have hrights : (rights as).Perm (rights bs) := (h.filter _).map _
  unfold qualifying
  rw [hlefts]
  apply Multiset.filter_congr
  intro l _
  simp only [Qualifies, hrights.mem_iff]

/-- `x IN (SELECT y ...)`. -/
def inJoin : SemiAntiJoinRowOp := ⟨[['x']], [['y']], false, false, rfl⟩

/-- A row of one column. -/
def single (column : Column) (n : Nat) : Row Nat := assign .empty column (some n)

/-- Two values on the right, one of them twice, and three left rows, one before its match. -/
def ordersRun : List (Arrival Nat) :=
  [⟨true, single ['x'] 5⟩, ⟨false, single ['y'] 5⟩, ⟨false, single ['y'] 7⟩,
    ⟨false, single ['y'] 5⟩, ⟨true, single ['x'] 7⟩, ⟨true, single ['x'] 9⟩]

/-- Right rows of one key, and a left row of it. -/
def lateLeft (n : Nat) : List (Arrival Nat) :=
  List.replicate n ⟨false, single ['y'] 5⟩ ++ [⟨true, single ['x'] 5⟩]

private theorem handleRightKeyed_silent {st : Keyed V} (hleft : st.left = fun _ => none)
    (hkey : keyOf row op.rightKeyColumns = some key) :
    op.handleRightKeyed st row =
      ({ st with
          right := Function.update st.right key
            (some (toInt32 (toInt32 ((st.right key).getD 0) + 1))) }, []) := by
  unfold handleRightKeyed
  simp only [hkey, hleft, Option.getD_none, transition, Bool.false_eq_true, if_false, ite_self]

private theorem keyed_rights (n : Nat) :
    ∃ st : Keyed Nat,
      (List.replicate n ⟨false, single ['y'] 5⟩).foldl (emitting inJoin.handleKeyed) ({}, []) =
        (st, []) ∧
      st.left = (fun _ => none) ∧ (st.right [5]).getD 0 = toInt32 n := by
  induction n with
  | zero => exact ⟨{}, rfl, rfl, by simp [toInt32]⟩
  | succ n ih =>
      obtain ⟨st, hrun, hleft, hcount⟩ := ih
      have hkey : keyOf (single ['y'] 5) inJoin.rightKeyColumns = some [5] := by decide
      have hstep := handleRightKeyed_silent hleft hkey
      have hnext : toInt32 (toInt32 (toInt32 n) + 1) = toInt32 (n + 1 : Nat) := by
        have hcast : ((n + 1 : Nat) : Int) = n + 1 := Int.natCast_succ n
        rw [hcast]
        unfold toInt32
        rw [Int.bmod_bmod, Int.bmod_add_bmod]
      rw [hcount, hnext] at hstep
      generalize toInt32 (n + 1 : Nat) = next at hstep ⊢
      refine ⟨(inJoin.handleRightKeyed st (single ['y'] 5)).1, ?_, ?_, ?_⟩
      · rw [List.replicate_succ', List.foldl_append, hrun, List.foldl_cons, List.foldl_nil]
        simp only [emitting, handleKeyed, Bool.false_eq_true, if_false, hstep, List.append_nil]
      · rw [hstep]
        exact hleft
      · rw [hstep]
        change (Function.update st.right [5] (some next) [5]).getD 0 = next
        rw [Function.update_self, Option.getD_some]

end SemiAntiJoinRowOp

end Clink.Ports.SemiAntiJoin

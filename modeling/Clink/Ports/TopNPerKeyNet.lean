import Mathlib.Algebra.Order.Ring.Cast
import Mathlib.Algebra.Order.Ring.Rat
import Mathlib.Data.Sum.Order
import Clink.Verified.Ranks
import Clink.Ports.TopNPerKey

/-!
# What top-N per key nets to

SQL sorts a column by value: NULL first, texts among themselves, integers and
DECIMALs by the number they stand for (`sqlOrd`).  Where the operator's
comparison does the same on the rows of a partition (`Faithful`), a partition
holds at every point its rows of rank at most the count, in order, and the
changelog nets to them.  The comparison does so for texts, NULL and integers
that a double holds; not for the tagged texts of DECIMALs, which it compares
digit by digit.
-/

namespace Clink.Ports.TopNPerKey

open Clink.Verified
open Clink.Ports.SqlRow
open Clink.Ports.SqlValue

/-- The SQL order of a column. -/
abbrev SqlOrd := WithBot (Text ⊕ₗ ℚ)

def sqlOrd : Option Value → SqlOrd
  | none => ⊥
  | some (.int n) => ↑(Sum.inrₗ (n : ℚ) : Text ⊕ₗ ℚ)
  | some (.decimal unscaled scale) => ↑(Sum.inrₗ ((unscaled : ℚ) / 10 ^ scale) : Text ⊕ₗ ℚ)
  | some (.string text) => ↑(Sum.inlₗ text : Text ⊕ₗ ℚ)

namespace TopNPerKeyRowOp

variable (op : TopNPerKeyRowOp)

/-! ## The rows of the query -/

/-- What a sort column with its descending flag sorts a row by. -/
def columnKey (row : Row Value) (c : Column × Bool) : SqlOrd ⊕ₗ SqlOrdᵒᵈ :=
  if c.2 then Sum.inrₗ (OrderDual.toDual (sqlOrd (cell row c.1)))
  else Sum.inlₗ (sqlOrd (cell row c.1))

/-- What ORDER BY sorts a row by. -/
def sortKey (row : Row Value) : List (SqlOrd ⊕ₗ SqlOrdᵒᵈ) := op.sortColumns.map (columnKey row)

/-- ROW_NUMBER breaks ties by arrival, the newest first. -/
def positionKey (x : Row Value × Nat) : List (SqlOrd ⊕ₗ SqlOrdᵒᵈ) ×ₗ ℕᵒᵈ :=
  toLex (op.sortKey x.1, OrderDual.toDual x.2)

/-- The rank of an arrival among others. -/
def sqlRank (m : Multiset (Row Value × Nat)) (x : Row Value × Nat) : Nat :=
  match op.rankKind with
  | .rowNumber => rank op.positionKey m x
  | .rank => rank (fun y => op.sortKey y.1) m x
  | .denseRank => denseRank (fun y => op.sortKey y.1) m x

/-- The rows of a partition whose rank is at most the count, from the rows in
arrival order. -/
def topRows (rows : List (Row Value)) : Multiset (Row Value) :=
  (top op.sqlRank op.count.toNat ↑rows.zipIdx).map Prod.fst

/-- On rows of one partition the operator compares as SQL does. -/
def Faithful (rows : List (Row Value)) : Prop :=
  ∀ a ∈ rows, ∀ b ∈ rows, op.partitionKey a = op.partitionKey b →
    op.better (op.sortValsOf a) (op.sortValsOf b) = decide (op.sortKey a < op.sortKey b)

instance (rows : List (Row Value)) : Decidable (op.Faithful rows) :=
  inferInstanceAs (Decidable (∀ a ∈ rows, ∀ b ∈ rows, op.partitionKey a = op.partitionKey b →
    op.better (op.sortValsOf a) (op.sortValsOf b) = decide (op.sortKey a < op.sortKey b)))

variable {op}

theorem ranking_sqlRank (op : TopNPerKeyRowOp) : Ranking op.positionKey op.sqlRank := by
  have hfine : ∀ x y : Row Value × Nat, op.sortKey x.1 < op.sortKey y.1 →
      op.positionKey x < op.positionKey y := by
    intro x y hlt
    exact Prod.Lex.toLex_lt_toLex.mpr (Or.inl hlt)
  unfold sqlRank
  cases op.rankKind with
  | rowNumber => exact ranking_rank _
  | rank => exact (ranking_rank _).refine hfine
  | denseRank => exact (ranking_denseRank _).refine hfine

/-! ## Values that compare as in SQL -/

/-- The comparison of two cells is that of their values. -/
def ComparesAs (op : TopNPerKeyRowOp) (x y : Option Value) : Prop :=
  (op.cmpVal x y < 0 ↔ sqlOrd x < sqlOrd y) ∧ (0 < op.cmpVal x y ↔ sqlOrd y < sqlOrd x)

private theorem comparesAs_none_left (op : TopNPerKeyRowOp) (y : Option Value) :
    op.ComparesAs none y := by
  cases y with
  | none => exact ⟨by simp [cmpVal], by simp [cmpVal]⟩
  | some v => cases v <;> exact ⟨by simp [cmpVal, sqlOrd], by simp [cmpVal, sqlOrd]⟩

private theorem comparesAs_none_right (op : TopNPerKeyRowOp) (x : Option Value) :
    op.ComparesAs x none := by
  cases x with
  | none => exact ⟨by simp [cmpVal], by simp [cmpVal]⟩
  | some v => cases v <;> exact ⟨by simp [cmpVal, sqlOrd], by simp [cmpVal, sqlOrd]⟩

private theorem comparesAs_string (op : TopNPerKeyRowOp) (s t : Text) :
    op.ComparesAs (some (.string s)) (some (.string t)) := by
  have hcmp : op.cmpVal (some (.string s)) (some (.string t)) = compareText s t := rfl
  have hlt : ∀ s t : Text, sqlOrd (some (.string s)) < sqlOrd (some (.string t)) ↔ s < t := by
    intro s t
    exact WithBot.coe_lt_coe.trans Sum.Lex.inl_lt_inl_iff
  unfold ComparesAs
  rw [hcmp, hlt, hlt, compareText]
  rcases lt_trichotomy s t with h | h | h
  · simp [h, h.not_gt]
  · simp [h]
  · simp [h, h.not_gt]

private theorem comparesAs_int (op : TopNPerKeyRowOp) {a b : Int} (ha : a.natAbs ≤ 2 ^ 53)
    (hb : b.natAbs ≤ 2 ^ 53) : op.ComparesAs (some (.int a)) (some (.int b)) := by
  have hlt : ∀ a b : Int, sqlOrd (some (.int a)) < sqlOrd (some (.int b)) ↔ a < b := by
    intro a b
    exact (WithBot.coe_lt_coe.trans Sum.Lex.inr_lt_inr_iff).trans Int.cast_lt
  have hdouble : ∀ n : Int, n.natAbs ≤ 2 ^ 53 → toDouble n = n := by
    intro n hn
    exact if_pos hn
  unfold ComparesAs
  rw [hlt, hlt, cmpVal, hdouble a ha, hdouble b hb]
  rcases lt_trichotomy a b with h | h | h
  · simp [h, h.not_gt]
  · simp [h]
  · simp [h, h.not_gt]

private theorem columnKey_lt (a b : Row Value) (c : Column × Bool) :
    columnKey a c < columnKey b c ↔
      if c.2 then sqlOrd (cell b c.1) < sqlOrd (cell a c.1)
      else sqlOrd (cell a c.1) < sqlOrd (cell b c.1) := by
  unfold columnKey
  by_cases hc : c.2 = true
  · simp only [if_pos hc]
    exact Sum.Lex.inr_lt_inr_iff.trans OrderDual.toDual_lt_toDual
  · simp only [if_neg hc]
    exact Sum.Lex.inl_lt_inl_iff

private theorem columnKey_eq (a b : Row Value) (c : Column × Bool) :
    columnKey a c = columnKey b c ↔ sqlOrd (cell a c.1) = sqlOrd (cell b c.1) := by
  unfold columnKey
  by_cases hc : c.2 = true
  · simp only [if_pos hc]
    exact toLex.injective.eq_iff.trans (Sum.inr_injective.eq_iff.trans OrderDual.toDual_inj)
  · simp only [if_neg hc]
    exact toLex.injective.eq_iff.trans Sum.inl_injective.eq_iff

/-- Columns that compare as in SQL make rows that do. -/
theorem betterFrom_eq (op : TopNPerKeyRowOp) {a b : Row Value} {cols : List (Column × Bool)}
    (h : ∀ c ∈ cols, op.ComparesAs (cell a c.1) (cell b c.1)) :
    op.betterFrom (cols.map Prod.snd) (cols.map fun c => cell a c.1)
      (cols.map fun c => cell b c.1) =
      decide (cols.map (columnKey a) < cols.map (columnKey b)) := by
  induction cols with
  | nil => simp [betterFrom]
  | cons c cols ih =>
      obtain ⟨hneg, hpos⟩ := h c List.mem_cons_self
      have hrest := ih fun c' hc' => h c' (List.mem_cons_of_mem c hc')
      simp only [List.map_cons, betterFrom, hrest, List.cons_lt_cons_iff, columnKey_lt,
        columnKey_eq]
      rcases lt_trichotomy (op.cmpVal (cell a c.1) (cell b c.1)) 0 with hcmp | hcmp | hcmp
      · have hlt := hneg.mp hcmp
        cases c.2 <;> simp [hcmp.ne, hcmp, hcmp.not_gt, hlt, hlt.not_gt, hlt.ne]
      · have heq : sqlOrd (cell a c.1) = sqlOrd (cell b c.1) := by
          apply le_antisymm
          · exact not_lt.mp fun hlt => by simp [hcmp, hlt] at hpos
          · exact not_lt.mp fun hlt => by simp [hcmp, hlt] at hneg
        cases c.2 <;> simp [hcmp, heq]
      · have hgt := hpos.mp hcmp
        cases c.2 <;> simp [hcmp.ne', hcmp, hcmp.not_gt, hgt, hgt.not_gt, hgt.ne']

/-- Texts and the integers a double holds compare as in SQL. -/
theorem faithful_of_plain (op : TopNPerKeyRowOp) {rows : List (Row Value)}
    (h : ∀ c ∈ op.sortColumns,
      (∀ row ∈ rows, ∀ v, cell row c.1 = some v → ∃ text, v = .string text) ∨
      ∀ row ∈ rows, ∀ v, cell row c.1 = some v → ∃ n : Int, v = .int n ∧ n.natAbs ≤ 2 ^ 53) :
    op.Faithful rows := by
  intro a ha b hb _
  apply op.betterFrom_eq
  intro c hc
  cases hx : cell a c.1 with
  | none => exact op.comparesAs_none_left _
  | some v =>
      cases hy : cell b c.1 with
      | none => exact op.comparesAs_none_right _
      | some w =>
          rcases h c hc with htext | hint
          · obtain ⟨s, rfl⟩ := htext a ha v hx
            obtain ⟨t, rfl⟩ := htext b hb w hy
            exact op.comparesAs_string s t
          · obtain ⟨m, rfl, hm⟩ := hint a ha v hx
            obtain ⟨n, rfl, hn⟩ := hint b hb w hy
            exact op.comparesAs_int hm hn

/-! ## The cut -/

/-- How a row is stored. -/
def store (op : TopNPerKeyRowOp) (x : Row Value × Nat) : StoredRow := ⟨x.1, op.sortValsOf x.1⟩

/-- The comparison of the members of a list is that of their keys. -/
def AgreesOn (op : TopNPerKeyRowOp) (l : List (Row Value × Nat)) : Prop :=
  ∀ x ∈ l, ∀ y ∈ l,
    op.better (op.sortValsOf x.1) (op.sortValsOf y.1) = decide (op.sortKey x.1 < op.sortKey y.1)

variable {l : List (Row Value × Nat)} {x : Row Value × Nat}

private theorem AgreesOn.tied_iff (h : op.AgreesOn l) {y : Row Value × Nat} (hx : x ∈ l)
    (hy : y ∈ l) :
    op.tied (op.sortValsOf x.1) (op.sortValsOf y.1) = decide (op.sortKey x.1 = op.sortKey y.1) := by
  rw [tied, h x hx y hy, h y hy x hx, Bool.eq_iff_iff]
  simp only [Bool.and_eq_true, Bool.not_eq_true', decide_eq_false_iff_not, decide_eq_true_iff,
    not_lt]
  exact ⟨fun h => le_antisymm h.2 h.1, fun h => ⟨h.ge, h.le⟩⟩

private theorem sorted_sortKey (h : l.Pairwise fun x y => op.positionKey x < op.positionKey y) :
    l.Pairwise fun x y => op.sortKey x.1 ≤ op.sortKey y.1 := by
  apply h.imp
  intro x y hlt
  rcases Prod.Lex.toLex_lt_toLex.mp hlt with hkey | ⟨hkey, -⟩
  · exact hkey.le
  · exact hkey.le

/-- The walk after a row: it stops at the first row ranked above the count. -/
theorem cutFrom_some (hkind : op.rankKind ≠ .rowNumber) (pre : List (Row Value × Nat))
    {rest : List (Row Value × Nat)} (p : Row Value × Nat) (hagrees : op.AgreesOn (pre ++ p :: rest))
    (hsorted : (pre ++ p :: rest).Pairwise fun x y => op.sortKey x.1 ≤ op.sortKey y.1)
    {groupStart groupIdx : Nat}
    (hstart : groupStart + 1 = rank (fun y => op.sortKey y.1) ↑(pre ++ p :: rest) p)
    (hidx : groupIdx + 1 = denseRank (fun y => op.sortKey y.1) ↑(pre ++ p :: rest) p) :
    op.cutFrom (pre.length + 1) groupStart groupIdx (some (op.sortValsOf p.1)) (rest.map op.store) =
      pre.length + 1 + (rest.takeWhile fun x =>
        (op.sqlRank ↑(pre ++ p :: rest) x : Int) ≤ op.count).length := by
  induction rest generalizing pre p groupStart groupIdx with
  | nil => rfl
  | cons x rest ih =>
      have hsplit : pre ++ p :: x :: rest = (pre ++ [p]) ++ x :: rest := by simp
      have hp : p ∈ pre ++ p :: x :: rest := by simp
      have hx : x ∈ pre ++ p :: x :: rest := by simp
      have hle : op.sortKey p.1 ≤ op.sortKey x.1 :=
        (List.pairwise_cons.mp (List.pairwise_append.mp hsorted).2.1).1 x List.mem_cons_self
      -- The group the row belongs to.
      obtain ⟨start, idx, hstart', hidx', hgroup⟩ : ∃ start idx,
          start + 1 = rank (fun y => op.sortKey y.1) ↑(pre ++ p :: x :: rest) x ∧
          idx + 1 = denseRank (fun y => op.sortKey y.1) ↑(pre ++ p :: x :: rest) x ∧
          (op.tied (op.sortValsOf x.1) (op.sortValsOf p.1) = true ∧
              start = groupStart ∧ idx = groupIdx ∨
            op.tied (op.sortValsOf x.1) (op.sortValsOf p.1) = false ∧
              start = pre.length + 1 ∧ idx = groupIdx + 1) := by
        rw [hagrees.tied_iff hx hp]
        rcases hle.eq_or_lt with heq | hlt
        · refine ⟨groupStart, groupIdx, ?_, ?_, Or.inl ⟨by simp [heq], rfl, rfl⟩⟩
          · rw [hstart, rank, rank, heq]
          · rw [hidx, denseRank, denseRank, heq]
        · have hbefore : ∀ y ∈ pre ++ [p], op.sortKey y.1 < op.sortKey x.1 := by
            intro y hy
            rcases List.mem_append.mp hy with hmem | hmem
            · have hyp := (List.pairwise_append.mp hsorted).2.2 y hmem p List.mem_cons_self
              exact lt_of_le_of_lt hyp hlt
            · rw [List.mem_singleton.mp hmem]
              exact hlt
          have hafter : ∀ y ∈ rest, op.sortKey x.1 ≤ op.sortKey y.1 :=
            (List.pairwise_cons.mp (List.pairwise_cons.mp
              (List.pairwise_append.mp hsorted).2.1).2).1
          refine ⟨pre.length + 1, groupIdx + 1, ?_, ?_, Or.inr ⟨by simp [hlt.ne'], rfl, rfl⟩⟩
          · have hposition : rank (fun y : Row Value × Nat => op.sortKey y.1)
                ↑((pre ++ [p]) ++ x :: rest) x = (pre ++ [p]).length + 1 :=
              rank_eq_position hbefore hafter
            rw [← hsplit, List.length_append, List.length_singleton] at hposition
            exact hposition.symm
          · rw [hidx, denseRank_next hsorted hlt]
      have hrank : (match op.rankKind with
          | .rowNumber => pre.length + 1 + 1
          | .rank => start + 1
          | .denseRank => idx + 1) = op.sqlRank ↑(pre ++ p :: x :: rest) x := by
        unfold sqlRank
        cases hk : op.rankKind with
        | rowNumber => exact absurd hk hkind
        | rank => exact hstart'
        | denseRank => exact hidx'
      have hstep : op.cutFrom (pre.length + 1) groupStart groupIdx (some (op.sortValsOf p.1))
          ((x :: rest).map op.store) =
          if (op.sqlRank ↑(pre ++ p :: x :: rest) x : Int) > op.count then pre.length + 1
          else op.cutFrom (pre.length + 1 + 1) start idx (some (op.sortValsOf x.1))
            (rest.map op.store) := by
        rw [List.map_cons, cutFrom, ← hrank]
        rcases hgroup with ⟨htied, rfl, rfl⟩ | ⟨htied, rfl, rfl⟩
        · cases op.rankKind <;> simp [store, htied]
        · cases op.rankKind <;> simp [store, htied]
      rw [hstep]
      by_cases hout : (op.sqlRank ↑(pre ++ p :: x :: rest) x : Int) > op.count
      · rw [if_pos hout, List.takeWhile_cons_of_neg (by simpa using hout)]
        rfl
      · rw [if_neg hout, List.takeWhile_cons_of_pos (by simpa using hout), List.length_cons]
        rw [hsplit] at hagrees hsorted hstart' hidx'
        have hnext := ih (pre ++ [p]) x hagrees hsorted hstart' hidx'
        rw [← hsplit, List.length_append, List.length_singleton] at hnext
        rw [hnext]
        omega

private theorem computeCut_eq (hcount : 0 < op.count) (hagrees : op.AgreesOn l)
    (hsorted : l.Pairwise fun x y => op.positionKey x < op.positionKey y) :
    op.computeCut (l.map op.store) =
      (l.takeWhile fun x => op.sqlRank ↑l x ≤ op.count.toNat).length := by
  have hnat : ∀ n : Nat, (n : Int) ≤ op.count ↔ n ≤ op.count.toNat := by
    intro n
    omega
  unfold computeCut
  by_cases hkind : op.rankKind = .rowNumber
  · have hrank : ∀ x, op.sqlRank ↑l x = rank op.positionKey ↑l x := by
      intro x
      unfold sqlRank
      rw [hkind]
    simp only [if_pos hkind, hrank]
    rw [takeWhile_rank hsorted, List.length_map, List.length_take]
  · rw [if_neg hkind]
    have hsorted := sorted_sortKey hsorted
    cases l with
    | nil => rfl
    | cons x rest =>
        have hafter := (List.pairwise_cons.mp hsorted).1
        have hfirst : rank (fun y : Row Value × Nat => op.sortKey y.1)
            ↑(([] : List (Row Value × Nat)) ++ x :: rest) x = 0 + 1 :=
          rank_eq_position (by simp) hafter
        have hdense : denseRank (fun y : Row Value × Nat => op.sortKey y.1) ↑(x :: rest) x = 1 :=
          denseRank_first hafter
        have hone : op.sqlRank ↑(x :: rest) x = 1 := by
          unfold sqlRank
          cases hk : op.rankKind with
          | rowNumber => exact absurd hk hkind
          | rank => exact hfirst
          | denseRank => exact hdense
        have hwalk := cutFrom_some hkind [] x hagrees hsorted hfirst.symm hdense.symm
        have hstep : op.cutFrom 0 0 0 none ((x :: rest).map op.store) =
            op.cutFrom 1 0 0 (some (op.sortValsOf x.1)) (rest.map op.store) := by
          rw [List.map_cons, cutFrom]
          refine if_neg ?_
          cases op.rankKind <;> simp <;> omega
        simp only [List.nil_append, List.length_nil, Nat.zero_add, hnat] at hwalk
        rw [hstep, hwalk, List.takeWhile_cons_of_pos (by simp [hone]; omega), List.length_cons,
          Nat.add_comm]

/-- Both layouts cut at the same place. -/
theorem entriesCut_eq (hcount : 0 < op.count) (part : List StoredRow) :
    op.entriesCut part = op.computeCut part := by
  have hwalk : op.rankKind ≠ .rowNumber → ∀ (i groupStart groupIdx : Nat) previous
      (rest : List StoredRow), op.entriesCutFrom i groupStart groupIdx previous rest =
        op.cutFrom i groupStart groupIdx previous rest := by
    intro hkind i groupStart groupIdx previous rest
    induction rest generalizing i groupStart groupIdx previous with
    | nil => rfl
    | cons r rest ih =>
        have hout : ∀ rank : Nat, rank > op.count.toNat ↔ (rank : Int) > op.count := by
          intro rank
          omega
        cases hk : op.rankKind with
        | rowNumber => exact absurd hk hkind
        | rank => cases previous <;> simp [entriesCutFrom, cutFrom, hk, ih, hout]
        | denseRank => cases previous <;> simp [entriesCutFrom, cutFrom, hk, ih, hout]
  unfold entriesCut computeCut
  by_cases hkind : op.rankKind = .rowNumber
  · rw [if_pos hkind, if_neg (not_not_intro hkind), Nat.min_comm]
  · rw [if_neg hkind, if_pos hkind, hwalk hkind]

theorem handleEntries_eq (op : TopNPerKeyRowOp) : op.handleEntries = op.handleLoaded := by
  funext st row
  unfold handleEntries handleLoaded handle
  by_cases hcount : op.count ≤ 0
  · rw [if_pos hcount, if_pos hcount]
  · simp only [entriesCut_eq (not_le.mp hcount)]

/-! ## One partition -/

/-- The newest arrival goes before the first row that does not come before it. -/
theorem sorted_insert {p : Row Value × Nat → Bool}
    (hp : ∀ y ∈ l, p y = decide (op.sortKey y.1 < op.sortKey x.1)) (hnewest : ∀ y ∈ l, y.2 < x.2)
    (hsorted : l.Pairwise fun y z => op.positionKey y < op.positionKey z) :
    (l.takeWhile p ++ x :: l.dropWhile p).Pairwise
      fun y z => op.positionKey y < op.positionKey z := by
  induction l with
  | nil => simp
  | cons y l ih =>
      obtain ⟨hfirst, hrest⟩ := List.pairwise_cons.mp hsorted
      have hy := hp y List.mem_cons_self
      by_cases hlt : op.sortKey y.1 < op.sortKey x.1
      · rw [decide_eq_true hlt] at hy
        rw [List.takeWhile_cons_of_pos hy, List.dropWhile_cons_of_pos hy, List.cons_append,
          List.pairwise_cons]
        constructor
        · intro z hz
          have hmem : z = x ∨ z ∈ l := by
            rcases List.mem_append.mp hz with hleft | hright
            · exact Or.inr ((List.takeWhile_sublist p).subset hleft)
            · rcases List.mem_cons.mp hright with heq | hright
              · exact Or.inl heq
              · exact Or.inr ((List.dropWhile_sublist p).subset hright)
          rcases hmem with rfl | hmem
          · exact Prod.Lex.toLex_lt_toLex.mpr (Or.inl hlt)
          · exact hfirst z hmem
        · exact ih (fun z hz => hp z (List.mem_cons_of_mem y hz))
            (fun z hz => hnewest z (List.mem_cons_of_mem y hz)) hrest
      · rw [decide_eq_false hlt] at hy
        have hxy : op.positionKey x < op.positionKey y := by
          apply Prod.Lex.toLex_lt_toLex.mpr
          rcases (not_lt.mp hlt).eq_or_lt with heq | hlt'
          · exact Or.inr ⟨heq, OrderDual.toDual_lt_toDual.mpr (hnewest y List.mem_cons_self)⟩
          · exact Or.inl hlt'
        rw [List.takeWhile_cons_of_neg (by simp [hy]), List.dropWhile_cons_of_neg (by simp [hy]),
          List.nil_append, List.pairwise_cons]
        refine ⟨?_, hsorted⟩
        intro z hz
        rcases List.mem_cons.mp hz with rfl | hmem
        · exact hxy
        · exact hxy.trans (hfirst z hmem)

/-- The rows from a cut on, but for the one at a position. -/
theorem evicted_eq {α : Type} (before after : List α) (x : α) (cut : Nat) :
    (((before ++ x :: after).zipIdx.drop cut).filter fun e => e.2 ≠ before.length).map Prod.fst =
      if before.length < cut then after.drop (cut - before.length - 1)
      else before.drop cut ++ after := by
  have hbefore : (before.zipIdx.drop cut).filter (fun e => e.2 ≠ before.length) =
      before.zipIdx.drop cut := by
    rw [List.filter_eq_self]
    intro e he
    have hmem : e ∈ before.zipIdx := List.mem_of_mem_drop he
    have hlt := (List.mem_zipIdx' hmem).1
    simp only [decide_eq_true_iff]
    omega
  have hafter : ∀ k, ((after.zipIdx (before.length + 1)).drop k).filter
      (fun e => e.2 ≠ before.length) = (after.zipIdx (before.length + 1)).drop k := by
    intro k
    rw [List.filter_eq_self]
    intro e he
    have hmem : e ∈ after.zipIdx (before.length + 1) := List.mem_of_mem_drop he
    have hge := (List.mem_zipIdx hmem).1
    simp only [decide_eq_true_iff]
    omega
  rw [List.zipIdx_append, List.zipIdx_cons, List.drop_append, List.length_zipIdx,
    List.filter_append,
    hbefore, Nat.zero_add]
  by_cases hcut : before.length < cut
  · have hnone : before.zipIdx.drop cut = [] := by
      rw [List.drop_eq_nil_iff, List.length_zipIdx]
      exact hcut.le
    have hsucc : cut - before.length = (cut - before.length - 1) + 1 := by omega
    rw [if_pos hcut, hnone, hsucc, List.drop_succ_cons, hafter, List.nil_append, List.map_drop,
      List.zipIdx_map_fst]
    rfl
  · have hzero : cut - before.length = 0 := by omega
    have hall := hafter 0
    rw [List.drop_zero] at hall
    rw [if_neg hcut, hzero, List.drop_zero, List.filter_cons_of_neg (by simp), hall,
      List.map_append, List.map_drop, List.zipIdx_map_fst, List.zipIdx_map_fst]

/-- What a partition holds: its best arrivals in order. -/
structure HoldsTop (op : TopNPerKeyRowOp) (part : List StoredRow) (m : Multiset (Row Value × Nat))
    (l : List (Row Value × Nat)) : Prop where
  stored : part = l.map op.store
  sorted : l.Pairwise fun x y => op.positionKey x < op.positionKey y
  best : (↑l : Multiset (Row Value × Nat)) = top op.sqlRank op.count.toNat m

variable {st : Partitions} {row : Row Value}

/-- An arrival keeps its partition at the top, and its batch is the difference. -/
theorem HoldsTop.arrive (hcount : 0 < op.count) {i : Nat} {m : Multiset (Row Value × Nat)}
    (h : op.HoldsTop (st (op.partitionKey row)) m l) (hnewest : ∀ y ∈ l, y.2 < i)
    (hagrees : op.AgreesOn ((row, i) :: l)) :
    ∃ l', op.HoldsTop ((op.handleLoaded st row).1 (op.partitionKey row)) ((row, i) ::ₘ m) l' ∧
      replay ↑(l.map Prod.fst) (op.handleLoaded st row).2 = some ↑(l'.map Prod.fst) := by
  let p : Row Value × Nat → Bool := fun y => op.better (op.sortValsOf y.1) (op.sortValsOf row)
  let before := l.takeWhile p
  let after := l.dropWhile p
  let grown := before ++ (row, i) :: after
  have hl : before ++ after = l := List.takeWhile_append_dropWhile
  have hsorted : grown.Pairwise fun x y => op.positionKey x < op.positionKey y := by
    apply sorted_insert _ hnewest h.sorted
    intro y hy
    exact hagrees y (List.mem_cons_of_mem _ hy) (row, i) List.mem_cons_self
  have hperm : grown.Perm ((row, i) :: l) := by
    have hmiddle : grown.Perm ((row, i) :: (before ++ after)) := List.perm_middle
    rwa [hl] at hmiddle
  have hgrown : (↑grown : Multiset (Row Value × Nat)) = (row, i) ::ₘ ↑l :=
    Multiset.coe_eq_coe.mpr hperm
  let cut := op.computeCut (grown.map op.store)
  have hkept : grown.take cut = grown.filter fun x => op.sqlRank ↑grown x ≤ op.count.toNat := by
    have hcut : cut = (grown.takeWhile fun x => op.sqlRank ↑grown x ≤ op.count.toNat).length := by
      apply computeCut_eq hcount _ hsorted
      intro x hx y hy
      exact hagrees x (hperm.mem_iff.mp hx) y (hperm.mem_iff.mp hy)
    have hle := hsorted.imp fun hlt => le_of_lt hlt
    rw [hcut, (ranking_sqlRank op).filter_eq_takeWhile _ _ hle]
    exact (List.prefix_iff_eq_take.mp (List.takeWhile_prefix _)).symm
  have hstep : op.handleLoaded st row =
      (Function.update st (op.partitionKey row) ((grown.map op.store).take cut),
        (((if before.length < cut then after.drop (cut - before.length - 1)
          else before.drop cut ++ after).map Prod.fst).map .delete) ++
        if before.length < cut then [.insert row] else []) := by
    have hsplit : st (op.partitionKey row) = before.map op.store ++ after.map op.store := by
      rw [h.stored, ← List.map_append, hl]
    have hpos : ((st (op.partitionKey row)).takeWhile fun r =>
        op.better r.sortVals (op.sortValsOf row)).length = before.length := by
      rw [h.stored, List.takeWhile_map, List.length_map]
      rfl
    have htake : (st (op.partitionKey row)).take before.length = before.map op.store := by
      rw [hsplit]
      exact List.take_left' (List.length_map _)
    have hdrop : (st (op.partitionKey row)).drop before.length = after.map op.store := by
      rw [hsplit]
      exact List.drop_left' (List.length_map _)
    have hpart : before.map op.store ++ ⟨row, op.sortValsOf row⟩ :: after.map op.store =
        grown.map op.store := by
      rw [List.map_append, List.map_cons]
      rfl
    have hevicted : (((grown.map op.store).zipIdx.drop cut).filter
        fun e => e.2 ≠ before.length).map Prod.fst =
          (if before.length < cut then after.drop (cut - before.length - 1)
            else before.drop cut ++ after).map op.store := by
      have hgeneral := evicted_eq (before.map op.store) (after.map op.store) (op.store (row, i)) cut
      rw [List.length_map] at hgeneral
      rw [← hpart]
      refine hgeneral.trans ?_
      split
      · rw [List.map_drop]
      · rw [List.map_append, List.map_drop]
    have hdelete : (fun e : StoredRow × Nat => Change.delete e.1.encoded) =
        (Change.delete ∘ StoredRow.encoded) ∘ Prod.fst := rfl
    unfold handleLoaded handle
    rw [if_neg (not_le.mpr hcount)]
    simp only [hpos, htake, hdrop, hpart]
    rw [hdelete, ← List.map_map, hevicted, List.map_map, List.map_map]
    rfl
  refine ⟨grown.take cut, ⟨?_, ?_, ?_⟩, ?_⟩
  · rw [hstep, List.map_take]
    exact Function.update_self _ _ _
  · exact hsorted.sublist (List.take_sublist _ _)
  · rw [hkept, ← Multiset.filter_coe, (ranking_sqlRank op).top_cons, ← h.best, ← hgrown]
    rfl
  · rw [hstep, ← hl]
    by_cases hcut : before.length < cut
    · -- The newcomer stays, what it displaces goes.
      rw [if_pos hcut, if_pos hcut]
      have htake : grown.take cut =
          before ++ (row, i) :: after.take (cut - before.length - 1) := by
        have hsucc : cut - before.length = (cut - before.length - 1) + 1 := by omega
        rw [List.take_append, List.take_of_length_le hcut.le, hsucc, List.take_succ_cons]
        rfl
      have hrows : (↑((before ++ after).map Prod.fst) : Multiset (Row Value)) =
          ↑((before ++ after.take (cut - before.length - 1)).map Prod.fst) +
            ↑((after.drop (cut - before.length - 1)).map Prod.fst) := by
        rw [Multiset.coe_add, ← List.map_append, List.append_assoc, List.take_append_drop]
      have hnew : (↑((before ++ (row, i) :: after.take (cut - before.length - 1)).map Prod.fst) :
          Multiset (Row Value)) =
            row ::ₘ ↑((before ++ after.take (cut - before.length - 1)).map Prod.fst) :=
        Multiset.coe_eq_coe.mpr (List.perm_middle.map Prod.fst)
      rw [htake, hrows, hnew]
      refine replay_trans (replay_deletes _ _) ?_
      rw [replay_insert, replay_nil]
    · -- The newcomer is past the cut itself.
      rw [if_neg hcut, if_neg hcut, List.append_nil]
      have htake : grown.take cut = before.take cut :=
        List.take_append_of_le_length (not_lt.mp hcut)
      have hrows : (↑((before ++ after).map Prod.fst) : Multiset (Row Value)) =
          ↑((before.take cut).map Prod.fst) + ↑((before.drop cut ++ after).map Prod.fst) := by
        rw [Multiset.coe_add, ← List.map_append, ← List.append_assoc, List.take_append_drop]
      rw [htake, hrows]
      exact replay_deletes _ _

/-! ## Whole runs -/

/-- Every partition holds its top and the changelog nets to it. -/
structure Tracks (op : TopNPerKeyRowOp) (st : Partitions) (rows : List (Row Value))
    (net : Multiset (Row Value)) : Prop where
  holds : ∀ p, ∃ l, op.HoldsTop (st p) ↑(rows.filter fun row => op.partitionKey row = p).zipIdx l ∧
    net.filter (fun row => op.partitionKey row = p) = ↑(l.map Prod.fst)

variable {rows : List (Row Value)}

theorem Faithful.start {pre : List (Row Value)} (h : op.Faithful rows) (hpre : pre <+: rows) :
    op.Faithful pre :=
  fun a ha b hb => h a (hpre.subset ha) b (hpre.subset hb)

theorem HoldsTop.key_of_mem {part : List StoredRow} {p : List (Option Value)}
    (h : op.HoldsTop part ↑(rows.filter fun row => op.partitionKey row = p).zipIdx l) (hx : x ∈ l) :
    x.1 ∈ rows ∧ op.partitionKey x.1 = p ∧
      x.2 < (rows.filter fun row => op.partitionKey row = p).length := by
  have htop : x ∈ (↑l : Multiset (Row Value × Nat)) := hx
  rw [h.best] at htop
  have hmem := Multiset.mem_coe.mp (Multiset.mem_filter.mp htop).1
  have hrow := List.fst_mem_of_mem_zipIdx hmem
  obtain ⟨hrows, hkey⟩ := List.mem_filter.mp hrow
  exact ⟨hrows, by simpa using hkey, (List.mem_zipIdx' hmem).1⟩

private theorem handleLoaded_of_ne {p : List (Option Value)} (hp : p ≠ op.partitionKey row) :
    (op.handleLoaded st row).1 p = st p := by
  unfold handleLoaded handle
  by_cases hcount : op.count ≤ 0
  · rw [if_pos hcount]
  · rw [if_neg hcount]
    exact Function.update_of_ne hp _ _

private theorem Tracks.step (hcount : 0 < op.count) {net : Multiset (Row Value)}
    (h : op.Tracks st rows net) (hfaithful : op.Faithful (rows ++ [row])) :
    ∃ net', replay net (op.handleLoaded st row).2 = some net' ∧
      op.Tracks (op.handleLoaded st row).1 (rows ++ [row]) net' := by
  obtain ⟨l, hl, hnet⟩ := h.holds (op.partitionKey row)
  have hmembers : (rows ++ [row]).filter (fun r => op.partitionKey r = op.partitionKey row) =
      (rows.filter fun r => op.partitionKey r = op.partitionKey row) ++ [row] := by
    rw [List.filter_append, List.filter_cons_of_pos (by simp)]
    rfl
  have hagrees : op.AgreesOn ((row, (rows.filter fun r =>
      op.partitionKey r = op.partitionKey row).length) :: l) := by
    have hin : ∀ x ∈ (row, (rows.filter fun r =>
        op.partitionKey r = op.partitionKey row).length) :: l,
          x.1 ∈ rows ++ [row] ∧ op.partitionKey x.1 = op.partitionKey row := by
      intro x hx
      rcases List.mem_cons.mp hx with rfl | hmem
      · exact ⟨by simp, rfl⟩
      · obtain ⟨hrows, hkey, -⟩ := hl.key_of_mem hmem
        exact ⟨List.mem_append_left _ hrows, hkey⟩
    intro x hx y hy
    exact hfaithful x.1 (hin x hx).1 y.1 (hin y hy).1 ((hin x hx).2.trans (hin y hy).2.symm)
  obtain ⟨l', hl', hreplay⟩ := hl.arrive hcount (fun y hy => (hl.key_of_mem hy).2.2) hagrees
  have harrivals : (↑((rows ++ [row]).filter fun r =>
      op.partitionKey r = op.partitionKey row).zipIdx : Multiset (Row Value × Nat)) =
      (row, (rows.filter fun r => op.partitionKey r = op.partitionKey row).length) ::ₘ
        ↑(rows.filter fun r => op.partitionKey r = op.partitionKey row).zipIdx := by
    rw [hmembers, List.zipIdx_append, Nat.zero_add, List.zipIdx_cons, List.zipIdx_nil,
      Multiset.cons_coe, Multiset.coe_eq_coe]
    exact List.perm_append_comm
  rw [← harrivals] at hl'
  have hframe := replay_add hreplay (net.filter fun r => ¬ op.partitionKey r = op.partitionKey row)
  rw [← hnet, add_comm, Multiset.filter_add_not] at hframe
  refine ⟨_, hframe, ⟨?_⟩⟩
  intro p
  by_cases hp : p = op.partitionKey row
  · subst hp
    refine ⟨l', hl', ?_⟩
    have hnone : (net.filter fun r => ¬ op.partitionKey r = op.partitionKey row).filter
        (fun r => op.partitionKey r = op.partitionKey row) = 0 := by
      rw [Multiset.filter_eq_nil]
      intro r hr
      exact (Multiset.mem_filter.mp hr).2
    rw [Multiset.filter_add, hnone, zero_add, Multiset.filter_eq_self]
    intro r hr
    obtain ⟨x, hx, rfl⟩ := List.mem_map.mp (Multiset.mem_coe.mp hr)
    exact (hl'.key_of_mem hx).2.1
  · obtain ⟨lp, hlp, hnetp⟩ := h.holds p
    have hsame : (rows ++ [row]).filter (fun r => op.partitionKey r = p) =
        rows.filter fun r => op.partitionKey r = p := by
      rw [List.filter_append, List.filter_cons_of_neg (by simpa using Ne.symm hp)]
      simp
    refine ⟨lp, ?_, ?_⟩
    · rw [hsame, handleLoaded_of_ne hp]
      exact hlp
    · have hnone : (↑(l'.map Prod.fst) : Multiset (Row Value)).filter
          (fun r => op.partitionKey r = p) = 0 := by
        rw [Multiset.filter_eq_nil]
        intro r hr heq
        obtain ⟨x, hx, rfl⟩ := List.mem_map.mp (Multiset.mem_coe.mp hr)
        exact hp (heq.symm.trans (hl'.key_of_mem hx).2.1)
      rw [Multiset.filter_add, hnone, add_zero, Multiset.filter_filter, ← hnetp]
      apply Multiset.filter_congr
      intro r _
      constructor
      · exact fun hr => hr.1
      · exact fun hr => ⟨hr, fun heq => hp (hr.symm.trans heq)⟩

private theorem tracks_run (hcount : 0 < op.count) (hfaithful : op.Faithful rows) :
    ∃ net, replay 0 (rows.foldl (emitting op.handleLoaded) (fun _ => [], [])).2 = some net ∧
      op.Tracks (rows.foldl (emitting op.handleLoaded) (fun _ => [], [])).1 rows net := by
  induction rows using List.reverseRecOn with
  | nil =>
      refine ⟨0, rfl, ⟨?_⟩⟩
      intro p
      exact ⟨[], ⟨rfl, List.Pairwise.nil, rfl⟩, rfl⟩
  | append_singleton rows row ih =>
      obtain ⟨net, hreplay, htracks⟩ := ih (hfaithful.start (List.prefix_append _ _))
      obtain ⟨net', hstep, htracks'⟩ := htracks.step hcount hfaithful
      rw [List.foldl_append]
      exact ⟨net', replay_trans hreplay hstep, htracks'⟩

/-- The changelog replays, its deletes finding their rows, to the rows of each
partition whose rank is at most the count. -/
def NetsToTop (op : TopNPerKeyRowOp) (rows : List (Row Value)) : Prop :=
  ∃ net, replay 0 (rows.foldl (emitting op.handleLoaded) (fun _ => [], [])).2 = some net ∧
    ∀ p, net.filter (fun row => op.partitionKey row = p) =
      op.topRows (rows.filter fun row => op.partitionKey row = p)

private theorem netsToTop (op : TopNPerKeyRowOp) (hfaithful : op.Faithful rows) :
    op.NetsToTop rows := by
  by_cases hcount : 0 < op.count
  · obtain ⟨net, hreplay, htracks⟩ := tracks_run hcount hfaithful
    refine ⟨net, hreplay, ?_⟩
    intro p
    obtain ⟨l, hl, hnet⟩ := htracks.holds p
    rw [hnet, topRows, ← hl.best, Multiset.map_coe]
  · -- No rank is zero, and nothing is kept or emitted.
    have hstep : ∀ st row, (op.handleLoaded st row).2 = [] := by
      intro st row
      rw [handleLoaded, handle, if_pos (not_lt.mp hcount)]
    have hsilent : ∀ rows : List (Row Value),
        (rows.foldl (emitting op.handleLoaded) (fun _ => [], [])).2 = [] := by
      intro rows
      induction rows using List.reverseRecOn with
      | nil => rfl
      | append_singleton rows row ih =>
          rw [List.foldl_append]
          simp only [List.foldl_cons, List.foldl_nil, emitting, ih, hstep, List.append_nil]
    have hzero : op.count.toNat = 0 := by omega
    refine ⟨0, ?_, ?_⟩
    · rw [hsilent, replay_nil]
    · intro p
      have hnone : top op.sqlRank 0
          (↑(rows.filter fun row => op.partitionKey row = p).zipIdx : Multiset _) = 0 := by
        rw [top, Multiset.filter_eq_nil]
        intro x _
        unfold sqlRank
        cases op.rankKind <;> simp [rank, denseRank]
      rw [topRows, hzero, hnone]
      rfl

/-- Rows with one column. -/
def priceRow (price : Value) : Row Value := assign .empty ['p'] (some price)

/-- The cheapest row, or with ties and a greater count the cheapest ones. -/
def cheapest (count : Int) (rankKind : OverRankKind) : TopNPerKeyRowOp where
  partitionColumns := []
  sortColumns := [(['p'], false)]
  count := count
  rankKind := rankKind
  -- Arrow prints a coefficient at scale 0 as the integer it is.
  toText := fun unscaled _ => (toString unscaled).toList

/-- Prices, some NULL, and names, the dearer and then the first name first. -/
def named (price : Option Value) (name : Option (List Char)) : Row Value :=
  assign (assign .empty ['p'] price) ['n'] (name.map .string)

def dearestNamed : TopNPerKeyRowOp :=
  { cheapest 2 .rank with sortColumns := [(['p'], true), (['n'], false)] }

def namedRows : List (Row Value) :=
  [named (some (.int 3)) (some ['b']), named none (some ['a']), named (some (.int 3)) none,
    named (some (.int 5)) (some ['a']), named (some (.int 3)) (some ['a'])]

theorem faithful_of_plain_named : dearestNamed.Faithful namedRows := by
  refine faithful_of_plain _ fun c hc => ?_
  simp only [dearestNamed, List.mem_cons, List.not_mem_nil, or_false] at hc
  rcases hc with rfl | rfl
  · refine .inr fun row hrow v hv => ?_
    simp only [namedRows, List.mem_cons, List.not_mem_nil, or_false] at hrow
    rcases hrow with rfl | rfl | rfl | rfl | rfl
    · exact ⟨3, (Option.some.inj hv).symm, by decide⟩
    · exact absurd (show none = some v from hv) (by simp)
    · exact ⟨3, (Option.some.inj hv).symm, by decide⟩
    · exact ⟨5, (Option.some.inj hv).symm, by decide⟩
    · exact ⟨3, (Option.some.inj hv).symm, by decide⟩
  · refine .inl fun row hrow v hv => ?_
    simp only [namedRows, List.mem_cons, List.not_mem_nil, or_false] at hrow
    rcases hrow with rfl | rfl | rfl | rfl | rfl
    · exact ⟨['b'], (Option.some.inj hv).symm⟩
    · exact ⟨['a'], (Option.some.inj hv).symm⟩
    · exact absurd (show none = some v from hv) (by simp)
    · exact ⟨['a'], (Option.some.inj hv).symm⟩
    · exact ⟨['a'], (Option.some.inj hv).symm⟩

end TopNPerKeyRowOp

end Clink.Ports.TopNPerKey

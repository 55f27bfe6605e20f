import Mathlib.Tactic.Abel
import Clink.Ports.EquiJoin

/-!
# What the equi-join's changelog nets to

The SQL join of the rows live on the two sides, and how one row more or less
changes it: the pairs it makes, its own padding when it makes none, and the
padding of the rows it is the first partner of (`sqlJoin_cons`).  The lists of
a key emit exactly this difference, whatever came before, because a row's flag
says whether its padding is live (`Tracks.flags`).

The three paths follow the lists of the keys, so all of them emit the same
rows; asynchronous tasks of different keys may run in another order, which
gives every record the same answer.
-/

namespace Clink.Ports.EquiJoin

open Clink.Verified
open Clink.Ports.SqlRow

variable {V : Type} [DecidableEq V]

/-- The live rows of the two sides. -/
abbrev Live (V : Type) := Bool → Multiset (Row V)

namespace EquiJoinRowOp

/-! ## The SQL join -/

variable (op : EquiJoinRowOp V)

/-- A row of one side and a row of the other join: equal keys, not NULL. -/
def Partners (side : Bool) (b c : Row V) : Prop :=
  op.keyOf side b = op.keyOf (!side) c ∧ op.keyOf side b ≠ none

instance (side : Bool) (b c : Row V) : Decidable (op.Partners side b c) :=
  inferInstanceAs (Decidable (_ ∧ _))

def sqlPairs (m : Live V) : Multiset (Parts V) :=
  ((m true ×ˢ m false).filter fun p => op.Partners true p.1 p.2).map fun p => (some p.1, some p.2)

/-- The padded rows of a side: the rows of a kept side without a partner. -/
def sqlPads (m : Live V) (side : Bool) : Multiset (Parts V) :=
  if op.kind.keepsUnmatched side then
    ((m side).filter fun b => ∀ c ∈ m (!side), ¬ op.Partners side b c).map (outerOf side)
  else 0

def sqlJoin (m : Live V) : Multiset (Parts V) :=
  op.sqlPairs m + (op.sqlPads m true + op.sqlPads m false)

/-! ## One row more -/

/-- A side with one row more. -/
def addLive (m : Live V) (side : Bool) (b : Row V) : Live V :=
  Function.update m side (b ::ₘ m side)

variable {op} {m : Live V} {side : Bool} {b : Row V}

omit [DecidableEq V] in
theorem addLive_self : addLive m side b side = b ::ₘ m side := Function.update_self ..

omit [DecidableEq V] in
theorem addLive_not : addLive m side b (!side) = m (!side) := by
  apply Function.update_of_ne
  cases side <;> decide

omit [DecidableEq V] in
theorem partners_swap (c : Row V) : op.Partners (!side) c b ↔ op.Partners side b c := by
  unfold Partners
  rw [Bool.not_not]
  constructor
  · rintro ⟨heq, hne⟩
    exact ⟨heq.symm, heq ▸ hne⟩
  · rintro ⟨heq, hne⟩
    exact ⟨heq.symm, heq ▸ hne⟩

theorem sqlPairs_addLive : op.sqlPairs (addLive m side b) =
    op.sqlPairs m + ((m (!side)).filter (op.Partners side b)).map (pairOf side b) := by
  unfold sqlPairs
  cases side with
  | true =>
      have hself : addLive m true b true = b ::ₘ m true := addLive_self
      have hother : addLive m true b false = m false := addLive_not
      rw [hself, hother, Multiset.cons_product, Multiset.filter_add, Multiset.map_add,
        Multiset.filter_map, Multiset.map_map, add_comm]
      rfl
  | false =>
      have hself : addLive m false b false = b ::ₘ m false := addLive_self
      have hother : addLive m false b true = m true := addLive_not
      rw [hself, hother, Multiset.product_cons, Multiset.filter_add, Multiset.map_add,
        Multiset.filter_map, Multiset.map_map, add_comm]
      congr 2
      apply Multiset.filter_congr
      intro c _
      change op.Partners (!false) c b ↔ op.Partners false b c
      exact partners_swap c

/-- The row's own side gains its padding when it has no partner. -/
theorem sqlPads_addLive_self : op.sqlPads (addLive m side b) side = op.sqlPads m side +
    if op.kind.keepsUnmatched side ∧ (m (!side)).filter (op.Partners side b) = 0 then
      {outerOf side b} else 0 := by
  unfold sqlPads
  rw [addLive_self, addLive_not]
  by_cases hkeeps : op.kind.keepsUnmatched side = true
  · simp only [hkeeps, if_true, true_and, Multiset.filter_eq_nil]
    by_cases hnone : ∀ c ∈ m (!side), ¬ op.Partners side b c
    · rw [Multiset.filter_cons_of_pos _ hnone, if_pos hnone, Multiset.map_cons,
        ← Multiset.singleton_add, add_comm]
    · rw [Multiset.filter_cons_of_neg _ hnone, if_neg hnone, add_zero]
  · simp only [hkeeps, Bool.false_eq_true, if_false, false_and, add_zero]

/-- The other side loses the padding of the rows it is the first partner of. -/
theorem sqlPads_addLive_not : op.sqlPads m (!side) = op.sqlPads (addLive m side b) (!side) +
    if op.kind.keepsUnmatched (!side) ∧ ∀ c ∈ m side, op.keyOf side c ≠ op.keyOf side b then
      ((m (!side)).filter (op.Partners side b)).map (outerOf (!side)) else 0 := by
  unfold sqlPads
  rw [Bool.not_not, addLive_self, addLive_not]
  by_cases hkeeps : op.kind.keepsUnmatched (!side) = true
  · simp only [hkeeps, if_true, true_and]
    have hsplit := Multiset.filter_add_not (op.Partners side b)
      ((m (!side)).filter fun c => ∀ d ∈ m side, ¬ op.Partners (!side) c d)
    have hrest : ((m (!side)).filter fun c => ∀ d ∈ m side, ¬ op.Partners (!side) c d).filter
        (fun c => ¬ op.Partners side b c) =
          (m (!side)).filter fun c => ∀ d ∈ b ::ₘ m side, ¬ op.Partners (!side) c d := by
      rw [Multiset.filter_filter]
      apply Multiset.filter_congr
      intro c _
      rw [Multiset.forall_mem_cons, partners_swap]
    by_cases hfirst : ∀ c ∈ m side, op.keyOf side c ≠ op.keyOf side b
    · have hpartners : ((m (!side)).filter fun c =>
          ∀ d ∈ m side, ¬ op.Partners (!side) c d).filter (op.Partners side b) =
            (m (!side)).filter (op.Partners side b) := by
        rw [Multiset.filter_filter]
        apply Multiset.filter_congr
        intro c _
        constructor
        · exact fun h => h.1
        · intro h
          refine ⟨h, ?_⟩
          intro d hd hpartner
          rw [partners_swap] at hpartner
          exact hfirst d hd (hpartner.1.trans h.1.symm)
      rw [if_pos hfirst, ← hsplit, hpartners, hrest, Multiset.map_add, add_comm]
    · have hnone : ((m (!side)).filter fun c =>
          ∀ d ∈ m side, ¬ op.Partners (!side) c d).filter (op.Partners side b) = 0 := by
        rw [Multiset.filter_eq_nil]
        intro c hc hpartner
        apply hfirst
        intro d hd heq
        apply (Multiset.mem_filter.mp hc).2 d hd
        rw [partners_swap]
        exact ⟨heq.trans hpartner.1, heq ▸ hpartner.2⟩
      rw [if_neg hfirst, add_zero, ← hsplit, hnone, hrest, zero_add]
  · simp only [hkeeps, Bool.false_eq_true, if_false, false_and, add_zero]

/-- What a row withdraws: the padding of the rows it is the first partner of. -/
def withdrawn (op : EquiJoinRowOp V) (m : Live V) (side : Bool) (b : Row V) : Multiset (Parts V) :=
  if op.kind.keepsUnmatched (!side) ∧ ∀ c ∈ m side, op.keyOf side c ≠ op.keyOf side b then
    ((m (!side)).filter (op.Partners side b)).map (outerOf (!side)) else 0

/-- What a row brings: its pairs, or its own padding. -/
def brought (op : EquiJoinRowOp V) (m : Live V) (side : Bool) (b : Row V) : Multiset (Parts V) :=
  ((m (!side)).filter (op.Partners side b)).map (pairOf side b) +
    if op.kind.keepsUnmatched side ∧ (m (!side)).filter (op.Partners side b) = 0 then
      {outerOf side b} else 0

/-- One row more exchanges what it withdraws for what it brings. -/
theorem sqlJoin_addLive (op : EquiJoinRowOp V) (m : Live V) (side : Bool) (b : Row V) :
    ∃ rest, op.sqlJoin m = rest + op.withdrawn m side b ∧
      op.sqlJoin (addLive m side b) = rest + op.brought m side b := by
  have hpads : ∀ m : Live V, op.sqlPads m true + op.sqlPads m false =
      op.sqlPads m side + op.sqlPads m (!side) := by
    intro m
    cases side with
    | true => rfl
    | false => exact add_comm _ _
  refine ⟨op.sqlPairs m + (op.sqlPads m side + op.sqlPads (addLive m side b) (!side)), ?_, ?_⟩
  · have hnot : op.sqlPads m (!side) = op.sqlPads (addLive m side b) (!side) +
        op.withdrawn m side b := sqlPads_addLive_not
    unfold sqlJoin
    rw [hpads, hnot]
    abel
  · unfold sqlJoin brought
    rw [hpads, sqlPairs_addLive, sqlPads_addLive_self]
    abel

/-! ## The lists of a key emit the difference -/

omit [DecidableEq V] in
/-- The rows of some entries. -/
def rowsOf (entries : List (Entry V)) : List (Row V) := entries.map Entry.row

variable {isLeft : Bool} {others : List (Entry V)}

/-- Where every flag of the other list says the same, a match exchanges the
padding, if any, for the pairs. -/
theorem replay_matchLoop {otherOuter padded : Bool} {row : Row V}
    (houter : padded = true → otherOuter = true) (hflags : ∀ oe ∈ others, oe.nullEmitted = padded) :
    replay (if padded then (↑((rowsOf others).map (outerOf (!isLeft))) : Multiset (Parts V)) else 0)
      (matchLoop otherOuter isLeft row others).2 =
        some ↑((rowsOf others).map (pairOf isLeft row)) := by
  induction others with
  | nil => cases padded <;> rfl
  | cons oe rest ih =>
      have hrest := ih fun e he => hflags e (List.mem_cons_of_mem _ he)
      have hoe := hflags oe List.mem_cons_self
      have hframe := replay_add hrest {pairOf isLeft row oe.row}
      rw [Multiset.singleton_add, Multiset.singleton_add] at hframe
      cases padded with
      | true =>
          simp only [matchLoop, hoe, houter rfl, Bool.and_self, if_true, rowsOf, List.map_cons,
            ← Multiset.cons_coe] at hframe ⊢
          rw [replay_delete, replay_insert]
          exact hframe
      | false =>
          simp only [matchLoop, hoe, Bool.and_false, Bool.false_eq_true, if_false, rowsOf,
            List.map_cons, ← Multiset.cons_coe] at hframe ⊢
          rw [replay_insert]
          exact hframe

theorem replay_padLoop (isLeft : Bool) (hflags : ∀ oe ∈ others, oe.nullEmitted = false) :
    replay 0 (padLoop isLeft others).2 =
      some (↑((rowsOf others).map (outerOf (!isLeft))) : Multiset (Parts V)) := by
  have hpads : (padLoop isLeft others).2 =
      ((rowsOf others).map (outerOf (!isLeft))).map .insert := by
    induction others with
    | nil => rfl
    | cons oe rest ih =>
        have hrest := ih fun e he => hflags e (List.mem_cons_of_mem _ he)
        have hoe := hflags oe List.mem_cons_self
        simp only [padLoop, hoe, Bool.not_false, if_true, hrest]
        rfl
  rw [hpads, replay_inserts, zero_add]

theorem replay_deletePairs (isLeft : Bool) (row : Row V) (others : List (Entry V)) :
    replay (↑((rowsOf others).map (pairOf isLeft row)) : Multiset (Parts V))
      (deletePairs isLeft row others) = some 0 := by
  have hlist : deletePairs isLeft row others =
      ((rowsOf others).map (pairOf isLeft row)).map .delete := by
    simp [deletePairs, rowsOf]
  have hdeletes := replay_deletes (0 : Multiset (Parts V)) ((rowsOf others).map (pairOf isLeft row))
  rw [zero_add] at hdeletes
  rw [hlist, hdeletes]

/-- A flag is set exactly while the padding of its row is live. -/
def Flagged (op : EquiJoinRowOp V) (lists : Lists V) : Prop :=
  ∀ side, ∀ e ∈ lists side,
    e.nullEmitted = (op.kind.keepsUnmatched side && (lists (!side)).isEmpty)

variable {lists : Lists V}

omit [DecidableEq V] in
theorem flagged_of (side : Bool)
    (hself : ∀ e ∈ lists side,
      e.nullEmitted = (op.kind.keepsUnmatched side && (lists (!side)).isEmpty))
    (hother : ∀ e ∈ lists (!side),
      e.nullEmitted = (op.kind.keepsUnmatched (!side) && (lists side).isEmpty)) :
    op.Flagged lists := by
  intro side' e he
  by_cases hside : side' = side
  · subst hside
    exact hself e he
  · obtain rfl : side' = !side := by
      cases side' <;> cases side <;> simp_all
    rw [Bool.not_not]
    exact hother e he

omit [DecidableEq V] in
private theorem matchLoop_flag {otherOuter : Bool} {row : Row V}
    (houter : ∀ oe ∈ others, oe.nullEmitted = true → otherOuter = true) :
    ∀ e ∈ (matchLoop otherOuter isLeft row others).1, e.nullEmitted = false := by
  induction others with
  | nil => simp [matchLoop]
  | cons oe rest ih =>
      have hrest := ih fun e he => houter e (List.mem_cons_of_mem _ he)
      have hoe := houter oe List.mem_cons_self
      intro e he
      rw [matchLoop] at he
      by_cases hflag : (otherOuter && oe.nullEmitted) = true
      · simp only [hflag, if_true, List.mem_cons] at he
        rcases he with rfl | he
        · rfl
        · exact hrest e he
      · simp only [hflag, Bool.false_eq_true, if_false, List.mem_cons] at he
        rcases he with rfl | he
        · by_contra hset
          rw [Bool.not_eq_false] at hset
          exact hflag (by rw [hoe hset, hset]; rfl)
        · exact hrest e he

omit [DecidableEq V] in
private theorem padLoop_flag : ∀ e ∈ (padLoop isLeft others).1, e.nullEmitted = true := by
  induction others with
  | nil => simp [padLoop]
  | cons oe rest ih =>
      intro e he
      rw [padLoop] at he
      by_cases hflag : oe.nullEmitted = true
      · simp only [hflag, Bool.not_true, Bool.false_eq_true, if_false, List.mem_cons] at he
        rcases he with rfl | he
        · exact hflag
        · exact ih e he
      · simp only [hflag, Bool.not_false, if_true, List.mem_cons] at he
        rcases he with rfl | he
        · rfl
        · exact ih e he

theorem rowsOf_eraseP (row : Row V) (entries : List (Entry V)) :
    rowsOf (entries.eraseP (entriesMatch row)) = (rowsOf entries).erase row := by
  rw [rowsOf, rowsOf, List.erase_eq_eraseP', List.eraseP_map]
  congr 2

/-- What a row withdraws and brings, by the lists of its key. -/
def listsWithdraw (op : EquiJoinRowOp V) (lists : Lists V) (side : Bool) : Multiset (Parts V) :=
  if op.kind.keepsUnmatched (!side) && (lists side).isEmpty then
    ↑((rowsOf (lists (!side))).map (outerOf (!side))) else 0

@[inherit_doc listsWithdraw]
def listsBring (op : EquiJoinRowOp V) (lists : Lists V) (side : Bool) (b : Row V) :
    Multiset (Parts V) :=
  (↑((rowsOf (lists (!side))).map (pairOf side b)) : Multiset (Parts V)) +
    if op.kind.keepsUnmatched side && (lists (!side)).isEmpty then {outerOf side b} else 0

omit [DecidableEq V] in
theorem isEmpty_eq_of_rows {a b : List (Entry V)}
    (h : a.map Entry.row = b.map Entry.row) : a.isEmpty = b.isEmpty := by
  have hlength := congrArg List.length h
  rw [List.length_map, List.length_map] at hlength
  rw [Bool.eq_iff_iff, List.isEmpty_iff_length_eq_zero, List.isEmpty_iff_length_eq_zero, hlength]

variable {r : Record V}

theorem stepKey_insert (hflags : op.Flagged lists) {k : V} (hkey : op.recordKey r = some k)
    (hkind : r.kind.isDeleteLike = false) :
    rowsOf ((op.stepKey lists r).1 r.isLeft) = rowsOf (lists r.isLeft) ++ [r.row] ∧
    rowsOf ((op.stepKey lists r).1 (!r.isLeft)) = rowsOf (lists (!r.isLeft)) ∧
    op.Flagged (op.stepKey lists r).1 ∧
    replay (op.listsWithdraw lists r.isLeft) (op.stepKey lists r).2 =
      some (op.listsBring lists r.isLeft r.row) := by
  have hne : (!r.isLeft) ≠ r.isLeft := by cases r.isLeft <;> decide
  have hother := hflags (!r.isLeft)
  rw [Bool.not_not] at hother
  by_cases hnone : lists (!r.isLeft) = []
  · simp only [stepKey, hkey, hkind, hnone, Bool.false_eq_true, if_false, if_true]
    rw [Function.update_self, Function.update_of_ne hne, hnone]
    refine ⟨by simp [rowsOf], rfl, ?_, ?_⟩
    · apply flagged_of r.isLeft
      · intro e he
        rw [Function.update_self] at he
        rw [Function.update_of_ne hne, hnone]
        rcases List.mem_append.mp he with hold | hnew
        · rw [hflags r.isLeft e hold, hnone]
        · rw [List.mem_singleton.mp hnew]
          simp
      · intro e he
        rw [Function.update_of_ne hne, hnone] at he
        simp at he
    · unfold listsWithdraw listsBring
      cases op.kind.keepsUnmatched r.isLeft <;> simp [rowsOf, hnone]
  · have hisEmpty : (lists (!r.isLeft)).isEmpty = false := by simpa using hnone
    simp only [stepKey, hkey, hkind, hnone, Bool.false_eq_true, if_false]
    rw [Function.update_of_ne hne.symm, Function.update_self, Function.update_self]
    refine ⟨by simp [rowsOf], rows_matchLoop _ _ _ _, ?_, ?_⟩
    · have hfound : (matchLoop (op.kind.keepsUnmatched (!r.isLeft)) r.isLeft r.row
          (lists (!r.isLeft))).1.isEmpty = false := by
        rw [isEmpty_eq_of_rows (rows_matchLoop _ _ _ _), hisEmpty]
      apply flagged_of r.isLeft
      · intro e he
        rw [Function.update_of_ne hne.symm, Function.update_self] at he
        rw [Function.update_self, hfound, Bool.and_false]
        rcases List.mem_append.mp he with hold | hnew
        · rw [hflags r.isLeft e hold, hisEmpty, Bool.and_false]
        · rw [List.mem_singleton.mp hnew]
      · intro e he
        rw [Function.update_self] at he
        rw [Function.update_of_ne hne.symm, Function.update_self]
        rw [matchLoop_flag (fun oe hoe hset => ?_) e he]
        · simp
        · rw [hother oe hoe, Bool.and_eq_true] at hset
          exact hset.1
    · unfold listsWithdraw listsBring
      rw [replay_matchLoop (fun hpadded => (Bool.and_eq_true _ _ ▸ hpadded).1) hother, hisEmpty]
      simp

theorem stepKey_retract (hflags : op.Flagged lists) {k : V} (hkey : op.recordKey r = some k)
    (hkind : r.kind.isDeleteLike = true) (hmem : r.row ∈ rowsOf (lists r.isLeft)) :
    rowsOf ((op.stepKey lists r).1 r.isLeft) = (rowsOf (lists r.isLeft)).erase r.row ∧
    rowsOf ((op.stepKey lists r).1 (!r.isLeft)) = rowsOf (lists (!r.isLeft)) ∧
    op.Flagged (op.stepKey lists r).1 ∧
    replay (op.listsBring lists r.isLeft r.row) (op.stepKey lists r).2 =
      some (op.listsWithdraw (op.stepKey lists r).1 r.isLeft) := by
  have hne : (!r.isLeft) ≠ r.isLeft := by cases r.isLeft <;> decide
  have hother := hflags (!r.isLeft)
  rw [Bool.not_not] at hother
  obtain ⟨me, hme, hmerow⟩ : ∃ me, (lists r.isLeft).find? (entriesMatch r.row) = some me ∧
      me.row = r.row := by
    obtain ⟨e, he, hrow⟩ := List.mem_map.mp hmem
    have hsome : ((lists r.isLeft).find? (entriesMatch r.row)).isSome := by
      rw [List.find?_isSome]
      exact ⟨e, he, by simp [entriesMatch, hrow]⟩
    obtain ⟨me, hfind⟩ := Option.isSome_iff_exists.mp hsome
    exact ⟨me, hfind, by simpa [entriesMatch] using List.find?_some hfind⟩
  have hmeflag := hflags r.isLeft me (List.mem_of_find?_eq_some hme)
  have hselfne : (lists r.isLeft).isEmpty = false := by
    have := List.mem_of_find?_eq_some hme
    cases hl : lists r.isLeft with
    | nil => simp [hl] at this
    | cons e rest => rfl
  rw [hselfne] at hother
  simp only [Bool.and_false] at hother
  by_cases hnone : lists (!r.isLeft) = []
  · simp only [stepKey, hkey, hkind, hme, hnone, if_true]
    rw [Function.update_self, Function.update_of_ne hne, hnone]
    refine ⟨rowsOf_eraseP _ _, rfl, ?_, ?_⟩
    · apply flagged_of r.isLeft
      · intro e he
        rw [Function.update_self] at he
        rw [Function.update_of_ne hne, hnone, hflags r.isLeft e (List.mem_of_mem_eraseP he), hnone]
      · intro e he
        rw [Function.update_of_ne hne, hnone] at he
        simp at he
    · unfold listsWithdraw listsBring
      rw [Function.update_self, Function.update_of_ne hne, hnone, hmeflag, hnone, hmerow]
      cases op.kind.keepsUnmatched r.isLeft <;> simp [rowsOf, replay]
  · have hisEmpty : (lists (!r.isLeft)).isEmpty = false := by simpa using hnone
    have hdeletes := replay_deletePairs r.isLeft r.row (lists (!r.isLeft))
    have hbring : op.listsBring lists r.isLeft r.row =
        ↑((rowsOf (lists (!r.isLeft))).map (pairOf r.isLeft r.row)) := by
      simp [listsBring, hisEmpty]
    by_cases hpad : (op.kind.keepsUnmatched (!r.isLeft) &&
        ((lists r.isLeft).eraseP (entriesMatch r.row)).isEmpty) = true
    · simp only [stepKey, hkey, hkind, hme, hnone, if_true, if_false, hpad]
      rw [Function.update_of_ne hne.symm, Function.update_self, Function.update_self]
      refine ⟨rowsOf_eraseP _ _, rows_padLoop _ _, ?_, ?_⟩
      · have hfound : (padLoop r.isLeft (lists (!r.isLeft))).1.isEmpty = false := by
          rw [isEmpty_eq_of_rows (rows_padLoop _ _), hisEmpty]
        apply flagged_of r.isLeft
        · intro e he
          rw [Function.update_of_ne hne.symm, Function.update_self] at he
          rw [Function.update_self, hfound, Bool.and_false,
            hflags r.isLeft e (List.mem_of_mem_eraseP he), hisEmpty, Bool.and_false]
        · intro e he
          rw [Function.update_self] at he
          rw [Function.update_of_ne hne.symm, Function.update_self, hpad]
          exact padLoop_flag e he
      · have hpads := replay_padLoop r.isLeft hother
        rw [hbring, hmerow, replay_trans hdeletes hpads]
        unfold listsWithdraw
        rw [Function.update_of_ne hne.symm, Function.update_self, Function.update_self, hpad,
          if_pos rfl]
        congr 3
        exact (rows_padLoop _ _).symm
    · simp only [stepKey, hkey, hkind, hme, hnone, if_true, if_false, hpad, Bool.false_eq_true]
      rw [Function.update_self, Function.update_of_ne hne]
      refine ⟨rowsOf_eraseP _ _, rfl, ?_, ?_⟩
      · apply flagged_of r.isLeft
        · intro e he
          rw [Function.update_self] at he
          rw [Function.update_of_ne hne, hflags r.isLeft e (List.mem_of_mem_eraseP he)]
        · intro e he
          rw [Function.update_of_ne hne] at he
          rw [Function.update_self, hother e he]
          exact (Bool.not_eq_true _ ▸ hpad).symm
      · rw [hbring, hmerow, hdeletes]
        unfold listsWithdraw
        rw [Function.update_self, if_neg hpad]

/-! ## One record -/

/-- The lists of the keys hold the live rows, with their flags. -/
structure Tracks (op : EquiJoinRowOp V) (s : Option V → Lists V) (m : Live V) : Prop where
  rows : ∀ side k, (↑(rowsOf (s (some k) side)) : Multiset (Row V)) =
    (m side).filter fun b => op.keyOf side b = some k
  flags : ∀ k, op.Flagged (s (some k))

variable {s : Option V → Lists V} {k : V}

theorem Tracks.filter_partners (h : op.Tracks s m) (hkey : op.keyOf side b = some k) :
    (m (!side)).filter (op.Partners side b) = ↑(rowsOf (s (some k) (!side))) := by
  rw [h.rows]
  apply Multiset.filter_congr
  intro c _
  unfold Partners
  rw [hkey]
  constructor
  · exact fun hc => hc.1.symm
  · exact fun hc => ⟨hc.symm, by simp⟩

theorem Tracks.no_key_iff (h : op.Tracks s m) (hkey : op.keyOf side b = some k) :
    (∀ c ∈ m side, op.keyOf side c ≠ op.keyOf side b) ↔ s (some k) side = [] := by
  have hrows := h.rows side k
  rw [hkey]
  constructor
  · intro hnone
    rw [Multiset.filter_eq_nil.mpr hnone, Multiset.coe_eq_zero, rowsOf,
      List.map_eq_nil_iff] at hrows
    exact hrows
  · intro hnil
    rw [hnil] at hrows
    exact Multiset.filter_eq_nil.mp hrows.symm

/-- What a row withdraws and brings, read off the lists of its key. -/
theorem Tracks.withdrawn_eq (h : op.Tracks s m) (hkey : op.keyOf side b = some k) :
    op.withdrawn m side b = op.listsWithdraw (s (some k)) side := by
  unfold withdrawn listsWithdraw
  simp only [h.filter_partners hkey, h.no_key_iff hkey, Multiset.map_coe, Bool.and_eq_true,
    List.isEmpty_iff]

theorem Tracks.brought_eq (h : op.Tracks s m) (hkey : op.keyOf side b = some k) :
    op.brought m side b = op.listsBring (s (some k)) side b := by
  unfold brought listsBring
  simp only [h.filter_partners hkey, Multiset.map_coe, Multiset.coe_eq_zero, rowsOf,
    List.map_eq_nil_iff, Bool.and_eq_true, List.isEmpty_iff]

theorem brought_null (hkey : op.keyOf side b = none) :
    op.withdrawn m side b = 0 ∧
      op.brought m side b = if op.kind.keepsUnmatched side then {outerOf side b} else 0 := by
  have hnone : (m (!side)).filter (op.Partners side b) = 0 := by
    rw [Multiset.filter_eq_nil]
    exact fun c _ hpartner => hpartner.2 hkey
  unfold withdrawn brought
  rw [hnone]
  simp

/-- New lists of one key track new live rows of that key. -/
theorem Tracks.update (h : op.Tracks s m) {side : Bool} {k : V}
    {rows : Multiset (Row V)}
    (hself : (↑(rowsOf (lists side)) : Multiset (Row V)) =
      rows.filter fun b => op.keyOf side b = some k)
    (hother : rowsOf (lists (!side)) = rowsOf (s (some k) (!side)))
    (hrest : ∀ k', k' ≠ k → (rows.filter fun b => op.keyOf side b = some k') =
      (m side).filter fun b => op.keyOf side b = some k')
    (hflags : op.Flagged lists) :
    op.Tracks (Function.update s (some k) lists) (Function.update m side rows) where
  rows side' k' := by
    by_cases hk : k' = k
    · subst hk
      rw [Function.update_self]
      by_cases hside : side' = side
      · subst hside
        rw [Function.update_self]
        exact hself
      · rw [Function.update_of_ne hside]
        obtain rfl : side' = !side := by
          cases side' <;> cases side <;> simp_all
        rw [hother]
        exact h.rows (!side) k'
    · rw [Function.update_of_ne (by simpa using hk)]
      by_cases hside : side' = side
      · subst hside
        rw [Function.update_self, hrest k' hk]
        exact h.rows side' k'
      · rw [Function.update_of_ne hside]
        exact h.rows side' k'
  flags k' := by
    by_cases hk : k' = k
    · subst hk
      rw [Function.update_self]
      exact hflags
    · rw [Function.update_of_ne (by simpa using hk)]
      exact h.flags k'

theorem Tracks.null_key (h : op.Tracks s m) {side : Bool} {rows : Multiset (Row V)}
    (hrest : ∀ k, (rows.filter fun b => op.keyOf side b = some k) =
      (m side).filter fun b => op.keyOf side b = some k) :
    op.Tracks s (Function.update m side rows) where
  rows side' k := by
    by_cases hside : side' = side
    · subst hside
      rw [Function.update_self, hrest k]
      exact h.rows side' k
    · rw [Function.update_of_ne hside]
      exact h.rows side' k
  flags := h.flags

theorem filter_key_cons_of_ne {side : Bool} {b : Row V} {k : V}
    (hne : op.keyOf side b ≠ some k) (rows : Multiset (Row V)) :
    ((b ::ₘ rows).filter fun b => op.keyOf side b = some k) =
      rows.filter fun b => op.keyOf side b = some k :=
  Multiset.filter_cons_of_neg _ hne

theorem filter_key_cons {side : Bool} {b : Row V} {k : V}
    (hkey : op.keyOf side b = some k) (rows : Multiset (Row V)) :
    ((b ::ₘ rows).filter fun b => op.keyOf side b = some k) =
      b ::ₘ rows.filter fun b => op.keyOf side b = some k :=
  Multiset.filter_cons_of_pos _ hkey

/-- Exchanging what a row withdraws for what it brings, whatever else is live. -/
theorem replay_exchange {out : List (Change (Parts V))}
    (hout : replay (op.withdrawn m r.isLeft r.row) out = some (op.brought m r.isLeft r.row)) :
    replay (op.sqlJoin m) out = some (op.sqlJoin (addLive m r.isLeft r.row)) := by
  obtain ⟨rest, hbefore, hafter⟩ := op.sqlJoin_addLive m r.isLeft r.row
  rw [hbefore, hafter]
  exact replay_add hout rest

theorem replay_exchange_back {out : List (Change (Parts V))}
    (hout : replay (op.brought m r.isLeft r.row) out = some (op.withdrawn m r.isLeft r.row)) :
    replay (op.sqlJoin (addLive m r.isLeft r.row)) out = some (op.sqlJoin m) := by
  obtain ⟨rest, hbefore, hafter⟩ := op.sqlJoin_addLive m r.isLeft r.row
  rw [hbefore, hafter]
  exact replay_add hout rest

theorem Tracks.insert (h : op.Tracks s m) (hkind : r.kind.isDeleteLike = false) :
    op.Tracks (atKey op.recordKey op.stepKey s r).1 (addLive m r.isLeft r.row) ∧
      replay (op.sqlJoin m) (atKey op.recordKey op.stepKey s r).2 =
        some (op.sqlJoin (addLive m r.isLeft r.row)) := by
  cases hkey : op.recordKey r with
  | none =>
      have hnull : op.keyOf r.isLeft r.row = none := hkey
      obtain ⟨hwithdrawn, hbrought⟩ := brought_null (m := m) hnull
      simp only [atKey, stepKey, hkey, Function.update_eq_self]
      refine ⟨h.null_key fun k => filter_key_cons_of_ne (by simp [hnull]) _, ?_⟩
      apply replay_exchange
      rw [hwithdrawn, hbrought, handleNullKey, hkind]
      cases op.kind.keepsUnmatched r.isLeft <;> simp
  | some k =>
      have hkeyOf : op.keyOf r.isLeft r.row = some k := hkey
      obtain ⟨hself, hother, hflags, hreplay⟩ := stepKey_insert (h.flags k) hkey hkind
      simp only [atKey, hkey]
      constructor
      · refine h.update ?_ hother ?_ hflags
        · rw [hself, filter_key_cons hkeyOf, ← h.rows, ← Multiset.coe_add, add_comm]
          rfl
        · intro k' hk'
          exact filter_key_cons_of_ne (by simpa [hkeyOf] using Ne.symm hk') _
      · apply replay_exchange
        rw [h.withdrawn_eq hkeyOf, h.brought_eq hkeyOf]
        exact hreplay

theorem Tracks.retract (h : op.Tracks s (addLive m r.isLeft r.row))
    (hkind : r.kind.isDeleteLike = true) :
    op.Tracks (atKey op.recordKey op.stepKey s r).1 m ∧
      replay (op.sqlJoin (addLive m r.isLeft r.row)) (atKey op.recordKey op.stepKey s r).2 =
        some (op.sqlJoin m) := by
  have hback : Function.update (addLive m r.isLeft r.row) r.isLeft (m r.isLeft) = m := by
    rw [addLive, Function.update_idem, Function.update_eq_self]
  cases hkey : op.recordKey r with
  | none =>
      have hnull : op.keyOf r.isLeft r.row = none := hkey
      obtain ⟨hwithdrawn, hbrought⟩ := brought_null (m := m) hnull
      simp only [atKey, stepKey, hkey, Function.update_eq_self]
      constructor
      · rw [← hback]
        apply h.null_key
        intro k
        rw [addLive_self]
        exact (filter_key_cons_of_ne (by simp [hnull]) _).symm
      · apply replay_exchange_back
        rw [hwithdrawn, hbrought, handleNullKey, hkind]
        cases op.kind.keepsUnmatched r.isLeft <;> simp [replay]
  | some k =>
      have hkeyOf : op.keyOf r.isLeft r.row = some k := hkey
      have hrows : (↑(rowsOf (s (some k) r.isLeft)) : Multiset (Row V)) =
          r.row ::ₘ (m r.isLeft).filter fun b => op.keyOf r.isLeft b = some k := by
        rw [h.rows, addLive_self, filter_key_cons hkeyOf]
      have hmem : r.row ∈ rowsOf (s (some k) r.isLeft) := by
        rw [← Multiset.mem_coe, hrows]
        exact Multiset.mem_cons_self _ _
      obtain ⟨hself, hother, hflags, hreplay⟩ := stepKey_retract (h.flags k) hkey hkind hmem
      have htracks : op.Tracks (atKey op.recordKey op.stepKey s r).1 m := by
        rw [← hback]
        simp only [atKey, hkey]
        refine h.update ?_ hother ?_ hflags
        · rw [hself, ← Multiset.coe_erase, hrows, Multiset.erase_cons_head]
        · intro k' hk'
          rw [addLive_self]
          exact (filter_key_cons_of_ne (by simpa [hkeyOf] using Ne.symm hk') _).symm
      refine ⟨htracks, ?_⟩
      apply replay_exchange_back
      have hbrought : op.brought m r.isLeft r.row =
          op.brought (addLive m r.isLeft r.row) r.isLeft r.row := by
        unfold brought
        rw [addLive_not]
      rw [hbrought, h.brought_eq hkeyOf, htracks.withdrawn_eq hkeyOf]
      simp only [atKey, hkey, Function.update_self]
      exact hreplay

/-- One record keeps the lists and the changelog true to the live rows. -/
theorem Tracks.step (h : op.Tracks s m) (hlive : r.kind.isDeleteLike = true → r.row ∈ m r.isLeft) :
    op.Tracks (atKey op.recordKey op.stepKey s r).1 (applyLive Record.row m r) ∧
      replay (op.sqlJoin m) (atKey op.recordKey op.stepKey s r).2 =
        some (op.sqlJoin (applyLive Record.row m r)) := by
  by_cases hkind : r.kind.isDeleteLike = true
  · have hm : m = addLive (applyLive Record.row m r) r.isLeft r.row := by
      have herase : applyLive Record.row m r =
          Function.update m r.isLeft ((m r.isLeft).erase r.row) := by
        rw [applyLive, if_pos hkind]
      rw [herase, addLive, Function.update_self, Function.update_idem,
        Multiset.cons_erase (hlive hkind), Function.update_eq_self]
    have htracks : op.Tracks s (addLive (applyLive Record.row m r) r.isLeft r.row) := hm ▸ h
    have hretract := htracks.retract hkind
    rw [← hm] at hretract
    exact hretract
  · have hm : applyLive Record.row m r = addLive m r.isLeft r.row := by
      rw [applyLive, if_neg hkind]
      rfl
    rw [hm]
    exact h.insert (by simpa using hkind)

/-! ## Whole runs -/

theorem tracks_run (op : EquiJoinRowOp V) (es : List (Record V)) (hvalid : Valid Record.row es) :
    let run := es.foldl (emitting (atKey op.recordKey op.stepKey)) (fun _ _ => [], [])
    op.Tracks run.1 (live Record.row es) ∧ replay 0 run.2 =
      some (op.sqlJoin (live Record.row es)) := by
  induction es using List.reverseRecOn with
  | nil =>
      refine ⟨⟨?_, ?_⟩, ?_⟩
      · intro side k
        rfl
      · intro k side e he
        simp at he
      · simp [live, sqlJoin, sqlPairs, sqlPads]
  | append_singleton es r ih =>
      obtain ⟨htracks, hreplay⟩ := ih hvalid.start
      have hstep := htracks.step (hvalid es r [] rfl)
      rw [List.foldl_append, live_snoc]
      exact ⟨hstep.1, replay_trans hreplay hstep.2⟩

theorem Follows.batches_eq
    {handle : Sides V → Record V → Sides V × List (Change (Parts V))} (h : op.Follows handle)
    (es : List (Record V)) :
    batches handle {} es = batches (atKey op.recordKey op.stepKey) (fun _ _ => []) es := by
  apply batches_eq_of_follows (R := Holds)
  · exact fun st s r hholds => h st s r hholds
  · intro side k
    cases side <;> rfl

theorem Follows.replay_eq
    {handle : Sides V → Record V → Sides V × List (Change (Parts V))} (h : op.Follows handle)
    {es : List (Record V)} (hvalid : Valid Record.row es) :
    replay 0 (es.foldl (emitting handle) ({}, [])).2 = some (op.sqlJoin (live Record.row es)) := by
  rw [foldl_emitting, h.batches_eq, ← foldl_emitting]
  exact (tracks_run op es hvalid).2

/-- A full outer join of rows with a key and a value. -/
def sampleJoin : EquiJoinRowOp Int where
  leftKeyColumn := ['k']
  rightKeyColumn := ['k']
  leftAlias := ['l']
  rightAlias := ['r']
  kind := .fullOuter
  leftColumns := [['k']]
  rightColumns := [['k']]

def sampleRow (key : Option Int) : Row Int := assign .empty ['k'] key

/-- A right row finds a padded left one, which is then retracted. -/
def sampleRecords : List (Record Int) :=
  [⟨true, .insert, sampleRow (some 1)⟩, ⟨false, .insert, sampleRow (some 1)⟩,
    ⟨false, .updateAfter, sampleRow none⟩, ⟨true, .delete, sampleRow (some 1)⟩]

end EquiJoinRowOp

end Clink.Ports.EquiJoin

import Clink.Ports.SemiAntiJoin

/-!
# What the semi and anti joins' changelogs net to

Which left rows qualify is read off the rows that arrived (`Qualifies`), with
the three-valued comparison of NOT IN spelled out by position (`Agrees`).  A
path answers an arrival as it should (`Answers`) when a left row is inserted if
it qualifies, and a right row changes exactly the left rows whose status it
changes; from that alone the changelog nets to the qualifying rows and is
minimal (`Answers.replay`, `Answers.minimal`).
-/

namespace Clink.Ports.SemiAntiJoin

open Clink.Verified
open Clink.Ports.SqlRow

variable {V : Type} [DecidableEq V]

/-- The left and the right rows of a run. -/
def lefts (as : List (Arrival V)) : List (Row V) := (as.filter (·.isLeft)).map (·.row)

@[inherit_doc lefts]
def rights (as : List (Arrival V)) : List (Row V) := (as.filter fun a => !a.isLeft).map (·.row)

/-- Two tuples are equal wherever both are known. -/
def Agrees (a b : MaskedKey V) : Prop :=
  ∀ (i : Nat) (x y : V), a[i]? = some (some x) → b[i]? = some (some y) → x = y

namespace SemiAntiJoinRowOp

omit [DecidableEq V] in
private theorem agrees_cons {p q : Option V} {a b : MaskedKey V} :
    Agrees (p :: a) (q :: b) ↔ (∀ x y, p = some x → q = some y → x = y) ∧ Agrees a b := by
  constructor
  · intro h
    refine ⟨fun x y hp hq => h 0 x y (by simp [hp]) (by simp [hq]), ?_⟩
    intro i x y hx hy
    exact h (i + 1) x y (by simpa using hx) (by simpa using hy)
  · rintro ⟨hhead, htail⟩ i x y hx hy
    cases i with
    | zero => exact hhead x y (by simpa using hx) (by simpa using hy)
    | succ i => exact htail i x y (by simpa using hx) (by simpa using hy)

/-- The walk over the positions decides agreement. -/
theorem potentialMatch_iff (a b : MaskedKey V) : potentialMatch a b = true ↔ Agrees a b := by
  induction a generalizing b with
  | nil =>
      refine iff_of_true (by cases b <;> rfl) ?_
      intro i x y hx
      simp at hx
  | cons p a ih =>
      cases b with
      | nil =>
          refine iff_of_true (by cases p <;> rfl) ?_
          intro i x y _ hy
          simp at hy
      | cons q b =>
          rw [agrees_cons, ← ih b]
          cases p with
          | none => simp [potentialMatch]
          | some x =>
              cases q with
              | none => simp [potentialMatch]
              | some y =>
                  by_cases hxy : x = y
                  · simp [potentialMatch, hxy]
                  · simp [potentialMatch, hxy]

instance (a b : MaskedKey V) : Decidable (Agrees a b) :=
  decidable_of_iff _ (potentialMatch_iff a b)

/-! ## The rows that qualify -/

variable (op : SemiAntiJoinRowOp)

/-- A right row decides over a left row: for NOT IN it is not known to differ,
otherwise their tuples are equal and have no NULL. -/
def Hits (l r : Row V) : Prop :=
  if op.anti ∧ op.nullAware then
    Agrees (maskedKeyOf l op.leftKeyColumns) (maskedKeyOf r op.rightKeyColumns)
  else keyOf l op.leftKeyColumns = keyOf r op.rightKeyColumns ∧ keyOf l op.leftKeyColumns ≠ none

instance (l r : Row V) : Decidable (op.Hits l r) :=
  inferInstanceAs (Decidable (if _ ∧ _ then Agrees _ _ else _ ∧ _))

/-- IN and EXISTS ask for a right row that decides; NOT IN and NOT EXISTS for none. -/
def Qualifies (rs : List (Row V)) (l : Row V) : Prop :=
  if op.anti then ∀ r ∈ rs, ¬ op.Hits l r else ∃ r ∈ rs, op.Hits l r

instance (rs : List (Row V)) (l : Row V) : Decidable (op.Qualifies rs l) :=
  inferInstanceAs (Decidable (if op.anti = true then ∀ r ∈ rs, ¬ op.Hits l r
    else ∃ r ∈ rs, op.Hits l r))

/-- The left rows that qualify. -/
def qualifying (as : List (Arrival V)) : Multiset (Row V) :=
  (↑(lefts as) : Multiset (Row V)).filter fun l => op.Qualifies (rights as) l

/-- The answer an arrival should get. -/
def Answers (as : List (Arrival V)) (a : Arrival V) (batch : List (Change (Row V))) : Prop :=
  if a.isLeft then
    batch = if op.Qualifies (rights as) a.row then [.insert a.row] else []
  else if op.anti then
    ∃ rows : List (Row V), batch = rows.map .delete ∧ (↑rows : Multiset (Row V)) =
      (↑(lefts as) : Multiset (Row V)).filter fun l =>
        op.Qualifies (rights as) l ∧ op.Hits l a.row
  else
    ∃ rows : List (Row V), batch = rows.map .insert ∧ (↑rows : Multiset (Row V)) =
      (↑(lefts as) : Multiset (Row V)).filter fun l =>
        ¬ op.Qualifies (rights as) l ∧ op.Hits l a.row

variable {op} {as : List (Arrival V)} {a : Arrival V} {batch : List (Change (Row V))}

omit [DecidableEq V] in
theorem lefts_snoc (as : List (Arrival V)) (a : Arrival V) :
    lefts (as ++ [a]) = lefts as ++ if a.isLeft then [a.row] else [] := by
  rw [lefts, List.filter_append, List.map_append]
  cases h : a.isLeft <;> simp [lefts, h]

omit [DecidableEq V] in
theorem rights_snoc (as : List (Arrival V)) (a : Arrival V) :
    rights (as ++ [a]) = rights as ++ if a.isLeft then [] else [a.row] := by
  rw [rights, List.filter_append, List.map_append]
  cases h : a.isLeft <;> simp [rights, h]

theorem qualifying_left (hleft : a.isLeft = true) : op.qualifying (as ++ [a]) = op.qualifying as +
    if op.Qualifies (rights as) a.row then {a.row} else 0 := by
  unfold qualifying
  rw [lefts_snoc, rights_snoc]
  simp only [hleft, if_true, List.append_nil]
  rw [← Multiset.coe_add, Multiset.filter_add, Multiset.coe_singleton, Multiset.filter_singleton]
  rfl

/-- A right row retracts the rows it decides against. -/
theorem qualifying_right_anti (hright : a.isLeft = false) (hanti : op.anti = true) :
    op.qualifying as = op.qualifying (as ++ [a]) +
      (↑(lefts as) : Multiset (Row V)).filter fun l =>
        op.Qualifies (rights as) l ∧ op.Hits l a.row := by
  have hsplit := Multiset.filter_add_not (fun l => op.Hits l a.row) (op.qualifying as)
  have hhits : (op.qualifying as).filter (fun l => op.Hits l a.row) =
      (↑(lefts as) : Multiset (Row V)).filter fun l =>
        op.Qualifies (rights as) l ∧ op.Hits l a.row := by
    rw [qualifying, Multiset.filter_filter]
    apply Multiset.filter_congr
    intro l _
    exact and_comm
  have hafter : (op.qualifying as).filter (fun l => ¬ op.Hits l a.row) =
      op.qualifying (as ++ [a]) := by
    unfold qualifying
    rw [Multiset.filter_filter, lefts_snoc, rights_snoc]
    simp only [hright, Bool.false_eq_true, if_false, List.append_nil]
    apply Multiset.filter_congr
    intro l _
    simp only [Qualifies, hanti, if_true, List.mem_append, List.mem_singleton, or_imp,
      forall_and, forall_eq]
    exact and_comm
  rw [← hhits, ← hafter, add_comm, hsplit]

/-- A right row brings in the rows it is the first to decide for. -/
theorem qualifying_right_semi (hright : a.isLeft = false) (hsemi : op.anti = false) :
    op.qualifying (as ++ [a]) = op.qualifying as +
      (↑(lefts as) : Multiset (Row V)).filter fun l =>
        ¬ op.Qualifies (rights as) l ∧ op.Hits l a.row := by
  have hsplit := Multiset.filter_add_not (fun l => op.Qualifies (rights as) l)
    (op.qualifying (as ++ [a]))
  have hiff : ∀ l, op.Qualifies (rights as ++ [a.row]) l ↔
      op.Qualifies (rights as) l ∨ op.Hits l a.row := by
    intro l
    simp only [Qualifies, hsemi, Bool.false_eq_true, if_false, List.mem_append,
      List.mem_singleton, or_and_right, exists_or, exists_eq_left]
  rw [← hsplit]
  congr 1
  · unfold qualifying
    rw [Multiset.filter_filter, lefts_snoc, rights_snoc]
    simp only [hright, Bool.false_eq_true, if_false, List.append_nil, hiff]
    apply Multiset.filter_congr
    intro l _
    exact ⟨fun h => h.1, fun h => ⟨h, Or.inl h⟩⟩
  · unfold qualifying
    rw [Multiset.filter_filter, lefts_snoc, rights_snoc]
    simp only [hright, Bool.false_eq_true, if_false, List.append_nil, hiff]
    apply Multiset.filter_congr
    intro l _
    tauto

/-- A path that answers as it should keeps the net. -/
theorem Answers.replay (h : op.Answers as a batch) :
    replay (op.qualifying as) batch = some (op.qualifying (as ++ [a])) := by
  unfold Answers at h
  cases hleft : a.isLeft with
  | true =>
      rw [if_pos hleft] at h
      rw [h, qualifying_left hleft]
      by_cases hq : op.Qualifies (rights as) a.row
      · rw [if_pos hq, if_pos hq, replay_insert, add_comm]
        rfl
      · rw [if_neg hq, if_neg hq, add_zero]
        rfl
  | false =>
      rw [if_neg (by simp [hleft])] at h
      cases hanti : op.anti with
      | true =>
          rw [if_pos hanti] at h
          obtain ⟨rows, rfl, hrows⟩ := h
          rw [qualifying_right_anti hleft hanti, ← hrows]
          exact replay_deletes _ rows
      | false =>
          rw [if_neg (by simp [hanti])] at h
          obtain ⟨rows, rfl, hrows⟩ := h
          rw [qualifying_right_semi hleft hanti, ← hrows]
          exact replay_inserts _ rows

theorem sub_grown (m d : Multiset (Row V)) : m + d - m = d ∧ m - (m + d) = 0 := by
  refine ⟨add_tsub_cancel_left m d, ?_⟩
  apply Multiset.ext.mpr
  intro row
  rw [Multiset.count_sub, Multiset.count_add, Multiset.count_zero]
  omega

/-- It inserts and deletes exactly the rows whose status changes, as often as
they are there. -/
theorem Answers.minimal (h : op.Answers as a batch) :
    (↑(insertedRows batch) : Multiset (Row V)) =
        op.qualifying (as ++ [a]) - op.qualifying as ∧
      (↑(deletedRows batch) : Multiset (Row V)) =
        op.qualifying as - op.qualifying (as ++ [a]) := by
  unfold Answers at h
  cases hleft : a.isLeft with
  | true =>
      rw [if_pos hleft] at h
      rw [h, qualifying_left hleft, (sub_grown _ _).1, (sub_grown _ _).2]
      by_cases hq : op.Qualifies (rights as) a.row
      · simp [hq, insertedRows, deletedRows]
      · simp [hq, insertedRows, deletedRows]
  | false =>
      rw [if_neg (by simp [hleft])] at h
      cases hanti : op.anti with
      | true =>
          rw [if_pos hanti] at h
          obtain ⟨rows, rfl, hrows⟩ := h
          have hshrunk : op.qualifying as = _ := qualifying_right_anti hleft hanti
          rw [← hrows] at hshrunk
          generalize op.qualifying (as ++ [a]) = after at hshrunk ⊢
          rw [hshrunk, (sub_grown _ _).1, (sub_grown _ _).2]
          simp
      | false =>
          rw [if_neg (by simp [hanti])] at h
          obtain ⟨rows, rfl, hrows⟩ := h
          rw [qualifying_right_semi hleft hanti, ← hrows, (sub_grown _ _).1, (sub_grown _ _).2]
          simp

/-! ## The plain paths -/

omit [DecidableEq V] in
theorem hits_plain (hplain : op.nullAware = false) (l r : Row V) :
    op.Hits l r ↔ keyOf l op.leftKeyColumns = keyOf r op.rightKeyColumns ∧
      keyOf l op.leftKeyColumns ≠ none := by
  unfold Hits
  rw [if_neg (by simp [hplain])]

/-- How often a key came on the right. -/
def rightRows (op : SemiAntiJoinRowOp) (as : List (Arrival V)) (key : List V) : Nat :=
  (rights as).countP fun r => keyOf r op.rightKeyColumns = some key

/-- No key comes on the right so often that its count leaves `int`. -/
def Countable (op : SemiAntiJoinRowOp) (as : List (Arrival V)) : Prop :=
  ∀ key, op.rightRows as key < 2 ^ 31

/-- The slots tell the run: the rows of a key with their status, and how often
the key came on the right. -/
structure KeyedInv (op : SemiAntiJoinRowOp) (st : Keyed V) (as : List (Arrival V)) : Prop where
  rows : ∀ key, (↑(((st.left key).getD []).map LeftEntry.row) : Multiset (Row V)) =
    (↑(lefts as) : Multiset (Row V)).filter fun l => keyOf l op.leftKeyColumns = some key
  emitted : ∀ key, ∀ e ∈ (st.left key).getD [],
    e.emitted = decide (op.Qualifies (rights as) e.row)
  count : ∀ key, (st.right key).getD 0 = op.rightRows as key

variable {st : Keyed V}

theorem KeyedInv.present (h : op.KeyedInv st as) (key : List V) :
    0 < (st.right key).getD 0 ↔ ∃ r ∈ rights as, keyOf r op.rightKeyColumns = some key := by
  rw [h.count, Int.natCast_pos, rightRows, List.countP_pos_iff]
  simp only [decide_eq_true_iff]

theorem rightRows_snoc (op : SemiAntiJoinRowOp) (as : List (Arrival V)) (a : Arrival V)
    (key : List V) : op.rightRows (as ++ [a]) key = op.rightRows as key +
      if a.isLeft = false ∧ keyOf a.row op.rightKeyColumns = some key then 1 else 0 := by
  unfold rightRows
  rw [rights_snoc, List.countP_append]
  cases hleft : a.isLeft with
  | true => simp
  | false => simp [List.countP_singleton]

theorem Countable.start {post : List (Arrival V)} (h : op.Countable (as ++ post)) :
    op.Countable as := by
  intro key
  refine lt_of_le_of_lt ?_ (h key)
  unfold rightRows rights
  rw [List.filter_append, List.map_append, List.countP_append]
  exact Nat.le_add_right _ _

omit [DecidableEq V] in
/-- The entries whose flag is up to change are answered, and all end alike. -/
theorem transition_eq (anti : Bool) (entries : List (LeftEntry V)) :
    transition anti entries =
      (entries.map fun e => { e with emitted := !anti },
        ((entries.filter (·.emitted == anti)).map LeftEntry.row).map
          (if anti then .delete else .insert),
        entries.any (·.emitted == anti)) := by
  induction entries with
  | nil => rfl
  | cons e rest ih =>
      obtain ⟨row, emitted⟩ := e
      rw [transition, ih]
      cases anti <;> cases emitted <;> simp

omit [DecidableEq V] in
/-- A list no entry of which is up to change stays. -/
theorem transition_unchanged {anti : Bool} {entries : List (LeftEntry V)}
    (h : entries.any (·.emitted == anti) = false) :
    (entries.map fun e => { e with emitted := !anti }) = entries := by
  conv_rhs => rw [← List.map_id entries]
  apply List.map_congr_left
  intro e he
  have hne : e.emitted ≠ anti := by simpa using List.any_eq_false.mp h e he
  obtain ⟨row, emitted⟩ := e
  cases anti <;> cases emitted <;> simp_all

omit [DecidableEq V] in
theorem qualifies_snoc (rs : List (Row V)) (r l : Row V) :
    op.Qualifies (rs ++ [r]) l ↔
      if op.anti then op.Qualifies rs l ∧ ¬ op.Hits l r else op.Qualifies rs l ∨ op.Hits l r := by
  unfold Qualifies
  cases op.anti with
  | true =>
      simp only [if_true, List.mem_append, List.mem_singleton, or_imp, forall_and, forall_eq]
  | false =>
      simp only [Bool.false_eq_true, if_false, List.mem_append, List.mem_singleton, or_and_right,
        exists_or, exists_eq_left]

variable {rs : List (Row V)} {l : Row V}

omit [DecidableEq V] in
theorem qualifies_of_key (hplain : op.nullAware = false) {key : List V}
    (hkey : keyOf l op.leftKeyColumns = some key) :
    op.Qualifies rs l ↔ if op.anti then ¬ ∃ r ∈ rs, keyOf r op.rightKeyColumns = some key
      else ∃ r ∈ rs, keyOf r op.rightKeyColumns = some key := by
  have hhits : ∀ r, op.Hits l r ↔ keyOf r op.rightKeyColumns = some key := by
    intro r
    rw [hits_plain hplain, hkey]
    constructor
    · exact fun h => h.1.symm
    · exact fun h => ⟨h.symm, by simp⟩
  unfold Qualifies
  simp only [hhits, not_exists, not_and]

omit [DecidableEq V] in
private theorem qualifies_of_null (hplain : op.nullAware = false)
    (hkey : keyOf l op.leftKeyColumns = none) : op.Qualifies rs l ↔ op.anti = true := by
  have hhits : ∀ r, ¬ op.Hits l r := by
    intro r h
    exact ((hits_plain hplain l r).mp h).2 hkey
  unfold Qualifies
  cases hanti : op.anti <;> simp [hhits]

variable {r : Row V}

omit [DecidableEq V] in
/-- A right row that decides over no row with a new answer changes none. -/
theorem qualifies_snoc_of_same (hsame : ∀ l, op.Hits l r → ∃ r' ∈ rs, op.Hits l r') (l : Row V) :
    op.Qualifies (rs ++ [r]) l ↔ op.Qualifies rs l := by
  rw [qualifies_snoc]
  cases hanti : op.anti with
  | true =>
      rw [if_pos rfl, and_iff_left_iff_imp]
      intro hq hhits
      obtain ⟨r', hr', hhits'⟩ := hsame l hhits
      rw [Qualifies, if_pos hanti] at hq
      exact hq r' hr' hhits'
  | false =>
      rw [if_neg Bool.false_ne_true, or_iff_left_iff_imp]
      intro hhits
      rw [Qualifies, if_neg (by simp [hanti])]
      exact hsame l hhits

omit [DecidableEq V] in
/-- The status of a row the new right row does not decide over stays. -/
theorem qualifies_snoc_of_miss (hmiss : ¬ op.Hits l r) :
    op.Qualifies (rs ++ [r]) l ↔ op.Qualifies rs l := by
  rw [qualifies_snoc]
  cases op.anti <;> simp [hmiss]

omit [DecidableEq V] in
/-- The status of a row the new right row decides over. -/
theorem qualifies_snoc_of_hit (hhits : op.Hits l r) :
    op.Qualifies (rs ++ [r]) l ↔ op.anti = false := by
  rw [qualifies_snoc]
  cases op.anti <;> simp [hhits]

/-- The rows whose status a right row changes are retracted or brought in. -/
theorem answers_of_changed {rows : List (Row V)}
    (hrows : (↑rows : Multiset (Row V)) = (↑(lefts as) : Multiset (Row V)).filter fun l =>
      (op.Qualifies (rights as) l ↔ op.anti = true) ∧ op.Hits l r) :
    op.Answers as ⟨false, r⟩ (rows.map (if op.anti then .delete else .insert)) := by
  unfold Answers
  rw [if_neg (by simp)]
  cases hanti : op.anti with
  | true =>
      simp only [hanti, iff_true] at hrows
      exact ⟨rows, rfl, hrows⟩
  | false =>
      simp only [hanti, Bool.false_eq_true, iff_false] at hrows
      exact ⟨rows, rfl, hrows⟩

theorem answers_silent (hsame : ∀ l, op.Hits l r → ∃ r' ∈ rights as, op.Hits l r') :
    op.Answers as ⟨false, r⟩ [] := by
  have hrows : (↑([] : List (Row V)) : Multiset (Row V)) =
      (↑(lefts as) : Multiset (Row V)).filter fun l =>
        (op.Qualifies (rights as) l ↔ op.anti = true) ∧ op.Hits l r := by
    rw [Multiset.coe_nil, eq_comm, Multiset.filter_eq_nil]
    rintro l - ⟨hq, hhits⟩
    rw [← qualifies_snoc_of_same hsame l, qualifies_snoc_of_hit hhits] at hq
    cases hanti : op.anti <;> simp [hanti] at hq
  exact answers_of_changed hrows

theorem KeyedInv.left (hplain : op.nullAware = false) (h : op.KeyedInv st as) (row : Row V) :
    op.Answers as ⟨true, row⟩ (op.handleLeftKeyed st row).2 ∧
      op.KeyedInv (op.handleLeftKeyed st row).1 (as ++ [⟨true, row⟩]) := by
  have hlefts : lefts (as ++ [⟨true, row⟩]) = lefts as ++ [row] := lefts_snoc as ⟨true, row⟩
  have hrights : rights (as ++ [⟨true, row⟩]) = rights as := by
    rw [rights_snoc]
    simp
  cases hkey : keyOf row op.leftKeyColumns with
  | none =>
      simp only [handleLeftKeyed, hkey]
      refine ⟨?_, ?_, ?_, ?_⟩
      · simp only [Answers, if_true, qualifies_of_null hplain hkey]
      · intro key
        rw [hlefts, ← Multiset.coe_add, Multiset.filter_add, h.rows]
        simp [hkey]
      · rw [hrights]
        exact h.emitted
      · intro key
        rw [h.count, rightRows_snoc]
        simp
  | some key =>
      have hcount := h.present key
      have hstatus : (if !op.anti then decide ((st.right key).getD 0 > 0)
          else !decide ((st.right key).getD 0 > 0)) = decide (op.Qualifies (rights as) row) := by
        rw [Bool.eq_iff_iff, decide_eq_true_iff, qualifies_of_key hplain hkey, ← hcount]
        cases op.anti <;> simp
      simp only [handleLeftKeyed, hkey, hstatus]
      refine ⟨?_, ?_, ?_, ?_⟩
      · simp only [Answers, if_true, decide_eq_true_iff]
      · intro key'
        simp only
        rw [hlefts, ← Multiset.coe_add, Multiset.filter_add]
        by_cases hk : key' = key
        · subst hk
          rw [Function.update_self, Option.getD_some, List.map_append, ← Multiset.coe_add, h.rows]
          simp [Multiset.filter_singleton, hkey]
        · rw [Function.update_of_ne hk, h.rows]
          simp [Multiset.filter_singleton, hkey, Ne.symm hk]
      · intro key' e he
        simp only at he
        rw [hrights]
        by_cases hk : key' = key
        · subst hk
          rw [Function.update_self, Option.getD_some] at he
          rcases List.mem_append.mp he with hold | hnew
          · exact h.emitted key' e hold
          · rw [List.mem_singleton.mp hnew]
        · rw [Function.update_of_ne hk] at he
          exact h.emitted key' e he
      · intro key'
        rw [h.count, rightRows_snoc]
        simp

theorem KeyedInv.key_of_mem (h : op.KeyedInv st as) {key : List V} {e : LeftEntry V}
    (he : e ∈ (st.left key).getD []) : keyOf e.row op.leftKeyColumns = some key := by
  have hmem : e.row ∈ (↑(((st.left key).getD []).map LeftEntry.row) : Multiset (Row V)) :=
    List.mem_map_of_mem he
  rw [h.rows] at hmem
  exact (Multiset.mem_filter.mp hmem).2

theorem KeyedInv.right (hplain : op.nullAware = false) (h : op.KeyedInv st as) (row : Row V)
    (hfits : op.Countable (as ++ [⟨false, row⟩])) :
    op.Answers as ⟨false, row⟩ (op.handleRightKeyed st row).2 ∧
      op.KeyedInv (op.handleRightKeyed st row).1 (as ++ [⟨false, row⟩]) := by
  have hlefts : lefts (as ++ [⟨false, row⟩]) = lefts as := by
    rw [lefts_snoc]
    simp
  have hrights : rights (as ++ [⟨false, row⟩]) = rights as ++ [row] := rights_snoc as ⟨false, row⟩
  cases hkey : keyOf row op.rightKeyColumns with
  | none =>
      have hhits : ∀ l, op.Hits l row → ∃ r' ∈ rights as, op.Hits l r' := by
        intro l hl
        obtain ⟨heq, hne⟩ := (hits_plain hplain l row).mp hl
        exact absurd (heq.trans hkey) hne
      simp only [handleRightKeyed, hkey]
      refine ⟨answers_silent hhits, ?_, ?_, ?_⟩
      · rw [hlefts]
        exact h.rows
      · intro key e he
        rw [hrights, h.emitted key e he, decide_eq_decide]
        exact (qualifies_snoc_of_same hhits e.row).symm
      · intro key
        rw [h.count, rightRows_snoc]
        simp [hkey]
  | some key =>
      have hsnoc : ∀ key', op.rightRows (as ++ [⟨false, row⟩]) key' =
          op.rightRows as key' + if key = key' then 1 else 0 := by
        intro key'
        rw [rightRows_snoc]
        simp [hkey]
      have hroom : op.rightRows as key + 1 < 2 ^ 31 := by
        have hlt := hfits key
        rwa [hsnoc, if_pos rfl] at hlt
      have hread : toInt32 ((st.right key).getD 0) = (st.right key).getD 0 := by
        rw [h.count]
        exact Int.bmod_eq_of_le (by omega) (by omega)
      have hput : toInt32 ((st.right key).getD 0 + 1) = op.rightRows as key + 1 := by
        rw [h.count]
        exact Int.bmod_eq_of_le (by omega) (by omega)
      have hcount : ∀ key', ((Function.update st.right key
          (some ((op.rightRows as key : Int) + 1))) key').getD 0 =
            op.rightRows (as ++ [⟨false, row⟩]) key' := by
        intro key'
        rw [hsnoc]
        by_cases hk : key' = key
        · subst hk
          rw [Function.update_self, if_pos rfl]
          rfl
        · rw [Function.update_of_ne hk, h.count, if_neg (Ne.symm hk)]
          rfl
      by_cases hbefore : (st.right key).getD 0 = 0
      · -- The first right row of the key: every left row of the key changes.
        have hnone : ¬ ∃ r ∈ rights as, keyOf r op.rightKeyColumns = some key := by
          rw [← h.present, hbefore]
          exact lt_irrefl 0
        have hbucket : ∀ e ∈ (st.left key).getD [], keyOf e.row op.leftKeyColumns = some key :=
          fun e he => h.key_of_mem he
        have hflags : ∀ e ∈ (st.left key).getD [], e.emitted = op.anti := by
          intro e he
          rw [h.emitted key e he, Bool.eq_iff_iff, decide_eq_true_iff,
            qualifies_of_key hplain (hbucket e he)]
          cases op.anti <;> simp [hnone]
        have hhits : ∀ l, op.Hits l row ↔ keyOf l op.leftKeyColumns = some key := by
          intro l
          rw [hits_plain hplain, hkey]
          exact ⟨fun hl => hl.1, fun hl => ⟨hl, by simp [hl]⟩⟩
        have hchanged : (↑(((st.left key).getD []).map LeftEntry.row) : Multiset (Row V)) =
            (↑(lefts as) : Multiset (Row V)).filter fun l =>
              (op.Qualifies (rights as) l ↔ op.anti = true) ∧ op.Hits l row := by
          rw [h.rows]
          apply Multiset.filter_congr
          intro l _
          rw [hhits, iff_and_self]
          intro hl
          rw [qualifies_of_key hplain hl]
          cases op.anti <;> simp [hnone]
        have hstep : (op.handleRightKeyed st row).2 =
            (((st.left key).getD []).map LeftEntry.row).map
              (if op.anti then .delete else .insert) ∧
            (op.handleRightKeyed st row).1.right =
              Function.update st.right key (some ((op.rightRows as key : Int) + 1)) ∧
            ∀ key', ((op.handleRightKeyed st row).1.left key').getD [] =
              if key' = key then ((st.left key).getD []).map fun e => { e with emitted := !op.anti }
              else (st.left key').getD [] := by
          have hall : ((st.left key).getD []).filter (·.emitted == op.anti) =
              (st.left key).getD [] := by
            rw [List.filter_eq_self]
            intro e he
            exact beq_iff_eq.mpr (hflags e he)
          simp only [handleRightKeyed, hkey, hread, hput]
          simp only [hbefore, ne_eq, not_true_eq_false, if_false, transition_eq, hall]
          refine ⟨trivial, by split <;> rfl, ?_⟩
          intro key'
          by_cases hany : ((st.left key).getD []).any (·.emitted == op.anti) = true
          · rw [if_pos hany]
            simp only
            by_cases hk : key' = key
            · rw [hk, Function.update_self, if_pos rfl, Option.getD_some]
            · rw [Function.update_of_ne hk, if_neg hk]
          · rw [if_neg hany, transition_unchanged (by simpa using hany)]
            split
            · rename_i hk
              rw [hk]
            · rfl
        obtain ⟨hout, hright, hleft⟩ := hstep
        refine ⟨?_, ?_, ?_, ?_⟩
        · rw [hout]
          exact answers_of_changed hchanged
        · intro key'
          rw [hleft, hlefts, ← h.rows]
          split
          · rename_i hk
            rw [hk, List.map_map]
            rfl
          · rfl
        · intro key' e he
          rw [hleft] at he
          rw [hrights]
          by_cases hk : key' = key
          · rw [if_pos hk] at he
            obtain ⟨e', he', rfl⟩ := List.mem_map.mp he
            have hhit : op.Hits e'.row row := (hhits _).mpr (hbucket e' he')
            rw [Bool.eq_iff_iff, decide_eq_true_iff, qualifies_snoc_of_hit hhit]
            simp
          · rw [if_neg hk] at he
            have hmiss : ¬ op.Hits e.row row := by
              rw [hhits, h.key_of_mem he]
              simpa using hk
            rw [h.emitted key' e he, decide_eq_decide]
            exact (qualifies_snoc_of_miss hmiss).symm
        · rw [hright]
          exact hcount
      · have hsame : ∀ l, op.Hits l row → ∃ r' ∈ rights as, op.Hits l r' := by
          intro l hl
          have hpositive : 0 < (st.right key).getD 0 := by
            rw [h.count] at hbefore ⊢
            omega
          obtain ⟨r', hr', hkey'⟩ := (h.present key).mp hpositive
          rw [hits_plain hplain, hkey] at hl
          exact ⟨r', hr', (hits_plain hplain l r').mpr ⟨hl.1.trans hkey'.symm, hl.2⟩⟩
        simp only [handleRightKeyed, hkey, hread, hput, ne_eq, hbefore, not_false_eq_true, if_true]
        refine ⟨answers_silent hsame, ?_, ?_, hcount⟩
        · rw [hlefts]
          exact h.rows
        · intro key' e he
          rw [hrights, h.emitted key' e he, decide_eq_decide]
          exact (qualifies_snoc_of_same hsame e.row).symm

end SemiAntiJoinRowOp

end Clink.Ports.SemiAntiJoin

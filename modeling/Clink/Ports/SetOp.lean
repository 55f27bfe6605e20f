import Clink.Verified.Changelog
import Clink.Ports.LiveRows

/-!
# The set operations

The embedding of `SetOpRowOp` (`src/sql/install.cpp`), retention off: INTERSECT
and EXCEPT, distinct or ALL.  A tuple is the list of a row's cells in the order
of its side's columns; NULL equals NULL.  The keyed state holds one bucket per
tuple, with both sides' counts, the multiplicity emitted so far and the rows
that stand for the tuple.  The counts are `int`: the 2³¹-th live copy of a tuple
on a side wraps its count, and the clamp at zero drops them all.

What is emitted for a tuple is `replicate` copies of one representative, which
cannot change while any of them is live (`BucketInv.rep`), so the net of the
whole changelog is read tuple by tuple.
-/

namespace Clink.Ports.SetOp

open Clink.Verified
open Clink.Ports.SqlRow

variable {V : Type} [DecidableEq V]

structure SetOpRowOp where
  leftColumns : List Column
  rightColumns : List Column
  isExcept : Bool
  all : Bool

/-- The cells of a row, by position. -/
abbrev Tuple (V : Type) := List (Option V)

structure Bucket (V : Type) where
  leftCount : Int := 0
  rightCount : Int := 0
  emitted : Int := 0
  leftRep : Option (Row V) := none
  rightRep : Option (Row V) := none

namespace SetOpRowOp

omit [DecidableEq V] in
def keyOf (row : Row V) (cols : List Column) : Tuple V := cols.map (cell row)

omit [DecidableEq V] in
/-- Fold one row into its side; the first inserted row of a side stands for it. -/
def apply (b : Bucket V) (row : Row V) (kind : RowKind) (left : Bool) : Bucket V :=
  let step (count : Int) :=
    let newc := toInt32 (count + if kind.isDeleteLike then -1 else 1)
    if newc > 0 then newc else 0
  let b := if left then { b with leftCount := step b.leftCount }
    else { b with rightCount := step b.rightCount }
  if kind.isDeleteLike then b
  else if left then { b with leftRep := b.leftRep.or (some row) }
  else { b with rightRep := b.rightRep.or (some row) }

variable (op : SetOpRowOp)

/-- The multiplicity the counts call for. -/
def want (L R : Int) : Int :=
  if op.all then (if op.isExcept then max (L - R) 0 else min L R)
  else if op.isExcept then (if 0 < L ∧ R = 0 then 1 else 0)
  else if 0 < L ∧ 0 < R then 1 else 0

/-- Emit the difference between the multiplicity called for and the one emitted,
as copies of the left representative, or of the right one. -/
def recompute (b : Bucket V) : Bucket V × List (Change (Row V)) :=
  let want := op.want b.leftCount b.rightCount
  if b.emitted = want then (b, [])
  else
    match b.leftRep.or b.rightRep with
    | none => (b, [])
    | some rep =>
        ({ b with emitted := want },
          List.replicate (want - b.emitted).toNat (.insert rep) ++
            List.replicate (b.emitted - want).toNat (.delete rep))

omit [DecidableEq V] in
/-- A drained bucket is erased. -/
def store (b : Bucket V) : Option (Bucket V) :=
  if b.leftCount = 0 ∧ b.rightCount = 0 ∧ b.emitted = 0 then none else some b

/-- One record on the bucket of its tuple. -/
def handleBucket (b : Option (Bucket V)) (r : Record V) :
    Option (Bucket V) × List (Change (Row V)) :=
  let (b, batch) := op.recompute (apply (b.getD {}) r.row r.kind r.isLeft)
  (store b, batch)

/-- The tuple of a record. -/
def recordKey (r : Record V) : Tuple V :=
  keyOf r.row (if r.isLeft then op.leftColumns else op.rightColumns)

/-- The synchronous path, and a task of the asynchronous one: read the bucket of
the tuple, change it and write it back. -/
def handle (s : Tuple V → Option (Bucket V)) (r : Record V) :
    (Tuple V → Option (Bucket V)) × List (Change (Row V)) :=
  atKey op.recordKey op.handleBucket s r

/-! ## What SQL asks for -/

/-- The set operation of two multisets of tuples. -/
def sqlSetOp (l r : Multiset (Tuple V)) : Multiset (Tuple V) :=
  if op.all then (if op.isExcept then l - r else l ∩ r)
  else if op.isExcept then (l.filter fun t => t ∉ r).dedup
  else (l ∩ r).dedup

theorem count_sqlSetOp (l r : Multiset (Tuple V)) (t : Tuple V) :
    ((op.sqlSetOp l r).count t : Int) = op.want (l.count t) (r.count t) := by
  unfold sqlSetOp want
  cases op.all with
  | true =>
      cases op.isExcept with
      | true =>
          simp only [if_true, Multiset.count_sub]
          omega
      | false =>
          simp only [Bool.false_eq_true, if_false, if_true, Multiset.count_inter]
          omega
  | false =>
      cases op.isExcept with
      | true =>
          have hmem : t ∈ l.filter (fun t => t ∉ r) ↔ 0 < l.count t ∧ r.count t = 0 := by
            rw [Multiset.mem_filter, Multiset.count_pos, Multiset.count_eq_zero]
          simp only [Bool.false_eq_true, if_false, if_true, Multiset.count_dedup, hmem]
          split <;> split <;> omega
      | false =>
          have hmem : t ∈ l ∩ r ↔ 0 < l.count t ∧ 0 < r.count t := by
            rw [Multiset.mem_inter, Multiset.count_pos, Multiset.count_pos]
          simp only [Bool.false_eq_true, if_false, Multiset.count_dedup, hmem]
          split <;> split <;> omega

theorem want_nonneg (L R : Nat) : 0 ≤ op.want L R := by
  unfold want
  cases op.all <;> cases op.isExcept <;> simp only [Bool.false_eq_true, if_false, if_true]
  · split <;> decide
  · split <;> decide
  · omega
  · omega

variable {L R : Nat}

theorem pos_of_want_pos (h : 0 < op.want L R) : 0 < L := by
  unfold want at h
  cases hall : op.all with
  | true =>
      cases hexcept : op.isExcept with
      | true =>
          simp only [hall, hexcept, if_true] at h
          omega
      | false =>
          simp only [hall, hexcept, if_true, Bool.false_eq_true, if_false] at h
          omega
  | false =>
      by_contra hL
      cases hexcept : op.isExcept with
      | true => simp [hall, hexcept, hL] at h
      | false => simp [hall, hexcept, hL] at h

/-! ## One record on its bucket -/

/-- What a bucket says of its tuple, live `L` times on the left and `R` times on
the right. -/
structure BucketInv (op : SetOpRowOp) (t : Tuple V) (ob : Option (Bucket V)) (L R : Nat) :
    Prop where
  leftCount : (ob.getD {}).leftCount = L
  rightCount : (ob.getD {}).rightCount = R
  emitted : (ob.getD {}).emitted = op.want L R
  hasRep : 0 < L → (ob.getD {}).leftRep.isSome
  rep : ∀ row, (ob.getD {}).leftRep = some row → keyOf row op.leftColumns = t
  drained : L = 0 → R = 0 → ob = none

omit [DecidableEq V] in
/-- The live copies of a tuple. -/
def netOf (ob : Option (Bucket V)) : Multiset (Row V) :=
  ((ob.getD {}).leftRep.map fun rep => Multiset.replicate (ob.getD {}).emitted.toNat rep).getD 0

omit [DecidableEq V] in
theorem bucketInv_none (op : SetOpRowOp) (t : Tuple V) : op.BucketInv t none 0 0 where
  leftCount := rfl
  rightCount := rfl
  emitted := by
    change 0 = op.want 0 0
    unfold want
    cases op.all <;> cases op.isExcept <;> rfl
  hasRep h := absurd h (lt_irrefl 0)
  rep row h := by simp at h
  drained _ _ := rfl

/-- Copies are inserted, or deleted, until there are as many as called for. -/
theorem replay_copies (rep : Row V) {emitted want : Int} (hemitted : 0 ≤ emitted)
    (hwant : 0 ≤ want) :
    replay (Multiset.replicate emitted.toNat rep)
      (List.replicate (want - emitted).toNat (.insert rep) ++
        List.replicate (emitted - want).toNat (.delete rep)) =
      some (Multiset.replicate want.toNat rep) := by
  rcases Int.le_total emitted want with hle | hle
  · have hinserts := replay_inserts (Multiset.replicate emitted.toNat rep)
      (List.replicate (want - emitted).toNat rep)
    have hsum : emitted.toNat + (want - emitted).toNat = want.toNat := by omega
    rw [List.map_replicate] at hinserts
    rw [Int.toNat_of_nonpos (Int.sub_nonpos_of_le hle), List.replicate_zero, List.append_nil,
      hinserts, Multiset.coe_replicate, ← Multiset.replicate_add, hsum]
  · have hdeletes := replay_deletes (Multiset.replicate want.toNat rep)
      (List.replicate (emitted - want).toNat rep)
    have hsum : want.toNat + (emitted - want).toNat = emitted.toNat := by omega
    rw [List.map_replicate, Multiset.coe_replicate, ← Multiset.replicate_add, hsum] at hdeletes
    rw [Int.toNat_of_nonpos (Int.sub_nonpos_of_le hle), List.replicate_zero, List.nil_append,
      hdeletes]

variable {op} {t : Tuple V}

variable (op) in
/-- Where what is emitted, or called for, has a left representative, the bucket
ends with what is called for. -/
theorem recompute_spec {b : Bucket V} (hemitted : 0 ≤ b.emitted)
    (hwant : 0 ≤ op.want b.leftCount b.rightCount)
    (hrep : 0 < b.emitted ∨ 0 < op.want b.leftCount b.rightCount → b.leftRep.isSome) :
    (op.recompute b).1 = { b with emitted := op.want b.leftCount b.rightCount } ∧
      replay (netOf (some b)) (op.recompute b).2 = some (netOf (some (op.recompute b).1)) := by
  unfold recompute
  by_cases hsame : b.emitted = op.want b.leftCount b.rightCount
  · simp only [if_pos hsame]
    refine ⟨?_, rfl⟩
    rw [← hsame]
  · simp only [if_neg hsame]
    cases hleft : b.leftRep with
    | none =>
        rw [hleft] at hrep
        have hnone : ¬ (0 < b.emitted ∨ 0 < op.want b.leftCount b.rightCount) := by
          intro h
          exact absurd (hrep h) (by simp)
        omega
    | some rep =>
        simp only [Option.some_or]
        refine ⟨trivial, ?_⟩
        simp only [netOf, Option.getD_some, hleft, Option.map_some]
        exact replay_copies rep hemitted hwant

omit [DecidableEq V] in
private theorem netOf_store (b : Bucket V) : netOf (store b) = netOf (some b) := by
  unfold store
  by_cases hdrained : b.leftCount = 0 ∧ b.rightCount = 0 ∧ b.emitted = 0
  · rw [if_pos hdrained]
    unfold netOf
    simp only [Option.getD_none, Option.getD_some, hdrained.2.2]
    cases b.leftRep <;> rfl
  · rw [if_neg hdrained]

omit [DecidableEq V] in
/-- A bucket that says the truth does so in the store, or is erased. -/
theorem bucketInv_store {b : Bucket V} (hleft : b.leftCount = L) (hright : b.rightCount = R)
    (hemitted : b.emitted = op.want L R) (hasRep : 0 < L → b.leftRep.isSome)
    (hrep : ∀ row, b.leftRep = some row → keyOf row op.leftColumns = t) :
    op.BucketInv t (store b) L R := by
  by_cases hdrained : b.leftCount = 0 ∧ b.rightCount = 0 ∧ b.emitted = 0
  · have hstore : store b = none := if_pos hdrained
    obtain rfl : L = 0 := by omega
    obtain rfl : R = 0 := by omega
    rw [hstore]
    exact bucketInv_none op t
  · have hstore : store b = some b := if_neg hdrained
    rw [hstore]
    refine ⟨hleft, hright, hemitted, hasRep, hrep, ?_⟩
    rintro rfl rfl
    exact absurd ⟨hleft, hright, hemitted.trans (bucketInv_none op t).emitted.symm⟩ hdrained

/-- A multiplicity after a record. -/
def countAfter (kind : RowKind) (hit : Bool) (n : Nat) : Nat :=
  if hit then (if kind.isDeleteLike then n - 1 else n + 1) else n

variable {n : Nat}

/-- Below 2³¹ a count is stepped as the multiplicity is. -/
theorem clamped_step {kind : RowKind} (h : countAfter kind true n < 2 ^ 31) :
    (let newc := toInt32 ((n : Int) + if kind.isDeleteLike then -1 else 1)
      if newc > 0 then newc else 0) = (countAfter kind true n : Nat) := by
  simp only [countAfter, if_true] at h ⊢
  split at h
  · rename_i hdelete
    simp only [hdelete, if_true]
    rw [toInt32, Int.bmod_eq_of_le (by omega) (by omega)]
    split <;> omega
  · rename_i hinsert
    simp only [hinsert]
    rw [toInt32, Int.bmod_eq_of_le (by omega) (by omega)]
    split <;> omega

omit [DecidableEq V] in
/-- One record on a bucket whose counts stay below 2³¹. -/
theorem apply_eq {b : Bucket V} (hL : b.leftCount = L) (hR : b.rightCount = R) (row : Row V)
    {kind : RowKind} {left : Bool} (hleft : countAfter kind left L < 2 ^ 31)
    (hright : countAfter kind (!left) R < 2 ^ 31) :
    apply b row kind left =
      { b with
        leftCount := countAfter kind left L
        rightCount := countAfter kind (!left) R
        leftRep := if left && !kind.isDeleteLike then b.leftRep.or (some row) else b.leftRep
        rightRep := if !left && !kind.isDeleteLike then b.rightRep.or (some row)
          else b.rightRep } := by
  unfold apply
  cases left with
  | true =>
      have hstep := clamped_step hleft
      simp only [hL, hstep]
      cases hkind : kind.isDeleteLike <;> simp [countAfter, hR]
  | false =>
      have hstep := clamped_step hright
      simp only [Bool.not_false, hR, hstep]
      cases hkind : kind.isDeleteLike <;> simp [countAfter, hL]

/-- One record keeps its bucket true and emits the difference. -/
theorem BucketInv.handle {ob : Option (Bucket V)} {r : Record V}
    (h : op.BucketInv (op.recordKey r) ob L R) (hL : countAfter r.kind r.isLeft L < 2 ^ 31)
    (hR : countAfter r.kind (!r.isLeft) R < 2 ^ 31) :
    op.BucketInv (op.recordKey r) (op.handleBucket ob r).1 (countAfter r.kind r.isLeft L)
        (countAfter r.kind (!r.isLeft) R) ∧
      replay (netOf ob) (op.handleBucket ob r).2 = some (netOf (op.handleBucket ob r).1) := by
  obtain ⟨hleft, hright, hemitted, hasRep, hrep, -⟩ := h
  have happly := apply_eq hleft hright r.row hL hR
  have hnet : netOf ob = netOf (some (ob.getD {})) := rfl
  unfold handleBucket
  generalize ob.getD {} = b at hleft hright hemitted hasRep hrep happly hnet
  generalize apply b r.row r.kind r.isLeft = a at happly
  generalize hL' : countAfter r.kind r.isLeft L = L' at happly ⊢
  generalize hR' : countAfter r.kind (!r.isLeft) R = R' at happly ⊢
  have haleft : a.leftCount = L' := by rw [happly]
  have haright : a.rightCount = R' := by rw [happly]
  have haemitted : a.emitted = b.emitted := by rw [happly]
  have harep : b.leftRep.isSome → a.leftRep = b.leftRep := by
    intro hsome
    obtain ⟨rep, hb⟩ := Option.isSome_iff_exists.mp hsome
    rw [happly, hb]
    simp
  have hasRep' : 0 < L' → a.leftRep.isSome := by
    intro hpos'
    by_cases hpos : 0 < L
    · rw [harep (hasRep hpos)]
      exact hasRep hpos
    · have hins : (r.isLeft && !r.kind.isDeleteLike) = true := by
        rw [← hL'] at hpos'
        unfold countAfter at hpos'
        cases hside : r.isLeft <;> cases hkind : r.kind.isDeleteLike <;> simp_all
      rw [happly]
      simp only [hins, if_true]
      cases b.leftRep <;> rfl
  have hrep' : ∀ row, a.leftRep = some row → keyOf row op.leftColumns = op.recordKey r := by
    intro row hrow
    cases hb : b.leftRep with
    | some rep =>
        rw [harep (by simp [hb])] at hrow
        exact hrep row hrow
    | none =>
        rw [happly, hb] at hrow
        simp only [Option.none_or] at hrow
        split at hrow
        · rename_i hins
          obtain rfl : r.row = row := Option.some.inj hrow
          rw [Bool.and_eq_true] at hins
          rw [recordKey, if_pos hins.1]
        · exact absurd hrow (by simp)
  have hsome : 0 < a.emitted ∨ 0 < op.want a.leftCount a.rightCount → a.leftRep.isSome := by
    rintro (hwant | hwant)
    · rw [haemitted, hemitted] at hwant
      have hsome := hasRep (op.pos_of_want_pos hwant)
      rw [harep hsome]
      exact hsome
    · rw [haleft, haright] at hwant
      exact hasRep' (op.pos_of_want_pos hwant)
  have hnet' : netOf (some b) = netOf (some a) := by
    unfold netOf
    simp only [Option.getD_some, haemitted]
    cases hb : b.leftRep with
    | some rep => rw [harep (by simp [hb]), hb]
    | none =>
        have hzero : b.emitted.toNat = 0 := by
          by_contra hne
          have hsome := hasRep (op.pos_of_want_pos (by rw [← hemitted]; omega))
          rw [hb] at hsome
          exact absurd hsome (by simp)
        rw [hzero]
        cases a.leftRep <;> rfl
  obtain ⟨hnext, hreplay⟩ := recompute_spec op
    (by rw [haemitted, hemitted]; exact op.want_nonneg L R)
    (by rw [haleft, haright]; exact op.want_nonneg L' R') hsome
  refine ⟨?_, ?_⟩
  · apply bucketInv_store
    · rw [hnext]
      exact haleft
    · rw [hnext]
      exact haright
    · rw [hnext, ← haleft, ← haright]
    · rw [hnext]
      exact hasRep'
    · rw [hnext]
      exact hrep'
  · rw [hnet, hnet', netOf_store]
    exact hreplay

/-! ## Whole runs -/

/-- The buckets say the truth about the live tuples, and the live output rows
are the buckets' copies. -/
structure Tracks (op : SetOpRowOp) (s : Tuple V → Option (Bucket V))
    (m : Bool → Multiset (Tuple V)) (net : Multiset (Row V)) : Prop where
  inv : ∀ t, op.BucketInv t (s t) ((m true).count t) ((m false).count t)
  net : ∀ t, net.filter (fun row => keyOf row op.leftColumns = t) = netOf (s t)

omit [DecidableEq V] in
theorem BucketInv.key_of_mem {ob : Option (Bucket V)} (h : op.BucketInv t ob L R) {row : Row V}
    (hrow : row ∈ netOf ob) : keyOf row op.leftColumns = t := by
  unfold netOf at hrow
  cases hrep : (ob.getD {}).leftRep with
  | none => simp [hrep] at hrow
  | some rep =>
      rw [hrep] at hrow
      rw [Multiset.eq_of_mem_replicate hrow]
      exact h.rep rep hrep

theorem count_applyLive (m : Bool → Multiset (Tuple V)) (r : Record V) (side : Bool)
    (t : Tuple V) :
    (applyLive op.recordKey m r side).count t =
      if op.recordKey r = t then countAfter r.kind (side == r.isLeft) ((m side).count t)
      else (m side).count t := by
  unfold applyLive countAfter
  by_cases hside : side = r.isLeft
  · subst hside
    rw [Function.update_self, beq_self_eq_true]
    by_cases ht : op.recordKey r = t
    · subst ht
      split <;> simp_all
    · rw [if_neg ht]
      split
      · rw [Multiset.count_erase_of_ne (Ne.symm ht)]
      · rw [Multiset.count_cons_of_ne (Ne.symm ht)]
  · rw [Function.update_of_ne hside, beq_eq_false_iff_ne.mpr hside]
    simp

/-- One record keeps the buckets and the changelog true to the live tuples. -/
theorem Tracks.step {s : Tuple V → Option (Bucket V)} {m : Bool → Multiset (Tuple V)}
    {net : Multiset (Row V)} (h : op.Tracks s m net) (r : Record V)
    (hcount : ∀ side, (applyLive op.recordKey m r side).count (op.recordKey r) < 2 ^ 31) :
    ∃ net', replay net (op.handle s r).2 = some net' ∧
      op.Tracks (op.handle s r).1 (applyLive op.recordKey m r) net' := by
  have htrue : (true == r.isLeft) = r.isLeft := by cases r.isLeft <;> rfl
  have hfalse : (false == r.isLeft) = !r.isLeft := by cases r.isLeft <;> rfl
  have hleft := hcount true
  have hright := hcount false
  rw [count_applyLive, if_pos rfl, htrue] at hleft
  rw [count_applyLive, if_pos rfl, hfalse] at hright
  obtain ⟨hinv', hreplay⟩ := (h.inv (op.recordKey r)).handle hleft hright
  have hframe := replay_add hreplay
    (net.filter fun row => ¬ keyOf row op.leftColumns = op.recordKey r)
  rw [← h.net (op.recordKey r), Multiset.add_comm, Multiset.filter_add_not] at hframe
  refine ⟨_, hframe, ?_, ?_⟩
  · intro t
    rw [count_applyLive, count_applyLive]
    simp only [handle, atKey]
    by_cases ht : op.recordKey r = t
    · subst ht
      rw [Function.update_self, if_pos rfl, if_pos rfl]
      rw [htrue, hfalse]
      exact hinv'
    · rw [Function.update_of_ne (Ne.symm ht), if_neg ht, if_neg ht]
      exact h.inv t
  · intro t
    simp only [handle, atKey]
    rw [Multiset.filter_add, Multiset.filter_filter]
    by_cases ht : op.recordKey r = t
    · subst ht
      have hnone : net.filter (fun row => keyOf row op.leftColumns = op.recordKey r ∧
          ¬ keyOf row op.leftColumns = op.recordKey r) = 0 := by
        rw [Multiset.filter_eq_nil]
        rintro row - ⟨heq, hne⟩
        exact hne heq
      rw [Function.update_self, hnone, Multiset.zero_add, Multiset.filter_eq_self]
      intro row hrow
      exact hinv'.key_of_mem hrow
    · have hnone : (netOf (op.handleBucket (s (op.recordKey r)) r).1).filter
          (fun row => keyOf row op.leftColumns = t) = 0 := by
        rw [Multiset.filter_eq_nil]
        intro row hrow heq
        exact ht ((hinv'.key_of_mem hrow).symm.trans heq)
      rw [Function.update_of_ne (Ne.symm ht), hnone, Multiset.add_zero, ← h.net t]
      apply Multiset.filter_congr
      intro row _
      constructor
      · exact fun hrow => hrow.1
      · exact fun hrow => ⟨hrow, fun heq => ht (heq.symm.trans hrow)⟩

/-- At no point is a tuple live 2³¹ times on a side. -/
def Countable (op : SetOpRowOp) (es : List (Record V)) : Prop :=
  ∀ pre, pre <+: es → ∀ side t, (live op.recordKey pre side).count t < 2 ^ 31

theorem tracks_run (op : SetOpRowOp) (es : List (Record V)) (h : op.Countable es) :
    ∃ net, replay 0 (es.foldl (emitting op.handle) (fun _ => none, [])).2 = some net ∧
      op.Tracks (es.foldl (emitting op.handle) (fun _ => none, [])).1
        (live op.recordKey es) net := by
  induction es using List.reverseRecOn with
  | nil =>
      refine ⟨0, rfl, ?_, ?_⟩
      · intro t
        exact bucketInv_none op t
      · intro t
        rfl
  | append_singleton es r ih =>
      obtain ⟨net, hreplay, htracks⟩ :=
        ih fun pre hpre => h pre (hpre.trans (List.prefix_append es [r]))
      have hcount := h (es ++ [r]) (List.prefix_refl _)
      rw [live_snoc] at hcount
      obtain ⟨net', hstep, htracks'⟩ := htracks.step r fun side => hcount side _
      rw [List.foldl_append, live_snoc]
      exact ⟨net', replay_trans hreplay hstep, htracks'⟩

/-- The live output rows, by tuple, are the set operation of the live tuples. -/
theorem Tracks.map_keyOf {s : Tuple V → Option (Bucket V)} {m : Bool → Multiset (Tuple V)}
    {net : Multiset (Row V)} (h : op.Tracks s m net) :
    net.map (fun row => keyOf row op.leftColumns) = op.sqlSetOp (m true) (m false) := by
  apply Multiset.ext.mpr
  intro t
  have hemitted : ((s t).getD {}).emitted = (op.sqlSetOp (m true) (m false)).count t := by
    rw [op.count_sqlSetOp]
    exact (h.inv t).emitted
  have hcard : Multiset.card (netOf (s t)) = (op.sqlSetOp (m true) (m false)).count t := by
    unfold netOf
    cases hrep : ((s t).getD {}).leftRep with
    | some rep => simp [hemitted]
    | none =>
        have hzero : ¬ 0 < (op.sqlSetOp (m true) (m false)).count t := by
          intro hpos
          have hwant : 0 < op.want ((m true).count t) ((m false).count t) := by
            rw [← op.count_sqlSetOp]
            exact Int.natCast_pos.mpr hpos
          have hsome := (h.inv t).hasRep (op.pos_of_want_pos hwant)
          rw [hrep] at hsome
          exact absurd hsome (by simp)
        simpa using (Nat.eq_zero_of_not_pos hzero).symm
  rw [Multiset.count_map, ← hcard, ← h.net t]
  congr 1
  apply Multiset.filter_congr
  intro row _
  exact eq_comm

omit [DecidableEq V] in
private theorem keyOf_emitRow {cols : List Column} (h : routingColumn ∉ cols) (row : Row V) :
    keyOf (emitRow row) cols = keyOf row cols := by
  apply List.map_congr_left
  intro c hc
  have hne : c ≠ routingColumn := by
    rintro rfl
    exact h hc
  rw [cell, cell, emitRow, SortedMap.find?_erase, if_neg hne]

theorem count_live_le (op : SetOpRowOp) (es : List (Record V)) (side : Bool)
    (t : Tuple V) : (live op.recordKey es side).count t ≤ es.length := by
  induction es using List.reverseRecOn with
  | nil => exact Nat.le_refl 0
  | append_singleton es r ih =>
      rw [live_snoc, count_applyLive, List.length_append, List.length_singleton]
      unfold countAfter
      split
      · split
        · split <;> omega
        · omega
      · omega

theorem countable_of_length (op : SetOpRowOp) {es : List (Record V)} (h : es.length < 2 ^ 31) :
    op.Countable es := by
  intro pre hpre side t
  have hlive := count_live_le op pre side t
  have hlen := hpre.length_le
  omega

/-- `SELECT x ... EXCEPT ALL SELECT y ...`. -/
def exceptAll : SetOpRowOp := ⟨[['x']], [['y']], true, true⟩

/-- A row of one column. -/
def single (column : Column) (v : Option Nat) : Row Nat := assign .empty column v

/-- A value twice and a NULL on the left, a NULL on the right, and a copy deleted on each side. -/
def nullsRun : List (Record Nat) :=
  [⟨true, .insert, single ['x'] (some 5)⟩, ⟨true, .insert, single ['x'] none⟩,
    ⟨true, .insert, single ['x'] (some 5)⟩, ⟨false, .insert, single ['y'] none⟩,
    ⟨false, .insert, single ['y'] (some 5)⟩, ⟨true, .delete, single ['x'] (some 5)⟩,
    ⟨false, .delete, single ['y'] none⟩]

/-- The same row on the left again and again. -/
def copies (n : Nat) : List (Record Nat) :=
  List.replicate n ⟨true, .insert, single ['x'] (some 5)⟩

theorem live_copies (n : Nat) :
    live exceptAll.recordKey (copies n) true = Multiset.replicate n [some 5] ∧
      live exceptAll.recordKey (copies n) false = 0 := by
  induction n with
  | zero => exact ⟨rfl, rfl⟩
  | succ n ih =>
      obtain ⟨hleft, hright⟩ := ih
      have hkey : exceptAll.recordKey ⟨true, .insert, single ['x'] (some 5)⟩ = [some 5] := by decide
      rw [copies, List.replicate_succ', live_snoc]
      unfold applyLive
      constructor
      · simp only [Function.update_self, hkey, Multiset.replicate_succ, ← hleft]
        rfl
      · rw [Function.update_of_ne (by decide)]
        exact hright

/-- The copy that wraps the count takes every copy back. -/
theorem handleBucket_wrapped {ob : Option (Bucket Nat)} (h : exceptAll.BucketInv [some 5] ob n 0)
    (hpos : 0 < n) (hwraps : toInt32 (n + 1) ≤ 0) :
    replay (netOf ob) (exceptAll.handleBucket ob ⟨true, .insert, single ['x'] (some 5)⟩).2 =
      some 0 := by
  have hnet : netOf ob = netOf (some (ob.getD {})) := rfl
  obtain ⟨hleft, hright, hemitted, hasRep, -, -⟩ := h
  unfold handleBucket
  generalize ob.getD {} = b at hleft hright hemitted hasRep hnet ⊢
  obtain ⟨rep, hrep⟩ := Option.isSome_iff_exists.mp (hasRep hpos)
  have happly : apply b (single ['x'] (some 5)) .insert true = { b with leftCount := 0 } := by
    have hclamped : ¬ toInt32 ((n : Int) + 1) > 0 := Int.not_lt.mpr hwraps
    unfold apply
    simp [RowKind.isDeleteLike, hleft, hclamped, hrep]
  have hzero : exceptAll.want 0 b.rightCount = 0 := by
    rw [hright]
    rfl
  obtain ⟨hnext, hstep⟩ := recompute_spec exceptAll
    (b := { b with leftCount := 0 }) (by rw [hemitted]; exact exceptAll.want_nonneg n 0)
    (by rw [hzero]) (fun _ => by rw [hrep]; rfl)
  rw [hnet, happly]
  refine hstep.trans ?_
  rw [hnext, hzero]
  simp [netOf, hrep]

private theorem replay_copies_wrapped (hpos : 0 < n) (hfits : n < 2 ^ 31)
    (hwraps : toInt32 (n + 1) ≤ 0) :
    replay 0 ((copies (n + 1)).foldl (emitting exceptAll.handle) (fun _ => none, [])).2 =
      some 0 := by
  have hkey : exceptAll.recordKey ⟨true, .insert, single ['x'] (some 5)⟩ = [some 5] := by decide
  have hsnoc : copies (n + 1) = copies n ++ [⟨true, .insert, single ['x'] (some 5)⟩] :=
    List.replicate_succ'
  obtain ⟨hlive, hright⟩ := live_copies n
  obtain ⟨net, hreplay, htracks⟩ := tracks_run exceptAll (copies n)
    (exceptAll.countable_of_length (by simpa [copies] using hfits))
  have hwhole : net.filter (fun row => keyOf row exceptAll.leftColumns = [some 5]) = net := by
    rw [Multiset.filter_eq_self]
    intro row hrow
    have hmem := Multiset.mem_map_of_mem (fun row => keyOf row exceptAll.leftColumns) hrow
    rw [htracks.map_keyOf, hlive] at hmem
    exact Multiset.eq_of_mem_replicate (Multiset.mem_of_le (Multiset.sub_le_self _ _) hmem)
  have hinv := htracks.inv [some 5]
  rw [hlive, hright, Multiset.count_replicate_self, Multiset.count_zero] at hinv
  rw [hsnoc, List.foldl_append]
  apply replay_trans hreplay
  simp only [handle, atKey, hkey]
  rw [← hwhole, htracks.net]
  exact handleBucket_wrapped hinv hpos hwraps

end SetOpRowOp

end Clink.Ports.SetOp

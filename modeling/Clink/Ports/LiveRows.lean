import Mathlib.Algebra.Order.Ring.Nat
import Mathlib.Data.Multiset.AddSub
import Clink.Verified.KeyedSteps
import Clink.Ports.SqlRow

/-!
# The live rows of two changelog inputs

A changelog operator with two inputs is fed insert-like and delete-like rows.
What it is told is live on a side is a multiset: of rows, or of whatever part
of a row the operator goes by (`content`).  Its contract is that a delete-like
row repeats something live (`Valid`).

An operator that works key by key may run the records of different keys in
another order; the contract and the live rows at the end are the same.
-/

namespace Clink.Ports.SqlRow

open Clink.Verified

variable {V : Type} {κ μ : Type*} [DecidableEq κ] [DecidableEq μ]

/-- A changelog row of one of the inputs. -/
structure Record (V : Type) where
  isLeft : Bool
  kind : RowKind
  row : Row V
  deriving DecidableEq

/-- `static_cast<int>`, and what `int` arithmetic leaves. -/
def toInt32 (n : Int) : Int := n.bmod (2 ^ 32)

section

variable (content : Record V → κ)

/-- One record on the live contents. -/
def applyLive (m : Bool → Multiset κ) (r : Record V) : Bool → Multiset κ :=
  Function.update m r.isLeft
    (if r.kind.isDeleteLike then (m r.isLeft).erase (content r) else content r ::ₘ m r.isLeft)

/-- What is live on each side after some records. -/
def live (es : List (Record V)) : Bool → Multiset κ := es.foldl (applyLive content) fun _ => 0

/-- Every delete-like record repeats something live on its side. -/
def Valid (es : List (Record V)) : Prop :=
  ∀ pre r post, es = pre ++ r :: post → r.kind.isDeleteLike = true →
    content r ∈ live content pre r.isLeft

end

variable {content : Record V → κ} {es es' : List (Record V)}

omit [DecidableEq μ] in
theorem live_snoc (es : List (Record V)) (r : Record V) :
    live content (es ++ [r]) = applyLive content (live content es) r := by
  rw [live, List.foldl_append]
  rfl

theorem valid_of_allowed (h : Runs.Allowed (fun (u : Unit) (_ : Record V) => u)
    (fun pre _ r => r.kind.isDeleteLike = true → content r ∈ live content pre r.isLeft) [] () es) :
    Valid content es := by
  intro pre r post hes
  obtain ⟨_, -, hlive, -⟩ := (Runs.of_allowed h).split hes
  exact hlive

theorem Valid.start {pre post : List (Record V)} (h : Valid content (pre ++ post)) :
    Valid content pre := by
  intro pre' r post' hes
  exact h pre' r (post' ++ post) (by rw [hes]; simp)

/-! ## Another order of the keys -/

variable {keyOf : Record V → μ} {key : Bool → κ → μ}

section

variable (hkey : ∀ r, keyOf r = key r.isLeft (content r))
include hkey

/-- How often something is live is told by the records of its key. -/
theorem count_live_filter (es : List (Record V)) (side : Bool) (x : κ) :
    (live content (es.filter fun r => keyOf r = key side x) side).count x =
      (live content es side).count x := by
  induction es using List.reverseRecOn with
  | nil => rfl
  | append_singleton es r ih =>
      rw [List.filter_append, live_snoc]
      by_cases hr : keyOf r = key side x
      · rw [List.filter_cons_of_pos (by simpa using hr), List.filter_nil, live_snoc]
        unfold applyLive
        by_cases hside : side = r.isLeft
        · subst hside
          rw [Function.update_self, Function.update_self]
          split
          · by_cases hx : x = content r
            · subst hx
              rw [Multiset.count_erase_self, Multiset.count_erase_self, ih]
            · rw [Multiset.count_erase_of_ne hx, Multiset.count_erase_of_ne hx, ih]
          · rw [Multiset.count_cons, Multiset.count_cons, ih]
        · rw [Function.update_of_ne hside, Function.update_of_ne hside, ih]
      · rw [List.filter_cons_of_neg (by simpa using hr), List.filter_nil, List.append_nil, ih]
        unfold applyLive
        by_cases hside : side = r.isLeft
        · subst hside
          have hne : x ≠ content r := by
            rintro rfl
            exact hr (hkey r)
          rw [Function.update_self]
          split
          · rw [Multiset.count_erase_of_ne hne]
          · rw [Multiset.count_cons_of_ne hne]
        · rw [Function.update_of_ne hside]

theorem Valid.rearranged (hvalid : Valid content es) (h : Rearranged keyOf es es') :
    Valid content es' := by
  intro pre' r post' hes' hkind
  obtain ⟨pre, post, hes, hpre⟩ := h.split hes'
  have hmem := hvalid pre r post hes hkind
  have hcount := count_live_filter hkey pre r.isLeft (content r)
  have hcount' := count_live_filter hkey pre' r.isLeft (content r)
  rw [← Multiset.count_pos] at hmem ⊢
  rw [← hcount', ← hkey, ← hpre, hkey, hcount]
  exact hmem

theorem live_rearranged (h : Rearranged keyOf es es') : live content es' = live content es := by
  funext side
  apply Multiset.ext.mpr
  intro x
  rw [← count_live_filter hkey es' side x, h (key side x), count_live_filter hkey]

end

end Clink.Ports.SqlRow

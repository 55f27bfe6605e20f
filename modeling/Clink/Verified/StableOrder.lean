import Mathlib.Data.List.Sort

/-!
# Lists ordered by a key, with ties in arrival order

`byKey f l` is the stable sort of `l` by `f`: ordered by the key, and the
elements of one key in the order of `l`.  Those two facts determine it
(`eq_of_filter_eq`), so a structure kept in order by inserting each arrival
after its equals (`insertAfter`) holds the stable sort of its arrivals
(`byKey_snoc`).  An ordered list splits at a bound into what is at most the
bound and what is above it.
-/

namespace Clink.Verified

variable {α κ : Type*} [LinearOrder κ] {f : α → κ} {l l' : List α} {a : α} {c : κ}

/-- Ordered by the key. -/
def Ordered (f : α → κ) (l : List α) : Prop := l.Pairwise fun a b => f a ≤ f b

/-- Insert after every element whose key is not larger. -/
def insertAfter (f : α → κ) (a : α) (l : List α) : List α :=
  l.takeWhile (fun b => f b ≤ f a) ++ a :: l.dropWhile fun b => f b ≤ f a

/-- The stable sort by a key. -/
def byKey (f : α → κ) (l : List α) : List α := l.mergeSort fun a b => f a ≤ f b

theorem ordered_byKey (l : List α) : Ordered f (byKey f l) := by
  have hsorted := @List.pairwise_mergeSort _ (fun a b => decide (f a ≤ f b))
    (fun a b c => by simpa using fun h h' => le_trans h h')
    (fun a b => by simpa using le_total (f a) (f b)) l
  exact hsorted.imp fun h => by simpa using h

theorem perm_byKey (l : List α) : (byKey f l).Perm l := List.mergeSort_perm l _

@[simp] theorem byKey_nil : byKey f [] = [] := List.mergeSort_nil

theorem mem_byKey : a ∈ byKey f l ↔ a ∈ l := (perm_byKey l).mem_iff

/-- The elements of one key keep the order they came in. -/
theorem filter_byKey (l : List α) (k : κ) :
    (byKey f l).filter (fun b => f b = k) = l.filter fun b => f b = k := by
  have hsub : (l.filter fun b => f b = k).Sublist (byKey f l) := by
    refine List.sublist_mergeSort (fun a b c => by simpa using fun h h' => le_trans h h')
      (fun a b => by simpa using le_total (f a) (f b)) ?_ List.filter_sublist
    refine List.pairwise_of_forall_mem_list fun a ha b hb => ?_
    have hak : f a = k := by simpa using List.of_mem_filter ha
    have hbk : f b = k := by simpa using List.of_mem_filter hb
    simp [hak, hbk]
  have hsub' := hsub.filter fun b => decide (f b = k)
  rw [List.filter_filter] at hsub'
  simp only [Bool.and_self] at hsub'
  refine (hsub'.eq_of_length ?_).symm
  exact ((perm_byKey l).filter _).length_eq.symm

private theorem head_eq_of_filter_eq {b : α} (hl : Ordered f (a :: l)) (hl' : Ordered f (b :: l'))
    (h : ∀ k, (a :: l).filter (fun x => f x = k) = (b :: l').filter fun x => f x = k) : a = b := by
  have hkey : ∀ {x y : α} {m m' : List α}, Ordered f (y :: m') →
      ((x :: m).filter fun z => f z = f x) = ((y :: m').filter fun z => f z = f x) →
      f y ≤ f x := by
    intro x y m m' hord heq
    have hx : x ∈ (y :: m').filter fun z => f z = f x := by
      rw [← heq]
      simp
    rcases List.mem_cons.mp (List.mem_of_mem_filter hx) with rfl | hmem
    · exact le_refl _
    · exact (List.pairwise_cons.mp hord).1 x hmem
  have hab : f a = f b := le_antisymm (hkey hl (h (f b)).symm) (hkey hl' (h (f a)))
  have heq := h (f a)
  rw [List.filter_cons_of_pos (by simp), List.filter_cons_of_pos (by simp [hab])] at heq
  exact (List.cons.inj heq).1

/-- Order and arrival order within a key determine the list. -/
theorem eq_of_filter_eq (hl : Ordered f l) (hl' : Ordered f l')
    (h : ∀ k, l.filter (fun x => f x = k) = l'.filter fun x => f x = k) : l = l' := by
  induction l generalizing l' with
  | nil =>
      cases l' with
      | nil => rfl
      | cons b l' => simpa using h (f b)
  | cons a l ih =>
      cases l' with
      | nil => simpa using h (f a)
      | cons b l' =>
          obtain rfl := head_eq_of_filter_eq hl hl' h
          rw [ih (List.pairwise_cons.mp hl).2 (List.pairwise_cons.mp hl').2 fun k => ?_]
          have hk := h k
          by_cases hak : f a = k
          · rw [List.filter_cons_of_pos (by simpa using hak),
              List.filter_cons_of_pos (by simpa using hak)] at hk
            exact (List.cons.inj hk).2
          · rwa [List.filter_cons_of_neg (by simpa using hak),
              List.filter_cons_of_neg (by simpa using hak)] at hk

/-! ## Cutting an ordered list -/

theorem takeWhile_eq_filter (hl : Ordered f l) :
    l.takeWhile (fun b => f b ≤ c) = l.filter fun b => f b ≤ c := by
  induction l with
  | nil => rfl
  | cons b l ih =>
      obtain ⟨hhead, htail⟩ := List.pairwise_cons.mp hl
      by_cases hb : f b ≤ c
      · rw [List.takeWhile_cons_of_pos (by simpa using hb),
          List.filter_cons_of_pos (by simpa using hb), ih htail]
      · rw [List.takeWhile_cons_of_neg (by simpa using hb),
          List.filter_cons_of_neg (by simpa using hb)]
        symm
        rw [List.filter_eq_nil_iff]
        intro x hx
        have := lt_of_lt_of_le (not_le.mp hb) (hhead x hx)
        simpa using this

theorem dropWhile_eq_filter (hl : Ordered f l) :
    l.dropWhile (fun b => f b ≤ c) = l.filter fun b => c < f b := by
  induction l with
  | nil => rfl
  | cons b l ih =>
      obtain ⟨hhead, htail⟩ := List.pairwise_cons.mp hl
      by_cases hb : f b ≤ c
      · rw [List.dropWhile_cons_of_pos (by simpa using hb),
          List.filter_cons_of_neg (by simpa using hb), ih htail]
      · rw [List.dropWhile_cons_of_neg (by simpa using hb), eq_comm, List.filter_eq_self]
        intro x hx
        rcases List.mem_cons.mp hx with rfl | hmem
        · simpa using hb
        · simpa using lt_of_lt_of_le (not_le.mp hb) (hhead x hmem)

theorem ordered_insertAfter (hl : Ordered f l) : Ordered f (insertAfter f a l) := by
  unfold insertAfter
  rw [takeWhile_eq_filter hl, dropWhile_eq_filter hl]
  refine List.pairwise_append.mpr ⟨hl.filter _, List.pairwise_cons.mpr ⟨?_, hl.filter _⟩, ?_⟩
  · intro x hx
    exact le_of_lt (by simpa using List.of_mem_filter hx)
  · intro x hx y hy
    have hxa : f x ≤ f a := by simpa using List.of_mem_filter hx
    rcases List.mem_cons.mp hy with rfl | hmem
    · exact hxa
    · exact le_trans hxa (le_of_lt (by simpa using List.of_mem_filter hmem))

theorem insertAfter_append (h : ∀ b ∈ l, f b ≤ f a) :
    insertAfter f a (l ++ l') = l ++ insertAfter f a l' := by
  unfold insertAfter
  rw [List.takeWhile_append_of_pos (by simpa using h),
    List.dropWhile_append_of_pos (by simpa using h), List.append_assoc]

theorem mem_insertAfter {b : α} : b ∈ insertAfter f a l ↔ b = a ∨ b ∈ l := by
  have hsplit := List.takeWhile_append_dropWhile (p := fun b => decide (f b ≤ f a)) (l := l)
  conv_rhs => rw [← hsplit]
  simp only [insertAfter, List.mem_append, List.mem_cons]
  tauto

private theorem filter_insertAfter (hl : Ordered f l) (k : κ) :
    (insertAfter f a l).filter (fun b => f b = k) =
      (l ++ [a]).filter fun b => f b = k := by
  unfold insertAfter
  by_cases hak : f a = k
  · -- Nothing of the key stands behind the insertion point.
    have hrest : (l.dropWhile fun b => f b ≤ f a).filter (fun b => f b = k) = [] := by
      rw [dropWhile_eq_filter hl, List.filter_eq_nil_iff]
      intro x hx
      have : f a < f x := by simpa using List.of_mem_filter hx
      simpa [← hak] using ne_of_gt this
    have hsplit := congrArg (List.filter fun b => f b = k)
      (List.takeWhile_append_dropWhile (p := fun b => decide (f b ≤ f a)) (l := l))
    rw [List.filter_append, hrest, List.append_nil] at hsplit
    rw [List.filter_append, List.filter_append, hsplit,
      List.filter_cons_of_pos (by simpa using hak), hrest,
      List.filter_cons_of_pos (by simpa using hak), List.filter_nil]
  · rw [List.filter_append, List.filter_cons_of_neg (by simpa using hak), ← List.filter_append,
      List.takeWhile_append_dropWhile, List.filter_append,
      List.filter_cons_of_neg (by simpa using hak), List.filter_nil, List.append_nil]

/-- Inserting each arrival after its equals keeps the stable sort of the arrivals. -/
theorem byKey_snoc (l : List α) (a : α) : byKey f (l ++ [a]) = insertAfter f a (byKey f l) := by
  refine eq_of_filter_eq (ordered_byKey _) (ordered_insertAfter (ordered_byKey l)) fun k => ?_
  rw [filter_byKey, filter_insertAfter (ordered_byKey l), List.filter_append, List.filter_append,
    filter_byKey]

end Clink.Verified

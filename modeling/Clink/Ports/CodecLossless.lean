import Mathlib.Data.List.Perm.Basic
import Clink.Ports.CodecTrees

/-!
# What the combinators keep

A value of a nesting of combinators is read back from its encoding when every
count and every length fits its 32 bits, but for one place: `pair_codec` adds 4
to the length of its first component in 32 bits, so behind a first component of
`2 ^ 32 - 4` bytes or more the second is read from the wrong end of the span.
Such a pair can only stand outside of every length prefix (`Tree.Unwrapped`),
since a prefix in front of it would not fit either.

The proof goes over the nestings.  Sets and maps get back what was put in because
their elements arrive in order, unordered containers because no two of their
elements are equal.
-/

namespace Clink.Ports.ByteCodec

open Clink.Verified

variable {α β κ ε γ : Type} {same : α → α → Prop} {same' : β → β → Prop}

/-! ## Appending -/

/-- `encode_into` appends what `encode` returns. -/
def Appends (c : Codec α) : Prop := ∀ v out, encodeAppend c v out = out ++ c.encode v

theorem encodeAppendLp_eq {c : Codec α} (h : Appends c) (v : α) (out : Bytes) :
    encodeAppendLp c v out = out ++ framed c v := by
  have hgrown : encodeAppend c v (out ++ [0, 0, 0, 0]) = out ++ ([0, 0, 0, 0] ++ c.encode v) := by
    rw [h, List.append_assoc]
  have hlen : (out ++ ([0, 0, 0, 0] ++ c.encode v)).length - (out ++ [0, 0, 0, 0]).length =
      (c.encode v).length := by
    simp only [List.length_append, List.length_cons, List.length_nil]
    omega
  show patch (encodeAppend c v (out ++ [0, 0, 0, 0])) out.length (putLE 4
    ((encodeAppend c v (out ++ [0, 0, 0, 0])).length - (out ++ [0, 0, 0, 0]).length)) = _
  rw [hgrown, hlen, patch, length_putLE, List.take_left, ← List.drop_drop, List.drop_left,
    List.append_assoc]
  rfl

theorem appendEntry_eq {kc : Codec κ} {vc : Codec β} (hk : Appends kc) (hv : Appends vc)
    (e : κ × β) (out : Bytes) : appendEntry kc vc e out = out ++ framedEntry kc vc e := by
  unfold appendEntry framedEntry
  rw [encodeAppendLp_eq hk, encodeAppendLp_eq hv, List.append_assoc]

variable {frame : ε → Bytes}

theorem countedInto_eq {append : ε → Bytes → Bytes} (h : ∀ e out, append e out = out ++ frame e)
    (l : List ε) (out : Bytes) : countedInto append l out = out ++ counted frame l := by
  have hfold : ∀ (l : List ε) (out : Bytes),
      l.foldl (fun out e => append e out) out = out ++ l.flatMap frame := by
    intro l
    induction l with
    | nil =>
        intro out
        simp
    | cons e l ih =>
        intro out
        rw [List.foldl_cons, ih, h, List.flatMap_cons, List.append_assoc]
  unfold countedInto counted
  rw [hfold, List.append_assoc]

theorem Tree.appends (t : Tree α same) : Appends t.codec := by
  induction t with
  | uint32 | uint64 | int64 | string => exact fun v out => rfl
  | vector t ih => exact countedInto_eq (encodeAppendLp_eq ih)
  | pair a b iha ihb =>
      intro p out
      show encodeAppend b.codec p.2 (encodeAppendLp a.codec p.1 out) = _
      rw [ihb, encodeAppendLp_eq iha, List.append_assoc]
      rfl
  | optional t ih =>
      intro v out
      cases v with
      | none => rfl
      | some v =>
          show encodeAppend t.codec v (out ++ [1]) = out ++ (1 :: t.codec.encode v)
          rw [ih, List.append_assoc]
          rfl
  | set t less ih => exact fun v => countedInto_eq (encodeAppendLp_eq ih) v.1
  | unorderedSet t keyEq place ih => exact fun v => countedInto_eq (encodeAppendLp_eq ih) v.1
  | map k v less ihk ihv => exact fun m => countedInto_eq (appendEntry_eq ihk ihv) m.1
  | unorderedMap k v keyEq place ihk ihv =>
      exact fun m => countedInto_eq (appendEntry_eq ihk ihv) m.1
  | partialMatch t ih => exact fun v out => rfl

/-! ## Reading -/

@[simp] theorem Outcome.result_pure (a : α) : (pure a : Outcome α).result = .value a := rfl

@[simp] theorem Outcome.result_ask_bind (requests : List Request) (f : Unit → Outcome β) :
    (Outcome.ask requests >>= f).result = (f ()).result := rfl

theorem Outcome.result_bind {x : Outcome α} {a : α} (h : x.result = .value a)
    (f : α → Outcome β) : (x >>= f).result = (f a).result := by
  show (Outcome.bind x f).result = _
  unfold Outcome.bind
  rw [h]

theorem readAt_putLE {n v : Nat} (h : v < 256 ^ n) (rest : Bytes) :
    readAt (putLE n v ++ rest) 0 n = pure v := by
  have htake : (putLE n v ++ rest).take n = putLE n v := List.take_left' (length_putLE n v)
  unfold readAt
  rw [if_pos (by simp), List.drop_zero, htake, readLE_putLE h]

/-- A value comes back as one equal to it. -/
def Reads (c : Codec α) (v w : α) : Prop := (c.decode (c.encode v)).result = .value w

variable {v w : α}

theorem decodeElem_framed {c : Codec α} (h : Reads c v w) (hlen : (c.encode v).length < 2 ^ 32)
    (rest : Bytes) : (decodeElem c (framed c v ++ rest)).result = .value (w, rest) := by
  have hsize : (framed c v ++ rest).length = 4 + (c.encode v).length + rest.length := by
    simp only [framed, List.length_append, length_putLE]
  have hhead : (putLE 4 (c.encode v).length ++ c.encode v).length = 4 + (c.encode v).length := by
    rw [List.length_append, length_putLE]
  have hbody : ((framed c v ++ rest).drop 4).take (c.encode v).length = c.encode v := by
    rw [framed, List.append_assoc, List.drop_left' (length_putLE 4 _), List.take_left]
  have hrest : (framed c v ++ rest).drop (4 + (c.encode v).length) = rest :=
    List.drop_left' hhead
  have hread : readAt (framed c v ++ rest) 0 4 = pure (c.encode v).length := by
    rw [framed, List.append_assoc]
    exact readAt_putLE hlen _
  unfold decodeElem
  rw [if_neg (by omega), hread, Outcome.pure_bind, if_neg (by omega)]
  unfold subspan
  rw [if_pos (by omega), hbody, Outcome.pure_bind, hrest, Outcome.result_bind h]
  rfl

theorem decodeEntry_framed {kc : Codec κ} {vc : Codec β} {e e' : κ × β}
    (hk : Reads kc e.1 e'.1) (hv : Reads vc e.2 e'.2) (hkl : (kc.encode e.1).length < 2 ^ 32)
    (hvl : (vc.encode e.2).length < 2 ^ 32) (rest : Bytes) :
    (decodeEntry kc vc (framedEntry kc vc e ++ rest)).result = .value (e', rest) := by
  unfold decodeEntry framedEntry
  rw [List.append_assoc, Outcome.result_bind (decodeElem_framed hk hkl _)]
  show (decodeElem vc (framed vc e.2 ++ rest) >>= _).result = _
  rw [Outcome.result_bind (decodeElem_framed hv hvl _)]
  rfl

/-- `one` takes the frame of `e` off as `e'`. -/
def Takes (one : Bytes → Outcome (ε × Bytes)) (frame : ε → Bytes) (e e' : ε) : Prop :=
  ∀ rest, (one (frame e ++ rest)).result = .value (e', rest)

variable {one : Bytes → Outcome (ε × Bytes)} {l l' : List ε}

theorem decodeMany_reads (h : List.Forall₂ (Takes one frame) l l') (node : List Request)
    (add : γ → ε → γ) (out : γ) :
    (decodeMany one node add l.length (l.flatMap frame) out).result =
      .value (l'.foldl add out) := by
  induction h generalizing out with
  | nil => rfl
  | @cons e e' l l' he _ ih =>
      rw [List.flatMap_cons, List.length_cons, decodeMany, Outcome.result_bind (he _)]
      exact ih (add out e')

theorem decodeCounted_reads (h : List.Forall₂ (Takes one frame) l l') (hcount : l.length < 2 ^ 32)
    (reserve : Nat → List Request) (node : List Request) (add : γ → ε → γ) (empty : γ) :
    (decodeCounted one reserve node add empty (counted frame l)).result =
      .value (l.length, l'.foldl add empty) := by
  have hdrop : (counted frame l).drop 4 = l.flatMap frame := List.drop_left' (length_putLE 4 _)
  have hread : readAt (counted frame l) 0 4 = pure l.length := readAt_putLE hcount _
  unfold decodeCounted
  rw [if_neg (by simp [counted]), hread, Outcome.pure_bind, Outcome.result_ask_bind, hdrop,
    Outcome.result_bind (decodeMany_reads h node add empty)]
  rfl

/-- Elements that are put in one after the other, each behind those before it. -/
theorem foldl_add (val : γ → List ε) {add : γ → ε → γ} {R : ε → ε → Prop}
    (hadd : ∀ s x, (∀ y ∈ val s, R y x) → val (add s x) = val s ++ [x]) (l : List ε) (s : γ)
    (h : (val s ++ l).Pairwise R) : val (l.foldl add s) = val s ++ l := by
  induction l generalizing s with
  | nil => simp
  | cons x l ih =>
      have hx : ∀ y ∈ val s, R y x := fun y hy =>
        (List.pairwise_append.mp h).2.2 y hy x List.mem_cons_self
      have hs : val (add s x) ++ l = val s ++ x :: l := by
        rw [hadd s x hx, List.append_assoc]
        rfl
      rw [List.foldl_cons, ih _ (hs ▸ h), hs]

variable {key : ε → κ}

theorem emplaceSorted_of_lt {lt : κ → κ → Bool} {x : ε} (h : ∀ y ∈ l, lt (key y) (key x)) :
    emplaceSorted lt key x l = l ++ [x] := by
  induction l with
  | nil => rfl
  | cons y ys ih =>
      rw [emplaceSorted, if_pos (h y List.mem_cons_self),
        ih fun z hz => h z (List.mem_cons_of_mem y hz)]
      rfl

variable {P : ε → ε → Prop}

/-- What holds between any two of a list holds between their counterparts. -/
theorem pairwise_forall₂ {R R' : ε → ε → Prop} (h : List.Forall₂ P l l')
    (hR : ∀ {a a' b b'}, P a a' → P b b' → R a b → R' a' b') (hl : l.Pairwise R) :
    l'.Pairwise R' := by
  have hlen := h.length_eq
  rw [List.pairwise_iff_getElem] at hl ⊢
  intro i j hi hj hij
  exact hR (h.get (by omega) hi) (h.get (by omega) hj) (hl i j (by omega) (by omega) hij)

theorem Sorted.foldl_emplace {same : κ → κ → Prop} {less : Less same}
    (h : l.Pairwise fun a b => less.lt (key a) (key b)) :
    (l.foldl Sorted.emplace (Sorted.empty : Sorted less key)).1 = l :=
  foldl_add Subtype.val (fun _ _ hx => emplaceSorted_of_lt hx) l Sorted.empty h

theorem Distinct.foldl_emplace {same : κ → κ → Prop} {keyEq : KeyEq same}
    (h : l.Pairwise fun a b => keyEq.eq (key a) (key b) = false) :
    (l.foldl Distinct.emplace (Distinct.empty : Distinct keyEq key)).1 = l := by
  refine foldl_add Subtype.val (fun s x hx => ?_) l Distinct.empty h
  exact congrArg Subtype.val (dif_pos hx)

/-! ## Sizes -/

/-- What stands behind a 32-bit length. -/
def FitsFrame (fits : α → Prop) (c : Codec α) (v : α) : Prop :=
  fits v ∧ (c.encode v).length < 2 ^ 32

/-- What stands behind a 32-bit count. -/
def FitsCount (fits : ε → Prop) (l : List ε) : Prop := l.length < 2 ^ 32 ∧ ∀ e ∈ l, fits e

/-- Every count and every length of the encoding of a value fits in 32 bits. -/
def Tree.Fits {α : Type} {same : α → α → Prop} : Tree α same → α → Prop
  | .uint32, _ | .uint64, _ | .int64, _ | .string, _ => True
  | .vector t, v => FitsCount (FitsFrame t.Fits t.codec) v
  | .pair a b, p => FitsFrame a.Fits a.codec p.1 ∧ b.Fits p.2
  | .optional t, v => ∀ x ∈ v, t.Fits x
  | .set t _, s => FitsCount (FitsFrame t.Fits t.codec) s.1
  | .unorderedSet t _ _, s => FitsCount (FitsFrame t.Fits t.codec) s.1
  | .map k v _, m =>
      FitsCount (fun e => FitsFrame k.Fits k.codec e.1 ∧ FitsFrame v.Fits v.codec e.2) m.1
  | .unorderedMap k v _ _, m =>
      FitsCount (fun e => FitsFrame k.Fits k.codec e.1 ∧ FitsFrame v.Fits v.codec e.2) m.1
  | .partialMatch t, m =>
      FitsCount (FitsFrame t.Fits t.codec) m.matched ∧
        FitsCount (FitsFrame (fun _ => True) stringCodec) m.stepNames ∧
          m.eventTimestamps.length < 2 ^ 32

/-- No pair outside of every length prefix has a first component of `2 ^ 32 - 4`
bytes or more. -/
def Tree.Unwrapped {α : Type} {same : α → α → Prop} : Tree α same → α → Prop
  | .pair a b, p => (a.codec.encode p.1).length < 2 ^ 32 - 4 ∧ b.Unwrapped p.2
  | .optional t, v => ∀ x ∈ v, t.Unwrapped x
  | _, _ => True

/-- Behind a length prefix no sum wraps. -/
theorem Tree.unwrapped_of_length (t : Tree α same) (h : (t.codec.encode v).length < 2 ^ 32) :
    t.Unwrapped v := by
  induction t with
  | pair a b iha ihb =>
      have hlen : (framed a.codec v.1 ++ b.codec.encode v.2).length < 2 ^ 32 := h
      simp only [framed, List.length_append, length_putLE] at hlen
      exact ⟨by omega, ihb (by omega)⟩
  | optional t ih =>
      intro x hx
      rw [Option.mem_def] at hx
      subst hx
      exact ih (Nat.lt_of_succ_lt h)
  | _ => trivial

/-! ## Equal values -/

/-- Values that equal a third one are equal. -/
def Euclid (P : ε → ε → Prop) : Prop := ∀ a b c, P a c → P b c → P a b

theorem forall₂_euclid (hP : Euclid P) {m : List ε} (h : List.Forall₂ P l m)
    (h' : List.Forall₂ P l' m) : List.Forall₂ P l l' := by
  induction h generalizing l' with
  | nil =>
      cases h'
      exact List.Forall₂.nil
  | cons ha _ ih =>
      cases h' with
      | cons hb hrest => exact List.Forall₂.cons (hP _ _ _ ha hb) (ih hrest)

theorem Distinct.same_euclid {same : κ → κ → Prop} {keyEq : KeyEq same} (hP : Euclid P)
    {s s' u : Distinct keyEq key} (h : Distinct.Same P s u) (h' : Distinct.Same P s' u) :
    Distinct.Same P s s' := by
  obtain ⟨l, hl, hlu⟩ := h
  obtain ⟨l', hl', hlu'⟩ := h'
  -- The elements of `s'` in the order in which those of `s` became `l`.
  obtain ⟨m, hm, hms⟩ := List.perm_comp_forall₂ (hlu.trans hlu'.symm) hl'.flip
  exact ⟨m, forall₂_euclid hP hl hm.flip, hms⟩

theorem both_euclid (h : Euclid same) (h' : Euclid same') : Euclid (Both same same') :=
  fun _ _ _ hp hq => ⟨h _ _ _ hp.1 hq.1, h' _ _ _ hp.2 hq.2⟩

theorem Tree.same_euclid (t : Tree α same) : Euclid same := by
  intro a b c ha hb
  induction t with
  | uint32 | uint64 | int64 | string => exact ha.trans hb.symm
  | vector t ih => exact forall₂_euclid ih ha hb
  | pair _ _ iha ihb => exact both_euclid iha ihb a b c ha hb
  | optional t ih =>
      cases ha with
      | none =>
          cases hb
          exact Option.Rel.none
      | some ha =>
          cases hb with
          | some hb => exact Option.Rel.some (ih _ _ _ ha hb)
  | set t less ih => exact forall₂_euclid ih ha hb
  | unorderedSet t keyEq place ih => exact Distinct.same_euclid ih ha hb
  | map k v less ihk ihv =>
      exact forall₂_euclid (both_euclid ihk ihv) ha hb
  | unorderedMap k v keyEq place ihk ihv =>
      exact Distinct.same_euclid (both_euclid ihk ihv) ha hb
  | partialMatch t ih =>
      exact ⟨ha.startTs.trans hb.startTs.symm, forall₂_euclid ih ha.matched hb.matched,
        ha.stepNames.trans hb.stepNames.symm, ha.eventTimestamps.trans hb.eventTimestamps.symm,
        ha.currentStep.trans hb.currentStep.symm,
        ha.currentStepCount.trans hb.currentStepCount.symm⟩

/-! ## The round trip -/

/-- A value is read back. -/
def Comes (same : α → α → Prop) (c : Codec α) (v : α) : Prop := ∃ w, Reads c v w ∧ same v w

theorem exists_taken (h : ∀ e ∈ l, ∃ e', Takes one frame e e' ∧ P e e') :
    ∃ l', List.Forall₂ (Takes one frame) l l' ∧ List.Forall₂ P l l' := by
  induction l with
  | nil => exact ⟨[], List.Forall₂.nil, List.Forall₂.nil⟩
  | cons e l ih =>
      obtain ⟨e', htakes, hP⟩ := h e List.mem_cons_self
      obtain ⟨l', hl, hl'⟩ := ih fun x hx => h x (List.mem_cons_of_mem e hx)
      exact ⟨e' :: l', List.Forall₂.cons htakes hl, List.Forall₂.cons hP hl'⟩

variable {fits : α → Prop} {fits' : β → Prop} {c : Codec α} {c' : Codec β}

theorem taken_elem (h : ∀ v, FitsFrame fits c v → Comes same c v) {l : List α}
    (hl : FitsCount (FitsFrame fits c) l) : ∀ e ∈ l,
    ∃ e', Takes (decodeElem c) (framed c) e e' ∧ same e e' := by
  intro e he
  obtain ⟨e', hreads, hsame⟩ := h e (hl.2 e he)
  exact ⟨e', decodeElem_framed hreads (hl.2 e he).2, hsame⟩

theorem taken_entry (h : ∀ v, FitsFrame fits c v → Comes same c v)
    (h' : ∀ v, FitsFrame fits' c' v → Comes same' c' v) {l : List (α × β)}
    (hl : FitsCount (fun e => FitsFrame fits c e.1 ∧ FitsFrame fits' c' e.2) l) : ∀ e ∈ l,
    ∃ e', Takes (decodeEntry c c') (framedEntry c c') e e' ∧ Both same same' e e' := by
  intro e he
  obtain ⟨hk, hv⟩ := hl.2 e he
  obtain ⟨k, hkreads, hksame⟩ := h e.1 hk
  obtain ⟨v, hvreads, hvsame⟩ := h' e.2 hv
  exact ⟨(k, v), decodeEntry_framed hkreads hvreads hk.2 hv.2, hksame, hvsame⟩

/-- A counted container is read back once its elements are taken off. -/
theorem Sorted.comes {same : κ → κ → Prop} {less : Less same} {node : List Request}
    (s : Sorted less key) (hkey : ∀ {a b}, P a b → same (key a) (key b))
    (hcount : s.1.length < 2 ^ 32) (h : ∀ e ∈ s.1, ∃ e', Takes one frame e e' ∧ P e e') :
    ∃ w : Sorted less key, (decodeCounted one (fun _ => []) node Sorted.emplace Sorted.empty
      (counted frame s.1)).result = .value (s.1.length, w) ∧ Sorted.Same P s w := by
  obtain ⟨l', htaken, hP⟩ := exists_taken h
  have hsorted : l'.Pairwise fun a b => less.lt (key a) (key b) :=
    pairwise_forall₂ hP (fun ha hb hlt => by rw [← less.congr (hkey ha) (hkey hb)]; exact hlt) s.2
  refine ⟨_, decodeCounted_reads htaken hcount _ _ _ _, ?_⟩
  unfold Sorted.Same
  rw [Sorted.foldl_emplace hsorted]
  exact hP

theorem Distinct.comes {same : κ → κ → Prop} {keyEq : KeyEq same} {reserve : Nat → List Request}
    {node : List Request} (place : Arrangement ε) (s : Distinct keyEq key)
    (hkey : ∀ {a b}, P a b → same (key a) (key b)) (hcount : s.1.length < 2 ^ 32)
    (h : ∀ e ∈ s.1, ∃ e', Takes one frame e e' ∧ P e e') :
    ∃ w : Distinct keyEq key, (decodeCounted one reserve node Distinct.emplace Distinct.empty
      (counted frame s.1)).result = .value (s.1.length, w) ∧
        Distinct.Same P s (w.arrange place s.1.length) := by
  obtain ⟨l', htaken, hP⟩ := exists_taken h
  have hdistinct : l'.Pairwise fun a b => keyEq.eq (key a) (key b) = false :=
    pairwise_forall₂ hP (fun ha hb heq => by rw [← keyEq.congr (hkey ha) (hkey hb)]; exact heq) s.2
  refine ⟨_, decodeCounted_reads htaken hcount _ _ _ _, l', hP, ?_⟩
  have hperm := place.perm s.1.length
    (l'.foldl Distinct.emplace (Distinct.empty : Distinct keyEq key)).1
  exact (hperm.trans (List.Perm.of_eq (Distinct.foldl_emplace hdistinct))).symm

theorem leUint_reads (n : Nat) (v : BitVec (8 * n)) : Reads (leUintCodec n) v v := by
  have hlt : v.toNat < 256 ^ n := by
    have h := v.isLt
    rw [Nat.pow_mul] at h
    exact h
  have hread := readAt_putLE hlt []
  rw [List.append_nil] at hread
  show ((leUintCodec n).decode (putLE n v.toNat)).result = _
  unfold leUintCodec
  simp only [length_putLE, ne_eq, not_true_eq_false, if_false, hread]
  exact congrArg Result.value (BitVec.ofNat_toNat (8 * n) v ▸ BitVec.setWidth_eq v)

private theorem vector_comes (h : ∀ v, FitsFrame fits c v → Comes same c v) {v : List α}
    (hv : FitsCount (FitsFrame fits c) v) : Comes (List.Forall₂ same) (vectorCodec c) v := by
  obtain ⟨l', htaken, hsame⟩ := exists_taken (taken_elem h hv)
  have hall : (([] : List α) ++ l').Pairwise fun _ _ => True :=
    List.pairwise_of_forall fun _ _ => trivial
  refine ⟨l', ?_, hsame⟩
  show (decodeCounted (decodeElem c) _ [] (fun out e => out ++ [e]) [] (counted (framed c) v) >>=
    fun out => pure out.2).result = _
  rw [Outcome.result_bind (decodeCounted_reads htaken hv.1 _ _ _ _)]
  exact congrArg Result.value (foldl_add (fun l => l) (fun _ _ _ => rfl) l' [] hall)

/-- The second component is read behind the first unless the sum wraps. -/
theorem pair_comes {p : α × β} (h : Comes same c p.1) (h' : Comes same' c' p.2)
    (hlen : (c.encode p.1).length < 2 ^ 32 - 4) : Comes (Both same same') (pairCodec c c') p := by
  obtain ⟨w, hreads, hsame⟩ := h
  obtain ⟨w', hreads', hsame'⟩ := h'
  have hwrap : behindFirst (c.encode p.1).length = 4 + (c.encode p.1).length :=
    Nat.mod_eq_of_lt (by omega)
  have hsize : (framed c p.1 ++ c'.encode p.2).length =
      4 + (c.encode p.1).length + (c'.encode p.2).length := by
    simp only [framed, List.length_append, length_putLE]
  have hhead : (framed c p.1).length = 4 + (c.encode p.1).length := by
    rw [framed, List.length_append, length_putLE]
  have hbody : ((framed c p.1 ++ c'.encode p.2).drop 4).take (c.encode p.1).length =
      c.encode p.1 := by
    rw [framed, List.append_assoc, List.drop_left' (length_putLE 4 _), List.take_left]
  have hread : readAt (framed c p.1 ++ c'.encode p.2) 0 4 = pure (c.encode p.1).length := by
    rw [framed, List.append_assoc]
    exact readAt_putLE (by omega) _
  refine ⟨(w, w'), ?_, hsame, hsame'⟩
  show ((pairCodec c c').decode (framed c p.1 ++ c'.encode p.2)).result = _
  unfold pairCodec subspan
  simp only []
  rw [if_neg (by omega), hread, Outcome.pure_bind, hwrap, if_neg (by omega), if_pos (by omega),
    hbody, Outcome.pure_bind, List.drop_left' hhead]
  unfold Reads at hreads hreads'
  simp only [Outcome.both, hreads, hreads']

/-- Values whose sizes fit are read back, unless a sum wraps. -/
theorem Tree.comes (t : Tree α same) (ht : t.Combinators) (hfits : t.Fits v)
    (hunwrapped : t.Unwrapped v) : Comes same t.codec v := by
  -- Behind a length prefix the second hypothesis is for free.
  have hframe : ∀ {δ : Type} {eq : δ → δ → Prop} (t : Tree δ eq),
      (∀ {v}, t.Fits v → t.Unwrapped v → Comes eq t.codec v) →
      ∀ v, FitsFrame t.Fits t.codec v → Comes eq t.codec v :=
    fun t ih v hv => ih hv.1 (t.unwrapped_of_length hv.2)
  induction t with
  | uint32 => exact ⟨v, leUint_reads 4 v, rfl⟩
  | uint64 => exact ⟨v, leUint_reads 8 v, rfl⟩
  | int64 =>
      refine ⟨v, ?_, rfl⟩
      show ((leUintCodec 8).decode ((leUintCodec 8).encode v.toBitVec) >>=
        fun x => pure (Int64.ofBitVec x)).result = _
      rw [Outcome.result_bind (leUint_reads 8 v.toBitVec)]
      rfl
  | string =>
      refine ⟨v, ?_, rfl⟩
      show (subspan v 0 v.length).result = _
      unfold subspan
      rw [if_pos (by omega), List.drop_zero, List.take_length]
      rfl
  | vector t ih => exact vector_comes (hframe t (ih ht)) hfits
  | pair a b iha ihb =>
      exact pair_comes (hframe a (iha ht.1) v.1 hfits.1) (ihb ht.2 hfits.2 hunwrapped.2)
        hunwrapped.1
  | optional t ih =>
      cases v with
      | none => exact ⟨none, rfl, Option.Rel.none⟩
      | some x =>
          obtain ⟨w, hreads, hsame⟩ := ih ht (hfits x rfl) (hunwrapped x rfl)
          refine ⟨some w, ?_, Option.Rel.some hsame⟩
          show (t.codec.decode (t.codec.encode x) >>= fun w => pure (some w)).result = _
          rw [Outcome.result_bind hreads]
          rfl
  | set t less ih =>
      obtain ⟨w, hreads, hsame⟩ := Sorted.comes v id hfits.1
        (taken_elem (hframe t (ih ht)) hfits)
      exact ⟨w, Outcome.result_bind hreads _, hsame⟩
  | unorderedSet t keyEq place ih =>
      obtain ⟨w, hreads, hsame⟩ := Distinct.comes place v id hfits.1
        (taken_elem (hframe t (ih ht)) hfits)
      exact ⟨_, Outcome.result_bind hreads _, hsame⟩
  | map k u less ihk ihu =>
      obtain ⟨w, hreads, hsame⟩ := Sorted.comes v And.left hfits.1
        (taken_entry (hframe k (ihk ht.1)) (hframe u (ihu ht.2)) hfits)
      exact ⟨w, Outcome.result_bind hreads _, hsame⟩
  | unorderedMap k u keyEq place ihk ihu =>
      obtain ⟨w, hreads, hsame⟩ := Distinct.comes place v And.left hfits.1
        (taken_entry (hframe k (ihk ht.1)) (hframe u (ihu ht.2)) hfits)
      exact ⟨_, Outcome.result_bind hreads _, hsame⟩
  | partialMatch t ih => exact ht.elim

/-! ## Distinct encodings -/

theorem putLE_inj {n v w : Nat} (hv : v < 256 ^ n) (hw : w < 256 ^ n)
    (h : putLE n v = putLE n w) : v = w := by
  rw [← readLE_putLE hv, h, readLE_putLE hw]

/-- Whether a sum wraps can be seen from the encoding. -/
theorem Tree.unwrapped_of_encode_eq (t : Tree α same) (hv : t.Fits v) (hw : t.Fits w)
    (hunwrapped : t.Unwrapped v) (h : t.codec.encode v = t.codec.encode w) : t.Unwrapped w := by
  induction t with
  | pair a b iha ihb =>
      have henc : putLE 4 (a.codec.encode v.1).length ++
          (a.codec.encode v.1 ++ b.codec.encode v.2) =
          putLE 4 (a.codec.encode w.1).length ++ (a.codec.encode w.1 ++ b.codec.encode w.2) := by
        rw [← List.append_assoc, ← List.append_assoc]
        exact h
      obtain ⟨hhead, hrest⟩ := List.append_inj henc (by rw [length_putLE, length_putLE])
      have hlen := putLE_inj hv.1.2 hw.1.2 hhead
      refine ⟨?_, ihb hv.2 hw.2 hunwrapped.2 (List.append_inj hrest hlen).2⟩
      rw [← hlen]
      exact hunwrapped.1
  | optional t ih =>
      intro y hy
      rw [Option.mem_def] at hy
      subst hy
      cases v with
      | none => exact absurd (List.cons.inj h).1 (by decide)
      | some x => exact ih (hv x rfl) (hw y rfl) (hunwrapped x rfl) (List.cons.inj h).2
  | _ => trivial

theorem Tree.same_of_encode_eq (t : Tree α same) (ht : t.Combinators) (hv : t.Fits v)
    (hw : t.Fits w) (hunwrapped : t.Unwrapped v) (h : t.codec.encode v = t.codec.encode w) :
    same v w := by
  obtain ⟨x, hx, hvx⟩ := t.comes ht hv hunwrapped
  obtain ⟨y, hy, hwy⟩ := t.comes ht hw (t.unwrapped_of_encode_eq hv hw hunwrapped h)
  unfold Reads at hx hy
  rw [h, hy, Result.value.injEq] at hx
  subst hx
  exact t.same_euclid v w _ hvx hwy

/-! ## The wrapped sum -/

/-- An integer or a string. -/
def Tree.Leaf {α : Type} {same : α → α → Prop} : Tree α same → Prop
  | .uint32 | .uint64 | .int64 | .string => True
  | _ => False

theorem leUint_length {n : Nat} {buf : Bytes} {w : BitVec (8 * n)}
    (h : ((leUintCodec n).decode buf).result = .value w) : buf.length = n := by
  by_contra hne
  unfold leUintCodec at h
  simp only [] at h
  rw [if_pos hne] at h
  cases h

/-- A leaf is read from exactly as many bytes as it is written to. -/
theorem Tree.Leaf.length_eq {t : Tree α same} (ht : t.Leaf) {buf : Bytes}
    (h : (t.codec.decode buf).result = .value w) (hsame : same v w) :
    (t.codec.encode v).length = buf.length := by
  cases t with
  | uint32 => exact (length_putLE 4 _).trans (leUint_length h).symm
  | uint64 => exact (length_putLE 8 _).trans (leUint_length h).symm
  | int64 =>
      refine (length_putLE 8 _).trans (Eq.symm ?_)
      by_contra hne
      have hnull : uint64Codec.decode buf = Outcome.nullopt := if_pos hne
      have hbind : (uint64Codec.decode buf >>= fun x => pure (Int64.ofBitVec x)).result =
          .value w := h
      rw [hnull] at hbind
      cases hbind
  | string =>
      subst hsame
      have hcopy : (subspan buf 0 buf.length).result = .value v := h
      unfold subspan at hcopy
      rw [if_pos (by omega), List.drop_zero, List.take_length] at hcopy
      exact congrArg List.length (Result.value.inj hcopy).symm
  | _ => exact ht.elim

private theorem result_both {x : Outcome α} {y : Outcome β} {p : α × β}
    (h : (Outcome.both x y).result = .value p) : y.result = .value p.2 := by
  unfold Outcome.both at h
  cases hx : x.result <;> cases hy : y.result <;>
    simp only [hx, hy, reduceCtorEq, Result.value.injEq] at h
  rw [← h]

/-- Behind a first component of `2 ^ 32 - 4` bytes or more an integer or a string
is not read back. -/
theorem Tree.pair_not_comes {a : Tree α same} {b : Tree β same'} (hb : b.Leaf) {p : α × β}
    (hfits : (Tree.pair a b).Fits p) (hlong : 2 ^ 32 - 4 ≤ (a.codec.encode p.1).length) :
    ¬ Comes (Both same same') (Tree.pair a b).codec p := by
  rintro ⟨w, hreads, hsame⟩
  have hlen := hfits.1.2
  have hwrap : behindFirst (a.codec.encode p.1).length =
      (a.codec.encode p.1).length + 4 - 2 ^ 32 := by
    unfold behindFirst
    omega
  have hsize : (framed a.codec p.1 ++ b.codec.encode p.2).length =
      4 + (a.codec.encode p.1).length + (b.codec.encode p.2).length := by
    simp only [framed, List.length_append, length_putLE]
  have hread : readAt (framed a.codec p.1 ++ b.codec.encode p.2) 0 4 =
      pure (a.codec.encode p.1).length := by
    rw [framed, List.append_assoc]
    exact readAt_putLE hlen _
  have hdecode : ((pairCodec a.codec b.codec).decode
      (framed a.codec p.1 ++ b.codec.encode p.2)).result = .value w := hreads
  unfold pairCodec subspan at hdecode
  simp only [] at hdecode
  rw [if_neg (by omega), hread, Outcome.pure_bind, hwrap, if_neg (by omega), if_pos (by omega),
    Outcome.pure_bind] at hdecode
  have hsecond := hb.length_eq (result_both hdecode) hsame.2
  rw [List.length_drop, hsize] at hsecond
  omega

end Clink.Ports.ByteCodec

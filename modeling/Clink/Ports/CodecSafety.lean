import Clink.Ports.CodecTrees

/-!
# Decoding arbitrary bytes

What a decoder of `Clink.Ports.CodecTrees` does on bytes nobody wrote.  Two fields
are taken at their word: the count in front of a vector or an unordered container,
which is reserved before an element is seen, and the length in front of the first
component of a pair, which is compared with the size of the span only after 4 was
added to it in 32 bits.  `Tree.Met` says that those which decoding meets are
backed by the bytes at hand.  Then, and only then, everything read lies in the
span and no more is asked for at once than an element for every byte
(`Tree.safe_iff_met`); all requests together are linear in the span.

An allocator that refuses a request throws, so a bound on the requests is a bound
on what can be thrown.
-/

namespace Clink.Ports.ByteCodec

open Clink.Verified

variable {α β κ ε γ : Type} {same : α → α → Prop}

/-! ## Requests -/

namespace Outcome

/-- Inside of the span, and at most an element for every byte in each request. -/
def Clean (o : Outcome α) : Prop := o.result ≠ .outside ∧ ∀ r ∈ o.requests, r.elements ≤ r.bytes

/-- The bytes asked for. -/
def cost (o : Outcome α) : Nat := (o.requests.map fun r => r.elements * r.width).sum

variable {x : Outcome α} {f : α → Outcome β}

theorem clean_bind : (x >>= f).Clean ↔ x.Clean ∧ ∀ a, x.result = .value a → (f a).Clean := by
  show (bind x f).Clean ↔ _
  unfold bind Clean
  cases hx : x.result with
  | value a =>
      simp only [List.mem_append, or_imp, forall_and, ne_eq, reduceCtorEq, not_false_eq_true,
        true_and, Result.value.injEq, forall_eq']
      exact ⟨fun h => ⟨h.2.1, h.1, h.2.2⟩, fun h => ⟨h.2.1, h.1, h.2.2⟩⟩
  | nullopt => simp
  | outside => simp

theorem clean_pure (a : α) : (pure a : Outcome α).Clean := ⟨nofun, nofun⟩

theorem clean_nullopt : (nullopt : Outcome α).Clean := ⟨nofun, nofun⟩

theorem clean_ask {requests : List Request} :
    (ask requests).Clean ↔ ∀ r ∈ requests, r.elements ≤ r.bytes :=
  ⟨fun h => h.2, fun h => ⟨nofun, h⟩⟩

theorem clean_both {y : Outcome β} : (both x y).Clean ↔ x.Clean ∧ y.Clean := by
  unfold Clean both
  simp only [List.mem_append, or_imp, forall_and]
  cases x.result <;> cases y.result <;> simp

theorem cost_bind_le {k : Nat} (h : ∀ a, x.result = .value a → (f a).cost ≤ k) :
    (x >>= f).cost ≤ x.cost + k := by
  show (bind x f).cost ≤ _
  unfold bind
  cases hx : x.result with
  | value a =>
      have hk := h a hx
      unfold cost at hk ⊢
      rw [List.map_append, List.sum_append]
      omega
  | nullopt => exact Nat.le_add_right _ _
  | outside => exact Nat.le_add_right _ _

@[simp] theorem cost_pure (a : α) : (pure a : Outcome α).cost = 0 := rfl

@[simp] theorem cost_nullopt : (nullopt : Outcome α).cost = 0 := rfl

@[simp] theorem cost_ask (r : Request) : (ask [r]).cost = r.elements * r.width := by
  simp [ask, cost]

theorem cost_both (x : Outcome α) (y : Outcome β) : (both x y).cost = x.cost + y.cost := by
  unfold cost both
  rw [List.map_append, List.sum_append]

theorem result_of_bind {b : β} (h : (x >>= f).result = .value b) :
    ∃ a, x.result = .value a ∧ (f a).result = .value b := by
  have h : (bind x f).result = .value b := h
  unfold bind at h
  cases hx : x.result with
  | value a =>
      rw [hx] at h
      exact ⟨a, rfl, h⟩
  | nullopt =>
      rw [hx] at h
      cases h
  | outside =>
      rw [hx] at h
      cases h

end Outcome

open Outcome

/-- The first four bytes as a number. -/
def headLE (b : Bytes) : Nat := readLE (b.take 4)

variable {b : Bytes}

theorem readAt_head (h : 4 ≤ b.length) : readAt b 0 4 = pure (headLE b) := by
  unfold readAt
  rw [if_pos (by omega)]
  rfl

theorem readAt_clean {offset n : Nat} (h : offset + n ≤ b.length) :
    (readAt b offset n).Clean ∧ (readAt b offset n).cost = 0 := by
  unfold readAt
  rw [if_pos h]
  exact ⟨clean_pure _, rfl⟩

theorem subspan_eq {offset n : Nat} (h : offset + n ≤ b.length) :
    subspan b offset n = pure ((b.drop offset).take n) := by
  unfold subspan
  rw [if_pos h]

/-! ## What decoding meets -/

/-- The bytes of the element in front, if they are all there. -/
def MetElem (met : Bytes → Prop) (rest : Bytes) : Prop :=
  4 ≤ rest.length → 4 + headLE rest ≤ rest.length → met ((rest.drop 4).take (headLE rest))

/-- The value of an entry is met once its key is decoded. -/
def MetEntry (kc : Codec κ) (metKey metValue : Bytes → Prop) (rest : Bytes) : Prop :=
  MetElem metKey rest ∧ ∀ k behind, (decodeElem kc rest).result = .value (k, behind) →
    MetElem metValue behind

/-- An element is met once all before it are decoded. -/
def MetMany (one : Bytes → Outcome (ε × Bytes)) (met : Bytes → Prop) : Nat → Bytes → Prop
  | 0, _ => True
  | count + 1, rest =>
      met rest ∧ ∀ e behind, (one rest).result = .value (e, behind) → MetMany one met count behind

def MetCounted (one : Bytes → Outcome (ε × Bytes)) (met : Bytes → Prop) (reserved : Nat → Prop)
    (buf : Bytes) : Prop :=
  4 ≤ buf.length → reserved (headLE buf) ∧ MetMany one met (headLE buf) (buf.drop 4)

def MetVector (c : Codec α) (met : Bytes → Prop) (buf : Bytes) : Prop :=
  MetCounted (decodeElem c) (MetElem met) (· ≤ buf.length) buf

/-- The counts that are reserved are at most the bytes of their span, and the first
length of a pair lies in its span. -/
def Tree.Met {α : Type} {same : α → α → Prop} : Tree α same → Bytes → Prop
  | .uint32, _ | .uint64, _ | .int64, _ | .string, _ => True
  | .vector t, buf => MetVector t.codec t.Met buf
  | .pair a b, buf =>
      4 ≤ buf.length → behindFirst (headLE buf) ≤ buf.length →
        4 + headLE buf ≤ buf.length ∧ a.Met ((buf.drop 4).take (headLE buf)) ∧
          b.Met (buf.drop (behindFirst (headLE buf)))
  | .optional t, buf => ∀ rest, buf = 1 :: rest → t.Met rest
  | .set t _, buf => MetCounted (decodeElem t.codec) (MetElem t.Met) (fun _ => True) buf
  | .unorderedSet t _ _, buf =>
      MetCounted (decodeElem t.codec) (MetElem t.Met) (· ≤ buf.length) buf
  | .map k v _, buf =>
      MetCounted (decodeEntry k.codec v.codec) (MetEntry k.codec k.Met v.Met) (fun _ => True) buf
  | .unorderedMap k v _ _, buf =>
      MetCounted (decodeEntry k.codec v.codec) (MetEntry k.codec k.Met v.Met) (· ≤ buf.length) buf
  | .partialMatch t, b =>
      16 ≤ b.length → ∀ n, (vecSpanLen (b.drop 16) 0).result = .value n →
        MetVector stringCodec (fun _ => True) ((b.drop 16).take n) ∧
          ∀ names, (stringsCodec.decode ((b.drop 16).take n)).result = .value names →
            ∀ m, (vecSpanLen (b.drop 16) n).result = .value m →
              MetVector t.codec t.Met (((b.drop 16).drop n).take m) ∧
                ∀ matched, ((vectorCodec t.codec).decode (((b.drop 16).drop n).take m)).result =
                  .value matched → n + m < (b.drop 16).length →
                    MetVector int64Codec (fun _ => True) ((b.drop 16).drop (n + m))

/-! ## Inside of the span -/

variable {met metKey metValue : Bytes → Prop} {c : Codec α} {kc : Codec κ} {vc : Codec β}

theorem clean_decodeElem (h : ∀ b, (c.decode b).Clean ↔ met b) (rest : Bytes) :
    (decodeElem c rest).Clean ↔ MetElem met rest := by
  unfold decodeElem MetElem
  by_cases hfour : rest.length < 4
  · rw [if_pos hfour]
    exact iff_of_true clean_nullopt fun hle => absurd hfour (by omega)
  · rw [if_neg hfour, readAt_head (by omega), Outcome.pure_bind]
    by_cases hlen : rest.length < 4 + headLE rest
    · rw [if_pos hlen]
      exact iff_of_true clean_nullopt fun _ hle => absurd hlen (by omega)
    · rw [if_neg hlen, subspan_eq (by omega), Outcome.pure_bind, clean_bind, h]
      constructor
      · exact fun hmet _ _ => hmet.1
      · exact fun hmet => ⟨hmet (by omega) (by omega), fun _ _ => clean_pure _⟩

theorem clean_decodeEntry (hk : ∀ b, (kc.decode b).Clean ↔ metKey b)
    (hv : ∀ b, (vc.decode b).Clean ↔ metValue b) (rest : Bytes) :
    (decodeEntry kc vc rest).Clean ↔ MetEntry kc metKey metValue rest := by
  unfold decodeEntry MetEntry
  rw [clean_bind, clean_decodeElem hk]
  refine and_congr_right fun _ => ⟨fun h k behind hdec => ?_, fun h p hdec => ?_⟩
  · have hbehind := h (k, behind) hdec
    rw [clean_bind, clean_decodeElem hv] at hbehind
    exact hbehind.1
  · rw [clean_bind, clean_decodeElem hv]
    exact ⟨h p.1 p.2 hdec, fun _ _ => clean_pure _⟩

variable {one : Bytes → Outcome (ε × Bytes)}

theorem clean_decodeMany {node : List Request} (hnode : ∀ r ∈ node, r.elements ≤ r.bytes)
    (h : ∀ rest, (one rest).Clean ↔ met rest) (add : γ → ε → γ) (count : Nat) (rest : Bytes)
    (out : γ) : (decodeMany one node add count rest out).Clean ↔ MetMany one met count rest := by
  induction count generalizing rest out with
  | zero => exact iff_of_true (clean_pure out) trivial
  | succ count ih =>
      rw [decodeMany, clean_bind, h]
      refine and_congr_right fun _ => ⟨fun hnext e behind hone => ?_, fun hnext p hone => ?_⟩
      · exact (ih behind (add out e)).mp ((clean_bind.mp (hnext (e, behind) hone)).2 () rfl)
      · exact clean_bind.mpr ⟨clean_ask.mpr hnode,
          fun _ _ => (ih p.2 (add out p.1)).mpr (hnext p.1 p.2 hone)⟩

theorem clean_decodeCounted {node : List Request} {reserve : Nat → List Request}
    {reserved : Nat → Prop} (hnode : ∀ r ∈ node, r.elements ≤ r.bytes)
    (hreserve : ∀ n, (∀ r ∈ reserve n, r.elements ≤ r.bytes) ↔ reserved n)
    (h : ∀ rest, (one rest).Clean ↔ met rest) (add : γ → ε → γ) (empty : γ) (buf : Bytes) :
    (decodeCounted one reserve node add empty buf).Clean ↔ MetCounted one met reserved buf := by
  unfold decodeCounted MetCounted
  by_cases hfour : buf.length < 4
  · rw [if_pos hfour]
    exact iff_of_true clean_nullopt fun hle => absurd hfour (by omega)
  · have hmany := clean_decodeMany hnode h add (headLE buf) (buf.drop 4) empty
    rw [if_neg hfour, readAt_head (by omega), Outcome.pure_bind, clean_bind, clean_ask, hreserve]
    constructor
    · exact fun hc _ => ⟨hc.1, hmany.mp (clean_bind.mp (hc.2 () rfl)).1⟩
    · intro hc
      obtain ⟨hres, hmet⟩ := hc (by omega)
      exact ⟨hres, fun _ _ => clean_bind.mpr ⟨hmany.mpr hmet, fun _ _ => clean_pure _⟩⟩

/-- What is done with the container once it is read asks for nothing. -/
theorem clean_finish {x : Outcome α} {f : α → β} :
    (x >>= fun a => (pure (f a) : Outcome β)).Clean ↔ x.Clean :=
  clean_bind.trans (and_iff_left fun _ _ => clean_pure _)

theorem clean_vector (h : ∀ b, (c.decode b).Clean ↔ met b) (buf : Bytes) :
    ((vectorCodec c).decode buf).Clean ↔ MetVector c met buf :=
  clean_finish.trans (clean_decodeCounted (by simp) (fun n => by simp) (clean_decodeElem h) _ _ buf)

theorem treeNode_le (cell : Nat) : ∀ r ∈ treeNode cell, r.elements ≤ r.bytes := by
  intro r hr
  rw [List.mem_singleton.mp hr]
  exact (by decide : 1 ≤ 4)

theorem hashNode_le (cell : Nat) : ∀ r ∈ hashNode cell, r.elements ≤ r.bytes := by
  intro r hr
  rw [List.mem_singleton.mp hr]
  exact (by decide : 1 ≤ 4)

theorem buckets_le (bytes n : Nat) :
    (∀ r ∈ buckets bytes n, r.elements ≤ r.bytes) ↔ n ≤ bytes := by
  simp [buckets]

theorem clean_pair {a : Codec α} {b : Codec β} {met' : Bytes → Prop}
    (ha : ∀ buf, (a.decode buf).Clean ↔ met buf) (hb : ∀ buf, (b.decode buf).Clean ↔ met' buf)
    (buf : Bytes) : ((pairCodec a b).decode buf).Clean ↔
      (4 ≤ buf.length → behindFirst (headLE buf) ≤ buf.length →
        4 + headLE buf ≤ buf.length ∧ met ((buf.drop 4).take (headLE buf)) ∧
          met' (buf.drop (behindFirst (headLE buf)))) := by
  unfold pairCodec
  simp only []
  by_cases hfour : buf.length < 4
  · rw [if_pos hfour]
    exact iff_of_true clean_nullopt fun hle => absurd hfour (by omega)
  · rw [if_neg hfour, readAt_head (by omega), Outcome.pure_bind]
    by_cases hlen : buf.length < behindFirst (headLE buf)
    · rw [if_pos hlen]
      exact iff_of_true clean_nullopt fun _ hle => absurd hlen (by omega)
    · rw [if_neg hlen]
      by_cases hfirst : 4 + headLE buf ≤ buf.length
      · rw [subspan_eq hfirst, Outcome.pure_bind, clean_both, ha, hb]
        exact ⟨fun h _ _ => ⟨hfirst, h⟩, fun h => (h (by omega) (by omega)).2⟩
      · -- The sum has wrapped: the view of the first component leaves the span.
        have hout : subspan buf 4 (headLE buf) = outside := if_neg hfirst
        rw [hout]
        exact iff_of_false (fun h => h.1 rfl) fun h => hfirst (h (by omega) (by omega)).1

/-! ## The spans of a partial match -/

variable {rest : Bytes}

theorem vecSpanLoop_inside (count : Nat) {off : Nat} (hoff : off ≤ rest.length) :
    (vecSpanLoop rest count off).Clean ∧ (vecSpanLoop rest count off).cost = 0 ∧
      ∀ stop, (vecSpanLoop rest count off).result = .value stop →
        off ≤ stop ∧ stop ≤ rest.length := by
  induction count generalizing off with
  | zero =>
      refine ⟨clean_pure _, rfl, fun stop h => ?_⟩
      rw [← Result.value.inj h]
      exact ⟨Nat.le_refl _, hoff⟩
  | succ count ih =>
      rw [vecSpanLoop]
      by_cases hfour : rest.length < off + 4
      · rw [if_pos hfour]
        exact ⟨clean_nullopt, rfl, nofun⟩
      · rw [if_neg hfour]
        unfold readAt
        rw [if_pos (by omega), Outcome.pure_bind]
        simp only []
        split
        · exact ⟨clean_nullopt, rfl, nofun⟩
        · obtain ⟨hclean, hcost, hstop⟩ := ih (Nat.le_of_not_lt ‹_›)
          refine ⟨hclean, hcost, fun stop h => ?_⟩
          obtain ⟨hle, hin⟩ := hstop stop h
          exact ⟨by omega, hin⟩

theorem vecSpanLen_inside (rest : Bytes) (off : Nat) :
    (vecSpanLen rest off).Clean ∧ (vecSpanLen rest off).cost = 0 ∧
      ∀ n, (vecSpanLen rest off).result = .value n → off + n ≤ rest.length := by
  unfold vecSpanLen
  by_cases hfour : rest.length < off + 4
  · rw [if_pos hfour]
    exact ⟨clean_nullopt, rfl, nofun⟩
  · obtain ⟨hclean, hcost, hstop⟩ := vecSpanLoop_inside (readLE ((rest.drop off).take 4))
      (Nat.le_of_not_lt hfour)
    rw [if_neg hfour]
    unfold readAt
    rw [if_pos (by omega), Outcome.pure_bind]
    refine ⟨clean_finish.mpr hclean, ?_, fun n h => ?_⟩
    · have hle := cost_bind_le (x := vecSpanLoop rest (readLE ((rest.drop off).take 4)) (off + 4))
        (f := fun stop => pure (stop - off)) fun _ _ => Nat.le_refl 0
      omega
    · obtain ⟨stop, hresult, hn⟩ := result_of_bind h
      have hin := hstop stop hresult
      have hsub : stop - off = n := Result.value.inj hn
      omega

/-- The span of a vector is cut out and handed on. -/
theorem clean_span {off : Nat} {k : Nat → Bytes → Outcome β} :
    (vecSpanLen rest off >>= fun n => subspan rest off n >>= fun view => k n view).Clean ↔
      ∀ n, (vecSpanLen rest off).result = .value n → (k n ((rest.drop off).take n)).Clean := by
  obtain ⟨hclean, -, hin⟩ := vecSpanLen_inside rest off
  rw [clean_bind]
  refine ⟨fun h n hn => ?_, fun h => ⟨hclean, fun n hn => ?_⟩⟩
  · have hk := h.2 n hn
    rw [subspan_eq (hin n hn)] at hk
    exact hk
  · rw [subspan_eq (hin n hn)]
    exact h n hn

theorem clean_uint (n : Nat) (buf : Bytes) : ((leUintCodec n).decode buf).Clean := by
  unfold leUintCodec
  simp only []
  by_cases hlen : buf.length ≠ n
  · rw [if_pos hlen]
    exact clean_nullopt
  · rw [if_neg hlen]
    exact clean_finish.mpr (readAt_clean (by omega)).1

theorem clean_int64 (buf : Bytes) : (int64Codec.decode buf).Clean :=
  clean_finish.mpr (clean_uint 8 buf)

theorem clean_string (buf : Bytes) : (stringCodec.decode buf).Clean := by
  refine clean_bind.mpr ⟨clean_ask.mpr (by simp), fun _ _ => ?_⟩
  rw [subspan_eq (by omega)]
  exact clean_pure _

private theorem clean_partialMatch (t : Tree α same) (h : ∀ b, (t.codec.decode b).Clean ↔ t.Met b)
    (b : Bytes) : ((partialMatchCodec t.codec).decode b).Clean ↔ (Tree.partialMatch t).Met b := by
  have hnames := clean_vector (c := stringCodec) fun b => iff_of_true (clean_string b) trivial
  have htimes := clean_vector (c := int64Codec) fun b => iff_of_true (clean_int64 b) trivial
  unfold partialMatchCodec Tree.Met
  simp only []
  by_cases hhead : b.length < 16
  · rw [if_pos hhead]
    exact iff_of_true clean_nullopt fun hle => absurd hhead (by omega)
  · have hread : ∀ offset n, offset + n ≤ 16 →
        readAt b offset n = pure (readLE ((b.drop offset).take n)) :=
      fun offset n hle => if_pos (by omega)
    rw [if_neg hhead, hread 0 8 (by decide), Outcome.pure_bind, hread 8 4 (by decide),
      Outcome.pure_bind, hread 12 4 (by decide), Outcome.pure_bind, clean_span]
    simp only [clean_bind (x := stringsCodec.decode _), clean_span,
      clean_bind (x := (vectorCodec t.codec).decode _), List.drop_zero]
    constructor
    · intro hclean _ n hn
      obtain ⟨hfirst, hrest⟩ := hclean n hn
      refine ⟨(hnames _).mp hfirst, fun names hdec m hm => ?_⟩
      obtain ⟨hsecond, hlast⟩ := hrest names hdec m hm
      refine ⟨(clean_vector h _).mp hsecond, fun matched hdec' hmore => ?_⟩
      have hthird := hlast matched hdec'
      rw [if_pos hmore] at hthird
      exact (htimes _).mp (clean_finish.mp hthird)
    · intro hmet n hn
      obtain ⟨hfirst, hrest⟩ := hmet (by omega) n hn
      refine ⟨(hnames _).mpr hfirst, fun names hdec m hm => ?_⟩
      obtain ⟨hsecond, hlast⟩ := hrest names hdec m hm
      refine ⟨(clean_vector h _).mpr hsecond, fun matched hdec' => ?_⟩
      split
      · exact clean_finish.mpr ((htimes _).mpr (hlast matched hdec' ‹_›))
      · exact clean_pure _

theorem Tree.clean_iff_met (t : Tree α same) (buf : Bytes) :
    (t.codec.decode buf).Clean ↔ t.Met buf := by
  induction t generalizing buf with
  | uint32 => exact iff_of_true (clean_uint 4 buf) trivial
  | uint64 => exact iff_of_true (clean_uint 8 buf) trivial
  | int64 => exact iff_of_true (clean_int64 buf) trivial
  | string => exact iff_of_true (clean_string buf) trivial
  | vector t ih => exact clean_vector ih buf
  | pair a b iha ihb => exact clean_pair iha ihb buf
  | optional t ih =>
      show ((optionalCodec t.codec).decode buf).Clean ↔ ∀ rest, buf = 1 :: rest → t.Met rest
      unfold optionalCodec
      cases buf with
      | nil => exact iff_of_true clean_nullopt nofun
      | cons flag rest =>
          simp only [List.cons.injEq, and_imp]
          by_cases hzero : flag = 0
          · subst hzero
            exact iff_of_true (clean_pure _) fun _ hone => absurd hone (by decide)
          · by_cases hone : flag = 1
            · subst hone
              rw [if_neg (by decide), if_neg (by decide), clean_finish, ih]
              simp
            · rw [if_neg hzero, if_pos hone]
              exact iff_of_true clean_nullopt fun _ h => absurd h hone
  | set t less ih =>
      exact clean_finish.trans (clean_decodeCounted (treeNode_le _) (fun n => by simp)
        (clean_decodeElem ih) _ _ buf)
  | unorderedSet t keyEq place ih =>
      exact clean_finish.trans (clean_decodeCounted (hashNode_le _) (buckets_le _)
        (clean_decodeElem ih) _ _ buf)
  | map k v less ihk ihv =>
      exact clean_finish.trans (clean_decodeCounted (treeNode_le _) (fun n => by simp)
        (clean_decodeEntry ihk ihv) _ _ buf)
  | unorderedMap k v keyEq place ihk ihv =>
      exact clean_finish.trans (clean_decodeCounted (hashNode_le _) (buckets_le _)
        (clean_decodeEntry ihk ihv) _ _ buf)
  | partialMatch t ih => exact clean_partialMatch t ih buf

/-! ## All requests together -/

/-- At most `weight` bytes are asked for with every byte that is taken off, and at
least the four of a length are. -/
def Spends (weight : Nat) (one : Bytes → Outcome (ε × Bytes)) (met : Bytes → Prop) : Prop :=
  ∀ rest, met rest → (one rest).cost ≤ weight * rest.length ∧
    ∀ e behind, (one rest).result = .value (e, behind) →
      ∃ d, 4 ≤ d ∧ rest.length = behind.length + d ∧ (one rest).cost ≤ weight * d

variable {w w' : Nat}

theorem cost_finish {x : Outcome α} {f : α → β} :
    (x >>= fun a => (pure (f a) : Outcome β)).cost ≤ x.cost := by
  have h := cost_bind_le (x := x) (f := fun a => (pure (f a) : Outcome β)) fun _ _ => Nat.le_refl 0
  exact h

theorem spends_decodeElem (h : ∀ b, met b → (c.decode b).cost ≤ w * b.length) :
    Spends w (decodeElem c) (MetElem met) := by
  intro rest hmet
  unfold MetElem at hmet
  unfold decodeElem
  by_cases hfour : rest.length < 4
  · rw [if_pos hfour]
    exact ⟨Nat.zero_le _, nofun⟩
  rw [if_neg hfour, readAt_head (by omega), Outcome.pure_bind]
  by_cases hlen : rest.length < 4 + headLE rest
  · rw [if_pos hlen]
    exact ⟨Nat.zero_le _, nofun⟩
  rw [if_neg hlen, subspan_eq (by omega), Outcome.pure_bind]
  have hview : ((rest.drop 4).take (headLE rest)).length = headLE rest := by
    rw [List.length_take, List.length_drop]
    omega
  have hcost := h _ (hmet (by omega) (by omega))
  rw [hview] at hcost
  have htotal : (c.decode ((rest.drop 4).take (headLE rest)) >>= fun entry =>
      (pure (entry, rest.drop (4 + headLE rest)) : Outcome (α × Bytes))).cost ≤
        w * (4 + headLE rest) :=
    Nat.le_trans cost_finish (Nat.le_trans hcost
      (Nat.mul_le_mul_left w (Nat.le_add_left (headLE rest) 4)))
  refine ⟨Nat.le_trans htotal (Nat.mul_le_mul_left w (by omega)), fun e behind hresult => ?_⟩
  obtain ⟨a, -, ha⟩ := result_of_bind hresult
  have hbehind : rest.drop (4 + headLE rest) = behind := (Prod.mk.inj (Result.value.inj ha)).2
  refine ⟨4 + headLE rest, by omega, ?_, htotal⟩
  rw [← hbehind, List.length_drop]
  omega

theorem spends_decodeEntry (hk : ∀ b, metKey b → (kc.decode b).cost ≤ w * b.length)
    (hv : ∀ b, metValue b → (vc.decode b).cost ≤ w' * b.length) :
    Spends (w + w') (decodeEntry kc vc) (MetEntry kc metKey metValue) := by
  rintro rest ⟨hkey, hvalue⟩
  obtain ⟨hcost, hbehind⟩ := spends_decodeElem hk rest hkey
  have hle : ∀ {n m}, n ≤ m → w * n ≤ w * m := fun h => Nat.mul_le_mul_left w h
  have hle' : ∀ {n m}, n ≤ m → w' * n ≤ w' * m := fun h => Nat.mul_le_mul_left w' h
  unfold decodeEntry
  cases hresult : (decodeElem kc rest).result with
  | value p =>
      obtain ⟨d, hd, hrest, hkcost⟩ := hbehind p.1 p.2 hresult
      obtain ⟨hvcost, hvbehind⟩ := spends_decodeElem hv p.2 (hvalue p.1 p.2 hresult)
      have htail : ∀ q, (decodeElem kc rest).result = .value q →
          (decodeElem vc q.2 >>= fun r =>
            (pure ((q.1, r.1), r.2) : Outcome ((κ × β) × Bytes))).cost ≤
            (decodeElem vc p.2).cost := by
        intro q hq
        rw [← Result.value.inj (hresult.symm.trans hq)]
        exact cost_finish
      have hboth := cost_bind_le htail
      refine ⟨Nat.le_trans hboth ?_, fun e behind hdec => ?_⟩
      · rw [Nat.add_mul]
        exact Nat.add_le_add hcost (Nat.le_trans hvcost (hle' (by omega)))
      · obtain ⟨q, hq, hnext⟩ := result_of_bind hdec
        rw [← Result.value.inj (hresult.symm.trans hq)] at hnext
        obtain ⟨r, hr, hend⟩ := result_of_bind hnext
        obtain rfl : r.2 = behind := (Prod.mk.inj (Result.value.inj hend)).2
        obtain ⟨d', hd', hrest', hvcost'⟩ := hvbehind r.1 r.2 hr
        refine ⟨d + d', by omega, by omega, Nat.le_trans hboth ?_⟩
        rw [Nat.add_mul]
        exact Nat.add_le_add (Nat.le_trans hkcost (hle (by omega)))
          (Nat.le_trans hvcost' (hle' (by omega)))
  | nullopt | outside =>
      have hfail := cost_bind_le (k := 0) (x := decodeElem kc rest) (f := fun p => do
        let q ← decodeElem vc p.2
        pure ((p.1, q.1), q.2)) fun a ha => by rw [hresult] at ha; cases ha
      refine ⟨Nat.le_trans hfail ?_, fun e behind hdec => ?_⟩
      · rw [Nat.add_mul]
        omega
      · obtain ⟨a, ha, -⟩ := result_of_bind hdec
        rw [hresult] at ha
        cases ha

theorem cost_decodeMany (node : List Request) (h : Spends w one met) (add : γ → ε → γ)
    {count : Nat} (hmet : MetMany one met count rest) (out : γ) :
    (decodeMany one node add count rest out).cost ≤ (w + (ask node).cost) * rest.length := by
  induction count generalizing rest out with
  | zero => exact Nat.zero_le _
  | succ count ih =>
      obtain ⟨hone, hnext⟩ := hmet
      obtain ⟨hcost, hbehind⟩ := h rest hone
      rw [decodeMany]
      cases hresult : (one rest).result with
      | value p =>
          obtain ⟨d, hd, hrest, hspent⟩ := hbehind p.1 p.2 hresult
          have htail : ∀ q, (one rest).result = .value q →
              (ask node >>= fun _ => decodeMany one node add count q.2 (add out q.1)).cost ≤
                (ask node).cost + (w + (ask node).cost) * p.2.length := by
            intro q hq
            rw [← Result.value.inj (hresult.symm.trans hq)]
            exact cost_bind_le fun _ _ => ih (hnext p.1 p.2 hresult) (add out p.1)
          have hnode : (ask node).cost ≤ (ask node).cost * d := Nat.le_mul_of_pos_right _ (by omega)
          have hsplit : (w + (ask node).cost) * rest.length =
              (w + (ask node).cost) * p.2.length + (w * d + (ask node).cost * d) := by
            rw [hrest, Nat.mul_add, Nat.add_mul w (ask node).cost d]
          refine Nat.le_trans (cost_bind_le htail) ?_
          omega
      | nullopt | outside =>
          refine Nat.le_trans (cost_bind_le (k := 0) fun a ha => ?_) ?_
          · rw [hresult] at ha
            cases ha
          · rw [Nat.add_mul]
            omega

variable {buf : Bytes}

theorem cost_decodeCounted (reserve : Nat → List Request) (node : List Request)
    {reserved : Nat → Prop} {r : Nat} (h : Spends w one met) (add : γ → ε → γ) (empty : γ)
    (hreserve : ∀ n, reserved n → (ask (reserve n)).cost ≤ r * buf.length)
    (hmet : MetCounted one met reserved buf) :
    (decodeCounted one reserve node add empty buf).cost ≤
      (r + (ask node).cost + w) * buf.length := by
  unfold decodeCounted
  by_cases hfour : buf.length < 4
  · rw [if_pos hfour]
    exact Nat.zero_le _
  obtain ⟨hres, hmany⟩ := hmet (by omega)
  have hloop := cost_decodeMany node h add hmany empty
  have hshort : (w + (ask node).cost) * (buf.drop 4).length ≤ (w + (ask node).cost) * buf.length :=
    Nat.mul_le_mul_left _ (by rw [List.length_drop]; omega)
  rw [if_neg hfour, readAt_head (by omega), Outcome.pure_bind]
  refine Nat.le_trans (cost_bind_le fun _ _ => Nat.le_trans cost_finish hloop) ?_
  have hfirst := hreserve _ hres
  have hexpand := Nat.add_mul w (ask node).cost buf.length
  have htotal : (r + (ask node).cost + w) * buf.length =
      r * buf.length + (ask node).cost * buf.length + w * buf.length := by
    rw [Nat.add_mul, Nat.add_mul]
  omega

/-- The bytes that may be asked for with every byte of the span. -/
def Tree.weight {α : Type} {same : α → α → Prop} : Tree α same → Nat
  | .uint32 | .uint64 | .int64 => 0
  | .string => 1
  | .vector t => t.codec.cell + t.weight
  | .pair a b => a.weight + b.weight
  | .optional t => t.weight
  | .set t _ => 32 + t.codec.cell + t.weight
  | .unorderedSet t _ _ => 8 + (16 + t.codec.cell) + t.weight
  | .map k v _ => 32 + (k.codec.cell + v.codec.cell) + (k.weight + v.weight)
  | .unorderedMap k v _ _ => 8 + (16 + (k.codec.cell + v.codec.cell)) + (k.weight + v.weight)
  | .partialMatch t => stringCell + 1 + (t.codec.cell + t.weight) + 8

theorem cost_vector (h : ∀ b, met b → (c.decode b).cost ≤ w * b.length)
    (hmet : MetVector c met buf) :
    ((vectorCodec c).decode buf).cost ≤ (c.cell + w) * buf.length := by
  refine Nat.le_trans cost_finish
    (cost_decodeCounted (r := c.cell) _ _ (spends_decodeElem h) _ _ (fun n hn => ?_) hmet)
  rw [cost_ask, Nat.mul_comm c.cell]
  exact Nat.mul_le_mul_right _ hn

theorem cost_buckets (n : Nat) (hn : n ≤ buf.length) :
    (ask (buckets buf.length n)).cost ≤ 8 * buf.length := by
  rw [buckets, cost_ask, Nat.mul_comm 8]
  exact Nat.mul_le_mul_right 8 hn

theorem cost_node (width : Nat) : (ask [⟨1, width, 4⟩]).cost = width := by
  rw [cost_ask, Nat.one_mul]

theorem cost_uint (n : Nat) (buf : Bytes) : ((leUintCodec n).decode buf).cost = 0 := by
  unfold leUintCodec
  simp only []
  by_cases hlen : buf.length ≠ n
  · rw [if_pos hlen]
    rfl
  · rw [if_neg hlen]
    have hread := (readAt_clean (b := buf) (show 0 + n ≤ buf.length by omega)).2
    have hle := cost_finish (x := readAt buf 0 n) (f := BitVec.ofNat (8 * n))
    exact Nat.le_zero.mp (Nat.le_trans hle (Nat.le_of_eq hread))

theorem cost_int64 (buf : Bytes) : (int64Codec.decode buf).cost = 0 :=
  Nat.le_zero.mp (Nat.le_trans cost_finish (Nat.le_of_eq (cost_uint 8 buf)))

theorem cost_string (buf : Bytes) : (stringCodec.decode buf).cost ≤ 1 * buf.length := by
  refine Nat.le_trans (cost_bind_le (k := 0) fun _ _ => ?_) ?_
  · rw [subspan_eq (by omega)]
    exact Nat.le_refl 0
  · rw [cost_ask, Nat.mul_comm]
    exact Nat.le_refl _

private theorem cost_pair {a : Codec α} {b : Codec β} {met' : Bytes → Prop}
    (ha : ∀ buf, met buf → (a.decode buf).cost ≤ w * buf.length)
    (hb : ∀ buf, met' buf → (b.decode buf).cost ≤ w' * buf.length)
    (hmet : 4 ≤ buf.length → behindFirst (headLE buf) ≤ buf.length →
      4 + headLE buf ≤ buf.length ∧ met ((buf.drop 4).take (headLE buf)) ∧
        met' (buf.drop (behindFirst (headLE buf)))) :
    ((pairCodec a b).decode buf).cost ≤ (w + w') * buf.length := by
  unfold pairCodec
  simp only []
  by_cases hfour : buf.length < 4
  · rw [if_pos hfour]
    exact Nat.zero_le _
  rw [if_neg hfour, readAt_head (by omega), Outcome.pure_bind]
  by_cases hlen : buf.length < behindFirst (headLE buf)
  · rw [if_pos hlen]
    exact Nat.zero_le _
  obtain ⟨hin, hfirst, hsecond⟩ := hmet (by omega) (by omega)
  rw [if_neg hlen, subspan_eq hin, Outcome.pure_bind, cost_both, Nat.add_mul]
  refine Nat.add_le_add (Nat.le_trans (ha _ hfirst) (Nat.mul_le_mul_left w ?_))
    (Nat.le_trans (hb _ hsecond) (Nat.mul_le_mul_left w' ?_))
  · rw [List.length_take, List.length_drop]
    omega
  · rw [List.length_drop]
    omega

theorem cost_span {off bound : Nat} {k : Nat → Bytes → Outcome β}
    (h : ∀ n, (vecSpanLen rest off).result = .value n →
      (k n ((rest.drop off).take n)).cost ≤ bound) :
    (vecSpanLen rest off >>= fun n => subspan rest off n >>= fun view => k n view).cost ≤
      bound := by
  obtain ⟨-, hcost, hin⟩ := vecSpanLen_inside rest off
  refine Nat.le_trans (cost_bind_le fun n hn => ?_) (Nat.le_of_eq (by rw [hcost, Nat.zero_add]))
  rw [subspan_eq (hin n hn)]
  exact h n hn

private theorem cost_partialMatch (t : Tree α same)
    (h : ∀ b, t.Met b → (t.codec.decode b).cost ≤ t.weight * b.length)
    (hmet : (Tree.partialMatch t).Met b) :
    ((partialMatchCodec t.codec).decode b).cost ≤ (Tree.partialMatch t).weight * b.length := by
  unfold Tree.Met at hmet
  unfold partialMatchCodec Tree.weight
  simp only []
  by_cases hhead : b.length < 16
  · rw [if_pos hhead]
    exact Nat.zero_le _
  have hread : ∀ offset n, offset + n ≤ 16 →
      readAt b offset n = pure (readLE ((b.drop offset).take n)) :=
    fun offset n hle => if_pos (by omega)
  have hrest : ∀ {view : Bytes} (n : Nat), view.length ≤ b.length →
      n * view.length ≤ n * b.length :=
    fun n hle => Nat.mul_le_mul_left n hle
  rw [if_neg hhead, hread 0 8 (by decide), Outcome.pure_bind, hread 8 4 (by decide),
    Outcome.pure_bind, hread 12 4 (by decide), Outcome.pure_bind, Nat.add_mul, Nat.add_mul,
    Nat.add_assoc]
  refine cost_span fun n hn => ?_
  obtain ⟨hfirst, hnext⟩ := hmet (by omega) n hn
  have hnames := cost_vector (fun b _ => cost_string b) hfirst
  refine Nat.le_trans (cost_bind_le fun names hdec => cost_span fun m hm => ?_)
    (Nat.add_le_add (Nat.le_trans hnames (hrest _ ?_)) (Nat.le_refl _))
  · obtain ⟨hsecond, hlast⟩ := hnext names hdec m hm
    have hmatched := cost_vector h hsecond
    refine Nat.le_trans (cost_bind_le fun matched hdec' => ?_)
      (Nat.add_le_add (Nat.le_trans hmatched (hrest _ ?_)) (Nat.le_refl _))
    · split
      · have htimes := cost_vector (w := 0) (fun b _ => (by rw [cost_int64]; exact Nat.zero_le _))
          (hlast matched hdec' ‹_›)
        refine Nat.le_trans cost_finish (Nat.le_trans htimes (hrest 8 ?_))
        rw [List.length_drop, List.length_drop]
        omega
      · exact Nat.zero_le _
    · rw [List.length_take, List.length_drop, List.length_drop]
      omega
  · rw [List.length_take, List.length_drop]
    omega

theorem Tree.cost_le (t : Tree α same) (hmet : t.Met buf) :
    (t.codec.decode buf).cost ≤ t.weight * buf.length := by
  induction t generalizing buf with
  | uint32 => exact Nat.le_trans (Nat.le_of_eq (cost_uint 4 buf)) (Nat.zero_le _)
  | uint64 => exact Nat.le_trans (Nat.le_of_eq (cost_uint 8 buf)) (Nat.zero_le _)
  | int64 => exact Nat.le_trans (Nat.le_of_eq (cost_int64 buf)) (Nat.zero_le _)
  | string => exact cost_string buf
  | vector t ih => exact cost_vector (fun _ => ih) hmet
  | pair a b iha ihb => exact cost_pair (fun _ => iha) (fun _ => ihb) hmet
  | optional t ih =>
      show ((optionalCodec t.codec).decode buf).cost ≤ t.weight * buf.length
      unfold optionalCodec
      cases buf with
      | nil => exact Nat.zero_le _
      | cons flag rest =>
          simp only []
          by_cases hzero : flag = 0
          · rw [if_pos hzero]
            exact Nat.zero_le _
          · by_cases hone : flag = 1
            · subst hone
              rw [if_neg (by decide), if_neg (by decide)]
              exact Nat.le_trans cost_finish (Nat.le_trans (ih (hmet rest rfl))
                (Nat.mul_le_mul_left _ (Nat.le_succ _)))
            · rw [if_neg hzero, if_pos hone]
              exact Nat.zero_le _
  | set t less ih =>
      have hcounted := cost_decodeCounted (r := 0) (fun _ => [])
        (treeNode t.codec.cell) (spends_decodeElem fun _ => ih) Sorted.emplace
        (Sorted.empty : Sorted less (fun a => a)) (fun _ _ => Nat.zero_le _) hmet
      rw [treeNode, cost_node, Nat.zero_add] at hcounted
      exact Nat.le_trans cost_finish hcounted
  | unorderedSet t keyEq place ih =>
      have hcounted := cost_decodeCounted (buckets buf.length) (hashNode t.codec.cell)
        (spends_decodeElem fun _ => ih) Distinct.emplace
        (Distinct.empty : Distinct keyEq (fun a => a)) cost_buckets hmet
      rw [hashNode, cost_node] at hcounted
      exact Nat.le_trans cost_finish hcounted
  | map k v less ihk ihv =>
      have hcounted := cost_decodeCounted (r := 0) (fun _ => [])
        (treeNode (k.codec.cell + v.codec.cell)) (spends_decodeEntry (fun _ => ihk) fun _ => ihv)
        Sorted.emplace (Sorted.empty : Sorted less Prod.fst) (fun _ _ => Nat.zero_le _) hmet
      rw [treeNode, cost_node, Nat.zero_add] at hcounted
      exact Nat.le_trans cost_finish hcounted
  | unorderedMap k v keyEq place ihk ihv =>
      have hcounted := cost_decodeCounted (buckets buf.length)
        (hashNode (k.codec.cell + v.codec.cell)) (spends_decodeEntry (fun _ => ihk) fun _ => ihv)
        Distinct.emplace (Distinct.empty : Distinct keyEq Prod.fst) cost_buckets hmet
      rw [hashNode, cost_node] at hcounted
      exact Nat.le_trans cost_finish hcounted
  | partialMatch t ih => exact cost_partialMatch t (fun _ => ih) hmet

/-! ## Safe decoding -/

/-- Decoding stays in the span, asks for at most an element for every byte of the
span at hand, and for at most `t.weight` bytes for every byte altogether. -/
structure Tree.Safe (t : Tree α same) (buf : Bytes) : Prop where
  inside : (t.codec.decode buf).result ≠ .outside
  requests : ∀ r ∈ (t.codec.decode buf).requests, r.elements ≤ r.bytes
  total : (t.codec.decode buf).cost ≤ t.weight * buf.length

theorem Tree.safe_iff_met (t : Tree α same) (buf : Bytes) : t.Safe buf ↔ t.Met buf :=
  ⟨fun h => (t.clean_iff_met buf).mp ⟨h.inside, h.requests⟩, fun h =>
    have hclean := (t.clean_iff_met buf).mpr h
    ⟨hclean.1, hclean.2, t.cost_le h⟩⟩

/-- Four bytes ask for 32 GiB, and four bytes make a pair of strings read beyond
them. -/
theorem four_bytes_ask_too_much :
    (Tree.vector .uint64).codec.decode [255, 255, 255, 255] =
        ⟨.nullopt, [⟨4294967295, 8, 4⟩]⟩ ∧
      ¬ (Tree.vector .uint64).Safe [255, 255, 255, 255] ∧
      (Tree.pair .string .string).codec.decode [255, 255, 255, 255] = ⟨.outside, []⟩ ∧
      ¬ (Tree.pair .string .string).Safe [255, 255, 255, 255] := by
  have hvector : (Tree.vector .uint64).codec.decode [255, 255, 255, 255] =
      ⟨.nullopt, [⟨4294967295, 8, 4⟩]⟩ := rfl
  have hpair : (Tree.pair .string .string).codec.decode [255, 255, 255, 255] =
      ⟨.outside, []⟩ := rfl
  refine ⟨hvector, fun h => ?_, hpair, fun h => h.inside (congrArg Outcome.result hpair)⟩
  have hrequest := h.requests ⟨4294967295, 8, 4⟩ (by rw [hvector]; exact List.mem_singleton_self _)
  exact absurd hrequest (by decide)

end Clink.Ports.ByteCodec

import Clink.Ports.CodecLossless

/-!
# The derived codec

`derived_codec` encodes a described struct field by field.  A `Field` is a tree of
supported field types; a struct is the chain of its members in declared order.
Numbers of all kinds are their bit patterns.  `encode_value` appends to a buffer
and throws on a length that does not fit in 32 bits; `decode_value` takes a value
off the front of what is left of the buffer, so that an encoding is a whole frame
of its reader (`Frames`): it is read back before any suffix, and no encoding is a
strict prefix of another.

The last section puts the two families of codecs side by side.
-/

namespace Clink.Ports.ByteCodec

open Clink.Verified

variable {α β κ ε γ : Type}

/-! ## Field types -/

inductive Scalar
  | int8
  | int16
  | int32
  | int64
  | uint8
  | uint16
  | uint32
  | uint64
  | float
  | double
  deriving DecidableEq

/-- The number of bytes. -/
def Scalar.width : Scalar → Nat
  | .int8 | .uint8 => 1
  | .int16 | .uint16 => 2
  | .int32 | .uint32 | .float => 4
  | .int64 | .uint64 | .double => 8

inductive Field : Type → Type 1
  | bool : Field Bool
  | scalar (s : Scalar) : Field (BitVec (8 * s.width))
  | string : Field Bytes
  | optional {α : Type} (f : Field α) : Field (Option α)
  | vector {α : Type} (f : Field α) : Field (List α)
  | map {κ β : Type} (k : Field κ) (v : Field β) (less : Less (Eq : κ → κ → Prop)) :
      Field (Sorted less (Prod.fst : κ × β → κ))
  | noMembers : Field Unit
  | member {α β : Type} (f : Field α) (rest : Field β) : Field (α × β)

/-! ## Encoding -/

/-- `none` is the `std::length_error`. -/
def putLen (out : Bytes) (n : Nat) : Option Bytes :=
  if 2 ^ 32 - 1 < n then none else some (out ++ putLE 4 n)

namespace Field

def encodeValue {α : Type} : Field α → α → Bytes → Option Bytes
  | .bool, v, out => some (out ++ [if v then 1 else 0])
  | .scalar s, v, out => some (out ++ putLE s.width v.toNat)
  | .string, v, out => (putLen out v.length).bind fun out => some (out ++ v)
  | .optional _, none, out => some (out ++ [0])
  | .optional f, some v, out => (some (out ++ [1])).bind (f.encodeValue v)
  | .vector f, v, out =>
      (putLen out v.length).bind fun out => v.foldlM (fun out e => f.encodeValue e out) out
  | .map k v _, m, out =>
      (putLen out m.1.length).bind fun out =>
        m.1.foldlM (fun out e => (k.encodeValue e.1 out).bind (v.encodeValue e.2)) out
  | .noMembers, _, out => some out
  | .member f rest, p, out => (f.encodeValue p.1 out).bind (rest.encodeValue p.2)

def encodeInto (f : Field α) (v : α) (out : Bytes) : Option Bytes := f.encodeValue v out

def encode (f : Field α) (v : α) : Option Bytes := f.encodeValue v []

/-! ## Decoding -/

def readFlagByte : Reader Bool
  | [] => none
  | raw :: rest => if raw > 1 then none else some (raw == 1, rest)

def decodeValue {α : Type} : Field α → Reader α
  | .bool => readFlagByte
  | .scalar s => (Reader.getLE s.width).map (BitVec.ofNat (8 * s.width))
  | .string => (Reader.getLE 4).bind Reader.take
  | .optional f =>
      readFlagByte.bind fun present =>
        if present then f.decodeValue.map some else fun bytes => some (none, bytes)
  | .vector f =>
      (Reader.getLE 4).bind fun n =>
        Reader.fold (fun out => f.decodeValue.map fun e => out ++ [e]) n []
  | .map k v _ =>
      (Reader.getLE 4).bind fun n =>
        Reader.fold (fun out => k.decodeValue.bind fun key =>
          v.decodeValue.map fun value => out.emplace (key, value)) n Sorted.empty
  | .noMembers => fun bytes => some ((), bytes)
  | .member f rest => f.decodeValue.bind fun a => rest.decodeValue.map fun b => (a, b)

/-- The buffer is consumed to its end. -/
def decode (f : Field α) (b : Bytes) : Option α :=
  match f.decodeValue b with
  | some (v, []) => some v
  | _ => none

/-! ## Appending -/

/-- Appends bytes that do not depend on what is there, or throws. -/
def AppendsOnly (g : Bytes → Option Bytes) : Prop := ∀ out, g out = (g []).map (out ++ ·)

theorem appendsOnly_some (bytes : Bytes) : AppendsOnly fun out => some (out ++ bytes) :=
  fun _ => rfl

variable {g h : Bytes → Option Bytes}

theorem AppendsOnly.bind (hg : AppendsOnly g) (hh : AppendsOnly h) :
    AppendsOnly fun out => (g out).bind h := by
  intro out
  show (g out).bind h = ((g []).bind h).map (out ++ ·)
  rw [hg out]
  cases g [] with
  | none => rfl
  | some x =>
      show h (out ++ x) = (h x).map (out ++ ·)
      rw [hh (out ++ x), hh x]
      cases h [] with
      | none => rfl
      | some y => exact congrArg some (List.append_assoc out x y)

theorem appendsOnly_putLen (n : Nat) : AppendsOnly fun out => putLen out n := by
  intro out
  unfold putLen
  split <;> rfl

theorem appendsOnly_foldlM {step : ε → Bytes → Option Bytes}
    (h : ∀ e, AppendsOnly (step e)) (l : List ε) :
    AppendsOnly fun out => l.foldlM (fun out e => step e out) out := by
  induction l with
  | nil => exact fun out => congrArg some (List.append_nil out).symm
  | cons e l ih => exact (h e).bind ih

theorem appendsOnly (f : Field α) (v : α) : AppendsOnly (f.encodeValue v) := by
  induction f with
  | bool | scalar s => exact appendsOnly_some _
  | string => exact (appendsOnly_putLen _).bind (appendsOnly_some _)
  | optional f ih =>
      cases v with
      | none => exact appendsOnly_some _
      | some v => exact (appendsOnly_some [1]).bind (ih v)
  | vector f ih => exact (appendsOnly_putLen _).bind (appendsOnly_foldlM ih _)
  | map k u less ihk ihu =>
      exact (appendsOnly_putLen _).bind
        (appendsOnly_foldlM (fun e : _ × _ => (ihk e.1).bind (ihu e.2)) _)
  | noMembers => exact fun out => congrArg some (List.append_nil out).symm
  | member f rest ihf ihr => exact (ihf v.1).bind (ihr v.2)

theorem bind_eq_some {x y : Bytes} (hh : AppendsOnly h) (hx : g [] = some x) (hy : h [] = some y) :
    (g []).bind h = some (x ++ y) := by
  rw [hx]
  show h x = _
  rw [hh x, hy]
  rfl

/-! ## Frames -/

/-- Every size fits in 32 bits. -/
def Fits {α : Type} : Field α → α → Prop
  | .string, v => v.length < 2 ^ 32
  | .optional f, v => ∀ x ∈ v, f.Fits x
  | .vector f, v => FitsCount f.Fits v
  | .map k u _, m => FitsCount (fun e => k.Fits e.1 ∧ u.Fits e.2) m.1
  | .member f rest, p => f.Fits p.1 ∧ rest.Fits p.2
  | .bool, _ | .scalar _, _ | .noMembers, _ => True

theorem frames_pure (a : α) : Frames (fun bytes => some (a, bytes)) [] a :=
  ⟨fun _ => rfl, fun _ _ hshort => absurd hshort (Nat.not_lt_zero _)⟩

theorem frames_flag (v : Bool) : Frames readFlagByte [if v then 1 else 0] v where
  reads rest := by
    cases v <;> rfl
  rejects cut _ hshort := by
    have hnil : cut = [] := List.length_eq_zero_iff.mp (Nat.lt_one_iff.mp hshort)
    rw [hnil]
    rfl

/-- What `g` writes into an empty buffer is a frame of `r`. -/
def Framed (g : Bytes → Option Bytes) (r : Reader α) (v : α) : Prop :=
  ∃ enc, g [] = some enc ∧ Frames r enc v

theorem framed_count {n : Nat} (h : n < 2 ^ 32) :
    Framed (fun out => putLen out n) (Reader.getLE 4) n := by
  refine ⟨putLE 4 n, ?_, Frames.getLE h⟩
  show putLen [] n = _
  unfold putLen
  rw [if_neg (by omega)]
  rfl

theorem Framed.bind {r : Reader α} {k : α → Reader β} {a : α} {b : β} (hh : AppendsOnly h)
    (hr : Framed g r a) (hk : Framed h (k a) b) :
    Framed (fun out => (g out).bind h) (r.bind k) b := by
  obtain ⟨x, hx, hframes⟩ := hr
  obtain ⟨y, hy, hframes'⟩ := hk
  exact ⟨x ++ y, bind_eq_some hh hx hy, hframes.bind hframes'⟩

theorem Framed.map {r : Reader α} {a : α} (k : α → β) (h : Framed g r a) :
    Framed g (r.map k) (k a) := by
  obtain ⟨x, hx, hframes⟩ := h
  exact ⟨x, hx, hframes.map k⟩

theorem framed_foldlM {step : ε → Bytes → Option Bytes} {read : γ → Reader γ}
    {add : γ → ε → γ} (happ : ∀ e, AppendsOnly (step e)) {l : List ε}
    (h : ∀ out, ∀ e ∈ l, Framed (step e) (read out) (add out e)) (acc : γ) :
    Framed (fun out => l.foldlM (fun out e => step e out) out) (Reader.fold read l.length acc)
      (l.foldl add acc) := by
  induction l generalizing acc with
  | nil => exact ⟨[], rfl, frames_pure acc⟩
  | cons e l ih =>
      have htail := ih (fun out x hx => h out x (List.mem_cons_of_mem e hx)) (add acc e)
      exact Framed.bind (appendsOnly_foldlM happ l) (h acc e List.mem_cons_self) htail

theorem framed_encodeValue (f : Field α) {v : α} (hv : f.Fits v) :
    Framed (f.encodeValue v) f.decodeValue v := by
  induction f with
  | bool => exact ⟨_, rfl, frames_flag v⟩
  | scalar s =>
      have hlt : v.toNat < 256 ^ s.width := by
        have h := v.isLt
        rw [Nat.pow_mul] at h
        exact h
      have hframes := (Frames.getLE hlt).map (BitVec.ofNat (8 * s.width))
      rw [BitVec.ofNat_toNat, BitVec.setWidth_eq] at hframes
      exact ⟨_, rfl, hframes⟩
  | string => exact Framed.bind (appendsOnly_some v) (framed_count hv) ⟨v, rfl, Frames.take v⟩
  | optional f ih =>
      cases v with
      | none => exact ⟨_, rfl, (frames_flag false).bind (frames_pure none)⟩
      | some v =>
          refine Framed.bind (f.appendsOnly v) ⟨[1], rfl, frames_flag true⟩ ?_
          exact (ih (hv v rfl)).map some
  | vector f ih =>
      have hall : (([] : List _) ++ v).Pairwise fun _ _ => True :=
        List.pairwise_of_forall fun _ _ => trivial
      have helems := framed_foldlM (fun e => f.appendsOnly e)
        (fun (out : List _) e he => (ih (hv.2 e he)).map fun e => out ++ [e]) []
      rw [foldl_add (fun l => l) (fun _ _ _ => rfl) v [] hall] at helems
      exact Framed.bind (appendsOnly_foldlM (fun e => f.appendsOnly e) v) (framed_count hv.1) helems
  | map k u less ihk ihu =>
      have happ := fun e : _ × _ => (k.appendsOnly e.1).bind (u.appendsOnly e.2)
      have hentry : ∀ (out : Sorted less Prod.fst), ∀ e ∈ v.1,
          Framed (fun bytes => (k.encodeValue e.1 bytes).bind (u.encodeValue e.2))
            (k.decodeValue.bind fun key =>
              u.decodeValue.map fun value => out.emplace (key, value)) (out.emplace e) := by
        intro out e he
        obtain ⟨hk, hu⟩ := hv.2 e he
        exact Framed.bind (u.appendsOnly e.2) (ihk hk) ((ihu hu).map fun w => out.emplace (e.1, w))
      have helems := framed_foldlM happ hentry Sorted.empty
      have hkept : v.1.foldl Sorted.emplace Sorted.empty = v :=
        Subtype.ext (Sorted.foldl_emplace v.2)
      rw [hkept] at helems
      exact Framed.bind (appendsOnly_foldlM happ v.1) (framed_count hv.1) helems
  | noMembers => exact ⟨[], rfl, frames_pure ()⟩
  | member f rest ihf ihr =>
      exact Framed.bind (rest.appendsOnly v.2) (ihf hv.1) ((ihr hv.2).map fun b => (v.1, b))

/-! ## Both families -/

/-- What is asked of the derived codec at a value. -/
structure Lossless (f : Field α) (v : α) : Prop where
  comes : ∃ enc, f.encode v = some enc ∧ f.decode enc = some v
  appends : ∀ out, f.encodeInto v out = (f.encode v).map (out ++ ·)
  distinct : ∀ w, f.Fits w → v ≠ w → f.encode v ≠ f.encode w
  prefixFree : ∀ w, f.Fits w → ∀ enc enc', f.encode v = some enc → f.encode w = some enc' →
    enc <+: enc' → enc = enc'
  whole : ∀ enc, f.encode v = some enc → ∀ extra, extra ≠ [] → f.decode (enc ++ extra) = none

theorem decode_of_frames {f : Field α} {enc : Bytes} {v : α}
    (h : Frames f.decodeValue enc v) (extra : Bytes) :
    f.decode (enc ++ extra) = if extra = [] then some v else none := by
  unfold decode
  rw [h.reads extra]
  cases extra <;> rfl

theorem lossless (f : Field α) {v : α} (hv : f.Fits v) : f.Lossless v := by
  obtain ⟨enc, henc, hframes⟩ := f.framed_encodeValue hv
  have hback := decode_of_frames hframes []
  rw [List.append_nil, if_pos rfl] at hback
  -- What an encoding is a prefix of is read as the same value, with nothing left.
  have hfirst : ∀ w, f.Fits w → ∀ enc', f.encode w = some enc' → enc <+: enc' →
      v = w ∧ enc = enc' := by
    rintro w hw enc' henc' ⟨extra, rfl⟩
    obtain ⟨x, hx, hframes'⟩ := f.framed_encodeValue hw
    have hread := hframes'.reads []
    rw [Option.some.inj (hx.symm.trans henc'), List.append_nil, hframes.reads extra,
      Option.some.injEq, Prod.mk.injEq] at hread
    obtain ⟨rfl, rfl⟩ := hread
    exact ⟨rfl, (List.append_nil enc).symm⟩
  exact
    { comes := ⟨enc, henc, hback⟩
      appends := f.appendsOnly v
      distinct := fun w hw hne heq => hne (hfirst w hw enc (heq ▸ henc) (List.prefix_refl enc)).1
      prefixFree := fun w hw x y hx hy hpre => by
        rw [Option.some.inj (hx.symm.trans henc)] at hpre ⊢
        exact (hfirst w hw y hy hpre).2
      whole := fun x hx extra hne => by
        rw [Option.some.inj (hx.symm.trans henc), decode_of_frames hframes, if_neg hne] }

end Field

/-- What is asked of a nesting of combinators at a value. -/
structure Tree.Lossless {same : α → α → Prop} (t : Tree α same) (v : α) : Prop where
  comes : Comes same t.codec v
  appends : ∀ into ∈ t.codec.encodeInto, ∀ out, into v out = out ++ t.codec.encode v
  distinct : ∀ w, t.Fits w → ¬ same v w → t.codec.encode v ≠ t.codec.encode w

variable {same : α → α → Prop}

theorem Tree.lossless (t : Tree α same) (ht : t.Combinators) {v : α} (hfits : t.Fits v)
    (hunwrapped : t.Unwrapped v) :
    t.Lossless v where
  comes := t.comes ht hfits hunwrapped
  appends into hinto out := by
    have happ := t.appends v out
    unfold encodeAppend at happ
    rw [Option.mem_def.mp hinto] at happ
    exact happ
  distinct _ hw hne heq := hne (t.same_of_encode_eq ht hfits hw hunwrapped heq)

theorem Tree.Leaf.combinators {t : Tree α same} (h : t.Leaf) : t.Combinators := by
  cases t <;> trivial

private theorem Tree.Leaf.unwrapped {t : Tree α same} (h : t.Leaf) (v : α) : t.Unwrapped v := by
  cases t <;> trivial

/-- Nestings of combinators keep the values whose sizes fit in 32 bits unless the
sum of `pair_codec` wraps, and the derived codec keeps all of them; in front of an
integer or a string a wrapped sum loses the pair. -/
theorem lossless_unless_wrapped {δ : Type} {same : α → α → Prop} (t : Tree α same)
    (ht : t.Combinators) (f : Field δ) :
    (∀ v, t.Fits v → t.Unwrapped v → t.Lossless v) ∧
      (∀ {β : Type} {same' : β → β → Prop} (b : Tree β same'), b.Leaf →
        ∀ p, (Tree.pair t b).Fits p →
          ((Tree.pair t b).Lossless p ↔ (t.codec.encode p.1).length < 2 ^ 32 - 4)) ∧
      ∀ u, f.Fits u → f.Lossless u := by
  refine ⟨fun v hv hu => t.lossless ht hv hu, fun b hb p hp => ⟨fun h => ?_, fun h => ?_⟩,
    fun u hu => f.lossless hu⟩
  · by_contra hlong
    exact Tree.pair_not_comes hb hp (Nat.le_of_not_lt hlong) h.comes
  · exact (Tree.pair t b).lossless ⟨ht, hb.combinators⟩ hp ⟨h, hb.unwrapped p.2⟩

/-- A map of strings to optional numbers, and a struct with a vector. -/
theorem lossless_nested :
    let less : Less (Eq : Bytes → Bytes → Prop) :=
      ⟨fun a b => decide (a < b), fun _ _ _ h h' => by
        rw [decide_eq_true_eq] at h h' ⊢
        exact List.lt_trans h h', fun h h' => by rw [h, h']⟩
    let t := Tree.map Tree.string (Tree.optional Tree.uint32) less
    let f := Field.member Field.string (Field.member (Field.vector (Field.scalar .int16))
      Field.noMembers)
    t.Lossless ⟨[([97], some 7), ([98], none)], by decide⟩ ∧ f.Lossless ([99], [1, 2], ()) := by
  intro less t f
  obtain ⟨hcombined, -, hderived⟩ := lossless_unless_wrapped t ⟨trivial, trivial⟩ f
  refine ⟨hcombined _ ⟨by decide, fun e he => ?_⟩ trivial, hderived _ ?_⟩
  · rcases List.mem_cons.mp he with rfl | he
    · exact ⟨⟨trivial, by decide⟩, fun _ _ => trivial, by decide⟩
    · rw [List.mem_singleton.mp he]
      exact ⟨⟨trivial, by decide⟩, fun _ _ => trivial, by decide⟩
  · have hname : ([99] : Bytes).length < 2 ^ 32 := by decide
    have hcount : ([1, 2] : List (BitVec (8 * Scalar.int16.width))).length < 2 ^ 32 := by decide
    exact ⟨hname, ⟨hcount, fun _ _ => trivial⟩, trivial⟩

/-- A pair of strings, the first of `2 ^ 32 - 4` bytes. -/
theorem long_first_lost :
    let t := Tree.pair Tree.string Tree.string
    let p : Bytes × Bytes := (List.replicate (2 ^ 32 - 4) 0, [])
    t.Fits p ∧ ¬ Comes (Both Eq Eq) t.codec p := by
  intro t p
  have hlen : p.1.length = 2 ^ 32 - 4 := List.length_replicate
  have hfits : t.Fits p := ⟨⟨trivial, by show p.1.length < _; omega⟩, trivial⟩
  have hleaf : Tree.string.Leaf := trivial
  exact ⟨hfits, Tree.pair_not_comes hleaf hfits (Nat.le_of_eq hlen.symm)⟩

end Clink.Ports.ByteCodec

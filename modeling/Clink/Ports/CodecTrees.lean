import Clink.Verified.Framing

/-!
# Codecs and their combinators

`codec.hpp` builds a codec from the codecs of its parts: a container writes a
count and a length in front of every element, a pair a length in front of its
first component, and an optional a flag.  `partial_match_codec` of the pattern
operator puts three vectors behind a fixed head.

A decoder is modelled with what it does to memory.  `Outcome.requests` lists what
it asks the allocator for, each beside the number of bytes of the span at hand,
and `Result.outside` stands for a byte or a subspan that does not lie in the
span.  `Tree` is the type of all nestings, indexed by the values of the codec and
by their `operator==`, which for an unordered container forgets the order in
which its elements are met.
-/

namespace Clink.Ports.ByteCodec

open Clink.Verified

abbrev Bytes := List UInt8

variable {α β κ ε γ : Type}

/-! ## What a decoder does -/

inductive Result (α : Type)
  | value (a : α)
  | nullopt
  /-- A byte or a subspan outside of the span: undefined behaviour. -/
  | outside
  deriving DecidableEq

/-- Memory for `elements` of `width` bytes, asked for by the decoder of a span of
`bytes` bytes. -/
structure Request where
  elements : Nat
  width : Nat
  bytes : Nat
  deriving DecidableEq

structure Outcome (α : Type) where
  result : Result α
  requests : List Request := []
  deriving DecidableEq

namespace Outcome

def bind (x : Outcome α) (f : α → Outcome β) : Outcome β :=
  match x.result with
  | .value a => ⟨(f a).result, x.requests ++ (f a).requests⟩
  | .nullopt => ⟨.nullopt, x.requests⟩
  | .outside => ⟨.outside, x.requests⟩

instance : Monad Outcome where
  pure a := ⟨.value a, []⟩
  bind := bind

theorem pure_bind (a : α) (f : α → Outcome β) : (pure a >>= f) = f a := rfl

def nullopt : Outcome α := ⟨.nullopt, []⟩

def outside : Outcome α := ⟨.outside, []⟩

def ask (requests : List Request) : Outcome Unit := ⟨.value (), requests⟩

/-- Both are run before either is looked at. -/
def both (x : Outcome α) (y : Outcome β) : Outcome (α × β) where
  result :=
    match x.result, y.result with
    | .outside, _ => .outside
    | _, .outside => .outside
    | .value a, .value b => .value (a, b)
    | _, _ => .nullopt
  requests := x.requests ++ y.requests

end Outcome

/-- `std::span::subspan(offset, count)`. -/
def subspan (buf : Bytes) (offset count : Nat) : Outcome Bytes :=
  if offset + count ≤ buf.length then pure ((buf.drop offset).take count) else .outside

/-- `n` bytes from `offset` on, the least significant first. -/
def readAt (buf : Bytes) (offset n : Nat) : Outcome Nat :=
  if offset + n ≤ buf.length then pure (readLE ((buf.drop offset).take n)) else .outside

structure Codec (α : Type) where
  /-- `sizeof(T)`. -/
  cell : Nat
  encode : α → Bytes
  decode : Bytes → Outcome α
  encodeInto : Option (α → Bytes → Bytes)

def encodeAppend (c : Codec α) (v : α) (out : Bytes) : Bytes :=
  match c.encodeInto with
  | some into => into v out
  | none => out ++ c.encode v

/-- `out[offset + i] = bytes[i]`. -/
def patch (out : Bytes) (offset : Nat) (bytes : Bytes) : Bytes :=
  out.take offset ++ bytes ++ out.drop (offset + bytes.length)

/-- Four bytes are kept free for the length, which is known once `v` is there. -/
def encodeAppendLp (c : Codec α) (v : α) (out : Bytes) : Bytes :=
  let lenOff := out.length
  let out := out ++ [0, 0, 0, 0]
  let start := out.length
  let out := encodeAppend c v out
  patch out lenOff (putLE 4 (out.length - start))

/-! ## Integers and strings -/

def leUintCodec (n : Nat) : Codec (BitVec (8 * n)) where
  cell := n
  encode v := putLE n v.toNat
  decode b :=
    if b.length ≠ n then .nullopt
    else do
      let v ← readAt b 0 n
      pure (BitVec.ofNat (8 * n) v)
  encodeInto := some fun v out => out ++ putLE n v.toNat

def uint32Codec : Codec (BitVec 32) := leUintCodec 4

def uint64Codec : Codec (BitVec 64) := leUintCodec 8

def int64Codec : Codec Int64 where
  cell := 8
  encode v := uint64Codec.encode v.toBitVec
  decode b := do
    let x ← uint64Codec.decode b
    pure (Int64.ofBitVec x)
  encodeInto := some fun v out => encodeAppend uint64Codec v.toBitVec out

/-- `sizeof(std::string)`, and below of the containers. -/
def stringCell : Nat := 32

def stringCodec : Codec Bytes where
  cell := stringCell
  encode s := s
  decode b := do
    Outcome.ask [⟨b.length, 1, b.length⟩]
    subspan b 0 b.length
  encodeInto := some fun s out => out ++ s

/-! ## Counted elements -/

/-- `[u32 len][bytes]`. -/
def framed (c : Codec α) (v : α) : Bytes := putLE 4 (c.encode v).length ++ c.encode v

def counted (frame : ε → Bytes) (l : List ε) : Bytes := putLE 4 l.length ++ l.flatMap frame

def countedInto (append : ε → Bytes → Bytes) (l : List ε) (out : Bytes) : Bytes :=
  l.foldl (fun out e => append e out) (out ++ putLE 4 l.length)

/-- The element at the front of what is left of the span, and what is left behind it. -/
def decodeElem (c : Codec α) (rest : Bytes) : Outcome (α × Bytes) :=
  if rest.length < 4 then .nullopt
  else do
    let len ← readAt rest 0 4
    if rest.length < 4 + len then .nullopt
    else do
      let bytes ← subspan rest 4 len
      let entry ← c.decode bytes
      pure (entry, rest.drop (4 + len))

def decodeEntry (kc : Codec κ) (vc : Codec β) (rest : Bytes) : Outcome ((κ × β) × Bytes) := do
  let (k, rest) ← decodeElem kc rest
  let (v, rest) ← decodeElem vc rest
  pure ((k, v), rest)

/-- `count` times: read one, ask for its node, add it. -/
def decodeMany (one : Bytes → Outcome (ε × Bytes)) (node : List Request) (add : γ → ε → γ) :
    Nat → Bytes → γ → Outcome γ
  | 0, _, out => pure out
  | count + 1, rest, out => do
      let (e, rest) ← one rest
      Outcome.ask node
      decodeMany one node add count rest (add out e)

/-- The count, what is reserved for it, and the elements. -/
def decodeCounted (one : Bytes → Outcome (ε × Bytes)) (reserve : Nat → List Request)
    (node : List Request) (add : γ → ε → γ) (empty : γ) (buf : Bytes) : Outcome (Nat × γ) :=
  if buf.length < 4 then .nullopt
  else do
    let count ← readAt buf 0 4
    Outcome.ask (reserve count)
    let out ← decodeMany one node add count (buf.drop 4) empty
    pure (count, out)

def vectorCodec (elem : Codec α) : Codec (List α) where
  cell := 24
  encode v := counted (framed elem) v
  decode buf := do
    let (_, out) ← decodeCounted (decodeElem elem)
      (fun count => [⟨count, elem.cell, buf.length⟩]) [] (fun out e => out ++ [e]) [] buf
    pure out
  encodeInto := some fun v out => countedInto (encodeAppendLp elem) v out

/-! ## Pairs and optionals -/

/-- `4 + len` for a `std::uint32_t len`. -/
def behindFirst (len : Nat) : Nat := (4 + len) % 2 ^ 32

def pairCodec (a : Codec α) (b : Codec β) : Codec (α × β) where
  cell := a.cell + b.cell
  encode p := framed a p.1 ++ b.encode p.2
  decode buf :=
    if buf.length < 4 then .nullopt
    else do
      let len ← readAt buf 0 4
      if buf.length < behindFirst len then .nullopt
      else do
        let aView ← subspan buf 4 len
        Outcome.both (a.decode aView) (b.decode (buf.drop (behindFirst len)))
  encodeInto := some fun p out => encodeAppend b p.2 (encodeAppendLp a p.1 out)

def optionalCodec (elem : Codec α) : Codec (Option α) where
  cell := elem.cell + 1
  encode
    | none => [0]
    | some v => 1 :: elem.encode v
  decode
    | [] => .nullopt
    | flag :: rest =>
        if flag = 0 then pure none
        else if flag ≠ 1 then .nullopt
        else do
          let inner ← elem.decode rest
          pure (some inner)
  encodeInto := some fun v out =>
    match v with
    | none => out ++ [0]
    | some v => encodeAppend elem v (out ++ [1])

/-! ## Ordered containers -/

/-- A comparator that does not tell equal values apart. -/
structure Less (same : κ → κ → Prop) where
  lt : κ → κ → Bool
  trans : ∀ a b c, lt a b → lt b c → lt a c
  congr : ∀ {a a' b b'}, same a a' → same b b' → lt a b = lt a' b'

/-- A `std::set` (`key` is the identity) or a `std::map`, in iteration order. -/
def Sorted {same : κ → κ → Prop} (less : Less same) (key : ε → κ) : Type :=
  { l : List ε // l.Pairwise fun a b => less.lt (key a) (key b) }

/-- Put in front of the first element that is not less, unless that one is
equivalent. -/
def emplaceSorted (lt : κ → κ → Bool) (key : ε → κ) (x : ε) : List ε → List ε
  | [] => [x]
  | y :: ys =>
      if lt (key y) (key x) then y :: emplaceSorted lt key x ys
      else if lt (key x) (key y) then x :: y :: ys
      else y :: ys

variable {lt : κ → κ → Bool} {key : ε → κ}

private theorem mem_emplaceSorted {x e : ε} {l : List ε} (h : e ∈ emplaceSorted lt key x l) :
    e = x ∨ e ∈ l := by
  induction l with
  | nil => exact Or.inl (List.mem_singleton.mp h)
  | cons y ys ih =>
      rw [emplaceSorted] at h
      split at h
      · rcases List.mem_cons.mp h with rfl | h
        · exact Or.inr List.mem_cons_self
        · exact (ih h).imp_right (List.mem_cons_of_mem y)
      · split at h
        · exact List.mem_cons.mp h
        · exact Or.inr h

private theorem pairwise_emplaceSorted (htrans : ∀ a b c, lt a b → lt b c → lt a c) {x : ε}
    {l : List ε} (h : l.Pairwise fun a b => lt (key a) (key b)) :
    (emplaceSorted lt key x l).Pairwise fun a b => lt (key a) (key b) := by
  induction l with
  | nil => exact List.pairwise_singleton _ x
  | cons y ys ih =>
      have hy := List.pairwise_cons.mp h
      rw [emplaceSorted]
      split
      · rename_i hlt
        refine List.pairwise_cons.mpr ⟨fun e he => ?_, ih hy.2⟩
        rcases mem_emplaceSorted he with rfl | he
        · exact hlt
        · exact hy.1 e he
      · split
        · rename_i hlt
          refine List.pairwise_cons.mpr ⟨fun e he => ?_, h⟩
          rcases List.mem_cons.mp he with rfl | he
          · exact hlt
          · exact htrans _ _ _ hlt (hy.1 e he)
        · exact h

namespace Sorted

variable {same : κ → κ → Prop} {less : Less same}

def empty : Sorted less key := ⟨[], List.Pairwise.nil⟩

def emplace (s : Sorted less key) (x : ε) : Sorted less key :=
  ⟨emplaceSorted less.lt key x s.1, pairwise_emplaceSorted less.trans s.2⟩

def Same (same : ε → ε → Prop) (s s' : Sorted less key) : Prop := List.Forall₂ same s.1 s'.1

end Sorted

/-- The node of a `std::set` or `std::map`: its links and the element. -/
def treeNode (cell : Nat) : List Request := [⟨1, 32 + cell, 4⟩]

def setCodec {same : α → α → Prop} (less : Less same) (elem : Codec α) :
    Codec (Sorted less (fun a => a)) where
  cell := 48
  encode v := counted (framed elem) v.1
  decode buf := do
    let (_, out) ← decodeCounted (decodeElem elem) (fun _ => []) (treeNode elem.cell)
      Sorted.emplace Sorted.empty buf
    pure out
  encodeInto := some fun v out => countedInto (encodeAppendLp elem) v.1 out

def framedEntry (kc : Codec κ) (vc : Codec β) (e : κ × β) : Bytes := framed kc e.1 ++ framed vc e.2

def appendEntry (kc : Codec κ) (vc : Codec β) (e : κ × β) (out : Bytes) : Bytes :=
  encodeAppendLp vc e.2 (encodeAppendLp kc e.1 out)

def mapCodec {same : κ → κ → Prop} (less : Less same) (kc : Codec κ) (vc : Codec β) :
    Codec (Sorted less (Prod.fst : κ × β → κ)) where
  cell := 48
  encode m := counted (framedEntry kc vc) m.1
  decode buf := do
    let (_, out) ← decodeCounted (decodeEntry kc vc) (fun _ => []) (treeNode (kc.cell + vc.cell))
      Sorted.emplace Sorted.empty buf
    pure out
  encodeInto := some fun m out => countedInto (appendEntry kc vc) m.1 out

/-! ## Unordered containers -/

/-- A key equality that does not tell equal values apart. -/
structure KeyEq (same : κ → κ → Prop) where
  eq : κ → κ → Bool
  symm : ∀ a b, eq a b = eq b a
  congr : ∀ {a a' b b'}, same a a' → same b b' → eq a b = eq a' b'

/-- The iteration order of a hash table, which the implementation chooses: after
`reserve(n)` and the elements of a list put in one after the other. -/
structure Arrangement (ε : Type) where
  order : Nat → List ε → List ε
  perm : ∀ n l, (order n l).Perm l

/-- A `std::unordered_set` (`key` is the identity) or a `std::unordered_map`, in
iteration order. -/
def Distinct {same : κ → κ → Prop} (keyEq : KeyEq same) (key : ε → κ) : Type :=
  { l : List ε // l.Pairwise fun a b => keyEq.eq (key a) (key b) = false }

namespace Distinct

variable {same : κ → κ → Prop} {keyEq : KeyEq same}

def empty : Distinct keyEq key := ⟨[], List.Pairwise.nil⟩

/-- Behind what was put in before, unless an equal key is there. -/
def emplace (s : Distinct keyEq key) (x : ε) : Distinct keyEq key :=
  if h : ∀ y ∈ s.1, keyEq.eq (key y) (key x) = false then
    ⟨s.1 ++ [x], List.pairwise_append.mpr ⟨s.2, List.pairwise_singleton _ x, fun y hy z hz => by
      rw [List.mem_singleton.mp hz]
      exact h y hy⟩⟩
  else s

def arrange (place : Arrangement ε) (n : Nat) (s : Distinct keyEq key) : Distinct keyEq key :=
  ⟨place.order n s.1, (List.Perm.pairwise_iff (fun {a b} h => by rw [keyEq.symm]; exact h)
    (place.perm n s.1)).mpr s.2⟩

/-- The same elements, in any order. -/
def Same (same : ε → ε → Prop) (s s' : Distinct keyEq key) : Prop :=
  ∃ l, List.Forall₂ same s.1 l ∧ l.Perm s'.1

end Distinct

/-- `reserve(count)` of a hash table: a bucket for every element. -/
def buckets (bytes count : Nat) : List Request := [⟨count, 8, bytes⟩]

/-- The node of a hash table: a link, the hash and the element. -/
def hashNode (cell : Nat) : List Request := [⟨1, 16 + cell, 4⟩]

def unorderedSetCodec {same : α → α → Prop} (keyEq : KeyEq same) (place : Arrangement α)
    (elem : Codec α) : Codec (Distinct keyEq (fun a => a)) where
  cell := 56
  encode v := counted (framed elem) v.1
  decode buf := do
    let (count, out) ← decodeCounted (decodeElem elem) (buckets buf.length) (hashNode elem.cell)
      Distinct.emplace Distinct.empty buf
    pure (out.arrange place count)
  encodeInto := some fun v out => countedInto (encodeAppendLp elem) v.1 out

def unorderedMapCodec {same : κ → κ → Prop} (keyEq : KeyEq same) (place : Arrangement (κ × β))
    (kc : Codec κ) (vc : Codec β) : Codec (Distinct keyEq (Prod.fst : κ × β → κ)) where
  cell := 56
  encode m := counted (framedEntry kc vc) m.1
  decode buf := do
    let (count, out) ← decodeCounted (decodeEntry kc vc) (buckets buf.length)
      (hashNode (kc.cell + vc.cell)) Distinct.emplace Distinct.empty buf
    pure (out.arrange place count)
  encodeInto := some fun m out => countedInto (appendEntry kc vc) m.1 out

/-! ## Partial matches -/

structure PartialMatch (α : Type) where
  startTs : Int64
  matched : List α
  stepNames : List Bytes
  eventTimestamps : List Int64
  currentStep : BitVec 32
  currentStepCount : BitVec 32

/-- The loop of `vec_span_len`; `4 + len` is a `std::uint32_t`. -/
def vecSpanLoop (rest : Bytes) : Nat → Nat → Outcome Nat
  | 0, off => pure off
  | count + 1, off =>
      if rest.length < off + 4 then .nullopt
      else do
        let len ← readAt rest off 4
        let off := off + behindFirst len
        if rest.length < off then .nullopt else vecSpanLoop rest count off

/-- The number of bytes of the encoded vector that starts at `off`. -/
def vecSpanLen (rest : Bytes) (off : Nat) : Outcome Nat :=
  if rest.length < off + 4 then .nullopt
  else do
    let count ← readAt rest off 4
    let stop ← vecSpanLoop rest count (off + 4)
    pure (stop - off)

def stringsCodec : Codec (List Bytes) := vectorCodec stringCodec

def i64sCodec : Codec (List Int64) := vectorCodec int64Codec

def partialMatchCodec (t : Codec α) : Codec (PartialMatch α) where
  cell := 96
  encode m :=
    putLE 8 m.startTs.toBitVec.toNat ++ putLE 4 m.currentStep.toNat ++
      putLE 4 m.currentStepCount.toNat ++ stringsCodec.encode m.stepNames ++
        (vectorCodec t).encode m.matched ++ i64sCodec.encode m.eventTimestamps
  decode b :=
    if b.length < 16 then .nullopt
    else do
      let startTs ← readAt b 0 8
      let currentStep ← readAt b 8 4
      let currentStepCount ← readAt b 12 4
      let rest := b.drop 16
      let namesSpan ← vecSpanLen rest 0
      let stepNames ← (← subspan rest 0 namesSpan) |> stringsCodec.decode
      let matchedSpan ← vecSpanLen rest namesSpan
      let matched ← (← subspan rest namesSpan matchedSpan) |> (vectorCodec t).decode
      let afterMatched := namesSpan + matchedSpan
      let eventTimestamps ←
        if afterMatched < rest.length then i64sCodec.decode (rest.drop afterMatched) else pure []
      pure
        { startTs := Int64.ofBitVec (BitVec.ofNat 64 startTs), matched, stepNames, eventTimestamps,
          currentStep := BitVec.ofNat 32 currentStep,
          currentStepCount := BitVec.ofNat 32 currentStepCount }
  encodeInto := none

/-! ## Nestings -/

/-- Equality of both components. -/
def Both (same : α → α → Prop) (same' : β → β → Prop) (p q : α × β) : Prop :=
  same p.1 q.1 ∧ same' p.2 q.2

structure PartialMatch.Same (same : α → α → Prop) (m m' : PartialMatch α) : Prop where
  startTs : m.startTs = m'.startTs
  matched : List.Forall₂ same m.matched m'.matched
  stepNames : m.stepNames = m'.stepNames
  eventTimestamps : m.eventTimestamps = m'.eventTimestamps
  currentStep : m.currentStep = m'.currentStep
  currentStepCount : m.currentStepCount = m'.currentStepCount

/-- A nesting of codecs, with its values and their equality. -/
inductive Tree : (α : Type) → (α → α → Prop) → Type 1
  | uint32 : Tree (BitVec 32) Eq
  | uint64 : Tree (BitVec 64) Eq
  | int64 : Tree Int64 Eq
  | string : Tree Bytes Eq
  | vector {α : Type} {same : α → α → Prop} (t : Tree α same) :
      Tree (List α) (List.Forall₂ same)
  | pair {α β : Type} {same : α → α → Prop} {same' : β → β → Prop} (a : Tree α same)
      (b : Tree β same') : Tree (α × β) (Both same same')
  | optional {α : Type} {same : α → α → Prop} (t : Tree α same) :
      Tree (Option α) (Option.Rel same)
  | set {α : Type} {same : α → α → Prop} (t : Tree α same) (less : Less same) :
      Tree (Sorted less (fun a : α => a)) (Sorted.Same same)
  | unorderedSet {α : Type} {same : α → α → Prop} (t : Tree α same) (keyEq : KeyEq same)
      (place : Arrangement α) : Tree (Distinct keyEq (fun a : α => a)) (Distinct.Same same)
  | map {κ β : Type} {same : κ → κ → Prop} {same' : β → β → Prop} (k : Tree κ same)
      (v : Tree β same') (less : Less same) :
      Tree (Sorted less (Prod.fst : κ × β → κ)) (Sorted.Same (Both same same'))
  | unorderedMap {κ β : Type} {same : κ → κ → Prop} {same' : β → β → Prop} (k : Tree κ same)
      (v : Tree β same') (keyEq : KeyEq same) (place : Arrangement (κ × β)) :
      Tree (Distinct keyEq (Prod.fst : κ × β → κ)) (Distinct.Same (Both same same'))
  | partialMatch {α : Type} {same : α → α → Prop} (t : Tree α same) :
      Tree (PartialMatch α) (PartialMatch.Same same)

def Tree.codec {α : Type} {same : α → α → Prop} : Tree α same → Codec α
  | .uint32 => uint32Codec
  | .uint64 => uint64Codec
  | .int64 => int64Codec
  | .string => stringCodec
  | .vector t => vectorCodec t.codec
  | .pair a b => pairCodec a.codec b.codec
  | .optional t => optionalCodec t.codec
  | .set t less => setCodec less t.codec
  | .unorderedSet t keyEq place => unorderedSetCodec keyEq place t.codec
  | .map k v less => mapCodec less k.codec v.codec
  | .unorderedMap k v keyEq place => unorderedMapCodec keyEq place k.codec v.codec
  | .partialMatch t => partialMatchCodec t.codec

/-- Only combinators of `codec.hpp`. -/
def Tree.Combinators {α : Type} {same : α → α → Prop} : Tree α same → Prop
  | .uint32 | .uint64 | .int64 | .string => True
  | .vector t | .optional t | .set t _ | .unorderedSet t _ _ => t.Combinators
  | .pair a b => a.Combinators ∧ b.Combinators
  | .map k v _ | .unorderedMap k v _ _ => k.Combinators ∧ v.Combinators
  | .partialMatch _ => False

end Clink.Ports.ByteCodec

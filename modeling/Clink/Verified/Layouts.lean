import Clink.Verified.BigEndian

/-!
# Layouts of bytes

A layout says how a value is laid out in bytes: big-endian words, flags, choices,
texts behind their length, an optional word behind its presence, rows of named
columns and lists behind their count.  `put` and `read` are the writer and the
reader of a layout.

A reader keeps count of what it asks the allocator for, in characters and elements.
A text's length and a list's count are checked against the bytes that are left before
memory is asked for, so a reader asks for no more than a multiple of the bytes it is
given (`Frugal`), the multiple being how deep the lists are nested.
-/

namespace Clink.Verified.Wire

abbrev Bytes := List UInt8

variable {α β : Type}

/-! ## Readers -/

inductive ReadError where
  | truncatedPayload
  | truncatedString
  /-- A count above the number of bytes left. -/
  | countExceeds (count remaining : Nat)
  /-- A text longer than its limit. -/
  | tooLong (name : String) (size limit : Nat)
  deriving DecidableEq

/-- How reading ended, and what was asked for. -/
structure Reading (α : Type) where
  result : Except ReadError (α × Bytes)
  asked : Nat := 0

abbrev Reader (α : Type) := Bytes → Reading α

namespace Reader

def ofResult (f : Bytes → Except ReadError (α × Bytes)) : Reader α := fun bytes => ⟨f bytes, 0⟩

instance : Monad Reader where
  pure a := ofResult fun bytes => .ok (a, bytes)
  bind r f := fun bytes =>
    match (r bytes).result with
    | .ok (a, rest) => ⟨(f a rest).result, (r bytes).asked + (f a rest).asked⟩
    | .error e => ⟨.error e, (r bytes).asked⟩

def throw (e : ReadError) : Reader α := ofResult fun _ => .error e

def atEnd : Reader Bool := ofResult fun bytes => .ok (bytes.isEmpty, bytes)

def remaining : Reader Nat := ofResult fun bytes => .ok (bytes.length, bytes)

def ask (n : Nat) : Reader Unit := fun bytes => ⟨.ok ((), bytes), n⟩

/-- The next `n` bytes. -/
def take (n : Nat) (e : ReadError) : Reader Bytes := ofResult fun bytes =>
  if n ≤ bytes.length then .ok (bytes.take n, bytes.drop n) else .error e

def word (n : Nat) : Reader (BitVec (8 * n)) := do
  let bytes ← take n .truncatedPayload
  pure (BitVec.ofNat (8 * n) (readBE bytes))

/-- A text, of which the caller makes so many copies. -/
def text (copies : Nat) : Reader Bytes := do
  let len ← word 4
  let bytes ← take len.toNat .truncatedString
  ask ((copies + 1) * len.toNat)
  pure bytes

/-- The count of a list, not above the bytes left. -/
def count : Reader Nat := do
  let n ← word 4
  let left ← remaining
  if left < n.toNat then throw (.countExceeds n.toNat left) else pure n.toNat

/-- A count, the memory for as many elements, and the elements. -/
def counted (elements : Nat → Reader α) : Reader α := do
  let n ← count
  ask n
  elements n

def many (r : Reader α) : Nat → Reader (List α)
  | 0 => pure []
  | n + 1 => do
      let a ← r
      let rest ← many r n
      pure (a :: rest)

/-- As many, but no more once the bytes are at their end. -/
def manyWhile (r : Reader α) : Nat → Reader (List α)
  | 0 => pure []
  | n + 1 => do
      if ← atEnd then pure []
      else
        let a ← r
        let rest ← manyWhile r n
        pure (a :: rest)

end Reader

section Bind

variable {r : Reader α} {f : α → Reader β} {a : α} {bytes rest : Bytes}

theorem bind_ok (h : (r bytes).result = .ok (a, rest)) :
    (r >>= f) bytes = ⟨(f a rest).result, (r bytes).asked + (f a rest).asked⟩ := by
  change (match (r bytes).result with
    | .ok (a, rest) => (⟨(f a rest).result, (r bytes).asked + (f a rest).asked⟩ : Reading β)
    | .error e => ⟨.error e, (r bytes).asked⟩) = _
  rw [h]

theorem bind_error {e : ReadError} (h : (r bytes).result = .error e) :
    (r >>= f) bytes = ⟨.error e, (r bytes).asked⟩ := by
  change (match (r bytes).result with
    | .ok (a, rest) => (⟨(f a rest).result, (r bytes).asked + (f a rest).asked⟩ : Reading β)
    | .error e => ⟨.error e, (r bytes).asked⟩) = _
  rw [h]

theorem bind_eq_ok {b : β} (h : ((r >>= f) bytes).result = .ok (b, rest)) :
    ∃ a left, (r bytes).result = .ok (a, left) ∧ (f a left).result = .ok (b, rest) := by
  cases hfirst : (r bytes).result with
  | error e =>
      rw [bind_error hfirst] at h
      exact nomatch h
  | ok x =>
      obtain ⟨a, left⟩ := x
      rw [bind_ok hfirst] at h
      exact ⟨a, left, rfl, h⟩

theorem pure_eq_ok {b : α} (h : ((Pure.pure a : Reader α) bytes).result = .ok (b, rest)) :
    a = b ∧ bytes = rest := by
  obtain ⟨⟩ := h
  exact ⟨rfl, rfl⟩

end Bind

/-! ## What was put is read -/

/-- The reader takes just these bytes, and gives the value. -/
def Frames (r : Reader α) (bytes : Bytes) (a : α) : Prop :=
  ∀ rest, (r (bytes ++ rest)).result = .ok (a, rest)

namespace Frames

variable {r : Reader α} {bytes more : Bytes} {a : α} {b : β}

theorem pure (a : α) : Frames (Pure.pure a) [] a := fun _ => rfl

theorem bind {f : α → Reader β} (hr : Frames r bytes a) (hf : Frames (f a) more b) :
    Frames (r >>= f) (bytes ++ more) b := by
  intro rest
  have hfirst := hr (more ++ rest)
  rw [← List.append_assoc] at hfirst
  rw [bind_ok hfirst]
  exact hf rest

theorem bind_pure {f : α → Reader β} (hr : Frames r bytes a) (hf : Frames (f a) [] b) :
    Frames (r >>= f) bytes b := by
  have h := hr.bind hf
  rwa [List.append_nil] at h

theorem take (bytes : Bytes) (e : ReadError) : Frames (Reader.take bytes.length e) bytes bytes := by
  intro rest
  simp [Reader.take, Reader.ofResult]

theorem word {n : Nat} (v : BitVec (8 * n)) : Frames (Reader.word n) (putBE n v.toNat) v := by
  have htake := Frames.take (putBE n v.toNat) .truncatedPayload
  rw [length_putBE] at htake
  refine htake.bind_pure ?_
  have hlt : v.toNat < 256 ^ n := by
    have := v.isLt
    rwa [Nat.pow_mul] at this
  rw [readBE_putBE hlt, BitVec.ofNat_toNat, BitVec.setWidth_eq]
  exact Frames.pure v

theorem length32 {n : Nat} (h : n < 2 ^ 32) :
    Frames (Reader.word 4) (putBE 4 n) (BitVec.ofNat 32 n) := by
  have hword := Frames.word (BitVec.ofNat (8 * 4) n)
  rwa [BitVec.toNat_ofNat, Nat.mod_eq_of_lt h] at hword

theorem text {s : Bytes} (h : s.length < 2 ^ 32) (copies : Nat) :
    Frames (Reader.text copies) (putBE 4 s.length ++ s) s := by
  refine (length32 h).bind ?_
  rw [BitVec.toNat_ofNat, Nat.mod_eq_of_lt h]
  refine (Frames.take s .truncatedString).bind_pure ?_
  exact fun _ => rfl

/-- A count is taken where at least as many bytes follow. -/
theorem count_bind {n : Nat} (h : n < 2 ^ 32) {f : Nat → Reader β} (hlen : n ≤ more.length)
    (hf : Frames (f n) more b) : Frames (Reader.count >>= f) (putBE 4 n ++ more) b := by
  intro rest
  have hword := length32 h (more ++ rest)
  have hnat : (BitVec.ofNat 32 n).toNat = n := by
    rw [BitVec.toNat_ofNat, Nat.mod_eq_of_lt h]
  have hleft : ¬ (more ++ rest).length < (BitVec.ofNat 32 n).toNat := by
    rw [hnat, List.length_append]
    omega
  have hcount : (Reader.count (putBE 4 n ++ (more ++ rest))).result = .ok (n, more ++ rest) := by
    unfold Reader.count
    rw [bind_ok hword, bind_ok rfl, if_neg hleft, hnat]
    rfl
  rw [List.append_assoc, bind_ok hcount]
  exact hf rest

theorem counted {n : Nat} (h : n < 2 ^ 32) {elements : Nat → Reader β} (hlen : n ≤ more.length)
    (hf : Frames (elements n) more b) : Frames (Reader.counted elements) (putBE 4 n ++ more) b :=
  count_bind h hlen hf

theorem many {enc : α → Bytes} {l : List α} (h : ∀ a ∈ l, Frames r (enc a) a) :
    Frames (Reader.many r l.length) (l.flatMap enc) l := by
  induction l with
  | nil => exact Frames.pure []
  | cons a l ih =>
      obtain ⟨hfirst, hrest⟩ := List.forall_mem_cons.mp h
      exact hfirst.bind ((ih hrest).bind_pure (Frames.pure _))

theorem manyWhile {enc : α → Bytes} {l : List α} (h : ∀ a ∈ l, Frames r (enc a) a)
    (hne : ∀ a ∈ l, enc a ≠ []) : Frames (Reader.manyWhile r l.length) (l.flatMap enc) l := by
  induction l with
  | nil => exact Frames.pure []
  | cons a l ih =>
      obtain ⟨hfirst, hrest⟩ := List.forall_mem_cons.mp h
      obtain ⟨hput, hputs⟩ := List.forall_mem_cons.mp hne
      intro rest
      have hmore : Frames (do
          let rest ← Reader.manyWhile r l.length
          Pure.pure (a :: rest)) (l.flatMap enc) (a :: l) :=
        (ih hrest hputs).bind_pure (Frames.pure _)
      have hend : (Reader.atEnd ((a :: l).flatMap enc ++ rest)).result =
          .ok (false, (a :: l).flatMap enc ++ rest) := by
        cases henc : enc a with
        | nil => exact absurd henc hput
        | cons b bs => simp [Reader.atEnd, Reader.ofResult, henc]
      rw [List.length_cons, Reader.manyWhile, bind_ok hend]
      exact (hfirst.bind hmore) rest

end Frames

/-! ## What is asked for -/

/-- The bytes left; none after an error. -/
def Reading.left (x : Reading α) : Nat :=
  match x.result with
  | .ok (_, rest) => rest.length
  | .error _ => 0

/-- At most `k` is asked for each byte taken, or on an error for each byte given. -/
def Frugal (k : Nat) (r : Reader α) : Prop :=
  ∀ bytes, (r bytes).asked + k * (r bytes).left ≤ k * bytes.length

/-- A reader that gives a value has taken `n` bytes at least. -/
def Takes (n : Nat) (r : Reader α) : Prop :=
  ∀ bytes a rest, (r bytes).result = .ok (a, rest) → rest.length + n ≤ bytes.length

section Asked

variable {k n : Nat} {r : Reader α} {f : α → Reader β} {bytes rest : Bytes} {a : α}

theorem left_ok (h : (r bytes).result = .ok (a, rest)) : (r bytes).left = rest.length := by
  unfold Reading.left
  rw [h]

theorem left_error {e : ReadError} (h : (r bytes).result = .error e) : (r bytes).left = 0 := by
  unfold Reading.left
  rw [h]

theorem Frugal.pure (k : Nat) (a : α) : Frugal k (Pure.pure a) := fun bytes => by
  change 0 + k * bytes.length ≤ _
  omega

theorem Frugal.throw (k : Nat) (e : ReadError) : Frugal k (Reader.throw e : Reader α) :=
    fun bytes => by
  change 0 + k * 0 ≤ _
  omega

theorem Frugal.atEnd (k : Nat) : Frugal k Reader.atEnd := fun bytes => by
  change 0 + k * bytes.length ≤ _
  omega

theorem Frugal.take (k n : Nat) (e : ReadError) : Frugal k (Reader.take n e) := by
  intro bytes
  unfold Reader.take Reader.ofResult Reading.left
  by_cases h : n ≤ bytes.length
  · simp only [if_pos h, List.length_drop, Nat.zero_add]
    exact Nat.mul_le_mul_left k (Nat.sub_le _ _)
  · simp [if_neg h]

theorem Frugal.bind (hr : Frugal k r) (hf : ∀ a, Frugal k (f a)) : Frugal k (r >>= f) := by
  intro bytes
  have hfirst := hr bytes
  cases h : (r bytes).result with
  | error e =>
      rw [bind_error h]
      change (r bytes).asked + k * 0 ≤ _
      omega
  | ok x =>
      obtain ⟨a, rest⟩ := x
      rw [left_ok h] at hfirst
      have hsecond := hf a rest
      rw [bind_ok h]
      change (r bytes).asked + (f a rest).asked + k * (f a rest).left ≤ _
      omega

theorem Frugal.takes (hr : Frugal k r) (hk : 0 < k) : Takes 0 r := by
  intro bytes a rest h
  have hasked := hr bytes
  rw [left_ok h] at hasked
  exact Nat.le_of_mul_le_mul_left (Nat.le_trans (Nat.le_add_left _ _) hasked) hk

theorem Frugal.mono {k' : Nat} (hr : Frugal k r) (hk : 0 < k) (hle : k ≤ k') : Frugal k' r := by
  intro bytes
  have hasked := hr bytes
  have hleft : (r bytes).left ≤ bytes.length :=
    Nat.le_of_mul_le_mul_left (Nat.le_trans (Nat.le_add_left _ _) hasked) hk
  obtain ⟨d, rfl⟩ := Nat.exists_eq_add_of_le hle
  have hmore := Nat.mul_le_mul_left d hleft
  rw [Nat.add_mul, Nat.add_mul]
  omega

theorem Takes.bind (hr : Takes n r) (hf : ∀ a, Takes 0 (f a)) : Takes n (r >>= f) := by
  intro bytes b rest h
  obtain ⟨a, left, hfirst, hmore⟩ := bind_eq_ok h
  have htaken := hr bytes a left hfirst
  have hrest := hf a left b rest hmore
  omega

theorem Takes.weaken {m : Nat} (hr : Takes n r) (hm : m ≤ n) : Takes m r :=
  fun bytes a rest h => Nat.le_trans (Nat.add_le_add_left hm _) (hr bytes a rest h)

theorem Takes.pure (a : α) : Takes 0 (Pure.pure a) := by
  intro bytes b rest h
  rw [(pure_eq_ok h).2]
  exact Nat.le_refl _

theorem Takes.take (n : Nat) (e : ReadError) : Takes n (Reader.take n e) := by
  intro bytes b rest h
  unfold Reader.take Reader.ofResult at h
  by_cases hlen : n ≤ bytes.length
  · simp only [if_pos hlen, Except.ok.injEq, Prod.mk.injEq] at h
    rw [← h.2, List.length_drop]
    omega
  · simp [if_neg hlen] at h

theorem Takes.word (n : Nat) : Takes n (Reader.word n) :=
  (Takes.take n _).bind fun _ => Takes.pure _

theorem Frugal.word (k n : Nat) : Frugal k (Reader.word n) :=
  (Frugal.take k n _).bind fun _ => Frugal.pure k _

theorem Takes.text (copies : Nat) : Takes 4 (Reader.text copies) := by
  refine (Takes.word 4).bind fun len => ?_
  intro bytes b rest h
  obtain ⟨s, left, htake, hmore⟩ := bind_eq_ok h
  obtain ⟨⟩ := hmore
  have := Takes.take len.toNat _ bytes b rest htake
  omega

/-- A text is asked for once its bytes are there. -/
theorem Frugal.text (copies : Nat) : Frugal (copies + 1) (Reader.text copies) := by
  refine (Frugal.word _ 4).bind fun len => ?_
  intro bytes
  cases htake : (Reader.take len.toNat .truncatedString bytes).result with
  | error e =>
      rw [bind_error htake]
      change 0 + (copies + 1) * 0 ≤ _
      omega
  | ok x =>
      obtain ⟨s, left⟩ := x
      have htaken := Takes.take len.toNat _ bytes s left htake
      rw [bind_ok htake]
      change 0 + ((copies + 1) * len.toNat + 0) + (copies + 1) * left.length ≤
        (copies + 1) * bytes.length
      have hmul := Nat.mul_le_mul_left (copies + 1) htaken
      rw [Nat.mul_add] at hmul
      omega

theorem count_ok {left : Bytes} (h : (Reader.count bytes).result = .ok (n, left)) :
    n ≤ left.length ∧ left.length + 4 ≤ bytes.length := by
  obtain ⟨v, rest, hword, hmore⟩ := bind_eq_ok h
  have htaken := Takes.word 4 bytes v rest hword
  rw [bind_ok (rfl : (Reader.remaining rest).result = .ok (rest.length, rest))] at hmore
  by_cases hle : rest.length < v.toNat
  · rw [if_pos hle] at hmore
    exact nomatch hmore
  · rw [if_neg hle] at hmore
    obtain ⟨rfl, rfl⟩ := pure_eq_ok hmore
    exact ⟨not_lt.mp hle, htaken⟩

theorem Frugal.count (k : Nat) : Frugal k Reader.count := by
  refine (Frugal.word k 4).bind fun v => ?_
  have hremaining : Frugal k Reader.remaining := fun bytes => by
    change 0 + k * bytes.length ≤ _
    omega
  refine hremaining.bind fun left => ?_
  split
  · exact Frugal.throw k _
  · exact Frugal.pure k _

theorem count_asked (bytes : Bytes) : (Reader.count bytes).asked = 0 := by
  have := Frugal.count 0 bytes
  omega

/-- A list asks for its elements before it reads them: one for each byte that is left, on
top of what the elements ask for. -/
theorem Frugal.counted {elements : Nat → Reader α} (hk : ∀ n, Frugal k (elements n))
    (htaken : ∀ n bytes a rest, n ≤ bytes.length → (elements n bytes).result = .ok (a, rest) →
      rest.length + n ≤ bytes.length) : Frugal (k + 1) (Reader.counted elements) := by
  intro bytes
  unfold Reader.counted
  cases hcount : (Reader.count bytes).result with
  | error e =>
      rw [bind_error hcount]
      change (Reader.count bytes).asked + (k + 1) * 0 ≤ _
      rw [count_asked]
      omega
  | ok x =>
      obtain ⟨n, left⟩ := x
      obtain ⟨hn, hleft⟩ := count_ok hcount
      have helements := hk n left
      have hbytes := Nat.mul_le_mul_left (k + 1) hleft
      rw [bind_ok hcount]
      change (Reader.count bytes).asked + (n + (elements n left).asked) +
        (k + 1) * (elements n left).left ≤ _
      rw [count_asked]
      cases hresult : (elements n left).result with
      | error e =>
          rw [left_error hresult] at helements ⊢
          rw [Nat.mul_add, Nat.add_mul k 1 left.length] at hbytes
          omega
      | ok y =>
          obtain ⟨a, rest⟩ := y
          have hrest := htaken n left a rest hn hresult
          rw [left_ok hresult] at helements ⊢
          rw [Nat.mul_add, Nat.add_mul k 1 left.length] at hbytes
          rw [Nat.add_mul k 1 rest.length]
          omega

theorem takes_counted {elements : Nat → Reader α} (h : ∀ n, Takes 0 (elements n)) :
    Takes 1 (Reader.counted elements) := by
  intro bytes a rest hok
  obtain ⟨n, left, hcount, hmore⟩ := bind_eq_ok hok
  have htaken := (count_ok hcount).2
  have hrest := h n left a rest hmore
  omega

theorem Frugal.many (hr : Frugal k r) (n : Nat) : Frugal k (Reader.many r n) := by
  induction n with
  | zero => exact Frugal.pure k _
  | succ n ih => exact hr.bind fun a => ih.bind fun rest => Frugal.pure k _

theorem Frugal.manyWhile (hr : Frugal k r) (n : Nat) : Frugal k (Reader.manyWhile r n) := by
  induction n with
  | zero => exact Frugal.pure k _
  | succ n ih =>
      refine (Frugal.atEnd k).bind fun stop => ?_
      cases stop with
      | true => exact Frugal.pure k _
      | false => exact hr.bind fun a => ih.bind fun rest => Frugal.pure k _

theorem Takes.many (hr : Takes 1 r) (n : Nat) : Takes n (Reader.many r n) := by
  induction n with
  | zero => exact Takes.pure _
  | succ n ih =>
      intro bytes b rest h
      obtain ⟨a, left, hfirst, hmore⟩ := bind_eq_ok h
      have htaken := hr bytes a left hfirst
      have hrest := (ih.bind fun l => Takes.pure (a :: l)) left b rest hmore
      omega

/-- A list that stops at the end has taken a byte for each element counted, or all. -/
theorem takes_manyWhile (hr : Takes 1 r) {n : Nat} {l : List α}
    (h : (Reader.manyWhile r n bytes).result = .ok (l, rest)) :
    rest = [] ∨ rest.length + n ≤ bytes.length := by
  induction n generalizing bytes l rest with
  | zero => exact .inr (Takes.pure _ bytes l rest h)
  | succ n ih =>
      cases bytes with
      | nil =>
          rw [Reader.manyWhile, bind_ok (rfl : (Reader.atEnd []).result = .ok (true, []))] at h
          exact .inl (pure_eq_ok h).2.symm
      | cons c bytes =>
          rw [Reader.manyWhile,
            bind_ok (rfl : (Reader.atEnd (c :: bytes)).result = .ok (false, c :: bytes))] at h
          obtain ⟨a, left, hfirst, hmore⟩ := bind_eq_ok h
          obtain ⟨l', rest', hmany, hpure⟩ := bind_eq_ok hmore
          obtain ⟨-, rfl⟩ := pure_eq_ok hpure
          have htaken := hr (c :: bytes) a left hfirst
          refine (ih hmany).imp_right fun hrest => ?_
          omega

end Asked

/-! ## Layouts -/

inductive Layout where
  /-- An unsigned integer of so many bytes, or the two's complement of a signed one. -/
  | word (bytes : Nat)
  /-- A byte, false where it is 0. -/
  | flag
  /-- A byte up to `last`; another byte is read as 0. -/
  | choice (last : Nat)
  /-- A text behind its length, copied so many times once it is read. -/
  | text (copies : Nat)
  /-- A byte for presence and a word, 0 where there is none. -/
  | optional (bytes : Nat)
  | empty
  | column (name : String) (head : Layout) (rest : Layout)
  | list (element : Layout)
  deriving DecidableEq

namespace Layout

/-- A row of named columns. -/
def row (columns : List (String × Layout)) : Layout :=
  columns.foldr (fun c rest => .column c.1 c.2 rest) .empty

def Value : Layout → Type
  | word n => BitVec (8 * n)
  | flag => Bool
  | choice last => Fin (last + 1)
  | text _ => Bytes
  | optional n => Option (BitVec (8 * n))
  | empty => Unit
  | column _ head rest => head.Value × rest.Value
  | list element => List element.Value

def put : (l : Layout) → l.Value → Bytes
  | word n, (v : BitVec (8 * n)) => putBE n v.toNat
  | flag, (v : Bool) => putBE 1 (if v then 1 else 0)
  | choice _, v => putBE 1 (v : Fin _).val
  | text _, (v : Bytes) => putBE 4 v.length ++ v
  | optional n, (v : Option (BitVec (8 * n))) =>
      putBE 1 (if v.isSome then 1 else 0) ++ putBE n (v.getD 0).toNat
  | empty, _ => []
  | column _ head rest, (v : head.Value × rest.Value) => head.put v.1 ++ rest.put v.2
  | list element, (v : List element.Value) => putBE 4 v.length ++ v.flatMap element.put

/-- The choice a byte names. -/
def toChoice (last raw : Nat) : Fin (last + 1) := if h : raw < last + 1 then ⟨raw, h⟩ else 0

def read : (l : Layout) → Reader l.Value
  | word n => Reader.word n
  | flag => do
      let v ← Reader.word 1
      pure (v != 0)
  | choice last => do
      let v ← Reader.word 1
      pure (toChoice last v.toNat)
  | text copies => Reader.text copies
  | optional n => do
      let present ← Reader.word 1
      let v ← Reader.word n
      pure (if present != 0 then some v else none)
  | empty => pure ()
  | column _ head rest => do
      let a ← head.read
      let b ← rest.read
      pure (a, b)
  | list element => Reader.counted (Reader.many element.read)

/-- What a default-constructed value is. -/
def zero : (l : Layout) → l.Value
  | word n => (0 : BitVec (8 * n))
  | flag => false
  | choice last => (0 : Fin (last + 1))
  | text _ => ([] : Bytes)
  | optional n => (none : Option (BitVec (8 * n)))
  | empty => ()
  | column _ head rest => (head.zero, rest.zero)
  | list element => ([] : List element.Value)

/-- Lengths and counts fit 32 bits. -/
def Fits : (l : Layout) → l.Value → Prop
  | word _, _ | flag, _ | choice _, _ | optional _, _ | empty, _ => True
  | text _, (v : Bytes) => v.length < 2 ^ 32
  | column _ head rest, (v : head.Value × rest.Value) => head.Fits v.1 ∧ rest.Fits v.2
  | list element, (v : List element.Value) => v.length < 2 ^ 32 ∧ ∀ x ∈ v, element.Fits x

instance decidableFits : (l : Layout) → (v : l.Value) → Decidable (l.Fits v)
  | word _, _ | flag, _ | choice _, _ | optional _, _ | empty, _ => .isTrue trivial
  | text _, (v : Bytes) => inferInstanceAs (Decidable (v.length < 2 ^ 32))
  | column _ head rest, (v : head.Value × rest.Value) =>
      haveI := decidableFits head v.1
      haveI := decidableFits rest v.2
      inferInstanceAs (Decidable (head.Fits v.1 ∧ rest.Fits v.2))
  | list element, (v : List element.Value) =>
      haveI := decidableFits element
      inferInstanceAs (Decidable (v.length < 2 ^ 32 ∧ ∀ x ∈ v, element.Fits x))

/-- A value takes at least one byte. -/
def wide : Layout → Bool
  | word n => 0 < n
  | flag | choice _ | text _ | optional _ | list _ => true
  | empty => false
  | column _ head rest => head.wide || rest.wide

/-- The elements of lists take bytes, and choices one byte. -/
def proper : Layout → Bool
  | word _ | flag | text _ | optional _ | empty => true
  | choice last => last < 256
  | column _ head rest => head.proper && rest.proper
  | list element => element.wide && element.proper

/-- How deep lists and texts are nested, copies counted. -/
def depth : Layout → Nat
  | word _ | flag | choice _ | optional _ | empty => 1
  | text copies => copies + 1
  | column _ head rest => max head.depth rest.depth
  | list element => element.depth + 1

theorem putBE_ne_nil {n : Nat} (h : 0 < n) (v : Nat) : putBE n v ≠ [] := by
  intro hnil
  have := length_putBE n v
  rw [hnil, List.length_nil] at this
  omega

theorem put_ne_nil {l : Layout} (h : l.wide = true) (v : l.Value) : l.put v ≠ [] := by
  induction l with
  | word n => exact putBE_ne_nil (of_decide_eq_true h) _
  | flag | choice => exact putBE_ne_nil Nat.one_pos _
  | text | optional | list =>
      exact List.append_ne_nil_of_left_ne_nil (putBE_ne_nil (by decide) _) _
  | empty => exact nomatch h
  | column name head rest ihHead ihRest =>
      rcases Bool.or_eq_true_iff.mp h with h | h
      · exact List.append_ne_nil_of_left_ne_nil (ihHead h _) _
      · exact List.append_ne_nil_of_right_ne_nil _ (ihRest h _)

/-- Values that take bytes take as many bytes as there are of them. -/
theorem length_le_flatMap {l : Layout} (h : l.wide = true) (vs : List l.Value) :
    vs.length ≤ (vs.flatMap l.put).length := by
  induction vs with
  | nil => exact Nat.le_refl _
  | cons v vs ih =>
      have hput := List.length_pos_of_ne_nil (put_ne_nil h v)
      rw [List.length_cons, List.flatMap_cons, List.length_append]
      omega

theorem frames_byte {n : Nat} (h : n < 256) :
    Frames (Reader.word 1) (putBE 1 n) (BitVec.ofNat 8 n) := by
  have hword := Frames.word (BitVec.ofNat (8 * 1) n)
  rwa [BitVec.toNat_ofNat, Nat.mod_eq_of_lt h] at hword

/-- The reader of a layout takes what its writer put. -/
theorem frames {l : Layout} (hproper : l.proper = true) (v : l.Value) (hfits : l.Fits v) :
    Frames l.read (l.put v) v := by
  induction l with
  | word n => exact Frames.word v
  | flag =>
      refine (frames_byte (by split <;> decide)).bind_pure ?_
      change Bool at v
      cases v with
      | true | false => exact Frames.pure _
  | choice last =>
      change Fin (last + 1) at v
      have hlast : last < 256 := of_decide_eq_true hproper
      have hbyte : v.val < 256 := by have := v.isLt; omega
      refine (frames_byte hbyte).bind_pure ?_
      have hback : toChoice last (BitVec.ofNat 8 v.val).toNat = v := by
        rw [BitVec.toNat_ofNat, Nat.mod_eq_of_lt hbyte, toChoice, dif_pos v.isLt]
      intro rest
      exact congrArg (fun c => Except.ok (c, rest)) hback
  | text copies => exact Frames.text hfits copies
  | optional n =>
      change Option (BitVec (8 * n)) at v
      refine (frames_byte (by split <;> decide)).bind ((Frames.word _).bind_pure ?_)
      cases v with
      | none | some w => exact Frames.pure _
  | empty => exact Frames.pure ()
  | column name head rest ihHead ihRest =>
      obtain ⟨hhead, hrest⟩ := Bool.and_eq_true_iff.mp hproper
      exact (ihHead hhead v.1 hfits.1).bind
        ((ihRest hrest v.2 hfits.2).bind_pure (Frames.pure _))
  | list element ih =>
      obtain ⟨hwide, hproper⟩ := Bool.and_eq_true_iff.mp hproper
      refine Frames.counted hfits.1 (length_le_flatMap hwide v) ?_
      exact Frames.many fun x hx => ih hproper x (hfits.2 x hx)

theorem depth_pos (l : Layout) : 0 < l.depth := by
  induction l with
  | column name head rest ihHead ihRest => exact lt_of_lt_of_le ihHead (le_max_left _ _)
  | list | text => exact Nat.succ_pos _
  | word | flag | choice | optional | empty => exact Nat.one_pos

/-- The reader asks for no more than its depth for each byte. -/
theorem frugal {l : Layout} (hproper : l.proper = true) :
    Frugal l.depth l.read ∧ (l.wide = true → Takes 1 l.read) := by
  have hbyte : ∀ {γ : Type} (f : BitVec (8 * 1) → γ),
      Takes 1 (do let v ← Reader.word 1; pure (f v)) :=
    fun f => (Takes.word 1).bind fun _ => Takes.pure _
  induction l with
  | word n =>
      refine ⟨Frugal.word _ n, fun hwide bytes a rest h => ?_⟩
      have htaken := Takes.word n bytes a rest h
      have hpos : 0 < n := of_decide_eq_true hwide
      omega
  | flag => exact ⟨(Frugal.word _ 1).bind fun _ => Frugal.pure _ _, fun _ => hbyte _⟩
  | choice last => exact ⟨(Frugal.word _ 1).bind fun _ => Frugal.pure _ _, fun _ => hbyte _⟩
  | text copies => exact ⟨Frugal.text copies, fun _ => (Takes.text copies).weaken (by decide)⟩
  | optional n =>
      refine ⟨(Frugal.word _ 1).bind fun _ => (Frugal.word _ n).bind fun _ => Frugal.pure _ _,
        fun _ => ?_⟩
      exact (Takes.word 1).bind fun _ =>
        ((Takes.word n).bind fun _ => Takes.pure _).weaken (Nat.zero_le n)
  | empty => exact ⟨Frugal.pure _ _, fun hwide => nomatch hwide⟩
  | column name head rest ihHead ihRest =>
      obtain ⟨hhead, hrest⟩ := Bool.and_eq_true_iff.mp hproper
      obtain ⟨hfrugal, htakes⟩ := ihHead hhead
      obtain ⟨hfrugal', htakes'⟩ := ihRest hrest
      have hright : ∀ a : head.Value, Frugal rest.depth
          (do let b ← rest.read; pure ((a, b) : head.Value × rest.Value)) :=
        fun a => hfrugal'.bind fun _ => Frugal.pure _ _
      refine ⟨(hfrugal.mono head.depth_pos (le_max_left _ _)).bind fun a =>
        (hright a).mono rest.depth_pos (le_max_right _ _), fun hwide => ?_⟩
      rcases Bool.or_eq_true_iff.mp hwide with hwide | hwide
      · exact (htakes hwide).bind fun a => (hright a).takes rest.depth_pos
      · intro bytes v left h
        obtain ⟨a, between, hfirst, hmore⟩ := bind_eq_ok h
        have hhead := hfrugal.takes head.depth_pos bytes a between hfirst
        have hrest := ((htakes' hwide).bind fun b => Takes.pure _) between v left hmore
        omega
  | list element ih =>
      obtain ⟨hwide, hproper⟩ := Bool.and_eq_true_iff.mp hproper
      obtain ⟨hfrugal, htakes⟩ := ih hproper
      refine ⟨Frugal.counted (fun n => hfrugal.many n) ?_, fun _ => ?_⟩
      · exact fun n bytes a rest _ h => (htakes hwide).many n bytes a rest h
      · refine takes_counted fun n => ?_
        exact (hfrugal.many n).takes element.depth_pos

end Layout

end Clink.Verified.Wire

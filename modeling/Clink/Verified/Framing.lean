import Mathlib.Algebra.Order.Ring.Int
import Mathlib.Data.List.Infix

/-!
# Self-delimiting frames

A reader takes a value off the front of a byte list and leaves the rest.
`Frames r bytes a` says that `bytes` are a whole frame of `r`: whatever follows
them they are read as `a`, and no strict prefix of them is read at all.  Frames
compose (`bind`, `map`, `fold`), so a format built from length-prefixed pieces
inherits both halves from its pieces.
-/

namespace Clink.Verified

variable {α β σ ε : Type*}

/-- Takes a value off the front of the bytes, or fails. -/
abbrev Reader (α : Type*) := List UInt8 → Option (α × List UInt8)

namespace Reader

/-- Read on behind what `r` read. -/
def bind (r : Reader α) (f : α → Reader β) : Reader β := fun bytes =>
  match r bytes with
  | none => none
  | some (a, rest) => f a rest

def map (f : α → β) (r : Reader α) : Reader β := fun bytes =>
  match r bytes with
  | none => none
  | some (a, rest) => some (f a, rest)

/-- The next `k` bytes. -/
def take (k : Nat) : Reader (List UInt8) := fun bytes =>
  if bytes.length < k then none else some (bytes.take k, bytes.drop k)

/-- Run a reader a number of times on an accumulator. -/
def fold (step : σ → Reader σ) : Nat → σ → Reader σ
  | 0, acc => fun bytes => some (acc, bytes)
  | count + 1, acc => (step acc).bind (fold step count)

end Reader

/-! ## Frames -/

/-- `bytes` are a whole frame of `r`, for the value `a`. -/
structure Frames (r : Reader α) (bytes : List UInt8) (a : α) : Prop where
  reads : ∀ rest, r (bytes ++ rest) = some (a, rest)
  rejects : ∀ cut, cut <+: bytes → cut.length < bytes.length → r cut = none

namespace Frames

variable {r : Reader α} {bytes more : List UInt8} {a : α}

/-- A frame behind a frame.  A cut of both falls into the first, between them or
into the second. -/
theorem bind {f : α → Reader β} {b : β} (hr : Frames r bytes a) (hf : Frames (f a) more b) :
    Frames (r.bind f) (bytes ++ more) b where
  reads rest := by
    unfold Reader.bind
    rw [List.append_assoc, hr.reads]
    exact hf.reads rest
  rejects cut hcut hshort := by
    unfold Reader.bind
    rw [List.length_append] at hshort
    rcases List.prefix_or_prefix_of_prefix hcut (List.prefix_append bytes more) with
      hinside | ⟨tail, rfl⟩
    · by_cases hlen : cut.length < bytes.length
      · rw [hr.rejects cut hinside hlen]
      · have heq : cut = bytes := hinside.eq_of_length_le (by omega)
        have hread := hr.reads []
        rw [List.append_nil] at hread
        rw [heq, hread]
        exact hf.rejects [] List.nil_prefix (by subst heq; simp; omega)
    · have htail : tail <+: more := (List.prefix_append_right_inj bytes).mp hcut
      rw [hr.reads]
      rw [List.length_append] at hshort
      exact hf.rejects tail htail (by omega)

theorem map (f : α → β) (hr : Frames r bytes a) : Frames (r.map f) bytes (f a) where
  reads rest := by
    unfold Reader.map
    rw [hr.reads]
  rejects cut hcut hshort := by
    unfold Reader.map
    rw [hr.rejects cut hcut hshort]

theorem take (bytes : List UInt8) : Frames (Reader.take bytes.length) bytes bytes where
  reads rest := by
    unfold Reader.take
    rw [if_neg (by simp), List.take_left, List.drop_left]
  rejects cut _ hshort := by
    unfold Reader.take
    rw [if_pos hshort]

/-- As many frames as are asked for, each read on the accumulator the earlier
ones left. -/
theorem fold {step : σ → Reader σ} {enc : ε → List UInt8} {f : σ → ε → σ} {l : List ε}
    (hstep : ∀ acc, ∀ e ∈ l, Frames (step acc) (enc e) (f acc e)) (acc : σ) :
    Frames (Reader.fold step l.length acc) (l.flatMap enc) (l.foldl f acc) := by
  induction l generalizing acc with
  | nil =>
      exact ⟨fun rest => rfl, fun cut _ hshort => absurd hshort (Nat.not_lt_zero _)⟩
  | cons e rest ih =>
      have hhead := hstep acc e List.mem_cons_self
      have htail := ih (fun acc e he => hstep acc e (List.mem_cons_of_mem _ he)) (f acc e)
      rw [List.flatMap_cons]
      exact hhead.bind htail

end Frames

/-! ## Little-endian numbers -/

/-- The `n` low bytes of `v`, the least significant first. -/
def putLE : Nat → Nat → List UInt8
  | 0, _ => []
  | n + 1, v => UInt8.ofNat v :: putLE n (v / 256)

def readLE : List UInt8 → Nat
  | [] => 0
  | b :: rest => b.toNat + 256 * readLE rest

/-- A number of `n` bytes. -/
def Reader.getLE (n : Nat) : Reader Nat := (Reader.take n).map readLE

@[simp] theorem length_putLE (n v : Nat) : (putLE n v).length = n := by
  induction n generalizing v with
  | zero => rfl
  | succ n ih =>
      rw [putLE, List.length_cons, ih]

theorem readLE_putLE {n v : Nat} (h : v < 256 ^ n) : readLE (putLE n v) = v := by
  induction n generalizing v with
  | zero =>
      simp only [Nat.pow_zero] at h
      simp only [putLE, readLE]
      omega
  | succ n ih =>
      have hbyte : (UInt8.ofNat v).toNat = v % 256 := UInt8.toNat_ofNat'
      have hhigh : v / 256 < 256 ^ n := by
        rw [Nat.pow_succ] at h
        omega
      rw [putLE, readLE, hbyte, ih hhigh]
      omega

theorem Frames.getLE {n v : Nat} (h : v < 256 ^ n) : Frames (Reader.getLE n) (putLE n v) v := by
  have hbytes := Frames.take (putLE n v)
  rw [length_putLE] at hbytes
  have hread := hbytes.map readLE
  rw [readLE_putLE h] at hread
  exact hread

end Clink.Verified

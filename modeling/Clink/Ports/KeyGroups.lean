import Mathlib.Data.Nat.Bitwise
import Clink.Verified.CeilSlice

/-!
# Key groups

The embedding of `include/clink/runtime/key_groups.hpp`.  A keyed record is
bucketed into one of `numKeyGroups` groups by a hash of its key bytes, and
each subtask of an operator owns a contiguous range of groups.  The widths
are the source's own: a group is 16 bits, a subtask index 32 bits, and the
range arithmetic runs in 64 bits before it is cast back.

`keyGroupRangeForSubtask_spec` removes the machine arithmetic once and for
all: below the parallelism the two ends are the exact ceilings of
`Clink.Verified.CeilSlice`, also above 128 subtasks, where ranges are empty.
-/

namespace Clink.Ports.KeyGroups

open Clink.Verified.CeilSlice

abbrev KeyGroup := UInt16

/-- `kNumKeyGroups`. -/
def numKeyGroups : UInt16 := 128

/-- FNV-1a over the serialized key, in wrapping 64-bit arithmetic. -/
def fnv1a64Key (bytes : List UInt8) : UInt64 :=
  bytes.foldl (fun h b => (h ^^^ b.toUInt64) * 0x100000001b3) 0xcbf29ce484222325

def keyGroupForKey (keyBytes : List UInt8) : KeyGroup :=
  (fnv1a64Key keyBytes % numKeyGroups.toUInt64).toUInt16

/-- The subtask responsible for a group at this parallelism. -/
def subtaskForKeyGroup (group : KeyGroup) (parallelism : UInt32) : UInt32 :=
  if parallelism = 0 then 0
  else (group.toUInt64 * parallelism.toUInt64 / numKeyGroups.toUInt64).toUInt32

/-- The half-open range `[first, last)` of groups a subtask owns.  The
increment of the subtask index is a 32-bit one, as in the source. -/
def keyGroupRangeForSubtask (subtaskIdx parallelism : UInt32) : KeyGroup × KeyGroup :=
  if parallelism = 0 then (0, 0)
  else
    let p := parallelism.toUInt64
    let n := numKeyGroups.toUInt64
    let start := (subtaskIdx.toUInt64 * n + p - 1) / p
    let endInclusive := ((subtaskIdx + 1).toUInt64 * n + p - 1) / p - 1
    (start.toUInt16, (endInclusive + 1).toUInt16)

/-- A group lies in the range a subtask owns. -/
def Owns (subtaskIdx parallelism : UInt32) (g : KeyGroup) : Prop :=
  (keyGroupRangeForSubtask subtaskIdx parallelism).1 ≤ g ∧
    g < (keyGroupRangeForSubtask subtaskIdx parallelism).2

instance (subtaskIdx parallelism : UInt32) (g : KeyGroup) :
    Decidable (Owns subtaskIdx parallelism g) :=
  inferInstanceAs (Decidable (_ ∧ _))

/-! ## From machine words to ceilings -/

/-- The 64-bit ceiling never wraps: `i * 128 + p - 1` stays below `2 ^ 40`. -/
theorem ceil_toNat (i p : UInt32) :
    ((i.toUInt64 * numKeyGroups.toUInt64 + p.toUInt64 - 1) / p.toUInt64).toNat =
      sliceStart 128 p.toNat i.toNat := by
  have hi : i.toNat < 2 ^ 32 := i.toNat_lt
  have hp : p.toNat < 2 ^ 32 := p.toNat_lt
  by_cases hzero : p.toNat = 0
  · have hp0 : p = 0 := UInt32.toNat_inj.mp hzero
    subst hp0
    simp [sliceStart]
  · simp only [UInt64.toNat_div, UInt64.toNat_sub, UInt64.toNat_add, UInt64.toNat_mul,
      UInt32.toNat_toUInt64, UInt16.toNat_toUInt64, numKeyGroups, UInt64.toNat_one,
      UInt16.toNat_ofNat, sliceStart]
    congr 1
    omega

/-- A ceiling at or below the group count: no owner starts past the end. -/
theorem sliceStart_le_total {p i : Nat} (hp : 0 < p) (hi : i ≤ p) :
    sliceStart 128 p i ≤ 128 := by
  rw [sliceStart_le_iff hp, Nat.mul_comm 128 p]
  exact Nat.mul_le_mul_right 128 hi

variable {i p : UInt32}

/-- Below the parallelism the range's ends are the two exact ceilings. -/
theorem keyGroupRangeForSubtask_spec (h : i < p) :
    (keyGroupRangeForSubtask i p).1.toNat = sliceStart 128 p.toNat i.toNat ∧
      (keyGroupRangeForSubtask i p).2.toNat = sliceStart 128 p.toNat (i.toNat + 1) := by
  have hlt : i.toNat < p.toNat := UInt32.lt_iff_toNat_lt.mp h
  have hp : p.toNat < 2 ^ 32 := p.toNat_lt
  have hpos : 0 < p.toNat := by omega
  have hne : p ≠ 0 := by
    rintro rfl
    simp at hpos
  have hsucc : (i + 1).toNat = i.toNat + 1 := by
    rw [UInt32.toNat_add, UInt32.toNat_one]
    omega
  have hstart := sliceStart_le_total hpos (Nat.le_of_lt hlt)
  have hend := sliceStart_le_total hpos (show i.toNat + 1 ≤ p.toNat from hlt)
  -- The inclusive end is taken one below the ceiling and put back: the
  -- ceiling of a positive numerator is at least one, so nothing wraps.
  have hone : 1 ≤ sliceStart 128 p.toNat (i.toNat + 1) := by
    refine Nat.one_le_iff_ne_zero.mpr fun hz => ?_
    have := (sliceStart_le_iff hpos).mp (Nat.le_of_eq hz)
    omega
  simp only [keyGroupRangeForSubtask, if_neg hne, UInt64.toNat_toUInt16, UInt64.toNat_add,
    UInt64.toNat_sub, UInt64.toNat_one, ceil_toNat, hsucc]
  omega

theorem owns_iff_inSlice (h : i < p) (g : KeyGroup) :
    Owns i p g ↔ InSlice 128 p.toNat i.toNat g.toNat := by
  obtain ⟨hfirst, hlast⟩ := keyGroupRangeForSubtask_spec h
  rw [Owns, InSlice, UInt16.le_iff_toNat_le, UInt16.lt_iff_toNat_lt, hfirst, hlast]

theorem keyGroupForKey_lt (keyBytes : List UInt8) :
    (keyGroupForKey keyBytes).toNat < 128 := by
  have hmod : (fnv1a64Key keyBytes % numKeyGroups.toUInt64).toNat < 128 := by
    rw [UInt64.toNat_mod]
    exact Nat.mod_lt _ (by decide)
  unfold keyGroupForKey
  rw [UInt64.toNat_toUInt16, Nat.mod_eq_of_lt (by omega)]
  exact hmod

/-- The low bit of a key group is the sum of the low bits of the key's bytes:
the multiplier of the hash is odd and the number of groups even. -/
theorem keyGroupForKey_parity (keyBytes : List UInt8) :
    (keyGroupForKey keyBytes).toNat % 2 = (1 + (keyBytes.map UInt8.toNat).sum) % 2 := by
  have hfold : ∀ h : UInt64,
      (keyBytes.foldl (fun h b => (h ^^^ b.toUInt64) * 0x100000001b3) h).toNat % 2 =
        (h.toNat + (keyBytes.map UInt8.toNat).sum) % 2 := by
    induction keyBytes with
    | nil => intro h; simp
    | cons b rest ih =>
        intro h
        have hstep : ((h ^^^ b.toUInt64) * 0x100000001b3).toNat % 2 =
            (h.toNat + b.toNat) % 2 := by
          have hxor := Nat.xor_mod_two_eq (m := h.toNat) (n := b.toNat)
          rw [UInt64.toNat_mul, UInt64.toNat_xor, UInt8.toNat_toUInt64]
          have hprime : (0x100000001b3 : UInt64).toNat = 0x100000001b3 := rfl
          rw [hprime]
          omega
        rw [List.foldl_cons, ih, List.map_cons, List.sum_cons]
        omega
  have hseed := hfold 0xcbf29ce484222325
  have hgroups : numKeyGroups.toUInt64.toNat = 128 := rfl
  unfold keyGroupForKey fnv1a64Key
  rw [UInt64.toNat_toUInt16, UInt64.toNat_mod, hgroups]
  have hodd : (0xcbf29ce484222325 : UInt64).toNat % 2 = 1 := rfl
  omega

/-! ## Routing and ownership -/

variable {g : KeyGroup}

/-- The routed index in natural numbers: neither the product nor the cast wraps. -/
theorem subtaskForKeyGroup_toNat (hg : g.toNat < 128) (hp : p ≠ 0) :
    (subtaskForKeyGroup g p).toNat = g.toNat * p.toNat / 128 := by
  have hpos : 0 < p.toNat := Nat.pos_of_ne_zero fun h => hp (UInt32.toNat_inj.mp h)
  have hlt : p.toNat < 2 ^ 32 := p.toNat_lt
  have hprod : g.toNat * p.toNat < 128 * p.toNat := Nat.mul_lt_mul_of_pos_right hg hpos
  have hgroups : numKeyGroups.toUInt64.toNat = 128 := rfl
  have hwide : g.toNat * p.toNat % 2 ^ 64 = g.toNat * p.toNat := Nat.mod_eq_of_lt (by omega)
  rw [subtaskForKeyGroup, if_neg hp, UInt64.toNat_toUInt32, UInt64.toNat_div, UInt64.toNat_mul,
    UInt16.toNat_toUInt64, UInt32.toNat_toUInt64, hgroups, hwide]
  exact Nat.mod_eq_of_lt (by omega)

theorem subtaskForKeyGroup_lt (hg : g.toNat < 128) (hp : p ≠ 0) : subtaskForKeyGroup g p < p := by
  have hpos : 0 < p.toNat := Nat.pos_of_ne_zero fun h => hp (UInt32.toNat_inj.mp h)
  have hprod : g.toNat * p.toNat < 128 * p.toNat := Nat.mul_lt_mul_of_pos_right hg hpos
  rw [UInt32.lt_iff_toNat_lt, subtaskForKeyGroup_toNat hg hp]
  omega

/-- A subtask owns a group exactly when the group's records go to it. -/
theorem owns_iff_subtaskForKeyGroup (h : i < p) (hg : g.toNat < 128) :
    Owns i p g ↔ subtaskForKeyGroup g p = i := by
  have hpos : 0 < p.toNat := Nat.zero_lt_of_lt (UInt32.lt_iff_toNat_lt.mp h)
  have hp : p ≠ 0 := by
    rintro rfl
    simp at hpos
  rw [owns_iff_inSlice h, inSlice_iff hpos, ← UInt32.toNat_inj, subtaskForKeyGroup_toNat hg hp]
  omega

theorem owns_subtaskForKeyGroup (hg : g.toNat < 128) (hp : p ≠ 0) :
    Owns (subtaskForKeyGroup g p) p g :=
  (owns_iff_subtaskForKeyGroup (subtaskForKeyGroup_lt hg hp) hg).mpr rfl

/-- No range reaches past the last group. -/
theorem lt_of_owns (h : i < p) (howns : Owns i p g) : g.toNat < 128 := by
  have hlt : i.toNat < p.toNat := UInt32.lt_iff_toNat_lt.mp h
  have hend := sliceStart_le_total (by omega) (show i.toNat + 1 ≤ p.toNat from hlt)
  have hslice := (owns_iff_inSlice h g).mp howns
  exact Nat.lt_of_lt_of_le hslice.2 hend

/-- `make_key_group_partitioner`. -/
def keyGroupPartitioner {T : Type} (keyBytesOf : T → List UInt8) (parallelism : UInt32)
    (value : T) : UInt32 :=
  subtaskForKeyGroup (keyGroupForKey (keyBytesOf value)) parallelism

/-- Routing and ownership agree: a group is routed to the one subtask in whose range it
lies.  So the ranges of the subtasks are disjoint, cover the groups and nothing else, and
every record goes to the owner of its key's group. -/
theorem routing_is_ownership {p : UInt32} (hp : p ≠ 0) :
    (∀ i, i < p → ∀ g, g < numKeyGroups →
        (subtaskForKeyGroup g p = i ↔
          (keyGroupRangeForSubtask i p).1 ≤ g ∧ g < (keyGroupRangeForSubtask i p).2)) ∧
      (∀ i j, i < p → j < p → i ≠ j → ∀ g, ¬ (Owns i p g ∧ Owns j p g)) ∧
      (∀ g, g < numKeyGroups ↔ ∃ i, i < p ∧ Owns i p g) ∧
      ∀ (T : Type) (keyBytesOf : T → List UInt8) (value : T),
        Owns (keyGroupPartitioner keyBytesOf p value) p (keyGroupForKey (keyBytesOf value)) := by
  have hgroup : ∀ g : KeyGroup, g < numKeyGroups → g.toNat < 128 := fun g hg =>
    UInt16.lt_iff_toNat_lt.mp hg
  refine ⟨fun i hi g hg => (owns_iff_subtaskForKeyGroup hi (hgroup g hg)).symm, ?_, ?_, ?_⟩
  · rintro i j hi hj hne g ⟨hown, hown'⟩
    have hg := lt_of_owns hi hown
    rw [owns_iff_subtaskForKeyGroup hi hg] at hown
    rw [owns_iff_subtaskForKeyGroup hj hg] at hown'
    exact hne (hown.symm.trans hown')
  · intro g
    constructor
    · intro hg
      exact ⟨_, subtaskForKeyGroup_lt (hgroup g hg) hp, owns_subtaskForKeyGroup (hgroup g hg) hp⟩
    · rintro ⟨i, hi, hown⟩
      exact UInt16.lt_iff_toNat_lt.mpr (lt_of_owns hi hown)
  · intro T keyBytesOf value
    exact owns_subtaskForKeyGroup (keyGroupForKey_lt _) hp

/-- At the greatest parallelism there is. -/
theorem routing_is_ownership_widest :
    (4294967295 : UInt32) ≠ 0 ∧
      ∀ g, g < numKeyGroups ↔ ∃ i, i < (4294967295 : UInt32) ∧ Owns i 4294967295 g :=
  ⟨by decide, (routing_is_ownership (by decide)).2.2.1⟩

end Clink.Ports.KeyGroups

import Clink.Ports.CheckpointIntegrity
import Clink.Verified.ShiftRegister

/-!
# The checksum of a checkpoint

`crc32c` of `checkpoint_integrity.hpp`, the table loop, as a register that the bits of the
payload are fed into.  A byte through the table is eight shifts (`tableStep_eq`): its low
octet is looked up and the rest only moves down.  The bits of a byte go in from the lowest
one on, so this is the order in which the bits of a payload are consecutive.
-/

namespace Clink.Ports.CheckpointIntegrity

open Clink.Verified.ShiftRegister

/-- The reflected polynomial. -/
def castagnoli : BitVec 32 := 0x82F63B78#32

def byteBits (p : UInt8) : List Bool := (List.range 8).map fun i => p.toBitVec.getLsbD i

/-- The bits of a payload: of each byte the lowest first. -/
def payloadBits (data : List UInt8) : List Bool := data.flatMap byteBits

/-! ## The table -/

theorem toBitVec_crc32cShift (c : UInt32) :
    (crc32cShift c).toBitVec = shift castagnoli c.toBitVec := by
  have hlow : (c &&& 1 ≠ 0) ↔ c.toBitVec.getLsbD 0 = true := by
    rw [ne_eq, ← UInt32.toBitVec_inj, UInt32.toBitVec_and]
    change ¬c.toBitVec &&& 1#32 = 0#32 ↔ _
    rw [BitVec.and_one_eq_setWidth_ofBool_getLsbD]
    cases c.toBitVec.getLsbD 0 <;> decide
  unfold crc32cShift shift
  by_cases hodd : c &&& 1 ≠ 0
  · rw [if_pos hodd, if_pos (hlow.1 hodd)]
    rfl
  · rw [if_neg hodd, if_neg (fun hbit => hodd (hlow.2 hbit))]
    rfl

private theorem toBitVec_shifts (c : UInt32) (n : Nat) :
    ((List.range n).foldl (fun crc _ => crc32cShift crc) c).toBitVec =
      (shift castagnoli)^[n] c.toBitVec := by
  induction n with
  | zero => rfl
  | succ n ih =>
      rw [List.range_succ, List.foldl_append, List.foldl_cons, List.foldl_nil,
        toBitVec_crc32cShift, ih, Function.iterate_succ_apply']

private theorem toBitVec_table {i : Nat} (h : i < 256) :
    (crc32cTable.getD i 0).toBitVec = (shift castagnoli)^[8] (BitVec.ofNat 32 i) := by
  have hentry : crc32cTable.getD i 0 =
      (List.range 8).foldl (fun crc _ => crc32cShift crc) (UInt32.ofNat i) := by
    rw [crc32cTable, List.getD_eq_getElem?_getD, List.getElem?_map, List.getElem?_range h]
    rfl
  rw [hentry, toBitVec_shifts]
  rfl

/-- One round of the loop. -/
def tableStep (crc : UInt32) (p : UInt8) : UInt32 :=
  crc32cTable.getD ((crc ^^^ p.toUInt32) &&& 0xFF).toNat 0 ^^^ (crc >>> 8)

theorem low_octet (x : BitVec 32) :
    x ^^^ (x >>> 8 <<< 8) = BitVec.ofNat 32 (x.toNat % 2 ^ 8) := by
  apply BitVec.eq_of_getLsbD_eq
  intro i hless
  rw [BitVec.getLsbD_ofNat, Nat.testBit_mod_two_pow, BitVec.getLsbD_xor, BitVec.getLsbD_shiftLeft,
    BitVec.getLsbD_ushiftRight, BitVec.testBit_toNat]
  by_cases hlow : i < 8
  · simp [hlow, hless]
  · simp [hlow, hless, show 8 + (i - 8) = i by omega]

theorem tableStep_eq (crc : UInt32) (p : UInt8) :
    (tableStep crc p).toBitVec =
      (shift castagnoli)^[8] (crc.toBitVec ^^^ p.toUInt32.toBitVec) := by
  have hindex : ((crc ^^^ p.toUInt32) &&& 0xFF).toNat =
      (crc.toBitVec ^^^ p.toUInt32.toBitVec).toNat % 2 ^ 8 :=
    Nat.and_two_pow_sub_one_eq_mod _ 8
  have hhigh : p.toUInt32.toBitVec >>> 8 = 0#32 := by
    apply BitVec.eq_of_toNat_eq
    have hsmall := p.toNat_lt
    rw [BitVec.toNat_ushiftRight, Nat.shiftRight_eq_div_pow]
    exact Nat.div_eq_of_lt hsmall
  rw [tableStep, UInt32.toBitVec_xor, hindex,
    toBitVec_table (show _ % 2 ^ 8 < 256 from Nat.mod_lt _ (by decide)),
    iterate_shift_split castagnoli 8 (crc.toBitVec ^^^ _), low_octet,
    BitVec.ushiftRight_xor_distrib, hhigh, BitVec.xor_zero]
  rfl

/-! ## The loop -/

theorem number_byteBits (p : UInt8) :
    (number (byteBits p) : BitVec 32) = p.toUInt32.toBitVec := by
  apply BitVec.eq_of_getLsbD_eq
  intro i hless
  rw [getLsbD_number _ hless, UInt8.toBitVec_toUInt32, BitVec.getLsbD_setWidth, byteBits,
    List.getD_eq_getElem?_getD, List.getElem?_map]
  by_cases hlow : i < 8
  · simp [List.getElem?_range hlow, hless]
  · have hpast : (List.range 8)[i]? = none := List.getElem?_eq_none (by simpa using hlow)
    rw [hpast, BitVec.getLsbD_of_ge _ _ (by omega)]
    simp

theorem tableLoop_eq (data : List UInt8) (crc : UInt32) :
    (data.foldl tableStep crc).toBitVec = feed castagnoli crc.toBitVec (payloadBits data) := by
  induction data generalizing crc with
  | nil => rfl
  | cons p data ih =>
      have hone : feed castagnoli crc.toBitVec (byteBits p) = (tableStep crc p).toBitVec := by
        rw [feed_eq_iterate castagnoli (by simp [byteBits]), number_byteBits, tableStep_eq]
        rfl
      have hcut : payloadBits (p :: data) = byteBits p ++ payloadBits data := List.flatMap_cons
      rw [List.foldl_cons, ih, hcut, feed_append, hone]

theorem crc32c_eq (data : List UInt8) (seed : UInt32) :
    crc32c data seed = ~~~(data.foldl tableStep (~~~seed)) := rfl

theorem length_byteBits (p : UInt8) : (byteBits p).length = 8 := by
  simp [byteBits]

theorem length_payloadBits (data : List UInt8) : (payloadBits data).length = 8 * data.length := by
  induction data with
  | nil => rfl
  | cons p data ih =>
      have hcut : payloadBits (p :: data) = byteBits p ++ payloadBits data := List.flatMap_cons
      rw [hcut, List.length_append, length_byteBits, ih, List.length_cons]
      omega

theorem payloadBits_injective : Function.Injective payloadBits := by
  refine Clink.Verified.flatMap_injective (fun p hnil => ?_) fun p q hstart => ?_
  · have hlen := length_byteBits p
    rw [hnil] at hlen
    exact absurd hlen (by decide)
  · have hsame : byteBits p = byteBits q :=
      hstart.eq_of_length (by rw [length_byteBits, length_byteBits])
    have hoctets : p.toUInt32.toBitVec = q.toUInt32.toBitVec := by
      rw [← number_byteBits, ← number_byteBits, hsame]
    have hnumbers := congrArg BitVec.toNat hoctets
    exact UInt8.toNat_inj.1 hnumbers

/-- A payload that is changed within 32 consecutive bits has another checksum, and the
checksum goes on over a second part from that of the first. -/
theorem crc32c_catches_bursts (data : List UInt8) :
    (∀ (changed : List UInt8) (seed : UInt32) (k : Nat), changed.length = data.length →
      changed ≠ data →
      (∀ i, (payloadBits changed)[i]? ≠ (payloadBits data)[i]? → k ≤ i ∧ i < k + 32) →
      crc32c changed seed ≠ crc32c data seed) ∧
    ∀ (more : List UInt8) (seed : UInt32),
      crc32c (data ++ more) seed = crc32c more (crc32c data seed) := by
  refine ⟨fun changed seed k hlen hne hburst hsame => ?_, fun more seed => ?_⟩
  · have hloops : changed.foldl tableStep (~~~seed) = data.foldl tableStep (~~~seed) := by
      simpa [crc32c_eq] using hsame
    have hregisters := congrArg UInt32.toBitVec hloops
    rw [tableLoop_eq, tableLoop_eq] at hregisters
    have hsize : (payloadBits changed).length = (payloadBits data).length := by
      rw [length_payloadBits, length_payloadBits, hlen]
    exact feed_ne_of_burst castagnoli (by decide) _ hsize hburst
      (fun hbits => hne (payloadBits_injective hbits)) hregisters
  · rw [crc32c_eq, crc32c_eq, crc32c_eq, List.foldl_append, UInt32.not_not]

end Clink.Ports.CheckpointIntegrity

import Clink.Ports.HaLeadership

/-!
# Checkpoint integrity

The embedding of `include/clink/state/checkpoint_integrity.hpp`: the CRC-32C of
a payload, the sidecar record that certifies it (`CheckpointMeta`), and the
verdict on a payload and its sidecar (`verify_checkpoint`).  The sidecar is
line-oriented text; what is written is read back (`parse_serialise`), so the
verdict on files the writer published depends on the two payloads only
(`status_certified`).

The branches for files that exist and cannot be read are not modelled: storage
is taken to give back what was renamed into place.
-/

namespace Clink.Ports.CheckpointIntegrity

open Clink.Verified
open Clink.Ports.HaLeadership (stoull stoull_decimal)

/-! ## The checksum -/

/-- One of the eight shifts of a table entry. -/
def crc32cShift (crc : UInt32) : UInt32 :=
  if crc &&& 1 ≠ 0 then (crc >>> 1) ^^^ 0x82F63B78 else crc >>> 1

/-- `crc32c_table`. -/
def crc32cTable : List UInt32 :=
  (List.range 256).map fun i => (List.range 8).foldl (fun crc _ => crc32cShift crc) (UInt32.ofNat i)

/-- `crc32c`. -/
def crc32c (data : List UInt8) (seed : UInt32) : UInt32 :=
  ~~~(data.foldl
    (fun crc p => crc32cTable.getD ((crc ^^^ p.toUInt32) &&& 0xFF).toNat 0 ^^^ (crc >>> 8))
      (~~~seed))

/-! ## The sidecar -/

/-- `kCheckpointMetaVersion`. -/
def checkpointMetaVersion : UInt32 := 1

structure CheckpointMeta where
  version : UInt32
  checkpointId : UInt64
  payloadBytes : UInt64
  payloadCrc32c : UInt32
  deriving DecidableEq

/-- A record as `verify_checkpoint` declares it. -/
def CheckpointMeta.default : CheckpointMeta where
  version := checkpointMetaVersion
  checkpointId := 0
  payloadBytes := 0
  payloadCrc32c := 0

def versionKey : List Char := "clink_checkpoint_meta".toList

def idKey : List Char := "checkpoint_id".toList

def bytesKey : List Char := "payload_bytes".toList

def crcKey : List Char := "payload_crc32c".toList

/-- `CheckpointMeta::serialise`. -/
def CheckpointMeta.serialise (m : CheckpointMeta) : List Char :=
  versionKey ++ '=' :: decimal m.version.toNat ++ '\n' ::
    (idKey ++ '=' :: decimal m.checkpointId.toNat ++ '\n' ::
      (bytesKey ++ '=' :: decimal m.payloadBytes.toNat ++ '\n' ::
        (crcKey ++ '=' :: decimal m.payloadCrc32c.toNat ++ ['\n'])))

/-- One line of `CheckpointMeta::parse`: the record so far and whether the
version was seen; none where a number throws. -/
def parseLine (out : CheckpointMeta × Bool) (line : List Char) : Option (CheckpointMeta × Bool) :=
  if '=' ∈ line then
    let key := line.takeWhile (· != '=')
    let value := (line.dropWhile (· != '=')).drop 1
    if key = versionKey then
      (stoull value).map fun n => ({ out.1 with version := UInt32.ofNat n }, true)
    else if key = idKey then
      (stoull value).map fun n => ({ out.1 with checkpointId := UInt64.ofNat n }, out.2)
    else if key = bytesKey then
      (stoull value).map fun n => ({ out.1 with payloadBytes := UInt64.ofNat n }, out.2)
    else if key = crcKey then
      (stoull value).map fun n => ({ out.1 with payloadCrc32c := UInt32.ofNat n }, out.2)
    else some out
  else some out

/-- `CheckpointMeta::parse` into a fresh record. -/
def CheckpointMeta.parse (text : List Char) : Option CheckpointMeta :=
  match (lines text).foldlM parseLine (.default, false) with
  | some (m, true) => some m
  | _ => none

/-- What a line holds on the two sides of its first `=`. -/
theorem key_and_value (key value : List Char) (hkey : '=' ∉ key) :
    (key ++ '=' :: value).takeWhile (· != '=') = key ∧
      ((key ++ '=' :: value).dropWhile (· != '=')).drop 1 = value := by
  obtain ⟨hread, hrest⟩ := takeWhile_dropWhile_append hkey value
  rw [hread, hrest]
  exact ⟨rfl, rfl⟩

theorem stoull_toNat {n : Nat} (h : n < 2 ^ 64) : stoull (decimal n) = some n := by
  have hnone : ∀ c ∈ ([] : List Char).head?, c.isDigit = false := by simp
  have hread := stoull_decimal h hnone
  rwa [List.append_nil] at hread

theorem line_mem {key : List Char} {n : Nat} : '=' ∈ key ++ '=' :: decimal n := by simp

private theorem lines_serialise (m : CheckpointMeta) : lines m.serialise =
    [versionKey ++ '=' :: decimal m.version.toNat, idKey ++ '=' :: decimal m.checkpointId.toNat,
      bytesKey ++ '=' :: decimal m.payloadBytes.toNat,
      crcKey ++ '=' :: decimal m.payloadCrc32c.toNat] := by
  have hline : ∀ (key : List Char) (n : Nat), '\n' ∉ key → '\n' ∉ key ++ '=' :: decimal n := by
    intro key n hkey hmem
    rcases List.mem_append.mp hmem with hmem | hmem
    · exact hkey hmem
    · rcases List.mem_cons.mp hmem with heq | hmem
      · exact absurd heq (by decide)
      · exact not_mem_decimal (by decide) hmem
  rw [CheckpointMeta.serialise, lines_append (hline _ _ (by decide)),
    lines_append (hline _ _ (by decide)), lines_append (hline _ _ (by decide)),
    lines_append (hline _ _ (by decide))]
  rfl

private theorem parseLine_version (out : CheckpointMeta × Bool) (v : UInt32) :
    parseLine out (versionKey ++ '=' :: decimal v.toNat) =
      some ({ out.1 with version := v }, true) := by
  obtain ⟨hkey, hvalue⟩ := key_and_value versionKey (decimal v.toNat) (by decide)
  have hlt : v.toNat < 2 ^ 64 := v.toNat_lt.trans (by decide)
  rw [parseLine, if_pos line_mem, hkey, hvalue, if_pos rfl, stoull_toNat hlt]
  simp

private theorem parseLine_id (out : CheckpointMeta × Bool) (v : UInt64) :
    parseLine out (idKey ++ '=' :: decimal v.toNat) =
      some ({ out.1 with checkpointId := v }, out.2) := by
  obtain ⟨hkey, hvalue⟩ := key_and_value idKey (decimal v.toNat) (by decide)
  rw [parseLine, if_pos line_mem, hkey, hvalue, if_neg (by decide), if_pos rfl,
    stoull_toNat v.toNat_lt]
  simp

private theorem parseLine_bytes (out : CheckpointMeta × Bool) (v : UInt64) :
    parseLine out (bytesKey ++ '=' :: decimal v.toNat) =
      some ({ out.1 with payloadBytes := v }, out.2) := by
  obtain ⟨hkey, hvalue⟩ := key_and_value bytesKey (decimal v.toNat) (by decide)
  rw [parseLine, if_pos line_mem, hkey, hvalue, if_neg (by decide), if_neg (by decide), if_pos rfl,
    stoull_toNat v.toNat_lt]
  simp

private theorem parseLine_crc (out : CheckpointMeta × Bool) (v : UInt32) :
    parseLine out (crcKey ++ '=' :: decimal v.toNat) =
      some ({ out.1 with payloadCrc32c := v }, out.2) := by
  obtain ⟨hkey, hvalue⟩ := key_and_value crcKey (decimal v.toNat) (by decide)
  have hlt : v.toNat < 2 ^ 64 := v.toNat_lt.trans (by decide)
  rw [parseLine, if_pos line_mem, hkey, hvalue, if_neg (by decide), if_neg (by decide),
    if_neg (by decide), if_pos rfl, stoull_toNat hlt]
  simp

theorem parse_serialise (m : CheckpointMeta) : CheckpointMeta.parse m.serialise = some m := by
  rw [CheckpointMeta.parse, lines_serialise]
  simp only [List.foldlM_cons, List.foldlM_nil, parseLine_version, parseLine_id, parseLine_bytes,
    parseLine_crc, Option.bind_eq_bind, Option.bind_some, Option.pure_def]

/-! ## The verdict -/

inductive CheckpointStatus where
  | valid
  | missing
  | incomplete
  | corrupt
  | unsupported
  deriving DecidableEq

structure VerifyResult where
  status : CheckpointStatus
  detail : List Char

/-- The size of a file, as `file_size` and `vector::size` give it. -/
def size (data : List UInt8) : UInt64 := UInt64.ofNat data.length

/-- `meta_path_for`. -/
def metaPathFor (payload : List Char) : List Char := payload ++ ".meta".toList

/-- The record `write_checkpoint_meta` writes. -/
def checkpointMeta (id : UInt64) (payload : List UInt8) : CheckpointMeta where
  version := checkpointMetaVersion
  checkpointId := id
  payloadBytes := size payload
  payloadCrc32c := crc32c payload 0

/-- `verify_checkpoint` on what stands at a path and beside it. -/
def verifyCheckpoint (payloadPath : List Char) (payload : Option (List UInt8))
    (sidecar : Option (List Char)) : VerifyResult :=
  match payload with
  | none => ⟨.missing, "no payload at ".toList ++ payloadPath⟩
  | some data =>
      match sidecar with
      | none =>
          ⟨.incomplete, "no integrity sidecar beside ".toList ++ payloadPath ++
            " - the checkpoint was never published (or predates integrity metadata)".toList⟩
      | some text =>
          match CheckpointMeta.parse text with
          | none => ⟨.corrupt, "unparseable sidecar ".toList ++ metaPathFor payloadPath⟩
          | some m =>
              if m.version > checkpointMetaVersion then
                ⟨.unsupported, "sidecar ".toList ++ metaPathFor payloadPath ++
                  " is format version ".toList ++ decimal m.version.toNat ++
                  "; this build understands up to ".toList ++
                  decimal checkpointMetaVersion.toNat⟩
              else if size data ≠ m.payloadBytes then
                ⟨.incomplete, payloadPath ++ " is ".toList ++ decimal (size data).toNat ++
                  " bytes, sidecar declares ".toList ++ decimal m.payloadBytes.toNat⟩
              else if crc32c data 0 ≠ m.payloadCrc32c then
                ⟨.corrupt, payloadPath ++ " checksum mismatch: computed ".toList ++
                  decimal (crc32c data 0).toNat ++ ", sidecar declares ".toList ++
                  decimal m.payloadCrc32c.toNat⟩
              else ⟨.valid, []⟩

/-- The verdict on one write's payload beside another write's sidecar. -/
theorem status_certified (path : List Char) (id : UInt64) (data certified : List UInt8) :
    (verifyCheckpoint path (some data) (some (checkpointMeta id certified).serialise)).status =
      if size data ≠ size certified then .incomplete
      else if crc32c data 0 ≠ crc32c certified 0 then .corrupt
      else .valid := by
  have hversion : ¬ (checkpointMeta id certified).version > checkpointMetaVersion := by
    change ¬ checkpointMetaVersion > checkpointMetaVersion
    decide
  unfold verifyCheckpoint
  dsimp only
  rw [parse_serialise]
  dsimp only
  rw [if_neg hversion]
  change VerifyResult.status (if size data ≠ size certified then _ else
    if crc32c data 0 ≠ crc32c certified 0 then _ else _) = _
  split
  · rfl
  · split <;> rfl

example : crc32c "123456789".toUTF8.toList 0 = 0xE3069283 := by decide +kernel

end Clink.Ports.CheckpointIntegrity

import Mathlib.Data.List.Basic

/-!
# Records as bytes

A record is a list of fields and a field a list of bytes.  `encodeRecords`
marks every byte of a field, the end of a field and the end of a record, so a
list of records of any length is read back by one pass over the bytes.
-/

namespace Clink.Verified

/-- The bytes of a field, each behind a 3, up to a 2. -/
def encodeField (field : List UInt8) : List UInt8 := field.flatMap (fun b => [3, b]) ++ [2]

/-- The fields of a record up to a 1. -/
def encodeRecord (fields : List (List UInt8)) : List UInt8 := fields.flatMap encodeField ++ [1]

def encodeRecords (records : List (List (List UInt8))) : List UInt8 :=
  records.flatMap encodeRecord

/-- Read on, with the records, the fields and the bytes met so far. -/
def decodeRecords (records : List (List (List UInt8))) (fields : List (List UInt8))
    (field : List UInt8) : List UInt8 → Option (List (List (List UInt8)))
  | [] => if fields = [] ∧ field = [] then some records else none
  | mark :: rest =>
      if mark = 1 then decodeRecords (records ++ [fields]) [] field rest
      else if mark = 2 then decodeRecords records (fields ++ [field]) [] rest
      else
        match rest with
        | [] => none
        | b :: rest => decodeRecords records fields (field ++ [b]) rest

variable (records : List (List (List UInt8))) (fields : List (List UInt8))

private theorem decode_one (field rest : List UInt8) :
    decodeRecords records fields field (1 :: rest) =
      decodeRecords (records ++ [fields]) [] field rest := by
  rw [decodeRecords.eq_def]
  rfl

private theorem decode_two (field rest : List UInt8) :
    decodeRecords records fields field (2 :: rest) =
      decodeRecords records (fields ++ [field]) [] rest := by
  rw [decodeRecords.eq_def]
  rfl

private theorem decode_three (b : UInt8) (field rest : List UInt8) :
    decodeRecords records fields field (3 :: b :: rest) =
      decodeRecords records fields (field ++ [b]) rest := by
  rw [decodeRecords.eq_def]
  rfl

private theorem decode_field (done field rest : List UInt8) :
    decodeRecords records fields done (encodeField field ++ rest) =
      decodeRecords records (fields ++ [done ++ field]) [] rest := by
  induction field generalizing done with
  | nil =>
      unfold encodeField
      rw [List.flatMap_nil, List.nil_append, List.singleton_append, decode_two, List.append_nil]
  | cons b more ih =>
      have ih := ih (done ++ [b])
      unfold encodeField at ih ⊢
      rw [List.append_assoc, List.singleton_append] at ih
      rw [List.flatMap_cons, List.append_assoc, List.append_assoc, List.cons_append,
        List.singleton_append, List.singleton_append, decode_three, ih, List.append_assoc,
        List.singleton_append]

private theorem decode_record (more : List (List UInt8)) (rest : List UInt8) :
    decodeRecords records fields [] (encodeRecord more ++ rest) =
      decodeRecords (records ++ [fields ++ more]) [] [] rest := by
  induction more generalizing fields with
  | nil =>
      unfold encodeRecord
      rw [List.flatMap_nil, List.nil_append, List.singleton_append, decode_one, List.append_nil]
  | cons field more ih =>
      have ih := ih (fields ++ [field])
      unfold encodeRecord at ih ⊢
      rw [List.flatMap_cons, List.append_assoc, List.append_assoc, decode_field,
        List.nil_append, ← List.append_assoc]
      rw [List.append_assoc fields] at ih
      exact ih

theorem decodeRecords_encodeRecords (more : List (List (List UInt8))) :
    decodeRecords records [] [] (encodeRecords more) = some (records ++ more) := by
  induction more generalizing records with
  | nil => simp [encodeRecords, decodeRecords]
  | cons record more ih =>
      have ih := ih (records ++ [record])
      unfold encodeRecords at ih ⊢
      rw [List.flatMap_cons, decode_record, List.nil_append, ih, List.append_assoc]
      rfl

end Clink.Verified

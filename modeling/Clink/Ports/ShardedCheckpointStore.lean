import Clink.Ports.HaLeadership

/-!
# The snapshots of a sharded stage on disk

The embedding of `ShardedCheckpointStore`
(`include/clink/runtime/sharded_checkpoint_store.hpp`).  A snapshot is a file named by
the label of its stage and its id, written beside it first and renamed.  The newest one
is found by listing the directory: the names that begin with the label's prefix, the
number behind it read by `std::stoull`.

A file of another label, of which this one is the start, has a name that begins with
the prefix too, and `stoull` is content with a number at the start of what follows.
The directory holds just the files of the snapshots persisted (`Holds`), so what the
scan takes from it is known: the ids of the label, and the numbers that the names of
other labels begin with behind its prefix.
-/

namespace Clink.Ports.ShardedCheckpointStore

open Clink.Verified
open Clink.Ports.HaLeadership (stoull stoull_decimal)

/-! ## The store -/

abbrev Name := List Char

abbrev Bytes := List UInt8

/-- The files of a directory. -/
abbrev Directory := Name → Option Bytes

def filePrefix (label : Name) : Name := "sharded-".toList ++ label ++ ['-']

def suffix : Name := ".snap".toList

/-- `file_name_`. -/
def fileName (label : Name) (id : UInt64) : Name := filePrefix label ++ decimal id.toNat ++ suffix

def tmpName (label : Name) (id : UInt64) : Name := fileName label id ++ ".tmp".toList

/-- How `write_fsync_rename` ends: it renames, or it fails with so much of the temporary file
written, or with none. -/
inductive Fate
  | renamed
  | failed (written : Option Nat)

/-- A call of `persist` of a store with this label. -/
structure Persist where
  label : Name
  id : UInt64
  bytes : Bytes
  fate : Fate

def persist (dir : Directory) (c : Persist) : Directory × Bool :=
  if c.bytes = [] then (dir, false)
  else
    match c.fate with
    | .renamed =>
        (Function.update (Function.update dir (tmpName c.label c.id) none)
          (fileName c.label c.id) (some c.bytes), true)
    | .failed none => (dir, false)
    | .failed (some written) =>
        (Function.update dir (tmpName c.label c.id) (some (c.bytes.take written)), false)

/-- The id that the scan of a label takes from a name. -/
def idOf (label name : Name) : Option Nat :=
  if name.length ≤ (filePrefix label).length + suffix.length ∨
      (filePrefix label).isPrefixOf name = false ∨ suffix.isSuffixOf name = false then none
  else stoull ((name.drop (filePrefix label).length).take
    (name.length - (filePrefix label).length - suffix.length))

/-- The id that the scan takes from a file, none from an empty one. -/
def candidate (dir : Directory) (label name : Name) : Option Nat :=
  if (dir name).getD [] = [] then none else idOf label name

/-- One name of the scan. -/
def better (best : Option Nat) : Option Nat → Option Nat
  | none => best
  | some id => if best.all (· < id) then some id else best

/-- The best id of the names listed. -/
def scan (dir : Directory) (label : Name) (names : List Name) : Option Nat :=
  names.foldl (fun best name => better best (candidate dir label name)) none

structure Snapshot where
  checkpointId : UInt64
  bytes : Bytes

def load (dir : Directory) (label : Name) (id : UInt64) : Option Snapshot :=
  (dir (fileName label id)).map fun bytes => ⟨id, bytes⟩

/-- The names are those of the directory, in the order it lists them. -/
def loadLatest (dir : Directory) (names : List Name) (label : Name) : Option Snapshot :=
  (scan dir label names).bind fun best => load dir label (UInt64.ofNat best)

/-! ## Names -/

section Names

variable {label label' name : Name} {id id' : UInt64}

private theorem split_at_dash {x y u v : Name} (hu : '-' ∉ u) (hv : '-' ∉ v)
    (h : x ++ '-' :: u = y ++ '-' :: v) : x = y ∧ u = v := by
  have hrev := congrArg List.reverse h
  simp only [List.reverse_append, List.reverse_cons, List.append_assoc,
    List.singleton_append] at hrev
  have hleft := cutAt_append (c := '-') (mt List.mem_reverse.mp hu) x.reverse
  have hright := cutAt_append (c := '-') (mt List.mem_reverse.mp hv) y.reverse
  rw [hrev, hright] at hleft
  obtain ⟨huv, hxy⟩ := Prod.mk.inj (Option.some.inj hleft)
  exact ⟨(List.reverse_injective hxy).symm, (List.reverse_injective huv).symm⟩

theorem dash_notMem_decimal (n : Nat) : '-' ∉ decimal n := not_mem_decimal rfl

theorem fileName_inj (h : fileName label id = fileName label' id') : label = label' ∧ id = id' := by
  have hbody := List.append_cancel_right h
  unfold filePrefix at hbody
  simp only [List.append_assoc, List.singleton_append] at hbody
  obtain ⟨hlabel, hid⟩ :=
    split_at_dash (dash_notMem_decimal _) (dash_notMem_decimal _) (List.append_cancel_left hbody)
  exact ⟨hlabel, UInt64.toNat_inj.mp (decimal_injective hid)⟩

theorem suffix_tmpName (label : Name) (id : UInt64) :
    suffix.isSuffixOf (tmpName label id) = false := by
  unfold tmpName List.isSuffixOf
  rw [List.reverse_append]
  rfl

theorem tmpName_ne_fileName (label label' : Name) (id id' : UInt64) :
    tmpName label id ≠ fileName label' id' := by
  intro h
  have hsuffix : suffix.isSuffixOf (fileName label' id') = true :=
    List.isSuffixOf_iff_suffix.mpr ⟨_, rfl⟩
  rw [← h, suffix_tmpName] at hsuffix
  exact nomatch hsuffix

theorem idOf_tmpName (label label' : Name) (id : UInt64) :
    idOf label (tmpName label' id) = none := by
  unfold idOf
  exact if_pos (.inr (.inr (suffix_tmpName label' id)))

/-- The scan of a label reads its own names back. -/
theorem idOf_fileName (label : Name) (id : UInt64) :
    idOf label (fileName label id) = some id.toNat := by
  have hread : stoull (decimal id.toNat) = some id.toNat := by
    have hplain := @stoull_decimal [] id.toNat id.toNat_lt nofun
    rwa [List.append_nil] at hplain
  have hdigits := List.length_pos_of_ne_nil (decimal_ne_nil id.toNat)
  have hlen : (fileName label id).length =
      (filePrefix label).length + (decimal id.toNat).length + suffix.length := by
    unfold fileName
    rw [List.length_append, List.length_append]
  have htest : ¬ ((fileName label id).length ≤ (filePrefix label).length + suffix.length ∨
      (filePrefix label).isPrefixOf (fileName label id) = false ∨
      suffix.isSuffixOf (fileName label id) = false) := by
    rintro (hshort | hprefix | hsuffix)
    · omega
    · have htrue : (filePrefix label).isPrefixOf (fileName label id) = true :=
        List.isPrefixOf_iff_prefix.mpr ⟨_, (List.append_assoc _ _ _).symm⟩
      exact nomatch htrue.symm.trans hprefix
    · have htrue : suffix.isSuffixOf (fileName label id) = true :=
        List.isSuffixOf_iff_suffix.mpr ⟨_, rfl⟩
      exact nomatch htrue.symm.trans hsuffix
  have hbody : ((fileName label id).drop (filePrefix label).length).take
      ((fileName label id).length - (filePrefix label).length - suffix.length) =
        decimal id.toNat := by
    have hcut : (fileName label id).length - (filePrefix label).length - suffix.length =
        (decimal id.toNat).length := by omega
    rw [hcut]
    unfold fileName
    rw [List.append_assoc, List.drop_left, List.take_left]
  unfold idOf
  rw [if_neg htest, hbody, hread]

end Names

/-! ## The scan -/

section Scan

variable {dir : Directory} {label : Name} {names : List Name}

theorem scan_spec (dir : Directory) (label : Name) (names : List Name) :
    (scan dir label names = none ∧ ∀ name ∈ names, candidate dir label name = none) ∨
    ∃ best, scan dir label names = some best ∧
      (∃ name ∈ names, candidate dir label name = some best) ∧
      ∀ name ∈ names, ∀ id, candidate dir label name = some id → id ≤ best := by
  induction names using List.reverseRecOn with
  | nil => exact .inl ⟨rfl, nofun⟩
  | append_singleton names name ih =>
      have hsnoc : scan dir label (names ++ [name]) =
          better (scan dir label names) (candidate dir label name) := by
        unfold scan
        rw [List.foldl_append]
        rfl
      rw [hsnoc]
      simp only [List.mem_append, List.mem_singleton, or_imp, forall_and, forall_eq]
      cases hcand : candidate dir label name with
      | none =>
          rcases ih with ⟨hnone, hall⟩ | ⟨best, hbest, ⟨found, hfound, hid⟩, hmax⟩
          · exact .inl ⟨hnone, hall, rfl⟩
          · exact .inr ⟨best, hbest, ⟨found, .inl hfound, hid⟩, hmax, nofun⟩
      | some id =>
          rcases ih with ⟨hnone, hall⟩ | ⟨best, hbest, ⟨found, hfound, hid⟩, hmax⟩
          · refine .inr ⟨id, ?_, ⟨name, .inr rfl, hcand⟩, fun n hn j hj => ?_, fun j hj => ?_⟩
            · rw [hnone]
              rfl
            · exact nomatch (hall n hn).symm.trans hj
            · exact le_of_eq (Option.some.inj hj).symm
          · by_cases hlt : best < id
            · refine .inr ⟨id, ?_, ⟨name, .inr rfl, hcand⟩, fun n hn j hj => ?_, fun j hj => ?_⟩
              · rw [hbest]
                exact if_pos (decide_eq_true hlt)
              · exact le_trans (hmax n hn j hj) (le_of_lt hlt)
              · exact le_of_eq (Option.some.inj hj).symm
            · refine .inr ⟨best, ?_, ⟨found, .inl hfound, hid⟩, hmax, fun j hj => ?_⟩
              · rw [hbest]
                exact if_neg (by simpa using hlt)
              · exact Option.some.inj hj ▸ not_lt.mp hlt

end Scan

/-! ## Runs -/

/-- The directory, and the snapshots persisted in it, in order. -/
structure Store where
  dir : Directory := fun _ => none
  log : List (Name × Snapshot) := []

def Store.next (s : Store) (c : Persist) : Store where
  dir := (persist s.dir c).1
  log := if (persist s.dir c).2 then s.log ++ [(c.label, ⟨c.id, c.bytes⟩)] else s.log

def run (calls : List Persist) : Store := calls.foldl Store.next {}

/-- The last snapshot persisted under a label and an id. -/
def lastOf (log : List (Name × Snapshot)) (label : Name) (id : UInt64) : Option Bytes :=
  (log.reverse.find? fun e => e.1 = label ∧ e.2.checkpointId = id).map fun e => e.2.bytes

/-- The files are the last snapshots persisted and temporary ones. -/
structure Holds (s : Store) : Prop where
  files : ∀ label id, s.dir (fileName label id) = lastOf s.log label id
  names : ∀ name, s.dir name ≠ none →
    (∃ label id, name = tmpName label id) ∨ ∃ e ∈ s.log, name = fileName e.1 e.2.checkpointId
  bytes : ∀ e ∈ s.log, e.2.bytes ≠ []

theorem lastOf_snoc (log : List (Name × Snapshot)) (e : Name × Snapshot) (label : Name)
    (id : UInt64) : lastOf (log ++ [e]) label id =
      if e.1 = label ∧ e.2.checkpointId = id then some e.2.bytes else lastOf log label id := by
  unfold lastOf
  rw [List.reverse_append, List.reverse_singleton, List.singleton_append, List.find?_cons]
  by_cases h : e.1 = label ∧ e.2.checkpointId = id
  · rw [decide_eq_true h, if_pos h]
    rfl
  · rw [decide_eq_false h, if_neg h]

theorem lastOf_eq_some {log : List (Name × Snapshot)} {label : Name} {id : UInt64} {bytes : Bytes}
    (h : lastOf log label id = some bytes) : (label, ⟨id, bytes⟩) ∈ log := by
  obtain ⟨⟨l, i, b⟩, hfound, rfl⟩ := Option.map_eq_some_iff.mp h
  have htest := List.find?_some hfound
  obtain ⟨rfl, rfl⟩ := of_decide_eq_true htest
  exact List.mem_reverse.mp (List.mem_of_find?_eq_some hfound)

theorem lastOf_ne_none {log : List (Name × Snapshot)} {e : Name × Snapshot} (h : e ∈ log) :
    lastOf log e.1 e.2.checkpointId ≠ none := by
  unfold lastOf
  rw [ne_eq, Option.map_eq_none_iff, List.find?_eq_none]
  intro hnone
  exact hnone e (List.mem_reverse.mpr h) (decide_eq_true ⟨rfl, rfl⟩)

/-- A temporary file that is written or goes. -/
theorem Holds.setTmp {s : Store} (h : Holds s) (label : Name) (id : UInt64)
    (content : Option Bytes) :
    Holds { s with dir := Function.update s.dir (tmpName label id) content } where
  files label' id' := by
    rw [← h.files label' id']
    exact Function.update_of_ne (tmpName_ne_fileName _ _ _ _).symm _ _
  names name hname := by
    by_cases heq : name = tmpName label id
    · exact .inl ⟨label, id, heq⟩
    · exact h.names name fun hnone => hname ((Function.update_of_ne heq _ _).trans hnone)
  bytes := h.bytes

theorem Holds.next {s : Store} (h : Holds s) (c : Persist) : Holds (s.next c) := by
  unfold Store.next persist
  by_cases hempty : c.bytes = []
  · simp only [if_pos hempty]
    exact h
  · simp only [if_neg hempty]
    cases c.fate with
    | failed written =>
        cases written with
        | none => exact h
        | some written => exact h.setTmp c.label c.id _
    | renamed =>
        have hgone := h.setTmp c.label c.id none
        refine ⟨fun label id => ?_, fun name hname => ?_, fun e he => ?_⟩
        · rw [if_pos rfl, lastOf_snoc]
          by_cases hsame : c.label = label ∧ c.id = id
          · obtain ⟨rfl, rfl⟩ := hsame
            rw [if_pos ⟨rfl, rfl⟩]
            exact Function.update_self _ _ _
          · rw [if_neg hsame, ← hgone.files label id]
            refine Function.update_of_ne (fun heq => hsame ?_) _ _
            obtain ⟨hlabel, hid⟩ := fileName_inj heq
            exact ⟨hlabel.symm, hid.symm⟩
        · rw [if_pos rfl]
          by_cases heq : name = fileName c.label c.id
          · exact .inr ⟨_, List.mem_append_right _ (List.mem_singleton_self _), heq⟩
          · dsimp only at hname
            rw [Function.update_of_ne heq] at hname
            exact (hgone.names name hname).imp_right fun ⟨e, he, hfile⟩ =>
              ⟨e, List.mem_append_left _ he, hfile⟩
        · rw [if_pos rfl] at he
          rcases List.mem_append.mp he with he | he
          · exact h.bytes e he
          · rw [List.mem_singleton.mp he]
            exact hempty

theorem holds_run (calls : List Persist) : Holds (run calls) := by
  induction calls using List.reverseRecOn with
  | nil => exact ⟨fun _ _ => rfl, fun _ h => absurd rfl h, nofun⟩
  | append_singleton calls c ih =>
      unfold run
      rw [List.foldl_append]
      exact ih.next c

/-! ## The newest snapshot of a label -/

/-- The snapshot with the greatest id persisted under the label, none where there is none. -/
def Newest (log : List (Name × Snapshot)) (label : Name) : Option Snapshot → Prop
  | none => ∀ e ∈ log, e.1 ≠ label
  | some snap => lastOf log label snap.checkpointId = some snap.bytes ∧
      ∀ e ∈ log, e.1 = label → e.2.checkpointId ≤ snap.checkpointId

/-- No number that the scan of the label reads in the file name of another label's snapshot is
above the ids of the label's own, if it has any. -/
def Unshadowed (log : List (Name × Snapshot)) (label : Name) : Prop :=
  ∀ e ∈ log, e.1 ≠ label → ∀ k, idOf label (fileName e.1 e.2.checkpointId) = some k →
    (∃ own ∈ log, own.1 = label) → ∃ own ∈ log, own.1 = label ∧ k ≤ own.2.checkpointId.toNat

section Latest

variable {s : Store} {label name : Name} {names : List Name} {k : Nat}

private theorem stoull_lt {text : List Char} {n : Nat} (h : stoull text = some n) : n < 2 ^ 64 := by
  have hparse : ∀ {digits : List Char} {m : Nat}, parseDecimal (2 ^ 64) digits = some m →
      m < 2 ^ 64 := by
    intro digits m hm
    unfold parseDecimal at hm
    split at hm
    · rename_i htest
      obtain rfl := Option.some.inj hm
      exact htest.2.2
    · exact nomatch hm
  unfold stoull at h
  split at h
  · obtain ⟨m, -, rfl⟩ := Option.map_eq_some_iff.mp h
    exact Nat.mod_lt _ (Nat.two_pow_pos 64)
  · exact hparse h
  · exact hparse h

private theorem idOf_lt (h : idOf label name = some k) : k < 2 ^ 64 := by
  unfold idOf at h
  split at h
  · exact nomatch h
  · exact stoull_lt h

theorem Holds.candidate_of_mem (h : Holds s) {e : Name × Snapshot} (he : e ∈ s.log)
    (label : Name) :
    s.dir (fileName e.1 e.2.checkpointId) ≠ none ∧
      candidate s.dir label (fileName e.1 e.2.checkpointId) =
        idOf label (fileName e.1 e.2.checkpointId) := by
  have hfile := h.files e.1 e.2.checkpointId
  cases hlast : lastOf s.log e.1 e.2.checkpointId with
  | none => exact absurd hlast (lastOf_ne_none he)
  | some bytes =>
      have hbytes : bytes ≠ [] := h.bytes _ (lastOf_eq_some hlast)
      rw [hlast] at hfile
      unfold candidate
      rw [hfile, Option.getD_some, if_neg hbytes]
      exact ⟨nofun, rfl⟩

theorem Holds.candidate_some (h : Holds s) (hk : candidate s.dir label name = some k) :
    idOf label name = some k ∧ ∃ e ∈ s.log, name = fileName e.1 e.2.checkpointId := by
  unfold candidate at hk
  split at hk
  · exact nomatch hk
  · rename_i hfile
    have hne : s.dir name ≠ none := by
      intro hnone
      rw [hnone] at hfile
      exact hfile rfl
    rcases h.names name hne with ⟨label', id, rfl⟩ | hown
    · exact nomatch (idOf_tmpName label label' id).symm.trans hk
    · exact ⟨hk, hown⟩

private theorem Holds.newest_load (h : Holds s) {own : Name × Snapshot} (hown : own ∈ s.log)
    (hlabel : own.1 = label)
    (hmax : ∀ e ∈ s.log, e.1 = label → e.2.checkpointId ≤ own.2.checkpointId) :
    Newest s.log label (load s.dir label own.2.checkpointId) := by
  subst hlabel
  unfold load
  rw [h.files]
  cases hlast : lastOf s.log own.1 own.2.checkpointId with
  | none => exact absurd hlast (lastOf_ne_none hown)
  | some bytes => exact ⟨hlast, hmax⟩

/-- The scan of a directory that holds the snapshots persisted finds the newest one of a label if
and only if no other label's file shadows it, in whatever order the names are listed. -/
theorem load_latest_iff (calls : List Persist) (label : Name) {names : List Name}
    (hnames : ∀ name, name ∈ names ↔ (run calls).dir name ≠ none) :
    Newest (run calls).log label (loadLatest (run calls).dir names label) ↔
      Unshadowed (run calls).log label := by
  have h := holds_run calls
  generalize run calls = s at h hnames
  have hown : ∀ e ∈ s.log, e.1 = label → fileName e.1 e.2.checkpointId ∈ names ∧
      candidate s.dir label (fileName e.1 e.2.checkpointId) = some e.2.checkpointId.toNat := by
    rintro e he rfl
    obtain ⟨hfile, hcand⟩ := h.candidate_of_mem he e.1
    exact ⟨(hnames _).mpr hfile, hcand.trans (idOf_fileName _ _)⟩
  unfold loadLatest
  rcases scan_spec s.dir label names with ⟨hnone, hall⟩ | ⟨best, hbest, ⟨name, hname, hcand⟩, hmax⟩
  · -- no name is taken, so the label has no snapshot
    have hfree : ∀ e ∈ s.log, e.1 ≠ label := by
      intro e he hlabel
      obtain ⟨hmem, hsome⟩ := hown e he hlabel
      exact nomatch (hall _ hmem).symm.trans hsome
    rw [hnone]
    exact iff_of_true hfree fun _ _ _ _ _ ⟨own, hmem, hlabel⟩ => absurd hlabel (hfree own hmem)
  · obtain ⟨hid, e, he, rfl⟩ := h.candidate_some hcand
    rw [hbest, Option.bind_some]
    have hlt : (UInt64.ofNat best).toNat = best := UInt64.toNat_ofNat_of_lt' (idOf_lt hid)
    by_cases hany : ∃ own ∈ s.log, own.1 = label
    · constructor
      · intro hnewest e' he' hne k hk _
        cases hload : load s.dir label (UInt64.ofNat best) with
        | none =>
            rw [hload] at hnewest
            obtain ⟨own, hmem, hlabel⟩ := hany
            exact absurd hlabel (hnewest own hmem)
        | some snap =>
            rw [hload] at hnewest
            have hmem := lastOf_eq_some hnewest.1
            obtain ⟨bytes, -, rfl⟩ := Option.map_eq_some_iff.mp hload
            obtain ⟨hfile, hcand'⟩ := h.candidate_of_mem he' label
            refine ⟨_, hmem, rfl, ?_⟩
            dsimp only
            rw [hlt]
            exact hmax _ ((hnames _).mpr hfile) k (hcand'.trans hk)
      · intro hunshadowed
        obtain ⟨own, hmem, hlabel, hle⟩ : ∃ own ∈ s.log, own.1 = label ∧
            best ≤ own.2.checkpointId.toNat := by
          by_cases hlabel : e.1 = label
          · subst hlabel
            rw [idOf_fileName] at hid
            exact ⟨e, he, rfl, le_of_eq (Option.some.inj hid).symm⟩
          · exact hunshadowed e he hlabel best hid hany
        have hbound : ∀ e ∈ s.log, e.1 = label → e.2.checkpointId.toNat ≤ best := by
          intro e he hlabel
          obtain ⟨hlisted, hown⟩ := hown e he hlabel
          exact hmax _ hlisted _ hown
        have hsame : UInt64.ofNat best = own.2.checkpointId :=
          UInt64.toNat_inj.mp (hlt.trans (le_antisymm hle (hbound own hmem hlabel)))
        rw [hsame]
        refine h.newest_load hmem hlabel fun e he hlabel' => ?_
        rw [UInt64.le_iff_toNat_le]
        exact le_trans (hbound e he hlabel') hle
    · have hload : load s.dir label (UInt64.ofNat best) = none := by
        unfold load
        rw [h.files]
        cases hlast : lastOf s.log label (UInt64.ofNat best) with
        | none => rfl
        | some bytes => exact absurd ⟨_, lastOf_eq_some hlast, rfl⟩ hany
      rw [hload]
      exact iff_of_true (fun own hmem hlabel => hany ⟨own, hmem, hlabel⟩)
        fun _ _ _ _ _ hown => absurd hown hany

end Latest

/-! ## A label that is the start of another -/

/-- Snapshot 3 of the stage `sk`, and snapshot 1 of the stage `sk-9`. -/
def twoStages (other : Name) : List Persist :=
  [⟨"sk".toList, 3, [7], .renamed⟩, ⟨other, 1, [8], .renamed⟩]

theorem listing_twoStages (other name : Name) :
    name ∈ [fileName "sk".toList 3, fileName other 1] ↔
      (run (twoStages other)).dir name ≠ none := by
  have hdir : (run (twoStages other)).dir =
      Function.update (Function.update (Function.update (Function.update (fun _ => none)
        (tmpName "sk".toList 3) none) (fileName "sk".toList 3) (some [7])) (tmpName other 1) none)
        (fileName other 1) (some [8]) := rfl
  have htmp : ∀ label id, tmpName other 1 ≠ fileName label id :=
    fun label id => tmpName_ne_fileName other label 1 id
  rw [hdir]
  simp only [Function.update_apply, List.mem_cons, List.not_mem_nil, or_false]
  by_cases hother : name = fileName other 1
  · simp [hother]
  · by_cases hgone : name = tmpName other 1
    · simp [hgone, htmp]
    · simp [hother, hgone]

/-- A label that does not start with this one and a dash leaves it alone. -/
theorem load_latest_iff_twoStages :
    Newest (run (twoStages "sl".toList)).log "sk".toList
      (loadLatest (run (twoStages "sl".toList)).dir
        [fileName "sk".toList 3, fileName "sl".toList 1] "sk".toList) := by
  refine (load_latest_iff (twoStages "sl".toList) "sk".toList (listing_twoStages _)).mpr ?_
  have hlog : (run (twoStages "sl".toList)).log =
      [("sk".toList, ⟨3, [7]⟩), ("sl".toList, ⟨1, [8]⟩)] := rfl
  rw [hlog]
  refine List.forall_mem_cons.mpr ⟨fun hne => absurd rfl hne, List.forall_mem_singleton.mpr ?_⟩
  intro _ k hk
  have hnone : idOf "sk".toList (fileName "sl".toList 1) = none := by decide
  exact nomatch hnone.symm.trans hk

/-- The file of snapshot 1 of `sk-9` is taken for snapshot 9 of `sk`, which is not there. -/
theorem other_label_shadows :
    (∀ name, name ∈ [fileName "sk".toList 3, fileName "sk-9".toList 1] ↔
      (run (twoStages "sk-9".toList)).dir name ≠ none) ∧
    ¬ Newest (run (twoStages "sk-9".toList)).log "sk".toList
      (loadLatest (run (twoStages "sk-9".toList)).dir
        [fileName "sk".toList 3, fileName "sk-9".toList 1] "sk".toList) := by
  refine ⟨listing_twoStages _, fun hnewest => ?_⟩
  have hnone : loadLatest (run (twoStages "sk-9".toList)).dir
      [fileName "sk".toList 3, fileName "sk-9".toList 1] "sk".toList = none := by
    rw [← Option.isNone_iff_eq_none]
    decide
  rw [hnone] at hnewest
  exact hnewest ("sk".toList, ⟨3, [7]⟩) List.mem_cons_self rfl

end Clink.Ports.ShardedCheckpointStore

import Clink.Verified.Run
import Clink.Verified.Text

/-!
# Claiming checkpoint ids through the TRIGGERED record

The embedding of `record_triggered_id`
(`src/cluster/in_doubt_resolution.cpp`) over a store whose fenced write is one
critical section (`cas_write`, `src/cluster/fenced_metadata.cpp`).  A claim is
two steps on the shared record, the fenced write and, when that is refused, a
read back; the steps of any number of coordinators interleave freely.  What a
write came to, and what its caller was told, is the environment's choice: a
write that landed may be reported as refused.

The write at epoch `id - 1` lands only over a smaller id, so an id is written
once.  A refused claimant recognises its own write by the name on the record,
and the name it reads is cut at a newline and trimmed at its end.
-/

namespace Clink.Ports.TriggeredRecord

open Clink.Verified

/-! ## The record -/

def isBlank (c : Char) : Bool := c == '\r' || c == ' '

/-- `kClaimantField`. -/
def claimantField : List Char := "claimant=".toList

/-- `triggered_id_of`: the number on the first line, or 0. -/
def triggeredIdOf (body : List Char) : Nat :=
  (parseDecimal (2 ^ 64) (trimEnd isBlank (firstLine body))).getD 0

/-- `triggered_claimant_of`: the name on the second line, or nothing. -/
def triggeredClaimantOf (body : List Char) : List Char :=
  match body.dropWhile (· != '\n') with
  | [] => []
  | _ :: rest =>
      if claimantField.isPrefixOf rest then
        trimEnd isBlank (firstLine (rest.drop claimantField.length))
      else []

/-- The body `record_triggered_id` writes. -/
def triggeredBody (id : Nat) (claimant : List Char) : List Char :=
  if claimant.isEmpty then decimal id
  else decimal id ++ '\n' :: (claimantField ++ claimant ++ ['\n'])

/-- A claimant's name as a reader of the record gets it. -/
def recordedName (claimant : List Char) : List Char := trimEnd isBlank (firstLine claimant)

theorem decimal_no_newline (id : Nat) : '\n' ∉ decimal id := not_mem_decimal (by decide)

theorem isBlank_not_digit (c : Char) (h : isBlank c = true) : c.isDigit = false := by
  simp only [isBlank, Bool.or_eq_true, beq_iff_eq] at h
  rcases h with h | h
  · rw [h]
    decide
  · rw [h]
    decide

theorem triggeredIdOf_body {id : Nat} (h : id < 2 ^ 64) (claimant : List Char) :
    triggeredIdOf (triggeredBody id claimant) = id := by
  have hline : firstLine (triggeredBody id claimant) = decimal id := by
    unfold triggeredBody
    by_cases hempty : claimant.isEmpty = true
    · rw [if_pos hempty]
      exact firstLine_eq_self (decimal_no_newline id)
    · rw [if_neg hempty]
      exact firstLine_append (decimal_no_newline id) _
  rw [triggeredIdOf, hline, trimEnd_decimal isBlank_not_digit, parseDecimal_decimal h]
  rfl

theorem triggeredClaimantOf_body (id : Nat) {claimant : List Char} (h : claimant ≠ []) :
    triggeredClaimantOf (triggeredBody id claimant) = recordedName claimant := by
  have hbody : triggeredBody id claimant =
      decimal id ++ '\n' :: (claimantField ++ claimant ++ ['\n']) := by
    unfold triggeredBody
    rw [if_neg (by simpa using h)]
  have hfield : claimantField.isPrefixOf (claimantField ++ claimant ++ ['\n']) = true := by
    rw [List.isPrefixOf_iff_prefix, List.append_assoc]
    exact List.prefix_append _ _
  have hdrop : (claimantField ++ claimant ++ ['\n']).drop claimantField.length =
      claimant ++ ['\n'] := by
    rw [List.append_assoc]
    exact List.drop_left
  unfold triggeredClaimantOf
  rw [hbody, dropWhile_append_newline (decimal_no_newline id)]
  dsimp only
  rw [if_pos hfield, hdrop, firstLine_snoc_newline]
  rfl

/-- `new_id_claimant`: the epoch and what the entropy source gave, each word from its last
hexadecimal digit on. -/
def newIdClaimant (epoch : Nat) (words : Fin 4 → UInt32) : List Char :=
  "epoch".toList ++ decimal epoch ++ '-' ::
    (List.ofFn words).flatMap fun bits => (hexPadded 8 bits.toNat).reverse

/-- The name is on one line and ends in no blank. -/
theorem recordedName_newIdClaimant (epoch : Nat) (words : Fin 4 → UInt32) :
    recordedName (newIdClaimant epoch words) = newIdClaimant epoch words := by
  have hplain : ∀ c ∈ newIdClaimant epoch words, c ≠ '\n' ∧ isBlank c = false := by
    intro c hc
    rcases List.mem_append.mp hc with hc | hc
    · rcases List.mem_append.mp hc with hc | hc
      · have hall : ∀ c ∈ "epoch".toList, c ≠ '\n' ∧ isBlank c = false := by
          simp [isBlank]
        exact hall c hc
      · have hdigit := isDigit_of_mem_decimal hc
        refine ⟨fun hnewline => ?_, Bool.eq_false_of_not_eq_true fun hblank => ?_⟩
        · rw [hnewline] at hdigit
          exact absurd hdigit (by decide)
        · rw [isBlank_not_digit c hblank] at hdigit
          exact Bool.false_ne_true hdigit
    · rcases List.mem_cons.mp hc with rfl | hc
      · decide
      · obtain ⟨bits, -, hc⟩ := List.mem_flatMap.mp hc
        obtain ⟨d, hd, rfl⟩ := mem_hexPadded (List.mem_reverse.mp hc)
        have hall : ∀ d : Fin 16, hexChar d ≠ '\n' ∧ isBlank (hexChar d) = false := by decide
        exact hall ⟨d, hd⟩
  have hline : '\n' ∉ newIdClaimant epoch words := fun hc => (hplain '\n' hc).1 rfl
  rw [recordedName, firstLine_eq_self hline]
  exact trimEnd_eq_self fun c hc => (hplain c (List.mem_of_getLast? hc)).2

/-! ## The store -/

/-- `metadata_write_allowed`. -/
def metadataWriteAllowed (writerEpoch storedEpoch : Nat) : Bool := storedEpoch ≤ writerEpoch

/-- The id on record, 0 when there is none. -/
def onRecord (record : Option (List Char)) : Nat := (record.map triggeredIdOf).getD 0

/-- What becomes of a write the fence allows. -/
inductive PutFate where
  | reported
  /-- It landed and its caller is told it was refused. -/
  | unreported
  /-- It did not land and its caller is told it was refused. -/
  | lost
  | threw (landed : Bool)

inductive PutReply where
  | landed
  | refused
  | failed

/-- `fenced_put_quietly` over one record: the fence and the write are one
critical section. -/
def fencedPutQuietly (record : Option (List Char)) (body : List Char) (writerEpoch : Nat)
    (fate : PutFate) : Option (List Char) × PutReply :=
  if metadataWriteAllowed writerEpoch (onRecord record) then
    match fate with
    | .reported => (some body, .landed)
    | .unreported => (some body, .refused)
    | .lost => (record, .refused)
    | .threw landed => (if landed then some body else record, .failed)
  else
    match fate with
    | .threw _ => (record, .failed)
    | _ => (record, .refused)

/-! ## `record_triggered_id` -/

/-- `TriggeredIdClaim`. -/
structure TriggeredIdClaim where
  claimed : Bool
  onRecord : Nat

/-- How far a call has come. -/
inductive Outcome where
  | returned (claim : TriggeredIdClaim)
  | threw
  /-- The write was refused, and the read back is still to come. -/
  | refused

def Outcome.isRefused : Outcome → Bool
  | .refused => true
  | _ => false

/-- The first half: the fenced write. -/
def claimWrite (record : Option (List Char)) (id : Nat) (claimant : List Char)
    (fate : PutFate) : Option (List Char) × Outcome :=
  if id = 0 then (record, .threw)
  else
    match fencedPutQuietly record (triggeredBody id claimant) (id - 1) fate with
    | (record, .landed) => (record, .returned { claimed := true, onRecord := id })
    | (record, .refused) => (record, .refused)
    | (record, .failed) => (record, .threw)

/-- The second half: what a refused claimant finds on record. -/
def claimReadBack (found : Option (List Char)) (id : Nat) (claimant : List Char) : Outcome :=
  if onRecord found < id then .threw
  else if onRecord found == id && !claimant.isEmpty &&
      triggeredClaimantOf (found.getD []) == claimant then
    .returned { claimed := true, onRecord := id }
  else .returned { claimed := false, onRecord := onRecord found }

/-! ## Interleaved claims -/

/-- One record and the refused claims that have not read it back yet. -/
structure Shared where
  record : Option (List Char)
  refused : List (List Char × Nat) := []

inductive Event where
  | write (claimant : List Char) (id : Nat) (fate : PutFate)
  | readBack (claimant : List Char) (id : Nat)

def Event.claimant : Event → List Char
  | .write claimant _ _ => claimant
  | .readBack claimant _ => claimant

def Event.id : Event → Nat
  | .write _ id _ => id
  | .readBack _ id => id

/-- Where the event leaves the call it belongs to. -/
def outcome (s : Shared) : Event → Outcome
  | .write claimant id fate => (claimWrite s.record id claimant fate).2
  | .readBack claimant id => claimReadBack s.record id claimant

def next (s : Shared) : Event → Shared
  | .write claimant id fate =>
      { record := (claimWrite s.record id claimant fate).1
        refused :=
          if (claimWrite s.record id claimant fate).2.isRefused then (claimant, id) :: s.refused
          else s.refused }
  | .readBack claimant id => { s with refused := s.refused.erase (claimant, id) }

/-- A claim is made under a non-empty name for a 64-bit id, and reads the
record back after its write was refused. -/
def Proper (_ : List Event) (s : Shared) : Event → Prop
  | .write claimant id _ => claimant ≠ [] ∧ id < 2 ^ 64
  | .readBack claimant id => claimant ≠ [] ∧ (claimant, id) ∈ s.refused

/-- The claimant and the id of a call that is told `claimed`. -/
def toldClaimed (s : Shared) (e : Event) : Option (List Char × Nat) :=
  match outcome s e with
  | .returned claim => if claim.claimed then some (e.claimant, e.id) else none
  | _ => none

/-- Everyone ever told `claimed`, with the id. -/
def told (record : Option (List Char)) (es : List Event) : List (List Char × Nat) :=
  (answers next toldClaimed { record } es).filterMap id

/-! ## One step -/

/-- The body on record names this claimant. -/
def Names (body claimant : List Char) (id : Nat) : Prop :=
  triggeredClaimantOf body = claimant ∨ body = triggeredBody id claimant

theorem claimWrite_cases (record : Option (List Char)) {id : Nat} (hid : id < 2 ^ 64)
    (claimant : List Char) (fate : PutFate) :
    ((claimWrite record id claimant fate).1 = record ∧
      ∀ claim, (claimWrite record id claimant fate).2 ≠ .returned claim) ∨
      ((claimWrite record id claimant fate).1 = some (triggeredBody id claimant) ∧
        onRecord record < id) := by
  unfold claimWrite
  by_cases hzero : id = 0
  · rw [if_pos hzero]
    exact .inl ⟨rfl, fun claim => by simp⟩
  rw [if_neg hzero]
  unfold fencedPutQuietly
  by_cases hfence : metadataWriteAllowed (id - 1) (onRecord record) = true
  · have hlt : onRecord record < id := by
      simp only [metadataWriteAllowed, decide_eq_true_eq] at hfence
      omega
    rw [if_pos hfence]
    cases fate with
    | reported => exact .inr ⟨rfl, hlt⟩
    | unreported => exact .inr ⟨rfl, hlt⟩
    | lost => exact .inl ⟨rfl, fun claim => by simp⟩
    | threw landed =>
        cases landed with
        | true => exact .inr ⟨rfl, hlt⟩
        | false => exact .inl ⟨rfl, fun claim => by simp⟩
  · rw [if_neg hfence]
    cases fate with
    | threw landed => exact .inl ⟨rfl, fun claim => by simp⟩
    | reported | unreported | lost => exact .inl ⟨rfl, fun claim => by simp⟩

variable {s : Shared} {e : Event}

private theorem toldClaimed_eq_some {told : List Char × Nat} (h : toldClaimed s e = some told) :
    told = (e.claimant, e.id) ∧ ∃ claim, outcome s e = .returned claim ∧ claim.claimed = true := by
  unfold toldClaimed at h
  cases hout : outcome s e with
  | returned claim =>
      rw [hout] at h
      cases hclaimed : claim.claimed with
      | true =>
          simp only [hclaimed, if_true, Option.some.injEq] at h
          exact ⟨h.symm, claim, rfl, hclaimed⟩
      | false => simp [hclaimed] at h
  | threw | refused => simp [hout] at h

/-- A refused claimant is told `claimed` only by its own name on the record. -/
theorem claimReadBack_claimed {found : Option (List Char)} {id : Nat}
    {claimant : List Char} {claim : TriggeredIdClaim}
    (h : claimReadBack found id claimant = .returned claim) (hclaimed : claim.claimed = true) :
    onRecord found = id ∧ triggeredClaimantOf (found.getD []) = claimant := by
  unfold claimReadBack at h
  by_cases hlt : onRecord found < id
  · rw [if_pos hlt] at h
    exact absurd h (by simp)
  · rw [if_neg hlt] at h
    by_cases hown : (onRecord found == id && !claimant.isEmpty &&
        triggeredClaimantOf (found.getD []) == claimant) = true
    · simp only [Bool.and_eq_true, beq_iff_eq] at hown
      exact ⟨hown.1.1, hown.2⟩
    · rw [if_neg hown] at h
      injection h with h
      rw [← h] at hclaimed
      exact absurd hclaimed (by simp)

/-! ## Every interleaving -/

/-- Nobody was told an id above the record, two claimants were never told one
id, and the record names whoever was told its id. -/
structure Exclusive (record : Option (List Char)) (es : List Event) (s : Shared) :
    Prop where
  reached : ∀ claimant id, (claimant, id) ∈ told record es → id ≤ onRecord s.record
  single : ∀ a b id, (a, id) ∈ told record es → (b, id) ∈ told record es → a = b
  named : ∀ claimant id body, (claimant, id) ∈ told record es → s.record = some body →
    triggeredIdOf body = id → Names body claimant id
  made : ∀ claimant id, (claimant, id) ∈ told record es →
    claimant ≠ [] ∧ claimant ∈ es.map Event.claimant

variable {es : List Event}

theorem onRecord_mono (hok : Proper es s e) : onRecord s.record ≤ onRecord (next s e).record := by
  cases e with
  | readBack claimant id => exact le_refl _
  | write claimant id fate =>
      show onRecord s.record ≤ onRecord (claimWrite s.record id claimant fate).1
      rcases claimWrite_cases s.record hok.2 claimant fate with ⟨heq, -⟩ | ⟨heq, hlt⟩
      · rw [heq]
      · rw [heq]
        show onRecord s.record ≤ triggeredIdOf (triggeredBody id claimant)
        rw [triggeredIdOf_body hok.2]
        exact le_of_lt hlt

variable {record : Option (List Char)}

private theorem told_snoc {ok : List Event → Shared → Event → Prop}
    (h : Runs next ok { record } es s) (e : Event) :
    told record (es ++ [e]) = told record es ++ (toldClaimed s e).toList := by
  rw [told, h.answers_snoc, List.filterMap_append]
  cases htold : toldClaimed s e <;> simp [told]

/-- What is told grows by the caller of the last event at most. -/
theorem told_cases (h : Runs next Proper { record } es s) (e : Event) {claimant : List Char}
    {id : Nat} (hmem : (claimant, id) ∈ told record (es ++ [e])) :
    (claimant, id) ∈ told record es ∨
      (claimant = e.claimant ∧ id = e.id ∧
        ∃ claim, outcome s e = .returned claim ∧ claim.claimed = true) := by
  rw [told_snoc h, List.mem_append] at hmem
  rcases hmem with hmem | hmem
  · exact .inl hmem
  · rw [Option.mem_toList] at hmem
    rcases toldClaimed_eq_some hmem with ⟨heq, hclaim⟩
    rw [Prod.mk.injEq] at heq
    exact .inr ⟨heq.1, heq.2, hclaim⟩

theorem Exclusive.made_snoc (h : Exclusive record es s) (hrun : Runs next Proper { record } es s)
    (hpos : e.claimant ≠ []) :
    ∀ claimant id, (claimant, id) ∈ told record (es ++ [e]) →
      claimant ≠ [] ∧ claimant ∈ (es ++ [e]).map Event.claimant := by
  intro claimant id hmem
  rw [List.map_append, List.mem_append]
  rcases told_cases hrun e hmem with hmem | ⟨hclaimant, -⟩
  · rcases h.made claimant id hmem with ⟨hne, hin⟩
    exact ⟨hne, .inl hin⟩
  · rw [hclaimant]
    exact ⟨hpos, .inr (by simp)⟩

/-- A landed write is over every id anyone was told. -/
theorem Exclusive.write (h : Exclusive record es s) (hrun : Runs next Proper { record } es s)
    (hpos : e.claimant ≠ []) (hlt : onRecord s.record < e.id) (hid : e.id < 2 ^ 64)
    (hrecord : (next s e).record = some (triggeredBody e.id e.claimant)) :
    Exclusive record (es ++ [e]) (next s e) := by
  have hon : onRecord (next s e).record = e.id := by
    rw [hrecord]
    exact triggeredIdOf_body hid e.claimant
  have hmem : ∀ {claimant id}, (claimant, id) ∈ told record (es ++ [e]) →
      ((claimant, id) ∈ told record es ∧ id < e.id) ∨ (claimant = e.claimant ∧ id = e.id) := by
    intro claimant id hmem
    rcases told_cases hrun e hmem with hmem | ⟨hclaimant, heq, -⟩
    · exact .inl ⟨hmem, lt_of_le_of_lt (h.reached claimant id hmem) hlt⟩
    · exact .inr ⟨hclaimant, heq⟩
  constructor
  · intro claimant id hc
    rw [hon]
    rcases hmem hc with ⟨-, hlt⟩ | ⟨-, heq⟩
    · exact le_of_lt hlt
    · exact le_of_eq heq
  · intro a b id ha hb
    rcases hmem ha with ⟨ha, hlta⟩ | ⟨ha, hida⟩
    · rcases hmem hb with ⟨hb, -⟩ | ⟨-, hidb⟩
      · exact h.single a b id ha hb
      · omega
    · rcases hmem hb with ⟨-, hltb⟩ | ⟨hb, -⟩
      · omega
      · rw [ha, hb]
  · intro claimant id body hc hbody hidbody
    rw [hrecord, Option.some.injEq] at hbody
    rw [← hbody, triggeredIdOf_body hid] at hidbody
    rcases hmem hc with ⟨-, hlt⟩ | ⟨hclaimant, -⟩
    · omega
    · rw [← hbody, hclaimant, ← hidbody]
      exact .inr rfl
  · exact h.made_snoc hrun hpos

/-- A step that leaves the record alone tells an id only to the claimant the
record names. -/
theorem Exclusive.keep (h : Exclusive record es s) (hrun : Runs next Proper { record } es s)
    (hpos : e.claimant ≠ []) (hrecord : (next s e).record = s.record)
    (hclaimed : ∀ claim, outcome s e = .returned claim → claim.claimed = true →
      onRecord s.record = e.id ∧ triggeredClaimantOf (s.record.getD []) = e.claimant)
    (hnames : ∀ other ∈ es.map Event.claimant, other ≠ e.claimant →
      recordedName other ≠ e.claimant) :
    Exclusive record (es ++ [e]) (next s e) := by
  have hother : ∀ {other}, (other, e.id) ∈ told record es →
      (∃ claim, outcome s e = .returned claim ∧ claim.claimed = true) → other = e.claimant := by
    intro other hmem hclaim
    rcases hclaim with ⟨claim, hout, hc⟩
    rcases hclaimed claim hout hc with ⟨hon, hname⟩
    rcases h.made other e.id hmem with ⟨hne, hin⟩
    cases hbody : s.record with
    | none =>
        rw [hbody] at hname
        exact absurd hname.symm hpos
    | some body =>
        rw [hbody] at hname hon
        rcases h.named other e.id body hmem hbody hon with hnamed | hwrote
        · exact hnamed.symm.trans hname
        · by_contra hdiff
          refine hnames other hin hdiff ?_
          rw [← triggeredClaimantOf_body e.id hne, ← hwrote]
          exact hname
  constructor
  · intro claimant id hc
    rw [hrecord]
    rcases told_cases hrun e hc with hc | ⟨-, hid, claim, hout, hcl⟩
    · exact h.reached claimant id hc
    · rw [hid, (hclaimed claim hout hcl).1]
  · intro a b id ha hb
    rcases told_cases hrun e ha with ha | ⟨ha, hida, hclaim⟩
    · rcases told_cases hrun e hb with hb | ⟨hb, hidb, hclaim⟩
      · exact h.single a b id ha hb
      · rw [hb]
        exact hother (hidb ▸ ha) hclaim
    · rcases told_cases hrun e hb with hb | ⟨hb, -⟩
      · rw [ha]
        exact (hother (hida ▸ hb) hclaim).symm
      · rw [ha, hb]
  · intro claimant id body hc hbody hidbody
    rw [hrecord] at hbody
    rcases told_cases hrun e hc with hc | ⟨hclaimant, hid, claim, hout, hcl⟩
    · exact h.named claimant id body hc hbody hidbody
    · left
      have hname := (hclaimed claim hout hcl).2
      rw [hbody] at hname
      rw [hclaimant]
      exact hname
  · exact h.made_snoc hrun hpos

private theorem exclusive_of_runs (h : Runs next Proper { record } es s) :
    (∀ a ∈ es.map Event.claimant, ∀ b ∈ es.map Event.claimant, a ≠ b → recordedName a ≠ b) →
      Exclusive record es s := by
  refine h.induct (I := fun es s =>
    (∀ a ∈ es.map Event.claimant, ∀ b ∈ es.map Event.claimant, a ≠ b → recordedName a ≠ b) →
      Exclusive record es s) ?_ ?_
  · intro _
    constructor <;> simp [told]
  · intro es s e hrun ih hok hnames
    rw [List.map_append] at hnames
    have hex := ih fun a ha b hb =>
      hnames a (List.mem_append_left _ ha) b (List.mem_append_left _ hb)
    have hothers : ∀ other ∈ es.map Event.claimant, other ≠ e.claimant →
        recordedName other ≠ e.claimant := by
      intro other hin
      exact hnames other (List.mem_append_left _ hin) e.claimant (by simp)
    cases e with
    | write claimant id fate =>
        rcases claimWrite_cases s.record hok.2 claimant fate with ⟨heq, hnone⟩ | ⟨heq, hlt⟩
        · exact hex.keep hrun hok.1 heq (fun claim hout _ => absurd hout (hnone claim)) hothers
        · exact hex.write hrun hok.1 hlt hok.2 heq
    | readBack claimant id =>
        exact hex.keep hrun hok.1 rfl (fun claim hout hcl => claimReadBack_claimed hout hcl)
          hothers

/-- Under any interleaving of claims by claimants none of whose names reads
back as another's, an id is claimed by one claimant only, and the id on record
never decreases. -/
theorem triggered_ids_claimed_once {record : Option (List Char)} {es : List Event} {s : Shared}
    (h : Runs next Proper { record } es s)
    (hnames : ∀ a ∈ es.map Event.claimant, ∀ b ∈ es.map Event.claimant,
      a ≠ b → recordedName a ≠ b) :
    (∀ a b id, (a, id) ∈ told record es → (b, id) ∈ told record es → a = b) ∧
      ∀ pre mid post, es = pre ++ mid ++ post →
        onRecord (pre.foldl next { record }).record ≤
          onRecord ((pre ++ mid).foldl next { record }).record := by
  constructor
  · exact (exclusive_of_runs h hnames).single
  · intro pre mid post hes
    rw [hes] at h
    have hrun := h.start
    clear h hes hnames post
    induction mid using List.reverseRecOn with
    | nil =>
        rw [List.append_nil]
    | append_singleton mid e ih =>
        rw [← List.append_assoc] at hrun ⊢
        rcases hrun.split rfl with ⟨t, hrun', hok, -⟩
        have hle := ih (hrun'.state_eq ▸ hrun')
        have hlast : (pre ++ mid ++ [e]).foldl next { record } = next t e := by
          rw [List.foldl_append, ← hrun'.state_eq]
          rfl
        rw [hlast]
        rw [← hrun'.state_eq] at hle
        exact le_trans hle (onRecord_mono hok)

instance (es : List Event) (s : Shared) : ∀ e, Decidable (Proper es s e)
  | .write _ _ _ => inferInstanceAs (Decidable (_ ∧ _))
  | .readBack _ _ => inferInstanceAs (Decidable (_ ∧ _))

def firstName : List Char := newIdClaimant 1 fun _ => 0x2f

def secondName : List Char := newIdClaimant 2 fun _ => 0x3a

/-- Two coordinators claim id 1.  The first one's write lands and is reported as refused. -/
def twoClaims : List Event :=
  [.write firstName 1 .unreported, .write secondName 1 .reported, .readBack secondName 1,
    .readBack firstName 1]

/-- The first coordinator finds its own name on the record, the second does not. -/
theorem triggered_ids_two_coordinators :
    told none twoClaims = [(firstName, 1)] ∧
      ∀ a b id, (a, id) ∈ told none twoClaims → (b, id) ∈ told none twoClaims → a = b := by
  have hrun : Runs next Proper { record := none } twoClaims _ :=
    .of_allowed (by decide)
  have hmade : ∀ a ∈ twoClaims.map Event.claimant, recordedName a = a := by
    intro a ha
    have hname : a = firstName ∨ a = secondName ∨ a = firstName := by
      simpa [twoClaims, Event.claimant] using ha
    rcases hname with rfl | rfl | rfl <;> exact recordedName_newIdClaimant _ _
  refine ⟨by decide +kernel, (triggered_ids_claimed_once hrun ?_).1⟩
  intro a ha b _ hne
  rw [hmade a ha]
  exact hne

/-- The names `a` and `a` followed by a space are distinct, but the second
reads back as the first: both are told that id 1 is theirs. -/
theorem trailing_blank_claims_twice :
    ∃ es s, Runs next Proper { record := none } es s ∧
      (['a', ' '], 1) ∈ told none es ∧ (['a'], 1) ∈ told none es := by
  have hrun : Runs next Proper { record := none }
      [.write ['a', ' '] 1 .reported, .write ['a'] 1 .reported, .readBack ['a'] 1] _ :=
    .of_allowed (by decide)
  exact ⟨_, _, hrun, by decide, by decide⟩

end Clink.Ports.TriggeredRecord

import Clink.Ports.MultiInputAlignment

/-!
# What a call can do to the pending barriers

Every barrier method of the aligner is a composition of four moves on what is
pending and who delivered it:

* an input goes past an id (`passed` moves up);
* a set of pending ids is *forgotten* and the inputs waiting on them are
  released (`Forgets`) — the skipped ids of `drop_passed_by_`, and the one
  completed id of `check_alignment_`;
* one delivery is *recorded* and its input paused (`Records`);
* an input *closes* (`Closes`).

The lemmas here read each method as such moves, for an aligner that captures
nothing in flight, and are the only place where the maps and bitmaps of the
source are unfolded.  The invariants of the later modules are shown for the
moves.
-/

namespace Clink.Ports.MultiInputAlignment

namespace Alignment

variable {a a' : Alignment} {i j id ck : Nat} {b : CheckpointBarrier}

/-- Input `j` is a member that has not closed. -/
def Alive (a : Alignment) (j : Nat) : Prop := j < a.inputCount ∧ a.closed j = false

/-- Some delivery of the barrier is on record and it has not been forwarded. -/
def Pending (a : Alignment) (id : Nat) : Prop := id ∈ a.seenBarriers

/-- The record of the pending barrier `id` has input `j`. -/
def Delivered (a : Alignment) (id j : Nat) : Prop :=
  ∃ flags, a.seenBarriers.lookup id = some flags ∧ flags.bit j = true

/-- The id is not marked terminal. -/
def NonTerminal (a : Alignment) (id : Nat) : Prop := a.seenTerminal.lookup id ≠ some true

/-- Every alive input has delivered the barrier. -/
def Complete (a : Alignment) (id : Nat) : Prop := ∀ j, a.Alive j → a.Delivered id j

/-- Every bitmap has one flag per input, and nothing is captured in flight. -/
structure Sized (a : Alignment) : Prop where
  size : ∀ id flags, a.seenBarriers.lookup id = some flags → flags.size = a.inputCount
  captures : a.capturesInFlight = false

instance (a : Alignment) (j : Nat) : Decidable (a.Alive j) :=
  inferInstanceAs (Decidable (_ ∧ _))

instance (a : Alignment) (id : Nat) : Decidable (a.Pending id) :=
  inferInstanceAs (Decidable (id ∈ a.seenBarriers))

instance (a : Alignment) (id j : Nat) : Decidable (a.Delivered id j) :=
  decidable_of_iff ((a.seenBarriers.lookup id).any (·.bit j) = true) (by
    unfold Delivered
    cases a.seenBarriers.lookup id <;> simp)

instance (a : Alignment) (p : Nat → Prop) [DecidablePred p] :
    Decidable (∀ j, a.Alive j → p j) :=
  decidable_of_iff (∀ j < a.inputCount, a.closed j = false → p j) (by simp [Alive])

instance (a : Alignment) (p : Nat → Prop) [DecidablePred p] :
    Decidable (∃ j, a.Alive j ∧ p j) :=
  decidable_of_iff (∃ j < a.inputCount, a.closed j = false ∧ p j) (by simp [Alive, and_assoc])

instance (a : Alignment) (p : Nat → Prop) [DecidablePred p] :
    Decidable (∀ id, a.Pending id → p id) :=
  decidable_of_iff (∀ id ∈ a.seenBarriers.keys, p id) (by simp [Pending, AList.mem_keys])

theorem pending_iff : a.Pending id ↔ ∃ flags, a.seenBarriers.lookup id = some flags := by
  rw [Pending, ← AList.lookup_isSome, Option.isSome_iff_exists]

theorem Delivered.pending (h : a.Delivered id j) : a.Pending id := by
  rcases h with ⟨flags, hflags, -⟩
  exact pending_iff.mpr ⟨flags, hflags⟩

/-- The fields that membership and passing read are unchanged. -/
structure SameInputs (a a' : Alignment) : Prop where
  inputCount : a'.inputCount = a.inputCount
  closed : a'.closed = a.closed
  passed : a'.passed = a.passed
  captures : a'.capturesInFlight = a.capturesInFlight

theorem SameInputs.refl (a : Alignment) : SameInputs a a := ⟨rfl, rfl, rfl, rfl⟩

theorem SameInputs.trans {a'' : Alignment} (h : SameInputs a a') (h' : SameInputs a' a'') :
    SameInputs a a'' :=
  ⟨h'.inputCount.trans h.inputCount, h'.closed.trans h.closed, h'.passed.trans h.passed,
    h'.captures.trans h.captures⟩

theorem SameInputs.alive_iff (h : SameInputs a a') : a'.Alive j ↔ a.Alive j := by
  unfold Alive
  rw [h.inputCount, h.closed]

/-! ## The moves -/

/-- The ids in `gone` are no longer pending, and an alive input that was
waiting on one of them is released. -/
structure Forgets (a a' : Alignment) (gone : Nat → Prop) : Prop where
  same : SameInputs a a'
  lookup : ∀ id, ¬ gone id → a'.seenBarriers.lookup id = a.seenBarriers.lookup id
  lookup_gone : ∀ id, gone id → a'.seenBarriers.lookup id = none
  terminal : ∀ id, ¬ gone id → a'.seenTerminal.lookup id = a.seenTerminal.lookup id
  paused : ∀ j, a.Alive j →
    (a'.paused j = true ↔ a.paused j = true ∧ ¬ ∃ id, gone id ∧ a.Delivered id j)

variable {gone : Nat → Prop}

theorem Forgets.pending_iff (h : Forgets a a' gone) : a'.Pending id ↔ a.Pending id ∧ ¬ gone id := by
  by_cases hg : gone id
  · simp [Alignment.pending_iff, h.lookup_gone id hg, hg]
  · simp [Alignment.pending_iff, h.lookup id hg, hg]

theorem Forgets.delivered_iff (h : Forgets a a' gone) :
    a'.Delivered id j ↔ a.Delivered id j ∧ ¬ gone id := by
  by_cases hg : gone id
  · simp [Delivered, h.lookup_gone id hg, hg]
  · simp [Delivered, h.lookup id hg, hg]

theorem Forgets.nonTerminal_iff (h : Forgets a a' gone) (hg : ¬ gone id) :
    a'.NonTerminal id ↔ a.NonTerminal id := by
  rw [NonTerminal, NonTerminal, h.terminal id hg]

theorem Forgets.sized (h : Forgets a a' gone) (ha : a.Sized) :
    a'.Sized where
  size id flags hflags := by
    by_cases hg : gone id
    · rw [h.lookup_gone id hg] at hflags
      simp at hflags
    · rw [h.lookup id hg] at hflags
      rw [h.same.inputCount]
      exact ha.size id flags hflags
  captures := by rw [h.same.captures, ha.captures]

/-- The delivery of `b` by input `i` is on record, and the input paused. -/
structure Records (a a' : Alignment) (i : Nat) (b : CheckpointBarrier) : Prop where
  same : SameInputs a a'
  sized : a'.Sized
  pending : ∀ id, a'.Pending id ↔ a.Pending id ∨ id = b.id
  delivered : ∀ id j, a'.Delivered id j ↔ a.Delivered id j ∨ (id = b.id ∧ j = i)
  terminal : ∀ id, id ≠ b.id → a'.seenTerminal.lookup id = a.seenTerminal.lookup id
  terminal_self : a'.seenTerminal.lookup b.id =
    if b.isTerminal then (if a.Pending b.id then a.seenTerminal.lookup b.id else some true)
    else some false
  paused : ∀ j, a'.paused j = true ↔ a.paused j = true ∨ j = i

/-- A terminal delivery leaves a pending id as it is marked. -/
theorem Records.nonTerminal_self (h : Records a a' i b) (hb : b.isTerminal = true) :
    a'.NonTerminal b.id ↔ a.Pending b.id ∧ a.NonTerminal b.id := by
  rw [NonTerminal, h.terminal_self, if_pos hb]
  by_cases hp : a.Pending b.id
  · simp [hp, NonTerminal]
  · simp [hp]

theorem Records.nonTerminal_of (h : Records a a' i b) (hp : a.Pending id)
    (hn : a.NonTerminal id) : a'.NonTerminal id := by
  by_cases hid : id = b.id
  · subst hid
    cases hb : b.isTerminal with
    | true => exact (h.nonTerminal_self hb).mpr ⟨hp, hn⟩
    | false => simp [NonTerminal, h.terminal_self, hb]
  · rw [NonTerminal, h.terminal id hid]
    exact hn

/-- Input `i` is no longer alive and nothing else changed. -/
structure Closes (a a' : Alignment) (i : Nat) : Prop where
  inputCount : a'.inputCount = a.inputCount
  closed : ∀ j, a'.closed j = true ↔ a.closed j = true ∨ j = i
  passed : a'.passed = a.passed
  captures : a'.capturesInFlight = a.capturesInFlight
  seenBarriers : a'.seenBarriers = a.seenBarriers
  seenTerminal : a'.seenTerminal = a.seenTerminal
  paused : a'.paused = a.paused

/-! ## Forgetting -/

theorem eraseSeen_lookup (a : Alignment) (id ck : Nat) :
    (a.eraseSeen ck).seenBarriers.lookup id =
      if id = ck then none else a.seenBarriers.lookup id := by
  by_cases h : id = ck
  · rw [if_pos h, h]
    exact AList.lookup_erase ck a.seenBarriers
  · rw [if_neg h]
    exact AList.lookup_erase_ne h

theorem eraseSeen_terminal (a : Alignment) (h : id ≠ ck) :
    (a.eraseSeen ck).seenTerminal.lookup id = a.seenTerminal.lookup id :=
  AList.lookup_erase_ne h

theorem Forgets.trans {a'' : Alignment} {gone' : Nat → Prop} (h : Forgets a a' gone)
    (h' : Forgets a' a'' gone') :
    Forgets a a'' fun id => gone id ∨ gone' id where
  same := h.same.trans h'.same
  lookup id hid := by
    rw [not_or] at hid
    rw [h'.lookup id hid.2, h.lookup id hid.1]
  lookup_gone id hid := by
    by_cases hg : gone' id
    · exact h'.lookup_gone id hg
    · rw [h'.lookup id hg]
      exact h.lookup_gone id (hid.resolve_right hg)
  terminal id hid := by
    rw [not_or] at hid
    rw [h'.terminal id hid.2, h.terminal id hid.1]
  paused j hj := by
    rw [h'.paused j (h.same.alive_iff.mpr hj), h.paused j hj]
    constructor
    · intro hp
      rcases hp with ⟨⟨hp, hnot⟩, hnot'⟩
      refine ⟨hp, ?_⟩
      rintro ⟨id, hg | hg, hd⟩
      · exact hnot ⟨id, hg, hd⟩
      · by_cases hgid : gone id
        · exact hnot ⟨id, hgid, hd⟩
        · exact hnot' ⟨id, hg, h.delivered_iff.mpr ⟨hd, hgid⟩⟩
    · intro hp
      rcases hp with ⟨hp, hnot⟩
      refine ⟨⟨hp, ?_⟩, ?_⟩
      · rintro ⟨id, hg, hd⟩
        exact hnot ⟨id, .inl hg, hd⟩
      · rintro ⟨id, hg, hd⟩
        exact hnot ⟨id, .inr hg, (h.delivered_iff.mp hd).1⟩

theorem Forgets.nothing (a : Alignment) : Forgets a a fun _ => False where
  same := .refl a
  lookup _ _ := rfl
  lookup_gone _ h := h.elim
  terminal _ _ := rfl
  paused j _ := by simp

theorem Forgets.congr {gone' : Nat → Prop} (h : Forgets a a' gone)
    (hiff : ∀ id, gone id ↔ gone' id) : Forgets a a' gone' := by
  have heq : gone = gone' := funext fun id => propext (hiff id)
  rw [← heq]
  exact h

section

variable (ha : a.Sized)
include ha

theorem forgets_dropPending (ck : Nat) :
    Forgets a (a.dropPending ck) (· = ck) where
  same := ⟨rfl, rfl, rfl, rfl⟩
  lookup id hid := by
    have h := eraseSeen_lookup a id ck
    rwa [if_neg hid] at h
  lookup_gone id hid := by
    have h := eraseSeen_lookup a id ck
    rwa [if_pos hid] at h
  terminal id hid := eraseSeen_terminal a hid
  paused j hj := by
    rcases hj with ⟨hlt, hclosed⟩
    cases hck : a.seenBarriers.lookup ck with
    | none => simp [dropPending, hck, Delivered]
    | some flags =>
        have hsize := ha.size ck flags hck
        by_cases hbit : flags.bit j = true
        · simp [dropPending, hck, hsize, hlt, hclosed, hbit, Delivered]
        · simp [dropPending, hck, hsize, hlt, hclosed, hbit, Delivered]

/-- Dropping a list of ids forgets exactly those. -/
theorem forgets_foldl_dropPending (ids : List Nat) :
    Forgets a (ids.foldl dropPending a) (· ∈ ids) := by
  induction ids generalizing a with
  | nil => exact (Forgets.nothing a).congr (by simp)
  | cons ck ids ih =>
      have hone := forgets_dropPending ha ck
      refine (hone.trans (ih (hone.sized ha))).congr fun id => ?_
      rw [List.mem_cons]

theorem passedBy_iff (hi : i < a.inputCount) :
    a.passedBy i ck id = true ↔
      a.Pending id ∧ id < ck ∧ ¬ a.Delivered id i ∧ a.NonTerminal id := by
  unfold passedBy
  cases hid : a.seenBarriers.lookup id with
  | none => simp [pending_iff, hid]
  | some flags =>
      have hsize := ha.size id flags hid
      simp [pending_iff, hid, Delivered, NonTerminal, forwardsOnFirstDelivery,
        ha.captures, hsize, hi, and_assoc]

theorem forgets_dropPassedBy (hi : i < a.inputCount) (ck : Nat) :
    Forgets a (a.dropPassedBy i ck) fun id =>
      a.Pending id ∧ id < ck ∧ ¬ a.Delivered id i ∧ a.NonTerminal id := by
  refine (forgets_foldl_dropPending ha _).congr fun id => ?_
  rw [List.mem_insertionSort, List.mem_filter, passedBy_iff ha hi]
  constructor
  · exact fun h => h.2
  · exact fun h => ⟨h.1, h⟩

/-! ## Completing -/

/-- The barrier `id` was pending and complete, and `r` forwards it. -/
structure Forwards (a : Alignment) (r : Alignment × BarrierAdvance) (id : Nat) : Prop where
  pending : a.Pending id
  complete : a.Complete id
  forgets : Forgets a r.1 (· = id)
  forward : r.2.forward = true
  barrier : r.2.barrier.id = id

theorem allDelivered_iff {flags : Bitmap} (h : a.seenBarriers.lookup id = some flags) :
    a.allDelivered flags = true ↔ a.Complete id := by
  have hsize := ha.size id flags h
  simp only [allDelivered, hsize, List.all_eq_true, List.mem_range, Bool.or_eq_true,
    Complete, Alive, Delivered, h]
  constructor
  · intro hall j hj
    exact ⟨flags, rfl, (hall j hj.1).resolve_left (by simp [hj.2])⟩
  · intro hall j hj
    cases hc : a.closed j with
    | true => exact .inl rfl
    | false =>
        rcases hall j ⟨hj, hc⟩ with ⟨flags', heq, hbit⟩
        rw [Option.some.inj heq]
        exact .inr hbit

theorem checkAlignment_cases (id : Nat) :
    (a.checkAlignment id = (a, {}) ∧ ¬ (a.Pending id ∧ a.Complete id)) ∨
      Forwards a (a.checkAlignment id) id := by
  unfold checkAlignment
  cases hid : a.seenBarriers.lookup id with
  | none =>
      left
      simp [pending_iff, hid]
  | some flags =>
      have hpending : a.Pending id := pending_iff.mpr ⟨flags, hid⟩
      by_cases hall : a.allDelivered flags = true
      · right
        have hcomplete := (allDelivered_iff ha hid).mp hall
        simp only [hall, Bool.not_true, Bool.false_eq_true, if_false]
        exact
          { pending := hpending
            complete := hcomplete
            forgets :=
              { same := ⟨rfl, rfl, rfl, rfl⟩
                lookup := fun id' hne => (eraseSeen_lookup a id' id).trans (if_neg hne)
                lookup_gone := fun id' heq => (eraseSeen_lookup a id' id).trans (if_pos heq)
                terminal := fun id' hne => eraseSeen_terminal a hne
                paused := fun j hj => by
                  have hd := hcomplete j hj
                  simp [hj.1, hj.2, hd] }
            forward := rfl
            barrier := rfl }
      · left
        rw [allDelivered_iff ha hid] at hall
        have hnot : a.allDelivered flags = false := by
          rw [← Bool.not_eq_true, allDelivered_iff ha hid]
          exact hall
        simp [hnot, hall]

/-- A close forwards at most one barrier, and none only if none is complete. -/
theorem closeLoop_cases (order : List Nat) :
    (a.closeLoop order = (a, {}) ∧ ∀ id ∈ order, ¬ (a.Pending id ∧ a.Complete id)) ∨
      ∃ id ∈ order, Forwards a (a.closeLoop order) id := by
  induction order with
  | nil => exact .inl ⟨rfl, by simp⟩
  | cons id ids ih =>
      have hnone : a.forwardsOnFirstDelivery id = false := by
        simp [forwardsOnFirstDelivery, ha.captures]
      unfold closeLoop
      simp only [hnone, Bool.false_eq_true, if_false]
      rcases checkAlignment_cases ha id with ⟨heq, hnot⟩ | hfwd
      · simp only [heq, Bool.false_eq_true, if_false]
        rcases ih with ⟨hloop, hids⟩ | ⟨id', hmem, hfwd⟩
        · left
          exact ⟨hloop, List.forall_mem_cons.mpr ⟨hnot, hids⟩⟩
        · right
          exact ⟨id', List.mem_cons_of_mem _ hmem, hfwd⟩
      · right
        rw [if_pos hfwd.forward]
        exact ⟨id, List.mem_cons_self, hfwd⟩

/-! ## Recording -/

omit ha in
theorem recordSeen_of_none (i : Nat) (h : a.seenBarriers.lookup b.id = none) :
    a.recordSeen i b =
      { a with
        seenBarriers := a.seenBarriers.insert b.id ((Bitmap.assign a.inputCount).set i)
        seenMode := a.seenMode.insert b.id b.mode
        seenTerminal := a.seenTerminal.insert b.id b.isTerminal } := by
  simp [recordSeen, h]

omit ha in
theorem recordSeen_of_some (i : Nat) {flags : Bitmap}
    (h : a.seenBarriers.lookup b.id = some flags) (hsize : flags.size ≠ 0) :
    a.recordSeen i b =
      { a with
        seenBarriers := a.seenBarriers.insert b.id (flags.set i)
        seenTerminal :=
          if b.isTerminal then a.seenTerminal else a.seenTerminal.insert b.id false } := by
  simp [recordSeen, h, hsize]

/-- The bitmap `on_barrier` sets a flag of: the one on record or a new one. -/
def seenOf (a : Alignment) (id : Nat) : Bitmap :=
  (a.seenBarriers.lookup id).getD (Bitmap.assign a.inputCount)

private theorem seenOf_size (id : Nat) : (a.seenOf id).size = a.inputCount := by
  unfold seenOf
  cases hid : a.seenBarriers.lookup id with
  | none => rfl
  | some flags => exact ha.size id flags hid

omit ha in
private theorem seenOf_bit (id j : Nat) : (a.seenOf id).bit j = true ↔ a.Delivered id j := by
  unfold seenOf Delivered
  cases hid : a.seenBarriers.lookup id with
  | none => simp [Bitmap.assign]
  | some flags => simp

private theorem recordSeen_seenBarriers (hi : i < a.inputCount) :
    (a.recordSeen i b).seenBarriers = a.seenBarriers.insert b.id ((a.seenOf b.id).set i) := by
  unfold seenOf
  cases hid : a.seenBarriers.lookup b.id with
  | none => rw [recordSeen_of_none i hid]; rfl
  | some flags =>
      have hsize := ha.size b.id flags hid
      rw [recordSeen_of_some i hid (by omega)]
      rfl

theorem recordSeen_terminal (hi : i < a.inputCount) (id : Nat) :
    (a.recordSeen i b).seenTerminal.lookup id =
      if id = b.id then
        if b.isTerminal then (if a.Pending b.id then a.seenTerminal.lookup b.id else some true)
        else some false
      else a.seenTerminal.lookup id := by
  cases hid : a.seenBarriers.lookup b.id with
  | none =>
      have hnot : ¬ a.Pending b.id := by simp [pending_iff, hid]
      rw [recordSeen_of_none i hid]
      by_cases hne : id = b.id
      · subst hne
        cases hb : b.isTerminal <;> simp [hnot]
      · simp [hne, AList.lookup_insert_ne hne]
  | some flags =>
      have hsize := ha.size b.id flags hid
      have hp : a.Pending b.id := pending_iff.mpr ⟨flags, hid⟩
      rw [recordSeen_of_some i hid (by omega)]
      by_cases hne : id = b.id
      · subst hne
        cases hb : b.isTerminal <;> simp [hp]
      · cases hb : b.isTerminal <;> simp [hne, AList.lookup_insert_ne hne]

omit ha in
private theorem recordSeen_same (a : Alignment) (i : Nat) (b : CheckpointBarrier) :
    SameInputs a (a.recordSeen i b) ∧ (a.recordSeen i b).paused = a.paused := by
  unfold recordSeen
  by_cases hsize : ((a.seenBarriers.lookup b.id).getD {}).size = 0
  · rw [if_pos hsize]
    exact ⟨⟨rfl, rfl, rfl, rfl⟩, rfl⟩
  · rw [if_neg hsize]
    exact ⟨⟨rfl, rfl, rfl, rfl⟩, rfl⟩

theorem records_recordSeen (hi : i < a.inputCount) (b : CheckpointBarrier) :
    Records a { a.recordSeen i b with paused := setAt (a.recordSeen i b).paused i true } i b := by
  have hseen := recordSeen_seenBarriers (b := b) ha hi
  have hsame := recordSeen_same a i b
  have hlookup : ∀ id, (a.recordSeen i b).seenBarriers.lookup id =
      if id = b.id then some ((a.seenOf b.id).set i) else a.seenBarriers.lookup id := by
    intro id
    rw [hseen]
    by_cases hne : id = b.id
    · rw [if_pos hne, hne, AList.lookup_insert]
    · rw [if_neg hne, AList.lookup_insert_ne hne]
  constructor
  case same =>
    exact ⟨hsame.1.inputCount, hsame.1.closed, hsame.1.passed, hsame.1.captures⟩
  case sized =>
    constructor
    · intro id flags hflags
      change (a.recordSeen i b).seenBarriers.lookup id = some flags at hflags
      show flags.size = (a.recordSeen i b).inputCount
      rw [hlookup] at hflags
      rw [hsame.1.inputCount]
      by_cases hne : id = b.id
      · rw [if_pos hne] at hflags
        rw [← Option.some.inj hflags]
        exact seenOf_size ha b.id
      · rw [if_neg hne] at hflags
        exact ha.size id flags hflags
    · exact hsame.1.captures.trans ha.captures
  case pending =>
    intro id
    rw [pending_iff, pending_iff]
    show (∃ flags, (a.recordSeen i b).seenBarriers.lookup id = some flags) ↔ _
    rw [hlookup]
    by_cases hne : id = b.id <;> simp [hne]
  case delivered =>
    intro id j
    show (∃ flags, (a.recordSeen i b).seenBarriers.lookup id = some flags ∧ _) ↔ _
    rw [hlookup]
    by_cases hne : id = b.id
    · have hbit := seenOf_bit (a := a) b.id j
      by_cases hj : j = i
      · simp [hne, hj, Bitmap.set]
      · simp [hne, hj, Bitmap.set, hbit]
    · simp [hne, Delivered]
  case terminal =>
    intro id hne
    exact (recordSeen_terminal ha hi id).trans (if_neg hne)
  case terminal_self =>
    exact (recordSeen_terminal ha hi b.id).trans (if_pos rfl)
  case paused =>
    intro j
    show setAt (a.recordSeen i b).paused i true j = true ↔ _
    rw [hsame.2]
    by_cases hj : j = i
    · simp [hj]
    · simp [hj, setAt_ne _ _ hj]

end

/-! ## Closing -/

theorem closes_markClosed (a : Alignment) (i : Nat) (cancelled : Bool) :
    Closes a (a.markClosed i cancelled) i where
  inputCount := rfl
  closed j := by
    show setAt a.closed i true j = true ↔ _
    by_cases hj : j = i
    · simp [hj]
    · simp [hj, setAt_ne _ _ hj]
  passed := rfl
  captures := rfl
  seenBarriers := rfl
  seenTerminal := rfl
  paused := rfl

theorem Closes.alive_iff (h : Closes a a' i) : a'.Alive j ↔ a.Alive j ∧ j ≠ i := by
  unfold Alive
  rw [h.inputCount, ← Bool.not_eq_true, ← Bool.not_eq_true, h.closed, not_or, and_assoc]

theorem Closes.pending_iff (h : Closes a a' i) : a'.Pending id ↔ a.Pending id := by
  rw [Pending, Pending, h.seenBarriers]

theorem Closes.delivered_iff (h : Closes a a' i) : a'.Delivered id j ↔ a.Delivered id j := by
  rw [Delivered, Delivered, h.seenBarriers]

theorem Closes.nonTerminal_iff (h : Closes a a' i) : a'.NonTerminal id ↔ a.NonTerminal id := by
  rw [NonTerminal, NonTerminal, h.seenTerminal]

theorem Closes.sized (h : Closes a a' i) (ha : a.Sized) : a'.Sized where
  size id flags hflags := by
    rw [h.seenBarriers] at hflags
    rw [h.inputCount]
    exact ha.size id flags hflags
  captures := by rw [h.captures, ha.captures]

/-! ## `on_barrier` -/

/-- Input `i` goes past every id below `ck`: its newest barrier is `ck`, and
the pending ones below it that it never delivered are forgotten. -/
def Passes (a a' : Alignment) (i ck : Nat) : Prop :=
  Forgets { a with passed := setAt a.passed i ck } a' fun id =>
    a.Pending id ∧ id < ck ∧ ¬ a.Delivered id i ∧ a.NonTerminal id

theorem passes_pass (ha : a.Sized) (hi : i < a.inputCount) (ck : Nat) :
    Passes a (a.pass i ck) i ck :=
  forgets_dropPassedBy (a := { a with passed := setAt a.passed i ck })
    ⟨ha.size, ha.captures⟩ hi ck

private theorem foldl_eq_zero {f : Nat → Nat → Nat} {P : Nat → Prop}
    (hkeep : ∀ k, P k → ∀ past, f past k = past) (hpos : ∀ k, ¬ P k → ∀ past, 0 < f past k)
    (ks : List Nat) (past : Nat) :
    ks.foldl f past = 0 ↔ past = 0 ∧ ∀ k ∈ ks, P k := by
  induction ks generalizing past with
  | nil => simp
  | cons k ks ih =>
      rw [List.foldl_cons, ih, List.forall_mem_cons]
      by_cases hk : P k
      · simp [hkeep k hk past, hk]
      · have hne := hpos k hk past
        simp [hk]
        omega

/-- Input `k` did not go past `ck`, or does not count. -/
def NotPast (a : Alignment) (i ck k : Nat) : Prop :=
  k = i ∨ a.closed k = true ∨ a.passed k ≤ ck ∨ (k < a.inputCount ∧ a.Delivered ck k)

/-- No other input went past `ck`. -/
theorem passedByAnother_eq_zero (ha : a.Sized) :
    a.passedByAnother i ck = 0 ↔
      ∀ k, a.Alive k → k ≠ i → a.passed k ≤ ck ∨ a.Delivered ck k := by
  unfold passedByAnother
  dsimp only
  rw [foldl_eq_zero (P := NotPast a i ck)]
  · simp only [true_and, List.mem_range, NotPast, Alive]
    constructor
    · intro hall k hk hne
      rcases hall k hk.1 with h | h | h | h
      · exact absurd h hne
      · rw [hk.2] at h
        exact absurd h (by simp)
      · exact .inl h
      · exact .inr h.2
    · intro hall k hk
      by_cases hne : k = i
      · exact .inl hne
      · cases hc : a.closed k with
        | true => exact .inr (.inl rfl)
        | false =>
            rcases hall k ⟨hk, hc⟩ hne with h | h
            · exact .inr (.inr (.inl h))
            · exact .inr (.inr (.inr ⟨hk, h⟩))
  · intro k hk past
    rcases hk with h | h | h | h
    · simp [h]
    · simp [h]
    · simp [h]
    · rcases h with ⟨hk, flags, hflags, hbit⟩
      simp [hflags, ha.size ck flags hflags, hk, hbit]
  · intro k hk past
    simp only [NotPast, not_or] at hk
    rcases hk with ⟨hi, hc, hle, hd⟩
    rw [if_neg (by simp [hi, hc]; omega)]
    cases hck : a.seenBarriers.lookup ck with
    | none =>
        simp
        omega
    | some flags =>
        have hflag : (decide (k < flags.size) && flags.bit k) = false := by
          rw [ha.size ck flags hck]
          simpa [Delivered, hck] using hd
        simp [hflag]
        omega

/-- What `on_barrier` does before the delivery is recorded: a terminal
barrier passes nothing; another one is newer than what its input delivered,
and no other alive input went past it. -/
inductive Advances (a : Alignment) (i : Nat) (b : CheckpointBarrier) : Alignment → Prop
  | terminal (hb : b.isTerminal = true) : Advances a i b a
  | passes {a₁ : Alignment} (hb : b.isTerminal = false)
      (hnewer : a.passed i = 0 ∨ a.passed i < b.id) (hpass : Passes a a₁ i b.id)
      (hbehind : ∀ k, a₁.Alive k → k ≠ i → a₁.passed k ≤ b.id ∨ a₁.Delivered b.id k) :
      Advances a i b a₁

/-- What a call of `on_barrier` comes to. -/
inductive BarrierOutcome (a : Alignment) (i : Nat) (b : CheckpointBarrier) :
    Alignment × BarrierAdvance → Prop
  /-- At or below the newest barrier this input delivered. -/
  | stale {r : Alignment × BarrierAdvance} (hb : b.isTerminal = false)
      (hzero : a.passed i ≠ 0) (hle : b.id ≤ a.passed i)
      (hsame : Forgets a r.1 fun _ => False) (hquiet : r.2.forward = false) :
      BarrierOutcome a i b r
  /-- Another input already went past this id. -/
  | skipped {a₁ : Alignment} {r : Alignment × BarrierAdvance} (hb : b.isTerminal = false)
      (hnewer : a.passed i = 0 ∨ a.passed i < b.id) (hpass : Passes a a₁ i b.id)
      (hsame : Forgets a₁ r.1 fun _ => False) (hquiet : r.2.forward = false) :
      BarrierOutcome a i b r
  | recorded {a₁ a₂ : Alignment} (hadv : Advances a i b a₁) (hrec : Records a₁ a₂ i b)
      (hincomplete : ¬ a₂.Complete b.id) : BarrierOutcome a i b (a₂, {})
  | forwarded {a₁ a₂ : Alignment} {r : Alignment × BarrierAdvance} (hadv : Advances a i b a₁)
      (hrec : Records a₁ a₂ i b) (hfwd : Forwards a₂ r b.id) : BarrierOutcome a i b r

theorem deliver_outcome {a₁ : Alignment} (hadv : Advances a i b a₁) (ha : a₁.Sized)
    (hi : i < a₁.inputCount) : BarrierOutcome a i b (a₁.deliver i b) := by
  have hrec := records_recordSeen ha hi b
  have hnone : (a₁.recordSeen i b).forwardsOnFirstDelivery b.id = false := by
    have hcaptures : (a₁.recordSeen i b).capturesInFlight = false := hrec.sized.captures
    simp [forwardsOnFirstDelivery, hcaptures]
  unfold deliver
  simp only [hnone, Bool.false_eq_true, if_false]
  rcases checkAlignment_cases hrec.sized b.id with ⟨heq, hnot⟩ | hfwd
  · have hpending := (hrec.pending b.id).mpr (.inr rfl)
    rw [heq]
    exact .recorded hadv hrec fun hcomplete => hnot ⟨hpending, hcomplete⟩
  · exact .forwarded hadv hrec hfwd

theorem onBarrier_outcome (ha : a.Sized) (hi : i < a.inputCount) (b : CheckpointBarrier) :
    BarrierOutcome a i b (a.onBarrier i b) := by
  have hquiet : ∀ a : Alignment, Forgets a a.noteSkipped fun _ => False := by
    intro a
    have h := Forgets.nothing a
    exact ⟨⟨rfl, rfl, rfl, rfl⟩, h.lookup, h.lookup_gone, h.terminal, h.paused⟩
  unfold onBarrier
  cases hb : b.isTerminal with
  | true =>
      simp only [if_true]
      exact deliver_outcome (.terminal hb) ha hi
  | false =>
      simp only [Bool.false_eq_true, if_false]
      by_cases hstale : a.passed i ≠ 0 ∧ b.id ≤ a.passed i
      · rw [if_pos hstale]
        exact .stale hb hstale.1 hstale.2 (hquiet a) rfl
      · rw [if_neg hstale]
        have hnewer : a.passed i = 0 ∨ a.passed i < b.id := by omega
        have hpass := passes_pass ha hi b.id
        have hsized : (a.pass i b.id).Sized :=
          hpass.sized ⟨ha.size, ha.captures⟩
        by_cases hanother : (a.pass i b.id).passedByAnother i b.id = 0
        · rw [if_neg (by simp [hanother])]
          have hbehind := (passedByAnother_eq_zero hsized).mp hanother
          have hin : i < (a.pass i b.id).inputCount := by
            rw [hpass.same.inputCount]
            exact hi
          exact deliver_outcome (.passes hb hnewer hpass hbehind) hsized hin
        · rw [if_pos hanother]
          exact .skipped hb hnewer hpass (hquiet _) rfl

/-! ## `on_input_closed` -/

/-- What a call of `on_input_closed` comes to. -/
inductive CloseOutcome (a : Alignment) (i : Nat) (order : List Nat) :
    Alignment × BarrierAdvance → Prop
  | again (hclosed : a.closed i = true) : CloseOutcome a i order (a, {})
  | quiet {a₁ : Alignment} (hclosed : a.closed i = false) (hclose : Closes a a₁ i)
      (hincomplete : ∀ id ∈ order, ¬ (a₁.Pending id ∧ a₁.Complete id)) :
      CloseOutcome a i order (a₁, {})
  | forwarded {a₁ : Alignment} {r : Alignment × BarrierAdvance} {id : Nat}
      (hclosed : a.closed i = false) (hclose : Closes a a₁ i) (hfwd : Forwards a₁ r id) :
      CloseOutcome a i order r

theorem onInputClosed_outcome (ha : a.Sized) (i : Nat) (cancelled : Bool) (order : List Nat) :
    CloseOutcome a i order (a.onInputClosed i cancelled order) := by
  unfold onInputClosed
  cases hc : a.closed i with
  | true =>
      simp only [if_true]
      exact .again hc
  | false =>
      simp only [Bool.false_eq_true, if_false]
      have hclose := closes_markClosed a i cancelled
      rcases closeLoop_cases (hclose.sized ha) order with ⟨heq, hnone⟩ | ⟨id, -, hfwd⟩
      · rw [heq]
        exact .quiet hc hclose hnone
      · exact .forwarded hc hclose hfwd

/-! ## Watermarks and drains -/

theorem recomputeWatermark_fields (a : Alignment) : ∃ lastEmittedIdle emittedWm,
    a.recomputeWatermark.1 = { a with lastEmittedIdle, emittedWm } := by
  unfold recomputeWatermark
  cases (List.range a.inputCount).map a.inputWm with
  | nil => split_ifs <;> exact ⟨_, _, rfl⟩
  | cons first rest =>
      dsimp only
      split_ifs <;> exact ⟨_, _, rfl⟩

theorem noteWatermark_fields (a : Alignment) (i : Nat) (wm : Time.Watermark) :
    ∃ idle inputWm, a.noteWatermark i wm = { a with idle, inputWm } := by
  unfold noteWatermark
  split_ifs <;> exact ⟨_, _, rfl⟩

/-- A call that is not about barriers forgets nothing. -/
theorem forgets_refreshWatermark (a : Alignment) :
    Forgets a a.refreshWatermark.1 fun _ => False := by
  rcases recomputeWatermark_fields a with ⟨lastEmittedIdle, emittedWm, heq⟩
  have h := Forgets.nothing a
  rw [refreshWatermark, heq]
  exact ⟨⟨rfl, rfl, rfl, rfl⟩, h.lookup, h.lookup_gone, h.terminal, h.paused⟩

theorem forgets_onWatermark (a : Alignment) (i : Nat) (wm : Time.Watermark) :
    Forgets a (a.onWatermark i wm).1 fun _ => False := by
  rcases noteWatermark_fields a i wm with ⟨idle, inputWm, hnote⟩
  rcases recomputeWatermark_fields (a.noteWatermark i wm) with ⟨lastEmittedIdle, emittedWm, heq⟩
  have h := Forgets.nothing a
  rw [onWatermark, heq, hnote]
  exact ⟨⟨rfl, rfl, rfl, rfl⟩, h.lookup, h.lookup_gone, h.terminal, h.paused⟩

theorem forgets_onDrain (a : Alignment) (i : Nat) :
    Forgets a (a.onDrain i) fun _ => False := by
  have h := Forgets.nothing a
  exact ⟨⟨rfl, rfl, rfl, rfl⟩, h.lookup, h.lookup_gone, h.terminal, h.paused⟩

/-! ## `add_input` -/

/-- While an input is alive no pending barrier is complete: the alive inputs
that delivered one wait for another. -/
def NoneComplete (a : Alignment) : Prop :=
  (∃ j, a.Alive j) → ∀ id, a.Pending id → ¬ a.Complete id

/-- One more input, alive and unpaused, joins while nothing is pending. -/
structure Admits (a a' : Alignment) : Prop where
  empty : ∀ id, ¬ a.Pending id
  inputCount : a'.inputCount = a.inputCount + 1
  closed : a'.closed = setAt a.closed a.inputCount false
  passed : a'.passed = setAt a.passed a.inputCount 0
  paused : a'.paused = setAt a.paused a.inputCount false
  captures : a'.capturesInFlight = a.capturesInFlight
  seenBarriers : a'.seenBarriers = a.seenBarriers

/-- What a call of `add_input` comes to. -/
inductive AddOutcome (a : Alignment) : Alignment × Option Nat → Prop
  | refused : AddOutcome a (a, none)
  | admitted {a₁ a₂ : Alignment} (hforgets : Forgets a a₁ a.Pending) (hadmits : Admits a₁ a₂) :
      AddOutcome a (a₂, some a₁.inputCount)

theorem maybeDropSeen_cases (ha : a.Sized) (id : Nat) :
    (a.maybeDropSeen id = a ∧ ¬ (a.Pending id ∧ a.Complete id)) ∨
      (a.maybeDropSeen id = a.eraseSeen id ∧ a.Complete id) := by
  unfold maybeDropSeen
  cases hid : a.seenBarriers.lookup id with
  | none => exact .inl ⟨rfl, by simp [pending_iff, hid]⟩
  | some flags =>
      by_cases hall : a.allDelivered flags = true
      · right
        exact ⟨if_pos hall, (allDelivered_iff ha hid).mp hall⟩
      · left
        exact ⟨if_neg hall, fun h => hall ((allDelivered_iff ha hid).mpr h.2)⟩

/-- While no barrier is complete the sweep drops nothing. -/
theorem sweep_of_incomplete (ha : a.Sized)
    (h : ∀ id, a.Pending id → ¬ a.Complete id) (ids : List Nat) :
    ids.foldl maybeDropSeen a = a := by
  induction ids with
  | nil => rfl
  | cons id ids ih =>
      rw [List.foldl_cons]
      rcases maybeDropSeen_cases ha id with ⟨heq, -⟩ | ⟨heq, hcomplete⟩
      · rw [heq, ih]
      · have hlookup : a.seenBarriers.lookup id = none := by
          have hnot : ¬ a.Pending id := fun hp => h id hp hcomplete
          rw [pending_iff] at hnot
          simpa [Option.eq_none_iff_forall_ne_some] using hnot
        have hself : a.maybeDropSeen id = a := by simp [maybeDropSeen, hlookup]
        rw [hself, ih]

/-- With no input alive every pending barrier is complete and is dropped. -/
theorem forgets_sweep (ha : a.Sized) (h : ¬ ∃ j, a.Alive j) (ids : List Nat) :
    Forgets a (ids.foldl maybeDropSeen a) (· ∈ ids) := by
  induction ids generalizing a with
  | nil => exact (Forgets.nothing a).congr (by simp)
  | cons id ids ih =>
      have hcomplete : a.Complete id := fun j hj => absurd ⟨j, hj⟩ h
      have hone : Forgets a (a.maybeDropSeen id) (· = id) := by
        have hpaused : ∀ j, a.Alive j → False := fun j hj => h ⟨j, hj⟩
        rcases maybeDropSeen_cases ha id with ⟨heq, hnot⟩ | ⟨heq, -⟩
        · rw [heq]
          have hlookup : a.seenBarriers.lookup id = none := by
            have hnot' : ¬ a.Pending id := fun hp => hnot ⟨hp, hcomplete⟩
            rw [pending_iff] at hnot'
            simpa [Option.eq_none_iff_forall_ne_some] using hnot'
          exact ⟨.refl a, fun _ _ => rfl, fun id' heq' => by rw [heq', hlookup],
            fun _ _ => rfl, fun j hj => (hpaused j hj).elim⟩
        · rw [heq]
          exact ⟨⟨rfl, rfl, rfl, rfl⟩,
            fun id' hne => (eraseSeen_lookup a id' id).trans (if_neg hne),
            fun id' heq' => (eraseSeen_lookup a id' id).trans (if_pos heq'),
            fun id' hne => eraseSeen_terminal a hne, fun j hj => (hpaused j hj).elim⟩
      have hstill : ¬ ∃ j, (a.maybeDropSeen id).Alive j := by
        intro hj
        rcases hj with ⟨j, hj⟩
        exact h ⟨j, hone.same.alive_iff.mp hj⟩
      refine (hone.trans (ih (hone.sized ha) hstill)).congr fun id' => ?_
      rw [List.mem_cons]

theorem addInput_outcome (ha : a.Sized) (hnone : a.NoneComplete) :
    AddOutcome a a.addInput := by
  have hkeys_nil : ∀ s : Alignment, s.seenBarriers.keys = [] → ∀ id, ¬ s.Pending id := by
    intro s hs id hp
    rw [Pending, AList.mem_keys, hs] at hp
    simp at hp
  unfold addInput
  by_cases halive : ∃ j, a.Alive j
  · have hswept := sweep_of_incomplete ha (hnone halive) a.seenBarriers.keys
    simp only [hswept]
    by_cases hkeys : a.seenBarriers.keys ≠ []
    · rw [if_pos hkeys]
      exact .refused
    · rw [if_neg hkeys]
      rw [ne_eq, not_not] at hkeys
      have hempty := hkeys_nil a hkeys
      have hforgets : Forgets a a a.Pending :=
        (Forgets.nothing a).congr fun id => by simp [hempty id]
      exact .admitted hforgets ⟨hempty, rfl, rfl, rfl, rfl, rfl, rfl⟩
  · have hswept := forgets_sweep ha halive a.seenBarriers.keys
    have hforgets : Forgets a (a.seenBarriers.keys.foldl maybeDropSeen a) a.Pending :=
      hswept.congr fun id => AList.mem_keys.symm
    have hempty : ∀ id, ¬ (a.seenBarriers.keys.foldl maybeDropSeen a).Pending id := by
      intro id hp
      have hboth := hforgets.pending_iff.mp hp
      exact hboth.2 hboth.1
    have hkeys : (a.seenBarriers.keys.foldl maybeDropSeen a).seenBarriers.keys = [] := by
      rw [List.eq_nil_iff_forall_not_mem]
      intro id hid
      exact hempty id (AList.mem_keys.mpr hid)
    simp only [hkeys, ne_eq, not_true_eq_false, if_false]
    exact .admitted hforgets ⟨hempty, rfl, rfl, rfl, rfl, rfl, rfl⟩

end Alignment

end Clink.Ports.MultiInputAlignment

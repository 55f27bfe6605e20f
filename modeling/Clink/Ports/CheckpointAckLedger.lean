import Clink.Verified.Run
import Clink.Verified.SortedMap
import Mathlib.Algebra.Order.Group.Multiset
import Mathlib.Tactic.Abel

/-!
# The acknowledgements a source owes its broker

The embedding of `CheckpointAckLedger`
(`include/clink/connectors/checkpoint_ack_ledger.hpp`).  Every method holds
the ledger's mutex from its first line to its last, so an interleaving of the
produce thread and the commit-dispatch thread is a list of whole calls.

An acknowledgement is followed through the ledger by its position in that
list: `numbered` tags each delivery with its index, and `run_numbered` shows
the tags are invisible to the ledger.  The main invariant, `Accounted`, then
says where every tag is and, for each place, what must have happened for it
to be there.
-/

namespace Clink.Ports.CheckpointAckLedger

open Clink.Verified

variable {α β : Type*}

structure Handover (α : Type*) where
  ready : List α := []
  released : List α := []

structure Ledger (α : Type*) where
  openInterval : List α := []
  sealed : SortedMap Nat (List α) := .empty
  ready : List α := []
  released : List α := []
  outstanding : Nat := 0

namespace Ledger

def delivered (l : Ledger α) (ack : α) : Ledger α :=
  { l with openInterval := l.openInterval ++ [ack], outstanding := l.outstanding + 1 }

/-- `seal`: close the open interval as checkpoint `ckpt`'s.  An id sealed
before keeps what it holds and grows. -/
def sealAs (l : Ledger α) (ckpt : Nat) : Ledger α :=
  if l.openInterval.isEmpty then l
  else
    { l with
      sealed := l.sealed.upsert ckpt fun held => held.getD [] ++ l.openInterval
      openInterval := [] }

/-- Make every interval sealed at or below `ckpt` ready. -/
def complete (l : Ledger α) (ckpt : Nat) : Ledger α :=
  { l with
    ready := (l.sealed.upTo ckpt).foldl (fun ready e => ready ++ e.2) l.ready
    sealed := l.sealed.above ckpt }

/-- Release the interval sealed under exactly `ckpt`. -/
def abort (l : Ledger α) (ckpt : Nat) : Ledger α :=
  match l.sealed.find? ckpt with
  | none => l
  | some acks =>
      { l with released := l.released ++ acks, sealed := l.sealed.erase ckpt }

/-- Hand over what is ready and what was released. -/
def take (l : Ledger α) : Ledger α × Handover α :=
  ({ l with
      ready := [], released := []
      outstanding := l.outstanding - (l.ready.length + l.released.length) },
    { ready := l.ready, released := l.released })

/-- Everything sealed, in interval order. -/
def sealedAcks (l : Ledger α) : List α := l.sealed.entries.flatMap Prod.snd

end Ledger

/-! ## Calls and histories -/

inductive Call (α : Type*) where
  | delivered (ack : α)
  | sealAs (ckpt : Nat)
  | complete (ckpt : Nat)
  | abort (ckpt : Nat)
  | take

namespace Call

/-- One call: the ledger after it, and what a `take` handed over. -/
def apply : Call α → Ledger α → Ledger α × Handover α
  | .delivered ack, l => (l.delivered ack, {})
  | .sealAs ckpt, l => (l.sealAs ckpt, {})
  | .complete ckpt, l => (l.complete ckpt, {})
  | .abort ckpt, l => (l.abort ckpt, {})
  | .take, l => l.take

def map (f : α → β) : Call α → Call β
  | .delivered ack => .delivered (f ack)
  | .sealAs ckpt => .sealAs ckpt
  | .complete ckpt => .complete ckpt
  | .abort ckpt => .abort ckpt
  | .take => .take

/-- The acknowledgement a call delivers. -/
def ack? : Call α → Option α
  | .delivered ack => some ack
  | _ => none

end Call

/-- The ledger after a history of calls on an empty one. -/
def run (calls : List (Call α)) : Ledger α :=
  calls.foldl (fun l c => (c.apply l).1) {}

/-- What the takes of a history handed over, in order. -/
def handovers (calls : List (Call α)) : List (Handover α) :=
  answers (fun l c => (c.apply l).1) (fun l c => (c.apply l).2) {} calls

/-- Everything delivered in a history, in order. -/
def deliveredAcks (calls : List (Call α)) : List α := calls.filterMap Call.ack?

def handedReady (calls : List (Call α)) : List α := (handovers calls).flatMap Handover.ready

def handedReleased (calls : List (Call α)) : List α :=
  (handovers calls).flatMap Handover.released

@[simp] theorem run_nil : run ([] : List (Call α)) = {} := rfl

theorem run_snoc (calls : List (Call α)) (c : Call α) :
    run (calls ++ [c]) = (c.apply (run calls)).1 := by
  simp [run]

theorem handovers_snoc (calls : List (Call α)) (c : Call α) :
    handovers (calls ++ [c]) = handovers calls ++ [(c.apply (run calls)).2] := by
  rw [handovers, answers_snoc]
  rfl

@[simp] theorem handedReady_snoc (calls : List (Call α)) (c : Call α) :
    handedReady (calls ++ [c]) = handedReady calls ++ (c.apply (run calls)).2.ready := by
  simp [handedReady, handovers_snoc]

@[simp] theorem handedReleased_snoc (calls : List (Call α)) (c : Call α) :
    handedReleased (calls ++ [c]) =
      handedReleased calls ++ (c.apply (run calls)).2.released := by
  simp [handedReleased, handovers_snoc]

@[simp] theorem deliveredAcks_snoc (calls : List (Call α)) (c : Call α) :
    deliveredAcks (calls ++ [c]) = deliveredAcks calls ++ c.ack?.toList := by
  cases c <;> simp [deliveredAcks, Call.ack?]

/-! ## What each call does to the sealed intervals -/

theorem foldl_append_snd (es : List (Nat × List α)) (acks : List α) :
    es.foldl (fun ready e => ready ++ e.2) acks = acks ++ es.flatMap Prod.snd := by
  induction es generalizing acks with
  | nil => simp
  | cons e es ih => simp [ih, List.append_assoc]

theorem ready_complete (l : Ledger α) (ckpt : Nat) :
    (l.complete ckpt).ready = l.ready ++ (l.sealed.upTo ckpt).flatMap Prod.snd :=
  foldl_append_snd _ _

/-- Completing moves acknowledgements from the sealed intervals to the ready
ones and loses none. -/
theorem sealedAcks_complete (l : Ledger α) (ckpt : Nat) :
    l.sealedAcks =
      (l.sealed.upTo ckpt).flatMap Prod.snd ++ (l.complete ckpt).sealedAcks := by
  rw [Ledger.sealedAcks, ← l.sealed.upTo_append_above ckpt, List.flatMap_append]
  rfl

/-- Sealing appends the open interval to the sealed ones, up to order. -/
theorem flatMap_upsertEntries (ckpt : Nat) (acks : List α)
    (es : List (Nat × List α)) :
    ((SortedMap.upsertEntries ckpt (fun held => held.getD [] ++ acks) es).flatMap
      Prod.snd).Perm (es.flatMap Prod.snd ++ acks) := by
  induction es with
  | nil => simp [SortedMap.upsertEntries]
  | cons e es ih =>
      obtain ⟨k, held⟩ := e
      simp only [SortedMap.upsertEntries]
      split
      · simpa [List.append_assoc] using
          @List.perm_append_comm _ acks (held ++ es.flatMap Prod.snd)
      split
      · simpa [List.append_assoc] using
          (@List.perm_append_comm _ acks (es.flatMap Prod.snd)).append_left held
      · simpa [List.append_assoc] using ih.append_left held

/-- Erasing an interval takes out exactly its acknowledgements. -/
theorem flatMap_erase {m : SortedMap Nat (List α)} {ckpt : Nat} {acks : List α}
    (h : m.find? ckpt = some acks) :
    (m.entries.flatMap Prod.snd).Perm (acks ++ (m.erase ckpt).entries.flatMap Prod.snd) := by
  have hkey : ∀ es : List (Nat × List α), (es.Pairwise fun a b => a.1 < b.1) →
      (ckpt, acks) ∈ es → (es.flatMap Prod.snd).Perm
        (acks ++ (es.filter fun e => e.1 ≠ ckpt).flatMap Prod.snd) := by
    intro es hes hmem
    induction es with
    | nil => simp at hmem
    | cons e es ih =>
        obtain ⟨hhead, htail⟩ := List.pairwise_cons.mp hes
        rcases List.mem_cons.mp hmem with rfl | hmem
        · -- Later keys are larger, so the filter keeps the whole tail.
          have hkeep : es.filter (fun e => e.1 ≠ ckpt) = es :=
            List.filter_eq_self.mpr fun e he => by
              have hlt : ckpt < e.1 := hhead e he
              simpa using Nat.ne_of_gt hlt
          rw [List.filter_cons_of_neg (by simp), hkeep, List.flatMap_cons]
        · have hne : e.1 ≠ ckpt := Nat.ne_of_lt (hhead _ hmem)
          rw [List.filter_cons_of_pos (by simpa using hne), List.flatMap_cons,
            List.flatMap_cons]
          refine ((ih htail hmem).append_left e.2).trans ?_
          rw [← List.append_assoc, ← List.append_assoc]
          exact List.perm_append_comm.append_right _
  exact hkey m.entries m.sorted (SortedMap.find?_eq_some_iff.mp h)

/-! ## Where every acknowledgement is, and how it got there -/

/-- `x` was in the open interval when `sealAs s` was called, and no abort of
`s` came since. -/
def SealedUnder (calls : List (Call α)) (x : α) (s : Nat) : Prop :=
  ∃ pre mid, calls = pre ++ .sealAs s :: mid ∧ x ∈ (run pre).openInterval ∧
    Call.abort s ∉ mid

/-- `x` was sealed under some `s`, and a completion at or above `s` followed
with no abort of `s` between the two. -/
def CompletedAfterSeal (calls : List (Call α)) (x : α) : Prop :=
  ∃ pre s mid c post, calls = pre ++ .sealAs s :: (mid ++ .complete c :: post) ∧
    x ∈ (run pre).openInterval ∧ s ≤ c ∧ Call.abort s ∉ mid

/-- `x` was sealed under some `s`, and an abort of exactly `s` followed. -/
def AbortedAfterSeal (calls : List (Call α)) (x : α) : Prop :=
  ∃ pre s mid post, calls = pre ++ .sealAs s :: (mid ++ .abort s :: post) ∧
    x ∈ (run pre).openInterval

variable {calls : List (Call α)}

theorem SealedUnder.snoc {x : α} {s : Nat} {c : Call α} (h : SealedUnder calls x s)
    (hc : c ≠ .abort s) : SealedUnder (calls ++ [c]) x s := by
  obtain ⟨pre, mid, rfl, hx, hmid⟩ := h
  refine ⟨pre, mid ++ [c], by simp, hx, ?_⟩
  rw [List.mem_append, List.mem_singleton]
  rintro (h | h)
  · exact hmid h
  · exact hc h.symm

theorem CompletedAfterSeal.snoc {x : α} (c : Call α) (h : CompletedAfterSeal calls x) :
    CompletedAfterSeal (calls ++ [c]) x := by
  obtain ⟨pre, s, mid, d, post, rfl, hx, hle, hmid⟩ := h
  exact ⟨pre, s, mid, d, post ++ [c], by simp, hx, hle, hmid⟩

theorem AbortedAfterSeal.snoc {x : α} (c : Call α) (h : AbortedAfterSeal calls x) :
    AbortedAfterSeal (calls ++ [c]) x := by
  obtain ⟨pre, s, mid, post, rfl, hx⟩ := h
  exact ⟨pre, s, mid, post ++ [c], by simp, hx⟩

/-- The books of a history: what is in the ledger or handed over is what was
delivered, each place has its reason, and the count agrees. -/
structure Accounted (calls : List (Call α)) (l : Ledger α) : Prop where
  perm : (l.openInterval ++ (l.sealedAcks ++ (l.ready ++ (l.released ++
    (handedReady calls ++ handedReleased calls))))).Perm (deliveredAcks calls)
  sealedUnder : ∀ s acks, l.sealed.find? s = some acks → ∀ x ∈ acks, SealedUnder calls x s
  ready : ∀ x ∈ l.ready, CompletedAfterSeal calls x
  released : ∀ x ∈ l.released, AbortedAfterSeal calls x
  outstanding : l.outstanding + (handedReady calls).length +
    (handedReleased calls).length = (deliveredAcks calls).length

/-- The permutation field as an equation between multisets, where moving
acknowledgements between places is addition. -/
theorem perm_iff_add {a b c d e f g : List α} :
    (a ++ (b ++ (c ++ (d ++ (e ++ f))))).Perm g ↔
      (a + (b + (c + (d + (e + f)))) : Multiset α) = g := by
  simp only [← Multiset.coe_eq_coe, Multiset.coe_add]

section

variable (h : Accounted calls (run calls))
include h

theorem accounted_delivered (x : α) :
    Accounted (calls ++ [.delivered x]) ((run calls).delivered x) where
  perm := by
    have hperm := perm_iff_add.mp h.perm
    rw [perm_iff_add]
    simp only [Ledger.delivered, Ledger.sealedAcks, handedReady_snoc, handedReleased_snoc,
      deliveredAcks_snoc, Call.apply, Call.ack?, List.append_nil, Option.toList_some,
      ← Multiset.coe_add] at hperm ⊢
    rw [← hperm]
    abel
  sealedUnder s acks hs y hy := (h.sealedUnder s acks hs y hy).snoc (by simp)
  ready y hy := (h.ready y hy).snoc _
  released y hy := (h.released y hy).snoc _
  outstanding := by
    have hcount := h.outstanding
    simp only [Ledger.delivered, handedReady_snoc, handedReleased_snoc,
      deliveredAcks_snoc, Call.apply, Call.ack?, List.append_nil, Option.toList_some,
      List.length_append, List.length_singleton]
    omega

theorem accounted_sealAs (ckpt : Nat) :
    Accounted (calls ++ [.sealAs ckpt]) ((run calls).sealAs ckpt) := by
  unfold Ledger.sealAs
  split
  · exact
      { perm := by simpa [Call.apply, Call.ack?] using h.perm
        sealedUnder := fun s acks hs y hy => (h.sealedUnder s acks hs y hy).snoc (by simp)
        ready := fun y hy => (h.ready y hy).snoc _
        released := fun y hy => (h.released y hy).snoc _
        outstanding := by simpa [Call.apply, Call.ack?] using h.outstanding }
  · refine
      { perm := ?_
        sealedUnder := ?_
        ready := fun y hy => (h.ready y hy).snoc _
        released := fun y hy => (h.released y hy).snoc _
        outstanding := by simpa [Call.apply, Call.ack?] using h.outstanding }
    · have hperm := perm_iff_add.mp h.perm
      have hseal := Multiset.coe_eq_coe.mpr (flatMap_upsertEntries ckpt
        (run calls).openInterval (run calls).sealed.entries)
      rw [perm_iff_add]
      simp only [Ledger.sealedAcks, SortedMap.upsert, handedReady_snoc,
        handedReleased_snoc, deliveredAcks_snoc, Call.apply, Call.ack?, List.append_nil,
        Option.toList_none, ← Multiset.coe_add, Multiset.coe_nil] at hperm hseal ⊢
      rw [← hperm, hseal]
      abel
    · intro s acks hs y hy
      rw [SortedMap.find?_upsert] at hs
      split at hs
      · rename_i heq
        subst heq
        obtain rfl := Option.some.inj hs
        rcases List.mem_append.mp hy with hy | hy
        · cases hold : (run calls).sealed.find? s with
          | none => simp [hold] at hy
          | some held =>
              exact (h.sealedUnder s held hold y (by simpa [hold] using hy)).snoc (by simp)
        · exact ⟨calls, [], rfl, hy, List.not_mem_nil⟩
      · exact (h.sealedUnder s acks hs y hy).snoc (by simp)

theorem accounted_complete (ckpt : Nat) :
    Accounted (calls ++ [.complete ckpt]) ((run calls).complete ckpt) where
  perm := by
    have hperm := perm_iff_add.mp h.perm
    rw [perm_iff_add]
    rw [sealedAcks_complete _ ckpt] at hperm
    simp only [ready_complete, handedReady_snoc, handedReleased_snoc, deliveredAcks_snoc,
      Call.apply, Call.ack?, List.append_nil, Option.toList_none,
      ← Multiset.coe_add] at hperm ⊢
    rw [← hperm]
    simp only [Ledger.complete]
    abel
  sealedUnder s acks hs y hy := by
    have hmem := (SortedMap.mem_above.mp (SortedMap.find?_eq_some_iff.mp hs)).1
    exact (h.sealedUnder s acks (SortedMap.find?_eq_some_iff.mpr hmem) y hy).snoc (by simp)
  ready y hy := by
    rw [ready_complete] at hy
    rcases List.mem_append.mp hy with hy | hy
    · exact (h.ready y hy).snoc _
    · obtain ⟨⟨s, acks⟩, he, hy⟩ := List.mem_flatMap.mp hy
      obtain ⟨hmem, hle⟩ := SortedMap.mem_upTo he
      obtain ⟨pre, mid, hcalls, hx, hmid⟩ :=
        h.sealedUnder s acks (SortedMap.find?_eq_some_iff.mpr hmem) y hy
      exact ⟨pre, s, mid, ckpt, [], by simp [hcalls], hx, hle, hmid⟩
  released y hy := (h.released y hy).snoc _
  outstanding := by simpa [Call.apply, Call.ack?, Ledger.complete] using h.outstanding

theorem accounted_abort (ckpt : Nat) :
    Accounted (calls ++ [.abort ckpt]) ((run calls).abort ckpt) := by
  -- Nothing sealed under another id is touched by the abort.
  have hother : ∀ s acks, s ≠ ckpt → (run calls).sealed.find? s = some acks →
      ∀ y ∈ acks, SealedUnder (calls ++ [.abort ckpt]) y s := fun s acks hne hs y hy =>
    (h.sealedUnder s acks hs y hy).snoc (by simpa using Ne.symm hne)
  unfold Ledger.abort
  split
  · rename_i hnone
    exact
      { perm := by simpa [Call.apply, Call.ack?] using h.perm
        sealedUnder := fun s acks hs y hy =>
          hother s acks (fun heq => by simp [← heq, hs] at hnone) hs y hy
        ready := fun y hy => (h.ready y hy).snoc _
        released := fun y hy => (h.released y hy).snoc _
        outstanding := by simpa [Call.apply, Call.ack?] using h.outstanding }
  · rename_i acks hsome
    refine
      { perm := ?_
        sealedUnder := ?_
        ready := fun y hy => (h.ready y hy).snoc _
        released := ?_
        outstanding := by simpa [Call.apply, Call.ack?] using h.outstanding }
    · have hperm := perm_iff_add.mp h.perm
      have herase := Multiset.coe_eq_coe.mpr (flatMap_erase hsome)
      rw [perm_iff_add]
      simp only [Ledger.sealedAcks, handedReady_snoc, handedReleased_snoc,
        deliveredAcks_snoc, Call.apply, Call.ack?, List.append_nil, Option.toList_none,
        ← Multiset.coe_add] at hperm herase ⊢
      rw [← hperm, herase]
      abel
    · intro s acks' hs y hy
      rw [SortedMap.find?_erase] at hs
      split at hs
      · simp at hs
      · rename_i hne
        exact hother s acks' hne hs y hy
    · intro y hy
      rcases List.mem_append.mp hy with hy | hy
      · exact (h.released y hy).snoc _
      · obtain ⟨pre, mid, hcalls, hx, -⟩ := h.sealedUnder ckpt acks hsome y hy
        exact ⟨pre, ckpt, mid, [], by simp [hcalls], hx⟩

theorem accounted_take :
    Accounted (calls ++ [.take]) (run calls).take.1 where
  perm := by
    have hperm := perm_iff_add.mp h.perm
    rw [perm_iff_add]
    simp only [Ledger.take, Ledger.sealedAcks, handedReady_snoc, handedReleased_snoc,
      deliveredAcks_snoc, Call.apply, Call.ack?, List.append_nil, Option.toList_none,
      ← Multiset.coe_add, Multiset.coe_nil] at hperm ⊢
    rw [← hperm]
    abel
  sealedUnder s acks hs y hy := (h.sealedUnder s acks hs y hy).snoc (by simp)
  ready y hy := by simp [Ledger.take] at hy
  released y hy := by simp [Ledger.take] at hy
  outstanding := by
    -- What is ready or released was delivered and not yet handed over, so
    -- the count never goes below zero.
    have hcount := h.outstanding
    have hlen := h.perm.length_eq
    simp only [List.length_append] at hlen
    simp only [Ledger.take, handedReady_snoc, handedReleased_snoc, deliveredAcks_snoc,
      Call.apply, Call.ack?, List.append_nil, Option.toList_none, List.length_append]
    omega

end

theorem accounted_run (calls : List (Call α)) : Accounted calls (run calls) := by
  induction calls using List.reverseRecOn with
  | nil =>
      exact
        { perm := by simp [Ledger.sealedAcks, handedReady, handedReleased, handovers,
            deliveredAcks]
          sealedUnder := fun s acks hs => by simp [SortedMap.find?] at hs
          ready := fun x hx => by simp at hx
          released := fun x hx => by simp at hx
          outstanding := by simp [handedReady, handedReleased, handovers, deliveredAcks] }
  | append_singleton calls c ih =>
      rw [run_snoc]
      cases c with
      | delivered x => exact accounted_delivered ih x
      | sealAs ckpt => exact accounted_sealAs ih ckpt
      | complete ckpt => exact accounted_complete ih ckpt
      | abort ckpt => exact accounted_abort ih ckpt
      | take => exact accounted_take ih

/-! ## Following one acknowledgement

Two deliveries may carry equal acknowledgements, so an acknowledgement is
followed by the index of the call that delivered it.
-/

/-- The same calls, each delivery tagged with its index. -/
def numbered (calls : List (Call α)) : List (Call (Nat × α)) :=
  calls.zipIdx.map fun p => p.1.map fun ack => (p.2, ack)

theorem numbered_snoc (calls : List (Call α)) (c : Call α) :
    numbered (calls ++ [c]) =
      numbered calls ++ [c.map fun ack => (calls.length, ack)] := by
  simp [numbered, List.zipIdx_append]

/-- The tags in the ledger are those of the deliveries. -/
theorem mem_deliveredAcks_numbered {i : Nat} {a : α} :
    (i, a) ∈ deliveredAcks (numbered calls) ↔ calls[i]? = some (.delivered a) := by
  induction calls using List.reverseRecOn with
  | nil => simp [numbered, deliveredAcks]
  | append_singleton calls c ih =>
      rw [numbered_snoc, deliveredAcks_snoc, List.mem_append, ih, List.getElem?_append]
      rcases Nat.lt_trichotomy i calls.length with hlt | rfl | hgt
      · have hne : i ≠ calls.length := Nat.ne_of_lt hlt
        cases c <;> simp [Call.map, Call.ack?, hlt, hne]
      · cases c <;> simp [Call.map, Call.ack?, eq_comm]
      · have hne : i ≠ calls.length := Nat.ne_of_gt hgt
        have hout : [c][i - calls.length]? = none :=
          List.getElem?_eq_none (by simp; omega)
        cases c <;> simp [Call.map, Call.ack?, hne, hout, Nat.not_lt_of_gt hgt]

theorem nodup_tags (calls : List (Call α)) :
    ((deliveredAcks (numbered calls)).map Prod.fst).Nodup := by
  induction calls using List.reverseRecOn with
  | nil => simp [numbered, deliveredAcks]
  | append_singleton calls c ih =>
      rw [numbered_snoc, deliveredAcks_snoc, List.map_append]
      refine List.nodup_append.mpr ⟨ih, by cases c <;> simp [Call.map, Call.ack?], ?_⟩
      intro i hi j hj
      obtain ⟨⟨i, a⟩, hmem, rfl⟩ := List.mem_map.mp hi
      have hlt : i < calls.length := by
        obtain ⟨h, -⟩ := List.getElem?_eq_some_iff.mp (mem_deliveredAcks_numbered.mp hmem)
        exact h
      cases c <;> simp [Call.map, Call.ack?] at hj
      subst hj
      exact Nat.ne_of_lt hlt

/-- The states an acknowledgement can be in. -/
inductive Place where
  | openInterval
  | sealedUnder (ckpt : Nat)
  | ready
  | released
  | handedOverReady
  | handedOverReleased
  deriving DecidableEq

/-- Every acknowledgement of a history with the place it is in. -/
def inventory (calls : List (Call α)) : List (Place × α) :=
  (run calls).openInterval.map (Prod.mk .openInterval) ++
    ((run calls).sealed.entries.flatMap (fun e => e.2.map (Prod.mk (.sealedUnder e.1))) ++
      ((run calls).ready.map (Prod.mk .ready) ++
        ((run calls).released.map (Prod.mk .released) ++
          ((handedReady calls).map (Prod.mk .handedOverReady) ++
            (handedReleased calls).map (Prod.mk .handedOverReleased)))))

/-- Forgetting the places, the inventory is what was delivered. -/
theorem inventory_perm (calls : List (Call α)) :
    ((inventory calls).map Prod.snd).Perm (deliveredAcks calls) := by
  have hsealed : ((run calls).sealed.entries.flatMap fun e =>
      e.2.map (Prod.mk (Place.sealedUnder e.1))).map Prod.snd =
        (run calls).sealedAcks := by
    simp [Ledger.sealedAcks, List.map_flatMap, Function.comp_def]
  simp only [inventory, List.map_append, hsealed, List.map_map, Function.comp_def,
    List.map_id']
  exact (accounted_run calls).perm

private theorem filter_eq_singleton {γ : Type*} {f : γ → Nat} {l : List γ} {x : γ}
    (hl : (l.map f).Nodup) (hx : x ∈ l) : (l.filter fun y => f y = f x) = [x] := by
  classical
  have hsame : ∀ y ∈ l, decide (f y = f x) = decide (y = x) := fun y hy =>
    decide_eq_decide.mpr ⟨List.inj_on_of_nodup_map hl hy hx, congrArg f⟩
  rw [List.filter_congr hsame, List.filter_eq, List.count_eq_one_of_mem (hl.of_map f) hx]
  rfl

/-- A delivered acknowledgement is in exactly one place, once. -/
theorem exists_unique_place {i : Nat} {a : α} (h : calls[i]? = some (.delivered a)) :
    ∃ place, ((inventory (numbered calls)).filter fun e => e.2.1 = i) =
      [(place, (i, a))] := by
  have hperm := inventory_perm (numbered calls)
  have hmem := hperm.mem_iff.mpr (mem_deliveredAcks_numbered.mpr h)
  obtain ⟨⟨place, x⟩, hx, rfl⟩ := List.mem_map.mp hmem
  refine ⟨place, filter_eq_singleton (f := fun e : Place × (Nat × α) => e.2.1) ?_ hx⟩
  have hnodup := (hperm.map Prod.fst).nodup_iff.mpr (nodup_tags calls)
  simpa [List.map_map, Function.comp_def] using hnodup

/-! ### The tags are invisible to the ledger -/

/-- The ledger with every acknowledgement replaced by its image. -/
def Ledger.map (f : α → β) (l : Ledger α) : Ledger β where
  openInterval := l.openInterval.map f
  sealed := l.sealed.mapValues (List.map f)
  ready := l.ready.map f
  released := l.released.map f
  outstanding := l.outstanding

/-- A call does to the images what it does to the acknowledgements. -/
theorem apply_map (f : α → β) (c : Call α) (l : Ledger α) :
    ((c.map f).apply (l.map f)).1 = ((c.apply l).1).map f := by
  cases c with
  | delivered x => simp [Call.map, Call.apply, Ledger.delivered, Ledger.map]
  | sealAs ckpt =>
      simp only [Call.map, Call.apply, Ledger.sealAs, Ledger.map, List.isEmpty_map]
      split
      · rfl
      · rw [SortedMap.mapValues_upsert (List.map f) l.sealed ckpt _
          (fun held => held.getD [] ++ l.openInterval.map f)
          (fun o => by cases o <;> simp)]
        rfl
  | complete ckpt =>
      simp only [Call.map, Call.apply, Ledger.complete, Ledger.map,
        SortedMap.mapValues_above, SortedMap.upTo_mapValues, foldl_append_snd,
        List.map_append, List.flatMap_map, List.map_flatMap]
  | abort ckpt =>
      simp only [Call.map, Call.apply, Ledger.abort]
      rw [show (l.map f).sealed = l.sealed.mapValues (List.map f) from rfl,
        SortedMap.find?_mapValues]
      cases l.sealed.find? ckpt with
      | none => rfl
      | some acks => simp [Ledger.map, SortedMap.mapValues_erase]
  | take => simp [Call.map, Call.apply, Ledger.take, Ledger.map]

theorem run_numbered (calls : List (Call α)) :
    (run (numbered calls)).map Prod.snd = run calls := by
  induction calls using List.reverseRecOn with
  | nil => rfl
  | append_singleton calls c ih =>
      rw [numbered_snoc, run_snoc, run_snoc, ← ih, ← apply_map]
      congr 2
      cases c <;> rfl

/-- The acknowledgement ledger, over every history of calls: each delivery is
in exactly one place; a take made now hands it over as ready only after a
completion at or above the id it was sealed under, with no abort of that id
in between, and as released only after an abort of that very id; and the
outstanding count is what was delivered less what was handed over. -/
theorem ledger_hands_over_each_ack_once (calls : List (Call α)) :
    (run (numbered calls)).map Prod.snd = run calls ∧
    (∀ i a, calls[i]? = some (.delivered a) →
      ∃ place, ((inventory (numbered calls)).filter fun e => e.2.1 = i) =
        [(place, (i, a))]) ∧
    (∀ x ∈ (run (numbered calls)).take.2.ready, CompletedAfterSeal (numbered calls) x) ∧
    (∀ x ∈ (run (numbered calls)).take.2.released, AbortedAfterSeal (numbered calls) x) ∧
    (run calls).outstanding + ((handedReady calls).length + (handedReleased calls).length) =
      (deliveredAcks calls).length := by
  refine ⟨run_numbered calls, fun i a h => exists_unique_place h, ?_, ?_, ?_⟩
  · exact (accounted_run (numbered calls)).ready
  · exact (accounted_run (numbered calls)).released
  · rw [← Nat.add_assoc]
    exact (accounted_run calls).outstanding

end Clink.Ports.CheckpointAckLedger

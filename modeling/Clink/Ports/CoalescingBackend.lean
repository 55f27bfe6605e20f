import Clink.Verified.Resumable
import Clink.Verified.Run
import Clink.Ports.InMemoryStateBackend

/-!
# The coalescing read backend

The embedding of the asynchronous reads of
`include/clink/state/coalescing_backend.hpp`.  A record's `get_async` parks the
record under its operator; `flush` takes everything parked and launches one
`get_many_async` per operator, and when the answer is there `launch_flush_`
writes each record's slot and resumes the record, which may park again at once.

`Inner` is the backend underneath as the decorator sees it: the plain read, the
batched read, and that a batch which returns holds one plain answer per key.  A
batched read may be answered inside the launch or suspend and be answered at
any later time, in any order; `ω` is whatever decides what the backend answers
at that moment.
-/

namespace Clink.Ports.CoalescingBackend

open Clink.Verified
open Clink.Ports.InMemoryStateBackend (Key Value)

variable {ω ε : Type}

/-- The result of an awaited read: a value, an absent key, or an exception. -/
abbrev Answer (ε : Type) := Except ε (Option Value)

/-- The asynchronous reads of a state backend. -/
structure Inner (ω ε : Type) where
  getAsync : ω → Nat → Key → Answer ε
  getManyAsync : ω → Nat → List Key → Except ε (List (Option Value))
  /-- One result per key, positionally, when it does not throw. -/
  getManyAsync_ok : ∀ w op keys vals, getManyAsync w op keys = .ok vals →
    List.Forall₂ (fun key val => getAsync w op key = .ok val) keys vals

/-- The base class's batched read: one plain read after the other. -/
def awaitEach (get : Key → Answer ε) : List Key → Except ε (List (Option Value))
  | [] => .ok []
  | key :: keys =>
      match get key, awaitEach get keys with
      | .error e, _ => .error e
      | .ok _, .error e => .error e
      | .ok val, .ok vals => .ok (val :: vals)

theorem awaitEach_ok {get : Key → Answer ε} {keys : List Key} {vals : List (Option Value)}
    (h : awaitEach get keys = .ok vals) :
    List.Forall₂ (fun key val => get key = .ok val) keys vals := by
  induction keys generalizing vals with
  | nil =>
      obtain rfl : [] = vals := by simpa [awaitEach] using h
      exact .nil
  | cons key keys ih =>
      unfold awaitEach at h
      cases hget : get key with
      | error e => simp [hget] at h
      | ok val =>
          cases hrest : awaitEach get keys with
          | error e => simp [hget, hrest] at h
          | ok rest =>
              obtain rfl : val :: rest = vals := by simpa [hget, hrest] using h
              exact .cons hget (ih hrest)

/-- A backend that keeps the base class's `get_many_async`. -/
def StateBackend (getAsync : ω → Nat → Key → Answer ε) : Inner ω ε where
  getAsync := getAsync
  getManyAsync := fun w op keys => awaitEach (getAsync w op) keys
  getManyAsync_ok := fun _ _ _ _ h => awaitEach_ok h

/-- A record's coroutine, as far as its reads go. -/
abbrev Record (ε : Type) := Resumable (Nat × Key) (Answer ε)

/-- A suspended record. -/
structure Handle (ε : Type) where
  record : Nat
  next : Answer ε → Record ε

structure PendingRead (ε : Type) where
  key : Key
  slot : Option Value
  handle : Handle ε

/-- What a record saw when it was resumed, and the batch that carried its read. -/
structure Observation (ω ε : Type) where
  record : Nat
  op : Nat
  key : Key
  world : ω
  batch : List Key
  seen : Answer ε

structure State (ω ε : Type) where
  pending : SortedMap Nat (List (PendingRead ε)) := .empty
  /-- The `launch_flush_` coroutines suspended on their batched read. -/
  launched : List (Nat × List (PendingRead ε)) := []
  /-- The records so far, as they were submitted. -/
  submitted : List (Nat × Record ε) := []
  log : List (Observation ω ε) := []

namespace State

variable (I : Inner ω ε) (s : State ω ε)

/-- `get_async` up to its suspension. -/
def getAsync (op : Nat) (key : Key) (handle : Handle ε) : State ω ε :=
  { s with pending := s.pending.upsert op fun reads => reads.getD [] ++ [⟨key, none, handle⟩] }

/-- A record runs until it waits for a read or is done. -/
def runRecord (record : Nat) : Record ε → State ω ε
  | .done => s
  | .ask q next => s.getAsync q.1 q.2 ⟨record, next⟩

/-- `await_resume` hands the slot to the record, which goes on. -/
def resume (op : Nat) (w : ω) (batch : List Key) (r : PendingRead ε) : State ω ε :=
  let seen : Answer ε := .ok r.slot
  let o : Observation ω ε := ⟨r.handle.record, op, r.key, w, batch, seen⟩
  { s with log := s.log ++ [o] }.runRecord r.handle.record (r.handle.next seen)

/-- The loop over the batch, from position `i`. -/
def scatter (op : Nat) (w : ω) (batch : List Key) (vals : List (Option Value)) :
    State ω ε → Nat → List (PendingRead ε) → State ω ε
  | s, _, [] => s
  | s, i, r :: reads =>
      let r := match vals[i]? with
        | some v => { r with slot := v }
        | none => r
      scatter op w batch vals (s.resume op w batch r) (i + 1) reads

/-- `launch_flush_` from the answer of its batched read on. -/
def finishFlush (op : Nat) (reads : List (PendingRead ε)) (w : ω) : State ω ε :=
  let keys := reads.map PendingRead.key
  let vals := match I.getManyAsync w op keys with
    | .ok vals => vals
    -- The exception is dropped and the batch has no results.
    | .error _ => []
  s.scatter op w keys vals 0 reads

/-- A launch whose read is answered at once, or suspends. -/
def launchFlush (op : Nat) (reads : List (PendingRead ε)) : Option ω → State ω ε
  | some w => s.finishFlush I op reads w
  | none => { s with launched := s.launched ++ [(op, reads)] }

/-- `ready` says which operators' reads are answered without suspending. -/
def flush (ready : Nat → Option ω) : State ω ε × Bool :=
  if s.pending.entries = [] then (s, false)
  else
    let batches := s.pending.entries
    (batches.foldl (fun s b => s.launchFlush I b.1 b.2 (ready b.1)) { s with pending := .empty },
      true)

/-- The answer of the `i`-th suspended launch arrives. -/
def complete (i : Nat) (w : ω) : State ω ε :=
  match s.launched[i]? with
  | none => s
  | some b => { s with launched := s.launched.eraseIdx i }.finishFlush I b.1 b.2 w

end State

inductive Event (ω ε : Type) where
  | submit (record : Nat) (body : Record ε)
  | flush (ready : Nat → Option ω)
  | complete (i : Nat) (w : ω)

def State.step (I : Inner ω ε) (s : State ω ε) : Event ω ε → State ω ε
  | .submit record body =>
      { s with submitted := s.submitted ++ [(record, body)] }.runRecord record body
  | .flush ready => (s.flush I ready).1
  | .complete i w => s.complete I i w

/-- A record is submitted once. -/
def NewRecord (_ : List (Event ω ε)) (s : State ω ε) : Event ω ε → Prop
  | .submit record _ => record ∉ s.submitted.map Prod.fst
  | _ => True

instance (es : List (Event ω ε)) (s : State ω ε) (e : Event ω ε) :
    Decidable (NewRecord es s e) :=
  match e with
  | .submit record _ => inferInstanceAs (Decidable (record ∉ s.submitted.map Prod.fst))
  | .flush _ => .isTrue trivial
  | .complete _ _ => .isTrue trivial

/-! ## Where every record is -/

/-- The reads of a list of batches, each with its operator. -/
def readsOf (batches : List (Nat × List (PendingRead ε))) : List (Nat × PendingRead ε) :=
  batches.flatMap fun b => b.2.map (b.1, ·)

/-- Parking one more read adds it to the batches, somewhere. -/
theorem readsOf_upsert (m : SortedMap Nat (List (PendingRead ε))) (op : Nat) (r : PendingRead ε) :
    (readsOf (m.upsert op fun reads => reads.getD [] ++ [r]).entries).Perm
      ((op, r) :: readsOf m.entries) := by
  have hkey : ∀ l : List (Nat × List (PendingRead ε)),
      (readsOf (SortedMap.upsertEntries op (fun reads => reads.getD [] ++ [r]) l)).Perm
        ((op, r) :: readsOf l) := by
    intro l
    induction l with
    | nil => simp [SortedMap.upsertEntries, readsOf]
    | cons b rest ih =>
        obtain ⟨op', reads⟩ := b
        unfold SortedMap.upsertEntries
        by_cases hlt : op < op'
        · rw [if_pos hlt]
          simp [readsOf]
        · rw [if_neg hlt]
          by_cases heq : op = op'
          · subst heq
            rw [if_pos rfl]
            simp only [readsOf, List.flatMap_cons, Option.getD_some, List.map_append, List.map_cons,
              List.map_nil, List.append_assoc, List.singleton_append]
            exact List.perm_middle
          · rw [if_neg heq]
            simp only [readsOf, List.flatMap_cons] at ih ⊢
            exact (ih.append_left _).trans List.perm_middle
  exact hkey m.entries

namespace State

/-- Every read some record waits for. -/
def parked (s : State ω ε) : List (Nat × PendingRead ε) :=
  readsOf s.pending.entries ++ readsOf s.launched

/-- A record's reads so far and what it saw. -/
def transcript (s : State ω ε) (record : Nat) : List ((Nat × Key) × Answer ε) :=
  (s.log.filter fun o => o.record = record).map fun o => ((o.op, o.key), o.seen)

/-- Every record has followed its body along what it saw: it is done, or it
waits at one read.  `held` are the reads a running `launch_flush_` has taken,
`running` the record it is about to run. -/
structure Accounted (s : State ω ε) (held : List (Nat × PendingRead ε)) (running : Option Nat) :
    Prop where
  bodies : (s.submitted.map Prod.fst).Nodup
  one : ((s.parked ++ held).map fun p => p.2.handle.record).Nodup
  empty : ∀ p ∈ s.parked ++ held, p.2.slot = none
  waits : ∀ p ∈ s.parked ++ held, ∃ body, (p.2.handle.record, body) ∈ s.submitted ∧
    body.after (s.transcript p.2.handle.record) = some (.ask (p.1, p.2.key) p.2.handle.next)
  rests : ∀ record body, (record, body) ∈ s.submitted → some record ≠ running →
    (∀ p ∈ s.parked ++ held, p.2.handle.record ≠ record) →
    body.after (s.transcript record) = some .done
  logged : ∀ o ∈ s.log, o.record ∈ s.submitted.map Prod.fst

variable {I : Inner ω ε} {s s' : State ω ε} {held held' : List (Nat × PendingRead ε)}
  {running : Option Nat}

/-- Only which reads are parked or held matters, not where. -/
theorem Accounted.of_perm (h : s.Accounted held running) (hlog : s'.log = s.log)
    (hsubmitted : s'.submitted = s.submitted)
    (hperm : (s'.parked ++ held').Perm (s.parked ++ held)) : s'.Accounted held' running := by
  have htr : ∀ record, s'.transcript record = s.transcript record := by
    intro record
    rw [transcript, transcript, hlog]
  constructor
  · rw [hsubmitted]
    exact h.bodies
  · exact (hperm.map _).nodup_iff.mpr h.one
  · intro p hp
    exact h.empty p (hperm.mem_iff.mp hp)
  · intro p hp
    rw [hsubmitted, htr]
    exact h.waits p (hperm.mem_iff.mp hp)
  · intro record body hbody hrun hfree
    rw [hsubmitted] at hbody
    rw [htr]
    exact h.rests record body hbody hrun fun p hp => hfree p (hperm.mem_iff.mpr hp)
  · rw [hlog, hsubmitted]
    exact h.logged

theorem parked_getAsync (s : State ω ε) (op : Nat) (key : Key) (handle : Handle ε) :
    (s.getAsync op key handle).parked.Perm ((op, ⟨key, none, handle⟩) :: s.parked) := by
  unfold parked getAsync
  exact (readsOf_upsert s.pending op _).append_right _

/-- Running a record leaves it done or waiting at one read. -/
theorem Accounted.runRecord {record : Nat} {body c : Record ε}
    (h : s.Accounted held (some record)) (hbody : (record, body) ∈ s.submitted)
    (hat : body.after (s.transcript record) = some c)
    (hfree : ∀ p ∈ s.parked ++ held, p.2.handle.record ≠ record) :
    (s.runRecord record c).Accounted held none := by
  -- A submitted record has one body.
  have hunique : ∀ body', (record, body') ∈ s.submitted → body' = body := by
    intro body' hbody'
    have heq := List.inj_on_of_nodup_map h.bodies hbody' hbody rfl
    exact (Prod.mk.inj heq).2
  cases c with
  | done =>
      refine ⟨h.bodies, h.one, h.empty, h.waits, ?_, h.logged⟩
      intro record' body' hbody' _ hfree'
      by_cases hrec : record' = record
      · subst hrec
        rw [hunique body' hbody']
        exact hat
      · exact h.rests record' body' hbody' (by simpa using hrec) hfree'
  | ask q next =>
      have hperm : ((s.getAsync q.1 q.2 ⟨record, next⟩).parked ++ held).Perm
          ((q.1, ⟨q.2, none, ⟨record, next⟩⟩) :: (s.parked ++ held)) :=
        (parked_getAsync s q.1 q.2 ⟨record, next⟩).append_right held
      refine ⟨h.bodies, ?_, ?_, ?_, ?_, h.logged⟩
      · refine (hperm.map _).nodup_iff.mpr (List.nodup_cons.mpr ⟨?_, h.one⟩)
        intro hmem
        obtain ⟨p, hp, hrec⟩ := List.mem_map.mp hmem
        exact hfree p hp hrec
      · intro p hp
        rcases List.mem_cons.mp (hperm.mem_iff.mp hp) with rfl | hp
        · rfl
        · exact h.empty p hp
      · intro p hp
        rcases List.mem_cons.mp (hperm.mem_iff.mp hp) with rfl | hp
        · exact ⟨body, hbody, hat⟩
        · exact h.waits p hp
      · intro record' body' hbody' _ hfree'
        have hrec : record' ≠ record := by
          intro heq
          exact hfree' _ (hperm.mem_iff.mpr List.mem_cons_self) heq.symm
        refine h.rests record' body' hbody' (by simpa using hrec) ?_
        intro p hp
        exact hfree' p (hperm.mem_iff.mpr (List.mem_cons_of_mem _ hp))

/-- What a resumed record sees is added to its own transcript only. -/
theorem transcript_snoc (s : State ω ε) (o : Observation ω ε) (record : Nat) :
    { s with log := s.log ++ [o] }.transcript record =
      if o.record = record then s.transcript record ++ [((o.op, o.key), o.seen)]
      else s.transcript record := by
  unfold transcript
  by_cases h : o.record = record <;> simp [List.filter_append, h]

/-- A held read is answered: its record goes on from where it waited. -/
theorem Accounted.resume {op : Nat} {r : PendingRead ε} (h : s.Accounted ((op, r) :: held) none)
    (slot : Option Value) (w : ω) (batch : List Key) :
    (s.resume op w batch { r with slot := slot }).Accounted held none := by
  have hmem : (op, r) ∈ s.parked ++ (op, r) :: held := by simp
  have hsub : ∀ p ∈ s.parked ++ held, p ∈ s.parked ++ (op, r) :: held := by
    intro p hp
    rcases List.mem_append.mp hp with hp | hp
    · exact List.mem_append_left _ hp
    · exact List.mem_append_right _ (List.mem_cons_of_mem _ hp)
  have hone := (List.perm_middle.map fun p : Nat × PendingRead ε => p.2.handle.record).nodup_iff.mp
    h.one
  obtain ⟨hnew, hrest⟩ := List.nodup_cons.mp hone
  have hfree : ∀ p ∈ s.parked ++ held, p.2.handle.record ≠ r.handle.record := by
    intro p hp heq
    exact hnew (List.mem_map.mpr ⟨p, hp, heq⟩)
  obtain ⟨body, hbody, hat⟩ := h.waits _ hmem
  set o : Observation ω ε := ⟨r.handle.record, op, r.key, w, batch, .ok slot⟩ with ho
  have hlogged : ({ s with log := s.log ++ [o] } : State ω ε).Accounted held
      (some r.handle.record) := by
    refine ⟨h.bodies, hrest, fun p hp => h.empty p (hsub p hp), ?_, ?_, ?_⟩
    · intro p hp
      rw [transcript_snoc, if_neg (Ne.symm (hfree p hp))]
      exact h.waits p (hsub p hp)
    · intro record body' hbody' hrun hfree'
      have hrec : r.handle.record ≠ record := fun heq => hrun (by rw [heq])
      rw [transcript_snoc, if_neg hrec]
      refine h.rests record body' hbody' (by simp) ?_
      intro p hp
      rcases List.mem_cons.mp (List.perm_middle.mem_iff.mp hp) with rfl | hp
      · exact hrec
      · exact hfree' p hp
    · intro o' ho'
      rcases List.mem_append.mp ho' with ho' | ho'
      · exact h.logged o' ho'
      · obtain rfl := List.mem_singleton.mp ho'
        exact List.mem_map.mpr ⟨_, hbody, rfl⟩
  refine hlogged.runRecord hbody ?_ hfree
  rw [transcript_snoc, if_pos rfl]
  exact Resumable.after_snoc hat _

end State

/-! ## What a record sees -/

/-- The plain answer where the batch returned, an absent key where it threw. -/
def Observation.Served (I : Inner ω ε) (o : Observation ω ε) : Prop :=
  o.key ∈ o.batch ∧
    match I.getManyAsync o.world o.op o.batch with
    | .ok _ => o.seen = I.getAsync o.world o.op o.key
    | .error _ => o.seen = .ok none

/-- The results a batch is scattered from. -/
def results (I : Inner ω ε) (op : Nat) (w : ω) (batch : List Key) : List (Option Value) :=
  match I.getManyAsync w op batch with
  | .ok vals => vals
  | .error _ => []

/-- The value that reaches position `i` is the plain answer for its key, or
nothing at all. -/
theorem served_at {I : Inner ω ε} {op : Nat} {w : ω} {batch : List Key} {i : Nat} {key : Key}
    (hkey : batch[i]? = some key) (record : Nat) :
    Observation.Served I
      ⟨record, op, key, w, batch, .ok (((results I op w batch)[i]?).getD none)⟩ := by
  refine ⟨List.mem_of_getElem? hkey, ?_⟩
  unfold results
  cases hmany : I.getManyAsync w op batch with
  | error e => rfl
  | ok vals =>
      obtain ⟨hlen, hall⟩ := List.forall₂_iff_get.mp (I.getManyAsync_ok w op batch vals hmany)
      obtain ⟨hi, rfl⟩ := List.getElem?_eq_some_iff.mp hkey
      have hi' : i < vals.length := hlen ▸ hi
      have hplain := hall i hi hi'
      simp only [List.getElem?_eq_getElem hi', Option.getD_some]
      exact hplain.symm

namespace State

variable {I : Inner ω ε} {s : State ω ε} {held : List (Nat × PendingRead ε)}

theorem log_runRecord (s : State ω ε) (record : Nat) (c : Record ε) :
    (s.runRecord record c).log = s.log := by
  cases c <;> rfl

variable {reads : List (PendingRead ε)}

/-- The scatter loop answers each read of the batch from its own position. -/
theorem scatter_spec {op : Nat} {w : ω} {pre : List Key} {batch : List Key}
    (hbatch : batch = pre ++ reads.map PendingRead.key)
    (hacc : s.Accounted (reads.map (op, ·) ++ held) none) (hlog : ∀ o ∈ s.log, o.Served I) :
    (s.scatter op w batch (results I op w batch) pre.length reads).Accounted held none ∧
      ∀ o ∈ (s.scatter op w batch (results I op w batch) pre.length reads).log, o.Served I := by
  induction reads generalizing s pre with
  | nil => exact ⟨hacc, hlog⟩
  | cons r reads ih =>
      have hempty : r.slot = none := hacc.empty (op, r) (by simp)
      set slot := ((results I op w batch)[pre.length]?).getD none with hslot
      have hfill : (match (results I op w batch)[pre.length]? with
          | some v => { r with slot := v }
          | none => r) = { r with slot := slot } := by
        cases hv : (results I op w batch)[pre.length]? with
        | none =>
            rw [hslot, hv, Option.getD_none, ← hempty]
        | some v => rw [hslot, hv, Option.getD_some]
      have hkey : batch[pre.length]? = some r.key := by simp [hbatch]
      have hnext : batch = (pre ++ [r.key]) ++ reads.map PendingRead.key := by simp [hbatch]
      unfold scatter
      rw [hfill]
      have hstep := ih hnext (hacc.resume slot w batch) (by
        intro o ho
        unfold resume at ho
        rw [log_runRecord] at ho
        rcases List.mem_append.mp ho with ho | ho
        · exact hlog o ho
        · obtain rfl := List.mem_singleton.mp ho
          exact served_at hkey _)
      simpa using hstep

theorem finishFlush_spec {op : Nat} (hacc : s.Accounted (reads.map (op, ·) ++ held) none)
    (hlog : ∀ o ∈ s.log, o.Served I) (w : ω) :
    (s.finishFlush I op reads w).Accounted held none ∧
      ∀ o ∈ (s.finishFlush I op reads w).log, o.Served I := by
  have hbatch : reads.map PendingRead.key = [] ++ reads.map PendingRead.key := rfl
  exact scatter_spec hbatch hacc hlog

/-- A launch takes its batch out of the held reads, answered or suspended. -/
theorem launchFlush_spec {op : Nat} (hacc : s.Accounted (reads.map (op, ·) ++ held) none)
    (hlog : ∀ o ∈ s.log, o.Served I) (ready : Option ω) :
    (s.launchFlush I op reads ready).Accounted held none ∧
      ∀ o ∈ (s.launchFlush I op reads ready).log, o.Served I := by
  cases ready with
  | some w => exact finishFlush_spec hacc hlog w
  | none =>
      refine ⟨hacc.of_perm rfl rfl ?_, hlog⟩
      simp [launchFlush, parked, readsOf]

theorem launchAll_spec (ready : Nat → Option ω) {batches : List (Nat × List (PendingRead ε))}
    (hacc : s.Accounted (readsOf batches) none) (hlog : ∀ o ∈ s.log, o.Served I) :
    (batches.foldl (fun s b => s.launchFlush I b.1 b.2 (ready b.1)) s).Accounted [] none ∧
      ∀ o ∈ (batches.foldl (fun s b => s.launchFlush I b.1 b.2 (ready b.1)) s).log,
        o.Served I := by
  induction batches generalizing s with
  | nil => exact ⟨hacc, hlog⟩
  | cons b batches ih =>
      have hfirst : s.Accounted (b.2.map (b.1, ·) ++ readsOf batches) none := hacc
      obtain ⟨hacc', hlog'⟩ := launchFlush_spec hfirst hlog (ready b.1)
      exact ih hacc' hlog'

theorem flush_spec (hacc : s.Accounted [] none) (hlog : ∀ o ∈ s.log, o.Served I)
    (ready : Nat → Option ω) : (s.flush I ready).1.Accounted [] none ∧
      ∀ o ∈ (s.flush I ready).1.log, o.Served I := by
  unfold flush
  by_cases hnone : s.pending.entries = []
  · rw [if_pos hnone]
    exact ⟨hacc, hlog⟩
  · rw [if_neg hnone]
    refine launchAll_spec ready (hacc.of_perm rfl rfl ?_) hlog
    simpa [parked, readsOf] using List.perm_append_comm

/-- The reads of a suspended launch, taken out of the parked ones. -/
theorem parked_eraseIdx {i : Nat} {b : Nat × List (PendingRead ε)}
    (hb : s.launched[i]? = some b) :
    (s.parked ++ []).Perm (({ s with launched := s.launched.eraseIdx i } : State ω ε).parked ++
      (b.2.map (b.1, ·) ++ [])) := by
  obtain ⟨hi, rfl⟩ := List.getElem?_eq_some_iff.mp hb
  have hlaunched : (readsOf s.launched).Perm
      (s.launched[i].2.map (s.launched[i].1, ·) ++ readsOf (s.launched.eraseIdx i)) := by
    have hperm := (List.getElem_cons_eraseIdx_perm hi).symm
    exact hperm.flatMap_right fun b => b.2.map (b.1, ·)
  simp only [parked, List.append_nil, List.append_assoc]
  exact (hlaunched.trans List.perm_append_comm).append_left _

theorem complete_spec (hacc : s.Accounted [] none) (hlog : ∀ o ∈ s.log, o.Served I)
    (i : Nat) (w : ω) : (s.complete I i w).Accounted [] none ∧
      ∀ o ∈ (s.complete I i w).log, o.Served I := by
  unfold complete
  cases hb : s.launched[i]? with
  | none => exact ⟨hacc, hlog⟩
  | some b =>
      have hheld : ({ s with launched := s.launched.eraseIdx i } : State ω ε).Accounted
          (b.2.map (b.1, ·) ++ []) none := by
        refine hacc.of_perm rfl rfl ?_
        exact (parked_eraseIdx hb).symm
      exact finishFlush_spec hheld hlog w

/-- A new record runs to its first read. -/
theorem submit_spec (hacc : s.Accounted [] none) {record : Nat}
    (hnew : record ∉ s.submitted.map Prod.fst) (body : Record ε) :
    ({ s with submitted := s.submitted ++ [(record, body)] }.runRecord record body).Accounted
      [] none := by
  have hfree : ∀ p ∈ s.parked ++ [], p.2.handle.record ≠ record := by
    intro p hp heq
    obtain ⟨body', hbody', -⟩ := hacc.waits p hp
    exact hnew (List.mem_map.mpr ⟨_, hbody', heq⟩)
  have hempty : s.transcript record = [] := by
    unfold transcript
    rw [List.map_eq_nil_iff, List.filter_eq_nil_iff]
    intro o ho heq
    exact hnew (of_decide_eq_true heq ▸ hacc.logged o ho)
  have hadd : ({ s with submitted := s.submitted ++ [(record, body)] } : State ω ε).Accounted []
      (some record) := by
    refine ⟨?_, hacc.one, hacc.empty, ?_, ?_, ?_⟩
    · rw [List.map_append]
      exact List.nodup_append'.mpr ⟨hacc.bodies, by simp, by simpa using hnew⟩
    · intro p hp
      obtain ⟨body', hbody', hat⟩ := hacc.waits p hp
      exact ⟨body', List.mem_append_left _ hbody', hat⟩
    · intro record' body' hbody' hrun hfree'
      rcases List.mem_append.mp hbody' with hbody' | hbody'
      · exact hacc.rests record' body' hbody' (by simp) hfree'
      · obtain ⟨rfl, -⟩ := Prod.mk.inj (List.mem_singleton.mp hbody')
        exact absurd rfl hrun
    · intro o ho
      rw [List.map_append]
      exact List.mem_append_left _ (hacc.logged o ho)
  have hbody : (record, body) ∈ s.submitted ++ [(record, body)] :=
    List.mem_append_right _ (List.mem_singleton.mpr rfl)
  refine hadd.runRecord hbody ?_ hfree
  change body.after (s.transcript record) = some body
  rw [hempty, Resumable.after_nil]

theorem step_spec (hacc : s.Accounted [] none) (hlog : ∀ o ∈ s.log, o.Served I)
    {es : List (Event ω ε)} {e : Event ω ε} (hnew : NewRecord es s e) :
    (s.step I e).Accounted [] none ∧ ∀ o ∈ (s.step I e).log, o.Served I := by
  cases e with
  | submit record body =>
      refine ⟨submit_spec hacc hnew body, ?_⟩
      unfold step
      rw [log_runRecord]
      exact hlog
  | flush ready => exact flush_spec hacc hlog ready
  | complete i w => exact complete_spec hacc hlog i w

theorem run_spec {es : List (Event ω ε)} (h : Runs (step I) NewRecord {} es s) :
    s.Accounted [] none ∧ ∀ o ∈ s.log, o.Served I := by
  refine h.induct (I := fun _ s => s.Accounted [] none ∧ ∀ o ∈ s.log, o.Served I) ?_ ?_
  · refine ⟨⟨?_, ?_, ?_, ?_, ?_, ?_⟩, ?_⟩ <;> simp [parked, readsOf]
  · rintro es s e - ⟨hacc, hlog⟩ hnew
    exact step_spec hacc hlog hnew

end State

/-! ## Coalesced reads and plain reads -/

/-- In every run each record follows its body along what it sees, waiting at
one read or done, and what it sees of a read is what the plain read gives when
the batch that carries it returns, and an absent key when that batch throws. -/
theorem coalesced_reads (I : Inner ω ε) {es : List (Event ω ε)} {s : State ω ε}
    (h : Runs (State.step I) NewRecord {} es s) :
    (∀ o ∈ s.log, o.key ∈ o.batch ∧
      ((∃ vals, I.getManyAsync o.world o.op o.batch = .ok vals) →
        o.seen = I.getAsync o.world o.op o.key) ∧
      ((∃ e, I.getManyAsync o.world o.op o.batch = .error e) → o.seen = .ok none)) ∧
    (∀ record body, (record, body) ∈ s.submitted →
      body.after (s.transcript record) = some .done ∨
      ∃ p ∈ s.parked, p.2.handle.record = record ∧
        body.after (s.transcript record) = some (.ask (p.1, p.2.key) p.2.handle.next)) ∧
    (s.parked.map fun p => p.2.handle.record).Nodup := by
  obtain ⟨hacc, hlog⟩ := State.run_spec h
  refine ⟨?_, ?_, ?_⟩
  · intro o ho
    obtain ⟨hkey, hseen⟩ := hlog o ho
    refine ⟨hkey, ?_, ?_⟩
    · rintro ⟨vals, hmany⟩
      rw [hmany] at hseen
      exact hseen
    · rintro ⟨e, hmany⟩
      rw [hmany] at hseen
      exact hseen
  · intro record body hbody
    by_cases hfree : ∀ p ∈ s.parked, p.2.handle.record ≠ record
    · exact .inl (hacc.rests record body hbody (by simp) (by simpa using hfree))
    · push Not at hfree
      obtain ⟨p, hp, rfl⟩ := hfree
      obtain ⟨body', hbody', hat⟩ := hacc.waits p (by simpa using hp)
      obtain rfl : body' = body :=
        (Prod.mk.inj (List.inj_on_of_nodup_map hacc.bodies hbody' hbody rfl)).2
      exact .inr ⟨p, hp, rfl, hat⟩
  · simpa using hacc.one

/-- A backend that has `[1]` at key `[1]` and fails to read key `[2]`. -/
def halfBroken : Inner Unit String :=
  StateBackend fun _ _ key => if key = [2] then .error "read failed" else .ok (some [1])

/-- A record that reads one key of operator 0. -/
def readOnce (key : Key) : Record String := .ask (0, key) fun _ => .done

/-- Two records share a flush; the second key cannot be read. -/
def sharedFlush : List (Event Unit String) :=
  [.submit 1 (readOnce [1]), .submit 2 (readOnce [2]), .flush fun _ => some ()]

/-- Each record flushed on its own. -/
def separateFlushes : List (Event Unit String) :=
  [.submit 1 (readOnce [1]), .flush fun _ => none, .complete 0 (),
    .submit 2 (readOnce [2]), .flush fun _ => none, .complete 0 ()]

/-- With a flush each, the first record sees its value; the second one's read
throws and it sees an absent key. -/
theorem coalesced_reads_separately :
    Runs (State.step halfBroken) NewRecord {} separateFlushes
      (separateFlushes.foldl (State.step halfBroken) {}) ∧
    ∀ o ∈ (separateFlushes.foldl (State.step halfBroken) {}).log, o.key ∈ o.batch ∧
      ((∃ vals, halfBroken.getManyAsync o.world o.op o.batch = .ok vals) →
        o.seen = halfBroken.getAsync o.world o.op o.key) ∧
      ((∃ e, halfBroken.getManyAsync o.world o.op o.batch = .error e) → o.seen = .ok none) := by
  have hrun : Runs (State.step halfBroken) NewRecord {} separateFlushes
      (separateFlushes.foldl (State.step halfBroken) {}) := .of_allowed (by decide)
  exact ⟨hrun, (coalesced_reads halfBroken hrun).1⟩

/-- In a shared flush the failed read takes the other one with it: the plain
reads give `[1]` and an exception, and both records see an absent key. -/
theorem failed_batch_reads_absent :
    Runs (State.step halfBroken) NewRecord {} sharedFlush
      (sharedFlush.foldl (State.step halfBroken) {}) ∧
    (∃ o ∈ (sharedFlush.foldl (State.step halfBroken) {}).log,
      halfBroken.getAsync o.world o.op o.key = .ok (some [1]) ∧ o.seen = .ok none) ∧
    (∃ o ∈ (sharedFlush.foldl (State.step halfBroken) {}).log,
      halfBroken.getAsync o.world o.op o.key = .error "read failed" ∧ o.seen = .ok none) := by
  have hlog : (sharedFlush.foldl (State.step halfBroken) {}).log =
      [⟨1, 0, [1], (), [[1], [2]], .ok none⟩, ⟨2, 0, [2], (), [[1], [2]], .ok none⟩] := rfl
  refine ⟨.of_allowed (by decide), ?_, ?_⟩
  · exact ⟨_, hlog ▸ List.mem_cons_self, rfl, rfl⟩
  · exact ⟨_, hlog ▸ List.mem_cons_of_mem _ List.mem_cons_self, rfl, rfl⟩

end Clink.Ports.CoalescingBackend

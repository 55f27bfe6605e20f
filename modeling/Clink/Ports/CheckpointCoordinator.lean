import Clink.Ports.MultiInputAlignment
import Clink.Verified.History
import Mathlib.Data.Finset.Basic

/-!
# Completion of a checkpoint in one process

The embedding of `CheckpointCoordinator`
(`src/checkpoint/checkpoint_coordinator.cpp`).  Every method that touches the
bookkeeping holds the mutex while it does, so an interleaving of the threads
that trigger, acknowledge and abort is a list of whole calls.

Completion is kept as one number, `last_completed_`, and the absence of an
entry: `is_complete` compares the two.  `Tracked` says what that comparison
knows about every id ever issued, and `InOrder` is the condition on a call
under which it knows enough.
-/

namespace Clink.Ports.CheckpointCoordinator

open Clink.Verified
open Clink.Ports.MultiInputAlignment (Mode CheckpointBarrier)

/-! ## The coordinator -/

structure Config where
  defaultMode : Mode := .aligned

/-- A checkpoint some of whose acknowledgements are outstanding. -/
structure InFlight where
  pending : Finset Nat
  aborted : Bool := false
  deriving DecidableEq

structure Coordinator where
  registeredOps : Finset Nat := ∅
  inFlight : AList (fun _ : Nat => InFlight) := ∅
  lastCompleted : Nat := 0
  nextId : Nat := 1

/-- What a call of `acknowledge` came to: it returned, or the backend's
`snapshot` threw out of it. -/
inductive Ack where
  | returned (completed : Bool)
  | threw
  deriving DecidableEq

/-- `emplace`: an id that is there keeps its entry. -/
def emplace (m : AList fun _ : Nat => InFlight) (id : Nat) (inf : InFlight) :
    AList fun _ : Nat => InFlight :=
  if id ∈ m then m else m.insert id inf

namespace Coordinator

def registerOperator (c : Coordinator) (op : Nat) : Coordinator :=
  { c with registeredOps := insert op c.registeredOps }

/-- The critical section of both `trigger` overloads: take the next id and
expect the operators registered now. -/
def beginNext (c : Coordinator) : Coordinator :=
  { c with
    nextId := c.nextId + 1
    inFlight := emplace c.inFlight c.nextId { pending := c.registeredOps } }

/-- `trigger()`; `resolved` is what the mode resolver answered, if one is set. -/
def trigger (cfg : Config) (c : Coordinator) (resolved : Option Mode) :
    Coordinator × CheckpointBarrier :=
  (c.beginNext, { id := c.nextId, mode := resolved.getD cfg.defaultMode })

/-- `trigger(mode_override)`. -/
def triggerOverride (c : Coordinator) (mode : Mode) : Coordinator × CheckpointBarrier :=
  (c.beginNext, { id := c.nextId, mode := mode })

/-- `acknowledge`; `persisted` is whether the backend's `snapshot` returned. -/
def acknowledge (c : Coordinator) (id op : Nat) (persisted : Bool) : Coordinator × Ack :=
  match c.inFlight.lookup id with
  | none => (c, .returned false)
  | some inf =>
      if inf.aborted then (c, .returned false)
      else
        let pending := inf.pending.erase op
        let counted := c.inFlight.insert id { inf with pending := pending }
        if pending = ∅ then
          if persisted then
            ({ c with lastCompleted := id, inFlight := counted.erase id }, .returned true)
          else ({ c with inFlight := counted }, .threw)
        else ({ c with inFlight := counted }, .returned false)

def abort (c : Coordinator) (id : Nat) : Coordinator :=
  match c.inFlight.lookup id with
  | none => c
  | some inf => { c with inFlight := c.inFlight.insert id { inf with aborted := true } }

def isComplete (c : Coordinator) (id : Nat) : Bool :=
  decide (id ≤ c.lastCompleted) && (c.inFlight.lookup id).isNone

def lastCompletedId (c : Coordinator) : Nat := c.lastCompleted

end Coordinator

/-! ## Calls and histories -/

inductive Call where
  | registerOperator (op : Nat)
  | trigger (resolved : Option Mode)
  | triggerOverride (mode : Mode)
  | acknowledge (id op : Nat) (persisted : Bool)
  | abort (id : Nat)
  deriving DecidableEq

inductive Answer where
  | barrier (b : CheckpointBarrier)
  | acknowledged (ack : Ack)
  | done
  deriving DecidableEq

/-- One call: the coordinator after it, and what the caller got. -/
def Call.apply (cfg : Config) (c : Coordinator) : Call → Coordinator × Answer
  | .registerOperator op => (c.registerOperator op, .done)
  | .trigger resolved => ((c.trigger cfg resolved).1, .barrier (c.trigger cfg resolved).2)
  | .triggerOverride mode => ((c.triggerOverride mode).1, .barrier (c.triggerOverride mode).2)
  | .acknowledge id op persisted =>
      ((c.acknowledge id op persisted).1, .acknowledged (c.acknowledge id op persisted).2)
  | .abort id => (c.abort id, .done)

/-- The coordinator after a history of calls on a fresh one. -/
def run (cfg : Config) (calls : List Call) : Coordinator :=
  calls.foldl (fun c call => (call.apply cfg c).1) {}

variable {cfg : Config} {calls before since : List Call} {call trig : Call} {id op : Nat}
  {c : Coordinator} {inf : InFlight}

@[simp] theorem run_nil : run cfg [] = {} := rfl

theorem run_snoc : run cfg (calls ++ [call]) = (call.apply cfg (run cfg calls)).1 := by
  simp [run]

/-- Some `acknowledge` of the checkpoint returned true. -/
def ReturnedTrue (cfg : Config) (calls : List Call) (id : Nat) : Prop :=
  Occurred (fun pre call => ∃ op persisted, call = .acknowledge id op persisted ∧
    ((run cfg pre).acknowledge id op persisted).2 = .returned true) calls

/-- The call was a trigger and its barrier has this id. -/
def Began (cfg : Config) (before : List Call) (trig : Call) (id : Nat) : Prop :=
  ∃ b, (trig.apply cfg (run cfg before)).2 = .barrier b ∧ b.id = id

/-- Every operator registered when the checkpoint was triggered has
acknowledged it, with no abort of it before the last of them. -/
def AllAcknowledged (cfg : Config) (calls : List Call) (id : Nat) : Prop :=
  ∃ before trig since op after,
    calls = before ++ trig :: (since ++ .acknowledge id op true :: after) ∧
    Began cfg before trig id ∧ .abort id ∉ since ∧
    ∀ o, .registerOperator o ∈ before → o = op ∨ ∃ persisted, .acknowledge id o persisted ∈ since

/-- A call that completes a checkpoint completes one above the last completed. -/
def InOrder (c : Coordinator) : Call → Prop
  | .acknowledge id op true =>
      ∀ inf, c.inFlight.lookup id = some inf → inf.aborted = false → inf.pending ⊆ {op} →
        c.lastCompleted < id
  | _ => True

/-! ## What each call does -/

theorem lookup_beginNext (hfresh : c.inFlight.lookup c.nextId = none) (i : Nat) :
    c.beginNext.inFlight.lookup i =
      if i = c.nextId then some { pending := c.registeredOps } else c.inFlight.lookup i := by
  have hnot : c.nextId ∉ c.inFlight := AList.lookup_eq_none.mp hfresh
  unfold Coordinator.beginNext emplace
  rw [if_neg hnot]
  by_cases hi : i = c.nextId
  · rw [if_pos hi, hi, AList.lookup_insert]
  · rw [if_neg hi, AList.lookup_insert_ne hi]

/-- An acknowledgement is refused, counted, or completes its checkpoint. -/
theorem acknowledge_cases (c : Coordinator) (id op : Nat) (persisted : Bool) :
    ((∀ inf, c.inFlight.lookup id = some inf → inf.aborted = true) ∧
      c.acknowledge id op persisted = (c, .returned false)) ∨
    (∃ inf, c.inFlight.lookup id = some inf ∧ inf.aborted = false ∧
      (inf.pending.erase op = ∅ → persisted = false) ∧
      (c.acknowledge id op persisted).1 =
        { c with inFlight := c.inFlight.insert id { inf with pending := inf.pending.erase op } } ∧
      (c.acknowledge id op persisted).2 ≠ .returned true) ∨
    (∃ inf, c.inFlight.lookup id = some inf ∧ inf.aborted = false ∧
      inf.pending.erase op = ∅ ∧ persisted = true ∧
      c.acknowledge id op persisted =
        ({ c with
            lastCompleted := id
            inFlight := (c.inFlight.insert id
              { inf with pending := inf.pending.erase op }).erase id }, .returned true)) := by
  unfold Coordinator.acknowledge
  cases hinf : c.inFlight.lookup id with
  | none =>
      left
      constructor
      · intro inf hsome
        simp at hsome
      · rfl
  | some inf =>
      by_cases habort : inf.aborted = true
      · left
        simp [habort]
      · have hfalse : inf.aborted = false := by simpa using habort
        right
        by_cases hempty : inf.pending.erase op = ∅
        · cases persisted with
          | true =>
              right
              refine ⟨inf, rfl, hfalse, hempty, rfl, ?_⟩
              simp [hfalse, hempty]
          | false =>
              left
              refine ⟨inf, rfl, hfalse, fun _ => rfl, ?_, ?_⟩
              · simp [hfalse, hempty]
              · simp [hfalse, hempty]
        · left
          refine ⟨inf, rfl, hfalse, fun h => absurd h hempty, ?_, ?_⟩
          · simp [hfalse, hempty]
          · simp [hfalse, hempty]

theorem lookup_acknowledge_ne {i : Nat} {persisted : Bool} (hi : id ≠ i) :
    (c.acknowledge i op persisted).1.inFlight.lookup id = c.inFlight.lookup id := by
  rcases acknowledge_cases c i op persisted with
    ⟨-, hack⟩ | ⟨inf, -, -, -, hstate, -⟩ | ⟨inf, -, -, -, -, hack⟩
  · rw [hack]
  · rw [hstate, AList.lookup_insert_ne hi]
  · rw [hack, AList.lookup_erase_ne hi, AList.lookup_insert_ne hi]

theorem lookup_abort_ne {i : Nat} (hi : id ≠ i) :
    (c.abort i).inFlight.lookup id = c.inFlight.lookup id := by
  unfold Coordinator.abort
  cases c.inFlight.lookup i with
  | none => rfl
  | some inf => exact AList.lookup_insert_ne hi

theorem returnedTrue_snoc :
    ReturnedTrue cfg (calls ++ [call]) id ↔ ReturnedTrue cfg calls id ∨
      ∃ op persisted, call = .acknowledge id op persisted ∧
        ((run cfg calls).acknowledge id op persisted).2 = .returned true :=
  Occurred.snoc_iff

/-- A call that is no acknowledgement completes nothing. -/
theorem returnedTrue_snoc_of_other (h : ∀ op persisted, call ≠ .acknowledge id op persisted) :
    ReturnedTrue cfg (calls ++ [call]) id ↔ ReturnedTrue cfg calls id := by
  rw [returnedTrue_snoc]
  constructor
  · rintro (hret | ⟨op, persisted, hcall, -⟩)
    · exact hret
    · exact absurd hcall (h op persisted)
  · exact .inl

/-! ## Every id issued is in flight or complete -/

structure Tracked (cfg : Config) (calls : List Call) : Prop where
  positive : 0 < (run cfg calls).nextId
  issued : ∀ id inf, (run cfg calls).inFlight.lookup id = some inf →
    0 < id ∧ id < (run cfg calls).nextId
  completed : ∀ id, ReturnedTrue cfg calls id ↔
    0 < id ∧ id < (run cfg calls).nextId ∧ (run cfg calls).inFlight.lookup id = none
  last : (run cfg calls).lastCompleted = 0 ∨
    ReturnedTrue cfg calls (run cfg calls).lastCompleted

namespace Tracked

theorem fresh (h : Tracked cfg calls) :
    (run cfg calls).inFlight.lookup (run cfg calls).nextId = none := by
  cases hinf : (run cfg calls).inFlight.lookup (run cfg calls).nextId with
  | none => rfl
  | some inf =>
      have hlt := (h.issued _ inf hinf).2
      omega

theorem keep (h : Tracked cfg calls)
    (hother : ∀ id, ReturnedTrue cfg (calls ++ [call]) id ↔ ReturnedTrue cfg calls id)
    (hnext : (run cfg (calls ++ [call])).nextId = (run cfg calls).nextId)
    (hlast : (run cfg (calls ++ [call])).lastCompleted = (run cfg calls).lastCompleted)
    (hnone : ∀ i, (run cfg (calls ++ [call])).inFlight.lookup i = none ↔
      (run cfg calls).inFlight.lookup i = none) : Tracked cfg (calls ++ [call]) := by
  constructor
  · rw [hnext]
    exact h.positive
  · intro i inf hinf
    rw [hnext]
    cases hold : (run cfg calls).inFlight.lookup i with
    | none =>
        rw [(hnone i).mpr hold] at hinf
        simp at hinf
    | some inf' => exact h.issued i inf' hold
  · intro i
    rw [hother i, hnext, hnone i]
    exact h.completed i
  · rw [hlast, hother]
    exact h.last

theorem begin (h : Tracked cfg calls)
    (hother : ∀ id, ReturnedTrue cfg (calls ++ [call]) id ↔ ReturnedTrue cfg calls id)
    (hrun : run cfg (calls ++ [call]) = (run cfg calls).beginNext) :
    Tracked cfg (calls ++ [call]) := by
  have hnext : (run cfg calls).beginNext.nextId = (run cfg calls).nextId + 1 := rfl
  have hlast : (run cfg calls).beginNext.lastCompleted = (run cfg calls).lastCompleted := rfl
  have hlook := lookup_beginNext h.fresh
  have hpos := h.positive
  constructor
  · rw [hrun, hnext]
    omega
  · intro i inf hinf
    rw [hrun, hlook] at hinf
    rw [hrun, hnext]
    by_cases hi : i = (run cfg calls).nextId
    · omega
    · rw [if_neg hi] at hinf
      have hold := h.issued i inf hinf
      omega
  · intro i
    rw [hother i, h.completed i, hrun, hnext, hlook]
    by_cases hi : i = (run cfg calls).nextId
    · simp [hi]
    · have hlt : i < (run cfg calls).nextId ↔ i < (run cfg calls).nextId + 1 := by omega
      rw [if_neg hi, hlt]
  · rw [hrun, hlast, hother]
    exact h.last

theorem complete (h : Tracked cfg calls) {persisted : Bool}
    (hcall : call = .acknowledge id op persisted)
    (hinf : (run cfg calls).inFlight.lookup id = some inf)
    (hack : (run cfg calls).acknowledge id op persisted =
      ({ run cfg calls with
          lastCompleted := id
          inFlight := ((run cfg calls).inFlight.insert id
            { inf with pending := inf.pending.erase op }).erase id }, .returned true)) :
    Tracked cfg (calls ++ [call]) := by
  have hrun : run cfg (calls ++ [call]) = ((run cfg calls).acknowledge id op persisted).1 := by
    rw [run_snoc, hcall]
    rfl
  have hret : ∀ i, ReturnedTrue cfg (calls ++ [call]) i ↔ ReturnedTrue cfg calls i ∨ i = id := by
    intro i
    rw [returnedTrue_snoc, hcall]
    constructor
    · rintro (hold | ⟨o, p, heq, -⟩)
      · exact .inl hold
      · simp only [Call.acknowledge.injEq] at heq
        exact .inr heq.1.symm
    · rintro (hold | rfl)
      · exact .inl hold
      · exact .inr ⟨op, persisted, rfl, by rw [hack]⟩
  have hissued := h.issued id inf hinf
  rw [hack] at hrun
  constructor
  · rw [hrun]
    exact h.positive
  · intro i inf' hinf'
    rw [hrun] at hinf' ⊢
    by_cases hi : i = id
    · rw [hi, AList.lookup_erase] at hinf'
      simp at hinf'
    · rw [AList.lookup_erase_ne hi, AList.lookup_insert_ne hi] at hinf'
      exact h.issued i inf' hinf'
  · intro i
    rw [hret i, h.completed i, hrun]
    by_cases hi : i = id
    · subst hi
      simp [AList.lookup_erase, hissued]
    · simp [AList.lookup_erase_ne hi, AList.lookup_insert_ne hi, hi]
  · right
    rw [hrun, hret]
    exact .inr rfl

/-- Changing the entry of an id in flight keeps which ids are. -/
theorem lookup_insert_eq_none {m : AList fun _ : Nat => InFlight} {inf' : InFlight}
    (h : m.lookup id = some inf) (i : Nat) :
    (m.insert id inf').lookup i = none ↔ m.lookup i = none := by
  by_cases hi : i = id
  · rw [hi, AList.lookup_insert, h]
    simp
  · rw [AList.lookup_insert_ne hi]

theorem snoc (h : Tracked cfg calls) (call : Call) : Tracked cfg (calls ++ [call]) := by
  cases call with
  | registerOperator op =>
      have hother : ∀ id, ReturnedTrue cfg (calls ++ [.registerOperator op]) id ↔
          ReturnedTrue cfg calls id :=
        fun id => returnedTrue_snoc_of_other (by simp)
      apply h.keep hother
      · rw [run_snoc]; rfl
      · rw [run_snoc]; rfl
      · intro i
        rw [run_snoc]
        rfl
  | trigger resolved => exact h.begin (fun id => returnedTrue_snoc_of_other (by simp)) run_snoc
  | triggerOverride mode => exact h.begin (fun id => returnedTrue_snoc_of_other (by simp)) run_snoc
  | abort id =>
      have hother : ∀ i, ReturnedTrue cfg (calls ++ [.abort id]) i ↔ ReturnedTrue cfg calls i :=
        fun i => returnedTrue_snoc_of_other (by simp)
      have hrun : run cfg (calls ++ [.abort id]) = (run cfg calls).abort id := run_snoc
      unfold Coordinator.abort at hrun
      cases hinf : (run cfg calls).inFlight.lookup id with
      | none =>
          rw [hinf] at hrun
          apply h.keep hother
          · rw [hrun]
          · rw [hrun]
          · simp [hrun]
      | some inf =>
          rw [hinf] at hrun
          apply h.keep hother
          · rw [hrun]
          · rw [hrun]
          · rw [hrun]
            exact lookup_insert_eq_none hinf
  | acknowledge id op persisted =>
      have hrun : run cfg (calls ++ [.acknowledge id op persisted]) =
          ((run cfg calls).acknowledge id op persisted).1 := run_snoc
      have hsilent (hne : ((run cfg calls).acknowledge id op persisted).2 ≠ .returned true) :
          ∀ i, ReturnedTrue cfg (calls ++ [.acknowledge id op persisted]) i ↔
            ReturnedTrue cfg calls i := by
        intro i
        rw [returnedTrue_snoc]
        constructor
        · rintro (hold | ⟨o, p, heq, htrue⟩)
          · exact hold
          · simp only [Call.acknowledge.injEq] at heq
            obtain ⟨rfl, rfl, rfl⟩ := heq
            exact absurd htrue hne
        · exact .inl
      rcases acknowledge_cases (run cfg calls) id op persisted with
        ⟨-, hack⟩ | ⟨inf, hinf, -, -, hstate, hne⟩ | ⟨inf, hinf, -, -, -, hack⟩
      · rw [hack] at hrun hsilent
        apply h.keep (hsilent (by simp))
        · rw [hrun]
        · rw [hrun]
        · simp [hrun]
      · rw [hstate] at hrun
        apply h.keep (hsilent hne)
        · rw [hrun]
        · rw [hrun]
        · rw [hrun]
          exact lookup_insert_eq_none hinf
      · exact h.complete rfl hinf hack

end Tracked

theorem tracked_run (cfg : Config) (calls : List Call) : Tracked cfg calls := by
  induction calls using List.reverseRecOn with
  | nil =>
      have hnever : ∀ id, ¬ ReturnedTrue cfg [] id := fun id => Occurred.not_nil
      constructor
      · exact Nat.one_pos
      · intro id inf hinf
        simp at hinf
      · intro id
        simp only [hnever id, run_nil, false_iff]
        omega
      · exact .inl rfl
  | append_singleton calls call ih => exact ih.snoc call

/-! ## Who has acknowledged a checkpoint in flight -/

theorem mem_registeredOps (cfg : Config) (calls : List Call) (op : Nat) :
    op ∈ (run cfg calls).registeredOps ↔ .registerOperator op ∈ calls := by
  induction calls using List.reverseRecOn with
  | nil => simp
  | append_singleton calls call ih =>
      rw [run_snoc]
      cases call with
      | registerOperator o =>
          simp only [Call.apply, Coordinator.registerOperator, Finset.mem_insert, ih,
            List.mem_append, List.mem_singleton, Call.registerOperator.injEq]
          exact or_comm
      | trigger resolved => simp [Call.apply, Coordinator.trigger, Coordinator.beginNext, ih]
      | triggerOverride mode =>
          simp [Call.apply, Coordinator.triggerOverride, Coordinator.beginNext, ih]
      | abort id =>
          simp only [Call.apply, Coordinator.abort, List.mem_append, List.mem_singleton,
            reduceCtorEq, or_false]
          cases (run cfg calls).inFlight.lookup id with
          | none => exact ih
          | some inf => exact ih
      | acknowledge id o persisted =>
          simp only [Call.apply, List.mem_append, List.mem_singleton, reduceCtorEq, or_false]
          rcases acknowledge_cases (run cfg calls) id o persisted with
            ⟨-, hack⟩ | ⟨inf, -, -, -, hstate, -⟩ | ⟨inf, -, -, -, -, hack⟩
          · rw [hack]
            exact ih
          · rw [hstate]
            exact ih
          · rw [hack]
            exact ih

/-- The trigger's barrier carries the next id, which is then in flight with
the operators registered so far. -/
theorem began_spec (h : Began cfg before trig id) :
    id = (run cfg before).nextId ∧ run cfg (before ++ [trig]) = (run cfg before).beginNext := by
  obtain ⟨b, hb, rfl⟩ := h
  rw [run_snoc]
  cases trig with
  | trigger resolved =>
      simp only [Call.apply, Coordinator.trigger, Answer.barrier.injEq] at hb ⊢
      exact ⟨by rw [← hb], trivial⟩
  | triggerOverride mode =>
      simp only [Call.apply, Coordinator.triggerOverride, Answer.barrier.injEq] at hb ⊢
      exact ⟨by rw [← hb], trivial⟩
  | registerOperator op => simp [Call.apply] at hb
  | acknowledge i op persisted => simp [Call.apply] at hb
  | abort i => simp [Call.apply] at hb

/-- Since its trigger, and while no abort came, a checkpoint is waiting for
exactly the operators registered then that have not acknowledged it. -/
def Waiting (cfg : Config) (before : List Call) (trig : Call) (since : List Call) (id : Nat) :
    Prop :=
  ∃ inf, (run cfg (before ++ trig :: since)).inFlight.lookup id = some inf ∧
    inf.aborted = false ∧
    ∀ o, o ∈ inf.pending ↔ .registerOperator o ∈ before ∧
      ∀ persisted, .acknowledge id o persisted ∉ since

theorem Waiting.other (h : Waiting cfg before trig since id)
    (hlook : (run cfg (before ++ trig :: (since ++ [call]))).inFlight.lookup id =
      (run cfg (before ++ trig :: since)).inFlight.lookup id)
    (hcall : ∀ o persisted, call ≠ .acknowledge id o persisted) :
    Waiting cfg before trig (since ++ [call]) id := by
  obtain ⟨inf, hinf, habort, hpending⟩ := h
  refine ⟨inf, hlook.trans hinf, habort, ?_⟩
  intro o
  rw [hpending o]
  have hsame : ∀ persisted, Call.acknowledge id o persisted ∈ since ++ [call] ↔
      Call.acknowledge id o persisted ∈ since := by
    intro persisted
    simp [(hcall o persisted).symm]
  simp only [hsame]

/-- An acknowledgement of a waiting checkpoint completes it or is counted. -/
theorem Waiting.acknowledge (h : Waiting cfg before trig since id) (op : Nat)
    (persisted : Bool) :
    ReturnedTrue cfg (before ++ trig :: (since ++ [.acknowledge id op persisted])) id ∨
      Waiting cfg before trig (since ++ [.acknowledge id op persisted]) id := by
  have hassoc : before ++ trig :: (since ++ [Call.acknowledge id op persisted]) =
      (before ++ trig :: since) ++ [Call.acknowledge id op persisted] := by simp
  obtain ⟨inf, hinf, habort, hpending⟩ := h
  rcases acknowledge_cases (run cfg (before ++ trig :: since)) id op persisted with
    ⟨hrefused, -⟩ | ⟨inf', hinf', -, -, hstate, -⟩ | ⟨inf', -, -, -, -, hack⟩
  · have htrue := hrefused inf hinf
    rw [habort] at htrue
    simp at htrue
  · obtain rfl : inf = inf' := Option.some.inj (hinf.symm.trans hinf')
    right
    refine ⟨{ inf with pending := inf.pending.erase op }, ?_, habort, ?_⟩
    · rw [hassoc, run_snoc]
      change ((run cfg (before ++ trig :: since)).acknowledge id op persisted).1.inFlight.lookup id
        = _
      rw [hstate, AList.lookup_insert]
    · intro o
      simp only [Finset.mem_erase, hpending o, List.mem_append, List.mem_singleton,
        Call.acknowledge.injEq, true_and, not_or, not_and]
      constructor
      · rintro ⟨hne, hreg, hnot⟩
        exact ⟨hreg, fun p => ⟨hnot p, fun heq => absurd heq hne⟩⟩
      · rintro ⟨hreg, hnot⟩
        refine ⟨?_, hreg, fun p => (hnot p).1⟩
        intro heq
        exact (hnot persisted).2 heq rfl
  · left
    rw [hassoc, returnedTrue_snoc]
    exact .inr ⟨op, persisted, rfl, by rw [hack]⟩

theorem returned_or_waiting (hbegan : Began cfg before trig id) (habort : .abort id ∉ since) :
    ReturnedTrue cfg (before ++ trig :: since) id ∨ Waiting cfg before trig since id := by
  obtain ⟨hid, hrun⟩ := began_spec hbegan
  induction since using List.reverseRecOn with
  | nil =>
      right
      refine ⟨{ pending := (run cfg before).registeredOps }, ?_, rfl, ?_⟩
      · rw [hrun, lookup_beginNext (tracked_run cfg before).fresh, if_pos hid]
      · intro o
        simp [mem_registeredOps]
  | append_singleton since call ih =>
      have hassoc : before ++ trig :: (since ++ [call]) = (before ++ trig :: since) ++ [call] := by
        simp
      have hnot : .abort id ∉ since := fun hmem => habort (List.mem_append_left _ hmem)
      rcases ih hnot with hret | hwait
      · left
        rw [hassoc]
        exact hret.append [call]
      -- A later trigger takes another id.
      have hbegins : (run cfg (before ++ trig :: since)).beginNext.inFlight.lookup id =
          (run cfg (before ++ trig :: since)).inFlight.lookup id := by
        obtain ⟨inf, hinf, -⟩ := hwait
        have hlt := ((tracked_run cfg _).issued id inf hinf).2
        rw [lookup_beginNext (tracked_run cfg _).fresh, if_neg (by omega)]
      cases call with
      | registerOperator op =>
          right
          apply hwait.other
          · rw [hassoc, run_snoc]
            rfl
          · simp
      | trigger resolved =>
          right
          apply hwait.other
          · rw [hassoc, run_snoc]
            exact hbegins
          · simp
      | triggerOverride mode =>
          right
          apply hwait.other
          · rw [hassoc, run_snoc]
            exact hbegins
          · simp
      | abort i =>
          have hi : id ≠ i := by
            rintro rfl
            simp at habort
          right
          apply hwait.other
          · rw [hassoc, run_snoc]
            exact lookup_abort_ne hi
          · simp
      | acknowledge i op persisted =>
          by_cases hi : id = i
          · subst hi
            exact hwait.acknowledge op persisted
          · right
            apply hwait.other
            · rw [hassoc, run_snoc]
              exact lookup_acknowledge_ne hi
            · intro o p heq
              simp only [Call.acknowledge.injEq] at heq
              exact hi heq.1.symm

/-- A checkpoint in flight was begun by some trigger; while it is not
aborted, no abort of it has come since. -/
theorem began_of_inFlight (hinf : (run cfg calls).inFlight.lookup id = some inf)
    (habort : inf.aborted = false) :
    ∃ before trig since, calls = before ++ trig :: since ∧ Began cfg before trig id ∧
      .abort id ∉ since := by
  induction calls using List.reverseRecOn generalizing inf with
  | nil => simp at hinf
  | append_singleton calls call ih =>
      have hgrow : (∃ inf', (run cfg calls).inFlight.lookup id = some inf' ∧ inf'.aborted = false) →
          call ≠ .abort id → ∃ before trig since, calls ++ [call] = before ++ trig :: since ∧
            Began cfg before trig id ∧ .abort id ∉ since := by
        rintro ⟨inf', hold, hlive⟩ hne
        obtain ⟨before, trig, since, hcalls, hbegan, hnot⟩ := ih hold hlive
        refine ⟨before, trig, since ++ [call], ?_, hbegan, ?_⟩
        · rw [hcalls]
          simp
        · simp [hnot, hne.symm]
      have hbegun : (run cfg calls).beginNext.inFlight.lookup id = some inf → call ≠ .abort id →
          (id = (run cfg calls).nextId → Began cfg calls call id) →
          ∃ before trig since, calls ++ [call] = before ++ trig :: since ∧
            Began cfg before trig id ∧ .abort id ∉ since := by
        intro hnext hne hbegan
        rw [lookup_beginNext (tracked_run cfg _).fresh] at hnext
        by_cases hid : id = (run cfg calls).nextId
        · exact ⟨calls, call, [], rfl, hbegan hid, by simp⟩
        · rw [if_neg hid] at hnext
          exact hgrow ⟨inf, hnext, habort⟩ hne
      rw [run_snoc] at hinf
      cases call with
      | registerOperator op => exact hgrow ⟨inf, hinf, habort⟩ (by simp)
      | trigger resolved => exact hbegun hinf (by simp) fun hid => ⟨_, rfl, hid.symm⟩
      | triggerOverride mode => exact hbegun hinf (by simp) fun hid => ⟨_, rfl, hid.symm⟩
      | abort i =>
          by_cases hi : id = i
          · subst hi
            change ((run cfg calls).abort id).inFlight.lookup id = _ at hinf
            unfold Coordinator.abort at hinf
            cases hold : (run cfg calls).inFlight.lookup id with
            | none => simp [hold] at hinf
            | some inf' =>
                simp only [hold, AList.lookup_insert, Option.some.injEq] at hinf
                rw [← hinf] at habort
                simp at habort
          · change ((run cfg calls).abort i).inFlight.lookup id = _ at hinf
            rw [lookup_abort_ne hi] at hinf
            exact hgrow ⟨inf, hinf, habort⟩ (by simpa using Ne.symm hi)
      | acknowledge i op persisted =>
          change ((run cfg calls).acknowledge i op persisted).1.inFlight.lookup id = _ at hinf
          by_cases hi : id = i
          · subst hi
            rcases acknowledge_cases (run cfg calls) id op persisted with
              ⟨-, hack⟩ | ⟨inf', hold, hlive, -, -, -⟩ | ⟨inf', hold, hlive, -, -, -⟩
            · rw [hack] at hinf
              exact hgrow ⟨inf, hinf, habort⟩ (by simp)
            · exact hgrow ⟨inf', hold, hlive⟩ (by simp)
            · exact hgrow ⟨inf', hold, hlive⟩ (by simp)
          · rw [lookup_acknowledge_ne hi] at hinf
            exact hgrow ⟨inf, hinf, habort⟩ (by simp)

/-- An acknowledgement of a checkpoint returns true exactly once every
operator registered at its trigger has acknowledged it before any abort. -/
theorem returnedTrue_iff (cfg : Config) (calls : List Call) (id : Nat) :
    ReturnedTrue cfg calls id ↔ AllAcknowledged cfg calls id := by
  constructor
  · rintro ⟨pre, call, after, hcalls, op, persisted, rfl, htrue⟩
    rcases acknowledge_cases (run cfg pre) id op persisted with
      ⟨-, hack⟩ | ⟨inf, -, -, -, -, hne⟩ | ⟨inf, hinf, hlive, hempty, rfl, -⟩
    · rw [hack] at htrue
      simp at htrue
    · exact absurd htrue hne
    · obtain ⟨before, trig, since, hpre, hbegan, hnot⟩ := began_of_inFlight hinf hlive
      rw [hpre] at hinf hcalls
      refine ⟨before, trig, since, op, after, by simpa using hcalls, hbegan, hnot, ?_⟩
      intro o hreg
      rcases returned_or_waiting hbegan hnot with hret | ⟨inf', hinf', -, hpending⟩
      · have hnone := (((tracked_run cfg _).completed id).mp hret).2.2
        rw [hnone] at hinf
        simp at hinf
      · obtain rfl : inf = inf' := Option.some.inj (hinf.symm.trans hinf')
        by_cases ho : o = op
        · exact .inl ho
        · right
          have hout : o ∉ inf.pending := by
            intro hmem
            have herase : o ∈ inf.pending.erase op := Finset.mem_erase.mpr ⟨ho, hmem⟩
            rw [hempty] at herase
            simp at herase
          by_contra hnever
          apply hout
          rw [hpending o]
          exact ⟨hreg, fun p hp => hnever ⟨p, hp⟩⟩
  · rintro ⟨before, trig, since, op, after, hcalls, hbegan, hnot, hall⟩
    have hsplit : calls = ((before ++ trig :: since) ++ [.acknowledge id op true]) ++ after := by
      rw [hcalls]
      simp
    rw [hsplit]
    apply Occurred.append
    rcases returned_or_waiting hbegan hnot with hret | ⟨inf, hinf, hlive, hpending⟩
    · exact hret.append _
    · have hempty : inf.pending.erase op = ∅ := by
        rw [Finset.eq_empty_iff_forall_notMem]
        intro o ho
        obtain ⟨hne, hmem⟩ := Finset.mem_erase.mp ho
        obtain ⟨hreg, hnever⟩ := (hpending o).mp hmem
        rcases hall o hreg with heq | ⟨p, hp⟩
        · exact hne heq
        · exact hnever p hp
      rw [Occurred.snoc_iff]
      right
      refine ⟨op, true, rfl, ?_⟩
      rcases acknowledge_cases (run cfg (before ++ trig :: since)) id op true with
        ⟨hrefused, -⟩ | ⟨inf', hinf', -, hthrew, -, -⟩ | ⟨inf', -, -, -, -, hack⟩
      · have htrue := hrefused inf hinf
        rw [hlive] at htrue
        simp at htrue
      · obtain rfl : inf = inf' := Option.some.inj (hinf.symm.trans hinf')
        simp [hempty] at hthrew
      · rw [hack]

/-! ## When the comparison is right -/

theorem isComplete_iff (cfg : Config) (calls : List Call) (hid : id ≠ 0) :
    (run cfg calls).isComplete id = true ↔
      id ≤ (run cfg calls).lastCompleted ∧ ReturnedTrue cfg calls id := by
  have htracked := tracked_run cfg calls
  have hlast : (run cfg calls).lastCompleted < (run cfg calls).nextId := by
    rcases htracked.last with hzero | hret
    · have hpos := htracked.positive
      omega
    · exact ((htracked.completed _).mp hret).2.1
  simp only [Coordinator.isComplete, Bool.and_eq_true, decide_eq_true_eq, Option.isNone_iff_eq_none]
  rw [htracked.completed id]
  constructor
  · rintro ⟨hle, hnone⟩
    exact ⟨hle, by omega, by omega, hnone⟩
  · rintro ⟨hle, -, -, hnone⟩
    exact ⟨hle, hnone⟩

/-- Only a completing acknowledgement moves the last completed id, to its own. -/
theorem lastCompleted_snoc (cfg : Config) (calls : List Call) (call : Call) :
    (run cfg (calls ++ [call])).lastCompleted = (run cfg calls).lastCompleted ∨
    ∃ id op inf, call = .acknowledge id op true ∧
      (run cfg calls).inFlight.lookup id = some inf ∧ inf.aborted = false ∧
      inf.pending ⊆ {op} ∧ (run cfg (calls ++ [call])).lastCompleted = id := by
  rw [run_snoc]
  cases call with
  | registerOperator op => exact .inl rfl
  | trigger resolved => exact .inl rfl
  | triggerOverride mode => exact .inl rfl
  | abort id =>
      left
      change ((run cfg calls).abort id).lastCompleted = _
      unfold Coordinator.abort
      cases (run cfg calls).inFlight.lookup id with
      | none => rfl
      | some inf => rfl
  | acknowledge id op persisted =>
      rcases acknowledge_cases (run cfg calls) id op persisted with
        ⟨-, hack⟩ | ⟨inf, -, -, -, hstate, -⟩ | ⟨inf, hinf, hlive, hempty, rfl, hack⟩
      · left
        simp only [Call.apply, hack]
      · left
        simp only [Call.apply, hstate]
      · right
        refine ⟨id, op, inf, rfl, hinf, hlive, ?_, by simp only [Call.apply, hack]⟩
        rw [Finset.erase_eq_empty_iff] at hempty
        rcases hempty with hempty | hempty
        · simp [hempty]
        · rw [hempty]

theorem lastCompleted_le_snoc (h : InOrder (run cfg calls) call) :
    (run cfg calls).lastCompleted ≤ (run cfg (calls ++ [call])).lastCompleted := by
  rcases lastCompleted_snoc cfg calls call with hsame | ⟨id, op, inf, rfl, hinf, hlive, hsub, hid⟩
  · omega
  · have hlt := h inf hinf hlive hsub
    omega

/-- Completions in order leave every completed id at or below the last. -/
theorem returnedTrue_le (h : Lawful (fun pre call => InOrder (run cfg pre) call) calls)
    (hret : ReturnedTrue cfg calls id) : id ≤ (run cfg calls).lastCompleted := by
  induction calls using List.reverseRecOn with
  | nil => exact absurd hret Occurred.not_nil
  | append_singleton calls call ih =>
      have hord : InOrder (run cfg calls) call := h calls call [] rfl
      have hmono := lastCompleted_le_snoc hord
      rcases returnedTrue_snoc.mp hret with hold | ⟨op, persisted, rfl, htrue⟩
      · have hle := ih h.start hold
        omega
      · rcases acknowledge_cases (run cfg calls) id op persisted with
          ⟨-, hack⟩ | ⟨inf, -, -, -, -, hne⟩ | ⟨inf, -, -, -, -, hack⟩
        · rw [hack] at htrue
          simp at htrue
        · exact absurd htrue hne
        · rw [run_snoc]
          simp only [Call.apply, hack, le_refl]

theorem lastCompleted_mono {more : List Call}
    (h : Lawful (fun pre call => InOrder (run cfg pre) call) (calls ++ more)) :
    (run cfg calls).lastCompleted ≤ (run cfg (calls ++ more)).lastCompleted := by
  induction more using List.reverseRecOn with
  | nil => simp
  | append_singleton more call ih =>
      rw [← List.append_assoc] at h ⊢
      have hord : InOrder (run cfg (calls ++ more)) call := h (calls ++ more) call [] rfl
      have hle := ih h.start
      have hstep := lastCompleted_le_snoc hord
      omega

/-- At every point of a history `is_complete` holds of an id exactly when an
acknowledgement of it returned true, which is when every operator registered
at its trigger acknowledged it before any abort, and `last_completed_id`
never decreases: this is so exactly for the ids the counter can issue and the
histories that complete checkpoints in the order of their ids. -/
theorem completion_exact_iff_in_order (cfg : Config) (calls : List Call) (id : Nat) :
    ((∀ pre, pre <+: calls →
        ((run cfg pre).isComplete id = true ↔ ReturnedTrue cfg pre id) ∧
        (ReturnedTrue cfg pre id ↔ AllAcknowledged cfg pre id)) ∧
      ∀ pre pre', pre <+: pre' → pre' <+: calls →
        (run cfg pre).lastCompletedId ≤ (run cfg pre').lastCompletedId) ↔
    id ≠ 0 ∧ Lawful (fun pre call => InOrder (run cfg pre) call) calls := by
  constructor
  · rintro ⟨hexact, hmono⟩
    constructor
    · rintro rfl
      have hzero : (run cfg []).isComplete 0 = true := rfl
      exact Occurred.not_nil (((hexact [] List.nil_prefix).1).mp hzero)
    · intro before call after hcalls
      have hstep : (run cfg before).lastCompleted ≤ (run cfg (before ++ [call])).lastCompleted :=
        hmono before (before ++ [call]) (List.prefix_append _ _) ⟨after, by rw [hcalls]; simp⟩
      cases call with
      | acknowledge i op persisted =>
          cases persisted with
          | false => trivial
          | true =>
              intro inf hinf hlive hsub
              have hnext : (run cfg (before ++ [.acknowledge i op true])).lastCompleted = i := by
                rw [run_snoc]
                have hempty : inf.pending.erase op = ∅ := by
                  rw [Finset.erase_eq_empty_iff]
                  exact Finset.subset_singleton_iff.mp hsub
                simp [Call.apply, Coordinator.acknowledge, hinf, hlive, hempty]
              have hissued := (tracked_run cfg before).issued i inf hinf
              have hne : (run cfg before).lastCompleted ≠ i := by
                intro heq
                rcases (tracked_run cfg before).last with hzero | hret
                · omega
                · have hnone := (((tracked_run cfg before).completed _).mp hret).2.2
                  rw [heq, hinf] at hnone
                  simp at hnone
              omega
      | registerOperator op => trivial
      | trigger resolved => trivial
      | triggerOverride mode => trivial
      | abort i => trivial
  · rintro ⟨hid, hord⟩
    constructor
    · rintro pre ⟨rest, rfl⟩
      refine ⟨?_, returnedTrue_iff cfg pre id⟩
      rw [isComplete_iff cfg pre hid]
      constructor
      · exact And.right
      · intro hret
        exact ⟨returnedTrue_le hord.start hret, hret⟩
    · rintro pre pre' ⟨more, rfl⟩ ⟨rest, rfl⟩
      exact lastCompleted_mono hord.start

/-- Checkpoint 2 completes before checkpoint 1: completing 1 takes the last
completed id back to 1, and 2 reads as incomplete again.  Id 0, which no
trigger issues, reads as complete from the start. -/
theorem late_completion_uncompletes :
    let calls : List Call := [.registerOperator 7, .trigger none, .trigger none,
      .acknowledge 2 7 true, .acknowledge 1 7 true]
    (ReturnedTrue {} calls 2 ∧ (run {} calls).isComplete 2 = false) ∧
    ((run {} (calls.take 4)).lastCompletedId = 2 ∧ (run {} calls).lastCompletedId = 1) ∧
    ((run {} []).isComplete 0 = true ∧ ¬ ReturnedTrue {} [] 0) := by
  intro calls
  have hret : ReturnedTrue {} calls 2 :=
    ⟨calls.take 3, .acknowledge 2 7 true, calls.drop 4, rfl, 7, true, rfl, by decide⟩
  exact ⟨⟨hret, by decide⟩, ⟨by decide, by decide⟩, by decide, Occurred.not_nil⟩

end Clink.Ports.CheckpointCoordinator

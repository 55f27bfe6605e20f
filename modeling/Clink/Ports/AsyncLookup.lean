import Mathlib.Data.List.DropRight

/-!
# Asynchronous lookups

The embedding of `AsyncLookupOperator`
(`include/clink/operators/async_lookup_operator.hpp`).  Lookups in flight and watermarks
that wait for them share one queue; the ordered operator emits from its head, the unordered
one every finished lookup up to the first watermark that has an unfinished one before it.

When a lookup finishes is not the operator's to say.  A `Round` names the lookups that have
finished by the next look at them; a call that waits takes one round after another, and is
`none` where it still waits when the rounds are used up.

Everything given has a place, its index in `given`, that the queue and what is emitted
carry along.  `Line` says how what was emitted and what is queued behind it lie to what was
given.
-/

namespace Clink.Ports.AsyncLookup

variable {In Out B : Type}

structure Record (α : Type) where
  value : α
  eventTime : Option Int
  deriving DecidableEq

structure Watermark where
  timestamp : Int
  idle : Bool := false
  deriving DecidableEq

inductive Given (In B : Type)
  | record (r : Record In)
  | watermark (w : Watermark)
  | barrier (b : B)

/-- A lookup: what it gives, whether it is done, and the place of its record. -/
structure Slot (Out : Type) where
  result : Out
  done : Bool
  place : Nat

inductive Entry (Out : Type)
  | lookup (slot : Slot Out)
  | watermark (w : Watermark) (place : Nat)

inductive Emitted (Out B : Type)
  | data (r : Record Out) (place : Nat)
  | watermark (w : Watermark) (place : Nat)
  | barrier (b : B) (place : Nat)

structure Lookups (In Out B : Type) where
  queue : List (Entry Out) := []
  lookups : Nat := 0
  emitted : List (Emitted Out B) := []
  /-- What was given, in order. -/
  given : List (Given In B) := []

/-- The lookups that have finished, by the place of their record. -/
abbrev Round := Nat → Bool

def Entry.isWatermark : Entry Out → Bool
  | .watermark _ _ => true
  | .lookup _ => false

def Entry.isIdleMark : Entry Out → Bool
  | .watermark w _ => w.idle
  | .lookup _ => false

def Entry.nudge (round : Round) : Entry Out → Entry Out
  | .lookup slot => .lookup { slot with done := slot.done || round slot.place }
  | .watermark w place => .watermark w place

/-- The result leaves in a batch of its own, without a time. -/
def emitSlot (slot : Slot Out) : Emitted Out B := .data ⟨slot.result, none⟩ slot.place

/-- What leaves the head of the queue, and what stays. -/
def drainOrdered : List (Entry Out) → List (Emitted Out B) × List (Entry Out)
  | [] => ([], [])
  | .watermark w place :: queue =>
      let rest := drainOrdered queue
      (.watermark w place :: rest.1, rest.2)
  | .lookup slot :: queue =>
      if slot.done then
        let rest := drainOrdered queue
        (emitSlot slot :: rest.1, rest.2)
      else ([], .lookup slot :: queue)

/-- The walk over the queue; `clear` says that nothing was kept so far. -/
def drainUnordered : Bool → List (Entry Out) → List (Emitted Out B) × List (Entry Out)
  | _, [] => ([], [])
  | clear, .watermark w place :: queue =>
      if clear then
        let rest := drainUnordered clear queue
        (.watermark w place :: rest.1, rest.2)
      else ([], .watermark w place :: queue)
  | clear, .lookup slot :: queue =>
      if slot.done then
        let rest := drainUnordered clear queue
        (emitSlot slot :: rest.1, rest.2)
      else
        let rest := drainUnordered false queue
        (rest.1, .lookup slot :: rest.2)

def Emitted.isData : Emitted Out B → Bool
  | .data _ _ => true
  | _ => false

namespace Lookups

variable (fn : In → Out) (maxInFlight : Nat) (ordered : Bool)

def nudgeInFlight (round : Round) (s : Lookups In Out B) : Lookups In Out B :=
  { s with queue := s.queue.map (Entry.nudge round) }

def drain (s : Lookups In Out B) : Lookups In Out B :=
  let drained := if ordered then drainOrdered s.queue else drainUnordered true s.queue
  { s with
    queue := drained.2
    lookups := s.lookups - drained.1.countP Emitted.isData
    emitted := s.emitted ++ drained.1 }

/-- The lookup is begun; `sync` says that it finishes at once. -/
def kickoff (s : Lookups In Out B) (record : Record In) (sync : Bool) : Lookups In Out B :=
  { s with
    queue := s.queue ++ [.lookup ⟨fn record.value, sync, s.given.length⟩]
    lookups := s.lookups + 1
    given := s.given ++ [.record record] }

/-- The constructor takes 1 for 0. -/
def cap : Nat := if maxInFlight = 0 then 1 else maxInFlight

/-- The loop before a lookup: it waits until there is room for one. -/
def makeRoom (s : Lookups In Out B) (rounds : List Round) :
    Option (Lookups In Out B × List Round) :=
  if s.lookups < cap maxInFlight then some (s, rounds)
  else
    let s := s.drain ordered
    if s.lookups < cap maxInFlight then some (s, rounds)
    else
      match rounds with
      | [] => none
      | round :: rounds => makeRoom (s.nudgeInFlight round) rounds

def waitForAll (s : Lookups In Out B) (rounds : List Round) : Option (Lookups In Out B) :=
  if s.queue.isEmpty then some s
  else
    let s := s.drain ordered
    if s.queue.isEmpty then some s
    else
      match rounds with
      | [] => none
      | round :: rounds => waitForAll (s.nudgeInFlight round) rounds

/-- The records of a batch, each when there is room for it. -/
def kickoffAll (s : Lookups In Out B) :
    List (Record In × Bool) → List Round → Option (Lookups In Out B)
  | [], _ => some s
  | (record, sync) :: batch, rounds =>
      match s.makeRoom maxInFlight ordered rounds with
      | none => none
      | some (s, rounds) => kickoffAll (s.kickoff fn record sync) batch rounds

/-- A waiting watermark: one that is not idle replaces the run at the end of the queue, an
idle one an idle mark there. -/
def enqueueWatermark (s : Lookups In Out B) (w : Watermark) : Lookups In Out B :=
  let queue :=
    if !w.idle then s.queue.rdropWhile Entry.isWatermark
    else if s.queue.getLast?.any Entry.isIdleMark then s.queue.dropLast
    else s.queue
  { s with
    queue := queue ++ [.watermark w s.given.length]
    given := s.given ++ [.watermark w] }

def onWatermark (s : Lookups In Out B) (w : Watermark) : Lookups In Out B :=
  { s with
    emitted := s.emitted ++ [.watermark w s.given.length]
    given := s.given ++ [.watermark w] }

def onBarrier (s : Lookups In Out B) (b : B) : Lookups In Out B :=
  { s with
    emitted := s.emitted ++ [.barrier b s.given.length]
    given := s.given ++ [.barrier b] }

end Lookups

/-- What the runner calls, with when lookups finish. -/
inductive Call (In B : Type)
  | data (batch : List (Record In × Bool)) (rounds : List Round)
  | watermark (w : Watermark)
  | barrier (b : B) (rounds : List Round)
  | flush (rounds : List Round)
  | poll (round : Round)
  /-- Lookups that finish between two calls. -/
  | finish (round : Round)

namespace Lookups

variable (fn : In → Out) (maxInFlight : Nat) (ordered : Bool)

/-- One call; none while it waits. -/
def call (s : Lookups In Out B) : Call In B → Option (Lookups In Out B)
  | .data batch rounds => (s.kickoffAll fn maxInFlight ordered batch rounds).map (drain ordered)
  | .watermark w =>
      let s := s.drain ordered
      some (if s.queue.isEmpty then s.onWatermark w else s.enqueueWatermark w)
  | .barrier b rounds => (s.waitForAll ordered rounds).map fun s => s.onBarrier b
  | .flush rounds => s.waitForAll ordered rounds
  | .poll round => some ((s.nudgeInFlight round).drain ordered)
  | .finish round => some (s.nudgeInFlight round)

def run (s : Lookups In Out B) (calls : List (Call In B)) : Option (Lookups In Out B) :=
  calls.foldlM (fun s c => s.call fn maxInFlight ordered c) s

end Lookups

/-! ## Places -/

inductive Item (B : Type)
  | record
  | watermark (w : Watermark)
  | barrier (b : B)
  deriving DecidableEq

def Item.isWatermark : Item B → Bool
  | .watermark _ => true
  | _ => false

def Given.item : Given In B → Item B
  | .record _ => .record
  | .watermark w => .watermark w
  | .barrier b => .barrier b

/-- A place and what was given there. -/
abbrev Mark (B : Type) := Nat × Item B

def Entry.mark : Entry Out → Mark B
  | .lookup slot => (slot.place, .record)
  | .watermark w place => (place, .watermark w)

def Emitted.mark : Emitted Out B → Mark B
  | .data _ place => (place, .record)
  | .watermark w place => (place, .watermark w)
  | .barrier b place => (place, .barrier b)

/-- One may stand before the other: it was given before it, or both are records and the
operator is unordered. -/
def Before (ordered : Bool) (a b : Mark B) : Prop :=
  a.1 < b.1 ∨ (ordered = false ∧ a.2 = .record ∧ b.2 = .record ∧ a.1 ≠ b.1)

/-- A line of marks over the given items: records and barriers are all there, and a
watermark is there or another one later in its run, not idle if it is not. -/
structure Line (ordered : Bool) (items : List (Item B)) (line : List (Mark B)) : Prop where
  sound : ∀ m ∈ line, items[m.1]? = some m.2
  order : line.Pairwise (Before ordered)
  kept : ∀ p x, items[p]? = some x → x.isWatermark = false → (p, x) ∈ line
  marks : ∀ p w, items[p]? = some (.watermark w) → ∃ p' w', p ≤ p' ∧
    (p', .watermark w') ∈ line ∧
    (∀ q, p ≤ q → q ≤ p' → ∃ v, items[q]? = some (.watermark v)) ∧
    (w.idle = false → w'.idle = false)

namespace Line

variable {ordered : Bool} {items : List (Item B)} {line line' dropped : List (Mark B)}

theorem lt_length (h : Line ordered items line) {m : Mark B} (hmem : m ∈ line) :
    m.1 < items.length := by
  by_contra hpast
  have hgot := h.sound m hmem
  rw [List.getElem?_eq_none (by omega)] at hgot
  exact absurd hgot (by simp)

theorem rearrange (h : Line ordered items line) (hperm : line'.Perm line)
    (horder : line'.Pairwise (Before ordered)) : Line ordered items line' where
  sound := fun m hmem => h.sound m (hperm.mem_iff.mp hmem)
  order := horder
  kept := fun p x hgot hother => hperm.mem_iff.mpr (h.kept p x hgot hother)
  marks := by
    intro p w hgot
    obtain ⟨p', w', hle, hmem, hrun, hidle⟩ := h.marks p w hgot
    exact ⟨p', w', hle, hperm.mem_iff.mpr hmem, hrun, hidle⟩

/-- Nothing but watermarks stands after a dropped one. -/
theorem later_notMem (h : Line ordered items (line ++ dropped)) {x y : Item B} {p q : Nat}
    {w : Watermark} (hmem : (p, .watermark w) ∈ dropped) (hlater : ¬ q ≤ p)
    (hother : ∀ v, y ≠ .watermark v)
    (honly : ∀ m ∈ dropped, ∃ w v, m.2 = .watermark w ∧ x = .watermark v ∧
      (w.idle = false → v.idle = false)) : (q, y) ∉ line ++ dropped := by
  intro hmem'
  obtain hmem' | hmem' := List.mem_append.mp hmem'
  · obtain hlt | ⟨-, -, heq, -⟩ := (List.pairwise_append.mp h.order).2.2 _ hmem' _ hmem
    · exact hlater (Nat.le_of_lt hlt)
    · exact absurd heq (by simp)
  · obtain ⟨u, -, heq, -⟩ := honly _ hmem'
    exact hother u heq

/-- A new item goes to the end.  A watermark may take the place of those it makes
superfluous there. -/
theorem append (h : Line ordered items (line ++ dropped)) {x : Item B}
    (honly : ∀ m ∈ dropped, ∃ w v, m.2 = .watermark w ∧ x = .watermark v ∧
      (w.idle = false → v.idle = false)) :
    Line ordered (items ++ [x]) (line ++ [(items.length, x)]) := by
  have hold : ∀ {p : Nat} {y : Item B}, items[p]? = some y → (items ++ [x])[p]? = some y := by
    intro p y hgot
    have hlt : p < items.length := by
      by_contra hpast
      rw [List.getElem?_eq_none (by omega)] at hgot
      exact absurd hgot (by simp)
    rw [List.getElem?_append_left hlt]
    exact hgot
  have hnew : (items ++ [x])[items.length]? = some x := by simp
  have hcases : ∀ {p : Nat} {y : Item B}, (items ++ [x])[p]? = some y →
      items[p]? = some y ∨ (p = items.length ∧ y = x) := by
    intro p y hgot
    by_cases hlt : p < items.length
    · rw [List.getElem?_append_left hlt] at hgot
      exact .inl hgot
    · have hbound : p < (items ++ [x]).length := by
        by_contra hpast
        rw [List.getElem?_eq_none (by omega)] at hgot
        exact absurd hgot (by simp)
      rw [List.length_append, List.length_singleton] at hbound
      have heq : p = items.length := by omega
      subst heq
      rw [hnew] at hgot
      exact .inr ⟨rfl, (Option.some.inj hgot).symm⟩
  refine ⟨fun m hmem => ?_, ?_, fun p y hgot hother => ?_, fun p w hgot => ?_⟩
  · obtain hmem | hmem := List.mem_append.mp hmem
    · exact hold (h.sound m (List.mem_append_left _ hmem))
    · obtain rfl := List.mem_singleton.mp hmem
      exact hnew
  · refine List.pairwise_append.mpr
      ⟨(List.pairwise_append.mp h.order).1, List.pairwise_singleton _ _, ?_⟩
    intro m hmem m' hmem'
    obtain rfl := List.mem_singleton.mp hmem'
    exact .inl (h.lt_length (List.mem_append_left _ hmem))
  · obtain hgot | ⟨rfl, rfl⟩ := hcases hgot
    · obtain hmem | hmem := List.mem_append.mp (h.kept p y hgot hother)
      · exact List.mem_append_left _ hmem
      · obtain ⟨w, v, heq, -⟩ := honly _ hmem
        rw [show y = .watermark w from heq] at hother
        exact absurd hother (by simp [Item.isWatermark])
    · exact List.mem_append_right _ List.mem_cons_self
  · obtain hgot | ⟨rfl, rfl⟩ := hcases hgot
    · obtain ⟨p', w', hle, hmem, hrun, hidle⟩ := h.marks p w hgot
      obtain hmem | hmem := List.mem_append.mp hmem
      · refine ⟨p', w', hle, List.mem_append_left _ hmem, fun q hlow hhigh => ?_, hidle⟩
        obtain ⟨v, hgot⟩ := hrun q hlow hhigh
        exact ⟨v, hold hgot⟩
      · -- The watermark that stood for it is dropped, and everything after it is of its run.
        obtain ⟨u, v, heq, rfl, hactive⟩ := honly _ hmem
        obtain rfl : w' = u := by simpa using heq
        have hbound : p' < items.length := h.lt_length (List.mem_append_right _ hmem)
        refine ⟨items.length, v, by omega, List.mem_append_right _ List.mem_cons_self,
          fun q hlow hhigh => ?_, fun hnotIdle => hactive (hidle hnotIdle)⟩
        by_cases hearly : q ≤ p'
        · obtain ⟨v', hgot⟩ := hrun q hlow hearly
          exact ⟨v', hold hgot⟩
        · by_cases hlast : q = items.length
          · exact ⟨v, by rw [hlast]; exact hnew⟩
          · have hinside : q < items.length := by omega
            have hgot : items[q]? = some items[q] := List.getElem?_eq_getElem hinside
            cases hitem : items[q] with
            | watermark v' =>
                rw [hitem] at hgot
                exact ⟨v', hold hgot⟩
            | record =>
                rw [hitem] at hgot
                exact absurd (h.kept q _ hgot rfl) (later_notMem h hmem hearly (by simp) honly)
            | barrier b =>
                rw [hitem] at hgot
                exact absurd (h.kept q _ hgot rfl) (later_notMem h hmem hearly (by simp) honly)
    · exact ⟨items.length, w, le_rfl, List.mem_append_right _ List.mem_cons_self,
        fun q hlow hhigh => ⟨w, by rw [show q = items.length by omega]; exact hnew⟩, id⟩

end Line

/-! ## Draining -/

/-- What a drain emits and what it keeps. -/
structure Drains (ordered : Bool) (queue : List (Entry Out))
    (r : List (Emitted Out B) × List (Entry Out)) : Prop where
  perm : (r.1.map Emitted.mark ++ r.2.map Entry.mark).Perm (queue.map Entry.mark)
  order : (queue.map (Entry.mark (B := B))).Pairwise (Before ordered) →
    (r.1.map Emitted.mark ++ r.2.map Entry.mark).Pairwise (Before ordered)
  data : ∀ x p, .data x p ∈ r.1 →
    ∃ slot, .lookup slot ∈ queue ∧ x = ⟨slot.result, none⟩ ∧ p = slot.place
  kept : ∀ e ∈ r.2, e ∈ queue
  count : r.1.countP Emitted.isData + r.2.countP (fun e => !e.isWatermark) =
    queue.countP fun e => !e.isWatermark

theorem Drains.cons {ordered : Bool} {queue : List (Entry Out)} {entry : Entry Out}
    {out : Emitted Out B} {r : List (Emitted Out B) × List (Entry Out)}
    (h : Drains ordered queue r) (hmark : out.mark = entry.mark)
    (hdata : out.isData = !entry.isWatermark)
    (hresult : ∀ x p, out = .data x p →
      ∃ slot, entry = .lookup slot ∧ x = ⟨slot.result, none⟩ ∧ p = slot.place) :
    Drains ordered (entry :: queue) (out :: r.1, r.2) where
  perm := by
    rw [List.map_cons, List.map_cons, List.cons_append, hmark]
    exact h.perm.cons _
  order := by
    intro hpairwise
    rw [List.map_cons, List.pairwise_cons] at hpairwise
    rw [List.map_cons, List.cons_append, hmark, List.pairwise_cons]
    exact ⟨fun m hmem => hpairwise.1 m (h.perm.mem_iff.mp hmem), h.order hpairwise.2⟩
  data := by
    intro x p hmem
    obtain heq | hmem := List.mem_cons.mp hmem
    · obtain ⟨slot, rfl, hvalue, hplace⟩ := hresult x p heq.symm
      exact ⟨slot, List.mem_cons_self, hvalue, hplace⟩
    · obtain ⟨slot, hmem, hvalue, hplace⟩ := h.data x p hmem
      exact ⟨slot, List.mem_cons_of_mem _ hmem, hvalue, hplace⟩
  kept := fun e hmem => List.mem_cons_of_mem _ (h.kept e hmem)
  count := by
    have hcount := h.count
    simp only [List.countP_cons, hdata]
    omega

theorem Drains.hold {ordered : Bool} (queue : List (Entry Out)) :
    Drains ordered queue (([], queue) : List (Emitted Out B) × List (Entry Out)) where
  perm := .refl _
  order := id
  data := by simp
  kept := fun _ hmem => hmem
  count := by simp

theorem drains_ordered (queue : List (Entry Out)) :
    Drains (B := B) true queue (drainOrdered queue) := by
  induction queue with
  | nil => exact Drains.hold []
  | cons entry queue ih =>
      cases entry with
      | watermark w place => exact ih.cons rfl rfl (by simp)
      | lookup slot =>
          unfold drainOrdered
          split
          · refine ih.cons rfl rfl fun x p heq => ?_
            obtain ⟨rfl, rfl⟩ := Emitted.data.inj heq
            exact ⟨slot, rfl, rfl, rfl⟩
          · exact Drains.hold _

private theorem Before.swap {a b : Mark B} (h : Before false a b) (hrecordA : a.2 = .record)
    (hrecordB : b.2 = .record) : Before false b a := by
  refine .inr ⟨rfl, hrecordB, hrecordA, ?_⟩
  obtain hlt | ⟨-, -, -, hne⟩ := h
  · exact Nat.ne_of_gt hlt
  · exact hne.symm

theorem drains_unordered (clear : Bool) (queue : List (Entry Out)) :
    Drains (B := B) false queue (drainUnordered clear queue) ∧
    (clear = false → ∀ out ∈ (drainUnordered (B := B) clear queue).1, out.mark.2 = .record) := by
  induction queue generalizing clear with
  | nil => exact ⟨Drains.hold [], by simp [drainUnordered]⟩
  | cons entry queue ih =>
      cases entry with
      | watermark w place =>
          unfold drainUnordered
          cases clear with
          | true => exact ⟨(ih true).1.cons rfl rfl (by simp), by simp⟩
          | false => exact ⟨Drains.hold _, by simp⟩
      | lookup slot =>
          unfold drainUnordered
          split
          · obtain ⟨hdrains, hrecords⟩ := ih clear
            refine ⟨hdrains.cons rfl rfl fun x p heq => ?_, fun hheld out hmem => ?_⟩
            · obtain ⟨rfl, rfl⟩ := Emitted.data.inj heq
              exact ⟨slot, rfl, rfl, rfl⟩
            · obtain rfl | hmem := List.mem_cons.mp hmem
              · rfl
              · exact hrecords hheld out hmem
          · -- The lookup stays, and only records pass it.
            obtain ⟨hdrains, hrecords⟩ := ih false
            refine ⟨⟨?_, fun hpairwise => ?_, fun x p hmem => ?_, fun e hmem => ?_, ?_⟩,
              fun _ => hrecords rfl⟩
            · rw [List.map_cons, List.map_cons]
              exact List.perm_middle.trans (hdrains.perm.cons _)
            · rw [List.map_cons, List.pairwise_cons] at hpairwise
              have hrest := List.pairwise_append.mp (hdrains.order hpairwise.2)
              rw [List.map_cons]
              refine List.pairwise_append.mpr ⟨hrest.1, List.pairwise_cons.mpr ⟨?_, hrest.2.1⟩, ?_⟩
              · intro m hmem
                exact hpairwise.1 m (hdrains.perm.mem_iff.mp (List.mem_append_right _ hmem))
              · intro m hmem m' hmem'
                obtain rfl | hmem' := List.mem_cons.mp hmem'
                · have hbefore := hpairwise.1 m
                    (hdrains.perm.mem_iff.mp (List.mem_append_left _ hmem))
                  obtain ⟨out, houtMem, rfl⟩ := List.mem_map.mp hmem
                  exact hbefore.swap rfl (hrecords rfl out houtMem)
                · exact hrest.2.2 m hmem m' hmem'
            · obtain ⟨slot', hmem, hvalue, hplace⟩ := hdrains.data x p hmem
              exact ⟨slot', List.mem_cons_of_mem _ hmem, hvalue, hplace⟩
            · obtain rfl | hmem := List.mem_cons.mp hmem
              · exact List.mem_cons_self
              · exact List.mem_cons_of_mem _ (hdrains.kept e hmem)
            · have hcount := hdrains.count
              simp only [List.countP_cons]
              omega

/-! ## What every call keeps -/

namespace Lookups

variable {fn : In → Out} {maxInFlight : Nat} {ordered : Bool} {s : Lookups In Out B}

structure Inv (fn : In → Out) (ordered : Bool) (s : Lookups In Out B) : Prop where
  line : Line ordered (s.given.map Given.item)
    (s.emitted.map Emitted.mark ++ s.queue.map Entry.mark)
  results : ∀ x p, .data x p ∈ s.emitted →
    ∃ r, s.given[p]? = some (.record r) ∧ x = ⟨fn r.value, none⟩
  slots : ∀ slot, .lookup slot ∈ s.queue →
    ∃ r, s.given[slot.place]? = some (.record r) ∧ slot.result = fn r.value
  counted : s.lookups = s.queue.countP fun e => !e.isWatermark

theorem Inv.drain (h : Inv fn ordered s) : Inv fn ordered (s.drain ordered) := by
  have hdrains : Drains (B := B) ordered s.queue
      (if ordered then drainOrdered s.queue else drainUnordered true s.queue) := by
    cases ordered with
    | true => exact drains_ordered s.queue
    | false => exact (drains_unordered true s.queue).1
  unfold Lookups.drain
  generalize (if ordered then drainOrdered s.queue else drainUnordered true s.queue) = r at hdrains
  refine ⟨?_, fun x p hmem => ?_, fun slot hmem => h.slots slot (hdrains.kept _ hmem), ?_⟩
  · simp only [List.map_append]
    rw [List.append_assoc]
    obtain ⟨hfirst, hsecond, hcross⟩ := List.pairwise_append.mp h.line.order
    refine h.line.rearrange (hdrains.perm.append_left _) (List.pairwise_append.mpr
      ⟨hfirst, hdrains.order hsecond, fun m hmem m' hmem' => ?_⟩)
    exact hcross m hmem m' (hdrains.perm.mem_iff.mp hmem')
  · obtain hmem | hmem := List.mem_append.mp hmem
    · exact h.results x p hmem
    · obtain ⟨slot, hslotMem, rfl, rfl⟩ := hdrains.data x p hmem
      obtain ⟨r, hgot, hvalue⟩ := h.slots slot hslotMem
      exact ⟨r, hgot, by rw [hvalue]⟩
  · have hcount := hdrains.count
    have hcounted := h.counted
    change s.lookups - r.1.countP Emitted.isData = r.2.countP fun e => !e.isWatermark
    omega

@[simp] theorem mark_nudge (round : Round) (e : Entry Out) :
    ((e.nudge round).mark : Mark B) = e.mark := by
  cases e <;> rfl

theorem Inv.nudgeInFlight (h : Inv fn ordered s) (round : Round) :
    Inv fn ordered (s.nudgeInFlight round) := by
  refine ⟨?_, h.results, fun slot hmem => ?_, ?_⟩
  · have hsame : ((s.queue.map (Entry.nudge round)).map Entry.mark : List (Mark B)) =
        s.queue.map Entry.mark := by
      rw [List.map_map]
      exact List.map_congr_left fun e _ => mark_nudge round e
    have hline := h.line
    rw [← hsame] at hline
    exact hline
  · obtain ⟨e, hentryMem, heq⟩ := List.mem_map.mp hmem
    cases e with
    | watermark w place => exact absurd heq (by simp [Entry.nudge])
    | lookup slot' =>
        obtain rfl := Entry.lookup.inj heq
        exact h.slots slot' hentryMem
  · change s.lookups = (s.queue.map _).countP _
    rw [List.countP_map, h.counted]
    refine List.countP_congr fun e _ => ?_
    cases e <;> rfl

variable {queue : List (Entry Out)}

theorem line_append (h : Inv fn ordered s) {x : Given In B}
    {dropped : List (Entry Out)} (hsplit : s.queue = queue ++ dropped)
    (honly : ∀ e ∈ dropped, ∃ w v, (e.mark : Mark B).2 = .watermark w ∧ x.item = .watermark v ∧
      (w.idle = false → v.idle = false)) :
    Line ordered ((s.given ++ [x]).map Given.item)
      (s.emitted.map Emitted.mark ++ queue.map Entry.mark ++ [(s.given.length, x.item)]) := by
  have hline := h.line
  rw [hsplit, List.map_append, ← List.append_assoc] at hline
  have hadded := hline.append (x := x.item) fun m hmem => by
    obtain ⟨e, hentryMem, rfl⟩ := List.mem_map.mp hmem
    exact honly e hentryMem
  rw [List.length_map] at hadded
  rw [List.map_append]
  exact hadded

theorem given_append {p : Nat} {g x : Given In B} (h : s.given[p]? = some g) :
    (s.given ++ [x])[p]? = some g := by
  have hlt : p < s.given.length := by
    by_contra hpast
    rw [List.getElem?_eq_none (by omega)] at h
    exact absurd h (by simp)
  rw [List.getElem?_append_left hlt]
  exact h

theorem Inv.kickoff (h : Inv fn ordered s) (record : Record In) (sync : Bool) :
    Inv fn ordered (s.kickoff fn record sync) := by
  refine ⟨?_, fun x p hmem => ?_, fun slot hmem => ?_, ?_⟩
  · have hline := line_append (x := .record record) h (List.append_nil _).symm (by simp)
    simpa [Lookups.kickoff, Entry.mark, Given.item] using hline
  · obtain ⟨r, hgot, hvalue⟩ := h.results x p hmem
    exact ⟨r, given_append hgot, hvalue⟩
  · obtain hmem | hmem := List.mem_append.mp hmem
    · obtain ⟨r, hgot, hvalue⟩ := h.slots slot hmem
      exact ⟨r, given_append hgot, hvalue⟩
    · obtain rfl := Entry.lookup.inj (List.mem_singleton.mp hmem)
      exact ⟨record, by simp [Lookups.kickoff], rfl⟩
  · simp [Lookups.kickoff, h.counted, Entry.isWatermark]

/-- A watermark or a barrier that is given while nothing is queued goes straight out. -/
private theorem Inv.straight (h : Inv fn ordered s) (hempty : s.queue = []) {x : Given In B}
    {e : Emitted Out B} (hmark : e.mark = (s.given.length, x.item)) (hitem : x.item ≠ .record) :
    Inv fn ordered { s with emitted := s.emitted ++ [e], given := s.given ++ [x] } := by
  refine ⟨?_, fun y p hmem => ?_, fun slot hmem => ?_, h.counted⟩
  · have hline := line_append (x := x) h (List.append_nil _).symm (by simp)
    simpa [hempty, hmark] using hline
  · obtain hmem | hmem := List.mem_append.mp hmem
    · obtain ⟨r, hgot, hvalue⟩ := h.results y p hmem
      exact ⟨r, given_append hgot, hvalue⟩
    · rw [← List.mem_singleton.mp hmem] at hmark
      exact absurd (Prod.mk.inj hmark).2.symm hitem
  · rw [hempty] at hmem
    exact absurd hmem List.not_mem_nil

theorem Inv.onWatermark (h : Inv fn ordered s) (hempty : s.queue = []) (w : Watermark) :
    Inv fn ordered (s.onWatermark w) :=
  h.straight hempty (x := .watermark w) (e := .watermark w s.given.length) rfl nofun

theorem Inv.onBarrier (h : Inv fn ordered s) (hempty : s.queue = []) (b : B) :
    Inv fn ordered (s.onBarrier b) :=
  h.straight hempty (x := .barrier b) (e := .barrier b s.given.length) rfl nofun

theorem isWatermark_mark {e : Entry Out} (h : e.isWatermark = true) :
    ∃ w, (e.mark : Mark B).2 = .watermark w ∧ (e.isIdleMark = true → w.idle = true) := by
  cases e with
  | lookup slot => exact absurd h (by simp [Entry.isWatermark])
  | watermark w place => exact ⟨w, rfl, id⟩

/-- The queue a waiting watermark is put behind, and the marks it replaces. -/
theorem enqueue_split (s : Lookups In Out B) (w : Watermark) :
    ∃ queue dropped, s.queue = queue ++ dropped ∧
      (s.enqueueWatermark w).queue = queue ++ [.watermark w s.given.length] ∧
      ∀ e ∈ dropped, ∃ v, (e.mark : Mark B).2 = .watermark v ∧
        (v.idle = false → w.idle = false) := by
  unfold Lookups.enqueueWatermark
  cases hidle : w.idle with
  | false =>
      obtain ⟨dropped, hsplit⟩ := List.rdropWhile_prefix Entry.isWatermark s.queue
      refine ⟨_, dropped, hsplit.symm, by simp, fun e hmem => ?_⟩
      have hsuffix : dropped = s.queue.rtakeWhile Entry.isWatermark := by
        have hwhole :=
          List.takeWhile_append_dropWhile (p := Entry.isWatermark) (l := s.queue.reverse)
        have hback := congrArg List.reverse hwhole
        rw [List.reverse_append, List.reverse_reverse] at hback
        exact List.append_cancel_left (hsplit.trans hback.symm)
      rw [hsuffix] at hmem
      obtain ⟨v, heq, -⟩ := isWatermark_mark (B := B) (List.mem_rtakeWhile_imp hmem)
      exact ⟨v, heq, fun _ => rfl⟩
  | true =>
      cases hisLast : s.queue.getLast? with
      | none => exact ⟨s.queue, [], (List.append_nil _).symm, by simp, by simp⟩
      | some e =>
          by_cases hmark : e.isIdleMark = true
          · refine ⟨s.queue.dropLast, [e], (List.dropLast_append_getLast? e hisLast).symm,
              by simp [hmark], fun e' hmem => ?_⟩
            obtain rfl := List.mem_singleton.mp hmem
            have hwatermark : e'.isWatermark = true := by
              cases e' with
              | lookup slot => exact absurd hmark (by simp [Entry.isIdleMark])
              | watermark w place => rfl
            obtain ⟨v, heq, hidleMark⟩ := isWatermark_mark (B := B) hwatermark
            exact ⟨v, heq, fun hactive => absurd (hactive.symm.trans (hidleMark hmark)) (by simp)⟩
          · exact ⟨s.queue, [], (List.append_nil _).symm, by simp [hmark], by simp⟩

theorem Inv.enqueueWatermark (h : Inv fn ordered s) (w : Watermark) :
    Inv fn ordered (s.enqueueWatermark w) := by
  obtain ⟨queue, dropped, hsplit, hnext, honly⟩ := enqueue_split s w
  have hline := line_append (x := .watermark w) h hsplit fun e hmem => by
    obtain ⟨v, heq, hidle⟩ := honly e hmem
    exact ⟨v, w, heq, rfl, hidle⟩
  have hemitted : (s.enqueueWatermark w).emitted = s.emitted := rfl
  have hgiven : (s.enqueueWatermark w).given = s.given ++ [.watermark w] := rfl
  refine ⟨?_, fun x p hmem => ?_, fun slot hmem => ?_, ?_⟩
  · rw [hnext, hemitted, hgiven]
    simpa [Entry.mark, Given.item] using hline
  · obtain ⟨r, hgot, hvalue⟩ := h.results x p hmem
    exact ⟨r, given_append hgot, hvalue⟩
  · rw [hnext] at hmem
    obtain hmem | hmem := List.mem_append.mp hmem
    · obtain ⟨r, hgot, hvalue⟩ := h.slots slot (hsplit ▸ List.mem_append_left _ hmem)
      exact ⟨r, given_append hgot, hvalue⟩
    · exact absurd (List.mem_singleton.mp hmem) (by simp)
  · have hnone : dropped.countP (fun e => !e.isWatermark) = 0 := by
      refine List.countP_eq_zero.mpr fun e hmem => ?_
      obtain ⟨v, heq, -⟩ := honly e hmem
      cases e with
      | lookup slot => exact absurd heq (by simp [Entry.mark])
      | watermark w place => simp [Entry.isWatermark]
    change s.lookups = _
    rw [h.counted, hnext, hsplit, List.countP_append, List.countP_append, hnone]
    simp [Entry.isWatermark]

/-! ## Calls -/

variable {rounds : List Round} {s' : Lookups In Out B}

theorem Inv.makeRoom (h : Inv fn ordered s) {rounds' : List Round}
    (heq : s.makeRoom maxInFlight ordered rounds = some (s', rounds')) :
    Inv fn ordered s' ∧ s'.lookups < cap maxInFlight := by
  induction rounds generalizing s with
  | nil =>
      unfold Lookups.makeRoom at heq
      split at heq
      · obtain ⟨rfl, -⟩ := Prod.mk.inj (Option.some.inj heq)
        exact ⟨h, ‹_›⟩
      · simp only at heq
        split at heq
        · obtain ⟨rfl, -⟩ := Prod.mk.inj (Option.some.inj heq)
          exact ⟨h.drain, ‹_›⟩
        · exact absurd heq (by simp)
  | cons round rounds ih =>
      unfold Lookups.makeRoom at heq
      split at heq
      · obtain ⟨rfl, -⟩ := Prod.mk.inj (Option.some.inj heq)
        exact ⟨h, ‹_›⟩
      · simp only at heq
        split at heq
        · obtain ⟨rfl, -⟩ := Prod.mk.inj (Option.some.inj heq)
          exact ⟨h.drain, ‹_›⟩
        · exact ih (h.drain.nudgeInFlight round) heq

theorem Inv.waitForAll (h : Inv fn ordered s) (heq : s.waitForAll ordered rounds = some s') :
    Inv fn ordered s' ∧ s'.queue = [] := by
  induction rounds generalizing s with
  | nil =>
      unfold Lookups.waitForAll at heq
      split at heq
      · obtain rfl := Option.some.inj heq
        exact ⟨h, List.isEmpty_iff.mp ‹_›⟩
      · simp only at heq
        split at heq
        · obtain rfl := Option.some.inj heq
          exact ⟨h.drain, List.isEmpty_iff.mp ‹_›⟩
        · exact absurd heq (by simp)
  | cons round rounds ih =>
      unfold Lookups.waitForAll at heq
      split at heq
      · obtain rfl := Option.some.inj heq
        exact ⟨h, List.isEmpty_iff.mp ‹_›⟩
      · simp only at heq
        split at heq
        · obtain rfl := Option.some.inj heq
          exact ⟨h.drain, List.isEmpty_iff.mp ‹_›⟩
        · exact ih (h.drain.nudgeInFlight round) heq

theorem Inv.kickoffAll (h : Inv fn ordered s) {batch : List (Record In × Bool)}
    (heq : s.kickoffAll fn maxInFlight ordered batch rounds = some s') : Inv fn ordered s' := by
  induction batch generalizing s rounds with
  | nil =>
      obtain rfl := Option.some.inj heq
      exact h
  | cons record batch ih =>
      unfold Lookups.kickoffAll at heq
      cases hroom : s.makeRoom maxInFlight ordered rounds with
      | none => simp [hroom] at heq
      | some next =>
          simp only [hroom] at heq
          exact ih ((h.makeRoom hroom).1.kickoff record.1 record.2) heq

theorem Inv.call (h : Inv fn ordered s) {c : Call In B}
    (heq : s.call fn maxInFlight ordered c = some s') : Inv fn ordered s' := by
  cases c with
  | data batch rounds =>
      obtain ⟨t, hstarted, rfl⟩ := Option.map_eq_some_iff.mp heq
      exact (h.kickoffAll hstarted).drain
  | watermark w =>
      obtain rfl := Option.some.inj heq
      split
      · exact h.drain.onWatermark (List.isEmpty_iff.mp ‹_›) w
      · exact h.drain.enqueueWatermark w
  | barrier b rounds =>
      obtain ⟨t, hwaited, rfl⟩ := Option.map_eq_some_iff.mp heq
      obtain ⟨hinv, hempty⟩ := h.waitForAll hwaited
      exact hinv.onBarrier hempty b
  | flush rounds => exact (h.waitForAll heq).1
  | poll round =>
      obtain rfl := Option.some.inj heq
      exact (h.nudgeInFlight round).drain
  | finish round =>
      obtain rfl := Option.some.inj heq
      exact h.nudgeInFlight round

theorem inv_empty : Inv fn ordered ({} : Lookups In Out B) where
  line := ⟨by simp, by simp, by simp, by simp⟩
  results := by simp
  slots := by simp
  counted := rfl

theorem Inv.run (h : Inv fn ordered s) {calls : List (Call In B)}
    (heq : s.run fn maxInFlight ordered calls = some s') : Inv fn ordered s' := by
  induction calls generalizing s with
  | nil =>
      obtain rfl := Option.some.inj heq
      exact h
  | cons c calls ih =>
      rw [Lookups.run, List.foldlM_cons] at heq
      obtain ⟨t, hone, hrest⟩ := Option.bind_eq_some_iff.mp heq
      exact ih (h.call hone) hrest

/-! ## Waiting ends -/

/-- Every lookup in flight is done or finishes in one of the rounds. -/
def Finishes (s : Lookups In Out B) (rounds : List Round) : Prop :=
  ∀ slot, .lookup slot ∈ s.queue → slot.done = true ∨ ∃ round ∈ rounds, round slot.place = true

private theorem drainOrdered_done (hdone : ∀ slot, .lookup slot ∈ queue → slot.done = true) :
    (drainOrdered (B := B) queue).2 = [] := by
  induction queue with
  | nil => rfl
  | cons e queue ih =>
      have hrest := ih fun slot hmem => hdone slot (List.mem_cons_of_mem _ hmem)
      cases e with
      | watermark w place => exact hrest
      | lookup slot =>
          unfold drainOrdered
          rw [if_pos (hdone slot List.mem_cons_self)]
          exact hrest

private theorem drainUnordered_done (hdone : ∀ slot, .lookup slot ∈ queue → slot.done = true) :
    (drainUnordered (B := B) true queue).2 = [] := by
  induction queue with
  | nil => rfl
  | cons e queue ih =>
      have hrest := ih fun slot hmem => hdone slot (List.mem_cons_of_mem _ hmem)
      cases e with
      | watermark w place => exact hrest
      | lookup slot =>
          unfold drainUnordered
          rw [if_pos (hdone slot List.mem_cons_self)]
          exact hrest

theorem drain_done (ordered : Bool) (h : Finishes s []) : (s.drain ordered).queue = [] := by
  have hdone : ∀ slot, .lookup slot ∈ s.queue → slot.done = true := by
    intro slot hmem
    simpa using h slot hmem
  cases ordered with
  | true => exact drainOrdered_done hdone
  | false => exact drainUnordered_done hdone

theorem Finishes.next {round : Round} (ordered : Bool) (h : Finishes s (round :: rounds)) :
    Finishes ((s.drain ordered).nudgeInFlight round) rounds := by
  have hkept : ∀ e ∈ (s.drain ordered).queue, e ∈ s.queue := by
    cases ordered with
    | true => exact (drains_ordered (B := B) s.queue).kept
    | false => exact (drains_unordered (B := B) true s.queue).1.kept
  intro slot hmem
  obtain ⟨e, hentryMem, heq⟩ := List.mem_map.mp hmem
  cases e with
  | watermark w place => exact absurd heq (by simp [Entry.nudge])
  | lookup slot' =>
      obtain rfl := Entry.lookup.inj heq
      obtain hdone | ⟨r, hrMem, hfinishes⟩ := h slot' (hkept _ hentryMem)
      · exact .inl (by simp [hdone])
      · obtain rfl | hrMem := List.mem_cons.mp hrMem
        · exact .inl (by simp [hfinishes])
        · exact .inr ⟨r, hrMem, hfinishes⟩

/-- A flush ends when the lookups in flight have finished. -/
theorem waitForAll_returns (ordered : Bool) (h : Finishes s rounds) :
    ∃ s', s.waitForAll ordered rounds = some s' := by
  induction rounds generalizing s with
  | nil =>
      unfold Lookups.waitForAll
      split
      · exact ⟨_, rfl⟩
      · simp only [drain_done ordered h, List.isEmpty_nil, if_true]
        exact ⟨_, rfl⟩
  | cons round rounds ih =>
      unfold Lookups.waitForAll
      split
      · exact ⟨_, rfl⟩
      · simp only
        split
        · exact ⟨_, rfl⟩
        · exact ih (h.next ordered)

/-- There is room for another lookup when those in flight have finished. -/
theorem makeRoom_returns (hinv : Inv fn ordered s) (h : Finishes s rounds) :
    ∃ r, s.makeRoom maxInFlight ordered rounds = some r := by
  induction rounds generalizing s with
  | nil =>
      unfold Lookups.makeRoom
      split
      · exact ⟨_, rfl⟩
      · have hnone : (s.drain ordered).lookups = 0 := by
          rw [hinv.drain.counted, drain_done ordered h]
          rfl
        have hroom : (s.drain ordered).lookups < cap maxInFlight := by
          rw [hnone, cap]
          split
          · exact Nat.one_pos
          · omega
        simp only [hroom, if_true]
        exact ⟨_, rfl⟩
  | cons round rounds ih =>
      unfold Lookups.makeRoom
      split
      · exact ⟨_, rfl⟩
      · simp only
        split
        · exact ⟨_, rfl⟩
        · exact ih (hinv.drain.nudgeInFlight round) (h.next ordered)

end Lookups

/-! ## Runs -/

/-- What was emitted, and behind it what is queued. -/
def Lookups.line (s : Lookups In Out B) : List (Mark B) :=
  s.emitted.map Emitted.mark ++ s.queue.map Entry.mark

/-- Both places and all between them are of watermarks. -/
def SameRun (given : List (Given In B)) (p q : Nat) : Prop :=
  p ≤ q ∧ ∀ k, p ≤ k → k ≤ q → ∃ v, given[k]? = some (.watermark v)

/-- Each record has one result, which is the lookup's; what stands before another in the line
was given before it, results of an unordered operator apart; only watermarks given are in it,
and of a run at least the last active one and the last. -/
structure KeepsOrder (fn : In → Out) (ordered : Bool) (s : Lookups In Out B) : Prop where
  value : ∀ x p, .data x p ∈ s.emitted → ∃ r, s.given[p]? = some (.record r) ∧ x.value = fn r.value
  once : ∀ p r, s.given[p]? = some (.record r) →
    (p, .record) ∈ s.line ∧ (s.line.map Prod.fst).count p = 1
  order : s.line.Pairwise (Before ordered)
  barriers : ∀ p b, s.given[p]? = some (.barrier b) →
    (p, .barrier b) ∈ s.line ∧ (s.line.map Prod.fst).count p = 1
  given : ∀ p w, (p, .watermark w) ∈ s.line → s.given[p]? = some (.watermark w)
  kept : ∀ p w, s.given[p]? = some (.watermark w) →
    (∀ q v, p < q → SameRun s.given p q → s.given[q]? = some (.watermark v) →
      w.idle = false ∧ v.idle = true) →
    (p, .watermark w) ∈ s.line

namespace Lookups

variable {fn : In → Out} {maxInFlight : Nat} {ordered : Bool} {s : Lookups In Out B}

theorem item_of_given {p : Nat} {g : Given In B} (h : s.given[p]? = some g) :
    (s.given.map Given.item)[p]? = some g.item := by
  rw [List.getElem?_map, h]
  rfl

theorem given_of_item {p : Nat} {w : Watermark}
    (h : (s.given.map Given.item)[p]? = some (.watermark w)) :
    s.given[p]? = some (.watermark w) := by
  rw [List.getElem?_map] at h
  obtain ⟨g, hgot, heq⟩ := Option.map_eq_some_iff.mp h
  cases g with
  | record r => exact absurd heq (by simp [Given.item])
  | barrier b => exact absurd heq (by simp [Given.item])
  | watermark v =>
      obtain rfl : v = w := by simpa [Given.item] using heq
      exact hgot

theorem Inv.keepsOrder (h : Inv fn ordered s) : KeepsOrder fn ordered s := by
  have hnodup : (s.line.map Prod.fst).Nodup := by
    refine List.pairwise_map.mpr (h.line.order.imp ?_)
    rintro a b (hlt | ⟨-, -, -, hne⟩)
    · exact Nat.ne_of_lt hlt
    · exact hne
  have hsingle : ∀ {m : Mark B}, m ∈ s.line → m ∈ s.line ∧ (s.line.map Prod.fst).count m.1 = 1 := by
    intro m hmem
    refine ⟨hmem, ?_⟩
    rw [hnodup.count, if_pos (List.mem_map.mpr ⟨m, hmem, rfl⟩)]
  refine ⟨fun x p hmem => ?_, fun p r hgot => ?_, h.line.order, fun p b hgot => ?_,
    fun p w hmem => given_of_item (h.line.sound _ hmem), fun p w hgot hlast => ?_⟩
  · obtain ⟨r, hgot, rfl⟩ := h.results x p hmem
    exact ⟨r, hgot, rfl⟩
  · exact hsingle (h.line.kept p _ (item_of_given hgot) rfl)
  · exact hsingle (h.line.kept p _ (item_of_given hgot) rfl)
  · obtain ⟨p', w', hle, hmem, hrun, hactive⟩ := h.line.marks p w (item_of_given hgot)
    have hgot' := given_of_item (h.line.sound _ hmem)
    by_cases hsame : p = p'
    · subst hsame
      obtain rfl : w = w' := by simpa using hgot.symm.trans hgot'
      exact hmem
    · have hbetween : SameRun s.given p p' := by
        refine ⟨hle, fun k hlow hhigh => ?_⟩
        obtain ⟨v, hitem⟩ := hrun k hlow hhigh
        exact ⟨v, given_of_item hitem⟩
      obtain ⟨hnotIdle, hidle⟩ := hlast p' w' (by omega) hbetween hgot'
      exact absurd ((hactive hnotIdle).symm.trans hidle) (by simp)

/-- In every run the results and markers keep the order asked for, a barrier leaves when
nothing is in flight, waiting ends when the lookups finish, and a result carries the time of
its record exactly where the record has none. -/
theorem lookups_keep_order {calls : List (Call In B)}
    (hran : run fn maxInFlight ordered {} calls = some s) :
    KeepsOrder fn ordered s ∧
    (∀ x p, .data x p ∈ s.emitted → ∃ r, s.given[p]? = some (.record r) ∧
      (x.eventTime = r.eventTime ↔ r.eventTime = none)) ∧
    (∀ b rounds s', s.call fn maxInFlight ordered (.barrier b rounds) = some s' →
      s'.queue = [] ∧ s'.lookups = 0 ∧
        ∃ before, s'.emitted = before ++ [.barrier b s'.given.dropLast.length]) ∧
    (∀ rounds s', s.call fn maxInFlight ordered (.flush rounds) = some s' → s'.queue = []) ∧
    (∀ rounds, s.Finishes rounds →
      (∃ s', s.waitForAll ordered rounds = some s') ∧
      ∃ r, s.makeRoom maxInFlight ordered rounds = some r) := by
  have hinv : Inv fn ordered s := inv_empty.run hran
  refine ⟨hinv.keepsOrder, fun x p hmem => ?_, fun b rounds s' heq => ?_,
    fun rounds s' heq => (hinv.waitForAll heq).2,
    fun rounds hfinishes => ⟨waitForAll_returns ordered hfinishes, makeRoom_returns hinv hfinishes⟩⟩
  · obtain ⟨r, hgot, rfl⟩ := hinv.results x p hmem
    exact ⟨r, hgot, eq_comm⟩
  · obtain ⟨t, hwaited, rfl⟩ := Option.map_eq_some_iff.mp heq
    obtain ⟨hinv', hempty⟩ := hinv.waitForAll hwaited
    refine ⟨hempty, ?_, t.emitted, by simp [onBarrier]⟩
    change t.lookups = 0
    rw [hinv'.counted, hempty]
    rfl

/-- Two records without a time, the second finished first, and a watermark between. -/
def twoRecords : List (Call Nat Nat) :=
  [.data [(⟨7, none⟩, false)] [], .watermark ⟨3, false⟩, .data [(⟨8, none⟩, true)] [],
    .flush [fun _ => true]]

theorem lookups_keep_order_twoRecords :
    ∃ s, run (fun n => n + 1) 4 false ({} : Lookups Nat Nat Nat) twoRecords = some s ∧
      KeepsOrder (fun n => n + 1) false s ∧ s.line = [(0, .record), (1, .watermark ⟨3, false⟩),
        (2, .record)] := by
  have hline : (run (fun n => n + 1) 4 false ({} : Lookups Nat Nat Nat) twoRecords).map
      Lookups.line = some [(0, .record), (1, .watermark ⟨3, false⟩), (2, .record)] := by
    decide
  obtain ⟨s, hran, hmarks⟩ := Option.map_eq_some_iff.mp hline
  exact ⟨s, hran, (lookups_keep_order hran).1, hmarks⟩

/-- The result of a record with a time has none. -/
theorem result_without_time :
    ∃ s, run (fun n => n + 1) 4 true ({} : Lookups Nat Nat Nat)
        [.data [(⟨7, some 5⟩, true)] []] = some s ∧
      s.given[0]? = some (.record ⟨7, some 5⟩) ∧
      ∃ x, .data x 0 ∈ s.emitted ∧ x.eventTime ≠ some 5 := by
  refine ⟨_, rfl, rfl, ⟨8, none⟩, List.mem_cons_self, by decide⟩

end Lookups

end Clink.Ports.AsyncLookup

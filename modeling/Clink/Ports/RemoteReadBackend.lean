import Clink.Verified.RefCounts
import Clink.Verified.Run
import Clink.Ports.InMemoryStateBackend

/-!
# The remote-read state backend

The embedding of the pool-backed half of
`include/clink/state/remote_read_backend.hpp`.  State is a hot tier over a pool
of committed checkpoints.  Writes since the last capture are `dirty` or
`deleted`; a capture moves them into a pending commit and pins their keys, and
`persist` commits the pending delta to the pool, points cold reads at it and
drops the pins.  The hot tier evicts least recently used keys that are not
pinned.

A cold asynchronous read is three steps: the miss check, the pool read and the
fill of the hot tier, with any other operation between them.

`RemotePool` is the pool's interface with what it promises;
`InMemoryRemotePool` is the one the source keeps in memory.
-/

namespace Clink.Ports.RemoteReadBackend

open Clink.Verified
open Clink.Ports.InMemoryStateBackend (Key Value)

/-- An operator's key. -/
abbrev Place := Nat × Key

/-! ## The pool -/

/-- A pool with states `σ`: a checkpoint is its base with the changed entries
and without the deleted keys, and no commit touches another checkpoint. -/
structure RemotePool (σ : Type) where
  commit : σ → Nat → Nat → List (Place × Value) → List Place → σ
  read : σ → Nat → Place → Option Value
  scanCheckpoint : σ → Nat → List (Place × Value)
  read_changed : ∀ p id base changed deleted k v, (k, v) ∈ changed →
    (∀ v', (k, v') ∈ changed → v' = v) →
    read (commit p id base changed deleted) id k = some v
  read_unchanged : ∀ p id base changed deleted k, (∀ v, (k, v) ∉ changed) →
    read (commit p id base changed deleted) id k =
      if k ∈ deleted then none else if base = 0 then none else read p base k
  read_other : ∀ p id base changed deleted id' k, id' ≠ id →
    read (commit p id base changed deleted) id' k = read p id' k
  mem_scan : ∀ p id k v, (k, v) ∈ scanCheckpoint p id ↔ read p id k = some v

/-! ## The backend -/

/-- A delta detached by a capture. -/
structure PendingCommit where
  base : Nat
  changed : List (Place × Value)
  deleted : List Place

structure HotEntry where
  op : Nat
  key : Key
  bytes : Nat

/-- The hot rows and their recency, most recent first. -/
structure HotTier where
  hot : InMemoryStateBackend.Backend := {}
  lru : List HotEntry := []
  hotBytes : Nat := 0

structure Backend (σ : Type) where
  tier : HotTier := {}
  /-- 0 is no budget. -/
  hotMaxBytes : Nat
  dirty : List Place := []
  deleted : List Place := []
  pending : SortedMap Nat PendingCommit := .empty
  persistingDirty : RefCounts Place := .empty
  persistingDeleted : RefCounts Place := .empty
  lastCkpt : Nat
  lastCaptured : Nat
  pool : σ

variable {σ : Type} (P : RemotePool σ)

def HotTier.get (t : HotTier) (k : Place) : Option Value := t.hot.get k.1 k.2

/-- Refresh a key's recency and size. -/
def HotTier.touch (hotMaxBytes : Nat) (t : HotTier) (k : Place) (valueSize : Nat) : HotTier :=
  if hotMaxBytes = 0 then t
  else
    let entry : HotEntry := ⟨k.1, k.2, k.2.length + valueSize⟩
    match t.lru.find? fun e => (e.op, e.key) = k with
    | some old =>
        { t with
          hotBytes := t.hotBytes + entry.bytes - old.bytes
          lru := entry :: t.lru.filter fun e => (e.op, e.key) ≠ k }
    | none => { t with hotBytes := t.hotBytes + entry.bytes, lru := entry :: t.lru }

def HotTier.forgetHot (hotMaxBytes : Nat) (t : HotTier) (k : Place) : HotTier :=
  if hotMaxBytes = 0 then t
  else
    match t.lru.find? fun e => (e.op, e.key) = k with
    | some old =>
        { t with
          hotBytes := t.hotBytes - old.bytes
          lru := t.lru.filter fun e => (e.op, e.key) ≠ k }
    | none => t

/-- `kMaxPinnedSkips`. -/
def maxPinnedSkips : Nat := 256

/-- Walk from the least recent entry while over budget; the last argument is
what is left to look at, the answer ends with what was kept of it. -/
def evictLoop (hotMaxBytes : Nat) (pinned : Place → Bool) :
    Nat → InMemoryStateBackend.Backend → Nat → List HotEntry →
      InMemoryStateBackend.Backend × Nat × List HotEntry
  | _, hot, bytes, [] => (hot, bytes, [])
  | skips, hot, bytes, e :: rest =>
      if bytes ≤ hotMaxBytes then (hot, bytes, e :: rest)
      else if pinned (e.op, e.key) then
        if maxPinnedSkips < skips + 1 then (hot, bytes, e :: rest)
        else
          let (hot, bytes, kept) := evictLoop hotMaxBytes pinned (skips + 1) hot bytes rest
          (hot, bytes, e :: kept)
      else evictLoop hotMaxBytes pinned skips (hot.erase e.op e.key) (bytes - e.bytes) rest

def HotTier.maybeEvict (hotMaxBytes : Nat) (pinned : Place → Bool) (t : HotTier) : HotTier :=
  if hotMaxBytes = 0 then t
  else
    let (hot, hotBytes, kept) := evictLoop hotMaxBytes pinned 0 t.hot t.hotBytes t.lru.reverse
    { hot, hotBytes, lru := kept.reverse }

section
variable (b : Backend σ)

/-- Erased since the last capture, or in a capture not yet committed. -/
def Backend.isDeleted (k : Place) : Bool := k ∈ b.deleted || b.persistingDeleted.held k

/-- The pool does not have the key's latest value yet. -/
def Backend.isPinned (k : Place) : Bool :=
  k ∈ b.dirty || k ∈ b.deleted || b.persistingDirty.held k || b.persistingDeleted.held k

def Backend.maybeEvict : Backend σ :=
  { b with tier := b.tier.maybeEvict b.hotMaxBytes b.isPinned }

def Backend.put (op : Nat) (key : Key) (value : Value) : Backend σ :=
  { b with
    tier := { b.tier with hot := b.tier.hot.put op key value }.touch b.hotMaxBytes (op, key)
      value.length
    deleted := b.deleted.filter (· ≠ (op, key))
    dirty := b.dirty.insert (op, key) }.maybeEvict

def Backend.erase (op : Nat) (key : Key) : Backend σ :=
  { b with
    tier := { b.tier with hot := b.tier.hot.erase op key }.forgetHot b.hotMaxBytes (op, key)
    dirty := b.dirty.filter (· ≠ (op, key))
    deleted := b.deleted.insert (op, key) }

/-- What the pool has for the key at the last committed checkpoint. -/
def Backend.load (k : Place) : Option Value :=
  if b.lastCkpt = 0 then none else P.read b.pool b.lastCkpt k

/-- Write a loaded value through, unless the key was erased or is hot again. -/
def Backend.fillHot (k : Place) (v : Value) : Backend σ :=
  if b.isDeleted k then b
  else if (b.tier.get k).isSome then b
  else
    { b with
      tier := { b.tier with hot := b.tier.hot.put k.1 k.2 v }.touch b.hotMaxBytes k
        v.length }.maybeEvict

def Backend.get (op : Nat) (key : Key) : Backend σ × Option Value :=
  match b.tier.get (op, key) with
  | some v => (b, some v)
  | none =>
      if b.isDeleted (op, key) then (b, none)
      else
        match b.load P (op, key) with
        | none => (b, none)
        | some v => (b.fillHot (op, key) v, some v)

/-- The keys and values a scan of an operator visits: the pool's, then the
hot ones. -/
def Backend.scan (op : Nat) : List (Key × Value) :=
  let hotEntries := ((b.tier.hot.state.lookup op).getD ∅).entries.map fun e => (e.1, e.2)
  let cold :=
    if b.lastCkpt = 0 then []
    else (P.scanCheckpoint b.pool b.lastCkpt).filterMap fun e =>
      if e.1.1 ≠ op then none
      else if (b.tier.get e.1).isSome || b.isDeleted e.1 then none
      else some (e.1.2, e.2)
  cold ++ hotEntries

/-- Detach the delta; a checkpoint already captured is left alone. -/
def Backend.capture (id : Nat) : Backend σ :=
  if id ≤ b.lastCaptured then b
  else
    let changed := b.dirty.filterMap fun k => (b.tier.get k).map (k, ·)
    { b with
      pending := b.pending.upsert id fun _ => ⟨b.lastCaptured, changed, b.deleted⟩
      persistingDirty := b.persistingDirty.takeAll b.dirty
      persistingDeleted := b.persistingDeleted.takeAll b.deleted
      lastCaptured := id
      dirty := []
      deleted := [] }

/-- Commit a pending delta and release its pins. -/
def Backend.persist (id : Nat) : Backend σ :=
  match b.pending.find? id with
  | none => b
  | some pc =>
      { b with
        pending := b.pending.erase id
        pool := P.commit b.pool id pc.base pc.changed pc.deleted
        lastCkpt := if b.lastCkpt < id then id else b.lastCkpt
        persistingDirty := b.persistingDirty.releaseAll (pc.changed.map Prod.fst)
        persistingDeleted := b.persistingDeleted.releaseAll pc.deleted }.maybeEvict

end

/-! ## Asynchronous reads -/

/-- A cold read in flight: the missed keys, and what the pool answered. -/
structure Load where
  op : Nat
  keys : List Key
  values : Option (List (Option Value)) := none

structure State (σ : Type) where
  backend : Backend σ
  loads : AList fun _ : Nat => Load := ∅

inductive Event where
  | put (op : Nat) (key : Key) (value : Value)
  | erase (op : Nat) (key : Key)
  | capture (id : Nat)
  | persist (id : Nat)
  | get (op : Nat) (key : Key)
  /-- The miss check of `get_async` (one key) or `get_many_async`. -/
  | missCheck (read op : Nat) (keys : List Key)
  | poolRead (read : Nat)
  | fill (read : Nat)

/-- The loaded keys and values, written through one after the other. -/
def fillAll (b : Backend σ) (op : Nat) (loaded : List (Key × Option Value)) : Backend σ :=
  loaded.foldl (fun b e => match e.2 with
    | none => b
    | some v => b.fillHot (op, e.1) v) b

def State.step (s : State σ) : Event → State σ
  | .put op key value => { s with backend := s.backend.put op key value }
  | .erase op key => { s with backend := s.backend.erase op key }
  | .capture id => { s with backend := s.backend.capture id }
  | .persist id => { s with backend := s.backend.persist P id }
  | .get op key => { s with backend := (s.backend.get P op key).1 }
  | .missCheck read op keys =>
      let coldKeys := keys.filter fun key =>
        (s.backend.tier.get (op, key)).isNone && !s.backend.isDeleted (op, key)
      if coldKeys = [] then s
      else { s with loads := s.loads.insert read ⟨op, coldKeys, none⟩ }
  | .poolRead read =>
      match s.loads.lookup read with
      | none => s
      | some l =>
          let values := l.keys.map fun key => s.backend.load P (l.op, key)
          { s with loads := s.loads.insert read { l with values := some values } }
  | .fill read =>
      match s.loads.lookup read with
      | none => s
      | some l =>
          match l.values with
          | none => s
          | some values =>
              { backend := fillAll s.backend l.op (l.keys.zip values)
                loads := s.loads.erase read }

/-! ## The pool kept in memory -/

/-- `InMemoryRemotePool`: every checkpoint a whole map. -/
abbrev Checkpoints := AList fun _ : Nat => AList fun _ : Place => Value

def inMemoryCommit (p : Checkpoints) (id base : Nat) (changed : List (Place × Value))
    (deleted : List Place) : Checkpoints :=
  let next := if base ≠ 0 then (p.lookup base).getD ∅ else ∅
  let next := deleted.foldl (fun m k => m.erase k) next
  p.insert id (changed.foldl (fun m e => m.insert e.1 e.2) next)

def inMemoryRead (p : Checkpoints) (id : Nat) (k : Place) : Option Value :=
  (p.lookup id).bind (AList.lookup k)

def inMemoryScan (p : Checkpoints) (id : Nat) : List (Place × Value) :=
  ((p.lookup id).getD ∅).entries.map fun e => (e.1, e.2)

private theorem lookup_erase_all (deleted : List Place) (m : AList fun _ : Place => Value)
    (k : Place) :
    (deleted.foldl (fun m k => m.erase k) m).lookup k =
      if k ∈ deleted then none else m.lookup k := by
  induction deleted generalizing m with
  | nil => simp
  | cons d rest ih =>
      rw [List.foldl_cons, ih]
      by_cases hd : k = d
      · subst hd
        simp
      · simp [hd, AList.lookup_erase_ne hd]

theorem lookup_insert_all_of_notMem {changed : List (Place × Value)} {k : Place}
    (h : ∀ v, (k, v) ∉ changed) (m : AList fun _ : Place => Value) :
    (changed.foldl (fun m e => m.insert e.1 e.2) m).lookup k = m.lookup k := by
  induction changed generalizing m with
  | nil => rfl
  | cons e rest ih =>
      have hne : k ≠ e.1 := by
        rintro rfl
        exact h e.2 List.mem_cons_self
      rw [List.foldl_cons, ih fun v hv => h v (List.mem_cons_of_mem _ hv)]
      exact AList.lookup_insert_ne hne

private theorem lookup_insert_all_of_mem {changed : List (Place × Value)} {k : Place} {v : Value}
    (hmem : (k, v) ∈ changed) (honly : ∀ v', (k, v') ∈ changed → v' = v)
    (m : AList fun _ : Place => Value) :
    (changed.foldl (fun m e => m.insert e.1 e.2) m).lookup k = some v := by
  induction changed generalizing m with
  | nil => simp at hmem
  | cons e rest ih =>
      rw [List.foldl_cons]
      by_cases hrest : ∃ v', (k, v') ∈ rest
      · obtain ⟨v', hv'⟩ := hrest
        have hv := honly v' (List.mem_cons_of_mem _ hv')
        subst hv
        exact ih hv' (fun v'' hv'' => honly v'' (List.mem_cons_of_mem _ hv'')) _
      · have hnot : ∀ v', (k, v') ∉ rest := fun v' hv' => hrest ⟨v', hv'⟩
        have he : (k, v) = e := by
          rcases List.mem_cons.mp hmem with he | he
          · exact he
          · exact absurd he (hnot v)
        rw [lookup_insert_all_of_notMem hnot, ← he]
        exact AList.lookup_insert m

def InMemoryRemotePool : RemotePool Checkpoints where
  commit := inMemoryCommit
  read := inMemoryRead
  scanCheckpoint := inMemoryScan
  read_changed p id base changed deleted k v hmem honly := by
    unfold inMemoryRead inMemoryCommit
    rw [AList.lookup_insert, Option.bind_some]
    exact lookup_insert_all_of_mem hmem honly _
  read_unchanged p id base changed deleted k hnot := by
    unfold inMemoryRead inMemoryCommit
    rw [AList.lookup_insert, Option.bind_some, lookup_insert_all_of_notMem hnot,
      lookup_erase_all]
    by_cases hbase : base = 0
    · simp [hbase]
    · simp only [hbase, ne_eq, not_false_eq_true, if_true, if_false]
      cases p.lookup base <;> rfl
  read_other p id base changed deleted id' k hne := by
    unfold inMemoryRead inMemoryCommit
    rw [AList.lookup_insert_ne hne]
  mem_scan p id k v := by
    unfold inMemoryScan inMemoryRead
    rw [List.mem_map]
    cases p.lookup id with
    | none => simp
    | some m =>
        rw [Option.getD_some, Option.bind_some, ← Option.mem_def, AList.mem_lookup_iff]
        constructor
        · rintro ⟨⟨k', v'⟩, hmem, heq⟩
          obtain ⟨rfl, rfl⟩ := Prod.mk.inj heq
          exact hmem
        · intro hmem
          exact ⟨⟨k, v⟩, hmem, rfl⟩

end Clink.Ports.RemoteReadBackend

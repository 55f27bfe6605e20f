import Clink.Ports.RemoteReadBackend

/-!
# Disaggregated state as a map

`Ledger` is the plain map a run of the remote-read backend stands for, with its
contents at every capture.  The pending commits are a chain of deltas from the
pool's last committed checkpoint to the contents at the last capture, and the
dirty and deleted keys lead from there to the map (`Coherent`).  Every step
keeps that, whatever the asynchronous reads do, so a committed checkpoint is
always the map at its capture.

A read is right as long as the hot tier holds no old value (`HotLive`).  The
only step that can put one there is a fill: the value was loaded before the key
was written, and by the time of the fill the newer value has been committed
and evicted, or its delete committed and unpinned.  `FillsFresh` says that no
value of a fill is of that kind.
-/

namespace Clink.Ports.RemoteReadBackend

open Clink.Verified
open Clink.Ports.InMemoryStateBackend (Key Value)

/-! ## The map -/

structure Ledger where
  live : Place → Option Value
  lastCaptured : Nat
  /-- The map at each capture. -/
  captured : Nat → Option (Place → Option Value) := fun _ => none

def Ledger.next (L : Ledger) : Event → Ledger
  | .put op key value =>
      { L with live := fun k => if k = (op, key) then some value else L.live k }
  | .erase op key => { L with live := fun k => if k = (op, key) then none else L.live k }
  | .capture id =>
      if id ≤ L.lastCaptured then L
      else
        { L with
          lastCaptured := id
          captured := fun id' => if id' = id then some L.live else L.captured id' }
  | _ => L

variable {σ : Type} {P : RemotePool σ}

/-! ## Deltas -/

/-- The contents after the delta, from those before it. -/
structure Extends (pc : PendingCommit) (M M' : Place → Option Value) : Prop where
  changed : ∀ {k v}, (k, v) ∈ pc.changed → M' k = some v
  unchanged : ∀ {k}, (∀ v, (k, v) ∉ pc.changed) → M' k = if k ∈ pc.deleted then none else M k

/-- Pending commits one on top of the other, from contents to contents. -/
inductive Chain (captured : Nat → Option (Place → Option Value)) :
    Nat → (Place → Option Value) → List (Nat × PendingCommit) → Nat →
      (Place → Option Value) → Prop
  | nil {c M} : Chain captured c M [] c M
  | cons {c M id pc M' rest c' M''} : pc.base = c → c < id → Extends pc M M' →
      captured id = some M' → Chain captured id M' rest c' M'' →
      Chain captured c M ((id, pc) :: rest) c' M''

variable {captured : Nat → Option (Place → Option Value)} {c c' : Nat}
  {M M' M'' : Place → Option Value} {es : List (Nat × PendingCommit)}

variable {id : Nat} {pc : PendingCommit}

theorem Chain.snoc (h : Chain captured c M es c' M') (hbase : pc.base = c') (hlt : c' < id)
    (hext : Extends pc M' M'') (hcap : captured id = some M'') :
    Chain captured c M (es ++ [(id, pc)]) id M'' := by
  induction h with
  | nil => exact .cons hbase hlt hext hcap .nil
  | cons hb hl he hc _ ih => exact .cons hb hl he hc (ih hbase hlt hext)

theorem Chain.ids (h : Chain captured c M es c' M') : c ≤ c' ∧ ∀ e ∈ es, c < e.1 ∧ e.1 ≤ c' := by
  induction h with
  | nil => simp
  | @cons c M id pc M₁ rest c' M₂ _ hlt _ _ _ ih =>
      obtain ⟨hle, hrest⟩ := ih
      refine ⟨by omega, ?_⟩
      intro e he
      rcases List.mem_cons.mp he with rfl | he
      · exact ⟨hlt, hle⟩
      · have := hrest e he
        omega

theorem Chain.mono {captured' : Nat → Option (Place → Option Value)}
    (h : Chain captured c M es c' M') (hsame : ∀ id, id ≤ c' → captured' id = captured id) :
    Chain captured' c M es c' M' := by
  induction h with
  | nil => exact .nil
  | cons hb hl he hc hrest ih =>
      exact .cons hb hl he ((hsame _ hrest.ids.1).trans hc) (ih hsame)

variable {k : Place}

/-- A key no delta touches keeps its contents. -/
theorem Chain.untouched (h : Chain captured c M es c' M')
    (hk : ∀ e ∈ es, (∀ v, (k, v) ∉ e.2.changed) ∧ k ∉ e.2.deleted) : M' k = M k := by
  induction h with
  | nil => rfl
  | @cons c M id pc M₁ rest c' M₂ _ _ hext _ _ ih =>
      obtain ⟨hchanged, hdeleted⟩ := hk (id, pc) List.mem_cons_self
      rw [ih fun e he => hk e (List.mem_cons_of_mem _ he), hext.unchanged hchanged,
        if_neg hdeleted]

/-! ## Coherence -/

/-- How often the pending deltas hold a key. -/
def holds (keys : PendingCommit → List Place) (es : List (Nat × PendingCommit)) (k : Place) :
    Nat :=
  (es.flatMap fun e => keys e.2).countP (· = k)

theorem holds_cons (keys : PendingCommit → List Place) (e : Nat × PendingCommit)
    (es : List (Nat × PendingCommit)) (k : Place) :
    holds keys (e :: es) k = (keys e.2).countP (· = k) + holds keys es k := by
  unfold holds
  rw [List.flatMap_cons, List.countP_append]

theorem holds_snoc (keys : PendingCommit → List Place) (es : List (Nat × PendingCommit))
    (e : Nat × PendingCommit) (k : Place) :
    holds keys (es ++ [e]) k = holds keys es k + (keys e.2).countP (· = k) := by
  unfold holds
  rw [List.flatMap_append, List.countP_append]
  simp

/-- The keys a delta changes. -/
def PendingCommit.changedKeys (pc : PendingCommit) : List Place := pc.changed.map Prod.fst

/-- A key a pending delta changed is hot, unless it was erased since. -/
def ChangedHot (t : HotTier) (deleted : List Place) (es : List (Nat × PendingCommit)) : Prop :=
  ∀ pre e post, es = pre ++ e :: post → ∀ k v, (k, v) ∈ e.2.changed →
    (t.get k).isSome ∨ k ∈ deleted ∨ ∃ e' ∈ post, k ∈ e'.2.deleted

structure Coherent (P : RemotePool σ) (b : Backend σ) (L : Ledger) : Prop where
  /-- Pending deltas, then the writes since, lead from the pool to the map. -/
  chain : ∃ M, Chain L.captured b.lastCkpt (b.load P) b.pending.entries b.lastCaptured M ∧
    ∀ k, L.live k = if k ∈ b.dirty then b.tier.get k else if k ∈ b.deleted then none else M k
  lastCaptured : L.lastCaptured = b.lastCaptured
  dirtyHot : ∀ k ∈ b.dirty, (b.tier.get k).isSome
  changedHot : ChangedHot b.tier b.deleted b.pending.entries
  dirtyHolds : ∀ k, b.persistingDirty.count k =
    holds PendingCommit.changedKeys b.pending.entries k
  deletedHolds : ∀ k, b.persistingDeleted.count k =
    holds PendingCommit.deleted b.pending.entries k
  deletedAbsent : ∀ k, b.isDeleted k → b.tier.get k = none → L.live k = none
  committed : ∀ id M, L.captured id = some M → b.pending.find? id = none →
    ∀ k, P.read b.pool id k = M k
  capturedBelow : ∀ id M, L.captured id = some M → id ≤ b.lastCaptured

/-- The hot tier holds no old value. -/
def HotLive (b : Backend σ) (L : Ledger) : Prop :=
  ∀ k v, b.tier.get k = some v → L.live k = some v

theorem holds_pos {keys : PendingCommit → List Place} {e : Nat × PendingCommit} (he : e ∈ es)
    (hk : k ∈ keys e.2) : 0 < holds keys es k := by
  unfold holds
  rw [List.countP_pos_iff]
  exact ⟨k, List.mem_flatMap.mpr ⟨e, he, hk⟩, by simp⟩

variable {b : Backend σ} {L : Ledger}

/-- A key some pending delta deletes reads as deleted. -/
theorem Coherent.isDeleted_of_pending (h : Coherent P b L) {e : Nat × PendingCommit}
    (he : e ∈ b.pending.entries) (hk : k ∈ e.2.deleted) : b.isDeleted k = true := by
  have hheld : b.persistingDeleted.held k = true := by
    rw [RefCounts.held_iff, h.deletedHolds]
    exact holds_pos he hk
  simp [Backend.isDeleted, hheld]

/-- A key that is neither hot nor deleted reads from the pool. -/
theorem Coherent.live_eq_load (h : Coherent P b L) (hcold : b.tier.get k = none)
    (hdel : b.isDeleted k = false) : L.live k = b.load P k := by
  obtain ⟨M, hchain, hlive⟩ := h.chain
  have hdirty : k ∉ b.dirty := by
    intro hk
    have := h.dirtyHot k hk
    simp [hcold] at this
  have hdeleted : k ∉ b.deleted := by
    intro hk
    simp [Backend.isDeleted, hk] at hdel
  rw [hlive, if_neg hdirty, if_neg hdeleted]
  refine hchain.untouched fun e he => ⟨fun v hv => ?_, fun hk => ?_⟩
  · obtain ⟨pre, post, hsplit⟩ := List.append_of_mem he
    rcases h.changedHot pre e post hsplit k v hv with hhot | hk | ⟨e', he', hk⟩
    · simp [hcold] at hhot
    · exact hdeleted hk
    · have := h.isDeleted_of_pending (e := e') (by rw [hsplit]; simp [he']) hk
      simp [hdel] at this
  · have := h.isDeleted_of_pending he hk
    simp [hdel] at this

/-! ## The hot tier -/

@[simp] theorem get_touch (hotMaxBytes : Nat) (t : HotTier) (k k' : Place) (size : Nat) :
    (t.touch hotMaxBytes k size).get k' = t.get k' := by
  unfold HotTier.touch
  split
  · rfl
  · dsimp only
    split <;> rfl

@[simp] theorem get_forgetHot (hotMaxBytes : Nat) (t : HotTier) (k k' : Place) :
    (t.forgetHot hotMaxBytes k).get k' = t.get k' := by
  unfold HotTier.forgetHot
  split
  · rfl
  · split <;> rfl

theorem get_hot_put (t : HotTier) (k k' : Place) (v : Value) :
    { t with hot := t.hot.put k.1 k.2 v }.get k' = if k' = k then some v else t.get k' := by
  obtain ⟨op, key⟩ := k
  obtain ⟨op', key'⟩ := k'
  unfold HotTier.get
  rw [InMemoryStateBackend.get_put]
  simp only [Prod.mk.injEq, eq_comm]

theorem get_hot_erase (t : HotTier) (k k' : Place) :
    { t with hot := t.hot.erase k.1 k.2 }.get k' = if k' = k then none else t.get k' := by
  obtain ⟨op, key⟩ := k
  obtain ⟨op', key'⟩ := k'
  unfold HotTier.get
  rw [InMemoryStateBackend.get_erase]
  simp only [Prod.mk.injEq, eq_comm]

private theorem get_evictLoop (hotMaxBytes : Nat) (pinned : Place → Bool) (skips : Nat)
    (hot : InMemoryStateBackend.Backend) (bytes : Nat) (entries : List HotEntry) (k : Place) :
    (evictLoop hotMaxBytes pinned skips hot bytes entries).1.get k.1 k.2 = hot.get k.1 k.2 ∨
      ((evictLoop hotMaxBytes pinned skips hot bytes entries).1.get k.1 k.2 = none ∧
        pinned k = false) := by
  induction entries generalizing skips hot bytes with
  | nil => exact .inl rfl
  | cons e rest ih =>
      unfold evictLoop
      by_cases hbudget : bytes ≤ hotMaxBytes
      · rw [if_pos hbudget]
        exact .inl rfl
      rw [if_neg hbudget]
      by_cases hpin : pinned (e.op, e.key) = true
      · rw [if_pos hpin]
        by_cases hskip : maxPinnedSkips < skips + 1
        · rw [if_pos hskip]
          exact .inl rfl
        · rw [if_neg hskip]
          exact ih (skips + 1) hot bytes
      · rw [if_neg hpin]
        rcases ih skips (hot.erase e.op e.key) (bytes - e.bytes) with hsame | hgone
        · rw [hsame, InMemoryStateBackend.get_erase]
          by_cases hk : e.op = k.1 ∧ e.key = k.2
          · rw [if_pos hk]
            have hplace : (e.op, e.key) = k := Prod.ext hk.1 hk.2
            rw [hplace] at hpin
            exact .inr ⟨rfl, by simpa using hpin⟩
          · rw [if_neg hk]
            exact .inl rfl
        · exact .inr hgone

/-- Eviction drops only keys that are not pinned. -/
theorem get_maybeEvict (hotMaxBytes : Nat) (pinned : Place → Bool) (t : HotTier) (k : Place) :
    (t.maybeEvict hotMaxBytes pinned).get k = t.get k ∨
      ((t.maybeEvict hotMaxBytes pinned).get k = none ∧ pinned k = false) := by
  unfold HotTier.maybeEvict
  split
  · exact .inl rfl
  · exact get_evictLoop hotMaxBytes pinned 0 t.hot t.hotBytes t.lru.reverse k

/-! ## Steps that only touch the hot tier -/

variable {t : HotTier}

/-- Dropping keys that are not pinned and filling cold keys that are not
deleted leaves everything else coherent. -/
theorem Coherent.retier (h : Coherent P b L)
    (ht : ∀ k, t.get k = b.tier.get k ∨ (t.get k = none ∧ b.isPinned k = false) ∨
      (b.tier.get k = none ∧ b.isDeleted k = false)) : Coherent P { b with tier := t } L := by
  have hdirty : ∀ k ∈ b.dirty, t.get k = b.tier.get k := by
    intro k hk
    rcases ht k with hsame | ⟨-, hpin⟩ | ⟨hcold, -⟩
    · exact hsame
    · simp [Backend.isPinned, hk] at hpin
    · have := h.dirtyHot k hk
      simp [hcold] at this
  have hdel : ∀ k, b.isDeleted k = true → t.get k = b.tier.get k := by
    intro k hk
    rcases ht k with hsame | ⟨-, hpin⟩ | ⟨-, hnot⟩
    · exact hsame
    · unfold Backend.isDeleted at hk
      unfold Backend.isPinned at hpin
      simp_all
    · rw [hk] at hnot
      simp at hnot
  obtain ⟨M, hchain, hlive⟩ := h.chain
  refine ⟨⟨M, hchain, ?_⟩, h.lastCaptured, ?_, ?_, h.dirtyHolds, h.deletedHolds, ?_, h.committed,
    h.capturedBelow⟩
  · intro k
    rw [hlive]
    by_cases hk : k ∈ b.dirty
    · simp [hk, hdirty k hk]
    · simp [hk]
  · intro k hk
    rw [show ({ b with tier := t } : Backend σ).tier = t from rfl, hdirty k hk]
    exact h.dirtyHot k hk
  · intro pre e post hsplit k v hv
    have hmem : e ∈ b.pending.entries := by
      rw [show b.pending.entries = _ from hsplit]
      simp
    have hpin : b.persistingDirty.held k = true := by
      rw [RefCounts.held_iff, h.dirtyHolds]
      exact holds_pos hmem (List.mem_map.mpr ⟨(k, v), hv, rfl⟩)
    rcases h.changedHot pre e post hsplit k v hv with hhot | hk
    · rcases ht k with hsame | ⟨-, hnot⟩ | ⟨hcold, -⟩
      · left
        rw [show ({ b with tier := t } : Backend σ).tier = t from rfl, hsame]
        exact hhot
      · simp [Backend.isPinned, hpin] at hnot
      · simp [hcold] at hhot
    · exact .inr hk
  · intro k hk hcold
    exact h.deletedAbsent k hk ((hdel k hk).symm.trans hcold)

theorem Coherent.maybeEvict (h : Coherent P b L) : Coherent P b.maybeEvict L := by
  refine h.retier fun k => ?_
  rcases get_maybeEvict b.hotMaxBytes b.isPinned b.tier k with hsame | hgone
  · exact .inl hsame
  · exact .inr (.inl hgone)

theorem HotLive.maybeEvict (h : HotLive b L) : HotLive b.maybeEvict L := by
  intro k v hv
  rcases get_maybeEvict b.hotMaxBytes b.isPinned b.tier k with hsame | ⟨hgone, -⟩
  · exact h k v (hsame ▸ hv)
  · change (b.tier.maybeEvict b.hotMaxBytes b.isPinned).get k = some v at hv
    rw [hgone] at hv
    simp at hv

theorem Coherent.fillHot (h : Coherent P b L) (k : Place) (v : Value) :
    Coherent P (b.fillHot k v) L := by
  unfold Backend.fillHot
  by_cases hdel : b.isDeleted k = true
  · rw [if_pos hdel]
    exact h
  rw [if_neg hdel]
  by_cases hhot : (b.tier.get k).isSome = true
  · rw [if_pos hhot]
    exact h
  rw [if_neg hhot]
  refine Coherent.maybeEvict (h.retier fun k' => ?_)
  rw [get_touch, get_hot_put]
  by_cases hk : k' = k
  · subst hk
    exact .inr (.inr ⟨by simpa using hhot, by simpa using hdel⟩)
  · rw [if_neg hk]
    exact .inl rfl

/-- A loaded value that may go into the hot tier is the pool's current one. -/
def FillFresh (P : RemotePool σ) (b : Backend σ) (k : Place) (v : Value) : Prop :=
  b.isDeleted k = true ∨ (b.tier.get k).isSome = true ∨ b.load P k = some v

theorem HotLive.fillHot (hlive : HotLive b L) (h : Coherent P b L) {v : Value}
    (hfresh : FillFresh P b k v) : HotLive (b.fillHot k v) L := by
  unfold Backend.fillHot
  by_cases hdel : b.isDeleted k = true
  · rw [if_pos hdel]
    exact hlive
  rw [if_neg hdel]
  by_cases hhot : (b.tier.get k).isSome = true
  · rw [if_pos hhot]
    exact hlive
  rw [if_neg hhot]
  refine HotLive.maybeEvict ?_
  intro k' v' hv'
  rw [get_touch, get_hot_put] at hv'
  by_cases hk : k' = k
  · subst hk
    rw [if_pos rfl] at hv'
    rcases hfresh with hbad | hbad | hload
    · exact absurd hbad hdel
    · exact absurd hbad hhot
    · rw [h.live_eq_load (by simpa using hhot) (by simpa using hdel), hload, hv']
  · rw [if_neg hk] at hv'
    exact hlive k' v' hv'

/-! ## Writes -/

theorem Coherent.put (h : Coherent P b L) (op : Nat) (key : Key) (value : Value) :
    Coherent P (b.put op key value) (L.next (.put op key value)) := by
  obtain ⟨M, hchain, hlive⟩ := h.chain
  refine Coherent.maybeEvict ⟨⟨M, hchain, ?_⟩, h.lastCaptured, ?_, ?_, h.dirtyHolds,
    h.deletedHolds, ?_, h.committed, h.capturedBelow⟩
  · intro k
    change (if k = (op, key) then some value else L.live k) = _
    rw [get_touch, get_hot_put b.tier (op, key), hlive]
    by_cases hk : k = (op, key)
    · simp [hk]
    · simp [hk, List.mem_insert_iff]
  · intro k hk
    rw [get_touch, get_hot_put b.tier (op, key)]
    by_cases heq : k = (op, key)
    · simp [heq]
    · rw [if_neg heq]
      rcases List.mem_insert_iff.mp hk with hk | hk
      · exact absurd hk heq
      · exact h.dirtyHot k hk
  · intro pre e post hsplit k v hv
    rw [get_touch, get_hot_put b.tier (op, key)]
    by_cases heq : k = (op, key)
    · left
      simp [heq]
    · rw [if_neg heq]
      rcases h.changedHot pre e post hsplit k v hv with hhot | hk | hlater
      · exact .inl hhot
      · exact .inr (.inl (List.mem_filter.mpr ⟨hk, by simpa using heq⟩))
      · exact .inr (.inr hlater)
  · intro k hk hcold
    change (if k = (op, key) then some value else L.live k) = none
    rw [get_touch, get_hot_put b.tier (op, key)] at hcold
    by_cases heq : k = (op, key)
    · simp [heq] at hcold
    · rw [if_neg heq] at hcold ⊢
      refine h.deletedAbsent k ?_ hcold
      unfold Backend.isDeleted at hk ⊢
      simp only [Bool.or_eq_true, decide_eq_true_eq, List.mem_filter] at hk ⊢
      exact hk.imp_left And.left

theorem HotLive.put (h : HotLive b L) (op : Nat) (key : Key) (value : Value) :
    HotLive (b.put op key value) (L.next (.put op key value)) := by
  refine HotLive.maybeEvict ?_
  intro k v hv
  rw [get_touch, get_hot_put b.tier (op, key)] at hv
  change (if k = (op, key) then some value else L.live k) = some v
  by_cases heq : k = (op, key)
  · rw [if_pos heq] at hv ⊢
    exact hv
  · rw [if_neg heq] at hv ⊢
    exact h k v hv

theorem Coherent.erase (h : Coherent P b L) (op : Nat) (key : Key) :
    Coherent P (b.erase op key) (L.next (.erase op key)) := by
  obtain ⟨M, hchain, hlive⟩ := h.chain
  refine ⟨⟨M, hchain, ?_⟩, h.lastCaptured, ?_, ?_, h.dirtyHolds, h.deletedHolds, ?_,
    h.committed, h.capturedBelow⟩
  · intro k
    change (if k = (op, key) then none else L.live k) = _
    unfold Backend.erase
    rw [get_forgetHot, get_hot_erase b.tier (op, key), hlive]
    by_cases hk : k = (op, key)
    · simp [hk]
    · simp [hk, List.mem_insert_iff]
  · intro k hk
    unfold Backend.erase at hk ⊢
    rw [get_forgetHot, get_hot_erase b.tier (op, key)]
    obtain ⟨hdirty, hne⟩ := List.mem_filter.mp hk
    rw [if_neg (by simpa using hne)]
    exact h.dirtyHot k hdirty
  · intro pre e post hsplit k v hv
    unfold Backend.erase
    rw [get_forgetHot, get_hot_erase b.tier (op, key)]
    by_cases heq : k = (op, key)
    · exact .inr (.inl (List.mem_insert_iff.mpr (.inl heq)))
    · rw [if_neg heq]
      rcases h.changedHot pre e post hsplit k v hv with hhot | hk | hlater
      · exact .inl hhot
      · exact .inr (.inl (List.mem_insert_iff.mpr (.inr hk)))
      · exact .inr (.inr hlater)
  · intro k hk hcold
    change (if k = (op, key) then none else L.live k) = none
    by_cases heq : k = (op, key)
    · rw [if_pos heq]
    · rw [if_neg heq]
      unfold Backend.erase at hcold hk
      rw [get_forgetHot, get_hot_erase b.tier (op, key), if_neg heq] at hcold
      refine h.deletedAbsent k ?_ hcold
      unfold Backend.isDeleted at hk ⊢
      simp only [Bool.or_eq_true, decide_eq_true_eq, List.mem_insert_iff] at hk ⊢
      rcases hk with (hk | hk) | hk
      · exact absurd hk heq
      · exact .inl hk
      · exact .inr hk

theorem HotLive.erase (h : HotLive b L) (op : Nat) (key : Key) :
    HotLive (b.erase op key) (L.next (.erase op key)) := by
  intro k v hv
  unfold Backend.erase at hv
  rw [get_forgetHot, get_hot_erase b.tier (op, key)] at hv
  change (if k = (op, key) then none else L.live k) = some v
  by_cases heq : k = (op, key)
  · simp [heq] at hv
  · rw [if_neg heq] at hv ⊢
    exact h k v hv

/-! ## Captures and commits -/

theorem changed_keys {dirty : List Place} (h : ∀ k ∈ dirty, (t.get k).isSome) :
    (dirty.filterMap fun k => (t.get k).map (k, ·)).map Prod.fst = dirty := by
  induction dirty with
  | nil => rfl
  | cons k rest ih =>
      obtain ⟨v, hv⟩ := Option.isSome_iff_exists.mp (h k List.mem_cons_self)
      rw [List.filterMap_cons, hv]
      simp [ih fun k' hk' => h k' (List.mem_cons_of_mem _ hk')]

theorem mem_changed {dirty : List Place} {v : Value} :
    (k, v) ∈ (dirty.filterMap fun k => (t.get k).map (k, ·)) ↔ k ∈ dirty ∧ t.get k = some v := by
  rw [List.mem_filterMap]
  constructor
  · rintro ⟨k', hk', hv⟩
    obtain ⟨v', hget, heq⟩ := Option.map_eq_some_iff.mp hv
    obtain ⟨rfl, rfl⟩ := Prod.mk.inj heq
    exact ⟨hk', hget⟩
  · rintro ⟨hk, hv⟩
    exact ⟨k, hk, by rw [hv]; rfl⟩

/-- The delta a capture detaches. -/
def detached (b : Backend σ) : PendingCommit :=
  ⟨b.lastCaptured, b.dirty.filterMap fun k => (b.tier.get k).map (k, ·), b.deleted⟩

private theorem Coherent.extends_detached (h : Coherent P b L)
    (hlive : ∀ k, L.live k =
      if k ∈ b.dirty then b.tier.get k else if k ∈ b.deleted then none else M k) :
    Extends (detached b) M L.live := by
  refine ⟨fun hmem => ?_, fun hnot => ?_⟩
  · obtain ⟨hk, hv⟩ := mem_changed.mp hmem
    rw [hlive, if_pos hk, hv]
  · rename_i k
    have hk : k ∉ b.dirty := by
      intro hk
      obtain ⟨v, hv⟩ := Option.isSome_iff_exists.mp (h.dirtyHot k hk)
      exact hnot v (mem_changed.mpr ⟨hk, hv⟩)
    rw [hlive, if_neg hk]
    rfl

/-- Behind the delta that takes them over, the erased keys need no note. -/
theorem ChangedHot.snoc {deleted : List Place} (h : ChangedHot t deleted es)
    (hhot : ∀ k v, (k, v) ∈ pc.changed → (t.get k).isSome) (hdeleted : pc.deleted = deleted)
    (id : Nat) : ChangedHot t [] (es ++ [(id, pc)]) := by
  intro pre e post hsplit k v hv
  rcases List.eq_nil_or_concat post with rfl | ⟨post', last, rfl⟩
  · obtain ⟨-, hlast⟩ := List.append_inj' hsplit rfl
    obtain rfl := List.singleton_inj.mp hlast
    exact .inl (hhot k v hv)
  · rw [List.concat_eq_append, ← List.cons_append, ← List.append_assoc] at hsplit
    obtain ⟨hold, hlast⟩ := List.append_inj' hsplit rfl
    obtain rfl := List.singleton_inj.mp hlast
    rcases h pre e post' hold k v hv with hhot | hk | ⟨e', he', hk⟩
    · exact .inl hhot
    · exact .inr (.inr ⟨(id, pc), by simp, hdeleted ▸ hk⟩)
    · exact .inr (.inr ⟨e', by simp [he'], hk⟩)

/-- A capture moves the erased keys to the pinned ones. -/
theorem isDeleted_of_capture (hid : ¬ id ≤ b.lastCaptured)
    (hk : (b.capture id).isDeleted k = true) : b.isDeleted k = true := by
  unfold Backend.capture at hk
  rw [if_neg hid] at hk
  unfold Backend.isDeleted at hk ⊢
  simp only [List.not_mem_nil, decide_false, Bool.false_or, RefCounts.held_iff,
    RefCounts.count_takeAll] at hk
  simp only [Bool.or_eq_true, decide_eq_true_eq, RefCounts.held_iff]
  by_cases hmem : k ∈ b.deleted
  · exact .inl hmem
  · rw [List.countP_eq_zero.mpr fun k' hk' => by
      simpa using fun heq : k' = k => hmem (heq ▸ hk')] at hk
    exact .inr hk

theorem Coherent.capture (h : Coherent P b L) (id : Nat) :
    Coherent P (b.capture id) (L.next (.capture id)) := by
  have hnext : L.next (.capture id) =
      if id ≤ b.lastCaptured then L
      else
        { L with
          lastCaptured := id
          captured := fun id' => if id' = id then some L.live else L.captured id' } := by
    rw [← h.lastCaptured]
    rfl
  rw [hnext]
  unfold Backend.capture
  by_cases hid : id ≤ b.lastCaptured
  · rw [if_pos hid, if_pos hid]
    exact h
  rw [if_neg hid, if_neg hid]
  obtain ⟨M, hchain, hlive⟩ := h.chain
  have hbelow : ∀ e ∈ b.pending.entries, e.1 < id := by
    intro e he
    have := (hchain.ids.2 e he).2
    omega
  have hentries : (b.pending.upsert id fun _ => detached b).entries =
      b.pending.entries ++ [(id, detached b)] :=
    SortedMap.entries_upsert_of_lt hbelow fun _ => detached b
  unfold detached at hentries
  refine ⟨⟨L.live, ?_, fun k => by simp⟩, rfl, by simp, ?_, ?_, ?_, ?_, ?_, ?_⟩
  · dsimp only
    rw [hentries]
    refine Chain.snoc (hchain.mono ?_) rfl (by omega) (h.extends_detached hlive) (if_pos rfl)
    intro id' hid'
    exact if_neg (by omega)
  · dsimp only
    rw [hentries]
    refine h.changedHot.snoc ?_ rfl id
    intro k v hv
    exact h.dirtyHot k (mem_changed.mp hv).1
  · intro k
    dsimp only
    rw [hentries, RefCounts.count_takeAll, h.dirtyHolds, holds_snoc]
    simp [PendingCommit.changedKeys, changed_keys h.dirtyHot]
  · intro k
    dsimp only
    rw [hentries, RefCounts.count_takeAll, h.deletedHolds, holds_snoc]
  · intro k hk hcold
    refine h.deletedAbsent k (isDeleted_of_capture hid ?_) hcold
    unfold Backend.capture
    rw [if_neg hid]
    exact hk
  · intro id' M' hcap hpending k
    dsimp only at hcap hpending ⊢
    rw [SortedMap.find?_upsert] at hpending
    by_cases heq : id' = id
    · simp [heq] at hpending
    · rw [if_neg heq] at hcap hpending
      exact h.committed id' M' hcap hpending k
  · intro id' M' hcap
    dsimp only at hcap ⊢
    by_cases heq : id' = id
    · exact Nat.le_of_eq heq
    · rw [if_neg heq] at hcap
      have := h.capturedBelow id' M' hcap
      omega

private theorem read_commit {p : σ}
    (hext : Extends pc (fun k => if pc.base = 0 then none else P.read p pc.base k) M) (k : Place) :
    P.read (P.commit p id pc.base pc.changed pc.deleted) id k = M k := by
  by_cases hk : ∃ v, (k, v) ∈ pc.changed
  · obtain ⟨v, hv⟩ := hk
    rw [hext.changed hv]
    refine P.read_changed _ _ _ _ _ _ _ hv fun v' hv' => ?_
    have hsame := (hext.changed hv').symm.trans (hext.changed hv)
    exact Option.some.inj hsame
  · have hnot : ∀ v, (k, v) ∉ pc.changed := fun v hv => hk ⟨v, hv⟩
    rw [P.read_unchanged _ _ _ _ _ _ hnot, hext.unchanged hnot]

/-- Cold reads go to the checkpoint just committed. -/
theorem load_of_committed {p : σ} (hlt : b.lastCkpt < id) (hread : ∀ k, P.read p id k = M k) :
    Backend.load P { b with
      pool := p
      lastCkpt := if b.lastCkpt < id then id else b.lastCkpt } = M := by
  funext k
  unfold Backend.load
  rw [if_pos hlt, if_neg (Nat.ne_of_gt (Nat.zero_lt_of_lt hlt))]
  exact hread k

theorem Coherent.persist (h : Coherent P b L) (horder : ∀ e ∈ b.pending.entries, id ≤ e.1) :
    Coherent P (b.persist P id) L := by
  unfold Backend.persist
  cases hfind : b.pending.find? id with
  | none => exact h
  | some pc =>
      have hentries := SortedMap.entries_erase_of_least hfind horder
      obtain ⟨M, hchain, hlive⟩ := h.chain
      rw [hentries] at hchain
      cases hchain with
      | @cons _ _ _ _ M₁ _ _ _ hbase hlt hext hcap hrest =>
          have hread : ∀ k, P.read (P.commit b.pool id pc.base pc.changed pc.deleted) id k =
              M₁ k := by
            refine read_commit ?_
            rw [hbase]
            exact hext
          refine Coherent.maybeEvict ⟨⟨M, ?_, hlive⟩, h.lastCaptured, h.dirtyHot, ?_, ?_, ?_, ?_,
            ?_, h.capturedBelow⟩
          · change Chain L.captured (if b.lastCkpt < id then id else b.lastCkpt)
              (Backend.load P { b with
                pool := P.commit b.pool id pc.base pc.changed pc.deleted
                lastCkpt := if b.lastCkpt < id then id else b.lastCkpt })
              (b.pending.erase id).entries b.lastCaptured M
            rw [load_of_committed hlt hread, if_pos hlt]
            exact hrest
          · intro pre e post hsplit k v hv
            refine h.changedHot ((id, pc) :: pre) e post ?_ k v hv
            rw [hentries, List.cons_append]
            exact congrArg _ hsplit
          · intro k
            dsimp only
            rw [RefCounts.count_releaseAll, h.dirtyHolds, hentries, holds_cons]
            exact Nat.add_sub_cancel_left _ _
          · intro k
            dsimp only
            rw [RefCounts.count_releaseAll, h.deletedHolds, hentries, holds_cons]
            exact Nat.add_sub_cancel_left _ _
          · intro k hk hcold
            refine h.deletedAbsent k ?_ hcold
            unfold Backend.isDeleted at hk ⊢
            simp only [Bool.or_eq_true, decide_eq_true_eq, RefCounts.held_iff,
              RefCounts.count_releaseAll] at hk ⊢
            rcases hk with hk | hk
            · exact .inl hk
            · right
              omega
          · intro id' M' hcap' hpending k
            dsimp only at hpending ⊢
            rw [SortedMap.find?_erase] at hpending
            by_cases heq : id' = id
            · subst heq
              rw [hcap] at hcap'
              rw [hread, Option.some.inj hcap']
            · rw [if_neg heq] at hpending
              rw [P.read_other _ _ _ _ _ _ _ heq]
              exact h.committed id' M' hcap' hpending k

theorem HotLive.persist (h : HotLive b L) (id : Nat) : HotLive (b.persist P id) L := by
  unfold Backend.persist
  split
  · exact h
  · exact HotLive.maybeEvict fun k v hv => h k v hv

theorem HotLive.capture (h : HotLive b L) (id : Nat) :
    HotLive (b.capture id) (L.next (.capture id)) := by
  intro k v hv
  have hlive : (L.next (.capture id)).live = L.live := by
    change (if id ≤ L.lastCaptured then L else _).live = L.live
    split <;> rfl
  have htier : (b.capture id).tier = b.tier := by
    unfold Backend.capture
    split <;> rfl
  rw [htier] at hv
  rw [hlive]
  exact h k v hv

/-! ## Reads -/

/-- A read of a coherent backend whose hot tier is current. -/
theorem get_eq_live (h : Coherent P b L) (hhot : HotLive b L) (op : Nat) (key : Key) :
    (b.get P op key).2 = L.live (op, key) := by
  unfold Backend.get
  cases hget : b.tier.get (op, key) with
  | some v => exact (hhot (op, key) v hget).symm
  | none =>
      dsimp only
      by_cases hdel : b.isDeleted (op, key) = true
      · rw [if_pos hdel]
        exact (h.deletedAbsent (op, key) hdel hget).symm
      · rw [if_neg hdel, h.live_eq_load hget (by simpa using hdel)]
        cases b.load P (op, key) <;> rfl

private theorem mem_hotEntries (t : HotTier) (op : Nat) (key : Key) (v : Value) :
    (key, v) ∈ (((t.hot.state.lookup op).getD ∅).entries.map fun e => (e.1, e.2)) ↔
      t.get (op, key) = some v := by
  unfold HotTier.get InMemoryStateBackend.Backend.get Table.get
  rw [List.mem_map]
  cases t.hot.state.lookup op with
  | none => simp
  | some rows =>
      rw [Option.getD_some, Option.bind_some, ← Option.mem_def, AList.mem_lookup_iff]
      constructor
      · rintro ⟨⟨key', v'⟩, hmem, heq⟩
        obtain ⟨rfl, rfl⟩ := Prod.mk.inj heq
        exact hmem
      · intro hmem
        exact ⟨⟨key, v⟩, hmem, rfl⟩

private theorem mem_coldEntries (b : Backend σ) (op : Nat) (key : Key) (v : Value) :
    (key, v) ∈ (if b.lastCkpt = 0 then []
      else (P.scanCheckpoint b.pool b.lastCkpt).filterMap fun e =>
        if e.1.1 ≠ op then none
        else if (b.tier.get e.1).isSome || b.isDeleted e.1 then none
        else some (e.1.2, e.2)) ↔
      b.tier.get (op, key) = none ∧ b.isDeleted (op, key) = false ∧
        b.load P (op, key) = some v := by
  unfold Backend.load
  by_cases hck : b.lastCkpt = 0
  · simp [hck]
  rw [if_neg hck, if_neg hck, ← P.mem_scan, List.mem_filterMap]
  constructor
  · rintro ⟨⟨⟨op', key'⟩, v'⟩, hmem, heq⟩
    dsimp only at heq
    split at heq
    · simp at heq
    rename_i hop
    obtain rfl : op' = op := by simpa using hop
    split at heq
    · simp at heq
    rename_i hcold
    obtain ⟨rfl, rfl⟩ := Prod.mk.inj (Option.some.inj heq)
    simp only [Bool.or_eq_true, not_or, Bool.not_eq_true, Option.isSome_eq_false_iff,
      Option.isNone_iff_eq_none] at hcold
    exact ⟨hcold.1, hcold.2, hmem⟩
  · rintro ⟨hcold, hdel, hmem⟩
    exact ⟨((op, key), v), hmem, by simp [hcold, hdel]⟩

theorem mem_scan_iff (h : Coherent P b L) (hhot : HotLive b L) (op : Nat) (key : Key)
    (v : Value) : (key, v) ∈ b.scan P op ↔ L.live (op, key) = some v := by
  unfold Backend.scan
  rw [List.mem_append, mem_hotEntries, mem_coldEntries]
  cases hget : b.tier.get (op, key) with
  | some v' =>
      rw [hhot (op, key) v' hget]
      simp
  | none =>
      cases hdel : b.isDeleted (op, key) with
      | true =>
          rw [h.deletedAbsent (op, key) hdel hget]
          simp
      | false =>
          rw [h.live_eq_load hget hdel]
          simp

/-! ## Runs -/

/-- Every value of a fill may go into the hot tier when its turn comes. -/
def FillsFresh (P : RemotePool σ) (op : Nat) : Backend σ → List (Key × Option Value) → Prop
  | _, [] => True
  | b, (_, none) :: rest => FillsFresh P op b rest
  | b, (key, some v) :: rest =>
      FillFresh P b (op, key) v ∧ FillsFresh P op (b.fillHot (op, key) v) rest

/-- The event fills no old value. -/
def Fresh (P : RemotePool σ) (s : State σ) : Event → Prop
  | .fill read => ∀ l values, s.loads.lookup read = some l → l.values = some values →
      FillsFresh P l.op s.backend (l.keys.zip values)
  | _ => True

/-- Pending commits are persisted oldest first. -/
def InOrder (s : State σ) : Event → Prop
  | .persist id => ∀ e ∈ s.backend.pending.entries, id ≤ e.1
  | _ => True

theorem Coherent.fillAll (h : Coherent P b L) (op : Nat)
    (loaded : List (Key × Option Value)) : Coherent P (fillAll b op loaded) L := by
  unfold RemoteReadBackend.fillAll
  induction loaded generalizing b with
  | nil => exact h
  | cons e rest ih =>
      obtain ⟨key, value⟩ := e
      rw [List.foldl_cons]
      cases value with
      | none => exact ih h
      | some v => exact ih (h.fillHot (op, key) v)

theorem HotLive.fillAll (hhot : HotLive b L) (h : Coherent P b L) {op : Nat}
    {loaded : List (Key × Option Value)} (hfresh : FillsFresh P op b loaded) :
    HotLive (fillAll b op loaded) L := by
  unfold RemoteReadBackend.fillAll
  induction loaded generalizing b with
  | nil => exact hhot
  | cons e rest ih =>
      obtain ⟨key, value⟩ := e
      rw [List.foldl_cons]
      cases value with
      | none => exact ih hhot h hfresh
      | some v => exact ih (hhot.fillHot h hfresh.1) (h.fillHot (op, key) v) hfresh.2

/-- A read fills the hot tier with what the pool has. -/
theorem get_fst (b : Backend σ) (op : Nat) (key : Key) :
    (b.get P op key).1 = b ∨
      ∃ v, b.load P (op, key) = some v ∧ (b.get P op key).1 = b.fillHot (op, key) v := by
  unfold Backend.get
  cases b.tier.get (op, key) with
  | some v => exact .inl rfl
  | none =>
      dsimp only
      split
      · exact .inl rfl
      · cases hload : b.load P (op, key) with
        | none => exact .inl rfl
        | some v => exact .inr ⟨v, rfl, rfl⟩

theorem Coherent.step {s : State σ} (h : Coherent P s.backend L) {e : Event}
    (horder : InOrder s e) : Coherent P (s.step P e).backend (L.next e) := by
  cases e with
  | put op key value => exact h.put op key value
  | erase op key => exact h.erase op key
  | capture id => exact h.capture id
  | persist id => exact h.persist horder
  | get op key =>
      change Coherent P (s.backend.get P op key).1 L
      rcases get_fst (P := P) s.backend op key with hsame | ⟨v, -, hfill⟩
      · rw [hsame]
        exact h
      · rw [hfill]
        exact h.fillHot (op, key) v
  | missCheck read op keys =>
      unfold State.step
      dsimp only
      split <;> exact h
  | poolRead read =>
      unfold State.step
      dsimp only
      split <;> exact h
  | fill read =>
      unfold State.step
      dsimp only
      split
      · exact h
      · split
        · exact h
        · exact h.fillAll _ _

theorem HotLive.step {s : State σ} (hhot : HotLive s.backend L)
    (h : Coherent P s.backend L) {e : Event} (hfresh : Fresh P s e) :
    HotLive (s.step P e).backend (L.next e) := by
  cases e with
  | put op key value => exact hhot.put op key value
  | erase op key => exact hhot.erase op key
  | capture id => exact hhot.capture id
  | persist id => exact hhot.persist id
  | get op key =>
      change HotLive (s.backend.get P op key).1 L
      rcases get_fst (P := P) s.backend op key with hsame | ⟨v, hload, hfill⟩
      · rw [hsame]
        exact hhot
      · rw [hfill]
        exact hhot.fillHot h (.inr (.inr hload))
  | missCheck read op keys =>
      unfold State.step
      dsimp only
      split <;> exact hhot
  | poolRead read =>
      unfold State.step
      dsimp only
      split <;> exact hhot
  | fill read =>
      unfold State.step
      dsimp only
      split
      · exact hhot
      · rename_i l hl
        split
        · exact hhot
        · rename_i values hvalues
          exact hhot.fillAll h (hfresh l values hl hvalues)

/-- A backend with nothing hot over a pool at a committed checkpoint; 0 is
none, as for a job that starts anew. -/
def start (hotMaxBytes checkpoint : Nat) (pool : σ) : State σ :=
  { backend := { hotMaxBytes, lastCkpt := checkpoint, lastCaptured := checkpoint, pool } }

/-- The map at the start: what the checkpoint holds. -/
def Ledger.start (P : RemotePool σ) (checkpoint : Nat) (pool : σ) : Ledger where
  live k := if checkpoint = 0 then none else P.read pool checkpoint k
  lastCaptured := checkpoint

private theorem coherent_start (hotMaxBytes checkpoint : Nat) (pool : σ) :
    Coherent P (start hotMaxBytes checkpoint pool).backend (Ledger.start P checkpoint pool) where
  chain := ⟨_, .nil, fun _ => rfl⟩
  lastCaptured := rfl
  dirtyHot k hk := by simp [start] at hk
  changedHot pre e post hsplit := by simp [start] at hsplit
  dirtyHolds k := rfl
  deletedHolds k := rfl
  deletedAbsent k hk := by
    have hnone : (start hotMaxBytes checkpoint pool).backend.isDeleted k = false := rfl
    rw [hnone] at hk
    simp at hk
  committed id M hcap := by simp [Ledger.start] at hcap
  capturedBelow id M hcap := by simp [Ledger.start] at hcap

variable {hotMaxBytes checkpoint : Nat} {pool : σ} {es : List Event} {s : State σ}

theorem run_coherent
    (h : Runs (State.step P) (fun _ s e => InOrder s e) (start hotMaxBytes checkpoint pool) es s) :
    Coherent P s.backend (es.foldl Ledger.next (Ledger.start P checkpoint pool)) := by
  refine h.induct (I := fun es s =>
    Coherent P s.backend (es.foldl Ledger.next (Ledger.start P checkpoint pool)))
    (coherent_start hotMaxBytes checkpoint pool) ?_
  intro es s e _ ih horder
  rw [List.foldl_append]
  exact ih.step horder

private theorem run_hotLive
    (h : Runs (State.step P) (fun _ s e => InOrder s e ∧ Fresh P s e)
      (start hotMaxBytes checkpoint pool) es s) :
    HotLive s.backend (es.foldl Ledger.next (Ledger.start P checkpoint pool)) := by
  refine h.induct (I := fun es s =>
    HotLive s.backend (es.foldl Ledger.next (Ledger.start P checkpoint pool))) ?_ ?_
  · intro k v hv
    simp [start, HotTier.get, InMemoryStateBackend.Backend.get] at hv
  · intro es s e hrun ih hok
    have hcoherent := run_coherent (hrun.mono fun _ _ _ h => h.1)
    rw [List.foldl_append]
    exact ih.step hcoherent hok.2

/-- In every run that persists in capture order, over every pool and budget, a
checkpoint that was captured and persisted is in the pool as the map was at
its capture.  In such a run whose fills bring no old value into the hot tier,
every get and every scan of the state reached shows the map. -/
theorem reads_like_a_map
    (h : Runs (State.step P) (fun _ s e => InOrder s e) (start hotMaxBytes checkpoint pool) es s) :
    (∀ id M, (es.foldl Ledger.next (Ledger.start P checkpoint pool)).captured id = some M →
      s.backend.pending.find? id = none → ∀ k, P.read s.backend.pool id k = M k) ∧
    ((∀ pre e post, es = pre ++ e :: post →
        Fresh P (pre.foldl (State.step P) (start hotMaxBytes checkpoint pool)) e) →
      (∀ op key, (s.backend.get P op key).2 =
        (es.foldl Ledger.next (Ledger.start P checkpoint pool)).live (op, key)) ∧
      ∀ op key v, (key, v) ∈ s.backend.scan P op ↔
        (es.foldl Ledger.next (Ledger.start P checkpoint pool)).live (op, key) = some v) := by
  have hcoherent := run_coherent h
  refine ⟨hcoherent.committed, fun hfresh => ?_⟩
  have hhot := run_hotLive (h.strengthen hfresh)
  exact ⟨get_eq_live hcoherent hhot, mem_scan_iff hcoherent hhot⟩

instance (s : State σ) : ∀ e, Decidable (InOrder s e)
  | .persist id => inferInstanceAs (Decidable (∀ e ∈ s.backend.pending.entries, id ≤ e.1))
  | .put _ _ _ | .erase _ _ | .capture _ | .get _ _ | .missCheck _ _ _ | .poolRead _ | .fill _ =>
      .isTrue trivial

/-- With five bytes of budget: a key is committed and evicted, a cold read
loads it, and before its fill the key is written, committed and evicted again. -/
def overtakenFill : List Event :=
  [.put 1 [7] [1], .capture 1, .persist 1, .put 1 [8] [0, 0, 0, 0, 0],
    .missCheck 0 1 [[7]], .poolRead 0, .erase 1 [8], .put 1 [7] [2, 2, 2, 2, 2],
    .capture 2, .persist 2]

private theorem overtakenFill_fresh {pre post : List Event} {e : Event} {s : State Checkpoints}
    (h : overtakenFill = pre ++ e :: post) : Fresh InMemoryRemotePool s e := by
  have hmem : e ∈ overtakenFill := by
    rw [h]
    simp
  cases e with
  | fill read => simp [overtakenFill] at hmem
  | _ => trivial

/-- Up to its fill the run reads like a map. -/
theorem reads_like_a_map_before_fill :
    ((overtakenFill.foldl (State.step InMemoryRemotePool) (start 5 0 ∅)).backend.get
      InMemoryRemotePool 1 [7]).2 = some [2, 2, 2, 2, 2] := by
  have hrun : Runs (State.step InMemoryRemotePool) (fun _ s e => InOrder s e) (start 5 0 ∅)
      overtakenFill (overtakenFill.foldl (State.step InMemoryRemotePool) (start 5 0 ∅)) :=
    Runs.of_allowed (by decide)
  exact ((reads_like_a_map hrun).2 fun pre e post h => overtakenFill_fresh h).1 1 [7]

/-- The fill then brings the old value back, and a get returns it. -/
theorem overtaken_fill_serves_old_value :
    Runs (State.step InMemoryRemotePool) (fun _ s e => InOrder s e) (start 5 0 ∅)
        (overtakenFill ++ [Event.fill 0])
        ((overtakenFill ++ [Event.fill 0]).foldl (State.step InMemoryRemotePool) (start 5 0 ∅)) ∧
      (((overtakenFill ++ [Event.fill 0]).foldl (State.step InMemoryRemotePool)
        (start 5 0 ∅)).backend.get InMemoryRemotePool 1 [7]).2 = some [1] ∧
      ((overtakenFill ++ [Event.fill 0]).foldl Ledger.next
        (Ledger.start InMemoryRemotePool 0 ∅)).live (1, [7]) = some [2, 2, 2, 2, 2] :=
  ⟨Runs.of_allowed (by decide), by decide, by decide⟩

end Clink.Ports.RemoteReadBackend

import Clink.Ports.MultiInputAlignmentEffects

/-!
# What holds after every history of an aligner

A history is the list of calls a runner made.  The runner's discipline is
`Obeys`: it polls an input only while the aligner does not report it paused
or closed, and an input that delivered its terminal barrier only closes.

`History es a` relates the state after the calls `es` to what each input
delivered in `es`; it is shown for the moves of
`MultiInputAlignmentEffects`, one lemma a move, and `step_cases` puts them
together: every call first leads to a state where the invariant holds again,
and then forwards at most one barrier there.
-/

namespace Clink.Ports.MultiInputAlignment

open Clink.Verified

/-! ## What an input delivered -/

/-- What an input hands to the operator. -/
inductive Delivery where
  | rows
  | watermark (wm : Time.Watermark)
  | drain
  | barrier (b : CheckpointBarrier)

/-- The input a call delivers for, and what. -/
def Call.delivery : Call → Option (Nat × Delivery)
  | .barrier i b => some (i, .barrier b)
  | .watermark i wm => some (i, .watermark wm)
  | .drain i => some (i, .drain)
  | .rows i => some (i, .rows)
  | .inputClosed _ _ _ => none
  | .refreshWatermark => none
  | .addInput => none

/-- Everything input `j` delivered, in order. -/
def deliveredBy (j : Nat) (es : List Call) : List Delivery :=
  es.filterMap fun c => c.delivery.bind fun d => if d.1 = j then some d.2 else none

theorem deliveredBy_snoc_of_none {c : Call} (h : c.delivery = none) (j : Nat) (es : List Call) :
    deliveredBy j (es ++ [c]) = deliveredBy j es := by
  simp [deliveredBy, List.filterMap_append, h]

variable {d : Delivery}

theorem deliveredBy_snoc {c : Call} {i : Nat} (h : c.delivery = some (i, d)) (j : Nat)
    (es : List Call) :
    deliveredBy j (es ++ [c]) =
      if j = i then deliveredBy j es ++ [d] else deliveredBy j es := by
  by_cases hj : j = i
  · simp [deliveredBy, List.filterMap_append, h, hj]
  · have hne : ¬ i = j := fun heq => hj heq.symm
    simp [deliveredBy, List.filterMap_append, h, hj, hne]

theorem mem_deliveredBy_snoc {c : Call} {j : Nat} {es : List Call} (h : d ∈ deliveredBy j es) :
    d ∈ deliveredBy j (es ++ [c]) := by
  rw [deliveredBy, List.filterMap_append]
  exact List.mem_append_left _ h

/-- The barriers input `j` delivered, in order. -/
def barriersBy (j : Nat) (es : List Call) : List CheckpointBarrier :=
  (deliveredBy j es).filterMap fun
    | .barrier b => some b
    | _ => none

theorem mem_barriersBy {j : Nat} {es : List Call} {b : CheckpointBarrier} :
    b ∈ barriersBy j es ↔ Delivery.barrier b ∈ deliveredBy j es := by
  rw [barriersBy, List.mem_filterMap]
  constructor
  · intro h
    rcases h with ⟨d, hmem, hd⟩
    cases d with
    | barrier b' =>
        simp only [Option.some.injEq] at hd
        rw [← hd]
        exact hmem
    | _ => simp at hd
  · exact fun h => ⟨.barrier b, h, rfl⟩

instance (es : List Call) (j : Nat) (p : CheckpointBarrier → Prop) [DecidablePred p] :
    Decidable (∀ b, Delivery.barrier b ∈ deliveredBy j es → p b) :=
  decidable_of_iff (∀ b ∈ barriersBy j es, p b) (by simp only [mem_barriersBy])

/-! ## The runner's discipline -/

/-- The runner may take an element from input `i`: it is neither paused nor
closed, and it has not delivered its terminal barrier. -/
def Polled (es : List Call) (a : Alignment) (i : Nat) : Prop :=
  i < a.inputCount ∧ a.inputPaused i = false ∧
    ∀ b, Delivery.barrier b ∈ deliveredBy i es → b.isTerminal = false

/-- The runner's discipline.  A paused input may close, and the close looks at
the pending ids in any order. -/
def Obeys (es : List Call) (a : Alignment) : Call → Prop
  | .barrier i _ => Polled es a i
  | .watermark i _ => Polled es a i
  | .drain i => Polled es a i
  | .rows i => Polled es a i
  | .inputClosed i _ order => i < a.inputCount ∧ order.Perm a.seenBarriers.keys
  | .refreshWatermark => True
  | .addInput => True

instance (es : List Call) (a : Alignment) (i : Nat) : Decidable (Polled es a i) :=
  inferInstanceAs (Decidable (_ ∧ _ ∧ _))

instance (es : List Call) (a : Alignment) : ∀ c, Decidable (Obeys es a c)
  | .barrier i _ | .watermark i _ | .drain i | .rows i =>
      inferInstanceAs (Decidable (Polled es a i))
  | .inputClosed _ _ _ => inferInstanceAs (Decidable (_ ∧ _))
  | .refreshWatermark | .addInput => inferInstanceAs (Decidable True)

open Clink.Ports.MultiInputAlignment.Alignment

variable {es : List Call} {c : Call} {a a' : Alignment} {i j id ck : Nat}
  {b : CheckpointBarrier}

theorem Polled.alive (h : Polled es a i) : a.Alive i := by
  have hpaused := h.2.1
  simp only [inputPaused, Bool.or_eq_false_iff] at hpaused
  exact ⟨h.1, hpaused.2⟩

theorem Polled.not_paused (h : Polled es a i) : a.paused i = false := by
  have hpaused := h.2.1
  simp only [inputPaused, Bool.or_eq_false_iff] at hpaused
  exact hpaused.1

/-! ## The invariant -/

/-- Who waits, and for what, after the calls `es`. -/
structure Held (es : List Call) (a : Alignment) : Prop where
  sized : a.Sized
  /-- An alive input waits exactly for the pending barriers it delivered. -/
  paused_iff : ∀ j, a.Alive j → (a.paused j = true ↔ ∃ id, a.Delivered id j)
  unique : ∀ j id id', a.Alive j → a.Delivered id j → a.Delivered id' j → id = id'
  stranger : ∀ j, a.inputCount ≤ j → deliveredBy j es = []
  /-- What an alive input waits for is the last thing it delivered. -/
  last : ∀ j id, a.Alive j → a.Delivered id j →
    ∃ b, (deliveredBy j es).getLast? = some (.barrier b) ∧ b.id = id ∧
      (b.isTerminal = false → a.NonTerminal id)
  /-- Somebody delivered each pending barrier, as terminal if it is so marked. -/
  origin : ∀ id, a.Pending id → ∃ j b, Delivery.barrier b ∈ deliveredBy j es ∧ b.id = id ∧
    (¬ a.NonTerminal id → b.isTerminal = true)

/-- The state after the calls `es`, against what each input delivered. -/
structure History (es : List Call) (a : Alignment) : Prop extends Held es a where
  /-- No alive input went past a pending barrier without delivering it. -/
  unpassed : ∀ id k, a.Pending id → a.NonTerminal id → a.Alive k →
    a.passed k ≤ id ∨ a.Delivered id k
  passed_max : ∀ j b, a.Alive j → Delivery.barrier b ∈ deliveredBy j es →
    b.isTerminal = false → b.id ≤ a.passed j

theorem history_nil (n : Nat) : History [] (ofInputs n) where
  sized := ⟨fun id flags h => by simp [ofInputs] at h, rfl⟩
  paused_iff j _ := by simp [ofInputs, Delivered]
  unique j id id' _ h := by simp [ofInputs, Delivered] at h
  unpassed id k h := by simp [ofInputs, Pending] at h
  stranger _ _ := rfl
  last j id _ h := by simp [ofInputs, Delivered] at h
  passed_max j b _ h := by simp [deliveredBy] at h
  origin id h := by simp [ofInputs, Pending] at h

/-- A polled input has delivered nothing that is still pending. -/
theorem Held.not_delivered (h : Held es a) (hp : Polled es a i) (id : Nat) :
    ¬ a.Delivered id i := by
  intro hd
  have hpaused := (h.paused_iff i hp.alive).mpr ⟨id, hd⟩
  rw [hp.not_paused] at hpaused
  exact absurd hpaused (by simp)

/-! ## Forgetting and passing -/

variable {gone : Nat → Prop}

theorem Held.forgets (h : Held es a) (hf : Forgets a a' gone) :
    Held es a' where
  sized := hf.sized h.sized
  paused_iff j hj := by
    have hj' := hf.same.alive_iff.mp hj
    rw [hf.paused j hj', h.paused_iff j hj']
    constructor
    · intro hp
      rcases hp with ⟨⟨id, hd⟩, hnot⟩
      exact ⟨id, hf.delivered_iff.mpr ⟨hd, fun hg => hnot ⟨id, hg, hd⟩⟩⟩
    · intro hp
      rcases hp with ⟨id, hd⟩
      rcases hf.delivered_iff.mp hd with ⟨hd, hg⟩
      constructor
      · exact ⟨id, hd⟩
      · intro hex
        rcases hex with ⟨id', hg', hd'⟩
        rw [h.unique j id id' hj' hd hd'] at hg
        exact hg hg'
  unique j id id' hj hd hd' :=
    h.unique j id id' (hf.same.alive_iff.mp hj) (hf.delivered_iff.mp hd).1
      (hf.delivered_iff.mp hd').1
  stranger j hj := by
    rw [hf.same.inputCount] at hj
    exact h.stranger j hj
  last j id hj hd := by
    rcases hf.delivered_iff.mp hd with ⟨hd, hg⟩
    rcases h.last j id (hf.same.alive_iff.mp hj) hd with ⟨b, hlast, hid, hterm⟩
    exact ⟨b, hlast, hid, fun hb => (hf.nonTerminal_iff hg).mpr (hterm hb)⟩
  origin id hp := by
    rcases hf.pending_iff.mp hp with ⟨hp, hg⟩
    rw [hf.nonTerminal_iff hg]
    exact h.origin id hp

theorem History.forgets (h : History es a) (hf : Forgets a a' gone) :
    History es a' where
  toHeld := h.toHeld.forgets hf
  unpassed id k hp hn hk := by
    rcases hf.pending_iff.mp hp with ⟨hp, hg⟩
    rw [hf.nonTerminal_iff hg] at hn
    rw [hf.same.passed, hf.delivered_iff]
    rcases h.unpassed id k hp hn (hf.same.alive_iff.mp hk) with hle | hd
    · exact .inl hle
    · exact .inr ⟨hd, hg⟩
  passed_max j b hj hmem hb := by
    rw [hf.same.passed]
    exact h.passed_max j b (hf.same.alive_iff.mp hj) hmem hb

variable {a₁ : Alignment}

section

variable (h : History es a)
include h

/-- Going past the older barriers keeps the invariant: every pending barrier
the input is now past, and never delivered, is forgotten. -/
theorem History.passes (hle : a.passed i ≤ ck) (hpass : Passes a a₁ i ck) :
    History es a₁ where
  toHeld := Held.forgets (a := { a with passed := setAt a.passed i ck })
    ⟨⟨h.sized.size, h.sized.captures⟩, h.paused_iff, h.unique, h.stranger, h.last,
      h.origin⟩ hpass
  unpassed id k hp hn hk := by
    rcases hpass.pending_iff.mp hp with ⟨hp, hg⟩
    rw [hpass.nonTerminal_iff hg] at hn
    rw [hpass.same.passed, hpass.delivered_iff]
    show setAt a.passed i ck k ≤ id ∨ a.Delivered id k ∧ _
    by_cases hki : k = i
    · rw [hki, setAt_self]
      by_cases hd : a.Delivered id i
      · exact .inr ⟨hd, hg⟩
      · left
        by_contra hlt
        exact hg ⟨hp, by omega, hd, hn⟩
    · rw [setAt_ne _ _ hki]
      rcases h.unpassed id k hp hn (hpass.same.alive_iff.mp hk) with hle' | hd
      · exact .inl hle'
      · exact .inr ⟨hd, hg⟩
  passed_max j b hj hmem hb := by
    rw [hpass.same.passed]
    show b.id ≤ setAt a.passed i ck j
    have hmax := h.passed_max j b (hpass.same.alive_iff.mp hj) hmem hb
    by_cases hji : j = i
    · rw [hji, setAt_self]
      rw [hji] at hmax
      omega
    · rw [setAt_ne _ _ hji]
      exact hmax

/-! ## Delivering and recording -/

/-- The history grows by a call that delivers nothing. -/
theorem History.snoc (hc : c.delivery = none) :
    History (es ++ [c]) a where
  toHeld := ⟨h.sized, h.paused_iff, h.unique,
    fun j hj => (deliveredBy_snoc_of_none hc j es).trans (h.stranger j hj),
    fun j id hj hd => by
      rw [deliveredBy_snoc_of_none hc]
      exact h.last j id hj hd,
    fun id hp => by
      simp only [deliveredBy_snoc_of_none hc]
      exact h.origin id hp⟩
  unpassed := h.unpassed
  passed_max j b hj hmem hb := by
    rw [deliveredBy_snoc_of_none hc] at hmem
    exact h.passed_max j b hj hmem hb

/-- The history grows by a delivery of an input that waits for nothing. -/
theorem History.delivers (hc : c.delivery = some (i, d)) (hi : i < a.inputCount)
    (hnone : ∀ id, ¬ a.Delivered id i)
    (hd : ∀ b, d = .barrier b → b.isTerminal = false → b.id ≤ a.passed i) :
    History (es ++ [c]) a where
  toHeld := ⟨h.sized, h.paused_iff, h.unique,
    fun j hj => by
      rw [deliveredBy_snoc hc, if_neg (by omega)]
      exact h.stranger j hj,
    fun j id hj hd => by
      have hji : j ≠ i := fun heq => hnone id (heq ▸ hd)
      rw [deliveredBy_snoc hc, if_neg hji]
      exact h.last j id hj hd,
    fun id hp => by
      rcases h.origin id hp with ⟨j, b, hmem, horigin⟩
      exact ⟨j, b, mem_deliveredBy_snoc hmem, horigin⟩⟩
  unpassed := h.unpassed
  passed_max j b hj hmem hb := by
    rw [deliveredBy_snoc hc] at hmem
    by_cases hji : j = i
    · rw [if_pos hji, List.mem_append, List.mem_singleton] at hmem
      rcases hmem with hmem | heq
      · exact h.passed_max j b hj hmem hb
      · rw [hji]
        exact hd b heq.symm hb
    · rw [if_neg hji] at hmem
      exact h.passed_max j b hj hmem hb

/-- Recording the last delivery of input `i`, which waited for nothing. -/
theorem History.records (hr : Records a a' i b)
    (hnone : ∀ id, ¬ a.Delivered id i)
    (hlast : (deliveredBy i es).getLast? = some (.barrier b))
    (hbehind : b.isTerminal = false →
      ∀ k, a.Alive k → k ≠ i → a.passed k ≤ b.id ∨ a.Delivered b.id k) :
    History es a' where
  sized := hr.sized
  paused_iff j hj := by
    have hj' := hr.same.alive_iff.mp hj
    rw [hr.paused, h.paused_iff j hj']
    constructor
    · intro hp
      rcases hp with ⟨id, hd⟩ | heq
      · exact ⟨id, (hr.delivered id j).mpr (.inl hd)⟩
      · exact ⟨b.id, (hr.delivered b.id j).mpr (.inr ⟨rfl, heq⟩)⟩
    · intro hp
      rcases hp with ⟨id, hd⟩
      rcases (hr.delivered id j).mp hd with hd | ⟨-, heq⟩
      · exact .inl ⟨id, hd⟩
      · exact .inr heq
  unique j id id' hj hd hd' := by
    have hj' := hr.same.alive_iff.mp hj
    rcases (hr.delivered id j).mp hd with hd | ⟨hid, hji⟩
    · rcases (hr.delivered id' j).mp hd' with hd' | ⟨-, hji⟩
      · exact h.unique j id id' hj' hd hd'
      · exact absurd (hji ▸ hd) (hnone id)
    · rcases (hr.delivered id' j).mp hd' with hd' | ⟨hid', -⟩
      · exact absurd (hji ▸ hd') (hnone id')
      · rw [hid, hid']
  stranger j hj := by
    rw [hr.same.inputCount] at hj
    exact h.stranger j hj
  last j id hj hd := by
    rcases (hr.delivered id j).mp hd with hd | ⟨hid, hji⟩
    · rcases h.last j id (hr.same.alive_iff.mp hj) hd with ⟨b', hlast', hid', hterm⟩
      exact ⟨b', hlast', hid', fun hb' => hr.nonTerminal_of hd.pending (hterm hb')⟩
    · refine ⟨b, hji ▸ hlast, hid.symm, fun hb => ?_⟩
      rw [NonTerminal, hid, hr.terminal_self, hb]
      simp
  origin id hp := by
    by_cases hid : id = b.id
    · refine ⟨i, b, List.mem_of_getLast? hlast, hid.symm, fun hn => ?_⟩
      cases hb : b.isTerminal with
      | true => rfl
      | false =>
          rw [NonTerminal, hid, hr.terminal_self, hb] at hn
          exact absurd (by simp) hn
    · rw [NonTerminal, hr.terminal id hid]
      exact h.origin id (((hr.pending id).mp hp).resolve_right hid)
  unpassed id k hp hn hk := by
    have hk' := hr.same.alive_iff.mp hk
    rw [hr.same.passed, hr.delivered]
    have hold : a.Pending id → a.NonTerminal id → a.passed k ≤ id ∨
        a.Delivered id k ∨ id = b.id ∧ k = i := by
      intro hp' hn'
      rcases h.unpassed id k hp' hn' hk' with hle | hd
      · exact .inl hle
      · exact .inr (.inl hd)
    by_cases hid : id = b.id
    · subst hid
      cases hb : b.isTerminal with
      | true =>
          have hboth := (hr.nonTerminal_self hb).mp hn
          exact hold hboth.1 hboth.2
      | false =>
          by_cases hki : k = i
          · exact .inr (.inr ⟨rfl, hki⟩)
          · rcases hbehind hb k hk' hki with hle | hd
            · exact .inl hle
            · exact .inr (.inl hd)
    · rw [NonTerminal, hr.terminal id hid] at hn
      exact hold (((hr.pending id).mp hp).resolve_right hid) hn
  passed_max j b' hj hmem hb := by
    rw [hr.same.passed]
    exact h.passed_max j b' (hr.same.alive_iff.mp hj) hmem hb

/-! ## Closing and joining -/

theorem History.closes (hc : Closes a a' i) :
    History es a' where
  sized := hc.sized h.sized
  paused_iff j hj := by
    rw [hc.paused]
    simp only [hc.delivered_iff]
    exact h.paused_iff j (hc.alive_iff.mp hj).1
  unique j id id' hj hd hd' :=
    h.unique j id id' (hc.alive_iff.mp hj).1 (hc.delivered_iff.mp hd) (hc.delivered_iff.mp hd')
  stranger j hj := by
    rw [hc.inputCount] at hj
    exact h.stranger j hj
  last j id hj hd := by
    simp only [hc.nonTerminal_iff]
    exact h.last j id (hc.alive_iff.mp hj).1 (hc.delivered_iff.mp hd)
  origin id hp := by
    rw [hc.nonTerminal_iff]
    exact h.origin id (hc.pending_iff.mp hp)
  unpassed id k hp hn hk := by
    rw [hc.passed, hc.delivered_iff]
    exact h.unpassed id k (hc.pending_iff.mp hp) (hc.nonTerminal_iff.mp hn)
      (hc.alive_iff.mp hk).1
  passed_max j b hj hmem hb := by
    rw [hc.passed]
    exact h.passed_max j b (hc.alive_iff.mp hj).1 hmem hb

/-- A new member delivered nothing yet, and joins while nothing is pending. -/
theorem History.admits (hadm : Admits a a') : History es a' := by
  have hempty : ∀ id, ¬ a'.Pending id := by
    intro id hp
    rw [Pending, hadm.seenBarriers] at hp
    exact hadm.empty id hp
  have hdelivered : ∀ id j, ¬ a'.Delivered id j := fun id j hd => hempty id hd.pending
  have hold : ∀ j, a'.Alive j → j ≠ a.inputCount → a.Alive j := by
    intro j hj hne
    have hclosed := hj.2
    have hlt := hj.1
    rw [hadm.closed, setAt_ne _ _ hne] at hclosed
    rw [hadm.inputCount] at hlt
    exact ⟨by omega, hclosed⟩
  constructor
  case toHeld =>
    constructor
    case sized =>
      constructor
      · intro id flags hflags
        exact absurd (pending_iff.mpr ⟨flags, hflags⟩) (hempty id)
      · rw [hadm.captures, h.sized.captures]
    case paused_iff =>
      intro j hj
      simp only [hdelivered, exists_false, iff_false, Bool.not_eq_true]
      rw [hadm.paused]
      by_cases hne : j = a.inputCount
      · rw [hne, setAt_self]
      · rw [setAt_ne _ _ hne, ← Bool.not_eq_true, h.paused_iff j (hold j hj hne)]
        intro hex
        rcases hex with ⟨id, hd⟩
        exact hadm.empty id hd.pending
    case unique => exact fun j id id' _ hd _ => absurd hd (hdelivered id j)
    case stranger =>
      intro j hj
      rw [hadm.inputCount] at hj
      exact h.stranger j (by omega)
    case last => exact fun j id _ hd => absurd hd (hdelivered id j)
    case origin => exact fun id hp => absurd hp (hempty id)
  case unpassed => exact fun id k hp _ _ => absurd hp (hempty id)
  case passed_max =>
    intro j b hj hmem hb
    by_cases hne : j = a.inputCount
    · rw [hne, h.stranger a.inputCount le_rfl] at hmem
      simp at hmem
    · rw [hadm.passed, setAt_ne _ _ hne]
      exact h.passed_max j b (hold j hj hne) hmem hb

end

/-! ## No pending barrier is complete -/

theorem Alignment.NoneComplete.forgets (h : a.NoneComplete) (hf : Forgets a a' gone) :
    a'.NoneComplete := by
  intro halive id hp hcomplete
  rcases halive with ⟨k, hk⟩
  exact h ⟨k, hf.same.alive_iff.mp hk⟩ id (hf.pending_iff.mp hp).1 fun j hj =>
    (hf.delivered_iff.mp (hcomplete j (hf.same.alive_iff.mpr hj))).1

/-- Forwarding one complete barrier leaves none: an alive input has delivered
only that one. -/
theorem Held.noneComplete_of_forwards {r : Alignment × BarrierAdvance} (h : Held es a)
    (hf : Forwards a r id) : r.1.NoneComplete := by
  intro halive id' hp hcomplete
  rcases halive with ⟨k, hk⟩
  have hk' := hf.forgets.same.alive_iff.mp hk
  rcases hf.forgets.delivered_iff.mp (hcomplete k hk) with ⟨hd', hne⟩
  exact hne (h.unique k id' id hk' hd' (hf.complete k hk'))

theorem Alignment.NoneComplete.records (h : a.NoneComplete) (hr : Records a a' i b)
    (hb : ¬ a'.Complete b.id) : a'.NoneComplete := by
  intro halive id hp hcomplete
  rcases halive with ⟨k, hk⟩
  have hid : id ≠ b.id := fun heq => hb (heq ▸ hcomplete)
  refine h ⟨k, hr.same.alive_iff.mp hk⟩ id (((hr.pending id).mp hp).resolve_right hid) ?_
  intro j hj
  rcases (hr.delivered id j).mp (hcomplete j (hr.same.alive_iff.mpr hj)) with hd | ⟨heq, -⟩
  · exact hd
  · exact absurd heq hid

/-! ## One call -/

/-- The call closes input `j`. -/
def Call.Closes (j : Nat) : Call → Prop
  | .inputClosed i _ _ => i = j
  | _ => False

/-- `a₁` is the state a call leads to before it may forward a barrier. -/
structure Leads (es : List Call) (a : Alignment) (c : Call) (a₁ : Alignment) : Prop where
  history : History (es ++ [c]) a₁
  alive_iff : ∀ j, a₁.Alive j ↔ a.Alive j ∧ ¬ c.Closes j
  pending : ∀ id, a₁.Pending id → a.Pending id ∨
    ∃ i b, c = .barrier i b ∧ b.id = id ∧ Polled es a i ∧
      (b.isTerminal = true ∨ a.passed i = 0 ∨ a.passed i < b.id)
  delivered : ∀ id j, a₁.Delivered id j → a.Delivered id j ∨ ∃ b, c = .barrier j b ∧ b.id = id

/-- The call forwards nothing: it led to its final state, and no barrier is
complete unless every input had closed before. -/
structure Silent (a : Alignment) (r : Alignment × BarrierAdvance) (a₁ : Alignment) : Prop where
  state_eq : r.1 = a₁
  quiet : r.2.forward = false
  incomplete : (∃ j, a.Alive j) → ∀ id, a₁.Pending id → ¬ a₁.Complete id

theorem Alignment.NoneComplete.silent {r : Alignment × BarrierAdvance} (h : a₁.NoneComplete)
    (halive : ∀ j, a.Alive j → a₁.Alive j) (heq : r.1 = a₁) (hquiet : r.2.forward = false) :
    Silent a r a₁ where
  state_eq := heq
  quiet := hquiet
  incomplete hex := by
    rcases hex with ⟨j, hj⟩
    exact h ⟨j, halive j hj⟩

theorem Leads.forgets {a₂ : Alignment} (h : Leads es a c a₁) (hf : Forgets a₁ a₂ gone) :
    Leads es a c a₂ where
  history := h.history.forgets hf
  alive_iff j := by rw [hf.same.alive_iff, h.alive_iff]
  pending id hid := h.pending id (hf.pending_iff.mp hid).1
  delivered id j hid := h.delivered id j (hf.delivered_iff.mp hid).1

section

variable (h : History es a)
include h

/-- Taking an element from an input that waits for nothing. -/
theorem delivers_leads (hc : c.delivery = some (i, d)) (hp : Polled es a i)
    (hd : ∀ b, d = .barrier b → b.isTerminal = false → b.id ≤ a.passed i) :
    Leads es a c a where
  history := h.delivers hc hp.1 (h.not_delivered hp) hd
  alive_iff j := by
    have hcloses : ¬ c.Closes j := by
      cases c <;> simp [Call.delivery, Call.Closes] at hc ⊢
    exact ⟨fun hj => ⟨hj, hcloses⟩, fun hj => hj.1⟩
  pending id hid := .inl hid
  delivered id j hid := .inl hid

theorem passes_leads (hp : Polled es a i) (hnewer : a.passed i = 0 ∨ a.passed i < b.id)
    (hpass : Passes a a₁ i b.id) :
    Leads es a (.barrier i b) a₁ where
  history := by
    have h₁ := h.passes (by omega) hpass
    have hnot : ∀ id, ¬ a₁.Delivered id i :=
      fun id hd => h.not_delivered hp id (hpass.delivered_iff.mp hd).1
    have hi : i < a₁.inputCount := by
      rw [hpass.same.inputCount]
      exact hp.1
    refine h₁.delivers (c := .barrier i b) rfl hi hnot ?_
    intro b' heq _
    injection heq with heq
    rw [← heq, hpass.same.passed]
    show b.id ≤ setAt a.passed i b.id i
    rw [setAt_self]
  alive_iff j := by
    rw [hpass.same.alive_iff]
    exact ⟨fun hj => ⟨hj, id⟩, fun hj => hj.1⟩
  pending id hid := .inl (hpass.pending_iff.mp hid).1
  delivered id j hid := .inl (hpass.delivered_iff.mp hid).1

private theorem advances_leads (hp : Polled es a i) (hadv : Advances a i b a₁) :
    Leads es a (.barrier i b) a₁ := by
  cases hadv with
  | terminal hb =>
      refine delivers_leads h rfl hp ?_
      intro b' heq hb'
      injection heq with heq
      rw [← heq, hb] at hb'
      exact absurd hb' (by simp)
  | passes hb hnewer hpass hbehind => exact passes_leads h hp hnewer hpass

omit h in
private theorem advances_noneComplete (hnone : a.NoneComplete) (hadv : Advances a i b a₁) :
    a₁.NoneComplete := by
  cases hadv with
  | terminal => exact hnone
  | passes _ _ hpass _ =>
      exact Alignment.NoneComplete.forgets (a := { a with passed := setAt a.passed i b.id })
        hnone hpass

theorem records_leads {a₂ : Alignment} (hp : Polled es a i) (hadv : Advances a i b a₁)
    (hrec : Records a₁ a₂ i b) : Leads es a (.barrier i b) a₂ := by
  have hlead := advances_leads h hp hadv
  have hnot : ∀ id, ¬ a₁.Delivered id i := by
    intro id hd
    cases hadv with
    | terminal => exact h.not_delivered hp id hd
    | passes _ _ hpass _ => exact h.not_delivered hp id (hpass.delivered_iff.mp hd).1
  have hlast : (deliveredBy i (es ++ [.barrier i b])).getLast? = some (.barrier b) := by
    rw [deliveredBy_snoc (i := i) rfl, if_pos rfl]
    simp
  have hbehind : b.isTerminal = false →
      ∀ k, a₁.Alive k → k ≠ i → a₁.passed k ≤ b.id ∨ a₁.Delivered b.id k := by
    intro hb
    cases hadv with
    | terminal hb' =>
        rw [hb] at hb'
        exact absurd hb' (by simp)
    | passes _ _ _ hbehind => exact hbehind
  have hnewly : b.isTerminal = true ∨ a.passed i = 0 ∨ a.passed i < b.id := by
    cases hadv with
    | terminal hb => exact .inl hb
    | passes _ hnewer _ _ => exact .inr hnewer
  constructor
  · exact hlead.history.records hrec hnot hlast hbehind
  · intro j
    rw [hrec.same.alive_iff, hlead.alive_iff]
  · intro id hid
    rcases (hrec.pending id).mp hid with hid | heq
    · exact hlead.pending id hid
    · exact .inr ⟨i, b, rfl, heq.symm, hp, hnewly⟩
  · intro id j hid
    rcases (hrec.delivered id j).mp hid with hid | ⟨heq, hji⟩
    · exact hlead.delivered id j hid
    · exact .inr ⟨b, by rw [hji], heq.symm⟩

/-- What a call did to barriers. -/
def barrierStep (a : Alignment) (c : Call) : Alignment × BarrierAdvance :=
  (next a c, (answer a c).barrier)

private theorem barrier_cases (hnone : a.NoneComplete) (hp : Polled es a i)
    (b : CheckpointBarrier) :
    ∃ a₁, Leads es a (.barrier i b) a₁ ∧
      (Silent a (barrierStep a (.barrier i b)) a₁ ∨
        ∃ id, (∃ j, a.Alive j) ∧ Forwards a₁ (barrierStep a (.barrier i b)) id) := by
  have hout := onBarrier_outcome h.sized hp.1 b
  change BarrierOutcome a i b (barrierStep a (.barrier i b)) at hout
  generalize barrierStep a (.barrier i b) = r at hout ⊢
  cases hout with
  | stale hb hzero hle hsame hquiet =>
      have hd : ∀ b', Delivery.barrier b = .barrier b' → b'.isTerminal = false →
          b'.id ≤ a.passed i := by
        intro b' heq _
        injection heq with heq
        rw [← heq]
        exact hle
      have hlead := (delivers_leads (c := .barrier i b) h rfl hp hd).forgets hsame
      exact ⟨_, hlead, .inl ((hnone.forgets hsame).silent
        (fun j hj => hsame.same.alive_iff.mpr hj) rfl hquiet)⟩
  | skipped hb hnewer hpass hsame hquiet =>
      have hnone₁ := Alignment.NoneComplete.forgets
        (a := { a with passed := setAt a.passed i b.id }) hnone hpass
      exact ⟨_, (passes_leads h hp hnewer hpass).forgets hsame, .inl ((hnone₁.forgets hsame).silent
        (fun j hj => hsame.same.alive_iff.mpr (hpass.same.alive_iff.mpr hj)) rfl hquiet)⟩
  | recorded hadv hrec hincomplete =>
      have hlead := records_leads h hp hadv hrec
      have hnone₁ := (advances_noneComplete hnone hadv).records hrec hincomplete
      exact ⟨_, hlead, .inl (hnone₁.silent
        (fun j hj => (hlead.alive_iff j).mpr ⟨hj, id⟩) rfl rfl)⟩
  | forwarded hadv hrec hfwd =>
      exact ⟨_, records_leads h hp hadv hrec, .inr ⟨_, ⟨i, hp.alive⟩, hfwd⟩⟩

private theorem close_cases {cancelled : Bool} {order : List Nat}
    (hok : Obeys es a (.inputClosed i cancelled order)) (hnone : a.NoneComplete) :
    ∃ a₁, Leads es a (.inputClosed i cancelled order) a₁ ∧
      (Silent a (barrierStep a (.inputClosed i cancelled order)) a₁ ∨
        ∃ id, (∃ j, a.Alive j) ∧
          Forwards a₁ (barrierStep a (.inputClosed i cancelled order)) id) := by
  have hsnoc := h.snoc (c := .inputClosed i cancelled order) rfl
  have hout := onInputClosed_outcome h.sized i cancelled order
  change CloseOutcome a i order (barrierStep a (.inputClosed i cancelled order)) at hout
  have hlead : ∀ {a₁ : Alignment}, Alignment.Closes a a₁ i →
      Leads es a (.inputClosed i cancelled order) a₁ := by
    intro a₁ hclose
    constructor
    · exact hsnoc.closes hclose
    · intro j
      rw [hclose.alive_iff]
      exact ⟨fun hj => ⟨hj.1, fun heq => hj.2 heq.symm⟩,
        fun hj => ⟨hj.1, fun heq => hj.2 heq.symm⟩⟩
    · exact fun id hid => .inl (hclose.pending_iff.mp hid)
    · exact fun id j hid => .inl (hclose.delivered_iff.mp hid)
  generalize barrierStep a (.inputClosed i cancelled order) = r at hout ⊢
  cases hout with
  | again hclosed =>
      have hdead : ¬ a.Alive i := fun hi => by simp [hi.2] at hclosed
      refine ⟨a, ⟨hsnoc, ?_, fun id hid => .inl hid, fun id j hid => .inl hid⟩,
        .inl (hnone.silent (fun _ hj => hj) rfl rfl)⟩
      intro j
      constructor
      · exact fun hj => ⟨hj, fun heq => hdead (heq ▸ hj)⟩
      · exact fun hj => hj.1
  | quiet hclosed hclose hincomplete =>
      refine ⟨_, hlead hclose, .inl ⟨rfl, rfl, ?_⟩⟩
      intro _ id hid hcomplete
      have hmem : id ∈ order := by
        rw [hok.2.mem_iff, ← AList.mem_keys]
        exact hclose.pending_iff.mp hid
      exact hincomplete id hmem ⟨hid, hcomplete⟩
  | forwarded hclosed hclose hfwd =>
      exact ⟨_, hlead hclose, .inr ⟨_, ⟨i, hok.1, hclosed⟩, hfwd⟩⟩

/-- Every call leads to a state where the invariant holds, and forwards at
most one barrier there, a complete one. -/
theorem step_cases (hnone : a.NoneComplete) (hok : Obeys es a c) (hfixed : c ≠ .addInput) :
    ∃ a₁, Leads es a c a₁ ∧
      (Silent a (barrierStep a c) a₁ ∨
        ∃ id, (∃ j, a.Alive j) ∧ Forwards a₁ (barrierStep a c) id) := by
  have hquiet : ∀ {i : Nat} {d : Delivery}, c.delivery = some (i, d) → Polled es a i →
      (∀ b, d ≠ .barrier b) → Forgets a (next a c) (fun _ => False) →
      (answer a c).barrier.forward = false →
      ∃ a₁, Leads es a c a₁ ∧
        (Silent a (barrierStep a c) a₁ ∨
          ∃ id, (∃ j, a.Alive j) ∧ Forwards a₁ (barrierStep a c) id) := by
    intro i d hc hp hd hf hanswer
    have hlead := delivers_leads h hc hp fun b heq => absurd heq (hd b)
    exact ⟨_, hlead.forgets hf, .inl ((hnone.forgets hf).silent
      (fun j hj => hf.same.alive_iff.mpr hj) rfl hanswer)⟩
  cases c with
  | barrier i b => exact barrier_cases h hnone hok b
  | watermark i wm =>
      exact hquiet rfl hok (fun b heq => by simp at heq) (forgets_onWatermark a i wm) rfl
  | drain i => exact hquiet rfl hok (fun b heq => by simp at heq) (forgets_onDrain a i) rfl
  | rows i => exact hquiet rfl hok (fun b heq => by simp at heq) (Forgets.nothing a) rfl
  | inputClosed i cancelled order => exact close_cases h hok hnone
  | refreshWatermark =>
      have hf := forgets_refreshWatermark a
      have hlead : Leads es a .refreshWatermark a :=
        ⟨h.snoc rfl, fun j => ⟨fun hj => ⟨hj, id⟩, fun hj => hj.1⟩, fun id hid => .inl hid,
          fun id j hid => .inl hid⟩
      exact ⟨_, hlead.forgets hf, .inl ((hnone.forgets hf).silent
        (fun j hj => hf.same.alive_iff.mpr hj) rfl rfl)⟩
  | addInput => exact absurd rfl hfixed

/-! ## Every history -/

theorem history_step (hnone : a.NoneComplete) (hok : Obeys es a c) :
    History (es ++ [c]) (next a c) ∧ (next a c).NoneComplete := by
  by_cases hfixed : c = .addInput
  · subst hfixed
    have hout := addInput_outcome h.sized hnone
    have hsnoc := h.snoc (c := .addInput) rfl
    show History _ a.addInput.1 ∧ a.addInput.1.NoneComplete
    cases hadd : a.addInput
    rw [hadd] at hout
    cases hout with
    | refused => exact ⟨hsnoc, hnone⟩
    | admitted hforgets hadmits =>
        constructor
        · exact (hsnoc.forgets hforgets).admits hadmits
        · intro _ id hp
          rw [Pending, hadmits.seenBarriers] at hp
          exact absurd hp (hadmits.empty id)
  · rcases step_cases h hnone hok hfixed with ⟨a₁, hlead, hsilent | ⟨id, -, hfwd⟩⟩
    · have heq : next a c = a₁ := hsilent.state_eq
      rw [heq]
      constructor
      · exact hlead.history
      · intro hex
        rcases hex with ⟨j, hj⟩
        exact hsilent.incomplete ⟨j, ((hlead.alive_iff j).mp hj).1⟩
    · exact ⟨hlead.history.forgets hfwd.forgets, hlead.history.noneComplete_of_forwards hfwd⟩

end

theorem history_of_runs {n : Nat} (h : Runs next Obeys (ofInputs n) es a) :
    History es a ∧ a.NoneComplete := by
  refine h.induct (I := fun es a => History es a ∧ a.NoneComplete) ⟨history_nil n, ?_⟩ ?_
  · intro _ id hp
    simp [ofInputs, Pending] at hp
  · intro es a c _ ih hok
    exact history_step ih.1 ih.2 hok

end Clink.Ports.MultiInputAlignment

import Clink.Ports.MultiInputAlignmentCut

/-!
# The order of the forwarded barriers

Each input delivers its barriers in increasing id order, the terminal one
(`UINT64_MAX`) last.  A checkpoint barrier is never forwarded after a newer
one: the inputs that delivered the newer one went past the older, which was
dropped.  A terminal barrier passes nothing, so it can complete while an older
barrier, delivered only by inputs that closed since, is still pending, and the
close that follows then forwards the older one after the terminal barrier.
`TerminalLast` is the condition that this does not happen.
-/

namespace Clink.Ports.MultiInputAlignment

open Clink.Verified
open Clink.Ports.MultiInputAlignment.Alignment

variable {n : Nat} {es : List Call} {c : Call} {a : Alignment} {i j id : Nat}
  {b : CheckpointBarrier}

/-- Input `i` may deliver `b` next: its ids increase, and its terminal barrier
has the largest id. -/
def InOrder (es : List Call) (i : Nat) (b : CheckpointBarrier) : Prop :=
  b.id ≤ terminalId ∧ (b.isTerminal = true → b.id = terminalId) ∧
    ∀ b', Delivery.barrier b' ∈ deliveredBy i es → b'.id < b.id

/-- The runner's discipline over a fixed set of inputs with ordered barriers. -/
def OrderedObeys (es : List Call) (a : Alignment) (c : Call) : Prop :=
  Obeys es a c ∧ match c with
    | .barrier i b => InOrder es i b
    | .addInput => False
    | _ => True

instance (es : List Call) (i : Nat) (b : CheckpointBarrier) : Decidable (InOrder es i b) :=
  inferInstanceAs (Decidable (_ ∧ _ ∧ _))

instance (es : List Call) (a : Alignment) : ∀ c, Decidable (OrderedObeys es a c)
  | .barrier i b => inferInstanceAs (Decidable (_ ∧ InOrder es i b))
  | .addInput => inferInstanceAs (Decidable (_ ∧ False))
  | .watermark _ _ | .drain _ | .rows _ | .inputClosed _ _ _ | .refreshWatermark =>
      inferInstanceAs (Decidable (_ ∧ True))

theorem OrderedObeys.fixedObeys (h : OrderedObeys es a c) : FixedObeys es a c := by
  constructor
  · exact h.1
  · cases c with
    | barrier i b =>
        intro _ b' hmem
        have hlt := h.2.2.2 b' hmem
        omega
    | addInput => exact h.2
    | _ => trivial

/-- Another input that stays has not delivered the terminal barrier. -/
def TerminalWaits (a : Alignment) (i : Nat) : Prop :=
  ∃ k, a.Alive k ∧ k ≠ i ∧ ¬ a.Delivered terminalId k

/-- The call does not complete the terminal barrier while an input stays alive
and another barrier is pending. -/
def TerminalLast (a : Alignment) : Call → Prop
  | .barrier i b => b.isTerminal = true →
      TerminalWaits a i ∨ ∀ p, a.Pending p → p = terminalId
  | .inputClosed i _ _ => a.Pending terminalId →
      TerminalWaits a i ∨ (∀ k, a.Alive k → k = i) ∨ ∀ p, a.Pending p → p = terminalId
  | _ => True

instance (a : Alignment) (i : Nat) : Decidable (TerminalWaits a i) :=
  inferInstanceAs (Decidable (∃ k, a.Alive k ∧ k ≠ i ∧ ¬ a.Delivered terminalId k))

instance (a : Alignment) : ∀ c, Decidable (TerminalLast a c)
  | .barrier _ _ => inferInstanceAs (Decidable (_ → _ ∨ _))
  | .inputClosed _ _ _ => inferInstanceAs (Decidable (_ → _ ∨ _ ∨ _))
  | .watermark _ _ | .drain _ | .rows _ | .refreshWatermark | .addInput =>
      inferInstanceAs (Decidable True)

/-! ## What the inputs delivered -/

/-- Every id fits, and a terminal barrier has the largest. -/
def Bounded (es : List Call) : Prop :=
  ∀ j b, Delivery.barrier b ∈ deliveredBy j es →
    b.id ≤ terminalId ∧ (b.isTerminal = true → b.id = terminalId)

private theorem Bounded.snoc (h : Bounded es) (hok : OrderedObeys es a c) :
    Bounded (es ++ [c]) := by
  intro j b hmem
  cases hc : c.delivery with
  | none =>
      rw [deliveredBy_snoc_of_none hc] at hmem
      exact h j b hmem
  | some id =>
      rw [deliveredBy_snoc hc] at hmem
      by_cases hj : j = id.1
      · rw [if_pos hj, List.mem_append, List.mem_singleton] at hmem
        rcases hmem with hmem | hd
        · exact h j b hmem
        · cases c with
          | barrier i b' =>
              simp only [Call.delivery, Option.some.injEq] at hc
              rw [← hc] at hd
              injection hd with hd
              rw [hd]
              exact ⟨hok.2.1, hok.2.2.1⟩
          | inputClosed | refreshWatermark | addInput => simp [Call.delivery] at hc
          | watermark | drain | rows =>
              simp only [Call.delivery, Option.some.injEq] at hc
              rw [← hc] at hd
              simp at hd
      · rw [if_neg hj] at hmem
        exact h j b hmem

theorem Held.pending_le (h : Held es a) (hb : Bounded es) (hp : a.Pending id) :
    id ≤ terminalId ∧ (¬ a.NonTerminal id → id = terminalId) := by
  rcases h.origin id hp with ⟨j, b, hmem, hid, hterm⟩
  have hbound := hb j b hmem
  rw [hid] at hbound
  exact ⟨hbound.1, fun hn => hbound.2 (hterm hn)⟩

/-! ## One forward -/

/-- Once an alive input went past `ck`, nothing else that is pending and below
it is left. -/
theorem History.above_of_passed {ck p : Nat} (h : History es a) (hb : Bounded es)
    (hj : a.Alive j) (hd : a.Delivered ck j) (hpassed : ck ≤ a.passed j) (hp : a.Pending p)
    (hne : p ≠ ck) : ck < p := by
  have hck := (h.pending_le hb hd.pending).1
  by_cases hn : a.NonTerminal p
  · rcases h.unpassed p j hp hn hj with hle | hdp
    · omega
    · exact absurd (h.unique j p ck hj hdp hd) hne
  · have hp' := (h.pending_le hb hp).2 hn
    omega

/-- A complete barrier that an input delivered as a checkpoint barrier is the
oldest pending one. -/
theorem History.above_of_complete {p : Nat} (h : History es a) (hb : Bounded es)
    (hj : a.Alive j) (hcomplete : a.Complete id)
    (hlast : (deliveredBy j es).getLast? = some (.barrier b)) (hterm : b.isTerminal = false)
    (hp : a.Pending p) (hne : p ≠ id) : id < p := by
  have hd := hcomplete j hj
  rcases h.last j id hj hd with ⟨b', hlast', hid, -⟩
  have heq : b' = b := by
    rw [hlast] at hlast'
    simpa using hlast'.symm
  have hpassed := h.passed_max j b hj (List.mem_of_getLast? hlast) hterm
  rw [← heq, hid] at hpassed
  exact h.above_of_passed hb hj hd hpassed hp hne

/-- A call that delivers no barrier makes nothing pending. -/
theorem Leads.pending_of_no_barrier {a₁ : Alignment} {p : Nat} (hlead : Leads es a c a₁)
    (hc : ∀ k b, c ≠ .barrier k b) (hp : a₁.Pending p) : a.Pending p := by
  rcases hlead.pending p hp with hp | ⟨k, b, heq, -⟩
  · exact hp
  · exact absurd heq (hc k b)

/-- Under the condition, nothing that stays pending is older than what a call
forwards while an input stays alive. -/
theorem Leads.above {a₁ : Alignment} {p : Nat} (hlead : Leads es a c a₁)
    (hnone : a.NoneComplete) (hok : OrderedObeys es a c) (hcond : TerminalLast a c)
    (hb : Bounded (es ++ [c]))
    (hj : a₁.Alive j) (hpid : a₁.Pending id) (hcomplete : a₁.Complete id)
    (hp : a₁.Pending p) (hne : p ≠ id) : id < p := by
  rcases hlead.history.last j id hj (hcomplete j hj) with ⟨b₀, hlast₀, hid₀, -⟩
  by_cases hterm₀ : b₀.isTerminal = false
  · exact hlead.history.above_of_complete hb hj hcomplete hlast₀ hterm₀ hp hne
  rw [Bool.not_eq_false] at hterm₀
  have hid : id = terminalId := by
    rw [← hid₀]
    exact (hb j b₀ (List.mem_of_getLast? hlast₀)).2 hterm₀
  subst hid
  have hj' := (hlead.alive_iff j).mp hj
  have hold : (∀ k b, c = .barrier k b → b.id = terminalId) →
      ¬ ∀ p, a.Pending p → p = terminalId := by
    intro hbar hall
    rcases hlead.pending p hp with hp | ⟨k, b, hc, hid, -, -⟩
    · exact hne (hall p hp)
    · exact hne (hid.symm.trans (hbar k b hc))
  have hwaits : ∀ i, (∀ k b, c = .barrier k b → k = i) → (∀ k, c.Closes k → k = i) →
      ¬ TerminalWaits a i := by
    intro i hbar hclo hw
    rcases hw with ⟨k, hk, hki, hnot⟩
    have hk₁ : a₁.Alive k := (hlead.alive_iff k).mpr ⟨hk, fun hc => hki (hclo k hc)⟩
    rcases hlead.delivered terminalId k (hcomplete k hk₁) with hd | ⟨b, hc, -⟩
    · exact hnot hd
    · exact hki (hbar k b hc)
  cases c with
  | barrier i b =>
      cases hterm : b.isTerminal with
      | false =>
          have hi₁ : a₁.Alive i := (hlead.alive_iff i).mpr ⟨hok.1.alive, fun h => h.elim⟩
          have hlast : (deliveredBy i (es ++ [.barrier i b])).getLast? = some (.barrier b) := by
            rw [deliveredBy_snoc (i := i) rfl, if_pos rfl]
            simp
          exact hlead.history.above_of_complete hb hi₁ hcomplete hlast hterm hp hne
      | true =>
          have hbarrier : ∀ k b', Call.barrier i b = .barrier k b' → i = k ∧ b = b' := by
            intro k b' heq
            injection heq with hi hb'
            exact ⟨hi, hb'⟩
          rcases hcond hterm with hw | hall
          · exact absurd hw (hwaits i (fun k b' heq => (hbarrier k b' heq).1.symm)
              fun k hk => hk.elim)
          · refine absurd hall (hold fun k b' heq => ?_)
            rw [← (hbarrier k b' heq).2]
            exact hok.2.2.1 hterm
  | inputClosed i cancelled order =>
      have hpending := hlead.pending_of_no_barrier (fun _ _ => by simp) hpid
      rcases hcond hpending with hw | honly | hall
      · exact absurd hw (hwaits i (fun k b hc => absurd hc (by simp)) fun k hk => hk.symm)
      · exact absurd (honly j hj'.1).symm hj'.2
      · exact absurd hall (hold fun k b hc => absurd hc (by simp))
  | watermark | drain | rows | refreshWatermark | addInput =>
      have hpending := hlead.pending_of_no_barrier (fun _ _ => by simp) hpid
      refine absurd ?_ (hnone ⟨j, hj'.1⟩ terminalId hpending)
      intro k hk
      have hk₁ := (hlead.alive_iff k).mpr ⟨hk, fun h => h.elim⟩
      rcases hlead.delivered terminalId k (hcomplete k hk₁) with hd | ⟨_, hc, -⟩
      · exact hd
      · exact absurd hc (by simp)

/-! ## The whole run -/

structure Ordered (n : Nat) (es : List Call) (a : Alignment) : Prop where
  sorted : (forwardedIds n es).Pairwise (· < ·)
  bounded : Bounded es
  fits : ∀ f ∈ forwardedIds n es, f ≤ terminalId
  /-- While an input is alive, everything pending is newer than everything
  forwarded. -/
  ahead : (∃ j, a.Alive j) → ∀ f ∈ forwardedIds n es, ∀ p, a.Pending p → f < p

private theorem ordered_of_runs
    (h : Runs next (fun es a c => OrderedObeys es a c ∧ TerminalLast a c) (ofInputs n) es a) :
    Ordered n es a := by
  refine h.induct (I := fun es a => Ordered n es a) ?_ ?_
  · constructor
    · simp [forwardedIds]
    · intro j b hmem
      simp [deliveredBy] at hmem
    · simp [forwardedIds]
    · simp [forwardedIds]
  · intro es a c hrun ih hok
    rcases hok with ⟨hok, hcond⟩
    rcases cut_of_runs (hrun.mono fun _ _ _ hok => hok.1.fixedObeys) with ⟨hcut, hh, hnone⟩
    rcases step_cases hh hnone hok.1 hok.fixedObeys.fixed with ⟨a₁, hlead, hout⟩
    have hbounded := ih.bounded.snoc hok
    have hahead : (∃ j, a.Alive j) → ∀ f ∈ forwardedIds n es, ∀ p, a₁.Pending p → f < p := by
      intro halive f hf p hp
      rcases hlead.pending p hp with hp | ⟨i, b, hc, hid, hpolled, -⟩
      · exact ih.ahead halive f hf p hp
      · subst hc
        rcases hcut.seen f hf i hpolled.alive with ⟨b', hmem, hid'⟩
        have hlt := hok.2.2.2 b' hmem
        omega
    rcases hout with hsilent | ⟨id, halive, hfwd⟩
    · have heq : next a c = a₁ := hsilent.state_eq
      have hids := forwardedIds_snoc_of_quiet hrun hsilent.quiet
      rw [heq]
      constructor
      · rw [hids]
        exact ih.sorted
      · exact hbounded
      · rw [hids]
        exact ih.fits
      · rw [hids]
        intro hex
        rcases hex with ⟨j, hj⟩
        exact hahead ⟨j, ((hlead.alive_iff j).mp hj).1⟩
    · have hids := forwardedIds_snoc hrun hfwd
      have hforgets : Forgets a₁ (next a c) (· = id) := hfwd.forgets
      constructor
      · rw [hids, List.pairwise_append]
        refine ⟨ih.sorted, List.pairwise_singleton _ _, ?_⟩
        intro f hf g hg
        rw [List.mem_singleton.mp hg]
        exact hahead halive f hf id hfwd.pending
      · exact hbounded
      · intro f hf
        rw [hids, List.mem_append, List.mem_singleton] at hf
        rcases hf with hf | hf
        · exact ih.fits f hf
        · rw [hf]
          exact (hlead.history.pending_le hbounded hfwd.pending).1
      · intro hex f hf p hp
        rcases hex with ⟨j, hj⟩
        have hj₁ := hforgets.same.alive_iff.mp hj
        rcases hforgets.pending_iff.mp hp with ⟨hp, hne⟩
        rw [hids, List.mem_append, List.mem_singleton] at hf
        rcases hf with hf | hf
        · exact hahead halive f hf p hp
        · rw [hf]
          exact hlead.above hnone hok hcond hbounded hj₁ hfwd.pending hfwd.complete hp hne

/-- In every run that never completes the terminal barrier over an older
pending one, the forwarded ids strictly increase, and nothing is forwarded
after the terminal barrier. -/
theorem forwarded_increasing_of_terminal_last
    (h : Runs next (fun es a c => OrderedObeys es a c ∧ TerminalLast a c) (ofInputs n) es a) :
    (forwardedIds n es).Pairwise (· < ·) ∧
      ∀ pre post, forwardedIds n es = pre ++ terminalId :: post → post = [] := by
  have hord := ordered_of_runs h
  constructor
  · exact hord.sorted
  · intro pre post heq
    cases post with
    | nil => rfl
    | cons f post =>
        have hfits := hord.fits f (by rw [heq]; simp)
        have hsorted := hord.sorted
        rw [heq, List.pairwise_append, List.pairwise_cons] at hsorted
        have hlt := hsorted.2.1.1 f (by simp)
        omega

/-- Both inputs deliver barrier 1 and then their terminal barriers. -/
theorem forwarded_increasing_two_inputs :
    forwardedIds 2 [.barrier 0 { id := 1 }, .barrier 1 { id := 1 },
        .barrier 0 { id := terminalId, isTerminal := true },
        .barrier 1 { id := terminalId, isTerminal := true }] = [1, terminalId] ∧
      (forwardedIds 2 [.barrier 0 { id := 1 }, .barrier 1 { id := 1 },
        .barrier 0 { id := terminalId, isTerminal := true },
        .barrier 1 { id := terminalId, isTerminal := true }]).Pairwise (· < ·) := by
  have hrun : Runs next (fun es a c => OrderedObeys es a c ∧ TerminalLast a c) (ofInputs 2)
      [.barrier 0 { id := 1 }, .barrier 1 { id := 1 },
        .barrier 0 { id := terminalId, isTerminal := true },
        .barrier 1 { id := terminalId, isTerminal := true }] _ := .of_allowed (by decide)
  exact ⟨by decide, (forwarded_increasing_of_terminal_last hrun).1⟩

/-- Input 0 delivers barrier 5 and closes; input 1 delivers its terminal
barrier, which completes, and closes, which completes barrier 5. -/
theorem close_forwards_barrier_after_terminal :
    ∃ es a, Runs next OrderedObeys (ofInputs 2) es a ∧
      ¬ (forwardedIds 2 es).Pairwise (· < ·) := by
  have hrun : Runs next OrderedObeys (ofInputs 2)
      [.barrier 0 { id := 5 }, .inputClosed 0 false [5],
        .barrier 1 { id := terminalId, isTerminal := true }, .inputClosed 1 false [5]] _ :=
    .of_allowed (by decide)
  exact ⟨_, _, hrun, by decide⟩

end Clink.Ports.MultiInputAlignment

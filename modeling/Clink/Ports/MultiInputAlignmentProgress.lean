import Clink.Ports.MultiInputAlignmentInvariant

/-!
# The aligner does not wedge

In every state a runner that keeps its discipline reaches, membership growing
or not, an alive input waits exactly for the pending barriers it delivered,
and unless an alive input has delivered its terminal barrier some alive input
can be polled: the alive inputs cannot all wait, because the oldest barrier
one of them waits for has been passed by nobody, so all of them would have
delivered it, and then it would have been forwarded.

`on_input_closed` returns at the first barrier the close completes.  While an
input is left that is the only complete one, but the close of the last input
completes everything that is pending, and all but one barrier stays behind.
-/

namespace Clink.Ports.MultiInputAlignment

open Clink.Verified
open Clink.Ports.MultiInputAlignment.Alignment

variable {n : Nat} {es : List Call} {c : Call} {a : Alignment} {i j id : Nat}

/-- Nothing waits for ever in the state `a` after the calls `es`. -/
structure Unwedged (es : List Call) (a : Alignment) : Prop where
  /-- An alive input is paused exactly when it delivered a pending barrier. -/
  paused_iff : ∀ j, a.Alive j → (a.paused j = true ↔ ∃ id, a.Delivered id j)
  /-- No pending barrier has been delivered by every alive input. -/
  incomplete : ∀ id, a.Pending id → ¬ a.Complete id
  /-- Without a terminal barrier some alive input can be polled. -/
  polls : (∀ j b, a.Alive j → Delivery.barrier b ∈ deliveredBy j es → b.isTerminal = false) →
    (∃ j, a.Alive j) → ∃ j, a.Alive j ∧ a.paused j = false

/-- When the last alive input closes, at most one barrier is pending. -/
def SingleAtLastClose (a : Alignment) : Call → Prop
  | .inputClosed i _ _ => a.Alive i → (∀ j, a.Alive j → j = i) →
      ∀ p q, a.Pending p → a.Pending q → p = q
  | _ => True

/-! ## Some input can be polled -/

/-- What an alive input waits for, when it has delivered no terminal barrier,
is not marked terminal and not above what it passed. -/
theorem History.waits (h : History es a)
    (hterm : ∀ b, Delivery.barrier b ∈ deliveredBy j es → b.isTerminal = false)
    (hj : a.Alive j) (hd : a.Delivered id j) : a.NonTerminal id ∧ id ≤ a.passed j := by
  rcases h.last j id hj hd with ⟨b, hlast, hid, hnon⟩
  have hmem := List.mem_of_getLast? hlast
  have hb := hterm b hmem
  constructor
  · exact hnon hb
  · rw [← hid]
    exact h.passed_max j b hj hmem hb

theorem History.polls (h : History es a) (hnone : a.NoneComplete)
    (hterm : ∀ j b, a.Alive j → Delivery.barrier b ∈ deliveredBy j es → b.isTerminal = false)
    (halive : ∃ j, a.Alive j) : ∃ j, a.Alive j ∧ a.paused j = false := by
  by_contra hall
  have hwaits : ∀ j, a.Alive j → ∃ id, a.Delivered id j := by
    intro j hj
    rw [← h.paused_iff j hj]
    by_contra hp
    exact hall ⟨j, hj, by simpa using hp⟩
  have hsome : ∃ id, ∃ j, a.Alive j ∧ a.Delivered id j := by
    rcases halive with ⟨j, hj⟩
    rcases hwaits j hj with ⟨id, hd⟩
    exact ⟨id, j, hj, hd⟩
  classical
  have holdest := Nat.find_spec hsome
  rcases holdest with ⟨j, hj, hd⟩
  refine hnone halive (Nat.find hsome) hd.pending fun k hk => ?_
  have hnon := (h.waits (hterm j · hj) hj hd).1
  rcases h.unpassed _ k hd.pending hnon hk with hle | hdk
  · rcases hwaits k hk with ⟨id, hdk⟩
    have hmin : Nat.find hsome ≤ id := Nat.find_min' hsome ⟨k, hk, hdk⟩
    have hmax := (h.waits (hterm k · hk) hk hdk).2
    have heq : id = Nat.find hsome := by omega
    rw [heq] at hdk
    exact hdk
  · exact hdk

/-! ## No pending barrier is complete -/

/-- A barrier that is pending after a call with nobody left alive was pending
before it, and the call closed the last input. -/
theorem Leads.last_close {a₁ : Alignment} (hlead : Leads es a c a₁)
    (hinc : ∀ id, a.Pending id → ¬ a.Complete id) (hdead : ¬ ∃ j, a₁.Alive j)
    (hp : a₁.Pending id) :
    a.Pending id ∧ ∃ i cancelled order, c = .inputClosed i cancelled order ∧ a.Alive i ∧
      ∀ j, a.Alive j → j = i := by
  have halive : ∃ j, a.Alive j := by
    rcases hlead.pending id hp with hp | ⟨i, -, -, -, hpolled, -⟩
    · by_contra hnone
      exact hinc id hp fun j hj => absurd ⟨j, hj⟩ hnone
    · exact ⟨i, hpolled.alive⟩
  have hcloses : ∀ j, a.Alive j → c.Closes j := by
    intro j hj
    by_contra hnot
    exact hdead ⟨j, (hlead.alive_iff j).mpr ⟨hj, hnot⟩⟩
  rcases halive with ⟨j, hj⟩
  have hc := hcloses j hj
  cases c with
  | inputClosed i cancelled order =>
      have hi : i = j := hc
      constructor
      · rcases hlead.pending id hp with hp | ⟨_, _, heq, -⟩
        · exact hp
        · exact absurd heq (by simp)
      · exact ⟨i, cancelled, order, rfl, hi ▸ hj, fun k hk => (hcloses k hk).symm⟩
  | _ => exact hc.elim

private theorem incomplete_step (h : History es a) (hnone : a.NoneComplete)
    (hinc : ∀ id, a.Pending id → ¬ a.Complete id) (hok : Obeys es a c)
    (hsingle : SingleAtLastClose a c) :
    ∀ id, (next a c).Pending id → ¬ (next a c).Complete id := by
  by_cases hfixed : c = .addInput
  · subst hfixed
    have hout := addInput_outcome h.sized hnone
    show ∀ id, a.addInput.1.Pending id → ¬ a.addInput.1.Complete id
    cases hadd : a.addInput
    rw [hadd] at hout
    cases hout with
    | refused => exact hinc
    | admitted hforgets hadmits =>
        intro id hp
        rw [Pending, hadmits.seenBarriers] at hp
        exact absurd hp (hadmits.empty id)
  by_cases halive : ∃ j, (next a c).Alive j
  · exact (history_step h hnone hok).2 halive
  rcases step_cases h hnone hok hfixed with ⟨a₁, hlead, hsilent | ⟨id, -, hfwd⟩⟩
  · have heq : next a c = a₁ := hsilent.state_eq
    rw [heq] at halive ⊢
    intro id hp
    rcases hlead.last_close hinc halive hp with ⟨-, i, -, -, -, hi, -⟩
    exact hsilent.incomplete ⟨i, hi⟩ id hp
  · have hforgets : Forgets a₁ (next a c) (· = id) := hfwd.forgets
    have hdead : ¬ ∃ j, a₁.Alive j := by
      intro hex
      rcases hex with ⟨j, hj⟩
      exact halive ⟨j, hforgets.same.alive_iff.mpr hj⟩
    intro id' hp'
    rcases hforgets.pending_iff.mp hp' with ⟨hp₁, hne⟩
    rcases hlead.last_close hinc hdead hfwd.pending with ⟨hp, i, cancelled, order, hc, hi, honly⟩
    rw [hc] at hsingle
    exact absurd (hsingle hi honly id' id (hlead.last_close hinc hdead hp₁).1 hp) hne

private theorem incomplete_of_runs
    (h : Runs next (fun es a c => Obeys es a c ∧ SingleAtLastClose a c) (ofInputs n) es a) :
    ∀ id, a.Pending id → ¬ a.Complete id := by
  refine h.induct (I := fun _ a => ∀ id, a.Pending id → ¬ a.Complete id) ?_ ?_
  · intro id hp
    simp [ofInputs, Pending] at hp
  · intro es a c hrun ih hok
    rcases history_of_runs (hrun.mono fun _ _ _ hok => hok.1) with ⟨hh, hnone⟩
    exact incomplete_step hh hnone ih hok.1 hok.2

/-- The close of the last input leaves behind what it did not forward. -/
theorem single_of_incomplete (h : History es a)
    (hinc : ∀ id, (next a c).Pending id → ¬ (next a c).Complete id) :
    SingleAtLastClose a c := by
  cases c with
  | inputClosed i cancelled order =>
      intro hi honly p q hp hq
      have hout := onInputClosed_outcome h.sized i cancelled order
      change CloseOutcome a i order (barrierStep a (.inputClosed i cancelled order)) at hout
      have hdead : ∀ {a₁ : Alignment} {id : Nat}, Alignment.Closes a a₁ i → a₁.Complete id := by
        intro a₁ id hclose j hj
        rcases hclose.alive_iff.mp hj with ⟨hj, hne⟩
        exact absurd (honly j hj) hne
      have hstate : ∀ r, barrierStep a (.inputClosed i cancelled order) = r →
          next a (.inputClosed i cancelled order) = r.1 := by
        intro r hr
        rw [← hr]
        rfl
      generalize hr : barrierStep a (.inputClosed i cancelled order) = r at hout
      rw [hstate r hr] at hinc
      cases hout with
      | again hclosed =>
          rw [hi.2] at hclosed
          exact absurd hclosed (by simp)
      | quiet _ hclose _ =>
          exact absurd (hdead hclose) (hinc p (hclose.pending_iff.mpr hp))
      | @forwarded a₁ _ id _ hclose hfwd =>
          have hgone : ∀ id', a.Pending id' → id' = id := by
            intro id' hp'
            by_contra hne
            refine hinc id' (hfwd.forgets.pending_iff.mpr ⟨hclose.pending_iff.mpr hp', hne⟩) ?_
            intro j hj
            exact hfwd.forgets.delivered_iff.mpr
              ⟨hdead hclose j (hfwd.forgets.same.alive_iff.mp hj), hne⟩
          rw [hgone p hp, hgone q hq]
  | _ => trivial

/-! ## The whole run -/

/-- Along a run nothing is ever wedged exactly if every close of a last alive
input finds at most one barrier pending. -/
theorem unwedged_iff_single_at_last_close (h : Runs next Obeys (ofInputs n) es a) :
    (∀ pre post, es = pre ++ post → Unwedged pre (pre.foldl next (ofInputs n))) ↔
      ∀ pre c post, es = pre ++ c :: post →
        SingleAtLastClose (pre.foldl next (ofInputs n)) c := by
  constructor
  · intro hall pre c post hes
    rcases h.split hes with ⟨t, hrun, -, -⟩
    have hafter := (hall (pre ++ [c]) post (by rw [hes]; simp)).incomplete
    rw [List.foldl_append, ← hrun.state_eq] at hafter
    rw [← hrun.state_eq]
    exact single_of_incomplete (history_of_runs hrun).1 hafter
  · intro hall pre post hes
    rw [hes] at h
    have hrun := h.start
    rcases history_of_runs hrun with ⟨hh, hnone⟩
    have hstrong := hrun.strengthen (P := SingleAtLastClose) fun pre' c post' hpre =>
      hall pre' c (post' ++ post) (by rw [hes, hpre]; simp)
    exact ⟨hh.paused_iff, incomplete_of_runs hstrong, hh.polls hnone⟩

/-- The first of two inputs delivers barrier 1 and the second closes. -/
theorem unwedged_delivery_and_close :
    Unwedged [.barrier 0 { id := 1 }, .inputClosed 1 false [1]]
      (next (next (ofInputs 2) (.barrier 0 { id := 1 })) (.inputClosed 1 false [1])) := by
  have h : Runs next Obeys (ofInputs 2) [.barrier 0 { id := 1 }, .inputClosed 1 false [1]] _ :=
    .of_allowed (by decide)
  refine (unwedged_iff_single_at_last_close h).mpr ?_ _ [] (by simp)
  intro pre c post hes
  rcases pre with _ | ⟨c₁, _ | ⟨c₂, pre⟩⟩
  · have hc : c = .barrier 0 { id := 1 } := by
      simp at hes
      exact hes.1.symm
    rw [hc]
    trivial
  · have hc : c₁ = .barrier 0 { id := 1 } ∧ c = .inputClosed 1 false [1] := by
      simp at hes
      exact ⟨hes.1.symm, hes.2.1.symm⟩
    rw [hc.1, hc.2]
    intro _ honly
    exact absurd (honly 0 (by decide)) (by decide)
  · simp at hes

/-- Input 0 delivers barrier 5 and closes, input 1 delivers barrier 3 and
closes: the close of input 2 completes both and forwards one. -/
theorem last_close_leaves_barrier :
    ∃ es a, Runs next Obeys (ofInputs 3) es a ∧ ¬ Unwedged es a := by
  have h : Runs next Obeys (ofInputs 3)
      [.barrier 0 { id := 5 }, .inputClosed 0 false [5], .barrier 1 { id := 3 },
        .inputClosed 1 false [3, 5], .inputClosed 2 false [3, 5]] _ :=
    .of_allowed (by decide)
  refine ⟨_, _, h, ?_⟩
  intro hun
  refine hun.incomplete 5 (by decide) ?_
  intro j hj
  have hdead : ∀ j < 3, ¬ Alignment.Alive
      (List.foldl next (ofInputs 3)
        [.barrier 0 { id := 5 }, .inputClosed 0 false [5], .barrier 1 { id := 3 },
          .inputClosed 1 false [3, 5], .inputClosed 2 false [3, 5]]) j := by decide
  exact absurd hj (hdead j hj.1)

end Clink.Ports.MultiInputAlignment

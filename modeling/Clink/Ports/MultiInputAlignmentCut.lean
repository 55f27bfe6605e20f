import Clink.Ports.MultiInputAlignmentInvariant

/-!
# Every forwarded barrier is a consistent cut

With a fixed membership, at the moment an aligner forwards a checkpoint id the
last thing every alive input delivered is that id: no row from after the barrier
has been let through, and none from before it is still to come.  An id is
forwarded at most once as long as a terminal barrier does not repeat one; the
aligner takes a terminal barrier whatever its input delivered before.
-/

namespace Clink.Ports.MultiInputAlignment

open Clink.Verified
open Clink.Ports.MultiInputAlignment.Alignment

variable {n : Nat} {es : List Call} {c : Call} {a : Alignment} {i j id : Nat}

/-- The ids an aligner over `n` inputs told its runner to forward, in order. -/
def forwardedIds (n : Nat) (es : List Call) : List Nat :=
  ((answers next answer (ofInputs n) es).filter fun r => r.barrier.forward).map
    fun r => r.barrier.barrier.id

/-- A terminal barrier is new to its input, and so is id 0.  The sources give
a terminal barrier the id `UINT64_MAX`, which no checkpoint reaches, and number
checkpoints from 1; the aligner reads 0 as "nothing delivered yet". -/
def Fresh (es : List Call) (i : Nat) (b : CheckpointBarrier) : Prop :=
  b.isTerminal = true ∨ b.id = 0 → ∀ b', Delivery.barrier b' ∈ deliveredBy i es → b'.id ≠ b.id

/-- The runner's discipline over a fixed set of inputs. -/
def Disciplined (es : List Call) (a : Alignment) (c : Call) : Prop :=
  Obeys es a c ∧ match c with
    | .addInput => False
    | _ => True

/-- The discipline, with barriers that are fresh. -/
def FixedObeys (es : List Call) (a : Alignment) (c : Call) : Prop :=
  Obeys es a c ∧ match c with
    | .barrier i b => Fresh es i b
    | .addInput => False
    | _ => True

instance (es : List Call) (i : Nat) (b : CheckpointBarrier) : Decidable (Fresh es i b) :=
  inferInstanceAs (Decidable (_ → _))

instance (es : List Call) (a : Alignment) : ∀ c, Decidable (FixedObeys es a c)
  | .barrier i b => inferInstanceAs (Decidable (_ ∧ Fresh es i b))
  | .addInput => inferInstanceAs (Decidable (_ ∧ False))
  | .watermark _ _ | .drain _ | .rows _ | .inputClosed _ _ _ | .refreshWatermark =>
      inferInstanceAs (Decidable (_ ∧ True))

instance (es : List Call) (a : Alignment) : ∀ c, Decidable (Disciplined es a c)
  | .addInput => inferInstanceAs (Decidable (_ ∧ False))
  | .barrier _ _ | .watermark _ _ | .drain _ | .rows _ | .inputClosed _ _ _ | .refreshWatermark =>
      inferInstanceAs (Decidable (_ ∧ True))

theorem Disciplined.fixed (h : Disciplined es a c) : c ≠ .addInput := by
  intro hc
  rw [hc] at h
  exact h.2

theorem FixedObeys.fixed (h : FixedObeys es a c) : c ≠ .addInput := by
  intro hc
  rw [hc] at h
  exact h.2

theorem FixedObeys.fresh {b : CheckpointBarrier} (h : FixedObeys es a (.barrier i b)) :
    Fresh es i b := h.2

theorem forwardedIds_snoc_of_quiet {ok : List Call → Alignment → Call → Prop}
    (h : Runs next ok (ofInputs n) es a) (hquiet : (barrierStep a c).2.forward = false) :
    forwardedIds n (es ++ [c]) = forwardedIds n es := by
  have hanswer : (answer a c).barrier.forward = false := hquiet
  rw [forwardedIds, h.answers_snoc, List.filter_append, List.map_append]
  simp [forwardedIds, hanswer]

theorem forwardedIds_snoc {ok : List Call → Alignment → Call → Prop} {a₁ : Alignment}
    (h : Runs next ok (ofInputs n) es a) (hfwd : Forwards a₁ (barrierStep a c) id) :
    forwardedIds n (es ++ [c]) = forwardedIds n es ++ [id] := by
  have hforward : (answer a c).barrier.forward = true := hfwd.forward
  have hid : (answer a c).barrier.barrier.id = id := hfwd.barrier
  rw [forwardedIds, h.answers_snoc, List.filter_append, List.map_append]
  simp [forwardedIds, hforward, hid]

/-- The forwarded ids are over: nothing of them is pending, and every alive
input delivered each of them. -/
structure Cut (n : Nat) (es : List Call) (a : Alignment) : Prop where
  nodup : (forwardedIds n es).Nodup
  gone : ∀ f ∈ forwardedIds n es, ¬ a.Pending f
  seen : ∀ f ∈ forwardedIds n es, ∀ j, a.Alive j →
    ∃ b, Delivery.barrier b ∈ deliveredBy j es ∧ b.id = f

/-- An input that delivered an id before delivers it again only as a stale
barrier, so a forwarded id never becomes pending again. -/
theorem Cut.not_pending {a₁ : Alignment} (h : Cut n es a) (hh : History es a)
    (hok : FixedObeys es a c) (hlead : Leads es a c a₁) :
    ∀ f ∈ forwardedIds n es, ¬ a₁.Pending f := by
  intro f hf hp
  rcases hlead.pending f hp with hp | ⟨i, b, hc, hid, hpolled, hnewly⟩
  · exact h.gone f hf hp
  · subst hc
    have hfresh := hok.fresh
    rcases h.seen f hf i hpolled.alive with ⟨b', hmem, hid'⟩
    have hsame : b'.id = b.id := by rw [hid', hid]
    have hle := hh.passed_max i b' hpolled.alive hmem (hpolled.2.2 b' hmem)
    have hterm : b.isTerminal ≠ true := fun hb => hfresh (.inl hb) b' hmem hsame
    have hzero : b.id ≠ 0 := fun hb => hfresh (.inr hb) b' hmem hsame
    rcases hnewly with hb | hb | hb
    · exact hterm hb
    · omega
    · omega

theorem cut_of_runs (h : Runs next FixedObeys (ofInputs n) es a) :
    Cut n es a ∧ History es a ∧ a.NoneComplete := by
  have hhist : ∀ {es a}, Runs next FixedObeys (ofInputs n) es a →
      History es a ∧ a.NoneComplete :=
    fun h => history_of_runs (h.mono fun _ _ _ hok => hok.1)
  constructor
  · refine h.induct (I := fun es a => Cut n es a) ?_ ?_
    · constructor
      · simp [forwardedIds]
      · simp [forwardedIds]
      · simp [forwardedIds]
    · intro es a c hrun ih hok
      rcases hhist hrun with ⟨hh, hnone⟩
      rcases step_cases hh hnone hok.1 hok.fixed with ⟨a₁, hlead, hout⟩
      have hgone := ih.not_pending hh hok hlead
      have hseen : ∀ f ∈ forwardedIds n es, ∀ j, a₁.Alive j →
          ∃ b, Delivery.barrier b ∈ deliveredBy j (es ++ [c]) ∧ b.id = f := by
        intro f hf j hj
        rcases ih.seen f hf j ((hlead.alive_iff j).mp hj).1 with ⟨b, hmem, hid⟩
        exact ⟨b, mem_deliveredBy_snoc hmem, hid⟩
      rcases hout with hsilent | ⟨id, -, hfwd⟩
      · have heq : next a c = a₁ := hsilent.state_eq
        have hids := forwardedIds_snoc_of_quiet hrun hsilent.quiet
        rw [heq]
        constructor
        · rw [hids]
          exact ih.nodup
        · rw [hids]
          exact hgone
        · rw [hids]
          exact hseen
      · have hids := forwardedIds_snoc hrun hfwd
        have hnew : id ∉ forwardedIds n es := fun hmem => hgone id hmem hfwd.pending
        have hforgets : Forgets a₁ (next a c) (· = id) := hfwd.forgets
        constructor
        · rw [hids, List.nodup_append_comm]
          exact List.nodup_cons.mpr ⟨hnew, ih.nodup⟩
        · intro f hf hp
          rw [hids, List.mem_append, List.mem_singleton] at hf
          rcases hforgets.pending_iff.mp hp with ⟨hp, hne⟩
          rcases hf with hf | hf
          · exact hgone f hf hp
          · exact hne hf
        · intro f hf j hj
          have hj₁ := hforgets.same.alive_iff.mp hj
          rw [hids, List.mem_append, List.mem_singleton] at hf
          rcases hf with hf | hf
          · exact hseen f hf j hj₁
          · rcases hlead.history.last j id hj₁ (hfwd.complete j hj₁) with ⟨b, hlast, hid, -⟩
            exact ⟨b, List.mem_of_getLast? hlast, hid.trans hf.symm⟩
  · exact hhist h

/-- In every run of a runner that keeps its discipline, when a call forwards an
id, the last thing each input that is not closed delivered is the barrier with
that id; and an id is forwarded at most once if the barriers were fresh. -/
theorem forwarded_once_at_consistent_cut (h : Runs next Disciplined (ofInputs n) es a) :
    (Runs next FixedObeys (ofInputs n) es a → (forwardedIds n es).Nodup) ∧
      ∀ pre c post, es = pre ++ c :: post →
        let before := pre.foldl next (ofInputs n)
        (answer before c).barrier.forward = true →
          ∀ j, (next before c).Alive j →
            ∃ b, (deliveredBy j (pre ++ [c])).getLast? = some (.barrier b) ∧
              b.id = (answer before c).barrier.barrier.id := by
  constructor
  · exact fun hfresh => (cut_of_runs hfresh).1.nodup
  · intro pre c post hes
    rcases h.split hes with ⟨t, hrun, hok, -⟩
    rw [← hrun.state_eq]
    intro before hforward j hj
    rcases history_of_runs (hrun.mono fun _ _ _ hok => hok.1) with ⟨hh, hnone⟩
    rcases step_cases hh hnone hok.1 hok.fixed with ⟨a₁, hlead, hsilent | ⟨id, -, hfwd⟩⟩
    · have hquiet : (answer t c).barrier.forward = false := hsilent.quiet
      rw [hquiet] at hforward
      exact absurd hforward (by simp)
    · have hj₁ := hfwd.forgets.same.alive_iff.mp hj
      have hid : (answer t c).barrier.barrier.id = id := hfwd.barrier
      rcases hlead.history.last j id hj₁ (hfwd.complete j hj₁) with ⟨b, hlast, hb, -⟩
      exact ⟨b, hlast, hb.trans hid.symm⟩

/-- Two inputs deliver barrier 1, the second after a row. -/
theorem forwarded_once_two_inputs :
    forwardedIds 2 [.barrier 0 { id := 1 }, .rows 1, .barrier 1 { id := 1 }] = [1] ∧
      (forwardedIds 2 [.barrier 0 { id := 1 }, .rows 1, .barrier 1 { id := 1 }]).Nodup ∧
      ∃ b, (deliveredBy 0 [.barrier 0 { id := 1 }, .rows 1, .barrier 1 { id := 1 }]).getLast? =
        some (.barrier b) ∧ b.id = 1 := by
  have hrun : Runs next Disciplined (ofInputs 2)
      [.barrier 0 { id := 1 }, .rows 1, .barrier 1 { id := 1 }] _ := .of_allowed (by decide)
  have hfresh : Runs next FixedObeys (ofInputs 2)
      [.barrier 0 { id := 1 }, .rows 1, .barrier 1 { id := 1 }] _ := .of_allowed (by decide)
  have h := forwarded_once_at_consistent_cut hrun
  constructor
  · decide
  · constructor
    · exact h.1 hfresh
    · exact h.2 [.barrier 0 { id := 1 }, .rows 1] (.barrier 1 { id := 1 }) [] rfl (by decide) 0
        (by decide)

/-- A terminal barrier with the id its input delivered before forwards it again. -/
theorem terminal_forwards_again :
    (∃ a, Runs next Disciplined (ofInputs 1)
      [.barrier 0 { id := 5 }, .barrier 0 { id := 5, isTerminal := true }] a) ∧
    forwardedIds 1 [.barrier 0 { id := 5 }, .barrier 0 { id := 5, isTerminal := true }] = [5, 5] ∧
    ¬ (forwardedIds 1
      [.barrier 0 { id := 5 }, .barrier 0 { id := 5, isTerminal := true }]).Nodup := by
  refine ⟨⟨_, .of_allowed (by decide)⟩, by decide, by decide⟩

end Clink.Ports.MultiInputAlignment

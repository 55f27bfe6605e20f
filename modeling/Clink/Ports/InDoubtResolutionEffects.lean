import Clink.Verified.History
import Clink.Ports.InDoubtResolution

/-!
# What the steps of the in-doubt walk do

The keys of the store are told apart once.  From that, what walking one
checkpoint leaves as it was (`Within`), what writing markers leaves as it was
(`Marks`), and everything a single probe can come to (`Probed`).  The two
loops over the handles of a checkpoint have an induction rule each: a relation
between the handles and the walk that every probe keeps is kept by a pass and
by the attempts.
-/

namespace Clink.Ports.InDoubt

open Clink.Verified

namespace Environment

variable {env : Environment} {id : Nat} {w w' w'' : Walk} {s : Slot}

/-! ## Keys -/

theorem completedKey_ne_confirmedKey (i j : Nat) : env.completedKey i ≠ env.confirmedKey j := by
  intro h
  have htail := List.append_cancel_left h
  simp at htail

theorem completedKey_ne_receiptKey (i subtask j : Nat) :
    env.completedKey i ≠ env.receiptKey subtask j := by
  intro h
  have htail := List.append_cancel_left h
  simp at htail

theorem completedKey_ne_markerKey (i subtask j : Nat) :
    env.completedKey i ≠ env.markerKey subtask j := by
  intro h
  unfold markerKey receiptKey at h
  rw [List.append_assoc] at h
  have htail := List.append_cancel_left h
  simp at htail

theorem confirmedKey_ne_markerKey (i subtask j : Nat) :
    env.confirmedKey i ≠ env.markerKey subtask j := by
  intro h
  unfold markerKey receiptKey at h
  rw [List.append_assoc] at h
  have htail := List.append_cancel_left h
  simp at htail

theorem confirmedKey_ne_receiptKey (i subtask j : Nat) :
    env.confirmedKey i ≠ env.receiptKey subtask j := by
  intro h
  have htail := List.append_cancel_left h
  simp at htail

/-- A marker's name has a dot, a receipt's has none. -/
theorem receiptKey_ne_markerKey (subtask i subtask' j : Nat) :
    env.receiptKey subtask i ≠ env.markerKey subtask' j := by
  intro h
  unfold markerKey receiptKey at h
  rw [List.append_assoc] at h
  have htail := List.append_cancel_left h
  have hdot : '.' ∈ "receipts/".toList ++ commitReceiptFileName subtask i := by
    rw [htail]
    simp
  have hdigit : ∀ n : Nat, '.' ∉ decimal n := fun n => not_mem_decimal (by decide)
  simp [commitReceiptFileName, hdigit] at hdot

theorem receiptKey_injective {subtask i subtask' j : Nat}
    (h : env.receiptKey subtask i = env.receiptKey subtask' j) : subtask = subtask' ∧ i = j := by
  have hname := List.append_cancel_left (List.append_cancel_left h)
  have hdigits := List.append_cancel_left hname
  have hdash : ∀ n : Nat, '-' ∉ decimal n := fun n => not_mem_decimal (by decide)
  obtain ⟨hsubtask, -, hid⟩ :=
    (List.append_cons_inj_of_notMem (hdash subtask) (hdash i)).mp hdigits
  exact ⟨decimal_injective hsubtask, decimal_injective hid⟩

/-! ## Writes and removals -/

variable {key body other : List Char} {action : Bool → Action}

theorem put_kept (h : (w.store other).isSome) :
    ((env.put key body action w).store other).isSome := by
  unfold put
  by_cases hkey : other = key
  · subst hkey
    cases hw : env.written w
    · simpa using h
    · simp
  · cases hw : env.written w
    · simpa using h
    · simpa [hkey] using h

theorem put_other (h : other ≠ key) : (env.put key body action w).store other = w.store other := by
  unfold put
  cases hw : env.written w
  · simp
  · simp [h]

theorem put_written (h : env.written w = true) :
    (env.put key body action w).store key = some body := by
  simp [put, h]

theorem retireMarker_other (h : other ≠ env.markerKey s.staged.subtask id) :
    (env.retireMarker id s w).store other = w.store other := by
  unfold retireMarker
  cases hr : env.removeSucceeds w.log.length
  · simp
  · simp [h]

end Environment

/-! ## Walking one checkpoint -/

/-- An action of the walk of checkpoint `id` before it is decided. -/
def Action.Regards (id : Nat) : Action → Prop
  | .probed j _ _ => j = id
  | .receipt j _ _ => j = id
  | .confirmed _ _ => False
  | _ => True

/-- What walking checkpoint `id`, before it is decided, does to the log and leaves
of the store. -/
structure Within (env : Environment) (id : Nat) (w w' : Walk) : Prop where
  grew : Grew (Action.Regards id) w.log w'.log
  completed : ∀ j, w'.store (env.completedKey j) = w.store (env.completedKey j)
  receipts : ∀ subtask j, j ≠ id →
    w'.store (env.receiptKey subtask j) = w.store (env.receiptKey subtask j)
  receiptKept : ∀ subtask j, (w.store (env.receiptKey subtask j)).isSome →
    (w'.store (env.receiptKey subtask j)).isSome
  confirmedKept : ∀ j, (w.store (env.confirmedKey j)).isSome →
    (w'.store (env.confirmedKey j)).isSome

namespace Within

variable {env : Environment} {id : Nat} {w w' w'' : Walk} {s : Slot}

theorem refl (env : Environment) (id : Nat) (w : Walk) : Within env id w w :=
  ⟨.refl _ _, fun _ => rfl, fun _ _ _ => rfl, fun _ _ h => h, fun _ h => h⟩

theorem trans (h : Within env id w w') (h' : Within env id w' w'') : Within env id w w'' := by
  constructor
  · exact h.grew.trans h'.grew
  · intro j
    rw [h'.completed, h.completed]
  · intro subtask j hj
    rw [h'.receipts _ _ hj, h.receipts _ _ hj]
  · exact fun subtask j hsome => h'.receiptKept _ _ (h.receiptKept _ _ hsome)
  · exact fun j hsome => h'.confirmedKept _ (h.confirmedKept _ hsome)

theorem observe : Within env id w (env.observe w) :=
  { refl env id w with grew := .snoc trivial }

theorem probed (index : Nat) (result : InDoubtResolution) :
    Within env id w (Environment.probed id index result w) :=
  { refl env id w with grew := .snoc rfl }

theorem put {key body : List Char} {action : Bool → Action}
    (hcompleted : ∀ j, env.completedKey j ≠ key)
    (hreceipts : ∀ subtask j, j ≠ id → env.receiptKey subtask j ≠ key)
    (haction : ∀ landed, (action landed).Regards id) :
    Within env id w (env.put key body action w) where
  grew := .snoc (haction _)
  completed := fun j => Environment.put_other (hcompleted j)
  receipts := fun subtask j hj => Environment.put_other (hreceipts subtask j hj)
  receiptKept := fun _ _ h => Environment.put_kept h
  confirmedKept := fun _ h => Environment.put_kept h

theorem retireMarker : Within env id w (env.retireMarker id s w) where
  grew := .snoc trivial
  completed := fun j => Environment.retireMarker_other (env.completedKey_ne_markerKey j _ _)
  receipts := fun subtask j _ =>
    Environment.retireMarker_other (env.receiptKey_ne_markerKey subtask j _ _)
  receiptKept := fun subtask j h => by
    rw [Environment.retireMarker_other (env.receiptKey_ne_markerKey subtask j _ _)]
    exact h
  confirmedKept := fun j h => by
    rw [Environment.retireMarker_other (env.confirmedKey_ne_markerKey j _ _)]
    exact h

theorem materialiseReceipt : Within env id w (env.materialiseReceipt id s w) := by
  unfold Environment.materialiseReceipt
  split
  · exact refl env id w
  · refine put (fun j => env.completedKey_ne_receiptKey j _ _) ?_ fun _ => rfl
    intro subtask j hj heq
    exact hj (Environment.receiptKey_injective heq).2

end Within

/-! ## Writing markers -/

def Action.IsMark : Action → Prop
  | .unresolved _ _ _ => True
  | _ => False

/-- What writing markers does to the log and leaves of the store. -/
structure Marks (env : Environment) (w w' : Walk) : Prop where
  grew : Grew Action.IsMark w.log w'.log
  others : ∀ key, (∀ subtask j, key ≠ env.markerKey subtask j) → w'.store key = w.store key
  kept : ∀ key, (w.store key).isSome → (w'.store key).isSome

namespace Marks

variable {env : Environment} {w w' w'' : Walk}

theorem refl (env : Environment) (w : Walk) : Marks env w w :=
  ⟨.refl _ _, fun _ _ => rfl, fun _ h => h⟩

theorem trans (h : Marks env w w') (h' : Marks env w' w'') : Marks env w w'' := by
  constructor
  · exact h.grew.trans h'.grew
  · intro key hkey
    rw [h'.others _ hkey, h.others _ hkey]
  · exact fun key hsome => h'.kept _ (h.kept _ hsome)

theorem put (id : Nat) (s : Slot) (w : Walk) : Marks env w
    (env.put (env.markerKey s.staged.subtask id) s.staged.handle (.unresolved id s.index) w) where
  grew := .snoc trivial
  others := fun _ hkey => Environment.put_other (hkey _ _)
  kept := fun _ h => Environment.put_kept h

theorem receipt (h : Marks env w w') (subtask j : Nat) :
    w'.store (env.receiptKey subtask j) = w.store (env.receiptKey subtask j) :=
  h.others _ fun subtask' j' => env.receiptKey_ne_markerKey subtask j subtask' j'

theorem completed (h : Marks env w w') (j : Nat) :
    w'.store (env.completedKey j) = w.store (env.completedKey j) :=
  h.others _ fun subtask' j' => env.completedKey_ne_markerKey j subtask' j'

theorem within (h : Marks env w w') (id : Nat) : Within env id w w' where
  grew := h.grew.imp fun a ha => by cases a <;> trivial
  completed := h.completed
  receipts := fun subtask j _ => h.receipt subtask j
  receiptKept := fun _ _ hsome => h.kept _ hsome
  confirmedKept := fun _ hsome => h.kept _ hsome

theorem persistUnresolvedMarkers (id : Nat) (slots : List Slot) (w : Walk) :
    Marks env w (env.persistUnresolvedMarkers id slots w) := by
  induction slots generalizing w with
  | nil => exact refl env w
  | cons s rest ih =>
      unfold Environment.persistUnresolvedMarkers
      split
      · exact ih w
      · exact (put id s w).trans (ih _)

theorem markUnreceipted (id : Nat) (slots : List Slot) (w : Walk) :
    Marks env w (env.markUnreceipted id slots w) := by
  induction slots generalizing w with
  | nil => exact refl env w
  | cons s rest ih =>
      unfold Environment.markUnreceipted
      split
      · exact ih w
      · exact (put id s w).trans (ih _)

theorem markLater (ids : List Nat) (w : Walk) : Marks env w (env.markLater ids w) := by
  induction ids generalizing w with
  | nil => exact refl env w
  | cons id ids ih =>
      unfold Environment.markLater
      exact (markUnreceipted id _ w).trans (ih _)

theorem markLaterUnreceipted (completed stoppedAt : Nat) (w : Walk) :
    Marks env w (env.markLaterUnreceipted completed stoppedAt w) :=
  markLater _ w

end Marks

/-! ## One probe -/

/-- The walk has not seen the cancel flag set. -/
def Quiet (log : List Action) : Prop := .observed true ∉ log

theorem Quiet.observe {env : Environment} {w : Walk} (h : Quiet w.log)
    (hcancel : env.cancelled w = false) : Quiet (env.observe w).log := by
  unfold Quiet at h ⊢
  simpa [Environment.observe, hcancel] using h

/-- A probe of the handle was answered committed. -/
def AnsweredCommitted (id index : Nat) (log : List Action) : Prop :=
  ∃ result, .probed id index result ∈ log ∧ result.committed = true

/-- The walk after a handle was asked about. -/
def Environment.asked (env : Environment) (id : Nat) (s : Slot) (result : InDoubtResolution)
    (w : Walk) : Walk :=
  Environment.probed id s.index result (env.observe w)

theorem Quiet.asked {env : Environment} {id : Nat} {s : Slot} {w : Walk} (h : Quiet w.log)
    (hcancel : env.cancelled w = false) (result : InDoubtResolution) :
    Quiet (env.asked id s result w).log := by
  have hobserved := h.observe hcancel
  simpa [Quiet, Environment.asked, Environment.probed] using hobserved

/-- The answer is in the log when the walk looks at the flag again. -/
theorem mem_observe_asked (env : Environment) (id : Nat) (s : Slot) (w : Walk)
    (result : InDoubtResolution) :
    .probed id s.index result ∈ (env.observe (env.asked id s result w)).log := by
  simp [Environment.observe, Environment.asked, Environment.probed]

/-- Everything that can become of a handle a pass comes to. -/
inductive Probed (env : Environment) (id : Nat) (s : Slot) (w : Walk) :
    Environment.Probe → Prop where
  | cancelled (h : env.cancelled w = true) : Probed env id s w ⟨.cancelled, s, env.observe w⟩
  | unasked (h : env.cancelled w = false) : Probed env id s w ⟨.failed, s, env.observe w⟩
  | tooLate (result : InDoubtResolution) (h : env.cancelled w = false)
      (h' : env.cancelled (env.asked id s result w) = true) :
      Probed env id s w ⟨.cancelled, s, env.observe (env.asked id s result w)⟩
  | committed (result : InDoubtResolution) (h : env.cancelled w = false)
      (h' : env.cancelled (env.asked id s result w) = false) (hresult : result.committed = true) :
      Probed env id s w ⟨.committed, { s with committed := true },
        env.retireMarker id s
          (env.materialiseReceipt id s (env.observe (env.asked id s result w)))⟩
  | inconclusive (result : InDoubtResolution) (h : env.cancelled w = false)
      (h' : env.cancelled (env.asked id s result w) = false) (hresult : result.committed = false)
      (htransport : result.transportInconclusive = true) :
      Probed env id s w ⟨.inconclusive, s, env.observe (env.asked id s result w)⟩
  | refused (result : InDoubtResolution) (h : env.cancelled w = false)
      (h' : env.cancelled (env.asked id s result w) = false) (hresult : result.committed = false)
      (htransport : result.transportInconclusive = false) :
      Probed env id s w ⟨.failed, { s with refused := true },
        env.retireMarker id s (env.observe (env.asked id s result w))⟩

theorem probed_probeHandle (env : Environment) (id : Nat) (s : Slot) (w : Walk) :
    Probed env id s w (env.probeHandle id s w) := by
  unfold Environment.probeHandle
  cases hcancel : env.cancelled w with
  | true => exact .cancelled hcancel
  | false =>
      simp only [Bool.false_eq_true, if_false]
      cases hresolver : env.resolverOf s.staged.handle with
      | none => exact .unasked hcancel
      | some resolver =>
          simp only
          set result := Environment.ask resolver s.staged.handle (env.observe w)
          change Probed env id s w (env.actOn id s result (env.asked id s result w))
          unfold Environment.actOn
          cases hlate : env.cancelled (env.asked id s result w) with
          | true => exact .tooLate result hcancel hlate
          | false =>
              simp only [Bool.false_eq_true, if_false]
              cases hcommitted : result.committed with
              | true => exact .committed result hcancel hlate hcommitted
              | false =>
                  cases htransport : result.transportInconclusive with
                  | true => exact .inconclusive result hcancel hlate hcommitted htransport
                  | false => exact .refused result hcancel hlate hcommitted htransport

namespace Probed

variable {env : Environment} {id : Nat} {s : Slot} {w : Walk} {probe : Environment.Probe}

section

variable (h : Probed env id s w probe)
include h

/-- Whatever the actions of a probe of this handle are, the log grew by such. -/
theorem grew {Q : Action → Prop} (hobserved : ∀ cancelled, Q (.observed cancelled))
    (hprobed : ∀ result, Q (.probed id s.index result))
    (hreceipt : ∀ written, Q (.receipt id s.index written)) (hretired : Q (.retired id s.index)) :
    Grew Q w.log probe.walk.log := by
  have hasked : ∀ result, Grew Q w.log (env.observe (env.asked id s result w)).log := fun result =>
    ((Grew.snoc (hobserved _)).trans (.snoc (hprobed result))).trans (.snoc (hobserved _))
  cases h with
  | cancelled => exact .snoc (hobserved _)
  | unasked => exact .snoc (hobserved _)
  | tooLate result => exact hasked result
  | committed result =>
      have hmaterialised : ∀ w', Grew Q w'.log (env.materialiseReceipt id s w').log := by
        intro w'
        unfold Environment.materialiseReceipt
        split
        · exact .refl _ _
        · exact .snoc (hreceipt _)
      exact ((hasked result).trans (hmaterialised _)).trans (.snoc hretired)
  | inconclusive result => exact hasked result
  | refused result => exact (hasked result).trans (.snoc hretired)

theorem within : Within env id w probe.walk := by
  have hasked : ∀ result, Within env id w (env.observe (env.asked id s result w)) :=
    fun result => (Within.observe.trans (Within.probed s.index result)).trans Within.observe
  cases h with
  | cancelled => exact Within.observe
  | unasked => exact Within.observe
  | tooLate result => exact hasked result
  | committed result =>
      exact ((hasked result).trans Within.materialiseReceipt).trans Within.retireMarker
  | inconclusive result => exact hasked result
  | refused result => exact (hasked result).trans Within.retireMarker

theorem same : probe.slot.index = s.index ∧ probe.slot.staged = s.staged := by
  cases h <;> exact ⟨rfl, rfl⟩

theorem committed_iff (hs : s.committed = false) :
    probe.slot.committed = true ↔ probe.verdict = .committed := by
  cases h <;> simp [hs]

/-- Only a pass that stops has seen the flag set. -/
theorem quiet (hquiet : Quiet w.log) (hverdict : probe.verdict ≠ .cancelled) :
    Quiet probe.walk.log := by
  have hasked : ∀ result, env.cancelled w = false →
      env.cancelled (env.asked id s result w) = false →
      Quiet (env.observe (env.asked id s result w)).log :=
    fun result hw hlate => (hquiet.asked hw result).observe hlate
  cases h with
  | cancelled => exact absurd rfl hverdict
  | unasked hw => exact hquiet.observe hw
  | tooLate => exact absurd rfl hverdict
  | committed result hw hlate =>
      have hwas := hasked result hw hlate
      unfold Environment.materialiseReceipt
      split <;> simpa [Quiet, Environment.retireMarker, Environment.put] using hwas
  | inconclusive result hw hlate => exact hasked result hw hlate
  | refused result hw hlate =>
      have hwas := hasked result hw hlate
      simpa [Quiet, Environment.retireMarker] using hwas

end

end Probed

/-! ## A pass and the attempts -/

namespace Environment

variable {env : Environment} {id : Nat} {P : List Slot → Walk → Prop}

variable {w : Walk}

theorem probeHandles_keeps
    (hstep : ∀ done s rest w, s.committed = false → Quiet w.log → P (done ++ s :: rest) w →
      P (done ++ (env.probeHandle id s w).slot :: rest) (env.probeHandle id s w).walk)
    (slots done : List Slot) (hquiet : Quiet w.log) (h : P (done ++ slots) w) :
    P (done ++ (env.probeHandles id slots w).slots) (env.probeHandles id slots w).walk := by
  induction slots generalizing done w with
  | nil => exact h
  | cons s rest ih =>
      unfold probeHandles
      cases hs : s.committed with
      | true =>
          have hrest := ih (done ++ [s]) hquiet (by simpa using h)
          simpa using hrest
      | false =>
          have hstep := hstep done s rest w hs hquiet h
          have hprobed := probed_probeHandle env id s w
          simp only [Bool.false_eq_true, if_false]
          generalize env.probeHandle id s w = probe at hstep hprobed ⊢
          have hrest : probe.verdict ≠ .cancelled →
              P (done ++ probe.slot :: (env.probeHandles id rest probe.walk).slots)
                (env.probeHandles id rest probe.walk).walk := by
            intro hverdict
            have hnext := ih (done ++ [probe.slot]) (hprobed.quiet hquiet hverdict)
              (by simpa using hstep)
            simpa using hnext
          cases hverdict : probe.verdict with
          | cancelled => exact hstep
          | failed => exact hrest (by simp [hverdict])
          | committed => exact hrest (by simp [hverdict])
          | inconclusive => exact hrest (by simp [hverdict])

/-- A pass without a failure has not seen the flag set. -/
theorem probeHandles_quiet (env : Environment) (id : Nat) (slots : List Slot)
    (hquiet : Quiet w.log) (h : (env.probeHandles id slots w).verdictFailure = false) :
    Quiet (env.probeHandles id slots w).walk.log := by
  induction slots generalizing w with
  | nil => exact hquiet
  | cons s rest ih =>
      unfold probeHandles at h ⊢
      cases hs : s.committed with
      | true =>
          simp only [hs, if_true] at h ⊢
          exact ih hquiet h
      | false =>
          have hprobed := probed_probeHandle env id s w
          simp only [hs, Bool.false_eq_true, if_false] at h ⊢
          generalize env.probeHandle id s w = probe at h hprobed ⊢
          cases hverdict : probe.verdict with
          | cancelled => simp [hverdict] at h
          | failed => simp [hverdict] at h
          | committed =>
              simp only [hverdict] at h ⊢
              exact ih (hprobed.quiet hquiet (by simp [hverdict])) h
          | inconclusive =>
              simp only [hverdict] at h ⊢
              exact ih (hprobed.quiet hquiet (by simp [hverdict])) h

/-- A pass with everything done had no failure and left every handle committed. -/
theorem probeHandles_done (env : Environment) (id : Nat) (slots : List Slot) (w : Walk)
    (h : (env.probeHandles id slots w).everythingDone = true) :
    (env.probeHandles id slots w).verdictFailure = false ∧
      ∀ s ∈ (env.probeHandles id slots w).slots, s.committed = true := by
  induction slots generalizing w with
  | nil => exact ⟨rfl, by simp [probeHandles]⟩
  | cons s rest ih =>
      unfold probeHandles at h ⊢
      cases hs : s.committed with
      | true =>
          simp only [hs, if_true] at h ⊢
          obtain ⟨hfailure, hall⟩ := ih _ h
          exact ⟨hfailure, List.forall_mem_cons.mpr ⟨hs, hall⟩⟩
      | false =>
          have hprobed := (probed_probeHandle env id s w).committed_iff hs
          simp only [hs, Bool.false_eq_true, if_false] at h ⊢
          generalize env.probeHandle id s w = probe at h hprobed ⊢
          cases hverdict : probe.verdict with
          | cancelled => simp [hverdict] at h
          | failed => simp [hverdict] at h
          | inconclusive => simp [hverdict] at h
          | committed =>
              simp only [hverdict] at h ⊢
              obtain ⟨hfailure, hall⟩ := ih _ h
              exact ⟨hfailure, List.forall_mem_cons.mpr ⟨hprobed.mpr hverdict, hall⟩⟩

variable {slots : List Slot}

theorem attempts_keeps
    (hstep : ∀ done s rest w, s.committed = false → Quiet w.log → P (done ++ s :: rest) w →
      P (done ++ (env.probeHandle id s w).slot :: rest) (env.probeHandle id s w).walk)
    (hobserve : ∀ slots w, P slots w → P slots (env.observe w))
    (n : Nat) (hquiet : Quiet w.log) (h : P slots w) :
    P (env.attempts id n slots w).slots (env.attempts id n slots w).walk := by
  induction n generalizing slots w with
  | zero => exact h
  | succ n ih =>
      have hpass := probeHandles_keeps hstep slots [] hquiet h
      have hnext := probeHandles_quiet env id slots hquiet
      unfold attempts
      generalize env.probeHandles id slots w = pass at hpass hnext ⊢
      simp only
      split
      · exact hpass
      · split
        · exact hobserve _ _ hpass
        · rename_i hgoes
          simp only [Bool.or_eq_true, not_or, Bool.not_eq_true] at hgoes
          exact ih ((hnext hgoes.2).observe hgoes.1) (hobserve _ _ hpass)

/-- Attempts that end with every handle committed have not seen the flag set. -/
theorem attempts_done (n : Nat) (hquiet : Quiet w.log)
    (h : (env.attempts id n slots w).allCommitted = true) :
    Quiet (env.attempts id n slots w).walk.log ∧
      ∀ s ∈ (env.attempts id n slots w).slots, s.committed = true := by
  induction n generalizing slots w with
  | zero => simp [attempts] at h
  | succ n ih =>
      have hnext := probeHandles_quiet env id slots hquiet
      have hdone := probeHandles_done env id slots w
      unfold attempts at h ⊢
      generalize env.probeHandles id slots w = pass at h hnext hdone ⊢
      simp only at h ⊢
      split at h
      · rename_i hall
        rw [if_pos hall]
        obtain ⟨hfailure, hcommitted⟩ := hdone hall
        exact ⟨hnext hfailure, hcommitted⟩
      · rename_i hall
        rw [if_neg hall]
        split at h
        · simp at h
        · rename_i hgoes
          rw [if_neg hgoes]
          simp only [Bool.or_eq_true, not_or, Bool.not_eq_true] at hgoes
          exact ih ((hnext hgoes.2).observe hgoes.1) h

theorem within_attempts (n : Nat) (hquiet : Quiet w.log) :
    Within env id w (env.attempts id n slots w).walk :=
  attempts_keeps (P := fun _ w' => Within env id w w')
    (fun _ s _ w' _ _ h => h.trans (probed_probeHandle env id s w').within)
    (fun _ _ h => h.trans Within.observe) n hquiet (Within.refl env id w)

end Environment

/-! ## The handles of a checkpoint -/

/-- What stays of a handle throughout the walk of its checkpoint. -/
def Slot.place (s : Slot) : StagedHandle × Nat := (s.staged, s.index)

/-- The slots are those of the handles, in their order. -/
def Placed (handles : List StagedHandle) (slots : List Slot) : Prop :=
  slots.map Slot.place = handles.zipIdx

namespace Placed

variable {handles : List StagedHandle} {slots done rest : List Slot} {s s' : Slot}

theorem start (handles : List StagedHandle) : Placed handles (Environment.slotsFrom 0 handles) := by
  have hfrom : ∀ n, (Environment.slotsFrom n handles).map Slot.place = handles.zipIdx n := by
    induction handles with
    | nil => exact fun _ => rfl
    | cons h rest ih =>
        intro n
        rw [Environment.slotsFrom, List.map_cons, List.zipIdx_cons, ih]
        rfl
  exact hfrom 0

theorem staged (h : Placed handles slots) (hs : s ∈ slots) : handles[s.index]? = some s.staged := by
  have hmem : s.place ∈ handles.zipIdx := h ▸ List.mem_map_of_mem hs
  exact List.mem_zipIdx_iff_getElem?.mp hmem

theorem exists_slot (h : Placed handles slots) {i : Nat} {staged : StagedHandle}
    (hi : handles[i]? = some staged) : ∃ s ∈ slots, s.index = i ∧ s.staged = staged := by
  have hmem : (staged, i) ∈ slots.map Slot.place := by
    rw [show slots.map Slot.place = handles.zipIdx from h]
    exact List.mem_zipIdx_iff_getElem?.mpr hi
  obtain ⟨s, hs, hplace⟩ := List.mem_map.mp hmem
  obtain ⟨hstaged, hindex⟩ := Prod.mk.inj hplace
  exact ⟨s, hs, hindex, hstaged⟩

theorem index_ne (h : Placed handles (done ++ s :: rest)) {t : Slot} (ht : t ∈ done ++ rest) :
    t.index ≠ s.index := by
  have hindices : ((done ++ s :: rest).map Slot.index).Nodup := by
    have hsnd : (done ++ s :: rest).map Slot.index =
        ((done ++ s :: rest).map Slot.place).map Prod.snd := by
      rw [List.map_map]
      rfl
    rw [hsnd, show (done ++ s :: rest).map Slot.place = handles.zipIdx from h,
      List.zipIdx_map_snd]
    exact List.nodup_range'
  rw [List.map_append, List.map_cons] at hindices
  have hnot := (List.nodup_middle.mp hindices).notMem
  intro heq
  apply hnot
  rw [← heq, ← List.map_append]
  exact List.mem_map_of_mem ht

theorem replace (h : Placed handles (done ++ s :: rest))
    (hsame : s'.index = s.index ∧ s'.staged = s.staged) : Placed handles (done ++ s' :: rest) := by
  have hplace : s'.place = s.place := Prod.ext hsame.2 hsame.1
  unfold Placed at h ⊢
  rw [← h]
  simp [hplace]

end Placed

theorem fresh_of_mem_slotsFrom {handles : List StagedHandle} {n : Nat} {s : Slot}
    (h : s ∈ Environment.slotsFrom n handles) : s.committed = false ∧ s.refused = false := by
  induction handles generalizing n with
  | nil => exact absurd h List.not_mem_nil
  | cons staged rest ih =>
      rcases List.mem_cons.mp h with h | h
      · rw [h]
        exact ⟨rfl, rfl⟩
      · exact ih h

namespace Environment

variable {env : Environment} {id : Nat}

/-! ## Reading the receipts -/

theorem readReceipts_keeps {P : Walk → Prop} (hstep : ∀ s w, P w → P (env.retireMarker id s w))
    (slots : List Slot) {w : Walk} (h : P w) : P (env.readReceipts id slots w).2 := by
  induction slots generalizing w with
  | nil => exact h
  | cons s rest ih =>
      unfold readReceipts
      split
      · exact ih (hstep s w h)
      · exact ih h

theorem within_readReceipts (slots : List Slot) (w : Walk) :
    Within env id w (env.readReceipts id slots w).2 :=
  readReceipts_keeps (fun _ _ h => h.trans Within.retireMarker) slots (Within.refl env id w)

theorem grew_readReceipts {Q : Action → Prop} (hQ : ∀ index, Q (.retired id index))
    (slots : List Slot) (w : Walk) : Grew Q w.log (env.readReceipts id slots w).2.log :=
  readReceipts_keeps (P := fun w' => Grew Q w.log w'.log)
    (fun s _ h => h.trans (.snoc (hQ s.index))) slots (.refl _ _)

theorem quiet_readReceipts (slots : List Slot) {w : Walk} (h : Quiet w.log) :
    Quiet (env.readReceipts id slots w).2.log := by
  intro hmem
  rcases (grew_readReceipts (Q := fun a => ∃ index, a = .retired id index)
    (fun index => ⟨index, rfl⟩) slots w).mem_or hmem with hmem | ⟨_, hretired⟩
  · exact h hmem
  · cases hretired

/-- The handles found committed are those with a receipt in the store. -/
theorem readReceipts_slots (slots : List Slot) (w : Walk) :
    (env.readReceipts id slots w).1 = slots.map fun s =>
      if (w.store (env.receiptKey s.staged.subtask id)).isSome then { s with committed := true }
      else s := by
  induction slots generalizing w with
  | nil => rfl
  | cons s rest ih =>
      have hreceipt : ∀ subtask, (env.retireMarker id s w).store (env.receiptKey subtask id) =
          w.store (env.receiptKey subtask id) := fun subtask =>
        retireMarker_other (env.receiptKey_ne_markerKey subtask id _ _)
      rw [List.map_cons]
      unfold readReceipts
      split
      · dsimp only
        rw [ih]
        simp only [hreceipt]
      · dsimp only
        rw [ih]

theorem placed_readReceipts (handles : List StagedHandle) (w : Walk) :
    Placed handles (env.readReceipts id (slotsFrom 0 handles) w).1 := by
  unfold Placed
  rw [readReceipts_slots, List.map_map, ← show _ = handles.zipIdx from Placed.start handles]
  refine List.map_congr_left fun s _ => ?_
  rw [Function.comp_apply]
  split <;> rfl

end Environment

end Clink.Ports.InDoubt

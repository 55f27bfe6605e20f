import Clink.Ports.InDoubtResolutionEffects

/-!
# Confirmation is sound

What the walk may do is a rule on its log (`Permitted`): a probe only of a
handle not known to be committed, a receipt only for a handle answered
committed, CONFIRMED only for a checkpoint whose handles are all receipted or
answered committed and only after every completed checkpoint below it, and
none of these once the flag was seen set.  Every action of every walk is
permitted by the log before it.

Between the probes of a checkpoint the invariant is a fact about each of its
handles: one marked committed was receipted or answered committed, and as long
as the flag was not seen set, one not marked committed was neither.
-/

namespace Clink.Ports.InDoubt

open Clink.Verified

/-! ## What the walk may do -/

/-- A commit receipt of the handle is in the store. -/
def Receipted (env : Environment) (store : List Char → Option (List Char)) (id : Nat)
    (h : StagedHandle) : Prop :=
  (store (env.receiptKey h.subtask id)).isSome = true

/-- Every handle staged at the checkpoint is receipted or was answered committed. -/
def AllCommitted (env : Environment) (store : List Char → Option (List Char)) (id : Nat)
    (log : List Action) : Prop :=
  ∃ handles, env.stagedAt store id = some handles ∧ ∀ i h, handles[i]? = some h →
    Receipted env store id h ∨ AnsweredCommitted id i log

/-- The handle is not known to be committed. -/
def Unproven (env : Environment) (store : List Char → Option (List Char)) (id index : Nat)
    (log : List Action) : Prop :=
  ¬ AnsweredCommitted id index log ∧ ∀ handles h, env.stagedAt store id = some handles →
    handles[index]? = some h → ¬ Receipted env store id h

/-- The checkpoint is next in order: above every confirmed one, and every
completed one below it was confirmed. -/
def InOrder (env : Environment) (store : List Char → Option (List Char)) (confirmed id : Nat)
    (log : List Action) : Prop :=
  (∀ j written, .confirmed j written ∈ log → j < id) ∧
    ∀ j, confirmed < j → j < id → (store (env.completedKey j)).isSome →
      .confirmed j true ∈ log

/-- What the log before an action must show. -/
def Permitted (env : Environment) (store : List Char → Option (List Char)) (confirmed : Nat)
    (before : List Action) : Action → Prop
  | .probed id index _ => Quiet before ∧ Unproven env store id index before
  | .receipt id index _ => Quiet before ∧ AnsweredCommitted id index before
  | .confirmed id _ =>
      Quiet before ∧ AllCommitted env store id before ∧ InOrder env store confirmed id before
  | _ => True

section Checkpoint

variable {env : Environment} {store : List Char → Option (List Char)} {confirmed id : Nat}
  {handles : List StagedHandle} {slots done rest : List Slot} {s t : Slot} {w w' : Walk}
  {log log' : List Action} {result : InDoubtResolution}

/-! ## The handles of a checkpoint -/

/-- A handle's marks say what the log says of it. -/
structure SlotSound (env : Environment) (store : List Char → Option (List Char)) (id : Nat)
    (log : List Action) (s : Slot) : Prop where
  settled : s.committed = true →
    Receipted env store id s.staged ∨ AnsweredCommitted id s.index log
  fresh : Quiet log → s.committed = false →
    ¬ Receipted env store id s.staged ∧ ¬ AnsweredCommitted id s.index log

/-- Actions that do not answer that the handle is committed leave it sound. -/
theorem SlotSound.extend (h : SlotSound env store id log t)
    (hgrew : Grew (fun a => ∀ result, a = .probed id t.index result → result.committed = false)
      log log') : SlotSound env store id log' t := by
  constructor
  · intro hcommitted
    rcases h.settled hcommitted with hreceipt | ⟨result, hmem, hresult⟩
    · exact .inl hreceipt
    · exact .inr ⟨result, hgrew.mem hmem, hresult⟩
  · intro hquiet hcommitted
    have hwas : Quiet log := fun hmem => hquiet (hgrew.mem hmem)
    obtain ⟨hreceipt, hanswered⟩ := h.fresh hwas hcommitted
    refine ⟨hreceipt, ?_⟩
    rintro ⟨result, hmem, hresult⟩
    rcases hgrew.mem_or hmem with hmem | hnot
    · exact hanswered ⟨result, hmem, hresult⟩
    · rw [hnot result rfl] at hresult
      exact absurd hresult (by decide)

/-- The actions that need no permission. -/
def Action.IsFree : Action → Prop
  | .observed _ => True
  | .unresolved _ _ _ => True
  | .retired _ _ => True
  | _ => False

theorem lawful_of_free (h : Lawful (Permitted env store confirmed) log)
    (hgrew : Grew Action.IsFree log log') : Lawful (Permitted env store confirmed) log' := by
  refine h.grew (hgrew.imp ?_)
  intro a hfree before
  cases a <;> trivial

/-- A CONFIRMED record or a receipt that is not as it was before the walk was written by it: the
log says so, and names a handle of the receipt's subtask. -/
structure Written (env : Environment) (store : List Char → Option (List Char)) (w : Walk) :
    Prop where
  confirmed : ∀ j, w.store (env.confirmedKey j) ≠ store (env.confirmedKey j) →
    .confirmed j true ∈ w.log
  receipt : ∀ subtask j,
    w.store (env.receiptKey subtask j) ≠ store (env.receiptKey subtask j) →
      ∃ handles i h, env.stagedAt store j = some handles ∧ handles[i]? = some h ∧
        h.subtask = subtask ∧ .receipt j i true ∈ w.log

theorem written_start (env : Environment) (store : List Char → Option (List Char)) :
    Written env store ⟨store, []⟩ :=
  ⟨fun _ hne => absurd rfl hne, fun _ _ hne => absurd rfl hne⟩

section

variable (h : Written env store w)
include h

theorem Written.same (hlog : ∀ a ∈ w.log, a ∈ w'.log)
    (hconfirmed : ∀ j, w'.store (env.confirmedKey j) = w.store (env.confirmedKey j))
    (hreceipts : ∀ subtask j,
      w'.store (env.receiptKey subtask j) = w.store (env.receiptKey subtask j)) :
    Written env store w' := by
  constructor
  · intro j hne
    rw [hconfirmed] at hne
    exact hlog _ (h.confirmed j hne)
  · intro subtask j hne
    rw [hreceipts] at hne
    obtain ⟨handles, i, staged, hstaged, hi, hsubtask, hmem⟩ := h.receipt subtask j hne
    exact ⟨handles, i, staged, hstaged, hi, hsubtask, hlog _ hmem⟩

theorem Written.logged (a : Action) : Written env store { w with log := w.log ++ [a] } :=
  h.same (fun _ ha => List.mem_append_left _ ha) (fun _ => rfl) (fun _ _ => rfl)

theorem Written.retireMarker (s : Slot) : Written env store (env.retireMarker id s w) :=
  h.same (fun _ ha => List.mem_append_left _ ha)
    (fun j => Environment.retireMarker_other (env.confirmedKey_ne_markerKey j _ _))
    (fun subtask j => Environment.retireMarker_other (env.receiptKey_ne_markerKey subtask j _ _))

theorem Written.marks (hmarks : Marks env w w') : Written env store w' :=
  h.same (fun _ ha => hmarks.grew.mem ha)
    (fun j => hmarks.others _ fun subtask j' => env.confirmedKey_ne_markerKey j subtask j')
    hmarks.receipt

theorem Written.readReceipts (slots : List Slot) :
    Written env store (env.readReceipts id slots w).2 := by
  induction slots generalizing w with
  | nil => exact h
  | cons s rest ih =>
      unfold Environment.readReceipts
      split
      · exact ih (h.retireMarker s)
      · exact ih h

theorem Written.materialiseReceipt (hstaged : env.stagedAt store id = some handles)
    (hs : handles[s.index]? = some s.staged) :
    Written env store (env.materialiseReceipt id s w) := by
  unfold Environment.materialiseReceipt
  split
  · exact h
  · constructor
    · intro j hne
      rw [Environment.put_other (env.confirmedKey_ne_receiptKey j _ _)] at hne
      exact List.mem_append_left _ (h.confirmed j hne)
    · intro subtask j hne
      by_cases hlanded : env.written w = true ∧
          env.receiptKey subtask j = env.receiptKey s.staged.subtask id
      · obtain ⟨rfl, rfl⟩ := Environment.receiptKey_injective hlanded.2
        refine ⟨handles, s.index, s.staged, hstaged, hs, rfl, ?_⟩
        simp [Environment.put, hlanded.1]
      · have hsame : (env.put (env.receiptKey s.staged.subtask id)
            ("wm=".toList ++ env.horizon s.staged.handle ++ ['\n']) (.receipt id s.index)
            w).store (env.receiptKey subtask j) = w.store (env.receiptKey subtask j) := by
          by_cases hkey : env.receiptKey subtask j = env.receiptKey s.staged.subtask id
          · have hrefused : env.written w = false := by
              cases hw : env.written w with
              | false => rfl
              | true => exact absurd ⟨hw, hkey⟩ hlanded
            simp [Environment.put, hrefused]
          · exact Environment.put_other hkey
        rw [hsame] at hne
        obtain ⟨handles', i, staged, hstaged', hi, hsubtask, hmem⟩ := h.receipt subtask j hne
        exact ⟨handles', i, staged, hstaged', hi, hsubtask, List.mem_append_left _ hmem⟩

theorem Written.probe {probe : Environment.Probe} (hprobe : Probed env id s w probe)
    (hstaged : env.stagedAt store id = some handles) (hs : handles[s.index]? = some s.staged) :
    Written env store probe.walk := by
  have hasked : ∀ result, Written env store (env.observe (env.asked id s result w)) :=
    fun _ => ((h.logged _).logged _).logged _
  cases hprobe with
  | cancelled => exact h.logged _
  | unasked => exact h.logged _
  | tooLate result => exact hasked result
  | committed result => exact ((hasked result).materialiseReceipt hstaged hs).retireMarker s
  | inconclusive result => exact hasked result
  | refused result => exact (hasked result).retireMarker s

/-- The record of a checkpoint is logged, whether it landed or not. -/
theorem Written.confirm (id : Nat) :
    Written env store
      (env.put (env.confirmedKey id) (env.confirmedBody id) (.confirmed id) w) := by
  constructor
  · intro j hne
    by_cases hlanded : env.written w = true ∧ j = id
    · obtain ⟨hwritten, rfl⟩ := hlanded
      simp [Environment.put, hwritten]
    · refine List.mem_append_left _ (h.confirmed j fun hsame => hne ?_)
      rw [← hsame]
      by_cases hj : j = id
      · have hrefused : env.written w = false := by
          cases hw : env.written w with
          | false => rfl
          | true => exact absurd ⟨hw, hj⟩ hlanded
        simp [Environment.put, hrefused]
      · refine Environment.put_other fun hkey => hj ?_
        exact decimal_injective (List.append_cancel_left (List.append_cancel_left hkey))
  · intro subtask j hne
    rw [Environment.put_other (env.confirmedKey_ne_receiptKey id subtask j).symm] at hne
    obtain ⟨handles, i, staged, hstaged, hi, hsubtask, hmem⟩ := h.receipt subtask j hne
    exact ⟨handles, i, staged, hstaged, hi, hsubtask, List.mem_append_left _ hmem⟩

end

/-- While a checkpoint's handles are walked. -/
structure Probing (env : Environment) (store : List Char → Option (List Char))
    (confirmed id : Nat) (handles : List StagedHandle) (slots : List Slot) (w : Walk) : Prop where
  lawful : Lawful (Permitted env store confirmed) w.log
  placed : Placed handles slots
  sound : ∀ s ∈ slots, SlotSound env store id w.log s
  written : Written env store w

theorem Probing.observe (h : Probing env store confirmed id handles slots w) :
    Probing env store confirmed id handles slots (env.observe w) where
  lawful := lawful_of_free h.lawful (.snoc trivial)
  placed := h.placed
  sound := fun s hs => (h.sound s hs).extend (.snoc fun _ heq => by cases heq)
  written := h.written.logged _

/-- A handle that is not marked committed may be asked about. -/
theorem Probing.asked (h : Probing env store confirmed id handles slots w)
    (hstaged : env.stagedAt store id = some handles) (hs : s ∈ slots)
    (hcommitted : s.committed = false) (hquiet : Quiet w.log) (hcancel : env.cancelled w = false) :
    Lawful (Permitted env store confirmed) (env.asked id s result w).log := by
  have hobserved := hquiet.observe hcancel
  obtain ⟨hreceipt, hanswered⟩ := (h.observe.sound s hs).fresh hobserved hcommitted
  refine h.observe.lawful.snoc ⟨hobserved, hanswered, ?_⟩
  intro handles' staged hstaged' hindex
  obtain rfl : handles = handles' := by
    rw [hstaged] at hstaged'
    exact Option.some.inj hstaged'
  obtain rfl : s.staged = staged := by
    rw [h.placed.staged hs] at hindex
    exact Option.some.inj hindex
  exact hreceipt

theorem Probing.lawful_probe {probe : Environment.Probe} (hprobe : Probed env id s w probe)
    (h : Probing env store confirmed id handles slots w)
    (hstaged : env.stagedAt store id = some handles) (hs : s ∈ slots)
    (hcommitted : s.committed = false) (hquiet : Quiet w.log) :
    Lawful (Permitted env store confirmed) probe.walk.log := by
  have hobserved : ∀ result, env.cancelled w = false → Lawful (Permitted env store confirmed)
      (env.observe (env.asked id s result w)).log := fun _ hcancel =>
    lawful_of_free (h.asked hstaged hs hcommitted hquiet hcancel) (.snoc trivial)
  cases hprobe with
  | cancelled => exact h.observe.lawful
  | unasked => exact h.observe.lawful
  | tooLate result hcancel => exact hobserved result hcancel
  | committed result hcancel hlate hresult =>
      have hquiet' : Quiet (env.observe (env.asked id s result w)).log :=
        (hquiet.asked hcancel result).observe hlate
      have hanswered :
          AnsweredCommitted id s.index (env.observe (env.asked id s result w)).log :=
        ⟨result, mem_observe_asked env id s w result, hresult⟩
      have hpermitted : ∀ written, Permitted env store confirmed
          (env.observe (env.asked id s result w)).log (.receipt id s.index written) :=
        fun _ => ⟨hquiet', hanswered⟩
      have hreceipt : Lawful (Permitted env store confirmed)
          (env.materialiseReceipt id s (env.observe (env.asked id s result w))).log := by
        unfold Environment.materialiseReceipt
        split
        · exact hobserved result hcancel
        · exact (hobserved result hcancel).snoc (hpermitted _)
      exact lawful_of_free hreceipt (.snoc trivial)
  | inconclusive result hcancel => exact hobserved result hcancel
  | refused result hcancel =>
      exact lawful_of_free (hobserved result hcancel) (.snoc trivial)

theorem SlotSound.probe {probe : Environment.Probe} (hprobe : Probed env id s w probe)
    (h : SlotSound env store id w.log s) (hcommitted : s.committed = false) :
    SlotSound env store id probe.walk.log probe.slot := by
  have hrefused : ∀ result : InDoubtResolution, result.committed = false →
      SlotSound env store id (env.observe (env.asked id s result w)).log s := by
    intro result hresult
    refine h.extend (((Grew.snoc ?_).trans (.snoc ?_)).trans (.snoc ?_))
    · intro _ heq
      cases heq
    · intro _ heq
      cases heq
      exact hresult
    · intro _ heq
      cases heq
  cases hprobe with
  | cancelled => exact h.extend (.snoc fun _ heq => by cases heq)
  | unasked => exact h.extend (.snoc fun _ heq => by cases heq)
  | tooLate result hcancel hlate =>
      -- the answer is in the log, but so is the flag
      have hseen : .observed true ∈ (env.observe (env.asked id s result w)).log := by
        simp [Environment.observe, hlate]
      exact ⟨fun hyes => absurd hyes (by simp [hcommitted]), fun hquiet => absurd hseen hquiet⟩
  | committed result hcancel hlate hresult =>
      have hmem := mem_observe_asked env id s w result
      refine ⟨fun _ => .inr ⟨result, ?_, hresult⟩, fun _ hno => absurd hno (by simp)⟩
      exact (Within.materialiseReceipt.trans Within.retireMarker).grew.mem hmem
  | inconclusive result hcancel hlate hresult => exact hrefused result hresult
  | refused result hcancel hlate hresult =>
      have hsame : SlotSound env store id
          (env.retireMarker id s (env.observe (env.asked id s result w))).log s :=
        (hrefused result hresult).extend (.snoc fun _ heq => by cases heq)
      exact ⟨hsame.settled, hsame.fresh⟩

theorem Probing.step (hstaged : env.stagedAt store id = some handles)
    (hcommitted : s.committed = false) (hquiet : Quiet w.log)
    (h : Probing env store confirmed id handles (done ++ s :: rest) w) :
    Probing env store confirmed id handles (done ++ (env.probeHandle id s w).slot :: rest)
      (env.probeHandle id s w).walk := by
  have hprobe := probed_probeHandle env id s w
  generalize env.probeHandle id s w = probe at hprobe ⊢
  have hs : s ∈ done ++ s :: rest := by simp
  constructor
  · exact h.lawful_probe hprobe hstaged hs hcommitted hquiet
  · exact h.placed.replace hprobe.same
  · have hother : ∀ t ∈ done ++ rest, SlotSound env store id probe.walk.log t := by
      intro t ht
      have hne := h.placed.index_ne ht
      have hmem : t ∈ done ++ s :: rest := by
        rcases List.mem_append.mp ht with ht | ht
        · exact List.mem_append_left _ ht
        · exact List.mem_append_right _ (List.mem_cons_of_mem _ ht)
      refine (h.sound t hmem).extend (hprobe.grew ?_ ?_ ?_ ?_)
      · intro _ _ heq
        cases heq
      · intro _ _ heq
        exact absurd (Action.probed.inj heq).2.1.symm hne
      · intro _ _ heq
        cases heq
      · intro _ heq
        cases heq
    intro t ht
    rcases List.mem_append.mp ht with ht | ht
    · exact hother t (List.mem_append_left _ ht)
    · rcases List.mem_cons.mp ht with ht | ht
      · rw [ht]
        exact (h.sound s hs).probe hprobe hcommitted
      · exact hother t (List.mem_append_right _ ht)
  · exact h.written.probe hprobe hstaged (h.placed.staged hs)

/-! ## One checkpoint of the walk -/

/-- An action at a checkpoint below `id`. -/
def Action.Below (id : Nat) : Action → Prop
  | .probed j _ _ => j < id
  | .receipt j _ _ => j < id
  | .confirmed j _ => j < id
  | _ => True

theorem Action.Below.succ {a : Action} (h : a.Below id) : a.Below (id + 1) := by
  cases a with
  | probed j index result => exact Nat.lt_succ_of_lt h
  | receipt j index written => exact Nat.lt_succ_of_lt h
  | confirmed j written => exact Nat.lt_succ_of_lt h
  | observed cancelled => trivial
  | unresolved j index written => trivial
  | retired j index => trivial

/-- Before checkpoint `id` of the walk. -/
structure Reached (env : Environment) (store : List Char → Option (List Char))
    (confirmed id : Nat) (w : Walk) : Prop where
  lawful : Lawful (Permitted env store confirmed) w.log
  quiet : Quiet w.log
  below : ∀ a ∈ w.log, a.Below id
  completed : ∀ j, w.store (env.completedKey j) = store (env.completedKey j)
  receipts : ∀ subtask j, id ≤ j →
    w.store (env.receiptKey subtask j) = store (env.receiptKey subtask j)
  all : ∀ j, confirmed < j → j < id → (store (env.completedKey j)).isSome →
    .confirmed j true ∈ w.log
  kept : ∀ j, .confirmed j true ∈ w.log → (w.store (env.confirmedKey j)).isSome
  written : Written env store w

theorem reached_start (env : Environment) (store : List Char → Option (List Char))
    (confirmed : Nat) : Reached env store confirmed (confirmed + 1) ⟨store, []⟩ where
  lawful := .nil
  quiet := by simp [Quiet]
  below := by simp
  completed := fun _ => rfl
  receipts := fun _ _ _ => rfl
  all := by
    intro j hlow hhigh
    omega
  kept := by simp
  written := written_start env store

section

variable (h : Reached env store confirmed id w)
include h

theorem Reached.skip (hnone : w.store (env.completedKey id) = none) :
    Reached env store confirmed (id + 1) w where
  lawful := h.lawful
  quiet := h.quiet
  below := fun a ha => (h.below a ha).succ
  completed := h.completed
  receipts := fun subtask j hj => h.receipts subtask j (by omega)
  all := by
    intro j hlow hhigh hsome
    by_cases hj : j = id
    · rw [hj, ← h.completed, hnone] at hsome
      exact absurd hsome (by simp)
    · exact h.all j hlow (by omega) hsome
  kept := h.kept
  written := h.written

theorem Reached.probing (handles : List StagedHandle) :
    Probing env store confirmed id handles
      (env.readReceipts id (Environment.slotsFrom 0 handles) w).1
      (env.readReceipts id (Environment.slotsFrom 0 handles) w).2 := by
  have hgrew : Grew (fun a => ∃ index, a = .retired id index) w.log
      (env.readReceipts id (Environment.slotsFrom 0 handles) w).2.log :=
    Environment.grew_readReceipts (fun index => ⟨index, rfl⟩) _ _
  have hunasked : ∀ index, ¬ AnsweredCommitted id index
      (env.readReceipts id (Environment.slotsFrom 0 handles) w).2.log := by
    rintro index ⟨result, hmem, -⟩
    rcases hgrew.mem_or hmem with hmem | ⟨_, hretired⟩
    · exact absurd (h.below _ hmem) (Nat.lt_irrefl id)
    · cases hretired
  constructor
  · refine lawful_of_free h.lawful (hgrew.imp ?_)
    rintro a ⟨index, rfl⟩
    trivial
  · exact Environment.placed_readReceipts handles w
  · intro s hs
    rw [Environment.readReceipts_slots] at hs
    obtain ⟨s', hs', heq⟩ := List.mem_map.mp hs
    rw [h.receipts _ _ (Nat.le_refl id)] at heq
    obtain ⟨hcommitted, -⟩ := fresh_of_mem_slotsFrom hs'
    split at heq
    · rename_i hreceipt
      rw [← heq]
      exact ⟨fun _ => .inl hreceipt, fun _ hno => absurd hno (by simp)⟩
    · rename_i hreceipt
      rw [← heq]
      exact ⟨fun hyes => absurd hyes (by simp [hcommitted]),
        fun _ _ => ⟨hreceipt, hunasked s'.index⟩⟩
  · exact h.written.readReceipts _

omit h in
/-- Handles all marked committed allow the confirmation. -/
theorem Probing.allCommitted (h : Probing env store confirmed id handles slots w)
    (hstaged : env.stagedAt store id = some handles)
    (hall : ∀ s ∈ slots, s.committed = true) : AllCommitted env store id w.log := by
  refine ⟨handles, hstaged, ?_⟩
  intro i staged hi
  obtain ⟨s, hs, hindex, hplaced⟩ := h.placed.exists_slot hi
  rw [← hindex, ← hplaced]
  exact (h.sound s hs).settled (hall s hs)

theorem Reached.below_of_within (hwithin : Within env id w w') :
    ∀ a ∈ w'.log, a.Below (id + 1) := by
  intro a ha
  rcases hwithin.grew.mem_or ha with ha | hregards
  · exact (h.below a ha).succ
  · cases a with
    | probed j index result => exact Nat.lt_succ_of_le (Nat.le_of_eq hregards)
    | receipt j index written => exact Nat.lt_succ_of_le (Nat.le_of_eq hregards)
    | confirmed j written => exact hregards.elim
    | observed cancelled => trivial
    | unresolved j index written => trivial
    | retired j index => trivial

omit h in
/-- A confirmation while a checkpoint is walked was there before. -/
theorem Within.confirmed_mem (h : Within env id w w') {j : Nat} {written : Bool}
    (hmem : .confirmed j written ∈ w'.log) : .confirmed j written ∈ w.log := by
  rcases h.grew.mem_or hmem with hmem | hno
  · exact hmem
  · exact hno.elim

theorem Reached.inOrder (hwithin : Within env id w w') : InOrder env store confirmed id w'.log := by
  constructor
  · intro j written hmem
    exact h.below _ (hwithin.confirmed_mem hmem)
  · intro j hlow hhigh hsome
    exact hwithin.grew.mem (h.all j hlow hhigh hsome)

/-- A written confirmation reaches the next checkpoint. -/
theorem Reached.confirm (hwithin : Within env id w w')
    (hquiet : Quiet w'.log) (hwrites : Written env store w') (hwritten : env.written w' = true)
    (hlawful : Lawful (Permitted env store confirmed)
      (env.put (env.confirmedKey id) (env.confirmedBody id) (.confirmed id) w').log) :
    Reached env store confirmed (id + 1)
      (env.put (env.confirmedKey id) (env.confirmedBody id) (.confirmed id) w') where
  lawful := hlawful
  quiet := by
    unfold Quiet at hquiet ⊢
    simpa [Environment.put] using hquiet
  below := by
    intro a ha
    rcases List.mem_append.mp ha with ha | ha
    · exact h.below_of_within hwithin a ha
    · rw [List.mem_singleton.mp ha]
      exact Nat.lt_succ_self id
  completed := by
    intro j
    rw [Environment.put_other (env.completedKey_ne_confirmedKey j id), hwithin.completed,
      h.completed]
  receipts := by
    intro subtask j hj
    rw [Environment.put_other (env.confirmedKey_ne_receiptKey id subtask j).symm,
      hwithin.receipts subtask j (by omega), h.receipts subtask j (by omega)]
  all := by
    intro j hlow hhigh hsome
    by_cases hj : j = id
    · rw [hj]
      simp [Environment.put, hwritten]
    · exact List.mem_append_left _ (hwithin.grew.mem (h.all j hlow (by omega) hsome))
  kept := by
    intro j hmem
    rcases List.mem_append.mp hmem with hmem | hmem
    · exact Environment.put_kept (hwithin.confirmedKept j (h.kept j (hwithin.confirmed_mem hmem)))
    · obtain ⟨rfl, -⟩ := Action.confirmed.inj (List.mem_singleton.mp hmem)
      rw [Environment.put_written hwritten]
      rfl
  written := hwrites.confirm id

/-- What a checkpoint leaves for the walk. -/
def Leaves (env : Environment) (store : List Char → Option (List Char)) (confirmed id : Nat)
    (w : Walk) : Environment.Outcome × Walk → Prop
  | (.stopped _, w') => Lawful (Permitted env store confirmed) w'.log ∧ Written env store w' ∧
      ∀ j, (w.store (env.confirmedKey j)).isSome → (w'.store (env.confirmedKey j)).isSome
  | (_, w') => Reached env store confirmed (id + 1) w'

omit h in
/-- A checkpoint that stops after markers were written. -/
theorem leaves_of_marks {why : Environment.Stop} {w'' : Walk}
    (hlawful : Lawful (Permitted env store confirmed) w'.log) (hwrites : Written env store w')
    (hkept : ∀ j, (w.store (env.confirmedKey j)).isSome → (w'.store (env.confirmedKey j)).isSome)
    (hmarks : Marks env w' w'') : Leaves env store confirmed id w (.stopped why, w'') := by
  refine ⟨lawful_of_free hlawful (hmarks.grew.imp ?_), hwrites.marks hmarks,
    fun j hj => hmarks.kept _ (hkept j hj)⟩
  intro a ha
  cases a <;> trivial

theorem Reached.decideCheckpoint
    (hstaged : env.stagedAt store id = some handles) {tried : Environment.Attempted}
    (hprobing : Probing env store confirmed id handles tried.slots tried.walk)
    (hwithin : Within env id w tried.walk)
    (hdone : tried.allCommitted = true →
      Quiet tried.walk.log ∧ ∀ s ∈ tried.slots, s.committed = true) (completed : Nat) :
    Leaves env store confirmed id w (env.decideCheckpoint completed id tried) := by
  have hobserved := hprobing.observe
  have hwithin' := hwithin.trans Within.observe
  unfold Environment.decideCheckpoint
  split
  · rename_i hall
    obtain ⟨hquiet, hcommitted⟩ := hdone hall
    split
    · exact leaves_of_marks hobserved.lawful hobserved.written hwithin'.confirmedKept
        (.markLaterUnreceipted completed id _)
    · rename_i hcancel
      have hquiet' := hquiet.observe (Bool.eq_false_of_not_eq_true hcancel)
      have hpermitted : ∀ written, Permitted env store confirmed (env.observe tried.walk).log
          (.confirmed id written) := fun _ =>
        ⟨hquiet', hobserved.allCommitted hstaged hcommitted, h.inOrder hwithin'⟩
      have hlawful := hobserved.lawful.snoc (hpermitted (env.written (env.observe tried.walk)))
      dsimp only
      split
      · rename_i hwritten
        exact h.confirm hwithin' hquiet' hobserved.written hwritten hlawful
      · exact leaves_of_marks hlawful (hobserved.written.confirm id)
          (fun j hj => Environment.put_kept (hwithin'.confirmedKept j hj))
          (.markLaterUnreceipted completed id _)
  · exact leaves_of_marks hobserved.lawful hobserved.written hwithin'.confirmedKept
      ((Marks.persistUnresolvedMarkers id tried.slots _).trans
        (.markLaterUnreceipted completed id _))

theorem Reached.resolveHandles (hstaged : env.stagedAt store id = some handles) (completed : Nat) :
    Leaves env store confirmed id w (env.resolveHandles completed id handles w) := by
  have hprobing := (h.probing handles).observe
  have hread : Within env id w (env.observe
      (env.readReceipts id (Environment.slotsFrom 0 handles) w).2) :=
    (Environment.within_readReceipts _ w).trans Within.observe
  have hquiet : Quiet (env.readReceipts id (Environment.slotsFrom 0 handles) w).2.log :=
    Environment.quiet_readReceipts _ h.quiet
  unfold Environment.resolveHandles
  dsimp only
  split
  · exact leaves_of_marks hprobing.lawful hprobing.written hread.confirmedKept
      (.persistUnresolvedMarkers id _ _)
  · rename_i hcancel
    have hquiet' := hquiet.observe (Bool.eq_false_of_not_eq_true hcancel)
    refine h.decideCheckpoint hstaged ?_ ?_ (Environment.attempts_done _ hquiet') completed
    · exact Environment.attempts_keeps
        (fun _ _ _ _ hcommitted hquiet hp => hp.step hstaged hcommitted hquiet)
        (fun _ _ hp => hp.observe) _ hquiet' hprobing
    · exact hread.trans (Environment.within_attempts _ hquiet')

theorem Reached.resolveCheckpoint (completed : Nat) :
    Leaves env store confirmed id w (env.resolveCheckpoint completed id w) := by
  have hstop : ∀ why, Leaves env store confirmed id w
      (.stopped why, env.markLaterUnreceipted completed id w) := fun _ =>
    leaves_of_marks h.lawful h.written (fun _ hj => hj) (.markLaterUnreceipted completed id w)
  unfold Environment.resolveCheckpoint
  split
  · rename_i hnone
    exact h.skip hnone
  · rename_i body hbody
    split
    · exact hstop _
    · rename_i info hinfo
      split
      · exact hstop _
      · exact hstop _
      · rename_i first rest hhandles
        refine h.resolveHandles ?_ completed
        rw [h.completed] at hbody
        rw [Environment.stagedAt, hbody]
        dsimp only
        rw [hinfo]
        exact hhandles

end

/-! ## The whole walk -/

theorem Reached.resolveIds {reached : Nat} (completed n : Nat)
    (h : Reached env store confirmed id w) (hreached : reached < id) :
    Lawful (Permitted env store confirmed)
        (env.resolveIds completed (List.range' id n) reached w).walk.log ∧
      Written env store (env.resolveIds completed (List.range' id n) reached w).walk ∧
      ∀ j, confirmed < j → j ≤ (env.resolveIds completed (List.range' id n) reached w).confirmed →
        (store (env.completedKey j)).isSome →
        ((env.resolveIds completed (List.range' id n) reached w).walk.store
          (env.confirmedKey j)).isSome := by
  induction n generalizing id w reached with
  | zero =>
      refine ⟨h.lawful, h.written, ?_⟩
      intro j hlow hhigh hsome
      exact h.kept j (h.all j hlow (Nat.lt_of_le_of_lt hhigh hreached) hsome)
  | succ n ih =>
      rw [List.range'_succ]
      have hleaves := h.resolveCheckpoint completed
      unfold Environment.resolveIds
      generalize env.resolveCheckpoint completed id w = outcome at hleaves ⊢
      obtain ⟨outcome, w'⟩ := outcome
      cases outcome with
      | skipped => exact ih hleaves (Nat.lt_succ_of_lt hreached)
      | confirmed => exact ih hleaves (Nat.lt_succ_self id)
      | stopped why =>
          refine ⟨hleaves.1, hleaves.2.1, ?_⟩
          intro j hlow hhigh hsome
          exact hleaves.2.2 j (h.kept j (h.all j hlow (Nat.lt_of_le_of_lt hhigh hreached) hsome))

end Checkpoint

/-- A probe, or a write of a receipt or of CONFIRMED. -/
def Action.IsEffect : Action → Prop
  | .probed _ _ _ => True
  | .receipt _ _ _ => True
  | .confirmed _ _ => True
  | _ => False

/-- What a walk over the checkpoints above `confirmed` promises of what it
confirmed.  A walk starts from `store`, and `r` is what it returned. -/
structure ConfirmationSound (env : Environment) (store : List Char → Option (List Char))
    (confirmed : Nat) (r : Environment.Result) : Prop where
  /-- CONFIRMED is written only when every staged handle is receipted or was
  answered committed before. -/
  committed : ∀ before id written after, r.walk.log = before ++ .confirmed id written :: after →
    AllCommitted env store id before
  /-- Checkpoints are confirmed in increasing order, none that completed skipped. -/
  inOrder : ∀ before id written after, r.walk.log = before ++ .confirmed id written :: after →
    InOrder env store confirmed id before
  /-- Up to the returned id, every completed checkpoint has its CONFIRMED record. -/
  recorded : ∀ id, confirmed < id → id ≤ r.confirmed → (store (env.completedKey id)).isSome →
    (r.walk.store (env.confirmedKey id)).isSome
  /-- A handle answered committed, or with a receipt, is not probed again. -/
  probedOnce : ∀ before id index result after,
    r.walk.log = before ++ .probed id index result :: after → Unproven env store id index before
  /-- Nothing is probed and no receipt or CONFIRMED is written once the flag was
  seen set. -/
  quietAfter : ∀ before after, r.walk.log = before ++ .observed true :: after →
    ∀ a ∈ after, ¬ a.IsEffect
  /-- What is new among the CONFIRMED records and the receipts is in the log. -/
  written : Written env store r.walk

private theorem quiet_of_effect {env : Environment} {store : List Char → Option (List Char)}
    {confirmed : Nat} {before : List Action} {a : Action}
    (h : Permitted env store confirmed before a) (heffect : a.IsEffect) : Quiet before := by
  cases a with
  | probed id index result => exact h.1
  | receipt id index written => exact h.1
  | confirmed id written => exact h.1
  | observed cancelled => exact heffect.elim
  | unresolved id index written => exact heffect.elim
  | retired id index => exact heffect.elim

theorem confirmation_sound (env : Environment) (store : List Char → Option (List Char))
    (confirmed completed : Nat) :
    ConfirmationSound env store confirmed
      (env.resolveInDoubtCommits store confirmed completed) := by
  have hstart := reached_start env store confirmed
  have hwalk : Lawful (Permitted env store confirmed)
        (env.resolveInDoubtCommits store confirmed completed).walk.log ∧
      Written env store (env.resolveInDoubtCommits store confirmed completed).walk ∧
      ∀ j, confirmed < j → j ≤ (env.resolveInDoubtCommits store confirmed completed).confirmed →
        (store (env.completedKey j)).isSome →
        ((env.resolveInDoubtCommits store confirmed completed).walk.store
          (env.confirmedKey j)).isSome := by
    unfold Environment.resolveInDoubtCommits
    split
    · refine ⟨.nil, written_start env store, ?_⟩
      intro j hlow hhigh
      exact absurd hlow (Nat.not_lt_of_le hhigh)
    · exact hstart.resolveIds completed _ (Nat.lt_succ_self confirmed)
  obtain ⟨hlawful, hwritten, hrecorded⟩ := hwalk
  constructor
  · intro before id written after hlog
    exact (hlawful before _ after hlog).2.1
  · intro before id written after hlog
    exact (hlawful before _ after hlog).2.2
  · exact hrecorded
  · intro before id index result after hlog
    exact (hlawful before _ after hlog).2
  · intro before after hlog a ha heffect
    obtain ⟨between, later, hafter⟩ := List.append_of_mem ha
    rw [hafter, ← List.cons_append, ← List.append_assoc] at hlog
    have hquiet := quiet_of_effect (hlawful _ a later hlog) heffect
    exact hquiet (by simp)
  · exact hwritten

end Clink.Ports.InDoubt

import Mathlib.Algebra.Order.BigOperators.Group.List
import Mathlib.Algebra.Order.Ring.Nat
import Mathlib.Data.List.Induction
import Mathlib.Order.Fin.Basic

/-!
# Memory budgets

The embedding of `MemoryBudget` and `MemoryReservation`
(`include/clink/runtime/memory_budget.hpp`).  A budget has a limit and a parent;
a reservation is charged to a budget and to all budgets above it, or to none of
them when one refuses.

`acquire_spec` and `release_spec` say what the two walks up the tree do to every
budget.  `resize_spec` puts them together: the amounts and the reservation resized
move by the same number (`Settles`).  Every operation on reservations is a resize
and a change of owner, so the amounts of a budget are always what the live
reservations below it add up to (`Accounts`).
-/

namespace Clink.Ports.MemoryBudget

/-! ## Budgets -/

def memoryCategoryNames : List String := ["state", "queue", "arrow", "checkpoint"]

/-- `std::numeric_limits<std::size_t>::max()`. -/
def maxSize : UInt64 := UInt64.ofNatLT (2 ^ 64 - 1) (by decide)

structure Usage where
  used : UInt64 := 0
  peak : UInt64 := 0
  refused : UInt64 := 0
  categories : Nat → UInt64 := fun _ => 0

/-- Budgets, each made after its parent. -/
structure Tree where
  size : Nat
  limit : Fin size → UInt64
  name : Fin size → String
  parent : Fin size → Option (Fin size)
  older : ∀ node above, parent node = some above → above < node

abbrev Tree.Node (T : Tree) := Fin T.size

abbrev Tree.Usages (T : Tree) := T.Node → Usage

inductive Refusal
  | invalidCategory
  | limitExceeded (budget : String) (category : String) (requested used limit : UInt64)

def Refusal.what : Refusal → String
  | invalidCategory => "invalid memory category"
  | limitExceeded budget category requested used limit =>
      "MEMORY_LIMIT_EXCEEDED budget=" ++ budget ++ " category=" ++ category ++ " requested=" ++
        toString requested.toNat ++ " used=" ++ toString used.toNat ++ " limit=" ++
        toString limit.toNat

def Usage.charge (u : Usage) (bytes : UInt64) (category : Nat) : Usage :=
  { u with
    used := u.used + bytes
    categories := Function.update u.categories category (u.categories category + bytes)
    peak := max u.peak (u.used + bytes) }

def Usage.discharge (u : Usage) (bytes : UInt64) (category : Nat) : Usage :=
  { u with
    used := u.used - bytes
    categories := Function.update u.categories category (u.categories category - bytes) }

namespace Tree

variable (T : Tree)

/-- The test of one budget. -/
def Refuses (node : T.Node) (u : Usage) (bytes : UInt64) : Prop :=
  maxSize - u.used < bytes ∨ (T.limit node ≠ 0 ∧ T.limit node - u.used < bytes)

instance (node : T.Node) (u : Usage) (bytes : UInt64) : Decidable (T.Refuses node u bytes) :=
  inferInstanceAs (Decidable (_ ∨ _ ∧ _))

/-- A budget and those above it. -/
def path (node : T.Node) : List T.Node :=
  node :: match _h : T.parent node with
    | none => []
    | some above => path above
termination_by node.val
decreasing_by exact T.older node above _h

/-- A budget asks those above it before it takes, and counts its own refusals. -/
def acquireAlong (us : T.Usages) (bytes : UInt64) (category : Nat) (categoryName : String) :
    List T.Node → T.Usages × Option Refusal
  | [] => (us, none)
  | node :: above =>
      if T.Refuses node (us node) bytes then
        (Function.update us node { us node with refused := (us node).refused + 1 },
          some (.limitExceeded (T.name node) categoryName bytes (us node).used (T.limit node)))
      else
        match acquireAlong us bytes category categoryName above with
        | (us, some e) => (us, some e)
        | (us, none) => (Function.update us node ((us node).charge bytes category), none)

def acquire (us : T.Usages) (node : T.Node) (bytes : UInt64) (category : Nat) :
    T.Usages × Option Refusal :=
  match memoryCategoryNames[category]? with
  | none => (us, some .invalidCategory)
  | some categoryName => T.acquireAlong us bytes category categoryName (T.path node)

def release (us : T.Usages) (node : T.Node) (bytes : UInt64) (category : Nat) : T.Usages :=
  (T.path node).foldl (fun us n => Function.update us n ((us n).discharge bytes category)) us

end Tree

/-! ## Reservations -/

structure Reservation (T : Tree) where
  budget : Option T.Node := none
  category : Nat := 0
  bytes : UInt64 := 0

namespace Reservation

variable {T : Tree}

def resize (us : T.Usages) (r : Reservation T) (bytes : UInt64) :
    (T.Usages × Reservation T) × Option Refusal :=
  match r.budget with
  | none => ((us, { r with bytes := bytes }), none)
  | some node =>
      if r.bytes < bytes then
        match T.acquire us node (bytes - r.bytes) r.category with
        | (us, some e) => ((us, r), some e)
        | (us, none) => ((us, { r with bytes := bytes }), none)
      else if bytes < r.bytes then
        ((T.release us node (r.bytes - bytes) r.category, { r with bytes := bytes }), none)
      else ((us, { r with bytes := bytes }), none)

/-- What a reservation is after it was moved from. -/
def movedFrom (r : Reservation T) : Reservation T := { r with budget := none, bytes := 0 }

end Reservation

/-- The budgets, and the reservations in the order they were made, those destroyed gone. -/
structure State (T : Tree) where
  usages : T.Usages := fun _ => {}
  slots : List (Option (Reservation T)) := []

inductive Operation (T : Tree)
  | construct (budget : Option T.Node) (category : Nat) (bytes : UInt64)
  | resize (index : Nat) (bytes : UInt64)
  | moveConstruct (source : Nat)
  | moveAssign (target source : Nat)
  | destroy (index : Nat)

variable {T : Tree}

def State.live (s : State T) (index : Nat) : Option (Reservation T) := s.slots[index]?.join

namespace State

variable (s : State T)

def construct (budget : Option T.Node) (category : Nat) (bytes : UInt64) :
    State T × Option Refusal :=
  let x := Reservation.resize s.usages { budget, category } bytes
  match x.2 with
  | none => ({ usages := x.1.1, slots := s.slots ++ [some x.1.2] }, none)
  | some e => ({ s with usages := x.1.1 }, some e)

def resize (index : Nat) (r : Reservation T) (bytes : UInt64) : State T × Option Refusal :=
  let x := r.resize s.usages bytes
  ({ usages := x.1.1, slots := s.slots.set index (some x.1.2) }, x.2)

def moveConstruct (source : Nat) (r : Reservation T) : State T :=
  { s with slots := s.slots.set source (some r.movedFrom) ++ [some r] }

def moveAssign (target source : Nat) (r other : Reservation T) : State T × Option Refusal :=
  let x := r.resize s.usages 0
  ({ usages := x.1.1
     slots := (s.slots.set target (some other)).set source (some other.movedFrom) }, x.2)

def destroy (index : Nat) (r : Reservation T) : State T × Option Refusal :=
  let x := r.resize s.usages 0
  ({ usages := x.1.1, slots := s.slots.set index none }, x.2)

end State

/-- An operation on a reservation that is not live does not occur, and does nothing here. -/
def step (s : State T) : Operation T → State T × Option Refusal
  | .construct budget category bytes => s.construct budget category bytes
  | .resize index bytes =>
      match s.live index with
      | none => (s, none)
      | some r => s.resize index r bytes
  | .moveConstruct source =>
      match s.live source with
      | none => (s, none)
      | some r => (s.moveConstruct source r, none)
  | .moveAssign target source =>
      match s.live target, s.live source with
      | some r, some other =>
          if target = source then (s, none) else s.moveAssign target source r other
      | _, _ => (s, none)
  | .destroy index =>
      match s.live index with
      | none => (s, none)
      | some r => s.destroy index r

def run (T : Tree) (ops : List (Operation T)) : State T :=
  ops.foldl (fun s op => (step s op).1) {}

/-! ## The walks up the tree -/

/-- One of the amounts of a budget: what is used, or what is used of a category. -/
def Usage.amount (u : Usage) : Option Nat → UInt64
  | none => u.used
  | some category => u.categories category

/-- The amounts that a category counts towards. -/
def Counts (a : Option Nat) (category : Nat) : Prop := a = none ∨ a = some category

instance (a : Option Nat) (category : Nat) : Decidable (Counts a category) :=
  inferInstanceAs (Decidable (_ ∨ _))

section Walks

variable {us : T.Usages} {bytes : UInt64} {category : Nat}

private theorem amount_update (change : UInt64 → UInt64) (u u' : Usage) (category : Nat)
    (hused : u'.used = change u.used) (hcategories : u'.categories =
      Function.update u.categories category (change (u.categories category))) (a : Option Nat) :
    u'.amount a = if Counts a category then change (u.amount a) else u.amount a := by
  cases a with
  | none => exact hused
  | some c =>
      change u'.categories c = _
      rw [hcategories]
      by_cases hc : c = category
      · subst hc
        rw [if_pos (.inr rfl)]
        exact Function.update_self _ _ _
      · have hnot : ¬ Counts (some c) category := by simpa [Counts] using hc
        rw [if_neg hnot]
        exact Function.update_of_ne hc _ _

theorem amount_charge (u : Usage) (bytes : UInt64) (category : Nat) (a : Option Nat) :
    (u.charge bytes category).amount a =
      if Counts a category then u.amount a + bytes else u.amount a :=
  amount_update (· + bytes) u _ category rfl rfl a

theorem amount_discharge (u : Usage) (bytes : UInt64) (category : Nat) (a : Option Nat) :
    (u.discharge bytes category).amount a =
      if Counts a category then u.amount a - bytes else u.amount a :=
  amount_update (· - bytes) u _ category rfl rfl a

private theorem path_eq (node : T.Node) :
    T.path node = [node] ∨ ∃ above, above < node ∧ T.path node = node :: T.path above := by
  rw [Tree.path]
  split
  · exact .inl rfl
  · rename_i above h
    exact .inr ⟨above, T.older node above h, rfl⟩

/-- The path goes to ever older budgets. -/
theorem pairwise_path (node : T.Node) :
    (T.path node).Pairwise (fun n m => m < n) ∧ ∀ n ∈ T.path node, n ≤ node := by
  induction node using WellFoundedLT.induction with
  | ind node ih =>
      rcases path_eq node with h | ⟨above, hlt, h⟩
      · rw [h]
        exact ⟨List.pairwise_singleton _ _, fun n hn => le_of_eq (List.mem_singleton.mp hn)⟩
      · obtain ⟨hpairwise, hle⟩ := ih above hlt
        rw [h]
        refine ⟨List.pairwise_cons.mpr ⟨fun n hn => lt_of_le_of_lt (hle n hn) hlt, hpairwise⟩, ?_⟩
        intro n hn
        rcases List.mem_cons.mp hn with rfl | hn
        · exact le_refl _
        · exact le_trans (hle n hn) (le_of_lt hlt)

private theorem update_if {path : List T.Node} (f g : T.Node → Usage) (node : T.Node)
    (hnot : node ∉ path) (hg : ∀ n, g n = if n ∈ path then f n else us n) (n : T.Node) :
    Function.update g node (f node) n = if n ∈ node :: path then f n else us n := by
  by_cases hn : n = node
  · subst hn
    rw [Function.update_self, if_pos List.mem_cons_self]
  · rw [Function.update_of_ne hn, hg n]
    simp only [List.mem_cons, hn, false_or]

private theorem acquireAlong_spec {path : List T.Node} (hpath : path.Nodup) (us : T.Usages)
    (bytes : UInt64) (category : Nat) (categoryName : String) :
    ((∃ e, (T.acquireAlong us bytes category categoryName path).2 = some e) ∧
      ∀ n a, ((T.acquireAlong us bytes category categoryName path).1 n).amount a =
        (us n).amount a) ∨
    ((T.acquireAlong us bytes category categoryName path).2 = none ∧
      (∀ n ∈ path, ¬ T.Refuses n (us n) bytes) ∧
      ∀ n, (T.acquireAlong us bytes category categoryName path).1 n =
        if n ∈ path then (us n).charge bytes category else us n) := by
  induction path with
  | nil => exact .inr ⟨rfl, nofun, fun n => rfl⟩
  | cons node above ih =>
      obtain ⟨hnot, habove⟩ := List.nodup_cons.mp hpath
      unfold Tree.acquireAlong
      by_cases hrefuses : T.Refuses node (us node) bytes
      · simp only [if_pos hrefuses]
        refine .inl ⟨⟨_, rfl⟩, fun n a => ?_⟩
        by_cases hn : n = node
        · subst hn
          rw [Function.update_self]
          cases a with
          | none | some c => rfl
        · rw [Function.update_of_ne hn]
      · simp only [if_neg hrefuses]
        cases hcall : T.acquireAlong us bytes category categoryName above with
        | mk us' result =>
            rw [hcall] at ih
            cases result with
            | some e =>
                rcases ih habove with ⟨-, hsame⟩ | ⟨hnone, -⟩
                · exact .inl ⟨⟨e, rfl⟩, hsame⟩
                · exact nomatch hnone
            | none =>
                rcases ih habove with ⟨⟨e, he⟩, -⟩ | ⟨-, hroom, htaken⟩
                · exact nomatch he
                · have hself : us' node = us node := (htaken node).trans (if_neg hnot)
                  refine .inr ⟨rfl, List.forall_mem_cons.mpr ⟨hrefuses, hroom⟩, fun n => ?_⟩
                  dsimp only
                  rw [hself]
                  exact update_if (fun n => (us n).charge bytes category) us' node hnot htaken n

/-- A refused acquisition leaves all amounts; one that is granted charges every budget of the
path, each of which had room. -/
theorem acquire_spec (us : T.Usages) (node : T.Node) (bytes : UInt64) (category : Nat) :
    ((∃ e, (T.acquire us node bytes category).2 = some e) ∧
      ∀ n a, ((T.acquire us node bytes category).1 n).amount a = (us n).amount a) ∨
    ((T.acquire us node bytes category).2 = none ∧
      (∀ n ∈ T.path node, ¬ T.Refuses n (us n) bytes) ∧
      ∀ n, (T.acquire us node bytes category).1 n =
        if n ∈ T.path node then (us n).charge bytes category else us n) := by
  unfold Tree.acquire
  cases memoryCategoryNames[category]? with
  | none => exact .inl ⟨⟨_, rfl⟩, fun _ _ => rfl⟩
  | some categoryName =>
      exact acquireAlong_spec ((pairwise_path node).1.imp ne_of_gt) us bytes category categoryName

private theorem foldl_discharge {path : List T.Node} (hpath : path.Nodup) (us : T.Usages)
    (n : T.Node) :
    path.foldl (fun us n => Function.update us n ((us n).discharge bytes category)) us n =
      if n ∈ path then (us n).discharge bytes category else us n := by
  induction path generalizing us with
  | nil => rfl
  | cons node above ih =>
      obtain ⟨hnot, habove⟩ := List.nodup_cons.mp hpath
      rw [List.foldl_cons, ih habove]
      by_cases hn : n = node
      · subst hn
        rw [if_neg hnot, if_pos List.mem_cons_self, Function.update_self]
      · rw [Function.update_of_ne hn]
        simp only [List.mem_cons, hn, false_or]

theorem release_spec (us : T.Usages) (node : T.Node) (bytes : UInt64) (category : Nat)
    (n : T.Node) : T.release us node bytes category n =
      if n ∈ T.path node then (us n).discharge bytes category else us n :=
  foldl_discharge ((pairwise_path node).1.imp ne_of_gt) us n

end Walks

/-! ## Resizing -/

/-- What a reservation adds to an amount of a budget. -/
def Reservation.charge (r : Reservation T) (a : Option Nat) (node : T.Node) : Nat :=
  match r.budget with
  | none => 0
  | some budget => if node ∈ T.path budget ∧ Counts a r.category then r.bytes.toNat else 0

def Limited (us : T.Usages) : Prop := ∀ n, T.limit n ≠ 0 → (us n).used ≤ T.limit n

/-- The amounts and the reservation move by the same number. -/
def Settles (us : T.Usages) (r : Reservation T) (us' : T.Usages) (r' : Reservation T) : Prop :=
  ∀ a n, ((us' n).amount a).toNat + r.charge a n = ((us n).amount a).toNat + r'.charge a n

/-- Every amount has the reservation in it, and no category is above the whole. -/
structure Covers (us : T.Usages) (r : Reservation T) : Prop where
  charge : ∀ a n, r.charge a n ≤ ((us n).amount a).toNat
  whole : ∀ a n, ((us n).amount a).toNat ≤ (us n).used.toNat

section Resize

variable {us : T.Usages} {r : Reservation T} {node n : T.Node} {bytes : UInt64}

theorem toNat_maxSize : maxSize.toNat = 2 ^ 64 - 1 := rfl

theorem room_of_not_refuses {u : Usage} (h : ¬ T.Refuses n u bytes)
    (hlimited : T.limit n ≠ 0 → u.used ≤ T.limit n) :
    u.used.toNat + bytes.toNat < 2 ^ 64 ∧ (T.limit n ≠ 0 → u.used + bytes ≤ T.limit n) := by
  unfold Tree.Refuses at h
  rw [not_or, UInt64.not_lt, not_and, UInt64.not_lt] at h
  obtain ⟨hmax, hlimit⟩ := h
  have hused : u.used ≤ maxSize := by
    rw [UInt64.le_iff_toNat_le, toNat_maxSize]
    exact Nat.le_pred_of_lt u.used.toNat_lt
  rw [UInt64.le_iff_toNat_le, UInt64.toNat_sub_of_le _ _ hused, toNat_maxSize] at hmax
  have hlt := u.used.toNat_lt
  have hroom : u.used.toNat + bytes.toNat < 2 ^ 64 := by omega
  refine ⟨hroom, fun hne => ?_⟩
  have hle := hlimited hne
  have hbytes := hlimit hne
  rw [UInt64.le_iff_toNat_le, UInt64.toNat_sub_of_le _ _ hle] at hbytes
  rw [UInt64.le_iff_toNat_le] at hle ⊢
  rw [UInt64.toNat_add, Nat.mod_eq_of_lt hroom]
  omega

theorem resize_shrinks (h : ¬ r.bytes < bytes) : (r.resize us bytes).2 = none := by
  unfold Reservation.resize
  cases r.budget with
  | none => rfl
  | some node =>
      dsimp only
      rw [if_neg h]
      split
      · rfl
      · rfl

private theorem toNat_amount_charge {u : Usage} {category : Nat} {a : Option Nat}
    (hroom : u.used.toNat + bytes.toNat < 2 ^ 64) (hwhole : (u.amount a).toNat ≤ u.used.toNat) :
    ((u.charge bytes category).amount a).toNat =
      (u.amount a).toNat + if Counts a category then bytes.toNat else 0 := by
  rw [amount_charge]
  split
  · rw [UInt64.toNat_add, Nat.mod_eq_of_lt (by omega)]
  · rfl

private theorem toNat_amount_discharge {u : Usage} {category : Nat} {a : Option Nat}
    (h : Counts a category → bytes.toNat ≤ (u.amount a).toNat) :
    ((u.discharge bytes category).amount a).toNat + (if Counts a category then bytes.toNat else 0) =
      (u.amount a).toNat := by
  rw [amount_discharge]
  by_cases hcounts : Counts a category
  · have hle := h hcounts
    rw [if_pos hcounts, if_pos hcounts, UInt64.toNat_sub_of_le _ _ (UInt64.le_iff_toNat_le.mpr hle)]
    omega
  · rw [if_neg hcounts, if_neg hcounts, Nat.add_zero]

theorem charge_budget (hbudget : r.budget = some node) (a : Option Nat) (n : T.Node) :
    r.charge a n = if n ∈ T.path node ∧ Counts a r.category then r.bytes.toNat else 0 := by
  unfold Reservation.charge
  rw [hbudget]

private theorem settles_grow {us' : T.Usages} (hbudget : r.budget = some node)
    (hcovers : Covers us r) (hlimited : Limited us) (hlt : r.bytes < bytes)
    (hroom : ∀ n ∈ T.path node, ¬ T.Refuses n (us n) (bytes - r.bytes))
    (htaken : ∀ n, us' n =
      if n ∈ T.path node then (us n).charge (bytes - r.bytes) r.category else us n) :
    Settles us r us' { r with bytes := bytes } ∧ Limited us' := by
  have hdiff : (bytes - r.bytes).toNat = bytes.toNat - r.bytes.toNat :=
    UInt64.toNat_sub_of_le _ _ (UInt64.le_of_lt hlt)
  have hbytes := UInt64.lt_iff_toNat_lt.mp hlt
  refine ⟨fun a n => ?_, fun n hne => ?_⟩
  · rw [htaken n, charge_budget hbudget, charge_budget (r := { r with bytes := bytes }) hbudget]
    by_cases hn : n ∈ T.path node
    · obtain ⟨hfits, -⟩ := room_of_not_refuses (hroom n hn) (hlimited n)
      rw [if_pos hn, toNat_amount_charge hfits (hcovers.whole a n), hdiff]
      simp only [hn, true_and]
      split <;> omega
    · simp only [hn, false_and, if_false]
  · rw [htaken n]
    by_cases hn : n ∈ T.path node
    · rw [if_pos hn]
      exact (room_of_not_refuses (hroom n hn) (hlimited n)).2 hne
    · rw [if_neg hn]
      exact hlimited n hne

private theorem settles_shrink (hbudget : r.budget = some node) (hcovers : Covers us r)
    (hlimited : Limited us) (hlt : bytes < r.bytes) :
    Settles us r (T.release us node (r.bytes - bytes) r.category) { r with bytes := bytes } ∧
      Limited (T.release us node (r.bytes - bytes) r.category) := by
  have hdiff : (r.bytes - bytes).toNat = r.bytes.toNat - bytes.toNat :=
    UInt64.toNat_sub_of_le _ _ (UInt64.le_of_lt hlt)
  have hbytes := UInt64.lt_iff_toNat_lt.mp hlt
  have hamount : ∀ a n, n ∈ T.path node → Counts a r.category →
      (r.bytes - bytes).toNat ≤ ((us n).amount a).toNat := by
    intro a n hn hcounts
    have hcharge := hcovers.charge a n
    rw [charge_budget hbudget, if_pos ⟨hn, hcounts⟩] at hcharge
    omega
  refine ⟨fun a n => ?_, fun n hne => ?_⟩
  · rw [release_spec, charge_budget hbudget,
      charge_budget (r := { r with bytes := bytes }) hbudget]
    by_cases hn : n ∈ T.path node
    · have hback := toNat_amount_discharge (hamount a n hn)
      rw [if_pos hn]
      simp only [hn, true_and]
      rw [hdiff] at hback
      by_cases hcounts : Counts a r.category
      · simp only [if_pos hcounts] at hback ⊢
        omega
      · simp only [if_neg hcounts] at hback ⊢
        exact hback
    · simp only [hn, false_and, if_false]
  · rw [release_spec]
    by_cases hn : n ∈ T.path node
    · have hle := hamount none n hn (.inl rfl)
      rw [if_pos hn]
      refine UInt64.le_trans ?_ (hlimited n hne)
      rw [UInt64.le_iff_toNat_le]
      have hsub := UInt64.toNat_sub_of_le _ _ (UInt64.le_iff_toNat_le.mpr hle)
      exact le_of_eq_of_le hsub (Nat.sub_le _ _)
    · rw [if_neg hn]
      exact hlimited n hne

/-- A refused resize leaves all amounts and the reservation; one that is granted sets the size
and settles. -/
theorem resize_spec (hcovers : Covers us r) (hlimited : Limited us) (bytes : UInt64) :
    ((∃ e, (r.resize us bytes).2 = some e) ∧ (r.resize us bytes).1.2 = r ∧
      ∀ n a, ((r.resize us bytes).1.1 n).amount a = (us n).amount a) ∨
    ((r.resize us bytes).2 = none ∧ (r.resize us bytes).1.2 = { r with bytes := bytes } ∧
      Settles us r (r.resize us bytes).1.1 { r with bytes := bytes } ∧
      Limited (r.resize us bytes).1.1) := by
  unfold Reservation.resize
  split
  · rename_i hbudget
    refine .inr ⟨rfl, rfl, fun a n => ?_, hlimited⟩
    simp only [Reservation.charge, hbudget]
  · rename_i node hbudget
    by_cases hgrow : r.bytes < bytes
    · rw [if_pos hgrow]
      cases hcall : T.acquire us node (bytes - r.bytes) r.category with
      | mk us' result =>
          have hspec := acquire_spec us node (bytes - r.bytes) r.category
          rw [hcall] at hspec
          rcases hspec with ⟨⟨e, he⟩, hsame⟩ | ⟨hnone, hroom, htaken⟩
          · obtain rfl : result = some e := he
            exact .inl ⟨⟨e, rfl⟩, rfl, hsame⟩
          · obtain rfl : result = none := hnone
            exact .inr ⟨rfl, rfl, settles_grow hbudget hcovers hlimited hgrow hroom htaken⟩
    · rw [if_neg hgrow]
      by_cases hshrink : bytes < r.bytes
      · rw [if_pos hshrink]
        exact .inr ⟨rfl, rfl, settles_shrink hbudget hcovers hlimited hshrink⟩
      · rw [if_neg hshrink]
        obtain rfl : bytes = r.bytes :=
          UInt64.le_antisymm (UInt64.not_lt.mp hgrow) (UInt64.not_lt.mp hshrink)
        exact .inr ⟨rfl, rfl, fun a n => rfl, hlimited⟩

end Resize

/-! ## Operations -/

def slotCharge (a : Option Nat) (node : T.Node) (slot : Option (Reservation T)) : Nat :=
  slot.elim 0 fun r => r.charge a node

/-- What the live reservations bound to a budget and those below it add up to, of one category
or of all. -/
def held (slots : List (Option (Reservation T))) (a : Option Nat) (node : T.Node) : Nat :=
  (slots.map (slotCharge a node)).sum

structure Accounts (s : State T) : Prop where
  exact : ∀ a n, ((s.usages n).amount a).toNat = held s.slots a n
  limited : Limited s.usages

section Slots

variable {slots : List (Option (Reservation T))} {slot : Option (Reservation T)} {index : Nat}
  {s : State T} {r : Reservation T}

/-- A slot replaced changes the sum by the new one less the old one. -/
theorem held_set (h : slots[index]? = some slot) (slot' : Option (Reservation T)) (a : Option Nat)
    (n : T.Node) :
    held (slots.set index slot') a n + slotCharge a n slot =
      held slots a n + slotCharge a n slot' := by
  induction slots generalizing index with
  | nil => exact nomatch h
  | cons x slots ih =>
      cases index with
      | zero =>
          obtain rfl := Option.some.inj h
          simp only [held, List.set_cons_zero, List.map_cons, List.sum_cons]
          omega
      | succ index =>
          have hrest := ih h
          simp only [held, List.set_cons_succ, List.map_cons, List.sum_cons] at hrest ⊢
          omega

theorem held_append (slots more : List (Option (Reservation T))) (a : Option Nat) (n : T.Node) :
    held (slots ++ more) a n = held slots a n + held more a n := by
  rw [held, List.map_append, List.sum_append]
  rfl

theorem held_singleton (slot : Option (Reservation T)) (a : Option Nat) (n : T.Node) :
    held [slot] a n = slotCharge a n slot := Nat.add_zero _

theorem getElem?_of_live (h : s.live index = some r) : s.slots[index]? = some (some r) := by
  unfold State.live at h
  exact Option.join_eq_some_iff.mp h

private theorem charge_le_whole (r : Reservation T) (a : Option Nat) (n : T.Node) :
    r.charge a n ≤ r.charge none n := by
  unfold Reservation.charge
  split
  · exact Nat.le_refl _
  · split
    · rename_i hboth
      rw [if_pos ⟨hboth.1, .inl rfl⟩]
    · exact Nat.zero_le _

private theorem held_le_whole (slots : List (Option (Reservation T))) (a : Option Nat)
    (n : T.Node) :
    held slots a n ≤ held slots none n := by
  refine List.sum_le_sum fun slot _ => ?_
  cases slot with
  | none => exact Nat.le_refl _
  | some r => exact charge_le_whole r a n

theorem Accounts.whole (h : Accounts s) (a : Option Nat) (n : T.Node) :
    ((s.usages n).amount a).toNat ≤ (s.usages n).used.toNat := by
  have hused : (s.usages n).used.toNat = held s.slots none n := h.exact none n
  rw [h.exact a n, hused]
  exact held_le_whole s.slots a n

theorem Accounts.covers (h : Accounts s) (hlive : s.live index = some r) : Covers s.usages r where
  charge a n := by
    rw [h.exact a n]
    have hset := held_set (getElem?_of_live hlive) none a n
    change held _ a n + r.charge a n = held s.slots a n + 0 at hset
    omega
  whole := h.whole

theorem Accounts.covers_empty (h : Accounts s) (budget : Option T.Node) (category : Nat) :
    Covers s.usages ({ budget, category } : Reservation T) where
  charge a n := by
    unfold Reservation.charge
    split
    · exact Nat.zero_le _
    · split
      · exact Nat.zero_le _
      · exact Nat.zero_le _
  whole := h.whole

end Slots

section Steps

variable {s : State T} {r : Reservation T} {index : Nat}

/-- What a step leaves: accounts, and where it refused nothing else changed. -/
def Leaves (s : State T) (x : State T × Option Refusal) : Prop :=
  Accounts x.1 ∧ (x.2 ≠ none →
    x.1.slots = s.slots ∧ ∀ n a, ((x.1.usages n).amount a) = (s.usages n).amount a)

section

variable (h : Accounts s)
include h

theorem Accounts.unchanged : Leaves s (s, none) :=
  ⟨h, fun hne => absurd rfl hne⟩

theorem Accounts.same {us : T.Usages} (hsame : ∀ n a, (us n).amount a = (s.usages n).amount a)
    (e : Option Refusal) : Leaves s ({ s with usages := us }, e) := by
  refine ⟨⟨fun a n => ?_, fun n hne => ?_⟩, fun _ => ⟨rfl, hsame⟩⟩
  · rw [hsame n a]
    exact h.exact a n
  · have hused : (us n).used = (s.usages n).used := hsame n none
    rw [hused]
    exact h.limited n hne

/-- A slot whose reservation was resized, and amounts that settled. -/
theorem Accounts.set {us : T.Usages} {r' : Reservation T} (hlive : s.live index = some r)
    (hsettles : Settles s.usages r us r') (hlimited : Limited us) {slot : Option (Reservation T)}
    (hslot : ∀ a n, slotCharge a n slot = r'.charge a n) :
    Accounts ({ usages := us, slots := s.slots.set index slot } : State T) := by
  refine ⟨fun a n => ?_, hlimited⟩
  have hset := held_set (getElem?_of_live hlive) slot a n
  have hmoved := hsettles a n
  have hexact := h.exact a n
  rw [hslot a n] at hset
  change _ + r.charge a n = _ at hset
  dsimp only
  omega

theorem Accounts.construct (budget : Option T.Node) (category : Nat) (bytes : UInt64) :
    Leaves s (s.construct budget category bytes) := by
  unfold State.construct
  rcases resize_spec (h.covers_empty budget category) h.limited bytes with
    ⟨⟨e, he⟩, -, hsame⟩ | ⟨hnone, hr, hsettles, hlimited⟩
  · simp only [he]
    exact h.same hsame (some e)
  · simp only [hnone, hr]
    refine ⟨⟨fun a n => ?_, hlimited⟩, fun hne => absurd rfl hne⟩
    have hmoved := hsettles a n
    have hexact := h.exact a n
    have hempty : Reservation.charge ({ budget, category } : Reservation T) a n = 0 := by
      unfold Reservation.charge
      split
      · rfl
      · exact ite_self 0
    dsimp only
    rw [held_append, held_singleton]
    rw [hempty, Nat.add_zero] at hmoved
    exact hmoved.trans (congrArg (· + _) hexact)

theorem Accounts.resize (hlive : s.live index = some r) (bytes : UInt64) :
    Leaves s (s.resize index r bytes) := by
  unfold State.resize
  rcases resize_spec (h.covers hlive) h.limited bytes with
    ⟨⟨e, he⟩, hr, hsame⟩ | ⟨hnone, hr, hsettles, hlimited⟩
  · obtain ⟨hlt, hslot⟩ := List.getElem?_eq_some_iff.mp (getElem?_of_live hlive)
    simp only [hr]
    rw [← hslot, List.set_getElem_self]
    exact h.same hsame _
  · simp only [hnone, hr]
    exact ⟨h.set hlive hsettles hlimited fun _ _ => rfl, fun hne => absurd rfl hne⟩

theorem Accounts.moveConstruct (hlive : s.live index = some r) :
    Leaves s (s.moveConstruct index r, none) := by
  refine ⟨⟨fun a n => ?_, h.limited⟩, fun hne => absurd rfl hne⟩
  have hset := held_set (getElem?_of_live hlive) (some r.movedFrom) a n
  have hexact := h.exact a n
  change _ + r.charge a n = _ + 0 at hset
  unfold State.moveConstruct
  dsimp only
  rw [held_append, held_singleton]
  change _ = _ + r.charge a n
  omega

omit h in
theorem charge_zero (r : Reservation T) (a : Option Nat) (n : T.Node) :
    ({ r with bytes := 0 } : Reservation T).charge a n = 0 := by
  unfold Reservation.charge
  split
  · rfl
  · exact ite_self 0

/-- Giving back all of a reservation is never refused. -/
theorem resize_zero (hlive : s.live index = some r) :
    (r.resize s.usages 0).2 = none ∧
      Settles s.usages r (r.resize s.usages 0).1.1 { r with bytes := 0 } ∧
      Limited (r.resize s.usages 0).1.1 := by
  have hnone : (r.resize s.usages 0).2 = none := resize_shrinks UInt64.not_lt_zero
  rcases resize_spec (h.covers hlive) h.limited 0 with ⟨⟨e, he⟩, -⟩ | ⟨-, -, hsettles, hlimited⟩
  · exact nomatch hnone.symm.trans he
  · exact ⟨hnone, hsettles, hlimited⟩

theorem Accounts.destroy (hlive : s.live index = some r) : Leaves s (s.destroy index r) := by
  obtain ⟨hnone, hsettles, hlimited⟩ := resize_zero h hlive
  unfold State.destroy
  simp only [hnone]
  exact ⟨h.set hlive hsettles hlimited fun a n => (charge_zero r a n).symm,
    fun hne => absurd rfl hne⟩

theorem Accounts.moveAssign {source : Nat} {other : Reservation T} (hne : index ≠ source)
    (hlive : s.live index = some r) (hother : s.live source = some other) :
    Leaves s (s.moveAssign index source r other) := by
  obtain ⟨hnone, hsettles, hlimited⟩ := resize_zero h hlive
  unfold State.moveAssign
  simp only [hnone]
  refine ⟨⟨fun a n => ?_, hlimited⟩, fun hne => absurd rfl hne⟩
  have hsource : (s.slots.set index (some other))[source]? = some (some other) := by
    rw [List.getElem?_set_ne hne]
    exact getElem?_of_live hother
  have htarget := held_set (getElem?_of_live hlive) (some other) a n
  have hmoved := held_set hsource (some other.movedFrom) a n
  have hsettled := hsettles a n
  have hexact := h.exact a n
  rw [charge_zero] at hsettled
  change _ + r.charge a n = _ + other.charge a n at htarget
  change _ + other.charge a n = _ + 0 at hmoved
  dsimp only
  omega

theorem Accounts.step (op : Operation T) : Leaves s (step s op) := by
  unfold MemoryBudget.step
  cases op with
  | construct budget category bytes => exact h.construct budget category bytes
  | resize index bytes =>
      dsimp only
      cases hlive : s.live index with
      | none => exact h.unchanged
      | some r => exact h.resize hlive bytes
  | moveConstruct source =>
      dsimp only
      cases hlive : s.live source with
      | none => exact h.unchanged
      | some r => exact h.moveConstruct hlive
  | moveAssign target source =>
      dsimp only
      split
      · rename_i r other hlive hother
        split
        · exact h.unchanged
        · rename_i hne
          exact h.moveAssign hne hlive hother
      · exact h.unchanged
  | destroy index =>
      dsimp only
      cases hlive : s.live index with
      | none => exact h.unchanged
      | some r => exact h.destroy hlive

end

end Steps

theorem accounts_run (T : Tree) (ops : List (Operation T)) : Accounts (run T ops) := by
  induction ops using List.reverseRecOn with
  | nil =>
      refine ⟨fun a n => ?_, fun n _ => UInt64.zero_le⟩
      cases a with
      | none | some c => rfl
  | append_singleton ops op ih =>
      have hrun : run T (ops ++ [op]) = (step (run T ops) op).1 := by
        unfold run
        rw [List.foldl_append]
        rfl
      rw [hrun]
      exact (ih.step op).1

/-- After every sequence of operations on reservations the amounts of every budget are exactly
what the live reservations below it hold, in all and of each category, and within its limit; and
an operation that is refused next changes no amount and no reservation. -/
theorem budgets_exact (T : Tree) (ops : List (Operation T)) :
    (∀ node, ((run T ops).usages node).used.toNat = held (run T ops).slots none node ∧
      (∀ category, (((run T ops).usages node).categories category).toNat =
        held (run T ops).slots (some category) node) ∧
      (T.limit node ≠ 0 → ((run T ops).usages node).used ≤ T.limit node)) ∧
    ∀ op e, (step (run T ops) op).2 = some e →
      (step (run T ops) op).1.slots = (run T ops).slots ∧
      ∀ node, ((step (run T ops) op).1.usages node).used = ((run T ops).usages node).used ∧
        ∀ category, ((step (run T ops) op).1.usages node).categories category =
          ((run T ops).usages node).categories category := by
  have h := accounts_run T ops
  refine ⟨fun node => ⟨h.exact none node, fun c => h.exact (some c) node, h.limited node⟩, ?_⟩
  intro op e he
  obtain ⟨hslots, hamounts⟩ := (h.step op).2 (by rw [he]; exact nofun)
  exact ⟨hslots, fun node => ⟨hamounts node none, fun c => hamounts node (some c)⟩⟩

end Clink.Ports.MemoryBudget

import Mathlib.Data.Finset.Card

/-!
# Breadth-first search with predecessors

The search of a finite directed graph as a program writes it: a queue, the set of
visited vertices and the vertex each was reached from; it stops as soon as the
target is visited, and the way is read off the predecessors backwards.  Both loops
take fuel, and `none` says that it ran out.

`Explored` is the invariant: with a depth for each visited vertex, the open
vertices are in the order of their depths and at most one apart, and behind them
every edge leads to a visited vertex no deeper than expected.  It gives a shortest
walk when the target is found (`plan_spec`), none when the queue runs empty, and
twice the number of targets of edges bounds the rounds.
-/

namespace Clink.Verified.BreadthFirst

variable {V : Type*} [DecidableEq V]

/-! ## Walks -/

/-- `path` are the vertices after `a` on a walk to `b`. -/
def Walk (edges : V → List V) : V → List V → V → Prop
  | a, [], b => a = b
  | a, v :: rest, b => v ∈ edges a ∧ Walk edges v rest b

omit [DecidableEq V] in
theorem Walk.snoc {edges : V → List V} {a b c : V} {path : List V} (h : Walk edges a path b)
    (hc : c ∈ edges b) : Walk edges a (path ++ [c]) c := by
  induction path generalizing a with
  | nil =>
      obtain rfl : a = b := h
      exact ⟨hc, rfl⟩
  | cons v rest ih => exact ⟨h.1, ih h.2⟩

/-! ## The search -/

structure Search (V : Type*) where
  queue : List V
  visited : List V
  predecessor : List (V × V)

/-- The edges of `v`, one after the other; true as soon as `dst` is visited. -/
def visit (dst v : V) : Search V → List V → Search V × Bool
  | s, [] => (s, false)
  | s, t :: rest =>
      if t ∈ s.visited then visit dst v s rest
      else
        let reached := { s with
          visited := t :: s.visited
          predecessor := (t, v) :: s.predecessor }
        if t = dst then (reached, true)
        else visit dst v { reached with queue := reached.queue ++ [t] } rest

/-- The loop over the queue: the search that visited `dst`, or none when the queue
ran empty. -/
def search (edges : V → List V) (dst : V) : Nat → Search V → Option (Option (Search V))
  | 0, _ => none
  | fuel + 1, s =>
      match s.queue with
      | [] => some none
      | v :: queue =>
          let visited := visit dst v { s with queue := queue } (edges v)
          if visited.2 then some (some visited.1) else search edges dst fuel visited.1

/-- The way back from `cur`, without the source. -/
def walkBack (predecessor : List (V × V)) (src : V) : Nat → V → Option (List V)
  | 0, _ => none
  | fuel + 1, cur =>
      if cur = src then some []
      else
        match predecessor.lookup cur with
        | none => none
        | some prev => (walkBack predecessor src fuel prev).map (cur :: ·)

/-- The vertices after `src` on the way to `dst`; the empty list when there is none. -/
def plan (edges : V → List V) (src dst : V) (fuel : Nat) : Option (List V) :=
  match search edges dst fuel ⟨[src], [src], []⟩ with
  | none => none
  | some none => some []
  | some (some found) => (walkBack found.predecessor src fuel dst).map List.reverse

/-! ## The invariant -/

section Invariant

variable {edges : V → List V} {src dst : V} {depth : V → Nat} {s : Search V}

/-- Each visited vertex was reached over an edge from a visited one, one deeper. -/
structure Rooted (edges : V → List V) (src : V) (depth : V → Nat) (s : Search V) : Prop where
  source : src ∈ s.visited
  source_depth : depth src = 0
  parent : ∀ x ∈ s.visited, x ≠ src → ∃ u ∈ s.visited, s.predecessor.lookup x = some u ∧
    x ∈ edges u ∧ depth x = depth u + 1
  shallow : ∀ x ∈ s.visited, depth x ≤ s.predecessor.length

/-- The search before `dst` is found, with the vertices `busy` whose edges are not
all looked at. -/
structure Explored (edges : V → List V) (src dst : V) (depth : V → Nat) (s : Search V)
    (busy : List V) : Prop extends Rooted edges src depth s where
  unfound : dst ∉ s.visited
  seen : ∀ x ∈ busy, x ∈ s.visited
  sorted : busy.Pairwise fun x y => depth x ≤ depth y
  near : ∀ a rest, busy = a :: rest → ∀ x ∈ busy, depth x ≤ depth a + 1
  behind : ∀ x ∈ s.visited, x ∉ busy → ∀ y ∈ busy, depth x ≤ depth y
  closed : ∀ x ∈ s.visited, x ∉ busy → ∀ t ∈ edges x, t ∈ s.visited ∧ depth t ≤ depth x + 1

theorem explored_start (h : src ≠ dst) :
    Explored edges src dst (fun _ => 0) ⟨[src], [src], []⟩ [src] := by
  have hmem : ∀ x, x ∈ [src] ↔ x = src := fun x => List.mem_singleton
  refine ⟨⟨List.mem_singleton.mpr rfl, rfl, ?_, fun _ _ => Nat.zero_le _⟩, ?_, ?_, ?_, ?_, ?_, ?_⟩
  · exact fun x hx hne => absurd ((hmem x).mp hx) hne
  · exact fun hdst => h ((hmem dst).mp hdst).symm
  · exact fun x hx => hx
  · exact List.pairwise_singleton _ _
  · exact fun _ _ _ _ _ => Nat.zero_le _
  · exact fun x hx hbusy => absurd hx hbusy
  · exact fun x hx hbusy => absurd hx hbusy

variable {v x : V}

/-- From a visited vertex the target is beyond the first open vertex. -/
theorem Explored.far {rest path : List V} (h : Explored edges src dst depth s (v :: rest))
    (hx : x ∈ s.visited) (hwalk : Walk edges x path dst) : depth v + 1 ≤ depth x + path.length := by
  induction path generalizing x with
  | nil =>
      obtain rfl : x = dst := hwalk
      exact absurd hx h.unfound
  | cons t path ih =>
      rw [List.length_cons]
      by_cases hbusy : x ∈ v :: rest
      · have hle : depth v ≤ depth x := by
          rcases List.mem_cons.mp hbusy with rfl | hrest
          · exact Nat.le_refl _
          · exact (List.pairwise_cons.mp h.sorted).1 x hrest
        omega
      · obtain ⟨ht, hdepth⟩ := h.closed x hx hbusy t hwalk.1
        have hfar := ih ht hwalk.2
        omega

/-- With no open vertex the target is out of reach. -/
theorem Explored.unreachable {path : List V} (h : Explored edges src dst depth s [])
    (hx : x ∈ s.visited) : ¬ Walk edges x path dst := by
  induction path generalizing x with
  | nil =>
      rintro (rfl : x = dst)
      exact h.unfound hx
  | cons t path ih =>
      rintro ⟨ht, hwalk⟩
      exact ih (h.closed x hx List.not_mem_nil t ht).1 hwalk

variable {t : V}

theorem update_of_visited {n : Nat} (ht : t ∉ s.visited) (hx : x ∈ s.visited) :
    Function.update depth t n x = depth x := by
  have hne : x ≠ t := by
    rintro rfl
    exact ht hx
  exact Function.update_of_ne hne _ _

/-- A vertex reached from a visited one gets its place in the tree. -/
theorem Rooted.reach (h : Rooted edges src depth s) (hv : v ∈ s.visited) (ht : t ∉ s.visited)
    (hedge : t ∈ edges v) :
    Rooted edges src (Function.update depth t (depth v + 1))
      { s with visited := t :: s.visited, predecessor := (t, v) :: s.predecessor } := by
  have hne : ∀ x ∈ s.visited, x ≠ t := fun x hx heq => ht (heq ▸ hx)
  refine ⟨List.mem_cons_of_mem _ h.source, ?_, ?_, ?_⟩
  · rw [update_of_visited ht h.source]
    exact h.source_depth
  · intro x hx hsrc
    rcases List.mem_cons.mp hx with rfl | hx
    · refine ⟨v, List.mem_cons_of_mem _ hv, ?_, hedge, ?_⟩
      · exact List.lookup_cons_self
      · rw [Function.update_self, update_of_visited ht hv]
    · obtain ⟨u, hu, hlookup, hmem, hdepth⟩ := h.parent x hx hsrc
      refine ⟨u, List.mem_cons_of_mem _ hu, ?_, hmem, ?_⟩
      · rw [List.lookup_cons]
        have hbeq : (x == t) = false := beq_false_of_ne (hne x hx)
        rw [hbeq]
        exact hlookup
      · rw [update_of_visited ht hx, update_of_visited ht hu]
        exact hdepth
  · intro x hx
    rw [List.length_cons]
    rcases List.mem_cons.mp hx with rfl | hx
    · rw [Function.update_self]
      exact Nat.succ_le_succ (h.shallow v hv)
    · rw [update_of_visited ht hx]
      exact Nat.le_succ_of_le (h.shallow x hx)

/-- A new vertex goes to the end of the queue. -/
theorem Explored.push {queue : List V} (h : Explored edges src dst depth s (v :: queue))
    (ht : t ∉ s.visited) (hedge : t ∈ edges v) (hne : t ≠ dst) :
    Explored edges src dst (Function.update depth t (depth v + 1))
      ⟨queue ++ [t], t :: s.visited, (t, v) :: s.predecessor⟩ (v :: (queue ++ [t])) := by
  have hv : v ∈ s.visited := h.seen v List.mem_cons_self
  have hold : ∀ x ∈ s.visited, Function.update depth t (depth v + 1) x = depth x :=
    fun x hx => update_of_visited ht hx
  have hnear : ∀ x ∈ v :: queue, depth x ≤ depth v + 1 := h.near v queue rfl
  have hbusy : ∀ x, x ∈ v :: (queue ++ [t]) ↔ x ∈ v :: queue ∨ x = t := by
    intro x
    rw [← List.cons_append, List.mem_append, List.mem_singleton]
  have hrooted := h.toRooted.reach hv ht hedge
  refine ⟨⟨hrooted.source, hrooted.source_depth, hrooted.parent, hrooted.shallow⟩,
    ?_, ?_, ?_, ?_, ?_, ?_⟩
  · intro hdst
    rcases List.mem_cons.mp hdst with heq | hdst
    · exact hne heq.symm
    · exact h.unfound hdst
  · intro x hx
    rcases (hbusy x).mp hx with hx | rfl
    · exact List.mem_cons_of_mem _ (h.seen x hx)
    · exact List.mem_cons_self
  · rw [← List.cons_append]
    refine List.pairwise_append.mpr ⟨?_, List.pairwise_singleton _ _, ?_⟩
    · refine h.sorted.imp_of_mem ?_
      intro x y hx hy hle
      rw [hold x (h.seen x hx), hold y (h.seen y hy)]
      exact hle
    · intro x hx y hy
      rw [List.mem_singleton.mp hy, Function.update_self, hold x (h.seen x hx)]
      exact hnear x hx
  · intro a rest heq x hx
    obtain ⟨rfl, -⟩ := List.cons.inj heq
    rw [hold v hv]
    rcases (hbusy x).mp hx with hx | rfl
    · rw [hold x (h.seen x hx)]
      exact hnear x hx
    · rw [Function.update_self]
  · intro x hx hfree y hy
    have hfree' : x ∉ v :: queue ∧ x ≠ t :=
      ⟨fun hmem => hfree ((hbusy x).mpr (.inl hmem)), fun heq => hfree ((hbusy x).mpr (.inr heq))⟩
    have hxs : x ∈ s.visited := (List.mem_cons.mp hx).resolve_left hfree'.2
    rw [hold x hxs]
    rcases (hbusy y).mp hy with hy | rfl
    · rw [hold y (h.seen y hy)]
      exact h.behind x hxs hfree'.1 y hy
    · rw [Function.update_self]
      exact (h.behind x hxs hfree'.1 v List.mem_cons_self).trans (Nat.le_succ _)
  · intro x hx hfree t' ht'
    have hfree' : x ∉ v :: queue ∧ x ≠ t :=
      ⟨fun hmem => hfree ((hbusy x).mpr (.inl hmem)), fun heq => hfree ((hbusy x).mpr (.inr heq))⟩
    have hx : x ∈ s.visited := (List.mem_cons.mp hx).resolve_left hfree'.2
    obtain ⟨hvisited, hdepth⟩ := h.closed x hx hfree'.1 t' ht'
    rw [hold x hx, hold t' hvisited]
    exact ⟨List.mem_cons_of_mem _ hvisited, hdepth⟩

/-- A vertex all of whose edges are looked at is no longer open. -/
theorem Explored.close {queue : List V} (h : Explored edges src dst depth s (v :: queue))
    (hedges : ∀ t ∈ edges v, t ∈ s.visited) : Explored edges src dst depth s queue := by
  have hnear : ∀ x ∈ v :: queue, depth x ≤ depth v + 1 := h.near v queue rfl
  obtain ⟨hfirst, hqueue⟩ := List.pairwise_cons.mp h.sorted
  refine ⟨h.toRooted, h.unfound, fun x hx => h.seen x (List.mem_cons_of_mem _ hx), hqueue,
    ?_, ?_, ?_⟩
  · rintro a rest rfl x hx
    have hva := hfirst a List.mem_cons_self
    exact (hnear x (List.mem_cons_of_mem _ hx)).trans (Nat.succ_le_succ hva)
  · intro x hx hfree y hy
    by_cases hxv : x = v
    · rw [hxv]
      exact hfirst y hy
    · exact h.behind x hx (fun hmem => (List.mem_cons.mp hmem).elim hxv hfree) y
        (List.mem_cons_of_mem _ hy)
  · intro x hx hfree t ht
    by_cases hxv : x = v
    · subst hxv
      refine ⟨hedges t ht, ?_⟩
      -- Visited before or just now: open and so near, or behind the open ones.
      by_cases hopen : t ∈ x :: queue
      · exact hnear t hopen
      · exact (h.behind t (hedges t ht) hopen x List.mem_cons_self).trans (Nat.le_succ _)
    · exact h.closed x hx (fun hmem => (List.mem_cons.mp hmem).elim hxv hfree) t ht

end Invariant

/-! ## The loops -/

section Loops

variable {edges : V → List V} {src dst : V}

/-- The search has found `dst`, and no walk is shorter than its depth. -/
structure Found (edges : V → List V) (src dst : V) (depth : V → Nat) (s : Search V) : Prop
    extends Rooted edges src depth s where
  target : dst ∈ s.visited
  shortest : ∀ path, Walk edges src path dst → depth dst ≤ path.length

theorem visit_spec (v : V) (ts : List V) : ∀ (s : Search V) (depth : V → Nat),
    Explored edges src dst depth s (v :: s.queue) → (∀ t ∈ ts, t ∈ edges v) →
    (∀ t ∈ edges v, t ∈ s.visited ∨ t ∈ ts) →
    ((visit dst v s ts).2 = false →
        ∃ depth', Explored edges src dst depth' (visit dst v s ts).1 (visit dst v s ts).1.queue) ∧
      ((visit dst v s ts).2 = true → ∃ depth',
        Found edges src dst depth' (visit dst v s ts).1) := by
  induction ts with
  | nil =>
      intro s depth h _ hcover
      refine ⟨fun _ => ⟨depth, h.close fun t ht => ?_⟩, fun hfound => ?_⟩
      · exact (hcover t ht).resolve_right List.not_mem_nil
      · exact absurd hfound Bool.false_ne_true
  | cons t rest ih =>
      intro s depth h hedges hcover
      have hrest : ∀ t' ∈ rest, t' ∈ edges v := fun t' ht' => hedges t' (List.mem_cons_of_mem _ ht')
      have hedge : t ∈ edges v := hedges t List.mem_cons_self
      have hv : v ∈ s.visited := h.seen v List.mem_cons_self
      unfold visit
      by_cases ht : t ∈ s.visited
      · rw [if_pos ht]
        refine ih s depth h hrest fun t' ht' => ?_
        rcases hcover t' ht' with hvisited | hmem
        · exact .inl hvisited
        · rcases List.mem_cons.mp hmem with rfl | hmem
          · exact .inl ht
          · exact .inr hmem
      · rw [if_neg ht]
        dsimp only
        by_cases hdst : t = dst
        · rw [if_pos hdst]
          subst hdst
          have hrooted := h.toRooted.reach hv ht hedge
          refine
            ⟨fun hfalse => absurd hfalse.symm Bool.false_ne_true, fun _ => ⟨_, hrooted, ?_, ?_⟩⟩
          · exact List.mem_cons_self
          · intro path hwalk
            have hfar := h.far h.source hwalk
            rw [h.source_depth, Nat.zero_add] at hfar
            rw [Function.update_self]
            exact hfar
        · rw [if_neg hdst]
          refine ih _ _ (h.push ht hedge hdst) hrest fun t' ht' => ?_
          rcases hcover t' ht' with hvisited | hmem
          · exact .inl (List.mem_cons_of_mem _ hvisited)
          · rcases List.mem_cons.mp hmem with rfl | hmem
            · exact .inl List.mem_cons_self
            · exact .inr hmem

/-- The rounds left: each target not yet visited is queued and taken once. -/
def cost (targets : Finset V) (s : Search V) : Nat :=
  2 * (targets \ s.visited.toFinset).card + s.queue.length

/-- The predecessors and the targets not yet visited. -/
def room (targets : Finset V) (s : Search V) : Nat :=
  (targets \ s.visited.toFinset).card + s.predecessor.length

private theorem card_sdiff_visited {targets : Finset V} {t : V} {visited : List V}
    (ht : t ∈ targets) (hnew : t ∉ visited) :
    (targets \ (t :: visited).toFinset).card + 1 = (targets \ visited.toFinset).card := by
  have hmem : t ∈ targets \ visited.toFinset :=
    Finset.mem_sdiff.mpr ⟨ht, fun hmem => hnew (List.mem_toFinset.mp hmem)⟩
  rw [List.toFinset_cons, Finset.sdiff_insert, Finset.card_erase_add_one hmem]

variable (dst) in
theorem visit_cost {targets : Finset V} (v : V) (ts : List V) : ∀ s : Search V,
    (∀ t ∈ ts, t ∈ targets) → cost targets (visit dst v s ts).1 ≤ cost targets s ∧
      room targets (visit dst v s ts).1 = room targets s := by
  induction ts with
  | nil => exact fun s _ => ⟨Nat.le_refl _, rfl⟩
  | cons t rest ih =>
      intro s htargets
      have hrest : ∀ t' ∈ rest, t' ∈ targets :=
        fun t' ht' => htargets t' (List.mem_cons_of_mem _ ht')
      unfold visit
      by_cases ht : t ∈ s.visited
      · rw [if_pos ht]
        exact ih s hrest
      · rw [if_neg ht]
        have hcard := card_sdiff_visited (htargets t List.mem_cons_self) ht
        dsimp only
        by_cases hdst : t = dst
        · rw [if_pos hdst]
          unfold cost room
          dsimp only
          rw [List.length_cons]
          omega
        · rw [if_neg hdst]
          obtain ⟨hcost, hroom⟩ := ih { s with
            queue := s.queue ++ [t]
            visited := t :: s.visited
            predecessor := (t, v) :: s.predecessor } hrest
          refine ⟨hcost.trans ?_, hroom.trans ?_⟩
          · unfold cost
            dsimp only
            rw [List.length_append, List.length_singleton]
            omega
          · unfold room
            dsimp only
            rw [List.length_cons]
            omega

/-- With fuel for its rounds the search ends: with the target found, or with all
that can be reached visited and the target not among it. -/
theorem search_spec {targets : Finset V} (htargets : ∀ v, ∀ t ∈ edges v, t ∈ targets) (fuel : Nat) :
    ∀ (s : Search V) (depth : V → Nat), Explored edges src dst depth s s.queue →
      cost targets s < fuel →
      (search edges dst fuel s = some none ∧ ∀ path, ¬ Walk edges src path dst) ∨
      ∃ found depth', search edges dst fuel s = some (some found) ∧
        Found edges src dst depth' found ∧ room targets found = room targets s := by
  induction fuel with
  | zero => exact fun s depth _ hcost => absurd hcost (Nat.not_lt_zero _)
  | succ fuel ih =>
      intro s depth h hcost
      unfold search
      cases hqueue : s.queue with
      | nil =>
          rw [hqueue] at h
          exact .inl ⟨rfl, fun path => h.unreachable h.source⟩
      | cons v queue =>
          dsimp only
          rw [hqueue] at h
          obtain ⟨hopen, hdone⟩ := visit_spec v (edges v) { s with queue := queue } depth
            ⟨⟨h.source, h.source_depth, h.parent, h.shallow⟩, h.unfound, h.seen, h.sorted, h.near,
              h.behind, h.closed⟩ (fun t ht => ht) (fun t ht => .inr ht)
          obtain ⟨hless, hroom⟩ := visit_cost dst v (edges v) { s with queue := queue }
            (htargets v)
          cases hfound : (visit dst v { s with queue := queue } (edges v)).2 with
          | true =>
              obtain ⟨depth', hspec⟩ := hdone hfound
              exact .inr ⟨_, depth', if_pos rfl, hspec, hroom⟩
          | false =>
              obtain ⟨depth', hspec⟩ := hopen hfound
              have hrounds : cost targets (visit dst v { s with queue := queue } (edges v)).1 <
                fuel := by
                have hpop : cost targets s = cost targets { s with queue := queue } + 1 := by
                  unfold cost
                  rw [hqueue, List.length_cons]
                  rfl
                omega
              rcases ih _ depth' hspec hrounds with hnone | ⟨found, depth'', heq, hrest, hroom'⟩
              · exact .inl hnone
              · exact .inr ⟨found, depth'', heq, hrest, hroom'.trans hroom⟩

/-- The predecessors lead back to the source in as many steps as the depth. -/
theorem Rooted.walkBack {depth : V → Nat} {s : Search V} (h : Rooted edges src depth s)
    (fuel : Nat) :
    ∀ x ∈ s.visited, depth x < fuel → ∃ back, walkBack s.predecessor src fuel x = some back ∧
      Walk edges src back.reverse x ∧ back.length = depth x := by
  induction fuel with
  | zero => exact fun x _ hfuel => absurd hfuel (Nat.not_lt_zero _)
  | succ fuel ih =>
      intro x hx hfuel
      unfold BreadthFirst.walkBack
      by_cases hsrc : x = src
      · rw [if_pos hsrc]
        refine ⟨[], rfl, hsrc.symm, ?_⟩
        rw [hsrc, h.source_depth]
        rfl
      · obtain ⟨u, hu, hlookup, hedge, hdepth⟩ := h.parent x hx hsrc
        obtain ⟨back, hback, hwalk, hlength⟩ := ih u hu (by omega)
        rw [if_neg hsrc, hlookup]
        refine ⟨x :: back, ?_, ?_, ?_⟩
        · dsimp only
          rw [hback]
          rfl
        · rw [List.reverse_cons]
          exact hwalk.snoc hedge
        · rw [List.length_cons, hlength, hdepth]

/-- Enough fuel for the search and for the way back. -/
def enough (targets : Finset V) : Nat := 2 * targets.card + 2

variable {fuel : Nat}

/-- The search ends; it answers with a shortest walk, or with the empty list when
there is none. -/
theorem plan_spec {targets : Finset V} (htargets : ∀ v, ∀ t ∈ edges v, t ∈ targets)
    (hne : src ≠ dst) (hfuel : enough targets ≤ fuel) :
    ∃ path, plan edges src dst fuel = some path ∧
      (path ≠ [] ↔ ∃ walk, Walk edges src walk dst) ∧
      (path ≠ [] → Walk edges src path dst ∧
        ∀ walk, Walk edges src walk dst → path.length ≤ walk.length) := by
  have hcard : (targets \ ([src] : List V).toFinset).card ≤ targets.card :=
    Finset.card_le_card Finset.sdiff_subset
  have hstart : cost targets ⟨[src], [src], []⟩ < fuel := by
    unfold cost
    unfold enough at hfuel
    dsimp only
    rw [List.length_singleton]
    omega
  unfold plan
  rcases search_spec htargets fuel _ _ (explored_start hne) hstart with
    ⟨hsearch, hnone⟩ | ⟨found, depth, hsearch, hfound, hroom⟩
  · rw [hsearch]
    refine ⟨[], rfl, ⟨fun h => absurd rfl h, ?_⟩, fun h => absurd rfl h⟩
    rintro ⟨walk, hwalk⟩
    exact absurd hwalk (hnone walk)
  · rw [hsearch]
    have hdepth : depth dst < fuel := by
      have hshallow := hfound.shallow dst hfound.target
      unfold room at hroom
      unfold enough at hfuel
      dsimp only at hroom
      rw [List.length_nil] at hroom
      omega
    obtain ⟨back, hback, hwalk, hlength⟩ := hfound.toRooted.walkBack fuel dst hfound.target hdepth
    dsimp only
    rw [hback]
    refine ⟨back.reverse, rfl, ?_, fun _ => ⟨hwalk, fun walk h => ?_⟩⟩
    · refine ⟨fun _ => ⟨_, hwalk⟩, fun _ hnil => ?_⟩
      rw [hnil] at hwalk
      exact hne hwalk
    · rw [List.length_reverse, hlength]
      exact hfound.shortest walk h

/-! ### More fuel -/

variable {fuel' : Nat}

theorem search_mono (hle : fuel ≤ fuel') :
    ∀ {s : Search V} {result : Option (Search V)}, search edges dst fuel s = some result →
      search edges dst fuel' s = some result := by
  induction fuel generalizing fuel' with
  | zero => exact fun h => absurd h (Option.some_ne_none _).symm
  | succ fuel ih =>
      intro s result h
      cases fuel' with
      | zero => exact absurd hle (Nat.not_succ_le_zero _)
      | succ fuel' =>
          unfold search at h ⊢
          cases hqueue : s.queue with
          | nil =>
              rw [hqueue] at h
              exact h
          | cons v queue =>
              rw [hqueue] at h
              dsimp only at h ⊢
              split at h
              · rename_i hfound
                rw [if_pos hfound]
                exact h
              · rename_i hfound
                rw [if_neg hfound]
                exact ih (Nat.le_of_succ_le_succ hle) h

private theorem walkBack_mono {predecessor : List (V × V)} (hle : fuel ≤ fuel') :
    ∀ {cur : V} {back : List V}, walkBack predecessor src fuel cur = some back →
      walkBack predecessor src fuel' cur = some back := by
  induction fuel generalizing fuel' with
  | zero => exact fun h => absurd h (Option.some_ne_none _).symm
  | succ fuel ih =>
      intro cur back h
      cases fuel' with
      | zero => exact absurd hle (Nat.not_succ_le_zero _)
      | succ fuel' =>
          unfold BreadthFirst.walkBack at h ⊢
          by_cases hsrc : cur = src
          · rw [if_pos hsrc] at h ⊢
            exact h
          · rw [if_neg hsrc] at h ⊢
            cases hlookup : predecessor.lookup cur with
            | none =>
                rw [hlookup] at h
                exact h
            | some prev =>
                rw [hlookup] at h
                obtain ⟨rest, hrest, rfl⟩ := Option.map_eq_some_iff.mp h
                exact Option.map_eq_some_iff.mpr
                  ⟨rest, ih (Nat.le_of_succ_le_succ hle) hrest, rfl⟩

/-- What is planned with enough fuel is planned with more. -/
theorem plan_mono (hle : fuel ≤ fuel') {path : List V} (h : plan edges src dst fuel = some path) :
    plan edges src dst fuel' = some path := by
  unfold plan at h ⊢
  cases hsearch : search edges dst fuel ⟨[src], [src], []⟩ with
  | none =>
      rw [hsearch] at h
      exact absurd h (Option.some_ne_none _).symm
  | some result =>
      rw [hsearch] at h
      rw [search_mono hle hsearch]
      cases result with
      | none => exact h
      | some found =>
          obtain ⟨back, hback, rfl⟩ := Option.map_eq_some_iff.mp h
          exact Option.map_eq_some_iff.mpr ⟨back, walkBack_mono hle hback, rfl⟩

end Loops

end Clink.Verified.BreadthFirst

import Clink.Verified.GapClusters
import Clink.Ports.SessionWindowOperator

/-!
# Sessions are the clusters of their records

Before any watermark a key's sessions are the clusters of its timestamps under
the gap, each with the aggregate of the records in it.  The invariant pairs
every session with the group of records that went into it: the groups are
linked and apart, so the scan finds the sessions that end before the record,
then those that meet its provisional window, then those that start after it.
-/

namespace Clink.Ports.SessionWindowOperator

open Clink.Verified
open Clink.Ports.Time

variable {K V A : Type} [DecidableEq K]

/-! ## What the sessions should be -/

namespace Aggregate

variable (agg : Aggregate V A)

/-- The aggregate of a list of values. -/
def fold (vs : List V) : A := vs.foldl agg.combiner agg.initial

/-- The order of the values does not matter, and merging aggregates is
aggregating the values of both. -/
structure Lawful : Prop where
  comm : ∀ vs ws, vs.Perm ws → agg.fold vs = agg.fold ws
  merge : ∀ vs ws, agg.merger (agg.fold vs) (agg.fold ws) = agg.fold (vs ++ ws)

theorem fold_snoc (vs : List V) (v : V) :
    agg.fold (vs ++ [v]) = agg.combiner (agg.fold vs) v := by
  simp [fold]

end Aggregate

def firstTime (run : List Int) : Int := run.head?.getD 0

def lastTime (run : List Int) : Int := run.getLast?.getD 0

/-- The session of a run of timestamps: its span, and the aggregate of the
records in it. -/
def sessionOf (gap : Int) (agg : Aggregate V A) (records : List (Int × V)) (run : List Int) :
    Int × Session A :=
  (firstTime run, ⟨lastTime run + gap,
    agg.fold ((records.filter fun r => firstTime run ≤ r.1 ∧ r.1 ≤ lastTime run).map Prod.snd),
    false⟩)

def expectedSessions (gap : Int) (agg : Aggregate V A) (records : List (Int × V)) :
    List (Int × Session A) :=
  (clusters gap (records.map Prod.fst)).map (sessionOf gap agg records)

/-- A key's records, with their timestamps. -/
def recordsOf (key : K) (records : List (Record K V)) : List (Int × V) :=
  (records.filter fun r => r.key = key).map fun r => (r.ts, r.value)

/-! ## Sessions and their groups -/

variable {gap : Int} {agg : Aggregate V A} {e : Int × Session A} {g : List (Int × V)}

/-- A session spans its group of records and holds their aggregate. -/
structure Holds (gap : Int) (agg : Aggregate V A) (e : Int × Session A) (g : List (Int × V)) :
    Prop where
  first : ∃ r ∈ g, r.1 = e.1
  firstLe : ∀ r ∈ g, e.1 ≤ r.1
  last : ∃ r ∈ g, r.1 + gap = e.2.endTs
  leLast : ∀ r ∈ g, r.1 + gap ≤ e.2.endTs
  agg : e.2.agg = agg.fold (g.map Prod.snd)
  fired : e.2.fired = false

/-- A session beside the records in it. -/
abbrev Paired (V A : Type) := (Int × Session A) × List (Int × V)

def Paired.times (p : Paired V A) : List Int := p.2.map Prod.fst

/-- The sessions of a key with their groups. -/
structure Grouped (gap : Int) (agg : Aggregate V A) (entries : List (Int × Session A))
    (records : List (Int × V)) (pairs : List (Paired V A)) : Prop where
  sessions : pairs.map Prod.fst = entries
  holds : ∀ p ∈ pairs, Holds gap agg p.1 p.2
  clusters : Clusters gap (pairs.map Paired.times)
  all : (pairs.flatMap Prod.snd).Perm records

theorem Grouped.nil : Grouped gap agg [] [] [] :=
  ⟨rfl, by simp, .nil, .nil⟩

theorem mem_times {p : Paired V A} {t : Int} : t ∈ p.times ↔ ∃ r ∈ p.2, r.1 = t := by
  unfold Paired.times
  rw [List.mem_map]

theorem ends_before_next {pairs : List (Paired V A)} (hholds : ∀ p ∈ pairs, Holds gap agg p.1 p.2)
    (hclusters : Clusters gap (pairs.map Paired.times)) :
    pairs.Pairwise fun p q => p.1.2.endTs < q.1.1 := by
  have hapart := List.pairwise_map.mp hclusters.apart
  refine (List.Pairwise.and_mem.mp hapart).imp ?_
  rintro p q ⟨hp, hq, hpq⟩
  obtain ⟨r, hr, hend⟩ := (hholds p hp).last
  obtain ⟨r', hr', hstart⟩ := (hholds q hq).first
  rw [← hend, ← hstart]
  exact hpq r.1 (mem_times.mpr ⟨r, hr, rfl⟩) r'.1 (mem_times.mpr ⟨r', hr', rfl⟩)

theorem Holds.start_lt_end (h : Holds gap agg e g) (hgap : 0 < gap) : e.1 < e.2.endTs := by
  obtain ⟨r, hr, hstart⟩ := h.first
  have := h.leLast r hr
  omega

/-! ## The scan -/

section Scan
variable {merger : A → A → A} {provStart provEnd : Int} {rest : List (Int × Session A)}
  {m : Merged A}

/-- Sessions that end before the provisional window are left. -/
theorem mergeLoop_skip {before : List (Int × Session A)}
    (h : ∀ e ∈ before, e.1 ≤ provEnd ∧ e.2.endTs < provStart) :
    mergeLoop merger provStart provEnd (before ++ rest) m =
      ((mergeLoop merger provStart provEnd rest m).1,
        before ++ (mergeLoop merger provStart provEnd rest m).2) := by
  induction before with
  | nil => rfl
  | cons e before ih =>
      obtain ⟨hstart, hend⟩ := h e List.mem_cons_self
      rw [List.cons_append, mergeLoop, if_neg (by omega), if_pos hend,
        ih fun e' he' => h e' (List.mem_cons_of_mem _ he')]
      rfl

theorem mergeLoop_absorb {near : List (Int × Session A)}
    (h : ∀ e ∈ near, e.1 ≤ provEnd ∧ provStart ≤ e.2.endTs) :
    mergeLoop merger provStart provEnd (near ++ rest) m =
      mergeLoop merger provStart provEnd rest (near.foldl (Merged.absorb merger) m) := by
  induction near generalizing m with
  | nil => rfl
  | cons e near ih =>
      obtain ⟨hstart, hend⟩ := h e List.mem_cons_self
      rw [List.cons_append, mergeLoop, if_neg (by omega), if_neg (by omega),
        ih fun e' he' => h e' (List.mem_cons_of_mem _ he')]
      rfl

/-- The first session that starts after it ends the scan. -/
theorem mergeLoop_stop (h : ∀ e ∈ rest, provEnd < e.1) :
    mergeLoop merger provStart provEnd rest m = (m, rest) := by
  cases rest with
  | nil => rfl
  | cons e rest =>
      have := h e List.mem_cons_self
      rw [mergeLoop, if_pos (by omega)]

/-- The three kinds of sessions in the order the scan meets them. -/
theorem mergeLoop_parts {before near after : List (Int × Session A)}
    (hbefore : ∀ e ∈ before, e.1 ≤ provEnd ∧ e.2.endTs < provStart)
    (hnear : ∀ e ∈ near, e.1 ≤ provEnd ∧ provStart ≤ e.2.endTs)
    (hafter : ∀ e ∈ after, provEnd < e.1) :
    mergeLoop merger provStart provEnd (before ++ (near ++ after)) m =
      (near.foldl (Merged.absorb merger) m, before ++ after) := by
  rw [mergeLoop_skip hbefore, mergeLoop_absorb hnear, mergeLoop_stop hafter]

end Scan

/-- The variables of the scan after absorbing the sessions of `near`, for a
record at `ts`: they span the record and the groups, and hold their aggregate. -/
structure Absorbed (gap : Int) (agg : Aggregate V A) (ts : Int) (m : Merged A)
    (g : List (Int × V)) : Prop where
  first : m.start = ts ∨ ∃ r ∈ g, r.1 = m.start
  firstLe : m.start ≤ ts ∧ ∀ r ∈ g, m.start ≤ r.1
  last : m.endTs = ts + gap ∨ ∃ r ∈ g, r.1 + gap = m.endTs
  leLast : ts + gap ≤ m.endTs ∧ ∀ r ∈ g, r.1 + gap ≤ m.endTs
  agg : m.agg.getD agg.initial = agg.fold (g.map Prod.snd)
  fired : m.anyFired = false
  fresh : m.agg = none → g = []

theorem Absorbed.absorb {ts : Int} {m : Merged A} {acc : List (Int × V)} (hagg : agg.Lawful)
    (h : Absorbed gap agg ts m acc) (he : Holds gap agg e g) :
    Absorbed gap agg ts (m.absorb agg.merger e) (acc ++ g) := by
  have hmem : ∀ r, r ∈ acc ++ g ↔ r ∈ acc ∨ r ∈ g := fun r => List.mem_append
  constructor
  · obtain ⟨r, hr, hstart⟩ := he.first
    rcases min_choice m.start e.1 with hmin | hmin
    · rcases h.first with hts | ⟨r', hr', hstart'⟩
      · exact .inl (hmin.trans hts)
      · exact .inr ⟨r', (hmem r').mpr (.inl hr'), hstart'.trans hmin.symm⟩
    · exact .inr ⟨r, (hmem r).mpr (.inr hr), hstart.trans hmin.symm⟩
  · refine ⟨le_trans (min_le_left _ _) h.firstLe.1, ?_⟩
    intro r hr
    rcases (hmem r).mp hr with hr | hr
    · exact le_trans (min_le_left _ _) (h.firstLe.2 r hr)
    · exact le_trans (min_le_right _ _) (he.firstLe r hr)
  · obtain ⟨r, hr, hend⟩ := he.last
    rcases max_choice m.endTs e.2.endTs with hmax | hmax
    · rcases h.last with hts | ⟨r', hr', hend'⟩
      · exact .inl (hmax.trans hts)
      · exact .inr ⟨r', (hmem r').mpr (.inl hr'), hend'.trans hmax.symm⟩
    · exact .inr ⟨r, (hmem r).mpr (.inr hr), hend.trans hmax.symm⟩
  · refine ⟨le_trans h.leLast.1 (le_max_left _ _), ?_⟩
    intro r hr
    rcases (hmem r).mp hr with hr | hr
    · exact le_trans (h.leLast.2 r hr) (le_max_left _ _)
    · exact le_trans (he.leLast r hr) (le_max_right _ _)
  · have hacc := h.agg
    unfold Merged.absorb
    cases hm : m.agg with
    | none =>
        rw [h.fresh hm, List.nil_append]
        exact he.agg
    | some a =>
        rw [hm, Option.getD_some] at hacc
        simp only [Option.getD_some]
        rw [hacc, he.agg, hagg.merge, List.map_append]
  · simp [Merged.absorb, h.fired, he.fired]
  · intro hnone
    unfold Merged.absorb at hnone
    cases hm : m.agg <;> simp [hm] at hnone

theorem Absorbed.absorbAll {ts : Int} {m : Merged A} {acc : List (Int × V)} (hagg : agg.Lawful)
    (h : Absorbed gap agg ts m acc) {near : List (Paired V A)}
    (hnear : ∀ p ∈ near, Holds gap agg p.1 p.2) :
    Absorbed gap agg ts ((near.map Prod.fst).foldl (Merged.absorb agg.merger) m)
      (acc ++ near.flatMap Prod.snd) := by
  induction near generalizing m acc with
  | nil => simpa using h
  | cons p near ih =>
      have hstep := h.absorb hagg (hnear p List.mem_cons_self)
      have hrest := ih hstep fun q hq => hnear q (List.mem_cons_of_mem _ hq)
      simpa [List.append_assoc] using hrest

/-- The record and all it absorbed make one session. -/
theorem Absorbed.holds {ts : Int} {m : Merged A} (hagg : agg.Lawful)
    (h : Absorbed gap agg ts m g) (v : V) :
    Holds gap agg (m.start, ⟨m.endTs, agg.combiner (m.agg.getD agg.initial) v, m.anyFired⟩)
      ((ts, v) :: g) := by
  constructor
  · rcases h.first with hts | ⟨r, hr, hstart⟩
    · exact ⟨(ts, v), List.mem_cons_self, hts.symm⟩
    · exact ⟨r, List.mem_cons_of_mem _ hr, hstart⟩
  · intro r hr
    rcases List.mem_cons.mp hr with rfl | hr
    · exact h.firstLe.1
    · exact h.firstLe.2 r hr
  · rcases h.last with hts | ⟨r, hr, hend⟩
    · exact ⟨(ts, v), List.mem_cons_self, hts.symm⟩
    · exact ⟨r, List.mem_cons_of_mem _ hr, hend⟩
  · intro r hr
    rcases List.mem_cons.mp hr with rfl | hr
    · exact h.leLast.1
    · exact h.leLast.2 r hr
  · simp only [h.agg, ← agg.fold_snoc]
    exact hagg.comm _ _ (List.perm_append_singleton v _)
  · exact h.fired

/-! ## One record -/

section Step
variable {entries : List (Int × Session A)} {records : List (Int × V)}
  {pairs : List (Paired V A)}

/-- The sessions before a record, those it meets and those after it, in order. -/
theorem Grouped.parts (h : Grouped gap agg entries records pairs) (hgap : 0 < gap) (ts : Int) :
    ∃ before near after, pairs = before ++ (near ++ after) ∧
      (∀ p ∈ before, p.1.1 ≤ ts + gap ∧ p.1.2.endTs < ts) ∧
      (∀ p ∈ near, p.1.1 ≤ ts + gap ∧ ts ≤ p.1.2.endTs) ∧
      (∀ p ∈ after, ts + gap < p.1.1) := by
  have hdisjoint := ends_before_next h.holds h.clusters
  set before := pairs.takeWhile fun p => p.1.2.endTs < ts with hbefore
  set rest := pairs.dropWhile fun p => p.1.2.endTs < ts with hrest
  have hpairs : pairs = before ++ rest := (List.takeWhile_append_dropWhile).symm
  have hsub : ∀ p ∈ rest, p ∈ pairs := fun p hp => (List.dropWhile_sublist _).subset hp
  -- The first session left ends at the record or later, so all of them do.
  have hends : ∀ p ∈ rest, ts ≤ p.1.2.endTs := by
    have hsorted : rest.Pairwise fun p q => p.1.2.endTs < q.1.1 :=
      hdisjoint.sublist (List.dropWhile_sublist _)
    intro p hp
    cases hcons : rest with
    | nil => simp [hcons] at hp
    | cons q tail =>
        have hq : ts ≤ q.1.2.endTs := by
          have hne :=
            List.head?_dropWhile_not (fun p : Paired V A => decide (p.1.2.endTs < ts)) pairs
          rw [← hrest, hcons] at hne
          simpa using hne
        rw [hcons] at hp hsorted
        rcases List.mem_cons.mp hp with rfl | hp
        · exact hq
        · have hlt := (List.pairwise_cons.mp hsorted).1 p hp
          have := (h.holds p (hsub p (hcons ▸ List.mem_cons_of_mem _ hp))).start_lt_end hgap
          omega
  set near := rest.takeWhile fun p => p.1.1 ≤ ts + gap with hnear
  set after := rest.dropWhile fun p => p.1.1 ≤ ts + gap with hafter
  have hrest' : rest = near ++ after := (List.takeWhile_append_dropWhile).symm
  refine ⟨before, near, after, by rw [hpairs, hrest'], ?_, ?_, ?_⟩
  · intro p hp
    have hend : p.1.2.endTs < ts := by simpa using List.mem_takeWhile_imp hp
    have := (h.holds p (hpairs ▸ List.mem_append_left _ hp)).start_lt_end hgap
    exact ⟨by omega, hend⟩
  · intro p hp
    have hstart : p.1.1 ≤ ts + gap := by simpa using List.mem_takeWhile_imp hp
    exact ⟨hstart, hends p (hrest' ▸ List.mem_append_left _ hp)⟩
  · have hsorted : after.Pairwise fun p q => p.1.2.endTs < q.1.1 :=
      hdisjoint.sublist ((List.dropWhile_sublist _).trans (List.dropWhile_sublist _))
    intro p hp
    cases hcons : after with
    | nil => simp [hcons] at hp
    | cons q tail =>
        have hq : ts + gap < q.1.1 := by
          have hne :=
            List.head?_dropWhile_not (fun p : Paired V A => decide (p.1.1 ≤ ts + gap)) rest
          rw [← hafter, hcons] at hne
          simpa using hne
        rw [hcons] at hp hsorted
        rcases List.mem_cons.mp hp with rfl | hp
        · exact hq
        · have hlt := (List.pairwise_cons.mp hsorted).1 p hp
          have hmem : q ∈ pairs :=
            hsub q (hrest' ▸ List.mem_append_right _ (hcons ▸ List.mem_cons_self))
          have := (h.holds q hmem).start_lt_end hgap
          omega

/-- A session that meets the record has a record near it on both sides. -/
theorem Holds.near {ts : Int} {p : Paired V A} (h : Holds gap agg p.1 p.2)
    (hmeet : p.1.1 ≤ ts + gap ∧ ts ≤ p.1.2.endTs) :
    (∃ a ∈ p.times, ts ≤ a + gap) ∧ ∃ b ∈ p.times, b ≤ ts + gap := by
  obtain ⟨r, hr, hend⟩ := h.last
  obtain ⟨r', hr', hstart⟩ := h.first
  refine
    ⟨⟨r.1, mem_times.mpr ⟨r, hr, rfl⟩, by omega⟩, ⟨r'.1, mem_times.mpr ⟨r', hr', rfl⟩, by omega⟩⟩

theorem Grouped.clusters_join (h : Grouped gap agg entries records pairs) {ts : Int} {v : V}
    {before near after : List (Paired V A)} (hpairs : pairs = before ++ (near ++ after))
    (hbefore : ∀ p ∈ before, p.1.1 ≤ ts + gap ∧ p.1.2.endTs < ts)
    (hnear : ∀ p ∈ near, p.1.1 ≤ ts + gap ∧ ts ≤ p.1.2.endTs)
    (hafter : ∀ p ∈ after, ts + gap < p.1.1) (e : Int × Session A) :
    Clusters gap ((before ++ (e, (ts, v) :: near.flatMap Prod.snd) :: after).map Paired.times) := by
  have hmem : ∀ p, p ∈ before ∨ p ∈ near ∨ p ∈ after → Holds gap agg p.1 p.2 := by
    intro p hp
    refine h.holds p ?_
    rw [hpairs]
    simpa using hp
  have hclusters := h.clusters
  rw [hpairs, List.map_append, List.map_append] at hclusters
  have hjoined := hclusters.absorb (t := ts) ?_ ?_ ?_
  · have htimes : Paired.times (e, (ts, v) :: near.flatMap Prod.snd) =
        ts :: (near.map Paired.times).flatten := by
      unfold Paired.times
      rw [List.map_cons, List.map_flatMap, List.flatMap_def]
    rw [List.map_append, List.map_cons, htimes]
    exact hjoined
  · intro g hg a ha
    obtain ⟨p, hp, rfl⟩ := List.mem_map.mp hg
    obtain ⟨r, hr, rfl⟩ := mem_times.mp ha
    have := (hmem p (.inl hp)).leLast r hr
    have := (hbefore p hp).2
    omega
  · intro g hg
    obtain ⟨p, hp, rfl⟩ := List.mem_map.mp hg
    exact (hmem p (.inr (.inl hp))).near (hnear p hp)
  · intro g hg b hb
    obtain ⟨p, hp, rfl⟩ := List.mem_map.mp hg
    obtain ⟨r, hr, rfl⟩ := mem_times.mp hb
    have := (hmem p (.inr (.inr hp))).firstLe r hr
    have := hafter p hp
    omega

/-- The entries before a record, those it meets and those after it; the session
made of those it meets stands between the others, beside its group. -/
theorem Grouped.join (h : Grouped gap agg entries records pairs) (hagg : agg.Lawful)
    (hgap : 0 < gap) (ts : Int) (v : V) :
    ∃ before near after, entries = before ++ (near ++ after) ∧
      (∀ e ∈ before, e.1 ≤ ts + gap ∧ e.2.endTs < ts) ∧
      (∀ e ∈ near, e.1 ≤ ts + gap ∧ ts ≤ e.2.endTs) ∧ (∀ e ∈ after, ts + gap < e.1) ∧
      ∀ merged, merged = near.foldl (Merged.absorb agg.merger) ⟨ts, ts + gap, none, false⟩ →
        (∀ e ∈ before, e.1 < merged.start) ∧ (∀ e ∈ after, merged.start < e.1) ∧
        ∃ pairs', Grouped gap agg (before ++ (merged.start,
          ⟨merged.endTs, agg.combiner (merged.agg.getD agg.initial) v, merged.anyFired⟩) :: after)
          (records ++ [(ts, v)]) pairs' := by
  obtain ⟨before, near, after, hpairs, hbefore, hnear, hafter⟩ := h.parts hgap ts
  have hmem : ∀ p, p ∈ before ∨ p ∈ near ∨ p ∈ after → Holds gap agg p.1 p.2 := by
    intro p hp
    refine h.holds p ?_
    rw [hpairs]
    simpa using hp
  refine ⟨before.map Prod.fst, near.map Prod.fst, after.map Prod.fst, ?_, ?_, ?_, ?_, ?_⟩
  · rw [← h.sessions, hpairs, List.map_append, List.map_append]
  · simpa using fun a b s hs => hbefore _ hs
  · simpa using fun a b s hs => hnear _ hs
  · simpa using fun a b s hs => hafter _ hs
  intro merged hmerged
  have hstart : Absorbed gap agg ts ⟨ts, ts + gap, none, false⟩ [] :=
    ⟨.inl rfl, ⟨le_refl _, by simp⟩, .inl rfl, ⟨le_refl _, by simp⟩, rfl, rfl, fun _ => rfl⟩
  have hnew := (hstart.absorbAll hagg fun p hp => hmem p (.inr (.inl hp))).holds hagg v
  rw [List.nil_append, ← hmerged] at hnew
  set session : Session A :=
    ⟨merged.endTs, agg.combiner (merged.agg.getD agg.initial) v, merged.anyFired⟩ with hsession
  set pairs' := before ++ ((merged.start, session), (ts, v) :: near.flatMap Prod.snd) :: after
    with hpairs'
  have hholds : ∀ p ∈ pairs', Holds gap agg p.1 p.2 := by
    intro p hp
    rcases List.mem_append.mp hp with hp | hp
    · exact hmem p (.inl hp)
    · rcases List.mem_cons.mp hp with rfl | hp
      · exact hnew
      · exact hmem p (.inr (.inr hp))
  have hclusters : Clusters gap (pairs'.map Paired.times) :=
    h.clusters_join hpairs hbefore hnear hafter _
  -- The merged session starts after the sessions before it and ends before the next.
  obtain ⟨-, hrest, hacross⟩ := List.pairwise_append.mp (ends_before_next hholds hclusters)
  obtain ⟨hlater, -⟩ := List.pairwise_cons.mp hrest
  refine ⟨?_, ?_, pairs', ?_, hholds, hclusters, ?_⟩
  · intro e he
    obtain ⟨p, hp, rfl⟩ := List.mem_map.mp he
    have hlt := hacross p hp _ List.mem_cons_self
    have := (hmem p (.inl hp)).start_lt_end hgap
    exact lt_trans this hlt
  · intro e he
    obtain ⟨p, hp, rfl⟩ := List.mem_map.mp he
    exact lt_trans (hnew.start_lt_end hgap) (hlater p hp)
  · rw [hpairs', List.map_append, List.map_cons]
  · have hall := h.all
    rw [hpairs, List.flatMap_append, List.flatMap_append] at hall
    rw [hpairs', List.flatMap_append, List.flatMap_cons, List.cons_append]
    exact (List.perm_middle.trans (hall.cons _)).trans (List.perm_append_singleton _ _).symm

theorem Grouped.mergeInto {cfg : Settings} {sessions : SortedMap Int (Session A)}
    (h : Grouped cfg.gap agg sessions.entries records pairs) (hagg : agg.Lawful) {ts : Int}
    (hts : add64 ts cfg.gap = ts + cfg.gap) (v : V) :
    ∃ pairs', Grouped cfg.gap agg (Operator.mergeInto cfg agg sessions ts v).1.entries
      (records ++ [(ts, v)]) pairs' := by
  obtain ⟨before, near, after, hentries, hbefore, hnear, hafter, hjoin⟩ :=
    h.join hagg cfg.gapPos ts v
  obtain ⟨hbelow, habove, hgrouped⟩ := hjoin _ rfl
  have hscan : mergeLoop agg.merger ts (ts + cfg.gap) sessions.entries
      ⟨ts, ts + cfg.gap, none, false⟩ =
        (near.foldl (Merged.absorb agg.merger) ⟨ts, ts + cfg.gap, none, false⟩,
          before ++ after) := by
    rw [hentries]
    exact mergeLoop_parts hbefore hnear hafter
  unfold Operator.mergeInto
  simp only [hts, hscan]
  rw [SortedMap.entries_upsert_between rfl hbelow habove]
  exact hgrouped

end Step

/-! ## The sessions are the clusters -/

section Clustered
variable {entries : List (Int × Session A)} {records : List (Int × V)}
  {pairs : List (Paired V A)}

theorem Holds.span {p : Paired V A} (h : Holds gap agg p.1 p.2) :
    firstTime (sortTimes p.times) = p.1.1 ∧ lastTime (sortTimes p.times) + gap = p.1.2.endTs := by
  obtain ⟨r, hr, hstart⟩ := h.first
  obtain ⟨r', hr', hend⟩ := h.last
  have hmem : p.1.1 ∈ sortTimes p.times := mem_sortTimes.mpr (mem_times.mpr ⟨r, hr, hstart⟩)
  have hmem' : r'.1 ∈ sortTimes p.times := mem_sortTimes.mpr (mem_times.mpr ⟨r', hr', rfl⟩)
  have hne : sortTimes p.times ≠ [] := List.ne_nil_of_mem hmem
  have hsorted := sortTimes_sorted p.times
  have hspan : ∀ t ∈ sortTimes p.times, p.1.1 ≤ t ∧ t + gap ≤ p.1.2.endTs := by
    intro t ht
    obtain ⟨q, hq, rfl⟩ := mem_times.mp (mem_sortTimes.mp ht)
    exact ⟨h.firstLe q hq, h.leLast q hq⟩
  constructor
  · unfold firstTime
    rw [List.head?_eq_some_head hne, Option.getD_some]
    have hle : (sortTimes p.times).head hne ≤ p.1.1 := hsorted.rel_head hmem
    exact le_antisymm hle (hspan _ (List.head_mem hne)).1
  · unfold lastTime
    rw [List.getLast?_eq_some_getLast hne, Option.getD_some]
    have hle : r'.1 ≤ (sortTimes p.times).getLast hne := hsorted.rel_getLast hmem'
    have := (hspan _ (List.getLast_mem hne)).2
    omega

theorem Grouped.filter_span (h : Grouped gap agg entries records pairs) (hgap : 0 < gap)
    {p : Paired V A} (hp : p ∈ pairs) :
    (records.filter fun r => p.1.1 ≤ r.1 ∧ r.1 + gap ≤ p.1.2.endTs).Perm p.2 := by
  obtain ⟨l₁, l₂, hpairs⟩ := List.append_of_mem hp
  have hdisjoint := ends_before_next h.holds h.clusters
  rw [hpairs] at hdisjoint
  obtain ⟨-, hrest, hacross⟩ := List.pairwise_append.mp hdisjoint
  obtain ⟨hlater, -⟩ := List.pairwise_cons.mp hrest
  have hmem : ∀ q, q ∈ l₁ ∨ q ∈ l₂ → Holds gap agg q.1 q.2 := by
    intro q hq
    refine h.holds q ?_
    rw [hpairs]
    rcases hq with hq | hq <;> simp [hq]
  have hbefore : (l₁.flatMap Prod.snd).filter
      (fun r => p.1.1 ≤ r.1 ∧ r.1 + gap ≤ p.1.2.endTs) = [] := by
    rw [List.filter_eq_nil_iff]
    intro r hr
    obtain ⟨q, hq, hr⟩ := List.mem_flatMap.mp hr
    have := (hmem q (.inl hq)).leLast r hr
    have := hacross q hq p List.mem_cons_self
    simp only [Bool.decide_and, Bool.and_eq_true, decide_eq_true_eq]
    omega
  have hafter : (l₂.flatMap Prod.snd).filter
      (fun r => p.1.1 ≤ r.1 ∧ r.1 + gap ≤ p.1.2.endTs) = [] := by
    rw [List.filter_eq_nil_iff]
    intro r hr
    obtain ⟨q, hq, hr⟩ := List.mem_flatMap.mp hr
    have := (hmem q (.inr hq)).firstLe r hr
    have := hlater q hq
    simp only [Bool.decide_and, Bool.and_eq_true, decide_eq_true_eq]
    omega
  have hthis : p.2.filter (fun r => p.1.1 ≤ r.1 ∧ r.1 + gap ≤ p.1.2.endTs) = p.2 := by
    rw [List.filter_eq_self]
    intro r hr
    simpa using ⟨(h.holds p hp).firstLe r hr, (h.holds p hp).leLast r hr⟩
  have hperm := (h.all.symm.filter fun r => p.1.1 ≤ r.1 ∧ r.1 + gap ≤ p.1.2.endTs)
  rw [hpairs, List.flatMap_append, List.flatMap_cons, List.filter_append, List.filter_append,
    hbefore, hafter, hthis, List.nil_append, List.append_nil] at hperm
  exact hperm

/-- The sessions are those of the clusters of the timestamps. -/
theorem Grouped.eq_expected (h : Grouped gap agg entries records pairs) (hagg : agg.Lawful)
    (hgap : 0 < gap) : entries = expectedSessions gap agg records := by
  have htimes : (pairs.map Paired.times).flatten.Perm (records.map Prod.fst) := by
    have hmap := h.all.map Prod.fst
    rw [List.map_flatMap, List.flatMap_def] at hmap
    exact hmap
  have hclusters : Verified.clusters gap (records.map Prod.fst) =
      (pairs.map Paired.times).map sortTimes := by
    rw [← clusters_eq_of_perm htimes, h.clusters.splitBy (le_of_lt hgap)]
  unfold expectedSessions
  rw [hclusters, ← h.sessions, List.map_map, List.map_map]
  refine List.map_congr_left fun (p : Paired V A) hp => ?_
  have hholds := h.holds p hp
  obtain ⟨hfirst, hlast⟩ := hholds.span
  have hagree : agg.fold ((records.filter fun r => p.1.1 ≤ r.1 ∧
      r.1 ≤ lastTime (sortTimes p.times)).map Prod.snd) = p.1.2.agg := by
    have hspan : (records.filter fun r => p.1.1 ≤ r.1 ∧ r.1 ≤ lastTime (sortTimes p.times)) =
        records.filter fun r => p.1.1 ≤ r.1 ∧ r.1 + gap ≤ p.1.2.endTs := by
      refine List.filter_congr fun r _ => ?_
      rw [← hlast]
      simp
    rw [hspan, hholds.agg]
    exact hagg.comm _ _ ((h.filter_span hgap hp).map Prod.snd)
  simp only [Function.comp_apply, sessionOf, hfirst, hlast, hagree, ← hholds.fired]

end Clustered

theorem Grouped.disjoint {entries : List (Int × Session A)} {records : List (Int × V)}
    {pairs : List (Paired V A)} (h : Grouped gap agg entries records pairs) :
    entries.Pairwise fun a b => a.2.endTs < b.1 := by
  rw [← h.sessions]
  exact List.pairwise_map.mpr (ends_before_next h.holds h.clusters)

/-! ## Every sequence of records -/

/-- The times a record's additions stay within 64 bits for. -/
structure InRange (cfg : Settings) (r : Record K V) : Prop where
  time : -2 ^ 63 ≤ r.ts
  gap : r.ts + cfg.gap ≤ 2 ^ 63 - 1
  late : cfg.lateTag = true →
    0 ≤ cfg.allowedLateness ∧ r.ts + cfg.gap + cfg.allowedLateness ≤ 2 ^ 63 - 1

namespace Operator

variable {cfg : Settings} {op : Operator K A}

theorem sessions_persistKey (op : Operator K A) (key key' : K) :
    (op.persistKey cfg key).sessions key' = op.sessions key' := by
  unfold persistKey
  split
  · rfl
  · split
    · rfl
    · split <;> rfl

theorem lastWatermarkMs_persistKey (op : Operator K A) (key : K) :
    (op.persistKey cfg key).lastWatermarkMs = op.lastWatermarkMs := by
  unfold persistKey
  split
  · rfl
  · split
    · rfl
    · split <;> rfl

/-- Before any watermark every record is handled, and only its key changes. -/
theorem ingestOne_spec (agg : Aggregate V A) {r : Record K V} (hr : InRange cfg r)
    (hwm : op.lastWatermarkMs = -2 ^ 63) :
    (∀ key, (op.ingestOne cfg agg r).1.sessions key =
      if r.key = key then (mergeInto cfg agg (op.sessions key) r.ts r.value).1
      else op.sessions key) ∧
    (op.ingestOne cfg agg r).1.lastWatermarkMs = -2 ^ 63 := by
  have hgap := cfg.gapPos
  have htime := hr.time
  have hrange := hr.gap
  have hnotLate : ¬(cfg.lateTag = true ∧
      op.lastWatermarkMs ≥ add64 (add64 r.ts cfg.gap) cfg.allowedLateness) := by
    rintro ⟨htag, hge⟩
    obtain ⟨hlateness, hlate⟩ := hr.late htag
    rw [add64_eq (by omega) hrange, add64_eq (by omega) hlate] at hge
    omega
  unfold ingestOne
  rw [if_neg hnotLate]
  unfold handleRecord
  constructor
  · intro key
    rw [sessions_persistKey]
    by_cases hkey : r.key = key
    · subst hkey
      simp [sessions]
    · simp [sessions, hkey, AList.lookup_insert_ne (Ne.symm hkey)]
  · rw [lastWatermarkMs_persistKey]
    exact hwm

theorem process_grouped (hagg : agg.Lawful) {records : List (Record K V)}
    (hrange : ∀ r ∈ records, InRange cfg r) (op₀ : Operator K A) (done : List (Record K V))
    (hwm : op₀.lastWatermarkMs = -2 ^ 63)
    (h : ∀ key, ∃ pairs, Grouped cfg.gap agg (op₀.sessions key).entries (recordsOf key done) pairs)
    (key : K) :
    ∃ pairs, Grouped cfg.gap agg ((op₀.process cfg agg records).sessions key).entries
      (recordsOf key (done ++ records)) pairs := by
  induction records generalizing op₀ done with
  | nil => simpa [process] using h key
  | cons r records ih =>
      obtain ⟨hsessions, hwm'⟩ := ingestOne_spec agg (hrange r List.mem_cons_self) hwm
      have hr := hrange r List.mem_cons_self
      have hstep : ∀ key, ∃ pairs, Grouped cfg.gap agg
          ((op₀.ingestOne cfg agg r).1.sessions key).entries (recordsOf key (done ++ [r]))
            pairs := by
        intro key
        obtain ⟨pairs, hpairs⟩ := h key
        rw [hsessions]
        by_cases hkey : r.key = key
        · rw [if_pos hkey]
          have hts : add64 r.ts cfg.gap = r.ts + cfg.gap := by
            have := cfg.gapPos
            have := hr.time
            exact add64_eq (by omega) hr.gap
          have hrecords : recordsOf key (done ++ [r]) =
              recordsOf key done ++ [(r.ts, r.value)] := by
            simp [recordsOf, List.filter_append, hkey]
          rw [hrecords]
          exact hpairs.mergeInto hagg hts r.value
        · rw [if_neg hkey]
          have hrecords : recordsOf key (done ++ [r]) = recordsOf key done := by
            simp [recordsOf, List.filter_append, hkey]
          rw [hrecords]
          exact ⟨pairs, hpairs⟩
      have hrest := ih (fun r' hr' => hrange r' (List.mem_cons_of_mem _ hr'))
        (op₀.ingestOne cfg agg r).1 (done ++ [r]) hwm' hstep
      rw [List.append_assoc] at hrest
      exact hrest

end Operator

theorem recordsOf_perm {records records' : List (Record K V)} (h : records.Perm records')
    (key : K) : (recordsOf key records).Perm (recordsOf key records') :=
  (h.filter _).map _

/-- The expected sessions do not depend on the order of the records. -/
theorem expectedSessions_perm (hagg : agg.Lawful) {records records' : List (Int × V)}
    (h : records.Perm records') :
    expectedSessions gap agg records = expectedSessions gap agg records' := by
  unfold expectedSessions
  rw [clusters_eq_of_perm (h.map Prod.fst)]
  refine List.map_congr_left fun run _ => ?_
  unfold sessionOf
  rw [hagg.comm _ _ ((h.filter _).map Prod.snd)]

/-- A key's sessions after the records, from a new operator. -/
def sessionsAfter (cfg : Settings) (agg : Aggregate V A)
    (keyed : Option (AList fun _ : K => List (SessionRow A))) (records : List (Record K V))
    (key : K) : List (Int × Session A) :=
  ((({ keyed := keyed } : Operator K A).process cfg agg records).sessions key).entries

theorem sessionsAfter_grouped {cfg : Settings} (hagg : agg.Lawful)
    (keyed : Option (AList fun _ : K => List (SessionRow A))) {records : List (Record K V)}
    (hrange : ∀ r ∈ records, InRange cfg r) (key : K) :
    ∃ pairs, Grouped cfg.gap agg (sessionsAfter cfg agg keyed records key)
      (recordsOf key records) pairs := by
  have hgrouped := Operator.process_grouped hagg hrange { keyed := keyed } [] rfl
    (fun key => ⟨[], Grouped.nil⟩) key
  rw [List.nil_append] at hgrouped
  exact hgrouped

/-- With no watermark in between, the sessions of a key are those of the
clusters of its timestamps, each with the aggregate of its records; they are
disjoint and do not touch, and the order of arrival does not matter. -/
theorem sessions_are_clusters (cfg : Settings) (agg : Aggregate V A) (hagg : agg.Lawful)
    (keyed : Option (AList fun _ : K => List (SessionRow A))) (records : List (Record K V))
    (hrange : ∀ r ∈ records, InRange cfg r) (key : K) :
    sessionsAfter cfg agg keyed records key =
      expectedSessions cfg.gap agg (recordsOf key records) ∧
    (sessionsAfter cfg agg keyed records key).Pairwise (fun a b => a.2.endTs < b.1) ∧
    ∀ records', records'.Perm records →
      sessionsAfter cfg agg keyed records' key = sessionsAfter cfg agg keyed records key := by
  obtain ⟨pairs, hpairs⟩ := sessionsAfter_grouped hagg keyed hrange key
  have hexpected := hpairs.eq_expected hagg cfg.gapPos
  refine ⟨hexpected, hpairs.disjoint, ?_⟩
  intro records' hperm
  have hrange' : ∀ r ∈ records', InRange cfg r := fun r hr => hrange r (hperm.mem_iff.mp hr)
  obtain ⟨pairs', hpairs'⟩ := sessionsAfter_grouped hagg keyed hrange' key
  rw [hexpected, hpairs'.eq_expected hagg cfg.gapPos]
  exact expectedSessions_perm hagg (recordsOf_perm hperm key)

/-- Sums of integers. -/
def summing : Aggregate Int Int := ⟨0, (· + ·), (· + ·)⟩

theorem summing_lawful : summing.Lawful := by
  have hsum : ∀ vs, summing.fold vs = vs.sum := by
    intro vs
    rw [Aggregate.fold, List.sum_eq_foldl]
    rfl
  constructor
  · intro vs ws h
    exact h.foldl_eq' (fun x _ y _ z => Int.add_right_comm z x y) summing.initial
  · intro vs ws
    rw [hsum, hsum, hsum, List.sum_append]
    rfl

def gapOfTen : Settings := ⟨10, by decide, 0, false, false⟩

/-- Sessions at 0 and 20, and a record at 10 that meets both at their edges. -/
def bridged : List (Record Unit Int) := [⟨(), 1, some 0⟩, ⟨(), 2, some 20⟩, ⟨(), 4, some 10⟩]

theorem sessions_are_clusters_bridged :
    sessionsAfter gapOfTen summing none bridged () =
      expectedSessions 10 summing [(0, 1), (20, 2), (10, 4)] ∧
    sessionsAfter gapOfTen summing none bridged () = [(0, ⟨30, 7, false⟩)] ∧
    sessionsAfter gapOfTen summing none (bridged.take 2) () =
      [(0, ⟨10, 1, false⟩), (20, ⟨30, 2, false⟩)] := by
  have hrange : ∀ r ∈ bridged, InRange gapOfTen r := by
    simp only [bridged, List.forall_mem_cons]
    exact ⟨⟨by decide, by decide, by decide⟩, ⟨by decide, by decide, by decide⟩,
      ⟨by decide, by decide, by decide⟩, by simp⟩
  obtain ⟨hsessions, -, -⟩ := sessions_are_clusters gapOfTen summing summing_lawful none bridged
    hrange ()
  exact ⟨hsessions, by decide +kernel, by decide +kernel⟩

end Clink.Ports.SessionWindowOperator

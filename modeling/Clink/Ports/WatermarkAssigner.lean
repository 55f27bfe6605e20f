import Clink.Ports.Time
import Clink.Verified.Run
import Clink.Verified.SortedMap
import Clink.Verified.Text
import Mathlib.Data.Finset.Basic

/-!
# The watermark assigner of a SQL source

The embedding of the operator `assign_timestamps_row` (`src/sql/install.cpp`):
its event-time extractor, the `WatermarkAssignerOperator` around it
(`operators/watermark_assigner_operator.hpp`) on its row and its columnar path,
and the `PartitionAwareBoundedOutOfOrdernessStrategy` that decides the watermark
(`time/watermark_strategy.hpp`).

Which partitions an idleness probe finds quiet is the clock's, so a probe names
them.  A checkpoint keeps the progress of the partitions, and a restore starts a
new operator on one that was kept.  Beside the operator's own fields the state
keeps the rows delivered before the checkpoint restored from and those since,
and what each watermark was emitted over.
-/

namespace Clink.Ports.WatermarkAssigner

open Clink.Ports.Time
open Clink.Verified

/-! ## Event times -/

/-- Signed 64-bit subtraction of a bound, as the machine performs it. -/
def minus (t : EventTime) (bound : Int) : EventTime where
  millis := (t.millis - bound).bmod (2 ^ 64)
  lower := by
    have := Int.le_bmod (x := t.millis - bound) (m := 2 ^ 64) (by decide)
    omega
  upper := by
    have := Int.bmod_lt (x := t.millis - bound) (m := 2 ^ 64) (by decide)
    omega

/-- An int64. -/
def ofInt? (v : Int) : Option EventTime :=
  if h : -2 ^ 63 ≤ v ∧ v ≤ 2 ^ 63 - 1 then some ⟨v, h.1, h.2⟩ else none

def isSpace (c : Char) : Bool :=
  c == ' ' || c == '\t' || c == '\n' || c == '\r' || c.toNat == 11 || c.toNat == 12

/-- `std::stoll`: blanks, a sign, and the digits that follow; none where it
throws. -/
def stoll (text : List Char) : Option EventTime :=
  match text.dropWhile isSpace with
  | '-' :: rest =>
      (parseDecimal (2 ^ 64) (rest.takeWhile Char.isDigit)).bind fun n => ofInt? (-(n : Int))
  | '+' :: rest => (parseDecimal (2 ^ 64) (rest.takeWhile Char.isDigit)).bind fun n => ofInt? n
  | rest => (parseDecimal (2 ^ 64) (rest.takeWhile Char.isDigit)).bind fun n => ofInt? n

/-- A cell of the event-time column. -/
inductive Cell
  | null
  | integer (v : EventTime)
  /-- A double, by the integer the cast makes of it. -/
  | real (truncated : EventTime)
  | text (s : List Char)
  /-- A boolean, an array or an object. -/
  | other

/-- The extractor; a row may lack the column. -/
def extractor : Option Cell → EventTime
  | none | some .null | some .other => ⊥
  | some (.integer v) => v
  | some (.real v) => v
  | some (.text s) => (stoll s).getD ⊥

structure Record where
  /-- `Record::event_time`. -/
  eventTime : Option EventTime := none
  /-- `Record::source_partition`. -/
  sourcePartition : Option Int := none
  cell : Option Cell

/-! ## The strategy -/

structure Strategy where
  partMax : SortedMap Int EventTime := .empty
  idlePartitions : Finset Int := ∅
  /-- `global_max_`, once `global_seen_`. -/
  globalMax : Option EventTime := none
  /-- `last_base_`, once `emitted_`. -/
  lastBase : Option EventTime := none
  dirty : Bool := false

/-- The greater of a time and the one kept. -/
def raise (t : EventTime) : Option EventTime → EventTime
  | none => t
  | some old => if t > old then t else old

namespace Strategy

def onRecord (st : Strategy) (eventTime : Option EventTime) (sourcePartition : Option Int) :
    Strategy :=
  match eventTime, sourcePartition with
  | none, _ => st
  | some t, some p =>
      { st with
        partMax := st.partMax.upsert p (raise t)
        idlePartitions := st.idlePartitions.erase p
        dirty := true }
  | some t, none => { st with globalMax := some (raise t st.globalMax), dirty := true }

def setIdlePartitions (st : Strategy) (idle : List Int) : Strategy :=
  if idle.toFinset ≠ st.idlePartitions then
    { st with idlePartitions := idle.toFinset, dirty := true }
  else st

def restorePartitionProgress (st : Strategy) (progress : SortedMap Int EventTime) : Strategy :=
  { st with
    partMax := progress.entries.foldl (fun m e => m.upsert e.1 (raise e.2)) st.partMax
    dirty := st.dirty || !progress.entries.isEmpty }

/-- The smaller of a time and the one kept. -/
def keepLess (base : Option EventTime) (t : EventTime) : Option EventTime :=
  match base with
  | none => some t
  | some b => if t < b then some t else some b

/-- The base of the watermark: the partitions that are not idle, then the rows
without one. -/
def base (st : Strategy) : Option EventTime :=
  (((st.partMax.entries.filter fun e => e.1 ∉ st.idlePartitions).map Prod.snd) ++
    st.globalMax.toList).foldl keepLess none

def currentWatermark (bound : Int) (st : Strategy) : Strategy × Option Watermark :=
  if !st.dirty then (st, none)
  else
    match st.base with
    | none => ({ st with dirty := false }, none)
    | some base =>
        if st.lastBase.any (fun last => !decide (base > last)) then
          ({ st with dirty := false }, none)
        else
          ({ st with dirty := false, lastBase := some base },
            some { timestamp := minus base bound })

end Strategy

/-! ## The operator -/

/-- A row as it was delivered: its partition and its event time, if usable. -/
structure Delivery where
  sourcePartition : Option Int
  time : Option EventTime

/-- A watermark and what it was emitted over: the smallest progress of the
partitions not idle, and how many restores came before. -/
structure Emission where
  watermark : Watermark
  smallest : Option EventTime
  restores : Nat

/-- The cell's event time, if it has one. -/
def cellTime : Option Cell → Option EventTime
  | none | some .null | some .other => none
  | some (.integer v) => some v
  | some (.real v) => some v
  | some (.text s) => stoll s

/-- The row's own event time, or its cell's. -/
def Record.delivery (r : Record) : Delivery :=
  { sourcePartition := r.sourcePartition, time := r.eventTime.or (cellTime r.cell) }

/-- The largest usable event time delivered in a partition; the earliest time
where there is none. -/
def progress (p : Option Int) (rows : List Delivery) : EventTime :=
  (rows.filter fun r => r.sourcePartition = p).foldl (fun m r => max m (r.time.getD ⊥)) ⊥

def isActive (idle : Finset Int) : Option Int → Bool
  | none => true
  | some p => decide (p ∉ idle)

/-- The smallest progress of the partitions not idle, the rows without one
counting as one. -/
def smallest (idle : Finset Int) (rows : List Delivery) : Option EventTime :=
  ((rows.filter fun r => isActive idle r.sourcePartition).map fun r =>
    progress r.sourcePartition rows).foldl Strategy.keepLess none

structure System where
  strategy : Strategy := {}
  isIdle : Bool := false
  /-- The progress each checkpoint kept, with the rows delivered up to it. -/
  checkpoints : List (SortedMap Int EventTime × List Delivery) := []
  before : List Delivery := []
  since : List Delivery := []
  restores : Nat := 0
  emitted : List Emission := []

/-- Put a watermark out. -/
def System.emit (s : System) (w : Watermark) : System :=
  { s with emitted := s.emitted ++
    [⟨w, smallest s.strategy.idlePartitions (s.before ++ s.since), s.restores⟩] }

/-- Ask the strategy, and emit what it has. -/
def evaluate (bound : Int) (s : System) : System :=
  match s.strategy.currentWatermark bound with
  | (st, none) => { s with strategy := st }
  | (st, some w) => { s with strategy := st }.emit w

/-- `process`, of a row batch. -/
def processRows (st : Strategy) (batch : List Record) : Strategy :=
  if batch.all fun r => r.eventTime.isSome then
    batch.foldl (fun st r => st.onRecord r.eventTime r.sourcePartition) st
  else
    batch.foldl
      (fun st r =>
        st.onRecord (some (match r.eventTime with
          | some t => t
          | none => extractor r.cell)) r.sourcePartition) st

/-- The columnar reader of a row: the event-time column of the channel first. -/
def columnarEventTime (r : Record) : EventTime :=
  match r.eventTime with
  | some t => t
  | none =>
      match r.cell with
      | some (.integer v) => v
      | some (.real v) => v
      | some (.text s) =>
          match stoll s with
          | some t => t
          | none => ⊥
      | some .null | some .other | none => ⊥

/-- `process_columnar`; none where it leaves the batch to the row path, the
column being absent. -/
def processColumnar (st : Strategy) (hasColumn : Bool) (batch : List Record) : Option Strategy :=
  if !hasColumn then none
  else
    let times := batch.map columnarEventTime
    let parts := batch.map Record.sourcePartition
    some ((times.zip parts).foldl (fun st x => st.onRecord (some x.1) x.2) st)

inductive Batch
  | rows (batch : List Record)
  | columnar (hasColumn : Bool) (batch : List Record)

def Batch.records : Batch → List Record
  | .rows batch | .columnar _ batch => batch

/-- What the strategy makes of a batch, on the path the batch takes. -/
def feed (st : Strategy) : Batch → Strategy
  | .rows batch => processRows st batch
  | .columnar hasColumn batch => (processColumnar st hasColumn batch).getD (processRows st batch)

inductive Event
  | batch (batch : Batch)
  /-- The partitions found quiet, where any is tracked, and whether the whole
  stream is. -/
  | probe (idle : Option (List Int)) (quiet : Bool)
  | flush
  | checkpoint
  /-- A new operator on a checkpoint. -/
  | restore (checkpoint : Nat)

/-- The part of a step before the strategy is asked. -/
def prepare (s : System) : Event → System
  | .batch batch =>
      { s with
        strategy := feed s.strategy batch
        isIdle := false
        since := s.since ++ batch.records.map Record.delivery }
  | .probe (some idle) _ => { s with strategy := s.strategy.setIdlePartitions idle }
  | .probe none _ | .flush | .checkpoint | .restore _ => s

/-- The idle marker of `on_processing_time_timer`. -/
def markIdle (bound : Int) (s : System) : System :=
  match s.strategy.currentWatermark bound with
  | (st, none) => { s with strategy := st, isIdle := true }.emit (.idle ⊥)
  | (st, some w) => { s with strategy := st, isIdle := true }.emit (.idle w.timestamp)

def step (bound : Int) (s : System) (e : Event) : System :=
  match e with
  | .batch _ | .flush => evaluate bound (prepare s e)
  | .probe idle quiet =>
      let s := if idle.isSome then evaluate bound (prepare s e) else s
      if quiet && !s.isIdle then markIdle bound s else s
  | .checkpoint =>
      { s with checkpoints := s.checkpoints ++ [(s.strategy.partMax, s.before ++ s.since)] }
  | .restore k =>
      match s.checkpoints[k]? with
      | some (kept, rows) =>
          { s with
            strategy := ({} : Strategy).restorePartitionProgress kept
            isIdle := false
            before := rows
            since := []
            restores := s.restores + 1 }
      | none => s

/-- `out_of_order_ms`, with a negative one taken as none. -/
def boundOf (outOfOrderMs : Int) : Int := if outOfOrderMs < 0 then 0 else outOfOrderMs

def run (bound : Int) (es : List Event) : System := es.foldl (step bound) {}

/-! ## Least and greatest -/

variable {bound : Int} {s : System} {t m : EventTime}

theorem foldl_keepLess (ts : List EventTime) (kept : Option EventTime) :
    (ts.foldl Strategy.keepLess kept = none ↔ kept = none ∧ ts = []) ∧
      ∀ m, ts.foldl Strategy.keepLess kept = some m →
        m ∈ kept.toList ++ ts ∧ ∀ x ∈ kept.toList ++ ts, m ≤ x := by
  induction ts generalizing kept with
  | nil =>
      refine ⟨by simp, fun m hm => ?_⟩
      have hkept : kept = some m := hm
      rw [hkept]
      simp
  | cons t ts ih =>
      obtain ⟨hnone, hsome⟩ := ih (Strategy.keepLess kept t)
      cases kept with
      | none =>
          refine ⟨?_, hsome⟩
          rw [List.foldl_cons, hnone]
          simp [Strategy.keepLess]
      | some b =>
          have hkept : Strategy.keepLess (some b) t = some (min t b) := by
            by_cases hlt : t < b
            · simp [Strategy.keepLess, hlt, min_eq_left hlt.le]
            · simp [Strategy.keepLess, hlt, min_eq_right (not_lt.mp hlt)]
          rw [hkept] at hnone hsome
          refine ⟨?_, fun m hm => ?_⟩
          · rw [List.foldl_cons, hkept, hnone]
            simp
          · rw [List.foldl_cons, hkept] at hm
            obtain ⟨hmem, hle⟩ := hsome m hm
            have hmin : m ≤ min t b := hle _ List.mem_cons_self
            constructor
            · rcases List.mem_cons.mp hmem with hmin | hrest
              · rcases min_choice t b with h | h
                · rw [hmin, h]
                  exact List.mem_cons_of_mem _ List.mem_cons_self
                · rw [hmin, h]
                  exact List.mem_cons_self
              · exact List.mem_cons_of_mem _ (List.mem_cons_of_mem _ hrest)
            · intro x hx
              rcases List.mem_cons.mp hx with rfl | hx
              · exact hmin.trans (min_le_right _ _)
              · rcases List.mem_cons.mp hx with rfl | hx
                · exact hmin.trans (min_le_left _ _)
                · exact hle x (List.mem_cons_of_mem _ hx)

theorem least_none {ts : List EventTime} : ts.foldl Strategy.keepLess none = none ↔ ts = [] := by
  rw [(foldl_keepLess ts none).1]
  simp

theorem least_some {ts : List EventTime} :
    ts.foldl Strategy.keepLess none = some m ↔ m ∈ ts ∧ ∀ x ∈ ts, m ≤ x := by
  constructor
  · exact (foldl_keepLess ts none).2 m
  · rintro ⟨hmem, hle⟩
    cases hleast : ts.foldl Strategy.keepLess none with
    | none =>
        rw [least_none.mp hleast] at hmem
        exact absurd hmem List.not_mem_nil
    | some m' =>
        obtain ⟨hmem', hle'⟩ := (foldl_keepLess ts none).2 m' hleast
        rw [le_antisymm (hle' m hmem) (hle m' hmem')]

private theorem least_congr {ts us : List EventTime} (h : ∀ x, x ∈ ts ↔ x ∈ us) :
    ts.foldl Strategy.keepLess none = us.foldl Strategy.keepLess none := by
  cases hleast : us.foldl Strategy.keepLess none with
  | none =>
      rw [least_none] at hleast ⊢
      rw [List.eq_nil_iff_forall_not_mem] at hleast ⊢
      exact fun x hx => hleast x ((h x).mp hx)
  | some m =>
      rw [least_some] at hleast ⊢
      exact ⟨(h m).mpr hleast.1, fun x hx => hleast.2 x ((h x).mp hx)⟩

private theorem raise_eq (old : Option EventTime) : raise t old = max (old.getD ⊥) t := by
  cases old with
  | none => simp [raise]
  | some old =>
      unfold raise
      dsimp only [Option.getD_some]
      split
      · rename_i hlt
        rw [max_eq_right hlt.le]
      · rename_i hge
        rw [max_eq_left (not_lt.mp hge)]

theorem progress_append (p : Option Int) (rows more : List Delivery) :
    progress p (rows ++ more) = max (progress p rows) (progress p more) := by
  have hfold : ∀ (l : List Delivery) (k : EventTime),
      l.foldl (fun m r => max m (r.time.getD ⊥)) k =
        max k (l.foldl (fun m r => max m (r.time.getD ⊥)) ⊥) := by
    intro l
    induction l with
    | nil => intro k; simp
    | cons r l ih =>
        intro k
        rw [List.foldl_cons, List.foldl_cons, ih, ih (max ⊥ _),
          max_eq_right (bot_le : ⊥ ≤ r.time.getD ⊥),
          max_assoc]
  rw [progress, List.filter_append, List.foldl_append, hfold]
  rfl

/-- The progress of a partition that has delivered rows. -/
def progress? (p : Option Int) (rows : List Delivery) : Option EventTime :=
  if rows.any fun r => r.sourcePartition = p then some (progress p rows) else none

theorem progress?_snoc (p : Option Int) (rows : List Delivery) (r : Delivery) :
    progress? p (rows ++ [r]) =
      if r.sourcePartition = p then some (raise (r.time.getD ⊥) (progress? p rows))
      else progress? p rows := by
  have hlast : progress p [r] = if r.sourcePartition = p then r.time.getD ⊥ else ⊥ := by
    by_cases hp : r.sourcePartition = p
    · simp [progress, hp]
    · simp [progress, hp]
  by_cases hp : r.sourcePartition = p
  · rw [if_pos hp, raise_eq, progress?, if_pos (by simp [hp]), progress_append, hlast, if_pos hp]
    cases hany : rows.any fun r => r.sourcePartition = p with
    | true => rw [progress?, hany, if_pos rfl, Option.getD_some]
    | false =>
        have hnone : rows.filter (fun r => r.sourcePartition = p) = [] := by
          rw [List.filter_eq_nil_iff]
          intro r hr
          rw [List.any_eq_false] at hany
          exact hany r hr
        rw [progress?, hany, if_neg (by decide), Option.getD_none, progress, hnone, List.foldl_nil]
  · rw [if_neg hp, progress?, progress?, progress_append, hlast, if_neg hp, max_eq_left bot_le,
      List.any_append]
    simp [hp]

/-! ## What the strategy knows -/

theorem extractor_eq (cell : Option Cell) : extractor cell = (cellTime cell).getD ⊥ := by
  cases cell with
  | none => rfl
  | some cell => cases cell <;> rfl

private theorem columnarEventTime_eq (r : Record) :
    columnarEventTime r = r.delivery.time.getD ⊥ := by
  unfold columnarEventTime Record.delivery
  cases r.eventTime with
  | some t => rfl
  | none =>
      cases r.cell with
      | none => rfl
      | some cell =>
          cases cell with
          | text text =>
              dsimp only [Option.none_or, cellTime]
              cases stoll text <;> rfl
          | _ => rfl

/-- A row delivered to the strategy. -/
def observe (st : Strategy) (r : Delivery) : Strategy :=
  st.onRecord (some (r.time.getD ⊥)) r.sourcePartition

/-- Both paths hand the strategy every row, with its event time or, for want of
one, the earliest. -/
theorem feed_eq (st : Strategy) (batch : Batch) :
    feed st batch = (batch.records.map Record.delivery).foldl observe st := by
  have hrows : ∀ (batch : List Record) (st : Strategy),
      processRows st batch = (batch.map Record.delivery).foldl observe st := by
    intro batch st
    rw [List.foldl_map]
    unfold processRows
    split
    · rename_i hall
      refine List.foldl_ext _ _ _ fun st r hr => ?_
      obtain ⟨t, ht⟩ := Option.isSome_iff_exists.mp (List.all_eq_true.mp hall r hr)
      simp [observe, Record.delivery, ht]
    · refine List.foldl_ext _ _ _ fun st r _ => ?_
      unfold observe Record.delivery
      cases ht : r.eventTime with
      | some t => rfl
      | none =>
          dsimp only [Option.none_or]
          rw [extractor_eq]
  cases batch with
  | rows batch => exact hrows batch st
  | columnar hasColumn batch =>
      cases hasColumn with
      | false => exact hrows batch st
      | true =>
          show ((batch.map columnarEventTime).zip (batch.map Record.sourcePartition)).foldl _ st = _
          rw [List.zip_map', List.foldl_map, List.foldl_map]
          simp only [columnarEventTime_eq, observe]
          rfl

/-- What the strategy has of the rows: the progress of every partition, and that
of the rows without one since the restore. -/
structure Knows (st : Strategy) (before since : List Delivery) : Prop where
  parts : ∀ p, st.partMax.find? p = progress? (some p) (before ++ since)
  global : st.globalMax = progress? none since

/-- The base of the watermark, from the rows. -/
def reached (idle : Finset Int) (before since : List Delivery) : Option EventTime :=
  ((((before ++ since).filter fun r => r.sourcePartition.isSome && isActive idle
    r.sourcePartition).map
      fun r => progress r.sourcePartition (before ++ since)) ++
    ((since.filter fun r => r.sourcePartition.isNone).map fun _ => progress none since)).foldl
      Strategy.keepLess none

theorem progress?_eq_some {p : Option Int} {rows : List Delivery} :
    progress? p rows = some t ↔ (∃ r ∈ rows, r.sourcePartition = p) ∧ progress p rows = t := by
  unfold progress?
  split
  · rename_i hany
    obtain ⟨r, hr, hp⟩ := List.any_eq_true.mp hany
    simp only [Option.some.injEq]
    exact ⟨fun h => ⟨⟨r, hr, of_decide_eq_true hp⟩, h⟩, fun h => h.2⟩
  · rename_i hany
    refine ⟨fun h => Option.noConfusion rfl (heq_of_eq h), fun h => absurd ?_ hany⟩
    obtain ⟨⟨r, hr, hp⟩, -⟩ := h
    exact List.any_eq_true.mpr ⟨r, hr, decide_eq_true hp⟩

namespace Knows

variable {st : Strategy} {before since : List Delivery}

section

variable (h : Knows st before since)
include h

theorem observe (r : Delivery) : Knows (observe st r) before (since ++ [r]) := by
  unfold WatermarkAssigner.observe
  cases hp : r.sourcePartition with
  | none =>
      refine ⟨fun q => ?_, ?_⟩
      · rw [← List.append_assoc, progress?_snoc, if_neg (by rw [hp]; simp)]
        exact h.parts q
      · rw [progress?_snoc, if_pos hp]
        show some (raise _ st.globalMax) = _
        rw [h.global]
  | some p =>
      refine ⟨fun q => ?_, ?_⟩
      · show (st.partMax.upsert p _).find? q = _
        rw [SortedMap.find?_upsert, ← List.append_assoc, progress?_snoc, hp]
        by_cases hq : q = p
        · rw [if_pos hq, if_pos (by rw [hq]), h.parts, hq]
        · rw [if_neg hq, if_neg (by simpa using Ne.symm hq)]
          exact h.parts q
      · rw [progress?_snoc, if_neg (by rw [hp]; simp)]
        exact h.global

theorem observes (rows : List Delivery) :
    Knows (rows.foldl WatermarkAssigner.observe st) before (since ++ rows) := by
  induction rows generalizing st since with
  | nil =>
      rw [List.append_nil]
      exact h
  | cons r rows ih =>
      rw [List.foldl_cons, List.append_cons]
      exact ih (h.observe r)

theorem setIdlePartitions (idle : List Int) : Knows (st.setIdlePartitions idle) before since := by
  unfold Strategy.setIdlePartitions
  split <;> exact ⟨h.parts, h.global⟩

theorem currentWatermark (bound : Int) : Knows (st.currentWatermark bound).1 before since := by
  unfold Strategy.currentWatermark
  split
  · exact h
  · split
    · exact ⟨h.parts, h.global⟩
    · split <;> exact ⟨h.parts, h.global⟩

omit h in
theorem restored {kept : SortedMap Int EventTime} {rows : List Delivery}
    (h : ∀ p, kept.find? p = progress? (some p) rows) :
    Knows (({} : Strategy).restorePartitionProgress kept) rows [] := by
  have hfold : ∀ (entries : List (Int × EventTime)) (m : SortedMap Int EventTime) (p : Int),
      (entries.Pairwise fun a b => a.1 < b.1) → (∀ e ∈ entries, m.find? e.1 = none) →
      (entries.foldl (fun m e => m.upsert e.1 (raise e.2)) m).find? p =
        (entries.lookup p).or (m.find? p) := by
    intro entries
    induction entries with
    | nil => intro m p _ _; rfl
    | cons e entries ih =>
        intro m p hsorted hnew
        obtain ⟨hhead, htail⟩ := List.pairwise_cons.mp hsorted
        rw [List.foldl_cons, ih _ p htail]
        · obtain ⟨k, v⟩ := e
          rw [SortedMap.find?_upsert, hnew (k, v) List.mem_cons_self]
          by_cases hp : p = k
          · have hlater : entries.lookup p = none := by
              rw [List.lookup_eq_none_iff]
              intro e' he'
              simpa [hp] using (hhead e' he').ne
            rw [if_pos hp, hlater, hp, List.lookup_cons_self]
            rfl
          · have hbeq : (p == k) = false := by simpa using hp
            rw [if_neg hp, List.lookup_cons, hbeq]
        · intro e' he'
          rw [SortedMap.find?_upsert, if_neg (hhead e' he').ne']
          exact hnew e' (List.mem_cons_of_mem _ he')
  refine ⟨fun p => ?_, rfl⟩
  rw [List.append_nil, ← h p]
  show (kept.entries.foldl _ SortedMap.empty).find? p = _
  rw [hfold kept.entries _ p kept.sorted fun e _ => SortedMap.find?_empty _, SortedMap.find?_empty,
    Option.or_none]
  rfl

theorem base_eq : st.base = reached st.idlePartitions before since := by
  refine least_congr fun x => ?_
  simp only [List.mem_append, List.mem_map, List.mem_filter]
  refine or_congr ?_ ?_
  · constructor
    · rintro ⟨⟨p, v⟩, ⟨hmem, hactive⟩, rfl⟩
      have hfind := SortedMap.find?_eq_some_iff.mpr hmem
      rw [h.parts p] at hfind
      obtain ⟨⟨r, hr, hp⟩, hv⟩ := progress?_eq_some.mp hfind
      refine ⟨r, ⟨List.mem_append.mp hr, ?_⟩, by rw [hp]; exact hv⟩
      rw [hp]
      exact hactive
    · rintro ⟨r, ⟨hr, hactive⟩, rfl⟩
      obtain ⟨hsome, hidle⟩ := Bool.and_eq_true_iff.mp hactive
      obtain ⟨p, hp⟩ := Option.isSome_iff_exists.mp hsome
      rw [hp] at hidle ⊢
      refine ⟨(p, progress (some p) (before ++ since)), ⟨?_, hidle⟩, rfl⟩
      refine SortedMap.find?_eq_some_iff.mp ?_
      rw [h.parts p]
      exact progress?_eq_some.mpr ⟨⟨r, List.mem_append.mpr hr, hp⟩, rfl⟩
  · rw [h.global, Option.mem_toList, progress?_eq_some]
    constructor
    · rintro ⟨⟨r, hr, hp⟩, hx⟩
      exact ⟨r, ⟨hr, by rw [hp]; rfl⟩, hx⟩
    · rintro ⟨r, ⟨hr, hp⟩, hx⟩
      exact ⟨⟨r, hr, Option.isNone_iff_eq_none.mp hp⟩, hx⟩

end

end Knows

/-! ## Never ahead of the data -/

/-- The state is the operator's on the rows it was given. -/
structure Tracks (bound : Int) (s : System) : Prop where
  knows : Knows s.strategy s.before s.since
  checkpoints : ∀ c ∈ s.checkpoints, ∀ p, c.1.find? p = progress? (some p) c.2
  restores : ∀ e ∈ s.emitted, e.restores ≤ s.restores
  /-- An active watermark since the restore came from a base not above the last. -/
  bases : ∀ e ∈ s.emitted, e.watermark.isIdle = false → e.restores = s.restores →
    ∃ base last, s.strategy.lastBase = some last ∧ base ≤ last ∧
      e.watermark.timestamp = minus base bound

/-- The active watermarks are not ahead of the data, and increase between
restores. -/
structure NeverAhead (bound : Int) (emitted : List Emission) : Prop where
  behind : ∀ e ∈ emitted, e.watermark.isIdle = false →
    ∃ m, e.smallest = some m ∧ e.watermark.timestamp.millis ≤ m.millis - bound
  increasing : emitted.Pairwise fun a b => a.watermark.isIdle = false →
    b.watermark.isIdle = false → a.restores = b.restores →
      a.watermark.timestamp < b.watermark.timestamp

/-- Where the strategy is asked and the base advances: taking the bound off it
stays in range, and no row without a partition, delivered before the checkpoint
restored from, is further behind. -/
def advancesSafely (bound : Int) (s : System) : Prop :=
  s.strategy.dirty = true → ∀ base, reached s.strategy.idlePartitions s.before s.since = some base →
    (∀ last, s.strategy.lastBase = some last → last < base) →
      -2 ^ 63 ≤ base.millis - bound ∧
        ∀ m, smallest s.strategy.idlePartitions (s.before ++ s.since) = some m → base ≤ m

/-- The step meets the condition wherever it emits an active watermark. -/
def stepsSafely (bound : Int) (s : System) (e : Event) : Prop :=
  match e with
  | .batch _ | .flush | .probe (some _) _ => advancesSafely bound (prepare s e)
  | .probe none _ | .checkpoint | .restore _ => True

/-- In range, the bound comes off exactly. -/
theorem minus_millis (h : -2 ^ 63 ≤ t.millis - bound) (hbound : 0 ≤ bound) :
    (minus t bound).millis = t.millis - bound := by
  have hupper := t.upper
  show (t.millis - bound).bmod (2 ^ 64) = t.millis - bound
  rw [Int.bmod_eq_of_le] <;> omega

/-- Out of range, the result is ahead of every time less the bound. -/
theorem lt_minus (h : t.millis - bound < -2 ^ 63) (m : EventTime) :
    m.millis - bound < (minus t bound).millis := by
  have hlow := (minus t bound).lower
  have hm := m.upper
  have ht := t.lower
  have hcast : ((2 ^ 64 : Nat) : Int) = 18446744073709551616 := by decide
  have hmod : (minus t bound).millis =
      t.millis - bound - ((2 ^ 64 : Nat) : Int) * (t.millis - bound).bdiv (2 ^ 64) :=
    Int.bmod_eq_self_sub_mul_bdiv _ _
  rw [hcast] at hmod
  generalize (t.millis - bound).bdiv (2 ^ 64) = q at hmod
  omega

theorem Tracks.start (bound : Int) : Tracks bound {} where
  knows := ⟨fun _ => rfl, rfl⟩
  checkpoints _ h := absurd h List.not_mem_nil
  restores _ h := absurd h List.not_mem_nil
  bases _ h := absurd h List.not_mem_nil

/-- The base is there and above the last one. -/
def Strategy.Advances (st : Strategy) (base : EventTime) : Prop :=
  st.dirty = true ∧ st.base = some base ∧ ∀ last, st.lastBase = some last → last < base

theorem currentWatermark_cases (bound : Int) (st : Strategy) :
    ((∀ base, ¬ st.Advances base) ∧
        st.currentWatermark bound = ({ st with dirty := false }, none)) ∨
      ∃ base, st.Advances base ∧ st.currentWatermark bound =
        ({ st with dirty := false, lastBase := some base },
          some { timestamp := minus base bound }) := by
  unfold Strategy.currentWatermark
  cases hdirty : st.dirty with
  | false =>
      refine .inl ⟨fun base h => absurd (hdirty.symm.trans h.1) (by decide), ?_⟩
      rw [if_pos (by decide), ← hdirty]
  | true =>
      rw [if_neg (by decide)]
      cases hbase : st.base with
      | none =>
          refine .inl ⟨fun base h => ?_, rfl⟩
          exact Option.noConfusion rfl (heq_of_eq (hbase.symm.trans h.2.1))
      | some base =>
          dsimp only
          split
          · rename_i hold
            refine .inl ⟨fun other h => ?_, rfl⟩
            obtain rfl := Option.some.inj (hbase.symm.trans h.2.1)
            obtain ⟨last, hlast, hle⟩ := (Option.any_eq_true _ _).mp hold
            have hlt := h.2.2 last hlast
            rw [Bool.not_eq_true', decide_eq_false_iff_not] at hle
            exact hle hlt
          · rename_i hnew
            refine .inr ⟨base, ⟨hdirty, hbase, fun last hlast => ?_⟩, rfl⟩
            rw [hlast] at hnew
            simpa using hnew

private theorem observes_lastBase (rows : List Delivery) (st : Strategy) :
    (rows.foldl observe st).lastBase = st.lastBase := by
  induction rows generalizing st with
  | nil => rfl
  | cons r rows ih =>
      rw [List.foldl_cons, ih]
      unfold observe Strategy.onRecord
      cases r.sourcePartition <;> rfl

private theorem setIdlePartitions_lastBase (idle : List Int) (st : Strategy) :
    (st.setIdlePartitions idle).lastBase = st.lastBase := by
  unfold Strategy.setIdlePartitions
  split <;> rfl

namespace Tracks

theorem prepare (h : Tracks bound s) (e : Event) : Tracks bound (prepare s e) := by
  unfold WatermarkAssigner.prepare
  split
  · refine ⟨?_, h.checkpoints, h.restores, ?_⟩
    · rw [feed_eq]
      exact h.knows.observes _
    · rw [feed_eq, observes_lastBase]
      exact h.bases
  · refine ⟨h.knows.setIdlePartitions _, h.checkpoints, h.restores, ?_⟩
    rw [setIdlePartitions_lastBase]
    exact h.bases
  · exact h
  · exact h
  · exact h
  · exact h

/-- The strategy has been asked and something put out. -/
theorem asked (h : Tracks bound s) (isIdle : Bool) (out : List Emission) {st : Strategy}
    (hst : Knows st s.before s.since)
    (hlast : ∀ last, s.strategy.lastBase = some last → ∃ last',
        st.lastBase = some last' ∧ last ≤ last')
    (hout : ∀ e ∈ out, e.restores = s.restores ∧ (e.watermark.isIdle = false →
      ∃ base, st.lastBase = some base ∧ e.watermark.timestamp = minus base bound)) :
    Tracks bound { s with strategy := st, isIdle := isIdle, emitted := s.emitted ++ out } where
  knows := hst
  checkpoints := h.checkpoints
  restores e he := by
    rcases List.mem_append.mp he with hold | hnew
    · exact h.restores e hold
    · exact (hout e hnew).1.le
  bases e he hactive hrestores := by
    rcases List.mem_append.mp he with hold | hnew
    · obtain ⟨base, last, hl, hle, ht⟩ := h.bases e hold hactive hrestores
      obtain ⟨last', hl', hle'⟩ := hlast last hl
      exact ⟨base, last', hl', hle.trans hle', ht⟩
    · obtain ⟨base, hbase, ht⟩ := (hout e hnew).2 hactive
      exact ⟨base, base, hbase, le_refl base, ht⟩

theorem keeps_last {st : Strategy} {base : EventTime} (h : st.Advances base) :
    ∀ last, st.lastBase = some last → ∃ last', some base = some last' ∧ last ≤ last' :=
  fun last hlast => ⟨base, rfl, (h.2.2 last hlast).le⟩

theorem evaluate (h : Tracks bound s) : Tracks bound (evaluate bound s) := by
  have hknows := h.knows.currentWatermark bound
  unfold WatermarkAssigner.evaluate
  rcases currentWatermark_cases bound s.strategy with ⟨-, heq⟩ | ⟨base, hadv, heq⟩
  · rw [heq] at hknows ⊢
    have := h.asked s.isIdle [] hknows (fun last hl => ⟨last, hl, le_refl last⟩) (by simp)
    rw [List.append_nil] at this
    exact this
  · rw [heq] at hknows ⊢
    refine h.asked s.isIdle _ hknows (keeps_last hadv) fun e he => ?_
    rw [List.mem_singleton.mp he]
    exact ⟨rfl, fun _ => ⟨base, rfl, rfl⟩⟩

theorem markIdle (h : Tracks bound s) : Tracks bound (markIdle bound s) := by
  have hknows := h.knows.currentWatermark bound
  unfold WatermarkAssigner.markIdle
  rcases currentWatermark_cases bound s.strategy with ⟨-, heq⟩ | ⟨base, hadv, heq⟩
  · rw [heq] at hknows ⊢
    refine h.asked true _ hknows (fun last hl => ⟨last, hl, le_refl last⟩) fun e he => ?_
    rw [List.mem_singleton.mp he]
    exact ⟨rfl, fun hactive => Bool.noConfusion hactive⟩
  · rw [heq] at hknows ⊢
    refine h.asked true _ hknows (keeps_last hadv) fun e he => ?_
    rw [List.mem_singleton.mp he]
    exact ⟨rfl, fun hactive => Bool.noConfusion hactive⟩

theorem step (h : Tracks bound s) (e : Event) : Tracks bound (step bound s e) := by
  cases e with
  | batch batch => exact (h.prepare (.batch batch)).evaluate
  | flush => exact (h.prepare .flush).evaluate
  | probe idle quiet =>
      have hasked : Tracks bound (if idle.isSome then
          WatermarkAssigner.evaluate bound (WatermarkAssigner.prepare s (.probe idle quiet)) else
            s) := by
        split
        · exact (h.prepare _).evaluate
        · exact h
      unfold WatermarkAssigner.step
      dsimp only
      generalize (if idle.isSome then
        WatermarkAssigner.evaluate bound (WatermarkAssigner.prepare s (.probe idle quiet)) else
          s) = t
        at hasked
      split
      · exact hasked.markIdle
      · exact hasked
  | checkpoint =>
      refine ⟨h.knows, fun c hc => ?_, h.restores, h.bases⟩
      rcases List.mem_append.mp hc with hold | hnew
      · exact h.checkpoints c hold
      · rw [List.mem_singleton.mp hnew]
        exact h.knows.parts
  | restore k =>
      unfold WatermarkAssigner.step
      dsimp only
      split
      · rename_i kept rows hget
        have hkept := h.checkpoints (kept, rows) (List.mem_of_getElem? hget)
        refine ⟨.restored hkept, h.checkpoints, fun e he => ?_, fun e he _ hr => ?_⟩
        · exact (h.restores e he).trans (Nat.le_succ _)
        · have hold := h.restores e he
          have hnew : e.restores = s.restores + 1 := hr
          omega
      · exact h

end Tracks

/-- A base comes from a partition that is not idle, so the smallest progress is
one. -/
theorem smallest_of_reached {idle : Finset Int} {before since : List Delivery} {base : EventTime}
    (h : reached idle before since = some base) :
    ∃ m, smallest idle (before ++ since) = some m := by
  obtain ⟨hmem, -⟩ := least_some.mp h
  have hrow : ∃ r ∈ before ++ since, isActive idle r.sourcePartition = true := by
    rcases List.mem_append.mp hmem with hpart | hglobal
    · obtain ⟨r, hr, -⟩ := List.mem_map.mp hpart
      obtain ⟨hr, hactive⟩ := List.mem_filter.mp hr
      exact ⟨r, hr, (Bool.and_eq_true_iff.mp hactive).2⟩
    · obtain ⟨r, hr, -⟩ := List.mem_map.mp hglobal
      obtain ⟨hr, hnone⟩ := List.mem_filter.mp hr
      refine ⟨r, List.mem_append_right _ hr, ?_⟩
      rw [Option.isNone_iff_eq_none.mp hnone]
      rfl
  obtain ⟨r, hr, hactive⟩ := hrow
  refine Option.ne_none_iff_exists'.mp fun hnone => ?_
  have hempty := List.map_eq_nil_iff.mp (least_none.mp hnone)
  exact List.not_mem_nil (hempty ▸ List.mem_filter.mpr ⟨hr, hactive⟩)

namespace NeverAhead

theorem snoc_iff {emitted : List Emission} {e : Emission} (h : NeverAhead bound emitted) :
    NeverAhead bound (emitted ++ [e]) ↔
      (e.watermark.isIdle = false →
        (∃ m, e.smallest = some m ∧ e.watermark.timestamp.millis ≤ m.millis - bound) ∧
          ∀ a ∈ emitted, a.watermark.isIdle = false → a.restores = e.restores →
            a.watermark.timestamp < e.watermark.timestamp) := by
  constructor
  · rintro ⟨hbehind, hincreasing⟩ hactive
    refine ⟨hbehind e (by simp) hactive, fun a ha hidle hrestores => ?_⟩
    exact (List.pairwise_append.mp hincreasing).2.2 a ha e (by simp) hidle hactive hrestores
  · intro hlast
    refine ⟨fun a ha hactive => ?_, List.pairwise_append.mpr ⟨h.increasing, by simp, ?_⟩⟩
    · rcases List.mem_append.mp ha with hold | hnew
      · exact h.behind a hold hactive
      · rw [List.mem_singleton] at hnew
        subst hnew
        exact (hlast hactive).1
    · intro a ha b hb haidle hbidle hrestores
      rw [List.mem_singleton] at hb
      subst hb
      exact (hlast hbidle).2 a ha haidle hrestores

/-- A watermark that is behind the data was not wrapped. -/
theorem in_range {base m : EventTime}
    (h : (minus base bound).millis ≤ m.millis - bound) : -2 ^ 63 ≤ base.millis - bound := by
  by_contra hlow
  have := lt_minus (not_le.mp hlow) m
  omega

theorem evaluate_iff (h : NeverAhead bound s.emitted) (htracks : Tracks bound s)
    (hbound : 0 ≤ bound) :
    NeverAhead bound (evaluate bound s).emitted ↔ advancesSafely bound s := by
  have hbase := htracks.knows.base_eq
  unfold evaluate advancesSafely
  rcases currentWatermark_cases bound s.strategy with ⟨hnot, heq⟩ | ⟨base, hadv, heq⟩
  · rw [heq]
    refine iff_of_true h fun hdirty base hreached hlast => ?_
    exact absurd ⟨hdirty, hbase.trans hreached, hlast⟩ (hnot base)
  · rw [heq]
    obtain ⟨hdirty, hsome, hlast⟩ := hadv
    have hreached : reached s.strategy.idlePartitions s.before s.since = some base :=
      hbase.symm.trans hsome
    obtain ⟨m, hm⟩ := smallest_of_reached hreached
    refine (snoc_iff h).trans ?_
    constructor
    · intro hnew _ base' hreached' _
      obtain rfl := Option.some.inj (hreached.symm.trans hreached')
      obtain ⟨⟨m', hm', hle⟩, -⟩ := hnew rfl
      have hrange := in_range hle
      refine ⟨hrange, fun m'' hm'' => ?_⟩
      obtain rfl := Option.some.inj (hm'.symm.trans hm'')
      have hexact := minus_millis hrange hbound
      show base.millis ≤ m'.millis
      dsimp only at hle
      omega
    · intro hsafe _
      obtain ⟨hrange, hle⟩ := hsafe hdirty base hreached hlast
      have hexact := minus_millis hrange hbound
      refine ⟨⟨m, hm, ?_⟩, fun a ha hidle hrestores => ?_⟩
      · have : base.millis ≤ m.millis := hle m hm
        dsimp only
        omega
      · -- an earlier watermark since the restore is a lower base less the same bound
        obtain ⟨old, last, hl, hold, htime⟩ := htracks.bases a ha hidle hrestores
        obtain ⟨m', -, hbehind⟩ := h.behind a ha hidle
        rw [htime] at hbehind
        have holdexact := minus_millis (in_range hbehind) hbound
        have hlt : old.millis < base.millis := lt_of_le_of_lt hold (hlast last hl)
        rw [htime]
        show (minus old bound).millis < (minus base bound).millis
        omega

theorem markIdle_iff :
    NeverAhead bound (markIdle bound s).emitted ↔ NeverAhead bound s.emitted := by
  have hstays : ∀ (out : Emission), out.watermark.isIdle = true →
      (NeverAhead bound (s.emitted ++ [out]) ↔ NeverAhead bound s.emitted) := by
    intro out hidle
    constructor
    · rintro ⟨hbehind, hincreasing⟩
      exact ⟨fun e he => hbehind e (List.mem_append_left _ he),
        (List.pairwise_append.mp hincreasing).1⟩
    · intro h
      rw [snoc_iff h]
      intro hactive
      exact absurd (hidle.symm.trans hactive) (by decide)
  unfold markIdle
  split <;> exact hstays _ rfl

theorem step_iff (h : NeverAhead bound s.emitted) (htracks : Tracks bound s) (hbound : 0 ≤ bound)
    (e : Event) : NeverAhead bound (step bound s e).emitted ↔ stepsSafely bound s e := by
  have hasked : ∀ e, (prepare s e).emitted = s.emitted →
      (NeverAhead bound (evaluate bound (prepare s e)).emitted ↔
        advancesSafely bound (prepare s e)) := by
    intro e hsame
    exact evaluate_iff (by rw [hsame]; exact h) (htracks.prepare e) hbound
  cases e with
  | batch batch => exact hasked (.batch batch) rfl
  | flush => exact hasked .flush rfl
  | probe idle quiet =>
      have hmark : ∀ t : System,
          NeverAhead bound (if quiet && !t.isIdle then markIdle bound t else t).emitted ↔
          NeverAhead bound t.emitted := by
        intro t
        split
        · exact markIdle_iff
        · rfl
      cases idle with
      | none => exact (hmark s).trans (iff_of_true h trivial)
      | some idle => exact (hmark _).trans (hasked (.probe (some idle) quiet) rfl)
  | checkpoint => exact iff_of_true h trivial
  | restore k =>
      refine iff_of_true ?_ trivial
      unfold step
      dsimp only
      split <;> exact h

end NeverAhead

/-- Along a history the watermarks are never ahead of the data, and increase
between restores, if and only if every step meets the condition. -/
theorem watermarks_never_ahead_iff (outOfOrderMs : Int) (es : List Event) :
    (∀ pre, pre <+: es →
        NeverAhead (boundOf outOfOrderMs) (run (boundOf outOfOrderMs) pre).emitted) ↔
      Runs.Allowed (step (boundOf outOfOrderMs))
        (fun _ s e => stepsSafely (boundOf outOfOrderMs) s e) [] {} es := by
  have hbound : 0 ≤ boundOf outOfOrderMs := by
    unfold boundOf
    split <;> omega
  refine Runs.allowed_iff (I := Tracks (boundOf outOfOrderMs))
    (P := fun s => NeverAhead (boundOf outOfOrderMs) s.emitted) ?_ ?_ (Tracks.start _) ?_
  · exact fun _ e h => h.step e
  · exact fun _ e htracks h => h.step_iff htracks hbound e
  · exact ⟨fun _ h => absurd h List.not_mem_nil, .nil⟩

/-- A row of partition 1 without an event time, in the batch with the first row
of partition 0: the watermark is at the end of time. -/
theorem null_row_ends_time :
    ¬ NeverAhead (boundOf 5000) (run (boundOf 5000) [.batch (.rows [
      { sourcePartition := some 0, cell := some (.integer ⟨100000, by decide, by decide⟩) },
      { sourcePartition := some 1, cell := some .null }])]).emitted := by
  intro h
  have hout : ((run (boundOf 5000) [.batch (.rows [
      { sourcePartition := some 0, cell := some (.integer ⟨100000, by decide, by decide⟩) },
      { sourcePartition := some 1, cell := some .null }])]).emitted.map fun e =>
        (e.watermark.timestamp.millis, e.watermark.isIdle)) = [(9223372036854770808, false)] := by
    decide +kernel
  obtain ⟨e, he, heq⟩ := List.mem_map.mp (hout ▸ List.mem_cons_self)
  obtain ⟨htime, hactive⟩ := Prod.mk.inj heq
  obtain ⟨m, -, hle⟩ := h.behind e he hactive
  have hupper := m.upper
  have hbound : boundOf 5000 = 5000 := by decide
  rw [htime, hbound] at hle
  omega

end Clink.Ports.WatermarkAssigner

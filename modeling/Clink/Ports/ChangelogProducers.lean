import Clink.Verified.DepthFirst

/-!
# Marking the aggregates that must emit a changelog

The embedding of `mark_changelog_producers` (`src/sql/physical_plan.cpp`), the
pass that sets `emit_changelog` on the aggregates of a plan whose output some
operator reads as a changelog.

The pass walks back from every consumer it knows through the operators it knows
to forward the row kind.  The walk keeps a stack and no visited set, looks the
references up as they are written, and stops after a fixed number of rounds.
`markChangelogProducers_eq` says which operators it marks; what has to be
marked is `Reaches`, over the references as the rest of the planner reads them.
-/

namespace Clink.Ports.ChangelogProducers

open Clink.Verified.DepthFirst

/-- What the pass reads and writes of an `OperatorSpec`; `emitChangelog` is the
parameter `emit_changelog` being `"true"`. -/
structure OperatorSpec where
  id : List Char
  type : String
  inputs : List (List Char) := []
  emitChangelog : Bool := false
  deriving DecidableEq

/-! ## Input references -/

/-- `ref.find("::")`. -/
def findColons : List Char → Option Nat
  | ':' :: ':' :: _ => some 0
  | _ :: rest => (findColons rest).map (· + 1)
  | [] => none

/-- The base op id an input reference names: `id`, `id.N` or `id::tag`. -/
def inputBaseId (ref : List Char) : List Char :=
  match findColons ref with
  | some colons => ref.take colons
  | none =>
      -- `fromEnd` counts the characters behind the last dot.
      match ref.reverse.findIdx? (· = '.') with
      | none => ref
      | some fromEnd =>
          if 0 < fromEnd ∧ (ref.reverse.take fromEnd).all Char.isDigit then
            ref.take (ref.length - 1 - fromEnd)
          else ref

/-- `by_id`: of two operators with one id the later one is kept. -/
def byId (ops : List OperatorSpec) (ref : List Char) : Option Nat :=
  (List.range ops.length).reverse.find? fun i => (ops[i]?).map (·.id) = some ref

/-! ## The pass -/

/-- `is_consumer`. -/
def isConsumer (type : String) : Bool :=
  type = "changelog_net_sink" || type = "equi_join_row" || type = "aggregate_row" ||
    type = "last_n_agg_row"

/-- `is_passthrough`. -/
def isPassthrough (type : String) : Bool :=
  type = "row_compute_key" || type = "filter_row_predicate" || type = "project_row" ||
    type = "identity_row" || type = "assign_timestamps_row" || type = "union_row" ||
    type = "async_lookup_join_row" || type = "row_bind_columns"

/-- The rounds of `mark_from`: at most the given number of pops, the back of
`work` at the head of the list. -/
def markLoop (named : List Char → Option Nat) :
    Nat → List (List Char) → List OperatorSpec → List OperatorSpec
  | 0, _, ops => ops
  | _ + 1, [], ops => ops
  | rounds + 1, cur :: work, ops =>
      match named cur with
      | none => markLoop named rounds work ops
      | some i =>
          match ops[i]? with
          | none => markLoop named rounds work ops
          | some up =>
              if up.type = "aggregate_row" then
                markLoop named rounds work (ops.set i { up with emitChangelog := true })
              else if isPassthrough up.type then
                markLoop named rounds (up.inputs.reverse ++ work) ops
              else markLoop named rounds work ops

/-- The `cap` of `mark_from`. -/
def cap (ops : List OperatorSpec) : Nat := ops.length * 4 + 16

def markFrom (named : List Char → Option Nat) (ops : List OperatorSpec) (start : List Char) :
    List OperatorSpec :=
  markLoop named (cap ops) [start] ops

/-- The consumers are read off the operators as they were: marking changes
neither a type nor an input. -/
def markChangelogProducers (ops : List OperatorSpec) : List OperatorSpec :=
  ops.foldl (fun marked op =>
    if isConsumer op.type then op.inputs.foldl (markFrom (byId ops)) marked else marked) ops

/-! ## What has to be marked -/

/-- The operators that interpret `__row_kind` on their input. -/
def interpretsRowKind (type : String) : Bool :=
  type = "aggregate_row" || type = "last_n_agg_row" || type = "equi_join_row" ||
    type = "set_op_row" || type = "changelog_net_sink"

/-- Operator `i` is an input of operator `j`. -/
def Feeds (ops : List OperatorSpec) (i j : Nat) : Prop :=
  ∃ op, ops[j]? = some op ∧ ∃ ref ∈ op.inputs, byId ops (inputBaseId ref) = some i

/-- An interpreter of `__row_kind` is reachable from operator `i` through
operators that forward it. -/
inductive Reaches (forwards : String → Prop) (ops : List OperatorSpec) : Nat → Prop
  | direct {i j : Nat} {op : OperatorSpec} : Feeds ops i j → ops[j]? = some op →
      interpretsRowKind op.type = true → Reaches forwards ops i
  | through {i j : Nat} {op : OperatorSpec} : Feeds ops i j → ops[j]? = some op →
      forwards op.type → Reaches forwards ops j → Reaches forwards ops i

/-- The pass sets `emit_changelog` on the aggregates that must have it and
leaves the others alone. -/
def MarksExactly (forwards : String → Prop) (ops : List OperatorSpec) : Prop :=
  ∀ i op, ops[i]? = some op → op.type = "aggregate_row" →
    (Reaches forwards ops i →
      ((markChangelogProducers ops)[i]?).map (·.emitChangelog) = some true) ∧
    (¬ Reaches forwards ops i → (markChangelogProducers ops)[i]? = some op)

/-- An acyclic graph.  The planner's ids are a word and a number, so no id reads
as a branch or a side output of another. -/
structure WellFormed (ops : List OperatorSpec) : Prop where
  bareIds : ∀ op ∈ ops, inputBaseId op.id = op.id
  acyclic : ∀ i, ¬ Relation.TransGen (Feeds ops) i i

/-- The references the walk goes on to from `ref`: the inputs of the
pass-through of that very name, the last one first. -/
def upstream (ops : List OperatorSpec) (ref : List Char) : List (List Char) :=
  match (byId ops ref).bind (ops[·]?) with
  | none => []
  | some up => if isPassthrough up.type then up.inputs.reverse else []

/-- Operator `i` is among the first `cap` references met depth first, the last
input first, back through the listed pass-throughs from an input of one of the
listed consumers. -/
def WithinCap (ops : List OperatorSpec) (i : Nat) : Prop :=
  ∃ op ∈ ops, isConsumer op.type = true ∧ ∃ start ∈ op.inputs,
    ∃ ref ∈ (preorder (upstream ops) ops.length start).take (cap ops), byId ops ref = some i

/-! ## What the pass marks -/

/-- The operators with those at the positions `found` marked, if aggregates. -/
def markAll (found : List Nat) (ops : List OperatorSpec) : List OperatorSpec :=
  ops.mapIdx fun i op =>
    if i ∈ found ∧ op.type = "aggregate_row" then { op with emitChangelog := true } else op

theorem markAll_getElem? (found : List Nat) (ops : List OperatorSpec) (i : Nat) :
    (markAll found ops)[i]? = (ops[i]?).map fun op =>
      if i ∈ found ∧ op.type = "aggregate_row" then { op with emitChangelog := true } else op := by
  rw [markAll, List.getElem?_mapIdx]

private theorem markAll_nil (ops : List OperatorSpec) : markAll [] ops = ops := by
  refine List.ext_getElem? fun i => ?_
  simp [markAll_getElem?]

theorem markAll_markAll (l k : List Nat) (ops : List OperatorSpec) :
    markAll k (markAll l ops) = markAll (l ++ k) ops := by
  refine List.ext_getElem? fun i => ?_
  rw [markAll_getElem?, markAll_getElem?, markAll_getElem?, Option.map_map]
  congr 1
  funext op
  by_cases ht : op.type = "aggregate_row"
  · by_cases hl : i ∈ l <;> by_cases hk : i ∈ k <;> simp [ht, hl, hk]
  · simp [ht]

variable {ops : List OperatorSpec} {i : Nat}

/-- Writing the parameter of one aggregate is marking its position. -/
theorem set_eq_markAll {up : OperatorSpec} (h : ops[i]? = some up)
    (ht : up.type = "aggregate_row") :
    ops.set i { up with emitChangelog := true } = markAll [i] ops := by
  have hi := (List.getElem?_eq_some_iff.mp h).1
  refine List.ext_getElem? fun j => ?_
  rw [markAll_getElem?]
  by_cases hj : i = j
  · subst hj
    rw [List.getElem?_set_self hi, h]
    simp [ht]
  · rw [List.getElem?_set_ne hj]
    simp [Ne.symm hj]

private theorem markAll_other (h : ∀ up, ops[i]? = some up → up.type ≠ "aggregate_row") :
    markAll [i] ops = ops := by
  refine List.ext_getElem? fun j => ?_
  rw [markAll_getElem?]
  by_cases hj : j = i
  · subst hj
    cases hop : ops[j]? with
    | none => rfl
    | some up => simp [h up hop]
  · simp [hj]

private theorem passthrough_ne {type : String} (h : isPassthrough type = true) :
    type ≠ "aggregate_row" := by
  rintro rfl
  simp [isPassthrough] at h

/-- Marking changes nothing the walk reads. -/
theorem upstream_of_marked {l : List Nat} {cur : List Char} {up : OperatorSpec}
    (hi : byId ops cur = some i) (hup : (markAll l ops)[i]? = some up) :
    upstream ops cur = if isPassthrough up.type then up.inputs.reverse else [] := by
  rw [markAll_getElem?, Option.map_eq_some_iff] at hup
  obtain ⟨op, hop, rfl⟩ := hup
  have hsame : (if i ∈ l ∧ op.type = "aggregate_row" then
      { op with emitChangelog := true } else op).type = op.type := by split <;> rfl
  have hinputs : (if i ∈ l ∧ op.type = "aggregate_row" then
      { op with emitChangelog := true } else op).inputs = op.inputs := by split <;> rfl
  rw [upstream, hi, Option.bind_some, hop, hsame, hinputs]

private theorem upstream_of_unknown {l : List Nat} {cur : List Char} (hi : byId ops cur = some i)
    (hup : (markAll l ops)[i]? = none) : upstream ops cur = [] := by
  rw [markAll_getElem?, Option.map_eq_none_iff] at hup
  rw [upstream, hi, Option.bind_some, hup]

/-- Marking a position that holds no aggregate changes nothing. -/
theorem markAll_append_other {l : List Nat}
    (h : ∀ up, (markAll l ops)[i]? = some up → up.type ≠ "aggregate_row") :
    markAll (l ++ [i]) ops = markAll l ops := by
  rw [← markAll_markAll, markAll_other h]

/-- One round marks the position it pops, which changes an aggregate only, and
goes on to what is upstream of it. -/
theorem markLoop_step (ops : List OperatorSpec) (rounds : Nat) (cur : List Char)
    (work : List (List Char)) (l : List Nat) :
    markLoop (byId ops) (rounds + 1) (cur :: work) (markAll l ops) =
      markLoop (byId ops) rounds (upstream ops cur ++ work)
        (markAll (l ++ (byId ops cur).toList) ops) := by
  cases hi : byId ops cur with
  | none =>
      have hup : upstream ops cur = [] := by rw [upstream, hi]; rfl
      simp [markLoop, hi, hup]
  | some i =>
      rw [markLoop, hi, Option.toList_some]
      cases hup : (markAll l ops)[i]? with
      | none =>
          rw [upstream_of_unknown hi hup, markAll_append_other (by simp [hup])]
          simp [hup]
      | some up =>
          rw [upstream_of_marked hi hup]
          by_cases ht : up.type = "aggregate_row"
          · have hnp : isPassthrough up.type ≠ true := fun hp => passthrough_ne hp ht
            simp only [hup, if_pos ht, if_neg hnp, set_eq_markAll hup ht, markAll_markAll,
              List.nil_append]
          · rw [markAll_append_other (by simpa [hup] using ht)]
            by_cases hp : isPassthrough up.type = true
            · simp [hup, ht, hp]
            · simp [hup, ht, hp]

/-- The walk marks the aggregates among the operators it pops. -/
theorem markLoop_eq (ops : List OperatorSpec) (rounds : Nat) (work : List (List Char))
    (l : List Nat) :
    markLoop (byId ops) rounds work (markAll l ops) =
      markAll (l ++ (popped (upstream ops) rounds work).filterMap (byId ops)) ops := by
  induction rounds generalizing work l with
  | zero => simp [markLoop, popped]
  | succ rounds ih =>
      cases work with
      | nil => simp [markLoop, popped]
      | cons cur work =>
          rw [markLoop_step, ih, popped]
          cases hi : byId ops cur with
          | none => rw [List.filterMap_cons_none hi, Option.toList_none, List.append_nil]
          | some i =>
              rw [List.filterMap_cons_some hi, Option.toList_some, List.append_assoc,
                List.singleton_append]

/-- The positions a walk from `start` pops. -/
def foundFrom (ops : List OperatorSpec) (start : List Char) : List Nat :=
  (popped (upstream ops) (cap ops) [start]).filterMap (byId ops)

private theorem foldl_markFrom (ops : List OperatorSpec) (starts : List (List Char))
    (l : List Nat) :
    starts.foldl (markFrom (byId ops)) (markAll l ops) =
      markAll (l ++ starts.flatMap (foundFrom ops)) ops := by
  have hcap : ∀ k, cap (markAll k ops) = cap ops := fun k => by simp [cap, markAll]
  induction starts generalizing l with
  | nil => simp
  | cons start starts ih =>
      rw [List.foldl_cons, markFrom, hcap, markLoop_eq, ih, List.flatMap_cons, foundFrom,
        List.append_assoc]

/-- The positions popped by any of the walks. -/
def found (ops : List OperatorSpec) : List Nat :=
  ops.flatMap fun op => if isConsumer op.type then op.inputs.flatMap (foundFrom ops) else []

/-- The pass marks the aggregates its walks pop. -/
theorem markChangelogProducers_eq (ops : List OperatorSpec) :
    markChangelogProducers ops = markAll (found ops) ops := by
  have hrun : ∀ (rest : List OperatorSpec) (l : List Nat),
      rest.foldl (fun marked op =>
        if isConsumer op.type then op.inputs.foldl (markFrom (byId ops)) marked else marked)
        (markAll l ops) =
      markAll (l ++ rest.flatMap fun op =>
        if isConsumer op.type then op.inputs.flatMap (foundFrom ops) else []) ops := by
    intro rest
    induction rest with
    | nil => simp
    | cons op rest ih =>
        intro l
        rw [List.foldl_cons, List.flatMap_cons, ← List.append_assoc]
        by_cases hc : isConsumer op.type = true
        · rw [if_pos hc, if_pos hc, foldl_markFrom, ih]
        · rw [if_neg hc, if_neg hc, List.append_nil, ih]
  have h := hrun ops []
  rwa [markAll_nil, List.nil_append] at h

/-! ## The walk against the graph -/

variable {ref : List Char}

theorem byId_some (h : byId ops ref = some i) : ∃ op, ops[i]? = some op ∧ op.id = ref := by
  have hp := List.find?_some h
  simpa using hp

/-- A reference that is an id names the operator it is the id of. -/
theorem WellFormed.byId_base (h : WellFormed ops) (hi : byId ops ref = some i) :
    byId ops (inputBaseId ref) = some i := by
  obtain ⟨op, hop, rfl⟩ := byId_some hi
  rw [h.bareIds op (List.mem_of_getElem? hop)]
  exact hi

theorem mem_upstream {up : List Char} (h : up ∈ upstream ops ref) :
    ∃ j op, byId ops ref = some j ∧ ops[j]? = some op ∧ isPassthrough op.type = true ∧
      up ∈ op.inputs := by
  rw [upstream] at h
  cases hj : byId ops ref with
  | none => simp [hj] at h
  | some j =>
      cases hop : ops[j]? with
      | none => simp [hj, hop] at h
      | some op =>
          by_cases hp : isPassthrough op.type = true
          · exact ⟨j, op, rfl, hop, hp, by simpa [hj, hop, hp] using h⟩
          · simp [hj, hop, hp] at h

theorem WellFormed.feeds_of_mem_upstream (h : WellFormed ops) {up : List Char}
    (hup : up ∈ upstream ops ref) (hi : byId ops up = some i) :
    ∃ j op, byId ops ref = some j ∧ ops[j]? = some op ∧ isPassthrough op.type = true ∧
      Feeds ops i j := by
  obtain ⟨j, op, hj, hop, hp, hmem⟩ := mem_upstream hup
  exact ⟨j, op, hj, hop, hp, op, hop, up, hmem, h.byId_base hi⟩

/-- The references fall in rank along the walk. -/
theorem WellFormed.exists_refRank (h : WellFormed ops) :
    ∃ rank : List Char → Nat, (∀ ref, rank ref ≤ ops.length) ∧
      ∀ ref, ∀ up ∈ upstream ops ref, rank up < rank ref := by
  have hbelow : ∀ i j, Feeds ops i j → i < ops.length := by
    rintro i j ⟨op, -, ref, -, hi⟩
    obtain ⟨up, hup, -⟩ := byId_some hi
    exact (List.getElem?_eq_some_iff.mp hup).1
  obtain ⟨rank, hlt, hfalls⟩ := exists_rank hbelow h.acyclic
  refine ⟨fun ref => ((byId ops ref).map (rank · + 1)).getD 0, fun ref => ?_, fun ref up hup => ?_⟩
  · cases hi : byId ops ref with
    | none => simp [hi]
    | some i =>
        obtain ⟨op, hop, -⟩ := byId_some hi
        have := hlt i (List.getElem?_eq_some_iff.mp hop).1
        simpa [hi] using Nat.succ_le_of_lt this
  · cases hi : byId ops up with
    | none =>
        obtain ⟨j, op, hj, -⟩ := mem_upstream hup
        simp [hi, hj]
    | some i =>
        obtain ⟨j, op, hj, -, -, hfeeds⟩ := h.feeds_of_mem_upstream hup hi
        have := hfalls i j hfeeds
        simpa [hi, hj] using this

theorem WellFormed.mem_found_iff (h : WellFormed ops) (i : Nat) :
    i ∈ found ops ↔ WithinCap ops i := by
  obtain ⟨rank, hbound, hfalls⟩ := h.exists_refRank
  have hfrom : ∀ start, i ∈ foundFrom ops start ↔
      ∃ ref ∈ (preorder (upstream ops) ops.length start).take (cap ops),
        byId ops ref = some i := by
    intro start
    rw [foundFrom, popped_eq_take hfalls hbound, List.flatMap_singleton, List.mem_filterMap]
  simp only [found, WithinCap, List.mem_flatMap, ← hfrom]
  refine ⟨fun ⟨op, hop, hi⟩ => ?_, fun ⟨op, hop, hc, hi⟩ => ⟨op, hop, ?_⟩⟩
  · by_cases hc : isConsumer op.type = true
    · rw [if_pos hc, List.mem_flatMap] at hi
      exact ⟨op, hop, hc, hi⟩
    · simp [hc] at hi
  · rw [if_pos hc, List.mem_flatMap]
    exact hi

private theorem interprets_of_consumer {type : String} (h : isConsumer type = true) :
    interpretsRowKind type = true := by
  simp only [isConsumer, interpretsRowKind, Bool.or_eq_true, decide_eq_true_eq] at h ⊢
  tauto

/-- Nothing is popped that does not have to be marked. -/
theorem WellFormed.reaches_of_withinCap {forwards : String → Prop}
    (hpasses : ∀ type, isPassthrough type = true → forwards type) (h : WellFormed ops)
    (hi : WithinCap ops i) : Reaches forwards ops i := by
  obtain ⟨op, hop, hc, start, hstart, ref, href, hi⟩ := hi
  obtain ⟨j, hj⟩ := List.mem_iff_getElem?.mp hop
  have hreach := reached_of_mem_preorder (upstream ops) (List.mem_of_mem_take href)
  clear href
  induction hreach generalizing i with
  | refl =>
      exact .direct ⟨op, hj, start, hstart, h.byId_base hi⟩ hj (interprets_of_consumer hc)
  | tail _ hup ih =>
      obtain ⟨k, up, hk, hop', hp, hfeeds⟩ := h.feeds_of_mem_upstream hup hi
      exact .through hfeeds hop' (hpasses _ hp) (ih hk)

/-- Whatever operators forward the row kind, the listed ones among them: the
pass marks what it has to exactly when its walks come to every aggregate it has
to mark within the cap. -/
theorem marks_exactly_iff {forwards : String → Prop}
    (hpasses : ∀ type, isPassthrough type = true → forwards type) {ops : List OperatorSpec}
    (h : WellFormed ops) :
    MarksExactly forwards ops ↔
      ∀ i op, ops[i]? = some op → op.type = "aggregate_row" → Reaches forwards ops i →
        op.emitChangelog = true ∨ WithinCap ops i := by
  have hmark : ∀ {i op}, ops[i]? = some op → op.type = "aggregate_row" →
      (markChangelogProducers ops)[i]? =
        some (if i ∈ found ops then { op with emitChangelog := true } else op) := by
    intro i op hop ht
    rw [markChangelogProducers_eq, markAll_getElem?, hop, Option.map_some]
    simp [ht]
  refine
    ⟨fun hex i op hop ht hreach => ?_, fun hall i op hop ht => ⟨fun hreach => ?_, fun hno => ?_⟩⟩
  · have hset := (hex i op hop ht).1 hreach
    rw [hmark hop ht] at hset
    by_cases hi : i ∈ found ops
    · exact .inr ((h.mem_found_iff i).mp hi)
    · exact .inl (by simpa [hi] using hset)
  · rw [hmark hop ht]
    obtain hset | hin := hall i op hop ht hreach
    · by_cases hi : i ∈ found ops <;> simp [hi, hset]
    · simp [(h.mem_found_iff i).mpr hin]
  · have hi : i ∉ found ops := fun hi =>
      hno (h.reaches_of_withinCap hpasses ((h.mem_found_iff i).mp hi))
    rw [hmark hop ht, if_neg hi]

/-! ## Two plans -/

/-- An aggregate behind its keying, under a consumer of the given type. -/
def aggregateInto (consumer : String) : List OperatorSpec :=
  [{ id := ['a', '1'], type := "aggregate_row" },
   { id := ['k', '2'], type := "row_compute_key", inputs := [['a', '1']] },
   { id := ['c', '3'], type := consumer, inputs := [['k', '2']] }]

theorem aggregateInto_feeds {consumer : String} {j : Nat} (h : Feeds (aggregateInto consumer) i j) :
    i < j := by
  obtain ⟨op, hop, ref, href, hi⟩ := h
  match j, hop with
  | 0, hop =>
      obtain rfl := Option.some.inj hop
      cases href
  | 1, hop =>
      obtain rfl := Option.some.inj hop
      obtain rfl := List.mem_singleton.mp href
      obtain rfl : 0 = i := Option.some.inj hi
      decide
  | 2, hop =>
      obtain rfl := Option.some.inj hop
      obtain rfl := List.mem_singleton.mp href
      obtain rfl : 1 = i := Option.some.inj hi
      decide

theorem aggregateInto_wellFormed (consumer : String) :
    WellFormed (aggregateInto consumer) where
  bareIds := by
    intro op hop
    simp only [aggregateInto, List.mem_cons, List.not_mem_nil, or_false] at hop
    obtain rfl | rfl | rfl := hop <;> rfl
  acyclic i h := by
    have hlt : ∀ j, Relation.TransGen (Feeds (aggregateInto consumer)) i j → i < j := by
      intro j hij
      induction hij with
      | single hf => exact aggregateInto_feeds hf
      | tail _ hf ih => exact ih.trans (aggregateInto_feeds hf)
    exact lt_irrefl i (hlt i h)

private theorem aggregateInto_reaches {consumer : String} (h : interpretsRowKind consumer = true) :
    Reaches (fun type => isPassthrough type = true) (aggregateInto consumer) 0 := by
  refine .through (j := 1) ⟨_, rfl, ['a', '1'], List.mem_singleton.mpr rfl, rfl⟩ rfl (by decide) ?_
  exact .direct (j := 2) ⟨_, rfl, ['k', '2'], List.mem_singleton.mpr rfl, rfl⟩ rfl h

/-- The aggregate behind a netting sink is marked. -/
theorem marks_under_net_sink :
    MarksExactly (fun type => isPassthrough type = true) (aggregateInto "changelog_net_sink") := by
  refine (marks_exactly_iff (fun _ h => h) (aggregateInto_wellFormed _)).mpr ?_
  intro i op hop ht _
  refine .inr ⟨_, List.mem_of_getElem? (i := 2) rfl, rfl, ['k', '2'], List.mem_singleton.mpr rfl,
    ['a', '1'], by decide, ?_⟩
  match i, hop with
  | 0, _ => rfl
  | 1, hop =>
      obtain rfl := Option.some.inj hop
      simp at ht
  | 2, hop =>
      obtain rfl := Option.some.inj hop
      simp at ht

/-- A set operation honours the row kind of its inputs, and the aggregate under
it is not marked. -/
theorem set_op_aggregate_unmarked :
    WellFormed (aggregateInto "set_op_row") ∧
      ¬ MarksExactly (fun type => isPassthrough type = true) (aggregateInto "set_op_row") := by
  refine ⟨aggregateInto_wellFormed _, fun h => ?_⟩
  have hset := (h 0 _ rfl rfl).1 (aggregateInto_reaches rfl)
  revert hset
  decide

end Clink.Ports.ChangelogProducers

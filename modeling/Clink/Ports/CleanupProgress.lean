import Clink.Ports.KeyedState

/-!
# How far incremental cleanup gets

`cleanup_batch` (`include/clink/state/keyed_state.hpp`) called again and again while
nothing is written and the slot's clock stands still.  A call resumes after a key, in the
order of keys, and the rows come in the order the backend scans in.  A row that is scanned
after the last one of a call and whose key is not greater is behind the cursor without
having been visited, and the same happens in the next round.

`Ascending` is what is needed of the scan: a row that has `budget - 1` rows under the
slot's prefix before it is not followed by a smaller key of the slot.
-/

namespace Clink.Ports.CleanupProgress

open Clink.Ports.KeyedState
open Clink.Ports.InMemoryStateBackend (Backend Key Value)
open Clink.Ports.KeyGroups (keyGroupForKey)

variable {K V : Type}

/-- The backend scans its keys in one order, whatever else it holds. -/
structure Scans (host : Host) (before : Key → Key → Prop) : Prop where
  asymm : ∀ key key', before key key' → ¬ before key' key
  sorted : ∀ rows, (rows.map Prod.fst).Nodup →
    (host.arrange rows).Pairwise fun row row' => before row.1 row'.1

/-- The calls of a cleanup, one after another. -/
def afterCalls (slot : Slot K V) (host : Host) (clocks : Nat → Int) (budget : Nat) :
    Nat → View → Backend → Option ExpiryFilter → Cleanup
  | 0, view, b, filter => ⟨0, view, b, filter⟩
  | n + 1, view, b, filter =>
      let c := slot.cleanupBatch host clocks view b filter budget
      afterCalls slot host clocks budget n c.view c.backend c.filter

/-- A stored value that is past its deadline. -/
def Expired (slot : Slot K V) (clocks : Nat → Int) (view : View) (raw : Value) : Prop :=
  8 ≤ raw.length ∧ slot.isExpired clocks view (readI64Le raw) = true

/-- No entry of the slot is past its deadline. -/
def Clean (slot : Slot K V) (host : Host) (clocks : Nat → Int) (view : View) (b : Backend) :
    Prop :=
  ∀ k raw, b.get host.op (slot.encodeKey k) = some raw → ¬ Expired slot clocks view raw

/-- From some call on no expired entry is left, whatever is stored under the keys. -/
def ReclaimsAll (slot : Slot K V) (host : Host) (keys : Set Key) (budget : Nat) : Prop :=
  ∀ clocks view b filter, (∀ key raw, b.get host.op key = some raw → key ∈ keys) →
    ∃ n, ∀ m, n ≤ m →
      Clean slot host clocks view (afterCalls slot host clocks budget m view b filter).backend

/-- A key scanned last of `budget` is smaller than the keys of the slot that come after it. -/
def Ascending (slot : Slot K V) (before : Key → Key → Prop) (keys : Set Key) (budget : Nat) :
    Prop :=
  ∀ (xs : List Key) (k : K), xs.length = budget →
    (xs ++ [slot.encodeKey k]).Pairwise before →
    (∀ x ∈ xs, x ∈ keys ∧ slot.slotPrefix <:+: x) → slot.encodeKey k ∈ keys →
    ∀ last ∈ xs.getLast?, last < slot.encodeKey k

/-! ## What one sweep visits -/

/-- The rows under the slot's prefix past the cursor. -/
def ahead (slot : Slot K V) (cursor : Key) (rows : List (Key × Value)) : List (Key × Value) :=
  rows.filter fun row => slot.slotPrefix <:+: row.1 ∧ (cursor = [] ∨ cursor < row.1)

/-- The test a sweep makes of a row it visits. -/
def deadAt (slot : Slot K V) (view : View) (now : Int) (row : Key × Value) : Bool :=
  8 ≤ row.2.length && slot.expiredAt view (readI64Le row.2) now

section Sweep

variable (slot : Slot K V) (view : View) (now : Int) (budget : Nat)

private theorem foldl_hit (rows : List (Key × Value)) (s : Sweep) (hhit : s.budgetHit = true) :
    (rows.foldl (slot.visitSweep view now budget) s).doomed = s.doomed ∧
    (rows.foldl (slot.visitSweep view now budget) s).budgetHit = true ∧
    (rows.foldl (slot.visitSweep view now budget) s).lastVisited = s.lastVisited := by
  induction rows generalizing s with
  | nil => exact ⟨rfl, hhit, rfl⟩
  | cons row rest ih =>
      rw [List.foldl_cons]
      unfold Slot.visitSweep
      split
      · exact ih s hhit
      · exact ih _ hhit

private theorem visitSweep_ahead {s : Sweep} {row : Key × Value} (hfresh : s.budgetHit = false)
    (hpast : slot.slotPrefix <:+: row.1 ∧
      (view.cleanupCursor = [] ∨ view.cleanupCursor < row.1)) :
    (slot.visitSweep view now budget s row).doomed =
      s.doomed ++ (if deadAt slot view now row then [row.1] else []) ∧
    (slot.visitSweep view now budget s row).scanned = s.scanned + 1 ∧
    (slot.visitSweep view now budget s row).budgetHit = decide (budget ≤ s.scanned + 1) ∧
    (slot.visitSweep view now budget s row).lastVisited = row.1 := by
  unfold Slot.visitSweep
  rw [if_neg (by simpa using hpast.1), if_neg (by simp [hfresh]), if_neg]
  · refine ⟨?_, rfl, rfl, rfl⟩
    change (if deadAt slot view now row then s.doomed ++ [row.1] else s.doomed) = _
    split
    · rfl
    · exact (List.append_nil _).symm
  · simpa [List.isEmpty_iff, Classical.or_iff_not_imp_left] using hpast.2

private theorem visitSweep_behind {s : Sweep} {row : Key × Value} (hfresh : s.budgetHit = false)
    (hpast : ¬ (slot.slotPrefix <:+: row.1 ∧
      (view.cleanupCursor = [] ∨ view.cleanupCursor < row.1))) :
    (slot.visitSweep view now budget s row).doomed = s.doomed ∧
    (slot.visitSweep view now budget s row).scanned = s.scanned ∧
    (slot.visitSweep view now budget s row).budgetHit = false ∧
    (slot.visitSweep view now budget s row).lastVisited = s.lastVisited := by
  unfold Slot.visitSweep
  by_cases hunder : slot.slotPrefix <:+: row.1
  · rw [if_neg (by simpa using hunder), if_neg (by simp [hfresh]), if_pos]
    · exact ⟨rfl, rfl, hfresh, rfl⟩
    · simpa [List.isEmpty_iff, hunder] using hpast
  · rw [if_pos (by simpa using hunder)]
    exact ⟨rfl, rfl, hfresh, rfl⟩

/-- A sweep visits the first rows ahead of the cursor, as many as the budget allows. -/
theorem foldl_visit (rows : List (Key × Value)) (s : Sweep) (hfresh : s.budgetHit = false)
    (hleft : s.scanned < budget) :
    let seen := (ahead slot view.cleanupCursor rows).take (budget - s.scanned)
    let t := rows.foldl (slot.visitSweep view now budget) s
    t.doomed = s.doomed ++ (seen.filter (deadAt slot view now)).map Prod.fst ∧
    t.budgetHit = decide (budget - s.scanned ≤ (ahead slot view.cleanupCursor rows).length) ∧
    t.lastVisited = ((seen.map Prod.fst).getLast?).getD s.lastVisited := by
  induction rows generalizing s with
  | nil =>
      have hmore : ¬ budget - s.scanned ≤ 0 := by omega
      simp [ahead, hfresh, hmore]
  | cons row rest ih =>
      rw [List.foldl_cons]
      by_cases hpast : slot.slotPrefix <:+: row.1 ∧
          (view.cleanupCursor = [] ∨ view.cleanupCursor < row.1)
      · have hcons : ahead slot view.cleanupCursor (row :: rest) =
            row :: ahead slot view.cleanupCursor rest := by
          unfold ahead
          rw [List.filter_cons_of_pos (by simpa using hpast)]
        have hdead : ∀ l, ((row :: l).filter (deadAt slot view now)).map Prod.fst =
            (if deadAt slot view now row then [row.1] else []) ++
              (l.filter (deadAt slot view now)).map Prod.fst := by
          intro l
          rw [List.filter_cons]
          split <;> rfl
        have htake : budget - s.scanned = (budget - (s.scanned + 1)) + 1 := by omega
        obtain ⟨hdoomed, hscanned, hhit, hlastVisited⟩ :=
          visitSweep_ahead slot view now budget hfresh hpast
        simp only
        rw [hcons, htake, List.take_succ_cons, hdead, List.map_cons, List.getLast?_cons,
          Option.getD_some, ← List.append_assoc, ← hdoomed, ← hlastVisited, ← hscanned]
        by_cases hlast : budget ≤ s.scanned + 1
        · obtain ⟨hdoomed', hit', hlastVisited'⟩ := foldl_hit slot view now budget rest
            (slot.visitSweep view now budget s row) (by rw [hhit]; exact decide_eq_true hlast)
          have hnone : budget - (slot.visitSweep view now budget s row).scanned = 0 := by omega
          rw [hdoomed', hit', hlastVisited', hnone]
          exact ⟨by simp, by simp, by simp⟩
        · obtain ⟨hdoomed', hit', hlastVisited'⟩ := ih (slot.visitSweep view now budget s row)
            (by rw [hhit]; exact decide_eq_false hlast) (by omega)
          rw [hdoomed', hit', hlastVisited', List.length_cons]
          exact ⟨rfl, by simp, rfl⟩
      · have hcons : ahead slot view.cleanupCursor (row :: rest) =
            ahead slot view.cleanupCursor rest := by
          unfold ahead
          rw [List.filter_cons_of_neg (by simpa using hpast)]
        obtain ⟨hdoomed, hscanned, hhit, hlastVisited⟩ :=
          visitSweep_behind slot view now budget hfresh hpast
        have hrest' := ih (slot.visitSweep view now budget s row) hhit (by omega)
        rw [hdoomed, hscanned, hlastVisited] at hrest'
        rw [hcons]
        exact hrest'

end Sweep

/-! ## One call -/

section Calls

variable {slot : Slot K V} {host : Host} {clocks : Nat → Int} {view : View} {b : Backend}
  {budget : Nat}

/-- The rows the next call may visit, in the order it does. -/
def upcoming (slot : Slot K V) (host : Host) (view : View) (b : Backend) : List (Key × Value) :=
  ahead slot view.cleanupCursor (host.arrange (b.rows host.op))

variable {raw : Value}

theorem mem_upcoming {key : Key} :
    (key, raw) ∈ upcoming slot host view b ↔ b.get host.op key = some raw ∧
      slot.slotPrefix <:+: key ∧ (view.cleanupCursor = [] ∨ view.cleanupCursor < key) := by
  unfold upcoming ahead
  rw [List.mem_filter, (host.arrange_perm _).mem_iff, InMemoryStateBackend.mem_rows]
  simp

theorem nodup_upcoming : ((upcoming slot host view b).map Prod.fst).Nodup := by
  have hall : ((host.arrange (b.rows host.op)).map Prod.fst).Nodup :=
    ((host.arrange_perm _).map Prod.fst).nodup_iff.mpr (InMemoryStateBackend.nodup_rows b host.op)
  exact hall.sublist (List.filter_sublist.map Prod.fst)

theorem encodeKey_within (slot : Slot K V) (k : K) : slot.slotPrefix <:+: slot.encodeKey k := by
  refine ⟨[(keyGroupForKey (slot.keyCodec.encode k)).toUInt8], slot.keyCodec.encode k, ?_⟩
  unfold Slot.encodeKey Slot.slotPrefix
  simp

variable {now : Int}

/-- What a call of a backend that does not compact does. -/
theorem cleanupBatch_sweeps (hon : slot.ttl.enabled = true)
    (hplain : host.supportsExpiryCompaction = false) (hpos : 1 ≤ budget)
    (htime : slot.nowForTtl clocks view = some now) (filter : Option ExpiryFilter) :
    let seen := (upcoming slot host view b).take budget
    let c := slot.cleanupBatch host clocks view b filter budget
    c.backend = eraseAll host.op b ((seen.filter (deadAt slot view now)).map Prod.fst) ∧
    c.view.cleanupCursor = (if budget ≤ (upcoming slot host view b).length then
      ((seen.map Prod.fst).getLast?).getD [] else []) := by
  obtain ⟨hdoomed, hhit, hlast⟩ := foldl_visit slot view now budget
    (host.arrange (b.rows host.op)) {} rfl hpos
  have hzero : budget ≠ 0 := by omega
  simp only [Slot.cleanupBatch, hon, hplain, hzero, htime, Slot.afterSweep, Slot.sweep]
  constructor
  · simp only [decide_false, Bool.not_true, Bool.or_self, Bool.false_eq_true, if_false]
    rw [hdoomed]
    rfl
  · simp only [decide_false, Bool.not_true, Bool.or_self, Bool.false_eq_true, if_false]
    simp only [hhit, hlast]
    simp [upcoming]

theorem deadAt_of_expired (htime : slot.nowForTtl clocks view = some now)
    (hexpired : Expired slot clocks view raw) (key : Key) :
    deadAt slot view now (key, raw) = true := by
  obtain ⟨hlong, hpast⟩ := hexpired
  unfold Slot.isExpired at hpast
  rw [htime, Option.any_some] at hpast
  simp [deadAt, hlong, hpast]

theorem Expired.congr {view' : View} (hsame : view'.SameClock view) :
    Expired slot clocks view' raw ↔ Expired slot clocks view raw := by
  unfold Expired
  rw [slot.isExpired_congr clocks hsame]

/-- Every expired entry of the slot is still ahead of the cursor. -/
def AllAhead (slot : Slot K V) (host : Host) (clocks : Nat → Int) (view : View) (b : Backend) :
    Prop :=
  ∀ k raw, b.get host.op (slot.encodeKey k) = some raw → Expired slot clocks view raw →
    view.cleanupCursor = [] ∨ view.cleanupCursor < slot.encodeKey k

/-- A call that does not use its budget ends the round. -/
theorem call_short (hon : slot.ttl.enabled = true)
    (hplain : host.supportsExpiryCompaction = false) (hpos : 1 ≤ budget)
    (htime : slot.nowForTtl clocks view = some now) (filter : Option ExpiryFilter)
    (hshort : (upcoming slot host view b).length < budget) :
    (slot.cleanupBatch host clocks view b filter budget).view.cleanupCursor = [] ∧
    (AllAhead slot host clocks view b →
      Clean slot host clocks view
        (slot.cleanupBatch host clocks view b filter budget).backend) := by
  obtain ⟨hbackend, hcursor⟩ := cleanupBatch_sweeps (b := b) hon hplain hpos htime filter
  rw [if_neg (by omega)] at hcursor
  refine ⟨hcursor, ?_⟩
  intro hallAhead k raw hstored hexpired
  rw [hbackend, List.take_of_length_le (by omega), get_eraseAll] at hstored
  split at hstored
  · exact absurd hstored (by simp)
  · rename_i hspared
    have hmem := mem_upcoming.mpr
      ⟨hstored, encodeKey_within slot k, hallAhead k raw hstored hexpired⟩
    have hdoomed := List.mem_filter.mpr ⟨hmem, deadAt_of_expired htime hexpired _⟩
    exact hspared (List.mem_map.mpr ⟨_, hdoomed, rfl⟩)

/-- A call that uses its budget moves the cursor, and passes over no entry of the slot where
the scan is ascending. -/
theorem call_full (hon : slot.ttl.enabled = true) (hplain : host.supportsExpiryCompaction = false)
    (hpos : 1 ≤ budget) (htime : slot.nowForTtl clocks view = some now)
    (filter : Option ExpiryFilter) (hfull : budget ≤ (upcoming slot host view b).length) :
    let c := slot.cleanupBatch host clocks view b filter budget
    (upcoming slot host c.view c.backend).length < (upcoming slot host view b).length ∧
    ∀ before keys, Scans host before → Ascending slot before keys budget →
      (∀ key raw, b.get host.op key = some raw → key ∈ keys) →
      AllAhead slot host clocks view b → AllAhead slot host clocks c.view c.backend := by
  obtain ⟨hbackend, hcursor⟩ := cleanupBatch_sweeps (b := b) hon hplain hpos htime filter
  have hsame := (slot.cleanupBatch_spec host clocks view b filter budget).clock
  rw [if_pos hfull] at hcursor
  simp only
  generalize slot.cleanupBatch host clocks view b filter budget = c at hbackend hcursor hsame ⊢
  -- The last row visited gives the cursor.
  have hnonnil : (((upcoming slot host view b).take budget).map Prod.fst) ≠ [] := by
    intro hnone
    have hlength := congrArg List.length hnone
    rw [List.length_map, List.length_take, List.length_nil] at hlength
    omega
  obtain ⟨y, hlast⟩ : ∃ y,
      (((upcoming slot host view b).take budget).map Prod.fst).getLast? = some y :=
    ⟨_, List.getLast?_eq_some_getLast hnonnil⟩
  rw [hlast, Option.getD_some] at hcursor
  obtain ⟨row, hseen, rfl⟩ := List.mem_map.mp (List.mem_of_getLast? hlast)
  obtain ⟨hgot, hunder, hpast⟩ := mem_upcoming.mp (List.mem_of_mem_take hseen)
  have hnonempty : row.1 ≠ [] := by
    rintro hempty
    rw [hempty, List.infix_nil] at hunder
    exact absurd hunder (by simp [Slot.slotPrefix])
  refine ⟨?_, ?_⟩
  · have hsub : row.1 :: (upcoming slot host c.view c.backend).map Prod.fst ⊆
        (upcoming slot host view b).map Prod.fst := by
      intro key hmem
      obtain rfl | hmem := List.mem_cons.mp hmem
      · exact List.mem_map.mpr ⟨row, List.mem_of_mem_take hseen, rfl⟩
      · obtain ⟨row', hmem', rfl⟩ := List.mem_map.mp hmem
        obtain ⟨hgot', hunder', hpast'⟩ := mem_upcoming.mp hmem'
        rw [hcursor] at hpast'
        rw [hbackend] at hgot'
        refine List.mem_map.mpr
          ⟨row', mem_upcoming.mpr ⟨get_of_get_eraseAll hgot', hunder', ?_⟩, rfl⟩
        obtain hempty | hlower := hpast
        · exact .inl hempty
        · exact .inr (List.lt_trans hlower (hpast'.resolve_left hnonempty))
    have hnodup : (row.1 :: (upcoming slot host c.view c.backend).map Prod.fst).Nodup := by
      refine List.nodup_cons.mpr ⟨?_, nodup_upcoming⟩
      intro hmem
      obtain ⟨row', hmem', heq⟩ := List.mem_map.mp hmem
      have hpast' := (mem_upcoming.mp hmem').2.2
      rw [hcursor, heq] at hpast'
      exact List.lt_irrefl _ (hpast'.resolve_left hnonempty)
    have hlength := (List.subperm_of_subset hnodup hsub).length_le
    rw [List.length_cons, List.length_map, List.length_map] at hlength
    omega
  · intro before keys hscans hascending hstored hallAhead k raw hgot' hexpired
    rw [hbackend, get_eraseAll] at hgot'
    split at hgot'
    · exact absurd hgot' (by simp)
    · rename_i hspared
      have hexpired := (Expired.congr hsame).mp hexpired
      have hmem := mem_upcoming.mpr ⟨hgot', encodeKey_within slot k, hallAhead k raw hgot' hexpired⟩
      have hrest : (slot.encodeKey k, raw) ∈ (upcoming slot host view b).drop budget := by
        rw [← List.take_append_drop budget (upcoming slot host view b)] at hmem
        refine (List.mem_append.mp hmem).resolve_left fun hvisited => hspared ?_
        exact List.mem_map.mpr
          ⟨_, List.mem_filter.mpr ⟨hvisited, deadAt_of_expired htime hexpired _⟩, rfl⟩
      have horder : ((upcoming slot host view b).map Prod.fst).Pairwise before := by
        refine List.pairwise_map.mpr ?_
        exact (hscans.sorted _ (InMemoryStateBackend.nodup_rows b host.op)).sublist
          List.filter_sublist
      have hpart : (((upcoming slot host view b).take budget).map Prod.fst ++
          [slot.encodeKey k]).Sublist ((upcoming slot host view b).map Prod.fst) := by
        have hsub := ((List.singleton_sublist.mpr hrest).append_left
          ((upcoming slot host view b).take budget)).map Prod.fst
        rwa [List.take_append_drop, List.map_append] at hsub
      have hgreater := hascending _ k (by simpa using hfull) (horder.sublist hpart) ?_
        (hstored _ _ hgot') row.1 hlast
      · rw [hcursor]
        exact .inr hgreater
      · intro x hmem
        obtain ⟨row', hmem', rfl⟩ := List.mem_map.mp hmem
        obtain ⟨hgot'', hunder', -⟩ := mem_upcoming.mp (List.mem_of_mem_take hmem')
        exact ⟨hstored _ _ hgot'', hunder'⟩

/-! ## Many calls -/

theorem afterCalls_add (n m : Nat) (view : View) (b : Backend) (filter : Option ExpiryFilter) :
    afterCalls slot host clocks budget (n + m) view b filter =
      (let c := afterCalls slot host clocks budget n view b filter
       afterCalls slot host clocks budget m c.view c.backend c.filter) := by
  induction n generalizing view b filter with
  | zero => rw [Nat.zero_add]; rfl
  | succ n ih =>
      rw [Nat.succ_add]
      exact ih _ _ _

theorem afterCalls_keeps (slot : Slot K V) (host : Host) (clocks : Nat → Int) (budget n : Nat)
    (view : View) (b : Backend) (filter : Option ExpiryFilter) :
    (afterCalls slot host clocks budget n view b filter).view.SameClock view ∧
    ∀ key raw,
      (afterCalls slot host clocks budget n view b filter).backend.get host.op key = some raw →
      b.get host.op key = some raw := by
  induction n generalizing view b filter with
  | zero => exact ⟨⟨rfl, rfl, rfl⟩, fun _ _ hgot => hgot⟩
  | succ n ih =>
      obtain ⟨⟨doomed, herased, -⟩, hsame, -⟩ :=
        slot.cleanupBatch_spec host clocks view b filter budget
      obtain ⟨hsame', hfewer⟩ := ih (slot.cleanupBatch host clocks view b filter budget).view
        (slot.cleanupBatch host clocks view b filter budget).backend
        (slot.cleanupBatch host clocks view b filter budget).filter
      refine
        ⟨⟨hsame'.watermarkMs.trans hsame.watermarkMs, hsame'.hasWatermark.trans hsame.hasWatermark,
        hsame'.firstWatermarkMs.trans hsame.firstWatermarkMs⟩, ?_⟩
      intro key raw hgot
      have hgot' := hfewer key raw hgot
      rw [herased] at hgot'
      exact get_of_get_eraseAll hgot'

theorem Clean.congr {view' : View} (hsame : view'.SameClock view)
    (hclean : Clean slot host clocks view' b) : Clean slot host clocks view b :=
  fun k raw hgot hexpired => hclean k raw hgot ((Expired.congr hsame).mpr hexpired)

theorem round_ends (hon : slot.ttl.enabled = true)
    (hplain : host.supportsExpiryCompaction = false) (hpos : 1 ≤ budget)
    (htime : slot.nowForTtl clocks view = some now) (filter : Option ExpiryFilter) :
    ∃ n, (afterCalls slot host clocks budget n view b filter).view.cleanupCursor = [] := by
  -- Each call that uses its budget leaves fewer rows ahead of the cursor.
  induction hleft : (upcoming slot host view b).length using Nat.strong_induction_on
    generalizing view b filter with
  | _ left' ih =>
      subst hleft
      have hsame := (slot.cleanupBatch_spec host clocks view b filter budget).clock
      by_cases hfull : budget ≤ (upcoming slot host view b).length
      · obtain ⟨hfewer, -⟩ := call_full (b := b) hon hplain hpos htime filter hfull
        obtain ⟨n, hreset⟩ := ih _ hfewer ((slot.nowForTtl_congr clocks hsame).trans htime)
          (slot.cleanupBatch host clocks view b filter budget).filter rfl
        exact ⟨n + 1, hreset⟩
      · exact ⟨1, (call_short (b := b) hon hplain hpos htime filter (by omega)).1⟩

variable {before : Key → Key → Prop} {keys : Set Key}

/-- A round that begins with every expired entry ahead of it takes them all. -/
theorem round_cleans (hon : slot.ttl.enabled = true)
    (hplain : host.supportsExpiryCompaction = false) (hpos : 1 ≤ budget)
    (hscans : Scans host before) (hascending : Ascending slot before keys budget)
    (htime : slot.nowForTtl clocks view = some now) (filter : Option ExpiryFilter)
    (hstored : ∀ key raw, b.get host.op key = some raw → key ∈ keys)
    (hallAhead : AllAhead slot host clocks view b) :
    ∃ n, Clean slot host clocks view
      (afterCalls slot host clocks budget n view b filter).backend := by
  induction hleft : (upcoming slot host view b).length using Nat.strong_induction_on
    generalizing view b filter with
  | _ left' ih =>
      subst hleft
      obtain ⟨⟨doomed, herased, -⟩, hsame, -⟩ :=
        slot.cleanupBatch_spec host clocks view b filter budget
      by_cases hfull : budget ≤ (upcoming slot host view b).length
      · obtain ⟨hfewer, hkeeps⟩ := call_full (b := b) hon hplain hpos htime filter hfull
        obtain ⟨n, hclean⟩ := ih _ hfewer ((slot.nowForTtl_congr clocks hsame).trans htime)
          (slot.cleanupBatch host clocks view b filter budget).filter
          (fun key raw hgot => hstored key raw (get_of_get_eraseAll (herased ▸ hgot)))
          (hkeeps before keys hscans hascending hstored hallAhead) rfl
        exact ⟨n + 1, hclean.congr hsame⟩
      · exact ⟨1, (call_short (b := b) hon hplain hpos htime filter (by omega)).2 hallAhead⟩

theorem reclaims_of_ascending (hon : slot.ttl.enabled = true)
    (hplain : host.supportsExpiryCompaction = false) (hpos : 1 ≤ budget)
    (hscans : Scans host before) (hascending : Ascending slot before keys budget) :
    ReclaimsAll slot host keys budget := by
  intro clocks view b filter hstored
  obtain ⟨n, hclean⟩ : ∃ n, Clean slot host clocks view
      (afterCalls slot host clocks budget n view b filter).backend := by
    cases htime : slot.nowForTtl clocks view with
    | none =>
        refine ⟨0, fun k raw _ hexpired => ?_⟩
        unfold Expired Slot.isExpired at hexpired
        simp [htime] at hexpired
    | some now =>
        obtain ⟨n, hreset⟩ := round_ends (b := b) hon hplain hpos htime filter
        obtain ⟨hsame, hfewer⟩ :=
          afterCalls_keeps slot host clocks budget n view b filter
        obtain ⟨m, hclean⟩ := round_cleans hon hplain hpos hscans hascending
          ((slot.nowForTtl_congr clocks hsame).trans htime)
          (afterCalls slot host clocks budget n view b filter).filter
          (fun key raw hgot => hstored key raw (hfewer key raw hgot))
          (fun _ _ _ _ => .inl hreset)
        refine ⟨n + m, ?_⟩
        rw [afterCalls_add]
        exact hclean.congr hsame
  refine ⟨n, fun m hlater k raw hgot => hclean k raw ?_⟩
  obtain ⟨j, rfl⟩ := Nat.exists_eq_add_of_le hlater
  rw [afterCalls_add] at hgot
  exact (afterCalls_keeps slot host clocks budget j _ _ _).2 _ _ hgot

/-! ## A scan that is not ascending -/

/-- Rows without a deadline under the keys. -/
def stock (op : Nat) (xs : List Key) (b : Backend) : Backend :=
  xs.foldl (fun b x => b.put op x []) b

theorem get_stock (op : Nat) (xs : List Key) (b : Backend) (key : Key) :
    (stock op xs b).get op key = if key ∈ xs then some [] else b.get op key := by
  induction xs generalizing b with
  | nil => simp [stock]
  | cons x xs ih =>
      have hstep : stock op (x :: xs) b = stock op xs (b.put op x []) := rfl
      rw [hstep, ih, InMemoryStateBackend.get_put]
      by_cases hlater : key ∈ xs
      · simp [hlater]
      · by_cases hhere : x = key
        · simp [hhere]
        · simp [hlater, hhere, Ne.symm hhere]

/-- A deadline of one millisecond before time zero. -/
def overdue : Value := writeI64Le (-1)

/-- A view whose event time stands at zero. -/
def atZero : View := { hasWatermark := true }

theorem nowForTtl_zero (slot : Slot K V) (hsame : view.SameClock atZero) :
    slot.nowForTtl (fun _ => 0) view = some 0 := by
  rw [slot.nowForTtl_congr _ hsame]
  unfold Slot.nowForTtl
  cases slot.ttl.domain with
  | processingTime => rfl
  | eventTime => rfl

private theorem expired_overdue (slot : Slot K V) :
    Expired slot (fun _ => 0) atZero overdue := by
  have hread : readI64Le overdue = -1 := by
    have := readI64Le_writeI64Le (v := -1) (by omega) []
    rwa [List.append_nil] at this
  refine ⟨by simp [overdue], ?_⟩
  unfold Slot.isExpired
  rw [nowForTtl_zero slot ⟨rfl, rfl, rfl⟩, hread]
  simp [Slot.expiredAt, preClockStamp]

private theorem doomed_nil (now : Int) (rows : List (Key × Value)) (h : ∀ row ∈ rows, row.2 = []) :
    (rows.filter (deadAt slot view now)).map Prod.fst = [] := by
  rw [List.map_eq_nil_iff, List.filter_eq_nil_iff]
  intro row hmem
  simp [deadAt, h row hmem]

private theorem arrange_stock (hscans : Scans host before) {xs : List Key} {a : Key}
    (horder : (xs ++ [a]).Pairwise before) :
    host.arrange ((stock host.op xs (Backend.put {} host.op a overdue)).rows host.op) =
      xs.map (fun x => (x, [])) ++ [(a, overdue)] := by
  have hirrefl : ∀ key, ¬ before key key := fun key hself => hscans.asymm key key hself hself
  have hkeys : (xs.map (fun x => (x, ([] : Value))) ++ [(a, overdue)]).map Prod.fst =
      xs ++ [a] := by simp [Function.comp_def]
  have hnodup : (xs ++ [a]).Nodup := by
    refine List.Pairwise.imp ?_ horder
    rintro key _ hself rfl
    exact hirrefl key hself
  have hfresh : a ∉ xs := by
    intro hmem
    exact List.disjoint_of_nodup_append hnodup hmem (List.mem_singleton_self a)
  have hsorted := hscans.sorted _
    (InMemoryStateBackend.nodup_rows (stock host.op xs (Backend.put {} host.op a overdue)) host.op)
  refine List.Perm.eq_of_pairwise (fun r r' _ _ hone htwo => absurd htwo (hscans.asymm _ _ hone))
    hsorted ?_ ((host.arrange_perm _).trans ?_)
  · rw [← hkeys, List.pairwise_map] at horder
    exact horder
  · refine (List.perm_ext_iff_of_nodup (List.Nodup.of_map Prod.fst
      (InMemoryStateBackend.nodup_rows _ _)) (List.Nodup.of_map Prod.fst (hkeys ▸ hnodup))).mpr ?_
    rintro ⟨key, raw⟩
    rw [InMemoryStateBackend.mem_rows, get_stock, InMemoryStateBackend.get_put]
    by_cases hmem : key ∈ xs
    · have hother : key ≠ a := fun heq => hfresh (heq ▸ hmem)
      rw [if_pos hmem]
      simp only [Option.some_inj, List.mem_append, List.mem_map, List.mem_singleton,
        Prod.mk.injEq, hother, false_and, or_false]
      exact ⟨fun heq => ⟨key, hmem, rfl, heq⟩, fun ⟨_, _, _, heq⟩ => heq⟩
    · by_cases heq : a = key
      · subst heq
        rw [if_neg hmem, if_pos ⟨rfl, rfl⟩]
        simp only [Option.some_inj, List.mem_append, List.mem_map, List.mem_singleton,
          Prod.mk.injEq, true_and]
        exact ⟨fun heq => .inr heq.symm,
          fun hone => hone.elim (fun ⟨x, hxMem, heq, _⟩ => absurd (heq ▸ hxMem) hmem) Eq.symm⟩
      · have hempty : (({} : Backend).get host.op key) = none := rfl
        simp [hmem, heq, Ne.symm heq, hempty]

/-- The rows stay as they are: the cursor goes from the start to the last key and back. -/
theorem stock_stuck (hon : slot.ttl.enabled = true)
    (hplain : host.supportsExpiryCompaction = false) (hpos : 1 ≤ budget)
    (hscans : Scans host before) {xs : List Key} {k : K} {last : Key}
    (hlength : xs.length = budget) (horder : (xs ++ [slot.encodeKey k]).Pairwise before)
    (hunder : ∀ x ∈ xs, slot.slotPrefix <:+: x) (hisLast : xs.getLast? = some last)
    (hnotLess : ¬ last < slot.encodeKey k) (n : Nat) (filter : Option ExpiryFilter)
    (hsame : view.SameClock atZero)
    (hcursor : view.cleanupCursor = [] ∨ view.cleanupCursor = last) :
    let b := stock host.op xs (Backend.put {} host.op (slot.encodeKey k) overdue)
    (afterCalls slot host (fun _ => 0) budget n view b filter).backend = b := by
  intro b
  induction n generalizing view filter with
  | zero => rfl
  | succ n ih =>
      have hlastMem : last ∈ xs := List.mem_of_getLast? hisLast
      have hnonempty : last ≠ [] := by
        rintro hempty
        have hinfix := hunder last hlastMem
        rw [hempty, List.infix_nil] at hinfix
        exact absurd hinfix (by simp [Slot.slotPrefix])
      obtain ⟨hbackend, hnext⟩ :=
        cleanupBatch_sweeps (b := b) hon hplain hpos (nowForTtl_zero slot hsame) filter
      have hsame' := (slot.cleanupBatch_spec host (fun _ => 0) view b filter budget).clock
      have hrows : upcoming slot host view b = ahead slot view.cleanupCursor
          (xs.map (fun x => (x, [])) ++ [(slot.encodeKey k, overdue)]) := by
        unfold upcoming
        rw [arrange_stock hscans horder]
      suffices hstays : (∀ row ∈ (upcoming slot host view b).take budget, row.2 = []) ∧
          ((slot.cleanupBatch host (fun _ => 0) view b filter budget).view.cleanupCursor = [] ∨
            (slot.cleanupBatch host (fun _ => 0) view b filter budget).view.cleanupCursor =
              last) by
        rw [doomed_nil 0 _ hstays.1] at hbackend
        have hagain := ih (slot.cleanupBatch host (fun _ => 0) view b filter budget).filter
          ⟨hsame'.watermarkMs.trans hsame.watermarkMs, hsame'.hasWatermark.trans hsame.hasWatermark,
            hsame'.firstWatermarkMs.trans hsame.firstWatermarkMs⟩ hstays.2
        unfold afterCalls
        simp only
        rw [hbackend]
        exact hagain
      obtain hstart | hstopped := hcursor
      · -- From the start the budget ends at the last of the keys.
        have hwhole : upcoming slot host view b =
            xs.map (fun x => (x, [])) ++ [(slot.encodeKey k, overdue)] := by
          rw [hrows, hstart]
          unfold ahead
          refine List.filter_eq_self.mpr fun row hmem => ?_
          obtain hmem | hmem := List.mem_append.mp hmem
          · obtain ⟨x, hxMem, rfl⟩ := List.mem_map.mp hmem
            simp [hunder x hxMem]
          · obtain rfl := List.mem_singleton.mp hmem
            simp [encodeKey_within slot k]
        have hseen : (upcoming slot host view b).take budget = xs.map (fun x => (x, [])) := by
          rw [hwhole, ← hlength]
          exact List.take_left' (by simp)
        rw [hnext, if_pos (by simp [hwhole, hlength]), hseen]
        refine ⟨by simp, .inr ?_⟩
        rw [List.map_map]
        have hids : (xs.map (Prod.fst ∘ fun x => (x, ([] : Value)))) = xs := List.map_id _
        rw [hids, hisLast]
        rfl
      · -- From the last key nothing smaller is ahead, and the budget is not used up.
        have hsome : ∀ row ∈ upcoming slot host view b, row.2 = [] ∧ row.1 ∈ xs.erase last := by
          intro row hmem
          rw [hrows, hstopped] at hmem
          obtain ⟨hmem, htest⟩ := List.mem_filter.mp hmem
          have hpast : last < row.1 := by simpa [hnonempty] using (of_decide_eq_true htest).2
          obtain hmem | hmem := List.mem_append.mp hmem
          · obtain ⟨x, hxMem, rfl⟩ := List.mem_map.mp hmem
            refine ⟨rfl, (List.mem_erase_of_ne ?_).mpr hxMem⟩
            rintro rfl
            exact List.lt_irrefl _ hpast
          · obtain rfl := List.mem_singleton.mp hmem
            exact absurd hpast hnotLess
        have hfewer : (upcoming slot host view b).length < budget := by
          have hsub : (upcoming slot host view b).map Prod.fst ⊆ xs.erase last := by
            intro key hmem
            obtain ⟨row, hrowMem, rfl⟩ := List.mem_map.mp hmem
            exact (hsome row hrowMem).2
          have hle := (List.subperm_of_subset nodup_upcoming hsub).length_le
          rw [List.length_map, List.length_erase_of_mem hlastMem] at hle
          omega
        rw [hnext, if_neg (by omega)]
        exact ⟨fun row hmem => (hsome row (List.mem_of_mem_take hmem)).1, .inl rfl⟩

theorem ascending_of_reclaims (hon : slot.ttl.enabled = true)
    (hplain : host.supportsExpiryCompaction = false) (hpos : 1 ≤ budget)
    (hscans : Scans host before) (hreclaims : ReclaimsAll slot host keys budget) :
    Ascending slot before keys budget := by
  intro xs k hlength horder hunder hmem last hisLast
  by_contra hnotLess
  have hfresh : slot.encodeKey k ∉ xs := by
    intro hmem'
    have hself := (List.pairwise_append.mp horder).2.2 _ hmem' _ (List.mem_singleton_self _)
    exact hscans.asymm _ _ hself hself
  obtain ⟨n, hclean⟩ := hreclaims (fun _ => 0) atZero
    (stock host.op xs (Backend.put {} host.op (slot.encodeKey k) overdue)) none (by
      intro key raw hgot
      rw [get_stock] at hgot
      split at hgot
      · exact (hunder key ‹_›).1
      · rw [InMemoryStateBackend.get_put] at hgot
        split at hgot
        · rename_i heq
          exact heq.2 ▸ hmem
        · exact absurd hgot (by simp [Backend.get, Clink.Verified.Table.get]))
  refine hclean n le_rfl k overdue ?_ (expired_overdue slot)
  rw [stock_stuck hon hplain hpos hscans hlength horder (fun x hmem => (hunder x hmem).2) hisLast
    hnotLess n
    none ⟨rfl, rfl, rfl⟩ (.inl rfl), get_stock, if_neg hfresh, InMemoryStateBackend.get_put]
  simp

/-! ## A backend that compacts -/

/-- The predicate the slot hands over when its clock is the one of `installed`. -/
def filterAt (slot : Slot K V) (installed : View) : ExpiryFilter :=
  { slotPrefix := slot.slotPrefix
    eventTime := slot.ttl.domain = .eventTime
    wm := installed.watermarkMs
    haveWm := installed.hasWatermark
    clock := slot.ttl.clock }

/-- The predicate in place is the slot's own and was handed over at `installed`, or it is not
handed over yet. -/
def InstalledAt (slot : Slot K V) (installed view : View) (filter : Option ExpiryFilter) : Prop :=
  if view.filterInstalled then filter = some (filterAt slot installed) else installed = view

/-- Some call has a predicate in place that accepts the row. -/
def Accepted (slot : Slot K V) (host : Host) (clocks : Nat → Int) (budget : Nat) (view : View)
    (b : Backend) (filter : Option ExpiryFilter) (row : Key × Value) : Prop :=
  ∃ n, ((afterCalls slot host clocks budget (n + 1) view b filter).filter.any
    fun f => f.dead clocks row) = true

variable {installed : View} {filter : Option ExpiryFilter}

theorem installedFilter_eq (hon : slot.ttl.enabled = true)
    (hown : InstalledAt slot installed view filter) :
    slot.installedFilter view filter = some (filterAt slot installed) := by
  unfold InstalledAt at hown
  unfold Slot.installedFilter
  split at hown
  · rename_i hyes
    simpa [hyes] using hown
  · rename_i hno
    subst hown
    simp [hno, hon, filterAt]

theorem afterCalls_filter (hon : slot.ttl.enabled = true)
    (hcompacts : host.supportsExpiryCompaction = true) (hpos : 1 ≤ budget)
    (htime : slot.nowForTtl clocks view = some now)
    (hown : InstalledAt slot installed view filter) (n : Nat) :
    (afterCalls slot host clocks budget (n + 1) view b filter).filter =
      some (filterAt slot installed) := by
  have hzero : budget ≠ 0 := by omega
  have hcall : slot.cleanupBatch host clocks view b filter budget =
      ⟨0, { view with filterInstalled := true },
        compactExpired host clocks (some (filterAt slot installed)) (fun _ => true) b,
        some (filterAt slot installed)⟩ := by
    simp [Slot.cleanupBatch, hon, hzero, htime, hcompacts, installedFilter_eq hon hown]
  induction n generalizing view b filter with
  | zero =>
      unfold afterCalls afterCalls
      rw [hcall]
  | succ n ih =>
      unfold afterCalls
      simp only
      rw [hcall]
      have htime' : slot.nowForTtl clocks { view with filterInstalled := true } = some now := by
        have hsame : View.SameClock { view with filterInstalled := true } view := ⟨rfl, rfl, rfl⟩
        exact (slot.nowForTtl_congr clocks hsame).trans htime
      have hown' : InstalledAt slot installed { view with filterInstalled := true }
          (some (filterAt slot installed)) := by
        simp [InstalledAt]
      refine ih htime' hown' ?_
      simp [Slot.cleanupBatch, hon, hzero, htime', hcompacts, installedFilter_eq hon hown']

/-- The row is due at the clock the predicate captured: a processing-time clock is read by
the predicate itself, and one of event time stands where it did. -/
def DueAt (slot : Slot K V) (installed : View) (raw : Value) : Prop :=
  slot.ttl.domain = .processingTime ∨
    (installed.hasWatermark = true ∧ readI64Le raw ≠ preClockStamp ∧
      readI64Le raw ≤ installed.watermarkMs)

private theorem dead_filterAt (hclock : ∀ i, -2 ^ 63 ≤ clocks i) {k : K}
    (hexpired : Expired slot clocks view raw) :
    (filterAt slot installed).dead clocks (slot.encodeKey k, raw) = true ↔
      DueAt slot installed raw := by
  obtain ⟨hlong, hpast⟩ := hexpired
  unfold ExpiryFilter.dead DueAt
  simp only
  rw [if_neg (by simp [filterAt, encodeKey_within slot k]), if_neg (by omega)]
  cases hdomain : slot.ttl.domain with
  | eventTime => simp [filterAt, hdomain, and_assoc]
  | processingTime =>
      simp only [filterAt, hdomain, reduceCtorEq, decide_false, Bool.false_eq_true, if_false,
        decide_eq_true_eq, true_or, iff_true]
      unfold Slot.isExpired Slot.nowForTtl at hpast
      simp only [hdomain, Option.any_some] at hpast
      unfold Slot.expiredAt at hpast
      split at hpast
      · rename_i hpre
        rw [hpre]
        exact hclock _
      · exact of_decide_eq_true hpast

theorem accepted_iff (hon : slot.ttl.enabled = true)
    (hcompacts : host.supportsExpiryCompaction = true) (hpos : 1 ≤ budget)
    (hclock : ∀ i, -2 ^ 63 ≤ clocks i) (hown : InstalledAt slot installed view filter) {k : K}
    (hexpired : Expired slot clocks view raw) :
    Accepted slot host clocks budget view b filter (slot.encodeKey k, raw) ↔
      DueAt slot installed raw := by
  cases htime : slot.nowForTtl clocks view with
  | none =>
      have hpast := hexpired.2
      unfold Slot.isExpired at hpast
      simp [htime] at hpast
  | some now =>
      have hkept := afterCalls_filter (b := b) hon hcompacts hpos htime hown
      simp only [Accepted, hkept, Option.any_some, exists_const]
      exact dead_filterAt hclock hexpired

end Calls

/-- With a backend that sweeps, every expired entry goes for every content over the keys
exactly where the scan is ascending.  With one that compacts, an expired entry is accepted
exactly where it was due at the clock the predicate captured. -/
theorem cleanup_reclaims_iff (slot : Slot K V) (hon : slot.ttl.enabled = true) (host : Host)
    {before : Key → Key → Prop} (hscans : Scans host before) {budget : Nat} (hpos : 1 ≤ budget) :
    (host.supportsExpiryCompaction = false →
      ∀ keys, ReclaimsAll slot host keys budget ↔ Ascending slot before keys budget) ∧
    (host.supportsExpiryCompaction = true →
      ∀ clocks view installed b filter, (∀ i, -2 ^ 63 ≤ clocks i) →
        InstalledAt slot installed view filter →
        ((∀ k raw, b.get host.op (slot.encodeKey k) = some raw → Expired slot clocks view raw →
            Accepted slot host clocks budget view b filter (slot.encodeKey k, raw)) ↔
          ∀ k raw, b.get host.op (slot.encodeKey k) = some raw → Expired slot clocks view raw →
            DueAt slot installed raw)) := by
  refine ⟨fun hplain keys => ⟨ascending_of_reclaims hon hplain hpos hscans,
    reclaims_of_ascending hon hplain hpos hscans⟩, ?_⟩
  intro hcompacts clocks view installed b filter hclock hown
  constructor
  · intro hall k raw hgot hexpired
    exact (accepted_iff hon hcompacts hpos hclock hown hexpired).mp (hall k raw hgot hexpired)
  · intro hdue k raw hgot hexpired
    exact (accepted_iff hon hcompacts hpos hclock hown hexpired).mpr (hdue k raw hgot hexpired)

/-- A backend that scans in the order of a comparison of keys. -/
def hostBy (le : Key → Key → Bool) (compacts : Bool) : Host where
  op := 1
  arrange rows := rows.mergeSort fun row row' => le row.1 row'.1
  arrange_perm rows := List.mergeSort_perm rows _
  supportsExpiryCompaction := compacts

theorem scans_hostBy {le : Key → Key → Bool} (compacts : Bool)
    (htrans : ∀ a b c, le a b = true → le b c = true → le a c = true)
    (htotal : ∀ a b, (le a b || le b a) = true)
    (hantisymm : ∀ a b, le a b = true → le b a = true → a = b) :
    Scans (hostBy le compacts) fun a b => le a b = true ∧ a ≠ b where
  asymm := fun a b hone htwo => hone.2 (hantisymm a b hone.1 htwo.1)
  sorted := by
    intro rows hnodup
    have hsorted := List.pairwise_mergeSort
      (fun a b c => htrans a.1 b.1 c.1) (fun a b => htotal a.1 b.1) rows
    have hdistinct : (rows.mergeSort fun row row' => le row.1 row'.1).Pairwise
        fun row row' => row.1 ≠ row'.1 := by
      have hnodup' := ((List.mergeSort_perm rows fun row row' => le row.1 row'.1).map
        Prod.fst).nodup_iff.mpr hnodup
      exact List.pairwise_map.mp hnodup'
    exact hsorted.and hdistinct

def upward (a b : Key) : Bool := a ≤ b

def downward (a b : Key) : Bool := b ≤ a

private theorem scans_upward (compacts : Bool) :
    Scans (hostBy upward compacts) fun a b => upward a b = true ∧ a ≠ b := by
  refine scans_hostBy compacts ?_ ?_ ?_
  · intro a b c hone htwo
    exact decide_eq_true (List.le_trans (of_decide_eq_true hone) (of_decide_eq_true htwo))
  · intro a b
    simpa [upward] using List.le_total a b
  · intro a b hone htwo
    exact List.le_antisymm (of_decide_eq_true hone) (of_decide_eq_true htwo)

theorem scans_downward (compacts : Bool) :
    Scans (hostBy downward compacts) fun a b => downward a b = true ∧ a ≠ b := by
  refine scans_hostBy compacts ?_ ?_ ?_
  · intro a b c hone htwo
    exact decide_eq_true (List.le_trans (of_decide_eq_true htwo) (of_decide_eq_true hone))
  · intro a b
    simpa [downward] using List.le_total b a
  · intro a b hone htwo
    exact List.le_antisymm (of_decide_eq_true htwo) (of_decide_eq_true hone)

/-- Entries that live ten milliseconds of event time. -/
def tenMs : Slot (List UInt8) (List UInt8) where
  slotName := [115]
  keyCodec := stringCodec
  valueCodec := stringCodec
  ttl := { ttl := 10, domain := .eventTime }
  valid := by decide

/-- A scan in the order of keys is ascending for every budget. -/
theorem cleanup_reclaims_iff_keyOrder :
    ReclaimsAll tenMs (hostBy upward false) Set.univ 1 := by
  refine ((cleanup_reclaims_iff tenMs (by decide) _ (scans_upward false) le_rfl).1 rfl _).mpr ?_
  intro xs k _ horder _ _ last hisLast
  obtain ⟨hle, hne⟩ := (List.pairwise_append.mp horder).2.2 last (List.mem_of_getLast? hisLast) _
    (List.mem_singleton_self _)
  by_contra hnotLess
  exact hne (List.le_antisymm (of_decide_eq_true hle) (List.not_lt.mp hnotLess))

/-- A scan that goes down leaves an expired entry for ever, and so does a predicate that was
installed before the deadline. -/
theorem expired_entries_left :
    (Scans (hostBy downward false) (fun a b => downward a b = true ∧ a ≠ b) ∧
      ¬ ReclaimsAll tenMs (hostBy downward false) Set.univ 1) ∧
    (let view : View := { watermarkMs := 100, hasWatermark := true, filterInstalled := true }
     let installed : View := { watermarkMs := 5, hasWatermark := true }
     let b := Backend.put {} 1 (tenMs.encodeKey []) (writeI64Le 50)
     Expired tenMs (fun _ => 0) view (writeI64Le 50) ∧
     ¬ Accepted tenMs (hostBy upward true) (fun _ => 0) 1 view b (some (filterAt tenMs installed))
        (tenMs.encodeKey [], writeI64Le 50)) := by
  refine ⟨⟨scans_downward false, fun hreclaims => ?_⟩, ?_⟩
  · have hascending := ascending_of_reclaims (by decide) rfl le_rfl (scans_downward false) hreclaims
    exact absurd (hascending [tenMs.encodeKey [98]] [97] rfl (by decide) (by decide)
      (Set.mem_univ _) _ rfl) (by decide)
  · intro view installed b
    have hexpired : Expired tenMs (fun _ => 0) view (writeI64Le 50) := by
      unfold Expired
      decide
    refine ⟨hexpired, fun haccepted => ?_⟩
    have hown : InstalledAt tenMs installed view (some (filterAt tenMs installed)) := rfl
    have hdue := (accepted_iff (by decide) rfl le_rfl (by simp) hown hexpired).mp haccepted
    unfold DueAt at hdue
    exact absurd hdue (by decide)

/-- `cleanup_all` ends, and leaves no expired entry of the slot. -/
theorem cleanupAll_cleans {slot : Slot K V} {host : Host} {clocks : Nat → Int} {view : View}
    {b : Backend} {filter : Option ExpiryFilter} (hon : slot.ttl.enabled = true)
    (hplain : host.supportsExpiryCompaction = false)
    (hfew : (b.rows host.op).length < maxBudget) :
    Clean slot host clocks view (slot.cleanupAll host clocks view b filter).backend ∧
      ∀ extra, slot.cleanupPasses host clocks ((b.rows host.op).length + 1 + extra)
        { view with cleanupCursor := [] } b filter = slot.cleanupAll host clocks view b filter := by
  have hpasses : ∀ fuel (view' : View) b filter, view'.SameClock view → view'.cleanupCursor = [] →
      (b.rows host.op).length < fuel → (b.rows host.op).length < maxBudget →
      Clean slot host clocks view (slot.cleanupPasses host clocks fuel view' b filter).backend := by
    intro fuel
    induction fuel with
    | zero => omega
    | succ fuel ih =>
        intro view' b filter hsame hstart hbound hfew
        have hpass : Clean slot host clocks view
            (slot.cleanupBatch host clocks view' b filter maxBudget).backend := by
          cases htime : slot.nowForTtl clocks view' with
          | none =>
              intro k raw _ hexpired
              have hpast := ((Expired.congr hsame).mpr hexpired).2
              simp [Slot.isExpired, htime] at hpast
          | some now =>
              refine ((call_short hon hplain (by decide) htime filter ?_).2 ?_).congr hsame
              · exact (List.length_filter_le _ _).trans_lt
                  (by rwa [(host.arrange_perm _).length_eq])
              · exact fun _ _ _ _ => .inl hstart
        unfold Slot.cleanupPasses
        dsimp only
        split
        · exact hpass
        · rename_i herased
          have hfewer := slot.length_rows_cleanupBatch host clocks view' b filter maxBudget herased
          have hsame' := (slot.cleanupBatch_spec host clocks view' b filter maxBudget).clock
          refine ih _ _ _ ?_ rfl (by omega) (by omega)
          exact ⟨hsame'.1.trans hsame.1, hsame'.2.trans hsame.2, hsame'.3.trans hsame.3⟩
  exact ⟨hpasses _ _ b filter ⟨rfl, rfl, rfl⟩ rfl (Nat.lt_succ_self _) hfew,
    fun extra => slot.cleanupAll_settles host clocks extra view b filter⟩

/-- Three entries of the slot, the middle one not overdue. -/
def threeRows : Backend :=
  [([97], overdue), ([98], writeI64Le 50), ([99], overdue)].foldl
    (fun b row => Backend.put b 1 (tenMs.encodeKey row.1) row.2) {}

/-- A full cleanup does not need the order the others need. -/
theorem cleanupAll_cleans_downward :
    threeRows.get 1 (tenMs.encodeKey [97]) = some overdue ∧
    threeRows.get 1 (tenMs.encodeKey [99]) = some overdue ∧
    Expired tenMs (fun _ => 0) atZero overdue ∧
    Clean tenMs (hostBy downward false) (fun _ => 0) atZero
      (tenMs.cleanupAll (hostBy downward false) (fun _ => 0) atZero threeRows none).backend := by
  have hexpired : Expired tenMs (fun _ => 0) atZero overdue := by
    unfold Expired
    decide
  exact ⟨by decide, by decide, hexpired, (cleanupAll_cleans (by decide) rfl (by decide)).1⟩

end Clink.Ports.CleanupProgress

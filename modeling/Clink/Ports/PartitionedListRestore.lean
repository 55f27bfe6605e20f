import Clink.Ports.PartitionedList

/-!
# Snapshots of lists kept entry by entry

What `snapshot` leaves in the state backend, and what a list bound to it reads
back.  `Captured` says that the backend has the groups and the cells of the
stores, under their keys, and nothing else of the list's; `Holds.snapshot`
establishes it and `Captured.bind` reads it.

A run takes operations, snapshots and restarts in any order; a restart binds a
new list to what the backend held at the last snapshot.  The lists follow by the
same operations on a plain map (`Agrees`).
-/

namespace Clink.Ports.PartitionedList

open Clink.Verified
open Clink.Ports.InMemoryStateBackend (Backend Bytes)
open Clink.Ports.KeyedState (Codec Slot Host View bar stringCodec)

variable {T : Type} {L : Settings T} {img : Image T} {s : Store}

/-! ## The rows of the two slots -/

/-- A scan does not look at the key group. -/
theorem visitRow_head {K V : Type} (slot : Slot K V) (c c' : UInt8) (rest raw : Bytes) :
    slot.visitRow noClocks {} (c :: rest, raw) = slot.visitRow noClocks {} (c' :: rest, raw) := by
  unfold Slot.visitRow
  simp [Nat.add_comm 1]

theorem slotName_ne : (groupsSlot L).slotName ≠ (rowsSlot L).slotName := by
  intro h
  have := List.append_cancel_left h
  revert this
  decide

theorem groups_visit (key raw : Bytes) :
    (groupsSlot L).visitRow noClocks {} ((groupsSlot L).encodeKey key, raw) =
      (L.lengths.decode raw).map fun n => (key, n) := by
  rw [Slot.visitRow_encodeKey]
  rfl

theorem rows_visit (partition cell raw : Bytes) :
    (rowsSlot L).visitRow noClocks {} (cellRow L partition cell, raw) = some (cell, raw) := by
  have h := (rowsSlot L).visitRow_encodeKey noClocks {} cell raw
  rw [Slot.encodeKey] at h
  rw [cellRow, visitRow_head _ _ _ _ raw]
  exact h

theorem groups_visit_cellRow (partition cell raw : Bytes) :
    (groupsSlot L).visitRow noClocks {} (cellRow L partition cell, raw) = none := by
  have h := Slot.visitRow_other (slotName_ne (L := L)) noClocks {} cell raw
  rw [Slot.encodeKey] at h
  rw [cellRow, visitRow_head _ _ _ _ raw]
  exact h

private theorem rows_visit_encodeKey (key raw : Bytes) :
    (rowsSlot L).visitRow noClocks {} ((groupsSlot L).encodeKey key, raw) = none :=
  Slot.visitRow_other (slotName_ne (L := L)).symm noClocks {} key raw

theorem foreign_formatRow : Foreign L (formatRow L) := by
  intro raw
  constructor
  · unfold Slot.visitRow
    simp only
    rw [if_pos]
    simp [formatRow, groupsSlot, ascii]
  · have hname : ((formatRow L).drop 1).take (rowsSlot L).slotName.length ≠
        (rowsSlot L).slotName := by
      intro h
      have htake : ((formatRow L).drop 1).take (rowsSlot L).slotName.length =
          L.listPrefix ++ ascii ".form" := by
        simp [formatRow, rowsSlot, ascii, List.take_append, List.take_of_length_le]
      rw [htake] at h
      have := List.append_cancel_left h
      revert this
      decide
    unfold Slot.visitRow
    simp only
    split
    · rfl
    · rw [if_pos (.inl hname)]

/-! ## Rows written one after another -/

theorem foldlM_ok {ε σ : Type} {f : σ → ε → Except Error σ} {g : σ → ε → σ} (l : List ε)
    (h : ∀ b, ∀ e ∈ l, f b e = .ok (g b e)) (b : σ) : l.foldlM f b = .ok (l.foldl g b) := by
  induction l generalizing b with
  | nil => rfl
  | cons e rest ih =>
      rw [List.foldlM_cons, h b e List.mem_cons_self]
      exact ih (fun b e he => h b e (List.mem_cons_of_mem _ he)) _

/-- The entries of a store in some order, written under rows that name their key. -/
def putAll (op : Nat) (row : Bytes → Bytes) (entries : List (Bytes × Bytes)) (b : Backend) :
    Backend :=
  entries.foldl (fun b e => b.put op (row e.1) e.2) b

theorem get_putAll_other {op : Nat} {row : Bytes → Bytes} {entries : List (Bytes × Bytes)}
    {k : Bytes} (h : ∀ e ∈ entries, row e.1 ≠ k) (b : Backend) :
    (putAll op row entries b).get op k = b.get op k := by
  unfold putAll
  induction entries generalizing b with
  | nil => rfl
  | cons e rest ih =>
      rw [List.foldl_cons, ih fun e he => h e (List.mem_cons_of_mem _ he),
        InMemoryStateBackend.get_put, if_neg fun hk => h e List.mem_cons_self hk.2]

theorem get_putAll_self {op : Nat} {row : Bytes → Bytes} {entries : List (Bytes × Bytes)}
    (hfun : ∀ e ∈ entries, ∀ e' ∈ entries, row e.1 = row e'.1 → e.2 = e'.2)
    {e : Bytes × Bytes} (he : e ∈ entries) (b : Backend) :
    (putAll op row entries b).get op (row e.1) = some e.2 := by
  induction entries generalizing b e with
  | nil => cases he
  | cons e' rest ih =>
      have hfun' : ∀ x ∈ rest, ∀ y ∈ rest, row x.1 = row y.1 → x.2 = y.2 := fun x hx y hy =>
        hfun x (List.mem_cons_of_mem _ hx) y (List.mem_cons_of_mem _ hy)
      change (putAll op row rest (b.put op (row e'.1) e'.2)).get op (row e.1) = some e.2
      by_cases hlater : ∃ x ∈ rest, row x.1 = row e.1
      · obtain ⟨x, hx, hrow⟩ := hlater
        rw [← hrow, ih hfun' hx, hfun x (List.mem_cons_of_mem _ hx) e he hrow]
      · push Not at hlater
        have hhead : e = e' := by
          obtain rfl | hrest := List.mem_cons.mp he
          · rfl
          · exact absurd rfl (hlater e hrest)
        rw [get_putAll_other hlater, InMemoryStateBackend.get_put, hhead, if_pos ⟨rfl, rfl⟩]

theorem mem_entries {store : SpillStore} {e : Bytes × Bytes} :
    e ∈ Store.entries L store ↔ store.lookup e.1 = some e.2 := by
  rw [Store.entries, (L.listing_perm _).mem_iff, List.mem_map]
  constructor
  · rintro ⟨e', he', rfl⟩
    exact AList.mem_lookup_iff.mpr he'
  · intro h
    exact ⟨⟨e.1, e.2⟩, AList.mem_lookup_iff.mp h, rfl⟩

/-! ## What a snapshot leaves in the backend -/

/-- The backend holds the stores' groups and cells, and no other of the list's. -/
structure Captured (L : Settings T) (s : Store) (b : Backend) : Prop where
  format : hasFormat L b = true
  groups : ∀ key bytes, s.groups.lookup key = some bytes →
    b.get L.host.op ((groupsSlot L).encodeKey key) = some bytes
  cells : ∀ (key : GroupKey) i bytes, s.rows.lookup (cellKey key.1 i) = some bytes →
    b.get L.host.op (cellRow L key.1 (cellKey key.1 i)) = some bytes
  covered : Covered L s b

/-- The row `snapshot` writes a cell under. -/
def rowOfCell (L : Settings T) (cell : Bytes) : Bytes :=
  match backendCellKey L cell with
  | .ok row => row
  | .error _ => []

theorem rowOfCell_cellKey (key : GroupKey) (i : Nat) :
    rowOfCell L (cellKey key.1 i) = cellRow L key.1 (cellKey key.1 i) := by
  rw [rowOfCell, backendCellKey_cellKey]

theorem Holds.decode_group (h : Holds L img s) {key bytes : Bytes}
    (hlook : s.groups.lookup key = some bytes) :
    ∃ n, L.lengths.decode bytes = some n ∧ L.lengths.encode n = bytes := by
  obtain ⟨k, rfl⟩ := h.groupKeys key (AList.lookup_isSome.mp (by simp [hlook]))
  rw [h.groups, Option.map_eq_some_iff] at hlook
  obtain ⟨n, -, rfl⟩ := hlook
  exact ⟨n, L.lengths.decode_encode n, rfl⟩

theorem Holds.cellKey_of_lookup (h : Holds L img s) {cell bytes : Bytes}
    (hlook : s.rows.lookup cell = some bytes) :
    ∃ (key : GroupKey) (i : Nat), cell = cellKey key.1 i :=
  h.cellKeys cell (AList.lookup_isSome.mp (by simp [hlook]))

private theorem encodeKey_ne_cellRow (key partition cell : Bytes) :
    (groupsSlot L).encodeKey key ≠ cellRow L partition cell := by
  intro heq
  have hsome := groups_visit (L := L) key (L.lengths.encode 0)
  rw [heq, groups_visit_cellRow, L.lengths.decode_encode] at hsome
  cases hsome

private theorem encodeKey_ne_formatRow (key : Bytes) :
    (groupsSlot L).encodeKey key ≠ formatRow L := by
  intro heq
  have hsome := groups_visit (L := L) key (L.lengths.encode 0)
  rw [heq, (foreign_formatRow _).1, L.lengths.decode_encode] at hsome
  cases hsome

private theorem cellRow_ne_formatRow (partition cell : Bytes) :
    cellRow L partition cell ≠ formatRow L := by
  intro heq
  have hsome := rows_visit (L := L) partition cell []
  rw [heq, (foreign_formatRow _).2] at hsome
  cases hsome

theorem cell_of_cellRow {partition partition' cell cell' : Bytes}
    (h : cellRow L partition cell = cellRow L partition' cell') : cell = cell' := by
  have hsome := rows_visit (L := L) partition cell []
  rw [h, rows_visit] at hsome
  exact (congrArg Prod.fst (Option.some.inj hsome)).symm

/-- The backend after a snapshot. -/
def published (L : Settings T) (s : Store) (b : Backend) : Backend :=
  (putAll L.host.op (rowOfCell L) (Store.entries L s.rows)
    (putAll L.host.op (groupsSlot L).encodeKey (Store.entries L s.groups) b)).put
      L.host.op (formatRow L) (ascii "1")

private theorem Holds.snapshot_eq (h : Holds L img s) {b : Backend} (hb : s.backend = some b) :
    s.snapshot L = .ok { s with backend := some (published L s b) } := by
  have hgroups : (Store.entries L s.groups).foldlM (Store.snapshotGroup L) b =
      .ok (putAll L.host.op (groupsSlot L).encodeKey (Store.entries L s.groups) b) := by
    refine foldlM_ok _ (fun b e he => ?_) b
    obtain ⟨n, hdecode, hencode⟩ := h.decode_group (mem_entries.mp he)
    rw [Store.snapshotGroup, hdecode]
    simp only [Slot.put_eq]
    rw [← hencode]
    rfl
  have hrows : ∀ b, (Store.entries L s.rows).foldlM (Store.snapshotCell L) b =
      .ok (putAll L.host.op (rowOfCell L) (Store.entries L s.rows) b) := by
    refine foldlM_ok _ fun b e he => ?_
    obtain ⟨key, i, hcell⟩ := h.cellKey_of_lookup (mem_entries.mp he)
    rw [Store.snapshotCell, hcell, rowOfCell_cellKey, backendCellKey_cellKey]
    rfl
  rw [Store.snapshot, hb]
  simp only [hgroups]
  change ((Store.entries L s.rows).foldlM (Store.snapshotCell L) _ >>= _) = _
  rw [hrows]
  rfl

/-- A row a snapshot does not write is as it was. -/
theorem get_published_other {b : Backend} {row : Bytes} (hformat : formatRow L ≠ row)
    (hgroup : ∀ e ∈ Store.entries L s.groups, (groupsSlot L).encodeKey e.1 ≠ row)
    (hcell : ∀ e ∈ Store.entries L s.rows, rowOfCell L e.1 ≠ row) :
    (published L s b).get L.host.op row = b.get L.host.op row := by
  rw [published, InMemoryStateBackend.get_put, if_neg fun hk => hformat hk.2,
    get_putAll_other hcell, get_putAll_other hgroup]

private theorem Holds.get_published_group (h : Holds L img s) (b : Backend) {key bytes : Bytes}
    (hlook : s.groups.lookup key = some bytes) :
    (published L s b).get L.host.op ((groupsSlot L).encodeKey key) = some bytes := by
  have hcell : ∀ e ∈ Store.entries L s.rows, rowOfCell L e.1 ≠ (groupsSlot L).encodeKey key := by
    intro e he
    obtain ⟨k, i, hk⟩ := h.cellKey_of_lookup (mem_entries.mp he)
    rw [hk, rowOfCell_cellKey]
    exact (encodeKey_ne_cellRow _ _ _).symm
  have hfun : ∀ e ∈ Store.entries L s.groups, ∀ e' ∈ Store.entries L s.groups,
      (groupsSlot L).encodeKey e.1 = (groupsSlot L).encodeKey e'.1 → e.2 = e'.2 := by
    intro e he e' he' heq
    have hkey : e.1 = e'.1 := (Slot.encodeKey_inj heq).2
    rw [mem_entries, hkey, mem_entries.mp he'] at he
    exact (Option.some.inj he).symm
  have hmem : (key, bytes) ∈ Store.entries L s.groups := mem_entries.mpr hlook
  rw [published, InMemoryStateBackend.get_put,
    if_neg fun hk => encodeKey_ne_formatRow key hk.2.symm, get_putAll_other hcell]
  exact get_putAll_self hfun hmem b

private theorem Holds.get_published_cell (h : Holds L img s) (b : Backend) {key : GroupKey}
    {i : Nat}
    {bytes : Bytes} (hlook : s.rows.lookup (cellKey key.1 i) = some bytes) :
    (published L s b).get L.host.op (cellRow L key.1 (cellKey key.1 i)) = some bytes := by
  have hfun : ∀ e ∈ Store.entries L s.rows, ∀ e' ∈ Store.entries L s.rows,
      rowOfCell L e.1 = rowOfCell L e'.1 → e.2 = e'.2 := by
    intro e he e' he' heq
    obtain ⟨k, j, hcell⟩ := h.cellKey_of_lookup (mem_entries.mp he)
    obtain ⟨k', j', hcell'⟩ := h.cellKey_of_lookup (mem_entries.mp he')
    rw [hcell, hcell', rowOfCell_cellKey, rowOfCell_cellKey] at heq
    have hkey : e.1 = e'.1 := by rw [hcell, hcell', cell_of_cellRow heq]
    rw [mem_entries, hkey, mem_entries.mp he'] at he
    exact (Option.some.inj he).symm
  have hmem : (cellKey key.1 i, bytes) ∈ Store.entries L s.rows := mem_entries.mpr hlook
  rw [published, InMemoryStateBackend.get_put,
    if_neg fun hk => cellRow_ne_formatRow _ _ hk.2.symm, ← rowOfCell_cellKey]
  exact get_putAll_self hfun hmem _

/-- A snapshot succeeds, changes the backend only, and leaves the stores in it. -/
theorem Holds.snapshot (h : Holds L img s) {b : Backend} (hb : s.backend = some b) :
    ∃ b', s.snapshot L = .ok { s with backend := some b' } ∧ Captured L s b' := by
  refine ⟨_, h.snapshot_eq hb, ⟨?_, fun _ _ => h.get_published_group b,
    fun _ _ _ => h.get_published_cell b, fun row raw hraw => ?_⟩⟩
  · simp [hasFormat, published, InMemoryStateBackend.get_put]
  · by_cases hformat : formatRow L = row
    · exact .inr (.inr (hformat ▸ foreign_formatRow))
    by_cases hgroup : ∃ e ∈ Store.entries L s.groups, (groupsSlot L).encodeKey e.1 = row
    · obtain ⟨e, he, hrow⟩ := hgroup
      exact .inl ⟨e.1, hrow.symm, AList.lookup_isSome.mp (by simp [mem_entries.mp he])⟩
    by_cases hcell : ∃ e ∈ Store.entries L s.rows, rowOfCell L e.1 = row
    · obtain ⟨e, he, hrow⟩ := hcell
      obtain ⟨key, i, hk⟩ := h.cellKey_of_lookup (mem_entries.mp he)
      rw [hk, rowOfCell_cellKey] at hrow
      refine .inr (.inl ⟨key, i, hrow.symm, AList.lookup_isSome.mp ?_⟩)
      rw [← hk, mem_entries.mp he]
      rfl
    push Not at hgroup hcell
    rw [get_published_other hformat hgroup hcell] at hraw
    exact h.covered b hb row raw hraw

/-! ## What a list bound to it reads back -/

theorem mem_scan {K V : Type} (slot : Slot K V) (b : Backend) (e : K × V) :
    e ∈ slot.scan L.host noClocks {} b ↔
      ∃ row raw, b.get L.host.op row = some raw ∧
        slot.visitRow noClocks {} (row, raw) = some e := by
  rw [Slot.scan, List.mem_filterMap]
  constructor
  · rintro ⟨⟨row, raw⟩, hmem, hvisit⟩
    exact ⟨row, raw, InMemoryStateBackend.mem_rows.mp ((L.host.arrange_perm _).mem_iff.mp hmem),
      hvisit⟩
  · rintro ⟨row, raw, hget, hvisit⟩
    exact ⟨(row, raw),
      (L.host.arrange_perm _).mem_iff.mpr (InMemoryStateBackend.mem_rows.mpr hget), hvisit⟩

theorem lookup_foldl_insert {V : Type} (f : V → Bytes) (l : List (Bytes × V))
    (hfun : ∀ e ∈ l, ∀ e' ∈ l, e.1 = e'.1 → f e.2 = f e'.2) (store : SpillStore)
    (key value : Bytes) :
    (l.foldl (fun store e => store.insert e.1 (f e.2)) store).lookup key = some value ↔
      (∃ e ∈ l, e.1 = key ∧ f e.2 = value) ∨
        (∀ e ∈ l, e.1 ≠ key) ∧ store.lookup key = some value := by
  induction l generalizing store with
  | nil => simp
  | cons e rest ih =>
      have hrest : ∀ x ∈ rest, ∀ y ∈ rest, x.1 = y.1 → f x.2 = f y.2 := fun x hx y hy =>
        hfun x (List.mem_cons_of_mem _ hx) y (List.mem_cons_of_mem _ hy)
      rw [List.foldl_cons, ih hrest]
      by_cases hkey : e.1 = key
      · have hsame : ∀ x ∈ rest, x.1 = key → f x.2 = f e.2 := fun x hx hxk =>
          hfun x (List.mem_cons_of_mem _ hx) e List.mem_cons_self (hxk.trans hkey.symm)
        subst hkey
        rw [AList.lookup_insert]
        grind
      · rw [AList.lookup_insert_ne (Ne.symm hkey)]
        grind

namespace Captured

variable {b : Backend}

theorem mem_groups (hc : Captured L s b) (h : Holds L img s) (key : Bytes) (n : Nat) :
    (key, n) ∈ (groupsSlot L).scan L.host noClocks {} b ↔
      s.groups.lookup key = some (L.lengths.encode n) := by
  rw [mem_scan]
  constructor
  · rintro ⟨row, raw, hget, hvisit⟩
    obtain ⟨k, rfl, hmem⟩ | ⟨k, i, rfl, -⟩ | hforeign := hc.covered row raw hget
    · obtain ⟨bytes, hlook⟩ := Option.isSome_iff_exists.mp (AList.lookup_isSome.mpr hmem)
      obtain ⟨m, hdecode, rfl⟩ := h.decode_group hlook
      rw [hc.groups k _ hlook] at hget
      obtain rfl := Option.some.inj hget
      rw [groups_visit, hdecode] at hvisit
      obtain ⟨rfl, rfl⟩ := Prod.mk.inj (Option.some.inj hvisit)
      exact hlook
    · rw [groups_visit_cellRow] at hvisit
      cases hvisit
    · rw [(hforeign raw).1] at hvisit
      cases hvisit
  · intro hlook
    refine ⟨_, _, hc.groups key _ hlook, ?_⟩
    rw [groups_visit, L.lengths.decode_encode]
    rfl

theorem mem_cells (hc : Captured L s b) (h : Holds L img s) (cell bytes : Bytes) :
    (cell, bytes) ∈ (rowsSlot L).scan L.host noClocks {} b ↔ s.rows.lookup cell = some bytes := by
  rw [mem_scan]
  constructor
  · rintro ⟨row, raw, hget, hvisit⟩
    obtain ⟨k, rfl, -⟩ | ⟨k, i, rfl, hmem⟩ | hforeign := hc.covered row raw hget
    · rw [rows_visit_encodeKey] at hvisit
      cases hvisit
    · obtain ⟨held, hlook⟩ := Option.isSome_iff_exists.mp (AList.lookup_isSome.mpr hmem)
      rw [hc.cells k i _ hlook] at hget
      obtain rfl := Option.some.inj hget
      rw [rows_visit] at hvisit
      obtain ⟨rfl, rfl⟩ := Prod.mk.inj (Option.some.inj hvisit)
      exact hlook
    · rw [(hforeign raw).2] at hvisit
      cases hvisit
  · intro hlook
    obtain ⟨k, i, rfl⟩ := h.cellKey_of_lookup hlook
    exact ⟨_, _, hc.cells k i _ hlook, rows_visit _ _ _⟩

private theorem lookup_restoredGroups (hc : Captured L s b) (h : Holds L img s) (key : Bytes) :
    (restoredGroups L b).lookup key = s.groups.lookup key := by
  refine Option.ext fun bytes => ?_
  have hfun : ∀ e ∈ (groupsSlot L).scan L.host noClocks {} b,
      ∀ e' ∈ (groupsSlot L).scan L.host noClocks {} b, e.1 = e'.1 →
        L.lengths.encode e.2 = L.lengths.encode e'.2 := by
    intro e he e' he' hkey
    rw [hc.mem_groups h, hkey, (hc.mem_groups h _ _).mp he'] at he
    exact (Option.some.inj he).symm
  rw [restoredGroups, lookup_foldl_insert _ _ hfun]
  constructor
  · rintro (⟨e, he, rfl, rfl⟩ | ⟨-, hempty⟩)
    · exact (hc.mem_groups h _ _).mp he
    · cases hempty
  · intro hlook
    obtain ⟨n, -, rfl⟩ := h.decode_group hlook
    exact .inl ⟨(key, n), (hc.mem_groups h _ _).mpr hlook, rfl, rfl⟩

private theorem lookup_restoredRows (hc : Captured L s b) (h : Holds L img s) (cell : Bytes) :
    (restoredRows L b).lookup cell = s.rows.lookup cell := by
  refine Option.ext fun bytes => ?_
  have hfun : ∀ e ∈ (rowsSlot L).scan L.host noClocks {} b,
      ∀ e' ∈ (rowsSlot L).scan L.host noClocks {} b, e.1 = e'.1 → id e.2 = id e'.2 := by
    intro e he e' he' hkey
    rw [hc.mem_cells h, hkey, (hc.mem_cells h _ _).mp he'] at he
    exact (Option.some.inj he).symm
  have hfold := lookup_foldl_insert id _ hfun ∅ cell bytes
  simp only [id] at hfold
  rw [restoredRows, hfold]
  constructor
  · rintro (⟨e, he, rfl, rfl⟩ | ⟨-, hempty⟩)
    · exact (hc.mem_cells h _ _).mp he
    · cases hempty
  · intro hlook
    exact .inl ⟨(cell, bytes), (hc.mem_cells h _ _).mpr hlook, rfl, rfl⟩

/-- A list bound to a captured backend holds what the captured stores held. -/
theorem bind (hc : Captured L s b) (h : Holds L img s) {env : Environment}
    (henv : env.supportsAsyncGet = false) :
    ∃ s', PartitionedList.bind L env (some b) = .ok (some s') ∧ Holds L img s' ∧
      s'.backend = some b := by
  have hgroups := hc.lookup_restoredGroups h
  have hrows := hc.lookup_restoredRows h
  have hgroupMem : ∀ key, key ∈ restoredGroups L b ↔ key ∈ s.groups := fun key => by
    rw [← AList.lookup_isSome, ← AList.lookup_isSome, hgroups]
  have hrowMem : ∀ cell, cell ∈ restoredRows L b ↔ cell ∈ s.rows := fun cell => by
    rw [← AList.lookup_isSome, ← AList.lookup_isSome, hrows]
  refine ⟨{ groups := restoredGroups L b, rows := restoredRows L b, backend := some b }, ?_,
    ⟨fun key => (hgroups key.1).trans (h.groups key), fun key i => (hrows _).trans (h.cells key i),
      fun key hmem => h.groupKeys key ((hgroupMem key).mp hmem),
      fun cell hmem => h.cellKeys cell ((hrowMem cell).mp hmem), ?_⟩, rfl⟩
  · unfold PartitionedList.bind
    simp [hc.format, henv]
  · rintro b' ⟨⟩
    exact hc.covered.mono (fun key => (hgroupMem key).mpr) fun cell => (hrowMem cell).mpr

end Captured

/-! ## Reading -/

/-- A visitor over a list, from an index on. -/
def visit {σ : Type} (visitor : σ → Nat → T → σ × Bool) : List T → Nat → σ → σ
  | [], _, seen => seen
  | value :: rest, index, seen =>
      match visitor seen index value with
      | (seen, true) => visit visitor rest (index + 1) seen
      | (seen, false) => seen

/-- The reads of a store are those of the lists. -/
structure Reads (L : Settings T) (lists : Lists T) (s : Store) : Prop where
  size : ∀ key : GroupKey, s.size L key.1 = .ok (lists key).length
  entryAt : ∀ (key : GroupKey) i, s.entryAt L key.1 i =
    match (lists key)[i]? with
    | some value => .ok value
    | none => .error .missingEntry
  scan : ∀ {σ : Type} (visitor : σ → Nat → T → σ × Bool) (key : GroupKey) (seen : σ),
    s.scan L visitor key.1 seen = .ok (visit visitor (lists key) 0 seen)

private theorem scanFrom_eq {lists : Lists T} {key : GroupKey} {σ : Type}
    (visitor : σ → Nat → T → σ × Bool)
    (hentry : ∀ i v, (lists key)[i]? = some v → s.entryAt L key.1 i = .ok v) (steps index : Nat)
    (seen : σ) (hlen : index + steps = (lists key).length) :
    s.scanFrom L visitor key.1 steps index seen =
      .ok (visit visitor ((lists key).drop index) index seen) := by
  induction steps generalizing index seen with
  | zero =>
      rw [List.drop_of_length_le (by omega)]
      rfl
  | succ steps ih =>
      have hlt : index < (lists key).length := by omega
      rw [List.drop_eq_getElem_cons hlt, Store.scanFrom,
        hentry index _ (List.getElem?_eq_getElem hlt), visit]
      change (match visitor seen index _ with | (seen, true) => _ | (seen, false) => _) = _
      split
      · rw [ih _ _ (by omega)]
      · rfl

theorem Stands.reads {lists : Lists T} (h : Stands L lists s) : Reads L lists s := by
  obtain ⟨img, h, hshows⟩ := h
  have hsize : ∀ key : GroupKey, s.size L key.1 = .ok (lists key).length := fun key => by
    rw [h.size_eq, (hshows key).1]
  have hentry : ∀ (key : GroupKey) i v, (lists key)[i]? = some v →
      s.entryAt L key.1 i = .ok v := fun key i v hv =>
    h.entryAt_eq (((hshows key).2 i).trans hv)
  refine ⟨hsize, fun key i => ?_, fun visitor key seen => ?_⟩
  · cases hv : (lists key)[i]? with
    | some v => exact hentry key i v hv
    | none => rw [Store.entryAt, h.cells, (hshows key).2, hv, Option.map_none]
  · rw [Store.scan, hsize]
    exact scanFrom_eq visitor (hentry key) _ 0 seen (by omega)

/-! ## Runs -/

/-- A list with what its backend held at the last snapshot, beside the map it
stands for and the map at that snapshot. -/
structure Machine (T : Type) where
  store : Store
  captured : Option Backend
  lists : Lists T
  saved : Lists T

inductive Action (T : Type)
  | run (op : Operation T)
  | snapshot
  /-- A new list is bound to what the backend held at the last snapshot. -/
  | restart

/-- One action on the store. -/
def Store.next (L : Settings T) (env : Environment) (s : Store) (captured : Option Backend) :
    Action T → Store × Option Backend
  | .run op =>
      match op.perform L s with
      | .ok s' => (s', captured)
      | .error _ => (s, captured)
  | .snapshot =>
      match s.snapshot L with
      | .ok s' => (s', s'.backend)
      | .error _ => (s, captured)
  | .restart =>
      match PartitionedList.bind L env captured with
      | .ok (some s') => (s', captured)
      | _ => (s, captured)

/-- The same action on the maps. -/
def nextLists (lists saved : Lists T) : Action T → Lists T × Lists T
  | .run op =>
      match op.apply lists with
      | .ok lists' => (lists', saved)
      | .error _ => (lists, saved)
  | .snapshot => (lists, lists)
  | .restart => (saved, saved)

def Machine.next (L : Settings T) (env : Environment) (m : Machine T) (a : Action T) :
    Machine T where
  store := (m.store.next L env m.captured a).1
  captured := (m.store.next L env m.captured a).2
  lists := (nextLists m.lists m.saved a).1
  saved := (nextLists m.lists m.saved a).2

/-- Writes are in range, and a restart has a backend to bind to. -/
def Permitted (m : Machine T) : Action T → Prop
  | .run op => op.InRange m.lists
  | .snapshot => True
  | .restart => m.captured.isSome

/-- A backend that no list of this prefix was ever published to. -/
def Fresh (L : Settings T) (b : Backend) : Prop :=
  hasFormat L b = false ∧ ∀ row raw, b.get L.host.op row = some raw → Foreign L row

/-- The backend has the saved lists, or is the one the first list was bound to. -/
def Saved (L : Settings T) (backend₀ : Option Backend) (lists : Lists T) (b : Backend) : Prop :=
  (∃ img s, Holds L img s ∧ img.Shows lists ∧ Captured L s b) ∨
    some b = backend₀ ∧ lists = fun _ => []

structure Agrees (L : Settings T) (backend₀ : Option Backend) (m : Machine T) : Prop where
  stands : Stands L m.lists m.store
  saved : ∀ b ∈ m.captured, Saved L backend₀ m.saved b

section Run

variable {env : Environment} {backend₀ : Option Backend} {s₀ : Store}

theorem stands_fresh (hfresh : ∀ b ∈ backend₀, Fresh L b)
    (hbind : PartitionedList.bind L env backend₀ = .ok (some s₀)) :
    Stands L (fun _ => []) s₀ := by
  have hrestored : backend₀.any (hasFormat L) = false := by
    cases backend₀ with
    | none => rfl
    | some b => exact (hfresh b rfl).1
  have hs : s₀ = { backend := backend₀ } := by
    unfold PartitionedList.bind at hbind
    simp only [hrestored] at hbind
    split at hbind
    · cases hbind
    · split at hbind
      · cases hbind
      · cases backend₀ with
        | none => exact (Option.some.inj (Except.ok.inj hbind)).symm
        | some b => exact (Option.some.inj (Except.ok.inj hbind)).symm
  subst hs
  refine ⟨⟨fun _ => none, fun _ _ => none⟩, ⟨fun _ => rfl, fun _ _ => rfl, ?_, ?_, ?_⟩,
    fun _ => ⟨rfl, fun _ => rfl⟩⟩
  · exact fun key hmem => absurd hmem (AList.notMem_empty key)
  · exact fun cell hmem => absurd hmem (AList.notMem_empty cell)
  · exact fun b hb row raw hraw => .inr (.inr ((hfresh b hb).2 row raw hraw))

theorem Agrees.next {m : Machine T} (h : Agrees L backend₀ m)
    (hfresh : ∀ b ∈ backend₀, Fresh L b) (henv : env.supportsAsyncGet = false)
    (hbind : PartitionedList.bind L env backend₀ = .ok (some s₀)) {a : Action T}
    (ha : Permitted m a) : Agrees L backend₀ (m.next L env a) := by
  cases a with
  | run op =>
      obtain ⟨s', lists', hs', hl', h'⟩ | ⟨e, hs', hl'⟩ := h.stands.perform ha
      · refine ⟨?_, ?_⟩
        · simpa [Machine.next, Store.next, nextLists, hs', hl'] using h'
        · simpa [Machine.next, Store.next, nextLists, hs', hl'] using h.saved
      · refine ⟨?_, ?_⟩
        · simpa [Machine.next, Store.next, nextLists, hs', hl'] using h.stands
        · simpa [Machine.next, Store.next, nextLists, hs', hl'] using h.saved
  | snapshot =>
      obtain ⟨img, hholds, hshows⟩ := h.stands
      cases hb : m.store.backend with
      | none =>
          have hsnap : m.store.snapshot L = .ok m.store := by rw [Store.snapshot, hb]
          refine ⟨?_, ?_⟩
          · simpa [Machine.next, Store.next, nextLists, hsnap] using h.stands
          · simp [Machine.next, Store.next, hsnap, hb]
      | some b =>
          obtain ⟨b', hsnap, hcaptured⟩ := hholds.snapshot hb
          refine ⟨⟨img, ?_, hshows⟩, ?_⟩
          · simp only [Machine.next, Store.next, hsnap]
            refine ⟨hholds.groups, hholds.cells, hholds.groupKeys, hholds.cellKeys, ?_⟩
            rintro b'' ⟨⟩
            exact hcaptured.covered
          · simp only [Machine.next, Store.next, hsnap]
            rintro b'' ⟨⟩
            exact .inl ⟨img, m.store, hholds, hshows, hcaptured⟩
  | restart =>
      obtain ⟨b, hb⟩ := Option.isSome_iff_exists.mp ha
      obtain ⟨img, s, hholds, hshows, hcaptured⟩ | ⟨hfirst, hlists⟩ := h.saved b hb
      · obtain ⟨s', hs', h', -⟩ := hcaptured.bind hholds henv
        refine ⟨⟨img, ?_, hshows⟩, ?_⟩
        · simpa [Machine.next, Store.next, hb, hs'] using h'
        · simpa [Machine.next, Store.next, nextLists, hb, hs'] using h.saved
      · rw [← hfirst] at hbind
        refine ⟨?_, ?_⟩
        · simp only [Machine.next, Store.next, nextLists, hb, hbind, hlists]
          exact stands_fresh (hfirst ▸ hfresh) hbind
        · simpa [Machine.next, Store.next, nextLists, hb, hbind] using h.saved

/-- After every run of operations, snapshots and restarts the reads of the list
are those of the map that the same operations made, a restart going back to the
map at the last snapshot; the next operation succeeds or is refused as it is on
that map; and no two cells share a key, in the store or in the backend. -/
theorem reads_of_runs (hfresh : ∀ b ∈ backend₀, Fresh L b) (henv : env.supportsAsyncGet = false)
    (hbind : PartitionedList.bind L env backend₀ = .ok (some s₀)) {es : List (Action T)}
    {m : Machine T}
    (hrun : Runs (Machine.next L env) (fun _ => Permitted)
      ⟨s₀, backend₀, fun _ => [], fun _ => []⟩ es m) :
    Reads L m.lists m.store ∧
    (∀ op : Operation T, op.InRange m.lists →
      (op.perform L m.store).map (fun _ => ()) = (op.apply m.lists).map fun _ => ()) ∧
    ∀ (key key' : GroupKey) i i', (key, i) ≠ (key', i') → cellKey key.1 i ≠ cellKey key'.1 i' ∧
      cellRow L key.1 (cellKey key.1 i) ≠ cellRow L key'.1 (cellKey key'.1 i') := by
  have hagrees : Agrees L backend₀ m := by
    refine hrun.induct (I := fun _ m => Agrees L backend₀ m) ⟨stands_fresh hfresh hbind, ?_⟩
      fun _ m a _ h ha => h.next hfresh henv hbind ha
    exact fun b hb => .inr ⟨hb.symm, rfl⟩
  refine ⟨hagrees.stands.reads, fun op hop => ?_, fun key key' i i' hne => ?_⟩
  · obtain ⟨s', lists', hs', hl', -⟩ | ⟨e, hs', hl'⟩ := hagrees.stands.perform hop
    · rw [hs', hl']
      rfl
    · rw [hs', hl']
      rfl
  · have hcell : cellKey key.1 i ≠ cellKey key'.1 i' := fun heq => by
      obtain ⟨hkey, hi⟩ := cellKey_inj.mp heq
      exact hne (Prod.ext (Subtype.ext hkey) hi)
    exact ⟨hcell, fun heq => hcell (cell_of_cellRow heq)⟩

end Run

/-- `uint64_codec()` on the lengths below `2 ^ 64`. -/
def lengthCodec : Codec Nat where
  encode n := if n < 2 ^ 64 then putLE 8 n else List.replicate n 0
  decode bytes := if bytes.length = 8 then some (readLE bytes) else some bytes.length
  decode_encode n := by
    by_cases h : n < 2 ^ 64
    · rw [if_pos h, if_pos (length_putLE 8 n), readLE_putLE (by simpa using h)]
    · rw [if_neg h, if_neg (by rw [List.length_replicate]; omega), List.length_replicate]

/-- Lists of byte strings. -/
def byteLists : Settings Bytes where
  listPrefix := ascii "topn"
  codec := stringCodec
  lengths := lengthCodec
  host := KeyedState.tableHost
  listing := id
  listing_perm := List.Perm.refl
  valid := by decide

/-- Two lists are made, one by appending, inserting and erasing, and published; before a
restart its group is erased and the other list grows. -/
def eraseThenRestart : List (Action Bytes) :=
  [.run (.append ⟨[1], by decide⟩ [7]), .run (.append ⟨[2], by decide⟩ [5]),
    .run (.append ⟨[1], by decide⟩ [9]), .run (.insert ⟨[1], by decide⟩ 1 [8]),
    .run (.erase ⟨[1], by decide⟩ 0), .snapshot, .run (.eraseGroup ⟨[1], by decide⟩),
    .run (.append ⟨[2], by decide⟩ [6]), .restart]

/-- The restart brings both lists back as they were published. -/
theorem erased_group_restored :
    ∃ m : Machine Bytes, Runs (Machine.next byteLists ⟨true, true, false, false⟩)
        (fun _ => Permitted) ⟨{ backend := some {} }, some {}, fun _ => [], fun _ => []⟩
        eraseThenRestart m ∧
      m.store.size byteLists [1] = .ok 2 ∧ m.store.entryAt byteLists [1] 0 = .ok [8] ∧
      m.store.entryAt byteLists [1] 1 = .ok [9] ∧ m.store.size byteLists [2] = .ok 1 := by
  have hfresh : ∀ b ∈ (some {} : Option Backend), Fresh byteLists b := by
    rintro b ⟨⟩
    exact ⟨rfl, fun row raw hraw => by cases hraw⟩
  have hall : Runs.Allowed (Machine.next byteLists ⟨true, true, false, false⟩)
      (fun _ => Permitted) [] ⟨{ backend := some {} }, some {}, fun _ => [], fun _ => []⟩
      eraseThenRestart :=
    ⟨trivial, trivial, trivial, trivial, trivial, trivial, trivial, trivial, rfl, trivial⟩
  obtain ⟨hreads, -⟩ := reads_of_runs hfresh rfl rfl (.of_allowed hall)
  generalize hm : eraseThenRestart.foldl (Machine.next byteLists ⟨true, true, false, false⟩)
    ⟨{ backend := some {} }, some {}, fun _ => [], fun _ => []⟩ = m at hreads
  have hone : m.lists ⟨[1], by decide⟩ = [[8], [9]] := by
    rw [← hm]
    simp [eraseThenRestart, Machine.next, nextLists, Operation.apply, Operation.onList,
      Operation.key, Except.map]
  have htwo : m.lists ⟨[2], by decide⟩ = [[5]] := by
    rw [← hm]
    simp [eraseThenRestart, Machine.next, nextLists, Operation.apply, Operation.onList,
      Operation.key, Except.map]
  refine ⟨m, hm ▸ .of_allowed hall, ?_, ?_, ?_, ?_⟩
  · rw [hreads.size ⟨[1], by decide⟩, hone]
    rfl
  · rw [hreads.entryAt ⟨[1], by decide⟩, hone]
    rfl
  · rw [hreads.entryAt ⟨[1], by decide⟩, hone]
    rfl
  · rw [hreads.size ⟨[2], by decide⟩, htwo]
    rfl

end Clink.Ports.PartitionedList

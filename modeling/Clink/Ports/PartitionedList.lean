import Clink.Ports.HaLeadership
import Clink.Ports.KeyedState

/-!
# Lists kept entry by entry

The embedding of `PartitionedList` (`include/clink/sql/partitioned_list.hpp`):
a list for every key, one cell for every entry, in two scratch stores on disk.
An erased cell is erased in the state backend at once; what is written reaches
the backend only at a snapshot, cell by cell under composite keys.

A scratch store is a map from keys to bytes (`src/sql/spill_store.cpp`); it
addresses a key by its digest and refuses a second key of the same digest, which
is taken not to occur.  Lengths are not bounded, and no memory reservation is
refused.

`Stands` relates the scratch stores to the lists they hold, and says that the
backend has no cell that the stores do not have.  A snapshot then leaves in the
backend just what the stores hold (`Captured`).
-/

namespace Clink.Ports.PartitionedList

open Clink.Verified
open Clink.Ports.HaLeadership (stoull stoull_decimal)
open Clink.Ports.InMemoryStateBackend (Backend Bytes)
open Clink.Ports.KeyedState (Codec Slot Host View bar stringCodec validSlotName)
open Clink.Ports.KeyGroups (keyGroupForKey)

inductive Error
  | invalidLength
  | missingEntry
  | invalidEntry
  | insertionRange
  | removalRange
  | truncationRange
  | invalidCellKey
  /-- `std::stoull` throws. -/
  | notANumber
  | requiresSynchronousBackend
  deriving DecidableEq

def Error.what : Error → String
  | invalidLength => "SQL_SPILL_ERROR: invalid partition length"
  | missingEntry => "SQL_SPILL_ERROR: missing partition entry"
  | invalidEntry => "SQL_SPILL_ERROR: invalid partition entry"
  | insertionRange => "partition insertion out of range"
  | removalRange => "partition removal out of range"
  | truncationRange => "partition truncation out of range"
  | invalidCellKey => "SQL_SPILL_ERROR: invalid partition cell key"
  | notANumber => "stoull"
  | requiresSynchronousBackend => "SQL_SPILL_ERROR: entry partitions require a synchronous backend"

/-- The contents of a `SpillStore`. -/
abbrev SpillStore := AList fun _ : Bytes => Bytes

/-- The bytes of a key: a string's length is 64 bits wide. -/
abbrev GroupKey := { key : Bytes // key.length < 2 ^ 64 }

/-- What a list is bound with, and the order the scratch stores are scanned in. -/
structure Settings (T : Type) where
  listPrefix : Bytes
  codec : Codec T
  /-- `uint64_codec()`, on lengths. -/
  lengths : Codec Nat
  host : Host
  listing : List (Bytes × Bytes) → List (Bytes × Bytes)
  listing_perm : ∀ entries, (listing entries).Perm entries
  valid : validSlotName listPrefix = true

/-- What decides whether a list is kept by entries at all. -/
structure Environment where
  hasBudget : Bool
  hasDirectory : Bool
  companion : Bool
  supportsAsyncGet : Bool

/-- The scratch stores, and the state backend if the runtime has one. -/
structure Store where
  groups : SpillStore := ∅
  rows : SpillStore := ∅
  backend : Option Backend

/-! ## Keys -/

/-- The bytes of an ASCII text. -/
def ascii (text : String) : Bytes := text.toList.map Char.toUInt8

/-- `':'`. -/
def colon : UInt8 := 0x3A

/-- `std::to_string`. -/
def digits (n : Nat) : Bytes := (decimal n).map Char.toUInt8

/-- `cell_key_`. -/
def cellKey (key : Bytes) (index : Nat) : Bytes :=
  digits key.length ++ colon :: (key ++ colon :: digits index)

variable {T : Type} (L : Settings T)

theorem valid_append {name : Bytes} (h : validSlotName name = true) {tail : Bytes}
    (ht : validSlotName tail = true) : validSlotName (name ++ tail) = true := by
  simp only [validSlotName, List.contains_eq_mem, Bool.and_eq_true, Bool.not_eq_true',
    decide_eq_false_iff_not, List.mem_append, not_or] at h ht ⊢
  exact ⟨⟨h.1, ht.1⟩, h.2, ht.2⟩

/-- `groups_slot_`. -/
def groupsSlot : Slot Bytes Nat where
  slotName := L.listPrefix ++ ascii ".groups"
  keyCodec := stringCodec
  valueCodec := L.lengths
  valid := valid_append L.valid (by decide)

/-- `rows_slot_`. -/
def rowsSlot : Slot Bytes Bytes where
  slotName := L.listPrefix ++ ascii ".rows"
  keyCodec := stringCodec
  valueCodec := stringCodec
  valid := valid_append L.valid (by decide)

/-- The row of a cell: all cells of a list are in the key group of its key. -/
def cellRow (partition cell : Bytes) : Bytes :=
  (keyGroupForKey partition).toUInt8 :: (L.listPrefix ++ ascii ".rows" ++ bar :: cell)

/-- `backend_cell_key_`. -/
def backendCellKey (cell : Bytes) : Except Error Bytes :=
  let separator := cell.findIdx (· = colon)
  match stoull ((cell.take separator).map fun b => Char.ofNat b.toNat) with
  | none => .error .notANumber
  | some length =>
      if separator = cell.length ∨ cell.length - separator - 1 < length then .error .invalidCellKey
      else .ok (cellRow L ((cell.drop (separator + 1)).take length) cell)

/-- The row of `prefix_ + ".format"` in the operator's state. -/
def formatRow : Bytes := 0xFF :: (L.listPrefix ++ ascii ".format")

/-- `get_operator_state(..., prefix_ + ".format").has_value()`, which also looks
for a row from before operator state had a mark. -/
def hasFormat (b : Backend) : Bool :=
  (b.get L.host.op (formatRow L)).isSome ||
    (b.get L.host.op (L.listPrefix ++ ascii ".format")).isSome

/-! ## Operations -/

/-- A slot without a ttl looks at no clock. -/
def noClocks : Nat → Int := fun _ => 0

/-- The groups a restored list reads back. -/
def restoredGroups (b : Backend) : SpillStore :=
  ((groupsSlot L).scan L.host noClocks {} b).foldl
    (fun (groups : SpillStore) e => groups.insert e.1 (L.lengths.encode e.2)) ∅

/-- The cells a restored list reads back. -/
def restoredRows (b : Backend) : SpillStore :=
  ((rowsSlot L).scan L.host noClocks {} b).foldl
    (fun (rows : SpillStore) e => rows.insert e.1 e.2) ∅

/-- What a bound list starts with, none where it is not kept by entries. -/
def bind (env : Environment) (backend : Option Backend) : Except Error (Option Store) :=
  let restored := backend.any (hasFormat L)
  if !restored && !env.companion && (!env.hasBudget || !env.hasDirectory) then .ok none
  else if backend.isSome && env.supportsAsyncGet then
    if restored then .error .requiresSynchronousBackend else .ok none
  else
    match backend with
    | some b =>
        if restored then
          .ok (some
            { groups := restoredGroups L b, rows := restoredRows L b, backend := some b })
        else .ok (some { backend := some b })
    | none => .ok (some { backend := none })

namespace Store

variable (s : Store)

def size (key : Bytes) : Except Error Nat :=
  match s.groups.lookup key with
  | none => .ok 0
  | some bytes =>
      match L.lengths.decode bytes with
      | none => .error .invalidLength
      | some count => .ok count

/-- `at`. -/
def entryAt (key : Bytes) (index : Nat) : Except Error T :=
  match s.rows.lookup (cellKey key index) with
  | none => .error .missingEntry
  | some bytes =>
      match L.codec.decode bytes with
      | none => .error .invalidEntry
      | some value => .ok value

def put (key : Bytes) (index : Nat) (value : T) : Store :=
  { s with rows := s.rows.insert (cellKey key index) (L.codec.encode value) }

/-- `set_size_`. -/
def setSize (key : Bytes) (count : Nat) : Store :=
  { s with groups := s.groups.insert key (L.lengths.encode count) }

def append (key : Bytes) (value : T) : Except Error Store := do
  let count ← s.size L key
  return ((s.put L key count value).setSize L key (count + 1))

/-- The loop of `insert`: the entries below `index` move up by one, the last
first, `steps` of them. -/
def shiftUp (key : Bytes) : Nat → Nat → Store → Except Error Store
  | 0, _, s => .ok s
  | steps + 1, index, s => do
      let entry ← s.entryAt L key (index - 1)
      shiftUp key steps (index - 1) (s.put L key index entry)

def insert (key : Bytes) (position : Nat) (value : T) : Except Error Store := do
  let count ← s.size L key
  if count < position then .error .insertionRange
  else
    let s ← shiftUp L key (count - position) count s
    return ((s.put L key position value).setSize L key (count + 1))

/-- One erased cell of `truncate`. -/
def eraseCell (s : Store) (cell : Bytes) : Except Error Store :=
  match s.backend with
  | none => .ok { s with rows := s.rows.erase cell }
  | some b => do
      let row ← backendCellKey L cell
      return { s with rows := s.rows.erase cell, backend := some (b.erase L.host.op row) }

def truncate (key : Bytes) (count : Nat) : Except Error Store := do
  let old ← s.size L key
  if old < count then .error .truncationRange
  else
    let s ← (List.range' count (old - count)).foldlM
      (fun s index => s.eraseCell L (cellKey key index)) s
    return (s.setSize L key count)

/-- The loop of `erase`: the entries above `index` move down by one. -/
def shiftDown (key : Bytes) : Nat → Nat → Store → Except Error Store
  | 0, _, s => .ok s
  | steps + 1, index, s => do
      let entry ← s.entryAt L key (index + 1)
      shiftDown key steps (index + 1) (s.put L key index entry)

def erase (key : Bytes) (position : Nat) : Except Error Store := do
  let count ← s.size L key
  if count ≤ position then .error .removalRange
  else
    let s ← shiftDown L key (count - 1 - position) position s
    s.truncate L key (count - 1)

def eraseGroup (key : Bytes) : Except Error Store := do
  let s ← s.truncate L key 0
  return { s with
    groups := s.groups.erase key
    backend := s.backend.map fun b => (groupsSlot L).erase L.host b key }

/-- The loop of `scan`, for a visitor that keeps something and says whether to
go on. -/
def scanFrom {σ : Type} (visitor : σ → Nat → T → σ × Bool) (key : Bytes) :
    Nat → Nat → σ → Except Error σ
  | 0, _, seen => .ok seen
  | steps + 1, index, seen => do
      let entry ← s.entryAt L key index
      match visitor seen index entry with
      | (seen, true) => scanFrom visitor key steps (index + 1) seen
      | (seen, false) => .ok seen

def scan {σ : Type} (visitor : σ → Nat → T → σ × Bool) (key : Bytes) (seen : σ) :
    Except Error σ := do
  let count ← s.size L key
  s.scanFrom L visitor key count 0 seen

/-- The entries of a scratch store in the order of a scan. -/
def entries (store : SpillStore) : List (Bytes × Bytes) :=
  L.listing (store.entries.map fun e => (e.1, e.2))

/-- One group of `snapshot`. -/
def snapshotGroup (b : Backend) (entry : Bytes × Bytes) : Except Error Backend :=
  match L.lengths.decode entry.2 with
  | none => .error .invalidLength
  | some count => .ok ((groupsSlot L).put L.host noClocks {} b entry.1 count)

/-- One cell of `snapshot`. -/
def snapshotCell (b : Backend) (entry : Bytes × Bytes) : Except Error Backend := do
  let row ← backendCellKey L entry.1
  return (b.put L.host.op row entry.2)

def snapshot : Except Error Store :=
  match s.backend with
  | none => .ok s
  | some b => do
      let b ← (entries L s.groups).foldlM (snapshotGroup L) b
      let b ← (entries L s.rows).foldlM (snapshotCell L) b
      return { s with backend := some (b.put L.host.op (formatRow L) (ascii "1")) }

end Store

/-! ## Cell keys -/

theorem digit_byte {c : Char} (h : c.isDigit = true) :
    c.toUInt8 ≠ colon ∧ Char.ofNat c.toUInt8.toNat = c := by
  simp only [Char.isDigit, Bool.and_eq_true, decide_eq_true_eq] at h
  have hle : c.toNat ≤ 57 := h.2
  have hbyte : c.toUInt8.toNat = c.toNat := by
    change c.toNat % 2 ^ 8 = c.toNat
    omega
  refine ⟨fun heq => ?_, by rw [hbyte, Char.ofNat_toNat]⟩
  rw [heq] at hbyte
  have : (58 : Nat) = c.toNat := hbyte
  omega

private theorem colon_notMem_digits (n : Nat) : colon ∉ digits n := by
  intro h
  obtain ⟨c, hc, heq⟩ := List.mem_map.mp h
  exact (digit_byte (isDigit_of_mem_decimal hc)).1 heq

theorem map_digits (n : Nat) :
    (digits n).map (fun b => Char.ofNat b.toNat) = decimal n := by
  rw [digits, List.map_map]
  conv_rhs => rw [← List.map_id (decimal n)]
  exact List.map_congr_left fun c hc => (digit_byte (isDigit_of_mem_decimal hc)).2

theorem digits_injective : Function.Injective digits := by
  intro m n h
  have hmap := congrArg (List.map fun b => Char.ofNat b.toNat) h
  rw [map_digits, map_digits] at hmap
  exact decimal_injective hmap

theorem findIdx_cellKey (key : Bytes) (i : Nat) :
    (cellKey key i).findIdx (· = colon) = (digits key.length).length := by
  have hno : (digits key.length).findIdx (· = colon) = (digits key.length).length := by
    refine List.findIdx_eq_length.mpr fun x hx => decide_eq_false fun heq => ?_
    exact colon_notMem_digits _ (heq ▸ hx)
  rw [cellKey, List.findIdx_append, hno, if_neg (lt_irrefl _), List.findIdx_cons]
  simp

theorem cellKey_inj {key key' : Bytes} {i i' : Nat} :
    cellKey key i = cellKey key' i' ↔ key = key' ∧ i = i' := by
  refine ⟨fun h => ?_, fun ⟨hk, hi⟩ => by rw [hk, hi]⟩
  have hsep := congrArg (List.findIdx (· = colon)) h
  rw [findIdx_cellKey, findIdx_cellKey] at hsep
  obtain ⟨hlen, hrest⟩ := List.append_inj h hsep
  obtain ⟨hkey, htail⟩ := List.append_inj (List.cons.inj hrest).2 (digits_injective hlen)
  exact ⟨hkey, digits_injective (List.cons.inj htail).2⟩

theorem backendCellKey_cellKey (key : GroupKey) (i : Nat) :
    backendCellKey L (cellKey key.1 i) = .ok (cellRow L key.1 (cellKey key.1 i)) := by
  have hnum : stoull (((cellKey key.1 i).take (digits key.1.length).length).map
      fun b => Char.ofNat b.toNat) = some key.1.length := by
    have h := @stoull_decimal [] _ key.2 (by simp)
    rw [cellKey, List.take_left, map_digits]
    simpa using h
  have hdrop : ((cellKey key.1 i).drop ((digits key.1.length).length + 1)).take key.1.length =
      key.1 := by
    rw [cellKey, ← List.drop_drop, List.drop_left, List.drop_one, List.tail_cons, List.take_left]
  unfold backendCellKey
  simp only [findIdx_cellKey, hnum, hdrop]
  rw [if_neg]
  simp [cellKey]

/-! ## What the stores hold -/

/-- The lengths and the entries of every key, each by itself. -/
structure Image (T : Type) where
  count : GroupKey → Option Nat
  cell : GroupKey → Nat → Option T

namespace Image

variable (img : Image T)

def setCount (key : GroupKey) (n : Option Nat) : Image T :=
  { img with count := fun k => if k = key then n else img.count k }

def setCell (key : GroupKey) (i : Nat) (v : Option T) : Image T :=
  { img with cell := fun k j => if k = key ∧ j = i then v else img.cell k j }

/-- The entries of one key replaced. -/
def setCells (key : GroupKey) (f : Nat → Option T) : Image T :=
  { img with cell := fun k j => if k = key then f j else img.cell k j }

theorem cell_setCell (key : GroupKey) (i j : Nat) (v : Option T) :
    (img.setCell key i v).cell key j = if j = i then v else img.cell key j := by
  simp [setCell]

theorem setCells_setCell (key : GroupKey) (i : Nat) (v : Option T) (f : Nat → Option T) :
    (img.setCell key i v).setCells key f = img.setCells key f := by
  simp only [setCells, setCell, mk.injEq, true_and]
  funext k j
  by_cases hk : k = key <;> simp [hk]

theorem setCells_self {key : GroupKey} {f : Nat → Option T}
    (h : ∀ j, f j = img.cell key j) : img.setCells key f = img := by
  cases img with
  | mk count cell =>
      simp only [setCells, mk.injEq, true_and]
      funext k j
      by_cases hk : k = key <;> simp [hk, h]

end Image

/-- A row that neither slot of the list reads. -/
def Foreign (row : Bytes) : Prop :=
  ∀ raw, (groupsSlot L).visitRow noClocks {} (row, raw) = none ∧
    (rowsSlot L).visitRow noClocks {} (row, raw) = none

/-- The backend has no group and no cell that the stores do not have. -/
def Covered (s : Store) (b : Backend) : Prop :=
  ∀ row raw, b.get L.host.op row = some raw →
    (∃ key, row = (groupsSlot L).encodeKey key ∧ key ∈ s.groups) ∨
    (∃ (key : GroupKey) (i : Nat), row = cellRow L key.1 (cellKey key.1 i) ∧
      cellKey key.1 i ∈ s.rows) ∨
    Foreign L row

/-- The stores hold the image. -/
structure Holds (img : Image T) (s : Store) : Prop where
  groups : ∀ key : GroupKey, s.groups.lookup key.1 = (img.count key).map L.lengths.encode
  cells : ∀ (key : GroupKey) i, s.rows.lookup (cellKey key.1 i) =
    (img.cell key i).map L.codec.encode
  groupKeys : ∀ key ∈ s.groups, ∃ k : GroupKey, key = k.1
  cellKeys : ∀ cell ∈ s.rows, ∃ (key : GroupKey) (i : Nat), cell = cellKey key.1 i
  covered : ∀ b ∈ s.backend, Covered L s b

variable {L} {img : Image T} {s : Store}

theorem Covered.mono {s s' : Store} {b : Backend} (h : Covered L s b)
    (hgroups : ∀ key ∈ s.groups, key ∈ s'.groups) (hrows : ∀ cell ∈ s.rows, cell ∈ s'.rows) :
    Covered L s' b := by
  intro row raw hraw
  obtain ⟨key, hrow, hmem⟩ | ⟨key, i, hrow, hmem⟩ | hforeign := h row raw hraw
  · exact .inl ⟨key, hrow, hgroups key hmem⟩
  · exact .inr (.inl ⟨key, i, hrow, hrows _ hmem⟩)
  · exact .inr (.inr hforeign)

namespace Holds

section

variable (h : Holds L img s)
include h

theorem size_eq (key : GroupKey) : s.size L key.1 = .ok ((img.count key).getD 0) := by
  rw [Store.size, h.groups]
  cases img.count key with
  | none => rfl
  | some n => simp [L.lengths.decode_encode]

theorem entryAt_eq {key : GroupKey} {i : Nat} {v : T} (hv : img.cell key i = some v) :
    s.entryAt L key.1 i = .ok v := by
  rw [Store.entryAt, h.cells, hv]
  simp [L.codec.decode_encode]

theorem put (key : GroupKey) (i : Nat) (v : T) :
    Holds L (img.setCell key i (some v)) (s.put L key.1 i v) where
  groups := h.groups
  cells k j := by
    change (s.rows.insert _ _).lookup _ = _
    by_cases hkj : k = key ∧ j = i
    · obtain ⟨rfl, rfl⟩ := hkj
      simp [Image.setCell]
    · have hne : cellKey k.1 j ≠ cellKey key.1 i := by
        rw [Ne, cellKey_inj, Subtype.ext_iff.symm]
        exact hkj
      rw [AList.lookup_insert_ne hne, h.cells]
      simp [Image.setCell, hkj]
  groupKeys := h.groupKeys
  cellKeys cell hcell := by
    obtain rfl | hcell := AList.mem_insert _ |>.mp hcell
    · exact ⟨key, i, rfl⟩
    · exact h.cellKeys cell hcell
  covered b hb := by
    refine (h.covered b hb).mono (fun _ hmem => hmem) fun cell hmem => ?_
    exact (AList.mem_insert _).mpr (.inr hmem)

theorem setSize (key : GroupKey) (n : Nat) :
    Holds L (img.setCount key (some n)) (s.setSize L key.1 n) where
  groups k := by
    change (s.groups.insert _ _).lookup _ = _
    by_cases hk : k = key
    · subst hk
      simp [Image.setCount]
    · have hne : k.1 ≠ key.1 := fun heq => hk (Subtype.ext heq)
      rw [AList.lookup_insert_ne hne, h.groups]
      simp [Image.setCount, hk]
  cells := h.cells
  groupKeys k hk := by
    obtain rfl | hk := AList.mem_insert _ |>.mp hk
    · exact ⟨key, rfl⟩
    · exact h.groupKeys k hk
  cellKeys := h.cellKeys
  covered b hb := by
    refine (h.covered b hb).mono (fun k hmem => ?_) fun _ hmem => hmem
    exact (AList.mem_insert _).mpr (.inr hmem)

theorem eraseRow (key : GroupKey) (i : Nat) {backend : Option Backend}
    (hb : backend = s.backend.map (·.erase L.host.op (cellRow L key.1 (cellKey key.1 i)))) :
    Holds L (img.setCell key i none)
      { s with rows := s.rows.erase (cellKey key.1 i), backend := backend } where
  groups := h.groups
  cells k j := by
    change (s.rows.erase _).lookup _ = _
    by_cases hkj : k = key ∧ j = i
    · obtain ⟨rfl, rfl⟩ := hkj
      simp [Image.setCell]
    · have hne : cellKey k.1 j ≠ cellKey key.1 i := by
        rw [Ne, cellKey_inj, Subtype.ext_iff.symm]
        exact hkj
      rw [AList.lookup_erase_ne hne, h.cells]
      simp [Image.setCell, hkj]
  groupKeys := h.groupKeys
  cellKeys cell hcell := h.cellKeys cell (AList.mem_erase.mp hcell).2
  covered b' hb' := by
    subst hb
    obtain ⟨b, hmem, rfl⟩ := Option.map_eq_some_iff.mp hb'
    intro row raw hraw
    rw [InMemoryStateBackend.get_erase] at hraw
    by_cases hrow : cellRow L key.1 (cellKey key.1 i) = row
    · simp [hrow] at hraw
    · obtain ⟨k, hk, hin⟩ | ⟨k, j, hk, hin⟩ | hforeign := h.covered b hmem row raw
        (by simpa [hrow] using hraw)
      · exact .inl ⟨k, hk, hin⟩
      · refine .inr (.inl ⟨k, j, hk, AList.mem_erase.mpr ⟨fun heq => hrow ?_, hin⟩⟩)
        obtain ⟨hkey, rfl⟩ := cellKey_inj.mp heq
        rw [hk, hkey]
      · exact .inr (.inr hforeign)

theorem eraseCell (key : GroupKey) (i : Nat) :
    ∃ s', s.eraseCell L (cellKey key.1 i) = .ok s' ∧ Holds L (img.setCell key i none) s' := by
  refine ⟨_, ?_, h.eraseRow key i rfl⟩
  cases hb : s.backend with
  | none => simp [Store.eraseCell, hb]
  | some b =>
      simp only [Store.eraseCell, hb, backendCellKey_cellKey]
      rfl

private theorem eraseCells (key : GroupKey) (count n : Nat) :
    ∃ s', (List.range' count n).foldlM (fun s index => s.eraseCell L (cellKey key.1 index)) s =
        .ok s' ∧
      Holds L (img.setCells key fun j => if count ≤ j ∧ j < count + n then none else img.cell key j)
        s' := by
  induction n generalizing count s img with
  | zero =>
      refine ⟨s, rfl, ?_⟩
      rwa [Image.setCells_self]
      intro j
      rw [if_neg (by omega)]
  | succ n ih =>
      obtain ⟨s₁, hs₁, h₁⟩ := h.eraseCell key count
      obtain ⟨s₂, hs₂, h₂⟩ := ih h₁ (count + 1)
      refine ⟨s₂, ?_, ?_⟩
      · rw [List.range'_succ, List.foldlM_cons, hs₁]
        exact hs₂
      · rw [Image.setCells_setCell] at h₂
        convert h₂ using 3 with j
        rw [Image.cell_setCell]
        grind

theorem shiftUp (key : GroupKey) (steps index : Nat) (hle : steps ≤ index)
    (hcells : ∀ j, index - steps ≤ j → j < index → (img.cell key j).isSome) :
    ∃ s', Store.shiftUp L key.1 steps index s = .ok s' ∧
      Holds L (img.setCells key fun j =>
        if index - steps < j ∧ j ≤ index then img.cell key (j - 1) else img.cell key j) s' := by
  induction steps generalizing index s img with
  | zero =>
      refine ⟨s, rfl, ?_⟩
      rwa [Image.setCells_self]
      intro j
      rw [if_neg (by omega)]
  | succ steps ih =>
      obtain ⟨v, hv⟩ := Option.isSome_iff_exists.mp (hcells (index - 1) (by omega) (by omega))
      have hrest : ∀ j, index - 1 - steps ≤ j → j < index - 1 →
          ((img.setCell key index (some v)).cell key j).isSome := by
        intro j hlo hhi
        rw [Image.cell_setCell, if_neg (by omega)]
        exact hcells j (by omega) (by omega)
      obtain ⟨s₂, hs₂, h₂⟩ := ih (h.put key index v) (index - 1) (by omega) hrest
      refine ⟨s₂, ?_, ?_⟩
      · rw [Store.shiftUp, h.entryAt_eq hv]
        exact hs₂
      · rw [Image.setCells_setCell] at h₂
        convert h₂ using 3 with j
        rw [Image.cell_setCell, Image.cell_setCell]
        grind

theorem shiftDown (key : GroupKey) (steps index : Nat)
    (hcells : ∀ j, index < j → j ≤ index + steps → (img.cell key j).isSome) :
    ∃ s', Store.shiftDown L key.1 steps index s = .ok s' ∧
      Holds L (img.setCells key fun j =>
        if index ≤ j ∧ j < index + steps then img.cell key (j + 1) else img.cell key j) s' := by
  induction steps generalizing index s img with
  | zero =>
      refine ⟨s, rfl, ?_⟩
      rwa [Image.setCells_self]
      intro j
      rw [if_neg (by omega)]
  | succ steps ih =>
      obtain ⟨v, hv⟩ := Option.isSome_iff_exists.mp (hcells (index + 1) (by omega) (by omega))
      have hrest : ∀ j, index + 1 < j → j ≤ index + 1 + steps →
          ((img.setCell key index (some v)).cell key j).isSome := by
        intro j hlo hhi
        rw [Image.cell_setCell, if_neg (by omega)]
        exact hcells j (by omega) (by omega)
      obtain ⟨s₂, hs₂, h₂⟩ := ih (h.put key index v) (index + 1) hrest
      refine ⟨s₂, ?_, ?_⟩
      · rw [Store.shiftDown, h.entryAt_eq hv]
        exact hs₂
      · rw [Image.setCells_setCell] at h₂
        convert h₂ using 3 with j
        rw [Image.cell_setCell, Image.cell_setCell]
        grind

theorem truncate (key : GroupKey) {n : Nat} (hle : n ≤ (img.count key).getD 0) :
    ∃ s', s.truncate L key.1 n = .ok s' ∧
      Holds L ((img.setCells key fun j =>
        if n ≤ j ∧ j < (img.count key).getD 0 then none else img.cell key j).setCount key
          (some n)) s' := by
  obtain ⟨s₁, hs₁, h₁⟩ := h.eraseCells key n ((img.count key).getD 0 - n)
  rw [Nat.add_sub_cancel' hle] at h₁
  refine ⟨_, ?_, h₁.setSize key n⟩
  rw [Store.truncate, h.size_eq]
  change (if _ then _ else _) = _
  rw [if_neg (by omega), hs₁]
  rfl

theorem eraseGroupRow (key : GroupKey) :
    Holds L (img.setCount key none)
      { s with
        groups := s.groups.erase key.1
        backend := s.backend.map fun b => (groupsSlot L).erase L.host b key.1 } where
  groups k := by
    change (s.groups.erase _).lookup _ = _
    by_cases hk : k = key
    · subst hk
      simp [Image.setCount]
    · have hne : k.1 ≠ key.1 := fun heq => hk (Subtype.ext heq)
      rw [AList.lookup_erase_ne hne, h.groups]
      simp [Image.setCount, hk]
  cells := h.cells
  groupKeys k hk := h.groupKeys k (AList.mem_erase.mp hk).2
  cellKeys := h.cellKeys
  covered b' hb' := by
    obtain ⟨b, hmem, rfl⟩ := Option.map_eq_some_iff.mp hb'
    intro row raw hraw
    rw [Slot.erase, InMemoryStateBackend.get_erase] at hraw
    by_cases hrow : (groupsSlot L).encodeKey key.1 = row
    · simp [hrow] at hraw
    · obtain ⟨k, hk, hin⟩ | hrest := h.covered b hmem row raw (by simpa [hrow] using hraw)
      · exact .inl ⟨k, hk, AList.mem_erase.mpr ⟨fun heq => hrow (heq ▸ hk.symm), hin⟩⟩
      · exact .inr hrest

theorem eraseGroup (key : GroupKey) :
    ∃ s', s.eraseGroup L key.1 = .ok s' ∧
      Holds L (((img.setCells key fun j =>
        if 0 ≤ j ∧ j < (img.count key).getD 0 then none else img.cell key j).setCount key
          (some 0)).setCount key none) s' := by
  obtain ⟨s₁, hs₁, h₁⟩ := h.truncate key (Nat.zero_le _)
  refine ⟨_, ?_, h₁.eraseGroupRow key⟩
  rw [Store.eraseGroup, hs₁]
  rfl

end

end Holds

/-! ## Lists -/

/-- What the store is for: a list for every key. -/
abbrev Lists (T : Type) := GroupKey → List T

inductive Operation (T : Type)
  | append (key : GroupKey) (value : T)
  | put (key : GroupKey) (index : Nat) (value : T)
  | insert (key : GroupKey) (position : Nat) (value : T)
  | erase (key : GroupKey) (position : Nat)
  | truncate (key : GroupKey) (count : Nat)
  | eraseGroup (key : GroupKey)

namespace Operation

/-- The operation on the store. -/
def perform (L : Settings T) (s : Store) : Operation T → Except Error Store
  | append key value => s.append L key.1 value
  | put key index value => .ok (s.put L key.1 index value)
  | insert key position value => s.insert L key.1 position value
  | erase key position => s.erase L key.1 position
  | truncate key count => s.truncate L key.1 count
  | eraseGroup key => s.eraseGroup L key.1

/-- The operation on a list. -/
def onList (l : List T) : Operation T → Except Error (List T)
  | append _ value => .ok (l ++ [value])
  | put _ index value => .ok (l.set index value)
  | insert _ position value =>
      if l.length < position then .error .insertionRange else .ok (l.insertIdx position value)
  | erase _ position =>
      if l.length ≤ position then .error .removalRange else .ok (l.eraseIdx position)
  | truncate _ count => if l.length < count then .error .truncationRange else .ok (l.take count)
  | eraseGroup _ => .ok []

def key : Operation T → GroupKey
  | append key _ | put key _ _ | insert key _ _ | erase key _ | truncate key _
      | eraseGroup key => key

/-- The operation on the map of lists. -/
def apply (lists : Lists T) (op : Operation T) : Except Error (Lists T) :=
  (op.onList (lists op.key)).map (Function.update lists op.key)

/-- A write is to an entry that is there. -/
def InRange (lists : Lists T) : Operation T → Prop
  | put key index _ => index < (lists key).length
  | _ => True

end Operation

/-- The image is that of the lists. -/
def Image.Shows (img : Image T) (lists : Lists T) : Prop :=
  ∀ key, (img.count key).getD 0 = (lists key).length ∧ ∀ i, img.cell key i = (lists key)[i]?

/-- The stores hold the lists. -/
def Stands (L : Settings T) (lists : Lists T) (s : Store) : Prop :=
  ∃ img, Holds L img s ∧ img.Shows lists

section Lists

variable {lists : Lists T} (hshows : img.Shows lists) (key : GroupKey)

include hshows

theorem Image.Shows.update {img' : Image T} {l : List T}
    (hcount : (img'.count key).getD 0 = l.length) (hcell : ∀ i, img'.cell key i = l[i]?)
    (hother : ∀ k, k ≠ key → img'.count k = img.count k ∧ ∀ i, img'.cell k i = img.cell k i) :
    img'.Shows (Function.update lists key l) := by
  intro k
  by_cases hk : k = key
  · subst hk
    rw [Function.update_self]
    exact ⟨hcount, hcell⟩
  · rw [Function.update_of_ne hk, (hother k hk).1]
    refine ⟨(hshows k).1, fun i => ?_⟩
    rw [(hother k hk).2 i, (hshows k).2 i]

section

variable (h : Holds L img s)
include h

private theorem Holds.append_lists (value : T) :
    ∃ s', s.append L key.1 value = .ok s' ∧
      Stands L (Function.update lists key (lists key ++ [value])) s' := by
  refine ⟨_, ?_, _, (h.put key (lists key).length value).setSize key ((lists key).length + 1),
    hshows.update key ?_ (fun i => ?_) fun k hk => ?_⟩
  · rw [Store.append, h.size_eq, (hshows key).1]
    rfl
  · simp [Image.setCount]
  · simp only [Image.setCount, Image.cell_setCell, (hshows key).2]
    grind
  · simp [Image.setCount, Image.setCell, hk]

private theorem Holds.put_lists {index : Nat} (value : T) (hlt : index < (lists key).length) :
    Stands L (Function.update lists key ((lists key).set index value))
      (s.put L key.1 index value) := by
  refine ⟨_, h.put key index value, hshows.update key ?_ (fun i => ?_) fun k hk => ?_⟩
  · simp [Image.setCell, (hshows key).1]
  · simp only [Image.cell_setCell, (hshows key).2]
    grind
  · simp [Image.setCell, hk]

private theorem Holds.insert_lists {position : Nat} (value : T)
    (hle : position ≤ (lists key).length) :
    ∃ s', s.insert L key.1 position value = .ok s' ∧
      Stands L (Function.update lists key ((lists key).insertIdx position value)) s' := by
  have hcells : ∀ j, (lists key).length - ((lists key).length - position) ≤ j →
      j < (lists key).length → (img.cell key j).isSome := by
    intro j _ hj
    rw [(hshows key).2]
    simpa using hj
  obtain ⟨s₁, hs₁, h₁⟩ := h.shiftUp key _ (lists key).length (Nat.sub_le _ position) hcells
  refine ⟨_, ?_, _, (h₁.put key position value).setSize key ((lists key).length + 1),
    hshows.update key ?_ (fun i => ?_) fun k hk => ?_⟩
  · rw [Store.insert, h.size_eq, (hshows key).1]
    change (if _ then _ else _) = _
    rw [if_neg (by omega), hs₁]
    rfl
  · simp [Image.setCount, List.length_insertIdx_of_le_length hle]
  · simp only [Image.setCount, Image.cell_setCell, Image.setCells, (hshows key).2, if_true]
    grind
  · simp [Image.setCount, Image.setCell, Image.setCells, hk]

private theorem Holds.truncate_lists {count : Nat} (hle : count ≤ (lists key).length) :
    ∃ s', s.truncate L key.1 count = .ok s' ∧
      Stands L (Function.update lists key ((lists key).take count)) s' := by
  rw [← (hshows key).1] at hle
  obtain ⟨s₁, hs₁, h₁⟩ := h.truncate key hle
  rw [(hshows key).1] at hle h₁
  refine ⟨s₁, hs₁, _, h₁, hshows.update key ?_ (fun i => ?_) fun k hk => ?_⟩
  · simp [Image.setCount, hle]
  · simp only [Image.setCount, Image.setCells, (hshows key).2, if_true]
    grind
  · simp [Image.setCount, Image.setCells, hk]

private theorem Holds.eraseGroup_lists :
    ∃ s', s.eraseGroup L key.1 = .ok s' ∧ Stands L (Function.update lists key []) s' := by
  obtain ⟨s₁, hs₁, h₁⟩ := h.eraseGroup key
  rw [(hshows key).1] at h₁
  refine ⟨s₁, hs₁, _, h₁, hshows.update key ?_ (fun i => ?_) fun k hk => ?_⟩
  · simp [Image.setCount]
  · simp only [Image.setCount, Image.setCells, (hshows key).2, if_true]
    grind
  · simp [Image.setCount, Image.setCells, hk]

private theorem Holds.erase_lists {position : Nat} (hlt : position < (lists key).length) :
    ∃ s', s.erase L key.1 position = .ok s' ∧
      Stands L (Function.update lists key ((lists key).eraseIdx position)) s' := by
  have hcells : ∀ j, position < j → j ≤ position + ((lists key).length - 1 - position) →
      (img.cell key j).isSome := by
    intro j _ hj
    rw [(hshows key).2, List.getElem?_eq_getElem (by omega)]
    rfl
  obtain ⟨s₁, hs₁, h₁⟩ := h.shiftDown key _ position hcells
  have hcount : (((img.setCells key fun j =>
      if position ≤ j ∧ j < position + ((lists key).length - 1 - position) then
        img.cell key (j + 1) else img.cell key j).count key).getD 0) = (lists key).length :=
    (hshows key).1
  obtain ⟨s₂, hs₂, h₂⟩ := h₁.truncate (n := (lists key).length - 1) key (by omega)
  rw [hcount] at h₂
  refine ⟨s₂, ?_, _, h₂, hshows.update key ?_ (fun i => ?_) fun k hk => ?_⟩
  · rw [Store.erase, h.size_eq, (hshows key).1]
    change (if _ then _ else _) = _
    rw [if_neg (by omega), hs₁]
    exact hs₂
  · simp [Image.setCount, List.length_eraseIdx_of_lt hlt]
  · simp only [Image.setCount, Image.setCells, (hshows key).2, if_true]
    grind
  · simp [Image.setCount, Image.setCells, hk]

end

end Lists

/-- An operation succeeds on the store when it does on the lists, with the
matching result, and is refused when it is refused there. -/
theorem Stands.perform {lists : Lists T} (h : Stands L lists s) {op : Operation T}
    (hop : op.InRange lists) :
    (∃ s' lists', op.perform L s = .ok s' ∧ op.apply lists = .ok lists' ∧ Stands L lists' s') ∨
      ∃ e, op.perform L s = .error e ∧ op.apply lists = .error e := by
  obtain ⟨img, h, hshows⟩ := h
  have hsize : ∀ key : GroupKey, s.size L key.1 = .ok (lists key).length := fun key => by
    rw [h.size_eq, (hshows key).1]
  cases op with
  | append key value =>
      obtain ⟨s', hs', h'⟩ := h.append_lists hshows key value
      exact .inl ⟨s', _, hs', rfl, h'⟩
  | put key index value => exact .inl ⟨_, _, rfl, rfl, h.put_lists hshows key value hop⟩
  | insert key position value =>
      by_cases hrange : (lists key).length < position
      · refine .inr ⟨.insertionRange, ?_, ?_⟩
        · rw [Operation.perform, Store.insert, hsize]
          exact if_pos hrange
        · rw [Operation.apply, Operation.onList]
          exact congrArg _ (if_pos hrange)
      · obtain ⟨s', hs', h'⟩ := h.insert_lists hshows key value (Nat.le_of_not_lt hrange)
        refine .inl ⟨s', _, hs', ?_, h'⟩
        rw [Operation.apply, Operation.onList]
        exact congrArg _ (if_neg hrange)
  | erase key position =>
      by_cases hrange : (lists key).length ≤ position
      · refine .inr ⟨.removalRange, ?_, ?_⟩
        · rw [Operation.perform, Store.erase, hsize]
          exact if_pos hrange
        · rw [Operation.apply, Operation.onList]
          exact congrArg _ (if_pos hrange)
      · obtain ⟨s', hs', h'⟩ := h.erase_lists hshows key (Nat.lt_of_not_le hrange)
        refine .inl ⟨s', _, hs', ?_, h'⟩
        rw [Operation.apply, Operation.onList]
        exact congrArg _ (if_neg hrange)
  | truncate key count =>
      by_cases hrange : (lists key).length < count
      · refine .inr ⟨.truncationRange, ?_, ?_⟩
        · rw [Operation.perform, Store.truncate, hsize]
          exact if_pos hrange
        · rw [Operation.apply, Operation.onList]
          exact congrArg _ (if_pos hrange)
      · obtain ⟨s', hs', h'⟩ := h.truncate_lists hshows key (Nat.le_of_not_lt hrange)
        refine .inl ⟨s', _, hs', ?_, h'⟩
        rw [Operation.apply, Operation.onList]
        exact congrArg _ (if_neg hrange)
  | eraseGroup key =>
      obtain ⟨s', hs', h'⟩ := h.eraseGroup_lists hshows key
      exact .inl ⟨s', _, hs', rfl, h'⟩

end Clink.Ports.PartitionedList

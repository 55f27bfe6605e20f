import Clink.Ports.InMemoryStateBackend
import Clink.Verified.Framing

/-!
# Keyed state slots

The embedding of `include/clink/state/keyed_state.hpp`.  A slot is a typed view
over the rows of one operator: the stored key is one byte of key group, the
slot's name, a bar and the user's key bytes, and a slot with a ttl puts eight
bytes of deadline before the value.  `get`, `scan` and the two ways to reclaim
(a bounded sweep over a scan, and a filter handed to a backend that compacts)
each read that layout for themselves.

A clock is named by a number, `0` being the wall clock, and `clocks` gives what
each reads during one operation.  Times are not bounded: the additions of the
source are taken not to overflow.  The stored deadline is 64 bits wide.

A backend is the one of `Clink.Ports.InMemoryStateBackend`, visited in the order
its `Host` scans in.
-/

namespace Clink.Ports.KeyedState

open Clink.Verified
open Clink.Ports.InMemoryStateBackend (Backend Bytes Key Value)
open Clink.Ports.KeyGroups (keyGroupForKey)

/-! ## Configuration -/

/-- Bytes for a type's values, each read back as it was written. -/
structure Codec (α : Type) where
  encode : α → Bytes
  decode : Bytes → Option α
  decode_encode : ∀ a, decode (encode a) = some a

theorem Codec.encode_injective {α : Type} (c : Codec α) : Function.Injective c.encode := by
  intro a a' h
  have hdecode := c.decode_encode a
  rw [h, c.decode_encode] at hdecode
  exact (Option.some.inj hdecode).symm

/-- `string_codec()`. -/
def stringCodec : Codec Bytes := ⟨id, some, fun _ => rfl⟩

inductive TtlTimeDomain
  | processingTime
  | eventTime
  deriving DecidableEq

structure TtlConfig where
  ttl : Int := 0
  refreshOnRead : Bool := false
  domain : TtlTimeDomain := .processingTime
  clock : Nat := 0
  expireBeforeFirstWatermark : Bool := false
  deriving DecidableEq

def TtlConfig.enabled (cfg : TtlConfig) : Bool := 0 < cfg.ttl

structure TtlStats where
  expiredOnRead : Nat := 0
  expiredInCleanup : Nat := 0
  liveEntries : Nat := 0
  scannedEntries : Nat := 0
  estimatedBytes : Nat := 0
  unscannedBacklog : Nat := 0
  deriving DecidableEq

/-- The bar between the slot's name and the user's key. -/
def bar : UInt8 := 0x7C

/-- The names the constructor accepts: no bar and no newline. -/
def validSlotName (name : Bytes) : Bool := !name.contains bar && !name.contains 0x0A

/-- What a slot is opened with. -/
structure Slot (K V : Type) where
  slotName : Bytes
  keyCodec : Codec K
  valueCodec : Codec V
  ttl : TtlConfig := {}
  valid : validSlotName slotName = true

/-- The members of a slot that change. -/
structure View where
  watermarkMs : Int := 0
  hasWatermark : Bool := false
  firstWatermarkMs : Int := 0
  stats : TtlStats := {}
  cleanupCursor : Key := []
  filterInstalled : Bool := false
  deriving DecidableEq

/-- What a slot is opened on: the operator, the order a scan visits its rows
in, and whether the backend reclaims while it compacts. -/
structure Host where
  op : Nat
  arrange : List (Key × Value) → List (Key × Value)
  arrange_perm : ∀ rows, (arrange rows).Perm rows
  supportsExpiryCompaction : Bool := false

/-- A backend that scans in the order of its table. -/
def tableHost : Host := ⟨1, id, fun rows => .refl rows, false⟩

/-! ## Stamps -/

def writeI64Le (v : Int) : Bytes := putLE 8 (v % 2 ^ 64).toNat

def readI64Le (bytes : Bytes) : Int :=
  let u := readLE (bytes.take 8)
  if u < 2 ^ 63 then u else u - 2 ^ 64

/-- The stamp of an entry written before there is event time. -/
def preClockStamp : Int := -2 ^ 63

@[simp] theorem length_writeI64Le (v : Int) : (writeI64Le v).length = 8 := length_putLE 8 _

theorem readI64Le_writeI64Le {v : Int} (h : -2 ^ 63 ≤ v ∧ v < 2 ^ 63) (rest : Bytes) :
    readI64Le (writeI64Le v ++ rest) = v := by
  have hlt : (v % 2 ^ 64).toNat < 256 ^ 8 := by omega
  have htake : (writeI64Le v ++ rest).take 8 = writeI64Le v :=
    List.take_left' (length_writeI64Le v)
  unfold readI64Le
  rw [htake]
  unfold writeI64Le
  rw [readLE_putLE hlt]
  simp only
  split
  · omega
  · omega

@[simp] theorem drop_writeI64Le (v : Int) (rest : Bytes) :
    (writeI64Le v ++ rest).drop 8 = rest :=
  List.drop_left' (length_writeI64Le v)

/-- The predicate a compacting backend is given: what it judges by is captured
when it is installed, the reading of a processing-time clock apart. -/
structure ExpiryFilter where
  slotPrefix : Bytes
  eventTime : Bool
  wm : Int
  haveWm : Bool
  clock : Nat
  deriving DecidableEq

/-- A row the predicate calls dead.  An entry written before event time is left
to the read path and the sweep. -/
def ExpiryFilter.dead (f : ExpiryFilter) (clocks : Nat → Int) (row : Key × Value) : Bool :=
  let expireAt := readI64Le row.2
  if !decide (f.slotPrefix <:+: row.1) then false
  else if row.2.length < 8 then false
  else if f.eventTime then f.haveWm && expireAt ≠ preClockStamp && expireAt ≤ f.wm
  else expireAt ≤ clocks f.clock

/-- The counters of one sweep. -/
structure Sweep where
  doomed : List Key := []
  scanned : Nat := 0
  live : Nat := 0
  bytes : Nat := 0
  skippedBeforeCursor : Nat := 0
  backlog : Nat := 0
  budgetHit : Bool := false
  lastVisited : Key := []

/-- A slot after a cleanup, with the rows and the installed predicate. -/
structure Cleanup where
  erased : Nat
  view : View
  backend : Backend
  filter : Option ExpiryFilter

/-- The greatest budget, `std::numeric_limits<std::size_t>::max()`. -/
def maxBudget : Nat := 2 ^ 64 - 1

/-- Erase every key of the list. -/
def eraseAll (op : Nat) (b : Backend) (keys : List Key) : Backend :=
  keys.foldl (fun b key => b.erase op key) b

namespace Slot

variable {K V : Type} (slot : Slot K V) (host : Host) (clocks : Nat → Int) (view : View)

/-! ## Clocks -/

/-- The clock the slot's ttl is measured against; none before event time began. -/
def nowForTtl : Option Int :=
  match slot.ttl.domain with
  | .processingTime => some (clocks slot.ttl.clock)
  | .eventTime =>
      if !view.hasWatermark then
        if slot.ttl.expireBeforeFirstWatermark then some 0 else none
      else some view.watermarkMs

def expireAt : Int :=
  match slot.nowForTtl clocks view with
  | some now => now + slot.ttl.ttl
  | none => preClockStamp

def expiredAt (expireAt now : Int) : Bool :=
  if expireAt = preClockStamp then view.firstWatermarkMs + slot.ttl.ttl ≤ now
  else expireAt ≤ now

def isExpired (expireAt : Int) : Bool :=
  (slot.nowForTtl clocks view).any fun now => slot.expiredAt view expireAt now

/-- Event time starts at the first watermark; one that goes back is ignored. -/
def advanceWatermark (view : View) (watermarkMs : Int) : View :=
  let view :=
    if !view.hasWatermark then { view with firstWatermarkMs := watermarkMs } else view
  if !view.hasWatermark || view.watermarkMs < watermarkMs then
    { view with watermarkMs := watermarkMs, hasWatermark := true }
  else view

/-! ## Reading and writing -/

/-- `[kg_byte][slot_name][|][user_key_bytes]`. -/
def encodeKey (k : K) : Key :=
  let keyBytes := slot.keyCodec.encode k
  (keyGroupForKey keyBytes).toUInt8 :: (slot.slotName ++ bar :: keyBytes)

/-- `"<slot>|"`. -/
def slotPrefix : Bytes := slot.slotName ++ [bar]

def put (b : Backend) (k : K) (v : V) : Backend :=
  let value := slot.valueCodec.encode v
  if !slot.ttl.enabled then b.put host.op (slot.encodeKey k) value
  else b.put host.op (slot.encodeKey k) (writeI64Le (slot.expireAt clocks view) ++ value)

/-- What a read returns, with the counters and the rows after it: an expired
entry is purged, and a live one stamped again when reads refresh. -/
def get (b : Backend) (k : K) : Option V × View × Backend :=
  let key := slot.encodeKey k
  match b.get host.op key with
  | none => (none, view, b)
  | some raw =>
      if !slot.ttl.enabled then (slot.valueCodec.decode raw, view, b)
      else if raw.length < 8 then (none, view, b)
      else if slot.isExpired clocks view (readI64Le raw) then
        (none,
          { view with stats.expiredOnRead := view.stats.expiredOnRead + 1 },
          b.erase host.op key)
      else
        match slot.valueCodec.decode (raw.drop 8) with
        | none => (none, view, b)
        | some v =>
            if slot.ttl.refreshOnRead then
              (some v, view,
                b.put host.op key (writeI64Le (slot.expireAt clocks view) ++ raw.drop 8))
            else (some v, view, b)

def erase (b : Backend) (k : K) : Backend := b.erase host.op (slot.encodeKey k)

/-- A row of the operator as this slot's scan sees it. -/
def visitRow (row : Key × Value) : Option (K × V) :=
  let (key, value) := row
  if key.length < 1 + slot.slotName.length + 1 then none
  else if (key.drop 1).take slot.slotName.length ≠ slot.slotName ∨
      key[1 + slot.slotName.length]? ≠ some bar then none
  else
    let userKey := key.drop (1 + slot.slotName.length + 1)
    if slot.ttl.enabled then
      if value.length < 8 then none
      else if slot.isExpired clocks view (readI64Le value) then none
      else
        match slot.keyCodec.decode userKey, slot.valueCodec.decode (value.drop 8) with
        | some k, some v => some (k, v)
        | _, _ => none
    else
      match slot.keyCodec.decode userKey, slot.valueCodec.decode value with
      | some k, some v => some (k, v)
      | _, _ => none

/-- Every key and value of the slot, in the order they are visited. -/
def scan (b : Backend) : List (K × V) :=
  (host.arrange (b.rows host.op)).filterMap (slot.visitRow clocks view)

/-! ## Reclaiming -/

/-- One row of a sweep: rows without the slot's prefix are passed over, and so
are those behind the cursor and those past the budget. -/
def visitSweep (now : Int) (budget : Nat) (s : Sweep) (row : Key × Value) : Sweep :=
  if !decide (slot.slotPrefix <:+: row.1) then s
  else if s.budgetHit then { s with backlog := s.backlog + 1 }
  else if !view.cleanupCursor.isEmpty && row.1 ≤ view.cleanupCursor then
    { s with skippedBeforeCursor := s.skippedBeforeCursor + 1 }
  else
    let expired := 8 ≤ row.2.length && slot.expiredAt view (readI64Le row.2) now
    { s with
      doomed := if expired then s.doomed ++ [row.1] else s.doomed
      scanned := s.scanned + 1
      live := if expired then s.live else s.live + 1
      bytes := s.bytes + (row.1.length + row.2.length)
      lastVisited := row.1
      budgetHit := budget ≤ s.scanned + 1 }

def sweep (b : Backend) (now : Int) (budget : Nat) : Sweep :=
  (host.arrange (b.rows host.op)).foldl (slot.visitSweep view now budget) {}

/-- The view after a sweep: the cursor stays where the budget ended it. -/
def afterSweep (s : Sweep) : View :=
  { view with
    cleanupCursor := if s.budgetHit then s.lastVisited else []
    stats :=
      { view.stats with
        expiredInCleanup := view.stats.expiredInCleanup + s.doomed.length
        scannedEntries := s.scanned
        liveEntries := s.live + s.skippedBeforeCursor
        estimatedBytes := s.bytes
        unscannedBacklog := s.backlog } }

/-- The predicate in place after `install_expiry_filter_once_`. -/
def installedFilter (filter : Option ExpiryFilter) : Option ExpiryFilter :=
  if view.filterInstalled || !slot.ttl.enabled then filter
  else
    some
      { slotPrefix := slot.slotPrefix
        eventTime := slot.ttl.domain = .eventTime
        wm := view.watermarkMs
        haveWm := view.hasWatermark
        clock := slot.ttl.clock }

end Slot

/-- The rows of the operator a compaction drops, of those it reaches. -/
def compactExpired (host : Host) (clocks : Nat → Int) (filter : Option ExpiryFilter)
    (reached : Key → Bool) (b : Backend) : Backend :=
  match filter with
  | none => b
  | some f =>
      eraseAll host.op b
        (((b.rows host.op).filter fun row => reached row.1 && f.dead clocks row).map Prod.fst)

namespace Slot

variable {K V : Type} (slot : Slot K V) (host : Host) (clocks : Nat → Int)

/-- A compacting backend reclaims on its own and does not count what it drops. -/
def cleanupBatch (view : View) (b : Backend) (filter : Option ExpiryFilter) (budget : Nat) :
    Cleanup :=
  if !slot.ttl.enabled || budget = 0 then ⟨0, view, b, filter⟩
  else
    match slot.nowForTtl clocks view with
    | none => ⟨0, view, b, filter⟩
    | some now =>
        if host.supportsExpiryCompaction then
          let filter := slot.installedFilter view filter
          ⟨0, { view with filterInstalled := true },
            compactExpired host clocks filter (fun _ => true) b, filter⟩
        else
          let s := slot.sweep host view b now budget
          ⟨s.doomed.length, afterSweep view s, eraseAll host.op b s.doomed, filter⟩

/-- Passes until one erases nothing, at most `fuel` of them. -/
def cleanupPasses (fuel : Nat) (view : View) (b : Backend) (filter : Option ExpiryFilter) :
    Cleanup :=
  match fuel with
  | 0 => ⟨0, view, b, filter⟩
  | fuel + 1 =>
      let pass := slot.cleanupBatch host clocks view b filter maxBudget
      if pass.erased = 0 then pass
      else
        let rest := cleanupPasses fuel { pass.view with cleanupCursor := [] } pass.backend
          pass.filter
        { rest with erased := pass.erased + rest.erased }

/-- Every pass but the last erases a row, so the rows bound the passes. -/
def cleanupAll (view : View) (b : Backend) (filter : Option ExpiryFilter) : Cleanup :=
  slot.cleanupPasses host clocks ((b.rows host.op).length + 1) { view with cleanupCursor := [] } b
    filter

/-- The rows a cleanup of this slot judges dead. -/
def takes (view : View) (filter : Option ExpiryFilter) (row : Key × Value) : Bool :=
  if host.supportsExpiryCompaction then
    slot.ttl.enabled && (slot.nowForTtl clocks view).isSome &&
      (slot.installedFilter view filter).any fun f => f.dead clocks row
  else
    slot.ttl.enabled && decide (slot.slotPrefix <:+: row.1) && 8 ≤ row.2.length &&
      slot.isExpired clocks view (readI64Le row.2)

/-- What the bytes of one of the slot's rows read as. -/
def readRow (view : View) (raw : Value) : Option V :=
  if !slot.ttl.enabled then slot.valueCodec.decode raw
  else if raw.length < 8 then none
  else if slot.isExpired clocks view (readI64Le raw) then none
  else slot.valueCodec.decode (raw.drop 8)

end Slot

/-! ## Stored keys -/

/-- Bytes up to the first bar are read off. -/
theorem append_bar_inj {a a' x x' : Bytes} (ha : bar ∉ a) (ha' : bar ∉ a')
    (h : a ++ bar :: x = a' ++ bar :: x') : a = a' ∧ x = x' := by
  induction a generalizing a' with
  | nil =>
      cases a' with
      | nil => exact ⟨rfl, (List.cons.inj h).2⟩
      | cons c rest => exact absurd ((List.cons.inj h).1 ▸ List.mem_cons_self) ha'
  | cons c rest ih =>
      cases a' with
      | nil => exact absurd ((List.cons.inj h).1 ▸ List.mem_cons_self) ha
      | cons c' rest' =>
          obtain ⟨rfl, htail⟩ := List.cons.inj h
          obtain ⟨rfl, hx⟩ := ih (fun hmem => ha (List.mem_cons_of_mem c hmem))
            (fun hmem => ha' (List.mem_cons_of_mem c hmem)) htail
          exact ⟨rfl, hx⟩

theorem Slot.bar_notMem {K V : Type} (slot : Slot K V) : bar ∉ slot.slotName := by
  have hvalid := slot.valid
  unfold validSlotName at hvalid
  simp only [Bool.and_eq_true, Bool.not_eq_true', List.contains_eq_mem, decide_eq_false_iff_not]
    at hvalid
  exact hvalid.1

theorem Slot.encodeKey_inj {K V K' V' : Type} {slot : Slot K V} {slot' : Slot K' V'} {k : K}
    {k' : K'} (h : slot.encodeKey k = slot'.encodeKey k') :
    slot.slotName = slot'.slotName ∧ slot.keyCodec.encode k = slot'.keyCodec.encode k' :=
  append_bar_inj slot.bar_notMem slot'.bar_notMem (List.cons.inj h).2

/-- A scan reads the slot's own rows as a read does. -/
theorem Slot.visitRow_encodeKey {K V : Type} (slot : Slot K V) (clocks : Nat → Int) (view : View)
    (k : K) (raw : Value) :
    slot.visitRow clocks view (slot.encodeKey k, raw) =
      (slot.readRow clocks view raw).map fun v => (k, v) := by
  have hlen : ¬ (slot.encodeKey k).length < 1 + slot.slotName.length + 1 := by
    simp only [encodeKey, List.length_cons, List.length_append]
    omega
  have hname : ((slot.encodeKey k).drop 1).take slot.slotName.length = slot.slotName := by
    simp [encodeKey]
  have hbar : (slot.encodeKey k)[1 + slot.slotName.length]? = some bar := by
    rw [Nat.add_comm]
    simp [encodeKey]
  have hkey : (slot.encodeKey k).drop (1 + slot.slotName.length + 1) = slot.keyCodec.encode k := by
    rw [show 1 + slot.slotName.length + 1 = (slot.slotName.length + 1) + 1 by omega]
    simp [encodeKey]
  unfold visitRow readRow
  simp only [hlen, hname, hbar, hkey, slot.keyCodec.decode_encode, ne_eq, not_true_eq_false,
    or_self, if_false]
  cases slot.ttl.enabled with
  | false => cases slot.valueCodec.decode raw <;> rfl
  | true =>
      simp only [Bool.not_true, Bool.false_eq_true, if_true, if_false]
      split
      · rfl
      · split
        · rfl
        · cases slot.valueCodec.decode (raw.drop 8) <;> rfl

/-- A scan passes over the rows of every other slot. -/
theorem Slot.visitRow_other {K V K' V' : Type} {slot : Slot K V} {slot' : Slot K' V'}
    (h : slot.slotName ≠ slot'.slotName) (clocks : Nat → Int) (view : View) (k' : K')
    (raw : Value) : slot.visitRow clocks view (slot'.encodeKey k', raw) = none := by
  unfold visitRow
  simp only
  split
  · rfl
  · rename_i hlen
    split
    · rfl
    · rename_i hpasses
      -- A name and a bar at the right place would be the other slot's own.
      obtain ⟨hname, hbar⟩ := not_or.mp hpasses
      rw [not_not] at hname hbar
      refine absurd ?_ h
      have htail : (slot'.encodeKey k').drop 1 =
          slot.slotName ++ bar :: ((slot'.encodeKey k').drop (1 + slot.slotName.length + 1)) := by
        obtain ⟨hlt, hget⟩ := List.getElem?_eq_some_iff.mp hbar
        rw [← hget, ← List.drop_eq_getElem_cons hlt, ← List.drop_drop]
        conv_lhs => rw [← List.take_append_drop slot.slotName.length ((slot'.encodeKey k').drop 1)]
        rw [hname]
      exact (append_bar_inj slot.bar_notMem slot'.bar_notMem htail.symm).1

theorem Slot.put_eq {K V : Type} (slot : Slot K V) (host : Host) (clocks : Nat → Int)
    (view : View) (b : Backend) (k : K) (v : V) :
    slot.put host clocks view b k v = b.put host.op (slot.encodeKey k)
      (if !slot.ttl.enabled then slot.valueCodec.encode v
        else writeI64Le (slot.expireAt clocks view) ++ slot.valueCodec.encode v) := by
  unfold put
  split
  · rfl
  · rfl

theorem Slot.get_fst {K V : Type} (slot : Slot K V) (host : Host) (clocks : Nat → Int)
    (view : View) (b : Backend) (k : K) :
    (slot.get host clocks view b k).1 =
      (b.get host.op (slot.encodeKey k)).bind (slot.readRow clocks view) := by
  unfold get readRow
  simp only
  cases b.get host.op (slot.encodeKey k) with
  | none => rfl
  | some raw =>
      rw [Option.bind_some]
      simp only
      split
      · rfl
      · split
        · rfl
        · split
          · rfl
          · cases slot.valueCodec.decode (raw.drop 8) with
            | none => rfl
            | some v =>
                simp only
                split
                · rfl
                · rfl

section

variable {K V : Type} {slot : Slot K V} {host : Host} (clocks : Nat → Int) (view : View)
  {b : Backend} {k : K} {v : V}

theorem Slot.get_of_none (h : b.get host.op (slot.encodeKey k) = none) :
    slot.get host clocks view b k = (none, view, b) := by
  unfold get
  simp only [h]

theorem Slot.get_of_plain (hoff : slot.ttl.enabled = false)
    (h : b.get host.op (slot.encodeKey k) = some (slot.valueCodec.encode v)) :
    slot.get host clocks view b k = (some v, view, b) := by
  unfold get
  simp only [h, hoff, Bool.not_false, if_true, slot.valueCodec.decode_encode]

/-- A stamped row is purged once expired; else the read may stamp it again. -/
theorem Slot.get_of_stamped {stamp : Int} (hon : slot.ttl.enabled = true)
    (h : b.get host.op (slot.encodeKey k) =
      some (writeI64Le stamp ++ slot.valueCodec.encode v)) :
    slot.get host clocks view b k =
      if slot.isExpired clocks view
          (readI64Le (writeI64Le stamp ++ slot.valueCodec.encode v)) then
        (none, { view with stats.expiredOnRead := view.stats.expiredOnRead + 1 },
          b.erase host.op (slot.encodeKey k))
      else if slot.ttl.refreshOnRead then
        (some v, view, slot.put host clocks view b k v)
      else (some v, view, b) := by
  have hlen : ¬ (writeI64Le stamp ++ slot.valueCodec.encode v).length < 8 := by simp
  rw [put_eq]
  unfold get
  simp only [h, hon, hlen, drop_writeI64Le, slot.valueCodec.decode_encode, Bool.not_true,
    Bool.false_eq_true, if_false]

end

/-! ## Scans -/

section

variable {K V : Type} {slot : Slot K V} {host : Host} {clocks : Nat → Int} {view : View}
  {b : Backend}

/-- Every row a scan of the slot shows is the slot's own row of that key. -/
def Slot.ShowsOwn (slot : Slot K V) (host : Host) (clocks : Nat → Int) (view : View)
    (b : Backend) : Prop :=
  ∀ row ∈ b.rows host.op, ∀ k v, slot.visitRow clocks view row = some (k, v) →
    row.1 = slot.encodeKey k ∧ slot.readRow clocks view row.2 = some v

/-- A scan shows a key and value where a read of the key returns the value. -/
theorem Slot.ShowsOwn.mem_scan (h : slot.ShowsOwn host clocks view b) (k : K) (v : V) :
    (k, v) ∈ slot.scan host clocks view b ↔
      (b.get host.op (slot.encodeKey k)).bind (slot.readRow clocks view) = some v := by
  unfold scan
  rw [List.mem_filterMap, Option.bind_eq_some_iff]
  constructor
  · rintro ⟨row, hrow, hvisit⟩
    have hmem := (host.arrange_perm _).mem_iff.mp hrow
    obtain ⟨hkey, hread⟩ := h row hmem k v hvisit
    refine ⟨row.2, ?_, hread⟩
    rw [← hkey]
    exact InMemoryStateBackend.mem_rows.mp hmem
  · rintro ⟨raw, hget, hread⟩
    refine ⟨(slot.encodeKey k, raw), ?_, ?_⟩
    · exact (host.arrange_perm _).mem_iff.mpr (InMemoryStateBackend.mem_rows.mpr hget)
    · rw [visitRow_encodeKey, hread]
      rfl

theorem Slot.ShowsOwn.nodup_scan (h : slot.ShowsOwn host clocks view b) :
    ((slot.scan host clocks view b).map Prod.fst).Nodup := by
  unfold scan List.Nodup
  rw [List.pairwise_map, List.pairwise_filterMap]
  have hrows : ((host.arrange (b.rows host.op)).map Prod.fst).Nodup :=
    ((host.arrange_perm _).map Prod.fst).nodup_iff.mpr (InMemoryStateBackend.nodup_rows _ _)
  unfold List.Nodup at hrows
  rw [List.pairwise_map] at hrows
  refine hrows.imp_of_mem ?_
  intro row row' hrow hrow' hne e he e' he' heq
  have hkey := (h row ((host.arrange_perm _).mem_iff.mp hrow) e.1 e.2 he).1
  have hkey' := (h row' ((host.arrange_perm _).mem_iff.mp hrow') e'.1 e'.2 he').1
  rw [hkey, hkey', heq] at hne
  exact hne rfl

end

/-! ## Erasing many rows -/

theorem get_eraseAll (op : Nat) (b : Backend) (keys : List Key) (key : Key) :
    (eraseAll op b keys).get op key = if key ∈ keys then none else b.get op key := by
  induction keys generalizing b with
  | nil => simp [eraseAll]
  | cons k rest ih =>
      have hstep : eraseAll op b (k :: rest) = eraseAll op (b.erase op k) rest := rfl
      rw [hstep, ih, InMemoryStateBackend.get_erase]
      by_cases hrest : key ∈ rest
      · simp [hrest]
      · by_cases hk : k = key
        · subst hk
          simp
        · simp [hrest, hk, Ne.symm hk]

theorem get_of_get_eraseAll {op : Nat} {b : Backend} {keys : List Key} {key : Key} {raw : Value}
    (h : (eraseAll op b keys).get op key = some raw) : b.get op key = some raw := by
  rw [get_eraseAll] at h
  split at h
  · exact absurd h (by simp)
  · exact h

/-! ## What a cleanup does -/

/-- The fields a ttl decision reads are the same. -/
structure View.SameClock (view view' : View) : Prop where
  watermarkMs : view.watermarkMs = view'.watermarkMs
  hasWatermark : view.hasWatermark = view'.hasWatermark
  firstWatermarkMs : view.firstWatermarkMs = view'.firstWatermarkMs

namespace Slot

variable {K V : Type} (slot : Slot K V) (host : Host) (clocks : Nat → Int) {view view' : View}

theorem nowForTtl_congr (h : view.SameClock view') :
    slot.nowForTtl clocks view = slot.nowForTtl clocks view' := by
  unfold nowForTtl
  rw [h.watermarkMs, h.hasWatermark]

theorem isExpired_congr (h : view.SameClock view') (stamp : Int) :
    slot.isExpired clocks view stamp = slot.isExpired clocks view' stamp := by
  unfold isExpired expiredAt
  rw [slot.nowForTtl_congr clocks h, h.firstWatermarkMs]

/-- What a cleanup leaves behind, given the rows it judged dead. -/
structure Reclaims (view : View) (b : Backend) (filter : Option ExpiryFilter) (c : Cleanup) :
    Prop where
  erases : ∃ doomed, c.backend = eraseAll host.op b doomed ∧
    ∀ key ∈ doomed, ∃ raw, b.get host.op key = some raw ∧
      slot.takes host clocks view filter (key, raw) = true
  clock : c.view.SameClock view
  filter : c.filter = filter ∨ (host.supportsExpiryCompaction = true ∧
    slot.ttl.enabled = true ∧ c.filter = slot.installedFilter view filter)

theorem Reclaims.nothing (view : View) (b : Backend) (filter : Option ExpiryFilter) :
    slot.Reclaims host clocks view b filter ⟨0, view, b, filter⟩ :=
  ⟨⟨[], rfl, by simp⟩, ⟨rfl, rfl, rfl⟩, Or.inl rfl⟩

theorem mem_doomed_foldl (now : Int) (budget : Nat) (rows : List (Key × Value))
    (s : Sweep) {key : Key} (h : key ∈ (rows.foldl (slot.visitSweep view now budget) s).doomed) :
    key ∈ s.doomed ∨ ∃ raw, (key, raw) ∈ rows ∧ slot.slotPrefix <:+: key ∧ 8 ≤ raw.length ∧
      slot.expiredAt view (readI64Le raw) now = true := by
  induction rows generalizing s with
  | nil => exact Or.inl h
  | cons row rest ih =>
      obtain hmem | ⟨raw, hraw, hpre, hlen, hexp⟩ := ih (slot.visitSweep view now budget s row) h
      · unfold visitSweep at hmem
        split at hmem
        · exact Or.inl hmem
        · rename_i hinfix
          split at hmem
          · exact Or.inl hmem
          · split at hmem
            · exact Or.inl hmem
            · simp only at hmem
              split at hmem
              · rename_i hexpired
                obtain hmem | hmem := List.mem_append.mp hmem
                · exact Or.inl hmem
                · obtain rfl := List.mem_singleton.mp hmem
                  obtain ⟨hlen, hexp⟩ := Bool.and_eq_true_iff.mp hexpired
                  refine Or.inr ⟨row.2, List.mem_cons_self, ?_, of_decide_eq_true hlen, hexp⟩
                  simpa using hinfix
              · exact Or.inl hmem
      · exact Or.inr ⟨raw, List.mem_cons_of_mem row hraw, hpre, hlen, hexp⟩

theorem mem_doomed {b : Backend} {now : Int} {budget : Nat} {key : Key}
    (h : key ∈ (slot.sweep host view b now budget).doomed) :
    ∃ raw, b.get host.op key = some raw ∧ slot.slotPrefix <:+: key ∧ 8 ≤ raw.length ∧
      slot.expiredAt view (readI64Le raw) now = true := by
  obtain hnil | ⟨raw, hmem, hrest⟩ := slot.mem_doomed_foldl now budget _ {} h
  · exact absurd hnil (by simp)
  · exact ⟨raw, InMemoryStateBackend.mem_rows.mp ((host.arrange_perm _).mem_iff.mp hmem), hrest⟩

/-- A cleanup erases rows the slot judges dead and nothing else. -/
theorem cleanupBatch_spec (view : View) (b : Backend) (filter : Option ExpiryFilter)
    (budget : Nat) :
    slot.Reclaims host clocks view b filter
      (slot.cleanupBatch host clocks view b filter budget) := by
  unfold cleanupBatch
  split
  · exact Reclaims.nothing slot host clocks view b filter
  · rename_i hguard
    have henabled : slot.ttl.enabled = true := by
      simp only [Bool.or_eq_true, Bool.not_eq_true', not_or] at hguard
      exact Bool.eq_true_of_not_eq_false hguard.1
    cases hnow : slot.nowForTtl clocks view with
    | none => exact Reclaims.nothing slot host clocks view b filter
    | some now =>
        simp only
        split
        · rename_i hcompacts
          refine ⟨?_, ⟨rfl, rfl, rfl⟩, Or.inr ⟨hcompacts, henabled, rfl⟩⟩
          unfold compactExpired
          cases hfilter : slot.installedFilter view filter with
          | none => exact ⟨[], rfl, by simp⟩
          | some f =>
              refine ⟨_, rfl, ?_⟩
              intro key hkey
              obtain ⟨row, hrow, rfl⟩ := List.mem_map.mp hkey
              obtain ⟨hmem, hdead⟩ := List.mem_filter.mp hrow
              refine ⟨row.2, InMemoryStateBackend.mem_rows.mp hmem, ?_⟩
              simpa [takes, hcompacts, henabled, hnow, hfilter] using hdead
        · rename_i hcompacts
          refine ⟨⟨_, rfl, ?_⟩, ⟨rfl, rfl, rfl⟩, Or.inl rfl⟩
          intro key hkey
          obtain ⟨raw, hget, hpre, hlen, hexp⟩ := slot.mem_doomed host hkey
          refine ⟨raw, hget, ?_⟩
          simp [takes, hcompacts, henabled, hpre, hlen, isExpired, hnow, hexp]

/-- Erasing a key that is there leaves fewer rows. -/
theorem length_rows_eraseAll {op : Nat} {b : Backend} {keys : List Key} {key : Key}
    {raw : Value} (hkey : key ∈ keys) (hget : b.get op key = some raw) :
    ((eraseAll op b keys).rows op).length < (b.rows op).length := by
  have hsub : key :: ((eraseAll op b keys).rows op).map Prod.fst ⊆ (b.rows op).map Prod.fst := by
    intro k hk
    obtain rfl | hk := List.mem_cons.mp hk
    · exact List.mem_map.mpr ⟨(k, raw), InMemoryStateBackend.mem_rows.mpr hget, rfl⟩
    · obtain ⟨row, hrow, rfl⟩ := List.mem_map.mp hk
      refine List.mem_map.mpr ⟨row, ?_, rfl⟩
      exact InMemoryStateBackend.mem_rows.mpr
        (get_of_get_eraseAll (InMemoryStateBackend.mem_rows.mp hrow))
  have hnodup : (key :: ((eraseAll op b keys).rows op).map Prod.fst).Nodup := by
    refine List.nodup_cons.mpr ⟨?_, InMemoryStateBackend.nodup_rows _ op⟩
    intro hmem
    obtain ⟨row, hrow, rfl⟩ := List.mem_map.mp hmem
    have hgone := InMemoryStateBackend.mem_rows.mp hrow
    rw [get_eraseAll, if_pos hkey] at hgone
    exact absurd hgone (by simp)
  have hle := (List.subperm_of_subset hnodup hsub).length_le
  rw [List.length_cons, List.length_map, List.length_map] at hle
  omega

/-- A pass that reports erased rows leaves fewer. -/
theorem length_rows_cleanupBatch (view : View) (b : Backend)
    (filter : Option ExpiryFilter) (budget : Nat)
    (h : (slot.cleanupBatch host clocks view b filter budget).erased ≠ 0) :
    (((slot.cleanupBatch host clocks view b filter budget).backend).rows host.op).length <
      (b.rows host.op).length := by
  unfold cleanupBatch at h ⊢
  split at h
  · exact absurd rfl h
  · rename_i hguard
    rw [if_neg hguard]
    cases hnow : slot.nowForTtl clocks view with
    | none => simp [hnow] at h
    | some now =>
        simp only [hnow] at h ⊢
        split at h
        · exact absurd rfl h
        · rename_i hcompacts
          rw [if_neg hcompacts]
          obtain ⟨key, hkey⟩ := List.exists_mem_of_ne_nil _ (List.ne_nil_of_length_pos
            (Nat.pos_of_ne_zero h))
          obtain ⟨raw, hget, -⟩ := slot.mem_doomed host hkey
          exact length_rows_eraseAll hkey hget

private theorem cleanupPasses_fuel {fuel : Nat} (extra : Nat) (view : View) (b : Backend)
    (filter : Option ExpiryFilter) (h : (b.rows host.op).length < fuel) :
    slot.cleanupPasses host clocks (fuel + extra) view b filter =
      slot.cleanupPasses host clocks fuel view b filter := by
  induction fuel generalizing view b filter with
  | zero => exact absurd h (Nat.not_lt_zero _)
  | succ fuel ih =>
      rw [Nat.add_right_comm]
      unfold cleanupPasses
      simp only
      split
      · rfl
      · rename_i herased
        have hfewer := slot.length_rows_cleanupBatch host clocks view b filter maxBudget herased
        rw [ih _ _ _ (by omega)]

/-- The loop of `cleanup_all` ends: more passes change nothing. -/
theorem cleanupAll_settles (extra : Nat) (view : View) (b : Backend)
    (filter : Option ExpiryFilter) :
    slot.cleanupPasses host clocks ((b.rows host.op).length + 1 + extra)
        { view with cleanupCursor := [] } b filter =
      slot.cleanupAll host clocks view b filter :=
  slot.cleanupPasses_fuel host clocks extra _ b filter (Nat.lt_succ_self _)

end Slot

end Clink.Ports.KeyedState

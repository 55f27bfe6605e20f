import Mathlib.Algebra.Order.Ring.Nat
import Mathlib.Data.List.Induction
import Mathlib.Data.List.ReduceOption

/-!
# The blocking exchange

The embedding of `BlockingExchangeOperator`
(`include/clink/runtime/blocking_exchange.hpp`).  Elements are kept until the flush:
control elements and data in a list in memory, the data of some entries in a file.  The
file is begun when memory would go over the threshold, from there on every batch goes to
it; or when the budget refuses the bytes of a batch, and then the data in memory goes to
the file first.  Opening the file and writing to it may fail: the call throws, and data
it has already moved stays in the file.

`Stores` says what the list and the file hold together.  As the file is read from its
start by the spilled entries in order, it is enough that it ends where they do.
-/

namespace Clink.Ports.BlockingExchange

variable {B RB W K D : Type}

/-- `ArrowBatcher` and the IPC stream of one batch. -/
structure Batcher (B RB : Type) where
  build : B → Option RB
  parse : RB → Option B
  recordBatchSize : RB → Option Nat
  serializeRecordBatch : RB → Option (List UInt8)
  readBytes : List UInt8 → Option RB

/-- Batches come back as they were, from the builder and from memory. -/
structure Batcher.Lawful (batcher : Batcher B RB) : Prop where
  parse : ∀ b rb, batcher.build b = some rb → batcher.parse rb = some b
  read : ∀ rb bytes, batcher.serializeRecordBatch rb = some bytes →
    batcher.readBytes bytes = some rb

structure Options where
  spillThresholdBytes : Nat := 64 * 1024 * 1024
  /-- A directory for spill files is given. -/
  spillEnabled : Bool := false

inductive StreamElement (B W K D : Type)
  | data (batch : B)
  | watermark (w : W)
  | barrier (k : K)
  | drain (d : D)
  deriving DecidableEq

inductive Entry (W K D : Type)
  | dataInMemory (bytes : List UInt8)
  | dataSpilled
  | watermark (w : W)
  | barrier (k : K)
  | drain (d : D)

structure Exchange (RB W K D : Type) where
  entries : List (Entry W K D) := []
  inMemoryBytes : Nat := 0
  spilledBatches : Nat := 0
  /-- The batches written to the spill file; nothing readable where a write was torn. -/
  file : List (Option RB) := []

/-- Why a batch does not get into the spill file: the file cannot be opened, or the write
fails, having written some of the batch or none. -/
inductive SpillFailure
  | openFails
  | writeFails (torn : Bool)
  deriving DecidableEq

/-- What the memory budget and the file system answer while one element is taken: to the node
of the list, to the bytes of a batch, and to each batch that is spilled. -/
structure Refusals where
  node : Bool := false
  bytes : Bool := false
  spill : Nat → Option SpillFailure := fun _ => none

inductive Thrown
  | buildReturnedNull
  | recordBatchSize
  | memoryLimitExceeded
  | sizeOverflow
  | serialize
  | unreadable
  | spill (failure : SpillFailure)
  deriving DecidableEq

/-- What a throw leaves in the file. -/
def Thrown.left : Thrown → List (Option RB)
  | .spill (.writeFails true) => [none]
  | _ => []

namespace Exchange

variable (batcher : Batcher B RB) (opts : Options)

/-- `spill_batch_` of a batch whose entry is the last; the entry goes if it throws. -/
def spillBatch (x : Exchange RB W K D) (rb : RB) :
    Option SpillFailure → Exchange RB W K D × Option Thrown
  | none =>
      ({ x with
        entries := x.entries ++ [.dataSpilled]
        spilledBatches := x.spilledBatches + 1
        file := x.file ++ [some rb] }, none)
  | some failure =>
      ({ x with file := x.file ++ Thrown.left (.spill failure) }, some (.spill failure))

/-- The data of the entries goes to the file, in order; it stops at one that cannot be read or
written.  The first index is that of the next batch to spill. -/
def migrate (batcher : Batcher B RB) (spill : Nat → Option SpillFailure) :
    Nat → List (Entry W K D) → List (Entry W K D) × List RB × Option Thrown
  | _, [] => ([], [], none)
  | n, .dataInMemory bytes :: entries =>
      match batcher.readBytes bytes with
      | none => (.dataInMemory bytes :: entries, [], some .unreadable)
      | some rb =>
          match spill n with
          | some failure => (.dataInMemory bytes :: entries, [], some (.spill failure))
          | none =>
              let rest := migrate batcher spill (n + 1) entries
              (.dataSpilled :: rest.1, rb :: rest.2.1, rest.2.2)
  | n, entry :: entries =>
      let rest := migrate batcher spill n entries
      (entry :: rest.1, rest.2)

/-- The bytes of the data in memory. -/
def residentBytes (entries : List (Entry W K D)) : Nat :=
  (entries.map fun | .dataInMemory bytes => bytes.length | _ => 0).sum

/-- The resident data goes to the file, and memory is given back. -/
def migrated (x : Exchange RB W K D) (spill : Nat → Option SpillFailure) :
    Exchange RB W K D × Option Thrown :=
  let moved := migrate batcher spill 0 x.entries
  ({ entries := moved.1
     inMemoryBytes := x.inMemoryBytes - (residentBytes x.entries - residentBytes moved.1)
     spilledBatches := x.spilledBatches + moved.2.1.length
     file := x.file ++ moved.2.1.map some ++ (moved.2.2.map Thrown.left).getD [] }, moved.2.2)

def bufferData (x : Exchange RB W K D) (batch : B) (refused : Refusals) :
    Exchange RB W K D × Option Thrown :=
  match batcher.build batch with
  | none => (x, some .buildReturnedNull)
  | some rb =>
      match batcher.recordBatchSize rb with
      | none => (x, some .recordBatchSize)
      | some size =>
          if refused.node then (x, some .memoryLimitExceeded)
          else if 2 ^ 64 ≤ x.inMemoryBytes + size then (x, some .sizeOverflow)
          else if opts.spillEnabled ∧
              (x.spilledBatches ≠ 0 ∨ opts.spillThresholdBytes < x.inMemoryBytes + size) then
            x.spillBatch rb (refused.spill 0)
          else
            match batcher.serializeRecordBatch rb with
            | none => (x, some .serialize)
            | some bytes =>
                if refused.bytes then
                  if opts.spillEnabled then
                    let y := x.migrated batcher refused.spill
                    -- Nothing was spilled before this call.
                    match y.2 with
                    | some thrown => (y.1, some thrown)
                    | none => y.1.spillBatch rb (refused.spill y.1.spilledBatches)
                  else (x, some .memoryLimitExceeded)
                else
                  ({ x with
                    entries := x.entries ++ [.dataInMemory bytes]
                    inMemoryBytes := x.inMemoryBytes + bytes.length }, none)

/-- Only the node of a control element is charged. -/
def bufferControl (x : Exchange RB W K D) (entry : Entry W K D) (refused : Refusals) :
    Exchange RB W K D × Option Thrown :=
  if refused.node then (x, some .memoryLimitExceeded)
  else ({ x with entries := x.entries ++ [entry] }, none)

/-- The exchange, what the call emits, and whether it throws. -/
def process (x : Exchange RB W K D) (element : StreamElement B W K D) (refused : Refusals) :
    Exchange RB W K D × List (StreamElement B W K D) × Option Thrown :=
  match element with
  | .data batch =>
      let y := x.bufferData batcher opts batch refused
      (y.1, [], y.2)
  | .watermark w =>
      let y := x.bufferControl (.watermark w) refused
      (y.1, [], y.2)
  | .barrier k =>
      let y := x.bufferControl (.barrier k) refused
      (y.1, [], y.2)
  | .drain d =>
      let y := x.bufferControl (.drain d) refused
      (y.1, [], y.2)

/-- What the flush emits, and whether it gets to the end; the spilled entries read the file. -/
def replay (batcher : Batcher B RB) :
    List (Entry W K D) → List (Option RB) → List (StreamElement B W K D) × Bool
  | [], _ => ([], true)
  | .dataInMemory bytes :: entries, file =>
      match (batcher.readBytes bytes).bind batcher.parse with
      | none => ([], false)
      | some b => ((.data b :: (replay batcher entries file).1), (replay batcher entries file).2)
  | .dataSpilled :: _, [] => ([], false)
  | .dataSpilled :: entries, rb :: file =>
      match rb.bind batcher.parse with
      | none => ([], false)
      | some b => ((.data b :: (replay batcher entries file).1), (replay batcher entries file).2)
  | .watermark w :: entries, file =>
      (.watermark w :: (replay batcher entries file).1, (replay batcher entries file).2)
  | .barrier k :: entries, file =>
      (.barrier k :: (replay batcher entries file).1, (replay batcher entries file).2)
  | .drain d :: entries, file =>
      (.drain d :: (replay batcher entries file).1, (replay batcher entries file).2)

def flush (x : Exchange RB W K D) : List (StreamElement B W K D) × Bool :=
  replay batcher x.entries x.file

/-! ## Runs -/

/-- What is given to the operator: elements, each with what the budget answers to it. -/
abbrev Input (B W K D : Type) := List (StreamElement B W K D × Refusals)

def run (x : Exchange RB W K D) (ins : Input B W K D) : Exchange RB W K D :=
  ins.foldl (fun x i => (x.process batcher opts i.1 i.2).1) x

/-- What the calls emit. -/
def emissions (x : Exchange RB W K D) : Input B W K D → List (StreamElement B W K D)
  | [] => []
  | i :: ins =>
      let y := x.process batcher opts i.1 i.2
      y.2.1 ++ emissions y.1 ins

/-- The elements whose call returned. -/
def accepted (x : Exchange RB W K D) : Input B W K D → List (StreamElement B W K D)
  | [] => []
  | i :: ins =>
      let y := x.process batcher opts i.1 i.2
      if y.2.2 = none then i.1 :: accepted y.1 ins else accepted y.1 ins

/-- How many batches are in memory. -/
def residents (entries : List (Entry W K D)) : Nat :=
  entries.countP fun | .dataInMemory _ => true | _ => false

/-- When a call throws.  The node of the list is charged for every element; the bytes of a
batch only matter where they are not spilled, and then every batch in memory and this one is
written. -/
def Refuses (x : Exchange RB W K D) (refused : Refusals) : StreamElement B W K D → Prop
  | .data batch =>
      refused.node ∨
      ∀ rb size, batcher.build batch = some rb → batcher.recordBatchSize rb = some size →
        2 ^ 64 ≤ x.inMemoryBytes + size ∨
        if opts.spillEnabled ∧
            (x.spilledBatches ≠ 0 ∨ opts.spillThresholdBytes < x.inMemoryBytes + size) then
          refused.spill 0 ≠ none
        else
          batcher.serializeRecordBatch rb = none ∨
          refused.bytes ∧
            (opts.spillEnabled = false ∨ ∃ n ≤ residents x.entries, refused.spill n ≠ none)
  | _ => refused.node

end Exchange

/-- No write is torn. -/
def Refusals.Clean (refused : Refusals) : Prop := ∀ n, refused.spill n ≠ some (.writeFails true)

/-! ## What the list and the file hold -/

inductive Stores (batcher : Batcher B RB) :
    List (Entry W K D) → List RB → List (StreamElement B W K D) → Prop
  | nil : Stores batcher [] [] []
  | memory {b rb bytes es f acc} (hbuilt : batcher.build b = some rb)
      (hbytes : batcher.serializeRecordBatch rb = some bytes) (hrest : Stores batcher es f acc) :
      Stores batcher (.dataInMemory bytes :: es) f (.data b :: acc)
  | spilled {b rb es f acc} (hbuilt : batcher.build b = some rb) (hrest : Stores batcher es f acc) :
      Stores batcher (.dataSpilled :: es) (rb :: f) (.data b :: acc)
  | watermark {es f acc} (w : W) (hrest : Stores batcher es f acc) :
      Stores batcher (.watermark w :: es) f (.watermark w :: acc)
  | barrier {es f acc} (k : K) (hrest : Stores batcher es f acc) :
      Stores batcher (.barrier k :: es) f (.barrier k :: acc)
  | drain {es f acc} (d : D) (hrest : Stores batcher es f acc) :
      Stores batcher (.drain d :: es) f (.drain d :: acc)

namespace Stores

variable {batcher : Batcher B RB} {es es' : List (Entry W K D)} {f f' : List RB}
  {acc acc' : List (StreamElement B W K D)}

/-- The file is read in the order it was written, so stores go one after another. -/
theorem append (h : Stores batcher es f acc) (h' : Stores batcher es' f' acc') :
    Stores batcher (es ++ es') (f ++ f') (acc ++ acc') := by
  induction h with
  | nil => exact h'
  | memory hbuilt hbytes _ ih => exact .memory hbuilt hbytes ih
  | spilled hbuilt _ ih => exact .spilled hbuilt ih
  | watermark w _ ih => exact .watermark w ih
  | barrier k _ ih => exact .barrier k ih
  | drain d _ ih => exact .drain d ih

theorem snoc {entry : Entry W K D} {element : StreamElement B W K D}
    (h : Stores batcher es f acc) (hlast : Stores batcher [entry] [] [element]) :
    Stores batcher (es ++ [entry]) f (acc ++ [element]) := by
  simpa using h.append hlast

/-- The whole is emitted from a file without a torn write, and a part of it else. -/
theorem replay_eq (hlawful : batcher.Lawful) (h : Stores batcher es f acc)
    {file : List (Option RB)} (hfile : file.reduceOption = f) :
    (Exchange.replay batcher es file).1 <+: acc ∧
    (none ∉ file → Exchange.replay batcher es file = (acc, true)) := by
  induction h generalizing file with
  | nil => exact ⟨List.prefix_refl [], fun _ => rfl⟩
  | memory hbuilt hbytes _ ih =>
      obtain ⟨hstart, hwhole⟩ := ih hfile
      simp only [Exchange.replay, hlawful.read _ _ hbytes, Option.bind_some,
        hlawful.parse _ _ hbuilt]
      refine ⟨(List.prefix_cons_inj _).mpr hstart, fun hintact => ?_⟩
      rw [hwhole hintact]
  | @spilled b rb es f acc hbuilt _ ih =>
      match file, hfile with
      | none :: file, _ =>
          exact ⟨List.nil_prefix, fun hintact => absurd List.mem_cons_self hintact⟩
      | some rb' :: file, hfile =>
          obtain ⟨rfl, hrest⟩ := List.cons.inj hfile
          obtain ⟨hstart, hwhole⟩ := ih hrest
          simp only [Exchange.replay, Option.bind_some, hlawful.parse _ _ hbuilt]
          refine ⟨(List.prefix_cons_inj _).mpr hstart, fun hintact => ?_⟩
          rw [hwhole fun hmem => hintact (List.mem_cons_of_mem _ hmem)]
  | watermark w _ ih =>
      obtain ⟨hstart, hwhole⟩ := ih hfile
      refine ⟨(List.prefix_cons_inj _).mpr hstart, fun hintact => ?_⟩
      simp only [Exchange.replay, hwhole hintact]
  | barrier k _ ih =>
      obtain ⟨hstart, hwhole⟩ := ih hfile
      refine ⟨(List.prefix_cons_inj _).mpr hstart, fun hintact => ?_⟩
      simp only [Exchange.replay, hwhole hintact]
  | drain d _ ih =>
      obtain ⟨hstart, hwhole⟩ := ih hfile
      refine ⟨(List.prefix_cons_inj _).mpr hstart, fun hintact => ?_⟩
      simp only [Exchange.replay, hwhole hintact]

/-- How moving the data ended: all of it was written, or a write failed. -/
structure Moved (spill : Nat → Option SpillFailure) (n : Nat) (es : List (Entry W K D))
    (r : List (Entry W K D) × List RB × Option Thrown) : Prop where
  done : r.2.2 = none →
    r.2.1.length = Exchange.residents es ∧ ∀ k < Exchange.residents es, spill (n + k) = none
  stopped : ∀ thrown, r.2.2 = some thrown →
    ∃ failure, thrown = .spill failure ∧ ∃ k < Exchange.residents es, spill (n + k) = some failure

/-- Moving the data of a store that has no file yet keeps the order, also where a write that
fails stops it. -/
theorem migrate (hlawful : batcher.Lawful) (spill : Nat → Option SpillFailure)
    (h : Stores batcher es f acc) (hempty : f = []) (n : Nat) :
    Stores batcher (Exchange.migrate batcher spill n es).1
      (Exchange.migrate batcher spill n es).2.1 acc ∧
    Moved spill n es (Exchange.migrate batcher spill n es) := by
  induction h generalizing n with
  | nil => exact ⟨.nil, fun _ => ⟨rfl, by simp [Exchange.residents]⟩, by simp [Exchange.migrate]⟩
  | @memory b rb bytes es f acc hbuilt hbytes hrest ih =>
      have hresidents : Exchange.residents (.dataInMemory bytes :: es : List (Entry W K D)) =
          Exchange.residents es + 1 := by simp [Exchange.residents]
      simp only [Exchange.migrate, hlawful.read _ _ hbytes]
      cases hspill : spill n with
      | some failure =>
          refine ⟨?_, by simp, ?_⟩
          · rw [hempty] at hrest
            exact .memory hbuilt hbytes hrest
          · rintro thrown ⟨⟩
            exact ⟨failure, rfl, 0, by omega, hspill⟩
      | none =>
          obtain ⟨hstores, hmoved⟩ := ih hempty (n + 1)
          refine ⟨.spilled hbuilt hstores, ?_, ?_⟩
          · intro hdone
            obtain ⟨hlength, hall⟩ := hmoved.done hdone
            refine ⟨by rw [List.length_cons, hlength, hresidents], ?_⟩
            rintro (_ | k) hk
            · exact hspill
            · rw [Nat.add_comm k, ← Nat.add_assoc]
              exact hall k (by omega)
          · intro thrown hthrown
            obtain ⟨failure, rfl, k, hk, hfails⟩ := hmoved.stopped thrown hthrown
            refine ⟨failure, rfl, k + 1, by omega, ?_⟩
            rw [← hfails, Nat.add_comm k, ← Nat.add_assoc]
  | spilled => exact absurd hempty (by simp)
  | watermark w _ ih =>
      obtain ⟨hstores, hdone, hstopped⟩ := ih hempty n
      exact ⟨.watermark w hstores, hdone, hstopped⟩
  | barrier k _ ih =>
      obtain ⟨hstores, hdone, hstopped⟩ := ih hempty n
      exact ⟨.barrier k hstores, hdone, hstopped⟩
  | drain d _ ih =>
      obtain ⟨hstores, hdone, hstopped⟩ := ih hempty n
      exact ⟨.drain d hstores, hdone, hstopped⟩

end Stores

/-- The exchange holds the elements, and has no file before the first batch is spilled. -/
structure Exchange.Holds (batcher : Batcher B RB) (x : Exchange RB W K D)
    (acc : List (StreamElement B W K D)) : Prop where
  stores : Stores batcher x.entries x.file.reduceOption acc
  fresh : x.spilledBatches = 0 → x.file.reduceOption = []

namespace Exchange

variable {batcher : Batcher B RB} {x : Exchange RB W K D} {acc : List (StreamElement B W K D)}

/-! ## One element -/

/-- The element is in and the call returned, or the call threw and the elements are as they
were.  Only a failing write changes anything else. -/
structure Took (batcher : Batcher B RB) (x : Exchange RB W K D)
    (acc : List (StreamElement B W K D)) (element : StreamElement B W K D) (refused : Refusals)
    (refuses : Prop) (y : Exchange RB W K D × Option Thrown) : Prop where
  thrown : refuses → ∃ thrown, y.2 = some thrown ∧ y.1.Holds batcher acc ∧
    ((∀ failure, thrown ≠ .spill failure) → y.1 = x)
  taken : ¬ refuses → y.2 = none ∧ y.1.Holds batcher (acc ++ [element])
  intact : refused.Clean → none ∉ x.file → none ∉ y.1.file

variable {element : StreamElement B W K D} {refused : Refusals}

section

variable (h : x.Holds batcher acc)
include h

/-- A call that throws before anything is written. -/
theorem Holds.unchanged {refuses : Prop} (hrefuses : refuses) (thrown : Thrown) :
    Took batcher x acc element refused refuses (x, some thrown) where
  thrown _ := ⟨thrown, rfl, h, fun _ => rfl⟩
  taken hreturns := absurd hrefuses hreturns
  intact _ hintact := hintact

/-- A call that writes nothing and returns. -/
theorem Holds.kept {entry : Entry W K D} (hlast : Stores batcher [entry] [] [element])
    {refuses : Prop} (hreturns : ¬ refuses) (bytes : Nat) :
    Took batcher x acc element refused refuses
      ({ x with entries := x.entries ++ [entry], inMemoryBytes := bytes }, none) where
  thrown hrefuses := absurd hrefuses hreturns
  taken _ := ⟨rfl, h.stores.snoc hlast, h.fresh⟩
  intact _ hintact := hintact

theorem Holds.control {entry : Entry W K D} (hlast : Stores batcher [entry] [] [element])
    (refused : Refusals) :
    Took batcher x acc element refused (refused.node = true) (x.bufferControl entry refused) := by
  unfold bufferControl
  by_cases hnode : refused.node = true
  · rw [if_pos hnode]
    exact h.unchanged hnode .memoryLimitExceeded
  · rw [if_neg hnode]
    exact h.kept hlast hnode x.inMemoryBytes

omit h in
theorem reduceOption_left (thrown : Thrown) :
    (thrown.left : List (Option RB)).reduceOption = [] := by
  rcases thrown with _ | _ | _ | _ | _ | _ | (_ | (_ | _)) <;> rfl

omit h in
theorem none_mem_left {failure : SpillFailure}
    (hmem : none ∈ (Thrown.left (.spill failure) : List (Option RB))) :
    failure = .writeFails true := by
  rcases failure with _ | (_ | _) <;> simp_all [Thrown.left]

/-- What a failing write leaves does not count. -/
theorem Holds.left (thrown : Thrown) :
    ({ x with file := x.file ++ thrown.left } : Exchange RB W K D).Holds batcher acc := by
  have hfile : (x.file ++ thrown.left).reduceOption = x.file.reduceOption := by
    rw [List.reduceOption_append, reduceOption_left, List.append_nil]
  exact ⟨by simpa only [hfile] using h.stores, by simpa only [hfile] using h.fresh⟩

theorem Holds.spillBatch {b : B} {rb : RB} (hbuilt : batcher.build b = some rb)
    (refused : Refusals) (n : Nat) :
    Took batcher x acc (.data b) refused (refused.spill n ≠ none)
      (x.spillBatch rb (refused.spill n)) := by
  cases hspill : refused.spill n with
  | some failure =>
      refine ⟨fun _ => ⟨.spill failure, rfl, h.left _, ?_⟩, ?_, ?_⟩
      · exact fun hother => absurd rfl (hother failure)
      · exact fun hreturns => absurd (by simp) hreturns
      · intro hclean hintact hmem
        rcases List.mem_append.mp hmem with hmem | hmem
        · exact hintact hmem
        · rw [none_mem_left hmem] at hspill
          exact hclean n hspill
  | none =>
      refine ⟨fun hthrows => absurd rfl hthrows, fun _ => ⟨rfl, ?_, ?_⟩, ?_⟩
      · have hstores := h.stores.append (.spilled hbuilt .nil)
        simpa [Exchange.spillBatch, List.reduceOption_append] using hstores
      · exact fun hnone => absurd hnone (Nat.succ_ne_zero _)
      · intro _ hintact
        simpa [Exchange.spillBatch] using hintact

/-- Moving the resident data keeps the elements, whether a write stops it or not. -/
theorem Holds.migrated (hlawful : batcher.Lawful) (hnone : x.spilledBatches = 0)
    (refused : Refusals) :
    (x.migrated batcher refused.spill).1.Holds batcher acc ∧
    ((x.migrated batcher refused.spill).2 = none →
      (x.migrated batcher refused.spill).1.spilledBatches = residents x.entries ∧
      ∀ k < residents x.entries, refused.spill k = none) ∧
    (∀ thrown, (x.migrated batcher refused.spill).2 = some thrown →
      ∃ failure, thrown = .spill failure ∧
        ∃ k < residents x.entries, refused.spill k = some failure) ∧
    (refused.Clean → none ∉ x.file → none ∉ (x.migrated batcher refused.spill).1.file) := by
  obtain ⟨hstores, hdone, hstopped⟩ :=
    h.stores.migrate hlawful refused.spill (h.fresh hnone) 0
  simp only [Nat.zero_add] at hdone hstopped
  have hfile : (x.migrated batcher refused.spill).1.file.reduceOption =
      (migrate batcher refused.spill 0 x.entries).2.1 := by
    have hleft : (((migrate batcher refused.spill 0 x.entries).2.2.map Thrown.left).getD [] :
        List (Option RB)).reduceOption = [] := by
      cases (migrate batcher refused.spill 0 x.entries).2.2 with
      | none => rfl
      | some thrown => exact reduceOption_left thrown
    have hmoved : ∀ moved : List RB, (moved.map some).reduceOption = moved := by
      intro moved
      rw [List.reduceOption, List.filterMap_map]
      exact List.filterMap_some
    simp only [Exchange.migrated, List.reduceOption_append, h.fresh hnone, hleft, hmoved,
      List.nil_append, List.append_nil]
  refine ⟨⟨?_, ?_⟩, ?_, hstopped, ?_⟩
  · rw [hfile]
    exact hstores
  · intro hstill
    rw [hfile]
    exact List.length_eq_zero_iff.mp (Nat.add_eq_zero_iff.mp hstill).2
  · intro hreturns
    obtain ⟨hlength, hall⟩ := hdone hreturns
    refine ⟨?_, hall⟩
    simp only [Exchange.migrated, hnone, hlength, Nat.zero_add]
  · intro hclean hintact hmem
    simp only [Exchange.migrated, List.mem_append, List.mem_map] at hmem
    rcases hmem with (hmem | ⟨rb, -, hrb⟩) | hmem
    · exact hintact hmem
    · exact absurd hrb (by simp)
    · cases hend : (migrate batcher refused.spill 0 x.entries).2.2 with
      | none => simp [hend] at hmem
      | some thrown =>
          obtain ⟨failure, rfl, k, -, hfails⟩ := hstopped thrown hend
          rw [hend] at hmem
          rw [none_mem_left hmem] at hfails
          exact hclean k hfails

omit h in
theorem Took.congr {p q : Prop} {y : Exchange RB W K D × Option Thrown}
    (h : Took batcher x acc element refused p y) (hiff : q ↔ p) :
    Took batcher x acc element refused q y := by
  rw [hiff]
  exact h

theorem Holds.spillAll (hlawful : batcher.Lawful) (hnone : x.spilledBatches = 0) {b : B} {rb : RB}
    (hbuilt : batcher.build b = some rb) (refused : Refusals) :
    Took batcher x acc (.data b) refused (∃ n ≤ residents x.entries, refused.spill n ≠ none)
      (let y := x.migrated batcher refused.spill
      match y.2 with
      | some thrown => (y.1, some thrown)
      | none => y.1.spillBatch rb (refused.spill y.1.spilledBatches)) := by
  obtain ⟨hholds, hdone, hstopped, hintact⟩ := h.migrated hlawful hnone refused
  cases hend : (x.migrated batcher refused.spill).2 with
  | some thrown =>
      obtain ⟨failure, rfl, k, hk, hfails⟩ := hstopped thrown hend
      simp only [hend]
      refine ⟨fun _ => ⟨.spill failure, rfl, hholds, ?_⟩, fun hreturns => ?_, hintact⟩
      · exact fun hother => absurd rfl (hother failure)
      · exact absurd ⟨k, Nat.le_of_lt hk, by simp [hfails]⟩ hreturns
  | none =>
      obtain ⟨hcount, hall⟩ := hdone hend
      simp only [hend, hcount]
      have hlast := hholds.spillBatch hbuilt refused (residents x.entries)
      refine ⟨?_, ?_, fun hclean hfile => hlast.intact hclean (hintact hclean hfile)⟩
      · rintro ⟨n, hn, hfails⟩
        have hlastFails : refused.spill (residents x.entries) ≠ none := by
          rcases Nat.lt_or_eq_of_le hn with hlt | rfl
          · exact absurd (hall n hlt) hfails
          · exact hfails
        obtain ⟨thrown, hthrown, hheld, hsame⟩ := hlast.thrown hlastFails
        refine ⟨thrown, hthrown, hheld, fun hother => ?_⟩
        obtain ⟨failure, hfailure⟩ := Option.ne_none_iff_exists'.mp hlastFails
        rw [hfailure] at hthrown
        exact absurd (Option.some.inj hthrown).symm (hother failure)
      · intro hreturns
        apply hlast.taken
        exact fun hfails => hreturns ⟨_, Nat.le_refl _, hfails⟩

theorem Holds.data (hlawful : batcher.Lawful) (opts : Options) (b : B) (refused : Refusals) :
    Took batcher x acc (.data b) refused (Refuses batcher opts x refused (.data b))
      (x.bufferData batcher opts b refused) := by
  unfold bufferData
  cases hbuilt : batcher.build b with
  | none =>
      refine h.unchanged (.inr fun rb size hrb => ?_) .buildReturnedNull
      exact absurd (hbuilt.symm.trans hrb) (by simp)
  | some rb =>
      cases hsized : batcher.recordBatchSize rb with
      | none =>
          simp only [hsized]
          refine h.unchanged (.inr fun rb' size hrb hsize => ?_) .recordBatchSize
          cases hbuilt.symm.trans hrb
          exact absurd (hsized.symm.trans hsize) (by simp)
      | some size =>
          simp only [hsized]
          -- The batch and its size are these, so what is left to say is where it goes.
          have hrefuses : Refuses batcher opts x refused (.data b) ↔ refused.node = true ∨
              (2 ^ 64 ≤ x.inMemoryBytes + size ∨
              if opts.spillEnabled ∧
                  (x.spilledBatches ≠ 0 ∨ opts.spillThresholdBytes < x.inMemoryBytes + size) then
                refused.spill 0 ≠ none
              else batcher.serializeRecordBatch rb = none ∨ refused.bytes = true ∧
                (opts.spillEnabled = false ∨
                  ∃ n ≤ residents x.entries, refused.spill n ≠ none)) := by
            refine or_congr_right ⟨fun hall => hall rb size hbuilt hsized, ?_⟩
            rintro hwhere rb' size' hrb hsize
            cases hbuilt.symm.trans hrb
            cases hsized.symm.trans hsize
            exact hwhere
          refine Took.congr ?_ hrefuses
          by_cases hnode : refused.node = true
          · rw [if_pos hnode]
            exact h.unchanged (.inl hnode) .memoryLimitExceeded
          rw [if_neg hnode]
          by_cases hpast : 2 ^ 64 ≤ x.inMemoryBytes + size
          · rw [if_pos hpast]
            exact h.unchanged (.inr (.inl hpast)) .sizeOverflow
          rw [if_neg hpast]
          simp only [hnode, hpast, Bool.false_eq_true, false_or]
          by_cases hspill : opts.spillEnabled = true ∧
              (x.spilledBatches ≠ 0 ∨ opts.spillThresholdBytes < x.inMemoryBytes + size)
          · simp only [if_pos hspill]
            exact h.spillBatch hbuilt _ 0
          simp only [if_neg hspill]
          cases hbytes : batcher.serializeRecordBatch rb with
          | none => exact h.unchanged (.inl rfl) .serialize
          | some bytes =>
              simp only [reduceCtorEq, false_or]
              by_cases hrefused : refused.bytes = true
              · simp only [hrefused, if_true, true_and]
                by_cases henabled : opts.spillEnabled = true
                · have hnone : x.spilledBatches = 0 := by
                    by_contra hsome
                    exact hspill ⟨henabled, .inl hsome⟩
                  simp only [henabled, if_true, Bool.true_eq_false, false_or]
                  exact h.spillAll hlawful hnone hbuilt refused
                · rw [if_neg henabled]
                  exact h.unchanged (.inl (by simpa using henabled)) .memoryLimitExceeded
              · rw [if_neg hrefused]
                exact h.kept (.memory hbuilt hbytes .nil) (fun hboth => hrefused hboth.1) _

theorem Holds.process (hlawful : batcher.Lawful) (opts : Options)
    (element : StreamElement B W K D) (refused : Refusals) :
    Took batcher x acc element refused (Refuses batcher opts x refused element)
      ((x.process batcher opts element refused).1,
        (x.process batcher opts element refused).2.2) := by
  cases element with
  | data b => exact h.data hlawful opts b refused
  | watermark w => exact h.control (.watermark w .nil) refused
  | barrier k => exact h.control (.barrier k .nil) refused
  | drain d => exact h.control (.drain d .nil) refused

omit h in
theorem process_emits (opts : Options) (x : Exchange RB W K D) (element : StreamElement B W K D)
    (refused : Refusals) : (x.process batcher opts element refused).2.1 = [] := by
  cases element <;> rfl

/-! ## Runs of the exchange -/

omit h in
theorem emissions_eq (opts : Options) (x : Exchange RB W K D) (ins : Input B W K D) :
    emissions batcher opts x ins = [] := by
  induction ins generalizing x with
  | nil => rfl
  | cons i ins ih => simp [emissions, process_emits, ih]

theorem Holds.run (hlawful : batcher.Lawful) (opts : Options) (ins : Input B W K D) :
    (x.run batcher opts ins).Holds batcher (acc ++ accepted batcher opts x ins) ∧
    ((∀ i ∈ ins, i.2.Clean) → none ∉ x.file → none ∉ (x.run batcher opts ins).file) := by
  induction ins generalizing x acc with
  | nil => exact ⟨by simpa [Exchange.run, accepted] using h, fun _ hintact => hintact⟩
  | cons i ins ih =>
      have htook := h.process hlawful opts i.1 i.2
      simp only [Exchange.run, List.foldl_cons, accepted] at ih ⊢
      have hintact : (∀ i' ∈ i :: ins, i'.2.Clean) → none ∉ x.file →
          none ∉ (x.process batcher opts i.1 i.2).1.file :=
        fun hclean => htook.intact (hclean i List.mem_cons_self)
      by_cases hrefuses : Refuses batcher opts x i.2 i.1
      · obtain ⟨thrown, hthrown, hheld, -⟩ := htook.thrown hrefuses
        obtain ⟨hrest, hkeeps⟩ := ih hheld
        have hne : (x.process batcher opts i.1 i.2).2.2 ≠ none :=
          Option.ne_none_iff_exists'.mpr ⟨thrown, hthrown⟩
        rw [if_neg hne]
        exact ⟨hrest, fun hclean hfile =>
          hkeeps (fun i' hi => hclean i' (List.mem_cons_of_mem i hi)) (hintact hclean hfile)⟩
      · obtain ⟨hreturned, hheld⟩ := htook.taken hrefuses
        obtain ⟨hrest, hkeeps⟩ := ih hheld
        rw [if_pos hreturned]
        refine ⟨by simpa using hrest, fun hclean hfile => ?_⟩
        exact hkeeps (fun i' hi => hclean i' (List.mem_cons_of_mem i hi)) (hintact hclean hfile)

end

theorem holds_empty : ({} : Exchange RB W K D).Holds batcher [] := ⟨.nil, fun _ => rfl⟩

/-- Nothing is emitted before the flush, and the flush emits the elements whose call returned,
in their order and each once; after a torn write it emits a first part of them.  A call throws
exactly where `Refuses` says.  It leaves the exchange as it was unless a write failed, and then
too the flush emits the same. -/
theorem flush_replays (hlawful : batcher.Lawful) (opts : Options) (ins : Input B W K D) :
    emissions batcher opts {} ins = [] ∧
    (flush batcher (run batcher opts {} ins)).1 <+: accepted batcher opts {} ins ∧
    ((∀ i ∈ ins, i.2.Clean) →
      flush batcher (run batcher opts {} ins) = (accepted batcher opts {} ins, true)) ∧
    ∀ element refused,
      let x := run batcher opts {} ins
      let y := x.process batcher opts element refused
      (y.2.2 ≠ none ↔ Refuses batcher opts x refused element) ∧
      (∀ thrown, y.2.2 = some thrown → ((∀ failure, thrown ≠ .spill failure) → y.1 = x) ∧
        ((∀ i ∈ ins, i.2.Clean) → refused.Clean → flush batcher y.1 = flush batcher x)) := by
  obtain ⟨hholds, hintact⟩ := (holds_empty (W := W) (K := K) (D := D)).run hlawful opts ins
  rw [List.nil_append] at hholds
  obtain ⟨hstart, hwhole⟩ := hholds.stores.replay_eq hlawful rfl
  refine ⟨emissions_eq opts {} ins, hstart, ?_, fun element refused => ?_⟩
  · exact fun hclean => hwhole (hintact hclean List.not_mem_nil)
  have htook := hholds.process hlawful opts element refused
  have hthrows : Refuses batcher opts (run batcher opts {} ins) refused element ↔
      ((run batcher opts {} ins).process batcher opts element refused).2.2 ≠ none := by
    constructor
    · intro hrefuses
      obtain ⟨thrown, hthrown, -⟩ := htook.thrown hrefuses
      exact Option.ne_none_iff_exists'.mpr ⟨thrown, hthrown⟩
    · intro hthrown
      by_contra hreturns
      exact hthrown (htook.taken hreturns).1
  refine ⟨hthrows.symm, fun thrown hthrown => ?_⟩
  obtain ⟨thrown', hthrown', hheld, hsame⟩ :=
    htook.thrown (hthrows.mpr (Option.ne_none_iff_exists'.mpr ⟨thrown, hthrown⟩))
  cases hthrown.symm.trans hthrown'
  refine ⟨hsame, fun hclean hrefused => ?_⟩
  have hfile := hintact hclean List.not_mem_nil
  exact ((hheld.stores.replay_eq hlawful rfl).2 (htook.intact hrefused hfile)).trans
    (hwhole hfile).symm

/-- Batches of bytes, sent as they are behind one byte. -/
def bytesBatcher : Batcher (List UInt8) (List UInt8) where
  build b := some b
  parse rb := some rb
  recordBatchSize rb := some (rb.length + 1)
  serializeRecordBatch rb := some (255 :: rb)
  readBytes
    | 255 :: rb => some rb
    | _ => none

theorem bytesBatcher_lawful : bytesBatcher.Lawful where
  parse := fun _ _ hbuilt => hbuilt.symm
  read := by
    rintro rb bytes ⟨⟩
    rfl

/-- Two batches and a watermark, then batches whose bytes are refused: at the first of them
the second write fails, so that one batch stays in memory and the call throws; the next goes to
the file begun then. -/
def refusedThird : Input (List UInt8) Nat Nat Nat :=
  [(.data [1], {}), (.watermark 5, {}), (.data [2], {}),
    (.data [3],
      { bytes := true, spill := fun n => if n = 1 then some (.writeFails false) else none }),
    (.barrier 7, {}), (.data [4], { bytes := true }), (.drain 0, { node := true })]

theorem flush_replays_refusedThird :
    flush bytesBatcher (run bytesBatcher { spillEnabled := true } {} refusedThird) =
      ([.data [1], .watermark 5, .data [2], .barrier 7, .data [4]], true) := by
  have hclean : ∀ i ∈ refusedThird, i.2.Clean := by
    intro i hi n
    simp only [refusedThird, List.mem_cons, List.not_mem_nil, or_false] at hi
    rcases hi with rfl | rfl | rfl | rfl | rfl | rfl | rfl <;> simp
  have hreplays := flush_replays bytesBatcher_lawful { spillEnabled := true } refusedThird
  rw [hreplays.2.2.1 hclean]
  decide

/-- Without a spill directory a batch whose bytes are refused is not emitted. -/
theorem refused_batch_not_replayed :
    let ins : Input (List UInt8) Nat Nat Nat := [(.data [1], { bytes := true })]
    bytesBatcher.Lawful ∧
    (flush bytesBatcher (run bytesBatcher {} ({} : Exchange (List UInt8) Nat Nat Nat) ins)).1 ≠
      ins.map Prod.fst := by
  refine ⟨bytesBatcher_lawful, ?_⟩
  decide

end Exchange

end Clink.Ports.BlockingExchange

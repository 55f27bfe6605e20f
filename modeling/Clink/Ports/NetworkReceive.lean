import Clink.Ports.Time
import Clink.Verified.BigEndian

/-!
# The receive paths of a data connection

The embedding of `include/clink/runtime/network/wire.hpp`, of
`NetworkChannelSource::recv_loop_` and of
`NetworkChannelSink::credit_reader_loop_`
(`include/clink/runtime/network/network_channel.hpp`).  A peer sends any bytes;
the loops cut them into frames, allocate a body for each and act on its kind.
What lies in memory behind a body is a parameter (`beyond`), and a pass over a
frame records the size it allocated and every offset of the body it read.

`recv_loop_` reads eight bytes behind the kind byte of a watermark, barrier or
drain frame without looking at the frame's length.  It stays inside its frames
exactly on the byte sequences in which no such frame is shorter than nine bytes.
-/

namespace Clink.Ports.NetworkChannel

open Clink.Verified
open Clink.Ports.Time

/-! ## The wire -/

inductive Kind
  | data
  | watermark
  | barrier
  | close
  | creditUpdate
  | terminal
  | watermarkIdle
  | arrowBatch
  | drain
  deriving DecidableEq, Repr

/-- The enumerator's value. -/
def Kind.byte : Kind → UInt8
  | .data => 0
  | .watermark => 1
  | .barrier => 2
  | .close => 3
  | .creditUpdate => 4
  | .terminal => 5
  | .watermarkIdle => 6
  | .arrowBatch => 7
  | .drain => 8

/-- The enumerator a byte is cast to; a byte that names none selects no case. -/
def Kind.ofByte (b : UInt8) : Option Kind :=
  if b = 0 then some .data
  else if b = 1 then some .watermark
  else if b = 2 then some .barrier
  else if b = 3 then some .close
  else if b = 4 then some .creditUpdate
  else if b = 5 then some .terminal
  else if b = 6 then some .watermarkIdle
  else if b = 7 then some .arrowBatch
  else if b = 8 then some .drain
  else none

@[simp] theorem Kind.ofByte_byte (kind : Kind) : Kind.ofByte kind.byte = some kind := by
  cases kind <;> rfl

variable {b : UInt8}

theorem Kind.byte_of_ofByte {kind : Kind} (h : Kind.ofByte b = some kind) : b = kind.byte := by
  unfold Kind.ofByte at h
  repeat' split at h
  all_goals
    cases h
    try assumption

def kInitialNetworkCredit : Nat := 2048

def kMaxRecordsPerFrame : Nat := kInitialNetworkCredit / 2

def kMaxFrameBytes : Nat := 256 * 1024 * 1024

def putU32BE (v : UInt32) : List UInt8 := putBE 4 v.toNat

def putU64BE (v : UInt64) : List UInt8 := putBE 8 v.toNat

/-- `put_i64_be`: the count as an unsigned one, modulo two to the 64. -/
def putI64BE (t : EventTime) : List UInt8 := putBE 8 (t.millis % 2 ^ 64).toNat

def readU32BE (bytes : List UInt8) : UInt32 := UInt32.ofNat (readBE bytes)

def readU64BE (bytes : List UInt8) : UInt64 := UInt64.ofNat (readBE bytes)

/-- The cast of an unsigned 64-bit count to a signed one: the upper half is negative. -/
def toInt64 (n : Nat) : Int := (n : Int).bmod (2 ^ 64)

theorem le_toInt64 (n : Nat) : -2 ^ 63 ≤ toInt64 n := by
  have := Int.le_bmod (x := (n : Int)) (m := 2 ^ 64) (by decide)
  unfold toInt64
  omega

theorem toInt64_le (n : Nat) : toInt64 n ≤ 2 ^ 63 - 1 := by
  have := Int.bmod_lt (x := (n : Int)) (m := 2 ^ 64) (by decide)
  unfold toInt64
  omega

def readI64BE (bytes : List UInt8) : EventTime :=
  ⟨toInt64 (readBE bytes), le_toInt64 _, toInt64_le _⟩

/-! ## Elements and batches -/

/-- `CheckpointBarrier`; the mode is an enumeration over a byte, any value of
which a cast produces. -/
structure CheckpointBarrier where
  id : UInt64
  terminal : Bool
  mode : UInt8
  deriving DecidableEq

/-- `Mode::Aligned`. -/
def aligned : UInt8 := 0

/-- `Mode::Unaligned`. -/
def unaligned : UInt8 := 1

structure DrainMarker where
  subtaskIdx : UInt32
  targetParallelism : UInt32
  deriving DecidableEq

inductive StreamElement (R : Type)
  | data (batch : List R)
  | watermark (wm : Watermark)
  | barrier (b : CheckpointBarrier)
  | drain (d : DrainMarker)

/-- The Arrow side: a batch as a record batch and as IPC bytes. -/
structure ArrowBatcher (R : Type) where
  RecordBatch : Type
  build : List R → Option RecordBatch
  toIpc : RecordBatch → List UInt8
  fromIpc : List UInt8 → Option RecordBatch
  schemaMatches : RecordBatch → Bool
  parse : RecordBatch → Option (List R)

variable {R : Type} (batcher : ArrowBatcher R)

inductive ChannelCloseReason
  | finished
  | cancelled
  deriving DecidableEq, Repr

/-! ## One frame of `recv_loop_` -/

/-- What becomes of a frame. -/
inductive Outcome (R : Type)
  | deliver (el : StreamElement R)
  | ignore
  | close (reason : ChannelCloseReason) (failure : Option String)

/-- The byte at an offset of a body, or what memory holds behind it. -/
def load (beyond : Nat → UInt8) (body : List UInt8) (i : Nat) : UInt8 :=
  body[i]?.getD (beyond i)

/-- The bytes a read of `n` bytes at `pos` sees. -/
def loadBytes (beyond : Nat → UInt8) (body : List UInt8) (pos n : Nat) : List UInt8 :=
  (List.range' pos n).map (load beyond body)

/-- `arrow_batch_from_ipc`, the schema check and `parse`. -/
def parseArrow (ipc : List UInt8) : Except String (List R) :=
  match batcher.fromIpc ipc with
  | none => .error "Arrow IPC payload undecodable"
  | some recordBatch =>
      if batcher.schemaMatches recordBatch = false then .error "Arrow schema mismatch"
      else
        match batcher.parse recordBatch with
        | none => .error "batch parse failed"
        | some batch => .ok batch

/-- The mode byte behind the id, where the frame is long enough for one. -/
def barrierMode (beyond : Nat → UInt8) (body : List UInt8) : UInt8 :=
  if 1 + 8 + 1 ≤ body.length then load beyond body (1 + 8) else aligned

/-- The offsets the barrier cases read. -/
def barrierReads (body : List UInt8) : List Nat :=
  List.range' 1 8 ++ if 1 + 8 + 1 ≤ body.length then [1 + 8] else []

/-- The switch of `recv_loop_`: what becomes of a body, and the offsets read
behind the kind byte. -/
def recvSwitch (beyond : Nat → UInt8) (body : List UInt8) : Option Kind → Outcome R × List Nat
  | some .data => (.close .cancelled (some "legacy Data frame kind"), [])
  | some .arrowBatch =>
      let reads := List.range' 1 (body.length - 1)
      match parseArrow batcher (loadBytes beyond body 1 (body.length - 1)) with
      | .error reason => (.close .cancelled (some reason), reads)
      | .ok batch => (.deliver (.data batch), reads)
  | some .watermark =>
      (.deliver (.watermark ⟨readI64BE (loadBytes beyond body 1 8), false⟩), List.range' 1 8)
  | some .watermarkIdle =>
      (.deliver (.watermark (.idle (readI64BE (loadBytes beyond body 1 8)))), List.range' 1 8)
  | some .barrier =>
      (.deliver (.barrier ⟨readU64BE (loadBytes beyond body 1 8), false,
        barrierMode beyond body⟩), barrierReads body)
  | some .terminal =>
      (.deliver (.barrier ⟨readU64BE (loadBytes beyond body 1 8), true,
        barrierMode beyond body⟩), barrierReads body)
  | some .creditUpdate => (.ignore, [])
  | some .drain =>
      (.deliver (.drain ⟨readU32BE (loadBytes beyond body 1 4),
        readU32BE (loadBytes beyond body 5 4)⟩), List.range' 1 4 ++ List.range' 5 4)
  | some .close =>
      -- The reason is looked for in the first byte, which is the kind.
      (.close (if body ≠ [] ∧ load beyond body 0 = 1 then .cancelled else .finished) none, [0])
  | none => (.ignore, [])

def recvFrame (beyond : Nat → UInt8) (body : List UInt8) : Outcome R × List Nat :=
  let result := recvSwitch batcher beyond body (Kind.ofByte (load beyond body 0))
  (result.1, 0 :: result.2)

/-! ## The loops -/

/-- `NetworkSocket::recv_all`: exactly `n` bytes, or failure at the end of the
stream. -/
def recvAll (n : Nat) (stream : List UInt8) : Option (List UInt8 × List UInt8) :=
  if stream.length < n then none else some (stream.take n, stream.drop n)

/-- How one turn of a receive loop begins. -/
inductive FrameHead
  | endOfStream
  | corrupt
  | truncated (frameLen : Nat)
  | frame (body rest : List UInt8)

/-- The header, the length check, the allocation and the body. -/
def recvHead (stream : List UInt8) : FrameHead :=
  match recvAll 4 stream with
  | none => .endOfStream
  | some (header, rest) =>
      let frameLen := (readU32BE header).toNat
      if frameLen = 0 ∨ frameLen > kMaxFrameBytes then .corrupt
      else
        match recvAll frameLen rest with
        | none => .truncated frameLen
        | some (body, rest) => .frame body rest

/-- A frame as a loop met it: the body it allocated room for, the offsets of it
that were read, and what became of it. -/
structure FrameLog (ω : Type) where
  allocated : Nat
  body : List UInt8
  reads : List Nat
  outcome : ω

/-- How `recv_loop_` left: the frames it met and the close it made. -/
structure Received (R : Type) where
  frames : List (FrameLog (Outcome R))
  reason : ChannelCloseReason
  failure : Option String

def Received.cons (log : FrameLog (Outcome R)) (tail : Received R) : Received R :=
  { tail with frames := log :: tail.frames }

/-- `recv_loop_` behind the accept.  `accepts` is what the local channel answers
to a push after a number of earlier ones: the owner may close it at any time. -/
def recvLoop (beyond : Nat → UInt8) (accepts : Nat → Bool) :
    Nat → Nat → List UInt8 → Received R
  | 0, _, _ => ⟨[], .cancelled, none⟩
  | fuel + 1, pushed, stream =>
      match recvHead stream with
      | .endOfStream => ⟨[], .cancelled, none⟩
      | .corrupt => ⟨[], .cancelled, some "frame length corrupt"⟩
      | .truncated frameLen =>
          ⟨[⟨frameLen, [], [], .close .cancelled (some "frame truncated mid-body")⟩],
            .cancelled, some "frame truncated mid-body"⟩
      | .frame body rest =>
          let result := recvFrame batcher beyond body
          let log := ⟨body.length, body, result.2, result.1⟩
          match result.1 with
          | .close reason failure => ⟨[log], reason, failure⟩
          | .ignore => (recvLoop beyond accepts fuel pushed rest).cons log
          | .deliver _ =>
              if accepts pushed then (recvLoop beyond accepts fuel (pushed + 1) rest).cons log
              else ⟨[{ log with outcome := .close .cancelled none }], .cancelled, none⟩

/-- Every turn takes at least the five bytes of a header and a kind. -/
def receive (beyond : Nat → UInt8) (accepts : Nat → Bool) (stream : List UInt8) : Received R :=
  recvLoop batcher beyond accepts (stream.length + 1) 0 stream

/-- What `credit_reader_loop_` makes of a frame: the credit it grants, if any. -/
def creditFrame (beyond : Nat → UInt8) (body : List UInt8) : Option UInt32 × List Nat :=
  if Kind.ofByte (load beyond body 0) = some .creditUpdate ∧ 5 ≤ body.length then
    (some (readU32BE (loadBytes beyond body 1 4)), 0 :: List.range' 1 4)
  else (none, [0])

/-- `credit_reader_loop_`: the frames it met; every way out closes. -/
def creditReaderLoop (beyond : Nat → UInt8) :
    Nat → List UInt8 → List (FrameLog (Option UInt32))
  | 0, _ => []
  | fuel + 1, stream =>
      match recvHead stream with
      | .endOfStream => []
      | .corrupt => []
      | .truncated frameLen => [⟨frameLen, [], [], none⟩]
      | .frame body rest =>
          let result := creditFrame beyond body
          ⟨body.length, body, result.2, result.1⟩ :: creditReaderLoop beyond fuel rest

def readCredits (beyond : Nat → UInt8) (stream : List UInt8) : List (FrameLog (Option UInt32)) :=
  creditReaderLoop beyond (stream.length + 1) stream

/-! ## What a frame encodes -/

/-- The frame formats of `wire.hpp`: a body encodes an element of the forward
stream. -/
inductive Encodes : List UInt8 → StreamElement R → Prop
  | data {ipc batch} : parseArrow batcher ipc = .ok batch →
      Encodes (Kind.arrowBatch.byte :: ipc) (.data batch)
  | watermark (t rest) : Encodes (Kind.watermark.byte :: putI64BE t ++ rest) (.watermark ⟨t, false⟩)
  | watermarkIdle (t rest) :
      Encodes (Kind.watermarkIdle.byte :: putI64BE t ++ rest) (.watermark (.idle t))
  | legacyBarrier (id) : Encodes (Kind.barrier.byte :: putU64BE id) (.barrier ⟨id, false, aligned⟩)
  | barrier (id mode rest) :
      Encodes (Kind.barrier.byte :: putU64BE id ++ mode :: rest) (.barrier ⟨id, false, mode⟩)
  | legacyTerminal (id) : Encodes (Kind.terminal.byte :: putU64BE id) (.barrier ⟨id, true, aligned⟩)
  | terminal (id mode rest) :
      Encodes (Kind.terminal.byte :: putU64BE id ++ mode :: rest) (.barrier ⟨id, true, mode⟩)
  | drain (idx target rest) :
      Encodes (Kind.drain.byte :: putU32BE idx ++ putU32BE target ++ rest) (.drain ⟨idx, target⟩)

/-- The frame format of the reverse stream: a body grants credit. -/
inductive Grants : List UInt8 → UInt32 → Prop
  | creditUpdate (delta rest) : Grants (Kind.creditUpdate.byte :: putU32BE delta ++ rest) delta

/-! ### Reading inside a body -/

@[simp] theorem readU32BE_putU32BE (v : UInt32) : readU32BE (putU32BE v) = v := by
  have hlt : v.toNat < 256 ^ 4 := v.toNat_lt
  rw [readU32BE, putU32BE, readBE_putBE hlt]
  simp

@[simp] theorem readU64BE_putU64BE (v : UInt64) : readU64BE (putU64BE v) = v := by
  have hlt : v.toNat < 256 ^ 8 := v.toNat_lt
  rw [readU64BE, putU64BE, readBE_putBE hlt]
  simp

theorem millis_readI64BE (bytes : List UInt8) :
    (readI64BE bytes).millis = toInt64 (readBE bytes) := by
  rw [readI64BE]

theorem toInt64_toNat {v : Int} (hlower : -2 ^ 63 ≤ v) (hupper : v ≤ 2 ^ 63 - 1) :
    toInt64 (v % 2 ^ 64).toNat = v := by
  have hcast : (((v % 2 ^ 64).toNat : Nat) : Int) = v % (2 ^ 64 : Nat) := by omega
  have hwrap : v.bmod (2 ^ 64) = v := by
    rw [Int.bmod_eq_of_le] <;> omega
  unfold toInt64
  rw [hcast, Int.emod_bmod]
  exact hwrap

@[simp] theorem readI64BE_putI64BE (t : EventTime) : readI64BE (putI64BE t) = t := by
  have hlt : (t.millis % 2 ^ 64).toNat < 256 ^ 8 := by omega
  apply EventTime.millis_injective
  rw [millis_readI64BE, putI64BE, readBE_putBE hlt]
  exact toInt64_toNat t.lower t.upper

variable {bytes : List UInt8}

theorem putU32BE_readU32BE (h : bytes.length = 4) : putU32BE (readU32BE bytes) = bytes := by
  have hlt := readBE_lt bytes
  have hput := putBE_readBE bytes
  rw [h] at hlt hput
  rw [putU32BE, readU32BE, UInt32.toNat_ofNat', Nat.mod_eq_of_lt (by simpa using hlt), hput]

theorem putU64BE_readU64BE (h : bytes.length = 8) : putU64BE (readU64BE bytes) = bytes := by
  have hlt := readBE_lt bytes
  have hput := putBE_readBE bytes
  rw [h] at hlt hput
  rw [putU64BE, readU64BE, UInt64.toNat_ofNat', Nat.mod_eq_of_lt (by simpa using hlt), hput]

theorem putI64BE_readI64BE (h : bytes.length = 8) : putI64BE (readI64BE bytes) = bytes := by
  have hlt := readBE_lt bytes
  have hput := putBE_readBE bytes
  rw [h] at hlt hput
  have hmod : toInt64 (readBE bytes) % (2 ^ 64 : Nat) = readBE bytes % (2 ^ 64 : Nat) :=
    Int.bmod_emod
  have hcast : (toInt64 (readBE bytes) % 2 ^ 64).toNat = readBE bytes := by omega
  rw [putI64BE, millis_readI64BE, hcast, hput]

@[simp] theorem load_zero (beyond : Nat → UInt8) (b : UInt8) (bytes : List UInt8) :
    load beyond (b :: bytes) 0 = b := rfl

/-- A read of bytes that are all in the body sees these. -/
theorem loadBytes_eq (beyond : Nat → UInt8) (front bytes rest : List UInt8) :
    loadBytes beyond (front ++ bytes ++ rest) front.length bytes.length = bytes := by
  induction bytes generalizing front with
  | nil => rfl
  | cons b bytes ih =>
      have hhead : load beyond (front ++ b :: bytes ++ rest) front.length = b := by
        simp [load]
      have htail := ih (front ++ [b])
      rw [List.length_append, List.length_singleton] at htail
      have hassoc : front ++ [b] ++ bytes ++ rest = front ++ b :: bytes ++ rest := by simp
      rw [hassoc] at htail
      rw [List.length_cons, loadBytes, List.range'_succ, List.map_cons, hhead]
      exact congrArg (b :: ·) htail

theorem loadBytes_tail (beyond : Nat → UInt8) (b : UInt8) (bytes : List UInt8) :
    loadBytes beyond (b :: bytes) 1 ((b :: bytes).length - 1) = bytes := by
  have h := loadBytes_eq beyond [b] bytes []
  rw [List.append_nil] at h
  exact h

/-- A body of nine bytes or more: the kind byte, eight bytes and the rest. -/
theorem split_body (h : 9 ≤ (b :: bytes).length) :
    ∃ word rest, bytes = word ++ rest ∧ word.length = 8 := by
  refine ⟨bytes.take 8, bytes.drop 8, (List.take_append_drop 8 bytes).symm, ?_⟩
  rw [List.length_cons] at h
  rw [List.length_take]
  omega

theorem loadBytes_word (beyond : Nat → UInt8) (b : UInt8) {word : List UInt8} (rest : List UInt8)
    (h : word.length = 8) : loadBytes beyond (b :: (word ++ rest)) 1 8 = word := by
  have hload := loadBytes_eq beyond [b] word rest
  rw [h] at hload
  exact hload

theorem loadBytes_pair (beyond : Nat → UInt8) (b : UInt8) {first second : List UInt8}
    (rest : List UInt8) (hfirst : first.length = 4) (hsecond : second.length = 4) :
    loadBytes beyond (b :: (first ++ second ++ rest)) 1 4 = first ∧
      loadBytes beyond (b :: (first ++ second ++ rest)) 5 4 = second := by
  have hload := loadBytes_eq beyond [b] first (second ++ rest)
  have hnext := loadBytes_eq beyond (b :: first) second rest
  rw [hfirst, ← List.append_assoc, List.append_assoc [b]] at hload
  rw [List.length_cons, hfirst, hsecond] at hnext
  exact ⟨hload, hnext⟩

/-! ## Frames that are long enough -/

/-- The kinds whose case reads eight bytes behind the kind byte. -/
def Kind.carriesEight : Kind → Bool
  | .watermark | .watermarkIdle | .barrier | .terminal | .drain => true
  | _ => false

/-- A frame of such a kind that ends before its eight bytes do. -/
def short : List UInt8 → Bool
  | [] => false
  | b :: bytes => (Kind.ofByte b).any Kind.carriesEight && decide ((b :: bytes).length < 9)

/-- A frame that ends the connection: a `Data` or `Close` frame, or a batch that
does not decode. -/
def endsConnection : List UInt8 → Bool
  | [] => false
  | b :: bytes =>
      match Kind.ofByte b with
      | some .data => true
      | some .close => true
      | some .arrowBatch =>
          match parseArrow batcher bytes with
          | .error _ => true
          | .ok _ => false
      | _ => false

/-- No frame is short, up to the one that ends the connection. -/
def LongEnough : List (List UInt8) → Prop
  | [] => True
  | body :: rest => short body = false ∧ (endsConnection batcher body = false → LongEnough rest)

/-- The frames of a byte sequence, up to its first corrupt length. -/
def framesOf : Nat → List UInt8 → List (List UInt8)
  | 0, _ => []
  | fuel + 1, stream =>
      match recvHead stream with
      | .frame body rest => body :: framesOf fuel rest
      | _ => []

def frames (stream : List UInt8) : List (List UInt8) := framesOf (stream.length + 1) stream

/-! ### One frame -/

theorem short_iff {kind : Kind} (bytes : List UInt8) (h : Kind.ofByte b = some kind) :
    short (b :: bytes) = true ↔ kind.carriesEight = true ∧ (b :: bytes).length < 9 := by
  rw [short, h]
  simp

theorem nine_le {kind : Kind} (hkind : Kind.ofByte b = some kind)
    (height : kind.carriesEight = true) (hshort : short (b :: bytes) = false) :
    9 ≤ (b :: bytes).length := by
  by_contra hlt
  have hyes := (short_iff bytes hkind).mpr ⟨height, by omega⟩
  rw [hyes] at hshort
  exact absurd hshort (by decide)

variable {body : List UInt8}

theorem lt_of_mem_barrierReads {i : Nat} (hlen : 9 ≤ body.length) (h : i ∈ barrierReads body) :
    i < body.length := by
  rw [barrierReads, List.mem_append, List.mem_range'_1] at h
  split at h <;> simp at h <;> omega

/-- Where a frame is not short, every offset read lies in its body. -/
theorem recvFrame_reads (beyond : Nat → UInt8) {i : Nat} (hshort : short (b :: bytes) = false)
    (hi : i ∈ (recvFrame batcher beyond (b :: bytes)).2) : i < (b :: bytes).length := by
  rw [recvFrame, load_zero, List.mem_cons] at hi
  rcases hi with rfl | hi
  · exact Nat.succ_pos _
  · cases hkind : Kind.ofByte b with
    | none => simp [recvSwitch, hkind] at hi
    | some kind =>
        rw [hkind] at hi
        have hnine := fun height => nine_le hkind height hshort
        cases kind with
        | arrowBatch =>
            have hrange : i ∈ List.range' 1 ((b :: bytes).length - 1) := by
              simp only [recvSwitch] at hi
              split at hi <;> exact hi
            rw [List.mem_range'_1] at hrange
            omega
        | data => simp [recvSwitch] at hi
        | creditUpdate => simp [recvSwitch] at hi
        | close => simp [recvSwitch] at hi; subst hi; exact Nat.succ_pos _
        | watermark =>
            rw [recvSwitch, List.mem_range'_1] at hi
            have := hnine rfl
            omega
        | watermarkIdle =>
            rw [recvSwitch, List.mem_range'_1] at hi
            have := hnine rfl
            omega
        | drain =>
            rw [recvSwitch, List.mem_append, List.mem_range'_1, List.mem_range'_1] at hi
            have := hnine rfl
            omega
        | barrier => exact lt_of_mem_barrierReads (hnine rfl) hi
        | terminal => exact lt_of_mem_barrierReads (hnine rfl) hi

theorem recvFrame_reads_beyond (beyond : Nat → UInt8) (hshort : short (b :: bytes) = true) :
    8 ∈ (recvFrame batcher beyond (b :: bytes)).2 ∧ (b :: bytes).length ≤ 8 := by
  cases hkind : Kind.ofByte b with
  | none => simp [short, hkind] at hshort
  | some kind =>
      obtain ⟨height, hlen⟩ := (short_iff bytes hkind).mp hshort
      refine ⟨?_, by omega⟩
      rw [recvFrame, load_zero, hkind]
      cases kind <;> first
        | exact absurd height (by decide)
        | simp [recvSwitch, barrierReads, List.mem_range'_1]

@[simp] theorem length_putU64BE (v : UInt64) : (putU64BE v).length = 8 := length_putBE 8 _

@[simp] theorem length_putU32BE (v : UInt32) : (putU32BE v).length = 4 := length_putBE 4 _

@[simp] theorem length_putI64BE (t : EventTime) : (putI64BE t).length = 8 := length_putBE 8 _

theorem barrierMode_nil (beyond : Nat → UInt8) (b : UInt8) (id : UInt64) :
    barrierMode beyond (b :: (putU64BE id ++ [])) = aligned := by
  rw [barrierMode, if_neg]
  simp

theorem barrierMode_cons (beyond : Nat → UInt8) (b mode : UInt8) (id : UInt64)
    (rest : List UInt8) : barrierMode beyond (b :: (putU64BE id ++ mode :: rest)) = mode := by
  rw [barrierMode, if_pos (by simp; omega), load]
  rw [← List.cons_append, List.getElem?_append_right (by simp)]
  simp

theorem recvFrame_deliver (beyond : Nat → UInt8) {el : StreamElement R}
    (hshort : short (b :: bytes) = false)
    (h : (recvFrame batcher beyond (b :: bytes)).1 = .deliver el) :
    Encodes batcher (b :: bytes) el := by
  rw [recvFrame, load_zero] at h
  cases hkind : Kind.ofByte b with
  | none => simp [recvSwitch, hkind] at h
  | some kind =>
      rw [hkind] at h
      obtain rfl := Kind.byte_of_ofByte hkind
      have hnine := fun height => nine_le hkind height hshort
      cases kind with
      | data => simp [recvSwitch] at h
      | creditUpdate => simp [recvSwitch] at h
      | close => simp [recvSwitch] at h
      | arrowBatch =>
          rw [recvSwitch, loadBytes_tail] at h
          cases hparse : parseArrow batcher bytes with
          | error reason => simp [hparse] at h
          | ok batch =>
              simp only [hparse, Outcome.deliver.injEq] at h
              rw [← h]
              exact .data hparse
      | watermark =>
          obtain ⟨word, rest, rfl, hword⟩ := split_body (hnine rfl)
          simp only [recvSwitch, loadBytes_word beyond _ rest hword, Outcome.deliver.injEq] at h
          rw [← h, ← List.cons_append, ← putI64BE_readI64BE hword, readI64BE_putI64BE]
          exact .watermark _ rest
      | watermarkIdle =>
          obtain ⟨word, rest, rfl, hword⟩ := split_body (hnine rfl)
          simp only [recvSwitch, loadBytes_word beyond _ rest hword, Outcome.deliver.injEq] at h
          rw [← h, ← List.cons_append, ← putI64BE_readI64BE hword, readI64BE_putI64BE]
          exact .watermarkIdle _ rest
      | barrier =>
          obtain ⟨word, rest, rfl, hword⟩ := split_body (hnine rfl)
          simp only [recvSwitch, loadBytes_word beyond _ rest hword, Outcome.deliver.injEq] at h
          rw [← h, ← putU64BE_readU64BE hword, readU64BE_putU64BE]
          cases rest with
          | nil =>
              rw [barrierMode_nil, List.append_nil]
              exact .legacyBarrier _
          | cons mode rest =>
              rw [barrierMode_cons]
              exact .barrier _ mode rest
      | terminal =>
          obtain ⟨word, rest, rfl, hword⟩ := split_body (hnine rfl)
          simp only [recvSwitch, loadBytes_word beyond _ rest hword, Outcome.deliver.injEq] at h
          rw [← h, ← putU64BE_readU64BE hword, readU64BE_putU64BE]
          cases rest with
          | nil =>
              rw [barrierMode_nil, List.append_nil]
              exact .legacyTerminal _
          | cons mode rest =>
              rw [barrierMode_cons]
              exact .terminal _ mode rest
      | drain =>
          obtain ⟨word, rest, rfl, hword⟩ := split_body (hnine rfl)
          obtain ⟨idx, target, rfl, hidx, htarget⟩ : ∃ idx target, word = idx ++ target ∧
              idx.length = 4 ∧ target.length = 4 :=
            ⟨word.take 4, word.drop 4, (List.take_append_drop 4 word).symm, by simp [hword],
              by simp [hword]⟩
          obtain ⟨hfirst, hsecond⟩ := loadBytes_pair beyond Kind.drain.byte rest hidx htarget
          simp only [recvSwitch, hfirst, hsecond, Outcome.deliver.injEq] at h
          rw [← h, ← putU32BE_readU32BE hidx, ← putU32BE_readU32BE htarget, readU32BE_putU32BE,
            readU32BE_putU32BE]
          exact .drain _ _ rest

theorem recvFrame_of_encodes (beyond : Nat → UInt8) {el : StreamElement R}
    (h : Encodes batcher body el) : (recvFrame batcher beyond body).1 = .deliver el := by
  cases h with
  | @data ipc batch hparse =>
      rw [recvFrame, load_zero, Kind.ofByte_byte]
      simp only [recvSwitch]
      rw [loadBytes_tail, hparse]
  | watermark t rest =>
      rw [recvFrame, List.cons_append, load_zero, Kind.ofByte_byte]
      simp only [recvSwitch]
      rw [loadBytes_word beyond _ rest (length_putI64BE t), readI64BE_putI64BE]
  | watermarkIdle t rest =>
      rw [recvFrame, List.cons_append, load_zero, Kind.ofByte_byte]
      simp only [recvSwitch]
      rw [loadBytes_word beyond _ rest (length_putI64BE t), readI64BE_putI64BE]
  | legacyBarrier id =>
      rw [recvFrame, load_zero, Kind.ofByte_byte, ← List.append_nil (putU64BE id)]
      simp only [recvSwitch]
      rw [loadBytes_word beyond _ [] (length_putU64BE id), readU64BE_putU64BE, barrierMode_nil]
  | barrier id mode rest =>
      rw [recvFrame, List.cons_append, load_zero, Kind.ofByte_byte]
      simp only [recvSwitch]
      rw [loadBytes_word beyond _ _ (length_putU64BE id), readU64BE_putU64BE, barrierMode_cons]
  | legacyTerminal id =>
      rw [recvFrame, load_zero, Kind.ofByte_byte, ← List.append_nil (putU64BE id)]
      simp only [recvSwitch]
      rw [loadBytes_word beyond _ [] (length_putU64BE id), readU64BE_putU64BE, barrierMode_nil]
  | terminal id mode rest =>
      rw [recvFrame, List.cons_append, load_zero, Kind.ofByte_byte]
      simp only [recvSwitch]
      rw [loadBytes_word beyond _ _ (length_putU64BE id), readU64BE_putU64BE, barrierMode_cons]
  | drain idx target rest =>
      obtain ⟨hfirst, hsecond⟩ := loadBytes_pair beyond Kind.drain.byte rest
        (length_putU32BE idx) (length_putU32BE target)
      rw [recvFrame, List.cons_append, List.cons_append, load_zero, Kind.ofByte_byte]
      simp only [recvSwitch]
      rw [hfirst, hsecond, readU32BE_putU32BE, readU32BE_putU32BE]

theorem recvFrame_close_iff (beyond : Nat → UInt8) (b : UInt8) (bytes : List UInt8) :
    (∃ reason failure, (recvFrame batcher beyond (b :: bytes)).1 = .close reason failure) ↔
      endsConnection batcher (b :: bytes) = true := by
  rw [recvFrame, load_zero, endsConnection]
  cases hkind : Kind.ofByte b with
  | none => simp [recvSwitch]
  | some kind =>
      cases kind with
      | arrowBatch =>
          simp only [recvSwitch, loadBytes_tail]
          cases parseArrow batcher bytes <;> simp
      | _ => simp [recvSwitch]

/-! ### A turn of the loops -/

variable {stream : List UInt8}

theorem recvAll_eq_some {n : Nat} {rest : List UInt8} (h : recvAll n stream = some (bytes, rest)) :
    stream = bytes ++ rest ∧ bytes.length = n := by
  unfold recvAll at h
  split at h
  · cases h
  · cases h
    exact ⟨(List.take_append_drop n stream).symm, by rw [List.length_take]; omega⟩

/-- A body is not empty, is within the cap and takes bytes off the stream. -/
theorem recvHead_frame {rest : List UInt8} (h : recvHead stream = .frame body rest) :
    body ≠ [] ∧ body.length ≤ kMaxFrameBytes ∧ rest.length < stream.length := by
  unfold recvHead at h
  split at h
  · cases h
  · rename_i header tail hheader
    obtain ⟨hstream, hfour⟩ := recvAll_eq_some hheader
    simp only at h
    split at h
    · cases h
    · rename_i hlen
      push Not at hlen
      split at h
      · cases h
      · rename_i body' rest' hbody
        cases h
        obtain ⟨htail, hlength⟩ := recvAll_eq_some hbody
        refine ⟨?_, by omega, ?_⟩
        · rintro rfl
          exact hlen.1 (by simpa using hlength.symm)
        · rw [hstream, htail, List.length_append, List.length_append]
          omega

theorem recvHead_truncated {frameLen : Nat} (h : recvHead stream = .truncated frameLen) :
    frameLen ≤ kMaxFrameBytes := by
  unfold recvHead at h
  split at h
  · cases h
  · simp only at h
    split at h
    · cases h
    · split at h
      · cases h
        omega
      · cases h

variable {fuel pushed : Nat}

/-- The fuel of the loop is enough: more does not change what it does. -/
theorem recvLoop_fuel (beyond : Nat → UInt8) (accepts : Nat → Bool) {fuel' : Nat}
    (h : stream.length < fuel) (h' : stream.length < fuel') :
    recvLoop batcher beyond accepts fuel pushed stream =
      recvLoop batcher beyond accepts fuel' pushed stream := by
  induction fuel generalizing fuel' pushed stream with
  | zero => omega
  | succ fuel ih =>
      obtain ⟨fuel', rfl⟩ : ∃ n, fuel' = n + 1 := ⟨fuel' - 1, by omega⟩
      rw [recvLoop, recvLoop]
      cases hhead : recvHead stream with
      | endOfStream => rfl
      | corrupt => rfl
      | truncated frameLen => rfl
      | frame body rest =>
          have hrest := (recvHead_frame hhead).2.2
          have hnext := fun pushed =>
            @ih rest pushed fuel' (by omega) (by omega)
          simp only [hnext]

theorem creditReaderLoop_fuel (beyond : Nat → UInt8) {fuel' : Nat} (h : stream.length < fuel)
    (h' : stream.length < fuel') :
    creditReaderLoop beyond fuel stream = creditReaderLoop beyond fuel' stream := by
  induction fuel generalizing fuel' stream with
  | zero => omega
  | succ fuel ih =>
      obtain ⟨fuel', rfl⟩ : ∃ n, fuel' = n + 1 := ⟨fuel' - 1, by omega⟩
      rw [creditReaderLoop, creditReaderLoop]
      cases hhead : recvHead stream with
      | endOfStream => rfl
      | corrupt => rfl
      | truncated frameLen => rfl
      | frame body rest =>
          have hrest := (recvHead_frame hhead).2.2
          simp only [ih (show rest.length < fuel by omega) (show rest.length < fuel' by omega)]

/-! ## Staying inside -/

/-- A frame of the forward stream is handled within its body: nothing else is
read, and it delivers what it encodes, is ignored because it encodes nothing, or
closes the channel. -/
structure Inside (log : FrameLog (Outcome R)) : Prop where
  allocated : log.allocated ≤ kMaxFrameBytes
  reads : ∀ i ∈ log.reads, i < log.allocated
  delivers : ∀ el, log.outcome = .deliver el → Encodes batcher log.body el
  ignores : log.outcome = .ignore → ∀ el, ¬ Encodes batcher log.body el

/-- `recv_loop_` on a byte sequence, whatever lies behind a body and whenever
the owner closes the channel. -/
structure ReceivesInside (stream : List UInt8) : Prop where
  returns : ∀ beyond accepts fuel, stream.length < fuel →
    recvLoop batcher beyond accepts fuel 0 stream = receive batcher beyond accepts stream
  inside : ∀ beyond accepts, ∀ log ∈ (receive batcher beyond accepts stream).frames,
    Inside batcher log

/-- A frame of the reverse stream is handled within its body. -/
structure InsideCredit (log : FrameLog (Option UInt32)) : Prop where
  allocated : log.allocated ≤ kMaxFrameBytes
  reads : ∀ i ∈ log.reads, i < log.allocated
  grants : ∀ delta, log.outcome = some delta → Grants log.body delta
  ignores : log.outcome = none → ∀ delta, ¬ Grants log.body delta

/-- `credit_reader_loop_` on a byte sequence. -/
structure CreditsInside (stream : List UInt8) : Prop where
  returns : ∀ beyond fuel, stream.length < fuel →
    creditReaderLoop beyond fuel stream = readCredits beyond stream
  inside : ∀ beyond, ∀ log ∈ readCredits beyond stream, InsideCredit log

theorem Inside.truncated {frameLen : Nat} (h : frameLen ≤ kMaxFrameBytes)
    (reason : ChannelCloseReason) (failure : Option String) :
    Inside batcher ⟨frameLen, [], [], .close reason failure⟩ where
  allocated := h
  reads := by simp
  delivers el hel := by cases hel
  ignores hel := by cases hel

theorem Inside.frame (beyond : Nat → UInt8) (hne : body ≠ [])
    (hcap : body.length ≤ kMaxFrameBytes) (hshort : short body = false) :
    Inside batcher ⟨body.length, body, (recvFrame batcher beyond body).2,
      (recvFrame batcher beyond body).1⟩ := by
  obtain ⟨b, bytes, rfl⟩ := List.exists_cons_of_ne_nil hne
  refine ⟨hcap, fun i hi => recvFrame_reads batcher beyond hshort hi,
    fun el hel => recvFrame_deliver batcher beyond hshort hel, ?_⟩
  intro hignore el henc
  have hdeliver := recvFrame_of_encodes batcher beyond henc
  rw [show (recvFrame batcher beyond (b :: bytes)).1 = .ignore from hignore] at hdeliver
  cases hdeliver

/-- The push of a delivered element may find the channel closed. -/
theorem Inside.refused {log : FrameLog (Outcome R)} (h : Inside batcher log)
    (reason : ChannelCloseReason) : Inside batcher { log with outcome := .close reason none } where
  allocated := h.allocated
  reads := h.reads
  delivers el hel := by cases hel
  ignores hel := by cases hel

theorem Inside.cons {log : FrameLog (Outcome R)} (h : Inside batcher log)
    {tail : Received R} (htail : ∀ log ∈ tail.frames, Inside batcher log) :
    ∀ log' ∈ (tail.cons log).frames, Inside batcher log' := by
  intro log' hlog
  rcases List.mem_cons.mp hlog with rfl | hlog
  · exact h
  · exact htail log' hlog

theorem recvLoop_inside (beyond : Nat → UInt8) (accepts : Nat → Bool)
    (hlong : LongEnough batcher (framesOf fuel stream)) :
    ∀ log ∈ (recvLoop batcher beyond accepts fuel pushed stream).frames, Inside batcher log := by
  induction fuel generalizing pushed stream with
  | zero => simp [recvLoop]
  | succ fuel ih =>
      rw [recvLoop]
      rw [framesOf] at hlong
      cases hhead : recvHead stream with
      | endOfStream => simp
      | corrupt => simp
      | truncated frameLen =>
          intro log hlog
          obtain rfl := List.mem_singleton.mp hlog
          exact .truncated batcher (recvHead_truncated hhead) _ _
      | frame body rest =>
          rw [hhead] at hlong
          obtain ⟨hne, hcap, -⟩ := recvHead_frame hhead
          obtain ⟨b, bytes, rfl⟩ := List.exists_cons_of_ne_nil hne
          have hinside := Inside.frame batcher beyond hne hcap hlong.1
          have hgoes : (∀ reason failure,
              (recvFrame batcher beyond (b :: bytes)).1 ≠ .close reason failure) →
              LongEnough batcher (framesOf fuel rest) := by
            intro hno
            refine hlong.2 ?_
            rw [← Bool.not_eq_true, ← recvFrame_close_iff batcher beyond]
            rintro ⟨reason, failure, hclose⟩
            exact hno reason failure hclose
          simp only
          split
          · intro log hlog
            obtain rfl := List.mem_singleton.mp hlog
            exact hinside
          · rename_i hout
            exact hinside.cons batcher (ih (hgoes (by rw [hout]; simp)))
          · rename_i hout
            split
            · exact hinside.cons batcher (ih (hgoes (by rw [hout]; simp)))
            · intro log hlog
              obtain rfl := List.mem_singleton.mp hlog
              exact hinside.refused batcher _

/-- A frame that is too short is read beyond its end, if the channel stays open
until then. -/
theorem recvLoop_outside (beyond : Nat → UInt8)
    (hshort : ¬ LongEnough batcher (framesOf fuel stream)) :
    ∃ log ∈ (recvLoop batcher beyond (fun _ => true) fuel pushed stream).frames,
      ¬ Inside batcher log := by
  induction fuel generalizing pushed stream with
  | zero => exact absurd trivial hshort
  | succ fuel ih =>
      rw [recvLoop]
      rw [framesOf] at hshort
      cases hhead : recvHead stream with
      | endOfStream => rw [hhead] at hshort; exact absurd trivial hshort
      | corrupt => rw [hhead] at hshort; exact absurd trivial hshort
      | truncated frameLen => rw [hhead] at hshort; exact absurd trivial hshort
      | frame body rest =>
          rw [hhead] at hshort
          obtain ⟨hne, -, -⟩ := recvHead_frame hhead
          obtain ⟨b, bytes, rfl⟩ := List.exists_cons_of_ne_nil hne
          simp only
          by_cases hthis : short (b :: bytes) = true
          · have hread := recvFrame_reads_beyond batcher beyond hthis
            have hout : ¬ Inside batcher ⟨(b :: bytes).length, b :: bytes,
                (recvFrame batcher beyond (b :: bytes)).2,
                (recvFrame batcher beyond (b :: bytes)).1⟩ := by
              intro hinside
              have := hinside.reads 8 hread.1
              have := hread.2
              simp only at *
              omega
            split
            · exact ⟨_, List.mem_singleton_self _, hout⟩
            · exact ⟨_, List.mem_cons_self, hout⟩
            · exact ⟨_, List.mem_cons_self, hout⟩
          · have hrest : ¬ LongEnough batcher (framesOf fuel rest) ∧
                endsConnection batcher (b :: bytes) = false := by
              simp only [Bool.not_eq_true] at hthis
              simp only [LongEnough, hthis, true_and, Classical.not_imp] at hshort
              exact ⟨hshort.2, hshort.1⟩
            have hopen := recvFrame_close_iff batcher beyond b bytes
            rw [hrest.2] at hopen
            split
            · rename_i reason failure hclose
              exact absurd (hopen.mp ⟨reason, failure, hclose⟩) (by decide)
            · obtain ⟨log, hlog, hnot⟩ := @ih rest pushed hrest.1
              exact ⟨log, List.mem_cons_of_mem _ hlog, hnot⟩
            · obtain ⟨log, hlog, hnot⟩ := @ih rest (pushed + 1) hrest.1
              exact ⟨log, List.mem_cons_of_mem _ hlog, hnot⟩

/-- The credit reader asks for the five bytes it reads. -/
theorem InsideCredit.frame (beyond : Nat → UInt8) (hne : body ≠ [])
    (hcap : body.length ≤ kMaxFrameBytes) :
    InsideCredit ⟨body.length, body, (creditFrame beyond body).2, (creditFrame beyond body).1⟩ := by
  obtain ⟨b, bytes, rfl⟩ := List.exists_cons_of_ne_nil hne
  rw [creditFrame, load_zero]
  split
  · rename_i hupdate
    obtain ⟨hkind, hfive⟩ := hupdate
    obtain rfl := Kind.byte_of_ofByte hkind
    obtain ⟨delta, rest, rfl, hdelta⟩ : ∃ delta rest, bytes = delta ++ rest ∧ delta.length = 4 := by
      refine ⟨bytes.take 4, bytes.drop 4, (List.take_append_drop 4 bytes).symm, ?_⟩
      rw [List.length_cons] at hfive
      rw [List.length_take]
      omega
    have hload := loadBytes_eq beyond [Kind.creditUpdate.byte] delta rest
    rw [hdelta] at hload
    refine ⟨hcap, ?_, ?_, fun hnone => by cases hnone⟩
    · intro i hi
      rw [List.mem_cons, List.mem_range'_1] at hi
      simp only at hfive ⊢
      omega
    · intro v hv
      cases hv
      rw [show loadBytes beyond (Kind.creditUpdate.byte :: (delta ++ rest)) 1 4 = delta from hload]
      have hput := putU32BE_readU32BE hdelta
      rw [show Kind.creditUpdate.byte :: (delta ++ rest) =
        Kind.creditUpdate.byte :: putU32BE (readU32BE delta) ++ rest by rw [hput]; rfl]
      exact .creditUpdate _ rest
  · rename_i hother
    refine ⟨hcap, ?_, (fun v hv => by cases hv), ?_⟩
    · intro i hi
      obtain rfl := List.mem_singleton.mp hi
      exact Nat.succ_pos _
    · intro _ delta hgrant
      apply hother
      generalize hbody : b :: bytes = body at hgrant
      cases hgrant with
      | creditUpdate delta rest =>
          cases hbody
          refine ⟨Kind.ofByte_byte _, ?_⟩
          show 5 ≤ (Kind.creditUpdate.byte :: putU32BE delta ++ rest).length
          rw [List.length_append, List.length_cons, length_putU32BE]
          omega

theorem creditReaderLoop_inside (beyond : Nat → UInt8) (fuel : Nat) (stream : List UInt8) :
    ∀ log ∈ creditReaderLoop beyond fuel stream, InsideCredit log := by
  induction fuel generalizing stream with
  | zero => simp [creditReaderLoop]
  | succ fuel ih =>
      rw [creditReaderLoop]
      cases hhead : recvHead stream with
      | endOfStream => simp
      | corrupt => simp
      | truncated frameLen =>
          intro log hlog
          obtain rfl := List.mem_singleton.mp hlog
          refine ⟨recvHead_truncated hhead, by simp, (fun v hv => by cases hv), ?_⟩
          intro _ delta hgrant
          cases hgrant
      | frame body rest =>
          obtain ⟨hne, hcap, -⟩ := recvHead_frame hhead
          intro log hlog
          rcases List.mem_cons.mp hlog with rfl | hlog
          · exact .frame beyond hne hcap
          · exact ih rest log hlog

theorem credits_inside (stream : List UInt8) : CreditsInside stream where
  returns beyond _ hfuel := creditReaderLoop_fuel beyond hfuel (Nat.lt_succ_self _)
  inside beyond := creditReaderLoop_inside beyond _ stream

/-- The receive paths of a connection stay inside their frames, on the bytes
sent in either direction, exactly when no frame of the forward stream is too
short for its kind up to the one that ends the connection. -/
theorem receive_paths_stay_inside_iff (forward reverse : List UInt8) :
    ReceivesInside batcher forward ∧ CreditsInside reverse ↔
      LongEnough batcher (frames forward) := by
  constructor
  · rintro ⟨hinside, -⟩
    by_contra hshort
    obtain ⟨log, hlog, hnot⟩ := @recvLoop_outside _ batcher _ _ 0 (fun _ => 0) hshort
    exact hnot (hinside.inside _ _ log hlog)
  · intro hlong
    refine ⟨⟨?_, ?_⟩, credits_inside reverse⟩
    · intro beyond accepts fuel hfuel
      exact recvLoop_fuel batcher beyond accepts hfuel (Nat.lt_succ_self _)
    · intro beyond accepts
      exact recvLoop_inside batcher beyond accepts hlong

/-- A batcher for byte records: the IPC bytes are the records. -/
def byteBatcher : ArrowBatcher UInt8 where
  RecordBatch := List UInt8
  build := some
  toIpc := id
  fromIpc := some
  schemaMatches _ := true
  parse := some

/-- A watermark frame of one byte is delivered with a time made of the eight
bytes behind it in memory. -/
theorem short_watermark_read_beyond :
    ¬ ReceivesInside byteBatcher [0, 0, 0, 1, 1] ∧
      ∀ beyond, ∃ log ∈ (receive byteBatcher beyond (fun _ => true) [0, 0, 0, 1, 1]).frames,
        log.allocated = 1 ∧ log.reads = [0, 1, 2, 3, 4, 5, 6, 7, 8] ∧
          log.outcome = .deliver (.watermark ⟨readI64BE [beyond 1, beyond 2, beyond 3, beyond 4,
            beyond 5, beyond 6, beyond 7, beyond 8], false⟩) := by
  have hlog : ∀ beyond, ∃ log ∈ (receive byteBatcher beyond (fun _ => true)
      [0, 0, 0, 1, 1]).frames, log.allocated = 1 ∧ log.reads = [0, 1, 2, 3, 4, 5, 6, 7, 8] ∧
        log.outcome = .deliver (.watermark ⟨readI64BE [beyond 1, beyond 2, beyond 3, beyond 4,
          beyond 5, beyond 6, beyond 7, beyond 8], false⟩) :=
    fun beyond => ⟨_, List.mem_cons_self, rfl, rfl, rfl⟩
  refine ⟨?_, hlog⟩
  intro hinside
  obtain ⟨log, hmem, hone, hreads, -⟩ := hlog (fun _ => 0)
  have hlast := (hinside.inside _ _ log hmem).reads 8 (by rw [hreads]; decide)
  omega

end Clink.Ports.NetworkChannel

import Clink.Ports.NetworkReceive
import Clink.Verified.Schedules

/-!
# A channel over a socket and in the process

The embedding of `NetworkChannelSink` and `NetworkChannelSource`
(`include/clink/runtime/network/network_channel.hpp`) over
`include/clink/runtime/bounded_channel.hpp`.  A sink is given elements and then
either `close_send` or its destruction; the source's `pop` takes elements out of
the receiver's channel until it is closed and drained.

Over a socket four threads take turns: the sender encodes frames and waits for
credit, the receiver's loop decodes them into its channel, the consumer pops and
grants credit, and the sender's credit reader takes the grants in.  In the
process the sender pushes into the same channel.  Every schedule of either comes
to an end with all the elements popped, over the socket in the pieces an
oversized batch is cut into.  The close reasons agree only for `close_send(false)`:
the receiver looks for the reason of a `Close` frame in its kind byte, and a sink
that is destroyed closes the local channel as finished.
-/

namespace Clink.Ports.NetworkChannel

open Clink.Verified
open Clink.Ports.Time

variable {R : Type} (batcher : ArrowBatcher R)

/-! ## The receiver's channel -/

/-- `BoundedChannel<StreamElement<T>>`. -/
structure BoundedChannel (R : Type) where
  queue : List (StreamElement R) := []
  closed : Bool := false
  closeReason : ChannelCloseReason := .finished

def kLocalChannelCapacity : Nat := 256

namespace BoundedChannel

/-- A push waits while the channel is full and open. -/
def full (ch : BoundedChannel R) : Bool :=
  decide (kLocalChannelCapacity ≤ ch.queue.length) && !ch.closed

/-- A push that does not wait; it fails on a closed channel. -/
def push (el : StreamElement R) (ch : BoundedChannel R) : Option (BoundedChannel R) :=
  if ch.closed then none else some { ch with queue := ch.queue ++ [el] }

/-- The first close decides the reason. -/
def close (reason : ChannelCloseReason) (ch : BoundedChannel R) : BoundedChannel R :=
  { ch with closed := true, closeReason := if ch.closed then ch.closeReason else reason }

end BoundedChannel

/-! ## Frames the sender sends -/

def StreamElement.isData : StreamElement R → Bool
  | .data _ => true
  | _ => false

/-- The number of records, as the credit counts them. -/
def StreamElement.size : StreamElement R → Nat
  | .data batch => batch.length
  | _ => 0

/-- `slice_batch_`. -/
def sliceBatch (batch : List R) (offset len : Nat) : List R := (batch.drop offset).take len

/-- The loop of `push_remote_` from an offset on. -/
def chunksFrom (batch : List R) : Nat → Nat → List (List R)
  | 0, _ => []
  | fuel + 1, off =>
      if off < batch.length then
        sliceBatch batch off (min kMaxRecordsPerFrame (batch.length - off)) ::
          chunksFrom batch fuel (off + kMaxRecordsPerFrame)
      else []

/-- `push_remote_`: the elements one call sends as frames. -/
def pushRemote : StreamElement R → List (StreamElement R)
  | .data batch =>
      if kInitialNetworkCredit < batch.length then
        (chunksFrom batch batch.length 0).map .data
      else [.data batch]
  | el => [el]

/-- The payload of `push_frame_`; a batch that cannot be built has none. -/
def payload : StreamElement R → Option (List UInt8)
  | .data batch =>
      (batcher.build batch).map fun recordBatch =>
        Kind.arrowBatch.byte :: batcher.toIpc recordBatch
  | .watermark wm =>
      some ((if wm.isIdle then Kind.watermarkIdle else Kind.watermark).byte ::
        putI64BE wm.timestamp)
  | .drain d => some (Kind.drain.byte :: putU32BE d.subtaskIdx ++ putU32BE d.targetParallelism)
  | .barrier b =>
      some ((if b.terminal then Kind.terminal else Kind.barrier).byte :: putU64BE b.id ++ [b.mode])

/-- `send_frame`. -/
def sendFrame (payload : List UInt8) : List UInt8 :=
  putU32BE (UInt32.ofNat payload.length) ++ payload

/-- The end of the sink: `close_send(cancelled)` and its destruction, or its
destruction alone. -/
inductive EndCall
  | closeSend (cancelled : Bool)
  | destroy
  deriving DecidableEq

def closePayload (cancelled : Bool) : List UInt8 :=
  [Kind.close.byte, if cancelled then 1 else 0]

/-- The payload of `send_credit_`. -/
def creditPayload (delta : UInt32) : List UInt8 := Kind.creditUpdate.byte :: putU32BE delta

/-- `acquire_credit_`: a data frame waits until there is credit for its records. -/
def awaitsCredit (el : StreamElement R) (credit : UInt32) : Bool :=
  el.isData && decide (credit < UInt32.ofNat el.size)

/-- The credit left behind a frame. -/
def spendCredit (el : StreamElement R) (credit : UInt32) : UInt32 :=
  if el.isData then credit - UInt32.ofNat el.size else credit

/-! ## The socket -/

/-- Both ends of a connection and what is under way between them. -/
structure Socket (R : Type) where
  /-- The frames each call still has to send. -/
  calls : List (List (StreamElement R))
  ended : Bool := false
  remainingCredit : UInt32 := 0
  forward : List UInt8 := []
  eof : Bool := false
  reverse : List UInt8 := []
  exited : Bool := false
  channel : BoundedChannel R := {}
  popped : List (StreamElement R) := []
  drained : Bool := false

/-- The connection as `accept` leaves it: the first grant is on its way. -/
def Socket.start (els : List (StreamElement R)) : Socket R :=
  { calls := els.map pushRemote
    reverse := sendFrame (creditPayload (UInt32.ofNat kInitialNetworkCredit)) }

inductive Action
  | send
  | finish
  | recv
  | pop
  | credit
  deriving DecidableEq

namespace Socket

/-- The receiver's loop returns, and `CloseOnExit` closes the channel. -/
def exit (reason : ChannelCloseReason) (s : Socket R) : Socket R :=
  { s with exited := true, channel := s.channel.close reason }

/-- The sender's thread: one frame, once there is credit for its records. -/
def send (s : Socket R) : Option (Socket R) :=
  match s.calls with
  | [] => none
  | [] :: calls => some { s with calls := calls }
  | (el :: frames) :: calls =>
      if awaitsCredit el s.remainingCredit then none
      else
        match payload batcher el with
        | none =>
            some { s with calls := calls, remainingCredit := spendCredit el s.remainingCredit }
        | some bytes =>
            some { s with
              calls := frames :: calls
              remainingCredit := spendCredit el s.remainingCredit
              forward := s.forward ++ sendFrame bytes }

/-- The end of the sink, once its calls are made. -/
def finish (call : EndCall) (s : Socket R) : Option (Socket R) :=
  if !s.calls.isEmpty || s.ended then none
  else
    match call with
    | .closeSend cancelled =>
        some { s with
          ended := true
          eof := true
          forward := s.forward ++ sendFrame (closePayload cancelled) }
    | .destroy => some { s with ended := true, eof := true }

/-- One turn of `recv_loop_`.  `recv_all` waits for bytes while the stream is
open, and a push waits for room. -/
def recv (beyond : Nat → UInt8) (s : Socket R) : Option (Socket R) :=
  if s.exited then none
  else
    match recvHead s.forward with
    | .endOfStream => if s.eof then some (s.exit .cancelled) else none
    | .corrupt => some (s.exit .cancelled)
    | .truncated _ => if s.eof then some (s.exit .cancelled) else none
    | .frame body rest =>
        match (recvFrame batcher beyond body).1 with
        | .close reason _ => some ({ s with forward := rest }.exit reason)
        | .ignore => some { s with forward := rest }
        | .deliver el =>
            if s.channel.full then none
            else
              match s.channel.push el with
              | none => some ({ s with forward := rest }.exit .cancelled)
              | some channel => some { s with forward := rest, channel := channel }

/-- `pop`: the next element, for which credit is granted, or the end. -/
def pop (s : Socket R) : Option (Socket R) :=
  match s.channel.queue with
  | el :: queue =>
      let delta := UInt32.ofNat el.size
      some { s with
        channel := { s.channel with queue := queue }
        popped := s.popped ++ [el]
        reverse :=
          if el.isData ∧ delta ≠ 0 then s.reverse ++ sendFrame (creditPayload delta)
          else s.reverse }
  | [] => if s.channel.closed && !s.drained then some { s with drained := true } else none

/-- One turn of `credit_reader_loop_`. -/
def credit (beyond : Nat → UInt8) (s : Socket R) : Option (Socket R) :=
  match recvHead s.reverse with
  | .frame body rest =>
      some { s with
        reverse := rest
        remainingCredit := s.remainingCredit + ((creditFrame beyond body).1).getD 0 }
  | _ => none

end Socket

def socketStep (beyond : Nat → UInt8) (call : EndCall) : Action → Socket R → Option (Socket R)
  | .send => Socket.send batcher
  | .finish => Socket.finish call
  | .recv => Socket.recv batcher beyond
  | .pop => Socket.pop
  | .credit => Socket.credit beyond

/-! ## The local path -/

/-- The sender and the receiver of one process, with the channel between them. -/
structure Local (R : Type) where
  els : List (StreamElement R)
  ended : Bool := false
  channel : BoundedChannel R := {}
  popped : List (StreamElement R) := []
  drained : Bool := false

namespace Local

def push (s : Local R) : Option (Local R) :=
  match s.els with
  | [] => none
  | el :: els =>
      if s.channel.full then none
      else some { s with els := els, channel := (s.channel.push el).getD s.channel }

/-- `close_send`, then the destructor's `close()`. -/
def finish (call : EndCall) (s : Local R) : Option (Local R) :=
  if !s.els.isEmpty || s.ended then none
  else
    let channel :=
      match call with
      | .closeSend true => s.channel.close .cancelled
      | .closeSend false => s.channel.close .finished
      | .destroy => s.channel
    some { s with ended := true, channel := channel.close .finished }

def pop (s : Local R) : Option (Local R) :=
  match s.channel.queue with
  | el :: queue =>
      some { s with channel := { s.channel with queue := queue }, popped := s.popped ++ [el] }
  | [] => if s.channel.closed && !s.drained then some { s with drained := true } else none

end Local

inductive LocalAction
  | push
  | finish
  | pop
  deriving DecidableEq

def localStep (call : EndCall) : LocalAction → Local R → Option (Local R)
  | .push => Local.push
  | .finish => Local.finish call
  | .pop => Local.pop

/-! ## Frames there and back -/

/-- The Arrow encoding of a batch decodes to the batch. -/
def ArrowBatcher.Lawful : Prop :=
  ∀ batch, ∃ recordBatch, batcher.build batch = some recordBatch ∧
    parseArrow batcher (batcher.toIpc recordBatch) = .ok batch

/-- The frame of an element stays under the cap. -/
def FitsFrame (el : StreamElement R) : Prop :=
  ∀ bytes, payload batcher el = some bytes → bytes.length ≤ kMaxFrameBytes

variable {el : StreamElement R}

/-- The payload of an element without records encodes it. -/
theorem payload_encodes_control (h : el.isData = false) :
    ∃ bytes, payload batcher el = some bytes ∧ Encodes batcher bytes el := by
  cases el with
  | data batch => cases h
  | watermark wm =>
      obtain ⟨t, idle⟩ := wm
      have hnil := List.append_nil (putI64BE t)
      cases idle with
      | false => exact ⟨_, rfl, hnil ▸ Encodes.watermark t []⟩
      | true => exact ⟨_, rfl, hnil ▸ Encodes.watermarkIdle t []⟩
  | barrier b =>
      obtain ⟨id, terminal, mode⟩ := b
      cases terminal with
      | false => exact ⟨_, rfl, .barrier id mode []⟩
      | true => exact ⟨_, rfl, .terminal id mode []⟩
  | drain d =>
      obtain ⟨idx, target⟩ := d
      have h : Encodes batcher _ _ := .drain idx target []
      rw [List.append_nil] at h
      exact ⟨_, rfl, h⟩

theorem payload_encodes (hlaw : batcher.Lawful) (el : StreamElement R) :
    ∃ bytes, payload batcher el = some bytes ∧ Encodes batcher bytes el := by
  by_cases hdata : el.isData = true
  · cases el with
    | data batch =>
        obtain ⟨recordBatch, hbuild, hparse⟩ := hlaw batch
        refine ⟨Kind.arrowBatch.byte :: batcher.toIpc recordBatch, ?_, .data hparse⟩
        rw [payload, hbuild]
        rfl
    | _ => cases hdata
  · exact payload_encodes_control batcher (by simpa using hdata)

theorem Encodes.ne_nil {bytes : List UInt8} (h : Encodes batcher bytes el) : bytes ≠ [] := by
  cases h <;> simp

/-- The receiving end cuts the stream where the sending end framed it. -/
theorem recvHead_sendFrame {bytes : List UInt8} (rest : List UInt8) (hne : bytes ≠ [])
    (hcap : bytes.length ≤ kMaxFrameBytes) :
    recvHead (sendFrame bytes ++ rest) = .frame bytes rest := by
  have hlen : (UInt32.ofNat bytes.length).toNat = bytes.length := by
    rw [UInt32.toNat_ofNat', Nat.mod_eq_of_lt]
    exact lt_of_le_of_lt hcap (by decide)
  have hpos : bytes.length ≠ 0 := by simpa using hne
  have hheader : recvAll 4 (sendFrame bytes ++ rest) =
      some (putU32BE (UInt32.ofNat bytes.length), bytes ++ rest) := by
    rw [sendFrame, List.append_assoc, recvAll, if_neg, List.take_left', List.drop_left'] <;> simp
  have hbody : recvAll bytes.length (bytes ++ rest) = some (bytes, rest) := by
    rw [recvAll, if_neg (by simp), List.take_left, List.drop_left]
  rw [recvHead, hheader]
  simp only [readU32BE_putU32BE, hlen]
  rw [if_neg (by omega), hbody]

theorem recvFrame_close (beyond : Nat → UInt8) (cancelled : Bool) :
    (recvFrame batcher beyond (closePayload cancelled)).1 = .close .finished none := by
  cases cancelled <;> rfl

theorem creditFrame_creditPayload (beyond : Nat → UInt8) (delta : UInt32) :
    (creditFrame beyond (creditPayload delta)).1 = some delta := by
  have hload := loadBytes_eq beyond [Kind.creditUpdate.byte] (putU32BE delta) []
  rw [List.append_nil, length_putU32BE] at hload
  rw [creditFrame, creditPayload, load_zero, Kind.ofByte_byte, if_pos ⟨rfl, by simp⟩]
  show some (readU32BE (loadBytes beyond ([Kind.creditUpdate.byte] ++ putU32BE delta) 1 4)) = _
  rw [show loadBytes beyond ([Kind.creditUpdate.byte] ++ putU32BE delta) 1 4 = putU32BE delta
    from hload, readU32BE_putU32BE]

/-! ## The socket by its messages -/

/-- The connection with the elements and grants under way in place of their
bytes. -/
structure Link (R : Type) where
  calls : List (List (StreamElement R))
  ended : Bool := false
  remainingCredit : UInt32 := 0
  flying : List (StreamElement R) := []
  closing : Option Bool := none
  grants : List UInt32 := []
  exited : Bool := false
  channel : BoundedChannel R := {}
  popped : List (StreamElement R) := []
  drained : Bool := false

namespace Link

def start (els : List (StreamElement R)) : Link R :=
  { calls := els.map pushRemote, grants := [UInt32.ofNat kInitialNetworkCredit] }

def elementBytes (el : StreamElement R) : List UInt8 := sendFrame ((payload batcher el).getD [])

def closingBytes (closing : Option Bool) : List UInt8 :=
  (closing.map fun cancelled => sendFrame (closePayload cancelled)).getD []

/-- The bytes under way. -/
def encode (s : Link R) : Socket R where
  calls := s.calls
  ended := s.ended
  remainingCredit := s.remainingCredit
  forward := s.flying.flatMap (elementBytes batcher) ++ closingBytes s.closing
  eof := s.ended
  reverse := s.grants.flatMap fun delta => sendFrame (creditPayload delta)
  exited := s.exited
  channel := s.channel
  popped := s.popped
  drained := s.drained

theorem encode_calls (s : Link R) : (s.encode batcher).calls = s.calls := rfl

theorem encode_ended (s : Link R) : (s.encode batcher).ended = s.ended := rfl

theorem encode_eof (s : Link R) : (s.encode batcher).eof = s.ended := rfl

theorem encode_exited (s : Link R) : (s.encode batcher).exited = s.exited := rfl

theorem encode_channel (s : Link R) : (s.encode batcher).channel = s.channel := rfl

theorem encode_drained (s : Link R) : (s.encode batcher).drained = s.drained := rfl

def exit (reason : ChannelCloseReason) (s : Link R) : Link R :=
  { s with exited := true, channel := s.channel.close reason }

def send (s : Link R) : Option (Link R) :=
  match s.calls with
  | [] => none
  | [] :: calls => some { s with calls := calls }
  | (el :: frames) :: calls =>
      if awaitsCredit el s.remainingCredit then none
      else
        some { s with
          calls := frames :: calls
          remainingCredit := spendCredit el s.remainingCredit
          flying := s.flying ++ [el] }

def finish (call : EndCall) (s : Link R) : Option (Link R) :=
  if !s.calls.isEmpty || s.ended then none
  else
    match call with
    | .closeSend cancelled => some { s with ended := true, closing := some cancelled }
    | .destroy => some { s with ended := true }

/-- A `Close` frame is read as finished, whatever its reason. -/
def recv (s : Link R) : Option (Link R) :=
  if s.exited then none
  else
    match s.flying with
    | el :: flying =>
        if s.channel.full then none
        else
          match s.channel.push el with
          | none => some ({ s with flying := flying }.exit .cancelled)
          | some channel => some { s with flying := flying, channel := channel }
    | [] =>
        match s.closing with
        | some _ => some ({ s with closing := none }.exit .finished)
        | none => if s.ended then some (s.exit .cancelled) else none

def pop (s : Link R) : Option (Link R) :=
  match s.channel.queue with
  | el :: queue =>
      some { s with
        channel := { s.channel with queue := queue }
        popped := s.popped ++ [el]
        grants :=
          if el.isData ∧ UInt32.ofNat el.size ≠ 0 then s.grants ++ [UInt32.ofNat el.size]
          else s.grants }
  | [] => if s.channel.closed && !s.drained then some { s with drained := true } else none

def credit (s : Link R) : Option (Link R) :=
  match s.grants with
  | delta :: grants =>
      some { s with grants := grants, remainingCredit := s.remainingCredit + delta }
  | [] => none

end Link

def linkStep (call : EndCall) : Action → Link R → Option (Link R)
  | .send => Link.send
  | .finish => Link.finish call
  | .recv => Link.recv
  | .pop => Link.pop
  | .credit => Link.credit

/-- Everything a step can do. -/
inductive Link.Moves (call : EndCall) (s : Link R) : Link R → Prop
  | returns {calls} : s.calls = [] :: calls → Moves call s { s with calls := calls }
  | sends {el frames calls} : s.calls = (el :: frames) :: calls →
      awaitsCredit el s.remainingCredit = false →
      Moves call s { s with
        calls := frames :: calls
        remainingCredit := spendCredit el s.remainingCredit
        flying := s.flying ++ [el] }
  | closes {cancelled} : call = .closeSend cancelled → s.calls = [] → s.ended = false →
      Moves call s { s with ended := true, closing := some cancelled }
  | destroys : call = .destroy → s.calls = [] → s.ended = false →
      Moves call s { s with ended := true }
  | delivers {el flying} : s.exited = false → s.flying = el :: flying →
      s.channel.closed = false →
      Moves call s { s with
        flying := flying, channel := { s.channel with queue := s.channel.queue ++ [el] } }
  | refused {el flying} : s.exited = false → s.flying = el :: flying →
      s.channel.closed = true → Moves call s ({ s with flying := flying }.exit .cancelled)
  | readsClose {cancelled} : s.exited = false → s.flying = [] → s.closing = some cancelled →
      Moves call s ({ s with closing := none }.exit .finished)
  | readsEnd : s.exited = false → s.flying = [] → s.closing = none → s.ended = true →
      Moves call s (s.exit .cancelled)
  | pops {el queue} : s.channel.queue = el :: queue →
      Moves call s { s with
        channel := { s.channel with queue := queue }
        popped := s.popped ++ [el]
        grants :=
          if el.isData ∧ UInt32.ofNat el.size ≠ 0 then s.grants ++ [UInt32.ofNat el.size]
          else s.grants }
  | drains : s.channel.queue = [] → s.channel.closed = true → s.drained = false →
      Moves call s { s with drained := true }
  | credits {delta grants} : s.grants = delta :: grants →
      Moves call s { s with grants := grants, remainingCredit := s.remainingCredit + delta }

theorem Link.moves {call : EndCall} {s t : Link R} (a : Action)
    (h : linkStep call a s = some t) : Link.Moves call s t := by
  cases a with
  | send =>
      simp only [linkStep, send] at h
      split at h
      · cases h
      · rename_i heq
        cases h
        exact .returns heq
      · rename_i heq
        split at h
        · cases h
        · rename_i henough
          cases h
          exact .sends heq (by simpa using henough)
  | finish =>
      simp only [linkStep, finish] at h
      split at h
      · cases h
      · rename_i hidle
        have hboth : s.calls = [] ∧ s.ended = false := by simpa using hidle
        split at h
        · cases h
          exact .closes rfl hboth.1 hboth.2
        · cases h
          exact .destroys rfl hboth.1 hboth.2
  | recv =>
      simp only [linkStep, recv] at h
      split at h
      · cases h
      · rename_i hopen
        have hopen : s.exited = false := by simpa using hopen
        split at h
        · rename_i heq
          split at h
          · cases h
          · rw [BoundedChannel.push] at h
            cases hclosed : s.channel.closed with
            | true =>
                rw [if_pos hclosed] at h
                cases h
                exact .refused hopen heq hclosed
            | false =>
                rw [if_neg (by simp [hclosed])] at h
                cases h
                exact .delivers hopen heq hclosed
        · rename_i hnone
          split at h
          · rename_i hclosing
            cases h
            exact .readsClose hopen hnone hclosing
          · rename_i hclosing
            split at h
            · rename_i hended
              cases h
              exact .readsEnd hopen hnone hclosing hended
            · cases h
  | pop =>
      simp only [linkStep, pop] at h
      split at h
      · rename_i heq
        cases h
        exact .pops heq
      · rename_i heq
        split at h
        · rename_i hend
          cases h
          simp only [Bool.and_eq_true, Bool.not_eq_true'] at hend
          exact .drains heq hend.1 hend.2
        · cases h
  | credit =>
      simp only [linkStep, credit] at h
      split at h
      · rename_i heq
        cases h
        exact .credits heq
      · cases h

/-- What is under way fits its frames, and a `Close` frame is the last. -/
structure Link.Framed (s : Link R) : Prop where
  calls : ∀ frames ∈ s.calls, ∀ el ∈ frames, FitsFrame batcher el
  flying : ∀ el ∈ s.flying, FitsFrame batcher el
  ended : s.ended = true → s.calls = []
  closing : s.closing.isSome = true → s.ended = true

namespace Link

theorem Framed.step {call : EndCall} {s t : Link R} (h : s.Framed batcher)
    (hmove : Moves call s t) : t.Framed batcher := by
  obtain ⟨hcalls, hflying, hended, hclosing⟩ := h
  cases hmove with
  | returns heq =>
      rw [heq] at hcalls hended
      exact ⟨fun frames hf => hcalls frames (List.mem_cons_of_mem _ hf), hflying,
        fun hend => absurd (hended hend) (by simp), hclosing⟩
  | @sends el frames calls heq henough =>
      rw [heq] at hcalls hended
      refine ⟨?_, ?_, fun hend => absurd (hended hend) (by simp), hclosing⟩
      · intro frames' hf el' hel
        rcases List.mem_cons.mp hf with rfl | hf
        · exact hcalls _ List.mem_cons_self el' (List.mem_cons_of_mem _ hel)
        · exact hcalls _ (List.mem_cons_of_mem _ hf) el' hel
      · intro el' hel
        rcases List.mem_append.mp hel with hel | hel
        · exact hflying el' hel
        · obtain rfl := List.mem_singleton.mp hel
          exact hcalls _ List.mem_cons_self _ List.mem_cons_self
  | closes hcall hidle hopen => exact ⟨hcalls, hflying, fun _ => hidle, fun _ => rfl⟩
  | destroys hcall hidle hopen => exact ⟨hcalls, hflying, fun _ => hidle, fun _ => rfl⟩
  | delivers hopen heq hchannel =>
      rw [heq] at hflying
      exact ⟨hcalls, fun el hel => hflying el (List.mem_cons_of_mem _ hel), hended, hclosing⟩
  | refused hopen heq hchannel =>
      rw [heq] at hflying
      exact ⟨hcalls, fun el hel => hflying el (List.mem_cons_of_mem _ hel), hended, hclosing⟩
  | readsClose hopen hnone hclose => exact ⟨hcalls, hflying, hended, fun h => by cases h⟩
  | readsEnd hopen hnone hclose hend => exact ⟨hcalls, hflying, hended, hclosing⟩
  | pops heq => exact ⟨hcalls, hflying, hended, hclosing⟩
  | drains heq hclosed hdrained => exact ⟨hcalls, hflying, hended, hclosing⟩
  | credits heq => exact ⟨hcalls, hflying, hended, hclosing⟩

/-- The bytes of the socket go the way of the messages. -/
theorem socketStep_encode (hlaw : batcher.Lawful) (beyond : Nat → UInt8) (call : EndCall)
    (a : Action) {s : Link R} (h : s.Framed batcher) :
    socketStep batcher beyond call a (s.encode batcher) =
      (linkStep call a s).map (encode batcher) := by
  cases a with
  | send =>
      simp only [socketStep, linkStep, Socket.send, send, encode]
      rcases hcalls : s.calls with - | ⟨- | ⟨el, frames⟩, calls⟩
      · rfl
      · rfl
      · have hopen : s.closing = none := by
          by_contra hsome
          have := h.ended (h.closing (Option.isSome_iff_ne_none.mpr hsome))
          rw [hcalls] at this
          cases this
        obtain ⟨bytes, hbytes, -⟩ := payload_encodes batcher hlaw el
        simp only [hbytes]
        by_cases hwait : awaitsCredit el s.remainingCredit = true
        · rw [if_pos hwait, if_pos hwait]
          rfl
        · rw [if_neg hwait, if_neg hwait]
          simp [encode, hopen, closingBytes, elementBytes, hbytes]
  | finish =>
      simp only [socketStep, linkStep, Socket.finish, finish]
      rw [encode_calls, encode_ended]
      by_cases hidle : (!s.calls.isEmpty || s.ended) = true
      · rw [if_pos hidle, if_pos hidle]
        rfl
      · rw [if_neg hidle, if_neg hidle]
        have hopen : s.closing = none := by
          by_contra hsome
          have hended := h.closing (Option.isSome_iff_ne_none.mpr hsome)
          exact hidle (by rw [hended, Bool.or_true])
        cases call with
        | closeSend cancelled => simp [encode, hopen, closingBytes]
        | destroy => simp [encode]
  | recv =>
      simp only [socketStep, linkStep, Socket.recv, recv]
      rw [encode_exited, encode_channel, encode_eof]
      by_cases hexited : s.exited = true
      · rw [if_pos hexited, if_pos hexited]
        rfl
      · rw [if_neg hexited, if_neg hexited]
        cases hflying : s.flying with
        | cons el flying =>
            obtain ⟨bytes, hbytes, henc⟩ := payload_encodes batcher hlaw el
            have hfits : bytes.length ≤ kMaxFrameBytes :=
              h.flying el (by rw [hflying]; exact List.mem_cons_self) bytes hbytes
            have hforward : (s.encode batcher).forward = sendFrame bytes ++
                (flying.flatMap (elementBytes batcher) ++ closingBytes s.closing) := by
              simp [encode, hflying, elementBytes, hbytes]
            rw [hforward, recvHead_sendFrame _ (henc.ne_nil batcher) hfits]
            simp only [recvFrame_of_encodes batcher beyond henc]
            by_cases hfull : s.channel.full = true
            · rw [if_pos hfull, if_pos hfull]
              rfl
            · rw [if_neg hfull, if_neg hfull]
              simp only [encode]
              cases s.channel.push el <;> rfl
        | nil =>
            cases hclosing : s.closing with
            | some cancelled =>
                have hforward : (s.encode batcher).forward =
                    sendFrame (closePayload cancelled) ++ [] := by
                  simp [encode, hflying, hclosing, closingBytes]
                rw [hforward, recvHead_sendFrame [] (by simp [closePayload])
                  (by simp [closePayload, kMaxFrameBytes])]
                simp only [recvFrame_close]
                simp [encode, exit, Socket.exit, hflying, closingBytes]
            | none =>
                have hforward : (s.encode batcher).forward = [] := by
                  simp [encode, hflying, hclosing, closingBytes]
                rw [hforward, show recvHead [] = .endOfStream from rfl]
                simp only
                by_cases hended : s.ended = true
                · rw [if_pos hended, if_pos hended]
                  rfl
                · rw [if_neg hended, if_neg hended]
                  rfl
  | pop =>
      simp only [socketStep, linkStep, Socket.pop, pop]
      rw [encode_channel, encode_drained]
      cases s.channel.queue with
      | nil =>
          simp only
          by_cases hend : (s.channel.closed && !s.drained) = true
          · rw [if_pos hend, if_pos hend]
            rfl
          · rw [if_neg hend, if_neg hend]
            rfl
      | cons el queue =>
          simp only [Option.map_some, encode]
          by_cases hgrant : el.isData = true ∧ UInt32.ofNat el.size ≠ 0
          · rw [if_pos hgrant, if_pos hgrant, List.flatMap_append]
            simp
          · rw [if_neg hgrant, if_neg hgrant]
  | credit =>
      simp only [socketStep, linkStep, Socket.credit, credit, encode]
      cases hgrants : s.grants with
      | nil => rfl
      | cons delta grants =>
          rw [List.flatMap_cons, recvHead_sendFrame _ (by simp [creditPayload])
            (by simp [creditPayload, kMaxFrameBytes])]
          simp only [creditFrame_creditPayload]
          rfl

end Link

/-! ## Pieces of a batch -/

/-- `out` is `els` up to cutting data batches into consecutive non-empty pieces. -/
inductive Splits : List (StreamElement R) → List (StreamElement R) → Prop
  | nil : Splits [] []
  | same {el els out} : Splits els out → Splits (el :: els) (el :: out)
  | cut {pieces : List (List R)} {els out} : (∀ piece ∈ pieces, piece ≠ []) → Splits els out →
      Splits (.data pieces.flatten :: els) (pieces.map .data ++ out)

theorem chunksFrom_flatten (batch : List R) (fuel off : Nat) (h : batch.length ≤ off + fuel) :
    (chunksFrom batch fuel off).flatten = batch.drop off := by
  induction fuel generalizing off with
  | zero =>
      rw [chunksFrom, List.flatten_nil, List.drop_eq_nil_of_le (by omega)]
  | succ fuel ih =>
      rw [chunksFrom]
      split
      · rename_i hoff
        have hpos : 0 < kMaxRecordsPerFrame := by decide
        have hnext : batch.drop (off + kMaxRecordsPerFrame) =
            (batch.drop off).drop kMaxRecordsPerFrame := by rw [List.drop_drop]
        have htake : sliceBatch batch off (min kMaxRecordsPerFrame (batch.length - off)) =
            (batch.drop off).take kMaxRecordsPerFrame := by
          rw [sliceBatch, ← List.length_drop, List.take_eq_take_iff]
          omega
        rw [List.flatten_cons, ih _ (by omega), htake, hnext, List.take_append_drop]
      · rename_i hoff
        rw [List.flatten_nil, List.drop_eq_nil_of_le (by omega)]

theorem mem_chunksFrom {batch : List R} {fuel off : Nat} {chunk : List R}
    (h : chunk ∈ chunksFrom batch fuel off) :
    chunk ≠ [] ∧ chunk.length ≤ kMaxRecordsPerFrame := by
  induction fuel generalizing off with
  | zero => simp [chunksFrom] at h
  | succ fuel ih =>
      rw [chunksFrom] at h
      split at h
      · rename_i hoff
        rcases List.mem_cons.mp h with rfl | h
        · have hlen : (sliceBatch batch off
              (min kMaxRecordsPerFrame (batch.length - off))).length =
              min kMaxRecordsPerFrame (batch.length - off) := by
            rw [sliceBatch, List.length_take, List.length_drop]
            omega
          have hpos : 0 < kMaxRecordsPerFrame := by decide
          refine ⟨?_, by omega⟩
          intro hnil
          rw [hnil] at hlen
          simp only [List.length_nil] at hlen
          omega
        · exact ih h
      · cases h

theorem size_pushRemote {frame : StreamElement R} (h : frame ∈ pushRemote el) :
    frame.size ≤ kInitialNetworkCredit := by
  cases el with
  | data batch =>
      rw [pushRemote] at h
      split at h
      · obtain ⟨chunk, hchunk, rfl⟩ := List.mem_map.mp h
        exact le_trans (mem_chunksFrom hchunk).2 (by decide)
      · obtain rfl := List.mem_singleton.mp h
        show batch.length ≤ _
        omega
  | watermark wm => obtain rfl := List.mem_singleton.mp h; exact Nat.zero_le _
  | barrier b => obtain rfl := List.mem_singleton.mp h; exact Nat.zero_le _
  | drain d => obtain rfl := List.mem_singleton.mp h; exact Nat.zero_le _

theorem splits_pushRemote (els : List (StreamElement R)) : Splits els (els.flatMap pushRemote) := by
  induction els with
  | nil => exact .nil
  | cons el els ih =>
      rw [List.flatMap_cons]
      cases el with
      | data batch =>
          rw [pushRemote]
          split
          · have hwhole := chunksFrom_flatten batch batch.length 0 (by omega)
            rw [List.drop_zero] at hwhole
            have hcut := @Splits.cut R (chunksFrom batch batch.length 0) els _
              (fun piece hpiece => (mem_chunksFrom hpiece).1) ih
            rw [hwhole] at hcut
            exact hcut
          · exact .same ih
      | watermark wm => exact .same ih
      | barrier b => exact .same ih
      | drain d => exact .same ih

/-! ## Runs of the socket -/

/-- The records of elements, as the credit counts them. -/
def records (els : List (StreamElement R)) : Nat := (els.map StreamElement.size).sum

@[simp] theorem records_nil : records ([] : List (StreamElement R)) = 0 := rfl

@[simp] theorem records_cons (el : StreamElement R) (els : List (StreamElement R)) :
    records (el :: els) = el.size + records els := rfl

@[simp] theorem records_append (els els' : List (StreamElement R)) :
    records (els ++ els') = records els + records els' := by
  simp [records]

/-- The reason the receiver closes with over the socket. -/
def socketReason : EndCall → ChannelCloseReason
  | .closeSend _ => .finished
  | .destroy => .cancelled

/-- The invariant of a connection: no element and no credit is lost, and the
receiver stops behind the sender's last frame. -/
structure Link.Inv (els : List (StreamElement R)) (call : EndCall) (s : Link R) : Prop where
  content : s.popped ++ s.channel.queue ++ s.flying ++ s.calls.flatten = els.flatMap pushRemote
  credit : s.remainingCredit.toNat + (s.grants.map UInt32.toNat).sum + records s.flying +
    records s.channel.queue = kInitialNetworkCredit
  small : ∀ frames ∈ s.calls, ∀ el ∈ frames, el.size ≤ kInitialNetworkCredit
  ended : s.ended = true → s.calls = []
  closing : s.ended = true → s.exited = false →
    ∀ cancelled, call = .closeSend cancelled → s.closing = some cancelled
  destroyed : call = .destroy → s.closing = none
  opened : s.ended = false → s.closing = none
  exited : s.exited = true → s.ended = true ∧ s.flying = []
  closed : s.channel.closed = s.exited
  reason : s.exited = true → s.channel.closeReason = socketReason call

namespace Link

variable {els : List (StreamElement R)} {call : EndCall} {s t : Link R}

theorem Inv.start : Inv els call (Link.start els) where
  content := by simp [Link.start, List.flatMap]
  credit := by simp [Link.start, kInitialNetworkCredit]
  small := by
    intro frames hf el hel
    obtain ⟨el', -, rfl⟩ := List.mem_map.mp hf
    exact size_pushRemote hel
  ended h := by cases h
  closing h := by cases h
  destroyed _ := rfl
  opened _ := rfl
  exited h := by cases h
  closed := rfl
  reason h := by cases h

variable {el : StreamElement R}

theorem toNat_size (h : el.size ≤ kInitialNetworkCredit) :
    (UInt32.ofNat el.size).toNat = el.size := by
  rw [UInt32.toNat_ofNat', Nat.mod_eq_of_lt]
  exact lt_of_le_of_lt h (by decide)

theorem size_eq_zero (h : el.isData = false) : el.size = 0 := by
  cases el with
  | data batch => cases h
  | _ => rfl

/-- Sending a frame spends as many credits as it has records. -/
theorem spendCredit_toNat {credit : UInt32} (hsize : el.size ≤ kInitialNetworkCredit)
    (hwait : awaitsCredit el credit = false) :
    (spendCredit el credit).toNat + el.size = credit.toNat := by
  rw [spendCredit]
  cases hdata : el.isData with
  | false =>
      rw [if_neg (by simp), size_eq_zero hdata]
      rfl
  | true =>
      have hle : UInt32.ofNat el.size ≤ credit := by
        rw [awaitsCredit, hdata] at hwait
        simpa using hwait
      have hnat : el.size ≤ credit.toNat := by
        rw [UInt32.le_iff_toNat_le, toNat_size hsize] at hle
        exact hle
      rw [if_pos rfl, UInt32.toNat_sub_of_le _ _ hle, toNat_size hsize]
      omega

theorem Inv.step (h : Inv els call s) (hmove : Moves call s t) : Inv els call t := by
  have hcontent := h.content
  have hcredit := h.credit
  cases hmove with
  | @returns calls heq =>
      refine { h with content := ?_, small := ?_, ended := ?_ }
      · rw [heq, List.flatten_cons, List.nil_append] at hcontent
        exact hcontent
      · intro frames hf
        exact h.small frames (by rw [heq]; exact List.mem_cons_of_mem _ hf)
      · intro hend
        have := h.ended hend
        rw [heq] at this
        cases this
  | @sends el frames calls heq hwait =>
      have hsize : el.size ≤ kInitialNetworkCredit :=
        h.small _ (by rw [heq]; exact List.mem_cons_self) el List.mem_cons_self
      have hopen : s.ended = false := by
        by_contra hend
        have := h.ended (by simpa using hend)
        rw [heq] at this
        cases this
      have hspend := spendCredit_toNat hsize hwait
      refine { h with content := ?_, credit := ?_, small := ?_, ended := ?_, exited := ?_ }
      · rw [heq] at hcontent
        simpa using hcontent
      · simp only [records_append, records_cons, records_nil]
        omega
      · intro frames' hf el' hel
        rcases List.mem_cons.mp hf with rfl | hf
        · exact h.small (el :: _) (by rw [heq]; exact List.mem_cons_self) el'
            (List.mem_cons_of_mem _ hel)
        · exact h.small frames' (by rw [heq]; exact List.mem_cons_of_mem _ hf) el' hel
      · intro hend
        rw [hopen] at hend
        cases hend
      · intro hexit
        have := (h.exited hexit).1
        rw [hopen] at this
        cases this
  | @closes cancelled hcall hidle hopen =>
      refine { h with ended := fun _ => hidle, closing := ?_, destroyed := ?_, opened := ?_,
                      exited := ?_ }
      · intro _ _ c hc
        rw [hcall, EndCall.closeSend.injEq] at hc
        rw [hc]
      · intro hdestroy
        rw [hcall] at hdestroy
        cases hdestroy
      · intro hend
        cases hend
      · intro hexit
        exact ⟨rfl, (h.exited hexit).2⟩
  | destroys hcall hidle hopen =>
      refine { h with ended := fun _ => hidle, closing := ?_, opened := ?_, exited := ?_ }
      · intro _ _ c hc
        rw [hcall] at hc
        cases hc
      · intro hend
        cases hend
      · intro hexit
        exact ⟨rfl, (h.exited hexit).2⟩
  | @delivers el flying hexit heq hchannel =>
      refine { h with content := ?_, credit := ?_, exited := ?_ }
      · rw [heq] at hcontent
        simpa using hcontent
      · rw [heq] at hcredit
        simp only [records_append, records_cons, records_nil] at hcredit ⊢
        omega
      · intro hyes
        rw [show s.exited = true from hyes] at hexit
        cases hexit
  | refused hexit heq hchannel =>
      rw [h.closed, hexit] at hchannel
      cases hchannel
  | @readsClose cancelled hexit hnone hclosing =>
      have hended : s.ended = true := by
        by_contra hopen
        rw [h.opened (by simpa using hopen)] at hclosing
        cases hclosing
      have hfinished : socketReason call = .finished := by
        cases call with
        | closeSend c => rfl
        | destroy =>
            rw [h.destroyed rfl] at hclosing
            cases hclosing
      have hchannel : s.channel.closed = false := by rw [h.closed, hexit]
      exact { h with
        closing := fun _ hyes => by cases hyes
        destroyed := fun _ => rfl
        opened := fun _ => rfl
        exited := fun _ => ⟨hended, hnone⟩
        closed := rfl
        reason := fun _ => by
          rw [hfinished]
          show (if s.channel.closed = true then _ else _) = _
          rw [hchannel]
          rfl }
  | readsEnd hexit hnone hclosing hended =>
      have hcancelled : socketReason call = .cancelled := by
        cases call with
        | closeSend c =>
            rw [h.closing hended hexit c rfl] at hclosing
            cases hclosing
        | destroy => rfl
      have hchannel : s.channel.closed = false := by rw [h.closed, hexit]
      exact { h with
        closing := fun _ hyes => by cases hyes
        exited := fun _ => ⟨hended, hnone⟩
        closed := rfl
        reason := fun _ => by
          rw [hcancelled]
          show (if s.channel.closed = true then _ else _) = _
          rw [hchannel]
          rfl }
  | @pops el queue heq =>
      rw [heq, records_cons] at hcredit
      have hsize : el.size ≤ kInitialNetworkCredit := by omega
      refine { h with content := ?_, credit := ?_ }
      · rw [heq] at hcontent
        simpa using hcontent
      · split
        · simp only [List.map_append, List.map_cons, List.map_nil, List.sum_append,
            List.sum_singleton, toNat_size hsize]
          omega
        · rename_i hno
          have hzero : el.size = 0 := by
            cases hdata : el.isData with
            | false => exact size_eq_zero hdata
            | true =>
                have hdelta : UInt32.ofNat el.size = 0 := by
                  by_contra hne
                  exact hno ⟨hdata, hne⟩
                rw [← toNat_size hsize, hdelta]
                rfl
          simp only
          omega
  | drains hnone hclosed hdrained => exact { h with }
  | @credits delta grants heq =>
      refine { h with credit := ?_ }
      rw [heq, List.map_cons, List.sum_cons] at hcredit
      have hle : s.remainingCredit.toNat + delta.toNat < 2 ^ 32 := by
        have : kInitialNetworkCredit < 2 ^ 32 := by decide
        omega
      have hadd : (s.remainingCredit + delta).toNat = s.remainingCredit.toNat + delta.toNat := by
        rw [UInt32.toNat_add, Nat.mod_eq_of_lt hle]
      simp only [hadd]
      omega

/-- The steps still to come at most. -/
def ahead (s : Link R) : Nat :=
  4 * s.calls.flatten.length + s.calls.length + (if s.ended then 0 else 4) + 3 * s.flying.length +
    (if s.closing.isSome then 3 else 0) + 2 * s.channel.queue.length + s.grants.length +
    (if s.exited then 0 else 1) + if s.drained then 0 else 1

theorem ahead_lt (h : Inv els call s) (hmove : Moves call s t) : t.ahead < s.ahead := by
  cases hmove with
  | @returns calls heq =>
      simp only [ahead, heq, List.flatten_cons, List.nil_append, List.length_cons]
      omega
  | @sends el frames calls heq hwait =>
      simp only [ahead, heq, List.flatten_cons, List.length_append, List.length_cons,
        List.length_nil]
      omega
  | closes hcall hidle hopen =>
      simp only [ahead, hopen, h.opened hopen]
      simp
      omega
  | destroys hcall hidle hopen =>
      simp only [ahead, hopen]
      simp
  | @delivers el flying hexit heq hchannel =>
      simp only [ahead, heq, List.length_append, List.length_cons, List.length_nil]
      omega
  | refused hexit heq hchannel =>
      rw [h.closed, hexit] at hchannel
      cases hchannel
  | readsClose hexit hnone hclosing =>
      simp only [ahead, hexit, hclosing, exit, BoundedChannel.close, Option.isSome_none,
        Option.isSome_some, Bool.false_eq_true, if_true, if_false]
      omega
  | readsEnd hexit hnone hclosing hended =>
      simp only [ahead, hexit, hended, hclosing, exit, BoundedChannel.close]
      cases s.drained <;> simp
  | @pops el queue heq =>
      have hgrants : (if el.isData = true ∧ UInt32.ofNat el.size ≠ 0 then
          s.grants ++ [UInt32.ofNat el.size] else s.grants).length ≤ s.grants.length + 1 := by
        split <;> simp
      simp only [ahead, heq, List.length_cons]
      omega
  | drains hnone hclosed hdrained =>
      simp only [ahead, hdrained]
      simp
  | @credits delta grants heq =>
      simp only [ahead, heq, List.length_cons]
      omega

/-- Every party waits only at the end: all frames are popped, and the channel is
closed for the reason of the end call. -/
theorem stuck_spec (h : Inv els call s) (hstuck : Stuck (linkStep call) s) :
    s.popped = els.flatMap pushRemote ∧ s.channel.closed = true ∧
      s.channel.closeReason = socketReason call := by
  have hqueue : s.channel.queue = [] := by
    have hpop := hstuck .pop
    simp only [linkStep, pop] at hpop
    split at hpop
    · cases hpop
    · assumption
  have hgrants : s.grants = [] := by
    have hcredit := hstuck .credit
    simp only [linkStep, credit] at hcredit
    split at hcredit
    · cases hcredit
    · assumption
  have hflying : s.flying = [] ∧ (s.exited = false → s.ended = false) := by
    have hrecv := hstuck .recv
    simp only [linkStep, recv] at hrecv
    split at hrecv
    · rename_i hexit
      exact ⟨(h.exited hexit).2, fun hno => by rw [hexit] at hno; cases hno⟩
    · split at hrecv
      · have hroom : s.channel.full = false := by
          simp [BoundedChannel.full, hqueue, kLocalChannelCapacity]
        rw [if_neg (by simp [hroom])] at hrecv
        split at hrecv <;> cases hrecv
      · rename_i hnone
        refine ⟨hnone, fun _ => ?_⟩
        split at hrecv
        · cases hrecv
        · split at hrecv
          · cases hrecv
          · rename_i hended
            simpa using hended
  have hcalls : s.calls = [] := by
    have hsend := hstuck .send
    simp only [linkStep, send] at hsend
    split at hsend
    · assumption
    · cases hsend
    · rename_i el frames calls heq
      -- With nothing under way the whole credit window is here.
      have hcredit := h.credit
      rw [hgrants, hflying.1, hqueue] at hcredit
      have hwindow : s.remainingCredit.toNat = kInitialNetworkCredit := by simpa using hcredit
      have hsize : el.size ≤ kInitialNetworkCredit :=
        h.small _ (by rw [heq]; exact List.mem_cons_self) el List.mem_cons_self
      have henough : awaitsCredit el s.remainingCredit = false := by
        rw [awaitsCredit, Bool.and_eq_false_iff]
        right
        rw [decide_eq_false_iff_not, UInt32.lt_iff_toNat_lt, toNat_size hsize, hwindow]
        omega
      rw [if_neg (by simp [henough])] at hsend
      cases hsend
  have hended : s.ended = true := by
    have hfinish := hstuck .finish
    simp only [linkStep, finish] at hfinish
    split at hfinish
    · rename_i hidle
      simpa [hcalls] using hidle
    · split at hfinish <;> cases hfinish
  have hexited : s.exited = true := by
    by_contra hno
    have := hflying.2 (by simpa using hno)
    rw [hended] at this
    cases this
  have hcontent := h.content
  rw [hqueue, hflying.1, hcalls] at hcontent
  exact ⟨by simpa using hcontent, by rw [h.closed, hexited], h.reason hexited⟩

end Link

/-! ## Runs of the local path -/

/-- The reason the local channel is closed with. -/
def localReason : EndCall → ChannelCloseReason
  | .closeSend true => .cancelled
  | .closeSend false => .finished
  | .destroy => .finished

structure Local.Inv (els : List (StreamElement R)) (call : EndCall) (s : Local R) : Prop where
  content : s.popped ++ s.channel.queue ++ s.els = els
  ended : s.ended = true → s.els = [] ∧ s.channel.closeReason = localReason call
  closed : s.channel.closed = s.ended

namespace Local

variable {els : List (StreamElement R)} {call : EndCall} {s t : Local R}

def ahead (s : Local R) : Nat :=
  2 * s.els.length + s.channel.queue.length + (if s.ended then 0 else 1) +
    if s.drained then 0 else 1

theorem Inv.step {a : LocalAction} (h : Inv els call s) (hstep : localStep call a s = some t) :
    Inv els call t ∧ t.ahead < s.ahead := by
  obtain ⟨hcontent, hended, hclosed⟩ := h
  cases a with
  | push =>
      simp only [localStep, push] at hstep
      split at hstep
      · cases hstep
      · rename_i el rest heq
        split at hstep
        · cases hstep
        · have hopen : s.ended = false := by
            by_contra hend
            have := (hended (by simpa using hend)).1
            rw [heq] at this
            cases this
          cases hstep
          rw [BoundedChannel.push, if_neg (by rw [hclosed, hopen]; simp), Option.getD_some]
          refine ⟨⟨?_, ?_, hclosed⟩, ?_⟩
          · rw [heq] at hcontent
            simpa using hcontent
          · intro hend
            rw [hopen] at hend
            cases hend
          · simp only [ahead, heq, List.length_append, List.length_cons, List.length_nil]
            omega
  | finish =>
      simp only [localStep, finish] at hstep
      split at hstep
      · cases hstep
      · rename_i hidle
        have hboth : s.els = [] ∧ s.ended = false := by simpa using hidle
        have hchannel : s.channel.closed = false := by rw [hclosed, hboth.2]
        cases hstep
        refine ⟨⟨?_, ?_, rfl⟩, ?_⟩
        · cases call with
          | closeSend cancelled => cases cancelled <;> exact hcontent
          | destroy => exact hcontent
        · intro _
          refine ⟨hboth.1, ?_⟩
          cases call with
          | closeSend cancelled =>
              cases cancelled <;> simp [BoundedChannel.close, hchannel, localReason]
          | destroy => simp [BoundedChannel.close, hchannel, localReason]
        · cases call with
          | closeSend cancelled =>
              cases cancelled <;> simp [ahead, BoundedChannel.close, hboth.2]
          | destroy => simp [ahead, BoundedChannel.close, hboth.2]
  | pop =>
      simp only [localStep, pop] at hstep
      split at hstep
      · rename_i el queue heq
        cases hstep
        refine ⟨⟨?_, hended, hclosed⟩, ?_⟩
        · rw [heq] at hcontent
          simpa using hcontent
        · simp only [ahead, heq, List.length_cons]
          omega
      · split at hstep
        · rename_i hend
          cases hstep
          have hdrained : s.drained = false := by simpa using (Bool.and_eq_true_iff.mp hend).2
          refine ⟨⟨hcontent, hended, hclosed⟩, ?_⟩
          simp only [ahead, hdrained]
          simp
        · cases hstep

theorem stuck_spec (h : Inv els call s) (hstuck : Stuck (localStep call) s) :
    s.popped = els ∧ s.channel.closed = true ∧ s.channel.closeReason = localReason call := by
  have hqueue : s.channel.queue = [] := by
    have hpop := hstuck .pop
    simp only [localStep, pop] at hpop
    split at hpop
    · cases hpop
    · assumption
  have hels : s.els = [] := by
    have hpush := hstuck .push
    simp only [localStep, push] at hpush
    split at hpush
    · assumption
    · have hroom : s.channel.full = false := by
        simp [BoundedChannel.full, hqueue, kLocalChannelCapacity]
      rw [if_neg (by simp [hroom])] at hpush
      cases hpush
  have hended : s.ended = true := by
    have hfinish := hstuck .finish
    simp only [localStep, finish] at hfinish
    split at hfinish
    · rename_i hidle
      simpa [hels] using hidle
    · cases hfinish
  have hcontent := h.content
  rw [hqueue, hels] at hcontent
  exact ⟨by simpa using hcontent, by rw [h.closed, hended], (h.ended hended).2⟩

end Local

/-! ## The two paths -/

/-- The socket is as good as the local channel for these calls: on either path
every schedule is bounded, and where all parties wait the elements have been
popped, over the socket up to pieces, and the receivers see the same close
reason, finished exactly for `close_send(false)`. -/
structure FaithfulTo (beyond : Nat → UInt8) (els : List (StreamElement R)) (call : EndCall) :
    Prop where
  bounded : ∃ n, ∀ as s, Schedule (socketStep batcher beyond call) (Socket.start els) as s →
    as.length ≤ n
  boundedLocal : ∃ n, ∀ as s, Schedule (localStep call) ({ els := els } : Local R) as s →
    as.length ≤ n
  popped : ∀ as s, Schedule (socketStep batcher beyond call) (Socket.start els) as s →
    Stuck (socketStep batcher beyond call) s → Splits els s.popped ∧ s.channel.closed = true
  poppedLocal : ∀ as s, Schedule (localStep call) ({ els := els } : Local R) as s →
    Stuck (localStep call) s → s.popped = els ∧ s.channel.closed = true
  reason : ∀ as s bs t, Schedule (socketStep batcher beyond call) (Socket.start els) as s →
    Stuck (socketStep batcher beyond call) s →
    Schedule (localStep call) ({ els := els } : Local R) bs t → Stuck (localStep call) t →
    s.channel.closeReason = t.channel.closeReason ∧
      (s.channel.closeReason = .finished ↔ call = .closeSend false)

section Runs

variable (beyond : Nat → UInt8) (els : List (StreamElement R)) (call : EndCall)

/-- What holds of a connection all along a run. -/
structure Link.Reached (s : Link R) : Prop where
  framed : s.Framed batcher
  inv : Link.Inv els call s

namespace Link

theorem Reached.start (hfits : ∀ el ∈ els, ∀ frame ∈ pushRemote el, FitsFrame batcher frame) :
    Reached batcher els call (Link.start els) where
  framed :=
    { calls := by
        intro frames hf el hel
        obtain ⟨el', hmem, rfl⟩ := List.mem_map.mp hf
        exact hfits el' hmem el hel
      flying := by simp [Link.start]
      ended := fun h => by cases h
      closing := fun h => by cases h }
  inv := .start

theorem Reached.step (a : Action) (s t : Link R) (h : Reached batcher els call s)
    (hstep : linkStep call a s = some t) : Reached batcher els call t where
  framed := h.framed.step batcher (Link.moves a hstep)
  inv := h.inv.step (Link.moves a hstep)

theorem Reached.lower (a : Action) (s t : Link R) (h : Reached batcher els call s)
    (hstep : linkStep call a s = some t) : t.ahead < s.ahead :=
  ahead_lt h.inv (Link.moves a hstep)

theorem Reached.simulates (hlaw : batcher.Lawful) (a : Action) (s : Link R)
    (h : Reached batcher els call s) :
    socketStep batcher beyond call a (s.encode batcher) =
      (linkStep call a s).map (Link.encode batcher) :=
  socketStep_encode batcher hlaw beyond call a h.framed

theorem encode_start : (Link.start els).encode batcher = Socket.start els := by
  simp [Link.encode, Link.start, Socket.start, Link.closingBytes]

end Link

/-- A run of the socket is bounded, and where it is stuck everything is popped. -/
theorem socket_run (hlaw : batcher.Lawful)
    (hfits : ∀ el ∈ els, ∀ frame ∈ pushRemote el, FitsFrame batcher frame) {as : List Action}
    {s : Socket R} (h : Schedule (socketStep batcher beyond call) (Socket.start els) as s) :
    as.length ≤ (Link.start els).ahead ∧
      (Stuck (socketStep batcher beyond call) s → s.popped = els.flatMap pushRemote ∧
        s.channel.closed = true ∧ s.channel.closeReason = socketReason call) := by
  have hinit := Link.Reached.start batcher els call hfits
  have hstep := Link.Reached.step batcher els call
  have hsim := Link.Reached.simulates batcher beyond els call hlaw
  rw [← Link.encode_start batcher] at h
  obtain ⟨l, hrun, rfl⟩ := Schedule.of_encoded hinit hstep hsim h
  have hreached := hrun.induct hinit hstep
  have hlen := hrun.length_add_le hinit hstep (Link.Reached.lower batcher els call)
  refine ⟨by omega, fun hstuck => ?_⟩
  exact Link.stuck_spec hreached.inv ((Schedule.stuck_encoded hsim hreached).mp hstuck)

theorem socket_comes_to_rest (hlaw : batcher.Lawful)
    (hfits : ∀ el ∈ els, ∀ frame ∈ pushRemote el, FitsFrame batcher frame) :
    ∃ as s, Schedule (socketStep batcher beyond call) (Socket.start els) as s ∧
      Stuck (socketStep batcher beyond call) s := by
  have hinit := Link.Reached.start batcher els call hfits
  have hstep := Link.Reached.step batcher els call
  have hsim := Link.Reached.simulates batcher beyond els call hlaw
  obtain ⟨as, l, hrun, hstuck⟩ := Schedule.exists_stuck hinit hstep
    (Link.Reached.lower batcher els call)
  refine ⟨as, l.encode batcher, ?_, ?_⟩
  · rw [← Link.encode_start batcher]
    exact hrun.encoded hinit hstep hsim
  · exact (Schedule.stuck_encoded hsim (hrun.induct hinit hstep)).mpr hstuck

theorem Local.Inv.start : Local.Inv els call { els := els } where
  content := rfl
  ended h := by cases h
  closed := rfl

theorem local_run {as : List LocalAction} {s : Local R}
    (h : Schedule (localStep call) { els := els } as s) :
    as.length ≤ ({ els := els } : Local R).ahead ∧
      (Stuck (localStep call) s → s.popped = els ∧ s.channel.closed = true ∧
        s.channel.closeReason = localReason call) := by
  have hinit := Local.Inv.start els call
  have hinv := h.induct hinit fun _ _ _ h hs => (h.step hs).1
  have hlen := h.length_add_le hinit (fun _ _ _ h hs => (h.step hs).1)
    fun _ _ _ h hs => (h.step hs).2
  exact ⟨by omega, Local.stuck_spec hinv⟩

theorem local_comes_to_rest : ∃ as s,
    Schedule (localStep call) ({ els := els } : Local R) as s ∧ Stuck (localStep call) s :=
  Schedule.exists_stuck (Local.Inv.start els call) (fun _ _ _ h hs => (h.step hs).1)
    fun _ _ _ h hs => (h.step hs).2

end Runs

/-- The socket channel is faithful to the local one exactly for the calls that
end in `close_send(false)`. -/
theorem socket_faithful_iff (hlaw : batcher.Lawful) (beyond : Nat → UInt8)
    (els : List (StreamElement R)) (call : EndCall)
    (hfits : ∀ el ∈ els, ∀ frame ∈ pushRemote el, FitsFrame batcher frame) :
    FaithfulTo batcher beyond els call ↔ call = .closeSend false := by
  constructor
  · intro h
    obtain ⟨as, s, hrun, hstuck⟩ := socket_comes_to_rest batcher beyond els call hlaw hfits
    obtain ⟨bs, t, hlocal, hend⟩ := local_comes_to_rest els call
    obtain ⟨hsame, -⟩ := h.reason as s bs t hrun hstuck hlocal hend
    rw [((socket_run batcher beyond els _ hlaw hfits hrun).2 hstuck).2.2,
      ((local_run els _ hlocal).2 hend).2.2] at hsame
    cases call with
    | closeSend cancelled => cases cancelled <;> first | rfl | cases hsame
    | destroy => cases hsame
  · rintro rfl
    refine ⟨⟨_, fun as s h => (socket_run batcher beyond els _ hlaw hfits h).1⟩,
      ⟨_, fun as s h => (local_run els _ h).1⟩,
      ?_, ?_, ?_⟩
    · intro as s h hstuck
      obtain ⟨hpopped, hclosed, -⟩ := (socket_run batcher beyond els _ hlaw hfits h).2 hstuck
      rw [hpopped]
      exact ⟨splits_pushRemote els, hclosed⟩
    · intro as s h hstuck
      obtain ⟨hpopped, hclosed, -⟩ := (local_run els _ h).2 hstuck
      exact ⟨hpopped, hclosed⟩
    · intro as s bs t h hstuck hlocal hend
      rw [((socket_run batcher beyond els _ hlaw hfits h).2 hstuck).2.2,
        ((local_run els _ hlocal).2 hend).2.2]
      exact ⟨rfl, iff_of_true rfl rfl⟩

theorem byteBatcher_lawful : byteBatcher.Lawful := fun batch => ⟨batch, rfl, rfl⟩

/-- A batch, an idle watermark and a terminal barrier, then `close_send(false)`. -/
theorem socket_faithful_closed :
    FaithfulTo byteBatcher (fun _ => 0)
      [.data [1, 2], .watermark (.idle ⊥), .barrier ⟨7, true, unaligned⟩] (.closeSend false) := by
  refine (socket_faithful_iff byteBatcher byteBatcher_lawful _ _ _ ?_).mpr rfl
  intro el hel frame hframe bytes hbytes
  simp only [List.mem_cons, List.not_mem_nil, or_false] at hel
  rcases hel with rfl | rfl | rfl <;>
    · obtain rfl := List.mem_singleton.mp hframe
      cases hbytes
      decide

/-- With nothing pushed, `close_send(true)` is finished over the socket and
cancelled on the local path, and a destroyed sink the other way round. -/
theorem close_reasons_differ :
    ¬ FaithfulTo byteBatcher (fun _ => 0) [] (.closeSend true) ∧
      ¬ FaithfulTo byteBatcher (fun _ => 0) [] .destroy := by
  constructor
  · intro h
    have hsame := h.reason [.credit, .finish, .recv, .pop] _ [.finish, .pop] _
      (.snoc (.snoc (.snoc (.snoc .nil rfl) rfl) rfl) rfl) (fun a => by cases a <;> rfl)
      (.snoc (.snoc .nil rfl) rfl) (fun a => by cases a <;> rfl)
    exact absurd hsame.1 (by decide)
  · intro h
    have hsame := h.reason [.credit, .finish, .recv, .pop] _ [.finish, .pop] _
      (.snoc (.snoc (.snoc (.snoc .nil rfl) rfl) rfl) rfl) (fun a => by cases a <;> rfl)
      (.snoc (.snoc .nil rfl) rfl) (fun a => by cases a <;> rfl)
    exact absurd hsame.1 (by decide)

end Clink.Ports.NetworkChannel

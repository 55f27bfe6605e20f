import Clink.Ports.NetworkChannel

/-!
# Credit on one connection

The credit of `Clink.Ports.NetworkChannel` counted over a connection, from the
sender's `connect` on: the receiver accepts and grants the first credit in a step
of its own, and frames may be under way before that.  A connection carries the
frames its sender has put on the wire, for the count.

Three numbers are updated at different moments: what the sender has left, the
records sent and not popped, and the grants under way.  `Flow.credit` says that
they add up to the window once the first grant is made; nothing is assumed about
what becomes of a frame at the receiver beyond its number of records, so frames
that end the connection are counted as sent and never popped.  The credit of a
frame that cannot be built is gone.
-/

namespace Clink.Ports.NetworkChannel

open Clink.Verified

variable {R : Type} (batcher : ArrowBatcher R)

/-! ## Connections -/

structure Connection (R : Type) where
  accepted : Bool := false
  socket : Socket R
  /-- The frames put on the wire so far. -/
  sent : List (StreamElement R) := []

def Connection.start (els : List (StreamElement R)) : Connection R :=
  { socket := { calls := els.map pushRemote } }

/-- `accept` of the receiver, or a step of one of the threads. -/
inductive Turn
  | accept
  | act (a : Action)
  deriving DecidableEq

/-- The frame the sender's next step puts on the wire. -/
def nextSent (s : Socket R) : List (StreamElement R) :=
  match s.calls with
  | (el :: _) :: _ => if (payload batcher el).isSome then [el] else []
  | _ => []

def turn (beyond : Nat → UInt8) (call : EndCall) : Turn → Connection R → Option (Connection R)
  | .accept, c =>
      if c.accepted then none
      else
        some { c with
          accepted := true
          socket := { c.socket with
            reverse := c.socket.reverse ++
              sendFrame (creditPayload (UInt32.ofNat kInitialNetworkCredit)) } }
  | .act .recv, c =>
      if c.accepted then (c.socket.recv batcher beyond).map fun s =>
        { c with socket := s } else none
  | .act .send, c =>
      (c.socket.send batcher).map fun s =>
        { c with socket := s, sent := c.sent ++ nextSent batcher c.socket }
  | .act a, c => (socketStep batcher beyond call a c.socket).map fun s => { c with socket := s }

/-- The credit the reader of a reverse stream is still to apply. -/
def grantedIn (beyond : Nat → UInt8) (reverse : List UInt8) : Nat :=
  ((readCredits beyond reverse).filterMap fun log => log.outcome.map UInt32.toNat).sum

/-- The records sent and not popped. -/
def Connection.unpopped (c : Connection R) : Nat := records c.sent - records c.socket.popped

/-- What is to hold of the credit of a connection. -/
structure Conserved (beyond : Nat → UInt8) (c : Connection R) : Prop where
  /-- Nothing is popped that was not sent. -/
  popped : records c.socket.popped ≤ records c.sent
  bounded : c.socket.remainingCredit.toNat + c.unpopped + grantedIn beyond c.socket.reverse ≤
    kInitialNetworkCredit
  /-- From the first grant on the three numbers add up to the window. -/
  window : c.accepted = true →
    c.socket.remainingCredit.toNat + c.unpopped + grantedIn beyond c.socket.reverse =
      kInitialNetworkCredit
  /-- A frame that goes out leaves the difference, as numbers. -/
  spends : ∀ el frames calls, c.socket.calls = (el :: frames) :: calls →
    awaitsCredit el c.socket.remainingCredit = false →
    (spendCredit el c.socket.remainingCredit).toNat + el.size = c.socket.remainingCredit.toNat
  /-- With everything popped and every grant applied no frame waits. -/
  goesOn : c.accepted = true → c.unpopped = 0 → grantedIn beyond c.socket.reverse = 0 →
    ∀ el frames calls, c.socket.calls = (el :: frames) :: calls →
      awaitsCredit el c.socket.remainingCredit = false

/-- A parsed batch has the rows that were built. -/
def ArrowBatcher.KeepsRows : Prop :=
  ∀ batch recordBatch batch', batcher.build batch = some recordBatch →
    parseArrow batcher (batcher.toIpc recordBatch) = .ok batch' → batch'.length = batch.length

/-- The frame of an element can be built, and its header holds its length. -/
def Sendable (el : StreamElement R) : Prop :=
  ∃ bytes, payload batcher el = some bytes ∧ bytes.length < 2 ^ 32

/-! ## Frames at the receiver -/

/-- A frame over the cap ends the connection before its body is read. -/
theorem recvHead_oversized {bytes : List UInt8} (rest : List UInt8)
    (hcap : kMaxFrameBytes < bytes.length) (hlt : bytes.length < 2 ^ 32) :
    recvHead (sendFrame bytes ++ rest) = .corrupt := by
  have hlen : (UInt32.ofNat bytes.length).toNat = bytes.length := by
    rw [UInt32.toNat_ofNat', Nat.mod_eq_of_lt hlt]
  have hheader : recvAll 4 (sendFrame bytes ++ rest) =
      some (putU32BE (UInt32.ofNat bytes.length), bytes ++ rest) := by
    rw [sendFrame, List.append_assoc, recvAll, if_neg, List.take_left', List.drop_left'] <;> simp
  rw [recvHead, hheader]
  simp only [readU32BE_putU32BE, hlen]
  rw [if_pos (.inr hcap)]

/-- The frame of an element is delivered with as many records, or ends the
connection. -/
theorem recvFrame_payload (hrows : batcher.KeepsRows) (beyond : Nat → UInt8)
    {el : StreamElement R} {bytes : List UInt8} (hbytes : payload batcher el = some bytes) :
    bytes ≠ [] ∧
      ((∃ el', (recvFrame batcher beyond bytes).1 = .deliver el' ∧ el'.size = el.size) ∨
        ∃ reason failure, (recvFrame batcher beyond bytes).1 = .close reason failure) := by
  by_cases hdata : el.isData = true
  · cases el with
    | data batch =>
        rw [payload, Option.map_eq_some_iff] at hbytes
        obtain ⟨recordBatch, hbuild, rfl⟩ := hbytes
        refine ⟨List.cons_ne_nil _ _, ?_⟩
        rw [recvFrame, load_zero, Kind.ofByte_byte]
        simp only [recvSwitch]
        rw [loadBytes_tail]
        cases hparse : parseArrow batcher (batcher.toIpc recordBatch) with
        | error reason => exact .inr ⟨_, _, rfl⟩
        | ok batch' => exact .inl ⟨_, rfl, hrows batch recordBatch batch' hbuild hparse⟩
    | _ => cases hdata
  · have hcontrol : el.isData = false := by simpa using hdata
    obtain ⟨bytes', hbytes', henc⟩ := payload_encodes_control batcher hcontrol
    rw [hbytes', Option.some.injEq] at hbytes
    subst hbytes
    exact ⟨henc.ne_nil batcher, .inl ⟨el, recvFrame_of_encodes batcher beyond henc, rfl⟩⟩

/-! ## The invariant -/

/-- The bytes of grants. -/
def grantBytes (grants : List UInt32) : List UInt8 :=
  grants.flatMap fun delta => sendFrame (creditPayload delta)

/-- A connection with the frames sent and not delivered, the reason of a `Close`
frame behind them, and the grants under way. -/
structure Flow (c : Connection R) (flying : List (StreamElement R)) (closing : Option Bool)
    (grants : List UInt32) : Prop where
  calls : ∀ frames ∈ c.socket.calls, ∀ el ∈ frames,
    el.size ≤ kInitialNetworkCredit ∧ Sendable batcher el
  ended : c.socket.ended = true → c.socket.calls = []
  closes : closing.isSome = true → c.socket.ended = true
  sendable : ∀ el ∈ flying, Sendable batcher el
  /-- Once the receiver's loop has returned nothing reads the stream. -/
  forward : c.socket.exited = false →
    c.socket.forward = flying.flatMap (Link.elementBytes batcher) ++ Link.closingBytes closing
  reverse : c.socket.reverse = grantBytes grants
  sent : records c.sent = records c.socket.popped + records c.socket.channel.queue + records flying
  credit : c.socket.remainingCredit.toNat + (grants.map UInt32.toNat).sum +
    records c.socket.channel.queue + records flying =
      if c.accepted then kInitialNetworkCredit else 0

variable {batcher} {c d : Connection R} {flying : List (StreamElement R)} {closing : Option Bool}
  {grants : List UInt32}

namespace Flow

/-- The parts of the invariant that do not change where the receiver's loop
returns; the frames it had not read are never popped. -/
theorem exit (h : Flow batcher c flying closing grants) (rest : List UInt8)
    (reason : ChannelCloseReason) :
    Flow batcher { c with socket := { c.socket with forward := rest }.exit reason } flying closing
      grants :=
  { h with forward := fun hno => by cases hno }

theorem le_window (h : Flow batcher c flying closing grants) :
    c.socket.remainingCredit.toNat + (grants.map UInt32.toNat).sum +
      records c.socket.channel.queue + records flying ≤ kInitialNetworkCredit := by
  rw [h.credit]
  split
  · exact le_rfl
  · exact Nat.zero_le _

theorem accept (h : Flow batcher c flying closing grants) (hno : c.accepted = false) :
    Flow batcher
      { c with
        accepted := true
        socket := { c.socket with
          reverse := c.socket.reverse ++
            sendFrame (creditPayload (UInt32.ofNat kInitialNetworkCredit)) } }
      flying closing (grants ++ [UInt32.ofNat kInitialNetworkCredit]) := by
  have hcredit := h.credit
  rw [hno, if_neg (by simp)] at hcredit
  refine { h with reverse := ?_, credit := ?_ }
  · simp only [h.reverse, grantBytes, List.flatMap_append, List.flatMap_singleton]
  · have hinitial : (UInt32.ofNat kInitialNetworkCredit).toNat = kInitialNetworkCredit := rfl
    simp only [List.map_append, List.map_cons, List.map_nil, List.sum_append, List.sum_singleton,
      hinitial, if_true]
    omega

variable {s : Socket R}

theorem send (h : Flow batcher c flying closing grants) (hstep : c.socket.send batcher = some s) :
    ∃ flying', Flow batcher { c with socket := s, sent := c.sent ++ nextSent batcher c.socket }
      flying' closing grants := by
  rw [Socket.send] at hstep
  rcases hcalls : c.socket.calls with - | ⟨- | ⟨el, frames⟩, calls⟩
  · rw [hcalls] at hstep
    cases hstep
  · rw [hcalls] at hstep
    obtain rfl := Option.some.inj hstep
    refine ⟨flying, { h with calls := ?_, ended := ?_, sent := ?_ }⟩
    · exact fun frames hf => h.calls frames (by rw [hcalls]; exact List.mem_cons_of_mem _ hf)
    · intro hend
      have := h.ended hend
      rw [hcalls] at this
      cases this
    · simpa [nextSent, hcalls] using h.sent
  · obtain ⟨hsize, bytes, hbytes, hlt⟩ :=
      h.calls _ (by rw [hcalls]; exact List.mem_cons_self) el List.mem_cons_self
    have hopen : c.socket.ended = false := by
      by_contra hend
      have := h.ended (by simpa using hend)
      rw [hcalls] at this
      cases this
    have hlast : closing = none := by
      by_contra hsome
      have := h.closes (Option.isSome_iff_ne_none.mpr hsome)
      rw [hopen] at this
      cases this
    rw [hcalls] at hstep
    simp only [hbytes] at hstep
    by_cases hwait : awaitsCredit el c.socket.remainingCredit = true
    · rw [if_pos hwait] at hstep
      cases hstep
    · rw [if_neg hwait] at hstep
      obtain rfl := Option.some.inj hstep
      have hspend := Link.spendCredit_toNat hsize (by simpa using hwait)
      have hcredit := h.credit
      have hsent := h.sent
      refine ⟨flying ++ [el], { h with
        calls := ?_, ended := ?_, sendable := ?_, forward := ?_, sent := ?_, credit := ?_ }⟩
      · intro frames' hf el' hel
        rcases List.mem_cons.mp hf with rfl | hf
        · exact h.calls (el :: _) (by rw [hcalls]; exact List.mem_cons_self) el'
            (List.mem_cons_of_mem _ hel)
        · exact h.calls frames' (by rw [hcalls]; exact List.mem_cons_of_mem _ hf) el' hel
      · intro hend
        rw [hopen] at hend
        cases hend
      · intro el' hel
        rcases List.mem_append.mp hel with hel | hel
        · exact h.sendable el' hel
        · obtain rfl := List.mem_singleton.mp hel
          exact ⟨bytes, hbytes, hlt⟩
      · intro hin
        simp only [h.forward hin, hlast, Link.closingBytes, Option.map_none, Option.getD_none,
          List.append_nil, List.flatMap_append, List.flatMap_singleton, Link.elementBytes, hbytes,
          Option.getD_some]
      · simp only [nextSent, hcalls, hbytes, Option.isSome_some, if_true, records_append,
          records_cons, records_nil]
        omega
      · simp only [records_append, records_cons, records_nil]
        omega

theorem finish (h : Flow batcher c flying closing grants) {call : EndCall}
    (hstep : c.socket.finish call = some s) :
    ∃ closing', Flow batcher { c with socket := s } flying closing' grants := by
  unfold Socket.finish at hstep
  split at hstep
  · cases hstep
  · rename_i hidle
    simp only [Bool.or_eq_true, not_or, Bool.not_eq_true, Bool.not_eq_false',
      List.isEmpty_iff] at hidle
    obtain ⟨hcalls, hopen⟩ := hidle
    have hlast : closing = none := by
      by_contra hsome
      have := h.closes (Option.isSome_iff_ne_none.mpr hsome)
      rw [hopen] at this
      cases this
    cases call with
    | closeSend cancelled =>
        obtain rfl := Option.some.inj hstep
        refine ⟨some cancelled, { h with
          ended := fun _ => hcalls, closes := fun _ => rfl, forward := ?_ }⟩
        intro hin
        simp [h.forward hin, hlast, Link.closingBytes]
    | destroy =>
        obtain rfl := Option.some.inj hstep
        exact ⟨closing, { h with ended := fun _ => hcalls, closes := fun _ => rfl }⟩

variable {beyond : Nat → UInt8}

section

variable (h : Flow batcher c flying closing grants)
include h

/-- A turn of the receiver's loop takes the next frame in, or returns. -/
theorem recv (hrows : batcher.KeepsRows) (hstep : c.socket.recv batcher beyond = some s) :
    ∃ flying' closing', Flow batcher { c with socket := s } flying' closing' grants := by
  rw [Socket.recv] at hstep
  by_cases hexited : c.socket.exited = true
  · rw [if_pos hexited] at hstep
    cases hstep
  rw [if_neg hexited] at hstep
  have hforward := h.forward (by simpa using hexited)
  cases flying with
  | nil =>
      cases closing with
      | none =>
          rw [show c.socket.forward = [] by simpa [Link.closingBytes] using hforward,
            show recvHead [] = .endOfStream from rfl] at hstep
          simp only at hstep
          split at hstep
          · obtain rfl := Option.some.inj hstep
            exact ⟨_, _, h.exit c.socket.forward .cancelled⟩
          · cases hstep
      | some cancelled =>
          have hbytes : c.socket.forward = sendFrame (closePayload cancelled) ++ [] := by
            simpa [Link.closingBytes] using hforward
          rw [hbytes, recvHead_sendFrame [] (by simp [closePayload])
            (by simp [closePayload, kMaxFrameBytes])] at hstep
          simp only [recvFrame_close] at hstep
          obtain rfl := Option.some.inj hstep
          exact ⟨_, _, h.exit [] .finished⟩
  | cons el flying =>
      obtain ⟨bytes, hbytes, hlt⟩ := h.sendable el List.mem_cons_self
      obtain ⟨hne, houtcome⟩ := recvFrame_payload batcher hrows beyond hbytes
      have hhead : c.socket.forward = sendFrame bytes ++
          (flying.flatMap (Link.elementBytes batcher) ++ Link.closingBytes closing) := by
        rw [hforward]
        simp [Link.elementBytes, hbytes]
      by_cases hcap : kMaxFrameBytes < bytes.length
      · rw [hhead, recvHead_oversized _ hcap hlt] at hstep
        obtain rfl := Option.some.inj hstep
        exact ⟨_, _, h.exit c.socket.forward .cancelled⟩
      rw [hhead, recvHead_sendFrame _ hne (Nat.le_of_not_lt hcap)] at hstep
      obtain ⟨el', hdeliver, hsize⟩ | ⟨reason, failure, hclose⟩ := houtcome
      · simp only [hdeliver] at hstep
        split at hstep
        · cases hstep
        · rw [BoundedChannel.push] at hstep
          split at hstep
          · obtain rfl := Option.some.inj hstep
            exact ⟨_, _, h.exit _ .cancelled⟩
          · rename_i channel hpush
            obtain rfl := Option.some.inj hstep
            have hqueue : channel.queue = c.socket.channel.queue ++ [el'] := by
              split at hpush
              · cases hpush
              · obtain rfl := Option.some.inj hpush
                rfl
            have hcredit := h.credit
            have hsent := h.sent
            rw [records_cons] at hcredit hsent
            refine ⟨flying, closing, { h with
              sendable := fun el hel => h.sendable el (List.mem_cons_of_mem _ hel)
              forward := fun _ => rfl, sent := ?_, credit := ?_ }⟩
            · simp only [hqueue, records_append, records_cons, records_nil, hsize]
              omega
            · simp only [hqueue, records_append, records_cons, records_nil, hsize]
              omega
      · simp only [hclose] at hstep
        obtain rfl := Option.some.inj hstep
        exact ⟨_, _, h.exit _ reason⟩

/-- A pop turns the records of a batch into a grant. -/
theorem pop (hstep : c.socket.pop = some s) :
    ∃ grants', Flow batcher { c with socket := s } flying closing grants' := by
  rw [Socket.pop] at hstep
  cases hqueue : c.socket.channel.queue with
  | nil =>
      rw [hqueue] at hstep
      simp only at hstep
      split at hstep
      · obtain rfl := Option.some.inj hstep
        exact ⟨grants, { h with }⟩
      · cases hstep
  | cons el queue =>
      rw [hqueue] at hstep
      obtain rfl := Option.some.inj hstep
      have hcredit := h.credit
      have hsent := h.sent
      have hle := h.le_window
      rw [hqueue, records_cons] at hcredit hsent hle
      have hsize : (UInt32.ofNat el.size).toNat = el.size := Link.toNat_size (by omega)
      by_cases hgrant : el.isData = true ∧ UInt32.ofNat el.size ≠ 0
      · refine
          ⟨grants ++ [UInt32.ofNat el.size], { h with reverse := ?_, sent := ?_, credit := ?_ }⟩
        · simp only [if_pos hgrant, h.reverse, grantBytes, List.flatMap_append,
            List.flatMap_singleton]
        · simp only [records_append, records_cons, records_nil]
          omega
        · simp only [List.map_append, List.map_cons, List.map_nil, List.sum_append,
            List.sum_singleton, hsize]
          omega
      · have hzero : el.size = 0 := by
          by_cases hdata : el.isData = true
          · have hdelta : UInt32.ofNat el.size = 0 := by
              by_contra hne
              exact hgrant ⟨hdata, hne⟩
            rw [← hsize, hdelta]
            rfl
          · exact Link.size_eq_zero (by simpa using hdata)
        refine ⟨grants, { h with reverse := ?_, sent := ?_, credit := ?_ }⟩
        · simp only [if_neg hgrant, h.reverse]
        · simp only [records_append, records_cons, records_nil]
          omega
        · simp only
          omega

/-- The sender's reader applies the next grant. -/
theorem applyGrant (hstep : c.socket.credit beyond = some s) :
    ∃ grants', Flow batcher { c with socket := s } flying closing grants' := by
  rw [Socket.credit, h.reverse] at hstep
  cases grants with
  | nil => cases hstep
  | cons delta grants =>
      rw [grantBytes, List.flatMap_cons, recvHead_sendFrame _ (by simp [creditPayload])
        (by simp [creditPayload, kMaxFrameBytes])] at hstep
      simp only [creditFrame_creditPayload, Option.getD_some] at hstep
      obtain rfl := Option.some.inj hstep
      have hcredit := h.credit
      have hle := h.le_window
      rw [List.map_cons, List.sum_cons] at hcredit hle
      have hfits : c.socket.remainingCredit.toNat + delta.toNat < 2 ^ 32 := by
        have : kInitialNetworkCredit < 2 ^ 32 := by decide
        omega
      have hadd : (c.socket.remainingCredit + delta).toNat =
          c.socket.remainingCredit.toNat + delta.toNat := by
        rw [UInt32.toNat_add, Nat.mod_eq_of_lt hfits]
      refine ⟨grants, { h with reverse := rfl, credit := ?_ }⟩
      simp only [hadd]
      omega

theorem turn (hrows : batcher.KeepsRows) {call : EndCall} {t : Turn}
    (hstep : NetworkChannel.turn batcher beyond call t c = some d) :
    ∃ flying' closing' grants', Flow batcher d flying' closing' grants' := by
  cases t with
  | accept =>
      rw [NetworkChannel.turn] at hstep
      split at hstep
      · cases hstep
      · rename_i hno
        obtain rfl := Option.some.inj hstep
        exact ⟨_, _, _, h.accept (by simpa using hno)⟩
  | act a =>
      cases a with
      | send =>
          obtain ⟨s, hs, rfl⟩ := Option.map_eq_some_iff.mp hstep
          obtain ⟨flying', h'⟩ := h.send hs
          exact ⟨flying', _, _, h'⟩
      | finish =>
          obtain ⟨s, hs, rfl⟩ := Option.map_eq_some_iff.mp hstep
          obtain ⟨closing', h'⟩ := h.finish hs
          exact ⟨_, closing', _, h'⟩
      | recv =>
          rw [NetworkChannel.turn] at hstep
          split at hstep
          · obtain ⟨s, hs, rfl⟩ := Option.map_eq_some_iff.mp hstep
            obtain ⟨flying', closing', h'⟩ := h.recv hrows hs
            exact ⟨flying', closing', _, h'⟩
          · cases hstep
      | pop =>
          obtain ⟨s, hs, rfl⟩ := Option.map_eq_some_iff.mp hstep
          obtain ⟨grants', h'⟩ := h.pop hs
          exact ⟨_, _, grants', h'⟩
      | credit =>
          obtain ⟨s, hs, rfl⟩ := Option.map_eq_some_iff.mp hstep
          obtain ⟨grants', h'⟩ := h.applyGrant hs
          exact ⟨_, _, grants', h'⟩

/-! ## What the invariant says -/

omit h in
theorem grantedIn_grantBytes (beyond : Nat → UInt8) (grants : List UInt32) :
    grantedIn beyond (grantBytes grants) = (grants.map UInt32.toNat).sum := by
  induction grants with
  | nil => rfl
  | cons delta grants ih =>
      have hframe : recvHead (grantBytes (delta :: grants)) =
          .frame (creditPayload delta) (grantBytes grants) := by
        rw [grantBytes, List.flatMap_cons, recvHead_sendFrame _ (by simp [creditPayload])
          (by simp [creditPayload, kMaxFrameBytes])]
        rfl
      have hlen : (grantBytes grants).length < (grantBytes (delta :: grants)).length := by
        simp only [grantBytes, List.flatMap_cons, List.length_append, sendFrame, length_putU32BE]
        omega
      have hloop : readCredits beyond (grantBytes (delta :: grants)) =
          ⟨(creditPayload delta).length, creditPayload delta,
            (creditFrame beyond (creditPayload delta)).2, some delta⟩ ::
              readCredits beyond (grantBytes grants) := by
        rw [readCredits, creditReaderLoop, hframe]
        simp only [creditFrame_creditPayload]
        rw [readCredits, creditReaderLoop_fuel beyond hlen (Nat.lt_succ_self _)]
      rw [List.map_cons, List.sum_cons, ← ih, grantedIn, hloop]
      simp [grantedIn]

theorem conserved (beyond : Nat → UInt8) : Conserved beyond c := by
  have hsum : c.socket.remainingCredit.toNat + c.unpopped + grantedIn beyond c.socket.reverse =
      if c.accepted then kInitialNetworkCredit else 0 := by
    have hcredit := h.credit
    have hsent := h.sent
    rw [h.reverse, grantedIn_grantBytes, Connection.unpopped]
    omega
  refine ⟨by have := h.sent; omega, ?_, fun hyes => by rw [hsum, if_pos hyes], ?_, ?_⟩
  · rw [hsum]
    split
    · exact le_rfl
    · exact Nat.zero_le _
  · intro el frames calls hcalls hwait
    have hsize := (h.calls _ (by rw [hcalls]; exact List.mem_cons_self) el List.mem_cons_self).1
    exact Link.spendCredit_toNat hsize hwait
  · intro hyes hpopped hgranted el frames calls hcalls
    have hsize := (h.calls _ (by rw [hcalls]; exact List.mem_cons_self) el List.mem_cons_self).1
    rw [hpopped, hgranted, if_pos hyes] at hsum
    rw [awaitsCredit, Bool.and_eq_false_iff]
    right
    rw [decide_eq_false_iff_not, UInt32.lt_iff_toNat_lt, Link.toNat_size hsize]
    omega

end

end Flow

/-- In every interleaving of the sender, the receiver and the frames under way
the credit is conserved, where every frame can be built. -/
theorem credit_conserved (hrows : batcher.KeepsRows) (beyond : Nat → UInt8) (call : EndCall)
    {els : List (StreamElement R)}
    (hsend : ∀ el ∈ els, ∀ frame ∈ pushRemote el, Sendable batcher frame) {ts : List Turn}
    (hrun : Schedule (turn batcher beyond call) (Connection.start els) ts c) :
    Conserved beyond c := by
  have hflow : ∃ flying closing grants, Flow batcher c flying closing grants := by
    refine hrun.induct (I := fun c => ∃ flying closing grants, Flow batcher c flying closing grants)
      ⟨[], none, [], ?_⟩ fun t c d ⟨_, _, _, h⟩ hstep => h.turn hrows hstep
    refine ⟨?_, nofun, nofun, fun el hel => absurd hel (List.not_mem_nil), fun _ => rfl, rfl, rfl,
      rfl⟩
    intro frames hf el hel
    obtain ⟨el', hmem, rfl⟩ := List.mem_map.mp hf
    exact ⟨size_pushRemote hel, hsend el' hmem el hel⟩
  obtain ⟨flying, closing, grants, h⟩ := hflow
  exact h.conserved beyond

/-- Records given by the length of their bytes.  The offsets of an Arrow binary
column are 32 bits wide, and a column of more bytes than that is not built. -/
def blobBatcher : ArrowBatcher Nat where
  RecordBatch := List Nat
  build batch := if batch.sum < 2 ^ 31 - 1 then some batch else none
  toIpc batch := batch.map fun _ => 0
  fromIpc bytes := some (bytes.map fun _ => 0)
  schemaMatches _ := true
  parse := some

/-- Three records go out and are popped, and the grant is applied. -/
theorem credit_conserved_popped :
    ∃ c, Schedule (turn blobBatcher (fun _ => 0) .destroy) (Connection.start [.data [1, 1, 1]])
        [.accept, .act .credit, .act .send, .act .recv, .act .pop, .act .credit] c ∧
      Conserved (fun _ => 0) c := by
  have hrun : Schedule (turn blobBatcher (fun _ => 0) .destroy)
      (Connection.start [.data [1, 1, 1]])
      [.accept, .act .credit, .act .send, .act .recv, .act .pop, .act .credit] _ :=
    .snoc (.snoc (.snoc (.snoc (.snoc (.snoc .nil rfl) rfl) rfl) rfl) rfl) rfl
  refine ⟨_, hrun, credit_conserved ?_ _ _ ?_ hrun⟩
  · intro batch recordBatch batch' hbuild hparse
    change (if batch.sum < 2 ^ 31 - 1 then some batch else none) = some recordBatch at hbuild
    split at hbuild
    · obtain rfl := Option.some.inj hbuild
      obtain rfl : _ = batch' := Except.ok.inj hparse
      simp [blobBatcher]
    · cases hbuild
  · intro el hel frame hframe
    obtain rfl := List.mem_singleton.mp hel
    obtain rfl := List.mem_singleton.mp hframe
    exact ⟨_, rfl, by decide⟩

/-- Three records of a gigabyte each are not built, and their credit is gone:
with nothing sent and no grant under way, the window is not whole. -/
theorem unbuilt_batch_loses_credit :
    ∃ c, Schedule (turn blobBatcher (fun _ => 0) .destroy)
        (Connection.start [.data [2 ^ 30, 2 ^ 30, 2 ^ 30]]) [.accept, .act .credit, .act .send] c ∧
      c.unpopped = 0 ∧ grantedIn (fun _ => 0) c.socket.reverse = 0 ∧
      c.socket.remainingCredit = 2045 ∧ ¬ Conserved (fun _ => 0) c := by
  refine ⟨_, .snoc (.snoc (.snoc .nil rfl) rfl) rfl, rfl, rfl, rfl, fun h => ?_⟩
  have := h.window rfl
  revert this
  decide

end Clink.Ports.NetworkChannel

import AlosHttp.Quic.Loss
import AlosHttp.Quic.Packet
import Mathlib.Algebra.BigOperators.Group.Finset.Basic

/-! The sending side of a connection: what is written to streams goes through their buffers and the
coalescing buffer into 1-RTT packets, within the limits of the peer. -/
namespace AlosHttp.Quic

/-- A frame of a 1-RTT packet. Frames about neither the data nor the end of a stream are their bytes. -/
inductive QuicFrame
  | stream (streamID offset : ℕ) (data : Bytes) (fin : Bool)
  | resetStream (streamID errorCode finalSize : ℕ)
  | other (bytes : Bytes)
  deriving DecidableEq

def quicFrameResetStream : ℕ := 0x04
def quicFrameStopSending : ℕ := 0x05
def quicFrameStream : ℕ := 0x08
def quicFrameStreamDataBlock : ℕ := 0x15

def quicAppendStreamFrame (streamID offset : ℕ) (data : Bytes) (fin : Bool) : Bytes :=
  let flags := quicFrameStream + (if offset > 0 then 0x04 else 0) + 0x02 + (if fin then 0x01 else 0)
  .ofNat flags :: quicAppendVarint streamID ++ (if offset > 0 then quicAppendVarint offset else []) ++
    quicAppendVarint data.length ++ data

def quicAppendResetStreamFrame (streamID errorCode finalSize : ℕ) : Bytes :=
  quicAppendVarint quicFrameResetStream ++ quicAppendVarint streamID ++ quicAppendVarint errorCode ++
    quicAppendVarint finalSize

def quicAppendStreamDataBlockedFrame (streamID limit : ℕ) : Bytes :=
  quicAppendVarint quicFrameStreamDataBlock ++ quicAppendVarint streamID ++ quicAppendVarint limit

def quicAppendStopSendingFrame (streamID errorCode : ℕ) : Bytes :=
  quicAppendVarint quicFrameStopSending ++ quicAppendVarint streamID ++ quicAppendVarint errorCode

def QuicFrame.encode : QuicFrame → Bytes
  | .stream streamID offset data fin => quicAppendStreamFrame streamID offset data fin
  | .resetStream streamID errorCode finalSize => quicAppendResetStreamFrame streamID errorCode finalSize
  | .other bytes => bytes

/-- The sending half of a `QUICStream`, with all that was written to it. -/
structure SendStream where
  sendBuf : Bytes := []
  sendOff : ℕ := 0
  sendFin : Bool := false
  sendClosed : Bool := false
  sendReset : Bool := false
  maxSend : ℕ := 0
  blockedSent : ℕ := 0
  dispatched : Bool := false
  written : Bytes := []
  deriving DecidableEq

namespace SendStream

def write (s : SendStream) (data : Bytes) : SendStream :=
  if s.sendClosed || s.sendFin then s
  else { s with sendBuf := s.sendBuf ++ data, written := s.written ++ data }

def setSendBuf (s : SendStream) (data : Bytes) : SendStream :=
  if s.sendClosed then { s with sendFin := true }
  else { s with sendBuf := data, written := s.written ++ data, sendFin := true }

def finishWrite (s : SendStream) : SendStream := { s with sendFin := true }

def close (s : SendStream) : SendStream := { s with sendClosed := true, sendBuf := [] }

/-- The stream, and the data, the offset and the FIN of the next frame. -/
def drainSendBuf (s : SendStream) (maxBytes : ℕ) : SendStream × Bytes × ℕ × Bool :=
  if s.sendReset then (s, [], s.sendOff, false)
  else if s.sendBuf = [] then (s, [], s.sendOff, s.sendFin && !s.sendClosed)
  else
    let n := if s.sendBuf.length > maxBytes then maxBytes else s.sendBuf.length
    ({ s with sendBuf := s.sendBuf.drop n, sendOff := s.sendOff + n }, s.sendBuf.take n, s.sendOff,
      s.sendFin && (s.sendBuf.drop n).isEmpty)

/-- The stream, its final size, and whether it was not reset before. -/
def resetSend (s : SendStream) : SendStream × ℕ × Bool :=
  if s.sendReset then (s, s.sendOff, false)
  else ({ s with sendReset := true, sendClosed := true, sendBuf := [] }, s.sendOff, true)

end SendStream

/-- What one call appends to the coalescing buffer. The flag says whether a packet had it before. -/
structure Piece where
  frames : List QuicFrame
  again : Bool := false
  deriving DecidableEq

def Piece.size (p : Piece) : ℕ := (p.frames.map fun f => f.encode.length).sum

def framesIn (ps : List Piece) : List QuicFrame := ps.flatMap Piece.frames

def sizeIn (ps : List Piece) : ℕ := (ps.map Piece.size).sum

/-- A packet that was built; amplification control may keep it from the wire. -/
structure BuiltPacket where
  pieces : List Piece
  onWire : Bool
  deriving DecidableEq

def quicCoalesceBudget : ℕ := 1100
def h3ErrRequestRejected : ℕ := 0x010b

/-- What a connection sends with. Keys of 1-RTT packets are there from the start. -/
structure SendConn where
  pktBudget : ℕ := quicCoalesceBudget
  dstCIDLen : ℕ := quicConnIDLen
  maxDataRemote : ℕ
  peerStreamWindow : ℕ
  peerUniWindow : ℕ
  dataSent : ℕ := 0
  streams : ℕ → SendStream := fun _ => {}
  /-- The streams that have an object, and the client's streams that were opened. -/
  opened : Finset ℕ := ∅
  claimed : Finset ℕ := ∅
  nextUniLocal : ℕ := 3
  streamWriters : ℕ := 0
  coalesced : List Piece := []
  pendingAck : Bytes := []
  sendPN : ℕ := 0
  loss : QuicLossState QuicFrame := {}
  addressValidated : Bool := true
  bytesSent : ℕ := 0
  bytesReceived : ℕ := 0
  packets : List BuiltPacket := []

def SendConn.sentPieces (c : SendConn) : List Piece := c.packets.flatMap BuiltPacket.pieces

def fits : ℕ → List Piece → ℕ
  | _, [] => 0
  | room, p :: ps => if p.size ≤ room then fits (room - p.size) ps + 1 else 0

namespace SendConn

def ampBudgetLocked (c : SendConn) : ℕ :=
  if c.addressValidated then quicPathProbeDatagram
  else quicAmplificationFactor * c.bytesReceived - c.bytesSent

/-- `sendFramesLocked` in the space of 1-RTT packets. -/
def sendFramesLocked (c : SendConn) (pieces : List Piece) (ackEliciting : Bool) (now : ℤ) : SendConn :=
  let pieces := if c.pendingAck = [] then pieces else ⟨[.other c.pendingAck], false⟩ :: pieces
  let pn := c.sendPN
  let size := quicShortPacketLen c.dstCIDLen (sizeIn pieces) pn (c.loss.largestAcked .appData)
  let blocked := !c.addressValidated &&
    decide (c.bytesSent + size > quicAmplificationFactor * c.bytesReceived)
  { c with
    pendingAck := []
    sendPN := pn + 1
    bytesSent := if !blocked && !c.addressValidated then c.bytesSent + size else c.bytesSent
    loss := c.loss.onPacketSent .appData pn size ackEliciting (framesIn pieces) now
    packets := c.packets ++ [⟨pieces, !blocked⟩] }

/-- The loop of `drainCoalescedLocked`; a turn takes at least one piece. -/
def drainLoop (now : ℤ) : ℕ → SendConn → SendConn
  | 0, c => c
  | fuel + 1, c =>
    if c.coalesced = [] ∨ c.loss.canSend = false then c
    else
      let k := max (fits c.pktBudget c.coalesced) 1
      if c.ampBudgetLocked < sizeIn (c.coalesced.take k) + c.pendingAck.length + quicShortHeaderMaxOverhead then c
      else
        let sent := c.sendFramesLocked (c.coalesced.take k) true now
        drainLoop now fuel { sent with coalesced := c.coalesced.drop k }

def drainCoalescedLocked (c : SendConn) (now : ℤ) : SendConn := drainLoop now c.coalesced.length c

def queueStreamFrameLocked (c : SendConn) (p : Piece) (now : ℤ) : SendConn :=
  let c := { c with coalesced := c.coalesced ++ [p] }
  if sizeIn c.coalesced ≥ c.pktBudget then c.drainCoalescedLocked now else c

def queueControlFrameLocked (c : SendConn) (p : Piece) (now : ℤ) : SendConn :=
  let c := c.queueStreamFrameLocked p now
  if c.streamWriters = 0 then c.drainCoalescedLocked now else c

def on (c : SendConn) (id : ℕ) (f : SendStream → SendStream) : SendConn :=
  { c with streams := Function.update c.streams id (f (c.streams id)) }

/-- A turn of the loop of `sendStreamData`, and whether the loop goes on. -/
def sendTurn (c : SendConn) (id : ℕ) (now : ℤ) : SendConn × Bool :=
  let s := c.streams id
  let connAvail := c.maxDataRemote - c.dataSent
  let streamAvail := s.maxSend - s.sendOff
  let allowed := min (min c.pktBudget connAvail) streamAvail
  if allowed = 0 then
    if streamAvail = 0 ∧ s.sendBuf ≠ [] ∧ s.blockedSent ≠ s.maxSend then
      let c := c.on id fun s => { s with blockedSent := s.maxSend }
      (c.queueStreamFrameLocked ⟨[.other (quicAppendStreamDataBlockedFrame id s.maxSend)], false⟩ now, false)
    else (c, false)
  else
    let (s, data, offset, fin) := s.drainSendBuf allowed
    if data = [] ∧ fin = false then (c, false)
    else
      let c := c.on id fun _ => s
      let c := { c with dataSent := c.dataSent + data.length }
      (c.queueStreamFrameLocked ⟨[.stream id offset data fin], false⟩ now, !(fin || data.isEmpty))

def leave (c : SendConn) (now : ℤ) : SendConn :=
  let c := { c with streamWriters := c.streamWriters - 1 }
  if c.streamWriters = 0 ∧ c.coalesced ≠ [] then c.drainCoalescedLocked now else c

def resetStreamSend (c : SendConn) (id errorCode : ℕ) (now : ℤ) : SendConn :=
  let (s, finalSize, first) := (c.streams id).resetSend
  if first then
    (c.on id fun _ => s).queueControlFrameLocked ⟨[.resetStream id errorCode finalSize], false⟩ now
  else c

def refuseStream (c : SendConn) (id : ℕ) (now : ℤ) : SendConn := c.queueControlFrameLocked
    ⟨[.resetStream id h3ErrRequestRejected 0, .other (quicAppendStopSendingFrame id h3ErrRequestRejected)], false⟩ now

def openLocalUniStream (c : SendConn) : SendConn :=
  { c with
    nextUniLocal := c.nextUniLocal + 4
    opened := insert c.nextUniLocal c.opened
    streams := Function.update c.streams c.nextUniLocal { maxSend := c.peerUniWindow } }

inductive Opening
  | kept
  | refused
  | dropped
  deriving DecidableEq

/-- The client opens a stream for a request. It does so once for each stream. -/
def openRequestStream (c : SendConn) (id : ℕ) (o : Opening) (now : ℤ) : SendConn :=
  if id % 4 ≠ 0 ∨ id ∈ c.claimed then c
  else
    let c := { c with claimed := insert id c.claimed }
    match o with
    | .kept =>
      { c with
        opened := insert id c.opened
        streams := Function.update c.streams id { maxSend := c.peerStreamWindow } }
    | .refused => c.refuseStream id now
    | .dropped => c

/-- The buffer of a response is set by the one that dispatches the stream. -/
def respond (c : SendConn) (id : ℕ) (data : Bytes) : SendConn :=
  if id % 4 = 0 ∧ (c.streams id).dispatched = false then
    c.on id fun s => { s with dispatched := true }.setSendBuf data
  else c

def onMaxData (c : SendConn) (maxData : ℕ) : SendConn :=
  if maxData > c.maxDataRemote then { c with maxDataRemote := maxData } else c

def onMaxStreamData (c : SendConn) (id maxStreamData : ℕ) : SendConn :=
  if maxStreamData > (c.streams id).maxSend then c.on id fun s => { s with maxSend := maxStreamData } else c

def onACK (c : SendConn) (ack : QuicAckFrame) (now : ℤ) : SendConn :=
  let r := c.loss.onAckReceived .appData ack c.sendPN
  let c := { c with loss := r.1 }
  if r.2.isOk ∧ c.coalesced ≠ [] then c.drainCoalescedLocked now else c

def requeue (now : ℤ) (c : SendConn) (frames : List QuicFrame) : SendConn :=
  c.queueStreamFrameLocked ⟨frames, true⟩ now

def recoverLostPackets (c : SendConn) (cutoff now : ℤ) : SendConn :=
  let r := c.loss.detectLost .appData cutoff
  let c := r.2.foldl (requeue now) { c with loss := r.1 }
  if r.2 ≠ [] ∧ c.streamWriters = 0 then c.drainCoalescedLocked now else c

def flushPendingAck (c : SendConn) (now : ℤ) : SendConn :=
  if c.pendingAck = [] then c
  else { c with pendingAck := [] }.sendFramesLocked [⟨[.other c.pendingAck], false⟩] false now

def resend (now : ℤ) (c : SendConn) (frames : List QuicFrame) : SendConn :=
  c.sendFramesLocked [⟨frames, true⟩] true now

def tick (c : SendConn) (cutoff now : ℤ) : SendConn :=
  let c := c.flushPendingAck now
  let r := c.loss.ptoExpiredFrames .appData cutoff
  let c := r.2.foldl (resend now) { c with loss := r.1 }
  if c.coalesced ≠ [] then c.drainCoalescedLocked now else c

end SendConn
end AlosHttp.Quic

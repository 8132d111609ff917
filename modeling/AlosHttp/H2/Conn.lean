import AlosHttp.Hpack.Memo

/-! The state of an HTTP/2 connection of the epoll backend. What it keeps for a stream sits in a
slot under the stream's id: the stream, the writer of a streamed response, the reader of a streamed
body, and which maps hold them. The source's functions on one stream are functions of a `Cell`, the
connection as that stream sees it. -/
namespace AlosHttp.H2
open AlosHttp.Core Hpack

def h2DefaultWindowSize : ℕ := 65535
def h2DefaultMaxFrameSize : ℕ := 16384
def h2MaxFrameSize : ℕ := 16777215
def h2ConnectionWindowSize : ℕ := 4194304
def h2MaxWindowSize : ℤ := 2147483647
def h2MaxRequestFields : ℕ := 128
def h2FrameHeaderLen : ℕ := 9
def h2SealedDataMax : ℕ := 16384 - 1 - h2FrameHeaderLen
def h2ParkedBytesHardFactor : ℕ := 8
def h2GoAwayMinPayload : ℕ := 8
def h2DirectMaxFrames : ℕ := 64
def h2FileMaxFrames : ℕ := 64
def h2StreamPendingCap : ℕ := 256 * 1024
def bodyStreamAckThreshold : ℕ := 32 * 1024

inductive H2Err
  | noError
  | protocol
  | flowControl
  | streamClosed
  | frameSize
  | refusedStream
  | cancel
  | compression
  | enhanceYourCalm
  deriving DecidableEq

/-- What a handler is given. The body of a streamed request comes through its reader. -/
structure H2Request where
  reqMeta : HpackRequestMeta
  headers : List Field
  body : Option Bytes
  trailers : List Field
  deriving DecidableEq

/-- What happens on a stream: frames the server sends, frames it receives, and what passes between
the connection and the stream's handler. -/
inductive Entry
  | headers (endStream : Bool)
  /-- A DATA frame, with the smaller of the stream's window and the connection's when it is sent. -/
  | data (payload : Bytes) (endStream : Bool) (avail : ℤ)
  | rst (code : H2Err)
  | windowUpdate (increment : ℕ)
  | opened (endStream : Bool)
  | gotData (payload : Bytes) (endStream : Bool)
  | gotTrailers (endStream : Bool)
  | gotCredit (increment : ℕ)
  | gotRst
  | dispatched (req : H2Request)
  /-- A read answered with the end of the body, and whether the handler had closed the reader. -/
  | readEof (closed : Bool)
  /-- Bytes of the response body, as the handler hands them over. -/
  | wrote (bytes : Bytes)
  /-- The response body is complete. -/
  | final
  deriving DecidableEq

/-- What happens on the connection as a whole. -/
inductive ConnEntry
  | goAway (last : ℕ) (code : H2Err)
  | settingsAck
  | pingAck (payload : Bytes)
  | windowUpdate (increment : ℕ)
  | block (block : Bytes)
  | gotCredit (increment : ℕ)
  deriving DecidableEq

structure H2Stream where
  window : ℤ := 0
  recvWindow : ℤ := 0
  reqMeta : HpackRequestMeta := {}
  headers : List Field := []
  body : Bytes := []
  trailers : List Field := []
  halfClosed : Bool := false
  declaredLen : ℤ := -1
  wsTunnel : Bool := false
  abandoned : Bool := false
  abandonCounted : Bool := false
  /-- The response has a stream writer (`resp.sw`). -/
  sw : Bool := false
  /-- A stream writer can still be made for the response (`resp.lazyReq`, `req.swFactory`). -/
  lazyReq : Bool := false
  respBody : Bytes := []
  respHeadersSent : Bool := false
  respOff : ℕ := 0
  stallBytes : ℕ := 0
  parkedBytes : ℕ := 0
  deriving DecidableEq

structure EpollH2StreamWriter where
  made : Bool := false
  pending : Bytes := []
  file : Bytes := []
  needIO : Bool := false
  headerReady : Bool := false
  headersOut : Bool := false
  ended : Bool := false
  finished : Bool := false
  handlerDone : Bool := false
  registered : Bool := false
  endedEarly : Bool := false
  pumpQueued : Bool := false
  sendRST : Bool := false
  err : Bool := false
  /-- The writer's pump tasks that wait in the worker's queue. -/
  tasks : ℕ := 0
  deriving DecidableEq

structure H2BodyIn where
  recvWindow : ℤ := 0
  received : ℤ := 0
  declared : ℤ := -1
  tooLarge : Bool := false
  tunnel : Bool := false
  deriving DecidableEq

structure BodyReader where
  made : Bool := false
  buf : Bytes := []
  eof : Bool := false
  err : Bool := false
  closed : Bool := false
  unacked : ℕ := 0
  ackQueued : Bool := false
  trailers : List Field := []
  deriving DecidableEq

/-- What the connection keeps for one stream id. `hist` is newest first. -/
structure Slot where
  obj : H2Stream := {}
  writer : EpollH2StreamWriter := {}
  bodyIn : H2BodyIn := {}
  reader : BodyReader := {}
  inStreams : Bool := false
  inSending : Bool := false
  inBusy : Bool := false
  inStreaming : Bool := false
  inBodyIn : Bool := false
  hist : List Entry := []
  deriving DecidableEq

/-- What the connection keeps for all its streams. `connLog` is newest first; `closing` says that
the connection is closed once its output is flushed. -/
structure H2State where
  decoder : HpackDecoder
  initialWindowSize : ℕ := h2DefaultWindowSize
  maxFrameSize : ℕ := h2DefaultMaxFrameSize
  connWindow : ℤ := h2DefaultWindowSize
  recvConnWindow : ℤ := h2ConnectionWindowSize
  pendingConnWindow : ℕ := 0
  lastStreamID : ℕ := 0
  highestStreamID : ℕ := 0
  expectContinuation : ℕ := 0
  headerEndStream : Bool := false
  headerAccum : Bytes := []
  sendingBytes : ℤ := 0
  parkedBytes : ℤ := 0
  peerGoingAway : Bool := false
  h2GoingAway : Bool := false
  inFlight : ℕ := 0
  h2EndedInFlight : ℕ := 0
  h2Draining : ℕ := 0
  closing : Bool := false
  connLog : List ConnEntry := []

/-- The connection as one of its streams sees it. -/
structure Cell extends H2State, Slot

structure Conn where
  st : H2State
  slot : ℕ → Slot := fun _ => {}

structure ServerConfig where
  h2MaxStreams : ℕ
  h2InitialWindow : ℕ
  h2MaxFrameSize : ℕ
  maxBodySize : ℤ
  readCap : Option ℕ
  streamBodyAbove : ℤ
  builtInProxy : Bool
  maxPendingWrite : ℕ

def newConn (tableSize : UInt32) (headerListLimit : ℕ) : Conn where
  st := { decoder := { newHpackDecoder tableSize with
    allowExtendedConnect := true
    maxHeaderListSize := headerListLimit } }

namespace Conn

def cell (c : Conn) (id : ℕ) : Cell := ⟨c.st, c.slot id⟩

def on (c : Conn) (id : ℕ) (f : Cell → Cell) : Conn where
  st := (f (c.cell id)).toH2State
  slot := Function.update c.slot id (f (c.cell id)).toSlot

/-- How many slots of opened streams satisfy `p`: the length of one of the connection's maps. -/
def len (c : Conn) (p : Slot → Bool) : ℕ :=
  ((Finset.range (c.st.highestStreamID + 1)).filter fun id => p (c.slot id)).card

def h2PeerStreamsAtLimit (c : Conn) (limit : ℕ) : Bool :=
  decide (((c.len (·.inStreams) + c.len (·.inSending) + c.st.inFlight : ℕ) : ℤ) - c.st.h2EndedInFlight +
    c.st.h2Draining ≥ limit)

def h2Quiescent (c : Conn) : Bool := c.st.inFlight == 0 && c.len (·.inStreams) == 0 && c.len (·.inSending) == 0 &&
    c.len (·.inStreaming) == 0 && c.len (·.inBodyIn) == 0

end Conn

namespace BodyReader

def claimAck (b : BodyReader) : BodyReader :=
  if b.ackQueued || b.unacked == 0 then b
  else if b.unacked < bodyStreamAckThreshold && !b.buf.isEmpty && !b.closed then b
  else { b with ackQueued := true }

inductive ReadResult
  | data (bytes : Bytes)
  | eof
  | failed
  | blocked
  deriving DecidableEq

/-- A `Read` of at most `n` bytes. Where the source waits, for data or for its deadline, the
answer is `blocked` and nothing changes. -/
def read (b : BodyReader) (n : ℕ) : ReadResult × BodyReader :=
  if n = 0 then (.data [], b)
  else if b.buf = [] then
    (if b.err then .failed else if b.eof || b.closed then .eof else .blocked, b)
  else
    (.data (b.buf.take n), claimAck { b with buf := b.buf.drop n, unacked := b.unacked + (b.buf.take n).length })

def close (b : BodyReader) : BodyReader :=
  if b.closed then b
  else claimAck { b with closed := true, unacked := b.unacked + b.buf.length, buf := [] }

def push (b : BodyReader) (bytes : Bytes) : BodyReader :=
  if b.closed then { b with unacked := b.unacked + bytes.length }
  else { b with buf := b.buf ++ bytes }

/-- The body ends, with an error or without. What it ended with first stays. -/
def finish (b : BodyReader) (failed : Bool) : BodyReader :=
  if b.eof || b.err then b
  else if failed then { b with err := true }
  else { b with eof := true }

def finishWithTrailers (b : BodyReader) (trailers : List Field) : BodyReader :=
  if b.eof || b.err then b else { b with trailers := trailers, eof := true }

end BodyReader

namespace EpollH2StreamWriter

def claimPump (w : EpollH2StreamWriter) : EpollH2StreamWriter :=
  if w.pumpQueued || w.finished then w else { w with pumpQueued := true, tasks := w.tasks + 1 }

def fail (w : EpollH2StreamWriter) : EpollH2StreamWriter := { w with err := true, finished := true }

end EpollH2StreamWriter

namespace Cell

def emit (c : Cell) (e : Entry) : Cell := { c with hist := e :: c.hist }

def emitAll (c : Cell) (es : List Entry) : Cell := { c with hist := es.reverse ++ c.hist }

def goAwayClose (c : Cell) (code : H2Err) : Cell :=
  { c with
    connLog := .goAway c.lastStreamID code :: c.connLog
    closing := true }

def h2ChargeLimiter (c : Cell) (tripped : Bool) : Cell :=
  if tripped then c.goAwayClose .enhanceYourCalm else c

def dataFrameLimit (c : Cell) : ℕ := if c.maxFrameSize = 0 then h2DefaultMaxFrameSize else c.maxFrameSize

def epollReleaseH2Stream (c : Cell) : Cell :=
  { c with
    inStreams := false
    obj := if c.inStreams then {} else c.obj }

def releaseSending (c : Cell) : Cell :=
  { c with
    inSending := false
    sendingBytes := c.sendingBytes - c.obj.stallBytes
    parkedBytes := c.parkedBytes - c.obj.parkedBytes
    obj := {} }

def h2EndBodyIn (c : Cell) (failed : Bool) : Cell :=
  { c with inBodyIn := false, reader := c.reader.finish failed }

def h2AbortBodyIn (c : Cell) : Cell :=
  { c with
    inBodyIn := false
    reader := if c.inBodyIn then c.reader.finish true else c.reader }

def h2ReleaseStreaming (c : Cell) : Cell :=
  { c with
    inStreaming := if c.writer.registered then false else c.inStreaming
    h2Draining := c.h2Draining - 1
    writer := {}
    obj := {} }

def h2CancelStreaming (c : Cell) : Cell :=
  let c := { c with writer := c.writer.fail }
  if c.writer.handlerDone then c.h2ReleaseStreaming
  else
    { c with
      inStreaming := false
      h2EndedInFlight := if c.writer.endedEarly then c.h2EndedInFlight else c.h2EndedInFlight + 1
      writer.registered := false
      writer.endedEarly := true }

def abandonH2Stream (c : Cell) : Cell :=
  let c := c.epollReleaseH2Stream
  let c := if c.inSending then c.releaseSending else c
  let abandoned := c.inBusy && !c.obj.abandoned
  let c := if abandoned then { c with obj.abandoned := true } else c
  let c :=
    if c.inStreaming then c.h2CancelStreaming
    else if abandoned then
      { c with obj.abandonCounted := true, h2EndedInFlight := c.h2EndedInFlight + 1 }
    else c
  c.h2AbortBodyIn

def refuseH2Stream (c : Cell) (code : H2Err) (tripped : Bool) : Cell := (c.emit (.rst code)).h2ChargeLimiter tripped

def resetH2Stream (c : Cell) (code : H2Err) (tripped : Bool) : Cell := c.abandonH2Stream.refuseH2Stream code tripped

def rejectH2Body (c : Cell) (tripped : Bool) : Cell :=
  (c.emit (.rst .protocol)).epollReleaseH2Stream.h2AbortBodyIn.h2ChargeLimiter tripped

def h2StreamAwaitingResponse (c : Cell) : Bool := c.inSending || c.inStreaming || c.inBusy

end Cell
end AlosHttp.H2

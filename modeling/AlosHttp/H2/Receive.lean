import AlosHttp.H2.Send

/-! How the frames of a client act on a stream: header blocks, DATA, WINDOW_UPDATE and RST_STREAM, and
the dispatch of a request. What the source reads from clock, limiters and routing table is an
input. -/
namespace AlosHttp.H2
open AlosHttp.Core Hpack

/-- Who answers a request: the loop itself, at once, a proxied backend, or a handler. -/
inductive DispatchKind
  | served (body : Bytes)
  | proxied
  | handler
  deriving DecidableEq

structure FrameEnv where
  /-- The output is above `maxPendingWrite`. -/
  backlogged : Bool
  /-- The answers of `countCtrl`, for a frame and for a refused stream, and of `countReset`. -/
  ctrlTripped : Bool
  refusalTripped : Bool
  resetTripped : Bool
  /-- The body of the prepared answer to the root, where it may be used. -/
  fastRoot : Option Bytes
  /-- The answers of `tryAcquireRequestSlot`. -/
  indexedSlot : Bool
  memoSlot : Bool
  rootSlot : Bool
  ipConn : Bool
  bodyBudget : Bool
  kind : DispatchKind
  send : ℕ → SendEnv
  pump : PumpEnv
  /-- The order in which the parked streams are visited. -/
  order : List ℕ

/-- Only a server with a proxy hands requests to a backend. -/
def FrameEnv.route (env : FrameEnv) (cfg : ServerConfig) : DispatchKind :=
  if env.kind = .proxied ∧ cfg.builtInProxy = false then .handler else env.kind

def h2FlagEndStream : UInt8 := 0x1
def h2FlagEndHeaders : UInt8 := 0x4
def h2FlagPadded : UInt8 := 0x8
def h2FlagPriority : UInt8 := 0x20
def h2FlagAck : UInt8 := 0x1

def hasFlag (flags flag : UInt8) : Bool := flags &&& flag != 0

def h2StripPadding (flags : UInt8) (payload : Bytes) : Option Bytes :=
  if hasFlag flags h2FlagPadded then
    match payload with
    | [] => none
    | padLen :: payload =>
      if payload.length < padLen.toNat then none
      else some (payload.take (payload.length - padLen.toNat))
  else some payload

def h2DataCarriesNoBody (flags : UInt8) (payload : Bytes) : Bool := ((h2StripPadding flags payload).getD []).isEmpty

def h2LengthMismatch (declared received : ℤ) : Bool := decide (0 ≤ declared ∧ declared ≠ received)

def declaredLength (m : HpackRequestMeta) : ℤ := if m.hasContentLength then m.contentLength else -1

def trailerFieldForbidden (name : Bytes) : Bool :=
  [ascii "host", ascii "trailer", ascii "connection", ascii "content-length",
    ascii "transfer-encoding"].any (equalFoldASCII name)

def h2TrailerFields (fields : List Field) : Option (List Field) :=
  if fields.all fun f => isValidH2FieldName f.1 && f.1.head? != some 0x3a && isValidH2FieldValue f.2 &&
      !isH2ConnectionSpecificField f.1 f.2 then
    some (fields.filter fun f => !trailerFieldForbidden f.1)
  else none

/-- Three indexed fields, in any order: GET, the root, https. -/
def matchIndexedH2FastRootHeaderBlock (headerBlock : Bytes) : Bool :=
  headerBlock.length == 3 && headerBlock.contains 0x82 && headerBlock.contains 0x84 &&
    headerBlock.contains 0x87

def parseInt (s : Bytes) : Option ℤ :=
  let digits := match s with
    | 0x2b :: s => s
    | 0x2d :: s => s
    | s => s
  let n : ℕ := digits.foldl (fun n d => 10 * n + (d.toNat - 48)) 0
  if digits.isEmpty || !digits.all fun d => 48 ≤ d && d ≤ 57 then none
  else if s.head? = some 0x2d then if n ≤ 2 ^ 63 then some (-n) else none
  else if n < 2 ^ 63 then some n else none

def ServerConfig.bodyTooLarge (cfg : ServerConfig) (n : ℤ) : Bool := decide (0 < cfg.maxBodySize ∧ cfg.maxBodySize < n)

def ServerConfig.requestBodyTooLarge (cfg : ServerConfig) (n : ℕ) : Bool := cfg.bodyTooLarge n ||
    match cfg.readCap with
    | some readCap => decide (0 < readCap ∧ readCap < n)
    | none => false

def ServerConfig.streamsH2Body (cfg : ServerConfig) (headers : List Field) : Bool :=
  if cfg.streamBodyAbove ≤ 0 || cfg.builtInProxy then false
  else
    match headers.find? fun f => f.1 == ascii "content-length" with
    | some f =>
      match parseInt f.2 with
      | some n => decide (cfg.streamBodyAbove < n)
      | none => true
    | none => true

def fastRootFrames (maxFrame : ℕ) (avail : ℤ) : ℕ → Bytes → List Entry
  | 0, _ => []
  | fuel + 1, remaining =>
    if remaining = [] then []
    else
      .data (remaining.take maxFrame) (remaining.length ≤ maxFrame) avail ::
        fastRootFrames maxFrame avail fuel (remaining.drop maxFrame)

namespace Cell
section Dispatch
variable (cfg : ServerConfig) (env : FrameEnv) (id : ℕ)

/-- The answer to the root that needs no handler. Its stream is never made, so it has the window
of a new stream. -/
def appendFastH2RootResponse (c : Cell) (body : Bytes) : Cell :=
  c.emitAll ([.wrote body, .final, .headers body.isEmpty] ++
    fastRootFrames c.maxFrameSize (min c.initialWindowSize c.connWindow) body.length body)

def startH2BodyStream (c : Cell) : Cell :=
  { c with
    inBodyIn := true
    bodyIn := { recvWindow := c.obj.recvWindow, declared := c.obj.declaredLen, tunnel := c.obj.wsTunnel }
    reader := { made := true } }

def request (c : Cell) (body : Option Bytes) : H2Request := ⟨c.obj.reqMeta, c.obj.headers, body, c.obj.trailers⟩

def epollH2DispatchStream (c : Cell) (streamBody : Bool) : Cell :=
  if !env.ipConn then { c with inStreams := false, obj := {} }.goAwayClose .enhanceYourCalm
  else
    let c := { c with
      obj.sw := false
      obj.lazyReq := env.route cfg == DispatchKind.handler
      inStreams := false
      inBusy := true
      inFlight := c.inFlight + 1 }
    match env.route cfg with
    | .served body => c.finishH2Dispatch cfg (env.send id) env.pump body
    | .proxied => c.emit (.dispatched (c.request (some c.obj.body)))
    | .handler =>
      if streamBody then c.startH2BodyStream.emit (.dispatched (c.request none))
      else c.emit (.dispatched (c.request (some c.obj.body)))

def epollH2Dispatch (c : Cell) (streamBody : Bool) : Cell :=
  if c.inStreams then c.epollH2DispatchStream cfg env id streamBody else c

def newH2Stream (c : Cell) (headers : List Field) (reqMeta : HpackRequestMeta) : H2Stream where
  window := c.initialWindowSize
  recvWindow := cfg.h2InitialWindow
  reqMeta := if reqMeta.protocolWebSocket then { reqMeta with method := ascii "GET" } else reqMeta
  headers := headers.filter fun f => f.1.head? != some 0x3a
  declaredLen := declaredLength reqMeta
  wsTunnel := reqMeta.protocolWebSocket

end Dispatch

section Headers
variable (hpackHashBytes : Bytes → UInt64) (cfg : ServerConfig) (env : FrameEnv) (id : ℕ)

def gotBlock (c : Cell) (block : Bytes) : Cell := { c with connLog := .block block :: c.connLog }

def discardH2ClosedStreamHeaders (c : Cell) (block : Bytes) : Cell :=
  match c.decoder.decodeInto hpackHashBytes block with
  | (.error _, d) => { c with decoder := d }.goAwayClose .compression
  | (.ok _, d) => { c with decoder := d }.h2ChargeLimiter env.resetTripped

def epollH2Trailers (c : Cell) (block : Bytes) (endStream : Bool) : Cell :=
  match c.decoder.decodeInto hpackHashBytes block with
  | (.error _, d) => { c with decoder := d }.goAwayClose .compression
  | (.ok fields, d) =>
    let c := { c with decoder := d }.emit (.gotTrailers endStream)
    if d.maxHeaderListSize < h2FieldListSize fields then c.rejectH2Body env.resetTripped
    else if c.inStreams && c.obj.halfClosed then c.emit (.rst .streamClosed)
    else
      match endStream, h2TrailerFields fields with
      | true, some trailers =>
        if c.inStreams then
          if h2LengthMismatch c.obj.declaredLen c.obj.body.length then c.rejectH2Body env.resetTripped
          else
            { c with obj.trailers := trailers, obj.halfClosed := true }.epollH2Dispatch cfg env id false
        else if h2LengthMismatch c.bodyIn.declared c.bodyIn.received then c.rejectH2Body env.resetTripped
        else { c with inBodyIn := false, reader := c.reader.finishWithTrailers trailers }
      | _, _ => c.rejectH2Body env.resetTripped

def refuseH2StreamGoingAway (c : Cell) (block : Bytes) : Cell :=
  let r := c.decoder.decodeRequest hpackHashBytes block
  let c := { c with decoder := r.2 }
  match r.1.result.err with
  | none => c.emit (.rst .refusedStream)
  | some .malformedRequest => c.emit (.rst .refusedStream)
  | some .headerListTooLarge => c.emit (.rst .refusedStream)
  | some _ => c.goAwayClose .compression

def answerH2HeaderListTooLarge (c : Cell) (endStream : Bool) : Cell :=
  let c := c.emitAll [.wrote [], .final, .headers true]
  let c := if endStream then c else c.emit (.rst .noError)
  c.h2ChargeLimiter env.resetTripped

/-- A request that was decoded. `atLimit` is the answer of `h2PeerStreamsAtLimit`. -/
def openH2Stream (c : Cell) (atLimit : Bool) (answer : RequestAnswer) (endStream : Bool) : Cell :=
  let headers := answer.result.headers
  let reqMeta := answer.result.reqMeta
  if h2MaxRequestFields < headers.length then c.refuseH2Stream .enhanceYourCalm env.resetTripped
  else if c.peerGoingAway || atLimit then c.refuseH2Stream .refusedStream env.resetTripped
  else if cfg.h2MaxStreams ≤ c.h2EndedInFlight then c.refuseH2Stream .refusedStream env.refusalTripped
  else if reqMeta.method = [] ∨ reqMeta.path = [] then c.refuseH2Stream .protocol env.resetTripped
  else
    let c := { c with obj := c.newH2Stream cfg headers reqMeta }
    if endStream then
      if h2LengthMismatch c.obj.declaredLen 0 then
        { c with inStreams := true }.rejectH2Body env.resetTripped
      else c.epollH2DispatchStream cfg env id false
    else
      let c := { c with inStreams := true }
      if reqMeta.protocolSet || cfg.streamsH2Body c.obj.headers then c.epollH2Dispatch cfg env id true
      else c

def epollH2NewStream (c : Cell) (atLimit : Bool) (block : Bytes) (endStream : Bool) : Cell :=
  let c := { c with highestStreamID := id }.emit (.opened endStream)
  if c.h2GoingAway then c.refuseH2StreamGoingAway hpackHashBytes block
  else
    let c := { c with lastStreamID := id }
    let fastRoot := if endStream then env.fastRoot else none
    let indexed := if matchIndexedH2FastRootHeaderBlock block && env.indexedSlot then fastRoot else none
    let memoized := if c.decoder.memoizedRootRequest block && env.memoSlot then fastRoot else none
    match indexed <|> memoized with
    | some body => c.appendFastH2RootResponse body
    | none =>
      let r := c.decoder.decodeRequest hpackHashBytes block
      let c := { c with decoder := r.2 }
      match r.1.result.err with
      | some .malformedRequest => c.refuseH2Stream .protocol env.resetTripped
      | some .headerListTooLarge => c.answerH2HeaderListTooLarge env endStream
      | some _ => c.goAwayClose .compression
      | none =>
        match if r.1.isRoot && env.rootSlot then fastRoot else none with
        | some body => c.appendFastH2RootResponse body
        | none => c.openH2Stream cfg env id atLimit r.1 endStream

def epollH2DecodedHeaders (c : Cell) (atLimit : Bool) (block : Bytes) (endStream : Bool) : Cell :=
  let c := c.gotBlock block
  if id % 2 = 1 ∧ id ≤ c.highestStreamID ∧ (c.inStreams || c.inBodyIn) then
    c.epollH2Trailers hpackHashBytes cfg env id block endStream
  else if id % 2 = 1 ∧ id ≤ c.highestStreamID ∧ endStream ∧ c.h2StreamAwaitingResponse = false then
    c.discardH2ClosedStreamHeaders hpackHashBytes env block
  else if id % 2 = 0 ∨ id ≤ c.highestStreamID then c.goAwayClose .protocol
  else c.epollH2NewStream hpackHashBytes cfg env id atLimit block endStream

/-- The header block fragment of a HEADERS frame, without its padding and its priority. -/
def headersFragment (flags : UInt8) (payload : Bytes) : Except H2Err Bytes := do
  let payload ←
    if hasFlag flags h2FlagPadded then
      match payload with
      | [] => throw .frameSize
      | padLen :: payload =>
        if payload.length < padLen.toNat then throw .protocol
        else pure (payload.take (payload.length - padLen.toNat))
    else pure payload
  if hasFlag flags h2FlagPriority then
    if payload.length < 5 then throw .frameSize else pure (payload.drop 5)
  else pure payload

def epollH2Headers (c : Cell) (atLimit : Bool) (flags : UInt8) (payload : Bytes) : Cell :=
  if id = 0 then c.goAwayClose .protocol
  else
    match headersFragment flags payload with
    | .error code => c.goAwayClose code
    | .ok fragment =>
      if hasFlag flags h2FlagEndHeaders then
        c.epollH2DecodedHeaders hpackHashBytes cfg env id atLimit fragment (hasFlag flags h2FlagEndStream)
      else
        { c with
          expectContinuation := id
          headerEndStream := hasFlag flags h2FlagEndStream
          headerAccum := fragment }

def epollH2Continuation (c : Cell) (atLimit : Bool) (flags : UInt8) (payload : Bytes) : Cell :=
  if payload = [] ∧ env.ctrlTripped then c.goAwayClose .enhanceYourCalm
  else
    let c := { c with headerAccum := c.headerAccum ++ payload }
    if c.decoder.maxHeaderListSize * 4 < c.headerAccum.length then
      { c with expectContinuation := 0 }.goAwayClose .enhanceYourCalm
    else if !hasFlag flags h2FlagEndHeaders then c
    else
      { c with expectContinuation := 0 }.epollH2DecodedHeaders hpackHashBytes cfg env id atLimit
        c.headerAccum c.headerEndStream

end Headers

section Data
variable (cfg : ServerConfig) (env : FrameEnv) (id : ℕ)

def h2CreditConnWindow (c : Cell) (n : ℕ) : Cell :=
  let pending := c.pendingConnWindow + n
  if h2ConnectionWindowSize / 2 < pending then
    { c with
      pendingConnWindow := 0
      recvConnWindow := c.recvConnWindow + pending
      connLog := .windowUpdate pending :: c.connLog }
  else { c with pendingConnWindow := pending }

/-- DATA of a request whose body is streamed to its handler. -/
def h2StreamBodyData (c : Cell) (endStream : Bool) (frameConsumed : ℕ) (payload : Bytes) : Cell :=
  let c := { c with bodyIn.recvWindow := c.bodyIn.recvWindow - frameConsumed }
  if c.bodyIn.recvWindow < 0 then (c.emit (.rst .flowControl)).h2EndBodyIn true
  else
    let counts := !c.bodyIn.tooLarge && !payload.isEmpty
    let c := if counts then { c with bodyIn.received := c.bodyIn.received + payload.length } else c
    if counts && decide (0 ≤ c.bodyIn.declared ∧ c.bodyIn.declared < c.bodyIn.received) then
      c.rejectH2Body env.resetTripped
    else
      let c :=
        if !counts then c
        else if !c.bodyIn.tunnel && cfg.bodyTooLarge c.bodyIn.received then
          { c with bodyIn.tooLarge := true, reader := c.reader.finish true }
        else { c with reader := c.reader.push payload }
      if endStream then
        if !c.bodyIn.tooLarge && h2LengthMismatch c.bodyIn.declared c.bodyIn.received then
          c.rejectH2Body env.resetTripped
        else c.h2EndBodyIn false
      else
        let padding := frameConsumed - payload.length
        if 0 < padding then
          { c with bodyIn.recvWindow := c.bodyIn.recvWindow + padding }.emit (.windowUpdate padding)
        else c

/-- DATA of a request whose body is gathered before it is dispatched. -/
def bufferBodyData (c : Cell) (endStream : Bool) (frameConsumed : ℕ) (payload : Bytes) : Cell :=
  let c := { c with obj.recvWindow := c.obj.recvWindow - frameConsumed }
  if c.obj.recvWindow < 0 then (c.emit (.rst .flowControl)).epollReleaseH2Stream
  else if payload ≠ [] ∧ env.bodyBudget = false then (c.emit (.rst .enhanceYourCalm)).epollReleaseH2Stream
  else
    let c := { c with obj.body := c.obj.body ++ payload }
    if payload ≠ [] ∧ 0 ≤ c.obj.declaredLen ∧ c.obj.declaredLen < c.obj.body.length then
      c.rejectH2Body env.resetTripped
    else if cfg.requestBodyTooLarge c.obj.body.length then (c.emit (.rst .cancel)).epollReleaseH2Stream
    else if !endStream then
      if 0 < frameConsumed then
        { c with obj.recvWindow := c.obj.recvWindow + frameConsumed }.emit (.windowUpdate frameConsumed)
      else c
    else if h2LengthMismatch c.obj.declaredLen c.obj.body.length then c.rejectH2Body env.resetTripped
    else { c with obj.halfClosed := true }.epollH2Dispatch cfg env id false

/-- A DATA frame once the connection's window has taken it. -/
def streamData (c : Cell) (flags : UInt8) (payload : Bytes) : Cell :=
  let endStream := hasFlag flags h2FlagEndStream
  match h2StripPadding flags payload with
  | some stripped =>
    let c := c.emit (.gotData stripped endStream)
    if c.inStreams then
      if c.obj.halfClosed then c.emit (.rst .streamClosed)
      else c.bufferBodyData cfg env id endStream payload.length stripped
    else if c.inBodyIn then c.h2StreamBodyData cfg env endStream payload.length stripped
    else c
  | none =>
    if c.inStreams then
      if c.obj.halfClosed then c.emit (.rst .streamClosed) else c.emit (.rst .protocol)
    else if c.inBodyIn then (c.emit (.rst .protocol)).h2EndBodyIn true
    else c

def epollH2Data (c : Cell) (flags : UInt8) (payload : Bytes) : Cell :=
  if id = 0 then c.goAwayClose .protocol
  else
    let c := { c with recvConnWindow := c.recvConnWindow - payload.length }
    if c.recvConnWindow < 0 then c.goAwayClose .flowControl
    else (c.h2CreditConnWindow payload.length).streamData cfg env id flags payload

end Data

section Control
variable (cfg : ServerConfig) (env : FrameEnv) (id : ℕ)

/-- WINDOW_UPDATE credit for a stream, in a window that stays within the bound. -/
def h2CreditWindow (c : Cell) (increment : ℕ) : Option Cell :=
  if h2MaxWindowSize < c.obj.window + increment then none
  else some { c with obj.window := c.obj.window + increment }

def streamWindowUpdate (c : Cell) (increment : ℕ) : Cell :=
  if increment = 0 then c.resetH2Stream .protocol env.resetTripped
  else if c.inStreams || c.inSending || c.inStreaming || (decide (id ≤ c.highestStreamID) && c.inBusy) then
    let c := c.emit (.gotCredit increment)
    match c.h2CreditWindow increment with
    | none => c.resetH2Stream .flowControl env.resetTripped
    | some c => if c.inStreams then c else c.h2ResumeSending cfg (env.send id)
  else c

def streamReset (c : Cell) : Cell := (c.emit .gotRst).abandonH2Stream.h2ChargeLimiter env.resetTripped

end Control

section Reader

def readBody (c : Cell) (n : ℕ) : Cell :=
  if !c.reader.made then c
  else
    match c.reader.read n with
    | (.eof, r) => { c with reader := r }.emit (.readEof c.reader.closed)
    | (_, r) => { c with reader := r }

def closeBody (c : Cell) : Cell := if !c.reader.made then c else { c with reader := c.reader.close }

def h2BodyAcked (c : Cell) : Cell :=
  if !c.reader.ackQueued then c
  else
    let n := c.reader.unacked
    let c := { c with reader.unacked := 0, reader.ackQueued := false }
    if n = 0 ∨ c.inBodyIn = false ∨ c.bodyIn.tooLarge then c
    else { c with bodyIn.recvWindow := c.bodyIn.recvWindow + n }.emit (.windowUpdate n)

end Reader
end Cell
end AlosHttp.H2

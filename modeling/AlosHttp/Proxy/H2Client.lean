import AlosHttp.Core.Utils
import Mathlib.Logic.Relation

/-! The proxy's HTTP/2 client connection (`fp_h2.go`, `fp_body.go`): pending exchanges are opened as
streams, upload their bodies under flow control and get their responses. A run is a list of events
of one connection, each handled to its end. Windows and statuses are integers, proved to stay in
range. Writes to the socket do not fail inside an event; a connection error is its own event. -/
namespace AlosHttp.Proxy

def fpH2MaxWindow : ℤ := 2 ^ 31 - 1
def fpH2MaxStreamID : ℕ := 2 ^ 31 - 1
def h2DefaultWindow : ℤ := 65535
def h2MaxFrameSize : ℕ := 16384
def h2DefaultConcurrent : ℕ := 100

def h2SettingsMaxConcurrent : ℕ := 0x3
def h2SettingsInitialWindowSize : ℕ := 0x4
def h2SettingsMaxFrameSize : ℕ := 0x5

def h2WindowFits (window delta : ℤ) : Bool :=
  decide (window + delta ≤ fpH2MaxWindow) && decide (-fpH2MaxWindow - 1 ≤ window + delta)

inductive FpError
  | badResponse
  | bodyTooLarge
  | headerTooLarge
  | connClosed
  | timeout
  | bodySource
  | clientClosed
  deriving DecidableEq

structure FpResponse where
  status : ℤ
  headers : List Field
  body : Bytes
  deriving DecidableEq

/-- A submitted exchange: its identity, and its request body, given whole or by a source of
the declared length. -/
structure Exchange where
  key : ℕ
  body : Bytes
  bodySource : Option ℤ
  deriving DecidableEq

/-- `upstreamBody`, without the wait for the write buffer to drain, which only delays the
next request for a chunk. -/
structure UpstreamBody where
  length : ℤ
  requested : Bool := false
  sent : ℤ := 0
  done : Bool := false
  deriving DecidableEq

/-- A stream of the connection's map. The source's `ended` is set exactly when the stream
leaves the map. -/
structure H2Stream where
  id : ℕ
  ex : Exchange
  sendWindow : ℤ
  gotHeaders : Bool := false
  status : ℤ := 0
  headers : List Field := []
  body : Bytes := []
  bodyRem : Bytes := []
  bodyEOF : Bool := false
  endSent : Bool := false
  upload : Option UpstreamBody := none
  deriving DecidableEq

inductive Hist
  /-- A stream was opened while `streams` were open under the limit `limit`. -/
  | opened (id key streams limit : ℕ)
  /-- The request's header block was sent. -/
  | headers (id : ℕ) (endStream : Bool)
  /-- Request body bytes came from the exchange; `eof` marks the body's end. -/
  | given (id : ℕ) (bytes : Bytes) (eof : Bool)
  /-- A DATA frame was sent. -/
  | data (id : ℕ) (payload : Bytes) (endStream : Bool)
  /-- The peer's SETTINGS left this initial window. -/
  | settings (initWindow : ℤ)
  | streamUpdate (id : ℕ) (inc : ℤ)
  | connUpdate (inc : ℤ)
  /-- A response header block was applied to a stream. -/
  | block (id : ℕ) (fields : List Field)
  /-- A response DATA payload was applied to a stream. -/
  | payload (id : ℕ) (bytes : Bytes)
  /-- A response was delivered. -/
  | delivered (id : ℕ) (resp : FpResponse)
  deriving DecidableEq

structure H2Conn where
  maxResponseBody : ℕ
  streams : List H2Stream := []
  pending : List Exchange := []
  nextID : ℕ := 1
  maxConcurrent : ℕ := h2DefaultConcurrent
  peerInitWindow : ℤ := h2DefaultWindow
  connSendWindow : ℤ := h2DefaultWindow
  maxFrameSize : ℕ := h2MaxFrameSize
  goAway : Bool := false
  /-- `c.state == connReady`. -/
  ready : Bool := false
  /-- `c.state == connClosed`. -/
  closed : Bool := false
  /-- `c.be.h2conns[c.key] == c`. -/
  pooled : Bool := true
  /-- Exchanges submitted to this connection so far; each gets the next key. -/
  submitted : ℕ := 0
  /-- The exchanges with `ex.finished`, in the order they were finished. -/
  finished : List (ℕ × Except FpError FpResponse) := []
  /-- The exchanges handed to another connection. -/
  restarted : List ℕ := []
  log : List Hist := []

namespace H2Conn

def stream (c : H2Conn) (id : ℕ) : Option H2Stream := c.streams.find? fun st => st.id == id

def update (c : H2Conn) (id : ℕ) (f : H2Stream → H2Stream) : H2Conn :=
  { c with streams := c.streams.map fun st => if st.id = id then f st else st }

def delete (c : H2Conn) (id : ℕ) : H2Conn :=
  { c with streams := c.streams.filter fun st => st.id != id }

def note (c : H2Conn) (events : List Hist) : H2Conn := { c with log := c.log ++ events }

def isFinished (c : H2Conn) (key : ℕ) : Bool := c.finished.any fun f => f.1 == key

def finish (c : H2Conn) (ex : Exchange) (result : Except FpError FpResponse) : H2Conn :=
  if c.isFinished ex.key then c else { c with finished := c.finished ++ [(ex.key, result)] }

/-! ### Sending bodies -/

def pumpMax (c : H2Conn) (st : H2Stream) : ℤ :=
  let max := st.sendWindow
  let max := if c.connSendWindow < max then c.connSendWindow else max
  if c.maxFrameSize < max then c.maxFrameSize else max

def writeChunk (c : H2Conn) (st : H2Stream) : H2Conn :=
  let chunk := st.bodyRem.take (c.pumpMax st).toNat
  let rest := st.bodyRem.drop chunk.length
  let last := rest.isEmpty && st.bodyEOF
  { c.update st.id fun t =>
      { t with
        bodyRem := rest
        sendWindow := t.sendWindow - chunk.length
        endSent := t.endSent || last } with
    connSendWindow := c.connSendWindow - chunk.length }.note [.data st.id chunk last]

def pumpLoop : ℕ → H2Conn → ℕ → H2Conn
  | 0, c, _ => c
  | fuel + 1, c, id =>
    match c.stream id with
    | none => c
    | some st =>
      if st.bodyRem.isEmpty || decide (c.pumpMax st ≤ 0) then c
      else pumpLoop fuel (c.writeChunk st) id

/-- The empty DATA frame that ends a body whose bytes are all sent. -/
def writeEnd (c : H2Conn) (st : H2Stream) : H2Conn :=
  (c.update st.id fun t => { t with endSent := true }).note [.data st.id [] true]

/-- Each round takes at least one byte, so the body's length covers the rounds. -/
def pumpBody (c : H2Conn) (id : ℕ) : H2Conn :=
  match c.stream id with
  | none => c
  | some st =>
    let c := pumpLoop st.bodyRem.length c id
    match c.stream id with
    | none => c
    | some st => if st.bodyRem.isEmpty && st.bodyEOF && !st.endSent then c.writeEnd st else c

def afterBodyPump (c : H2Conn) (id : ℕ) : H2Conn :=
  match c.stream id with
  | none => c
  | some st =>
    match st.upload with
    | none => c
    | some b =>
      if !st.bodyRem.isEmpty then c
      else c.update id fun t =>
        { t with upload := some { b with
            done := st.endSent
            requested := b.requested || !st.endSent } }

def resumeBody (c : H2Conn) (id : ℕ) : H2Conn :=
  match c.stream id with
  | none => c
  | some st => if st.bodyRem.isEmpty then c else c.pumpBody id

/-- `resumeBodies`; the map's streams are met in the order `order`, and those it leaves out
after them. A second visit finds no more room than the first left and sends nothing. -/
def resumeBodies (c : H2Conn) (order : List ℕ) : H2Conn :=
  let walk := order ++ c.streams.map H2Stream.id
  let c' := walk.foldl resumeBody c
  if c'.log.length = c.log.length then c' else walk.foldl afterBodyPump c'

/-! ### The connection's end -/

/-- `failOrRetry` on this connection, which is never a reused one, finishes with the error. -/
def closeConn (c : H2Conn) (err : FpError) : H2Conn :=
  if c.closed then c
  else
    let failing := c.streams.map H2Stream.ex ++ c.pending
    failing.foldl (fun c ex => c.finish ex (.error err))
      { c with closed := true, pooled := false, streams := [], pending := [] }

def closeIfExhausted (c : H2Conn) : H2Conn :=
  if decide (fpH2MaxStreamID < c.nextID) && c.streams.isEmpty && c.pending.isEmpty && !c.pooled
  then c.closeConn .connClosed else c

def retireExhausted (c : H2Conn) : H2Conn := closeIfExhausted { c with
    pending := []
    pooled := false
    restarted := c.restarted ++ (c.pending.filter fun ex => !c.isFinished ex.key).map Exchange.key }

/-! ### Opening streams -/

/-- `openStream` up to the request's header block; a body source is asked for its first
chunk. -/
def addStream (c : H2Conn) (ex : Exchange) : H2Conn :=
  let id := c.nextID
  let endStream := ex.body.isEmpty && ex.bodySource.isNone
  let st : H2Stream :=
    { id := id
      ex := ex
      sendWindow := c.peerInitWindow
      endSent := endStream
      bodyRem := if ex.bodySource.isNone then ex.body else []
      bodyEOF := ex.bodySource.isNone
      upload := ex.bodySource.map fun n => { length := n, requested := true } }
  note { c with nextID := id + 2, streams := c.streams ++ [st] }
    ([Hist.opened id ex.key c.streams.length c.maxConcurrent] ++
      (if ex.bodySource.isNone then [Hist.given id ex.body true] else []) ++
      [Hist.headers id endStream])

def openStream (c : H2Conn) (ex : Exchange) : H2Conn := (c.addStream ex).pumpBody c.nextID

def flushLoop : ℕ → H2Conn → H2Conn
  | 0, c => c
  | fuel + 1, c =>
    if c.closed then c
    else if fpH2MaxStreamID < c.nextID then c.retireExhausted
    else
      match c.pending with
      | [] => c
      | ex :: rest =>
        if decide (c.maxConcurrent ≤ c.streams.length) || c.goAway then c
        else flushLoop fuel ({ c with pending := rest }.openStream ex)

/-- Each round takes one exchange from the queue; the last one finds it empty. -/
def flushPending (c : H2Conn) : H2Conn := flushLoop (c.pending.length + 1) c

/-! ### The ends of streams -/

def finishStream (c : H2Conn) (st : H2Stream) : H2Conn :=
  let resp : FpResponse := ⟨st.status, st.headers, st.body⟩
  let c := (((c.delete st.id).finish st.ex (.ok resp)).note [.delivered st.id resp]).flushPending
  if c.streams.isEmpty && c.pending.isEmpty && !c.goAway && !c.pooled then c.closeConn .connClosed
  else c

def resetStream (c : H2Conn) (st : H2Stream) (err : FpError) : H2Conn :=
  ((c.delete st.id).finish st.ex (.error err)).flushPending

def closeStream (c : H2Conn) (st : H2Stream) (err : FpError) : H2Conn :=
  ((c.delete st.id).finish st.ex (.error err)).closeIfExhausted

/-! ### Frames from the backend -/

def applySetting (c : H2Conn) (setting : ℕ × ℕ) : Except FpError H2Conn :=
  if setting.1 = h2SettingsMaxConcurrent then .ok { c with maxConcurrent := setting.2 }
  else if setting.1 = h2SettingsInitialWindowSize then
    if fpH2MaxWindow < setting.2 then .error .badResponse
    else .ok { c with peerInitWindow := setting.2 }
  else if setting.1 = h2SettingsMaxFrameSize then
    if 16384 ≤ setting.2 ∧ setting.2 ≤ 2 ^ 24 - 1 then .ok { c with maxFrameSize := setting.2 }
    else .ok c
  else .ok c

def shiftWindows (c : H2Conn) (delta : ℤ) : Except FpError H2Conn :=
  if c.streams.all fun st => h2WindowFits st.sendWindow delta then
    .ok { c with streams := c.streams.map fun st =>
      { st with sendWindow := st.sendWindow + delta } }
  else .error .badResponse

def adjustWindows (c : H2Conn) (oldInit : ℤ) : Except FpError H2Conn :=
  if c.peerInitWindow = oldInit then .ok c else c.shiftWindows (c.peerInitWindow - oldInit)

def applySettings (c : H2Conn) (settings : List (ℕ × ℕ)) (order : List ℕ) : Except FpError H2Conn :=
  match settings.foldlM applySetting c with
  | .error err => .error err
  | .ok c' =>
    match c'.adjustWindows c.peerInitWindow with
    | .error err => .error err
    | .ok c' => .ok ((c'.note [.settings c'.peerInitWindow]).flushPending.resumeBodies order)

/-- Go's `strconv.Atoi`, whose error is dropped: zero for a text that is no number, the
nearest value for one out of range. -/
def atoi (s : Bytes) : ℤ :=
  let (neg, digits) :=
    match s with
    | 45 :: t => (true, t)
    | 43 :: t => (false, t)
    | t => (false, t)
  if digits.isEmpty || !digits.all fun b => 48 ≤ b && b ≤ 57 then 0
  else
    let v : ℤ := digits.foldl (fun acc b => acc * 10 + ((b.toNat : ℤ) - 48)) 0
    if neg then max (-v) (-2 ^ 63) else min v (2 ^ 63 - 1)

def statusName : Bytes := ascii ":status"

def applyField (st : H2Stream) (f : Field) : H2Stream :=
  if f.1 = statusName then { st with status := atoi f.2 }
  else if f.1.head?.any fun b => b != Core.colon then { st with headers := st.headers ++ [f] }
  else st

def applyBlock (st : H2Stream) (fields : List Field) : H2Stream :=
  { fields.foldl applyField st with gotHeaders := true }

/-- `completeHeaders` on an open stream with the decoder's answer: the fields, and whether
one of them is malformed. -/
def completeHeaders (c : H2Conn) (st : H2Stream) (fields : List Field) (malformed endStream : Bool) : H2Conn :=
  if malformed then c.resetStream st .badResponse
  else
    let st' := applyBlock st fields
    let c := (c.update st.id fun _ => st').note [.block st.id fields]
    if endStream then c.finishStream st' else c

def unopenedStream (c : H2Conn) (id : ℕ) : Bool := id % 2 == 0 || (decide (c.nextID ≤ id) && (c.stream id).isNone)

def onDataFrame (c : H2Conn) (id : ℕ) (payload : Bytes) (endStream : Bool) : H2Conn :=
  if c.unopenedStream id then c.closeConn .badResponse
  else
    match c.stream id with
    | none => c
    | some st =>
      if !payload.isEmpty && decide (c.maxResponseBody < st.body.length + payload.length) then
        c.closeConn .bodyTooLarge
      else
        let st' := { st with body := st.body ++ payload }
        let c := (c.update st.id fun _ => st').note [.payload st.id payload]
        if endStream then c.finishStream st' else c

def acceptChunk (b : UpstreamBody) (chunk : Bytes) (eof err : Bool) : Bool :=
  let sent := b.sent + chunk.length
  !err && (decide (b.length ≤ 0) || (decide (sent ≤ b.length) && (!eof || decide (sent = b.length))))

def giveChunk (c : H2Conn) (st : H2Stream) (b : UpstreamBody) (chunk : Bytes) (eof : Bool) : H2Conn :=
  (c.update st.id fun t =>
    { t with
      bodyRem := chunk
      bodyEOF := eof
      upload := some { b with requested := false, sent := b.sent + chunk.length } }).note
    [.given st.id chunk eof]

def sendBodyChunk (c : H2Conn) (st : H2Stream) (b : UpstreamBody) (chunk : Bytes) (eof err : Bool) : H2Conn :=
  if !acceptChunk b chunk eof err then c.resetStream st .bodySource
  else ((c.giveChunk st b chunk eof).pumpBody st.id).afterBodyPump st.id

end H2Conn

/-! ### Events -/

inductive Event
  /-- `startExchange` picks this connection. -/
  | submit (body : Bytes) (bodySource : Option ℤ)
  | connReady
  | settings (settings : List (ℕ × ℕ)) (order : List ℕ)
  | connWindowUpdate (inc : ℕ) (order : List ℕ)
  | streamWindowUpdate (id inc : ℕ)
  /-- A header block that is complete, as the decoder answers it. -/
  | headers (id : ℕ) (decoded : Except FpError (List Field × Bool)) (endStream : Bool)
  | data (id : ℕ) (payload : Bytes) (endStream : Bool)
  | rstStream (id : ℕ)
  | goAway
  /-- Another connection takes this one's place in the pool. -/
  | replaced
  /-- The body source of a stream answers a request for a chunk. -/
  | bodyChunk (id : ℕ) (chunk : Bytes) (eof err : Bool)
  /-- A stream's deadline has passed. -/
  | sweep (id : ℕ)
  /-- The caller gives up on an exchange that is open, or still pending. -/
  | abortStream (id : ℕ)
  | abortPending (key : ℕ)
  | close (err : FpError)

namespace H2Conn

/-- The increment of a WINDOW_UPDATE frame without its reserved bit. -/
def windowInc (inc : ℕ) : ℤ := ((inc % 2 ^ 31 : ℕ) : ℤ)

/-- The events of a ready connection: the backend's frames, and what happens to its open
streams. -/
def react (c : H2Conn) : Event → H2Conn
  | .settings settings order =>
    match c.applySettings settings order with
    | .ok c' => c'
    | .error err => c.closeConn err
  | .connWindowUpdate inc order =>
    let inc := windowInc inc
    if !h2WindowFits c.connSendWindow inc then c.closeConn .badResponse
    else ({ c with connSendWindow := c.connSendWindow + inc }.note [.connUpdate inc]).resumeBodies
      order
  | .streamWindowUpdate id inc =>
    let inc := windowInc inc
    match c.stream id with
    | none => c
    | some st =>
      if !h2WindowFits st.sendWindow inc then c.resetStream st .badResponse
      else
        let c := (c.update st.id fun t => { t with sendWindow := t.sendWindow + inc }).note
          [.streamUpdate st.id inc]
        if st.bodyRem.isEmpty then c else (c.pumpBody id).afterBodyPump id
  | .headers id decoded endStream =>
    if c.unopenedStream id then c.closeConn .badResponse
    else
      match decoded with
      | .error err => c.closeConn err
      | .ok (fields, malformed) =>
        match c.stream id with
        | none => c
        | some st => c.completeHeaders st fields malformed endStream
  | .data id payload endStream => c.onDataFrame id payload endStream
  | .rstStream id =>
    match c.stream id with
    | none => c
    | some st => c.closeStream st .connClosed
  | .goAway => { c with goAway := true }
  | .bodyChunk id chunk eof err =>
    match c.stream id with
    | none => c
    | some st =>
      match st.upload with
      | none => c
      | some b =>
        if b.requested && !c.isFinished st.ex.key then c.sendBodyChunk st b chunk eof err else c
  | .sweep id =>
    match c.stream id with
    | none => c
    | some st => c.closeStream st .timeout
  | .abortStream id =>
    match c.stream id with
    | none => c
    | some st => c.resetStream st .clientClosed
  | _ => c

def step (c : H2Conn) (e : Event) : H2Conn :=
  if c.closed then c
  else
    match e with
    | .submit body bodySource =>
      if c.pooled && !c.goAway then
        let ex : Exchange := ⟨c.submitted, body, bodySource⟩
        let c := { c with pending := c.pending ++ [ex], submitted := c.submitted + 1 }
        if c.ready then c.flushPending else c
      else c
    | .connReady => if c.ready then c else { c with ready := true }.flushPending
    | .replaced => if c.goAway then { c with pooled := false } else c
    | .abortPending key =>
      match c.pending.find? fun ex => ex.key == key with
      | none => c
      | some ex => c.finish ex (.error .clientClosed)
    | .close err => c.closeConn err
    | e => if c.ready then c.react e else c

def run (c : H2Conn) (events : List Event) : H2Conn := events.foldl step c

end H2Conn
end AlosHttp.Proxy

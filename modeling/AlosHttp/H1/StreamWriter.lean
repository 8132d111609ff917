import AlosHttp.H1.Response

/-! Streamed and progressive HTTP/1 output: the handler's calls on the stream writer, the pump that
moves its bytes to the socket, and the end of the response. Rate limits only delay a call and are
not part of the state. -/
namespace AlosHttp.H1
open AlosHttp.Core

def h1StreamPendingCap : ℕ := 256 * 1024

inductive StreamError
  | streamClosed
  | bodyTooLarge
  deriving DecidableEq, Repr

/-- What the writer takes from the request and the server; `cors` merges the CORS fields
into the handler's. -/
structure StreamConfig where
  method : Bytes
  serverName : ServerName
  altSvc : Option ℕ
  reqClose : Bool
  maxWrite : ℤ
  cors : List Field → List Field

structure StreamWriter where
  written : ℕ := 0
  headerCalled : Bool := false
  suppressBody : Bool := false
  chunked : Bool := false
  contentLength : Option ℕ := none
  bodyBytes : ℕ := 0
  mustClose : Bool := false
  pending : Bytes := []
  pendingOff : ℕ := 0
  headerReady : Bool := false
  ended : Bool := false
  finished : Bool := false
  handlerDone : Bool := false
  err : Option StreamError := none

namespace StreamWriter

def buffered (sw : StreamWriter) : ℕ := sw.pending.length - sw.pendingOff

def writeHeader (cfg : StreamConfig) (date : HttpDate) (sw : StreamWriter) (statusCode : ℕ)
    (headers : List Field) (contentType : Bytes) : StreamWriter :=
  if sw.headerCalled then sw
  else
    let headers := cfg.cors headers
    let suppressBody := (responseBodyDisposition cfg.method statusCode).1
    let (declared, connClose) := scanH1StreamHeaders headers
    let chunked := if suppressBody then false else classifyH1StreamHeaders headers
    let contentLength := if !suppressBody && !chunked then declared else sw.contentLength
    let mustClose := connClose || (!suppressBody && !chunked && contentLength.isNone)
    { sw with
      headerCalled := true, suppressBody := suppressBody, chunked := chunked,
      contentLength := contentLength, mustClose := mustClose,
      pending := appendH1StreamHead date sw.pending statusCode headers contentType chunked
        (cfg.reqClose || mustClose) cfg.serverName cfg.altSvc,
      headerReady := true }

def admitBody (cfg : StreamConfig) (sw : StreamWriter) (n : ℕ) : StreamWriter × Option StreamError :=
  let written := if cfg.maxWrite > 0 then sw.written + n else sw.written
  if cfg.maxWrite > 0 ∧ written > cfg.maxWrite then
    ({ sw with written := written, mustClose := true }, some .bodyTooLarge)
  else if sw.contentLength.any (fun len => sw.bodyBytes + n > len) then
    ({ sw with written := written, mustClose := true }, some .bodyTooLarge)
  else ({ sw with written := written, bodyBytes := sw.bodyBytes + n }, none)

/-- The first part of `WriteChunk`: an early return, or the data to be buffered. -/
def writeChunkStart (cfg : StreamConfig) (sw : StreamWriter) (data : Bytes) :
    StreamWriter × Except (Option StreamError) Bytes :=
  if !sw.headerCalled then (sw, .error (some .streamClosed))
  else if sw.suppressBody then (sw, .error none)
  else
    match sw.admitBody cfg data.length with
    | (sw, some err) => (sw, .error (some err))
    | (sw, none) => (sw, .ok data)

/-- One round of the buffering loop of `WriteChunk`; it waits while the buffer is full. The
result is the writer, what is left to buffer and what was buffered. -/
def writeChunkRound (sw : StreamWriter) (data : Bytes) :
    Option (StreamWriter × Except (Option StreamError) Bytes × Bytes) :=
  if data = [] then some (sw, .error none, [])
  else if sw.err.isSome then some (sw, .error sw.err, [])
  else if sw.ended then some (sw, .error (some .streamClosed), [])
  else if sw.buffered ≥ h1StreamPendingCap then none
  else
    let n := min data.length (h1StreamPendingCap - sw.buffered)
    let pending := if sw.chunked then appendH1Chunk sw.pending (data.take n)
      else sw.pending ++ data.take n
    some ({ sw with pending := pending }, .ok (data.drop n), data.take n)

def endStream (sw : StreamWriter) : StreamWriter :=
  if sw.ended then sw
  else
    { sw with
      ended := true,
      pending := if sw.chunked && sw.headerReady then sw.pending ++ h1LastChunk else sw.pending }

def framingComplete (sw : StreamWriter) : Bool :=
  match sw.contentLength with
  | none => true
  | some len => sw.bodyBytes == len

def fail (sw : StreamWriter) (err : StreamError) : StreamWriter :=
  { sw with err := if sw.err.isNone then some err else sw.err, finished := true }

def compact (sw : StreamWriter) : StreamWriter :=
  if sw.buffered = 0 then { sw with pending := [], pendingOff := 0 }
  else if sw.pendingOff > sw.pending.length / 2 then
    { sw with pending := sw.pending.drop sw.pendingOff, pendingOff := 0 }
  else sw

end StreamWriter

inductive Call
  | writeHeader (statusCode : ℕ) (headers : List Field) (contentType : Bytes)
  | writeChunk (data : Bytes)
  | flush
  | close

/-- One streamed response: the writer, the data of a waiting `WriteChunk`, the bytes handed to the
socket, and how the connection goes on. `accepted` records the body bytes buffered. -/
structure StreamSession where
  sw : StreamWriter := {}
  current : Option Bytes := none
  emitted : Bytes := []
  outKeepAlive : Bool := false
  dispatching : Bool := true
  resumeDue : Bool := false
  closeAfter : Bool := false
  accepted : Bytes := []

namespace StreamSession

/-- `h1FinishOut`: the connection takes the next request or is closed. -/
def finishOut (s : StreamSession) : StreamSession :=
  if s.outKeepAlive then { s with dispatching := false, resumeDue := true }
  else { s with dispatching := false, closeAfter := true }

/-- `h1PumpStream` and the end of the response when everything is out. -/
def pump (s : StreamSession) (room : ℤ) : StreamSession :=
  if s.sw.finished then s
  else
    let n := if room > 0 then min room.toNat s.sw.buffered else 0
    let emitted := s.emitted ++ (s.sw.pending.drop s.sw.pendingOff).take n
    let sw := StreamWriter.compact { s.sw with pendingOff := s.sw.pendingOff + n }
    let done := sw.handlerDone && sw.ended && sw.buffered == 0
    let s := { s with sw := { sw with finished := done }, emitted := emitted }
    if done then s.finishOut else s

def call (cfg : StreamConfig) (date : HttpDate) (s : StreamSession) : Call → StreamSession
  | .writeHeader statusCode headers contentType =>
    { s with sw := s.sw.writeHeader cfg date statusCode headers contentType }
  | .writeChunk data =>
    match s.sw.writeChunkStart cfg data with
    | (sw, .error _) => { s with sw := sw }
    | (sw, .ok data) => { s with sw := sw, current := some data }
  | .flush => s
  | .close => { s with sw := s.sw.endStream }

def round (s : StreamSession) (data : Bytes) : Option StreamSession :=
  match s.sw.writeChunkRound data with
  | none => none
  | some (sw, .error _, _) => some { s with sw := sw, current := none }
  | some (sw, .ok rest, taken) =>
    some { s with sw := sw, current := some rest, accepted := s.accepted ++ taken }

/-- The answer when a streamed response never got a head; the connection is closed. -/
def unavailable : Response where
  method := []
  statusCode := 500
  contentType := ascii "text/plain; charset=utf-8"
  headers := []
  body := ascii "Streaming/Hijack unavailable"

/-- The handler has returned: `finishH1Dispatch` and `h1FinishStreamed`. -/
def finish (cfg : StreamConfig) (date : HttpDate) (s : StreamSession) (reqClose : Bool)
    (room : ℤ) : StreamSession :=
  if s.sw.headerReady then
    let sw := StreamWriter.endStream { s.sw with handlerDone := true }
    { s with
      sw := sw,
      outKeepAlive := !reqClose && !cfg.reqClose && !sw.mustClose && sw.framingComplete }.pump room
  else
    { s with
      emitted := appendPlainResponseMode date cfg.serverName unavailable s.emitted false true,
      dispatching := false, closeAfter := true }

inductive Event
  | call (date : HttpDate) (c : Call)
  | round
  | pump (room : ℤ)
  | finish (date : HttpDate) (reqClose : Bool) (room : ℤ)
  | lost

/-- A step of a response in flight; calls of the handler come one after another. -/
def step (cfg : StreamConfig) (s : StreamSession) (e : Event) : Option StreamSession :=
  if !s.dispatching then none
  else
    match e with
    | .call date c =>
      if s.current.isSome || s.sw.handlerDone then none else some (s.call cfg date c)
    | .round =>
      match s.current with
      | none => none
      | some data => s.round data
    | .pump room => some (s.pump room)
    | .finish date reqClose room =>
      if s.current.isSome || s.sw.handlerDone then none
      else some (s.finish cfg date reqClose room)
    | .lost => some { s with sw := s.sw.fail .streamClosed, dispatching := false, closeAfter := true }

end StreamSession

def h1DirectBodyMin : ℕ := 16 * 1024

/-- A large buffered body on its way out; `bodyOut` is the segment that the socket has. -/
structure ProgressiveBody where
  tls : Bool
  emitted : Bytes
  h1Body : Bytes
  h1BodyOff : ℕ
  h1FirstSegSent : Bool := false
  bodyOut : Bytes := []
  outKeepAlive : Bool
  dispatching : Bool := true
  resumeDue : Bool := false
  closeAfter : Bool := false

namespace ProgressiveBody

def finishOut (c : ProgressiveBody) : ProgressiveBody :=
  if c.outKeepAlive then { c with dispatching := false, resumeDue := true }
  else { c with dispatching := false, closeAfter := true }

def h1FirstSegmentMaxMSS : ℤ := 9216

/-- The end of the first segment: a little over the segment size of the socket, if known.
`unsent` is what is still in the write buffer. -/
def firstSegmentEnd (c : ProgressiveBody) (mss : Option ℤ) (unsent : ℤ) (stop : ℕ) : ℕ :=
  match mss with
  | none => stop
  | some mss =>
    if mss ≤ 0 ∨ mss > h1FirstSegmentMaxMSS then stop
    else
      let n := c.h1BodyOff + mss + 1 - unsent
      if n ≤ c.h1BodyOff ∨ n ≥ stop then stop else n.toNat

inductive Event
  | pump (room : ℤ) (mss : Option ℤ) (unsent : ℤ)
  | sent (n : ℕ)
  | lost

/-- `h1PumpBody`: sealed records within `room` on TLS, whole segments otherwise. -/
def pump (c : ProgressiveBody) (room : ℤ) (mss : Option ℤ) (unsent : ℤ) : ProgressiveBody :=
  if c.tls then
    if room ≤ 0 then c
    else
      let n := min room.toNat (c.h1Body.length - c.h1BodyOff)
      let c := { c with
        emitted := c.emitted ++ (c.h1Body.drop c.h1BodyOff).take n, h1BodyOff := c.h1BodyOff + n }
      if c.h1BodyOff = c.h1Body.length then c.finishOut else c
  else if c.bodyOut ≠ [] then c
  else if c.h1BodyOff < c.h1Body.length then
    let stop := if c.h1FirstSegSent then c.h1Body.length
      else c.firstSegmentEnd mss unsent c.h1Body.length
    let segment := (c.h1Body.take stop).drop c.h1BodyOff
    { c with
      h1FirstSegSent := true, bodyOut := segment, emitted := c.emitted ++ segment,
      h1BodyOff := stop }
  else c.finishOut

def step (c : ProgressiveBody) (e : Event) : Option ProgressiveBody :=
  if !c.dispatching then none
  else
    match e with
    | .pump room mss unsent => some (c.pump room mss unsent)
    | .sent n => some { c with bodyOut := c.bodyOut.drop n }
    | .lost => some { c with dispatching := false, closeAfter := true }

/-- The end of a handler without a streamed response: small bodies go out at once, large
ones progressively. On TLS the first `sealed` bytes go with the head. -/
def start (date : HttpDate) (serverName : ServerName) (altSvc : Option ℕ) (tls : Bool)
    (oneShotMax sealed : ℕ) (resp : Response) (keepAlive : Bool) : ProgressiveBody :=
  let resp := if tls then addAltSvcHeader altSvc resp else resp
  let body := resp.transmittedBody
  let large := if tls then body.length > oneShotMax else body.length ≥ h1DirectBodyMin
  if large then
    let off := if tls then min body.length sealed else 0
    { tls := tls
      emitted := appendPlainResponseMode date serverName resp [] keepAlive false ++ body.take off
      h1Body := body, h1BodyOff := off, outKeepAlive := keepAlive }
  else
    finishOut
      { tls := tls
        emitted := appendPlainResponseMode date serverName resp [] keepAlive true
        h1Body := [], h1BodyOff := 0, outKeepAlive := keepAlive }

end ProgressiveBody
end AlosHttp.H1

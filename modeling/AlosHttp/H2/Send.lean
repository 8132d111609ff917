import AlosHttp.H2.Conn

/-! How a response leaves the connection: the buffered response in its three send paths, the
streamed one through its writer and the pump, and the end of a dispatch. -/
namespace AlosHttp.H2
open AlosHttp.Core

inductive SendPath
  | append
  | seal
  | direct
  deriving DecidableEq

/-- What a send depends on besides the connection: its path in the source, its output budget, the size
of a HEADERS frame still to be sent, and for a direct send the bytes that wait before its frames and
those the socket takes. -/
structure SendEnv where
  path : SendPath
  budget : ℤ
  head : ℕ
  waiting : ℕ
  sent : ℕ

inductive FileRead
  | full
  | again
  | failed
  deriving DecidableEq

/-- What a pump depends on: the room below the output's high mark, and how the file answers. -/
structure PumpEnv where
  room : ℤ
  read : FileRead

def Entry.dataLen : Entry → ℕ
  | .data payload _ _ => payload.length
  | _ => 0

/-- How many frames of a direct send are kept: the ones the socket took whole, and the next one,
whose rest goes to the write buffer. -/
def h2KeepPartialFrame : ℕ → List Entry → ℕ
  | _, [] => 0
  | sent, f :: fs =>
    if h2FrameHeaderLen + f.dataLen ≤ sent then
      h2KeepPartialFrame (sent - (h2FrameHeaderLen + f.dataLen)) fs + 1
    else 1

namespace Cell

/-- What flow control lets the stream send. -/
def avail (c : Cell) : ℤ := min c.obj.window c.connWindow

def h2AppendResponseHead (c : Cell) : Cell :=
  if c.obj.respHeadersSent then c
  else { c with obj.respHeadersSent := true }.emit (.headers c.obj.respBody.isEmpty)

def h2DataChunk (c : Cell) (frameLimit : ℕ) : ℕ × Bool :=
  if c.avail ≤ 0 then (0, false)
  else
    let n := (min (min ((c.obj.respBody.length : ℤ) - c.obj.respOff) c.avail) frameLimit).toNat
    (n, c.obj.respOff + n == c.obj.respBody.length)

def h2ConsumeData (c : Cell) (n : ℕ) : Cell :=
  { c with
    obj.respOff := c.obj.respOff + n
    obj.window := c.obj.window - n
    connWindow := c.connWindow - n }

/-- The loop that the three send paths share. `used` is what was put out so far, `head` what the
first frame is put out together with. -/
def h2WindowedFrames (frameLimit : ℕ) (budget : ℤ) : ℕ → Cell → ℤ → ℤ → List Entry × Cell
  | 0, c, _, _ => ([], c)
  | fuel + 1, c, used, head =>
    if c.obj.respOff < c.obj.respBody.length ∧ used < budget then
      match c.h2DataChunk frameLimit with
      | (0, _) => ([], c)
      | (n, fin) =>
        let rest := h2WindowedFrames frameLimit budget fuel (c.h2ConsumeData n)
          (used + head + h2FrameHeaderLen + n) 0
        (.data ((c.obj.respBody.drop c.obj.respOff).take n) fin c.avail :: rest.1, rest.2)
    else ([], c)

def h2UnconsumeFrames (c : Cell) (frames : List Entry) : Cell :=
  let unsent := (frames.map Entry.dataLen).sum
  { c with
    obj.respOff := c.obj.respOff - unsent
    obj.window := c.obj.window + unsent
    connWindow := c.connWindow + unsent }

def headLen (c : Cell) (env : SendEnv) : ℕ := if c.obj.respHeadersSent then 0 else env.head

def h2AppendWindowed (c : Cell) (env : SendEnv) : Cell :=
  let head := c.headLen env
  let c := c.h2AppendResponseHead
  let r := h2WindowedFrames c.dataFrameLimit env.budget (c.obj.respBody.length - c.obj.respOff) c head 0
  r.2.emitAll r.1

def h2SealWindowed (c : Cell) (env : SendEnv) : Cell :=
  let head := c.headLen env
  let c := c.h2AppendResponseHead
  let r := h2WindowedFrames (min c.dataFrameLimit h2SealedDataMax) env.budget
    (c.obj.respBody.length - c.obj.respOff) c 0 head
  r.2.emitAll r.1

/-- All frames are planned, then offered to the socket; what it leaves is taken back, but for the
frame it stopped in. -/
def h2SendWindowed (c : Cell) (env : SendEnv) : Cell :=
  let c := c.h2AppendResponseHead
  let r := h2WindowedFrames c.dataFrameLimit env.budget h2DirectMaxFrames c 0 0
  let kept := if env.sent < env.waiting then 0 else h2KeepPartialFrame (env.sent - env.waiting) r.1
  (r.2.emitAll (r.1.take kept)).h2UnconsumeFrames (r.1.drop kept)

def h2EmitWindowed (c : Cell) (env : SendEnv) : Cell :=
  match env.path with
  | .append => c.h2AppendWindowed env
  | .seal => c.h2SealWindowed env
  | .direct => c.h2SendWindowed env

def h2EmitDone (c : Cell) : Bool := c.obj.respBody.length ≤ c.obj.respOff

def h2SettleParked (c : Cell) (cfg : ServerConfig) : Cell :=
  let pending := c.obj.respBody.length - c.obj.respOff
  let stall := if c.obj.window ≤ 0 ∨ c.connWindow ≤ 0 then pending else 0
  let c := { c with
    sendingBytes := c.sendingBytes + (stall - c.obj.stallBytes)
    parkedBytes := c.parkedBytes + (pending - c.obj.parkedBytes)
    obj.stallBytes := stall
    obj.parkedBytes := pending }
  if (0 < stall ∧ (cfg.maxPendingWrite : ℤ) < c.sendingBytes) ∨
      ((cfg.maxPendingWrite * h2ParkedBytesHardFactor : ℕ) : ℤ) < c.parkedBytes then
    (c.emit (.rst .enhanceYourCalm)).releaseSending
  else c

def h2ResumeStream (c : Cell) (cfg : ServerConfig) (env : SendEnv) : Cell :=
  let c := c.h2EmitWindowed env
  if c.h2EmitDone then c.releaseSending else c.h2SettleParked cfg

def h2ResumeSending (c : Cell) (cfg : ServerConfig) (env : SendEnv) : Cell :=
  if c.inSending then c.h2ResumeStream cfg env else c

def pumpFrame (c : Cell) (n : ℕ) (fin : Bool) : Cell :=
  { c with
    hist := .data (c.writer.pending.take n) fin c.avail :: c.hist
    writer.pending := c.writer.pending.drop n
    writer.finished := c.writer.finished || fin
    obj.window := c.obj.window - n
    connWindow := c.connWindow - n }

def h2PumpData (frameLimit : ℕ) (room : ℤ) : ℕ → Cell → ℤ → Cell × ℤ
  | 0, c, used => (c, used)
  | fuel + 1, c, used =>
    if c.writer.pending ≠ [] ∧ used < room then
      if c.avail ≤ 0 then (c, used)
      else
        let n := (min (min (c.writer.pending.length : ℤ) c.avail) frameLimit).toNat
        h2PumpData frameLimit room fuel
          (c.pumpFrame n (c.writer.ended && n == c.writer.pending.length)) (used + h2FrameHeaderLen + n)
    else (c, used)

def fileFrame (c : Cell) (n : ℕ) : Cell :=
  { c with
    hist := .data (c.writer.file.take n) false c.avail :: c.hist
    writer.file := c.writer.file.drop n
    obj.window := c.obj.window - n
    connWindow := c.connWindow - n }

/-- The DATA frames that a file's next `left` bytes are cut into. -/
def h2FileFrames (frameLimit : ℕ) : ℕ → ℕ → Cell → Cell
  | 0, _, c => c
  | fuel + 1, left, c =>
    if left = 0 then c
    else
      let n := min left frameLimit
      h2FileFrames frameLimit fuel (left - n) (c.fileFrame n)

def h2PumpFile (c : Cell) (room : ℤ) (frameLimit : ℕ) (read : FileRead) : Cell :=
  let avail := min (min (min c.avail c.writer.file.length) room) (frameLimit * h2FileMaxFrames : ℕ)
  if avail ≤ 0 ∨ c.writer.needIO = true then c
  else
    match read with
    | .again => { c with writer.needIO := true }
    | .failed => { c with writer.err := true, writer.sendRST := true, writer.file := [] }
    | .full => h2FileFrames frameLimit avail.toNat avail.toNat c

/-- The pump after the response's head: pending bytes, then the file, then the end. -/
def h2PumpBody (c : Cell) (env : PumpEnv) : Cell :=
  let frameLimit := c.dataFrameLimit
  let r := h2PumpData frameLimit env.room c.writer.pending.length c 0
  let c := r.1
  let c :=
    if c.writer.file ≠ [] ∧ c.writer.pending = [] then c.h2PumpFile (env.room - r.2) frameLimit env.read
    else c
  if c.writer.finished = false ∧ c.writer.ended = true ∧ c.writer.pending = [] then
    { c.emit (.data [] true c.avail) with writer.finished := true }
  else c

def h2PumpFrames (c : Cell) (env : PumpEnv) : Cell :=
  let c := { c with writer.pumpQueued := false }
  if c.writer.finished then c
  else if c.writer.err then
    { (if c.writer.sendRST then c.emit (.rst .cancel) else c) with writer.finished := true }
  else if c.writer.headersOut then c.h2PumpBody env
  else if !c.writer.headerReady then c
  else
    let fin := c.writer.ended && c.writer.pending.isEmpty
    let c := { c with writer.headersOut := true }.emit (.headers fin)
    if fin then { c with writer.finished := true } else c.h2PumpBody env

def h2SettleStream (c : Cell) : Cell :=
  if c.writer.finished && c.writer.handlerDone then c.h2ReleaseStreaming
  else if c.writer.finished && !c.writer.endedEarly then
    { c with writer.endedEarly := true, h2EndedInFlight := c.h2EndedInFlight + 1 }
  else c

def h2PumpSealed (c : Cell) (env : PumpEnv) : Cell := (c.h2PumpFrames env).h2SettleStream

def register (c : Cell) : Cell :=
  if c.writer.registered then c else { c with writer.registered := true, inStreaming := true }

def h2PumpTask (c : Cell) (env : PumpEnv) : Cell :=
  if c.writer.tasks = 0 then c
  else ({ c with writer.tasks := c.writer.tasks - 1 }.register).h2PumpSealed env

inductive WriterOp
  | newWriter
  | writeHeader
  | writeChunk (bytes : Bytes)
  | flush
  | close
  /-- A write's wait for space runs into the stall timeout. -/
  | stallWrite
  | sendFile (bytes : Bytes)
  /-- A file's wait runs into the stall timeout. -/
  | stallFile
  /-- The file range was read ahead, or could not be. -/
  | warmFile (ok : Bool)
  /-- The wait for the file is over. -/
  | fileWaited
  /-- `Response.Reset`, by the handler or by the recovery of its panic. -/
  | resetResponse

/-- A piece of `WriteChunk` that fits the space that is left. -/
def writeChunk (c : Cell) (bytes : Bytes) : Cell :=
  if c.writer.headerReady = false ∨ bytes = [] then c
  else if c.writer.ended || c.writer.err then { c with writer := c.writer.claimPump }
  else if c.writer.pending.length + bytes.length ≤ h2StreamPendingCap then
    { c with
      writer := { c.writer with pending := c.writer.pending ++ bytes }.claimPump }.emit (.wrote bytes)
  else c

def sendFileRange (c : Cell) (bytes : Bytes) : Cell :=
  if c.writer.headerReady = false ∨ bytes = [] ∨ c.writer.err ∨ c.writer.ended then c
  else { c with writer := { c.writer with file := bytes }.claimPump }.emit (.wrote bytes)

/-- A handler acts on its writer. While it waits for a file it does nothing else. -/
def writerOp (c : Cell) (op : WriterOp) : Cell :=
  if !c.inBusy then c
  else
    match op with
    | .newWriter =>
      if c.obj.sw = false ∧ c.obj.lazyReq then { c with obj.sw := true, writer := { made := true } } else c
    | .resetResponse =>
      if c.writer.file = [] then { c with obj.sw := false, obj.lazyReq := false } else c
    | .stallFile =>
      if c.writer.file ≠ [] ∧ c.writer.err = false then
        { c with writer.err := true, writer.sendRST := true, writer.file := [] }
      else c
    | .warmFile ok =>
      if c.writer.file = [] ∨ c.writer.needIO = false then c
      else if ok then { c with writer := { c.writer with needIO := false }.claimPump }
      else if c.writer.err then { c with writer.needIO := false }
      else
        { c with
          writer.needIO := false
          writer.err := true
          writer.sendRST := true
          writer.file := [] }
    | .fileWaited => if c.writer.err then { c with writer.file := [] } else c
    | op =>
      if !c.writer.made || !c.writer.file.isEmpty then c
      else
        match op with
        | .writeHeader =>
          if c.writer.headerReady then c
          else { c with writer := { c.writer with headerReady := true }.claimPump }
        | .writeChunk bytes => c.writeChunk bytes
        | .flush => { c with writer := c.writer.claimPump }
        | .close => { c with writer := { c.writer with ended := true }.claimPump }.emit .final
        | .stallWrite =>
          if c.writer.headerReady ∧ c.writer.ended = false ∧ c.writer.err = false ∧
              h2StreamPendingCap ≤ c.writer.pending.length then
            { c with writer := { c.writer with err := true, sendRST := true }.claimPump }
          else c
        | .sendFile bytes => c.sendFileRange bytes
        | _ => c

def h2UncountAbandoned (c : Cell) : Cell :=
  { c with
    h2EndedInFlight := if c.obj.abandonCounted then c.h2EndedInFlight - 1 else c.h2EndedInFlight
    obj.abandonCounted := false }

def h2UncountEndedEarly (c : Cell) : Cell :=
  { c with
    h2EndedInFlight := if c.writer.endedEarly then c.h2EndedInFlight - 1 else c.h2EndedInFlight
    writer.endedEarly := false }

def h2FinishStreamed (c : Cell) (env : PumpEnv) : Cell :=
  let finished := c.writer.finished
  let c := { c with writer.handlerDone := true, writer.ended := true }.h2UncountEndedEarly.emit .final
  if finished then
    { c with
      inStreaming := if c.writer.registered then false else c.inStreaming
      writer := {}
      obj := {} }
  else ({ c.register with h2Draining := c.h2Draining + 1 }).h2PumpSealed env

def h2DropUnusedWriter (c : Cell) : Cell :=
  { c with
    inStreaming := if c.writer.registered then false else c.inStreaming
    writer := {} }

def finishBuffered (c : Cell) (cfg : ServerConfig) (env : SendEnv) (body : Bytes) (bodyOpen : Bool) : Cell :=
  if c.obj.abandoned then { c with obj := {} }
  else
    let c := { c with
      obj.respBody := body
      obj.respHeadersSent := false
      obj.respOff := 0 }.emitAll [.wrote body, .final]
    let c := c.h2EmitWindowed env
    if c.h2EmitDone then
      let c := { c with obj := {} }
      if bodyOpen then c.emit (.rst .noError) else c
    else { c with inSending := true }.h2SettleParked cfg

/-- The handler of a stream has returned with a response whose body, where it was not streamed, is
`body`. The tasks its writer posted have run before. -/
def finishH2Dispatch (c : Cell) (cfg : ServerConfig) (send : SendEnv) (pump : PumpEnv) (body : Bytes) : Cell :=
  let c := { c with inBusy := false, inFlight := c.inFlight - 1 }.h2UncountAbandoned
  let bodyOpen := c.inBodyIn
  let c := c.h2AbortBodyIn
  if c.obj.sw then
    let c := { c with obj.sw := false }
    let c := if c.obj.abandoned then { c with writer := c.writer.fail } else c
    if c.writer.headerReady then c.h2FinishStreamed pump
    else c.h2DropUnusedWriter.finishBuffered cfg send body bodyOpen
  else c.finishBuffered cfg send body bodyOpen

end Cell
end AlosHttp.H2

import AlosHttp.H2.Receive

/-! Steps and runs of a connection: the frames of the client, the tasks of the worker, and what the
handlers of its streams do, in any order. -/
namespace AlosHttp.H2
open AlosHttp.Core Hpack

inductive H2FrameType
  | data
  | headers
  | priority
  | rstStream
  | settings
  | pushPromise
  | ping
  | goAway
  | windowUpdate
  | continuation
  | unknown
  deriving DecidableEq

structure H2Frame where
  type : H2FrameType
  flags : UInt8
  streamID : ℕ
  payload : Bytes

inductive Event
  | frame (f : H2Frame) (env : FrameEnv)
  /-- A pump task of a stream's writer is taken from the worker's queue. -/
  | pumpTask (id : ℕ) (env : PumpEnv)
  /-- The output was flushed, or a window opened: the streamed and the parked responses go on, in
  the order in which their maps are visited. -/
  | pumpAll (streaming sending : List ℕ) (pump : ℕ → PumpEnv) (send : ℕ → SendEnv)
  | writer (id : ℕ) (op : Cell.WriterOp)
  | readBody (id n : ℕ)
  | closeBody (id : ℕ)
  | bodyAcked (id : ℕ)
  /-- A handler has returned, or a proxied answer is there. -/
  | finish (id : ℕ) (send : SendEnv) (pump : PumpEnv) (body : Bytes)
  | shutdown (idle : Bool)
  /-- The connection is closed after its output for another reason, such as a TLS key limit. -/
  | closeAfter

def settingsOf : Bytes → List (ℕ × ℕ)
  | a :: b :: v₃ :: v₂ :: v₁ :: v₀ :: rest =>
    (a.toNat * 256 + b.toNat,
      v₃.toNat * 2 ^ 24 + v₂.toNat * 2 ^ 16 + v₁.toNat * 2 ^ 8 + v₀.toNat) :: settingsOf rest
  | _ => []

def h2SettingInitialWindowSize : ℕ := 4
def h2SettingMaxFrameSize : ℕ := 5

/-- The loop over the settings. The bound on the response encoder's table is left out. -/
def applySettings : H2State → List (ℕ × ℕ) → Except H2Err H2State × H2State
  | st, [] => (.ok st, st)
  | st, (id, val) :: rest =>
    if id = h2SettingMaxFrameSize then
      if val < 16384 ∨ h2MaxFrameSize < val then (.error .protocol, st)
      else applySettings { st with maxFrameSize := val } rest
    else if id = h2SettingInitialWindowSize then
      if 2147483647 < val then (.error .flowControl, st)
      else applySettings { st with initialWindowSize := val } rest
    else applySettings st rest

def h2ShiftWindow (delta : ℤ) (s : Slot × Bool) : Slot × Bool := ({ s.1 with obj.window := s.1.obj.window + delta },
    s.2 && decide (s.1.obj.window + delta ≤ h2MaxWindowSize))

/-- A slot under a shift, once for each structure that holds its stream. -/
def h2ShiftSlot (delta : ℤ) (s : Slot) : Slot × Bool :=
  let r := (s, true)
  let r := if s.inStreams then h2ShiftWindow delta r else r
  let r := if s.inSending then h2ShiftWindow delta r else r
  let r := if s.inBusy then h2ShiftWindow delta r else r
  if s.inStreaming && s.writer.handlerDone then h2ShiftWindow delta r else r

namespace Conn

def goAwayClose (c : Conn) (code : H2Err) : Conn :=
  { c with st := { c.st with
    connLog := .goAway c.st.lastStreamID code :: c.st.connLog
    closing := true } }

/-- A function of the source over some streams, in the order in which they are visited. -/
def visit (c : Conn) (order : List ℕ) (f : ℕ → Cell → Cell) : Conn := order.foldl (fun c id => c.on id (f id)) c

def h2ResumeSending (c : Conn) (cfg : ServerConfig) (order : List ℕ) (send : ℕ → SendEnv) : Conn :=
  c.visit order fun id cell => cell.h2ResumeSending cfg (send id)

def h2ShiftStreamWindows (c : Conn) (delta : ℤ) : Conn × Bool :=
  ({ c with slot := fun id => (h2ShiftSlot delta (c.slot id)).1 },
    decide (∀ id < c.st.highestStreamID + 1, (h2ShiftSlot delta (c.slot id)).2 = true))

def epollH2Settings (c : Conn) (cfg : ServerConfig) (env : FrameEnv) (payload : Bytes) : Conn :=
  match applySettings c.st (settingsOf payload) with
  | (.error code, st) => { c with st := st }.goAwayClose code
  | (.ok st, _) =>
    let delta : ℤ := (st.initialWindowSize : ℤ) - c.st.initialWindowSize
    let shifted := if delta = 0 then ({ c with st := st }, true) else { c with st := st }.h2ShiftStreamWindows delta
    if shifted.2 = false then shifted.1.goAwayClose .flowControl
    else
      let c := if 0 < delta then shifted.1.h2ResumeSending cfg env.order env.send else shifted.1
      { c with st := { c.st with connLog := .settingsAck :: c.st.connLog } }

def incrementOf : Bytes → ℕ
  | [a, b, c, d] => (a.toNat * 2 ^ 24 + b.toNat * 2 ^ 16 + c.toNat * 2 ^ 8 + d.toNat) % 2 ^ 31
  | _ => 0

def epollH2WindowUpdate (c : Conn) (cfg : ServerConfig) (env : FrameEnv) (id : ℕ) (payload : Bytes) : Conn :=
  if payload.length ≠ 4 then c.goAwayClose .frameSize
  else if id ≠ 0 then c.on id (·.streamWindowUpdate cfg env id (incrementOf payload))
  else if incrementOf payload = 0 then c.goAwayClose .protocol
  else
    let c := { c with st := { c.st with
      connWindow := c.st.connWindow + incrementOf payload
      connLog := .gotCredit (incrementOf payload) :: c.st.connLog } }
    if h2MaxWindowSize < c.st.connWindow then c.goAwayClose .flowControl
    else c.h2ResumeSending cfg env.order env.send

def epollH2Ping (c : Conn) (f : H2Frame) : Conn :=
  if f.streamID ≠ 0 then c.goAwayClose .protocol
  else if f.payload.length ≠ 8 then c.goAwayClose .frameSize
  else if hasFlag f.flags h2FlagAck then c
  else { c with st := { c.st with connLog := .pingAck f.payload :: c.st.connLog } }

def epollH2SettingsFrame (c : Conn) (cfg : ServerConfig) (env : FrameEnv) (f : H2Frame) : Conn :=
  if f.streamID ≠ 0 then c.goAwayClose .protocol
  else if hasFlag f.flags h2FlagAck then if f.payload = [] then c else c.goAwayClose .frameSize
  else if f.payload.length % 6 ≠ 0 then c.goAwayClose .frameSize
  else c.epollH2Settings cfg env f.payload

def epollH2GoAway (c : Conn) (f : H2Frame) : Conn :=
  if f.streamID ≠ 0 then c.goAwayClose .protocol
  else if f.payload.length < h2GoAwayMinPayload then c.goAwayClose .frameSize
  else { c with st := { c.st with peerGoingAway := true, closing := c.st.closing || c.h2Quiescent } }

def countsAsCtrl (f : H2Frame) : Bool :=
  match f.type with
  | .settings | .ping | .priority => true
  | .data => h2DataCarriesNoBody f.flags f.payload
  | _ => false

variable (hpackHashBytes : Bytes → UInt64) (cfg : ServerConfig)

def epollH2Frame (c : Conn) (env : FrameEnv) (f : H2Frame) : Conn :=
  if countsAsCtrl f && env.ctrlTripped then c.goAwayClose .enhanceYourCalm
  else
    match f.type with
    | .settings => c.epollH2SettingsFrame cfg env f
    | .headers => c.on f.streamID
        (·.epollH2Headers hpackHashBytes cfg env f.streamID (c.h2PeerStreamsAtLimit cfg.h2MaxStreams) f.flags
          f.payload)
    | .continuation => c.goAwayClose .protocol
    | .data => c.on f.streamID (·.epollH2Data cfg env f.streamID f.flags f.payload)
    | .windowUpdate => c.epollH2WindowUpdate cfg env f.streamID f.payload
    | .ping => c.epollH2Ping f
    | .rstStream =>
      if f.streamID = 0 ∨ f.payload.length ≠ 4 then c.goAwayClose .protocol
      else c.on f.streamID (·.streamReset env)
    | .goAway => c.epollH2GoAway f
    | .priority => if f.streamID = 0 ∨ f.payload.length ≠ 5 then c.goAwayClose .protocol else c
    | .pushPromise => c.goAwayClose .protocol
    | .unknown => c

/-- A round of `epollProcessH2Frames`. -/
def processFrame (c : Conn) (env : FrameEnv) (f : H2Frame) : Conn :=
  if env.backlogged then c.goAwayClose .enhanceYourCalm
  else if cfg.h2MaxFrameSize < f.payload.length then c.goAwayClose .frameSize
  else if c.st.expectContinuation ≠ 0 then
    if f.type ≠ .continuation ∨ f.streamID ≠ c.st.expectContinuation then c.goAwayClose .protocol
    else c.on f.streamID
      (·.epollH2Continuation hpackHashBytes cfg env f.streamID (c.h2PeerStreamsAtLimit cfg.h2MaxStreams) f.flags
        f.payload)
  else c.epollH2Frame hpackHashBytes cfg env f

def h2PumpAll (c : Conn) (streaming sending : List ℕ) (pump : ℕ → PumpEnv) (send : ℕ → SendEnv) : Conn :=
  if c.len (·.inStreaming) = 0 ∧ c.len (·.inSending) = 0 then
    if c.st.peerGoingAway && c.h2Quiescent then { c with st := { c.st with closing := true } } else c
  else
    let c := c.visit streaming fun id cell => if cell.inStreaming then cell.h2PumpSealed (pump id) else cell
    c.h2ResumeSending cfg sending send

def goAwayForShutdown (c : Conn) (idle : Bool) : Conn :=
  let c :=
    if c.st.h2GoingAway then c
    else { c with st := { c.st with
      h2GoingAway := true
      connLog := .goAway c.st.lastStreamID .noError :: c.st.connLog } }
  { c with st := { c.st with closing := c.st.closing || idle } }

/-- A step of the connection. A handler's end is taken up once its writer's tasks have run, and not
while the handler waits for a file. -/
def step (c : Conn) : Event → Conn
  | .frame f env => c.processFrame hpackHashBytes cfg env f
  | .pumpTask id env => c.on id (·.h2PumpTask env)
  | .pumpAll streaming sending pump send => c.h2PumpAll cfg streaming sending pump send
  | .writer id op => c.on id (·.writerOp op)
  | .readBody id n => c.on id (·.readBody n)
  | .closeBody id => c.on id (·.closeBody)
  | .bodyAcked id => c.on id (·.h2BodyAcked)
  | .finish id send pump body =>
    if (c.slot id).inBusy ∧ (c.slot id).writer.tasks = 0 ∧ (c.slot id).writer.file = [] then
      c.on id (·.finishH2Dispatch cfg send pump body)
    else c
  | .shutdown idle => c.goAwayForShutdown idle
  | .closeAfter => { c with st := { c.st with closing := true } }

def run (c : Conn) (es : List Event) : Conn := es.foldl (step hpackHashBytes cfg) c

end Conn
end AlosHttp.H2

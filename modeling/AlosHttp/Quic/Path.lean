import AlosHttp.Quic.Packet
import Mathlib.Logic.Function.Basic

/-! The path of a connection (`quic_path.go`): where datagrams come from, where they are sent to, and
how many bytes go to an address before it is validated. -/
namespace AlosHttp.Quic
variable {Addr : Type}

structure QuicPathProbe (Addr : Type) where
  addr : Addr
  /-- The data of the last challenges. -/
  challenges : List Bytes := []

def quicMaxPathChallenges : ℕ := 3

/-- PATH_CHALLENGE or PATH_RESPONSE: the type and eight bytes. -/
def pathFrameLen : ℕ := 9

/-- A 1-RTT packet has a sample for header protection, four bytes after its connection id. -/
def quicMinProcessedLen : ℕ := 1 + quicConnIDLen + 4 + 16

/-- A connection's path, with what was sent to and received from each address, the addresses that are
validated, and whether the last datagram is neither counted nor answered off the path. -/
structure PathConn (Addr : Type) where
  pathAddr : Addr
  lastValidAddr : Addr
  addressValidated : Bool := true
  bytesSent : ℕ := 0
  bytesReceived : ℕ := 0
  probing : Bool := false
  probe : QuicPathProbe Addr
  rxFrom : Option Addr := none
  rxLen : ℕ := 0
  dstCIDLen : Fin (quicMaxCIDLen + 1)
  handshakeDone : Bool := false
  closed : Bool := false
  sent : Addr → ℕ := fun _ => 0
  received : Addr → ℕ := fun _ => 0
  validated : Addr → Bool
  unused : Bool := false

/-- What the size of a probe depends on: the packet number, the largest one acknowledged and the bytes
of an acknowledgement that waits. -/
structure ProbeEnv where
  pn : ℕ
  largestAcked : ℤ
  pendingAck : ℕ := 0

def quicPadProbe (frame : ℕ) (budget : ℤ) (dcidLen : ℕ) : ℕ :=
  let target : ℤ :=
    if budget < quicPathProbeDatagram then budget - (1 + dcidLen + quicMaxPNLen + quicAEADTagLen : ℕ)
    else quicPathProbeDatagram - (1 + dcidLen + quicMinPNLen + quicAEADTagLen : ℕ)
  if target > frame then target.toNat else frame

namespace PathConn
variable [DecidableEq Addr]

def start (addr : Addr) (dstCIDLen : Fin (quicMaxCIDLen + 1)) : PathConn Addr :=
  { pathAddr := addr
    lastValidAddr := addr
    probe := { addr }
    dstCIDLen
    validated := Function.update (fun _ => false) addr true }

/-- A datagram of the client. Datagrams with long headers come without their address. -/
def notePacketSource (c : PathConn Addr) (src : Addr) (size : ℕ) (long : Bool) : PathConn Addr :=
  let counted := !c.addressValidated && (long || decide (src = c.pathAddr))
  { c with
    rxFrom := if long then none else some src
    rxLen := size
    bytesReceived := if counted then c.bytesReceived + size else c.bytesReceived
    received := Function.update c.received src (c.received src + size)
    unused := !counted }

def ampBudgetLocked (c : PathConn Addr) : ℕ :=
  if c.addressValidated then quicPathProbeDatagram
  else quicAmplificationFactor * c.bytesReceived - c.bytesSent

/-- A datagram of `size` bytes on the path, of a flight, a probe or anything else. -/
def sendOnPath (c : PathConn Addr) (size : ℕ) : PathConn Addr :=
  if !c.addressValidated && decide (c.bytesSent + size > quicAmplificationFactor * c.bytesReceived) then c
  else
    { c with
      bytesSent := if c.addressValidated then c.bytesSent else c.bytesSent + size
      sent := Function.update c.sent c.pathAddr (c.sent c.pathAddr + size) }

/-- The size of a probe on the path, padded as far as amplification control allows. -/
def probeLen (c : PathConn Addr) (env : ProbeEnv) : ℕ :=
  let frame := quicPadProbe pathFrameLen ((c.ampBudgetLocked : ℤ) - env.pendingAck) c.dstCIDLen
  quicShortPacketLen c.dstCIDLen (env.pendingAck + frame) env.pn env.largestAcked

def answerLen (c : PathConn Addr) (env : ProbeEnv) : ℕ :=
  let frame := quicPadProbe pathFrameLen (quicAmplificationFactor * c.rxLen : ℕ) c.dstCIDLen
  quicShortPacketLen c.dstCIDLen frame env.pn env.largestAcked

def sendPathChallenge (c : PathConn Addr) (data : Bytes) (env : ProbeEnv) : PathConn Addr :=
  if c.probing then
    let c := { c with probe := { c.probe with challenges := (data :: c.probe.challenges).take quicMaxPathChallenges } }
    c.sendOnPath (c.probeLen env)
  else c

def handlePathChallenge (c : PathConn Addr) (env : ProbeEnv) : PathConn Addr :=
  if c.handshakeDone = false ∨ c.rxLen < quicMinProcessedLen then c
  else
    match c.rxFrom with
    | none => c.sendOnPath (c.probeLen env)
    | some addr =>
      if addr = c.pathAddr then c.sendOnPath (c.probeLen env)
      else
        { c with
          sent := Function.update c.sent addr (c.sent addr + c.answerLen env)
          unused := false }

/-- PATH_RESPONSE. It validates the address that the challenge was sent to. -/
def handlePathResponse (c : PathConn Addr) (data : Bytes) : PathConn Addr :=
  if c.probing && c.probe.challenges.contains data then
    { c with
      probing := false
      lastValidAddr := c.probe.addr
      validated := Function.update c.validated c.probe.addr true
      addressValidated := c.addressValidated || decide (c.pathAddr = c.probe.addr) }
  else c

/-- The new connection id, if there is one, and the size of the datagram that retires the old one. -/
def useFreshPeerCID (c : PathConn Addr) (fresh : Option (Fin (quicMaxCIDLen + 1) × ℕ)) : PathConn Addr :=
  match fresh with
  | none => c
  | some (dstCIDLen, size) => { c with dstCIDLen }.sendOnPath size

def startPathProbe (c : PathConn Addr) (addr : Addr) (data : Bytes) (env : ProbeEnv) : PathConn Addr :=
  { c with probe := { addr }, probing := true }.sendPathChallenge data env

def migrateTo (c : PathConn Addr) (addr : Addr) (fresh : Option (Fin (quicMaxCIDLen + 1) × ℕ)) (data : Bytes)
    (env : ProbeEnv) : PathConn Addr :=
  if addr = c.lastValidAddr then { c with pathAddr := addr, addressValidated := true, probing := false }
  else
    let c := { c with
      pathAddr := addr
      addressValidated := false
      bytesSent := 0
      bytesReceived := c.rxLen
      unused := false }
    (c.useFreshPeerCID fresh).startPathProbe addr data env

def newPath (c : PathConn Addr) (nonProbing newest : Bool) : Option Addr :=
  if c.handshakeDone && nonProbing && newest && !c.closed then c.rxFrom.filter (· ≠ c.pathAddr) else none

def observePacketPath (c : PathConn Addr) (nonProbing newest : Bool)
    (fresh : Option (Fin (quicMaxCIDLen + 1) × ℕ)) (data : Bytes) (env : ProbeEnv) : PathConn Addr :=
  match c.newPath nonProbing newest with
  | none => c
  | some addr => c.migrateTo addr fresh data env

def checkPathProbe (c : PathConn Addr) (expired resend : Bool) (data : Bytes) (env : ProbeEnv) : PathConn Addr :=
  if c.probing = false then c
  else if expired then
    if c.pathAddr = c.probe.addr then
      if c.lastValidAddr ≠ c.probe.addr then
        { c with probing := false, pathAddr := c.lastValidAddr, addressValidated := true }
      else { c with probing := false, closed := true }
    else { c with probing := false }
  else if resend then c.sendPathChallenge data env
  else c

end PathConn

inductive PathEvent (Addr : Type)
  | receive (src : Addr) (size : ℕ) (long : Bool)
  | send (size : ℕ)
  | challenge (env : ProbeEnv)
  | response (data : Bytes)
  | observe (nonProbing newest : Bool) (fresh : Option (Fin (quicMaxCIDLen + 1) × ℕ)) (data : Bytes) (env : ProbeEnv)
  | timer (expired resend : Bool) (data : Bytes) (env : ProbeEnv)
  | completeHandshake
  | newDstCID (len : Fin (quicMaxCIDLen + 1))

namespace PathConn
variable [DecidableEq Addr]

def step (c : PathConn Addr) : PathEvent Addr → PathConn Addr
  | .receive src size long => c.notePacketSource src size long
  | .send size => c.sendOnPath size
  | .challenge env => c.handlePathChallenge env
  | .response data => c.handlePathResponse data
  | .observe nonProbing newest fresh data env => c.observePacketPath nonProbing newest fresh data env
  | .timer expired resend data env => c.checkPathProbe expired resend data env
  | .completeHandshake =>
    if c.handshakeDone then c else { c with handshakeDone := true, addressValidated := true }
  | .newDstCID len => { c with dstCIDLen := len }

end PathConn
end AlosHttp.Quic

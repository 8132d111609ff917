import AlosHttp.Quic.Path

/-! Amplification control: how much goes to an address before it is validated. -/
namespace AlosHttp.Quic

theorem quicPadProbe_eq (frame : ℕ) (budget : ℤ) (dcidLen : ℕ) : quicPadProbe frame budget dcidLen =
      max frame (if budget < quicPathProbeDatagram then budget - (1 + dcidLen + quicMaxPNLen + quicAEADTagLen : ℕ)
        else quicPathProbeDatagram - (1 + dcidLen + quicMinPNLen + quicAEADTagLen : ℕ)).toNat := by
  unfold quicPadProbe
  dsimp only
  generalize (if budget < quicPathProbeDatagram then _ else _ : ℤ) = target
  split_ifs <;> omega

theorem quicPadProbe_small {budget : ℕ} (h : budget < quicPathProbeDatagram) (frame dcidLen : ℕ) :
    quicPadProbe frame budget dcidLen = max frame (budget - (21 + dcidLen)) := by
  have hint := Int.ofNat_lt.mpr h
  rw [quicPadProbe_eq, if_pos hint]
  unfold quicMaxPNLen quicAEADTagLen
  omega

theorem quicPadProbe_full {budget : ℕ} (h : quicPathProbeDatagram ≤ budget) (frame dcidLen : ℕ) :
    quicPadProbe frame budget dcidLen = max frame (quicPathProbeDatagram - (18 + dcidLen)) := by
  have hint := Int.not_lt.mpr (Int.ofNat_le.mpr h)
  rw [quicPadProbe_eq, if_neg hint]
  unfold quicMinPNLen quicAEADTagLen
  omega

variable {Addr : Type} [DecidableEq Addr]
namespace PathConn

/-- The bytes of a datagram serve one purpose: they are counted for the path, answer one PATH_CHALLENGE
off the path with at most three times as many, or begin the count of a new path. A datagram without
its address came from the path. -/
def Covered (c : PathConn Addr) : PathEvent Addr → Prop
  | .receive src _ long => long = true → c.addressValidated = true ∨ src = c.pathAddr
  | .challenge env => ∀ addr, c.rxFrom = some addr → addr ≠ c.pathAddr →
    c.unused = true ∧ (c.rxLen = 400 → quicPacketNumberLen env.pn env.largestAcked = 1)
  | .observe nonProbing newest _ _ _ => ∀ addr, c.newPath nonProbing newest = some addr →
    addr = c.lastValidAddr ∨ c.unused = true
  | _ => True

def pending (c : PathConn Addr) (addr : Addr) : ℕ :=
  if c.unused = true ∧ c.rxFrom = some addr then quicAmplificationFactor * c.rxLen else 0

def allowance (c : PathConn Addr) (addr : Addr) : ℕ :=
  if c.addressValidated = false ∧ addr = c.pathAddr then quicAmplificationFactor * c.bytesReceived - c.bytesSent else 0

structure Inv (c : PathConn Addr) : Prop where
  path : c.addressValidated = true → c.validated c.pathAddr = true
  last : c.validated c.lastValidAddr = true
  early : c.handshakeDone = false → c.validated c.pathAddr = true
  within : c.addressValidated = false → c.bytesSent ≤ quicAmplificationFactor * c.bytesReceived
  bound : ∀ addr, c.validated addr = false →
    c.sent addr + c.pending addr + c.allowance addr ≤ quicAmplificationFactor * c.received addr

variable {c : PathConn Addr}

theorem inv_start (addr : Addr) (dstCIDLen : Fin (quicMaxCIDLen + 1)) : (start addr dstCIDLen).Inv := by
  have hvalid : (start addr dstCIDLen).validated addr = true := by simp [start]
  exact ⟨fun _ => hvalid, hvalid, fun _ => hvalid, nofun, fun _ _ => le_refl _⟩

open Function

theorem Inv.count (h : c.Inv) (hvalid : c.addressValidated = false) (size : ℕ) (rxFrom : Option Addr) : Inv { c with
      rxFrom, rxLen := size, bytesReceived := c.bytesReceived + size
      received := update c.received c.pathAddr (c.received c.pathAddr + size), unused := false } := by
  have hwithin := h.within hvalid
  refine { h with within := fun _ => ?_, bound := fun addr haddr => ?_ }
  · rw [mul_add]
    exact hwithin.trans (Nat.le_add_right _ _)
  have hold := h.bound addr haddr
  by_cases ha : addr = c.pathAddr
  · subst ha
    simp [pending, allowance, hvalid, quicAmplificationFactor] at hold ⊢
    omega
  simp [pending, allowance, hvalid, ha, quicAmplificationFactor] at hold ⊢
  omega

theorem Inv.note (h : c.Inv) (src : Addr) (size : ℕ) {rxFrom : Option Addr}
    (hfrom : ∀ addr, rxFrom = some addr → addr = src) :
    Inv { c with
      rxFrom, rxLen := size, received := update c.received src (c.received src + size), unused := true } := by
  refine { h with bound := fun addr haddr => ?_ }
  have hold := h.bound addr haddr
  unfold pending allowance at hold ⊢
  dsimp only
  by_cases ha : addr = src
  · have hpending : (if true = true ∧ rxFrom = some addr then quicAmplificationFactor * size else 0) ≤
        quicAmplificationFactor * size := by
      split_ifs
      · exact Nat.le_refl _
      · exact Nat.zero_le _
    rw [ha, update_self, Nat.mul_add, ← ha]
    omega
  have hnone : rxFrom ≠ some addr := fun hf => ha (hfrom addr hf)
  rw [update_of_ne ha, if_neg (fun hp => hnone hp.2)]
  omega

theorem Inv.receive (h : c.Inv) {src : Addr} {size : ℕ} {long : Bool} (hc : c.Covered (.receive src size long)) :
    (c.notePacketSource src size long).Inv := by
  unfold notePacketSource
  cases hcounted : !c.addressValidated && (long || decide (src = c.pathAddr)) with
  | true =>
    obtain ⟨hvalid, hsrc⟩ := Bool.and_eq_true_iff.mp hcounted
    rw [Bool.not_eq_true'] at hvalid
    have hpath : src = c.pathAddr := by
      obtain hlong | hsrc := Bool.or_eq_true_iff.mp hsrc
      · obtain hv | hsrc := hc hlong
        · exact absurd (hvalid.symm.trans hv) Bool.false_ne_true
        · exact hsrc
      · exact of_decide_eq_true hsrc
    rw [hpath]
    exact h.count hvalid size _
  | false =>
    refine h.note src size fun addr hfrom => ?_
    cases long with
    | true => exact absurd hfrom nofun
    | false => exact (Option.some.inj hfrom).symm

theorem sent_of_ne {addr other : Addr} (h : other ≠ addr) (n : ℕ) :
    update c.sent addr (c.sent addr + n) other = c.sent other := update_of_ne h ..

theorem sendOnPath_cases (c : PathConn Addr) (size : ℕ) : c.sendOnPath size = c ∨ (c.addressValidated = true ∧
        c.sendOnPath size = { c with sent := update c.sent c.pathAddr (c.sent c.pathAddr + size) }) ∨
      (c.addressValidated = false ∧ c.bytesSent + size ≤ quicAmplificationFactor * c.bytesReceived ∧
        c.sendOnPath size = { c with
          bytesSent := c.bytesSent + size, sent := update c.sent c.pathAddr (c.sent c.pathAddr + size) }) := by
  unfold PathConn.sendOnPath
  by_cases hblocked : (!c.addressValidated &&
    decide (c.bytesSent + size > quicAmplificationFactor * c.bytesReceived)) = true
  · rw [if_pos hblocked]
    exact .inl rfl
  rw [if_neg hblocked]
  cases hvalid : c.addressValidated with
  | true => exact .inr (.inl ⟨rfl, by rw [if_pos rfl, ← hvalid]⟩)
  | false =>
    rw [hvalid] at hblocked
    exact .inr (.inr ⟨rfl, by simpa using hblocked, by rw [if_neg Bool.false_ne_true, ← hvalid]⟩)

theorem Inv.sendOnPath (h : c.Inv) (size : ℕ) : (c.sendOnPath size).Inv := by
  obtain heq | ⟨hvalid, heq⟩ | ⟨hvalid, hroom, heq⟩ := sendOnPath_cases c size
  · rw [heq]
    exact h
  · rw [heq]
    refine { h with bound := fun addr haddr => ?_ }
    -- The path is validated, so the address is another one.
    have hne : addr ≠ c.pathAddr := by
      rintro rfl
      exact Bool.false_ne_true (haddr.symm.trans (h.path hvalid))
    have hold := h.bound addr haddr
    dsimp only
    rw [sent_of_ne hne]
    exact hold
  rw [heq]
  refine { h with within := fun _ => hroom, bound := fun addr haddr => ?_ }
  have hold := h.bound addr haddr
  by_cases ha : addr = c.pathAddr
  · subst ha
    simp [pending, allowance, hvalid] at hold ⊢
    omega
  simp [pending, allowance, ha] at hold ⊢
  omega

theorem Inv.sendPathChallenge (h : c.Inv) (data : Bytes) (env : ProbeEnv) : (c.sendPathChallenge data env).Inv := by
  unfold PathConn.sendPathChallenge
  split_ifs
  · have hprobe : Inv { c with
        probe := { c.probe with challenges := (data :: c.probe.challenges).take quicMaxPathChallenges } } := { h with }
    exact hprobe.sendOnPath _
  · exact h

omit [DecidableEq Addr] in
theorem answerLen_le {env : ProbeEnv} (hlen : quicMinProcessedLen ≤ c.rxLen)
    (hpn : c.rxLen = 400 → quicPacketNumberLen env.pn env.largestAcked = 1) :
    c.answerLen env ≤ quicAmplificationFactor * c.rxLen := by
  obtain ⟨-, _⟩ := quicPacketNumberLen_bounds env.pn env.largestAcked
  unfold answerLen quicShortPacketLen protectedLen
  dsimp only
  obtain hlt | hge := Nat.lt_or_ge (quicAmplificationFactor * c.rxLen) quicPathProbeDatagram
  · rw [quicPadProbe_small hlt]
    unfold quicMinProcessedLen quicConnIDLen quicMaxCIDLen quicMaxPNLen quicAmplificationFactor quicAEADTagLen
      quicHPMinPNAndPayload pathFrameLen at *
    omega
  rw [quicPadProbe_full hge]
  unfold quicMaxCIDLen quicMaxPNLen quicAmplificationFactor quicPathProbeDatagram quicMinInitialDatagram
    quicAEADTagLen quicHPMinPNAndPayload pathFrameLen at *
  omega

section
variable (h : c.Inv)
include h

theorem Inv.challenge {env : ProbeEnv} (hc : c.Covered (.challenge env)) : (c.handlePathChallenge env).Inv := by
  unfold handlePathChallenge
  split_ifs with hearly
  · exact h
  rcases hfrom : c.rxFrom with _ | addr
  · exact h.sendOnPath _
  by_cases hpath : addr = c.pathAddr
  · simp only [if_pos hpath]
    exact h.sendOnPath _
  simp only [if_neg hpath]
  obtain ⟨hunused, hpn⟩ := hc addr hfrom hpath
  have hanswer := answerLen_le (Nat.le_of_not_lt fun hlen => hearly (.inr hlen)) hpn
  refine { h with bound := fun other hother => ?_ }
  have hold := h.bound other hother
  by_cases ha : other = addr
  · subst ha
    simp [pending, allowance, hunused, hfrom] at hold ⊢
    omega
  simp [pending, allowance, ha] at hold ⊢
  omega

open Function

theorem Inv.response (data : Bytes) : (c.handlePathResponse data).Inv := by
  unfold handlePathResponse
  split_ifs
  · -- An address stays validated.
    have hmono {addr : Addr} (hv : c.validated addr = true) : update c.validated c.probe.addr true addr = true := by
      by_cases ha : addr = c.probe.addr
      · rw [ha, update_self]
      · rw [update_of_ne ha, hv]
    refine ⟨fun hv => ?_, update_self .., fun he => hmono (h.early he), fun hv => ?_, fun addr haddr => ?_⟩
    · obtain hv | hv := Bool.or_eq_true_iff.mp hv
      · exact hmono (h.path hv)
      dsimp only
      rw [of_decide_eq_true hv, update_self]
    · exact h.within (Bool.or_eq_false_iff.mp hv).1
    have hold' : c.validated addr = false := by
      by_contra hv
      rw [Bool.not_eq_false] at hv
      exact Bool.false_ne_true (haddr.symm.trans (hmono hv))
    have hold := h.bound addr hold'
    have hallow : (if (c.addressValidated || decide (c.pathAddr = c.probe.addr)) = false ∧ addr = c.pathAddr then
        quicAmplificationFactor * c.bytesReceived - c.bytesSent else 0) ≤ c.allowance addr := by
      unfold allowance
      split_ifs with hnew hsame
      · exact Nat.le_refl _
      · exact absurd ⟨(Bool.or_eq_false_iff.mp hnew.1).1, hnew.2⟩ hsame
      · exact Nat.zero_le _
      · exact Nat.le_refl _
    exact (Nat.add_le_add_left hallow _).trans hold
  · exact h

theorem Inv.useFreshPeerCID (fresh : Option (Fin (quicMaxCIDLen + 1) × ℕ)) : (c.useFreshPeerCID fresh).Inv := by
  rcases fresh with _ | p
  · exact h
  have hcid : Inv { c with dstCIDLen := p.1 } := { h with }
  exact hcid.sendOnPath p.2

theorem Inv.toValidated {addr : Addr} (hv : c.validated addr = true) (closed : Bool) :
    Inv { c with pathAddr := addr, addressValidated := true, probing := false, closed } := by
  refine { h with path := fun _ => hv, early := fun _ => hv, within := nofun, bound := fun other hother => ?_ }
  have hold := h.bound other hother
  have hallow : (if true = false ∧ other = addr then
      quicAmplificationFactor * c.bytesReceived - c.bytesSent else 0) = 0 :=
    if_neg fun ha => Bool.false_ne_true ha.1.symm
  refine (Nat.add_le_add_left hallow.le _).trans ?_
  change c.sent other + c.pending other + 0 ≤ quicAmplificationFactor * c.received other
  omega

theorem Inv.toNew {addr : Addr} (hfrom : c.rxFrom = some addr) (hunused : c.unused = true)
    (hdone : c.handshakeDone = true) :
    Inv { c with
      pathAddr := addr, addressValidated := false, bytesSent := 0, bytesReceived := c.rxLen, unused := false } := by
  refine { h with
    path := nofun
    early := fun hd => absurd (hd.symm.trans hdone) Bool.false_ne_true
    within := fun _ => Nat.zero_le _
    bound := fun other hother => ?_ }
  have hold := h.bound other hother
  by_cases ha : other = addr
  · subst ha
    simp [pending, allowance, hunused, hfrom] at hold ⊢
    omega
  simp [pending, allowance, ha] at hold ⊢
  omega

end

theorem newPath_some {nonProbing newest : Bool} {addr : Addr} (h : c.newPath nonProbing newest = some addr) :
    c.handshakeDone = true ∧ c.rxFrom = some addr := by
  unfold newPath at h
  split_ifs at h with hopen
  obtain ⟨hfrom, -⟩ := Option.filter_eq_some_iff.mp h
  simp only [Bool.and_eq_true] at hopen
  exact ⟨hopen.1.1.1, hfrom⟩

theorem Inv.observe (h : c.Inv) {nonProbing newest : Bool} {fresh : Option (Fin (quicMaxCIDLen + 1) × ℕ)}
    {data : Bytes} {env : ProbeEnv} (hc : c.Covered (.observe nonProbing newest fresh data env)) :
    (c.observePacketPath nonProbing newest fresh data env).Inv := by
  unfold observePacketPath
  rcases hnew : c.newPath nonProbing newest with _ | addr
  · exact h
  obtain ⟨hdone, hfrom⟩ := newPath_some hnew
  change (c.migrateTo addr fresh data env).Inv
  unfold migrateTo
  split_ifs with hlast
  · refine h.toValidated ?_ c.closed
    rw [hlast]
    exact h.last
  obtain hlast' | hunused := hc addr hnew
  · exact absurd hlast' hlast
  have hcid := (h.toNew hfrom hunused hdone).useFreshPeerCID fresh
  refine Inv.sendPathChallenge ?_ data env
  exact { hcid with }

theorem Inv.timer (h : c.Inv) (expired resend : Bool) (data : Bytes) (env : ProbeEnv) :
    (c.checkPathProbe expired resend data env).Inv := by
  unfold checkPathProbe
  split_ifs
  · exact h
  · exact h.toValidated h.last c.closed
  · exact { h with }
  · exact { h with }
  · exact h.sendPathChallenge data env
  · exact h

theorem Inv.completeHandshake (h : c.Inv) : (c.step .completeHandshake).Inv := by
  unfold PathConn.step
  split_ifs with hdone
  · exact h
  have hpath := h.early (Bool.not_eq_true _ ▸ hdone)
  have hv := h.toValidated hpath c.closed
  exact { h with path := fun _ => hpath, early := fun _ => hpath, within := nofun, bound := hv.bound }

theorem Inv.step (h : c.Inv) {e : PathEvent Addr} (hc : c.Covered e) : (c.step e).Inv := by
  cases e with
  | receive src size long => exact h.receive hc
  | send size => exact h.sendOnPath size
  | challenge env => exact h.challenge hc
  | response data => exact h.response data
  | observe nonProbing newest fresh data env => exact h.observe hc
  | timer expired resend data env => exact h.timer expired resend data env
  | completeHandshake => exact h.completeHandshake
  | newDstCID len => exact { h with }

end PathConn

/-! ### All connections, and datagrams of none -/

/-- What a server answers to an Initial packet for which it makes no connection. -/
inductive InitialReply
  | retry
  | close
  deriving DecidableEq

def quicTokenPrefixLen : ℕ := 2 + 12
def quicTokenIssuedLen : ℕ := 8
def quicMinShortPacketLen : ℕ := 21
def quicStatelessResetMaxLen : ℕ := 64

/-- The size of what `quicBuildRetryPacket` builds, with a token for the client's connection id and
the server's new one. -/
def quicRetryPacketLen (dcidLen scidLen : ℕ) : ℕ := 1 + 4 + 1 + scidLen + 1 + quicConnIDLen +
    (quicTokenPrefixLen + (quicTokenIssuedLen + 1 + dcidLen + 1 + quicConnIDLen) + quicAEADTagLen) + 16

def quicInitialCloseLen (dcidLen scidLen : ℕ) : ℕ := quicInitialPacketLen scidLen dcidLen 4 0 (-1)

def InitialReply.len (dcidLen scidLen : ℕ) : InitialReply → ℕ
  | .retry => quicRetryPacketLen dcidLen scidLen
  | .close => quicInitialCloseLen dcidLen scidLen

/-- The connections of a server, and what it sent and received without one. -/
structure QuicServer (Addr : Type) where
  conns : List (PathConn Addr) := []
  sent : Addr → ℕ := fun _ => 0
  received : Addr → ℕ := fun _ => 0

inductive QuicServerEvent (Addr : Type)
  | conn (i : ℕ) (e : PathEvent Addr)
  /-- An Initial packet with a valid token of its address. -/
  | accept (src : Addr) (size : ℕ) (dstCIDLen : Fin (quicMaxCIDLen + 1))
  | initial (src : Addr) (size : ℕ) (dcidLen scidLen : Fin (quicMaxCIDLen + 1)) (reply : InitialReply)
  /-- A 1-RTT packet of no connection. -/
  | short (src : Addr) (size : ℕ) (allowed : Bool)

namespace QuicServer
open List

def exchange (s : QuicServer Addr) (src : Addr) (size reply : ℕ) : QuicServer Addr :=
  { s with
    received := Function.update s.received src (s.received src + size)
    sent := Function.update s.sent src (s.sent src + reply) }

def step (s : QuicServer Addr) : QuicServerEvent Addr → QuicServer Addr
  | .conn i e => { s with conns := s.conns.modify i fun c => c.step e }
  | .accept src size dstCIDLen =>
    if size < quicMinInitialDatagram then s.exchange src size 0
    else { s with conns := s.conns ++ [(PathConn.start src dstCIDLen).notePacketSource src size true] }
  | .initial src size dcidLen scidLen reply =>
    s.exchange src size (if size < quicMinInitialDatagram then 0 else reply.len dcidLen scidLen)
  | .short src size allowed =>
    s.exchange src size
      (if size ≤ quicMinShortPacketLen ∨ allowed = false then 0 else min (size - 1) quicStatelessResetMaxLen)

def run (s : QuicServer Addr) (es : List (QuicServerEvent Addr)) : QuicServer Addr := es.foldl step s

def totalSent (s : QuicServer Addr) (addr : Addr) : ℕ := s.sent addr + (s.conns.map fun c => c.sent addr).sum

def totalReceived (s : QuicServer Addr) (addr : Addr) : ℕ :=
  s.received addr + (s.conns.map fun c => c.received addr).sum

def Covered (s : QuicServer Addr) : QuicServerEvent Addr → Prop
  | .conn i e => ∀ c, s.conns[i]? = some c → c.Covered e
  | _ => True

def AllCovered : QuicServer Addr → List (QuicServerEvent Addr) → Prop
  | _, [] => True
  | s, e :: es => s.Covered e ∧ AllCovered (s.step e) es

structure Inv (s : QuicServer Addr) : Prop where
  conns : ∀ (i : ℕ) (c : PathConn Addr), s.conns[i]? = some c → c.Inv
  bound : ∀ addr, s.sent addr ≤ quicAmplificationFactor * s.received addr

variable {s : QuicServer Addr}

theorem Inv.exchange (h : s.Inv) {src : Addr} {size reply : ℕ} (hr : reply ≤ quicAmplificationFactor * size) :
    (s.exchange src size reply).Inv := by
  refine { h with bound := fun addr => ?_ }
  have hold := h.bound addr
  unfold QuicServer.exchange
  by_cases ha : addr = src
  · subst ha
    simp only [Function.update_self, mul_add]
    omega
  simp only [Function.update_of_ne ha]
  exact hold

theorem InitialReply.len_le (dcidLen scidLen : Fin (quicMaxCIDLen + 1)) (reply : InitialReply) :
    reply.len dcidLen scidLen ≤ quicMinInitialDatagram := by
  have hd := Nat.le_of_lt_succ dcidLen.isLt
  have hs := Nat.le_of_lt_succ scidLen.isLt
  unfold quicMaxCIDLen at hd hs
  cases reply with
  | retry =>
    unfold InitialReply.len quicRetryPacketLen quicConnIDLen quicTokenPrefixLen quicTokenIssuedLen quicAEADTagLen
      quicMinInitialDatagram
    dsimp only
    omega
  | close =>
    have hlen : protectedLen 4 0 (-1) = 21 := by decide
    have hvarint : (quicAppendVarint 21).length = 1 ∧ (quicAppendVarint 0).length = 1 := by decide
    unfold InitialReply.len quicInitialCloseLen quicInitialPacketLen quicMinInitialDatagram
    dsimp only
    rw [hlen, hvarint.1, hvarint.2]
    omega

theorem Inv.step (h : s.Inv) {e : QuicServerEvent Addr} (hc : s.Covered e) : (s.step e).Inv := by
  cases e with
  | conn i e =>
    refine { h with conns := fun j c hj => ?_ }
    unfold QuicServer.step at hj
    rw [getElem?_modify] at hj
    obtain ⟨old, hold, rfl⟩ := Option.map_eq_some_iff.mp hj
    split_ifs with hij
    · subst hij
      exact (h.conns i old hold).step (hc old hold)
    · exact h.conns j old hold
  | accept src size dstCIDLen =>
    rw [QuicServer.step]
    split_ifs with hsmall
    · exact h.exchange (Nat.zero_le _)
    refine { h with conns := fun j c hj => ?_ }
    obtain hmem | hmem := mem_append.mp (mem_of_getElem? hj)
    · obtain ⟨i, hi⟩ := mem_iff_getElem?.mp hmem
      exact h.conns i c hi
    rw [mem_singleton.mp hmem]
    exact (PathConn.inv_start src dstCIDLen).receive fun _ => .inl rfl
  | initial src size dcidLen scidLen reply =>
    apply h.exchange
    have hlen := InitialReply.len_le dcidLen scidLen reply
    split_ifs with hsmall
    · exact Nat.zero_le _
    unfold quicAmplificationFactor
    omega
  | short src size allowed =>
    apply h.exchange
    unfold quicAmplificationFactor
    split_ifs
    · exact Nat.zero_le _
    · omega

theorem Inv.run {es : List (QuicServerEvent Addr)} (h : s.Inv) (hes : s.AllCovered es) : (s.run es).Inv := by
  induction es generalizing s with
  | nil => exact h
  | cons e es ih => exact ih (h.step hes.1) hes.2

/-- To an address that no connection has validated, a server sends at most three times what it has
received from it, if the bytes of each datagram serve one purpose. -/
theorem amplification_limited (es : List (QuicServerEvent Addr)) (hes : AllCovered {} es) (addr : Addr)
    (haddr : ∀ c ∈ (run {} es).conns, c.validated addr = false) :
    (run {} es).totalSent addr ≤ quicAmplificationFactor * (run {} es).totalReceived addr := by
  have hstart : Inv ({} : QuicServer Addr) := ⟨nofun, fun _ => Nat.zero_le _⟩
  have h := hstart.run hes
  generalize run {} es = s at h haddr ⊢
  have hconns : (s.conns.map fun c => c.sent addr).sum ≤
      (s.conns.map fun c => quicAmplificationFactor * c.received addr).sum := by
    apply List.sum_le_sum
    intro c hc
    obtain ⟨i, hi⟩ := mem_iff_getElem?.mp hc
    have hbound := (h.conns i c hi).bound addr (haddr c hc)
    omega
  rw [sum_map_mul_left] at hconns
  have hnone := h.bound addr
  unfold totalSent totalReceived
  rw [Nat.mul_add]
  omega

def probed (challenges : ℕ) : List (QuicServerEvent ℕ) :=
  [.accept 0 1200 8, .conn 0 .completeHandshake, .conn 0 (.receive 1 500 false)] ++
    replicate challenges (.conn 0 (.challenge { pn := 0, largestAcked := -1 }))

theorem amplification_limited_probed : AllCovered {} (probed 1) ∧
    (run {} (probed 1)).totalSent 1 ≤ quicAmplificationFactor * (run {} (probed 1)).totalReceived 1 := by
  have hes : AllCovered {} (probed 1) := by
    refine ⟨trivial, fun c _ => trivial, fun c _ => nofun, fun c hc => ?_, trivial⟩
    obtain rfl := Option.some.inj hc
    exact fun addr _ _ => ⟨rfl, fun h => absurd h (by decide)⟩
  refine ⟨hes, amplification_limited (probed 1) hes 1 fun c hc => ?_⟩
  rw [mem_singleton.mp hc]
  rfl

theorem two_challenges_amplified :
    quicAmplificationFactor * (run {} (probed 2)).totalReceived 1 < (run {} (probed 2)).totalSent 1 ∧
      ∀ c ∈ (run {} (probed 2)).conns, c.validated 1 = false := by
  decide

end QuicServer
end AlosHttp.Quic

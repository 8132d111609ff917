import Mathlib.Tactic

/-! Key updates of 1-RTT packets. A key is the number of its generation, and a packet opens under
the generation it was sealed with and no other. -/
namespace AlosHttp.Quic
open List

def quicKeyUpdateThreshold : ℕ := 2 ^ 20

structure SealedPacket where
  pn : ℕ
  gen : ℕ
  keyPhase : Bool

structure OpenedPacket where
  pn : ℕ
  keyPhase : Bool
  gen : ℕ
  recvGen : ℕ
  keyUpdatePN : ℕ

/-- The keys of the application space. `sendSecret` and `recvSecret` are the generations the next
ones are derived from; the last four fields record the run: packets sent and opened, generations
acknowledged, and for each update started whether one of its packets was acknowledged. -/
structure KeyState where
  keys : ℕ := 0
  sendKeys : ℕ := 0
  sendSecret : ℕ := 0
  recvSecret : ℕ := 1
  nextRecvKeys : ℕ := 1
  prevRecvKeys : Option ℕ := none
  sendKeyPhase : Bool := false
  recvKeyPhase : Bool := false
  keyUpdatePN : ℕ := 0
  packetsInEpoch : ℕ := 0
  sendPN : ℕ := 0
  sent : List SealedPacket := []
  opened : List OpenedPacket := []
  ackedGens : List ℕ := []
  started : List Bool := []

/-- A packet of the peer, and whether the previous keys are past their time when it comes. -/
structure PeerPacket where
  pn : ℕ
  keyPhase : Bool
  gen : ℕ
  acks : List ℕ
  prevExpired : Bool

inductive KeyEvent
  | send
  | receive (p : PeerPacket)

namespace KeyState

def rotateSendKeysLocked (s : KeyState) : KeyState :=
  { s with
    sendSecret := s.sendSecret + 1
    sendKeys := s.sendSecret + 1
    sendKeyPhase := !s.sendKeyPhase
    packetsInEpoch := 0 }

def initiateKeyUpdate (s : KeyState) : KeyState :=
  { s.rotateSendKeysLocked with started := s.started ++ [decide (s.sendKeys ∈ s.ackedGens)] }

/-- The part of `sendFramesToLocked` that deals with the keys. -/
def sendFramesToLocked (s : KeyState) : KeyState :=
  let s := { s with
    sent := s.sent ++ [⟨s.sendPN, s.sendKeys, s.sendKeyPhase⟩]
    sendPN := s.sendPN + 1
    packetsInEpoch := s.packetsInEpoch + 1 }
  if s.packetsInEpoch ≥ quicKeyUpdateThreshold then s.initiateKeyUpdate else s

/-- The keys for a packet, if there are any, and whether they are the next ones. -/
def selectRecvKeys (s : KeyState) (phase : Bool) (pn : ℕ) (prevExpired : Bool) : Option ℕ × Bool :=
  if phase = s.recvKeyPhase then (some s.keys, false)
  else if pn < s.keyUpdatePN then (if prevExpired then none else s.prevRecvKeys, false)
  else (some s.nextRecvKeys, true)

def deriveNextRecvKeys (s : KeyState) : KeyState :=
  { s with recvSecret := s.recvSecret + 1, nextRecvKeys := s.recvSecret + 1 }

def respondToPeerKeyUpdate (s : KeyState) (peerPhase : Bool) : KeyState :=
  if s.sendKeyPhase = peerPhase then s else s.rotateSendKeysLocked

def commitPeerKeyUpdate (s : KeyState) (phase : Bool) (pn : ℕ) : KeyState :=
  let s := { s with
    prevRecvKeys := some s.keys
    keys := s.nextRecvKeys
    recvKeyPhase := phase
    keyUpdatePN := pn }
  s.deriveNextRecvKeys.respondToPeerKeyUpdate phase

/-- The packets that an ACK frame names among those that were sent. -/
def processAcks (s : KeyState) (acks : List ℕ) : KeyState :=
  { s with ackedGens := s.ackedGens ++ (s.sent.filter fun p => p.pn ∈ acks).map (·.gen) }

def handleShortHeaderPacket (s : KeyState) (p : PeerPacket) : KeyState :=
  match s.selectRecvKeys p.keyPhase p.pn p.prevExpired with
  | (none, _) => s
  | (some gen, keyUpdate) =>
    if gen ≠ p.gen then s
    else
      let opened : OpenedPacket := ⟨p.pn, p.keyPhase, gen, s.keys, s.keyUpdatePN⟩
      -- the time of the keys that an update puts behind is still ahead
      let s := if keyUpdate then s.commitPeerKeyUpdate p.keyPhase p.pn
        else if p.prevExpired then { s with prevRecvKeys := none } else s
      { s with opened := s.opened ++ [opened] }.processAcks p.acks

def step (s : KeyState) : KeyEvent → KeyState
  | .send => s.sendFramesToLocked
  | .receive p => s.handleShortHeaderPacket p

def run (es : List KeyEvent) : KeyState := es.foldl step {}

/-- The packet that starts an update is sent after one of its generation was acknowledged, and when
the peer has taken up the last update. -/
def Confirmed (s : KeyState) : KeyEvent → Prop
  | .send => s.packetsInEpoch + 1 ≥ quicKeyUpdateThreshold → s.sendKeys ∈ s.ackedGens ∧ s.sendKeys = s.keys
  | .receive _ => True

def AllConfirmed : KeyState → List KeyEvent → Prop
  | _, [] => True
  | s, e :: es => s.Confirmed e ∧ AllConfirmed (s.step e) es

end KeyState

def phaseOf (gen : ℕ) : Bool := gen % 2 = 1

@[simp] theorem phaseOf_succ (gen : ℕ) : phaseOf (gen + 1) = !phaseOf gen := by
  unfold phaseOf
  rw [← decide_not]
  congr 1
  apply propext
  omega

/-- The generation that a key phase and a packet number select: the current one, or by the packet
number the one before or behind it. -/
def OpenedPacket.selected (p : OpenedPacket) : ℕ :=
  if p.keyPhase = phaseOf p.recvGen then p.recvGen
  else if p.pn < p.keyUpdatePN then p.recvGen - 1
  else p.recvGen + 1

namespace KeyState

structure Inv (s : KeyState) : Prop where
  sendSecret : s.sendSecret = s.sendKeys
  sendPhase : s.sendKeyPhase = phaseOf s.sendKeys
  recvPhase : s.recvKeyPhase = phaseOf s.keys
  recvSecret : s.recvSecret = s.keys + 1
  next : s.nextRecvKeys = s.keys + 1
  prev : ∀ gen, s.prevRecvKeys = some gen → gen + 1 = s.keys
  sent : ∀ p ∈ s.sent, p.keyPhase = phaseOf p.gen
  opened : ∀ p ∈ s.opened, p.gen = p.selected

structure InStep (s : KeyState) : Prop where
  lead : s.keys ≤ s.sendKeys ∧ s.sendKeys ≤ s.keys + 1
  started : ∀ acked ∈ s.started, acked = true

variable {s : KeyState}

section
variable (h : s.Inv)
include h

theorem Inv.rotate : s.rotateSendKeysLocked.Inv :=
  { h with
    sendSecret := rfl
    sendPhase := by
      change (!s.sendKeyPhase) = phaseOf (s.sendSecret + 1)
      rw [phaseOf_succ, h.sendSecret, h.sendPhase] }

theorem Inv.send : s.sendFramesToLocked.Inv := by
  have hsent : Inv { s with
      sent := s.sent ++ [⟨s.sendPN, s.sendKeys, s.sendKeyPhase⟩]
      sendPN := s.sendPN + 1
      packetsInEpoch := s.packetsInEpoch + 1 } := { h with
    sent := forall_mem_append.mpr ⟨h.sent, forall_mem_singleton.mpr h.sendPhase⟩ }
  unfold sendFramesToLocked
  dsimp only
  split_ifs
  · exact { hsent.rotate with }
  · exact hsent

theorem Inv.commit {phase : Bool} (hphase : phase ≠ s.recvKeyPhase) (pn : ℕ) :
    (s.commitPeerKeyUpdate phase pn).Inv := by
  have hderived : Inv { s with
      prevRecvKeys := some s.keys
      keys := s.nextRecvKeys
      recvKeyPhase := phase
      keyUpdatePN := pn
      recvSecret := s.recvSecret + 1
      nextRecvKeys := s.recvSecret + 1 } := { h with
    recvPhase := by
      rw [h.next, phaseOf_succ, ← h.recvPhase]
      exact Bool.eq_not.mpr hphase
    recvSecret := by
      rw [h.recvSecret, h.next]
    next := by
      rw [h.recvSecret, h.next]
    prev := by
      rintro _ ⟨⟩
      exact h.next.symm }
  unfold commitPeerKeyUpdate deriveNextRecvKeys respondToPeerKeyUpdate
  dsimp only
  split_ifs
  · exact hderived
  · exact hderived.rotate

theorem Inv.select {phase : Bool} {pn : ℕ} {prevExpired : Bool} {gen : ℕ} {keyUpdate : Bool}
    (hsel : s.selectRecvKeys phase pn prevExpired = (some gen, keyUpdate)) :
    gen = OpenedPacket.selected ⟨pn, phase, gen, s.keys, s.keyUpdatePN⟩ ∧
      (keyUpdate = true → phase ≠ s.recvKeyPhase) := by
  unfold selectRecvKeys at hsel
  unfold OpenedPacket.selected
  dsimp only
  rw [← h.recvPhase]
  split_ifs at hsel ⊢ with hphase hpn hexpired
  · cases hsel
    exact ⟨rfl, nofun⟩
  · cases hsel
  · obtain ⟨hprev, rfl⟩ := Prod.mk.inj hsel
    have := h.prev gen hprev
    exact ⟨by omega, nofun⟩
  obtain ⟨hnext, -⟩ := Prod.mk.inj hsel
  exact ⟨(Option.some.inj hnext).symm.trans h.next, fun _ => hphase⟩

theorem Inv.handleShortHeaderPacket_cases (p : PeerPacket) : s.handleShortHeaderPacket p = s ∨
      ∃ t prev o acked, (t = s ∨ p.keyPhase ≠ s.recvKeyPhase ∧ t = s.commitPeerKeyUpdate p.keyPhase p.pn) ∧
        (prev = t.prevRecvKeys ∨ prev = none) ∧ o.gen = o.selected ∧
        s.handleShortHeaderPacket p =
          { t with prevRecvKeys := prev, opened := t.opened ++ [o], ackedGens := acked } := by
  unfold handleShortHeaderPacket
  split
  case h_1 => exact .inl rfl
  case h_2 gen keyUpdate hsel =>
    obtain ⟨hgen, hphase⟩ := h.select hsel
    by_cases hfail : gen ≠ p.gen
    · exact .inl (if_pos hfail)
    rw [if_neg hfail]
    cases keyUpdate with
    | true =>
      exact .inr ⟨_, _, ⟨p.pn, p.keyPhase, gen, s.keys, s.keyUpdatePN⟩, _, .inr ⟨hphase rfl, rfl⟩, .inl rfl, hgen, rfl⟩
    | false =>
      cases p.prevExpired with
      | false => exact .inr ⟨s, _, ⟨p.pn, p.keyPhase, gen, s.keys, s.keyUpdatePN⟩, _, .inl rfl, .inl rfl, hgen, rfl⟩
      | true => exact .inr ⟨s, _, ⟨p.pn, p.keyPhase, gen, s.keys, s.keyUpdatePN⟩, _, .inl rfl, .inr rfl, hgen, rfl⟩

theorem Inv.receive (p : PeerPacket) : (s.handleShortHeaderPacket p).Inv := by
  obtain heq | ⟨t, prev, o, _, ht, hprev, ho, heq⟩ := h.handleShortHeaderPacket_cases p
  · rw [heq]
    exact h
  have hinv : t.Inv := by
    obtain rfl | ⟨hphase, rfl⟩ := ht
    · exact h
    · exact h.commit hphase p.pn
  rw [heq]
  exact { hinv with
    prev := by
      obtain rfl | rfl := hprev
      · exact hinv.prev
      · exact nofun
    opened := forall_mem_append.mpr ⟨hinv.opened, forall_mem_singleton.mpr ho⟩ }

theorem Inv.step (e : KeyEvent) : (s.step e).Inv := by
  cases e with
  | send => exact h.send
  | receive p => exact h.receive p

end

theorem InStep.send (h : s.InStep) (hinv : s.Inv) (hconfirmed : s.Confirmed .send) : s.sendFramesToLocked.InStep := by
  unfold sendFramesToLocked
  dsimp only
  split_ifs with hfull
  · obtain ⟨hacked, _⟩ := hconfirmed hfull
    have hsend : s.sendSecret + 1 = s.sendKeys + 1 := by rw [hinv.sendSecret]
    constructor
    · change s.keys ≤ s.sendSecret + 1 ∧ s.sendSecret + 1 ≤ s.keys + 1
      omega
    · exact forall_mem_append.mpr ⟨h.started, forall_mem_singleton.mpr (decide_eq_true hacked)⟩
  · exact ⟨h.lead, h.started⟩

theorem InStep.commit (h : s.InStep) (hinv : s.Inv) {phase : Bool} (hphase : phase ≠ s.recvKeyPhase)
    (pn : ℕ) : (s.commitPeerKeyUpdate phase pn).InStep := by
  obtain ⟨_, _⟩ := h.lead
  have hnext := hinv.next
  have hphase' : phase = phaseOf (s.keys + 1) := by
    rw [phaseOf_succ, ← hinv.recvPhase]
    exact Bool.eq_not.mpr hphase
  unfold commitPeerKeyUpdate deriveNextRecvKeys respondToPeerKeyUpdate
  dsimp only
  split_ifs with hsend
  · -- The server has sent under the new generation already: it started the update.
    refine ⟨?_, h.started⟩
    have : s.sendKeys ≠ s.keys := by
      intro heq
      rw [hphase', hinv.sendPhase, heq, phaseOf_succ] at hsend
      cases hk : phaseOf s.keys <;> rw [hk] at hsend <;> cases hsend
    change s.nextRecvKeys ≤ s.sendKeys ∧ s.sendKeys ≤ s.nextRecvKeys + 1
    omega
  refine ⟨?_, h.started⟩
  have hsecret := hinv.sendSecret
  change s.nextRecvKeys ≤ s.sendSecret + 1 ∧ s.sendSecret + 1 ≤ s.nextRecvKeys + 1
  omega

theorem InStep.receive (h : s.InStep) (hinv : s.Inv) (p : PeerPacket) : (s.handleShortHeaderPacket p).InStep := by
  obtain heq | ⟨t, _, o, _, ht, -, -, heq⟩ := hinv.handleShortHeaderPacket_cases p
  · rw [heq]
    exact h
  have hstep : t.InStep := by
    obtain rfl | ⟨hphase, rfl⟩ := ht
    · exact h
    · exact h.commit hinv hphase p.pn
  rw [heq]
  exact ⟨hstep.lead, hstep.started⟩

theorem InStep.step (h : s.InStep) (hinv : s.Inv) {e : KeyEvent} (hconfirmed : s.Confirmed e) : (s.step e).InStep := by
  cases e with
  | send => exact h.send hinv hconfirmed
  | receive p => exact h.receive hinv p

theorem inv_initial : Inv {} := ⟨rfl, rfl, rfl, rfl, rfl, nofun, nofun, nofun⟩

theorem inStep_foldl {es : List KeyEvent} : ∀ {s : KeyState}, s.Inv → s.InStep → s.AllConfirmed es →
    (es.foldl KeyState.step s).Inv ∧ (es.foldl KeyState.step s).InStep := by
  induction es with
  | nil => exact fun hinv h _ => ⟨hinv, h⟩
  | cons e es ih => exact fun hinv h hconfirmed => ih (hinv.step e) (h.step hinv hconfirmed.1) hconfirmed.2

/-- In a run whose updates are all confirmed the generations of the two directions differ by at most
one, no update comes before the last was acknowledged, and each packet is opened with the generation
that its phase and number select. -/
theorem key_updates_in_step (es : List KeyEvent) (hconfirmed : AllConfirmed {} es) :
    (∀ p ∈ (run es).sent, p.keyPhase = phaseOf p.gen) ∧
      ((run es).sendKeys ≤ (run es).keys + 1 ∧ (run es).keys ≤ (run es).sendKeys + 1) ∧
      (∀ acked ∈ (run es).started, acked = true) ∧
      ∀ p ∈ (run es).opened, p.gen = p.selected := by
  obtain ⟨hinv, h⟩ := inStep_foldl inv_initial ⟨⟨Nat.le_refl _, Nat.zero_le _⟩, nofun⟩ hconfirmed
  have hlead := h.lead
  exact ⟨hinv.sent, ⟨hlead.2, Nat.le_succ_of_le hlead.1⟩, h.started, hinv.opened⟩

theorem allConfirmed_concat {es : List KeyEvent} {e : KeyEvent} : ∀ {s : KeyState}, s.AllConfirmed es →
    (es.foldl KeyState.step s).Confirmed e → s.AllConfirmed (es ++ [e]) := by
  induction es with
  | nil => exact fun _ he => ⟨he, trivial⟩
  | cons d es ih => exact fun hes he => ⟨hes.1, ih hes.2 he⟩

/-- Packets below the threshold are sent with the same keys. -/
theorem sends_below {n : ℕ} : ∀ {s : KeyState}, s.packetsInEpoch + n < quicKeyUpdateThreshold →
    s.AllConfirmed (replicate n .send) ∧ ∃ sent sendPN, (replicate n .send).foldl KeyState.step s =
      { s with sent, sendPN, packetsInEpoch := s.packetsInEpoch + n } := by
  induction n with
  | zero => exact fun _ => ⟨trivial, _, _, rfl⟩
  | succ n ih =>
    intro s hn
    have hstep : s.step .send = { s with
        sent := s.sent ++ [⟨s.sendPN, s.sendKeys, s.sendKeyPhase⟩]
        sendPN := s.sendPN + 1
        packetsInEpoch := s.packetsInEpoch + 1 } := if_neg (by dsimp only; omega)
    obtain ⟨hconfirmed, sent, sendPN, heq⟩ := @ih (s.step .send) (by rw [hstep]; dsimp only; omega)
    refine ⟨⟨fun hfull => absurd hfull (by omega), hconfirmed⟩, sent, sendPN, ?_⟩
    rw [replicate_succ, foldl_cons, heq, hstep, add_assoc, add_comm 1]

theorem step_send_full {s : KeyState} (h : s.packetsInEpoch + 1 = quicKeyUpdateThreshold) :
    (s.step .send).started = s.started ++ [decide (s.sendKeys ∈ s.ackedGens)] := by
  rw [step, sendFramesToLocked, if_pos (by dsimp only; omega)]
  rfl

/-- A packet is acknowledged, and more follow up to the threshold. -/
def confirmedRun : List KeyEvent :=
  .send :: .receive ⟨0, false, 0, [0], false⟩ :: (replicate (quicKeyUpdateThreshold - 2) .send ++ [.send])

theorem key_updates_in_step_own : (run confirmedRun).started = [true] ∧
    (run confirmedRun).sendKeys ≤ (run confirmedRun).keys + 1 := by
  have hbig : quicKeyUpdateThreshold = 2 ^ 20 := rfl
  obtain ⟨s, hs⟩ : ∃ s, (step {} .send).step (.receive ⟨0, false, 0, [0], false⟩) = s := ⟨_, rfl⟩
  have hfacts : s.packetsInEpoch = 1 ∧ s.started = [] ∧ s.sendKeys = 0 ∧ s.keys = 0 ∧ s.ackedGens = [0] := by
    rw [← hs]
    decide
  obtain ⟨hone, hnone, hsend, hkeys, hacked⟩ := hfacts
  obtain ⟨hsends, sent, sendPN, heq⟩ := @sends_below (quicKeyUpdateThreshold - 2) s (by omega)
  have hlast := allConfirmed_concat (e := .send) hsends (by
    rw [heq]
    exact fun _ => ⟨by rw [hsend, hacked]; exact mem_cons_self, hsend.trans hkeys.symm⟩)
  have hconfirmed : AllConfirmed {} confirmedRun := by
    refine ⟨fun hfull => absurd hfull (by decide), trivial, ?_⟩
    rw [hs]
    exact hlast
  refine ⟨?_, (key_updates_in_step _ hconfirmed).2.1.1⟩
  rw [run, confirmedRun, foldl_cons, foldl_cons, hs, foldl_append, heq, foldl_cons, foldl_nil,
    step_send_full (by dsimp only; omega), hnone, hsend, hacked]
  rfl

/-- After 2^20 packets without an answer the server starts an update that nothing confirms. -/
theorem unconfirmed_update_started : (run (replicate quicKeyUpdateThreshold .send)).started = [false] := by
  obtain ⟨n, hn⟩ : ∃ n, quicKeyUpdateThreshold = n + 1 := ⟨2 ^ 20 - 1, rfl⟩
  obtain ⟨-, sent, sendPN, heq⟩ := @sends_below n {} (by dsimp only; omega)
  rw [hn, replicate_succ', run, foldl_append, heq, foldl_cons, foldl_nil,
    step_send_full (by dsimp only; omega)]
  rfl

end KeyState
end AlosHttp.Quic

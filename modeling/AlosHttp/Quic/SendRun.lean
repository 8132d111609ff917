import AlosHttp.Quic.LossRun
import AlosHttp.Quic.SendStream

/-! Steps and runs of the sending side, and what a step can do to the frames of streams. -/
namespace AlosHttp.Quic
open List

inductive SendEvent
  | openUni
  | openRequest (id : ℕ) (o : SendConn.Opening)
  /-- The server writes to the streams it opened itself. -/
  | write (id : ℕ) (data : Bytes)
  | finishWrite (id : ℕ)
  | respond (id : ℕ) (data : Bytes)
  | closeStream (id : ℕ)
  /-- `sendStreamData` begins, takes a turn of its loop, and ends. Between its turns other goroutines
  write to the stream, reset it or raise its limit. -/
  | enter
  | turn (id : ℕ)
  | leave
  /-- STOP_SENDING, a rejected request or a stalled stream. -/
  | resetStream (id errorCode : ℕ)
  | maxData (n : ℕ)
  | maxStreamData (id n : ℕ)
  | ack (ack : QuicAckFrame)
  | recoverLost (cutoff : ℤ)
  | tick (cutoff : ℤ)
  | stashAck (bytes : Bytes)
  | control (bytes : Bytes)
  /-- Frames such as MAX_DATA, which do not wait in the coalescing buffer. -/
  | direct (bytes : Bytes) (ackEliciting : Bool)
  /-- Datagrams and the validation of paths change what amplification control looks at. -/
  | path (validated : Bool) (bytesSent bytesReceived dstCIDLen : ℕ)
  | resetForNewPath

namespace SendConn

def step (c : SendConn) (now : ℤ) : SendEvent → SendConn
  | .openUni => c.openLocalUniStream
  | .openRequest id o => c.openRequestStream id o now
  | .write id data => if id ∈ c.opened ∧ id % 4 = 3 then c.on id (·.write data) else c
  | .finishWrite id => if id ∈ c.opened ∧ id % 4 = 3 then c.on id (·.finishWrite) else c
  | .respond id data => if id ∈ c.opened then c.respond id data else c
  | .closeStream id => if id ∈ c.opened then c.on id (·.close) else c
  | .enter => { c with streamWriters := c.streamWriters + 1 }
  | .turn id => if id ∈ c.opened then (c.sendTurn id now).1 else c
  | .leave => c.leave now
  | .resetStream id errorCode => if id ∈ c.opened then c.resetStreamSend id errorCode now else c
  | .maxData n => c.onMaxData n
  | .maxStreamData id n => if id ∈ c.opened then c.onMaxStreamData id n else c
  | .ack ack => c.onACK ack now
  | .recoverLost cutoff => c.recoverLostPackets cutoff now
  | .tick cutoff => c.tick cutoff now
  | .stashAck bytes => { c with pendingAck := bytes }
  | .control bytes => c.queueControlFrameLocked ⟨[.other bytes], false⟩ now
  | .direct bytes ackEliciting => c.sendFramesLocked [⟨[.other bytes], false⟩] ackEliciting now
  | .path addressValidated bytesSent bytesReceived dstCIDLen =>
    { c with addressValidated, bytesSent, bytesReceived, dstCIDLen }
  | .resetForNewPath => { c with loss := c.loss.resetForNewPath }

/-- A connection after the handshake, with the limits of the client's transport parameters. -/
def start (maxDataRemote peerStreamWindow peerUniWindow pktBudget : ℕ) : SendConn :=
  { maxDataRemote, peerStreamWindow, peerUniWindow, pktBudget }

def run (c : SendConn) (es : List (ℤ × SendEvent)) : SendConn := es.foldl (fun c e => c.step e.1 e.2) c

end SendConn

/-! ### What happens to the frames of streams -/

def QuicFrame.ofStream : QuicFrame → Bool
  | .stream _ _ _ _ | .resetStream _ _ _ => true
  | .other _ => false

/-- The STREAM and RESET_STREAM frames of a piece, and whether they were sent before. -/
def Piece.log (p : Piece) : List (QuicFrame × Bool) := (p.frames.filter QuicFrame.ofStream).map fun f => (f, p.again)

def logOf (ps : List Piece) : List (QuicFrame × Bool) := ps.flatMap Piece.log

@[simp] theorem logOf_append (ps qs : List Piece) : logOf (ps ++ qs) = logOf ps ++ logOf qs := flatMap_append

@[simp] theorem logOf_singleton (p : Piece) : logOf [p] = p.log := flatMap_singleton ..

@[simp] theorem log_other (bytes : Bytes) (again : Bool) : Piece.log ⟨[.other bytes], again⟩ = [] := rfl

theorem map_fst_logOf (ps : List Piece) : (logOf ps).map Prod.fst = (framesIn ps).filter QuicFrame.ofStream := by
  induction ps with
  | nil => rfl
  | cons p ps ih =>
    have hp : p.log.map Prod.fst = p.frames.filter QuicFrame.ofStream := by
      rw [Piece.log, map_map]
      exact map_id _
    rw [framesIn, flatMap_cons, filter_append, ← framesIn, ← ih, ← hp, ← map_append]
    rfl

theorem QuicLossState.mem_onPacketSent {F : Type} {ls : QuicLossState F} {space : QuicSpace} {pn size : ℕ}
    {ackElicit : Bool} {frames : List F} {now : ℤ} {sp : QuicSentPacket F}
    (h : sp ∈ (ls.onPacketSent space pn size ackElicit frames now).sent space) :
    sp ∈ ls.sent space ∨ sp.frames = frames := by
  unfold onPacketSent at h
  split_ifs at h
  · exact .inl h
  simp only [Function.update_self] at h
  obtain h | h := mem_append.mp h
  · exact .inl h
  rw [mem_singleton.mp h]
  exact .inr rfl

namespace SendConn

def sentLog (c : SendConn) : List (QuicFrame × Bool) := logOf c.sentPieces

/-- The frames of streams in the packets so far, and then those that wait. -/
def allLog (c : SendConn) : List (QuicFrame × Bool) := c.sentLog ++ logOf c.coalesced

def Tracked (c : SendConn) : Prop :=
  ∀ sp ∈ c.loss.sent .appData, List.Sublist (sp.frames.filter QuicFrame.ofStream) (c.sentLog.map Prod.fst)

/-- Frames only move on, from the coalescing buffer into packets, and nothing else changes but what
loss recovery, acknowledgements and amplification control look at. -/
structure Sends (c c' : SendConn) : Prop where
  same : c' = { c with
    coalesced := c'.coalesced, pendingAck := c'.pendingAck, sendPN := c'.sendPN, loss := c'.loss,
    bytesSent := c'.bytesSent, bytesReceived := c'.bytesReceived, dstCIDLen := c'.dstCIDLen,
    addressValidated := c'.addressValidated, packets := c'.packets, streamWriters := c'.streamWriters }
  order : c'.allLog = c.allLog
  sent : c.sentLog <+: c'.sentLog
  tracked : c.Tracked → c'.Tracked

variable {c c' c'' : SendConn} {now : ℤ}

theorem Sends.refl (c : SendConn) : c.Sends c := ⟨rfl, rfl, prefix_rfl, id⟩

theorem Sends.trans (h : c.Sends c') (h' : c'.Sends c'') : c.Sends c'' where
  same := by
    rw [h'.same, h.same]
  order := h'.order.trans h.order
  sent := h.sent.trans h'.sent
  tracked := h'.tracked ∘ h.tracked

def withAck (c : SendConn) (pieces : List Piece) : List Piece :=
  if c.pendingAck = [] then pieces else ⟨[.other c.pendingAck], false⟩ :: pieces

theorem logOf_withAck (c : SendConn) (pieces : List Piece) : logOf (c.withAck pieces) = logOf pieces := by
  unfold withAck
  split_ifs
  · rfl
  · rfl

theorem sendFramesLocked_log (c : SendConn) (pieces : List Piece) (ackEliciting : Bool) (now : ℤ) :
    (c.sendFramesLocked pieces ackEliciting now).sentLog = c.sentLog ++ logOf pieces := by
  rw [← logOf_withAck c pieces]
  unfold sentLog sentPieces sendFramesLocked
  rw [flatMap_append, logOf_append, flatMap_singleton]
  rfl

theorem sendFramesLocked_tracked (h : c.Tracked) (pieces : List Piece) (ackEliciting : Bool) (now : ℤ) :
    (c.sendFramesLocked pieces ackEliciting now).Tracked := by
  intro sp hsp
  rw [sendFramesLocked_log, map_append]
  obtain hsp | hframes := QuicLossState.mem_onPacketSent hsp
  · exact (h sp hsp).trans (sublist_append_left _ _)
  · -- The new packet comes last.
    change sp.frames = framesIn (c.withAck pieces) at hframes
    rw [hframes, ← map_fst_logOf, logOf_withAck]
    exact sublist_append_right _ _

theorem sends_sendFramesLocked (c : SendConn) {pieces : List Piece} (hlog : logOf pieces = []) (ackEliciting : Bool)
    (now : ℤ) : c.Sends (c.sendFramesLocked pieces ackEliciting now) := by
  have hsent : (c.sendFramesLocked pieces ackEliciting now).sentLog = c.sentLog := by
    rw [sendFramesLocked_log, hlog, append_nil]
  refine ⟨rfl, ?_, ?_, fun h => sendFramesLocked_tracked h pieces ackEliciting now⟩
  · rw [allLog, hsent]
    rfl
  · rw [hsent]

theorem sends_take (c : SendConn) (k : ℕ) (ackEliciting : Bool) (now : ℤ) :
    c.Sends { c.sendFramesLocked (c.coalesced.take k) ackEliciting now with coalesced := c.coalesced.drop k } := by
  have hsent := sendFramesLocked_log c (c.coalesced.take k) ackEliciting now
  refine ⟨rfl, ?_, ?_, fun h => sendFramesLocked_tracked h (c.coalesced.take k) ackEliciting now⟩
  · change (c.sendFramesLocked (c.coalesced.take k) ackEliciting now).sentLog ++ logOf (c.coalesced.drop k) = c.allLog
    rw [hsent, append_assoc, ← logOf_append, take_append_drop, allLog]
  change c.sentLog <+: (c.sendFramesLocked (c.coalesced.take k) ackEliciting now).sentLog
  rw [hsent]
  exact prefix_append _ _

theorem sends_drainLoop (now : ℤ) (fuel : ℕ) (c : SendConn) : c.Sends (drainLoop now fuel c) := by
  induction fuel generalizing c with
  | zero => exact .refl c
  | succ fuel ih =>
    rw [drainLoop]
    dsimp only
    split_ifs
    · exact .refl c
    · exact .refl c
    · exact (sends_take c _ true now).trans (ih _)

theorem sends_drainCoalescedLocked (c : SendConn) (now : ℤ) : c.Sends (c.drainCoalescedLocked now) :=
  sends_drainLoop now _ c

def queue (c : SendConn) (p : Piece) : SendConn := { c with coalesced := c.coalesced ++ [p] }

theorem sends_queueStreamFrameLocked (c : SendConn) (p : Piece) (now : ℤ) :
    (c.queue p).Sends (c.queueStreamFrameLocked p now) := by
  unfold queueStreamFrameLocked
  dsimp only
  split_ifs
  · exact sends_drainCoalescedLocked _ now
  · exact .refl _

theorem sends_queueControlFrameLocked (c : SendConn) (p : Piece) (now : ℤ) :
    (c.queue p).Sends (c.queueControlFrameLocked p now) := by
  unfold queueControlFrameLocked
  dsimp only
  have hqueue := sends_queueStreamFrameLocked c p now
  split_ifs
  · exact hqueue.trans (sends_drainCoalescedLocked _ now)
  · exact hqueue

theorem allLog_queue (c : SendConn) (p : Piece) : (c.queue p).allLog = c.allLog ++ p.log := by
  change c.sentLog ++ logOf (c.coalesced ++ [p]) = _
  rw [logOf_append, ← append_assoc, logOf_singleton]
  rfl

theorem sends_queue (c : SendConn) {p : Piece} (hlog : p.log = []) : c.Sends (c.queue p) where
  same := rfl
  order := by
    rw [allLog_queue, hlog, append_nil]
  sent := prefix_rfl
  tracked := id

end SendConn

theorem SendStream.resetSend_first {s : SendStream} (h : s.sendReset = false) :
    s.resetSend = ({ s with sendReset := true, sendClosed := true, sendBuf := [] }, s.sendOff, true) := by
  rw [resetSend, if_neg (Bool.not_eq_true _ ▸ h)]

inductive SendStream.Changes (id : ℕ) (s : SendStream) : SendStream → Prop
  | write (hid : id % 4 = 3) (data : Bytes) : Changes id s (s.write data)
  | finishWrite (hid : id % 4 = 3) : Changes id s s.finishWrite
  | respond (hid : id % 4 = 0) (hfirst : s.dispatched = false) (data : Bytes) :
    Changes id s ({ s with dispatched := true }.setSendBuf data)
  | close : Changes id s s.close
  | maxSend (n : ℕ) (h : s.maxSend ≤ n) : Changes id s { s with maxSend := n }
  | blockedSent : Changes id s { s with blockedSent := s.maxSend }

namespace SendConn

/-- The frame of a stream that `sendStreamData` makes of at most `n` bytes. -/
def emit (c : SendConn) (id n : ℕ) : SendConn :=
  let (s, data, offset, fin) := (c.streams id).drainSendBuf n
  queue { c.on id (fun _ => s) with dataSent := c.dataSent + data.length } ⟨[.stream id offset data fin], false⟩

def emitReset (c : SendConn) (id errorCode : ℕ) : SendConn :=
  (c.on id fun _ => (c.streams id).resetSend.1).queue ⟨[.resetStream id errorCode (c.streams id).sendOff], false⟩

inductive Acts (c : SendConn) : SendConn → Prop
  | none : Acts c c
  | limit (n : ℕ) (h : c.maxDataRemote ≤ n) : Acts c { c with maxDataRemote := n }
  | change {id : ℕ} (hid : id ∈ c.opened) {s : SendStream} (h : (c.streams id).Changes id s) :
    Acts c (c.on id fun _ => s)
  | openUni : Acts c c.openLocalUniStream
  | openRequest {id : ℕ} (hid : id % 4 = 0) (hnew : id ∉ c.claimed) : Acts c { c with
      claimed := insert id c.claimed, opened := insert id c.opened
      streams := Function.update c.streams id { maxSend := c.peerStreamWindow } }
  | claim {id : ℕ} (hid : id % 4 = 0) (hnew : id ∉ c.claimed) : Acts c { c with claimed := insert id c.claimed }
  | refuse {id : ℕ} (hid : id % 4 = 0) (hnew : id ∉ c.claimed) :
    Acts c (queue { c with claimed := insert id c.claimed }
      ⟨[.resetStream id h3ErrRequestRejected 0, .other (quicAppendStopSendingFrame id h3ErrRequestRejected)], false⟩)
  | frame {id n : ℕ} (hid : id ∈ c.opened) (hconn : n ≤ c.maxDataRemote - c.dataSent)
    (hstream : n ≤ (c.streams id).maxSend - (c.streams id).sendOff) (hreset : (c.streams id).sendReset = false) :
    Acts c (c.emit id n)
  | reset {id : ℕ} (hid : id ∈ c.opened) (errorCode : ℕ) (hfirst : (c.streams id).sendReset = false) :
    Acts c (c.emitReset id errorCode)

variable {c c' : SendConn}

def Does (c c' : SendConn) : Prop := ∃ c₁, c.Acts c₁ ∧ c₁.Sends c'

theorem Sends.does (h : c.Sends c') : c.Does c' := ⟨c, .none, h⟩

theorem Acts.does (h : c.Acts c') : c.Does c' := ⟨c', h, .refl c'⟩

theorem does_if {p : Prop} [Decidable p] (h : p → c.Does c') : c.Does (if p then c' else c) := by
  split_ifs with hp
  · exact h hp
  · exact (Sends.refl c).does

theorem does_openRequestStream (c : SendConn) (id : ℕ) (o : Opening) (now : ℤ) :
    c.Does (c.openRequestStream id o now) := by
  unfold openRequestStream
  split_ifs with h
  · exact (Sends.refl c).does
  have hid : id % 4 = 0 := by tauto
  have hnew : id ∉ c.claimed := fun hmem => h (.inr hmem)
  cases o with
  | kept => exact (Acts.openRequest hid hnew).does
  | refused => exact ⟨_, .refuse hid hnew, sends_queueControlFrameLocked _ _ now⟩
  | dropped => exact (Acts.claim hid hnew).does

theorem does_change {id : ℕ} (f : SendStream → SendStream) (hid : id ∈ c.opened)
    (h : (c.streams id).Changes id (f (c.streams id))) : c.Does (c.on id f) := (Acts.change hid h).does

open SendStream

theorem does_sendTurn {id : ℕ} (hid : id ∈ c.opened) (now : ℤ) : c.Does (c.sendTurn id now).1 := by
  unfold sendTurn
  dsimp only
  split_ifs with hzero hblocked hnone
  · refine ⟨_, .change hid .blockedSent, ?_⟩
    exact (sends_queue _ (log_other _ _)).trans (sends_queueStreamFrameLocked _ _ now)
  · exact (Sends.refl c).does
  · exact (Sends.refl c).does
  refine ⟨_, .frame hid ?_ ?_ ?_, sends_queueStreamFrameLocked _ _ now⟩
  · exact (Nat.min_le_left _ _).trans (Nat.min_le_right _ _)
  · exact Nat.min_le_right _ _
  · -- A stream that was reset has no frame.
    by_contra hreset
    rw [Bool.not_eq_false] at hreset
    apply hnone
    unfold drainSendBuf
    rw [if_pos hreset]
    exact ⟨rfl, rfl⟩

theorem does_resetStreamSend {id : ℕ} (hid : id ∈ c.opened) (errorCode : ℕ) (now : ℤ) :
    c.Does (c.resetStreamSend id errorCode now) := by
  unfold resetStreamSend
  cases hreset : (c.streams id).sendReset with
  | true =>
    have hagain : (c.streams id).resetSend = (c.streams id, (c.streams id).sendOff, false) := if_pos hreset
    rw [hagain]
    exact (Sends.refl c).does
  | false =>
    have hemit := sends_queueControlFrameLocked (c.on id fun _ => (c.streams id).resetSend.1)
      ⟨[.resetStream id errorCode (c.streams id).sendOff], false⟩ now
    refine ⟨_, .reset hid errorCode hreset, ?_⟩
    rw [resetSend_first hreset] at hemit ⊢
    rw [emitReset, resetSend_first hreset]
    exact hemit

theorem sends_loss (c : SendConn) {loss : QuicLossState QuicFrame}
    (h : ∀ sp ∈ loss.sent .appData, sp ∈ c.loss.sent .appData) : c.Sends { c with loss := loss } :=
  ⟨rfl, rfl, prefix_rfl, fun htracked sp hsp => htracked sp (h sp hsp)⟩

theorem sends_onACK (c : SendConn) (ack : QuicAckFrame) (now : ℤ) : c.Sends (c.onACK ack now) := by
  have hloss : c.Sends { c with loss := (c.loss.onAckReceived .appData ack c.sendPN).1 } := by
    apply sends_loss
    intro _ hsp
    rw [(c.loss.onAckReceived_takesOut .appData ack c.sendPN).1.sent, QuicLossState.takeOut_sent_self] at hsp
    exact mem_of_mem_filter hsp
  unfold onACK
  dsimp only
  split_ifs
  · exact hloss.trans (sends_drainCoalescedLocked _ now)
  · exact hloss

theorem sends_leave (c : SendConn) (now : ℤ) : c.Sends (c.leave now) := by
  have hleave : c.Sends { c with streamWriters := c.streamWriters - 1 } := ⟨rfl, rfl, prefix_rfl, id⟩
  unfold leave
  dsimp only
  split_ifs
  · exact hleave.trans (sends_drainCoalescedLocked _ now)
  · exact hleave

theorem step_cases (c : SendConn) (now : ℤ) (e : SendEvent) :
    c.Does (c.step now e) ∨ (∃ cutoff, e = .recoverLost cutoff) ∨ ∃ cutoff, e = .tick cutoff := by
  cases e with
  | recoverLost cutoff => exact .inr (.inl ⟨cutoff, rfl⟩)
  | tick cutoff => exact .inr (.inr ⟨cutoff, rfl⟩)
  | openUni => exact .inl Acts.openUni.does
  | openRequest id o => exact .inl (does_openRequestStream c id o now)
  | write id data => exact .inl (does_if fun h => does_change _ h.1 (.write h.2 data))
  | finishWrite id => exact .inl (does_if fun h => does_change _ h.1 (.finishWrite h.2))
  | respond id data =>
    exact .inl (does_if fun hid => does_if fun h => does_change _ hid (.respond h.1 h.2 data))
  | closeStream id => exact .inl (does_if fun hid => does_change _ hid .close)
  | enter | stashAck | path | resetForNewPath => exact .inl (Sends.does ⟨rfl, rfl, prefix_rfl, id⟩)
  | turn id => exact .inl (does_if fun hid => does_sendTurn hid now)
  | leave => exact .inl (sends_leave c now).does
  | resetStream id errorCode => exact .inl (does_if fun hid => does_resetStreamSend hid errorCode now)
  | maxData n => exact .inl (does_if fun h => (Acts.limit n h.le).does)
  | maxStreamData id n => exact .inl (does_if fun hid => does_if fun h => does_change _ hid (.maxSend n h.le))
  | ack ack => exact .inl (sends_onACK c ack now).does
  | control bytes =>
    exact .inl ((sends_queue c (log_other bytes _)).trans (sends_queueControlFrameLocked _ _ now)).does
  | direct bytes ackEliciting => exact .inl (sends_sendFramesLocked c rfl ackEliciting now).does

theorem flushPendingAck_loss (c : SendConn) (now : ℤ) : (c.flushPendingAck now).loss = c.loss := by
  unfold flushPendingAck
  split_ifs
  · rfl
  · rfl

theorem sends_flushPendingAck (c : SendConn) (now : ℤ) : c.Sends (c.flushPendingAck now) := by
  unfold flushPendingAck
  split_ifs
  · exact .refl c
  have hclear : c.Sends { c with pendingAck := [] } := ⟨rfl, rfl, prefix_rfl, id⟩
  exact hclear.trans (sends_sendFramesLocked _ rfl false now)

theorem recoverLostPackets_keeps {P : SendConn → Prop} {cutoff : ℤ} (hsends : ∀ {a b : SendConn}, a.Sends b → P a → P b)
    (hqueue : ∀ {a : SendConn}, ∀ frames ∈ (c.loss.detectLost .appData cutoff).2, P a → P (a.queue ⟨frames, true⟩))
    (h : P c) (now : ℤ) : P (c.recoverLostPackets cutoff now) := by
  have hloss : P { c with loss := (c.loss.detectLost .appData cutoff).1 } := by
    refine hsends (sends_loss c fun sp hsp => ?_) h
    rw [(c.loss.detectLost_takesOut .appData cutoff).1.sent, QuicLossState.takeOut_sent_self] at hsp
    exact mem_of_mem_filter hsp
  unfold recoverLostPackets
  dsimp only
  generalize { c with loss := (c.loss.detectLost .appData cutoff).1 } = a at hloss ⊢
  generalize (c.loss.detectLost .appData cutoff).2 = lost at hqueue ⊢
  have hall : P (lost.foldl (requeue now) a) := by
    induction lost generalizing a with
    | nil => exact hloss
    | cons frames lost ih =>
      have hfirst := hqueue frames mem_cons_self hloss
      exact ih _ (hsends (sends_queueStreamFrameLocked a _ now) hfirst)
        fun frames' hmem => hqueue frames' (mem_cons_of_mem _ hmem)
  split_ifs
  · exact hsends (sends_drainCoalescedLocked _ now) hall
  · exact hall

theorem sentLog_flushPendingAck (c : SendConn) (now : ℤ) : (c.flushPendingAck now).sentLog = c.sentLog := by
  unfold flushPendingAck
  split_ifs
  · rfl
  · exact (sendFramesLocked_log _ _ false now).trans (append_nil _)

/-- A tick: what stays true while expired packets are sent again, before the coalescing buffer is
drained, and what is true then. -/
theorem tick_keeps {P Q : SendConn → Prop} {cutoff now : ℤ}
    (hquiet : ∀ {a b : SendConn}, a.Sends b → b.sentLog = a.sentLog → P a → P b)
    (hresend : ∀ {a : SendConn}, ∀ frames ∈ (c.loss.ptoExpiredFrames .appData cutoff).2,
      P a → P (a.sendFramesLocked [⟨frames, true⟩] true now))
    (hdrain : ∀ {a b : SendConn}, a.Sends b → P a → Q b) (h : P c) : Q (c.tick cutoff now) := by
  have hflush := hquiet (sends_flushPendingAck c now) (sentLog_flushPendingAck c now) h
  have hkeep := flushPendingAck_loss c now
  unfold tick
  dsimp only
  generalize c.flushPendingAck now = b at hflush hkeep ⊢
  have hloss : P { b with loss := (b.loss.ptoExpiredFrames .appData cutoff).1 } := by
    refine hquiet (sends_loss b fun sp hsp => ?_) rfl hflush
    rw [(b.loss.ptoExpiredFrames_takesOut .appData cutoff).1.sent, QuicLossState.takeOut_sent_self] at hsp
    exact mem_of_mem_filter hsp
  rw [← hkeep] at hresend
  generalize { b with loss := (b.loss.ptoExpiredFrames .appData cutoff).1 } = a at hloss ⊢
  generalize (b.loss.ptoExpiredFrames .appData cutoff).2 = expired at hresend ⊢
  have hall : P (expired.foldl (resend now) a) := by
    induction expired generalizing a with
    | nil => exact hloss
    | cons frames expired ih =>
      exact ih _ (hresend frames mem_cons_self hloss) fun frames' hmem =>
        hresend frames' (mem_cons_of_mem _ hmem)
  split_ifs
  · exact hdrain (sends_drainCoalescedLocked _ now) hall
  · exact hdrain (.refl _) hall

/-- The loop of `sendStreamData`; a turn that goes on takes data out of the buffer. -/
def sendLoop (id : ℕ) (now : ℤ) : ℕ → SendConn → SendConn
  | 0, c => c
  | fuel + 1, c => if (c.sendTurn id now).2 then sendLoop id now fuel (c.sendTurn id now).1 else (c.sendTurn id now).1

def sendStreamData (c : SendConn) (id : ℕ) (now : ℤ) : SendConn :=
  (sendLoop id now ((c.streams id).sendBuf.length + 1) { c with streamWriters := c.streamWriters + 1 }).leave now

def resumeBlockedStreams (c : SendConn) (ids : List ℕ) (now : ℤ) : SendConn :=
  (ids.filter fun id => (c.streams id).sendBuf ≠ []).foldl (fun c id => c.sendStreamData id now) c

inductive CreditUpdate
  | maxData (n : ℕ) (order : List ℕ)
  | maxStreamData (id n : ℕ)

def credit (now : ℤ) (c : SendConn) : CreditUpdate → SendConn
  | .maxData n order => if n > c.maxDataRemote then (c.onMaxData n).resumeBlockedStreams order now else c
  | .maxStreamData id n =>
    if n > (c.streams id).maxSend ∧ (c.streams id).sendBuf ≠ [] then (c.onMaxStreamData id n).sendStreamData id now
    else c.onMaxStreamData id n

def FinOnly (s : SendStream) : Prop :=
  s.sendBuf = [] ∧ s.sendFin = true ∧ s.sendClosed = false ∧ s.sendReset = false

theorem FinOnly.drainSendBuf {s : SendStream} (h : FinOnly s) (n : ℕ) :
    s.drainSendBuf n = (s, [], s.sendOff, true) := by
  obtain ⟨hbuf, hset, hopen, hreset⟩ := h
  rw [SendStream.drainSendBuf, if_neg (by simp [hreset]), if_pos hbuf, hset, hopen]
  rfl

def FinSent (c : SendConn) (id : ℕ) : Prop := ∃ offset data, (.stream id offset data true, false) ∈ c.allLog

/-- Every stream with nothing to send but its FIN has sent it. -/
def FinsSent (c : SendConn) : Prop := ∀ id, FinOnly (c.streams id) → c.FinSent id

/-- The frame that empties a buffer carries the FIN. -/
theorem drainSendBuf_finOnly {s : SendStream} {n : ℕ} (h : FinOnly (s.drainSendBuf n).1) :
    FinOnly s ∨ (s.drainSendBuf n).2.2.2 = true := by
  revert h
  unfold SendStream.drainSendBuf
  generalize (if s.sendBuf.length > n then n else s.sendBuf.length) = k
  split_ifs
  · exact .inl
  · exact .inl
  intro h
  obtain ⟨hempty, hset, -⟩ := h
  dsimp only at hempty hset ⊢
  rw [hset, hempty]
  exact .inr rfl

theorem finSent_emit (c : SendConn) (id n j : ℕ) : (c.emit id n).FinSent j ↔
    c.FinSent j ∨ j = id ∧ ((c.streams id).drainSendBuf n).2.2.2 = true := by
  have hlog : (c.emit id n).allLog = c.allLog ++ [(.stream id ((c.streams id).drainSendBuf n).2.2.1
      ((c.streams id).drainSendBuf n).2.1 ((c.streams id).drainSendBuf n).2.2.2, false)] := allLog_queue _ _
  unfold FinSent
  simp only [hlog, mem_append, mem_singleton, Prod.mk.injEq, QuicFrame.stream.injEq, and_true]
  constructor
  · rintro ⟨offset, data, hmem | ⟨hj, -, -, hset⟩⟩
    · exact .inl ⟨offset, data, hmem⟩
    · exact .inr ⟨hj, hset.symm⟩
  · rintro (⟨offset, data, hmem⟩ | ⟨hj, hset⟩)
    · exact ⟨offset, data, .inl hmem⟩
    · exact ⟨_, _, .inr ⟨hj, rfl, rfl, hset.symm⟩⟩

/-- The stream has nothing to send but its FIN, which it has sent or not; the others of that kind
have. -/
structure Awaits (c : SendConn) (id : ℕ) (sent : Prop) : Prop where
  only : FinOnly (c.streams id)
  own : c.FinSent id ↔ sent
  others : ∀ j ≠ id, FinOnly (c.streams j) → c.FinSent j

namespace Awaits
variable {id j : ℕ} {sent : Prop}

theorem finsSent (h : c.Awaits id sent) : c.FinsSent ↔ sent := by
  refine ⟨fun hall => h.own.mp (hall id h.only), fun hsent j hj => ?_⟩
  by_cases hid : j = id
  · rw [hid]
    exact h.own.mpr hsent
  · exact h.others j hid hj

theorem sends (h : c.Awaits id sent) (hs : c.Sends c') : c'.Awaits id sent := by
  have hlog (j : ℕ) : c'.FinSent j ↔ c.FinSent j := by
    unfold FinSent
    rw [hs.order]
  refine ⟨?_, (hlog id).trans h.own, fun j hj hfin => (hlog j).mpr (h.others j hj ?_)⟩
  · rw [hs.same]
    exact h.only
  · rw [hs.same] at hfin
    exact hfin

/-- A change of limits leaves a stream's data and its FIN alone. -/
theorem on (h : c.Awaits id sent) (f : SendStream → SendStream) (hf : ∀ s, FinOnly (f s) ↔ FinOnly s) (j : ℕ) :
    (c.on j f).Awaits id sent := by
  have hstream (k : ℕ) : FinOnly ((c.on j f).streams k) ↔ FinOnly (c.streams k) := by
    change FinOnly (Function.update c.streams j (f (c.streams j)) k) ↔ _
    rw [Function.update_apply]
    split_ifs with hk
    · rw [hf, hk]
    · rfl
  exact ⟨(hstream id).mpr h.only, h.own, fun k hk hfin => h.others k hk ((hstream k).mp hfin)⟩

theorem emit (h : c.Awaits id sent) (hj : j ≠ id) (n : ℕ) : (c.emit j n).Awaits id sent := by
  have hother {k : ℕ} (hk : k ≠ j) : (c.emit j n).streams k = c.streams k := Function.update_of_ne hk _ _
  have hself : (c.emit j n).streams j = ((c.streams j).drainSendBuf n).1 := Function.update_self _ _ _
  refine ⟨by rw [hother hj.symm]; exact h.only, ?_, fun k hk hfin => (finSent_emit c j n k).mpr ?_⟩
  · rw [finSent_emit, ← h.own, or_iff_left]
    exact fun hid => hj hid.1.symm
  by_cases hkj : k = j
  · subst hkj
    rw [hself] at hfin
    obtain hold | hset := drainSendBuf_finOnly hfin
    · exact .inl (h.others k hk hold)
    · exact .inr ⟨rfl, hset⟩
  · rw [hother hkj] at hfin
    exact .inl (h.others k hk hfin)

theorem sendStreamData (h : c.Awaits id sent) (hj : j ≠ id) (now : ℤ) : (c.sendStreamData j now).Awaits id sent := by
  have hturn {a : SendConn} (ha : a.Awaits id sent) : (a.sendTurn j now).1.Awaits id sent := by
    unfold sendTurn
    dsimp only
    split_ifs
    · have hblocked := ha.on (fun s => { s with blockedSent := s.maxSend }) (fun _ => Iff.rfl) j
      exact hblocked.sends ((sends_queue _ (log_other _ _)).trans (sends_queueStreamFrameLocked _ _ now))
    · exact ha
    · exact ha
    · exact (ha.emit hj _).sends (sends_queueStreamFrameLocked _ _ now)
  have henter : Awaits { c with streamWriters := c.streamWriters + 1 } id sent :=
    h.sends ⟨rfl, rfl, prefix_rfl, fun h => h⟩
  refine sends ?_ (sends_leave _ now)
  generalize (c.streams j).sendBuf.length + 1 = fuel
  generalize { c with streamWriters := c.streamWriters + 1 } = a at henter ⊢
  induction fuel generalizing a with
  | zero => exact henter
  | succ fuel ih =>
    rw [sendLoop]
    split_ifs
    · exact ih _ (hturn henter)
    · exact hturn henter

theorem emit_own (h : c.Awaits id False) (hsent : sent) (n : ℕ) : (c.emit id n).Awaits id sent := by
  have hself : (c.emit id n).streams id = c.streams id := by
    rw [SendConn.emit, h.only.drainSendBuf]
    exact Function.update_self _ _ _
  refine ⟨by rw [hself]; exact h.only, iff_of_true ?_ hsent, fun k hk hfin => ?_⟩
  · rw [finSent_emit, h.only.drainSendBuf]
    exact .inr ⟨rfl, rfl⟩
  have hother : (c.emit id n).streams k = c.streams k := Function.update_of_ne hk _ _
  rw [hother] at hfin
  exact (finSent_emit c id n k).mpr (.inl (h.others k hk hfin))

theorem sendTurn (h : c.Awaits id False) (now : ℤ) : (c.sendTurn id now).2 = false ∧
    (c.sendTurn id now).1.Awaits id (0 < c.pktBudget ∧ c.dataSent < c.maxDataRemote ∧
      (c.streams id).sendOff < (c.streams id).maxSend) := by
  unfold SendConn.sendTurn
  dsimp only
  by_cases hcredit : 0 < c.pktBudget ∧ c.dataSent < c.maxDataRemote ∧ (c.streams id).sendOff < (c.streams id).maxSend
  · have hemit := h.emit_own hcredit 0
    rw [SendConn.emit, h.only.drainSendBuf] at hemit
    rw [if_neg (by omega), h.only.drainSendBuf, if_neg (by simp)]
    exact ⟨rfl, hemit.sends (sends_queueStreamFrameLocked _ _ now)⟩
  rw [if_pos (by omega), if_neg fun hblocked => hblocked.2.1 h.only.1]
  exact ⟨rfl, h.only, h.own.trans (iff_of_false not_false hcredit), h.others⟩

/-- Credit resumes only streams with data. -/
theorem credit (h : c.Awaits id sent) (now : ℤ) (u : CreditUpdate) : (credit now c u).Awaits id sent := by
  cases u with
  | maxData n order =>
    have hgrown : (c.onMaxData n).Awaits id sent := by
      unfold onMaxData
      split_ifs
      · exact ⟨h.only, h.own, h.others⟩
      · exact h
    rw [SendConn.credit]
    split_ifs
    · have hids : ∀ j ∈ order.filter fun j => ((c.onMaxData n).streams j).sendBuf ≠ [], j ≠ id := by
        rintro j hj rfl
        exact of_decide_eq_true (mem_filter.mp hj).2 hgrown.only.1
      unfold resumeBlockedStreams
      generalize order.filter _ = ids at hids ⊢
      generalize c.onMaxData n = a at hgrown ⊢
      induction ids generalizing a with
      | nil => exact hgrown
      | cons j ids ih =>
        obtain ⟨hj, hids⟩ := forall_mem_cons.mp hids
        exact ih hids _ (hgrown.sendStreamData hj now)
    · exact h
  | maxStreamData j n =>
    have hgrown : (c.onMaxStreamData j n).Awaits id sent := by
      unfold onMaxStreamData
      split_ifs
      · exact h.on (fun s => { s with maxSend := n }) (fun _ => Iff.rfl) j
      · exact h
    rw [SendConn.credit]
    split_ifs with hgrew
    · refine hgrown.sendStreamData ?_ now
      rintro rfl
      exact hgrew.2 h.only.1
    · exact hgrown

end Awaits

/-- Stream 3 has nothing to send but its FIN; stream 7 has two bytes and its FIN, and no credit for
them. -/
def finWaits (credit : ℕ) : SendConn where
  maxDataRemote := credit
  peerStreamWindow := credit
  peerUniWindow := credit
  streams := fun id =>
    if id = 3 then { sendFin := true, maxSend := credit }
    else if id = 7 then { sendFin := true, sendBuf := [1, 2] } else {}

theorem finWaits_only {credit : ℕ} {id : ℕ} (h : FinOnly ((finWaits credit).streams id)) : id = 3 := by
  by_contra hid
  have hset := h.2.1
  have hbuf := h.1
  unfold finWaits at hset hbuf
  dsimp only at hset hbuf
  rw [if_neg hid] at hset hbuf
  split_ifs at hset hbuf

end SendConn
end AlosHttp.Quic

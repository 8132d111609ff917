import AlosHttp.Quic.Loss

/-! Runs of loss recovery: what becomes of the packets that were sent. -/
namespace AlosHttp.Quic
open List AlosHttp.Data

inductive Fate
  | acknowledged
  | returned
  | discarded
  deriving DecidableEq

inductive LossEvent
  /-- A packet with the next number of its space. -/
  | send (space : QuicSpace) (size : ℕ) (ackElicit : Bool) (frames : Bytes) (now : ℤ)
  | ack (space : QuicSpace) (ack : QuicAckFrame)
  | detectLost (space : QuicSpace) (cutoff : ℤ)
  | ptoExpired (space : QuicSpace) (cutoff : ℤ)
  | discardSpace (space : QuicSpace)
  | resetForNewPath

/-- The state, with the ack-eliciting packets sent so far, those that have left the state, and the
frames that were given back to be sent again. -/
structure LossRun where
  loss : QuicLossState := {}
  nextPN : QuicSpace → ℕ := fun _ => 0
  log : QuicSpace → List QuicSentPacket := fun _ => []
  left : QuicSpace → Fate → List QuicSentPacket := fun _ _ => []
  again : QuicSpace → List Bytes := fun _ => []

namespace QuicLossState
variable {F : Type}

def isAcked (ack : QuicAckFrame) (nextPN : ℕ) (sp : QuicSentPacket F) : Bool :=
  Applies ack nextPN ∧ inRanges ack.acks sp

/-- The packets a probe timeout gives up: none while the first one is young. -/
def isExpired (ls : QuicLossState F) (space : QuicSpace) (cutoff : ℤ) (sp : QuicSentPacket F) : Bool :=
  ((ls.sent space).head?.any fun first => first.sent < cutoff) && isOld cutoff sp

theorem TakesOut.none (ls : QuicLossState F) (space : QuicSpace) : TakesOut ls ls space fun _ => false := by
  constructor
  all_goals rw [takeOut_none]

theorem onAckReceived_takesOut (ls : QuicLossState F) (space : QuicSpace) (ack : QuicAckFrame) (nextPN : ℕ) :
    TakesOut ls (ls.onAckReceived space ack nextPN).1 space (isAcked ack nextPN) ∧
      ls.cwnd ≤ (ls.onAckReceived space ack nextPN).1.cwnd := by
  by_cases h : Applies ack nextPN
  · have hgone : isAcked (F := F) ack nextPN = inRanges ack.acks := by
      funext sp
      simp [isAcked, h]
    obtain ⟨htakes, hcwnd, -⟩ := onAckReceived_applies h ls space
    rw [hgone]
    exact ⟨htakes, hcwnd⟩
  have hgone : isAcked (F := F) ack nextPN = fun _ => false := by
    funext sp
    simp [isAcked, h]
  rw [hgone, onAckReceived_ignored h]
  exact ⟨.none ls space, le_refl _⟩

theorem detectLost_takesOut (ls : QuicLossState F) (space : QuicSpace) (cutoff : ℤ) :
    TakesOut ls (ls.detectLost space cutoff).1 space (ls.isLost space cutoff) ∧
      (ls.detectLost space cutoff).2 = framesOf ((ls.sent space).filter (ls.isLost space cutoff)) := by
  unfold detectLost
  by_cases hnone : ls.largestAcked space < 0
  · -- Nothing was acknowledged yet, and no packet number is below zero.
    have hgone : ls.isLost space cutoff = fun _ => false := by
      funext sp
      have : ¬ (sp.pn : ℤ) ≤ ls.largestAcked space := by omega
      simp [isLost, this]
    rw [if_pos hnone, hgone, filter_false]
    exact ⟨.none ls space, rfl⟩
  rw [if_neg hnone]
  dsimp only
  refine ⟨?_, rfl⟩
  split_ifs <;> exact ⟨rfl, rfl⟩

variable {ls : QuicLossState F}

theorem le_detectLost_cwnd (h : 2 * quicMaxPacketSize ≤ ls.cwnd) (space : QuicSpace)
    (cutoff : ℤ) : 2 * quicMaxPacketSize ≤ (ls.detectLost space cutoff).1.cwnd := by
  unfold detectLost
  dsimp only
  split_ifs with hnone hlost hhalf
  · exact h
  · exact le_refl _
  · exact Nat.le_of_not_lt hhalf
  · exact h

theorem ptoExpiredFrames_takesOut (ls : QuicLossState F) (space : QuicSpace) (cutoff : ℤ) :
    TakesOut ls (ls.ptoExpiredFrames space cutoff).1 space (ls.isExpired space cutoff) ∧
      (ls.ptoExpiredFrames space cutoff).1.cwnd = ls.cwnd ∧
      (ls.ptoExpiredFrames space cutoff).2 = framesOf ((ls.sent space).filter (ls.isExpired space cutoff)) := by
  unfold ptoExpiredFrames
  split
  case h_1 hsent =>
    have hgone : ls.isExpired space cutoff = fun _ => false := by
      funext sp
      simp [isExpired, hsent]
    rw [hgone, filter_false]
    exact ⟨.none ls space, rfl, rfl⟩
  case h_2 first rest hsent =>
    split_ifs with hyoung
    · have hgone : ls.isExpired space cutoff = fun _ => false := by
        funext sp
        simp [isExpired, hsent, hyoung]
      rw [hgone, filter_false]
      exact ⟨.none ls space, rfl, rfl⟩
    have hgone : ls.isExpired space cutoff = isOld cutoff := by
      funext sp
      simp [isExpired, hsent, lt_of_not_ge hyoung]
    rw [hgone]
    dsimp only
    refine ⟨?_, ?_, rfl⟩
    · split_ifs <;> exact ⟨rfl, rfl⟩
    · split_ifs <;> rfl

def trackedBytes (ls : QuicLossState F) : ℕ :=
  inFlightBytes (ls.sent .initial) + inFlightBytes (ls.sent .handshake) + inFlightBytes (ls.sent .appData)

theorem trackedBytes_of_sent {ls' : QuicLossState F} {space : QuicSpace} {ps : List (QuicSentPacket F)}
    (h : ls'.sent = Function.update ls.sent space ps) :
    ls'.trackedBytes + inFlightBytes (ls.sent space) = ls.trackedBytes + inFlightBytes ps := by
  rw [trackedBytes, trackedBytes, h]
  cases space <;> simp <;> omega

theorem TakesOut.trackedBytes {ls' : QuicLossState F} {space : QuicSpace} {gone : QuicSentPacket F → Bool}
    (h : TakesOut ls ls' space gone) (hls : ls.bytesInFlight = ls.trackedBytes) :
    ls'.bytesInFlight = ls'.trackedBytes := by
  have hsent := trackedBytes_of_sent h.sent
  have hsplit := inFlightBytes_filter_add gone (ls.sent space)
  have hbytes : ls'.bytesInFlight = ls.bytesInFlight - inFlightBytes ((ls.sent space).filter gone) := h.bytesInFlight
  omega

theorem onPacketSent_trackedBytes (hls : ls.bytesInFlight = ls.trackedBytes)
    (space : QuicSpace) (pn size : ℕ) (ackElicit : Bool) (frames : List F) (now : ℤ) :
    (ls.onPacketSent space pn size ackElicit frames now).bytesInFlight =
      (ls.onPacketSent space pn size ackElicit frames now).trackedBytes := by
  cases ackElicit with
  | false => exact hls
  | true =>
    have hsent := @trackedBytes_of_sent F ls (ls.onPacketSent space pn size true frames now) space _ rfl
    have hbytes : (ls.onPacketSent space pn size true frames now).bytesInFlight = ls.bytesInFlight + size := rfl
    simp only [inFlightBytes_append, inFlightBytes_cons, inFlightBytes_nil, if_true] at hsent
    omega

end QuicLossState

namespace LossRun

def settle (r : LossRun) (space : QuicSpace) (fate : Fate) (gone : QuicSentPacket → Bool)
    (out : QuicLossState × List Bytes) : LossRun :=
  { r with
    loss := out.1
    left := Function.update r.left space
      (Function.update (r.left space) fate (r.left space fate ++ (r.loss.sent space).filter gone))
    again := Function.update r.again space (r.again space ++ out.2) }

def step (r : LossRun) : LossEvent → LossRun
  | .send space size ackElicit frames now =>
    let pn := r.nextPN space
    let sp : QuicSentPacket := { pn, sent := now, size, ackElicit, frames, inFlight := ackElicit }
    { r with
      loss := r.loss.onPacketSent space pn size ackElicit frames now
      nextPN := Function.update r.nextPN space (pn + 1)
      log := if ackElicit then Function.update r.log space (r.log space ++ [sp]) else r.log }
  | .ack space ack =>
    let nextPN := r.nextPN space
    r.settle space .acknowledged (QuicLossState.isAcked ack nextPN) ((r.loss.onAckReceived space ack nextPN).1, [])
  | .detectLost space cutoff =>
    r.settle space .returned (r.loss.isLost space cutoff) (r.loss.detectLost space cutoff)
  | .ptoExpired space cutoff =>
    r.settle space .returned (r.loss.isExpired space cutoff) (r.loss.ptoExpiredFrames space cutoff)
  | .discardSpace space => r.settle space .discarded (fun _ => true) (r.loss.discardSpace space, [])
  | .resetForNewPath => { r with loss := r.loss.resetForNewPath }

def run (es : List LossEvent) : LossRun := es.foldl step {}

structure Inv (r : LossRun) : Prop where
  inFlight : r.loss.bytesInFlight = r.loss.trackedBytes
  window : 2 * quicMaxPacketSize ≤ r.loss.cwnd
  conserved : ∀ space sp, (r.loss.sent space).count sp + (r.left space .acknowledged).count sp +
    (r.left space .returned).count sp + (r.left space .discarded).count sp = (r.log space).count sp
  below : ∀ space, ∀ sp ∈ r.log space, sp.pn < r.nextPN space
  nodup : ∀ space, (r.log space).Nodup
  again : ∀ space, r.again space = framesOf (r.left space .returned)

theorem count_filter_add (gone : QuicSentPacket → Bool) (ps : List QuicSentPacket) (sp : QuicSentPacket) :
    (ps.filter gone).count sp + (ps.filter fun sp => !gone sp).count sp = ps.count sp := by
  rw [← count_append]
  exact (filter_append_perm gone ps).count_eq sp

theorem framesOf_append (ps qs : List QuicSentPacket) : framesOf (ps ++ qs) = framesOf ps ++ framesOf qs := by
  rw [framesOf, map_append, filter_append]
  rfl

def given (fate : Fate) (ps : List QuicSentPacket) : List Bytes := if fate = .returned then framesOf ps else []

variable {r : LossRun}
open QuicLossState

theorem Inv.settle (h : r.Inv) {space : QuicSpace} {fate : Fate} {gone : QuicSentPacket → Bool}
    {out : QuicLossState × List Bytes} (htakes : r.loss.TakesOut out.1 space gone)
    (hwindow : 2 * quicMaxPacketSize ≤ out.1.cwnd)
    (hframes : out.2 = given fate ((r.loss.sent space).filter gone)) : (r.settle space fate gone out).Inv where
  inFlight := htakes.trackedBytes h.inFlight
  window := hwindow
  conserved := by
    intro s sp
    have hold := h.conserved s sp
    have hsent : (r.settle space fate gone out).loss.sent = (r.loss.takeOut space gone).sent := htakes.sent
    have hlog : (r.settle space fate gone out).log = r.log := rfl
    rw [hsent, hlog, ← hold]
    by_cases hs : s = space
    · subst hs
      have hsplit := count_filter_add gone (r.loss.sent s) sp
      cases fate <;> simp [LossRun.settle] <;> omega
    · simp [LossRun.settle, takeOut, hs]
  below := h.below
  nodup := h.nodup
  again := by
    intro s
    have hold := h.again s
    by_cases hs : s = space
    · subst hs
      cases fate <;> simp [LossRun.settle, hframes, hold, given, framesOf_append]
    · simp [LossRun.settle, hs, hold]

theorem Inv.send (h : r.Inv) (space : QuicSpace) (size : ℕ) (ackElicit : Bool) (frames : Bytes)
    (now : ℤ) : (r.step (.send space size ackElicit frames now)).Inv := by
  cases ackElicit with
  | false =>
    refine ⟨h.inFlight, h.window, h.conserved, fun s sp hsp => ?_, h.nodup, h.again⟩
    have hold := h.below s sp hsp
    by_cases hs : s = space
    · subst hs
      simp [step]
      omega
    · simpa [step, hs] using hold
  | true =>
    refine ⟨onPacketSent_trackedBytes h.inFlight .., h.window, fun s sp => ?_, fun s sp hsp => ?_, fun s => ?_, h.again⟩
    · have hold := h.conserved s sp
      by_cases hs : s = space
      · subst hs
        simp only [LossRun.step, onPacketSent, if_true, Bool.true_eq_false, if_false,
          Function.update_self, count_append]
        omega
      · simpa [LossRun.step, onPacketSent, hs] using hold
    · by_cases hs : s = space
      · subst hs
        simp only [LossRun.step, if_true, Function.update_self, mem_append, mem_singleton] at hsp ⊢
        obtain hsp | rfl := hsp
        · exact Nat.lt_succ_of_lt (h.below s sp hsp)
        · exact Nat.lt_succ_self _
      simp only [LossRun.step, if_true, Function.update_of_ne hs] at hsp ⊢
      exact h.below s sp hsp
    by_cases hs : s = space
    · subst hs
      simp only [LossRun.step, if_true, Function.update_self]
      -- The new packet has a number above all others.
      refine nodup_append.mpr ⟨h.nodup s, nodup_singleton _, fun a ha b hb hab => ?_⟩
      have hlt := h.below s a ha
      rw [hab, mem_singleton.mp hb] at hlt
      exact lt_irrefl _ hlt
    · simpa [LossRun.step, hs] using h.nodup s

theorem Inv.step (h : r.Inv) (e : LossEvent) : (r.step e).Inv := by
  cases e with
  | send space size ackElicit frames now => exact h.send space size ackElicit frames now
  | ack space ack =>
    obtain ⟨htakes, hcwnd⟩ := r.loss.onAckReceived_takesOut space ack (r.nextPN space)
    exact h.settle htakes (h.window.trans hcwnd) rfl
  | detectLost space cutoff =>
    obtain ⟨htakes, hframes⟩ := r.loss.detectLost_takesOut space cutoff
    exact h.settle htakes (le_detectLost_cwnd h.window space cutoff) hframes
  | ptoExpired space cutoff =>
    obtain ⟨htakes, hcwnd, hframes⟩ := r.loss.ptoExpiredFrames_takesOut space cutoff
    exact h.settle htakes (h.window.trans hcwnd.ge) hframes
  | discardSpace space => exact h.settle ⟨rfl, rfl⟩ h.window rfl
  | resetForNewPath =>
    have hwindow : 2 * quicMaxPacketSize ≤ quicInitialWindow := by decide
    exact ⟨h.inFlight, hwindow, h.conserved, h.below, h.nodup, h.again⟩

theorem inv_run (es : List LossEvent) : (run es).Inv := by
  have hfrom (r : LossRun) (h : r.Inv) : (es.foldl LossRun.step r).Inv := by
    induction es generalizing r with
    | nil => exact h
    | cons e es ih => exact ih _ (h.step e)
  refine hfrom {} ⟨rfl, by decide, fun _ _ => rfl, ?_, fun _ => nodup_nil, fun _ => rfl⟩
  intro _ _ hsp
  cases hsp

/-- After any events: the bytes in flight are those of the tracked packets in flight; each
ack-eliciting packet is in one place; the frames given back are those of the packets returned; and
the window is at least two datagrams. -/
theorem loss_recovery_conserves (es : List LossEvent) : (run es).loss.bytesInFlight = (run es).loss.trackedBytes ∧
      0 ≤ (run es).loss.bytesInFlight ∧
      (∀ space, ∀ sp ∈ (run es).log space,
        ((run es).loss.sent space).count sp + ((run es).left space .acknowledged).count sp +
          ((run es).left space .returned).count sp + ((run es).left space .discarded).count sp = 1) ∧
      (∀ space sp, (sp ∈ (run es).loss.sent space ∨ ∃ fate, sp ∈ (run es).left space fate) → sp ∈ (run es).log space) ∧
      (∀ space, (run es).again space = framesOf ((run es).left space .returned)) ∧
      2 * quicMaxPacketSize ≤ (run es).loss.cwnd := by
  have h := inv_run es
  refine ⟨h.inFlight, ?_, fun space sp hsp => ?_, fun space sp hsp => ?_, h.again, h.window⟩
  · rw [h.inFlight]
    exact Int.natCast_nonneg _
  · rw [h.conserved space sp]
    exact count_eq_one_of_mem (h.nodup space) hsp
  have hcount := h.conserved space sp
  rw [← count_pos_iff] at hsp ⊢
  obtain hsp | ⟨fate, hsp⟩ := hsp
  · omega
  rw [← count_pos_iff] at hsp
  cases fate <;> omega

end LossRun
end AlosHttp.Quic

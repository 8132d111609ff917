import AlosHttp.Core.Utils
import AlosHttp.Data.Ranges
import Mathlib.Logic.Function.Basic

/-! Loss recovery and congestion control (`quic_loss.go`). The clock and the estimate of the round
trip only choose the cutoff before which a packet counts as old; cutoffs are arguments here. The
64-bit byte counters are unbounded. -/
namespace AlosHttp.Quic
open List AlosHttp.Data

inductive QuicSpace
  | initial
  | handshake
  | appData
  deriving DecidableEq

structure QuicAckRange where
  gap : ℕ
  count : ℕ
  deriving DecidableEq

structure QuicAckFrame where
  largestAck : ℕ
  ackDelay : ℕ
  firstRange : ℕ
  ranges : List QuicAckRange
  deriving DecidableEq

/-- A packet that was sent. Its frames are a sequence of symbols that loss recovery does not read: the
bytes, or whole frames. -/
structure QuicSentPacket (F : Type := UInt8) where
  pn : ℕ
  sent : ℤ
  size : ℕ
  ackElicit : Bool
  frames : List F
  inFlight : Bool
  deriving DecidableEq

def quicMaxPacketSize : ℕ := 1200
def quicInitialWindow : ℕ := 10 * quicMaxPacketSize
def quicPktThreshold : ℕ := 3
def quicMaxTrackedSent : ℕ := 16384

structure QuicLossState (F : Type := UInt8) where
  largestAcked : QuicSpace → ℤ := fun _ => -1
  sent : QuicSpace → List (QuicSentPacket F) := fun _ => []
  bytesInFlight : ℤ := 0
  cwnd : ℕ := quicInitialWindow
  ssthresh : ℕ := 2 ^ 64 - 1
  ptoCount : ℕ := 0

variable {F : Type}

def inFlightBytes (ps : List (QuicSentPacket F)) : ℕ := ((ps.filter (·.inFlight)).map (·.size)).sum

def framesOf (ps : List (QuicSentPacket F)) : List (List F) := (ps.map (·.frames)).filter (· ≠ [])

def errQUICAckUnsentPacket : String := "ACK of a packet number that was never sent"

namespace QuicLossState

def onPacketSent (ls : QuicLossState F) (space : QuicSpace) (pn size : ℕ) (ackElicit : Bool) (frames : List F)
    (now : ℤ) : QuicLossState F :=
  if ackElicit = false then ls
  else
    let sp : QuicSentPacket F := { pn, sent := now, size, ackElicit, frames, inFlight := ackElicit }
    { ls with
      sent := Function.update ls.sent space (ls.sent space ++ [sp])
      bytesInFlight := ls.bytesInFlight + size }

/-- The loop over a space's packets that four functions have: those that are `gone` leave the list
and the bytes in flight. -/
def takeOut (ls : QuicLossState F) (space : QuicSpace) (gone : QuicSentPacket F → Bool) : QuicLossState F :=
  { ls with
    sent := Function.update ls.sent space ((ls.sent space).filter fun sp => !gone sp)
    bytesInFlight := ls.bytesInFlight - inFlightBytes ((ls.sent space).filter gone) }

def markAcked (space : QuicSpace) (t : QuicLossState F × ℕ) (lo hi : ℕ) : QuicLossState F × ℕ :=
  let acked (sp : QuicSentPacket F) : Bool := sp.pn ≥ lo ∧ sp.pn ≤ hi
  (t.1.takeOut space acked, t.2 + inFlightBytes ((t.1.sent space).filter acked))

def markRanges (space : QuicSpace) : QuicLossState F × ℕ → ℕ → List QuicAckRange → QuicLossState F × ℕ
  | t, _, [] => t
  | t, lo, r :: rs =>
    if lo < r.gap + 2 then t
    else
      let hi := lo - r.gap - 2
      if hi < r.count then t
      else markRanges space (markAcked space t (hi - r.count) hi) (hi - r.count) rs

def growWindow (ls : QuicLossState F) (ackedInFlight : ℕ) : QuicLossState F :=
  if ackedInFlight > 0 then
    if ls.cwnd < ls.ssthresh then { ls with cwnd := ls.cwnd + ackedInFlight }
    else { ls with cwnd := ls.cwnd + quicMaxPacketSize * ackedInFlight / ls.cwnd }
  else ls

def onAckReceived (ls : QuicLossState F) (space : QuicSpace) (ack : QuicAckFrame) (nextPN : ℕ) :
    QuicLossState F × Except String Bool :=
  if ack.firstRange > ack.largestAck then (ls, .ok false)
  else if ack.largestAck ≥ nextPN then (ls, .error errQUICAckUnsentPacket)
  else
    let largest : ℤ := ack.largestAck
    let largestAcked := if largest > ls.largestAcked space then largest else ls.largestAcked space
    let lo := ack.largestAck - ack.firstRange
    let t := markAcked space ({ ls with largestAcked := Function.update ls.largestAcked space largestAcked }, 0)
      lo ack.largestAck
    let t := markRanges space t lo ack.ranges
    let ls := { t.1.growWindow t.2 with ptoCount := 0 }
    (ls, .ok ((ls.sent space).head?.any fun sp => sp.pn ≤ largestAcked))

def discardSpace (ls : QuicLossState F) (space : QuicSpace) : QuicLossState F := ls.takeOut space fun _ => true

def isLost (ls : QuicLossState F) (space : QuicSpace) (cutoff : ℤ) (sp : QuicSentPacket F) : Bool :=
  let threshold := if (ls.largestAcked space).toNat + 1 > quicPktThreshold then
    (ls.largestAcked space).toNat - quicPktThreshold + 1 else 0
  (sp.pn : ℤ) ≤ ls.largestAcked space ∧ (sp.pn < threshold ∨ sp.sent < cutoff)

def detectLost (ls : QuicLossState F) (space : QuicSpace) (cutoff : ℤ) : QuicLossState F × List (List F) :=
  if ls.largestAcked space < 0 then (ls, [])
  else
    let lost := (ls.sent space).filter (ls.isLost space cutoff)
    let out := ls.takeOut space (ls.isLost space cutoff)
    let ssthresh := if ls.cwnd / 2 < 2 * quicMaxPacketSize then 2 * quicMaxPacketSize else ls.cwnd / 2
    (if lost.any (·.inFlight) then { out with ssthresh, cwnd := ssthresh } else out, framesOf lost)

def resetForNewPath (ls : QuicLossState F) : QuicLossState F :=
  { ls with cwnd := quicInitialWindow, ssthresh := 2 ^ 64 - 1, ptoCount := 0 }

def canSend (ls : QuicLossState F) : Bool :=
  ls.bytesInFlight < ls.cwnd ∧ (ls.sent .appData).length < quicMaxTrackedSent

def isOld (cutoff : ℤ) (sp : QuicSentPacket F) : Bool := sp.ackElicit ∧ sp.sent < cutoff

def ptoExpiredFrames (ls : QuicLossState F) (space : QuicSpace) (cutoff : ℤ) : QuicLossState F × List (List F) :=
  match ls.sent space with
  | [] => (ls, [])
  | first :: _ =>
    if first.sent ≥ cutoff then (ls, [])
    else
      let frames := framesOf ((ls.sent space).filter (isOld cutoff))
      let out := ls.takeOut space (isOld cutoff)
      (if frames ≠ [] then { out with ptoCount := ls.ptoCount + 1 } else out, frames)

end QuicLossState

/-! ### What the functions take out -/

@[simp] theorem inFlightBytes_nil : inFlightBytes ([] : List (QuicSentPacket F)) = 0 := rfl

@[simp] theorem inFlightBytes_cons (sp : QuicSentPacket F) (ps : List (QuicSentPacket F)) :
    inFlightBytes (sp :: ps) = (if sp.inFlight then sp.size else 0) + inFlightBytes ps := by
  unfold inFlightBytes
  rw [filter_cons]
  split_ifs <;> simp

@[simp] theorem inFlightBytes_append (ps qs : List (QuicSentPacket F)) :
    inFlightBytes (ps ++ qs) = inFlightBytes ps + inFlightBytes qs := by
  unfold inFlightBytes
  rw [filter_append, map_append, sum_append]

theorem inFlightBytes_filter_add (gone : QuicSentPacket F → Bool) (ps : List (QuicSentPacket F)) :
    inFlightBytes (ps.filter gone) + inFlightBytes (ps.filter fun sp => !gone sp) = inFlightBytes ps := by
  induction ps with
  | nil => rfl
  | cons sp ps ih =>
    cases h : gone sp
    · rw [filter_cons_of_neg (by simp [h]), filter_cons_of_pos (by simp [h])]
      simp only [inFlightBytes_cons]
      omega
    rw [filter_cons_of_pos h, filter_cons_of_neg (by simp [h])]
    simp only [inFlightBytes_cons]
    omega

theorem inFlightBytes_filter_or (g h : QuicSentPacket F → Bool) (ps : List (QuicSentPacket F)) :
    inFlightBytes (ps.filter g) + inFlightBytes ((ps.filter fun sp => !g sp).filter h) =
      inFlightBytes (ps.filter fun sp => g sp || h sp) := by
  have hleft : (ps.filter fun sp => !g sp).filter (fun sp => !h sp) = ps.filter fun sp => !(g sp || h sp) := by
    rw [filter_filter]
    congr 1
    funext sp
    rw [Bool.not_or, Bool.and_comm]
  have hboth := inFlightBytes_filter_add (fun sp => g sp || h sp) ps
  have hfirst := inFlightBytes_filter_add g ps
  have hsecond := inFlightBytes_filter_add h (ps.filter fun sp => !g sp)
  rw [hleft] at hsecond
  omega

/-- The ranges below `lo` that an ACK frame's gaps and counts give. -/
def rangesBelow : ℕ → List QuicAckRange → List Range
  | _, [] => []
  | lo, r :: rs =>
    if lo < r.gap + 2 then []
    else if lo - r.gap - 2 < r.count then []
    else ⟨lo - r.gap - 2 - r.count, lo - r.gap - 2⟩ :: rangesBelow (lo - r.gap - 2 - r.count) rs

def QuicAckFrame.acks (ack : QuicAckFrame) : List Range :=
  ⟨ack.largestAck - ack.firstRange, ack.largestAck⟩ :: rangesBelow (ack.largestAck - ack.firstRange) ack.ranges

def inRanges (rs : List Range) (sp : QuicSentPacket F) : Bool := Range.Mem rs sp.pn

namespace QuicLossState
variable (ls : QuicLossState F) (space : QuicSpace)

@[simp] theorem takeOut_sent_self (gone : QuicSentPacket F → Bool) :
    (ls.takeOut space gone).sent space = (ls.sent space).filter fun sp => !gone sp :=
  Function.update_self ..

theorem takeOut_none : (ls.takeOut space fun _ => false) = ls := by
  have hall : ((ls.sent space).filter fun _ => !false) = ls.sent space := filter_true _
  have hnone : ((ls.sent space).filter fun _ => false) = [] := filter_false _
  rw [takeOut, hall, hnone, Function.update_eq_self, inFlightBytes_nil, Nat.cast_zero, sub_zero]

theorem takeOut_takeOut (g h : QuicSentPacket F → Bool) :
    (ls.takeOut space g).takeOut space h = ls.takeOut space fun sp => g sp || h sp := by
  have hbytes := inFlightBytes_filter_or g h (ls.sent space)
  have hsent : ((ls.sent space).filter fun sp => !g sp).filter (fun sp => !h sp) =
      (ls.sent space).filter fun sp => !(g sp || h sp) := by
    rw [filter_filter]
    congr 1
    funext sp
    rw [Bool.not_or, Bool.and_comm]
  rw [takeOut, takeOut_sent_self, hsent]
  simp only [takeOut, Function.update_idem]
  congr 1
  omega

def acknowledge (space : QuicSpace) (t : QuicLossState F × ℕ) (rs : List Range) : QuicLossState F × ℕ :=
  (t.1.takeOut space (inRanges rs), t.2 + inFlightBytes ((t.1.sent space).filter (inRanges rs)))

variable (t : QuicLossState F × ℕ)

theorem acknowledge_nil : acknowledge space t [] = t := by
  have hnone : inRanges [] = fun _ : QuicSentPacket F => false := by
    funext sp
    simp [inRanges]
  rw [acknowledge, hnone, takeOut_none, filter_false, inFlightBytes_nil, add_zero]

theorem acknowledge_append (rs ss : List Range) :
    acknowledge space (acknowledge space t rs) ss = acknowledge space t (rs ++ ss) := by
  have hor : inRanges (rs ++ ss) = fun sp : QuicSentPacket F => inRanges rs sp || inRanges ss sp := by
    funext sp
    simp [inRanges]
  simp only [acknowledge, takeOut_takeOut, takeOut_sent_self, hor]
  rw [add_assoc, inFlightBytes_filter_or]

theorem markAcked_eq (lo hi : ℕ) : markAcked space t lo hi = acknowledge space t [⟨lo, hi⟩] := by
  have hin : (fun sp : QuicSentPacket F => decide (sp.pn ≥ lo ∧ sp.pn ≤ hi)) = inRanges [⟨lo, hi⟩] := by
    funext sp
    simp [inRanges]
  rw [markAcked, hin, acknowledge]

theorem markRanges_eq (rs : List QuicAckRange) : ∀ (t : QuicLossState F × ℕ) (lo : ℕ),
    markRanges space t lo rs = acknowledge space t (rangesBelow lo rs) := by
  induction rs with
  | nil => exact fun t _ => (acknowledge_nil space t).symm
  | cons r rs ih =>
    intro t lo
    rw [markRanges, rangesBelow]
    dsimp only
    split_ifs
    · exact (acknowledge_nil space t).symm
    · exact (acknowledge_nil space t).symm
    · rw [ih, markAcked_eq, acknowledge_append, singleton_append]

@[simp] theorem growWindow_sent (n : ℕ) : (ls.growWindow n).sent = ls.sent := by
  unfold growWindow
  split_ifs <;> rfl

@[simp] theorem growWindow_bytesInFlight (n : ℕ) : (ls.growWindow n).bytesInFlight = ls.bytesInFlight := by
  unfold growWindow
  split_ifs <;> rfl

theorem le_growWindow_cwnd {ls : QuicLossState F} {m n : ℕ} (h : m ≤ ls.cwnd) : m ≤ (ls.growWindow n).cwnd := by
  unfold growWindow
  split_ifs
  · exact h.trans (Nat.le_add_right _ _)
  · exact h.trans (Nat.le_add_right _ _)
  · exact h

/-- The packets that are `gone` have left their space, and nothing else has changed but the window,
the threshold and what the next cutoffs depend on. -/
structure TakesOut (ls ls' : QuicLossState F) (space : QuicSpace) (gone : QuicSentPacket F → Bool) : Prop where
  sent : ls'.sent = (ls.takeOut space gone).sent
  bytesInFlight : ls'.bytesInFlight = (ls.takeOut space gone).bytesInFlight

/-- The frame says something: it is neither dropped nor an error. -/
def Applies (ack : QuicAckFrame) (nextPN : ℕ) : Prop := ack.firstRange ≤ ack.largestAck ∧ ack.largestAck < nextPN

instance (ack : QuicAckFrame) (nextPN : ℕ) : Decidable (Applies ack nextPN) := inferInstanceAs (Decidable (_ ∧ _))

theorem onAckReceived_applies {ack : QuicAckFrame} {nextPN : ℕ} (h : Applies ack nextPN) (ls : QuicLossState F)
    (space : QuicSpace) :
    TakesOut ls (ls.onAckReceived space ack nextPN).1 space (inRanges ack.acks) ∧
      ls.cwnd ≤ (ls.onAckReceived space ack nextPN).1.cwnd ∧
      ∃ lossPossible, (ls.onAckReceived space ack nextPN).2 = .ok lossPossible := by
  obtain ⟨hfirst, hlargest⟩ := h
  rw [onAckReceived, if_neg (not_lt.mpr hfirst), if_neg (not_le.mpr hlargest)]
  dsimp only
  rw [markRanges_eq, markAcked_eq, acknowledge_append, singleton_append]
  refine ⟨⟨growWindow_sent .., growWindow_bytesInFlight ..⟩, ?_, _, rfl⟩
  exact le_growWindow_cwnd (le_refl ls.cwnd)

theorem onAckReceived_ignored {ack : QuicAckFrame} {nextPN : ℕ} (h : ¬ Applies ack nextPN) (ls : QuicLossState F)
    (space : QuicSpace) : (ls.onAckReceived space ack nextPN).1 = ls := by
  rw [onAckReceived]
  split_ifs with hfirst hlargest
  · rfl
  · rfl
  · exact absurd ⟨Nat.le_of_not_lt hfirst, Nat.lt_of_not_le hlargest⟩ h

end QuicLossState
end AlosHttp.Quic

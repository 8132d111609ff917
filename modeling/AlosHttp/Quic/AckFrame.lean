import AlosHttp.Quic.Varint
import AlosHttp.Quic.Loss

/-! ACK frames: built from the received ranges, parsed, and applied to the packets sent. -/
namespace AlosHttp.Quic
open List AlosHttp.Data

def quicFrameACK : ℕ := 0x02
def quicFrameACKECN : ℕ := 0x03

def sub64 (a b : ℕ) : ℕ := (a + 2 ^ 64 - b % 2 ^ 64) % 2 ^ 64

/-- The ranges behind the first one, each as the gap before it and its length. -/
def appendRanges : ℕ → List Range → Bytes
  | _, [] => []
  | prevLo, r :: rs =>
    quicAppendVarint (sub64 (sub64 prevLo r.hi) 2) ++ quicAppendVarint (sub64 r.hi r.lo) ++ appendRanges r.lo rs

def quicAppendACKFrameRanges (ackDelay : ℕ) : List Range → Bytes
  | [] => []
  | r :: rs =>
    quicAppendVarint quicFrameACK ++ quicAppendVarint r.hi ++ quicAppendVarint ackDelay ++
      quicAppendVarint rs.length ++ quicAppendVarint (sub64 r.hi r.lo) ++ appendRanges r.lo rs

def readRanges : ℕ → Bytes → Option (List QuicAckRange × Bytes)
  | 0, data => some ([], data)
  | n + 1, data => do
    let (gap, data) ← readVarint data
    let (count, data) ← readVarint data
    let (ranges, data) ← readRanges n data
    some (⟨gap, count⟩ :: ranges, data)

/-- `parseACK` behind the frame type; `none` is `ErrTruncated`. -/
def parseACK (ecn : Bool) (data : Bytes) : Option (QuicAckFrame × Bytes) := do
  let (largestAck, data) ← readVarint data
  let (ackDelay, data) ← readVarint data
  let (rangeCount, data) ← readVarint data
  let (firstRange, data) ← readVarint data
  if rangeCount > 0 ∧ (rangeCount > 256 ∨ rangeCount > data.length) then none
  else
    let (ranges, data) ← readRanges rangeCount data
    let frame := { largestAck, ackDelay, firstRange, ranges }
    if ecn then
      let (_, data) ← readVarint data
      let (_, data) ← readVarint data
      let (_, data) ← readVarint data
      some (frame, data)
    else some (frame, data)

/-- An ACK frame at the front of a packet's frames, type included, as `quicParseFrames` reads it. -/
def parseACKFrame (data : Bytes) : Option (QuicAckFrame × Bytes) := do
  let (frameType, data) ← readVarint data
  if frameType = quicFrameACK ∨ frameType = quicFrameACKECN then parseACK (frameType = quicFrameACKECN) data else none

theorem sub64_eq {a b : ℕ} (hb : b ≤ a) (ha : a < 2 ^ 64) : sub64 a b = a - b := by
  unfold sub64
  omega

/-- The gaps and lengths that stand for the ranges below `prevLo`. -/
def gapsBelow : ℕ → List Range → List QuicAckRange
  | _, [] => []
  | prevLo, r :: rs => ⟨prevLo - r.hi - 2, r.hi - r.lo⟩ :: gapsBelow r.lo rs

structure Below (prevLo : ℕ) (rs : List Range) : Prop where
  bound : prevLo < 2 ^ 62
  canonical : Range.Canonical rs
  apart : ∀ r ∈ rs, r.hi + 1 < prevLo

theorem Below.cons {prevLo : ℕ} {r : Range} {rs : List Range} (h : Below prevLo (r :: rs)) :
    r.hi + 2 ≤ prevLo ∧ r.lo ≤ r.hi ∧ Below r.lo rs := by
  obtain ⟨hle, hap, hrs⟩ := Range.canonical_cons.mp h.canonical
  have hr := h.apart r mem_cons_self
  have hb := h.bound
  exact ⟨hr, hle, by omega, hrs, hap⟩

theorem readRanges_append {rs : List Range} (rest : Bytes) : ∀ {prevLo : ℕ}, Below prevLo rs →
    readRanges rs.length (appendRanges prevLo rs ++ rest) = some (gapsBelow prevLo rs, rest) := by
  induction rs with
  | nil => exact fun _ => rfl
  | cons r rs ih =>
    intro prevLo h
    obtain ⟨_, hle, hbelow⟩ := h.cons
    have hb := h.bound
    have hsub : sub64 (sub64 prevLo r.hi) 2 = prevLo - r.hi - 2 := by
      rw [sub64_eq (show r.hi ≤ prevLo by omega) (by omega), sub64_eq (by omega) (by omega)]
    rw [appendRanges, hsub, sub64_eq hle (by omega), append_assoc, append_assoc]
    simp only [length_cons, readRanges, readVarint_append (show prevLo - r.hi - 2 < 2 ^ 62 by omega),
      readVarint_append (show r.hi - r.lo < 2 ^ 62 by omega), ih hbelow, Option.bind_eq_bind, Option.bind_some,
      gapsBelow]

theorem rangesBelow_gapsBelow {rs : List Range} : ∀ {prevLo : ℕ}, Below prevLo rs →
    rangesBelow prevLo (gapsBelow prevLo rs) = rs := by
  induction rs with
  | nil => exact fun _ => rfl
  | cons r rs ih =>
    intro prevLo h
    obtain ⟨_, _, hbelow⟩ := h.cons
    have hhi : prevLo - (prevLo - r.hi - 2) - 2 = r.hi := by omega
    have hlo : r.hi - (r.hi - r.lo) = r.lo := by omega
    rw [gapsBelow, rangesBelow, if_neg (by dsimp only; omega), if_neg (by dsimp only; omega)]
    rw [hhi, hlo, ih hbelow]

theorem length_le_appendRanges (rs : List Range) : ∀ prevLo, rs.length ≤ (appendRanges prevLo rs).length := by
  induction rs with
  | nil => exact fun _ => le_refl _
  | cons r rs ih =>
    intro prevLo
    have hpos := length_quicAppendVarint_pos (sub64 r.hi r.lo)
    have hrest := ih r.lo
    simp only [appendRanges, length_cons, length_append]
    omega

section
variable {r : Range} {rs : List Range} (hvalid : Range.Canonical (r :: rs)) (hbound : r.hi < 2 ^ 62)

include hvalid hbound

theorem below_of_canonical : Below r.lo rs := by
  obtain ⟨_, hap, hrs⟩ := Range.canonical_cons.mp hvalid
  exact ⟨by omega, hrs, hap⟩

variable {ackDelay : ℕ} (hdelay : ackDelay < 2 ^ 62) (rest : Bytes)

include hdelay

theorem parseACKFrame_append (hcount : rs.length ≤ 256) :
    parseACKFrame (quicAppendACKFrameRanges ackDelay (r :: rs) ++ rest) =
      some (⟨r.hi, ackDelay, r.hi - r.lo, gapsBelow r.lo rs⟩, rest) := by
  have hbelow := below_of_canonical hvalid hbound
  have hle := (Range.canonical_cons.mp hvalid).1
  have hlen : ¬ (rs.length > 0 ∧ (rs.length > 256 ∨ rs.length > (appendRanges r.lo rs ++ rest).length)) := by
    have := length_le_appendRanges rs r.lo
    rw [length_append]
    omega
  simp only [quicAppendACKFrameRanges, append_assoc, sub64_eq hle (by omega), parseACKFrame,
    parseACK, readVarint_append (show quicFrameACK < 2 ^ 62 by decide), readVarint_append hbound,
    readVarint_append hdelay, readVarint_append (show rs.length < 2 ^ 62 by omega),
    readVarint_append (show r.hi - r.lo < 2 ^ 62 by omega), Option.bind_eq_bind, Option.bind_some, true_or, if_true,
    if_neg hlen, readRanges_append rest hbelow]
  rfl

theorem parseACKFrame_too_long (hcount : 256 < rs.length) (hlength : rs.length < 2 ^ 62) :
    parseACKFrame (quicAppendACKFrameRanges ackDelay (r :: rs) ++ rest) = none := by
  have hle := (Range.canonical_cons.mp hvalid).1
  have hlen : rs.length > 0 ∧ (rs.length > 256 ∨ rs.length > (appendRanges r.lo rs ++ rest).length) :=
    ⟨by omega, .inl hcount⟩
  simp only [quicAppendACKFrameRanges, append_assoc, sub64_eq hle (by omega), parseACKFrame,
    parseACK, readVarint_append (show quicFrameACK < 2 ^ 62 by decide), readVarint_append hbound,
    readVarint_append hdelay, readVarint_append hlength,
    readVarint_append (show r.hi - r.lo < 2 ^ 62 by omega), Option.bind_eq_bind, Option.bind_some, true_or, if_true,
    if_pos hlen]

end

/-- An ACK frame for up to 257 ranges is read back as these ranges, and acknowledges the packets
whose numbers lie in them and no others. -/
theorem ack_round_trip {ranges : List Range} (hne : ranges ≠ []) (hvalid : Range.Canonical ranges)
    (hbound : ∀ r ∈ ranges, r.hi < 2 ^ 62) (hcount : ranges.length ≤ 257) {ackDelay : ℕ} (hdelay : ackDelay < 2 ^ 62)
    (rest : Bytes) (ls : QuicLossState) (space : QuicSpace) {nextPN : ℕ} (hsent : ∀ r ∈ ranges, r.hi < nextPN) :
    ∃ f, parseACKFrame (quicAppendACKFrameRanges ackDelay ranges ++ rest) = some (f, rest) ∧ f.acks = ranges ∧
      (∃ lossPossible, (ls.onAckReceived space f nextPN).2 = .ok lossPossible) ∧
      (ls.onAckReceived space f nextPN).1.sent space = (ls.sent space).filter (fun sp => ¬ Range.Mem ranges sp.pn) ∧
      (∀ other, other ≠ space → (ls.onAckReceived space f nextPN).1.sent other = ls.sent other) ∧
      (ls.onAckReceived space f nextPN).1.bytesInFlight =
        ls.bytesInFlight - inFlightBytes ((ls.sent space).filter fun sp => Range.Mem ranges sp.pn) := by
  obtain ⟨r, rs, rfl⟩ := exists_cons_of_ne_nil hne
  have hr := hbound r mem_cons_self
  have hle := (Range.canonical_cons.mp hvalid).1
  have hbelow := below_of_canonical hvalid hr
  have hacks : QuicAckFrame.acks ⟨r.hi, ackDelay, r.hi - r.lo, gapsBelow r.lo rs⟩ = r :: rs := by
    have hlo : r.hi - (r.hi - r.lo) = r.lo := by omega
    rw [QuicAckFrame.acks]
    rw [hlo, rangesBelow_gapsBelow hbelow]
  have happlies : QuicLossState.Applies ⟨r.hi, ackDelay, r.hi - r.lo, gapsBelow r.lo rs⟩ nextPN :=
    ⟨Nat.sub_le _ _, hsent r mem_cons_self⟩
  obtain ⟨htakes, -, hok⟩ := QuicLossState.onAckReceived_applies happlies ls space
  rw [hacks] at htakes
  refine ⟨_, parseACKFrame_append hvalid hr hdelay rest (Nat.le_of_succ_le_succ hcount), hacks, hok, ?_, ?_, ?_⟩
  · rw [htakes.sent, QuicLossState.takeOut_sent_self]
    exact filter_congr fun sp _ => (decide_not).symm
  · intro other hother
    rw [htakes.sent]
    exact Function.update_of_ne hother ..
  rw [htakes.bytesInFlight]
  rfl

theorem ack_round_trip_two_ranges :
    let ls : QuicLossState :=
      { sent := fun _ => [⟨3, 0, 100, true, [1], true⟩, ⟨5, 0, 200, true, [2], true⟩, ⟨8, 0, 50, true, [], true⟩]
        bytesInFlight := 700 }
    ∃ f, parseACKFrame (quicAppendACKFrameRanges 0 [⟨7, 9⟩, ⟨2, 4⟩] ++ [1]) = some (f, [1]) ∧
      (ls.onAckReceived .appData f 10).1.sent .appData = [⟨5, 0, 200, true, [2], true⟩] ∧
      (ls.onAckReceived .appData f 10).1.bytesInFlight = 550 := by
  intro ls
  have hsent : ∀ r ∈ ([⟨7, 9⟩, ⟨2, 4⟩] : List Range), r.hi < 10 := by decide
  obtain ⟨f, hf, -, -, hkept, -, hbytes⟩ := ack_round_trip (by decide) (by decide) (by decide) (by decide)
    (show 0 < 2 ^ 62 by decide) [1] ls .appData hsent
  exact ⟨f, hf, hkept.trans (by decide), hbytes.trans (by decide)⟩

def everySecond : ℕ → List Range
  | 0 => [⟨0, 0⟩]
  | n + 1 => ⟨2 * (n + 1), 2 * (n + 1)⟩ :: everySecond n

theorem everySecond_spec (n : ℕ) :
    Range.Canonical (everySecond n) ∧ (everySecond n).length = n + 1 ∧ ∀ r ∈ everySecond n, r.hi ≤ 2 * n := by
  induction n with
  | zero => exact ⟨by decide, rfl, by decide⟩
  | succ n ih =>
    obtain ⟨hcan, hlen, hle⟩ := ih
    refine ⟨Range.canonical_cons.mpr ⟨le_refl _, fun r hr => ?_, hcan⟩, congrArg (· + 1) hlen, ?_⟩
    · have := hle r hr
      dsimp only
      omega
    refine forall_mem_cons.mpr ⟨le_refl _, fun r hr => ?_⟩
    have := hle r hr
    omega

theorem ack_many_ranges_rejected : Range.Canonical (everySecond 257) ∧ (∀ r ∈ everySecond 257, r.hi < 2 ^ 62) ∧
      parseACKFrame (quicAppendACKFrameRanges 0 (everySecond 257)) = none := by
  obtain ⟨hcan, -, hle⟩ := everySecond_spec 257
  have hbound : ∀ r ∈ everySecond 257, r.hi < 2 ^ 62 := fun r hr => lt_of_le_of_lt (hle r hr) (by decide)
  have hlen := (everySecond_spec 256).2.1
  have hcons := hcan
  have hnone := parseACKFrame_too_long hcons (by decide) (show 0 < 2 ^ 62 by decide) []
    (by rw [hlen]; decide) (by rw [hlen]; decide)
  rw [append_nil] at hnone
  exact ⟨hcan, hbound, hnone⟩

end AlosHttp.Quic

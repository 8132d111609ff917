import AlosHttp.Quic.AckFrame
import AlosHttp.Quic.SendStream

/-! The frames of a packet: the builders that append them and the parser that hands them to the
connection. -/
namespace AlosHttp.Quic
open List AlosHttp.Data

def quicFramePadding : ℕ := 0x00
def quicFramePing : ℕ := 0x01
def quicFrameCrypto : ℕ := 0x06
def quicFrameNewToken : ℕ := 0x07
def quicFrameStreamEnd : ℕ := 0x0f
def quicFrameMaxData : ℕ := 0x10
def quicFrameMaxStreamData : ℕ := 0x11
def quicFrameMaxStreamsBidi : ℕ := 0x12
def quicFrameMaxStreamsUni : ℕ := 0x13
def quicFrameDataBlocked : ℕ := 0x14
def quicFrameStreamsBlockBidi : ℕ := 0x16
def quicFrameStreamsBlockUni : ℕ := 0x17
def quicFrameNewConnID : ℕ := 0x18
def quicFrameRetireConnID : ℕ := 0x19
def quicFramePathChallenge : ℕ := 0x1a
def quicFramePathResponse : ℕ := 0x1b
def quicFrameConnClose : ℕ := 0x1c
def quicFrameAppClose : ℕ := 0x1d
def quicFrameHandshakeDone : ℕ := 0x1e

def quicStreamFlagOff : ℕ := 0x04
def quicStreamFlagLen : ℕ := 0x02
def quicStreamFlagFin : ℕ := 0x01

def quicStatelessResetTokenLen : ℕ := 16
def quicPathChallengeLen : ℕ := 8

def putUint16 (v : ℕ) : Bytes := [.ofNat (v >>> 8), .ofNat v]
def putUint32 (v : ℕ) : Bytes := [.ofNat (v >>> 24), .ofNat (v >>> 16), .ofNat (v >>> 8), .ofNat v]

/-- The bytes that stand at the front of `dst` afterwards, and their number. `none` is a `dst` that is
too short. -/
def quicPutVarint (dst : Bytes) (v : ℕ) : Option (Bytes × ℕ) :=
  let bytes : Bytes :=
    if v < 64 then [.ofNat v]
    else if v < 16384 then putUint16 (0x4000 ||| v)
    else if v < 1073741824 then putUint32 (0x80000000 ||| v)
    else putUint64 (0xc000000000000000 ||| v)
  if dst.length < bytes.length then none else some (bytes ++ dst.drop bytes.length, bytes.length)

def quicAppendCryptoFrame (offset : ℕ) (data : Bytes) : Bytes :=
  quicAppendVarint quicFrameCrypto ++ quicAppendVarint offset ++ quicAppendVarint data.length ++ data

def quicAppendACKFrame (largestAck ackDelay firstRange : ℕ) : Bytes :=
  quicAppendVarint quicFrameACK ++ quicAppendVarint largestAck ++ quicAppendVarint ackDelay ++ quicAppendVarint 0 ++
    quicAppendVarint firstRange

def quicAppendMaxDataFrame (maxData : ℕ) : Bytes := quicAppendVarint quicFrameMaxData ++ quicAppendVarint maxData

def quicAppendMaxStreamDataFrame (streamID maxStreamData : ℕ) : Bytes :=
  quicAppendVarint quicFrameMaxStreamData ++ quicAppendVarint streamID ++ quicAppendVarint maxStreamData

def quicAppendMaxStreamsFrame (maxStreams : ℕ) (bidi : Bool) : Bytes :=
  quicAppendVarint (if bidi then quicFrameMaxStreamsBidi else quicFrameMaxStreamsUni) ++ quicAppendVarint maxStreams

def quicAppendAppCloseFrame (errorCode : ℕ) (reason : Bytes) : Bytes :=
  quicAppendVarint quicFrameAppClose ++ quicAppendVarint errorCode ++ quicAppendVarint reason.length ++ reason

def quicAppendHandshakeDoneFrame : Bytes := quicAppendVarint quicFrameHandshakeDone

def quicAppendConnCloseFrame (errorCode frameType : ℕ) (reason : Bytes) : Bytes :=
  quicAppendVarint quicFrameConnClose ++ quicAppendVarint errorCode ++ quicAppendVarint frameType ++
    quicAppendVarint reason.length ++ reason

def quicAppendNewConnIDFrame (seq retirePriorTo : ℕ) (cid token : Bytes) : Bytes :=
  quicAppendVarint quicFrameNewConnID ++ quicAppendVarint seq ++ quicAppendVarint retirePriorTo ++
    [.ofNat cid.length] ++ cid ++ token

def quicAppendRetireConnIDFrame (seq : ℕ) : Bytes := quicAppendVarint quicFrameRetireConnID ++ quicAppendVarint seq

def quicAppendPathFrame (frameType : ℕ) (data : Bytes) : Bytes := quicAppendVarint frameType ++ data

inductive Visit
  | padding
  | ping
  | ack (f : QuicAckFrame)
  | crypto (offset : ℕ) (data : Bytes)
  | stream (streamID offset : ℕ) (data : Bytes) (fin : Bool)
  | maxData (maxData : ℕ)
  | maxStreamData (streamID maxStreamData : ℕ)
  | maxStreams (maxStreams : ℕ) (bidi : Bool)
  | resetStream (streamID errorCode finalSize : ℕ)
  | stopSending (streamID errorCode : ℕ)
  | retireConnID (seq : ℕ)
  | pathChallenge (data : Bytes)
  | pathResponse (data : Bytes)
  | connClose (errorCode frameType : ℕ) (reasonPhrase : Bytes) (isApp : Bool)
  | handshakeDone
  | newConnID (f : QuicNewConnIDFrame)
  | newToken (token : Bytes)
  deriving DecidableEq

inductive FrameErr
  | truncated
  | notAllowedInSpace
  | unknownFrame
  deriving DecidableEq

def readBytes (n : ℕ) (data : Bytes) : Option (Bytes × Bytes) :=
  if data.length < n then none else some (data.take n, data.drop n)

def parseStream (flags : ℕ) (data : Bytes) : Option (Visit × Bytes) := do
  let (streamID, data) ← readVarint data
  let (offset, data) ← if flags &&& quicStreamFlagOff ≠ 0 then readVarint data else some (0, data)
  let (payload, data) ←
    if flags &&& quicStreamFlagLen ≠ 0 then do
      let (length, data) ← readVarint data
      readBytes length data
    else some (data, [])
  some (.stream streamID offset payload (flags &&& quicStreamFlagFin ≠ 0), data)

def parseConnClose (isApp : Bool) (data : Bytes) : Option (Visit × Bytes) := do
  let (errorCode, data) ← readVarint data
  let (frameType, data) ← if isApp then some (0, data) else readVarint data
  let (reasonLen, data) ← readVarint data
  let (reason, data) ← readBytes reasonLen data
  some (.connClose errorCode frameType reason isApp, data)

def parseNewConnID (data : Bytes) : Option (Visit × Bytes) := do
  let (seq, data) ← readVarint data
  let (retirePT, data) ← readVarint data
  let (cidLenByte, data) ← readBytes 1 data
  let cidLen := (cidLenByte.headD 0).toNat
  if cidLen > 20 then none
  else
    let (connID, data) ← readBytes cidLen data
    let (resetToken, data) ← readBytes quicStatelessResetTokenLen data
    some (.newConnID { seq, retirePT, connID, resetToken }, data)

def orTruncated {α : Type} : Option α → Except FrameErr α
  | some a => .ok a
  | none => .error .truncated

/-- The switch over the frame type: the call of the visitor, if the type has one, and the bytes behind
the frame. -/
def parseFrame (frameType : ℕ) (data : Bytes) : Except FrameErr (Option Visit × Bytes) :=
  if frameType = quicFramePing then .ok (some .ping, data)
  else if frameType = quicFrameACK ∨ frameType = quicFrameACKECN then orTruncated do
    let (f, data) ← parseACK (frameType = quicFrameACKECN) data
    some (some (.ack f), data)
  else if frameType = quicFrameCrypto then orTruncated do
    let (offset, data) ← readVarint data
    let (length, data) ← readVarint data
    let (payload, data) ← readBytes length data
    some (some (.crypto offset payload), data)
  else if quicFrameStream ≤ frameType ∧ frameType ≤ quicFrameStreamEnd then orTruncated do
    let (v, data) ← parseStream frameType data
    some (some v, data)
  else if frameType = quicFrameMaxData then orTruncated do
    let (maxData, data) ← readVarint data
    some (some (.maxData maxData), data)
  else if frameType = quicFrameMaxStreamData then orTruncated do
    let (sid, data) ← readVarint data
    let (max, data) ← readVarint data
    some (some (.maxStreamData sid max), data)
  else if frameType = quicFrameMaxStreamsBidi ∨ frameType = quicFrameMaxStreamsUni then orTruncated do
    let (max, data) ← readVarint data
    some (some (.maxStreams max (frameType = quicFrameMaxStreamsBidi)), data)
  else if frameType = quicFrameConnClose ∨ frameType = quicFrameAppClose then orTruncated do
    let (v, data) ← parseConnClose (frameType = quicFrameAppClose) data
    some (some v, data)
  else if frameType = quicFrameHandshakeDone then .ok (some .handshakeDone, data)
  else if frameType = quicFrameNewConnID then orTruncated do
    let (v, data) ← parseNewConnID data
    some (some v, data)
  else if frameType = quicFrameNewToken then orTruncated do
    let (length, data) ← readVarint data
    let (token, data) ← readBytes length data
    some (some (.newToken token), data)
  else if frameType = quicFrameResetStream then orTruncated do
    let (streamID, data) ← readVarint data
    let (errorCode, data) ← readVarint data
    let (finalSize, data) ← readVarint data
    some (some (.resetStream streamID errorCode finalSize), data)
  else if frameType = quicFrameStopSending then orTruncated do
    let (streamID, data) ← readVarint data
    let (errorCode, data) ← readVarint data
    some (some (.stopSending streamID errorCode), data)
  else if frameType = quicFrameDataBlocked then orTruncated do
    let (_, data) ← readVarint data
    some (none, data)
  else if frameType = quicFrameStreamDataBlock then orTruncated do
    let (_, data) ← readVarint data
    let (_, data) ← readVarint data
    some (none, data)
  else if frameType = quicFrameStreamsBlockBidi ∨ frameType = quicFrameStreamsBlockUni then orTruncated do
    let (_, data) ← readVarint data
    some (none, data)
  else if frameType = quicFrameRetireConnID then orTruncated do
    let (seq, data) ← readVarint data
    some (some (.retireConnID seq), data)
  else if frameType = quicFramePathChallenge then orTruncated do
    let (raw, data) ← readBytes quicPathChallengeLen data
    some (some (.pathChallenge raw), data)
  else if frameType = quicFramePathResponse then orTruncated do
    let (raw, data) ← readBytes quicPathChallengeLen data
    some (some (.pathResponse raw), data)
  else .error .unknownFrame

def quicFrameAny : ℕ → Bool := fun _ => true

def quicIsProbingFrame (frameType : ℕ) : Bool :=
  frameType = quicFramePathChallenge ∨ frameType = quicFramePathResponse ∨ frameType = quicFrameNewConnID ∨
    frameType = quicFramePadding

structure Visited where
  visits : List Visit := []
  nonProbing : Bool := false
  err : Option FrameErr := none
  deriving DecidableEq

/-- The loop over the unread bytes. Each round reads at least one of them. -/
def parseLoop (allowed : ℕ → Bool) : ℕ → Bytes → Visited → Visited
  | fuel + 1, b :: data, v =>
    if b = 0 then parseLoop allowed fuel data { v with visits := v.visits ++ [.padding] }
    else
      match readVarint (b :: data) with
      | none => { v with err := some .truncated }
      | some (frameType, data) =>
        if !allowed frameType then { v with err := some .notAllowedInSpace }
        else
          let v := { v with nonProbing := v.nonProbing || !quicIsProbingFrame frameType }
          match parseFrame frameType data with
          | .error e => { v with err := some e }
          | .ok (visit, data) => parseLoop allowed fuel data { v with visits := v.visits ++ visit.toList }
  | _, _, v => v

def quicParseFrames (allowed : ℕ → Bool) (data : Bytes) : Visited := parseLoop allowed data.length data {}

inductive BuilderCall
  | crypto (offset : ℕ) (data : Bytes)
  | stream (streamID offset : ℕ) (data : Bytes) (fin : Bool)
  | ack (largestAck ackDelay firstRange : ℕ)
  | ackRanges (ackDelay : ℕ) (ranges : List Range)
  | maxData (maxData : ℕ)
  | maxStreamData (streamID maxStreamData : ℕ)
  | streamDataBlocked (streamID limit : ℕ)
  | maxStreams (maxStreams : ℕ) (bidi : Bool)
  | resetStream (streamID errorCode finalSize : ℕ)
  | stopSending (streamID errorCode : ℕ)
  | appClose (errorCode : ℕ) (reason : Bytes)
  | handshakeDone
  | connClose (errorCode frameType : ℕ) (reason : Bytes)
  | newConnID (seq retirePriorTo : ℕ) (cid token : Bytes)
  | retireConnID (seq : ℕ)
  | pathChallenge (data : Bytes)
  | pathResponse (data : Bytes)

namespace BuilderCall

def bytes : BuilderCall → Bytes
  | crypto offset data => quicAppendCryptoFrame offset data
  | stream streamID offset data fin => quicAppendStreamFrame streamID offset data fin
  | ack largestAck ackDelay firstRange => quicAppendACKFrame largestAck ackDelay firstRange
  | ackRanges ackDelay ranges => quicAppendACKFrameRanges ackDelay ranges
  | maxData max => quicAppendMaxDataFrame max
  | maxStreamData streamID max => quicAppendMaxStreamDataFrame streamID max
  | streamDataBlocked streamID limit => quicAppendStreamDataBlockedFrame streamID limit
  | maxStreams max bidi => quicAppendMaxStreamsFrame max bidi
  | resetStream streamID errorCode finalSize => quicAppendResetStreamFrame streamID errorCode finalSize
  | stopSending streamID errorCode => quicAppendStopSendingFrame streamID errorCode
  | appClose errorCode reason => quicAppendAppCloseFrame errorCode reason
  | handshakeDone => quicAppendHandshakeDoneFrame
  | connClose errorCode frameType reason => quicAppendConnCloseFrame errorCode frameType reason
  | newConnID seq retirePriorTo cid token => quicAppendNewConnIDFrame seq retirePriorTo cid token
  | retireConnID seq => quicAppendRetireConnIDFrame seq
  | pathChallenge data => quicAppendPathFrame quicFramePathChallenge data
  | pathResponse data => quicAppendPathFrame quicFramePathResponse data

/-- The arguments fit their fields: numbers below 2^62, arrays of their length, received ranges that are
valid and no more than the parser takes. -/
def Fits : BuilderCall → Prop
  | crypto offset data => offset < 2 ^ 62 ∧ data.length < 2 ^ 62
  | stream streamID offset data _ => streamID < 2 ^ 62 ∧ offset < 2 ^ 62 ∧ data.length < 2 ^ 62
  | ack largestAck ackDelay firstRange => largestAck < 2 ^ 62 ∧ ackDelay < 2 ^ 62 ∧ firstRange < 2 ^ 62
  | ackRanges ackDelay ranges =>
    ackDelay < 2 ^ 62 ∧ Range.Canonical ranges ∧ (∀ r ∈ ranges, r.hi < 2 ^ 62) ∧ ranges.length ≤ 257
  | maxData max => max < 2 ^ 62
  | maxStreamData streamID max => streamID < 2 ^ 62 ∧ max < 2 ^ 62
  | streamDataBlocked streamID limit => streamID < 2 ^ 62 ∧ limit < 2 ^ 62
  | maxStreams max _ => max < 2 ^ 62
  | resetStream streamID errorCode finalSize => streamID < 2 ^ 62 ∧ errorCode < 2 ^ 62 ∧ finalSize < 2 ^ 62
  | stopSending streamID errorCode => streamID < 2 ^ 62 ∧ errorCode < 2 ^ 62
  | appClose errorCode reason => errorCode < 2 ^ 62 ∧ reason.length < 2 ^ 62
  | handshakeDone => True
  | connClose errorCode frameType reason => errorCode < 2 ^ 62 ∧ frameType < 2 ^ 62 ∧ reason.length < 2 ^ 62
  | newConnID seq retirePriorTo cid token =>
    seq < 2 ^ 62 ∧ retirePriorTo < 2 ^ 62 ∧ cid.length ≤ 20 ∧ token.length = quicStatelessResetTokenLen
  | retireConnID seq => seq < 2 ^ 62
  | pathChallenge data => data.length = quicPathChallengeLen
  | pathResponse data => data.length = quicPathChallengeLen

/-- The call of the visitor for a frame. There is none for STREAM_DATA_BLOCKED, and no frame for an
empty list of ranges. -/
def visit : BuilderCall → Option Visit
  | crypto offset data => some (.crypto offset data)
  | stream streamID offset data fin => some (.stream streamID offset data fin)
  | ack largestAck ackDelay firstRange => some (.ack ⟨largestAck, ackDelay, firstRange, []⟩)
  | ackRanges _ [] => none
  | ackRanges ackDelay (r :: rs) => some (.ack ⟨r.hi, ackDelay, r.hi - r.lo, gapsBelow r.lo rs⟩)
  | maxData max => some (.maxData max)
  | maxStreamData streamID max => some (.maxStreamData streamID max)
  | streamDataBlocked _ _ => none
  | maxStreams max bidi => some (.maxStreams max bidi)
  | resetStream streamID errorCode finalSize => some (.resetStream streamID errorCode finalSize)
  | stopSending streamID errorCode => some (.stopSending streamID errorCode)
  | appClose errorCode reason => some (.connClose errorCode 0 reason true)
  | handshakeDone => some .handshakeDone
  | connClose errorCode frameType reason => some (.connClose errorCode frameType reason false)
  | newConnID seq retirePriorTo cid token => some (.newConnID ⟨seq, retirePriorTo, cid, token⟩)
  | retireConnID seq => some (.retireConnID seq)
  | pathChallenge data => some (.pathChallenge data)
  | pathResponse data => some (.pathResponse data)

def frameType : BuilderCall → ℕ
  | crypto _ _ => quicFrameCrypto
  | stream _ offset _ fin =>
    quicFrameStream + (if offset > 0 then quicStreamFlagOff else 0) + quicStreamFlagLen +
      (if fin then quicStreamFlagFin else 0)
  | ack _ _ _ => quicFrameACK
  | ackRanges _ _ => quicFrameACK
  | maxData _ => quicFrameMaxData
  | maxStreamData _ _ => quicFrameMaxStreamData
  | streamDataBlocked _ _ => quicFrameStreamDataBlock
  | maxStreams _ bidi => if bidi then quicFrameMaxStreamsBidi else quicFrameMaxStreamsUni
  | resetStream _ _ _ => quicFrameResetStream
  | stopSending _ _ => quicFrameStopSending
  | appClose _ _ => quicFrameAppClose
  | handshakeDone => quicFrameHandshakeDone
  | connClose _ _ _ => quicFrameConnClose
  | newConnID _ _ _ _ => quicFrameNewConnID
  | retireConnID _ => quicFrameRetireConnID
  | pathChallenge _ => quicFramePathChallenge
  | pathResponse _ => quicFramePathResponse

end BuilderCall

@[simp] theorem readBytes_append (data rest : Bytes) : readBytes data.length (data ++ rest) = some (data, rest) := by
  have hlen : ¬ (data ++ rest).length < data.length := by
    rw [length_append]
    omega
  rw [readBytes, if_neg hlen, take_left, drop_left]

theorem readBytes_append_of_eq {n : ℕ} {data : Bytes} (h : data.length = n) (rest : Bytes) :
    readBytes n (data ++ rest) = some (data, rest) := by
  rw [← h, readBytes_append]

/-- A call builds a frame of type `frameType`, which is one byte, and the parser reads it back whatever
follows. -/
def BuilderCall.ReadBack (c : BuilderCall) : Prop := ∃ body, c.bytes = UInt8.ofNat c.frameType :: body ∧
    ∀ rest, parseFrame c.frameType (body ++ rest) = .ok (c.visit, rest)

theorem parseFrame_stream {frameType : ℕ} (h : quicFrameStream ≤ frameType ∧ frameType ≤ quicFrameStreamEnd)
    (data : Bytes) :
    parseFrame frameType data = orTruncated ((parseStream frameType data).bind fun r => some (some r.1, r.2)) := by
  have hlo : 8 ≤ frameType := h.1
  rw [parseFrame, if_neg (by unfold quicFramePing; omega), if_neg (by unfold quicFrameACK quicFrameACKECN; omega),
    if_neg (by unfold quicFrameCrypto; omega), if_pos h]
  rfl

section
variable {a b c : ℕ} (ha : a < 2 ^ 62) (hb : b < 2 ^ 62) (hc : c < 2 ^ 62)

include ha

open BuilderCall

theorem readBack_one : (maxData a).ReadBack ∧ (retireConnID a).ReadBack := by
  constructor
  all_goals
    refine ⟨quicAppendVarint a, rfl, fun rest => ?_⟩
    change orTruncated ((readVarint _).bind _) = _
    rw [readVarint_append ha]
    rfl

theorem readBack_maxStreams (bidi : Bool) : (maxStreams a bidi).ReadBack := by
  cases bidi
  all_goals
    refine ⟨quicAppendVarint a, rfl, fun rest => ?_⟩
    change orTruncated ((readVarint _).bind _) = _
    rw [readVarint_append ha]
    rfl

theorem readBack_crypto {data : Bytes} (hdata : data.length < 2 ^ 62) : (crypto a data).ReadBack := by
  refine ⟨quicAppendVarint a ++ quicAppendVarint data.length ++ data, rfl, fun rest => ?_⟩
  change orTruncated ((readVarint _).bind _) = _
  rw [append_assoc, append_assoc, readVarint_append ha]
  change orTruncated ((readVarint _).bind _) = _
  rw [readVarint_append hdata]
  change orTruncated ((readBytes _ _).bind _) = _
  rw [readBytes_append]
  rfl

theorem readBack_appClose {reason : Bytes} (hreason : reason.length < 2 ^ 62) : (appClose a reason).ReadBack := by
  refine ⟨quicAppendVarint a ++ quicAppendVarint reason.length ++ reason, rfl, fun rest => ?_⟩
  change orTruncated ((parseConnClose true _).bind _) = _
  have hparse : parseConnClose true (quicAppendVarint a ++ quicAppendVarint reason.length ++ reason ++ rest) =
      some (.connClose a 0 reason true, rest) := by
    change (readVarint _).bind _ = _
    rw [append_assoc, append_assoc, readVarint_append ha]
    change (readVarint _).bind _ = _
    rw [readVarint_append hreason]
    change (readBytes _ _).bind _ = _
    rw [readBytes_append]
    rfl
  rw [hparse]
  rfl

include hb

theorem readBack_two : (maxStreamData a b).ReadBack ∧
    (streamDataBlocked a b).ReadBack ∧ (stopSending a b).ReadBack := by
  refine ⟨?_, ?_, ?_⟩
  all_goals
    refine ⟨quicAppendVarint a ++ quicAppendVarint b, rfl, fun rest => ?_⟩
    change orTruncated ((readVarint _).bind _) = _
    rw [append_assoc, readVarint_append ha]
    change orTruncated ((readVarint _).bind _) = _
    rw [readVarint_append hb]
    rfl

theorem readBack_connClose {reason : Bytes} (hreason : reason.length < 2 ^ 62) : (connClose a b reason).ReadBack := by
  refine ⟨quicAppendVarint a ++ quicAppendVarint b ++ quicAppendVarint reason.length ++ reason, rfl, fun rest => ?_⟩
  change orTruncated ((parseConnClose false _).bind _) = _
  have hparse : parseConnClose false
      (quicAppendVarint a ++ quicAppendVarint b ++ quicAppendVarint reason.length ++ reason ++ rest) =
      some (.connClose a b reason false, rest) := by
    change (readVarint _).bind _ = _
    rw [append_assoc, append_assoc, append_assoc, readVarint_append ha]
    change (readVarint _).bind _ = _
    rw [readVarint_append hb]
    change (readVarint _).bind _ = _
    rw [readVarint_append hreason]
    change (readBytes _ _).bind _ = _
    rw [readBytes_append]
    rfl
  rw [hparse]
  rfl

open Option

theorem readBack_newConnID {cid token : Bytes} (hcid : cid.length ≤ 20)
    (htoken : token.length = quicStatelessResetTokenLen) : (newConnID a b cid token).ReadBack := by
  refine ⟨quicAppendVarint a ++ quicAppendVarint b ++ [.ofNat cid.length] ++ cid ++ token, rfl, fun rest => ?_⟩
  change orTruncated ((parseNewConnID _).bind _) = _
  have hbyte : (UInt8.ofNat cid.length).toNat = cid.length := by
    rw [UInt8.toNat_ofNat']
    omega
  have hparse : parseNewConnID (quicAppendVarint a ++ quicAppendVarint b ++
      [.ofNat cid.length] ++ cid ++ token ++ rest) =
      some (.newConnID ⟨a, b, cid, token⟩, rest) := by
    have hone := readBytes_append [UInt8.ofNat cid.length] (cid ++ (token ++ rest))
    rw [length_singleton] at hone
    simp only [append_assoc, parseNewConnID, bind_eq_bind, readVarint_append ha, readVarint_append hb, hone,
      bind_some, headD_cons, hbyte, readBytes_append, readBytes_append_of_eq htoken]
    rw [if_neg (by omega)]
  rw [hparse]
  rfl

theorem parseStream_flags {data : Bytes} (hdata : data.length < 2 ^ 62) (fin : Bool) (rest : Bytes) :
    parseStream (stream a b data fin).frameType
        (quicAppendVarint a ++ (if b > 0 then quicAppendVarint b else []) ++ quicAppendVarint data.length ++ data ++
          rest) =
      some (.stream a b data fin, rest) := by
  simp only [append_assoc, parseStream, bind_eq_bind, readVarint_append ha, bind_some]
  by_cases hpos : b > 0
  · have hoff : (stream a b data fin).frameType = 0x0e + fin.toNat := by
      rw [frameType, if_pos hpos]
      cases fin <;> rfl
    rw [if_pos hpos, hoff]
    cases fin <;> simp [quicStreamFlagOff, quicStreamFlagLen, quicStreamFlagFin, readVarint_append hb,
      readVarint_append hdata]
  have hoff : (stream a b data fin).frameType = 0x0a + fin.toNat := by
    rw [frameType, if_neg hpos]
    cases fin <;> rfl
  obtain rfl : b = 0 := by omega
  rw [if_neg hpos, hoff]
  cases fin <;> simp [quicStreamFlagOff, quicStreamFlagLen, quicStreamFlagFin, readVarint_append hdata]

theorem readBack_stream {data : Bytes} (hdata : data.length < 2 ^ 62) (fin : Bool) :
    (stream a b data fin).ReadBack := by
  refine ⟨quicAppendVarint a ++ (if b > 0 then quicAppendVarint b else []) ++ quicAppendVarint data.length ++ data,
    rfl, fun rest => ?_⟩
  have htype : quicFrameStream ≤ (stream a b data fin).frameType ∧
      (stream a b data fin).frameType ≤ quicFrameStreamEnd := by
    rw [frameType]
    unfold quicFrameStream quicFrameStreamEnd quicStreamFlagOff quicStreamFlagLen quicStreamFlagFin
    split_ifs <;> omega
  rw [parseFrame_stream htype, parseStream_flags ha hb hdata]
  rfl

include hc

theorem readBack_ack : (ack a b c).ReadBack := by
  refine ⟨quicAppendVarint a ++ quicAppendVarint b ++ quicAppendVarint 0 ++ quicAppendVarint c, rfl, fun rest => ?_⟩
  change orTruncated ((parseACK false _).bind _) = _
  have hparse : parseACK false (quicAppendVarint a ++ quicAppendVarint b ++ quicAppendVarint 0 ++
      quicAppendVarint c ++ rest) =
      some (⟨a, b, c, []⟩, rest) := by
    have hnone := readVarint_append (show 0 < 2 ^ 62 by decide) (quicAppendVarint c ++ rest)
    simp only [append_assoc, parseACK, bind_eq_bind, readVarint_append ha, readVarint_append hb, hnone,
      readVarint_append hc, bind_some]
    rfl
  rw [hparse]
  rfl

theorem readBack_resetStream : (resetStream a b c).ReadBack := by
  refine ⟨quicAppendVarint a ++ quicAppendVarint b ++ quicAppendVarint c, rfl, fun rest => ?_⟩
  change orTruncated ((readVarint _).bind _) = _
  rw [append_assoc, append_assoc, readVarint_append ha]
  change orTruncated ((readVarint _).bind _) = _
  rw [readVarint_append hb]
  change orTruncated ((readVarint _).bind _) = _
  rw [readVarint_append hc]
  rfl

end

theorem readBack_ackRanges {ackDelay : ℕ} (hdelay : ackDelay < 2 ^ 62) {r : Range} {rs : List Range}
    (hvalid : Range.Canonical (r :: rs)) (hbound : ∀ x ∈ r :: rs, x.hi < 2 ^ 62) (hcount : (r :: rs).length ≤ 257) :
    (BuilderCall.ackRanges ackDelay (r :: rs)).ReadBack := by
  let body := quicAppendVarint r.hi ++ quicAppendVarint ackDelay ++ quicAppendVarint rs.length ++
    quicAppendVarint (sub64 r.hi r.lo) ++ appendRanges r.lo rs
  refine ⟨body, rfl, fun rest => ?_⟩
  have hr := hbound r mem_cons_self
  have hframe := parseACKFrame_append hvalid hr hdelay rest (Nat.le_of_succ_le_succ hcount)
  have hbytes : quicAppendACKFrameRanges ackDelay (r :: rs) ++ rest =
    quicAppendVarint quicFrameACK ++ (body ++ rest) := by
    simp only [quicAppendACKFrameRanges, body, append_assoc]
  rw [hbytes, parseACKFrame, readVarint_append (by decide)] at hframe
  change parseACK false (body ++ rest) = _ at hframe
  change orTruncated ((parseACK false (body ++ rest)).bind _) = _
  rw [hframe]
  rfl

theorem readBack_path {data : Bytes} (hdata : data.length = quicPathChallengeLen) :
    (BuilderCall.pathChallenge data).ReadBack ∧ (BuilderCall.pathResponse data).ReadBack := by
  constructor
  all_goals
    refine ⟨data, rfl, fun rest => ?_⟩
    change orTruncated ((readBytes _ _).bind _) = _
    rw [readBytes_append_of_eq hdata]
    rfl

theorem BuilderCall.readBack {c : BuilderCall} (h : c.Fits) : c.ReadBack ∨ c.bytes = [] ∧ c.visit = none := by
  cases c with
  | crypto offset data => exact .inl (readBack_crypto h.1 h.2)
  | stream streamID offset data fin => exact .inl (readBack_stream h.1 h.2.1 h.2.2 fin)
  | ack largestAck ackDelay firstRange => exact .inl (readBack_ack h.1 h.2.1 h.2.2)
  | ackRanges ackDelay ranges =>
    obtain ⟨hdelay, hvalid, hbound, hcount⟩ := h
    cases ranges with
    | nil => exact .inr ⟨rfl, rfl⟩
    | cons r rs => exact .inl (readBack_ackRanges hdelay hvalid hbound hcount)
  | maxData max => exact .inl (readBack_one h).1
  | maxStreamData streamID max => exact .inl (readBack_two h.1 h.2).1
  | streamDataBlocked streamID limit => exact .inl (readBack_two h.1 h.2).2.1
  | maxStreams max bidi => exact .inl (readBack_maxStreams h bidi)
  | resetStream streamID errorCode finalSize => exact .inl (readBack_resetStream h.1 h.2.1 h.2.2)
  | stopSending streamID errorCode => exact .inl (readBack_two h.1 h.2).2.2
  | appClose errorCode reason => exact .inl (readBack_appClose h.1 h.2)
  | handshakeDone => exact .inl ⟨[], rfl, fun rest => rfl⟩
  | connClose errorCode frameType reason => exact .inl (readBack_connClose h.1 h.2.1 h.2.2)
  | newConnID seq retirePriorTo cid token => exact .inl (readBack_newConnID h.1 h.2.1 h.2.2.1 h.2.2.2)
  | retireConnID seq => exact .inl (readBack_one h).2
  | pathChallenge data => exact .inl (readBack_path h).1
  | pathResponse data => exact .inl (readBack_path h).2

theorem BuilderCall.frameType_bounds (c : BuilderCall) : 0 < c.frameType ∧ c.frameType < 64 := by
  cases c with
  | stream streamID offset data fin =>
    rw [frameType]
    unfold quicFrameStream quicStreamFlagOff quicStreamFlagLen quicStreamFlagFin
    split_ifs <;> omega
  | maxStreams max bidi => cases bidi <;> exact ⟨of_decide_eq_true rfl, of_decide_eq_true rfl⟩
  | _ => exact ⟨of_decide_eq_true rfl, of_decide_eq_true rfl⟩

/-- The payload of a packet: the frames of the calls, and for each `none` a byte of PADDING. -/
def payloadOf (items : List (Option BuilderCall)) : Bytes := items.flatMap fun x => x.elim [0] BuilderCall.bytes

def visitsOf (items : List (Option BuilderCall)) : List Visit :=
  items.flatMap fun x => x.elim [.padding] fun c => c.visit.toList

/-- A frame other than PADDING, PATH_CHALLENGE, PATH_RESPONSE and NEW_CONNECTION_ID. -/
def nonProbingIn (items : List (Option BuilderCall)) : Bool :=
  items.any fun x => x.elim false fun c => !c.bytes.isEmpty && !quicIsProbingFrame c.frameType

section
variable {allowed : ℕ → Bool} {items : List (Option BuilderCall)}

theorem parseLoop_frame {c : BuilderCall} (hc : c.ReadBack) (hallowed : allowed c.frameType = true) (fuel : ℕ)
    (rest : Bytes) (v : Visited) :
    parseLoop allowed (fuel + 1) (c.bytes ++ rest) v = parseLoop allowed fuel rest
      { v with
        visits := v.visits ++ c.visit.toList
        nonProbing := v.nonProbing || !quicIsProbingFrame c.frameType } := by
  obtain ⟨body, hbytes, hparse⟩ := hc
  obtain ⟨_, hlt⟩ := c.frameType_bounds
  have hne : UInt8.ofNat c.frameType ≠ 0 := by
    intro h
    have := congrArg UInt8.toNat h
    rw [UInt8.toNat_ofNat', UInt8.toNat_zero] at this
    omega
  have htype : readVarint (UInt8.ofNat c.frameType :: (body ++ rest)) = some (c.frameType, body ++ rest) := by
    have h := readVarint_append (show c.frameType < 2 ^ 62 by omega) (body ++ rest)
    rwa [quicAppendVarint, if_pos hlt] at h
  rw [hbytes, cons_append, parseLoop, if_neg hne, htype]
  dsimp only
  rw [hallowed, hparse]
  rfl

theorem parseLoop_payload (hfits : ∀ c, some c ∈ items → c.Fits)
    (hallowed : ∀ c, some c ∈ items → allowed c.frameType = true) :
    ∀ {fuel : ℕ} (v : Visited), (payloadOf items).length ≤ fuel → parseLoop allowed fuel (payloadOf items) v =
      { v with visits := v.visits ++ visitsOf items, nonProbing := v.nonProbing || nonProbingIn items } := by
  induction items with
  | nil =>
    intro fuel v hfuel
    have hend : parseLoop allowed fuel [] v = v := by cases fuel <;> rfl
    rw [show payloadOf [] = [] from rfl, hend]
    simp [visitsOf, nonProbingIn]
  | cons x items ih =>
    intro fuel v hfuel
    have ih := @ih (fun c hc => hfits c (mem_cons_of_mem x hc)) (fun c hc => hallowed c (mem_cons_of_mem x hc))
    rcases x with _ | c
    · have hpayload : payloadOf (none :: items) = 0 :: payloadOf items := rfl
      rw [hpayload, length_cons] at hfuel
      obtain ⟨fuel, rfl⟩ : ∃ n, fuel = n + 1 := ⟨fuel - 1, by omega⟩
      rw [hpayload, parseLoop, if_pos rfl, ih _ (by omega), append_assoc]
      rfl
    have hpayload : payloadOf (some c :: items) = c.bytes ++ payloadOf items := rfl
    have hc := hfits c mem_cons_self
    rw [hpayload, length_append] at hfuel
    rw [hpayload]
    obtain hread | ⟨hnone, hvisit⟩ := BuilderCall.readBack hc
    · have hne : c.bytes.isEmpty = false := by
        obtain ⟨_, hbytes, -⟩ := hread
        rw [hbytes]
        rfl
      have hpos : 0 < c.bytes.length := length_pos_of_ne_nil (by simpa using hne)
      obtain ⟨fuel, rfl⟩ : ∃ n, fuel = n + 1 := ⟨fuel - 1, by omega⟩
      rw [parseLoop_frame hread (hallowed c mem_cons_self), ih _ (by omega)]
      simp [visitsOf, nonProbingIn, hne, Bool.or_assoc]
    rw [hnone, nil_append, ih _ (by omega)]
    simp [visitsOf, nonProbingIn, hnone, hvisit]

end

theorem byte_congr {a b : ℕ} (h : a % 256 = b % 256) : UInt8.ofNat a = UInt8.ofNat b := by
  apply UInt8.toNat_inj.mp
  exact h

theorem quicPutVarint_eq (dst : Bytes) (v : ℕ) : quicPutVarint dst v =
    if dst.length < (quicAppendVarint v).length then none
    else some (quicAppendVarint v ++ dst.drop (quicAppendVarint v).length, (quicAppendVarint v).length) := by
  have hbytes : (if v < 64 then [.ofNat v] else if v < 16384 then putUint16 (0x4000 ||| v)
      else if v < 1073741824 then putUint32 (0x80000000 ||| v) else putUint64 (0xc000000000000000 ||| v)) =
      quicAppendVarint v := by
    unfold quicAppendVarint
    split_ifs with h₁ h₂ h₃
    · rfl
    · have hor : 0x4000 ||| v = 0x4000 + v := or_eq_add 14 (by decide) h₂
      have hhigh : 0x40 ||| v >>> 8 = 0x40 + v / 256 := by
        rw [Nat.shiftRight_eq_div_pow, or_eq_add 6 (by decide) (by omega)]
      rw [putUint16, hor, hhigh, Nat.shiftRight_eq_div_pow]
      congr 1
      · exact byte_congr (by omega)
      · exact congrArg (fun b => [b]) (byte_congr (by omega))
    · have hor : 0x80000000 ||| v = 0x80000000 + v := or_eq_add 31 (by decide) (by omega)
      have hhigh : 0x80 ||| v >>> 24 = 0x80 + v / 2 ^ 24 := by
        rw [Nat.shiftRight_eq_div_pow, or_eq_add 6 (by decide) (by omega)]
      rw [hhigh]
      simp only [putUint32, hor, Nat.shiftRight_eq_div_pow]
      have h₀ : UInt8.ofNat ((0x80000000 + v) / 2 ^ 24) = .ofNat (0x80 + v / 2 ^ 24) := byte_congr (by omega)
      have h₁ : UInt8.ofNat ((0x80000000 + v) / 2 ^ 16) = .ofNat (v / 2 ^ 16) := byte_congr (by omega)
      have h₂ : UInt8.ofNat ((0x80000000 + v) / 2 ^ 8) = .ofNat (v / 2 ^ 8) := byte_congr (by omega)
      have h₃ : UInt8.ofNat (0x80000000 + v) = .ofNat v := byte_congr (by omega)
      rw [h₀, h₁, h₂, h₃]
    · rfl
  rw [quicPutVarint, hbytes]

/-- What the builders append, with any PADDING between, is read as the same frames in order, to the
end and without an error; both varint writers are inverted by the parser. -/
theorem frames_round_trip {allowed : ℕ → Bool} (items : List (Option BuilderCall))
    (hfits : ∀ c, some c ∈ items → c.Fits) (hallowed : ∀ c, some c ∈ items → allowed c.frameType = true) :
    quicParseFrames allowed (payloadOf items) = ⟨visitsOf items, nonProbingIn items, none⟩ ∧
      (∀ ackDelay ranges, some (.ackRanges ackDelay ranges) ∈ items → ranges ≠ [] →
        ∃ f, (BuilderCall.ackRanges ackDelay ranges).visit = some (.ack f) ∧ f.ackDelay = ackDelay ∧ f.acks = ranges) ∧
      ∀ v < 2 ^ 62, (∀ rest, quicParseVarint (quicAppendVarint v ++ rest) = (v, (quicAppendVarint v).length)) ∧
          ∀ dst, 8 ≤ dst.length → ∃ out n, quicPutVarint dst v = some (out, n) ∧ quicParseVarint out = (v, n) := by
  refine ⟨?_, fun ackDelay ranges hmem hne => ?_, fun v hv => ⟨quicParseVarint_append hv, fun dst hdst => ?_⟩⟩
  · rw [quicParseFrames, parseLoop_payload hfits hallowed {} le_rfl]
    simp
  · obtain ⟨r, _, rfl⟩ := exists_cons_of_ne_nil hne
    obtain ⟨-, hvalid, hbound, -⟩ := hfits _ hmem
    have hbelow := below_of_canonical hvalid (hbound r mem_cons_self)
    have hle := (Range.canonical_cons.mp hvalid).1
    have hlo : r.hi - (r.hi - r.lo) = r.lo := by omega
    refine ⟨_, rfl, rfl, ?_⟩
    rw [QuicAckFrame.acks]
    rw [hlo, rangesBelow_gapsBelow hbelow]
  have hlen : (quicAppendVarint v).length ≤ 8 := by
    unfold quicAppendVarint
    split_ifs <;> simp [putUint64]
  rw [quicPutVarint_eq, if_neg (by omega)]
  exact ⟨_, _, rfl, quicParseVarint_append hv _⟩

theorem frames_round_trip_sample :
    quicParseFrames quicFrameAny (payloadOf [some (.crypto 0 [1]), none, some (.maxData 5)]) =
      ⟨[.crypto 0 [1], .padding, .maxData 5], true, none⟩ := by
  refine (frames_round_trip _ ?_ ?_).1
  · intro c hc
    simp only [mem_cons, Option.some.injEq, reduceCtorEq, not_mem_nil, or_false, false_or] at hc
    rcases hc with rfl | rfl
    · exact ⟨by decide, by decide⟩
    · exact (by decide : 5 < 2 ^ 62)
  · exact fun _ _ => rfl

theorem streamDataBlocked_not_reported :
    (BuilderCall.streamDataBlocked 4 7).Fits ∧ quicParseFrames quicFrameAny (quicAppendStreamDataBlockedFrame 4 7) =
      ⟨[], true, none⟩ := by
  constructor
  · exact ⟨by decide, by decide⟩
  · decide +kernel

end AlosHttp.Quic

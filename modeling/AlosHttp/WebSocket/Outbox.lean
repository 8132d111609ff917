import AlosHttp.Core.Utils

/-! The output side of an event-loop WebSocket connection (`epoll_ws_linux_amd64.go`): frames are
written under the connection's lock, to the socket or to an outbox that the loop sends. A run is a
list of locked sections and loop steps in the order they happen, so it covers every interleaving. -/
namespace AlosHttp.WebSocket
open List

def wsOpText : UInt8 := 0x1
def wsOpBinary : UInt8 := 0x2
def wsOpClose : UInt8 := 0x8
def wsRSV1 : UInt8 := 0x40
def wsMaxFrameHeaderLen : ℕ := 10
def wsDirectSendMin : ℕ := 4096
def wsCompressMinSize : ℕ := 64

def byteAt (n i : ℕ) : UInt8 := .ofNat (n >>> (8 * i))

def wsAppendFrameHeader (dst : Bytes) (first : UInt8) (payloadLen : ℕ) : Bytes :=
  if payloadLen ≤ 125 then dst ++ [first, byteAt payloadLen 0]
  else if payloadLen ≤ 65535 then dst ++ [first, 126, byteAt payloadLen 1, byteAt payloadLen 0]
  else dst ++ [first, 127, byteAt payloadLen 7, byteAt payloadLen 6, byteAt payloadLen 5,
    byteAt payloadLen 4, byteAt payloadLen 3, byteAt payloadLen 2, byteAt payloadLen 1,
    byteAt payloadLen 0]

/-- What the connection is configured with; `wsDeflate` is the compressor at the chosen
level, a level of zero turns it off. -/
structure WsConfig where
  tls : Bool
  outLimit : ℕ
  compressionLevel : ℤ
  wsDeflate : Bytes → Bytes

def WsConfig.compressesMessage (cfg : WsConfig) (opcode : UInt8) (data : Bytes) : Bool :=
  cfg.compressionLevel != 0 && (opcode == wsOpText || opcode == wsOpBinary) &&
    decide (wsCompressMinSize ≤ data.length)

/-- Room for the longest header is left, the header is copied to its end, and the frame is
moved down over what was not used. -/
def WsConfig.appendCompressedFrame (cfg : WsConfig) (dst : Bytes) (opcode : UInt8) (data : Bytes) : Bytes :=
  let base := dst.length
  let buf := dst ++ replicate wsMaxFrameHeaderLen 0 ++ cfg.wsDeflate data
  let h := wsAppendFrameHeader [] (0x80 ||| wsRSV1 ||| opcode)
    (buf.length - base - wsMaxFrameHeaderLen)
  let shift := wsMaxFrameHeaderLen - h.length
  let buf := buf.take (base + shift) ++ h ++ buf.drop (base + shift + h.length)
  buf.take base ++ buf.drop (base + shift)

def WsConfig.writeCompressed (cfg : WsConfig) (opcode : UInt8) (data : Bytes) : Bytes :=
  let buf := replicate wsMaxFrameHeaderLen 0 ++ cfg.wsDeflate data
  let h := wsAppendFrameHeader [] (0x80 ||| wsRSV1 ||| opcode) (buf.length - wsMaxFrameHeaderLen)
  let start := wsMaxFrameHeaderLen - h.length
  (buf.take start ++ h ++ buf.drop (start + h.length)).drop start

def bigEndianInt (k : ℕ) (data : Bytes) : Option (ℤ × Bytes) :=
  if data.length < k then none
  else
    let n : ℕ := (data.take k).foldl (fun n c => n * 256 + c.toNat) 0
    some (if n < 2 ^ 63 then (n : ℤ) else n - 2 ^ 64, data.drop k)

/-- The length logic of `readFramePayload` and `startFrame`. -/
def payloadLen (secondByte : UInt8) (data : Bytes) : Option (ℤ × Bytes) :=
  if secondByte &&& 0x7F = 126 then bigEndianInt 2 data
  else if secondByte &&& 0x7F = 127 then bigEndianInt 8 data
  else some ((secondByte &&& 0x7F).toNat, data)

/-- The first byte of a frame, the length of its payload, and what follows the length. -/
def frameHead : Bytes → Option (UInt8 × ℤ × Bytes)
  | b0 :: b1 :: data => (payloadLen b1 data).map (b0, ·)
  | _ => none

def WsConfig.frameOf (cfg : WsConfig) (opcode : UInt8) (data : Bytes) : Bytes :=
  if cfg.compressesMessage opcode data then
    wsAppendFrameHeader [] (0x80 ||| wsRSV1 ||| opcode) (cfg.wsDeflate data).length ++ cfg.wsDeflate data
  else wsAppendFrameHeader [] (0x80 ||| opcode) data.length ++ data

def closeFrame (payload : Bytes) : Bytes := wsAppendFrameHeader [] (0x80 ||| wsOpClose) payload.length ++ payload

inductive WriteResult
  | ok
  /-- `net.ErrClosed`. -/
  | errClosed
  /-- `errWSWriteQueueFull`. -/
  | errQueueFull
  deriving DecidableEq

structure Written where
  frame : Bytes
  isClose : Bool
  result : WriteResult
  deriving DecidableEq

/-- The connection: the part under the lock, the loop's buffer `out` with its first `writeSent` bytes
sent, and what the socket has taken. `holding` is set while `wsServe` runs; `calls` records the
finished calls. -/
structure WsOut where
  outbox : Bytes := []
  direct : Bool := false
  holding : Bool := false
  closeQueued : Bool := false
  dead : Bool := false
  out : Bytes := []
  writeSent : ℕ := 0
  bodyOut : ℕ := 0
  wire : Bytes := []
  calls : List Written := []

namespace WsOut
variable (cfg : WsConfig)

/-- The answer of `sendmsg`: an error, or the number of bytes taken. -/
abbrev Sent := Option ℕ

def sendDirect (s : WsOut) (opcode : UInt8) (data : Bytes) (sent : Sent) : WsOut × Bool :=
  if !s.direct || s.outbox.length != 0 || decide (data.length < wsDirectSendMin) ||
      (decide (0 < cfg.outLimit) && decide (cfg.outLimit < data.length + wsMaxFrameHeaderLen))
  then (s, false)
  else
    let h := wsAppendFrameHeader [] (0x80 ||| opcode) data.length
    match sent with
    | none => ({ s with direct := false }, false)
    | some n =>
      if n = 0 then ({ s with direct := false }, false)
      else
        let s := { s with wire := s.wire ++ (h ++ data).take n }
        let (s, n) :=
          if n < h.length then ({ s with outbox := s.outbox ++ h.drop n }, 0)
          else (s, n - h.length)
        if n < data.length then
          ({ s with outbox := s.outbox ++ data.drop n, direct := false }, true)
        else (s, true)

def putFrame (s : WsOut) (opcode : UInt8) (data : Bytes) (sent : Sent) : WsOut :=
  if cfg.compressesMessage opcode data then
    { s with outbox := cfg.appendCompressedFrame s.outbox opcode data }
  else
    let (s, handled) := s.sendDirect cfg opcode data sent
    if handled then s
    else { s with outbox :=
      wsAppendFrameHeader s.outbox (0x80 ||| opcode) data.length ++ data }

def record (s : WsOut) (frame : Bytes) (isClose : Bool) (result : WriteResult) : WsOut :=
  { s with calls := s.calls ++ [⟨frame, isClose, result⟩] }

/-- `write`: one locked section. After `errWSWriteQueueFull` the caller closes with a policy
status, which is a later `writeClose`. -/
def write (s : WsOut) (opcode : UInt8) (data : Bytes) (sent : Sent) : WsOut :=
  let frame := cfg.frameOf opcode data
  if s.dead || s.closeQueued then s.record frame false .errClosed
  else
    let start := s.outbox.length
    let s := s.putFrame cfg opcode data sent
    if 0 < cfg.outLimit ∧ cfg.outLimit < s.outbox.length then
      { s with outbox := s.outbox.take start }.record frame false .errQueueFull
    else s.record frame false .ok

def writeClose (s : WsOut) (payload : Bytes) : WsOut :=
  if s.dead || s.closeQueued then s.record (closeFrame payload) true .errClosed
  else
    { s with
      outbox := wsAppendFrameHeader s.outbox (0x80 ||| wsOpClose) payload.length ++ payload
      closeQueued := true }.record (closeFrame payload) true .ok

def setDirect (s : WsOut) : WsOut :=
  { s with direct := !cfg.tls && s.out.length == s.writeSent && s.bodyOut == 0 }

def holdWakes (s : WsOut) : WsOut :=
  { s with holding := true }.setDirect cfg

/-- `takeOutbox`; `roomy` says that an empty loop buffer has the capacity for a swap. -/
def takeOutbox (s : WsOut) (roomy release : Bool) : WsOut :=
  let s :=
    if s.outbox.length = 0 then s
    else if s.out.length = 0 ∧ roomy then { s with out := s.outbox, outbox := s.out }
    else { s with out := s.out ++ s.outbox, outbox := [] }
  if release then { s with holding := false, direct := false } else s.setDirect cfg

def wsFlushOutbox (s : WsOut) : WsOut :=
  { s with out := s.out ++ s.outbox, outbox := [] }

/-- The loop sends up to `n` bytes of its buffer and starts it again once all are sent. -/
def sendOut (s : WsOut) (n : ℕ) : WsOut :=
  let s := { s with
    wire := s.wire ++ (s.out.drop s.writeSent).take n
    writeSent := min (s.writeSent + n) s.out.length }
  if s.writeSent = s.out.length then { s with out := [], writeSent := 0 } else s

end WsOut

inductive Event
  | write (opcode : UInt8) (data : Bytes) (sent : WsOut.Sent)
  | writeClose (payload : Bytes)
  | holdWakes
  | takeOutbox (roomy release : Bool)
  | wsFlushOutbox
  | sendOut (n : ℕ)

/-- The loop runs one thing at a time: it serves reads (`holdWakes` to the releasing
`takeOutbox`), or flushes and sends. Writers come at any time. -/
def Event.enabled (s : WsOut) : Event → Bool
  | .write .. | .writeClose _ => true
  | .takeOutbox .. => s.holding
  | .holdWakes | .wsFlushOutbox | .sendOut _ => !s.holding

def WsOut.step (cfg : WsConfig) (s : WsOut) (e : Event) : WsOut :=
  if e.enabled s then
    match e with
    | .write opcode data sent => s.write cfg opcode data sent
    | .writeClose payload => s.writeClose payload
    | .holdWakes => s.holdWakes cfg
    | .takeOutbox roomy release => s.takeOutbox cfg roomy release
    | .wsFlushOutbox => s.wsFlushOutbox
    | .sendOut n => s.sendOut n
  else s

def WsOut.run (cfg : WsConfig) (s : WsOut) (events : List Event) : WsOut := events.foldl (WsOut.step cfg) s

/-- The bytes that are not on the wire yet, in the order they will be sent. -/
def WsOut.queued (s : WsOut) : Bytes := s.out.drop s.writeSent ++ s.outbox

/-- The frames of the calls that succeeded, in the order of the calls. -/
def accepted (calls : List Written) : List Bytes := (calls.filter fun w => w.result == .ok).map Written.frame

/-! ### Frames -/

section Frames
variable (cfg : WsConfig)

theorem wsAppendFrameHeader_eq (dst : Bytes) (first : UInt8) (n : ℕ) :
    wsAppendFrameHeader dst first n = dst ++ wsAppendFrameHeader [] first n := by
  unfold wsAppendFrameHeader
  split_ifs <;> simp

theorem length_wsAppendFrameHeader (first : UInt8) (n : ℕ) :
    (wsAppendFrameHeader [] first n).length ≤ wsMaxFrameHeaderLen := by
  unfold wsAppendFrameHeader wsMaxFrameHeaderLen
  split_ifs <;> simp

theorem appendCompressedFrame_frame (opcode : UInt8) (data dst : Bytes) : cfg.appendCompressedFrame dst opcode data =
      dst ++ (wsAppendFrameHeader [] (0x80 ||| wsRSV1 ||| opcode) (cfg.wsDeflate data).length ++
        cfg.wsDeflate data) := by
  unfold WsConfig.appendCompressedFrame
  dsimp only
  have hlen : (dst ++ replicate wsMaxFrameHeaderLen 0 ++ cfg.wsDeflate data).length -
      dst.length - wsMaxFrameHeaderLen = (cfg.wsDeflate data).length := by
    simp only [length_append, length_replicate]
    omega
  rw [hlen]
  generalize hh : wsAppendFrameHeader [] (0x80 ||| wsRSV1 ||| opcode) (cfg.wsDeflate data).length = header
  have hle : header.length ≤ wsMaxFrameHeaderLen := by
    rw [← hh]
    exact length_wsAppendFrameHeader _ _
  have htake : (dst ++ replicate wsMaxFrameHeaderLen 0 ++ cfg.wsDeflate data).take
      (dst.length + (wsMaxFrameHeaderLen - header.length)) =
        dst ++ replicate (wsMaxFrameHeaderLen - header.length) 0 := by
    rw [append_assoc, take_length_add_append, take_append_of_le_length (by simp), take_replicate]
    congr 2
    omega
  have hdrop : (dst ++ replicate wsMaxFrameHeaderLen 0 ++ cfg.wsDeflate data).drop
      (dst.length + (wsMaxFrameHeaderLen - header.length) + header.length) = cfg.wsDeflate data := by
    apply drop_left'
    simp only [length_append, length_replicate]
    omega
  rw [htake, hdrop]
  have hbase : (dst ++ replicate (wsMaxFrameHeaderLen - header.length) 0 ++ header ++
      cfg.wsDeflate data).take dst.length = dst := by
    rw [append_assoc, append_assoc, take_left']
    rfl
  have hrest : (dst ++ replicate (wsMaxFrameHeaderLen - header.length) 0 ++ header ++
      cfg.wsDeflate data).drop (dst.length + (wsMaxFrameHeaderLen - header.length)) = header ++ cfg.wsDeflate data := by
    rw [append_assoc (dst ++ _)]
    apply drop_left'
    simp
  rw [hbase, hrest]

theorem appendCompressedFrame_eq {opcode : UInt8} {data : Bytes}
    (h : cfg.compressesMessage opcode data = true) (dst : Bytes) :
    cfg.appendCompressedFrame dst opcode data = dst ++ cfg.frameOf opcode data := by
  rw [appendCompressedFrame_frame, WsConfig.frameOf, if_pos h]

theorem byteAt_toNat (n i : ℕ) : (byteAt n i).toNat = n / 2 ^ (8 * i) % 256 := by
  rw [byteAt, UInt8.toNat_ofNat', Nat.shiftRight_eq_div_pow]

theorem frameHead_wsAppendFrameHeader (first : UInt8) {n : ℕ} (hn : n < 2 ^ 63) (rest : Bytes) :
    frameHead (wsAppendFrameHeader [] first n ++ rest) = some (first, (n : ℤ), rest) := by
  have hread {k : ℕ} {bytes : Bytes} (hlen : bytes.length = k)
      (hvalue : bytes.foldl (fun n c => n * 256 + c.toNat) 0 = n) :
      bigEndianInt k (bytes ++ rest) = some ((n : ℤ), rest) := by
    subst hlen
    rw [bigEndianInt, if_neg (by simp), take_left, drop_left, hvalue]
    simp only [if_pos hn]
  unfold wsAppendFrameHeader
  split_ifs with hshort hmiddle
  · have hand : (byteAt n 0 &&& 0x7F).toNat = n := by
      rw [UInt8.toNat_and, byteAt_toNat]
      exact (Nat.and_two_pow_sub_one_eq_mod _ 7).trans (by omega)
    have hne (c : UInt8) (hc : n < c.toNat) : byteAt n 0 &&& 0x7F ≠ c := by
      rintro rfl
      omega
    change (payloadLen (byteAt n 0) rest).map (first, ·) = _
    rw [payloadLen, if_neg (hne 126 (by simp; omega)), if_neg (hne 127 (by simp; omega)), hand]
    rfl
  · change (bigEndianInt 2 ([_, _] ++ rest)).map (first, ·) = _
    rw [hread (by rfl)]
    · rfl
    · simp only [foldl_cons, foldl_nil, byteAt_toNat]
      omega
  change (bigEndianInt 8 ([_, _, _, _, _, _, _, _] ++ rest)).map (first, ·) = _
  rw [hread (by rfl)]
  · rfl
  · simp only [foldl_cons, foldl_nil, byteAt_toNat]
    omega

/-- A compressed frame is the same bytes on both paths, and the readers find in a header what was
written. -/
theorem compressed_frames_agree (dst : Bytes) (opcode : UInt8) (data : Bytes) :
    cfg.appendCompressedFrame dst opcode data = dst ++ cfg.writeCompressed opcode data ∧
      ∀ (first : UInt8) (n : ℕ) (rest : Bytes), n < 2 ^ 63 →
        frameHead (wsAppendFrameHeader [] first n ++ rest) = some (first, (n : ℤ), rest) := by
  constructor
  · have hwrite : cfg.writeCompressed opcode data = cfg.appendCompressedFrame [] opcode data := by
      simp [WsConfig.writeCompressed, WsConfig.appendCompressedFrame]
    rw [hwrite, appendCompressedFrame_frame, appendCompressedFrame_frame, nil_append]
  intro first n rest hn
  exact frameHead_wsAppendFrameHeader first hn rest

end Frames

namespace WsOut
variable {cfg : WsConfig} {s : WsOut}

/-- Everything of `s` but its outbox, wire and direct flag is kept. -/
structure SameRest (s t : WsOut) : Prop where
  out : t.out = s.out
  writeSent : t.writeSent = s.writeSent
  holding : t.holding = s.holding
  closeQueued : t.closeQueued = s.closeQueued
  calls : t.calls = s.calls
  direct : t.direct = true → s.direct = true

/-- What `sendDirect` did to the bytes: nothing, or it put a frame of which the outbox, empty
before, keeps the unsent tail. -/
inductive DirectResult (cfg : WsConfig) (s : WsOut) (frame : Bytes) : WsOut × Bool → Prop
  | unsent {t : WsOut} (rest : SameRest s t) (hwire : t.wire = s.wire)
      (houtbox : t.outbox = s.outbox) : DirectResult cfg s frame (t, false)
  | sent {t : WsOut} (rest : SameRest s t) (hdirect : s.direct = true) (hempty : s.outbox = [])
      (hbytes : t.wire ++ t.outbox = s.wire ++ frame)
      (hroom : 0 < cfg.outLimit → t.outbox.length ≤ cfg.outLimit) :
      DirectResult cfg s frame (t, true)

theorem sendDirect_spec (opcode : UInt8) (data : Bytes) (sent : Sent) :
    DirectResult cfg s (wsAppendFrameHeader [] (0x80 ||| opcode) data.length ++ data)
      (s.sendDirect cfg opcode data sent) := by
  unfold sendDirect
  have hh := length_wsAppendFrameHeader (0x80 ||| opcode) data.length
  generalize wsAppendFrameHeader [] (0x80 ||| opcode) data.length = h at hh
  have hoff : SameRest s { s with direct := false } := ⟨rfl, rfl, rfl, rfl, rfl, nofun⟩
  by_cases hguard : (!s.direct || s.outbox.length != 0 || decide (data.length < wsDirectSendMin) ||
      (decide (0 < cfg.outLimit) && decide (cfg.outLimit < data.length + wsMaxFrameHeaderLen))) = true
  · rw [if_pos hguard]
    exact .unsent ⟨rfl, rfl, rfl, rfl, rfl, id⟩ rfl rfl
  rw [if_neg hguard]
  simp only [Bool.or_eq_true, not_or, Bool.not_eq_true', bne_iff_ne, ne_eq, not_not,
    length_eq_zero_iff, decide_eq_true_eq, not_lt, Bool.and_eq_true, not_and,
    Bool.not_eq_false] at hguard
  obtain ⟨⟨⟨hdirect, hempty⟩, hmin⟩, _⟩ := hguard
  rcases sent with _ | n
  · exact .unsent hoff rfl rfl
  dsimp only
  by_cases hn : n = 0
  · rw [if_pos hn]
    exact .unsent hoff rfl rfl
  rw [if_neg hn]
  by_cases hhead : n < h.length
  · -- part of the header is left, and so is all of the payload
    have hpos : 0 < data.length := by unfold wsDirectSendMin at hmin; omega
    rw [if_pos hhead]
    rw [if_pos hpos]
    refine .sent ⟨rfl, rfl, rfl, rfl, rfl, nofun⟩ hdirect hempty ?_ ?_
    · rw [take_append_of_le_length hhead.le, hempty]
      simp only [nil_append, drop_zero, append_assoc]
      rw [← append_assoc (List.take n h), take_append_drop]
    intro hlim
    simp only [hempty, nil_append, length_append, length_drop]
    omega
  rw [if_neg hhead]
  have htake : (h ++ data).take n = h ++ data.take (n - h.length) := by
    rw [take_append, take_of_length_le (not_lt.mp hhead)]
  split_ifs with hleft
  · refine .sent ⟨rfl, rfl, rfl, rfl, rfl, nofun⟩ hdirect hempty ?_ ?_
    · rw [htake, hempty]
      simp [append_assoc]
    intro hlim
    simp only [hempty, nil_append, length_drop]
    omega
  refine .sent ⟨rfl, rfl, rfl, rfl, rfl, fun _ => hdirect⟩ hdirect hempty ?_ ?_
  · rw [htake, hempty, take_of_length_le (not_lt.mp hleft)]
    simp
  intro hlim
  simp only [hempty, length_nil]
  omega

/-- A frame is put out behind everything on the wire or in the outbox. If it was sent directly, the
outbox was empty and stays within its limit; otherwise the wire is as before. -/
structure PutResult (cfg : WsConfig) (s : WsOut) (frame : Bytes) (t : WsOut) : Prop where
  rest : SameRest s t
  bytes : t.wire ++ t.outbox = s.wire ++ s.outbox ++ frame
  kind : (t.wire = s.wire ∧ t.outbox = s.outbox ++ frame) ∨
    (s.direct = true ∧ s.outbox = [] ∧ (0 < cfg.outLimit → t.outbox.length ≤ cfg.outLimit))

theorem putFrame_spec (opcode : UInt8) (data : Bytes) (sent : Sent) :
    PutResult cfg s (cfg.frameOf opcode data) (s.putFrame cfg opcode data sent) := by
  unfold putFrame
  split_ifs with hcomp
  · rw [appendCompressedFrame_eq cfg hcomp]
    exact ⟨⟨rfl, rfl, rfl, rfl, rfl, id⟩, (append_assoc ..).symm, .inl ⟨rfl, rfl⟩⟩
  have hframe : cfg.frameOf opcode data = wsAppendFrameHeader [] (0x80 ||| opcode) data.length ++ data := if_neg hcomp
  rw [hframe]
  have hspec : DirectResult cfg s _ (s.sendDirect cfg opcode data sent) := sendDirect_spec opcode data sent
  generalize s.sendDirect cfg opcode data sent = r at hspec
  cases hspec with
  | unsent rest hwire houtbox =>
    dsimp only
    rw [if_neg Bool.false_ne_true, houtbox, wsAppendFrameHeader_eq s.outbox]
    refine ⟨⟨rest.out, rest.writeSent, rest.holding, rest.closeQueued, rest.calls, rest.direct⟩,
      ?_, .inl ⟨hwire, append_assoc ..⟩⟩
    rw [hwire]
    simp [append_assoc]
  | sent rest hdirect hempty hbytes hroom =>
    dsimp only
    rw [if_pos rfl]
    refine ⟨rest, ?_, .inr ⟨hdirect, hempty, hroom⟩⟩
    rw [hbytes, hempty, append_nil]

end WsOut

/-! ### The invariant -/

@[simp] theorem accepted_append (a b : List Written) : accepted (a ++ b) = accepted a ++ accepted b := by
  simp [accepted]

def NothingAfterClose (calls : List Written) : Prop :=
  ∀ before close after, calls = before ++ close :: after → close.isClose = true →
    close.result = .ok → ∀ w ∈ after, w.result ≠ .ok

/-- Whole frames on the wire and in the queue, a direct send only when the loop's buffer has nothing
unsent, no successful call once a close is queued. `head` is the handshake's answer, which is in the
buffer at first. -/
structure Inv (head : Bytes) (s : WsOut) : Prop where
  bytes : s.wire ++ s.queued = head ++ (accepted s.calls).flatten
  sent_le : s.writeSent ≤ s.out.length
  direct : s.direct = true → s.writeSent = s.out.length
  idle : s.holding = false → s.direct = false
  closed : (∃ w ∈ s.calls, w.isClose = true ∧ w.result = .ok) → s.closeQueued = true
  last : NothingAfterClose s.calls

namespace Inv
open WsOut
variable {head : Bytes} {cfg : WsConfig} {s : WsOut}

theorem refuse (h : Inv head s) (frame : Bytes) (isClose : Bool) {result : WriteResult}
    (hres : result ≠ .ok) : Inv head (s.record frame isClose result) := by
  have hacc : accepted (s.calls ++ [⟨frame, isClose, result⟩]) = accepted s.calls := by
    simp [accepted, hres]
  constructor
  · change s.wire ++ s.queued = head ++ (accepted (s.calls ++ [⟨frame, isClose, result⟩])).flatten
    rw [hacc]
    exact h.bytes
  · exact h.sent_le
  · exact h.direct
  · exact h.idle
  · rintro ⟨w, hw, hclose, hok⟩
    rcases mem_append.mp hw with hmem | hmem
    · exact h.closed ⟨w, hmem, hclose, hok⟩
    obtain rfl : w = ⟨frame, isClose, result⟩ := by simpa using hmem
    exact absurd hok hres
  intro before close after heq hclose hok w hw
  rcases eq_nil_or_concat after with rfl | ⟨rest, x, rfl⟩
  · simp at hw
  rw [concat_eq_append] at heq hw
  have hsplit : s.calls ++ [⟨frame, isClose, result⟩] = (before ++ close :: rest) ++ [x] := by
    rw [append_assoc, cons_append]
    exact heq
  have hinj := append_inj' hsplit rfl
  rcases mem_append.mp hw with hmem | hmem
  · exact h.last before close rest hinj.1 hclose hok w hmem
  obtain rfl : w = x := by simpa using hmem
  have hx : (⟨frame, isClose, result⟩ : Written) = w := by simpa using hinj.2
  rw [← hx]
  exact hres

theorem accept {t : WsOut} (h : Inv head s) (hopen : s.closeQueued = false) (frame : Bytes)
    (isClose : Bool) (hcalls : t.calls = s.calls ++ [⟨frame, isClose, .ok⟩])
    (hbytes : t.wire ++ t.queued = s.wire ++ s.queued ++ frame)
    (hsent : t.writeSent ≤ t.out.length) (hdirect : t.direct = true → t.writeSent = t.out.length)
    (hidle : t.holding = false → t.direct = false)
    (hclose : isClose = true → t.closeQueued = true) : Inv head t := by
  have hnone : ∀ w ∈ s.calls, w.isClose = true → w.result ≠ .ok := by
    intro w hw hcl hok
    have := h.closed ⟨w, hw, hcl, hok⟩
    rw [hopen] at this
    cases this
  constructor
  · rw [hbytes, hcalls, h.bytes, accepted_append, flatten_append]
    simp [accepted]
  · exact hsent
  · exact hdirect
  · exact hidle
  · rintro ⟨w, hw, hcl, hok⟩
    rw [hcalls] at hw
    rcases mem_append.mp hw with hmem | hmem
    · exact absurd hok (hnone w hmem hcl)
    obtain rfl : w = ⟨frame, isClose, .ok⟩ := by simpa using hmem
    exact hclose hcl
  intro before close after heq hcl hok w hw
  rw [hcalls] at heq
  rcases eq_nil_or_concat after with rfl | ⟨rest, x, rfl⟩
  · simp at hw
  have hsplit : s.calls ++ [⟨frame, isClose, .ok⟩] = (before ++ close :: rest) ++ [x] := by
    rw [append_assoc, cons_append, heq, concat_eq_append]
  have hmem : close ∈ s.calls := by
    rw [(append_inj' hsplit rfl).1]
    simp
  exact absurd hok (hnone close hmem hcl)

section
variable (h : Inv head s)
include h

theorem write (opcode : UInt8) (data : Bytes) (sent : Sent) : Inv head (s.write cfg opcode data sent) := by
  unfold WsOut.write
  split_ifs with hdead
  · exact h.refuse _ _ (by simp)
  have hopen : s.closeQueued = false := by
    rw [Bool.or_eq_true, not_or] at hdead
    simpa using hdead.2
  have hput : PutResult cfg s _ (s.putFrame cfg opcode data sent) := putFrame_spec opcode data sent
  generalize s.putFrame cfg opcode data sent = t at hput
  obtain ⟨rest, hbytes, hkind⟩ := hput
  have hsent : t.writeSent ≤ t.out.length := by
    rw [rest.writeSent, rest.out]
    exact h.sent_le
  have hdirect : t.direct = true → t.writeSent = t.out.length := by
    intro hd
    rw [rest.writeSent, rest.out]
    exact h.direct (rest.direct hd)
  have hidle : t.holding = false → t.direct = false := by
    intro hh
    rw [rest.holding] at hh
    by_contra hd
    have := rest.direct (by simpa using hd)
    rw [h.idle hh] at this
    cases this
  by_cases hfull : 0 < cfg.outLimit ∧ cfg.outLimit < t.outbox.length
  · -- a frame sent directly fits, so the one over the limit was only queued
    rw [if_pos hfull]
    rcases hkind with ⟨hwire, houtbox⟩ | ⟨-, -, _⟩
    · have hback : Inv head { t with outbox := t.outbox.take s.outbox.length } := by
        have htake : t.outbox.take s.outbox.length = s.outbox := by
          rw [houtbox, take_left']
          rfl
        constructor
        · rw [htake, hwire, rest.out, rest.writeSent, rest.calls]
          exact h.bytes
        · exact hsent
        · exact hdirect
        · exact hidle
        · rw [rest.calls, rest.closeQueued]
          exact h.closed
        rw [rest.calls]
        exact h.last
      exact hback.refuse _ _ (by simp)
    · omega
  rw [if_neg hfull]
  apply h.accept hopen (cfg.frameOf opcode data) false
  · exact congrArg (· ++ [_]) rest.calls
  · unfold queued record
    rw [rest.out, rest.writeSent]
    rcases hkind with ⟨hwire, houtbox⟩ | ⟨hd, _, -⟩
    · rw [hwire, houtbox]
      simp [append_assoc]
    · -- the loop's buffer is all sent, so the direct bytes follow what is on the wire
      have hall : s.out.drop s.writeSent = [] := by
        rw [h.direct hd]
        exact drop_length
      rw [hall, nil_append, nil_append]
      exact hbytes
  · exact hsent
  · exact hdirect
  · exact hidle
  · exact nofun

theorem writeClose (payload : Bytes) : Inv head (s.writeClose payload) := by
  unfold WsOut.writeClose
  split_ifs with hdead
  · exact h.refuse _ _ (by simp)
  have hopen : s.closeQueued = false := by
    rw [Bool.or_eq_true, not_or] at hdead
    simpa using hdead.2
  apply h.accept hopen (closeFrame payload) true
  · rfl
  · unfold queued record closeFrame
    rw [wsAppendFrameHeader_eq]
    simp [append_assoc]
  · exact h.sent_le
  · exact h.direct
  · exact h.idle
  · exact fun _ => rfl

theorem setDirect (hold : s.holding = true) : Inv head (s.setDirect cfg) := by
  constructor
  · exact h.bytes
  · exact h.sent_le
  · intro hd
    simp only [WsOut.setDirect, Bool.and_eq_true, beq_iff_eq] at hd
    exact hd.1.2.symm
  · intro hf
    exact absurd hold (by rw [show s.holding = false from hf]; exact Bool.false_ne_true)
  · exact h.closed
  · exact h.last

theorem takeOutbox (hold : s.holding = true) (roomy release : Bool) : Inv head (s.takeOutbox cfg roomy release) := by
  unfold WsOut.takeOutbox
  -- the move keeps the bytes; only the direct flag has to be set again
  have key : ∀ t : WsOut, t.wire ++ t.queued = s.wire ++ s.queued → t.writeSent ≤ t.out.length →
      t.holding = true → t.closeQueued = s.closeQueued → t.calls = s.calls →
      Inv head (if release = true then { t with holding := false, direct := false }
        else t.setDirect cfg) := by
    intro t hbytes hsent hhold hclose hcalls
    have hoff : Inv head { t with direct := false } := by
      constructor
      · rw [hcalls, ← h.bytes, ← hbytes]
        rfl
      · exact hsent
      · exact nofun
      · exact fun _ => rfl
      · rw [hcalls, hclose]
        exact h.closed
      rw [hcalls]
      exact h.last
    split_ifs
    · exact ⟨hoff.bytes, hoff.sent_le, nofun, fun _ => rfl, hoff.closed, hoff.last⟩
    · exact hoff.setDirect hhold
  have hlen := h.sent_le
  by_cases hnone : s.outbox.length = 0
  · rw [if_pos hnone]
    exact key s rfl hlen hold rfl rfl
  rw [if_neg hnone]
  by_cases hswap : s.out.length = 0 ∧ roomy = true
  · rw [if_pos hswap]
    have hout : s.out = [] := length_eq_zero_iff.mp hswap.1
    have hzero : s.writeSent = 0 := by omega
    apply key
    · unfold queued
      rw [hout, hzero]
      simp
    · dsimp only
      omega
    · exact hold
    · rfl
    · rfl
  rw [if_neg hswap]
  apply key
  · unfold queued
    rw [drop_append_of_le_length hlen]
    simp
  · dsimp only
    rw [length_append]
    omega
  · exact hold
  · rfl
  · rfl

theorem wsFlushOutbox (hold : s.holding = false) : Inv head s.wsFlushOutbox := by
  have hlen := h.sent_le
  constructor
  · unfold queued WsOut.wsFlushOutbox
    rw [drop_append_of_le_length hlen, append_nil]
    exact h.bytes
  · unfold WsOut.wsFlushOutbox
    dsimp only
    rw [length_append]
    omega
  · intro hd
    exact absurd hd (by rw [show s.wsFlushOutbox.direct = false from h.idle hold]; simp)
  · exact h.idle
  · exact h.closed
  · exact h.last

theorem sendOut (hold : s.holding = false) (n : ℕ) : Inv head (s.sendOut n) := by
  have hoff := h.idle hold
  have hbytes : s.wire ++ (s.out.drop s.writeSent).take n ++
      (s.out.drop (min (s.writeSent + n) s.out.length) ++ s.outbox) = head ++ (accepted s.calls).flatten := by
    have hdrop : s.out.drop (min (s.writeSent + n) s.out.length) = (s.out.drop s.writeSent).drop n := by
      rw [drop_drop]
      rcases le_total (s.writeSent + n) s.out.length with hle | hle
      · rw [min_eq_left hle]
      · rw [min_eq_right hle, drop_of_length_le hle, drop_length]
    rw [hdrop, ← h.bytes]
    simp only [queued, append_assoc]
    rw [← append_assoc (List.take n _), take_append_drop]
  unfold WsOut.sendOut
  dsimp only
  split_ifs with hall
  · refine ⟨?_, le_rfl, fun _ => rfl, fun _ => hoff, h.closed, h.last⟩
    rw [hall, drop_length] at hbytes
    exact hbytes
  refine ⟨hbytes, min_le_right _ _, ?_, fun _ => hoff, h.closed, h.last⟩
  intro hd
  exact absurd (show s.direct = true from hd) (by rw [hoff]; exact Bool.false_ne_true)

theorem step (e : Event) : Inv head (s.step cfg e) := by
  unfold WsOut.step
  split_ifs with hen
  · cases e with
    | write opcode data sent => exact h.write opcode data sent
    | writeClose payload => exact h.writeClose payload
    | holdWakes =>
      have hheld : Inv head { s with holding := true } := ⟨h.bytes, h.sent_le, h.direct, nofun, h.closed, h.last⟩
      exact hheld.setDirect rfl
    | takeOutbox roomy release => exact h.takeOutbox hen roomy release
    | wsFlushOutbox => exact h.wsFlushOutbox (by simpa [Event.enabled] using hen)
    | sendOut n => exact h.sendOut (by simpa [Event.enabled] using hen) n
  · exact h

theorem run (events : List Event) : Inv head (s.run cfg events) := by
  induction events generalizing s with
  | nil => exact h
  | cons e events ih => exact ih (h.step e)

end

theorem init (head : Bytes) : Inv head { out := head } := by
  refine ⟨by simp [queued, accepted], Nat.zero_le _, fun hf => Bool.noConfusion hf, fun _ => rfl, ?_, ?_⟩
  · rintro ⟨w, hw, -⟩
    simp at hw
  intro _ _ _ heq
  simp at heq

end Inv

/-- For every order of writes, closes, drains and sends, the wire and then the queue hold exactly the
frames of the successful calls, each whole and in order, and no call succeeds after a close. -/
theorem wire_whole_frames (cfg : WsConfig) (head : Bytes) (events : List Event) :
    (WsOut.run cfg { out := head } events).wire ++ (WsOut.run cfg { out := head } events).queued =
        head ++ (accepted (WsOut.run cfg { out := head } events).calls).flatten ∧
      NothingAfterClose (WsOut.run cfg { out := head } events).calls := by
  have h : Inv head (WsOut.run cfg { out := head } events) := (Inv.init head).run events
  exact ⟨h.bytes, h.last⟩

end AlosHttp.WebSocket

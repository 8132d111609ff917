import AlosHttp.H2.Receive

/-! The HEADERS frame of a response and its CONTINUATION frames (`h2_shared.go`): a block that is
too long for one frame is cut in place, from its end to its front. -/
namespace AlosHttp.H2
open AlosHttp.Core List

def h2FrameHeaders : UInt8 := 0x1
def h2FrameContinuation : UInt8 := 0x9

/-- `dst[pos:]` starts with `bytes` afterwards. The bytes are read before any is written, as `copy`
does where they overlap. -/
def overwrite (dst : Bytes) (pos : ℕ) (bytes : Bytes) : Bytes :=
  dst.take pos ++ (bytes ++ dst.drop (pos + bytes.length))

def frameLength (n : ℕ) : Bytes := [UInt8.ofNat (n >>> 16), UInt8.ofNat (n >>> 8), UInt8.ofNat n]

def frameHeader (typ flags : UInt8) (streamID : UInt32) (pLen : ℕ) : Bytes :=
  let byte shift := UInt8.ofNat (streamID.toNat >>> shift)
  frameLength pLen ++ [typ, flags, byte 24, byte 16, byte 8, byte 0]

def bigEndian (b0 b1 b2 b3 : UInt8) : UInt32 :=
  UInt32.ofNat (((b0.toNat * 256 + b1.toNat) * 256 + b2.toNat) * 256 + b3.toNat)

def frameStreamID (frame : Bytes) : UInt32 :=
  bigEndian (frame.getD 5 0) (frame.getD 6 0) (frame.getD 7 0) (frame.getD 8 0)

def fragmentLoop (off maxFrame frames last : ℕ) (streamID : UInt32) : ℕ → Bytes → Bytes
  | 0, dst => dst
  | i + 1, dst =>
    let chunkStart := off + h2FrameHeaderLen + (i + 1) * maxFrame
    let chunkLen := min maxFrame (last - chunkStart)
    let frameOff := off + (i + 1) * (h2FrameHeaderLen + maxFrame)
    let dst := overwrite dst (frameOff + h2FrameHeaderLen) ((dst.drop chunkStart).take chunkLen)
    let flags := if i + 1 = frames - 1 then h2FlagEndHeaders else 0
    fragmentLoop off maxFrame frames last streamID i
      (overwrite dst frameOff (frameHeader h2FrameContinuation flags streamID chunkLen))

/-- `spare` is what the grown part of the buffer holds before it is written. -/
def fragmentH2HeadersFrame (spare : ℕ → UInt8) (dst : Bytes) (off maxFrame : ℕ) : Bytes :=
  let blockLen := dst.length - (off + h2FrameHeaderLen)
  let streamID := frameStreamID (dst.drop off)
  let flags := (dst.drop off).getD 4 0
  let frames := (blockLen + maxFrame - 1) / maxFrame
  let grown := dst ++ (range ((frames - 1) * h2FrameHeaderLen)).map spare
  let dst := fragmentLoop off maxFrame frames dst.length streamID (frames - 1) grown
  overwrite dst off (frameHeader h2FrameHeaders (flags &&& ~~~h2FlagEndHeaders) streamID maxFrame)

def finishH2HeadersFrame (spare : ℕ → UInt8) (dst : Bytes) (off maxFrame : ℕ) : Bytes :=
  let n := dst.length - off - h2FrameHeaderLen
  if n > maxFrame then fragmentH2HeadersFrame spare dst off maxFrame
  else overwrite dst off (frameLength n)

def headersFlags (endStream : Bool) : UInt8 :=
  if endStream then h2FlagEndHeaders ||| h2FlagEndStream else h2FlagEndHeaders

/-- The callers' buffer: a header with some length, and the block behind it. -/
def headersBuffer (front block : Bytes) (streamID : UInt32) (endStream : Bool) (size : ℕ) : Bytes :=
  front ++ (frameHeader h2FrameHeaders (headersFlags endStream) streamID size ++ block)

/-! Frames as RFC 9113 section 4.1 reads them, with the reserved bit in the stream identifier. -/

structure Frame where
  typ : UInt8
  flags : UInt8
  streamID : UInt32
  payload : Bytes

namespace Frame

def text (f : Frame) : Bytes := frameHeader f.typ f.flags f.streamID f.payload.length ++ f.payload

def read : Bytes → Option (Frame × Bytes)
  | l0 :: l1 :: l2 :: typ :: flags :: s0 :: s1 :: s2 :: s3 :: rest =>
    let n := (l0.toNat * 256 + l1.toNat) * 256 + l2.toNat
    if rest.length < n then none
    else some (⟨typ, flags, bigEndian s0 s1 s2 s3, rest.take n⟩, rest.drop n)
  | _ => none

inductive Parses : Bytes → List Frame → Prop
  | nil : Parses [] []
  | cons {bytes rest : Bytes} {f : Frame} {fs : List Frame} (hread : read bytes = some (f, rest))
      (hrest : Parses rest fs) : Parses bytes (f :: fs)

end Frame

/-- One HEADERS frame and CONTINUATION frames that carry the block. -/
structure CarriesBlock (block : Bytes) (streamID : UInt32) (endStream : Bool)
    (maxFrame : ℕ) (first : Frame) (rest : List Frame) : Prop where
  headers : first.typ = h2FrameHeaders
  continuation : ∀ f ∈ rest, f.typ = h2FrameContinuation
  stream : ∀ f ∈ first :: rest, f.streamID = streamID
  sizes : ∀ f ∈ first :: rest, f.payload.length ≤ maxFrame
  block : (first :: rest).flatMap Frame.payload = block
  endHeaders : ∃ before last, first :: rest = before ++ [last] ∧
    last.flags &&& h2FlagEndHeaders = h2FlagEndHeaders ∧
    ∀ f ∈ before, f.flags &&& h2FlagEndHeaders = 0
  endStream : first.flags &&& h2FlagEndStream = if endStream then h2FlagEndStream else 0

theorem headersFlags_bits (endStream : Bool) : headersFlags endStream &&& h2FlagEndHeaders = h2FlagEndHeaders ∧
    headersFlags endStream &&& h2FlagEndStream = (if endStream then h2FlagEndStream else 0) ∧
    headersFlags endStream &&& ~~~h2FlagEndHeaders &&& h2FlagEndHeaders = 0 ∧
    headersFlags endStream &&& ~~~h2FlagEndHeaders &&& h2FlagEndStream =
      if endStream then h2FlagEndStream else 0 := by
  cases endStream <;> decide

open UInt8

theorem bigEndian_bytes (id : UInt32) : bigEndian (ofNat (id.toNat >>> 24))
    (ofNat (id.toNat >>> 16)) (ofNat (id.toNat >>> 8)) (ofNat (id.toNat >>> 0)) = id := by
  have hlt := id.toNat_lt
  unfold bigEndian
  rw [← UInt32.toNat_inj]
  simp only [UInt32.toNat_ofNat', toNat_ofNat', Nat.shiftRight_eq_div_pow]
  omega

theorem frameHeader_length (typ flags : UInt8) (id : UInt32) (pLen : ℕ) :
    (frameHeader typ flags id pLen).length = h2FrameHeaderLen := rfl

theorem Frame.read_text (f : Frame) (h : f.payload.length < 2 ^ 24) (rest : Bytes) :
    read (f.text ++ rest) = some (f, rest) := by
  obtain ⟨_, _, _, payload⟩ := f
  have hlen : ((ofNat (payload.length >>> 16)).toNat * 256 +
      (ofNat (payload.length >>> 8)).toNat) * 256 + (ofNat payload.length).toNat = payload.length := by
    dsimp only at h
    simp only [toNat_ofNat', Nat.shiftRight_eq_div_pow]
    omega
  have hlong : ¬ (payload ++ rest).length < payload.length := by
    rw [length_append]
    omega
  simp only [text, frameHeader, frameLength, cons_append, nil_append, read]
  rw [hlen, if_neg hlong, take_left, drop_left, bigEndian_bytes]

theorem Frame.parses_texts (fs : List Frame) (h : ∀ f ∈ fs, f.payload.length < 2 ^ 24) :
    Parses (fs.flatMap text) fs := by
  induction fs with
  | nil => exact .nil
  | cons f fs ih =>
    exact .cons (read_text f (h f mem_cons_self) _) (ih fun g hg => h g (mem_cons_of_mem f hg))

theorem overwrite_append (a c : Bytes) {b d : Bytes} (h : b.length = d.length) {pos : ℕ}
    (hpos : pos = a.length) : overwrite (a ++ (b ++ c)) pos d = a ++ (d ++ c) := by
  subst hpos
  rw [overwrite, take_left, ← h, ← drop_drop, drop_left, drop_left]

theorem overwrite_chunk (kept chunk tail header : Bytes) {gap : Bytes} {n : ℕ} (hgap : gap.length = n + header.length) :
    ∃ gap' : Bytes, gap'.length = n ∧
      overwrite (overwrite (kept ++ (chunk ++ (gap ++ tail))) (kept.length + gap.length) chunk)
        (kept.length + n) header = kept ++ (gap' ++ (header ++ (chunk ++ tail))) := by
  obtain ⟨x, z, y, hx, hz, hy, hcut⟩ : ∃ x z y : Bytes, x.length = n ∧ z.length = header.length ∧
      y.length = chunk.length ∧ chunk ++ gap = x ++ (z ++ y) := by
    refine ⟨(chunk ++ gap).take n, ((chunk ++ gap).drop n).take header.length,
      ((chunk ++ gap).drop n).drop header.length, ?_, ?_, ?_, ?_⟩
    · simp; omega
    · simp; omega
    · simp; omega
    · rw [take_append_drop, take_append_drop]
  refine ⟨x, hx, ?_⟩
  have hfirst := overwrite_append (kept ++ (x ++ z)) tail hy (show kept.length + gap.length = _ by simp; omega)
  have hsecond := overwrite_append (kept ++ x) (chunk ++ tail) hz (show kept.length + n = _ by simp; omega)
  simp only [append_assoc] at hfirst hsecond
  rw [← append_assoc chunk, hcut, append_assoc, append_assoc, hfirst, hsecond]

structure Cut where
  block : Bytes
  maxFrame : ℕ
  frames : ℕ
  id : UInt32
  two : 2 ≤ frames
  few : (frames - 1) * maxFrame ≤ block.length
  enough : block.length ≤ frames * maxFrame
  long : maxFrame ≤ block.length

theorem exists_cut (block : Bytes) (id : UInt32) {maxFrame : ℕ} (hpos : 1 ≤ maxFrame)
    (hlong : maxFrame < block.length) :
    ∃ c : Cut, c.block = block ∧ c.maxFrame = maxFrame ∧ c.id = id ∧
      c.frames = (block.length + maxFrame - 1) / maxFrame := by
  have hfew := Nat.div_mul_le_self (block.length + maxFrame - 1) maxFrame
  have henough := Nat.lt_div_mul_add (a := block.length + maxFrame - 1) hpos
  have htwo : 2 ≤ (block.length + maxFrame - 1) / maxFrame := (Nat.le_div_iff_mul_le hpos).mpr (by omega)
  refine ⟨⟨block, maxFrame, _, id, htwo, ?_, ?_, hlong.le⟩, rfl, rfl, rfl, rfl⟩
  · rw [Nat.sub_mul, Nat.one_mul]
    omega
  · omega

namespace Cut
variable (c : Cut)

def first (flags : UInt8) : Frame := ⟨h2FrameHeaders, flags &&& ~~~h2FlagEndHeaders, c.id, c.block.take c.maxFrame⟩

def next (i : ℕ) : Frame := ⟨h2FrameContinuation, if i = c.frames - 1 then h2FlagEndHeaders else 0, c.id,
    (c.block.drop (i * c.maxFrame)).take c.maxFrame⟩

def nexts (n : ℕ) : List Frame := (range' 1 n).map c.next

theorem nexts_succ (n : ℕ) : c.nexts (n + 1) = c.nexts n ++ [c.next (n + 1)] := by
  rw [nexts, range'_1_concat, map_append, add_comm 1 n]
  rfl

theorem take_succ_mul (n : ℕ) :
    c.block.take ((n + 1) * c.maxFrame) = c.block.take (n * c.maxFrame) ++ (c.next n).payload := by
  rw [Nat.add_mul, Nat.one_mul, take_add]
  rfl

theorem nexts_payload (n : ℕ) : c.block.take c.maxFrame ++ (c.nexts n).flatMap Frame.payload =
    c.block.take ((n + 1) * c.maxFrame) := by
  induction n with
  | zero => simp [nexts]
  | succ n ih =>
    rw [nexts_succ, flatMap_append, ← append_assoc, ih, c.take_succ_mul (n + 1), flatMap_singleton]

/-- The loop from `i` down, where the frames behind are in their places: the gap that it finds is
used up by the headers. -/
theorem fragmentLoop_eq (off : ℕ) (front tail : Bytes) (hoff : front.length = off + h2FrameHeaderLen)
    {i : ℕ} (hi : i * c.maxFrame ≤ c.block.length) {gap : Bytes}
    (hgap : gap.length = i * h2FrameHeaderLen) :
    fragmentLoop off c.maxFrame c.frames (front.length + c.block.length) c.id i
        (front ++ (c.block.take ((i + 1) * c.maxFrame) ++ (gap ++ tail))) =
      front ++ (c.block.take c.maxFrame ++ ((c.nexts i).flatMap Frame.text ++ tail)) := by
  induction i generalizing gap tail with
  | zero =>
    obtain rfl : gap = [] := length_eq_zero_iff.mp (hgap.trans (Nat.zero_mul _))
    rw [Nat.zero_add, Nat.one_mul]
    rfl
  | succ i ih =>
    have hkept : (front ++ c.block.take ((i + 1) * c.maxFrame)).length =
        off + h2FrameHeaderLen + (i + 1) * c.maxFrame := by
      rw [length_append, length_take_of_le hi, hoff]
    have hlen : (c.next (i + 1)).payload.length = min c.maxFrame
          (front.length + c.block.length - (off + h2FrameHeaderLen + (i + 1) * c.maxFrame)) := by
      rw [next, length_take, length_drop, ← hoff, Nat.add_sub_add_left]
    obtain ⟨_, hgap', hmoved⟩ := overwrite_chunk (front ++ c.block.take ((i + 1) * c.maxFrame))
      (c.next (i + 1)).payload tail (frameHeader h2FrameContinuation (c.next (i + 1)).flags c.id
        (c.next (i + 1)).payload.length) (hgap.trans (Nat.succ_mul i _))
    have hput : off + (i + 1) * (h2FrameHeaderLen + c.maxFrame) =
        (front ++ c.block.take ((i + 1) * c.maxFrame)).length + i * h2FrameHeaderLen := by
      rw [hkept]
      ring
    have hcopy : off + (i + 1) * (h2FrameHeaderLen + c.maxFrame) + h2FrameHeaderLen =
        (front ++ c.block.take ((i + 1) * c.maxFrame)).length + gap.length := by
      rw [hput, hgap, Nat.succ_mul i h2FrameHeaderLen, Nat.add_assoc]
    rw [fragmentLoop, c.take_succ_mul (i + 1), append_assoc, ← append_assoc front, ← hlen, ← hkept,
      drop_left, take_left, hcopy, hput]
    refine (congrArg (fragmentLoop _ _ _ _ _ i) hmoved).trans ?_
    rw [append_assoc, ih _ ((Nat.mul_le_mul_right _ i.le_succ).trans hi) hgap', nexts_succ,
      flatMap_append, flatMap_singleton, Frame.text]
    simp only [append_assoc]
    rfl

theorem fragmentH2HeadersFrame_eq (spare : ℕ → UInt8) (front : Bytes) (flags : UInt8) (size : ℕ)
    (hframes : c.frames = (c.block.length + c.maxFrame - 1) / c.maxFrame) :
    fragmentH2HeadersFrame spare (front ++ (frameHeader h2FrameHeaders flags c.id size ++ c.block))
        front.length c.maxFrame =
      front ++ (c.first flags :: c.nexts (c.frames - 1)).flatMap Frame.text := by
  have hid : frameStreamID (frameHeader h2FrameHeaders flags c.id size ++ c.block) = c.id := bigEndian_bytes c.id
  have hflags : (frameHeader h2FrameHeaders flags c.id size ++ c.block).getD 4 0 = flags := rfl
  have hfront : (front ++ frameHeader h2FrameHeaders flags c.id size).length =
      front.length + h2FrameHeaderLen := by rw [length_append, frameHeader_length]
  have hgap : ((range ((c.frames - 1) * h2FrameHeaderLen)).map spare).length =
      (c.frames - 1) * h2FrameHeaderLen := by rw [length_map, length_range]
  have hloop := c.fragmentLoop_eq front.length _ [] hfront c.few hgap
  rw [Nat.sub_add_cancel (Nat.le_of_succ_le c.two), take_of_length_le c.enough, append_nil, append_nil, hfront] at hloop
  unfold fragmentH2HeadersFrame
  dsimp only
  rw [drop_left, hid, hflags, ← append_assoc, length_append, hfront, Nat.add_sub_cancel_left,
    ← hframes, append_assoc, hloop, append_assoc,
    overwrite_append front _ (frameHeader_length h2FrameHeaders flags c.id size) rfl, flatMap_cons,
    Frame.text, first, length_take_of_le c.long, append_assoc]

theorem carriesBlock (endStream : Bool) : CarriesBlock c.block c.id endStream c.maxFrame
    (c.first (headersFlags endStream)) (c.nexts (c.frames - 1)) := by
  have hmem : ∀ {m f}, f ∈ c.nexts m → ∃ i, i < m + 1 ∧ f = c.next i := by
    intro m f hf
    obtain ⟨i, hi, rfl⟩ := mem_map.mp hf
    exact ⟨i, by have := mem_range'_1.mp hi; omega, rfl⟩
  obtain ⟨-, -, hnotLast, hstream⟩ := headersFlags_bits endStream
  have htwo := c.two
  refine ⟨rfl, ?_, ?_, ?_, ?_, ?_, hstream⟩
  · intro f hf
    obtain ⟨i, -, rfl⟩ := hmem hf
    rfl
  · intro f hf
    obtain rfl | hf := mem_cons.mp hf
    · rfl
    obtain ⟨i, -, rfl⟩ := hmem hf
    rfl
  · intro f hf
    obtain rfl | hf := mem_cons.mp hf
    · exact length_take_le _ _
    obtain ⟨i, -, rfl⟩ := hmem hf
    exact length_take_le _ _
  · rw [flatMap_cons, first, nexts_payload, Nat.sub_add_cancel (Nat.le_of_succ_le htwo)]
    exact take_of_length_le c.enough
  obtain ⟨n, _⟩ := Nat.exists_eq_add_of_le htwo
  rw [show c.frames - 1 = n + 1 by omega, nexts_succ, ← cons_append]
  refine ⟨_, _, rfl, ?_, ?_⟩
  · rw [next, if_pos (by omega)]
    exact UInt8.and_self
  intro f hf
  obtain rfl | hf := mem_cons.mp hf
  · exact hnotLast
  obtain ⟨i, hi, rfl⟩ := hmem hf
  rw [next, if_neg (by omega)]
  exact UInt8.zero_and

end Cut

/-- For every block and every frame size that HTTP/2 has, what was in the buffer stays, and behind it
stands one HEADERS frame with its CONTINUATION frames. -/
theorem finishH2HeadersFrame_parses (spare : ℕ → UInt8) (front block : Bytes) (id : UInt32)
    (endStream : Bool) (size : ℕ) {maxFrame : ℕ} (hpos : 1 ≤ maxFrame) (hmax : maxFrame < 2 ^ 24) :
    let out := finishH2HeadersFrame spare (headersBuffer front block id endStream size) front.length maxFrame
    out.take front.length = front ∧ ∃ first rest, Frame.Parses (out.drop front.length) (first :: rest) ∧
      CarriesBlock block id endStream maxFrame first rest := by
  intro out
  obtain ⟨first, rest, hout, hcarries⟩ : ∃ first rest, out = front ++ (first :: rest).flatMap Frame.text ∧
      CarriesBlock block id endStream maxFrame first rest := by
    have hlen : (headersBuffer front block id endStream size).length - front.length - h2FrameHeaderLen =
        block.length := by
      rw [headersBuffer, length_append, length_append, frameHeader_length]
      omega
    by_cases hlong : maxFrame < block.length
    · obtain ⟨c, rfl, rfl, rfl, hframes⟩ := exists_cut block id hpos hlong
      refine ⟨_, _, ?_, c.carriesBlock endStream⟩
      rw [← c.fragmentH2HeadersFrame_eq spare front _ size hframes]
      exact if_pos (hlen ▸ hlong)
    obtain ⟨hlast, hstream, -, -⟩ := headersFlags_bits endStream
    refine ⟨⟨h2FrameHeaders, headersFlags endStream, id, block⟩, [], ?_, rfl, by simp, by simp,
      by simpa using hlong, by simp, ⟨[], _, rfl, hlast, by simp⟩, hstream⟩
    have hshort : out = overwrite (headersBuffer front block id endStream size) front.length
        (frameLength block.length) := by
      show finishH2HeadersFrame _ _ _ _ = _
      rw [finishH2HeadersFrame, hlen, if_neg hlong]
    have hthree : (frameLength size).length = (frameLength block.length).length := rfl
    rw [hshort, headersBuffer, frameHeader, append_assoc, overwrite_append front _ hthree rfl,
      flatMap_singleton, Frame.text, frameHeader, append_assoc]
  constructor
  · rw [hout, take_left]
  refine ⟨first, rest, ?_, hcarries⟩
  rw [hout, drop_left]
  exact Frame.parses_texts _ fun f hf => (hcarries.sizes f hf).trans_lt hmax

theorem finishH2HeadersFrame_parses_two : (1 ≤ 2 ∧ 2 < 2 ^ 24) ∧
    let out := finishH2HeadersFrame (fun _ => 7) (headersBuffer [9] [1, 2, 3] 5 true 3) [9].length 2
    out.take [9].length = [9] ∧ ∃ first rest, Frame.Parses (out.drop [9].length) (first :: rest) ∧
      CarriesBlock [1, 2, 3] 5 true 2 first rest :=
  ⟨by decide, finishH2HeadersFrame_parses (fun _ => 7) [9] [1, 2, 3] 5 true 3 (by decide) (by decide)⟩

/-- A frame size that HTTP/2 does not have: the length of a frame with 2^24 bytes is written as
zero, and what is read behind it is no CONTINUATION frame. -/
theorem oversized_frame_misread :
    let block : Bytes := replicate (2 ^ 24) 0
    let out := finishH2HeadersFrame (fun _ => 0) (headersBuffer [] block 1 false 0) 0 (2 ^ 24)
    ¬ ∃ first rest, Frame.Parses (out.drop 0) (first :: rest) ∧ CarriesBlock block 1 false (2 ^ 24) first rest := by
  intro block out
  rintro ⟨first, rest, hread, hcarries⟩
  have hblock : block = replicate 9 0 ++ replicate (2 ^ 24 - 9) 0 := by
    norm_num [block]
  have hout : out = (⟨h2FrameHeaders, h2FlagEndHeaders, 1, []⟩ : Frame).text ++ block := by
    have hlen : (headersBuffer [] block 1 false 0).length - 0 - h2FrameHeaderLen = 2 ^ 24 := by
      rw [headersBuffer, nil_append, length_append, frameHeader_length, length_replicate]
      rfl
    have hzero : frameLength (2 ^ 24) = frameLength 0 := by decide
    show finishH2HeadersFrame _ _ _ _ = _
    rw [finishH2HeadersFrame, hlen, if_neg (lt_irrefl _), hzero, headersBuffer, frameHeader,
      append_assoc, overwrite_append [] _ rfl length_nil.symm]
    rfl
  clear_value out block
  rw [drop_zero, hout] at hread
  cases hread with
  | cons hfirst htail =>
    rw [Frame.read_text _ (by decide)] at hfirst
    cases hfirst
    cases htail with
    | nil =>
      have hlen := congrArg length (hcarries.block.trans hblock)
      rw [length_append, length_replicate, flatMap_singleton, length_nil] at hlen
      omega
    | @cons _ _ second rest hsecond _ =>
      have htyp := hcarries.continuation second mem_cons_self
      rw [hblock] at hsecond
      simp only [replicate, cons_append, nil_append, Frame.read] at hsecond
      split_ifs at hsecond
      obtain ⟨rfl, -⟩ := Prod.mk.inj (Option.some.inj hsecond)
      cases htyp

end AlosHttp.H2

import AlosHttp.H1.Chunked
import AlosHttp.H1.Response
import AlosHttp.Proxy.H2Client

/-! The response parser of the proxy's HTTP/1 client (`fp_h1.go`): `advance` over the unread
bytes of the connection, called again after every read, and its independence of how the
backend's bytes are split into reads. -/
namespace AlosHttp.Proxy
open List AlosHttp.Core H1

def fpMaxChunkLine : ℕ := 4096

def fpCrlfcrlf : Bytes := [cr, lf, cr, lf]

inductive H1Phase
  | headers
  | bodyCL
  | chunkSize
  | chunkData
  | chunkCRLF
  | trailers
  | bodyEOF
  deriving DecidableEq

/-- `h1Parser`. The bytes given to the sink of a streamed response are kept in `streamed`. -/
structure H1Parser where
  phase : H1Phase := .headers
  status : ℕ := 0
  keepAlive : Bool := false
  noBody : Bool := false
  stream : Bool := false
  remaining : ℕ := 0
  trailerBytes : ℕ := 0
  hdr : List Field := []
  body : Bytes := []
  streamed : Bytes := []
  deriving DecidableEq

/-- The limits, made positive by the configuration, the request and the answers of the sink: whether a
response with this length is streamed, and whether a 101 with these fields was asked for and becomes a tunnel. -/
structure H1Exchange where
  maxHeaderBytes : ℕ
  maxResponseBody : ℕ
  method : Bytes
  shouldStreamResponse : ℤ → Bool
  tunnelGranted : List Field → Bool

/-! Header block. -/

def asciiEqualFold (b s : Bytes) : Bool := toLowerASCII b == s

def fpContainsTokenFold (value token : Bytes) : Bool :=
  (value.splitOn comma).any fun part => asciiEqualFold (trimOWS part) token

def colonAfterWhitespace (rest : Bytes) : Option ℕ :=
  let j := (rest.takeWhile isOWS).length
  if rest[j]? = some colon then some j else none

def lowerFieldNameUntilColon (line : Bytes) : Option (ℕ × ℕ) :=
  let i := (line.takeWhile h1TokenChar).length
  match line.drop i with
  | [] => none
  | ch :: _ =>
    if ch = colon then some (i, i)
    else if isOWS ch then (colonAfterWhitespace (line.drop i)).map fun j => (i, i + j)
    else none

/-- The first line of a block, without its line feed, and what follows. -/
def cutLine (block : Bytes) : Bytes × Bytes :=
  match indexByte block lf with
  | none => (block, [])
  | some i => (block.take i, block.drop (i + 1))

def endsInCR (line : Bytes) : Bool := line.getLast? == some cr

def dropCR (line : Bytes) : Bytes := if endsInCR line then line.dropLast else line

structure HeadScan where
  hdr : List Field
  keepAlive : Bool
  chunked : Bool := false
  contentLen : ℤ := -1
  unpairedCR : ℤ
  deriving DecidableEq

def HeadScan.field (s : HeadScan) (line : Bytes) : HeadScan × Bool :=
  match lowerFieldNameUntilColon line with
  | none => (s, false)
  | some (nameEnd, colonAt) =>
    if nameEnd = 0 then (s, false)
    else
      let name := toLowerASCII (line.take nameEnd)
      let value := trimOWS (line.drop (colonAt + 1))
      let s := { s with hdr := s.hdr ++ [(name, value)] }
      if asciiEqualFold name (ascii "content-length") then
        match parseInt64 value with
        | none => (s, false)
        | some v =>
          if v < 0 ∨ (s.contentLen ≥ 0 ∧ s.contentLen ≠ v) then (s, false)
          else ({ s with contentLen := v }, true)
      else if asciiEqualFold name (ascii "transfer-encoding") then
        (if fpContainsTokenFold value (ascii "chunked") then { s with chunked := true } else s, true)
      else if asciiEqualFold name (ascii "connection") then
        (if fpContainsTokenFold value (ascii "close") then { s with keepAlive := false }
          else if fpContainsTokenFold value (ascii "keep-alive") then { s with keepAlive := true }
          else s, true)
      else (s, true)

def HeadScan.line (s : HeadScan) (line : Bytes) : HeadScan × Bool :=
  let s := if endsInCR line then { s with unpairedCR := s.unpairedCR - 1 } else s
  let line := dropCR line
  if line = [] then (s, true) else s.field line

def HeadScan.lines : ℕ → HeadScan → Bytes → HeadScan × Bool
  | _, s, [] => (s, true)
  | 0, s, _ :: _ => (s, false)
  | fuel + 1, s, c :: block =>
    match s.line (cutLine (c :: block)).1 with
    | (s, false) => (s, false)
    | (s, true) => HeadScan.lines fuel s (cutLine (c :: block)).2

def parseStatusLine (line : Bytes) : Option (ℕ × Bool) :=
  if line.length < 12 ∨ (ascii "HTTP/1.").isPrefixOf line = false then none
  else if line.getD 8 0 ≠ sp then none
  else
    match line.drop 9 with
    | d0 :: d1 :: d2 :: _ =>
      if isDigit d0 && isDigit d1 && isDigit d2 then
        some ((d0.toNat - 48) * 100 + (d1.toNat - 48) * 10 + (d2.toNat - 48), line.getD 7 0 == 49)
      else none
    | _ => none

namespace H1Parser

/-- The parser with what it took from the block, and, unless the block is bad, whether the
body is chunked and its declared length. -/
def parseHeaderBlock (p : H1Parser) (block method : Bytes) : H1Parser × Option (Bool × ℤ) :=
  if block.contains 0 then (p, none)
  else
    let (statusLine, rest) := cutLine block
    let unpairedCR : ℤ := block.count cr - if endsInCR statusLine then 1 else 0
    match parseStatusLine (dropCR statusLine) with
    | none => (p, none)
    | some (status, keepAlive) =>
      let noBody := method == ascii "HEAD" || status == 204 || status == 304
      let (s, ok) := HeadScan.lines rest.length
        { hdr := p.hdr, keepAlive := keepAlive, unpairedCR := unpairedCR } rest
      let p := { p with status := status, noBody := noBody, keepAlive := s.keepAlive, hdr := s.hdr }
      if !ok || s.unpairedCR != 0 then (p, none)
      else (p, some (s.chunked, if s.chunked then -1 else s.contentLen))

def emit (p : H1Parser) (data : Bytes) : H1Parser :=
  if p.stream then { p with streamed := p.streamed ++ data } else { p with body := p.body ++ data }

end H1Parser

/-! The state machine. -/

def bytesIndex (pattern : Bytes) : Bytes → Option ℕ
  | [] => if pattern = [] then some 0 else none
  | c :: s => if pattern.isPrefixOf (c :: s) then some 0 else (bytesIndex pattern s).map (· + 1)

def unicodeSpaces : List Bytes :=
  [[9], [10], [11], [12], [13], [32], [0xc2, 0x85], [0xc2, 0xa0], [0xe1, 0x9a, 0x80]] ++
    (range 11).map (fun i => [0xe2, 0x80, UInt8.ofNat (0x80 + i)]) ++
    [[0xe2, 0x80, 0xa8], [0xe2, 0x80, 0xa9], [0xe2, 0x80, 0xaf], [0xe2, 0x81, 0x9f], [0xe3, 0x80, 0x80]]

def trimLeftSpace : ℕ → Bytes → Bytes
  | 0, b => b
  | fuel + 1, b =>
    match unicodeSpaces.find? (·.isPrefixOf b) with
    | none => b
    | some space => trimLeftSpace fuel (b.drop space.length)

def trimRightSpace : ℕ → Bytes → Bytes
  | 0, b => b
  | fuel + 1, b =>
    match unicodeSpaces.find? (·.isSuffixOf b) with
    | none => b
    | some space => trimRightSpace fuel (b.take (b.length - space.length))

def trimSpace (b : Bytes) : Bytes := trimRightSpace b.length (trimLeftSpace b.length b)

def chunkLineSize (line : Bytes) : Option ℕ :=
  let line := dropCR line
  let line := match indexByte line 59 with
    | some semi => line.take semi
    | none => line
  parseHex64Bytes (trimSpace line)

inductive Verdict
  | more
  | done
  | tunnel
  | failed (err : FpError)
  deriving DecidableEq

structure H1Conn where
  h1 : H1Parser := {}
  rbuf : Bytes := []
  deriving DecidableEq

def H1Parser.takeBody (p : H1Parser) (data : Bytes) : H1Conn :=
  let take := min p.remaining data.length
  ⟨{ p.emit (data.take take) with remaining := p.remaining - take }, data.drop take⟩

inductive Turn
  | next (c : H1Conn)
  | stop (c : H1Conn) (v : Verdict)
  deriving DecidableEq

namespace H1Exchange
variable (ex : H1Exchange)

def afterHead (p : H1Parser) (rest : Bytes) (chunked : Bool) (contentLen : ℤ) : Turn :=
  if p.status = 101 then
    if ex.tunnelGranted p.hdr then .stop ⟨p, rest⟩ .tunnel else .stop ⟨p, rest⟩ (.failed .badResponse)
  else if 100 ≤ p.status ∧ p.status < 200 then .next ⟨{ p with hdr := [] }, rest⟩
  else if p.noBody then .stop ⟨p, rest⟩ .done
  else
    let p := { p with stream := ex.shouldStreamResponse contentLen }
    if chunked then .next ⟨{ p with phase := .chunkSize }, rest⟩
    else if contentLen ≥ 0 then
      if contentLen = 0 then .stop ⟨p, rest⟩ .done
      else if !p.stream ∧ contentLen > ex.maxResponseBody then
        .stop ⟨p, rest⟩ (.failed .bodyTooLarge)
      else .next ⟨{ p with remaining := contentLen.toNat, phase := .bodyCL }, rest⟩
    else .next ⟨{ p with keepAlive := false, phase := .bodyEOF }, rest⟩

def headersTurn (p : H1Parser) (data : Bytes) : Turn :=
  match bytesIndex fpCrlfcrlf data with
  | none =>
    if data.length > ex.maxHeaderBytes then .stop ⟨p, data⟩ (.failed .headerTooLarge)
    else .stop ⟨p, data⟩ .more
  | some idx =>
    if idx + 4 > ex.maxHeaderBytes then .stop ⟨p, data⟩ (.failed .headerTooLarge)
    else
      match p.parseHeaderBlock (data.take idx) ex.method with
      | (p, none) => .stop ⟨p, data⟩ (.failed .badResponse)
      | (p, some (chunked, contentLen)) => ex.afterHead p (data.drop (idx + 4)) chunked contentLen

def bodyCLTurn (p : H1Parser) (data : Bytes) : Turn :=
  if data = [] then .stop ⟨p, data⟩ .more
  else
    let c := p.takeBody data
    if c.h1.remaining = 0 then .stop c .done else .stop c .more

def chunkSizeTurn (p : H1Parser) (data : Bytes) : Turn :=
  match indexByte data lf with
  | none =>
    if data.length > fpMaxChunkLine then .stop ⟨p, data⟩ (.failed .badResponse)
    else .stop ⟨p, data⟩ .more
  | some idx =>
    if idx ≥ fpMaxChunkLine then .stop ⟨p, data⟩ (.failed .badResponse)
    else
      match chunkLineSize (data.take idx) with
      | none => .stop ⟨p, data⟩ (.failed .badResponse)
      | some size =>
        let rest := data.drop (idx + 1)
        if size = 0 then .next ⟨{ p with phase := .trailers }, rest⟩
        else if !p.stream ∧ (size : ℤ) > ex.maxResponseBody - p.body.length then
          .stop ⟨p, rest⟩ (.failed .bodyTooLarge)
        else .next ⟨{ p with remaining := size, phase := .chunkData }, rest⟩

def chunkDataTurn (p : H1Parser) (data : Bytes) : Turn :=
  if data = [] then .stop ⟨p, data⟩ .more
  else
    let c := p.takeBody data
    .next ⟨if c.h1.remaining = 0 then { c.h1 with phase := .chunkCRLF } else c.h1, c.rbuf⟩

def chunkCRLFTurn (p : H1Parser) (data : Bytes) : Turn :=
  match data with
  | a :: b :: rest =>
    if a ≠ cr ∨ b ≠ lf then .stop ⟨p, data⟩ (.failed .badResponse)
    else .next ⟨{ p with phase := .chunkSize }, rest⟩
  | _ => .stop ⟨p, data⟩ .more

def trailersTurn (p : H1Parser) (data : Bytes) : Turn :=
  let budget : ℤ := ex.maxHeaderBytes - p.trailerBytes
  match indexByte data lf with
  | none =>
    if (data.length : ℤ) > budget then .stop ⟨p, data⟩ (.failed .headerTooLarge)
    else .stop ⟨p, data⟩ .more
  | some idx =>
    if (idx : ℤ) ≥ budget then .stop ⟨p, data⟩ (.failed .headerTooLarge)
    else
      let p := { p with trailerBytes := p.trailerBytes + (idx + 1) }
      if dropCR (data.take idx) = [] then .stop ⟨p, data.drop (idx + 1)⟩ .done
      else .next ⟨p, data.drop (idx + 1)⟩

def bodyEOFTurn (p : H1Parser) (data : Bytes) : Turn :=
  if data = [] then .stop ⟨p, data⟩ .more
  else if !p.stream ∧ p.body.length + data.length > ex.maxResponseBody then
    .stop ⟨p, data⟩ (.failed .bodyTooLarge)
  else .stop ⟨p.emit data, []⟩ .more

def phaseTurn : H1Phase → H1Parser → Bytes → Turn
  | .headers => ex.headersTurn
  | .bodyCL => bodyCLTurn
  | .chunkSize => ex.chunkSizeTurn
  | .chunkData => chunkDataTurn
  | .chunkCRLF => chunkCRLFTurn
  | .trailers => ex.trailersTurn
  | .bodyEOF => ex.bodyEOFTurn

def turn (c : H1Conn) : Turn := ex.phaseTurn c.h1.phase c.h1 c.rbuf

def advanceLoop : ℕ → H1Conn → H1Conn × Verdict
  | 0, c => (c, .more)
  | fuel + 1, c =>
    match ex.turn c with
    | .stop c v => (c, v)
    | .next c => advanceLoop fuel c

end H1Exchange

def H1Conn.fuel (c : H1Conn) : ℕ := 2 * c.rbuf.length + if c.h1.phase = .chunkData then 1 else 0

def H1Conn.write (c : H1Conn) (data : Bytes) : H1Conn := { c with rbuf := c.rbuf ++ data }

namespace H1Exchange
variable (ex : H1Exchange)

def advance (c : H1Conn) : H1Conn × Verdict := ex.advanceLoop (c.fuel + 1) c

/-- `onData`: once `advance` has returned a result, further bytes are left over. -/
def onData (r : H1Conn × Verdict) (data : Bytes) : H1Conn × Verdict :=
  if r.2 = .more then ex.advance (r.1.write data) else (r.1.write data, r.2)

def receive (reads : List Bytes) : H1Conn × Verdict := reads.foldl ex.onData ({}, .more)

end H1Exchange

/-! Searching a longer buffer. -/

variable {pattern s : Bytes} {i : ℕ}
open Option

theorem bytesIndex_bound (h : bytesIndex pattern s = some i) : i + pattern.length ≤ s.length := by
  induction s generalizing i with
  | nil =>
    rw [bytesIndex] at h
    split_ifs at h with hp
    cases h
    simp [hp]
  | cons c s ih =>
    rw [bytesIndex] at h
    split_ifs at h with hp
    · cases h
      rw [zero_add]
      exact (List.isPrefixOf_iff_prefix.mp hp).length_le
    obtain ⟨j, hj, rfl⟩ := map_eq_some_iff.mp h
    have := ih hj
    rw [length_cons]
    omega

theorem bytesIndex_append (h : bytesIndex pattern s = some i)
    (hne : pattern ≠ []) (t : Bytes) : bytesIndex pattern (s ++ t) = some i := by
  induction s generalizing i with
  | nil => rw [bytesIndex, if_neg hne] at h; cases h
  | cons c s ih =>
    rw [bytesIndex] at h
    rw [cons_append, bytesIndex]
    split_ifs at h with hp
    · have hlong : pattern.isPrefixOf (c :: (s ++ t)) = true :=
        isPrefixOf_iff_prefix.mpr ((List.isPrefixOf_iff_prefix.mp hp).trans (prefix_append (c :: s) t))
      rw [if_pos hlong, h]
    obtain ⟨j, hj, rfl⟩ := map_eq_some_iff.mp h
    have hshort : ¬ pattern.isPrefixOf (c :: (s ++ t)) = true := by
      intro hlong
      have hlen : pattern.length ≤ (c :: s).length := by
        have := bytesIndex_bound hj
        rw [length_cons]
        omega
      exact hp (List.isPrefixOf_iff_prefix.mpr (prefix_of_prefix_length_le
        (List.isPrefixOf_iff_prefix.mp hlong) (prefix_append (c :: s) t) hlen))
    rw [if_neg hshort, ih hj]
    rfl

theorem bytesIndex_append_none {t : Bytes} (h : bytesIndex pattern s = none)
    (hi : bytesIndex pattern (s ++ t) = some i) : s.length < i + pattern.length := by
  induction s generalizing i with
  | nil =>
    rw [bytesIndex] at h
    split_ifs at h with hp
    have := length_pos_of_ne_nil hp
    rw [length_nil]
    omega
  | cons c s ih =>
    rw [bytesIndex] at h
    rw [cons_append, bytesIndex] at hi
    split_ifs at h hi with hp hlong
    · cases hi
      by_contra hle
      exact hp (List.isPrefixOf_iff_prefix.mpr (prefix_of_prefix_length_le
        (List.isPrefixOf_iff_prefix.mp hlong) (prefix_append (c :: s) t) (by omega)))
    obtain ⟨j, hj, rfl⟩ := map_eq_some_iff.mp hi
    have := ih (map_eq_none_iff.mp h) hj
    rw [length_cons]
    omega

variable {c : UInt8}

theorem indexByte_lt (h : indexByte s c = some i) : i < s.length := (findIdx?_eq_some_iff_findIdx_eq.mp h).1

theorem indexByte_append (h : indexByte s c = some i) (t : Bytes) : indexByte (s ++ t) c = some i := by
  unfold indexByte at h ⊢
  rw [findIdx?_append, h]
  rfl

theorem indexByte_append_none {t : Bytes} (h : indexByte s c = none)
    (hi : indexByte (s ++ t) c = some i) : s.length ≤ i := by
  unfold indexByte at h hi
  rw [findIdx?_append, h, none_or] at hi
  obtain ⟨j, -, rfl⟩ := map_eq_some_iff.mp hi
  omega

/-! Rounds on a longer buffer. -/

def Turn.write (y : Bytes) : Turn → Turn
  | .next c => .next (c.write y)
  | .stop c v => .stop (c.write y) v

@[simp] theorem Turn.write_ite (P : Prop) [Decidable P] (a b : Turn) (y : Bytes) :
    (if P then a else b).write y = if P then a.write y else b.write y := by
  split_ifs <;> rfl

theorem H1Parser.emit_emit (p : H1Parser) (a b : Bytes) : (p.emit a).emit b = p.emit (a ++ b) := by
  unfold H1Parser.emit
  by_cases hs : p.stream = true
  · simp [hs]
  · simp [hs]

namespace H1Exchange
variable (ex : H1Exchange) (p : H1Parser) (data y : Bytes)

theorem afterHead_append (chunked : Bool) (contentLen : ℤ) :
    ex.afterHead p (data ++ y) chunked contentLen = (ex.afterHead p data chunked contentLen).write y := by
  unfold afterHead
  simp only [Turn.write_ite]
  rfl

theorem headersTurn_append : ex.headersTurn p data = .stop ⟨p, data⟩ .more ∨
      ex.headersTurn p (data ++ y) = (ex.headersTurn p data).write y := by
  have hlen : fpCrlfcrlf.length = 4 := rfl
  unfold headersTurn
  rcases hidx : bytesIndex fpCrlfcrlf data with _ | idx
  · by_cases hbig : data.length > ex.maxHeaderBytes
    · right
      rw [if_pos hbig]
      rcases hidx' : bytesIndex fpCrlfcrlf (data ++ y) with _ | idx
      · rw [if_pos (by rw [length_append]; omega)]
        rfl
      have := bytesIndex_append_none hidx hidx'
      dsimp only
      rw [if_pos (by omega)]
      rfl
    left
    rw [if_neg hbig]
  right
  have hbound := bytesIndex_bound hidx
  rw [bytesIndex_append hidx (by decide)]
  dsimp only
  rw [take_append_of_le_length (by omega), drop_append_of_le_length (by omega),
    Turn.write_ite]
  rcases p.parseHeaderBlock (data.take idx) ex.method with ⟨q, _ | ⟨_, _⟩⟩
  · rfl
  simp only [afterHead_append]
  rfl

theorem chunkSizeTurn_append : ex.chunkSizeTurn p data = .stop ⟨p, data⟩ .more ∨
      ex.chunkSizeTurn p (data ++ y) = (ex.chunkSizeTurn p data).write y := by
  unfold chunkSizeTurn
  rcases hidx : indexByte data lf with _ | idx
  · by_cases hbig : data.length > fpMaxChunkLine
    · right
      rw [if_pos hbig]
      rcases hidx' : indexByte (data ++ y) lf with _ | idx
      · rw [if_pos (by rw [length_append]; omega)]
        rfl
      have := indexByte_append_none hidx hidx'
      dsimp only
      rw [if_pos (by omega)]
      rfl
    left
    rw [if_neg hbig]
  right
  have hlt := indexByte_lt hidx
  rw [indexByte_append hidx]
  dsimp only
  rw [take_append_of_le_length (by omega), drop_append_of_le_length (by omega),
    Turn.write_ite]
  rcases chunkLineSize (data.take idx) with _ | size
  · rfl
  simp only [Turn.write_ite]
  rfl

theorem chunkCRLFTurn_append : chunkCRLFTurn p data = .stop ⟨p, data⟩ .more ∨
      chunkCRLFTurn p (data ++ y) = (chunkCRLFTurn p data).write y := by
  rcases data with _ | ⟨a, _ | ⟨b, _⟩⟩
  · exact .inl rfl
  · exact .inl rfl
  right
  simp only [chunkCRLFTurn, cons_append, Turn.write_ite]
  rfl

theorem trailersTurn_append : ex.trailersTurn p data = .stop ⟨p, data⟩ .more ∨
      ex.trailersTurn p (data ++ y) = (ex.trailersTurn p data).write y := by
  unfold trailersTurn
  rcases hidx : indexByte data lf with _ | idx
  · dsimp only
    by_cases hbig : (data.length : ℤ) > ex.maxHeaderBytes - p.trailerBytes
    · right
      rw [if_pos hbig]
      rcases hidx' : indexByte (data ++ y) lf with _ | idx
      · rw [if_pos (by rw [length_append]; omega)]
        rfl
      have := indexByte_append_none hidx hidx'
      dsimp only
      rw [if_pos (by omega)]
      rfl
    left
    rw [if_neg hbig]
  right
  have hlt := indexByte_lt hidx
  rw [indexByte_append hidx]
  dsimp only
  rw [take_append_of_le_length (by omega), drop_append_of_le_length (by omega)]
  simp only [Turn.write_ite]
  rfl

end H1Exchange

open H1Parser

theorem H1Parser.emit_fields (p : H1Parser) (a : Bytes) :
    (p.emit a).phase = p.phase ∧ (p.emit a).stream = p.stream ∧ (p.emit a).remaining = p.remaining := by
  unfold emit
  split_ifs <;> exact ⟨rfl, rfl, rfl⟩

theorem H1Parser.takeBody_append_of_le {p : H1Parser} {data : Bytes} (h : p.remaining ≤ data.length)
    (y : Bytes) : p.takeBody (data ++ y) = (p.takeBody data).write y := by
  have hshort : min p.remaining data.length = p.remaining := by omega
  have hlong : min p.remaining (data ++ y).length = p.remaining := by
    rw [length_append]
    omega
  unfold takeBody
  dsimp only
  rw [hshort, hlong, take_append_of_le_length h, drop_append_of_le_length h]
  rfl

theorem H1Parser.takeBody_append_of_lt {p : H1Parser} {data : Bytes} (h : data.length < p.remaining) (y : Bytes) :
    (p.takeBody data).rbuf = [] ∧ (p.takeBody data).h1.remaining ≠ 0 ∧ (p.takeBody data).h1.phase = p.phase ∧
      p.takeBody (data ++ y) = (p.takeBody data).h1.takeBody y := by
  have hshort : min p.remaining data.length = data.length := by omega
  have hlong : min p.remaining (data ++ y).length = data.length + min (p.remaining - data.length) y.length := by
    rw [length_append]
    omega
  unfold takeBody
  dsimp only
  rw [hshort, hlong, take_length, drop_length, take_append, drop_append,
    take_of_length_le (Nat.le_add_right _ _), drop_of_length_le (Nat.le_add_right _ _),
    Nat.add_sub_cancel_left, nil_append]
  refine ⟨rfl, by omega, (p.emit_fields data).1, ?_⟩
  rw [← emit_emit, Nat.sub_add_eq]
  unfold emit
  by_cases hs : p.stream = true
  · simp [hs]
  · simp [hs]

/-! Whole runs. -/

/-- After a body over the limit the split between body and unread bytes depends on the
reads; nothing else does. -/
def settled (r : H1Conn × Verdict) : H1Conn × Verdict :=
  if r.2 = .failed .bodyTooLarge ∧ r.1.h1.phase = .bodyEOF then
    (⟨{ r.1.h1 with body := r.1.h1.body ++ r.1.rbuf }, []⟩, r.2)
  else r

variable (r : H1Conn × Verdict)

theorem settled_snd : (settled r).2 = r.2 := by
  unfold settled
  split_ifs <;> rfl

theorem settled_phase : (settled r).1.h1.phase = r.1.h1.phase := by
  unfold settled
  split_ifs <;> rfl

theorem settled_bytes : (settled r).1.h1.body ++ (settled r).1.rbuf = r.1.h1.body ++ r.1.rbuf := by
  unfold settled
  split_ifs
  · rw [append_nil]
  · rfl

theorem settled_rest :
    { (settled r).1.h1 with body := [] } = { r.1.h1 with body := [] } := by
  unfold settled
  split_ifs <;> rfl

theorem settled_write {r r' : H1Conn × Verdict} (h : settled r = settled r') (y : Bytes) :
    settled (r.1.write y, r.2) = settled (r'.1.write y, r'.2) := by
  have hv : r.2 = r'.2 := by rw [← settled_snd r, h, settled_snd]
  have hphase : r.1.h1.phase = r'.1.h1.phase := by rw [← settled_phase r, h, settled_phase]
  by_cases hover : r.2 = .failed .bodyTooLarge ∧ r.1.h1.phase = .bodyEOF
  · have hover' : r'.2 = .failed .bodyTooLarge ∧ r'.1.h1.phase = .bodyEOF := by
      rw [← hv, ← hphase]
      exact hover
    unfold settled at h ⊢
    rw [if_pos hover, if_pos hover'] at h
    rw [if_pos ⟨hover.1, hover.2⟩, if_pos ⟨hover'.1, hover'.2⟩]
    have hh1 : { r.1.h1 with body := r.1.h1.body ++ r.1.rbuf } =
        { r'.1.h1 with body := r'.1.h1.body ++ r'.1.rbuf } := congrArg (·.1.h1) h
    have hh2 := congrArg (fun p : H1Parser => { p with body := p.body ++ y }) hh1
    simp only [H1Conn.write, ← append_assoc]
    rw [hv]
    exact congrArg (fun p => ((⟨p, []⟩ : H1Conn), r'.2)) hh2
  have hover' : ¬ (r'.2 = .failed .bodyTooLarge ∧ r'.1.h1.phase = .bodyEOF) := by
    rw [← hv, ← hphase]
    exact hover
  unfold settled at h
  rw [if_neg hover, if_neg hover'] at h
  rw [h]

namespace H1Exchange
variable (ex : H1Exchange)

theorem turn_eq (c : H1Conn) {phase : H1Phase} (h : c.h1.phase = phase) :
    ex.turn c = ex.phaseTurn phase c.h1 c.rbuf := by
  rw [← h]
  rfl

def Same (a b : Turn) : Prop := a = b ∨ ∃ c c' v, a = .stop c v ∧ b = .stop c' v ∧ settled (c, v) = settled (c', v)

/-- How the round on a longer buffer follows from the round on a shorter one. -/
def Extends (c : H1Conn) (y : Bytes) : Turn → Prop
  | .next c' => ex.turn (c.write y) = .next (c'.write y) ∨
      ex.turn c' = .stop c' .more ∧ ex.turn (c.write y) = ex.turn (c'.write y)
  | .stop c' v =>
    if v = .more then Same (ex.turn (c.write y)) (ex.turn (c'.write y))
    else ex.turn (c.write y) = .stop (c'.write y) v

variable {c c' : H1Conn} {y data : Bytes}

theorem Extends.of_append {t : Turn} (h : t = .stop c .more ∨ ex.turn (c.write y) = t.write y)
    (hmore : ∀ c', t = .stop c' .more → c' = c) : ex.Extends c y t := by
  rcases h with rfl | h
  · exact .inl rfl
  cases t with
  | next c' => exact .inl h
  | stop c' v =>
    unfold Extends
    dsimp only
    split_ifs with hv
    · subst hv
      rw [hmore c' rfl]
      exact .inl rfl
    · exact h

variable {p : H1Parser}

theorem headersTurn_more (h : ex.headersTurn p data = .stop c .more) : c = ⟨p, data⟩ := by
  unfold headersTurn at h
  rcases hidx : bytesIndex fpCrlfcrlf data with _ | idx
  · simp only [hidx] at h
    split_ifs at h <;> cases h
    rfl
  simp only [hidx] at h
  split_ifs at h
  · cases h
  rcases hparse : p.parseHeaderBlock (data.take idx) ex.method with ⟨q, _ | ⟨_, _⟩⟩
  · simp only [hparse] at h
    cases h
  simp only [hparse, afterHead] at h
  split_ifs at h <;> cases h

theorem chunkSizeTurn_more (h : ex.chunkSizeTurn p data = .stop c .more) : c = ⟨p, data⟩ := by
  unfold chunkSizeTurn at h
  rcases hidx : indexByte data lf with _ | idx
  · simp only [hidx] at h
    split_ifs at h <;> cases h
    rfl
  simp only [hidx] at h
  split_ifs at h
  · cases h
  rcases hsize : chunkLineSize (data.take idx) with _ | size
  · simp only [hsize] at h
    cases h
  simp only [hsize] at h
  split_ifs at h
  cases h

theorem chunkCRLFTurn_more (h : chunkCRLFTurn p data = .stop c .more) : c = ⟨p, data⟩ := by
  rcases data with _ | ⟨a, _ | ⟨b, _⟩⟩
  · cases h
    rfl
  · cases h
    rfl
  simp only [chunkCRLFTurn] at h
  split_ifs at h
  cases h

theorem trailersTurn_more (h : ex.trailersTurn p data = .stop c .more) : c = ⟨p, data⟩ := by
  unfold trailersTurn at h
  rcases hidx : indexByte data lf with _ | idx
  · simp only [hidx] at h
    split_ifs at h <;> cases h
    rfl
  simp only [hidx] at h
  split_ifs at h <;> cases h

open H1Parser

theorem bodyCLTurn_extends (hphase : c.h1.phase = .bodyCL) (hy : y ≠ []) : ex.Extends c y (bodyCLTurn c.h1 c.rbuf) := by
  have hlong : ex.turn (c.write y) = bodyCLTurn c.h1 (c.rbuf ++ y) := ex.turn_eq (c.write y) hphase
  unfold bodyCLTurn
  split_ifs with hnil
  · exact .inl rfl
  have hne : c.rbuf ++ y ≠ [] := by simp [hnil]
  unfold bodyCLTurn at hlong
  rw [if_neg hne] at hlong
  by_cases hall : c.h1.remaining ≤ c.rbuf.length
  · have hzero : (c.h1.takeBody c.rbuf).h1.remaining = 0 := by
      unfold takeBody
      dsimp only
      omega
    rw [takeBody_append_of_le hall] at hlong
    rw [if_pos hzero]
    change ex.turn (c.write y) = _
    rw [hlong]
    exact if_pos hzero
  obtain ⟨hbuf, hrem, hph, happ⟩ := takeBody_append_of_lt (Nat.lt_of_not_le hall) y
  rw [if_neg hrem]
  refine .inl ?_
  have hnext : ex.turn ((c.h1.takeBody c.rbuf).write y) =
      bodyCLTurn (c.h1.takeBody c.rbuf).h1 ((c.h1.takeBody c.rbuf).rbuf ++ y) :=
    ex.turn_eq ((c.h1.takeBody c.rbuf).write y) (hph.trans hphase)
  rw [hlong, happ, hnext, hbuf, nil_append]
  unfold bodyCLTurn
  rw [if_neg hy]

theorem chunkDataTurn_extends (hphase : c.h1.phase = .chunkData)
    (hy : y ≠ []) : ex.Extends c y (chunkDataTurn c.h1 c.rbuf) := by
  have hlong : ex.turn (c.write y) = chunkDataTurn c.h1 (c.rbuf ++ y) := ex.turn_eq (c.write y) hphase
  unfold chunkDataTurn
  split_ifs with hnil
  · exact .inl rfl
  have hne : c.rbuf ++ y ≠ [] := by simp [hnil]
  unfold chunkDataTurn at hlong
  rw [if_neg hne] at hlong
  by_cases hall : c.h1.remaining ≤ c.rbuf.length
  · refine .inl ?_
    rw [hlong, takeBody_append_of_le hall]
    rfl
  obtain ⟨hbuf, hrem, hph, happ⟩ := takeBody_append_of_lt (Nat.lt_of_not_le hall) y
  refine .inr ?_
  rw [if_neg hrem]
  have hph' := hph.trans hphase
  constructor
  · have hstall : ex.turn (c.h1.takeBody c.rbuf) =
        chunkDataTurn (c.h1.takeBody c.rbuf).h1 (c.h1.takeBody c.rbuf).rbuf := ex.turn_eq _ hph'
    rw [hstall]
    unfold chunkDataTurn
    rw [if_pos hbuf]
  have hnext : ex.turn ((c.h1.takeBody c.rbuf).write y) =
      chunkDataTurn (c.h1.takeBody c.rbuf).h1 ((c.h1.takeBody c.rbuf).rbuf ++ y) :=
    ex.turn_eq ((c.h1.takeBody c.rbuf).write y) hph'
  rw [hlong, happ, hnext, hbuf, nil_append]
  unfold chunkDataTurn
  rw [if_neg hy]

theorem bodyEOFTurn_extends (hphase : c.h1.phase = .bodyEOF) (hy : y ≠ []) :
    ex.Extends c y (ex.bodyEOFTurn c.h1 c.rbuf) := by
  have hlong : ex.turn (c.write y) = ex.bodyEOFTurn c.h1 (c.rbuf ++ y) := ex.turn_eq (c.write y) hphase
  unfold bodyEOFTurn
  by_cases hnil : c.rbuf = []
  · rw [if_pos hnil]
    exact .inl rfl
  rw [if_neg hnil]
  have hne : c.rbuf ++ y ≠ [] := by simp [hnil]
  unfold bodyEOFTurn at hlong
  rw [if_neg hne] at hlong
  split_ifs with hover
  · change ex.turn (c.write y) = _
    rw [hlong]
    refine if_pos ⟨hover.1, ?_⟩
    rw [length_append]
    omega
  -- the bytes so far were taken: the next round meets the limit where the longer one does
  have hnext : ex.turn (H1Conn.write ⟨c.h1.emit c.rbuf, []⟩ y) = ex.bodyEOFTurn (c.h1.emit c.rbuf) y :=
    ex.turn_eq (H1Conn.write ⟨c.h1.emit c.rbuf, []⟩ y) ((c.h1.emit_fields c.rbuf).1.trans hphase)
  unfold bodyEOFTurn at hnext
  rw [if_neg hy] at hnext
  change Same _ _
  rw [hlong, hnext, (c.h1.emit_fields c.rbuf).2.1]
  by_cases hs : c.h1.stream = true
  · have h1 : ¬ ((!c.h1.stream) = true ∧ c.h1.body.length + (c.rbuf ++ y).length > ex.maxResponseBody) := by simp [hs]
    have h2 : ¬ ((!c.h1.stream) = true ∧ (c.h1.emit c.rbuf).body.length + y.length > ex.maxResponseBody) := by simp [hs]
    rw [if_neg h1, if_neg h2, emit_emit]
    exact .inl rfl
  have hbody : (c.h1.emit c.rbuf).body = c.h1.body ++ c.rbuf := by
    unfold emit
    rw [if_neg hs]
  have hlen : (c.h1.emit c.rbuf).body.length + y.length = c.h1.body.length + (c.rbuf ++ y).length := by
    rw [hbody, length_append, length_append]
    omega
  rw [hlen]
  by_cases hbig : (!c.h1.stream) = true ∧ c.h1.body.length + (c.rbuf ++ y).length > ex.maxResponseBody
  · rw [if_pos hbig, if_pos hbig]
    refine .inr ⟨_, _, _, rfl, rfl, ?_⟩
    unfold settled
    rw [if_pos ⟨rfl, hphase⟩, if_pos ⟨rfl, (c.h1.emit_fields c.rbuf).1.trans hphase⟩]
    unfold emit
    simp only [hs, if_false, append_assoc, Bool.false_eq_true]
  rw [if_neg hbig, if_neg hbig, emit_emit]
  exact .inl rfl

theorem turn_extends (c : H1Conn) (hy : y ≠ []) : ex.Extends c y (ex.turn c) := by
  cases hphase : c.h1.phase with
  | headers =>
    rw [ex.turn_eq c hphase]
    refine Extends.of_append ex ?_ fun c' => ex.headersTurn_more
    rw [ex.turn_eq (c.write y) hphase]
    exact ex.headersTurn_append c.h1 c.rbuf y
  | chunkSize =>
    rw [ex.turn_eq c hphase]
    refine Extends.of_append ex ?_ fun c' => ex.chunkSizeTurn_more
    rw [ex.turn_eq (c.write y) hphase]
    exact ex.chunkSizeTurn_append c.h1 c.rbuf y
  | chunkCRLF =>
    rw [ex.turn_eq c hphase]
    refine Extends.of_append ex ?_ fun c' => chunkCRLFTurn_more
    rw [ex.turn_eq (c.write y) hphase]
    exact chunkCRLFTurn_append c.h1 c.rbuf y
  | trailers =>
    rw [ex.turn_eq c hphase]
    refine Extends.of_append ex ?_ fun c' => ex.trailersTurn_more
    rw [ex.turn_eq (c.write y) hphase]
    exact ex.trailersTurn_append c.h1 c.rbuf y
  | bodyCL =>
    rw [ex.turn_eq c hphase]
    exact ex.bodyCLTurn_extends hphase hy
  | chunkData =>
    rw [ex.turn_eq c hphase]
    exact ex.chunkDataTurn_extends hphase hy
  | bodyEOF =>
    rw [ex.turn_eq c hphase]
    exact ex.bodyEOFTurn_extends hphase hy

/-! The loop ends: every round that goes on takes bytes, or ends a chunk. -/

theorem fuel_lt (h : c'.rbuf.length < c.rbuf.length) : c'.fuel < c.fuel := by
  unfold H1Conn.fuel
  split_ifs <;> omega

theorem afterHead_next {rest : Bytes} {chunked : Bool} {contentLen : ℤ}
    (h : ex.afterHead p rest chunked contentLen = .next c) : c.rbuf = rest := by
  unfold afterHead at h
  dsimp only at h
  split_ifs at h
  all_goals
    cases h
    rfl

theorem turn_next_fuel (h : ex.turn c = .next c') : c'.fuel < c.fuel := by
  cases hphase : c.h1.phase with
  | headers =>
    rw [ex.turn_eq c hphase] at h
    apply fuel_lt
    change ex.headersTurn c.h1 c.rbuf = _ at h
    unfold headersTurn at h
    rcases hidx : bytesIndex fpCrlfcrlf c.rbuf with _ | idx
    · simp only [hidx] at h
      split_ifs at h
    have hbound := bytesIndex_bound hidx
    have hlen : fpCrlfcrlf.length = 4 := rfl
    simp only [hidx] at h
    split_ifs at h
    rcases hparse : c.h1.parseHeaderBlock (c.rbuf.take idx) ex.method with ⟨q, _ | ⟨_, _⟩⟩
    · simp only [hparse] at h
      cases h
    simp only [hparse] at h
    rw [ex.afterHead_next h, length_drop]
    omega
  | chunkSize =>
    rw [ex.turn_eq c hphase] at h
    apply fuel_lt
    change ex.chunkSizeTurn c.h1 c.rbuf = _ at h
    unfold chunkSizeTurn at h
    rcases hidx : indexByte c.rbuf lf with _ | idx
    · simp only [hidx] at h
      split_ifs at h
    have hlt := indexByte_lt hidx
    simp only [hidx] at h
    split_ifs at h
    rcases hsize : chunkLineSize (c.rbuf.take idx) with _ | size
    · simp only [hsize] at h
      cases h
    simp only [hsize] at h
    split_ifs at h
    all_goals
      cases h
      rw [length_drop]
      omega
  | chunkCRLF =>
    rw [ex.turn_eq c hphase] at h
    apply fuel_lt
    change chunkCRLFTurn c.h1 c.rbuf = _ at h
    rcases hdata : c.rbuf with _ | ⟨a, _ | ⟨b, _⟩⟩
    · rw [hdata] at h
      cases h
    · rw [hdata] at h
      cases h
    rw [hdata] at h
    simp only [chunkCRLFTurn] at h
    split_ifs at h
    cases h
    simp
  | trailers =>
    rw [ex.turn_eq c hphase] at h
    apply fuel_lt
    change ex.trailersTurn c.h1 c.rbuf = _ at h
    unfold trailersTurn at h
    rcases hidx : indexByte c.rbuf lf with _ | idx
    · simp only [hidx] at h
      split_ifs at h
    have hlt := indexByte_lt hidx
    simp only [hidx] at h
    split_ifs at h
    cases h
    rw [length_drop]
    omega
  | bodyCL =>
    rw [ex.turn_eq c hphase] at h
    change bodyCLTurn c.h1 c.rbuf = _ at h
    unfold bodyCLTurn at h
    dsimp only at h
    split_ifs at h
  | chunkData =>
    rw [ex.turn_eq c hphase] at h
    change chunkDataTurn c.h1 c.rbuf = _ at h
    unfold chunkDataTurn at h
    dsimp only at h
    split_ifs at h with hnil hzero
    · cases h
      unfold H1Conn.fuel
      rw [if_neg (by simp), if_pos hphase]
      unfold takeBody
      rw [length_drop]
      omega
    cases h
    apply fuel_lt
    have hpos := length_pos_of_ne_nil hnil
    unfold takeBody at hzero ⊢
    dsimp only at hzero ⊢
    rw [length_drop]
    omega
  | bodyEOF =>
    rw [ex.turn_eq c hphase] at h
    change ex.bodyEOFTurn c.h1 c.rbuf = _ at h
    unfold bodyEOFTurn at h
    split_ifs at h

theorem advanceLoop_eq {fuel : ℕ} (h : c.fuel < fuel) : ex.advanceLoop fuel c = ex.advance c := by
  induction fuel using Nat.strong_induction_on generalizing c with
  | _ fuel ih =>
    obtain ⟨n, rfl⟩ : ∃ n, fuel = n + 1 := ⟨fuel - 1, by omega⟩
    unfold advance
    rw [advanceLoop, advanceLoop]
    cases hturn : ex.turn c with
    | stop c' v => rfl
    | next c' =>
      have hlt := ex.turn_next_fuel hturn
      dsimp only
      by_cases hn : n = c.fuel
      · rw [hn]
      · rw [ih n (by omega) (by omega), ih c.fuel (by omega) hlt]

theorem advance_next (h : ex.turn c = .next c') : ex.advance c = ex.advance c' := by
  have hlt := ex.turn_next_fuel h
  rw [← ex.advanceLoop_eq hlt]
  unfold advance
  rw [advanceLoop, h]

theorem advance_stop {v : Verdict} (h : ex.turn c = .stop c' v) : ex.advance c = (c', v) := by
  unfold advance
  rw [advanceLoop, h]

theorem advance_same (h : Same (ex.turn c) (ex.turn c')) : settled (ex.advance c) = settled (ex.advance c') := by
  rcases h with heq | ⟨d, _, v, hd, hd', hs⟩
  · cases hturn : ex.turn c' with
    | next d =>
      rw [hturn] at heq
      rw [ex.advance_next heq, ex.advance_next hturn]
    | stop d v =>
      rw [hturn] at heq
      rw [ex.advance_stop heq, ex.advance_stop hturn]
  rw [ex.advance_stop hd, ex.advance_stop hd']
  exact hs

theorem turn_more (h : ex.turn c = .stop c' .more) : ex.turn c' = .stop c' .more := by
  have hsame (hc : c' = c) : ex.turn c' = .stop c' .more := by
    rw [hc] at h ⊢
    exact h
  cases hphase : c.h1.phase with
  | headers => exact hsame (ex.headersTurn_more ((ex.turn_eq c hphase).symm.trans h))
  | chunkSize => exact hsame (ex.chunkSizeTurn_more ((ex.turn_eq c hphase).symm.trans h))
  | chunkCRLF => exact hsame (chunkCRLFTurn_more ((ex.turn_eq c hphase).symm.trans h))
  | trailers => exact hsame (ex.trailersTurn_more ((ex.turn_eq c hphase).symm.trans h))
  | chunkData =>
    apply hsame
    rw [ex.turn_eq c hphase] at h
    change chunkDataTurn c.h1 c.rbuf = _ at h
    unfold chunkDataTurn at h
    dsimp only at h
    split_ifs at h
    cases h
    rfl
  | bodyCL =>
    have hbody := ex.turn_eq c hphase
    rw [h] at hbody
    change _ = bodyCLTurn c.h1 c.rbuf at hbody
    unfold bodyCLTurn at hbody
    dsimp only at hbody
    by_cases hnil : c.rbuf = []
    · rw [if_pos hnil] at hbody
      cases hbody
      exact h
    rw [if_neg hnil] at hbody
    by_cases hall : c.h1.remaining ≤ c.rbuf.length
    · have hzero : (c.h1.takeBody c.rbuf).h1.remaining = 0 := by
        unfold takeBody
        dsimp only
        omega
      rw [if_pos hzero] at hbody
      cases hbody
    obtain ⟨hbuf, hrem, hph, -⟩ := takeBody_append_of_lt (Nat.lt_of_not_le hall) []
    rw [if_neg hrem] at hbody
    cases hbody
    rw [ex.turn_eq _ (hph.trans hphase)]
    exact if_pos hbuf
  | bodyEOF =>
    have hbody := ex.turn_eq c hphase
    rw [h] at hbody
    change _ = ex.bodyEOFTurn c.h1 c.rbuf at hbody
    unfold bodyEOFTurn at hbody
    by_cases hnil : c.rbuf = []
    · rw [if_pos hnil] at hbody
      cases hbody
      exact h
    rw [if_neg hnil] at hbody
    split_ifs at hbody
    · cases hbody
    cases hbody
    exact ex.turn_eq ⟨c.h1.emit c.rbuf, []⟩ ((c.h1.emit_fields c.rbuf).1.trans hphase)

/-- Reading on after a call is the call on all the bytes: by induction along its rounds. -/
theorem advance_write (c : H1Conn) (y : Bytes) :
    settled (ex.onData (ex.advance c) y) = settled (ex.advance (c.write y)) := by
  have hnil : ∀ d : H1Conn, d.write [] = d := by
    intro d
    unfold H1Conn.write
    rw [append_nil]
  induction hfuel : c.fuel using Nat.strong_induction_on generalizing c with
  | _ n ih =>
    cases hturn : ex.turn c with
    | next c' =>
      have hlt := ex.turn_next_fuel hturn
      rw [ex.advance_next hturn, ih c'.fuel (by omega) c' rfl]
      by_cases hy : y = []
      · rw [hy, hnil, hnil, ex.advance_next hturn]
      have hext := ex.turn_extends c hy
      rw [hturn] at hext
      rcases hext with hsame | ⟨-, hsame⟩
      · rw [ex.advance_next hsame]
      · exact (ex.advance_same (.inl hsame)).symm
    | stop c' v =>
      rw [ex.advance_stop hturn]
      unfold onData
      dsimp only
      by_cases hy : y = []
      · rw [hy, hnil, hnil, ex.advance_stop hturn]
        split_ifs with hv
        · subst hv
          rw [ex.advance_stop (ex.turn_more hturn)]
        · rfl
      have hext := ex.turn_extends c hy
      rw [hturn] at hext
      unfold Extends at hext
      dsimp only at hext
      split_ifs at hext ⊢ with hv
      · exact (ex.advance_same hext).symm
      · rw [ex.advance_stop hext]

theorem onData_settled {r r' : H1Conn × Verdict} (h : settled r = settled r') (y : Bytes) :
    settled (ex.onData r y) = settled (ex.onData r' y) := by
  have hv : r.2 = r'.2 := by rw [← settled_snd r, h, settled_snd]
  unfold onData
  by_cases hmore : r.2 = .more
  · have hmore' : r'.2 = .more := hv ▸ hmore
    have heq : r = r' := by
      unfold settled at h
      rw [if_neg (by rw [hmore]; simp), if_neg (by rw [hmore']; simp)] at h
      exact h
    rw [heq]
  rw [if_neg hmore, if_neg (hv ▸ hmore)]
  exact settled_write h y

theorem receive_settled (reads : List Bytes) :
    settled (ex.receive reads) = settled (ex.advance ⟨{}, reads.flatten⟩) := by
  induction reads using reverseRecOn with
  | nil => rfl
  | append_singleton reads read ih =>
    have hlast : ex.receive (reads ++ [read]) = ex.onData (ex.receive reads) read := by
      unfold receive
      rw [foldl_append]
      rfl
    rw [hlast, ex.onData_settled ih, ex.advance_write, flatten_append, flatten_singleton]
    rfl

/-- For every split of the backend's bytes into reads the verdict is that of one read of the whole,
and so, unless a body without a length is over the limit, is everything taken and left. -/
theorem receive_split (reads : List Bytes) :
    let split := ex.receive reads
    let whole := ex.receive [reads.flatten]
    split.2 = whole.2 ∧ (¬(split.2 = .failed .bodyTooLarge ∧ split.1.h1.phase = .bodyEOF) → split.1 = whole.1) ∧
      split.1.h1.body ++ split.1.rbuf = whole.1.h1.body ++ whole.1.rbuf ∧
      { split.1.h1 with body := [] } = { whole.1.h1 with body := [] } := by
  intro split whole
  have h : settled split = settled whole := by
    rw [ex.receive_settled, ex.receive_settled, flatten_singleton]
  have hv : split.2 = whole.2 := by rw [← settled_snd split, h, settled_snd]
  have hphase : split.1.h1.phase = whole.1.h1.phase := by rw [← settled_phase split, h, settled_phase]
  refine ⟨hv, ?_, ?_, ?_⟩
  · intro hne
    unfold settled at h
    rw [if_neg hne, if_neg (hv ▸ hphase ▸ hne)] at h
    exact congrArg Prod.fst h
  · rw [← settled_bytes split, h, settled_bytes]
  · rw [← settled_rest split, h, settled_rest]

end H1Exchange

/-- A body without a length, over the limit: one read leaves it unread, two reads have taken
its first part. -/
theorem receive_split_over_limit :
    let ex : H1Exchange := ⟨100, 3, ascii "GET", fun _ => false, fun _ => false⟩
    let head := ascii "HTTP/1.1 200 OK" ++ fpCrlfcrlf
    let whole := ex.receive [head ++ ascii "abcd"]
    let split := ex.receive [head ++ ascii "ab", ascii "cd"]
    whole.2 = .failed .bodyTooLarge ∧ split.2 = .failed .bodyTooLarge ∧
      (whole.1.h1.body, whole.1.rbuf) = ([], ascii "abcd") ∧
      (split.1.h1.body, split.1.rbuf) = (ascii "ab", ascii "cd") := by
  decide +kernel

end AlosHttp.Proxy

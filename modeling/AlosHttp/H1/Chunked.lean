import AlosHttp.Data.Incremental
import AlosHttp.H1.Scan

/-! The chunked request body decoder and its two uses: the streaming one keeps the decoder
between reads, the buffered one restarts at the last chunk and decodes the complete body. -/
namespace AlosHttp.H1
open AlosHttp.Core Data

def chunkedFramingLineMax : ℕ := 4096

def errChunkedMalformed : String := "core: malformed chunked request body"

inductive ChunkedState
  | awaitSize
  | inData
  | awaitDataEnd
  | inTrailer
  | done
  deriving DecidableEq, Repr

structure ChunkedDecoder where
  state : ChunkedState := .awaitSize
  captureTrailers : Bool := false
  left : ℕ := 0
  trailerBytes : ℕ := 0
  trailers : List Field := []
  deriving DecidableEq, Repr

def hexLookup (c : UInt8) : Option ℕ :=
  if 48 ≤ c ∧ c ≤ 57 then some (c.toNat - 48)
  else if 97 ≤ c ∧ c ≤ 102 then some (c.toNat - 87)
  else if 65 ≤ c ∧ c ≤ 70 then some (c.toNat - 55)
  else none

def hexValid (c : UInt8) : Bool := (hexLookup c).isSome

def parseHex64Loop : Bytes → ℕ → Option ℕ
  | [], n => some n
  | c :: b, n =>
    match hexLookup c with
    | none => none
    | some v =>
      let n := n <<< 4 ||| v
      if n > maxParsedLength then none else parseHex64Loop b n

def parseHex64Bytes (b : Bytes) : Option ℕ :=
  if b.length == 0 then none else parseHex64Loop b 0

/-- The skips return the rest of the line instead of an index into it. -/
def skipBWS (b : Bytes) : Bytes := b.dropWhile isOWS

def skipToken (b : Bytes) : Bytes := b.dropWhile h1TokenChar

def qdtextByte (c : UInt8) : Bool :=
  c == 9 || c == 32 || c == 0x21 || (0x23 ≤ c && c ≤ 0x5b) || (0x5d ≤ c && c ≤ 0x7e) || 0x80 ≤ c

def quotedPairByte (c : UInt8) : Bool := c == 9 || (32 ≤ c && c ≤ 0x7e) || 0x80 ≤ c

def skipQuoted : Bytes → Option Bytes
  | [] => none
  | 34 :: b => some b
  | 92 :: [] => none
  | 92 :: c :: b => if quotedPairByte c then skipQuoted b else none
  | c :: b => if qdtextByte c then skipQuoted b else none

def skipChunkExtValue (b : Bytes) : Option Bytes :=
  match b with
  | 34 :: b => skipQuoted b
  | b =>
    let rest := skipToken b
    if rest.length < b.length then some rest else none

def validChunkExtensionsLoop : ℕ → Bytes → Bool
  | _, [] => true
  | 0, _ => false
  | fuel + 1, ext =>
    match skipBWS ext with
    | 59 :: b =>
      let b := skipBWS b
      let rest := skipToken b
      if rest.length == b.length then false
      else
        match skipBWS rest with
        | 61 :: v =>
          match skipChunkExtValue (skipBWS v) with
          | some rest => validChunkExtensionsLoop fuel rest
          | none => false
        | _ => validChunkExtensionsLoop fuel rest
    | _ => false

def validChunkExtensions (ext : Bytes) : Bool := validChunkExtensionsLoop ext.length ext

def parseChunkSizeLine (l : Bytes) : Option ℕ :=
  if l.getLast? != some cr then none
  else
    let l := l.dropLast
    match parseHex64Bytes (l.takeWhile hexValid) with
    | none => none
    | some size => if validChunkExtensions (l.dropWhile hexValid) then some size else none

def trailerFieldForbidden (name : Bytes) : Bool :=
  equalFoldASCII name (ascii "host") || equalFoldASCII name (ascii "trailer") ||
    equalFoldASCII name (ascii "connection") || equalFoldASCII name (ascii "content-length") ||
    equalFoldASCII name (ascii "transfer-encoding")

def appendTrailerField (dst : List Field) (name value : Bytes) : List Field :=
  if trailerFieldForbidden name then dst else dst ++ [(name, value)]

def splitTrailerLine (avx2 : Bool) (l : Bytes) : Option Field :=
  let (special, nameEnd) := h1HeaderLineSpecials avx2 l
  match classifyFirstSpecial l special with
  | (some e, false) =>
    if e + 2 != l.length || !validH1Colon (l.take e) nameEnd then none
    else
      let nameEnd := nameEnd.getD 0
      some (l.take nameEnd, trimOWS ((l.take e).drop (nameEnd + 1)))
  | _ => none

def ChunkedDecoder.trailerLine (avx2 : Bool) (d : ChunkedDecoder) (l : Bytes) :
    ChunkedDecoder × Except String (ℕ × Bytes) :=
  let d := { d with trailerBytes := d.trailerBytes + l.length }
  if d.trailerBytes > chunkedFramingLineMax then (d, .error errChunkedMalformed)
  else if l == crlf then ({ d with state := .done }, .ok (l.length, []))
  else
    match splitTrailerLine avx2 l with
    | none => (d, .error errChunkedMalformed)
    | some (name, value) =>
      let d := if d.captureTrailers
        then { d with trailers := appendTrailerField d.trailers name value } else d
      (d, .ok (l.length, []))

def ChunkedDecoder.sizeLine (d : ChunkedDecoder) (l : Bytes) : ChunkedDecoder × Except String (ℕ × Bytes) :=
  match parseChunkSizeLine l.dropLast with
  | none => (d, .error errChunkedMalformed)
  | some 0 => ({ d with state := .inTrailer }, .ok (l.length, []))
  | some size => ({ d with state := .inData, left := size }, .ok (l.length, []))

def ChunkedDecoder.next (avx2 : Bool) (d : ChunkedDecoder) (src : Bytes) :
    ChunkedDecoder × Except String (ℕ × Bytes) :=
  match d.state with
  | .inData =>
    let n := min src.length d.left
    let left := d.left - n
    ({ d with left := left, state := if left = 0 then .awaitDataEnd else .inData }, .ok (n, src.take n))
  | .awaitDataEnd =>
    if src.length < 2 then (d, .ok (0, []))
    else if src.take 2 != crlf then (d, .error errChunkedMalformed)
    else ({ d with state := .awaitSize }, .ok (2, []))
  | .done => (d, .ok (0, []))
  | state =>
    match indexByte (src.take chunkedFramingLineMax) lf with
    | none =>
      if chunkedFramingLineMax ≤ src.length then (d, .error errChunkedMalformed)
      else (d, .ok (0, []))
    | some nl =>
      let l := src.take (nl + 1)
      if state = .inTrailer then d.trailerLine avx2 l else d.sizeLine l

/-- The scan for the end of a buffered body: its end, the status (1 complete, 0 waiting, -1
malformed) and where to resume. Every call that goes on consumes, so the fuel covers `buf`. -/
def asyncChunkedLoop (avx2 : Bool) (buf : Bytes) : ℕ → ChunkedDecoder → ℕ → ℕ → ℕ × ℤ × ℕ
  | 0, _, _, chunkStart => (0, 0, chunkStart)
  | fuel + 1, d, pos, chunkStart =>
    match d.next avx2 (buf.drop pos) with
    | (_, .error _) => (0, -1, chunkStart)
    | (d, .ok (n, _)) =>
      if n = 0 then (0, 0, chunkStart)
      else if d.state = .done then (pos + n, 1, pos + n)
      else asyncChunkedLoop avx2 buf fuel d (pos + n)
        (if d.state = .awaitSize then pos + n else chunkStart)

def asyncChunkedComplete (avx2 : Bool) (buf : Bytes) (pos : ℕ) : ℕ × ℤ × ℕ :=
  asyncChunkedLoop avx2 buf (buf.length + 1) {} pos pos

def decodeChunkedLoop (avx2 : Bool) : ℕ → ChunkedDecoder → Bytes → Bytes → Option (Bytes × List Field)
  | 0, _, _, _ => none
  | fuel + 1, d, dst, src =>
    if d.state = .done then some (dst, d.trailers)
    else
      match d.next avx2 src with
      | (_, .error _) => none
      | (d, .ok (n, data)) =>
        if n = 0 then none else decodeChunkedLoop avx2 fuel d (dst ++ data) (src.drop n)

def decodeChunkedInto (avx2 : Bool) (dst src : Bytes) : Option (Bytes × List Field) :=
  decodeChunkedLoop avx2 (src.length + 1) { captureTrailers := true } dst src

inductive BodyVerdict
  | waiting
  | malformed
  | complete (body : Bytes) (trailers : List Field) (bodyEnd : ℕ)
  deriving DecidableEq, Repr

/-- The buffered path: the read buffer, the scan position kept for the next read, and the
verdict. -/
structure BufferedBody where
  data : Bytes
  chunkScanPos : ℕ := 0
  verdict : BodyVerdict := .waiting

/-- A read while the body is waited for, as the request loop handles it after the head. -/
def BufferedBody.read (avx2 : Bool) (headerEnd : ℕ) (b : BufferedBody) (input : Bytes) : BufferedBody :=
  let data := b.data ++ input
  match b.verdict with
  | .waiting =>
    let scanFrom :=
      if headerEnd < b.chunkScanPos ∧ b.chunkScanPos ≤ data.length then b.chunkScanPos
      else headerEnd
    let (bodyEnd, status, resume) := asyncChunkedComplete avx2 data scanFrom
    if status = -1 then { data := data, verdict := .malformed }
    else if status = 0 then { data := data, chunkScanPos := resume }
    else
      match decodeChunkedInto avx2 [] ((data.take bodyEnd).drop headerEnd) with
      | none => { data := data, verdict := .malformed }
      | some (body, trailers) => { data := data, verdict := .complete body trailers bodyEnd }
  | verdict => { data := data, verdict := verdict }

def bufferedRun (avx2 : Bool) (head : Bytes) (reads : List Bytes) : BufferedBody :=
  reads.foldl (BufferedBody.read avx2 head.length) { data := head }

/-- The verdict of a decoder run over a body that starts at `start`. -/
def bodyVerdict (start : ℕ) (r : Drained ChunkedDecoder UInt8 String) : BodyVerdict :=
  if r.error.isSome then .malformed
  else if r.state.state = .done then .complete r.out r.state.trailers (start + r.consumed)
  else .waiting

end AlosHttp.H1

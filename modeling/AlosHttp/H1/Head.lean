import AlosHttp.H1.Scan

/-! The request-head parser of `h1_plain.go` and `h1_reject.go`. The tuple the source
returns is the structure `HeadResult`, which also carries the request as the parser
leaves it. -/
namespace AlosHttp.H1
open AlosHttp.Core

inductive H1RejectReason where
  | rejectNone
  | rejectRequestLine
  | rejectName
  | rejectCTL
  | rejectFold
  | rejectNoColon
  | rejectHost
  | rejectTransferEncoding
  deriving DecidableEq, Repr

inductive H1Expect where
  | expectNone
  | expectContinue
  | expectUnknown
  deriving DecidableEq, Repr

/-- The cached header values; `some` is a set bit of `headerCacheMask`. -/
structure HeaderCache where
  cl : Option Bytes := none
  conn : Option Bytes := none
  te : Option Bytes := none
  host : Option Bytes := none
  ae : Option Bytes := none
  origin : Option Bytes := none
  xff : Option Bytes := none
  xri : Option Bytes := none
  auth : Option Bytes := none
  upgrade : Option Bytes := none
  wsKey : Option Bytes := none
  wsVer : Option Bytes := none
  deriving DecidableEq, Repr

/-- The fields of a request that the head parser reads or writes. -/
structure Request where
  method : Bytes := []
  path : Bytes := []
  rawPath : Bytes := []
  query : Bytes := []
  proto : Bytes := []
  host : Bytes := []
  headers : List Field := []
  expect : H1Expect := .expectNone
  cached : HeaderCache := {}
  aliasesReadBuf : Bool := false
  deriving DecidableEq, Repr

def Request.resetFastH1 (r : Request) : Request :=
  { r with
    aliasesReadBuf := false, headers := [], rawPath := [], query := [],
    expect := .expectNone, cached := {} }

def classifyExpect (prev : H1Expect) (value : Bytes) : H1Expect :=
  if prev == .expectUnknown || value.length == 0 then prev
  else if asciiEqualFoldBytes value (ascii "100-continue") then .expectContinue
  else .expectUnknown

def h1HeaderLineReject (l : Bytes) : H1RejectReason :=
  if l.head? == some sp || l.head? == some htab then .rejectFold
  else match indexByte l colon with
    | some (_ + 1) => .rejectName
    | _ => .rejectNoColon

def splitAbsoluteForm (target : Bytes) : Option (Bytes × Bytes) :=
  let schemeLen :=
    if 7 ≤ target.length && equalFoldASCII (target.take 7) (ascii "http://") then 7
    else if 8 ≤ target.length && equalFoldASCII (target.take 8) (ascii "https://") then 8
    else 0
  if schemeLen == 0 then none
  else
    let after := target.drop schemeLen
    let authority := after.takeWhile fun c => !(c == slash || c == 63)
    let rest := after.drop authority.length
    let rest := if rest == [] || rest.head? == some 63 then slash :: rest else rest
    some (authority, rest)

def isH1Token (b : Bytes) : Bool := b.length != 0 && b.all h1TokenChar

def validH1Version (v : Bytes) : Bool :=
  v.take 7 == ascii "HTTP/1." && v.length == 8 && (v[7]? == some 48 || v[7]? == some 49)

def connectionOptionList (options : Bytes) : Bool × Bool :=
  (containsTokenFold options (ascii "close"), containsTokenFold options (ascii "keep-alive"))

def connectionOptions (value : Bytes) : Bool × Bool :=
  if asciiEqualFoldBytes value (ascii "keep-alive") then (false, true)
  else if asciiEqualFoldBytes value (ascii "close") then (true, false)
  else connectionOptionList value

structure HeadResult where
  headerEnd : ℕ := 0
  contentLength : ℤ := 0
  hasContentLength : Bool := false
  closeConn : Bool := false
  reject : H1RejectReason := .rejectNone
  chunkedEncoding : Bool := false
  tooLarge : Bool := false
  ok : Bool := false
  req : Request
  deriving DecidableEq, Repr

def needMore (req : Request) : HeadResult := { req }

def overLimit (req : Request) : HeadResult := { req, tooLarge := true }

def rejected (reason : H1RejectReason) (req : Request) : HeadResult :=
  { req, reject := reason, ok := true }

def HeadResult.Accepted (r : HeadResult) : Prop := r.ok = true ∧ r.reject = .rejectNone ∧ r.tooLarge = false

def HeadResult.NeedsMore (r : HeadResult) : Prop := r.ok = false ∧ r.reject = .rejectNone ∧ r.tooLarge = false

instance (r : HeadResult) : Decidable r.Accepted := inferInstanceAs (Decidable (_ ∧ _))

structure HeadState where
  contentLength : ℤ := 0
  hasContentLength : Bool := false
  closeConn : Bool := false
  keepAliveRequested : Bool := false
  chunkedEncoding : Bool := false
  badTransferEncoding : Bool := false
  hostCount : ℕ := 0
  req : Request
  deriving DecidableEq, Repr

/-- The name tests of the header switch: first byte in either case, then the whole name. -/
def nameIs (name lit : Bytes) : Bool :=
  (name.head? == lit.head? || name.head? == lit.head?.map asciiLower) && equalFoldASCII name lit

def HeadState.addHeader (st : HeadState) (f : Field) : HeadState :=
  { st with req := { st.req with headers := st.req.headers ++ [f] } }

def HeadState.cache (st : HeadState) (c : HeaderCache) : HeadState :=
  { st with req := { st.req with cached := c } }

def contentLengthField (val : Bytes) (st : HeadState) : HeadState :=
  let st := st.cache { st.req.cached with cl := some val }
  let parsed := parseUint val
  if st.hasContentLength then
    match parsed with
    | some n => if st.contentLength < 0 || (n : ℤ) != st.contentLength then
        { st with contentLength := -1 } else st
    | none => { st with contentLength := -1 }
  else
    match parsed with
    | some n => { st with hasContentLength := true, contentLength := n }
    | none => { st with hasContentLength := true, contentLength := -1 }

/-- The switch over the name's length. `none` is the rejected host. -/
def headerField (name val : Bytes) (hostSafe : Bool) (st : HeadState) : Option HeadState :=
  let cached := st.req.cached
  match name.length with
  | 4 =>
    if nameIs name (ascii "Host") then
      if !hostSafe && !validateHost val then none
      else some { st with
        hostCount := st.hostCount + 1,
        req := { st.req with host := val, cached := { cached with host := some val } } }
    else some st
  | 6 =>
    if nameIs name (ascii "Origin") then some (st.cache { cached with origin := some val })
    else if nameIs name (ascii "Expect") then
      some { st with req := { st.req with expect := classifyExpect st.req.expect val } }
    else some st
  | 7 =>
    if nameIs name (ascii "Upgrade") then some (st.cache { cached with upgrade := some val })
    else some st
  | 9 =>
    if nameIs name (ascii "X-Real-IP") then some (st.cache { cached with xri := some val })
    else some st
  | 10 =>
    if nameIs name (ascii "Connection") then
      let (closeRequested, keepAliveListed) := connectionOptions val
      some { st.cache { cached with conn := some val } with
        closeConn := st.closeConn || closeRequested,
        keepAliveRequested := st.keepAliveRequested || keepAliveListed }
    else some st
  | 13 =>
    if nameIs name (ascii "Authorization") then some (st.cache { cached with auth := some val })
    else some st
  | 14 =>
    if nameIs name (ascii "Content-Length") then some (contentLengthField val st) else some st
  | 15 =>
    if nameIs name (ascii "Accept-Encoding") then some (st.cache { cached with ae := some val })
    else if nameIs name (ascii "X-Forwarded-For") then
      some (st.cache { cached with xff := some val })
    else some st
  | 17 =>
    if nameIs name (ascii "Transfer-Encoding") then
      let st := st.cache { cached with te := some val }
      if equalFoldASCII val (ascii "chunked") then some { st with chunkedEncoding := true }
      else some { st with badTransferEncoding := true }
    else if nameIs name (ascii "Sec-WebSocket-Key") then
      some (st.cache { cached with wsKey := some val })
    else some st
  | 21 =>
    if nameIs name (ascii "Sec-WebSocket-Version") then
      some (st.cache { cached with wsVer := some val })
    else some st
  | _ => some st

structure RequestLine where
  http10 : Bool
  absoluteHost : Option Bytes
  deriving DecidableEq, Repr

/-- The accepted head: `Expect` is ignored for HTTP/1.0 and an absolute-form target names
the host. -/
def acceptHead (rl : RequestLine) (nl : ℕ) (st : HeadState) : HeadResult :=
  let req := if rl.http10 then { st.req with expect := .expectNone } else st.req
  let req := match rl.absoluteHost with
    | some h => { req with host := h, cached := { req.cached with host := some h } }
    | none => req
  { headerEnd := nl + 2
    contentLength := st.contentLength
    hasContentLength := st.hasContentLength
    closeConn := st.closeConn || rl.http10 && !st.keepAliveRequested
    chunkedEncoding := st.chunkedEncoding
    ok := true
    req := { req with aliasesReadBuf := true } }

def finishHead (rl : RequestLine) (nl : ℕ) (st : HeadState) : HeadResult :=
  if st.badTransferEncoding || st.chunkedEncoding && (st.hasContentLength || rl.http10) then
    rejected .rejectTransferEncoding st.req
  else if st.hostCount > 1 || st.hostCount == 0 && !rl.http10 then rejected .rejectHost st.req
  else acceptHead rl nl st

/-- One pass over the bytes from the current position: what the line there is. -/
inductive LineRead where
  | bad
  | incomplete
  | blank
  | malformed (reason : H1RejectReason)
  | field (name val : Bytes) (lineEndOff : ℕ) (hostSafe : Bool)
  deriving DecidableEq, Repr

def scanLine (avx2 : Bool) (remaining : Bytes) : Option ℕ × Option ℕ × Bool :=
  if remaining.length < h1ScalarScanMax then h1HeaderLineScalar remaining
  else
    let (special, nameEnd) := h1HeaderLineSpecials avx2 remaining
    (special, nameEnd, false)

def readLine (avx2 : Bool) (remaining : Bytes) : LineRead :=
  let (special, nameEnd, hostSafe) := scanLine avx2 remaining
  match classifyFirstSpecial remaining special with
  | (_, true) => .bad
  | (none, false) => .incomplete
  | (some lineEndOff, false) =>
    if lineEndOff == 0 then .blank
    else
      let l := remaining.take lineEndOff
      if !validH1Colon l nameEnd then .malformed (h1HeaderLineReject l)
      else
        let nameEnd := nameEnd.getD 0
        .field (l.take nameEnd) (trimOWS (l.drop (nameEnd + 1))) lineEndOff hostSafe

/-- The header loop. Every line takes at least two bytes, so the fuel covers `data`. -/
def headLoop (avx2 : Bool) (data : Bytes) (maxBytes maxCount : ℕ) (rl : RequestLine) :
    ℕ → ℕ → HeadState → HeadResult
  | 0, _, st => needMore st.req
  | fuel + 1, pos, st =>
    if data.length ≤ pos then needMore st.req
    else if pos > maxBytes then overLimit st.req
    else match readLine avx2 (data.drop pos) with
      | .bad => rejected .rejectCTL st.req
      | .incomplete => if data.length > maxBytes then overLimit st.req else needMore st.req
      | .blank => finishHead rl pos st
      | .malformed reason => rejected reason st.req
      | .field name val lineEndOff hostSafe =>
        let nl := pos + lineEndOff
        let st := st.addHeader (name, val)
        if st.req.headers.length > maxCount then
          { headerEnd := nl + 2
            contentLength := st.contentLength
            hasContentLength := st.hasContentLength
            closeConn := st.closeConn
            chunkedEncoding := st.chunkedEncoding
            tooLarge := true
            req := st.req }
        else match headerField name val hostSafe st with
          | none => rejected .rejectHost st.req
          | some st => headLoop avx2 data maxBytes maxCount rl fuel (nl + 2) st

def parseRequestLine (rl : Bytes) (req : Request) : Except (H1RejectReason × Request) (RequestLine × Request) :=
  match indexByte rl sp with
  | none => .error (.rejectRequestLine, req)
  | some sp1 =>
    match indexByte (rl.drop (sp1 + 1)) sp with
    | none => .error (.rejectRequestLine, req)
    | some 0 => .error (.rejectRequestLine, req)
    | some (k + 1) =>
      let sp2 := k + 1 + sp1 + 1
      if !validH1Version (rl.drop (sp2 + 1)) then .error (.rejectRequestLine, req)
      else
        let http10 := rl[sp2 + 8]? == some 48
        let req := { req with proto := if http10 then ascii "HTTP/1.0" else ascii "HTTP/1.1" }
        let methodBytes := rl.take sp1
        if !isH1Token methodBytes then .error (.rejectRequestLine, req)
        else
          let req := { req with method := methodBytes }
          let rawURI := (rl.take sp2).drop (sp1 + 1)
          let absolute :=
            if 0 < rawURI.length && rawURI.head? != some slash then splitAbsoluteForm rawURI
            else none
          let badHost := match absolute with
            | some (host, _) => host == [] || !validateHost host
            | none => false
          if badHost then .error (.rejectHost, req)
          else
            let rawURI := (absolute.map Prod.snd).getD rawURI
            let (pathPart, query) := splitPathQuery rawURI
            .ok ({ http10, absoluteHost := absolute.map Prod.fst },
              { req with path := sanitizeSplitPath pathPart, query, rawPath := rawURI })

def defaultMaxHeaderCount : ℕ := 128

def effectiveMaxBytes (maxHeaderBytes : ℤ) : ℕ :=
  if maxHeaderBytes ≤ 0 then 8192 else maxHeaderBytes.toNat

def effectiveMaxCount (maxHeaderCount : ℤ) : ℕ :=
  if maxHeaderCount ≤ 0 then defaultMaxHeaderCount else maxHeaderCount.toNat

def parseH1RequestHead (avx2 : Bool) (data : Bytes) (req : Request)
    (maxHeaderBytes maxHeaderCount : ℤ) : HeadResult :=
  let maxBytes := effectiveMaxBytes maxHeaderBytes
  let maxCount := effectiveMaxCount maxHeaderCount
  match classifyFirstSpecial data (firstH1Special avx2 data) with
  | (_, true) => rejected .rejectRequestLine req
  | (none, false) => if data.length > maxBytes then overLimit req else needMore req
  | (some idx, false) =>
    match parseRequestLine (data.take idx) req with
    | .error (reason, req) => rejected reason req
    | .ok (rl, req) =>
      headLoop avx2 data maxBytes maxCount rl data.length (idx + 2) { req }

end AlosHttp.H1

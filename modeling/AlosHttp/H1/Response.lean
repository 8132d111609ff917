import AlosHttp.Core.Utils

/-! Response heads and buffered responses: `h1.go`, `h1_plain.go`, `response.go` and the
stream head of `stream.go`. -/
namespace AlosHttp.H1
open AlosHttp.Core

def digitPair (d : ℕ) : Bytes := [UInt8.ofNat (d / 10 + 48), UInt8.ofNat (d % 10 + 48)]

/-- Digits are written from the end of the buffer, two at a time. -/
def uintLoop : ℕ → ℕ → Bytes → Bytes
  | 0, _, buf => buf
  | fuel + 1, n, buf =>
    if n ≥ 100 then uintLoop fuel (n / 100) (digitPair (n % 100) ++ buf)
    else if n ≥ 10 then digitPair n ++ buf
    else UInt8.ofNat (n + 48) :: buf

def appendUint (dst : Bytes) (n : ℕ) : Bytes :=
  if n = 0 then dst ++ [48] else dst ++ uintLoop n n []

def hexChar (d : ℕ) : UInt8 := if d < 10 then UInt8.ofNat (d + 48) else UInt8.ofNat (d - 10 + 97)

def hexLoop : ℕ → ℕ → Bytes → Bytes
  | 0, _, buf => buf
  | fuel + 1, n, buf => if n > 0 then hexLoop fuel (n / 16) (hexChar (n % 16) :: buf) else buf

def appendHex (dst : Bytes) (n : ℕ) : Bytes :=
  if n = 0 then dst ++ [48] else dst ++ hexLoop n n []

def statusText : ℕ → String
  | 200 => "OK"
  | 201 => "Created"
  | 204 => "No Content"
  | 206 => "Partial Content"
  | 301 => "Moved Permanently"
  | 302 => "Found"
  | 304 => "Not Modified"
  | 400 => "Bad Request"
  | 401 => "Unauthorized"
  | 403 => "Forbidden"
  | 404 => "Not Found"
  | 405 => "Method Not Allowed"
  | 408 => "Request Timeout"
  | 412 => "Precondition Failed"
  | 413 => "Payload Too Large"
  | 416 => "Range Not Satisfiable"
  | 421 => "Misdirected Request"
  | 429 => "Too Many Requests"
  | 431 => "Request Header Fields Too Large"
  | 500 => "Internal Server Error"
  | 502 => "Bad Gateway"
  | 503 => "Service Unavailable"
  | _ => "Unknown"

def statusLineText : ℕ → Option String
  | 200 => some "OK"
  | 201 => some "Created"
  | 202 => some "Accepted"
  | 204 => some "No Content"
  | 206 => some "Partial Content"
  | 301 => some "Moved Permanently"
  | 302 => some "Found"
  | 303 => some "See Other"
  | 304 => some "Not Modified"
  | 307 => some "Temporary Redirect"
  | 308 => some "Permanent Redirect"
  | 400 => some "Bad Request"
  | 401 => some "Unauthorized"
  | 403 => some "Forbidden"
  | 404 => some "Not Found"
  | 405 => some "Method Not Allowed"
  | 408 => some "Request Timeout"
  | 412 => some "Precondition Failed"
  | 413 => some "Payload Too Large"
  | 416 => some "Range Not Satisfiable"
  | 426 => some "Upgrade Required"
  | 429 => some "Too Many Requests"
  | 431 => some "Request Header Fields Too Large"
  | 500 => some "Internal Server Error"
  | 502 => some "Bad Gateway"
  | 503 => some "Service Unavailable"
  | _ => none

def appendStatusLine (buf : Bytes) (code : ℕ) : Bytes :=
  let text := (statusLineText code).getD (statusText code)
  appendUint (buf ++ ascii "HTTP/1.1 ") code ++ [sp] ++ ascii text ++ crlf

def isLineBreak (c : UInt8) : Bool := c == cr || c == lf || c == 0

/-- `containsLineBreak` with the NUL mask; the source tests eight bytes at a time. -/
def containsLineBreak (s : Bytes) : Bool := s.any isLineBreak

def sanitizeHeaderValue (v : Bytes) : Bytes :=
  if !containsLineBreak v then v else v.filter fun c => !isLineBreak c

def appendHeaderValueStripped (dst value : Bytes) : Bytes :=
  if !containsLineBreak value then dst ++ value else dst ++ value.filter fun c => !isLineBreak c

structure HttpDate where
  value : Bytes
  no_break : containsLineBreak value = false

/-- The configured server name, sanitized when the server is made. -/
structure ServerName where
  value : Bytes
  no_break : containsLineBreak value = false

theorem sanitizeHeaderValue_no_break (v : Bytes) : containsLineBreak (sanitizeHeaderValue v) = false := by
  unfold sanitizeHeaderValue
  split_ifs with h
  · simpa using h
  · simp [containsLineBreak]

def ServerName.ofConfig (name : Bytes) : ServerName :=
  if h : sanitizeHeaderValue name = [] then ⟨ascii "ALOS", by decide⟩
  else ⟨sanitizeHeaderValue name, sanitizeHeaderValue_no_break name⟩

def headersHaveFold (headers : List Field) (name : Bytes) : Bool := headers.any fun f => equalFoldASCII f.1 name

def dateLine (date : HttpDate) : Bytes := ascii "Date: " ++ date.value ++ crlf

def appendDateUnlessSet (date : HttpDate) (dst : Bytes) (headers : List Field) : Bytes :=
  if headers.length != 0 && headersHaveFold headers (ascii "Date") then dst
  else dst ++ dateLine date

def appendH1HeaderFields (dst : Bytes) : List Field → Bytes
  | [] => dst
  | f :: headers => appendH1HeaderFields (dst ++ f.1 ++ [colon, sp] ++ f.2 ++ crlf) headers

def ctPrefixJSON : Bytes := ascii "Content-Type: application/json; charset=utf-8\r\n"
def ctPrefixTextPlain : Bytes := ascii "Content-Type: text/plain; charset=utf-8\r\n"
def ctPrefixTextHTML : Bytes := ascii "Content-Type: text/html; charset=utf-8\r\n"
def ctPrefixOctet : Bytes := ascii "Content-Type: application/octet-stream\r\n"

/-- The prepared content type lines; the empty content type has no line. -/
def plainContentTypePreset (contentType : Bytes) : Option Bytes :=
  if contentType == [] then some []
  else if contentType == ascii "application/json; charset=utf-8" then some ctPrefixJSON
  else if contentType == ascii "text/plain; charset=utf-8" then some ctPrefixTextPlain
  else if contentType == ascii "text/html; charset=utf-8" then some ctPrefixTextHTML
  else if contentType == ascii "application/octet-stream" then some ctPrefixOctet
  else none

def appendContentTypeHeader (dst contentType : Bytes) : Bytes :=
  appendHeaderValueStripped (dst ++ ascii "Content-Type: ") contentType ++ crlf

/-- What a response to one request is made of; `method` is the request's. -/
structure Response where
  method : Bytes
  statusCode : ℕ
  contentType : Bytes
  headers : List Field
  body : Bytes

def plainOKHead (date : HttpDate) (resp : Response) : Option Bytes :=
  match plainContentTypePreset resp.contentType with
  | some ct =>
    if resp.headers.length == 0 || !headersHaveFold resp.headers (ascii "Date")
    then some (appendStatusLine [] 200 ++ dateLine date ++ ct) else none
  | none => none

/-- Whether the body is suppressed and whether the length is omitted. -/
def responseBodyDispositionSlow (method : Bytes) (statusCode : ℕ) : Bool × Bool :=
  if 100 ≤ statusCode ∧ statusCode < 200 then (true, true)
  else if statusCode = 204 ∨ statusCode = 205 then (true, true)
  else if statusCode = 304 then (true, true)
  else if method = [] then (false, false)
  else if (200 ≤ statusCode ∧ statusCode < 300) ∧ equalFoldASCII method (ascii "CONNECT") then
    (true, true)
  else (equalFoldASCII method (ascii "HEAD"), false)

def responseBodyDisposition (method : Bytes) (statusCode : ℕ) : Bool × Bool :=
  if statusCode = 200 ∧ method.length ≠ 4 ∧ method.length ≠ 7 then (false, false)
  else responseBodyDispositionSlow method statusCode

def serverConnHeadTail (serverName : ServerName) (keepAlive : Bool) : Bytes :=
  ascii (if keepAlive then "Connection: keep-alive\r\nServer: "
    else "Connection: close\r\nServer: ") ++ serverName.value ++ crlf ++ crlf

/-- The source takes lengths below 256 from a table of the same lines. -/
def appendContentLength (dst : Bytes) (bodyLen : ℕ) : Bytes :=
  appendUint (dst ++ ascii "Content-Length: ") bodyLen ++ crlf

/-- The head of `appendPlainResponseMode` up to the content type. -/
def appendPlainHead (date : HttpDate) (resp : Response) (dst : Bytes) : Bytes :=
  match (if resp.statusCode = 200 then plainOKHead date resp else none) with
  | some head => dst ++ head
  | none =>
    let dst := appendDateUnlessSet date (appendStatusLine dst resp.statusCode) resp.headers
    if resp.contentType ≠ [] then
      match plainContentTypePreset resp.contentType with
      | some ct => dst ++ ct
      | none => appendContentTypeHeader dst resp.contentType
    else dst

def appendPlainResponseMode (date : HttpDate) (serverName : ServerName) (resp : Response)
    (dst : Bytes) (keepAlive includeBody : Bool) : Bytes :=
  let dst := appendPlainHead date resp dst
  let (suppressBody, omitContentLength) := responseBodyDisposition resp.method resp.statusCode
  let dst := if !omitContentLength then appendContentLength dst resp.body.length else dst
  let dst := appendH1HeaderFields dst resp.headers
  let dst := dst ++ serverConnHeadTail serverName keepAlive
  if includeBody && !suppressBody then dst ++ resp.body else dst

def Response.transmittedBody (r : Response) : Bytes :=
  if (responseBodyDisposition r.method r.statusCode).1 then [] else r.body

def altSvcValue (port : ℕ) : Bytes := appendUint (appendUint (ascii "h3=\":") port ++ ascii "\"; ma=") 86400

def addAltSvcHeader (altSvc : Option ℕ) (resp : Response) : Response :=
  match altSvc with
  | some port =>
    if !headersHaveFold resp.headers (ascii "alt-svc")
    then { resp with headers := resp.headers ++ [(ascii "Alt-Svc", altSvcValue port)] } else resp
  | none => resp

/-- Chunked unless the last transfer coding says otherwise or a length is given. -/
def classifyH1StreamHeaders (headers : List Field) : Bool := headers.foldl (fun chunked f =>
    if equalFoldASCII f.1 (ascii "connection") then chunked
    else if equalFoldASCII f.1 (ascii "transfer-encoding") then
      equalFoldASCII f.2 (ascii "chunked")
    else if equalFoldASCII f.1 (ascii "content-length") then false
    else chunked) true

/-- Whether a number starts with a minus sign, and what follows the sign. -/
def splitSign (s : Bytes) : Bool × Bytes :=
  match s with
  | 43 :: t => (false, t)
  | 45 :: t => (true, t)
  | t => (false, t)

def parseInt64 (s : Bytes) : Option ℤ :=
  let (neg, digits) := splitSign s
  if digits = [] ∨ digits.all isDigit = false then none
  else
    let n : ℤ := decimalValue digits
    if neg then (if n ≤ 2 ^ 63 then some (-n) else none)
    else if n < 2 ^ 63 then some n else none

/-- The declared length, if any, and whether the connection is to be closed. -/
def scanH1StreamHeaders (headers : List Field) : Option ℕ × Bool := headers.foldl (fun r f =>
    if equalFoldASCII f.1 (ascii "content-length") then
      match parseInt64 f.2 with
      | some n => if n ≥ 0 then (some n.toNat, r.2) else r
      | none => r
    else if equalFoldASCII f.1 (ascii "connection") then
      (r.1, equalFoldASCII f.2 (ascii "close"))
    else r) (none, false)

def appendH1StreamHead (date : HttpDate) (buf : Bytes) (statusCode : ℕ) (headers : List Field)
    (contentType : Bytes) (chunked closeAfter : Bool) (serverName : ServerName)
    (altSvc : Option ℕ) : Bytes :=
  let buf := appendDateUnlessSet date (appendStatusLine buf statusCode) headers
  let buf := if contentType ≠ [] then appendContentTypeHeader buf contentType else buf
  let buf := if chunked then buf ++ ascii "Transfer-Encoding: chunked\r\n" else buf
  let buf := appendH1HeaderFields buf headers
  let buf := if !headersHaveFold headers (ascii "connection") then
      if closeAfter then buf ++ ascii "Connection: close\r\n"
      else buf ++ ascii "Connection: keep-alive\r\n"
    else buf
  let buf := if !headersHaveFold headers (ascii "server")
    then buf ++ ascii "Server: " ++ serverName.value ++ crlf else buf
  let buf := match altSvc with
    | some port => if headersHaveFold headers (ascii "alt-svc") then buf
      else buf ++ ascii "Alt-Svc: " ++ altSvcValue port ++ crlf
    | none => buf
  buf ++ crlf

def h1LastChunk : Bytes := ascii "0\r\n\r\n"

def appendH1Chunk (buf data : Bytes) : Bytes := buf ++ appendHex [] data.length ++ crlf ++ data ++ crlf

end AlosHttp.H1

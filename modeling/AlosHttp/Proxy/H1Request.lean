import AlosHttp.H1.ChunkedRun
import AlosHttp.H1.SelfDelimiting
import AlosHttp.H1.HeadGrammar
import AlosHttp.H1.RootWalk
import AlosHttp.H2.ResponseHeaders
import AlosHttp.Proxy.H2Client

/-! The request that the proxy writes to an HTTP/1 backend (`fp_h1.go`, `fp_body.go`, the header list
of `proxy_forward_fp_linux.go`, the filters of `proxy_forward.go` and `hop_by_hop.go`), and its
reading by the head parser and the chunked decoder. -/
namespace AlosHttp.Proxy
open AlosHttp.Core H1 Data Rfc9112 List
open H2 (headerNameIs)

def hopByHopHeaderNames : List Bytes :=
  [ascii "connection", ascii "keep-alive", ascii "te", ascii "trailer", ascii "transfer-encoding",
    ascii "upgrade", ascii "proxy-connection", ascii "proxy-authenticate",
    ascii "proxy-authorization"]

/-- The length mask of the source has the bits of the names' lengths. -/
def hopByHopLengthPossible (n : ℕ) : Bool := hopByHopHeaderNames.any fun h => h.length == n

def isHopByHopFold (name : Bytes) : Bool :=
  hopByHopLengthPossible name.length && hopByHopHeaderNames.any (headerNameIs name)

def isProxyFilteredHeaderFold (name : Bytes) : Bool :=
  if name.head? == some colon then true
  else match name.length with
  | 2 => headerNameIs name (ascii "te")
  | 4 => headerNameIs name (ascii "host")
  | 7 => headerNameIs name (ascii "trailer")
  | 9 => headerNameIs name (ascii "x-real-ip") || headerNameIs name (ascii "forwarded")
  | 10 => headerNameIs name (ascii "keep-alive")
  | 14 => headerNameIs name (ascii "content-length")
  | 15 => headerNameIs name (ascii "accept-encoding") || headerNameIs name (ascii "x-forwarded-for")
  | 16 => headerNameIs name (ascii "x-forwarded-host")
  | 17 => headerNameIs name (ascii "transfer-encoding") ||
      headerNameIs name (ascii "x-forwarded-proto")
  | 18 => headerNameIs name (ascii "proxy-authenticate")
  | 19 => headerNameIs name (ascii "proxy-authorization")
  | _ => false

def isASCIISpace (c : UInt8) : Bool := c == sp || c == htab || c == cr || c == lf

def trimASCIISpace (s : Bytes) : Bytes := (s.dropWhile isASCIISpace).rdropWhile isASCIISpace

/-- The tokens of one Connection value; the source spreads them over an array, a slice and
a map, which are looked up alike. -/
def connectionTokens (value : Bytes) : List Bytes :=
  ((value.splitOn comma).map trimASCIISpace).filter fun t => t != [] && !isHopByHopFold t

def connectionNominations (headers : List Field) : List Bytes :=
  (headers.filter fun h => equalFoldASCII h.1 (ascii "connection")).flatMap fun h =>
    connectionTokens h.2

def nominates (tokens : List Bytes) (name : Bytes) : Bool := tokens.any fun token => equalFoldASCII token name

/-- `forwarding` are the fields of `appendForwardingHeaderPairs`. -/
def fpProxyRequestHeaders (headers forwarding : List Field) : List Field :=
  headers.filter (fun h => !(isProxyFilteredHeaderFold h.1 || isHopByHopFold h.1 ||
    nominates (connectionNominations headers) h.1)) ++ forwarding

/-- The fields of a request that the serializer reads; `bodySource` tells whether the body
comes from a reader. -/
structure FpRequest where
  authority : Bytes
  method : Bytes
  path : Bytes
  hostHeader : Bytes := []
  headers : List Field
  body : Bytes := []
  bodySource : Bool := false
  bodyLength : ℤ := 0
  upgrade : Bytes := []

def appendField (dst : Bytes) (f : Field) : Bytes := dst ++ f.1 ++ [colon, sp] ++ f.2 ++ crlf

def appendH1Request (dst : Bytes) (req : FpRequest) : Bytes :=
  let dst := dst ++ req.method ++ [sp]
  let dst := if req.path == [] then dst ++ [slash] else dst ++ req.path
  let dst := dst ++ ascii " HTTP/1.1\r\nhost: "
  let dst := if req.hostHeader != [] then dst ++ req.hostHeader else dst ++ req.authority
  let dst := dst ++ crlf
  let dst := req.headers.foldl appendField dst
  let dst := if req.upgrade != [] then
      dst ++ ascii "connection: Upgrade\r\nupgrade: " ++ req.upgrade ++ crlf
    else dst
  let dst :=
    if req.bodySource && 0 < req.bodyLength then
      appendUint (dst ++ ascii "content-length: ") req.bodyLength.toNat ++ crlf
    else if req.bodySource then dst ++ ascii "transfer-encoding: chunked\r\n"
    else if req.body.length > 0 || req.method == ascii "POST" || req.method == ascii "PUT" ||
        req.method == ascii "PATCH" then
      appendUint (dst ++ ascii "content-length: ") req.body.length ++ crlf
    else dst
  let dst := dst ++ crlf
  if req.bodySource then dst else dst ++ req.body

def UpstreamBody.chunked (b : UpstreamBody) : Bool := b.length ≤ 0

def h1SendBodyChunk (b : UpstreamBody) (chunk : Bytes) (eof : Bool) : Option (UpstreamBody × Bytes) :=
  if !H2Conn.acceptChunk b chunk eof false then none
  else some ({ b with sent := b.sent + chunk.length, done := eof },
    if b.chunked then
      (if chunk.length > 0 then appendH1Chunk [] chunk else []) ++ (if eof then h1LastChunk else [])
    else chunk)

/-- The chunks of the reader in turn; the last one comes with its end. -/
def sendBody (b : UpstreamBody) : List Bytes → Option Bytes
  | [] => some []
  | [chunk] => (h1SendBodyChunk b chunk true).map Prod.snd
  | chunk :: next :: rest =>
    (h1SendBodyChunk b chunk false).bind fun s =>
      (sendBody s.1 (next :: rest)).map (s.2 ++ ·)

namespace FpRequest

/-- All bytes of the exchange, with the body in the pieces of its reader. -/
def wire (req : FpRequest) (pieces : List Bytes) : Option Bytes :=
  if req.bodySource then
    (sendBody { length := req.bodyLength } pieces).map (appendH1Request [] req ++ ·)
  else some (appendH1Request [] req)

def payload (req : FpRequest) (pieces : List Bytes) : Bytes :=
  if req.bodySource then pieces.flatten else req.body

def target (req : FpRequest) : Bytes := if req.path == [] then [slash] else req.path

def host (req : FpRequest) : Bytes :=
  if req.hostHeader != [] then req.hostHeader else req.authority

def requestLine (req : FpRequest) : Bytes := req.method ++ sp :: (req.target ++ sp :: ascii "HTTP/1.1")

def upgradeFields (req : FpRequest) : List Field :=
  if req.upgrade != [] then
    [(ascii "connection", ascii "Upgrade"), (ascii "upgrade", req.upgrade)] else []

def framingFields (req : FpRequest) : List Field :=
  if req.bodySource && 0 < req.bodyLength then
    [(ascii "content-length", appendUint [] req.bodyLength.toNat)]
  else if req.bodySource then [(ascii "transfer-encoding", ascii "chunked")]
  else if req.body.length > 0 || req.method == ascii "POST" || req.method == ascii "PUT" ||
      req.method == ascii "PATCH" then
    [(ascii "content-length", appendUint [] req.body.length)]
  else []

def fields (req : FpRequest) : List Field :=
  (ascii "host", req.host) :: (req.headers ++ req.upgradeFields ++ req.framingFields)

end FpRequest

def fieldText (f : Field) : Bytes := appendField [] f

theorem appendField_eq (dst : Bytes) (f : Field) : appendField dst f = dst ++ fieldText f := by
  simp [fieldText, appendField]

theorem foldl_appendField (fs : List Field) (dst : Bytes) : fs.foldl appendField dst = dst ++ fs.flatMap fieldText := by
  induction fs generalizing dst with
  | nil => simp
  | cons f fs ih =>
    rw [foldl_cons, ih, appendField_eq, flatMap_cons, append_assoc]

theorem appendH1Request_eq (req : FpRequest) : appendH1Request [] req =
    req.requestLine ++ crlf ++ (req.fields.flatMap fieldText ++ crlf) ++
      if req.bodySource then [] else req.body := by
  have hline : ascii " HTTP/1.1\r\nhost: " =
      sp :: (ascii "HTTP/1.1" ++ crlf ++ (ascii "host" ++ [colon, sp])) := by decide
  have hup : ascii "connection: Upgrade\r\nupgrade: " =
      fieldText (ascii "connection", ascii "Upgrade") ++ (ascii "upgrade" ++ [colon, sp]) := by decide
  have hname : ascii "content-length: " = ascii "content-length" ++ [colon, sp] := by decide
  have hcl : ∀ (dst : Bytes) (n : ℕ), appendUint (dst ++ ascii "content-length: ") n ++ crlf =
      dst ++ fieldText (ascii "content-length", appendUint [] n) := by
    intro dst n
    rw [appendUint_append, hname]
    simp [fieldText, appendField]
  have hte : ascii "transfer-encoding: chunked\r\n" =
      fieldText (ascii "transfer-encoding", ascii "chunked") := by decide
  unfold appendH1Request FpRequest.requestLine FpRequest.fields FpRequest.upgradeFields
    FpRequest.framingFields FpRequest.target FpRequest.host
  simp only [foldl_appendField, hline, hup, hcl, hte]
  split_ifs <;> simp [fieldText, appendField]

variable {pieces : List Bytes}

theorem sendBody_chunked {b : UpstreamBody} (hb : b.chunked = true) (hne : pieces ≠ []) :
    sendBody b pieces = some (chunksText (pieces.filter (!·.isEmpty)) ++ h1LastChunk) := by
  have haccept : ∀ (b : UpstreamBody) chunk eof, b.chunked = true → H2Conn.acceptChunk b chunk eof false = true := by
    intro b chunk eof h
    rw [UpstreamBody.chunked] at h
    simp [H2Conn.acceptChunk, h]
  induction pieces generalizing b with
  | nil => exact absurd rfl hne
  | cons p pieces ih =>
    have hfirst : chunksText ((p :: pieces).filter (!·.isEmpty)) =
        (if p.length > 0 then appendH1Chunk [] p else []) ++ chunksText (pieces.filter (!·.isEmpty)) := by
      cases p with
      | nil => simp
      | cons c p => simp [chunksText]
    rw [hfirst]
    rcases pieces with _ | ⟨q, pieces⟩
    · simp [sendBody, h1SendBodyChunk, haccept b p _ hb, hb, chunksText]
    have hnext := ih (b := { b with sent := b.sent + p.length, done := false }) hb (by simp)
    simp [sendBody, h1SendBodyChunk, haccept b p _ hb, hb, hnext]

theorem sendBody_length {b : UpstreamBody} (hb : b.chunked = false)
    (hne : pieces ≠ []) (hlen : b.sent + pieces.flatten.length = b.length) :
    sendBody b pieces = some pieces.flatten := by
  induction pieces generalizing b with
  | nil => exact absurd rfl hne
  | cons p pieces ih =>
    rcases pieces with _ | ⟨q, pieces⟩
    · have hsent : b.sent + p.length = b.length := by simpa using hlen
      simp [sendBody, h1SendBodyChunk, H2Conn.acceptChunk, hb, hsent]
    rw [flatten_cons, length_append, Nat.cast_add] at hlen
    have hsent : b.sent + p.length ≤ b.length := by omega
    have hnext := ih (b := { b with sent := b.sent + p.length, done := false }) hb (by simp) (by dsimp only; omega)
    rw [sendBody, h1SendBodyChunk]
    simp [H2Conn.acceptChunk, hb, hsent, hnext]

variable {c : UInt8}

private theorem hexDigit_lt {v : ℕ} (h : hexDigit c = some v) : v < 16 := by
  unfold hexDigit at h
  split_ifs at h with h1 h2 h3
  all_goals
    simp only [Option.some.injEq, UInt8.le_iff_toNat_le, UInt8.reduceToNat] at *
    omega

theorem le_digitFold {base : ℕ} (hb : 1 ≤ base) (v : UInt8 → ℕ) (ds : Bytes) (n : ℕ) :
    n ≤ ds.foldl (fun n c => n * base + v c) n := by
  induction ds generalizing n with
  | nil => exact le_refl n
  | cons c ds ih =>
    have hstep : n ≤ n * base + v c := Nat.le_add_right_of_le (Nat.le_mul_of_pos_right n hb)
    exact le_trans hstep (ih _)

variable {n k : ℕ} {fs : List Field} {st : HeadState}

theorem parseHex64Loop_digits {ds : Bytes} (hds : ∀ c ∈ ds, (hexDigit c).isSome = true) {m : ℕ}
    (hm : ds.foldl (fun n c => n * 16 + (hexDigit c).getD 0) n = m) (hmax : m ≤ maxParsedLength) :
    parseHex64Loop ds n = some m := by
  induction ds generalizing n with
  | nil => simpa [parseHex64Loop] using hm
  | cons c ds ih =>
    obtain ⟨hc, hds⟩ := forall_mem_cons.mp hds
    obtain ⟨v, hv⟩ := Option.isSome_iff_exists.mp hc
    have hv16 : v < 16 := hexDigit_lt hv
    have hor : n <<< 4 ||| v = n * 16 + v := by
      rw [← Nat.shiftLeft_add_eq_or_of_lt (by simpa using hv16), Nat.shiftLeft_eq]
    rw [foldl_cons, hv, Option.getD_some] at hm
    have hle : n * 16 + v ≤ m := hm ▸ le_digitFold (by omega) _ ds _
    have hlook : hexLookup c = some v := hv
    rw [parseHex64Loop, hlook]
    simp only [hor]
    rw [if_neg (by omega)]
    exact ih hds hm

theorem parseChunkSizeLine_appendHex (hn : n ≤ maxParsedLength) :
    parseChunkSizeLine (appendHex [] n ++ [cr]) = some n := by
  obtain ⟨hne, hall, hval⟩ := appendHex_digits n
  have htake : (appendHex [] n).takeWhile hexValid = appendHex [] n := takeWhile_eq_self_iff.mpr hall
  have hdrop : (appendHex [] n).dropWhile hexValid = [] := dropWhile_eq_nil_iff.mpr hall
  have hparse : parseHex64Bytes (appendHex [] n) = some n := by
    rw [parseHex64Bytes, if_neg (by simpa using hne)]
    exact parseHex64Loop_digits hall hval hn
  simp [parseChunkSizeLine, htake, hdrop, hparse, validChunkExtensions, validChunkExtensionsLoop]

theorem hexLoop_length (fuel : ℕ) (hn : n < 16 ^ k) (buf : Bytes) :
    (hexLoop fuel n buf).length ≤ buf.length + k := by
  induction fuel generalizing n k buf with
  | zero => simp [hexLoop]
  | succ fuel ih =>
    unfold hexLoop
    split_ifs with hpos
    · obtain ⟨k, rfl⟩ : ∃ j, k = j + 1 := ⟨k - 1, by rcases k with _ | k <;> simp at hn ⊢; omega⟩
      have hdiv : n / 16 < 16 ^ k := by
        rw [pow_succ] at hn
        omega
      have := ih hdiv (hexChar (n % 16) :: buf)
      rw [length_cons] at this
      omega
    · omega

theorem appendHex_length (hn : n ≤ maxParsedLength) : (appendHex [] n).length ≤ 13 := by
  unfold appendHex
  split_ifs
  · simp
  have hlt : n < 16 ^ 13 := lt_of_le_of_lt hn (by norm_num [maxParsedLength])
  simpa using hexLoop_length n hlt []

theorem framingLineEnd_line {l : Bytes} (hl : lf ∉ l) (hlen : l.length + 2 ≤ chunkedFramingLineMax)
    (rest : Bytes) : framingLineEnd (l ++ (crlf ++ rest)) = some (l.length + 1) := by
  have hno : ∀ c ∈ l ++ [cr], (c == lf) = false := by
    intro c hc
    rcases mem_append.mp hc with hc | hc
    · simpa using fun h : c = lf => hl (h ▸ hc)
    rw [mem_singleton.mp hc]
    decide
  have hline : framingLineEnd (l ++ crlf) = some (l.length + 1) := by
    rw [framingLineEnd, take_of_length_le (by simpa [crlf] using hlen), indexByte,
      show l ++ crlf = (l ++ [cr]) ++ [lf] by simp [crlf], findIdx?_append,
      findIdx?_eq_none_iff.mpr hno]
    simp [findIdx?_cons]
  rw [← append_assoc]
  exact framingLineEnd_append hline rest

theorem lf_notMem_appendHex (n : ℕ) : lf ∉ appendHex [] n := by
  intro h
  have := (appendHex_digits n).2.1 lf h
  revert this
  decide

open ChunkedDecoder

theorem drain_chunk (avx2 : Bool) {p : Bytes} (hp : p ≠ []) (hlen : p.length ≤ maxParsedLength)
    (rest : Bytes) : drain (next avx2) { captureTrailers := true } (appendH1Chunk [] p ++ rest) =
    (drain (next avx2) { captureTrailers := true } rest).after (appendH1Chunk [] p).length p := by
  have hinc := next_incremental avx2
  have hpos : p.length ≠ 0 := fun h => hp (length_eq_zero_iff.mp h)
  let d₀ : ChunkedDecoder := { captureTrailers := true }
  let d₁ : ChunkedDecoder := { captureTrailers := true, state := .inData, left := p.length }
  let d₂ : ChunkedDecoder := { captureTrailers := true, state := .awaitDataEnd }
  have hsize : d₀.next avx2 (appendH1Chunk [] p ++ rest) = (d₁, .ok ((appendHex [] p.length).length + 2, [])) := by
    have hline := framingLineEnd_line (lf_notMem_appendHex p.length)
      (by have := appendHex_length hlen; unfold chunkedFramingLineMax; omega) (p ++ crlf ++ rest)
    have htext : appendH1Chunk [] p ++ rest =
        appendHex [] p.length ++ (crlf ++ (p ++ crlf ++ rest)) := by simp [appendH1Chunk]
    have htake : (appendHex [] p.length ++ (crlf ++ (p ++ crlf ++ rest))).take
        ((appendHex [] p.length).length + 1 + 1) = appendHex [] p.length ++ crlf := by
      rw [← append_assoc]
      exact take_left' (by simp [crlf])
    have hcut : (appendHex [] p.length ++ crlf).dropLast = appendHex [] p.length ++ [cr] := by
      rw [show appendHex [] p.length ++ crlf = appendHex [] p.length ++ [cr] ++ [lf] by simp [crlf],
        dropLast_concat]
    obtain ⟨k, _⟩ := Nat.exists_eq_add_one_of_ne_zero hpos
    rw [htext, next_line avx2 _ (.inl rfl), hline]
    simp only [framingLine, sizeLine, htake, hcut, parseChunkSizeLine_appendHex hlen, d₀, d₁, reduceCtorEq, if_false]
    simp [crlf]
  have hdata : d₁.next avx2 (p ++ (crlf ++ rest)) = (d₂, .ok (p.length, p)) := by
    rw [next_data avx2 _ rfl, if_neg (by simp [d₁])]
    simp [d₁, d₂]
  have hend : d₂.next avx2 (crlf ++ rest) = (d₀, .ok (2, [])) := by
    rw [next_dataEnd avx2 _ rfl, if_neg (by simp [crlf]), if_neg (by simp [crlf])]
  have hinit : d₀.Inv := .init true
  have h₁ := hinc.keeps hinit hsize
  have h₂ := hinc.keeps h₁ hdata
  have hdrop : (appendH1Chunk [] p ++ rest).drop ((appendHex [] p.length).length + 2) = p ++ (crlf ++ rest) := by
    rw [show appendH1Chunk [] p ++ rest = appendHex [] p.length ++ crlf ++ (p ++ (crlf ++ rest)) by
      simp [appendH1Chunk]]
    exact drop_left' (by simp [crlf])
  have hrest : (crlf ++ rest).drop 2 = rest := rfl
  rw [hinc.drain_ok hinit hsize (by omega), hdrop, hinc.drain_ok h₁ hdata hpos, drop_left,
    hinc.drain_ok h₂ hend (by omega), hrest, Drained.after_after, Drained.after_after]
  congr 1
  · simp [appendH1Chunk, crlf]
    omega
  · simp

theorem drain_chunks (avx2 : Bool) (h : ∀ p ∈ pieces, p ≠ [] ∧ p.length ≤ maxParsedLength) :
    drain (next avx2) { captureTrailers := true } (chunksText pieces ++ h1LastChunk) =
      ⟨{ captureTrailers := true, state := .done, trailerBytes := 2 },
        (chunksText pieces ++ h1LastChunk).length, pieces.flatten, none⟩ := by
  induction pieces with
  | nil => cases avx2 <;> rfl
  | cons p pieces ih =>
    obtain ⟨hp, hps⟩ := forall_mem_cons.mp h
    rw [show chunksText (p :: pieces) = appendH1Chunk [] p ++ chunksText pieces by simp [chunksText],
      append_assoc, drain_chunk avx2 hp.1 hp.2, ih hps]
    simp [Drained.after]

theorem digitVal_digit (h : isDigit c = true) :
    (digitVal c == 0xFF) = false ∧ (digitVal c).toNat = c.toNat - 48 := by
  revert h
  exact forall_byte (P := fun c => isDigit c = true →
    (digitVal c == 0xFF) = false ∧ (digitVal c).toNat = c.toNat - 48) (by decide +kernel) c

theorem parseUintLoop_digits {ds : Bytes} (hds : ∀ c ∈ ds, isDigit c = true) {m : ℕ}
    (hm : ds.foldl (fun n c => n * 10 + (c.toNat - 48)) n = m) (hmax : m ≤ maxParsedLength) :
    parseUintLoop ds n = some m := by
  induction ds generalizing n with
  | nil => simpa [parseUintLoop] using hm
  | cons c ds ih =>
    obtain ⟨hc, hds⟩ := forall_mem_cons.mp hds
    obtain ⟨hd, hval⟩ := digitVal_digit hc
    have hle : n * 10 + (c.toNat - 48) ≤ m := hm ▸ le_digitFold (by omega) _ ds _
    rw [parseUintLoop]
    simp only [hd, hval, Bool.false_eq_true, if_false]
    rw [if_neg (by omega)]
    exact ih hds hm

theorem parseUint_appendUint (hn : n ≤ maxParsedLength) : parseUint (appendUint [] n) = some n := by
  obtain ⟨hne, hall, hval⟩ := appendUint_spec n
  rw [parseUint, if_neg (by simpa using hne)]
  exact parseUintLoop_digits hall hval hn

structure Sendable (f : Field) : Prop where
  name_ne : f.1 ≠ []
  name_token : ∀ c ∈ f.1, h1TokenChar c = true
  value_plain : ∀ c ∈ f.2, isH1Special c = false
  value_trimmed : trimOWS f.2 = f.2

theorem exists_lines (h : ∀ f ∈ fs, Sendable f) :
    ∃ ls : List FieldLine, ls.map FieldLine.field = fs ∧ block ls = fs.flatMap fieldText := by
  induction fs with
  | nil => exact ⟨[], rfl, rfl⟩
  | cons f fs ih =>
    obtain ⟨hf, hfs⟩ := forall_mem_cons.mp h
    obtain ⟨ls, hmap, hblock⟩ := ih hfs
    have hplain : ∀ c ∈ sp :: f.2, isH1Special c = false := forall_mem_cons.mpr ⟨by decide, hf.value_plain⟩
    have htrim : trimOWS (sp :: f.2) = f.2 := by
      have hblank : ∀ c ∈ [sp], isOWS c = true := forall_mem_singleton.mpr (by decide)
      exact (trimOWS_append_left hblank).trans hf.value_trimmed
    refine ⟨⟨f.1, sp :: f.2, hf.name_ne, hf.name_token, hplain⟩ :: ls, ?_, ?_⟩
    · rw [map_cons, hmap, FieldLine.field]
      simp only [htrim]
    rw [block_cons, hblock, flatMap_cons]
    simp [FieldLine.bytes, FieldLine.text, fieldText, appendField]

theorem stepFields_headers {st' : HeadState} (h : stepFields st fs = some st') :
    st'.req.headers = st.req.headers ++ fs := by
  induction fs generalizing st with
  | nil =>
    obtain rfl : st = st' := by simpa using h
    simp
  | cons f fs ih =>
    obtain ⟨_, h1, h2⟩ := stepFields_cons_some.mp h
    rw [ih h2, stepField_headers h1, append_assoc, singleton_append]

theorem sendable_of_accepted {avx2 : Bool} {data : Bytes} {maxBytes maxCount : ℤ}
    (h : (parseH1RequestHead avx2 data {} maxBytes maxCount).Accepted) :
    ∀ f ∈ (parseH1RequestHead avx2 data {} maxBytes maxCount).req.headers, Sendable f := by
  obtain ⟨s, rest, rfl⟩ := parse_accepted avx2 rfl maxBytes maxCount h
  rw [parse_text avx2 rfl maxBytes maxCount s rest] at h ⊢
  obtain ⟨_, _, _, _, heq⟩ := finishHead_accepted h
  have hline := parseRequestLine_headers s.line_ok
  have hheaders := stepFields_headers s.fields_ok
  rw [HeadShape.result, heq, acceptHead_headers, hheaders, hline]
  intro f hf
  obtain ⟨l, _, rfl⟩ := mem_map.mp (by simpa using hf)
  refine ⟨l.name_ne, l.name_token, ?_, trimOWS_trimOWS l.raw⟩
  intro c hc
  exact l.raw_plain c (mem_trimOWS_append (forall_mem_nil _) hc)

/-- The variables of the header loop that decide about framing and host. -/
def framingVars (st : HeadState) : ℤ × Bool × Bool × Bool × ℕ :=
  (st.contentLength, st.hasContentLength, st.chunkedEncoding, st.badTransferEncoding, st.hostCount)

def Neutral (name : Bytes) : Prop :=
  nameKind name ≠ .host ∧ nameKind name ≠ .contentLength ∧ nameKind name ≠ .transferEncoding

theorem stepFields_neutral (h : ∀ f ∈ fs, Neutral f.1) (st : HeadState) :
    ∃ st', stepFields st fs = some st' ∧ framingVars st' = framingVars st := by
  induction fs generalizing st with
  | nil => exact ⟨st, rfl, rfl⟩
  | cons f fs ih =>
    obtain ⟨hf, hfs⟩ := forall_mem_cons.mp h
    obtain ⟨c, hc⟩ := headerField_eq f.1 f.2 false (st.addHeader f)
    obtain ⟨st₁, h1, hv⟩ : ∃ st₁, stepField st f = some st₁ ∧ framingVars st₁ = framingVars st := by
      unfold stepField
      rw [hc]
      cases hk : nameKind f.1 with
      | host => exact absurd hk hf.1
      | contentLength => exact absurd hk hf.2.1
      | transferEncoding => exact absurd hk hf.2.2
      | expect | connection | other => exact ⟨_, rfl, rfl⟩
    obtain ⟨st', h2, hv'⟩ := ih hfs st₁
    exact ⟨st', stepFields_cons_some.mpr ⟨st₁, h1, h2⟩, hv'.trans hv⟩

variable {name : Bytes}

theorem neutral_of_unfiltered (hp : isProxyFilteredHeaderFold name = false) : Neutral name := by
  have hfiltered : ∀ lit : Bytes, equalFoldASCII name lit = true → lit = ascii "Host" ∨
      lit = ascii "Content-Length" ∨ lit = ascii "Transfer-Encoding" → False := by
    intro lit h hlit
    have hname := beq_iff_eq.mpr ((equalFoldASCII_iff _ _).mp h)
    have hlen := equalFoldASCII_length h
    rw [isProxyFilteredHeaderFold] at hp
    split_ifs at hp
    rcases hlit with rfl | rfl | rfl
    · change headerNameIs name (ascii "host") = true at hname
      simp [show name.length = 4 from hlen, hname] at hp
    · change headerNameIs name (ascii "content-length") = true at hname
      simp [show name.length = 14 from hlen, hname] at hp
    change headerNameIs name (ascii "transfer-encoding") = true at hname
    simp [show name.length = 17 from hlen, hname] at hp
  unfold Neutral
  rcases nameKind_cases name with ⟨hk, he⟩ | ⟨hk, -⟩ | ⟨hk, -⟩ | ⟨hk, he⟩ | ⟨hk, he⟩ | ⟨hk, -⟩
  · exact absurd (.inl rfl) (hfiltered _ he)
  · simp [hk]
  · simp [hk]
  · exact absurd (.inr (.inl rfl)) (hfiltered _ he)
  · exact absurd (.inr (.inr rfl)) (hfiltered _ he)
  · simp [hk]

theorem forwarded_spec {headers forwarding : List Field} (hh : ∀ f ∈ headers, Sendable f)
    (hf : ∀ f ∈ forwarding, Sendable f ∧ Neutral f.1) :
    ∀ f ∈ fpProxyRequestHeaders headers forwarding, Sendable f ∧ Neutral f.1 := by
  intro f hmem
  rcases mem_append.mp hmem with hmem | hmem
  · obtain ⟨hin, hkeep⟩ := mem_filter.mp hmem
    simp only [Bool.not_eq_true', Bool.or_eq_false_iff] at hkeep
    exact ⟨hh f hin, neutral_of_unfiltered hkeep.1.1⟩
  · exact hf f hmem

theorem method_bytes {m : Bytes} (h : isH1Token m = true) :
    ∀ c ∈ m, isH1Special c = false ∧ (c == sp) = false := by
  intro c hc
  simp only [isH1Token, Bool.and_eq_true, all_eq_true] at h
  have htok := h.2 c hc
  revert htok
  exact forall_byte (P := fun c => h1TokenChar c = true → isH1Special c = false ∧ (c == sp) = false)
    (by decide +kernel) c

theorem parseRequestLine_method {req : FpRequest} {r lineReq : Request} {rl : RequestLine}
    (hm : isH1Token req.method = true)
    (h : parseRequestLine req.requestLine r = .ok (rl, lineReq)) :
    lineReq.method = req.method ∧ rl.http10 = false ∧
      (req.target.head? = some slash → lineReq.rawPath = req.target) := by
  have hsp : ∀ c ∈ req.method, (c == sp) = false := fun c hc => (method_bytes hm c hc).2
  have h1 : indexByte req.requestLine sp = some req.method.length := by
    rw [indexByte, FpRequest.requestLine, findIdx?_append, findIdx?_eq_none_iff.mpr hsp]
    simp [findIdx?_cons]
  have hdrop : req.requestLine.drop (req.method.length + 1) = req.target ++ sp :: ascii "HTTP/1.1" := by
    rw [FpRequest.requestLine, ← drop_drop, drop_left]
    rfl
  have hlen : req.requestLine.length = req.method.length + req.target.length + 10 := by
    have hv : (ascii "HTTP/1.1").length = 8 := by decide
    simp only [FpRequest.requestLine, length_append, length_cons, hv]
    omega
  unfold parseRequestLine at h
  simp only [h1, hdrop] at h
  split at h
  · cases h
  · cases h
  rename_i k hk
  have hver : validH1Version (req.requestLine.drop (k + 1 + req.method.length + 1 + 1)) = true := by
    by_contra hv
    rw [if_pos (by simpa using hv)] at h
    cases h
  -- the version has eight bytes, so the second space is the one before it
  have hk' : k + 1 = req.target.length := by
    simp only [validH1Version, Bool.and_eq_true, beq_iff_eq, length_drop] at hver
    omega
  have hsplit : req.requestLine = (req.method ++ sp :: req.target) ++ (sp :: ascii "HTTP/1.1") := by
    simp [FpRequest.requestLine]
  have hlast : req.requestLine[k + 1 + req.method.length + 1 + 8]? = some 49 := by
    rw [hsplit, getElem?_append_right (by simp; omega)]
    rw [show k + 1 + req.method.length + 1 + 8 - (req.method ++ sp :: req.target).length = 8 by
      simp; omega]
    decide
  have huri : (req.requestLine.take (k + 1 + req.method.length + 1)).drop (req.method.length + 1) = req.target := by
    rw [drop_take, hdrop]
    exact take_left' (by omega)
  have htake : req.requestLine.take req.method.length = req.method := take_left
  have hten : (req.requestLine[k + 1 + req.method.length + 1 + 8]? == some 48) = false := by
    rw [hlast]
    decide
  simp only [huri, htake, hver, hm, hten, Bool.not_true, Bool.false_eq_true, if_false] at h
  generalize habs : (if (decide (0 < req.target.length) && req.target.head? != some slash) = true
    then splitAbsoluteForm req.target else none) = absolute at h
  split_ifs at h with hbad
  obtain ⟨rfl, rfl⟩ := h
  refine ⟨rfl, rfl, ?_⟩
  intro hslash
  rw [hslash] at habs
  obtain rfl : none = absolute := by simpa using habs
  rfl

/-- What a request that is written to the backend has to satisfy; the last two fields are
the limits of the reader. -/
structure Writable (req : FpRequest) (pieces : List Bytes) (maxBytes maxCount : ℕ) : Prop where
  method : isH1Token req.method = true
  target_plain : ∀ c ∈ req.target, isH1Special c = false
  host : validateHost req.host = true
  upgrade_plain : ∀ c ∈ req.upgrade, isH1Special c = false
  upgrade_trimmed : trimOWS req.upgrade = req.upgrade
  pieces_ne : req.bodySource = true → pieces ≠ []
  length : req.bodySource = true → 0 < req.bodyLength → pieces.flatten.length = req.bodyLength
  body_max : (req.payload pieces).length ≤ maxParsedLength
  size_max : req.requestLine.length + 2 + (req.fields.flatMap fieldText).length ≤ maxBytes
  count_max : req.fields.length ≤ maxCount

theorem hostChar_plain (h : invalidHostChar c = 0 ∨ isDigit c = true) :
    isH1Special c = false ∧ isOWS c = false := by
  revert h
  exact forall_byte (P := fun c => invalidHostChar c = 0 ∨ isDigit c = true →
    isH1Special c = false ∧ isOWS c = false) (by decide +kernel) c

theorem sendable_free {value : Bytes} (hne : name ≠ []) (hname : name.all h1TokenChar = true)
    (hv : ∀ c ∈ value, isH1Special c = false ∧ isOWS c = false) : Sendable (name, value) where
  name_ne := hne
  name_token := all_eq_true.mp hname
  value_plain c hc := (hv c hc).1
  value_trimmed := trimOWS_free fun c hc => (hv c hc).2

theorem stepFields_append_some {st₁ st₂ : HeadState} {a b : List Field}
    (h1 : stepFields st a = some st₁) (h2 : stepFields st₁ b = some st₂) :
    stepFields st (a ++ b) = some st₂ := by
  unfold stepFields at *
  rw [foldlM_append, h1]
  exact h2

theorem stepField_kind {kind : NameKind} (hk : nameKind name = kind)
    (value : Bytes) (st : HeadState) : ∃ c, stepField st (name, value) =
      fieldEffect value false (st.addHeader (name, value)) c kind :=
  hk ▸ headerField_eq name value false (st.addHeader (name, value))

theorem stepField_host {host : Bytes} (h : validateHost host = true) (st : HeadState) :
    ∃ st', stepField st (ascii "host", host) = some st' ∧ framingVars st' =
      (st.contentLength, st.hasContentLength, st.chunkedEncoding, st.badTransferEncoding, st.hostCount + 1) := by
  obtain ⟨c, hc⟩ := stepField_kind (show nameKind (ascii "host") = .host by decide) host st
  rw [fieldEffect, h] at hc
  exact ⟨_, hc, rfl⟩

theorem stepField_length (hn : n ≤ maxParsedLength) (hst : framingVars st = (0, false, false, false, k)) :
    ∃ st', stepField st (ascii "content-length", appendUint [] n) = some st' ∧
      framingVars st' = ((n : ℤ), true, false, false, k) := by
  obtain ⟨c, hc⟩ := stepField_kind
    (show nameKind (ascii "content-length") = .contentLength by decide) (appendUint [] n) st
  rw [fieldEffect] at hc
  refine ⟨_, hc, ?_⟩
  simp only [framingVars, Prod.mk.injEq] at hst
  simp [framingVars, contentLengthField, HeadState.cache, HeadState.addHeader, hst, parseUint_appendUint hn]

theorem stepField_chunked (hst : framingVars st = (0, false, false, false, k)) :
    ∃ st', stepField st (ascii "transfer-encoding", ascii "chunked") = some st' ∧
      framingVars st' = (0, false, true, false, k) := by
  obtain ⟨c, hc⟩ := stepField_kind
    (show nameKind (ascii "transfer-encoding") = .transferEncoding by decide) (ascii "chunked") st
  rw [fieldEffect, if_pos (by decide)] at hc
  refine ⟨_, hc, ?_⟩
  simp only [framingVars, Prod.mk.injEq] at hst
  simp [framingVars, HeadState.cache, HeadState.addHeader, hst]

section
variable {req : FpRequest} {pieces : List Bytes} {maxBytes maxCount : ℕ}

theorem Writable.fields_sendable (hw : Writable req pieces maxBytes maxCount)
    (hh : ∀ f ∈ req.headers, Sendable f) : ∀ f ∈ req.fields, Sendable f := by
  have hhost : Sendable (ascii "host", req.host) := by
    apply sendable_free (by decide) (by decide)
    intro c hc
    exact hostChar_plain (.inl ((validateHost_iff _).mp hw.host c hc))
  have hdigits : ∀ n, Sendable (ascii "content-length", appendUint [] n) := by
    intro n
    apply sendable_free (by decide) (by decide)
    intro c hc
    exact hostChar_plain (.inr ((appendUint_spec n).2.1 c hc))
  have hliteral : ∀ v : Bytes, (v.all fun c => !isH1Special c && !isOWS c) = true →
      ∀ c ∈ v, isH1Special c = false ∧ isOWS c = false := by
    intro v h c hc
    simpa using all_eq_true.mp h c hc
  have hupgrade : ∀ f ∈ req.upgradeFields, Sendable f := by
    have hname : ascii "upgrade" ≠ [] ∧ (ascii "upgrade").all h1TokenChar = true := by decide
    unfold FpRequest.upgradeFields
    split_ifs
    · refine forall_mem_cons.mpr ⟨?_, forall_mem_singleton.mpr ?_⟩
      · exact sendable_free (by decide) (by decide) (hliteral _ (by decide))
      · exact ⟨hname.1, all_eq_true.mp hname.2, hw.upgrade_plain, hw.upgrade_trimmed⟩
    · simp
  have hframing : ∀ f ∈ req.framingFields, Sendable f := by
    unfold FpRequest.framingFields
    split_ifs
    · exact forall_mem_singleton.mpr (hdigits _)
    · exact forall_mem_singleton.mpr (sendable_free (by decide) (by decide) (hliteral _ (by decide)))
    · exact forall_mem_singleton.mpr (hdigits _)
    · simp
  intro f hf
  rw [FpRequest.fields, mem_cons, mem_append, mem_append] at hf
  rcases hf with rfl | (hf | hf) | hf
  · exact hhost
  · exact hh f hf
  · exact hupgrade f hf
  · exact hframing f hf

def Framed (req : FpRequest) (pieces : List Bytes) (st : HeadState) : Prop :=
  st.badTransferEncoding = false ∧ st.hostCount = 1 ∧ (st.chunkedEncoding = true → st.hasContentLength = false) ∧
    st.chunkedEncoding = (req.bodySource && !decide (0 < req.bodyLength)) ∧
    (st.chunkedEncoding = false → st.contentLength = (req.payload pieces).length)

section
variable (hw : Writable req pieces maxBytes maxCount)
include hw

open FpRequest

theorem Writable.stepFields_fields (hn : ∀ f ∈ req.headers, Neutral f.1) (lineReq : Request) :
    ∃ st, stepFields { req := lineReq } req.fields = some st ∧ Framed req pieces st := by
  have hup : ∀ f ∈ req.headers ++ req.upgradeFields, Neutral f.1 := by
    intro f hf
    rcases mem_append.mp hf with hf | hf
    · exact hn f hf
    unfold upgradeFields at hf
    split_ifs at hf
    · have hnames : Neutral (ascii "connection") ∧ Neutral (ascii "upgrade") := by
        unfold Neutral
        decide
      rw [mem_cons, mem_singleton] at hf
      rcases hf with rfl | rfl
      · exact hnames.1
      · exact hnames.2
    · simp at hf
  obtain ⟨st₁, h1, hv1⟩ := stepField_host hw.host { req := lineReq }
  obtain ⟨st₂, h2, hv2⟩ := stepFields_neutral hup st₁
  have hvars := hv2.trans hv1
  suffices ∃ st, stepFields st₂ req.framingFields = some st ∧ Framed req pieces st by
    obtain ⟨st, h3, hst⟩ := this
    refine ⟨st, ?_, hst⟩
    exact stepFields_cons_some.mpr ⟨st₁, h1, stepFields_append_some h2 h3⟩
  have hlength : ∀ n, n ≤ maxParsedLength → ∃ st, stepFields st₂ [(ascii "content-length", appendUint [] n)] = some st ∧
        framingVars st = ((n : ℤ), true, false, false, 1) := by
    intro n hmax
    obtain ⟨st, h3, hv3⟩ := stepField_length hmax hvars
    exact ⟨st, stepFields_cons_some.mpr ⟨st, h3, rfl⟩, hv3⟩
  have hbody := hw.body_max
  unfold payload at hbody
  unfold Framed payload framingFields
  cases hsrc : req.bodySource with
  | true =>
    by_cases hpos : 0 < req.bodyLength
    · have hlen := hw.length hsrc hpos
      simp only [hsrc, if_true] at hbody
      have hnat : req.bodyLength.toNat = pieces.flatten.length := by omega
      obtain ⟨st, h3, hv3⟩ := hlength req.bodyLength.toNat (by omega)
      simp only [framingVars, Prod.mk.injEq] at hv3
      refine ⟨st, by simpa [hpos] using h3, hv3.2.2.2.1, hv3.2.2.2.2, ?_, ?_, ?_⟩
      · simp [hv3.2.2.1]
      · simp [hv3.2.2.1, hpos]
      intro _
      rw [hv3.1, hnat]
      simp
    obtain ⟨st, h3, hv3⟩ := stepField_chunked hvars
    simp only [framingVars, Prod.mk.injEq] at hv3
    refine ⟨st, ?_, hv3.2.2.2.1, hv3.2.2.2.2, fun _ => hv3.2.1, ?_, ?_⟩
    · simp only [hpos, decide_false, Bool.and_false, Bool.false_eq_true, if_false, if_true]
      exact stepFields_cons_some.mpr ⟨st, h3, rfl⟩
    · simp [hv3.2.2.1, hpos]
    · simp [hv3.2.2.1]
  | false =>
    simp only [hsrc, Bool.false_eq_true, if_false] at hbody
    simp only [Bool.false_and, Bool.false_eq_true, if_false]
    split_ifs with hcl
    · obtain ⟨st, h3, hv3⟩ := hlength req.body.length hbody
      simp only [framingVars, Prod.mk.injEq] at hv3
      refine ⟨st, h3, hv3.2.2.2.1, hv3.2.2.2.2, ?_, hv3.2.2.1, fun _ => hv3.1⟩
      simp [hv3.2.2.1]
    simp only [framingVars, Prod.mk.injEq] at hvars
    refine ⟨st₂, rfl, hvars.2.2.2.1, hvars.2.2.2.2, fun _ => hvars.2.1, hvars.2.2.1, ?_⟩
    intro _
    have hempty : req.body = [] := by
      simp only [Bool.or_eq_true, not_or, decide_eq_true_eq] at hcl
      exact length_eq_zero_iff.mp (by omega)
    rw [hvars.1, hempty]
    rfl

theorem Writable.line_plain : ∀ c ∈ req.requestLine, isH1Special c = false := by
  have hversion : ((sp :: ascii "HTTP/1.1").all fun c => !isH1Special c) = true := by decide
  intro c hc
  rw [requestLine, mem_append, mem_cons, mem_append] at hc
  rcases hc with hc | rfl | hc | hc
  · exact (method_bytes hw.method c hc).1
  · decide
  · exact hw.target_plain c hc
  · simpa using all_eq_true.mp hversion c hc

theorem Writable.wire_eq : ∃ rest, req.wire pieces = some (req.requestLine ++ crlf ++
        (req.fields.flatMap fieldText ++ crlf) ++ rest) ∧
      if (req.bodySource && !decide (0 < req.bodyLength)) = true then
        rest = chunksText (pieces.filter (!·.isEmpty)) ++ h1LastChunk
      else rest = req.payload pieces := by
  unfold wire payload
  rw [appendH1Request_eq]
  cases hsrc : req.bodySource with
  | false => exact ⟨req.body, rfl, rfl⟩
  | true =>
    by_cases hpos : 0 < req.bodyLength
    · have hlen := hw.length hsrc hpos
      have hsend := sendBody_length (b := { length := req.bodyLength })
        (by simpa [UpstreamBody.chunked] using hpos) (hw.pieces_ne hsrc) (by simpa using hlen)
      refine ⟨pieces.flatten, ?_, by simp [hpos]⟩
      simp [hsend]
    have hsend := sendBody_chunked (b := { length := req.bodyLength })
      (by simpa [UpstreamBody.chunked] using hpos) (hw.pieces_ne hsrc)
    refine ⟨chunksText (pieces.filter (!·.isEmpty)) ++ h1LastChunk, ?_, by simp [hpos]⟩
    simp [hsend]

end

end

/-- What the backend reads: one request with this line, these headers and this body. -/
structure Reads (avx2 : Bool) (out : Bytes) (r : HeadResult) (req : FpRequest) (lineReq : Request)
    (body : Bytes) : Prop where
  accepted : r.Accepted
  method : r.req.method = req.method
  target : r.req.target = lineReq.target
  rawPath : req.target.head? = some slash → r.req.rawPath = req.target
  headers : r.req.headers = req.fields
  body : if r.chunkedEncoding then
      drain (ChunkedDecoder.next avx2) { captureTrailers := true } (out.drop r.headerEnd) =
        ⟨{ captureTrailers := true, state := .done, trailerBytes := 2 }, (out.drop r.headerEnd).length, body, none⟩
    else r.contentLength = body.length ∧ out.drop r.headerEnd = body

/-- A request that the proxy writes for an accepted header list is read by the parser and the
decoder as exactly that request. -/
theorem appendH1Request_reparse (avx2 serverAvx2 : Bool) {data : Bytes} {serverBytes serverCount : ℤ}
    (hacc : (parseH1RequestHead serverAvx2 data {} serverBytes serverCount).Accepted)
    {forwarding : List Field} (hforwarding : ∀ f ∈ forwarding, Sendable f ∧ Neutral f.1)
    {req : FpRequest} (hheaders : req.headers = fpProxyRequestHeaders
      (parseH1RequestHead serverAvx2 data {} serverBytes serverCount).req.headers forwarding)
    {rl : RequestLine} {lineReq : Request}
    (hline : parseRequestLine req.requestLine {} = .ok (rl, lineReq))
    {pieces : List Bytes} {maxHeaderBytes maxHeaderCount : ℤ}
    (hw : Writable req pieces (effectiveMaxBytes maxHeaderBytes) (effectiveMaxCount maxHeaderCount)) :
    ∃ out, req.wire pieces = some out ∧
      Reads avx2 out (parseH1RequestHead avx2 out {} maxHeaderBytes maxHeaderCount) req lineReq
        (req.payload pieces) := by
  have hspec := forwarded_spec (sendable_of_accepted hacc) hforwarding
  rw [← hheaders] at hspec
  have hsend := hw.fields_sendable fun f hf => (hspec f hf).1
  obtain ⟨ls, hmap, hblock⟩ := exists_lines hsend
  obtain ⟨st, hst, hbad, hhost, hexcl, hchunked, hlength⟩ := hw.stepFields_fields (fun f hf => (hspec f hf).2) lineReq
  obtain ⟨hmethod, hten, hraw⟩ := parseRequestLine_method hw.method hline
  obtain ⟨rest, hwire, hrest⟩ := hw.wire_eq
  have hplain := hw.line_plain
  have hcount : ls.length = req.fields.length := by rw [← hmap, length_map]
  let s : HeadShape {} (effectiveMaxBytes maxHeaderBytes) (effectiveMaxCount maxHeaderCount) :=
    { line := req.requestLine, fields := ls, rl := rl, lineReq := lineReq, st := st
      line_plain := hplain
      line_ok := hline
      fields_ok := hmap ▸ hst
      size_ok := hblock ▸ hw.size_max
      count_ok := hcount ▸ hw.count_max }
  have htext : s.text = req.requestLine ++ crlf ++ (req.fields.flatMap fieldText ++ crlf) := by
    rw [HeadShape.text, hblock]
  refine ⟨_, hwire, ?_⟩
  rw [← htext]
  have hparse := parse_text avx2 rfl maxHeaderBytes maxHeaderCount s rest
  have hresult : s.result = acceptHead rl (s.line.length + 2 + (block s.fields).length) st := by
    rw [HeadShape.result, finishHead, if_neg, if_neg]
    · simp [s, hhost]
    · simp only [s, hbad, hten, Bool.false_or, Bool.or_false, Bool.and_eq_true]
      intro h
      rw [hexcl h.1] at h
      cases h.2
  have hdrop : (s.text ++ rest).drop (acceptHead rl
      (s.line.length + 2 + (block s.fields).length) st).headerEnd = rest :=
    drop_left' s.text_length
  have htarget : ∀ nl, (acceptHead rl nl st).req.target = lineReq.target := by
    intro nl
    rw [← stepFields_target hst]
    unfold acceptHead
    cases rl.absoluteHost <;> cases rl.http10 <;> rfl
  have hsame := htarget (s.line.length + 2 + (block s.fields).length)
  rw [hparse, hresult]
  refine ⟨⟨rfl, rfl, rfl⟩, ?_, hsame, ?_, ?_, ?_⟩
  · exact (congrArg Prod.fst hsame).trans hmethod
  · intro hslash
    exact (congrArg (fun t => t.2.2.1) hsame).trans (hraw hslash)
  · rw [acceptHead_headers, stepFields_headers hst]
    simp [parseRequestLine_headers hline]
  rw [hdrop]
  change if st.chunkedEncoding = true then _ else st.contentLength = _ ∧ _
  rw [← hchunked] at hrest
  split_ifs at hrest ⊢ with hc
  · have hpayload : req.payload pieces = pieces.flatten := by
      rw [hchunked, Bool.and_eq_true] at hc
      rw [FpRequest.payload, if_pos hc.1]
    have hpieces : ∀ p ∈ pieces.filter (!·.isEmpty), p ≠ [] ∧ p.length ≤ maxParsedLength := by
      intro p hp
      obtain ⟨hmem, hne⟩ := mem_filter.mp hp
      have hle := (sublist_flatten_of_mem hmem).length_le
      have hmax := hw.body_max
      rw [hpayload] at hmax
      exact ⟨by simpa using hne, le_trans hle hmax⟩
    rw [hrest, drain_chunks avx2 hpieces, flatten_filter_not_isEmpty, hpayload]
  · exact ⟨hlength (by simpa using hc), hrest⟩

def upload : FpRequest :=
  { authority := ascii "b", method := ascii "PUT", path := ascii "/p",
    headers := [(ascii "X-A", ascii "1")], bodySource := true }

theorem appendH1Request_reparse_upload : ∃ out, upload.wire [ascii "hi", ascii "!"] = some out ∧
    Reads true out (parseH1RequestHead true out {} 0 0) upload
      { method := ascii "PUT", path := ascii "/p", rawPath := ascii "/p",
        proto := ascii "HTTP/1.1" } (ascii "hi!") := by
  have hplain : ((ascii "/p").all fun c => !isH1Special c) = true := by decide
  have hacc : (parseH1RequestHead true (ascii "GET / HTTP/1.1\r\nHost: a\r\nX-A: 1\r\n\r\n") {} 0
      0).Accepted := by decide +kernel
  refine appendH1Request_reparse true true hacc (forall_mem_nil _) ?_
    (show _ = Except.ok (RequestLine.mk false none, _) from rfl) ?_
  · decide +kernel
  constructor
  · decide
  · intro c hc
    simpa using all_eq_true.mp hplain c hc
  · decide
  · simp [upload]
  · rfl
  · simp
  · simp [upload]
  · decide
  · decide
  · decide

theorem appendH1Request_over_count :
    (parseH1RequestHead true (ascii "POST / HTTP/1.1\r\nHost: a\r\n\r\n") {} 0 1).Accepted ∧
      ¬ (parseH1RequestHead true (appendH1Request []
        { authority := ascii "b", method := ascii "POST", path := ascii "/",
          headers := fpProxyRequestHeaders (parseH1RequestHead true
            (ascii "POST / HTTP/1.1\r\nHost: a\r\n\r\n") {} 0 1).req.headers [] }) {} 0 1).Accepted := by
  decide +kernel

end AlosHttp.Proxy

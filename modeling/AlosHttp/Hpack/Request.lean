import AlosHttp.Data.Swar
import AlosHttp.H1.Head
import AlosHttp.H1.Response
import AlosHttp.Hpack.Transparency

/-! Request validation of `hpack.go`: the pseudo-header rules, the request field loop and
`DecodeIntoRequest` with its shortcut for `:method GET`, a literal `:path` and
`:scheme https`. -/
namespace AlosHttp.Hpack
open List AlosHttp.Core H1 Data

def hpackPseudoMethod : UInt8 := 1
def hpackPseudoScheme : UInt8 := 2
def hpackPseudoPath : UInt8 := 4
def hpackPseudoAuthority : UInt8 := 8
def hpackPseudoProtocol : UInt8 := 16

def h2FieldNameValid (c : UInt8) : Bool := 0x21 ≤ c && c < 0x7f && c != colon && !(65 ≤ c && c ≤ 90)

def isValidH2FieldName (name : Bytes) : Bool :=
  match name with
  | [] => false
  | c :: rest =>
    if c == colon then !rest.isEmpty && rest.all h2FieldNameValid else name.all h2FieldNameValid

def isValidH2FieldValue (value : Bytes) : Bool :=
  if (value.head?.any isOWS) || (value.getLast?.any isOWS) then false
  else !containsLineBreak value

def wordHasPathControl (w : BitVec 64) : Bool := (belowMask 33 w ||| belowMask 1 (w ^^^ splat 0x7f)) != 0

/-- The words before the last one; the last word overlaps them when the length is no
multiple of eight. -/
def pathWordsLoop (path : Bytes) (last : ℕ) : ℕ → ℕ → Bool
  | 0, _ => true
  | fuel + 1, i =>
    if i < last then
      if wordHasPathControl (leWord (path.drop i)) then false
      else pathWordsLoop path last fuel (i + 8)
    else true

def isValidH2Path (path : Bytes) : Bool :=
  if path.length < 8 then path.all fun c => !(c < 33 || c == 0x7f)
  else
    let last := path.length - 8
    pathWordsLoop path last path.length 0 && !wordHasPathControl (leWord (path.drop last))

def isH2Method (value : Bytes) : Bool := value == ascii "GET" || isH1Token value

def isH2ConnectionSpecificField (name value : Bytes) : Bool :=
  if [ascii "connection", ascii "proxy-connection", ascii "keep-alive", ascii "transfer-encoding",
      ascii "upgrade"].contains name then true
  else if name == ascii "te" then !equalFoldASCII value (ascii "trailers")
  else false

namespace HpackRequestMeta

def observePseudo (reqMeta : HpackRequestMeta) (name value : Bytes) : HpackRequestMeta × Option HpackError :=
  if !isValidH2FieldValue value then (reqMeta, some .badHeader)
  else if name == ascii ":scheme" then
    if reqMeta.pseudoMask &&& hpackPseudoScheme ≠ 0 then (reqMeta, some .badHeader)
    else
      ({ reqMeta with pseudoMask := reqMeta.pseudoMask ||| hpackPseudoScheme, scheme := value }, none)
  else if name == ascii ":authority" then
    if reqMeta.pseudoMask &&& hpackPseudoAuthority ≠ 0 then (reqMeta, some .badHeader)
    else if !validateHost value then (reqMeta, some .badHeader)
    else
      ({ reqMeta with
          pseudoMask := reqMeta.pseudoMask ||| hpackPseudoAuthority, authority := value }, none)
  else if name == ascii ":protocol" then
    if !reqMeta.allowProtocol ∨ reqMeta.pseudoMask &&& hpackPseudoProtocol ≠ 0 then
      (reqMeta, some .badHeader)
    else
      ({ reqMeta with
          pseudoMask := reqMeta.pseudoMask ||| hpackPseudoProtocol
          protocolSet := value != []
          protocolWebSocket := equalFoldASCII value (ascii "websocket") }, none)
  else (reqMeta, some .badHeader)

/-- A regular field. `sawRegular` is set even when the field is refused afterwards. -/
def observeRegular (reqMeta : HpackRequestMeta) (name value : Bytes) : HpackRequestMeta × Option HpackError :=
  if !isValidH2FieldValue value then (reqMeta, some .badHeader)
  else
    let reqMeta := { reqMeta with sawRegular := true }
    if isH2ConnectionSpecificField name value then (reqMeta, some .badHeader)
    else if name == ascii "content-length" then
      match parseUint value with
      | none => (reqMeta, some .badHeader)
      | some n =>
        if reqMeta.hasContentLength && n != reqMeta.contentLength then (reqMeta, some .badHeader)
        else ({ reqMeta with contentLength := n, hasContentLength := true }, none)
    else (reqMeta, none)

def observeHeader (reqMeta : HpackRequestMeta) (name value : Bytes) : HpackRequestMeta × Option HpackError :=
  if !isValidH2FieldName name then (reqMeta, some .badHeader)
  else if name.head? == some colon then
    if reqMeta.sawRegular then (reqMeta, some .badHeader)
    else if name == ascii ":method" then
      if reqMeta.pseudoMask &&& hpackPseudoMethod ≠ 0 ∨ (value != [] && !isH2Method value) then
        (reqMeta, some .badHeader)
      else
        ({ reqMeta with
            pseudoMask := reqMeta.pseudoMask ||| hpackPseudoMethod, method := value }, none)
    else if name == ascii ":path" then
      if reqMeta.pseudoMask &&& hpackPseudoPath ≠ 0 ∨ !isValidH2Path value then
        (reqMeta, some .badHeader)
      else
        ({ reqMeta with
            pseudoMask := reqMeta.pseudoMask ||| hpackPseudoPath
            rawPath := value
            query := (splitPathQuery value).2
            path := if value == [slash] then [slash] else sanitizeRequestPath value }, none)
    else reqMeta.observePseudo name value
  else reqMeta.observeRegular name value

def pathFormValid (reqMeta : HpackRequestMeta) : Bool := reqMeta.rawPath.head? == some slash ||
    (reqMeta.rawPath == ascii "*" && reqMeta.method == ascii "OPTIONS")

def validateConnect (reqMeta : HpackRequestMeta) : Option HpackError :=
  if reqMeta.pseudoMask &&& hpackPseudoProtocol ≠ 0 then
    if reqMeta.method != ascii "CONNECT" || !reqMeta.protocolSet || reqMeta.authority == [] ||
        reqMeta.scheme == [] || reqMeta.path == [] || reqMeta.rawPath.head? != some slash then
      some .malformedRequest
    else none
  else if reqMeta.authority == [] || reqMeta.scheme != [] || reqMeta.path != [] then
    some .malformedRequest
  else none

def validate (reqMeta : HpackRequestMeta) : Option HpackError :=
  if reqMeta.pseudoMask &&& hpackPseudoProtocol ≠ 0 ∨ reqMeta.method == ascii "CONNECT" then
    reqMeta.validateConnect
  else if reqMeta.method == [] || reqMeta.scheme == [] || reqMeta.path == [] ||
      !reqMeta.pathFormValid then
    some .malformedRequest
  else none

theorem validate_plain {reqMeta : HpackRequestMeta}
    (hmask : reqMeta.pseudoMask &&& hpackPseudoProtocol = 0) (hmethod : reqMeta.method ≠ ascii "CONNECT") :
    reqMeta.validate =
      if reqMeta.method == [] || reqMeta.scheme == [] || reqMeta.path == [] || !reqMeta.pathFormValid then
        some .malformedRequest
      else none := by
  unfold validate
  rw [if_neg]
  rintro (h | h)
  · exact h hmask
  · exact hmethod (beq_iff_eq.mp h)

theorem observeHeader_headerCount (reqMeta : HpackRequestMeta) (name value : Bytes) :
    (reqMeta.observeHeader name value).1.headerCount = reqMeta.headerCount := by
  have hpseudo : (reqMeta.observePseudo name value).1.headerCount = reqMeta.headerCount := by
    unfold observePseudo
    split_ifs <;> rfl
  have hregular : (reqMeta.observeRegular name value).1.headerCount = reqMeta.headerCount := by
    unfold observeRegular
    dsimp only
    split_ifs
    · rfl
    · rfl
    · rcases parseUint value with _ | n
      · rfl
      dsimp only
      split_ifs <;> rfl
    · rfl
  unfold observeHeader
  split_ifs
  · rfl
  · rfl
  · rfl
  · rfl
  · rfl
  · rfl
  · rfl
  · exact hpseudo
  · exact hregular

end HpackRequestMeta

/-- What the request loop gathers; the count in the metadata is that of the list. -/
structure RequestAcc where
  headers : List Field := []
  reqMeta : HpackRequestMeta := {}
  counted : reqMeta.headerCount = headers.length := by rfl

/-- `DecodeIntoRequest` observes a field before it gathers it, and counts after it may have
entered the table. -/
def requestLoop : FieldLoop RequestAcc where
  started acc := acc.reqMeta.headerCount > 0
  observe acc f :=
    let r := acc.reqMeta.observeHeader f.1 f.2
    have hcount : r.1.headerCount = acc.headers.length :=
      (acc.reqMeta.observeHeader_headerCount f.1 f.2).trans acc.counted
    match r.2 with
    | some e => ({ headers := acc.headers, reqMeta := r.1, counted := hcount }, some e)
    | none =>
      ({ headers := acc.headers ++ [f]
         reqMeta := { r.1 with headerCount := r.1.headerCount + 1 }
         counted := by rw [length_append, ← hcount]; rfl }, none)
  check acc := if acc.headers.length > maxHeaders then some .tooManyHeaders else none

/-- What the request decoders return; the headers are nil after an error. -/
structure RequestResult where
  headers : List Field
  reqMeta : HpackRequestMeta
  err : Option HpackError
  deriving DecidableEq

section
variable (hpackHashBytes : Bytes → UInt64)
namespace HpackDecoder

/-- `DecodeIntoRequest` from its field loop on. -/
def decodeRequestFields (d : HpackDecoder) (data : Bytes) : RequestResult × HpackDecoder :=
  match requestLoop.run hpackHashBytes data.length d
      { reqMeta := { allowProtocol := d.allowExtendedConnect } } data with
  | ⟨acc, some e, d⟩ => (⟨[], acc.reqMeta, some e⟩, d)
  | ⟨acc, none, d⟩ =>
    match acc.reqMeta.validate with
    | some e => (⟨[], acc.reqMeta, some e⟩, d)
    | none => (⟨acc.headers, acc.reqMeta, none⟩, d)

def simpleGetPathResult (rawPath : Bytes) : RequestResult :=
  if !isValidH2Path rawPath then ⟨[], {}, some .badHeader⟩
  else
    let path := sanitizeRequestPath rawPath
    let reqMeta : HpackRequestMeta :=
      { method := ascii "GET"
        path
        rawPath
        query := (splitPathQuery rawPath).2
        scheme := ascii "https"
        headerCount := 3 }
    match reqMeta.validate with
    | some e => ⟨[], reqMeta, some e⟩
    | none =>
      ⟨[(ascii ":method", ascii "GET"), (ascii ":path", path), (ascii ":scheme", ascii "https")],
        reqMeta, none⟩

def decodeSimpleGetPathHTTPSRequest (d : HpackDecoder) (data : Bytes) : Option RequestResult × HpackDecoder :=
  if data.length < 4 ∨ data[0]? ≠ some 0x82 ∨ data[1]? ≠ some 0x04 ∨ data.getLast? ≠ some 0x87 then
    (none, d)
  else
    match d.decodeString hpackHashBytes (data.drop 2) with
    | ((path, n), d) =>
      if n = 0 ∨ 2 + n + 1 ≠ data.length then (none, d) else (some (simpleGetPathResult path), d)

def decodeIntoRequest (d : HpackDecoder) (data : Bytes) : RequestResult × HpackDecoder :=
  match d.decodeSimpleGetPathHTTPSRequest hpackHashBytes data with
  | (some r, d) => (r, d)
  | (none, d) => d.decodeRequestFields hpackHashBytes data

end HpackDecoder

theorem FieldLoop.run_observed {σ : Type} (L : FieldLoop σ) (fuel : ℕ) {d : HpackDecoder}
    (hc : d.CacheOk) {acc acc' : σ} {b : UInt8} {data : Bytes} {f : Field} {n : ℕ}
    (hread : (d.toHpackDynTable.readRep d.protocolMaxSize (L.started acc) (b :: data)).1 =
      .ok (.field f false, n)) (hobs : L.observe acc f = (acc', none)) (hcheck : L.check acc' = none) :
    ∃ cache next ref, (d.touched cache next ref).CacheOk ∧ L.run hpackHashBytes (fuel + 1) d acc (b :: data) =
        L.run hpackHashBytes fuel (d.touched cache next ref) acc' ((b :: data).drop n) := by
  obtain ⟨_, ⟨cache, next, hd₁⟩, hok, hrun⟩ := L.run_cons hpackHashBytes fuel hc acc b data
  subst hd₁
  refine ⟨_, _, _, hok, ?_⟩
  rw [hrun, hread]
  simp only [round, hobs, hcheck]
  rfl

theorem FieldLoop.run_refused {σ : Type} (L : FieldLoop σ) (fuel : ℕ) {d : HpackDecoder}
    (hc : d.CacheOk) {acc acc' : σ} {b : UInt8} {data : Bytes} {f : Field} {index : Bool} {n : ℕ}
    {e : HpackError}
    (hread : (d.toHpackDynTable.readRep d.protocolMaxSize (L.started acc) (b :: data)).1 =
      .ok (.field f index, n)) (hobs : L.observe acc f = (acc', some e)) :
    ∃ cache next ref, L.run hpackHashBytes (fuel + 1) d acc (b :: data) = ⟨acc', some e, d.touched cache next ref⟩ := by
  obtain ⟨_, ⟨cache, next, hd₁⟩, _, hrun⟩ := L.run_cons hpackHashBytes fuel hc acc b data
  subst hd₁
  refine ⟨cache, next, (d.toHpackDynTable.readRep d.protocolMaxSize (L.started acc) (b :: data)).2, ?_⟩
  rw [hrun, hread]
  simp [round, hobs]

end

/-- The blocks that the shortcut answers: `:method GET`, a literal `:path` with the static
name, `:scheme https`, and nothing else. -/
def isSimpleGetPath (data : Bytes) : Bool := 4 ≤ data.length && data[0]? == some 0x82 && data[1]? == some 0x04 &&
    data.getLast? == some 0x87 && (hpackDecodeString (data.drop 2)).2 != 0 &&
    2 + (hpackDecodeString (data.drop 2)).2 + 1 == data.length

variable (data : Bytes)

theorem isSimpleGetPath_iff : isSimpleGetPath data = true ↔
      ∃ body path, data = 0x82 :: 0x04 :: (body ++ [0x87]) ∧ body ≠ [] ∧
        hpackDecodeString (body ++ [0x87]) = (path, body.length) := by
  unfold isSimpleGetPath
  simp only [Bool.and_eq_true, decide_eq_true_eq, beq_iff_eq, bne_iff_ne]
  constructor
  · rintro ⟨⟨⟨⟨⟨hlen, h0⟩, h1⟩, hlast⟩, hn⟩, hsum⟩
    obtain ⟨front, rfl⟩ : ∃ front, data = front ++ [0x87] := by
      exact ⟨_, (dropLast_append_getLast? _ hlast).symm⟩
    match front, hlen, h0, h1, hn, hsum with
    | a :: b :: body, _, h0, h1, hn, hsum =>
      obtain rfl : a = 0x82 := by simpa using h0
      obtain rfl : b = 0x04 := by simpa using h1
      have hlen : (hpackDecodeString (body ++ [0x87])).2 = body.length := by
        simp at hsum hn ⊢
        omega
      refine ⟨body, (hpackDecodeString (body ++ [0x87])).1, rfl, ?_, ?_⟩
      · rintro rfl
        exact hn hlen
      · rw [← hlen]
    | [], hlen, _, _, _, _ | [a], hlen, _, _, _, _ => simp at hlen
  rintro ⟨body, path, rfl, hne, hstr⟩
  have hpos : body.length ≠ 0 := by simpa using hne
  have hdrop : (0x82 :: 0x04 :: (body ++ [0x87]) : Bytes).drop 2 = body ++ [0x87] := rfl
  rw [hdrop, hstr]
  refine ⟨⟨⟨⟨⟨?_, rfl⟩, rfl⟩, ?_⟩, hpos⟩, ?_⟩
  · simp only [length_cons, length_append, length_nil]
    omega
  · exact @getLast?_concat _ (0x82 :: 0x04 :: body) 0x87
  simp only [length_cons, length_append, length_nil]
  omega

def methodAcc (connect : Bool) : RequestAcc where
  headers := [(ascii ":method", ascii "GET")]
  reqMeta :=
    { method := ascii "GET"
      headerCount := 1
      pseudoMask := hpackPseudoMethod
      allowProtocol := connect }

def pathAcc (connect : Bool) (rawPath : Bytes) : RequestAcc where
  headers := [(ascii ":method", ascii "GET"), (ascii ":path", rawPath)]
  reqMeta :=
    { method := ascii "GET"
      path := sanitizeRequestPath rawPath
      rawPath
      query := (splitPathQuery rawPath).2
      headerCount := 2
      pseudoMask := hpackPseudoMethod ||| hpackPseudoPath
      allowProtocol := connect }

def schemeAcc (connect : Bool) (rawPath : Bytes) : RequestAcc where
  headers := [(ascii ":method", ascii "GET"), (ascii ":path", rawPath), (ascii ":scheme", ascii "https")]
  reqMeta :=
    { method := ascii "GET"
      path := sanitizeRequestPath rawPath
      rawPath
      query := (splitPathQuery rawPath).2
      scheme := ascii "https"
      headerCount := 3
      pseudoMask := hpackPseudoMethod ||| hpackPseudoPath ||| hpackPseudoScheme
      allowProtocol := connect }

def loopGetPathResult (connect : Bool) (rawPath : Bytes) : RequestResult :=
  if !isValidH2Path rawPath then ⟨[], (methodAcc connect).reqMeta, some .badHeader⟩
  else
    match (schemeAcc connect rawPath).reqMeta.validate with
    | some e => ⟨[], (schemeAcc connect rawPath).reqMeta, some e⟩
    | none => ⟨(schemeAcc connect rawPath).headers, (schemeAcc connect rawPath).reqMeta, none⟩

variable (t : HpackDynTable) (limit : ℕ) (started : Bool)
open HpackDynTable

theorem readRep_method : (t.readRep limit started (0x82 :: data)).1 =
      .ok (.field (ascii ":method", ascii "GET") false, 1) := by
  have hint : hpackDecodeInt (0x82 :: data) 7 = (2, 1) := rfl
  have hb : (0x82 :: data : Bytes).headD 0 &&& 0x80 ≠ 0 := show (0x82 : UInt8) &&& 0x80 ≠ 0 by decide
  rw [readRep_indexed hb hint one_ne_zero rfl]

theorem readRep_scheme : (t.readRep limit started (0x87 :: data)).1 =
      .ok (.field (ascii ":scheme", ascii "https") false, 1) := by
  have hint : hpackDecodeInt (0x87 :: data) 7 = (7, 1) := rfl
  have hb : (0x87 :: data : Bytes).headD 0 &&& 0x80 ≠ 0 := show (0x87 : UInt8) &&& 0x80 ≠ 0 by decide
  rw [readRep_indexed hb hint one_ne_zero rfl]

theorem readRep_path {data path : Bytes} {n : ℕ} (hn : n ≠ 0) (h : hpackDecodeString data = (path, n)) :
    (t.readRep limit started (0x04 :: data)).1 = .ok (.field (ascii ":path", path) false, 1 + n) := by
  have hint : hpackDecodeInt (0x04 :: data) 4 = (4, 1) := rfl
  have hlit : t.readLiteral 4 (0x04 :: data) = .ok ((ascii ":path", path), 1 + n) := by
    rw [readLiteral_named hint one_ne_zero (by decide) rfl]
    exact readValue_ok h hn
  have hb : (0x04 :: data : Bytes).headD 0 &&& 0xe0 = 0 := show (0x04 : UInt8) &&& 0xe0 = 0 by decide
  rw [readRep_plain hb hlit]

theorem requestLoop_observe_ok {acc acc' : RequestAcc} {f : Field} {reqMeta : HpackRequestMeta}
    (h : acc.reqMeta.observeHeader f.1 f.2 = (reqMeta, none)) (hheaders : acc'.headers = acc.headers ++ [f])
    (hmeta : acc'.reqMeta = { reqMeta with headerCount := reqMeta.headerCount + 1 }) :
    requestLoop.observe acc f = (acc', none) := by
  cases acc'
  subst hheaders hmeta
  simp [requestLoop, h]

theorem requestLoop_observe_error {acc acc' : RequestAcc} {f : Field} {e : HpackError}
    (h : acc.reqMeta.observeHeader f.1 f.2 = (acc'.reqMeta, some e))
    (hheaders : acc'.headers = acc.headers) : requestLoop.observe acc f = (acc', some e) := by
  cases acc'
  subst hheaders
  simp [requestLoop, h]

variable (connect : Bool)

theorem observe_method :
    requestLoop.observe { reqMeta := { allowProtocol := connect } } (ascii ":method", ascii "GET") =
      (methodAcc connect, none) := by
  cases connect <;> rfl

variable (value : Bytes)

theorem sanitizeRequestPath_root :
    (if value == [slash] then [slash] else sanitizeRequestPath value) = sanitizeRequestPath value := by
  by_cases h : value = [slash]
  · subst h
    decide
  · rw [if_neg (by simpa using h)]

open HpackRequestMeta

theorem observeHeader_path : (methodAcc connect).reqMeta.observeHeader (ascii ":path") value =
      if !isValidH2Path value then ((methodAcc connect).reqMeta, some .badHeader)
      else ({ (pathAcc connect value).reqMeta with headerCount := 1 }, none) := by
  have hname : isValidH2FieldName (ascii ":path") = true := by decide
  have hcolon : (ascii ":path").head? == some colon := by decide
  have hmethod : ¬ (ascii ":path" == ascii ":method") = true := by decide
  have hmask : (methodAcc connect).reqMeta.pseudoMask &&& hpackPseudoPath = 0 :=
    show hpackPseudoMethod &&& hpackPseudoPath = 0 by decide
  have hregular : (methodAcc connect).reqMeta.sawRegular = false := rfl
  unfold observeHeader
  rw [hname, hregular, if_neg (by decide), if_pos hcolon, if_neg Bool.false_ne_true, if_neg hmethod,
    if_pos (beq_self_eq_true _), hmask, sanitizeRequestPath_root]
  by_cases hvalid : isValidH2Path value = true
  · rw [hvalid]
    rfl
  rw [Bool.not_eq_true] at hvalid
  rw [hvalid]
  rfl

theorem observe_path {connect : Bool} {value : Bytes} (hvalid : isValidH2Path value = true) :
    requestLoop.observe (methodAcc connect) (ascii ":path", value) = (pathAcc connect value, none) := by
  have hobs := observeHeader_path connect value
  rw [hvalid, if_neg (by decide)] at hobs
  exact requestLoop_observe_ok hobs rfl rfl

theorem observe_badPath {connect : Bool} {value : Bytes} (hvalid : isValidH2Path value = false) :
    requestLoop.observe (methodAcc connect) (ascii ":path", value) =
      (methodAcc connect, some .badHeader) := by
  have hobs := observeHeader_path connect value
  rw [hvalid, if_pos (by decide)] at hobs
  exact requestLoop_observe_error hobs rfl

theorem observe_scheme : requestLoop.observe (pathAcc connect value) (ascii ":scheme", ascii "https") =
      (schemeAcc connect value, none) := by
  have hobs : (pathAcc connect value).reqMeta.observeHeader (ascii ":scheme") (ascii "https") =
      ({ (schemeAcc connect value).reqMeta with headerCount := 2 }, none) := by
    have hname : isValidH2FieldName (ascii ":scheme") = true := by decide
    have hvalue : isValidH2FieldValue (ascii "https") = true := by decide
    have hcolon : (ascii ":scheme").head? == some colon := by decide
    have hmethod : ¬ (ascii ":scheme" == ascii ":method") = true := by decide
    have hpath : ¬ (ascii ":scheme" == ascii ":path") = true := by decide
    have hmask : (pathAcc connect value).reqMeta.pseudoMask &&& hpackPseudoScheme = 0 :=
      show (hpackPseudoMethod ||| hpackPseudoPath) &&& hpackPseudoScheme = 0 by decide
    have hregular : (pathAcc connect value).reqMeta.sawRegular = false := rfl
    unfold observeHeader observePseudo
    rw [hname, hregular, if_neg (by decide), if_pos hcolon, if_neg Bool.false_ne_true, if_neg hmethod,
      if_neg hpath, hvalue, if_neg (by decide), if_pos (beq_self_eq_true _), hmask,
      if_neg (not_not.mpr rfl)]
    rfl
  exact requestLoop_observe_ok hobs rfl rfl

section
variable (hpackHashBytes : Bytes → UInt64)
namespace HpackDecoder
variable {d : HpackDecoder}

theorem decodeRequestFields_getPath (hc : d.CacheOk) {body path : Bytes}
    (hne : body ≠ []) (hstr : hpackDecodeString (body ++ [0x87]) = (path, body.length)) :
    ∃ cache next ref, d.decodeRequestFields hpackHashBytes (0x82 :: 0x04 :: (body ++ [0x87])) =
        (loopGetPathResult d.allowExtendedConnect path, d.touched cache next ref) := by
  have hn : body.length ≠ 0 := by simpa using hne
  have hfuel : (0x82 :: 0x04 :: (body ++ [0x87]) : Bytes).length = body.length + 3 := by simp
  have hdrop : (0x04 :: (body ++ [0x87]) : Bytes).drop (1 + body.length) = [0x87] := by
    rw [add_comm, drop_succ_cons, drop_left]
  unfold decodeRequestFields loopGetPathResult
  rw [hfuel]
  obtain ⟨_, _, r₁, hok₁, hrun₁⟩ := requestLoop.run_observed hpackHashBytes (body.length + 2) hc
    (readRep_method _ _ _ _) (observe_method d.allowExtendedConnect) rfl
  rw [hrun₁, drop_succ_cons, drop_zero]
  cases hvalid : isValidH2Path path with
  | true =>
    obtain ⟨c₂, n₂, r₂, hok₂, hrun₂⟩ := requestLoop.run_observed hpackHashBytes (body.length + 1) hok₁
      (readRep_path _ _ _ hn hstr) (observe_path hvalid) rfl
    rw [hrun₂, hdrop]
    obtain ⟨c₃, n₃, r₃, -, hrun₃⟩ := requestLoop.run_observed hpackHashBytes body.length hok₂
      (readRep_scheme _ _ _ _) (observe_scheme d.allowExtendedConnect path) rfl
    rw [hrun₃, drop_succ_cons, drop_zero, FieldLoop.run, touched_touched, touched_touched]
    refine ⟨c₃, n₃, r₁ + (r₂ + r₃), ?_⟩
    dsimp only
    cases (schemeAcc d.allowExtendedConnect path).reqMeta.validate <;> rfl
  | false =>
    obtain ⟨c₂, n₂, r₂, hrun₂⟩ := requestLoop.run_refused hpackHashBytes (body.length + 1) hok₁
      (readRep_path _ _ _ hn hstr) (observe_badPath hvalid)
    rw [hrun₂, touched_touched]
    exact ⟨c₂, n₂, r₁ + r₂, rfl⟩

theorem decodeRequestFields_alike {e : HpackDecoder} (h : d.Alike e) (data : Bytes) :
    (d.decodeRequestFields hpackHashBytes data).1 = (e.decodeRequestFields hpackHashBytes data).1 ∧
      (d.decodeRequestFields hpackHashBytes data).2.Alike (e.decodeRequestFields hpackHashBytes data).2 ∧
      ∃ ref, (d.decodeRequestFields hpackHashBytes data).2.dynRefBytes = d.dynRefBytes + ref ∧
        (e.decodeRequestFields hpackHashBytes data).2.dynRefBytes = e.dynRefBytes + ref := by
  obtain ⟨hacc, herr, hdec, href⟩ := requestLoop.run_alike hpackHashBytes data.length h
    { reqMeta := { allowProtocol := d.allowExtendedConnect } } data
  unfold decodeRequestFields
  rw [← h.connect]
  generalize requestLoop.run hpackHashBytes data.length d _ data = rd at hacc herr hdec href ⊢
  generalize requestLoop.run hpackHashBytes data.length e _ data = re at hacc herr hdec href ⊢
  obtain ⟨acc, err, _⟩ := rd
  obtain ⟨_, _, _⟩ := re
  subst hacc herr
  cases err with
  | some e => exact ⟨rfl, hdec, href⟩
  | none =>
    dsimp only
    cases acc.reqMeta.validate with
    | some e | none => exact ⟨rfl, hdec, href⟩

theorem decodeRequestFields_dec (d : HpackDecoder) (data : Bytes) : (d.decodeRequestFields hpackHashBytes data).2 =
      (requestLoop.run hpackHashBytes data.length d
        { reqMeta := { allowProtocol := d.allowExtendedConnect } } data).dec := by
  unfold decodeRequestFields
  generalize requestLoop.run hpackHashBytes data.length d _ data = r
  obtain ⟨acc, err, _⟩ := r
  cases err with
  | some e => rfl
  | none =>
    dsimp only
    cases acc.reqMeta.validate <;> rfl

theorem decodeSimpleGetPathHTTPSRequest_spec (hc : d.CacheOk) (data : Bytes) :
    ∃ cache next, (d.touched cache next 0).CacheOk ∧ d.decodeSimpleGetPathHTTPSRequest hpackHashBytes data =
        (if isSimpleGetPath data then some (simpleGetPathResult (hpackDecodeString (data.drop 2)).1)
          else none, d.touched cache next 0) := by
  unfold decodeSimpleGetPathHTTPSRequest
  by_cases hshape : data.length < 4 ∨ data[0]? ≠ some 0x82 ∨ data[1]? ≠ some 0x04 ∨ data.getLast? ≠ some 0x87
  · have hno : isSimpleGetPath data = false := by
      unfold isSimpleGetPath
      rw [Bool.eq_false_iff]
      intro hall
      simp only [Bool.and_eq_true, decide_eq_true_eq, beq_iff_eq, bne_iff_ne] at hall
      obtain ⟨⟨⟨⟨⟨hlen, h0⟩, h1⟩, hlast⟩, -⟩, -⟩ := hall
      obtain hbad | hbad | hbad | hbad := hshape
      · omega
      · exact hbad h0
      · exact hbad h1
      · exact hbad hlast
    rw [if_pos hshape, hno]
    exact ⟨d.huffmanCache, d.huffmanCacheNext, hc, rfl⟩
  obtain ⟨cache, next, hok, heq⟩ := decodeString_spec hpackHashBytes hc (data.drop 2)
  rw [if_neg hshape, heq]
  refine ⟨cache, next, hok, ?_⟩
  simp only [not_or, not_not, not_lt] at hshape
  obtain ⟨hlen, h0, h1, hlast⟩ := hshape
  have hiff : isSimpleGetPath data = true ↔ ¬ ((hpackDecodeString (data.drop 2)).2 = 0 ∨
      2 + (hpackDecodeString (data.drop 2)).2 + 1 ≠ data.length) := by
    unfold isSimpleGetPath
    simp only [hlen, h0, h1, hlast, Bool.and_eq_true, decide_eq_true_eq, beq_iff_eq, bne_iff_ne,
      true_and, and_self, not_or, not_not, ne_eq]
  dsimp only
  by_cases hstr : (hpackDecodeString (data.drop 2)).2 = 0 ∨ 2 + (hpackDecodeString (data.drop 2)).2 + 1 ≠ data.length
  · rw [if_pos hstr, if_neg (fun h => hiff.mp h hstr)]
  · rw [if_neg hstr, if_pos (hiff.mpr hstr)]

theorem decodeIntoRequest_simple (hc : d.CacheOk) {data : Bytes} (h : isSimpleGetPath data = true) :
    ∃ cache next, (d.touched cache next 0).CacheOk ∧ d.decodeIntoRequest hpackHashBytes data =
      (simpleGetPathResult (hpackDecodeString (data.drop 2)).1, d.touched cache next 0) := by
  obtain ⟨cache, next, hok, heq⟩ := decodeSimpleGetPathHTTPSRequest_spec hpackHashBytes hc data
  refine ⟨cache, next, hok, ?_⟩
  unfold decodeIntoRequest
  rw [heq, if_pos h]

theorem decodeIntoRequest_fields (hc : d.CacheOk) {data : Bytes} (h : isSimpleGetPath data = false) :
    ∃ cache next, (d.touched cache next 0).CacheOk ∧ d.decodeIntoRequest hpackHashBytes data =
      (d.touched cache next 0).decodeRequestFields hpackHashBytes data := by
  obtain ⟨cache, next, hok, heq⟩ := decodeSimpleGetPathHTTPSRequest_spec hpackHashBytes hc data
  refine ⟨cache, next, hok, ?_⟩
  unfold decodeIntoRequest
  rw [heq, h, if_neg Bool.false_ne_true]

theorem simpleGetPathResult_ne (connect : Bool) (rawPath : Bytes) :
    simpleGetPathResult rawPath ≠ loopGetPathResult connect rawPath := by
  have hsimple : (simpleGetPathResult rawPath).reqMeta.pseudoMask = 0 := by
    unfold simpleGetPathResult
    split_ifs
    · rfl
    dsimp only
    split <;> rfl
  have hloop : (loopGetPathResult connect rawPath).reqMeta.pseudoMask ≠ 0 := by
    unfold loopGetPathResult
    split_ifs
    · show hpackPseudoMethod ≠ 0
      decide
    have hmask : (schemeAcc connect rawPath).reqMeta.pseudoMask ≠ 0 :=
      show hpackPseudoMethod ||| hpackPseudoPath ||| hpackPseudoScheme ≠ 0 by decide
    split
    all_goals exact hmask
  intro heq
  rw [heq] at hsimple
  exact hloop hsimple

theorem simpleGetPathResult_err (connect : Bool) (rawPath : Bytes) :
    (simpleGetPathResult rawPath).err = (loopGetPathResult connect rawPath).err := by
  have hmask : (schemeAcc connect rawPath).reqMeta.pseudoMask &&& hpackPseudoProtocol = 0 :=
    show (hpackPseudoMethod ||| hpackPseudoPath ||| hpackPseudoScheme) &&& hpackPseudoProtocol = 0 by
      decide
  unfold simpleGetPathResult loopGetPathResult
  split_ifs with hvalid
  · rfl
  have hval : ({ method := ascii "GET", path := sanitizeRequestPath rawPath, rawPath,
                 query := (splitPathQuery rawPath).2, scheme := ascii "https",
                 headerCount := 3 } : HpackRequestMeta).validate =
      (schemeAcc connect rawPath).reqMeta.validate := by
    rw [HpackRequestMeta.validate_plain (show (0 : UInt8) &&& hpackPseudoProtocol = 0 by decide)
        (show ascii "GET" ≠ ascii "CONNECT" by decide),
      HpackRequestMeta.validate_plain hmask (show ascii "GET" ≠ ascii "CONNECT" by decide)]
    rfl
  dsimp only
  rw [hval]
  cases (schemeAcc connect rawPath).reqMeta.validate <;> rfl

theorem decodeIntoRequest_verdict (hc : d.CacheOk) (data : Bytes) :
    (d.decodeIntoRequest hpackHashBytes data).1.err = (d.decodeRequestFields hpackHashBytes data).1.err ∧
      (d.decodeIntoRequest hpackHashBytes data).2.toHpackDynTable =
        (d.decodeRequestFields hpackHashBytes data).2.toHpackDynTable := by
  cases hshape : isSimpleGetPath data with
  | true =>
    obtain ⟨cache, next, -, heq⟩ := decodeIntoRequest_simple hpackHashBytes hc hshape
    obtain ⟨_, path, rfl, hne, hstr⟩ := (isSimpleGetPath_iff data).mp hshape
    obtain ⟨_, _, _, heq'⟩ := decodeRequestFields_getPath hpackHashBytes hc hne hstr
    rw [heq, heq', drop_succ_cons, drop_succ_cons, drop_zero, hstr]
    exact ⟨simpleGetPathResult_err d.allowExtendedConnect path, rfl⟩
  | false =>
    obtain ⟨cache, next, hok, heq⟩ := decodeIntoRequest_fields hpackHashBytes hc hshape
    obtain ⟨hres, hdec, -⟩ := decodeRequestFields_alike hpackHashBytes (Alike.touched hc hok) data
    rw [heq, hres]
    exact ⟨rfl, hdec.table⟩

end HpackDecoder

open HpackDecoder

/-- `DecodeIntoRequest` returns what its field loop alone returns, and leaves the same
table, exactly on the blocks that its shortcut does not answer. -/
theorem decodeIntoRequest_eq_fields_iff {d : HpackDecoder} (hc : d.CacheOk) (data : Bytes) :
    ((d.decodeIntoRequest hpackHashBytes data).1 = (d.decodeRequestFields hpackHashBytes data).1 ∧
        (d.decodeIntoRequest hpackHashBytes data).2.toHpackDynTable =
          (d.decodeRequestFields hpackHashBytes data).2.toHpackDynTable) ↔
      isSimpleGetPath data = false := by
  constructor
  · rintro ⟨hres, -⟩
    rw [Bool.eq_false_iff]
    intro hshape
    obtain ⟨cache, next, -, heq⟩ := decodeIntoRequest_simple hpackHashBytes hc hshape
    obtain ⟨_, path, rfl, hne, hstr⟩ := (isSimpleGetPath_iff data).mp hshape
    obtain ⟨_, _, _, heq'⟩ := decodeRequestFields_getPath hpackHashBytes hc hne hstr
    rw [heq, heq', drop_succ_cons, drop_succ_cons, drop_zero, hstr] at hres
    exact simpleGetPathResult_ne d.allowExtendedConnect path hres
  intro hshape
  refine ⟨?_, (decodeIntoRequest_verdict hpackHashBytes hc data).2⟩
  obtain ⟨cache, next, hok, heq⟩ := decodeIntoRequest_fields hpackHashBytes hc hshape
  rw [heq]
  exact (decodeRequestFields_alike hpackHashBytes (HpackDecoder.Alike.touched hc hok) data).1

end

def dotDotBlock : Bytes := [0x82, 0x04, 0x03, 0x2f, 0x2e, 0x2e, 0x87]

def dotDotReordered : Bytes := [0x87, 0x82, 0x04, 0x03, 0x2f, 0x2e, 0x2e]

theorem dotDotBlock_differs :
    let d := newHpackDecoder 4096
    let r := (d.decodeIntoRequest (fun _ => 0) dotDotBlock).1
    let r' := (d.decodeRequestFields (fun _ => 0) dotDotBlock).1
    r.err = none ∧ r'.err = none ∧ r.headers[1]? = some (ascii ":path", ascii "/") ∧
      r'.headers[1]? = some (ascii ":path", ascii "/..") ∧ r.reqMeta.pseudoMask = 0 ∧
      r'.reqMeta.pseudoMask = 7 := by
  decide +kernel

theorem dotDotReordered_agrees : (newHpackDecoder 4096).CacheOk ∧ isSimpleGetPath dotDotReordered = false ∧
      ((newHpackDecoder 4096).decodeIntoRequest (fun _ => 0) dotDotReordered).1 =
        ((newHpackDecoder 4096).decodeRequestFields (fun _ => 0) dotDotReordered).1 :=
  have hshape : isSimpleGetPath dotDotReordered = false := by decide +kernel
  ⟨newHpackDecoder_cacheOk 4096, hshape,
    ((decodeIntoRequest_eq_fields_iff (fun _ => 0) (newHpackDecoder_cacheOk 4096) _).mpr hshape).1⟩

end AlosHttp.Hpack

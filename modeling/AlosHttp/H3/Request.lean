import AlosHttp.H2.Receive
import AlosHttp.Qpack.Section
import AlosHttp.Quic.Stream
import AlosHttp.Quic.Varint

/-! A request of HTTP/3 on the bytes of its stream: the frame reader of `h3_frame.go`, the field
sections of `h3_request.go` with the cache of `qpack.go`, and `handleRequestStream` of
`h3_conn.go`. -/
namespace AlosHttp.H3
open List AlosHttp.Core Hpack H1 H2 Qpack Quic

def h3FrameData : ℕ := 0x00
def h3FrameHeaders : ℕ := 0x01
def h3FrameCancelPush : ℕ := 0x03
def h3FrameSettings : ℕ := 0x04
def h3FramePushPromise : ℕ := 0x05
def h3FrameGoaway : ℕ := 0x07
def h3FrameMaxPushID : ℕ := 0x0d

def h3ErrFrameUnexpected : ℕ := 0x0105
def h3ErrFrame : ℕ := 0x0106

def h3FrameTypeReservedFromHTTP2 (frameType : ℕ) : Bool := [0x02, 0x06, 0x08, 0x09].contains frameType

def isControlFrame (frameType : ℕ) : Bool :=
  [h3FrameSettings, h3FrameGoaway, h3FrameMaxPushID, h3FrameCancelPush, h3FramePushPromise].contains frameType

structure Frame where
  frameType : ℕ
  payload : Bytes
  deriving DecidableEq

def next (data : Bytes) : Option (Frame × Bytes) :=
  match readVarint data with
  | none => none
  | some (ft, rest) =>
    match readVarint rest with
    | none => none
    | some (fLen, rest) => if fLen > rest.length then none else some (⟨ft, rest.take fLen⟩, rest.drop fLen)

/-! ### Field sections -/

structure Server where
  limits : ServerLimits
  /-- The answer for a host on the connection's certificate. -/
  misdirectsClientAuth : Bytes → Bool := fun _ => false

def h3MaxFieldSectionSize : ℤ := 16384

def h3FieldLineOverhead : ℕ := 32

def h2HeaderListLimitFor (maxHeaderSize : ℤ) : ℤ := min maxHeaderSize (2 ^ 32 - 1 - 32 * 128) + 32 * 128

def Server.h3FieldSectionLimit (server : Server) : ℤ :=
  min h3MaxFieldSectionSize (h2HeaderListLimitFor server.limits.maxHeaderSize)

def Server.bodyTooLarge (server : Server) (n : ℕ) : Bool :=
  decide (0 < server.limits.maxBodySize ∧ server.limits.maxBodySize < n)

inductive SectionErr
  | fieldSectionTooLarge
  | qpack (e : QpackErr)
  | request (e : HpackError)
  deriving DecidableEq

def h3RequestErrorStatus : SectionErr → ℕ
  | .fieldSectionTooLarge => 431
  | .qpack .tooManyHeaders => 431
  | .qpack _ => 400
  | .request _ => 400

def h3FieldSectionSize (fields : List Field) : ℕ :=
  (fields.map fun f => f.1.length + f.2.length + h3FieldLineOverhead).sum

def observeFields (reqMeta : HpackRequestMeta) : List Field → Except HpackError HpackRequestMeta
  | [] => .ok reqMeta
  | f :: fields =>
    match reqMeta.observeHeader f.1 f.2 with
    | (_, some e) => .error e
    | (reqMeta, none) => observeFields reqMeta fields

def h3ValidRequestTarget (target method : Bytes) : Bool :=
  if target == ascii "*" then method == ascii "OPTIONS"
  else if target.head? != some slash then false
  else target.all fun c => !(c ≤ 0x20 || c == 0x7f)

def h3ValidateRequestSection (fields : List Field) (limit : ℤ) : Except SectionErr HpackRequestMeta :=
  if h3FieldSectionSize fields > limit then .error .fieldSectionTooLarge
  else
    match observeFields {} fields with
    | .error e => .error (.request e)
    | .ok reqMeta =>
      match reqMeta.validate with
      | some e => .error (.request e)
      | none =>
        if !isH1Token reqMeta.method then .error (.request .malformedRequest)
        else if reqMeta.pseudoMask &&& hpackPseudoPath ≠ 0 ∧
            h3ValidRequestTarget reqMeta.rawPath reqMeta.method = false then
          .error (.request .malformedRequest)
        else .ok reqMeta

def h3PseudoFieldCount (reqMeta : HpackRequestMeta) : ℕ :=
  (range 8).countP fun i => reqMeta.pseudoMask.toNat.testBit i

structure QpackCachedSection where
  regular : List Field
  reqMeta : HpackRequestMeta
  fieldSectionSize : ℕ
  deriving DecidableEq

def cachedSection (fields : List Field) : Except SectionErr QpackCachedSection :=
  (h3ValidateRequestSection fields h3MaxFieldSectionSize).map fun reqMeta =>
    ⟨fields.drop (h3PseudoFieldCount reqMeta), reqMeta, h3FieldSectionSize fields⟩

/-- The sections that were decoded before, on any connection, under their blocks. -/
structure QpackBlockCache where
  m : List (Bytes × QpackCachedSection)
  bytes : ℕ
  decoded : ∀ e ∈ m, ∃ fields, decodeAppend e.1 [] = .ok fields ∧ cachedSection fields = .ok e.2

namespace QpackBlockCache

def empty : QpackBlockCache := ⟨[], 0, fun _ h => absurd h not_mem_nil⟩

def qpackBlockCacheMaxEntries : ℕ := 1024

def qpackBlockCacheMaxBytes : ℕ := 2 ^ 20

def get (c : QpackBlockCache) (block : Bytes) : Option QpackCachedSection :=
  (c.m.find? fun e => e.1 == block).map Prod.snd

def hasRoomLocked (c : QpackBlockCache) (total : ℕ) : Bool :=
  c.m.length < qpackBlockCacheMaxEntries && c.bytes + total ≤ qpackBlockCacheMaxBytes

def put (c : QpackBlockCache) {block : Bytes} {fields : List Field} (hdecoded : decodeAppend block [] = .ok fields) :
    QpackBlockCache :=
  if !c.hasRoomLocked block.length then c
  else
    let total := block.length + (fields.map fun f => f.1.length + f.2.length).sum
    match hsection : cachedSection fields with
    | .error _ => c
    | .ok s =>
      if c.hasRoomLocked total && (c.get block).isNone then
        { m := (block, s) :: c.m
          bytes := c.bytes + total
          decoded := forall_mem_cons.mpr ⟨⟨fields, hdecoded, hsection⟩, c.decoded⟩ }
      else c

theorem get_decoded {c : QpackBlockCache} {block : Bytes} {s : QpackCachedSection} (h : c.get block = some s) :
    ∃ fields, decodeAppend block [] = .ok fields ∧ cachedSection fields = .ok s := by
  obtain ⟨e, hfind, rfl⟩ := Option.map_eq_some_iff.mp h
  have hkey : e.1 = block := by simpa using find?_some hfind
  have hmem := mem_of_find?_eq_some hfind
  obtain ⟨fields, hdecode, hsection⟩ := c.decoded e hmem
  exact ⟨fields, hkey ▸ hdecode, hsection⟩

end QpackBlockCache

def decodeRequestSection (server : Server) (cache : QpackBlockCache) (block : Bytes) :
    QpackBlockCache × Except ℕ (HpackRequestMeta × List Field) :=
  let limit := server.h3FieldSectionLimit
  match cache.get block with
  | some cached =>
    if cached.fieldSectionSize > limit then (cache, .error (h3RequestErrorStatus .fieldSectionTooLarge))
    else (cache, .ok (cached.reqMeta, cached.regular))
  | none =>
    match hdecode : decodeAppend block [] with
    | .error e => (cache, .error (h3RequestErrorStatus (.qpack e)))
    | .ok fields =>
      match h3ValidateRequestSection fields limit with
      | .error e => (cache, .error (h3RequestErrorStatus e))
      | .ok reqMeta => (cache.put hdecode, .ok (reqMeta, fields.drop (h3PseudoFieldCount reqMeta)))

def decodeTrailerSection (server : Server) (block : Bytes) : Except ℕ (List Field) :=
  match decodeAppend block [] with
  | .error e => .error (h3RequestErrorStatus (.qpack e))
  | .ok fields =>
    if h3FieldSectionSize fields > server.h3FieldSectionLimit then
      .error (h3RequestErrorStatus .fieldSectionTooLarge)
    else
      match h2TrailerFields fields with
      | none => .error 400
      | some trailers => .ok trailers

def requestSection (server : Server) (block : Bytes) : Except ℕ (HpackRequestMeta × List Field) :=
  match decodeAppend block [] with
  | .error e => .error (h3RequestErrorStatus (.qpack e))
  | .ok fields =>
    match h3ValidateRequestSection fields server.h3FieldSectionLimit with
    | .error e => .error (h3RequestErrorStatus e)
    | .ok reqMeta => .ok (reqMeta, fields.drop (h3PseudoFieldCount reqMeta))

theorem h3ValidateRequestSection_of_le {fields : List Field} {limit low : ℤ} {reqMeta : HpackRequestMeta}
    (h : h3ValidateRequestSection fields limit = .ok reqMeta) :
    h3ValidateRequestSection fields low =
      if h3FieldSectionSize fields > low then .error .fieldSectionTooLarge else .ok reqMeta := by
  have hsize : ¬ h3FieldSectionSize fields > limit := by
    intro hgt
    rw [h3ValidateRequestSection, if_pos hgt] at h
    cases h
  rw [h3ValidateRequestSection, if_neg hsize] at h
  rw [h3ValidateRequestSection]
  by_cases hlow : h3FieldSectionSize fields > low
  · rw [if_pos hlow, if_pos hlow]
  rw [if_neg hlow, if_neg hlow]
  exact h

theorem decodeRequestSection_snd (server : Server) (cache : QpackBlockCache) (block : Bytes) :
    (decodeRequestSection server cache block).2 = requestSection server block := by
  unfold decodeRequestSection requestSection
  cases hget : cache.get block with
  | some cached =>
    obtain ⟨fields, hdecode, hsection⟩ := QpackBlockCache.get_decoded hget
    unfold cachedSection at hsection
    rcases hvalid : h3ValidateRequestSection fields h3MaxFieldSectionSize with e | reqMeta
    · rw [hvalid] at hsection
      cases hsection
    rw [hvalid] at hsection
    cases hsection
    dsimp only
    rw [hdecode]
    dsimp only
    rw [h3ValidateRequestSection_of_le hvalid]
    by_cases hsize : (h3FieldSectionSize fields : ℤ) > server.h3FieldSectionLimit
    · rw [if_pos hsize, if_pos hsize]
    · rw [if_neg hsize, if_neg hsize]
  | none =>
    dsimp only
    split
    · next e hdecode => rw [hdecode]
    next fields hdecode =>
    -- the new entry carries the proof of what was decoded, which is in the way of the rewriting
    generalize cache.put _ = stored
    rw [hdecode]
    dsimp only
    cases h3ValidateRequestSection fields server.h3FieldSectionLimit with
    | error | ok => rfl

/-- The answers to request sections, of any connections, one after another. -/
def decodeSections : QpackBlockCache → List (Server × Bytes) → List (Except ℕ (HpackRequestMeta × List Field))
  | _, [] => []
  | cache, call :: calls =>
    let r := decodeRequestSection call.1 cache call.2
    r.2 :: decodeSections r.1 calls

/-- Whatever sections came before, a section is answered as if it were decoded afresh. -/
theorem sections_as_afresh (cache : QpackBlockCache) (calls : List (Server × Bytes)) :
    decodeSections cache calls = calls.map fun call => requestSection call.1 call.2 := by
  induction calls generalizing cache with
  | nil => rfl
  | cons call calls ih => rw [decodeSections, decodeRequestSection_snd, ih, map_cons]

/-! ### The request stream -/

structure Request where
  method : Bytes
  path : Bytes
  rawPath : Bytes
  query : Bytes
  host : Bytes
  headers : List Field
  trailers : List Field
  body : Bytes
  deriving DecidableEq

/-- What becomes of a request stream: a handler gets it, it is answered with an error, or the
connection is closed. -/
inductive Outcome
  | dispatched (req : Request)
  | rejected (status : ℕ)
  | closed (errorCode : ℕ) (reason : String)
  deriving DecidableEq

def abortRequestStream (reason : String) : Outcome := .closed h3ErrFrameUnexpected reason

/-- The variables of `handleRequestStream`. -/
structure Progress where
  cache : QpackBlockCache
  reqMeta : HpackRequestMeta := {}
  headersSeen : Bool := false
  trailersSeen : Bool := false
  headers : List Field := []
  trailers : List Field := []
  body : Bytes := []

/-- The body of the loop; an outcome ends it. -/
def onFrame (server : Server) (p : Progress) (f : Frame) : Progress × Option Outcome :=
  if f.frameType = h3FrameHeaders then
    if p.trailersSeen then (p, some (abortRequestStream "HEADERS frame after trailers"))
    else if p.headersSeen then
      match decodeTrailerSection server f.payload with
      | .error status => ({ p with trailersSeen := true }, some (.rejected status))
      | .ok trailers => ({ p with trailersSeen := true, trailers := trailers }, none)
    else
      let r := decodeRequestSection server p.cache f.payload
      match r.2 with
      | .error status => ({ p with headersSeen := true, cache := r.1 }, some (.rejected status))
      | .ok (reqMeta, headers) =>
        ({ p with headersSeen := true, cache := r.1, reqMeta := reqMeta, headers := headers }, none)
  else if f.frameType = h3FrameData then
    if !p.headersSeen || p.trailersSeen then (p, some (abortRequestStream "DATA frame outside the request body"))
    else
      let p := { p with body := p.body ++ f.payload }
      if server.bodyTooLarge p.body.length then (p, some (.rejected 413)) else (p, none)
  else if isControlFrame f.frameType then (p, some (abortRequestStream "control frame on a request stream"))
  else if h3FrameTypeReservedFromHTTP2 f.frameType then
    (p, some (abortRequestStream "HTTP/2 frame type on a request stream"))
  else (p, none)

def frameLoop (server : Server) : ℕ → Progress → Bytes → Progress × Option Outcome
  | 0, p, _ => (p, none)
  | fuel + 1, p, data =>
    match next data with
    | none => if data ≠ [] then (p, some (.closed h3ErrFrame "truncated request frame")) else (p, none)
    | some (f, rest) =>
      match onFrame server p f with
      | (p, some o) => (p, some o)
      | (p, none) => frameLoop server fuel p rest

def finishRequest (server : Server) (p : Progress) : Outcome :=
  if !p.headersSeen || p.reqMeta.path == [] then .rejected 400
  else if 0 ≤ declaredLength p.reqMeta ∧ declaredLength p.reqMeta ≠ p.body.length then .rejected 400
  else if server.misdirectsClientAuth p.reqMeta.authority then .rejected 421
  else
    .dispatched
      { method := p.reqMeta.method
        path := p.reqMeta.path
        rawPath := p.reqMeta.rawPath
        query := p.reqMeta.query
        host := p.reqMeta.authority
        headers := p.headers
        trailers := p.trailers
        body := p.body }

/-- `handleRequestStream` with what `readRequest` and `overflowed` returned. -/
def handleRequestStream (server : Server) (cache : QpackBlockCache) (overflowed : Bool) (data : Bytes) :
    QpackBlockCache × Outcome :=
  if overflowed then (cache, .rejected 413)
  else
    match frameLoop server data.length { cache := cache } data with
    | (p, some o) => (p.cache, o)
    | (p, none) => (p.cache, finishRequest server p)

/-! ### Which requests are dispatched -/

def IsVarint (v : ℕ) (bytes : Bytes) : Prop := bytes ≠ [] ∧ quicParseVarint bytes = (v, bytes.length)

inductive Writes : List Frame → Bytes → Prop
  | nil : Writes [] []
  | cons {f : Frame} {fs : List Frame} {t l rest : Bytes} (htype : IsVarint f.frameType t)
      (hlength : IsVarint f.payload.length l) (hrest : Writes fs rest) :
      Writes (f :: fs) (t ++ (l ++ (f.payload ++ rest)))

/-- The frame types that have a meaning, or are set aside because HTTP/2 gave them one. -/
def isKnown (f : Frame) : Bool :=
  f.frameType == h3FrameHeaders || f.frameType == h3FrameData || isControlFrame f.frameType ||
    h3FrameTypeReservedFromHTTP2 f.frameType

def trailerSection (server : Server) : Option Bytes → Except ℕ (List Field)
  | none => .ok []
  | some block => decodeTrailerSection server block

/-- The known frames are one section of fields, pieces of a body and at most one more section. -/
def Forms (fs : List Frame) (head : Bytes) (pieces : List Bytes) (trailer : Option Bytes) : Prop :=
  fs.filter isKnown =
    ⟨h3FrameHeaders, head⟩ :: (pieces.map (Frame.mk h3FrameData) ++ trailer.toList.map (Frame.mk h3FrameHeaders))

/-- The frames are those of a request that a handler may get: valid sections, a body within the
limit and of the declared length, a path, and a host that this connection answers for. -/
def Accepted (server : Server) (fs : List Frame) (req : Request) : Prop := ∃ head pieces trailer reqMeta,
    Forms fs head pieces trailer ∧ requestSection server head = .ok (reqMeta, req.headers) ∧
    trailerSection server trailer = .ok req.trailers ∧ req.body = pieces.flatten ∧
    (reqMeta.hasContentLength = true → reqMeta.contentLength = req.body.length) ∧
    (server.bodyTooLarge req.body.length = false ∧ reqMeta.path ≠ [] ∧
      server.misdirectsClientAuth reqMeta.authority = false) ∧
    req.method = reqMeta.method ∧ req.path = reqMeta.path ∧ req.rawPath = reqMeta.rawPath ∧
    req.query = reqMeta.query ∧ req.host = reqMeta.authority

variable {data rest : Bytes} {f : Frame} {p q : Progress} {server : Server} {fs : List Frame}

theorem quicParseVarint_front {v n : ℕ} (h : quicParseVarint data = (v, n)) (hn : n ≠ 0) :
    n ≤ data.length ∧ ∀ rest, quicParseVarint (data.take n ++ rest) = (v, n) := by
  revert h
  fun_cases quicParseVarint data <;> intro h <;> cases h <;> first
    | exact absurd rfl hn
    | (constructor
       · simp
       · intro rest
         simp_all [quicParseVarint])

theorem readVarint_iff {v : ℕ} :
    readVarint data = some (v, rest) ↔ ∃ bytes, IsVarint v bytes ∧ data = bytes ++ rest := by
  unfold readVarint
  constructor
  · intro h
    rcases hparse : quicParseVarint data with ⟨w, n⟩
    rw [hparse] at h
    dsimp only at h
    split_ifs at h with hn
    obtain ⟨hle, hfront⟩ := quicParseVarint_front hparse hn
    have hlen : (data.take n).length = n := length_take_of_le hle
    cases h
    refine ⟨data.take n, ⟨?_, ?_⟩, (take_append_drop n data).symm⟩
    · intro hnil
      rw [hnil] at hlen
      exact hn hlen.symm
    have hself := hfront []
    rw [append_nil] at hself
    rw [hlen]
    exact hself
  rintro ⟨bytes, ⟨hne, hparse⟩, rfl⟩
  have hlen : bytes.length ≠ 0 := fun h => hne (length_eq_zero_iff.mp h)
  have hfront := (quicParseVarint_front hparse hlen).2 rest
  rw [take_length] at hfront
  rw [hfront]
  dsimp only
  rw [if_neg hlen, drop_left]

theorem next_iff : next data = some (f, rest) ↔
      ∃ t l, IsVarint f.frameType t ∧ IsVarint f.payload.length l ∧ data = t ++ (l ++ (f.payload ++ rest)) := by
  unfold next
  constructor
  · intro h
    rcases htype : readVarint data with _ | r
    · rw [htype] at h
      cases h
    rcases hlength : readVarint r.2 with _ | q
    · rw [htype] at h
      dsimp only at h
      rw [hlength] at h
      cases h
    rw [htype] at h
    dsimp only at h
    rw [hlength] at h
    dsimp only at h
    split_ifs at h with hlong
    cases h
    obtain ⟨t, ht, hdata⟩ := readVarint_iff.mp htype
    obtain ⟨l, hl, hrest⟩ := readVarint_iff.mp hlength
    have hpayload := length_take_of_le (not_lt.mp hlong)
    refine ⟨t, l, ht, ?_, ?_⟩
    · rw [hpayload]
      exact hl
    · rw [take_append_drop, ← hrest, ← hdata]
  rintro ⟨t, l, ht, hl, rfl⟩
  rw [readVarint_iff.mpr ⟨t, ht, rfl⟩]
  dsimp only
  rw [readVarint_iff.mpr ⟨l, hl, rfl⟩]
  dsimp only
  rw [if_neg (by simp), take_left, drop_left]

theorem next_length (h : next data = some (f, rest)) : rest.length < data.length := by
  obtain ⟨t, l, ht, -, rfl⟩ := next_iff.mp h
  have hpos : 0 < t.length := length_pos_iff.mpr ht.1
  simp only [length_append]
  omega

/-- The loop reads the frames to their end, each without an outcome. -/
inductive Reads (server : Server) : Progress → List Frame → Progress → Prop
  | nil (p : Progress) : Reads server p [] p
  | cons {p q r : Progress} {f : Frame} {fs : List Frame} (hstep : onFrame server p f = (q, none))
      (hrest : Reads server q fs r) : Reads server p (f :: fs) r

open Reads

theorem frameLoop_none_iff {fuel : ℕ} (hfuel : data.length ≤ fuel) :
    frameLoop server fuel p data = (q, none) ↔ ∃ fs, Writes fs data ∧ Reads server p fs q := by
  constructor
  · intro h
    induction fuel generalizing p data with
    | zero =>
      have hnil : data = [] := length_eq_zero_iff.mp (Nat.le_zero.mp hfuel)
      cases h
      exact ⟨[], hnil ▸ Writes.nil, nil _⟩
    | succ fuel ih =>
      rw [frameLoop] at h
      rcases hnext : next data with _ | r
      · rw [hnext] at h
        by_cases hdata : data = []
        · rw [if_neg (fun hne => hne hdata)] at h
          cases h
          exact ⟨[], hdata ▸ Writes.nil, nil _⟩
        rw [if_pos hdata] at h
        cases h
      rw [hnext] at h
      dsimp only at h
      have hlt := next_length hnext
      obtain ⟨t, l, ht, hl, hdata⟩ := next_iff.mp hnext
      rcases hstep : onFrame server p r.1 with ⟨p', o⟩
      rw [hstep] at h
      cases o with
      | some o => cases h
      | none =>
        obtain ⟨fs, hwrites, hreads⟩ := ih (by omega) h
        exact ⟨r.1 :: fs, hdata ▸ Writes.cons ht hl hwrites, cons hstep hreads⟩
  rintro ⟨fs, hwrites, hreads⟩
  induction hreads generalizing fuel data with
  | nil p =>
    cases hwrites
    cases fuel with
    | zero | succ => rfl
  | @cons p q r f fs hstep _ ih =>
    cases hwrites with
    | @cons _ _ t l rest ht hl hrest =>
      have hnext : next (t ++ (l ++ (f.payload ++ rest))) = some (f, rest) := next_iff.mpr ⟨t, l, ht, hl, rfl⟩
      have hlt := next_length hnext
      rcases fuel with _ | fuel
      · omega
      rw [frameLoop, hnext]
      dsimp only
      rw [hstep]
      exact ih (by omega) hrest

theorem not_known_iff (f : Frame) : isKnown f = false ↔ f.frameType ≠ h3FrameHeaders ∧ f.frameType ≠ h3FrameData ∧
      isControlFrame f.frameType = false ∧ h3FrameTypeReservedFromHTTP2 f.frameType = false := by
  unfold isKnown
  simp only [Bool.or_eq_false_iff, beq_eq_false_iff_ne, and_assoc]

theorem isKnown_of_headers (h : f.frameType = h3FrameHeaders) : isKnown f = true := by
  unfold isKnown
  rw [h]
  rfl

theorem isKnown_of_data (h : f.frameType = h3FrameData) : isKnown f = true := by
  unfold isKnown
  rw [h]
  rfl

theorem onFrame_headers_iff (hheaders : f.frameType = h3FrameHeaders) :
    onFrame server p f = (q, none) ↔ p.trailersSeen = false ∧
      ((p.headersSeen = true ∧ ∃ trailers, decodeTrailerSection server f.payload = .ok trailers ∧
          q = { p with trailersSeen := true, trailers := trailers }) ∨
        (p.headersSeen = false ∧ ∃ reqMeta headers, requestSection server f.payload = .ok (reqMeta, headers) ∧
          q = { p with
            headersSeen := true
            cache := (decodeRequestSection server p.cache f.payload).1
            reqMeta := reqMeta
            headers := headers })) := by
  unfold onFrame
  rw [if_pos hheaders, ← decodeRequestSection_snd server p.cache]
  cases htrailers : p.trailersSeen with
  | true => simp
  | false =>
    cases hseen : p.headersSeen with
    | true =>
      cases decodeTrailerSection server f.payload with
      | error status => simp
      | ok trailers => simp [eq_comm]
    | false =>
      generalize decodeRequestSection server p.cache f.payload = r
      obtain ⟨cache, res⟩ := r
      cases res with
      | error status => simp
      | ok r => simp [Prod.ext_iff, eq_comm]

theorem onFrame_data_iff (hdata : f.frameType = h3FrameData) :
    onFrame server p f = (q, none) ↔ p.headersSeen = true ∧ p.trailersSeen = false ∧
      server.bodyTooLarge (p.body ++ f.payload).length = false ∧ q = { p with body := p.body ++ f.payload } := by
  have hheaders : ¬ f.frameType = h3FrameHeaders := by
    rw [hdata]
    decide
  unfold onFrame
  rw [if_neg hheaders, if_pos hdata]
  cases p.headersSeen with
  | false => simp
  | true =>
    cases p.trailersSeen with
    | true => simp
    | false =>
      dsimp only
      cases server.bodyTooLarge (p.body ++ f.payload).length with
      | true => simp
      | false => simp [eq_comm]

theorem onFrame_none (h : onFrame server p f = (q, none)) :
    (isKnown f = false ∧ q = p) ∨ f.frameType = h3FrameHeaders ∨ f.frameType = h3FrameData := by
  by_cases hheaders : f.frameType = h3FrameHeaders
  · exact Or.inr (Or.inl hheaders)
  by_cases hdata : f.frameType = h3FrameData
  · exact Or.inr (Or.inr hdata)
  unfold onFrame at h
  rw [if_neg hheaders, if_neg hdata] at h
  split_ifs at h with hcontrol hreserved
  · cases h
  · cases h
  cases h
  exact Or.inl ⟨(not_known_iff f).mpr ⟨hheaders, hdata, Bool.eq_false_iff.mpr hcontrol,
    Bool.eq_false_iff.mpr hreserved⟩, rfl⟩

theorem onFrame_unknown (h : isKnown f = false) : onFrame server p f = (p, none) := by
  obtain ⟨hheaders, hdata, hcontrol, hreserved⟩ := (not_known_iff f).mp h
  unfold onFrame
  rw [if_neg hheaders, if_neg hdata, hcontrol, hreserved]
  rfl

theorem filter_unknown (h : isKnown f = false) : (f :: fs).filter isKnown = fs.filter isKnown :=
  filter_cons_of_neg (by rw [h]; exact Bool.false_ne_true)

theorem reads_ended (hheaders : p.headersSeen = true)
    (htrailers : p.trailersSeen = true) : Reads server p fs q ↔ fs.filter isKnown = [] ∧ q = p := by
  induction fs with
  | nil =>
    constructor
    · intro h
      cases h
      exact ⟨rfl, rfl⟩
    rintro ⟨-, rfl⟩
    exact nil _
  | cons f fs ih =>
    constructor
    · intro h
      cases h with
      | cons hstep hrest =>
        obtain ⟨hknown, rfl⟩ | hf | hf := onFrame_none hstep
        · rw [filter_unknown hknown]
          exact ih.mp hrest
        · have hnot := ((onFrame_headers_iff hf).mp hstep).1
          rw [htrailers] at hnot
          cases hnot
        have hnot := ((onFrame_data_iff hf).mp hstep).2.1
        rw [htrailers] at hnot
        cases hnot
    rintro ⟨hnone, rfl⟩
    have hknown : isKnown f = false := Bool.eq_false_iff.mpr (filter_eq_nil_iff.mp hnone f mem_cons_self)
    rw [filter_unknown hknown] at hnone
    exact cons (onFrame_unknown hknown) (ih.mpr ⟨hnone, rfl⟩)

/-- What the frames after the first section do, from the body so far. -/
def Ends (server : Server) (p : Progress) (pieces : List Bytes) (trailer : Option Bytes) (q : Progress) : Prop :=
  ∃ trailers, trailerSection server trailer = .ok trailers ∧
    server.bodyTooLarge (p.body ++ pieces.flatten).length = false ∧
    q = { p with body := p.body ++ pieces.flatten, trailersSeen := trailer.isSome, trailers := trailers }

theorem bodyTooLarge_mono {m n : ℕ} (hle : m ≤ n) (h : server.bodyTooLarge n = false) :
    server.bodyTooLarge m = false := by
  unfold Server.bodyTooLarge at h ⊢
  simp only [decide_eq_false_iff_not] at h ⊢
  omega

theorem reads_body (hheaders : p.headersSeen = true) (htrailers : p.trailersSeen = false) (hempty : p.trailers = [])
    (hbody : server.bodyTooLarge p.body.length = false) :
    Reads server p fs q ↔ ∃ pieces trailer,
      fs.filter isKnown = pieces.map (Frame.mk h3FrameData) ++ trailer.toList.map (Frame.mk h3FrameHeaders) ∧
        Ends server p pieces trailer q := by
  induction fs generalizing p with
  | nil =>
    constructor
    · intro h
      cases h
      refine ⟨[], none, rfl, [], rfl, ?_, ?_⟩
      · rw [flatten_nil, append_nil]
        exact hbody
      · rw [flatten_nil, append_nil, Option.isSome_none, ← htrailers, ← hempty]
    rintro ⟨pieces, trailer, hfs, trailers, htrailer, -, rfl⟩
    obtain ⟨hpieces, hnone⟩ := append_eq_nil_iff.mp hfs.symm
    have hpieces : pieces = [] := map_eq_nil_iff.mp hpieces
    cases trailer with
    | some block => cases hnone
    | none =>
      cases htrailer
      rw [hpieces, flatten_nil, append_nil, Option.isSome_none, ← htrailers, ← hempty]
      exact nil _
  | cons f fs ih =>
    constructor
    · intro h
      cases h with
      | cons hstep hrest =>
        obtain ⟨hknown, rfl⟩ | hf | hf := onFrame_none hstep
        · rw [filter_unknown hknown]
          exact (ih hheaders htrailers hempty hbody).mp hrest
        · obtain ⟨-, ⟨-, trailers, htrailer, rfl⟩ | ⟨hnot, -⟩⟩ := (onFrame_headers_iff hf).mp hstep
          · obtain ⟨hnone, rfl⟩ := (reads_ended (by exact hheaders) rfl).mp hrest
            refine ⟨[], some f.payload, ?_, trailers, htrailer, ?_, ?_⟩
            · rw [filter_cons_of_pos (isKnown_of_headers hf), hnone, ← hf]
              rfl
            · rw [flatten_nil, append_nil]
              exact hbody
            rw [flatten_nil, append_nil]
            rfl
          rw [hheaders] at hnot
          cases hnot
        obtain ⟨-, -, hlarge, rfl⟩ := (onFrame_data_iff hf).mp hstep
        obtain ⟨pieces, trailer, hfs, trailers, htrailer, hend, rfl⟩ :=
          (ih (p := { p with body := p.body ++ f.payload }) hheaders htrailers hempty hlarge).mp hrest
        rw [append_assoc] at hend
        refine ⟨f.payload :: pieces, trailer, ?_, trailers, htrailer, hend, ?_⟩
        · rw [filter_cons_of_pos (isKnown_of_data hf), hfs, ← hf]
          rfl
        · rw [append_assoc, flatten_cons]
    rintro ⟨pieces, trailer, hfs, trailers, htrailer, hend, rfl⟩
    cases hknown : isKnown f with
    | false =>
      rw [filter_unknown hknown] at hfs
      exact cons (onFrame_unknown hknown)
        ((ih hheaders htrailers hempty hbody).mpr ⟨pieces, trailer, hfs, trailers, htrailer, hend, rfl⟩)
    | true =>
      rw [filter_cons_of_pos hknown] at hfs
      cases pieces with
      | cons piece pieces =>
        obtain ⟨rfl, htail⟩ := cons_eq_cons.mp hfs
        have hsplit : p.body ++ (piece :: pieces).flatten = p.body ++ piece ++ pieces.flatten := by
          rw [flatten_cons, append_assoc]
        rw [hsplit] at hend
        have hlarge : server.bodyTooLarge (p.body ++ piece).length = false := bodyTooLarge_mono (by simp) hend
        refine cons ((onFrame_data_iff rfl).mpr ⟨hheaders, htrailers, hlarge, rfl⟩) ?_
        exact (ih (p := { p with body := p.body ++ piece }) hheaders htrailers hempty hlarge).mpr
          ⟨pieces, trailer, htail, trailers, htrailer, hend, by rw [hsplit]⟩
      | nil =>
        rcases trailer with _ | block
        · cases hfs
        obtain ⟨rfl, hnone⟩ := cons_eq_cons.mp hfs
        rw [flatten_nil, append_nil]
        have hstep := (onFrame_headers_iff (f := ⟨h3FrameHeaders, block⟩) rfl).mpr
          ⟨htrailers, Or.inl ⟨hheaders, trailers, htrailer, rfl⟩⟩
        exact cons hstep ((reads_ended (by exact hheaders) rfl).mpr ⟨hnone, rfl⟩)

theorem reads_start {cache : QpackBlockCache} : Reads server { cache := cache } fs q ↔
      (fs.filter isKnown = [] ∧ q = { cache := cache }) ∨
      ∃ head pieces trailer reqMeta headers, Forms fs head pieces trailer ∧
        requestSection server head = .ok (reqMeta, headers) ∧
        Ends server
          { cache := (decodeRequestSection server cache head).1
            headersSeen := true
            reqMeta := reqMeta
            headers := headers } pieces trailer q := by
  have hzero : server.bodyTooLarge ([] : Bytes).length = false := by
    unfold Server.bodyTooLarge
    rw [decide_eq_false_iff_not, length_nil]
    omega
  induction fs with
  | nil =>
    constructor
    · intro h
      cases h
      exact Or.inl ⟨rfl, rfl⟩
    rintro (⟨-, rfl⟩ | ⟨_, _, _, _, _, hforms, -⟩)
    · exact nil _
    · cases hforms
  | cons f fs ih =>
    cases hknown : isKnown f with
    | false =>
      unfold Forms
      rw [filter_unknown hknown]
      refine Iff.trans ?_ ih
      constructor
      · intro h
        cases h with
        | cons hstep hrest =>
          rw [onFrame_unknown hknown] at hstep
          cases hstep
          exact hrest
      · exact cons (onFrame_unknown hknown)
    | true =>
      unfold Forms
      rw [filter_cons_of_pos hknown]
      constructor
      · intro h
        cases h with
        | cons hstep hrest =>
          obtain ⟨hnot, -⟩ | hf | hf := onFrame_none hstep
          · rw [hknown] at hnot
            cases hnot
          · obtain ⟨-, ⟨hnot, -⟩ | ⟨-, reqMeta, headers, hsection, rfl⟩⟩ := (onFrame_headers_iff hf).mp hstep
            · cases hnot
            obtain ⟨pieces, trailer, hfs, hends⟩ := (reads_body rfl rfl rfl hzero).mp hrest
            refine Or.inr ⟨f.payload, pieces, trailer, reqMeta, headers, ?_, hsection, hends⟩
            rw [hfs, ← hf]
          · cases ((onFrame_data_iff hf).mp hstep).1
      rintro (⟨hnone, -⟩ | ⟨head, pieces, trailer, reqMeta, headers, hforms, hsection, hends⟩)
      · cases hnone
      obtain ⟨rfl, hfs⟩ := cons_eq_cons.mp hforms
      have hstep := (onFrame_headers_iff (f := ⟨h3FrameHeaders, head⟩) (p := { cache := cache }) rfl).mpr
        ⟨rfl, Or.inr ⟨rfl, reqMeta, headers, hsection, rfl⟩⟩
      exact cons hstep ((reads_body rfl rfl rfl hzero).mpr ⟨pieces, trailer, hfs, hends⟩)

theorem finishRequest_iff {req : Request} : finishRequest server p = .dispatched req ↔
      p.headersSeen = true ∧ p.reqMeta.path ≠ [] ∧
      (p.reqMeta.hasContentLength = true → p.reqMeta.contentLength = p.body.length) ∧
      server.misdirectsClientAuth p.reqMeta.authority = false ∧
      req = ⟨p.reqMeta.method, p.reqMeta.path, p.reqMeta.rawPath, p.reqMeta.query, p.reqMeta.authority,
        p.headers, p.trailers, p.body⟩ := by
  have hlength : ¬ (0 ≤ declaredLength p.reqMeta ∧ declaredLength p.reqMeta ≠ p.body.length) ↔
      (p.reqMeta.hasContentLength = true → p.reqMeta.contentLength = p.body.length) := by
    unfold declaredLength
    cases p.reqMeta.hasContentLength with
    | true | false => simp
  unfold finishRequest
  rw [← hlength]
  by_cases hstart : (!p.headersSeen || p.reqMeta.path == []) = true
  · rw [if_pos hstart]
    simp only [Bool.or_eq_true, Bool.not_eq_true', beq_iff_eq] at hstart
    constructor
    · intro h
      cases h
    rintro ⟨hseen, hpath, -⟩
    obtain hnot | hnot := hstart
    · rw [hseen] at hnot
      cases hnot
    · exact absurd hnot hpath
  rw [if_neg hstart]
  simp only [Bool.or_eq_true, Bool.not_eq_true', beq_iff_eq, not_or, Bool.not_eq_false] at hstart
  by_cases hdeclared : 0 ≤ declaredLength p.reqMeta ∧ declaredLength p.reqMeta ≠ p.body.length
  · rw [if_pos hdeclared]
    constructor
    · intro h
      cases h
    rintro ⟨-, -, hnot, -⟩
    exact absurd hdeclared hnot
  rw [if_neg hdeclared]
  cases server.misdirectsClientAuth p.reqMeta.authority with
  | true => simp
  | false =>
    constructor
    · intro h
      cases h
      exact ⟨hstart.1, hstart.2, hdeclared, rfl, rfl⟩
    rintro ⟨-, -, -, -, rfl⟩
    rfl

theorem onFrame_refuses {o : Outcome} (h : onFrame server p f = (q, some o)) (req : Request) : o ≠ .dispatched req := by
  rintro rfl
  unfold onFrame abortRequestStream at h
  dsimp only at h
  split_ifs at h with h₁ h₂ h₃ h₄ h₅ h₆ h₇
  · cases h
  · cases hsection : decodeTrailerSection server f.payload with
    | error status | ok trailers =>
      rw [hsection] at h
      cases h
  · generalize decodeRequestSection server p.cache f.payload = r at h
    obtain ⟨_, res⟩ := r
    cases res with
    | error | ok => cases h
  all_goals cases h

theorem frameLoop_refuses {fuel : ℕ} {o : Outcome}
    (h : frameLoop server fuel p data = (q, some o)) (req : Request) : o ≠ .dispatched req := by
  induction fuel generalizing p data with
  | zero => cases h
  | succ fuel ih =>
    rw [frameLoop] at h
    rcases hnext : next data with _ | r
    · rw [hnext] at h
      by_cases hdata : data = []
      · rw [if_neg (fun hne => hne hdata)] at h
        cases h
      rw [if_pos hdata] at h
      cases h
      exact Outcome.noConfusion
    rw [hnext] at h
    dsimp only at h
    rcases hstep : onFrame server p r.1 with ⟨p', o'⟩
    rw [hstep] at h
    rcases o' with _ | o'
    · exact ih h
    cases h
    exact onFrame_refuses hstep req

theorem handleRequestStream_dispatched_iff {cache : QpackBlockCache} {req : Request} :
    (handleRequestStream server cache false data).2 = .dispatched req ↔
      ∃ fs, Writes fs data ∧ Accepted server fs req := by
  have hloop : (handleRequestStream server cache false data).2 = .dispatched req ↔
      ∃ q, frameLoop server data.length { cache := cache } data = (q, none) ∧
        finishRequest server q = .dispatched req := by
    unfold handleRequestStream
    rcases hrun : frameLoop server data.length { cache := cache } data with ⟨q, o⟩
    cases o with
    | none => simp
    | some o => simp [frameLoop_refuses hrun req]
  rw [hloop]
  constructor
  · rintro ⟨q, hq, hfinish⟩
    obtain ⟨fs, hwrites, hreads⟩ := (frameLoop_none_iff le_rfl).mp hq
    obtain ⟨hseen, hpath, hlength, hhost, rfl⟩ := finishRequest_iff.mp hfinish
    obtain ⟨-, rfl⟩ | ⟨head, pieces, trailer, reqMeta, _, hforms, hsection, _, htrailer, hbody, rfl⟩ :=
      reads_start.mp hreads
    · cases hseen
    exact ⟨fs, hwrites, head, pieces, trailer, reqMeta, hforms, hsection, htrailer, rfl, hlength,
      ⟨hbody, hpath, hhost⟩, rfl, rfl, rfl, rfl, rfl⟩
  rintro ⟨fs, hwrites, head, pieces, trailer, reqMeta, hforms, hsection, htrailer, hpieces, hlength,
    ⟨hbody, hpath, hhost⟩, hmethod, hpath', hraw, hquery, hauthority⟩
  rw [hpieces] at hlength hbody
  have hreads := (@reads_start _ server fs cache).mpr
    (Or.inr ⟨head, pieces, trailer, reqMeta, req.headers, hforms, hsection, req.trailers, htrailer, hbody, rfl⟩)
  refine ⟨_, (frameLoop_none_iff le_rfl).mpr ⟨fs, hwrites, hreads⟩, ?_⟩
  refine finishRequest_iff.mpr ⟨rfl, hpath, hlength, hhost, ?_⟩
  cases req
  cases hpieces
  cases hmethod
  cases hpath'
  cases hraw
  cases hquery
  cases hauthority
  rfl

end AlosHttp.H3

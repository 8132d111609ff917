import AlosHttp.H2.HeadMemo
import AlosHttp.Qpack.Section

/-! Response heads of HTTP/3, `qpackEncodeResponseHeaders` of `qpack.go`, beside those of
HTTP/2. The two encoders choose the same fields and write them in different orders. -/
namespace AlosHttp.Qpack
open List AlosHttp.Core Hpack Rfc7541 H2

def commonLowerHeaders : List (Bytes × Bytes) :=
  [("Content-Type", "content-type"), ("Content-Length", "content-length"),
    ("Content-Encoding", "content-encoding"), ("Content-Disposition", "content-disposition"),
    ("Cache-Control", "cache-control"), ("Set-Cookie", "set-cookie"), ("Accept", "accept"),
    ("Accept-Encoding", "accept-encoding"), ("Accept-Language", "accept-language"),
    ("Authorization", "authorization"), ("Connection", "connection"), ("Host", "host"),
    ("Location", "location"), ("Server", "server"), ("Date", "date"), ("ETag", "etag"), ("Vary", "vary"),
    ("X-Content-Type-Options", "x-content-type-options"), ("X-Frame-Options", "x-frame-options"),
    ("Access-Control-Allow-Origin", "access-control-allow-origin"),
    ("Strict-Transport-Security", "strict-transport-security"),
    ("Transfer-Encoding", "transfer-encoding"), ("User-Agent", "user-agent"), ("Referer", "referer"),
    ("Cookie", "cookie"), ("Upgrade", "upgrade"), ("Origin", "origin"),
    ("Sec-WebSocket-Key", "sec-websocket-key"), ("Sec-WebSocket-Version", "sec-websocket-version")].map
    fun p => (ascii p.1, ascii p.2)

def commonLowerHeader (s : Bytes) : Option Bytes := (commonLowerHeaders.find? (·.1 = s)).map Prod.snd

def qpackResponseServer : List Field → Bytes → Bytes
  | [], configured => configured
  | f :: headers, configured =>
    if headerNameIs f.1 (ascii "server") then f.2 else qpackResponseServer headers configured

structure QpackRespPrefixKey where
  status : Int64
  ct : Bytes
  server : Bytes
  deriving DecidableEq

def qpackPrefixCacheMaxEntries : ℕ := 512

def respPrefix (key : QpackRespPrefixKey) : Bytes := encodeRequiredInsertCount ++ (encodeStatus key.status ++
    ((if key.ct ≠ [] then encodeHeader (ascii "content-type") key.ct else []) ++
      encodeHeader (ascii "server") key.server))

/-- The shared map, which only ever holds what was computed for the key. -/
structure QpackRespPrefixCache where
  entries : List (QpackRespPrefixKey × Bytes)
  computed : ∀ e ∈ entries, e.2 = respPrefix e.1

def QpackRespPrefixCache.empty : QpackRespPrefixCache := ⟨[], by simp⟩

def QpackRespPrefixCache.put (cache : QpackRespPrefixCache) (key : QpackRespPrefixKey) : QpackRespPrefixCache :=
  if cache.entries.length < qpackPrefixCacheMaxEntries then
    ⟨(key, respPrefix key) :: cache.entries, by
      intro e he
      rcases mem_cons.mp he with rfl | he
      · rfl
      · exact cache.computed e he⟩
  else cache

def QpackRespPrefixCache.load (cache : QpackRespPrefixCache) (key : QpackRespPrefixKey) :
    Bytes × QpackRespPrefixCache :=
  match cache.entries.find? (·.1 = key) with
  | some e => (e.2, cache)
  | none => (respPrefix key, cache.put key)

structure SectionWrote where
  contentType : Bool
  contentLength : Bool
  date : Bool

/-- The switch in the loop over the headers: the flags behind it, or none for `continue`. -/
def headerSwitch (wrote : SectionWrote) (name : Bytes) : Option SectionWrote :=
  if headerNameIs name (ascii "content-type") then
    if wrote.contentType then none else some { wrote with contentType := true }
  else if headerNameIs name (ascii "content-length") then
    if wrote.contentLength then none else some { wrote with contentLength := true }
  else if headerNameIs name (ascii "server") then none
  else if headerNameIs name (ascii "date") then some { wrote with date := true }
  else some wrote

def lowerName (name : Bytes) : Bytes :=
  match commonLowerHeader name with
  | some low => low
  | none => toLowerASCII name

def encodeHeaderLoop : List Field → SectionWrote → Bytes × SectionWrote
  | [], wrote => ([], wrote)
  | f :: headers, wrote =>
    if skipsField f.1 then encodeHeaderLoop headers wrote
    else
      match headerSwitch wrote f.1 with
      | none => encodeHeaderLoop headers wrote
      | some wrote =>
        let rest := encodeHeaderLoop headers wrote
        (encodeHeader (lowerName f.1) f.2 ++ rest.1, rest.2)

def encodeContentLength (contentLength : Int64) : Bytes :=
  match qpackFindStaticNameIndex (ascii "content-length") with
  | some nameIdx => encodeLiteralWithNameRef nameIdx (uintDigits contentLength)
  | none => encodeLiteral (ascii "content-length") (uintDigits contentLength)

/-- `date` is the value of the date field of the current second. -/
def qpackEncodeResponseHeaders (cache : QpackRespPrefixCache) (date : Bytes) (head : ResponseHead) :
    Bytes × QpackRespPrefixCache :=
  let serverName := qpackResponseServer head.headers head.serverName
  let start := cache.load ⟨head.status, head.contentType, serverName⟩
  let length := if head.contentLength ≥ 0 then encodeContentLength head.contentLength else []
  let fields := encodeHeaderLoop head.headers ⟨head.contentType ≠ [], head.contentLength ≥ 0, false⟩
  let dated := if !fields.2.date then encodeHeader (ascii "date") date else []
  (start.1 ++ (length ++ (fields.1 ++ dated)), start.2)

theorem QpackRespPrefixCache.load_fst (cache : QpackRespPrefixCache) (key : QpackRespPrefixKey) :
    (cache.load key).1 = respPrefix key := by
  unfold load
  cases hfind : cache.entries.find? (·.1 = key) with
  | none => rfl
  | some e =>
    have hkey : e.1 = key := by simpa using find?_some hfind
    have hmem := mem_of_find?_eq_some hfind
    dsimp only
    rw [cache.computed e hmem, hkey]

theorem commonLowerHeaders_lower : ∀ e ∈ commonLowerHeaders, e.2 = toLowerASCII e.1 := by decide +kernel

theorem lowerName_eq (name : Bytes) : lowerName name = toLowerASCII name := by
  unfold lowerName commonLowerHeader
  cases hfind : commonLowerHeaders.find? (·.1 = name) with
  | none => rfl
  | some e =>
    have hname : e.1 = name := by simpa using find?_some hfind
    have hlower := commonLowerHeaders_lower e (mem_of_find?_eq_some hfind)
    rw [hname] at hlower
    exact hlower

theorem headerNameIs_iff (name lower : Bytes) : headerNameIs name lower = true ↔ toLowerASCII name = lower := by
  exact beq_iff_eq

def withoutServer (fields : List Field) : List Field := fields.filter (·.1 ≠ ascii "server")

variable {f : Field} {written : List Bytes} {wrote : SectionWrote} {name : Bytes}

theorem withoutServer_cons_of_ne (h : f.1 ≠ ascii "server") (fields : List Field) :
    withoutServer (f :: fields) = f :: withoutServer fields :=
  filter_cons_of_pos (by simpa using h)

theorem withoutServer_cons_of_eq (h : f.1 = ascii "server") (fields : List Field) :
    withoutServer (f :: fields) = withoutServer fields :=
  filter_cons_of_neg (by simpa using h)

/-- The flags say which names are written, and whether the response has its own date. -/
structure SectionWrote.Names (wrote : SectionWrote) (written : List Bytes) : Prop where
  contentType : wrote.contentType = true ↔ ascii "content-type" ∈ written
  contentLength : wrote.contentLength = true ↔ ascii "content-length" ∈ written

theorem sectionNames_ne : ascii "content-type" ≠ ascii "content-length" ∧
    ascii "server" ≠ ascii "content-type" ∧ ascii "server" ≠ ascii "content-length" := by
  decide +kernel

section
variable (h : wrote.Names written)
include h

theorem SectionWrote.Names.contentType_cons :
    { wrote with contentType := true }.Names (ascii "content-type" :: written) where
  contentType := by simp
  contentLength := by simp [h.contentLength, sectionNames_ne.1.symm]

theorem SectionWrote.Names.contentLength_cons :
    { wrote with contentLength := true }.Names (ascii "content-length" :: written) where
  contentType := by simp [h.contentType, sectionNames_ne.1]
  contentLength := by simp

theorem SectionWrote.Names.cons_other (htype : name ≠ ascii "content-type")
    (hlength : name ≠ ascii "content-length") :
    wrote.Names (name :: written) where
  contentType := by rw [h.contentType, mem_cons, or_iff_right htype.symm]
  contentLength := by rw [h.contentLength, mem_cons, or_iff_right hlength.symm]

end

theorem headerSwitch_spec (hw : wrote.Names written) (name : Bytes) :
    let lower := toLowerASCII name
    match headerSwitch wrote name with
    | none => lower ≠ ascii "date" ∧ (lower = ascii "server" ∨ lower ∈ onceNames ∧ lower ∈ written)
    | some wrote' => lower ≠ ascii "server" ∧ ¬ (lower ∈ onceNames ∧ lower ∈ written) ∧
        wrote'.Names (lower :: written) ∧ wrote'.date = (wrote.date || lower = ascii "date") := by
  have hdate : ascii "date" ∉ onceNames := by decide +kernel
  unfold headerSwitch
  simp only [headerNameIs_iff]
  by_cases htype : toLowerASCII name = ascii "content-type"
  · rw [if_pos htype, htype]
    cases hwrote : wrote.contentType with
    | true => exact ⟨by decide +kernel, .inr ⟨by decide +kernel, hw.contentType.mp hwrote⟩⟩
    | false =>
      refine ⟨by decide +kernel, fun h => ?_, hw.contentType_cons, ?_⟩
      · rw [hw.contentType.mpr h.2] at hwrote
        cases hwrote
      · exact (Bool.or_false _).symm
  rw [if_neg htype]
  by_cases hlength : toLowerASCII name = ascii "content-length"
  · rw [if_pos hlength, hlength]
    cases hwrote : wrote.contentLength with
    | true => exact ⟨by decide +kernel, .inr ⟨by decide +kernel, hw.contentLength.mp hwrote⟩⟩
    | false =>
      refine ⟨by decide +kernel, fun h => ?_, hw.contentLength_cons, ?_⟩
      · rw [hw.contentLength.mpr h.2] at hwrote
        cases hwrote
      · exact (Bool.or_false _).symm
  rw [if_neg hlength]
  by_cases hserver : toLowerASCII name = ascii "server"
  · rw [if_pos hserver, hserver]
    exact ⟨by decide +kernel, .inl rfl⟩
  rw [if_neg hserver]
  have hother : toLowerASCII name ∉ onceNames := by
    unfold onceNames
    simp [htype, hlength, hserver]
  split_ifs with hisDate
  · rw [hisDate]
    rw [hisDate] at htype hlength hserver
    exact ⟨hserver, fun h => hdate h.1, ⟨(hw.cons_other htype hlength).1, (hw.cons_other htype hlength).2⟩, by simp⟩
  · exact ⟨hserver, fun h => hother h.1, hw.cons_other htype hlength, by simp [hisDate]⟩

theorem skipsField_of_lower {lower : Bytes} (h : toLowerASCII name = lower) (hne : lower ≠ [])
    (hcolon : ∀ c : UInt8, asciiLower c = lower.headD 0 → c ≠ colon)
    (hlen : connectionSpecificResponseLengthMask.testBit lower.length = false) : skipsField name = false := by
  have hlength : name.length = lower.length := by rw [← h, toLowerASCII_length]
  unfold skipsField isConnectionSpecificResponseField
  rw [hlength, hlen]
  rcases name with _ | ⟨c, name⟩
  · exact absurd h.symm hne
  have hc := hcolon c (by rw [← h]; rfl)
  simp [hc]

theorem skipsField_server (h : toLowerASCII name = ascii "server") : skipsField name = false := by
  apply skipsField_of_lower h (by decide +kernel) _ (by decide +kernel)
  exact forall_byte (P := fun c => asciiLower c = (ascii "server").headD 0 → c ≠ colon) (by decide +kernel)

theorem skipsField_date (h : toLowerASCII name = ascii "date") : skipsField name = false := by
  apply skipsField_of_lower h (by decide +kernel) _ (by decide +kernel)
  exact forall_byte (P := fun c => asciiLower c = (ascii "date").headD 0 → c ≠ colon) (by decide +kernel)

theorem headersHaveFold_cons (f : Field) (headers : List Field) : H1.headersHaveFold (f :: headers) (ascii "date") =
    (decide (toLowerASCII f.1 = ascii "date") || H1.headersHaveFold headers (ascii "date")) := by
  have hiff := equalFoldASCII_iff f.1 (ascii "date")
  rw [show toLowerASCII (ascii "date") = ascii "date" by decide +kernel] at hiff
  unfold H1.headersHaveFold
  rw [any_cons]
  congr 1
  exact Bool.eq_iff_iff.mpr (by rw [hiff, decide_eq_true_iff])

theorem sentHeaders_cons_skip (h : skipsField f.1 = true) (headers : List Field) :
    sentHeaders (f :: headers) = sentHeaders headers := by
  unfold sentHeaders
  rw [filter_cons_of_neg (by simp [h])]

theorem sentHeaders_cons (h : skipsField f.1 = false) (headers : List Field) :
    sentHeaders (f :: headers) = (toLowerASCII f.1, f.2) :: sentHeaders headers := by
  unfold sentHeaders
  rw [filter_cons_of_pos (by simp [h]), map_cons]

theorem withoutServer_written (fields : List Field) : ∀ {a b : List Bytes},
    (∀ name, name ≠ ascii "server" → (name ∈ a ↔ name ∈ b)) →
      withoutServer (onceOnly a fields) = withoutServer (onceOnly b fields) := by
  induction fields with
  | nil => exact fun _ => rfl
  | cons f fields ih =>
    intro a b hab
    have hcons : ∀ name, name ≠ ascii "server" → (name ∈ f.1 :: a ↔ name ∈ f.1 :: b) := by
      intro name hname
      rw [mem_cons, mem_cons, hab name hname]
    by_cases hserver : f.1 = ascii "server"
    · have hdrop : ∀ written, withoutServer (onceOnly written (f :: fields)) =
          withoutServer (if f.1 ∈ onceNames ∧ f.1 ∈ written then onceOnly written fields
            else onceOnly (f.1 :: written) fields) := by
        intro written
        rw [onceOnly]
        split_ifs
        · rfl
        · exact withoutServer_cons_of_eq hserver _
      rw [hdrop, hdrop]
      split_ifs
      · exact ih hab
      iterate 2 exact ih fun name hname => by rw [mem_cons, hab name hname, or_iff_right (by rw [hserver]; exact hname)]
      · exact ih hcons
    rw [onceOnly, onceOnly]
    simp only [hab f.1 hserver]
    split_ifs
    · exact ih hab
    · rw [withoutServer_cons_of_ne hserver, withoutServer_cons_of_ne hserver, ih hcons]

theorem encodeHeaderLoop_encodes {headers : List Field} (hlt : ∀ f ∈ headers, f.1.length < 2 ^ 63 ∧ f.2.length < 2 ^ 63)
    (hw : wrote.Names written) :
    EncodesLines (encodeHeaderLoop headers wrote).1 (withoutServer (onceOnly written (sentHeaders headers))) ∧
      (encodeHeaderLoop headers wrote).2.date = (wrote.date || H1.headersHaveFold headers (ascii "date")) := by
  induction headers generalizing wrote written with
  | nil => exact ⟨.nil, (Bool.or_false _).symm⟩
  | cons f headers ih =>
    have hrest : ∀ g ∈ headers, g.1.length < 2 ^ 63 ∧ g.2.length < 2 ^ 63 := fun g hg => hlt g (mem_cons_of_mem f hg)
    obtain ⟨hname, hvalue⟩ := hlt f mem_cons_self
    rw [encodeHeaderLoop, headersHaveFold_cons]
    cases hskip : skipsField f.1 with
    | true =>
      have hdate : toLowerASCII f.1 ≠ ascii "date" := by
        intro h
        rw [skipsField_date h] at hskip
        cases hskip
      rw [if_pos rfl, sentHeaders_cons_skip hskip, decide_eq_false hdate, Bool.false_or]
      exact ih hrest hw
    | false =>
      rw [if_neg Bool.false_ne_true, sentHeaders_cons hskip, onceOnly]
      have hspec := headerSwitch_spec hw f.1
      rcases hswitch : headerSwitch wrote f.1 with _ | wrote'
      · rw [hswitch] at hspec
        obtain ⟨hdate, hout⟩ := hspec
        rw [decide_eq_false hdate, Bool.false_or]
        by_cases hagain : toLowerASCII f.1 ∈ onceNames ∧ toLowerASCII f.1 ∈ written
        · rw [if_pos hagain]
          exact ih hrest hw
        have hserver := hout.resolve_right hagain
        rw [if_neg hagain, withoutServer_cons_of_eq hserver, withoutServer_written (sentHeaders headers) (b := written)]
        · exact ih hrest hw
        · intro _ hne
          rw [mem_cons, or_iff_right (by rw [hserver]; exact hne)]
      rw [hswitch] at hspec
      obtain ⟨hserver, hagain, hw', hdate⟩ := hspec
      obtain ⟨hlines, hdate'⟩ := ih hrest hw'
      have hline := @encodeHeader_encodes (lowerName f.1) _
        (by rw [lowerName_eq, toLowerASCII_length]; exact hname) hvalue
      rw [if_neg hagain, withoutServer_cons_of_ne hserver]
      rw [lowerName_eq] at hline ⊢
      refine ⟨.cons hline hlines, ?_⟩
      rw [hdate', hdate, Bool.or_assoc]

def sectionFields (date : Bytes) (head : ResponseHead) : List Field :=
  [(ascii ":status", uintDigits head.status)] ++
    ((if head.contentType ≠ [] then [(ascii "content-type", head.contentType)] else []) ++
    ([(ascii "server", qpackResponseServer head.headers head.serverName)] ++
    ((if head.contentLength ≥ 0 then [(ascii "content-length", uintDigits head.contentLength)] else []) ++
    (withoutServer (onceOnly ((leadingFields date head).map Prod.fst) (sentHeaders head.headers)) ++
    (if !H1.headersHaveFold head.headers (ascii "date") then [(ascii "date", date)] else [])))))

theorem encodesLines_when (c : Prop) [Decidable c] {enc : Bytes} (h : EncodesLine enc f) :
    EncodesLines (if c then enc else []) (if c then [f] else []) := by
  split_ifs
  · exact h.lines
  · exact .nil

theorem encodeContentLength_encodes (n : Int64) :
    EncodesLine (encodeContentLength n) (ascii "content-length", uintDigits n) := by
  have hidx : qpackFindStaticNameIndex (ascii "content-length") = some 4 := by decide +kernel
  have hstatic : qpackStaticTable[4]? = some (ascii "content-length", ascii "0") := by decide +kernel
  unfold encodeContentLength
  rw [hidx]
  exact encodesLine_nameRef hstatic (uintDigits_length_lt n)

theorem qpackResponseServer_lt {headers : List Field} {configured : Bytes}
    (hlt : ∀ f ∈ headers, f.1.length < 2 ^ 63 ∧ f.2.length < 2 ^ 63) (hconf : configured.length < 2 ^ 63) :
    (qpackResponseServer headers configured).length < 2 ^ 63 := by
  induction headers with
  | nil => exact hconf
  | cons f headers ih =>
    rw [qpackResponseServer]
    split_ifs
    · exact (hlt f mem_cons_self).2
    · exact ih fun g hg => hlt g (mem_cons_of_mem f hg)

theorem qpackEncodeResponseHeaders_lines (cache : QpackRespPrefixCache) {date : Bytes} (hdate : date.length < 2 ^ 63)
    (head : ResponseHead) : ∃ lines, EncodesLines lines (sectionFields date head) ∧
      (qpackEncodeResponseHeaders cache date head).1 = encodeRequiredInsertCount ++ lines := by
  have hnames : (⟨head.contentType ≠ [], head.contentLength ≥ 0, false⟩ : SectionWrote).Names
      ((leadingFields date head).map Prod.fst) :=
    ⟨(leadingFields_names date head).contentType, (leadingFields_names date head).contentLength⟩
  obtain ⟨hfields, hown⟩ := encodeHeaderLoop_encodes head.headers_lt hnames
  have hserver := @encodeHeader_encodes (ascii "server") _ (by decide)
    (qpackResponseServer_lt head.headers_lt head.serverName_lt)
  have htype := encodesLines_when (head.contentType ≠ [])
    (@encodeHeader_encodes (ascii "content-type") _ (by decide) head.contentType_lt)
  have hlength := encodesLines_when (head.contentLength ≥ 0) (encodeContentLength_encodes head.contentLength)
  have hdated := encodesLines_when ((!H1.headersHaveFold head.headers (ascii "date")) = true)
    (@encodeHeader_encodes (ascii "date") _ (by decide) hdate)
  refine ⟨_, (encodeStatus_encodes head.status).lines.append (htype.append (hserver.lines.append
    (hlength.append (hfields.append hdated)))), ?_⟩
  unfold qpackEncodeResponseHeaders
  rw [Bool.false_or] at hown
  simp only [QpackRespPrefixCache.load_fst, respPrefix, hown, append_assoc]

theorem onceOnly_server_written (fields : List Field) : ∀ {written : List Bytes}, ascii "server" ∈ written →
    withoutServer (onceOnly written fields) = onceOnly written fields := by
  induction fields with
  | nil => exact fun _ => rfl
  | cons f fields ih =>
    intro written hmem
    rw [onceOnly]
    split_ifs with hagain
    · exact ih hmem
    have hserver : f.1 ≠ ascii "server" := by
      intro h
      rw [h] at hagain
      exact hagain ⟨by decide +kernel, hmem⟩
    rw [withoutServer_cons_of_ne hserver, ih (mem_cons_of_mem _ hmem)]

/-- Of the server fields the first is sent, or else the configured one: in its place among the
own fields or behind them by HTTP/2, in front by HTTP/3. -/
theorem server_moved (headers : List Field) (configured : Bytes) : ∀ {written : List Bytes}, ascii "server" ∉ written →
      (onceOnly written (sentHeaders headers) ++
        if ascii "server" ∉ (onceOnly written (sentHeaders headers)).map Prod.fst then
          [(ascii "server", configured)] else []).Perm
      ((ascii "server", qpackResponseServer headers configured) ::
        withoutServer (onceOnly written (sentHeaders headers))) := by
  induction headers with
  | nil =>
    intro written _
    exact List.Perm.refl _
  | cons f headers ih =>
    intro written hnot
    rw [qpackResponseServer]
    cases hskip : skipsField f.1 with
    | true =>
      have hserver : headerNameIs f.1 (ascii "server") ≠ true := by
        intro h
        rw [skipsField_server ((headerNameIs_iff _ _).mp h)] at hskip
        cases hskip
      rw [sentHeaders_cons_skip hskip, if_neg hserver]
      exact ih hnot
    | false =>
      rw [sentHeaders_cons hskip, onceOnly]
      by_cases hserver : toLowerASCII f.1 = ascii "server"
      · have hfresh : ¬ (toLowerASCII f.1 ∈ onceNames ∧ toLowerASCII f.1 ∈ written) := by
          rw [hserver]
          exact fun h => hnot h.2
        have hlater := @onceOnly_server_written (sentHeaders headers) (toLowerASCII f.1 :: written)
          (by rw [hserver]; exact mem_cons_self)
        rw [if_neg hfresh, if_pos ((headerNameIs_iff _ _).mpr hserver),
          withoutServer_cons_of_eq hserver, hlater, hserver,
          if_neg (by simp), append_nil]
      rw [if_neg fun h => hserver ((headerNameIs_iff _ _).mp h)]
      by_cases hagain : toLowerASCII f.1 ∈ onceNames ∧ toLowerASCII f.1 ∈ written
      · rw [if_pos hagain]
        exact ih hnot
      have hnot' : ascii "server" ∉ toLowerASCII f.1 :: written := by
        rw [mem_cons, not_or]
        exact ⟨Ne.symm hserver, hnot⟩
      have hmem (fields : List Field) : ascii "server" ∉ ((toLowerASCII f.1, f.2) :: fields).map Prod.fst ↔
          ascii "server" ∉ fields.map Prod.fst := by
        rw [map_cons, mem_cons, not_or]
        exact and_iff_right (Ne.symm hserver)
      rw [if_neg hagain, withoutServer_cons_of_ne hserver, cons_append]
      simp only [hmem]
      exact ((ih hnot').cons _).trans (List.Perm.swap _ _ _)

theorem responseFields_perm (date : Bytes) (head : ResponseHead) :
    (responseFields date head).Perm (sectionFields date head) := by
  have hnot : ascii "server" ∉ (leadingFields date head).map Prod.fst := by
    intro h
    cases (leadingFields_names date head).server.mpr h
  have hmoved := server_moved head.headers head.serverName hnot
  unfold responseFields sectionFields
  dsimp only
  generalize onceOnly ((leadingFields date head).map Prod.fst) (sentHeaders head.headers) = own at hmoved ⊢
  unfold leadingFields
  generalize (if !H1.headersHaveFold head.headers (ascii "date") then [(ascii "date", date)] else []) = dated
  generalize (if head.contentType ≠ [] then [(ascii "content-type", head.contentType)] else []) = typed
  generalize (if head.contentLength ≥ 0 then [(ascii "content-length", uintDigits head.contentLength)] else []) = length
  rw [cons_append, singleton_append, append_assoc]
  apply List.Perm.cons
  calc (dated ++ typed ++ length) ++ (own ++ _)
      _ |>.Perm ((dated ++ typed ++ length) ++
          ((ascii "server", qpackResponseServer head.headers head.serverName) :: withoutServer own)) :=
        hmoved.append_left _
      _ |>.Perm (typed ++ ([(ascii "server", qpackResponseServer head.headers head.serverName)] ++
          (length ++ (withoutServer own ++ dated)))) := by
        rw [perm_iff_count]
        intro f
        simp only [count_append, count_cons, count_nil]
        omega

/-- For every response the block of HTTP/2 and the section of HTTP/3 decode to the same fields. A
block written with the connection's table is read by a peer that mirrors it, a block written
without one by every peer. The section's decoder takes at most 128 fields. -/
theorem responseHeads_same (fields : HpackFieldCache) {t : Option HpackEncTable} {r : Table} {limit : ℕ}
    (hr : r.maxSize < 2 ^ 64) (h : ∀ e ∈ t, e.Mirrors r ∧ (e.pendingUpdate = true → e.maxSize ≤ limit))
    (cache : QpackRespPrefixCache) {date : GoString} (hdate : date.bytes.length = h2DateValueLen)
    (head : ResponseHead) :
    ∃ h2 h3 r', decodeBlock limit r (encodeH2ResponseHeadersDated fields t date.bytes head).1 = some (h2, r') ∧
      (∃ lines, EncodesLines lines h3 ∧
        (qpackEncodeResponseHeaders cache date.bytes head).1 = encodeRequiredInsertCount ++ lines) ∧
      decodeAppend (qpackEncodeResponseHeaders cache date.bytes head).1 [] =
        (if h3.length ≤ 128 then .ok h3 else .error .tooManyHeaders) ∧
      h2.Perm h3 := by
  have hblock : ∃ r', decodeBlock limit r (encodeH2ResponseHeadersDated fields t date.bytes head).1 =
      some (responseFields date.bytes head, r') := by
    cases t with
    | none => exact ⟨r, dated_none_decodes fields hr limit hdate head⟩
    | some t =>
      obtain ⟨hmirrors, hlimit⟩ := h t rfl
      obtain ⟨r', hblock, -, -⟩ := dated_decodes fields hmirrors hlimit date head
      exact ⟨r', hblock⟩
  obtain ⟨r', hblock⟩ := hblock
  obtain ⟨lines, hlines, hsection⟩ := qpackEncodeResponseHeaders_lines cache date.length_lt head
  refine ⟨_, _, r', hblock, ⟨lines, hlines, hsection⟩, ?_, responseFields_perm date.bytes head⟩
  rw [hsection, decodeAppend_prefix, hlines.decodeLoop [] (by omega) (Nat.zero_le _), length_nil, Nat.zero_add,
    nil_append]

theorem responseHeads_same_closing : [none, some newEncTable.toHpackEncTable].Forall fun t =>
    ∃ h2 h3 r', decodeBlock 4096 (Table.empty 4096)
        (encodeH2ResponseHeadersDated (fun _ => none) t (sampleDates 0).bytes closingHead).1 = some (h2, r') ∧
      (∃ lines, EncodesLines lines h3 ∧
        (qpackEncodeResponseHeaders .empty (sampleDates 0).bytes closingHead).1 =
          encodeRequiredInsertCount ++ lines) ∧
      decodeAppend (qpackEncodeResponseHeaders .empty (sampleDates 0).bytes closingHead).1 [] =
        (if h3.length ≤ 128 then .ok h3 else .error .tooManyHeaders) ∧ h2.Perm h3 := by
  have hdate : (sampleDates 0).bytes.length = h2DateValueLen := by decide
  constructor
  · exact responseHeads_same (fun _ => none) (by decide) (fun _ he => by cases he) .empty hdate closingHead
  · refine responseHeads_same (fun _ => none) (by decide) (fun _ he => ?_) .empty hdate closingHead
    cases he
    exact ⟨HpackEncTable.mirrors_reset ({} : HpackEncTable), fun hp => by cases hp⟩

end AlosHttp.Qpack

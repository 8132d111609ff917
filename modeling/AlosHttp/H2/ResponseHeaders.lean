import AlosHttp.Hpack.EncTable

/-! Response header blocks of `h2_headers.go`, without the memo in front of them, and the list
of fields that a block is to carry. -/
namespace AlosHttp.H2
open List AlosHttp.Core Hpack Rfc7541

/-- The source tests lower-case names byte by byte. -/
def headerNameIs (name lower : Bytes) : Bool := toLowerASCII name == lower

def isConnectionSpecificResponseName (name : Bytes) : Bool :=
  match name.length with
  | 2 => headerNameIs name (ascii "te")
  | 7 => headerNameIs name (ascii "upgrade")
  | 10 => headerNameIs name (ascii "connection") || headerNameIs name (ascii "keep-alive")
  | 16 => headerNameIs name (ascii "proxy-connection")
  | 17 => headerNameIs name (ascii "transfer-encoding")
  | _ => false

def connectionSpecificResponseLengthMask : ℕ := 2 ^ 2 + 2 ^ 7 + 2 ^ 10 + 2 ^ 16 + 2 ^ 17

def isConnectionSpecificResponseField (name : Bytes) : Bool :=
  name.length < 64 && connectionSpecificResponseLengthMask.testBit name.length &&
    isConnectionSpecificResponseName name

def indexableName : ℕ → Option String
  | 4 => some "vary"
  | 7 => some "alt-svc"
  | 13 => some "cache-control"
  | 15 => some "x-frame-options"
  | 16 => some "content-encoding"
  | 22 => some "x-content-type-options"
  | 25 => some "strict-transport-security"
  | 27 => some "access-control-allow-origin"
  | 29 => some "access-control-expose-headers"
  | 32 => some "access-control-allow-credentials"
  | _ => none

def h2IndexableResponseField (name : Bytes) : Option Bytes :=
  match indexableName name.length with
  | some lower => if equalFoldASCII name (ascii lower) then some (ascii lower) else none
  | none => none

/-- What a response head is made of: strings of the source, shorter than 2 ^ 63 bytes. A
negative content length is an absent one. -/
structure ResponseHead where
  status : Int64
  contentType : Bytes
  contentLength : Int64
  headers : List Field
  serverName : Bytes
  contentType_lt : contentType.length < 2 ^ 63
  headers_lt : ∀ f ∈ headers, f.1.length < 2 ^ 63 ∧ f.2.length < 2 ^ 63
  serverName_lt : serverName.length < 2 ^ 63
  deriving DecidableEq

/-- The flags of `encodeH2ResponseHeadersDated`. -/
structure Wrote where
  contentType : Bool
  contentLength : Bool
  server : Bool

def hpackStaticDate : ℕ := 33
def hpackStaticContentLength : ℕ := 28
def hpackStaticContentType : ℕ := 31
def hpackStaticServer : ℕ := 54

section
variable (cache : HpackFieldCache)

/-- A field with the connection's table, or without one (`tbl == nil`). -/
def encodeH2StaticField (t : Option HpackEncTable) (staticIdx : ℕ) (lowerName value : Bytes) :
    Bytes × Option HpackEncTable :=
  match t with
  | none => ((encodeStaticFieldCached cache staticIdx value).1, none)
  | some t =>
    let r := t.encodeField cache staticIdx lowerName value
    (r.1, some r.2)

def encodeH2CustomField (t : Option HpackEncTable) (name value : Bytes) : Bytes × Option HpackEncTable :=
  match t, h2IndexableResponseField name with
  | some t, some lower =>
    let r := t.encodeField cache (hpackFindStaticNameFold lower) lower value
    (r.1, some r.2)
  | t, _ => ((encodeHeaderFold cache name value).1, t)

def h2DateValueLen : ℕ := 29

def h2DateFieldPrefix : Bytes :=
  encodeInt 0x00 4 (UInt64.ofNat hpackStaticDate) ++ encodeInt 0x00 7 (UInt64.ofNat h2DateValueLen)

/-- Without a table the bytes of the prepared field are copied. -/
def encodeH2DateField (t : Option HpackEncTable) (date : Bytes) : Bytes × Option HpackEncTable :=
  match t with
  | none => (h2DateFieldPrefix ++ date, none)
  | some t => encodeH2StaticField cache (some t) hpackStaticDate (ascii "date") date

def encodeH2HeaderField (wrote : Wrote) (t : Option HpackEncTable) (name value : Bytes) :
    Bytes × Wrote × Option HpackEncTable :=
  if equalFoldASCII name (ascii "content-type") then
    if !wrote.contentType then
      let r := encodeH2StaticField cache t hpackStaticContentType (ascii "content-type") value
      (r.1, { wrote with contentType := true }, r.2)
    else ([], wrote, t)
  else if equalFoldASCII name (ascii "content-length") then
    if !wrote.contentLength then
      ((encodeHeaderFold cache name value).1, { wrote with contentLength := true }, t)
    else ([], wrote, t)
  else if equalFoldASCII name (ascii "server") then
    if !wrote.server then
      let r := encodeH2StaticField cache t hpackStaticServer (ascii "server") value
      (r.1, { wrote with server := true }, r.2)
    else ([], wrote, t)
  else
    let r := encodeH2CustomField cache t name value
    (r.1, wrote, r.2)

def skipsField (name : Bytes) : Bool :=
  name.isEmpty || name.headD 0 == colon || isConnectionSpecificResponseField name

def encodeH2HeaderLoop : List Field → Wrote → Option HpackEncTable → Bytes × Wrote × Option HpackEncTable
  | [], wrote, t => ([], wrote, t)
  | f :: headers, wrote, t =>
    if skipsField f.1 then encodeH2HeaderLoop headers wrote t
    else
      let r := encodeH2HeaderField cache wrote t f.1 f.2
      let rest := encodeH2HeaderLoop headers r.2.1 r.2.2
      (r.1 ++ rest.1, rest.2)

/-- The part of `encodeH2ResponseHeadersDated` behind the size update. -/
def encodeH2Fields (t : Option HpackEncTable) (date : Bytes) (head : ResponseHead) :
    Bytes × Option HpackEncTable :=
  let dated := if !H1.headersHaveFold head.headers (ascii "date") then encodeH2DateField cache t date else ([], t)
  let typed :=
    if head.contentType ≠ [] then
      encodeH2StaticField cache dated.2 hpackStaticContentType (ascii "content-type") head.contentType
    else ([], dated.2)
  let length :=
    if head.contentLength ≥ 0 then
      encodeInt 0x00 4 (UInt64.ofNat hpackStaticContentLength) ++ encodeString (uintDigits head.contentLength)
    else []
  let wrote : Wrote := ⟨head.contentType ≠ [], head.contentLength ≥ 0, false⟩
  let fields := encodeH2HeaderLoop cache head.headers wrote typed.2
  let server :=
    if !fields.2.1.server then
      encodeH2StaticField cache fields.2.2 hpackStaticServer (ascii "server") head.serverName
    else ([], fields.2.2)
  (encodeStatus head.status ++ (dated.1 ++ (typed.1 ++ (length ++ (fields.1 ++ server.1)))), server.2)

/-- `date` is the value of the date field that is loaded. -/
def encodeH2ResponseHeadersDated (t : Option HpackEncTable) (date : Bytes) (head : ResponseHead) :
    Bytes × Option HpackEncTable :=
  match t with
  | none => encodeH2Fields cache none date head
  | some t =>
    let fields := encodeH2Fields cache (some t.beginBlock.2) date head
    (t.beginBlock.1 ++ fields.1, fields.2)

/-- The call on a connection, which has a table and keeps it. -/
def encodeH2WithTable (t : HpackEncTable) (date : Bytes) (head : ResponseHead) : Bytes × HpackEncTable :=
  let r := encodeH2ResponseHeadersDated cache (some t) date head
  (r.1, r.2.getD t)

end

def onceNames : List Bytes := [ascii "content-type", ascii "content-length", ascii "server"]

/-- The fields without the later ones of such a name; `written` names the earlier ones. -/
def onceOnly : List Bytes → List Field → List Field
  | _, [] => []
  | written, f :: fields =>
    if f.1 ∈ onceNames ∧ f.1 ∈ written then onceOnly written fields
    else f :: onceOnly (f.1 :: written) fields

/-- The response's own header fields as they are sent: in order, with lower-case names, and
without pseudo-header names and fields that belong to a connection. -/
def sentHeaders (headers : List Field) : List Field :=
  (headers.filter fun f => !skipsField f.1).map fun f => (toLowerASCII f.1, f.2)

def leadingFields (date : Bytes) (head : ResponseHead) : List Field :=
  (if !H1.headersHaveFold head.headers (ascii "date") then [(ascii "date", date)] else []) ++
    (if head.contentType ≠ [] then [(ascii "content-type", head.contentType)] else []) ++
    (if head.contentLength ≥ 0 then [(ascii "content-length", uintDigits head.contentLength)] else [])

def responseFields (date : Bytes) (head : ResponseHead) : List Field :=
  let leading := leadingFields date head
  let own := onceOnly (leading.map Prod.fst) (sentHeaders head.headers)
  (ascii ":status", uintDigits head.status) :: (leading ++ own) ++
    if ascii "server" ∉ own.map Prod.fst then [(ascii "server", head.serverName)] else []

section
variable (cache : HpackFieldCache)

theorem toLowerASCII_idem (s : Bytes) : toLowerASCII (toLowerASCII s) = toLowerASCII s := by
  have hbyte : ∀ c : UInt8, asciiLower (asciiLower c) = asciiLower c := forall_byte (by decide +kernel)
  unfold toLowerASCII
  rw [map_map]
  exact map_congr_left fun c _ => hbyte c

theorem toLowerASCII_length (s : Bytes) : (toLowerASCII s).length = s.length := length_map _

theorem indexableName_lower {n : ℕ} {s : String} (h : indexableName n = some s) : toLowerASCII (ascii s) = ascii s := by
  unfold indexableName at h
  split at h <;> cases h <;> decide +kernel

variable {name value : Bytes} {written : List Bytes} {wrote : Wrote}

theorem h2IndexableResponseField_some {lower : Bytes}
    (h : h2IndexableResponseField name = some lower) : lower = toLowerASCII name := by
  unfold h2IndexableResponseField at h
  rcases hn : indexableName name.length with _ | s
  · rw [hn] at h
    cases h
  rw [hn] at h
  dsimp only at h
  split_ifs at h with hfold
  cases h
  rw [(equalFoldASCII_iff _ _).mp hfold, indexableName_lower hn]

/-- Bytes that every decoder reads as the fields, without a change of its table. -/
def Plain (bytes : Bytes) (fields : List Field) : Prop :=
  ∀ r : Table, r.maxSize < 2 ^ 64 → ∀ limit acc rest out,
    Decodes limit r (acc ++ fields) rest out → Decodes limit r acc (bytes ++ rest) out

/-- What is written with a table, or without one. -/
inductive Carries (bytes : Bytes) (fields : List Field) : Option HpackEncTable → Option HpackEncTable → Prop
  | plain (h : Plain bytes fields) : Carries bytes fields none none
  | table {t t' : HpackEncTable} (h : t.Sends t' bytes fields) : Carries bytes fields (some t) (some t')

theorem Carries.refl (t : Option HpackEncTable) : Carries [] [] t t := by
  cases t with
  | none => exact .plain fun r _ limit acc rest out h => by rwa [append_nil] at h
  | some t => exact .table (HpackEncTable.Sends.refl t)

theorem Carries.of_none {bytes : Bytes} {fields : List Field} {t' : Option HpackEncTable}
    (h : Carries bytes fields none t') : Plain bytes fields := by
  cases h with
  | plain h => exact h

theorem Carries.of_some {bytes : Bytes} {fields : List Field} {t t' : HpackEncTable}
    (h : Carries bytes fields (some t) (some t')) : t.Sends t' bytes fields := by
  cases h with
  | table h => exact h

theorem Carries.append {t₁ t₂ t₃ : Option HpackEncTable} {b₁ b₂ : Bytes} {f₁ f₂ : List Field}
    (h₁ : Carries b₁ f₁ t₁ t₂) (h₂ : Carries b₂ f₂ t₂ t₃) : Carries (b₁ ++ b₂) (f₁ ++ f₂) t₁ t₃ := by
  cases h₁ with
  | plain h₁ =>
    cases h₂ with
    | plain h₂ =>
      refine .plain fun r hr limit acc rest out h => ?_
      rw [append_assoc]
      apply h₁ r hr
      apply h₂ r hr
      rwa [append_assoc]
  | table h₁ =>
    cases h₂ with
    | table h₂ => exact .table (h₁.append h₂)

theorem carries_field {enc : Bytes} {f : Field} (h : EncodesField enc f) (t : Option HpackEncTable) :
    Carries enc [f] t t := by
  cases t with
  | none =>
    refine .plain fun r hr limit acc rest out hout => ?_
    obtain ⟨d, hd⟩ := HpackDynTable.exists_refines r
    exact Decodes.cons hd hr h.ne_nil ((h.rep d).read _ _ _) hout
  | some t => exact .table (t.sends_plain h)

variable (t : Option HpackEncTable)

theorem encodeH2CustomField_carries (hname : name.length < 2 ^ 63) (hvalue : value.length < 2 ^ 63) :
    Carries (encodeH2CustomField cache t name value).1 [(toLowerASCII name, value)] t
      (encodeH2CustomField cache t name value).2 := by
  unfold encodeH2CustomField
  split
  case h_1 t lower hidx =>
    have hlower := h2IndexableResponseField_some hidx
    subst hlower
    refine .table (t.encodeField_sends cache ?_ (by rw [toLowerASCII_length]; exact hname) hvalue)
    intro hpos
    obtain ⟨f, hf, hfname⟩ := hpackFindStaticNameFold_static hpos
    rw [toLowerASCII_idem] at hfname
    exact ⟨f, hf, hfname⟩
  case h_2 => exact carries_field (encodeHeaderFold_encodes cache hname hvalue) _

theorem encodeH2StaticField_carries {idx : ℕ} (hidx : HpackEncTable.NamedAt idx name) (hpos : 0 < idx)
    (hname : name.length < 2 ^ 63) (hvalue : value.length < 2 ^ 63) :
    Carries (encodeH2StaticField cache t idx name value).1 [(name, value)] t
      (encodeH2StaticField cache t idx name value).2 := by
  cases t with
  | none =>
    obtain ⟨f, hf, rfl⟩ := hidx hpos
    simp only [encodeH2StaticField, encodeStaticFieldCached_fst]
    exact carries_field (encodesField_static idx hf hpos (encodeString_encodes hvalue)) none
  | some t => exact .table (t.encodeField_sends cache hidx hname hvalue)

theorem namedAt_date : HpackEncTable.NamedAt hpackStaticDate (ascii "date") :=
  fun _ => ⟨(ascii "date", []), by decide +kernel, rfl⟩

theorem namedAt_contentType : HpackEncTable.NamedAt hpackStaticContentType (ascii "content-type") :=
  fun _ => ⟨(ascii "content-type", []), by decide +kernel, rfl⟩

theorem namedAt_server : HpackEncTable.NamedAt hpackStaticServer (ascii "server") :=
  fun _ => ⟨(ascii "server", []), by decide +kernel, rfl⟩

/-- The flags say which of the names a response has once are written. -/
structure Wrote.Names (wrote : Wrote) (written : List Bytes) : Prop where
  contentType : wrote.contentType = true ↔ ascii "content-type" ∈ written
  contentLength : wrote.contentLength = true ↔ ascii "content-length" ∈ written
  server : wrote.server = true ↔ ascii "server" ∈ written

theorem encodeH2DateField_carries {date : Bytes} (hdate : date.length < 2 ^ 63)
    (hlen : t = none → date.length = h2DateValueLen) :
    Carries (encodeH2DateField cache t date).1 [(ascii "date", date)] t (encodeH2DateField cache t date).2 := by
  cases t with
  | none =>
    have hname : hpackStaticTable[hpackStaticDate]? = some (ascii "date", []) := by decide +kernel
    have henc := encodesField_static hpackStaticDate hname (by decide) (encodeRaw_encodes hdate)
    rw [encodeRaw, hlen rfl, ← append_assoc] at henc
    exact carries_field henc none
  | some t => exact encodeH2StaticField_carries cache (some t) namedAt_date (by decide) (by decide) hdate

theorem names_ne : ascii "content-type" ≠ ascii "content-length" ∧
    ascii "content-type" ≠ ascii "server" ∧ ascii "content-length" ≠ ascii "server" := by
  decide +kernel

section
variable (h : wrote.Names written)
include h

theorem Wrote.Names.contentType_cons :
    { wrote with contentType := true }.Names (ascii "content-type" :: written) where
  contentType := by simp
  contentLength := by simp [h.contentLength, names_ne.1.symm]
  server := by simp [h.server, names_ne.2.1.symm]

theorem Wrote.Names.contentLength_cons :
    { wrote with contentLength := true }.Names (ascii "content-length" :: written) where
  contentType := by simp [h.contentType, names_ne.1]
  contentLength := by simp
  server := by simp [h.server, names_ne.2.2.symm]

theorem Wrote.Names.server_cons :
    { wrote with server := true }.Names (ascii "server" :: written) where
  contentType := by simp [h.contentType, names_ne.2.1]
  contentLength := by simp [h.contentLength, names_ne.2.2]
  server := by simp

theorem Wrote.Names.cons_other (hname : name ∉ onceNames) : wrote.Names (name :: written) := by
  unfold onceNames at hname
  simp only [mem_cons, not_mem_nil, or_false, not_or] at hname
  refine ⟨?_, ?_, ?_⟩
  · rw [h.contentType, mem_cons, or_iff_right (Ne.symm hname.1)]
  · rw [h.contentLength, mem_cons, or_iff_right (Ne.symm hname.2.1)]
  · rw [h.server, mem_cons, or_iff_right (Ne.symm hname.2.2)]

end

theorem fold_iff (name : Bytes) {lower : Bytes} (h : toLowerASCII lower = lower) :
    equalFoldASCII name lower = true ↔ toLowerASCII name = lower := by
  rw [equalFoldASCII_iff, h]

theorem encodeH2HeaderField_carries (hw : wrote.Names written) (t : Option HpackEncTable) (hname : name.length < 2 ^ 63)
    (hvalue : value.length < 2 ^ 63) :
    let r := encodeH2HeaderField cache wrote t name value
    if toLowerASCII name ∈ onceNames ∧ toLowerASCII name ∈ written then
      Carries r.1 [] t r.2.2 ∧ r.2.1.Names written
    else Carries r.1 [(toLowerASCII name, value)] t r.2.2 ∧ r.2.1.Names (toLowerASCII name :: written) := by
  unfold encodeH2HeaderField
  simp only [fold_iff name (show toLowerASCII (ascii "content-type") = ascii "content-type" by decide),
    fold_iff name (show toLowerASCII (ascii "content-length") = ascii "content-length" by decide),
    fold_iff name (show toLowerASCII (ascii "server") = ascii "server" by decide)]
  by_cases htype : toLowerASCII name = ascii "content-type"
  · rw [if_pos htype, htype]
    cases hwrote : wrote.contentType with
    | true =>
      rw [if_pos ⟨by decide, hw.contentType.mp hwrote⟩]
      exact ⟨.refl t, hw⟩
    | false =>
      rw [if_neg (fun h => by rw [hw.contentType.mpr h.2] at hwrote; cases hwrote)]
      exact ⟨encodeH2StaticField_carries cache t namedAt_contentType (by decide) (by decide) hvalue,
        hw.contentType_cons⟩
  rw [if_neg htype]
  by_cases hlength : toLowerASCII name = ascii "content-length"
  · rw [if_pos hlength, hlength]
    cases hwrote : wrote.contentLength with
    | true =>
      rw [if_pos ⟨by decide, hw.contentLength.mp hwrote⟩]
      exact ⟨.refl t, hw⟩
    | false =>
      have henc := encodeHeaderFold_encodes cache hname hvalue
      rw [hlength] at henc
      rw [if_neg (fun h => by rw [hw.contentLength.mpr h.2] at hwrote; cases hwrote)]
      exact ⟨carries_field henc t, hw.contentLength_cons⟩
  rw [if_neg hlength]
  by_cases hserver : toLowerASCII name = ascii "server"
  · rw [if_pos hserver, hserver]
    cases hwrote : wrote.server with
    | true =>
      rw [if_pos ⟨by decide, hw.server.mp hwrote⟩]
      exact ⟨.refl t, hw⟩
    | false =>
      rw [if_neg (fun h => by rw [hw.server.mpr h.2] at hwrote; cases hwrote)]
      exact ⟨encodeH2StaticField_carries cache t namedAt_server (by decide) (by decide) hvalue, hw.server_cons⟩
  have hother : toLowerASCII name ∉ onceNames := by
    unfold onceNames
    simp [htype, hlength, hserver]
  rw [if_neg hserver, if_neg (fun h => hother h.1)]
  exact ⟨encodeH2CustomField_carries cache t hname hvalue, hw.cons_other hother⟩

theorem encodeH2HeaderLoop_carries {headers : List Field}
    (hlt : ∀ f ∈ headers, f.1.length < 2 ^ 63 ∧ f.2.length < 2 ^ 63) (hw : wrote.Names written)
    (t : Option HpackEncTable) :
    let r := encodeH2HeaderLoop cache headers wrote t
    let sent := onceOnly written (sentHeaders headers)
    Carries r.1 sent t r.2.2 ∧
      (r.2.1.server = true ↔ ascii "server" ∈ written ∨ ascii "server" ∈ sent.map Prod.fst) := by
  induction headers generalizing wrote written t with
  | nil =>
    refine ⟨.refl t, ?_⟩
    rw [encodeH2HeaderLoop, hw.server]
    exact (or_iff_left not_mem_nil).symm
  | cons f headers ih =>
    have hrest : ∀ g ∈ headers, g.1.length < 2 ^ 63 ∧ g.2.length < 2 ^ 63 := fun g hg => hlt g (mem_cons_of_mem f hg)
    obtain ⟨hname, hvalue⟩ := hlt f mem_cons_self
    unfold sentHeaders at ih ⊢
    rw [encodeH2HeaderLoop, filter_cons]
    by_cases hskip : skipsField f.1
    · rw [if_pos hskip, if_neg (by rw [hskip]; decide)]
      exact ih hrest hw t
    rw [if_neg hskip, if_pos (by rw [Bool.eq_false_iff.mpr hskip]; rfl), map_cons, onceOnly]
    have hfield := encodeH2HeaderField_carries cache hw t hname hvalue
    generalize encodeH2HeaderField cache wrote t f.1 f.2 = r at hfield ⊢
    split_ifs at hfield ⊢ with hagain
    · obtain ⟨hsends, hserver⟩ := ih hrest hfield.2 r.2.2
      exact ⟨hfield.1.append hsends, hserver⟩
    obtain ⟨hsends, hserver⟩ := ih hrest hfield.2 r.2.2
    refine ⟨hfield.1.append hsends, ?_⟩
    rw [hserver, map_cons, mem_cons, mem_cons]
    tauto

theorem leadingFields_names (date : Bytes) (head : ResponseHead) :
    (⟨head.contentType ≠ [], head.contentLength ≥ 0, false⟩ : Wrote).Names
      ((leadingFields date head).map Prod.fst) := by
  have hdate : ascii "date" ∉ onceNames := by decide
  unfold onceNames at hdate
  simp only [mem_cons, not_mem_nil, or_false, not_or] at hdate
  obtain ⟨_, _, _⟩ := names_ne
  unfold leadingFields
  refine ⟨?_, ?_, ?_⟩
  all_goals split_ifs <;> simp_all [Ne.symm]

theorem carries_when (c : Prop) [Decidable c] {r : Bytes × Option HpackEncTable} {fields : List Field}
    (h : Carries r.1 fields t r.2) :
    Carries (if c then r else ([], t)).1 (if c then fields else []) t (if c then r else ([], t)).2 := by
  split_ifs
  · exact h
  · exact .refl t

theorem contentLength_carries (n : Int64) :
    Carries (if n ≥ 0 then encodeInt 0x00 4 (UInt64.ofNat hpackStaticContentLength) ++
        encodeString (uintDigits n) else [])
      (if n ≥ 0 then [(ascii "content-length", uintDigits n)] else []) t t := by
  have hname : hpackStaticTable[hpackStaticContentLength]? = some (ascii "content-length", []) := by
    decide +kernel
  split_ifs
  · exact carries_field (encodesField_static hpackStaticContentLength hname (by decide)
      (encodeString_encodes (uintDigits_length_lt n))) t
  · exact .refl t

theorem encodeH2Fields_carries {date : Bytes} (hdate : date.length < 2 ^ 63)
    (hlen : t = none → date.length = h2DateValueLen) (head : ResponseHead) :
    Carries (encodeH2Fields cache t date head).1 (responseFields date head) t
      (encodeH2Fields cache t date head).2 := by
  have hnames := leadingFields_names date head
  have hstatus := carries_field (encodeStatus_encodes head.status) t
  have hdated := carries_when t ((!H1.headersHaveFold head.headers (ascii "date")) = true)
    (encodeH2DateField_carries cache t hdate hlen)
  unfold encodeH2Fields
  generalize (if (!H1.headersHaveFold head.headers (ascii "date")) = true then
    encodeH2DateField cache t date else ([], t)) = dated at hdated ⊢
  have htyped := carries_when dated.2 (head.contentType ≠ [])
    (encodeH2StaticField_carries cache dated.2 namedAt_contentType (by decide) (by decide) head.contentType_lt)
  dsimp only
  generalize (if head.contentType ≠ [] then
    encodeH2StaticField cache dated.2 hpackStaticContentType (ascii "content-type") head.contentType
    else ([], dated.2)) = typed at htyped ⊢
  have hlength := contentLength_carries typed.2 head.contentLength
  obtain ⟨hfields, hserver⟩ := encodeH2HeaderLoop_carries cache head.headers_lt hnames typed.2
  generalize encodeH2HeaderLoop cache head.headers
    ⟨head.contentType ≠ [], head.contentLength ≥ 0, false⟩ typed.2 = fields at hfields hserver ⊢
  have hlast := carries_when fields.2.2 ((!fields.2.1.server) = true)
    (encodeH2StaticField_carries cache fields.2.2 namedAt_server (by decide) (by decide) head.serverName_lt)
  have hcarries := hstatus.append (hdated.append (htyped.append (hlength.append (hfields.append hlast))))
  have hall : responseFields date head = [(ascii ":status", uintDigits head.status)] ++
        ((if !H1.headersHaveFold head.headers (ascii "date") then [(ascii "date", date)] else []) ++
        ((if head.contentType ≠ [] then [(ascii "content-type", head.contentType)] else []) ++
        ((if head.contentLength ≥ 0 then [(ascii "content-length", uintDigits head.contentLength)]
          else []) ++
        (onceOnly ((leadingFields date head).map Prod.fst) (sentHeaders head.headers) ++
        if (!fields.2.1.server) = true then [(ascii "server", head.serverName)] else [])))) := by
    have hiff : (!fields.2.1.server) = true ↔ ascii "server" ∉
          (onceOnly ((leadingFields date head).map Prod.fst) (sentHeaders head.headers)).map Prod.fst := by
      rw [Bool.not_eq_true', Bool.eq_false_iff, ne_eq, hserver, ← hnames.server, or_iff_right Bool.false_ne_true]
    unfold responseFields
    simp only [hiff]
    unfold leadingFields
    simp only [append_assoc, cons_append, nil_append]
  rw [hall]
  exact hcarries

/-- A table that is there stays there and grows. -/
def Grows (n : ℕ) (t t' : Option HpackEncTable) : Prop := ∀ e ∈ t, ∃ e' ∈ t', HpackEncTable.Grows n e e'

theorem Grows.refl (n : ℕ) (t : Option HpackEncTable) : Grows n t t :=
  fun e he => ⟨e, he, HpackEncTable.Grows.refl n e⟩

theorem Grows.trans {n m : ℕ} {t₁ t₂ t₃ : Option HpackEncTable} (h₁ : Grows n t₁ t₂) (h₂ : Grows m t₂ t₃) :
    Grows (n + m) t₁ t₃ := by
  intro e he
  obtain ⟨e₂, he₂, hg₁⟩ := h₁ e he
  obtain ⟨e₃, he₃, hg₂⟩ := h₂ e₂ he₂
  exact ⟨e₃, he₃, hg₁.trans hg₂⟩

theorem encodeH2StaticField_grows (idx : ℕ) (name value : Bytes) :
    Grows 1 t (encodeH2StaticField cache t idx name value).2 := by
  rintro e rfl
  exact ⟨_, rfl, e.encodeField_grows cache idx name value⟩

theorem encodeH2DateField_grows (date : Bytes) : Grows 1 t (encodeH2DateField cache t date).2 := by
  rintro e rfl
  exact encodeH2StaticField_grows cache (some e) _ _ date e rfl

theorem encodeH2CustomField_grows (name value : Bytes) :
    Grows 1 t (encodeH2CustomField cache t name value).2 := by
  unfold encodeH2CustomField
  split
  case h_1 t lower _ =>
    rintro e ⟨⟩
    exact ⟨_, rfl, t.encodeField_grows cache _ _ value⟩
  case h_2 => exact .refl 1 _

theorem encodeH2HeaderField_grows (wrote : Wrote) (t : Option HpackEncTable) (name value : Bytes) :
    Grows 1 t (encodeH2HeaderField cache wrote t name value).2.2 := by
  unfold encodeH2HeaderField
  split_ifs
  · exact encodeH2StaticField_grows cache t _ _ value
  · exact .refl 1 t
  · exact .refl 1 t
  · exact .refl 1 t
  · exact encodeH2StaticField_grows cache t _ _ value
  · exact .refl 1 t
  · exact encodeH2CustomField_grows cache t name value

theorem encodeH2HeaderLoop_grows (headers : List Field) (wrote : Wrote) (t : Option HpackEncTable) :
    Grows headers.length t (encodeH2HeaderLoop cache headers wrote t).2.2 := by
  induction headers generalizing wrote t with
  | nil => exact .refl 0 t
  | cons f headers ih =>
    rw [encodeH2HeaderLoop, length_cons, add_comm]
    split_ifs
    · exact (Grows.refl 1 t).trans (ih wrote t)
    · exact (encodeH2HeaderField_grows cache wrote t f.1 f.2).trans (ih _ _)

theorem grows_when (c : Prop) [Decidable c] {r : Bytes × Option HpackEncTable} (h : Grows 1 t r.2) :
    Grows 1 t (if c then r else ([], t)).2 := by
  split_ifs
  · exact h
  · exact .refl 1 t

theorem encodeH2Fields_grows (date : Bytes) (head : ResponseHead) :
    Grows (1 + (1 + (head.headers.length + 1))) t (encodeH2Fields cache t date head).2 :=
  (grows_when _ _ (encodeH2DateField_grows cache t date)).trans
    ((grows_when _ _ (encodeH2StaticField_grows cache _ _ _ _)).trans
      ((encodeH2HeaderLoop_grows cache head.headers _ _).trans
        (grows_when _ _ (encodeH2StaticField_grows cache _ _ _ _))))

/-- With a table there is one afterwards. -/
theorem encodeH2WithTable_eq (t : HpackEncTable) (date : Bytes) (head : ResponseHead) :
    ∃ t', (encodeH2Fields cache (some t.beginBlock.2) date head).2 = some t' ∧
      HpackEncTable.Grows (1 + (1 + (head.headers.length + 1))) t.beginBlock.2 t' ∧
      encodeH2WithTable cache t date head =
        (t.beginBlock.1 ++ (encodeH2Fields cache (some t.beginBlock.2) date head).1, t') := by
  obtain ⟨t', ht', hgrows⟩ := encodeH2Fields_grows cache (some t.beginBlock.2) date head _ rfl
  refine ⟨t', ht', hgrows, ?_⟩
  simp only [encodeH2WithTable, encodeH2ResponseHeadersDated, Option.mem_def.mp ht', Option.getD_some]

end

theorem encodeH2StaticField_cache (cache cache' : HpackFieldCache) :
    encodeH2StaticField cache = encodeH2StaticField cache' := by
  funext t idx name value
  unfold encodeH2StaticField
  rw [encodeStaticFieldCached_fst, encodeStaticFieldCached_fst, HpackEncTable.encodeField_cache cache cache']

theorem encodeH2HeaderLoop_cache (cache cache' : HpackFieldCache) (headers : List Field) (wrote : Wrote)
    (t : Option HpackEncTable) :
    encodeH2HeaderLoop cache headers wrote t = encodeH2HeaderLoop cache' headers wrote t := by
  have hfield : encodeH2HeaderField cache = encodeH2HeaderField cache' := by
    funext wrote t name value
    unfold encodeH2HeaderField encodeH2CustomField
    rw [encodeH2StaticField_cache cache cache', HpackEncTable.encodeField_cache cache cache',
      encodeHeaderFold_cache cache cache']
  induction headers generalizing wrote t with
  | nil => rfl
  | cons f headers ih =>
    rw [encodeH2HeaderLoop, encodeH2HeaderLoop, hfield]
    simp only [ih]

theorem encodeH2WithTable_cache (cache cache' : HpackFieldCache) (t : HpackEncTable)
    (date : Bytes) (head : ResponseHead) :
    encodeH2WithTable cache t date head = encodeH2WithTable cache' t date head := by
  have hloop : encodeH2HeaderLoop cache = encodeH2HeaderLoop cache' := by
    funext headers wrote t
    exact encodeH2HeaderLoop_cache cache cache' headers wrote t
  unfold encodeH2WithTable encodeH2ResponseHeadersDated encodeH2Fields encodeH2DateField
  rw [encodeH2StaticField_cache cache cache', hloop]

end AlosHttp.H2

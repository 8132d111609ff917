import AlosHttp.H1.Response
import AlosHttp.Spec.Rfc9112

/-! What the response functions write, as a status line, a list of fields and a body that
a client reads back. -/
namespace AlosHttp.H1
open AlosHttp.Core Rfc9112 List

theorem decimalValue_append (a b : Bytes) :
    decimalValue (a ++ b) = b.foldl (fun n c => n * 10 + (c.toNat - 48)) (decimalValue a) := by
  rw [decimalValue, foldl_append]
  rfl

theorem digit_toNat {d : ℕ} (h : d < 10) :
    (UInt8.ofNat (d + 48)).toNat = d + 48 ∧ isDigit (UInt8.ofNat (d + 48)) = true := by
  interval_cases d <;> decide

theorem digitPair_spec {d : ℕ} (h : d < 100) (a : Bytes) :
    decimalValue (a ++ digitPair d) = decimalValue a * 100 + d ∧ ∀ c ∈ digitPair d, isDigit c = true := by
  obtain ⟨h₁, h₁'⟩ := digit_toNat (show d / 10 < 10 by omega)
  obtain ⟨h₂, h₂'⟩ := digit_toNat (show d % 10 < 10 by omega)
  constructor
  · rw [decimalValue_append, digitPair]
    simp only [foldl_cons, foldl_nil, h₁, h₂]
    omega
  · exact forall_mem_cons.mpr ⟨h₁', forall_mem_singleton.mpr h₂'⟩

theorem uintLoop_spec {fuel n : ℕ} (hn : 0 < n) (hf : n ≤ fuel) (buf : Bytes) :
    ∃ ds, uintLoop fuel n buf = ds ++ buf ∧ ds ≠ [] ∧ (∀ c ∈ ds, isDigit c = true) ∧ decimalValue ds = n := by
  induction fuel generalizing n buf with
  | zero => omega
  | succ fuel ih =>
    unfold uintLoop
    by_cases h100 : n ≥ 100
    · obtain ⟨hval, hdig⟩ := digitPair_spec (show n % 100 < 100 by omega) []
      obtain ⟨ds, hds, hne, hall, hdec⟩ := ih (show 0 < n / 100 by omega) (by omega) (digitPair (n % 100) ++ buf)
      refine ⟨ds ++ digitPair (n % 100), ?_, by simp [hne], ?_, ?_⟩
      · rw [if_pos h100, hds, append_assoc]
      · intro c hc
        rcases mem_append.mp hc with hc | hc
        · exact hall c hc
        · exact hdig c hc
      rw [(digitPair_spec (show n % 100 < 100 by omega) ds).1, hdec]
      omega
    rw [if_neg h100]
    by_cases h10 : n ≥ 10
    · rw [if_pos h10]
      obtain ⟨hval, hdig⟩ := digitPair_spec (show n < 100 by omega) []
      exact ⟨digitPair n, rfl, by simp [digitPair], hdig, by simpa [decimalValue] using hval⟩
    rw [if_neg h10]
    obtain ⟨hnat, hdig⟩ := digit_toNat (show n < 10 by omega)
    exact ⟨[UInt8.ofNat (n + 48)], rfl, by simp, by simpa using hdig,
      by simp only [decimalValue, foldl_cons, foldl_nil, hnat]; omega⟩

variable (dst : Bytes) (n : ℕ)

theorem appendUint_append : appendUint dst n = dst ++ appendUint [] n := by
  unfold appendUint
  split_ifs <;> rfl

theorem appendUint_spec : appendUint [] n ≠ [] ∧
    (∀ c ∈ appendUint [] n, isDigit c = true) ∧ decimalValue (appendUint [] n) = n := by
  unfold appendUint
  by_cases hn : n = 0
  · subst hn
    exact ⟨by decide, forall_mem_singleton.mpr (by decide), by decide⟩
  obtain ⟨_, hds, hne, hall, hdec⟩ := uintLoop_spec (Nat.pos_of_ne_zero hn) le_rfl []
  rw [if_neg hn, nil_append, hds, append_nil]
  exact ⟨hne, hall, hdec⟩

theorem hexChar_spec {d : ℕ} (h : d < 16) : hexDigit (hexChar d) = some d := by
  interval_cases d <;> decide

theorem hexLoop_spec {fuel n : ℕ} (hf : n ≤ fuel) (buf : Bytes) :
    ∃ ds, hexLoop fuel n buf = ds ++ buf ∧ (0 < n → ds ≠ []) ∧
      (∀ c ∈ ds, (hexDigit c).isSome = true) ∧ hexValue ds = n := by
  induction fuel generalizing n buf with
  | zero =>
    obtain rfl : n = 0 := by omega
    exact ⟨[], rfl, by simp, by simp, rfl⟩
  | succ fuel ih =>
    unfold hexLoop
    by_cases hn : n > 0
    · have hd := hexChar_spec (show n % 16 < 16 by omega)
      obtain ⟨ds, hds, _, hall, hval⟩ := ih (show n / 16 ≤ fuel by omega) (hexChar (n % 16) :: buf)
      refine ⟨ds ++ [hexChar (n % 16)], ?_, by simp, ?_, ?_⟩
      · rw [if_pos hn, hds, append_assoc]
        rfl
      · intro c hc
        rcases mem_append.mp hc with hc | hc
        · exact hall c hc
        rw [mem_singleton.mp hc, hd]
        rfl
      rw [hexValue, foldl_append, ← hexValue, hval]
      simp only [foldl_cons, foldl_nil, hd, Option.getD_some]
      omega
    obtain rfl : n = 0 := by omega
    exact ⟨[], by simp, by simp, by simp, rfl⟩

theorem appendHex_digits : appendHex [] n ≠ [] ∧
    (∀ c ∈ appendHex [] n, (hexDigit c).isSome = true) ∧ hexValue (appendHex [] n) = n := by
  unfold appendHex
  by_cases hn : n = 0
  · subst hn
    exact ⟨by simp, forall_mem_singleton.mpr (by decide), by decide⟩
  obtain ⟨_, hds, hne, hall, hval⟩ := hexLoop_spec (le_refl n) []
  rw [if_neg hn, nil_append, hds, append_nil]
  exact ⟨hne (Nat.pos_of_ne_zero hn), hall, hval⟩

theorem appendHex_spec : cr ∉ appendHex [] n ∧ readChunkSize (appendHex [] n) = some n := by
  obtain ⟨hne, hall, hval⟩ := appendHex_digits n
  constructor
  · intro hcr
    have := hall cr hcr
    revert this
    decide
  · rw [readChunkSize, takeWhile_eq_self_iff.mpr hall, if_neg hne, hval]

def statusLine (code : ℕ) : Bytes := ascii "HTTP/1.1 " ++ appendUint [] code ++
    sp :: ascii ((statusLineText code).getD (statusText code))

theorem appendStatusLine_eq (buf : Bytes) (code : ℕ) :
    appendStatusLine buf code = buf ++ (statusLine code ++ crlf) := by
  unfold appendStatusLine statusLine
  rw [appendUint_append]
  simp

variable (code : ℕ)

theorem readStatusLine_statusLine : readStatusLine (statusLine code) = some code := by
  obtain ⟨hne, hall, hdec⟩ := appendUint_spec code
  rw [statusLine, readStatusLine_render _ hne hall, hdec]

theorem statusText_no_cr : cr ∉ ascii (statusText code) := by
  unfold statusText
  split <;> decide

private theorem reason_no_cr : cr ∉ ascii ((statusLineText code).getD (statusText code)) := by
  have hknown : ∀ text, statusLineText code = some text → cr ∉ ascii text := by
    intro text
    unfold statusLineText
    split
    all_goals
      intro h
      simp only [Option.some.injEq, reduceCtorEq] at h
    all_goals
      subst h
      decide
  cases h : statusLineText code with
  | none => exact statusText_no_cr code
  | some text => exact hknown text h

theorem statusLine_no_cr : cr ∉ statusLine code := by
  unfold statusLine
  simp only [mem_append, mem_cons, not_or]
  refine ⟨⟨by decide, ?_⟩, by decide, reason_no_cr code⟩
  intro hcr
  have := (appendUint_spec code).2.1 cr hcr
  revert this
  decide

theorem no_break {v : Bytes} (h : containsLineBreak v = false) : cr ∉ v ∧ lf ∉ v := by
  unfold containsLineBreak at h
  rw [any_eq_false] at h
  constructor
  · intro hc
    exact h cr hc (by decide)
  intro hc
  exact h lf hc (by decide)

def strippedValue (v : Bytes) : Bytes := v.filter fun c => !isLineBreak c

theorem appendHeaderValueStripped_eq (dst v : Bytes) : appendHeaderValueStripped dst v = dst ++ strippedValue v := by
  unfold appendHeaderValueStripped strippedValue
  split_ifs with h
  · rw [filter_eq_self.mpr]
    intro c hc
    have := any_eq_false.mp (by simpa using h : containsLineBreak v = false) c hc
    simpa using this
  · rfl

theorem strippedValue_no_break (v : Bytes) : containsLineBreak (strippedValue v) = false := by
  simp [containsLineBreak, strippedValue]

theorem appendH1HeaderFields_eq (headers : List Field) :
    appendH1HeaderFields dst headers = dst ++ renderFields headers := by
  induction headers generalizing dst with
  | nil => simp [appendH1HeaderFields]
  | cons f headers ih =>
    rw [appendH1HeaderFields, ih, renderFields_cons, renderField]
    simp

def dateFields (date : HttpDate) (headers : List Field) : List Field :=
  if headersHaveFold headers (ascii "Date") then [] else [(ascii "Date", date.value)]

def contentTypeFields (contentType : Bytes) : List Field :=
  if contentType = [] then [] else [(ascii "Content-Type", strippedValue contentType)]

theorem renderFields_singleton (name value : Bytes) :
    renderFields [(name, value)] = name ++ [colon, sp] ++ value ++ crlf := by
  rw [renderFields_cons, renderFields_nil, append_nil, renderField]

variable (date : HttpDate)

theorem dateLine_eq : dateLine date = renderFields [(ascii "Date", date.value)] := by
  rw [renderFields_singleton]
  rfl

theorem appendDateUnlessSet_eq (headers : List Field) :
    appendDateUnlessSet date dst headers = dst ++ renderFields (dateFields date headers) := by
  unfold appendDateUnlessSet dateFields
  by_cases h : headersHaveFold headers (ascii "Date") = true
  · have hne : headers ≠ [] := by
      rintro rfl
      simp [headersHaveFold] at h
    simp [h, hne]
  · rw [if_neg h, if_neg (by simp [h]), dateLine_eq]

theorem appendContentTypeHeader_eq {contentType : Bytes} (h : contentType ≠ []) :
    appendContentTypeHeader dst contentType = dst ++ renderFields (contentTypeFields contentType) := by
  unfold appendContentTypeHeader contentTypeFields
  rw [appendHeaderValueStripped_eq, if_neg h, renderFields_singleton, append_assoc, append_assoc]
  rfl

theorem plainContentTypePreset_eq {contentType ct : Bytes} (h : plainContentTypePreset contentType = some ct) :
    ct = renderFields (contentTypeFields contentType) := by
  unfold plainContentTypePreset at h
  split_ifs at h with h0 h1 h2 h3 h4
  all_goals
    simp only [beq_iff_eq] at *
    rw [← Option.some.inj h]
    subst contentType
    decide

variable (serverName : ServerName) (resp : Response)

theorem appendPlainHead_eq (dst : Bytes) : appendPlainHead date resp dst = dst ++ (statusLine resp.statusCode ++ crlf ++
      renderFields (dateFields date resp.headers ++ contentTypeFields resp.contentType)) := by
  unfold appendPlainHead
  rcases hhead : (if resp.statusCode = 200 then plainOKHead date resp else none) with _ | head
  · rw [appendDateUnlessSet_eq, appendStatusLine_eq, renderFields_append]
    by_cases hct : resp.contentType = []
    · simp [hct, contentTypeFields]
    rw [if_pos hct]
    cases hp : plainContentTypePreset resp.contentType with
    | none => simp [appendContentTypeHeader_eq _ hct]
    | some ct => simp [plainContentTypePreset_eq hp]
  -- the prepared head has the same text
  split_ifs at hhead with hcode
  unfold plainOKHead at hhead
  rcases hp : plainContentTypePreset resp.contentType with _ | ct
  · simp [hp] at hhead
  simp only [hp] at hhead
  split_ifs at hhead with hdate
  have hnone : headersHaveFold resp.headers (ascii "Date") = false := by
    rcases Bool.or_eq_true _ _ |>.mp hdate with h | h
    · have : resp.headers = [] := by simpa using h
      rw [this]
      rfl
    · simpa using h
  rw [← Option.some.inj hhead, plainContentTypePreset_eq hp, dateLine_eq, appendStatusLine_eq, hcode, dateFields, hnone]
  simp

def plainFields (date : HttpDate) (serverName : ServerName) (resp : Response) (keepAlive : Bool) : List Field :=
  dateFields date resp.headers ++ contentTypeFields resp.contentType ++
    (if (responseBodyDisposition resp.method resp.statusCode).2 then []
      else [(ascii "Content-Length", appendUint [] resp.body.length)]) ++
    resp.headers ++
    [(ascii "Connection", ascii (if keepAlive then "keep-alive" else "close")),
      (ascii "Server", serverName.value)]

theorem serverConnHeadTail_eq (keepAlive : Bool) : serverConnHeadTail serverName keepAlive =
      renderFields [(ascii "Connection", ascii (if keepAlive then "keep-alive" else "close")),
        (ascii "Server", serverName.value)] ++ crlf := by
  rw [renderFields_cons, renderFields_singleton, renderField]
  cases keepAlive <;> rfl

theorem appendPlainResponseMode_eq (dst : Bytes) (keepAlive includeBody : Bool) :
    appendPlainResponseMode date serverName resp dst keepAlive includeBody =
      dst ++ (statusLine resp.statusCode ++ crlf ++
        (renderFields (plainFields date serverName resp keepAlive) ++ crlf ++
          (if includeBody then resp.transmittedBody else []))) := by
  unfold appendPlainResponseMode
  dsimp only
  rw [appendPlainHead_eq, appendH1HeaderFields_eq, serverConnHeadTail_eq]
  unfold plainFields Response.transmittedBody
  have hcl : ∀ b : Bytes, appendContentLength b resp.body.length =
      b ++ renderFields [(ascii "Content-Length", appendUint [] resp.body.length)] := by
    intro b
    rw [appendContentLength, appendUint_append, renderFields_singleton]
    simp
    rfl
  cases (responseBodyDisposition resp.method resp.statusCode).2 <;>
    cases (responseBodyDisposition resp.method resp.statusCode).1 <;> cases includeBody <;>
    simp [hcl]

def altSvcFields (headers : List Field) (altSvc : Option ℕ) : List Field :=
  match altSvc with
  | some port => if headersHaveFold headers (ascii "alt-svc") then []
    else [(ascii "Alt-Svc", altSvcValue port)]
  | none => []

def streamFields (date : HttpDate) (headers : List Field) (contentType : Bytes)
    (chunked closeAfter : Bool) (serverName : ServerName) (altSvc : Option ℕ) : List Field :=
  dateFields date headers ++ contentTypeFields contentType ++
    (if chunked then [(ascii "Transfer-Encoding", ascii "chunked")] else []) ++ headers ++
    (if headersHaveFold headers (ascii "connection") then []
      else [(ascii "Connection", ascii (if closeAfter then "close" else "keep-alive"))]) ++
    (if headersHaveFold headers (ascii "server") then []
      else [(ascii "Server", serverName.value)]) ++
    altSvcFields headers altSvc

theorem appendH1StreamHead_eq (buf : Bytes) (statusCode : ℕ)
    (headers : List Field) (contentType : Bytes) (chunked closeAfter : Bool)
    (serverName : ServerName) (altSvc : Option ℕ) :
    appendH1StreamHead date buf statusCode headers contentType chunked closeAfter serverName altSvc =
      buf ++ (statusLine statusCode ++ crlf ++ (renderFields (streamFields date headers contentType
        chunked closeAfter serverName altSvc) ++ crlf)) := by
  have hct : ∀ b : Bytes, (if contentType ≠ [] then appendContentTypeHeader b contentType else b) =
      b ++ renderFields (contentTypeFields contentType) := by
    intro b
    by_cases h : contentType = []
    · simp [h, contentTypeFields]
    · rw [if_pos h, appendContentTypeHeader_eq b h]
  have hte : ∀ b : Bytes, (if chunked then b ++ ascii "Transfer-Encoding: chunked\r\n" else b) =
      b ++ renderFields (if chunked then [(ascii "Transfer-Encoding", ascii "chunked")] else []) := by
    intro b
    cases chunked
    · simp
    simp only [if_true]
    rfl
  have hconn : ∀ b : Bytes, (if closeAfter then b ++ ascii "Connection: close\r\n"
      else b ++ ascii "Connection: keep-alive\r\n") =
      b ++ renderFields [(ascii "Connection",
        ascii (if closeAfter then "close" else "keep-alive"))] := by
    intro b
    cases closeAfter <;> rfl
  have hserver : ascii "Server: " = ascii "Server" ++ [colon, sp] := rfl
  have halt : ascii "Alt-Svc: " = ascii "Alt-Svc" ++ [colon, sp] := rfl
  unfold appendH1StreamHead streamFields altSvcFields
  dsimp only
  rw [hct, hte, appendDateUnlessSet_eq, appendStatusLine_eq, appendH1HeaderFields_eq, hconn]
  cases headersHaveFold headers (ascii "connection") <;>
    cases headersHaveFold headers (ascii "server") <;>
    cases headersHaveFold headers (ascii "alt-svc") <;> cases altSvc <;>
    simp [renderField, hserver, halt]

theorem fieldOk_of_no_break {name v : Bytes} (hne : name ≠ [])
    (hname : name.all tchar = true) (hv : containsLineBreak v = false) :
    FieldOk (name, v) :=
  ⟨hne, all_eq_true.mp hname, (no_break hv).1, (no_break hv).2⟩

theorem digits_no_break {v : Bytes} (h : ∀ c ∈ v, isDigit c = true) : containsLineBreak v = false := by
  unfold containsLineBreak
  rw [any_eq_false]
  intro c hc
  have := h c hc
  revert this
  exact forall_byte (P := fun c => isDigit c = true → ¬ isLineBreak c = true) (by decide +kernel) c

theorem altSvcValue_no_break (port : ℕ) : containsLineBreak (altSvcValue port) = false := by
  unfold altSvcValue
  have hport := digits_no_break (appendUint_spec port).2.1
  have hage := digits_no_break (appendUint_spec 86400).2.1
  have hpre : containsLineBreak (ascii "h3=\":") = false := by decide
  have hma : containsLineBreak (ascii "\"; ma=") = false := by decide
  unfold containsLineBreak at hport hage hpre hma ⊢
  rw [appendUint_append, appendUint_append (ascii "h3=\":")]
  simp [any_append, hport, hage, hpre, hma]

theorem forall_unless {P : Field → Prop} {c : Prop} [Decidable c] {f : Field} (h : P f) :
    ∀ g ∈ (if c then [] else [f]), P g := by
  split_ifs <;> simp [h]

theorem forall_altSvcFields {P : Field → Prop} (headers : List Field) (altSvc : Option ℕ)
    (h : ∀ port, P (ascii "Alt-Svc", altSvcValue port)) :
    ∀ g ∈ altSvcFields headers altSvc, P g := by
  cases altSvc with
  | none => simp [altSvcFields]
  | some port => exact forall_unless (h port)

theorem dateFields_ok (headers : List Field) : ∀ f ∈ dateFields date headers, FieldOk f :=
  forall_unless (fieldOk_of_no_break (by decide) (by decide) date.no_break)

theorem contentTypeFields_ok (contentType : Bytes) : ∀ f ∈ contentTypeFields contentType, FieldOk f :=
  forall_unless (fieldOk_of_no_break (by decide) (by decide) (strippedValue_no_break contentType))

theorem serverField_ok : FieldOk (ascii "Server", serverName.value) :=
  fieldOk_of_no_break (by decide) (by decide) serverName.no_break

theorem plainFields_ok (keepAlive : Bool) (h : ∀ f ∈ resp.headers, FieldOk f) :
    ∀ f ∈ plainFields date serverName resp keepAlive, FieldOk f := by
  have hcl : FieldOk (ascii "Content-Length", appendUint [] resp.body.length) :=
    fieldOk_of_no_break (by decide) (by decide) (digits_no_break (appendUint_spec _).2.1)
  have hconn : FieldOk (ascii "Connection", ascii (if keepAlive then "keep-alive" else "close")) :=
    fieldOk_of_no_break (by decide) (by decide) (by cases keepAlive <;> decide)
  unfold plainFields
  simp only [forall_mem_append]
  exact ⟨⟨⟨⟨dateFields_ok _ _, contentTypeFields_ok _⟩, forall_unless hcl⟩, h⟩,
    forall_mem_cons.mpr ⟨hconn, forall_mem_singleton.mpr (serverField_ok serverName)⟩⟩

theorem streamFields_ok {headers : List Field} (contentType : Bytes)
    (chunked closeAfter : Bool) (serverName : ServerName) (altSvc : Option ℕ)
    (h : ∀ f ∈ headers, FieldOk f) :
    ∀ f ∈ streamFields date headers contentType chunked closeAfter serverName altSvc, FieldOk f := by
  have hte : ∀ f ∈ (if chunked then [(ascii "Transfer-Encoding", ascii "chunked")] else []),
      FieldOk f := by
    cases chunked
    · simp
    exact forall_mem_singleton.mpr (fieldOk_of_no_break (by decide) (by decide) (by decide))
  have hconn : FieldOk (ascii "Connection", ascii (if closeAfter then "close" else "keep-alive")) :=
    fieldOk_of_no_break (by decide) (by decide) (by cases closeAfter <;> decide)
  have halt : ∀ port, FieldOk (ascii "Alt-Svc", altSvcValue port) := fun port =>
    fieldOk_of_no_break (by decide) (by decide) (altSvcValue_no_break port)
  unfold streamFields
  simp only [forall_mem_append]
  exact ⟨⟨⟨⟨⟨⟨dateFields_ok _ _, contentTypeFields_ok _⟩, hte⟩, h⟩, forall_unless hconn⟩,
    forall_unless (serverField_ok serverName)⟩, forall_altSvcFields _ _ halt⟩

def IsFramingName (name : Bytes) : Prop := name = ascii "transfer-encoding" ∨ name = ascii "content-length"

section Framing
variable {name : Bytes} (hname : IsFramingName name)
include hname

variable (v : Bytes)

theorem not_framing_date : named name (ascii "Date", v) = false := by
  rcases hname with rfl | rfl <;> rfl

theorem not_framing_contentType : named name (ascii "Content-Type", v) = false := by
  rcases hname with rfl | rfl <;> rfl

theorem not_framing_connection : named name (ascii "Connection", v) = false := by
  rcases hname with rfl | rfl <;> rfl

theorem not_framing_server : named name (ascii "Server", v) = false := by
  rcases hname with rfl | rfl <;> rfl

theorem not_framing_altSvc : named name (ascii "Alt-Svc", v) = false := by
  rcases hname with rfl | rfl <;> rfl

theorem elements_plainFields (date : HttpDate) (serverName : ServerName) (resp : Response)
    (keepAlive : Bool) (h : ∀ f ∈ resp.headers, named name f = false) :
    elements name ((plainFields date serverName resp keepAlive).map trimField) =
      elements name ((if (responseBodyDisposition resp.method resp.statusCode).2 then []
        else [(ascii "Content-Length", appendUint [] resp.body.length)]).map trimField) := by
  have htail : ∀ f ∈ [(ascii "Connection", ascii (if keepAlive then "keep-alive" else "close")),
      (ascii "Server", serverName.value)], named name f = false :=
    forall_mem_cons.mpr ⟨not_framing_connection hname _, forall_mem_singleton.mpr (not_framing_server hname _)⟩
  unfold plainFields dateFields contentTypeFields
  simp only [map_append, elements_append, elements_eq_nil htail, elements_eq_nil h,
    elements_eq_nil (forall_unless (not_framing_date hname _)),
    elements_eq_nil (forall_unless (not_framing_contentType hname _)), nil_append,
    append_nil]

theorem elements_streamFields (date : HttpDate) (headers : List Field) (contentType : Bytes)
    (chunked closeAfter : Bool) (serverName : ServerName) (altSvc : Option ℕ) :
    elements name ((streamFields date headers contentType chunked closeAfter serverName altSvc).map trimField) =
      elements name ((if chunked then [(ascii "Transfer-Encoding", ascii "chunked")]
        else []).map trimField) ++ elements name (headers.map trimField) := by
  unfold streamFields dateFields contentTypeFields
  simp only [map_append, elements_append, elements_eq_nil (forall_unless (not_framing_date hname _)),
    elements_eq_nil (forall_unless (not_framing_contentType hname _)),
    elements_eq_nil (forall_unless (not_framing_connection hname _)),
    elements_eq_nil (forall_unless (not_framing_server hname _)),
    elements_eq_nil (forall_altSvcFields headers altSvc fun _ => not_framing_altSvc hname _),
    nil_append, append_nil]

end Framing
end AlosHttp.H1

import AlosHttp.H1.ResponseText
import AlosHttp.H1.StreamWriter
import Mathlib.Logic.Relation

/-! When the connection is kept, the bytes of a response are one complete message by the
length rules, for buffered and for streamed responses under every schedule. -/
namespace AlosHttp.H1
open AlosHttp.Core Rfc9112 List

/-- The bytes are exactly one response to `method` whose content is `body`. -/
def Complete (method bytes body : Bytes) : Prop := ∃ m, readResponse method bytes = some (m, []) ∧ m.body = body

/-- A final response without a transfer coding and with at most one length. -/
structure FinalHead (status : ℕ) (headers : List Field) : Prop where
  final : 200 ≤ status
  no_coding : ∀ f ∈ headers, named (ascii "transfer-encoding") f = false
  one_length : (headers.filter (named (ascii "content-length"))).length ≤ 1

/-- The heads on which the server and a client agree: well-formed fields, no 205, HEAD and
CONNECT in upper case, and a length without a sign. -/
structure RegularHead (method : Bytes) (status : ℕ) (headers : List Field) : Prop where
  fields : ∀ f ∈ headers, FieldOk f
  not_reset : status ≠ 205
  head : equalFoldASCII method (ascii "HEAD") = true → method = ascii "HEAD"
  connect : equalFoldASCII method (ascii "CONNECT") = true → method = ascii "CONNECT"
  unsigned : ∀ f ∈ headers, named (ascii "content-length") f = true →
    f.2.head? ≠ some 43 ∧ f.2.head? ≠ some 45

instance (f : Field) : Decidable (FieldOk f) :=
  decidable_of_iff (f.1 ≠ [] ∧ f.1.all tchar = true ∧ cr ∉ f.2 ∧ lf ∉ f.2)
    ⟨fun h => ⟨h.1, all_eq_true.mp h.2.1, h.2.2.1, h.2.2.2⟩, fun h => ⟨h.1, all_eq_true.mpr h.2, h.3, h.4⟩⟩

instance (status : ℕ) (headers : List Field) : Decidable (FinalHead status headers) :=
  decidable_of_iff (200 ≤ status ∧ (∀ f ∈ headers, named (ascii "transfer-encoding") f = false) ∧
      (headers.filter (named (ascii "content-length"))).length ≤ 1)
    ⟨fun h => ⟨h.1, h.2.1, h.2.2⟩, fun h => ⟨h.1, h.2, h.3⟩⟩

instance (method : Bytes) (status : ℕ) (headers : List Field) : Decidable (RegularHead method status headers) :=
  decidable_of_iff ((∀ f ∈ headers, FieldOk f) ∧ status ≠ 205 ∧
      (equalFoldASCII method (ascii "HEAD") = true → method = ascii "HEAD") ∧
      (equalFoldASCII method (ascii "CONNECT") = true → method = ascii "CONNECT") ∧
      ∀ f ∈ headers, named (ascii "content-length") f = true →
        f.2.head? ≠ some 43 ∧ f.2.head? ≠ some 45)
    ⟨fun h => ⟨h.1, h.2.1, h.2.2.1, h.2.2.2.1, h.2.2.2.2⟩, fun h => ⟨h.1, h.2, h.3, h.4, h.5⟩⟩

theorem equalFold_refl (v : Bytes) : equalFoldASCII v v = true := (equalFoldASCII_iff v v).mpr rfl

variable {method : Bytes} {headers : List Field}

theorem suppressBody_eq {status : ℕ} (hf : 200 ≤ status) (hr : RegularHead method status headers) :
    (responseBodyDisposition method status).1 = bodiless method status := by
  have hhead : equalFoldASCII method (ascii "HEAD") = (method == ascii "HEAD") := by
    rw [Bool.eq_iff_iff, beq_iff_eq]
    exact ⟨hr.head, fun h => h ▸ equalFold_refl _⟩
  have hconnect : equalFoldASCII method (ascii "CONNECT") = (method == ascii "CONNECT") := by
    rw [Bool.eq_iff_iff, beq_iff_eq]
    exact ⟨hr.connect, fun h => h ▸ equalFold_refl _⟩
  have hslow : (responseBodyDispositionSlow method status).1 = bodiless method status := by
    unfold responseBodyDispositionSlow bodiless
    rw [if_neg (by omega), hhead, hconnect]
    have h205 := hr.not_reset
    by_cases h204 : status = 204
    · simp [h204]
    by_cases h304 : status = 304
    · simp [h304]
    rw [if_neg (by omega), if_neg h304]
    have hlt : decide (status < 200) = false := by simpa using hf
    by_cases hm : method = []
    · subst hm
      simp [h204, h304, hlt, ascii]
    split_ifs with hc
    · simp [hc.1.1, hc.1.2, hc.2]
    cases hh : (method == ascii "HEAD") <;> cases hcc : (method == ascii "CONNECT") <;>
      simp_all
  unfold responseBodyDisposition
  split_ifs with hfast
  · obtain ⟨rfl, h4, h7⟩ := hfast
    have h1 : (method == ascii "HEAD") = false := by
      rw [beq_eq_false_iff_ne]
      rintro rfl
      exact h4 (by decide)
    have h2 : (method == ascii "CONNECT") = false := by
      rw [beq_eq_false_iff_ne]
      rintro rfl
      exact h7 (by decide)
    simp [bodiless, h1, h2]
  · exact hslow

theorem omitLength_false {status : ℕ} (h : (responseBodyDisposition method status).1 = false) :
    (responseBodyDisposition method status).2 = false := by
  unfold responseBodyDisposition responseBodyDispositionSlow at h ⊢
  split_ifs at h ⊢ <;> simp_all

theorem complete_plain (date : HttpDate) (serverName : ServerName) (resp : Response)
    (keepAlive : Bool) (hf : FinalHead resp.statusCode resp.headers)
    (hl : ∀ f ∈ resp.headers, named (ascii "content-length") f = false)
    (hr : RegularHead resp.method resp.statusCode resp.headers) :
    Complete resp.method (appendPlainResponseMode date serverName resp [] keepAlive true) resp.transmittedBody := by
  have hsup := suppressBody_eq hf.final hr
  have hte := elements_plainFields (.inl rfl) date serverName resp keepAlive hf.no_coding
  have hcl := elements_plainFields (.inr rfl) date serverName resp keepAlive hl
  rw [appendPlainResponseMode_eq, nil_append, if_pos rfl]
  refine ⟨_, readResponse_render resp.method ?_ (readStatusLine_statusLine resp.statusCode)
    (plainFields_ok date serverName resp keepAlive hr.fields)
    (show readBody _ _ = some (resp.transmittedBody, _) from ?_), rfl⟩
  · exact statusLine_no_cr resp.statusCode
  cases hb : bodiless resp.method resp.statusCode with
  | true =>
    rw [framing_empty hb, Response.transmittedBody, hsup, hb]
    rfl
  | false =>
    obtain ⟨hne, hdig, hdec⟩ := appendUint_spec resp.body.length
    have homit := omitLength_false (hsup.trans hb)
    rw [homit] at hte hcl
    have hlen : elements (ascii "content-length")
        ([(ascii "Content-Length", appendUint [] resp.body.length)].map trimField) =
        [appendUint [] resp.body.length] := elements_decimal rfl hdig
    have hnone : elements (ascii "transfer-encoding")
        ([(ascii "Content-Length", appendUint [] resp.body.length)].map trimField) = [] :=
      elements_eq_nil (forall_mem_singleton.mpr rfl)
    rw [framing_length hb (hte.trans hnone) (hcl.trans hlen) hne hdig, hdec, Response.transmittedBody, hsup, hb]
    simp [readBody]

structure StreamHead where
  date : HttpDate
  status : ℕ
  headers : List Field
  contentType : Bytes
  closeAfter : Bool

def StreamHead.text (h : StreamHead) (cfg : StreamConfig) (chunked : Bool) : Bytes :=
  statusLine h.status ++ crlf ++ (renderFields (streamFields h.date h.headers h.contentType chunked
    h.closeAfter cfg.serverName cfg.altSvc) ++ crlf)

theorem parseInt64_unsigned {v : Bytes} {n : ℤ} (hv : v.head? ≠ some 43 ∧ v.head? ≠ some 45)
    (h : parseInt64 v = some n) :
    v ≠ [] ∧ (∀ c ∈ v, isDigit c = true) ∧ n.toNat = decimalValue v := by
  have hplain : splitSign v = (false, v) := by
    unfold splitSign
    split
    · simp at hv
    · simp at hv
    · rfl
  unfold parseInt64 at h
  rw [hplain] at h
  dsimp only at h
  rw [if_neg Bool.false_ne_true] at h
  split_ifs at h with hbad hlt
  rw [not_or, Bool.not_eq_false, all_eq_true] at hbad
  refine ⟨hbad.1, hbad.2, ?_⟩
  rw [← Option.some.inj h]
  rfl

theorem scanH1StreamHeaders_some {len : ℕ} (h : (scanH1StreamHeaders headers).1 = some len) :
    ∃ f ∈ headers, named (ascii "content-length") f = true ∧
      ∃ n, parseInt64 f.2 = some n ∧ n.toNat = len := by
  unfold scanH1StreamHeaders at h
  revert h
  -- What the scan holds after any of the fields comes from one of them.
  refine foldlRecOn (motive := fun r : Option ℕ × Bool => r.1 = some len → ∃ f ∈ headers,
    named (ascii "content-length") f = true ∧ ∃ n, parseInt64 f.2 = some n ∧ n.toNat = len)
    headers _ nofun fun r ih f hf h => ?_
  by_cases hcl : equalFoldASCII f.1 (ascii "content-length") = true
  · rw [if_pos hcl] at h
    rcases hp : parseInt64 f.2 with _ | n
    · rw [hp] at h
      exact ih h
    simp only [hp] at h
    split_ifs at h with hn
    · exact ⟨f, hf, hcl, n, hp, Option.some.inj h⟩
    · exact ih h
  rw [if_neg hcl] at h
  split_ifs at h
  · exact ih h
  · exact ih h

theorem elements_declared {status len : ℕ} (hf : FinalHead status headers) (hr : RegularHead method status headers)
    (h : (scanH1StreamHeaders headers).1 = some len) :
    ∃ v, elements (ascii "content-length") (headers.map trimField) = [v] ∧ v ≠ [] ∧
      (∀ c ∈ v, isDigit c = true) ∧ decimalValue v = len := by
  obtain ⟨f, hmem, hnamed, n, hparse, hlen⟩ := scanH1StreamHeaders_some h
  obtain ⟨hne, hdig, hval⟩ := parseInt64_unsigned (hr.unsigned f hmem hnamed) hparse
  have hfilter : headers.filter (named (ascii "content-length")) = [f] := by
    have hin := mem_filter.mpr ⟨hmem, hnamed⟩
    have hone := hf.one_length
    rcases hl : headers.filter (named (ascii "content-length")) with _ | ⟨g, gs⟩
    · simp [hl] at hin
    rw [hl] at hin hone
    obtain rfl : gs = [] := length_eq_zero_iff.mp (by simpa using hone)
    rw [mem_singleton.mp hin]
  refine ⟨f.2, ?_, hne, hdig, by rw [← hval, hlen]⟩
  have hmap : (headers.map trimField).filter (named (ascii "content-length")) = [trimField f] := by
    rw [filter_map, show named (ascii "content-length") ∘ trimField =
      named (ascii "content-length") from rfl, hfilter, map_singleton]
  rw [← elements_decimal hnamed hdig, elements, elements, hmap,
    filter_cons_of_pos (show named (ascii "content-length") (trimField f) = true from hnamed),
    filter_nil]

def chunksText (pieces : List Bytes) : Bytes := pieces.flatMap (appendH1Chunk [])

theorem appendH1Chunk_append (buf data : Bytes) : appendH1Chunk buf data = buf ++ appendH1Chunk [] data := by
  simp [appendH1Chunk]

theorem readChunks_chunksText {pieces : List Bytes} (h : ∀ p ∈ pieces, p ≠ []) :
    readChunks (chunksText pieces ++ h1LastChunk) = some (pieces.flatten, []) := by
  have key : ∀ (pieces : List Bytes) (fuel : ℕ), (∀ p ∈ pieces, p ≠ []) → pieces.length < fuel →
      readChunksLoop fuel (chunksText pieces ++ h1LastChunk) = some (pieces.flatten, []) := by
    intro pieces
    induction pieces with
    | nil =>
      intro fuel _ hfuel
      obtain ⟨k, rfl⟩ := Nat.exists_eq_add_one_of_ne_zero (show fuel ≠ 0 by omega)
      have := readChunksLoop_last k []
      rwa [append_nil] at this
    | cons p pieces ih =>
      intro fuel hne hfuel
      obtain ⟨hp, hps⟩ := forall_mem_cons.mp hne
      obtain ⟨hcr, hsize⟩ := appendHex_spec p.length
      rw [length_cons] at hfuel
      obtain ⟨k, rfl⟩ := Nat.exists_eq_add_one_of_ne_zero (show fuel ≠ 0 by omega)
      have htext : chunksText (p :: pieces) ++ h1LastChunk =
          appendHex [] p.length ++ crlf ++ p ++ crlf ++ (chunksText pieces ++ h1LastChunk) := by
        simp [chunksText, appendH1Chunk]
      rw [htext, readChunksLoop_cons hcr hsize hp, ih k hps (by omega)]
      rfl
  have hlen : pieces.length ≤ (chunksText pieces).length := by
    unfold chunksText
    induction pieces with
    | nil => simp
    | cons p pieces ih =>
      have hchunk : 1 ≤ (appendH1Chunk [] p).length := by
        simp only [appendH1Chunk, crlf, length_append, length_cons]
        omega
      have := ih (forall_mem_cons.mp h).2
      rw [flatMap_cons, length_append, length_cons]
      omega
  apply key pieces _ h
  have hlast : h1LastChunk.length = 5 := by decide
  rw [length_append]
  omega

section Streamed
variable {cfg : StreamConfig} {h : StreamHead} (hf : FinalHead h.status h.headers)
  (hr : RegularHead cfg.method h.status h.headers)
include hf hr

omit hf in
theorem complete_head {chunked : Bool} {b body : Bytes}
    (hbody : readBody (framing cfg.method h.status ((streamFields h.date h.headers h.contentType
      chunked h.closeAfter cfg.serverName cfg.altSvc).map trimField)) b = some (body, [])) :
    Complete cfg.method (h.text cfg chunked ++ b) body := by
  have hread := readResponse_render cfg.method (statusLine_no_cr h.status) (readStatusLine_statusLine h.status)
    (streamFields_ok h.date h.contentType chunked h.closeAfter cfg.serverName cfg.altSvc hr.fields)
    hbody
  have htext : h.text cfg chunked ++ b = statusLine h.status ++ crlf ++ (renderFields (streamFields
      h.date h.headers h.contentType chunked h.closeAfter cfg.serverName cfg.altSvc) ++ crlf ++ b) := by
    simp only [StreamHead.text, append_assoc]
  exact ⟨_, htext ▸ hread, rfl⟩

theorem complete_suppressed (hs : (responseBodyDisposition cfg.method h.status).1 = true)
    (chunked : Bool) : Complete cfg.method (h.text cfg chunked ++ []) [] := by
  apply complete_head hr
  rw [framing_empty ((suppressBody_eq hf.final hr).symm.trans hs)]
  rfl

theorem complete_chunked (hs : (responseBodyDisposition cfg.method h.status).1 = false)
    {pieces : List Bytes} (hp : ∀ p ∈ pieces, p ≠ []) :
    Complete cfg.method (h.text cfg true ++ (chunksText pieces ++ h1LastChunk)) pieces.flatten := by
  apply complete_head hr
  have hte := elements_streamFields (.inl rfl) h.date h.headers h.contentType true h.closeAfter
    cfg.serverName cfg.altSvc
  rw [elements_eq_nil hf.no_coding, append_nil] at hte
  rw [framing_chunked ((suppressBody_eq hf.final hr).symm.trans hs) (hte.trans (by decide))]
  exact readChunks_chunksText hp

theorem complete_length (hs : (responseBodyDisposition cfg.method h.status).1 = false) {b : Bytes}
    (hlen : (scanH1StreamHeaders h.headers).1 = some b.length) :
    Complete cfg.method (h.text cfg false ++ b) b := by
  apply complete_head hr
  obtain ⟨v, hv, hne, hdig, hval⟩ := elements_declared hf hr hlen
  have hte := elements_streamFields (.inl rfl) h.date h.headers h.contentType false h.closeAfter
    cfg.serverName cfg.altSvc
  have hcl := elements_streamFields (.inr rfl) h.date h.headers h.contentType false h.closeAfter
    cfg.serverName cfg.altSvc
  rw [elements_eq_nil hf.no_coding, append_nil] at hte
  rw [hv] at hcl
  rw [framing_length ((suppressBody_eq hf.final hr).symm.trans hs) hte hcl hne hdig, hval]
  simp [readBody]

end Streamed
end AlosHttp.H1

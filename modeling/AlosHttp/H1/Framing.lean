import AlosHttp.H1.HeadGrammar

/-! Message framing of accepted heads: how the flags of the header loop relate to the
header list, and what the checks at the blank line leave. -/
namespace AlosHttp.H1
open AlosHttp.Core

def isHostField (f : Field) : Bool := equalFoldASCII f.1 (ascii "Host")

def isTransferEncodingField (f : Field) : Bool := equalFoldASCII f.1 (ascii "Transfer-Encoding")

def isContentLengthField (f : Field) : Bool := equalFoldASCII f.1 (ascii "Content-Length")

theorem equalFold_unique {name a b : Bytes} (h : equalFoldASCII name a = true)
    (hab : toLowerASCII a ≠ toLowerASCII b) : equalFoldASCII name b = false := by
  by_contra hn
  rw [Bool.not_eq_false] at hn
  exact hab (((equalFoldASCII_iff _ _).mp h).symm.trans ((equalFoldASCII_iff _ _).mp hn))

variable (f : Field)

theorem nameKind_host : isHostField f = decide (nameKind f.1 = .host) := by
  unfold isHostField nameKind
  split_ifs with h1 <;> simp [h1]

theorem nameKind_contentLength : isContentLengthField f = decide (nameKind f.1 = .contentLength) := by
  unfold isContentLengthField nameKind
  split_ifs with h1 h2 h3 h4
  · simp [equalFold_unique h1 (b := ascii "Content-Length") (by decide)]
  · simp [equalFold_unique h2 (b := ascii "Content-Length") (by decide)]
  · simp [equalFold_unique h3 (b := ascii "Content-Length") (by decide)]
  all_goals simp [h4]

theorem nameKind_transferEncoding : isTransferEncodingField f = decide (nameKind f.1 = .transferEncoding) := by
  unfold isTransferEncodingField nameKind
  split_ifs with h1 h2 h3 h4 h5
  · simp [equalFold_unique h1 (b := ascii "Transfer-Encoding") (by decide)]
  · simp [equalFold_unique h2 (b := ascii "Transfer-Encoding") (by decide)]
  · simp [equalFold_unique h3 (b := ascii "Transfer-Encoding") (by decide)]
  · simp [equalFold_unique h4 (b := ascii "Transfer-Encoding") (by decide)]
  all_goals simp [h5]

def isChunked (f : Field) : Bool := equalFoldASCII f.2 (ascii "chunked")

def DecimalValue (v : Bytes) (n : ℤ) : Prop := v ≠ [] ∧ (∀ c ∈ v, isDigit c = true) ∧ (decimalValue v : ℤ) = n

/-- The flags of the header loop summarise the headers read so far. -/
structure FramingInv (st : HeadState) : Prop where
  hosts : st.hostCount = (st.req.headers.filter isHostField).length
  chunked : st.chunkedEncoding = st.req.headers.any fun f => isTransferEncodingField f && isChunked f
  badTE : st.badTransferEncoding = st.req.headers.any fun f => isTransferEncodingField f && !isChunked f
  hasCL : st.hasContentLength = st.req.headers.any isContentLengthField
  lengths : st.contentLength = -1 ∨
    ∀ f ∈ st.req.headers, isContentLengthField f = true → DecimalValue f.2 st.contentLength
  nonneg : -1 ≤ st.contentLength

open HeadState List

theorem contentLengthField_length (v : Bytes) (st : HeadState) (hn : -1 ≤ st.contentLength) :
    (contentLengthField v st).hasContentLength = true ∧ ((contentLengthField v st).contentLength = -1 ∨
        DecimalValue v (contentLengthField v st).contentLength ∧ (st.hasContentLength = true →
            (contentLengthField v st).contentLength = st.contentLength ∧ st.contentLength ≠ -1)) ∧
      -1 ≤ (contentLengthField v st).contentLength := by
  unfold contentLengthField
  dsimp only [cache]
  cases hcl : st.hasContentLength with
  | false =>
    rcases hp : parseUint v with _ | n
    · simp
    obtain ⟨h1, h2, h3⟩ := parseUint_some hp
    refine ⟨by simp, Or.inr ⟨⟨h1, h2, by simp [h3]⟩, by simp⟩, ?_⟩
    simp only [Bool.false_eq_true, if_false]
    omega
  | true =>
    rcases hp : parseUint v with _ | n
    · simp
    obtain ⟨h1, h2, h3⟩ := parseUint_some hp
    by_cases hbad : (decide (st.contentLength < 0) || (n : ℤ) != st.contentLength) = true
    · simp [hbad]
    have hok : 0 ≤ st.contentLength ∧ (n : ℤ) = st.contentLength := by simpa using hbad
    simp only [hbad, if_true, Bool.false_eq_true, if_false]
    refine ⟨trivial, Or.inr ⟨⟨h1, h2, by rw [h3]; exact hok.2⟩, fun _ => ⟨trivial, ?_⟩⟩, ?_⟩
    · omega
    · omega

theorem contentLengthField_flags (v : Bytes) (st : HeadState) : (contentLengthField v st).hostCount = st.hostCount ∧
      (contentLengthField v st).chunkedEncoding = st.chunkedEncoding ∧
      (contentLengthField v st).badTransferEncoding = st.badTransferEncoding := by
  unfold contentLengthField cache
  dsimp only
  split_ifs <;> split <;> (try split_ifs) <;> exact ⟨rfl, rfl, rfl⟩

theorem lengths_append {hs : List Field} {f : Field} {n : ℤ} (hf : isContentLengthField f = false)
    (h : n = -1 ∨ ∀ g ∈ hs, isContentLengthField g = true → DecimalValue g.2 n) :
    n = -1 ∨ ∀ g ∈ hs ++ [f], isContentLengthField g = true → DecimalValue g.2 n := by
  refine h.imp id fun hall g hg hcl => ?_
  rcases mem_append.mp hg with hg | hg
  · exact hall g hg hcl
  rw [mem_singleton.mp hg, hf] at hcl
  cases hcl

theorem FramingInv.keep {st st' : HeadState} {f : Field} (hi : FramingInv st)
    (hh : st'.req.headers = st.req.headers ++ [f]) (h1 : isHostField f = false)
    (h2 : isTransferEncodingField f = false) (h3 : isContentLengthField f = false)
    (e1 : st'.hostCount = st.hostCount) (e2 : st'.chunkedEncoding = st.chunkedEncoding)
    (e3 : st'.badTransferEncoding = st.badTransferEncoding)
    (e4 : st'.hasContentLength = st.hasContentLength) (e5 : st'.contentLength = st.contentLength) :
    FramingInv st' where
  hosts := by simp [hh, e1, hi.hosts, h1]
  chunked := by simp [hh, e2, hi.chunked, h2]
  badTE := by simp [hh, e3, hi.badTE, h2]
  hasCL := by simp [hh, e4, hi.hasCL, h3]
  lengths := by
    rw [e5, hh]
    exact lengths_append h3 hi.lengths
  nonneg := by rw [e5]; exact hi.nonneg

theorem FramingInv.step {st st' : HeadState} {f : Field} (hi : FramingInv st)
    (h : stepField st f = some st') : FramingInv st' := by
  have hh := stepField_headers h
  have k1 := nameKind_host f
  have k2 := nameKind_transferEncoding f
  have k3 := nameKind_contentLength f
  obtain ⟨c, hc⟩ := stepField_some h
  cases hk : nameKind f.1 <;> rw [hk] at hc k1 k2 k3 <;> rw [fieldEffect] at hc
  case expect | connection | other => cases hc; exact hi.keep hh k1 k2 k3 rfl rfl rfl rfl rfl
  case host =>
    split_ifs at hc
    cases hc
    exact
      { hosts := by simp [addHeader, hi.hosts, k1]
        chunked := by simp [addHeader, hi.chunked, k2]
        badTE := by simp [addHeader, hi.badTE, k2]
        hasCL := by simp [addHeader, hi.hasCL, k3]
        lengths := lengths_append k3 hi.lengths
        nonneg := hi.nonneg }
  case transferEncoding =>
    split_ifs at hc with hch
    · have hchunk : isChunked f = true := hch
      cases hc
      exact
        { hosts := by simp [cache, addHeader, hi.hosts, k1]
          chunked := by simp [cache, addHeader, k2, hchunk]
          badTE := by simp [cache, addHeader, hi.badTE, hchunk]
          hasCL := by simp [cache, addHeader, hi.hasCL, k3]
          lengths := lengths_append k3 hi.lengths
          nonneg := hi.nonneg }
    have hchunk : isChunked f = false := by simpa [isChunked] using hch
    cases hc
    exact
      { hosts := by simp [cache, addHeader, hi.hosts, k1]
        chunked := by simp [cache, addHeader, hi.chunked, hchunk]
        badTE := by simp [cache, addHeader, k2, hchunk]
        hasCL := by simp [cache, addHeader, hi.hasCL, k3]
        lengths := lengths_append k3 hi.lengths
        nonneg := hi.nonneg }
  case contentLength =>
    obtain ⟨f1, f2, f3⟩ := contentLengthField_flags f.2 (st.addHeader f)
    obtain ⟨l1, l2, l3⟩ := contentLengthField_length f.2 (st.addHeader f) hi.nonneg
    rw [Option.some.inj hc] at f1 f2 f3 l1 l2 l3
    exact
      { hosts := by simp [hh, f1, addHeader, hi.hosts, k1]
        chunked := by simp [hh, f2, addHeader, hi.chunked, k2]
        badTE := by simp [hh, f3, addHeader, hi.badTE, k2]
        hasCL := by simp [hh, l1, k3]
        lengths := by
          rw [hh]
          rcases l2 with hbad | ⟨hdec, hsame⟩
          · exact .inl hbad
          refine .inr fun g hg hcl => ?_
          rcases mem_append.mp hg with hg | hg
          · -- an earlier length line agreed with the value kept so far
            have hcl' : st.hasContentLength = true := by
              rw [hi.hasCL]
              exact any_eq_true.mpr ⟨g, hg, hcl⟩
            obtain ⟨heq, hne⟩ := hsame hcl'
            rw [heq]
            exact hi.lengths.resolve_left hne g hg hcl
          rw [mem_singleton.mp hg]
          exact hdec
        nonneg := l3 }

theorem FramingInv.init (req : Request) (h : req.headers = []) : FramingInv { req } where
  hosts := by simp [h]
  chunked := by simp [h]
  badTE := by simp [h]
  hasCL := by simp [h]
  lengths := by simp [h]
  nonneg := by
    change (-1 : ℤ) ≤ 0
    omega

theorem parseRequestLine_proto {l : Bytes} {req req' : Request} {rl : RequestLine}
    (h : parseRequestLine l req = .ok (rl, req')) :
    req'.proto = if rl.http10 then ascii "HTTP/1.0" else ascii "HTTP/1.1" := by
  unfold parseRequestLine at h
  split at h
  · simp at h
  split at h
  · simp at h
  · simp at h
  dsimp only at h
  split_ifs at h <;> simp only [Except.ok.injEq, Prod.mk.injEq] at h
  all_goals rw [← h.1, ← h.2]
  all_goals simp [*]

theorem HeadShape.framing {req : Request} {maxBytes maxCount : ℕ}
    (s : HeadShape req maxBytes maxCount) (hreq : req.headers = []) :
    FramingInv s.st ∧ s.st.req.proto = if s.rl.http10 then ascii "HTTP/1.0" else ascii "HTTP/1.1" := by
  have hheaders : s.lineReq.headers = [] := (parseRequestLine_headers s.line_ok).trans hreq
  refine ⟨stepFields_invariant (fun st f st' hi h => hi.step h) s.fields_ok (FramingInv.init _ hheaders), ?_⟩
  rw [← parseRequestLine_proto s.line_ok]
  have htarget := stepFields_target s.fields_ok
  simp only [Request.target, Prod.mk.injEq] at htarget
  exact htarget.2.2.2.2

/-- Framing of every accepted head. Several `Transfer-Encoding` lines pass when each of
them is `chunked` in some letter case. -/
theorem accepted_framing (avx2 : Bool) (data : Bytes) (req : Request)
    (maxHeaderBytes maxHeaderCount : ℤ) {r : HeadResult}
    (hr : parseH1RequestHead avx2 data req.resetFastH1 maxHeaderBytes maxHeaderCount = r)
    (h : r.Accepted) :
    (r.req.proto = ascii "HTTP/1.0" ∧ (r.req.headers.filter isHostField).length ≤ 1 ∨
        r.req.proto = ascii "HTTP/1.1" ∧ (r.req.headers.filter isHostField).length = 1) ∧
      ¬ ((∃ f ∈ r.req.headers, isTransferEncodingField f = true) ∧ ∃ f ∈ r.req.headers, isContentLengthField f = true) ∧
      (∀ f ∈ r.req.headers, isTransferEncodingField f = true → equalFoldASCII f.2 (ascii "chunked") = true) ∧
      (r.chunkedEncoding = true ↔ ∃ f ∈ r.req.headers, isTransferEncodingField f = true) ∧
      (r.hasContentLength = true → r.contentLength = -1 ∨
        ∀ f ∈ r.req.headers, isContentLengthField f = true → DecimalValue f.2 r.contentLength) := by
  have hreq : req.resetFastH1.headers = [] := rfl
  obtain ⟨s, _, rfl⟩ := parse_accepted avx2 hreq maxHeaderBytes maxHeaderCount (hr ▸ h)
  rw [parse_text avx2 hreq maxHeaderBytes maxHeaderCount s] at hr
  obtain ⟨hinv, hproto⟩ := s.framing hreq
  obtain ⟨hbad, hboth, hhost1, hhost0, hres⟩ := finishHead_accepted (by rw [← HeadShape.result, hr]; exact h)
  have hrr : r = acceptHead s.rl (s.line.length + 2 + (block s.fields).length) s.st := by
    rw [← hr, HeadShape.result, hres]
  have hheaders : r.req.headers = s.st.req.headers := by rw [hrr, acceptHead_headers]
  have hte : ∀ f ∈ s.st.req.headers, isTransferEncodingField f = true → isChunked f = true := by
    intro f hf ht
    by_contra hc
    have hany : s.st.req.headers.any (fun f => isTransferEncodingField f && !isChunked f) = true := by
      rw [any_eq_true]
      exact ⟨f, hf, by simp [ht, hc]⟩
    rw [← hinv.badTE, hbad] at hany
    cases hany
  have hch : s.st.chunkedEncoding = true ↔ ∃ f ∈ s.st.req.headers, isTransferEncodingField f = true := by
    rw [hinv.chunked, any_eq_true]
    constructor
    · rintro ⟨f, hf, ht⟩
      exact ⟨f, hf, (Bool.and_eq_true _ _ ▸ ht).1⟩
    rintro ⟨f, hf, ht⟩
    exact ⟨f, hf, by simp [ht, hte f hf ht]⟩
  rw [hheaders]
  refine ⟨?_, ?_, hte, ?_, ?_⟩
  · rw [hrr, acceptHead_proto, hproto, ← hinv.hosts]
    cases hv : s.rl.http10 with
    | true => exact Or.inl ⟨rfl, hhost1⟩
    | false =>
      refine Or.inr ⟨rfl, ?_⟩
      have : s.st.hostCount ≠ 0 := fun h0 => by
        rw [hhost0 h0] at hv
        cases hv
      omega
  · rintro ⟨hex, hcl⟩
    refine hboth ⟨hch.mpr hex, Or.inl ?_⟩
    rw [hinv.hasCL, any_eq_true]
    exact hcl
  · rw [hrr]
    exact hch
  intro _
  rw [hrr]
  exact hinv.lengths

def chunkedTwice : Bytes :=
  ascii "POST / HTTP/1.1\r\nHost: a\r\nTransfer-Encoding: chunked\r\nTransfer-Encoding: CHUNKED\r\n\r\n"

theorem accepted_framing_chunkedTwice : (parseH1RequestHead true chunkedTwice ({} : Request).resetFastH1 0 0).Accepted ∧
      ∀ f ∈ (parseH1RequestHead true chunkedTwice ({} : Request).resetFastH1 0 0).req.headers,
        isTransferEncodingField f = true → equalFoldASCII f.2 (ascii "chunked") = true := by
  have h : (parseH1RequestHead true chunkedTwice ({} : Request).resetFastH1 0 0).Accepted := by
    decide +kernel
  exact ⟨h, (accepted_framing true chunkedTwice {} 0 0 rfl h).2.2.1⟩

theorem chunkedTwice_accepted : (parseH1RequestHead true chunkedTwice ({} : Request).resetFastH1 0 0).Accepted ∧
      ((parseH1RequestHead true chunkedTwice ({} : Request).resetFastH1 0 0).req.headers.filter
        isTransferEncodingField).map Prod.snd = [ascii "chunked", ascii "CHUNKED"] := by
  decide +kernel

end AlosHttp.H1

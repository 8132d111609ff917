import AlosHttp.H1.RootIndex

/-! Soundness of the root shortcut: whatever it matches, the general parser accepts as the
same request with the same end and the same close flag. -/
namespace AlosHttp.H1
open AlosHttp.Core Data List

theorem containsTokenFold_self {v token : Bytes} (h : equalFoldASCII v token = true)
    (hne : token ≠ []) (hplain : (toLowerASCII token).any (fun c => c = comma || isOWS c) = false) :
    containsTokenFold v token = true := by
  have hlow := (equalFoldASCII_iff _ _).mp h
  have hfix : ∀ c, c = comma ∨ isOWS c = true → asciiLower c = c := by
    exact fun c => forall_byte (P := fun c => c = comma ∨ isOWS c = true → asciiLower c = c) (by decide +kernel) c
  have hv : ∀ c ∈ v, c ≠ comma ∧ isOWS c = false := by
    intro c hc
    have hmem : asciiLower c ∈ toLowerASCII token := by
      rw [← hlow]
      exact mem_map_of_mem hc
    have hlower := any_eq_false.mp hplain _ hmem
    rw [Bool.or_eq_true, decide_eq_true_iff, not_or, Bool.not_eq_true] at hlower
    obtain ⟨h1, h2⟩ := hlower
    constructor
    · rintro rfl
      exact h1 (hfix _ (Or.inl rfl))
    by_contra hows
    rw [Bool.not_eq_false] at hows
    rw [hfix c (Or.inr hows), hows] at h2
    cases h2
  have hcomma : indexByte v comma = none := by
    rw [indexByte, findIdx?_eq_none_iff]
    intro c hc
    simpa using (hv c hc).1
  have htrim : trimOWS v = v := by
    have h1 : v.dropWhile isOWS = v := by
      cases v with
      | nil => rfl
      | cons c v => rw [dropWhile_cons_of_neg (by simp [(hv c mem_cons_self).2])]
    rw [trimOWS, h1, rdropWhile_eq_self_iff]
    intro hl
    simp [(hv _ (getLast_mem hl)).2]
  rcases v with _ | ⟨c, v⟩
  · have := congrArg length hlow
    simp only [toLowerASCII, length_map, length_nil] at this
    exact absurd (length_eq_zero_iff.mp this.symm) hne
  rw [containsTokenFold, length_cons, containsTokenFoldLoop]
  simp only [hcomma, htrim, h, if_true]
  simp

theorem connectionOptions_close (v : Bytes) : (connectionOptions v).1 =
      (!equalFoldASCII v (ascii "keep-alive") && (connectionOptionList v).1) := by
  unfold connectionOptions
  rw [asciiEqualFoldBytes_eq, asciiEqualFoldBytes_eq]
  split_ifs with h1 h2
  · simp [h1]
  · have hc := containsTokenFold_self h2 (by decide) (by decide)
    simp [h1, connectionOptionList, hc]
  · simp [h1]

/-- The general loop state agrees with the state of the root walk. -/
structure RootRel (root : RootFastState) (st : HeadState) : Prop where
  hosts : st.hostCount = root.hosts
  close : st.closeConn = !root.keepAlive
  chunked : st.chunkedEncoding = false
  badTE : st.badTransferEncoding = false
  hasCL : st.hasContentLength = false
  expect : st.req.expect = .expectNone

open Option

theorem RootRel.step {root root' : RootFastState} {st : HeadState} {f : FieldLine}
    (hr : RootRel root st) (h : rootStep root f = some root') :
    ∃ st', stepField st f.field = some st' ∧ RootRel root' st' := by
  obtain ⟨c, hc⟩ := headerField_eq f.name (trimOWS f.raw) false (st.addHeader f.field)
  have hst : stepField st f.field = fieldEffect (trimOWS f.raw) false (st.addHeader f.field) c (nameKind f.name) := hc
  rw [rootStep, field_kind, trimOWS_trimOWS] at h
  rw [hst]
  cases hk : nameKind f.name <;> rw [hk] at h <;> dsimp only at h <;> rw [fieldEffect]
  case host =>
    split_ifs at h with hv
    rw [Bool.false_or] at hv
    rw [if_neg (by simp [hv])]
    exact ⟨_, rfl, by
      rw [← some.inj h]
      exact ⟨by simp [HeadState.addHeader, hr.hosts], hr.close, hr.chunked, hr.badTE, hr.hasCL,
        hr.expect⟩⟩
  case connection =>
    refine ⟨_, rfl, ?_⟩
    have hclose := connectionOptions_close (trimOWS f.raw)
    split_ifs at h with hv
    · rw [← some.inj h]
      refine ⟨hr.hosts, ?_, hr.chunked, hr.badTE, hr.hasCL, hr.expect⟩
      rw [hv] at hclose
      simp [hclose]
    rw [← some.inj h]
    refine ⟨hr.hosts, ?_, hr.chunked, hr.badTE, hr.hasCL, hr.expect⟩
    rw [Bool.not_eq_true] at hv
    rw [hv] at hclose
    simp [hclose, HeadState.addHeader, hr.close]
  case other =>
    refine ⟨_, rfl, ?_⟩
    rw [← some.inj h]
    exact ⟨hr.hosts, hr.close, hr.chunked, hr.badTE, hr.hasCL, hr.expect⟩
  all_goals simp at h

theorem RootRel.run {root root' : RootFastState} {st : HeadState} {fs : List FieldLine}
    (hr : RootRel root st) (h : fs.foldlM rootStep root = some root') :
    ∃ st', stepFields st (fs.map FieldLine.field) = some st' ∧ RootRel root' st' := by
  induction fs generalizing root st with
  | nil =>
    obtain rfl : root = root' := by simpa using h
    exact ⟨st, rfl, hr⟩
  | cons f fs ih =>
    obtain ⟨_, h1, h2⟩ := bind_eq_some_iff.mp h
    obtain ⟨st₁, hs1, hr1⟩ := hr.step h1
    obtain ⟨st', hs2, hr2⟩ := ih hr1 h2
    exact ⟨st', stepFields_cons_some.mpr ⟨st₁, hs1, hs2⟩, hr2⟩

structure RootParse (buf : Bytes) (lineLen maxHeaderCount consumed : ℕ) (keepAlive : Bool) where
  lines : List FieldLine
  rest : Bytes
  state : RootFastState
  maxCount : ℕ
  text : buf.drop lineLen = block lines ++ crlf ++ rest
  consumed_eq : consumed = lineLen + (block lines).length + 2
  walk : lines.foldlM rootStep { keepAlive := true, maxCount } = some state
  one_host : state.hosts = 1
  keepAlive_eq : state.keepAlive = keepAlive
  counted : lines.length ≤ maxHeaderCount ∨ consumed ≤ rootScalarScanMaxBytes

variable {avx2 keepAlive : Bool} {vec : VectorIndex}

theorem rootFastHeaders_some (hvec : vec.MeetsReference)
    {blk : Bytes} {maxHeaderCount : ℕ}
    (h : rootFastHeaders avx2 vec blk maxHeaderCount = some keepAlive) :
    ∃ (fs : List FieldLine) (st : RootFastState), blk = block fs ∧
      fs.foldlM rootStep { keepAlive := true, maxCount := maxHeaderCount } = some st ∧
      st.hosts = 1 ∧ st.keepAlive = keepAlive ∧ fs.length ≤ maxHeaderCount := by
  unfold rootFastHeaders at h
  rcases hf : fields avx2 vec { keepAlive := true, maxCount := maxHeaderCount } blk with _ | st
  · simp [hf] at h
  rw [hf] at h
  dsimp only at h
  split_ifs at h with hh
  obtain ⟨fs, hblk, hfold, hcount⟩ := fields_some hvec hf
  rw [foldlM_rootStep_maxCount hfold] at hcount
  exact ⟨fs, st, hblk, hfold, by simpa using hh, by simpa using h, hcount⟩

variable {buf : Bytes}

theorem rootParse_of_block (hvec : vec.MeetsReference)
    {rest : Bytes} {lineLen maxHeaderCount e : ℕ}
    (he : lineLen + 2 ≤ e) (hterm : buf.drop (e - 2) = crlf ++ rest)
    (h : rootFastHeaders avx2 vec ((buf.take (e - 2)).drop lineLen) maxHeaderCount =
      some keepAlive) : Nonempty (RootParse buf lineLen maxHeaderCount e keepAlive) := by
  obtain ⟨fs, st, hblk, hfold, hhost, hkeep, hcount⟩ := rootFastHeaders_some hvec h
  have hlen : e - 2 ≤ buf.length := by
    have := congrArg length hterm
    rw [length_drop, length_append, crlf, length_cons] at this
    omega
  have htext : buf.drop lineLen = block fs ++ crlf ++ rest := by
    have hsplit : buf = buf.take (e - 2) ++ (crlf ++ rest) := by
      rw [← hterm, take_append_drop]
    conv_lhs => rw [hsplit]
    rw [drop_append_of_le_length (by rw [length_take]; omega), hblk, append_assoc]
  have hcons : e = lineLen + (block fs).length + 2 := by
    have := congrArg length hblk
    rw [length_drop, length_take] at this
    omega
  exact ⟨⟨fs, rest, st, maxHeaderCount, htext, hcons, hfold, hhost, hkeep, Or.inl hcount⟩⟩

theorem findHeaderTerminator_some {start e : ℕ} (h : findHeaderTerminatorBytes avx2 buf start = some e) :
    start + 4 ≤ e ∧ ∃ rest, buf.drop (e - 2) = crlf ++ rest := by
  unfold findHeaderTerminatorBytes at h
  split_ifs at h
  rcases hi : indexCRLFCRLF avx2 (buf.drop start) with _ | i
  · simp [hi] at h
  rw [hi] at h
  have he : start + i + 4 = e := by simpa using h
  change indexPattern avx2 [cr, lf, cr, lf] (buf.drop start) = some i at hi
  rw [indexPattern_eq, firstFrom_eq_some] at hi
  obtain ⟨_, _, hpat, _⟩ := hi
  rw [patternAt, Bool.and_eq_true, decide_eq_true_eq, beq_iff_eq] at hpat
  refine ⟨by omega, buf.drop e, ?_⟩
  have h4 : (buf.drop (start + i)).take 4 = [cr, lf, cr, lf] := by
    rw [← drop_drop]
    exact hpat.2
  have hd : buf.drop (start + i) = [cr, lf, cr, lf] ++ buf.drop e := by
    conv_lhs => rw [← take_append_drop 4 (buf.drop (start + i))]
    rw [h4, drop_drop, he]
  rw [← he, show start + i + 4 - 2 = start + i + 2 by omega, ← drop_drop, hd, he]
  rfl

theorem endsWithHeaderTerminator_drop {lineLen : ℕ} (h : endsWithHeaderTerminator buf lineLen = true) :
    lineLen + 2 ≤ buf.length ∧ buf.drop (buf.length - 2) = crlf ++ [] := by
  unfold endsWithHeaderTerminator at h
  simp only [Bool.and_eq_true, decide_eq_true_eq, beq_iff_eq] at h
  obtain ⟨⟨h1, _⟩, h3⟩ := h
  refine ⟨h1, ?_⟩
  rw [show buf.length - 2 = buf.length - 4 + 2 by omega, ← drop_drop, h3]
  rfl

theorem parsePlainFastRoot_ok (hvec : vec.MeetsReference)
    {lineLen maxHeaderBytes maxHeaderCount consumed : ℕ}
    (h : parsePlainFastRootRequest avx2 vec buf lineLen maxHeaderBytes maxHeaderCount = .ok (consumed, keepAlive)) :
    Nonempty (RootParse buf lineLen maxHeaderCount consumed keepAlive) := by
  unfold parsePlainFastRootRequest at h
  dsimp only at h
  split at h
  · -- the scan of a short buffer, or the block before a final blank line
    rename_i r hfirst
    obtain rfl : r = (consumed, keepAlive) := by simpa using h
    split_ifs at hfirst with hshort hends
    · rcases hs : scanFields { keepAlive := true } buf lineLen with _ | p
      · simp [hs] at hfirst
      obtain ⟨e, st⟩ := p
      rw [hs] at hfirst
      dsimp only at hfirst
      split_ifs at hfirst with hhost
      obtain ⟨fs, rest, htext, _, hfold⟩ := scanFieldsLoop_some hs
      have hres : e = consumed ∧ st.keepAlive = keepAlive := by simpa using hfirst
      have hlen := congrArg length htext
      rw [length_drop, length_append, length_append, crlf, length_cons, length_cons] at hlen
      refine ⟨⟨fs, rest, st, 0, htext, by omega, hfold, by simpa using hhost, hres.2, Or.inr ?_⟩⟩
      omega
    obtain ⟨k, hk, hres⟩ := map_eq_some_iff.mp hfirst
    obtain ⟨rfl, rfl⟩ : buf.length = consumed ∧ k = keepAlive := by simpa using hres
    obtain ⟨hle, hterm⟩ := endsWithHeaderTerminator_drop hends
    exact rootParse_of_block hvec hle hterm hk
  rcases hf : findHeaderTerminatorBytes avx2 buf lineLen with _ | e
  · simp [hf] at h
  rw [hf] at h
  dsimp only at h
  rcases hr : rootFastHeaders avx2 vec ((buf.take (e - 2)).drop lineLen) maxHeaderCount with _ | k
  · simp [hr] at h
  rw [hr] at h
  obtain ⟨rfl, rfl⟩ : e = consumed ∧ k = keepAlive := by simpa using h
  obtain ⟨hle, rest, hterm⟩ := findHeaderTerminator_some hf
  exact rootParse_of_block hvec (by omega) hterm hr

theorem count_lf_block (fs : List FieldLine) : (block fs).count lf = fs.length := by
  induction fs with
  | nil => rfl
  | cons f fs ih =>
    have htext : f.text.count lf = 0 := by
      rw [count_eq_zero]
      intro hmem
      have := f.text_plain lf hmem
      cases this
    have hcrlf : crlf.count lf = 1 := by decide
    rw [block_cons, count_append, ih, FieldLine.bytes, count_append, htext, hcrlf, length_cons]
    omega

theorem parseRequestLine_root (req : Request) : parseRequestLine (ascii "GET / HTTP/1.1") req =
      .ok ({ http10 := false, absoluteHost := none },
        { req with
          method := ascii "GET", path := ascii "/", rawPath := ascii "/", query := [],
          proto := ascii "HTTP/1.1" }) := by
  rfl

theorem rootLine_plain : ∀ c ∈ ascii "GET / HTTP/1.1", isH1Special c = false := by
  have hany : (ascii "GET / HTTP/1.1").any isH1Special = false := by decide
  intro c hc
  exact Bool.eq_false_of_not_eq_true (any_eq_false.mp hany c hc)

theorem RootParse.count_le {maxHeaderCount consumed : ℕ}
    (p : RootParse buf rootPrefixBytes.length maxHeaderCount consumed keepAlive)
    (h : ¬ (consumed > rootFastUncountedHeadLen maxHeaderCount ∧
      scalarRootFieldsExceed buf consumed maxHeaderCount = true)) :
    p.lines.length ≤ maxHeaderCount := by
  rcases p.counted with hc | hc
  · exact hc
  have hcons := p.consumed_eq
  by_cases hlong : consumed > rootFastUncountedHeadLen maxHeaderCount
  · have hblk : (buf.take (consumed - rootFastHeadTerminatorLen)).drop rootPrefixBytes.length = block p.lines := by
      rw [drop_take, p.text, append_assoc, rootFastHeadTerminatorLen,
        show consumed - 2 - rootPrefixBytes.length = (block p.lines).length by omega, take_left]
    have hexc : ¬ scalarRootFieldsExceed buf consumed maxHeaderCount = true := fun he => h ⟨hlong, he⟩
    rw [scalarRootFieldsExceed, hblk, count_lf_block, decide_eq_true hc, Bool.true_and, decide_eq_true_eq] at hexc
    omega
  have := four_mul_length_le_block p.lines
  rw [rootFastUncountedHeadLen, minH1FieldLineBytes, rootFastHeadTerminatorLen] at hlong
  omega

/-- The root shortcut only matches requests that the general parser accepts as a plain
`GET /`, with the same end and the same close flag. -/
theorem matchPlainRootFast_sound (avx2 : Bool) (vec : VectorIndex) (hvec : vec.MeetsReference)
    (s : RootServer) (data : Bytes) (tls : Bool) (req : Request) {resp : Bytes} {consumed : ℕ}
    {closeConn : Bool}
    (h : matchPlainRootFastRequest avx2 vec s data tls = some (resp, consumed, closeConn)) :
    ∃ r, parseH1RequestHead avx2 data req.resetFastH1 s.maxHeaderSize s.maxHeaderCount = r ∧
      r.Accepted ∧ r.req.method = ascii "GET" ∧ r.req.path = ascii "/" ∧ r.req.query = [] ∧
      r.headerEnd = consumed ∧ r.closeConn = closeConn ∧ r.hasContentLength = false ∧
      r.chunkedEncoding = false ∧ r.req.expect = .expectNone := by
  unfold matchPlainRootFastRequest at h
  rcases hfast : s.plainRootFast with _ | fast
  · simp [hfast] at h
  rw [hfast] at h
  dsimp only at h
  split_ifs at h with hprefix
  cases hp : parsePlainFastRootRequest avx2 vec data rootPrefixBytes.length
      (effectiveMaxBytes s.maxHeaderSize) fast.maxHeaderCount with
  | error e => simp [hp] at h
  | ok p =>
    obtain ⟨e, keepAlive⟩ := p
    rw [hp] at h
    dsimp only at h
    split_ifs at h with hlimit
    obtain ⟨_, rfl, rfl⟩ : _ ∧ e = consumed ∧ (!keepAlive) = closeConn := by simpa using h
    obtain ⟨p⟩ := parsePlainFastRoot_ok hvec hp
    simp only [Bool.or_eq_true, Bool.and_eq_true, decide_eq_true_eq, not_or] at hlimit hprefix
    rw [fast.uncounted_eq] at hlimit
    have hcount := (p.count_le hlimit.2).trans_eq (s.count_eq fast hfast)
    have hrel : RootRel { keepAlive := true, maxCount := p.maxCount }
        { req := { req.resetFastH1 with
          method := ascii "GET", path := ascii "/", rawPath := ascii "/", query := [],
          proto := ascii "HTTP/1.1" } } := ⟨rfl, rfl, rfl, rfl, rfl, rfl⟩
    obtain ⟨st, hst, hr⟩ := hrel.run p.walk
    have hcons := p.consumed_eq
    have hlen16 : rootPrefixBytes.length = 16 := by decide
    let shape : HeadShape req.resetFastH1 (effectiveMaxBytes s.maxHeaderSize) (effectiveMaxCount s.maxHeaderCount) :=
      { line := ascii "GET / HTTP/1.1"
        fields := p.lines
        rl := { http10 := false, absoluteHost := none }
        lineReq := _
        st := st
        line_plain := rootLine_plain
        line_ok := parseRequestLine_root _
        fields_ok := hst
        size_ok := by
          rw [show (ascii "GET / HTTP/1.1").length + 2 = 16 by decide]
          omega
        count_ok := hcount }
    have hdata : data = shape.text ++ p.rest := by
      have htake : data.take 16 = rootPrefixBytes := by simpa using hprefix.2
      have htext : data.drop 16 = _ := p.text
      calc data = data.take 16 ++ data.drop 16 := (take_append_drop 16 data).symm
        _ = rootPrefixBytes ++ (block p.lines ++ crlf ++ p.rest) := by rw [htake, htext]
        _ = shape.text ++ p.rest := by
          simp only [HeadShape.text, shape, append_assoc]
          rfl
    have hfinish : shape.result = acceptHead { http10 := false, absoluteHost := none }
        (16 + (block p.lines).length) st := by
      change finishHead _ _ st = _
      rw [finishHead, hr.badTE, hr.chunked, hr.hosts, p.one_host]
      rfl
    have htarget := stepFields_target hst
    simp only [Request.target, Prod.mk.injEq] at htarget
    refine ⟨shape.result, ?_, ?_, ?_⟩
    · have hparse := parse_text avx2 rfl _ _ shape p.rest
      rwa [← hdata] at hparse
    · rw [hfinish]
      exact ⟨rfl, rfl, rfl⟩
    rw [hfinish]
    refine ⟨htarget.1, htarget.2.1, htarget.2.2.2.1, ?_, ?_, hr.hasCL, hr.chunked, hr.expect⟩
    · change 16 + (block p.lines).length + 2 = e
      omega
    rw [acceptHead]
    simp [hr.close, p.keepAlive_eq]

def sampleRootServer : RootServer where
  maxHeaderSize := 0
  maxHeaderCount := 0
  plainRootFast := some
    { getKeepAlive := ascii "keep"
      getClose := ascii "close"
      tlsKeepAlive := none
      tlsClose := []
      maxHeaderCount := defaultMaxHeaderCount
      uncountedHeadLen := rootFastUncountedHeadLen defaultMaxHeaderCount
      uncounted_eq := rfl }
  count_eq := by
    intro f hf
    simp only [Option.some.injEq] at hf
    rw [← hf]
    rfl

def sampleRootRequest : Bytes := ascii "GET / HTTP/1.1\r\nHost: a\r\nConnection: close\r\n\r\nGET"

theorem matchPlainRootFast_sound_sample :
    matchPlainRootFastRequest true h1BlockIndexRef sampleRootServer sampleRootRequest false =
        some (ascii "close", 46, true) ∧
      ∃ r, parseH1RequestHead true sampleRootRequest (Request.resetFastH1 {}) 0 0 = r ∧
        r.Accepted ∧ r.headerEnd = 46 ∧ r.closeConn = true := by
  have hmatch : matchPlainRootFastRequest true h1BlockIndexRef sampleRootServer sampleRootRequest
      false = some (ascii "close", 46, true) := by decide +kernel
  obtain ⟨r, hr, hacc, _, _, _, hend, hclose, _⟩ :=
    matchPlainRootFast_sound true h1BlockIndexRef (fun _ _ => rfl) sampleRootServer sampleRootRequest false {} hmatch
  exact ⟨hmatch, r, hr, hacc, hend, hclose⟩

end AlosHttp.H1

import AlosHttp.H1.HeadGrammar

/-! How the verdict on a request head depends on where the reads cut it. -/
namespace AlosHttp.H1
open AlosHttp.Core Data List

theorem patternAt_append_left (pat a b : Bytes) (j : ℕ) :
    patternAt pat (a ++ b) (a.length + j) = patternAt pat b j := by
  have h1 : (a ++ b).drop (a.length + j) = b.drop j := by
    rw [← drop_drop, drop_left]
  have h2 : (a.length + j + pat.length ≤ (a ++ b).length) = (j + pat.length ≤ b.length) := by
    rw [length_append, eq_iff_iff]
    omega
  rw [patternAt, patternAt, h1]
  simp only [h2]

variable (avx2 : Bool)

theorem indexPattern_skip (pat a b : Bytes) (h : ∀ j < a.length, patternAt (cr :: pat) (a ++ b) j = false) :
    indexPattern avx2 (cr :: pat) (a ++ b) = (indexPattern avx2 (cr :: pat) b).map (a.length + ·) := by
  rw [indexPattern_eq, indexPattern_eq]
  rcases hb : firstFrom (patternAt (cr :: pat) b) 0 b.length with _ | i
  · rw [Option.map_none, firstFrom_eq_none]
    rw [firstFrom_eq_none] at hb
    intro k _ hk
    by_cases hka : k < a.length
    · exact h k hka
    obtain ⟨j, rfl⟩ : ∃ j, k = a.length + j := ⟨k - a.length, by omega⟩
    rw [patternAt_append_left]
    exact hb j (Nat.zero_le _) (by rw [length_append] at hk; omega)
  rw [Option.map_some, firstFrom_eq_some]
  rw [firstFrom_eq_some] at hb
  obtain ⟨_, _, ht, hlow⟩ := hb
  refine ⟨Nat.zero_le _, by rw [length_append]; omega, ?_, ?_⟩
  · rw [patternAt_append_left, ht]
  intro k _ hk
  by_cases hka : k < a.length
  · exact h k hka
  obtain ⟨j, rfl⟩ : ∃ j, k = a.length + j := ⟨k - a.length, by omega⟩
  rw [patternAt_append_left]
  exact hlow j (Nat.zero_le _) (by omega)

theorem patternAt_head {pat b : Bytes} {c : UInt8} {j : ℕ} (h : patternAt (c :: pat) b j = true) : b[j]? = some c := by
  rw [patternAt, Bool.and_eq_true, decide_eq_true_eq, beq_iff_eq] at h
  have h0 := congrArg head? h.2
  rwa [length_cons, head?_take, if_neg (by omega), head?_drop] at h0

theorem patternAt_plain {l b pat : Bytes} (hl : ∀ c ∈ l, isH1Special c = false) {j : ℕ}
    (hj : j < l.length) : patternAt (cr :: pat) (l ++ b) j = false := by
  by_contra h
  rw [Bool.not_eq_false] at h
  have hc := patternAt_head h
  rw [getElem?_append_left hj, getElem?_eq_getElem hj, Option.some.injEq] at hc
  have := hl l[j] (getElem_mem hj)
  rw [hc] at this
  cases this

theorem indexCRLFCRLF_here {l : Bytes} (rest : Bytes) (hl : ∀ c ∈ l, isH1Special c = false) :
    indexCRLFCRLF avx2 (l ++ crlf ++ (crlf ++ rest)) = some l.length := by
  have hskip := indexPattern_skip avx2 [lf, cr, lf] l (crlf ++ (crlf ++ rest)) fun j hj => patternAt_plain hl hj
  have hzero : indexPattern avx2 [cr, lf, cr, lf] (crlf ++ (crlf ++ rest)) = some 0 := by
    rw [indexPattern_eq, firstFrom_eq_some]
    refine ⟨le_refl _, by simp [crlf], ?_, by omega⟩
    simp [patternAt, crlf]
  rw [append_assoc, indexCRLFCRLF]
  change indexPattern avx2 [cr, lf, cr, lf] _ = _
  rw [hskip, hzero]
  rfl

theorem indexCRLFCRLF_next {l b : Bytes} {c : UInt8}
    (hl : ∀ c ∈ l, isH1Special c = false) (hc : isH1Special c = false) :
    indexCRLFCRLF avx2 (l ++ crlf ++ (c :: b)) = (indexCRLFCRLF avx2 (c :: b)).map (l.length + 2 + ·) := by
  have hskip : ∀ j < (l ++ crlf).length, patternAt [cr, lf, cr, lf] (l ++ crlf ++ (c :: b)) j = false := by
    intro j _
    have hlen : (l ++ crlf).length = l.length + 2 := by simp [crlf]
    by_cases h1 : j < l.length
    · rw [append_assoc]
      exact patternAt_plain hl h1
    obtain ⟨k, rfl⟩ : ∃ k, j = l.length + k := ⟨j - l.length, by omega⟩
    rw [append_assoc, patternAt_append_left]
    by_contra h
    rw [Bool.not_eq_false] at h
    have hk : k = 0 ∨ k = 1 := by omega
    rcases hk with rfl | rfl
    · have hcr : c = cr := by
        simp only [patternAt, crlf, Bool.and_eq_true, beq_iff_eq] at h
        simp at h
        exact h.2.1
      rw [hcr] at hc
      cases hc
    have := patternAt_head h
    simp [crlf] at this
    exact absurd this (by decide)
  have := indexPattern_skip avx2 [lf, cr, lf] (l ++ crlf) (c :: b) hskip
  rwa [show (l ++ crlf).length = l.length + 2 by simp [crlf]] at this

theorem indexCRLFCRLF_block {l : Bytes} (hl : ∀ c ∈ l, isH1Special c = false) (fs : List FieldLine) (rest : Bytes) :
    indexCRLFCRLF avx2 (l ++ crlf ++ (block fs ++ crlf ++ rest)) = some (l.length + (block fs).length) := by
  induction fs generalizing l with
  | nil =>
    exact indexCRLFCRLF_here avx2 rest hl
  | cons f fs ih =>
    have hbytes : block (f :: fs) ++ crlf ++ rest = f.text ++ crlf ++ (block fs ++ crlf ++ rest) := by
      rw [block_cons, FieldLine.bytes]
      simp
    rw [hbytes]
    obtain ⟨c, t, ht⟩ : ∃ c t, f.text = c :: t := by
      cases h : f.text with
      | nil =>
        have := f.text_length
        rw [h, length_nil] at this
        omega
      | cons c t => exact ⟨c, t, rfl⟩
    have hc : isH1Special c = false := f.text_plain c (by rw [ht]; exact mem_cons_self)
    have hnext := indexCRLFCRLF_next avx2 (b := t ++ (crlf ++ (block fs ++ crlf ++ rest))) hl hc
    have htail : c :: (t ++ (crlf ++ (block fs ++ crlf ++ rest))) = f.text ++ crlf ++ (block fs ++ crlf ++ rest) := by
      rw [ht]
      simp
    rw [htail] at hnext
    rw [hnext, ih f.text_plain, Option.map_some, block_cons, length_append, f.bytes_length, f.text_length]
    congr 1
    omega

theorem findHeaderTerminator_text {req : Request} {maxBytes maxCount : ℕ}
    (s : HeadShape req maxBytes maxCount) (rest : Bytes) :
    findHeaderTerminatorBytes avx2 (s.text ++ rest) 0 = some s.text.length := by
  have hpos : ¬ 0 ≥ (s.text ++ rest).length := by
    rw [length_append, s.text_length]
    omega
  have hdata : s.text ++ rest = s.line ++ crlf ++ (block s.fields ++ crlf ++ rest) := by
    simp [HeadShape.text]
  rw [findHeaderTerminatorBytes, if_neg hpos, drop_zero, hdata, indexCRLFCRLF_block avx2 s.line_plain, s.text_length]
  simp only [Option.some.injEq]
  omega

/-- What independence of the reads asks of an accepted text: each shorter prefix needs
more bytes, and each text that starts with the head has the same result. -/
def SegmentationIndependent (avx2 : Bool) (data : Bytes) (req : Request)
    (maxHeaderBytes maxHeaderCount : ℤ) : Prop :=
  let parse := fun d => parseH1RequestHead avx2 d req.resetFastH1 maxHeaderBytes maxHeaderCount
  (∀ p, p <+: data → p.length < (parse data).headerEnd → (parse p).NeedsMore) ∧
    ∀ d, data.take (parse data).headerEnd <+: d → parse d = parse data

/-- Reads do not matter to an accepted head, except when its blank line starts exactly at
the size limit: there a read that ends between the last CR and LF is refused. -/
theorem segmentationIndependent_iff (avx2 : Bool) (data : Bytes) (req : Request) (maxHeaderBytes maxHeaderCount : ℤ)
    (h : (parseH1RequestHead avx2 data req.resetFastH1 maxHeaderBytes maxHeaderCount).Accepted) :
    SegmentationIndependent avx2 data req maxHeaderBytes maxHeaderCount ↔
      findHeaderTerminatorBytes avx2 data 0 ≠ some (effectiveMaxBytes maxHeaderBytes + 2) := by
  have hreq : req.resetFastH1.headers = [] := rfl
  obtain ⟨s, rest, rfl⟩ := parse_accepted avx2 hreq maxHeaderBytes maxHeaderCount h
  have hsize := s.size_ok
  have hlen := s.text_length
  have hres := parse_text avx2 hreq maxHeaderBytes maxHeaderCount s
  have hend : s.result.headerEnd = s.text.length := by
    rw [hres] at h
    rw [HeadShape.result, (finishHead_accepted h).2.2.2.2, hlen, acceptHead]
  rw [findHeaderTerminator_text avx2 s rest]
  unfold SegmentationIndependent
  dsimp only
  rw [hres, hend]
  constructor
  · rintro ⟨hpre, _⟩ hmax
    have hmax' : s.text.length = effectiveMaxBytes maxHeaderBytes + 2 := by simpa using hmax
    have hp : s.text.take (s.text.length - 1) <+: s.text := take_prefix _ _
    have hplen : (s.text.take (s.text.length - 1)).length = s.text.length - 1 := by simp
    obtain ⟨r, hr⟩ := parse_cut avx2 hreq maxHeaderBytes maxHeaderCount s hp (by omega)
    have hneed := hpre _ (hp.trans (prefix_append _ _)) (by omega)
    rw [hr, if_pos (by omega)] at hneed
    nomatch hneed.2.2
  intro hmax
  have hmax' : s.text.length ≠ effectiveMaxBytes maxHeaderBytes + 2 := by simpa using hmax
  constructor
  · intro p hp hlt
    have hp' : p <+: s.text := prefix_of_prefix_length_le hp (prefix_append _ _) hlt.le
    obtain ⟨r, hr⟩ := parse_cut avx2 hreq maxHeaderBytes maxHeaderCount s hp' hlt
    rw [hr, if_neg (by omega)]
    exact ⟨rfl, rfl, rfl⟩
  rintro d ⟨t, rfl⟩
  rw [take_left]
  exact hres t

def sampleHead : Bytes := ascii "GET / HTTP/1.1\r\nHost: a\r\n\r\n"

theorem segmentationIndependent_sample : (parseH1RequestHead true sampleHead ({} : Request).resetFastH1 0 0).Accepted ∧
      SegmentationIndependent true sampleHead {} 0 0 := by
  have h : (parseH1RequestHead true sampleHead ({} : Request).resetFastH1 0 0).Accepted := by
    decide +kernel
  exact ⟨h, (segmentationIndependent_iff true sampleHead {} 0 0 h).mpr (by decide +kernel)⟩

/-- The same head under a limit of 25 bytes: whole it is accepted, without its last byte
it is too large. -/
theorem sampleHead_cut_too_large : (parseH1RequestHead true sampleHead ({} : Request).resetFastH1 25 0).Accepted ∧
      (parseH1RequestHead true sampleHead ({} : Request).resetFastH1 25 0).headerEnd = 27 ∧
      (parseH1RequestHead true (sampleHead.take 26) ({} : Request).resetFastH1 25 0).tooLarge = true ∧
      ¬ SegmentationIndependent true sampleHead {} 25 0 := by
  have h1 : (parseH1RequestHead true sampleHead ({} : Request).resetFastH1 25 0).Accepted := by
    decide +kernel
  have h2 : (parseH1RequestHead true sampleHead ({} : Request).resetFastH1 25 0).headerEnd = 27 := by
    decide +kernel
  have h3 : (parseH1RequestHead true (sampleHead.take 26) ({} : Request).resetFastH1 25 0).tooLarge = true := by
    decide +kernel
  refine ⟨h1, h2, h3, fun hs => ?_⟩
  have hneed := hs.1 (sampleHead.take 26) (List.take_prefix _ _) (by rw [h2]; decide)
  rw [hneed.2.2] at h3
  cases h3

end AlosHttp.H1

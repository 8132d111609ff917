import AlosHttp.H1.HeadFields

/-! The heads that the parser accepts: a request line, field lines, a blank line. The header loop folds
the fields of such a text; on a proper prefix it asks for more bytes, unless the size limit is
passed. -/
namespace AlosHttp.H1
open AlosHttp.Core List

/-- A field line of the wire: a token, a colon and a raw value without control bytes. -/
structure FieldLine where
  name : Bytes
  raw : Bytes
  name_ne : name ≠ []
  name_token : ∀ c ∈ name, h1TokenChar c = true
  raw_plain : ∀ c ∈ raw, isH1Special c = false

namespace FieldLine

def text (f : FieldLine) : Bytes := f.name ++ colon :: f.raw

def bytes (f : FieldLine) : Bytes := f.text ++ crlf

def field (f : FieldLine) : Field := (f.name, trimOWS f.raw)

variable (f : FieldLine)

theorem text_length : f.text.length = f.name.length + 1 + f.raw.length := by
  simp [text]
  omega

theorem bytes_length : f.bytes.length = f.name.length + 1 + f.raw.length + 2 := by
  simp [bytes, text_length, crlf]

theorem name_length_pos : 0 < f.name.length := length_pos_iff.mpr f.name_ne

theorem text_plain : ∀ c ∈ f.text, isH1Special c = false := by
  intro c hc
  rw [text, mem_append, mem_cons] at hc
  rcases hc with hc | rfl | hc
  · by_contra hs
    rw [Bool.not_eq_false] at hs
    have := f.name_token c hc
    rw [not_token_of_special hs] at this
    cases this
  · decide
  · exact f.raw_plain c hc

theorem take_text (rest : Bytes) : (f.bytes ++ rest).take f.text.length = f.text := by
  rw [bytes, append_assoc, take_left]

theorem text_take : f.text.take f.name.length = f.name := by
  rw [text, take_left]

theorem text_drop : f.text.drop (f.name.length + 1) = f.raw := by
  rw [text, ← drop_drop, drop_left]
  rfl

end FieldLine

def block (fs : List FieldLine) : Bytes := fs.flatMap FieldLine.bytes

@[simp] theorem block_nil : block [] = [] := rfl

@[simp] theorem block_cons (f : FieldLine) (fs : List FieldLine) : block (f :: fs) = f.bytes ++ block fs := by
  simp [block]

theorem scanLine_spec (avx2 : Bool) (p : Bytes) :
    ∃ safe, scanLine avx2 p = (p.findIdx? isH1Special, firstNonTokenByte p, safe) ∧
      (safe = true → ∀ n e, firstNonTokenByte p = some n → p.findIdx? isH1Special = some e →
        validateHost (trimOWS ((p.take e).drop (n + 1))) = true) := by
  unfold scanLine
  split_ifs with h
  · exact h1HeaderLineScalar_spec p
  refine ⟨false, ?_, by simp⟩
  rw [h1HeaderLineSpecials_eq]

variable {l p : Bytes}

theorem findIdx?_plain_append (rest : Bytes) {c : UInt8} (hl : ∀ c ∈ l, isH1Special c = false)
    (hc : isH1Special c = true) : (l ++ c :: rest).findIdx? isH1Special = some l.length := by
  rw [findIdx?_append, findIdx?_eq_none_iff.mpr hl]
  simp [findIdx?_cons, hc]

open FieldLine

theorem firstNonTokenByte_text (f : FieldLine) (rest : Bytes) :
    firstNonTokenByte (f.text ++ rest) = some f.name.length := by
  have hname : f.name.findIdx? (fun c => !h1TokenChar c) = none := by
    rw [findIdx?_eq_none_iff]
    intro c hc
    simp [f.name_token c hc]
  have hcolon : h1TokenChar colon = false := by decide
  rw [firstNonTokenByte, text, append_assoc, findIdx?_append, hname]
  simp [findIdx?_cons, hcolon]

theorem special_cr : isH1Special cr = true := by decide

theorem classify_crlf (l rest : Bytes) : classifyH1Special (l ++ crlf ++ rest) l.length = (some l.length, false) := by
  have h0 : (l ++ crlf ++ rest)[l.length]? = some cr := by simp [crlf]
  have h1 : (l ++ crlf ++ rest)[l.length + 1]? = some lf := by
    simp [crlf]
  have h2 : ¬ l.length + 1 = (l ++ crlf ++ rest).length := by
    simp [crlf]
  simp only [classifyH1Special, h0, h1, beq_self_eq_true, if_true, beq_iff_eq, h2, if_false]

theorem classifyFirst_line (hl : ∀ c ∈ l, isH1Special c = false) (rest : Bytes) :
    classifyFirstSpecial (l ++ crlf ++ rest) ((l ++ crlf ++ rest).findIdx? isH1Special) = (some l.length, false) := by
  have hsp : (l ++ crlf ++ rest).findIdx? isH1Special = some l.length := by
    rw [append_assoc]
    exact findIdx?_plain_append _ hl special_cr
  rw [hsp]
  exact classify_crlf l rest

theorem classifyFirst_cut (hl : ∀ c ∈ l, isH1Special c = false) (hp : p <+: l ++ [cr]) :
    classifyFirstSpecial p (p.findIdx? isH1Special) = (none, false) := by
  rcases prefix_concat_iff.mp hp with rfl | hp
  · rw [findIdx?_plain_append [] hl special_cr]
    simp [classifyFirstSpecial, classifyH1Special]
  have hsp : p.findIdx? isH1Special = none := by
    rw [findIdx?_eq_none_iff]
    intro c hc
    exact hl c (hp.mem hc)
  rw [hsp]
  rfl

theorem classifyFirst_eq_some {e : ℕ} (h : classifyFirstSpecial p (p.findIdx? isH1Special) = (some e, false)) :
    ∃ l rest, p = l ++ crlf ++ rest ∧ e = l.length ∧ ∀ c ∈ l, isH1Special c = false := by
  rcases hi : p.findIdx? isH1Special with _ | i
  · simp [hi, classifyFirstSpecial] at h
  obtain ⟨_, _, hlow⟩ := findIdx?_eq_some_iff_getElem.mp hi
  rw [hi, classifyFirstSpecial, classifyH1Special] at h
  split_ifs at h with hcr hend hlf
  · simp at h
  · have hei : i = e := by simpa using h
    have hlf' : p[i + 1]? = some lf := by simpa using hlf
    have hcr' : p[i]? = some cr := by simpa using hcr
    obtain ⟨_, hlf'⟩ := List.getElem?_eq_some_iff.mp hlf'
    obtain ⟨_, hcr'⟩ := List.getElem?_eq_some_iff.mp hcr'
    refine ⟨p.take i, p.drop (i + 2), ?_, by simp; omega, ?_⟩
    · have h2 : p.drop (i + 1) = lf :: p.drop (i + 2) := by
        rw [← hlf', getElem_cons_drop]
      have h1 : p.drop i = cr :: lf :: p.drop (i + 2) := by
        rw [← h2, ← hcr', getElem_cons_drop]
      rw [append_assoc]
      change p = p.take i ++ (cr :: lf :: p.drop (i + 2))
      rw [← h1, take_append_drop]
    intro c hc
    obtain ⟨k, hk, rfl⟩ := mem_iff_getElem.mp hc
    have hki : k < i := by
      have : k < min i p.length := by simpa using hk
      omega
    simpa using hlow k hki
  · simp at h
  · simp at h

theorem readLine_field (avx2 : Bool) (f : FieldLine) (rest : Bytes) : ∃ safe, readLine avx2 (f.bytes ++ rest) =
        .field f.name (trimOWS f.raw) f.text.length safe ∧
      (safe = true → validateHost (trimOWS f.raw) = true) := by
  obtain ⟨safe, hscan, hsafe⟩ := scanLine_spec avx2 (f.bytes ++ rest)
  have hsp : (f.bytes ++ rest).findIdx? isH1Special = some f.text.length := by
    rw [bytes, append_assoc]
    exact findIdx?_plain_append _ f.text_plain special_cr
  have hnt : firstNonTokenByte (f.bytes ++ rest) = some f.name.length := by
    rw [bytes, append_assoc]
    exact firstNonTokenByte_text f _
  have hcolon : validH1Colon f.text (some f.name.length) = true := by
    have hpos := f.name_length_pos
    have hlt : f.name.length < f.text.length := by
      rw [f.text_length]
      omega
    have hat : f.text[f.name.length]? = some colon := by simp [text]
    simp only [validH1Colon, hat, hpos, hlt, decide_true, Bool.true_and, beq_self_eq_true]
  have hpos : (f.text.length == 0) = false := by simp [f.text_length]
  refine ⟨safe, ?_, ?_⟩
  · have hclass := classifyFirst_line f.text_plain rest
    rw [← bytes] at hclass
    rw [readLine, hscan]
    simp only [hclass, hnt, hpos, f.take_text, hcolon, f.text_take, f.text_drop, Option.getD_some,
      Bool.not_true, Bool.false_eq_true, if_false]
  intro hs
  have := hsafe hs _ _ hnt hsp
  rwa [f.take_text, f.text_drop] at this

theorem readLine_blank (avx2 : Bool) (rest : Bytes) : readLine avx2 (crlf ++ rest) = .blank := by
  obtain ⟨_, hscan, _⟩ := scanLine_spec avx2 (crlf ++ rest)
  rw [readLine, hscan]
  rfl

theorem readLine_cut (avx2 : Bool) (hl : ∀ c ∈ l, isH1Special c = false)
    (hp : p <+: l ++ [cr]) : readLine avx2 p = .incomplete := by
  obtain ⟨_, hscan, _⟩ := scanLine_spec avx2 p
  rw [readLine, hscan]
  simp [classifyFirst_cut hl hp]

theorem validH1Colon_some {n : Option ℕ} (h : validH1Colon l n = true) :
    ∃ k, n = some k ∧ 0 < k ∧ k < l.length ∧ l[k]? = some colon := by
  rcases n with _ | k
  · simp [validH1Colon] at h
  simp only [validH1Colon, Bool.and_eq_true, decide_eq_true_eq, beq_iff_eq] at h
  exact ⟨k, rfl, h.1.1, h.1.2, h.2⟩

theorem readLine_eq_blank {avx2 : Bool} (h : readLine avx2 p = .blank) : ∃ rest, p = crlf ++ rest := by
  obtain ⟨_, hscan, _⟩ := scanLine_spec avx2 p
  rw [readLine, hscan] at h
  dsimp only at h
  split at h
  · exact LineRead.noConfusion h
  · exact LineRead.noConfusion h
  rename_i e hclass
  obtain ⟨l, rest, hp, he, _⟩ := classifyFirst_eq_some hclass
  split_ifs at h with h0
  · have hl : l = [] := by
      simpa [he] using h0
    exact ⟨rest, by rw [hp, hl, nil_append]⟩

theorem readLine_malformed_ne {avx2 : Bool} {reason : H1RejectReason}
    (h : readLine avx2 p = .malformed reason) : reason ≠ .rejectNone := by
  have hline : ∀ l, h1HeaderLineReject l ≠ .rejectNone := by
    intro l
    unfold h1HeaderLineReject
    split_ifs
    · simp
    · split <;> simp
  unfold readLine at h
  dsimp only at h
  split at h
  · exact LineRead.noConfusion h
  · exact LineRead.noConfusion h
  split_ifs at h
  injection h with h
  exact h ▸ hline _

theorem fieldLine_of_scan {e : ℕ} (hclass : classifyFirstSpecial p (p.findIdx? isH1Special) = (some e, false))
    (hcolon : validH1Colon (p.take e) (firstNonTokenByte p) = true) :
    ∃ f : FieldLine, ∃ rest, p = f.bytes ++ rest ∧ firstNonTokenByte p = some f.name.length ∧ e = f.text.length := by
  obtain ⟨l, rest, hp, he, hl⟩ := classifyFirst_eq_some hclass
  have htake : p.take e = l := by rw [hp, he, append_assoc, take_left]
  rw [htake] at hcolon
  obtain ⟨k, hk, _, _, hat⟩ := validH1Colon_some hcolon
  obtain ⟨_, _, hlow⟩ := findIdx?_eq_some_iff_getElem.mp hk
  obtain ⟨_, hat'⟩ := List.getElem?_eq_some_iff.mp hat
  have htext : l.take k ++ colon :: l.drop (k + 1) = l := by
    rw [← hat', getElem_cons_drop, take_append_drop]
  have hname : (l.take k).length = k := by
    rw [length_take]
    omega
  have htok : ∀ c ∈ l.take k, h1TokenChar c = true := by
    intro c hc
    obtain ⟨j, _, rfl⟩ := mem_iff_getElem.mp hc
    have hpj : p[j]? = l[j]? := by
      rw [hp, append_assoc, getElem?_append_left (by omega)]
    rw [getElem?_eq_getElem (by omega),
      getElem?_eq_getElem (by omega), Option.some.injEq] at hpj
    rw [getElem_take, ← hpj]
    simpa using hlow j (by omega)
  refine ⟨⟨l.take k, l.drop (k + 1), ?_, htok, ?_⟩, rest, ?_, ?_, ?_⟩
  · rw [← length_pos_iff]
    omega
  · intro c hc
    exact hl c ((drop_sublist _ _).mem hc)
  · rw [bytes, text, htext]
    exact hp
  · rw [hk, hname]
  rw [text, htext]
  exact he

theorem readLine_eq_field {avx2 : Bool} {name val : Bytes} {off : ℕ} {safe : Bool}
    (h : readLine avx2 p = .field name val off safe) :
    ∃ f : FieldLine, ∃ rest, p = f.bytes ++ rest ∧ name = f.name ∧ val = trimOWS f.raw ∧ off = f.text.length := by
  obtain ⟨_, hscan, _⟩ := scanLine_spec avx2 p
  rw [readLine, hscan] at h
  dsimp only at h
  split at h
  · exact LineRead.noConfusion h
  · exact LineRead.noConfusion h
  rename_i e hclass
  split_ifs at h with h0 hcolon
  obtain ⟨f, rest, hp, hname, rfl⟩ := fieldLine_of_scan hclass (by simpa using hcolon)
  rw [hname, Option.getD_some, hp, f.take_text, f.text_take, f.text_drop] at h
  injection h with hn hv hoff _
  exact ⟨f, rest, hp, hn.symm, hv.symm, hoff.symm⟩

section loop
variable {avx2 : Bool} {data : Bytes} {maxBytes maxCount : ℕ} {rl : RequestLine}
variable {st st' : HeadState} {fuel pos : ℕ}

theorem headLoop_field {f : FieldLine} {rest : Bytes} (hdata : data.drop pos = f.bytes ++ rest) (hb : pos ≤ maxBytes)
    (hc : st.req.headers.length < maxCount) (hst : stepField st f.field = some st') :
    headLoop avx2 data maxBytes maxCount rl (fuel + 1) pos st =
      headLoop avx2 data maxBytes maxCount rl fuel (pos + f.bytes.length) st' := by
  obtain ⟨safe, hread, hsafe⟩ := readLine_field avx2 f rest
  have hlen := congrArg length hdata
  rw [length_drop, length_append, f.bytes_length] at hlen
  have hcount : ¬ (st.addHeader (f.name, trimOWS f.raw)).req.headers.length > maxCount := by
    simp [HeadState.addHeader]
    omega
  have hfield : headerField f.name (trimOWS f.raw) safe (st.addHeader (f.name, trimOWS f.raw)) = some st' := by
    rw [headerField_hostSafe _ hsafe]
    exact hst
  have hpos : pos + f.text.length + 2 = pos + f.bytes.length := by
    rw [f.bytes_length, f.text_length]
    omega
  rw [headLoop, if_neg (by omega), if_neg (by omega), hdata, hread]
  simp [hcount, hfield, hpos]

theorem drop_add_append {p l rest : Bytes} (h : p.drop pos = l ++ rest) : p.drop (pos + l.length) = rest := by
  rw [← drop_drop, h, drop_left]

theorem headLoop_block {fs : List FieldLine} {rest : Bytes}
    (hdata : data.drop pos = block fs ++ crlf ++ rest) (hb : pos + (block fs).length ≤ maxBytes)
    (hc : st.req.headers.length + fs.length ≤ maxCount)
    (hst : stepFields st (fs.map FieldLine.field) = some st') (hf : data.length < pos + fuel) :
    headLoop avx2 data maxBytes maxCount rl fuel pos st = finishHead rl (pos + (block fs).length) st' := by
  induction fs generalizing fuel pos st with
  | nil =>
    obtain rfl : st = st' := by simpa using hst
    rw [block_nil, nil_append] at hdata
    have hlen := congrArg length hdata
    rw [length_drop, length_append, crlf, length_cons] at hlen
    obtain ⟨fuel, rfl⟩ : ∃ n, fuel = n + 1 := ⟨fuel - 1, by omega⟩
    rw [headLoop, if_neg (by omega), if_neg (by omega), hdata, readLine_blank]
    rfl
  | cons f fs ih =>
    obtain ⟨st₁, h1, h2⟩ := stepFields_cons_some.mp hst
    rw [block_cons, length_append] at hb
    rw [block_cons, append_assoc, append_assoc] at hdata
    have hlen := congrArg length hdata
    have hbl := f.bytes_length
    rw [length_drop, length_append] at hlen
    rw [length_cons] at hc
    obtain ⟨fuel, rfl⟩ : ∃ n, fuel = n + 1 := ⟨fuel - 1, by omega⟩
    have hhead : st₁.req.headers.length = st.req.headers.length + 1 := by
      rw [stepField_headers h1]
      simp
    rw [headLoop_field hdata (by omega) (by omega) h1, block_cons, length_append, ← add_assoc]
    refine ih ?_ (by omega) (by omega) h2 (by omega)
    rw [drop_add_append hdata, append_assoc]

theorem headLoop_incomplete {l : Bytes} (hl : ∀ c ∈ l, isH1Special c = false) (hcut : data.drop pos <+: l ++ [cr])
    (hpos : pos ≤ data.length) (hb : pos ≤ maxBytes) :
    headLoop avx2 data maxBytes maxCount rl (fuel + 1) pos st =
      if data.length > maxBytes then overLimit st.req else needMore st.req := by
  rw [headLoop]
  by_cases h1 : data.length ≤ pos
  · rw [if_pos h1, if_neg (by omega)]
  · rw [if_neg h1, if_neg (by omega), readLine_cut avx2 hl hcut]

theorem headLoop_cut {fs : List FieldLine} (hpre : data.drop pos <+: block fs ++ crlf) (hpos : pos ≤ data.length)
    (hlen : data.length < pos + (block fs).length + 2) (hb : pos + (block fs).length ≤ maxBytes)
    (hc : st.req.headers.length + fs.length ≤ maxCount)
    (hst : stepFields st (fs.map FieldLine.field) = some st') (hf : data.length < pos + fuel) :
    ∃ req, headLoop avx2 data maxBytes maxCount rl fuel pos st =
      if data.length > maxBytes then overLimit req else needMore req := by
  induction fs generalizing fuel pos st with
  | nil =>
    obtain ⟨fuel, rfl⟩ : ∃ n, fuel = n + 1 := ⟨fuel - 1, by omega⟩
    rw [block_nil, length_nil] at hlen hb
    have hcut : data.drop pos <+: [] ++ [cr] := by
      refine prefix_of_prefix_length_le hpre ⟨[lf], rfl⟩ ?_
      rw [length_drop, nil_append, length_singleton]
      omega
    exact ⟨st.req, headLoop_incomplete (by simp) hcut hpos (by omega)⟩
  | cons f fs ih =>
    obtain ⟨fuel, rfl⟩ : ∃ n, fuel = n + 1 := ⟨fuel - 1, by omega⟩
    obtain ⟨st₁, h1, h2⟩ := stepFields_cons_some.mp hst
    have hbl := f.bytes_length
    rw [block_cons, append_assoc] at hpre
    rw [block_cons, length_append] at hlen hb
    rw [length_cons] at hc
    by_cases hfull : pos + f.bytes.length ≤ data.length
    · -- the first line is complete
      obtain ⟨rest, hrest⟩ : ∃ rest, data.drop pos = f.bytes ++ rest := by
        obtain ⟨t, ht⟩ := prefix_of_prefix_length_le (prefix_append f.bytes _) hpre (by rw [length_drop]; omega)
        exact ⟨t, ht.symm⟩
      have hhead : st₁.req.headers.length = st.req.headers.length + 1 := by
        rw [stepField_headers h1]
        simp
      rw [headLoop_field hrest (by omega) (by omega) h1]
      refine ih ?_ hfull (by omega) (by omega) (by omega) h2 (by omega)
      rw [drop_add_append hrest]
      rw [hrest] at hpre
      exact (prefix_append_right_inj _).mp hpre
    have hcut : data.drop pos <+: f.text ++ [cr] := by
      refine prefix_of_prefix_length_le hpre ⟨lf :: (block fs ++ crlf), ?_⟩ ?_
      · rw [FieldLine.bytes, crlf]
        simp
      rw [length_drop, length_append, f.text_length, length_singleton]
      omega
    exact ⟨st.req, headLoop_incomplete f.text_plain hcut hpos (by omega)⟩

theorem headLoop_accepted (h : (headLoop avx2 data maxBytes maxCount rl fuel pos st).Accepted) :
    ∃ fs rest st', data.drop pos = block fs ++ crlf ++ rest ∧ stepFields st (fs.map FieldLine.field) = some st' ∧
      pos + (block fs).length ≤ maxBytes ∧
      (st.req.headers.length ≤ maxCount → st.req.headers.length + fs.length ≤ maxCount) ∧
      headLoop avx2 data maxBytes maxCount rl fuel pos st = finishHead rl (pos + (block fs).length) st' := by
  induction fuel generalizing pos st with
  | zero => simp [headLoop, needMore, HeadResult.Accepted] at h
  | succ fuel ih =>
    by_cases h1 : data.length ≤ pos
    · rw [headLoop, if_pos h1] at h
      simp [needMore, HeadResult.Accepted] at h
    by_cases h2 : pos > maxBytes
    · rw [headLoop, if_neg h1, if_pos h2] at h
      simp [overLimit, HeadResult.Accepted] at h
    rw [headLoop, if_neg h1, if_neg h2] at h ⊢
    cases hr : readLine avx2 (data.drop pos) with
    | bad => simp [hr, rejected, HeadResult.Accepted] at h
    | incomplete =>
      rw [hr] at h
      split_ifs at h <;> simp [overLimit, needMore, HeadResult.Accepted] at h
    | malformed reason =>
      rw [hr] at h
      exact absurd h.2.1 (readLine_malformed_ne hr)
    | blank =>
      obtain ⟨rest, hrest⟩ := readLine_eq_blank hr
      exact ⟨[], rest, st, by simpa using hrest, rfl, by simp; omega, by simp, by simp⟩
    | field name val off safe =>
      obtain ⟨f, rest, hrest, rfl, rfl, rfl⟩ := readLine_eq_field hr
      obtain ⟨safe', hread, hsafe⟩ := readLine_field avx2 f rest
      obtain rfl : safe' = safe := by
        rw [hrest, hread] at hr
        injection hr
      rw [hr] at h
      dsimp only at h ⊢
      rw [headerField_hostSafe _ hsafe] at h ⊢
      split_ifs at h with hcount
      · simp [HeadResult.Accepted] at h
      rw [if_neg hcount]
      have hcount' : st.req.headers.length + 1 ≤ maxCount := by
        simpa [HeadState.addHeader] using hcount
      have hpos : pos + f.text.length + 2 = pos + f.bytes.length := by
        rw [f.bytes_length, f.text_length]
        omega
      rw [hpos] at h ⊢
      have hfold : headerField f.name (trimOWS f.raw) false (st.addHeader (f.name, trimOWS f.raw)) =
          stepField st f.field := rfl
      rw [hfold] at h ⊢
      rcases hst : stepField st f.field with _ | st₁
      · simp [hst, rejected, HeadResult.Accepted] at h
      rw [hst] at h
      obtain ⟨fs, rest', st', hd, hfs, _, _, heq⟩ := ih h
      have hhead : st₁.req.headers.length = st.req.headers.length + 1 := by
        rw [stepField_headers hst]
        simp
      refine ⟨f :: fs, rest', st', ?_, ?_, ?_, ?_, ?_⟩
      · rw [block_cons, hrest, append_assoc, append_assoc, ← append_assoc (block fs), ← hd, drop_add_append hrest]
      · exact stepFields_cons_some.mpr ⟨st₁, hst, hfs⟩
      · rw [block_cons, length_append]
        omega
      · intro _
        rw [length_cons]
        omega
      dsimp only
      rw [heq, block_cons, length_append, add_assoc]

end loop

theorem parseRequestLine_headers {l : Bytes} {req req' : Request} {rl : RequestLine}
    (h : parseRequestLine l req = .ok (rl, req')) : req'.headers = req.headers := by
  unfold parseRequestLine at h
  split at h
  · simp at h
  split at h
  · simp at h
  · simp at h
  dsimp only at h
  split_ifs at h <;> simp only [Except.ok.injEq, Prod.mk.injEq] at h
  all_goals rw [← h.2]

theorem parseRequestLine_reject {l : Bytes} {req req' : Request} {reason : H1RejectReason}
    (h : parseRequestLine l req = .error (reason, req')) : reason ≠ .rejectNone := by
  unfold parseRequestLine at h
  split at h
  · simp only [Except.error.injEq, Prod.mk.injEq] at h
    simp [← h.1]
  split at h
  · simp only [Except.error.injEq, Prod.mk.injEq] at h
    simp [← h.1]
  · simp only [Except.error.injEq, Prod.mk.injEq] at h
    simp [← h.1]
  dsimp only at h
  split_ifs at h <;> simp only [Except.error.injEq, Prod.mk.injEq] at h
  all_goals simp [← h.1]

structure HeadShape (req : Request) (maxBytes maxCount : ℕ) where
  line : Bytes
  fields : List FieldLine
  rl : RequestLine
  lineReq : Request
  st : HeadState
  line_plain : ∀ c ∈ line, isH1Special c = false
  line_ok : parseRequestLine line req = .ok (rl, lineReq)
  fields_ok : stepFields { req := lineReq } (fields.map FieldLine.field) = some st
  size_ok : line.length + 2 + (block fields).length ≤ maxBytes
  count_ok : fields.length ≤ maxCount

namespace HeadShape
variable {req : Request} {maxBytes maxCount : ℕ}

def text (s : HeadShape req maxBytes maxCount) : Bytes := s.line ++ crlf ++ (block s.fields ++ crlf)

def result (s : HeadShape req maxBytes maxCount) : HeadResult :=
  finishHead s.rl (s.line.length + 2 + (block s.fields).length) s.st

theorem text_length (s : HeadShape req maxBytes maxCount) :
    s.text.length = s.line.length + 2 + (block s.fields).length + 2 := by
  simp [text, crlf]
  omega

end HeadShape

@[simp] theorem acceptHead_headers (rl : RequestLine) (nl : ℕ) (st : HeadState) :
    (acceptHead rl nl st).req.headers = st.req.headers := by
  unfold acceptHead
  cases rl.absoluteHost <;> cases rl.http10 <;> rfl

@[simp] theorem acceptHead_proto (rl : RequestLine) (nl : ℕ) (st : HeadState) :
    (acceptHead rl nl st).req.proto = st.req.proto := by
  unfold acceptHead
  cases rl.absoluteHost <;> cases rl.http10 <;> rfl

theorem finishHead_accepted {rl : RequestLine} {nl : ℕ} {st : HeadState} (h : (finishHead rl nl st).Accepted) :
    st.badTransferEncoding = false ∧ ¬ (st.chunkedEncoding = true ∧ (st.hasContentLength = true ∨ rl.http10 = true)) ∧
      st.hostCount ≤ 1 ∧ (st.hostCount = 0 → rl.http10 = true) ∧
      finishHead rl nl st = acceptHead rl nl st := by
  by_cases h1 : (st.badTransferEncoding || st.chunkedEncoding && (st.hasContentLength || rl.http10)) = true
  · rw [finishHead, if_pos h1] at h
    simp [rejected, HeadResult.Accepted] at h
  by_cases h2 : (decide (st.hostCount > 1) || st.hostCount == 0 && !rl.http10) = true
  · rw [finishHead, if_neg h1, if_pos h2] at h
    simp [rejected, HeadResult.Accepted] at h
  have hhost : st.hostCount ≤ 1 ∧ (st.hostCount = 0 → rl.http10 = true) := by simpa using h2
  simp only [Bool.or_eq_true, Bool.and_eq_true, not_or] at h1
  refine ⟨by simpa using h1.1, by simpa using h1.2, hhost.1, hhost.2, ?_⟩
  rw [finishHead, if_neg (by simpa using h1), if_neg h2]

section parse
variable (avx2 : Bool) {req : Request} (hreq : req.headers = []) (maxHeaderBytes maxHeaderCount : ℤ)
include hreq

theorem parse_text (s : HeadShape req (effectiveMaxBytes maxHeaderBytes) (effectiveMaxCount maxHeaderCount))
    (rest : Bytes) :
    parseH1RequestHead avx2 (s.text ++ rest) req maxHeaderBytes maxHeaderCount = s.result := by
  have hdata : s.text ++ rest = s.line ++ crlf ++ (block s.fields ++ crlf ++ rest) := by
    simp [HeadShape.text]
  have hclass := classifyFirst_line s.line_plain (block s.fields ++ crlf ++ rest)
  have htake : (s.line ++ crlf ++ (block s.fields ++ crlf ++ rest)).take s.line.length = s.line := by
    rw [append_assoc, take_left]
  have hdrop : (s.line ++ crlf ++ (block s.fields ++ crlf ++ rest)).drop (s.line.length + 2) =
      block s.fields ++ crlf ++ rest := by
    rw [show s.line.length + 2 = (s.line ++ crlf).length by simp [crlf], drop_left]
  have hheaders : s.lineReq.headers = [] := (parseRequestLine_headers s.line_ok).trans hreq
  rw [parseH1RequestHead, hdata, firstH1Special_eq]
  simp only [hclass, htake, s.line_ok]
  refine headLoop_block hdrop s.size_ok ?_ s.fields_ok ?_
  · simpa [hheaders] using s.count_ok
  · simp [crlf]

theorem parse_accepted {data : Bytes} (h : (parseH1RequestHead avx2 data req maxHeaderBytes maxHeaderCount).Accepted) :
    ∃ (s : HeadShape req (effectiveMaxBytes maxHeaderBytes) (effectiveMaxCount maxHeaderCount))
      (rest : Bytes), data = s.text ++ rest := by
  rw [parseH1RequestHead, firstH1Special_eq] at h
  split at h
  · simp [rejected, HeadResult.Accepted] at h
  · split_ifs at h <;> simp [overLimit, needMore, HeadResult.Accepted] at h
  rename_i idx hclass
  obtain ⟨l, rest, hdata, rfl, hl⟩ := classifyFirst_eq_some hclass
  have htake : data.take l.length = l := by rw [hdata, append_assoc, take_left]
  have hdrop : data.drop (l.length + 2) = rest := by
    rw [hdata, show l.length + 2 = (l ++ crlf).length by simp [crlf], drop_left]
  rw [htake] at h
  split at h
  · rename_i reason req' hline
    exact absurd h.2.1 (parseRequestLine_reject hline)
  rename_i rl lineReq hline
  obtain ⟨fs, rest', st, hd, hfs, hsize, hcount, _⟩ := headLoop_accepted h
  have hheaders : lineReq.headers = [] := (parseRequestLine_headers hline).trans hreq
  have hc : fs.length ≤ effectiveMaxCount maxHeaderCount := by
    simpa [hheaders] using hcount
  refine ⟨⟨l, fs, rl, lineReq, st, hl, hline, hfs, hsize, hc⟩, rest', ?_⟩
  rw [HeadShape.text, append_assoc, ← hd, hdrop]
  exact hdata

theorem parse_cut (s : HeadShape req (effectiveMaxBytes maxHeaderBytes) (effectiveMaxCount maxHeaderCount))
    {p : Bytes} (hp : p <+: s.text) (hlt : p.length < s.text.length) :
    ∃ r, parseH1RequestHead avx2 p req maxHeaderBytes maxHeaderCount =
      if p.length > effectiveMaxBytes maxHeaderBytes then overLimit r else needMore r := by
  rw [s.text_length] at hlt
  by_cases hfull : s.line.length + 2 ≤ p.length
  · obtain ⟨q, hq⟩ : ∃ q, p = s.line ++ crlf ++ q := by
      obtain ⟨q, hq⟩ := prefix_of_prefix_length_le
        (prefix_append (s.line ++ crlf) (block s.fields ++ crlf)) hp (by simp [crlf]; omega)
      exact ⟨q, hq.symm⟩
    have hpre : q <+: block s.fields ++ crlf := by
      rw [hq, HeadShape.text] at hp
      exact (prefix_append_right_inj _).mp hp
    have hclass := classifyFirst_line s.line_plain q
    have htake : p.take s.line.length = s.line := by rw [hq, append_assoc, take_left]
    have hdrop : p.drop (s.line.length + 2) = q := by
      rw [hq, show s.line.length + 2 = (s.line ++ crlf).length by simp [crlf], drop_left]
    have hheaders : s.lineReq.headers = [] := (parseRequestLine_headers s.line_ok).trans hreq
    rw [← hq] at hclass
    rw [parseH1RequestHead, firstH1Special_eq]
    simp only [hclass, htake, s.line_ok]
    refine headLoop_cut ?_ hfull (by omega) s.size_ok ?_ s.fields_ok (by omega)
    · rwa [hdrop]
    · simpa [hheaders] using s.count_ok
  have hcut : p <+: s.line ++ [cr] := by
    refine prefix_of_prefix_length_le hp ⟨lf :: (block s.fields ++ crlf), ?_⟩ ?_
    · simp [HeadShape.text, crlf]
    rw [length_append, length_singleton]
    omega
  refine ⟨req, ?_⟩
  rw [parseH1RequestHead, firstH1Special_eq]
  simp [classifyFirst_cut s.line_plain hcut]

end parse
end AlosHttp.H1

import AlosHttp.Core.Utils

/-! How a client reads one HTTP/1.1 response: RFC 9112 sections 4 to 7, with the message length rules of
section 6.3. A response that ends only with the connection is not read. -/
namespace AlosHttp.Rfc9112
open AlosHttp.Core List

def tchar (c : UInt8) : Bool := (48 ≤ c && c ≤ 57) || (65 ≤ c && c ≤ 90) || (97 ≤ c && c ≤ 122) ||
    (ascii "!#$%&'*+-.^_`|~").contains c

def splitLine : Bytes → Option (Bytes × Bytes)
  | c :: d :: b =>
    if c = cr ∧ d = lf then some ([], b)
    else (splitLine (d :: b)).map fun p => (c :: p.1, p.2)
  | _ => none

/-- The status code of a status line; the length rules only use its number. -/
def readStatusLine (l : Bytes) : Option ℕ :=
  let digits := (l.drop 9).takeWhile isDigit
  if l.take 9 = ascii "HTTP/1.1 " ∧ digits ≠ [] ∧
    ((l.drop 9).dropWhile isDigit).head? = some sp then some (decimalValue digits)
  else none

def readField (l : Bytes) : Option Field :=
  match l.dropWhile tchar with
  | c :: value => if c = colon ∧ l.takeWhile tchar ≠ [] then some (l.takeWhile tchar, trimOWS value)
    else none
  | [] => none

/-- Field lines up to the empty line; every line takes at least two bytes. -/
def readFieldsLoop : ℕ → Bytes → Option (List Field × Bytes)
  | 0, _ => none
  | fuel + 1, b =>
    match splitLine b with
    | none => none
    | some ([], rest) => some ([], rest)
    | some (l, rest) =>
      match readField l with
      | none => none
      | some f => (readFieldsLoop fuel rest).map fun p => (f :: p.1, p.2)

def readFields (b : Bytes) : Option (List Field × Bytes) := readFieldsLoop b.length b

def named (name : Bytes) (f : Field) : Bool := equalFoldASCII f.1 name

def elements (name : Bytes) (fields : List Field) : List Bytes :=
  (fields.filter (named name)).flatMap fun f => (f.2.splitOn comma).map trimOWS

inductive Framing
  | empty
  | chunked
  | length (n : ℕ)
  | untilClose
  | invalid
  deriving DecidableEq, Repr

def isDecimal (v : Bytes) : Bool := !v.isEmpty && v.all isDigit

/-- Responses that never have content: to HEAD, with a 1xx, 204 or 304 status, and the
successful ones to CONNECT. -/
def bodiless (method : Bytes) (status : ℕ) : Bool :=
  method == ascii "HEAD" || (100 ≤ status && status < 200) || status == 204 || status == 304 ||
    (method == ascii "CONNECT" && 200 ≤ status && status < 300)

def framing (method : Bytes) (status : ℕ) (fields : List Field) : Framing :=
  if bodiless method status then .empty
  else
    match (elements (ascii "transfer-encoding") fields).getLast? with
    | some coding => if equalFoldASCII coding (ascii "chunked") then .chunked else .untilClose
    | none =>
      match elements (ascii "content-length") fields with
      | [] => .untilClose
      | v :: vs =>
        if isDecimal v && vs.all (fun w => isDecimal w && decimalValue w == decimalValue v)
        then .length (decimalValue v) else .invalid

def hexDigit (c : UInt8) : Option ℕ :=
  if 48 ≤ c ∧ c ≤ 57 then some (c.toNat - 48)
  else if 97 ≤ c ∧ c ≤ 102 then some (c.toNat - 87)
  else if 65 ≤ c ∧ c ≤ 70 then some (c.toNat - 55)
  else none

def hexValue (digits : Bytes) : ℕ := digits.foldl (fun n c => n * 16 + (hexDigit c).getD 0) 0

def readChunkSize (l : Bytes) : Option ℕ :=
  let digits := l.takeWhile fun c => (hexDigit c).isSome
  if digits = [] then none else some (hexValue digits)

/-- Chunks, the last chunk and the trailer section; every chunk takes at least two bytes. -/
def readChunksLoop : ℕ → Bytes → Option (Bytes × Bytes)
  | 0, _ => none
  | fuel + 1, b =>
    match splitLine b with
    | none => none
    | some (l, rest) =>
      match readChunkSize l with
      | none => none
      | some 0 => (readFields rest).map fun p => ([], p.2)
      | some size =>
        if (rest.drop size).take 2 = crlf then
          (readChunksLoop fuel (rest.drop (size + 2))).map fun p => (rest.take size ++ p.1, p.2)
        else none

def readChunks (b : Bytes) : Option (Bytes × Bytes) := readChunksLoop b.length b

def readBody (framing : Framing) (b : Bytes) : Option (Bytes × Bytes) :=
  match framing with
  | .empty => some ([], b)
  | .length n => if n ≤ b.length then some (b.take n, b.drop n) else none
  | .chunked => readChunks b
  | .untilClose | .invalid => none

structure Message where
  status : ℕ
  fields : List Field
  body : Bytes
  deriving DecidableEq, Repr

/-- The first response in `b` to a request with `method`, and what follows it. -/
def readResponse (method b : Bytes) : Option (Message × Bytes) := do
  let (l, b) ← splitLine b
  let status ← readStatusLine l
  let (fields, b) ← readFields b
  let (body, rest) ← readBody (framing method status fields) b
  return ({ status, fields, body }, rest)

variable {l : Bytes}

theorem splitLine_append (h : cr ∉ l) (rest : Bytes) : splitLine (l ++ crlf ++ rest) = some (l, rest) := by
  induction l with
  | nil => rfl
  | cons c l ih =>
    rw [mem_cons, not_or] at h
    obtain ⟨hc, hl⟩ := h
    have hne : ∃ d t, l ++ crlf ++ rest = d :: t := by
      cases l with
      | nil => exact ⟨cr, lf :: rest, rfl⟩
      | cons d t => exact ⟨d, t ++ crlf ++ rest, rfl⟩
    obtain ⟨d, t, hdt⟩ := hne
    rw [hdt] at ih
    rw [cons_append, cons_append, hdt, splitLine, if_neg (fun hcd => hc hcd.1.symm), ih hl]
    rfl

theorem readStatusLine_render {digits : Bytes} (reason : Bytes) (hne : digits ≠ [])
    (hd : ∀ c ∈ digits, isDigit c = true) :
    readStatusLine (ascii "HTTP/1.1 " ++ digits ++ sp :: reason) = some (decimalValue digits) := by
  have hlen : (ascii "HTTP/1.1 ").length = 9 := by decide
  have hdrop : (ascii "HTTP/1.1 " ++ digits ++ sp :: reason).drop 9 = digits ++ sp :: reason := by
    rw [append_assoc, ← hlen, drop_left]
  have htake : (ascii "HTTP/1.1 " ++ digits ++ sp :: reason).take 9 = ascii "HTTP/1.1 " := by
    rw [append_assoc, ← hlen, take_left]
  have hsp : isDigit sp = false := by decide
  unfold readStatusLine
  rw [hdrop, htake, takeWhile_append_of_pos hd, dropWhile_append_of_pos hd,
    takeWhile_cons_of_neg (by simp [hsp]), dropWhile_cons_of_neg (by simp [hsp]),
    append_nil]
  exact if_pos ⟨rfl, hne, rfl⟩

/-- A field that can stand on a line: the name is a token, the value has no line break. -/
structure FieldOk (f : Field) : Prop where
  name_ne : f.1 ≠ []
  name_token : ∀ c ∈ f.1, tchar c = true
  no_cr : cr ∉ f.2
  no_lf : lf ∉ f.2

def renderField (f : Field) : Bytes := f.1 ++ [colon, sp] ++ f.2 ++ crlf

def renderFields (fields : List Field) : Bytes := fields.flatMap renderField

@[simp] theorem renderFields_nil : renderFields [] = [] := rfl

@[simp] theorem renderFields_cons (f : Field) (fields : List Field) :
    renderFields (f :: fields) = renderField f ++ renderFields fields := flatMap_cons

@[simp] theorem renderFields_append (fields more : List Field) :
    renderFields (fields ++ more) = renderFields fields ++ renderFields more :=
  flatMap_append

def trimField (f : Field) : Field := (f.1, trimOWS f.2)

theorem tchar_ne {c : UInt8} (h : tchar c = true) : c ≠ cr ∧ c ≠ colon := by
  constructor
  · rintro rfl
    revert h
    decide
  rintro rfl
  revert h
  decide

theorem FieldOk.line_no_cr {f : Field} (h : FieldOk f) : cr ∉ f.1 ++ [colon, sp] ++ f.2 := by
  simp only [mem_append, not_or]
  exact ⟨⟨fun hc => (tchar_ne (h.name_token _ hc)).1 rfl, by decide⟩, h.no_cr⟩

theorem readField_render {f : Field} (h : FieldOk f) : readField (f.1 ++ [colon, sp] ++ f.2) = some (trimField f) := by
  have hcolon : tchar colon = false := by decide
  have hows : isOWS sp = true := by decide
  unfold readField
  rw [append_assoc, dropWhile_append_of_pos h.name_token, takeWhile_append_of_pos h.name_token, cons_append,
    dropWhile_cons_of_neg (by simp [hcolon]), takeWhile_cons_of_neg (by simp [hcolon]),
    append_nil]
  dsimp only
  rw [if_pos ⟨rfl, h.name_ne⟩, trimField, trimOWS, trimOWS, cons_append, nil_append, dropWhile_cons_of_pos hows]

variable {fields : List Field}

theorem readFieldsLoop_render (h : ∀ f ∈ fields, FieldOk f) (rest : Bytes)
    {fuel : ℕ} (hfuel : fields.length < fuel) :
    readFieldsLoop fuel (renderFields fields ++ crlf ++ rest) = some (fields.map trimField, rest) := by
  induction fields generalizing fuel with
  | nil =>
    rcases fuel with _ | fuel
    · simp at hfuel
    rfl
  | cons f fields ih =>
    rcases fuel with _ | fuel
    · simp at hfuel
    obtain ⟨hf, hfields⟩ := forall_mem_cons.mp h
    have hline : splitLine (renderFields (f :: fields) ++ crlf ++ rest) =
        some (f.1 ++ [colon, sp] ++ f.2, renderFields fields ++ crlf ++ rest) := by
      rw [renderFields_cons, renderField]
      simpa only [append_assoc] using splitLine_append hf.line_no_cr (renderFields fields ++ crlf ++ rest)
    obtain ⟨c, t, hct⟩ := exists_cons_of_ne_nil (show f.1 ++ [colon, sp] ++ f.2 ≠ [] by simp)
    have hfield := readField_render hf
    rw [hct] at hline hfield
    rw [readFieldsLoop, hline]
    dsimp only
    rw [hfield]
    rw [ih hfields (by simpa using hfuel)]
    rfl

theorem length_le_renderFields (fields : List Field) : fields.length ≤ (renderFields fields).length := by
  induction fields with
  | nil => simp
  | cons f fields ih =>
    rw [renderFields_cons, length_append]
    have : 2 ≤ (renderField f).length := by
      simp only [renderField, crlf, length_append, length_cons]
      omega
    rw [length_cons]
    omega

theorem readFields_render (h : ∀ f ∈ fields, FieldOk f) (rest : Bytes) :
    readFields (renderFields fields ++ crlf ++ rest) = some (fields.map trimField, rest) := by
  apply readFieldsLoop_render h
  have := length_le_renderFields fields
  simp only [length_append, crlf, length_cons]
  omega

theorem readChunksLoop_cons {d : Bytes} (hl : cr ∉ l) (hsize : readChunkSize l = some d.length)
    (hd : d ≠ []) (fuel : ℕ) (b : Bytes) :
    readChunksLoop (fuel + 1) (l ++ crlf ++ d ++ crlf ++ b) = (readChunksLoop fuel b).map fun p => (d ++ p.1, p.2) := by
  obtain ⟨k, hk⟩ := Nat.exists_eq_add_one_of_ne_zero (length_pos_iff.mpr hd).ne'
  have hline : splitLine (l ++ crlf ++ d ++ crlf ++ b) = some (l, d ++ (crlf ++ b)) := by
    simpa only [append_assoc] using splitLine_append hl (d ++ (crlf ++ b))
  rw [readChunksLoop, hline]
  simp only [hsize, hk]
  rw [← hk, drop_left, take_left, ← drop_drop, drop_left]
  rfl

theorem readChunksLoop_last (fuel : ℕ) (rest : Bytes) :
    readChunksLoop (fuel + 1) (ascii "0\r\n\r\n" ++ rest) = some ([], rest) := by
  have hfields : readFields (crlf ++ rest) = some ([], rest) := readFields_render (forall_mem_nil FieldOk) rest
  have hline : splitLine (ascii "0\r\n\r\n" ++ rest) = some ([48], crlf ++ rest) :=
    splitLine_append (l := [48]) (by decide) (crlf ++ rest)
  have hsize : readChunkSize [48] = some 0 := by decide
  rw [readChunksLoop, hline]
  simp only [hsize, hfields, Option.map_some]

theorem readResponse_render (method : Bytes) {status : ℕ}
    (hl : cr ∉ l) (hstatus : readStatusLine l = some status) (hf : ∀ f ∈ fields, FieldOk f)
    {body rest b : Bytes}
    (hbody : readBody (framing method status (fields.map trimField)) b = some (body, rest)) :
    readResponse method (l ++ crlf ++ (renderFields fields ++ crlf ++ b)) =
      some ({ status, fields := fields.map trimField, body }, rest) := by
  unfold readResponse
  rw [splitLine_append hl]
  simp only [Option.bind_eq_bind, Option.bind_some, hstatus, readFields_render hf, hbody]
  rfl

section Elements
variable {name : Bytes} {fields : List Field}

theorem elements_append (name : Bytes) (fields more : List Field) :
    elements name (fields ++ more) = elements name fields ++ elements name more := by
  simp [elements]

theorem elements_eq_nil (h : ∀ f ∈ fields, named name f = false) : elements name (fields.map trimField) = [] := by
  have : (fields.map trimField).filter (named name) = [] := by
    rw [filter_eq_nil_iff]
    intro f hf
    obtain ⟨g, hg, rfl⟩ := mem_map.mp hf
    simpa [named, trimField] using h g hg
  rw [elements, this, flatMap_nil]

variable {v method : Bytes}

theorem trimOWS_free (h : ∀ c ∈ v, isOWS c = false) : trimOWS v = v := by
  have hdrop : v.dropWhile isOWS = v := by
    rw [dropWhile_eq_self_iff]
    intro hl
    simpa using h _ (getElem_mem hl)
  rw [trimOWS, hdrop, rdropWhile_eq_self_iff]
  intro hl
  simpa using h _ (getLast_mem hl)

theorem trimOWS_of_digits (h : ∀ c ∈ v, isDigit c = true) : trimOWS v = v := by
  apply trimOWS_free
  intro c hc
  have := h c hc
  revert this
  exact forall_byte (P := fun c => isDigit c = true → isOWS c = false) (by decide +kernel) c

theorem elements_decimal {f : Field} (hf : named name f = true)
    (hd : ∀ c ∈ f.2, isDigit c = true) : elements name [trimField f] = [f.2] := by
  have hcomma : ∀ c ∈ f.2, (c == comma) = false := by
    intro c hc
    have := hd c hc
    revert this
    exact forall_byte (P := fun c => isDigit c = true → (c == comma) = false) (by decide +kernel) c
  have hn : named name (trimField f) = true := hf
  rw [elements, filter_cons_of_pos hn, filter_nil, flatMap_cons, flatMap_nil,
    append_nil, trimField, trimOWS_of_digits hd, splitOn_eq_singleton_of_beq_eq_false hcomma,
    map_singleton, trimOWS_of_digits hd]

theorem framing_length {status : ℕ} (hb : bodiless method status = false)
    (hte : elements (ascii "transfer-encoding") fields = [])
    (hcl : elements (ascii "content-length") fields = [v]) (hne : v ≠ [])
    (hd : ∀ c ∈ v, isDigit c = true) :
    framing method status fields = .length (decimalValue v) := by
  have hdec : isDecimal v = true := by
    simpa [isDecimal, hne] using hd
  rw [framing, hb, hte, hcl]
  simp [hdec]

theorem framing_chunked {status : ℕ} (hb : bodiless method status = false)
    (hte : elements (ascii "transfer-encoding") fields = [ascii "chunked"]) :
    framing method status fields = .chunked := by
  rw [framing, hb, hte]
  rfl

theorem framing_empty {status : ℕ} (hb : bodiless method status = true)
    (fields : List Field) : framing method status fields = .empty := by
  rw [framing, hb]
  rfl

end Elements
end AlosHttp.Rfc9112

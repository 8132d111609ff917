import AlosHttp.H1.Head

/-! The effect of one header, and of a list of headers, on the variables of the header
loop. Only five names matter to them; every other header at most caches its value. -/
namespace AlosHttp.H1
open AlosHttp.Core
variable (name : Bytes)

theorem nameIs_eq (c : UInt8) (lit : Bytes) (hc : 65 ≤ c ∧ c ≤ 90) :
    nameIs name (c :: lit) = equalFoldASCII name (c :: lit) := by
  cases h : equalFoldASCII name (c :: lit) with
  | false => rw [nameIs, h, Bool.and_false]
  | true =>
    have hlow := (equalFoldASCII_iff _ _).mp h
    rcases name with _ | ⟨d, name⟩
    · simp [toLowerASCII] at hlow
    have hd : asciiLower d = asciiLower c := by
      simp only [toLowerASCII, List.map_cons, List.cons.injEq] at hlow
      exact hlow.1
    have hcases : d = c ∨ d = asciiLower c := by
      by_cases hdu : 65 ≤ d ∧ d ≤ 90
      · left
        rw [asciiLower, if_pos hdu, asciiLower, if_pos hc] at hd
        simpa using hd
      right
      rw [asciiLower, if_neg hdu] at hd
      exact hd
    rw [nameIs, h, Bool.and_true]
    rcases hcases with rfl | hd
    · simp
    · simp [hd]

inductive NameKind where
  | host
  | expect
  | connection
  | contentLength
  | transferEncoding
  | other
  deriving DecidableEq, Repr

def nameKind (name : Bytes) : NameKind :=
  if equalFoldASCII name (ascii "Host") then .host
  else if equalFoldASCII name (ascii "Expect") then .expect
  else if equalFoldASCII name (ascii "Connection") then .connection
  else if equalFoldASCII name (ascii "Content-Length") then .contentLength
  else if equalFoldASCII name (ascii "Transfer-Encoding") then .transferEncoding
  else .other

theorem nameKind_cases : nameKind name = .host ∧ equalFoldASCII name (ascii "Host") = true ∨
    nameKind name = .expect ∧ equalFoldASCII name (ascii "Expect") = true ∨
    nameKind name = .connection ∧ equalFoldASCII name (ascii "Connection") = true ∨
    nameKind name = .contentLength ∧ equalFoldASCII name (ascii "Content-Length") = true ∨
    nameKind name = .transferEncoding ∧ equalFoldASCII name (ascii "Transfer-Encoding") = true ∨
    nameKind name = .other ∧ equalFoldASCII name (ascii "Host") = false ∧
      equalFoldASCII name (ascii "Expect") = false ∧
      equalFoldASCII name (ascii "Connection") = false ∧
      equalFoldASCII name (ascii "Content-Length") = false ∧
      equalFoldASCII name (ascii "Transfer-Encoding") = false := by
  unfold nameKind
  split_ifs with h1 h2 h3 h4 h5 <;> simp [*]

theorem nameIs_host : nameIs name (ascii "Host") = equalFoldASCII name (ascii "Host") :=
  nameIs_eq name 72 (ascii "ost") (by decide)

theorem nameIs_expect : nameIs name (ascii "Expect") = equalFoldASCII name (ascii "Expect") :=
  nameIs_eq name 69 (ascii "xpect") (by decide)

theorem nameIs_connection : nameIs name (ascii "Connection") = equalFoldASCII name (ascii "Connection") :=
  nameIs_eq name 67 (ascii "onnection") (by decide)

theorem nameIs_contentLength : nameIs name (ascii "Content-Length") = equalFoldASCII name (ascii "Content-Length") :=
  nameIs_eq name 67 (ascii "ontent-Length") (by decide)

theorem nameIs_transferEncoding :
    nameIs name (ascii "Transfer-Encoding") = equalFoldASCII name (ascii "Transfer-Encoding") :=
  nameIs_eq name 84 (ascii "ransfer-Encoding") (by decide)

/-- What a header does to the loop state, by the kind of its name; `c` is the new cache. -/
def fieldEffect (val : Bytes) (safe : Bool) (st : HeadState) (c : HeaderCache) : NameKind → Option HeadState
  | .host =>
    if !safe && !validateHost val then none
    else some { st with
      hostCount := st.hostCount + 1, req := { st.req with host := val, cached := c } }
  | .expect => some { st with req := { st.req with expect := classifyExpect st.req.expect val } }
  | .connection => some { st.cache c with
      closeConn := st.closeConn || (connectionOptions val).1,
      keepAliveRequested := st.keepAliveRequested || (connectionOptions val).2 }
  | .contentLength => some (contentLengthField val st)
  | .transferEncoding =>
    if equalFoldASCII val (ascii "chunked") then some { st.cache c with chunkedEncoding := true }
    else some { st.cache c with badTransferEncoding := true }
  | .other => some (st.cache c)

theorem nameIs_other {name a b : Bytes} (h : equalFoldASCII name a = true)
    (hab : toLowerASCII a ≠ toLowerASCII b) : nameIs name b = false := by
  by_contra hn
  rw [Bool.not_eq_false, nameIs, Bool.and_eq_true] at hn
  exact hab (((equalFoldASCII_iff _ _).mp h).symm.trans ((equalFoldASCII_iff _ _).mp hn.2))

theorem headerField_eq (name val : Bytes) (safe : Bool) (st : HeadState) :
    ∃ c, headerField name val safe st = fieldEffect val safe st c (nameKind name) := by
  unfold nameKind
  split_ifs with h1 h2 h3 h4 h5
  · have hl : name.length = 4 := equalFoldASCII_length h1
    exact ⟨_, by simp only [headerField, hl, nameIs_host, h1, if_true]; rfl⟩
  · have hl : name.length = 6 := equalFoldASCII_length h2
    have ho : nameIs name (ascii "Origin") = false := nameIs_other h2 (by decide)
    exact ⟨{}, by simp only [headerField, hl, ho, nameIs_expect, h2, if_true]; rfl⟩
  · have hl : name.length = 10 := equalFoldASCII_length h3
    exact ⟨_, by simp only [headerField, hl, nameIs_connection, h3, if_true]; rfl⟩
  · have hl : name.length = 14 := equalFoldASCII_length h4
    exact ⟨{}, by simp only [headerField, hl, nameIs_contentLength, h4, if_true]; rfl⟩
  · have hl : name.length = 17 := equalFoldASCII_length h5
    exact ⟨_, by simp only [headerField, hl, nameIs_transferEncoding, h5, if_true]; rfl⟩
  unfold headerField
  split
  all_goals try simp only [nameIs_host, nameIs_expect, nameIs_connection, nameIs_contentLength,
    nameIs_transferEncoding, h1, h2, h3, h4, h5, Bool.false_eq_true, if_false]
  all_goals try split_ifs
  all_goals exact ⟨_, rfl⟩

theorem headerField_hostSafe {name val : Bytes} {safe : Bool} (st : HeadState)
    (h : safe = true → validateHost val = true) :
    headerField name val safe st = headerField name val false st := by
  cases safe with
  | false => rfl
  | true =>
    have hv := h rfl
    unfold headerField
    simp only [hv, Bool.not_true, Bool.and_false]

/-- The effect of one header on the loop state, hosts always checked. -/
def stepField (st : HeadState) (f : Field) : Option HeadState := headerField f.1 f.2 false (st.addHeader f)

def stepFields (st : HeadState) (fs : List Field) : Option HeadState := fs.foldlM stepField st

@[simp] theorem stepFields_nil (st : HeadState) : stepFields st [] = some st := rfl

theorem stepFields_cons (st : HeadState) (f : Field) (fs : List Field) :
    stepFields st (f :: fs) = (stepField st f).bind fun st => stepFields st fs := rfl

variable {f : Field} {st st' : HeadState} {fs : List Field}

theorem stepFields_cons_some : stepFields st (f :: fs) = some st' ↔
      ∃ st₁, stepField st f = some st₁ ∧ stepFields st₁ fs = some st' := by
  rw [stepFields_cons, Option.bind_eq_some_iff]

theorem stepField_some (h : stepField st f = some st') :
    ∃ c, fieldEffect f.2 false (st.addHeader f) c (nameKind f.1) = some st' := by
  obtain ⟨c, hc⟩ := headerField_eq f.1 f.2 false (st.addHeader f)
  exact ⟨c, hc ▸ h⟩

@[simp] theorem contentLengthField_req (val : Bytes) (st : HeadState) : (contentLengthField val st).req =
      { st.req with cached := { st.req.cached with cl := some val } } := by
  unfold contentLengthField HeadState.cache
  dsimp only
  split_ifs <;> split <;> (try split_ifs) <;> rfl

theorem stepField_headers (h : stepField st f = some st') : st'.req.headers = st.req.headers ++ [f] := by
  obtain ⟨c, hc⟩ := stepField_some h
  cases hk : nameKind f.1 <;> rw [hk, fieldEffect] at hc
  case contentLength =>
    rw [← Option.some.inj hc, contentLengthField_req, HeadState.addHeader]
  all_goals
    try split_ifs at hc
    all_goals
      cases hc
      rfl

def Request.target (r : Request) : Bytes × Bytes × Bytes × Bytes × Bytes :=
  (r.method, r.path, r.rawPath, r.query, r.proto)

theorem stepField_target (h : stepField st f = some st') : st'.req.target = st.req.target := by
  obtain ⟨c, hc⟩ := stepField_some h
  cases hk : nameKind f.1 <;> rw [hk, fieldEffect] at hc
  case contentLength =>
    rw [← Option.some.inj hc, Request.target, contentLengthField_req]
    rfl
  all_goals
    try split_ifs at hc
    all_goals
      cases hc
      rfl

theorem stepFields_invariant {P : HeadState → Prop} (hstep : ∀ st f st', P st → stepField st f = some st' → P st')
    (h : stepFields st fs = some st') (hp : P st) : P st' := by
  induction fs generalizing st with
  | nil =>
    obtain rfl : st = st' := by simpa using h
    exact hp
  | cons f fs ih =>
    obtain ⟨st₁, h1, h2⟩ := stepFields_cons_some.mp h
    exact ih h2 (hstep st f st₁ hp h1)

theorem stepFields_target (h : stepFields st fs = some st') : st'.req.target = st.req.target :=
  stepFields_invariant (P := fun s => s.req.target = st.req.target)
    (fun _ _ _ hp hs => (stepField_target hs).trans hp) h rfl

end AlosHttp.H1

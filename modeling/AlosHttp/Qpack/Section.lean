import AlosHttp.Hpack.Encoder

/-! Field sections of `qpack.go`, over the static table alone: the encoder's methods and
`DecodeAppend`. A method returns what the source appends to the encoder's buffer. -/
namespace AlosHttp.Qpack
open List Option AlosHttp.Core Hpack

def qpackStaticTable : List Field :=
  [(":authority", ""), (":path", "/"), ("age", "0"), ("content-disposition", ""), ("content-length", "0"),
    ("cookie", ""), ("date", ""), ("etag", ""), ("if-modified-since", ""), ("if-none-match", ""),
    ("last-modified", ""), ("link", ""), ("location", ""), ("referer", ""), ("set-cookie", ""),
    (":method", "CONNECT"), (":method", "DELETE"), (":method", "GET"), (":method", "HEAD"),
    (":method", "OPTIONS"), (":method", "POST"), (":method", "PUT"), (":scheme", "http"), (":scheme", "https"),
    (":status", "103"), (":status", "200"), (":status", "304"), (":status", "404"), (":status", "503"),
    ("accept", "*/*"), ("accept", "application/dns-message"), ("accept-encoding", "gzip, deflate, br"),
    ("accept-ranges", "bytes"), ("access-control-allow-headers", "cache-control"),
    ("access-control-allow-headers", "content-type"), ("access-control-allow-origin", "*"),
    ("cache-control", "max-age=0"), ("cache-control", "max-age=2592000"), ("cache-control", "max-age=604800"),
    ("cache-control", "no-cache"), ("cache-control", "no-store"), ("cache-control", "public, max-age=31536000"),
    ("content-encoding", "br"), ("content-encoding", "gzip"), ("content-type", "application/dns-message"),
    ("content-type", "application/javascript"), ("content-type", "application/json"),
    ("content-type", "application/x-www-form-urlencoded"), ("content-type", "image/gif"),
    ("content-type", "image/jpeg"), ("content-type", "image/png"), ("content-type", "text/css"),
    ("content-type", "text/html; charset=utf-8"), ("content-type", "text/plain"),
    ("content-type", "text/plain;charset=utf-8"), ("range", "bytes=0-"),
    ("strict-transport-security", "max-age=31536000"),
    ("strict-transport-security", "max-age=31536000; includesubdomains"),
    ("strict-transport-security", "max-age=31536000; includesubdomains; preload"), ("vary", "accept-encoding"),
    ("vary", "origin"), ("x-content-type-options", "nosniff"), ("x-xss-protection", "1; mode=block"),
    (":status", "100"), (":status", "204"), (":status", "206"), (":status", "302"), (":status", "400"),
    (":status", "403"), (":status", "421"), (":status", "425"), (":status", "500"), ("accept-language", ""),
    ("access-control-allow-credentials", "FALSE"), ("access-control-allow-credentials", "TRUE"),
    ("access-control-allow-headers", "*"), ("access-control-allow-methods", "get"),
    ("access-control-allow-methods", "get, post, options"), ("access-control-allow-methods", "options"),
    ("access-control-expose-headers", "content-length"), ("access-control-request-headers", "content-type"),
    ("access-control-request-method", "get"), ("access-control-request-method", "post"), ("alt-svc", "clear"),
    ("authorization", ""), ("content-security-policy", "script-src 'none'; object-src 'none'; base-uri 'none'"),
    ("early-data", "1"), ("expect-ct", ""), ("forwarded", ""), ("if-range", ""), ("origin", ""),
    ("purpose", "prefetch"), ("server", ""), ("timing-allow-origin", "*"), ("upgrade-insecure-requests", "1"),
    ("user-agent", ""), ("x-forwarded-for", ""), ("x-frame-options", "deny"),
    ("x-frame-options", "sameorigin")].map fun p => (ascii p.1, ascii p.2)

def encodeQPACKInt (flags prefixBits : UInt8) (val : UInt64) : Bytes := encodeInt flags prefixBits val

def encodeRequiredInsertCount : Bytes := [0x00, 0x00]

def encodeIndexedLarge (idx : ℕ) : Bytes := encodeQPACKInt 0xc0 6 (.ofNat idx)

def encodeQPACKString (s : Bytes) : Bytes :=
  if hpackHuffmanEncodedLen s < s.length then
    encodeQPACKInt 0x80 7 (.ofNat (hpackHuffmanEncodedLen s)) ++ hpackHuffmanAppend [] s
  else encodeQPACKInt 0x00 7 (.ofNat s.length) ++ s

def encodeLiteralWithNameRef (idx : ℕ) (value : Bytes) : Bytes :=
  encodeQPACKInt 0x50 4 (.ofNat idx) ++ encodeQPACKString value

def encodeLiteralName (name : Bytes) : Bytes :=
  if hpackHuffmanEncodedLen name < name.length then
    encodeQPACKInt 0x28 3 (.ofNat (hpackHuffmanEncodedLen name)) ++ hpackHuffmanAppend [] name
  else encodeQPACKInt 0x20 3 (.ofNat name.length) ++ name

def encodeLiteral (name value : Bytes) : Bytes := encodeLiteralName name ++ encodeQPACKString value

/-- The maps hold the first index of a field and of a name; `none` is -1. -/
def qpackFindStaticIndex (name value : Bytes) : Option ℕ := qpackStaticTable.findIdx? (· = (name, value))
def qpackFindStaticNameIndex (name : Bytes) : Option ℕ := qpackStaticTable.findIdx? (·.1 = name)

def qpackStatusIndex (code : ℕ) : Option ℕ :=
  ((qpackStaticTable.zipIdx.filter fun p => p.1.1 = ascii ":status" ∧ parseUint p.1.2 = some code).getLast?).map
    Prod.snd

def encodeStatus (code : Int64) : Bytes :=
  match (if 0 < code ∧ code < 600 then qpackStatusIndex code.toNatClampNeg else none) with
  | some idx => encodeIndexedLarge idx
  | none =>
    match qpackFindStaticNameIndex (ascii ":status") with
    | some nameIdx => encodeLiteralWithNameRef nameIdx (uintDigits code)
    | none => encodeLiteral (ascii ":status") (uintDigits code)

def encodeHeader (name value : Bytes) : Bytes :=
  match qpackFindStaticIndex name value with
  | some idx => encodeIndexedLarge idx
  | none =>
    match qpackFindStaticNameIndex name with
    | some nameIdx => encodeLiteralWithNameRef nameIdx value
    | none => encodeLiteral name value

inductive QpackErr
  | truncated
  | decompression
  | tooManyHeaders
  deriving DecidableEq

def qpackDecodeInt (data : Bytes) (prefixBits : UInt8) : Option (ℕ × ℕ) :=
  let (v, n) := hpackDecodeInt data prefixBits
  if n = 0 then none else some (v.toNat, n)

/-- A length and as many bytes, under `huffman` a Huffman code: the string and the length of all. -/
def readCounted (prefixBits huffman : UInt8) (data : Bytes) : Option (Bytes × ℕ) :=
  match qpackDecodeInt data prefixBits with
  | none => none
  | some (len, n) =>
    if data.length < n + len then none
    else
      let raw := (data.drop n).take len
      (if data.headD 0 &&& huffman ≠ 0 then hpackHuffmanDecode raw else some raw).map fun s => (s, n + len)

def qpackDecodeStringArena (data : Bytes) : Option (Bytes × ℕ) := readCounted 7 0x80 data

def readIndexed (data : Bytes) : Option (Field × ℕ) := do
  let (idx, n) ← qpackDecodeInt data 6
  let f ← qpackStaticTable[idx]?
  some (f, n)

def readNameRef (data : Bytes) : Option (Field × ℕ) := do
  let (nameIdx, n) ← qpackDecodeInt data 4
  let (value, vn) ← qpackDecodeStringArena (data.drop n)
  let f ← qpackStaticTable[nameIdx]?
  some ((f.1, value), n + vn)

def readName (data : Bytes) : Option (Bytes × ℕ) := readCounted 3 0x08 data

def readLiteral (data : Bytes) : Option (Field × ℕ) := do
  let (name, n) ← readName data
  let (value, vn) ← qpackDecodeStringArena (data.drop n)
  some ((name, value), n + vn)

def orTruncated {α : Type} : Option α → Except QpackErr α
  | some a => .ok a
  | none => .error .truncated

def readLine (data : Bytes) : Except QpackErr (Field × ℕ) :=
  let b := data.headD 0
  if b &&& 0x80 ≠ 0 then if b &&& 0x40 = 0 then .error .decompression else orTruncated (readIndexed data)
  else if b &&& 0x40 ≠ 0 then if b &&& 0x10 = 0 then .error .decompression else orTruncated (readNameRef data)
  else if b &&& 0x20 ≠ 0 then orTruncated (readLiteral data)
  else .error .decompression

/-- The loop over the field lines. Each is at least a byte long. -/
def decodeLoop : ℕ → List Field → Bytes → Except QpackErr (List Field)
  | fuel + 1, headers, b :: data =>
    match readLine (b :: data) with
    | .error e => .error e
    | .ok (f, n) =>
      if 128 < headers.length + 1 then .error .tooManyHeaders
      else decodeLoop fuel (headers ++ [f]) ((b :: data).drop n)
  | _, headers, _ => .ok headers

def decodeAppend (data : Bytes) (headers : List Field) : Except QpackErr (List Field) :=
  if data.length < 2 then .error .truncated
  else
    match qpackDecodeInt data 8 with
    | none => .error .truncated
    | some (requiredInsertCount, n) =>
      if requiredInsertCount ≠ 0 then .error .decompression
      else
        match qpackDecodeInt (data.drop n) 7 with
        | none => .error .truncated
        | some (_, sn) =>
          if (data.drop n).headD 0 &&& 0x80 ≠ 0 then .error .decompression
          else decodeLoop data.length headers (data.drop (n + sn))

/-- What is read from some bytes is read from them whatever follows, and is not empty. -/
def Stable {α : Type} (read : Bytes → Option (α × ℕ)) : Prop :=
  ∀ {data : Bytes} {a : α} {n : ℕ}, read data = some (a, n) →
    0 < n ∧ n ≤ data.length ∧ ∀ rest, read (data ++ rest) = some (a, n)

theorem hpackDecodeIntLoop_append (rest data : Bytes) : ∀ (i : ℕ) (m val : UInt64),
    (hpackDecodeIntLoop data i m val).2 ≠ 0 →
      hpackDecodeIntLoop (data ++ rest) i m val = hpackDecodeIntLoop data i m val := by
  induction data with
  | nil => exact fun i m val h => absurd rfl h
  | cons b data ih =>
    intro i m val h
    rw [cons_append, hpackDecodeIntLoop, hpackDecodeIntLoop]
    rw [hpackDecodeIntLoop] at h
    split_ifs at h ⊢ with hbad hlast
    · rfl
    · rfl
    · exact ih _ _ _ h

theorem hpackDecodeInt_append {data : Bytes} {p : UInt8} (h : (hpackDecodeInt data p).2 ≠ 0) (rest : Bytes) :
    hpackDecodeInt (data ++ rest) p = hpackDecodeInt data p := by
  rcases data with _ | ⟨b, data⟩
  · exact absurd rfl h
  rw [cons_append, hpackDecodeInt, hpackDecodeInt]
  rw [hpackDecodeInt] at h
  dsimp only at h ⊢
  split_ifs at h ⊢ with hp hsmall
  · rfl
  · rfl
  · exact hpackDecodeIntLoop_append rest data _ _ _ h

theorem qpackDecodeInt_eq_some {data : Bytes} {p : UInt8} {v n : ℕ} :
    qpackDecodeInt data p = some (v, n) ↔ n ≠ 0 ∧
      ((hpackDecodeInt data p).1.toNat, (hpackDecodeInt data p).2) = (v, n) := by
  unfold qpackDecodeInt
  dsimp only
  split_ifs with h
  · simp only [Prod.mk.injEq, false_iff, not_and]
    rintro _ -
    omega
  simp only [Option.some.injEq, Prod.mk.injEq]
  constructor
  · rintro ⟨rfl, rfl⟩
    exact ⟨h, rfl, rfl⟩
  · exact fun hv => hv.2

theorem stable_int {data : Bytes} {p : UInt8} {v n : ℕ} (h : qpackDecodeInt data p = some (v, n)) :
    0 < n ∧ n ≤ data.length ∧ ∀ rest, qpackDecodeInt (data ++ rest) p = some (v, n) := by
  obtain ⟨hn, heq⟩ := qpackDecodeInt_eq_some.mp h
  obtain ⟨_, rfl⟩ := Prod.mk.inj heq
  refine ⟨Nat.pos_of_ne_zero hn, (hpackDecodeInt_sound rfl hn).1, fun rest => ?_⟩
  rw [qpackDecodeInt_eq_some, hpackDecodeInt_append hn]
  exact ⟨hn, heq⟩

theorem headD_append {data : Bytes} (h : data ≠ []) (rest : Bytes) : (data ++ rest).headD 0 = data.headD 0 := by
  cases data with
  | nil => exact absurd rfl h
  | cons c data => rfl

theorem stable_counted (p huffman : UInt8) : Stable (readCounted p huffman) := by
  intro data s k h
  unfold readCounted at h ⊢
  rcases hint : qpackDecodeInt data p with _ | x
  · rw [hint] at h
    cases h
  obtain ⟨len, n⟩ := x
  obtain ⟨_, hle, happ⟩ := stable_int hint
  rw [hint] at h
  dsimp only at h
  by_cases hlen : data.length < n + len
  · rw [if_pos hlen] at h
    cases h
  rw [if_neg hlen] at h
  obtain ⟨_, hs, hk⟩ := map_eq_some_iff.mp h
  obtain ⟨rfl, rfl⟩ := Prod.mk.inj hk
  refine ⟨by omega, by omega, fun rest => ?_⟩
  have hne : data ≠ [] := ne_nil_of_length_pos (by omega)
  have htake : ((data ++ rest).drop n).take len = (data.drop n).take len := by
    rw [drop_append_of_le_length hle, take_append_of_le_length (by rw [length_drop]; omega)]
  rw [happ]
  dsimp only
  rw [if_neg (by rw [length_append]; omega), headD_append hne, htake, hs]
  rfl

theorem stable_string : Stable qpackDecodeStringArena := stable_counted 7 0x80

theorem stable_seq {α β γ : Type} {r : Bytes → Option (α × ℕ)} {s : Bytes → Option (β × ℕ)}
    {g : α → β → Option γ} {read : Bytes → Option (γ × ℕ)} (hfirst : Stable r) (hsecond : Stable s)
    (heq : ∀ data, read data = (r data).bind fun x => (s (data.drop x.2)).bind fun y =>
      (g x.1 y.1).map fun c => (c, x.2 + y.2)) : Stable read := by
  intro data c k h
  rw [heq] at h
  obtain ⟨⟨a, n⟩, hx, h⟩ := bind_eq_some_iff.mp h
  obtain ⟨⟨b, m⟩, hy, h⟩ := bind_eq_some_iff.mp h
  obtain ⟨_, hg, hk⟩ := map_eq_some_iff.mp h
  obtain ⟨rfl, rfl⟩ := Prod.mk.inj hk
  obtain ⟨_, hnle, happ⟩ := hfirst hx
  obtain ⟨_, hmle, happ'⟩ := hsecond hy
  rw [length_drop] at hmle
  refine ⟨by omega, by omega, fun rest => ?_⟩
  rw [heq, happ, bind_some, drop_append_of_le_length hnle, happ', bind_some, hg]
  rfl

theorem stable_literal : Stable readLiteral :=
  stable_seq (stable_counted 3 0x08) stable_string (g := fun name value => some (name, value)) fun _ => rfl

theorem stable_nameRef : Stable readNameRef := by
  refine stable_seq (r := (qpackDecodeInt · 4)) stable_int stable_string
    (g := fun idx value => (qpackStaticTable[idx]?).map fun f => (f.1, value)) fun data => ?_
  unfold readNameRef
  rcases qpackDecodeInt data 4 with _ | x
  · rfl
  simp only [bind_eq_bind, bind_some]
  cases qpackDecodeStringArena (data.drop x.2) with
  | none => rfl
  | some y =>
    cases qpackStaticTable[x.1]? <;> rfl

theorem stable_indexed : Stable readIndexed := by
  intro _ f n h
  unfold readIndexed at h ⊢
  obtain ⟨⟨_, k⟩, hx, h⟩ := bind_eq_some_iff.mp h
  obtain ⟨_, hf, hk⟩ := bind_eq_some_iff.mp h
  obtain ⟨rfl, rfl⟩ := Prod.mk.inj (Option.some.inj hk)
  obtain ⟨hpos, hle, happ⟩ := stable_int hx
  refine ⟨hpos, hle, fun rest => ?_⟩
  simp only [bind_eq_bind]
  rw [happ, bind_some, hf, bind_some]

theorem readLine_append {data : Bytes} {f : Field} {n : ℕ} (h : readLine data = .ok (f, n)) :
    0 < n ∧ n ≤ data.length ∧ ∀ rest, readLine (data ++ rest) = .ok (f, n) := by
  have hne : data ≠ [] := by
    rintro rfl
    cases h
  have hof {read : Bytes → Option (Field × ℕ)} (hs : Stable read) (hr : orTruncated (read data) = .ok (f, n)) :
      0 < n ∧ n ≤ data.length ∧ ∀ rest, orTruncated (read (data ++ rest)) = .ok (f, n) := by
    rcases hread : read data with _ | x
    · rw [hread] at hr
      cases hr
    rw [hread] at hr
    obtain rfl : x = (f, n) := by simpa [orTruncated] using hr
    obtain ⟨hpos, hle, happ⟩ := hs hread
    refine ⟨hpos, hle, fun rest => ?_⟩
    rw [happ]
    rfl
  unfold readLine at h ⊢
  simp only [headD_append hne]
  dsimp only at h
  split_ifs at h ⊢
  · exact hof stable_indexed h
  · exact hof stable_nameRef h
  · exact hof stable_literal h

structure EncodesLine (enc : Bytes) (f : Field) : Prop where
  ne_nil : enc ≠ []
  read : ∀ rest, readLine (enc ++ rest) = .ok (f, enc.length)

theorem qpackDecodeInt_encode {flags p : UInt8} (h : FlagsFor flags p) (val : UInt64) (rest : Bytes) :
    qpackDecodeInt (encodeQPACKInt flags p val ++ rest) p = some (val.toNat, (encodeQPACKInt flags p val).length) := by
  have hne : (encodeInt flags p val).length ≠ 0 := by
    rw [Ne, length_eq_zero_iff]
    exact encodeInt_ne_nil flags p val
  rw [qpackDecodeInt_eq_some, encodeQPACKInt, hpackDecodeInt_encode h]
  exact ⟨hne, rfl⟩

theorem head_encodeQPACKInt {flags p : UInt8} (h : FlagsFor flags p) (val : UInt64) (rest : Bytes) :
    ∃ low : UInt8, low.toNat < 2 ^ p.toNat ∧ (encodeQPACKInt flags p val ++ rest).headD 0 = flags ||| low := by
  obtain ⟨low, _, hlow, hcons⟩ := encodeInt_cons h val
  refine ⟨low, hlow, ?_⟩
  rw [encodeQPACKInt, hcons]
  rfl

theorem readCounted_encode {flags p huffman : UInt8} (h : FlagsFor flags p)
    (hbit : ∀ low : UInt8, low.toNat < 2 ^ p.toNat → ((flags ||| low) &&& huffman = 0 ↔ flags &&& huffman = 0))
    {raw : Bytes} (hlen : raw.length < 2 ^ 64) (rest : Bytes) :
    readCounted p huffman (encodeQPACKInt flags p (.ofNat raw.length) ++ raw ++ rest) =
      (if flags &&& huffman ≠ 0 then hpackHuffmanDecode raw else some raw).map fun s =>
        (s, (encodeQPACKInt flags p (.ofNat raw.length) ++ raw).length) := by
  have hint := qpackDecodeInt_encode h (.ofNat raw.length) (raw ++ rest)
  obtain ⟨low, hlow, hhead⟩ := head_encodeQPACKInt h (.ofNat raw.length) (raw ++ rest)
  rw [toNat_ofNat_of_lt hlen] at hint
  rw [append_assoc, length_append, readCounted, hint]
  dsimp only
  rw [if_neg (by simp only [length_append]; omega), hhead, drop_left, take_left]
  simp [hbit low hlow]

theorem readCounted_string {flags code p huffman : UInt8} (hf : FlagsFor flags p) (hc : FlagsFor code p)
    (hflags : ∀ low : UInt8, low.toNat < 2 ^ p.toNat → (flags ||| low) &&& huffman = 0)
    (hcode : ∀ low : UInt8, low.toNat < 2 ^ p.toNat → (code ||| low) &&& huffman ≠ 0) {s : Bytes}
    (hs : s.length < 2 ^ 63) (rest : Bytes) :
    let enc := if hpackHuffmanEncodedLen s < s.length then
        encodeQPACKInt code p (.ofNat (hpackHuffmanEncodedLen s)) ++ hpackHuffmanAppend [] s
      else encodeQPACKInt flags p (.ofNat s.length) ++ s
    readCounted p huffman (enc ++ rest) = some (s, enc.length) := by
  have hzero : (0 : UInt8).toNat < 2 ^ p.toNat := Nat.two_pow_pos _
  have hflags0 := hflags 0 hzero
  have hcode0 := hcode 0 hzero
  rw [UInt8.or_zero] at hflags0 hcode0
  dsimp only
  split_ifs with hshort
  · rw [← hpackHuffmanAppend_length] at hshort ⊢
    rw [readCounted_encode hc (fun low hlow => iff_of_false (hcode low hlow) hcode0) (by omega), if_pos hcode0,
      hpackHuffmanDecode_append]
    rfl
  rw [readCounted_encode hf (fun low hlow => iff_of_true (hflags low hlow) hflags0) (by omega),
    if_neg (not_not_intro hflags0)]
  rfl

theorem readString_encode {s : Bytes} (hs : s.length < 2 ^ 63) (rest : Bytes) :
    qpackDecodeStringArena (encodeQPACKString s ++ rest) = some (s, (encodeQPACKString s).length) :=
  readCounted_string (by decide) (by decide)
    (forall_byte (P := fun low => low.toNat < 2 ^ 7 → (0x00 ||| low) &&& 0x80 = 0) (by decide +kernel))
    (forall_byte (P := fun low => low.toNat < 2 ^ 7 → (0x80 ||| low) &&& 0x80 ≠ 0) (by decide +kernel)) hs rest

theorem readName_encode {s : Bytes} (hs : s.length < 2 ^ 63) (rest : Bytes) :
    readName (encodeLiteralName s ++ rest) = some (s, (encodeLiteralName s).length) :=
  readCounted_string (by decide) (by decide)
    (forall_byte (P := fun low => low.toNat < 2 ^ 3 → (0x20 ||| low) &&& 0x08 = 0) (by decide +kernel))
    (forall_byte (P := fun low => low.toNat < 2 ^ 3 → (0x28 ||| low) &&& 0x08 ≠ 0) (by decide +kernel)) hs rest

theorem static_index_lt {idx : ℕ} {f : Field} (h : qpackStaticTable[idx]? = some f) : idx < 99 :=
  (List.getElem?_eq_some_iff.mp h).1

theorem readIndexed_encode {idx : ℕ} {f : Field} (hf : qpackStaticTable[idx]? = some f) (rest : Bytes) :
    readIndexed (encodeIndexedLarge idx ++ rest) = some (f, (encodeIndexedLarge idx).length) := by
  have hidx := static_index_lt hf
  unfold readIndexed encodeIndexedLarge
  rw [qpackDecodeInt_encode (by decide), toNat_ofNat_of_lt (by omega)]
  simp [bind_eq_bind, bind_some, hf]

theorem encodesLine_indexed {idx : ℕ} {f : Field} (hf : qpackStaticTable[idx]? = some f) :
    EncodesLine (encodeIndexedLarge idx) f where
  ne_nil := encodeInt_ne_nil _ _ _
  read rest := by
    obtain ⟨low, hlow, hhead⟩ := @head_encodeQPACKInt 0xc0 6 (by decide) (.ofNat idx) rest
    have hbits : (0xc0 ||| low) &&& 0x80 ≠ 0 ∧ (0xc0 ||| low) &&& 0x40 ≠ 0 :=
      forall_byte (P := fun low => low.toNat < 2 ^ 6 → (0xc0 ||| low) &&& 0x80 ≠ 0 ∧ (0xc0 ||| low) &&& 0x40 ≠ 0)
        (by decide +kernel) low hlow
    rw [readLine, show (encodeIndexedLarge idx ++ rest).headD 0 = 0xc0 ||| low from hhead,
      if_pos hbits.1, if_neg hbits.2,
      readIndexed_encode hf]
    rfl

theorem encodesLine_nameRef {idx : ℕ} {f : Field} (hf : qpackStaticTable[idx]? = some f) {value : Bytes}
    (hvalue : value.length < 2 ^ 63) : EncodesLine (encodeLiteralWithNameRef idx value) (f.1, value) where
  ne_nil := append_ne_nil_of_left_ne_nil (encodeInt_ne_nil _ _ _) _
  read rest := by
    have hidx := static_index_lt hf
    obtain ⟨low, hlow, hhead⟩ := @head_encodeQPACKInt 0x50 4 (by decide) (.ofNat idx) (encodeQPACKString value ++ rest)
    have hbits := forall_byte (P := fun low => low.toNat < 2 ^ 4 →
        (0x50 ||| low) &&& 0x80 = 0 ∧ (0x50 ||| low) &&& 0x40 ≠ 0 ∧ (0x50 ||| low) &&& 0x10 ≠ 0)
        (by decide +kernel) low hlow
    have hread : readNameRef (encodeLiteralWithNameRef idx value ++ rest) =
        some ((f.1, value), (encodeLiteralWithNameRef idx value).length) := by
      unfold readNameRef encodeLiteralWithNameRef
      rw [append_assoc, qpackDecodeInt_encode (by decide), toNat_ofNat_of_lt (by omega)]
      simp only [bind_eq_bind, bind_some, drop_left, readString_encode hvalue, hf, length_append]
    rw [readLine, encodeLiteralWithNameRef, append_assoc, hhead, if_neg (not_not_intro hbits.1), if_pos hbits.2.1,
      if_neg hbits.2.2, ← append_assoc, ← encodeLiteralWithNameRef, hread]
    rfl

theorem encodesLine_literal {name value : Bytes} (hname : name.length < 2 ^ 63) (hvalue : value.length < 2 ^ 63) :
    EncodesLine (encodeLiteral name value) (name, value) := by
  have hhead (rest : Bytes) :
      ∃ low : UInt8, low.toNat < 2 ^ 4 ∧ (encodeLiteral name value ++ rest).headD 0 = 0x20 ||| low := by
    unfold encodeLiteral encodeLiteralName
    split_ifs with hshort
    · obtain ⟨low, hlow, h⟩ := @head_encodeQPACKInt 0x28 3 (by decide) (.ofNat (hpackHuffmanEncodedLen name))
        (hpackHuffmanAppend [] name ++ (encodeQPACKString value ++ rest))
      refine ⟨0x08 ||| low, ?_, ?_⟩
      · exact forall_byte (P := fun low => low.toNat < 2 ^ 3 → (0x08 ||| low).toNat < 2 ^ 4)
          (by decide +kernel) low hlow
      rw [← UInt8.or_assoc, append_assoc, append_assoc]
      exact h
    obtain ⟨low, hlow, h⟩ := @head_encodeQPACKInt 0x20 3 (by decide) (.ofNat name.length)
      (name ++ (encodeQPACKString value ++ rest))
    refine ⟨low, hlow.trans (by decide), ?_⟩
    rw [append_assoc, append_assoc]
    exact h
  refine ⟨?_, fun rest => ?_⟩
  · apply append_ne_nil_of_left_ne_nil
    unfold encodeLiteralName
    split_ifs
    all_goals exact append_ne_nil_of_left_ne_nil (encodeInt_ne_nil _ _ _) _
  obtain ⟨low, hlow, hh⟩ := hhead rest
  have hbits := forall_byte (P := fun low => low.toNat < 2 ^ 4 →
      (0x20 ||| low) &&& 0x80 = 0 ∧ (0x20 ||| low) &&& 0x40 = 0 ∧ (0x20 ||| low) &&& 0x20 ≠ 0)
      (by decide +kernel) low hlow
  have hread : readLiteral (encodeLiteral name value ++ rest) =
      some ((name, value), (encodeLiteral name value).length) := by
    unfold readLiteral encodeLiteral
    rw [append_assoc, readName_encode hname]
    simp [readString_encode hvalue]
  rw [readLine, hh, if_neg (not_not_intro hbits.1), if_neg (not_not_intro hbits.2.1), if_pos hbits.2.2, hread]
  rfl

theorem findIdx_some {p : Field → Bool} {idx : ℕ} (h : qpackStaticTable.findIdx? p = some idx) :
    ∃ f, qpackStaticTable[idx]? = some f ∧ p f = true := by
  obtain ⟨hlt, hp, -⟩ := findIdx?_eq_some_iff_getElem.mp h
  exact ⟨_, getElem?_eq_getElem hlt, hp⟩

theorem encodeHeader_encodes {name value : Bytes} (hname : name.length < 2 ^ 63) (hvalue : value.length < 2 ^ 63) :
    EncodesLine (encodeHeader name value) (name, value) := by
  unfold encodeHeader
  cases hfull : qpackFindStaticIndex name value with
  | some idx =>
    obtain ⟨f, hf, heq⟩ := findIdx_some hfull
    obtain rfl : f = (name, value) := of_decide_eq_true heq
    exact encodesLine_indexed hf
  | none =>
    cases hidx : qpackFindStaticNameIndex name with
    | some idx =>
      obtain ⟨f, hf, heq⟩ := findIdx_some hidx
      obtain rfl : f.1 = name := of_decide_eq_true heq
      exact encodesLine_nameRef hf hvalue
    | none => exact encodesLine_literal hname hvalue

theorem static_status : ∀ f ∈ qpackStaticTable, f.1 = ascii ":status" →
    (parseUint f.2).all (fun code => f.2 = uintDigits (.ofNat code)) = true := by
  decide +kernel

theorem encodeStatus_encodes (code : Int64) : EncodesLine (encodeStatus code) (ascii ":status", uintDigits code) := by
  have hname : qpackFindStaticNameIndex (ascii ":status") = some 24 := by decide +kernel
  have hstatic : qpackStaticTable[24]? = some (ascii ":status", ascii "103") := by decide +kernel
  unfold encodeStatus
  cases hidx : (if 0 < code ∧ code < 600 then qpackStatusIndex code.toNatClampNeg else none) with
  | none =>
    rw [hname]
    exact encodesLine_nameRef hstatic (uintDigits_length_lt code)
  | some idx =>
    split_ifs at hidx with hcode
    obtain ⟨p, hlast, rfl⟩ := map_eq_some_iff.mp hidx
    obtain ⟨hmem, hp⟩ := mem_filter.mp (mem_of_getLast? hlast)
    obtain ⟨hstatus, hparse⟩ := of_decide_eq_true hp
    have hf := mem_zipIdx_iff_getElem?.mp hmem
    have hdigits := static_status p.1 (mem_of_getElem? hf) hstatus
    rw [hparse] at hdigits
    have hcast := Int64.ofNat_toNatClampNeg code (Int64.le_of_lt hcode.1)
    have hvalue : p.1.2 = uintDigits code := by
      rw [← hcast]
      exact of_decide_eq_true hdigits
    obtain ⟨⟨name, value⟩, idx⟩ := p
    obtain rfl : name = ascii ":status" := hstatus
    obtain rfl : value = uintDigits code := hvalue
    exact encodesLine_indexed hf

inductive QpackCall
  | header (name value : GoString)
  | status (code : Int64)

def QpackCall.encode : QpackCall → Bytes
  | header name value => encodeHeader name.bytes value.bytes
  | status code => encodeStatus code

def QpackCall.field : QpackCall → Field
  | header name value => (name.bytes, value.bytes)
  | status code => (ascii ":status", uintDigits code)

theorem QpackCall.encode_encodes (call : QpackCall) : EncodesLine call.encode call.field := by
  cases call with
  | header name value => exact encodeHeader_encodes name.length_lt value.length_lt
  | status code => exact encodeStatus_encodes code

def linesOf (calls : List QpackCall) : Bytes := calls.flatMap QpackCall.encode

def sectionOf (calls : List QpackCall) : Bytes := encodeRequiredInsertCount ++ linesOf calls

theorem EncodesLine.cut {enc : Bytes} {f : Field} (h : EncodesLine enc f) {data rest : Bytes}
    (hcut : enc = data ++ rest)
    (hrest : rest ≠ []) : ∃ e, readLine data = .error e := by
  rcases hread : readLine data with e | x
  · exact ⟨e, rfl⟩
  obtain ⟨g, n⟩ := x
  obtain ⟨-, _, happ⟩ := readLine_append hread
  have hfull := h.read []
  rw [hcut, append_nil, happ rest] at hfull
  have hn := (Prod.mk.inj (Except.ok.inj hfull)).2
  have hpos := length_pos_of_ne_nil hrest
  rw [length_append] at hn
  omega

theorem decodeLoop_line {enc : Bytes} {f : Field} (h : EncodesLine enc f) (fuel : ℕ)
    (headers : List Field) (rest : Bytes) :
    decodeLoop (fuel + 1) headers (enc ++ rest) =
      if 128 < headers.length + 1 then .error .tooManyHeaders else decodeLoop fuel (headers ++ [f]) rest := by
  have hread := h.read rest
  have hdrop : (enc ++ rest).drop enc.length = rest := drop_left
  rcases hcons : enc ++ rest with _ | ⟨b, data⟩
  · exact absurd (append_eq_nil_iff.mp hcons).1 h.ne_nil
  rw [hcons] at hread hdrop
  rw [decodeLoop, hread]
  dsimp only
  rw [hdrop]

theorem decodeLoop_nil (fuel : ℕ) (headers : List Field) : decodeLoop fuel headers [] = .ok headers := by
  cases fuel <;> rfl

inductive EncodesLines : Bytes → List Field → Prop
  | nil : EncodesLines [] []
  | cons {enc rest : Bytes} {f : Field} {fields : List Field} :
      EncodesLine enc f → EncodesLines rest fields → EncodesLines (enc ++ rest) (f :: fields)

theorem EncodesLine.lines {enc : Bytes} {f : Field} (h : EncodesLine enc f) : EncodesLines enc [f] := by
  have hone := EncodesLines.cons h .nil
  rw [append_nil] at hone
  exact hone

theorem EncodesLines.append {a b : Bytes} {fields more : List Field} (ha : EncodesLines a fields)
    (hb : EncodesLines b more) : EncodesLines (a ++ b) (fields ++ more) := by
  induction ha with
  | nil => exact hb
  | cons hline _ ih =>
    rw [append_assoc]
    exact .cons hline ih

theorem EncodesLines.decodeLoop {lines : Bytes} {fields : List Field} (h : EncodesLines lines fields) :
    ∀ {fuel : ℕ} (headers : List Field), lines.length ≤ fuel → headers.length ≤ 128 →
      Qpack.decodeLoop fuel headers lines =
        if headers.length + fields.length ≤ 128 then .ok (headers ++ fields) else .error .tooManyHeaders := by
  induction h with
  | nil =>
    intro fuel headers _ hlen
    rw [decodeLoop_nil, if_pos (by simpa using hlen), append_nil]
  | @cons enc rest f fields henc _ ih =>
    intro fuel headers hfuel hlen
    have hpos := length_pos_of_ne_nil henc.ne_nil
    rw [length_append] at hfuel
    obtain ⟨fuel, rfl⟩ : ∃ n, fuel = n + 1 := ⟨fuel - 1, by omega⟩
    rw [decodeLoop_line henc, length_cons]
    by_cases hmany : 128 < headers.length + 1
    · rw [if_pos hmany, if_neg (by omega)]
    rw [if_neg hmany, ih (headers ++ [f]) (by omega) (by rw [length_append, length_singleton]; omega),
      length_append, length_singleton, append_assoc]
    exact if_congr (by omega) rfl rfl

variable (calls : List QpackCall)
open QpackCall

theorem linesOf_encodes : EncodesLines (linesOf calls) (calls.map field) := by
  induction calls with
  | nil => exact .nil
  | cons call calls ih => exact .cons call.encode_encodes ih

theorem decodeLoop_linesOf {fuel : ℕ} (headers : List Field)
    (hfuel : (linesOf calls).length ≤ fuel) (hlen : headers.length ≤ 128) :
    decodeLoop fuel headers (linesOf calls) =
      if headers.length + calls.length ≤ 128 then .ok (headers ++ calls.map field)
      else .error .tooManyHeaders := by
  rw [(linesOf_encodes calls).decodeLoop headers hfuel hlen, length_map]

theorem decodeLoop_cut : ∀ {fuel : ℕ} {headers fields : List Field} {data rest : Bytes},
    data.length ≤ fuel → linesOf calls = data ++ rest → decodeLoop fuel headers data = .ok fields →
      ∃ k, k ≤ calls.length ∧ data = linesOf (calls.take k) ∧ fields = headers ++ (calls.take k).map field := by
  induction calls with
  | nil =>
    intro fuel headers fields data rest _ hcut hdec
    obtain ⟨rfl, -⟩ := append_eq_nil_iff.mp hcut.symm
    rw [decodeLoop_nil] at hdec
    exact ⟨0, Nat.le_refl _, rfl, by simpa using (Except.ok.inj hdec).symm⟩
  | cons call calls ih =>
    intro fuel headers fields data rest hfuel hcut hdec
    have henc := call.encode_encodes
    rcases data with _ | ⟨b, data⟩
    · rw [decodeLoop_nil] at hdec
      exact ⟨0, Nat.zero_le _, rfl, by simpa using (Except.ok.inj hdec).symm⟩
    have hsplit : (∃ tail, b :: data = call.encode ++ tail ∧ linesOf calls = tail ++ rest) ∨
        ∃ tail, tail ≠ [] ∧ call.encode = b :: data ++ tail := by
      obtain ⟨tail, hdata, hrest⟩ | ⟨tail, henc', hrest⟩ := append_eq_append_iff.mp hcut
      · exact .inl ⟨tail, hdata, hrest⟩
      obtain rfl | hne := eq_or_ne tail []
      · exact .inl ⟨[], by rw [henc', append_nil, append_nil], hrest.symm⟩
      · exact .inr ⟨tail, hne, henc'⟩
    obtain ⟨tail, hdata, hrest⟩ | ⟨tail, hne, henc'⟩ := hsplit
    · -- The first line is whole.
      have hpos := length_pos_of_ne_nil henc.ne_nil
      rw [hdata, length_append] at hfuel
      obtain ⟨fuel, rfl⟩ : ∃ n, fuel = n + 1 := ⟨fuel - 1, by omega⟩
      rw [hdata, decodeLoop_line henc] at hdec
      split_ifs at hdec
      obtain ⟨k, hk, htail, hfields⟩ := ih (by omega) hrest hdec
      refine ⟨k + 1, Nat.succ_le_succ hk, ?_, ?_⟩
      · rw [hdata, htail]
        rfl
      rw [hfields, append_assoc]
      rfl
    · -- The cut is in the first line.
      obtain ⟨e, he⟩ := henc.cut henc' hne
      rw [length_cons] at hfuel
      obtain ⟨fuel, rfl⟩ : ∃ n, fuel = n + 1 := ⟨fuel - 1, by omega⟩
      rw [decodeLoop, he] at hdec
      cases hdec

theorem decodeAppend_prefix (lines : Bytes) (headers : List Field) :
    decodeAppend (encodeRequiredInsertCount ++ lines) headers = decodeLoop (lines.length + 2) headers lines := by
  have hcount (data : Bytes) : qpackDecodeInt (0x00 :: data) 8 = some (0, 1) := rfl
  change decodeAppend (0x00 :: 0x00 :: lines) headers = _
  rw [decodeAppend, if_neg (by simp), hcount]
  exact if_neg (show ¬ ((0x00 : UInt8) &&& 0x80 ≠ 0) by decide)

/-- A section of up to 128 fields is decoded to these fields, one of more is refused. A proper part of a
section is accepted only if it ends between two lines, and is then decoded to the fields before. -/
theorem qpack_section_round_trip (calls : List QpackCall) : decodeAppend (sectionOf calls) [] =
        (if calls.length ≤ 128 then .ok (calls.map QpackCall.field) else .error .tooManyHeaders) ∧
      ∀ n < (sectionOf calls).length, ∀ fields, decodeAppend ((sectionOf calls).take n) [] = .ok fields →
        ∃ k < calls.length, n = (sectionOf (calls.take k)).length ∧ fields = (calls.map QpackCall.field).take k := by
  constructor
  · rw [sectionOf, decodeAppend_prefix, decodeLoop_linesOf calls [] (by omega) (Nat.zero_le _), length_nil,
      Nat.zero_add, nil_append]
  intro n hn fields hdec
  by_cases hshort : n < 2
  · have hlen : ((sectionOf calls).take n).length < 2 := by
      rw [length_take]
      omega
    rw [decodeAppend, if_pos hlen] at hdec
    cases hdec
  obtain ⟨m, rfl⟩ : ∃ m, n = m + 2 := ⟨n - 2, by omega⟩
  have htake : (sectionOf calls).take (m + 2) = encodeRequiredInsertCount ++ (linesOf calls).take m := rfl
  have hsplit : linesOf calls = (linesOf calls).take m ++ (linesOf calls).drop m := (take_append_drop _ _).symm
  have hlen (calls : List QpackCall) : (sectionOf calls).length = (linesOf calls).length + 2 := rfl
  rw [htake, decodeAppend_prefix] at hdec
  obtain ⟨k, _, hdata, hfields⟩ := decodeLoop_cut calls (by omega) hsplit hdec
  have hm : m = (linesOf (calls.take k)).length := by
    rw [← hdata, length_take]
    rw [hlen] at hn
    omega
  refine ⟨k, ?_, by rw [hlen, hm], by rw [hfields, map_take, nil_append]⟩
  by_contra hge
  rw [take_of_length_le (by omega)] at hm
  rw [hlen] at hn
  omega

theorem upperCaseName_lt : (ascii "A").length < 2 ^ 63 := by decide

theorem upperCaseValue_lt : (ascii "1").length < 2 ^ 63 := by decide

def upperCaseField : QpackCall := .header ⟨ascii "A", upperCaseName_lt⟩ ⟨ascii "1", upperCaseValue_lt⟩

theorem qpack_section_round_trip_sample : decodeAppend (sectionOf [.status 200, upperCaseField]) [] =
      .ok [(ascii ":status", ascii "200"), (ascii "A", ascii "1")] := by
  have h := (qpack_section_round_trip [.status 200, upperCaseField]).1
  have hfields : [status 200, upperCaseField].map field =
      [(ascii ":status", ascii "200"), (ascii "A", ascii "1")] := by decide +kernel
  rw [hfields] at h
  exact h

theorem qpack_upper_case_and_cut_accepted :
    decodeAppend (sectionOf [upperCaseField]) [] = .ok [(ascii "A", ascii "1")] ∧
      decodeAppend ((sectionOf [upperCaseField]).take 2) [] = .ok [] ∧ 2 < (sectionOf [upperCaseField]).length := by
  decide +kernel

end AlosHttp.Qpack

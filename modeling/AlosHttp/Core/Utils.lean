import Mathlib.Data.List.DropRight
import Mathlib.Tactic

/-! Byte strings and the shared helpers of `utils.go` and `websocket.go`. Go slices
and strings are byte lists; an index result of -1 is `none`. -/
namespace AlosHttp

abbrev Bytes := List UInt8

/-- A header field as the source keeps it: name and value. -/
abbrev Field := Bytes × Bytes

def ascii (s : String) : Bytes := s.toList.map fun c => UInt8.ofNat c.toNat

theorem forall_byte {P : UInt8 → Prop} (h : ∀ n : Fin 256, P (UInt8.ofNat n.val)) (c : UInt8) : P c := by
  have := h ⟨c.toNat, c.toNat_lt⟩
  simpa using this

theorem byte_or_eq_zero {a b : UInt8} : a ||| b = 0 ↔ a = 0 ∧ b = 0 := by
  constructor
  · intro h
    have h' := congrArg UInt8.toNat h
    have ha : a.toNat = 0 := by
      have := Nat.left_le_or (n := a.toNat) (m := b.toNat); simp at h'; omega
    have hb : b.toNat = 0 := by
      have := Nat.right_le_or (n := a.toNat) (m := b.toNat); simp at h'; omega
    exact ⟨UInt8.toNat_inj.mp ha, UInt8.toNat_inj.mp hb⟩
  · rintro ⟨rfl, rfl⟩; rfl

theorem byte_or_and_eq_zero {a b m : UInt8} : (a ||| b) &&& m = 0 ↔ a &&& m = 0 ∧ b &&& m = 0 := by
  have hdist : (a ||| b) &&& m = (a &&& m) ||| (b &&& m) := by
    apply UInt8.eq_of_toBitVec_eq
    ext i
    simp [Bool.and_or_distrib_right]
  rw [hdist, byte_or_eq_zero]

namespace Core

def cr : UInt8 := 13
def lf : UInt8 := 10
def sp : UInt8 := 32
def htab : UInt8 := 9
def colon : UInt8 := 58
def slash : UInt8 := 47
def comma : UInt8 := 44

def crlf : Bytes := [cr, lf]

def asciiLower (c : UInt8) : UInt8 :=
  if 65 ≤ c ∧ c ≤ 90 then c + 0x20 else c

/-- Lower-case copy of a byte string; the source's table of common names holds the same
values. -/
def toLowerASCII (s : Bytes) : Bytes := s.map asciiLower

def foldLoop : Bytes → Bytes → Bool
  | a :: as, b :: bs => if asciiLower a != asciiLower b then false else foldLoop as bs
  | _, _ => true

def equalFoldASCII (a b : Bytes) : Bool :=
  if a == b then true
  else if a.length != b.length then false
  else foldLoop a b

def asciiEqualFoldBytes (line value : Bytes) : Bool :=
  if line.length != value.length then false else foldLoop line value

theorem foldLoop_iff {a b : Bytes} (h : a.length = b.length) :
    foldLoop a b = true ↔ toLowerASCII a = toLowerASCII b := by
  induction a generalizing b with
  | nil =>
    cases b with
    | nil => simp [foldLoop, toLowerASCII]
    | cons y ys => simp at h
  | cons x xs ih =>
    rcases b with _ | ⟨y, ys⟩
    · simp at h
    have hl : xs.length = ys.length := by simpa using h
    by_cases hxy : asciiLower x = asciiLower y
    · simpa [foldLoop, toLowerASCII, hxy] using ih hl
    · simp [foldLoop, toLowerASCII, hxy]

theorem equalFoldASCII_iff (a b : Bytes) : equalFoldASCII a b = true ↔ toLowerASCII a = toLowerASCII b := by
  unfold equalFoldASCII
  split_ifs with he hl
  · have : a = b := by simpa using he
    simp [this]
  · have hne : a.length ≠ b.length := by simpa using hl
    constructor
    · intro h; simp at h
    intro h
    exact absurd (by simpa [toLowerASCII] using congrArg List.length h) hne
  · exact foldLoop_iff (by simpa using hl)

theorem asciiEqualFoldBytes_eq (a b : Bytes) : asciiEqualFoldBytes a b = equalFoldASCII a b := by
  rw [Bool.eq_iff_iff, equalFoldASCII_iff]
  unfold asciiEqualFoldBytes
  split_ifs with hl
  · have hne : a.length ≠ b.length := by simpa using hl
    constructor
    · intro h; simp at h
    intro h
    exact absurd (by simpa [toLowerASCII] using congrArg List.length h) hne
  · exact foldLoop_iff (by simpa using hl)

theorem equalFoldASCII_length {a b : Bytes} (h : equalFoldASCII a b = true) : a.length = b.length := by
  have := congrArg List.length ((equalFoldASCII_iff a b).mp h)
  simpa [toLowerASCII] using this

def isOWS (c : UInt8) : Bool := c == sp || c == htab

def trimOWS (b : Bytes) : Bytes := (b.dropWhile isOWS).rdropWhile isOWS

def maxParsedLength : ℕ := 2 ^ 50

/-- Decimal digit value, with the source's 0xFF marking every other byte. -/
def digitVal (c : UInt8) : UInt8 := if 48 ≤ c ∧ c ≤ 57 then c - 48 else 0xFF

def parseUintLoop : Bytes → ℕ → Option ℕ
  | [], n => some n
  | c :: s, n =>
    let d := digitVal c
    if d == 0xFF then none
    else
      let n := n * 10 + d.toNat
      if n > maxParsedLength then none else parseUintLoop s n

def parseUint (s : Bytes) : Option ℕ :=
  if s.length == 0 then none else parseUintLoop s 0

def isDigit (c : UInt8) : Bool := 48 ≤ c && c ≤ 57

def decimalValue (s : Bytes) : ℕ := s.foldl (fun n c => n * 10 + (c.toNat - 48)) 0

theorem digitVal_of_ne {c : UInt8} (h : (digitVal c == 0xFF) = false) :
    isDigit c = true ∧ (digitVal c).toNat = c.toNat - 48 := by
  revert h
  exact forall_byte (P := fun c => (digitVal c == 0xFF) = false →
    isDigit c = true ∧ (digitVal c).toNat = c.toNat - 48) (by decide +kernel) c

theorem parseUintLoop_some {s : Bytes} {n m : ℕ} (h : parseUintLoop s n = some m) :
    (∀ c ∈ s, isDigit c = true) ∧ s.foldl (fun n c => n * 10 + (c.toNat - 48)) n = m := by
  induction s generalizing n with
  | nil => simpa [parseUintLoop] using h
  | cons c s ih =>
    rw [parseUintLoop] at h
    dsimp only at h
    split_ifs at h with hd hmax
    obtain ⟨hdig, hval⟩ := digitVal_of_ne (by simpa using hd)
    obtain ⟨hall, hfold⟩ := ih h
    rw [hval] at hfold
    exact ⟨List.forall_mem_cons.mpr ⟨hdig, hall⟩, hfold⟩

theorem parseUint_some {s : Bytes} {n : ℕ} (h : parseUint s = some n) :
    s ≠ [] ∧ (∀ c ∈ s, isDigit c = true) ∧ decimalValue s = n := by
  unfold parseUint at h
  split_ifs at h with hl
  obtain ⟨hall, hval⟩ := parseUintLoop_some h
  refine ⟨?_, hall, hval⟩
  rintro rfl
  exact hl rfl

def indexByte (s : Bytes) (c : UInt8) : Option ℕ := s.findIdx? (· == c)

def splitPathQuery (raw : Bytes) : Bytes × Bytes :=
  match indexByte raw 63 with
  | some i => (raw.take i, raw.drop (i + 1))
  | none => (raw, [])

def hasDoubleSlash : Bytes → Bool
  | a :: b :: p => (a == slash && b == slash) || hasDoubleSlash (b :: p)
  | _ => false

def slashNeedsSanitize : Bytes → Bool
  | a :: b :: p => (a == slash && (b == slash || b == 46)) || slashNeedsSanitize (b :: p)
  | _ => false

/-- The segment loop: empty and `.` segments are dropped, `..` pops. -/
def cleanSegments : List Bytes → List Bytes → List Bytes
  | segments, [] => segments
  | segments, seg :: rest =>
    if seg == [46] || seg == [] then cleanSegments segments rest
    else if seg == [46, 46] then cleanSegments segments.dropLast rest
    else cleanSegments (segments ++ [seg]) rest

def sanitizeSplitPath (p : Bytes) : Bytes :=
  if p.length == 0 then [slash]
  else if p.head? == some slash && (indexByte p 46).isNone && !hasDoubleSlash p then p
  else
    let needsSanitize := p.head? != some slash || slashNeedsSanitize p
    if !needsSanitize then p
    else
      let p := if p.head? != some slash then slash :: p else p
      let segments := cleanSegments [] ((p.drop 1).splitOn slash)
      if segments.length == 0 then [slash] else segments.flatMap fun seg => slash :: seg

def cutAt (path : Bytes) (c : UInt8) : Bytes :=
  match indexByte path c with
  | some i => path.take i
  | none => path

def sanitizeRequestPath (path : Bytes) : Bytes :=
  let path := cutAt (cutAt (cutAt path 0) cr) lf
  sanitizeSplitPath (splitPathQuery path).1

def validHostChars : Bytes :=
  ascii "abcdefghijklmnopqrstuvwxyzABCDEFGHIJKLMNOPQRSTUVWXYZ0123456789-._~%!$&'()*+,;=:[]"

def invalidHostChar (c : UInt8) : UInt8 := if validHostChars.contains c then 0 else 1

/-- The source accumulates the table over four lanes; one lane has the same value. -/
def validateHost (host : Bytes) : Bool := host.foldl (fun b c => b ||| invalidHostChar c) 0 == 0

theorem validateHost_iff (host : Bytes) : validateHost host = true ↔ ∀ c ∈ host, invalidHostChar c = 0 := by
  have key : ∀ (s : Bytes) (b : UInt8), s.foldl (fun b c => b ||| invalidHostChar c) b = 0 ↔
        b = 0 ∧ ∀ c ∈ s, invalidHostChar c = 0 := by
    intro s
    induction s with
    | nil => simp
    | cons x xs ih =>
      intro b
      simp only [List.foldl_cons, ih, byte_or_eq_zero, List.forall_mem_cons, and_assoc]
  simpa [validateHost] using key host 0

/-- One round of `containsTokenFold` consumes a list element and its comma. -/
def containsTokenFoldLoop (token : Bytes) : ℕ → Bytes → Bool
  | 0, _ => false
  | _ + 1, [] => false
  | fuel + 1, header =>
    let (part, rest) := match indexByte header comma with
      | some i => (header.take i, header.drop (i + 1))
      | none => (header, [])
    if equalFoldASCII (trimOWS part) token then true
    else containsTokenFoldLoop token fuel rest

def containsTokenFold (header token : Bytes) : Bool := containsTokenFoldLoop token header.length header

end Core
end AlosHttp

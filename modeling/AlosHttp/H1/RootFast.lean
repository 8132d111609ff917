import AlosHttp.H1.Head
import AlosHttp.Data.Bitmap

/-! The shortcut for `GET / HTTP/1.1` of `h1_plain.go`: a second walk over the header lines
that only looks at the names which could change the answer. A failed walk is `none`. -/
namespace AlosHttp.H1
open AlosHttp.Core Data

def rootPrefixBytes : Bytes := ascii "GET / HTTP/1.1\r\n"

def minH1FieldLineBytes : ℕ := 4
def maxH1FieldStartsPerChunk : ℕ := 64 / minH1FieldLineBytes
def rootScalarScanMaxBytes : ℕ := 96
def rootFastHeadTerminatorLen : ℕ := 2
def h1BlockMaxChunks : ℕ := 16
def h1BlockMaxBytes : ℕ := h1BlockMaxChunks * 64
def h1BlockMinBytes : ℕ := 48

structure RootFastState where
  hosts : ℕ := 0
  maxCount : ℕ := 0
  keepAlive : Bool
  deriving DecidableEq, Repr

namespace RootFastState

def field (st : RootFastState) (name value : Bytes) (hostSafe : Bool) : Option RootFastState :=
  match name.length with
  | 4 =>
    if asciiEqualFoldBytes name (ascii "host") then
      if hostSafe || validateHost (trimOWS value) then some { st with hosts := st.hosts + 1 }
      else none
    else some st
  | 10 =>
    if asciiEqualFoldBytes name (ascii "connection") then
      let value := trimOWS value
      if !asciiEqualFoldBytes value (ascii "keep-alive") && (connectionOptionList value).1 then
        some { st with keepAlive := false }
      else some st
    else some st
  | 6 => if rootRefused name then none else some st
  | 14 => if rootRefused name then none else some st
  | 17 => if rootRefused name then none else some st
  | _ => some st
where
  /-- The names that only the general parser handles. -/
  rootRefused (name : Bytes) : Bool :=
    asciiEqualFoldBytes name (ascii "expect") || asciiEqualFoldBytes name (ascii "content-length") ||
      asciiEqualFoldBytes name (ascii "transfer-encoding")

end RootFastState

/-- A field line as the walkers return it: name, value, next position and host verdict. -/
structure RootField where
  name : Bytes
  value : Bytes
  next : ℕ
  hostSafe : Bool
  deriving DecidableEq, Repr

def rootFieldVector (avx2 : Bool) (fields : Bytes) (i : ℕ) : Option RootField :=
  let rest := fields.drop i
  let (special, nameEnd) := h1HeaderLineSpecials avx2 rest
  match classifyFirstSpecial rest special with
  | (some (e + 1), false) =>
    if !validH1Colon (rest.take (e + 1)) nameEnd then none
    else
      let nameEnd := nameEnd.getD 0
      some
        { name := rest.take nameEnd
          value := trimOWS ((rest.take (e + 1)).drop (nameEnd + 1))
          next := i + (e + 1) + 2
          hostSafe := false }
  | _ => none

def rootValueClasses (value : Bytes) : UInt8 × UInt8 :=
  value.foldl (fun (seen, common) c => (seen ||| h1FieldClass c, common &&& h1FieldClass c))
    (0, 0xFF)

def rootFieldScalar (fields : Bytes) (start : ℕ) : Option RootField :=
  let name := (fields.drop start).takeWhile fun c => h1FieldClass c &&& h1ClassToken != 0
  let i := start + name.length
  if i == start || i == fields.length || fields[i]? != some colon then none
  else
    let i := i + 1
    let valueStart := i + ((fields.drop i).takeWhile isOWS).length
    let value := (fields.drop valueStart).takeWhile fun c => c != cr
    let i := valueStart + value.length
    let (seen, common) := rootValueClasses value
    if i + 1 ≥ fields.length || seen &&& h1ClassSpecial != 0 || fields[i + 1]? != some lf then none
    else some { name, value, next := i + 2, hostSafe := common &&& h1ClassHost != 0 }

/-- Every field line has at least four bytes, so the fuel covers the buffer. -/
def scanFieldsLoop (buf : Bytes) : ℕ → ℕ → RootFastState → Option (ℕ × RootFastState)
  | 0, _, _ => none
  | fuel + 1, i, st =>
    if i + 1 < buf.length then
      if buf[i]? == some cr then
        if buf[i + 1]? == some lf then some (i + 2, st) else none
      else match rootFieldScalar buf i with
        | none => none
        | some f => match st.field f.name f.value f.hostSafe with
          | none => none
          | some st => scanFieldsLoop buf fuel f.next st
    else none

def scanFields (st : RootFastState) (buf : Bytes) (i : ℕ) : Option (ℕ × RootFastState) :=
  scanFieldsLoop buf buf.length i st

def lineFieldsLoop (avx2 : Bool) (block : Bytes) : ℕ → ℕ → RootFastState → ℕ → Option (RootFastState × ℕ)
  | 0, _, st, count => some (st, count)
  | fuel + 1, i, st, count =>
    if i < block.length then
      let f := if block.length - i ≥ h1ScalarScanMax then rootFieldVector avx2 block i
        else rootFieldScalar block i
      match f with
      | none => none
      | some f => match st.field f.name f.value f.hostSafe with
        | none => none
        | some st => lineFieldsLoop avx2 block fuel f.next st (count + 1)
    else some (st, count)

def lineFields (avx2 : Bool) (st : RootFastState) (block : Bytes) : Option RootFastState :=
  match lineFieldsLoop avx2 block block.length 0 st 0 with
  | none => none
  | some (st, count) => if count ≤ st.maxCount then some st else none

/-- Bitmaps over a header block: line starts, name ends, and starts of candidate names. -/
structure H1BlockIndexOut where
  starts : Bitmap := fun _ => 0
  ends : Bitmap := fun _ => 0
  cands : Bitmap := fun _ => 0

def h1NextBitLoop (words : Bitmap) (chunks : ℕ) : ℕ → ℕ → BitVec 64 → Option ℕ
  | 0, _, _ => none
  | fuel + 1, i, w =>
    if w = 0 then
      if i + 1 ≥ chunks then none else h1NextBitLoop words chunks fuel (i + 1) (words (i + 1))
    else some (64 * i + trailingZeros w)

def h1NextBit (words : Bitmap) (start chunks : ℕ) : Option ℕ :=
  let i := start / 64
  if i ≥ chunks then none
  else h1NextBitLoop words chunks chunks i (words i &&& (BitVec.allOnes 64 <<< (start % 64)))

/-- The vector routine that builds the index is a parameter of the walk. -/
abbrev VectorIndex := Bytes → Option H1BlockIndexOut

def indexable (block : Bytes) : Bool :=
  let n := block.length
  decide (2 ≤ n) && decide (n ≤ h1BlockMaxBytes) && block[n - 2]? == some cr &&
    block[n - 1]? == some lf

def h1BlockIndex (avx2 : Bool) (vec : VectorIndex) (block : Bytes) : Option H1BlockIndexOut :=
  if !avx2 || !indexable block then none else vec block

def h1BlockCandidateLetters : Bytes := ascii "cehtCEHT"

def h1BlockIndexRefLoop (block : Bytes) : ℕ → ℕ → H1BlockIndexOut → Option H1BlockIndexOut
  | 0, _, out => some out
  | fuel + 1, pos, out =>
    if pos < block.length then
      let rest := block.drop pos
      match classifyFirstSpecial rest (rest.findIdx? isH1Special) with
      | (some (e + 1), false) =>
        let nameEnd := firstNonTokenByte rest
        if !validH1Colon (rest.take (e + 1)) nameEnd then none
        else
          let isCand := block[pos]?.any h1BlockCandidateLetters.contains
          h1BlockIndexRefLoop block fuel (pos + (e + 1) + 2)
            { starts := out.starts.set pos
              cands := if isCand then out.cands.set pos else out.cands
              ends := out.ends.set (pos + nameEnd.getD 0) }
      | _ => none
    else some out

def h1BlockIndexRef (block : Bytes) : Option H1BlockIndexOut := h1BlockIndexRefLoop block block.length 0 {}

/-- The vector routine returns the reference index of every block it is called on. -/
def VectorIndex.MeetsReference (vec : VectorIndex) : Prop :=
  ∀ block, indexable block = true → vec block = h1BlockIndexRef block

def h1BlockStartsWithinLoop (idx : H1BlockIndexOut) (chunks maxCount : ℕ) : ℕ → ℕ → ℕ → Bool
  | 0, _, count => count ≤ maxCount
  | fuel + 1, ci, count =>
    if ci < chunks then
      let count := count + (setBits (idx.starts ci)).length
      if count + (chunks - 1 - ci) * maxH1FieldStartsPerChunk ≤ maxCount then true
      else h1BlockStartsWithinLoop idx chunks maxCount fuel (ci + 1) count
    else count ≤ maxCount

def h1BlockStartsWithin (idx : H1BlockIndexOut) (chunks maxCount : ℕ) : Bool :=
  h1BlockStartsWithinLoop idx chunks maxCount chunks 0 0

/-- The candidate line at `start`: its name ends at the next name end, its value two bytes
before the next line start. -/
def indexedField (idx : H1BlockIndexOut) (block : Bytes) (chunks : ℕ) (st : RootFastState)
    (start : ℕ) : Option RootFastState :=
  let colon := (h1NextBit idx.ends start chunks).getD 0
  let e := (h1NextBit idx.starts colon chunks).getD block.length - 2
  st.field ((block.take colon).drop start) ((block.take e).drop (colon + 1)) false

/-- `none` when the block has no index; otherwise the verdict of the walk. -/
def indexedFields (avx2 : Bool) (vec : VectorIndex) (st : RootFastState) (block : Bytes) :
    Option (Option RootFastState) :=
  match h1BlockIndex avx2 vec block with
  | none => none
  | some idx =>
    let chunks := (block.length + 63) / 64
    let walk := (List.range chunks).foldlM (fun st ci =>
      forBitsM (fun st k => indexedField idx block chunks st (64 * ci + k)) 64 (idx.cands ci) st) st
    some (walk.bind fun st =>
      if block.length ≤ st.maxCount * minH1FieldLineBytes ||
        h1BlockStartsWithin idx chunks st.maxCount then some st else none)

def fields (avx2 : Bool) (vec : VectorIndex) (st : RootFastState) (block : Bytes) : Option RootFastState :=
  if block.length ≥ h1BlockMinBytes then
    match indexedFields avx2 vec st block with
    | some verdict => verdict
    | none => lineFields avx2 st block
  else lineFields avx2 st block

def rootFastHeaders (avx2 : Bool) (vec : VectorIndex) (block : Bytes) (maxHeaderCount : ℕ) : Option Bool :=
  match fields avx2 vec { keepAlive := true, maxCount := maxHeaderCount } block with
  | some st => if st.hosts == 1 then some st.keepAlive else none
  | none => none

def endsWithHeaderTerminator (buf : Bytes) (lineLen : ℕ) : Bool :=
  let n := buf.length
  decide (lineLen + 2 ≤ n) && decide (4 ≤ n) && buf.drop (n - 4) == crlf ++ crlf

/-- Result of the root parse: consumed bytes and keep-alive, or a failure with `needRead`. -/
def parsePlainFastRootRequest (avx2 : Bool) (vec : VectorIndex) (buf : Bytes) (lineLen : ℕ)
    (maxHeaderBytes maxHeaderCount : ℕ) : Except Bool (ℕ × Bool) :=
  let first : Option (ℕ × Bool) :=
    if buf.length ≤ rootScalarScanMaxBytes then
      match scanFields { keepAlive := true } buf lineLen with
      | some (headerEnd, st) => if st.hosts == 1 then some (headerEnd, st.keepAlive) else none
      | none => none
    else if endsWithHeaderTerminator buf lineLen then
      (rootFastHeaders avx2 vec ((buf.take (buf.length - 2)).drop lineLen) maxHeaderCount).map
        fun keepAlive => (buf.length, keepAlive)
    else none
  match first with
  | some r => .ok r
  | none =>
    match findHeaderTerminatorBytes avx2 buf lineLen with
    | none => .error (decide (buf.length ≤ maxHeaderBytes))
    | some headerEnd =>
      match rootFastHeaders avx2 vec ((buf.take (headerEnd - 2)).drop lineLen) maxHeaderCount with
      | none => .error false
      | some keepAlive => .ok (headerEnd, keepAlive)

def rootFastUncountedHeadLen (maxHeaderCount : ℕ) : ℕ :=
  rootPrefixBytes.length + maxHeaderCount * minH1FieldLineBytes + rootFastHeadTerminatorLen

def scalarRootFieldsExceed (data : Bytes) (consumed maxHeaderCount : ℕ) : Bool :=
  decide (consumed ≤ rootScalarScanMaxBytes) &&
    decide (((data.take (consumed - rootFastHeadTerminatorLen)).drop rootPrefixBytes.length).count lf >
      maxHeaderCount)

/-- The memoized root answer, as `buildPlainRootFastResponse` makes it. -/
structure PlainRootFastResponse where
  getKeepAlive : Bytes
  getClose : Bytes
  tlsKeepAlive : Option Bytes
  tlsClose : Bytes
  maxHeaderCount : ℕ
  uncountedHeadLen : ℕ
  uncounted_eq : uncountedHeadLen = rootFastUncountedHeadLen maxHeaderCount

def PlainRootFastResponse.bytesFor (f : PlainRootFastResponse) (keepAlive tls : Bool) : Bytes :=
  match tls, f.tlsKeepAlive with
  | true, some tlsKeepAlive => if keepAlive then tlsKeepAlive else f.tlsClose
  | _, _ => if keepAlive then f.getKeepAlive else f.getClose

/-- The server settings that the shortcut reads; the memo was built from the same count. -/
structure RootServer where
  maxHeaderSize : ℤ
  maxHeaderCount : ℤ
  plainRootFast : Option PlainRootFastResponse
  count_eq : ∀ f, plainRootFast = some f → f.maxHeaderCount = effectiveMaxCount maxHeaderCount

/-- The memoized bytes, the consumed length and the close flag of a match. -/
def matchPlainRootFastRequest (avx2 : Bool) (vec : VectorIndex) (s : RootServer) (data : Bytes)
    (tls : Bool) : Option (Bytes × ℕ × Bool) :=
  match s.plainRootFast with
  | none => none
  | some fast =>
    if data.length < rootPrefixBytes.length + 4 || data.take 16 != rootPrefixBytes then none
    else
      let maxHeaderBytes := effectiveMaxBytes s.maxHeaderSize
      match parsePlainFastRootRequest avx2 vec data rootPrefixBytes.length maxHeaderBytes
        fast.maxHeaderCount with
      | .error _ => none
      | .ok (consumed, keepAlive) =>
        if consumed - 2 > maxHeaderBytes || consumed > fast.uncountedHeadLen &&
          scalarRootFieldsExceed data consumed fast.maxHeaderCount then none
        else some (fast.bytesFor keepAlive tls, consumed, !keepAlive)

end AlosHttp.H1

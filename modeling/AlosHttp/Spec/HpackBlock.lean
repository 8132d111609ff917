import AlosHttp.Data.PrefixCode
import AlosHttp.Spec.HpackTable

/-! The header block format of RFC 7541: integers, strings, field representations and the
reference decoder that applies them to a table. -/
namespace AlosHttp.Rfc7541
open Data

/-- Lengths of the appendix B codes of the 256 octets and of EOS. -/
def codeLengths : List ℕ :=
  [13, 23, 28, 28, 28, 28, 28, 28, 28, 24, 30, 28, 28, 30, 28, 28, 28, 28, 28, 28, 28, 28, 30,
    28, 28, 28, 28, 28, 28, 28, 28, 28, 6, 10, 10, 12, 13, 6, 8, 11, 10, 10, 8, 11, 8, 6, 6, 6,
    5, 5, 5, 6, 6, 6, 6, 6, 6, 6, 7, 8, 15, 6, 12, 10, 13, 6, 7, 7, 7, 7, 7, 7, 7, 7, 7, 7, 7, 7,
    7, 7, 7, 7, 7, 7, 7, 7, 7, 7, 8, 7, 8, 13, 19, 13, 14, 6, 15, 5, 6, 5, 6, 5, 6, 6, 6, 5, 7,
    7, 6, 6, 6, 5, 6, 7, 6, 5, 5, 6, 7, 7, 7, 7, 7, 15, 11, 14, 13, 28, 20, 22, 20, 20, 22, 22,
    22, 23, 22, 23, 23, 23, 23, 23, 24, 23, 24, 24, 22, 23, 24, 23, 23, 23, 23, 21, 22, 23, 22,
    23, 23, 24, 22, 21, 20, 22, 22, 23, 23, 21, 23, 22, 22, 24, 21, 22, 23, 23, 21, 21, 22, 21,
    23, 22, 23, 23, 20, 22, 22, 22, 23, 22, 22, 23, 26, 26, 20, 19, 22, 23, 22, 25, 26, 26, 26,
    27, 27, 26, 24, 25, 19, 21, 26, 27, 27, 26, 27, 24, 21, 21, 26, 26, 28, 27, 27, 27, 20, 24,
    20, 21, 22, 21, 21, 23, 22, 22, 25, 25, 24, 24, 26, 23, 26, 27, 26, 26, 27, 27, 27, 27, 27,
    28, 27, 27, 27, 27, 27, 26, 30]

def codeOrder : List (ℕ × ℕ) := (List.range 31).flatMap fun len => codeLengths.zipIdx.filter (·.1 == len)

/-- Appendix B: the code is canonical. -/
def codeTable : List (ℕ × CodeWord) := canonical 0 0 codeOrder

def code (s : Fin 257) : List Bool :=
  match codeTable.find? (·.1 == s.val) with
  | some (_, w) => w.bits
  | none => []

def eos : Fin 257 := 256

def symbolAt (bits : List Bool) : Option (Fin 257) := (List.finRange 257).find? fun s => (code s).isPrefixOf bits

/-- Section 5.2: less than eight bits, all taken from the start of EOS. -/
def isPadding (bits : List Bool) : Bool := bits.length < 8 && bits.all id

/-- One symbol after another up to the padding; EOS itself is an error. Every code has a
bit, so the length is enough fuel. -/
def decodeSymbols : ℕ → List Bool → Option Bytes
  | fuel, bits =>
    if isPadding bits then some []
    else match fuel, symbolAt bits with
      | fuel + 1, some s =>
        if s = eos then none
        else (decodeSymbols fuel (bits.drop (code s).length)).map (UInt8.ofNat s :: ·)
      | _, _ => none

def decodeHuffman (raw : Bytes) : Option Bytes :=
  decodeSymbols (BitString.ofBytes raw).length (BitString.ofBytes raw)

/-- Section 5.1: the octets after a full prefix, seven bits each, least significant first. -/
def decodeIntTail : Bytes → ℕ → ℕ → Option (ℕ × Bytes)
  | [], _, _ => none
  | b :: s, m, i =>
    let i := i + b.toNat % 128 * 2 ^ m
    if b.toNat < 128 then some (i, s) else decodeIntTail s (m + 7) i

/-- Section 5.1: the value and the rest of the block. -/
def decodeInt (n : ℕ) : Bytes → Option (ℕ × Bytes)
  | [] => none
  | b :: s =>
    let i := b.toNat % 2 ^ n
    if i < 2 ^ n - 1 then some (i, s) else decodeIntTail s 0 i

/-- Section 5.2: the first bit tells a Huffman coded string. -/
def decodeString (s : Bytes) : Option (Bytes × Bytes) :=
  match decodeInt 7 s with
  | none => none
  | some (len, rest) =>
    if len > rest.length then none
    else if (s.head?.getD 0).toNat ≥ 128 then
      (decodeHuffman (rest.take len)).map fun v => (v, rest.drop len)
    else some (rest.take len, rest.drop len)

/-- Section 6.2: a literal field with an indexed or literal name. -/
def decodeLiteral (t : Table) (n : ℕ) (s : Bytes) : Option (Field × Bytes) :=
  match decodeInt n s with
  | none => none
  | some (idx, rest) =>
    match if idx = 0 then decodeString rest else (t.lookup idx).map fun f => (f.1, rest) with
    | none => none
    | some (name, rest) => (decodeString rest).map fun (value, rest) => ((name, value), rest)

/-- One representation: its field, if it is one, the table after it and the rest of the
block. Section 4.2 allows size updates only at the start and only up to `limit`. -/
def decodeStep (limit : ℕ) (t : Table) (start : Bool) (s : Bytes) : Option (Option Field × Table × Bytes) :=
  let b := (s.head?.getD 0).toNat
  if b ≥ 128 then
    match decodeInt 7 s with
    | none => none
    | some (idx, rest) => (t.lookup idx).map fun f => (some f, t, rest)
  else if b ≥ 64 then (decodeLiteral t 6 s).map fun (f, rest) => (some f, t.insert f, rest)
  else if b ≥ 32 then
    if !start then none
    else match decodeInt 5 s with
      | none => none
      | some (n, rest) => if n > limit then none else some (none, t.resize n, rest)
  else (decodeLiteral t 4 s).map fun (f, rest) => (some f, t, rest)

def decodeLoop (limit : ℕ) : ℕ → Table → List Field → Bytes → Option (List Field × Table)
  | _, t, fields, [] => some (fields, t)
  | 0, _, _, _ :: _ => none
  | fuel + 1, t, fields, b :: s =>
    match decodeStep limit t fields.isEmpty (b :: s) with
    | none => none
    | some (f, t, rest) => decodeLoop limit fuel t (fields ++ f.toList) rest

/-- Section 3.2: a block is read to its end. Every representation has an octet, so the
length is enough fuel. -/
def decodeBlock (limit : ℕ) (t : Table) (s : Bytes) : Option (List Field × Table) :=
  decodeLoop limit s.length t [] s

end AlosHttp.Rfc7541

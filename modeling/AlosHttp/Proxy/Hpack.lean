import AlosHttp.Hpack.Request
import AlosHttp.Proxy.H2Client

/-! The HPACK decoder of the proxy's HTTP/2 client (`fp_hpack.go`, `fp_huffman.go`), against the
reference decoder of RFC 7541. Readers return the unread rest of the block where the source returns
the number of octets read. -/
namespace AlosHttp.Proxy
open List Rfc7541 Hpack Data

def advertisedTableSize : ℕ := 4096

def hpackStatic : List Field := ([], []) :: staticTable

structure FpHpackDynEntry where
  name : Bytes
  value : Bytes
  nameBad : Bool
  valueBad : Bool
  deriving DecidableEq

def FpHpackDynEntry.field (e : FpHpackDynEntry) : Field := (e.name, e.value)

def fpHpackEntryOverhead : ℕ := 32
def fpHuffMaxCodeBits : ℕ := 30

structure HpackDecoder where
  dyn : List FpHpackDynEntry := []
  size : ℕ := 0
  maxSize : ℕ
  maxListSize : ℕ
  deriving DecidableEq

/-- `huffCodes` lists the codes of `huffmanCodes`, and its tables are built and searched the
same way. -/
def huffLookup (bits nbits : ℕ) : ℕ × ℕ := huffmanLookup bits nbits

/-- The inner loop of `fpHpackHuffmanDecode`; every symbol takes a bit off the buffer. -/
def huffSymbols : ℕ → ℕ → ℕ → Bytes → ℕ × ℕ × Bytes
  | 0, acc, nbits, out => (acc, nbits, out)
  | fuel + 1, acc, nbits, out =>
    if nbits ≥ 5 then
      let (sym, used) := huffLookup acc nbits
      if used = 0 ∨ used > nbits then (acc, nbits, out)
      else
        let nbits := nbits - used
        huffSymbols fuel (acc &&& (2 ^ nbits - 1)) nbits (out ++ [UInt8.ofNat sym])
    else (acc, nbits, out)

def huffLoop : Bytes → ℕ → ℕ → Bytes → Option Bytes
  | [], acc, nbits, out =>
    if nbits > 7 then none
    else if nbits > 0 ∧ acc &&& (2 ^ nbits - 1) ≠ 2 ^ nbits - 1 then none
    else some out
  | b :: data, acc, nbits, out =>
    let (acc, nbits, out) := huffSymbols (nbits + 8) ((acc <<< 8 % 2 ^ 64) ||| b.toNat) (nbits + 8) out
    if nbits ≥ fpHuffMaxCodeBits then none else huffLoop data acc nbits out

def fpHpackHuffmanDecode (data : Bytes) : Option Bytes := huffLoop data 0 0 []

def hpackReadIntLoop : Bytes → ℕ → ℕ → Except FpError (ℕ × Bytes)
  | [], _, _ => .error .badResponse
  | c :: b, m, val =>
    let val := val + (c &&& 0x7f).toNat <<< m
    if c &&& 0x80 = 0 then .ok (val, b)
    else if m + 7 > 28 then .error .badResponse
    else hpackReadIntLoop b (m + 7) val

def hpackReadInt (b : Bytes) (prefixBits : ℕ) : Except FpError (ℕ × Bytes) :=
  match b with
  | [] => .error .badResponse
  | c :: b =>
    let maxFirst := 2 ^ prefixBits - 1
    let val := c.toNat &&& maxFirst
    if val < maxFirst then .ok (val, b) else hpackReadIntLoop b 0 val

def hpackReadString (b : Bytes) : Except FpError (Bytes × Bytes) :=
  match b with
  | [] => .error .badResponse
  | c :: _ =>
    match hpackReadInt b 7 with
    | .error err => .error err
    | .ok (length, rest) =>
      if length > rest.length then .error .badResponse
      else if c &&& 0x80 = 0 then .ok (rest.take length, rest.drop length)
      else
        match fpHpackHuffmanDecode (rest.take length) with
        | none => .error .badResponse
        | some s => .ok (s, rest.drop length)

namespace HpackDecoder

def evictLoop : ℕ → HpackDecoder → HpackDecoder
  | 0, d => d
  | fuel + 1, d =>
    if d.size > d.maxSize then
      match d.dyn.getLast? with
      | none => d
      | some last =>
        evictLoop fuel
          { d with
            size := d.size - (last.name.length + last.value.length + 32)
            dyn := d.dyn.dropLast }
    else d

def evict (d : HpackDecoder) : HpackDecoder := evictLoop d.dyn.length d

def setMaxSize (d : HpackDecoder) (n : ℕ) : HpackDecoder := evict { d with maxSize := n }

def add (d : HpackDecoder) (e : FpHpackDynEntry) : HpackDecoder :=
  evict { d with size := d.size + (e.name.length + e.value.length + 32), dyn := e :: d.dyn }

def lookup (d : HpackDecoder) (idx : ℕ) : Option FpHpackDynEntry :=
  if 1 ≤ idx ∧ idx ≤ 61 then
    (hpackStatic[idx]?).map fun f => ⟨f.1, f.2, false, false⟩
  else if 62 ≤ idx then d.dyn[idx - 62]?
  else none

def readName (d : HpackDecoder) (idx : ℕ) (block : Bytes) : Except FpError ((Bytes × Bool) × Bytes) :=
  if idx = 0 then
    match hpackReadString block with
    | .error err => .error err
    | .ok (name, rest) => .ok ((name, !isValidH2FieldName name), rest)
  else
    match d.lookup idx with
    | none => .error .badResponse
    | some e => .ok ((e.name, e.nameBad), block)

def readNameValue (d : HpackDecoder) (block : Bytes) (prefixBits : ℕ) : Except FpError (FpHpackDynEntry × Bytes) :=
  match hpackReadInt block prefixBits with
  | .error err => .error err
  | .ok (idx, rest) =>
    match d.readName idx rest with
    | .error err => .error err
    | .ok ((name, nameBad), rest) =>
      match hpackReadString rest with
      | .error err => .error err
      | .ok (value, rest) => .ok (⟨name, value, nameBad, !isValidH2FieldValue value⟩, rest)

/-- The `switch` of `decode`: the decoder after one representation, its field, if it has one,
and the rest of the block. It fails before it changes the decoder. -/
def readRep (d : HpackDecoder) (b : UInt8) (block : Bytes) :
    Except FpError (HpackDecoder × Option FpHpackDynEntry × Bytes) :=
  if b &&& 0x80 ≠ 0 then
    match hpackReadInt block 7 with
    | .error err => .error err
    | .ok (idx, rest) =>
      match d.lookup idx with
      | none => .error .badResponse
      | some e => .ok (d, some e, rest)
  else if b &&& 0x40 ≠ 0 then
    match d.readNameValue block 6 with
    | .error err => .error err
    | .ok (e, rest) => .ok (d.add e, some e, rest)
  else if b &&& 0x20 ≠ 0 then
    match hpackReadInt block 5 with
    | .error err => .error err
    | .ok (newMax, rest) =>
      if newMax > d.maxSize then .error .badResponse else .ok (d.setMaxSize newMax, none, rest)
  else
    match d.readNameValue block 4 with
    | .error err => .error err
    | .ok (e, rest) => .ok (d, some e, rest)

/-- The loop of `decode`, with `appendField` for a representation that has a field. -/
def decodeLoop : ℕ → HpackDecoder → ℕ → Bool → List Field → Bytes →
    HpackDecoder × Except FpError (List Field × Bool)
  | _, d, _, malformed, out, [] => (d, .ok (out, malformed))
  | 0, d, _, _, _, _ :: _ => (d, .error .badResponse)
  | fuel + 1, d, listSize, malformed, out, b :: block =>
    match d.readRep b (b :: block) with
    | .error err => (d, .error err)
    | .ok (d, none, rest) => decodeLoop fuel d listSize malformed out rest
    | .ok (d, some e, rest) =>
      let malformed := malformed || e.nameBad || e.valueBad
      let listSize := listSize + (e.name.length + e.value.length + fpHpackEntryOverhead)
      if listSize > d.maxListSize then (d, .error .headerTooLarge)
      else decodeLoop fuel d listSize malformed (out ++ [e.field]) rest

/-- Every representation has an octet, so the length is enough fuel. -/
def decode (d : HpackDecoder) (block : Bytes) : HpackDecoder × Except FpError (List Field × Bool) :=
  decodeLoop block.length d 0 false [] block

/-- The decoder and the answer after each block of a connection. -/
def decodeAll (d : HpackDecoder) : List Bytes → List (HpackDecoder × Except FpError (List Field × Bool))
  | [] => []
  | block :: blocks => d.decode block :: decodeAll (d.decode block).1 blocks

end HpackDecoder

/-! The Huffman decoder. -/

theorem huffSymbols_eq {fuel acc nbits : ℕ} (hfuel : nbits ≤ fuel) (hacc : acc < 2 ^ nbits) (out : Bytes) :
    huffmanDrain fuel acc nbits out =
      if (huffSymbols fuel acc nbits out).2.1 ≥ fpHuffMaxCodeBits then none
      else some (huffSymbols fuel acc nbits out) := by
  induction fuel generalizing acc nbits out with
  | zero =>
    have hlt : ¬ nbits ≥ fpHuffMaxCodeBits := by unfold fpHuffMaxCodeBits; omega
    rw [huffmanDrain, huffSymbols, if_neg hlt]
  | succ fuel ih =>
    rw [huffmanDrain, huffSymbols]
    by_cases h5 : nbits ≥ 5
    · rw [if_pos h5, if_pos h5]
      unfold huffLookup
      obtain ⟨s, hs, hlookup⟩ | ⟨hlookup, -⟩ := huffmanLookup_spec hacc
      · have hpos := (wordOf_bounds s).1
        have hle : (wordOf s).len ≤ nbits := hs.2.1
        have hsmall : acc &&& (2 ^ (nbits - (wordOf s).len) - 1) < 2 ^ (nbits - (wordOf s).len) := by
          rw [Nat.and_two_pow_sub_one_eq_mod]
          exact Nat.mod_lt _ (Nat.two_pow_pos _)
        have hused : ¬ ((wordOf s).len = 0 ∨ (wordOf s).len > nbits) := by omega
        have hne : (wordOf s).len ≠ 0 := by omega
        simp only [hlookup]
        rw [if_neg hne, if_neg hused]
        exact ih (by omega) hsmall _
      simp only [hlookup, true_or, if_true]
      rfl
    have hlt : ¬ nbits ≥ fpHuffMaxCodeBits := by unfold fpHuffMaxCodeBits; omega
    rw [if_neg h5, if_neg h5, if_neg hlt]

theorem huffLoop_eq (data : Bytes) {acc nbits : ℕ} (hacc : acc < 2 ^ nbits) (hn : nbits < 30)
    (out : Bytes) : huffLoop data acc nbits out = huffmanDecodeLoop data acc nbits out := by
  induction data generalizing acc nbits out with
  | nil =>
    have hmask : acc &&& (2 ^ nbits - 1) = acc := by
      rw [Nat.and_two_pow_sub_one_eq_mod, Nat.mod_eq_of_lt hacc]
    rw [huffLoop, huffmanDecodeLoop, hmask]
    split_ifs <;> tauto
  | cons b data ih =>
    have hb : b.toNat < 2 ^ 8 := b.toNat_lt
    have hlt : (acc <<< 8 % 2 ^ 64) ||| b.toNat < 2 ^ (nbits + 8) := by
      have hshift : acc <<< 8 < 2 ^ (nbits + 8) := by
        rw [Nat.shiftLeft_eq, pow_add]
        omega
      have hword : acc <<< 8 % 2 ^ 64 < 2 ^ (nbits + 8) := (Nat.mod_le _ _).trans_lt hshift
      have hbyte : b.toNat < 2 ^ (nbits + 8) := by
        rw [pow_add]
        have hpos := Nat.two_pow_pos nbits
        nlinarith
      exact Nat.or_lt_two_pow hword hbyte
    have hpush : huffmanPush b acc nbits out =
        huffmanDrain (nbits + 8) ((acc <<< 8 % 2 ^ 64) ||| b.toNat) (nbits + 8) out := by
      unfold huffmanPush
      rfl
    rw [huffLoop, huffmanDecodeLoop, hpush]
    generalize (acc <<< 8 % 2 ^ 64) ||| b.toNat = word at hlt ⊢
    generalize nbits + 8 = m at hlt ⊢
    have hdrain := huffmanDrain_spec le_rfl hlt out []
    rw [huffSymbols_eq le_rfl hlt out] at hdrain ⊢
    generalize huffSymbols m word m out = r at hdrain ⊢
    obtain ⟨_, nbits', out'⟩ := r
    dsimp only at hdrain ⊢
    by_cases hbig : nbits' ≥ fpHuffMaxCodeBits
    · rw [if_pos hbig, if_pos hbig]
    rw [if_neg hbig] at hdrain ⊢
    rw [if_neg hbig]
    exact ih hdrain.1 hdrain.2.1 out'

theorem fpHpackHuffmanDecode_eq (data : Bytes) : fpHpackHuffmanDecode data = decodeHuffman data := by
  rw [← hpackHuffmanDecode_eq]
  exact huffLoop_eq data (by norm_num) (by norm_num) []

/-- The three decoders accept the same codes and return the same bytes; the one that appends
leaves the buffer's own bytes in front. -/
theorem huffman_decoders_agree (dst src : Bytes) : fpHpackHuffmanDecode src = hpackHuffmanDecode src ∧
    ((hpackHuffmanDecodeInto dst src).2 = true ↔ (hpackHuffmanDecode src).isSome) ∧
    ∀ out, hpackHuffmanDecodeInto dst src = (dst ++ out, true) ↔ hpackHuffmanDecode src = some out := by
  have hinto := huffmanIntoLoop_eq dst src 0 0 []
  rw [append_nil] at hinto
  change (match hpackHuffmanDecode src with
    | none => (hpackHuffmanDecodeInto dst src).2 = false
    | some out => hpackHuffmanDecodeInto dst src = (dst ++ out, true)) at hinto
  refine ⟨(fpHpackHuffmanDecode_eq src).trans (hpackHuffmanDecode_eq src).symm, ?_⟩
  rcases hd : hpackHuffmanDecode src with _ | decoded
  · rw [hd] at hinto
    refine ⟨by simpa using hinto, ?_⟩
    intro out
    constructor
    · intro heq
      rw [heq] at hinto
      cases hinto
    intro h
    cases h
  rw [hd] at hinto
  rw [hinto]
  simp

/-! Integers and strings. -/

/-- An integer at the front of the block has at most five octets after its first. -/
def ShortInt (n : ℕ) (s : Bytes) : Prop := ∀ v rest, decodeInt n s = some (v, rest) → s.length ≤ rest.length + 6

variable {b rest : Bytes}

theorem decodeIntTail_length {m i v : ℕ} (h : decodeIntTail b m i = some (v, rest)) : rest.length < b.length := by
  induction b generalizing m i with
  | nil => simp [decodeIntTail] at h
  | cons c b ih =>
    rw [decodeIntTail] at h
    rw [length_cons]
    split_ifs at h
    · cases h
      omega
    have := ih h
    omega

theorem hpackReadIntLoop_complete {m i v : ℕ}
    (h : decodeIntTail b m i = some (v, rest)) (hshort : m + 7 * b.length ≤ 35 + 7 * rest.length) :
    hpackReadIntLoop b m i = .ok (v, rest) := by
  induction b generalizing m i with
  | nil => simp [decodeIntTail] at h
  | cons c b ih =>
    have hlow : (c &&& 0x7f).toNat <<< m = c.toNat % 128 * 2 ^ m := by
      rw [Nat.shiftLeft_eq, UInt8.toNat_and]
      exact congrArg (· * 2 ^ m) (Nat.and_two_pow_sub_one_eq_mod c.toNat 7)
    rw [decodeIntTail] at h
    rw [hpackReadIntLoop, hlow]
    split_ifs at h with hend
    · rw [if_pos ((high_eq_zero_iff c).mpr hend)]
      cases h
      rfl
    rw [if_neg (fun hz => hend ((high_eq_zero_iff c).mp hz))]
    have hlen := decodeIntTail_length h
    rw [length_cons] at hshort
    rw [if_neg (by omega)]
    exact ih h (by omega)

theorem hpackReadInt_complete {n v : ℕ} (h : decodeInt n b = some (v, rest))
    (hshort : ShortInt n b) : hpackReadInt b n = .ok (v, rest) := by
  have hlen := hshort v rest h
  rcases b with _ | ⟨c, b⟩
  · simp [decodeInt] at h
  rw [decodeInt] at h
  unfold hpackReadInt
  dsimp only at h ⊢
  rw [Nat.and_two_pow_sub_one_eq_mod]
  rw [length_cons] at hlen
  split_ifs at h ⊢ with hsmall
  · cases h
    rfl
  · exact hpackReadIntLoop_complete h (by omega)

theorem hpackReadString_complete {value : Bytes} (h : decodeString b = some (value, rest))
    (hshort : ShortInt 7 b) : hpackReadString b = .ok (value, rest) := by
  unfold decodeString at h
  rcases b with _ | ⟨c, b⟩
  · simp [decodeInt] at h
  rcases hint : decodeInt 7 (c :: b) with _ | r
  · simp [hint] at h
  obtain ⟨length, tail⟩ := r
  have hread := hpackReadInt_complete hint hshort
  have hflag : c &&& 0x80 = 0 ↔ ¬ c.toNat ≥ 128 := by rw [high_eq_zero_iff]; omega
  unfold hpackReadString
  simp only [hint] at h
  change (if length > tail.length then none
    else if c.toNat ≥ 128 then
      (decodeHuffman (tail.take length)).map fun v => (v, tail.drop length)
    else some (tail.take length, tail.drop length)) = some (value, rest) at h
  simp only [hread, fpHpackHuffmanDecode_eq]
  by_cases hlong : length > tail.length
  · rw [if_pos hlong] at h
    cases h
  rw [if_neg hlong] at h ⊢
  split_ifs at h with hhuff
  · rw [if_neg (fun hz => hflag.mp hz hhuff)]
    rcases hdec : decodeHuffman (tail.take length) with _ | v
    · simp [hdec] at h
    rw [hdec] at h
    cases h
    rfl
  rw [if_pos (hflag.mpr hhuff)]
  cases h
  rfl

open Rfc7541

/-! The dynamic table. -/

theorem evict_cons (limit : ℕ) (f : Field) (t : List Field) : evict limit (f :: t) =
      if entrySize f ≤ limit then f :: evict (limit - entrySize f) t else [] := by
  induction t using reverseRecOn with
  | nil =>
    split_ifs with hfits
    · rw [evict_of_le (by simpa using hfits), evict_of_le (by simp)]
    have hbig : limit < size ([] ++ [f]) := by simpa using hfits
    rw [← nil_append [f], evict_concat hbig, evict_of_le (by simp)]
  | append_singleton t g ih =>
    rw [← cons_append]
    by_cases hbig : limit < size ((f :: t) ++ [g])
    · rw [evict_concat hbig, ih]
      simp only [size_append, size_cons, size_nil] at hbig
      split_ifs with hfits
      · have hrest : limit - entrySize f < size (t ++ [g]) := by
          simp only [size_append, size_cons, size_nil]
          omega
        rw [evict_concat hrest]
      · rfl
    rw [evict_of_le (by omega)]
    simp only [size_append, size_cons, size_nil] at hbig
    have hrest : size (t ++ [g]) ≤ limit - entrySize f := by
      simp only [size_append, size_cons, size_nil]
      omega
    rw [if_pos (by omega), evict_of_le hrest]
    rfl

def entryOf (f : Field) : FpHpackDynEntry := ⟨f.1, f.2, !isValidH2FieldName f.1, !isValidH2FieldValue f.2⟩

def badField (f : Field) : Bool := !isValidH2FieldName f.1 || !isValidH2FieldValue f.2

structure Mirrors (d : HpackDecoder) (t : Table) : Prop where
  dyn : d.dyn = t.entries.map entryOf
  size : d.size = Rfc7541.size t.entries
  maxSize : d.maxSize = t.maxSize

namespace HpackDecoder

theorem evictLoop_eq (l : List Field) {fuel : ℕ} (hfuel : l.length ≤ fuel) (maxSize maxListSize : ℕ) :
    evictLoop fuel ⟨l.map entryOf, Rfc7541.size l, maxSize, maxListSize⟩ =
      ⟨(Rfc7541.evict maxSize l).map entryOf, Rfc7541.size (Rfc7541.evict maxSize l), maxSize, maxListSize⟩ := by
  induction l using reverseRecOn generalizing fuel with
  | nil =>
    rw [evict_of_le (by simp)]
    cases fuel with
    | zero => rfl
    | succ fuel => rw [evictLoop, if_neg (by simp)]
  | append_singleton l f ih =>
    rw [length_append, length_singleton] at hfuel
    obtain ⟨fuel, rfl⟩ : ∃ k, fuel = k + 1 := ⟨fuel - 1, by omega⟩
    rw [evictLoop]
    by_cases hbig : Rfc7541.size (l ++ [f]) > maxSize
    · have hsize : Rfc7541.size (l ++ [f]) - (f.1.length + f.2.length + 32) = Rfc7541.size l := by
        rw [size_append, size_cons, size_nil]
        unfold entrySize
        omega
      rw [if_pos hbig, evict_concat hbig]
      simp only [map_append, map_cons, map_nil, getLast?_concat, dropLast_concat]
      rw [show (entryOf f).name = f.1 from rfl, show (entryOf f).value = f.2 from rfl, hsize]
      exact ih (by omega)
    · rw [if_neg hbig, evict_of_le (by omega)]

theorem evict_eq (l : List Field) (maxSize maxListSize : ℕ) :
    evict ⟨l.map entryOf, Rfc7541.size l, maxSize, maxListSize⟩ =
      ⟨(Rfc7541.evict maxSize l).map entryOf, Rfc7541.size (Rfc7541.evict maxSize l), maxSize, maxListSize⟩ :=
  evictLoop_eq l (by simp) maxSize maxListSize

end HpackDecoder

namespace Mirrors
variable {d : HpackDecoder} {t : Table}

theorem setMaxSize (h : Mirrors d t) (n : ℕ) :
    Mirrors (d.setMaxSize n) (t.resize n) ∧ (d.setMaxSize n).maxListSize = d.maxListSize := by
  have heq : d.setMaxSize n = ⟨(Rfc7541.evict n t.entries).map entryOf,
      Rfc7541.size (Rfc7541.evict n t.entries), n, d.maxListSize⟩ := by
    rw [← HpackDecoder.evict_eq, ← h.dyn, ← h.size]
    rfl
  rw [heq]
  exact ⟨⟨rfl, rfl, rfl⟩, rfl⟩

theorem add (h : Mirrors d t) (f : Field) :
    Mirrors (d.add (entryOf f)) (t.insert f) ∧ (d.add (entryOf f)).maxListSize = d.maxListSize := by
  have hinsert : (t.insert f).entries = Rfc7541.evict t.maxSize (f :: t.entries) :=
    (evict_cons t.maxSize f t.entries).symm
  have heq : d.add (entryOf f) = ⟨(t.insert f).entries.map entryOf,
      Rfc7541.size (t.insert f).entries, t.maxSize, d.maxListSize⟩ := by
    rw [hinsert, ← HpackDecoder.evict_eq, map_cons, ← h.dyn, size_cons, ← h.size, ← h.maxSize, add_comm (entrySize f)]
    rfl
  rw [heq]
  exact ⟨⟨rfl, rfl, rfl⟩, rfl⟩

theorem staticTable_valid : staticTable.all (fun f => !badField f) = true := by decide +kernel

theorem entryOf_static {f : Field} (h : f ∈ staticTable) : entryOf f = ⟨f.1, f.2, false, false⟩ := by
  have hvalid := all_eq_true.mp staticTable_valid f h
  unfold badField at hvalid
  unfold entryOf
  simp only [Bool.not_or, Bool.not_not, Bool.and_eq_true] at hvalid
  rw [hvalid.1, hvalid.2]
  rfl

theorem lookup (h : Mirrors d t) (idx : ℕ) : d.lookup idx = (t.lookup idx).map entryOf := by
  have hlen : staticTable.length = 61 := rfl
  unfold HpackDecoder.lookup Table.lookup
  rw [hlen]
  by_cases hstatic : 1 ≤ idx ∧ idx ≤ 61
  · rw [if_pos hstatic, if_neg (by omega), if_pos hstatic.2]
    obtain ⟨k, rfl⟩ : ∃ k, idx = k + 1 := ⟨idx - 1, by omega⟩
    have hget : staticTable[k]? = some (staticTable.get ⟨k, by omega⟩) := by simp
    have hmem : staticTable.get ⟨k, by omega⟩ ∈ staticTable := get_mem _ _
    unfold hpackStatic
    rw [getElem?_cons_succ, Nat.add_sub_cancel, hget, Option.map_some, Option.map_some, entryOf_static hmem]
  rw [if_neg hstatic]
  by_cases hzero : idx = 0
  · rw [if_neg (by omega), if_pos hzero]
    rfl
  rw [if_pos (by omega), if_neg hzero, if_neg (by omega), h.dyn, getElem?_map]
  congr 2

end Mirrors

/-! Representations and blocks. -/

def nameAt (t : Table) (idx : ℕ) (s : Bytes) : Option (Bytes × Bytes) :=
  if idx = 0 then decodeString s else (t.lookup idx).map fun f => (f.1, s)

/-- The integers of a literal field have at most five octets after their first. -/
def ShortLiteral (t : Table) (n : ℕ) (s : Bytes) : Prop :=
  ShortInt n s ∧ ∀ idx rest, decodeInt n s = some (idx, rest) → (idx = 0 → ShortInt 7 rest) ∧
      ∀ name rest', nameAt t idx rest = some (name, rest') → ShortInt 7 rest'

/-- What the client's decoder asks of a representation beyond the reference decoder: short
integers, and a size update not above the current maximum. -/
def RepFits (t : Table) (s : Bytes) : Prop :=
  let b := (s.head?.getD 0).toNat
  if b ≥ 128 then ShortInt 7 s
  else if b ≥ 64 then ShortLiteral t 6 s
  else if b ≥ 32 then
    ShortInt 5 s ∧ ∀ n rest, decodeInt 5 s = some (n, rest) → n ≤ t.maxSize
  else ShortLiteral t 4 s

/-- Every representation of the block fits where the reference decoder meets it. -/
def BlockFits : ℕ → Table → List Field → Bytes → Prop
  | _, _, _, [] => True
  | 0, _, _, _ :: _ => True
  | fuel + 1, t, fields, b :: s =>
    RepFits t (b :: s) ∧ ∀ f t' rest,
      decodeStep advertisedTableSize t fields.isEmpty (b :: s) = some (f, t', rest) →
        BlockFits fuel t' (fields ++ f.toList) rest

namespace Mirrors
variable {d : HpackDecoder} {t : Table} {s rest : Bytes} {t' : Table}

theorem readName (h : Mirrors d t) {idx : ℕ} {name : Bytes}
    (href : nameAt t idx s = some (name, rest)) (hshort : idx = 0 → ShortInt 7 s) :
    d.readName idx s = .ok ((name, !isValidH2FieldName name), rest) := by
  unfold nameAt at href
  unfold HpackDecoder.readName
  split_ifs at href ⊢ with hidx
  · rw [hpackReadString_complete href (hshort hidx)]
  rw [h.lookup]
  rcases hl : t.lookup idx with _ | f
  · simp [hl] at href
  rw [hl] at href
  cases href
  rfl

theorem readNameValue (h : Mirrors d t) {n : ℕ} {f : Field}
    (href : decodeLiteral t n s = some (f, rest)) (hshort : ShortLiteral t n s) :
    d.readNameValue s n = .ok (entryOf f, rest) := by
  unfold decodeLiteral at href
  unfold HpackDecoder.readNameValue
  rcases hint : decodeInt n s with _ | r
  · simp [hint] at href
  obtain ⟨idx, tail⟩ := r
  obtain ⟨hname0, hvalue⟩ := hshort.2 idx tail hint
  rw [hpackReadInt_complete hint hshort.1]
  simp only [hint] at href
  rw [← nameAt] at href
  rcases hname : nameAt t idx tail with _ | r
  · simp [hname] at href
  obtain ⟨name, tail'⟩ := r
  simp only [hname] at href
  rcases hval : decodeString tail' with _ | r
  · simp [hval] at href
  rw [hval] at href
  cases href
  simp only [h.readName hname hname0, hpackReadString_complete hval (hvalue name tail' hname)]
  rfl

open Option

theorem readRep (h : Mirrors d t) {b : UInt8} {start : Bool} {f : Option Field}
    (href : decodeStep advertisedTableSize t start (b :: s) = some (f, t', rest))
    (hfit : RepFits t (b :: s)) :
    ∃ d', d.readRep b (b :: s) = .ok (d', f.map entryOf, rest) ∧ Mirrors d' t' ∧ d'.maxListSize = d.maxListSize := by
  obtain ⟨h80, h40, h20⟩ := flag_bits b
  unfold decodeStep at href
  unfold RepFits at hfit
  unfold HpackDecoder.readRep
  by_cases hidx : ((b :: s).head?.getD 0).toNat ≥ 128
  · rw [if_pos hidx] at href hfit
    rw [if_pos (h80.mpr hidx)]
    rcases hint : decodeInt 7 (b :: s) with _ | r
    · simp [hint] at href
    simp only [hint, map_eq_some_iff] at href
    obtain ⟨g, hget, heq⟩ := href
    cases heq
    simp only [hpackReadInt_complete hint hfit, h.lookup, hget]
    exact ⟨d, rfl, h, rfl⟩
  rw [if_neg hidx] at href hfit
  rw [if_neg (fun hne => hidx (h80.mp hne))]
  have hlt : b.toNat < 128 := Nat.lt_of_not_le hidx
  by_cases hinc : ((b :: s).head?.getD 0).toNat ≥ 64
  · rw [if_pos hinc] at href hfit
    rw [if_pos ((h40 hlt).mpr hinc)]
    simp only [map_eq_some_iff] at href
    obtain ⟨⟨g, tail⟩, hlit, heq⟩ := href
    cases heq
    simp only [h.readNameValue hlit hfit]
    exact ⟨d.add (entryOf g), rfl, h.add g⟩
  rw [if_neg hinc] at href hfit
  rw [if_neg (fun hne => hinc ((h40 hlt).mp hne))]
  have hlt' : b.toNat < 64 := Nat.lt_of_not_le hinc
  by_cases hupd : ((b :: s).head?.getD 0).toNat ≥ 32
  · rw [if_pos hupd] at href hfit
    rw [if_pos ((h20 hlt').mpr hupd)]
    cases start with
    | false => cases href
    | true =>
      rcases hint : decodeInt 5 (b :: s) with _ | r
      · simp [hint] at href
      obtain ⟨n, tail⟩ := r
      have hle : ¬ n > d.maxSize := by
        rw [h.maxSize]
        exact not_lt.mpr (hfit.2 n tail hint)
      simp only [hint, Bool.not_true, Bool.false_eq_true, if_false] at href
      split_ifs at href
      cases href
      simp only [hpackReadInt_complete hint hfit.1]
      rw [if_neg hle]
      exact ⟨d.setMaxSize n, rfl, h.setMaxSize n⟩
  rw [if_neg hupd] at href hfit
  rw [if_neg (fun hne => hupd ((h20 hlt').mp hne))]
  simp only [map_eq_some_iff] at href
  obtain ⟨⟨g, tail⟩, hlit, heq⟩ := href
  cases heq
  simp only [h.readNameValue hlit hfit]
  exact ⟨d, rfl, h, rfl⟩

theorem fields_le {limit fuel : ℕ} {t : Table} {fields fields' : List Field}
    (h : Rfc7541.decodeLoop limit fuel t fields s = some (fields', t')) :
    Rfc7541.size fields ≤ Rfc7541.size fields' := by
  induction fuel generalizing t fields s with
  | zero =>
    cases s with
    | nil => rw [Rfc7541.decodeLoop] at h; cases h; exact le_rfl
    | cons b s => simp [Rfc7541.decodeLoop] at h
  | succ fuel ih =>
    rcases s with _ | ⟨b, s⟩
    · rw [Rfc7541.decodeLoop] at h; cases h; exact le_rfl
    rw [Rfc7541.decodeLoop] at h
    rcases hstep : decodeStep limit t fields.isEmpty (b :: s) with _ | r
    · simp [hstep] at h
    simp only [hstep] at h
    have := ih h
    rw [size_append] at this
    omega

/-- The invariant of the loop: the field list, its size and the malformed flag so far are
those of the reference decoder's fields. -/
theorem decodeLoop {fuel : ℕ} (h : Mirrors d t) {fields fields' : List Field}
    (href : Rfc7541.decodeLoop advertisedTableSize fuel t fields s = some (fields', t'))
    (hfit : BlockFits fuel t fields s) (hlist : Rfc7541.size fields' ≤ d.maxListSize) :
    ∃ d', d.decodeLoop fuel (Rfc7541.size fields) (fields.any badField) fields s =
        (d', .ok (fields', fields'.any badField)) ∧ Mirrors d' t' ∧
      d'.maxListSize = d.maxListSize := by
  induction fuel generalizing d t fields s with
  | zero =>
    cases s with
    | nil => rw [Rfc7541.decodeLoop] at href; cases href; exact ⟨d, rfl, h, rfl⟩
    | cons b s => simp [Rfc7541.decodeLoop] at href
  | succ fuel ih =>
    rcases s with _ | ⟨b, s⟩
    · rw [Rfc7541.decodeLoop] at href; cases href; exact ⟨d, rfl, h, rfl⟩
    rw [Rfc7541.decodeLoop] at href
    rw [BlockFits] at hfit
    rw [HpackDecoder.decodeLoop]
    rcases hstep : decodeStep advertisedTableSize t fields.isEmpty (b :: s) with _ | r
    · simp [hstep] at href
    obtain ⟨f, t₁, rest⟩ := r
    obtain ⟨d₁, hread, h₁, hmax⟩ := h.readRep hstep hfit.1
    have hfit' := hfit.2 f t₁ rest hstep
    simp only [hstep] at href
    rw [← hmax] at hlist ⊢
    rcases f with _ | f
    · rw [toList_none, append_nil] at href hfit'
      simp only [hread, map_none]
      exact ih h₁ href hfit' hlist
    have hsize : Rfc7541.size fields + (f.1.length + f.2.length + fpHpackEntryOverhead) =
        Rfc7541.size (fields ++ [f]) := by
      rw [size_append, size_cons, size_nil]
      rfl
    have hbad : (fields.any badField || (entryOf f).nameBad || (entryOf f).valueBad) =
        (fields ++ [f]).any badField := by
      simp [badField, entryOf, Bool.or_assoc]
    have hle := (fields_le href).trans hlist
    simp only [hread, map_some]
    rw [hbad]
    change ∃ d', (if Rfc7541.size fields + (f.1.length + f.2.length + fpHpackEntryOverhead) >
        d₁.maxListSize then (d₁, .error .headerTooLarge)
      else d₁.decodeLoop fuel (Rfc7541.size fields + (f.1.length + f.2.length + fpHpackEntryOverhead))
        ((fields ++ [f]).any badField) (fields ++ [f]) rest) = _ ∧ _
    rw [hsize, if_neg (by rw [toList_some] at hle; omega)]
    exact ih h₁ href hfit' hlist

theorem decode (h : Mirrors d t) {fields : List Field} (href : decodeBlock advertisedTableSize t s = some (fields, t'))
    (hfit : BlockFits s.length t [] s) (hlist : Rfc7541.size fields ≤ d.maxListSize) :
    ∃ d', d.decode s = (d', .ok (fields, fields.any badField)) ∧ Mirrors d' t' ∧ d'.maxListSize = d.maxListSize :=
  h.decodeLoop href hfit hlist

end Mirrors

def referenceAll (t : Table) : List Bytes → Option (List (List Field × Table))
  | [] => some []
  | s :: blocks =>
    match decodeBlock advertisedTableSize t s with
    | none => none
    | some (fields, t') => (referenceAll t' blocks).map ((fields, t') :: ·)

def BlocksFit (maxListSize : ℕ) : Table → List Bytes → Prop
  | _, [] => True
  | t, s :: blocks => BlockFits s.length t [] s ∧ ∀ fields t',
      decodeBlock advertisedTableSize t s = some (fields, t') →
        Rfc7541.size fields ≤ maxListSize ∧ BlocksFit maxListSize t' blocks

/-- The answer to a block: the reference table, the fields, and whether one is invalid. -/
def Agrees (got : HpackDecoder × Except FpError (List Field × Bool)) (ref : List Field × Table) : Prop :=
  Mirrors got.1 ref.2 ∧ got.2 = .ok (ref.1, ref.1.any badField)

open Option

theorem Mirrors.decodeAll {d : HpackDecoder} {t : Table} (h : Mirrors d t) {blocks : List Bytes}
    {refs : List (List Field × Table)} (href : referenceAll t blocks = some refs)
    (hfit : BlocksFit d.maxListSize t blocks) : List.Forall₂ Agrees (d.decodeAll blocks) refs := by
  induction blocks generalizing d t refs with
  | nil =>
    rw [referenceAll] at href
    cases href
    exact .nil
  | cons s blocks ih =>
    rw [referenceAll] at href
    rw [BlocksFit] at hfit
    rcases hblock : decodeBlock advertisedTableSize t s with _ | r
    · simp [hblock] at href
    obtain ⟨fields, t'⟩ := r
    obtain ⟨hlist, hrest⟩ := hfit.2 fields t' hblock
    obtain ⟨_, hdec, h', hmax⟩ := h.decode hblock hfit.1 hlist
    simp only [hblock, map_eq_some_iff] at href
    obtain ⟨_, hrefs, rfl⟩ := href
    rw [HpackDecoder.decodeAll, hdec]
    refine .cons ⟨h', rfl⟩ (ih h' hrefs ?_)
    rw [hmax]
    exact hrest

/-- Every block that the reference decoder accepts, without a size update above the maximum, an
integer of more than six octets or a list over the limit, is decoded to its fields and to the
reference table. -/
theorem decodeAll_reference (maxListSize : ℕ) (blocks : List Bytes) (refs : List (List Field × Table))
    (href : referenceAll (.empty advertisedTableSize) blocks = some refs)
    (hfit : BlocksFit maxListSize (.empty advertisedTableSize) blocks) :
    List.Forall₂ Agrees (HpackDecoder.decodeAll ⟨[], 0, advertisedTableSize, maxListSize⟩ blocks) refs := by
  have hinit : Mirrors ⟨[], 0, advertisedTableSize, maxListSize⟩ (.empty advertisedTableSize) := ⟨rfl, rfl, rfl⟩
  exact hinit.decodeAll href hfit

theorem decodeAll_reference_lowered : List.Forall₂ Agrees
      (HpackDecoder.decodeAll ⟨[], 0, advertisedTableSize, 65536⟩ [[0x3f, 0xe1, 0x0f], [0x88]])
      [([], .empty 2048), ([(ascii ":status", ascii "200")], .empty 2048)] := by
  refine decodeAll_reference 65536 _ _ rfl ⟨⟨⟨?_, ?_⟩, ?_⟩, ?_⟩
  · intro v rest _
    exact Nat.le_add_left_of_le (by decide)
  · intro n rest h
    have hn : n = 2048 := congrArg Prod.fst (some.inj h).symm
    rw [hn]
    decide
  · intro f t' rest h
    have hrest : [] = rest := congrArg (fun r => r.2.2) (some.inj h)
    rw [← hrest]
    trivial
  intro fields t' h
  have hf : [] = fields := congrArg Prod.fst (some.inj h)
  have ht : Table.empty 2048 = t' := congrArg Prod.snd (some.inj h)
  subst hf ht
  refine ⟨by decide, ⟨?_, ?_⟩, ?_⟩
  · intro v rest _
    exact Nat.le_add_left_of_le (by decide)
  · intro f t' rest h
    have hrest : [] = rest := congrArg (fun r => r.2.2) (some.inj h)
    rw [← hrest]
    trivial
  intro fields t' h
  have hf : [(ascii ":status", ascii "200")] = fields := congrArg Prod.fst (some.inj h)
  rw [← hf]
  exact ⟨by decide, trivial⟩

/-- The client's decoder refuses an integer with more than five octets after its first, and a header
list over its limit. -/
theorem decode_refuses_over_limits :
    ((referenceAll (.empty advertisedTableSize) [[0x3f, 0x80, 0x80, 0x80, 0x80, 0x80, 0]]).map
        fun refs => refs.map fun ref => (ref.1, ref.2.maxSize)) = some [([], 31)] ∧
    (HpackDecoder.decodeAll ⟨[], 0, advertisedTableSize, 65536⟩ [[0x3f, 0x80, 0x80, 0x80, 0x80, 0x80, 0]]).map
        Prod.snd = [.error .badResponse] ∧
    ((referenceAll (.empty advertisedTableSize) [[0x88]]).map fun refs => refs.map Prod.fst) =
      some [[(ascii ":status", ascii "200")]] ∧
    (HpackDecoder.decodeAll ⟨[], 0, advertisedTableSize, 41⟩ [[0x88]]).map Prod.snd = [.error .headerTooLarge] :=
  ⟨rfl, rfl, rfl, rfl⟩

end AlosHttp.Proxy

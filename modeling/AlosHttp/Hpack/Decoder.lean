import AlosHttp.Hpack.Huffman
import AlosHttp.Hpack.Table

/-! The block decoder of `hpack.go`: integers, strings with their Huffman cache, field
representations and `DecodeInto`. A block it accepts is read as by the reference decoder of
RFC 7541, with the same table afterwards. -/
namespace AlosHttp.Hpack
open List Data Rfc7541

def hpackDecodeIntLoop : Bytes → ℕ → UInt64 → UInt64 → UInt64 × ℕ
  | [], _, _, _ => (0, 0)
  | b :: data, i, m, val =>
    let i := i + 1
    let low := (b &&& 0x7f).toUInt64
    if m > 63 ∨ low > (0xffffffffffffffff - val) >>> m then (0, 0)
    else
      let val := val + low <<< m
      if b &&& 0x80 = 0 then (val, i) else hpackDecodeIntLoop data i (m + 7) val

def hpackDecodeInt (data : Bytes) (prefixBits : UInt8) : UInt64 × ℕ :=
  match data with
  | [] => (0, 0)
  | b :: data =>
    if prefixBits - 1 > 7 then (0, 0)
    else
      let mask := UInt8.ofNat (2 ^ prefixBits.toNat - 1)
      let val := (b &&& mask).toUInt64
      if val < mask.toUInt64 then (val, 1) else hpackDecodeIntLoop data 1 0 val

variable (b : UInt8)

theorem low_toNat : (b &&& 0x7f).toUInt64.toNat = b.toNat % 128 := by
  rw [UInt8.toNat_toUInt64, UInt8.toNat_and]
  exact Nat.and_two_pow_sub_one_eq_mod b.toNat 7

theorem high_eq_zero_iff : b &&& 0x80 = 0 ↔ b.toNat < 128 :=
  forall_byte (P := fun b => b &&& 0x80 = 0 ↔ b.toNat < 128) (by decide +kernel) b

theorem group_fits_iff (m val : UInt64) : ¬ (m > 63 ∨ (b &&& 0x7f).toUInt64 > (0xffffffffffffffff - val) >>> m) ↔
      m.toNat ≤ 63 ∧ val.toNat + b.toNat % 128 * 2 ^ m.toNat < 2 ^ 64 := by
  have hmax : (0xffffffffffffffff - val).toNat = 2 ^ 64 - 1 - val.toNat := by
    rw [UInt64.toNat_sub_of_le]
    · rfl
    · have := val.toNat_lt
      show val.toNat ≤ 2 ^ 64 - 1
      omega
  rw [not_or, gt_iff_lt, gt_iff_lt, UInt64.not_lt, UInt64.not_lt, UInt64.le_iff_toNat_le,
    UInt64.le_iff_toNat_le, show (63 : UInt64).toNat = 63 from rfl]
  refine and_congr_right fun hm => ?_
  rw [low_toNat, UInt64.toNat_shiftRight, hmax, Nat.mod_eq_of_lt (show m.toNat < 64 by omega),
    Nat.shiftRight_eq_div_pow, Nat.le_div_iff_mul_le (Nat.two_pow_pos _)]
  have := val.toNat_lt
  omega

variable {m : UInt64}

theorem group_add {val : UInt64} (hm : m.toNat ≤ 63) (hfit : val.toNat + b.toNat % 128 * 2 ^ m.toNat < 2 ^ 64) :
    (val + (b &&& 0x7f).toUInt64 <<< m).toNat = val.toNat + b.toNat % 128 * 2 ^ m.toNat := by
  rw [UInt64.toNat_add, UInt64.toNat_shiftLeft, low_toNat,
    Nat.mod_eq_of_lt (show m.toNat < 64 by omega), Nat.shiftLeft_eq,
    Nat.mod_eq_of_lt (show b.toNat % 128 * 2 ^ m.toNat < 2 ^ 64 by omega), Nat.mod_eq_of_lt hfit]

theorem shift_add_seven (hm : m.toNat ≤ 63) : (m + 7).toNat = m.toNat + 7 := by
  exact Nat.mod_eq_of_lt (by show m.toNat + 7 < 2 ^ 64; omega)

variable {data : Bytes} {k : ℕ}
open Prod

theorem hpackDecodeIntLoop_sound {i : ℕ} {val : UInt64} {v : UInt64}
    (h : hpackDecodeIntLoop data i m val = (v, k)) (hk : k ≠ 0) :
    i < k ∧ k ≤ i + data.length ∧ decodeIntTail data m.toNat val.toNat = some (v.toNat, data.drop (k - i)) := by
  induction data generalizing i m val with
  | nil =>
    exact absurd (mk.inj h).2.symm hk
  | cons b data ih =>
    rw [hpackDecodeIntLoop] at h
    by_cases hbad : m > 63 ∨ (b &&& 0x7f).toUInt64 > (0xffffffffffffffff - val) >>> m
    · rw [if_pos hbad] at h
      exact absurd (mk.inj h).2.symm hk
    rw [if_neg hbad] at h
    obtain ⟨hm, hfit⟩ := (group_fits_iff b m val).mp hbad
    have hval := group_add b hm hfit
    rw [decodeIntTail, ← hval]
    split_ifs at h with hlast
    · obtain ⟨rfl, rfl⟩ := mk.inj h
      rw [if_pos ((high_eq_zero_iff b).mp hlast)]
      refine ⟨Nat.lt_succ_self i, by simp, ?_⟩
      rw [Nat.add_sub_cancel_left]
      rfl
    obtain ⟨_, _, htail⟩ := ih h
    rw [if_neg (fun hc => hlast ((high_eq_zero_iff b).mpr hc))]
    rw [shift_add_seven hm] at htail
    refine ⟨by omega, by rw [length_cons]; omega, ?_⟩
    rw [htail, show k - i = k - (i + 1) + 1 by omega, drop_succ_cons]

theorem prefixBits_range (p : UInt8) : ¬ p - 1 > 7 → 1 ≤ p.toNat ∧ p.toNat ≤ 8 :=
  forall_byte (P := fun p => ¬ p - 1 > 7 → 1 ≤ p.toNat ∧ p.toNat ≤ 8) (by decide +kernel) p

theorem hpackDecodeInt_sound {p : UInt8} {v : UInt64} (h : hpackDecodeInt data p = (v, k)) (hk : k ≠ 0) :
    k ≤ data.length ∧ decodeInt p.toNat data = some (v.toNat, data.drop k) := by
  rcases data with _ | ⟨b, data⟩
  · exact absurd (mk.inj h).2.symm hk
  unfold hpackDecodeInt at h
  dsimp only at h
  by_cases hp : p - 1 > 7
  · rw [if_pos hp] at h
    exact absurd (mk.inj h).2.symm hk
  rw [if_neg hp] at h
  obtain ⟨_, hp8⟩ := prefixBits_range p hp
  have hpow : 2 ^ p.toNat ≤ 2 ^ 8 := Nat.pow_le_pow_right (by omega) hp8
  have hmask : (UInt8.ofNat (2 ^ p.toNat - 1)).toNat = 2 ^ p.toNat - 1 := by
    exact Nat.mod_eq_of_lt (by omega)
  have hval : (b &&& UInt8.ofNat (2 ^ p.toNat - 1)).toUInt64.toNat = b.toNat % 2 ^ p.toNat := by
    rw [UInt8.toNat_toUInt64, UInt8.toNat_and, hmask, Nat.and_two_pow_sub_one_eq_mod]
  have hlt : (b &&& UInt8.ofNat (2 ^ p.toNat - 1)).toUInt64 <
      (UInt8.ofNat (2 ^ p.toNat - 1)).toUInt64 ↔ b.toNat % 2 ^ p.toNat < 2 ^ p.toNat - 1 := by
    rw [UInt64.lt_iff_toNat_lt, hval, UInt8.toNat_toUInt64, hmask]
  rw [decodeInt]
  by_cases hsmall : b.toNat % 2 ^ p.toNat < 2 ^ p.toNat - 1
  · rw [if_pos (hlt.mpr hsmall)] at h
    obtain ⟨rfl, rfl⟩ := mk.inj h
    rw [if_pos hsmall, hval]
    exact ⟨by simp, rfl⟩
  rw [if_neg (fun hc => hsmall (hlt.mp hc))] at h
  obtain ⟨_, _, htail⟩ := hpackDecodeIntLoop_sound h hk
  rw [if_neg hsmall, ← hval]
  refine ⟨by rw [length_cons]; omega, ?_⟩
  rw [show (0 : UInt64).toNat = 0 from rfl] at htail
  rw [htail, show k = k - 1 + 1 by omega, drop_succ_cons, Nat.add_sub_cancel]

def hpackDecodeString (data : Bytes) : Bytes × ℕ :=
  match data with
  | [] => ([], 0)
  | b :: _ =>
    let (sLen, n) := hpackDecodeInt data 7
    if sLen.toNat > data.length ∨ n + sLen.toNat > data.length then ([], 0)
    else
      let raw := (data.drop n).take sLen.toNat
      if b &&& 0x80 ≠ 0 then
        match hpackHuffmanDecode raw with
        | none => ([], 0)
        | some decoded => (decoded, n + sLen.toNat)
      else (raw, n + sLen.toNat)

theorem hpackDecodeInt_zero {p : UInt8} (h : (hpackDecodeInt data p).2 = 0) : hpackDecodeInt data p = (0, 0) := by
  have hloop : ∀ (data : Bytes) (i : ℕ) (m val : UInt64), (hpackDecodeIntLoop data i m val).2 = 0 →
      hpackDecodeIntLoop data i m val = (0, 0) := by
    intro data
    induction data with
    | nil => intro i m val _; rfl
    | cons b data ih =>
      intro i m val h
      rw [hpackDecodeIntLoop] at h ⊢
      split_ifs at h ⊢ with hbad hlast
      · rfl
      · exact ih _ _ _ h
  unfold hpackDecodeInt at h ⊢
  rcases data with _ | ⟨b, data⟩
  · rfl
  dsimp only at h ⊢
  split_ifs at h ⊢ with hp hsmall
  · rfl
  · exact hloop _ _ _ _ h

theorem hpackDecodeString_sound {v : Bytes} (h : hpackDecodeString data = (v, k))
    (hk : k ≠ 0) : k ≤ data.length ∧ decodeString data = some (v, data.drop k) := by
  rcases data with _ | ⟨b, data⟩
  · exact absurd (mk.inj h).2.symm hk
  unfold hpackDecodeString at h
  generalize hint : hpackDecodeInt (b :: data) 7 = r at h
  obtain ⟨sLen, n⟩ := r
  dsimp only at h
  by_cases hlong : sLen.toNat > (b :: data).length ∨ n + sLen.toNat > (b :: data).length
  · rw [if_pos hlong] at h
    exact absurd (mk.inj h).2.symm hk
  rw [if_neg hlong] at h
  -- a failed length leaves the count 0 in both branches
  have hn : n ≠ 0 := by
    rintro rfl
    have hz := hpackDecodeInt_zero (by rw [hint])
    rw [hint] at hz
    obtain ⟨rfl, -⟩ := mk.inj hz
    split_ifs at h
    · split at h
      all_goals exact hk (mk.inj h).2.symm
    · exact hk (mk.inj h).2.symm
  obtain ⟨_, hdec⟩ := hpackDecodeInt_sound hint hn
  have hlen : ¬ sLen.toNat > ((b :: data).drop n).length := by rw [length_drop]; omega
  have hhigh : (((b :: data).head?.getD 0).toNat ≥ 128) ↔ b &&& 0x80 ≠ 0 := by
    rw [ne_eq, high_eq_zero_iff]
    exact (not_lt).symm
  unfold decodeString
  rw [show (7 : UInt8).toNat = 7 from rfl] at hdec
  rw [hdec]
  dsimp only
  rw [if_neg hlen, drop_drop]
  split_ifs at h with hh
  · rw [if_pos (hhigh.mpr hh), ← hpackHuffmanDecode_eq]
    rcases hd : hpackHuffmanDecode (((b :: data).drop n).take sLen.toNat) with _ | decoded
    · rw [hd] at h
      exact absurd (mk.inj h).2.symm hk
    rw [hd] at h
    obtain ⟨rfl, rfl⟩ := mk.inj h
    exact ⟨by omega, rfl⟩
  rw [if_neg (fun hc => hh (hhigh.mp hc))]
  obtain ⟨rfl, rfl⟩ := mk.inj h
  exact ⟨by omega, rfl⟩

namespace HpackHuffmanDecodeCacheEntry

def matchEntry (e : HpackHuffmanDecodeCacheEntry) (hash : UInt64) (data : Bytes) : Bool :=
  if !e.used || e.hash != hash || e.size != data.length then false
  else if data.length ≤ 64 then e.inline.take data.length == data
  else if e.heap.length < data.length then false
  else e.heap.take data.length == data

def store (e : HpackHuffmanDecodeCacheEntry) (hash : UInt64) (data value : Bytes) : HpackHuffmanDecodeCacheEntry :=
  { used := true
    hash
    size := data.length % 2 ^ 32
    value
    heap := if data.length ≤ 64 then [] else data
    inline := if data.length ≤ 64 then data ++ e.inline.drop data.length else e.inline }

theorem eq_of_matchEntry_store {e : HpackHuffmanDecodeCacheEntry} {hash h : UInt64}
    {data value raw : Bytes} (hlen : data.length < 2 ^ 32)
    (hm : (e.store hash data value).matchEntry h raw = true) : raw = data := by
  unfold matchEntry store at hm
  rw [Nat.mod_eq_of_lt hlen] at hm
  by_cases hsize : data.length = raw.length
  · rw [← hsize] at hm
    by_cases h64 : data.length ≤ 64
    · simp only [h64, if_true, take_left' rfl, Bool.if_false_left] at hm
      simp at hm
      exact hm.2.symm
    simp only [h64, if_false, lt_irrefl, Bool.if_false_left, take_length] at hm
    simp at hm
    exact hm.2.symm
  · simp [hsize] at hm

end HpackHuffmanDecodeCacheEntry

def hpackHuffmanDecodeCacheMaxRaw : ℕ := 256

section
variable (hpackHashBytes : Bytes → UInt64)
namespace HpackDecoder

def huffmanString (d : HpackDecoder) (raw : Bytes) : Option Bytes × HpackDecoder :=
  let hash := hpackHashBytes raw
  match d.huffmanCache.find? (·.matchEntry hash raw) with
  | some e => (some e.value, d)
  | none =>
    match hpackHuffmanDecode raw with
    | none => (none, d)
    | some decoded =>
      if raw.length ≤ hpackHuffmanDecodeCacheMaxRaw then
        let slot := d.huffmanCacheNext.toNat % d.huffmanCache.length
        let e := d.huffmanCache.getD slot {}
        (some decoded,
          { d with
            huffmanCacheNext := d.huffmanCacheNext + 1
            huffmanCache := d.huffmanCache.set slot (e.store hash raw decoded) })
      else (some decoded, d)

def decodeString (d : HpackDecoder) (data : Bytes) : (Bytes × ℕ) × HpackDecoder :=
  match data with
  | [] => (([], 0), d)
  | b :: _ =>
    let (sLen, n) := hpackDecodeInt data 7
    if sLen.toNat > data.length ∨ n + sLen.toNat > data.length then (([], 0), d)
    else
      let raw := (data.drop n).take sLen.toNat
      if b &&& 0x80 = 0 then ((raw, n + sLen.toNat), d)
      else
        match d.huffmanString hpackHashBytes raw with
        | (none, d) => (([], 0), d)
        | (some value, d) => ((value, n + sLen.toNat), d)

def CacheOk (d : HpackDecoder) : Prop := ∀ e ∈ d.huffmanCache, ∀ hash raw, e.matchEntry hash raw = true →
    hpackHuffmanDecode raw = some e.value

/-- What reading a representation can change: the cache and the count of referenced octets. -/
def touched (d : HpackDecoder) (cache : List HpackHuffmanDecodeCacheEntry) (next : UInt8) (ref : ℕ) :
    HpackDecoder :=
  { d with huffmanCache := cache, huffmanCacheNext := next, dynRefBytes := d.dynRefBytes + ref }

theorem touched_touched (d : HpackDecoder) (cache cache') (next next' : UInt8) (ref ref' : ℕ) :
    (d.touched cache next ref).touched cache' next' ref' = d.touched cache' next' (ref + ref') := by
  unfold touched
  rw [← add_assoc]

theorem huffmanString_spec {d : HpackDecoder} (hc : d.CacheOk) (raw : Bytes) :
    ∃ cache next, (d.touched cache next 0).CacheOk ∧
      d.huffmanString hpackHashBytes raw = (hpackHuffmanDecode raw, d.touched cache next 0) := by
  unfold huffmanString
  dsimp only
  cases hfind : d.huffmanCache.find? (·.matchEntry (hpackHashBytes raw) raw) with
  | some e =>
    have hmem := mem_of_find?_eq_some hfind
    have hmatch := find?_some hfind
    rw [hc e hmem _ _ hmatch]
    exact ⟨d.huffmanCache, d.huffmanCacheNext, hc, rfl⟩
  | none =>
    rcases hd : hpackHuffmanDecode raw with _ | decoded
    · exact ⟨d.huffmanCache, d.huffmanCacheNext, hc, rfl⟩
    split_ifs with hlen
    · refine ⟨_, _, ?_, rfl⟩
      intro e he hash r hmatch
      obtain he | rfl := mem_or_eq_of_mem_set he
      · exact hc e he hash r hmatch
      have hlt : raw.length < 2 ^ 32 := by
        unfold hpackHuffmanDecodeCacheMaxRaw at hlen
        omega
      rw [HpackHuffmanDecodeCacheEntry.eq_of_matchEntry_store hlt hmatch, hd]
      rfl
    · exact ⟨d.huffmanCache, d.huffmanCacheNext, hc, rfl⟩

theorem decodeString_spec {d : HpackDecoder} (hc : d.CacheOk) (data : Bytes) :
    ∃ cache next, (d.touched cache next 0).CacheOk ∧
      d.decodeString hpackHashBytes data = (hpackDecodeString data, d.touched cache next 0) := by
  unfold decodeString hpackDecodeString
  rcases data with _ | ⟨b, data⟩
  · exact ⟨d.huffmanCache, d.huffmanCacheNext, hc, rfl⟩
  generalize hpackDecodeInt (b :: data) 7 = r
  obtain ⟨sLen, n⟩ := r
  dsimp only
  split_ifs with hlong hh hh'
  · exact ⟨d.huffmanCache, d.huffmanCacheNext, hc, rfl⟩
  · exact absurd hh hh'
  · exact ⟨d.huffmanCache, d.huffmanCacheNext, hc, rfl⟩
  obtain ⟨cache, next, hok, heq⟩ := huffmanString_spec hpackHashBytes hc (((b :: data).drop n).take sLen.toNat)
  refine ⟨cache, next, hok, ?_⟩
  rw [heq]
  cases hpackHuffmanDecode (((b :: data).drop n).take sLen.toNat) <;> rfl

end HpackDecoder
end

inductive HpackError where
  | badHeader
  | tooManyHeaders
  | tableSizeExceeded
  | sizeUpdateAfterField
  | malformedRequest
  | headerListTooLarge
  deriving DecidableEq

/-- A decoded representation: a field, with or without incremental indexing, or a size
update. -/
inductive Rep where
  | field (f : Field) (index : Bool)
  | sizeUpdate (maxSize : ℕ)
  deriving DecidableEq

section
variable (hpackHashBytes : Bytes → UInt64)
namespace HpackDecoder

def literalValue (d : HpackDecoder) (name : Bytes) (pos : ℕ) (data : Bytes) :
    Except HpackError (Field × ℕ) × HpackDecoder :=
  match d.decodeString hpackHashBytes (data.drop pos) with
  | ((value, n), d) =>
    if n = 0 then (.error .badHeader, d) else (.ok ((name, value), pos + n), d)

def literalField (d : HpackDecoder) (bits : UInt8) (data : Bytes) : Except HpackError (Field × ℕ) × HpackDecoder :=
  match hpackDecodeInt data bits with
  | (idx, pos) =>
    if pos = 0 then (.error .badHeader, d)
    else if idx > 0 then
      match d.lookupName idx with
      | none => (.error .badHeader, d)
      | some name => d.literalValue hpackHashBytes name pos data
    else
      match d.decodeString hpackHashBytes (data.drop pos) with
      | ((name, n), d) =>
        if n = 0 then (.error .badHeader, d)
        else d.literalValue hpackHashBytes name (pos + n) data

/-- The representation at the start of the unread block and its length. The field loops
differ only in what they do with it; `started` is set once there is a field. -/
def nextRep (d : HpackDecoder) (started : Bool) (data : Bytes) : Except HpackError (Rep × ℕ) × HpackDecoder :=
  let b := data.headD 0
  if b &&& 0x80 ≠ 0 then
    match hpackDecodeInt data 7 with
    | (idx, n) =>
      if n = 0 then (.error .badHeader, d)
      else
        match d.lookupIndex idx with
        | (none, d) => (.error .badHeader, d)
        | (some f, d) => (.ok (.field f false, n), d)
  else if b &&& 0x40 ≠ 0 then
    match d.literalField hpackHashBytes 6 data with
    | (.error e, d) => (.error e, d)
    | (.ok (f, n), d) => (.ok (.field f true, n), d)
  else if b &&& 0x20 ≠ 0 then
    if started then (.error .sizeUpdateAfterField, d)
    else
      match hpackDecodeInt data 5 with
      | (maxSize, n) =>
        if n = 0 then (.error .badHeader, d)
        else if maxSize.toNat > d.protocolMaxSize then (.error .tableSizeExceeded, d)
        else (.ok (.sizeUpdate maxSize.toNat, n), d)
  else
    match d.literalField hpackHashBytes 4 data with
    | (.error e, d) => (.error e, d)
    | (.ok (f, n), d) => (.ok (.field f false, n), d)

end HpackDecoder
end

def readValue (name : Bytes) (pos : ℕ) (data : Bytes) : Except HpackError (Field × ℕ) :=
  let r := hpackDecodeString (data.drop pos)
  if r.2 = 0 then .error .badHeader else .ok ((name, r.1), pos + r.2)

namespace HpackDynTable

/-- What `literalField` returns, as a function of the table alone. -/
def readLiteral (t : HpackDynTable) (bits : UInt8) (data : Bytes) : Except HpackError (Field × ℕ) :=
  let r := hpackDecodeInt data bits
  if r.2 = 0 then .error .badHeader
  else if r.1 > 0 then
    match t.lookupName r.1 with
    | none => .error .badHeader
    | some name => readValue name r.2 data
  else
    let s := hpackDecodeString (data.drop r.2)
    if s.2 = 0 then .error .badHeader else readValue s.1 (r.2 + s.2) data

/-- What `nextRep` returns, and the octets it adds to `dynRefBytes`, as a function of the
table and the protocol limit. -/
def readRep (t : HpackDynTable) (limit : ℕ) (started : Bool) (data : Bytes) : Except HpackError (Rep × ℕ) × ℕ :=
  let b := data.headD 0
  if b &&& 0x80 ≠ 0 then
    let r := hpackDecodeInt data 7
    if r.2 = 0 then (.error .badHeader, 0)
    else
      match t.fieldAt r.1 with
      | none => (.error .badHeader, 0)
      | some (f, size) => (.ok (.field f false, r.2), size)
  else if b &&& 0x40 ≠ 0 then
    ((t.readLiteral 6 data).map fun p => (.field p.1 true, p.2), 0)
  else if b &&& 0x20 ≠ 0 then
    if started then (.error .sizeUpdateAfterField, 0)
    else
      let r := hpackDecodeInt data 5
      if r.2 = 0 then (.error .badHeader, 0)
      else if r.1.toNat > limit then (.error .tableSizeExceeded, 0)
      else (.ok (.sizeUpdate r.1.toNat, r.2), 0)
  else ((t.readLiteral 4 data).map fun p => (.field p.1 false, p.2), 0)

variable {data : Bytes} {t : HpackDynTable} {limit n : ℕ} {f : Field}

theorem readRep_indexed {started : Bool} {idx : UInt64}
    {size : ℕ} (hb : data.headD 0 &&& 0x80 ≠ 0) (hint : hpackDecodeInt data 7 = (idx, n))
    (hn : n ≠ 0) (hf : t.fieldAt idx = some (f, size)) :
    t.readRep limit started data = (.ok (.field f false, n), size) := by
  unfold readRep
  rw [if_pos hb, hint, if_neg hn, hf]

theorem readRep_incremental {started : Bool}
    (hb : data.headD 0 &&& 0xc0 = 0x40) (hlit : t.readLiteral 6 data = .ok (f, n)) :
    t.readRep limit started data = (.ok (.field f true, n), 0) := by
  have hbits := forall_byte (P := fun b => b &&& 0xc0 = 0x40 → b &&& 0x80 = 0 ∧ b &&& 0x40 ≠ 0) (by decide +kernel) _ hb
  unfold readRep
  rw [if_neg (not_not.mpr hbits.1), if_pos hbits.2, hlit]
  rfl

theorem readRep_plain {started : Bool} (hb : data.headD 0 &&& 0xe0 = 0) (hlit : t.readLiteral 4 data = .ok (f, n)) :
    t.readRep limit started data = (.ok (.field f false, n), 0) := by
  have hbits := forall_byte (P := fun b => b &&& 0xe0 = 0 → b &&& 0x80 = 0 ∧ b &&& 0x40 = 0 ∧ b &&& 0x20 = 0)
      (by decide +kernel) _ hb
  unfold readRep
  rw [if_neg (not_not.mpr hbits.1), if_neg (not_not.mpr hbits.2.1), if_neg (not_not.mpr hbits.2.2), hlit]
  rfl

theorem readLiteral_named {bits : UInt8} {idx : UInt64}
    {name : Bytes} (hint : hpackDecodeInt data bits = (idx, n)) (hn : n ≠ 0) (hidx : idx > 0)
    (hname : t.lookupName idx = some name) : t.readLiteral bits data = readValue name n data := by
  unfold readLiteral
  rw [hint, if_neg hn, if_pos hidx, hname]

end HpackDynTable

theorem readValue_ok {name data value : Bytes} {pos n : ℕ}
    (h : hpackDecodeString (data.drop pos) = (value, n)) (hn : n ≠ 0) :
    readValue name pos data = .ok ((name, value), pos + n) := by
  unfold readValue
  rw [h, if_neg hn]

section
variable (hpackHashBytes : Bytes → UInt64)
namespace HpackDecoder
variable {d : HpackDecoder}

theorem literalValue_spec (hc : d.CacheOk) (name : Bytes) (pos : ℕ) (data : Bytes) :
    ∃ cache next, (d.touched cache next 0).CacheOk ∧ d.literalValue hpackHashBytes name pos data =
        (readValue name pos data, d.touched cache next 0) := by
  obtain ⟨cache, next, hok, heq⟩ := decodeString_spec hpackHashBytes hc (data.drop pos)
  refine ⟨cache, next, hok, ?_⟩
  unfold literalValue readValue
  rw [heq]
  dsimp only
  split_ifs <;> rfl

theorem literalField_spec (hc : d.CacheOk) (bits : UInt8) (data : Bytes) :
    ∃ cache next, (d.touched cache next 0).CacheOk ∧ d.literalField hpackHashBytes bits data =
        (d.toHpackDynTable.readLiteral bits data, d.touched cache next 0) := by
  unfold literalField HpackDynTable.readLiteral
  generalize hpackDecodeInt data bits = r
  obtain ⟨idx, pos⟩ := r
  dsimp only
  by_cases hpos : pos = 0
  · rw [if_pos hpos, if_pos hpos]
    exact ⟨d.huffmanCache, d.huffmanCacheNext, hc, rfl⟩
  rw [if_neg hpos, if_neg hpos]
  by_cases hidx : idx > 0
  · rw [if_pos hidx, if_pos hidx]
    cases d.lookupName idx with
    | none => exact ⟨d.huffmanCache, d.huffmanCacheNext, hc, rfl⟩
    | some name => exact literalValue_spec hpackHashBytes hc name pos data
  rw [if_neg hidx, if_neg hidx]
  obtain ⟨cache, next, hok, heq⟩ := decodeString_spec hpackHashBytes hc (data.drop pos)
  rw [heq]
  by_cases hname : (hpackDecodeString (data.drop pos)).2 = 0
  · rw [if_pos hname, if_pos hname]
    exact ⟨cache, next, hok, rfl⟩
  rw [if_neg hname, if_neg hname]
  exact literalValue_spec hpackHashBytes hok _ _ data

theorem nextRep_spec (hc : d.CacheOk) (started : Bool) (data : Bytes) :
    ∃ cache next, (d.touched cache next 0).CacheOk ∧ d.nextRep hpackHashBytes started data =
        ((d.toHpackDynTable.readRep d.protocolMaxSize started data).1,
          d.touched cache next (d.toHpackDynTable.readRep d.protocolMaxSize started data).2) := by
  unfold nextRep HpackDynTable.readRep
  dsimp only
  by_cases h80 : data.headD 0 &&& 0x80 ≠ 0
  · rw [if_pos h80, if_pos h80]
    generalize hpackDecodeInt data 7 = r
    obtain ⟨idx, n⟩ := r
    by_cases hn : n = 0
    · rw [if_pos hn, if_pos hn]
      exact ⟨d.huffmanCache, d.huffmanCacheNext, hc, rfl⟩
    rw [if_neg hn, if_neg hn]
    unfold lookupIndex
    cases d.fieldAt idx with
    | none | some p => exact ⟨d.huffmanCache, d.huffmanCacheNext, hc, rfl⟩
  rw [if_neg h80, if_neg h80]
  by_cases h40 : data.headD 0 &&& 0x40 ≠ 0
  · rw [if_pos h40, if_pos h40]
    obtain ⟨cache, next, hok, heq⟩ := literalField_spec hpackHashBytes hc 6 data
    refine ⟨cache, next, hok, ?_⟩
    rw [heq]
    cases d.toHpackDynTable.readLiteral 6 data <;> rfl
  rw [if_neg h40, if_neg h40]
  by_cases h20 : data.headD 0 &&& 0x20 ≠ 0
  · rw [if_pos h20, if_pos h20]
    refine ⟨d.huffmanCache, d.huffmanCacheNext, hc, ?_⟩
    split_ifs <;> rfl
  rw [if_neg h20, if_neg h20]
  obtain ⟨cache, next, hok, heq⟩ := literalField_spec hpackHashBytes hc 4 data
  refine ⟨cache, next, hok, ?_⟩
  rw [heq]
  cases d.toHpackDynTable.readLiteral 4 data <;> rfl

end HpackDecoder
end

def Rep.field? : Rep → Option Field
  | .field f _ => some f
  | .sizeUpdate _ => none

def Rep.applyTable (r : Table) : Rep → Table
  | .field f true => r.insert f
  | .field _ false => r
  | .sizeUpdate maxSize => r.resize maxSize

variable {data : Bytes} {n : ℕ}

theorem readValue_sound {name : Bytes} {pos : ℕ} {f : Field} (h : readValue name pos data = .ok (f, n)) :
    pos < n ∧ (Rfc7541.decodeString (data.drop pos)).map (fun p => ((name, p.1), p.2)) = some (f, data.drop n) := by
  unfold readValue at h
  by_cases hz : (hpackDecodeString (data.drop pos)).2 = 0
  · rw [if_pos hz] at h
    cases h
  rw [if_neg hz] at h
  cases h
  rw [(hpackDecodeString_sound rfl hz).2, drop_drop]
  exact ⟨by omega, rfl⟩

theorem HpackDynTable.readLiteral_sound {t : HpackDynTable} {r : Table} (h : t.Refines r)
    (hmax : r.maxSize < 2 ^ 64) {bits : UInt8} {f : Field}
    (heq : t.readLiteral bits data = .ok (f, n)) :
    n ≠ 0 ∧ decodeLiteral r bits.toNat data = some (f, data.drop n) := by
  unfold HpackDynTable.readLiteral at heq
  unfold decodeLiteral
  generalize hint : hpackDecodeInt data bits = p at heq
  obtain ⟨idx, pos⟩ := p
  by_cases hpos : pos = 0
  · rw [if_pos hpos] at heq
    cases heq
  rw [if_neg hpos] at heq
  rw [(hpackDecodeInt_sound hint hpos).2]
  dsimp only
  by_cases hidx : idx > 0
  · have hne : idx.toNat ≠ 0 := by
      have := UInt64.lt_iff_toNat_lt.mp hidx
      omega
    rw [if_pos hidx, h.lookupName hmax] at heq
    rw [if_neg hne]
    rcases hl : r.lookup idx.toNat with _ | g
    · rw [hl] at heq
      cases heq
    rw [hl] at heq
    obtain ⟨hlt, hval⟩ := readValue_sound heq
    exact ⟨by omega, hval⟩
  have hz : idx.toNat = 0 := by
    have := UInt64.le_iff_toNat_le.mp (UInt64.not_lt.mp hidx)
    rw [show (0 : UInt64).toNat = 0 from rfl] at this
    omega
  rw [if_neg hidx] at heq
  rw [if_pos hz]
  by_cases hname : (hpackDecodeString (data.drop pos)).2 = 0
  · rw [if_pos hname] at heq
    cases heq
  rw [if_neg hname] at heq
  obtain ⟨hlt, hval⟩ := readValue_sound heq
  rw [(hpackDecodeString_sound rfl hname).2, drop_drop]
  exact ⟨by omega, hval⟩

theorem flag_bits (b : UInt8) : (b &&& 0x80 ≠ 0 ↔ b.toNat ≥ 128) ∧ (b.toNat < 128 → (b &&& 0x40 ≠ 0 ↔ b.toNat ≥ 64)) ∧
      (b.toNat < 64 → (b &&& 0x20 ≠ 0 ↔ b.toNat ≥ 32)) :=
  forall_byte (P := fun b => (b &&& 0x80 ≠ 0 ↔ b.toNat ≥ 128) ∧ (b.toNat < 128 → (b &&& 0x40 ≠ 0 ↔ b.toNat ≥ 64)) ∧
      (b.toNat < 64 → (b &&& 0x20 ≠ 0 ↔ b.toNat ≥ 32))) (by decide +kernel) b

theorem HpackDynTable.readRep_sound {t : HpackDynTable} {r : Table} (h : t.Refines r)
    (hmax : r.maxSize < 2 ^ 64) {limit : ℕ} {started : Bool} {rep : Rep}
    (heq : (t.readRep limit started data).1 = .ok (rep, n)) :
    n ≠ 0 ∧ decodeStep limit r (!started) data = some (rep.field?, rep.applyTable r, data.drop n) ∧
      ∀ m, rep = .sizeUpdate m → m ≤ limit := by
  obtain ⟨h80, h40, h20⟩ := flag_bits (data.headD 0)
  unfold HpackDynTable.readRep at heq
  unfold decodeStep
  rw [← headD_eq_head?_getD]
  by_cases hb80 : data.headD 0 &&& 0x80 ≠ 0
  · rw [if_pos hb80] at heq
    rw [if_pos (h80.mp hb80)]
    generalize hint : hpackDecodeInt data 7 = p at heq
    obtain ⟨idx, k⟩ := p
    by_cases hk : k = 0
    · rw [if_pos hk] at heq
      cases heq
    rw [if_neg hk] at heq
    have hdec := (hpackDecodeInt_sound hint hk).2
    rw [show (7 : UInt8).toNat = 7 from rfl] at hdec
    rw [hdec]
    dsimp only
    rw [← h.fieldAt]
    rcases hf : t.fieldAt idx with _ | g
    · rw [hf] at heq
      cases heq
    rw [hf] at heq
    cases heq
    exact ⟨hk, rfl, fun m hm => (by cases hm)⟩
  have hlt80 : (data.headD 0).toNat < 128 := by
    by_contra hge
    exact hb80 (h80.mpr (not_lt.mp hge))
  rw [if_neg hb80] at heq
  rw [if_neg (by omega)]
  by_cases hb40 : data.headD 0 &&& 0x40 ≠ 0
  · rw [if_pos hb40] at heq
    rw [if_pos ((h40 hlt80).mp hb40)]
    rcases hl : t.readLiteral 6 data with e | p
    · rw [hl] at heq
      cases heq
    rw [hl] at heq
    cases heq
    obtain ⟨hne, hlit⟩ := readLiteral_sound h hmax hl
    rw [show (6 : UInt8).toNat = 6 from rfl] at hlit
    rw [hlit]
    exact ⟨hne, rfl, fun m hm => (by cases hm)⟩
  have hlt40 : (data.headD 0).toNat < 64 := by
    by_contra hge
    exact hb40 ((h40 hlt80).mpr (not_lt.mp hge))
  rw [if_neg hb40] at heq
  rw [if_neg (by omega)]
  by_cases hb20 : data.headD 0 &&& 0x20 ≠ 0
  · rw [if_pos hb20] at heq
    rw [if_pos ((h20 hlt40).mp hb20)]
    cases started with
    | true => cases heq
    | false =>
      generalize hint : hpackDecodeInt data 5 = p at heq
      obtain ⟨m, k⟩ := p
      dsimp only at heq
      by_cases hk : k = 0
      · rw [if_pos hk] at heq
        cases heq
      rw [if_neg hk] at heq
      by_cases hm : m.toNat > limit
      · rw [if_pos hm] at heq
        cases heq
      rw [if_neg hm] at heq
      cases heq
      have hdec := (hpackDecodeInt_sound hint hk).2
      rw [show (5 : UInt8).toNat = 5 from rfl] at hdec
      rw [hdec]
      refine ⟨hk, if_neg hm, fun m' hm' => ?_⟩
      cases hm'
      omega
  have hlt20 : (data.headD 0).toNat < 32 := by
    by_contra hge
    exact hb20 ((h20 hlt40).mpr (not_lt.mp hge))
  rw [if_neg hb20] at heq
  rw [if_neg (by omega)]
  rcases hl : t.readLiteral 4 data with e | p
  · rw [hl] at heq
    cases heq
  rw [hl] at heq
  cases heq
  obtain ⟨hne, hlit⟩ := readLiteral_sound h hmax hl
  rw [show (4 : UInt8).toNat = 4 from rfl] at hlit
  rw [hlit]
  exact ⟨hne, rfl, fun m hm => (by cases hm)⟩

/-- What a field loop of the source does with the fields it reads: `observe` takes a field
in, before it can enter the table, and `check` ends every round. -/
structure FieldLoop (σ : Type) where
  started : σ → Bool
  observe : σ → Field → σ × Option HpackError
  check : σ → Option HpackError

structure Looped (σ : Type) where
  acc : σ
  err : Option HpackError
  dec : HpackDecoder

section
variable {σ : Type} (hpackHashBytes : Bytes → UInt64)
namespace FieldLoop

def round (L : FieldLoop σ) (acc : σ) (d : HpackDecoder) : Rep → Looped σ
  | .field f index =>
    match L.observe acc f with
    | (acc, some e) => ⟨acc, some e, d⟩
    | (acc, none) =>
      let d := if index then d.addEntry f.1 f.2 else d
      ⟨acc, L.check acc, d⟩
  | .sizeUpdate maxSize => ⟨acc, L.check acc, d.setMaxSize maxSize⟩

/-- Every representation has an octet, so the length of the block is enough fuel. -/
def run (L : FieldLoop σ) : ℕ → HpackDecoder → σ → Bytes → Looped σ
  | _, d, acc, [] => ⟨acc, none, d⟩
  | 0, d, acc, _ :: _ => ⟨acc, some .badHeader, d⟩
  | fuel + 1, d, acc, b :: data =>
    match d.nextRep hpackHashBytes (L.started acc) (b :: data) with
    | (.error e, d) => ⟨acc, some e, d⟩
    | (.ok (rep, n), d) =>
      match L.round acc d rep with
      | ⟨acc, some e, d⟩ => ⟨acc, some e, d⟩
      | ⟨acc, none, d⟩ => run L fuel d acc ((b :: data).drop n)

end FieldLoop

def maxHeaders : ℕ := 128

/-- `DecodeInto` gathers the fields and counts them before they enter the table. -/
def intoLoop : FieldLoop (List Field) where
  started headers := !headers.isEmpty
  observe headers f :=
    let headers := headers ++ [f]
    (headers, if headers.length > maxHeaders then some .tooManyHeaders else none)
  check _ := none

def HpackDecoder.decodeInto (d : HpackDecoder) (data : Bytes) : Except HpackError (List Field) × HpackDecoder :=
  match intoLoop.run hpackHashBytes data.length d [] data with
  | ⟨_, some e, d⟩ => (.error e, d)
  | ⟨headers, none, d⟩ => (.ok headers, d)

end

theorem newHpackDecoder_cacheOk (tableSize : UInt32) : (newHpackDecoder tableSize).CacheOk := by
  intro e he _ _ hm
  have hempty : e = {} := eq_of_mem_replicate he
  subst hempty
  simp [HpackHuffmanDecodeCacheEntry.matchEntry] at hm

def Rep.applyDecoder (d : HpackDecoder) : Rep → HpackDecoder
  | .field f true => d.addEntry f.1 f.2
  | .field _ false => d
  | .sizeUpdate maxSize => d.setMaxSize maxSize

section
variable {σ : Type} (hpackHashBytes : Bytes → UInt64)

theorem FieldLoop.run_cons (L : FieldLoop σ) (fuel : ℕ) {d : HpackDecoder} (hc : d.CacheOk) (acc : σ)
    (b : UInt8) (data : Bytes) :
    ∃ d₁, (∃ cache next, d₁ = d.touched cache next
        (d.toHpackDynTable.readRep d.protocolMaxSize (L.started acc) (b :: data)).2) ∧ d₁.CacheOk ∧
      L.run hpackHashBytes (fuel + 1) d acc (b :: data) =
        match (d.toHpackDynTable.readRep d.protocolMaxSize (L.started acc) (b :: data)).1 with
        | .error e => ⟨acc, some e, d₁⟩
        | .ok (rep, n) =>
          match L.round acc d₁ rep with
          | ⟨acc, some e, d⟩ => ⟨acc, some e, d⟩
          | ⟨acc, none, d⟩ => L.run hpackHashBytes fuel d acc ((b :: data).drop n) := by
  obtain ⟨cache, next, hok, hrep⟩ := HpackDecoder.nextRep_spec hpackHashBytes hc (L.started acc) (b :: data)
  refine ⟨_, ⟨cache, next, rfl⟩, hok, ?_⟩
  rw [run, hrep]
  cases (d.toHpackDynTable.readRep d.protocolMaxSize (L.started acc) (b :: data)).1 <;> rfl

end

namespace HpackDecoder

/-- Reads of strings one after the other, each with its own hash function. -/
def decodeStrings : HpackDecoder → List ((Bytes → UInt64) × Bytes) → List (Bytes × ℕ)
  | _, [] => []
  | d, (hash, data) :: calls =>
    let (answer, d) := d.decodeString hash data
    answer :: d.decodeStrings calls

theorem decodeStrings_eq (calls : List ((Bytes → UInt64) × Bytes)) {d : HpackDecoder}
    (hc : d.CacheOk) : d.decodeStrings calls = calls.map fun call => hpackDecodeString call.2 := by
  induction calls generalizing d with
  | nil => rfl
  | cons call calls ih =>
    obtain ⟨hash, data⟩ := call
    obtain ⟨_, _, hok, heq⟩ := decodeString_spec hash hc data
    have hrest := ih hok
    rw [decodeStrings, heq]
    exact congrArg (_ :: ·) hrest

/-- Whatever was read before and whatever the hashes are, each string is read as without a cache. -/
theorem cached_strings_as_uncached (tableSize : UInt32) (calls : List ((Bytes → UInt64) × Bytes)) :
    (newHpackDecoder tableSize).decodeStrings calls = calls.map fun call => hpackDecodeString call.2 :=
  decodeStrings_eq calls (newHpackDecoder_cacheOk tableSize)

end HpackDecoder
end AlosHttp.Hpack

import AlosHttp.H1.Response
import AlosHttp.Hpack.Decoder
import AlosHttp.Hpack.HuffmanEncode
import Mathlib.Data.UInt

/-! The field encoder of `hpack.go`. The methods of `HpackEncoder` append to its buffer; here
they return what they append. Every field that they write is read back by `DecodeInto`. -/
namespace AlosHttp.Hpack
open List Data Rfc7541 AlosHttp.Core

/-- The octets after a full prefix. Ten groups of seven bits hold a 64-bit value, so nine
continuations are enough fuel. -/
def encodeIntLoop : ℕ → UInt64 → Bytes
  | 0, val => [val.toUInt8]
  | fuel + 1, val =>
    if val ≥ 128 then ((val &&& 0x7f).toUInt8 ||| 0x80) :: encodeIntLoop fuel (val >>> 7)
    else [val.toUInt8]

/-- `flags` is the source's `prefix`, the bits before the integer in its first octet. -/
def encodeInt (flags prefixBits : UInt8) (val : UInt64) : Bytes :=
  let maxFirst := UInt64.ofNat (2 ^ prefixBits.toNat - 1)
  if val < maxFirst then [flags ||| val.toUInt8]
  else (flags ||| maxFirst.toUInt8) :: encodeIntLoop 9 (val - maxFirst)

def hpackHuffmanMinValueLen : ℕ := 12

def encodeRaw (s : Bytes) : Bytes := encodeInt 0x00 7 (UInt64.ofNat s.length) ++ s

def encodeHuffman (s : Bytes) : Bytes :=
  encodeInt 0x80 7 (UInt64.ofNat (hpackHuffmanEncodedLen s)) ++ hpackHuffmanAppend [] s

def encodeString (s : Bytes) : Bytes :=
  if s.length < hpackHuffmanMinValueLen then encodeRaw s
  else if hpackHuffmanEncodedLen s < s.length then encodeHuffman s
  else encodeRaw s

/-- The source lower-cases each byte where it is used. -/
def encodeStringLower (s : Bytes) : Bytes :=
  if hpackHuffmanEncodedLen (toLowerASCII s) < s.length then encodeHuffman (toLowerASCII s)
  else encodeRaw (toLowerASCII s)

def hpackStaticNameMap : List (Bytes × ℕ) := hpackStaticTable.zipIdx.tail.foldl
    (fun names f => if (names.lookup f.1.1).isSome then names else names ++ [(f.1.1, f.2)]) []

def staticNameSwitch : List (Bytes × ℕ) :=
  [(":authority", 1), (":method", 2), (":path", 4), (":scheme", 6), ("content-length", 28),
    ("content-type", 31), ("server", 54)].map fun p => (ascii p.1, p.2)

def hpackFindStaticName (name : Bytes) : ℕ :=
  match staticNameSwitch.lookup name with
  | some idx => idx
  | none => (hpackStaticNameMap.lookup name).getD 0

def firstFold (name : Bytes) : List (String × ℕ) → ℕ
  | [] => 0
  | (s, idx) :: rest => if equalFoldASCII name (ascii s) then idx else firstFold name rest

/-- The tests of each length: those for names that start with a colon, if these are kept
apart, and the others. -/
def staticNameFold : ℕ → Option (List (String × ℕ)) × List (String × ℕ)
  | 3 => (none, [("age", 21), ("via", 60)])
  | 4 => (none, [("date", 33), ("etag", 34), ("from", 37), ("host", 38), ("link", 45), ("vary", 59)])
  | 5 => (some [(":path", 4)], [("allow", 22), ("range", 50)])
  | 6 => (none, [("accept", 19), ("cookie", 32), ("expect", 35), ("server", 54)])
  | 7 => (some [(":method", 2), (":scheme", 6), (":status", 8)],
      [("expires", 36), ("referer", 51), ("refresh", 52)])
  | 8 => (none, [("if-match", 39), ("if-range", 42), ("location", 46)])
  | 10 => (some [(":authority", 1)], [("set-cookie", 55), ("user-agent", 58)])
  | 11 => (none, [("retry-after", 53)])
  | 12 => (none, [("content-type", 31), ("max-forwards", 47)])
  | 13 => (none, [("accept-ranges", 18), ("authorization", 23), ("cache-control", 24),
      ("content-range", 30), ("if-none-match", 41), ("last-modified", 44)])
  | 14 => (none, [("accept-charset", 15), ("content-length", 28)])
  | 15 => (none, [("accept-encoding", 16), ("accept-language", 17)])
  | 16 => (none, [("content-encoding", 26), ("content-language", 27), ("content-location", 29),
      ("www-authenticate", 61)])
  | 17 => (none, [("if-modified-since", 40), ("transfer-encoding", 57)])
  | 18 => (none, [("proxy-authenticate", 48)])
  | 19 => (none, [("content-disposition", 25), ("if-unmodified-since", 43),
      ("proxy-authorization", 49)])
  | 25 => (none, [("strict-transport-security", 56)])
  | 27 => (none, [("access-control-allow-origin", 20)])
  | _ => (none, [])

def hpackFindStaticNameFold (name : Bytes) : ℕ :=
  match staticNameFold name.length with
  | (none, names) => firstFold name names
  | (some pseudo, names) =>
    if name.headD 0 == colon then firstFold name pseudo else firstFold name names

/-- A literal field without indexing whose name is in the static table. -/
def encodeStaticField (idx : ℕ) (value : Bytes) : Bytes := encodeInt 0x00 4 (UInt64.ofNat idx) ++ encodeString value

def encodeHeader (name value : Bytes) : Bytes :=
  let name := toLowerASCII name
  let idx := hpackFindStaticName name
  if idx > 0 then encodeStaticField idx value
  else 0x00 :: (encodeString name ++ encodeString value)

/-- An entry is only made from the encoding of its own field. -/
structure HpackCachedField where
  idx : ℕ
  value : Bytes
  enc : Bytes
  enc_eq : enc = encodeStaticField idx value

def hpackFieldCacheSlots : ℕ := 64
def hpackFieldCacheMaxValue : ℕ := 96

abbrev HpackFieldCache := Fin hpackFieldCacheSlots → Option HpackCachedField

def hpackFieldCacheSlot (idx : ℕ) (value : Bytes) : Fin hpackFieldCacheSlots :=
  let h := UInt32.ofNat idx * 0x9E3779B1
  let h := h ^^^ UInt32.ofNat value.length * 0x85EBCA6B
  let h :=
    if value.length > 0 then
      h ^^^ ((value.headD 0).toUInt32 <<< 8 ^^^ (value.getLastD 0).toUInt32 <<< 16 ^^^
        (value.getD (value.length / 2) 0).toUInt32 <<< 24)
    else h
  ⟨(h ^^^ h >>> 16).toNat % hpackFieldCacheSlots, Nat.mod_lt _ (by decide)⟩

def encodeStaticFieldCached (cache : HpackFieldCache) (idx : ℕ) (value : Bytes) : Bytes × HpackFieldCache :=
  if value.length > hpackFieldCacheMaxValue then (encodeStaticField idx value, cache)
  else
    let slot := hpackFieldCacheSlot idx value
    let miss := (encodeStaticField idx value,
      Function.update cache slot (some ⟨idx, value, encodeStaticField idx value, rfl⟩))
    match cache slot with
    | some ent => if ent.idx = idx ∧ ent.value = value then (ent.enc, cache) else miss
    | none => miss

def encodeHeaderFold (cache : HpackFieldCache) (name value : Bytes) : Bytes × HpackFieldCache :=
  let idx := hpackFindStaticNameFold name
  if idx > 0 then encodeStaticFieldCached cache idx value
  else (0x00 :: (encodeStringLower name ++ encodeString value), cache)

def encodeIndexed (idx : UInt64) : Bytes := encodeInt 0x80 7 idx

/-- `appendUint` takes an `int64`: of a negative number no loop runs and the last branch
writes one byte. -/
def uintDigits (code : Int64) : Bytes :=
  if code < 0 then [code.toInt8.toUInt8 + 48] else H1.appendUint [] code.toNatClampNeg

def encodeStatus (code : Int64) : Bytes :=
  if code = 200 then encodeIndexed 8
  else if code = 204 then encodeIndexed 9
  else if code = 206 then encodeIndexed 10
  else if code = 304 then encodeIndexed 11
  else if code = 400 then encodeIndexed 12
  else if code = 404 then encodeIndexed 13
  else if code = 500 then encodeIndexed 14
  else encodeInt 0x00 4 8 ++ encodeRaw (uintDigits code)

theorem shiftRight_seven (v : UInt64) : (v >>> 7).toNat = v.toNat / 128 := by
  rw [UInt64.toNat_shiftRight]
  exact Nat.shiftRight_eq_div_pow v.toNat 7

theorem group_octet (v : UInt64) : ((v &&& 0x7f).toUInt8 ||| 0x80).toNat = v.toNat % 128 + 128 := by
  have hlow : (v &&& 0x7f).toUInt8.toNat = v.toNat % 128 := by
    rw [UInt64.toNat_toUInt8, UInt64.toNat_and, show (0x7f : UInt64).toNat = 2 ^ 7 - 1 from rfl,
      Nat.and_two_pow_sub_one_eq_mod]
    omega
  have hbit : ∀ b : UInt8, b.toNat < 128 → (b ||| 0x80).toNat = b.toNat + 128 := forall_byte (by decide +kernel)
  rw [hbit _ (by omega), hlow]

theorem toNat_ofNat_of_lt {n : ℕ} (h : n < 2 ^ 64) : (UInt64.ofNat n).toNat = n := UInt64.toNat_ofNat_of_lt' h

theorem toUInt8_of_lt {v : UInt64} (h : v.toNat < 256) : v.toUInt8.toNat = v.toNat := by
  rw [UInt64.toNat_toUInt8]
  exact Nat.mod_eq_of_lt h

theorem hpackDecodeIntLoop_last {v m acc : UInt64} (rest : Bytes) (i : ℕ) (hv : v.toNat < 128)
    (hm : m.toNat ≤ 63) (hfit : acc.toNat + v.toNat * 2 ^ m.toNat < 2 ^ 64) :
    hpackDecodeIntLoop (v.toUInt8 :: rest) i m acc = (UInt64.ofNat (acc.toNat + v.toNat * 2 ^ m.toNat), i + 1) := by
  have hoct : v.toUInt8.toNat = v.toNat := toUInt8_of_lt (by omega)
  have hgroup : v.toUInt8.toNat % 128 = v.toNat := by omega
  rw [← hgroup] at hfit
  rw [hpackDecodeIntLoop]
  rw [if_neg ((group_fits_iff _ m acc).mpr ⟨hm, hfit⟩),
    if_pos ((high_eq_zero_iff _).mpr (by omega)), ← hgroup, ← group_add _ hm hfit, UInt64.ofNat_toNat]

theorem hpackDecodeIntLoop_encode {fuel : ℕ} {v m acc : UInt64} (rest : Bytes) (i : ℕ)
    (hv : v.toNat < 128 ^ (fuel + 1)) (hm : m.toNat ≤ 63)
    (hfit : acc.toNat + v.toNat * 2 ^ m.toNat < 2 ^ 64) :
    hpackDecodeIntLoop (encodeIntLoop fuel v ++ rest) i m acc =
      (UInt64.ofNat (acc.toNat + v.toNat * 2 ^ m.toNat), i + (encodeIntLoop fuel v).length) := by
  induction fuel generalizing v m acc i with
  | zero => exact hpackDecodeIntLoop_last rest i hv hm hfit
  | succ fuel ih =>
    rw [encodeIntLoop]
    split_ifs with hge
    · have hge' : 128 ≤ v.toNat := UInt64.le_iff_toNat_le.mp hge
      have hoct := group_octet v
      generalize (v &&& 0x7f).toUInt8 ||| 0x80 = b at hoct ⊢
      have hgroup : b.toNat % 128 = v.toNat % 128 := by omega
      -- the group and the groups above it
      have hsplit : v.toNat * 2 ^ m.toNat = b.toNat % 128 * 2 ^ m.toNat + v.toNat / 128 * 2 ^ (m.toNat + 7) := by
        rw [hgroup, pow_add]
        calc v.toNat * 2 ^ m.toNat = (v.toNat % 128 + 128 * (v.toNat / 128)) * 2 ^ m.toNat := by
              rw [Nat.mod_add_div]
          _ = _ := by ring
      have hnext : m.toNat + 7 ≤ 63 := by
        by_contra hbig
        have hpow : 2 ^ 64 ≤ 2 ^ (m.toNat + 7) := Nat.pow_le_pow_right (by decide) (by omega)
        have hle : 128 * 2 ^ m.toNat ≤ v.toNat * 2 ^ m.toNat := Nat.mul_le_mul_right _ hge'
        rw [pow_add] at hpow
        omega
      have hfit' : acc.toNat + b.toNat % 128 * 2 ^ m.toNat < 2 ^ 64 := by omega
      have hacc := group_add b hm hfit'
      rw [cons_append, hpackDecodeIntLoop]
      rw [if_neg ((group_fits_iff b m acc).mpr ⟨hm, hfit'⟩),
        if_neg (fun hz => absurd ((high_eq_zero_iff b).mp hz) (by omega)),
        ih (i + 1) (by rw [shiftRight_seven, Nat.div_lt_iff_lt_mul (by decide), ← pow_succ]; exact hv)
          (by rw [shift_add_seven hm]; exact hnext)
          (by rw [hacc, shiftRight_seven, shift_add_seven hm]; omega),
        hacc, shiftRight_seven, shift_add_seven hm, hsplit, add_assoc, length_cons,
        add_assoc i, add_comm 1]
    have hlt : v.toNat < 128 := not_le.mp fun hc => hge (UInt64.le_iff_toNat_le.mpr hc)
    exact hpackDecodeIntLoop_last rest i hlt hm hfit

def FlagsFor (flags prefixBits : UInt8) : Prop :=
  1 ≤ prefixBits.toNat ∧ prefixBits.toNat ≤ 8 ∧ flags.toNat % 2 ^ prefixBits.toNat = 0

instance (flags prefixBits : UInt8) : Decidable (FlagsFor flags prefixBits) := by
  unfold FlagsFor
  infer_instance

variable {flags p low : UInt8} {s enc value name : Bytes} {idx : ℕ} {f : Field}

theorem encodeInt_cons (h : FlagsFor flags p) (val : UInt64) :
    ∃ low tail, low.toNat < 2 ^ p.toNat ∧ encodeInt flags p val = (flags ||| low) :: tail := by
  obtain ⟨_, hp8, -⟩ := h
  have hpow : 2 ^ p.toNat ≤ 2 ^ 8 := Nat.pow_le_pow_right (by decide) hp8
  have hmax : (UInt64.ofNat (2 ^ p.toNat - 1)).toNat = 2 ^ p.toNat - 1 := toNat_ofNat_of_lt (by omega)
  have hpos := Nat.two_pow_pos p.toNat
  unfold encodeInt
  dsimp only
  split_ifs with hlt
  · rw [UInt64.lt_iff_toNat_lt, hmax] at hlt
    exact ⟨_, _, by rw [toUInt8_of_lt (by omega)]; omega, rfl⟩
  · exact ⟨_, _, by rw [toUInt8_of_lt (by omega), hmax]; omega, rfl⟩

theorem encodeInt_ne_nil (flags p : UInt8) (val : UInt64) : encodeInt flags p val ≠ [] := by
  unfold encodeInt
  dsimp only
  split_ifs
  all_goals exact cons_ne_nil _ _

theorem first_octet (h : FlagsFor flags p) (hlow : low.toNat < 2 ^ p.toNat) :
    ((flags ||| low) &&& UInt8.ofNat (2 ^ p.toNat - 1)).toUInt64.toNat = low.toNat := by
  obtain ⟨_, hp8, hflags⟩ := h
  have hpow : 2 ^ p.toNat ≤ 2 ^ 8 := Nat.pow_le_pow_right (by decide) hp8
  rw [UInt8.toNat_toUInt64, UInt8.toNat_and, UInt8.toNat_ofNat_of_lt' (show _ < 2 ^ 8 by omega),
    Nat.and_two_pow_sub_one_eq_mod, UInt8.toNat_or, Nat.or_mod_two_pow, hflags, Nat.zero_or,
    Nat.mod_eq_of_lt hlow]

theorem hpackDecodeInt_encode (h : FlagsFor flags p) (val : UInt64) (rest : Bytes) :
    hpackDecodeInt (encodeInt flags p val ++ rest) p = (val, (encodeInt flags p val).length) := by
  have hp : ¬ p - 1 > 7 := forall_byte (P := fun p => 1 ≤ p.toNat ∧ p.toNat ≤ 8 → ¬ p - 1 > 7) (by decide +kernel) p
      ⟨h.1, h.2.1⟩
  have hpow : 2 ^ p.toNat ≤ 2 ^ 8 := Nat.pow_le_pow_right (by decide) h.2.1
  have hpos := Nat.two_pow_pos p.toNat
  have hmax : (UInt64.ofNat (2 ^ p.toNat - 1)).toNat = 2 ^ p.toNat - 1 := toNat_ofNat_of_lt (by omega)
  have hmask : (UInt8.ofNat (2 ^ p.toNat - 1)).toUInt64.toNat = 2 ^ p.toNat - 1 := by
    exact UInt8.toNat_ofNat_of_lt' (show _ < 2 ^ 8 by omega)
  unfold encodeInt
  by_cases hlt : val < UInt64.ofNat (2 ^ p.toNat - 1)
  · rw [if_pos hlt]
    rw [UInt64.lt_iff_toNat_lt, hmax] at hlt
    have hlow : val.toUInt8.toNat = val.toNat := toUInt8_of_lt (by omega)
    have hval := first_octet h (show val.toUInt8.toNat < 2 ^ p.toNat by omega)
    rw [hlow] at hval
    rw [singleton_append, hpackDecodeInt, if_neg hp]
    rw [if_pos (by rw [UInt64.lt_iff_toNat_lt, hval, hmask]; exact hlt), UInt64.toNat_inj.mp hval]
    rfl
  rw [if_neg hlt]
  rw [UInt64.lt_iff_toNat_lt, hmax] at hlt
  have hlow : (UInt64.ofNat (2 ^ p.toNat - 1)).toUInt8.toNat = 2 ^ p.toNat - 1 := by
    rw [toUInt8_of_lt (by omega), hmax]
  have hval := first_octet h (show (UInt64.ofNat (2 ^ p.toNat - 1)).toUInt8.toNat < 2 ^ p.toNat by omega)
  have hsub : (val - UInt64.ofNat (2 ^ p.toNat - 1)).toNat = val.toNat - (2 ^ p.toNat - 1) := by
    rw [UInt64.toNat_sub_of_le _ _ (UInt64.le_iff_toNat_le.mpr (by rw [hmax]; omega)), hmax]
  have hvlt := val.toNat_lt
  rw [cons_append, hpackDecodeInt, if_neg hp]
  rw [if_neg (by rw [UInt64.lt_iff_toNat_lt, hval, hmask]; omega),
    hpackDecodeIntLoop_encode rest 1 (by rw [hsub]; omega) (by decide)
      (by rw [hval, hsub, show (0 : UInt64).toNat = 0 from rfl]; omega),
    hval, hsub, show (0 : UInt64).toNat = 0 from rfl, length_cons, add_comm 1]
  congr 1
  apply UInt64.toNat_inj.mp
  rw [toNat_ofNat_of_lt (by omega)]
  omega

structure EncodesString (enc s : Bytes) : Prop where
  ne_nil : enc ≠ []
  read : ∀ rest, hpackDecodeString (enc ++ rest) = (s, enc.length)

theorem high_flag (hlow : low.toNat < 2 ^ (7 : UInt8).toNat) : (flags ||| low) &&& 0x80 = 0 ↔ flags &&& 0x80 = 0 := by
  rw [byte_or_and_eq_zero]
  exact and_iff_left ((high_eq_zero_iff low).mpr hlow)

theorem hpackDecodeString_frame (h : FlagsFor flags 7) {raw : Bytes} (hlen : raw.length < 2 ^ 64) (rest : Bytes) :
    hpackDecodeString (encodeInt flags 7 (UInt64.ofNat raw.length) ++ raw ++ rest) =
      if flags &&& 0x80 ≠ 0 then
        match hpackHuffmanDecode raw with
        | none => ([], 0)
        | some s => (s, (encodeInt flags 7 (UInt64.ofNat raw.length) ++ raw).length)
      else (raw, (encodeInt flags 7 (UInt64.ofNat raw.length) ++ raw).length) := by
  have hint := hpackDecodeInt_encode h (UInt64.ofNat raw.length) (raw ++ rest)
  obtain ⟨_, _, hlow, hcons⟩ := encodeInt_cons h (UInt64.ofNat raw.length)
  rw [append_assoc, length_append]
  generalize encodeInt flags 7 (UInt64.ofNat raw.length) = enc at hint hcons ⊢
  have hdrop : ((enc ++ (raw ++ rest)).drop enc.length).take raw.length = raw := by
    rw [drop_left, take_left]
  have htotal : (enc ++ (raw ++ rest)).length = enc.length + (raw.length + rest.length) := by
    rw [length_append, length_append]
  rw [hcons, cons_append] at hint hdrop htotal ⊢
  rw [hpackDecodeString]
  rw [hint]
  dsimp only
  rw [toNat_ofNat_of_lt hlen, if_neg (by omega), hdrop]
  exact if_congr (not_congr (high_flag hlow)) rfl rfl

theorem encodeRaw_encodes (hs : s.length < 2 ^ 63) : EncodesString (encodeRaw s) s where
  ne_nil := append_ne_nil_of_left_ne_nil (encodeInt_ne_nil _ _ _) _
  read rest := by
    unfold encodeRaw
    rw [hpackDecodeString_frame (by decide) (by omega), if_neg (by decide)]

theorem encodeHuffman_encodes (hs : hpackHuffmanEncodedLen s < 2 ^ 63) : EncodesString (encodeHuffman s) s where
  ne_nil := append_ne_nil_of_left_ne_nil (encodeInt_ne_nil _ _ _) _
  read rest := by
    unfold encodeHuffman
    rw [← hpackHuffmanAppend_length] at hs ⊢
    rw [hpackDecodeString_frame (by decide) (by omega), if_pos (by decide), hpackHuffmanDecode_append]

theorem encodeString_encodes (hs : s.length < 2 ^ 63) : EncodesString (encodeString s) s := by
  unfold encodeString
  split_ifs with hmin hshort
  · exact encodeRaw_encodes hs
  · exact encodeHuffman_encodes (by omega)
  · exact encodeRaw_encodes hs

theorem encodeStringLower_encodes (hs : s.length < 2 ^ 63) : EncodesString (encodeStringLower s) (toLowerASCII s) := by
  unfold encodeStringLower
  split_ifs with hshort
  · exact encodeHuffman_encodes (by omega)
  · exact encodeRaw_encodes (by unfold toLowerASCII; rw [length_map]; exact hs)

/-- An encoding that every table reads as the field, without indexing. -/
structure EncodesField (enc : Bytes) (f : Field) : Prop where
  ne_nil : enc ≠ []
  read : ∀ (t : HpackDynTable) (limit : ℕ) (started : Bool) (rest : Bytes),
    t.readRep limit started (enc ++ rest) = (.ok (.field f false, enc.length), 0)

open HpackDynTable

theorem static_index (hpos : 0 < idx) (hlt : idx < 62) :
    UInt64.ofNat idx ≠ 0 ∧ (UInt64.ofNat idx).toNat = idx := by
  have hnat : (UInt64.ofNat idx).toNat = idx := toNat_ofNat_of_lt (by omega)
  refine ⟨fun hz => ?_, hnat⟩
  rw [hz] at hnat
  exact absurd hnat (Nat.ne_of_lt hpos)

theorem lookupName_static (t : HpackDynTable) (hpos : 0 < idx) (hlt : idx < 62) :
    t.lookupName (UInt64.ofNat idx) = (hpackStaticTable[idx]?).map Prod.fst := by
  obtain ⟨hne, hnat⟩ := static_index hpos hlt
  unfold lookupName
  rw [if_neg hne, hnat, if_pos (by rw [hpackStaticTable_length]; exact hlt)]

theorem fieldAt_static (t : HpackDynTable) (hpos : 0 < idx) (hlt : idx < 62) :
    t.fieldAt (UInt64.ofNat idx) = (hpackStaticTable[idx]?).map fun f => (f, 0) := by
  obtain ⟨hne, hnat⟩ := static_index hpos hlt
  unfold fieldAt
  rw [hnat, if_pos (by rw [hpackStaticTable_length]; exact hlt), if_pos hne]

theorem readValue_encodes (h : EncodesString enc value) (name head rest : Bytes) :
    readValue name head.length (head ++ (enc ++ rest)) = .ok ((name, value), (head ++ enc).length) := by
  have hread : hpackDecodeString ((head ++ (enc ++ rest)).drop head.length) = (value, enc.length) := by
    rw [drop_left, h.read]
  rw [readValue_ok hread (fun hz => h.ne_nil (length_eq_zero_iff.mp hz)), length_append]

theorem static_idx_lt (hf : hpackStaticTable[idx]? = some f) : idx < 62 := by
  obtain ⟨hlt, -⟩ := List.getElem?_eq_some_iff.mp hf
  rw [hpackStaticTable_length] at hlt
  exact hlt

theorem readLiteral_static {bits : UInt8} (hflags : FlagsFor flags bits)
    (hf : hpackStaticTable[idx]? = some f) (hpos : 0 < idx)
    (h : EncodesString enc value) (t : HpackDynTable) (rest : Bytes) :
    t.readLiteral bits (encodeInt flags bits (UInt64.ofNat idx) ++ enc ++ rest) =
      .ok ((f.1, value), (encodeInt flags bits (UInt64.ofNat idx) ++ enc).length) := by
  have hlt := static_idx_lt hf
  have hname := lookupName_static t hpos hlt
  have hidx : UInt64.ofNat idx > 0 := by
    rw [gt_iff_lt, UInt64.lt_iff_toNat_lt, toNat_ofNat_of_lt (by omega)]
    exact hpos
  rw [hf] at hname
  have hint := hpackDecodeInt_encode hflags (UInt64.ofNat idx) (enc ++ rest)
  rw [append_assoc, readLiteral_named hint (fun hz => encodeInt_ne_nil _ _ _ (length_eq_zero_iff.mp hz)) hidx hname]
  exact readValue_encodes h f.1 _ rest

theorem readLiteral_literal {bits : UInt8}
    (hint : ∀ data, hpackDecodeInt (flags :: data) bits = (0, 1)) {encName encValue : Bytes}
    (hname : EncodesString encName name) (hvalue : EncodesString encValue value) (t : HpackDynTable)
    (rest : Bytes) :
    t.readLiteral bits (flags :: (encName ++ encValue) ++ rest) =
      .ok ((name, value), (flags :: (encName ++ encValue)).length) := by
  unfold readLiteral
  rw [cons_append, hint, if_neg one_ne_zero, if_neg (by decide), drop_succ_cons,
    drop_zero, append_assoc, hname.read,
    if_neg (fun hz => hname.ne_nil (length_eq_zero_iff.mp hz))]
  have hread := readValue_encodes hvalue name (flags :: encName) rest
  rw [length_cons, add_comm] at hread
  exact hread

theorem plain_flags (hlow : low.toNat < 2 ^ (4 : UInt8).toNat) : ((0x00 : UInt8) ||| low) &&& 0xe0 = 0 :=
  forall_byte (P := fun low => low.toNat < 2 ^ (4 : UInt8).toNat → ((0x00 : UInt8) ||| low) &&& 0xe0 = 0)
    (by decide +kernel) low hlow

theorem encodesField_static (idx : ℕ) (hf : hpackStaticTable[idx]? = some f)
    (hpos : 0 < idx) (h : EncodesString enc value) :
    EncodesField (encodeInt 0x00 4 (UInt64.ofNat idx) ++ enc) (f.1, value) where
  ne_nil := append_ne_nil_of_left_ne_nil (encodeInt_ne_nil _ _ _) _
  read t limit started rest := by
    have hflags : FlagsFor 0x00 4 := by decide
    obtain ⟨_, _, hlow, hcons⟩ := encodeInt_cons hflags (UInt64.ofNat idx)
    refine readRep_plain ?_ (readLiteral_static hflags hf hpos h t rest)
    rw [hcons]
    exact plain_flags hlow

theorem encodesField_literal {encName encValue : Bytes} (hname : EncodesString encName name)
    (hvalue : EncodesString encValue value) :
    EncodesField (0x00 :: (encName ++ encValue)) (name, value) where
  ne_nil := cons_ne_nil _ _
  read t limit started rest := readRep_plain (show (0x00 : UInt8) &&& 0xe0 = 0 by decide)
      (readLiteral_literal (fun _ => rfl) hname hvalue t rest)

theorem encodesField_indexed (idx : ℕ) (hf : hpackStaticTable[idx]? = some f)
    (hpos : 0 < idx) : EncodesField (encodeIndexed (UInt64.ofNat idx)) f where
  ne_nil := encodeInt_ne_nil _ _ _
  read t limit started rest := by
    have hfield := fieldAt_static t hpos (static_idx_lt hf)
    rw [hf] at hfield
    have hint := hpackDecodeInt_encode (show FlagsFor 0x80 7 by decide) (UInt64.ofNat idx) rest
    obtain ⟨_, _, hlow, hcons⟩ := encodeInt_cons (show FlagsFor 0x80 7 by decide) (UInt64.ofNat idx)
    unfold encodeIndexed
    refine readRep_indexed ?_ hint (fun hz => encodeInt_ne_nil _ _ _ (length_eq_zero_iff.mp hz)) hfield
    rw [hcons]
    exact fun hz => absurd ((high_flag hlow).mp hz) (by decide)

/-- The static entries that a list of names points to have these names. -/
def NamesStatic (names : List (Bytes × ℕ)) : Prop :=
  ∀ p ∈ names, 0 < p.2 ∧ (hpackStaticTable[p.2]?).map Prod.fst = some p.1

instance (names : List (Bytes × ℕ)) : Decidable (NamesStatic names) := by
  unfold NamesStatic
  infer_instance

theorem lookup_mem {names : List (Bytes × ℕ)} (h : names.lookup name = some idx) : (name, idx) ∈ names := by
  induction names with
  | nil => cases h
  | cons p names ih =>
    rw [lookup_cons] at h
    split at h
    · rename_i heq
      cases h
      rw [beq_iff_eq.mp heq]
      exact mem_cons_self
    · exact mem_cons_of_mem _ (ih h)

theorem hpackFindStaticName_static (h : hpackFindStaticName name > 0) :
    ∃ f, hpackStaticTable[hpackFindStaticName name]? = some f ∧ f.1 = name := by
  have hswitch : NamesStatic staticNameSwitch := by decide +kernel
  have hmap : NamesStatic hpackStaticNameMap := by decide +kernel
  unfold hpackFindStaticName at h ⊢
  cases hs : staticNameSwitch.lookup name with
  | some idx =>
    exact Option.map_eq_some_iff.mp (hswitch _ (lookup_mem hs)).2
  | none =>
    rw [hs] at h
    cases hm : hpackStaticNameMap.lookup name with
    | some idx => exact Option.map_eq_some_iff.mp (hmap _ (lookup_mem hm)).2
    | none =>
      rw [hm] at h
      exact absurd h (lt_irrefl 0)

/-- The names of a run of tests are in lower case and stand at their indices. -/
def FoldsStatic (names : List (String × ℕ)) : Prop := ∀ p ∈ names, toLowerASCII (ascii p.1) = ascii p.1 ∧
    (hpackStaticTable[p.2]?).map Prod.fst = some (ascii p.1)

instance (names : List (String × ℕ)) : Decidable (FoldsStatic names) := by
  unfold FoldsStatic
  infer_instance

theorem firstFold_static {names : List (String × ℕ)} (hn : FoldsStatic names) (h : firstFold name names > 0) :
    ∃ f, hpackStaticTable[firstFold name names]? = some f ∧ f.1 = toLowerASCII name := by
  induction names with
  | nil => exact absurd h (lt_irrefl 0)
  | cons p names ih =>
    obtain ⟨s, _⟩ := p
    rw [firstFold] at h ⊢
    by_cases heq : equalFoldASCII name (ascii s)
    · rw [if_pos heq]
      obtain ⟨hlower, hentry⟩ := hn _ mem_cons_self
      obtain ⟨f, hf, hname⟩ := Option.map_eq_some_iff.mp hentry
      refine ⟨f, hf, ?_⟩
      rw [(equalFoldASCII_iff _ _).mp heq, hlower, hname]
    rw [if_neg heq] at h ⊢
    exact ih (fun p hp => hn p (mem_cons_of_mem _ hp)) h

theorem staticNameFold_static (n : ℕ) :
    FoldsStatic ((staticNameFold n).1.getD []) ∧ FoldsStatic (staticNameFold n).2 := by
  by_cases hn : n < 28
  · have hall : ∀ n < 28, FoldsStatic ((staticNameFold n).1.getD []) ∧
        FoldsStatic (staticNameFold n).2 := by decide +kernel
    exact hall n hn
  have hempty : staticNameFold n = (none, []) := by
    unfold staticNameFold
    split <;> first | omega | rfl
  rw [hempty]
  constructor
  · intro p hp
    cases hp
  intro p hp
  cases hp

theorem hpackFindStaticNameFold_static (h : hpackFindStaticNameFold name > 0) :
    ∃ f, hpackStaticTable[hpackFindStaticNameFold name]? = some f ∧ f.1 = toLowerASCII name := by
  obtain ⟨hpseudo, hnames⟩ := staticNameFold_static name.length
  unfold hpackFindStaticNameFold at h ⊢
  rcases hs : staticNameFold name.length with ⟨pseudo, names⟩
  rw [hs] at h hpseudo hnames
  rcases pseudo with _ | pseudo
  · exact firstFold_static hnames h
  split_ifs at h ⊢ with hcolon
  · exact firstFold_static hpseudo h
  · exact firstFold_static hnames h

theorem encodeHeader_encodes (hname : name.length < 2 ^ 63) (hvalue : value.length < 2 ^ 63) :
    EncodesField (encodeHeader name value) (toLowerASCII name, value) := by
  unfold encodeHeader
  dsimp only
  split_ifs with hidx
  · obtain ⟨f, hf, hfname⟩ := hpackFindStaticName_static hidx
    have henc := encodesField_static _ hf hidx (encodeString_encodes hvalue)
    rw [hfname] at henc
    exact henc
  refine encodesField_literal (encodeString_encodes ?_) (encodeString_encodes hvalue)
  unfold toLowerASCII
  rw [length_map]
  exact hname

variable (cache : HpackFieldCache)

theorem encodeStaticFieldCached_fst (idx : ℕ) (value : Bytes) :
    (encodeStaticFieldCached cache idx value).1 = encodeStaticField idx value := by
  unfold encodeStaticFieldCached
  dsimp only
  split_ifs with hlong
  · rfl
  rcases cache (hpackFieldCacheSlot idx value) with _ | ent
  · rfl
  dsimp only
  split_ifs with hit
  · rw [ent.enc_eq, hit.1, hit.2]
  · rfl

theorem encodeHeaderFold_encodes (hname : name.length < 2 ^ 63) (hvalue : value.length < 2 ^ 63) :
    EncodesField (encodeHeaderFold cache name value).1 (toLowerASCII name, value) := by
  unfold encodeHeaderFold
  dsimp only
  split_ifs with hidx
  · rw [encodeStaticFieldCached_fst]
    obtain ⟨f, hf, hfname⟩ := hpackFindStaticNameFold_static hidx
    rw [← hfname]
    exact encodesField_static _ hf hidx (encodeString_encodes hvalue)
  · exact encodesField_literal (encodeStringLower_encodes hname) (encodeString_encodes hvalue)

theorem uintLoop_length_le (fuel : ℕ) {n : ℕ} (hpos : 0 < n) (buf : Bytes) :
    (H1.uintLoop fuel n buf).length ≤ buf.length + n := by
  induction fuel generalizing n buf with
  | zero => exact Nat.le_add_right _ _
  | succ fuel ih =>
    rw [H1.uintLoop]
    split_ifs with h100 h10
    · have hle := ih (show 0 < n / 100 by omega) (H1.digitPair (n % 100) ++ buf)
      rw [length_append, show (H1.digitPair (n % 100)).length = 2 from rfl] at hle
      omega
    · rw [length_append, show (H1.digitPair n).length = 2 from rfl]
      omega
    rw [length_cons]
    omega

theorem uintDigits_length_lt (code : Int64) : (uintDigits code).length < 2 ^ 63 := by
  unfold uintDigits
  split_ifs with hneg
  · rw [length_singleton]
    decide
  unfold H1.appendUint
  split_ifs with hz
  · decide
  have hlt : code.toNatClampNeg < 2 ^ 63 := by
    have := code.toInt_lt
    unfold Int64.toNatClampNeg
    omega
  have hle := uintLoop_length_le code.toNatClampNeg (Nat.pos_of_ne_zero hz) []
  rw [nil_append]
  simp only [length_nil] at hle
  omega

theorem encodeStatus_encodes (code : Int64) : EncodesField (encodeStatus code) (ascii ":status", uintDigits code) := by
  have hindexed : ∀ (idx : ℕ) (c : Int64), 0 < idx →
      hpackStaticTable[idx]? = some (ascii ":status", uintDigits c) → code = c →
      EncodesField (encodeIndexed (UInt64.ofNat idx)) (ascii ":status", uintDigits code) := by
    intro idx c hpos hf hc
    rw [hc]
    exact encodesField_indexed idx hf hpos
  have hname : hpackStaticTable[8]? = some (ascii ":status", ascii "200") := by decide +kernel
  unfold encodeStatus
  split_ifs with h200 h204 h206 h304 h400 h404 h500
  · exact hindexed 8 200 (by decide) (by decide +kernel) h200
  · exact hindexed 9 204 (by decide) (by decide +kernel) h204
  · exact hindexed 10 206 (by decide) (by decide +kernel) h206
  · exact hindexed 11 304 (by decide) (by decide +kernel) h304
  · exact hindexed 12 400 (by decide) (by decide +kernel) h400
  · exact hindexed 13 404 (by decide) (by decide +kernel) h404
  · exact hindexed 14 500 (by decide) (by decide +kernel) h500
  · exact encodesField_static 8 hname (by decide) (encodeRaw_encodes (uintDigits_length_lt code))

structure GoString where
  bytes : Bytes
  length_lt : bytes.length < 2 ^ 63

inductive EncodeCall where
  | header (name value : GoString)
  | headerFold (name value : GoString)
  | status (code : Int64)

def EncodeCall.encode (cache : HpackFieldCache) : EncodeCall → Bytes × HpackFieldCache
  | header name value => (encodeHeader name.bytes value.bytes, cache)
  | headerFold name value => encodeHeaderFold cache name.bytes value.bytes
  | status code => (encodeStatus code, cache)

/-- The field that the call is asked to encode. Both header methods lower-case the name. -/
def EncodeCall.field : EncodeCall → Field
  | header name value => (toLowerASCII name.bytes, value.bytes)
  | headerFold name value => (toLowerASCII name.bytes, value.bytes)
  | status code => (ascii ":status", uintDigits code)

/-- A block made of such calls. Other connections write to the cache in between, so each call
comes with the cache that it finds. -/
def encodeBlock (calls : List (HpackFieldCache × EncodeCall)) : Bytes := calls.flatMap fun p => (p.2.encode p.1).1

theorem EncodeCall.encode_encodes (call : EncodeCall) : EncodesField (call.encode cache).1 call.field := by
  cases call with
  | header name value => exact encodeHeader_encodes name.length_lt value.length_lt
  | headerFold name value => exact encodeHeaderFold_encodes cache name.length_lt value.length_lt
  | status code => exact encodeStatus_encodes code

section
variable (hpackHashBytes : Bytes → UInt64)

theorem intoLoop_round (headers : List Field) (d : HpackDecoder) (f : Field) :
    intoLoop.round headers d (.field f false) =
      ⟨headers ++ [f], if headers.length + 1 > maxHeaders then some .tooManyHeaders else none, d⟩ := by
  unfold FieldLoop.round intoLoop
  dsimp only
  rw [length_append, length_singleton]
  by_cases hmany : headers.length + 1 > maxHeaders
  · rw [if_pos hmany]
  rw [if_neg hmany]
  rfl

variable {d : HpackDecoder}

theorem intoLoop_run_encoded {enc : Bytes} {f : Field} (h : EncodesField enc f)
    (hc : d.CacheOk) (fuel : ℕ) (headers : List Field) (rest : Bytes) :
    ∃ cache next, (d.touched cache next 0).CacheOk ∧ intoLoop.run hpackHashBytes (fuel + 1) d headers (enc ++ rest) =
        if headers.length + 1 > maxHeaders then
          ⟨headers ++ [f], some .tooManyHeaders, d.touched cache next 0⟩
        else intoLoop.run hpackHashBytes fuel (d.touched cache next 0) (headers ++ [f]) rest := by
  obtain ⟨b, tail, hcons⟩ := exists_cons_of_ne_nil h.ne_nil
  obtain ⟨_, ⟨cache, next, hd₁⟩, hok, hrun⟩ := intoLoop.run_cons hpackHashBytes fuel hc headers b (tail ++ rest)
  rw [← cons_append, ← hcons, h.read] at hd₁ hrun
  rw [hd₁] at hok hrun
  refine ⟨cache, next, hok, ?_⟩
  dsimp only at hrun
  rw [hrun, drop_left, intoLoop_round]
  by_cases hmany : headers.length + 1 > maxHeaders
  · rw [if_pos hmany, if_pos hmany]
  · rw [if_neg hmany, if_neg hmany]

theorem intoLoop_run_encodeBlock (calls : List (HpackFieldCache × EncodeCall))
    (hc : d.CacheOk) {fuel : ℕ} (hfuel : calls.length ≤ fuel) {headers : List Field}
    (hlen : headers.length ≤ maxHeaders) :
    ∃ cache next headers', intoLoop.run hpackHashBytes fuel d headers (encodeBlock calls) =
        if headers.length + calls.length ≤ maxHeaders then
          ⟨headers ++ calls.map (·.2.field), none, d.touched cache next 0⟩
        else ⟨headers', some .tooManyHeaders, d.touched cache next 0⟩ := by
  induction calls generalizing d fuel headers with
  | nil =>
    refine ⟨d.huffmanCache, d.huffmanCacheNext, [], ?_⟩
    rw [length_nil, add_zero, if_pos hlen, map_nil, append_nil]
    unfold encodeBlock
    rw [flatMap_nil, FieldLoop.run]
    rfl
  | cons call calls ih =>
    obtain ⟨fuel, rfl⟩ := Nat.exists_eq_add_of_lt (show 0 < fuel by rw [length_cons] at hfuel; omega)
    rw [length_cons] at hfuel ⊢
    obtain ⟨cache₁, next₁, hok, hround⟩ := intoLoop_run_encoded hpackHashBytes
      (call.2.encode_encodes call.1) hc (0 + fuel) headers (encodeBlock calls)
    unfold encodeBlock at hround ⊢
    rw [flatMap_cons, hround]
    by_cases hmany : headers.length + 1 > maxHeaders
    · rw [if_pos hmany]
      refine ⟨cache₁, next₁, headers ++ [call.2.field], ?_⟩
      rw [if_neg (by omega)]
    rw [if_neg hmany]
    obtain ⟨cache, next, headers', hrest⟩ := ih hok (show calls.length ≤ 0 + fuel by omega)
      (show (headers ++ [call.2.field]).length ≤ maxHeaders by
        rw [length_append, length_singleton]; omega)
    refine ⟨cache, next, headers', ?_⟩
    unfold encodeBlock at hrest
    rw [hrest, HpackDecoder.touched_touched, length_append, length_singleton,
      add_assoc, add_comm 1, map_cons, append_assoc, singleton_append]

theorem encodeBlock_length_le (calls : List (HpackFieldCache × EncodeCall)) :
    calls.length ≤ (encodeBlock calls).length := by
  induction calls with
  | nil => exact le_refl 0
  | cons call calls ih =>
    have hpos := length_pos_iff.mpr (call.2.encode_encodes call.1).ne_nil
    unfold encodeBlock at ih ⊢
    rw [flatMap_cons, length_append, length_cons]
    omega

/-- Blocks of at most 128 fields are read back, from any table and with any state of the
encoder's cache, and leave the table alone; longer ones are refused. -/
theorem decodeInto_encodeBlock (hc : d.CacheOk) (calls : List (HpackFieldCache × EncodeCall)) :
    (d.decodeInto hpackHashBytes (encodeBlock calls)).1 =
        (if calls.length ≤ 128 then .ok (calls.map (·.2.field)) else .error .tooManyHeaders) ∧
      (d.decodeInto hpackHashBytes (encodeBlock calls)).2.toHpackDynTable = d.toHpackDynTable := by
  obtain ⟨_, _, _, hrun⟩ := intoLoop_run_encodeBlock hpackHashBytes calls hc
    (encodeBlock_length_le calls) (show ([] : List Field).length ≤ maxHeaders from Nat.zero_le _)
  rw [length_nil, Nat.zero_add, nil_append] at hrun
  unfold HpackDecoder.decodeInto
  rw [hrun]
  by_cases hmany : calls.length ≤ 128
  · rw [if_pos hmany, show maxHeaders = 128 from rfl, if_pos hmany]
    exact ⟨rfl, rfl⟩
  rw [if_neg hmany, show maxHeaders = 128 from rfl, if_neg hmany]
  exact ⟨rfl, rfl⟩

theorem hpackDecodeInt_overflow {data rest : Bytes} {p : UInt8} {v : ℕ}
    (h : decodeInt p.toNat data = some (v, rest)) (hv : 2 ^ 64 ≤ v) : hpackDecodeInt data p = (0, 0) := by
  apply hpackDecodeInt_zero
  by_contra hne
  have hsound := (hpackDecodeInt_sound (v := (hpackDecodeInt data p).1) rfl hne).2
  rw [h] at hsound
  have hval := (Prod.mk.inj (Option.some.inj hsound)).1
  have := (hpackDecodeInt data p).1.toNat_lt
  omega

end

/-- Round trip of the field encoder and of its integers. -/
theorem hpackEncoder_roundTrip : (∀ (hpackHashBytes : Bytes → UInt64) (d : HpackDecoder), d.CacheOk →
      ∀ calls : List (HpackFieldCache × EncodeCall), (d.decodeInto hpackHashBytes (encodeBlock calls)).1 =
            (if calls.length ≤ 128 then .ok (calls.map (·.2.field)) else .error .tooManyHeaders) ∧
          (d.decodeInto hpackHashBytes (encodeBlock calls)).2.toHpackDynTable = d.toHpackDynTable) ∧
      (∀ flags prefixBits, FlagsFor flags prefixBits → ∀ val rest,
        hpackDecodeInt (encodeInt flags prefixBits val ++ rest) prefixBits =
          (val, (encodeInt flags prefixBits val).length)) ∧
      ∀ (prefixBits : UInt8) data v rest, decodeInt prefixBits.toNat data = some (v, rest) →
        2 ^ 64 ≤ v → hpackDecodeInt data prefixBits = (0, 0) := by
  refine ⟨?_, ?_, ?_⟩
  · intro hpackHashBytes d hc calls
    exact decodeInto_encodeBlock hpackHashBytes hc calls
  · intro flags p h val rest
    exact hpackDecodeInt_encode h val rest
  intro p data v rest h hv
  exact hpackDecodeInt_overflow h hv

def upperCaseCall : EncodeCall := .header ⟨ascii "X-A", by decide⟩ ⟨ascii "1", by decide⟩

theorem encodeHeader_lowers_and_many_refused :
    ((newHpackDecoder 4096).decodeInto (fun _ => 0) (encodeBlock [(fun _ => none, upperCaseCall)])).1 ≠
        .ok [(ascii "X-A", ascii "1")] ∧
      ((newHpackDecoder 4096).decodeInto (fun _ => 0)
        (encodeBlock (replicate 129 (fun _ => none, .status 200)))).1 = .error .tooManyHeaders := by
  decide +kernel

theorem hpackEncoder_roundTrip_new :
    ((newHpackDecoder 4096).decodeInto (fun _ => 0) (encodeBlock [(fun _ => none, upperCaseCall)])).1 =
        .ok [(ascii "x-a", ascii "1")] ∧
      hpackDecodeInt (encodeInt 0x40 6 (2 ^ 64 - 1)) 6 = (2 ^ 64 - 1, (encodeInt 0x40 6 (2 ^ 64 - 1)).length) ∧
      hpackDecodeInt (0x1f :: replicate 9 0xff ++ [0x01]) 5 = (0, 0) := by
  obtain ⟨hblock, hint, hover⟩ := hpackEncoder_roundTrip
  refine ⟨?_, ?_, ?_⟩
  · exact (hblock (fun _ => 0) _ (newHpackDecoder_cacheOk 4096) [(fun _ => none, upperCaseCall)]).1
  · have h := hint 0x40 6 (by decide) (2 ^ 64 - 1) []
    rw [append_nil] at h
    exact h
  · exact hover 5 _ (2 ^ 64 + 30) [] (by decide +kernel) (by decide)

end AlosHttp.Hpack

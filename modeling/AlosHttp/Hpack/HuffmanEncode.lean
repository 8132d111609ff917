import AlosHttp.Hpack.Huffman

/-! The Huffman encoder of `hpack.go`. Encoder and decoder are inverse to each other: what
is encoded is decoded again, and only encodings are accepted. -/
namespace AlosHttp.Hpack
open List Data Rfc7541

/-- The inner loop: whole bytes leave at the top of the `nbits` buffered bits. -/
def huffmanFlush (cur : ℕ) : ℕ → ℕ → Bytes → ℕ × Bytes
  | 0, nbits, dst => (nbits, dst)
  | fuel + 1, nbits, dst =>
    if nbits ≥ 8 then huffmanFlush cur fuel (nbits - 8) (dst ++ [UInt8.ofNat (cur >>> (nbits - 8))])
    else (nbits, dst)

/-- The loop over the bytes and the padding after it. Bits above `nbits` are left over from
earlier symbols; the shift drops them in time. -/
def huffmanAppendLoop : Bytes → ℕ → ℕ → Bytes → Bytes
  | [], cur, nbits, dst =>
    if nbits > 0 then dst ++ [UInt8.ofNat (cur <<< (8 - nbits) ||| 0xff >>> nbits)] else dst
  | c :: s, cur, nbits, dst =>
    let entry := huffmanCodes.getD c.toNat ⟨0, 0⟩
    let cur := (cur <<< entry.len % 2 ^ 64) ||| entry.value
    let nbits := nbits + entry.len
    match huffmanFlush cur nbits nbits dst with
    | (nbits, dst) => huffmanAppendLoop s cur nbits dst

def hpackHuffmanAppend (dst s : Bytes) : Bytes := huffmanAppendLoop s 0 0 dst

/-- `huffBitLen` summed over the string; the source takes four bytes at a time. -/
def huffmanBits (s : Bytes) : ℕ := (s.map fun c => (huffmanCodes.getD c.toNat ⟨0, 0⟩).len).sum

def hpackHuffmanEncodedLen (s : Bytes) : ℕ := (huffmanBits s + 7) / 8

def codeBits (s : Bytes) : List Bool := s.flatMap fun c => code ⟨c.toNat, by have := c.toNat_lt; omega⟩

open BitString

theorem ofNat_byte (v : ℕ) : ofNat 8 (UInt8.ofNat v).toNat = ofNat 8 v := by
  exact ofNat_mod 8 v

theorem huffmanFlush_spec {cur fuel nbits : ℕ} (hfuel : nbits ≤ fuel) (dst : Bytes) :
    (huffmanFlush cur fuel nbits dst).1 < 8 ∧ ofBytes (huffmanFlush cur fuel nbits dst).2 ++
          ofNat (huffmanFlush cur fuel nbits dst).1 cur =
        ofBytes dst ++ ofNat nbits cur := by
  induction fuel generalizing nbits dst with
  | zero =>
    rw [huffmanFlush]
    exact ⟨by omega, rfl⟩
  | succ fuel ih =>
    rw [huffmanFlush]
    split_ifs with h
    · obtain ⟨hlt, heq⟩ := @ih (nbits - 8) (by omega) (dst ++ [UInt8.ofNat (cur >>> (nbits - 8))])
      refine ⟨hlt, heq.trans ?_⟩
      have hsplit := ofNat_add 8 (nbits - 8) cur
      rw [show 8 + (nbits - 8) = nbits by omega] at hsplit
      rw [ofBytes_append, ofBytes_cons, ofBytes_nil, append_nil,
        ofNat_byte, Nat.shiftRight_eq_div_pow, hsplit, append_assoc]
    · exact ⟨by omega, rfl⟩

theorem ofNat_pushWord {cur nbits : ℕ} {w : CodeWord} (hw : w.value < 2 ^ w.len) (hlen : nbits + w.len ≤ 64) :
    ofNat (nbits + w.len) ((cur <<< w.len % 2 ^ 64) ||| w.value) = ofNat nbits cur ++ w.bits := by
  unfold CodeWord.bits
  rw [← ofNat_push hw, ← Nat.shiftLeft_eq, Nat.shiftLeft_add_eq_or_of_lt hw]
  apply ofNat_congr
  intro i _
  rw [Nat.testBit_or, Nat.testBit_or, Nat.testBit_mod_two_pow, decide_eq_true (by omega),
    Bool.true_and]

theorem padByte_bits {nbits : ℕ} (h : nbits ≤ 8) (cur : ℕ) : ofNat 8 (cur <<< (8 - nbits) ||| 0xff >>> nbits) =
      ofNat nbits cur ++ replicate (8 - nbits) true := by
  have hones : 0xff >>> nbits = 2 ^ (8 - nbits) - 1 := by
    interval_cases nbits <;> rfl
  have hpos := Nat.two_pow_pos (8 - nbits)
  have hpush := @BitString.ofNat_push nbits (8 - nbits) cur (2 ^ (8 - nbits) - 1) (by omega)
  rw [show nbits + (8 - nbits) = 8 by omega, ofNat_ones, ← Nat.shiftLeft_eq,
    Nat.shiftLeft_add_eq_or_of_lt (by omega)] at hpush
  rw [hones, hpush]

variable (s : Bytes)

theorem huffmanAppendLoop_bits {cur nbits : ℕ} (hn : nbits < 8) (dst : Bytes) :
    ∃ pad < 8, ofBytes (huffmanAppendLoop s cur nbits dst) =
      ofBytes dst ++ ofNat nbits cur ++ codeBits s ++ replicate pad true := by
  induction s generalizing cur nbits dst with
  | nil =>
    rw [huffmanAppendLoop]
    by_cases h : nbits > 0
    · rw [if_pos h, ofBytes_append, ofBytes_cons, ofBytes_nil, append_nil, ofNat_byte, padByte_bits (by omega)]
      refine ⟨8 - nbits, by omega, ?_⟩
      simp [codeBits]
    obtain rfl : nbits = 0 := by omega
    exact ⟨0, by omega, by simp [codeBits, ofNat]⟩
  | cons c s ih =>
    have hlt : c.toNat < 257 := by have := c.toNat_lt; omega
    have hword : huffmanCodes.getD c.toNat ⟨0, 0⟩ = wordOf ⟨c.toNat, hlt⟩ := rfl
    obtain ⟨hlen5, hlen30, hval⟩ := wordOf_bounds ⟨c.toNat, hlt⟩
    have hcode : codeBits (c :: s) = (wordOf ⟨c.toNat, hlt⟩).bits ++ codeBits s := by
      unfold codeBits
      rw [flatMap_cons, code_eq]
    rw [huffmanAppendLoop]
    rw [hword, hcode]
    generalize wordOf ⟨c.toNat, hlt⟩ = w at hlen5 hlen30 hval
    obtain ⟨hflush, hbits⟩ := @huffmanFlush_spec ((cur <<< w.len % 2 ^ 64) ||| w.value) _ _
      (le_refl (nbits + w.len)) dst
    generalize huffmanFlush _ _ _ _ = r at hflush hbits ⊢
    obtain ⟨pad, hpad, heq⟩ := @ih ((cur <<< w.len % 2 ^ 64) ||| w.value) r.1 hflush r.2
    refine ⟨pad, hpad, heq.trans ?_⟩
    rw [hbits, ofNat_pushWord hval (by omega)]
    simp only [append_assoc]

theorem hpackHuffmanAppend_bits (dst s : Bytes) : ∃ pad < 8, ofBytes (hpackHuffmanAppend dst s) =
      ofBytes dst ++ codeBits s ++ replicate pad true := by
  obtain ⟨pad, hpad, heq⟩ := @huffmanAppendLoop_bits s 0 0 (by omega) dst
  refine ⟨pad, hpad, heq.trans ?_⟩
  rw [ofNat, append_nil]

theorem codeBits_length : (codeBits s).length = huffmanBits s := by
  unfold codeBits huffmanBits
  rw [length_flatMap]
  congr 1
  apply map_congr_left
  intro c _
  exact code_length _

theorem pad_unique {a b : Bytes} {s : Bytes} {p q : ℕ} (hp : p < 8) (hq : q < 8)
    (ha : ofBytes a = codeBits s ++ replicate p true)
    (hb : ofBytes b = codeBits s ++ replicate q true) : a = b := by
  have hla := congrArg length ha
  have hlb := congrArg length hb
  rw [ofBytes_length, length_append, length_replicate] at hla hlb
  obtain rfl : p = q := by omega
  exact ofBytes_inj (ha.trans hb.symm)

theorem hpackHuffmanAppend_length : (hpackHuffmanAppend [] s).length = hpackHuffmanEncodedLen s := by
  obtain ⟨p, _, hbits⟩ := hpackHuffmanAppend_bits [] s
  have hlen := congrArg length hbits
  simp only [ofBytes_length, length_append, length_replicate, ofBytes_nil, length_nil, codeBits_length] at hlen
  unfold hpackHuffmanEncodedLen
  omega

theorem isPadding_replicate {n : ℕ} (h : n < 8) : isPadding (replicate n true) = true := by
  unfold isPadding
  rw [length_replicate, Bool.and_eq_true, decide_eq_true_eq, all_eq_true]
  exact ⟨h, fun b hb => eq_of_mem_replicate hb⟩

theorem decodeBits_codeBits {pad : ℕ} (hpad : pad < 8) :
    decodeBits (codeBits s ++ replicate pad true) = some s := by
  induction s with
  | nil =>
    unfold decodeBits decodeSymbols
    exact if_pos (isPadding_replicate hpad)
  | cons c s ih =>
    have hlt : c.toNat < 256 := c.toNat_lt
    have hne : (⟨c.toNat, by omega⟩ : Fin 257) ≠ eos := by
      intro heq
      have : c.toNat = 256 := congrArg Fin.val heq
      omega
    have hsplit : codeBits (c :: s) ++ replicate pad true =
        code ⟨c.toNat, by omega⟩ ++ (codeBits s ++ replicate pad true) := by
      unfold codeBits
      rw [flatMap_cons, append_assoc]
    rw [hsplit, decodeBits_symbol hne (prefix_append _ _), drop_left, ih, Option.map_some, UInt8.ofNat_toNat]

theorem eq_codeBits_of_decodeBits {bits : List Bool} {s : Bytes} (h : decodeBits bits = some s) :
    ∃ pad < 8, bits = codeBits s ++ replicate pad true := by
  induction hn : bits.length using Nat.strong_induction_on generalizing bits s with
  | h n ih =>
    by_cases hsym : ∃ t, t ≠ eos ∧ code t <+: bits
    · obtain ⟨t, hne, rest, rfl⟩ := hsym
      rw [decodeBits_symbol hne (prefix_append _ _), drop_left] at h
      obtain ⟨_, hs', rfl⟩ := Option.map_eq_some_iff.mp h
      have hpos : 0 < (code t).length := by
        rw [code_length]
        have := (wordOf_bounds t).1
        omega
      obtain ⟨pad, hpad, heq⟩ := ih rest.length (by rw [← hn, length_append]; omega) hs' rfl
      refine ⟨pad, hpad, ?_⟩
      have hlt : t.val < 256 := by
        have hne' : t.val ≠ 256 := fun heq => hne (Fin.ext heq)
        omega
      have hval : (UInt8.ofNat t.val).toNat = t.val := by
        exact Nat.mod_eq_of_lt hlt
      unfold codeBits
      rw [flatMap_cons, append_assoc]
      congr 1
      · congr 1
        exact Fin.ext hval.symm
    have hno : ∀ t, t ≠ eos → ¬ code t <+: bits := fun t ht hpre => hsym ⟨t, ht, hpre⟩
    rw [decodeBits_stuck hno] at h
    split_ifs at h with hpad
    cases h
    unfold isPadding at hpad
    rw [Bool.and_eq_true, decide_eq_true_eq, all_eq_true] at hpad
    exact ⟨bits.length, hpad.1, eq_replicate_iff.mpr ⟨rfl, hpad.2⟩⟩

theorem hpackHuffmanDecode_append : hpackHuffmanDecode (hpackHuffmanAppend [] s) = some s := by
  obtain ⟨_, hpad, hbits⟩ := hpackHuffmanAppend_bits [] s
  rw [hpackHuffmanDecode_eq]
  show decodeBits (ofBytes (hpackHuffmanAppend [] s)) = some s
  rw [hbits, ofBytes_nil, nil_append]
  exact decodeBits_codeBits s hpad

/-- Huffman coding is a bijection between the byte strings and the accepted encodings. -/
theorem hpackHuffman_bijection : (∀ s, hpackHuffmanDecode (hpackHuffmanAppend [] s) = some s) ∧
      ∀ x s, hpackHuffmanDecode x = some s → hpackHuffmanAppend [] s = x := by
  constructor
  · exact hpackHuffmanDecode_append
  intro x s h
  rw [hpackHuffmanDecode_eq] at h
  obtain ⟨_, hpad, hx⟩ := eq_codeBits_of_decodeBits (show decodeBits (ofBytes x) = some s from h)
  obtain ⟨_, hpad', hs⟩ := hpackHuffmanAppend_bits [] s
  exact pad_unique hpad' hpad hs hx

end AlosHttp.Hpack

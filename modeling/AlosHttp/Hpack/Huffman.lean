import AlosHttp.Spec.HpackBlock

/-! The Huffman code of `hpack.go`: its table, the lookup tables built from it, the
encoder and the decoder. The decoder is the reference decoder of RFC 7541. -/
namespace AlosHttp.Hpack
open List Data Rfc7541

/-- Code and length for every octet and for EOS, as the source lists them. -/
def huffmanCodes : List CodeWord := [⟨0x1ff8, 13⟩, ⟨0x7fffd8, 23⟩, ⟨0xfffffe2, 28⟩, ⟨0xfffffe3, 28⟩,
    ⟨0xfffffe4, 28⟩, ⟨0xfffffe5, 28⟩, ⟨0xfffffe6, 28⟩, ⟨0xfffffe7, 28⟩,
    ⟨0xfffffe8, 28⟩, ⟨0xffffea, 24⟩, ⟨0x3ffffffc, 30⟩, ⟨0xfffffe9, 28⟩,
    ⟨0xfffffea, 28⟩, ⟨0x3ffffffd, 30⟩, ⟨0xfffffeb, 28⟩, ⟨0xfffffec, 28⟩,
    ⟨0xfffffed, 28⟩, ⟨0xfffffee, 28⟩, ⟨0xfffffef, 28⟩, ⟨0xffffff0, 28⟩,
    ⟨0xffffff1, 28⟩, ⟨0xffffff2, 28⟩, ⟨0x3ffffffe, 30⟩, ⟨0xffffff3, 28⟩,
    ⟨0xffffff4, 28⟩, ⟨0xffffff5, 28⟩, ⟨0xffffff6, 28⟩, ⟨0xffffff7, 28⟩,
    ⟨0xffffff8, 28⟩, ⟨0xffffff9, 28⟩, ⟨0xffffffa, 28⟩, ⟨0xffffffb, 28⟩,
    ⟨0x14, 6⟩, ⟨0x3f8, 10⟩, ⟨0x3f9, 10⟩, ⟨0xffa, 12⟩,
    ⟨0x1ff9, 13⟩, ⟨0x15, 6⟩, ⟨0xf8, 8⟩, ⟨0x7fa, 11⟩,
    ⟨0x3fa, 10⟩, ⟨0x3fb, 10⟩, ⟨0xf9, 8⟩, ⟨0x7fb, 11⟩,
    ⟨0xfa, 8⟩, ⟨0x16, 6⟩, ⟨0x17, 6⟩, ⟨0x18, 6⟩,
    ⟨0x0, 5⟩, ⟨0x1, 5⟩, ⟨0x2, 5⟩, ⟨0x19, 6⟩,
    ⟨0x1a, 6⟩, ⟨0x1b, 6⟩, ⟨0x1c, 6⟩, ⟨0x1d, 6⟩,
    ⟨0x1e, 6⟩, ⟨0x1f, 6⟩, ⟨0x5c, 7⟩, ⟨0xfb, 8⟩,
    ⟨0x7ffc, 15⟩, ⟨0x20, 6⟩, ⟨0xffb, 12⟩, ⟨0x3fc, 10⟩,
    ⟨0x1ffa, 13⟩, ⟨0x21, 6⟩, ⟨0x5d, 7⟩, ⟨0x5e, 7⟩,
    ⟨0x5f, 7⟩, ⟨0x60, 7⟩, ⟨0x61, 7⟩, ⟨0x62, 7⟩,
    ⟨0x63, 7⟩, ⟨0x64, 7⟩, ⟨0x65, 7⟩, ⟨0x66, 7⟩,
    ⟨0x67, 7⟩, ⟨0x68, 7⟩, ⟨0x69, 7⟩, ⟨0x6a, 7⟩,
    ⟨0x6b, 7⟩, ⟨0x6c, 7⟩, ⟨0x6d, 7⟩, ⟨0x6e, 7⟩,
    ⟨0x6f, 7⟩, ⟨0x70, 7⟩, ⟨0x71, 7⟩, ⟨0x72, 7⟩,
    ⟨0xfc, 8⟩, ⟨0x73, 7⟩, ⟨0xfd, 8⟩, ⟨0x1ffb, 13⟩,
    ⟨0x7fff0, 19⟩, ⟨0x1ffc, 13⟩, ⟨0x3ffc, 14⟩, ⟨0x22, 6⟩,
    ⟨0x7ffd, 15⟩, ⟨0x3, 5⟩, ⟨0x23, 6⟩, ⟨0x4, 5⟩,
    ⟨0x24, 6⟩, ⟨0x5, 5⟩, ⟨0x25, 6⟩, ⟨0x26, 6⟩,
    ⟨0x27, 6⟩, ⟨0x6, 5⟩, ⟨0x74, 7⟩, ⟨0x75, 7⟩,
    ⟨0x28, 6⟩, ⟨0x29, 6⟩, ⟨0x2a, 6⟩, ⟨0x7, 5⟩,
    ⟨0x2b, 6⟩, ⟨0x76, 7⟩, ⟨0x2c, 6⟩, ⟨0x8, 5⟩,
    ⟨0x9, 5⟩, ⟨0x2d, 6⟩, ⟨0x77, 7⟩, ⟨0x78, 7⟩,
    ⟨0x79, 7⟩, ⟨0x7a, 7⟩, ⟨0x7b, 7⟩, ⟨0x7ffe, 15⟩,
    ⟨0x7fc, 11⟩, ⟨0x3ffd, 14⟩, ⟨0x1ffd, 13⟩, ⟨0xffffffc, 28⟩,
    ⟨0xfffe6, 20⟩, ⟨0x3fffd2, 22⟩, ⟨0xfffe7, 20⟩, ⟨0xfffe8, 20⟩,
    ⟨0x3fffd3, 22⟩, ⟨0x3fffd4, 22⟩, ⟨0x3fffd5, 22⟩, ⟨0x7fffd9, 23⟩,
    ⟨0x3fffd6, 22⟩, ⟨0x7fffda, 23⟩, ⟨0x7fffdb, 23⟩, ⟨0x7fffdc, 23⟩,
    ⟨0x7fffdd, 23⟩, ⟨0x7fffde, 23⟩, ⟨0xffffeb, 24⟩, ⟨0x7fffdf, 23⟩,
    ⟨0xffffec, 24⟩, ⟨0xffffed, 24⟩, ⟨0x3fffd7, 22⟩, ⟨0x7fffe0, 23⟩,
    ⟨0xffffee, 24⟩, ⟨0x7fffe1, 23⟩, ⟨0x7fffe2, 23⟩, ⟨0x7fffe3, 23⟩,
    ⟨0x7fffe4, 23⟩, ⟨0x1fffdc, 21⟩, ⟨0x3fffd8, 22⟩, ⟨0x7fffe5, 23⟩,
    ⟨0x3fffd9, 22⟩, ⟨0x7fffe6, 23⟩, ⟨0x7fffe7, 23⟩, ⟨0xffffef, 24⟩,
    ⟨0x3fffda, 22⟩, ⟨0x1fffdd, 21⟩, ⟨0xfffe9, 20⟩, ⟨0x3fffdb, 22⟩,
    ⟨0x3fffdc, 22⟩, ⟨0x7fffe8, 23⟩, ⟨0x7fffe9, 23⟩, ⟨0x1fffde, 21⟩,
    ⟨0x7fffea, 23⟩, ⟨0x3fffdd, 22⟩, ⟨0x3fffde, 22⟩, ⟨0xfffff0, 24⟩,
    ⟨0x1fffdf, 21⟩, ⟨0x3fffdf, 22⟩, ⟨0x7fffeb, 23⟩, ⟨0x7fffec, 23⟩,
    ⟨0x1fffe0, 21⟩, ⟨0x1fffe1, 21⟩, ⟨0x3fffe0, 22⟩, ⟨0x1fffe2, 21⟩,
    ⟨0x7fffed, 23⟩, ⟨0x3fffe1, 22⟩, ⟨0x7fffee, 23⟩, ⟨0x7fffef, 23⟩,
    ⟨0xfffea, 20⟩, ⟨0x3fffe2, 22⟩, ⟨0x3fffe3, 22⟩, ⟨0x3fffe4, 22⟩,
    ⟨0x7ffff0, 23⟩, ⟨0x3fffe5, 22⟩, ⟨0x3fffe6, 22⟩, ⟨0x7ffff1, 23⟩,
    ⟨0x3ffffe0, 26⟩, ⟨0x3ffffe1, 26⟩, ⟨0xfffeb, 20⟩, ⟨0x7fff1, 19⟩,
    ⟨0x3fffe7, 22⟩, ⟨0x7ffff2, 23⟩, ⟨0x3fffe8, 22⟩, ⟨0x1ffffec, 25⟩,
    ⟨0x3ffffe2, 26⟩, ⟨0x3ffffe3, 26⟩, ⟨0x3ffffe4, 26⟩, ⟨0x7ffffde, 27⟩,
    ⟨0x7ffffdf, 27⟩, ⟨0x3ffffe5, 26⟩, ⟨0xfffff1, 24⟩, ⟨0x1ffffed, 25⟩,
    ⟨0x7fff2, 19⟩, ⟨0x1fffe3, 21⟩, ⟨0x3ffffe6, 26⟩, ⟨0x7ffffe0, 27⟩,
    ⟨0x7ffffe1, 27⟩, ⟨0x3ffffe7, 26⟩, ⟨0x7ffffe2, 27⟩, ⟨0xfffff2, 24⟩,
    ⟨0x1fffe4, 21⟩, ⟨0x1fffe5, 21⟩, ⟨0x3ffffe8, 26⟩, ⟨0x3ffffe9, 26⟩,
    ⟨0xffffffd, 28⟩, ⟨0x7ffffe3, 27⟩, ⟨0x7ffffe4, 27⟩, ⟨0x7ffffe5, 27⟩,
    ⟨0xfffec, 20⟩, ⟨0xfffff3, 24⟩, ⟨0xfffed, 20⟩, ⟨0x1fffe6, 21⟩,
    ⟨0x3fffe9, 22⟩, ⟨0x1fffe7, 21⟩, ⟨0x1fffe8, 21⟩, ⟨0x7ffff3, 23⟩,
    ⟨0x3fffea, 22⟩, ⟨0x3fffeb, 22⟩, ⟨0x1ffffee, 25⟩, ⟨0x1ffffef, 25⟩,
    ⟨0xfffff4, 24⟩, ⟨0xfffff5, 24⟩, ⟨0x3ffffea, 26⟩, ⟨0x7ffff4, 23⟩,
    ⟨0x3ffffeb, 26⟩, ⟨0x7ffffe6, 27⟩, ⟨0x3ffffec, 26⟩, ⟨0x3ffffed, 26⟩,
    ⟨0x7ffffe7, 27⟩, ⟨0x7ffffe8, 27⟩, ⟨0x7ffffe9, 27⟩, ⟨0x7ffffea, 27⟩,
    ⟨0x7ffffeb, 27⟩, ⟨0xffffffe, 28⟩, ⟨0x7ffffec, 27⟩, ⟨0x7ffffed, 27⟩,
    ⟨0x7ffffee, 27⟩, ⟨0x7ffffef, 27⟩, ⟨0x7fffff0, 27⟩, ⟨0x3ffffee, 26⟩,
    ⟨0x3fffffff, 30⟩]

structure HuffPrimEntry where
  sym : ℕ := 0
  bits : ℕ := 0
  deriving DecidableEq

structure HuffLongEntry where
  code : ℕ
  sym : ℕ
  deriving DecidableEq

/-- Lookup by the next eight bits, and the longer codes by length. -/
structure HuffTables where
  huffPrimary : List HuffPrimEntry
  huffLong : List (List HuffLongEntry)
  deriving DecidableEq

def setPrimary (sym bits base : ℕ) (primary : List HuffPrimEntry) (j : ℕ) : List HuffPrimEntry :=
  let idx := base + j
  let e := primary.getD idx {}
  if idx < 256 ∧ (e.bits = 0 ∨ bits < e.bits) then primary.set idx ⟨sym, bits⟩ else primary

def HuffTables.addSymbol (t : HuffTables) (sym : ℕ) (entry : CodeWord) : HuffTables :=
  if entry.len ≤ 8 then
    let shift := 8 - entry.len
    let base := entry.value <<< shift
    let count := 1 <<< shift
    { t with huffPrimary := (range count).foldl (setPrimary sym entry.len base) t.huffPrimary }
  else
    { t with
      huffLong := t.huffLong.set entry.len
        (t.huffLong.getD entry.len [] ++ [⟨entry.value, sym⟩]) }

def buildHuffmanDecodeTable : HuffTables :=
  (huffmanCodes.take 256).zipIdx.foldl (fun t (entry, sym) => t.addSymbol sym entry)
    ⟨replicate 256 {}, replicate 31 []⟩

def hpackHuffmanMaxCodeBits : ℕ := 30

def longLookup (bits nbits : ℕ) : ℕ × ℕ :=
  ((range' 9 (min nbits hpackHuffmanMaxCodeBits - 8)).findSome? fun b =>
    let target := (bits >>> (nbits - b)) % 2 ^ 32
    ((buildHuffmanDecodeTable.huffLong.getD b []).find? (·.code == target)).map
      fun g => (g.sym, b)).getD (0, 0)

/-- Symbol and code length at the top of the `nbits` buffered bits, (0, 0) if there is
none. -/
def huffmanLookup (bits nbits : ℕ) : ℕ × ℕ :=
  if nbits ≥ 8 then
    let e := buildHuffmanDecodeTable.huffPrimary.getD ((bits >>> (nbits - 8)) % 256) {}
    if e.bits > 0 then (e.sym, e.bits) else longLookup bits nbits
  else
    let e := buildHuffmanDecodeTable.huffPrimary.getD ((bits <<< (8 - nbits)) % 256) {}
    if e.bits > 0 ∧ e.bits ≤ nbits then (e.sym, e.bits) else (0, 0)

/-- The inner loop: symbols are taken off the top of the buffer. Every code has five bits or
more, so `nbits` rounds suffice. -/
def huffmanDrain : ℕ → ℕ → ℕ → Bytes → Option (ℕ × ℕ × Bytes)
  | 0, bits, nbits, dst => some (bits, nbits, dst)
  | fuel + 1, bits, nbits, dst =>
    if nbits ≥ 5 then
      let (decoded, codeLen) := huffmanLookup bits nbits
      if codeLen = 0 then
        if nbits ≥ hpackHuffmanMaxCodeBits then none else some (bits, nbits, dst)
      else
        huffmanDrain fuel (bits &&& (2 ^ (nbits - codeLen) - 1)) (nbits - codeLen)
          (dst ++ [UInt8.ofNat decoded])
    else some (bits, nbits, dst)

@[irreducible]
def huffmanPush (b : UInt8) (bits nbits : ℕ) (dst : Bytes) : Option (ℕ × ℕ × Bytes) :=
  let bits := (bits <<< 8 % 2 ^ 64) ||| b.toNat
  let nbits := nbits + 8
  huffmanDrain nbits bits nbits dst

def huffmanDecodeLoop : Bytes → ℕ → ℕ → Bytes → Option Bytes
  | [], bits, nbits, dst =>
    if nbits > 7 ∨ (nbits > 0 ∧ bits ≠ 2 ^ nbits - 1) then none else some dst
  | b :: src, bits, nbits, dst =>
    match huffmanPush b bits nbits dst with
    | none => none
    | some (bits, nbits, dst) => huffmanDecodeLoop src bits nbits dst

def hpackHuffmanDecode (src : Bytes) : Option Bytes := huffmanDecodeLoop src 0 0 []

theorem huffmanCodes_bounds : ∀ w ∈ huffmanCodes, 5 ≤ w.len ∧ w.len ≤ 30 ∧ w.value < 2 ^ w.len := by
  decide +kernel

theorem codeTable_eq : codeTable = (range 31).flatMap fun len =>
      (huffmanCodes.zipIdx.filter (·.1.len == len)).map fun p => (p.2, p.1) := by decide +kernel

theorem codeOrder_chain : codeOrder.IsChain fun a b => a.1 ≤ b.1 := by decide +kernel

theorem huffmanCodes_length : huffmanCodes.length = 257 := by decide +kernel

def wordOf (s : Fin 257) : CodeWord := huffmanCodes.getD s ⟨0, 0⟩

theorem wordOf_mem (s : Fin 257) : huffmanCodes[s.val]? = some (wordOf s) := by
  have hlt : s.val < huffmanCodes.length := by rw [huffmanCodes_length]; exact s.isLt
  unfold wordOf
  rw [getD_eq_getElem?_getD, getElem?_eq_getElem hlt, Option.getD_some]

theorem wordOf_bounds (s : Fin 257) :
    5 ≤ (wordOf s).len ∧ (wordOf s).len ≤ 30 ∧ (wordOf s).value < 2 ^ (wordOf s).len :=
  huffmanCodes_bounds _ (mem_of_getElem? (wordOf_mem s))

variable {w : CodeWord} {bits nbits : ℕ} {s : Fin 257}

theorem mem_codeTable {n : ℕ} : (n, w) ∈ codeTable ↔ huffmanCodes[n]? = some w := by
  rw [codeTable_eq, mem_flatMap]
  constructor
  · rintro ⟨_, -, h⟩
    obtain ⟨⟨_, _⟩, hp, heq⟩ := mem_map.mp h
    obtain ⟨rfl, rfl⟩ := Prod.mk.inj heq
    exact mem_zipIdx_iff_getElem?.mp (mem_filter.mp hp).1
  intro h
  have hb := huffmanCodes_bounds w (mem_of_getElem? h)
  refine ⟨w.len, mem_range.mpr (by omega), mem_map.mpr ⟨(w, n), ?_, rfl⟩⟩
  rw [mem_filter]
  exact ⟨mem_zipIdx_iff_getElem?.mpr h, beq_self_eq_true _⟩

theorem code_eq (s : Fin 257) : code s = (wordOf s).bits := by
  have hsome : (codeTable.find? (·.1 == s.val)).isSome := by
    rw [find?_isSome]
    exact ⟨(s.val, wordOf s), mem_codeTable.mpr (wordOf_mem s), beq_self_eq_true _⟩
  obtain ⟨⟨n, w⟩, hfind⟩ := Option.isSome_iff_exists.mp hsome
  have hn : n = s.val := by simpa using find?_some hfind
  have hw := mem_codeTable.mp (mem_of_find?_eq_some hfind)
  rw [hn, wordOf_mem, Option.some.injEq] at hw
  unfold code
  rw [hfind, hw]

theorem code_prefixFree : PrefixFree code := by
  intro s t h
  rw [code_eq, code_eq, CodeWord.bits_isPrefix_iff (wordOf_bounds s).2.2 (wordOf_bounds t).2.2] at h
  by_contra hne
  have hsorted := isChain_iff_pairwise.mp codeOrder_chain
  have hpair : codeTable.Pairwise _ := canonical_pairwise hsorted
  have : Std.Symm fun a b : ℕ × CodeWord => ¬ a.2.Starts b.2 ∧ ¬ b.2.Starts a.2 := ⟨fun a b hab => ⟨hab.2, hab.1⟩⟩
  have hne' : (s.val, wordOf s) ≠ (t.val, wordOf t) := fun heq => hne (Fin.ext (Prod.mk.inj heq).1)
  exact (hpair.forall (mem_codeTable.mpr (wordOf_mem s)) (mem_codeTable.mpr (wordOf_mem t)) hne').1 h

theorem setPrimary_length (sym bits base : ℕ) (p : List HuffPrimEntry) (j : ℕ) :
    (setPrimary sym bits base p j).length = p.length := by
  unfold setPrimary
  dsimp only
  split_ifs <;> simp

theorem setPrimary_foldl (sym bits base count : ℕ) {p : List HuffPrimEntry} (hp : p.length = 256) :
    ((range count).foldl (setPrimary sym bits base) p).length = 256 ∧
      ∀ idx < 256, ((range count).foldl (setPrimary sym bits base) p).getD idx {} =
        if (base ≤ idx ∧ idx < base + count) ∧ ((p.getD idx {}).bits = 0 ∨ bits < (p.getD idx {}).bits) then ⟨sym, bits⟩
        else p.getD idx {} := by
  induction count with
  | zero =>
    refine ⟨hp, fun idx _ => ?_⟩
    rw [if_neg (by omega)]
    rfl
  | succ count ih =>
    obtain ⟨hlen, hget⟩ := ih
    rw [range_succ, foldl_append, foldl_cons, foldl_nil]
    generalize (range count).foldl (setPrimary sym bits base) p = q at hlen hget ⊢
    refine ⟨(setPrimary_length sym bits base q count).trans hlen, fun idx hidx => ?_⟩
    unfold setPrimary
    dsimp only
    by_cases heq : idx = base + count
    · -- the slot of this round is still as it was before the loop
      subst heq
      have hq := hget _ hidx
      rw [if_neg (by omega)] at hq
      rw [hq]
      by_cases hset : (p.getD (base + count) {}).bits = 0 ∨ bits < (p.getD (base + count) {}).bits
      · rw [if_pos ⟨hidx, hset⟩, if_pos ⟨by omega, hset⟩]
        simp [hlen, hidx]
      · rw [if_neg (fun hc => hset hc.2), if_neg (fun hc => hset hc.2), hq]
    have hsame : (base ≤ idx ∧ idx < base + (count + 1)) = (base ≤ idx ∧ idx < base + count) := by
      rw [eq_iff_iff]; omega
    simp only [hsame]
    rw [← hget idx hidx]
    split_ifs with hc
    · simp [getElem?_set_ne (Ne.symm heq)]
    · rfl

structure HuffTables.Built (syms : List (CodeWord × ℕ)) (t : HuffTables) : Prop where
  primaryLen : t.huffPrimary.length = 256
  longLen : t.huffLong.length = 31
  sound : ∀ idx < 256, 0 < (t.huffPrimary.getD idx {}).bits →
    ∃ p ∈ syms, p.1.Starts ⟨idx, 8⟩ ∧ t.huffPrimary.getD idx {} = ⟨p.2, p.1.len⟩
  complete : ∀ p ∈ syms, ∀ idx < 256, p.1.Starts ⟨idx, 8⟩ → 0 < (t.huffPrimary.getD idx {}).bits
  long : ∀ b g, g ∈ t.huffLong.getD b [] ↔ ∃ p ∈ syms, p.1.len = b ∧ 8 < b ∧ g = ⟨p.1.value, p.2⟩

theorem CodeWord.starts_byte_iff (hw : w.len ≤ 8) (idx : ℕ) : w.Starts ⟨idx, 8⟩ ↔ w.value <<< (8 - w.len) ≤ idx ∧
      idx < w.value <<< (8 - w.len) + 1 <<< (8 - w.len) := by
  unfold Data.CodeWord.Starts
  dsimp only
  have hpos : 0 < 2 ^ (8 - w.len) := Nat.two_pow_pos _
  rw [Nat.shiftLeft_eq, Nat.shiftLeft_eq, one_mul, Nat.div_eq_iff hpos]
  constructor
  · rintro ⟨-, h⟩; omega
  · intro h; exact ⟨hw, by omega⟩

theorem HuffTables.Built.addSymbol {syms : List (CodeWord × ℕ)} {t : HuffTables}
    (h : t.Built syms) (hw : 0 < w.len ∧ w.len ≤ 30) (sym : ℕ) :
    (t.addSymbol sym w).Built (syms ++ [(w, sym)]) := by
  have hlast {P : CodeWord × ℕ → Prop} : (∃ p ∈ syms ++ [(w, sym)], P p) ↔ (∃ p ∈ syms, P p) ∨ P (w, sym) := by
    simp [or_and_right, exists_or]
  unfold HuffTables.addSymbol
  split_ifs with hshort
  · obtain ⟨hlen, hget⟩ := setPrimary_foldl sym w.len (w.value <<< (8 - w.len)) (1 <<< (8 - w.len)) h.primaryLen
    refine ⟨hlen, h.longLen, fun idx hidx hpos => ?_, fun p hp idx hidx hstart => ?_, fun b g => ?_⟩
    · rw [hget idx hidx] at hpos ⊢
      split_ifs at hpos ⊢ with hc
      · exact ⟨(w, sym), by simp, (CodeWord.starts_byte_iff hshort idx).mpr hc.1, rfl⟩
      obtain ⟨p, hp, hstart, heq⟩ := h.sound idx hidx hpos
      exact ⟨p, mem_append_left _ hp, hstart, heq⟩
    · rw [hget idx hidx]
      split_ifs with hc
      · exact hw.1
      obtain hp | hp := mem_append.mp hp
      · exact h.complete p hp idx hidx hstart
      · -- the slot is in the range, so it was kept for a code already there
        rw [mem_singleton] at hp
        subst hp
        have hrange := (CodeWord.starts_byte_iff hshort idx).mp hstart
        omega
    rw [h.long b g, hlast]
    exact (or_iff_left fun ⟨hl, h8, _⟩ => by dsimp only at hl; omega).symm
  refine ⟨h.primaryLen, by simpa using h.longLen, fun idx hidx hpos => ?_,
    fun p hp idx hidx hstart => ?_, fun b g => ?_⟩
  · obtain ⟨p, hp, hstart, heq⟩ := h.sound idx hidx hpos
    exact ⟨p, mem_append_left _ hp, hstart, heq⟩
  · obtain hp | hp := mem_append.mp hp
    · exact h.complete p hp idx hidx hstart
    rw [mem_singleton] at hp
    subst hp
    exact absurd hstart.1 hshort
  have hlt : w.len < t.huffLong.length := by rw [h.longLen]; omega
  have hold := h.long b g
  by_cases hb : w.len = b
  · subst hb
    have hset : (t.huffLong.set w.len (t.huffLong.getD w.len [] ++ [⟨w.value, sym⟩])).getD w.len [] =
        t.huffLong.getD w.len [] ++ [⟨w.value, sym⟩] := by simp [hlt]
    rw [hset, mem_append, hold, mem_singleton, hlast]
    exact or_congr_right ⟨fun hg => ⟨rfl, by omega, hg⟩, fun hg => hg.2.2⟩
  have hset : (t.huffLong.set w.len (t.huffLong.getD w.len [] ++ [⟨w.value, sym⟩])).getD b [] =
      t.huffLong.getD b [] := by simp [getElem?_set_ne hb]
  rw [hset, hold, hlast]
  exact (or_iff_left fun hl => hb hl.1).symm

theorem HuffTables.Built.foldl (rest : List (CodeWord × ℕ)) {syms : List (CodeWord × ℕ)}
    {t : HuffTables} (h : t.Built syms) (hrest : ∀ p ∈ rest, 0 < p.1.len ∧ p.1.len ≤ 30) :
    (rest.foldl (fun t p => t.addSymbol p.2 p.1) t).Built (syms ++ rest) := by
  induction rest generalizing syms t with
  | nil => simpa using h
  | cons p rest ih =>
    rw [foldl_cons, append_cons]
    exact ih (h.addSymbol (hrest p mem_cons_self) p.2) (fun q hq => hrest q (mem_cons_of_mem p hq))

theorem buildHuffmanDecodeTable_built : buildHuffmanDecodeTable.Built (huffmanCodes.take 256).zipIdx := by
  have hempty : HuffTables.Built [] ⟨replicate 256 {}, replicate 31 []⟩ := by
    refine ⟨length_replicate, length_replicate, fun idx hidx hpos => ?_,
      fun p hp => absurd hp not_mem_nil, fun b g => ?_⟩
    · rw [getD_eq_getElem?_getD, getElem?_replicate, if_pos hidx] at hpos
      exact absurd hpos (lt_irrefl 0)
    rw [getD_eq_getElem?_getD, getElem?_replicate]
    split_ifs <;> simp
  have hrun := hempty.foldl (huffmanCodes.take 256).zipIdx (fun p hp => ?_)
  · exact hrun
  · have hmem : p.1 ∈ huffmanCodes := mem_of_mem_take (mem_of_getElem? (mem_zipIdx_iff_getElem?.mp hp))
    have := huffmanCodes_bounds p.1 hmem
    omega

theorem mem_symbols {p : CodeWord × ℕ} :
    p ∈ (huffmanCodes.take 256).zipIdx ↔ ∃ s : Fin 257, s ≠ eos ∧ p = (wordOf s, s.val) := by
  rw [mem_zipIdx_iff_getElem?, getElem?_take]
  constructor
  · intro h
    split_ifs at h with hlt
    have hs := wordOf_mem ⟨p.2, by omega⟩
    rw [h, Option.some.injEq] at hs
    refine ⟨⟨p.2, by omega⟩, ?_, Prod.ext hs rfl⟩
    intro heq
    have : p.2 = 256 := congrArg Fin.val heq
    omega
  rintro ⟨s, hs, rfl⟩
  have hlt : s.val < 256 := by
    have hne : s.val ≠ 256 := fun h => hs (Fin.ext h)
    omega
  rw [if_pos hlt]
  exact wordOf_mem s

def SymbolAt (bits nbits : ℕ) (s : Fin 257) : Prop := s ≠ eos ∧ (wordOf s).Starts ⟨bits, nbits⟩

theorem longLookup_spec (hbits : bits < 2 ^ nbits) :
    (∃ s, SymbolAt bits nbits s ∧ longLookup bits nbits = (s.val, (wordOf s).len)) ∨
      (longLookup bits nbits = (0, 0) ∧ ∀ s, SymbolAt bits nbits s → (wordOf s).len ≤ 8) := by
  have htarget : ∀ b, b ≤ nbits → b ≤ 30 → (bits >>> (nbits - b)) % 2 ^ 32 = bits / 2 ^ (nbits - b) := by
    intro b hb _
    rw [Nat.shiftRight_eq_div_pow]
    apply Nat.mod_eq_of_lt
    rw [Nat.div_lt_iff_lt_mul (Nat.two_pow_pos _), ← pow_add]
    exact hbits.trans_le (Nat.pow_le_pow_right (by omega) (by omega))
  unfold longLookup
  cases hfind : (range' 9 (min nbits hpackHuffmanMaxCodeBits - 8)).findSome? fun b =>
      ((buildHuffmanDecodeTable.huffLong.getD b []).find?
        (·.code == (bits >>> (nbits - b)) % 2 ^ 32)).map fun g => (g.sym, b) with
  | some r =>
    obtain ⟨b, hb, hr⟩ := exists_of_findSome?_eq_some hfind
    obtain ⟨g, hg, rfl⟩ := Option.map_eq_some_iff.mp hr
    have hmem := mem_of_find?_eq_some hg
    have hcode := find?_some hg
    obtain ⟨p, hp, hlen, -, rfl⟩ := (buildHuffmanDecodeTable_built.long b g).mp hmem
    obtain ⟨s, hs, rfl⟩ := mem_symbols.mp hp
    have hb' := mem_range'_1.mp hb
    have hle : b ≤ nbits ∧ b ≤ 30 := by
      unfold hpackHuffmanMaxCodeBits at hb'
      omega
    refine .inl ⟨s, ⟨hs, ?_⟩, by rw [hlen]; rfl⟩
    rw [beq_iff_eq, htarget b hle.1 hle.2] at hcode
    exact ⟨by rw [hlen]; exact hle.1, by rw [hlen]; exact hcode.symm⟩
  | none =>
    refine .inr ⟨rfl, ?_⟩
    rintro s ⟨hs, hstart⟩
    by_contra hlong
    have hbound := wordOf_bounds s
    have hb : (wordOf s).len ∈ range' 9 (min nbits hpackHuffmanMaxCodeBits - 8) := by
      rw [mem_range'_1]
      have := hstart.1
      unfold hpackHuffmanMaxCodeBits
      dsimp only at this
      omega
    have hnone := findSome?_eq_none_iff.mp hfind _ hb
    rw [Option.map_eq_none_iff, find?_eq_none] at hnone
    apply hnone ⟨(wordOf s).value, s.val⟩
    · rw [buildHuffmanDecodeTable_built.long]
      exact ⟨_, mem_symbols.mpr ⟨s, hs, rfl⟩, rfl, by omega, rfl⟩
    rw [beq_iff_eq, htarget _ hstart.1 (by omega)]
    exact hstart.2.symm

open BitString

theorem huffmanLookup_spec (hbits : bits < 2 ^ nbits) :
    (∃ s, SymbolAt bits nbits s ∧ huffmanLookup bits nbits = (s.val, (wordOf s).len)) ∨
      (huffmanLookup bits nbits = (0, 0) ∧ ∀ s, ¬ SymbolAt bits nbits s) := by
  have hbuilt := buildHuffmanDecodeTable_built
  unfold huffmanLookup
  by_cases h8 : nbits ≥ 8
  · rw [if_pos h8]
    have hlt : bits / 2 ^ (nbits - 8) < 256 := by
      rw [Nat.div_lt_iff_lt_mul (Nat.two_pow_pos _), show 256 = 2 ^ 8 from rfl, ← Nat.pow_add]
      exact hbits.trans_le (Nat.pow_le_pow_right (by omega) (by omega))
    have hidx : (bits >>> (nbits - 8)) % 256 = bits / 2 ^ (nbits - 8) := by
      rw [Nat.shiftRight_eq_div_pow, Nat.mod_eq_of_lt hlt]
    rw [hidx]
    by_cases hhit : (buildHuffmanDecodeTable.huffPrimary.getD (bits / 2 ^ (nbits - 8)) {}).bits > 0
    · rw [if_pos hhit]
      obtain ⟨p, hp, hstart, heq⟩ := hbuilt.sound _ hlt hhit
      obtain ⟨s, hs, rfl⟩ := mem_symbols.mp hp
      rw [heq]
      exact .inl ⟨s, ⟨hs, (CodeWord.starts_div hstart.1 h8).mp hstart⟩, rfl⟩
    rw [if_neg hhit]
    obtain hfound | ⟨hnone, hshort⟩ := longLookup_spec hbits
    · exact .inl hfound
    refine .inr ⟨hnone, fun s hs => hhit ?_⟩
    exact hbuilt.complete _ (mem_symbols.mpr ⟨s, hs.1, rfl⟩) _ hlt ((CodeWord.starts_div (hshort s hs) h8).mpr hs.2)
  have hlt : bits * 2 ^ (8 - nbits) < 256 := by
    calc bits * 2 ^ (8 - nbits) < 2 ^ nbits * 2 ^ (8 - nbits) := Nat.mul_lt_mul_of_pos_right hbits (Nat.two_pow_pos _)
      _ = 256 := by rw [← Nat.pow_add, show nbits + (8 - nbits) = 8 by omega]
  have hidx : (bits <<< (8 - nbits)) % 256 = bits * 2 ^ (8 - nbits) := by
    rw [Nat.shiftLeft_eq, Nat.mod_eq_of_lt hlt]
  have hback : bits * 2 ^ (8 - nbits) / 2 ^ (8 - nbits) = bits := Nat.mul_div_cancel _ (Nat.two_pow_pos _)
  have hstarts : ∀ w : CodeWord, w.len ≤ nbits → (w.Starts ⟨bits, nbits⟩ ↔ w.Starts ⟨bits * 2 ^ (8 - nbits), 8⟩) := by
    intro w hw
    have hdiv := CodeWord.starts_div (v := bits * 2 ^ (8 - nbits)) hw (show nbits ≤ 8 by omega)
    rwa [hback] at hdiv
  dsimp only
  rw [hidx]
  split_ifs with hhit
  · obtain ⟨p, hp, hstart, heq⟩ := hbuilt.sound _ hlt hhit.1
    obtain ⟨s, hs, rfl⟩ := mem_symbols.mp hp
    rw [heq] at hhit ⊢
    exact .inl ⟨s, ⟨hs, (hstarts _ hhit.2).mpr hstart⟩, rfl⟩
  refine .inr ⟨rfl, fun s hs => hhit ?_⟩
  have hstart := (hstarts _ hs.2.1).mp hs.2
  have hpos := hbuilt.complete _ (mem_symbols.mpr ⟨s, hs.1, rfl⟩) _ hlt hstart
  obtain ⟨p, hp, hstart', heq⟩ := hbuilt.sound _ hlt hpos
  obtain ⟨s', _, rfl⟩ := mem_symbols.mp hp
  -- both words start the same eight bits, so they are one word
  have hone : s' = s := by
    have hbits' : ∀ u : Fin 257, (wordOf u).Starts ⟨bits * 2 ^ (8 - nbits), 8⟩ →
        code u <+: ofNat 8 (bits * 2 ^ (8 - nbits)) := by
      intro u hu
      rw [code_eq]
      exact (CodeWord.bits_isPrefix_iff (b := ⟨bits * 2 ^ (8 - nbits), 8⟩) (wordOf_bounds u).2.2 hlt).mpr hu
    exact code_prefixFree.unique (hbits' s' hstart') (hbits' s hstart)
  refine ⟨hpos, ?_⟩
  rw [heq, hone]
  exact hs.2.1

theorem huffmanCodes_not_ones : ∀ w ∈ huffmanCodes, w.len ≤ 7 → w.value ≠ 2 ^ w.len - 1 := by
  decide +kernel

theorem code_length (s : Fin 257) : (code s).length = (wordOf s).len := by
  rw [code_eq, CodeWord.bits, ofNat_length]

theorem isPadding_of_code {bits : List Bool} (h : code s <+: bits) : isPadding bits = false := by
  by_contra hpad
  rw [Bool.not_eq_false] at hpad
  unfold isPadding at hpad
  rw [Bool.and_eq_true, decide_eq_true_eq, all_eq_true] at hpad
  have hlen : (wordOf s).len ≤ 7 := by
    have := h.length_le
    rw [code_length] at this
    omega
  apply huffmanCodes_not_ones _ (mem_of_getElem? (wordOf_mem s)) hlen
  apply eq_of_ofNat_ones (wordOf_bounds s).2.2
  intro b hb
  rw [code_eq] at h
  exact hpad.2 b (h.subset hb)

theorem symbolAt_eq {bits : List Bool} (h : code s <+: bits) : symbolAt bits = some s :=
  code_prefixFree.find_eq (mem_finRange s) h

theorem symbolAt_some {bits : List Bool} (h : symbolAt bits = some s) : code s <+: bits := by
  rw [← isPrefixOf_iff_prefix]
  exact find?_some (p := fun t => (code t).isPrefixOf bits) h

theorem decodeSymbols_fuel {fuel : ℕ} {bits : List Bool} (h : bits.length ≤ fuel) :
    decodeSymbols fuel bits = decodeSymbols bits.length bits := by
  induction hn : bits.length using Nat.strong_induction_on generalizing fuel bits with
  | h n ih =>
    unfold decodeSymbols
    cases hpad : isPadding bits with
    | true => simp
    | false =>
      rcases hs : symbolAt bits with _ | s
      · simp
      have hpre := (symbolAt_some hs).length_le
      have hpos := (wordOf_bounds s).1
      rw [← code_length] at hpos
      obtain ⟨k, rfl⟩ : ∃ k, fuel = k + 1 := ⟨fuel - 1, by omega⟩
      obtain ⟨m, rfl⟩ : ∃ m, n = m + 1 := ⟨n - 1, by omega⟩
      have hdrop : (bits.drop (code s).length).length < m + 1 := by
        rw [length_drop]; omega
      have hk := @ih _ hdrop k _ (by omega) rfl
      have hm := @ih _ hdrop m _ (by omega) rfl
      simp only [Bool.false_eq_true, if_false, hk, hm]

def decodeBits (bits : List Bool) : Option Bytes := decodeSymbols bits.length bits

theorem decodeBits_symbol {bits : List Bool} (hs : s ≠ eos) (h : code s <+: bits) :
    decodeBits bits = (decodeBits (bits.drop (code s).length)).map (UInt8.ofNat s.val :: ·) := by
  have hpre := h.length_le
  have hpos := (wordOf_bounds s).1
  rw [← code_length] at hpos
  obtain ⟨k, hk⟩ : ∃ k, bits.length = k + 1 := ⟨bits.length - 1, by omega⟩
  have hfuel : decodeSymbols k (bits.drop (code s).length) = decodeBits (bits.drop (code s).length) :=
    decodeSymbols_fuel (by rw [length_drop]; omega)
  have hpad : ¬ isPadding bits = true := by rw [isPadding_of_code h]; exact Bool.false_ne_true
  rw [← hfuel]
  unfold decodeBits
  rw [hk]
  conv_lhs => unfold decodeSymbols
  rw [if_neg hpad, symbolAt_eq h]
  exact if_neg hs

theorem decodeBits_stuck {bits : List Bool} (h : ∀ s, s ≠ eos → ¬ code s <+: bits) :
    decodeBits bits = if isPadding bits then some [] else none := by
  unfold decodeBits decodeSymbols
  cases hpad : isPadding bits with
  | true => rfl
  | false =>
    rcases hs : symbolAt bits with _ | s
    · simp
    have heos : s = eos := by
      by_contra hne
      exact h s hne (symbolAt_some hs)
    cases bits.length with
    | zero => rfl
    | succ k => simp [heos]

theorem code_isPrefix_iff (hbits : bits < 2 ^ nbits)
    {more : List Bool} (hlen : (wordOf s).len ≤ nbits ∨ more = []) :
    code s <+: ofNat nbits bits ++ more ↔ (wordOf s).Starts ⟨bits, nbits⟩ := by
  have hiff := CodeWord.bits_isPrefix_iff (a := wordOf s) (b := ⟨bits, nbits⟩) (wordOf_bounds s).2.2 hbits
  rw [code_eq, ← hiff]
  constructor
  · intro h
    obtain hlen | rfl := hlen
    · apply prefix_of_prefix_length_le h (prefix_append _ _)
      simpa [CodeWord.bits] using hlen
    · simpa [CodeWord.bits] using h
  intro h
  exact h.trans (prefix_append _ _)

theorem ofNat_drop_symbol (h : w.len ≤ nbits) (more : List Bool) : (ofNat nbits bits ++ more).drop w.len =
      ofNat (nbits - w.len) (bits &&& (2 ^ (nbits - w.len) - 1)) ++ more := by
  have hsplit := ofNat_add w.len (nbits - w.len) bits
  rw [Nat.add_sub_cancel' h] at hsplit
  rw [Nat.and_two_pow_sub_one_eq_mod, ofNat_mod, hsplit, append_assoc, drop_left' (ofNat_length _ _)]

/-- The inner loop takes symbols off the bit string until none is left in the buffer; it
fails only where the reference decoder does. -/
theorem huffmanDrain_spec {fuel : ℕ} (hfuel : nbits ≤ fuel) (hbits : bits < 2 ^ nbits)
    (dst : Bytes) (more : List Bool) :
    match huffmanDrain fuel bits nbits dst with
    | none => decodeBits (ofNat nbits bits ++ more) = none
    | some (bits', nbits', dst') => bits' < 2 ^ nbits' ∧ nbits' < 30 ∧ (∀ s, ¬ SymbolAt bits' nbits' s) ∧
        (decodeBits (ofNat nbits bits ++ more)).map (dst ++ ·) =
          (decodeBits (ofNat nbits' bits' ++ more)).map (dst' ++ ·) := by
  induction fuel generalizing bits nbits dst with
  | zero =>
    refine ⟨hbits, by omega, ?_, rfl⟩
    rintro s ⟨-, hlen, -⟩
    have := (wordOf_bounds s).1
    dsimp only at hlen
    omega
  | succ fuel ih =>
    rw [huffmanDrain]
    by_cases h5 : nbits ≥ 5
    · rw [if_pos h5]
      obtain ⟨s, hs, hlookup⟩ | ⟨hlookup, hnone⟩ := huffmanLookup_spec hbits
      · have hpos := (wordOf_bounds s).1
        have hle : (wordOf s).len ≤ nbits := hs.2.1
        have hpre : code s <+: ofNat nbits bits ++ more := (code_isPrefix_iff hbits (.inl hle)).mpr hs.2
        have hstep := decodeBits_symbol hs.1 hpre
        rw [code_length, ofNat_drop_symbol hle] at hstep
        have hsmall : bits &&& (2 ^ (nbits - (wordOf s).len) - 1) < 2 ^ (nbits - (wordOf s).len) := by
          rw [Nat.and_two_pow_sub_one_eq_mod]
          exact Nat.mod_lt _ (Nat.two_pow_pos _)
        simp only [hlookup, show (wordOf s).len ≠ 0 by omega, if_false]
        have hrec := ih (by omega) hsmall (dst ++ [UInt8.ofNat s.val])
        rw [hstep]
        generalize huffmanDrain fuel _ _ _ = r at hrec ⊢
        rcases r with _ | r
        · rw [hrec]; rfl
        obtain ⟨hb, hn, hno, heq⟩ := hrec
        refine ⟨hb, hn, hno, ?_⟩
        rw [← heq, Option.map_map]
        congr 1
        funext x
        simp
      simp only [hlookup, if_true]
      unfold hpackHuffmanMaxCodeBits
      split_ifs with h30
      · rw [decodeBits_stuck, if_neg]
        · simp [isPadding]; omega
        · intro s hs hpre
          apply hnone s
          exact ⟨hs, (code_isPrefix_iff hbits (.inl (by have := (wordOf_bounds s).2.1; omega))).mp hpre⟩
      · exact ⟨hbits, by omega, hnone, rfl⟩
    rw [if_neg h5]
    refine ⟨hbits, by omega, ?_, rfl⟩
    rintro s ⟨-, hlen, -⟩
    have := (wordOf_bounds s).1
    dsimp only at hlen
    omega

theorem isPadding_ofNat (hbits : bits < 2 ^ nbits) : isPadding (ofNat nbits bits) = true ↔
      ¬ (nbits > 7 ∨ (nbits > 0 ∧ bits ≠ 2 ^ nbits - 1)) := by
  unfold isPadding
  rw [Bool.and_eq_true, decide_eq_true_eq, ofNat_length, all_eq_true]
  constructor
  · rintro ⟨hlen, hall⟩ (h7 | ⟨-, hne⟩)
    · omega
    · exact hne (eq_of_ofNat_ones hbits hall)
  intro h
  push Not at h
  refine ⟨by omega, ?_⟩
  obtain rfl | hpos := Nat.eq_zero_or_pos nbits
  · simp [ofNat]
  rw [h.2 hpos, ofNat_ones]
  intro b hb
  exact eq_of_mem_replicate hb

theorem huffmanDecodeLoop_eq (src : Bytes) (hbits : bits < 2 ^ nbits)
    (hn : nbits < 30) (hno : ∀ s, ¬ SymbolAt bits nbits s) (dst : Bytes) :
    huffmanDecodeLoop src bits nbits dst = (decodeBits (ofNat nbits bits ++ ofBytes src)).map (dst ++ ·) := by
  induction src generalizing bits nbits dst with
  | nil =>
    rw [huffmanDecodeLoop, ofBytes_nil, decodeBits_stuck]
    · rw [append_nil]
      by_cases hbad : nbits > 7 ∨ (nbits > 0 ∧ bits ≠ 2 ^ nbits - 1)
      · rw [if_pos hbad, if_neg (fun h => (isPadding_ofNat hbits).mp h hbad)]
        rfl
      rw [if_neg hbad, if_pos ((isPadding_ofNat hbits).mpr hbad)]
      simp
    · intro s hs hpre
      exact hno s ⟨hs, (code_isPrefix_iff hbits (.inr rfl)).mp hpre⟩
  | cons b src ih =>
    have hb : b.toNat < 2 ^ 8 := b.toNat_lt
    have hshift : bits <<< 8 < 2 ^ 64 := by
      have hpow : 2 ^ nbits ≤ 2 ^ 30 := Nat.pow_le_pow_right (by omega) (by omega)
      rw [Nat.shiftLeft_eq]
      omega
    have hpush : (bits <<< 8 % 2 ^ 64) ||| b.toNat = bits * 2 ^ 8 + b.toNat := by
      rw [Nat.mod_eq_of_lt hshift, ← Nat.shiftLeft_add_eq_or_of_lt hb, Nat.shiftLeft_eq]
    have hlt : bits * 2 ^ 8 + b.toNat < 2 ^ (nbits + 8) := by
      rw [pow_add]
      omega
    have hstr : ofNat (nbits + 8) (bits * 2 ^ 8 + b.toNat) ++ ofBytes src = ofNat nbits bits ++ ofBytes (b :: src) := by
      rw [ofNat_push hb, ofBytes_cons, append_assoc]
    have hround : huffmanPush b bits nbits dst = huffmanDrain (nbits + 8) (bits * 2 ^ 8 + b.toNat) (nbits + 8) dst := by
      unfold huffmanPush
      rw [hpush]
    rw [huffmanDecodeLoop, hround]
    generalize nbits + 8 = m at hlt hstr ⊢
    have hdrain := huffmanDrain_spec le_rfl hlt dst (ofBytes src)
    rw [hstr] at hdrain
    generalize huffmanDrain _ _ _ _ = r at hdrain ⊢
    rcases r with _ | r
    · rw [hdrain]; rfl
    obtain ⟨hb', hn', hno', heq⟩ := hdrain
    rw [heq]
    exact ih hb' hn' hno' r.2.2

theorem hpackHuffmanDecode_eq (src : Bytes) : hpackHuffmanDecode src = decodeHuffman src := by
  have hno : ∀ s, ¬ SymbolAt 0 0 s := by
    rintro s ⟨-, hlen, -⟩
    have := (wordOf_bounds s).1
    dsimp only at hlen
    omega
  unfold hpackHuffmanDecode
  rw [huffmanDecodeLoop_eq src (by norm_num) (by norm_num) hno]
  show (decodeBits (ofBytes src)).map ([] ++ ·) = decodeBits (ofBytes src)
  simp

/-! `hpackHuffmanDecodeInto` appends to a buffer and leaves there what it decoded before an
error. -/

def huffmanDrainInto : ℕ → ℕ → ℕ → Bytes → Bool × ℕ × ℕ × Bytes
  | 0, bits, nbits, dst => (true, bits, nbits, dst)
  | fuel + 1, bits, nbits, dst =>
    if nbits ≥ 5 then
      let (decoded, codeLen) := huffmanLookup bits nbits
      if codeLen = 0 then (!decide (nbits ≥ hpackHuffmanMaxCodeBits), bits, nbits, dst)
      else
        huffmanDrainInto fuel (bits &&& (2 ^ (nbits - codeLen) - 1)) (nbits - codeLen)
          (dst ++ [UInt8.ofNat decoded])
    else (true, bits, nbits, dst)

@[irreducible]
def huffmanPushInto (b : UInt8) (bits nbits : ℕ) (dst : Bytes) : Bool × ℕ × ℕ × Bytes :=
  huffmanDrainInto (nbits + 8) ((bits <<< 8 % 2 ^ 64) ||| b.toNat) (nbits + 8) dst

def huffmanIntoLoop : Bytes → ℕ → ℕ → Bytes → Bytes × Bool
  | [], bits, nbits, dst => (dst, !decide (nbits > 7 ∨ (nbits > 0 ∧ bits ≠ 2 ^ nbits - 1)))
  | b :: src, bits, nbits, dst =>
    match huffmanPushInto b bits nbits dst with
    | (false, _, _, dst) => (dst, false)
    | (true, bits, nbits, dst) => huffmanIntoLoop src bits nbits dst

def hpackHuffmanDecodeInto (dst src : Bytes) : Bytes × Bool := huffmanIntoLoop src 0 0 dst

theorem huffmanDrainInto_eq (front : Bytes) (fuel bits nbits : ℕ) (dst : Bytes) :
    match huffmanDrain fuel bits nbits dst with
    | none => (huffmanDrainInto fuel bits nbits (front ++ dst)).1 = false
    | some (bits', nbits', out) =>
      huffmanDrainInto fuel bits nbits (front ++ dst) = (true, bits', nbits', front ++ out) := by
  induction fuel generalizing bits nbits dst with
  | zero => rfl
  | succ fuel ih =>
    rw [huffmanDrain, huffmanDrainInto]
    by_cases hfew : nbits ≥ 5
    · rw [if_pos hfew, if_pos hfew]
      generalize huffmanLookup bits nbits = r
      obtain ⟨_, codeLen⟩ := r
      dsimp only
      by_cases hstop : codeLen = 0
      · rw [if_pos hstop, if_pos hstop]
        by_cases hlong : nbits ≥ hpackHuffmanMaxCodeBits <;> simp [hlong]
      rw [if_neg hstop, if_neg hstop, append_assoc]
      exact ih _ _ _
    · rw [if_neg hfew, if_neg hfew]

theorem huffmanPushInto_eq (front : Bytes) (b : UInt8) (bits nbits : ℕ) (dst : Bytes) :
    match huffmanPush b bits nbits dst with
    | none => (huffmanPushInto b bits nbits (front ++ dst)).1 = false
    | some (bits', nbits', out) =>
      huffmanPushInto b bits nbits (front ++ dst) = (true, bits', nbits', front ++ out) := by
  unfold huffmanPush huffmanPushInto
  dsimp only
  generalize (bits <<< 8 % 2 ^ 64) ||| b.toNat = word
  generalize nbits + 8 = m
  exact huffmanDrainInto_eq front m word m dst

theorem huffmanIntoLoop_eq (front src : Bytes) (bits nbits : ℕ) (dst : Bytes) :
    match huffmanDecodeLoop src bits nbits dst with
    | none => (huffmanIntoLoop src bits nbits (front ++ dst)).2 = false
    | some out => huffmanIntoLoop src bits nbits (front ++ dst) = (front ++ out, true) := by
  induction src generalizing bits nbits dst with
  | nil =>
    rw [huffmanDecodeLoop, huffmanIntoLoop]
    split_ifs with hbad <;> simp [hbad]
  | cons b src ih =>
    have hdrain := huffmanPushInto_eq front b bits nbits dst
    rw [huffmanDecodeLoop, huffmanIntoLoop]
    rcases hr : huffmanPush b bits nbits dst with _ | r
    · rw [hr] at hdrain
      dsimp only at hdrain ⊢
      generalize huffmanPushInto b bits nbits (front ++ dst) = r at hdrain ⊢
      obtain ⟨ok, bits', nbits', out⟩ := r
      obtain rfl : ok = false := hdrain
      rfl
    obtain ⟨bits', nbits', out⟩ := r
    rw [hr] at hdrain
    dsimp only at hdrain ⊢
    rw [hdrain]
    exact ih bits' nbits' out

end AlosHttp.Hpack

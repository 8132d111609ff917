import AlosHttp.Core.Utils

/-! Variable-length integers of QUIC: the two top bits of the first byte give the length. -/
namespace AlosHttp.Quic

def putUint64 (v : ℕ) : Bytes :=
  [.ofNat (v >>> 56), .ofNat (v >>> 48), .ofNat (v >>> 40), .ofNat (v >>> 32), .ofNat (v >>> 24),
    .ofNat (v >>> 16), .ofNat (v >>> 8), .ofNat v]

def uint64 (data : Bytes) : ℕ := data.foldl (fun v b => v * 256 + b.toNat) 0

def quicAppendVarint (v : ℕ) : Bytes :=
  if v < 64 then [.ofNat v]
  else if v < 16384 then [.ofNat (0x40 ||| v >>> 8), .ofNat v]
  else if v < 1073741824 then [.ofNat (0x80 ||| v >>> 24), .ofNat (v >>> 16), .ofNat (v >>> 8), .ofNat v]
  else putUint64 (0xc000000000000000 ||| v)

/-- The value and its length, which is 0 if `data` is too short. -/
def quicParseVarint : Bytes → ℕ × ℕ
  | [] => (0, 0)
  | b₀ :: rest =>
    match (b₀ >>> 6).toNat, rest with
    | 0, _ => ((b₀ &&& 0x3f).toNat, 1)
    | 1, b₁ :: _ => ((b₀ &&& 0x3f).toNat <<< 8 ||| b₁.toNat, 2)
    | 1, _ => (0, 0)
    | 2, b₁ :: b₂ :: b₃ :: _ =>
      ((b₀ &&& 0x3f).toNat <<< 24 ||| b₁.toNat <<< 16 ||| b₂.toNat <<< 8 ||| b₃.toNat, 4)
    | 2, _ => (0, 0)
    | _, b₁ :: b₂ :: b₃ :: b₄ :: b₅ :: b₆ :: b₇ :: _ =>
      (uint64 [b₀, b₁, b₂, b₃, b₄, b₅, b₆, b₇] &&& 0x3fffffffffffffff, 8)
    | _, _ => (0, 0)

def readVarint (data : Bytes) : Option (ℕ × Bytes) :=
  let (v, n) := quicParseVarint data
  if n = 0 then none else some (v, data.drop n)

theorem or_eq_add {x y : ℕ} (i : ℕ) (hx : 2 ^ i ∣ x) (hy : y < 2 ^ i) : x ||| y = x + y := by
  obtain ⟨a, rfl⟩ := hx
  exact (Nat.two_pow_add_eq_or_of_lt hy a).symm

theorem or_bytes {a b c d : ℕ} (hb : b < 2 ^ 8) (hc : c < 2 ^ 8) (hd : d < 2 ^ 8) :
    a <<< 24 ||| b <<< 16 ||| c <<< 8 ||| d = a * 2 ^ 24 + b * 2 ^ 16 + c * 2 ^ 8 + d := by
  rw [Nat.shiftLeft_eq, Nat.shiftLeft_eq, Nat.shiftLeft_eq, or_eq_add (x := a * 2 ^ 24) 24 (by omega) (by omega),
    or_eq_add (x := a * 2 ^ 24 + b * 2 ^ 16) 16 (by omega) (by omega), or_eq_add 8 (by omega) (by omega)]

theorem toNat_and_mask (b : UInt8) : (b &&& 0x3f).toNat = b.toNat % 64 := by
  exact Nat.and_two_pow_sub_one_eq_mod b.toNat 6

theorem toNat_shift_six (b : UInt8) : (b >>> 6).toNat = b.toNat / 64 := by
  exact Nat.shiftRight_eq_div_pow b.toNat 6

open UInt8

theorem toNat_ofNat_shift (v i : ℕ) : (ofNat (v >>> i)).toNat = v / 2 ^ i % 256 := by
  rw [toNat_ofNat', Nat.shiftRight_eq_div_pow]

theorem length_quicAppendVarint_pos (v : ℕ) : 0 < (quicAppendVarint v).length := by
  unfold quicAppendVarint
  split_ifs <;> simp [putUint64]

theorem parse_one {v : ℕ} (h : v < 64) (rest : Bytes) : quicParseVarint (.ofNat v :: rest) = (v, 1) := by
  have hv : (ofNat v).toNat = v := by
    rw [toNat_ofNat']
    omega
  have hpre : (ofNat v >>> 6).toNat = 0 := by
    rw [toNat_shift_six, hv]
    omega
  simp only [quicParseVarint, hpre, toNat_and_mask, hv, Nat.mod_eq_of_lt h]

theorem parse_two {v : ℕ} (hlo : 64 ≤ v) (h : v < 16384) (rest : Bytes) :
    quicParseVarint (.ofNat (0x40 ||| v >>> 8) :: .ofNat v :: rest) = (v, 2) := by
  have hv : (ofNat (0x40 ||| v >>> 8)).toNat = 64 + v / 256 := by
    rw [Nat.shiftRight_eq_div_pow, or_eq_add 6 (by decide) (by omega), toNat_ofNat']
    omega
  have hpre : (ofNat (0x40 ||| v >>> 8) >>> 6).toNat = 1 := by
    rw [toNat_shift_six, hv]
    omega
  have hlow : (ofNat v).toNat < 2 ^ 8 := toNat_lt _
  simp only [quicParseVarint, hpre, toNat_and_mask, hv]
  rw [← Nat.shiftLeft_add_eq_or_of_lt hlow, Nat.shiftLeft_eq, toNat_ofNat']
  congr 1
  omega

theorem parse_four {v : ℕ} (hlo : 16384 ≤ v) (h : v < 1073741824) (rest : Bytes) :
    quicParseVarint (.ofNat (0x80 ||| v >>> 24) :: .ofNat (v >>> 16) :: .ofNat (v >>> 8) :: .ofNat v :: rest) =
      (v, 4) := by
  have hv : (ofNat (0x80 ||| v >>> 24)).toNat = 128 + v / 2 ^ 24 := by
    rw [Nat.shiftRight_eq_div_pow, or_eq_add 6 (by decide) (by omega), toNat_ofNat']
    omega
  have hpre : (ofNat (0x80 ||| v >>> 24) >>> 6).toNat = 2 := by
    rw [toNat_shift_six, hv]
    omega
  simp only [quicParseVarint, hpre, toNat_and_mask, hv]
  rw [or_bytes (toNat_lt _) (toNat_lt _) (toNat_lt _), toNat_ofNat_shift, toNat_ofNat_shift, toNat_ofNat']
  congr 1
  omega

theorem parse_eight {v : ℕ} (h : v < 2 ^ 62) (rest : Bytes) :
    quicParseVarint (putUint64 (0xc000000000000000 ||| v) ++ rest) = (v, 8) := by
  rw [or_eq_add 62 (by decide) h]
  have hpre : (ofNat ((0xc000000000000000 + v) >>> 56) >>> 6).toNat = 3 := by
    rw [toNat_shift_six, toNat_ofNat_shift]
    omega
  have hmask (x : ℕ) : x &&& 0x3fffffffffffffff = x % 2 ^ 62 := Nat.and_two_pow_sub_one_eq_mod x 62
  simp only [putUint64, List.cons_append, List.nil_append, quicParseVarint, hpre, hmask]
  simp only [uint64, List.foldl_cons, List.foldl_nil, toNat_ofNat']
  congr 1
  omega

theorem quicParseVarint_append {v : ℕ} (h : v < 2 ^ 62) (rest : Bytes) :
    quicParseVarint (quicAppendVarint v ++ rest) = (v, (quicAppendVarint v).length) := by
  unfold quicAppendVarint
  split_ifs with h₁ h₂ h₃
  · exact parse_one h₁ rest
  · exact parse_two (by omega) h₂ rest
  · exact parse_four (by omega) h₃ rest
  · exact parse_eight h rest

@[simp] theorem readVarint_append {v : ℕ} (h : v < 2 ^ 62) (rest : Bytes) :
    readVarint (quicAppendVarint v ++ rest) = some (v, rest) := by
  have hpos := length_quicAppendVarint_pos v
  rw [readVarint, quicParseVarint_append h]
  dsimp only
  rw [if_neg (by omega), List.drop_left]

end AlosHttp.Quic

import AlosHttp.Core.Utils
import AlosHttp.Data.Swar

/-! Unmasking of WebSocket payloads, a word at a time and over chunks. -/
namespace AlosHttp.WebSocket
open List Data

def wsMaskWord (maskKey : Fin 4 → UInt8) : BitVec 64 :=
  BitVec.ofNat 64 (leNat [maskKey 0, maskKey 1, maskKey 2, maskKey 3] * (2 ^ 32 + 1))

def putWord (w : BitVec 64) : Bytes := (range 8).map fun k => UInt8.ofNat (Data.byteAt w k)

/-- The loop over the first `n` words; a vector is four of them. -/
def xorWords (mask : BitVec 64) : ℕ → Bytes → Bytes
  | 0, _ => []
  | n + 1, p => putWord (leWord p ^^^ mask) ++ xorWords mask n (p.drop 8)

def maskXORSWAR (payload : Bytes) (maskKey : Fin 4 → UInt8) : Bytes :=
  let i := payload.length / 8 * 8
  xorWords (wsMaskWord maskKey) (i / 8) payload ++
    (payload.drop i).mapIdx fun j c => c ^^^ maskKey (Fin.ofNat 4 (i + j))

def wsMaskSIMDBlock : ℕ := 32

def maskXOR (hasAVX2 : Bool) (payload : Bytes) (maskKey : Fin 4 → UInt8) : Bytes :=
  if hasAVX2 ∧ wsMaskSIMDBlock ≤ payload.length then
    let bulk := payload.length / wsMaskSIMDBlock * wsMaskSIMDBlock
    xorWords (wsMaskWord maskKey) (bulk / 8) payload ++ maskXORSWAR (payload.drop bulk) maskKey
  else maskXORSWAR payload maskKey

def wsMaskAt (hasAVX2 : Bool) (b : Bytes) (key : Fin 4 → UInt8) (off : ℕ) : Bytes :=
  let r := off % 4
  maskXOR hasAVX2 b (if r ≠ 0 then fun j => key (Fin.ofNat 4 (r + j)) else key)

/-- The chunks of a frame, as `continueFrame` unmasks them from offset `maskOff` on. -/
def unmaskChunks (hasAVX2 : Bool) (key : Fin 4 → UInt8) : ℕ → List Bytes → List Bytes
  | _, [] => []
  | maskOff, chunk :: chunks =>
    wsMaskAt hasAVX2 chunk key maskOff :: unmaskChunks hasAVX2 key (maskOff + chunk.length) chunks

def xorKey (key : Fin 4 → UInt8) (off : ℕ) (p : Bytes) : Bytes :=
  p.mapIdx fun i c => c ^^^ key (Fin.ofNat 4 (off + i))

variable {key : Fin 4 → UInt8} {hasAVX2 : Bool} {off : ℕ} {p q : Bytes}

theorem xorKey_append : xorKey key off (p ++ q) = xorKey key off p ++ xorKey key (off + p.length) q := by
  simp only [xorKey, mapIdx_append, Nat.add_assoc, Nat.add_comm p.length]

theorem xorKey_congr {off' : ℕ} (h : off % 4 = off' % 4) : xorKey key off p = xorKey key off' p := by
  have hidx (i : ℕ) : Fin.ofNat 4 (off + i) = Fin.ofNat 4 (off' + i) := by
    ext
    simp only [Fin.val_ofNat]
    omega
  simp only [xorKey, hidx]

theorem xorKey_xorKey : xorKey key off (xorKey key off p) = p := by
  apply ext_getElem
  · simp [xorKey]
  intro i _ _
  simp only [xorKey, getElem_mapIdx, UInt8.xor_assoc, UInt8.xor_self, UInt8.xor_zero]

theorem wsMaskWord_eq : wsMaskWord key = leWord ((range 8).map fun k => key (Fin.ofNat 4 k)) := by
  change _ = leWord [key 0, key 1, key 2, key 3, key 0, key 1, key 2, key 3]
  unfold wsMaskWord leWord
  congr 1
  simp only [leNat, take]
  ring

theorem putWord_xor (hp : 8 ≤ p.length) : putWord (leWord p ^^^ wsMaskWord key) = xorKey key 0 (p.take 8) := by
  apply ext_getElem
  · simp [putWord, xorKey, hp]
  intro k hk _
  have hk8 : k < 8 := by simpa [putWord] using hk
  simp only [putWord, xorKey, getElem_map, getElem_range, getElem_mapIdx, getElem_take, byteAt_xor, wsMaskWord_eq]
  rw [byteAt_leWord p hp k hk8 (getElem?_eq_getElem (by omega)),
    byteAt_leWord _ (by simp) k hk8 (getElem?_eq_getElem (by simpa using hk8)), ← UInt8.toNat_xor,
    UInt8.ofNat_toNat]
  simp

theorem xorWords_eq {n : ℕ} (hp : 8 * n ≤ p.length) :
    xorWords (wsMaskWord key) n p = xorKey key 0 (p.take (8 * n)) := by
  induction n generalizing p with
  | zero => rfl
  | succ n ih =>
    have hlen : (p.take 8).length = 8 := by
      rw [length_take]
      omega
    rw [xorWords, putWord_xor (by omega), ih (by rw [length_drop]; omega), Nat.mul_add_one, Nat.add_comm,
      take_add, xorKey_append, hlen]
    congr 1
    exact xorKey_congr rfl

theorem xorWords_append {i : ℕ} (hi : 8 ∣ i) (hp : i ≤ p.length) :
    xorWords (wsMaskWord key) (i / 8) p ++ xorKey key i (p.drop i) = xorKey key 0 p := by
  have hlen : (p.take i).length = i := by
    rw [length_take]
    omega
  rw [xorWords_eq (by omega), Nat.mul_div_cancel' hi]
  conv_rhs => rw [← take_append_drop i p, xorKey_append, hlen, Nat.zero_add]

theorem maskXORSWAR_eq : maskXORSWAR p key = xorKey key 0 p := xorWords_append (by omega) (by omega)

theorem maskXOR_eq : maskXOR hasAVX2 p key = xorKey key 0 p := by
  unfold maskXOR wsMaskSIMDBlock
  split_ifs
  · dsimp only
    have hrest : xorKey key 0 (p.drop (p.length / 32 * 32)) =
        xorKey key (p.length / 32 * 32) (p.drop (p.length / 32 * 32)) := by
      apply xorKey_congr
      omega
    rw [maskXORSWAR_eq, hrest]
    exact xorWords_append (by omega) (by omega)
  · exact maskXORSWAR_eq

theorem wsMaskAt_eq : wsMaskAt hasAVX2 p key off = xorKey key off p := by
  unfold wsMaskAt
  dsimp only
  rw [maskXOR_eq]
  split_ifs with hr
  · have hidx (i : ℕ) : Fin.ofNat 4 (off % 4 + (Fin.ofNat 4 (0 + i) : Fin 4)) = Fin.ofNat 4 (off + i) := by
      ext
      simp only [Fin.val_ofNat]
      omega
    simp only [xorKey, hidx]
  apply xorKey_congr
  omega

theorem flatten_unmaskChunks (chunks : List Bytes) :
    (unmaskChunks hasAVX2 key off chunks).flatten = xorKey key off chunks.flatten := by
  induction chunks generalizing off with
  | nil => rfl
  | cons chunk chunks ih =>
    rw [unmaskChunks, flatten_cons, flatten_cons, ih, wsMaskAt_eq, xorKey_append]

/-- Chunks unmasked at their running offsets are the payload with byte `i` under key byte
`i mod 4`; so is the word loop, at any length; and twice is nothing. -/
theorem unmask_composes (hasAVX2 : Bool) (key : Fin 4 → UInt8) :
    (∀ chunks, (unmaskChunks hasAVX2 key 0 chunks).flatten = xorKey key 0 chunks.flatten) ∧
      ∀ p, maskXORSWAR p key = xorKey key 0 p ∧ maskXORSWAR (maskXORSWAR p key) key = p ∧
        ∀ off, wsMaskAt hasAVX2 (wsMaskAt hasAVX2 p key off) key off = p := by
  constructor
  · exact flatten_unmaskChunks
  intro p
  rw [maskXORSWAR_eq, maskXORSWAR_eq, xorKey_xorKey]
  refine ⟨rfl, rfl, fun off => ?_⟩
  rw [wsMaskAt_eq, wsMaskAt_eq, xorKey_xorKey]

end AlosHttp.WebSocket

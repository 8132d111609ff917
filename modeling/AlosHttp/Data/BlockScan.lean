import AlosHttp.Data.Swar

/-! Searching a buffer block by block: a block search that agrees with the plain search inside every
block, and a tail search after the last whole one, agree with it over the whole buffer. -/
namespace AlosHttp.Data
open List

def firstFrom (test : ℕ → Bool) (lo hi : ℕ) : Option ℕ := (range' lo (hi - lo)).find? test

variable {lo hi : ℕ} {test : ℕ → Bool}

theorem firstFrom_eq_none : firstFrom test lo hi = none ↔ ∀ k, lo ≤ k → k < hi → test k = false := by
  simp only [firstFrom, find?_eq_none, mem_range'_1, Bool.not_eq_true]
  constructor
  · intro h k h1 _
    exact h k ⟨h1, by omega⟩
  intro h k hk
  exact h k hk.1 (by omega)

theorem firstFrom_eq_some {j : ℕ} : firstFrom test lo hi = some j ↔
      lo ≤ j ∧ j < hi ∧ test j = true ∧ ∀ k, lo ≤ k → k < j → test k = false := by
  simp only [firstFrom, find?_range'_eq_some, mem_range'_1]
  constructor
  · rintro ⟨ht, hm, hk⟩
    exact ⟨hm.1, by omega, ht, fun k h1 h2 => by simpa using hk k h1 h2⟩
  rintro ⟨h1, h2, ht, hk⟩
  exact ⟨ht, ⟨h1, by omega⟩, fun k h3 h4 => by simpa using hk k h3 h4⟩

theorem firstFrom_split {mid : ℕ} (h1 : lo ≤ mid) (h2 : mid ≤ hi) :
    firstFrom test lo hi = (firstFrom test lo mid).or (firstFrom test mid hi) := by
  have hl : range' lo (hi - lo) = range' lo (mid - lo) ++ range' mid (hi - mid) := by
    have := range'_append_1 (s := lo) (m := mid - lo) (n := hi - mid)
    rw [show lo + (mid - lo) = mid by omega,
      show mid - lo + (hi - mid) = hi - lo by omega] at this
    exact this.symm
  rw [firstFrom, hl, find?_append]
  rfl

theorem firstFrom_congr {t t' : ℕ → Bool}
    (h : ∀ k, lo ≤ k → k < hi → t k = t' k) : firstFrom t lo hi = firstFrom t' lo hi := by
  rcases hf : firstFrom t' lo hi with _ | j
  · rw [firstFrom_eq_none] at hf ⊢
    intro k h1 h2
    rw [h k h1 h2, hf k h1 h2]
  rw [firstFrom_eq_some] at hf ⊢
  obtain ⟨h1, h2, ht, hk⟩ := hf
  exact ⟨h1, h2, by rw [h j h1 h2, ht], fun k h3 h4 => by rw [h k h3 (by omega), hk k h3 h4]⟩

theorem findIdx?_eq_firstFrom (f : UInt8 → Bool) (p : List UInt8) :
    p.findIdx? f = firstFrom (fun i => p[i]?.any f) 0 p.length := by
  rcases h : p.findIdx? f with _ | j
  · symm
    rw [firstFrom_eq_none]
    rw [findIdx?_eq_none_iff] at h
    intro k _ hk
    simp [getElem?_eq_getElem hk, h p[k] (getElem_mem hk)]
  symm
  rw [firstFrom_eq_some]
  obtain ⟨hj, hf, hlt⟩ := findIdx?_eq_some_iff_getElem.mp h
  refine ⟨Nat.zero_le _, hj, by simp [getElem?_eq_getElem hj, hf], ?_⟩
  intro k _ hk
  have := hlt k hk
  simp only [getElem?_eq_getElem (show k < p.length by omega), Option.any_some]
  simpa using this

def blockScan (width n : ℕ) (block tail : ℕ → Option ℕ) : ℕ → ℕ → Option ℕ
  | 0, i => tail i
  | fuel + 1, i =>
    if i + width ≤ n then
      match block i with
      | some j => some j
      | none => blockScan width n block tail fuel (i + width)
    else tail i

theorem blockScan_eq {width n : ℕ} {block tail : ℕ → Option ℕ} (hw : 0 < width)
    (hb : ∀ i, i + width ≤ n → block i = firstFrom test i (i + width))
    (ht : ∀ i, i ≤ n → n < i + width → tail i = firstFrom test i n)
    (fuel i : ℕ) (hi : i ≤ n) (hf : n - i ≤ fuel) :
    blockScan width n block tail fuel i = firstFrom test i n := by
  induction fuel generalizing i with
  | zero =>
    exact ht i hi (by omega)
  | succ fuel ih =>
    rw [blockScan]
    split_ifs with hle
    · rw [firstFrom_split (show i ≤ i + width by omega) hle, ← hb i hle,
        ih (i + width) hle (by omega)]
      cases block i <;> rfl
    · exact ht i hi (by omega)

/-- Visiting the set bits of a candidate mask in ascending order finds the first position
that passes, provided every such position of the block has a candidate bit. -/
theorem forBits_firstFrom {w : ℕ} (m : BitVec w) (pos : ℕ → ℕ) (test : ℕ → Bool)
    (f : ℕ → Option ℕ) (lo hi : ℕ) (hmono : Monotone pos)
    (hin : ∀ k, k < w → lo ≤ pos k ∧ pos k < hi)
    (hf : ∀ k ∈ setBits m, f k = if test (pos k) then some (pos k) else none)
    (hc : ∀ j, lo ≤ j → j < hi → test j = true → ∃ k, k < w ∧ m.getLsbD k = true ∧ pos k = j) :
    forBits f w m = firstFrom test lo hi := by
  rw [forBits_eq f w m (setBits_length_le m)]
  rcases hs : firstFrom test lo hi with _ | j
  · rw [firstFrom_eq_none] at hs
    rw [findSome?_eq_none_iff]
    intro k hk
    have hb := hin k (mem_setBits.mp hk).1
    rw [hf k hk, hs (pos k) hb.1 hb.2]
    rfl
  rw [firstFrom_eq_some] at hs
  obtain ⟨h1, h2, ht, hlow⟩ := hs
  obtain ⟨k, hkw, hbit, hpos⟩ := hc j h1 h2 ht
  have hk : k ∈ setBits m := mem_setBits.mpr ⟨hkw, hbit⟩
  have hfk : f k = some j := by rw [hf k hk, hpos, ht]; rfl
  obtain ⟨j', hj'⟩ : ∃ j', (setBits m).findSome? f = some j' := by
    rw [← Option.isSome_iff_exists, findSome?_isSome_iff]
    exact ⟨k, hk, by simp [hfk]⟩
  obtain ⟨_, a, _, hl, hfa, hnone⟩ := findSome?_eq_some_iff.mp hj'
  have ha : a ∈ setBits m := by simp [hl]
  have hta : test (pos a) = true ∧ pos a = j' := by
    rw [hf a ha] at hfa
    split_ifs at hfa with hta
    · exact ⟨hta, by simpa using hfa⟩
  have hge : j ≤ pos a := by
    by_contra hlt
    have := hlow (pos a) (hin a (mem_setBits.mp ha).1).1 (by omega)
    rw [hta.1] at this
    cases this
  have hak : a ≤ k := by
    have hsort := setBits_sorted m
    rw [hl] at hk hsort
    rcases mem_append.mp hk with hk1 | hk2
    · rw [hnone k hk1] at hfk
      exact absurd hfk (by simp)
    rcases mem_cons.mp hk2 with rfl | hk3
    · exact le_refl _
    have hp := (pairwise_append.mp hsort).2.1
    exact le_of_lt ((pairwise_cons.mp hp).1 k hk3)
  have hle := hmono hak
  rw [hj', ← hta.2]
  congr 1
  omega

def lowestFrom {w : ℕ} (i : ℕ) (m : BitVec w) : Option ℕ :=
  if m = 0 then none else some (i + trailingZeros m)

theorem lowestFrom_eq {w : ℕ} (hw : 0 < w) (i : ℕ) (m : BitVec w) :
    lowestFrom i m = forBits (fun k => some (i + k)) w m := by
  obtain ⟨w', rfl⟩ : ∃ w', w = w' + 1 := ⟨w - 1, by omega⟩
  rw [lowestFrom, forBits]

def moveMask (lane : UInt8 → Bool) (p : List UInt8) : BitVec 32 :=
  (BitVec.ofBoolListLE ((p.take 32).map lane)).setWidth 32

variable (lane : UInt8 → Bool) (p : List UInt8)

theorem getLsbD_moveMask (k : ℕ) : (moveMask lane p).getLsbD k = (decide (k < 32) && p[k]?.any lane) := by
  rw [moveMask, BitVec.getLsbD_setWidth, BitVec.getLsbD_ofBoolListLE, getD_eq_getElem?_getD,
    getElem?_map, getElem?_take]
  by_cases hk : k < 32
  · cases p[k]? <;> simp [hk]
  · simp [hk]

/-- 32-byte blocks with the last partial block read again from the end of the buffer and
its already visited lanes shifted out; for buffers of at least 32 bytes. -/
def vectorScan (lane : UInt8 → Bool) (p : List UInt8) : Option ℕ := blockScan 32 p.length
    (fun i => lowestFrom i (moveMask lane (p.drop i)))
    (fun i =>
      if i ≥ p.length then none
      else lowestFrom i (moveMask lane (p.drop (p.length - 32)) >>> (i - (p.length - 32))))
    p.length 0

theorem lowestFrom_moveMask (i s n : ℕ) (hs : s ≤ i) (hn : n + s = 32) :
    lowestFrom i (moveMask lane (p.drop (i - s)) >>> s) = firstFrom (fun j => p[j]?.any lane) i (i + n) := by
  rw [lowestFrom_eq (by omega)]
  have hbit : ∀ k, (moveMask lane (p.drop (i - s)) >>> s).getLsbD k = (decide (k < n) && p[i + k]?.any lane) := by
    intro k
    rw [BitVec.getLsbD_ushiftRight, getLsbD_moveMask, getElem?_drop]
    have e1 : i - s + (s + k) = i + k := by omega
    have e2 : (s + k < 32) = (k < n) := by simp only [eq_iff_iff]; omega
    simp only [e1, e2]
  rw [forBits_eq _ _ _ (setBits_length_le _)]
  have := forBits_firstFrom (moveMask lane (p.drop (i - s)) >>> s) (fun k => i + k)
    (fun j => decide (j < i + n) && p[j]?.any lane) (fun k => some (i + k)) i (i + 32)
    (fun a b h => by dsimp only; omega) (fun k hk => by omega)
    (fun k hk => by
      have hb := (mem_setBits.mp hk).2
      rw [hbit] at hb
      have : k < n := by
        by_contra hlt
        simp [hlt] at hb
      simp [this] at hb ⊢
      exact hb)
    (fun j h1 h2 ht => by
      simp only [Bool.and_eq_true, decide_eq_true_eq] at ht
      refine ⟨j - i, by omega, ?_, by omega⟩
      rw [hbit, show i + (j - i) = j by omega, ht.2]
      simp
      omega)
  rw [← forBits_eq _ 32 _ (setBits_length_le _), this,
    firstFrom_split (show i ≤ i + n by omega) (show i + n ≤ i + 32 by omega)]
  have hnone : firstFrom (fun j => decide (j < i + n) && p[j]?.any lane) (i + n) (i + 32) = none := by
    rw [firstFrom_eq_none]
    intro k h1 _
    have : ¬ k < i + n := by omega
    simp [this]
  rw [hnone, Option.or_none]
  exact firstFrom_congr fun k _ h2 => by simp [h2]

theorem vectorScan_eq (hp : 32 ≤ p.length) : vectorScan lane p = p.findIdx? lane := by
  rw [findIdx?_eq_firstFrom]
  apply blockScan_eq (by omega) _ _ _ _ (Nat.zero_le _) (by omega)
  · intro i hi
    simpa using lowestFrom_moveMask lane p i 0 32 (by omega) rfl
  intro i hi _
  split_ifs with he
  · symm
    rw [firstFrom_eq_none]
    intro k _ _
    omega
  have := lowestFrom_moveMask lane p i (i - (p.length - 32)) (p.length - i) (by omega) (by omega)
  rw [show i - (i - (p.length - 32)) = p.length - 32 by omega,
    show i + (p.length - i) = p.length by omega] at this
  exact this

/-- Eight-byte words with a candidate mask, then every position of the tail. -/
def wordScan (mask : BitVec 64 → BitVec 64) (test : ℕ → Bool) (p : List UInt8) : Option ℕ := blockScan 8 p.length
    (fun i => forBits (fun k => if test (i + k / 8) then some (i + k / 8) else none) 64 (mask (leWord (p.drop i))))
    (fun i => firstFrom test i p.length) p.length 0

theorem wordScan_eq {mask : BitVec 64 → BitVec 64} {p : List UInt8} {cand : UInt8 → Bool}
    (hm : ∀ w k c, k < 8 → byteAt w k = UInt8.toNat c → cand c = true → (mask w).getLsbD (8 * k + 7) = true)
    (ht : ∀ j, test j = true → p[j]?.any cand = true) :
    wordScan mask test p = firstFrom test 0 p.length := by
  apply blockScan_eq (by omega) _ (fun i _ _ => rfl) _ _ (Nat.zero_le _) (by omega)
  intro i _
  apply forBits_firstFrom _ (fun k => i + k / 8)
  · intro a b _
    dsimp only
    omega
  · intro k _
    omega
  · intro k _
    rfl
  intro j _ _ hj
  have hc := ht j hj
  have hjl : j < p.length := by omega
  rw [getElem?_eq_getElem hjl, Option.any_some] at hc
  refine ⟨8 * (j - i) + 7, by omega, ?_, by omega⟩
  apply hm _ (j - i) p[j] (by omega) _ hc
  apply byteAt_leWord _ (by simp; omega) _ (by omega)
  rw [getElem?_drop, show i + (j - i) = j by omega, getElem?_eq_getElem hjl]

/-- 32-byte blocks with a candidate lane, then every position of the tail. -/
def laneScan (lane : UInt8 → Bool) (test : ℕ → Bool) (p : List UInt8) : Option ℕ := blockScan 32 p.length
    (fun i => forBits (fun k => if test (i + k) then some (i + k) else none) 32 (moveMask lane (p.drop i)))
    (fun i => firstFrom test i p.length) p.length 0

theorem laneScan_eq {lane : UInt8 → Bool} {p : List UInt8} (ht : ∀ j, test j = true → p[j]?.any lane = true) :
    laneScan lane test p = firstFrom test 0 p.length := by
  apply blockScan_eq (by omega) _ (fun i _ _ => rfl) _ _ (Nat.zero_le _) (by omega)
  intro i _
  apply forBits_firstFrom _ (fun k => i + k)
  · intro a b _
    dsimp only
    omega
  · intro k _
    omega
  · intro k _
    rfl
  intro j _ _ hj
  refine ⟨j - i, by omega, ?_, by omega⟩
  rw [getLsbD_moveMask, getElem?_drop, show i + (j - i) = j by omega, ht j hj]
  simp
  omega

end AlosHttp.Data

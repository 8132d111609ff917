import Mathlib.Tactic

/-! Byte-parallel scanning of machine words: little-endian loads, the lowest-set-bit loop, and the
subtraction mask of the bytes below a bound, which may mark further bytes above a borrow. -/
namespace AlosHttp.Data
open List

def leNat : List UInt8 → ℕ
  | [] => 0
  | b :: bs => b.toNat + 256 * leNat bs

def leWord (bs : List UInt8) : BitVec 64 := BitVec.ofNat 64 (leNat (bs.take 8))

variable (bs : List UInt8)

theorem leNat_lt : leNat bs < 256 ^ bs.length := by
  induction bs with
  | nil => simp [leNat]
  | cons b bs ih =>
    have hb := b.toNat_lt
    simp only [leNat, length_cons, pow_succ]
    omega

theorem leNat_byte (k : ℕ) (hk : k < bs.length) : leNat bs / 256 ^ k % 256 = bs[k].toNat := by
  induction bs generalizing k with
  | nil => simp at hk
  | cons b bs ih =>
    have hb := b.toNat_lt
    rcases k with _ | k
    · simp only [leNat, pow_zero, Nat.div_one, getElem_cons_zero]
      omega
    have hdiv : (b.toNat + 256 * leNat bs) / 256 = leNat bs := by omega
    rw [leNat, pow_succ', ← Nat.div_div_eq_div_mul, hdiv, getElem_cons_succ]
    exact ih k (by simpa using hk)

def byteAt (w : BitVec 64) (k : ℕ) : ℕ := w.toNat / 256 ^ k % 256

theorem byteAt_leWord (hl : 8 ≤ bs.length) (k : ℕ) (hk : k < 8) {b : UInt8}
    (hb : bs[k]? = some b) : byteAt (leWord bs) k = b.toNat := by
  have h8 : (bs.take 8).length = 8 := by simp [hl]
  have hlt : leNat (bs.take 8) < 2 ^ 64 := by
    have := leNat_lt (bs.take 8)
    rw [h8] at this
    simpa using this
  have hword : (leWord bs).toNat = leNat (bs.take 8) := by
    rw [leWord, BitVec.toNat_ofNat, Nat.mod_eq_of_lt hlt]
  have hk8 : k < (bs.take 8).length := by omega
  obtain ⟨_, hbk⟩ := List.getElem?_eq_some_iff.mp hb
  rw [byteAt, hword, leNat_byte _ k hk8, getElem_take, hbk]

theorem byteAt_xor (v w : BitVec 64) (k : ℕ) : byteAt (v ^^^ w) k = byteAt v k ^^^ byteAt w k := by
  have h : ∀ x : ℕ, x / 256 ^ k % 256 = (x >>> (8 * k)) % 2 ^ 8 := by
    intro x
    rw [Nat.shiftRight_eq_div_pow, pow_mul]
    norm_num
  simp only [byteAt, h, BitVec.toNat_xor, Nat.shiftRight_xor_distrib, Nat.xor_mod_two_pow]

theorem byteAt_eq_zero_iff (w : BitVec 64) (k : ℕ) : byteAt w k = 0 ↔ ∀ r < 8, w.getLsbD (8 * k + r) = false := by
  have hbit (r : ℕ) : (byteAt w k).testBit r = (decide (r < 8) && w.getLsbD (8 * k + r)) := by
    have hpow : (256 : ℕ) ^ k = 2 ^ (8 * k) := by rw [pow_mul]; norm_num
    rw [byteAt, hpow, show (256 : ℕ) = 2 ^ 8 by norm_num, Nat.testBit_mod_two_pow, Nat.testBit_div_two_pow,
      BitVec.getLsbD, add_comm r]
  constructor
  · intro h r hr
    have hr' := hbit r
    rw [h, Nat.zero_testBit, decide_eq_true hr, Bool.true_and] at hr'
    exact hr'.symm
  intro h
  apply Nat.eq_of_testBit_eq
  intro r
  rw [hbit, Nat.zero_testBit]
  by_cases hr : r < 8
  · rw [h r hr, Bool.and_false]
  · rw [decide_eq_false hr, Bool.false_and]

theorem byteAt_eq_iff (v w : BitVec 64) (k : ℕ) :
    byteAt v k = byteAt w k ↔ ∀ r < 8, (v ^^^ w).getLsbD (8 * k + r) = false := by
  rw [← byteAt_eq_zero_iff, byteAt_xor]
  constructor
  · intro h
    rw [h, Nat.xor_self]
  intro h
  calc byteAt v k = byteAt v k ^^^ (byteAt w k ^^^ byteAt w k) := by rw [Nat.xor_self, Nat.xor_zero]
    _ = byteAt w k := by rw [← Nat.xor_assoc, h, Nat.zero_xor]

def splat (n : ℕ) : BitVec 64 := BitVec.ofNat 64 (n * 0x0101010101010101)

theorem byteAt_splat (n : ℕ) (hn : n < 256) (k : ℕ) (hk : k < 8) : byteAt (splat n) k = n := by
  have hn8 : (UInt8.ofNat n).toNat = n := by simp; omega
  have hs : (splat n).toNat = leNat (replicate 8 (UInt8.ofNat n)) := by
    rw [splat, BitVec.toNat_ofNat, Nat.mod_eq_of_lt (by omega)]
    simp only [leNat, replicate, hn8]
    omega
  rw [byteAt, hs, leNat_byte _ k (by simpa using hk), getElem_replicate, hn8]

def belowMask (n : ℕ) (w : BitVec 64) : BitVec 64 := (w - splat n) &&& ~~~w &&& 0x8080808080808080#64

theorem quotient_parity {d q s r : ℕ} (hr : r < 2) (h1 : (2 * q + r) * s ≤ d)
    (h2 : d < (2 * q + r + 1) * s) : d / s % 2 = r := by
  have hd : d / s = 2 * q + r := Nat.div_eq_of_lt_le h1 h2
  omega

/-- The top bit of a byte after the subtraction: set for a byte below the bound, whatever is
borrowed from under it, and clear for one from the bound to 127 from which nothing is borrowed. -/
theorem sub_splat_bit (k : ℕ) (hk : k < 8) (x n r : ℕ) (hn : n ≤ 127)
    (h : r = 1 ∧ x / 256 ^ k % 256 < n ∨ r = 0 ∧ n ≤ x / 256 ^ k % 256 ∧ x / 256 ^ k % 256 < 128 ∧
      n * (0x0101010101010101 % 256 ^ k) ≤ x % 256 ^ k) :
    ((2 ^ 64 - n * 0x0101010101010101 + x) % 2 ^ 64) / 2 ^ (8 * k + 7) % 2 = r := by
  have hd : x = x % 256 ^ k + 256 ^ k * (x / 256 ^ k % 256) + 256 ^ (k + 1) * (x / 256 ^ (k + 1)) := by
    rw [pow_succ, ← Nat.div_div_eq_div_mul, mul_assoc]
    conv_lhs => rw [← Nat.mod_add_div x (256 ^ k), ← Nat.mod_add_div (x / 256 ^ k) 256]
    ring
  have hL : x % 256 ^ k < 256 ^ k := Nat.mod_lt _ (by positivity)
  generalize x % 256 ^ k = L at hd hL h
  generalize x / 256 ^ k % 256 = b at hd h
  generalize x / 256 ^ (k + 1) = H at hd
  have hm : ((2 ^ 64 - n * 0x0101010101010101 + x) % 2 ^ 64) / 2 ^ (8 * k + 7) % 2 =
      (2 ^ 64 - n * 0x0101010101010101 + x) / 2 ^ (8 * k + 7) % 2 := by
    interval_cases k <;> norm_num <;> omega
  rw [hm]
  apply quotient_parity (q := H + 256 ^ (7 - k) - r - n * (0x0101010101010101 / 256 ^ (k + 1))) (by omega)
  all_goals interval_cases k <;> norm_num at hd hL h ⊢ <;> subst hd <;> omega

theorem top_bit (w : BitVec 64) (k : ℕ) : w.getLsbD (8 * k + 7) = decide (128 ≤ byteAt w k) := by
  have hp : 2 ^ (8 * k + 7) = 256 ^ k * 128 := by
    rw [pow_add, pow_mul]
    norm_num
  rw [BitVec.getLsbD, Nat.testBit_eq_decide_div_mod_eq, hp, ← Nat.div_div_eq_div_mul, byteAt]
  congr 1
  apply propext
  omega

theorem belowMask_top {n : ℕ} (hn : n ≤ 127) (w : BitVec 64) (k : ℕ) (hk : k < 8) (r : ℕ)
    (h : r = 1 ∧ byteAt w k < n ∨ r = 0 ∧ n ≤ byteAt w k ∧ byteAt w k < 128 ∧
      n * (0x0101010101010101 % 256 ^ k) ≤ w.toNat % 256 ^ k) :
    (belowMask n w).getLsbD (8 * k + 7) = decide (r = 1) := by
  have hs : (splat n).toNat = n * 0x0101010101010101 := by
    unfold splat
    rw [BitVec.toNat_ofNat, Nat.mod_eq_of_lt (by omega)]
  have hsub : (w - splat n).getLsbD (8 * k + 7) = decide (r = 1) := by
    have hb := sub_splat_bit k hk w.toNat n r hn h
    rw [BitVec.getLsbD, BitVec.toNat_sub, hs, Nat.testBit_eq_decide_div_mod_eq, hb]
  have hw : w.getLsbD (8 * k + 7) = false := by
    rw [top_bit, decide_eq_false_iff_not]
    omega
  have hh : (0x8080808080808080#64).getLsbD (8 * k + 7) = true := by
    interval_cases k <;> decide
  rw [belowMask, BitVec.getLsbD_and, BitVec.getLsbD_and, BitVec.getLsbD_not, hsub, hw, hh]
  simp
  omega

theorem belowMask_bit (n : ℕ) (hn : n ≤ 127) (w : BitVec 64) (k : ℕ) (hk : k < 8)
    (h : byteAt w k < n) : (belowMask n w).getLsbD (8 * k + 7) = true :=
  belowMask_top hn w k hk 1 (.inl ⟨rfl, h⟩)

theorem splat_mod_le (x n : ℕ) {k : ℕ} (hk : k ≤ 8) (h : ∀ i < k, n ≤ x / 256 ^ i % 256) :
    n * (0x0101010101010101 % 256 ^ k) ≤ x % 256 ^ k := by
  induction k with
  | zero => simp
  | succ k ih =>
    have hk8 : k < 8 := hk
    have hone : 0x0101010101010101 / 256 ^ k % 256 = 1 := by interval_cases k <;> rfl
    rw [Nat.mod_pow_succ, Nat.mod_pow_succ, hone, mul_one, mul_add, mul_comm n (256 ^ k)]
    exact add_le_add (ih (by omega) fun i hi => h i (by omega)) (Nat.mul_le_mul_left _ (h k (by omega)))

theorem belowMask_ne_zero_iff {n : ℕ} (hn : n ≤ 127) (w : BitVec 64) : belowMask n w ≠ 0 ↔ ∃ k < 8, byteAt w k < n := by
  constructor
  · intro h
    by_contra hall
    push Not at hall
    apply h
    apply BitVec.eq_of_getLsbD_eq
    intro i hi
    have hhigh : ∀ i < 64, i % 8 ≠ 7 → (0x8080808080808080#64).getLsbD i = false := by decide
    by_cases htop : i % 8 = 7
    · obtain ⟨k, rfl⟩ : ∃ k, i = 8 * k + 7 := ⟨i / 8, by omega⟩
      by_cases hlow : byteAt w k < 128
      · rw [belowMask_top hn w k (by omega) 0 (.inr ⟨rfl, hall k (by omega), hlow,
          splat_mod_le _ _ (by omega) fun i hi => hall i (by omega)⟩)]
        simp
      have hw : w.getLsbD (8 * k + 7) = true := by
        rw [top_bit]
        simpa using hlow
      simp [belowMask, hw]
    · simp [belowMask, hhigh i hi htop]
  rintro ⟨k, hk, hb⟩ hzero
  have hbit := belowMask_bit n hn w k hk hb
  simp [hzero] at hbit

/-- Number of zero bits under the lowest set bit; the width for zero. -/
def trailingZeros {w : ℕ} (m : BitVec w) : ℕ := ((range w).find? m.getLsbD).getD w

def setBits {w : ℕ} (m : BitVec w) : List ℕ := (range w).filter m.getLsbD

/-- The loop `for ; m != 0; m &= m - 1` with its body at the lowest set bit; the body
ends the loop by returning a value. -/
def forBits {w : ℕ} {α : Type} (f : ℕ → Option α) : ℕ → BitVec w → Option α
  | 0, _ => none
  | fuel + 1, m =>
    if m = 0 then none
    else match f (trailingZeros m) with
      | some a => some a
      | none => forBits f fuel (m &&& (m - 1))

theorem find_eq_some_filter {l : List ℕ} {p : ℕ → Bool} {t : ℕ} (hn : l.Nodup)
    (h : l.find? p = some t) : l.filter p = t :: l.filter (fun k => p k && decide (k ≠ t)) := by
  induction l with
  | nil => simp at h
  | cons a l ih =>
    obtain ⟨ha, hl⟩ := nodup_cons.mp hn
    by_cases hp : p a = true
    · have hat : a = t := by simpa [find?_cons, hp] using h
      subst hat
      rw [filter_cons_of_pos hp, filter_cons_of_neg (by simp)]
      congr 1
      apply filter_congr
      intro k hk
      have hka : k ≠ a := fun e => ha (e ▸ hk)
      simp [hka]
    have hf : l.find? p = some t := by simpa [find?_cons, hp] using h
    rw [filter_cons_of_neg hp, filter_cons_of_neg (by simp [hp]), ih hl hf]

theorem testBit_and_pred (M t k : ℕ) (hlow : ∀ j < t, M.testBit j = false) (ht : M.testBit t = true) :
    (M &&& (M - 1)).testBit k = (M.testBit k && decide (k ≠ t)) := by
  have hmod : M % 2 ^ t = 0 := by
    apply Nat.eq_of_testBit_eq
    intro i
    rw [Nat.testBit_mod_two_pow, Nat.zero_testBit]
    by_cases hi : i < t
    · simp [hlow i hi]
    · simp [hi]
  have hodd : M / 2 ^ t % 2 = 1 := by
    simpa [Nat.testBit_eq_decide_div_mod_eq] using ht
  obtain ⟨q, hq⟩ : ∃ q, M / 2 ^ t = 2 * q + 1 := ⟨M / 2 ^ t / 2, by omega⟩
  have hM : M = 2 ^ t * (2 * q + 1) := by
    have := Nat.mod_add_div M (2 ^ t)
    rw [hmod, hq] at this
    omega
  have hpos : 0 < 2 ^ t := by positivity
  have hpred : (M - 1) / 2 ^ t = 2 * q := by
    have hexp : M - 1 = 2 ^ t * (2 * q) + (2 ^ t - 1) := by
      rw [hM, mul_add, mul_one]
      omega
    rw [hexp, Nat.mul_add_div hpos, Nat.div_eq_of_lt (by omega), add_zero]
  rw [Nat.testBit_and]
  by_cases hk : k < t
  · simp [hlow k hk]
  obtain ⟨j, rfl⟩ : ∃ j, k = t + j := ⟨k - t, by omega⟩
  have h1 : M.testBit (t + j) = (2 * q + 1).testBit j := by
    rw [← hq, Nat.testBit_div_two_pow, add_comm]
  have h2 : (M - 1).testBit (t + j) = (2 * q).testBit j := by
    rw [← hpred, Nat.testBit_div_two_pow, add_comm]
  rw [h1, h2]
  rcases j with _ | j
  · simp
  rw [Nat.testBit_succ, Nat.testBit_succ]
  have e1 : (2 * q + 1) / 2 = q := by omega
  have e2 : 2 * q / 2 = q := by omega
  rw [e1, e2]
  simp

theorem setBits_cons {w : ℕ} (m : BitVec w) (hm : m ≠ 0) : setBits m = trailingZeros m :: setBits (m &&& (m - 1)) := by
  have hex : ∃ t, (range w).find? m.getLsbD = some t := by
    by_contra hne
    push Not at hne
    have hnone := Option.eq_none_iff_forall_ne_some.mpr hne
    apply hm
    apply BitVec.eq_of_getLsbD_eq
    intro i hi
    have := find?_eq_none.mp hnone i (mem_range.mpr hi)
    simpa using this
  obtain ⟨t, ht⟩ := hex
  obtain ⟨hp, hr, hlow⟩ := find?_range_eq_some.mp ht
  have htw : t < w := mem_range.mp hr
  have htz : trailingZeros m = t := by simp [trailingZeros, ht]
  have hm1 : (m - 1).toNat = m.toNat - 1 := by
    have h0 : m.toNat ≠ 0 := fun h => hm (BitVec.eq_of_toNat_eq (by simpa using h))
    have hw : 1 < 2 ^ w ∨ w = 0 := by
      rcases Nat.eq_zero_or_pos w with h | h
      · exact Or.inr h
      · exact Or.inl (Nat.one_lt_two_pow (by omega))
    rcases hw with hw | hw
    · rw [BitVec.toNat_sub, show (1 : BitVec w).toNat = 1 by simp [Nat.mod_eq_of_lt hw],
        show 2 ^ w - 1 + m.toNat = 2 ^ w + (m.toNat - 1) by omega, Nat.add_mod_left,
        Nat.mod_eq_of_lt (by omega)]
    · omega
  have hbit : ∀ k, (m &&& (m - 1)).getLsbD k = (m.getLsbD k && decide (k ≠ t)) := by
    intro k
    have hb := testBit_and_pred m.toNat t k 
      (fun j hj => Bool.eq_false_iff.mpr (by simpa [BitVec.getLsbD] using hlow j hj)) hp
    rw [BitVec.getLsbD, BitVec.toNat_and, hm1]
    exact hb
  have hfun := funext hbit
  rw [htz, setBits, setBits, hfun]
  exact find_eq_some_filter nodup_range ht

theorem forBits_eq {w : ℕ} {α : Type} (f : ℕ → Option α) (fuel : ℕ) (m : BitVec w)
    (hf : (setBits m).length ≤ fuel) : forBits f fuel m = (setBits m).findSome? f := by
  have hnil : ∀ m : BitVec w, m = 0 → setBits m = [] := by
    rintro m rfl
    simp [setBits]
  induction fuel generalizing m with
  | zero =>
    have : setBits m = [] := length_eq_zero_iff.mp (by omega)
    simp [forBits, this]
  | succ fuel ih =>
    by_cases hm : m = 0
    · simp [forBits, hm, hnil]
    have hs := setBits_cons m hm
    rw [hs] at hf ⊢
    rw [forBits, if_neg hm, findSome?_cons, ih _ (by simpa using hf)]
    cases f (trailingZeros m) <;> rfl

theorem setBits_length_le {w : ℕ} (m : BitVec w) : (setBits m).length ≤ w := by
  have := length_filter_le m.getLsbD (range w)
  simpa [setBits] using this

theorem mem_setBits {w : ℕ} {m : BitVec w} {k : ℕ} : k ∈ setBits m ↔ k < w ∧ m.getLsbD k = true := by
  simp [setBits]

theorem setBits_sorted {w : ℕ} (m : BitVec w) : (setBits m).Pairwise (· < ·) := pairwise_lt_range.filter _

end AlosHttp.Data

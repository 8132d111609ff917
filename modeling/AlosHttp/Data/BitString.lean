import Mathlib.Tactic

/-! Bit strings, most significant bit first. -/
namespace AlosHttp.Data.BitString
open List

def ofNat : ℕ → ℕ → List Bool
  | 0, _ => []
  | n + 1, v => v.testBit n :: ofNat n v

def ofBytes (s : List UInt8) : List Bool := s.flatMap fun b => ofNat 8 b.toNat

@[simp] theorem ofNat_length (n v : ℕ) : (ofNat n v).length = n := by
  induction n with
  | zero => rfl
  | succ n ih => rw [ofNat, length_cons, ih]

@[simp] theorem ofBytes_nil : ofBytes [] = [] := rfl

theorem ofBytes_cons (b : UInt8) (s : List UInt8) : ofBytes (b :: s) = ofNat 8 b.toNat ++ ofBytes s := rfl

theorem ofBytes_append (s t : List UInt8) : ofBytes (s ++ t) = ofBytes s ++ ofBytes t := by
  simp [ofBytes]

theorem ofBytes_length (s : List UInt8) : (ofBytes s).length = 8 * s.length := by
  induction s with
  | nil => rfl
  | cons b s ih => rw [ofBytes_cons, length_append, ofNat_length, ih, length_cons]; ring

theorem ofNat_congr {n v w : ℕ} (h : ∀ i < n, v.testBit i = w.testBit i) : ofNat n v = ofNat n w := by
  induction n with
  | zero => rfl
  | succ n ih =>
    rw [ofNat, ofNat, h n (by omega), ih fun i hi => h i (by omega)]

theorem ofNat_mod (n v : ℕ) : ofNat n (v % 2 ^ n) = ofNat n v := by
  apply ofNat_congr
  intro i hi
  simp [Nat.testBit_mod_two_pow, hi]

theorem ofNat_add (m n v : ℕ) : ofNat (m + n) v = ofNat m (v / 2 ^ n) ++ ofNat n v := by
  induction m with
  | zero => simp [ofNat]
  | succ m ih =>
    rw [add_right_comm, ofNat, ofNat, ih, cons_append, Nat.testBit_div_two_pow]

theorem ofNat_push {m n v w : ℕ} (hw : w < 2 ^ n) : ofNat (m + n) (v * 2 ^ n + w) = ofNat m v ++ ofNat n w := by
  have hdiv : (v * 2 ^ n + w) / 2 ^ n = v := by
    rw [mul_comm, Nat.mul_add_div (Nat.two_pow_pos n), Nat.div_eq_of_lt hw, add_zero]
  have hmod : (v * 2 ^ n + w) % 2 ^ n = w := by
    rw [mul_comm, Nat.mul_add_mod, Nat.mod_eq_of_lt hw]
  rw [ofNat_add, hdiv, ← ofNat_mod n (v * 2 ^ n + w), hmod]

theorem ofNat_inj {n v w : ℕ} (hv : v < 2 ^ n) (hw : w < 2 ^ n) (h : ofNat n v = ofNat n w) : v = w := by
  induction n generalizing v w with
  | zero =>
    rw [pow_zero, Nat.lt_one_iff] at hv hw
    rw [hv, hw]
  | succ n ih =>
    rw [ofNat, ofNat, List.cons.injEq] at h
    have hlow : v % 2 ^ n = w % 2 ^ n := by
      apply ih (Nat.mod_lt _ (Nat.two_pow_pos n)) (Nat.mod_lt _ (Nat.two_pow_pos n))
      rw [ofNat_mod, ofNat_mod]
      exact h.2
    apply Nat.eq_of_testBit_eq
    intro i
    rcases lt_trichotomy i n with hi | rfl | hi
    · have := congrArg (fun x => x.testBit i) hlow
      simpa [Nat.testBit_mod_two_pow, hi] using this
    · exact h.1
    have hpow : 2 ^ (n + 1) ≤ 2 ^ i := Nat.pow_le_pow_right (by omega) hi
    rw [Nat.testBit_lt_two_pow (by omega), Nat.testBit_lt_two_pow (by omega)]

theorem ofNat_ones (n : ℕ) : ofNat n (2 ^ n - 1) = replicate n true := by
  apply ext_getElem (by simp)
  intro i hi _
  rw [getElem_replicate]
  have key : ∀ (m v : ℕ), (∀ j < m, v.testBit j = true) → ∀ b ∈ ofNat m v, b = true := by
    intro m v hv
    induction m with
    | zero => simp [ofNat]
    | succ m ih =>
      exact forall_mem_cons.mpr ⟨hv m (by omega), ih fun j hj => hv j (by omega)⟩
  apply key n (2 ^ n - 1) (fun j hj => by simp [Nat.testBit_two_pow_sub_one, hj])
  exact getElem_mem hi

theorem eq_of_ofNat_ones {n v : ℕ} (hv : v < 2 ^ n) (h : ∀ b ∈ ofNat n v, b = true) : v = 2 ^ n - 1 := by
  apply ofNat_inj hv (by omega)
  rw [ofNat_ones]
  exact eq_replicate_iff.mpr ⟨ofNat_length n v, h⟩

theorem ofNat_isPrefix_iff {b c n v : ℕ} (hb : b ≤ n) (hc : c < 2 ^ b) (hv : v < 2 ^ n) :
    ofNat b c <+: ofNat n v ↔ v / 2 ^ (n - b) = c := by
  have hdiv : v / 2 ^ (n - b) < 2 ^ b := by
    rw [Nat.div_lt_iff_lt_mul (Nat.two_pow_pos _), ← pow_add, Nat.add_sub_cancel' hb]
    exact hv
  have hsplit : ofNat n v = ofNat b (v / 2 ^ (n - b)) ++ ofNat (n - b) v := by
    rw [← ofNat_add, Nat.add_sub_cancel' hb]
  rw [hsplit]
  constructor
  · rintro ⟨_, hrest⟩
    have := (append_inj hrest (by simp)).1
    exact (ofNat_inj hc hdiv this).symm
  rintro rfl
  exact prefix_append _ _

theorem ofBytes_inj {s t : List UInt8} (h : ofBytes s = ofBytes t) : s = t := by
  induction s generalizing t with
  | nil =>
    cases t with
    | nil => rfl
    | cons b t => simp [ofBytes_cons, ofNat] at h
  | cons a s ih =>
    rcases t with _ | ⟨b, t⟩
    · simp [ofBytes_cons, ofNat] at h
    obtain ⟨hhead, htail⟩ := append_inj h (by simp)
    have hab := ofNat_inj a.toNat_lt b.toNat_lt hhead
    rw [UInt8.toNat_inj.mp hab, ih htail]

end AlosHttp.Data.BitString

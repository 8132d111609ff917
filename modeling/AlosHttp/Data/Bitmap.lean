import AlosHttp.Data.BlockScan

/-! Bitmaps of 64-bit words: the positions they hold, the next position from a given one,
and a loop over all of them in ascending order. -/
namespace AlosHttp.Data
open List

abbrev Bitmap := ℕ → BitVec 64

namespace Bitmap

def set (m : Bitmap) (pos : ℕ) : Bitmap := fun i =>
  if i = pos / 64 then m i ||| (1#64 <<< (pos % 64)) else m i

def has (m : Bitmap) (p : ℕ) : Bool := (m (p / 64)).getLsbD (p % 64)

def positions (m : Bitmap) (chunks : ℕ) : List ℕ :=
  (range chunks).flatMap fun ci => (setBits (m ci)).map (64 * ci + ·)

@[simp] theorem has_zero (p : ℕ) : has (fun _ => 0#64) p = false := by
  simp [has]

variable (m : Bitmap)

theorem has_set (q p : ℕ) : (m.set q).has p = (m.has p || decide (p = q)) := by
  unfold has set
  split_ifs with h
  · rw [BitVec.getLsbD_or]
    congr 1
    have hq : q % 64 < 64 := Nat.mod_lt _ (by omega)
    by_cases hpq : p % 64 = q % 64
    · have : p = q := by omega
      simp [this, hq]
    have hne : p ≠ q := fun e => hpq (by rw [e])
    by_cases hlt : p % 64 < q % 64
    · simp [hlt, hne]
    simp [hne]
    intro _ _
    omega
  have hne : p ≠ q := fun e => h (by rw [e])
  simp [hne]

theorem mem_positions {m : Bitmap} {chunks p : ℕ} : p ∈ m.positions chunks ↔ p < 64 * chunks ∧ m.has p = true := by
  simp only [positions, mem_flatMap, mem_range, mem_map, mem_setBits, has]
  constructor
  · rintro ⟨ci, _, k, ⟨_, hb⟩, rfl⟩
    refine ⟨by omega, ?_⟩
    rw [show (64 * ci + k) / 64 = ci by omega, show (64 * ci + k) % 64 = k by omega]
    exact hb
  rintro ⟨_, hb⟩
  exact ⟨p / 64, by omega, p % 64, ⟨Nat.mod_lt _ (by omega), hb⟩, by omega⟩

theorem positions_succ (chunks : ℕ) :
    m.positions (chunks + 1) = m.positions chunks ++ (setBits (m chunks)).map (64 * chunks + ·) := by
  simp [positions, range_succ]

theorem positions_sorted (chunks : ℕ) : (m.positions chunks).Pairwise (· < ·) := by
  induction chunks with
  | zero => simp [positions]
  | succ n ih =>
    rw [positions_succ, pairwise_append]
    refine ⟨ih, ?_, ?_⟩
    · rw [pairwise_map]
      exact (setBits_sorted (m n)).imp fun h => by omega
    intro a ha b hb
    obtain ⟨k, _, rfl⟩ := mem_map.mp hb
    have := (mem_positions.mp ha).1
    omega

theorem positions_eq {m : Bitmap} {chunks : ℕ} {l : List ℕ} (hl : l.Pairwise (· < ·))
    (hmem : ∀ p, p ∈ l ↔ p < 64 * chunks ∧ m.has p = true) : m.positions chunks = l := by
  have hperm : (m.positions chunks).Perm l := by
    rw [perm_ext_iff_of_nodup ((positions_sorted m chunks).imp (fun h => by omega))
      (hl.imp (fun h => by omega))]
    intro p
    rw [mem_positions, hmem]
  exact hperm.eq_of_pairwise (fun a b _ _ h1 h2 => by omega) (positions_sorted m chunks) hl

end Bitmap

/-- The loop `for ; m != 0; m &= m - 1` with a state; `none` leaves it. -/
def forBitsM {w : ℕ} {α : Type} (f : α → ℕ → Option α) : ℕ → BitVec w → α → Option α
  | 0, _, s => some s
  | fuel + 1, m, s =>
    if m = 0 then some s
    else match f s (trailingZeros m) with
      | none => none
      | some s => forBitsM f fuel (m &&& (m - 1)) s

theorem forBitsM_eq {w : ℕ} {α : Type} (f : α → ℕ → Option α) (fuel : ℕ) (m : BitVec w) (s : α)
    (hf : (setBits m).length ≤ fuel) : forBitsM f fuel m s = (setBits m).foldlM f s := by
  have hnil : ∀ m : BitVec w, m = 0 → setBits m = [] := by
    rintro m rfl
    simp [setBits]
  induction fuel generalizing m s with
  | zero =>
    have : setBits m = [] := length_eq_zero_iff.mp (by omega)
    simp [forBitsM, this]
  | succ fuel ih =>
    by_cases hm : m = 0
    · simp [forBitsM, hm, hnil]
    have hs := setBits_cons m hm
    rw [hs] at hf ⊢
    rw [forBitsM, if_neg hm, foldlM_cons]
    cases f s (trailingZeros m) with
    | none => rfl
    | some s => exact ih _ s (by simpa using hf)

theorem trailingZeros_spec {w : ℕ} {m : BitVec w} (hm : m ≠ 0) :
    trailingZeros m < w ∧ m.getLsbD (trailingZeros m) = true ∧ ∀ k < trailingZeros m, m.getLsbD k = false := by
  have hs := setBits_cons m hm
  have hmem : trailingZeros m ∈ setBits m := by rw [hs]; exact mem_cons_self
  have hsort := setBits_sorted m
  rw [hs, pairwise_cons] at hsort
  obtain ⟨hw, hb⟩ := mem_setBits.mp hmem
  refine ⟨hw, hb, fun k hk => ?_⟩
  by_contra hne
  rw [Bool.not_eq_false] at hne
  have hk' : k ∈ setBits m := mem_setBits.mpr ⟨by omega, hne⟩
  rw [hs, mem_cons] at hk'
  rcases hk' with rfl | hk'
  · omega
  have := hsort.1 k hk'
  omega

theorem foldlM_positions {α : Type} (f : α → ℕ → Option α) (m : Bitmap) (chunks : ℕ) (s : α) :
    (range chunks).foldlM
      (fun s ci => forBitsM (fun s k => f s (64 * ci + k)) 64 (m ci) s) s = (m.positions chunks).foldlM f s := by
  induction chunks with
  | zero => rfl
  | succ n ih =>
    rw [range_succ, foldlM_append, ih, Bitmap.positions_succ, foldlM_append]
    congr 1
    funext s
    rw [foldlM_cons, forBitsM_eq _ _ _ _ (setBits_length_le _), foldlM_map]
    cases (setBits (m n)).foldlM (fun s k => f s (64 * n + k)) s <;> rfl

theorem length_le_of_gaps {l : List ℕ} {lo : ℕ} (hgap : l.Pairwise (fun a b => a + 4 ≤ b))
    (hb : ∀ x ∈ l, lo ≤ x ∧ x < 64) (hlo : lo ≤ 67) : lo + 4 * l.length ≤ 67 := by
  induction l generalizing lo with
  | nil => simpa using hlo
  | cons a l ih =>
    obtain ⟨ha, hl⟩ := pairwise_cons.mp hgap
    have hab := hb a mem_cons_self
    have := @ih (a + 4) hl (fun x hx => ⟨ha x hx, (hb x (mem_cons_of_mem _ hx)).2⟩) (by omega)
    rw [length_cons]
    omega

end AlosHttp.Data

import AlosHttp.Hpack.Request
import AlosHttp.H1.Response

/-! The scanners that test eight bytes at a time against the tests of their bytes. -/
namespace AlosHttp.H1
open AlosHttp.Core Data Hpack List

def wordHasLineBreak (nulMask w : BitVec 64) : Bool :=
  (belowMask 1 (w ^^^ splat 13) ||| belowMask 1 (w ^^^ splat 10) ||| belowMask 1 w &&& nulMask) != 0

/-- `lineBreakCRLF`, or `lineBreakCRLFNUL` where NUL counts too. -/
def lineBreakMask (nul : Bool) : BitVec 64 := if nul then 0x8080808080808080#64 else 0

def anyWordLoop (hit : BitVec 64 → Bool) (s : Bytes) (last : ℕ) : ℕ → ℕ → Bool
  | 0, _ => false
  | fuel + 1, i => decide (i < last) && (hit (leWord (s.drop i)) || anyWordLoop hit s last fuel (i + 8))

def containsLineBreakSWAR (s : Bytes) (nulMask : BitVec 64) : Bool :=
  if s.length > 32 then s.contains cr || s.contains lf || nulMask != 0 && s.contains 0
  else if s.length < 8 then s.any fun c => c ≤ cr && (c == cr || c == lf || c == 0 && nulMask != 0)
  else
    let last := s.length - 8
    anyWordLoop (wordHasLineBreak nulMask) s last s.length 0 || wordHasLineBreak nulMask (leWord (s.drop last))

theorem exists_byteAt {p : Bytes} (hp : 8 ≤ p.length) (P : ℕ → Prop) :
    (∃ k < 8, P (byteAt (leWord p) k)) ↔ ∃ c ∈ p.take 8, P c.toNat := by
  constructor
  · rintro ⟨k, hk, h⟩
    rw [byteAt_leWord p hp k hk (getElem?_eq_getElem (by omega))] at h
    exact ⟨_, mem_take_iff_getElem.mpr ⟨k, by omega, rfl⟩, h⟩
  rintro ⟨c, hc, h⟩
  obtain ⟨k, hk, rfl⟩ := mem_take_iff_getElem.mp hc
  rw [← byteAt_leWord p hp k (by omega) (getElem?_eq_getElem (by omega))] at h
  exact ⟨k, by omega, h⟩

theorem belowMask_xor_leWord {p : Bytes} (hp : 8 ≤ p.length) (m : UInt8) :
    belowMask 1 (leWord p ^^^ splat m.toNat) ≠ 0 ↔ ∃ c ∈ p.take 8, c = m := by
  have hbyte : ∀ k < 8, byteAt (leWord p ^^^ splat m.toNat) k < 1 ↔ byteAt (leWord p) k = m.toNat := by
    intro k hk
    rw [Nat.lt_one_iff, byteAt_eq_zero_iff, ← byteAt_eq_iff, byteAt_splat _ m.toNat_lt k hk]
  rw [belowMask_ne_zero_iff (by decide), exists_congr fun k => and_congr_right (hbyte k),
    exists_byteAt hp (· = m.toNat)]
  simp only [UInt8.toNat_inj]

theorem anyWordLoop_eq {hit : BitVec 64 → Bool} {bad : UInt8 → Bool}
    (hhit : ∀ p : Bytes, 8 ≤ p.length → hit (leWord p) = (p.take 8).any bad) {s : Bytes}
    (hs : 8 ≤ s.length) (fuel i : ℕ) (hfuel : s.length ≤ fuel + i) (hclean : (s.take i).any bad = false) :
    (anyWordLoop hit s (s.length - 8) fuel i || hit (leWord (s.drop (s.length - 8)))) = s.any bad := by
  have hend (i : ℕ) (hi : s.length - 8 ≤ i) (hclean : (s.take i).any bad = false) :
      hit (leWord (s.drop (s.length - 8))) = s.any bad := by
    have hpre : (s.take (s.length - 8)).any bad = false := by
      rw [any_eq_false] at hclean ⊢
      exact fun c hc => hclean c ((take_prefix_take_left hi).subset hc)
    rw [hhit _ (by rw [length_drop]; omega), take_of_length_le (by rw [length_drop]; omega)]
    conv_rhs => rw [← take_append_drop (s.length - 8) s, any_append, hpre, Bool.false_or]
  induction fuel generalizing i with
  | zero => exact hend i (by omega) hclean
  | succ fuel ih =>
    rw [anyWordLoop]
    by_cases hi : i < s.length - 8
    · rw [decide_eq_true hi, Bool.true_and, hhit _ (by rw [length_drop]; omega)]
      cases hword : ((s.drop i).take 8).any bad with
      | false => exact ih (i + 8) (by omega) (by rw [take_add, any_append, hclean, hword]; rfl)
      | true =>
        obtain ⟨c, hc, hb⟩ := any_eq_true.mp hword
        exact (any_eq_true.mpr ⟨c, mem_of_mem_drop (mem_of_mem_take hc), hb⟩).symm
    rw [decide_eq_false hi, Bool.false_and, Bool.false_or]
    exact hend i (by omega) hclean

theorem pathWordsLoop_eq (path : Bytes) (last fuel i : ℕ) :
    pathWordsLoop path last fuel i = !anyWordLoop wordHasPathControl path last fuel i := by
  induction fuel generalizing i with
  | zero => rfl
  | succ fuel ih =>
    rw [pathWordsLoop, anyWordLoop, ih]
    split_ifs <;> simp [*]

theorem or_ne_zero (v w : BitVec 64) : v ||| w ≠ 0 ↔ v ≠ 0 ∨ w ≠ 0 := by
  rw [ne_eq, ne_eq, ne_eq, ← not_and_or]
  exact not_congr BitVec.or_eq_zero_iff

theorem wordHasPathControl_leWord (p : Bytes) (hp : 8 ≤ p.length) :
    wordHasPathControl (leWord p) = (p.take 8).any fun c => c < 33 || c == 0x7f := by
  rw [Bool.eq_iff_iff, wordHasPathControl, bne_iff_ne, any_eq_true, or_ne_zero,
    belowMask_ne_zero_iff (by decide), exists_byteAt hp (· < 33),
    show splat 0x7f = splat (0x7f : UInt8).toNat from rfl, belowMask_xor_leWord hp, ← exists_or]
  simp only [← and_or_left, Bool.or_eq_true, decide_eq_true_eq, beq_iff_eq, UInt8.lt_iff_toNat_lt]
  rfl

theorem wordHasLineBreak_leWord (nul : Bool) (p : Bytes) (hp : 8 ≤ p.length) :
    wordHasLineBreak (lineBreakMask nul) (leWord p) = (p.take 8).any fun c => c == cr || c == lf || c == 0 && nul := by
  have hmask : belowMask 1 (leWord p) &&& lineBreakMask nul ≠ 0 ↔ ∃ c ∈ p.take 8, c = 0 ∧ nul = true := by
    have hnul := belowMask_xor_leWord hp 0
    cases nul with
    | false => simp [lineBreakMask]
    | true =>
      rw [lineBreakMask, if_pos rfl, belowMask, BitVec.and_assoc, BitVec.and_self, ← belowMask]
      simpa [splat] using hnul
  rw [Bool.eq_iff_iff, wordHasLineBreak, bne_iff_ne, any_eq_true, or_ne_zero, or_ne_zero, hmask,
    show splat 13 = splat cr.toNat from rfl, show splat 10 = splat lf.toNat from rfl,
    belowMask_xor_leWord hp, belowMask_xor_leWord hp, ← exists_or, ← exists_or]
  simp only [← and_or_left, Bool.or_eq_true, Bool.and_eq_true, beq_iff_eq]

theorem containsLineBreakSWAR_eq (s : Bytes) (nul : Bool) : containsLineBreakSWAR s (lineBreakMask nul) =
    s.any fun c => c == cr || c == lf || c == 0 && nul := by
  have hnul : (lineBreakMask nul != 0) = nul := by cases nul <;> rfl
  unfold containsLineBreakSWAR
  split_ifs with hlong hshort
  · rw [hnul, Bool.eq_iff_iff]
    simp only [Bool.or_eq_true, Bool.and_eq_true, contains_iff_mem, any_eq_true, beq_iff_eq]
    grind
  · rw [hnul]
    congr
    funext c
    grind [cr, lf]
  · exact anyWordLoop_eq (wordHasLineBreak_leWord nul) (by omega) _ 0 le_rfl rfl

/-- With the NUL mask: the test of the response writer. -/
theorem containsLineBreakSWAR_nul (s : Bytes) : containsLineBreakSWAR s (lineBreakMask true) = containsLineBreak s := by
  rw [containsLineBreakSWAR_eq, containsLineBreak]
  simp only [Bool.and_true]
  rfl

theorem scanners_exact : (∀ p, firstH1SpecialSWAR p = p.findIdx? isH1Special) ∧
    (∀ p, ∃ safe, h1HeaderLineScalar p = ((h1HeaderLineSWAR p).1, (h1HeaderLineSWAR p).2, safe) ∧
      (safe = true → ∀ n e, h1HeaderLineSWAR p = (some e, some n) →
        validateHost (trimOWS ((p.take e).drop (n + 1))) = true)) ∧
    (∀ path, isValidH2Path path = path.all fun c => !(c < 33 || c == 0x7f)) ∧
    ∀ s nul, containsLineBreakSWAR s (lineBreakMask nul) = s.any fun c => c == cr || c == lf || c == 0 && nul := by
  refine ⟨firstH1SpecialSWAR_eq, fun p => ?_, fun path => ?_, containsLineBreakSWAR_eq⟩
  · obtain ⟨safe, heq, hsafe⟩ := h1HeaderLineScalar_spec p
    rw [h1HeaderLineSWAR_eq]
    refine ⟨safe, heq, fun hs n e h => ?_⟩
    obtain ⟨he, hn⟩ := Prod.mk.inj h
    exact hsafe hs n e hn he
  · unfold isValidH2Path
    split_ifs with hlen
    · rfl
    dsimp only
    rw [pathWordsLoop_eq, ← Bool.not_or, anyWordLoop_eq wordHasPathControl_leWord (by omega) _ 0 le_rfl rfl,
      not_any_eq_all_not]

end AlosHttp.H1

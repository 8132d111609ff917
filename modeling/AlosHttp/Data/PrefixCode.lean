import AlosHttp.Data.BitString

/-! Codes none of whose words starts another, and the canonical codes among them: words in
order of length, each the successor of the one before. -/
namespace AlosHttp.Data
open List

def PrefixFree {σ : Type*} (code : σ → List Bool) : Prop := ∀ s t, code s <+: code t → s = t

namespace PrefixFree
variable {σ : Type*} {code : σ → List Bool}

theorem unique (h : PrefixFree code) {s t : σ} {bits : List Bool} (hs : code s <+: bits)
    (ht : code t <+: bits) : s = t := by
  obtain hst | hts := prefix_or_prefix_of_prefix hs ht
  · exact h s t hst
  · exact (h t s hts).symm

theorem find_eq (h : PrefixFree code) {symbols : List σ} {s : σ} {bits : List Bool}
    (hmem : s ∈ symbols) (hs : code s <+: bits) :
    symbols.find? (fun t => (code t).isPrefixOf bits) = some s := by
  have hsome : (symbols.find? fun t => (code t).isPrefixOf bits).isSome := by
    rw [find?_isSome]
    exact ⟨s, hmem, isPrefixOf_iff_prefix.mpr hs⟩
  obtain ⟨t, ht⟩ := Option.isSome_iff_exists.mp hsome
  have hpre : code t <+: bits := by
    rw [← isPrefixOf_iff_prefix]
    exact find?_some (p := fun t => (code t).isPrefixOf bits) ht
  rw [ht, h.unique hpre hs]

end PrefixFree

structure CodeWord where
  value : ℕ
  len : ℕ
  deriving DecidableEq

namespace CodeWord

def bits (w : CodeWord) : List Bool := BitString.ofNat w.len w.value

def Starts (a b : CodeWord) : Prop := a.len ≤ b.len ∧ b.value / 2 ^ (b.len - a.len) = a.value

theorem bits_isPrefix_iff {a b : CodeWord} (ha : a.value < 2 ^ a.len) (hb : b.value < 2 ^ b.len) :
    a.bits <+: b.bits ↔ a.Starts b := by
  unfold Starts bits
  constructor
  · intro h
    have hlen : a.len ≤ b.len := by simpa using h.length_le
    exact ⟨hlen, (BitString.ofNat_isPrefix_iff hlen ha hb).mp h⟩
  rintro ⟨hlen, h⟩
  exact (BitString.ofNat_isPrefix_iff hlen ha hb).mpr h

theorem starts_div {w : CodeWord} {m n v : ℕ} (hw : w.len ≤ m) (hmn : m ≤ n) :
    w.Starts ⟨v / 2 ^ (n - m), m⟩ ↔ w.Starts ⟨v, n⟩ := by
  unfold Starts
  rw [Nat.div_div_eq_div_mul, ← pow_add, show n - m + (m - w.len) = n - w.len by omega]
  exact and_congr_left fun _ => ⟨fun h => h.trans hmn, fun _ => hw⟩

end CodeWord

section Canonical
variable {σ : Type*}

/-- Words for symbols listed with their lengths in ascending order: each word is the one
before plus one, extended by zeros to its own length. -/
def canonical : ℕ → ℕ → List (ℕ × σ) → List (σ × CodeWord)
  | _, _, [] => []
  | next, len, (l, s) :: rest =>
    let value := next * 2 ^ (l - len)
    (s, ⟨value, l⟩) :: canonical (value + 1) l rest

theorem canonical_lower {next len : ℕ} {symbols : List (ℕ × σ)}
    (hsorted : symbols.Pairwise fun a b => a.1 ≤ b.1) (hlen : ∀ p ∈ symbols, len ≤ p.1) :
    ∀ x ∈ canonical next len symbols, len ≤ x.2.len ∧ next * 2 ^ (x.2.len - len) ≤ x.2.value := by
  induction symbols generalizing next len with
  | nil => simp [canonical]
  | cons p rest ih =>
    obtain ⟨l, s⟩ := p
    have hl : len ≤ l := hlen (l, s) mem_cons_self
    obtain ⟨hhead, htail⟩ := pairwise_cons.mp hsorted
    intro x hx
    obtain rfl | hx := mem_cons.mp hx
    · exact ⟨hl, le_rfl⟩
    obtain ⟨hle, hval⟩ := ih htail (fun q hq => hhead q hq) x hx
    refine ⟨hl.trans hle, ?_⟩
    calc next * 2 ^ (x.2.len - len) = next * 2 ^ (l - len) * 2 ^ (x.2.len - l) := by
          rw [mul_assoc, ← pow_add]
          congr 2
          omega
      _ ≤ (next * 2 ^ (l - len) + 1) * 2 ^ (x.2.len - l) := Nat.mul_le_mul_right _ (Nat.le_succ _)
      _ ≤ x.2.value := hval

theorem canonical_pairwise {next len : ℕ} {symbols : List (ℕ × σ)} (hsorted : symbols.Pairwise fun a b => a.1 ≤ b.1) :
    (canonical next len symbols).Pairwise fun a b => ¬ a.2.Starts b.2 ∧ ¬ b.2.Starts a.2 := by
  induction symbols generalizing next len with
  | nil => exact List.Pairwise.nil
  | cons p rest ih =>
    obtain ⟨l, s⟩ := p
    obtain ⟨hhead, htail⟩ := pairwise_cons.mp hsorted
    apply List.Pairwise.cons _ (ih htail)
    intro x hx
    obtain ⟨_, hval⟩ := canonical_lower htail (fun q hq => hhead q hq) x hx
    -- the later word, cut to the earlier length, is already larger
    have hcut : next * 2 ^ (l - len) + 1 ≤ x.2.value / 2 ^ (x.2.len - l) :=
      (Nat.le_div_iff_mul_le (Nat.two_pow_pos _)).mpr hval
    constructor
    · rintro ⟨-, h⟩
      dsimp only at h
      omega
    rintro ⟨hle', h⟩
    dsimp only at hle' h
    have heq : x.2.len = l := by omega
    rw [heq, Nat.sub_self, pow_zero, Nat.div_one] at h hcut
    omega

end Canonical
end AlosHttp.Data

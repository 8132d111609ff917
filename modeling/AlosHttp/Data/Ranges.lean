import Mathlib.Tactic

/-! Sets of numbers as lists of closed ranges, the highest range first. -/
namespace AlosHttp.Data
open List

structure Range where
  lo : ℕ
  hi : ℕ
  deriving DecidableEq

namespace Range

def Mem (rs : List Range) (n : ℕ) : Prop := ∃ r ∈ rs, r.lo ≤ n ∧ n ≤ r.hi

instance (rs : List Range) (n : ℕ) : Decidable (Mem rs n) :=
  inferInstanceAs (Decidable (∃ r ∈ rs, r.lo ≤ n ∧ n ≤ r.hi))

/-- Not empty, descending and disjoint; a range may touch the next one. -/
structure Disjoint (rs : List Range) : Prop where
  le : ∀ r ∈ rs, r.lo ≤ r.hi
  below : rs.Pairwise fun a b => b.hi < a.lo

structure Canonical (rs : List Range) : Prop where
  le : ∀ r ∈ rs, r.lo ≤ r.hi
  apart : rs.Pairwise fun a b => b.hi + 1 < a.lo

instance (rs : List Range) : Decidable (Canonical rs) :=
  decidable_of_iff ((∀ r ∈ rs, r.lo ≤ r.hi) ∧ rs.Pairwise fun a b => b.hi + 1 < a.lo)
    ⟨fun h => ⟨h.1, h.2⟩, fun h => ⟨h.le, h.apart⟩⟩

@[simp] theorem not_mem_nil (n : ℕ) : ¬ Mem [] n := by
  rintro ⟨r, hr, -⟩
  cases hr

@[simp] theorem mem_cons (r : Range) (rs : List Range) (n : ℕ) :
    Mem (r :: rs) n ↔ (r.lo ≤ n ∧ n ≤ r.hi) ∨ Mem rs n := by
  unfold Mem
  simp only [List.mem_cons, or_and_right, exists_or, exists_eq_left]

@[simp] theorem mem_append (rs ss : List Range) (n : ℕ) : Mem (rs ++ ss) n ↔ Mem rs n ∨ Mem ss n := by
  unfold Mem
  simp only [List.mem_append, or_and_right, exists_or]

theorem canonical_nil : Canonical [] := ⟨by simp, List.Pairwise.nil⟩

variable {rs : List Range} {r : Range}

theorem canonical_cons : Canonical (r :: rs) ↔ r.lo ≤ r.hi ∧ (∀ s ∈ rs, s.hi + 1 < r.lo) ∧ Canonical rs := by
  constructor
  · rintro ⟨hle, hap⟩
    obtain ⟨hr, hrs⟩ := pairwise_cons.mp hap
    exact ⟨hle r mem_cons_self, hr, fun s hs => hle s (mem_cons_of_mem r hs), hrs⟩
  rintro ⟨hr, hap, hrs⟩
  exact ⟨forall_mem_cons.mpr ⟨hr, hrs.le⟩, pairwise_cons.mpr ⟨hap, hrs.apart⟩⟩

theorem disjoint_cons : Disjoint (r :: rs) ↔ r.lo ≤ r.hi ∧ (∀ s ∈ rs, s.hi < r.lo) ∧ Disjoint rs := by
  constructor
  · rintro ⟨hle, hbe⟩
    obtain ⟨hr, hrs⟩ := pairwise_cons.mp hbe
    exact ⟨hle r mem_cons_self, hr, fun s hs => hle s (mem_cons_of_mem r hs), hrs⟩
  rintro ⟨hr, hbe, hrs⟩
  exact ⟨forall_mem_cons.mpr ⟨hr, hrs.le⟩, pairwise_cons.mpr ⟨hbe, hrs.below⟩⟩

theorem Disjoint.join {s : Range} (h : Disjoint (r :: s :: rs)) : Disjoint ({ r with lo := s.lo } :: rs) := by
  obtain ⟨_, hsr, h⟩ := disjoint_cons.mp h
  obtain ⟨_, hrs, h⟩ := disjoint_cons.mp h
  have := hsr s mem_cons_self
  refine disjoint_cons.mpr ⟨?_, hrs, h⟩
  dsimp only
  omega

theorem Canonical.disjoint (h : Canonical rs) : Disjoint rs := ⟨h.le, h.apart.imp fun hab => by omega⟩

theorem Canonical.take (h : Canonical rs) (n : ℕ) : Canonical (rs.take n) :=
  ⟨fun r hr => h.le r (mem_of_mem_take hr), h.apart.sublist (take_sublist n rs)⟩

theorem Canonical.lt_of_mem_drop (h : Canonical rs) {i : ℕ}
    (hr : r ∈ rs.take i) {n : ℕ} (hn : Mem (rs.drop i) n) : n < r.lo := by
  obtain ⟨s, hs, -, _⟩ := hn
  have hap := h.apart
  rw [← take_append_drop i rs] at hap
  have := (pairwise_append.mp hap).2.2 r hr s hs
  omega

/-- The ranges behind `last`, each joined to the one before it if they touch. -/
def merge : Range → List Range → List Range
  | last, [] => [last]
  | last, r :: rs =>
    if r.hi + 1 ≥ last.lo then merge (if r.lo < last.lo then { last with lo := r.lo } else last) rs
    else last :: merge r rs

theorem hi_le_of_mem_merge : ∀ {last : Range}, Disjoint (last :: rs) → ∀ r ∈ merge last rs, r.hi ≤ last.hi := by
  induction rs with
  | nil =>
    intro last _ r hr
    rw [merge, mem_singleton] at hr
    rw [hr]
  | cons s rs ih =>
    intro last h r hr
    have hjoin := h.join
    obtain ⟨_, hlast, h⟩ := disjoint_cons.mp h
    have hsl := hlast s mem_cons_self
    have hsle := (disjoint_cons.mp h).1
    rw [merge] at hr
    split at hr
    · rw [if_pos (by omega)] at hr
      exact ih hjoin r hr
    obtain rfl | hr := List.mem_cons.mp hr
    · exact le_refl _
    have := ih h r hr
    omega

theorem merge_spec : ∀ {last : Range}, Disjoint (last :: rs) →
    Canonical (merge last rs) ∧ ∀ n, Mem (merge last rs) n ↔ Mem (last :: rs) n := by
  induction rs with
  | nil =>
    intro last h
    exact ⟨⟨h.le, pairwise_singleton _ _⟩, fun n => Iff.rfl⟩
  | cons s rs ih =>
    intro last h
    have hjoin := h.join
    obtain ⟨hll, hlast, h⟩ := disjoint_cons.mp h
    have hsl := hlast s mem_cons_self
    have hsle := (disjoint_cons.mp h).1
    rw [merge]
    split
    case isTrue htouch =>
      rw [if_pos (by omega)]
      obtain ⟨hcan, hmem⟩ := ih hjoin
      refine ⟨hcan, fun n => ?_⟩
      rw [hmem n, mem_cons, mem_cons, mem_cons, ← or_assoc]
      apply or_congr_left
      dsimp only
      omega
    case isFalse hgap =>
      obtain ⟨hcan, hmem⟩ := ih h
      constructor
      · refine canonical_cons.mpr ⟨hll, fun r hr => ?_, hcan⟩
        have := hi_le_of_mem_merge h r hr
        omega
      intro n
      rw [mem_cons, hmem n, mem_cons last]

end Range
end AlosHttp.Data

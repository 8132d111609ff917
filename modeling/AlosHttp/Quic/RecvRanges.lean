import AlosHttp.Data.Ranges

/-! The packet numbers received in a packet number space, kept as at most `maxAckRanges` ranges.
Below `ackFloor` nothing is remembered and nothing is taken. `hi + 1` is only formed below a higher
range, so the source's `uint64` does not wrap. -/
namespace AlosHttp.Quic
open List AlosHttp.Data

def maxAckRanges : ℕ := 32

structure RecvSpace where
  ackRanges : List Range := []
  ackFloor : ℕ := 0
  deriving DecidableEq

/-- Where a range for `pn` goes, or `none` if a range has it. -/
def findPlace (pn : ℕ) : List Range → Option ℕ
  | [] => some 0
  | r :: rs =>
    if pn ≥ r.lo ∧ pn ≤ r.hi then none
    else if pn > r.hi then some 0
    else (findPlace pn rs).map (· + 1)

def insertAt (rs : List Range) (idx pn : ℕ) : List Range := rs.take idx ++ ⟨pn, pn⟩ :: rs.drop idx

def mergeRanges : List Range → List Range
  | [] => []
  | r :: rs => Range.merge r rs

namespace RecvSpace

def recordRecvPN (s : RecvSpace) (pn : ℕ) : RecvSpace × Bool :=
  if pn < s.ackFloor then (s, false)
  else
    match findPlace pn s.ackRanges with
    | none => (s, false)
    | some idx =>
      let merged := mergeRanges (insertAt s.ackRanges idx pn)
      if merged.length > maxAckRanges then
        let kept := merged.take maxAckRanges
        let lowest := (kept.getD (maxAckRanges - 1) ⟨0, 0⟩).lo
        ({ ackRanges := kept, ackFloor := max s.ackFloor lowest }, true)
      else ({ s with ackRanges := merged }, true)

end RecvSpace

theorem findPlace_none {pn : ℕ} {rs : List Range} (h : findPlace pn rs = none) : Range.Mem rs pn := by
  induction rs with
  | nil => cases h
  | cons r rs ih =>
    rw [findPlace] at h
    rw [Range.mem_cons]
    split_ifs at h with hin hgt
    · exact .inl hin
    · exact .inr (ih (Option.map_eq_none_iff.mp h))

theorem findPlace_some {pn : ℕ} {rs : List Range} (hrs : Range.Canonical rs) {idx : ℕ}
    (h : findPlace pn rs = some idx) :
    (∀ r ∈ rs.take idx, pn < r.lo) ∧ ∀ r ∈ rs.drop idx, r.hi < pn := by
  induction rs generalizing idx with
  | nil =>
    cases h
    simp
  | cons r rs ih =>
    obtain ⟨_, hap, hrs⟩ := Range.canonical_cons.mp hrs
    rw [findPlace] at h
    split_ifs at h with hin hgt
    · cases h
      refine ⟨by simp, fun s hs => ?_⟩
      obtain rfl | hs := mem_cons.mp hs
      · exact hgt
      have := hap s hs
      omega
    obtain ⟨i, hi, rfl⟩ := Option.map_eq_some_iff.mp h
    obtain ⟨htake, hdrop⟩ := ih hrs hi
    exact ⟨forall_mem_cons.mpr ⟨by omega, htake⟩, hdrop⟩

theorem mergeRanges_insertAt {pn : ℕ} {rs : List Range} (hrs : Range.Canonical rs) {idx : ℕ}
    (habove : ∀ r ∈ rs.take idx, pn < r.lo) (hbelow : ∀ r ∈ rs.drop idx, r.hi < pn) :
    Range.Canonical (mergeRanges (insertAt rs idx pn)) ∧
      ∀ n, Range.Mem (mergeRanges (insertAt rs idx pn)) n ↔ n = pn ∨ Range.Mem rs n := by
  have hsplit := hrs.disjoint
  rw [← take_append_drop idx rs] at hsplit
  have hdisj : Range.Disjoint (insertAt rs idx pn) := by
    obtain ⟨hle, hbe⟩ := hsplit
    obtain ⟨hab, hbe, hacross⟩ := pairwise_append.mp hbe
    constructor
    · intro r hr
      obtain hr | rfl | hr := by simpa only [insertAt, mem_append, mem_cons] using hr
      · exact hle r (mem_append_left _ hr)
      · exact le_refl pn
      · exact hle r (mem_append_right _ hr)
    refine pairwise_append.mpr ⟨hab, pairwise_cons.mpr ⟨hbelow, hbe⟩, ?_⟩
    exact fun a ha => forall_mem_cons.mpr ⟨habove a ha, hacross a ha⟩
  have hmem : ∀ n, Range.Mem (insertAt rs idx pn) n ↔ n = pn ∨ Range.Mem rs n := by
    intro n
    have hself : pn ≤ n ∧ n ≤ pn ↔ n = pn := by omega
    conv_rhs => rw [← take_append_drop idx rs]
    rw [insertAt, Range.mem_append, Range.mem_append, Range.mem_cons, hself, or_left_comm]
  match hins : insertAt rs idx pn with
  | [] => simp [insertAt] at hins
  | r :: rest =>
    rw [hins] at hdisj hmem
    obtain ⟨hcan, hmerge⟩ := Range.merge_spec hdisj
    exact ⟨hcan, fun n => (hmerge n).trans (hmem n)⟩

namespace RecvSpace

def Seen (s : RecvSpace) (n : ℕ) : Prop := Range.Mem s.ackRanges n ∨ n < s.ackFloor

/-- What recording a number does: one that is new is seen from now on, and nothing is
forgotten. -/
structure Recorded (s s' : RecvSpace) (pn : ℕ) (new : Bool) : Prop where
  canonical : Range.Canonical s'.ackRanges
  length : s'.ackRanges.length ≤ maxAckRanges
  new_iff : new = true ↔ ¬ s.Seen pn
  seen : s'.Seen pn
  keeps : ∀ n, s.Seen n → s'.Seen n

theorem recordRecvPN_spec {s : RecvSpace} (hcan : Range.Canonical s.ackRanges)
    (hlen : s.ackRanges.length ≤ maxAckRanges) (pn : ℕ) :
    Recorded s (s.recordRecvPN pn).1 pn (s.recordRecvPN pn).2 := by
  have refused (hseen : s.Seen pn) : Recorded s s pn false := ⟨hcan, hlen, by simp [hseen], hseen, fun _ => id⟩
  unfold recordRecvPN
  split_ifs with hfloor
  · exact refused (.inr hfloor)
  split
  case h_1 hnone => exact refused (.inl (findPlace_none hnone))
  case h_2 idx hidx =>
    obtain ⟨habove, hbelow⟩ := findPlace_some hcan hidx
    obtain ⟨hcan', hmem⟩ := mergeRanges_insertAt hcan habove hbelow
    have hnew : ¬ s.Seen pn := by
      rintro (hin | hlt)
      · rw [← take_append_drop idx s.ackRanges] at hin
        obtain ⟨r, hr, _, -⟩ | ⟨r, hr, -, _⟩ := (Range.mem_append _ _ _).mp hin
        · have := habove r hr
          omega
        have := hbelow r hr
        omega
      · exact hfloor hlt
    generalize mergeRanges (insertAt s.ackRanges idx pn) = merged at hcan' hmem
    dsimp only
    split_ifs with hcap
    · -- The ranges that are dropped lie below the lowest that is kept, where the floor now is.
      have hlength : (merged.take maxAckRanges).length = maxAckRanges := by
        rw [length_take]
        omega
      have hget : (merged.take maxAckRanges).getD (maxAckRanges - 1) ⟨0, 0⟩ ∈ merged.take maxAckRanges := by
        rw [getD_eq_getElem?_getD, getElem?_eq_getElem (by rw [hlength]; decide)]
        exact getElem_mem _
      generalize (merged.take maxAckRanges).getD (maxAckRanges - 1) ⟨0, 0⟩ = lowest at hget
      have hkeep : ∀ n, Range.Mem merged n → Range.Mem (merged.take maxAckRanges) n ∨ n < max s.ackFloor lowest.lo := by
        intro n hn
        rw [← take_append_drop maxAckRanges merged, Range.mem_append] at hn
        obtain hn | hn := hn
        · exact .inl hn
        have := hcan'.lt_of_mem_drop hget hn
        exact .inr (by omega)
      refine ⟨hcan'.take _, hlength.le, by simp [hnew], hkeep pn ((hmem pn).mpr (.inl rfl)), ?_⟩
      rintro n (hn | hn)
      · exact hkeep n ((hmem n).mpr (.inr hn))
      · exact .inr (lt_of_lt_of_le hn (Nat.le_max_left _ _))
    refine ⟨hcan', Nat.le_of_not_gt hcap, by simp [hnew], .inl ((hmem pn).mpr (.inl rfl)), ?_⟩
    rintro n (hn | hn)
    · exact .inl ((hmem n).mpr (.inr hn))
    · exact .inr hn

end RecvSpace

/-- A space and the numbers it called new, in the order of the packets. -/
structure RecvRun where
  space : RecvSpace := {}
  news : List ℕ := []

namespace RecvRun

def step (r : RecvRun) (pn : ℕ) : RecvRun :=
  let (space, new) := r.space.recordRecvPN pn
  { space, news := if new then r.news ++ [pn] else r.news }

def run (pns : List ℕ) : RecvRun := pns.foldl step {}

structure Inv (r : RecvRun) : Prop where
  canonical : Range.Canonical r.space.ackRanges
  length : r.space.ackRanges.length ≤ maxAckRanges
  seen : ∀ n ∈ r.news, r.space.Seen n
  nodup : r.news.Nodup

theorem Inv.step {r : RecvRun} (h : r.Inv) (pn : ℕ) : (r.step pn).Inv := by
  have hrec := RecvSpace.recordRecvPN_spec h.canonical h.length pn
  have hnews : (r.step pn).news = if (r.space.recordRecvPN pn).2 then r.news ++ [pn] else r.news := rfl
  have hkept : ∀ n ∈ r.news, (r.space.recordRecvPN pn).1.Seen n := fun n hn => hrec.keeps n (h.seen n hn)
  refine ⟨hrec.canonical, hrec.length, ?_, ?_⟩
  · rw [hnews]
    split
    · exact forall_mem_append.mpr ⟨hkept, forall_mem_singleton.mpr hrec.seen⟩
    · exact hkept
  rw [hnews]
  split_ifs with hnew
  · -- A number called new before would have been seen.
    have hfresh : pn ∉ r.news := fun hold => hrec.new_iff.mp hnew (h.seen pn hold)
    exact nodup_append.mpr ⟨h.nodup, nodup_singleton pn, fun a ha b hb hab =>
      hfresh (by rwa [← mem_singleton.mp hb, ← hab])⟩
  · exact h.nodup

theorem inv_run (pns : List ℕ) : (run pns).Inv := by
  have hfrom (r : RecvRun) (h : r.Inv) : (pns.foldl RecvRun.step r).Inv := by
    induction pns generalizing r with
    | nil => exact h
    | cons pn pns ih => exact ih _ (h.step pn)
  exact hfrom {} ⟨Range.canonical_nil, Nat.zero_le _, by simp, nodup_nil⟩

/-- After any packets: each number was new at most once; the ranges are descending, apart and no more
than the cap; and what was new is in a range or below the floor. -/
theorem recordRecvPN_replay_safe (pns : List ℕ) : (run pns).news.Nodup ∧ Range.Canonical (run pns).space.ackRanges ∧
      (run pns).space.ackRanges.length ≤ maxAckRanges ∧
      (∀ n ∈ (run pns).news, Range.Mem (run pns).space.ackRanges n ∨ n < (run pns).space.ackFloor) ∧
      ∀ n < (run pns).space.ackFloor, ((run pns).space.recordRecvPN n).2 = false := by
  have h := inv_run pns
  refine ⟨h.nodup, h.canonical, h.length, h.seen, fun n hn => ?_⟩
  rw [RecvSpace.recordRecvPN, if_pos hn]

end RecvRun
end AlosHttp.Quic

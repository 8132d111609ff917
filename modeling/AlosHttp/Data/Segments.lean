import Mathlib.Tactic

/-! Pieces of a sequence at their offsets: sorted disjoint segments, filled by further pieces
that may overlap them and drained from the front. -/
namespace AlosHttp.Data
open List
variable {α : Type*}

def IsPiece (whole : List α) (off : ℕ) (data : List α) : Prop :=
  off + data.length ≤ whole.length ∧ (whole.drop off).take data.length = data

structure Segment (α : Type*) where
  off : ℕ
  data : List α
  deriving DecidableEq

def Segment.stop (s : Segment α) : ℕ := s.off + s.data.length

theorem IsPiece.sub {whole data : List α} {off a b : ℕ} (h : IsPiece whole off data) (hab : a ≤ b)
    (hb : b ≤ data.length) : IsPiece whole (off + a) ((data.drop a).take (b - a)) := by
  obtain ⟨_, heq⟩ := h
  have hlen : ((data.drop a).take (b - a)).length = b - a := by
    rw [length_take, length_drop]
    omega
  constructor
  · omega
  · rw [hlen, ← heq, drop_take, drop_drop, take_take, Nat.min_eq_left (by omega)]

theorem IsPiece.append {whole d₁ d₂ : List α} {off : ℕ} (h₁ : IsPiece whole off d₁)
    (h₂ : IsPiece whole (off + d₁.length) d₂) : IsPiece whole off (d₁ ++ d₂) := by
  obtain ⟨_, heq₁⟩ := h₁
  obtain ⟨_, heq₂⟩ := h₂
  constructor
  · rw [length_append]
    omega
  · rw [length_append, take_add, heq₁, drop_drop, heq₂]

theorem IsPiece.extend {whole data : List α} {off n : ℕ} (h : IsPiece whole off data) (ho : off ≤ n)
    (hn : n ≤ off + data.length) : whole.take n ++ data.drop (n - off) = whole.take (off + data.length) := by
  obtain ⟨_, heq⟩ := h
  conv_lhs => rw [← heq]
  rw [drop_take, drop_drop, show off + (n - off) = n by omega,
    show data.length - (n - off) = off + data.length - n by omega, ← take_add,
    show n + (off + data.length - n) = off + data.length by omega]

namespace Segment

/-- Sorted, disjoint and not empty, each with the data that `whole` has there. -/
structure Wf (whole : List α) (segs : List (Segment α)) : Prop where
  piece : ∀ s ∈ segs, IsPiece whole s.off s.data
  ne_nil : ∀ s ∈ segs, s.data ≠ []
  sorted : segs.Pairwise fun s t => s.stop ≤ t.off

def Covers (segs : List (Segment α)) (i : ℕ) : Prop := ∃ s ∈ segs, s.off ≤ i ∧ i < s.stop

theorem covers_append (s t : List (Segment α)) (i : ℕ) : Covers (s ++ t) i ↔ Covers s i ∨ Covers t i := by
  unfold Covers
  simp only [mem_append, or_and_right, exists_or]

theorem covers_cons (s : Segment α) (t : List (Segment α)) (i : ℕ) :
    Covers (s :: t) i ↔ s.off ≤ i ∧ i < s.stop ∨ Covers t i := by
  unfold Covers
  simp only [mem_cons, or_and_right, exists_or, exists_eq_left]

theorem not_covers_nil (i : ℕ) : ¬ Covers ([] : List (Segment α)) i := by
  rintro ⟨s, hs, -⟩
  cases hs

/-- The part of a piece from `pos` up to `gapEnd`, joined to the last segment if it ends at
`pos`. -/
def addPiece (off : ℕ) (data : List α) (done : List (Segment α)) (pos gapEnd : ℕ) : List (Segment α) :=
  let piece := (data.drop (pos - off)).take (gapEnd - pos)
  match done.getLast? with
  | some prev =>
    if prev.stop = pos then done.dropLast ++ [⟨prev.off, prev.data ++ piece⟩] else done ++ [⟨pos, piece⟩]
  | none => done ++ [⟨pos, piece⟩]

/-- The gaps of `rest` that the piece fills from `pos` on; `done` ends before `pos`. -/
def fill (off : ℕ) (data : List α) : ℕ → List (Segment α) → List (Segment α) → List (Segment α)
  | pos, done, [] =>
    if pos < off + data.length then addPiece off data done pos (off + data.length) else done
  | pos, done, seg :: rest =>
    if pos < off + data.length then
      let gapEnd := if seg.off < off + data.length then seg.off else off + data.length
      let done := if gapEnd > pos then addPiece off data done pos gapEnd else done
      if seg.off ≥ off + data.length then done ++ seg :: rest
      else fill off data seg.stop (done ++ [seg]) rest
    else done ++ seg :: rest

def newBytes (stop : ℕ) : ℕ → List (Segment α) → ℕ
  | pos, [] => if pos < stop then stop - pos else 0
  | pos, seg :: rest =>
    if pos < stop then
      let gapEnd := if seg.off < stop then seg.off else stop
      (gapEnd - pos) + (if seg.off ≥ stop then 0 else newBytes stop seg.stop rest)
    else 0

def total (segs : List (Segment α)) : ℕ := (segs.map fun s => s.data.length).sum

/-- The front segments up to the first that lies behind `off`: the new offset, the data and how
many they are. -/
def drain : ℕ → List α → List (Segment α) → ℕ × List α × ℕ
  | off, buf, [] => (off, buf, 0)
  | off, buf, seg :: rest =>
    if seg.off > off then (off, buf, 0)
    else
      let r :=
        if seg.stop ≤ off then drain off buf rest
        else drain seg.stop (buf ++ seg.data.drop (off - seg.off)) rest
      (r.1, r.2.1, r.2.2 + 1)

structure Ordered (segs : List (Segment α)) : Prop where
  ne_nil : ∀ s ∈ segs, s.data ≠ []
  sorted : segs.Pairwise fun s t => s.stop ≤ t.off

variable {segs done rest : List (Segment α)} {whole data : List α} {off pos gapEnd : ℕ}

theorem Wf.ordered (h : Wf whole segs) : Ordered segs := ⟨h.ne_nil, h.sorted⟩

theorem ordered_append {s t : List (Segment α)} :
    Ordered (s ++ t) ↔ Ordered s ∧ Ordered t ∧ ∀ a ∈ s, ∀ b ∈ t, a.stop ≤ b.off := by
  constructor
  · intro h
    obtain ⟨hs, ht, hst⟩ := pairwise_append.mp h.sorted
    obtain ⟨hns, hnt⟩ := forall_mem_append.mp h.ne_nil
    exact ⟨⟨hns, hs⟩, ⟨hnt, ht⟩, hst⟩
  rintro ⟨hs, ht, hst⟩
  exact ⟨forall_mem_append.mpr ⟨hs.ne_nil, ht.ne_nil⟩, pairwise_append.mpr ⟨hs.sorted, ht.sorted, hst⟩⟩

theorem ordered_singleton {s : Segment α} (hne : s.data ≠ []) : Ordered [s] :=
  ⟨forall_mem_singleton.mpr hne, pairwise_singleton _ _⟩

theorem Ordered.off_lt_stop (h : Ordered segs) {s : Segment α} (hs : s ∈ segs) : s.off < s.stop :=
  Nat.lt_add_of_pos_right (length_pos_iff.mpr (h.ne_nil s hs))

theorem Ordered.drop (h : Ordered segs) (n : ℕ) : Ordered (segs.drop n) := by
  rw [← take_append_drop n segs] at h
  exact (ordered_append.mp h).2.1

theorem addPiece_ordered (hord : Ordered done)
    (ho : off ≤ pos) (hg : pos < gapEnd) (hstop : gapEnd ≤ off + data.length) (hdone : ∀ s ∈ done, s.stop ≤ pos) :
    Ordered (addPiece off data done pos gapEnd) ∧ (∀ s ∈ addPiece off data done pos gapEnd, s.stop ≤ gapEnd) ∧
      ∀ i, Covers (addPiece off data done pos gapEnd) i ↔ Covers done i ∨ pos ≤ i ∧ i < gapEnd := by
  have hlen : ((data.drop (pos - off)).take (gapEnd - pos)).length = gapEnd - pos := by
    rw [length_take, length_drop]
    omega
  have hne : (data.drop (pos - off)).take (gapEnd - pos) ≠ [] := by
    apply ne_nil_of_length_pos
    omega
  unfold addPiece
  generalize (data.drop (pos - off)).take (gapEnd - pos) = piece at hlen hne ⊢
  -- a segment of its own behind the others
  have hown : Ordered (done ++ [⟨pos, piece⟩]) ∧ (∀ s ∈ done ++ [⟨pos, piece⟩], s.stop ≤ gapEnd) ∧
      ∀ i, Covers (done ++ [⟨pos, piece⟩]) i ↔ Covers done i ∨ pos ≤ i ∧ i < gapEnd := by
    have hend : (⟨pos, piece⟩ : Segment α).stop = gapEnd := by
      unfold stop
      dsimp only
      omega
    refine ⟨?_, ?_, ?_⟩
    · refine ordered_append.mpr ⟨hord, ordered_singleton hne, fun s hs t ht => ?_⟩
      rw [mem_singleton.mp ht]
      exact hdone s hs
    · intro s hs
      obtain hs | hs := mem_append.mp hs
      · exact (hdone s hs).trans hg.le
      · rw [mem_singleton.mp hs, hend]
    intro i
    rw [covers_append, covers_cons, hend, or_iff_left (not_covers_nil i)]
  obtain rfl | ⟨done, prev, rfl⟩ := eq_nil_or_concat' done
  · exact hown
  rw [getLast?_concat]
  dsimp only
  split_ifs with hjoin
  · rw [dropLast_concat]
    obtain ⟨hfront, -, hsep⟩ := ordered_append.mp hord
    have hend : (⟨prev.off, prev.data ++ piece⟩ : Segment α).stop = gapEnd := by
      unfold stop at hjoin ⊢
      rw [length_append]
      dsimp only
      omega
    refine ⟨?_, ?_, ?_⟩
    · refine ordered_append.mpr ⟨hfront, ordered_singleton ?_, fun s hs t ht => ?_⟩
      · exact append_ne_nil_of_right_ne_nil _ hne
      rw [mem_singleton.mp ht]
      exact hsep s hs prev mem_cons_self
    · intro s hs
      obtain hs | hs := mem_append.mp hs
      · exact (hdone s (mem_append_left _ hs)).trans hg.le
      · rw [mem_singleton.mp hs, hend]
    intro i
    rw [covers_append, covers_append, covers_cons, covers_cons, hend, hjoin, or_assoc,
      or_iff_left (not_covers_nil i), or_iff_left (not_covers_nil i)]
    have hstart : prev.off ≤ pos := by rw [← hjoin]; exact Nat.le_add_right _ _
    dsimp only
    apply or_congr_right
    omega
  · exact hown

theorem addGap_ordered (hord : Ordered done)
    (ho : off ≤ pos) (hstop : gapEnd ≤ off + data.length) (hdone : ∀ s ∈ done, s.stop ≤ pos)
    (hgap : ∀ s ∈ done, s.stop ≤ gapEnd) :
    let done' := if gapEnd > pos then addPiece off data done pos gapEnd else done
    Ordered done' ∧ (∀ s ∈ done', s.stop ≤ gapEnd) ∧ ∀ i, Covers done' i ↔ Covers done i ∨ pos ≤ i ∧ i < gapEnd := by
  split_ifs with hlt
  · exact addPiece_ordered hord ho hlt hstop hdone
  refine ⟨hord, hgap, fun i => ?_⟩
  rw [or_iff_left]
  omega

theorem fill_ordered (hord : Ordered (done ++ rest))
    (ho : off ≤ pos) (hdone : ∀ s ∈ done, s.stop ≤ pos) (hrest : ∀ s ∈ rest, pos < s.stop) :
    Ordered (fill off data pos done rest) ∧ ∀ i, Covers (fill off data pos done rest) i ↔
        Covers (done ++ rest) i ∨ pos ≤ i ∧ i < off + data.length := by
  induction rest generalizing pos done with
  | nil =>
    rw [append_nil] at hord ⊢
    rw [fill]
    split_ifs with hlt
    · obtain ⟨hord', -, hcov⟩ := addPiece_ordered hord ho hlt le_rfl hdone
      exact ⟨hord', hcov⟩
    refine ⟨hord, fun i => ?_⟩
    rw [or_iff_left]
    omega
  | cons seg rest ih =>
    rw [fill]
    by_cases hlt : pos < off + data.length
    · rw [if_pos hlt]
      obtain ⟨hordDone, hordSeg, hsep⟩ := ordered_append.mp hord
      have hseg : pos < seg.stop := hrest seg mem_cons_self
      by_cases hnext : seg.off < off + data.length
      · -- the gap before the segment, and on behind it
        rw [if_pos hnext]
        obtain ⟨hord', hstop', hcov'⟩ := addGap_ordered hordDone ho hnext.le hdone
          (fun s hs => hsep s hs seg mem_cons_self)
        rw [if_neg (not_le.mpr hnext)]
        generalize (if seg.off > pos then addPiece off data done pos seg.off else done) = done' at hord' hstop' hcov' ⊢
        have hafter := (pairwise_cons.mp hordSeg.sorted).1
        have hsegPos : seg.off < seg.stop := hordSeg.off_lt_stop mem_cons_self
        have hall : Ordered (done' ++ [seg] ++ rest) := by
          rw [append_assoc]
          refine ordered_append.mpr ⟨hord', hordSeg, fun s hs t ht => ?_⟩
          obtain rfl | ht := mem_cons.mp ht
          · exact hstop' s hs
          · exact (hstop' s hs).trans (hsegPos.le.trans (hafter t ht))
        have hfront : ∀ s ∈ done' ++ [seg], s.stop ≤ seg.stop := by
          intro s hs
          obtain hs | hs := mem_append.mp hs
          · exact (hstop' s hs).trans hsegPos.le
          · rw [mem_singleton.mp hs]
        have hback : ∀ t ∈ rest, seg.stop < t.stop := fun t ht =>
          (hafter t ht).trans_lt (hordSeg.off_lt_stop (mem_cons_of_mem _ ht))
        obtain ⟨hordAll, hcov⟩ := ih hall (ho.trans hseg.le) hfront hback
        refine ⟨hordAll, fun i => ?_⟩
        rw [hcov, covers_append, covers_append, covers_append, covers_cons, covers_cons, hcov',
          or_iff_left (not_covers_nil i)]
        constructor
        · rintro ((((h | h) | h) | h) | h)
          · exact Or.inl (Or.inl h)
          · exact Or.inr ⟨h.1, by omega⟩
          · exact Or.inl (Or.inr (Or.inl h))
          · exact Or.inl (Or.inr (Or.inr h))
          · exact Or.inr ⟨by omega, h.2⟩
        rintro ((h | h | h) | h)
        · exact Or.inl (Or.inl (Or.inl (Or.inl h)))
        · exact Or.inl (Or.inl (Or.inr h))
        · exact Or.inl (Or.inr h)
        by_cases hgap : i < seg.off
        · exact Or.inl (Or.inl (Or.inl (Or.inr ⟨h.1, hgap⟩)))
        by_cases hin : i < seg.stop
        · exact Or.inl (Or.inl (Or.inr ⟨by omega, hin⟩))
        · exact Or.inr ⟨by omega, h.2⟩
      · -- the piece ends before the segment
        rw [if_neg hnext]
        obtain ⟨hord', hstop', hcov'⟩ := addGap_ordered hordDone ho le_rfl hdone (fun s hs => (hdone s hs).trans hlt.le)
        rw [if_pos (not_lt.mp hnext)]
        generalize (if off + data.length > pos then addPiece off data done pos (off + data.length) else done) =
          done' at hord' hstop' hcov' ⊢
        constructor
        · refine ordered_append.mpr ⟨hord', hordSeg, fun s hs t ht => ?_⟩
          have hle := (hstop' s hs).trans (not_lt.mp hnext)
          obtain rfl | ht := mem_cons.mp ht
          · exact hle
          have hsegPos := (hordSeg.off_lt_stop mem_cons_self).le
          exact hle.trans (hsegPos.trans ((pairwise_cons.mp hordSeg.sorted).1 t ht))
        intro i
        rw [covers_append, covers_append, hcov', or_right_comm]
    rw [if_neg hlt]
    refine ⟨hord, fun i => ?_⟩
    rw [or_iff_left]
    omega

theorem addPiece_piece (hdone : ∀ s ∈ done, IsPiece whole s.off s.data) (hp : IsPiece whole off data) (ho : off ≤ pos)
    (hg : pos ≤ gapEnd) (hstop : gapEnd ≤ off + data.length) :
    ∀ s ∈ addPiece off data done pos gapEnd, IsPiece whole s.off s.data := by
  have hpiece := hp.sub (show pos - off ≤ gapEnd - off by omega) (by omega)
  rw [show off + (pos - off) = pos by omega, show gapEnd - off - (pos - off) = gapEnd - pos by omega] at hpiece
  unfold addPiece
  generalize (data.drop (pos - off)).take (gapEnd - pos) = piece at hpiece ⊢
  have hown : ∀ s ∈ done ++ [⟨pos, piece⟩], IsPiece whole s.off s.data :=
    forall_mem_append.mpr ⟨hdone, forall_mem_singleton.mpr hpiece⟩
  dsimp only
  obtain rfl | ⟨done, prev, rfl⟩ := eq_nil_or_concat' done
  · exact hown
  rw [getLast?_concat]
  dsimp only
  split_ifs with hjoin
  · rw [dropLast_concat]
    obtain ⟨hfront, hlast⟩ := forall_mem_append.mp hdone
    have hprev := hlast prev mem_cons_self
    refine forall_mem_append.mpr ⟨hfront, forall_mem_singleton.mpr (hprev.append ?_)⟩
    rw [show prev.off + prev.data.length = pos from hjoin]
    exact hpiece
  · exact hown

theorem fill_piece (hdone : ∀ s ∈ done, IsPiece whole s.off s.data) (hrest : ∀ s ∈ rest, IsPiece whole s.off s.data)
    (hp : IsPiece whole off data) (ho : off ≤ pos) (hstop : ∀ s ∈ rest, off ≤ s.stop) :
    ∀ s ∈ fill off data pos done rest, IsPiece whole s.off s.data := by
  induction rest generalizing pos done with
  | nil =>
    rw [fill]
    split_ifs with hlt
    · exact addPiece_piece hdone hp ho hlt.le le_rfl
    · exact hdone
  | cons seg rest ih =>
    rw [fill]
    by_cases hlt : pos < off + data.length
    · rw [if_pos hlt]
      generalize hgap : (if seg.off < off + data.length then seg.off else off + data.length) = gapEnd
      have hle : gapEnd ≤ off + data.length := by
        rw [← hgap]
        split_ifs <;> omega
      have hdone' : ∀ s ∈ if gapEnd > pos then addPiece off data done pos gapEnd else done,
          IsPiece whole s.off s.data := by
        split_ifs with hpos
        · exact addPiece_piece hdone hp ho hpos.le hle
        · exact hdone
      dsimp only
      generalize (if gapEnd > pos then addPiece off data done pos gapEnd else done) = done' at hdone' ⊢
      obtain ⟨hseg, hrest⟩ := forall_mem_cons.mp hrest
      obtain ⟨hsegStop, hstop⟩ := forall_mem_cons.mp hstop
      split_ifs
      · exact forall_mem_append.mpr ⟨hdone', forall_mem_cons.mpr ⟨hseg, hrest⟩⟩
      · exact ih (forall_mem_append.mpr ⟨hdone', forall_mem_singleton.mpr hseg⟩) hrest hsegStop hstop
    rw [if_neg hlt]
    exact forall_mem_append.mpr ⟨hdone, hrest⟩

theorem total_append (s t : List (Segment α)) : total (s ++ t) = total s + total t := by
  unfold total
  rw [map_append, sum_append]

theorem total_cons (s : Segment α) (t : List (Segment α)) : total (s :: t) = s.data.length + total t := rfl

theorem addPiece_total (done : List (Segment α)) (ho : off ≤ pos) (hstop : gapEnd ≤ off + data.length) :
    total (addPiece off data done pos gapEnd) = total done + (gapEnd - pos) := by
  have hlen : ((data.drop (pos - off)).take (gapEnd - pos)).length = gapEnd - pos := by
    rw [length_take, length_drop]
    omega
  unfold addPiece
  generalize (data.drop (pos - off)).take (gapEnd - pos) = piece at hlen ⊢
  have hnil : total ([] : List (Segment α)) = 0 := rfl
  obtain rfl | ⟨done, _, rfl⟩ := eq_nil_or_concat' done
  · simp [total_cons, hnil, hlen]
  simp only [getLast?_concat, dropLast_concat]
  split_ifs
  · simp only [total_append, total_cons, hnil, length_append, hlen]
    omega
  simp only [total_append, total_cons, hnil, hlen]
  omega

theorem addGap_total (done : List (Segment α)) (ho : off ≤ pos) (hstop : gapEnd ≤ off + data.length) :
    total (if gapEnd > pos then addPiece off data done pos gapEnd else done) = total done + (gapEnd - pos) := by
  split_ifs with hlt
  · exact addPiece_total done ho hstop
  · omega

theorem fill_total (ho : off ≤ pos) (hrest : ∀ s ∈ rest, off ≤ s.stop) :
    total (fill off data pos done rest) = total (done ++ rest) + newBytes (off + data.length) pos rest := by
  induction rest generalizing pos done with
  | nil =>
    rw [fill, newBytes, append_nil]
    split_ifs with hlt
    · exact addPiece_total done ho le_rfl
    · rfl
  | cons seg rest ih =>
    rw [fill, newBytes]
    by_cases hlt : pos < off + data.length
    · rw [if_pos hlt, if_pos hlt]
      by_cases hnext : seg.off < off + data.length
      · simp only [if_pos hnext, if_neg (not_le.mpr hnext)]
        rw [ih (hrest seg mem_cons_self) fun s hs => hrest s (mem_cons_of_mem _ hs)]
        simp only [total_append, total_cons, addGap_total done ho hnext.le]
        rw [show total ([] : List (Segment α)) = 0 from rfl]
        omega
      simp only [if_neg hnext, if_pos (not_lt.mp hnext)]
      simp only [total_append, total_cons, addGap_total done ho le_rfl]
      omega
    · rw [if_neg hlt, if_neg hlt, add_zero]

theorem fill_of_newBytes_eq_zero (h : newBytes (off + data.length) pos rest = 0)
    : fill off data pos done rest = done ++ rest := by
  induction rest generalizing pos done with
  | nil =>
    rw [newBytes] at h
    rw [fill, append_nil]
    split_ifs at h ⊢ with hlt
    · omega
    · rfl
  | cons seg rest ih =>
    rw [newBytes] at h
    rw [fill]
    by_cases hlt : pos < off + data.length
    · rw [if_pos hlt] at h ⊢
      obtain ⟨hgap, hmore⟩ := Nat.add_eq_zero_iff.mp h
      dsimp only at hgap ⊢
      rw [if_neg (by omega : ¬ (if seg.off < off + data.length then seg.off else off + data.length) > pos)]
      split_ifs at hmore ⊢ with hnext
      · rfl
      rw [ih hmore, append_assoc]
      rfl
    · rw [if_neg hlt]

theorem drain_ordered {buf : List α} (hord : Ordered segs) :
    let r := drain off buf segs
    off ≤ r.1 ∧ (∀ s ∈ segs.drop r.2.2, r.1 < s.off) ∧
      ∀ i, i < r.1 ∨ Covers (segs.drop r.2.2) i ↔ i < off ∨ Covers segs i := by
  induction segs generalizing off buf with
  | nil => exact ⟨le_rfl, by simp [drain], fun i => by simp [drain]⟩
  | cons seg rest ih =>
    obtain ⟨-, hordRest, -⟩ := ordered_append.mp (show Ordered ([seg] ++ rest) from hord)
    rw [drain]
    by_cases hgap : seg.off > off
    · rw [if_pos hgap]
      refine ⟨le_rfl, fun s hs => ?_, fun i => Iff.rfl⟩
      rw [drop_zero] at hs
      obtain rfl | hs := mem_cons.mp hs
      · exact hgap
      have hsegPos := hord.off_lt_stop mem_cons_self
      have hafter := (pairwise_cons.mp hord.sorted).1 s hs
      show off < s.off
      omega
    rw [if_neg hgap]
    split_ifs with hold
    · obtain ⟨h₁, h₂, h₃⟩ := @ih off buf hordRest
      refine ⟨h₁, h₂, fun i => ?_⟩
      rw [drop_succ_cons, h₃, covers_cons]
      constructor
      · rintro (h | h)
        · exact Or.inl h
        · exact Or.inr (Or.inr h)
      rintro (h | h | h)
      · exact Or.inl h
      · exact Or.inl (by omega)
      · exact Or.inr h
    obtain ⟨h₁, h₂, h₃⟩ := @ih seg.stop (buf ++ seg.data.drop (off - seg.off)) hordRest
    refine ⟨?_, h₂, fun i => ?_⟩
    · dsimp only
      omega
    dsimp only
    rw [drop_succ_cons, h₃, covers_cons]
    constructor
    · rintro (h | h)
      · by_cases hi : i < off
        · exact Or.inl hi
        · exact Or.inr (Or.inl ⟨by omega, h⟩)
      · exact Or.inr (Or.inr h)
    rintro (h | h | h)
    · exact Or.inl (by omega)
    · exact Or.inl h.2
    · exact Or.inr h

theorem drain_piece {buf handed : List α}
    (hsegs : ∀ s ∈ segs, IsPiece whole s.off s.data) (hbuf : handed ++ buf = whole.take off)
    (hoff : off ≤ whole.length) :
    let r := drain off buf segs
    handed ++ r.2.1 = whole.take r.1 ∧ r.1 ≤ whole.length := by
  induction segs generalizing off buf with
  | nil => exact ⟨hbuf, hoff⟩
  | cons seg rest ih =>
    obtain ⟨hpiece, hrest⟩ := forall_mem_cons.mp hsegs
    rw [drain]
    split_ifs with hgap hold
    · exact ⟨hbuf, hoff⟩
    · exact ih hrest hbuf hoff
    have hnew : handed ++ (buf ++ seg.data.drop (off - seg.off)) = whole.take seg.stop := by
      rw [← append_assoc, hbuf]
      exact hpiece.extend (not_lt.mp hgap) (not_le.mp hold).le
    exact ih hrest hnew hpiece.1

def coverSet : List (Segment α) → Finset ℕ
  | [] => ∅
  | s :: segs => Finset.Ico s.off s.stop ∪ coverSet segs

theorem mem_coverSet (segs : List (Segment α)) (i : ℕ) : i ∈ coverSet segs ↔ Covers segs i := by
  induction segs with
  | nil => simp [coverSet, not_covers_nil]
  | cons s segs ih => rw [coverSet, Finset.mem_union, Finset.mem_Ico, ih, covers_cons]

theorem Ordered.card_coverSet (h : Ordered segs) : (coverSet segs).card = total segs := by
  induction segs with
  | nil => rfl
  | cons s segs ih =>
    obtain ⟨-, hrest, hsep⟩ := ordered_append.mp (show Ordered ([s] ++ segs) from h)
    have hdisjoint : Disjoint (Finset.Ico s.off s.stop) (coverSet segs) := by
      rw [Finset.disjoint_left]
      intro i hi hmem
      obtain ⟨t, ht, _, -⟩ := (mem_coverSet segs i).mp hmem
      have hst := hsep s mem_cons_self t ht
      have hlt := (Finset.mem_Ico.mp hi).2
      omega
    rw [coverSet, Finset.card_union_of_disjoint hdisjoint, Nat.card_Ico, ih hrest, total_cons, stop,
      Nat.add_sub_cancel_left]

end Segment
end AlosHttp.Data

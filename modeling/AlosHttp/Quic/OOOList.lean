import AlosHttp.Data.Chunked
import AlosHttp.Data.Segments

/-! The segments of a QUIC stream that arrived ahead of a gap: a sorted list in chunks, and the
loops over its positions that count and add what a further piece brings. -/
namespace AlosHttp.Quic
open AlosHttp.Data List

abbrev QuicOOOSegment := Segment UInt8

def quicOOOChunkLen : ℕ := 64

structure QuicOOOList where
  chunks : List (List QuicOOOSegment) := []
  count : ℕ := 0
  deriving DecidableEq

namespace QuicOOOList

def len (l : QuicOOOList) : ℕ := l.count

def endPos (l : QuicOOOList) : ChunkPos := Chunked.endPos l.chunks

def firstEndingAfter (l : QuicOOOList) (off : ℕ) : ChunkPos :=
  if l.count = 0 then l.endPos else Chunked.firstPos l.chunks fun s => off < s.stop

def at? (l : QuicOOOList) (p : ChunkPos) : Option QuicOOOSegment := Chunked.get? l.chunks p

/-- The segment before a position, by its own position: the source keeps a pointer to it. -/
def before (l : QuicOOOList) (p : ChunkPos) : Option ChunkPos := Chunked.beforePos l.chunks p

def next (l : QuicOOOList) (p : ChunkPos) : ChunkPos := Chunked.nextPos l.chunks p

def insert (l : QuicOOOList) (p : ChunkPos) (seg : QuicOOOSegment) : QuicOOOList × ChunkPos :=
  let r := Chunked.insert (quicOOOChunkLen / 2) l.chunks p seg
  (⟨r.1, l.count + 1⟩, r.2)

def appendData (l : QuicOOOList) (p : ChunkPos) (piece : List UInt8) : QuicOOOList :=
  { l with chunks := Chunked.modify l.chunks p fun s => ⟨s.off, s.data ++ piece⟩ }

def dropFront (l : QuicOOOList) (k : ℕ) : QuicOOOList := ⟨Chunked.dropFront l.chunks k, l.count - k⟩

def stopOf (l : QuicOOOList) (prev : Option ChunkPos) : Option ℕ := prev.bind fun q => (l.at? q).map Segment.stop

def segments (l : QuicOOOList) : List QuicOOOSegment := l.chunks.flatten

structure Inv (l : QuicOOOList) : Prop where
  filled : Chunked.Filled l.chunks
  count_eq : l.count = l.segments.length

end QuicOOOList

def gapEnd (seg : Option QuicOOOSegment) (stop : ℕ) : ℕ :=
  match seg with
  | some seg => if seg.off < stop then seg.off else stop
  | none => stop

namespace QuicOOOList

def newBytesLoop (l : QuicOOOList) (first : ChunkPos) (off stop : ℕ) : ℕ → ChunkPos → ℕ → ℕ × Bool → ℕ × Bool
  | 0, _, _, acc => acc
  | fuel + 1, p, pos, acc =>
    if pos < stop then
      let seg := l.at? p
      let acc :=
        if gapEnd seg stop > pos then
          (acc.1 + (gapEnd seg stop - pos),
            if pos = off then decide (l.stopOf (l.before first) ≠ some off) else acc.2)
        else acc
      match seg with
      | none => acc
      | some seg => if seg.off ≥ stop then acc else l.newBytesLoop first off stop fuel (l.next p) seg.stop acc
    else acc

/-- A piece that fills a gap: appended to the segment before it, or a segment of its own. -/
def putPiece (l : QuicOOOList) (p : ChunkPos) (prev : Option ChunkPos) (pos : ℕ) (piece : List UInt8) :
    QuicOOOList × ChunkPos :=
  let own :=
    let i := l.insert p ⟨pos, piece⟩
    (i.1, i.1.next i.2)
  match prev with
  | some q => if l.stopOf (some q) = some pos then (l.appendData q piece, p) else own
  | none => own

def fillLoop (off : ℕ) (data : List UInt8) : ℕ → QuicOOOList → ChunkPos → Option ChunkPos → ℕ → QuicOOOList
  | 0, l, _, _, _ => l
  | fuel + 1, l, p, prev, pos =>
    if pos < off + data.length then
      let seg := l.at? p
      let stop := gapEnd seg (off + data.length)
      let r : QuicOOOList × ChunkPos :=
        if stop > pos then l.putPiece p prev pos ((data.drop (pos - off)).take (stop - pos))
        else (l, p)
      match r.1.at? r.2 with
      | none => r.1
      | some seg =>
        if seg.off ≥ off + data.length then r.1
        else fillLoop off data fuel r.1 (r.1.next r.2) (some r.2) seg.stop
    else l

/-- `prev` is the position of the last segment of `done`, just before `p`. -/
def PointsTo (l : QuicOOOList) (p : ChunkPos) (prev : Option ChunkPos) (done rest : List QuicOOOSegment) : Prop :=
  (done = [] ∧ prev = none) ∨
    ∃ d a q, done = d ++ [a] ∧ prev = some q ∧ Chunked.At l.chunks q d (a :: rest) ∧ l.next q = p

variable {p : ChunkPos} {done rest : List QuicOOOSegment} {l : QuicOOOList} {prev : Option ChunkPos}

theorem pointsTo_before (hinv : l.Inv)
    (hat : Chunked.At l.chunks p done rest) : l.PointsTo p (l.before p) done rest := by
  obtain rfl | ⟨d, a, rfl⟩ := eq_nil_or_concat' done
  · exact Or.inl ⟨rfl, hat.before_none hinv.filled⟩
  obtain ⟨q, hq, hatq, hnext⟩ := hat.before hinv.filled
  exact Or.inr ⟨d, a, q, rfl, hq, hatq, hnext⟩

theorem Inv.of_at (hfill : Chunked.Filled l.chunks) (hat : Chunked.At l.chunks p done rest)
    (hcount : l.count = done.length + rest.length) : l.Inv where
  filled := hfill
  count_eq := by rw [hcount, segments, hat.flatten_eq, length_append]

theorem Inv.count_at (hinv : l.Inv) (hat : Chunked.At l.chunks p done rest) : l.count = done.length + rest.length := by
  rw [hinv.count_eq, segments, hat.flatten_eq, length_append]

theorem putPiece_spec (hinv : l.Inv) (hat : Chunked.At l.chunks p done rest)
    (hprev : l.PointsTo p prev done rest) (off : ℕ) (data : List UInt8) (pos stop : ℕ) :
    let r := l.putPiece p prev pos ((data.drop (pos - off)).take (stop - pos))
    r.1.Inv ∧ Chunked.At r.1.chunks r.2 (Segment.addPiece off data done pos stop) rest := by
  unfold putPiece Segment.addPiece
  generalize (data.drop (pos - off)).take (stop - pos) = piece
  have hcount := hinv.count_at hat
  -- a segment of its own
  have hown : (l.insert p ⟨pos, piece⟩).1.Inv ∧ Chunked.At (l.insert p ⟨pos, piece⟩).1.chunks
      ((l.insert p ⟨pos, piece⟩).1.next (l.insert p ⟨pos, piece⟩).2) (done ++ [⟨pos, piece⟩]) rest := by
    obtain ⟨hfill, hins⟩ := hat.insert (show 0 < quicOOOChunkLen / 2 by decide) hinv.filled ⟨pos, piece⟩
    constructor
    · refine Inv.of_at hfill hins ?_
      show l.count + 1 = done.length + (rest.length + 1)
      omega
    · exact hins.next hfill
  obtain ⟨rfl, rfl⟩ | ⟨d, a, q, rfl, rfl, hatq, hnext⟩ := hprev
  · exact hown
  have hstop : l.stopOf (some q) = some a.stop := by
    show (l.at? q).map Segment.stop = some a.stop
    rw [at?, hatq.get?]
    rfl
  rw [getLast?_concat]
  dsimp only
  rw [hstop]
  by_cases hjoin : a.stop = pos
  · rw [if_pos (congrArg some hjoin), if_pos hjoin, dropLast_concat]
    obtain ⟨hfill, hmod, hnext'⟩ := hatq.modify hinv.filled fun s => ⟨s.off, s.data ++ piece⟩
    constructor
    · refine Inv.of_at hfill hmod ?_
      rw [length_append] at hcount
      show l.count = d.length + (rest.length + 1)
      rw [hcount, length_singleton]
      omega
    have hat' := hmod.next hfill
    rw [hnext', show Chunked.nextPos l.chunks q = p from hnext] at hat'
    exact hat'
  rw [if_neg (fun h => hjoin (Option.some.inj h)), if_neg hjoin]
  exact hown

theorem putGap_spec (hinv : l.Inv) (hat : Chunked.At l.chunks p done rest)
    (hprev : l.PointsTo p prev done rest) (off : ℕ) (data : List UInt8) (pos stop : ℕ) :
    let r := (if stop > pos then l.putPiece p prev pos ((data.drop (pos - off)).take (stop - pos))
      else (l, p))
    r.1.Inv ∧ Chunked.At r.1.chunks r.2
      (if stop > pos then Segment.addPiece off data done pos stop else done) rest := by
  split_ifs
  · exact putPiece_spec hinv hat hprev off data pos stop
  · exact ⟨hinv, hat⟩

theorem fillLoop_spec {off : ℕ} {data : List UInt8} {fuel : ℕ} {pos : ℕ} (hinv : l.Inv)
    (hat : Chunked.At l.chunks p done rest) (hprev : l.PointsTo p prev done rest)
    (hfuel : rest.length < fuel) :
    (fillLoop off data fuel l p prev pos).Inv ∧
      (fillLoop off data fuel l p prev pos).segments = Segment.fill off data pos done rest := by
  induction fuel generalizing l p prev pos done rest with
  | zero => exact absurd hfuel (Nat.not_lt_zero _)
  | succ fuel ih =>
    rw [fillLoop]
    split_ifs with hlt
    · rw [show l.at? p = rest.head? from hat.get?]
      -- the list after the gap, still before the same segment
      obtain ⟨hinv', hat'⟩ := putGap_spec hinv hat hprev off data pos (gapEnd rest.head? (off + data.length))
      dsimp only at hinv' hat' ⊢
      generalize (if gapEnd rest.head? (off + data.length) > pos then
        l.putPiece p prev pos ((data.drop (pos - off)).take (gapEnd rest.head? (off + data.length) - pos))
        else (l, p)) = r at hinv' hat' ⊢
      rw [show r.1.at? r.2 = rest.head? from hat'.get?]
      rcases rest with _ | ⟨seg, rest⟩
      · rw [Segment.fill, if_pos hlt]
        rw [show gapEnd (head? []) (off + data.length) = off + data.length from rfl, if_pos hlt] at hat'
        constructor
        · exact hinv'
        show r.1.chunks.flatten = _
        rw [hat'.flatten_eq, append_nil]
      rw [Segment.fill, if_pos hlt]
      rw [head?_cons]
      dsimp only at hat' ⊢
      by_cases hnext : seg.off ≥ off + data.length
      · rw [if_pos hnext, if_pos hnext]
        constructor
        · exact hinv'
        · exact hat'.flatten_eq
      rw [if_neg hnext, if_neg hnext]
      apply ih hinv' (hat'.next hinv'.filled)
      · exact Or.inr ⟨_, seg, r.2, rfl, rfl, hat', rfl⟩
      · exact Nat.lt_of_succ_lt_succ hfuel
    constructor
    · exact hinv
    rw [segments, hat.flatten_eq]
    cases rest with
    | nil => rw [Segment.fill, if_neg hlt, append_nil]
    | cons seg rest => rw [Segment.fill, if_neg hlt]

theorem newBytesLoop_fst (hinv : l.Inv) {first : ChunkPos} {off stop fuel : ℕ}
    {pos : ℕ} {acc : ℕ × Bool} (hat : Chunked.At l.chunks p done rest)
    (hfuel : rest.length < fuel) :
    (l.newBytesLoop first off stop fuel p pos acc).1 = acc.1 + Segment.newBytes stop pos rest := by
  induction fuel generalizing p pos acc done rest with
  | zero => exact absurd hfuel (Nat.not_lt_zero _)
  | succ fuel ih =>
    rw [newBytesLoop]
    by_cases hlt : pos < stop
    · rw [if_pos hlt, show l.at? p = rest.head? from hat.get?]
      have hacc : (if gapEnd rest.head? stop > pos then
          (acc.1 + (gapEnd rest.head? stop - pos),
            if pos = off then decide (l.stopOf (l.before first) ≠ some off) else acc.2)
          else acc).1 = acc.1 + (gapEnd rest.head? stop - pos) := by
        split_ifs with hgap
        · rfl
        · rfl
        · omega
      dsimp only
      generalize (if gapEnd rest.head? stop > pos then
          (acc.1 + (gapEnd rest.head? stop - pos),
            if pos = off then decide (l.stopOf (l.before first) ≠ some off) else acc.2)
          else acc) = acc' at hacc ⊢
      rcases rest with _ | ⟨seg, rest⟩
      · rw [Segment.newBytes, if_pos hlt]
        exact hacc
      rw [Segment.newBytes, if_pos hlt, head?_cons]
      rw [show gapEnd (head? (seg :: rest)) stop = if seg.off < stop then seg.off else stop from rfl] at hacc
      dsimp only
      by_cases hnext : seg.off ≥ stop
      · rw [if_pos hnext, if_pos hnext, hacc, add_zero]
      rw [if_neg hnext, if_neg hnext, ih (p := l.next p) (hat.next hinv.filled)
        (Nat.lt_of_succ_lt_succ hfuel), hacc, add_assoc]
    rw [if_neg hlt]
    cases rest with
    | nil | cons seg rest => rw [Segment.newBytes, if_neg hlt, add_zero]

theorem firstEndingAfter_spec (hinv : l.Inv) (hord : Segment.Ordered l.segments) (off : ℕ) :
    ∃ done rest, Chunked.At l.chunks (l.firstEndingAfter off) done rest ∧
      (∀ s ∈ done, s.stop ≤ off) ∧ ∀ s ∈ rest, off < s.stop := by
  unfold firstEndingAfter
  split_ifs with hcount
  · have hnil : l.segments = [] := eq_nil_of_length_eq_zero (hinv.count_eq ▸ hcount)
    refine ⟨l.segments, [], Chunked.At.ending, ?_, ?_⟩
    · rw [hnil]
      exact fun s hs => (by cases hs)
    · exact fun s hs => (by cases hs)
  · -- the ends grow along the list
    have hgrow : l.segments.Pairwise fun s t => decide (off < s.stop) = true → decide (off < t.stop) = true := by
      refine pairwise_iff_forall_sublist.mpr fun {s t} hsub hs => ?_
      have hst := pairwise_iff_forall_sublist.mp hord.sorted hsub
      have ht := hord.off_lt_stop (hsub.subset (mem_cons_of_mem s mem_cons_self))
      exact decide_eq_true ((of_decide_eq_true hs).trans_le (hst.trans ht.le))
    obtain ⟨done, rest, hat, hdone, hrest⟩ := Chunked.firstPos_spec hinv.filled hgrow
    refine ⟨done, rest, hat, fun s hs => ?_, fun s hs => ?_⟩
    · exact not_lt.mp (of_decide_eq_false (hdone s hs))
    · exact of_decide_eq_true (hrest s hs)

theorem dropFront_zero (l : QuicOOOList) : l.dropFront 0 = l := by
  rw [dropFront, Chunked.dropFront, Nat.sub_zero]

theorem dropFront_spec (hinv : l.Inv) (k : ℕ) : (l.dropFront k).Inv ∧ (l.dropFront k).segments = l.segments.drop k := by
  obtain ⟨hflat, hfill⟩ := Chunked.flatten_dropFront hinv.filled k
  refine ⟨⟨hfill, ?_⟩, hflat⟩
  show l.count - k = (Chunked.dropFront l.chunks k).flatten.length
  rw [hflat, length_drop, hinv.count_eq, segments]

end QuicOOOList
end AlosHttp.Quic

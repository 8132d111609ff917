import AlosHttp.Quic.OOOList

/-! The receiving half of a QUIC stream: contiguous data that the reader takes, and the segments
ahead of it. Offsets are variable-length integers below 2^62, so their sums do not wrap. -/
namespace AlosHttp.Quic
open AlosHttp.Data List

structure QUICStream where
  recvBuf : List UInt8 := []
  recvOOO : QuicOOOList := {}
  oooBytes : ℕ := 0
  recvMax : ℕ := 0
  recvOff : ℕ := 0
  recvFin : Bool := false
  recvFinSeen : Bool := false
  recvFinOff : ℕ := 0
  recvClosed : Bool := false
  recvOverflow : Bool := false
  recvReset : Bool := false
  maxRecv : ℕ
  recvWindow : ℕ
  recvGranted : ℕ
  deriving DecidableEq

structure ServerLimits where
  quicMaxStreamData : ℤ
  maxBodySize : ℤ
  maxHeaderSize : ℤ

def quicStreamRecvUnlimitedCap : ℕ := 2 ^ 62

def quicStreamRecvFrameSlack : ℕ := 16 * 2 ^ 10

def quicStreamRecvLimit (server : Option ServerLimits) : ℕ :=
  match server with
  | some c => if c.quicMaxStreamData > 0 then c.quicMaxStreamData.toNat else 2 ^ 18
  | none => 2 ^ 18

def quicStreamRecvCap (server : Option ServerLimits) (window : ℕ) : ℕ :=
  match server with
  | none => window
  | some c =>
    if c.maxBodySize < 0 then quicStreamRecvUnlimitedCap
    else
      let capBytes := ((c.maxBodySize + c.maxHeaderSize + quicStreamRecvFrameSlack) % 2 ^ 64).toNat
      if capBytes < window then window else capBytes

def newQUICStream (server : Option ServerLimits) : QUICStream :=
  let window := quicStreamRecvLimit server
  { maxRecv := quicStreamRecvCap server window, recvWindow := window, recvGranted := window }

structure QuicStreamFrame where
  offset : ℕ
  data : List UInt8
  fin : Bool
  deriving DecidableEq

def QuicStreamFrame.stop (f : QuicStreamFrame) : ℕ := f.offset + f.data.length

/-- What a frame finds outside the stream: the connection's flow credit and the server's body
budget, for the data and for the overhead of a new segment. -/
structure RecvEnv where
  credit : Bool := true
  budget : Bool := true
  overhead : Bool := true
  deriving DecidableEq

inductive RecvResult
  | ignored
  | violation
  | finalSizeError
  | rejected
  | accepted (n : ℕ) (endOfData : Bool)
  deriving DecidableEq

namespace RecvResult

def isAccepted : RecvResult → Bool
  | .accepted _ _ => true
  | .ignored | .violation | .finalSizeError | .rejected => false

def isRejection : RecvResult → Bool
  | .violation | .finalSizeError | .rejected => true
  | .ignored | .accepted _ _ => false

end RecvResult

inductive QuicOOOResult
  | stored
  | dropped
  | tooManyGaps
  deriving DecidableEq

def quicMinOOOSegmentCap : ℕ := 256

def quicOOOWindowBytesPerGap : ℕ := 1200

namespace QUICStream

def violatesFinalSize (s : QUICStream) (stop : ℕ) (fin : Bool) : Bool :=
  if s.recvFinSeen then decide (stop > s.recvFinOff) || fin && decide (stop ≠ s.recvFinOff)
  else fin && decide (stop < s.recvMax)

def outstanding (s : QUICStream) : ℕ := s.recvBuf.length + s.oooBytes

def reserve (s : QUICStream) (n : ℕ) (budget : Bool) : Bool :=
  if n = 0 then true else if s.outstanding + n > s.maxRecv then false else budget

def appendContig (s : QUICStream) (data : List UInt8) (budget : Bool) : Option QUICStream :=
  if s.reserve data.length budget then
    some { s with recvBuf := s.recvBuf ++ data, recvOff := s.recvOff + data.length }
  else none

def oooSegmentCap (s : QUICStream) : ℕ := max quicMinOOOSegmentCap (s.recvWindow / quicOOOWindowBytesPerGap)

def oooNewBytes (s : QUICStream) (first : ChunkPos) (off stop : ℕ) : ℕ × Bool :=
  s.recvOOO.newBytesLoop first off stop (s.recvOOO.len + 1) first off (0, false)

def insertOOO (s : QUICStream) (off : ℕ) (data : List UInt8) (env : RecvEnv) : QUICStream × ℕ × QuicOOOResult :=
  let first := s.recvOOO.firstEndingAfter off
  let new := s.oooNewBytes first off (off + data.length)
  if new.1 = 0 then (s, 0, .stored)
  else if new.2 && decide (s.recvOOO.len ≥ s.oooSegmentCap) then (s, 0, .tooManyGaps)
  else if !s.reserve new.1 env.budget then (s, 0, .dropped)
  else if new.2 && !env.overhead then (s, 0, .dropped)
  else
    ({ s with
        recvOOO := QuicOOOList.fillLoop off data (s.recvOOO.len + 1) s.recvOOO first
          (s.recvOOO.before first) off
        oooBytes := s.oooBytes + new.1 }, new.1, .stored)

/-- The loop of `coalesceOOO`, with the number of segments consumed. -/
def coalesceLoop : ℕ → QUICStream → ChunkPos → ℕ → QUICStream × ℕ
  | 0, s, _, consumed => (s, consumed)
  | fuel + 1, s, p, consumed =>
    if consumed < s.recvOOO.len then
      match s.recvOOO.at? p with
      | none => (s, consumed)
      | some seg =>
        if seg.off > s.recvOff then (s, consumed)
        else
          let t := { s with oooBytes := s.oooBytes - seg.data.length }
          let t :=
            if seg.stop ≤ t.recvOff then t
            else
              { t with
                recvBuf := t.recvBuf ++ seg.data.drop (t.recvOff - seg.off)
                recvOff := seg.stop }
          coalesceLoop fuel t (s.recvOOO.next p) (consumed + 1)
    else (s, consumed)

def coalesceOOO (s : QUICStream) : QUICStream :=
  let r := coalesceLoop s.recvOOO.len s ⟨0, 0⟩ 0
  if r.2 > 0 then { r.1 with recvOOO := r.1.recvOOO.dropFront r.2 } else r.1

def receiveData (s : QUICStream) (f : QuicStreamFrame) (env : RecvEnv) : Option (QUICStream × ℕ) :=
  if f.data.length > 0 ∧ f.stop > s.recvOff then
    let trim := s.recvOff - f.offset
    let data := if f.offset < s.recvOff then f.data.drop trim else f.data
    let offset := if f.offset < s.recvOff then s.recvOff else f.offset
    if offset = s.recvOff then
      (s.appendContig data env.budget).map fun t =>
        (if t.recvOOO.len > 0 then t.coalesceOOO else t, data.length)
    else
      let r := s.insertOOO offset data env
      match r.2.2 with
      | .stored => some (r.1, r.2.1)
      | .dropped => none
      | .tooManyGaps => none
  else some (s, 0)

def noteFin (s : QUICStream) (stop : ℕ) (fin : Bool) : QUICStream :=
  let s := if fin then { s with recvFinSeen := true, recvFinOff := stop } else s
  let s := if s.recvFinSeen ∧ s.recvOff ≥ s.recvFinOff then { s with recvFin := true } else s
  if s.recvFin = false ∧ s.recvOff ≥ s.maxRecv then { s with recvOverflow := true, recvFin := true } else s

def handleStreamFrame (s : QUICStream) (f : QuicStreamFrame) (env : RecvEnv) : QUICStream × RecvResult :=
  if s.recvClosed || s.recvOverflow then (s, .ignored)
  else if f.stop > s.recvGranted then (s, .violation)
  else if s.violatesFinalSize f.stop f.fin then (s, .finalSizeError)
  else if f.stop > s.recvMax ∧ env.credit = false then (s, .violation)
  else
    let s := if f.stop > s.recvMax then { s with recvMax := f.stop } else s
    match s.receiveData f env with
    | none => ({ s with recvClosed := true }, .rejected)
    | some (s, n) =>
      let s := s.noteFin f.stop f.fin
      (s, .accepted n s.recvFin)

/-- A `Read` into `n` bytes; it blocks while there is nothing to read. -/
def read (s : QUICStream) (n : ℕ) : QUICStream × List UInt8 :=
  ({ s with recvBuf := s.recvBuf.drop n }, s.recvBuf.take n)

def readAll (s : QUICStream) : QUICStream × List UInt8 :=
  if s.recvFin || s.recvClosed then ({ s with recvBuf := [] }, s.recvBuf) else (s, [])

def takeReceived (s : QUICStream) : QUICStream × List UInt8 := ({ s with recvBuf := [] }, s.recvBuf)

def streamCreditToGrant (s : QUICStream) : QUICStream × ℕ :=
  if s.recvFinSeen || decide (s.recvGranted ≥ s.maxRecv) ||
      decide (s.recvOff + s.recvWindow / 2 ≤ s.recvGranted) then (s, 0)
  else
    let grant := min (s.recvOff + s.recvWindow) s.maxRecv
    ({ s with recvGranted := grant }, grant)

/-- What the stream holds of `whole`, with `handed` taken out before. -/
structure Holds (whole handed : List UInt8) (s : QUICStream) : Prop where
  list : s.recvOOO.Inv
  wf : Segment.Wf whole s.recvOOO.segments
  ahead : ∀ seg ∈ s.recvOOO.segments, s.recvOff < seg.off
  bytes : s.oooBytes = Segment.total s.recvOOO.segments
  contiguous : handed ++ s.recvBuf = whole.take s.recvOff
  off_le : s.recvOff ≤ whole.length

def Has (s : QUICStream) (i : ℕ) : Prop := i < s.recvOff ∨ Segment.Covers s.recvOOO.segments i

def OnlyData (s t : QUICStream) : Prop :=
  t = { s with recvBuf := t.recvBuf, recvOff := t.recvOff, recvOOO := t.recvOOO, oooBytes := t.oooBytes }

structure Shaped (s : QUICStream) : Prop where
  list : s.recvOOO.Inv
  ordered : Segment.Ordered s.recvOOO.segments
  ahead : ∀ seg ∈ s.recvOOO.segments, s.recvOff < seg.off
  bytes : s.oooBytes = Segment.total s.recvOOO.segments

structure Carries (whole handed : List UInt8) (s : QUICStream) : Prop where
  piece : ∀ seg ∈ s.recvOOO.segments, IsPiece whole seg.off seg.data
  contiguous : handed ++ s.recvBuf = whole.take s.recvOff
  off_le : s.recvOff ≤ whole.length

variable {handed data : List UInt8} {s t : QUICStream} {env : RecvEnv} {off n : ℕ}
    {f : QuicStreamFrame}

variable {whole : List UInt8}

theorem Holds.shaped (h : s.Holds whole handed) : s.Shaped := ⟨h.list, h.wf.ordered, h.ahead, h.bytes⟩

theorem Holds.carries (h : s.Holds whole handed) : s.Carries whole handed := ⟨h.wf.piece, h.contiguous, h.off_le⟩

theorem Shaped.holds (h : s.Shaped) (hc : s.Carries whole handed) : s.Holds whole handed :=
  ⟨h.list, ⟨hc.piece, h.ordered.ne_nil, h.ordered.sorted⟩, h.ahead, h.bytes, hc.contiguous, hc.off_le⟩

theorem Holds.withRecvMax (h : s.Holds whole handed) (m : ℕ) : Holds whole handed { s with recvMax := m } :=
  ⟨h.list, h.wf, h.ahead, h.bytes, h.contiguous, h.off_le⟩

theorem Shaped.not_has_recvOff (h : s.Shaped) : ¬ s.Has s.recvOff := by
  rintro (hlt | ⟨seg, hseg, hle, -⟩)
  · exact lt_irrefl _ hlt
  · exact absurd (h.ahead seg hseg) (not_lt.mpr hle)

open Segment

theorem coalesceLoop_spec {fuel : ℕ} {p : ChunkPos} {done rest : List QuicOOOSegment}
    (hinv : s.recvOOO.Inv) (hat : Chunked.At s.recvOOO.chunks p done rest) (hfuel : rest.length ≤ fuel)
    (hbytes : s.oooBytes = total rest) :
    let d := Segment.drain s.recvOff s.recvBuf rest
    coalesceLoop fuel s p done.length = ({ s with
          recvOff := d.1
          recvBuf := d.2.1
          oooBytes := total (rest.drop d.2.2) }, done.length + d.2.2) := by
  induction fuel generalizing s p done rest with
  | zero =>
    obtain rfl : rest = [] := eq_nil_of_length_eq_zero (Nat.le_zero.mp hfuel)
    rw [coalesceLoop, Segment.drain]
    dsimp only
    rw [drop_zero, ← hbytes, add_zero]
  | succ fuel ih =>
    have hcount := hinv.count_at hat
    rw [coalesceLoop, show s.recvOOO.at? p = rest.head? from hat.get?]
    rcases rest with _ | ⟨seg, rest⟩
    · rw [if_neg (by rw [QuicOOOList.len, hcount, length_nil]; omega), Segment.drain]
      dsimp only
      rw [drop_zero, ← hbytes, add_zero]
    rw [if_pos (by rw [QuicOOOList.len, hcount, length_cons]; omega), head?_cons, Segment.drain]
    dsimp only
    by_cases hgap : seg.off > s.recvOff
    · rw [if_pos hgap, if_pos hgap]
      rw [drop_zero, ← hbytes, add_zero]
    rw [if_neg hgap, if_neg hgap]
    have hnext := hat.next hinv.filled
    have hrest : rest.length ≤ fuel := Nat.le_of_succ_le_succ hfuel
    have hless : s.oooBytes - seg.data.length = total rest := by
      rw [hbytes, total_cons, Nat.add_sub_cancel_left]
    have hlen : (done ++ [seg]).length = done.length + 1 := by
      rw [length_append, length_singleton]
    rw [hless, ← hlen]
    by_cases hold : seg.stop ≤ s.recvOff
    · rw [if_pos hold, if_pos hold]
      have hmore := ih (s := { s with oooBytes := total rest }) hinv hnext hrest rfl
      rw [QuicOOOList.next, hmore, drop_succ_cons, hlen, add_right_comm, add_assoc]
    rw [if_neg hold, if_neg hold]
    have hmore := ih (s := { s with
        oooBytes := total rest
        recvBuf := s.recvBuf ++ seg.data.drop (s.recvOff - seg.off)
        recvOff := seg.stop })
      hinv hnext hrest rfl
    rw [QuicOOOList.next, hmore, drop_succ_cons, hlen, add_right_comm, add_assoc]

theorem coalesceOOO_eq (hlist : s.recvOOO.Inv) (hbytes : s.oooBytes = total s.recvOOO.segments) :
    let d := Segment.drain s.recvOff s.recvBuf s.recvOOO.segments
    s.coalesceOOO = { s with
      recvOff := d.1
      recvBuf := d.2.1
      oooBytes := total (s.recvOOO.segments.drop d.2.2)
      recvOOO := s.recvOOO.dropFront d.2.2 } := by
  have hat : Chunked.At s.recvOOO.chunks ⟨0, 0⟩ [] s.recvOOO.segments := Chunked.At.start hlist.filled
  have hlen : s.recvOOO.len = s.recvOOO.segments.length := hlist.count_eq
  have hloop := coalesceLoop_spec hlist hat hlen.ge hbytes
  dsimp only [length_nil] at hloop
  unfold coalesceOOO
  rw [hloop]
  dsimp only
  rw [zero_add]
  by_cases hpos : (Segment.drain s.recvOff s.recvBuf s.recvOOO.segments).2.2 > 0
  · rw [if_pos hpos]
  · rw [if_neg hpos, Nat.eq_zero_of_not_pos hpos, QuicOOOList.dropFront_zero]

theorem coalesceOOO_shaped (hlist : s.recvOOO.Inv) (hord : Segment.Ordered s.recvOOO.segments)
    (hbytes : s.oooBytes = total s.recvOOO.segments) :
    s.coalesceOOO.Shaped ∧ (∀ i, s.coalesceOOO.Has i ↔ s.Has i) ∧ s.OnlyData s.coalesceOOO := by
  have heq := coalesceOOO_eq hlist hbytes
  obtain ⟨-, hahead, hcov⟩ := @Segment.drain_ordered _ _ s.recvOff s.recvBuf hord
  obtain ⟨hdrop, hsegs⟩ := QuicOOOList.dropFront_spec hlist (Segment.drain s.recvOff s.recvBuf s.recvOOO.segments).2.2
  rw [heq]
  generalize Segment.drain s.recvOff s.recvBuf s.recvOOO.segments = d at *
  refine ⟨⟨hdrop, ?_, ?_, ?_⟩, fun i => ?_, rfl⟩
  · rw [hsegs]
    exact hord.drop _
  · rw [hsegs]
    exact hahead
  · rw [hsegs]
  show i < d.1 ∨ Segment.Covers (s.recvOOO.dropFront d.2.2).segments i ↔ _
  rw [hsegs]
  exact hcov i

theorem coalesceOOO_carries (hlist : s.recvOOO.Inv)
    (hbytes : s.oooBytes = total s.recvOOO.segments) (h : s.Carries whole handed) :
    s.coalesceOOO.Carries whole handed := by
  have heq := coalesceOOO_eq hlist hbytes
  obtain ⟨hcont, hoff⟩ := drain_piece h.piece h.contiguous h.off_le
  obtain ⟨-, hsegs⟩ := QuicOOOList.dropFront_spec hlist (Segment.drain s.recvOff s.recvBuf s.recvOOO.segments).2.2
  rw [heq]
  refine ⟨?_, hcont, hoff⟩
  rw [hsegs]
  exact fun seg hseg => h.piece seg (mem_of_mem_drop hseg)

theorem insertOOO_stored (h : s.Shaped) (hr : s.insertOOO off data env = (t, n, .stored)) :
    ∃ done rest, s.recvOOO.segments = done ++ rest ∧ (∀ seg ∈ done, seg.stop ≤ off) ∧
      (∀ seg ∈ rest, off < seg.stop) ∧ t.recvOOO.Inv ∧
      t.recvOOO.segments = fill off data off done rest ∧ t.oooBytes = s.oooBytes + n ∧
      n = newBytes (off + data.length) off rest ∧
      t = { s with recvOOO := t.recvOOO, oooBytes := t.oooBytes } := by
  obtain ⟨done, rest, hat, hdone, hrest⟩ := QuicOOOList.firstEndingAfter_spec h.list h.ordered off
  have hsegs : s.recvOOO.segments = done ++ rest := hat.flatten_eq
  have hfuel : rest.length < s.recvOOO.len + 1 := by
    rw [QuicOOOList.len, h.list.count_at hat]
    omega
  have hnew : (s.oooNewBytes (s.recvOOO.firstEndingAfter off) off (off + data.length)).1 =
      newBytes (off + data.length) off rest := by
    rw [oooNewBytes, QuicOOOList.newBytesLoop_fst h.list hat hfuel, zero_add]
  obtain ⟨hinv', hfill⟩ := @QuicOOOList.fillLoop_spec _ _ _ _ _ off data _ off h.list hat
    (QuicOOOList.pointsTo_before h.list hat) hfuel
  refine ⟨done, rest, hsegs, hdone, hrest, ?_⟩
  unfold insertOOO at hr
  dsimp only at hr
  rw [hnew] at hr
  by_cases hzero : newBytes (off + data.length) off rest = 0
  · -- every byte of it is there
    rw [if_pos hzero] at hr
    obtain ⟨rfl, hn⟩ := Prod.mk.inj hr
    obtain ⟨rfl, -⟩ := Prod.mk.inj hn
    exact ⟨h.list, by rw [fill_of_newBytes_eq_zero hzero, hsegs], rfl, hzero.symm, rfl⟩
  rw [if_neg hzero] at hr
  split_ifs at hr
  · cases hr
  · cases hr
  · cases hr
  obtain ⟨rfl, hn⟩ := Prod.mk.inj hr
  obtain ⟨rfl, -⟩ := Prod.mk.inj hn
  exact ⟨hinv', hfill, rfl, rfl, rfl⟩

theorem insertOOO_shaped (h : s.Shaped) (hoff : s.recvOff < off) (hr : s.insertOOO off data env = (t, n, .stored)) :
    t.Shaped ∧ (∀ i, t.Has i ↔ s.Has i ∨ off ≤ i ∧ i < off + data.length) ∧ s.OnlyData t := by
  obtain ⟨done, rest, hsegs, hdone, hrest, hinv, hfill, hbytes, hn, ht⟩ := insertOOO_stored h hr
  obtain ⟨hord, hcov⟩ := @Segment.fill_ordered _ _ _ data off _ (hsegs ▸ h.ordered) le_rfl hdone hrest
  have htotal := @Segment.fill_total UInt8 done rest data off off le_rfl fun s hs => (hrest s hs).le
  have hrecvOff : t.recvOff = s.recvOff := by rw [ht]
  refine ⟨⟨hinv, ?_, ?_, ?_⟩, fun i => ?_, ?_⟩
  · rw [hfill]
    exact hord
  · rw [hfill, hrecvOff]
    intro seg hseg
    -- its first byte was there or is the piece's
    have hfirst := (hcov seg.off).mp ⟨seg, hseg, le_rfl, hord.off_lt_stop hseg⟩
    obtain ⟨old, hold, hle, -⟩ | ⟨hle, -⟩ := hfirst
    · exact (h.ahead old (hsegs ▸ hold)).trans_le hle
    · exact hoff.trans_le hle
  · rw [hbytes, hfill, htotal, h.bytes, hsegs, hn]
  · unfold Has
    rw [hrecvOff, hfill, hcov, ← hsegs, or_assoc]
  unfold OnlyData
  rw [ht]

theorem insertOOO_carries (h : s.Shaped) (hc : s.Carries whole handed) (hp : IsPiece whole off data)
    (hr : s.insertOOO off data env = (t, n, .stored)) : t.Carries whole handed := by
  obtain ⟨_, _, hsegs, _, hrest, -, hfill, -, -, ht⟩ := insertOOO_stored h hr
  obtain ⟨hpd, hpr⟩ := forall_mem_append.mp (hsegs ▸ hc.piece)
  have hpieces := fill_piece hpd hpr hp le_rfl fun s hs => (hrest s hs).le
  refine ⟨?_, ?_, ?_⟩
  · rw [hfill]
    exact hpieces
  · rw [ht]
    exact hc.contiguous
  rw [ht]
  exact hc.off_le

theorem appendContig_eq {budget : Bool} (hr : s.appendContig data budget = some t) :
    t = { s with recvBuf := s.recvBuf ++ data, recvOff := s.recvOff + data.length } := by
  unfold appendContig at hr
  split_ifs at hr
  exact (Option.some.inj hr).symm

theorem Shaped.segments_of_len_eq_zero (h : s.Shaped) (hlen : ¬ s.recvOOO.len > 0) : s.recvOOO.segments = [] :=
  eq_nil_of_length_eq_zero (h.list.count_eq ▸ Nat.eq_zero_of_not_pos hlen)

theorem appendContig_shaped {budget : Bool} (h : s.Shaped) (hr : s.appendContig data budget = some t) :
    let u := if t.recvOOO.len > 0 then t.coalesceOOO else t
    u.Shaped ∧ (∀ i, u.Has i ↔ s.Has i ∨ s.recvOff ≤ i ∧ i < s.recvOff + data.length) ∧ s.OnlyData u := by
  obtain rfl := appendContig_eq hr
  have hgrow : ∀ i, i < s.recvOff + data.length ∨ Segment.Covers s.recvOOO.segments i ↔
      s.Has i ∨ s.recvOff ≤ i ∧ i < s.recvOff + data.length := by
    intro i
    unfold Has
    rw [or_right_comm]
    apply or_congr_left
    omega
  split_ifs with hlen
  · obtain ⟨hshaped, hhas, honly⟩ := coalesceOOO_shaped
      (s := { s with recvBuf := s.recvBuf ++ data, recvOff := s.recvOff + data.length })
      h.list h.ordered h.bytes
    refine ⟨hshaped, fun i => (hhas i).trans (hgrow i), ?_⟩
    exact honly
  refine ⟨⟨h.list, h.ordered, ?_, h.bytes⟩, hgrow, rfl⟩
  rw [h.segments_of_len_eq_zero hlen]
  exact fun seg hseg => (by cases hseg)

theorem appendContig_carries {budget : Bool} (h : s.Shaped)
    (hc : s.Carries whole handed) (hp : IsPiece whole s.recvOff data) (hr : s.appendContig data budget = some t) :
    (if t.recvOOO.len > 0 then t.coalesceOOO else t).Carries whole handed := by
  obtain rfl := appendContig_eq hr
  have hcont : handed ++ (s.recvBuf ++ data) = whole.take (s.recvOff + data.length) := by
    have hext := hp.extend le_rfl (Nat.le_add_right _ _)
    rw [Nat.sub_self, drop_zero] at hext
    rw [← append_assoc, hc.contiguous, hext]
  have hcarries : Carries whole handed
      { s with recvBuf := s.recvBuf ++ data, recvOff := s.recvOff + data.length } := ⟨hc.piece, hcont, hp.1⟩
  split_ifs
  · exact coalesceOOO_carries h.list h.bytes hcarries
  · exact hcarries

theorem receiveData_cases (hr : s.receiveData f env = some (t, n)) :
    (¬ (f.data.length > 0 ∧ f.stop > s.recvOff) ∧ t = s ∧ n = 0) ∨ (f.offset ≤ s.recvOff ∧ s.recvOff < f.stop ∧
        n = (f.data.drop (s.recvOff - f.offset)).length ∧ f.stop = s.recvOff + n ∧
        ∃ u, s.appendContig (f.data.drop (s.recvOff - f.offset)) env.budget = some u ∧
          t = if u.recvOOO.len > 0 then u.coalesceOOO else u) ∨
      (f.data.length > 0 ∧ s.recvOff < f.offset ∧ s.insertOOO f.offset f.data env = (t, n, .stored)) := by
  unfold receiveData at hr
  by_cases hdata : f.data.length > 0 ∧ f.stop > s.recvOff
  · rw [if_pos hdata] at hr
    dsimp only at hr
    by_cases hahead : s.recvOff < f.offset
    · rw [if_neg (not_lt.mpr hahead.le), if_neg (not_lt.mpr hahead.le), if_neg hahead.ne'] at hr
      refine .inr (.inr ⟨hdata.1, hahead, ?_⟩)
      rcases hres : s.insertOOO f.offset f.data env with ⟨u, res⟩
      obtain ⟨m, res⟩ := res
      rw [hres] at hr
      cases res with
      | stored =>
        obtain ⟨rfl, rfl⟩ := Prod.mk.inj (Option.some.inj hr)
        rfl
      | dropped | tooManyGaps => cases hr
    · -- the part behind what is there
      have hstart : (if f.offset < s.recvOff then s.recvOff else f.offset) = s.recvOff := by
        split_ifs <;> omega
      have htail : (if f.offset < s.recvOff then f.data.drop (s.recvOff - f.offset) else f.data) =
          f.data.drop (s.recvOff - f.offset) := by
        split_ifs with hlt
        · rfl
        · rw [Nat.sub_eq_zero_of_le (not_lt.mp hlt), drop_zero]
      rw [hstart, htail, if_pos rfl] at hr
      obtain ⟨u, hu, hut⟩ := Option.map_eq_some_iff.mp hr
      obtain ⟨rfl, rfl⟩ := Prod.mk.inj hut
      refine .inr (.inl ⟨Nat.le_of_not_lt hahead, hdata.2, rfl, ?_, u, hu, rfl⟩)
      unfold QuicStreamFrame.stop at hdata ⊢
      rw [length_drop]
      omega
  rw [if_neg hdata] at hr
  obtain ⟨rfl, rfl⟩ := Prod.mk.inj (Option.some.inj hr)
  exact .inl ⟨hdata, rfl, rfl⟩

theorem receiveData_shaped (h : s.Shaped) (hr : s.receiveData f env = some (t, n)) :
    t.Shaped ∧ (∀ i, t.Has i ↔ s.Has i ∨ f.offset ≤ i ∧ i < f.stop) ∧ s.OnlyData t := by
  obtain ⟨hdata, rfl, -⟩ | ⟨_, hlt, hn, hstop, u, hu, rfl⟩ | ⟨-, hahead, hins⟩ := receiveData_cases hr
  · refine ⟨h, fun i => ?_, rfl⟩
    -- nothing, or nothing that is not there
    rw [iff_self_or]
    rintro ⟨_, hlt⟩
    refine Or.inl ?_
    unfold QuicStreamFrame.stop at hdata hlt
    omega
  · obtain ⟨hshaped, hhas, honly⟩ := appendContig_shaped h hu
    refine ⟨hshaped, fun i => ?_, honly⟩
    rw [hhas, ← hn, ← hstop]
    unfold Has
    rw [or_right_comm, or_right_comm (c := f.offset ≤ i ∧ i < f.stop)]
    apply or_congr_left
    omega
  · exact insertOOO_shaped h hahead hins

theorem receiveData_carries (h : s.Shaped) (hc : s.Carries whole handed)
    (hp : (whole.drop f.offset).take f.data.length = f.data) (hr : s.receiveData f env = some (t, n)) :
    t.Carries whole handed := by
  have hpiece (hpos : 0 < f.data.length) : IsPiece whole f.offset f.data := by
    refine ⟨?_, hp⟩
    have hlen := congrArg length hp
    rw [length_take, length_drop] at hlen
    omega
  obtain ⟨-, rfl, -⟩ | ⟨_, hlt, _, _, u, hu, rfl⟩ | ⟨hpos, -, hins⟩ := receiveData_cases hr
  · exact hc
  · refine appendContig_carries h hc ?_ hu
    unfold QuicStreamFrame.stop at hlt
    have hsub := (hpiece (by omega)).sub (a := s.recvOff - f.offset) (b := f.data.length) (by omega) le_rfl
    rw [← length_drop, take_length, show f.offset + (s.recvOff - f.offset) = s.recvOff by omega] at hsub
    exact hsub
  · exact insertOOO_carries h hc (hpiece hpos) hins

theorem receiveData_spec (h : s.Holds whole handed) (hp : (whole.drop f.offset).take f.data.length = f.data)
    (hr : s.receiveData f env = some (t, n)) :
    t.Holds whole handed ∧ (∀ i, t.Has i ↔ s.Has i ∨ f.offset ≤ i ∧ i < f.stop) ∧ s.OnlyData t := by
  obtain ⟨hshaped, hhas, honly⟩ := receiveData_shaped h.shaped hr
  exact ⟨hshaped.holds (receiveData_carries h.shaped h.carries hp hr), hhas, honly⟩

theorem handleStreamFrame_cases (s : QUICStream) (f : QuicStreamFrame) (env : RecvEnv)
    (h : (s.handleStreamFrame f env).2.isRejection = false) :
    (s.handleStreamFrame f env = (s, .ignored) ∧ (s.recvClosed || s.recvOverflow) = true) ∨
      ∃ m u n, s.violatesFinalSize f.stop f.fin = false ∧ s.recvClosed = false ∧ s.recvOverflow = false ∧
        (f.stop ≤ m ∧ s.recvMax ≤ m) ∧ { s with recvMax := m }.receiveData f env = some (u, n) ∧
        s.handleStreamFrame f env = (u.noteFin f.stop f.fin, .accepted n (u.noteFin f.stop f.fin).recvFin) := by
  unfold handleStreamFrame at h ⊢
  by_cases hclosed : (s.recvClosed || s.recvOverflow) = true
  · rw [if_pos hclosed]
    exact Or.inl ⟨rfl, hclosed⟩
  rw [if_neg hclosed] at h ⊢
  by_cases hgrant : f.stop > s.recvGranted
  · rw [if_pos hgrant] at h
    cases h
  rw [if_neg hgrant] at h ⊢
  by_cases hfinal : s.violatesFinalSize f.stop f.fin = true
  · rw [if_pos hfinal] at h
    cases h
  rw [if_neg hfinal] at h ⊢
  by_cases hcredit : f.stop > s.recvMax ∧ env.credit = false
  · rw [if_pos hcredit] at h
    cases h
  rw [if_neg hcredit] at h ⊢
  obtain ⟨hc, ho⟩ := Bool.or_eq_false_iff.mp (Bool.eq_false_iff.mpr hclosed)
  have hmax : (if f.stop > s.recvMax then { s with recvMax := f.stop } else s) =
      { s with recvMax := if f.stop > s.recvMax then f.stop else s.recvMax } := by
    split_ifs <;> rfl
  have hle : f.stop ≤ (if f.stop > s.recvMax then f.stop else s.recvMax) ∧
      s.recvMax ≤ (if f.stop > s.recvMax then f.stop else s.recvMax) := by
    split_ifs <;> omega
  rw [hmax] at h ⊢
  generalize (if f.stop > s.recvMax then f.stop else s.recvMax) = m at h hle ⊢
  dsimp only at h ⊢
  cases hdata : { s with recvMax := m }.receiveData f env with
  | none =>
    rw [hdata] at h
    cases h
  | some r =>
    exact Or.inr ⟨m, r.1, r.2, Bool.eq_false_iff.mpr hfinal, hc, ho, hle, hdata, rfl⟩

theorem noteFin_eq (u : QUICStream) (stop : ℕ) (fin : Bool) :
    let seen := u.recvFinSeen || fin
    let finOff := if fin then stop else u.recvFinOff
    let ended := u.recvFin || decide (seen = true ∧ u.recvOff ≥ finOff)
    u.noteFin stop fin = { u with
      recvFinSeen := seen
      recvFinOff := finOff
      recvFin := ended || decide (u.recvOff ≥ u.maxRecv)
      recvOverflow := u.recvOverflow || !ended && decide (u.recvOff ≥ u.maxRecv) } := by
  have hfin : (if fin then { u with recvFinSeen := true, recvFinOff := stop } else u) =
      { u with recvFinSeen := u.recvFinSeen || fin, recvFinOff := if fin then stop else u.recvFinOff } := by
    cases fin with
    | true => rw [if_pos rfl, if_pos rfl, Bool.or_true]
    | false => rw [if_neg Bool.false_ne_true, if_neg Bool.false_ne_true, Bool.or_false]
  unfold noteFin
  rw [hfin]
  generalize (u.recvFinSeen || fin) = seen
  generalize (if fin then stop else u.recvFinOff) = finOff
  dsimp only
  by_cases hend : seen = true ∧ u.recvOff ≥ finOff
  · simp [hend]
  rw [if_neg hend, decide_eq_false hend, Bool.or_false]
  by_cases hfull : u.recvOff ≥ u.maxRecv
  · cases u.recvFin with
    | true | false => simp [hfull]
  · rw [decide_eq_false hfull, if_neg (fun h => hfull h.2), Bool.and_false, Bool.or_false, Bool.or_false]

end QUICStream

inductive StreamEvent
  | frame (f : QuicStreamFrame) (env : RecvEnv)
  | read (n : ℕ)
  | readAll
  | takeReceived
  | credit

/-- A stream with what its reader was handed and what became of each frame. -/
structure StreamRun where
  stream : QUICStream
  handed : List UInt8 := []
  results : List (QuicStreamFrame × RecvResult) := []

namespace StreamRun

def step (r : StreamRun) : StreamEvent → StreamRun
  | .frame f env =>
    let h := r.stream.handleStreamFrame f env
    { r with stream := h.1, results := r.results ++ [(f, h.2)] }
  | .read n => { r with stream := (r.stream.read n).1, handed := r.handed ++ (r.stream.read n).2 }
  | .readAll => { r with stream := r.stream.readAll.1, handed := r.handed ++ r.stream.readAll.2 }
  | .takeReceived =>
    { r with stream := r.stream.takeReceived.1, handed := r.handed ++ r.stream.takeReceived.2 }
  | .credit => { r with stream := r.stream.streamCreditToGrant.1 }

def run (server : Option ServerLimits) (es : List StreamEvent) : StreamRun :=
  es.foldl step { stream := newQUICStream server }

def accepted (r : StreamRun) : List QuicStreamFrame := (r.results.filter fun x => x.2.isAccepted).map Prod.fst

def Arrived (r : StreamRun) (i : ℕ) : Prop := ∃ f ∈ r.accepted, f.offset ≤ i ∧ i < f.stop

/-- The stream of a run holds what arrived, and has ended as far as the frames and the cap say. -/
structure Tracks (whole : List UInt8) (cap : ℕ) (r : StreamRun) : Prop where
  holds : r.stream.Holds whole r.handed
  has : ∀ i, r.stream.Has i ↔ r.Arrived i
  finSeen : r.stream.recvFinSeen = true ↔ ∃ f ∈ r.accepted, f.fin = true
  finOff : ∀ f ∈ r.accepted, f.fin = true → f.stop = r.stream.recvFinOff
  fin_iff : r.stream.recvFin = true ↔
    (r.stream.recvFinSeen = true ∧ r.stream.recvFinOff ≤ r.stream.recvOff) ∨ cap ≤ r.stream.recvOff
  cap_eq : r.stream.maxRecv = cap
  notClosed : r.stream.recvClosed = false
  overflow : r.stream.recvOverflow = true → cap ≤ r.stream.recvOff
  ignored : ∀ x ∈ r.results, x.2 = .ignored → cap ≤ r.stream.recvOff

variable {whole : List UInt8} {cap : ℕ} {r : StreamRun}

theorem Tracks.le_recvOff_iff (h : r.Tracks whole cap) (n : ℕ) : n ≤ r.stream.recvOff ↔ ∀ i < n, r.Arrived i := by
  constructor
  · intro hn i hi
    exact (h.has i).mp (Or.inl (hi.trans_le hn))
  intro hall
  by_contra hlt
  exact h.holds.shaped.not_has_recvOff ((h.has _).mpr (hall _ (not_le.mp hlt)))

theorem accepted_append (r : StreamRun) (s : QUICStream) (f : QuicStreamFrame) (res : RecvResult) :
    accepted { r with stream := s, results := r.results ++ [(f, res)] } =
      if res.isAccepted then r.accepted ++ [f] else r.accepted := by
  unfold accepted
  rw [filter_append, map_append, filter_singleton]
  cases res.isAccepted with
  | true => rfl
  | false => exact append_nil _

theorem finOff_kept {s : QUICStream} {stop : ℕ} {fin : Bool} (h : s.violatesFinalSize stop fin = false)
    (hseen : s.recvFinSeen = true) : (if fin then stop else s.recvFinOff) = s.recvFinOff := by
  split_ifs with hfin
  · unfold QUICStream.violatesFinalSize at h
    rw [if_pos hseen, hfin] at h
    simpa using (Bool.or_eq_false_iff.mp h).2
  · rfl

section
variable (h : r.Tracks whole cap)
include h

theorem Tracks.accept {f : QuicStreamFrame} {env : RecvEnv} {m n : ℕ} {u : QUICStream}
    {res : RecvResult} (hp : (whole.drop f.offset).take f.data.length = f.data)
    (hfinal : r.stream.violatesFinalSize f.stop f.fin = false)
    (hdata : { r.stream with recvMax := m }.receiveData f env = some (u, n)) (hres : res.isAccepted = true) :
    Tracks whole cap
      { r with stream := u.noteFin f.stop f.fin, results := r.results ++ [(f, res)] } := by
  obtain ⟨hholds, hhas, honly⟩ := QUICStream.receiveData_spec (h.holds.withRecvMax m) hp hdata
  have hacc := accepted_append r (u.noteFin f.stop f.fin) f res
  rw [if_pos hres] at hacc
  -- the contiguous data only grows
  have hgrow : r.stream.recvOff ≤ u.recvOff := by
    by_contra hlt
    exact hholds.shaped.not_has_recvOff ((hhas _).mpr (Or.inl (Or.inl (not_le.mp hlt))))
  have hnote := QUICStream.noteFin_eq u f.stop f.fin
  have hcap : u.maxRecv = cap := by rw [honly]; exact h.cap_eq
  have hseen : u.recvFinSeen = r.stream.recvFinSeen := by rw [honly]
  have hoff : u.recvFinOff = r.stream.recvFinOff := by rw [honly]
  have hfin : u.recvFin = r.stream.recvFin := by rw [honly]
  have hover : u.recvOverflow = r.stream.recvOverflow := by rw [honly]
  have hclosed : u.recvClosed = false := by rw [honly]; exact h.notClosed
  rw [hseen, hoff, hfin, hcap, hover] at hnote
  have hkeep := finOff_kept hfinal
  refine ⟨?_, fun i => ?_, ?_, ?_, ?_, ?_, ?_, ?_, ?_⟩
  · rw [hnote]
    exact ⟨hholds.list, hholds.wf, hholds.ahead, hholds.bytes, hholds.contiguous, hholds.off_le⟩
  · refine Iff.trans ?_ ((hhas i).trans ?_)
    · rw [hnote]
      rfl
    rw [show QUICStream.Has { r.stream with recvMax := m } i ↔ r.Arrived i from h.has i]
    unfold Arrived
    rw [hacc]
    simp only [mem_append, mem_singleton, or_and_right, exists_or, exists_eq_left]
  · rw [hacc, hnote]
    rw [Bool.or_eq_true, h.finSeen]
    simp only [mem_append, mem_singleton, or_and_right, exists_or, exists_eq_left]
  · rw [hacc, hnote]
    intro g hg hfin
    obtain hg | hg := mem_append.mp hg
    · rw [h.finOff g hg hfin]
      exact (hkeep (h.finSeen.mpr ⟨g, hg, hfin⟩)).symm
    rw [mem_singleton.mp hg] at hfin ⊢
    rw [if_pos hfin]
  · rw [hnote]
    simp only [Bool.or_eq_true, decide_eq_true_eq, ge_iff_le]
    constructor
    · rintro ((hold | hend) | hfull)
      · obtain ⟨hs, hle⟩ | hle := h.fin_iff.mp hold
        · refine Or.inl ⟨Or.inl hs, ?_⟩
          rw [hkeep hs]
          exact hle.trans hgrow
        · exact Or.inr (hle.trans hgrow)
      · exact Or.inl hend
      · exact Or.inr hfull
    rintro (hend | hfull)
    · exact Or.inl (Or.inr hend)
    · exact Or.inr hfull
  · rw [hnote]
  · rw [hnote]
    exact hclosed
  · rw [hnote]
    intro hov
    obtain hov | hov := Bool.or_eq_true_iff.mp hov
    · exact (h.overflow hov).trans hgrow
    · exact of_decide_eq_true (Bool.and_eq_true_iff.mp hov).2
  rw [hnote]
  intro x hx hign
  obtain hx | hx := mem_append.mp hx
  · exact (h.ignored x hx hign).trans hgrow
  rw [mem_singleton.mp hx] at hign
  rw [show res = .ignored from hign] at hres
  cases hres

theorem Tracks.frame {f : QuicStreamFrame} {env : RecvEnv} (hp : (whole.drop f.offset).take f.data.length = f.data)
    (hres : (r.stream.handleStreamFrame f env).2.isRejection = false) :
    (r.step (.frame f env)).Tracks whole cap := by
  unfold step
  dsimp only
  obtain ⟨heq, hend⟩ | ⟨m, u, n, hfinal, _, _, -, hdata, heq⟩ := QUICStream.handleStreamFrame_cases r.stream f env hres
  · rw [heq]
    rw [h.notClosed, Bool.false_or] at hend
    have hacc := accepted_append r r.stream f .ignored
    refine ⟨h.holds, fun i => ?_, ?_, ?_, h.fin_iff, h.cap_eq, h.notClosed, h.overflow, ?_⟩
    · unfold Arrived
      rw [hacc]
      exact h.has i
    · rw [hacc]
      exact h.finSeen
    · rw [hacc]
      exact h.finOff
    · exact fun _ _ _ => h.overflow hend
  rw [heq]
  exact h.accept hp hfinal hdata rfl

theorem Tracks.take {out buf : List UInt8} (hsplit : r.stream.recvBuf = out ++ buf) :
    Tracks whole cap { r with stream := { r.stream with recvBuf := buf }, handed := r.handed ++ out } where
  holds := by
    refine ⟨h.holds.list, h.holds.wf, h.holds.ahead, h.holds.bytes, ?_, h.holds.off_le⟩
    rw [append_assoc, ← hsplit, h.holds.contiguous]
  has := h.has
  finSeen := h.finSeen
  finOff := h.finOff
  fin_iff := h.fin_iff
  cap_eq := h.cap_eq
  notClosed := h.notClosed
  overflow := h.overflow
  ignored := h.ignored

theorem Tracks.credit : (r.step .credit).Tracks whole cap := by
  unfold step QUICStream.streamCreditToGrant
  split_ifs
  · exact h
  exact ⟨⟨h.holds.list, h.holds.wf, h.holds.ahead, h.holds.bytes, h.holds.contiguous, h.holds.off_le⟩,
    h.has, h.finSeen, h.finOff, h.fin_iff, h.cap_eq, h.notClosed, h.overflow, h.ignored⟩

theorem Tracks.readAll : (r.step .readAll).Tracks whole cap := by
  unfold step QUICStream.readAll
  split_ifs
  · exact h.take (append_nil _).symm
  rw [append_nil]
  exact h

end

def Carries (whole : List UInt8) : StreamEvent → Prop
  | .frame f _ => (whole.drop f.offset).take f.data.length = f.data
  | .read _ | .readAll | .takeReceived | .credit => True

theorem results_step (r : StreamRun) (e : StreamEvent) : ∃ new, (r.step e).results = r.results ++ new := by
  cases e with
  | frame f env => exact ⟨_, rfl⟩
  | read | readAll | takeReceived | credit => exact ⟨[], (append_nil _).symm⟩

theorem Tracks.step (h : r.Tracks whole cap) {e : StreamEvent} (he : Carries whole e)
    (hres : ∀ x ∈ (r.step e).results, x.2.isRejection = false) : (r.step e).Tracks whole cap := by
  cases e with
  | frame f env => exact h.frame he (hres (f, _) (mem_append_right _ mem_cons_self))
  | read n => exact h.take (take_append_drop n _).symm
  | readAll => exact h.readAll
  | takeReceived => exact h.take (append_nil _).symm
  | credit => exact h.credit

variable (server : Option ServerLimits)

theorem quicStreamRecvLimit_pos : 0 < quicStreamRecvLimit server := by
  unfold quicStreamRecvLimit
  rcases server with _ | c
  · decide
  dsimp only
  split_ifs with hpos
  · omega
  · decide

theorem quicStreamRecvCap_pos : 0 < quicStreamRecvCap server (quicStreamRecvLimit server) := by
  have hlimit := quicStreamRecvLimit_pos server
  generalize quicStreamRecvLimit server = window at hlimit ⊢
  unfold quicStreamRecvCap
  rcases server with _ | c
  · exact hlimit
  dsimp only
  split_ifs with hneg hcap
  · decide
  · exact hlimit
  · omega

theorem tracks_new (whole : List UInt8) :
    Tracks whole (quicStreamRecvCap server (quicStreamRecvLimit server)) { stream := newQUICStream server } where
  holds :=
    { list := ⟨Chunked.filled_nil, rfl⟩
      wf := ⟨fun _ h => (by cases h), fun _ h => (by cases h), List.Pairwise.nil⟩
      ahead := fun _ h => (by cases h)
      bytes := rfl
      contiguous := rfl
      off_le := Nat.zero_le _ }
  has i := by
    constructor
    · rintro (h | ⟨seg, h, -⟩)
      · exact absurd h (Nat.not_lt_zero i)
      · cases h
    rintro ⟨f, h, -⟩
    cases h
  finSeen := by
    constructor
    · exact fun h => absurd h Bool.false_ne_true
    rintro ⟨f, h, -⟩
    cases h
  finOff f h := by cases h
  fin_iff := by
    constructor
    · exact fun h => absurd h Bool.false_ne_true
    rintro (⟨h, -⟩ | h)
    · exact absurd h Bool.false_ne_true
    · exact absurd h (Nat.not_le.mpr (quicStreamRecvCap_pos server))
  cap_eq := rfl
  notClosed := rfl
  overflow h := absurd h Bool.false_ne_true
  ignored x h := by cases h

theorem tracks_run (whole : List UInt8) (es : List StreamEvent)
    (hes : ∀ e ∈ es, Carries whole e) (hres : ∀ x ∈ (run server es).results, x.2.isRejection = false) :
    (run server es).Tracks whole (quicStreamRecvCap server (quicStreamRecvLimit server)) := by
  induction es using reverseRecOn with
  | nil => exact tracks_new server whole
  | append_singleton es e ih =>
    rw [run, foldl_append] at hres ⊢
    obtain ⟨new, hnew⟩ := results_step (run server es) e
    have hold := ih (fun d hd => hes d (mem_append_left _ hd)) fun x hx =>
      hres x (hnew ▸ mem_append_left new hx)
    exact hold.step (hes e (mem_append_right _ mem_cons_self)) hres

end StreamRun

open StreamRun

/-- As long as no frame is rejected, the reader has the longest front part of the sent bytes that
arrived, and the stream has ended with the announced end or a full receive cap. -/
theorem quicStream_reassembles (server : Option ServerLimits) (whole : List UInt8) (es : List StreamEvent)
    (hes : ∀ e ∈ es, StreamRun.Carries whole e)
    (hres : ∀ x ∈ (StreamRun.run server es).results, x.2.isRejection = false) :
    let r := StreamRun.run server es
    let cap := quicStreamRecvCap server (quicStreamRecvLimit server)
    (∃ n, r.handed ++ r.stream.recvBuf = whole.take n ∧ n ≤ whole.length ∧ (∀ i < n, r.Arrived i) ∧ ¬ r.Arrived n) ∧
    (r.stream.recvFin = true ↔ (∃ f ∈ r.accepted, f.fin = true ∧ ∀ i < f.stop, r.Arrived i) ∨ ∀ i < cap, r.Arrived i) ∧
    (∀ f ∈ r.accepted, ∀ g ∈ r.accepted, f.fin = true → g.fin = true → f.stop = g.stop) ∧
    ∀ x ∈ r.results, x.2 = .ignored → ∀ i < cap, r.Arrived i := by
  intro r cap
  have h : r.Tracks whole cap := tracks_run server whole es hes hres
  refine ⟨⟨r.stream.recvOff, h.holds.contiguous, h.holds.off_le, ?_, ?_⟩, ?_, ?_, ?_⟩
  · exact (h.le_recvOff_iff _).mp le_rfl
  · exact fun harr => h.holds.shaped.not_has_recvOff ((h.has _).mpr harr)
  · rw [h.fin_iff, h.le_recvOff_iff, h.finSeen, h.le_recvOff_iff]
    apply or_congr_left
    constructor
    · rintro ⟨⟨f, hf, hfin⟩, hall⟩
      exact ⟨f, hf, hfin, h.finOff f hf hfin ▸ hall⟩
    rintro ⟨f, hf, hfin, hall⟩
    exact ⟨⟨f, hf, hfin⟩, h.finOff f hf hfin ▸ hall⟩
  · intro f hf g hg hffin hgfin
    rw [h.finOff f hf hffin, h.finOff g hg hgfin]
  · exact fun x hx hign => (h.le_recvOff_iff _).mp (h.ignored x hx hign)

theorem quicStream_reassembles_overlap :
    let es := [StreamEvent.frame ⟨2, [30, 40, 50], true⟩ {}, .read 4, .frame ⟨0, [10, 20, 30], false⟩ {}, .read 1]
    (StreamRun.run none es).handed = [10] ∧ (StreamRun.run none es).stream.recvBuf = [20, 30, 40, 50] ∧
      ((StreamRun.run none es).stream.recvFin = true ↔
        (∃ f ∈ (StreamRun.run none es).accepted, f.fin = true ∧ ∀ i < f.stop, (StreamRun.run none es).Arrived i) ∨
          ∀ i < 2 ^ 18, (StreamRun.run none es).Arrived i) := by
  intro es
  refine ⟨by decide, by decide, ?_⟩
  have hmain := quicStream_reassembles none [10, 20, 30, 40, 50] es ?_ (by decide)
  · exact hmain.2.1
  · intro e he
    simp only [es, mem_cons, not_mem_nil, or_false] at he
    obtain rfl | rfl | rfl | rfl := he
    · rfl
    · trivial
    · rfl
    · trivial

open QUICStream

theorem fullFrame_ends (n : ℕ) (hn : 0 < n) : handleStreamFrame { maxRecv := n, recvWindow := n, recvGranted := n }
      ⟨0, replicate n 0, false⟩ {} =
    ({ maxRecv := n, recvWindow := n, recvGranted := n, recvBuf := replicate n 0, recvOff := n, recvMax := n,
       recvFin := true, recvOverflow := true }, .accepted n true) := by
  simp [handleStreamFrame, QuicStreamFrame.stop, violatesFinalSize, hn,
    receiveData, appendContig, reserve, outstanding, QuicOOOList.len,
    noteFin, hn.ne']

theorem fullFrame_run {server : Option ServerLimits} {n : ℕ} (hn : 0 < n)
    (hnew : newQUICStream server = { maxRecv := n, recvWindow := n, recvGranted := n }) :
    let es := [StreamEvent.frame ⟨0, replicate n 0, false⟩ {}]
    (∀ e ∈ es, StreamRun.Carries (replicate n 0) e) ∧ (∀ x ∈ (run server es).results, x.2.isRejection = false) ∧
      (run server es).stream.recvFin = true ∧ ∀ f ∈ (run server es).accepted, f.fin = false := by
  intro es
  have hrun : run server es = step { stream := newQUICStream server } (.frame ⟨0, replicate n 0, false⟩ {}) := rfl
  rw [hrun, step, hnew]
  rw [fullFrame_ends n hn]
  refine ⟨?_, ?_, rfl, ?_⟩
  · intro e he
    rw [mem_singleton.mp he]
    show ((replicate n (0 : UInt8)).drop 0).take (replicate n (0 : UInt8)).length = _
    rw [drop_zero, take_length]
  · intro x hx
    rw [mem_singleton.mp hx]
    rfl
  intro f hf
  rw [mem_singleton.mp hf]

theorem quicStream_ends_without_fin :
    let server : Option ServerLimits := some ⟨16386, 1, 1⟩
    let es := [StreamEvent.frame ⟨0, replicate 16386 0, false⟩ {}]
    (∀ e ∈ es, StreamRun.Carries (replicate 16386 0) e) ∧
      (∀ x ∈ (StreamRun.run server es).results, x.2.isRejection = false) ∧
      (StreamRun.run server es).stream.recvFin = true ∧ ∀ f ∈ (StreamRun.run server es).accepted, f.fin = false :=
  fullFrame_run (by decide) (by decide)

end AlosHttp.Quic

import AlosHttp.Quic.Stream

/-! What a stream reports to connection-level flow control: the counts of its STREAM frames and of a
RESET_STREAM at the end. -/
namespace AlosHttp.Quic
open AlosHttp.Data List

def quicErrFlowControl : ℕ := 0x03
def quicErrFinalSize : ℕ := 0x06

def QuicOOOList.last (l : QuicOOOList) : Option QuicOOOSegment := l.chunks.getLast?.bind (·.getLast?)

namespace QUICStream

/-- The end of what was received and how many bytes of it are there. -/
def receivedExtent (s : QUICStream) : ℕ × ℕ :=
  let highest := if s.recvOOO.len > 0 then (s.recvOOO.last.map Segment.stop).getD 0 else s.recvOff
  (highest, s.recvOff + s.oooBytes)

/-- The bytes that RESET_STREAM adds to the count, or an error code. `credit` says whether the
connection has credit for them. -/
def applyPeerReset (s : QUICStream) (finalSize : ℕ) (credit : Bool) : QUICStream × Except ℕ ℕ :=
  let (highest, unique) := s.receivedExtent
  if (s.recvFinSeen ∧ finalSize ≠ s.recvFinOff) ∨ finalSize < max highest s.recvMax then (s, .error quicErrFinalSize)
  else if finalSize > s.recvGranted then (s, .error quicErrFlowControl)
  else if finalSize > s.recvMax ∧ credit = false then (s, .error quicErrFlowControl)
  else
    let s := if finalSize > s.recvMax then { s with recvMax := finalSize } else s
    if s.recvReset then (s, .ok 0)
    else
      ({ s with recvReset := true, recvFinSeen := true, recvFinOff := finalSize, recvClosed := true },
        .ok (finalSize - unique))

variable {s : QUICStream}

theorem applyPeerReset_ok {t : QUICStream} {finalSize u : ℕ} {credit : Bool} (hreset : s.recvReset = false)
    (hr : s.applyPeerReset finalSize credit = (t, .ok u)) :
    s.recvMax ≤ finalSize ∧ u = finalSize - (s.recvOff + s.oooBytes) := by
  unfold applyPeerReset receivedExtent at hr
  dsimp only at hr
  split_ifs at hr <;> simp_all

/-- The frame reaches behind the contiguous data and over bytes that are there ahead of a gap. -/
def Recounts (s : QUICStream) (f : QuicStreamFrame) : Prop :=
  f.offset ≤ s.recvOff ∧ s.recvOff < f.stop ∧ ∃ seg ∈ s.recvOOO.segments, seg.off < f.stop

instance (s : QUICStream) (f : QuicStreamFrame) : Decidable (s.Recounts f) := inferInstanceAs (Decidable (_ ∧ _))

def present (s : QUICStream) : Finset ℕ := Finset.range s.recvOff ∪ Segment.coverSet s.recvOOO.segments

theorem mem_present (s : QUICStream) (i : ℕ) : i ∈ s.present ↔ s.Has i := by
  rw [present, Finset.mem_union, Finset.mem_range, Segment.mem_coverSet, Has]

theorem Shaped.card_present (h : s.Shaped) : s.present.card = s.recvOff + s.oooBytes := by
  have hdisjoint : Disjoint (Finset.range s.recvOff) (Segment.coverSet s.recvOOO.segments) := by
    rw [Finset.disjoint_left]
    intro i hi hmem
    obtain ⟨seg, hseg, _, -⟩ := (Segment.mem_coverSet _ i).mp hmem
    have hahead := h.ahead seg hseg
    have hlt := Finset.mem_range.mp hi
    omega
  rw [present, Finset.card_union_of_disjoint hdisjoint, Finset.card_range, h.ordered.card_coverSet, h.bytes]

def recounted (s : QUICStream) (f : QuicStreamFrame) : ℕ :=
  if f.offset ≤ s.recvOff then (Finset.Ico s.recvOff f.stop ∩ s.present).card else 0

theorem Shaped.recounted_eq_zero_iff (h : s.Shaped) (f : QuicStreamFrame) : s.recounted f = 0 ↔ ¬ s.Recounts f := by
  unfold recounted Recounts
  split_ifs with hoff
  · rw [Finset.card_eq_zero, Finset.eq_empty_iff_forall_notMem]
    constructor
    · rintro hnone ⟨-, hlt, seg, hseg, hstop⟩
      refine hnone seg.off (Finset.mem_inter.mpr ⟨Finset.mem_Ico.mpr ⟨(h.ahead seg hseg).le, hstop⟩, ?_⟩)
      exact (s.mem_present _).mpr (.inr ⟨seg, hseg, le_rfl, h.ordered.off_lt_stop hseg⟩)
    rintro hnone i hi
    obtain ⟨hi, hmem⟩ := Finset.mem_inter.mp hi
    obtain ⟨_, hlt⟩ := Finset.mem_Ico.mp hi
    obtain _ | ⟨seg, hseg, _, -⟩ := (s.mem_present i).mp hmem
    · omega
    · exact hnone ⟨hoff, by omega, seg, hseg, by omega⟩
  · simp [hoff]

theorem receiveData_count {t : QUICStream} {f : QuicStreamFrame} {n : ℕ} {env : RecvEnv} (h : s.Shaped)
    (hr : s.receiveData f env = some (t, n)) :
    s.present.card + n = t.present.card + s.recounted f := by
  obtain ⟨hshaped, hhas, -⟩ := receiveData_shaped h hr
  obtain ⟨hdata, rfl, rfl⟩ | ⟨hoff, hlt, _, _, -⟩ | ⟨-, hahead, hins⟩ := receiveData_cases hr
  · have hnone : t.recounted f = 0 := by
      rw [h.recounted_eq_zero_iff]
      rintro ⟨hoff, hlt, -⟩
      unfold QuicStreamFrame.stop at hdata hlt
      omega
    rw [hnone]
  · have hunion : t.present = s.present ∪ Finset.Ico s.recvOff f.stop := by
      ext i
      rw [mem_present, hhas, Finset.mem_union, mem_present, Finset.mem_Ico]
      unfold Has
      rw [or_right_comm, or_right_comm (c := s.recvOff ≤ i ∧ i < f.stop)]
      apply or_congr_left
      omega
    have hcard := Finset.card_union_add_card_inter s.present (Finset.Ico s.recvOff f.stop)
    rw [Nat.card_Ico, ← hunion, Finset.inter_comm] at hcard
    rw [recounted, if_pos hoff]
    omega
  obtain ⟨_, _, -, -, -, -, -, hbytes, -, ht⟩ := insertOOO_stored h hins
  have hoff : t.recvOff = s.recvOff := by rw [ht]
  rw [recounted, if_neg (not_le.mpr hahead), h.card_present, hshaped.card_present, hoff, hbytes]
  omega

theorem noteFin_present (s : QUICStream) (stop : ℕ) (fin : Bool) : (s.noteFin stop fin).present = s.present := by
  rw [noteFin_eq]
  rfl

end QUICStream

def offsetsOf : List QuicStreamFrame → Finset ℕ
  | [] => ∅
  | f :: fs => Finset.Ico f.offset f.stop ∪ offsetsOf fs

theorem mem_offsetsOf (fs : List QuicStreamFrame) (i : ℕ) : i ∈ offsetsOf fs ↔ ∃ f ∈ fs, f.offset ≤ i ∧ i < f.stop := by
  induction fs with
  | nil => simp [offsetsOf]
  | cons f fs ih => rw [offsetsOf, Finset.mem_union, Finset.mem_Ico, ih, exists_mem_cons_iff]

def RecvResult.count : RecvResult → ℕ
  | .accepted n _ => n
  | .ignored | .violation | .finalSizeError | .rejected => 0

namespace StreamRun

def counted (r : StreamRun) : ℕ := (r.results.map fun x => x.2.count).sum

def received (r : StreamRun) : Finset ℕ := offsetsOf (r.results.map Prod.fst)

/-- Each frame ends within the limit the stream has granted and within the largest size of a stream,
and is not refused. -/
def WithinLimits : StreamRun → List StreamEvent → Prop
  | _, [] => True
  | r, .frame f env :: es =>
    f.stop ≤ min r.stream.recvGranted quicStreamRecvUnlimitedCap ∧
      (r.stream.handleStreamFrame f env).2.isRejection = false ∧
      WithinLimits (r.step (.frame f env)) es
  | r, e :: es => WithinLimits (r.step e) es

def NeverRecounts : StreamRun → List StreamEvent → Prop
  | _, [] => True
  | r, .frame f env :: es => ¬ r.stream.Recounts f ∧ NeverRecounts (r.step (.frame f env)) es
  | r, e :: es => NeverRecounts (r.step e) es

def recounted : StreamRun → List StreamEvent → ℕ
  | _, [] => 0
  | r, .frame f env :: es => r.stream.recounted f + recounted (r.step (.frame f env)) es
  | r, e :: es => recounted (r.step e) es

structure Counts (r : StreamRun) : Prop where
  shaped : r.stream.Shaped
  present : r.stream.present = r.received
  below : ∀ i ∈ r.received, i < r.stream.recvMax
  granted : min r.stream.recvGranted quicStreamRecvUnlimitedCap ≤ r.stream.maxRecv
  notClosed : r.stream.recvClosed = false
  notReset : r.stream.recvReset = false
  overflow : r.stream.recvOverflow = true → r.stream.maxRecv ≤ r.stream.recvOff

variable {r : StreamRun}

theorem received_step (r : StreamRun) (f : QuicStreamFrame) (env : RecvEnv) :
    (r.step (.frame f env)).received = r.received ∪ Finset.Ico f.offset f.stop := by
  ext i
  change i ∈ offsetsOf ((r.results ++ [(f, _)]).map Prod.fst) ↔ i ∈ offsetsOf (r.results.map Prod.fst) ∪ _
  rw [map_append, mem_offsetsOf, Finset.mem_union, mem_offsetsOf, Finset.mem_Ico]
  simp only [mem_append, map_cons, map_nil, mem_singleton, or_and_right, exists_or, exists_eq_left]

theorem counted_step (r : StreamRun) (f : QuicStreamFrame) (env : RecvEnv) :
    (r.step (.frame f env)).counted = r.counted + (r.stream.handleStreamFrame f env).2.count := by
  change ((r.results ++ [(f, _)]).map _).sum = _
  rw [map_append, sum_append]
  rfl

section
variable (h : r.Counts)
include h

theorem Counts.of_same {r' : StreamRun} (hstream : r'.stream = r.stream)
    (hreceived : r'.received = r.received) : r'.Counts where
  shaped := by
    rw [hstream]
    exact h.shaped
  present := by
    rw [hstream, hreceived]
    exact h.present
  below := by
    rw [hstream, hreceived]
    exact h.below
  granted := by
    rw [hstream]
    exact h.granted
  notClosed := by
    rw [hstream]
    exact h.notClosed
  notReset := by
    rw [hstream]
    exact h.notReset
  overflow := by
    rw [hstream]
    exact h.overflow

variable {f : QuicStreamFrame}
open Finset

theorem Counts.full (hfull : r.stream.recvOverflow = true)
    (hstop : f.stop ≤ min r.stream.recvGranted quicStreamRecvUnlimitedCap) :
    r.received ∪ Finset.Ico f.offset f.stop = r.received ∧ r.stream.recounted f = 0 := by
  have hoff := h.overflow hfull
  have hgranted := h.granted
  constructor
  · rw [union_eq_left]
    intro i hi
    rw [← h.present, QUICStream.mem_present]
    have := (mem_Ico.mp hi).2
    exact .inl (by omega)
  rw [h.shaped.recounted_eq_zero_iff]
  rintro ⟨-, _, -⟩
  omega

theorem Counts.taken {env : RecvEnv} {m n : ℕ} {u : QUICStream}
    (hover : r.stream.recvOverflow = false) (hm : f.stop ≤ m ∧ r.stream.recvMax ≤ m)
    (hdata : { r.stream with recvMax := m }.receiveData f env = some (u, n))
    (heq : r.stream.handleStreamFrame f env = (u.noteFin f.stop f.fin, .accepted n (u.noteFin f.stop f.fin).recvFin)) :
    (r.step (.frame f env)).Counts ∧ r.received.card + (r.stream.handleStreamFrame f env).2.count =
        (r.step (.frame f env)).received.card + r.stream.recounted f := by
  have hreceived := received_step r f env
  have hshaped : QUICStream.Shaped { r.stream with recvMax := m } :=
    ⟨h.shaped.list, h.shaped.ordered, h.shaped.ahead, h.shaped.bytes⟩
  obtain ⟨hu, hhas, honly⟩ := QUICStream.receiveData_shaped hshaped hdata
  have hcount := QUICStream.receiveData_count hshaped hdata
  have hpresent : u.present = (r.step (.frame f env)).received := by
    ext i
    rw [QUICStream.mem_present, hhas, hreceived, mem_union, ← h.present, QUICStream.mem_present, mem_Ico]
    rfl
  have hstream : (r.step (.frame f env)).stream = u.noteFin f.stop f.fin := by
    change (r.stream.handleStreamFrame f env).1 = _
    rw [heq]
  have hnote := QUICStream.noteFin_eq u f.stop f.fin
  have hmax : u.recvMax = m := by rw [honly]
  have hgranted : u.recvGranted = r.stream.recvGranted ∧ u.maxRecv = r.stream.maxRecv := by
    rw [honly]
    exact ⟨rfl, rfl⟩
  have hflags : u.recvClosed = false ∧ u.recvReset = false ∧ u.recvOverflow = false := by
    rw [honly]
    exact ⟨h.notClosed, h.notReset, hover⟩
  refine ⟨⟨?_, ?_, fun i hi => ?_, ?_, ?_, ?_, fun hov => ?_⟩, ?_⟩
  · rw [hstream, hnote]
    exact ⟨hu.list, hu.ordered, hu.ahead, hu.bytes⟩
  · rw [hstream, QUICStream.noteFin_present, hpresent]
  · rw [hstream, hnote]
    rw [hmax]
    rw [hreceived] at hi
    obtain hi | hi := mem_union.mp hi
    · have := h.below i hi
      omega
    have := (mem_Ico.mp hi).2
    omega
  · rw [hstream, hnote]
    rw [hgranted.1, hgranted.2]
    exact h.granted
  · rw [hstream, hnote]
    exact hflags.1
  · rw [hstream, hnote]
    exact hflags.2.1
  · rw [hstream, hnote] at hov ⊢
    rw [hflags.2.2, Bool.false_or] at hov
    exact of_decide_eq_true (Bool.and_eq_true_iff.mp hov).2
  rw [heq, ← hpresent, ← h.present]
  exact hcount

theorem Counts.frame {env : RecvEnv} (hstop : f.stop ≤ min r.stream.recvGranted quicStreamRecvUnlimitedCap)
    (hres : (r.stream.handleStreamFrame f env).2.isRejection = false) :
    (r.step (.frame f env)).Counts ∧ r.received.card + (r.stream.handleStreamFrame f env).2.count =
        (r.step (.frame f env)).received.card + r.stream.recounted f := by
  obtain ⟨heq, hend⟩ | ⟨m, u, n, -, -, hover, hm, hdata, heq⟩ := QUICStream.handleStreamFrame_cases r.stream f env hres
  · rw [h.notClosed, Bool.false_or] at hend
    obtain ⟨hunion, hnone⟩ := h.full hend hstop
    have hsame : (r.step (.frame f env)).received = r.received := by
      rw [received_step, hunion]
    have hstream : (r.step (.frame f env)).stream = r.stream := by
      change (r.stream.handleStreamFrame f env).1 = r.stream
      rw [heq]
    refine ⟨h.of_same hstream hsame, ?_⟩
    rw [heq, hsame, hnone]
    rfl
  · exact h.taken hover hm hdata heq

theorem Counts.credit : (r.step .credit).Counts := by
  unfold step QUICStream.streamCreditToGrant
  split_ifs
  · exact h
  exact ⟨⟨h.shaped.list, h.shaped.ordered, h.shaped.ahead, h.shaped.bytes⟩, h.present, h.below,
    (Nat.min_le_left _ _).trans (Nat.min_le_right _ _), h.notClosed, h.notReset, h.overflow⟩

theorem Counts.take (out buf : List UInt8) :
    Counts { r with stream := { r.stream with recvBuf := buf }, handed := r.handed ++ out } :=
  ⟨⟨h.shaped.list, h.shaped.ordered, h.shaped.ahead, h.shaped.bytes⟩, h.present, h.below, h.granted, h.notClosed,
    h.notReset, h.overflow⟩

theorem Counts.readAll : (r.step .readAll).Counts := by
  unfold step QUICStream.readAll
  split_ifs
  all_goals exact h.take _ _

end

theorem Counts.foldl {es : List StreamEvent} : ∀ {r : StreamRun}, r.Counts → r.WithinLimits es →
    (es.foldl StreamRun.step r).Counts ∧ (es.foldl StreamRun.step r).counted + r.received.card =
        r.counted + (es.foldl StreamRun.step r).received.card + r.recounted es := by
  induction es with
  | nil => exact fun h _ => ⟨h, rfl⟩
  | cons e es ih =>
    intro r h hlimits
    cases e with
    | frame f env =>
      obtain ⟨hstop, hres, hlimits⟩ := hlimits
      obtain ⟨hstep, _⟩ := h.frame hstop hres
      obtain ⟨hlast, hsum⟩ := ih hstep hlimits
      refine ⟨hlast, ?_⟩
      rw [counted_step] at hsum
      rw [recounted, foldl_cons]
      omega
    | read | takeReceived => exact ih (h.take _ _) hlimits
    | readAll => exact ih h.readAll hlimits
    | credit => exact ih h.credit hlimits

theorem Counts.recounted_eq_zero_iff {es : List StreamEvent} : ∀ {r : StreamRun}, r.Counts → r.WithinLimits es →
    (r.recounted es = 0 ↔ r.NeverRecounts es) := by
  induction es with
  | nil => exact fun _ _ => iff_of_true rfl trivial
  | cons e es ih =>
    intro r h hlimits
    cases e with
    | frame f env =>
      obtain ⟨hstop, hres, hlimits⟩ := hlimits
      have hstep := (h.frame hstop hres).1
      rw [recounted, NeverRecounts, Nat.add_eq_zero_iff, h.shaped.recounted_eq_zero_iff, ih hstep hlimits]
    | read | takeReceived => exact ih (h.take _ _) hlimits
    | readAll => exact ih h.readAll hlimits
    | credit => exact ih h.credit hlimits

theorem quicStreamRecvLimit_le_cap (server : Option ServerLimits) :
    min (quicStreamRecvLimit server) quicStreamRecvUnlimitedCap ≤
      quicStreamRecvCap server (quicStreamRecvLimit server) := by
  unfold quicStreamRecvCap
  rcases server with _ | c
  · exact Nat.min_le_left _ _
  dsimp only
  split_ifs with hbody hcap
  · exact Nat.min_le_right _ _
  · exact Nat.min_le_left _ _
  · exact (Nat.min_le_left _ _).trans (Nat.le_of_not_lt hcap)

theorem counts_start (server : Option ServerLimits) : Counts { stream := newQUICStream server } where
  shaped := (tracks_new server []).holds.shaped
  present := rfl
  below := by simp [received, offsetsOf]
  granted := quicStreamRecvLimit_le_cap server
  notClosed := rfl
  notReset := rfl
  overflow := nofun

theorem Counts.reset (h : r.Counts) {finalSize u : ℕ} {credit : Bool} {t : QUICStream}
    (hr : r.stream.applyPeerReset finalSize credit = (t, .ok u)) : r.received.card + u = finalSize := by
  have hcard : r.received.card = r.stream.recvOff + r.stream.oooBytes := by rw [← h.present, h.shaped.card_present]
  have hle : r.received.card ≤ r.stream.recvMax := by
    have hsub : r.received ⊆ Finset.range r.stream.recvMax := fun i hi => Finset.mem_range.mpr (h.below i hi)
    simpa using Finset.card_le_card hsub
  obtain ⟨_, _⟩ := QUICStream.applyPeerReset_ok h.notReset hr
  omega

/-- The counts of a run are the distinct offsets it has received, and with RESET_STREAM the final
size, if and only if no frame reaches over bytes that are there ahead of a gap. -/
theorem credit_counts_each_byte_once (server : Option ServerLimits) (es : List StreamEvent)
    (hlimits : WithinLimits { stream := newQUICStream server } es) :
    ((run server es).counted = (run server es).received.card ↔ NeverRecounts { stream := newQUICStream server } es) ∧
      ∀ finalSize credit t u, (run server es).stream.applyPeerReset finalSize credit = (t, .ok u) →
        ((run server es).counted + u = finalSize ↔ NeverRecounts { stream := newQUICStream server } es) := by
  have hstart := counts_start server
  obtain ⟨hlast, hsum⟩ := hstart.foldl hlimits
  change Counts (run server es) at hlast
  change (run server es).counted + 0 = 0 + (run server es).received.card + _ at hsum
  rw [← hstart.recounted_eq_zero_iff hlimits]
  refine ⟨by omega, fun finalSize credit t u hr => ?_⟩
  have hreset := hlast.reset hr
  omega

def overtaken : List StreamEvent := [.frame ⟨1, [0], false⟩ {}, .frame ⟨0, [0], false⟩ {}]

theorem credit_counts_each_byte_once_overtaken : WithinLimits { stream := newQUICStream none } overtaken ∧
      (run none overtaken).counted = (run none overtaken).received.card := by
  have hlimits : WithinLimits { stream := newQUICStream none } overtaken :=
    ⟨by decide, by decide, by decide, by decide, trivial⟩
  exact ⟨hlimits, (credit_counts_each_byte_once none overtaken hlimits).1.mpr ⟨by decide, by decide, trivial⟩⟩

def overlapped : List StreamEvent := [.frame ⟨1, [0], false⟩ {}, .frame ⟨0, [0, 0], false⟩ {}]

theorem overlapped_byte_counted_twice :
    WithinLimits { stream := newQUICStream none } overlapped ∧ (run none overlapped).counted = 3 ∧
      (run none overlapped).received.card = 2 ∧
      ∃ t, (run none overlapped).stream.applyPeerReset 2 true = (t, .ok 0) := by
  refine ⟨⟨by decide, by decide, by decide, by decide, trivial⟩, by decide, by decide, _, rfl⟩

end StreamRun
end AlosHttp.Quic

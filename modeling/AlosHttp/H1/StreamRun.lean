import AlosHttp.H1.SelfDelimiting

/-! Every run of a streamed or progressive response keeps an invariant that describes the
bytes handed to the socket; the invariant gives a complete message when the connection is
kept. -/
namespace AlosHttp.H1
open AlosHttp.Core Rfc9112 List

def StreamWriter.unsent (sw : StreamWriter) : Bytes := sw.pending.drop sw.pendingOff

theorem StreamWriter.buffered_eq (sw : StreamWriter) : sw.buffered = sw.unsent.length := by
  rw [buffered, unsent, length_drop]

theorem StreamWriter.compact_spec (sw : StreamWriter) (hoff : sw.pendingOff ≤ sw.pending.length) :
    ∃ p off, sw.compact = { sw with pending := p, pendingOff := off } ∧ p.drop off = sw.unsent ∧ off ≤ p.length := by
  unfold compact
  split_ifs with h0 hhalf
  · refine ⟨[], 0, rfl, ?_, Nat.le_refl 0⟩
    rw [buffered_eq, length_eq_zero_iff] at h0
    rw [h0]
    rfl
  · exact ⟨_, 0, rfl, rfl, Nat.zero_le _⟩
  · exact ⟨sw.pending, sw.pendingOff, rfl, rfl, hoff⟩

open StreamWriter

theorem StreamSession.pump_spec {s : StreamSession} (hf : s.sw.finished = false)
    (hoff : s.sw.pendingOff ≤ s.sw.pending.length) (room : ℤ) :
    ∃ p off k done, p.drop off = s.sw.unsent.drop k ∧ off ≤ p.length ∧
      done = (s.sw.handlerDone && s.sw.ended && (p.drop off).isEmpty) ∧
      s.pump room = if done = true then StreamSession.finishOut { s with
          sw := { s.sw with pending := p, pendingOff := off, finished := true },
          emitted := s.emitted ++ s.sw.unsent.take k }
        else { s with
          sw := { s.sw with pending := p, pendingOff := off, finished := false },
          emitted := s.emitted ++ s.sw.unsent.take k } := by
  unfold pump
  rw [if_neg (by simp [hf])]
  dsimp only
  generalize hn : (if room > 0 then min room.toNat s.sw.buffered else 0) = n
  have hle : s.sw.pendingOff + n ≤ s.sw.pending.length := by
    have hb : n ≤ s.sw.buffered := by
      rw [← hn]
      split_ifs <;> omega
    rw [buffered] at hb
    omega
  obtain ⟨p, off, hcompact, hdrop, hoff'⟩ := compact_spec { s.sw with pendingOff := s.sw.pendingOff + n } hle
  have hunsent : p.drop off = s.sw.unsent.drop n := by
    rw [hdrop, unsent, unsent, drop_drop]
  rw [hcompact]
  refine ⟨p, off, n, _, hunsent, hoff', rfl, ?_⟩
  have hbuf : ({ s.sw with pending := p, pendingOff := off } : StreamWriter).buffered = (p.drop off).length := by
    rw [buffered_eq]
    rfl
  rw [hbuf]
  have hempty : ((p.drop off).length == 0) = (p.drop off).isEmpty := by
    cases p.drop off <;> rfl
  rw [hempty]
  cases s.sw.handlerDone && s.sw.ended && (p.drop off).isEmpty <;> rfl

def StreamWriter.bodyText (sw : StreamWriter) (pieces : List Bytes) : Bytes :=
  if sw.chunked then chunksText pieces ++ (if sw.ended then h1LastChunk else [])
  else pieces.flatten

/-- A response whose head `h` is out and whose accepted body came in `pieces`. -/
structure StreamSession.Sent (cfg : StreamConfig) (s : StreamSession) (h : StreamHead)
    (pieces : List Bytes) : Prop where
  final : FinalHead h.status h.headers
  regular : RegularHead cfg.method h.status h.headers
  suppress : s.sw.suppressBody = (responseBodyDisposition cfg.method h.status).1
  pieces_ne : ∀ p ∈ pieces, p ≠ []
  accepted : s.accepted = pieces.flatten
  output : s.emitted ++ s.sw.unsent = h.text cfg s.sw.chunked ++ s.sw.bodyText pieces
  suppressed : s.sw.suppressBody = true → s.sw.chunked = false ∧ pieces = [] ∧ s.current = none
  declared : s.sw.suppressBody = false → s.sw.chunked = false →
    s.sw.contentLength = (scanH1StreamHeaders h.headers).1
  must : s.sw.suppressBody = false → s.sw.chunked = false → s.sw.contentLength = none → s.sw.mustClose = true
  counted : s.sw.contentLength.isSome = true → s.sw.bodyBytes = s.accepted.length + (s.current.getD []).length ∧
      (s.sw.ended = true → s.current.getD [] = [])

structure StreamSession.Blank (s : StreamSession) : Prop where
  emitted : s.emitted = []
  unsent : s.sw.unsent = []
  contentLength : s.sw.contentLength = none
  bodyBytes : s.sw.bodyBytes = 0
  headerReady : s.sw.headerReady = false
  handlerDone : s.sw.handlerDone = false
  accepted : s.accepted = []
  current : s.current = none

/-- The invariant of a response whose connection has not been given up. -/
structure StreamSession.Live (cfg : StreamConfig) (s : StreamSession) : Prop where
  open_ : s.closeAfter = false
  err : s.sw.err = none
  off_le : s.sw.pendingOff ≤ s.sw.pending.length
  finished : s.sw.finished = !s.dispatching
  resume : s.resumeDue = !s.dispatching
  head : (s.sw.headerCalled = false ∧ s.Blank) ∨
    (s.sw.headerCalled = true ∧ s.sw.headerReady = true ∧ ∃ h pieces, s.Sent cfg h pieces)
  done : s.sw.handlerDone = true → s.current = none ∧ s.sw.ended = true ∧
    (s.outKeepAlive = true → s.sw.mustClose = false ∧ s.sw.framingComplete = true)
  kept : s.dispatching = false → s.outKeepAlive = true ∧ s.sw.handlerDone = true ∧ s.sw.unsent = []

def StreamSession.Closed (s : StreamSession) : Prop :=
  s.dispatching = false ∧ s.closeAfter = true ∧ s.resumeDue = false

theorem StreamSession.Live.complete {cfg : StreamConfig} {s : StreamSession} (hl : s.Live cfg)
    (hover : s.dispatching = false) : Complete cfg.method s.emitted s.accepted := by
  obtain ⟨hkeep, hdone, hunsent⟩ := hl.kept hover
  obtain ⟨hcur, hended, hfinal⟩ := hl.done hdone
  obtain ⟨hmust, hframing⟩ := hfinal hkeep
  rcases hl.head with ⟨_, hblank⟩ | ⟨_, _, h, _, hs⟩
  · simp [hblank.handlerDone] at hdone
  have hout := hs.output
  rw [hunsent, append_nil] at hout
  rw [hout, hs.accepted, bodyText]
  cases hsup : s.sw.suppressBody with
  | true =>
    obtain ⟨hchunked, rfl, _⟩ := hs.suppressed hsup
    rw [hchunked]
    exact complete_suppressed hs.final hs.regular (hs.suppress.symm.trans hsup) false
  | false =>
    have hdisp := hs.suppress.symm.trans hsup
    cases hchunked : s.sw.chunked with
    | true =>
      rw [if_pos rfl, hended, if_pos rfl]
      exact complete_chunked hs.final hs.regular hdisp hs.pieces_ne
    | false =>
      rcases hlen : s.sw.contentLength with _ | len
      · rw [hs.must hsup hchunked hlen] at hmust
        simp at hmust
      obtain ⟨hbytes, _⟩ := hs.counted (by rw [hlen]; rfl)
      rw [framingComplete, hlen] at hframing
      rw [hcur, Option.getD_none, length_nil, add_zero, beq_iff_eq.mp hframing, hs.accepted] at hbytes
      rw [if_neg Bool.false_ne_true]
      apply complete_length hs.final hs.regular hdisp
      rw [← hs.declared hsup hchunked, hlen, hbytes]

/-- A late write: the writer is closed and the write is still counted. -/
def StreamSession.LateWrite (s : StreamSession) (data : Bytes) : Prop :=
  s.sw.ended = true ∧ data ≠ [] ∧ s.sw.contentLength.any (fun len =>
    s.sw.bodyBytes + data.length ≤ len) = true

def streamsChunked (method : Bytes) (status : ℕ) (headers : List Field) : Bool :=
  !(responseBodyDisposition method status).1 && classifyH1StreamHeaders headers

/-- The condition on a step: a regular final head, not of a chunked response after `Close`,
and no late write. -/
def StreamSession.Regular (cfg : StreamConfig) (s : StreamSession) : Event → Prop
  | .call _ (.writeHeader status headers _) => s.sw.headerCalled = false →
      FinalHead status (cfg.cors headers) ∧ RegularHead cfg.method status (cfg.cors headers) ∧
        ¬ (s.sw.ended = true ∧ streamsChunked cfg.method status (cfg.cors headers) = true)
  | .call _ (.writeChunk data) => ¬ s.LateWrite data
  | _ => True

namespace StreamSession.Live
variable {cfg : StreamConfig} {s : StreamSession}

section
variable (hl : s.Live cfg)
include hl

theorem writeHeader (hd : s.sw.handlerDone = false) (date : HttpDate)
    {status : ℕ} {headers : List Field} (contentType : Bytes)
    (hreg : s.Regular cfg (.call date (.writeHeader status headers contentType))) :
    Live cfg (s.call cfg date (.writeHeader status headers contentType)) := by
  unfold call StreamWriter.writeHeader
  dsimp only
  by_cases hcalled : s.sw.headerCalled = true
  · rw [if_pos hcalled]
    exact hl
  have hcalled' : s.sw.headerCalled = false := by simpa using hcalled
  obtain ⟨hfinal, hregular, hlate⟩ := hreg hcalled'
  rcases hl.head with ⟨_, hb⟩ | ⟨hc, _⟩
  swap
  · exact absurd hc hcalled
  rw [if_neg hcalled]
  generalize hsup : (responseBodyDisposition cfg.method status).1 = sup
  have hchunked : (if sup then false else classifyH1StreamHeaders (cfg.cors headers)) =
      streamsChunked cfg.method status (cfg.cors headers) := by
    rw [streamsChunked, hsup]
    cases sup <;> rfl
  rw [hchunked]
  generalize hch : streamsChunked cfg.method status (cfg.cors headers) = ch at hlate
  generalize hlen : (if (!sup && !ch) = true then (scanH1StreamHeaders (cfg.cors headers)).1
    else s.sw.contentLength) = len
  generalize hmust : ((scanH1StreamHeaders (cfg.cors headers)).2 || (!sup && !ch && len.isNone)) = must
  constructor
  case head =>
    right
    refine ⟨rfl, rfl, ⟨date, status, cfg.cors headers, contentType, cfg.reqClose || must⟩, [], ?_⟩
    constructor
    case final => exact hfinal
    case regular => exact hregular
    case suppress => exact hsup.symm
    case pieces_ne => simp
    case accepted => simpa using hb.accepted
    case output =>
      have hbody : StreamWriter.bodyText { s.sw with chunked := ch } [] = [] := by
        unfold StreamWriter.bodyText
        cases ch with
        | false => rfl
        | true =>
          have : s.sw.ended = false := by simpa using hlate
          simp [this, chunksText]
      change s.emitted ++ (appendH1StreamHead _ _ _ _ _ _ _ _ _).drop s.sw.pendingOff =
        _ ++ StreamWriter.bodyText { s.sw with chunked := ch } []
      rw [hbody, hb.emitted, appendH1StreamHead_eq, drop_append_of_le_length hl.off_le,
        show s.sw.pending.drop s.sw.pendingOff = [] from hb.unsent]
      simp [StreamHead.text]
    case suppressed =>
      intro h
      have h : sup = true := h
      refine ⟨?_, rfl, hb.current⟩
      rw [← hch, streamsChunked, hsup, h]
      rfl
    case declared =>
      intro h1 h2
      have h1 : sup = false := h1
      have h2 : ch = false := h2
      rw [← hlen, h1, h2]
      rfl
    case must =>
      intro h1 h2 h3
      have h1 : sup = false := h1
      have h2 : ch = false := h2
      have h3 : len = none := h3
      rw [← hmust, h1, h2, h3]
      simp
    case counted =>
      intro _
      refine ⟨?_, fun _ => ?_⟩
      · rw [hb.bodyBytes, hb.accepted, hb.current]
        rfl
      rw [hb.current]
      rfl
  case off_le =>
    rw [appendH1StreamHead_eq, length_append]
    exact hl.off_le.trans (Nat.le_add_right _ _)
  case done =>
    intro h
    simp [hd] at h
  case open_ => exact hl.open_
  case err => exact hl.err
  case finished => exact hl.finished
  case resume => exact hl.resume
  case kept =>
    intro h
    have := (hl.kept h).2.1
    simp [hd] at this

theorem sent (hc : s.sw.headerCalled = true) : s.sw.headerReady = true ∧ ∃ h pieces, s.Sent cfg h pieces := by
  rcases hl.head with ⟨hb, _⟩ | ⟨_, hr⟩
  · simp [hb] at hc
  · exact hr

theorem writeChunk (hd : s.sw.handlerDone = false) (hcur : s.current = none)
    (date : HttpDate) {data : Bytes} (hreg : s.Regular cfg (.call date (.writeChunk data))) :
    Live cfg (s.call cfg date (.writeChunk data)) := by
  have hdone : ∀ {P : Prop}, s.sw.handlerDone = true → P := fun h => by simp [hd] at h
  unfold call StreamWriter.writeChunkStart
  by_cases hc : s.sw.headerCalled = true
  swap
  · simpa [hc] using hl
  obtain ⟨hready, h, pieces, hs⟩ := hl.sent hc
  by_cases hsup : s.sw.suppressBody = true
  · simpa [hc, hsup] using hl
  -- the write is refused and closes the connection, or it is counted
  have hrefuse : ∀ w, Live cfg { s with sw := { s.sw with written := w, mustClose := true } } :=
    fun w => ⟨hl.open_, hl.err, hl.off_le, hl.finished, hl.resume,
      .inr ⟨hc, hready, h, pieces, hs.final, hs.regular, hs.suppress, hs.pieces_ne, hs.accepted,
        hs.output, hs.suppressed, hs.declared, fun _ _ _ => rfl, hs.counted⟩,
      fun h => hdone h, fun h => hdone (hl.kept h).2.1⟩
  have haccept : s.sw.contentLength.any (fun len => s.sw.bodyBytes + data.length > len) = false → ∀ w, Live cfg { s with
        sw := { s.sw with written := w, bodyBytes := s.sw.bodyBytes + data.length },
        current := some data } := by
    intro hfit w
    refine ⟨hl.open_, hl.err, hl.off_le, hl.finished, hl.resume,
      .inr ⟨hc, hready, h, pieces, hs.final, hs.regular, hs.suppress, hs.pieces_ne, hs.accepted,
        hs.output, fun h => absurd h hsup, hs.declared, hs.must, ?_⟩,
      fun h => hdone h, fun h => hdone (hl.kept h).2.1⟩
    intro hlen
    obtain ⟨hbytes, _⟩ := hs.counted hlen
    rw [hcur, Option.getD_none, length_nil, add_zero] at hbytes
    constructor
    · change s.sw.bodyBytes + data.length = s.accepted.length + data.length
      rw [hbytes]
    intro hended
    by_contra hne
    apply hreg
    refine ⟨hended, hne, ?_⟩
    obtain ⟨len, hlen⟩ := Option.isSome_iff_exists.mp hlen
    rw [hlen, Option.any_some, decide_eq_false_iff_not] at hfit
    rw [hlen, Option.any_some, decide_eq_true_eq]
    omega
  simp only [hc, Bool.not_true, Bool.false_eq_true, if_false, hsup]
  unfold StreamWriter.admitBody
  by_cases hmax : cfg.maxWrite > 0 ∧
      ((if cfg.maxWrite > 0 then s.sw.written + data.length else s.sw.written : ℕ) : ℤ) > cfg.maxWrite
  · rw [if_pos hmax]
    exact hrefuse _
  rw [if_neg hmax]
  by_cases hfit : s.sw.contentLength.any (fun len => s.sw.bodyBytes + data.length > len) = true
  · rw [if_pos hfit]
    exact hrefuse _
  rw [if_neg hfit]
  exact haccept (by simpa using hfit) _

theorem close (hd : s.sw.handlerDone = false) (hcur : s.current = none) : Live cfg { s with sw := s.sw.endStream } := by
  have hdone : ∀ {P : Prop}, s.sw.handlerDone = true → P := fun h => by simp [hd] at h
  unfold StreamWriter.endStream
  by_cases hended : s.sw.ended = true
  · rw [if_pos hended]
    exact hl
  rw [if_neg hended]
  have hended : s.sw.ended = false := by simpa using hended
  have hempty : s.current.getD [] = [] := by
    rw [hcur]
    rfl
  refine ⟨hl.open_, hl.err, ?_, hl.finished, hl.resume, ?_, fun h => hdone h, fun h => hdone (hl.kept h).2.1⟩
  · have := hl.off_le
    dsimp only
    split_ifs
    · rw [length_append]
      omega
    · exact this
  rcases hl.head with ⟨hc, hb⟩ | ⟨hc, hready, h, pieces, hs⟩
  · left
    refine ⟨hc, hb.emitted, ?_, hb.contentLength, hb.bodyBytes, hb.headerReady, hb.handlerDone, hb.accepted, hb.current⟩
    simpa [StreamWriter.unsent, hb.headerReady] using hb.unsent
  right
  refine ⟨hc, hready, h, pieces, hs.final, hs.regular, hs.suppress, hs.pieces_ne, hs.accepted, ?_,
    hs.suppressed, hs.declared, hs.must, fun hlen => ⟨(hs.counted hlen).1, fun _ => hempty⟩⟩
  have hout := hs.output
  have hoff := hl.off_le
  unfold StreamWriter.unsent StreamWriter.bodyText at *
  rw [hended] at hout
  cases hch : s.sw.chunked with
  | false => simpa [hch] using hout
  | true =>
    simp only [hch, hready, Bool.and_self, Bool.false_eq_true, if_true, if_false, append_nil] at hout ⊢
    rw [drop_append_of_le_length hoff, ← append_assoc, hout, append_assoc]

section
variable (hdisp : s.dispatching = true)
include hdisp

open StreamWriter Option

theorem round {data : Bytes} (hcur : s.current = some data) {s' : StreamSession} (hstep : s.round data = some s') :
    Live cfg s' := by
  have hc : s.sw.headerCalled = true := by
    rcases hl.head with ⟨_, hb⟩ | ⟨hc, _⟩
    · simp [hb.current] at hcur
    · exact hc
  have hd : s.sw.handlerDone = false := by
    by_contra hne
    have := (hl.done (by simpa using hne)).1
    simp [hcur] at this
  have hdone : ∀ {P : Prop}, s.sw.handlerDone = true → P := fun h => by simp [hd] at h
  obtain ⟨hready, h, pieces, hs⟩ := hl.sent hc
  have hsup : s.sw.suppressBody = false := by
    by_contra hne
    have := (hs.suppressed (by simpa using hne)).2.2
    simp [hcur] at this
  -- the call returns without buffering
  have hreturn : (s.sw.contentLength.isSome = true → data = []) → Live cfg { s with current := none } := by
    intro hempty
    refine ⟨hl.open_, hl.err, hl.off_le, hl.finished, hl.resume,
      .inr ⟨hc, hready, h, pieces, hs.final, hs.regular, hs.suppress, hs.pieces_ne, hs.accepted,
        hs.output, fun hsupp => by simp [hsup] at hsupp, hs.declared, hs.must, ?_⟩,
      fun h => hdone h, fun h => by simp [hdisp] at h⟩
    intro hlen
    have hbytes := (hs.counted hlen).1
    rw [hcur, getD_some, hempty hlen] at hbytes
    exact ⟨hbytes, fun _ => rfl⟩
  unfold StreamSession.round writeChunkRound at hstep
  by_cases hdata : data = []
  · rw [if_pos hdata] at hstep
    rw [← some.inj hstep]
    exact hreturn fun _ => hdata
  rw [if_neg hdata, if_neg (by simp [hl.err])] at hstep
  by_cases hended : s.sw.ended = true
  · rw [if_pos hended] at hstep
    rw [← some.inj hstep]
    apply hreturn
    intro hlen
    have := (hs.counted hlen).2 hended
    rwa [hcur, getD_some] at this
  rw [if_neg hended] at hstep
  by_cases hfull : s.sw.buffered ≥ h1StreamPendingCap
  · rw [if_pos hfull] at hstep
    simp at hstep
  rw [if_neg hfull] at hstep
  generalize hn : min data.length (h1StreamPendingCap - s.sw.buffered) = n at hstep
  have hpos := length_pos_iff.mpr hdata
  have hended : s.sw.ended = false := by simpa using hended
  rw [← some.inj hstep]
  refine ⟨hl.open_, hl.err, ?_, hl.finished, hl.resume,
    .inr ⟨hc, hready, h, pieces ++ [data.take n], hs.final, hs.regular, hs.suppress, ?_, ?_, ?_,
      fun hsupp => by simp [hsup] at hsupp, hs.declared, hs.must, ?_⟩,
    fun h => hdone h, fun h => by simp [hdisp] at h⟩
  · have := hl.off_le
    dsimp only
    split_ifs
    · rw [appendH1Chunk_append, length_append]
      omega
    rw [length_append]
    omega
  · intro p hp
    rcases mem_append.mp hp with hp | hp
    · exact hs.pieces_ne p hp
    rw [mem_singleton.mp hp, ← length_pos_iff, length_take]
    omega
  · rw [flatten_append, ← hs.accepted]
    simp
  · have hout := hs.output
    have hoff := hl.off_le
    unfold unsent bodyText at *
    rw [hended] at hout ⊢
    cases hch : s.sw.chunked with
    | false =>
      simp only [hch, Bool.false_eq_true, if_false] at hout ⊢
      rw [drop_append_of_le_length hoff, ← append_assoc, hout]
      simp
    | true =>
      simp only [hch, Bool.false_eq_true, if_true, if_false, append_nil] at hout ⊢
      rw [appendH1Chunk_append, drop_append_of_le_length hoff, ← append_assoc, hout]
      simp [chunksText]
  intro hlen
  have hbytes := (hs.counted hlen).1
  rw [hcur, getD_some] at hbytes
  refine ⟨?_, fun hne => by simp [hended] at hne⟩
  change s.sw.bodyBytes = (s.accepted ++ data.take n).length + (data.drop n).length
  rw [hbytes, length_append, length_take, length_drop]
  omega

theorem pump (room : ℤ) : Live cfg (s.pump room) ∨ (s.pump room).Closed := by
  have hf : s.sw.finished = false := by rw [hl.finished, hdisp]; rfl
  obtain ⟨p, off, k, done, hdrop, hoff, hdone, hpump⟩ := pump_spec hf hl.off_le room
  rw [hpump]
  have houtput : (s.emitted ++ s.sw.unsent.take k) ++ p.drop off = s.emitted ++ s.sw.unsent := by
    rw [hdrop, append_assoc, take_append_drop]
  have hhead : ∀ fin disp res, (s.sw.headerCalled = false ∧ Blank { s with
        sw := { s.sw with pending := p, pendingOff := off, finished := fin },
        emitted := s.emitted ++ s.sw.unsent.take k, dispatching := disp, resumeDue := res }) ∨
      (s.sw.headerCalled = true ∧ s.sw.headerReady = true ∧ ∃ h pieces, Sent cfg { s with
        sw := { s.sw with pending := p, pendingOff := off, finished := fin },
        emitted := s.emitted ++ s.sw.unsent.take k, dispatching := disp, resumeDue := res }
        h pieces) := by
    intro fin disp res
    rcases hl.head with ⟨hc, hb⟩ | ⟨hc, hready, h, pieces, hs⟩
    · left
      rw [hb.unsent, drop_nil] at hdrop
      exact ⟨hc, by simp [hb.emitted, hb.unsent], hdrop, hb.contentLength, hb.bodyBytes,
        hb.headerReady, hb.handlerDone, hb.accepted, hb.current⟩
    right
    exact ⟨hc, hready, h, pieces, hs.final, hs.regular, hs.suppress, hs.pieces_ne, hs.accepted,
      houtput.trans hs.output, hs.suppressed, hs.declared, hs.must, hs.counted⟩
  by_cases hd : done = true
  · rw [if_pos hd, finishOut]
    rw [hd, eq_comm, Bool.and_eq_true, Bool.and_eq_true, List.isEmpty_iff] at hdone
    by_cases hkeep : s.outKeepAlive = true
    · left
      rw [if_pos hkeep]
      exact ⟨hl.open_, hl.err, hoff, rfl, rfl, hhead true false true, hl.done, fun _ => ⟨hkeep, hdone.1.1, hdone.2⟩⟩
    right
    rw [if_neg hkeep]
    exact ⟨rfl, rfl, by rw [hl.resume, hdisp]; rfl⟩
  left
  rw [if_neg hd]
  refine ⟨hl.open_, hl.err, hoff, by rw [hdisp]; rfl, hl.resume, ?_, hl.done,
    fun h => by simp [hdisp] at h⟩
  exact hhead false s.dispatching s.resumeDue

theorem finish (hd : s.sw.handlerDone = false)
    (hcur : s.current = none) (date : HttpDate) (reqClose : Bool) (room : ℤ) :
    Live cfg (s.finish cfg date reqClose room) ∨ (s.finish cfg date reqClose room).Closed := by
  unfold StreamSession.finish
  by_cases hready : s.sw.headerReady = true
  swap
  · rw [if_neg hready]
    exact .inr ⟨rfl, rfl, by rw [hl.resume, hdisp]; rfl⟩
  rw [if_pos hready]
  have hend : endStream { s.sw with handlerDone := true } =
      { s.sw.endStream with handlerDone := true } := by
    unfold endStream
    cases s.sw.ended <;> rfl
  have hclose := hl.close hd hcur
  have hended : s.sw.endStream.ended = true := by
    unfold endStream
    by_cases h : s.sw.ended = true
    · rw [if_pos h]
      exact h
    · rw [if_neg h]
  rw [hend]
  refine pump ?_ ?_ room
  swap
  · exact hdisp
  refine ⟨hclose.open_, hclose.err, hclose.off_le, hclose.finished, hclose.resume, ?_, ?_,
    fun h => by simp [hdisp] at h⟩
  · rcases hclose.head with ⟨hc, _⟩ | ⟨hc, hr, h, pieces, hs⟩
    · rcases hl.head with ⟨_, hb'⟩ | ⟨hc', _⟩
      · rw [hb'.headerReady] at hready
        simp at hready
      have : s.sw.endStream.headerCalled = s.sw.headerCalled := by
        unfold endStream
        cases s.sw.ended <;> rfl
      rw [this, hc'] at hc
      simp at hc
    exact .inr ⟨hc, hr, h, pieces, hs.final, hs.regular, hs.suppress, hs.pieces_ne, hs.accepted,
      hs.output, hs.suppressed, hs.declared, hs.must, hs.counted⟩
  intro _
  refine ⟨hcur, hended, ?_⟩
  intro hkeep
  simp only [Bool.and_eq_true, Bool.not_eq_true'] at hkeep
  exact ⟨hkeep.1.2, hkeep.2⟩

end

end

end StreamSession.Live

def StreamSession.Next (cfg : StreamConfig) (s s' : StreamSession) : Prop :=
  ∃ e, s.Regular cfg e ∧ s.step cfg e = some s'

open Option

theorem StreamSession.Live.step {cfg : StreamConfig} {s s' : StreamSession} (hl : s.Live cfg)
    (h : s.Next cfg s') : s'.Live cfg ∨ s'.Closed := by
  obtain ⟨e, hreg, hstep⟩ := h
  unfold StreamSession.step at hstep
  by_cases hdisp : s.dispatching = true
  swap
  · rw [if_pos (by simpa using hdisp)] at hstep
    simp at hstep
  rw [if_neg (by simp [hdisp])] at hstep
  cases e with
  | call date c =>
    split_ifs at hstep with hbusy
    rw [Bool.or_eq_true, not_or, not_isSome_iff_eq_none, Bool.not_eq_true] at hbusy
    rw [← some.inj hstep]
    left
    cases c with
    | writeHeader status headers contentType => exact hl.writeHeader hbusy.2 date contentType hreg
    | writeChunk data => exact hl.writeChunk hbusy.2 hbusy.1 date hreg
    | flush => exact hl
    | close => exact hl.close hbusy.2 hbusy.1
  | round =>
    rcases hcur : s.current with _ | data
    · simp [hcur] at hstep
    simp only [hcur] at hstep
    exact .inl (hl.round hdisp hcur hstep)
  | pump room =>
    rw [← some.inj hstep]
    exact hl.pump hdisp room
  | finish date reqClose room =>
    split_ifs at hstep with hbusy
    rw [Bool.or_eq_true, not_or, not_isSome_iff_eq_none, Bool.not_eq_true] at hbusy
    rw [← some.inj hstep]
    exact hl.finish hdisp hbusy.2 hbusy.1 date reqClose room
  | lost =>
    rw [← some.inj hstep]
    exact .inr ⟨rfl, rfl, by rw [hl.resume, hdisp]; rfl⟩

theorem StreamSession.Live.init (cfg : StreamConfig) : StreamSession.Live cfg {} where
  open_ := rfl
  err := rfl
  off_le := le_refl 0
  finished := rfl
  resume := rfl
  head := .inl ⟨rfl, rfl, rfl, rfl, rfl, rfl, rfl, rfl, rfl⟩
  done := by simp
  kept := by simp

theorem StreamSession.live_or_closed {cfg : StreamConfig} {s : StreamSession}
    (h : Relation.ReflTransGen (StreamSession.Next cfg) {} s) : s.Live cfg ∨ s.Closed := by
  induction h with
  | refl => exact .inl (.init cfg)
  | tail _ hnext ih =>
    rcases ih with hl | hc
    · exact hl.step hnext
    obtain ⟨e, _, hstep⟩ := hnext
    unfold StreamSession.step at hstep
    rw [hc.1] at hstep
    simp at hstep

namespace ProgressiveBody

/-- A buffered response on its way out: its whole text is `text`. -/
structure Live (text : Bytes) (c : ProgressiveBody) : Prop where
  off_le : c.h1BodyOff ≤ c.h1Body.length
  output : c.emitted ++ c.h1Body.drop c.h1BodyOff = text
  resume : c.resumeDue = true → c.emitted = text
  ended : c.dispatching = false → c.resumeDue = true ∨ c.closeAfter = true

variable {text : Bytes} {c c' : ProgressiveBody}

theorem Live.finishOut (hl : c.Live text) (hall : c.h1BodyOff = c.h1Body.length) : c.finishOut.Live text := by
  have hout := hl.output
  rw [hall, drop_length, append_nil] at hout
  unfold ProgressiveBody.finishOut
  split_ifs
  · exact ⟨hl.off_le, hl.output, fun _ => hout, fun _ => .inl rfl⟩
  · exact ⟨hl.off_le, hl.output, fun _ => hout, fun _ => .inr rfl⟩

theorem firstSegmentEnd_bounds (c : ProgressiveBody) (mss : Option ℤ) (unsent : ℤ) {stop : ℕ} (h : c.h1BodyOff ≤ stop) :
    c.h1BodyOff ≤ c.firstSegmentEnd mss unsent stop ∧ c.firstSegmentEnd mss unsent stop ≤ stop := by
  unfold firstSegmentEnd
  rcases mss with _ | mss
  · exact ⟨h, le_rfl⟩
  dsimp only
  split_ifs with hmss hn
  · exact ⟨h, le_rfl⟩
  · exact ⟨h, le_rfl⟩
  · omega

theorem Live.advance (hl : c.Live text) (hd : c.dispatching = true) {stop : ℕ}
    (h₁ : c.h1BodyOff ≤ stop) (h₂ : stop ≤ c.h1Body.length) (hr : c.resumeDue = false)
    (seg : Bool) (out : Bytes) :
    Live text { c with
      h1FirstSegSent := seg, bodyOut := out,
      emitted := c.emitted ++ (c.h1Body.take stop).drop c.h1BodyOff, h1BodyOff := stop } := by
  refine ⟨h₂, ?_, fun h => by simp [hr] at h, fun h => by simp [hd] at h⟩
  have hsplit : (c.h1Body.take stop).drop c.h1BodyOff ++ c.h1Body.drop stop = c.h1Body.drop c.h1BodyOff := by
    conv_rhs => rw [← take_append_drop stop c.h1Body]
    rw [drop_append_of_le_length (by rw [length_take]; omega)]
  change (c.emitted ++ _) ++ c.h1Body.drop stop = text
  rw [append_assoc, hsplit, hl.output]

theorem Live.pump (hl : c.Live text) (hd : c.dispatching = true)
    (hr : c.resumeDue = false) (room : ℤ) (mss : Option ℤ) (unsent : ℤ) :
    (c.pump room mss unsent).Live text := by
  have hoff := hl.off_le
  unfold ProgressiveBody.pump
  by_cases htls : c.tls = true
  · rw [if_pos htls]
    by_cases hroom : room ≤ 0
    · rw [if_pos hroom]
      exact hl
    dsimp only
    generalize hn : min room.toNat (c.h1Body.length - c.h1BodyOff) = n
    have hadv := hl.advance hd (Nat.le_add_right c.h1BodyOff n) (by omega) hr c.h1FirstSegSent c.bodyOut
    rw [drop_take, Nat.add_sub_cancel_left] at hadv
    split_ifs with hall
    · exact hadv.finishOut hall
    · exact hadv
  rw [if_neg htls]
  by_cases hout : c.bodyOut ≠ []
  · rw [if_pos hout]
    exact hl
  rw [if_neg hout]
  by_cases hmore : c.h1BodyOff < c.h1Body.length
  · have hbounds := c.firstSegmentEnd_bounds mss unsent hmore.le
    split_ifs
    · exact hl.advance hd hmore.le le_rfl hr true _
    · exact hl.advance hd hbounds.1 hbounds.2 hr true _
  rw [if_neg hmore]
  exact hl.finishOut (by omega)

def Next (c c' : ProgressiveBody) : Prop := ∃ e, c.step e = some c'

theorem Live.step (hl : c.Live text) (hr : c.dispatching = true → c.resumeDue = false) (h : c.Next c') :
    c'.Live text ∧ (c'.dispatching = true → c'.resumeDue = false) := by
  obtain ⟨e, hstep⟩ := h
  unfold ProgressiveBody.step at hstep
  by_cases hd : c.dispatching = true
  swap
  · rw [if_pos (by simpa using hd)] at hstep
    simp at hstep
  rw [if_neg (by simp [hd])] at hstep
  cases e with
  | pump room mss unsent =>
    rw [← Option.some.inj hstep]
    refine ⟨hl.pump hd (hr hd) room mss unsent, ?_⟩
    unfold ProgressiveBody.pump ProgressiveBody.finishOut
    dsimp only
    split_ifs <;> simp [hr hd]
  | sent n =>
    rw [← Option.some.inj hstep]
    exact ⟨⟨hl.off_le, hl.output, hl.resume, hl.ended⟩, hr⟩
  | lost =>
    rw [← Option.some.inj hstep]
    exact ⟨⟨hl.off_le, hl.output, hl.resume, fun _ => .inr rfl⟩, fun h => by simp at h⟩

theorem Live.run {start : ProgressiveBody} (hl : start.Live text)
    (hr : start.dispatching = true → start.resumeDue = false)
    (h : Relation.ReflTransGen Next start c) : c.Live text := by
  suffices c.Live text ∧ (c.dispatching = true → c.resumeDue = false) from this.1
  induction h with
  | refl => exact ⟨hl, hr⟩
  | tail _ hnext ih => exact ih.1.step ih.2 hnext

theorem start_live (date : HttpDate) (serverName : ServerName) (altSvc : Option ℕ) (tls : Bool)
    (oneShotMax sealed : ℕ) (resp : Response) (keepAlive : Bool) :
    (start date serverName altSvc tls oneShotMax sealed resp keepAlive).Live
        (appendPlainResponseMode date serverName (if tls then addAltSvcHeader altSvc resp else resp)
          [] keepAlive true) ∧
      ((start date serverName altSvc tls oneShotMax sealed resp keepAlive).dispatching = true →
        (start date serverName altSvc tls oneShotMax sealed resp keepAlive).resumeDue = false) := by
  unfold start
  generalize (if tls then addAltSvcHeader altSvc resp else resp) = resp
  by_cases hlarge : (if tls then resp.transmittedBody.length > oneShotMax
      else resp.transmittedBody.length ≥ h1DirectBodyMin)
  · rw [if_pos hlarge]
    generalize hoff : (if tls then min resp.transmittedBody.length sealed else 0) = off
    refine ⟨⟨?_, ?_, fun h => by simp at h, fun h => by simp at h⟩, fun _ => rfl⟩
    · change off ≤ resp.transmittedBody.length
      rw [← hoff]
      split_ifs <;> omega
    rw [append_assoc, take_append_drop, appendPlainResponseMode_eq, appendPlainResponseMode_eq]
    simp
  rw [if_neg hlarge]
  constructor
  · apply Live.finishOut _ rfl
    exact ⟨le_rfl, append_nil _, fun h => by simp at h, fun h => by simp at h⟩
  unfold ProgressiveBody.finishOut
  split_ifs <;> simp

end ProgressiveBody

theorem addAltSvcHeader_ok (altSvc : Option ℕ) {resp : Response} (hf : FinalHead resp.statusCode resp.headers)
    (hl : ∀ f ∈ resp.headers, named (ascii "content-length") f = false)
    (hr : RegularHead resp.method resp.statusCode resp.headers) :
    FinalHead resp.statusCode (addAltSvcHeader altSvc resp).headers ∧
      (∀ f ∈ (addAltSvcHeader altSvc resp).headers, named (ascii "content-length") f = false) ∧
      RegularHead resp.method resp.statusCode (addAltSvcHeader altSvc resp).headers := by
  rcases altSvc with _ | port
  · exact ⟨hf, hl, hr⟩
  unfold addAltSvcHeader
  split_ifs with hset
  swap
  · exact ⟨hf, hl, hr⟩
  have hok : FieldOk (ascii "Alt-Svc", altSvcValue port) :=
    fieldOk_of_no_break (by decide) (by decide) (altSvcValue_no_break port)
  have hlength : ∀ f ∈ resp.headers ++ [(ascii "Alt-Svc", altSvcValue port)],
      named (ascii "content-length") f = false :=
    forall_mem_append.mpr ⟨hl, forall_mem_singleton.mpr rfl⟩
  refine ⟨⟨hf.final, forall_mem_append.mpr ⟨hf.no_coding,
    forall_mem_singleton.mpr rfl⟩, ?_⟩, hlength, ⟨forall_mem_append.mpr ⟨hr.fields,
    forall_mem_singleton.mpr hok⟩, hr.not_reset, hr.head, hr.connect, ?_⟩⟩
  · rw [filter_eq_nil_iff.mpr (by simpa using hlength)]
    exact Nat.zero_le 1
  intro f hfm hn
  rw [hlength f hfm] at hn
  simp at hn

open StreamSession

/-- Self-delimiting responses: a kept connection has seen exactly one complete response, streamed or
buffered, and a response that has ended otherwise closes the connection. -/
theorem response_selfDelimiting (cfg : StreamConfig) (date : HttpDate) (serverName : ServerName)
    (altSvc : Option ℕ) (tls : Bool) (oneShotMax sealed : ℕ) (resp : Response) (keepAlive : Bool) :
    (∀ s, Relation.ReflTransGen (StreamSession.Next cfg) {} s →
        (s.resumeDue = true → Complete cfg.method s.emitted s.accepted) ∧
          (s.dispatching = false → s.resumeDue = true ∨ s.closeAfter = true)) ∧
    (FinalHead resp.statusCode resp.headers → (∀ f ∈ resp.headers, named (ascii "content-length") f = false) →
      RegularHead resp.method resp.statusCode resp.headers →
      ∀ c, Relation.ReflTransGen ProgressiveBody.Next
          (.start date serverName altSvc tls oneShotMax sealed resp keepAlive) c →
        (c.resumeDue = true → Complete resp.method c.emitted resp.transmittedBody) ∧
          (c.dispatching = false → c.resumeDue = true ∨ c.closeAfter = true)) := by
  constructor
  · intro s hrun
    rcases live_or_closed hrun with hl | hc
    · constructor
      · intro hresume
        apply hl.complete
        have := hl.resume
        rw [hresume] at this
        simpa using this.symm
      intro hd
      left
      rw [hl.resume, hd]
      rfl
    constructor
    · intro hresume
      rw [hc.2.2] at hresume
      simp at hresume
    intro _
    exact .inr hc.2.1
  intro hf hl hr c hrun
  obtain ⟨hstart, hr0⟩ := ProgressiveBody.start_live date serverName altSvc tls oneShotMax sealed resp keepAlive
  have hlive := hstart.run hr0 hrun
  refine ⟨fun hresume => ?_, hlive.ended⟩
  rw [hlive.resume hresume]
  cases tls with
  | false => exact complete_plain date serverName resp keepAlive hf hl hr
  | true =>
    obtain ⟨hf', hl', hr'⟩ := addAltSvcHeader_ok altSvc hf hl hr
    have hsame : (addAltSvcHeader altSvc resp).method = resp.method ∧
        (addAltSvcHeader altSvc resp).statusCode = resp.statusCode ∧
        (addAltSvcHeader altSvc resp).body = resp.body := by
      unfold addAltSvcHeader
      cases altSvc with
      | none => exact ⟨rfl, rfl, rfl⟩
      | some port =>
        split_ifs <;> exact ⟨rfl, rfl, rfl⟩
    have hc := complete_plain date serverName (addAltSvcHeader altSvc resp) keepAlive
      (hsame.2.1 ▸ hf') hl' (by rw [hsame.1, hsame.2.1]; exact hr')
    unfold Response.transmittedBody at hc ⊢
    rw [hsame.1, hsame.2.1, hsame.2.2] at hc
    exact hc

def getConfig : StreamConfig where
  method := ascii "GET"
  serverName := .ofConfig (ascii "ALOS")
  altSvc := none
  reqClose := false
  maxWrite := 0
  cors := id

def epochDate : HttpDate := ⟨ascii "Thu, 01 Jan 1970 00:00:00 GMT", by decide⟩

instance (s : StreamSession) (data : Bytes) : Decidable (s.LateWrite data) :=
  inferInstanceAs (Decidable (_ ∧ _ ∧ _))

instance (cfg : StreamConfig) (s : StreamSession) (e : StreamSession.Event) : Decidable (s.Regular cfg e) :=
  match e with
  | .call _ (.writeHeader _ _ _) => inferInstanceAs (Decidable (_ → _ ∧ _ ∧ ¬ (_ ∧ _)))
  | .call _ (.writeChunk _) => inferInstanceAs (Decidable (¬ _))
  | .call _ .flush | .call _ .close | .round | .pump _ | .finish _ _ _ | .lost =>
    inferInstanceAs (Decidable True)

/-- A run given by its events, if every step is possible and meets the condition. -/
def StreamSession.regularRun (cfg : StreamConfig) : StreamSession → List Event → Option StreamSession
  | s, [] => some s
  | s, e :: events =>
    if s.Regular cfg e then
      match s.step cfg e with
      | some s' => regularRun cfg s' events
      | none => none
    else none

theorem StreamSession.reaches_of_regularRun {cfg : StreamConfig} {events : List Event}
    {s s' : StreamSession} (h : s.regularRun cfg events = some s') :
    Relation.ReflTransGen (StreamSession.Next cfg) s s' := by
  induction events generalizing s with
  | nil =>
    rw [← Option.some.inj h]
  | cons e events ih =>
    unfold regularRun at h
    split_ifs at h with hreg
    rcases hstep : s.step cfg e with _ | t
    · simp [hstep] at h
    simp only [hstep] at h
    exact .head ⟨e, hreg, hstep⟩ (ih h)

def chunkedEvents : List StreamSession.Event :=
  [.call epochDate (.writeHeader 200 [] []), .call epochDate (.writeChunk (ascii "hi")), .round,
    .pump 20, .round, .call epochDate .close, .finish epochDate false 1000]

def sampleResponse : Response where
  method := ascii "HEAD"
  statusCode := 200
  contentType := []
  headers := []
  body := ascii "hello"

theorem response_selfDelimiting_sample :
    (∃ s, Relation.ReflTransGen (StreamSession.Next getConfig) {} s ∧ s.resumeDue = true ∧
      Complete (ascii "GET") s.emitted (ascii "hi")) ∧
    ∃ c, Relation.ReflTransGen ProgressiveBody.Next
        (.start epochDate getConfig.serverName none false 0 0 sampleResponse true) c ∧
      c.resumeDue = true ∧ Complete (ascii "HEAD") c.emitted [] := by
  have h := response_selfDelimiting getConfig epochDate getConfig.serverName none false 0 0 sampleResponse true
  constructor
  · have heval : (regularRun getConfig {} chunkedEvents).map
        (fun s => (s.resumeDue, s.accepted)) = some (true, ascii "hi") := by decide +kernel
    obtain ⟨s, hrun, hs⟩ := Option.map_eq_some_iff.mp heval
    obtain ⟨hresume, haccepted⟩ := Prod.mk.inj hs
    have hreach := reaches_of_regularRun hrun
    refine ⟨s, hreach, hresume, ?_⟩
    rw [← haccepted]
    exact (h.1 s hreach).1 hresume
  have hresume : (ProgressiveBody.start epochDate getConfig.serverName none false 0 0
      sampleResponse true).resumeDue = true := by decide
  refine ⟨_, .refl, hresume, ?_⟩
  exact (h.2 (by decide) (by decide) (by decide) _ .refl).1 hresume

/-- Ten bytes are declared; four are written before `Close` and six after it. -/
def lateWriteEvents : List StreamSession.Event :=
  [.call epochDate (.writeHeader 200 [(ascii "Content-Length", ascii "10")] []),
    .call epochDate (.writeChunk (ascii "abcd")), .round, .round, .call epochDate .close,
    .call epochDate (.writeChunk (ascii "efghij")), .round, .finish epochDate false 1000]

/-- The six late bytes are counted and never emitted, so the kept connection has an
incomplete response. -/
theorem lateWrite_incomplete :
    ∃ s, lateWriteEvents.foldlM (StreamSession.step getConfig) {} = some s ∧ s.resumeDue = true ∧
      ∀ body, ¬ Complete (ascii "GET") s.emitted body := by
  have heval : (lateWriteEvents.foldlM (step getConfig) {}).map
      (fun s => (s.resumeDue, readResponse (ascii "GET") s.emitted)) = some (true, none) := by
    decide +kernel
  obtain ⟨s, hrun, hs⟩ := Option.map_eq_some_iff.mp heval
  obtain ⟨hresume, hread⟩ := Prod.mk.inj hs
  refine ⟨s, hrun, hresume, ?_⟩
  rintro body ⟨m, hm, _⟩
  rw [hread] at hm
  simp at hm

end AlosHttp.H1

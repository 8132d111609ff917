import AlosHttp.H3.Request

/-! A request stream of HTTP/3 as its bytes arrive: `handleStreamFrameIncoming` of `quic_conn.go`
hands the STREAM frames to the stream, starts a worker when the data has ended, and the worker
reads all of it. -/
namespace AlosHttp.H3
open List AlosHttp.Core Quic

/-- What happens to one request stream. `room` says that `quicMaxConcurrentReqStreams` is not
reached; a stream is dropped when it is retired, reset by the peer or closed with its connection. -/
inductive Event
  | deliver (f : QuicStreamFrame) (env : RecvEnv) (room : Bool)
  | serve (cache : QpackBlockCache)
  | drop

def Outcome.closesConnection : Outcome → Bool
  | .closed _ _ => true
  | .dispatched _ => false
  | .rejected _ => false

structure ReqStream where
  received : StreamRun
  dispatched : Bool := false
  queued : Bool := false
  /-- Frames no longer reach the stream, or it ignores them. -/
  gone : Bool := false
  outcomes : List Outcome := []

namespace ReqStream

def startRequest (r : ReqStream) (room : Bool) : ReqStream :=
  if r.dispatched then r
  else if room then { r with dispatched := true, queued := true }
  else { r with dispatched := true, gone := true }

def handleStreamFrameIncoming (r : ReqStream) (f : QuicStreamFrame) (env : RecvEnv) (room : Bool) : ReqStream :=
  if r.gone then r
  else
    let received := r.received.step (.frame f env)
    match (r.received.stream.handleStreamFrame f env).2 with
    | .violation => { r with received := received, gone := true }
    | .finalSizeError => { r with received := received, gone := true }
    | .rejected => { r with received := received, gone := true, dispatched := true }
    | .ignored => { r with received := received }
    | .accepted n endOfData =>
      let r := { r with received := if n > 0 then received.step .credit else received }
      if endOfData then r.startRequest room else r

/-- `serveRequestStream`. An outcome that closes the connection ends the stream too. -/
def serveRequestStream (server : Server) (r : ReqStream) (cache : QpackBlockCache) : ReqStream :=
  if r.queued then
    let o := (handleRequestStream server cache r.received.stream.recvOverflow r.received.stream.readAll.2).2
    { r with
      received := r.received.step .readAll
      queued := false
      gone := r.gone || o.closesConnection
      outcomes := r.outcomes ++ [o] }
  else r

def step (server : Server) (r : ReqStream) : Event → ReqStream
  | .deliver f env room => r.handleStreamFrameIncoming f env room
  | .serve cache => r.serveRequestStream server cache
  | .drop => { r with gone := true }

def run (server : Server) (es : List Event) : ReqStream :=
  es.foldl (step server) { received := { stream := newQUICStream (some server.limits) } }

def cap (server : Server) : ℕ := quicStreamRecvCap (some server.limits) (quicStreamRecvLimit (some server.limits))

/-- A frame that carries a piece of `whole`, and its end where it says so. -/
def Delivers (whole : Bytes) : Event → Prop
  | .deliver f _ _ =>
    (whole.drop f.offset).take f.data.length = f.data ∧ (f.fin = true → f.stop = whole.length)
  | .serve _ | .drop => True

def EndSeen (s : QUICStream) : Prop :=
  s.recvFin = true → s.recvOverflow = false → s.recvFinSeen = true ∧ s.recvFinOff ≤ s.recvOff

def MakesRequest (server : Server) (whole : Bytes) (req : Request) : Prop :=
  ∃ fs, Writes fs whole ∧ Accepted server fs req

structure Inv (server : Server) (whole : Bytes) (r : ReqStream) : Prop where
  tracks : r.gone = false → r.received.Tracks whole (cap server)
  endSeen : EndSeen r.received.stream
  ends : ∀ f ∈ r.received.accepted, f.fin = true → f.stop = whole.length
  started : r.gone = false → r.received.stream.recvFin = true → r.dispatched = true
  kept : r.gone = false → r.dispatched = true → r.queued = true ∨ r.outcomes ≠ []
  fresh : r.dispatched = false → r.queued = false ∧ r.outcomes = []
  unread : r.outcomes = [] → r.received.handed = []
  queued : r.queued = true → r.outcomes = [] ∧ r.received.stream.recvFin = true ∧
    (r.received.stream.recvOverflow = false → r.received.stream.recvBuf = whole) ∧
    (whole.length < cap server → r.received.stream.recvOverflow = false)
  once : r.outcomes.length ≤ 1
  sound : ∀ req, Outcome.dispatched req ∈ r.outcomes → MakesRequest server whole req
  complete : whole.length < cap server → ∀ req, MakesRequest server whole req →
    ∀ o ∈ r.outcomes, o = .dispatched req

variable {server : Server} {whole : Bytes} {r : ReqStream}
variable {f : QuicStreamFrame} {env : RecvEnv} {x y : StreamRun}
open QUICStream

theorem handleStreamFrame_refused {s : QUICStream} (h : (s.handleStreamFrame f env).2.isRejection = true) :
    ∃ m c, (s.handleStreamFrame f env).1 = { s with recvMax := m, recvClosed := c } := by
  have hmax : ∃ m, (if f.stop > s.recvMax then { s with recvMax := f.stop } else s) = { s with recvMax := m } := by
    split_ifs with hlarger
    · exact ⟨f.stop, rfl⟩
    · exact ⟨s.recvMax, rfl⟩
  obtain ⟨m, hmax⟩ := hmax
  unfold handleStreamFrame at h ⊢
  dsimp only at h ⊢
  rw [hmax] at h ⊢
  split_ifs at h ⊢ with hclosed hgrant hfinal hcredit
  iterate 4 exact ⟨s.recvMax, s.recvClosed, rfl⟩
  · cases hdata : { s with recvMax := m }.receiveData f env with
    | none => exact ⟨m, true, rfl⟩
    | some p =>
      rw [hdata] at h
      cases h

theorem handleStreamFrame_end {n : ℕ} (h : x.Tracks whole n)
    (hres : (x.stream.handleStreamFrame f env).2.isRejection = false) (hend : EndSeen x.stream) :
    EndSeen (x.stream.handleStreamFrame f env).1 ∧
      (x.stream.recvFin = true → (x.stream.handleStreamFrame f env).1.recvFin = true) := by
  obtain ⟨heq, -⟩ | ⟨m, u, k, hfinal, -, -, -, hdata, heq⟩ := handleStreamFrame_cases x.stream f env hres
  · rw [heq]
    exact ⟨hend, id⟩
  obtain ⟨hshaped, hhas, honly⟩ := receiveData_shaped (h.holds.withRecvMax m).shaped hdata
  have hgrow : x.stream.recvOff ≤ u.recvOff := by
    by_contra hlt
    exact hshaped.not_has_recvOff ((hhas _).mpr (Or.inl (Or.inl (not_le.mp hlt))))
  have hnote := noteFin_eq u f.stop f.fin
  have hseen : u.recvFinSeen = x.stream.recvFinSeen := by rw [honly]
  have hoff : u.recvFinOff = x.stream.recvFinOff := by rw [honly]
  have hfin : u.recvFin = x.stream.recvFin := by rw [honly]
  have hover : u.recvOverflow = x.stream.recvOverflow := by rw [honly]
  rw [hseen, hoff, hfin, hover] at hnote
  rw [heq]
  constructor
  · intro hended hnot
    rw [hnote] at hended hnot ⊢
    obtain ⟨hnot, hcut⟩ := Bool.or_eq_false_iff.mp hnot
    rw [Bool.or_eq_true] at hended
    have hproper : (x.stream.recvFin || decide ((x.stream.recvFinSeen || f.fin) = true ∧
        u.recvOff ≥ if f.fin = true then f.stop else x.stream.recvFinOff)) = true := by
      obtain hended | hfull := hended
      · exact hended
      by_contra hopen
      rw [Bool.eq_false_iff.mpr hopen, hfull] at hcut
      cases hcut
    rw [Bool.or_eq_true, decide_eq_true_eq] at hproper
    obtain hold | hnew := hproper
    · obtain ⟨hs, hle⟩ := hend hold hnot
      rw [StreamRun.finOff_kept hfinal hs, hs]
      exact ⟨rfl, hle.trans hgrow⟩
    · exact hnew
  intro hold
  rw [hnote, hold]
  rfl

theorem recvBuf_of_end {n : ℕ} (h : x.Tracks whole n)
    (hends : ∀ f ∈ x.accepted, f.fin = true → f.stop = whole.length) (hend : EndSeen x.stream)
    (hhanded : x.handed = []) (hfin : x.stream.recvFin = true) (hover : x.stream.recvOverflow = false) :
    x.stream.recvBuf = whole := by
  obtain ⟨hseen, hle⟩ := hend hfin hover
  obtain ⟨f, hf, hffin⟩ := h.finSeen.mp hseen
  have hoff := (h.finOff f hf hffin).symm.trans (hends f hf hffin)
  have hcontiguous := h.holds.contiguous
  rw [hhanded, nil_append] at hcontiguous
  rw [hcontiguous]
  exact take_of_length_le (hoff ▸ hle)

theorem not_overflow {n : ℕ} (h : x.Tracks whole n) (hlen : whole.length < n) : x.stream.recvOverflow = false := by
  by_contra hover
  have hfull := h.overflow (Bool.eq_true_of_not_eq_false hover)
  have hle := h.holds.off_le
  omega

structure Takes (server : Server) (whole : Bytes) (x y : StreamRun) : Prop where
  tracks : y.Tracks whole (cap server)
  endSeen : EndSeen y.stream
  ends : ∀ f ∈ y.accepted, f.fin = true → f.stop = whole.length
  handed : y.handed = x.handed
  fin : x.stream.recvFin = true → y.stream.recvFin = true

theorem frame_stream (x : StreamRun) (f : QuicStreamFrame) (env : RecvEnv) :
    (x.step (.frame f env)).stream = (x.stream.handleStreamFrame f env).1 := rfl

theorem credit_stream (x : StreamRun) : ∃ m, (x.step .credit).stream = { x.stream with recvGranted := m } := by
  unfold StreamRun.step streamCreditToGrant
  split_ifs with hkeep
  all_goals exact ⟨_, rfl⟩

theorem Takes.credit (h : Takes server whole x y) : Takes server whole x (y.step .credit) := by
  obtain ⟨m, hstream⟩ := credit_stream y
  refine ⟨h.tracks.credit, ?_, h.ends, h.handed, ?_⟩
  · rw [hstream]
    exact h.endSeen
  rw [hstream]
  exact h.fin

section
variable (h : Inv server whole r)
include h

theorem Inv.frame (hgone : r.gone = false) {room : Bool} (he : Delivers whole (.deliver f env room))
    (hres : (r.received.stream.handleStreamFrame f env).2.isRejection = false) :
    Takes server whole r.received (r.received.step (.frame f env)) := by
  have ht := h.tracks hgone
  obtain ⟨hseen, hfin⟩ := handleStreamFrame_end ht hres h.endSeen
  refine ⟨ht.frame he.1 hres, hseen, ?_, rfl, hfin⟩
  intro g hg hgfin
  have hacc := StreamRun.accepted_append r.received (r.received.stream.handleStreamFrame f env).1 f
    (r.received.stream.handleStreamFrame f env).2
  unfold StreamRun.step at hg
  rw [hacc] at hg
  split_ifs at hg with hyes
  · obtain hg | hg := mem_append.mp hg
    · exact h.ends g hg hgfin
    rw [mem_singleton.mp hg] at hgfin ⊢
    exact he.2 hgfin
  · exact h.ends g hg hgfin

theorem Inv.takes (hy : Takes server whole r.received y)
    (hstart : y.stream.recvFin = true → r.dispatched = true) : Inv server whole { r with received := y } where
  tracks _ := hy.tracks
  endSeen := hy.endSeen
  ends := hy.ends
  started _ := hstart
  kept := h.kept
  fresh := h.fresh
  unread ho := hy.handed.trans (h.unread ho)
  queued hq := by
    obtain ⟨houtcomes, hfin, -, -⟩ := h.queued hq
    have hhanded : y.handed = [] := hy.handed.trans (h.unread houtcomes)
    exact ⟨houtcomes, hy.fin hfin, recvBuf_of_end hy.tracks hy.ends hy.endSeen hhanded (hy.fin hfin),
      not_overflow hy.tracks⟩
  once := h.once
  sound := h.sound
  complete := h.complete

theorem Inv.startRequest (hy : Takes server whole r.received y) (hfin : y.stream.recvFin = true) (room : Bool) :
    Inv server whole ({ r with received := y }.startRequest room) := by
  unfold ReqStream.startRequest
  by_cases hdispatched : r.dispatched = true
  · rw [if_pos hdispatched]
    exact h.takes hy fun _ => hdispatched
  rw [if_neg hdispatched]
  obtain ⟨hqueued, houtcomes⟩ := h.fresh (Bool.eq_false_iff.mpr hdispatched)
  have hhanded : y.handed = [] := hy.handed.trans (h.unread houtcomes)
  cases room with
  | true =>
    exact
      { tracks := fun _ => hy.tracks
        endSeen := hy.endSeen
        ends := hy.ends
        started := fun _ _ => rfl
        kept := fun _ _ => Or.inl rfl
        fresh := nofun
        unread := fun _ => hhanded
        queued := fun _ => ⟨houtcomes, hfin, recvBuf_of_end hy.tracks hy.ends hy.endSeen hhanded hfin,
          not_overflow hy.tracks⟩
        once := h.once
        sound := h.sound
        complete := h.complete }
  | false =>
    exact
      { tracks := fun _ => hy.tracks
        endSeen := hy.endSeen
        ends := hy.ends
        started := fun _ _ => rfl
        kept := nofun
        fresh := nofun
        unread := fun _ => hhanded
        queued := fun hq => absurd (hqueued.symm.trans hq) Bool.false_ne_true
        once := h.once
        sound := h.sound
        complete := h.complete }

theorem Inv.refused {d : Bool}
    (hres : (r.received.stream.handleStreamFrame f env).2.isRejection = true) (hd : r.dispatched = true → d = true) :
    Inv server whole { r with received := r.received.step (.frame f env), gone := true, dispatched := d } := by
  obtain ⟨m, c, hstream⟩ := handleStreamFrame_refused hres
  have hacc := StreamRun.accepted_append r.received (r.received.stream.handleStreamFrame f env).1 f
    (r.received.stream.handleStreamFrame f env).2
  have hnot : (r.received.stream.handleStreamFrame f env).2.isAccepted = false := by
    revert hres
    cases (r.received.stream.handleStreamFrame f env).2 with
    | accepted n e =>
      intro hres
      cases hres
    | _ => exact fun _ => rfl
  rw [hnot, if_neg Bool.false_ne_true] at hacc
  have hkeep : (r.received.step (.frame f env)).stream = { r.received.stream with recvMax := m, recvClosed := c } :=
    hstream
  refine ⟨nofun, ?_, ?_, nofun, nofun, ?_, h.unread, ?_, h.once, h.sound, h.complete⟩
  · rw [hkeep]
    exact h.endSeen
  · intro g hg
    unfold StreamRun.step at hg
    rw [hacc] at hg
    exact h.ends g hg
  · intro hfresh
    apply h.fresh
    by_contra hdispatched
    have hd := hd (Bool.eq_true_of_not_eq_false hdispatched)
    rw [hd] at hfresh
    cases hfresh
  intro hq
  rw [hkeep]
  exact h.queued hq

theorem Inv.deliver {room : Bool} (he : Delivers whole (.deliver f env room)) :
    Inv server whole (r.handleStreamFrameIncoming f env room) := by
  unfold handleStreamFrameIncoming
  split_ifs with hgone
  · exact h
  have hgone : r.gone = false := Bool.eq_false_iff.mpr hgone
  cases hres : (r.received.stream.handleStreamFrame f env).2 with
  | violation | finalSizeError => exact h.refused (by rw [hres]; rfl) id
  | rejected => exact h.refused (by rw [hres]; rfl) fun _ => rfl
  | ignored =>
    have hok : (r.received.stream.handleStreamFrame f env).2.isRejection = false := by rw [hres]; rfl
    refine h.takes (h.frame hgone he hok) ?_
    obtain ⟨heq, -⟩ | ⟨m, u, k, -, -, -, -, -, heq⟩ := QUICStream.handleStreamFrame_cases _ f env hok
    · intro hfin
      rw [frame_stream, heq] at hfin
      exact h.started hgone hfin
    rw [heq] at hres
    cases hres
  | accepted n endOfData =>
    have hok : (r.received.stream.handleStreamFrame f env).2.isRejection = false := by rw [hres]; rfl
    have htakes := h.frame hgone he hok
    -- the flag is that of the stream after the frame
    have hflag : (r.received.step (.frame f env)).stream.recvFin = endOfData := by
      rw [frame_stream]
      obtain ⟨heq, -⟩ | ⟨m, u, k, -, -, -, -, -, heq⟩ := QUICStream.handleStreamFrame_cases _ f env hok
      · rw [heq] at hres
        cases hres
      rw [heq] at hres ⊢
      cases hres
      rfl
    have hy : ∃ y, (if n > 0 then (r.received.step (.frame f env)).step .credit
        else r.received.step (.frame f env)) = y ∧
        Takes server whole r.received y ∧ y.stream.recvFin = endOfData := by
      split_ifs with hn
      · obtain ⟨m, hstream⟩ := credit_stream (r.received.step (.frame f env))
        refine ⟨_, rfl, htakes.credit, ?_⟩
        rw [hstream]
        exact hflag
      · exact ⟨_, rfl, htakes, hflag⟩
    obtain ⟨y, hy, htakes, hflag⟩ := hy
    dsimp only
    rw [hy]
    cases endOfData with
    | true => exact h.startRequest htakes hflag room
    | false =>
      refine h.takes htakes ?_
      intro hfin
      rw [hflag] at hfin
      cases hfin

theorem Inv.serve (cache : QpackBlockCache) : Inv server whole (r.serveRequestStream server cache) := by
  unfold serveRequestStream
  split_ifs with hqueued
  · dsimp only
    obtain ⟨houtcomes, hfin, hbuf, hover⟩ := h.queued hqueued
    have hall : r.received.stream.readAll = ({ r.received.stream with recvBuf := [] }, r.received.stream.recvBuf) := by
      unfold QUICStream.readAll
      rw [if_pos (Bool.or_eq_true_iff.mpr (Or.inl hfin))]
    have hstream : (r.received.step .readAll).stream = { r.received.stream with recvBuf := [] } :=
      congrArg Prod.fst hall
    rw [hall, houtcomes, nil_append]
    generalize ho : (handleRequestStream server cache r.received.stream.recvOverflow r.received.stream.recvBuf).2 = o
    have hsound : ∀ req, o = .dispatched req → MakesRequest server whole req := by
      intro req hreq
      rw [hreq] at ho
      cases hcut : r.received.stream.recvOverflow with
      | true =>
        rw [hcut] at ho
        cases ho
      | false =>
        rw [hcut, hbuf hcut] at ho
        exact handleRequestStream_dispatched_iff.mp ho
    have hcomplete : whole.length < cap server → ∀ req, MakesRequest server whole req → o = .dispatched req := by
      intro hlen req hreq
      rw [hover hlen, hbuf (hover hlen)] at ho
      rw [← ho]
      exact handleRequestStream_dispatched_iff.mpr hreq
    refine ⟨fun hg => (h.tracks (Bool.or_eq_false_iff.mp hg).1).readAll, ?_, h.ends, ?_, ?_, ?_, ?_, ?_, le_rfl, ?_, ?_⟩
    · rw [hstream]
      exact h.endSeen
    · intro hg _
      exact h.started (Bool.or_eq_false_iff.mp hg).1 hfin
    · exact fun _ _ => Or.inr (cons_ne_nil _ _)
    · intro hfresh
      have hq := (h.fresh hfresh).1
      rw [hqueued] at hq
      cases hq
    · intro hnil
      cases hnil
    · intro hq
      cases hq
    · intro req hmem
      exact hsound req (mem_singleton.mp hmem).symm
    intro hlen req hreq _ hmem
    rw [mem_singleton.mp hmem]
    exact hcomplete hlen req hreq
  · exact h

theorem Inv.drop : Inv server whole { r with gone := true } where
  tracks := nofun
  endSeen := h.endSeen
  ends := h.ends
  started := nofun
  kept := nofun
  fresh := h.fresh
  unread := h.unread
  queued := h.queued
  once := h.once
  sound := h.sound
  complete := h.complete

theorem Inv.step {e : Event} (he : Delivers whole e) : Inv server whole (r.step server e) := by
  cases e with
  | deliver f env room => exact h.deliver he
  | serve cache => exact h.serve cache
  | drop => exact h.drop

end

theorem inv_new (server : Server) (whole : Bytes) :
    Inv server whole { received := { stream := newQUICStream (some server.limits) } } where
  tracks _ := StreamRun.tracks_new (some server.limits) whole
  endSeen hn := Bool.noConfusion hn
  ends _ hf := absurd hf not_mem_nil
  started _ hn := Bool.noConfusion hn
  kept _ hn := Bool.noConfusion hn
  fresh _ := ⟨rfl, rfl⟩
  unread _ := rfl
  queued hn := Bool.noConfusion hn
  once := Nat.zero_le 1
  sound _ hmem := absurd hmem not_mem_nil
  complete _ _ _ _ hmem := absurd hmem not_mem_nil

theorem inv_run (server : Server) (whole : Bytes) (es : List Event) (hes : ∀ e ∈ es, Delivers whole e) :
    Inv server whole (run server es) := by
  induction es using reverseRecOn with
  | nil => exact inv_new server whole
  | append_singleton es e ih =>
    rw [run, foldl_append]
    have hold := ih fun d hd => hes d (mem_append_left _ hd)
    exact hold.step (hes e (mem_append_right _ mem_cons_self))

def Complete (whole : Bytes) (r : ReqStream) : Prop :=
  r.gone = false ∧ (∃ f ∈ r.received.accepted, f.fin = true) ∧ ∀ i < whole.length, r.received.Arrived i

theorem Inv.complete_started (h : Inv server whole r) (hall : Complete whole r) :
    r.queued = true ∨ r.outcomes ≠ [] := by
  obtain ⟨hgone, hfin, harrived⟩ := hall
  have ht := h.tracks hgone
  have hseen := ht.finSeen.mpr hfin
  obtain ⟨f, hf, hffin⟩ := hfin
  have hoff := (ht.finOff f hf hffin).symm.trans (h.ends f hf hffin)
  have hended : r.received.stream.recvFin = true := by
    rw [ht.fin_iff, hoff]
    exact Or.inl ⟨hseen, (ht.le_recvOff_iff _).mpr harrived⟩
  exact h.kept hgone (h.started hgone hended)

theorem serve_outcomes (cache : QpackBlockCache) (h : r.queued = true ∨ r.outcomes ≠ []) :
    (r.serveRequestStream server cache).outcomes ≠ [] := by
  unfold serveRequestStream
  split_ifs with hqueued
  · exact append_ne_nil_of_right_ne_nil _ (cons_ne_nil _ _)
  · exact h.resolve_left hqueued

end ReqStream

/-- However its bytes arrive, a request stream gives at most one request, the one that its frames
make; and if they make one below the receive cap, a worker after the last byte and the end gives it
to a handler. -/
theorem requestStream_dispatches (server : Server) (whole : Bytes) (es : List Event)
    (hes : ∀ e ∈ es, ReqStream.Delivers whole e) :
    let r := ReqStream.run server es
    r.outcomes.length ≤ 1 ∧
    (∀ req, Outcome.dispatched req ∈ r.outcomes → ∃ fs, Writes fs whole ∧ Accepted server fs req) ∧
    (whole.length < ReqStream.cap server → r.Complete whole → ∀ cache fs req, Writes fs whole →
      Accepted server fs req → (r.step server (.serve cache)).outcomes = [.dispatched req]) := by
  intro r
  have h : r.Inv server whole := ReqStream.inv_run server whole es hes
  refine ⟨h.once, h.sound, ?_⟩
  intro hlen hall cache fs req hwrites haccepted
  have hserved : (r.step server (.serve cache)).Inv server whole := h.serve cache
  have hsome : (r.step server (.serve cache)).outcomes ≠ [] := ReqStream.serve_outcomes cache (h.complete_started hall)
  obtain ⟨o, ho⟩ := length_eq_one_iff.mp (le_antisymm hserved.once (length_pos_iff.mpr hsome))
  have hreq := hserved.complete hlen req ⟨fs, hwrites, haccepted⟩ o (ho ▸ mem_singleton_self o)
  rw [ho, hreq]

def getFrames : List Frame :=
  [⟨h3FrameHeaders, [0, 0, 0xd1, 0xc1, 0xd7]⟩, ⟨0x21, [255]⟩, ⟨h3FrameData, [97, 98]⟩, ⟨h3FrameData, [99]⟩]

def getBytes : Bytes := [1, 5, 0, 0, 0xd1, 0xc1, 0xd7, 0x21, 1, 255, 0, 2, 97, 98, 0, 1, 99]

def getDeliveries : List Event :=
  [.deliver ⟨8, getBytes.drop 8, true⟩ {} true, .deliver ⟨0, getBytes.take 9, false⟩ {} true]

def smallServer (maxBodySize : ℤ) : Server := { limits := ⟨0, maxBodySize, 65536⟩ }

theorem getBytes_writes : Writes getFrames getBytes :=
  Writes.cons (t := [1]) (l := [5]) (by unfold IsVarint; decide) (by unfold IsVarint; decide)
    (Writes.cons (t := [0x21]) (l := [1]) (by unfold IsVarint; decide) (by unfold IsVarint; decide)
      (Writes.cons (t := [0]) (l := [2]) (by unfold IsVarint; decide) (by unfold IsVarint; decide)
        (Writes.cons (t := [0]) (l := [1]) (by unfold IsVarint; decide) (by unfold IsVarint; decide) Writes.nil)))

theorem getDeliveries_delivers : ∀ e ∈ getDeliveries, ReqStream.Delivers getBytes e :=
  forall_mem_cons.mpr ⟨⟨by decide, by decide⟩, forall_mem_cons.mpr ⟨⟨by decide, by decide⟩,
    fun _ h => absurd h not_mem_nil⟩⟩

theorem getDeliveries_complete (maxBodySize : ℤ) (h : maxBodySize = 3 ∨ maxBodySize = 2) :
    (ReqStream.run (smallServer maxBodySize) getDeliveries).Complete getBytes := by
  unfold ReqStream.Complete StreamRun.Arrived
  obtain rfl | rfl := h
  all_goals decide +kernel

theorem getHead_valid (maxBodySize : ℤ) : requestSection (smallServer maxBodySize) [0, 0, 0xd1, 0xc1, 0xd7] =
      .ok
        ({ method := ascii "GET", path := [slash], rawPath := [slash], scheme := ascii "https", pseudoMask := 7 }, []) := by
  -- the limit for a section is that of the headers alone
  have hlimit : requestSection (smallServer maxBodySize) = requestSection (smallServer 0) := rfl
  rw [hlimit]
  decide +kernel

theorem requestStream_dispatches_reordered :
    ((ReqStream.run (smallServer 3) getDeliveries).step (smallServer 3) (.serve .empty)).outcomes =
      [.dispatched ⟨ascii "GET", [slash], [slash], [], [], [], [], [97, 98, 99]⟩] := by
  have h := requestStream_dispatches (smallServer 3) getBytes getDeliveries getDeliveries_delivers
  have haccepted : Accepted (smallServer 3) getFrames ⟨ascii "GET", [slash], [slash], [], [], [], [], [97, 98, 99]⟩ :=
    ⟨[0, 0, 0xd1, 0xc1, 0xd7], [[97, 98], [99]], none, _, rfl, getHead_valid 3, rfl, rfl,
      nofun, ⟨by decide, by decide, rfl⟩, rfl, rfl, rfl, rfl, rfl⟩
  exact h.2.2 (by decide) (getDeliveries_complete 3 (Or.inl rfl)) .empty getFrames _ getBytes_writes haccepted

theorem long_body_refused : Writes getFrames getBytes ∧ Forms getFrames [0, 0, 0xd1, 0xc1, 0xd7] [[97, 98], [99]] none ∧
      (∃ reqMeta, requestSection (smallServer 2) [0, 0, 0xd1, 0xc1, 0xd7] = .ok (reqMeta, []) ∧
        reqMeta.hasContentLength = false) ∧
      (∀ e ∈ getDeliveries, ReqStream.Delivers getBytes e) ∧
      (ReqStream.run (smallServer 2) getDeliveries).Complete getBytes ∧
      ((ReqStream.run (smallServer 2) getDeliveries).step (smallServer 2) (.serve .empty)).outcomes = [.rejected 413] :=
  ⟨getBytes_writes, rfl, ⟨_, getHead_valid 2, rfl⟩, getDeliveries_delivers,
    getDeliveries_complete 2 (Or.inr rfl), by decide +kernel⟩

end AlosHttp.H3

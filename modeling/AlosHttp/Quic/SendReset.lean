import AlosHttp.Quic.SendOrder

/-! RESET_STREAM ends a stream: when no STREAM frame of the stream comes after it. -/
namespace AlosHttp.Quic
open List

/-- The second frame is a STREAM frame of the stream that the first one resets. -/
def QuicFrame.ends : QuicFrame → QuicFrame → Bool
  | .resetStream id _ _, .stream streamID _ _ _ => id == streamID
  | _, _ => false

def BuiltPacket.frames (p : BuiltPacket) : List QuicFrame := framesIn p.pieces

/-- No packet contains a STREAM frame of a stream that an earlier packet resets. -/
def NoStreamAfterReset (ps : List BuiltPacket) : Prop :=
  ps.Pairwise fun p q => ∀ f ∈ p.frames, ∀ g ∈ q.frames, f.ends g = false

instance (ps : List BuiltPacket) : Decidable (NoStreamAfterReset ps) := inferInstanceAs (Decidable (List.Pairwise ..))

theorem QuicFrame.ofStream_of_ends {f g : QuicFrame} (h : f.ends g = true) : f.ofStream = true ∧ g.ofStream = true := by
  cases f <;> cases g <;> first | exact ⟨rfl, rfl⟩ | cases h

theorem noStreamAfterReset_of_pairwise {ps : List BuiltPacket}
    (h : ((ps.flatMap BuiltPacket.frames).filter QuicFrame.ofStream).Pairwise fun f g => f.ends g = false) :
    NoStreamAfterReset ps := by
  rw [pairwise_filter, pairwise_flatMap] at h
  refine h.2.imp fun hpq f hf g hg => ?_
  by_contra hends
  rw [Bool.not_eq_false] at hends
  obtain ⟨hfs, hgs⟩ := QuicFrame.ofStream_of_ends hends
  exact Bool.false_ne_true ((hpq f hf g hg hfs hgs).symm.trans hends)

namespace SendConn

def wirePackets (c : SendConn) : List BuiltPacket := c.packets.filter BuiltPacket.onWire

/-- What a step sends again has no STREAM frame of a stream whose RESET_STREAM frame is in a packet, or
for what goes through the coalescing buffer, in the buffer. -/
def AgainWithoutReset (c : SendConn) : SendEvent → Prop
  | .recoverLost cutoff => ∀ frames ∈ (c.loss.detectLost .appData cutoff).2, ∀ g ∈ frames,
    ∀ f ∈ framesIn (c.sentPieces ++ c.coalesced), f.ends g = false
  | .tick cutoff => ∀ frames ∈ (c.loss.ptoExpiredFrames .appData cutoff).2, ∀ g ∈ frames,
    ∀ f ∈ framesIn c.sentPieces, f.ends g = false
  | _ => True

def AllAgainWithoutReset : SendConn → List (ℤ × SendEvent) → Prop
  | _, [] => True
  | c, e :: es => c.AgainWithoutReset e.2 ∧ AllAgainWithoutReset (c.step e.1 e.2) es

/-- The frames of streams in packets and in the coalescing buffer, in order. -/
def made (c : SendConn) : List QuicFrame := c.allLog.map Prod.fst

def sent (c : SendConn) : List QuicFrame := c.sentLog.map Prod.fst

theorem made_eq (c : SendConn) : c.made = c.sent ++ (logOf c.coalesced).map Prod.fst := map_append

theorem sent_sublist_made (c : SendConn) : c.sent.Sublist c.made := by
  rw [made_eq]
  exact sublist_append_left _ _

structure ResetInv (c : SendConn) : Prop where
  tracked : c.Tracked
  order : c.made.Pairwise fun f g => f.ends g = false
  reset : ∀ id errorCode finalSize, .resetStream id errorCode finalSize ∈ c.made →
    (c.streams id).sendReset = true ∨ id ∉ c.opened ∧ id ∈ c.claimed
  unopened : ∀ id ∉ c.opened, (c.streams id).sendReset = false
  kinds : ∀ id ∈ c.claimed, id % 4 = 0

variable {c c' : SendConn}

theorem ResetInv.sends (h : c.ResetInv) (hs : c.Sends c') : c'.ResetInv := by
  have hmade : c'.made = c.made := by rw [made, hs.order, made]
  have hsame : c'.streams = c.streams ∧ c'.opened = c.opened ∧ c'.claimed = c.claimed := by
    rw [hs.same]
    exact ⟨rfl, rfl, rfl⟩
  obtain ⟨hstreams, hopened, hclaimed⟩ := hsame
  refine ⟨hs.tracked h.tracked, ?_, ?_, ?_, ?_⟩
  · rw [hmade]
    exact h.order
  · rw [hmade, hstreams, hopened, hclaimed]
    exact h.reset
  · rw [hstreams, hopened]
    exact h.unopened
  rw [hclaimed]
  exact h.kinds

theorem made_queue (c : SendConn) (p : Piece) : (c.queue p).made = c.made ++ p.log.map Prod.fst := by
  change (c.sentLog ++ logOf (c.coalesced ++ [p])).map Prod.fst = _
  rw [logOf_append, logOf_singleton, ← append_assoc, map_append]
  rfl

section
variable (h : c.ResetInv)
include h

theorem ResetInv.queue {p : Piece} (hp : (p.log.map Prod.fst).Pairwise fun f g => f.ends g = false)
    (hafter : ∀ f ∈ c.made, ∀ g ∈ p.log.map Prod.fst, f.ends g = false)
    (hreset : ∀ id errorCode finalSize, .resetStream id errorCode finalSize ∈ p.log.map Prod.fst →
      (c.streams id).sendReset = true ∨ id ∉ c.opened ∧ id ∈ c.claimed) : (c.queue p).ResetInv := by
  refine { h with order := ?_, reset := ?_ }
  · rw [made_queue, pairwise_append]
    exact ⟨h.order, hp, hafter⟩
  intro id errorCode finalSize hmem
  rw [made_queue] at hmem
  obtain hmem | hmem := mem_append.mp hmem
  · exact h.reset id errorCode finalSize hmem
  · exact hreset id errorCode finalSize hmem

open Function

theorem ResetInv.change {id : ℕ} (hid : id ∈ c.opened) {s : SendStream}
    (hs : (c.streams id).sendReset = true → s.sendReset = true) : (c.on id fun _ => s).ResetInv := by
  refine { h with reset := ?_, unopened := ?_ }
  · intro i errorCode finalSize hmem
    change (update c.streams id s i).sendReset = true ∨ _
    obtain hreset | hnone := h.reset i errorCode finalSize hmem
    · left
      by_cases hi : i = id
      · subst hi
        rw [update_self]
        exact hs hreset
      rw [update_of_ne hi]
      exact hreset
    · exact .inr hnone
  intro i hi
  change (update c.streams id s i).sendReset = false
  rw [update_of_ne (ne_of_mem_of_not_mem hid hi).symm]
  exact h.unopened i hi

theorem ResetInv.no_reset {id : ℕ} (hs : (c.streams id).sendReset = false)
    (hid : id ∈ c.opened ∨ id ∉ c.claimed) (errorCode finalSize : ℕ) :
    .resetStream id errorCode finalSize ∉ c.made := by
  intro hmem
  obtain hreset | ⟨hclosed, hclaimed⟩ := h.reset id errorCode finalSize hmem
  · exact Bool.false_ne_true (hs.symm.trans hreset)
  obtain hid | hid := hid
  · exact hclosed hid
  · exact hid hclaimed

theorem ResetInv.open {id : ℕ} (hid : id ∉ c.opened) (hnew : id ∉ c.claimed) {maxSend nextUniLocal : ℕ}
    {claimed : Finset ℕ} (hsub : c.claimed ⊆ claimed) (hkinds : ∀ i ∈ claimed, i % 4 = 0) :
    ResetInv { c with
      nextUniLocal, claimed, opened := insert id c.opened
      streams := update c.streams id { maxSend } } := by
  refine { h with reset := ?_, unopened := ?_, kinds := hkinds }
  · intro i errorCode finalSize hmem
    have hne : i ≠ id := by
      rintro rfl
      exact h.no_reset (h.unopened i hid) (.inr hnew) errorCode finalSize hmem
    dsimp only
    rw [update_of_ne hne]
    obtain hreset | ⟨hclosed, hclaimed⟩ := h.reset i errorCode finalSize hmem
    · exact .inl hreset
    · exact .inr ⟨Finset.mem_insert.not.mpr (not_or_intro hne hclosed), hsub hclaimed⟩
  intro i hi
  have hi' : i ∉ c.opened := fun hmem => hi (Finset.mem_insert_of_mem hmem)
  have hne : i ≠ id := by
    rintro rfl
    exact hi (Finset.mem_insert_self _ _)
  dsimp only
  rw [update_of_ne hne]
  exact h.unopened i hi'

theorem ResetInv.claim {id : ℕ} (hid : id % 4 = 0) : ResetInv { c with claimed := insert id c.claimed } := by
  refine { h with reset := ?_, kinds := ?_ }
  · intro i errorCode finalSize hmem
    obtain hreset | ⟨hclosed, hclaimed⟩ := h.reset i errorCode finalSize hmem
    · exact .inl hreset
    · exact .inr ⟨hclosed, Finset.mem_insert_of_mem hclaimed⟩
  intro i hi
  obtain rfl | hi := Finset.mem_insert.mp hi
  · exact hid
  · exact h.kinds i hi

end

open SendStream

theorem Changes.sendReset_eq {id : ℕ} {s t : SendStream} (ht : s.Changes id t) : t.sendReset = s.sendReset := by
  cases ht with
  | write hid data =>
    unfold write
    split_ifs <;> rfl
  | finishWrite | close | maxSend | blockedSent => rfl
  | respond hid hfirst data =>
    unfold setSendBuf
    split_ifs <;> rfl

theorem drainSendBuf_sendReset (s : SendStream) (n : ℕ) : (s.drainSendBuf n).1.sendReset = s.sendReset := by
  unfold drainSendBuf
  split_ifs <;> rfl

open QuicFrame

theorem ResetInv.emit (h : c.ResetInv) {id n : ℕ} (hid : id ∈ c.opened) (hreset : (c.streams id).sendReset = false) :
    (c.emit id n).ResetInv := by
  have hkeep := drainSendBuf_sendReset (c.streams id) n
  unfold SendConn.emit
  generalize (c.streams id).drainSendBuf n = drained at hkeep ⊢
  obtain ⟨s, data, _, _⟩ := drained
  have hchange := @ResetInv.change c h id hid s fun hs => hkeep.trans hs
  have hcount : ResetInv { c.on id (fun _ => s) with dataSent := c.dataSent + data.length } := { hchange with }
  refine hcount.queue (pairwise_singleton _ _) ?_ ?_
  · intro f hf g hg
    rw [mem_singleton.mp hg]
    cases f with
    | stream | other => rfl
    | resetStream i errorCode finalSize =>
      -- The stream was not reset, so the frame is about another one.
      rw [ends, beq_eq_false_iff_ne]
      rintro rfl
      exact h.no_reset hreset (.inl hid) errorCode finalSize hf
  intro i errorCode finalSize hmem
  exact absurd (mem_singleton.mp hmem) nofun

theorem ends_resetStream (f : QuicFrame) (id errorCode finalSize : ℕ) :
    f.ends (.resetStream id errorCode finalSize) = false := by
  cases f <;> rfl

theorem ResetInv.queueReset (h : c.ResetInv) {id errorCode finalSize : ℕ} {p : Piece}
    (hp : p.log.map Prod.fst = [.resetStream id errorCode finalSize])
    (hid : (c.streams id).sendReset = true ∨ id ∉ c.opened ∧ id ∈ c.claimed) : (c.queue p).ResetInv := by
  apply h.queue
  · rw [hp]
    exact pairwise_singleton _ _
  · intro f _ g hg
    rw [hp] at hg
    rw [mem_singleton.mp hg]
    exact ends_resetStream f id errorCode finalSize
  intro i _ _ hmem
  rw [hp] at hmem
  obtain ⟨rfl, -, -⟩ := resetStream.inj (mem_singleton.mp hmem)
  exact hid

theorem ResetInv.acts (h : c.ResetInv) (hinv : c.Inv) (ha : c.Acts c') : c'.ResetInv := by
  cases ha with
  | none => exact h
  | limit n hn => exact { h with }
  | change hid hs => exact h.change hid fun hreset => (Changes.sendReset_eq hs).trans hreset
  | openUni =>
    obtain ⟨hmod, hbelow⟩ := hinv.uni
    have hid : c.nextUniLocal ∉ c.opened := fun hmem => lt_irrefl _ (hbelow _ hmem hmod)
    have hnew : c.nextUniLocal ∉ c.claimed := fun hmem => absurd ((h.kinds _ hmem).symm.trans hmod) (by decide)
    exact h.open hid hnew (Finset.Subset.refl _) h.kinds
  | openRequest hid hnew =>
    have hclosed := fun hmem => hnew (hinv.claimed _ hmem hid)
    refine h.open hclosed hnew (Finset.subset_insert _ _) fun i hi => ?_
    obtain rfl | hi := Finset.mem_insert.mp hi
    · exact hid
    · exact h.kinds i hi
  | claim hid hnew => exact h.claim hid
  | refuse hid hnew =>
    have hclosed := fun hmem => hnew (hinv.claimed _ hmem hid)
    exact (h.claim hid).queueReset rfl (.inr ⟨hclosed, Finset.mem_insert_self _ _⟩)
  | frame hid hconn hstream hreset => exact h.emit hid hreset
  | reset hid errorCode hfirst =>
    have hreset := congrArg (fun r => r.1.sendReset) (resetSend_first hfirst)
    refine (h.change hid fun _ => hreset).queueReset rfl (.inl ?_)
    exact (congrArg sendReset (Function.update_self ..)).trans hreset

theorem mem_framesIn_of_made {f : QuicFrame} (hf : f ∈ c.made) : f ∈ framesIn (c.sentPieces ++ c.coalesced) := by
  rw [made, allLog, sentLog, ← logOf_append, map_fst_logOf] at hf
  exact mem_of_mem_filter hf

theorem mem_framesIn_of_sent {f : QuicFrame} (hf : f ∈ c.sent) : f ∈ framesIn c.sentPieces := by
  rw [sent, sentLog, map_fst_logOf] at hf
  exact mem_of_mem_filter hf

theorem map_fst_again (frames : List QuicFrame) : (Piece.log ⟨frames, true⟩).map Prod.fst = frames.filter ofStream := by
  rw [Piece.log, map_map]
  exact map_id _

/-- A packet's frames, and those that came before them do not end them. -/
structure Again (c : SendConn) (before frames : List QuicFrame) : Prop where
  sent : (frames.filter QuicFrame.ofStream).Sublist c.sent
  clean : ∀ g ∈ frames, ∀ f ∈ before, f.ends g = false

theorem Again.mem {before frames : List QuicFrame} (ha : c.Again before frames) {f : QuicFrame}
    (hf : f ∈ frames.filter ofStream) : f ∈ c.made := (ha.sent.trans c.sent_sublist_made).mem hf

theorem ResetInv.queueAgain (h : c.ResetInv) {frames : List QuicFrame} (ha : c.Again c.made frames) :
    (c.queue ⟨frames, true⟩).ResetInv := by
  have hlog := map_fst_again frames
  apply h.queue
  · rw [hlog]
    exact (h.order.sublist c.sent_sublist_made).sublist ha.sent
  · intro f hf g hg
    rw [hlog] at hg
    exact ha.clean g (mem_of_mem_filter hg) f hf
  intro id errorCode finalSize hmem
  rw [hlog] at hmem
  exact h.reset id errorCode finalSize (ha.mem hmem)

theorem sent_sendAgain (c : SendConn) (frames : List QuicFrame) (now : ℤ) :
    (c.sendFramesLocked [⟨frames, true⟩] true now).sent = c.sent ++ frames.filter ofStream := by
  rw [SendConn.sent, sendFramesLocked_log, logOf_singleton, map_append, map_fst_again]
  rfl

section
variable (h : c.ResetInv)
include h

theorem ResetInv.sendAgain {frames : List QuicFrame} (ha : c.Again c.sent frames) (now : ℤ) :
    (c.sendFramesLocked [⟨frames, true⟩] true now).ResetInv := by
  have hmade : (c.sendFramesLocked [⟨frames, true⟩] true now).made =
      c.sent ++ frames.filter QuicFrame.ofStream ++ (logOf c.coalesced).map Prod.fst := by
    rw [made_eq, sent_sendAgain]
    rfl
  have horder := h.order
  rw [made_eq, pairwise_append] at horder
  obtain ⟨hsent, hwait, hcross⟩ := horder
  refine { h with tracked := sendFramesLocked_tracked h.tracked _ true now, order := ?_, reset := ?_ }
  · rw [hmade, pairwise_append, pairwise_append]
    refine ⟨⟨hsent, hsent.sublist ha.sent, ?_⟩, hwait, ?_⟩
    · exact fun f hf g hg => ha.clean g (mem_of_mem_filter hg) f hf
    · -- What is sent again was sent, so nothing that waits is ended by it.
      intro f hf g hg
      obtain hf | hf := mem_append.mp hf
      · exact hcross f hf g hg
      · exact hcross f (ha.sent.mem hf) g hg
  intro id errorCode finalSize hmem
  rw [hmade, append_assoc] at hmem
  obtain hmem | hmem := mem_append.mp hmem
  · exact h.reset id errorCode finalSize (c.sent_sublist_made.mem hmem)
  obtain hmem | hmem := mem_append.mp hmem
  · exact h.reset id errorCode finalSize (ha.mem hmem)
  refine h.reset id errorCode finalSize ?_
  rw [made_eq]
  exact mem_append_right _ hmem

theorem ResetInv.sublist_of_framesOf {gone : QuicSentPacket QuicFrame → Bool} {frames : List QuicFrame}
    (hf : frames ∈ framesOf ((c.loss.sent .appData).filter gone)) :
    (frames.filter QuicFrame.ofStream).Sublist c.sent := by
  obtain ⟨sp, hsp, rfl⟩ := mem_map.mp (mem_of_mem_filter hf)
  exact h.tracked sp (mem_of_mem_filter hsp)

theorem ResetInv.recoverLost {cutoff : ℤ} (he : c.AgainWithoutReset (.recoverLost cutoff)) (now : ℤ) :
    (c.recoverLostPackets cutoff now).ResetInv := by
  have hagain : ∀ frames ∈ (c.loss.detectLost .appData cutoff).2, c.Again c.made frames := by
    intro frames hf
    refine ⟨?_, fun g hg f hmade => he frames hf g hg f (mem_framesIn_of_made hmade)⟩
    rw [(c.loss.detectLost_takesOut .appData cutoff).2] at hf
    exact h.sublist_of_framesOf hf
  -- Each lost packet stays one that can be sent again while the others are.
  have hkeep := @recoverLostPackets_keeps c
    (fun a => a.ResetInv ∧ ∀ frames ∈ (c.loss.detectLost .appData cutoff).2, a.Again a.made frames) cutoff ?_ ?_
    ⟨h, hagain⟩ now
  · exact hkeep.1
  · rintro a b hs ⟨ha, hall⟩
    have hmade : b.made = a.made := by rw [made, hs.order, made]
    refine ⟨ha.sends hs, fun frames hf => ⟨?_, ?_⟩⟩
    · exact (hall frames hf).sent.trans (hs.sent.map Prod.fst).sublist
    rw [hmade]
    exact (hall frames hf).clean
  · rintro a frames hf ⟨ha, hall⟩
    refine ⟨ha.queueAgain (hall frames hf), fun frames' hf' => ⟨(hall frames' hf').sent, ?_⟩⟩
    intro g hg f hmem
    rw [made_queue, map_fst_again] at hmem
    obtain hmem | hmem := mem_append.mp hmem
    · exact (hall frames' hf').clean g hg f hmem
    · exact (hall frames' hf').clean g hg f ((hall frames hf).mem hmem)

theorem ResetInv.tick {cutoff : ℤ} (he : c.AgainWithoutReset (.tick cutoff)) (now : ℤ) :
    (c.tick cutoff now).ResetInv := by
  have hagain : ∀ frames ∈ (c.loss.ptoExpiredFrames .appData cutoff).2, c.Again c.sent frames := by
    intro frames hf
    refine ⟨?_, fun g hg f hsent => he frames hf g hg f (mem_framesIn_of_sent hsent)⟩
    rw [(c.loss.ptoExpiredFrames_takesOut .appData cutoff).2.2] at hf
    exact h.sublist_of_framesOf hf
  refine @tick_keeps c
    (fun a => a.ResetInv ∧ ∀ frames ∈ (c.loss.ptoExpiredFrames .appData cutoff).2, a.Again a.sent frames) ResetInv
    cutoff now ?_ ?_ (fun hs ha => ha.1.sends hs) ⟨h, hagain⟩
  · rintro a b hs hlog ⟨ha, hall⟩
    have hsent : b.sent = a.sent := congrArg (List.map Prod.fst) hlog
    refine ⟨ha.sends hs, fun frames hf => ⟨?_, ?_⟩⟩
    · rw [hsent]
      exact (hall frames hf).sent
    rw [hsent]
    exact (hall frames hf).clean
  rintro a frames hf ⟨ha, hall⟩
  have hsent := sent_sendAgain a frames now
  refine ⟨ha.sendAgain (hall frames hf) now, fun frames' hf' => ⟨?_, ?_⟩⟩
  · rw [hsent]
    exact (hall frames' hf').sent.trans (sublist_append_left _ _)
  intro g hg f hmem
  rw [hsent] at hmem
  obtain hmem | hmem := mem_append.mp hmem
  · exact (hall frames' hf').clean g hg f hmem
  · exact (hall frames' hf').clean g hg f ((hall frames hf).sent.mem hmem)

theorem ResetInv.step (hinv : c.Inv) {now : ℤ} {e : SendEvent} (he : c.AgainWithoutReset e) :
    (c.step now e).ResetInv := by
  obtain ⟨_, hacts, hsends⟩ | ⟨cutoff, rfl⟩ | ⟨cutoff, rfl⟩ := step_cases c now e
  · exact (h.acts hinv hacts).sends hsends
  · exact h.recoverLost he now
  · exact h.tick he now

theorem ResetInv.run (hinv : c.Inv) {es : List (ℤ × SendEvent)} (hes : c.AllAgainWithoutReset es) :
    (c.run es).ResetInv := by
  induction es generalizing c with
  | nil => exact h
  | cons e es ih => exact ih (h.step hinv hes.1) (hinv.step e.1 e.2) hes.2

end

theorem resetInv_start (maxDataRemote peerStreamWindow peerUniWindow pktBudget : ℕ) :
    (start maxDataRemote peerStreamWindow peerUniWindow pktBudget).ResetInv where
  tracked := nofun
  order := List.Pairwise.nil
  reset := nofun
  unopened _ _ := rfl
  kinds := nofun

/-- The packets of a run have no STREAM frame of a stream after its RESET_STREAM frame, if what is sent
again has none. -/
theorem no_stream_after_reset (maxDataRemote peerStreamWindow peerUniWindow pktBudget : ℕ) (es : List (ℤ × SendEvent))
    (hes : (start maxDataRemote peerStreamWindow peerUniWindow pktBudget).AllAgainWithoutReset es) :
    NoStreamAfterReset ((start maxDataRemote peerStreamWindow peerUniWindow pktBudget).run es).wirePackets := by
  have h := (resetInv_start maxDataRemote peerStreamWindow peerUniWindow pktBudget).run
    (inv_start maxDataRemote peerStreamWindow peerUniWindow pktBudget) hes
  generalize (start maxDataRemote peerStreamWindow peerUniWindow pktBudget).run es = c at h ⊢
  have hsent : c.sent = (c.packets.flatMap BuiltPacket.frames).filter QuicFrame.ofStream := by
    rw [sent, sentLog, map_fst_logOf, framesIn, sentPieces, flatMap_assoc]
    rfl
  have horder := h.order.sublist c.sent_sublist_made
  rw [hsent] at horder
  exact (noStreamAfterReset_of_pairwise horder).filter _

end SendConn

/-- A response is sent and acknowledged, and then the client stops the stream. -/
def answeredRequest : List (ℤ × SendEvent) :=
  [(0, .openRequest 0 .kept), (0, .respond 0 [7]), (0, .enter), (0, .turn 0), (0, .leave),
    (1, .ack ⟨0, 0, 0, []⟩), (1, .resetStream 0 0x10c), (9, .tick 5)]

theorem no_stream_after_reset_answered : (SendConn.start 100 100 100 1100).AllAgainWithoutReset answeredRequest ∧
      NoStreamAfterReset ((SendConn.start 100 100 100 1100).run answeredRequest).wirePackets := by
  have hes : (SendConn.start 100 100 100 1100).AllAgainWithoutReset answeredRequest :=
    ⟨trivial, trivial, trivial, trivial, trivial, trivial, trivial,
      by unfold SendConn.AgainWithoutReset; decide, trivial⟩
  exact ⟨hes, SendConn.no_stream_after_reset 100 100 100 1100 answeredRequest hes⟩

/-- A response is sent, the client stops the stream, and the packet with the response is sent again. -/
def stoppedResponse : List (ℤ × SendEvent) :=
  [(0, .openRequest 0 .kept), (0, .respond 0 [7]), (0, .enter), (0, .turn 0), (0, .leave),
    (1, .resetStream 0 0x10c), (9, .tick 5)]

theorem stream_sent_after_reset :
    ¬ NoStreamAfterReset ((SendConn.start 100 100 100 1100).run stoppedResponse).wirePackets := by
  decide

end AlosHttp.Quic

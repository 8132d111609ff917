import AlosHttp.Quic.SendRun
import AlosHttp.Quic.Stream
import Mathlib.Algebra.BigOperators.Group.Finset.Piecewise

/-! What is sent on a stream for the first time: the bytes that were written, in order, within the
limits of the peer. -/
namespace AlosHttp.Quic
open List

def Consecutive : ℕ → List QuicStreamFrame → Prop
  | _, [] => True
  | off, f :: fs => f.offset = off ∧ Consecutive f.stop fs

def dataOf (fs : List QuicStreamFrame) : Bytes := fs.flatMap QuicStreamFrame.data

theorem dataOf_append (fs gs : List QuicStreamFrame) : dataOf (fs ++ gs) = dataOf fs ++ dataOf gs := flatMap_append

theorem consecutive_append {off : ℕ} {fs gs : List QuicStreamFrame} :
    Consecutive off (fs ++ gs) ↔ Consecutive off fs ∧ Consecutive (off + (dataOf fs).length) gs := by
  induction fs generalizing off with
  | nil => simp [Consecutive, dataOf]
  | cons f fs ih =>
    have hlen : (dataOf (f :: fs)).length = f.data.length + (dataOf fs).length := length_append
    rw [cons_append, Consecutive, Consecutive, ih, hlen, and_assoc]
    apply and_congr_right
    intro hoff
    rw [QuicStreamFrame.stop, hoff, add_assoc]

def firstFrame (id : ℕ) : QuicFrame × Bool → Option QuicStreamFrame
  | (.stream streamID offset data fin, false) => if streamID = id then some ⟨offset, data, fin⟩ else none
  | _ => none

def firstFrames (id : ℕ) (l : List (QuicFrame × Bool)) : List QuicStreamFrame := l.filterMap (firstFrame id)

theorem firstFrames_append (id : ℕ) (l m : List (QuicFrame × Bool)) :
    firstFrames id (l ++ m) = firstFrames id l ++ firstFrames id m := filterMap_append

theorem firstFrames_again (id : ℕ) (frames : List QuicFrame) : firstFrames id (Piece.log ⟨frames, true⟩) = [] := by
  rw [firstFrames, filterMap_eq_nil_iff]
  intro x hx
  obtain ⟨f, -, rfl⟩ := mem_map.mp hx
  cases f <;> rfl

structure SendStream.Inv (id : ℕ) (s : SendStream) (fs : List QuicStreamFrame) : Prop where
  limit : s.sendOff ≤ s.maxSend
  consecutive : Consecutive 0 fs
  off : (dataOf fs).length = s.sendOff
  data : dataOf fs <+: s.written
  buffered : s.sendClosed = false → s.written = dataOf fs ++ s.sendBuf
  closed : s.sendClosed = true → s.sendBuf = []
  fin : ∀ f ∈ fs, f.fin = true → f.stop = s.written.length ∧ s.sendFin = true
  waiting : id % 4 = 0 → s.dispatched = false → s.written = [] ∧ s.sendFin = false

namespace SendStream
variable {id : ℕ} {s t : SendStream} {fs : List QuicStreamFrame}

theorem inv_new (id maxSend : ℕ) : Inv id { maxSend } [] where
  limit := Nat.zero_le _
  consecutive := trivial
  off := rfl
  data := prefix_rfl
  buffered _ := rfl
  closed _ := rfl
  fin := nofun
  waiting _ _ := ⟨rfl, rfl⟩

section
variable (h : Inv id s fs)
include h

theorem Inv.no_fin (hfin : s.sendFin = false) {f : QuicStreamFrame} (hf : f ∈ fs) : f.fin = false := by
  by_contra hf'
  rw [Bool.not_eq_false] at hf'
  exact Bool.false_ne_true (hfin.symm.trans (h.fin f hf hf').2)

theorem Inv.write (hid : id % 4 = 3) (data : Bytes) : Inv id (s.write data) fs := by
  unfold SendStream.write
  split_ifs with hend
  · exact h
  rw [Bool.or_eq_true, not_or, Bool.not_eq_true, Bool.not_eq_true] at hend
  obtain ⟨hclosed, hfin⟩ := hend
  exact
    { h with
      data := h.data.trans (prefix_append _ _)
      buffered := fun _ => by rw [h.buffered hclosed, append_assoc]
      closed := fun hc => absurd (hclosed.symm.trans hc) Bool.false_ne_true
      fin := fun f hf hf' => absurd ((h.no_fin hfin hf).symm.trans hf') Bool.false_ne_true
      waiting := fun h0 => absurd (h0.symm.trans hid) (by decide) }

theorem Inv.respond (hid : id % 4 = 0) (hfirst : s.dispatched = false) (data : Bytes) :
    Inv id ({ s with dispatched := true }.setSendBuf data) fs := by
  obtain ⟨hwritten, hfin⟩ := h.waiting hid hfirst
  -- Nothing was written, so nothing was sent.
  have hnone : dataOf fs = [] := by
    have hdata := h.data
    rw [hwritten] at hdata
    exact prefix_nil.mp hdata
  unfold setSendBuf
  split_ifs with hclosed
  · exact
      { h with
        fin := fun f hf hf' => absurd ((h.no_fin hfin hf).symm.trans hf') Bool.false_ne_true
        waiting := fun _ => nofun }
  exact
    { h with
      data := by rw [hnone]; exact nil_prefix
      buffered := fun _ => by rw [hnone, hwritten]
      closed := fun hc => absurd hc hclosed
      fin := fun f hf hf' => absurd ((h.no_fin hfin hf).symm.trans hf') Bool.false_ne_true
      waiting := fun _ => nofun }

theorem Inv.changes (ht : s.Changes id t) : Inv id t fs := by
  cases ht with
  | write hid data => exact h.write hid data
  | finishWrite hid =>
    exact
      { h with
        fin := fun f hf hf' => ⟨(h.fin f hf hf').1, rfl⟩
        waiting := fun h0 => absurd (h0.symm.trans hid) (by decide) }
  | respond hid hfirst data => exact h.respond hid hfirst data
  | close => exact { h with buffered := nofun, closed := fun _ => rfl }
  | maxSend n hn => exact { h with limit := h.limit.trans hn }
  | blockedSent => exact { h with }

end

theorem Changes.sendOff_eq (ht : s.Changes id t) : t.sendOff = s.sendOff := by
  cases ht with
  | write hid data =>
    unfold SendStream.write
    split_ifs <;> rfl
  | finishWrite | close | maxSend | blockedSent => rfl
  | respond hid hfirst data =>
    unfold setSendBuf
    split_ifs <;> rfl

section
variable (h : Inv id s fs)
include h

theorem Inv.reset : Inv id s.resetSend.1 fs := by
  unfold resetSend
  split_ifs
  · exact h
  · exact { h with buffered := nofun, closed := fun _ => rfl }

theorem Inv.off_eq (hclosed : s.sendClosed = false) (hempty : s.sendBuf = []) : s.sendOff = s.written.length := by
  rw [h.buffered hclosed, hempty, append_nil, h.off]

theorem Inv.emptyFrame (hempty : s.sendBuf = []) : Inv id s (fs ++ [⟨s.sendOff, [], s.sendFin && !s.sendClosed⟩]) := by
  have hdata : dataOf (fs ++ [⟨s.sendOff, [], s.sendFin && !s.sendClosed⟩]) = dataOf fs := by
    rw [dataOf_append]
    exact append_nil _
  refine { h with consecutive := ?_, off := ?_, data := ?_, buffered := ?_, fin := ?_ }
  · rw [consecutive_append, h.off, zero_add]
    exact ⟨h.consecutive, rfl, trivial⟩
  · rw [hdata]
    exact h.off
  · rw [hdata]
    exact h.data
  · rw [hdata]
    exact h.buffered
  intro f hf hfin
  obtain hf | hf := mem_append.mp hf
  · exact h.fin f hf hfin
  rw [mem_singleton.mp hf] at hfin ⊢
  obtain ⟨hend, hopen⟩ := Bool.and_eq_true_iff.mp hfin
  rw [Bool.not_eq_true'] at hopen
  exact ⟨h.off_eq hopen hempty, hend⟩

theorem Inv.dataFrame (hopen : s.sendClosed = false) {k : ℕ} (hk : k ≤ s.sendBuf.length)
    (hlimit : s.sendOff + k ≤ s.maxSend) :
    Inv id { s with sendBuf := s.sendBuf.drop k, sendOff := s.sendOff + k }
      (fs ++ [⟨s.sendOff, s.sendBuf.take k, s.sendFin && (s.sendBuf.drop k).isEmpty⟩]) := by
  have hbuffered := h.buffered hopen
  have htake := length_take_of_le hk
  have hdata : dataOf (fs ++ [⟨s.sendOff, s.sendBuf.take k, s.sendFin && (s.sendBuf.drop k).isEmpty⟩]) =
      dataOf fs ++ s.sendBuf.take k := by
    rw [dataOf_append]
    exact congrArg _ (append_nil _)
  have hall : s.written = dataOf fs ++ s.sendBuf.take k ++ s.sendBuf.drop k := by
    rw [append_assoc, take_append_drop, hbuffered]
  refine { h with limit := hlimit, consecutive := ?_, off := ?_, data := ?_, buffered := ?_, closed := ?_, fin := ?_ }
  · rw [consecutive_append, h.off, zero_add]
    exact ⟨h.consecutive, rfl, trivial⟩
  · rw [hdata, length_append, h.off, htake]
  · rw [hdata, hall]
    exact prefix_append _ _
  · intro _
    rw [hdata]
    exact hall
  · exact fun hc => absurd (hopen.symm.trans hc) Bool.false_ne_true
  intro f hf hfin
  obtain hf | hf := mem_append.mp hf
  · exact h.fin f hf hfin
  rw [mem_singleton.mp hf] at hfin ⊢
  obtain ⟨hend, hrest⟩ := Bool.and_eq_true_iff.mp hfin
  refine ⟨?_, hend⟩
  rw [QuicStreamFrame.stop, hall, List.isEmpty_iff.mp hrest, append_nil, length_append, h.off]

theorem Inv.drain {n : ℕ} (hn : n ≤ s.maxSend - s.sendOff) (hreset : s.sendReset = false) : Inv id (s.drainSendBuf n).1
      (fs ++ [⟨(s.drainSendBuf n).2.2.1, (s.drainSendBuf n).2.1, (s.drainSendBuf n).2.2.2⟩]) ∧
      (s.drainSendBuf n).2.1.length ≤ n ∧
      (s.drainSendBuf n).1.sendOff = s.sendOff + (s.drainSendBuf n).2.1.length := by
  have hlimit := h.limit
  unfold drainSendBuf
  rw [if_neg (Bool.not_eq_true _ ▸ hreset)]
  by_cases hempty : s.sendBuf = []
  · rw [if_pos hempty]
    exact ⟨h.emptyFrame hempty, Nat.zero_le n, rfl⟩
  rw [if_neg hempty]
  generalize hk : (if s.sendBuf.length > n then n else s.sendBuf.length) = k
  have hkn : k ≤ n ∧ k ≤ s.sendBuf.length := by
    rw [← hk]
    split_ifs <;> omega
  have hopen : s.sendClosed = false := by
    by_contra hc
    rw [Bool.not_eq_false] at hc
    exact hempty (h.closed hc)
  have htake := length_take_of_le hkn.2
  exact ⟨h.dataFrame hopen hkn.2 (by omega), htake.trans_le hkn.1, by rw [htake]⟩

end

end SendStream

namespace SendConn

/-- The connection keeps the limits of the peer, and each stream is what was made of it so far. -/
structure Inv (c : SendConn) : Prop where
  sum : c.dataSent = ∑ id ∈ c.opened, (c.streams id).sendOff
  conn : c.dataSent ≤ c.maxDataRemote
  stream : ∀ id, (c.streams id).Inv id (firstFrames id c.allLog)
  unopened : ∀ id ∉ c.opened, firstFrames id c.allLog = []
  uni : c.nextUniLocal % 4 = 3 ∧ ∀ id ∈ c.opened, id % 4 = 3 → id < c.nextUniLocal
  claimed : ∀ id ∈ c.opened, id % 4 = 0 → id ∈ c.claimed

variable {c c' : SendConn}

theorem Inv.keep (h : c.Inv) (hsame : c' = { c with
      coalesced := c'.coalesced, pendingAck := c'.pendingAck, sendPN := c'.sendPN, loss := c'.loss,
      bytesSent := c'.bytesSent, bytesReceived := c'.bytesReceived, dstCIDLen := c'.dstCIDLen,
      addressValidated := c'.addressValidated, packets := c'.packets, streamWriters := c'.streamWriters })
    (hfirst : ∀ id, firstFrames id c'.allLog = firstFrames id c.allLog) : c'.Inv := by
  have hstreams : c'.streams = c.streams ∧ c'.opened = c.opened ∧ c'.dataSent = c.dataSent ∧
      c'.maxDataRemote = c.maxDataRemote ∧ c'.nextUniLocal = c.nextUniLocal ∧ c'.claimed = c.claimed := by
    rw [hsame]
    exact ⟨rfl, rfl, rfl, rfl, rfl, rfl⟩
  obtain ⟨hs, ho, hd, hm, hu, hc⟩ := hstreams
  constructor
  · rw [hs, ho, hd]
    exact h.sum
  · rw [hd, hm]
    exact h.conn
  · intro id
    rw [hs, hfirst]
    exact h.stream id
  · rw [ho]
    intro id hid
    rw [hfirst]
    exact h.unopened id hid
  · rw [hu, ho]
    exact h.uni
  rw [ho, hc]
  exact h.claimed

theorem Inv.sends (h : c.Inv) (hs : c.Sends c') : c'.Inv := h.keep hs.same fun id => by rw [hs.order]

theorem firstFrames_queue (id : ℕ) (c : SendConn) (p : Piece) :
    firstFrames id (c.queue p).allLog = firstFrames id c.allLog ++ firstFrames id p.log := by
  change firstFrames id (c.sentLog ++ logOf (c.coalesced ++ [p])) = _
  rw [logOf_append, logOf_singleton, ← append_assoc, firstFrames_append]
  rfl

theorem Inv.queueAgain (h : c.Inv) (frames : List QuicFrame) : (c.queue ⟨frames, true⟩).Inv := by
  refine h.keep rfl fun id => ?_
  rw [firstFrames_queue, firstFrames_again, append_nil]

theorem Inv.sendAgain (h : c.Inv) (frames : List QuicFrame) (now : ℤ) :
    (c.sendFramesLocked [⟨frames, true⟩] true now).Inv := by
  refine h.keep rfl fun id => ?_
  rw [allLog, sendFramesLocked_log, logOf_singleton, firstFrames_append, firstFrames_append, firstFrames_again,
    append_nil, ← firstFrames_append]
  rfl

open Function

theorem sum_update (streams : ℕ → SendStream) {opened : Finset ℕ} {id : ℕ} (hid : id ∈ opened) (s : SendStream) :
    ∑ i ∈ opened, (update streams id s i).sendOff + (streams id).sendOff =
      ∑ i ∈ opened, (streams i).sendOff + s.sendOff := by
  have hold := Finset.add_sum_erase opened (fun i => (streams i).sendOff) hid
  have hnew := Finset.add_sum_erase opened (fun i => (update streams id s i).sendOff) hid
  have hrest : ∑ i ∈ opened.erase id, (update streams id s i).sendOff = ∑ i ∈ opened.erase id, (streams i).sendOff := by
    apply Finset.sum_congr rfl
    intro i hi
    rw [update_of_ne (Finset.ne_of_mem_erase hi)]
  simp only [update_self] at hnew
  omega

section
variable (h : c.Inv)
include h

open Function

theorem Inv.change {id : ℕ} (hid : id ∈ c.opened) {s : SendStream} (hs : s.Inv id (firstFrames id c.allLog))
    (hoff : s.sendOff = (c.streams id).sendOff) : (c.on id fun _ => s).Inv := by
  refine { h with sum := ?_, stream := ?_ }
  · have hsum := sum_update c.streams hid s
    have hold := h.sum
    change c.dataSent = ∑ i ∈ c.opened, (update c.streams id s i).sendOff
    omega
  intro i
  change (update c.streams id s i).Inv i (firstFrames i c.allLog)
  by_cases hi : i = id
  · subst hi
    rw [update_self]
    exact hs
  rw [update_of_ne hi]
  exact h.stream i

open Finset

theorem Inv.open {id : ℕ} (hid : id ∉ c.opened) (maxSend : ℕ) {nextUniLocal : ℕ} {claimed : Finset ℕ}
    (huni : nextUniLocal % 4 = 3 ∧ ∀ i ∈ insert id c.opened, i % 4 = 3 → i < nextUniLocal)
    (hclaimed : ∀ i ∈ insert id c.opened, i % 4 = 0 → i ∈ claimed) :
    Inv { c with
      nextUniLocal, claimed, opened := insert id c.opened
      streams := update c.streams id { maxSend } } := by
  refine { h with sum := ?_, stream := ?_, unopened := ?_, uni := huni, claimed := hclaimed }
  · have hsame : ∑ i ∈ c.opened, (update c.streams id { maxSend } i).sendOff =
        ∑ i ∈ c.opened, (c.streams i).sendOff := by
      apply sum_congr rfl
      intro i hi
      rw [update_of_ne (ne_of_mem_of_not_mem hi hid)]
    dsimp only
    rw [sum_insert hid, update_self, hsame, h.sum, zero_add]
  · intro i
    change (update c.streams id { maxSend } i).Inv i (firstFrames i c.allLog)
    by_cases hi : i = id
    · subst hi
      rw [update_self, h.unopened i hid]
      exact SendStream.inv_new i maxSend
    rw [update_of_ne hi]
    exact h.stream i
  intro i hi
  exact h.unopened i fun hmem => hi (mem_insert_of_mem hmem)

theorem Inv.openUni : c.openLocalUniStream.Inv := by
  obtain ⟨hmod, hbelow⟩ := h.uni
  have hid : c.nextUniLocal ∉ c.opened := fun hmem => lt_irrefl _ (hbelow _ hmem hmod)
  refine h.open hid c.peerUniWindow ⟨by omega, fun i hi hi3 => ?_⟩ fun i hi hi0 => ?_
  · obtain rfl | hi := mem_insert.mp hi
    · omega
    have := hbelow i hi hi3
    omega
  obtain rfl | hi := mem_insert.mp hi
  · omega
  · exact h.claimed i hi hi0

theorem Inv.openRequest {id : ℕ} (hid : id % 4 = 0) (hnew : id ∉ c.claimed) : Inv { c with
      claimed := insert id c.claimed, opened := insert id c.opened
      streams := update c.streams id { maxSend := c.peerStreamWindow } } := by
  have hclosed : id ∉ c.opened := fun hmem => hnew (h.claimed id hmem hid)
  refine h.open hclosed c.peerStreamWindow ⟨h.uni.1, fun i hi hi3 => ?_⟩ fun i hi hi0 => ?_
  · obtain rfl | hi := mem_insert.mp hi
    · omega
    · exact h.uni.2 i hi hi3
  obtain rfl | hi := mem_insert.mp hi
  · exact mem_insert_self _ _
  · exact mem_insert_of_mem (h.claimed i hi hi0)

theorem Inv.claim (id : ℕ) : Inv { c with claimed := insert id c.claimed } :=
  { h with claimed := fun i hi hi0 => mem_insert_of_mem (h.claimed i hi hi0) }

theorem Inv.queue {p : Piece} (hp : ∀ id, firstFrames id p.log = []) : (c.queue p).Inv := by
  refine h.keep rfl fun id => ?_
  rw [firstFrames_queue, hp, append_nil]

end

theorem firstFrames_stream (id offset : ℕ) (data : Bytes) (fin : Bool) (i : ℕ) :
    firstFrames i (Piece.log ⟨[.stream id offset data fin], false⟩) =
      if id = i then [⟨offset, data, fin⟩] else [] := by
  have hfirst : firstFrame i (.stream id offset data fin, false) = if id = i then some ⟨offset, data, fin⟩ else none :=
    rfl
  change List.filterMap (firstFrame i) [(.stream id offset data fin, false)] = _
  rw [filterMap_cons, filterMap_nil, hfirst]
  by_cases hi : id = i
  · rw [if_pos hi, if_pos hi]
  · rw [if_neg hi, if_neg hi]

theorem Inv.emit (h : c.Inv) {id n : ℕ} (hid : id ∈ c.opened) (hconn : n ≤ c.maxDataRemote - c.dataSent)
    (hstream : n ≤ (c.streams id).maxSend - (c.streams id).sendOff) (hreset : (c.streams id).sendReset = false) :
    (c.emit id n).Inv := by
  obtain ⟨hs, hlen, hoff⟩ := (h.stream id).drain hstream hreset
  have hlimit := h.conn
  unfold SendConn.emit
  generalize (c.streams id).drainSendBuf n = drained at hs hlen hoff ⊢
  obtain ⟨s, data, offset, fin⟩ := drained
  dsimp only at hs hlen hoff ⊢
  have hfirst (i : ℕ) := firstFrames_queue i { c.on id (fun _ => s) with dataSent := c.dataSent + data.length }
    ⟨[.stream id offset data fin], false⟩
  simp only [firstFrames_stream] at hfirst
  refine { h with sum := ?_, conn := ?_, stream := ?_, unopened := ?_ }
  · have hsum := sum_update c.streams hid s
    have hold := h.sum
    change c.dataSent + data.length = ∑ i ∈ c.opened, (Function.update c.streams id s i).sendOff
    omega
  · exact (by omega : c.dataSent + data.length ≤ c.maxDataRemote)
  · intro i
    rw [hfirst]
    change (Function.update c.streams id s i).Inv i _
    by_cases hi : i = id
    · subst hi
      rw [Function.update_self, if_pos rfl]
      exact hs
    rw [Function.update_of_ne hi, if_neg (Ne.symm hi), append_nil]
    exact h.stream i
  intro i hi
  have hne : id ≠ i := ne_of_mem_of_not_mem hid hi
  rw [hfirst, if_neg hne, append_nil]
  exact h.unopened i hi

theorem Inv.acts (h : c.Inv) (ha : c.Acts c') : c'.Inv := by
  cases ha with
  | none => exact h
  | limit n hn => exact { h with conn := h.conn.trans hn }
  | change hid hs => exact h.change hid ((h.stream _).changes hs) hs.sendOff_eq
  | openUni => exact h.openUni
  | openRequest hid hnew => exact h.openRequest hid hnew
  | claim hid hnew => exact h.claim _
  | refuse hid hnew => exact (h.claim _).queue fun _ => rfl
  | frame hid hconn hstream hreset => exact h.emit hid hconn hstream hreset
  | reset hid errorCode hfirst =>
    refine (h.change hid (h.stream _).reset ?_).queue fun _ => rfl
    rw [SendStream.resetSend_first hfirst]

theorem Inv.step (h : c.Inv) (now : ℤ) (e : SendEvent) : (c.step now e).Inv := by
  obtain ⟨_, hacts, hsends⟩ | ⟨cutoff, rfl⟩ | ⟨cutoff, rfl⟩ := step_cases c now e
  · exact (h.acts hacts).sends hsends
  · exact recoverLostPackets_keeps (fun hs ha => ha.sends hs) (fun frames _ ha => ha.queueAgain frames) h now
  exact tick_keeps (fun hs _ ha => ha.sends hs) (fun frames _ ha => ha.sendAgain frames now)
    (fun hs ha => ha.sends hs) h

theorem inv_start (maxDataRemote peerStreamWindow peerUniWindow pktBudget : ℕ) :
    (start maxDataRemote peerStreamWindow peerUniWindow pktBudget).Inv where
  sum := rfl
  conn := Nat.zero_le _
  stream id := SendStream.inv_new id 0
  unopened _ _ := rfl
  uni := ⟨rfl, nofun⟩
  claimed := nofun

theorem Inv.run (h : c.Inv) (es : List (ℤ × SendEvent)) : (c.run es).Inv := by
  induction es generalizing c with
  | nil => exact h
  | cons e es ih => exact ih (h.step e.1 e.2)

/-- The STREAM frames of a stream that packets had for the first time, in order. -/
def firstSent (c : SendConn) (id : ℕ) : List QuicStreamFrame := firstFrames id c.sentLog

end SendConn
end AlosHttp.Quic

import AlosHttp.H2.ConnStep

/-! What a connection keeps over every run, whatever its client and its handlers do. Most functions touch
nothing of what these invariants read, the `core`, and a lemma for each says so. -/
namespace AlosHttp.Hpack
open AlosHttp.Core
variable (hash : Bytes → UInt64)

namespace HpackDecoder

/-- The errors of a request whose block was read to its end. -/
def wholeBlock : Option HpackError → Bool
  | none | some .malformedRequest | some .headerListTooLarge => true
  | _ => false

/-- The decoder after these blocks, newest first, each of which was decoded once and to its end, without
a memo and without a look at its bytes. -/
inductive Decodes (start : HpackDecoder) : List Bytes → HpackDecoder → Prop
  | nil : Decodes start [] start
  | request {blocks : List Bytes} {d : HpackDecoder} (block : Bytes) (h : Decodes start blocks d)
      (hend : wholeBlock (d.decodeRequestUnmemoized hash block).1.result.err = true) :
      Decodes start (block :: blocks) (d.decodeRequestUnmemoized hash block).2
  | fields {blocks : List Bytes} {d : HpackDecoder} (block : Bytes) (h : Decodes start blocks d)
      {headers : List Field} (hend : (d.decodeInto hash block).1 = .ok headers) :
      Decodes start (block :: blocks) (d.decodeInto hash block).2

/-- The decoder is that of these blocks up to its caches, and its memo is right. -/
def Synced (start : HpackDecoder) (blocks : List Bytes) (d : HpackDecoder) : Prop :=
  d.MemoOk hash ∧ ∃ e, Decodes hash start blocks e ∧ d.Alike e

variable {start d : HpackDecoder} {blocks : List Bytes} {block : Bytes}

theorem Synced.decodeInto (h : Synced hash start blocks d) {headers : List Field}
    (hend : (d.decodeInto hash block).1 = .ok headers) :
    Synced hash start (block :: blocks) (d.decodeInto hash block).2 := by
  obtain ⟨hm, e, hblocks, halike⟩ := h
  obtain ⟨hres, hdec⟩ := decodeInto_alike hash halike block
  obtain ⟨_, hchanged⟩ := decodeInto_changed hash halike.left block
  exact ⟨hm.changed hash halike.left hchanged, _, .fields block hblocks (hres ▸ hend), hdec⟩

theorem Synced.decodeRequest (h : Synced hash start blocks d)
    (hend : wholeBlock (d.decodeRequest hash block).1.result.err = true) :
    Synced hash start (block :: blocks) (d.decodeRequest hash block).2 := by
  obtain ⟨hm, e, hblocks, halike⟩ := h
  obtain ⟨hres, hdec, hmemo⟩ := decodeRequest_alike hash halike hm block
  exact ⟨hmemo, _, .request block hblocks (hres ▸ hend), hdec⟩

theorem Synced.memoized (h : Synced hash start blocks d) (hroot : d.memoizedRootRequest block = true) :
    Synced hash start (block :: blocks) d := by
  obtain ⟨hm, e, hblocks, halike⟩ := h
  unfold memoizedRootRequest at hroot
  simp only [Bool.and_eq_true, beq_iff_eq] at hroot
  obtain ⟨⟨hvalid, -⟩, rfl⟩ := hroot
  obtain ⟨hres, hdec⟩ := hm hvalid e halike.symm
  exact ⟨hm, _, .request _ hblocks (by rw [hres]; rfl), hdec.symm⟩

theorem decodeInto_indexed (d : HpackDecoder) (h : H2.matchIndexedH2FastRootHeaderBlock block = true) :
    ∃ headers, d.decodeInto hash block = (.ok headers, d) := by
  unfold H2.matchIndexedH2FastRootHeaderBlock at h
  simp only [Bool.and_eq_true, beq_iff_eq, List.contains_iff_mem] at h
  obtain ⟨⟨⟨hlen, h82⟩, h84⟩, h87⟩ := h
  obtain ⟨a, b, c, rfl⟩ := List.length_eq_three.mp hlen
  simp only [List.mem_cons, List.not_mem_nil, or_false] at h82 h84 h87
  rcases h82 with h | h | h <;> rcases h84 with h' | h' | h' <;> rcases h87 with h'' | h'' | h'' <;>
    first | (subst h h' h''; exact ⟨_, rfl⟩) | grind only

end HpackDecoder
end AlosHttp.Hpack

namespace AlosHttp.H2
open AlosHttp.Core Hpack HpackDecoder List

def Entry.isOpened : Entry → Bool
  | .opened _ => true
  | _ => false

/-- A frame that breaks flow control: DATA over what the stream and the connection may send, or an
empty credit. -/
def Entry.misfit : Entry → Bool
  | .data payload _ avail => !payload.isEmpty && decide (avail < payload.length)
  | .windowUpdate n => n == 0
  | _ => false

def ConnEntry.block? : ConnEntry → Option Bytes
  | .block b => some b
  | _ => none

/-- The part of the connection and of a stream that the invariants are about. -/
structure Kept where
  decoder : HpackDecoder
  blocks : List Bytes
  recvConnWindow : ℤ
  pendingConnWindow : ℕ
  highestStreamID : ℕ
  opened : List Entry
  misfits : List Entry
  /-- The client's window and the bytes without credit, of a body that is streamed to its handler. -/
  intake : Option (ℤ × ℕ)

namespace Kept

def ended (k : Kept) : Kept := { k with intake := none }

def Fits (cfg : ServerConfig) (k : Kept) : Prop := ∀ p ∈ k.intake, 0 ≤ p.1 ∧ p.1 + p.2 = cfg.h2InitialWindow

/-- Nothing but the intake changes, and it still adds up. -/
def Follows (cfg : ServerConfig) (k' k : Kept) : Prop :=
  (∃ intake, k' = { k with intake }) ∧ (k.Fits cfg → k'.Fits cfg)

variable {cfg : ServerConfig} {k k' : Kept}

theorem Follows.of_eq (h : k' = k) : k'.Follows cfg k :=
  ⟨⟨_, h⟩, fun hfit => h ▸ hfit⟩

theorem Follows.of_ended (h : k' = k.ended) : k'.Follows cfg k := by
  subst h
  exact ⟨⟨_, rfl⟩, fun _ p hp => by cases hp⟩

end Kept

/-- What an event does to the core of the stream `id`. A connection that is `closing` after it need not
keep its credit, and the prepared answer `root` does not look at windows. -/
structure Kept.Moves (hash : Bytes → UInt64) (cfg : ServerConfig) (root : Option Bytes) (id : ℕ) (closing : Bool)
    (k k' : Kept) : Prop where
  credit : closing = true ∨ k'.recvConnWindow + k'.pendingConnWindow = k.recvConnWindow + k.pendingConnWindow ∧
    (k.pendingConnWindow ≤ h2ConnectionWindowSize / 2 → k'.pendingConnWindow ≤ h2ConnectionWindowSize / 2)
  highest : k.highestStreamID ≤ k'.highestStreamID
  opened : k'.opened = k.opened ∨
    id % 2 = 1 ∧ k.highestStreamID < id ∧ id ≤ k'.highestStreamID ∧ ∃ fin, k'.opened = .opened fin :: k.opened
  misfits : root = none → k'.misfits = k.misfits
  synced : closing = true ∨ ∀ start, Synced hash start k.blocks k.decoder → Synced hash start k'.blocks k'.decoder
  intake : k.Fits cfg → k'.Fits cfg

theorem Kept.Moves.decoded {hash : Bytes → UInt64} {closing : Bool} {k : Kept} {d : HpackDecoder}
    {blocks : List Bytes} (h : closing = true ∨ ∀ start, Synced hash start k.blocks k.decoder →
      Synced hash start blocks d) (cfg root id) :
    k.Moves hash cfg root id closing { k with decoder := d, blocks } :=
  ⟨.inr ⟨rfl, fun h => h⟩, le_rfl, .inl rfl, fun _ => rfl, h, fun h => h⟩

theorem Kept.Moves.refl (hash cfg root id closing) (k : Kept) : k.Moves hash cfg root id closing k :=
  .decoded (.inr fun _ h => h) ..

theorem Kept.Follows.moves {hash cfg root id closing} {k k₁ k₂ : Kept} (hk : k₂.Follows cfg k₁)
    (h : k.Moves hash cfg root id closing k₁) : k.Moves hash cfg root id closing k₂ := by
  obtain ⟨⟨intake, rfl⟩, hfit⟩ := hk
  exact ⟨h.credit, h.highest, h.opened, h.misfits, h.synced, fun hk => hfit (h.intake hk)⟩

namespace Cell

def core (c : Cell) : Kept :=
  ⟨c.decoder, c.connLog.filterMap ConnEntry.block?, c.recvConnWindow, c.pendingConnWindow, c.highestStreamID,
    c.hist.filter Entry.isOpened, c.hist.filter Entry.misfit, if c.inBodyIn && !c.bodyIn.tooLarge then
      some (c.bodyIn.recvWindow, c.reader.buf.length + c.reader.unacked) else none⟩

variable (c : Cell) (cfg : ServerConfig)

@[simp] theorem core_h2ChargeLimiter (t) : (c.h2ChargeLimiter t).core = c.core := by
  cases t <;> rfl

theorem core_abandonH2Stream : c.abandonH2Stream.core = c.core.ended := by
  unfold abandonH2Stream h2CancelStreaming
  dsimp only
  split_ifs <;> rfl

theorem core_resetH2Stream (code t) : (c.resetH2Stream code t).core = c.core.ended :=
  (core_h2ChargeLimiter ..).trans c.core_abandonH2Stream

theorem core_rejectH2Body (t) : (c.rejectH2Body t).core = c.core.ended := core_h2ChargeLimiter ..

theorem core_h2AppendResponseHead : c.h2AppendResponseHead.core = c.core := by
  fun_cases h2AppendResponseHead <;> rfl

theorem misfit_data {n : ℕ} {avail : ℤ} (h : (n : ℤ) ≤ avail) (payload : Bytes) (fin) :
    (Entry.data (payload.take n) fin avail).misfit = false := by
  have hlen := length_take_le n payload
  simp only [Entry.misfit, Bool.and_eq_false_imp, decide_eq_false_iff_not]
  omega

theorem core_emitAll {es : List Entry} (h : ∀ e ∈ es, e.isOpened = false ∧ e.misfit = false) :
    (c.emitAll es).core = c.core := by
  have hnone {p : Entry → Bool} (hp : ∀ e ∈ es, p e = false) : es.reverse.filter p = [] := by
    simpa [filter_eq_nil_iff] using hp
  simp [core, emitAll, hnone fun e he => (h e he).1, hnone fun e he => (h e he).2]

/-- The frames of the send loop, all or the first `kept`, change nothing. -/
theorem core_h2WindowedFrames (limit : ℕ) (budget : ℤ) (fuel : ℕ) (used head : ℤ) :
    let r := h2WindowedFrames limit budget fuel c used head
    (r.2.emitAll r.1).core = c.core ∧ ∀ kept, (r.2.emitAll (r.1.take kept)).core = c.core := by
  intro r
  obtain ⟨hcore, hquiet⟩ : r.2.core = c.core ∧ ∀ e ∈ r.1, e.isOpened = false ∧ e.misfit = false := by
    fun_induction h2WindowedFrames limit budget fuel c used head with
    | case1 | case2 | case4 => exact ⟨rfl, by simp [r]⟩
    | case3 _ c _ _ _ n fin hn hchunk _ ih =>
      have hle : (n : ℤ) ≤ c.avail := by
        unfold h2DataChunk at hchunk
        split_ifs at hchunk
        · cases hchunk
          contradiction
        · cases hchunk
          omega
      exact ⟨ih.1, forall_mem_cons.mpr ⟨⟨rfl, misfit_data hle _ fin⟩, ih.2⟩⟩
  rw [← hcore]
  exact ⟨core_emitAll _ hquiet, fun kept => core_emitAll _ fun e he => hquiet e (mem_of_mem_take he)⟩

@[simp] theorem core_h2EmitWindowed (env) : (c.h2EmitWindowed env).core = c.core := by
  rw [← c.core_h2AppendResponseHead]
  fun_cases h2EmitWindowed
  · exact (core_h2WindowedFrames ..).1
  · exact (core_h2WindowedFrames ..).1
  · exact (core_h2WindowedFrames ..).2 _

@[simp] theorem core_h2SettleParked : (c.h2SettleParked cfg).core = c.core := by
  fun_cases h2SettleParked <;> rfl

@[simp] theorem core_h2ResumeSending (env) : (c.h2ResumeSending cfg env).core = c.core := by
  unfold h2ResumeSending h2ResumeStream
  dsimp only
  split_ifs
  · exact core_h2EmitWindowed ..
  · simp
  · rfl

@[simp] theorem core_h2PumpData (limit : ℕ) (room : ℤ) (fuel : ℕ) (used : ℤ) :
    (h2PumpData limit room fuel c used).1.core = c.core := by
  fun_induction h2PumpData limit room fuel c used with
  | case1 | case2 | case4 => rfl
  | case3 _ c _ _ _ n ih =>
    rw [ih]
    simp [core, pumpFrame, misfit_data (show (n : ℤ) ≤ c.avail by omega), Entry.isOpened]

theorem core_h2FileFrames {limit fuel left : ℕ} (h : (left : ℤ) ≤ c.avail) :
    (h2FileFrames limit fuel left c).core = c.core := by
  fun_induction h2FileFrames limit fuel left c with
  | case1 | case2 => rfl
  | case3 _ left c _ n ih =>
    rw [ih (by simp only [avail, fileFrame] at h ⊢; omega)]
    simp [core, fileFrame, misfit_data (show (n : ℤ) ≤ c.avail by omega), Entry.isOpened]

@[simp] theorem core_h2PumpFile (room limit read) : (c.h2PumpFile room limit read).core = c.core := by
  fun_cases h2PumpFile
  case case4 => exact c.core_h2FileFrames (by omega)
  all_goals rfl

theorem core_h2PumpBody (env) : (c.h2PumpBody env).core = c.core := by
  unfold h2PumpBody
  dsimp only
  split_ifs
  · exact (core_h2PumpFile ..).trans (core_h2PumpData ..)
  · exact (core_h2PumpFile ..).trans (core_h2PumpData ..)
  · exact core_h2PumpData ..
  · exact core_h2PumpData ..

@[simp] theorem core_h2PumpSealed (env) : (c.h2PumpSealed env).core = c.core := by
  have hsettle (c : Cell) : c.h2SettleStream.core = c.core := by
    fun_cases h2SettleStream <;> rfl
  rw [h2PumpSealed, hsettle]
  unfold h2PumpFrames
  dsimp only
  split_ifs <;> first | rfl | exact core_h2PumpBody ..

theorem core_register : c.register.core = c.core := by
  fun_cases register <;> rfl

theorem core_h2PumpTask (env) : (c.h2PumpTask env).core = c.core := by
  fun_cases h2PumpTask
  · rfl
  · exact (core_h2PumpSealed ..).trans (core_register _)

theorem core_writerOp (op) : (c.writerOp op).core = c.core := by
  unfold writerOp writeChunk sendFileRange
  cases op <;> dsimp only <;> split_ifs <;> rfl

theorem core_finishBuffered (env body bodyOpen) : (c.finishBuffered cfg env body bodyOpen).core = c.core := by
  fun_cases finishBuffered
  · rfl
  · exact core_h2EmitWindowed ..
  · exact core_h2EmitWindowed ..
  · exact (core_h2SettleParked ..).trans (core_h2EmitWindowed ..)

theorem core_h2FinishStreamed (env) : (c.h2FinishStreamed env).core = c.core := by
  fun_cases h2FinishStreamed
  · rfl
  · exact (core_h2PumpSealed ..).trans (core_register _)

theorem core_finishH2Dispatch (send pump body) :
    (c.finishH2Dispatch cfg send pump body).core = c.core.ended := by
  unfold finishH2Dispatch
  dsimp only
  split_ifs <;> first | exact core_h2FinishStreamed .. | exact core_finishBuffered ..

open Kept.Follows

theorem fits_iff : c.core.Fits cfg ↔ (c.inBodyIn = true → c.bodyIn.tooLarge = false → 0 ≤ c.bodyIn.recvWindow ∧
    c.bodyIn.recvWindow + (c.reader.buf.length + c.reader.unacked : ℕ) = cfg.h2InitialWindow) := by
  simp [Kept.Fits, core]

theorem epollH2DispatchStream_follows (env id streamBody)
    (h : streamBody = true → c.obj.recvWindow = cfg.h2InitialWindow) :
    (c.epollH2DispatchStream cfg env id streamBody).core.Follows cfg c.core := by
  fun_cases epollH2DispatchStream
  case case2 => exact of_ended (core_finishH2Dispatch ..)
  case case4 hstream =>
    refine ⟨⟨_, rfl⟩, fun _ => (fits_iff ..).mpr fun _ _ => ?_⟩
    change 0 ≤ c.obj.recvWindow ∧ c.obj.recvWindow + (0 : ℕ) = cfg.h2InitialWindow
    have hwindow := h hstream
    omega
  all_goals exact of_eq rfl

theorem epollH2Dispatch_follows (env id) :
    (c.epollH2Dispatch cfg env id false).core.Follows cfg c.core := by
  fun_cases epollH2Dispatch
  · exact c.epollH2DispatchStream_follows cfg _ _ _ nofun
  · exact of_eq rfl

theorem openH2Stream_follows (env id atLimit answer fin) :
    (c.openH2Stream cfg env id atLimit answer fin).core.Follows cfg c.core := by
  fun_cases openH2Stream <;> first
    | exact of_eq rfl
    | exact of_eq (core_h2ChargeLimiter ..)
    | exact of_ended (core_rejectH2Body ..)
    | exact epollH2DispatchStream_follows _ _ _ _ _ fun _ => rfl

theorem core_credit {n : ℕ} (h : 0 < n) : (c.emit (.windowUpdate n)).core = c.core := by
  simp [core, emit, Entry.isOpened, Entry.misfit, h.ne']

theorem h2StreamBodyData_follows (env fin) {consumed : ℕ} {payload : Bytes} (h : payload.length ≤ consumed) :
    (c.h2StreamBodyData cfg env fin consumed payload).core.Follows cfg c.core := by
  have hpush (b : BodyReader) : (b.push payload).buf.length + (b.push payload).unacked =
      b.buf.length + b.unacked + payload.length := by
    unfold BodyReader.push
    split_ifs <;> simp <;> omega
  unfold h2StreamBodyData
  dsimp only
  generalize hcounts : (!c.bodyIn.tooLarge && !payload.isEmpty) = counts
  cases counts
  all_goals
    simp only [Bool.false_and, Bool.true_and, Bool.not_false, Bool.not_true, Bool.false_eq_true, if_true, if_false]
    split_ifs
  all_goals first
    | exact of_ended (core_rejectH2Body ..)
    | refine ⟨⟨_, core_credit _ ‹0 < _›⟩, fun hfit => (fits_iff ..).mpr fun hin hlarge => ?_⟩
    | exact of_ended rfl
    | refine ⟨⟨_, rfl⟩, fun hfit => (fits_iff ..).mpr fun hin hlarge => ?_⟩
  all_goals
    have hheld := hpush c.reader
    have hcredit := (c.fits_iff cfg).mp hfit
    clear hfit hpush
    simp_all [emit]
    try omega

theorem bufferBodyData_follows (env id fin consumed payload) :
    (c.bufferBodyData cfg env id fin consumed payload).core.Follows cfg c.core := by
  fun_cases bufferBodyData
  case case3 | case7 => exact of_ended (core_rejectH2Body ..)
  case case5 => exact of_eq (core_credit _ ‹0 < _›)
  case case8 => exact epollH2Dispatch_follows ..
  all_goals exact of_eq rfl

theorem streamData_follows (env id flags payload) :
    (c.streamData cfg env id flags payload).core.Follows cfg c.core := by
  have hlen {stripped : Bytes} (h : h2StripPadding flags payload = some stripped) :
      stripped.length ≤ payload.length := by
    unfold h2StripPadding at h
    grind
  fun_cases streamData
  case case2 => exact bufferBodyData_follows ..
  case case3 hstrip _ _ _ => exact h2StreamBodyData_follows (h := hlen hstrip) ..
  case case7 => exact of_ended rfl
  all_goals exact of_eq rfl

theorem streamWindowUpdate_follows (env id increment) :
    (c.streamWindowUpdate cfg env id increment).core.Follows cfg c.core := by
  unfold streamWindowUpdate h2CreditWindow
  dsimp only
  split_ifs
  · exact of_ended (core_resetH2Stream ..)
  · exact of_ended (core_resetH2Stream ..)
  · dsimp only
    split_ifs
    · exact of_eq rfl
    · exact of_eq (core_h2ResumeSending ..)
  · exact of_eq rfl

theorem core_streamReset (env) : (c.streamReset env).core = c.core.ended :=
  (core_h2ChargeLimiter ..).trans (core_abandonH2Stream _)

theorem core_reader {r : BodyReader} (h : r.buf.length + r.unacked = c.reader.buf.length + c.reader.unacked) :
    { c with reader := r }.core = c.core := by
  simp [core, h]

theorem claimAck_eq (b : BodyReader) : b.claimAck.buf = b.buf ∧ b.claimAck.unacked = b.unacked := by
  unfold BodyReader.claimAck
  split_ifs <;> exact ⟨rfl, rfl⟩

theorem core_readBody (n) : (c.readBody n).core = c.core := by
  have hread : (c.reader.read n).2.buf.length + (c.reader.read n).2.unacked =
      c.reader.buf.length + c.reader.unacked := by
    unfold BodyReader.read
    split_ifs <;> simp [claimAck_eq]
    omega
  fun_cases readBody
  case case1 => rfl
  case case2 hr | case3 hr =>
    rw [hr] at hread
    exact c.core_reader hread

theorem core_closeBody : c.closeBody.core = c.core := by
  fun_cases closeBody
  · rfl
  · refine c.core_reader ?_
    unfold BodyReader.close
    split_ifs
    · rfl
    · simp only [claimAck_eq, length_nil]
      omega

theorem h2BodyAcked_follows : c.h2BodyAcked.core.Follows cfg c.core := by
  unfold h2BodyAcked
  dsimp only
  split_ifs
  · exact of_eq rfl
  all_goals
    refine ⟨⟨_, by first | rfl | exact core_credit _ (by omega)⟩,
      fun hfit => (fits_iff ..).mpr fun hin hlarge => ?_⟩
    have hcredit := (c.fits_iff cfg).mp hfit
    simp_all [emit]
    try omega

theorem epollH2Trailers_decodes (hash env id block fin) :
    let r := c.decoder.decodeInto hash block
    let c' := c.epollH2Trailers hash cfg env id block fin
    c'.core.Follows cfg { c.core with decoder := r.2 } ∧ (c'.closing = true ∨ ∃ headers, r.1 = .ok headers) := by
  rcases hdec : c.decoder.decodeInto hash block with ⟨_ | headers, d⟩ <;> simp only [epollH2Trailers, hdec]
  · exact ⟨of_eq rfl, .inl rfl⟩
  refine ⟨?_, .inr ⟨headers, rfl⟩⟩
  rcases h2TrailerFields headers with _ | trailers <;> cases fin <;> dsimp only <;> split_ifs <;> first
    | exact of_eq rfl
    | exact of_ended rfl
    | exact of_ended (core_rejectH2Body ..)
    | exact epollH2Dispatch_follows ..

theorem discardH2ClosedStreamHeaders_decodes (hash env block) :
    let r := c.decoder.decodeInto hash block
    let c' := c.discardH2ClosedStreamHeaders hash env block
    c'.core = { c.core with decoder := r.2 } ∧ (c'.closing = true ∨ ∃ headers, r.1 = .ok headers) := by
  rcases hdec : c.decoder.decodeInto hash block with ⟨_ | headers, d⟩ <;>
    simp only [discardH2ClosedStreamHeaders, hdec]
  · exact ⟨rfl, .inl rfl⟩
  · exact ⟨core_h2ChargeLimiter .., .inr ⟨headers, rfl⟩⟩

theorem refuseH2StreamGoingAway_decodes (hash block) :
    let r := c.decoder.decodeRequest hash block
    let c' := c.refuseH2StreamGoingAway hash block
    c'.core = { c.core with decoder := r.2 } ∧ (c'.closing = true ∨ wholeBlock r.1.result.err = true) := by
  fun_cases refuseH2StreamGoingAway
  case case4 => exact ⟨rfl, .inl rfl⟩
  case case1 herr | case2 herr | case3 herr => exact ⟨rfl, .inr (congrArg wholeBlock herr)⟩

theorem core_answerH2HeaderListTooLarge (env fin) : (c.answerH2HeaderListTooLarge env fin).core = c.core := by
  cases fin <;> exact core_h2ChargeLimiter ..

theorem core_appendFastH2RootResponse (body) :
    (c.appendFastH2RootResponse body).core =
      { c.core with misfits := (c.appendFastH2RootResponse body).core.misfits } := by
  have hframes (limit avail fuel body) : (fastRootFrames limit avail fuel body).filter Entry.isOpened = [] := by
    fun_induction fastRootFrames limit avail fuel body with
    | case1 | case2 => rfl
    | case3 _ _ _ ih => exact ih
  simp [core, appendFastH2RootResponse, emitAll, hframes, Entry.isOpened]

variable (env : FrameEnv) (id : ℕ) (hash : Bytes → UInt64) (atLimit : Bool)
open Kept.Moves

theorem epollH2Data_moves (flags payload) :
    let c' := c.epollH2Data cfg env id flags payload
    c.core.Moves hash cfg env.fastRoot id c'.closing c'.core := by
  unfold epollH2Data h2CreditConnWindow
  dsimp only
  split_ifs
  · exact refl ..
  · exact ⟨.inl rfl, le_rfl, .inl rfl, fun _ => rfl, .inl rfl, fun h => h⟩
  all_goals
    refine (streamData_follows ..).moves
      ⟨.inr ⟨by simp [core], fun _ => ?_⟩, le_rfl, .inl rfl, fun _ => rfl, .inr fun _ h => h, fun h => h⟩
  · exact Nat.zero_le _
  · exact not_lt.mp ‹_›

theorem epollH2NewStream_moves (block fin) (hid : id % 2 = 1) (hnew : c.highestStreamID < id) :
    let c' := (c.gotBlock block).epollH2NewStream hash cfg env id atLimit block fin
    c.core.Moves hash cfg env.fastRoot id c'.closing c'.core := by
  have hopen {c' : Cell} {d : HpackDecoder} {misfits : List Entry} (h : c'.core.Follows cfg
        ⟨d, block :: c.core.blocks, c.recvConnWindow, c.pendingConnWindow, id, .opened fin :: c.core.opened, misfits,
          c.core.intake⟩)
      (hfit : env.fastRoot = none → misfits = c.core.misfits) (hsync : c'.closing = true ∨ ∀ start,
        Synced hash start c.core.blocks c.decoder → Synced hash start (block :: c.core.blocks) d) :
      c.core.Moves hash cfg env.fastRoot id c'.closing c'.core :=
    h.moves ⟨.inr ⟨rfl, fun h => h⟩, hnew.le, .inr ⟨hid, hnew, le_rfl, fin, rfl⟩, hfit, hsync, fun h => h⟩
  have hrequest (hend : wholeBlock (c.decoder.decodeRequest hash block).1.result.err = true) (start)
      (h : Synced hash start c.core.blocks c.decoder) := h.decodeRequest hash hend
  fun_cases epollH2NewStream
  case case1 =>
    obtain ⟨h, hend⟩ := refuseH2StreamGoingAway_decodes _ hash block
    exact hopen (.of_eq h) (fun _ => rfl) (hend.imp_right hrequest)
  case case2 fastRoot indexed memoized _ hbody =>
    refine hopen (.of_eq (core_appendFastH2RootResponse ..)) (fun hroot => ?_) (.inr fun start h => ?_)
    · simp [fastRoot, indexed, memoized, hroot] at hbody
    by_cases hindexed : matchIndexedH2FastRootHeaderBlock block = true
    · obtain ⟨headers, hinto⟩ := c.decoder.decodeInto_indexed hash hindexed
      have hsync := h.decodeInto hash (congrArg Prod.fst hinto)
      rwa [hinto] at hsync
    · simp [indexed, memoized, hindexed] at hbody
      exact h.memoized hash hbody.1.1
  case case3 herr =>
    exact hopen (.of_eq (core_h2ChargeLimiter ..)) (fun _ => rfl) (.inr (hrequest (congrArg wholeBlock herr)))
  case case4 herr =>
    exact hopen (.of_eq (core_answerH2HeaderListTooLarge ..)) (fun _ => rfl)
      (.inr (hrequest (congrArg wholeBlock herr)))
  case case5 => exact hopen (.of_eq rfl) (fun _ => rfl) (.inl rfl)
  case case6 fastRoot _ _ _ _ _ herr _ hbody =>
    refine hopen (.of_eq (core_appendFastH2RootResponse ..)) (fun hroot => ?_)
      (.inr (hrequest (congrArg wholeBlock herr)))
    simp [fastRoot, hroot] at hbody
  case case7 herr _ => exact hopen (openH2Stream_follows ..) (fun _ => rfl) (.inr (hrequest (congrArg wholeBlock herr)))

theorem epollH2DecodedHeaders_moves (block fin) :
    let c' := c.epollH2DecodedHeaders hash cfg env id atLimit block fin
    c.core.Moves hash cfg env.fastRoot id c'.closing c'.core := by
  unfold epollH2DecodedHeaders
  dsimp only
  split_ifs
  · obtain ⟨h, hend⟩ := (c.gotBlock block).epollH2Trailers_decodes cfg hash env id block fin
    exact h.moves (decoded (hend.imp_right fun ⟨_, hok⟩ _ hs => hs.decodeInto hash hok) ..)
  · obtain ⟨h, hend⟩ := (c.gotBlock block).discardH2ClosedStreamHeaders_decodes hash env block
    exact h ▸ decoded (hend.imp_right fun ⟨_, hok⟩ _ hs => hs.decodeInto hash hok) ..
  · exact decoded (.inl rfl) ..
  · have hhighest : (c.gotBlock block).highestStreamID = c.highestStreamID := rfl
    exact c.epollH2NewStream_moves cfg _ _ _ _ _ _ (by omega) (by omega)

theorem epollH2Headers_moves (flags payload) :
    let c' := c.epollH2Headers hash cfg env id atLimit flags payload
    c.core.Moves hash cfg env.fastRoot id c'.closing c'.core := by
  fun_cases epollH2Headers <;> first | exact refl .. | exact epollH2DecodedHeaders_moves ..

theorem epollH2Continuation_moves (flags payload) :
    let c' := c.epollH2Continuation hash cfg env id atLimit flags payload
    c.core.Moves hash cfg env.fastRoot id c'.closing c'.core := by
  fun_cases epollH2Continuation <;> first | exact refl .. | exact epollH2DecodedHeaders_moves ..

end Cell

def Event.root : Event → Option Bytes
  | .frame _ env => env.fastRoot
  | _ => none

namespace Conn
variable (c : Conn) (hash : Bytes → UInt64) (cfg : ServerConfig)

def core (id : ℕ) : Kept := (c.cell id).core

variable {hash cfg} in
theorem on_moves {root : Option Bytes} {i : ℕ} {f : Cell → Cell}
    (h : (c.core i).Moves hash cfg root i (f (c.cell i)).closing (f (c.cell i)).core) (id : ℕ) :
    (c.core id).Moves hash cfg root id (c.on i f).st.closing ((c.on i f).core id) := by
  by_cases hid : id = i
  · subst hid
    simpa [core, cell, on] using h
  have hslot : (c.on i f).slot id = c.slot id := Function.update_of_ne hid ..
  refine ⟨h.credit, h.highest, .inl ?_, fun _ => ?_, h.synced, fun h => ?_⟩
  · simp [core, cell, Cell.core, hslot]
  · simp [core, cell, Cell.core, hslot]
  · simpa [Kept.Fits, core, cell, Cell.core, hslot] using h

theorem core_on (i) {f : Cell → Cell} (h : ∀ cell, (f cell).core = cell.core) : (c.on i f).core = c.core := by
  funext id
  have hcell := h (c.cell i)
  by_cases hid : id = i
  · subst hid
    simpa [core, cell, on] using hcell
  have hslot : (c.on i f).slot id = c.slot id := Function.update_of_ne hid ..
  simp only [Cell.core, Kept.mk.injEq] at hcell
  simp only [core, cell, Cell.core, hslot, Kept.mk.injEq]
  exact ⟨hcell.1, hcell.2.1, hcell.2.2.1, hcell.2.2.2.1, hcell.2.2.2.2.1, trivial, trivial, rfl⟩

theorem core_visit (order : List ℕ) {f : ℕ → Cell → Cell} (h : ∀ id cell, (f id cell).core = cell.core) :
    (c.visit order f).core = c.core := by
  induction order generalizing c with
  | nil => rfl
  | cons id order ih => exact (ih _).trans (c.core_on id (h id))

theorem core_h2ResumeSending (order send) : (c.h2ResumeSending cfg order send).core = c.core :=
  c.core_visit order fun _ cell => cell.core_h2ResumeSending ..

theorem applySettings_eq (st : H2State) (settings : List (ℕ × ℕ)) :
    ∃ window frame, (applySettings st settings).2 = { st with initialWindowSize := window, maxFrameSize := frame } ∧
      ∀ st', (applySettings st settings).1 = .ok st' → st' = (applySettings st settings).2 := by
  fun_induction applySettings st settings with
  | case1 | case2 | case4 => exact ⟨_, _, rfl, by simp⟩
  | case3 _ _ _ _ ih | case5 _ _ _ _ _ ih | case6 _ _ _ _ _ _ ih => exact ih

theorem core_epollH2Settings (env payload) : (c.epollH2Settings cfg env payload).core = c.core := by
  have hshift (c : Conn) (delta) : (c.h2ShiftStreamWindows delta).1.core = c.core := by
    funext id
    obtain ⟨obj, hslot⟩ : ∃ obj, (h2ShiftSlot delta (c.slot id)).1 = { c.slot id with obj } := by
      unfold h2ShiftSlot
      dsimp only
      split_ifs <;> exact ⟨_, rfl⟩
    simp [core, cell, Cell.core, h2ShiftStreamWindows, hslot]
  obtain ⟨window, frame, hst, hok⟩ := applySettings_eq c.st (settingsOf payload)
  unfold epollH2Settings
  generalize applySettings c.st (settingsOf payload) = r at hst hok
  obtain ⟨_ | st, _⟩ := r
  · subst hst
    rfl
  obtain rfl := hok st rfl
  subst hst
  dsimp only
  split_ifs
  · rfl
  · exact core_h2ResumeSending ..
  · rfl
  · exact hshift ..
  · exact (core_h2ResumeSending ..).trans (hshift ..)
  · exact hshift ..

variable {hash} in
theorem moves_of_core {c c' : Conn} (h : c'.core = c.core) (cfg root id closing) :
    (c.core id).Moves hash cfg root id closing (c'.core id) :=
  h ▸ .refl ..

theorem on_follows (root i) {f : Cell → Cell} (h : ∀ cell, (f cell).core.Follows cfg cell.core) (id : ℕ) :
    (c.core id).Moves hash cfg root id (c.on i f).st.closing ((c.on i f).core id) :=
  c.on_moves ((h _).moves (.refl ..)) id

theorem processFrame_moves (env : FrameEnv) (f : H2Frame) (id : ℕ) :
    let c' := c.processFrame hash cfg env f
    (c.core id).Moves hash cfg env.fastRoot id c'.st.closing (c'.core id) := by
  fun_cases processFrame
  case case4 => exact c.on_moves (Cell.epollH2Continuation_moves ..) id
  case case5 =>
    fun_cases epollH2Frame
    case case2 =>
      refine moves_of_core ?_ ..
      fun_cases epollH2SettingsFrame <;> first | rfl | exact core_epollH2Settings ..
    case case3 => exact c.on_moves (Cell.epollH2Headers_moves ..) id
    case case5 => exact c.on_moves (Cell.epollH2Data_moves ..) id
    case case6 =>
      fun_cases epollH2WindowUpdate
      case case2 => exact c.on_follows _ _ _ _ (fun cell => cell.streamWindowUpdate_follows ..) id
      case case5 =>
        refine moves_of_core ?_ ..
        exact core_h2ResumeSending ..
      all_goals exact moves_of_core rfl ..
    case case7 => fun_cases epollH2Ping <;> exact moves_of_core rfl ..
    case case9 => exact c.on_follows _ _ _ _ (fun cell => .of_ended (cell.core_streamReset env)) id
    case case10 => fun_cases epollH2GoAway <;> exact moves_of_core rfl ..
    all_goals exact moves_of_core rfl ..
  all_goals exact moves_of_core rfl ..

theorem step_moves (e : Event) (id : ℕ) :
    let c' := c.step hash cfg e
    (c.core id).Moves hash cfg e.root id c'.st.closing (c'.core id) := by
  fun_cases step
  case case1 => exact processFrame_moves ..
  case case2 => exact moves_of_core (c.core_on _ fun cell => cell.core_h2PumpTask _) ..
  case case3 streaming _ pump _ =>
    refine moves_of_core ?_ ..
    fun_cases h2PumpAll
    case case3 =>
      refine (core_h2ResumeSending ..).trans (c.core_visit streaming fun id cell => ?_)
      split_ifs <;> simp
    all_goals rfl
  case case4 => exact moves_of_core (c.core_on _ fun cell => cell.core_writerOp _) ..
  case case5 => exact moves_of_core (c.core_on _ fun cell => cell.core_readBody _) ..
  case case6 => exact moves_of_core (c.core_on _ fun cell => cell.core_closeBody) ..
  case case7 => exact c.on_follows _ _ _ _ (fun cell => cell.h2BodyAcked_follows _) id
  case case8 => exact c.on_follows _ _ _ _ (fun cell => .of_ended (cell.core_finishH2Dispatch ..)) id
  case case10 =>
    unfold goAwayForShutdown
    dsimp only
    split_ifs <;> exact moves_of_core rfl ..
  all_goals exact moves_of_core rfl ..

/-- No event of the run closes the connection. -/
def StaysOpen : Conn → List Event → Prop
  | _, [] => True
  | c, e :: es => (c.step hash cfg e).st.closing = false ∧ StaysOpen (c.step hash cfg e) es

theorem run_keeps {P : Conn → Prop}
    (hstep : ∀ c e, P c → (c.step hash cfg e).st.closing = false → P (c.step hash cfg e)) {c : Conn} (hc : P c)
    {es : List Event} (h : c.StaysOpen hash cfg es) : P (c.run hash cfg es) := by
  induction es generalizing c with
  | nil => exact hc
  | cons e es ih => exact ih (hstep c e hc h.1) h.2

variable (tableSize : UInt32) (limit : ℕ) (es : List Event)

/-- Whatever the client sends and the handlers do, the client's credit on the connection and the
credit that is held back add up to the window, and at least half of it is the client's. -/
theorem recvConnWindow_conserved (h : (newConn tableSize limit).StaysOpen hash cfg es) :
    let c := (newConn tableSize limit).run hash cfg es
    c.st.recvConnWindow + c.st.pendingConnWindow = h2ConnectionWindowSize ∧
      (h2ConnectionWindowSize / 2 : ℕ) ≤ c.st.recvConnWindow := by
  have hrun := run_keeps hash cfg
    (P := fun c => c.st.recvConnWindow + c.st.pendingConnWindow = h2ConnectionWindowSize ∧
      c.st.pendingConnWindow ≤ h2ConnectionWindowSize / 2)
    (fun c e hc hopen => ?_) ⟨rfl, Nat.zero_le _⟩ h
  · unfold h2ConnectionWindowSize at *
    omega
  · obtain ⟨hsum, hle⟩ := (c.step_moves hash cfg e 0).credit.resolve_left (by simp [hopen])
    exact ⟨hsum.trans hc.1, hle hc.2⟩

def sampleFrame (type : H2FrameType) (flags : UInt8) (payload : Bytes) : Event :=
  .frame ⟨type, flags, 1, payload⟩
    ⟨false, false, false, false, none, false, false, false, true, true, .handler, fun _ => ⟨.append, 0, 0, 0, 0⟩,
      ⟨0, .full⟩, []⟩

def sampleConfig : ServerConfig := ⟨100, 65535, 16384, 0, none, 0, false, 0⟩

theorem recvConnWindow_conserved_data :
    let c := (newConn 4096 65536).run (fun _ => 0) sampleConfig [sampleFrame .data 0 [1, 2, 3]]
    c.st.pendingConnWindow = 3 ∧ c.st.recvConnWindow + c.st.pendingConnWindow = h2ConnectionWindowSize :=
  ⟨rfl, (recvConnWindow_conserved _ _ 4096 65536 [sampleFrame .data 0 [1, 2, 3]] ⟨rfl, trivial⟩).1⟩

/-- On a connection that stays open every header block is decoded once, in the order of arrival: no
shortcut, no refusal and no memo takes the decoder's table out of step with the client's. -/
theorem blocks_decoded_in_order (h : (newConn tableSize limit).StaysOpen hash cfg es) :
    let c := (newConn tableSize limit).run hash cfg es
    ∃ d, Decodes hash (newConn tableSize limit).st.decoder (c.st.connLog.filterMap ConnEntry.block?) d ∧
      c.st.decoder.Alike d := by
  refine (run_keeps hash cfg (P := fun c => Synced hash (newConn tableSize limit).st.decoder (c.core 0).blocks
    c.st.decoder) (fun c e hc hopen => ?_) ⟨?_, _, .nil, .refl ?_⟩ h).2
  · exact (c.step_moves hash cfg e 0).synced.resolve_left (by simp [hopen]) _ hc
  · intro hvalid
    cases hvalid
  · exact newHpackDecoder_cacheOk tableSize

theorem blocks_decoded_in_order_root :
    let c := (newConn 4096 65536).run (fun _ => 0) sampleConfig [sampleFrame .headers 5 [0x82, 0x84, 0x87]]
    let blocks := c.st.connLog.filterMap ConnEntry.block?
    blocks = [[0x82, 0x84, 0x87]] ∧
      ∃ d, Decodes (fun _ => 0) (newConn 4096 65536).st.decoder blocks d ∧ c.st.decoder.Alike d :=
  ⟨by decide +kernel, blocks_decoded_in_order _ _ _ _ _ ⟨by decide +kernel, trivial⟩⟩

/-- From any state on, a stream is opened at most once, with an odd id above all earlier ones. -/
theorem run_opens_once (c : Conn) (id : ℕ) :
    let c' := c.run hash cfg es
    let opened (c : Conn) := (c.slot id).hist.filter Entry.isOpened
    c.st.highestStreamID ≤ c'.st.highestStreamID ∧ (opened c' = opened c ∨
      id % 2 = 1 ∧ c.st.highestStreamID < id ∧ id ≤ c'.st.highestStreamID ∧
        ∃ fin, opened c' = .opened fin :: opened c) := by
  induction es generalizing c with
  | nil => exact ⟨le_rfl, .inl rfl⟩
  | cons e es ih =>
    obtain ⟨-, hle, hopened, -⟩ := c.step_moves hash cfg e id
    obtain ⟨hle', hopened'⟩ := ih (c.step hash cfg e)
    refine ⟨hle.trans hle', ?_⟩
    obtain hsame | ⟨hodd, hnew, hseen, fin, hfin⟩ := hopened
    · obtain hsame' | ⟨hodd, hnew, hseen, fin, hfin⟩ := hopened'
      · exact .inl (hsame'.trans hsame)
      · exact .inr ⟨hodd, hle.trans_lt hnew, hseen, fin, hfin.trans (congrArg _ hsame)⟩
    obtain hsame' | ⟨-, hnew', -⟩ := hopened'
    · exact .inr ⟨hodd, hnew, hseen.trans hle', fin, hsame'.trans hfin⟩
    · exact absurd hseen (not_le.mpr hnew')

variable {es} in
theorem run_misfits (h : ∀ e ∈ es, e.root = none) (id : ℕ) :
    ((c.run hash cfg es).core id).misfits = (c.core id).misfits := by
  induction es generalizing c with
  | nil => rfl
  | cons e es ih =>
    obtain ⟨he, hrest⟩ := forall_mem_cons.mp h
    exact (ih _ hrest).trans ((c.step_moves hash cfg e id).misfits he)

/-- Without the prepared answer to the root, every DATA frame is within the window of its stream and that
of the connection when it is sent, and no credit for a stream is empty. -/
theorem sent_within_windows (h : ∀ e ∈ es, e.root = none) (id : ℕ) :
    let hist := (((newConn tableSize limit).run hash cfg es).slot id).hist
    (∀ payload fin avail, .data payload fin avail ∈ hist → payload = [] ∨ (payload.length : ℤ) ≤ avail) ∧
      ∀ n, .windowUpdate n ∈ hist → 0 < n := by
  have hmisfits := filter_eq_nil_iff.mp ((newConn tableSize limit).run_misfits hash cfg h id)
  refine ⟨fun payload fin avail he => ?_, fun n he => ?_⟩
  · simpa [Entry.misfit, or_iff_not_imp_left] using hmisfits _ he
  · simpa [Entry.misfit, Nat.pos_iff_ne_zero] using hmisfits _ he

theorem sent_within_windows_answer :
    let hist := (((newConn 4096 65536).run (fun _ => 0) sampleConfig [sampleFrame .headers 5 [0x82, 0x84, 0x87],
      .finish 1 ⟨.append, 100, 0, 0, 0⟩ ⟨0, .full⟩ [1, 2, 3]]).slot 1).hist
    .data [1, 2, 3] true 65535 ∈ hist ∧
      ∀ payload fin avail, .data payload fin avail ∈ hist → payload = [] ∨ (payload.length : ℤ) ≤ avail :=
  ⟨by decide +kernel, (sent_within_windows _ _ _ _ _ (by simp [sampleFrame, Event.root]) 1).1⟩

/-- While a body is streamed to its handler, the client's window and the bytes without credit, those that
wait to be read and those that were, add up to the announced window, which so bounds what is buffered. -/
theorem streamed_body_credit (es : List Event) (id : ℕ) :
    let s := ((newConn tableSize limit).run hash cfg es).slot id
    s.inBodyIn = true → s.bodyIn.tooLarge = false → 0 ≤ s.bodyIn.recvWindow ∧
      s.bodyIn.recvWindow + (s.reader.buf.length + s.reader.unacked : ℕ) = cfg.h2InitialWindow := by
  have hrun (c : Conn) (hc : (c.core id).Fits cfg) :
      ((c.run hash cfg es).core id).Fits cfg := by
    induction es generalizing c with
    | nil => exact hc
    | cons e es ih => exact ih _ ((c.step_moves hash cfg e id).intake hc)
  exact (Cell.fits_iff ..).mp (hrun _ fun p hp => by cases hp)

theorem streamed_body_credit_read :
    let s := ((newConn 4096 65536).run (fun _ => 0) { sampleConfig with streamBodyAbove := 1 }
      [sampleFrame .headers 4 [0x83, 0x84, 0x87], sampleFrame .data 0 [1, 2, 3], .readBody 1 2]).slot 1
    s.reader.buf = [3] ∧ s.reader.unacked = 2 ∧
      s.bodyIn.recvWindow + (s.reader.buf.length + s.reader.unacked : ℕ) = 65535 :=
  ⟨by decide +kernel, by decide +kernel,
    (streamed_body_credit _ _ 4096 65536 _ 1 (by decide +kernel) (by decide +kernel)).2⟩

end Conn
end AlosHttp.H2

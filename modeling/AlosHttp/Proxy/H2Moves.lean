import AlosHttp.Proxy.H2Client

/-! What an event of the proxy's HTTP/2 client connection can do, as a chain of small moves. Every
invariant is proved of the moves and holds along all runs by the chain lemmas of this module. -/
namespace AlosHttp.Proxy
open List Relation

inductive Quiet : H2Conn → H2Conn → Prop
  | chunk {c : H2Conn} {st : H2Stream} (hst : c.stream st.id = some st)
      (hrem : st.bodyRem ≠ []) (hmax : 0 < c.pumpMax st) : Quiet c (c.writeChunk st)
  | finalData {c : H2Conn} {st : H2Stream} (hst : c.stream st.id = some st)
      (hrem : st.bodyRem = []) (heof : st.bodyEOF = true) (hend : st.endSent = false) :
      Quiet c (c.writeEnd st)
  | request {c : H2Conn} {st : H2Stream} {b : UpstreamBody} (hst : c.stream st.id = some st)
      (hup : st.upload = some b) (hrem : st.bodyRem = []) :
      Quiet c (c.update st.id fun t => { t with upload := some { b with
        done := st.endSent, requested := b.requested || !st.endSent } })
  | given {c : H2Conn} {st : H2Stream} {b : UpstreamBody} (hst : c.stream st.id = some st)
      (hup : st.upload = some b) (hreq : b.requested = true) (chunk : Bytes) (eof : Bool)
      (hmore : chunk ≠ [] ∨ eof = false ∨ st.endSent = true) :
      Quiet c (c.giveChunk st b chunk eof)
  /-- The empty last chunk is answered by the empty DATA frame at once. -/
  | givenEnd {c : H2Conn} {st : H2Stream} {b : UpstreamBody} (hst : c.stream st.id = some st)
      (hup : st.upload = some b) (hreq : b.requested = true) (hend : st.endSent = false) :
      Quiet c ((c.giveChunk st b [] true).writeEnd st)
  | fail {c : H2Conn} (ex : Exchange) (err : FpError) : Quiet c (c.finish ex (.error err))
  | drop {c : H2Conn} {st : H2Stream} (hst : c.stream st.id = some st) : Quiet c (c.delete st.id)
  | deliver {c : H2Conn} {st : H2Stream} (hst : c.stream st.id = some st) :
      Quiet c (((c.delete st.id).finish st.ex (.ok ⟨st.status, st.headers, st.body⟩)).note
        [.delivered st.id ⟨st.status, st.headers, st.body⟩])
  | shut {c : H2Conn} : Quiet c { c with closed := true, pooled := false, streams := [], pending := [] }
  | retire {c : H2Conn} (restarted : List ℕ) (hid : fpH2MaxStreamID < c.nextID) :
      Quiet c { c with pending := [], pooled := false, restarted := restarted }
  | settings {c : H2Conn} (init : ℤ) (maxConcurrent maxFrameSize : ℕ)
      (hinit : init = c.peerInitWindow ∨ 0 ≤ init ∧ init ≤ fpH2MaxWindow)
      (hfit : ∀ st ∈ c.streams, init = c.peerInitWindow ∨
        h2WindowFits st.sendWindow (init - c.peerInitWindow) = true) :
      Quiet c (H2Conn.note { c with
        maxConcurrent := maxConcurrent
        maxFrameSize := maxFrameSize
        peerInitWindow := init
        streams := c.streams.map fun st =>
          { st with sendWindow := st.sendWindow + (init - c.peerInitWindow) } } [.settings init])
  | connUpdate {c : H2Conn} (inc : ℤ) (hinc : 0 ≤ inc)
      (hfit : h2WindowFits c.connSendWindow inc = true) :
      Quiet c ({ c with connSendWindow := c.connSendWindow + inc }.note [.connUpdate inc])
  | streamUpdate {c : H2Conn} {st : H2Stream} (hst : c.stream st.id = some st) (inc : ℤ)
      (hfit : h2WindowFits st.sendWindow inc = true) :
      Quiet c ((c.update st.id fun t => { t with sendWindow := t.sendWindow + inc }).note [.streamUpdate st.id inc])
  | block {c : H2Conn} {st : H2Stream} (hst : c.stream st.id = some st) (fields : List Field) :
      Quiet c ((c.update st.id fun _ => H2Conn.applyBlock st fields).note [.block st.id fields])
  | payload {c : H2Conn} {st : H2Stream} (hst : c.stream st.id = some st) (bytes : Bytes) :
      Quiet c ((c.update st.id fun _ => { st with body := st.body ++ bytes }).note [.payload st.id bytes])
  | unpool {c : H2Conn} : Quiet c { c with pooled := false }

/-- Any move but the one a GOAWAY makes. -/
inductive Move : H2Conn → H2Conn → Prop
  | quiet {c c' : H2Conn} (h : Quiet c c') : Move c c'
  | open {c : H2Conn} {ex : Exchange} {rest : List Exchange} (hp : c.pending = ex :: rest)
      (hready : c.ready = true) (hid : c.nextID ≤ fpH2MaxStreamID)
      (hlim : c.streams.length < c.maxConcurrent) (hgo : c.goAway = false) :
      Move c ({ c with pending := rest }.addStream ex)
  | submit {c : H2Conn} (body : Bytes) (bodySource : Option ℤ) (hgo : c.goAway = false) : Move c { c with
        pending := c.pending ++ [⟨c.submitted, body, bodySource⟩], submitted := c.submitted + 1 }
  | ready {c : H2Conn} : Move c { c with ready := true }

abbrev Quiets := ReflTransGen Quiet
abbrev Moves := ReflTransGen Move

theorem Quiets.moves {c c' : H2Conn} (h : Quiets c c') : Moves c c' := by
  induction h with
  | refl => exact .refl
  | tail _ hq ih => exact ih.tail (.quiet hq)

structure Kept (c c' : H2Conn) : Prop where
  nextID : c'.nextID = c.nextID
  ready : c'.ready = c.ready
  goAway : c'.goAway = c.goAway
  pending : c'.pending = c.pending ∨ c'.pending = []
  closed : c'.closed = true → c.closed = true ∨ c'.pending = []

theorem Kept.refl (c : H2Conn) : Kept c c := ⟨rfl, rfl, rfl, .inl rfl, .inl⟩

theorem Kept.trans {a b c : H2Conn} (h : Kept a b) (h' : Kept b c) : Kept a c := by
  refine ⟨h'.nextID.trans h.nextID, h'.ready.trans h.ready, h'.goAway.trans h.goAway, ?_, ?_⟩
  · rcases h'.pending with hp | hp
    · rw [hp]
      exact h.pending
    · exact .inr hp
  intro hc
  rcases h'.closed hc with hb | hp
  · rcases h.closed hb with ha | hp
    · exact .inl ha
    rcases h'.pending with hp' | hp'
    · exact .inr (hp'.trans hp)
    · exact .inr hp'
  · exact .inr hp

namespace H2Conn
variable {c : H2Conn} {st : H2Stream} {id : ℕ}

theorem stream_eq_some (h : c.stream id = some st) : st ∈ c.streams ∧ st.id = id := by
  have hp := find?_some h
  exact ⟨mem_of_find?_eq_some h, by simpa using hp⟩

theorem stream_self (h : c.stream id = some st) : c.stream st.id = some st := by
  rw [(stream_eq_some h).2]
  exact h

theorem kept_finish (ex : Exchange) (r : Except FpError FpResponse) : Kept c (c.finish ex r) := by
  unfold finish
  split_ifs
  · exact .refl c
  · exact ⟨rfl, rfl, rfl, .inl rfl, .inl⟩

end H2Conn

theorem Quiet.kept {c c' : H2Conn} (h : Quiet c c') : Kept c c' := by
  cases h with
  | fail ex err => exact H2Conn.kept_finish ex _
  | @deliver st hst =>
    have hk : Kept (c.delete st.id) _ := H2Conn.kept_finish st.ex (.ok ⟨st.status, st.headers, st.body⟩)
    exact ⟨hk.nextID, hk.ready, hk.goAway, hk.pending, hk.closed⟩
  | shut => exact ⟨rfl, rfl, rfl, .inr rfl, fun _ => .inr rfl⟩
  | retire => exact ⟨rfl, rfl, rfl, .inr rfl, .inl⟩
  | _ => exact ⟨rfl, rfl, rfl, .inl rfl, .inl⟩

theorem Quiets.kept {c c' : H2Conn} (h : Quiets c c') : Kept c c' := by
  induction h with
  | refl => exact .refl c
  | tail _ hstep ih => exact ih.trans hstep.kept

namespace H2Conn
variable {c : H2Conn} {st : H2Stream} {id : ℕ} (fuel : ℕ)

/-! ### Functions that open nothing -/

theorem pumpLoop_quiets (c : H2Conn) (id : ℕ) : Quiets c (pumpLoop fuel c id) := by
  induction fuel generalizing c with
  | zero => exact .refl
  | succ fuel ih =>
    unfold pumpLoop
    rcases hst : c.stream id with _ | st
    · exact .refl
    dsimp only
    split_ifs with hstop
    · exact .refl
    simp only [Bool.or_eq_true, List.isEmpty_iff, decide_eq_true_eq, not_or, not_le] at hstop
    exact .head (.chunk (stream_self hst) hstop.1 hstop.2) (ih _)

theorem pumpBody_quiets (c : H2Conn) (id : ℕ) : Quiets c (c.pumpBody id) := by
  unfold pumpBody
  rcases hst : c.stream id with _ | st
  · exact .refl
  dsimp only
  have hloop := pumpLoop_quiets st.bodyRem.length c id
  rcases hst' : (pumpLoop st.bodyRem.length c id).stream id with _ | st'
  · exact hloop
  dsimp only
  split_ifs with hend
  · simp only [Bool.and_eq_true, List.isEmpty_iff, Bool.not_eq_true'] at hend
    exact hloop.tail (.finalData (stream_self hst') hend.1.1 hend.1.2 hend.2)
  · exact hloop

theorem afterBodyPump_quiets (c : H2Conn) (id : ℕ) : Quiets c (c.afterBodyPump id) := by
  unfold afterBodyPump
  rcases hst : c.stream id with _ | st
  · exact .refl
  dsimp only
  rcases hup : st.upload with _ | b
  · exact .refl
  split_ifs with hrem
  · exact .refl
  rw [← (stream_eq_some hst).2]
  exact .single (.request (stream_self hst) hup (by simpa using hrem))

theorem foldl_quiets {f : H2Conn → ℕ → H2Conn} (hf : ∀ c id, Quiets c (f c id)) (ids : List ℕ)
    (c : H2Conn) : Quiets c (ids.foldl f c) := by
  induction ids generalizing c with
  | nil => exact .refl
  | cons id ids ih => exact (hf c id).trans (ih _)

theorem resumeBody_quiets (c : H2Conn) (id : ℕ) : Quiets c (c.resumeBody id) := by
  unfold resumeBody
  rcases c.stream id with _ | st
  · exact .refl
  dsimp only
  split_ifs
  · exact .refl
  · exact pumpBody_quiets c id

theorem resumeBodies_quiets (c : H2Conn) (order : List ℕ) : Quiets c (c.resumeBodies order) := by
  unfold resumeBodies
  dsimp only
  have hfirst := foldl_quiets resumeBody_quiets (order ++ c.streams.map H2Stream.id) c
  split_ifs
  · exact hfirst
  · exact hfirst.trans (foldl_quiets afterBodyPump_quiets _ _)

theorem closeConn_quiets (c : H2Conn) (err : FpError) : Quiets c (c.closeConn err) := by
  unfold closeConn
  split_ifs
  · exact .refl
  apply ReflTransGen.head Quiet.shut
  generalize c.streams.map H2Stream.ex ++ c.pending = failing
  generalize { c with closed := true, pooled := false, streams := [], pending := [] } = c'
  induction failing generalizing c' with
  | nil => exact .refl
  | cons ex failing ih => exact .head (.fail ex err) (ih _)

theorem closeIfExhausted_quiets (c : H2Conn) : Quiets c c.closeIfExhausted := by
  unfold closeIfExhausted
  split_ifs
  · exact closeConn_quiets c _
  · exact .refl

theorem retireExhausted_quiets (hid : fpH2MaxStreamID < c.nextID) : Quiets c c.retireExhausted := by
  exact .head (.retire _ hid) (closeIfExhausted_quiets _)

/-! ### Opening streams -/

theorem openStream_moves {ex : Exchange} {rest : List Exchange} (hp : c.pending = ex :: rest)
    (hready : c.ready = true) (hid : c.nextID ≤ fpH2MaxStreamID)
    (hlim : c.streams.length < c.maxConcurrent) (hgo : c.goAway = false) :
    Moves c ({ c with pending := rest }.openStream ex) :=
  .head (.open hp hready hid hlim hgo) (pumpBody_quiets _ _).moves

theorem openStream_kept (c : H2Conn) (ex : Exchange) : (c.openStream ex).ready = c.ready ∧
      ((c.openStream ex).pending = c.pending ∨ (c.openStream ex).pending = []) ∧
      ((c.openStream ex).closed = true → c.closed = true ∨ (c.openStream ex).pending = []) := by
  have hk := (pumpBody_quiets (c.addStream ex) c.nextID).kept
  exact ⟨hk.ready, hk.pending, hk.closed⟩

theorem flushLoop_cases (c : H2Conn) : (flushLoop (fuel + 1) c = c ∧ (c.closed = true ∨ c.nextID ≤ fpH2MaxStreamID)) ∨
      (flushLoop (fuel + 1) c = c.retireExhausted ∧ fpH2MaxStreamID < c.nextID) ∨
      ∃ ex rest, c.pending = ex :: rest ∧ c.closed = false ∧ c.nextID ≤ fpH2MaxStreamID ∧
        c.streams.length < c.maxConcurrent ∧ c.goAway = false ∧
        flushLoop (fuel + 1) c = flushLoop fuel ({ c with pending := rest }.openStream ex) := by
  rw [flushLoop]
  by_cases hcl : c.closed = true
  · rw [if_pos hcl]
    exact .inl ⟨rfl, .inl hcl⟩
  rw [if_neg hcl]
  by_cases hid : fpH2MaxStreamID < c.nextID
  · rw [if_pos hid]
    exact .inr (.inl ⟨rfl, hid⟩)
  rw [if_neg hid]
  rcases hp : c.pending with _ | ⟨ex, rest⟩
  · exact .inl ⟨rfl, .inr (not_lt.mp hid)⟩
  dsimp only
  split_ifs with hstop
  · exact .inl ⟨rfl, .inr (not_lt.mp hid)⟩
  simp only [Bool.or_eq_true, decide_eq_true_eq, not_or, not_le, Bool.not_eq_true] at hstop
  exact .inr (.inr ⟨ex, rest, rfl, by simpa using hcl, not_lt.mp hid, hstop.1, hstop.2, rfl⟩)

theorem flushLoop_moves (hready : c.ready = true) : Moves c (flushLoop fuel c) := by
  induction fuel generalizing c with
  | zero => exact .refl
  | succ fuel ih =>
    rcases flushLoop_cases fuel c with ⟨heq, -⟩ | ⟨heq, hid⟩ | ⟨ex, rest, hp, -, hid, hlim, hgo, heq⟩
    · rw [heq]
    · rw [heq]
      exact (retireExhausted_quiets hid).moves
    rw [heq]
    have hkept := (openStream_kept { c with pending := rest } ex).1
    exact (openStream_moves hp hready hid hlim hgo).trans (ih (hkept.trans hready))

theorem flushPending_moves (hready : c.ready = true) : Moves c c.flushPending := flushLoop_moves _ hready

def Drained (c : H2Conn) : Prop := c.nextID ≤ fpH2MaxStreamID ∨ c.pending = []

variable {c' : H2Conn} {f : H2Stream → H2Stream}

theorem Drained.quiets (h : c.Drained) (hq : Quiets c c') : c'.Drained := by
  have hk := hq.kept
  rcases h with h | h
  · left
    rw [hk.nextID]
    exact h
  right
  rcases hk.pending with hp | hp
  · rw [hp, h]
  · exact hp

theorem drained_retireExhausted (c : H2Conn) : c.retireExhausted.Drained := by
  exact Drained.quiets (.inr rfl) (closeIfExhausted_quiets _)

theorem drained_flushLoop {fuel : ℕ} (hfuel : c.pending.length < fuel)
    (hclosed : c.closed = true → c.pending = []) : (flushLoop fuel c).Drained := by
  induction fuel generalizing c with
  | zero => omega
  | succ fuel ih =>
    rcases flushLoop_cases fuel c with ⟨heq, hend⟩ | ⟨heq, -⟩ | ⟨ex, rest, hp, hcl, -, -, -, heq⟩
    · rw [heq]
      rcases hend with hcl | hid
      · exact .inr (hclosed hcl)
      · exact .inl hid
    · rw [heq]
      exact drained_retireExhausted c
    rw [heq]
    obtain ⟨-, hpend, hclosed'⟩ := openStream_kept { c with pending := rest } ex
    rw [hp, length_cons] at hfuel
    apply ih
    · rcases hpend with hpend | hpend
      · rw [hpend]
        dsimp only
        omega
      rw [hpend, length_nil]
      omega
    intro hc
    rcases hclosed' hc with hc' | hnil
    · exact absurd (show c.closed = true from hc') (by rw [hcl]; exact Bool.false_ne_true)
    · exact hnil

theorem drained_flushPending (hclosed : c.closed = true → c.pending = []) : c.flushPending.Drained :=
  drained_flushLoop (Nat.lt_succ_self _) hclosed

/-! ### Lookups -/

theorem stream_update (hf : ∀ t, t.id = id → (f t).id = id)
    (h : c.stream id = some st) : (c.update id f).stream id = some (f st) := by
  have hid := (stream_eq_some h).2
  unfold stream update at *
  rw [find?_map]
  have hcomp : ((fun t : H2Stream => t.id == id) ∘ fun t => if t.id = id then f t else t) = fun t => t.id == id := by
    funext t
    dsimp only [Function.comp]
    split_ifs with ht
    · rw [hf t ht, ht]
    · rfl
  rw [hcomp, h, Option.map_some, if_pos hid]

theorem mem_update {t : H2Stream} (hst : c.stream st.id = some st)
    (hnd : (c.streams.map H2Stream.id).Nodup) (h : t ∈ (c.update st.id f).streams) :
    t = f st ∨ t ∈ c.streams ∧ t.id ≠ st.id := by
  obtain ⟨x, hx, rfl⟩ := mem_map.mp h
  by_cases hid : x.id = st.id
  · left
    rw [if_pos hid, inj_on_of_nodup_map hnd hx (stream_eq_some hst).1 hid]
  right
  rw [if_neg hid]
  exact ⟨hx, hid⟩

theorem map_id_update (hst : c.stream st.id = some st)
    (hnd : (c.streams.map H2Stream.id).Nodup) (hf : (f st).id = st.id) :
    (c.update st.id f).streams.map H2Stream.id = c.streams.map H2Stream.id := by
  unfold update
  rw [List.map_map]
  apply map_congr_left
  intro t ht
  dsimp only [Function.comp]
  split_ifs with hid
  · rw [inj_on_of_nodup_map hnd ht (stream_eq_some hst).1 hid]
    exact hf
  · rfl

theorem mem_delete {t : H2Stream} (h : t ∈ (c.delete id).streams) : t ∈ c.streams ∧ t.id ≠ id := by
  have hmem := mem_filter.mp h
  exact ⟨hmem.1, by simpa using hmem.2⟩

/-! ### The shape of an event -/

/-- An event makes quiet moves and tries the pending queue at most once. -/
inductive Shape (c c' : H2Conn) : Prop
  | quiet (h : Quiets c c')
  | flush {d : H2Conn} (h : Quiets c d) (h' : Quiets d.flushPending c')

theorem Shape.head {c c₁ : H2Conn} (hq : Quiet c c₁) (h : Shape c₁ c') : Shape c c' := by
  cases h with
  | quiet h => exact .quiet (.head hq h)
  | flush h h' => exact .flush (.head hq h) h'

theorem Shape.moves {c : H2Conn} (h : Shape c c') (hready : c.ready = true) : Moves c c' := by
  cases h with
  | quiet h => exact h.moves
  | flush h h' =>
    have hflush := flushPending_moves (h.kept.ready.trans hready)
    exact (h.moves.trans hflush).trans h'.moves

def ClosedEmpty (c : H2Conn) : Prop := c.closed = true → c.pending = []

theorem ClosedEmpty.quiets (h : c.ClosedEmpty) (hq : Quiets c c') : c'.ClosedEmpty := by
  intro hc
  have hk := hq.kept
  rcases hk.closed hc with hcl | hp
  · rcases hk.pending with hp | hp
    · exact hp.trans (h hcl)
    · exact hp
  · exact hp

theorem ClosedEmpty.flushLoop (h : c.ClosedEmpty) (fuel : ℕ) : (flushLoop fuel c).ClosedEmpty := by
  induction fuel generalizing c with
  | zero => exact h
  | succ fuel ih =>
    rcases flushLoop_cases fuel c with ⟨heq, -⟩ | ⟨heq, hid⟩ | ⟨ex, rest, -, hcl, -, -, -, heq⟩
    · rw [heq]
      exact h
    · rw [heq]
      exact h.quiets (retireExhausted_quiets hid)
    rw [heq]
    apply ih
    intro hc
    rcases (openStream_kept { c with pending := rest } ex).2.2 hc with hc' | hnil
    · exact absurd (show c.closed = true from hc') (by rw [hcl]; exact Bool.false_ne_true)
    · exact hnil

theorem Shape.closedEmpty {c : H2Conn} (h : Shape c c') (hc : c.ClosedEmpty) : c'.ClosedEmpty := by
  cases h with
  | quiet h => exact hc.quiets h
  | flush h h' => exact ((hc.quiets h).flushLoop _).quiets h'

theorem Shape.drained {c : H2Conn} (h : Shape c c') (hd : c.Drained) (hc : c.ClosedEmpty) : c'.Drained := by
  cases h with
  | quiet h => exact hd.quiets h
  | flush h h' => exact (drained_flushPending (hc.quiets h)).quiets h'

section
variable (hst : c.stream st.id = some st)
include hst

/-! ### The events -/

theorem resetStream_shape (err : FpError) : Shape c (c.resetStream st err) := by
  exact .flush (.head (.drop hst) (.single (.fail st.ex err))) .refl

theorem closeStream_quiets (err : FpError) : Quiets c (c.closeStream st err) := by
  exact .head (.drop hst) (.head (.fail st.ex err) (closeIfExhausted_quiets _))

theorem finishStream_shape : Shape c (c.finishStream st) := by
  unfold finishStream
  dsimp only
  split_ifs
  · exact .flush (.single (.deliver hst)) (closeConn_quiets _ _)
  · exact .flush (.single (.deliver hst)) .refl

end

@[simp] theorem applyField_id (st : H2Stream) (f : Field) : (applyField st f).id = st.id := by
  unfold applyField
  split_ifs <;> rfl

@[simp] theorem applyFields_id (fields : List Field) (st : H2Stream) : (fields.foldl applyField st).id = st.id := by
  induction fields generalizing st with
  | nil => rfl
  | cons f fields ih => rw [foldl_cons, ih, applyField_id]

theorem applyBlock_eq (st : H2Stream) (fields : List Field) : ∃ status headers, applyBlock st fields =
      { st with status := status, headers := headers, gotHeaders := true } := by
  unfold applyBlock
  induction fields generalizing st with
  | nil => exact ⟨st.status, st.headers, rfl⟩
  | cons f fields ih =>
    obtain ⟨status, headers, heq⟩ := ih (applyField st f)
    refine ⟨status, headers, ?_⟩
    rw [foldl_cons, heq]
    unfold applyField
    split_ifs <;> rfl

@[simp] theorem applyBlock_id (st : H2Stream) (fields : List Field) : (applyBlock st fields).id = st.id :=
  applyFields_id fields st

theorem completeHeaders_shape (hst : c.stream st.id = some st) (fields : List Field) (malformed endStream : Bool) :
    Shape c (c.completeHeaders st fields malformed endStream) := by
  unfold completeHeaders
  by_cases hmal : malformed = true
  · rw [if_pos hmal]
    exact resetStream_shape hst _
  rw [if_neg hmal]
  have hblock := Quiet.block hst fields
  split_ifs with hend
  · apply Shape.head hblock
    apply finishStream_shape
    rw [applyBlock_id]
    exact stream_update (fun _ _ => applyBlock_id st fields) hst
  · exact .quiet (.single hblock)

theorem onDataFrame_shape (c : H2Conn) (id : ℕ) (payload : Bytes) (endStream : Bool) :
    Shape c (c.onDataFrame id payload endStream) := by
  unfold onDataFrame
  by_cases hun : c.unopenedStream id = true
  · rw [if_pos hun]
    exact .quiet (closeConn_quiets c _)
  rw [if_neg hun]
  rcases hid : c.stream id with _ | st
  · exact .quiet .refl
  have hst := stream_self hid
  dsimp only
  split_ifs with hbig hend
  · exact .quiet (closeConn_quiets c _)
  · apply Shape.head (.payload hst payload)
    apply finishStream_shape
    exact stream_update (fun _ _ => rfl) hst
  · exact .quiet (.single (.payload hst payload))

theorem pumpBody_giveChunk_end (hst : c.stream st.id = some st) (b : UpstreamBody) (hend : st.endSent = false) :
    (c.giveChunk st b [] true).pumpBody st.id = (c.giveChunk st b [] true).writeEnd st := by
  have hnew : (c.giveChunk st b [] true).stream st.id = some { st with
      bodyRem := [], bodyEOF := true,
      upload := some { b with requested := false, sent := b.sent + ([] : Bytes).length } } :=
    stream_update (fun _ h => h) hst
  unfold pumpBody
  rw [hnew]
  dsimp only [length_nil, pumpLoop]
  rw [hnew]
  rw [hend]
  rfl

theorem sendBodyChunk_shape (hst : c.stream st.id = some st)
    {b : UpstreamBody} (hup : st.upload = some b) (hreq : b.requested = true) (chunk : Bytes)
    (eof err : Bool) : Shape c (c.sendBodyChunk st b chunk eof err) := by
  unfold sendBodyChunk
  split_ifs with hacc
  · exact resetStream_shape hst _
  apply Shape.quiet
  apply ReflTransGen.trans _ (afterBodyPump_quiets _ _)
  by_cases hmore : chunk ≠ [] ∨ eof = false ∨ st.endSent = true
  · exact .head (.given hst hup hreq chunk eof hmore) (pumpBody_quiets _ _)
  simp only [ne_eq, not_or, not_not, Bool.not_eq_false, Bool.not_eq_true] at hmore
  obtain ⟨rfl, rfl, hend⟩ := hmore
  rw [pumpBody_giveChunk_end hst b hend]
  exact .single (.givenEnd hst hup hreq hend)

structure SettingsResult (c c' : H2Conn) : Prop where
  same : c' = { c with
    maxConcurrent := c'.maxConcurrent
    maxFrameSize := c'.maxFrameSize
    peerInitWindow := c'.peerInitWindow }
  init : c'.peerInitWindow = c.peerInitWindow ∨ 0 ≤ c'.peerInitWindow ∧ c'.peerInitWindow ≤ fpH2MaxWindow

theorem applySetting_result {setting : ℕ × ℕ} (h : c.applySetting setting = .ok c') : SettingsResult c c' := by
  unfold applySetting at h
  split_ifs at h with _ _ hmax
  · cases h
    exact ⟨rfl, .inl rfl⟩
  · cases h
    exact ⟨rfl, .inr ⟨Int.natCast_nonneg _, not_lt.mp hmax⟩⟩
  · cases h
    exact ⟨rfl, .inl rfl⟩
  · cases h
    exact ⟨rfl, .inl rfl⟩
  cases h
  exact ⟨rfl, .inl rfl⟩

theorem SettingsResult.trans {a b c : H2Conn} (h : SettingsResult a b) (h' : SettingsResult b c) :
    SettingsResult a c := by
  constructor
  · rw [h'.same, h.same]
  rcases h'.init with heq | hrange
  · rw [heq]
    exact h.init
  · exact .inr hrange

theorem applySettingsLoop_result (settings : List (ℕ × ℕ)) {c : H2Conn}
    (h : settings.foldlM applySetting c = .ok c') : SettingsResult c c' := by
  induction settings generalizing c with
  | nil =>
    cases h
    exact ⟨rfl, .inl rfl⟩
  | cons x settings ih =>
    rw [foldlM_cons] at h
    rcases hx : c.applySetting x with e | c₁
    · rw [hx] at h; cases h
    rw [hx] at h
    exact (applySetting_result hx).trans (ih h)

theorem applySettings_cases {settings : List (ℕ × ℕ)} {order : List ℕ} (h : c.applySettings settings order = .ok c') :
    ∃ c₁, Quiet c c₁ ∧ c' = c₁.flushPending.resumeBodies order := by
  unfold applySettings at h
  rcases hloop : settings.foldlM applySetting c with e | a
  · rw [hloop] at h; cases h
  rw [hloop] at h
  dsimp only at h
  have hres := applySettingsLoop_result settings hloop
  unfold adjustWindows shiftWindows at h
  have hstreams : a.streams = c.streams := by rw [hres.same]
  have hmove : (∀ st ∈ c.streams, a.peerInitWindow = c.peerInitWindow ∨
      h2WindowFits st.sendWindow (a.peerInitWindow - c.peerInitWindow) = true) →
      Quiet c (H2Conn.note { a with streams := c.streams.map fun st =>
        { st with sendWindow := st.sendWindow + (a.peerInitWindow - c.peerInitWindow) } }
        [.settings a.peerInitWindow]) := by
    intro hfit
    have hq := Quiet.settings a.peerInitWindow a.maxConcurrent a.maxFrameSize hres.init hfit
    rw [hres.same]
    exact hq
  split_ifs at h with heq hall
  · have hmap : c.streams.map (fun st => { st with
        sendWindow := st.sendWindow + (a.peerInitWindow - c.peerInitWindow) }) = a.streams := by
      rw [heq, hstreams]
      simp
    have hq := hmove fun _ _ => .inl heq
    rw [hmap] at hq
    exact ⟨_, hq, (Except.ok.inj h).symm⟩
  have hq := hmove fun st hmem => .inr (all_eq_true.mp hall st (by rw [hstreams]; exact hmem))
  rw [← hstreams] at hq
  exact ⟨_, hq, (Except.ok.inj h).symm⟩

theorem react_shape (c : H2Conn) {e : Event} (he : e ≠ .goAway) : Shape c (c.react e) := by
  cases e with
  | settings settings order =>
    dsimp only [react]
    rcases h : c.applySettings settings order with err | c'
    · exact .quiet (closeConn_quiets c err)
    obtain ⟨_, hq, rfl⟩ := applySettings_cases h
    exact .flush (.single hq) (resumeBodies_quiets _ order)
  | connWindowUpdate inc order =>
    dsimp only [react]
    split_ifs with hfit
    · exact .quiet (closeConn_quiets c _)
    have hq := Quiet.connUpdate (windowInc inc) (Int.natCast_nonneg _) (by simpa using hfit)
    exact .quiet (.head hq (resumeBodies_quiets _ order))
  | streamWindowUpdate id inc =>
    dsimp only [react]
    rcases hid : c.stream id with _ | st
    · exact .quiet .refl
    have hst := stream_self hid
    dsimp only
    split_ifs with hfit hrem
    · exact resetStream_shape hst _
    · exact .quiet (.single (.streamUpdate hst _ (by simpa using hfit)))
    have hq := Quiet.streamUpdate hst _ (by simpa using hfit)
    apply Shape.head hq
    exact .quiet ((pumpBody_quiets _ id).trans (afterBodyPump_quiets _ id))
  | headers id decoded endStream =>
    dsimp only [react]
    split_ifs
    · exact .quiet (closeConn_quiets c _)
    rcases decoded with err | ⟨_, _⟩
    · exact .quiet (closeConn_quiets c _)
    cases hid : c.stream id with
    | none => exact .quiet .refl
    | some st => exact completeHeaders_shape (stream_self hid) _ _ _
  | data id payload endStream => exact onDataFrame_shape c id payload endStream
  | rstStream id | sweep id =>
    dsimp only [react]
    cases hid : c.stream id with
    | none => exact .quiet .refl
    | some st => exact .quiet (closeStream_quiets (stream_self hid) _)
  | goAway => exact absurd rfl he
  | bodyChunk id chunk eof err =>
    dsimp only [react]
    rcases hid : c.stream id with _ | st
    · exact .quiet .refl
    dsimp only
    rcases hup : st.upload with _ | b
    · exact .quiet .refl
    dsimp only
    split_ifs with hreq
    · rw [Bool.and_eq_true] at hreq
      exact sendBodyChunk_shape (stream_self hid) hup hreq.1 _ _ _
    · exact .quiet .refl
  | abortStream id =>
    dsimp only [react]
    cases hid : c.stream id with
    | none => exact .quiet .refl
    | some st => exact resetStream_shape (stream_self hid) _
  | _ => exact .quiet .refl

/-- Every event but a GOAWAY is a chain of moves. -/
theorem step_moves (c : H2Conn) {e : Event} (he : e ≠ .goAway) : Moves c (c.step e) := by
  unfold step
  by_cases hcl : c.closed = true
  · rw [if_pos hcl]
  rw [if_neg hcl]
  cases e with
  | submit body bodySource =>
    dsimp only
    split_ifs with hen hready
    · have hgo : c.goAway = false := by
        rw [Bool.and_eq_true] at hen
        simpa using hen.2
      exact .head (.submit body bodySource hgo) (flushPending_moves hready)
    · have hgo : c.goAway = false := by
        rw [Bool.and_eq_true] at hen
        simpa using hen.2
      exact .single (.submit body bodySource hgo)
    · exact .refl
  | connReady =>
    dsimp only
    split_ifs
    · exact .refl
    · exact .head .ready (flushPending_moves rfl)
  | replaced =>
    dsimp only
    split_ifs
    · exact .single (.quiet .unpool)
    · exact .refl
  | abortPending key =>
    dsimp only
    cases c.pending.find? fun ex => ex.key == key with
    | none => exact .refl
    | some ex => exact .single (.quiet (.fail ex _))
  | close err => exact (closeConn_quiets c err).moves
  | _ =>
    dsimp only
    split_ifs with hready
    · exact (react_shape c he).moves hready
    · exact .refl

theorem step_goAway (c : H2Conn) : c.step .goAway = c ∨ c.step .goAway = { c with goAway := true } := by
  dsimp only [step]
  split_ifs
  · exact .inl rfl
  · exact .inr rfl
  · exact .inl rfl

theorem moves_invariant {P : H2Conn → Prop} (hmove : ∀ {c c'}, Move c c' → P c → P c')
    {c : H2Conn} (hchain : Moves c c') (h : P c) : P c' := by
  induction hchain with
  | refl => exact h
  | tail _ hlast hprev => exact hmove hlast hprev

theorem run_invariant {P : H2Conn → Prop} (hmove : ∀ {c c'}, Move c c' → P c → P c')
    (hgo : ∀ {c : H2Conn}, P c → P { c with goAway := true }) {c : H2Conn} (h : P c)
    (events : List Event) : P (c.run events) := by
  induction events generalizing c with
  | nil => exact h
  | cons e events ih =>
    apply ih
    by_cases he : e = .goAway
    · rw [he]
      rcases step_goAway c with heq | heq
      · rw [heq]
        exact h
      rw [heq]
      exact hgo h
    · exact moves_invariant hmove (step_moves c he) h

end H2Conn

/-! ### Histories -/

/-- Every entry of the history satisfies `P` with respect to what came before it. -/
def Holds (P : List Hist → Hist → Prop) (log : List Hist) : Prop :=
  ∀ before e after, log = before ++ e :: after → P before e

theorem Holds.nil {P : List Hist → Hist → Prop} : Holds P [] := by
  intro _ e _ h
  simp at h

theorem Holds.snoc {P : List Hist → Hist → Prop} {log : List Hist} {x : Hist} (h : Holds P log)
    (hx : P log x) : Holds P (log ++ [x]) := by
  intro before e after heq
  rcases eq_nil_or_concat after with rfl | ⟨rest, y, rfl⟩
  · have hinj := append_inj' heq rfl
    obtain rfl : x = e := by simpa using hinj.2
    rw [← hinj.1]
    exact hx
  rw [concat_eq_append, ← cons_append, ← append_assoc] at heq
  exact h before e rest (append_inj' heq rfl).1

end AlosHttp.Proxy

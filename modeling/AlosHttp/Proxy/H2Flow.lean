import AlosHttp.Proxy.H2Moves

/-! Flow control of the proxy's HTTP/2 client. What the backend granted and what was sent are read off
the history, not the windows the connection keeps: a DATA frame is judged by the entries before it. -/
namespace AlosHttp.Proxy
open List

/-! ### Credit and use, from the history -/

/-- The initial window in force: that of the last SETTINGS, or the default. -/
def initWindow (log : List Hist) : ℤ := log.foldl (fun w e => match e with
    | .settings v => v
    | _ => w) h2DefaultWindow

def Hist.streamInc (id : ℕ) : Hist → ℤ
  | .streamUpdate id' inc => if id' = id then inc else 0
  | _ => 0

def Hist.connInc : Hist → ℤ
  | .connUpdate inc => inc
  | _ => 0

def Hist.dataOn (id : ℕ) : Hist → Bytes
  | .data id' bytes _ => if id' = id then bytes else []
  | _ => []

def Hist.dataLen : Hist → ℤ
  | .data _ bytes _ => bytes.length
  | _ => 0

def Hist.givenOn (id : ℕ) : Hist → Bytes
  | .given id' bytes _ => if id' = id then bytes else []
  | _ => []

def Hist.eofOn (id : ℕ) : Hist → Bool
  | .given id' _ eof => id' == id && eof
  | _ => false

def Hist.endOn (id : ℕ) : Hist → Bool
  | .data id' _ endStream => id' == id && endStream
  | .headers id' endStream => id' == id && endStream
  | _ => false

def streamCredit (id : ℕ) (log : List Hist) : ℤ := initWindow log + (log.map (Hist.streamInc id)).sum

def connCredit (log : List Hist) : ℤ := h2DefaultWindow + (log.map Hist.connInc).sum

def bodySent (id : ℕ) (log : List Hist) : Bytes := log.flatMap (Hist.dataOn id)
def connSent (log : List Hist) : ℤ := (log.map Hist.dataLen).sum
def bodyGiven (id : ℕ) (log : List Hist) : Bytes := log.flatMap (Hist.givenOn id)
def eofGiven (id : ℕ) (log : List Hist) : Bool := log.any (Hist.eofOn id)
def endedBy (id : ℕ) (log : List Hist) : Bool := log.any (Hist.endOn id)

/-- A DATA frame stays within both credits, continues the body and ends it only at its end.
An empty frame needs no credit of the stream. -/
def FlowStep (log : List Hist) : Hist → Prop
  | .data id payload endStream =>
    (payload ≠ [] → ((bodySent id log).length + payload.length : ℤ) ≤ streamCredit id log) ∧
    connSent log + payload.length ≤ connCredit log ∧
    endedBy id log = false ∧
    bodySent id log ++ payload <+: bodyGiven id log ∧
    (endStream = true → bodySent id log ++ payload = bodyGiven id log ∧ eofGiven id log = true)
  | .headers id endStream => endStream = true → bodyGiven id log = [] ∧ eofGiven id log = true
  | .given id _ _ => eofGiven id log = false
  | _ => True

def Hist.onStream : Hist → Option ℕ
  | .opened id _ _ _ | .headers id _ | .given id _ _ | .data id _ _ | .streamUpdate id _
  | .block id _ | .payload id _ | .delivered id _ => some id
  | .settings _ | .connUpdate _ => none

section Snoc
variable (id : ℕ) (log : List Hist) (e : Hist)

theorem initWindow_snoc : initWindow (log ++ [e]) = match e with
    | .settings v => v
    | _ => initWindow log := by
  unfold initWindow
  rw [foldl_append]
  rfl

theorem streamCredit_snoc (h : ∀ v, e ≠ .settings v) :
    streamCredit id (log ++ [e]) = streamCredit id log + e.streamInc id := by
  have hinit : initWindow (log ++ [e]) = initWindow log := by
    rw [initWindow_snoc]
    cases e with
    | settings v => exact absurd rfl (h v)
    | _ => rfl
  unfold streamCredit
  rw [hinit]
  simp
  ring

theorem streamCredit_settings (v : ℤ) :
    streamCredit id (log ++ [.settings v]) = streamCredit id log + (v - initWindow log) := by
  unfold streamCredit
  rw [initWindow_snoc]
  simp [Hist.streamInc]
  ring

theorem connCredit_snoc : connCredit (log ++ [e]) = connCredit log + e.connInc := by
  simp [connCredit]
  ring

@[simp] theorem bodySent_snoc : bodySent id (log ++ [e]) = bodySent id log ++ e.dataOn id := by
  simp [bodySent]

@[simp] theorem connSent_snoc : connSent (log ++ [e]) = connSent log + e.dataLen := by
  simp [connSent]

@[simp] theorem bodyGiven_snoc : bodyGiven id (log ++ [e]) = bodyGiven id log ++ e.givenOn id := by
  simp [bodyGiven]

@[simp] theorem eofGiven_snoc : eofGiven id (log ++ [e]) = (eofGiven id log || e.eofOn id) := by
  simp [eofGiven]

@[simp] theorem endedBy_snoc : endedBy id (log ++ [e]) = (endedBy id log || e.endOn id) := by
  simp [endedBy]

end Snoc

/-! ### The invariant -/

/-- What the connection keeps of a stream agrees with the history. -/
structure StreamFlow (log : List Hist) (st : H2Stream) : Prop where
  window : st.sendWindow = streamCredit st.id log - (bodySent st.id log).length
  fits : -fpH2MaxWindow - 1 ≤ st.sendWindow ∧ st.sendWindow ≤ fpH2MaxWindow
  body : bodySent st.id log ++ st.bodyRem = bodyGiven st.id log
  eof : st.bodyEOF = eofGiven st.id log
  ended : st.endSent = endedBy st.id log
  done : st.endSent = true → st.bodyRem = [] ∧ st.bodyEOF = true
  /-- A body whose bytes are all sent has its END_STREAM. -/
  settled : st.bodyRem = [] → st.bodyEOF = true → st.endSent = true
  /-- A chunk is asked for only when the last one is sent and more may come. -/
  asked : ∀ b, st.upload = some b → b.requested = true → st.bodyRem = [] ∧ st.bodyEOF = false

structure FlowInv (c : H2Conn) : Prop where
  streams : ∀ st ∈ c.streams, StreamFlow c.log st
  conn : c.connSendWindow = connCredit c.log - connSent c.log
  connFits : 0 ≤ c.connSendWindow ∧ c.connSendWindow ≤ fpH2MaxWindow
  init : c.peerInitWindow = initWindow c.log
  initFits : 0 ≤ c.peerInitWindow ∧ c.peerInitWindow ≤ fpH2MaxWindow
  fresh : ∀ e ∈ c.log, ∀ id, e.onStream = some id → id < c.nextID
  older : ∀ st ∈ c.streams, st.id < c.nextID
  nodup : (c.streams.map H2Stream.id).Nodup
  safe : Holds FlowStep c.log

def Hist.QuietOn (e : Hist) (id : ℕ) : Prop :=
  e.streamInc id = 0 ∧ e.dataOn id = [] ∧ e.givenOn id = [] ∧ e.eofOn id = false ∧ e.endOn id = false

theorem Hist.quietOn_of_ne {e : Hist} {id : ℕ} (h : e.onStream ≠ some id) : e.QuietOn id := by
  cases e <;> simp_all [QuietOn, streamInc, dataOn, givenOn, eofOn, endOn, onStream]

open Hist

theorem StreamFlow.quiet {log : List Hist} {st : H2Stream} (h : StreamFlow log st) {e : Hist}
    (hset : ∀ v, e ≠ .settings v) (hquiet : e.QuietOn st.id) : StreamFlow (log ++ [e]) st := by
  obtain ⟨hinc, hdata, hgiven, heof, hend⟩ := hquiet
  constructor
  · rw [streamCredit_snoc _ _ _ hset, bodySent_snoc, hinc, hdata, append_nil, add_zero]
    exact h.window
  · exact h.fits
  · rw [bodySent_snoc, bodyGiven_snoc, hdata, hgiven, append_nil, append_nil]
    exact h.body
  · rw [eofGiven_snoc, heof, Bool.or_false]
    exact h.eof
  · rw [endedBy_snoc, hend, Bool.or_false]
    exact h.ended
  · exact h.done
  · exact h.settled
  · exact h.asked

theorem StreamFlow.others {log : List Hist} {st : H2Stream} (h : StreamFlow log st) {id : ℕ}
    (hid : st.id ≠ id) {es : List Hist} (hes : ∀ e ∈ es, e.onStream = some id) :
    StreamFlow (log ++ es) st := by
  induction es generalizing log with
  | nil => simpa using h
  | cons e es ih =>
    have he := hes e (by simp)
    rw [append_cons]
    apply ih
    · apply h.quiet
      · rintro v rfl
        simp [onStream] at he
      apply quietOn_of_ne
      rw [he]
      exact fun heq => hid (Option.some.inj heq).symm
    · exact fun e' he' => hes e' (by simp [he'])

namespace FlowInv
variable {c c' : H2Conn} {st : H2Stream}

theorem sublist (h : FlowInv c) (hstreams : c'.streams.Sublist c.streams) (hlog : c'.log = c.log)
    (hconn : c'.connSendWindow = c.connSendWindow) (hinit : c'.peerInitWindow = c.peerInitWindow)
    (hnext : c'.nextID = c.nextID) : FlowInv c' := by
  constructor
  · rw [hlog]; exact fun t ht => h.streams t (hstreams.subset ht)
  · rw [hconn, hlog]; exact h.conn
  · rw [hconn]; exact h.connFits
  · rw [hinit, hlog]; exact h.init
  · rw [hinit]; exact h.initFits
  · rw [hlog, hnext]; exact h.fresh
  · rw [hnext]; exact fun t ht => h.older t (hstreams.subset ht)
  · exact h.nodup.sublist (hstreams.map _)
  · rw [hlog]; exact h.safe

theorem congr (h : FlowInv c) (hstreams : c'.streams = c.streams) (hlog : c'.log = c.log)
    (hconn : c'.connSendWindow = c.connSendWindow) (hinit : c'.peerInitWindow = c.peerInitWindow)
    (hnext : c'.nextID = c.nextID) : FlowInv c' :=
  h.sublist (by rw [hstreams]) hlog hconn hinit hnext

variable {log : List Hist} {id : ℕ}
open Hist

theorem initWindow_append {es : List Hist} (hes : ∀ e ∈ es, e.onStream = some id) :
    initWindow (log ++ es) = initWindow log := by
  induction es generalizing log with
  | nil => rw [append_nil]
  | cons e es ih =>
    have he := hes e (by simp)
    rw [append_cons, ih fun e' he' => hes e' (by simp [he']), initWindow_snoc]
    cases e with
    | settings v => simp [onStream] at he
    | _ => rfl

open H2Conn

theorem touch (h : FlowInv c) (hst : c.stream st.id = some st) {f : H2Stream → H2Stream}
    {es : List Hist} (hstreams : c'.streams = (c.update st.id f).streams)
    (hlog : c'.log = c.log ++ es) (hnext : c'.nextID = c.nextID)
    (hinit : c'.peerInitWindow = c.peerInitWindow) (hid : (f st).id = st.id)
    (hes : ∀ e ∈ es, e.onStream = some st.id) (hflow : StreamFlow (c.log ++ es) (f st))
    (hconn : c'.connSendWindow = connCredit (c.log ++ es) - connSent (c.log ++ es))
    (hfits : 0 ≤ c'.connSendWindow ∧ c'.connSendWindow ≤ fpH2MaxWindow)
    (hsafe : Holds FlowStep (c.log ++ es)) : FlowInv c' := by
  have hmem := (stream_eq_some hst).1
  have hids : c'.streams.map H2Stream.id = c.streams.map H2Stream.id := by
    rw [hstreams]
    exact map_id_update hst h.nodup hid
  constructor
  · intro t ht
    rw [hstreams] at ht
    rw [hlog]
    rcases mem_update hst h.nodup ht with rfl | ⟨hold, hne⟩
    · exact hflow
    · exact (h.streams t hold).others hne hes
  · rw [hlog]; exact hconn
  · exact hfits
  · rw [hinit, hlog, initWindow_append hes]; exact h.init
  · rw [hinit]; exact h.initFits
  · intro e he id hon
    rw [hlog] at he
    rw [hnext]
    rcases mem_append.mp he with hold | hnew
    · exact h.fresh e hold id hon
    rw [hes e hnew] at hon
    rw [← Option.some.inj hon]
    exact h.older st hmem
  · intro t ht
    have : t.id ∈ c.streams.map H2Stream.id := by
      rw [← hids]
      exact mem_map_of_mem ht
    obtain ⟨x, hx, heq⟩ := mem_map.mp this
    rw [hnext, ← heq]
    exact h.older x hx
  · rw [hids]; exact h.nodup
  · rw [hlog]; exact hsafe

theorem touchOne (h : FlowInv c) (hst : c.stream st.id = some st) {f : H2Stream → H2Stream}
    {e : Hist} (hid : (f st).id = st.id) (hon : e.onStream = some st.id) (hinc : e.connInc = 0)
    (hlen : e.dataLen = 0) (hflow : StreamFlow (c.log ++ [e]) (f st)) (hsafe : FlowStep c.log e) :
    FlowInv ((c.update st.id f).note [e]) := by
  refine h.touch hst rfl rfl rfl rfl hid ?_ hflow ?_ h.connFits (h.safe.snoc hsafe)
  · intro _ he
    rw [mem_singleton.mp he]
    exact hon
  · simpa [note, update, connCredit_snoc, hinc, hlen] using h.conn

theorem pumpMax_le (c : H2Conn) (st : H2Stream) : c.pumpMax st ≤ st.sendWindow ∧ c.pumpMax st ≤ c.connSendWindow := by
  unfold pumpMax
  dsimp only
  split_ifs <;> constructor <;> omega

theorem flow (h : FlowInv c) (hst : c.stream st.id = some st) : StreamFlow c.log st :=
  h.streams st (stream_eq_some hst).1

theorem chunk (h : FlowInv c) (hst : c.stream st.id = some st) (hrem : st.bodyRem ≠ [])
    (hmax : 0 < c.pumpMax st) : FlowInv (c.writeChunk st) := by
  have hf := h.flow hst
  obtain ⟨_, _⟩ := pumpMax_le c st
  have hopen : st.endSent = false := by
    by_contra hend
    exact hrem (hf.done (by simpa using hend)).1
  have hended : endedBy st.id c.log = false := by rw [← hf.ended]; exact hopen
  generalize hchunk : st.bodyRem.take (c.pumpMax st).toNat = chunk
  have hlen : (chunk.length : ℤ) ≤ c.pumpMax st := by
    rw [← hchunk, length_take]
    omega
  have hsplit : chunk ++ st.bodyRem.drop chunk.length = st.bodyRem := by
    rw [← hchunk, length_take]
    rcases le_total (c.pumpMax st).toNat st.bodyRem.length with hle | hle
    · rw [min_eq_left hle, take_append_drop]
    · rw [min_eq_right hle, take_of_length_le hle, drop_length, append_nil]
  generalize hrest : st.bodyRem.drop chunk.length = rest at hsplit
  have hbody : bodySent st.id c.log ++ chunk ++ rest = bodyGiven st.id c.log := by
    rw [append_assoc, hsplit]
    exact hf.body
  have hwindow := hf.window
  have hconn := h.conn
  have hcf := h.connFits
  have hff := hf.fits
  unfold writeChunk
  dsimp only
  rw [hchunk, hrest]
  refine h.touch hst rfl rfl rfl rfl rfl ?_ ?_ ?_ ?_ ?_
  · intro e he
    rw [mem_singleton.mp he]
    rfl
  · constructor
    · rw [streamCredit_snoc _ _ _ (by simp), bodySent_snoc]
      simp only [streamInc, dataOn, if_true, length_append, Nat.cast_add]
      omega
    · dsimp only
      omega
    · simp only [bodySent_snoc, bodyGiven_snoc, dataOn, givenOn, if_true, append_nil]
      exact hbody
    · simp only [eofGiven_snoc, eofOn, Bool.or_false]
      exact hf.eof
    · simp only [endedBy_snoc, endOn, beq_self_eq_true, Bool.true_and, hf.ended]
    · intro hlast
      simp only [hopen, Bool.false_or, Bool.and_eq_true, List.isEmpty_iff] at hlast
      exact hlast
    · intro hnil heof
      have hnil' : rest = [] := hnil
      have heof' : st.bodyEOF = true := heof
      simp only [hnil', isEmpty_nil, heof', Bool.and_self, Bool.or_true]
    intro b hb hreq
    exact absurd (hf.asked b hb hreq).1 hrem
  · simp only [note, connCredit_snoc, connSent_snoc, connInc, dataLen]
    omega
  · simp only [note]
    omega
  apply h.safe.snoc
  refine ⟨fun _ => ?_, ?_, hended, ⟨rest, hbody⟩, ?_⟩
  · omega
  · omega
  intro hlast
  simp only [Bool.and_eq_true, List.isEmpty_iff] at hlast
  rw [hlast.1, append_nil] at hbody
  exact ⟨hbody, by rw [← hf.eof]; exact hlast.2⟩

theorem endStep (hconn : connSent log ≤ connCredit log)
    (hended : endedBy id log = false) (hall : bodySent id log = bodyGiven id log)
    (heof : eofGiven id log = true) : FlowStep log (.data id [] true) := by
  refine ⟨fun hne => absurd rfl hne, by simpa using hconn, hended, ?_, fun _ => ?_⟩
  · rw [append_nil, hall]
  rw [append_nil]
  exact ⟨hall, heof⟩

section
variable (h : FlowInv c)
include h

section
variable (hst : c.stream st.id = some st)
include hst

open H2Conn

theorem finalData (hrem : st.bodyRem = [])
    (heof : st.bodyEOF = true) (hend : st.endSent = false) : FlowInv (c.writeEnd st) := by
  have hf := h.flow hst
  have hall : bodySent st.id c.log = bodyGiven st.id c.log := by
    have hb := hf.body
    rwa [hrem, append_nil] at hb
  have hc := h.conn
  have hcf := h.connFits
  have hstep := endStep (by omega) (hf.ended.symm.trans hend) hall (hf.eof.symm.trans heof)
  refine h.touchOne hst rfl rfl rfl rfl ?_ hstep
  constructor
  · rw [streamCredit_snoc _ _ _ (by simp), bodySent_snoc]
    simpa [streamInc, dataOn] using hf.window
  · exact hf.fits
  · simpa [dataOn, givenOn] using hf.body
  · simpa [eofOn] using hf.eof
  · simp [endOn]
  · exact fun _ => ⟨hrem, heof⟩
  · exact fun _ _ => rfl
  · exact hf.asked

variable {b : UpstreamBody}

theorem request (hup : st.upload = some b) (hrem : st.bodyRem = []) :
    FlowInv (c.update st.id fun t => { t with upload := some { b with
      done := st.endSent, requested := b.requested || !st.endSent } }) := by
  have hf := h.flow hst
  refine h.touch hst rfl (append_nil _).symm rfl rfl rfl ?_ ?_ ?_ ?_ ?_
  · simp
  · rw [append_nil]
    refine ⟨hf.window, hf.fits, hf.body, hf.eof, hf.ended, hf.done, hf.settled, ?_⟩
    intro _ hb' hreq
    obtain rfl := Option.some.inj hb'
    refine ⟨hrem, ?_⟩
    simp only [Bool.or_eq_true, Bool.not_eq_true'] at hreq
    rcases hreq with hreq | hend
    · exact (hf.asked b hup hreq).2
    by_contra heof
    have := hf.settled hrem (by simpa using heof)
    rw [hend] at this
    cases this
  · rw [append_nil]
    exact h.conn
  · exact h.connFits
  rw [append_nil]
  exact h.safe

theorem asked_open (hup : st.upload = some b) (hreq : b.requested = true) :
    st.bodyRem = [] ∧ st.endSent = false ∧ bodySent st.id c.log = bodyGiven st.id c.log ∧
      eofGiven st.id c.log = false := by
  have hf := h.flow hst
  obtain ⟨hrem, heof⟩ := hf.asked b hup hreq
  refine ⟨hrem, ?_, ?_, hf.eof.symm.trans heof⟩
  · by_contra hend
    have := (hf.done (by simpa using hend)).2
    rw [heof] at this
    cases this
  have hb := hf.body
  rwa [hrem, append_nil] at hb

theorem given (hup : st.upload = some b) (hreq : b.requested = true) (chunk : Bytes) (eof : Bool)
    (hmore : chunk ≠ [] ∨ eof = false ∨ st.endSent = true) :
    FlowInv (c.giveChunk st b chunk eof) := by
  have hf := h.flow hst
  obtain ⟨-, hend, hall, hnoeof⟩ := h.asked_open hst hup hreq
  refine h.touchOne hst rfl rfl rfl rfl ?_ hnoeof
  constructor
  · rw [streamCredit_snoc _ _ _ (by simp), bodySent_snoc]
    simpa [streamInc, dataOn] using hf.window
  · exact hf.fits
  · simp [dataOn, givenOn, hall]
  · simp [eofOn, hnoeof]
  · simpa [endOn] using hf.ended
  · intro hc
    exact absurd (show st.endSent = true from hc) (by rw [hend]; exact Bool.false_ne_true)
  · intro hnil heof
    rcases hmore with hm | hm | hm
    · exact absurd hnil hm
    · exact absurd (show eof = true from heof) (by rw [hm]; exact Bool.false_ne_true)
    · exact hm
  intro _ hb' hr
  obtain rfl := Option.some.inj hb'
  cases hr

theorem givenEnd (hup : st.upload = some b) (hreq : b.requested = true) :
    FlowInv ((c.giveChunk st b [] true).writeEnd st) := by
  have hf := h.flow hst
  obtain ⟨-, hend, hall, hnoeof⟩ := h.asked_open hst hup hreq
  have hended := hf.ended.symm.trans hend
  have hc := h.conn
  have hcf := h.connFits
  let f : H2Stream → H2Stream := fun t =>
    { t with bodyRem := [], bodyEOF := true, endSent := true, upload := some { b with
      requested := false, sent := b.sent + ([] : Bytes).length } }
  have hstreams : ((c.giveChunk st b [] true).writeEnd st).streams = (c.update st.id f).streams := by
    simp only [writeEnd, giveChunk, update, note, map_map]
    apply map_congr_left
    intro t _
    by_cases hid : t.id = st.id
    · simp [hid, f]
    · simp [hid]
  have hlog : ((c.giveChunk st b [] true).writeEnd st).log = c.log ++ [.given st.id [] true, .data st.id [] true] := by
    simp [writeEnd, giveChunk, update, note]
  have hcons : c.log ++ [.given st.id [] true, .data st.id [] true] =
      c.log ++ [Hist.given st.id [] true] ++ [.data st.id [] true] := by simp
  refine h.touch hst hstreams hlog rfl rfl rfl ?_ ?_ ?_ ?_ ?_
  · intro e he
    simp only [mem_cons, not_mem_nil, or_false] at he
    rcases he with rfl | rfl <;> rfl
  · rw [hcons]
    constructor
    · rw [streamCredit_snoc _ _ _ (by simp), streamCredit_snoc _ _ _ (by simp), bodySent_snoc,
        bodySent_snoc]
      simpa [f, streamInc, dataOn] using hf.window
    · exact hf.fits
    · rw [bodySent_snoc, bodySent_snoc, bodyGiven_snoc, bodyGiven_snoc, hall]
      simp [f, dataOn, givenOn]
    · rw [eofGiven_snoc, eofGiven_snoc]
      simp [f, eofOn]
    · rw [endedBy_snoc, endedBy_snoc]
      simp [f, endOn]
    · exact fun _ => ⟨rfl, rfl⟩
    · exact fun _ _ => rfl
    intro _ hb' hr
    obtain rfl := Option.some.inj hb'
    cases hr
  · rw [hcons, connCredit_snoc, connCredit_snoc, connSent_snoc, connSent_snoc]
    simpa [writeEnd, giveChunk, note, update, connInc, dataLen] using hc
  · exact hcf
  rw [hcons]
  have hgiven : FlowStep c.log (.given st.id [] true) := hnoeof
  apply (h.safe.snoc hgiven).snoc
  apply endStep
  · simp only [connSent_snoc, connCredit_snoc, dataLen, connInc]
    omega
  · simpa [endOn] using hended
  · simpa [dataOn, givenOn] using hall
  · simp [eofOn]

theorem streamUpdate (inc : ℤ) (hfit : h2WindowFits st.sendWindow inc = true) :
    FlowInv ((c.update st.id fun t => { t with sendWindow := t.sendWindow + inc }).note [.streamUpdate st.id inc]) := by
  have hf := h.flow hst
  have hwindow := hf.window
  simp only [h2WindowFits, Bool.and_eq_true, decide_eq_true_eq] at hfit
  refine h.touchOne hst rfl rfl rfl rfl ?_ trivial
  constructor
  · rw [streamCredit_snoc _ _ _ (by simp), bodySent_snoc]
    simp only [streamInc, dataOn, if_true, append_nil]
    omega
  · exact ⟨hfit.2, hfit.1⟩
  · simpa [dataOn, givenOn] using hf.body
  · simpa [eofOn] using hf.eof
  · simpa [endOn] using hf.ended
  · exact hf.done
  · exact hf.settled
  · exact hf.asked

theorem response {st' : H2Stream} {e : Hist} (hst' : ∃ gotHeaders status headers body, st' = { st with
      gotHeaders := gotHeaders, status := status, headers := headers, body := body })
    (hon : e.onStream = some st.id) (hquiet : (∃ fields, e = .block st.id fields) ∨ ∃ bytes, e = .payload st.id bytes) :
    FlowInv ((c.update st.id fun _ => st').note [e]) := by
  have hf := h.flow hst
  obtain ⟨g, s, _, b, rfl⟩ := hst'
  have hnil : e.QuietOn st.id ∧ e.connInc = 0 ∧ e.dataLen = 0 ∧ FlowStep c.log e ∧ ∀ v, e ≠ .settings v := by
    rcases hquiet with ⟨fields, rfl⟩ | ⟨bytes, rfl⟩
    all_goals exact ⟨⟨rfl, rfl, rfl, rfl, rfl⟩, rfl, rfl, trivial, by simp⟩
  obtain ⟨hnil, hconn, hlen, hstep, hset⟩ := hnil
  have hq := hf.quiet hset hnil
  refine h.touchOne hst rfl hon hconn hlen ?_ hstep
  exact ⟨hq.window, hq.fits, hq.body, hq.eof, hq.ended, hq.done, hq.settled, hq.asked⟩

theorem deliver (resp : FpResponse) :
    FlowInv (((c.delete st.id).finish st.ex (.ok resp)).note [.delivered st.id resp]) := by
  have hfin : ∀ d : H2Conn, ((d.finish st.ex (.ok resp)).streams = d.streams) ∧
      (d.finish st.ex (.ok resp)).log = d.log ∧
      (d.finish st.ex (.ok resp)).connSendWindow = d.connSendWindow ∧
      (d.finish st.ex (.ok resp)).peerInitWindow = d.peerInitWindow ∧
      (d.finish st.ex (.ok resp)).nextID = d.nextID := by
    intro d
    unfold finish
    split_ifs <;> exact ⟨rfl, rfl, rfl, rfl, rfl⟩
  obtain ⟨hs, hl, hc, hi, hn⟩ := hfin (c.delete st.id)
  have hlog : (((c.delete st.id).finish st.ex (.ok resp)).note [.delivered st.id resp]).log =
      c.log ++ [.delivered st.id resp] := congrArg (· ++ [_]) hl
  constructor
  · intro t ht
    rw [hlog]
    have ht' : t ∈ (c.delete st.id).streams := by
      rw [← hs]
      exact ht
    obtain ⟨hmem, hne⟩ := mem_delete ht'
    exact (h.streams t hmem).quiet (by simp) (quietOn_of_ne fun heq => hne (Option.some.inj heq).symm)
  · rw [hlog, connCredit_snoc, connSent_snoc]
    refine hc.trans (h.conn.trans ?_)
    simp [connInc, dataLen]
  · change 0 ≤ ((c.delete st.id).finish st.ex (.ok resp)).connSendWindow ∧ _
    rw [hc]
    exact ⟨h.connFits.1, by change ((c.delete st.id).finish st.ex (.ok resp)).connSendWindow ≤ _
                            rw [hc]; exact h.connFits.2⟩
  · rw [hlog, initWindow_snoc]
    exact hi.trans h.init
  · change 0 ≤ ((c.delete st.id).finish st.ex (.ok resp)).peerInitWindow ∧
      ((c.delete st.id).finish st.ex (.ok resp)).peerInitWindow ≤ _
    rw [hi]
    exact h.initFits
  · intro e he id hon
    rw [hlog] at he
    change id < ((c.delete st.id).finish st.ex (.ok resp)).nextID
    rw [hn]
    rcases mem_append.mp he with hold | hnew
    · exact h.fresh e hold id hon
    rw [mem_singleton.mp hnew] at hon
    rw [← Option.some.inj hon]
    exact h.older st (stream_eq_some hst).1
  · intro t ht
    have ht' : t ∈ (c.delete st.id).streams := by
      rw [← hs]
      exact ht
    change t.id < ((c.delete st.id).finish st.ex (.ok resp)).nextID
    rw [hn]
    exact h.older t (mem_delete ht').1
  · change (((c.delete st.id).finish st.ex (.ok resp)).streams.map H2Stream.id).Nodup
    rw [hs]
    exact h.nodup.sublist (filter_sublist.map _)
  rw [hlog]
  exact h.safe.snoc trivial

end

open H2Conn Hist

theorem connUpdate (inc : ℤ) (hinc : 0 ≤ inc) (hfit : h2WindowFits c.connSendWindow inc = true) :
    FlowInv ({ c with connSendWindow := c.connSendWindow + inc }.note [.connUpdate inc]) := by
  simp only [h2WindowFits, Bool.and_eq_true, decide_eq_true_eq] at hfit
  have hc := h.conn
  have hcf := h.connFits
  constructor
  · intro t ht
    exact (h.streams t ht).quiet (by simp) (quietOn_of_ne (by simp [onStream]))
  · simp only [note, connCredit_snoc, connSent_snoc, connInc, dataLen]
    omega
  · simp only [note]
    omega
  · simp only [note, initWindow_snoc]
    exact h.init
  · exact h.initFits
  · intro e he id hon
    rcases mem_append.mp he with hold | hnew
    · exact h.fresh e hold id hon
    rw [mem_singleton.mp hnew] at hon
    simp [onStream] at hon
  · exact h.older
  · exact h.nodup
  · exact h.safe.snoc trivial

theorem settings (init : ℤ) (maxConcurrent maxFrameSize : ℕ)
    (hinit : init = c.peerInitWindow ∨ 0 ≤ init ∧ init ≤ fpH2MaxWindow)
    (hfit : ∀ st ∈ c.streams, init = c.peerInitWindow ∨ h2WindowFits st.sendWindow (init - c.peerInitWindow) = true) :
    FlowInv (note { c with
      maxConcurrent := maxConcurrent
      maxFrameSize := maxFrameSize
      peerInitWindow := init
      streams := c.streams.map fun st =>
        { st with sendWindow := st.sendWindow + (init - c.peerInitWindow) } } [.settings init]) := by
  constructor
  · intro t ht
    obtain ⟨st, hmem, rfl⟩ := mem_map.mp ht
    have hf := h.streams st hmem
    have hwindow := hf.window
    have hff := hf.fits
    constructor
    · simp only [note, streamCredit_settings, bodySent_snoc, dataOn, append_nil]
      rw [← h.init]
      omega
    · rcases hfit st hmem with heq | hok
      · dsimp only
        omega
      simp only [h2WindowFits, Bool.and_eq_true, decide_eq_true_eq] at hok
      exact ⟨hok.2, hok.1⟩
    · simpa [note, dataOn, givenOn] using hf.body
    · simpa [note, eofOn] using hf.eof
    · simpa [note, endOn] using hf.ended
    · exact hf.done
    · exact hf.settled
    · exact hf.asked
  · simpa [note, connCredit_snoc, connInc, dataLen] using h.conn
  · exact h.connFits
  · simp only [note, initWindow_snoc]
  · rcases hinit with heq | hrange
    · rw [heq]
      exact h.initFits
    · exact hrange
  · intro e he id hon
    rcases mem_append.mp he with hold | hnew
    · exact h.fresh e hold id hon
    rw [mem_singleton.mp hnew] at hon
    simp [onStream] at hon
  · intro t ht
    obtain ⟨st, hmem, rfl⟩ := mem_map.mp ht
    exact h.older st hmem
  · simp only [note, map_map]
    exact h.nodup
  · exact h.safe.snoc trivial

end

theorem unmentioned (h : ∀ e ∈ log, e.onStream ≠ some id) :
    streamCredit id log = initWindow log ∧ bodySent id log = [] ∧ bodyGiven id log = [] ∧
      eofGiven id log = false ∧ endedBy id log = false := by
  induction log using reverseRecOn with
  | nil => exact ⟨by simp [streamCredit], rfl, rfl, rfl, rfl⟩
  | append_singleton log e ih =>
    obtain ⟨_, hs, hg, heof, hend⟩ := ih fun e' he' => h e' (by simp [he'])
    obtain ⟨h1, h2, h3, h4, h5⟩ := quietOn_of_ne (h e (by simp))
    refine ⟨?_, ?_, ?_, ?_, ?_⟩
    · unfold streamCredit at *
      simp [h1]
      omega
    · rw [bodySent_snoc, hs, h2, append_nil]
    · rw [bodyGiven_snoc, hg, h3, append_nil]
    · rw [eofGiven_snoc, heof, h4, Bool.or_false]
    · rw [endedBy_snoc, hend, h5, Bool.or_false]

theorem addStream_flow (key n limit : ℕ) (ex : Exchange) {init : ℤ}
    (hun : ∀ e ∈ log, e.onStream ≠ some id) (hinit : init = initWindow log)
    (hfits : 0 ≤ init ∧ init ≤ fpH2MaxWindow) (hsafe : Holds FlowStep log) :
    let es := [Hist.opened id key n limit] ++ (if ex.bodySource.isNone then [Hist.given id ex.body true] else []) ++
      [Hist.headers id (ex.body.isEmpty && ex.bodySource.isNone)]
    StreamFlow (log ++ es)
        { id := id
          ex := ex
          sendWindow := init
          endSent := ex.body.isEmpty && ex.bodySource.isNone
          bodyRem := if ex.bodySource.isNone then ex.body else []
          bodyEOF := ex.bodySource.isNone
          upload := ex.bodySource.map fun n => { length := n, requested := true } } ∧
      Holds FlowStep (log ++ es) ∧ connCredit (log ++ es) = connCredit log ∧
      connSent (log ++ es) = connSent log := by
  obtain ⟨hc, hs, hg, heof, hend⟩ := unmentioned hun
  dsimp only
  rw [← append_assoc, ← append_assoc]
  have hopen := hsafe.snoc (show FlowStep log (.opened id key n limit) from trivial)
  -- the log before the HEADERS frame: the body is given at once, or later by its source
  obtain ⟨mid, hmid⟩ : ∃ mid, mid = log ++ [Hist.opened id key n limit] ++
      (if ex.bodySource.isNone then [Hist.given id ex.body true] else []) := ⟨_, rfl⟩
  have hbefore : streamCredit id mid = init ∧ bodySent id mid = [] ∧
      bodyGiven id mid = (if ex.bodySource.isNone then ex.body else []) ∧
      eofGiven id mid = ex.bodySource.isNone ∧ endedBy id mid = false ∧
      connCredit mid = connCredit log ∧ connSent mid = connSent log ∧ Holds FlowStep mid := by
    rw [hmid]
    split_ifs with hnone
    · have hgiven := hopen.snoc (show FlowStep _ (.given id ex.body true) by
        simpa [FlowStep, eofOn] using heof)
      rw [streamCredit_snoc _ _ _ (by simp), streamCredit_snoc _ _ _ (by simp)]
      simp [-append_assoc, connCredit_snoc, hc, hs, hg, hend, hinit, hnone, hgiven,
        streamInc, dataOn, givenOn, eofOn, endOn, connInc,
        dataLen]
    rw [append_nil, streamCredit_snoc _ _ _ (by simp)]
    simp [connCredit_snoc, hc, hs, hg, heof, hend, hinit, hnone, hopen, streamInc,
      dataOn, givenOn, eofOn, endOn, connInc, dataLen]
  obtain ⟨hc', hs', hg', heof', hend', hcredit, hsent, hsafe'⟩ := hbefore
  rw [← hmid]
  refine ⟨?_, ?_, ?_, ?_⟩
  · constructor
    · rw [streamCredit_snoc _ _ _ (by simp), bodySent_snoc, hs', hc']
      simp [streamInc, dataOn]
    · dsimp only
      omega
    · rw [bodySent_snoc, bodyGiven_snoc, hs', hg']
      simp [dataOn, givenOn]
    · rw [eofGiven_snoc, heof']
      simp [eofOn]
    · rw [endedBy_snoc, hend']
      simp [endOn]
    · intro _
      simp_all
    · intro _ hsrc
      simp_all
    intro b _
    cases hsrc : ex.bodySource <;> simp_all
  · apply hsafe'.snoc
    intro _
    simp_all
  · rw [connCredit_snoc, hcredit]
    simp [connInc]
  rw [connSent_snoc, hsent]
  simp [dataLen]

theorem addStream (h : FlowInv c) (ex : Exchange) (rest : List Exchange) :
    FlowInv ({ c with pending := rest }.addStream ex) := by
  have hun : ∀ e ∈ c.log, e.onStream ≠ some c.nextID := by
    intro e he hon
    exact absurd (h.fresh e he _ hon) (lt_irrefl _)
  obtain ⟨hnew, hsafe, hcredit, hsent⟩ :=
    addStream_flow ex.key c.streams.length c.maxConcurrent ex hun h.init h.initFits h.safe
  have hes : ∀ e ∈ [Hist.opened c.nextID ex.key c.streams.length c.maxConcurrent] ++
      (if ex.bodySource.isNone then [Hist.given c.nextID ex.body true] else []) ++
      [Hist.headers c.nextID (ex.body.isEmpty && ex.bodySource.isNone)],
      e.onStream = some c.nextID := by
    intro e he
    simp only [mem_append, mem_singleton] at he
    rcases he with (rfl | he) | rfl
    · rfl
    · split_ifs at he
      · rw [mem_singleton.mp he]
        rfl
      · simp at he
    · rfl
  constructor
  · intro t ht
    rcases mem_append.mp ht with hold | hlast
    · exact (h.streams t hold).others (h.older t hold).ne hes
    rw [mem_singleton.mp hlast]
    exact hnew
  · exact h.conn.trans (by rw [← hcredit, ← hsent]; rfl)
  · exact h.connFits
  · exact h.init.trans (initWindow_append hes).symm
  · exact h.initFits
  · intro e he id hon
    change id < c.nextID + 2
    rcases mem_append.mp he with hold | hnew'
    · have := h.fresh e hold id hon
      omega
    have := hes e hnew'
    rw [hon] at this
    have := Option.some.inj this
    omega
  · intro t ht
    change t.id < c.nextID + 2
    rcases mem_append.mp ht with hold | hlast
    · have := h.older t hold
      omega
    rw [mem_singleton.mp hlast]
    exact Nat.lt_add_of_pos_right (by decide)
  · change ((c.streams ++ [_]).map H2Stream.id).Nodup
    rw [map_append]
    apply List.Nodup.append h.nodup (by simp)
    intro id hid hid'
    obtain ⟨t, ht, rfl⟩ := mem_map.mp hid
    have hlt := h.older t ht
    simp only [map_cons, map_nil, mem_singleton] at hid'
    omega
  · exact hsafe

theorem quiet (hq : Quiet c c') (h : FlowInv c) : FlowInv c' := by
  cases hq with
  | chunk hst hrem hmax => exact h.chunk hst hrem hmax
  | finalData hst hrem heof hend => exact h.finalData hst hrem heof hend
  | request hst hup hrem => exact h.request hst hup hrem
  | given hst hup hreq chunk eof hmore => exact h.given hst hup hreq chunk eof hmore
  | givenEnd hst hup hreq hend => exact h.givenEnd hst hup hreq
  | fail ex err =>
    unfold H2Conn.finish
    split_ifs
    · exact h
    · exact h.congr rfl rfl rfl rfl rfl
  | drop hst => exact h.sublist filter_sublist rfl rfl rfl rfl
  | deliver hst => exact h.deliver hst _
  | shut => exact h.sublist (nil_sublist _) rfl rfl rfl rfl
  | retire | unpool => exact h.congr rfl rfl rfl rfl rfl
  | settings init maxConcurrent maxFrameSize hinit hfit =>
    exact h.settings init maxConcurrent maxFrameSize hinit hfit
  | connUpdate inc hinc hfit => exact h.connUpdate inc hinc hfit
  | streamUpdate hst inc hfit => exact h.streamUpdate hst inc hfit
  | block hst fields =>
    obtain ⟨status, headers, heq⟩ := H2Conn.applyBlock_eq _ fields
    exact h.response hst ⟨true, status, headers, _, heq⟩ rfl (.inl ⟨fields, rfl⟩)
  | payload hst bytes => exact h.response hst ⟨_, _, _, _, rfl⟩ rfl (.inr ⟨bytes, rfl⟩)

theorem move (hm : Move c c') (h : FlowInv c) : FlowInv c' := by
  cases hm with
  | quiet hq => exact quiet hq h
  | «open» hp hready hid hlim hgo => exact h.addStream _ _
  | submit | ready => exact h.congr rfl rfl rfl rfl rfl

theorem initial (maxResponseBody : ℕ) : FlowInv { maxResponseBody := maxResponseBody } := by
  constructor
  · simp
  · rfl
  · unfold h2DefaultWindow fpH2MaxWindow
    norm_num
  · rfl
  · unfold h2DefaultWindow fpH2MaxWindow
    norm_num
  · simp
  · simp
  · exact nodup_nil
  · exact Holds.nil

theorem run (maxResponseBody : ℕ) (events : List Event) :
    FlowInv (H2Conn.run { maxResponseBody := maxResponseBody } events) :=
  H2Conn.run_invariant move (fun h => h.congr rfl rfl rfl rfl rfl) (initial maxResponseBody) events

end FlowInv

/-- In every run every window stays within 32 bits, and each DATA frame is within the credit granted
by then, continues its request body and ends it only at its end. -/
theorem requestBody_flow (maxResponseBody : ℕ) (events : List Event) :
    let c := H2Conn.run { maxResponseBody := maxResponseBody } events
    ((∀ st ∈ c.streams, -2 ^ 31 ≤ st.sendWindow ∧ st.sendWindow < 2 ^ 31) ∧
      0 ≤ c.connSendWindow ∧ c.connSendWindow < 2 ^ 31) ∧
    Holds FlowStep c.log := by
  intro c
  have h : FlowInv c := FlowInv.run maxResponseBody events
  refine ⟨⟨?_, h.connFits.1, ?_⟩, h.safe⟩
  · intro st hst
    have hf := (h.streams st hst).fits
    unfold fpH2MaxWindow at hf
    omega
  have hf := h.connFits.2
  unfold fpH2MaxWindow at hf
  omega

end AlosHttp.Proxy

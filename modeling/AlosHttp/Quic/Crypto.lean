import AlosHttp.Quic.Loss

/-! Reassembly of CRYPTO frames and delivery of handshake messages: `handleCryptoFrame` of
`quic_conn.go` with `messageStart` and `handleCryptoData` of `quic_tls.go`. What the TLS code
decides about a message is left open. -/
namespace AlosHttp.Quic.Crypto
open List

def quicMaxCryptoBuf : ℕ := 64 * 1024
def quicMaxInitialCryptoBuf : ℕ := 16 * 1024

def maxBuf : QuicSpace → ℕ
  | .initial => quicMaxInitialCryptoBuf
  | _ => quicMaxCryptoBuf

/-- `cryptoBuf` with `cryptoRcv`, a cell without a byte where nothing was received, and
`cryptoContig`. -/
structure CryptoStream where
  cells : List (Option UInt8) := []
  contig : ℕ := 0

def cellAt (cells : List (Option UInt8)) (i : ℕ) : Option UInt8 := (cells[i]?).join

/-- The buffer grows to the end of the frame, and the frame's bytes are copied into it. -/
def putCells (cells : List (Option UInt8)) (offset : ℕ) (data : Bytes) : List (Option UInt8) :=
  let grown := cells ++ replicate (offset + data.length - cells.length) none
  grown.take offset ++ (data.map some ++ grown.drop (offset + data.length))

def advance (cells : List (Option UInt8)) (contig : ℕ) : ℕ :=
  contig + ((cells.drop contig).takeWhile Option.isSome).length

def CryptoStream.put (s : CryptoStream) (offset : ℕ) (data : Bytes) : CryptoStream :=
  let cells := putCells s.cells offset data
  ⟨cells, if offset ≤ s.contig then advance cells s.contig else s.contig⟩

def CryptoStream.read (s : CryptoStream) (start n : ℕ) : Bytes := ((s.cells.drop start).take n).filterMap id

def msgLen (msg : Bytes) : ℕ := (msg.getD 1 0).toNat * 65536 + (msg.getD 2 0).toNat * 256 + (msg.getD 3 0).toNat

inductive Stage
  | waitClientHello
  | waitFinished
  | done
  deriving DecidableEq

structure TlsState where
  stage : Stage := .waitClientHello
  secondHelloOffset : ℕ := 0
  hsConsumed : ℕ := 0
  retry : Bool := false
  clientAuth : Bool := false

inductive Call
  | hello (msg : Bytes)
  | resend (msg : Bytes)
  | message (msg : Bytes)
  | dropped (space : QuicSpace) (msg : Bytes)
  deriving DecidableEq

structure Conn where
  streams : QuicSpace → CryptoStream := fun _ => {}
  tls : TlsState := {}
  firstFlightSent : Bool := false
  closed : Bool := false
  calls : List Call := []

/-- How `handleClientHello` ends: the connection is closed before or behind the first flight, a
HelloRetryRequest is sent, or the first flight and the handshake goes on. -/
inductive HelloOutcome
  | refused (sentFlight : Bool)
  | retry
  | accepted (clientAuth : Bool)

inductive FinishOutcome
  | refused
  | more
  | finished

/-- The decisions of the TLS code, from the calls before and the message. -/
structure Decisions where
  hello : List Call → Bytes → HelloOutcome
  message : List Call → Bytes → FinishOutcome

def messageStart (tls : TlsState) : QuicSpace → ℕ
  | .initial => tls.secondHelloOffset
  | .handshake => tls.hsConsumed
  | .appData => 0

section
variable (tlsCode : Decisions)

/-- A second HelloRetryRequest is never sent. -/
def handleClientHello (c : Conn) (data : Bytes) : Conn :=
  let c' := { c with calls := c.calls ++ [Call.hello data] }
  match tlsCode.hello c.calls data with
  | .refused sentFlight => { c' with closed := true, firstFlightSent := c.firstFlightSent || sentFlight }
  | .retry =>
    if c.tls.retry then { c' with closed := true }
    else { c' with tls := { c.tls with retry := true, secondHelloOffset := data.length } }
  | .accepted clientAuth =>
    { c' with
      firstFlightSent := true
      tls := { c.tls with stage := .waitFinished, retry := false, clientAuth } }

/-- `handleClientAuthMessage` or `handleClientFinished`, which ends the handshake if it does not
close. -/
def handleHandshakeMessage (c : Conn) (data : Bytes) : Conn :=
  let c' := { c with
    tls := { c.tls with hsConsumed := c.tls.hsConsumed + data.length }
    calls := c.calls ++ [Call.message data] }
  match tlsCode.message c.calls data with
  | .refused => { c' with closed := true }
  | .more => if c.tls.clientAuth then c' else { c' with tls := { c'.tls with stage := .done } }
  | .finished => { c' with tls := { c'.tls with stage := .done, clientAuth := false } }

def handleCryptoData (c : Conn) (space : QuicSpace) (data : Bytes) : Conn :=
  match c.tls.stage with
  | .waitClientHello =>
    if space ≠ .initial then { c with calls := c.calls ++ [.dropped space data] }
    else handleClientHello tlsCode c data
  | .waitFinished =>
    if space = .initial ∧ c.firstFlightSent then { c with calls := c.calls ++ [.resend data] }
    else if space ≠ .handshake then { c with calls := c.calls ++ [.dropped space data] }
    else handleHandshakeMessage tlsCode c data
  | .done => { c with calls := c.calls ++ [.dropped space data] }

def deliverLoop (space : QuicSpace) : ℕ → Conn → Conn
  | 0, c => c
  | fuel + 1, c =>
    if c.closed then c
    else
      let start := messageStart c.tls space
      let s := c.streams space
      if s.contig < start + 4 then c
      else
        let needed := 4 + msgLen (s.read start 4)
        if s.contig < start + needed then c
        else
          let c' := handleCryptoData tlsCode c space (s.read start needed)
          if messageStart c'.tls space = start then c' else deliverLoop space fuel c'

structure Frame where
  space : QuicSpace
  offset : ℕ
  data : Bytes

def Frame.fits (f : Frame) : Prop := f.offset + f.data.length ≤ maxBuf f.space

instance (f : Frame) : Decidable f.fits := inferInstanceAs (Decidable (_ ≤ _))

/-- Each turn of the loop starts further on, so that the fuel is never used up. -/
def handleCryptoFrame (c : Conn) (f : Frame) : Conn :=
  if ¬ f.fits then c
  else
    let s := (c.streams f.space).put f.offset f.data
    let c := { c with streams := fun space => if space = f.space then s else c.streams space }
    deliverLoop tlsCode f.space (s.contig + 1) c

def run (frames : List Frame) : Conn := frames.foldl (handleCryptoFrame tlsCode) {}

end

theorem cellAt_putCells (cells : List (Option UInt8)) (offset : ℕ) (data : Bytes) (i : ℕ) :
    cellAt (putCells cells offset data) i =
      if offset ≤ i ∧ i < offset + data.length then data[i - offset]? else cellAt cells i := by
  have hgrown (j : ℕ) : cellAt (cells ++ replicate (offset + data.length - cells.length) none) j = cellAt cells j := by
    unfold cellAt
    rw [getElem?_append]
    split_ifs with hj
    · rfl
    rw [getElem?_replicate, getElem?_eq_none (by omega)]
    split_ifs <;> rfl
  have hlen : offset + data.length ≤ (cells ++ replicate (offset + data.length - cells.length) none).length := by
    rw [length_append, length_replicate]
    omega
  rw [← hgrown]
  unfold putCells cellAt
  generalize cells ++ replicate (offset + data.length - cells.length) none = grown at hlen
  rw [getElem?_append, length_take, min_eq_left (by omega)]
  by_cases hlow : i < offset
  · rw [if_pos hlow, if_neg (by omega), getElem?_take_of_lt hlow]
  rw [if_neg hlow, getElem?_append, length_map]
  by_cases hmid : i - offset < data.length
  · rw [if_pos hmid, if_pos (by omega), getElem?_map, getElem?_eq_getElem hmid]
    rfl
  rw [if_neg hmid, if_neg (by omega), getElem?_drop]
  congr 2
  omega

theorem advance_spec (cells : List (Option UInt8)) (contig : ℕ) :
    contig ≤ advance cells contig ∧ cellAt cells (advance cells contig) = none ∧
      ∀ i, contig ≤ i → i < advance cells contig → (cellAt cells i).isSome = true := by
  have hdrop (j : ℕ) : cellAt cells (contig + j) = cellAt (cells.drop contig) j := by
    unfold cellAt
    rw [getElem?_drop]
  have hgen : ∀ l : List (Option UInt8), cellAt l (l.takeWhile Option.isSome).length = none ∧
      ∀ j < (l.takeWhile Option.isSome).length, (cellAt l j).isSome = true := by
    intro l
    induction l with
    | nil => exact ⟨rfl, fun j hj => absurd hj (Nat.not_lt_zero j)⟩
    | cons x l ih =>
      rcases x with _ | b
      · exact ⟨rfl, fun j hj => absurd hj (Nat.not_lt_zero j)⟩
      rw [takeWhile_cons_of_pos rfl, length_cons]
      refine ⟨ih.1, fun j hj => ?_⟩
      cases j with
      | zero => rfl
      | succ j => exact ih.2 j (by omega)
  obtain ⟨hend, hall⟩ := hgen (cells.drop contig)
  unfold advance
  refine ⟨Nat.le_add_right _ _, by rw [hdrop]; exact hend, fun i hlo hhi => ?_⟩
  obtain ⟨j, rfl⟩ := Nat.exists_eq_add_of_le hlo
  rw [hdrop]
  exact hall j (by omega)

/-- A stream holds what it got of the bytes `source`: these bytes, and as `contig` the longest
prefix without a gap. -/
structure StreamOk (s : CryptoStream) (source : Bytes) (got : ℕ → Prop) : Prop where
  content : ∀ i, got i → i < source.length ∧ cellAt s.cells i = source[i]?
  missing : ∀ i, ¬ got i → cellAt s.cells i = none
  prefixed : ∀ i < s.contig, got i
  longest : ¬ got s.contig

theorem streamOk_empty (source : Bytes) : StreamOk {} source fun _ => False :=
  ⟨fun _ h => h.elim, fun _ _ => rfl, fun _ hi => absurd hi (Nat.not_lt_zero _), id⟩

variable {s : CryptoStream} {source : Bytes} {got : ℕ → Prop}

theorem StreamOk.put (h : StreamOk s source got) {offset : ℕ}
    {data : Bytes} (hdata : ∀ i < data.length, source[offset + i]? = data[i]?) :
    StreamOk (s.put offset data) source fun i => got i ∨ offset ≤ i ∧ i < offset + data.length := by
  have hcell (i : ℕ) : cellAt (s.put offset data).cells i =
      if offset ≤ i ∧ i < offset + data.length then data[i - offset]? else cellAt s.cells i :=
    cellAt_putCells s.cells offset data i
  have hcontent (i : ℕ) (hi : got i ∨ offset ≤ i ∧ i < offset + data.length) :
      i < source.length ∧ cellAt (s.put offset data).cells i = source[i]? := by
    rw [hcell]
    by_cases hin : offset ≤ i ∧ i < offset + data.length
    · have hthis := hdata (i - offset) (by omega)
      rw [Nat.add_sub_cancel' hin.1] at hthis
      rw [if_pos hin, hthis]
      refine ⟨?_, rfl⟩
      rw [getElem?_eq_getElem (show i - offset < data.length by omega)] at hthis
      exact (List.getElem?_eq_some_iff.mp hthis).1
    rw [if_neg hin]
    exact h.content i (hi.resolve_right hin)
  have hmissing (i : ℕ) (hi : ¬ (got i ∨ offset ≤ i ∧ i < offset + data.length)) :
      cellAt (s.put offset data).cells i = none := by
    rw [not_or] at hi
    rw [hcell, if_neg hi.2]
    exact h.missing i hi.1
  have hsome (i : ℕ) (hi : (cellAt (s.put offset data).cells i).isSome = true) :
      got i ∨ offset ≤ i ∧ i < offset + data.length := by
    by_contra hnot
    rw [hmissing i hnot] at hi
    cases hi
  refine ⟨hcontent, hmissing, fun i hi => ?_, ?_⟩
  · by_cases hlow : i < s.contig
    · exact .inl (h.prefixed i hlow)
    have hcontig : (s.put offset data).contig =
        if offset ≤ s.contig then advance (s.put offset data).cells s.contig else s.contig := rfl
    rw [hcontig] at hi
    split_ifs at hi with hle
    · exact hsome i ((advance_spec _ _).2.2 i (by omega) hi)
    · omega
  have hcontig : (s.put offset data).contig =
      if offset ≤ s.contig then advance (s.put offset data).cells s.contig else s.contig := rfl
  rw [hcontig]
  split_ifs with hle
  · intro hgot
    have hnone := (advance_spec (s.put offset data).cells s.contig).2.1
    obtain ⟨hlt, heq⟩ := hcontent _ hgot
    rw [heq, getElem?_eq_getElem hlt] at hnone
    cases hnone
  rintro (hgot | hin)
  · exact h.longest hgot
  · omega

theorem StreamOk.read_eq (h : StreamOk s source got) {start n : ℕ}
    (hn : start + n ≤ s.contig) : s.read start n = (source.drop start).take n ∧ start + n ≤ source.length := by
  have hle : start + n ≤ source.length := by
    by_contra hgt
    obtain ⟨hlt, -⟩ := h.content source.length (h.prefixed _ (by omega))
    omega
  refine ⟨?_, hle⟩
  have hcells : (s.cells.drop start).take n = ((source.drop start).take n).map some := by
    apply ext_getElem?
    intro i
    by_cases hi : i < n
    · obtain ⟨hlt, hcell⟩ := h.content (start + i) (h.prefixed _ (by omega))
      rw [getElem?_take_of_lt hi, getElem?_drop, getElem?_map, getElem?_take_of_lt hi,
        getElem?_drop, getElem?_eq_getElem hlt]
      unfold cellAt at hcell
      rw [getElem?_eq_getElem hlt, Option.join_eq_some_iff] at hcell
      exact hcell
    rw [getElem?_eq_none (by rw [length_take]; omega),
      getElem?_eq_none (by rw [length_map, length_take]; omega)]
  unfold CryptoStream.read
  rw [hcells, filterMap_map]
  exact filterMap_some

def msgAt (source : Bytes) (start : ℕ) : Bytes := (source.drop start).take (4 + msgLen ((source.drop start).take 4))

/-- A message with its header and as many bytes as the header says. -/
def Whole (msg : Bytes) : Prop := msg.length = 4 + msgLen msg

theorem msgLen_take (bytes : Bytes) (n : ℕ) : msgLen (bytes.take (4 + n)) = msgLen bytes := by
  unfold msgLen
  have hget (i : ℕ) (hi : i < 4) : (bytes.take (4 + n)).getD i 0 = bytes.getD i 0 := by
    rw [getD_eq_getElem?_getD, getD_eq_getElem?_getD, getElem?_take_of_lt (by omega)]
  rw [hget 1 (by omega), hget 2 (by omega), hget 3 (by omega)]

theorem StreamOk.message (h : StreamOk s source got) {start : ℕ}
    (hheader : start + 4 ≤ s.contig) (hall : start + (4 + msgLen (s.read start 4)) ≤ s.contig) :
    s.read start (4 + msgLen (s.read start 4)) = msgAt source start ∧ Whole (msgAt source start) ∧
      start + (msgAt source start).length ≤ s.contig ∧ 4 ≤ (msgAt source start).length ∧
      source.take start ++ msgAt source start = source.take (start + (msgAt source start).length) := by
  rw [(h.read_eq hheader).1] at hall ⊢
  obtain ⟨hread, _⟩ := h.read_eq hall
  have hlen : (msgAt source start).length = 4 + msgLen ((source.drop start).take 4) := by
    unfold msgAt
    rw [length_take, length_drop]
    omega
  refine ⟨hread, ?_, by omega, by omega, ?_⟩
  · unfold Whole
    rw [hlen]
    unfold msgAt
    rw [msgLen_take, ← msgLen_take (source.drop start) 0]
  rw [hlen, take_add]
  rfl

def Call.hello? : Call → Option Bytes
  | .hello msg => some msg
  | _ => none

def Call.resend? : Call → Option Bytes
  | .resend msg => some msg
  | _ => none

def Call.message? : Call → Option Bytes
  | .message msg => some msg
  | _ => none

/-- The messages that the TLS code got as ClientHellos and as handshake messages, and those for
which it sent its first flight again. -/
def Conn.hellos (c : Conn) : List Bytes := c.calls.filterMap Call.hello?
def Conn.messages (c : Conn) : List Bytes := c.calls.filterMap Call.message?
def Conn.resends (c : Conn) : List Bytes := c.calls.filterMap Call.resend?

/-- The handshake messages are, one behind the other, what is consumed of the source; the ClientHellos
are its first message or, after a HelloRetryRequest, its first two; and the first flight is sent again
only for one of them. -/
structure Log (source : QuicSpace → Bytes) (tls : TlsState) (closed : Bool) (hellos messages resends : List Bytes) :
    Prop where
  joined : messages.flatten = (source .handshake).take tls.hsConsumed
  wholeMessages : ∀ m ∈ messages, Whole m
  first : hellos.flatten <+: source .initial
  wholeHellos : ∀ m ∈ hellos, Whole m
  count : hellos.length ≤ if tls.secondHelloOffset = 0 then 1 else 2
  waiting : tls.stage = .waitClientHello → closed = false →
    hellos.flatten = (source .initial).take tls.secondHelloOffset ∧ hellos.length = (if tls.retry then 1 else 0) ∧
      (tls.retry = false ↔ tls.secondHelloOffset = 0)
  resent : ∀ m ∈ resends, m ∈ hellos
  answered : tls.stage ≠ .waitClientHello → msgAt (source .initial) tls.secondHelloOffset ∈ hellos

section
variable {source : QuicSpace → Bytes} {tls : TlsState} {closed : Bool}
  {hellos messages resends : List Bytes} {msg : Bytes}

theorem Log.resend (h : Log source tls closed hellos messages resends) (hmsg : msg ∈ hellos) :
    Log source tls closed hellos messages (resends ++ [msg]) := by
  refine { h with resent := fun m hm => ?_ }
  rcases mem_append.mp hm with hm | hm
  · exact h.resent m hm
  obtain rfl := mem_singleton.mp hm
  exact hmsg

theorem Log.hello (h : Log source tls false hellos messages resends) (hstage : tls.stage = .waitClientHello)
    (hmsg : msg = msgAt (source .initial) tls.secondHelloOffset) (hwhole : Whole msg)
    (hnext : (source .initial).take tls.secondHelloOffset ++ msg =
      (source .initial).take (tls.secondHelloOffset + msg.length)) {tls' : TlsState} {closed' : Bool}
    (hconsumed : tls'.hsConsumed = tls.hsConsumed)
    (hwait : tls'.stage = .waitClientHello → closed' = false →
      tls.retry = false ∧ tls'.retry = true ∧ tls'.secondHelloOffset = msg.length)
    (hlast : tls'.stage ≠ .waitClientHello ∨ closed' = true → tls'.secondHelloOffset = tls.secondHelloOffset) :
    Log source tls' closed' (hellos ++ [msg]) messages resends := by
  obtain ⟨hflat, hcount, hzero⟩ := h.waiting hstage rfl
  have hpos : 0 < msg.length := by
    rw [hwhole]
    omega
  have hjoin : (hellos ++ [msg]).flatten = (source .initial).take (tls.secondHelloOffset + msg.length) := by
    rw [flatten_append, hflat, ← hnext, flatten_singleton]
  constructor
  · rw [hconsumed]
    exact h.joined
  · exact h.wholeMessages
  · rw [hjoin]
    exact take_prefix _ _
  · intro m hm
    rcases mem_append.mp hm with hm | hm
    · exact h.wholeHellos m hm
    obtain rfl := mem_singleton.mp hm
    exact hwhole
  · rw [length_append, hcount, length_singleton]
    by_cases hagain : tls'.stage = .waitClientHello ∧ closed' = false
    · obtain ⟨hretry, -, hoffset⟩ := hwait hagain.1 hagain.2
      have hne : tls'.secondHelloOffset ≠ 0 := by omega
      rw [if_neg hne, hretry]
      decide
    · rw [hlast (by rwa [not_and_or, Bool.not_eq_false] at hagain)]
      by_cases hstart : tls.secondHelloOffset = 0
      · rw [if_pos hstart, hzero.mpr hstart]
        decide
      · rw [if_neg hstart]
        split_ifs <;> omega
  · intro hstage' hopen'
    obtain ⟨hretry, hretry', hoffset⟩ := hwait hstage' hopen'
    have hstart := hzero.mp hretry
    refine ⟨?_, ?_, ?_⟩
    · rw [hjoin, hstart, hoffset, zero_add]
    · rw [length_append, hcount, hretry, hretry', length_singleton]
      rfl
    · rw [hretry', hoffset]
      exact iff_of_false (by decide) (by omega)
  · exact fun m hm => mem_append_left _ (h.resent m hm)
  intro hstage'
  rw [hlast (.inl hstage'), ← hmsg]
  exact mem_append_right _ mem_cons_self

theorem Log.message (h : Log source tls closed hellos messages resends) (hstage : tls.stage = .waitFinished)
    (hwhole : Whole msg)
    (hnext : (source .handshake).take tls.hsConsumed ++ msg = (source .handshake).take (tls.hsConsumed + msg.length))
    {tls' : TlsState} (hconsumed : tls'.hsConsumed = tls.hsConsumed + msg.length)
    (hstage' : tls'.stage ≠ .waitClientHello) (hoffset : tls'.secondHelloOffset = tls.secondHelloOffset)
    (closed' : Bool) : Log source tls' closed' hellos (messages ++ [msg]) resends := by
  constructor
  · rw [hconsumed, ← hnext, flatten_append, h.joined, flatten_singleton]
  · intro m hm
    rcases mem_append.mp hm with hm | hm
    · exact h.wholeMessages m hm
    obtain rfl := mem_singleton.mp hm
    exact hwhole
  · exact h.first
  · exact h.wholeHellos
  · rw [hoffset]
    exact h.count
  · exact fun hwait => absurd hwait hstage'
  · exact h.resent
  intro _
  rw [hoffset]
  exact h.answered (by rw [hstage]; decide)

end

structure Inv (source : QuicSpace → Bytes) (got : QuicSpace → ℕ → Prop) (c : Conn) : Prop where
  streams : ∀ space, StreamOk (c.streams space) (source space) (got space)
  consumed : c.tls.hsConsumed ≤ (c.streams .handshake).contig
  log : Log source c.tls c.closed c.hellos c.messages c.resends

theorem Inv.empty (source : QuicSpace → Bytes) : Inv source (fun _ _ => False) {} where
  streams space := streamOk_empty (source space)
  consumed := le_rfl
  log := by
    constructor
    · rfl
    · exact fun _ h => by cases h
    · exact nil_prefix
    · exact fun _ h => by cases h
    · exact Nat.zero_le _
    · exact fun _ _ => ⟨rfl, rfl, fun _ => rfl, fun _ => rfl⟩
    · exact fun _ h => by cases h
    · exact fun h => absurd rfl h

def consuming : QuicSpace → Option Stage
  | .initial => some .waitClientHello
  | .handshake => some .waitFinished
  | .appData => none

section
variable (tlsCode : Decisions) {source : QuicSpace → Bytes} {got : QuicSpace → ℕ → Prop} {c : Conn}

theorem handleClientHello_cases (c : Conn) (data : Bytes) :
    let c' := handleClientHello tlsCode c data
    c'.streams = c.streams ∧ c'.calls = c.calls ++ [.hello data] ∧ c'.tls.hsConsumed = c.tls.hsConsumed ∧
      (c'.closed = true ∧ c'.tls = c.tls ∨
        c.tls.retry = false ∧ c'.closed = c.closed ∧ c'.tls.stage = c.tls.stage ∧ c'.tls.retry = true ∧
          c'.tls.secondHelloOffset = data.length ∨
        c'.closed = c.closed ∧ c'.tls.stage = .waitFinished ∧ c'.tls.secondHelloOffset = c.tls.secondHelloOffset) := by
  unfold handleClientHello
  cases tlsCode.hello c.calls data with
  | refused sentFlight => exact ⟨rfl, rfl, rfl, .inl ⟨rfl, rfl⟩⟩
  | retry =>
    dsimp only
    split_ifs with hretry
    · exact ⟨rfl, rfl, rfl, .inl ⟨rfl, rfl⟩⟩
    · exact ⟨rfl, rfl, rfl, .inr (.inl ⟨Bool.not_eq_true _ ▸ hretry, rfl, rfl, rfl, rfl⟩)⟩
  | accepted clientAuth => exact ⟨rfl, rfl, rfl, .inr (.inr ⟨rfl, rfl, rfl⟩)⟩

theorem handleHandshakeMessage_spec (c : Conn) (data : Bytes) :
    let c' := handleHandshakeMessage tlsCode c data
    c'.streams = c.streams ∧ c'.calls = c.calls ++ [.message data] ∧
      c'.tls.hsConsumed = c.tls.hsConsumed + data.length ∧ c'.tls.secondHelloOffset = c.tls.secondHelloOffset ∧
      (c'.tls.stage = c.tls.stage ∨ c'.tls.stage = .done) := by
  unfold handleHandshakeMessage
  cases tlsCode.message c.calls data with
  | refused => exact ⟨rfl, rfl, rfl, rfl, .inl rfl⟩
  | more =>
    dsimp only
    split_ifs with hauth
    · exact ⟨rfl, rfl, rfl, rfl, .inl rfl⟩
    · exact ⟨rfl, rfl, rfl, rfl, .inr rfl⟩
  | finished => exact ⟨rfl, rfl, rfl, rfl, .inr rfl⟩

theorem handleCryptoData_streams (c : Conn) (space : QuicSpace) (data : Bytes) :
    (handleCryptoData tlsCode c space data).streams = c.streams := by
  have hhello := (handleClientHello_cases tlsCode c data).1
  have hmessage := (handleHandshakeMessage_spec tlsCode c data).1
  unfold handleCryptoData
  cases c.tls.stage with
  | waitClientHello =>
    dsimp only
    split_ifs
    · rfl
    · exact hhello
  | waitFinished =>
    dsimp only
    split_ifs
    · rfl
    · rfl
    · exact hmessage
  | done => rfl

theorem calls_append (c : Conn) (call : Call) (c' : Conn) (h : c'.calls = c.calls ++ [call]) :
    c'.hellos = c.hellos ++ call.hello?.toList ∧ c'.messages = c.messages ++ call.message?.toList ∧
      c'.resends = c.resends ++ call.resend?.toList := by
  unfold Conn.hellos Conn.messages Conn.resends
  rw [h, filterMap_append, filterMap_append, filterMap_append]
  cases call <;> exact ⟨rfl, rfl, rfl⟩

theorem Inv.of_calls (h : Inv source got c) (call : Call) {c' : Conn} (hstreams : c'.streams = c.streams)
    (hcalls : c'.calls = c.calls ++ [call])
    (hconsumed : c'.tls.hsConsumed ≤ (c.streams .handshake).contig)
    (hlog : Log source c'.tls c'.closed (c.hellos ++ call.hello?.toList)
      (c.messages ++ call.message?.toList) (c.resends ++ call.resend?.toList)) : Inv source got c' := by
  obtain ⟨hh, hm, hr⟩ := calls_append c call c' hcalls
  refine ⟨?_, ?_, ?_⟩
  · rw [hstreams]
    exact h.streams
  · rw [hstreams]
    exact hconsumed
  rw [hh, hm, hr]
  exact hlog

/-- Behind a message for the TLS code: where it is not consumed the connection is closed or the
handshake is at another stage. -/
structure Handed (source : QuicSpace → Bytes) (got : QuicSpace → ℕ → Prop) (c : Conn) (space : QuicSpace)
    (msg : Bytes) (c' : Conn) : Prop where
  inv : Inv source got c'
  stuck : messageStart c'.tls space = messageStart c.tls space →
    c'.closed = true ∨ consuming space ≠ some c'.tls.stage
  moved : messageStart c'.tls space ≠ messageStart c.tls space →
    messageStart c'.tls space = messageStart c.tls space + msg.length

open Call

theorem Inv.call (h : Inv source got c) (hopen : c.closed = false) {space : QuicSpace} {msg : Bytes}
    (hmsg : msg = msgAt (source space) (messageStart c.tls space)) (hwhole : Whole msg)
    (hend : messageStart c.tls space + msg.length ≤ (c.streams space).contig)
    (hnext : (source space).take (messageStart c.tls space) ++ msg =
      (source space).take (messageStart c.tls space + msg.length)) :
    Handed source got c space msg (handleCryptoData tlsCode c space msg) := by
  have hpos : 0 < msg.length := by
    rw [hwhole]
    omega
  have hdropped : consuming space ≠ some c.tls.stage →
      Handed source got c space msg { c with calls := c.calls ++ [.dropped space msg] } := by
    intro hstage
    refine ⟨?_, fun _ => .inr hstage, fun hne => absurd rfl hne⟩
    refine h.of_calls (.dropped space msg) rfl rfl h.consumed ?_
    simpa [hello?, message?, resend?] using h.log
  unfold handleCryptoData
  cases hstage : c.tls.stage with
  | waitClientHello =>
    rw [hstage] at hdropped
    by_cases hspace : space = .initial
    · subst hspace
      rw [if_neg (by simp)]
      obtain ⟨hstreams, hcalls, hconsumed, hcases⟩ := handleClientHello_cases tlsCode c msg
      generalize handleClientHello tlsCode c msg = c' at hstreams hcalls hconsumed hcases ⊢
      have hlog : Log source c.tls false c.hellos c.messages c.resends := by
        rw [← hopen]
        exact h.log
      have hwait : c'.tls.stage = .waitClientHello → c'.closed = false →
          c.tls.retry = false ∧ c'.tls.retry = true ∧ c'.tls.secondHelloOffset = msg.length := by
        intro hstage' hopen'
        rcases hcases with ⟨hclosed, -⟩ | ⟨hretry, -, -, hretry', hoffset⟩ | ⟨-, hnext', -⟩
        · rw [hopen'] at hclosed
          cases hclosed
        · exact ⟨hretry, hretry', hoffset⟩
        rw [hstage'] at hnext'
        cases hnext'
      have hlast : c'.tls.stage ≠ .waitClientHello ∨ c'.closed = true →
          c'.tls.secondHelloOffset = c.tls.secondHelloOffset := by
        intro hended
        rcases hcases with ⟨-, htls⟩ | ⟨-, hsame, hstage', -⟩ | ⟨-, -, hoffset⟩
        · rw [htls]
        · rw [hstage', hstage, hsame, hopen] at hended
          simp at hended
        · exact hoffset
      have hlog' := hlog.hello hstage hmsg hwhole hnext hconsumed hwait hlast
      refine ⟨h.of_calls (.hello msg) hstreams hcalls (hconsumed ▸ h.consumed) ?_, fun hsame => ?_, fun hmoved => ?_⟩
      · simpa [hello?, message?, resend?] using hlog'
      · rcases hcases with ⟨hclosed, -⟩ | ⟨hretry, -, -, -, hoffset⟩ | ⟨-, hnext', -⟩
        · exact .inl hclosed
        · have hzero := (hlog.waiting hstage rfl).2.2.mp hretry
          have hsame' : c'.tls.secondHelloOffset = c.tls.secondHelloOffset := hsame
          omega
        rw [hnext']
        exact .inr (by decide)
      rcases hcases with ⟨-, htls⟩ | ⟨hretry, -, -, -, hoffset⟩ | ⟨-, -, hoffset⟩
      · rw [htls] at hmoved
        exact absurd rfl hmoved
      · have hzero := (hlog.waiting hstage rfl).2.2.mp hretry
        change c'.tls.secondHelloOffset = c.tls.secondHelloOffset + msg.length
        omega
      · exact absurd hoffset hmoved
    rw [if_pos hspace]
    refine hdropped ?_
    cases space with
    | initial => exact absurd rfl hspace
    | handshake | appData => decide
  | waitFinished =>
    rw [hstage] at hdropped
    by_cases hagain : space = .initial ∧ c.firstFlightSent = true
    · rw [if_pos hagain]
      obtain ⟨rfl, -⟩ := hagain
      have hknown : msg ∈ c.hellos := by
        rw [hmsg]
        exact h.log.answered (by rw [hstage]; decide)
      refine ⟨h.of_calls (.resend msg) rfl rfl h.consumed ?_, fun _ => .inr ?_, fun hne => absurd rfl hne⟩
      · simpa [hello?, message?, resend?] using h.log.resend hknown
      rw [hstage]
      decide
    rw [if_neg hagain]
    by_cases hspace : space = .handshake
    · subst hspace
      obtain ⟨hstreams, hcalls, hconsumed, hoffset, hstage'⟩ := handleHandshakeMessage_spec tlsCode c msg
      generalize handleHandshakeMessage tlsCode c msg = c' at hstreams hcalls hconsumed hoffset hstage' ⊢
      have hne : c'.tls.stage ≠ .waitClientHello := by
        rcases hstage' with hsame | hdone
        · rw [hsame, hstage]
          decide
        rw [hdone]
        decide
      have hlog' := h.log.message hstage hwhole hnext hconsumed hne hoffset c'.closed
      refine ⟨h.of_calls (.message msg) hstreams hcalls (hconsumed ▸ hend) ?_, fun hsame => ?_, fun _ => hconsumed⟩
      · simpa [hello?, message?, resend?] using hlog'
      have hsame' : c'.tls.hsConsumed = c.tls.hsConsumed := hsame
      omega
    rw [if_pos hspace]
    refine hdropped ?_
    cases space with
    | initial | appData => decide
    | handshake => exact absurd rfl hspace
  | done =>
    rw [hstage] at hdropped
    refine hdropped ?_
    cases space <;> decide

/-- No message of the space waits to be consumed: the connection is closed, the handshake is at
another stage, or the next message is not there as a whole. -/
def Drained (c : Conn) (space : QuicSpace) : Prop := c.closed = true ∨ consuming space ≠ some c.tls.stage ∨
    (c.streams space).contig < messageStart c.tls space + 4 ∨
    (c.streams space).contig <
      messageStart c.tls space + (4 + msgLen ((c.streams space).read (messageStart c.tls space) 4))

/-- The loop keeps the invariant, and with fuel for the rest of the stream it leaves nothing. -/
theorem Inv.deliverLoop (h : Inv source got c) (space : QuicSpace) (fuel : ℕ) :
    Inv source got (deliverLoop tlsCode space fuel c) ∧
      ((c.streams space).contig < messageStart c.tls space + fuel →
        Drained (deliverLoop tlsCode space fuel c) space) := by
  induction fuel generalizing c with
  | zero =>
    refine ⟨h, fun hfuel => .inr (.inr (.inl ?_))⟩
    exact hfuel.trans_le (Nat.le_add_right _ _)
  | succ fuel ih =>
    rw [Crypto.deliverLoop]
    by_cases hclosed : c.closed = true
    · rw [if_pos hclosed]
      exact ⟨h, fun _ => .inl hclosed⟩
    rw [if_neg hclosed]
    by_cases hheader : (c.streams space).contig < messageStart c.tls space + 4
    · rw [if_pos hheader]
      exact ⟨h, fun _ => .inr (.inr (.inl hheader))⟩
    rw [if_neg hheader]
    by_cases hall : (c.streams space).contig <
        messageStart c.tls space + (4 + msgLen ((c.streams space).read (messageStart c.tls space) 4))
    · rw [if_pos hall]
      exact ⟨h, fun _ => .inr (.inr (.inr hall))⟩
    rw [if_neg hall]
    obtain ⟨hread, hwhole, hend, _, hnext⟩ := (h.streams space).message (not_lt.mp hheader) (not_lt.mp hall)
    rw [hread]
    obtain ⟨hinv, hstay, hmove⟩ := h.call tlsCode (Bool.not_eq_true _ ▸ hclosed) rfl hwhole hend hnext
    have hstreams := handleCryptoData_streams tlsCode c space (msgAt (source space) (messageStart c.tls space))
    generalize handleCryptoData tlsCode c space (msgAt (source space) (messageStart c.tls space)) = c' at *
    by_cases hsame : messageStart c'.tls space = messageStart c.tls space
    · rw [if_pos hsame]
      refine ⟨hinv, fun _ => ?_⟩
      rcases hstay hsame with hc | hs
      · exact .inl hc
      · exact .inr (.inl hs)
    rw [if_neg hsame]
    obtain ⟨hinv', hdrain⟩ := ih hinv
    refine ⟨hinv', fun hfuel => hdrain ?_⟩
    rw [hstreams, hmove hsame]
    omega

theorem Inv.frame (h : Inv source got c) (f : Frame)
    (hdata : ∀ i < f.data.length, (source f.space)[f.offset + i]? = f.data[i]?) :
    Inv source (fun space i => got space i ∨ f.fits ∧ f.space = space ∧ f.offset ≤ i ∧ i < f.offset + f.data.length)
        (handleCryptoFrame tlsCode c f) ∧
      (f.fits → Drained (handleCryptoFrame tlsCode c f) f.space) := by
  unfold handleCryptoFrame
  by_cases hfits : f.fits
  · rw [if_neg (not_not.mpr hfits)]
    have hput := (h.streams f.space).put hdata
    have hgrow : (c.streams f.space).contig ≤ ((c.streams f.space).put f.offset f.data).contig := by
      unfold CryptoStream.put
      split_ifs
      · exact (advance_spec _ _).1
      · exact le_rfl
    have hinv : Inv source
        (fun space i => got space i ∨ f.fits ∧ f.space = space ∧ f.offset ≤ i ∧ i < f.offset + f.data.length)
        { c with streams := fun space => if space = f.space
          then (c.streams f.space).put f.offset f.data else c.streams space } := by
      refine ⟨fun space => ?_, ?_, h.log⟩
      · by_cases hspace : space = f.space
        · subst hspace
          simpa [hfits] using hput
        · simpa [hspace, Ne.symm hspace] using h.streams space
      dsimp only
      split_ifs with hspace
      · rw [← hspace] at hgrow ⊢
        exact h.consumed.trans hgrow
      · exact h.consumed
    obtain ⟨hloop, hdrain⟩ := hinv.deliverLoop tlsCode f.space (((c.streams f.space).put f.offset f.data).contig + 1)
    refine ⟨hloop, fun _ => hdrain ?_⟩
    dsimp only
    rw [if_pos rfl]
    omega
  refine ⟨?_, fun hf => absurd hf hfits⟩
  simpa [hfits] using h

/-- What was received of a space: the bytes of the frames that end within the limit. -/
def Received (frames : List Frame) (space : QuicSpace) (i : ℕ) : Prop :=
  ∃ f ∈ frames, f.fits ∧ f.space = space ∧ f.offset ≤ i ∧ i < f.offset + f.data.length

theorem Inv.run {frames : List Frame}
    (hdata : ∀ f ∈ frames, ∀ i < f.data.length, (source f.space)[f.offset + i]? = f.data[i]?) :
    Inv source (Received frames) (run tlsCode frames) := by
  induction frames using reverseRecOn with
  | nil =>
    have hnone : Received [] = fun _ _ => False := by
      funext space i
      rw [eq_iff_iff, iff_false]
      rintro ⟨f, hf, -⟩
      exact absurd hf not_mem_nil
    rw [hnone]
    exact Inv.empty source
  | append_singleton frames f ih =>
    have hstep := ((ih fun g hg => hdata g (mem_append_left _ hg)).frame tlsCode f
      (hdata f (mem_append_right _ mem_cons_self))).1
    have hmore : Received (frames ++ [f]) = fun space i =>
        Received frames space i ∨ f.fits ∧ f.space = space ∧ f.offset ≤ i ∧ i < f.offset + f.data.length := by
      funext space i
      unfold Received
      simp only [mem_append, mem_singleton, or_and_right, exists_or, exists_eq_left]
    rw [hmore]
    unfold Crypto.run at hstep ⊢
    rw [foldl_append]
    exact hstep

end

/-- A ClientHello of TLS 1.3: one cipher suite, and the extensions server_name (localhost), ALPN (h3),
supported_versions, supported_groups, signature_algorithms, key_share (x25519) and
quic_transport_parameters with the empty connection identifier of the client. -/
def clientHello : Bytes :=
  [1, 0, 0, 0x8d, 3, 3] ++ replicate 32 7 ++ [0, 0, 2, 0x13, 1, 1, 0, 0, 0x62] ++
    [0, 0, 0, 14, 0, 12, 0, 0, 9] ++ ascii "localhost" ++ [0, 0x10, 0, 5, 0, 3, 2, 0x68, 0x33] ++
    [0, 0x2b, 0, 3, 2, 3, 4] ++ [0, 10, 0, 4, 0, 2, 0, 0x1d] ++ [0, 13, 0, 4, 0, 2, 4, 3] ++
    [0, 0x33, 0, 0x26, 0, 0x24, 0, 0x1d, 0, 0x20] ++ 9 :: replicate 31 0 ++ [0, 0x39, 0, 2, 15, 0]

/-- The TLS code with a certificate for the name: it takes this ClientHello. -/
def acceptsHello : Decisions :=
  ⟨fun _ msg => if msg = clientHello then .accepted false else .refused false, fun _ _ => .finished⟩

/-- The hello in two overlapping frames, the later part first, and a repetition of that. -/
def helloFrames : List Frame :=
  [⟨.initial, 60, clientHello.drop 60⟩, ⟨.initial, 0, clientHello.take 70⟩, ⟨.initial, 60, clientHello.drop 60⟩]

end AlosHttp.Quic.Crypto

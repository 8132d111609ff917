import AlosHttp.Core.Utils
import Mathlib.Data.Finset.Card
import Mathlib.Logic.Function.Basic

/-! The streams that the peer opens: which ids are open, were open, or may still be opened. What a
stream does with its data is left to `Stream`; when it is done, it is retired. -/
namespace AlosHttp.Quic
open List

def quicErrStreamLimit : ℕ := 0x04
def quicErrStreamState : ℕ := 0x05

def quicMaxConcurrentReqStreams : ℕ := 256
def quicMaxBidiStreams : ℕ := quicMaxConcurrentReqStreams
def quicMaxUniStreams : ℕ := 16
def quicMaxTrackedStreams : ℕ := quicMaxBidiStreams + quicMaxUniStreams + 32
def quicMaxStreamsCreditBatch : ℕ := 128

def quicStreamIsLocal (id : ℕ) : Bool := id &&& 0x01 = 1

def quicStreamIsBidi (id : ℕ) : Bool := id &&& 0x02 = 0

inductive QuicPeerStreamState
  | opened
  | closed
  | overLimit
  | invalid
  deriving DecidableEq

/-- `nextBidiRemote`, `maxBidiRemote` and `bidiStreamsRetired`, or those of unidirectional
streams. -/
structure RemoteStreams where
  next : ℕ
  limit : ℕ
  retired : ℕ := 0
  deriving DecidableEq

def firstID (bidi : Bool) : ℕ := if bidi then 0 else 2

def concurrency (bidi : Bool) : ℕ := if bidi then quicMaxBidiStreams else quicMaxUniStreams

/-- The streams of a connection. `opened` and `finished` are the peer's streams that were put in the
map and that were retired; `overflowed` says that the overflow branch was taken. -/
structure PeerStreams where
  remote : Bool → RemoteStreams := fun bidi => ⟨firstID bidi, concurrency bidi, 0⟩
  implicitRemote : Finset ℕ := ∅
  streams : Finset ℕ := ∅
  nextUniLocal : ℕ := 3
  h3Started : Bool := false
  goAwayID : Option ℕ := none
  closed : Option (ℕ × String) := none
  opened : List ℕ := []
  finished : List ℕ := []
  overflowed : Bool := false

inductive StreamFrameKind
  | stream
  | resetStream
  | stopSending
  | maxStreamData
  deriving DecidableEq

inductive PeerStreamEvent
  | frame (kind : StreamFrameKind) (id : ℕ)
  /-- A stream in the map is retired, whatever the reason. -/
  | retire (id : ℕ)
  /-- The handshake is done and HTTP/3 starts, once. -/
  | startH3
  | beginGoAway

namespace PeerStreams

def closeWithError (s : PeerStreams) (code : ℕ) (reason : String) : PeerStreams :=
  if s.closed.isSome then s else { s with closed := some (code, reason), streams := ∅ }

def openPeerStreamLocked (s : PeerStreams) (id : ℕ) : PeerStreams × QuicPeerStreamState :=
  if quicStreamIsLocal id then (s, .invalid)
  else
    let r := s.remote (quicStreamIsBidi id)
    if id < r.next then
      if id ∈ s.implicitRemote then ({ s with implicitRemote := s.implicitRemote.erase id }, .opened) else (s, .closed)
    else if id >>> 2 ≥ r.limit then (s, .overLimit)
    else
      let skipped := range' r.next ((id - r.next + 3) / 4) 4
      ({ s with
        implicitRemote := s.implicitRemote ∪ skipped.toFinset
        remote := Function.update s.remote (quicStreamIsBidi id) { r with next := id + 4 } }, .opened)

def rejectedByGoAwayLocked (s : PeerStreams) (id : ℕ) : Bool :=
  s.goAwayID.any fun goAwayID => quicStreamIsBidi id ∧ id ≥ goAwayID

def addStream (s : PeerStreams) (id : ℕ) : PeerStreams :=
  if s.rejectedByGoAwayLocked id then s
  else if s.streams.card ≥ quicMaxTrackedStreams then { s with overflowed := true }
  else { s with streams := insert id s.streams, opened := s.opened ++ [id] }

def handleStreamFrameIncoming (s : PeerStreams) (id : ℕ) : PeerStreams :=
  if quicStreamIsLocal id ∧ quicStreamIsBidi id = false then
    s.closeWithError quicErrStreamState "STREAM frame on a send-only stream"
  else if s.closed.isSome ∨ id ∈ s.streams then s
  else
    match s.openPeerStreamLocked id with
    | (s, .closed) => s
    | (s, .overLimit) => s.closeWithError quicErrStreamLimit "stream ID beyond MAX_STREAMS"
    | (s, .invalid) => s.closeWithError quicErrStreamState "STREAM frame on a stream the peer cannot send on"
    | (s, .opened) => s.addStream id

def handleResetStream (s : PeerStreams) (id : ℕ) : PeerStreams :=
  if quicStreamIsLocal id ∧ quicStreamIsBidi id = false then
    s.closeWithError quicErrStreamState "RESET_STREAM on a send-only stream"
  else s

def localStreamOpened (s : PeerStreams) (id : ℕ) : Bool := quicStreamIsBidi id = false ∧ id < s.nextUniLocal

def handleStopSending (s : PeerStreams) (id : ℕ) : PeerStreams :=
  if quicStreamIsLocal id then
    if s.localStreamOpened id then s
    else s.closeWithError quicErrStreamState "STOP_SENDING on a stream that was never opened"
  else if quicStreamIsBidi id then s
  else s.closeWithError quicErrStreamState "STOP_SENDING on a receive-only stream"

def grantStreams (s : PeerStreams) (bidi : Bool) (maxStreams : ℕ) : PeerStreams :=
  let r := s.remote bidi
  if maxStreams > r.limit then { s with remote := Function.update s.remote bidi { r with limit := maxStreams } } else s

/-- The counter of retired streams and the credit it gives. -/
def countRetired (s : PeerStreams) (bidi : Bool) : PeerStreams :=
  let r := s.remote bidi
  let retired := r.retired + 1
  let s := { s with remote := Function.update s.remote bidi { r with retired } }
  if bidi = false then s.grantStreams bidi (retired + quicMaxUniStreams)
  else if retired % quicMaxStreamsCreditBatch = 0 then s.grantStreams bidi (retired + quicMaxBidiStreams)
  else s

def retireStream (s : PeerStreams) (id : ℕ) : PeerStreams :=
  if id ∉ s.streams then s
  else
    let s := { s with streams := s.streams.erase id }
    if quicStreamIsLocal id then s
    else { s with finished := s.finished ++ [id] }.countRetired (quicStreamIsBidi id)

def openLocalUniStream (s : PeerStreams) : PeerStreams :=
  if s.closed.isSome then s
  else { s with streams := insert s.nextUniLocal s.streams, nextUniLocal := s.nextUniLocal + 4 }

def startH3 (s : PeerStreams) : PeerStreams :=
  if s.h3Started then s
  else { s with h3Started := true }.openLocalUniStream.openLocalUniStream.openLocalUniStream

def beginGoAway (s : PeerStreams) : PeerStreams :=
  if s.closed.isSome then s else { s with goAwayID := some (s.remote true).next }

/-- A frame for a stream in the map that is no STREAM frame does nothing here; the stream it names
may be retired after it. -/
def step (s : PeerStreams) : PeerStreamEvent → PeerStreams
  | .frame .stream id => s.handleStreamFrameIncoming id
  | .frame .resetStream id => s.handleResetStream id
  | .frame .stopSending id => s.handleStopSending id
  | .frame .maxStreamData _ => s
  | .retire id => s.retireStream id
  | .startH3 => s.startH3
  | .beginGoAway => s.beginGoAway

def run (es : List PeerStreamEvent) : PeerStreams := es.foldl step {}

end PeerStreams

theorem quicStreamIsLocal_iff (id : ℕ) : quicStreamIsLocal id = true ↔ id % 2 = 1 := by
  rw [quicStreamIsLocal, decide_eq_true_iff, Nat.and_one_is_mod]

theorem quicStreamIsBidi_iff (id : ℕ) : quicStreamIsBidi id = true ↔ id % 4 < 2 := by
  have hlow : id &&& 2 = id % 4 &&& 2 := by
    rw [← Nat.and_two_pow_sub_one_eq_mod id 2, Nat.and_assoc]
    rfl
  have hlt : id % 4 < 4 := Nat.mod_lt _ (by decide)
  rw [quicStreamIsBidi, decide_eq_true_iff, hlow]
  generalize id % 4 = n at hlt
  revert n
  decide

def IsPeer (bidi : Bool) (id : ℕ) : Prop := id % 4 = firstID bidi

instance (bidi : Bool) (id : ℕ) : Decidable (IsPeer bidi id) := inferInstanceAs (Decidable (_ = _))

variable {id : ℕ}

theorem isPeer_of_not_local (h : ¬ quicStreamIsLocal id = true) : IsPeer (quicStreamIsBidi id) id := by
  rw [quicStreamIsLocal_iff] at h
  have hbidi := quicStreamIsBidi_iff id
  unfold IsPeer firstID
  split_ifs with hb
  · have := hbidi.mp hb
    omega
  have := mt hbidi.mpr hb
  omega

variable {bidi : Bool}

theorem IsPeer.kind (h : IsPeer bidi id) : quicStreamIsBidi id = bidi := by
  have hbidi := quicStreamIsBidi_iff id
  unfold IsPeer firstID at h
  cases bidi <;> cases hk : quicStreamIsBidi id <;> simp_all

theorem IsPeer.add_four (h : IsPeer bidi id) : IsPeer bidi (id + 4) := by
  unfold IsPeer at h ⊢
  omega

theorem IsPeer.not_local (h : IsPeer bidi id) : ¬ quicStreamIsLocal id = true := by
  rw [quicStreamIsLocal_iff]
  unfold IsPeer firstID at h
  split_ifs at h <;> omega

namespace PeerStreams

structure Inv (s : PeerStreams) : Prop where
  next_mod : ∀ bidi, IsPeer bidi (s.remote bidi).next
  next_le : ∀ bidi, (s.remote bidi).next ≤ 4 * (s.remote bidi).limit + firstID bidi
  limit_le : ∀ bidi, (s.remote bidi).limit ≤ (s.remote bidi).retired + concurrency bidi
  retired_eq : ∀ bidi, (s.remote bidi).retired = (s.finished.filter (IsPeer bidi ·)).length
  nodup : s.opened.Nodup
  below : ∀ bidi, ∀ id ∈ s.opened, IsPeer bidi id → id < (s.remote bidi).next
  explicit : ∀ id ∈ s.opened, id ∉ s.implicitRemote
  implicit_below : ∀ bidi, ∀ id ∈ s.implicitRemote, IsPeer bidi id → id < (s.remote bidi).next
  finished_nodup : s.finished.Nodup
  finished_opened : ∀ id ∈ s.finished, id ∈ s.opened
  live : ∀ bidi, ∀ id ∈ s.streams, IsPeer bidi id → id ∈ s.opened ∧ id ∉ s.finished
  locals : ∀ id ∈ s.streams, quicStreamIsLocal id = true → id ∈ ({3, 7, 11} : Finset ℕ)
  notStarted : s.h3Started = false → s.nextUniLocal = 3
  noOverflow : s.overflowed = false

def livePeers (s : PeerStreams) (bidi : Bool) : Finset ℕ := s.streams.filter (IsPeer bidi ·)

variable {s : PeerStreams} {id : ℕ}

section
variable (h : s.Inv)
include h

theorem Inv.card_opened_le (bidi : Bool) : (s.opened.toFinset.filter (IsPeer bidi ·)).card ≤ (s.remote bidi).limit := by
  have hmaps : Set.MapsTo (· / 4) (s.opened.toFinset.filter (IsPeer bidi ·) : Set ℕ)
      (Finset.range (s.remote bidi).limit : Set ℕ) := by
    intro id hid
    obtain ⟨hid, hpeer⟩ := Finset.mem_filter.mp hid
    have hlt := h.below bidi id (mem_toFinset.mp hid) hpeer
    have hmod := h.next_mod bidi
    have hle := h.next_le bidi
    unfold IsPeer at hmod hpeer
    simp only [Finset.coe_range, Set.mem_Iio]
    omega
  have hinj : Set.InjOn (· / 4) (s.opened.toFinset.filter (IsPeer bidi ·) : Set ℕ) := by
    intro a ha b hb hab
    have hpa : a % 4 = firstID bidi := (Finset.mem_filter.mp ha).2
    have hpb : b % 4 = firstID bidi := (Finset.mem_filter.mp hb).2
    dsimp only at hab
    omega
  have := Finset.card_le_card_of_injOn _ hmaps hinj
  rwa [Finset.card_range] at this

theorem Inv.card_live_add_retired_le (bidi : Bool) :
    (s.livePeers bidi).card + (s.remote bidi).retired ≤ (s.remote bidi).limit := by
  have hdisjoint : Disjoint (s.livePeers bidi) (s.finished.filter (IsPeer bidi ·)).toFinset := by
    rw [Finset.disjoint_left]
    intro id hlive hfin
    obtain ⟨hid, hpeer⟩ := Finset.mem_filter.mp hlive
    exact (h.live bidi id hid hpeer).2 (mem_filter.mp (mem_toFinset.mp hfin)).1
  have hsub : s.livePeers bidi ∪ (s.finished.filter (IsPeer bidi ·)).toFinset ⊆
      s.opened.toFinset.filter (IsPeer bidi ·) := by
    intro id hid
    obtain hid | hid := Finset.mem_union.mp hid
    · obtain ⟨hid, hpeer⟩ := Finset.mem_filter.mp hid
      exact Finset.mem_filter.mpr ⟨mem_toFinset.mpr (h.live bidi id hid hpeer).1, hpeer⟩
    obtain ⟨hid, hpeer⟩ := mem_filter.mp (mem_toFinset.mp hid)
    exact Finset.mem_filter.mpr ⟨mem_toFinset.mpr (h.finished_opened id hid), of_decide_eq_true hpeer⟩
  have hcard := Finset.card_le_card hsub
  rw [Finset.card_union_of_disjoint hdisjoint, toFinset_card_of_nodup (h.finished_nodup.filter _),
    ← h.retired_eq bidi] at hcard
  exact hcard.trans (h.card_opened_le bidi)

theorem Inv.card_livePeers_le (bidi : Bool) : (s.livePeers bidi).card ≤ concurrency bidi := by
  have hcount := h.card_live_add_retired_le bidi
  have hlimit := h.limit_le bidi
  omega

theorem Inv.card_streams_lt : s.streams.card < quicMaxTrackedStreams := by
  have hsub : s.streams ⊆ s.livePeers true ∪ s.livePeers false ∪ {3, 7, 11} := by
    intro id hid
    by_cases hlocal : quicStreamIsLocal id = true
    · exact Finset.mem_union_right _ (h.locals id hid hlocal)
    have hpeer := isPeer_of_not_local hlocal
    refine Finset.mem_union_left _ ?_
    cases hk : quicStreamIsBidi id <;> rw [hk] at hpeer
    · exact Finset.mem_union_right _ (Finset.mem_filter.mpr ⟨hid, hpeer⟩)
    · exact Finset.mem_union_left _ (Finset.mem_filter.mpr ⟨hid, hpeer⟩)
  have hbidi : (s.livePeers true).card ≤ quicMaxBidiStreams := h.card_livePeers_le true
  have huni : (s.livePeers false).card ≤ quicMaxUniStreams := h.card_livePeers_le false
  have hlocal : ({3, 7, 11} : Finset ℕ).card = 3 := rfl
  calc s.streams.card ≤ (s.livePeers true ∪ s.livePeers false ∪ {3, 7, 11}).card := Finset.card_le_card hsub
    _ ≤ (s.livePeers true).card + (s.livePeers false).card + 3 := by
      refine (Finset.card_union_le _ _).trans ?_
      exact Nat.add_le_add_right (Finset.card_union_le _ _) 3
    _ < quicMaxTrackedStreams := by
      unfold quicMaxTrackedStreams
      omega

theorem Inv.closeWithError (code : ℕ) (reason : String) : (s.closeWithError code reason).Inv := by
  unfold PeerStreams.closeWithError
  split_ifs
  · exact h
  · exact { h with live := by simp, locals := by simp }

end

/-- What opening a stream of the peer does to the other fields: its id is of the peer, was not
opened before, and is below the next one. -/
structure Opens (s s' : PeerStreams) (id : ℕ) : Prop where
  inv : s'.Inv
  opened : s'.opened = s.opened
  streams : s'.streams = s.streams
  peer : IsPeer (quicStreamIsBidi id) id
  fresh : id ∉ s'.opened
  below : id < (s'.remote (quicStreamIsBidi id)).next
  explicit : id ∉ s'.implicitRemote

variable {kind : Bool}
open Function

theorem forall_update {p : Bool → RemoteStreams → Prop} {f : Bool → RemoteStreams} {r : RemoteStreams}
    (hr : p kind r) (h : ∀ bidi, p bidi (f bidi)) (bidi : Bool) : p bidi (update f kind r bidi) :=
  (forall_update_iff f p).mpr ⟨hr, fun b _ => h b⟩ bidi

theorem Inv.setRemote (h : s.Inv) {r : RemoteStreams} (hmod : IsPeer kind r.next)
    (hnext : (s.remote kind).next ≤ r.next) (hle : r.next ≤ 4 * r.limit + firstID kind)
    (hlimit : r.limit ≤ r.retired + concurrency kind) (hretired : r.retired = (s.remote kind).retired) :
    Inv { s with remote := update s.remote kind r } :=
  { h with
    next_mod := forall_update (p := fun bidi r => IsPeer bidi r.next) hmod h.next_mod
    next_le := forall_update (p := fun bidi r => r.next ≤ 4 * r.limit + firstID bidi) hle h.next_le
    limit_le := forall_update (p := fun bidi r => r.limit ≤ r.retired + concurrency bidi) hlimit h.limit_le
    retired_eq := forall_update (p := fun bidi r => r.retired = (s.finished.filter (IsPeer bidi ·)).length)
      (hretired.trans (h.retired_eq kind)) h.retired_eq
    below := forall_update (p := fun bidi r => ∀ n ∈ s.opened, IsPeer bidi n → n < r.next)
      (fun n hn hp => (h.below kind n hn hp).trans_le hnext) h.below
    implicit_below := forall_update (p := fun bidi r => ∀ n ∈ s.implicitRemote, IsPeer bidi n → n < r.next)
      (fun n hn hp => (h.implicit_below kind n hn hp).trans_le hnext) h.implicit_below }

theorem Inv.openImplicit (h : s.Inv) (hpeer : IsPeer (quicStreamIsBidi id) id)
    (hid : id ∈ s.implicitRemote) : Opens s { s with implicitRemote := s.implicitRemote.erase id } id where
  inv := { h with
    explicit := fun n hn hmem => h.explicit n hn (Finset.mem_of_mem_erase hmem)
    implicit_below := fun bidi n hn => h.implicit_below bidi n (Finset.mem_of_mem_erase hn) }
  opened := rfl
  streams := rfl
  peer := hpeer
  fresh := fun hmem => h.explicit id hmem hid
  below := h.implicit_below _ id hid hpeer
  explicit := Finset.notMem_erase id _

theorem Inv.openNext (h : s.Inv) (hpeer : IsPeer (quicStreamIsBidi id) id)
    (hnext : (s.remote (quicStreamIsBidi id)).next ≤ id)
    (hlimit : id / 4 < (s.remote (quicStreamIsBidi id)).limit) :
    Opens s { s with
      implicitRemote := s.implicitRemote ∪ (range' (s.remote (quicStreamIsBidi id)).next
        ((id - (s.remote (quicStreamIsBidi id)).next + 3) / 4) 4).toFinset
      remote := update s.remote (quicStreamIsBidi id)
        { s.remote (quicStreamIsBidi id) with next := id + 4 } } id := by
  generalize hkind : quicStreamIsBidi id = kind at hpeer hnext hlimit ⊢
  have hmod := h.next_mod kind
  have hfresh : id ∉ s.opened := fun hmem => not_lt.mpr hnext (h.below kind id hmem hpeer)
  -- The skipped ids are of the same kind, at or above the next one and below `id`.
  have hskipped : ∀ n ∈ range' (s.remote kind).next ((id - (s.remote kind).next + 3) / 4) 4,
      IsPeer kind n ∧ (s.remote kind).next ≤ n ∧ n < id := by
    intro n hn
    obtain ⟨i, _, rfl⟩ := mem_range'.mp hn
    unfold IsPeer at hmod hpeer ⊢
    omega
  have hset : Inv { s with remote := update s.remote kind { s.remote kind with next := id + 4 } } := by
    refine h.setRemote hpeer.add_four ?_ ?_ (h.limit_le kind) rfl
    · dsimp only
      omega
    unfold IsPeer at hpeer
    dsimp only
    omega
  have hinv : Inv { s with
      implicitRemote := s.implicitRemote ∪ (range' (s.remote kind).next
        ((id - (s.remote kind).next + 3) / 4) 4).toFinset
      remote := update s.remote kind { s.remote kind with next := id + 4 } } := { hset with
    explicit := by
      intro n hn hmem
      obtain hmem | hmem := Finset.mem_union.mp hmem
      · exact h.explicit n hn hmem
      obtain ⟨hp, hle, -⟩ := hskipped n (mem_toFinset.mp hmem)
      exact not_lt.mpr hle (h.below kind n hn hp)
    implicit_below := by
      intro bidi n hn hp
      obtain hn | hn := Finset.mem_union.mp hn
      · exact hset.implicit_below bidi n hn hp
      obtain ⟨hpk, -, _⟩ := hskipped n (mem_toFinset.mp hn)
      rw [hp.kind.symm.trans hpk.kind]
      simp only [update_self]
      omega }
  refine ⟨hinv, rfl, rfl, hkind ▸ hpeer, hfresh, ?_, ?_⟩
  · simp only [hkind, update_self]
    omega
  intro hmem
  obtain hmem | hmem := Finset.mem_union.mp hmem
  · exact not_lt.mpr hnext (h.implicit_below kind id hmem hpeer)
  · exact lt_irrefl _ (hskipped id (mem_toFinset.mp hmem)).2.2

theorem openPeerStreamLocked_cases (h : s.Inv) (id : ℕ) :
    (quicStreamIsLocal id = true ∧ s.openPeerStreamLocked id = (s, .invalid)) ∨
      (¬ quicStreamIsLocal id = true ∧ id < (s.remote (quicStreamIsBidi id)).next ∧
        s.openPeerStreamLocked id = (s, .closed)) ∨
      (¬ quicStreamIsLocal id = true ∧ (s.remote (quicStreamIsBidi id)).limit ≤ id / 4 ∧
        s.openPeerStreamLocked id = (s, .overLimit)) ∨
      ∃ s', s.openPeerStreamLocked id = (s', .opened) ∧ Opens s s' id ∧
        id / 4 < (s.remote (quicStreamIsBidi id)).limit := by
  unfold openPeerStreamLocked
  by_cases hlocal : quicStreamIsLocal id = true
  · exact .inl ⟨hlocal, if_pos hlocal⟩
  have hpeer := isPeer_of_not_local hlocal
  rw [if_neg hlocal]
  by_cases hnext : id < (s.remote (quicStreamIsBidi id)).next
  · rw [if_pos hnext]
    by_cases himplicit : id ∈ s.implicitRemote
    · have hle := h.next_le (quicStreamIsBidi id)
      have hmod := h.next_mod (quicStreamIsBidi id)
      refine .inr (.inr (.inr ⟨_, if_pos himplicit, h.openImplicit hpeer himplicit, ?_⟩))
      unfold IsPeer at hpeer hmod
      omega
    · exact .inr (.inl ⟨hlocal, hnext, if_neg himplicit⟩)
  rw [if_neg hnext, Nat.shiftRight_eq_div_pow]
  by_cases hlimit : id / 2 ^ 2 ≥ (s.remote (quicStreamIsBidi id)).limit
  · exact .inr (.inr (.inl ⟨hlocal, hlimit, if_pos hlimit⟩))
  exact .inr (.inr (.inr ⟨_, if_neg hlimit, h.openNext hpeer (Nat.le_of_not_lt hnext) (Nat.lt_of_not_le hlimit),
    Nat.lt_of_not_le hlimit⟩))

theorem Opens.addStream {s' : PeerStreams} (h : Opens s s' id) : (s'.addStream id).Inv := by
  have hinv := h.inv
  unfold PeerStreams.addStream
  split_ifs with hgoaway hfull
  · exact hinv
  · exact absurd hinv.card_streams_lt (not_lt.mpr hfull)
  exact { hinv with
    nodup := nodup_append.mpr ⟨hinv.nodup, nodup_singleton id, fun a ha b hb hab =>
      h.fresh (by rwa [← mem_singleton.mp hb, ← hab])⟩
    below := fun bidi n hn hp => by
      obtain hn | hn := mem_append.mp hn
      · exact hinv.below bidi n hn hp
      rw [mem_singleton.mp hn] at hp ⊢
      rw [← hp.kind]
      exact h.below
    explicit := forall_mem_append.mpr ⟨hinv.explicit, forall_mem_singleton.mpr h.explicit⟩
    finished_opened := fun n hn => mem_append_left _ (hinv.finished_opened n hn)
    live := fun bidi n hn hp => by
      obtain rfl | hn := Finset.mem_insert.mp hn
      · exact ⟨mem_append_right _ mem_cons_self, fun hfin => h.fresh (hinv.finished_opened n hfin)⟩
      obtain ⟨hopen, hfin⟩ := hinv.live bidi n hn hp
      exact ⟨mem_append_left _ hopen, hfin⟩
    locals := fun n hn hl => by
      obtain rfl | hn := Finset.mem_insert.mp hn
      · exact absurd hl h.peer.not_local
      · exact hinv.locals n hn hl }

section
variable (h : s.Inv)
include h

theorem Inv.handleStreamFrameIncoming (id : ℕ) : (s.handleStreamFrameIncoming id).Inv := by
  unfold PeerStreams.handleStreamFrameIncoming
  split_ifs
  · exact h.closeWithError _ _
  · exact h
  obtain ⟨-, heq⟩ | ⟨-, -, heq⟩ | ⟨-, -, heq⟩ | ⟨_, heq, hopens, -⟩ := openPeerStreamLocked_cases h id
  · rw [heq]
    exact h.closeWithError _ _
  · rw [heq]
    exact h
  · rw [heq]
    exact h.closeWithError _ _
  rw [heq]
  exact hopens.addStream

theorem Inv.grantStreams (bidi : Bool) {maxStreams : ℕ}
    (hmax : maxStreams ≤ (s.remote bidi).retired + concurrency bidi) : (s.grantStreams bidi maxStreams).Inv := by
  unfold PeerStreams.grantStreams
  dsimp only
  split_ifs with hgrew
  · refine h.setRemote (h.next_mod bidi) (le_refl _) ?_ hmax rfl
    have := h.next_le bidi
    dsimp only
    omega
  · exact h

open Function

theorem Inv.finish (hid : id ∈ s.streams) (hpeer : IsPeer kind id) : Inv { s with
      streams := s.streams.erase id
      finished := s.finished ++ [id]
      remote := update s.remote kind { s.remote kind with retired := (s.remote kind).retired + 1 } } := by
  obtain ⟨hopened, hfinished⟩ := h.live kind id hid hpeer
  have hcount (bidi : Bool) : ((s.finished ++ [id]).filter (IsPeer bidi ·)).length =
      (s.finished.filter (IsPeer bidi ·)).length + if bidi = kind then 1 else 0 := by
    rw [filter_append, length_append]
    by_cases hb : bidi = kind
    · rw [hb, if_pos rfl, filter_cons_of_pos (by simpa using hpeer)]
      rfl
    have hother : ¬ IsPeer bidi id := fun hp => hb (hp.kind.symm.trans hpeer.kind)
    rw [if_neg hb, filter_cons_of_neg (by simpa using hother)]
    rfl
  exact { h with
    next_mod := forall_update (p := fun bidi r => IsPeer bidi r.next) (h.next_mod kind) h.next_mod
    next_le := forall_update (p := fun bidi r => r.next ≤ 4 * r.limit + firstID bidi) (h.next_le kind) h.next_le
    limit_le := forall_update (p := fun bidi r => r.limit ≤ r.retired + concurrency bidi)
      (by have := h.limit_le kind; dsimp only; omega) h.limit_le
    retired_eq := by
      intro bidi
      simp only [hcount]
      by_cases hb : bidi = kind
      · rw [hb, if_pos rfl, update_self, ← h.retired_eq kind]
      · rw [if_neg hb, update_of_ne hb, add_zero, h.retired_eq bidi]
    below := forall_update (p := fun bidi r => ∀ n ∈ s.opened, IsPeer bidi n → n < r.next) (h.below kind) h.below
    implicit_below := forall_update (p := fun bidi r => ∀ n ∈ s.implicitRemote, IsPeer bidi n → n < r.next)
      (h.implicit_below kind) h.implicit_below
    finished_nodup := nodup_append.mpr ⟨h.finished_nodup, nodup_singleton id, fun a ha b hb hab =>
      hfinished (by rwa [← mem_singleton.mp hb, ← hab])⟩
    finished_opened := forall_mem_append.mpr ⟨h.finished_opened, forall_mem_singleton.mpr hopened⟩
    live := fun bidi n hn hp => by
      obtain ⟨hne, hn⟩ := Finset.mem_erase.mp hn
      obtain ⟨hopen, hfin⟩ := h.live bidi n hn hp
      refine ⟨hopen, fun hmem => ?_⟩
      obtain hmem | hmem := mem_append.mp hmem
      · exact hfin hmem
      · exact hne (mem_singleton.mp hmem)
    locals := fun n hn hl => h.locals n (Finset.mem_of_mem_erase hn) hl }

theorem Inv.retireStream (id : ℕ) : (s.retireStream id).Inv := by
  unfold PeerStreams.retireStream
  by_cases hid : id ∈ s.streams
  · split_ifs with hlocal
    · exact { h with
        live := fun bidi n hn hp => h.live bidi n (Finset.mem_of_mem_erase hn) hp
        locals := fun n hn hl => h.locals n (Finset.mem_of_mem_erase hn) hl }
    have hfinish := h.finish hid (isPeer_of_not_local hlocal)
    unfold countRetired
    generalize quicStreamIsBidi id = kind at hfinish ⊢
    cases kind with
    | false =>
      refine hfinish.grantStreams false ?_
      exact le_refl _
    | true =>
      rw [if_neg (by decide)]
      split_ifs
      · refine hfinish.grantStreams true ?_
        exact le_refl _
      · exact hfinish
  rw [if_pos hid]
  exact h

theorem Inv.startH3 : s.startH3.Inv := by
  unfold PeerStreams.startH3
  split_ifs with hstarted
  · exact h
  have hlocal := h.notStarted (Bool.eq_false_of_not_eq_true hstarted)
  unfold openLocalUniStream
  by_cases hclosed : s.closed.isSome = true
  · simp only [hclosed, if_true]
    exact { h with notStarted := nofun }
  simp only [hclosed, if_false, hlocal, Bool.false_eq_true]
  have hnew : ∀ n ∈ insert 11 (insert 7 (insert 3 s.streams)), n ∈ ({3, 7, 11} : Finset ℕ) ∨ n ∈ s.streams := by
    intro n hn
    simp only [Finset.mem_insert, Finset.mem_singleton] at hn ⊢
    tauto
  exact { h with
    live := fun bidi n hn hp => by
      obtain hn | hn := hnew n hn
      · exact absurd ((by decide : ∀ n ∈ ({3, 7, 11} : Finset ℕ), quicStreamIsLocal n = true) n hn) hp.not_local
      · exact h.live bidi n hn hp
    locals := fun n hn hl => by
      obtain hn | hn := hnew n hn
      · exact hn
      · exact h.locals n hn hl
    notStarted := nofun }

theorem Inv.step (e : PeerStreamEvent) : (s.step e).Inv := by
  cases e with
  | frame kind id =>
    cases kind with
    | stream => exact h.handleStreamFrameIncoming id
    | resetStream =>
      change (s.handleResetStream id).Inv
      unfold handleResetStream
      split_ifs
      · exact h.closeWithError _ _
      · exact h
    | stopSending =>
      change (s.handleStopSending id).Inv
      unfold handleStopSending
      split_ifs
      · exact h
      · exact h.closeWithError _ _
      · exact h
      · exact h.closeWithError _ _
    | maxStreamData => exact h
  | retire id => exact h.retireStream id
  | startH3 => exact h.startH3
  | beginGoAway =>
    change s.beginGoAway.Inv
    unfold PeerStreams.beginGoAway
    split_ifs
    · exact h
    · exact { h with }

end

theorem inv_initial : Inv {} where
  next_mod := by decide
  next_le := by decide
  limit_le := by decide
  retired_eq := fun _ => rfl
  nodup := nodup_nil
  below := fun _ _ h => nomatch h
  explicit := nofun
  implicit_below := fun _ _ h => nomatch h
  finished_nodup := nodup_nil
  finished_opened := nofun
  live := fun _ _ h => nomatch h
  locals := fun _ h => nomatch h
  notStarted := fun _ => rfl
  noOverflow := rfl

theorem inv_run (es : List PeerStreamEvent) : (run es).Inv := by
  have hfrom (s : PeerStreams) (h : s.Inv) : (es.foldl PeerStreams.step s).Inv := by
    induction es generalizing s with
    | nil => exact h
    | cons e es ih => exact ih _ (h.step e)
  exact hfrom {} inv_initial

theorem closeWithError_streams (s : PeerStreams) (code : ℕ) (reason : String) :
    (s.closeWithError code reason).opened = s.opened ∧ (s.closeWithError code reason).streams ⊆ s.streams := by
  unfold closeWithError
  split_ifs
  · exact ⟨rfl, Finset.Subset.refl _⟩
  · exact ⟨rfl, Finset.empty_subset _⟩

theorem step_frame_other {kind : StreamFrameKind} (hkind : kind ≠ .stream) (s : PeerStreams) (id : ℕ) :
    (s.step (.frame kind id)).opened = s.opened ∧ (s.step (.frame kind id)).streams ⊆ s.streams := by
  cases kind with
  | stream => exact absurd rfl hkind
  | resetStream =>
    change (s.handleResetStream id).opened = s.opened ∧ (s.handleResetStream id).streams ⊆ s.streams
    unfold handleResetStream
    split_ifs
    · exact s.closeWithError_streams _ _
    · exact ⟨rfl, Finset.Subset.refl _⟩
  | stopSending =>
    change (s.handleStopSending id).opened = s.opened ∧ (s.handleStopSending id).streams ⊆ s.streams
    unfold handleStopSending
    split_ifs
    · exact ⟨rfl, Finset.Subset.refl _⟩
    · exact s.closeWithError_streams _ _
    · exact ⟨rfl, Finset.Subset.refl _⟩
    · exact s.closeWithError_streams _ _
  | maxStreamData => exact ⟨rfl, Finset.Subset.refl _⟩

theorem Inv.step_finished (h : s.Inv) (kind : StreamFrameKind) (hid : id ∈ s.finished) :
    (s.step (.frame kind id)).opened = s.opened ∧ (s.step (.frame kind id)).streams ⊆ s.streams := by
  by_cases hkind : kind = .stream
  · rw [hkind]
    change (s.handleStreamFrameIncoming id).opened = s.opened ∧ (s.handleStreamFrameIncoming id).streams ⊆ s.streams
    unfold PeerStreams.handleStreamFrameIncoming
    split_ifs
    · exact s.closeWithError_streams _ _
    · exact ⟨rfl, Finset.Subset.refl _⟩
    obtain ⟨-, heq⟩ | ⟨-, -, heq⟩ | ⟨-, -, heq⟩ | ⟨_, -, hopens, -⟩ := openPeerStreamLocked_cases h id
    · rw [heq]
      exact s.closeWithError_streams _ _
    · rw [heq]
      exact ⟨rfl, Finset.Subset.refl _⟩
    · rw [heq]
      exact s.closeWithError_streams _ _
    · exact absurd (h.finished_opened id hid) (hopens.opened ▸ hopens.fresh)
  · exact step_frame_other hkind s id

theorem closeWithError_closed (h : s.closed = none) (code : ℕ) (reason : String) :
    (s.closeWithError code reason).closed = some (code, reason) := by
  rw [closeWithError, if_neg (by simp [h])]

theorem Inv.step_overLimit (h : s.Inv) {bidi : Bool} (hpeer : IsPeer bidi id)
    (hlimit : (s.remote bidi).limit ≤ id / 4) (hopen : s.closed = none) (kind : StreamFrameKind) :
    (s.step (.frame kind id)).closed = some (quicErrStreamLimit, "stream ID beyond MAX_STREAMS") ↔ kind = .stream := by
  have hlocal := hpeer.not_local
  cases kind with
  | stream =>
    have hnew : id ∉ s.streams := by
      intro hid
      have hlt := h.below bidi id (h.live bidi id hid hpeer).1 hpeer
      have hmod := h.next_mod bidi
      have hle := h.next_le bidi
      unfold IsPeer at hmod hpeer
      omega
    refine iff_of_true ?_ rfl
    change (s.handleStreamFrameIncoming id).closed = _
    rw [PeerStreams.handleStreamFrameIncoming, if_neg (fun hl => hlocal hl.1), if_neg (by simp [hopen, hnew])]
    obtain ⟨hl, -⟩ | ⟨-, hlt, -⟩ | ⟨-, -, heq⟩ | ⟨_, -, -, hlt⟩ := openPeerStreamLocked_cases h id
    · exact absurd hl hlocal
    · rw [hpeer.kind] at hlt
      have hmod := h.next_mod bidi
      have hle := h.next_le bidi
      unfold IsPeer at hmod hpeer
      omega
    · rw [heq]
      exact closeWithError_closed hopen _ _
    rw [hpeer.kind] at hlt
    omega
  | resetStream =>
    refine iff_of_false ?_ (by decide)
    change (s.handleResetStream id).closed ≠ _
    rw [handleResetStream, if_neg (fun hl => hlocal hl.1), hopen]
    exact nofun
  | stopSending =>
    refine iff_of_false ?_ (by decide)
    change (s.handleStopSending id).closed ≠ _
    rw [handleStopSending, if_neg hlocal]
    split_ifs
    · rw [hopen]
      exact nofun
    rw [closeWithError_closed hopen]
    decide
  | maxStreamData =>
    refine iff_of_false ?_ (by decide)
    change s.closed ≠ _
    rw [hopen]
    exact nofun

/-- After any events no stream of the peer was opened twice or past the limit, retired streams stay
closed, and a frame for an id beyond the limit is an error exactly if it is a STREAM frame. -/
theorem peer_streams_opened_once (es : List PeerStreamEvent) : (run es).opened.Nodup ∧
      (∀ kind, ∀ id ∈ (run es).finished, ((run es).step (.frame kind id)).opened = (run es).opened ∧
        ((run es).step (.frame kind id)).streams ⊆ (run es).streams) ∧
      (∀ bidi, ((run es).livePeers bidi).card ≤ concurrency bidi) ∧
      (run es).overflowed = false ∧
      ∀ kind bidi id, IsPeer bidi id → ((run es).remote bidi).limit ≤ id / 4 → (run es).closed = none →
        (((run es).step (.frame kind id)).closed = some (quicErrStreamLimit, "stream ID beyond MAX_STREAMS") ↔
          kind = .stream) := by
  have h := inv_run es
  exact ⟨h.nodup, fun kind id hid => h.step_finished kind hid, h.card_livePeers_le, h.noOverflow,
    fun kind bidi id hpeer hlimit hopen => h.step_overLimit hpeer hlimit hopen kind⟩

theorem peer_streams_opened_once_retired :
    let s := run [.frame .stream 4, .frame .stream 0, .retire 0]
    s.opened = [4, 0] ∧ (s.step (.frame .stream 0)).opened = [4, 0] ∧
      (s.step (.frame .stream 1028)).closed = some (quicErrStreamLimit, "stream ID beyond MAX_STREAMS") := by
  have h := peer_streams_opened_once [.frame .stream 4, .frame .stream 0, .retire 0]
  exact ⟨by decide, (h.2.1 .stream 0 (by decide)).1,
    (h.2.2.2.2 .stream true 1028 rfl (by decide) (by decide)).mpr rfl⟩

theorem reset_beyond_limit_ignored : IsPeer true 1024 ∧ (({} : PeerStreams).remote true).limit ≤ 1024 / 4 ∧
      (({} : PeerStreams).step (.frame .resetStream 1024)).closed = none := by
  decide

end PeerStreams
end AlosHttp.Quic

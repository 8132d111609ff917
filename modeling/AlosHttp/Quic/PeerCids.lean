import AlosHttp.Core.Utils

/-! The connection ids that the peer gave the server: stored from NEW_CONNECTION_ID frames, retired
when the peer asks for it and when the path changes. -/
namespace AlosHttp.Quic
open List

def quicLocalActiveCIDLimit : ℕ := 2
def quicMaxCIDLen : ℕ := 20

def quicErrFrameEncoding : ℕ := 0x07
def quicErrConnIDLimit : ℕ := 0x09
def quicErrProtocolViolation : ℕ := 0x0a

structure QuicPeerCID where
  seq : ℕ
  cid : Bytes
  token : Bytes
  deriving DecidableEq

structure QuicNewConnIDFrame where
  seq : ℕ
  retirePT : ℕ
  connID : Bytes
  resetToken : Bytes
  deriving DecidableEq

/-- The part of the connection that deals with the peer's ids. `retired` are the RETIRE_CONNECTION_ID
frames sent, in their order. -/
structure PeerCids where
  dstConnID : Bytes
  dstCIDSeq : ℕ := 0
  peerCIDs : List QuicPeerCID := []
  peerCIDsInit : Bool := false
  peerRetirePT : ℕ := 0
  retired : List ℕ := []
  closed : Option (ℕ × String) := none
  deriving DecidableEq

def lowestSeq : List QuicPeerCID → Option QuicPeerCID
  | [] => none
  | p :: ps =>
    match lowestSeq ps with
    | none => some p
    | some q => if q.seq < p.seq then some q else some p

def QuicPeerCID.sameAs (p : QuicPeerCID) (f : QuicNewConnIDFrame) : Bool :=
  p.cid = f.connID ∧ (p.seq = 0 ∨ p.token = f.resetToken)

namespace PeerCids

def closeWithError (s : PeerCids) (code : ℕ) (reason : String) : PeerCids :=
  if s.closed.isSome then s else { s with closed := some (code, reason) }

def sendRetire (s : PeerCids) (seqs : List ℕ) : PeerCids := { s with retired := s.retired ++ seqs }

def switchTo (s : PeerCids) : Option QuicPeerCID → PeerCids
  | none => s
  | some next => { s with dstConnID := next.cid, dstCIDSeq := next.seq }

/-- The id from the handshake gets its entry with the first frame. -/
def initPeerCIDs (s : PeerCids) : PeerCids :=
  if s.peerCIDsInit then s
  else { s with peerCIDs := s.peerCIDs ++ [⟨0, s.dstConnID, []⟩], peerCIDsInit := true }

/-- The second half of `handlePeerNewConnID`, for a sequence number that is not stored. -/
def storePeerCID (s : PeerCids) (f : QuicNewConnIDFrame) : PeerCids :=
  let cids := s.peerCIDs ++ [⟨f.seq, f.connID, f.resetToken⟩]
  let raised : Bool := f.retirePT > s.peerRetirePT
  let kept := if raised then cids.filter fun p => f.retirePT ≤ p.seq else cids
  let gone := if raised then (cids.filter fun p => p.seq < f.retirePT).map (·.seq) else []
  let next := if raised ∧ s.dstCIDSeq < f.retirePT then lowestSeq kept else none
  let s := { s with peerCIDs := kept, peerRetirePT := if raised then f.retirePT else s.peerRetirePT }
  if kept.length > quicLocalActiveCIDLimit then
    s.closeWithError quicErrConnIDLimit "peer issued more connection IDs than active_connection_id_limit"
  else (s.switchTo next).sendRetire gone

def handlePeerNewConnID (s : PeerCids) (f : QuicNewConnIDFrame) : PeerCids :=
  if f.connID = [] ∨ f.connID.length > quicMaxCIDLen ∨ f.retirePT > f.seq then
    s.closeWithError quicErrFrameEncoding "malformed NEW_CONNECTION_ID"
  else if s.dstConnID = [] then
    s.closeWithError quicErrProtocolViolation "NEW_CONNECTION_ID on a zero-length connection ID"
  else
    let s := s.initPeerCIDs
    if f.seq < s.peerRetirePT then s.sendRetire [f.seq]
    else
      match s.peerCIDs.find? (·.seq = f.seq) with
      | some p =>
        if p.sameAs f then s
        else s.closeWithError quicErrProtocolViolation "NEW_CONNECTION_ID reuses a sequence number"
      | none => s.storePeerCID f

def useFreshPeerCID (s : PeerCids) : PeerCids :=
  match lowestSeq (s.peerCIDs.filter fun p => p.seq ≠ s.dstCIDSeq) with
  | none => s
  | some next =>
    let kept := s.peerCIDs.filter fun p => p.seq ≠ s.dstCIDSeq
    ({ s with peerCIDs := kept }.switchTo (some next)).sendRetire [s.dstCIDSeq]

end PeerCids

inductive CidEvent
  | newConnID (f : QuicNewConnIDFrame)
  /-- The peer moved to a new path. -/
  | pathChange
  deriving DecidableEq

namespace PeerCids

def step (s : PeerCids) : CidEvent → PeerCids
  | .newConnID f => s.handlePeerNewConnID f
  | .pathChange => s.useFreshPeerCID

def run (dstConnID : Bytes) (es : List CidEvent) : PeerCids := es.foldl step { dstConnID }

/-- The event is no NEW_CONNECTION_ID for a sequence number that the server has retired on a path
change and the peer's retire-prior-to value does not cover. -/
def NotRelearned (s : PeerCids) : CidEvent → Prop
  | .newConnID f => f.seq ∈ s.retired → f.seq < s.peerRetirePT
  | .pathChange => True

instance (s : PeerCids) (e : CidEvent) : Decidable (s.NotRelearned e) := by
  cases e <;> unfold NotRelearned <;> infer_instance

def AllNotRelearned : PeerCids → List CidEvent → Prop
  | _, [] => True
  | s, e :: es => s.NotRelearned e ∧ AllNotRelearned (s.step e) es

structure Inv (s : PeerCids) : Prop where
  unused : s.peerCIDsInit = false → s.peerCIDs = [] ∧ s.dstCIDSeq = 0 ∧ s.peerRetirePT = 0 ∧ s.retired = []
  active : s.peerCIDsInit = true → s.dstConnID ≠ [] ∧ ∃ p ∈ s.peerCIDs, p.seq = s.dstCIDSeq
  ne_nil : ∀ p ∈ s.peerCIDs, p.cid ≠ []
  above : ∀ p ∈ s.peerCIDs, s.peerRetirePT ≤ p.seq
  retired : ∀ n ∈ s.retired, ∀ p ∈ s.peerCIDs, p.seq ≠ n
  limit : s.peerCIDs.length ≤ quicLocalActiveCIDLimit

end PeerCids

theorem lowestSeq_mem {ps : List QuicPeerCID} {p : QuicPeerCID} (h : lowestSeq ps = some p) : p ∈ ps := by
  induction ps generalizing p with
  | nil => cases h
  | cons q ps ih =>
    rw [lowestSeq] at h
    split at h
    case h_1 =>
      cases h
      exact mem_cons_self
    case h_2 r hr =>
      split_ifs at h
      · cases h
        exact mem_cons_of_mem q (ih hr)
      cases h
      exact mem_cons_self

theorem lowestSeq_ne_none {ps : List QuicPeerCID} {p : QuicPeerCID} (h : p ∈ ps) : ∃ q, lowestSeq ps = some q := by
  rcases ps with _ | ⟨q, ps⟩
  · cases h
  rw [lowestSeq]
  split
  · exact ⟨q, rfl⟩
  split_ifs
  · exact ⟨_, rfl⟩
  · exact ⟨q, rfl⟩

namespace PeerCids
variable {s : PeerCids} {f : QuicNewConnIDFrame}

theorem Inv.initPeerCIDs (h : s.Inv) (hdst : s.dstConnID ≠ []) : s.initPeerCIDs.Inv := by
  unfold PeerCids.initPeerCIDs
  split_ifs with hinit
  · exact h
  obtain ⟨hcids, hseq, hpt, hret⟩ := h.unused (Bool.eq_false_of_not_eq_true hinit)
  refine ⟨nofun, fun _ => ⟨hdst, ?_⟩, ?_, ?_, ?_, ?_⟩
  · exact ⟨_, mem_append_right _ mem_cons_self, hseq.symm⟩
  · simpa [hcids] using hdst
  · simp [hcids, hpt]
  · simp [hret]
  · simp [hcids, quicLocalActiveCIDLimit]

@[simp] theorem closeWithError_closed (s : PeerCids) (code : ℕ) (reason : String) :
    (s.closeWithError code reason).closed ≠ none := by
  unfold closeWithError
  split_ifs with h
  · exact Option.isSome_iff_ne_none.mp h
  · exact nofun

theorem inv_retirePriorTo {cids : List QuicPeerCID} (hne : ∀ p ∈ cids, p.cid ≠ [])
    (hfresh : ∀ n ∈ s.retired, ∀ p ∈ cids, p.seq ≠ n) {retirePT : ℕ} (hsome : ∃ p ∈ cids, retirePT ≤ p.seq)
    (hactive : s.dstConnID ≠ [] ∧ ∃ p ∈ cids, p.seq = s.dstCIDSeq) (hinit : s.peerCIDsInit = true)
    (hlimit : (cids.filter fun p => retirePT ≤ p.seq).length ≤ quicLocalActiveCIDLimit) :
    Inv (sendRetire (switchTo { s with peerCIDs := cids.filter fun p => retirePT ≤ p.seq, peerRetirePT := retirePT }
      (if s.dstCIDSeq < retirePT then lowestSeq (cids.filter fun p => retirePT ≤ p.seq) else none))
      ((cids.filter fun p => p.seq < retirePT).map (·.seq))) := by
  have hkept : ∀ p ∈ cids.filter (fun p => retirePT ≤ p.seq), p ∈ cids ∧ retirePT ≤ p.seq := by
    intro p hp
    simpa using mem_filter.mp hp
  have hgone : ∀ n ∈ s.retired ++ (cids.filter fun p => p.seq < retirePT).map QuicPeerCID.seq,
      ∀ p ∈ cids.filter (fun p => retirePT ≤ p.seq), p.seq ≠ n := by
    intro n hn p hp
    obtain ⟨hp, _⟩ := hkept p hp
    obtain hn | hn := mem_append.mp hn
    · exact hfresh n hn p hp
    obtain ⟨q, hq, rfl⟩ := mem_map.mp hn
    have hlt : q.seq < retirePT := by simpa using (mem_filter.mp hq).2
    omega
  by_cases hdst : s.dstCIDSeq < retirePT
  · obtain ⟨p, hp, hple⟩ := hsome
    obtain ⟨next, hnext⟩ := lowestSeq_ne_none (mem_filter.mpr ⟨hp, by simpa using hple⟩ :
      p ∈ cids.filter fun p => retirePT ≤ p.seq)
    have hmem := lowestSeq_mem hnext
    rw [if_pos hdst, hnext]
    exact ⟨fun hinit' => absurd (hinit.symm.trans hinit') (by decide),
      fun _ => ⟨hne next (hkept next hmem).1, next, hmem, rfl⟩, fun p hp => hne p (hkept p hp).1,
      fun p hp => (hkept p hp).2, hgone, hlimit⟩
  obtain ⟨hne', p, hp, hseq⟩ := hactive
  rw [if_neg hdst]
  refine ⟨fun hinit' => absurd (hinit.symm.trans hinit') (by decide), fun _ => ⟨hne', p, ?_, hseq⟩,
    fun p hp => hne p (hkept p hp).1, fun p hp => (hkept p hp).2, hgone, hlimit⟩
  exact mem_filter.mpr ⟨hp, by simp; omega⟩

theorem Inv.storePeerCID (h : s.Inv) (hinit : s.peerCIDsInit = true)
    (hseq : s.peerRetirePT ≤ f.seq) (hpt : f.retirePT ≤ f.seq) (hcid : f.connID ≠ []) (hfresh : f.seq ∉ s.retired)
    (hopen : (s.storePeerCID f).closed = none) : (s.storePeerCID f).Inv := by
  have hne : ∀ p ∈ s.peerCIDs ++ [⟨f.seq, f.connID, f.resetToken⟩], p.cid ≠ [] :=
    forall_mem_append.mpr ⟨h.ne_nil, forall_mem_singleton.mpr hcid⟩
  have hret : ∀ n ∈ s.retired, ∀ p ∈ s.peerCIDs ++ [⟨f.seq, f.connID, f.resetToken⟩], p.seq ≠ n := by
    intro n hn
    refine forall_mem_append.mpr ⟨h.retired n hn, forall_mem_singleton.mpr fun heq => ?_⟩
    dsimp only at heq
    exact hfresh (heq ▸ hn)
  have hactive : s.dstConnID ≠ [] ∧ ∃ p ∈ s.peerCIDs ++ [⟨f.seq, f.connID, f.resetToken⟩], p.seq = s.dstCIDSeq := by
    obtain ⟨hdst, p, hp, hpseq⟩ := h.active hinit
    exact ⟨hdst, p, mem_append_left _ hp, hpseq⟩
  unfold PeerCids.storePeerCID at hopen ⊢
  have hlast : (⟨f.seq, f.connID, f.resetToken⟩ : QuicPeerCID) ∈ s.peerCIDs ++ [⟨f.seq, f.connID, f.resetToken⟩] :=
    mem_append_right _ mem_cons_self
  have habove : ∀ p ∈ s.peerCIDs ++ [⟨f.seq, f.connID, f.resetToken⟩], s.peerRetirePT ≤ p.seq :=
    forall_mem_append.mpr ⟨h.above, forall_mem_singleton.mpr hseq⟩
  generalize s.peerCIDs ++ [⟨f.seq, f.connID, f.resetToken⟩] = cids at hne hret hactive hopen hlast habove ⊢
  by_cases hraised : f.retirePT > s.peerRetirePT
  · simp only [hraised, decide_true, if_true, true_and] at hopen ⊢
    by_cases hover : (cids.filter fun p => f.retirePT ≤ p.seq).length > quicLocalActiveCIDLimit
    · rw [if_pos hover] at hopen
      exact absurd hopen (closeWithError_closed _ _ _)
    rw [if_neg hover]
    exact inv_retirePriorTo hne hret ⟨_, hlast, hpt⟩ hactive hinit (Nat.le_of_not_gt hover)
  simp only [hraised, decide_false, Bool.false_eq_true, if_false, false_and] at hopen ⊢
  by_cases hover : cids.length > quicLocalActiveCIDLimit
  · rw [if_pos hover] at hopen
    exact absurd hopen (closeWithError_closed _ _ _)
  rw [if_neg hover]
  refine ⟨fun hinit' => absurd (hinit.symm.trans hinit') (by decide), fun _ => hactive, hne, habove, ?_,
    Nat.le_of_not_gt hover⟩
  simpa [sendRetire, switchTo] using hret

def WellFormed (f : QuicNewConnIDFrame) : Prop :=
  f.connID ≠ [] ∧ f.connID.length ≤ quicMaxCIDLen ∧ f.retirePT ≤ f.seq

theorem wellFormed_of_open (hopen : (s.handlePeerNewConnID f).closed = none) : WellFormed f ∧ s.dstConnID ≠ [] := by
  unfold handlePeerNewConnID at hopen
  split_ifs at hopen with hbad hdst
  · exact absurd hopen (closeWithError_closed _ _ _)
  · exact absurd hopen (closeWithError_closed _ _ _)
  rw [not_or, not_or] at hbad
  exact ⟨⟨hbad.1, Nat.le_of_not_lt hbad.2.1, Nat.le_of_not_lt hbad.2.2⟩, hdst⟩

theorem handlePeerNewConnID_eq (hf : WellFormed f) (hdst : s.dstConnID ≠ []) : s.handlePeerNewConnID f =
      if f.seq < s.initPeerCIDs.peerRetirePT then s.initPeerCIDs.sendRetire [f.seq]
      else
        match s.initPeerCIDs.peerCIDs.find? (·.seq = f.seq) with
        | some p =>
          if p.sameAs f then s.initPeerCIDs
          else s.initPeerCIDs.closeWithError quicErrProtocolViolation "NEW_CONNECTION_ID reuses a sequence number"
        | none => s.initPeerCIDs.storePeerCID f := by
  obtain ⟨hcid, hlen, hpt⟩ := hf
  have hbad : ¬ (f.connID = [] ∨ f.connID.length > quicMaxCIDLen ∨ f.retirePT > f.seq) := by
    rw [not_or, not_or]
    exact ⟨hcid, not_lt.mpr hlen, not_lt.mpr hpt⟩
  rw [handlePeerNewConnID, if_neg hbad, if_neg hdst]

@[simp] theorem initPeerCIDs_init (s : PeerCids) : s.initPeerCIDs.peerCIDsInit = true := by
  unfold initPeerCIDs
  split_ifs with h
  · exact h
  · rfl

@[simp] theorem initPeerCIDs_retired (s : PeerCids) : s.initPeerCIDs.retired = s.retired := by
  unfold initPeerCIDs
  split_ifs <;> rfl

@[simp] theorem initPeerCIDs_peerRetirePT (s : PeerCids) : s.initPeerCIDs.peerRetirePT = s.peerRetirePT := by
  unfold initPeerCIDs
  split_ifs <;> rfl

@[simp] theorem initPeerCIDs_closed (s : PeerCids) : s.initPeerCIDs.closed = s.closed := by
  unfold initPeerCIDs
  split_ifs <;> rfl

theorem Inv.handlePeerNewConnID (h : s.Inv)
    (hclean : s.NotRelearned (.newConnID f)) (hopen : (s.handlePeerNewConnID f).closed = none) :
    (s.handlePeerNewConnID f).Inv := by
  obtain ⟨hf, hdst⟩ := wellFormed_of_open hopen
  have hinv := h.initPeerCIDs hdst
  rw [handlePeerNewConnID_eq hf hdst] at hopen ⊢
  split_ifs at hopen ⊢ with hold
  · -- The sequence number is below all stored ones.
    refine ⟨fun hinit => absurd ((initPeerCIDs_init s).symm.trans hinit) (by decide), hinv.active, hinv.ne_nil,
      hinv.above, ?_, hinv.limit⟩
    refine forall_mem_append.mpr ⟨hinv.retired, forall_mem_singleton.mpr fun p hp heq => ?_⟩
    have := hinv.above p hp
    omega
  split at hopen
  · split_ifs at hopen ⊢
    · exact hinv
    · exact absurd hopen (closeWithError_closed _ _ _)
  refine hinv.storePeerCID (initPeerCIDs_init s) (Nat.le_of_not_lt hold) hf.2.2 hf.1 ?_ hopen
  rw [initPeerCIDs_retired]
  intro hret
  rw [initPeerCIDs_peerRetirePT] at hold
  exact hold (hclean hret)

theorem Inv.useFreshPeerCID (h : s.Inv) : s.useFreshPeerCID.Inv := by
  unfold PeerCids.useFreshPeerCID
  split
  case h_1 => exact h
  case h_2 next hnext =>
    have hmem := lowestSeq_mem hnext
    have hkept : ∀ p ∈ s.peerCIDs.filter (fun p => p.seq ≠ s.dstCIDSeq), p ∈ s.peerCIDs ∧ p.seq ≠ s.dstCIDSeq := by
      intro p hp
      simpa using mem_filter.mp hp
    have hinit : s.peerCIDsInit = true := by
      by_contra hinit
      have hnil := (h.unused (Bool.eq_false_of_not_eq_true hinit)).1
      have := (hkept next hmem).1
      rw [hnil] at this
      cases this
    refine ⟨fun hinit' => absurd (hinit.symm.trans hinit') (by decide),
      fun _ => ⟨h.ne_nil next (hkept next hmem).1, next, hmem, rfl⟩, fun p hp => h.ne_nil p (hkept p hp).1,
      fun p hp => h.above p (hkept p hp).1, ?_, (length_filter_le _ _).trans h.limit⟩
    refine forall_mem_append.mpr ⟨fun n hn p hp => h.retired n hn p (hkept p hp).1, ?_⟩
    exact forall_mem_singleton.mpr fun p hp => (hkept p hp).2

@[simp] theorem sendRetire_closed (s : PeerCids) (seqs : List ℕ) : (s.sendRetire seqs).closed = s.closed := rfl

@[simp] theorem switchTo_closed (s : PeerCids) (next : Option QuicPeerCID) : (s.switchTo next).closed = s.closed := by
  cases next <;> rfl

theorem open_of_storePeerCID (h : (s.storePeerCID f).closed = none) : s.closed = none := by
  unfold storePeerCID at h
  dsimp only at h
  generalize (if decide (f.retirePT > s.peerRetirePT) = true then _ else _ : List QuicPeerCID) = kept at h
  by_cases hover : kept.length > quicLocalActiveCIDLimit
  · rw [if_pos hover] at h
    exact absurd h (closeWithError_closed _ _ _)
  · rwa [if_neg hover, sendRetire_closed, switchTo_closed] at h

theorem open_of_step {e : CidEvent} (h : (s.step e).closed = none) : s.closed = none := by
  cases e with
  | newConnID f =>
    change (s.handlePeerNewConnID f).closed = none at h
    obtain ⟨hf, hdst⟩ := wellFormed_of_open h
    rw [handlePeerNewConnID_eq hf hdst] at h
    rw [← initPeerCIDs_closed]
    split_ifs at h with hold
    · exact h
    split at h
    · split_ifs at h
      · exact h
      · exact absurd h (closeWithError_closed _ _ _)
    · exact open_of_storePeerCID h
  | pathChange =>
    change s.useFreshPeerCID.closed = none at h
    unfold useFreshPeerCID at h
    split at h
    · exact h
    · rwa [sendRetire_closed, switchTo_closed] at h

theorem Inv.step (h : s.Inv) {e : CidEvent} (hclean : s.NotRelearned e)
    (hopen : (s.step e).closed = none) : (s.step e).Inv := by
  cases e with
  | newConnID f => exact h.handlePeerNewConnID hclean hopen
  | pathChange => exact h.useFreshPeerCID

theorem open_of_foldl {es : List CidEvent} : ∀ {s : PeerCids}, (es.foldl PeerCids.step s).closed = none →
    s.closed = none := by
  induction es with
  | nil => exact fun h => h
  | cons e es ih => exact fun h => open_of_step (ih h)

theorem Inv.foldl {es : List CidEvent} : ∀ {s : PeerCids}, s.Inv → s.AllNotRelearned es →
    (es.foldl PeerCids.step s).closed = none →
    (es.foldl PeerCids.step s).Inv ∧ ∀ f, CidEvent.newConnID f ∈ es → WellFormed f := by
  induction es with
  | nil => exact fun h _ _ => ⟨h, fun f hf => nomatch hf⟩
  | cons e es ih =>
    intro s h hclean hopen
    have hopen : (es.foldl PeerCids.step (s.step e)).closed = none := hopen
    have hstep := open_of_foldl hopen
    obtain ⟨hinv, hwf⟩ := ih (h.step hclean.1 hstep) hclean.2 hopen
    refine ⟨hinv, fun f hf => ?_⟩
    obtain rfl | hf := mem_cons.mp hf
    · exact (wellFormed_of_open hstep).1
    · exact hwf f hf

theorem inv_start (dstConnID : Bytes) : Inv { dstConnID } :=
  ⟨fun _ => ⟨rfl, rfl, rfl, rfl⟩, nofun, nofun, nofun, nofun, Nat.zero_le _⟩

/-- While the connection is open: what was retired is neither active nor stored, no more ids are
stored than the limit, and a frame for a retired sequence number stores nothing. -/
theorem retired_ids_stay_retired (dstConnID : Bytes) (es : List CidEvent)
    (hclean : AllNotRelearned { dstConnID } es) (hopen : (run dstConnID es).closed = none) :
    (∀ n ∈ (run dstConnID es).retired,
        n ≠ (run dstConnID es).dstCIDSeq ∧ ∀ p ∈ (run dstConnID es).peerCIDs, p.seq ≠ n) ∧
      (run dstConnID es).peerCIDs.length ≤ quicLocalActiveCIDLimit ∧
      ∀ f, CidEvent.newConnID f ∈ es → f.seq ∈ (run dstConnID es).retired →
        (run dstConnID es).NotRelearned (.newConnID f) →
        ((run dstConnID es).handlePeerNewConnID f).closed = none ∧
          ((run dstConnID es).handlePeerNewConnID f).peerCIDs = (run dstConnID es).peerCIDs := by
  obtain ⟨h, hwf⟩ := (inv_start dstConnID).foldl hclean hopen
  change (run dstConnID es).Inv at h
  have hinit {n : ℕ} (hn : n ∈ (run dstConnID es).retired) : (run dstConnID es).peerCIDsInit = true := by
    by_contra hinit
    rw [(h.unused (Bool.eq_false_of_not_eq_true hinit)).2.2.2] at hn
    cases hn
  refine ⟨fun n hn => ⟨fun heq => ?_, h.retired n hn⟩, h.limit, fun f hf hret hstep => ?_⟩
  · obtain ⟨-, p, hp, hseq⟩ := h.active (hinit hn)
    exact h.retired n hn p hp (hseq.trans heq.symm)
  have hsame : (run dstConnID es).initPeerCIDs = run dstConnID es := by
    rw [initPeerCIDs, if_pos (hinit hret)]
  rw [handlePeerNewConnID_eq (hwf f hf) (h.active (hinit hret)).1, hsame, if_pos (hstep hret)]
  exact ⟨hopen, rfl⟩

theorem retired_ids_stay_retired_again :
    let s := run [1] [.newConnID ⟨1, 0, [2], []⟩, .newConnID ⟨2, 2, [3], []⟩, .newConnID ⟨1, 0, [2], []⟩]
    1 ∈ s.retired ∧ s.dstCIDSeq = 2 ∧ (s.handlePeerNewConnID ⟨1, 0, [2], []⟩).peerCIDs = s.peerCIDs := by
  have h := retired_ids_stay_retired [1]
    [.newConnID ⟨1, 0, [2], []⟩, .newConnID ⟨2, 2, [3], []⟩, .newConnID ⟨1, 0, [2], []⟩]
    ⟨by decide, by decide, by decide, trivial⟩ (by decide)
  exact ⟨by decide, by decide, (h.2.2 _ mem_cons_self (by decide) (by decide)).2⟩

/-- Two moves of the peer retire the ids 0 and 1. The frame for 1 comes once more and is stored
again, and the next new id is then one too many. -/
theorem retired_id_is_stored_again :
    let es : List CidEvent :=
      [.newConnID ⟨1, 0, [2], []⟩, .pathChange, .newConnID ⟨2, 0, [3], []⟩, .pathChange, .newConnID ⟨1, 0, [2], []⟩]
    1 ∈ (run [1] es).retired ∧ (run [1] es).closed = none ∧ (∃ p ∈ (run [1] es).peerCIDs, p.seq = 1) ∧
      ((run [1] es).handlePeerNewConnID ⟨3, 0, [4], []⟩).closed =
        some (quicErrConnIDLimit, "peer issued more connection IDs than active_connection_id_limit") := by
  decide

end PeerCids
end AlosHttp.Quic

import AlosHttp.Core.Utils
import Mathlib.Data.List.Basic

/-! One proxied HTTP/1 exchange through its two retry layers: the stale-connection retry of the
backend loop (`failOrRetry` of `fp_conn.go`, `startExchange` of `fp_beloop.go`) and the failover
to another backend (`proxyNextAttempt`, `proxyStartBackend`, `proxy_retry.go`). The events are what
network, pool and client do, in any order; a failure inside `startExchange` comes next. -/
namespace AlosHttp.Proxy.Retry
open AlosHttp.Core

def proxyRequestReplayable (method : Bytes) (headers : List Field) (trustIdempotencyKey : Bool) : Bool :=
  if [ascii "GET", ascii "HEAD", ascii "OPTIONS", ascii "TRACE"].contains method then true
  else trustIdempotencyKey && headers.any fun h =>
    equalFoldASCII h.1 (ascii "idempotency-key") || equalFoldASCII h.1 (ascii "x-idempotency-key")

/-- The attempt's error, where there is one, says whether the request was written and whether a
response came. -/
def proxyMayRetry (replayable : Bool) : Option (Bool × Bool) → Bool
  | none => replayable
  | some (wroteRequest, gotResponse) => !gotResponse && (!wroteRequest || replayable)

structure BackendConn where
  id : ℕ
  reused : Bool
  ready : Bool
  gotBytes : Bool := false
  deriving DecidableEq, Repr

/-- Where the exchange is: about to be given a connection, the current one of a connection
(which may still resolve or connect), or over. -/
inductive Place
  | starting
  | on (c : BackendConn)
  | gone
  deriving DecidableEq, Repr

structure Exchange where
  place : Place := .starting
  attempt : ℕ := 0
  wroteRequest : Bool := false
  replayable : Bool
  retried : Bool := false
  headersOut : Bool := false
  clientGone : Bool := false
  /-- the connections dialled for it -/
  opened : List ℕ := []
  /-- the connections whose socket accepted bytes of the request -/
  wrote : List ℕ := []
  deriving DecidableEq, Repr

/-- The most retries, and whether the request of each attempt, as the hook left it, may be
replayed. -/
structure Policy where
  maxRetries : ℕ
  replayable : ℕ → Bool

def requestPolicy (maxRetries : ℕ) (method : Bytes) (headers : ℕ → List Field) (trust : Bool) : Policy :=
  ⟨maxRetries, fun n => proxyRequestReplayable method (headers n) trust⟩

inductive Event
  -- no backend is left or the hook refuses the request
  | refused
  -- the deadline passed, the name is bad or there are too many connections
  | failed
  | pooled (id : ℕ)
  | dialled (id : ℕ)
  | connected
  | accepted
  | received
  | relayed
  | completed
  | closed (timeout : Bool)
  | clientClosed
  deriving DecidableEq, Repr

namespace Exchange

/-- `proxyNextAttempt`, and the reset of `proxyStartBackend` for the attempt. -/
def nextAttempt (p : Policy) (s : Exchange) : Exchange :=
  if s.attempt ≥ p.maxRetries || !proxyMayRetry s.replayable (some (s.wroteRequest, false)) then
    { s with place := .gone }
  else
    { s with
      place := .starting, attempt := s.attempt + 1, wroteRequest := false,
      replayable := p.replayable (s.attempt + 1), retried := false }

/-- `finish` with an error: `exchangeDone`, `proxyRetryOrFail`. -/
def finish (p : Policy) (s : Exchange) : Exchange :=
  if s.clientGone || s.headersOut then { s with place := .gone } else s.nextAttempt p

def retries (s : Exchange) (c : BackendConn) (timeout : Bool) : Bool :=
  c.reused && !c.gotBytes && !s.retried && !timeout && (!s.wroteRequest || s.replayable)

def failOrRetry (p : Policy) (s : Exchange) (c : BackendConn) (timeout : Bool) : Exchange :=
  if s.retries c timeout then { s with retried := true, place := .starting } else s.finish p

/-- The client's connection closes: its exchange's connection is closed with
`errFPClientClosed`. -/
def abortProxyExchange (p : Policy) (s : Exchange) : Exchange :=
  match s.place with
  | .on c => failOrRetry p { s with clientGone := true } c false
  | _ => { s with place := .gone }

def step (p : Policy) (s : Exchange) (e : Event) : Exchange :=
  match s.place, e with
  | .gone, _ => s
  | _, .clientClosed => s.abortProxyExchange p
  | .starting, .refused => { s with place := .gone }
  | .starting, .failed => s.finish p
  | .starting, .pooled id => { s with place := .on ⟨id, true, true, false⟩ }
  | .starting, .dialled id =>
    { s with place := .on ⟨id, false, false, false⟩, opened := id :: s.opened }
  | .on c, .connected => { s with place := .on { c with ready := true } }
  | .on c, .accepted =>
    if c.ready then { s with wroteRequest := true, wrote := c.id :: s.wrote } else s
  | .on c, .received => { s with place := .on { c with gotBytes := true } }
  | .on c, .relayed => if c.gotBytes then { s with headersOut := true } else s
  | .on _, .completed => { s with place := .gone }
  | .on c, .closed timeout => s.failOrRetry p c timeout
  | _, _ => s

def run (p : Policy) (s : Exchange) (es : List Event) : Exchange := es.foldl (step p) s

def start (p : Policy) : Exchange := { replayable := p.replayable 0 }

section
variable {p : Policy} {s : Exchange} {c : BackendConn}

/-- What holds of a request that may not be replayed: the flag remembers every accepted byte, no
attempt starts after one, and all of them went to the connection the exchange is on. -/
structure Once (s : Exchange) : Prop where
  replayable : s.replayable = false
  flag : s.wrote ≠ [] → s.wroteRequest = true
  fresh : s.place = .starting → s.wrote = []
  here : ∀ c, s.place = .on c → ∀ i ∈ s.wrote, i = c.id
  once : ∀ i ∈ s.wrote, ∀ j ∈ s.wrote, i = j

theorem Once.unwritten (h : Once s) (hw : s.wroteRequest = false) : s.wrote = [] := by
  by_contra hne
  have hflag := h.flag hne
  rw [hw] at hflag
  cases hflag

theorem Once.gone (h : Once s) : Once { s with place := .gone } := ⟨h.replayable, h.flag, nofun, nofun, h.once⟩

theorem Once.move (h : Once s) (hw : s.wrote = []) (place : Place) : Once { s with place } := by
  constructor
  · exact h.replayable
  · exact h.flag
  · intro _
    exact hw
  · intro c _ i hi
    rw [hw] at hi
    cases hi
  · exact h.once

theorem Once.stay (h : Once s) (hp : s.place = .on c) {c' : BackendConn} (hid : c'.id = c.id) :
    Once { s with place := .on c' } := by
  refine ⟨h.replayable, h.flag, nofun, ?_, h.once⟩
  rintro _ ⟨⟩ i hi
  rw [hid]
  exact h.here c hp i hi

section
variable (hno : ∀ n, p.replayable n = false)
include hno

theorem Once.finish (h : Once s) : Once (s.finish p) := by
  rw [Exchange.finish]
  split_ifs with hdone
  · exact h.gone
  rw [nextAttempt]
  split_ifs with hstop
  · exact h.gone
  · -- an attempt follows only when nothing was written
    have hw : s.wroteRequest = false := by
      simp [proxyMayRetry, h.replayable] at hstop
      exact hstop.2
    have hnil := h.unwritten hw
    exact ⟨hno _, fun hne => absurd hnil hne, fun _ => hnil, nofun, h.once⟩

theorem Once.failOrRetry (h : Once s) (timeout : Bool) : Once (s.failOrRetry p c timeout) := by
  rw [Exchange.failOrRetry]
  split_ifs with hretry
  · have hw : s.wroteRequest = false := by
      simp only [retries, h.replayable, Bool.or_false, Bool.and_eq_true, Bool.not_eq_true'] at hretry
      exact hretry.2
    have hmoved := h.move (h.unwritten hw) .starting
    exact ⟨hmoved.replayable, hmoved.flag, hmoved.fresh, hmoved.here, hmoved.once⟩
  · exact h.finish hno

theorem Once.abort (h : Once s) : Once (s.abortProxyExchange p) := by
  rw [abortProxyExchange]
  split
  · apply Once.failOrRetry hno _ false
    exact ⟨h.replayable, h.flag, h.fresh, h.here, h.once⟩
  · exact h.gone

theorem Once.step (h : Once s) (e : Event) : Once (s.step p e) := by
  unfold Exchange.step
  split
  · exact h
  · exact h.abort hno
  · exact h.gone
  · exact h.finish hno
  · next hp => exact h.move (h.fresh hp) _
  · next id hp =>
    have hmoved := h.move (h.fresh hp) (.on ⟨id, false, false, false⟩)
    exact ⟨hmoved.replayable, hmoved.flag, hmoved.fresh, hmoved.here, hmoved.once⟩
  · next hp => exact h.stay hp rfl
  · next c hp =>
    split_ifs
    · -- every byte accepted before this one went to the same connection
      have hall : ∀ i ∈ c.id :: s.wrote, i = c.id := by
        intro i hi
        obtain rfl | hi := List.mem_cons.mp hi
        · rfl
        · exact h.here c hp i hi
      refine ⟨h.replayable, fun _ => rfl, fun hs => ?_, fun c' hc' => ?_, fun i hi j hj => ?_⟩
      · cases hp.symm.trans hs
      · cases hp.symm.trans hc'
        exact hall
      · rw [hall i hi, hall j hj]
    · exact h
  · next hp => exact h.stay hp rfl
  · split_ifs
    · exact ⟨h.replayable, h.flag, h.fresh, h.here, h.once⟩
    · exact h
  · exact h.gone
  · exact h.failOrRetry hno _
  · exact h

theorem Once.run (es : List Event) (h : Once s) : Once (s.run p es) := by
  induction es generalizing s with
  | nil => exact h
  | cons e es ih => exact ih (h.step hno e)

end

theorem run_gone (hs : s.place = .gone) (es : List Event) : s.run p es = s := by
  induction es with
  | nil => rfl
  | cons e es ih =>
    have hstep : s.step p e = s := by
      unfold step
      rw [hs]
    rw [run, List.foldl_cons, hstep]
    exact ih

theorem abort_gone (h : ∀ c, s.place = .on c → s.retries c false = false) :
    s.abortProxyExchange p = { s with place := .gone, clientGone := true } ∨
      s.abortProxyExchange p = { s with place := .gone } := by
  rw [abortProxyExchange]
  split
  · next c hp =>
    have hno : ({ s with clientGone := true } : Exchange).retries c false = false := h c hp
    left
    simp [failOrRetry, hno, finish]
  right
  rfl

theorem abort_retries {c : BackendConn} (hplace : s.place = .on c) (h : s.retries c false = true) :
    s.abortProxyExchange p = { s with clientGone := true, retried := true, place := .starting } := by
  rw [abortProxyExchange, hplace]
  exact if_pos h

end

end Exchange
end AlosHttp.Proxy.Retry

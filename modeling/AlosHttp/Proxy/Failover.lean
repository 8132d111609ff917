import AlosHttp.H1.Head

/-! The attempts that the proxy makes for one request: the event loop's (`proxyStartBackend`) and the
goroutine engine's (`serveDomain` of `proxy_forward.go`). The `OnRequest` hook of each attempt is any
function and the backends are any list. -/
namespace AlosHttp.Proxy
open AlosHttp.Core H1

structure ProxyRequest where
  domain : Bytes
  backend : Bytes
  clientAddr : Bytes
  method : Bytes
  path : Bytes
  headers : List Field
  host : Bytes
  deriving DecidableEq, Repr

inductive HookAnswer
  -- the hook panicked
  | failed
  | blocked
  | allowed (pr : ProxyRequest)
  deriving DecidableEq, Repr

abbrev OnRequest := ProxyRequest → HookAnswer

structure DomainConfig where
  domain : Bytes
  hostHeader : Bytes
  preserveHost : Bool
  deriving DecidableEq, Repr

/-- A backend with the authority that `fpProxyAuthority` reads from its address. -/
structure Backend where
  addr : Bytes
  authority : Bytes
  deriving DecidableEq, Repr

structure Upstream where
  method : Bytes
  target : Bytes
  headers : List Field
  host : Bytes
  deriving DecidableEq, Repr

/-- What the hook of an attempt was given, and the request sent unless the hook refused it. -/
structure Attempt where
  given : Option ProxyRequest
  sent : Option Upstream
  deriving DecidableEq, Repr

def containsCRLF (s : Bytes) : Bool := s.any fun c => c == cr || c == lf

def fpProxyPath (req : Request) : Bytes :=
  if req.query == [] then req.path else req.path ++ ascii "?" ++ req.query

def proxyRequestTarget (req : Request) : Bytes :=
  let target := if req.rawPath == [] then fpProxyPath req else req.rawPath
  if target == [] || containsCRLF target then ascii "/" else target

section
variable (cfg : DomainConfig) (clientAddr : Bytes) (b : Backend) (req : Request)

/-- An empty host is filled in from the client's, where it is preserved, or from the backend. -/
def upstreamHost (hostHdr : Bytes) : Bytes :=
  if hostHdr == [] then
    if cfg.preserveHost && req.host != [] then req.host else b.authority
  else hostHdr

def hookInput : ProxyRequest :=
  { domain := cfg.domain, backend := b.addr, clientAddr, method := req.method, path := req.path,
    headers := req.headers, host := cfg.hostHeader }

def upstream (target : Request → Bytes) (hostHdr : Bytes) : Upstream :=
  ⟨req.method, target req, req.headers, upstreamHost cfg b req hostHdr⟩

/-- The event loop's attempt, with the connection's request after it: the hook's answer is
written into that request. -/
def proxyStartBackend : Option OnRequest → Request × Attempt
  | none => (req, ⟨none, some (upstream cfg b req proxyRequestTarget cfg.hostHeader)⟩)
  | some onRequest =>
    let given := hookInput cfg clientAddr b req
    match onRequest given with
    | .failed => (req, ⟨some given, none⟩)
    | .blocked => (req, ⟨some given, none⟩)
    | .allowed pr =>
      -- the serialiser prefers the raw path, so a rewritten path drops it
      let rawPath := if pr.path != req.path then [] else req.rawPath
      let req := { req with rawPath, path := pr.path, headers := pr.headers }
      (req, ⟨some given, some (upstream cfg b req proxyRequestTarget pr.host)⟩)

/-- The goroutine engine's attempt, which works on a copy of the request. -/
def forwardAttempt : Option OnRequest → Attempt
  | none => ⟨none, some (upstream cfg b req fpProxyPath cfg.hostHeader)⟩
  | some onRequest =>
    let given := hookInput cfg clientAddr b req
    match onRequest given with
    | .failed => ⟨some given, none⟩
    | .blocked => ⟨some given, none⟩
    | .allowed pr =>
      let attemptReq := { req with path := pr.path, headers := pr.headers }
      ⟨some given, some (upstream cfg b attemptReq fpProxyPath pr.host)⟩

/-- What an attempt should be: the hook sees the client's path and headers and the configured
host, and the request sent is that request with the answer's path, headers and host. -/
def restart (target : Request → Bytes) (hook : Option OnRequest) : Attempt :=
  let given := hookInput cfg clientAddr b req
  let answer : HookAnswer := (hook.map (· given)).getD (.allowed given)
  { given := hook.map fun _ => given
    sent := match answer with
      | .allowed pr =>
        let rawPath := if pr.path = req.path then req.rawPath else []
        some (upstream cfg b { req with rawPath, path := pr.path, headers := pr.headers } target pr.host)
      | _ => none }

end

def attempts (attempt : ℕ → Backend → Request → Request × Attempt) (n : ℕ) (req : Request) :
    List Backend → List Attempt
  | [] => []
  | b :: bs =>
    let (req', a) := attempt n b req
    a :: if a.sent.isNone then [] else attempts attempt (n + 1) req' bs

section
variable (cfg : DomainConfig) (clientAddr : Bytes) (hook : ℕ → Option OnRequest)

/-- The attempts of the event loop; `hook n` is the hook installed at attempt `n`. -/
def proxyAttempts : Request → List Backend → List Attempt :=
  attempts (fun n b req => proxyStartBackend cfg clientAddr b req (hook n)) 0

def serveDomain : Request → List Backend → List Attempt :=
  attempts (fun n b req => (req, forwardAttempt cfg clientAddr b req (hook n))) 0

end

section
variable {cfg : DomainConfig} {clientAddr : Bytes} {b : Backend} {bs : List Backend}
  {req : Request} {attempt : ℕ → Backend → Request → Request × Attempt} {n k : ℕ} {a : Attempt}

theorem proxyStartBackend_attempt (h : Option OnRequest) : (proxyStartBackend cfg clientAddr b req h).2 =
      restart cfg clientAddr b req proxyRequestTarget h := by
  rcases h with _ | onRequest
  · simp [proxyStartBackend, restart, hookInput]
  rw [proxyStartBackend, restart]
  cases hanswer : onRequest (hookInput cfg clientAddr b req) with
  | failed | blocked => simp [hanswer]
  | allowed pr =>
    by_cases hpath : pr.path = req.path
    all_goals simp [hanswer, hpath]

theorem forwardAttempt_eq (h : Option OnRequest) :
    forwardAttempt cfg clientAddr b req h = restart cfg clientAddr b req fpProxyPath h := by
  rcases h with _ | onRequest
  · simp [forwardAttempt, restart, hookInput, upstream, fpProxyPath, upstreamHost]
  rw [forwardAttempt, restart]
  cases hanswer : onRequest (hookInput cfg clientAddr b req) with
  | failed | blocked => simp [hanswer]
  | allowed pr => simp [hanswer, upstream, fpProxyPath, upstreamHost]

def Keeps (cfg : DomainConfig) (clientAddr : Bytes) (b : Backend) (req : Request) (h : Option OnRequest) : Prop :=
  ∀ onRequest ∈ h, ∀ pr, onRequest (hookInput cfg clientAddr b req) = .allowed pr →
    pr.path = req.path ∧ pr.headers = req.headers

theorem proxyStartBackend_kept {h : Option OnRequest} (hkeeps : Keeps cfg clientAddr b req h) :
    (proxyStartBackend cfg clientAddr b req h).1 = req := by
  rcases h with _ | onRequest
  · rw [proxyStartBackend]
  rw [proxyStartBackend]
  cases hanswer : onRequest (hookInput cfg clientAddr b req) with
  | failed | blocked => rfl
  | allowed pr =>
    obtain ⟨hpath, hheaders⟩ := hkeeps onRequest rfl pr hanswer
    simp [hpath, hheaders]

theorem attempts_restart (hkept : ∀ i b', bs[i]? = some b' → i < k → (attempt (n + i) b' req).1 = req)
    (hb : bs[k]? = some b) (ha : (attempts attempt n req bs)[k]? = some a) :
    a = (attempt (n + k) b req).2 := by
  induction bs generalizing n k with
  | nil => cases hb
  | cons b₀ bs ih =>
    rw [attempts] at ha
    rcases k with _ | k
    · cases hb
      exact (Option.some.inj ha).symm
    have hfirst := hkept 0 b₀ rfl k.succ_pos
    rw [add_zero] at hfirst
    dsimp only at ha
    rw [hfirst, List.getElem?_cons_succ] at ha
    split at ha
    · cases ha
    rw [add_comm k 1, ← add_assoc]
    apply ih _ hb ha
    intro i b' hb' hi
    rw [add_right_comm]
    exact hkept (i + 1) b' hb' (Nat.succ_lt_succ hi)

end

/-- In both engines attempt `k` starts from the client's request; in the event loop, where the
hooks of the attempts before it kept the path and the headers. -/
theorem failover_restarts (cfg : DomainConfig) (clientAddr : Bytes) (req : Request)
    (hook : ℕ → Option OnRequest) (bs : List Backend) (k : ℕ) (b : Backend)
    (hb : bs[k]? = some b) :
    (∀ a, (serveDomain cfg clientAddr hook req bs)[k]? = some a →
      a = restart cfg clientAddr b req fpProxyPath (hook k)) ∧
    ((∀ i b', bs[i]? = some b' → i < k → Keeps cfg clientAddr b' req (hook i)) →
      ∀ a, (proxyAttempts cfg clientAddr hook req bs)[k]? = some a →
        a = restart cfg clientAddr b req proxyRequestTarget (hook k)) := by
  constructor
  · intro a ha
    have h := attempts_restart (fun _ _ _ _ => rfl) hb ha
    rw [h, zero_add, forwardAttempt_eq]
  intro hkeeps a ha
  have h := attempts_restart (n := 0) (fun i b' hb' hi => by
    rw [zero_add]
    exact proxyStartBackend_kept (hkeeps i b' hb' hi)) hb ha
  rw [h, zero_add, proxyStartBackend_attempt]

def versionHook : OnRequest := fun pr => .allowed { pr with path := ascii "/v1" ++ pr.path }

def hostHook : OnRequest := fun pr => .allowed { pr with host := pr.backend }

def twoBackends : List Backend := [⟨ascii "a:1", ascii "a:1"⟩, ⟨ascii "b:2", ascii "b:2"⟩]

def plainDomain : DomainConfig := ⟨ascii "x", [], false⟩

def getRequest : Request := { method := ascii "GET", path := ascii "/p" }

theorem failover_restarts_hostHook :
    (proxyAttempts plainDomain [] (fun _ => some hostHook) getRequest twoBackends)[1]? =
      some (restart plainDomain [] ⟨ascii "b:2", ascii "b:2"⟩ getRequest proxyRequestTarget
        (some hostHook)) := by
  have h := (failover_restarts plainDomain [] getRequest (fun _ => some hostHook) twoBackends 1
    ⟨ascii "b:2", ascii "b:2"⟩ rfl).2
  have hkeeps : ∀ i b', twoBackends[i]? = some b' → i < 1 → Keeps plainDomain [] b' getRequest (some hostHook) := by
    intro i b' _ _ _ hmem _ hpr
    cases hmem
    cases hpr
    exact ⟨rfl, rfl⟩
  obtain ⟨a, ha⟩ : ∃ a, (proxyAttempts plainDomain [] (fun _ => some hostHook) getRequest
      twoBackends)[1]? = some a := ⟨_, rfl⟩
  rw [ha, h hkeeps a ha]

/-- On the second attempt the event loop's hook is given the path it wrote at the first, and the
version is put before it twice; the goroutine engine sends it once. -/
theorem failover_rewrites_twice :
    let hook := fun _ : ℕ => some versionHook
    let second := (proxyAttempts plainDomain [] hook getRequest twoBackends)[1]?
    let copied := (serveDomain plainDomain [] hook getRequest twoBackends)[1]?
    (second.bind (·.given)).map (·.path) = some (ascii "/v1/p") ∧
      (second.bind (·.sent)).map (·.target) = some (ascii "/v1/v1/p") ∧
      (copied.bind (·.sent)).map (·.target) = some (ascii "/v1/p") := by
  decide

end AlosHttp.Proxy

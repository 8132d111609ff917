import AlosHttp.Proxy.Failover
import AlosHttp.Proxy.H1Request

/-! The client's address behind a trusted proxy: `applyTrustedRealIP` of `middleware.go`, `Header`
of `request.go` and `appendXForwardedFor` of `proxy_forwarding.go`. -/
namespace AlosHttp.Proxy.RealIP
open List AlosHttp.Core H1

def isValidIPv6 (s : Bytes) : Bool :=
  s.all (fun c => c == colon || 48 ≤ c && c ≤ 57 || 97 ≤ c && c ≤ 102 || 65 ≤ c && c ≤ 70 || c == 46) &&
    s.count colon ≥ 2

def isValidIPLoop (s : Bytes) (dotCount partLen : ℕ) : Bytes → Bool
  | [] => dotCount == 3 && 0 < partLen && partLen ≤ 3
  | c :: rest =>
    if c == 46 then
      if partLen == 0 || partLen > 3 then false else isValidIPLoop s (dotCount + 1) 0 rest
    else if 48 ≤ c && c ≤ 57 then isValidIPLoop s dotCount (partLen + 1) rest
    else if c == colon then isValidIPv6 s
    else false

def isValidIP (s : Bytes) : Bool := isValidIPLoop s 0 0 s

def extractIP (addr : Bytes) : Bytes :=
  match addr with
  | [] => []
  | c :: rest =>
    if c == 91 then if rest.contains 93 then rest.takeWhile (· != 93) else addr
    else if addr.count colon == 1 then addr.takeWhile (· != colon) else addr

def forwardableIP (ip : Bytes) : Bool := ip != [] && ip.all (ascii "0123456789abcdefABCDEF.:").contains

/-- The address without its port, and whether it may be forwarded. -/
def splitForwardableIP (addr : Bytes) : Bytes × Bool := (extractIP addr, forwardableIP (extractIP addr))

def named (name : Bytes) (h : Field) : Bool := h.1.length == name.length && equalFoldASCII h.1 name

def header (cached : Option Bytes) (headers : List Field) (name : Bytes) : Bytes :=
  cached.getD (((headers.find? (named name)).map (·.2)).getD [])

def xffName : Bytes := ascii "x-forwarded-for"

def xForwardedFor (req : Request) : Bytes := header req.cached.xff req.headers xffName

def lastXFFEntry (xff : Bytes) : Bytes := trimASCIISpace (xff.rtakeWhile (· != comma))

structure Addresses where
  remoteAddr : Bytes
  peerAddr : Bytes := []
  deriving DecidableEq, Repr

/-- `allows` is the matcher of trusted proxies. -/
def applyTrustedRealIP (allows : Bytes → Bool) (req : Request) (a : Addresses) : Addresses :=
  if !allows a.remoteAddr then a
  else
    let xff := xForwardedFor req
    let xri := header req.cached.xri req.headers (ascii "x-real-ip")
    if xff != [] && isValidIP (lastXFFEntry xff) then ⟨lastXFFEntry xff, a.remoteAddr⟩
    else if xri != [] && isValidIP (trimASCIISpace xri) then ⟨trimASCIISpace xri, a.remoteAddr⟩
    else ⟨a.remoteAddr, a.remoteAddr⟩

def appendXForwardedFor (req : Request) (a : Addresses) : Bytes :=
  let (client, clientOK) := splitForwardableIP a.remoteAddr
  if a.peerAddr == [] then if clientOK then client else []
  else
    let peer := extractIP a.peerAddr
    let prior := trimASCIISpace (xForwardedFor req)
    (if prior != [] && !containsCRLF prior then prior ++ ascii ", "
      else if clientOK && client != peer then client ++ ascii ", "
      else []) ++ if forwardableIP peer then peer else []

def xffLines (req : Request) : List Bytes := (req.headers.filter (named xffName)).map (·.2)

def combined (req : Request) : Bytes := (ascii ", ").intercalate (xffLines req)

/-- What the parsers hand over: what they noted is one of the lines, no line has a line break, and
the peer has an address. -/
structure Received (req : Request) (a : Addresses) : Prop where
  noted : ∀ u ∈ req.cached.xff, u ∈ xffLines req
  clean : ∀ v ∈ xffLines req, containsCRLF (trimASCIISpace v) = false
  peer : extractIP a.remoteAddr ≠ []

theorem xForwardedFor_mem {req : Request} (hnoted : ∀ u ∈ req.cached.xff, u ∈ xffLines req)
    (hlines : xffLines req ≠ []) : xForwardedFor req ∈ xffLines req := by
  rw [xForwardedFor, header]
  cases hc : req.cached.xff with
  | some u => exact hnoted u hc
  | none =>
    rw [← head?_filter, ← head?_map]
    change (xffLines req).head?.getD [] ∈ xffLines req
    rw [head?_eq_some_head hlines]
    exact head_mem hlines

theorem count_dropWhile {p : UInt8 → Bool} (hp : p comma = false) (s : Bytes) :
    (s.dropWhile p).count comma = s.count comma := by
  induction s with
  | nil => rfl
  | cons b s ih =>
    rw [dropWhile_cons]
    split_ifs with hb
    · have hne : b ≠ comma := by
        rintro rfl
        rw [hp] at hb
        cases hb
      rw [ih, count_cons_of_ne hne]
    · rfl

theorem count_trimASCIISpace (s : Bytes) : (trimASCIISpace s).count comma = s.count comma := by
  have hspace : isASCIISpace comma = false := by decide
  rw [trimASCIISpace, rdropWhile, count_reverse, count_dropWhile hspace, count_reverse,
    count_dropWhile hspace]

theorem trimASCIISpace_eq_nil {s : Bytes} : trimASCIISpace s = [] ↔ ∀ b ∈ s, isASCIISpace b = true := by
  rw [trimASCIISpace, rdropWhile_eq_nil_iff]
  constructor
  · intro h
    rw [← dropWhile_eq_nil_iff]
    by_contra hne
    have hhead := head_dropWhile_not isASCIISpace hne
    rw [h _ (head_mem hne)] at hhead
    cases hhead
  · intro h b hb
    exact h b ((dropWhile_sublist _).mem hb)

/-- A value of spaces has no entry. -/
theorem lastXFFEntry_of_trim {s : Bytes} (h : trimASCIISpace s = []) : lastXFFEntry s = [] := by
  rw [lastXFFEntry, trimASCIISpace_eq_nil]
  intro b hb
  exact trimASCIISpace_eq_nil.mp h b (List.IsSuffix.mem hb (rtakeWhile_suffix _ _))

theorem count_intercalate {x : Bytes} {ls : List Bytes} (hx : x ∈ ls) :
    x.count comma + (ls.length - 1) ≤ ((ascii ", ").intercalate ls).count comma := by
  have hsep : (ascii ", ").count comma = 1 := by decide
  induction ls generalizing x with
  | nil => cases hx
  | cons l ls ih =>
    cases ls with
    | nil =>
      rw [mem_singleton.mp hx, intercalate_singleton]
      exact le_rfl
    | cons l' ls =>
      have hrest := ih (x := l') mem_cons_self
      rw [intercalate_cons_cons, count_append, count_append, hsep]
      simp only [length_cons] at ih hrest ⊢
      obtain rfl | hx := mem_cons.mp hx
      · omega
      · have hmem := ih hx
        omega

theorem count_forwardable {ip : Bytes} (h : forwardableIP ip = true) : ip.count comma = 0 := by
  rw [count_eq_zero]
  intro hmem
  rw [forwardableIP, Bool.and_eq_true, all_eq_true] at h
  exact absurd (h.2 comma hmem) (by decide)

theorem count_appendXForwardedFor (req : Request) (a : Addresses) :
    (appendXForwardedFor req a).count comma ≤ (xForwardedFor req).count comma + 1 := by
  have hsep : (ascii ", ").count comma = 1 := by decide
  have hof (ip : Bytes) : (if forwardableIP ip = true then ip else []).count comma = 0 := by
    split_ifs with h
    · exact count_forwardable h
    · rfl
  have htrim := count_trimASCIISpace (xForwardedFor req)
  unfold appendXForwardedFor splitForwardableIP
  dsimp only
  by_cases hpeer : (a.peerAddr == []) = true
  · rw [if_pos hpeer, hof]
    exact Nat.zero_le _
  rw [if_neg hpeer, count_append, hof]
  split_ifs with _ hclient
  · rw [count_append, hsep, htrim]
  · rw [count_append, hsep, count_forwardable (Bool.and_eq_true_iff.mp hclient).1]
    omega
  · exact Nat.zero_le _

theorem xff_filtered {f : Field} (h : named xffName f = true) : isProxyFilteredHeaderFold f.1 = true := by
  simp only [named, Bool.and_eq_true, beq_iff_eq] at h
  have hfold := (equalFoldASCII_iff _ _).mp h.2
  have hlen : f.1.length = 15 := h.1
  rw [isProxyFilteredHeaderFold]
  split_ifs
  · rfl
  simp only [hlen, H2.headerNameIs, hfold]
  decide

/-- Behind a trusted proxy whose entry is a valid address, that entry decides and the combined field
is sent on with the peer's address exactly when there is one X-Forwarded-For line and the peer's
address may be forwarded. Of an untrusted peer nothing it wrote is used or sent. -/
theorem client_cannot_choose (allows : Bytes → Bool) (req : Request) (a : Addresses) :
    (allows a.remoteAddr = true → Received req a →
      ((isValidIP (lastXFFEntry (combined req)) = true →
          (applyTrustedRealIP allows req a).remoteAddr = lastXFFEntry (combined req) ∧
          appendXForwardedFor req (applyTrustedRealIP allows req a) =
            trimASCIISpace (combined req) ++ ascii ", " ++ extractIP a.remoteAddr) ↔
        (isValidIP (lastXFFEntry (combined req)) = true →
          (xffLines req).length = 1 ∧ forwardableIP (extractIP a.remoteAddr) = true))) ∧
    (allows a.remoteAddr = false → a.peerAddr = [] → applyTrustedRealIP allows req a = a ∧
      (∀ headers cached, appendXForwardedFor { req with headers, cached } a = appendXForwardedFor req a) ∧
      ∀ forwarding, ∀ f ∈ fpProxyRequestHeaders req.headers forwarding, named xffName f = true → f ∈ forwarding) := by
  constructor
  · intro hallow hreceived
    refine imp_congr_right fun hvalid => ?_
    have hentry : lastXFFEntry (combined req) ≠ [] := by
      intro hnil
      rw [hnil] at hvalid
      exact absurd hvalid (by decide)
    have hlines : xffLines req ≠ [] := by
      intro hnil
      rw [combined, hnil] at hentry
      exact hentry rfl
    have hmem := xForwardedFor_mem hreceived.noted hlines
    have hpos := length_pos_iff.mpr hlines
    by_cases hone : (xffLines req).length = 1
    · -- one line: it is the combined field, and the peer's address may be left out
      obtain ⟨v, hv⟩ := length_eq_one_iff.mp hone
      have hx : xForwardedFor req = v := by
        rw [hv] at hmem
        exact mem_singleton.mp hmem
      have hcombined : combined req = v := by
        rw [combined, hv, intercalate_singleton]
      have hclean := hreceived.clean v (by rw [hv]; exact mem_singleton_self v)
      rw [hcombined] at hvalid hentry ⊢
      have htrim : trimASCIISpace v ≠ [] := fun h => hentry (lastXFFEntry_of_trim h)
      have hne : v ≠ [] := by
        rintro rfl
        exact htrim rfl
      have haddr : a.remoteAddr ≠ [] := by
        intro hnil
        exact hreceived.peer (by rw [hnil]; rfl)
      have happly : applyTrustedRealIP allows req a = ⟨lastXFFEntry v, a.remoteAddr⟩ := by
        simp [applyTrustedRealIP, hallow, hx, hne, hvalid]
      have hpeer := hreceived.peer
      rw [happly]
      simp only [appendXForwardedFor, hx, hclean, hone, true_and]
      by_cases hforward : forwardableIP (extractIP a.remoteAddr) = true
      · simp [hforward, haddr, htrim]
      · simp [hforward, haddr, htrim, hpeer]
    · -- more lines: the separators between them are commas that no line has
      have hcount := count_intercalate hmem
      have hsent := count_appendXForwardedFor req (applyTrustedRealIP allows req a)
      refine iff_of_false (fun h => ?_) fun h => hone h.1
      have hsep : (ascii ", ").count comma = 1 := by decide
      rw [h.2, count_append, count_append, hsep, count_trimASCIISpace] at hsent
      change _ ≤ (combined req).count comma at hcount
      omega
  intro hallow hpeer
  refine ⟨by simp [applyTrustedRealIP, hallow], fun _ _ => ?_, fun forwarding f hf hname => ?_⟩
  · simp [appendXForwardedFor, hpeer]
  rw [fpProxyRequestHeaders, mem_append] at hf
  refine hf.resolve_left fun hf => ?_
  simp [xff_filtered hname] at hf

def trusts (_ : Bytes) : Bool := true

def oneLine : Request := { headers := [(xffName, ascii "6.6.6.6, 1.2.3.4")] }

theorem client_cannot_choose_one :
    (applyTrustedRealIP trusts oneLine ⟨ascii "9.9.9.9:1", []⟩).remoteAddr = ascii "1.2.3.4" ∧
    appendXForwardedFor oneLine (applyTrustedRealIP trusts oneLine ⟨ascii "9.9.9.9:1", []⟩) =
      ascii "6.6.6.6, 1.2.3.4, 9.9.9.9" ∧
    applyTrustedRealIP (fun _ => false) oneLine ⟨ascii "9.9.9.9:1", []⟩ = ⟨ascii "9.9.9.9:1", []⟩ := by
  have hreceived : Received oneLine ⟨ascii "9.9.9.9:1", []⟩ := ⟨nofun, by decide, by decide⟩
  obtain ⟨htrusted, -⟩ := client_cannot_choose trusts oneLine ⟨ascii "9.9.9.9:1", []⟩
  obtain ⟨-, huntrusted⟩ := client_cannot_choose (fun _ => false) oneLine ⟨ascii "9.9.9.9:1", []⟩
  obtain ⟨haddr, hsent⟩ := (htrusted rfl hreceived).mpr (fun _ => by decide) (by decide)
  exact ⟨haddr, hsent, (huntrusted rfl rfl).1⟩

def twoLines : Request :=
  { headers := [(xffName, ascii "6.6.6.6"), (xffName, ascii "1.2.3.4")] }

/-- Of two lines, the client's own and the proxy's, the first one counts, and the other is not
sent on. -/
theorem client_chooses : lastXFFEntry (combined twoLines) = ascii "1.2.3.4" ∧
      applyTrustedRealIP trusts twoLines ⟨ascii "9.9.9.9:1", []⟩ =
        ⟨ascii "6.6.6.6", ascii "9.9.9.9:1"⟩ ∧
      appendXForwardedFor twoLines ⟨ascii "6.6.6.6", ascii "9.9.9.9:1"⟩ =
        ascii "6.6.6.6, 9.9.9.9" := by
  decide

end AlosHttp.Proxy.RealIP

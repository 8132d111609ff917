import AlosHttp.Proxy.H2Moves

/-! Stream ids and exchanges of the proxy's HTTP/2 client: what is opened, once and under
which limit, what is finished, and what is left in the pending queue. -/
namespace AlosHttp.Proxy
open List

/-- A stream is opened with an odd id above all earlier ones, below the limit in force, for
an exchange that was not opened before. -/
def OpenStep (log : List Hist) : Hist → Prop
  | .opened id key streams limit =>
    id % 2 = 1 ∧ id ≤ fpH2MaxStreamID ∧ streams < limit ∧
      ∀ id' key' streams' limit', .opened id' key' streams' limit' ∈ log → id' < id ∧ key' ≠ key
  | _ => True

def Hist.openedKey : Hist → Option ℕ
  | .opened _ key _ _ => some key
  | _ => none

structure OpenInv (c : H2Conn) : Prop where
  odd : c.nextID % 2 = 1
  ids : ∀ id key streams limit, .opened id key streams limit ∈ c.log → id < c.nextID
  keys : ∀ id key streams limit, .opened id key streams limit ∈ c.log → key < c.submitted
  queued : ∀ ex ∈ c.pending, ex.key < c.submitted
  fresh : ∀ ex ∈ c.pending, ∀ id key streams limit, .opened id key streams limit ∈ c.log → key ≠ ex.key
  nodup : (c.pending.map Exchange.key).Nodup
  safe : Holds OpenStep c.log
  once : (c.finished.map Prod.fst).Nodup
  waiting : c.ready = false → c.nextID = 1

def Plain (es : List Hist) : Prop := ∀ e ∈ es, e.openedKey = none

theorem Holds.append_plain {log es : List Hist} (h : Holds OpenStep log) (hes : Plain es) :
    Holds OpenStep (log ++ es) := by
  induction es generalizing log with
  | nil => simpa using h
  | cons e es ih =>
    rw [append_cons]
    apply ih
    · apply h.snoc
      have he := hes e (by simp)
      cases e with
      | opened id key streams limit => simp [Hist.openedKey] at he
      | _ => trivial
    · exact fun e' he' => hes e' (by simp [he'])

theorem mem_append_plain {log es : List Hist} (hes : Plain es) {id key streams limit : ℕ}
    (h : .opened id key streams limit ∈ log ++ es) : .opened id key streams limit ∈ log := by
  rcases mem_append.mp h with hold | hnew
  · exact hold
  have := hes _ hnew
  simp [Hist.openedKey] at this

namespace OpenInv
variable {c c' : H2Conn} {st : H2Stream}

theorem once_finish (h : (c.finished.map Prod.fst).Nodup) (ex : Exchange)
    (r : Except FpError FpResponse) : ((c.finish ex r).finished.map Prod.fst).Nodup := by
  unfold H2Conn.finish
  split_ifs with hfin
  · exact h
  rw [map_append]
  apply h.append (by simp)
  intro _ hkey hkey'
  simp only [map_cons, map_nil, mem_singleton] at hkey'
  obtain ⟨f, hf, rfl⟩ := mem_map.mp hkey
  apply hfin
  unfold H2Conn.isFinished
  rw [any_eq_true]
  exact ⟨f, hf, by simp [hkey']⟩

theorem keep (h : OpenInv c) (hk : Kept c c') {es : List Hist} (hlog : c'.log = c.log ++ es)
    (hes : Plain es) (hsub : c'.submitted = c.submitted)
    (honce : (c'.finished.map Prod.fst).Nodup) : OpenInv c' := by
  have hpend : ∀ ex ∈ c'.pending, ex ∈ c.pending := by
    intro ex hex
    rcases hk.pending with hp | hp
    · rw [← hp]
      exact hex
    rw [hp] at hex
    simp at hex
  constructor
  · rw [hk.nextID]; exact h.odd
  · intro id key n l hmem
    rw [hlog] at hmem
    rw [hk.nextID]
    exact h.ids id key n l (mem_append_plain hes hmem)
  · intro id key n l hmem
    rw [hlog] at hmem
    rw [hsub]
    exact h.keys id key n l (mem_append_plain hes hmem)
  · intro ex hex
    rw [hsub]
    exact h.queued ex (hpend ex hex)
  · intro ex hex id key n l hmem
    rw [hlog] at hmem
    exact h.fresh ex (hpend ex hex) id key n l (mem_append_plain hes hmem)
  · rcases hk.pending with hp | hp
    · rw [hp]
      exact h.nodup
    rw [hp]
    exact nodup_nil
  · rw [hlog]
    exact h.safe.append_plain hes
  · exact honce
  rw [hk.ready, hk.nextID]
  exact h.waiting

theorem plain_single {e : Hist} (he : e.openedKey = none) : Plain [e] := by
  intro _ he'
  rw [mem_singleton.mp he']
  exact he

theorem finish_same (c : H2Conn) (ex : Exchange) (r : Except FpError FpResponse) :
    (c.finish ex r).log = c.log ∧ (c.finish ex r).submitted = c.submitted := by
  unfold H2Conn.finish
  split_ifs <;> exact ⟨rfl, rfl⟩

theorem quiet (hq : Quiet c c') (h : OpenInv c) : OpenInv c' := by
  have hk := hq.kept
  have hnil : Plain [] := by
    intro e he
    simp at he
  cases hq with
  | fail ex err =>
    obtain ⟨hlog, hsub⟩ := finish_same c ex (.error err)
    exact h.keep hk (hlog.trans (append_nil _).symm) hnil hsub (once_finish h.once ex _)
  | @deliver st hst =>
    obtain ⟨hlog, hsub⟩ := finish_same (c.delete st.id) st.ex (.ok ⟨st.status, st.headers, st.body⟩)
    have honce : ((c.delete st.id).finished.map Prod.fst).Nodup := h.once
    exact h.keep hk (congrArg (· ++ [_]) hlog) (plain_single rfl) hsub (once_finish honce st.ex _)
  | @givenEnd st b hst hup hreq hend =>
    have hlog : ((c.giveChunk st b [] true).writeEnd st).log =
        c.log ++ [.given st.id [] true, .data st.id [] true] := by
      simp [H2Conn.writeEnd, H2Conn.giveChunk, H2Conn.note, H2Conn.update]
    refine h.keep hk hlog ?_ rfl h.once
    intro e he
    simp only [mem_cons, not_mem_nil, or_false] at he
    rcases he with rfl | rfl <;> rfl
  | request | drop | shut | retire | unpool => exact h.keep hk (append_nil _).symm hnil rfl h.once
  | _ => exact h.keep hk rfl (plain_single rfl) rfl h.once

theorem addStream (h : OpenInv c) {ex : Exchange} {rest : List Exchange}
    (hp : c.pending = ex :: rest) (hready : c.ready = true) (hid : c.nextID ≤ fpH2MaxStreamID)
    (hlim : c.streams.length < c.maxConcurrent) :
    OpenInv ({ c with pending := rest }.addStream ex) := by
  have hex : ex ∈ c.pending := by simp [hp]
  have hrest : ∀ x ∈ rest, x ∈ c.pending := fun x hx => by simp [hp, hx]
  generalize hes : (if ex.bodySource.isNone then [Hist.given c.nextID ex.body true] else []) ++
    [Hist.headers c.nextID (ex.body.isEmpty && ex.bodySource.isNone)] = es
  have hplain : Plain es := by
    rw [← hes]
    intro e he
    rcases mem_append.mp he with hgiven | hhead
    · split_ifs at hgiven
      · rw [mem_singleton.mp hgiven]
        rfl
      · simp at hgiven
    rw [mem_singleton.mp hhead]
    rfl
  have hlog : ({ c with pending := rest }.addStream ex).log =
      c.log ++ [.opened c.nextID ex.key c.streams.length c.maxConcurrent] ++ es := by
    rw [← hes]
    simp [H2Conn.addStream, H2Conn.note]
  -- what the longer history says of an opened stream
  have hold : ∀ id key n l, .opened id key n l ∈ ({ c with pending := rest }.addStream ex).log →
      .opened id key n l ∈ c.log ∨ id = c.nextID ∧ key = ex.key := by
    intro id key n l hmem
    rw [hlog] at hmem
    rcases mem_append.mp (mem_append_plain hplain hmem) with hc | hnew
    · exact .inl hc
    simp only [mem_singleton, Hist.opened.injEq] at hnew
    exact .inr ⟨hnew.1, hnew.2.1⟩
  constructor
  · change (c.nextID + 2) % 2 = 1
    have := h.odd
    omega
  · intro id key n l hmem
    change id < c.nextID + 2
    rcases hold id key n l hmem with hc | ⟨rfl, -⟩
    · have := h.ids id key n l hc
      omega
    · omega
  · intro id key n l hmem
    rcases hold id key n l hmem with hc | ⟨-, rfl⟩
    · exact h.keys id key n l hc
    · exact h.queued ex hex
  · exact fun x hx => h.queued x (hrest x hx)
  · intro x hx id key n l hmem
    rcases hold id key n l hmem with hc | ⟨-, rfl⟩
    · exact h.fresh x (hrest x hx) id key n l hc
    have hnd := h.nodup
    rw [hp, map_cons, nodup_cons] at hnd
    intro heq
    exact hnd.1 (mem_map.mpr ⟨x, hx, heq.symm⟩)
  · have hnd := h.nodup
    rw [hp, map_cons, nodup_cons] at hnd
    exact hnd.2
  · rw [hlog]
    apply Holds.append_plain _ hplain
    apply h.safe.snoc
    refine ⟨h.odd, hid, hlim, ?_⟩
    intro id' key' n' l' hmem
    exact ⟨h.ids id' key' n' l' hmem, h.fresh ex hex id' key' n' l' hmem⟩
  · exact h.once
  intro hr
  exact absurd (show c.ready = false from hr) (by rw [hready]; simp)

theorem submit (h : OpenInv c) (body : Bytes) (bodySource : Option ℤ) : OpenInv { c with
      pending := c.pending ++ [⟨c.submitted, body, bodySource⟩], submitted := c.submitted + 1 } := by
  constructor
  · exact h.odd
  · exact h.ids
  · intro id key n l hmem
    exact (h.keys id key n l hmem).trans (Nat.lt_succ_self _)
  · intro x hx
    rcases mem_append.mp hx with hold | hnew
    · exact (h.queued x hold).trans (Nat.lt_succ_self _)
    rw [mem_singleton.mp hnew]
    exact Nat.lt_succ_self _
  · intro x hx id key n l hmem
    rcases mem_append.mp hx with hold | hnew
    · exact h.fresh x hold id key n l hmem
    rw [mem_singleton.mp hnew]
    exact (h.keys id key n l hmem).ne
  · rw [map_append]
    apply h.nodup.append (by simp)
    intro key hkey hkey'
    obtain ⟨x, hx, rfl⟩ := mem_map.mp hkey
    have hlt := h.queued x hx
    simp only [map_cons, map_nil, mem_singleton] at hkey'
    omega
  · exact h.safe
  · exact h.once
  · exact h.waiting

theorem move (hm : Move c c') (h : OpenInv c) : OpenInv c' := by
  cases hm with
  | quiet hq => exact quiet hq h
  | «open» hp hready hid hlim hgo => exact h.addStream hp hready hid hlim
  | submit body bodySource hgo => exact h.submit body bodySource
  | ready =>
    exact ⟨h.odd, h.ids, h.keys, h.queued, h.fresh, h.nodup, h.safe, h.once, nofun⟩

theorem goAway (h : OpenInv c) : OpenInv { c with goAway := true } :=
  ⟨h.odd, h.ids, h.keys, h.queued, h.fresh, h.nodup, h.safe, h.once, h.waiting⟩

theorem initial (maxResponseBody : ℕ) : OpenInv { maxResponseBody := maxResponseBody } := by
  constructor
  · rfl
  · simp
  · simp
  · simp
  · simp
  · exact nodup_nil
  · exact Holds.nil
  · exact nodup_nil
  · exact fun _ => rfl

end OpenInv

/-! ### The pending queue -/
namespace H2Conn

def QueueDone (c : H2Conn) : Prop := ∀ ex ∈ c.pending, c.isFinished ex.key = true

theorem isFinished_finish {c : H2Conn} {key : ℕ} (h : c.isFinished key = true) (ex : Exchange)
    (r : Except FpError FpResponse) : (c.finish ex r).isFinished key = true := by
  unfold finish
  split_ifs
  · exact h
  unfold isFinished at *
  rw [any_append, h, Bool.true_or]

end H2Conn

theorem Quiet.isFinished {c c' : H2Conn} (hq : Quiet c c') {key : ℕ}
    (h : c.isFinished key = true) : c'.isFinished key = true := by
  cases hq with
  | fail ex err => exact H2Conn.isFinished_finish h ex _
  | @deliver st hst =>
    have hdel : (c.delete st.id).isFinished key = true := h
    exact H2Conn.isFinished_finish hdel st.ex _
  | _ => exact h

theorem Move.queueDone {c c' : H2Conn} (hm : Move c c')
    (h : c.goAway = true → c.QueueDone) : c'.goAway = true → c'.QueueDone := by
  intro hgo
  cases hm with
  | quiet hq =>
    have hk := hq.kept
    rw [hk.goAway] at hgo
    intro ex hex
    rcases hk.pending with hp | hp
    · rw [hp] at hex
      exact hq.isFinished (h hgo ex hex)
    rw [hp] at hex
    simp at hex
  | «open» hp hready hid hlim hno | submit body bodySource hno =>
    exact absurd (show c.goAway = true from hgo) (by rw [hno]; exact Bool.false_ne_true)
  | ready => exact h hgo

structure QueueInv (c : H2Conn) : Prop where
  opens : OpenInv c
  drained : c.Drained
  closedEmpty : c.ClosedEmpty
  goneAway : c.goAway = true → c.QueueDone

namespace QueueInv
variable {c : H2Conn}
open H2Conn

theorem drained_step (h : QueueInv c) {e : Event} (he : e ≠ .goAway) : (c.step e).Drained ∧ (c.step e).ClosedEmpty := by
  unfold step
  by_cases hcl : c.closed = true
  · rw [if_pos hcl]
    exact ⟨h.drained, h.closedEmpty⟩
  rw [if_neg hcl]
  have hopen : ∀ d : H2Conn, d.closed = c.closed → d.ClosedEmpty := by
    intro d hd hc
    rw [hd] at hc
    exact absurd hc hcl
  have hflush : ∀ d : H2Conn, d.closed = c.closed → d.flushPending.Drained ∧ d.flushPending.ClosedEmpty :=
    fun d hd => ⟨drained_flushPending (hopen d hd), (hopen d hd).flushLoop _⟩
  have hquiet : ∀ d, Quiets c d → d.Drained ∧ d.ClosedEmpty :=
    fun d hd => ⟨h.drained.quiets hd, h.closedEmpty.quiets hd⟩
  cases e with
  | submit body bodySource =>
    dsimp only
    split_ifs with hen hready
    · exact hflush _ rfl
    · refine ⟨.inl ?_, hopen _ rfl⟩
      have hone := h.opens.waiting (by simpa using hready)
      rw [hone]
      decide
    · exact ⟨h.drained, h.closedEmpty⟩
  | connReady =>
    dsimp only
    split_ifs
    · exact ⟨h.drained, h.closedEmpty⟩
    · exact hflush _ rfl
  | replaced =>
    dsimp only
    split_ifs
    · exact hquiet _ (.single .unpool)
    · exact hquiet _ .refl
  | abortPending key =>
    dsimp only
    cases c.pending.find? fun ex => ex.key == key with
    | none => exact hquiet _ .refl
    | some ex => exact hquiet _ (.single (.fail ex _))
  | close err => exact hquiet _ (closeConn_quiets c err)
  | _ =>
    dsimp only
    split_ifs with hready
    · have hshape := react_shape c he
      exact ⟨hshape.drained h.drained h.closedEmpty, hshape.closedEmpty h.closedEmpty⟩
    · exact ⟨h.drained, h.closedEmpty⟩

/-- The step lemma: a GOAWAY may only come when no unfinished exchange waits. -/
theorem step (h : QueueInv c) (e : Event) (hgo : e = .goAway → c.QueueDone) : QueueInv (c.step e) := by
  by_cases he : e = .goAway
  · rw [he]
    rcases step_goAway c with heq | heq
    · rw [heq]
      exact h
    rw [heq]
    exact ⟨h.opens.goAway, h.drained, h.closedEmpty, fun _ => hgo he⟩
  obtain ⟨hdrained, hclosed⟩ := h.drained_step he
  have hmoves := step_moves c he
  exact ⟨moves_invariant OpenInv.move hmoves h.opens, hdrained, hclosed,
    moves_invariant Move.queueDone hmoves h.goneAway⟩

theorem initial (maxResponseBody : ℕ) : QueueInv { maxResponseBody := maxResponseBody } :=
  ⟨OpenInv.initial maxResponseBody, .inr rfl, fun _ => rfl, nofun⟩

end QueueInv

/-- Every GOAWAY of the run comes when no unfinished exchange waits in the queue. -/
def GoAwaysIdle (c : H2Conn) : List Event → Prop
  | [] => True
  | e :: events => (e = .goAway → c.QueueDone) ∧ GoAwaysIdle (c.step e) events

theorem QueueInv.run {c : H2Conn} (h : QueueInv c) {events : List Event}
    (hgo : GoAwaysIdle c events) : QueueInv (c.run events) := by
  induction events generalizing c with
  | nil => exact h
  | cons e events ih => exact ih (h.step e hgo.1) hgo.2

/-- In every run whose GOAWAYs find no unfinished exchange waiting: streams are opened with
increasing odd ids, within the limit and once per exchange, and an exchange is finished at most
once. -/
theorem exchanges_once (maxResponseBody : ℕ) (events : List Event)
    (hgo : GoAwaysIdle { maxResponseBody := maxResponseBody } events) :
    let c := H2Conn.run { maxResponseBody := maxResponseBody } events
    Holds OpenStep c.log ∧ (c.finished.map Prod.fst).Nodup ∧
      (fpH2MaxStreamID < c.nextID ∨ c.goAway = true → c.QueueDone) := by
  intro c
  have h : QueueInv c := (QueueInv.initial maxResponseBody).run hgo
  refine ⟨h.opens.safe, h.opens.once, ?_⟩
  rintro (hid | hgone)
  · rcases h.drained with _ | hnil
    · omega
    intro _ hex
    rw [hnil] at hex
    simp at hex
  · exact h.goneAway hgone

def twoExchanges : List Event :=
  [.connReady, .settings [(h2SettingsMaxConcurrent, 1)] [], .submit [] none, .submit [] none]

theorem exchanges_once_two :
    let c := H2Conn.run { maxResponseBody := 10 } (twoExchanges ++ [.data 1 [] true, .goAway])
    (c.finished.map Prod.fst).Nodup ∧ (c.goAway = true → c.QueueDone) := by
  have hgo : GoAwaysIdle { maxResponseBody := 10 } (twoExchanges ++ [.data 1 [] true, .goAway]) := by
    refine ⟨fun he => Event.noConfusion he, fun he => Event.noConfusion he,
      fun he => Event.noConfusion he, fun he => Event.noConfusion he,
      fun he => Event.noConfusion he, fun _ => ?_, trivial⟩
    unfold H2Conn.QueueDone
    decide +kernel
  have h := exchanges_once 10 (twoExchanges ++ [.data 1 [] true, .goAway]) hgo
  exact ⟨h.2.1, fun hg => h.2.2 (.inr hg)⟩

/-- A GOAWAY with an exchange in the queue leaves it there, unfinished, also when the open
stream is answered. -/
theorem goAway_strands_exchange :
    let c := H2Conn.run { maxResponseBody := 10 } (twoExchanges ++ [.goAway, .data 1 [] true])
    c.goAway = true ∧ c.pending = [⟨1, [], none⟩] ∧ c.isFinished 1 = false := by
  decide +kernel

end AlosHttp.Proxy

import AlosHttp.Proxy.H2Flow

/-! Response assembly of the proxy's HTTP/2 client: what a stream's header blocks and DATA
payloads amount to, and when the delivered response is the one of the final header block. -/
namespace AlosHttp.Proxy
open List H2Conn

/-- The status after a header block, `s` before it: that of the block's last `:status`. -/
def statusAfter (s : ℤ) (fields : List Field) : ℤ :=
  fields.foldl (fun s f => if f.1 = statusName then atoi f.2 else s) s

def blockStatus (fields : List Field) : ℤ := statusAfter 0 fields

def regularFields (fields : List Field) : List Field :=
  fields.filter fun f => decide (f.1 ≠ statusName) && f.1.head?.any fun b => b != Core.colon

def Hist.blockOn (id : ℕ) : Hist → List (List Field)
  | .block id' fields => if id' = id then [fields] else []
  | _ => []

def Hist.payloadOn (id : ℕ) : Hist → Bytes
  | .payload id' bytes => if id' = id then bytes else []
  | _ => []

def blocksOn (id : ℕ) (log : List Hist) : List (List Field) := log.flatMap (Hist.blockOn id)
def bodyOn (id : ℕ) (log : List Hist) : Bytes := log.flatMap (Hist.payloadOn id)

/-- The response a stream stands for: status and fields of its final header block, and all
its payload bytes; none without a final block. -/
def expectedResponse (blocks : List (List Field)) (body : Bytes) : Option FpResponse :=
  (blocks.find? fun b => decide (200 ≤ blockStatus b)).map fun b =>
    ⟨blockStatus b, regularFields b, body⟩

def assembled (blocks : List (List Field)) (body : Bytes) : FpResponse :=
  ⟨blocks.foldl statusAfter 0, blocks.flatMap regularFields, body⟩

/-- There is a final block, no other block has a regular field, and no later block changes
the status. -/
def OnlyFinal (blocks : List (List Field)) : Prop :=
  ∃ before final after, blocks = before ++ final :: after ∧ 200 ≤ blockStatus final ∧
    (∀ b ∈ before, blockStatus b < 200 ∧ regularFields b = []) ∧
    (∀ b ∈ after, regularFields b = []) ∧
    after.foldl statusAfter (blockStatus final) = blockStatus final

/-! ### Blocks -/

theorem statusAfter_of_ne {fields : List Field} (h : blockStatus fields ≠ 0) (s : ℤ) :
    statusAfter s fields = blockStatus fields := by
  have key : ∀ s t, statusAfter s fields = statusAfter t fields ∨
      statusAfter s fields = s ∧ statusAfter t fields = t := by
    clear h
    induction fields with
    | nil => exact fun s t => .inr ⟨rfl, rfl⟩
    | cons f fields ih =>
      intro s t
      unfold statusAfter at *
      simp only [foldl_cons]
      split_ifs
      · exact .inl rfl
      · exact ih s t
  rcases key s 0 with heq | ⟨-, hzero⟩
  · exact heq
  · exact absurd hzero h

theorem applyBlock_status (st : H2Stream) (fields : List Field) :
    (applyBlock st fields).status = statusAfter st.status fields ∧
      (applyBlock st fields).headers = st.headers ++ regularFields fields ∧
      (applyBlock st fields).body = st.body := by
  unfold applyBlock statusAfter regularFields
  induction fields generalizing st with
  | nil => simp
  | cons f fields ih =>
    obtain ⟨hs, hh, hb⟩ := ih (applyField st f)
    rw [foldl_cons, foldl_cons, hs, hh, hb]
    unfold applyField
    by_cases hname : f.1 = statusName
    · simp [hname]
    by_cases hreg : (f.1.head?.any fun b => b != Core.colon) = true
    all_goals simp [hname, hreg]

theorem assembled_iff (blocks : List (List Field)) (body : Bytes) :
    expectedResponse blocks body = some (assembled blocks body) ↔ OnlyFinal blocks := by
  -- a final block has a status of its own, so what came before it does not matter
  have hfold : ∀ before final after, 200 ≤ blockStatus final → (before ++ final :: after).foldl statusAfter 0 =
        after.foldl statusAfter (blockStatus final) := by
    intro before final after hfinal
    rw [foldl_append, foldl_cons, statusAfter_of_ne (by omega)]
  constructor
  · intro h
    obtain ⟨final, hfind, heq⟩ := Option.map_eq_some_iff.mp h
    obtain ⟨hfinal, before, after, hsplit, hbefore⟩ := find?_eq_some_iff_append.mp hfind
    have hfinal' : 200 ≤ blockStatus final := by simpa using hfinal
    unfold assembled at heq
    simp only [FpResponse.mk.injEq, and_true] at heq
    obtain ⟨hstatus, hheaders⟩ := heq
    rw [hsplit, hfold before final after hfinal'] at hstatus
    rw [hsplit, flatMap_append, flatMap_cons] at hheaders
    have hlen := congrArg length hheaders
    simp only [length_append] at hlen
    have hpre : before.flatMap regularFields = [] := length_eq_zero_iff.mp (by omega)
    have hpost : after.flatMap regularFields = [] := length_eq_zero_iff.mp (by omega)
    refine ⟨before, final, after, hsplit, hfinal', ?_, ?_, hstatus.symm⟩
    · intro b hb
      have hb' := hbefore b hb
      simp only [Bool.not_eq_true', decide_eq_false_iff_not, not_le] at hb'
      exact ⟨hb', flatMap_eq_nil_iff.mp hpre b hb⟩
    · exact flatMap_eq_nil_iff.mp hpost
  rintro ⟨before, final, after, rfl, hfinal, hbefore, hafter, hstatus⟩
  have hpre := flatMap_eq_nil_iff.mpr fun b hb => (hbefore b hb).2
  have hpost := flatMap_eq_nil_iff.mpr hafter
  have hfind : (before ++ final :: after).find? (fun b => decide (200 ≤ blockStatus b)) = some final := by
    rw [find?_eq_some_iff_append]
    refine ⟨by simpa using hfinal, before, after, rfl, ?_⟩
    intro b hb
    have := (hbefore b hb).1
    simpa using this
  unfold expectedResponse assembled
  rw [hfind, hfold before final after hfinal, hstatus, flatMap_append, flatMap_cons, hpre, hpost]
  simp

/-! ### The invariant -/

structure StreamResponse (log : List Hist) (st : H2Stream) : Prop where
  status : st.status = (blocksOn st.id log).foldl statusAfter 0
  headers : st.headers = (blocksOn st.id log).flatMap regularFields
  body : st.body = bodyOn st.id log

def DeliveredStep (log : List Hist) : Hist → Prop
  | .delivered id resp => resp = assembled (blocksOn id log) (bodyOn id log)
  | _ => True

structure ResponseInv (c : H2Conn) : Prop where
  streams : ∀ st ∈ c.streams, StreamResponse c.log st
  safe : Holds DeliveredStep c.log

def Silent (es : List Hist) : Prop :=
  ∀ e ∈ es, (∀ id, e.blockOn id = [] ∧ e.payloadOn id = []) ∧ ∀ log, DeliveredStep log e

theorem Silent.received {es : List Hist} (h : Silent es) (log : List Hist) (id : ℕ) :
    blocksOn id (log ++ es) = blocksOn id log ∧ bodyOn id (log ++ es) = bodyOn id log := by
  have hb := flatMap_eq_nil_iff.mpr fun e he => ((h e he).1 id).1
  have hp := flatMap_eq_nil_iff.mpr fun e he => ((h e he).1 id).2
  unfold blocksOn bodyOn
  rw [flatMap_append, flatMap_append, hb, hp, append_nil, append_nil]
  exact ⟨rfl, rfl⟩

theorem Silent.holds {es log : List Hist} (h : Silent es) (hlog : Holds DeliveredStep log) :
    Holds DeliveredStep (log ++ es) := by
  induction es generalizing log with
  | nil => simpa using hlog
  | cons e es ih =>
    rw [append_cons]
    exact ih (fun e' he' => h e' (by simp [he'])) (hlog.snoc ((h e (by simp)).2 log))

namespace ResponseInv
variable {c c' : H2Conn} {st : H2Stream}

theorem keep (h : ResponseInv c) {es : List Hist} (hlog : c'.log = c.log ++ es) (hes : Silent es)
    (hstreams : ∀ t ∈ c'.streams, ∃ t₀ ∈ c.streams, t.id = t₀.id ∧ t.status = t₀.status ∧
      t.headers = t₀.headers ∧ t.body = t₀.body) : ResponseInv c' := by
  constructor
  · intro t ht
    obtain ⟨t₀, ht₀, hid, hs, hh, hb⟩ := hstreams t ht
    have hold := h.streams t₀ ht₀
    obtain ⟨hblocks, hbody⟩ := hes.received c.log t₀.id
    rw [hlog]
    constructor
    · rw [hid, hs, hblocks]
      exact hold.status
    · rw [hid, hh, hblocks]
      exact hold.headers
    rw [hid, hb, hbody]
    exact hold.body
  rw [hlog]
  exact hes.holds h.safe

theorem keepUpdate (h : ResponseInv c) {f : H2Stream → H2Stream} {id : ℕ} {es : List Hist}
    (hstreams : c'.streams = (c.update id f).streams) (hlog : c'.log = c.log ++ es)
    (hes : Silent es)
    (hf : ∀ t, (f t).id = t.id ∧ (f t).status = t.status ∧ (f t).headers = t.headers ∧
      (f t).body = t.body) : ResponseInv c' := by
  apply h.keep hlog hes
  intro t ht
  rw [hstreams] at ht
  obtain ⟨t₀, ht₀, rfl⟩ := mem_map.mp ht
  refine ⟨t₀, ht₀, ?_⟩
  split_ifs
  · exact hf t₀
  · exact ⟨rfl, rfl, rfl, rfl⟩

theorem silent_single {e : Hist} (he : ∀ id, e.blockOn id = [] ∧ e.payloadOn id = [])
    (hd : ∀ log, DeliveredStep log e) : Silent [e] := by
  intro _ he'
  rw [mem_singleton.mp he']
  exact ⟨he, hd⟩

open Hist

theorem touch (h : ResponseInv c) (hf : FlowInv c) (hst : c.stream st.id = some st)
    {st' : H2Stream} {e : Hist} (hon : e.onStream = some st.id)
    (hd : DeliveredStep c.log e) (hnew : StreamResponse (c.log ++ [e]) st') :
    ResponseInv ((c.update st.id fun _ => st').note [e]) := by
  constructor
  · intro t ht
    rcases mem_update hst hf.nodup ht with rfl | ⟨hold, _⟩
    · exact hnew
    have hsame : e.blockOn t.id = [] ∧ e.payloadOn t.id = [] := by
      cases e <;> simp_all [blockOn, payloadOn, onStream, eq_comm]
    have hprev := h.streams t hold
    have hblocks : blocksOn t.id (c.log ++ [e]) = blocksOn t.id c.log := by
      simp [blocksOn, hsame.1]
    have hbody : bodyOn t.id (c.log ++ [e]) = bodyOn t.id c.log := by
      simp [bodyOn, hsame.2]
    exact ⟨hprev.status.trans (by rw [← hblocks]; rfl), hprev.headers.trans (by rw [← hblocks]; rfl),
      hprev.body.trans (by rw [← hbody]; rfl)⟩
  · exact h.safe.snoc hd

theorem quiet (hq : Quiet c c') (hf : FlowInv c) (h : ResponseInv c) : ResponseInv c' := by
  have hnil : Silent [] := by
    intro e he
    simp at he
  have hsame : ∀ t ∈ c.streams, ∃ t₀ ∈ c.streams, t.id = t₀.id ∧ t.status = t₀.status ∧
      t.headers = t₀.headers ∧ t.body = t₀.body := fun t ht => ⟨t, ht, rfl, rfl, rfl, rfl⟩
  cases hq with
  | chunk | finalData | given | streamUpdate =>
    refine h.keepUpdate rfl rfl (silent_single (fun _ => ⟨rfl, rfl⟩) fun _ => trivial) ?_
    exact fun _ => ⟨rfl, rfl, rfl, rfl⟩
  | request hst hup hrem =>
    refine h.keepUpdate rfl (append_nil _).symm hnil ?_
    exact fun _ => ⟨rfl, rfl, rfl, rfl⟩
  | @givenEnd st b hst hup hreq hend =>
    have h₁ : ResponseInv (c.giveChunk st b [] true) := by
      refine h.keepUpdate rfl rfl (silent_single (fun _ => ⟨rfl, rfl⟩) fun _ => trivial) ?_
      exact fun _ => ⟨rfl, rfl, rfl, rfl⟩
    refine h₁.keepUpdate rfl rfl (silent_single (fun _ => ⟨rfl, rfl⟩) fun _ => trivial) ?_
    exact fun _ => ⟨rfl, rfl, rfl, rfl⟩
  | fail ex err =>
    have hfin : (c.finish ex (.error err)).log = c.log ∧ (c.finish ex (.error err)).streams = c.streams := by
      unfold finish
      split_ifs <;> exact ⟨rfl, rfl⟩
    refine h.keep (hfin.1.trans (append_nil _).symm) hnil ?_
    rw [hfin.2]
    exact hsame
  | drop hst =>
    refine h.keep (append_nil _).symm hnil fun t ht => ?_
    exact hsame t (mem_delete ht).1
  | @deliver st hst =>
    have hresp := h.streams st (stream_eq_some hst).1
    have hfin : ((c.delete st.id).finish st.ex (.ok ⟨st.status, st.headers, st.body⟩)).log = c.log ∧
        ((c.delete st.id).finish st.ex (.ok ⟨st.status, st.headers, st.body⟩)).streams = (c.delete st.id).streams := by
      unfold finish
      split_ifs <;> exact ⟨rfl, rfl⟩
    have hlog : (((c.delete st.id).finish st.ex (.ok ⟨st.status, st.headers, st.body⟩)).note
        [.delivered st.id ⟨st.status, st.headers, st.body⟩]).log =
        c.log ++ [.delivered st.id ⟨st.status, st.headers, st.body⟩] := congrArg (· ++ [_]) hfin.1
    constructor
    · intro t ht
      have ht' : t ∈ (c.delete st.id).streams := by
        rw [← hfin.2]
        exact ht
      have hold := h.streams t (mem_delete ht').1
      rw [hlog]
      exact ⟨hold.status.trans (by simp [blocksOn, blockOn]),
        hold.headers.trans (by simp [blocksOn, blockOn]),
        hold.body.trans (by simp [bodyOn, payloadOn])⟩
    rw [hlog]
    apply h.safe.snoc
    unfold DeliveredStep assembled
    rw [hresp.status, hresp.headers, hresp.body]
  | shut =>
    refine h.keep (append_nil _).symm hnil fun t ht => ?_
    simp at ht
  | retire | unpool => exact h.keep (append_nil _).symm hnil hsame
  | settings init maxConcurrent maxFrameSize hinit hfit =>
    refine h.keep rfl (silent_single (fun _ => ⟨rfl, rfl⟩) fun _ => trivial) fun t ht => ?_
    obtain ⟨t₀, ht₀, rfl⟩ := mem_map.mp ht
    exact ⟨t₀, ht₀, rfl, rfl, rfl, rfl⟩
  | connUpdate inc hinc hfit =>
    exact h.keep rfl (silent_single (fun _ => ⟨rfl, rfl⟩) fun _ => trivial) hsame
  | @block st hst fields =>
    have hresp := h.streams st (stream_eq_some hst).1
    obtain ⟨hs, hh, hb⟩ := applyBlock_status st fields
    refine h.touch hf hst rfl trivial ?_
    constructor
    · rw [hs, applyBlock_id, hresp.status]
      simp [blocksOn, blockOn]
    · rw [hh, applyBlock_id, hresp.headers]
      simp [blocksOn, blockOn]
    rw [hb, applyBlock_id, hresp.body]
    simp [bodyOn, payloadOn]
  | @payload st hst bytes =>
    have hresp := h.streams st (stream_eq_some hst).1
    refine h.touch hf hst rfl trivial ?_
    constructor
    · exact hresp.status.trans (by simp [blocksOn, blockOn])
    · exact hresp.headers.trans (by simp [blocksOn, blockOn])
    rw [hresp.body]
    simp [bodyOn, payloadOn]

theorem addStream (h : ResponseInv c) (hf : FlowInv c) (ex : Exchange) (rest : List Exchange) :
    ResponseInv ({ c with pending := rest }.addStream ex) := by
  have hun : ∀ e ∈ c.log, e.blockOn c.nextID = [] ∧ e.payloadOn c.nextID = [] := by
    intro e he
    have hne : e.onStream ≠ some c.nextID := by
      intro hon
      exact absurd (hf.fresh e he _ hon) (lt_irrefl _)
    cases e <;> simp_all [blockOn, payloadOn, onStream]
  have hsilent : Silent ([opened c.nextID ex.key c.streams.length c.maxConcurrent] ++
      (if ex.bodySource.isNone then [given c.nextID ex.body true] else []) ++
      [headers c.nextID (ex.body.isEmpty && ex.bodySource.isNone)]) := by
    intro e he
    simp only [mem_append, mem_singleton] at he
    rcases he with (rfl | he) | rfl
    · exact ⟨fun _ => ⟨rfl, rfl⟩, fun _ => trivial⟩
    · split_ifs at he
      · rw [mem_singleton.mp he]
        exact ⟨fun _ => ⟨rfl, rfl⟩, fun _ => trivial⟩
      · simp at he
    · exact ⟨fun _ => ⟨rfl, rfl⟩, fun _ => trivial⟩
  obtain ⟨hblocks, hbody⟩ := hsilent.received c.log c.nextID
  have hblocks₀ : blocksOn c.nextID c.log = [] := flatMap_eq_nil_iff.mpr fun e he => (hun e he).1
  have hbody₀ : bodyOn c.nextID c.log = [] := flatMap_eq_nil_iff.mpr fun e he => (hun e he).2
  constructor
  · intro t ht
    rcases mem_append.mp ht with hold | hlast
    · obtain ⟨hb, hp⟩ := hsilent.received c.log t.id
      have hprev := h.streams t hold
      exact ⟨hprev.status.trans (by rw [← hb]; rfl), hprev.headers.trans (by rw [← hb]; rfl),
        hprev.body.trans (by rw [← hp]; rfl)⟩
    rw [mem_singleton.mp hlast]
    refine ⟨?_, ?_, ?_⟩
    · change (0 : ℤ) = (blocksOn c.nextID (c.log ++ _)).foldl statusAfter 0
      rw [hblocks, hblocks₀]
      rfl
    · change ([] : List Field) = (blocksOn c.nextID (c.log ++ _)).flatMap regularFields
      rw [hblocks, hblocks₀]
      rfl
    change ([] : Bytes) = bodyOn c.nextID (c.log ++ _)
    rw [hbody, hbody₀]
  · exact hsilent.holds h.safe

theorem move (hm : Move c c') (h : FlowInv c ∧ ResponseInv c) : FlowInv c' ∧ ResponseInv c' := by
  refine ⟨FlowInv.move hm h.1, ?_⟩
  cases hm with
  | quiet hq => exact quiet hq h.1 h.2
  | «open» hp hready hid hlim hgo => exact h.2.addStream h.1 _ _
  | submit | ready => exact ⟨h.2.streams, h.2.safe⟩

theorem run (maxResponseBody : ℕ) (events : List Event) :
    ResponseInv (H2Conn.run { maxResponseBody := maxResponseBody } events) := by
  have hinit : ResponseInv { maxResponseBody := maxResponseBody } := ⟨by simp, Holds.nil⟩
  have h := run_invariant move (fun h => ⟨h.1.congr rfl rfl rfl rfl rfl, ⟨h.2.streams, h.2.safe⟩⟩)
    ⟨FlowInv.initial maxResponseBody, hinit⟩ events
  exact h.2

end ResponseInv

/-- A delivered response is that of the final header block with all payload bytes exactly when no
other block has a regular field and none after the final one changes the status. -/
theorem delivered_iff (maxResponseBody : ℕ) (events : List Event) (before after : List Hist)
    (id : ℕ) (resp : FpResponse)
    (h : (H2Conn.run { maxResponseBody := maxResponseBody } events).log = before ++ .delivered id resp :: after) :
    expectedResponse (blocksOn id before) (bodyOn id before) = some resp ↔ OnlyFinal (blocksOn id before) := by
  have hresp := (ResponseInv.run maxResponseBody events).safe before _ after h
  rw [hresp]
  exact assembled_iff _ _

theorem delivered_iff_ok : expectedResponse [[(statusName, ascii "200"), (ascii "a", ascii "b")]] [7] =
        some ⟨200, [(ascii "a", ascii "b")], [7]⟩ := by
  have h := delivered_iff 10 [.connReady, .submit [] none,
      .headers 1 (.ok ([(statusName, ascii "200"), (ascii "a", ascii "b")], false)) false,
      .data 1 [7] true]
    [.opened 1 0 0 100, .given 1 [] true, .headers 1 true,
      .block 1 [(statusName, ascii "200"), (ascii "a", ascii "b")], .payload 1 [7]]
    [] 1 ⟨200, [(ascii "a", ascii "b")], [7]⟩ (by decide +kernel)
  apply h.mpr
  refine ⟨[], [(statusName, ascii "200"), (ascii "a", ascii "b")], [], ?_, ?_, ?_, ?_, ?_⟩
  · decide +kernel
  · decide +kernel
  · simp
  · simp
  · rfl

/-- An informational block and a trailer end up in the delivered field list, and a stream
without any header block is delivered with status zero. -/
theorem delivered_merges_blocks : (H2Conn.run { maxResponseBody := 10 } [.connReady, .submit [] none, .submit [] none,
          .headers 1 (.ok ([(statusName, ascii "103"), (ascii "link", ascii "x")], false)) false,
          .headers 1 (.ok ([(statusName, ascii "200"), (ascii "a", ascii "b")], false)) false,
          .data 1 [7] false,
          .headers 1 (.ok ([(ascii "t", ascii "u")], false)) true,
          .data 3 [] true]).finished.map Prod.snd =
      [.ok ⟨200, [(ascii "link", ascii "x"), (ascii "a", ascii "b"), (ascii "t", ascii "u")], [7]⟩,
        .ok ⟨0, [], []⟩] ∧
    expectedResponse [[(statusName, ascii "103"), (ascii "link", ascii "x")],
        [(statusName, ascii "200"), (ascii "a", ascii "b")], [(ascii "t", ascii "u")]] [7] =
      some ⟨200, [(ascii "a", ascii "b")], [7]⟩ ∧
    expectedResponse [] [] = none :=
  ⟨rfl, rfl, rfl⟩

end AlosHttp.Proxy

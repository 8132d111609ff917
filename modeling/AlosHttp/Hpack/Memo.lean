import AlosHttp.Hpack.Request

/-! `DecodeRequest` and its memo of the last header block that left the dynamic table alone: over any
run of blocks, resizes and insertions the decoder answers as one that never consults it. -/
namespace AlosHttp.Hpack
open Data Rfc7541

def hpackMemoMaxBlock : ℕ := 512
def hpackHuffmanMaxExpandNum : ℕ := 8
def hpackHuffmanMaxExpandDen : ℕ := 5

def hpackStaticFieldMaxSize : ℕ :=
  hpackStaticTable.foldl (fun largest f => max largest (f.1.length + f.2.length)) 0 + hpackEntryOverhead

def h2FieldListSize (fields : List Field) : ℕ :=
  fields.foldl (fun n f => n + (f.1.length + f.2.length + hpackEntryOverhead)) 0

/-- What `DecodeRequest` returns: a request result and whether it is a GET for the root. -/
structure RequestAnswer where
  result : RequestResult
  isRoot : Bool
  deriving DecidableEq

namespace HpackDecoder

def fieldListTooLarge (d : HpackDecoder) (blockLen : ℕ) (headers : List Field) (indexedRefBytes : ℕ) : Bool :=
  let bound := blockLen * hpackHuffmanMaxExpandNum / hpackHuffmanMaxExpandDen +
    headers.length * (hpackStaticFieldMaxSize + d.dynNameMax) + indexedRefBytes
  bound > d.maxHeaderListSize && h2FieldListSize headers > d.maxHeaderListSize

def storeMemo (d : HpackDecoder) (block : Bytes) (reqMeta : HpackRequestMeta) (isRoot : Bool)
    (headers : List Field) : HpackDecoder :=
  { d with
    memoBlock := block
    memoHeaders := headers
    memoMeta := reqMeta
    memoRoot := isRoot
    memoValid := true }

section
variable (hpackHashBytes : Bytes → UInt64)

/-- `DecodeRequest` from its first decoding step on, so without a look at the memo. -/
def decodeRequestUnmemoized (d : HpackDecoder) (data : Bytes) : RequestAnswer × HpackDecoder :=
  let gen := d.tableGen
  let refStart := d.dynRefBytes
  match d.decodeIntoRequest hpackHashBytes data with
  | (⟨headers, reqMeta, some e⟩, d) => (⟨⟨headers, reqMeta, some e⟩, false⟩, d)
  | (⟨headers, reqMeta, none⟩, d) =>
    if d.fieldListTooLarge data.length headers (d.dynRefBytes - refStart) then
      (⟨⟨headers, reqMeta, some .headerListTooLarge⟩, false⟩, d)
    else
      let isRoot := reqMeta.method == ascii "GET" && reqMeta.path == ascii "/"
      let d :=
        if d.tableGen = gen ∧ data.length ≤ hpackMemoMaxBlock then
          d.storeMemo data reqMeta isRoot headers
        else d
      (⟨⟨headers, reqMeta, none⟩, isRoot⟩, d)

def decodeRequest (d : HpackDecoder) (data : Bytes) : RequestAnswer × HpackDecoder :=
  if d.memoValid && data == d.memoBlock then (⟨⟨d.memoHeaders, d.memoMeta, none⟩, d.memoRoot⟩, d)
  else d.decodeRequestUnmemoized hpackHashBytes data

def memoizedRootRequest (d : HpackDecoder) (data : Bytes) : Bool := d.memoValid && d.memoRoot && data == d.memoBlock

variable {d e : HpackDecoder}

theorem decodeIntoRequest_alike (h : d.Alike e) (data : Bytes) :
    (d.decodeIntoRequest hpackHashBytes data).1 = (e.decodeIntoRequest hpackHashBytes data).1 ∧
      (d.decodeIntoRequest hpackHashBytes data).2.Alike (e.decodeIntoRequest hpackHashBytes data).2 ∧
      ∃ ref, (d.decodeIntoRequest hpackHashBytes data).2.dynRefBytes = d.dynRefBytes + ref ∧
        (e.decodeIntoRequest hpackHashBytes data).2.dynRefBytes = e.dynRefBytes + ref := by
  have htouched : ∀ {cd nd ce ne}, (d.touched cd nd 0).CacheOk → (e.touched ce ne 0).CacheOk →
      (d.touched cd nd 0).Alike (e.touched ce ne 0) := by
    intro cd nd ce ne hokd hoke
    exact (Alike.touched h.left hokd).trans (h.trans (Alike.touched h.right hoke).symm)
  cases hshape : isSimpleGetPath data with
  | true =>
    obtain ⟨cd, nd, hokd, hd⟩ := decodeIntoRequest_simple hpackHashBytes h.left hshape
    obtain ⟨ce, ne, hoke, he⟩ := decodeIntoRequest_simple hpackHashBytes h.right hshape
    rw [hd, he]
    exact ⟨rfl, htouched hokd hoke, 0, rfl, rfl⟩
  | false =>
    obtain ⟨cd, nd, hokd, hd⟩ := decodeIntoRequest_fields hpackHashBytes h.left hshape
    obtain ⟨ce, ne, hoke, he⟩ := decodeIntoRequest_fields hpackHashBytes h.right hshape
    rw [hd, he]
    exact decodeRequestFields_alike hpackHashBytes (htouched hokd hoke) data

theorem decodeIntoRequest_changed (h : d.CacheOk) (data : Bytes) :
    ∃ k ≤ data.length, Changed k d (d.decodeIntoRequest hpackHashBytes data).2 := by
  cases hshape : isSimpleGetPath data with
  | true =>
    obtain ⟨cache, next, hok, heq⟩ := decodeIntoRequest_simple hpackHashBytes h hshape
    rw [heq]
    exact ⟨0, Nat.zero_le _, .touched hok⟩
  | false =>
    obtain ⟨cache, next, hok, heq⟩ := decodeIntoRequest_fields hpackHashBytes h hshape
    obtain ⟨k, _, hchanged⟩ := requestLoop.run_changed hpackHashBytes data.length hok
      { reqMeta := { allowProtocol := d.allowExtendedConnect } } data
    rw [heq, decodeRequestFields_dec]
    exact ⟨0 + k, by omega, (Changed.touched hok).trans hchanged⟩

theorem Changed.alike (hd : d.CacheOk) (h : Changed 0 d e) : e.Alike d where
  table := (h.same rfl).1
  limit := h.limit
  nameMax := (h.same rfl).2.1
  gen := h.gen.trans (UInt64.add_zero _)
  connect := h.connect
  listSize := h.listSize
  left := h.cache
  right := hd

theorem Alike.storeMemo (h : d.Alike e) (block reqMeta isRoot headers) :
    (d.storeMemo block reqMeta isRoot headers).Alike e :=
  ⟨h.table, h.limit, h.nameMax, h.gen, h.connect, h.listSize, h.left, h.right⟩

theorem decodeRequestUnmemoized_cases (d : HpackDecoder) (data : Bytes) :
    let r := d.decodeIntoRequest hpackHashBytes data
    let u := d.decodeRequestUnmemoized hpackHashBytes data
    u.2 = r.2 ∨ (u.1.result.err = none ∧ r.2.tableGen = d.tableGen ∧ data.length ≤ hpackMemoMaxBlock ∧
      u.2 = r.2.storeMemo data u.1.result.reqMeta u.1.isRoot u.1.result.headers) := by
  unfold decodeRequestUnmemoized
  dsimp only
  generalize d.decodeIntoRequest hpackHashBytes data = r
  obtain ⟨⟨headers, _, err⟩, d'⟩ := r
  cases err with
  | some e => exact .inl rfl
  | none =>
    dsimp only
    by_cases hlarge : d'.fieldListTooLarge data.length headers (d'.dynRefBytes - d.dynRefBytes) = true
    · rw [if_pos hlarge]
      exact .inl rfl
    rw [if_neg hlarge]
    split_ifs with hgen
    · exact .inr ⟨rfl, hgen.1, hgen.2, rfl⟩
    · exact .inl rfl

theorem decodeRequestUnmemoized_alike (h : d.Alike e) (data : Bytes) :
    (d.decodeRequestUnmemoized hpackHashBytes data).1 = (e.decodeRequestUnmemoized hpackHashBytes data).1 ∧
      (d.decodeRequestUnmemoized hpackHashBytes data).2.Alike (e.decodeRequestUnmemoized hpackHashBytes data).2 := by
  obtain ⟨hres, hdec, _, hrefd, hrefe⟩ := decodeIntoRequest_alike hpackHashBytes h data
  unfold decodeRequestUnmemoized
  dsimp only
  generalize d.decodeIntoRequest hpackHashBytes data = rd at hres hdec hrefd ⊢
  generalize e.decodeIntoRequest hpackHashBytes data = re at hres hdec hrefe ⊢
  obtain ⟨⟨headers, _, err⟩, d'⟩ := rd
  obtain ⟨_, e'⟩ := re
  subst hres
  cases err with
  | some e => exact ⟨rfl, hdec⟩
  | none =>
    dsimp only
    have hlarge : d'.fieldListTooLarge data.length headers (d'.dynRefBytes - d.dynRefBytes) =
        e'.fieldListTooLarge data.length headers (e'.dynRefBytes - e.dynRefBytes) := by
      unfold fieldListTooLarge
      rw [hdec.nameMax, hdec.listSize, hrefd, hrefe, Nat.add_sub_cancel_left, Nat.add_sub_cancel_left]
    rw [hlarge, hdec.gen, h.gen]
    by_cases hl : e'.fieldListTooLarge data.length headers (e'.dynRefBytes - e.dynRefBytes) = true
    · rw [if_pos hl, if_pos hl]
      exact ⟨rfl, hdec⟩
    rw [if_neg hl, if_neg hl]
    refine ⟨rfl, ?_⟩
    by_cases hgen : e'.tableGen = e.tableGen ∧ data.length ≤ hpackMemoMaxBlock
    · rw [if_pos hgen, if_pos hgen]
      exact ((hdec.storeMemo ..).symm.storeMemo ..).symm
    rw [if_neg hgen, if_neg hgen]
    exact hdec

/-- What the memo holds is what its block decodes to now, with no change of the table. -/
def MemoOk (d : HpackDecoder) : Prop := d.memoValid = true → ∀ e : HpackDecoder, e.Alike d →
    (e.decodeRequestUnmemoized hpackHashBytes d.memoBlock).1 = ⟨⟨d.memoHeaders, d.memoMeta, none⟩, d.memoRoot⟩ ∧
      (e.decodeRequestUnmemoized hpackHashBytes d.memoBlock).2.Alike d

theorem MemoOk.changed {k : ℕ} (hd : d.CacheOk) (h : d.MemoOk hpackHashBytes)
    (hc : Changed k d e) : e.MemoOk hpackHashBytes := by
  intro hvalid f hf
  by_cases hk : k = 0
  · subst hk
    obtain ⟨-, -, hv⟩ := hc.same rfl
    have halike : e.Alike d := hc.alike hd
    obtain ⟨hres, hdec⟩ := h (hv.symm.trans hvalid) f (hf.trans halike)
    rw [hc.block, hc.headers, hc.reqMeta, hc.root]
    exact ⟨hres, hdec.trans halike.symm⟩
  rw [hc.dropped hk] at hvalid
  cases hvalid

theorem MemoOk.unmemoized (hd : d.CacheOk) (h : d.MemoOk hpackHashBytes)
    (data : Bytes) : (d.decodeRequestUnmemoized hpackHashBytes data).2.MemoOk hpackHashBytes := by
  obtain ⟨k, _, hchanged⟩ := decodeIntoRequest_changed hpackHashBytes hd data
  obtain heq | ⟨herr, hgen, hlen, heq⟩ := decodeRequestUnmemoized_cases hpackHashBytes d data
  · rw [heq]
    exact h.changed hpackHashBytes hd hchanged
  unfold hpackMemoMaxBlock at hlen
  obtain rfl : k = 0 := (hchanged.gen_eq_iff (by omega)).mp hgen
  intro _ e he
  have halike : (d.decodeRequestUnmemoized hpackHashBytes data).2.Alike d := by
    rw [heq]
    exact (hchanged.alike hd).storeMemo ..
  obtain ⟨hres, hdec⟩ := decodeRequestUnmemoized_alike hpackHashBytes (he.trans halike) data
  have hblock : (d.decodeRequestUnmemoized hpackHashBytes data).2.memoBlock = data := by
    rw [heq]
    rfl
  rw [hblock, hres]
  refine ⟨?_, hdec⟩
  rw [heq]
  unfold HpackDecoder.storeMemo
  rw [← herr]

theorem decodeRequest_alike (h : d.Alike e) (hm : d.MemoOk hpackHashBytes) (data : Bytes) :
    (d.decodeRequest hpackHashBytes data).1 = (e.decodeRequestUnmemoized hpackHashBytes data).1 ∧
      (d.decodeRequest hpackHashBytes data).2.Alike (e.decodeRequestUnmemoized hpackHashBytes data).2 ∧
      (d.decodeRequest hpackHashBytes data).2.MemoOk hpackHashBytes := by
  unfold decodeRequest
  split_ifs with hhit
  · obtain ⟨hvalid, hblock⟩ := Bool.and_eq_true_iff.mp hhit
    obtain rfl : data = d.memoBlock := beq_iff_eq.mp hblock
    obtain ⟨hres, hdec⟩ := hm hvalid e h.symm
    exact ⟨hres.symm, hdec.symm, hm⟩
  obtain ⟨hres, hdec⟩ := decodeRequestUnmemoized_alike hpackHashBytes h data
  exact ⟨hres, hdec, hm.unmemoized hpackHashBytes h.left data⟩

end

end HpackDecoder

/-- A call on a connection's decoder: a request block, a block that only has to be decoded
(trailers, discarded streams), or a direct change of the table. -/
inductive DecoderEvent where
  | request (block : Bytes)
  | block (data : Bytes)
  | table (call : TableCall)

inductive EventAnswer where
  | request (answer : RequestAnswer)
  | block (headers : Except HpackError (List Field))
  | table

section
variable (hpackHashBytes : Bytes → UInt64)

def DecoderEvent.apply (decode : HpackDecoder → Bytes → RequestAnswer × HpackDecoder)
    (d : HpackDecoder) : DecoderEvent → EventAnswer × HpackDecoder
  | .request data => ((decode d data).map .request id)
  | .block data => ((d.decodeInto hpackHashBytes data).map .block id)
  | .table call => (.table, d.tableCall call)

def eventAnswers (decode : HpackDecoder → Bytes → RequestAnswer × HpackDecoder) :
    HpackDecoder → List DecoderEvent → List (EventAnswer × HpackDynTable)
  | _, [] => []
  | d, event :: events =>
    let r := event.apply hpackHashBytes decode d
    (r.1, r.2.toHpackDynTable) :: eventAnswers decode r.2 events

variable {d e : HpackDecoder}

theorem HpackDecoder.decodeInto_alike (h : d.Alike e) (data : Bytes) :
    (d.decodeInto hpackHashBytes data).1 = (e.decodeInto hpackHashBytes data).1 ∧
      (d.decodeInto hpackHashBytes data).2.Alike (e.decodeInto hpackHashBytes data).2 := by
  obtain ⟨hacc, herr, hdec, -⟩ := intoLoop.run_alike hpackHashBytes data.length h [] data
  unfold decodeInto
  generalize intoLoop.run hpackHashBytes data.length d [] data = rd at hacc herr hdec ⊢
  generalize intoLoop.run hpackHashBytes data.length e [] data = re at hacc herr hdec ⊢
  obtain ⟨_, err, _⟩ := rd
  obtain ⟨_, _, _⟩ := re
  subst hacc herr
  cases err with
  | some e | none => exact ⟨rfl, hdec⟩

theorem HpackDecoder.decodeInto_changed (h : d.CacheOk) (data : Bytes) :
    ∃ k, Changed k d (d.decodeInto hpackHashBytes data).2 := by
  obtain ⟨k, -, hchanged⟩ := intoLoop.run_changed hpackHashBytes data.length h [] data
  refine ⟨k, ?_⟩
  unfold decodeInto
  generalize intoLoop.run hpackHashBytes data.length d [] data = r at hchanged ⊢
  obtain ⟨_, err, _⟩ := r
  cases err with
  | some e | none => exact hchanged

def TableCall.rep : TableCall → Rep
  | .addEntry name value => .field (name, value) true
  | .setMaxSize maxSize => .sizeUpdate maxSize

theorem HpackDecoder.tableCall_eq (d : HpackDecoder) (call : TableCall) :
    d.tableCall call = call.rep.applyDecoder d := by
  cases call <;> rfl

open HpackDecoder

theorem DecoderEvent.apply_alike (h : d.Alike e) (hm : d.MemoOk hpackHashBytes) (event : DecoderEvent) :
    let r := event.apply hpackHashBytes (decodeRequest hpackHashBytes) d
    let r' := event.apply hpackHashBytes (decodeRequestUnmemoized hpackHashBytes) e
    r.1 = r'.1 ∧ r.2.Alike r'.2 ∧ r.2.MemoOk hpackHashBytes := by
  cases event with
  | request data =>
    obtain ⟨hres, hdec, hmemo⟩ := decodeRequest_alike hpackHashBytes h hm data
    exact ⟨congrArg EventAnswer.request hres, hdec, hmemo⟩
  | block data =>
    obtain ⟨hres, hdec⟩ := decodeInto_alike hpackHashBytes h data
    obtain ⟨k, hchanged⟩ := decodeInto_changed hpackHashBytes h.left data
    exact ⟨congrArg EventAnswer.block hres, hdec, hm.changed hpackHashBytes h.left hchanged⟩
  | table call =>
    obtain ⟨k, -, hchanged⟩ := HpackDecoder.Changed.applyDecoder h.left call.rep
    refine ⟨rfl, ?_, ?_⟩
    · show (d.tableCall call).Alike (e.tableCall call)
      rw [tableCall_eq, tableCall_eq]
      exact h.applyDecoder call.rep
    show (d.tableCall call).MemoOk hpackHashBytes
    rw [tableCall_eq]
    exact hm.changed hpackHashBytes h.left hchanged

theorem eventAnswers_alike (events : List DecoderEvent) (h : d.Alike e) (hm : d.MemoOk hpackHashBytes) :
    eventAnswers hpackHashBytes (decodeRequest hpackHashBytes) d events =
      eventAnswers hpackHashBytes (decodeRequestUnmemoized hpackHashBytes) e events := by
  induction events generalizing d e with
  | nil => rfl
  | cons event events ih =>
    obtain ⟨hres, hdec, hmemo⟩ := DecoderEvent.apply_alike hpackHashBytes h hm event
    rw [eventAnswers, eventAnswers, hres, hdec.table, ih hdec hmemo]

/-- Over every run of calls a decoder answers as if its memo were never consulted, and has
the same table after each call. -/
theorem decodeRequest_memo_transparent (tableSize : UInt32) (allowExtendedConnect : Bool)
    (maxHeaderListSize : ℕ) (events : List DecoderEvent) :
    let d := { newHpackDecoder tableSize with allowExtendedConnect, maxHeaderListSize }
    eventAnswers hpackHashBytes (HpackDecoder.decodeRequest hpackHashBytes) d events =
      eventAnswers hpackHashBytes (HpackDecoder.decodeRequestUnmemoized hpackHashBytes) d events := by
  intro d
  have hcache : d.CacheOk := newHpackDecoder_cacheOk tableSize
  have hmemo : d.MemoOk hpackHashBytes := by
    intro hvalid
    cases hvalid
  exact eventAnswers_alike hpackHashBytes events (.refl hcache) hmemo

end

end AlosHttp.Hpack

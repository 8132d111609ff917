import AlosHttp.H1.Chunked

/-! The chunked decoder is incremental, so its runs do not depend on how the body is cut
into reads, and the buffered path decodes what the streaming path does. -/
namespace AlosHttp.H1
open AlosHttp.Core Data List

def framingLineEnd (src : Bytes) : Option ℕ := indexByte (src.take chunkedFramingLineMax) lf

variable {src o : Bytes} {d d' : ChunkedDecoder}

theorem framingLineEnd_lt {nl : ℕ} (h : framingLineEnd src = some nl) :
    nl < src.length ∧ nl < chunkedFramingLineMax := by
  have hlt := (findIdx?_eq_some_iff_getElem.mp h).1
  rw [length_take] at hlt
  omega

theorem framingLineEnd_append {nl : ℕ} (h : framingLineEnd src = some nl)
    (more : Bytes) : framingLineEnd (src ++ more) = some nl := by
  unfold framingLineEnd indexByte at h ⊢
  rw [take_append, findIdx?_append, h]
  rfl

theorem framingLineEnd_take {nl : ℕ} (h : framingLineEnd src = some nl) :
    framingLineEnd (src.take (nl + 1)) = some nl := by
  have hlt := framingLineEnd_lt h
  unfold framingLineEnd indexByte at h ⊢
  rw [findIdx?_eq_some_iff_getElem] at h ⊢
  obtain ⟨_, hat, hbefore⟩ := h
  refine ⟨by simp; omega, by simpa using hat, ?_⟩
  intro j hj
  simpa using hbefore j hj

theorem framingLineEnd_long (h : framingLineEnd src = none) (hlen : chunkedFramingLineMax ≤ src.length) (more : Bytes) :
    framingLineEnd (src ++ more) = none := by
  unfold framingLineEnd at h ⊢
  rwa [take_append_of_le_length hlen]

def ChunkedDecoder.framingLine (avx2 : Bool) (d : ChunkedDecoder) (l : Bytes) :
    ChunkedDecoder × Except String (ℕ × Bytes) :=
  if d.state = .inTrailer then d.trailerLine avx2 l else d.sizeLine l

structure ChunkedDecoder.Inv (d : ChunkedDecoder) : Prop where
  data_left : d.state = .inData → 0 < d.left
  other_left : d.state ≠ .inData → d.left = 0
  no_trailers : d.state ≠ .inTrailer → d.state ≠ .done → d.trailerBytes = 0 ∧ d.trailers = []

theorem ChunkedDecoder.Inv.init (capture : Bool) : ChunkedDecoder.Inv { captureTrailers := capture } := by
  constructor
  · intro h
    simp at h
  · intro _
    rfl
  intro _ _
  exact ⟨rfl, rfl⟩

theorem ChunkedDecoder.Inv.fresh (h : d.Inv) (hd : d.state = .awaitSize) :
    d = { captureTrailers := d.captureTrailers } := by
  obtain ⟨_, _⟩ := h.no_trailers (by simp [hd]) (by simp [hd])
  have hl := h.other_left (by simp [hd])
  cases d
  simp_all

inductive ChunkedDecoder.Call (avx2 : Bool) (d : ChunkedDecoder) (src : Bytes) :
    ChunkedDecoder × Except String (ℕ × Bytes) → Prop
  | data (hd : d.state = .inData) (hmore : src.length < d.left) :
      Call avx2 d src ({ d with left := d.left - src.length }, .ok (src.length, src))
  | dataEnd (hd : d.state = .inData) (hall : d.left ≤ src.length) :
      Call avx2 d src ({ d with left := 0, state := .awaitDataEnd }, .ok (d.left, src.take d.left))
  | dataCrlf (hd : d.state = .awaitDataEnd) (hlen : 2 ≤ src.length) (hsrc : src.take 2 = crlf) :
      Call avx2 d src ({ d with state := .awaitSize }, .ok (2, []))
  | noCrlf (hd : d.state = .awaitDataEnd) (hlen : 2 ≤ src.length) (hsrc : src.take 2 ≠ crlf) :
      Call avx2 d src (d, .error errChunkedMalformed)
  | line (hd : d.state = .awaitSize ∨ d.state = .inTrailer) {nl : ℕ}
      (hnl : framingLineEnd src = some nl) :
      Call avx2 d src (d.framingLine avx2 (src.take (nl + 1)))
  | longLine (hd : d.state = .awaitSize ∨ d.state = .inTrailer) (hnl : framingLineEnd src = none)
      (hlen : chunkedFramingLineMax ≤ src.length) : Call avx2 d src (d, .error errChunkedMalformed)
  | short (hd : d.state = .awaitDataEnd) (hlen : src.length < 2) : Call avx2 d src (d, .ok (0, []))
  | noLine (hd : d.state = .awaitSize ∨ d.state = .inTrailer) (hnl : framingLineEnd src = none)
      (hlen : src.length < chunkedFramingLineMax) : Call avx2 d src (d, .ok (0, []))
  | finished (hd : d.state = .done) : Call avx2 d src (d, .ok (0, []))

variable (avx2 : Bool)

theorem ChunkedDecoder.next_line (src : Bytes) (hd : d.state = .awaitSize ∨ d.state = .inTrailer) :
    d.next avx2 src = match framingLineEnd src with
      | none => if chunkedFramingLineMax ≤ src.length then (d, .error errChunkedMalformed)
        else (d, .ok (0, []))
      | some nl => d.framingLine avx2 (src.take (nl + 1)) := by
  unfold next framingLine framingLineEnd
  rcases hd with hd | hd <;> simp only [hd] <;> cases indexByte (src.take chunkedFramingLineMax) lf <;> rfl

theorem ChunkedDecoder.next_data (src : Bytes) (hd : d.state = .inData) : d.next avx2 src = if src.length < d.left
      then ({ d with left := d.left - src.length }, .ok (src.length, src))
      else ({ d with left := 0, state := .awaitDataEnd }, .ok (d.left, src.take d.left)) := by
  unfold next
  simp only [hd]
  by_cases hlt : src.length < d.left
  · rw [if_pos hlt, Nat.min_eq_left hlt.le, take_length, if_neg (by omega)]
  · rw [if_neg hlt, Nat.min_eq_right (by omega), Nat.sub_self, if_pos rfl]

theorem ChunkedDecoder.next_dataEnd (src : Bytes) (hd : d.state = .awaitDataEnd) :
    d.next avx2 src = if src.length < 2 then (d, .ok (0, []))
      else if src.take 2 != crlf then (d, .error errChunkedMalformed)
      else ({ d with state := .awaitSize }, .ok (2, [])) := by
  unfold next
  simp only [hd]

theorem ChunkedDecoder.next_call (d : ChunkedDecoder) (src : Bytes) : d.Call avx2 src (d.next avx2 src) := by
  have hline : d.state = .awaitSize ∨ d.state = .inTrailer → d.Call avx2 src (d.next avx2 src) := by
    intro hd
    rw [next_line avx2 src hd]
    cases hnl : framingLineEnd src with
    | none =>
      split_ifs with hlen
      · exact .longLine hd hnl hlen
      · exact .noLine hd hnl (by omega)
    | some nl => exact .line hd hnl
  cases hd : d.state with
  | awaitSize => exact hline (.inl hd)
  | inTrailer => exact hline (.inr hd)
  | inData =>
    rw [next_data avx2 src hd]
    split_ifs with hlt
    · exact .data hd hlt
    · exact .dataEnd hd (by omega)
  | awaitDataEnd =>
    rw [next_dataEnd avx2 src hd]
    split_ifs with hlen hsrc
    · exact .short hd hlen
    · exact .noCrlf hd (by omega) (by simpa using hsrc)
    · exact .dataCrlf hd (by omega) (by simpa using hsrc)
  | done =>
    unfold next
    simp only [hd]
    exact .finished hd

open Except

theorem ChunkedDecoder.framingLine_ok {avx2 : Bool} {l : Bytes} {n : ℕ}
    (h : d.framingLine avx2 l = (d', .ok (n, o))) : n = l.length ∧ o = [] := by
  unfold framingLine trailerLine sizeLine at h
  dsimp only at h
  repeat' split at h
  all_goals simp only [Prod.mk.injEq, ok.injEq, reduceCtorEq, and_false] at h
  all_goals exact ⟨h.2.1.symm, h.2.2.symm⟩

theorem ChunkedDecoder.Inv.framingLine {avx2 : Bool} {l : Bytes} {n : ℕ}
    (hi : d.Inv) (hd : d.state = .awaitSize ∨ d.state = .inTrailer)
    (h : d.framingLine avx2 l = (d', .ok (n, o))) : d'.Inv := by
  have hleft : d.left = 0 := hi.other_left (by rcases hd with hd | hd <;> simp [hd])
  unfold ChunkedDecoder.framingLine at h
  split_ifs at h with ht
  · -- a trailer line stays in the trailer or ends the body
    have key : (d'.state = .inTrailer ∨ d'.state = .done) ∧ d'.left = d.left := by
      unfold trailerLine at h
      dsimp only at h
      split_ifs at h
      · simp only [Prod.mk.injEq, reduceCtorEq, and_false] at h
      · obtain ⟨rfl, _⟩ := Prod.mk.inj h
        exact ⟨.inr rfl, rfl⟩
      all_goals
        rcases hs : splitTrailerLine avx2 l with _ | f
        · simp [hs] at h
        simp only [hs] at h
        obtain ⟨rfl, _⟩ := Prod.mk.inj h
        exact ⟨.inl ht, rfl⟩
    constructor
    · intro hs
      rcases key.1 with hk | hk <;> simp [hk] at hs
    · intro _
      rw [key.2, hleft]
    intro h1 h2
    rcases key.1 with hk | hk
    · exact absurd hk h1
    · exact absurd hk h2
  have hnone := hi.no_trailers ht (by rcases hd with hd | hd <;> simp [hd])
  unfold sizeLine at h
  rcases hp : parseChunkSizeLine l.dropLast with _ | size
  · simp [hp] at h
  rcases size with _ | k
  · simp only [hp] at h
    obtain ⟨rfl, _⟩ := Prod.mk.inj h
    exact ⟨by simp, fun _ => hleft, by simp⟩
  simp only [hp] at h
  obtain ⟨rfl, _⟩ := Prod.mk.inj h
  exact ⟨fun _ => Nat.succ_pos k, by simp, fun _ _ => hnone⟩

theorem ChunkedDecoder.next_incremental : Incremental ChunkedDecoder.Inv (ChunkedDecoder.next avx2) where
  keeps := by
    intro d src d' n o hi h
    have hc := d.next_call avx2 src
    generalize d.next avx2 src = r at hc h
    cases hc with
    | data hd hmore =>
      obtain ⟨rfl, _⟩ := Prod.mk.inj h
      exact ⟨fun _ => by simp; omega, fun hne => absurd hd hne, hi.no_trailers⟩
    | dataEnd hd hall =>
      obtain ⟨rfl, _⟩ := Prod.mk.inj h
      exact ⟨by simp, fun _ => rfl, fun _ _ => hi.no_trailers (by simp [hd]) (by simp [hd])⟩
    | dataCrlf hd =>
      obtain ⟨rfl, _⟩ := Prod.mk.inj h
      exact ⟨by simp, fun _ => hi.other_left (by simp [hd]),
        fun _ _ => hi.no_trailers (by simp [hd]) (by simp [hd])⟩
    | line hd hnl => exact hi.framingLine hd h
    | noCrlf | longLine => simp at h
    | short | noLine | finished =>
      obtain ⟨rfl, _⟩ := Prod.mk.inj h
      exact hi
  stall := by
    intro d src d' o hi h
    have hc := d.next_call avx2 src
    generalize d.next avx2 src = r at hc h
    cases hc with
    | data hd hmore =>
      simp only [Prod.mk.injEq, ok.injEq] at h
      rw [← h.1, h.2.1, Nat.sub_zero]
    | dataEnd hd hall =>
      simp only [Prod.mk.injEq, ok.injEq] at h
      have := hi.data_left hd
      omega
    | line hd hnl =>
      have hn := (framingLine_ok h).1
      have hlt := framingLineEnd_lt hnl
      rw [length_take] at hn
      omega
    | noCrlf | longLine | dataCrlf => simp at h
    | short | noLine | finished =>
      obtain ⟨rfl, _⟩ := Prod.mk.inj h
      rfl
  nil := by
    intro d hi
    have hc := d.next_call avx2 []
    generalize hr : d.next avx2 [] = r at hc
    cases hc with
    | data | short | noLine | finished => rfl
    | dataEnd hd hall =>
      have := hi.data_left hd
      simp at hall
      omega
    | line hd hnl => simp [framingLineEnd, indexByte] at hnl
    | dataCrlf hd hlen | noCrlf hd hlen => simp at hlen
    | longLine hd hnl hlen => simp [chunkedFramingLineMax] at hlen
  bound := by
    intro d src d' n o hi h
    have hc := d.next_call avx2 src
    generalize d.next avx2 src = r at hc h
    cases hc with
    | data | dataEnd | dataCrlf | short | noLine | finished =>
      simp only [Prod.mk.injEq, ok.injEq] at h
      omega
    | line hd hnl =>
      have hn := (framingLine_ok h).1
      rw [length_take] at hn
      omega
    | noCrlf | longLine => simp at h
  take := by
    intro d src d' n o hi h hn
    have hc := d.next_call avx2 src
    generalize hr : d.next avx2 src = r at hc h
    cases hc with
    | data hd hmore =>
      simp only [Prod.mk.injEq, ok.injEq] at h
      rw [← h.2.1, take_length, hr, h.1, h.2.2]
    | dataEnd hd hall =>
      obtain ⟨rfl, rfl, rfl⟩ := h
      rw [next_data avx2 _ hd, length_take, if_neg (by omega), take_take, Nat.min_self]
    | dataCrlf hd hlen hsrc =>
      obtain ⟨rfl, rfl, rfl⟩ := h
      rw [next_dataEnd avx2 _ hd, length_take, if_neg (by omega), take_take, Nat.min_self,
        hsrc]
      rfl
    | line hd hnl =>
      have hlen := (framingLine_ok h).1
      have hlt := framingLineEnd_lt hnl
      rw [length_take, Nat.min_eq_left (by omega)] at hlen
      subst hlen
      rw [next_line avx2 _ hd, framingLineEnd_take hnl]
      dsimp only
      rw [take_take, Nat.min_self, h]
    | noCrlf | longLine => simp at h
    | short | noLine | finished =>
      simp only [Prod.mk.injEq, ok.injEq] at h
      omega
  error_append := by
    intro d src d' e hi h more
    have hc := d.next_call avx2 src
    generalize d.next avx2 src = r at hc h
    cases hc with
    | noCrlf hd hlen hsrc =>
      rw [next_dataEnd avx2 _ hd, length_append, if_neg (by omega),
        take_append_of_le_length hlen, if_pos (by simpa using hsrc), h]
    | longLine hd hnl hlen =>
      rw [next_line avx2 _ hd, framingLineEnd_long hnl hlen]
      rw [if_pos (by rw [length_append]; omega), h]
    | line hd hnl =>
      have hlt := framingLineEnd_lt hnl
      rw [next_line avx2 _ hd, framingLineEnd_append hnl]
      dsimp only
      rw [take_append_of_le_length (by omega), h]
    | data | dataEnd | dataCrlf | short | noLine | finished => simp at h
  ok_append := by
    intro d src d' n o hi h hn more
    have hc := d.next_call avx2 src
    generalize hr : d.next avx2 src = r at hc h
    cases hc with
    | data hd hmore =>
      -- the chunk goes on in the new input
      obtain ⟨rfl, rfl, rfl⟩ := h
      by_cases hm : more = []
      · left
        rw [hm, append_nil, hr]
      right
      have hpos := length_pos_iff.mpr hm
      refine ⟨rfl, ?_⟩
      rw [next_data avx2 (src ++ more) hd, length_append]
      have hd' : ({ d with left := d.left - src.length } : ChunkedDecoder).state = .inData := hd
      rw [next_data avx2 more hd']
      by_cases hlt : src.length + more.length < d.left
      · rw [if_pos hlt, if_pos (by simp; omega)]
        exact ⟨_, more.length, more, by omega, rfl, by simp [Nat.sub_sub]⟩
      rw [if_neg hlt, if_neg (by simp; omega)]
      refine ⟨_, d.left - src.length, more.take (d.left - src.length), by omega, rfl, ?_⟩
      rw [take_append, take_of_length_le hmore.le, Nat.add_sub_cancel' hmore.le]
    | dataEnd hd hall =>
      left
      rw [next_data avx2 _ hd, length_append, if_neg (by omega),
        take_append_of_le_length hall, h]
    | dataCrlf hd hlen hsrc =>
      left
      rw [next_dataEnd avx2 _ hd, length_append, if_neg (by omega),
        take_append_of_le_length hlen, hsrc, ← h]
      rfl
    | line hd hnl =>
      left
      have hlt := framingLineEnd_lt hnl
      rw [next_line avx2 _ hd, framingLineEnd_append hnl]
      dsimp only
      rw [take_append_of_le_length (by omega), h]
    | noCrlf | longLine => simp at h
    | short | noLine | finished =>
      simp only [Prod.mk.injEq, ok.injEq] at h
      omega

open Incremental

theorem ChunkedDecoder.drain_done (hd : d.state = .done) (x : Bytes) : drain (next avx2) d x = ⟨d, 0, [], none⟩ := by
  apply drain_stall (o := [])
  unfold next
  simp only [hd]

def ChunkedDecoder.forget (d : ChunkedDecoder) : ChunkedDecoder :=
  { d with captureTrailers := false, trailers := [] }

theorem ChunkedDecoder.next_forget (d : ChunkedDecoder) (src : Bytes) :
    d.forget.next avx2 src = ((d.next avx2 src).1.forget, (d.next avx2 src).2) := by
  have htrailer : ∀ l, d.forget.trailerLine avx2 l = ((d.trailerLine avx2 l).1.forget, (d.trailerLine avx2 l).2) := by
    intro l
    unfold trailerLine forget
    simp only [Bool.false_eq_true, if_false]
    split_ifs
    · rfl
    · rfl
    all_goals cases splitTrailerLine avx2 l <;> rfl
  have hsize : ∀ l, d.forget.sizeLine l = ((d.sizeLine l).1.forget, (d.sizeLine l).2) := by
    intro l
    unfold sizeLine forget
    rcases parseChunkSizeLine l.dropLast with _ | _ | k <;> rfl
  have hline : d.state = .awaitSize ∨ d.state = .inTrailer → d.forget.next avx2 src =
      ((d.next avx2 src).1.forget, (d.next avx2 src).2) := by
    intro hd
    rw [next_line avx2 src hd, next_line avx2 src (show d.forget.state = _ ∨ _ from hd)]
    rcases framingLineEnd src with _ | nl
    · split_ifs <;> rfl
    unfold framingLine
    dsimp only
    rw [htrailer, hsize]
    change (if d.state = .inTrailer then _ else _) = _
    split_ifs <;> rfl
  cases hd : d.state with
  | awaitSize => exact hline (.inl hd)
  | inTrailer => exact hline (.inr hd)
  | inData =>
    rw [next_data avx2 src hd, next_data avx2 src (show d.forget.state = _ from hd)]
    change (if src.length < d.left then _ else _) = _
    split_ifs <;> rfl
  | awaitDataEnd =>
    rw [next_dataEnd avx2 src hd, next_dataEnd avx2 src (show d.forget.state = _ from hd)]
    split_ifs <;> rfl
  | done =>
    unfold next
    simp only [hd, show d.forget.state = _ from hd]

open ChunkedDecoder

/-- What the scan returns, by how the run of a fresh decoder from the same place ends. When
the scan waits, it resumes between two chunks. -/
inductive ScanResult (avx2 : Bool) (x : Bytes) (start : ℕ) : ℕ × ℤ × ℕ → Prop
  | malformed (resume : ℕ) (he : (drain (next avx2) {} x).error.isSome = true) :
      ScanResult avx2 x start (0, -1, resume)
  | complete {d : ChunkedDecoder} {n : ℕ} {o : Bytes} (hd : d.state = .done)
      (hrun : drain (next avx2) {} x = ⟨d, n, o, none⟩) :
      ScanResult avx2 x start (start + n, 1, start + n)
  | waiting {d : ChunkedDecoder} {n c : ℕ} {o p : Bytes} (hd : d.state ≠ .done)
      (hrun : drain (next avx2) {} x = ⟨d, n, o, none⟩)
      (hresume : drain (next avx2) {} (x.take c) = ⟨{}, c, p, none⟩) :
      ScanResult avx2 x start (0, 0, start + c)

theorem asyncChunkedLoop_spec (buf : Bytes) (start fuel : ℕ) (d : ChunkedDecoder)
    (k c : ℕ) (o p : Bytes) (hd : d.state ≠ .done) (hforget : d.forget = d)
    (hk : drain (next avx2) {} ((buf.drop start).take k) = ⟨d, k, o, none⟩)
    (hc : drain (next avx2) {} ((buf.drop start).take c) = ⟨{}, c, p, none⟩)
    (hfuel : (buf.drop start).length - k < fuel) :
    ScanResult avx2 (buf.drop start) start (asyncChunkedLoop avx2 buf fuel d (start + k) (start + c)) := by
  have hinc := next_incremental avx2
  have hinit : ChunkedDecoder.Inv {} := .init false
  induction fuel generalizing d k c o p with
  | zero => omega
  | succ fuel ih =>
    obtain ⟨_, hinv, hfrom⟩ := hinc.drain_from hinit hk
    unfold asyncChunkedLoop
    rw [← drop_drop]
    rcases hstep : d.next avx2 ((buf.drop start).drop k) with ⟨d', e | ⟨n, data⟩⟩
    · apply ScanResult.malformed
      rw [hfrom, drain_error hstep]
      rfl
    dsimp only
    have hbound := hinc.bound hinv hstep
    rw [length_drop] at hbound
    by_cases hn : n = 0
    · subst hn
      obtain rfl := hinc.stall hinv hstep
      refine .waiting (d := d') (n := k) (o := o) hd ?_ hc
      rw [hfrom, drain_stall hstep]
      simp [Drained.after]
    have hnext := hinc.drain_take_add hinit hk (hinc.drain_take_step hinv hstep hn)
    rw [if_neg hn, add_assoc]
    by_cases hdone : d'.state = .done
    · rw [if_pos hdone]
      apply ScanResult.complete hdone (o := o ++ data)
      rw [(hinc.drain_from hinit hnext).2.2, drain_done avx2 hdone]
      simp [Drained.after]
    rw [if_neg hdone]
    have hforget' : d'.forget = d' := by
      have hcomm := d.next_forget avx2 ((buf.drop start).drop k)
      rw [hforget, hstep] at hcomm
      exact (Prod.mk.inj hcomm).1.symm
    by_cases hsize : d'.state = .awaitSize
    · -- a chunk ended here, and the decoder is fresh again
      have hfresh : d' = {} := by
        rw [(hinc.keeps hinv hstep).fresh hsize, ← hforget']
        rfl
      subst hfresh
      exact ih _ (k + n) (k + n) _ _ hdone rfl hnext hnext (by omega)
    rw [if_neg hsize]
    exact ih d' (k + n) c _ p hdone hforget' hnext hc (by omega)

theorem asyncChunkedComplete_spec (buf : Bytes) (start : ℕ) :
    ScanResult avx2 (buf.drop start) start (asyncChunkedComplete avx2 buf start) := by
  have hzero := (next_incremental avx2).drain_nil (.init false)
  have hfuel : (buf.drop start).length - 0 < buf.length + 1 := by
    rw [length_drop]
    omega
  exact asyncChunkedLoop_spec avx2 buf start (buf.length + 1) {} 0 0 [] [] (by simp) rfl hzero hzero hfuel

theorem decodeChunkedLoop_spec (fuel : ℕ) {dst : Bytes}
    {n : ℕ} (hinv : d.Inv) (hfuel : src.length < fuel)
    (hrun : drain (next avx2) d src = ⟨d', n, o, none⟩) (hd' : d'.state = .done) :
    decodeChunkedLoop avx2 fuel d dst src = some (dst ++ o, d'.trailers) := by
  have hinc := next_incremental avx2
  induction fuel generalizing d dst src o n with
  | zero => omega
  | succ fuel ih =>
    unfold decodeChunkedLoop
    by_cases hd : d.state = .done
    · rw [drain_done avx2 hd] at hrun
      obtain ⟨rfl, _, rfl, _⟩ := hrun
      rw [if_pos hd, append_nil]
    rcases hstep : d.next avx2 src with ⟨d₁, e | ⟨m, _⟩⟩
    · rw [drain_error hstep] at hrun
      simp at hrun
    have hbound := hinc.bound hinv hstep
    dsimp only
    split_ifs with hm
    · subst hm
      obtain rfl := hinc.stall hinv hstep
      rw [drain_stall hstep] at hrun
      simp only [Drained.mk.injEq] at hrun
      rw [hrun.1] at hd
      exact absurd hd' hd
    rw [hinc.drain_ok hinv hstep hm] at hrun
    rcases hrest : drain (next avx2) d₁ (src.drop m) with ⟨_, _, _, _⟩
    rw [hrest] at hrun
    obtain ⟨rfl, _, rfl, rfl⟩ := hrun
    rw [ih (hinc.keeps hinv hstep) (by rw [length_drop]; omega) hrest,
      append_assoc]

abbrev capturing (avx2 : Bool) := drain (next avx2) { captureTrailers := true }

theorem bodyVerdict_append (start : ℕ) (x y : Bytes) (h : bodyVerdict start (capturing avx2 x) ≠ .waiting) :
    bodyVerdict start (capturing avx2 (x ++ y)) = bodyVerdict start (capturing avx2 x) := by
  unfold capturing
  rw [(next_incremental avx2).drain_append (.init true)]
  split_ifs with he
  · rfl
  have hdone : (capturing avx2 x).state.state = .done := by
    by_contra hd
    unfold bodyVerdict at h
    rw [if_neg he, if_neg hd] at h
    exact h rfl
  rw [drain_done avx2 hdone]
  unfold bodyVerdict Drained.after
  simp [he, hdone]

/-- The buffered path after some reads `x`: while it waits, it will resume between two
chunks. -/
structure BufferedBody.Inv (avx2 : Bool) (head x : Bytes) (b : BufferedBody) : Prop where
  data : b.data = head ++ x
  verdict : b.verdict = bodyVerdict head.length
    (drain (next avx2) { captureTrailers := true } x)
  resume : b.verdict = .waiting → ∃ c p, (b.chunkScanPos = head.length + c ∨ b.chunkScanPos = 0 ∧ c = 0) ∧
    drain (next avx2) {} (x.take c) = ⟨{}, c, p, none⟩

theorem drain_forget (x : Bytes) : drain (next avx2) {} x =
      (capturing avx2 x).map forget :=
  drain_map (next_forget avx2) { captureTrailers := true } x

theorem decodeChunkedInto_take (x : Bytes)
    (he : (capturing avx2 x).error = none) (hd : (capturing avx2 x).state.state = .done) :
    decodeChunkedInto avx2 [] (x.take (capturing avx2 x).consumed) =
      some ((capturing avx2 x).out, (capturing avx2 x).state.trailers) := by
  have htake : capturing avx2 (x.take (capturing avx2 x).consumed) = capturing avx2 x :=
    (next_incremental avx2).drain_take (.init true) x he
  rcases hrun : capturing avx2 x with ⟨d, n, o, e⟩
  rw [hrun] at htake he hd
  obtain rfl : e = none := he
  exact decodeChunkedLoop_spec avx2 _ (.init true) (Nat.lt_succ_self _) htake hd

theorem BufferedBody.Inv.read {avx2 : Bool} {head x : Bytes} {b : BufferedBody} (h : b.Inv avx2 head x) (y : Bytes) :
    (b.read avx2 head.length y).Inv avx2 head (x ++ y) := by
  have hinc := next_incremental avx2
  have hinit : ChunkedDecoder.Inv {} := .init false
  have hdata : b.data ++ y = head ++ (x ++ y) := by rw [h.data, append_assoc]
  unfold BufferedBody.read
  by_cases hw : b.verdict = .waiting
  · obtain ⟨c, p, _, hc⟩ := h.resume hw
    have hcx := (hinc.drain_from hinit hc).1
    have hcxy : drain (next avx2) {} ((x ++ y).take c) = ⟨{}, c, p, none⟩ := by
      rw [take_append_of_le_length hcx, hc]
    have hwhole := (hinc.drain_from hinit hcxy).2.2
    rw [drain_forget] at hwhole
    have hscan : (if head.length < b.chunkScanPos ∧ b.chunkScanPos ≤ (b.data ++ y).length
        then b.chunkScanPos else head.length) = head.length + c := by
      rw [hdata, length_append, length_append]
      split_ifs with hif <;> omega
    have hspec := asyncChunkedComplete_spec avx2 (b.data ++ y) (head.length + c)
    have hdrop : (b.data ++ y).drop (head.length + c) = (x ++ y).drop c := by
      rw [hdata, ← drop_drop, drop_left]
    rw [hdrop] at hspec
    simp only [hw, hscan]
    generalize asyncChunkedComplete avx2 (b.data ++ y) (head.length + c) = r at hspec
    cases hspec with
    | malformed resume he =>
      have herr : (capturing avx2 (x ++ y)).error = (drain (next avx2) {} ((x ++ y).drop c)).error := by
        simpa only [Drained.map, Drained.after] using congrArg Drained.error hwhole
      refine ⟨hdata, ?_, fun hne => by simp at hne⟩
      unfold bodyVerdict
      rw [herr, if_pos he]
      rfl
    | @complete d n o hd hrun =>
      rw [hrun] at hwhole
      have herr : (capturing avx2 (x ++ y)).error = none := congrArg Drained.error hwhole
      have hcons : (capturing avx2 (x ++ y)).consumed = c + n := congrArg Drained.consumed hwhole
      have hdone : (capturing avx2 (x ++ y)).state.state = .done := (congrArg (fun r => r.state.state) hwhole).trans hd
      have hrange : ((b.data ++ y).take (head.length + c + n)).drop head.length = (x ++ y).take (c + n) := by
        rw [hdata, drop_take, drop_left, add_assoc, Nat.add_sub_cancel_left]
      have hdec := decodeChunkedInto_take avx2 (x ++ y) herr hdone
      rw [hcons] at hdec
      simp only [hrange, hdec, show ¬ ((1 : ℤ) = -1) by decide, show ¬ ((1 : ℤ) = 0) by decide,
        if_false]
      refine ⟨hdata, ?_, fun hne => by simp at hne⟩
      unfold bodyVerdict
      rw [herr, hcons, if_neg (by simp), if_pos hdone, add_assoc]
    | @waiting d n c' o p' hd hrun hresume =>
      rw [hrun] at hwhole
      have herr : (capturing avx2 (x ++ y)).error = none := congrArg Drained.error hwhole
      have hstate : (capturing avx2 (x ++ y)).state.state = d.state := congrArg (fun r => r.state.state) hwhole
      refine ⟨hdata, ?_, fun _ => ⟨c + c', p ++ p', .inl (add_assoc _ _ _), ?_⟩⟩
      · unfold bodyVerdict
        rw [herr, hstate, if_neg (by simp), if_neg hd]
        rfl
      · exact hinc.drain_take_add hinit hcxy hresume
  have hfinal : bodyVerdict head.length (capturing avx2 (x ++ y)) = b.verdict := by
    rw [h.verdict]
    apply bodyVerdict_append
    rwa [← h.verdict]
  cases hv : b.verdict with
  | waiting => exact absurd hv hw
  | malformed => exact ⟨hdata, by rw [hfinal, hv], fun hne => by simp at hne⟩
  | complete body trailers bodyEnd =>
    exact ⟨hdata, by rw [hfinal, hv], fun hne => by simp at hne⟩

theorem BufferedBody.Inv.run (head : Bytes) (reads : List Bytes) :
    (bufferedRun avx2 head reads).Inv avx2 head reads.flatten := by
  induction reads using reverseRecOn with
  | nil =>
    have hnil : drain (next avx2) { captureTrailers := true } [] =
        ⟨{ captureTrailers := true }, 0, [], none⟩ :=
      (next_incremental avx2).drain_nil (.init true)
    refine ⟨(append_nil head).symm, ?_, fun _ => ⟨0, [], .inr ⟨rfl, rfl⟩, ?_⟩⟩
    · rw [flatten_nil, hnil]
      rfl
    · exact (next_incremental avx2).drain_nil (.init false)
  | append_singleton reads read ih =>
    rw [flatten_concat, bufferedRun, foldl_concat]
    exact ih.read read

/-- However the body is cut into reads, the streaming decoder ends as it does on the whole body at
once, and the buffered path reaches the same verdict, body, trailers and end. -/
theorem chunked_segmentation (avx2 capture : Bool) (head : Bytes) (reads : List Bytes) :
    (feedAll (next avx2) { captureTrailers := capture } reads).result =
        drain (next avx2) { captureTrailers := capture } reads.flatten ∧
      (bufferedRun avx2 head reads).verdict = bodyVerdict head.length
        (drain (next avx2) { captureTrailers := true } reads.flatten) := by
  constructor
  · exact (next_incremental avx2).feedAll_eq (.init capture) reads
  · exact (BufferedBody.Inv.run avx2 head reads).verdict

example :
    (bufferedRun true [] [ascii "3\r\na", ascii "bc\r\n0\r\nX: y\r\n", ascii "\r\nGET"]).verdict =
      .complete (ascii "abc") [(ascii "X", ascii "y")] 19 := by
  decide +kernel

end AlosHttp.H1

import AlosHttp.H1.HeadGrammar
import AlosHttp.H1.RootFast

/-! The three walks of the root shortcut read the same lines: each of them folds
`RootFastState.field` over the field lines of the block. -/
namespace AlosHttp.H1
open AlosHttp.Core Data List

theorem trimOWS_append_left {ows w : Bytes} (ho : ∀ c ∈ ows, isOWS c = true) : trimOWS (ows ++ w) = trimOWS w := by
  rw [trimOWS, trimOWS, dropWhile_append, dropWhile_eq_nil_iff.mpr ho]
  rfl

theorem trimOWS_trimOWS (b : Bytes) : trimOWS (trimOWS b) = trimOWS b := by
  have hdrop : ((b.dropWhile isOWS).rdropWhile isOWS).dropWhile isOWS = (b.dropWhile isOWS).rdropWhile isOWS := by
    obtain ⟨t, ht⟩ := rdropWhile_prefix isOWS (l := b.dropWhile isOWS)
    rcases hy : (b.dropWhile isOWS).rdropWhile isOWS with _ | ⟨a, y⟩
    · rfl
    rw [hy] at ht
    have ha : isOWS a = false := by
      have := head?_dropWhile_not isOWS b
      rw [← ht] at this
      simpa using this
    rw [dropWhile_cons_of_neg (by simp [ha])]
  unfold trimOWS
  rw [hdrop, rdropWhile_idempotent]

theorem equalFold_lit (name : Bytes) {a b : Bytes} (h : toLowerASCII a = toLowerASCII b) :
    asciiEqualFoldBytes name a = equalFoldASCII name b := by
  rw [asciiEqualFoldBytes_eq, Bool.eq_iff_iff, equalFoldASCII_iff, equalFoldASCII_iff, h]

theorem field_kind (st : RootFastState) (name value : Bytes) (hostSafe : Bool) :
    st.field name value hostSafe = match nameKind name with
      | .host => if hostSafe || validateHost (trimOWS value) then
          some { st with hosts := st.hosts + 1 } else none
      | .connection => if !equalFoldASCII (trimOWS value) (ascii "keep-alive") &&
          (connectionOptionList (trimOWS value)).1 then some { st with keepAlive := false } else some st
      | .other => some st
      | _ => none := by
  have e1 : asciiEqualFoldBytes name (ascii "host") = equalFoldASCII name (ascii "Host") :=
    equalFold_lit name (by decide)
  have e2 : asciiEqualFoldBytes name (ascii "connection") = equalFoldASCII name (ascii "Connection") :=
    equalFold_lit name (by decide)
  have e3 : asciiEqualFoldBytes name (ascii "expect") = equalFoldASCII name (ascii "Expect") :=
    equalFold_lit name (by decide)
  have e4 : asciiEqualFoldBytes name (ascii "content-length") =
      equalFoldASCII name (ascii "Content-Length") := equalFold_lit name (by decide)
  have e5 : asciiEqualFoldBytes name (ascii "transfer-encoding") =
      equalFoldASCII name (ascii "Transfer-Encoding") := equalFold_lit name (by decide)
  unfold RootFastState.field RootFastState.field.rootRefused
  simp only [e1, e2, e3, e4, e5, asciiEqualFoldBytes_eq]
  rcases nameKind_cases name with ⟨hk, h⟩ | ⟨hk, h⟩ | ⟨hk, h⟩ | ⟨hk, h⟩ | ⟨hk, h⟩ | ⟨hk, h1, h2, h3, h4, h5⟩
  · have hl : name.length = 4 := equalFoldASCII_length h
    simp only [hk, hl, h, if_true]
  · have hl : name.length = 6 := equalFoldASCII_length h
    simp [hk, hl, h]
  · have hl : name.length = 10 := equalFoldASCII_length h
    simp only [hk, hl, h, if_true]
  · have hl : name.length = 14 := equalFoldASCII_length h
    simp [hk, hl, h]
  · have hl : name.length = 17 := equalFoldASCII_length h
    simp [hk, hl, h]
  simp only [hk, h1, h2, h3, h4, h5, Bool.or_false, Bool.false_eq_true, if_false]
  split <;> rfl

def rootStep (st : RootFastState) (f : FieldLine) : Option RootFastState := st.field f.name (trimOWS f.raw) false

theorem field_eq_rootStep (st : RootFastState) (f : FieldLine) {value : Bytes} {hostSafe : Bool}
    (hv : trimOWS value = trimOWS f.raw)
    (hs : hostSafe = true → validateHost (trimOWS f.raw) = true) :
    st.field f.name value hostSafe = rootStep st f := by
  have hhost : (hostSafe || validateHost (trimOWS f.raw)) = validateHost (trimOWS f.raw) := by
    cases hsafe : hostSafe with
    | false => rfl
    | true => rw [hs hsafe]; rfl
  rw [rootStep, field_kind, field_kind, hv, hhost, trimOWS_trimOWS, Bool.false_or]

/-- A walker's line is a field line of the buffer at its position. -/
def RootField.Reads (r : RootField) (buf : Bytes) (i : ℕ) : Prop :=
  ∃ f : FieldLine, ∃ rest, buf.drop i = f.bytes ++ rest ∧ r.next = i + f.bytes.length ∧
    ∀ st : RootFastState, st.field r.name r.value r.hostSafe = rootStep st f

variable {avx2 : Bool} {buf : Bytes} {i : ℕ}
open Option

theorem rootFieldVector_reads {r : RootField} (h : rootFieldVector avx2 buf i = some r) : r.Reads buf i := by
  rw [rootFieldVector, h1HeaderLineSpecials_eq] at h
  dsimp only at h
  split at h
  · rename_i e hclass
    split_ifs at h with hcolon
    obtain ⟨f, rest, hp, hname, he⟩ := fieldLine_of_scan hclass (by simpa using hcolon)
    have he' : e + 1 = f.text.length := he
    rw [hname, getD_some, hp, he', f.take_text, f.text_drop] at h
    have hn : (f.bytes ++ rest).take f.name.length = f.name := by
      rw [FieldLine.bytes, FieldLine.text]
      simp
    rw [hn, some.injEq] at h
    refine ⟨f, rest, hp, ?_, fun st => ?_⟩
    · rw [← h, f.bytes_length, f.text_length]
      dsimp only
      omega
    rw [← h]
    exact field_eq_rootStep st f (trimOWS_trimOWS _) (by simp)
  · simp at h

theorem rootValueClasses_spec (value : Bytes) :
    ((rootValueClasses value).1 &&& h1ClassSpecial = 0 → ∀ c ∈ value, isH1Special c = false) ∧
      ((rootValueClasses value).2 &&& h1ClassHost ≠ 0 → ∀ c ∈ value, invalidHostChar c = 0) := by
  have key : ∀ (v : Bytes) (seen common : UInt8),
      ((v.foldl (fun (p : UInt8 × UInt8) c => (p.1 ||| h1FieldClass c, p.2 &&& h1FieldClass c))
        (seen, common)).1 &&& h1ClassSpecial = 0 → seen &&& h1ClassSpecial = 0 ∧ ∀ c ∈ v, isH1Special c = false) ∧
      ((v.foldl (fun (p : UInt8 × UInt8) c => (p.1 ||| h1FieldClass c, p.2 &&& h1FieldClass c))
        (seen, common)).2 &&& h1ClassHost ≠ 0 → common &&& h1ClassHost ≠ 0 ∧ ∀ c ∈ v, invalidHostChar c = 0) := by
    intro v
    induction v with
    | nil => simp
    | cons c v ih =>
      intro seen common
      obtain ⟨h1, h2⟩ := ih (seen ||| h1FieldClass c) (common &&& h1FieldClass c)
      constructor
      · intro h
        obtain ⟨h3, h4⟩ := h1 h
        obtain ⟨h5, h6⟩ := byte_or_and_eq_zero.mp h3
        refine ⟨h5, forall_mem_cons.mpr ⟨?_, h4⟩⟩
        rw [← class_special, h6]
        rfl
      intro h
      obtain ⟨h3, h4⟩ := h2 h
      obtain ⟨h5, h6⟩ := and_host_ne_zero h3
      refine ⟨h5, forall_mem_cons.mpr ⟨?_, h4⟩⟩
      have := class_host c
      rw [bne_iff_ne.mpr h6] at this
      simpa using this.symm
  obtain ⟨h1, h2⟩ := key value 0 0xFF
  exact ⟨fun h => (h1 h).2, fun h => (h2 h).2⟩

theorem drop_add_takeWhile (p : UInt8 → Bool) (l : Bytes) (i : ℕ) :
    l.drop (i + ((l.drop i).takeWhile p).length) = (l.drop i).dropWhile p := by
  rw [← drop_drop]
  generalize l.drop i = q
  calc
    q.drop (q.takeWhile p).length = (q.takeWhile p ++ q.dropWhile p).drop (q.takeWhile p).length := by
          rw [takeWhile_append_dropWhile]
    _ = q.dropWhile p := drop_left

theorem drop_eq_takeWhile (p : UInt8 → Bool) (l : Bytes) (i : ℕ) :
    l.drop i = (l.drop i).takeWhile p ++ l.drop (i + ((l.drop i).takeWhile p).length) := by
  rw [drop_add_takeWhile, takeWhile_append_dropWhile]

theorem drop_eq_cons {l : Bytes} {c : UInt8} (h : l[i]? = some c) : l.drop i = c :: l.drop (i + 1) := by
  obtain ⟨_, hc⟩ := List.getElem?_eq_some_iff.mp h
  rw [← hc, getElem_cons_drop]

theorem stop_at_cr {l : Bytes} (hi : i + ((l.drop i).takeWhile fun c => c != cr).length < l.length) :
    l[i + ((l.drop i).takeWhile fun c => c != cr).length]? = some cr := by
  have hstop := head?_dropWhile_not (fun c => c != cr) (l.drop i)
  rw [← drop_add_takeWhile, head?_drop, getElem?_eq_getElem hi] at hstop
  rw [getElem?_eq_getElem hi, some.injEq]
  simpa using hstop

theorem rootFieldScalar_reads {r : RootField} (h : rootFieldScalar buf i = some r) : r.Reads buf i := by
  unfold rootFieldScalar at h
  dsimp only at h
  have htok := funext class_token
  rw [htok] at h
  set name := (buf.drop i).takeWhile h1TokenChar with hname
  set j := i + name.length with hj
  set ows := (buf.drop (j + 1)).takeWhile isOWS with hows
  set k := j + 1 + ows.length with hk
  set value := (buf.drop k).takeWhile (fun c => c != cr) with hvalue
  split_ifs at h with h1 h2
  simp only [Bool.or_eq_true, beq_iff_eq, bne_iff_ne, ne_eq, not_or, not_not,
    decide_eq_true_eq, ge_iff_le, not_le] at h1 h2
  obtain ⟨⟨_, _⟩, hcolon⟩ := h1
  obtain ⟨⟨_, hseen⟩, hlf⟩ := h2
  obtain ⟨hspec, hhost⟩ := rootValueClasses_spec value
  have hcr := stop_at_cr (by rw [← hvalue]; omega)
  have hbuf : buf.drop i = name ++ colon :: (ows ++ value) ++ crlf ++ buf.drop (k + value.length + 2) := by
    rw [drop_eq_takeWhile h1TokenChar buf i, ← hname, ← hj, drop_eq_cons hcolon,
      drop_eq_takeWhile isOWS buf (j + 1), ← hows, ← hk,
      drop_eq_takeWhile (fun c => c != cr) buf k, ← hvalue, drop_eq_cons hcr, drop_eq_cons hlf]
    simp [crlf]
  have howsp : ∀ c ∈ ows, isOWS c = true := fun c hc => by
    exact mem_takeWhile_imp hc
  have hplain : ∀ c ∈ ows ++ value, isH1Special c = false := by
    intro c hc
    rcases mem_append.mp hc with hc | hc
    · exact not_special_ows (howsp c hc)
    · exact hspec hseen c hc
  have hnamene : name ≠ [] := by
    intro hnil
    rw [hnil, length_nil] at hj
    omega
  have htoks : ∀ c ∈ name, h1TokenChar c = true := fun c hc => by
    exact mem_takeWhile_imp hc
  rw [some.injEq] at h
  refine ⟨⟨name, ows ++ value, hnamene, htoks, hplain⟩, _, hbuf, ?_, fun st => ?_⟩
  · rw [← h, FieldLine.bytes_length]
    dsimp only
    rw [length_append]
    omega
  rw [← h]
  refine field_eq_rootStep st ⟨name, ows ++ value, hnamene, htoks, hplain⟩ ?_ ?_
  · exact (trimOWS_append_left howsp).symm
  intro hs
  rw [validateHost_iff]
  intro c hc
  exact hhost (by simpa using hs) c (mem_trimOWS_append howsp hc)

variable {st st' : RootFastState}

theorem scanFieldsLoop_some {fuel e : ℕ} (h : scanFieldsLoop buf fuel i st = some (e, st')) :
    ∃ fs : List FieldLine, ∃ rest, buf.drop i = block fs ++ crlf ++ rest ∧
      e = i + (block fs).length + 2 ∧ fs.foldlM rootStep st = some st' := by
  induction fuel generalizing i st with
  | zero => simp [scanFieldsLoop] at h
  | succ fuel ih =>
    rw [scanFieldsLoop] at h
    split_ifs at h with h1 h2 h3
    · simp only [some.injEq, Prod.mk.injEq] at h
      refine ⟨[], buf.drop (i + 2), ?_, ?_, ?_⟩
      · rw [drop_eq_cons (by simpa using h2), drop_eq_cons (by simpa using h3)]
        simp [crlf]
      · simp [← h.1]
      · simp [← h.2]
    rcases hr : rootFieldScalar buf i with _ | r
    · simp [hr] at h
    obtain ⟨f, rest, hbuf, hnext, hfield⟩ := rootFieldScalar_reads hr
    rw [hr] at h
    dsimp only at h
    rw [hfield] at h
    rcases hs : rootStep st f with _ | st₁
    · simp [hs] at h
    rw [hs] at h
    obtain ⟨fs, rest', hd, he, hfold⟩ := ih h
    refine ⟨f :: fs, rest', ?_, ?_, ?_⟩
    · rw [hnext, drop_add_append hbuf] at hd
      rw [hbuf, hd, block_cons]
      simp
    · rw [he, hnext, block_cons, length_append]
      omega
    rw [foldlM_cons, hs]
    exact hfold

theorem lineFieldsLoop_some {blk : Bytes} {fuel n n' : ℕ}
    (h : lineFieldsLoop avx2 blk fuel i st n = some (st', n')) (hf : blk.length ≤ i + fuel) :
    ∃ fs : List FieldLine, blk.drop i = block fs ∧ n' = n + fs.length ∧ fs.foldlM rootStep st = some st' := by
  induction fuel generalizing i st n with
  | zero =>
    simp only [lineFieldsLoop, some.injEq, Prod.mk.injEq] at h
    refine ⟨[], ?_, by simp [← h.2], by simp [← h.1]⟩
    rw [drop_eq_nil_of_le (by omega)]
    rfl
  | succ fuel ih =>
    rw [lineFieldsLoop] at h
    by_cases h1 : i < blk.length
    · rw [if_pos h1] at h
      obtain ⟨o, ho⟩ : ∃ o, (if blk.length - i ≥ h1ScalarScanMax then rootFieldVector avx2 blk i
          else rootFieldScalar blk i) = o := ⟨_, rfl⟩
      rw [ho] at h
      rcases o with _ | r
      · simp at h
      have hreads : r.Reads blk i := by
        split_ifs at ho
        · exact rootFieldVector_reads ho
        · exact rootFieldScalar_reads ho
      obtain ⟨f, _, hblk, hnext, hfield⟩ := hreads
      dsimp only at h
      rw [hfield] at h
      rcases hs : rootStep st f with _ | st₁
      · simp [hs] at h
      rw [hs] at h
      have hfl := f.bytes_length
      obtain ⟨fs, hd, hn, hfold⟩ := ih h (by omega)
      refine ⟨f :: fs, ?_, ?_, ?_⟩
      · rw [hnext, drop_add_append hblk] at hd
        rw [hblk, hd, block_cons]
      · rw [hn, length_cons]
        omega
      rw [foldlM_cons, hs]
      exact hfold
    rw [if_neg h1] at h
    simp only [some.injEq, Prod.mk.injEq] at h
    refine ⟨[], ?_, by simp [← h.2], by simp [← h.1]⟩
    rw [drop_eq_nil_of_le (by omega)]
    rfl

theorem lineFields_some {blk : Bytes} (h : lineFields avx2 st blk = some st') :
    ∃ fs : List FieldLine, blk = block fs ∧ fs.foldlM rootStep st = some st' ∧ fs.length ≤ st'.maxCount := by
  unfold lineFields at h
  rcases hl : lineFieldsLoop avx2 blk blk.length 0 st 0 with _ | p
  · simp [hl] at h
  obtain ⟨_, n⟩ := p
  rw [hl] at h
  dsimp only at h
  split_ifs at h with hc
  obtain ⟨fs, hd, _, hfold⟩ := lineFieldsLoop_some hl (by omega)
  refine ⟨fs, by simpa using hd, ?_, ?_⟩
  · rw [hfold]
    exact h
  rw [← some.inj h]
  omega

end AlosHttp.H1

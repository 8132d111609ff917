import AlosHttp.Core.Utils
import AlosHttp.Data.BlockScan

/-! The byte scanners of `h1scan.go`, `h1scan_amd64.s` and `indexcrlf_amd64.s`. Each
dispatcher takes `avx2`, the value of `hasAVX2`; every variant finds the first position
that a plain scan finds. -/
namespace AlosHttp.H1
open AlosHttp.Core Data List

def isH1Special (c : UInt8) : Bool := (c < 0x20 && c != htab) || c == 0x7f

def h1TokenChar (c : UInt8) : Bool := (97 ≤ c && c ≤ 122) || (65 ≤ c && c ≤ 90) || (48 ≤ c && c ≤ 57) ||
    (ascii "!#$%&'*+-.^_`|~").contains c

variable {c : UInt8}

theorem not_token_of_special (h : isH1Special c = true) : h1TokenChar c = false := by
  revert h
  exact forall_byte (P := fun c => isH1Special c = true → h1TokenChar c = false) (by decide +kernel) c

/-- A compare lane is all ones or zero; its sign bit is this value. -/
def specialLane (c : UInt8) : Bool := ((c == min c 0x1F) ^^ (c == htab)) || c == 0x7F

theorem specialLane_eq (c : UInt8) : specialLane c = isH1Special c :=
  forall_byte (P := fun c => specialLane c = isH1Special c) (by decide +kernel) c

def h1tcharlo : List UInt8 :=
  [0xE8, 0xFC, 0xF8, 0xFC, 0xFC, 0xFC, 0xFC, 0xFC, 0xF8, 0xF8, 0xF4, 0x54, 0xD0, 0x54, 0xF4, 0x70]

def h1tcharhi : List UInt8 := [0x01, 0x02, 0x04, 0x08, 0x10, 0x20, 0x40, 0x80, 0, 0, 0, 0, 0, 0, 0, 0]

/-- Two nibble lookups whose common bit marks a token character. -/
def nonTokenLane (c : UInt8) : Bool :=
  h1tcharlo.getD (c &&& 0x0F).toNat 0 &&& h1tcharhi.getD (c >>> 4 &&& 0x0F).toNat 0 == 0

theorem nonTokenLane_eq (c : UInt8) : nonTokenLane c = !h1TokenChar c :=
  forall_byte (P := fun c => nonTokenLane c = !h1TokenChar c) (by decide +kernel) c

def classifyH1Special (p : Bytes) (i : ℕ) : Option ℕ × Bool :=
  if p[i]? == some cr then
    if i + 1 == p.length then (none, false)
    else if p[i + 1]? == some lf then (some i, false)
    else (some i, true)
  else (some i, true)

def classifyFirstSpecial (p : Bytes) (i : Option ℕ) : Option ℕ × Bool :=
  match i with
  | none => (none, false)
  | some i => classifyH1Special p i

/-- Control bytes and DEL, with false positives above a borrow. -/
def specialMask (w : BitVec 64) : BitVec 64 := belowMask 0x20 w ||| belowMask 1 (w ^^^ splat 0x7f)

def firstH1SpecialSWAR (p : Bytes) : Option ℕ := wordScan specialMask (fun j => p[j]?.any isH1Special) p

def firstH1SpecialAVX2 (p : Bytes) : Option ℕ :=
  if p.length < 32 then p.findIdx? isH1Special else vectorScan specialLane p

def avx2ScanMinLen : ℕ := 32

def firstH1Special (avx2 : Bool) (p : Bytes) : Option ℕ :=
  if avx2 && avx2ScanMinLen ≤ p.length then firstH1SpecialAVX2 p else firstH1SpecialSWAR p

theorem special_lt_or_del (h : isH1Special c = true) : c.toNat < 0x20 ∨ c.toNat = 0x7f := by
  revert h
  exact forall_byte (P := fun c => isH1Special c = true → c.toNat < 0x20 ∨ c.toNat = 0x7f) (by decide +kernel) c

theorem specialMask_bit (w : BitVec 64) (k : ℕ) (c : UInt8) (hk : k < 8)
    (hb : byteAt w k = c.toNat) (hc : isH1Special c = true) :
    (specialMask w).getLsbD (8 * k + 7) = true := by
  rw [specialMask, BitVec.getLsbD_or, Bool.or_eq_true]
  rcases special_lt_or_del hc with h | h
  · left
    exact belowMask_bit _ (by omega) w k hk (by omega)
  right
  refine belowMask_bit _ (by omega) _ k hk ?_
  rw [byteAt_xor, byteAt_splat _ (by omega) k hk, hb, h]
  decide

theorem firstH1SpecialSWAR_eq (p : Bytes) : firstH1SpecialSWAR p = p.findIdx? isH1Special := by
  rw [findIdx?_eq_firstFrom]
  exact wordScan_eq specialMask_bit fun j h => h

variable (avx2 : Bool)

theorem firstH1Special_eq (p : Bytes) : firstH1Special avx2 p = p.findIdx? isH1Special := by
  unfold firstH1Special
  split_ifs with h
  · have hl : 32 ≤ p.length := by
      rw [Bool.and_eq_true] at h
      exact of_decide_eq_true h.2
    rw [firstH1SpecialAVX2, if_neg (by omega), vectorScan_eq _ _ hl]
    congr 1
    exact funext specialLane_eq
  · exact firstH1SpecialSWAR_eq p

def firstNonTokenByte (p : Bytes) : Option ℕ := p.findIdx? fun c => !h1TokenChar c

def h1HeaderLineSWAR (p : Bytes) : Option ℕ × Option ℕ :=
  match firstNonTokenByte p with
  | none => (none, none)
  | some nameEnd =>
    match firstH1SpecialSWAR (p.drop nameEnd) with
    | none => (none, some nameEnd)
    | some special => (some (nameEnd + special), some nameEnd)

/-- The block loop of `h1HeaderLineAVX2`; `r10` is the name end found so far. -/
def headerLineLoop (p : Bytes) : ℕ → ℕ → Option ℕ → Option ℕ × Option ℕ
  | 0, _, r10 => (none, r10)
  | fuel + 1, ax, r10 =>
    if ax + 32 ≤ p.length then
      let y0 := p.drop ax
      let r10 := r10.or (lowestFrom ax (moveMask nonTokenLane y0))
      match lowestFrom ax (moveMask specialLane y0) with
      | some j => (some j, r10)
      | none => headerLineLoop p fuel (ax + 32) r10
    else if ax ≥ p.length then (none, r10)
    else
      let di := p.length - 32
      let y0 := p.drop di
      let r10 := r10.or (lowestFrom ax (moveMask nonTokenLane y0 >>> (ax - di)))
      (lowestFrom ax (moveMask specialLane y0 >>> (ax - di)), r10)

def h1HeaderLineAVX2 (p : Bytes) : Option ℕ × Option ℕ := headerLineLoop p p.length 0 none

def h1HeaderLineSpecials (avx2 : Bool) (p : Bytes) : Option ℕ × Option ℕ :=
  if avx2 && avx2ScanMinLen ≤ p.length then h1HeaderLineAVX2 p else h1HeaderLineSWAR p

variable {p : Bytes}
open Option

theorem findIdx?_drop_of_none {f : UInt8 → Bool} {n : ℕ} (h : ∀ c ∈ p.take n, f c = false) (hn : n ≤ p.length) :
    p.findIdx? f = ((p.drop n).findIdx? f).map (n + ·) := by
  conv_lhs => rw [← take_append_drop n p]
  rw [findIdx?_append, findIdx?_eq_none_iff.mpr h]
  simp only [none_or, length_take, Nat.min_eq_left hn]
  congr 1
  funext i
  omega

theorem not_special_before {n : ℕ} (h : firstNonTokenByte p = some n) : ∀ c ∈ p.take n, isH1Special c = false := by
  intro c hc
  obtain ⟨k, hk, rfl⟩ := mem_iff_getElem.mp hc
  obtain ⟨_, _, hlow⟩ := findIdx?_eq_some_iff_getElem.mp h
  have hkn : k < n := by
    have : k < min n p.length := by simpa using hk
    omega
  have ht : h1TokenChar p[k] = true := by simpa using hlow k hkn
  rw [getElem_take]
  by_contra hs
  rw [Bool.not_eq_false] at hs
  rw [not_token_of_special hs] at ht
  cases ht

theorem h1HeaderLineSWAR_eq (p : Bytes) : h1HeaderLineSWAR p = (p.findIdx? isH1Special, firstNonTokenByte p) := by
  unfold h1HeaderLineSWAR
  rcases h : firstNonTokenByte p with _ | n
  · have hall := findIdx?_eq_none_iff.mp h
    have hnone : p.findIdx? isH1Special = none := by
      rw [findIdx?_eq_none_iff]
      intro c hc
      by_contra hs
      rw [Bool.not_eq_false] at hs
      have := hall c hc
      rw [not_token_of_special hs] at this
      cases this
    rw [hnone]
  obtain ⟨hn, _, _⟩ := findIdx?_eq_some_iff_getElem.mp h
  dsimp only
  rw [findIdx?_drop_of_none (not_special_before h) hn.le, firstH1SpecialSWAR_eq]
  cases (p.drop n).findIdx? isH1Special <;> rfl

def specialAt (p : Bytes) (j : ℕ) : Bool := p[j]?.any specialLane
def nonTokenAt (p : Bytes) (j : ℕ) : Bool := p[j]?.any nonTokenLane

theorem nonTokenAt_of_specialAt {j : ℕ} (h : specialAt p j = true) : nonTokenAt p j = true := by
  unfold specialAt at h
  unfold nonTokenAt
  rcases hp : p[j]? with _ | c
  · simp [hp] at h
  simp only [hp, any_some, specialLane_eq] at h
  simp [nonTokenLane_eq, not_token_of_special h]

/-- Positions before `ax` hold no special byte and `r10` is their first non-token byte. -/
theorem headerLineLoop_eq (p : Bytes) (hp : 32 ≤ p.length) (fuel ax : ℕ)
    (r10 : Option ℕ) (hax : ax ≤ p.length) (hf : p.length - ax ≤ fuel)
    (hs : firstFrom (specialAt p) 0 ax = none) (hr : r10 = firstFrom (nonTokenAt p) 0 ax) :
    headerLineLoop p fuel ax r10 = (firstFrom (specialAt p) 0 p.length, firstFrom (nonTokenAt p) 0 p.length) := by
  induction fuel generalizing ax r10 with
  | zero =>
    have : ax = p.length := by omega
    subst this
    rw [headerLineLoop, hs, hr]
  | succ fuel ih =>
    rw [headerLineLoop]
    split_ifs with hle hge
    · have hsp := lowestFrom_moveMask specialLane p ax 0 32 (by omega) rfl
      have hnt := lowestFrom_moveMask nonTokenLane p ax 0 32 (by omega) rfl
      rw [Nat.sub_zero, BitVec.ushiftRight_zero] at hsp hnt
      change _ = firstFrom (specialAt p) ax (ax + 32) at hsp
      change _ = firstFrom (nonTokenAt p) ax (ax + 32) at hnt
      have hr' : r10.or (firstFrom (nonTokenAt p) ax (ax + 32)) = firstFrom (nonTokenAt p) 0 (ax + 32) := by
        rw [hr, ← firstFrom_split (Nat.zero_le _) (by omega)]
      have hs' : firstFrom (specialAt p) 0 (ax + 32) = firstFrom (specialAt p) ax (ax + 32) := by
        rw [firstFrom_split (Nat.zero_le ax) (show ax ≤ ax + 32 by omega), hs, none_or]
      dsimp only
      rw [hsp, hnt, hr']
      rcases hj : firstFrom (specialAt p) ax (ax + 32) with _ | j
      · exact ih (ax + 32) _ hle (by omega) (by rw [hs', hj]) rfl
      -- a special byte is a non-token byte, so the name end is already fixed
      have hnone : firstFrom (nonTokenAt p) 0 (ax + 32) ≠ none := by
        intro hn
        obtain ⟨_, h2, ht, _⟩ := firstFrom_eq_some.mp hj
        have := firstFrom_eq_none.mp hn j (Nat.zero_le _) h2
        rw [nonTokenAt_of_specialAt ht] at this
        exact Bool.noConfusion this
      obtain ⟨k, hk⟩ := ne_none_iff_exists'.mp hnone
      rw [firstFrom_split (Nat.zero_le (ax + 32)) hle, hs', hj, firstFrom_split (Nat.zero_le (ax + 32)) hle, hk]
      rfl
    · have : ax = p.length := by omega
      subst this
      rw [hs, hr]
    have hsp := lowestFrom_moveMask specialLane p ax (ax - (p.length - 32)) (p.length - ax) (by omega) (by omega)
    have hnt := lowestFrom_moveMask nonTokenLane p ax (ax - (p.length - 32)) (p.length - ax) (by omega) (by omega)
    rw [show ax - (ax - (p.length - 32)) = p.length - 32 by omega,
      show ax + (p.length - ax) = p.length by omega] at hsp hnt
    change _ = firstFrom (specialAt p) ax p.length at hsp
    change _ = firstFrom (nonTokenAt p) ax p.length at hnt
    dsimp only
    have hs' : firstFrom (specialAt p) 0 p.length = firstFrom (specialAt p) ax p.length := by
      rw [firstFrom_split (Nat.zero_le ax) hax, hs, none_or]
    rw [hsp, hnt, hr, ← firstFrom_split (Nat.zero_le _) hax, hs']

theorem h1HeaderLineSpecials_eq (p : Bytes) :
    h1HeaderLineSpecials avx2 p = (p.findIdx? isH1Special, firstNonTokenByte p) := by
  unfold h1HeaderLineSpecials
  split_ifs with h
  · have hl : 32 ≤ p.length := by
      rw [Bool.and_eq_true] at h
      exact of_decide_eq_true h.2
    have hs := (funext specialLane_eq).symm
    have hn := (funext nonTokenLane_eq).symm
    rw [firstNonTokenByte, hs, hn, findIdx?_eq_firstFrom, findIdx?_eq_firstFrom]
    have h0 : ∀ t, firstFrom t 0 0 = none := fun t => firstFrom_eq_none.mpr fun k _ hk => by omega
    exact headerLineLoop_eq p hl _ 0 none (Nat.zero_le _) (by omega) (h0 _) (h0 _).symm
  · exact h1HeaderLineSWAR_eq p

def validH1Colon (line : Bytes) (nameEnd : Option ℕ) : Bool :=
  match nameEnd with
  | none => false
  | some n => decide (0 < n) && decide (n < line.length) && (line)[n]? == some colon

def h1ScalarScanMax : ℕ := 32

def h1ClassToken : UInt8 := 1
def h1ClassHost : UInt8 := 2
def h1ClassSpecial : UInt8 := 4

def h1FieldClass (c : UInt8) : UInt8 := (if h1TokenChar c then h1ClassToken else 0) |||
    (if invalidHostChar c == 0 then h1ClassHost else 0) |||
    (if isH1Special c then h1ClassSpecial else 0)

theorem class_token (c : UInt8) : (h1FieldClass c &&& h1ClassToken != 0) = h1TokenChar c := by
  unfold h1FieldClass
  cases h1TokenChar c <;> cases (invalidHostChar c == 0) <;> cases isH1Special c <;> rfl

theorem class_host (c : UInt8) : (h1FieldClass c &&& h1ClassHost != 0) = (invalidHostChar c == 0) := by
  unfold h1FieldClass
  cases h1TokenChar c <;> cases (invalidHostChar c == 0) <;> cases isH1Special c <;> rfl

theorem class_special (c : UInt8) : (h1FieldClass c &&& h1ClassSpecial != 0) = isH1Special c := by
  unfold h1FieldClass
  cases h1TokenChar c <;> cases (invalidHostChar c == 0) <;> cases isH1Special c <;> rfl

/-- The value loop stops at the first special byte and returns the classes shared by the
bytes before it. -/
def scalarValueLoop : Bytes → ℕ → UInt8 → Option (ℕ × UInt8)
  | [], _, _ => none
  | c :: p, i, common =>
    let cls := h1FieldClass c
    if cls &&& h1ClassSpecial != 0 then some (i, common)
    else scalarValueLoop p (i + 1) (common &&& cls)

def h1HeaderLineScalar (p : Bytes) : Option ℕ × Option ℕ × Bool :=
  let i := (p.takeWhile fun c => h1FieldClass c &&& h1ClassToken != 0).length
  if i == p.length then (none, none, false)
  else
    let nameEnd := i
    let (common, i) : UInt8 × ℕ :=
      if p[i]? == some colon then
        (0xFF, i + 1 + ((p.drop (i + 1)).takeWhile isOWS).length)
      else (0, i)
    match scalarValueLoop (p.drop i) i common with
    | some (i, common) => (some i, some nameEnd, common &&& h1ClassHost != 0)
    | none => (none, some nameEnd, false)

theorem and_host_ne_zero {a b : UInt8} (h : (a &&& b) &&& h1ClassHost ≠ 0) :
    a &&& h1ClassHost ≠ 0 ∧ b &&& h1ClassHost ≠ 0 := by
  constructor
  · intro ha
    apply h
    rw [UInt8.and_comm a b, UInt8.and_assoc, ha, UInt8.and_zero]
  intro hb
  apply h
  rw [UInt8.and_assoc, hb, UInt8.and_zero]

theorem scalarValueLoop_none {q : Bytes} (i : ℕ) (common : UInt8)
    (h : q.findIdx? isH1Special = none) : scalarValueLoop q i common = none := by
  induction q generalizing i common with
  | nil => rfl
  | cons c q ih =>
    rw [findIdx?_cons] at h
    cases hc : isH1Special c with
    | true => simp [hc] at h
    | false =>
      have hq : q.findIdx? isH1Special = none := by simpa [hc] using h
      rw [scalarValueLoop]
      simp only [class_special, hc, Bool.false_eq_true, if_false]
      exact ih _ _ hq

theorem scalarValueLoop_some {q : Bytes} (i k : ℕ) (common : UInt8) (h : q.findIdx? isH1Special = some k) :
    ∃ common', scalarValueLoop q i common = some (i + k, common') ∧ (common' &&& h1ClassHost ≠ 0 →
        common &&& h1ClassHost ≠ 0 ∧ ∀ c ∈ q.take k, invalidHostChar c = 0) := by
  induction q generalizing i k common with
  | nil => simp at h
  | cons c q ih =>
    rw [findIdx?_cons] at h
    cases hc : isH1Special c with
    | true =>
      have hk : k = 0 := by simpa [hc] using h.symm
      subst hk
      exact ⟨common, by simp [scalarValueLoop, class_special, hc], fun hs => ⟨hs, by simp⟩⟩
    | false =>
      obtain ⟨k', hk', rfl⟩ : ∃ k', q.findIdx? isH1Special = some k' ∧ k' + 1 = k := by
        simpa [hc] using h
      obtain ⟨common', hl, hs⟩ := ih (i + 1) k' (common &&& h1FieldClass c) hk'
      refine ⟨common', ?_, ?_⟩
      · rw [scalarValueLoop]
        simp only [class_special, hc, Bool.false_eq_true, if_false]
        rw [hl, show i + 1 + k' = i + (k' + 1) by omega]
      intro hne
      obtain ⟨hcm, hall⟩ := hs hne
      obtain ⟨h1, h2⟩ := and_host_ne_zero hcm
      refine ⟨h1, ?_⟩
      rw [take_succ_cons, forall_mem_cons]
      refine ⟨?_, hall⟩
      have := class_host c
      rw [bne_iff_ne.mpr h2] at this
      simpa using this.symm

theorem mem_trimOWS_append {ows w : Bytes} (ho : ∀ c ∈ ows, isOWS c = true) (hc : c ∈ trimOWS (ows ++ w)) : c ∈ w := by
  have h1 : (ows ++ w).dropWhile isOWS = w.dropWhile isOWS := by
    rw [dropWhile_append, dropWhile_eq_nil_iff.mpr ho]
    rfl
  rw [trimOWS, h1] at hc
  exact (dropWhile_sublist _).mem ((List.rdropWhile_prefix _ _).mem hc)

theorem takeWhile_length_eq_of_findIdx? {f : UInt8 → Bool} :
    (p.takeWhile fun c => !f c).length = (p.findIdx? f).getD p.length := by
  induction p with
  | nil => rfl
  | cons c p ih =>
    rw [takeWhile_cons, findIdx?_cons]
    cases f c with
    | true => rfl
    | false =>
      simp only [Bool.not_false, if_true, length_cons, ih, Bool.false_eq_true, if_false]
      cases p.findIdx? f <;> rfl

theorem no_special_of_all_token (h : firstNonTokenByte p = none) : p.findIdx? isH1Special = none := by
  have := h1HeaderLineSWAR_eq p
  rw [h1HeaderLineSWAR, h] at this
  exact (congrArg Prod.fst this).symm

theorem scalar_nameEnd (p : Bytes) : (p.takeWhile fun c => h1FieldClass c &&& h1ClassToken != 0).length =
      (firstNonTokenByte p).getD p.length := by
  have htok : (fun c => h1FieldClass c &&& h1ClassToken != 0) = fun c => !!h1TokenChar c := by
    funext c
    rw [class_token, Bool.not_not]
  rw [htok, takeWhile_length_eq_of_findIdx? (f := fun c => !h1TokenChar c)]
  rfl

theorem not_special_ows (h : isOWS c = true) : isH1Special c = false := by
  revert h
  exact forall_byte (P := fun c => isOWS c = true → isH1Special c = false) (by decide +kernel) c

theorem h1HeaderLineScalar_spec (p : Bytes) :
    ∃ safe, h1HeaderLineScalar p = (p.findIdx? isH1Special, firstNonTokenByte p, safe) ∧
      (safe = true → ∀ n e, firstNonTokenByte p = some n → p.findIdx? isH1Special = some e →
        validateHost (trimOWS ((p.take e).drop (n + 1))) = true) := by
  have hname := scalar_nameEnd p
  rcases hn : firstNonTokenByte p with _ | n
  · rw [hn, getD_none] at hname
    exact ⟨false, by simp [h1HeaderLineScalar, hname, no_special_of_all_token hn], by simp⟩
  rw [hn, getD_some] at hname
  obtain ⟨hnl, _, _⟩ := findIdx?_eq_some_iff_getElem.mp hn
  have hne : ¬ n = p.length := by omega
  by_cases hcol : p[n]? = some colon
  · -- the colon and the white space after it are not special either
    obtain ⟨ows, hows⟩ : ∃ ows, (p.drop (n + 1)).takeWhile isOWS = ows := ⟨_, rfl⟩
    obtain ⟨q, hq⟩ : ∃ q, (p.drop (n + 1)).dropWhile isOWS = q := ⟨_, rfl⟩
    have hsplit : p.drop (n + 1) = ows ++ q := by
      rw [← hows, ← hq, takeWhile_append_dropWhile]
    have hdrop : p.drop (n + 1 + ows.length) = q := by
      rw [← drop_drop, hsplit, drop_left]
    have howsp : ∀ c ∈ ows, isOWS c = true := by
      intro c hc
      rw [← hows] at hc
      exact mem_takeWhile_imp hc
    have hp : p = p.take n ++ colon :: (ows ++ q) := by
      obtain ⟨_, hc⟩ := List.getElem?_eq_some_iff.mp hcol
      rw [← hsplit, ← hc, getElem_cons_drop, take_append_drop]
    have hpre : ∀ c ∈ p.take (n + 1 + ows.length), isH1Special c = false := by
      intro c hc
      have htake : p.take (n + 1 + ows.length) = p.take n ++ colon :: ows := by
        conv_lhs => rw [hp]
        rw [take_append, length_take, Nat.min_eq_left hnl.le,
          take_of_length_le (by simp; omega), show n + 1 + ows.length - n = ows.length + 1 by omega,
          take_succ_cons, take_left]
      rw [htake, mem_append, mem_cons] at hc
      rcases hc with hc | rfl | hc
      · exact not_special_before hn c hc
      · decide
      · exact not_special_ows (howsp c hc)
    have hlenp : n + 1 + ows.length ≤ p.length := by
      rw [hp]
      simp
      omega
    have hfind := findIdx?_drop_of_none hpre hlenp
    rw [hdrop] at hfind
    rcases hk : q.findIdx? isH1Special with _ | k
    · refine ⟨false, ?_, by simp⟩
      rw [hk] at hfind
      simp [h1HeaderLineScalar, hname, hne, hcol, hows, hdrop, scalarValueLoop_none _ _ hk, hfind]
    obtain ⟨common', hl, hs⟩ := scalarValueLoop_some (n + 1 + ows.length) k 0xFF hk
    rw [hk] at hfind
    refine ⟨common' &&& h1ClassHost != 0, ?_, ?_⟩
    · simp [h1HeaderLineScalar, hname, hne, hcol, hows, hdrop, hl, hfind]
    intro hsafe n' e hn' he
    obtain ⟨_, hall⟩ := hs (by simpa using hsafe)
    have hnn : n = n' := by simpa using hn'
    have hee : n + 1 + ows.length + k = e := by simpa [hfind] using he
    subst hnn hee
    rw [validateHost_iff]
    intro c hc
    have hval : (p.take (n + 1 + ows.length + k)).drop (n + 1) = ows ++ q.take k := by
      rw [drop_take, hsplit, show n + 1 + ows.length + k - (n + 1) = ows.length + k by omega,
        take_length_add_append]
    rw [hval] at hc
    exact hall c (mem_trimOWS_append howsp hc)
  have hfind := findIdx?_drop_of_none (not_special_before hn) hnl.le
  rcases hk : (p.drop n).findIdx? isH1Special with _ | k
  · rw [hk] at hfind
    exact ⟨false, by
      simp [h1HeaderLineScalar, hname, hne, hcol, scalarValueLoop_none _ _ hk, hfind], by simp⟩
  obtain ⟨common', hl, hs⟩ := scalarValueLoop_some n k 0 hk
  rw [hk] at hfind
  have hzero : (common' &&& h1ClassHost != 0) = false := by
    by_contra hne
    have := (hs (by simpa using hne)).1
    exact this (by decide)
  exact ⟨false, by simp [h1HeaderLineScalar, hname, hne, hcol, hl, hfind, hzero], by simp⟩

def patternAt (pat b : Bytes) (pos : ℕ) : Bool :=
  decide (pos + pat.length ≤ b.length) && (b.drop pos).take pat.length == pat

def crMask (w : BitVec 64) : BitVec 64 := belowMask 1 (w ^^^ splat 0x0D)

/-- Shared body of `indexCRLF2Swar` and `indexCRLFCRLFSwar`. -/
def indexSwar (pat b : Bytes) : Option ℕ :=
  if b.length < pat.length then none else wordScan crMask (patternAt pat b) b

/-- Shared body of `indexCRLF2AVX2` and `indexCRLF4AVX2`. -/
def indexAVX2 (pat b : Bytes) : Option ℕ :=
  if b.length < pat.length then none else laneScan (· == cr) (patternAt pat b) b

def indexPattern (avx2 : Bool) (pat b : Bytes) : Option ℕ :=
  if b.length < pat.length then none
  else if avx2 then indexAVX2 pat b else indexSwar pat b

def indexCRLFCRLF (avx2 : Bool) (b : Bytes) : Option ℕ := indexPattern avx2 (crlf ++ crlf) b

theorem crMask_bit (w : BitVec 64) (k : ℕ) (c : UInt8) (hk : k < 8)
    (hb : byteAt w k = c.toNat) (hc : (c == cr) = true) :
    (crMask w).getLsbD (8 * k + 7) = true := by
  have hc' : c = cr := by simpa using hc
  refine belowMask_bit _ (by omega) _ k hk ?_
  rw [byteAt_xor, byteAt_splat _ (by omega) k hk, hb, hc']
  decide

theorem indexPattern_eq (pat b : Bytes) :
    indexPattern avx2 (cr :: pat) b = firstFrom (patternAt (cr :: pat) b) 0 b.length := by
  have hcand : ∀ j, patternAt (cr :: pat) b j = true → b[j]?.any (· == cr) = true := by
    intro j hj
    rw [patternAt, Bool.and_eq_true, decide_eq_true_eq, beq_iff_eq] at hj
    have h0 := congrArg head? hj.2
    rw [length_cons, head?_take, if_neg (by omega), head?_drop] at h0
    rw [h0]
    rfl
  have hshort : b.length < (cr :: pat).length → none = firstFrom (patternAt (cr :: pat) b) 0 b.length := by
    intro hl
    symm
    rw [firstFrom_eq_none]
    intro k _ _
    rw [patternAt, decide_eq_false (by omega), Bool.false_and]
  unfold indexPattern indexAVX2 indexSwar
  split_ifs with hl hv
  · exact hshort hl
  · exact laneScan_eq hcand
  · exact wordScan_eq crMask_bit hcand

def findHeaderTerminatorBytes (avx2 : Bool) (buf : Bytes) (start : ℕ) : Option ℕ :=
  if start ≥ buf.length then none
  else match indexCRLFCRLF avx2 (buf.drop start) with
    | none => none
    | some idx => some (start + idx + 4)

end AlosHttp.H1

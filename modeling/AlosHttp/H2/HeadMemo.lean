import AlosHttp.H2.ResponseHeaders

/-! The memo of the last response head in `h2_headmemo.go`, in front of the encoder of
`h2_headers.go`. A hit replays a block that the encoder would write again, as long as the 32-bit
count of table changes has not come round. -/
namespace AlosHttp.H2
open List AlosHttp.Core Hpack Rfc7541

def h2HeadMemoMaxFields : ℕ := 16
def h2HeadMemoMaxKey : ℕ := 1024
def h2HeadMemoMissBackoff : ℕ := 64

/-- `date` is the address of the date field and `gen` the table's count of changes when the
block was recorded. -/
structure H2HeadMemo where
  gen : ℕ := 0
  status : Int64 := 0
  contentLength : Int64 := 0
  date : Option ℕ := none
  ctLen : ℕ := 0
  key : Bytes := []
  headerLens : List ℕ := []
  block : Bytes := []
  probation : Bool := false
  skip : ℕ := 0
  deriving DecidableEq

structure H2EncTable extends HpackEncTable where
  headMemo : Option H2HeadMemo := none
  deriving DecidableEq

/-- Counts as the source compares them. -/
def sameGen (a b : ℕ) : Prop := a % 2 ^ 32 = b % 2 ^ 32

instance (a b : ℕ) : Decidable (sameGen a b) := by
  unfold sameGen
  infer_instance

def h2HeadMemoEligible (headers : List Field) : Bool :=
  if headers.length > h2HeadMemoMaxFields then false
  else
    let n := (headers.map fun f => f.1.length + f.2.length).sum
    n ≤ h2HeadMemoMaxKey && !H1.headersHaveFold headers (ascii "date")

def H2EncTable.headMemoReady (t : H2EncTable) (headers : List Field) : Bool × H2EncTable :=
  match t.headMemo with
  | some m =>
    if m.skip > 0 then (false, { t with headMemo := some { m with skip := m.skip - 1 } })
    else (headers.length == 0 || h2HeadMemoEligible headers, t)
  | none => (headers.length == 0 || h2HeadMemoEligible headers, t)

/-- Names and values in the order in which the memo's key holds them. -/
def headerStrings (headers : List Field) : List Bytes := headers.flatMap fun f => [f.1, f.2]

def headersMatch (key : Bytes) : ℕ → List ℕ → List Bytes → Bool
  | off, n :: lens, s :: strings =>
    if n ≠ s.length ∨ off + n > key.length ∨ (key.drop off).take n ≠ s then false
    else headersMatch key (off + n) lens strings
  | off, _, [] => off == key.length
  | _, [], _ :: _ => false

namespace H2HeadMemo

def matchesHead (m : H2HeadMemo) (gen date : ℕ) (head : ResponseHead) : Bool :=
  if ¬ sameGen m.gen gen ∨ m.date ≠ some date ∨ m.status ≠ head.status ∨
      m.contentLength ≠ head.contentLength ∨ m.headerLens.length ≠ 2 * head.headers.length ∨
      m.block.length = 0 ∨ m.ctLen ≠ head.contentType.length then false
  else
    let n := m.ctLen + head.serverName.length
    if m.key.length < n ∨ m.key.take m.ctLen ≠ head.contentType ∨
        (m.key.drop m.ctLen).take head.serverName.length ≠ head.serverName then false
    else if head.headers.length = 0 then m.key.length == n
    else headersMatch m.key n m.headerLens (headerStrings head.headers)

def remember (m : H2HeadMemo) (gen date : ℕ) (head : ResponseHead) (block : Bytes) : H2HeadMemo where
  gen
  status := head.status
  contentLength := head.contentLength
  date := some date
  ctLen := head.contentType.length
  key := head.contentType ++ head.serverName ++ (headerStrings head.headers).flatten
  headerLens := (headerStrings head.headers).map length
  block
  probation := true
  skip := m.skip

end H2HeadMemo

section
variable (cache : HpackFieldCache) (h2Dates : ℕ → GoString)

/-- `h2Dates` is the value of the date field at an address; a date field never changes. -/
def encodeH2ResponseHeadersRemembered (t : H2EncTable) (date : ℕ) (head : ResponseHead) : Bytes × H2EncTable :=
  let r := encodeH2WithTable cache t.toHpackEncTable (h2Dates date).bytes head
  let t' : H2EncTable := { t with toHpackEncTable := r.2 }
  if ¬ sameGen r.2.gen t.gen then (r.1, t')
  else
    match t.headMemo with
    | none => (r.1, { t' with headMemo := some (({} : H2HeadMemo).remember t.gen date head r.1) })
    | some m =>
      if m.probation ∧ sameGen m.gen t.gen ∧ m.date = some date then
        (r.1, { t' with headMemo := some { m with probation := false, skip := h2HeadMemoMissBackoff } })
      else (r.1, { t' with headMemo := some (m.remember t.gen date head r.1) })

def encodeUnmemoized (t : H2EncTable) (date : ℕ) (head : ResponseHead) : Bytes × H2EncTable :=
  let r := encodeH2WithTable cache t.toHpackEncTable (h2Dates date).bytes head
  (r.1, { t with toHpackEncTable := r.2 })

/-- `date` is the address that the call loads, in either branch. -/
def encodeH2ResponseHeadersIndexed (t : H2EncTable) (date : ℕ) (head : ResponseHead) : Bytes × H2EncTable :=
  if t.pendingUpdate then encodeUnmemoized cache h2Dates t date head
  else
    let ready := t.headMemoReady head.headers
    let t := ready.2
    if !ready.1 then encodeUnmemoized cache h2Dates t date head
    else
      match t.headMemo with
      | some m =>
        if m.matchesHead t.gen date head then
          (m.block, { t with headMemo := some { m with probation := false } })
        else encodeH2ResponseHeadersRemembered cache h2Dates t date head
      | none => encodeH2ResponseHeadersRemembered cache h2Dates t date head

end

theorem headersMatch_eq {key : Bytes} {off : ℕ} {lens : List ℕ} {strings : List Bytes}
    (hoff : off ≤ key.length) (hlen : lens.length = strings.length)
    (h : headersMatch key off lens strings = true) :
    key.drop off = strings.flatten ∧ lens = strings.map length := by
  induction strings generalizing off lens with
  | nil =>
    cases lens with
    | cons n lens => cases hlen
    | nil =>
      rw [headersMatch, beq_iff_eq] at h
      rw [h, drop_length]
      exact ⟨rfl, rfl⟩
  | cons s strings ih =>
    rcases lens with _ | ⟨n, lens⟩
    · cases hlen
    rw [headersMatch] at h
    split_ifs at h with hbad
    rw [not_or, not_or, not_not, not_not] at hbad
    obtain ⟨hn, _, hs⟩ := hbad
    obtain ⟨hrest, hlens⟩ := ih (by omega) (Nat.succ.inj hlen) h
    rw [flatten_cons, map_cons, ← hrest, ← hlens, ← hn]
    constructor
    · rw [← drop_drop, ← hs, take_append_drop]
    · rfl

theorem headerStrings_length (headers : List Field) : (headerStrings headers).length = 2 * headers.length := by
  induction headers with
  | nil => rfl
  | cons f headers ih =>
    unfold headerStrings at ih ⊢
    rw [flatMap_cons, length_append, ih, length_cons]
    show 2 + 2 * headers.length = 2 * (headers.length + 1)
    omega

theorem headerStrings_injective {headers headers' : List Field}
    (h : headerStrings headers = headerStrings headers') : headers = headers' := by
  induction headers generalizing headers' with
  | nil =>
    cases headers' with
    | nil => rfl
    | cons f headers' => cases h
  | cons f headers ih =>
    rcases headers' with _ | ⟨g, headers'⟩
    · cases h
    unfold headerStrings at h ih
    obtain ⟨hname, h⟩ := List.cons.inj h
    obtain ⟨hvalue, h⟩ := List.cons.inj h
    rw [Prod.ext hname hvalue, ih h]

structure H2HeadMemo.Holds (m : H2HeadMemo) (date : ℕ) (head : ResponseHead) : Prop where
  date : m.date = some date
  status : m.status = head.status
  contentLength : m.contentLength = head.contentLength
  ctLen : m.ctLen = head.contentType.length
  key : m.key = head.contentType ++ head.serverName ++ (headerStrings head.headers).flatten
  headerLens : m.headerLens = (headerStrings head.headers).map length

theorem H2HeadMemo.remember_holds (m : H2HeadMemo) (gen date : ℕ) (head : ResponseHead)
    (block : Bytes) : (m.remember gen date head block).Holds date head := by
  constructor <;> rfl

variable {head : ResponseHead}

theorem ResponseHead.ext {head' : ResponseHead} (hs : head.status = head'.status)
    (ht : head.contentType = head'.contentType) (hl : head.contentLength = head'.contentLength)
    (hh : head.headers = head'.headers) (hn : head.serverName = head'.serverName) : head = head' := by
  cases head
  cases head'
  simp_all

theorem H2HeadMemo.holds_of_matches {m : H2HeadMemo} {date gen : ℕ}
    (hm : m.matchesHead gen date head = true) : sameGen m.gen gen ∧ m.Holds date head := by
  unfold matchesHead at hm
  by_cases hbad : ¬ sameGen m.gen gen ∨ m.date ≠ some date ∨ m.status ≠ head.status ∨
      m.contentLength ≠ head.contentLength ∨ m.headerLens.length ≠ 2 * head.headers.length ∨
      m.block.length = 0 ∨ m.ctLen ≠ head.contentType.length
  · rw [if_pos hbad] at hm
    cases hm
  rw [if_neg hbad] at hm
  simp only [not_or, not_not, ne_eq] at hbad
  obtain ⟨hgen, hdate, hstatus, hcl, hlens, -, hct⟩ := hbad
  by_cases hkey : m.key.length < m.ctLen + head.serverName.length ∨ m.key.take m.ctLen ≠ head.contentType ∨
      (m.key.drop m.ctLen).take head.serverName.length ≠ head.serverName
  · rw [if_pos hkey] at hm
    cases hm
  rw [if_neg hkey] at hm
  simp only [not_or, not_not, not_lt, ne_eq] at hkey
  obtain ⟨hfit, htype, hserver⟩ := hkey
  have hstrings : m.key.drop (m.ctLen + head.serverName.length) = (headerStrings head.headers).flatten ∧
      m.headerLens = (headerStrings head.headers).map length := by
    split_ifs at hm with hnone
    · rw [hnone] at hlens
      rw [length_eq_zero_iff.mp hnone, length_eq_zero_iff.mp hlens, ← beq_iff_eq.mp hm, drop_length]
      exact ⟨rfl, rfl⟩
    · exact headersMatch_eq hfit (by rw [headerStrings_length, hlens]) hm
  refine ⟨hgen, hdate, hstatus, hcl, hct, ?_, hstrings.2⟩
  rw [← hstrings.1, ← drop_drop, append_assoc]
  conv_lhs => rw [← take_append_drop m.ctLen m.key, htype]
  conv_lhs => rw [← take_append_drop head.serverName.length (m.key.drop m.ctLen), hserver]

theorem H2HeadMemo.Holds.unique {m : H2HeadMemo} {date date' : ℕ} {head' : ResponseHead}
    (h : m.Holds date head) (h' : m.Holds date' head') : date' = date ∧ head' = head := by
  have hstrings : headerStrings head'.headers = headerStrings head.headers ∧
      head'.contentType ++ head'.serverName = head.contentType ++ head.serverName := by
    have hlens := h'.headerLens.symm.trans h.headerLens
    have hkey := h'.key.symm.trans h.key
    have hsum := congrArg length hkey
    simp only [length_append, length_flatten, hlens] at hsum
    obtain ⟨hfront, hback⟩ := append_inj hkey (by simp only [length_append]; omega)
    exact ⟨eq_iff_flatten_eq.mpr ⟨hback, hlens⟩, hfront⟩
  have hct := h'.ctLen.symm.trans h.ctLen
  obtain ⟨htype, hserver⟩ := append_inj hstrings.2 hct
  constructor
  · exact Option.some.inj (h'.date.symm.trans h.date)
  exact ResponseHead.ext (h'.status.symm.trans h.status) htype
    (h'.contentLength.symm.trans h.contentLength) (headerStrings_injective hstrings.1) hserver

/-- The calls on a connection's encoder. Each response comes with the cache that it finds and
the date field that it loads. -/
inductive EncCall where
  | setPeerLimit (limit : UInt32)
  | encode (cache : HpackFieldCache) (date : ℕ) (head : ResponseHead)

section
variable (h2Dates : ℕ → GoString)

/-- What a call writes, none for a limit, and the table after it. -/
def H2EncTable.call (t : H2EncTable) : EncCall → Option Bytes × H2EncTable
  | .setPeerLimit limit => (none, { t with toHpackEncTable := t.toHpackEncTable.setPeerLimit limit })
  | .encode cache date head =>
    let r := encodeH2ResponseHeadersIndexed cache h2Dates t date head
    (some r.1, r.2)

def plainCall (t : HpackEncTable) : EncCall → Option Bytes × HpackEncTable
  | .setPeerLimit limit => (none, t.setPeerLimit limit)
  | .encode cache date head =>
    let r := encodeH2WithTable cache t (h2Dates date).bytes head
    (some r.1, r.2)

def H2EncTable.calls (t : H2EncTable) : List EncCall → List (Option Bytes × HpackEncTable)
  | [] => []
  | c :: cs =>
    let r := t.call h2Dates c
    (r.1, r.2.toHpackEncTable) :: r.2.calls cs

def plainCalls (t : HpackEncTable) : List EncCall → List (Option Bytes × HpackEncTable)
  | [] => []
  | c :: cs =>
    let r := plainCall h2Dates t c
    r :: plainCalls r.2 cs

namespace H2EncTable

/-- A memo of the current count replays what the encoder would write, without a change of the
table. -/
def MemoOk (t : H2EncTable) : Prop :=
  ∀ m, t.headMemo = some m → m.gen ≤ t.gen ∧ (m.gen = t.gen → t.pendingUpdate = false ∧
    ∃ date head, m.Holds date head ∧ ∀ cache,
      encodeH2WithTable cache t.toHpackEncTable (h2Dates date).bytes head = (m.block, t.toHpackEncTable))

def GenFresh (t : H2EncTable) : Prop := ∀ m, t.headMemo = some m → sameGen m.gen t.gen → m.gen = t.gen

variable {t : H2EncTable}

theorem MemoOk.carry {t' : H2EncTable} (h : t.MemoOk h2Dates)
    (htable : t'.toHpackEncTable = t.toHpackEncTable ∨ t.gen < t'.gen ∨ t.pendingUpdate = true ∧ t.gen ≤ t'.gen)
    (hmemo : ∀ m', t'.headMemo = some m' →
      ∃ m p s, t.headMemo = some m ∧ m' = { m with probation := p, skip := s }) : t'.MemoOk h2Dates := by
  intro m' hm'
  obtain ⟨m, p, s, hm, rfl⟩ := hmemo m' hm'
  obtain ⟨hle, hvalid⟩ := h m hm
  obtain heq | _ | ⟨hpend, _⟩ := htable
  · rw [heq]
    refine ⟨hle, fun hgen => ?_⟩
    obtain ⟨hp, date, head, hholds, hblock⟩ := hvalid hgen
    exact ⟨hp, date, head, ⟨hholds.1, hholds.2, hholds.3, hholds.4, hholds.5, hholds.6⟩, hblock⟩
  · refine ⟨by dsimp only; omega, fun hgen => ?_⟩
    dsimp only at hgen
    omega
  refine ⟨by dsimp only; omega, fun hgen => ?_⟩
  dsimp only at hgen
  have hsame : m.gen = t.gen := by omega
  rw [(hvalid hsame).1] at hpend
  cases hpend

theorem dated_grows (cache : HpackFieldCache) {t : HpackEncTable} (hp : t.pendingUpdate = false)
    (date : Bytes) (head : ResponseHead) :
    HpackEncTable.Grows (1 + (1 + (head.headers.length + 1))) t (encodeH2WithTable cache t date head).2 := by
  have hblock : t.beginBlock = ([], t) := by
    unfold HpackEncTable.beginBlock
    rw [hp]
    rfl
  obtain ⟨t', -, hgrows, heq⟩ := encodeH2WithTable_eq cache t date head
  rw [heq]
  rwa [hblock] at hgrows

theorem dated_gen_le (cache : HpackFieldCache) (t : HpackEncTable) (date : Bytes) (head : ResponseHead) :
    t.gen ≤ (encodeH2WithTable cache t date head).2.gen := by
  have hblock : t.beginBlock.2.gen = t.gen := by
    unfold HpackEncTable.beginBlock
    split_ifs
    · rfl
    · rfl
  obtain ⟨t', -, hgrows, heq⟩ := encodeH2WithTable_eq cache t date head
  rw [heq, ← hblock]
  obtain heq | hlt := hgrows.changed
  · exact le_of_eq (congrArg HpackEncTable.gen heq).symm
  · exact hlt.le

/-- The table and the bytes of the encoder without a memo, and a memo that is still good. -/
structure Agrees (t : H2EncTable) (cache : HpackFieldCache) (date : ℕ) (head : ResponseHead)
    (r : Bytes × H2EncTable) : Prop where
  bytes : r.1 = (encodeH2WithTable cache t.toHpackEncTable (h2Dates date).bytes head).1
  table : r.2.toHpackEncTable = (encodeH2WithTable cache t.toHpackEncTable (h2Dates date).bytes head).2
  memoOk : r.2.MemoOk h2Dates

theorem encodeUnmemoized_agrees (h : t.MemoOk h2Dates) (cache : HpackFieldCache) (date : ℕ) (head : ResponseHead) :
    t.Agrees h2Dates cache date head (encodeUnmemoized cache h2Dates t date head) where
  bytes := rfl
  table := rfl
  memoOk := by
    apply h.carry
    · cases hp : t.pendingUpdate with
      | true => exact Or.inr (Or.inr ⟨rfl, dated_gen_le cache _ _ _⟩)
      | false =>
        obtain heq | hlt := (dated_grows cache hp (h2Dates date).bytes head).changed
        · exact Or.inl heq
        · exact Or.inr (Or.inl hlt)
    intro m hm
    exact ⟨m, m.probation, m.skip, hm, rfl⟩

theorem remember_memoOk (hp : t.pendingUpdate = false) {cache : HpackFieldCache}
    {date : ℕ} {head : ResponseHead} {block : Bytes}
    (hblock : encodeH2WithTable cache t.toHpackEncTable (h2Dates date).bytes head =
      (block, t.toHpackEncTable)) (m : H2HeadMemo) :
    MemoOk h2Dates { t with headMemo := some (m.remember t.gen date head block) } := by
  intro _ hm'
  cases hm'
  refine ⟨le_rfl, fun _ => ⟨hp, date, head, m.remember_holds _ _ _ _, fun cache' => ?_⟩⟩
  rw [encodeH2WithTable_cache cache' cache]
  exact hblock

theorem encodeRemembered_agrees (h : t.MemoOk h2Dates) (hp : t.pendingUpdate = false)
    (cache : HpackFieldCache) (date : ℕ) {head : ResponseHead}
    (hsmall : head.headers.length ≤ h2HeadMemoMaxFields) :
    t.Agrees h2Dates cache date head (encodeH2ResponseHeadersRemembered cache h2Dates t date head) := by
  have hgrows := dated_grows cache hp (h2Dates date).bytes head
  unfold encodeH2ResponseHeadersRemembered
  generalize hr : encodeH2WithTable cache t.toHpackEncTable (h2Dates date).bytes head = r at hgrows ⊢
  by_cases hsame : sameGen r.2.gen t.gen
  · -- a call changes the count by less than 2 ^ 32, so the table is as before
    have heq : r.2 = t.toHpackEncTable := by
      obtain heq | hlt := hgrows.changed
      · exact heq
      have hbound := hgrows.bound
      unfold sameGen at hsame
      unfold h2HeadMemoMaxFields at hsmall
      omega
    rw [if_neg (not_not.mpr hsame)]
    have hblock : encodeH2WithTable cache t.toHpackEncTable (h2Dates date).bytes head =
        (r.1, t.toHpackEncTable) := by
      rw [hr, ← heq]
    rw [heq]
    rcases hm : t.headMemo with _ | m
    · refine ⟨by rw [hr], by rw [hr, heq], ?_⟩
      exact remember_memoOk h2Dates hp hblock {}
    dsimp only
    split_ifs with hprobation
    · refine ⟨by rw [hr], by rw [hr, heq], ?_⟩
      apply h.carry
      · exact Or.inl rfl
      intro _ hm'
      cases hm'
      exact ⟨m, false, h2HeadMemoMissBackoff, hm, rfl⟩
    refine ⟨by rw [hr], by rw [hr, heq], ?_⟩
    exact remember_memoOk h2Dates hp hblock m
  rw [if_pos hsame]
  refine ⟨by rw [hr], by rw [hr], ?_⟩
  apply h.carry
  · obtain heq | hlt := hgrows.changed
    · exact Or.inl heq
    · exact Or.inr (Or.inl hlt)
  intro m hm
  exact ⟨m, m.probation, m.skip, hm, rfl⟩

theorem headMemoReady_cases (t : H2EncTable) (headers : List Field) : (∃ m, t.headMemo = some m ∧
      t.headMemoReady headers = (false, { t with headMemo := some { m with skip := m.skip - 1 } })) ∨
      t.headMemoReady headers = (headers.length == 0 || h2HeadMemoEligible headers, t) := by
  unfold headMemoReady
  rcases hm : t.headMemo with _ | m
  · exact Or.inr rfl
  dsimp only
  split_ifs with hskip
  · exact Or.inl ⟨m, rfl, rfl⟩
  · exact Or.inr rfl

theorem encodeIndexed_agrees (h : t.MemoOk h2Dates) (hfresh : t.GenFresh)
    (cache : HpackFieldCache) (date : ℕ) (head : ResponseHead) :
    t.Agrees h2Dates cache date head (encodeH2ResponseHeadersIndexed cache h2Dates t date head) := by
  unfold encodeH2ResponseHeadersIndexed
  cases hp : t.pendingUpdate with
  | true => exact encodeUnmemoized_agrees h2Dates h cache date head
  | false =>
    rw [if_neg Bool.false_ne_true]
    obtain ⟨m, hm, hready⟩ | hready := t.headMemoReady_cases head.headers
    · rw [hready]
      have hskip : MemoOk h2Dates { t with headMemo := some { m with skip := m.skip - 1 } } := by
        apply h.carry
        · exact Or.inl rfl
        intro m' hm'
        cases hm'
        exact ⟨m, m.probation, m.skip - 1, hm, rfl⟩
      have hplain := encodeUnmemoized_agrees h2Dates hskip cache date head
      exact ⟨hplain.bytes, hplain.table, hplain.memoOk⟩
    rw [hready]
    dsimp only
    cases hok : (head.headers.length == 0 || h2HeadMemoEligible head.headers) with
    | false => exact encodeUnmemoized_agrees h2Dates h cache date head
    | true =>
      have hsmall : head.headers.length ≤ h2HeadMemoMaxFields := by
        rw [Bool.or_eq_true, beq_iff_eq] at hok
        obtain _ | helig := hok
        · omega
        unfold h2HeadMemoEligible at helig
        by_contra hmany
        rw [if_pos (not_le.mp hmany)] at helig
        cases helig
      rw [if_neg (by decide)]
      rcases hm : t.headMemo with _ | m
      · exact encodeRemembered_agrees h2Dates h hp cache date hsmall
      dsimp only
      split_ifs with hmatch
      · obtain ⟨hgen, hholds⟩ := H2HeadMemo.holds_of_matches hmatch
        obtain ⟨-, _, _, hholds', hblock⟩ := (h m hm).2 (hfresh m hm hgen)
        obtain ⟨rfl, rfl⟩ := hholds.unique hholds'
        refine ⟨by rw [hblock], by rw [hblock], ?_⟩
        apply h.carry
        · exact Or.inl rfl
        intro m' hm'
        cases hm'
        exact ⟨m, false, m.skip, hm, rfl⟩
      · exact encodeRemembered_agrees h2Dates h hp cache date hsmall

theorem setPeerLimit_memoOk (h : t.MemoOk h2Dates) (limit : UInt32) :
    MemoOk h2Dates { t with toHpackEncTable := t.toHpackEncTable.setPeerLimit limit } := by
  apply h.carry
  · obtain heq | hlt := t.toHpackEncTable.setPeerLimit_gen limit
    · exact Or.inl heq
    · exact Or.inr (Or.inl hlt)
  intro m hm
  exact ⟨m, m.probation, m.skip, hm, rfl⟩

instance (t : H2EncTable) : Decidable t.GenFresh := by
  unfold GenFresh
  infer_instance

/-- Every response of the run finds a memo whose count has not come round. -/
def FreshRun (t : H2EncTable) : List EncCall → Prop
  | [] => True
  | .setPeerLimit limit :: cs => FreshRun (t.call h2Dates (.setPeerLimit limit)).2 cs
  | .encode cache date head :: cs =>
    t.GenFresh ∧ FreshRun (t.call h2Dates (.encode cache date head)).2 cs

instance decidableFreshRun (t : H2EncTable) : (calls : List EncCall) → Decidable (t.FreshRun h2Dates calls)
  | [] => .isTrue trivial
  | .setPeerLimit limit :: cs => decidableFreshRun (t.call h2Dates (.setPeerLimit limit)).2 cs
  | .encode cache date head :: cs =>
    have := decidableFreshRun (t.call h2Dates (.encode cache date head)).2 cs
    inferInstanceAs (Decidable (_ ∧ _))

theorem encode_agrees (h : t.MemoOk h2Dates) (hfresh : t.GenFresh)
    (cache : HpackFieldCache) (date : ℕ) (head : ResponseHead) :
    ((t.call h2Dates (.encode cache date head)).1, (t.call h2Dates (.encode cache date head)).2.toHpackEncTable) =
        plainCall h2Dates t.toHpackEncTable (.encode cache date head) ∧
      (t.call h2Dates (.encode cache date head)).2.MemoOk h2Dates := by
  have hagrees := encodeIndexed_agrees h2Dates h hfresh cache date head
  refine ⟨?_, hagrees.memoOk⟩
  unfold call plainCall
  dsimp only
  rw [hagrees.bytes, hagrees.table]

theorem calls_agree (h : t.MemoOk h2Dates) {calls : List EncCall} (hfresh : t.FreshRun h2Dates calls) :
    t.calls h2Dates calls = plainCalls h2Dates t.toHpackEncTable calls := by
  induction calls generalizing t with
  | nil => rfl
  | cons c calls ih =>
    rw [H2EncTable.calls, plainCalls]
    cases c with
    | setPeerLimit limit =>
      exact congrArg (List.cons _) (ih (setPeerLimit_memoOk h2Dates h limit) hfresh)
    | encode cache date head =>
      obtain ⟨heq, hok⟩ := encode_agrees h2Dates h hfresh.1 cache date head
      rw [ih hok hfresh.2, ← heq]

/-- The state at the start of a connection: a table just reset, perhaps with the memo of the
connection before it. -/
def Starts (t : H2EncTable) : Prop := ∃ before : H2EncTable, (∀ m, before.headMemo = some m → m.gen ≤ before.gen) ∧
    t = { before with toHpackEncTable := before.toHpackEncTable.reset }

theorem Starts.memoOk (h : t.Starts) : t.MemoOk h2Dates := by
  obtain ⟨before, hle, rfl⟩ := h
  intro m hm
  have hlt : m.gen < before.gen + 1 := Nat.lt_succ_of_le (hle m hm)
  exact ⟨hlt.le, fun heq => absurd heq hlt.ne⟩

end H2EncTable

theorem dated_decodes (cache : HpackFieldCache) {t : HpackEncTable} {r : Table} (h : t.Mirrors r)
    {limit : ℕ} (hlimit : t.pendingUpdate = true → t.maxSize ≤ limit) (date : GoString)
    (head : ResponseHead) :
    let out := encodeH2WithTable cache t date.bytes head
    ∃ r', decodeBlock limit r out.1 = some (responseFields date.bytes head, r') ∧ out.2.Mirrors r' ∧
      out.2.pendingUpdate = false := by
  obtain ⟨hp, r₁, hr₁, hupdate⟩ := HpackEncTable.beginBlock_mirrors h hlimit
  obtain ⟨t', ht', -, heq⟩ := encodeH2WithTable_eq cache t date.bytes head
  have hcarries := encodeH2Fields_carries cache (some t.beginBlock.2) date.length_lt nofun head
  rw [ht'] at hcarries
  obtain ⟨hp', hsends⟩ := hcarries.of_some hp
  obtain ⟨r', hr', hdecodes⟩ := hsends r₁ hr₁
  rw [heq]
  refine ⟨r', Decodes.decodeBlock ?_, hr', hp'⟩
  have hfields := hdecodes limit [] [] _ (decodes_nil limit r' _)
  rw [append_nil] at hfields
  exact hupdate _ _ hfields

/-- Without a table the block leaves the peer's table alone. -/
theorem dated_none_decodes (cache : HpackFieldCache) {r : Table} (hr : r.maxSize < 2 ^ 64) (limit : ℕ)
    {date : GoString} (hdate : date.bytes.length = h2DateValueLen) (head : ResponseHead) :
    decodeBlock limit r (encodeH2ResponseHeadersDated cache none date.bytes head).1 =
      some (responseFields date.bytes head, r) := by
  have hcarries := encodeH2Fields_carries cache none date.length_lt (fun _ => hdate) head
  have hfields := hcarries.of_none r hr limit [] [] _ (decodes_nil limit r _)
  rw [append_nil] at hfields
  exact hfields.decodeBlock

def decodeBlocks (limit : ℕ) : Table → List Bytes → Option (List (List Field))
  | _, [] => some []
  | r, b :: blocks =>
    match decodeBlock limit r b with
    | none => none
    | some (fields, r) => (decodeBlocks limit r blocks).map (fields :: ·)

def EncCall.fields? : EncCall → Option (List Field)
  | .setPeerLimit _ => none
  | .encode _ date head => some (responseFields (h2Dates date).bytes head)

theorem plainCalls_decode {limit : ℕ} {calls : List EncCall}
    (hlimit : ∀ l, .setPeerLimit l ∈ calls → l.toNat ≤ limit) {t : HpackEncTable} {r : Table}
    (h : t.Mirrors r) (hpend : t.pendingUpdate = true → t.maxSize ≤ limit) :
    decodeBlocks limit r ((plainCalls h2Dates t calls).filterMap Prod.fst) =
      some (calls.filterMap (EncCall.fields? h2Dates)) := by
  induction calls generalizing t r with
  | nil => rfl
  | cons c calls ih =>
    have hrest : ∀ l, .setPeerLimit l ∈ calls → l.toNat ≤ limit := fun l hl => hlimit l (mem_cons_of_mem c hl)
    cases c with
    | setPeerLimit l =>
      refine ih hrest (h.setPeerLimit l) fun _ => ?_
      show (t.setPeerLimit l).maxSize ≤ limit
      rw [HpackEncTable.setPeerLimit_maxSize]
      exact (min_le_left _ _).trans (hlimit l mem_cons_self)
    | encode cache date head =>
      obtain ⟨_, hblock, hr', hp⟩ := dated_decodes cache h hpend (h2Dates date) head
      have htail := ih hrest hr' (fun hp' => by rw [hp] at hp'; cases hp')
      show decodeBlocks limit r ((encodeH2WithTable cache t (h2Dates date).bytes head).1 ::
            (plainCalls h2Dates (encodeH2WithTable cache t (h2Dates date).bytes head).2
              calls).filterMap Prod.fst) =
        some (responseFields (h2Dates date).bytes head :: calls.filterMap (EncCall.fields? h2Dates))
      rw [decodeBlocks, hblock]
      dsimp only
      rw [htail, Option.map_some]

/-- A peer whose limit is at least each limit that it announced decodes every block of the
connection, in order, to the fields of its response. -/
theorem responseBlocks_decode {t : H2EncTable} (hstart : t.Starts) {calls : List EncCall}
    (hfresh : t.FreshRun h2Dates calls) {limit : ℕ}
    (hlimit : ∀ l, .setPeerLimit l ∈ calls → l.toNat ≤ limit) :
    decodeBlocks limit (Table.empty 4096) ((t.calls h2Dates calls).filterMap Prod.fst) =
      some (calls.filterMap (EncCall.fields? h2Dates)) := by
  rw [H2EncTable.calls_agree h2Dates (hstart.memoOk h2Dates) hfresh]
  obtain ⟨before, -, rfl⟩ := hstart
  exact plainCalls_decode h2Dates hlimit (HpackEncTable.mirrors_reset before.toHpackEncTable) (fun hp => by cases hp)

/-- On one connection, with or without the memo, each call writes the same bytes and leaves the
same table. -/
theorem headMemo_transparent {t : H2EncTable} (hstart : t.Starts) {calls : List EncCall}
    (hfresh : t.FreshRun h2Dates calls) :
    t.calls h2Dates calls = plainCalls h2Dates t.toHpackEncTable calls :=
  H2EncTable.calls_agree h2Dates (hstart.memoOk h2Dates) hfresh

end

def plainHead (contentType : Bytes) (h : contentType.length < 2 ^ 63) : ResponseHead where
  status := 200
  contentType
  contentLength := -1
  headers := []
  serverName := ascii "s"
  contentType_lt := h
  headers_lt := by simp
  serverName_lt := by decide

def sampleDates (_ : ℕ) : GoString := ⟨ascii "Thu, 01 Jan 1970 00:00:00 GMT", by decide⟩

def newEncTable : H2EncTable := { toHpackEncTable := ({} : HpackEncTable).reset }

theorem newEncTable_starts : newEncTable.Starts := ⟨{}, fun m hm => (by cases hm), rfl⟩

def encodeA : EncCall := .encode (fun _ => none) 0 (plainHead (ascii "a") (by decide))
def encodeB : EncCall := .encode (fun _ => none) 0 (plainHead (ascii "b") (by decide))

theorem headMemo_transparent_replayed : newEncTable.FreshRun sampleDates [encodeA, encodeA, encodeA] ∧
      newEncTable.calls sampleDates [encodeA, encodeA, encodeA] =
        plainCalls sampleDates newEncTable.toHpackEncTable [encodeA, encodeA, encodeA] := by
  have hfresh : newEncTable.FreshRun sampleDates [encodeA, encodeA, encodeA] := by decide +kernel
  exact ⟨hfresh, headMemo_transparent sampleDates newEncTable_starts hfresh⟩

theorem responseBlocks_decode_replayed : decodeBlocks 4096 (Table.empty 4096)
        ((newEncTable.calls sampleDates [.setPeerLimit 100, encodeA, encodeA, encodeA]).filterMap Prod.fst) =
      some ([EncCall.setPeerLimit 100, encodeA, encodeA, encodeA].filterMap (EncCall.fields? sampleDates)) := by
  apply responseBlocks_decode sampleDates newEncTable_starts
  · decide +kernel
  intro l hl
  simp only [mem_cons, not_mem_nil, or_false] at hl
  obtain heq | heq | heq | heq := hl
  · cases heq
    decide
  · cases heq
  · cases heq
  · cases heq

def closingHead : ResponseHead where
  status := 200
  contentType := []
  contentLength := -1
  headers := [(ascii "Connection", ascii "close")]
  serverName := ascii "s"
  contentType_lt := by decide
  headers_lt := by decide
  serverName_lt := by decide

theorem connectionField_not_sent : decodeBlocks 4096 (Table.empty 4096)
        ((newEncTable.calls sampleDates [.encode (fun _ => none) 0 closingHead]).filterMap Prod.fst) =
      some [[(ascii ":status", ascii "200"), (ascii "date", ascii "Thu, 01 Jan 1970 00:00:00 GMT"),
        (ascii "server", ascii "s")]] := by
  decide +kernel

def toggles (n : ℕ) : List EncCall := (replicate n [.setPeerLimit 0, .setPeerLimit 4096]).flatten

/-- Two responses, of which the second is recorded, `n` changes of the limit to zero and back,
and another response. The count has come round for `n = 2 ^ 31 - 2`. -/
def cameRound (n : ℕ) : List EncCall := [encodeA, encodeA] ++ toggles n ++ [encodeB]

def H2EncTable.after (t : H2EncTable) (calls : List EncCall) : H2EncTable :=
  calls.foldl (fun t c => (t.call sampleDates c).2) t

def plainAfter (t : HpackEncTable) (calls : List EncCall) : HpackEncTable :=
  calls.foldl (fun t c => (plainCall sampleDates t c).2) t

theorem H2EncTable.calls_append (t : H2EncTable) (calls calls' : List EncCall) : t.calls sampleDates (calls ++ calls') =
      t.calls sampleDates calls ++ (t.after calls).calls sampleDates calls' := by
  induction calls generalizing t with
  | nil => rfl
  | cons c calls ih => rw [cons_append, H2EncTable.calls, ih]; rfl

theorem plainCalls_append (t : HpackEncTable) (calls calls' : List EncCall) :
    plainCalls sampleDates t (calls ++ calls') =
      plainCalls sampleDates t calls ++ plainCalls sampleDates (plainAfter t calls) calls' := by
  induction calls generalizing t with
  | nil => rfl
  | cons c calls ih => rw [cons_append, plainCalls, ih]; rfl

theorem plainAfter_toggles (n gen : ℕ) :
    plainAfter ⟨[], 0, 4096, true, gen⟩ (toggles n) = ⟨[], 0, 4096, true, gen + 2 * n⟩ := by
  induction n generalizing gen with
  | zero => rfl
  | succ n ih =>
    have hpair : plainAfter ⟨[], 0, 4096, true, gen⟩ [.setPeerLimit 0, .setPeerLimit 4096] =
        ⟨[], 0, 4096, true, gen + 2⟩ := rfl
    unfold toggles at ih ⊢
    unfold plainAfter at ih hpair ⊢
    rw [replicate_succ, flatten_cons, foldl_append, hpair, ih]
    congr 1
    omega

theorem after_toggles (n gen : ℕ) (memo : Option H2HeadMemo) :
    H2EncTable.after ⟨⟨[], 0, 4096, true, gen⟩, memo⟩ (toggles n) = ⟨⟨[], 0, 4096, true, gen + 2 * n⟩, memo⟩ := by
  induction n generalizing gen with
  | zero => rfl
  | succ n ih =>
    have hpair : H2EncTable.after ⟨⟨[], 0, 4096, true, gen⟩, memo⟩
        [.setPeerLimit 0, .setPeerLimit 4096] = ⟨⟨[], 0, 4096, true, gen + 2⟩, memo⟩ := rfl
    unfold toggles at ih ⊢
    unfold H2EncTable.after at ih hpair ⊢
    rw [replicate_succ, flatten_cons, foldl_append, hpair, ih]
    congr 2
    omega

def recordedMemo : Option H2HeadMemo := (newEncTable.after [encodeA, encodeA]).headMemo

theorem cameRound_succ (n : ℕ) : cameRound (n + 1) =
      [encodeA, encodeA, .setPeerLimit 0, .setPeerLimit 4096] ++ toggles n ++ [encodeB] := by
  unfold cameRound toggles
  rw [replicate_succ, flatten_cons]
  simp only [cons_append, nil_append]

theorem after_cameRound (n : ℕ) : newEncTable.after (cameRound (n + 1)) =
      (H2EncTable.call sampleDates ⟨⟨[], 0, 4096, true, 7 + 2 * n⟩, recordedMemo⟩ encodeB).2 := by
  have hfirst : newEncTable.after [encodeA, encodeA, .setPeerLimit 0, .setPeerLimit 4096] =
      ⟨⟨[], 0, 4096, true, 7⟩, recordedMemo⟩ := by decide +kernel
  have hrest := after_toggles n 7 recordedMemo
  unfold H2EncTable.after at hfirst hrest ⊢
  rw [cameRound_succ, foldl_append, foldl_append, hfirst, hrest, foldl_cons, foldl_nil]

theorem plainAfter_cameRound (n : ℕ) : plainAfter newEncTable.toHpackEncTable (cameRound (n + 1)) =
      (plainCall sampleDates ⟨[], 0, 4096, true, 7 + 2 * n⟩ encodeB).2 := by
  have hfirst : plainAfter newEncTable.toHpackEncTable
      [encodeA, encodeA, .setPeerLimit 0, .setPeerLimit 4096] = ⟨[], 0, 4096, true, 7⟩ := by
    decide +kernel
  have hrest := plainAfter_toggles n 7
  unfold plainAfter at hfirst hrest ⊢
  rw [cameRound_succ, foldl_append, foldl_append, hfirst, hrest, foldl_cons, foldl_nil]

/-- Once the count has come round the memo replays indices into a table that has other
entries. -/
theorem headMemo_stale : newEncTable.calls sampleDates (cameRound (2 ^ 31 - 2) ++ [encodeA]) ≠
      plainCalls sampleDates newEncTable.toHpackEncTable (cameRound (2 ^ 31 - 2) ++ [encodeA]) := by
  rw [show (2 ^ 31 - 2 : ℕ) = 2147483645 + 1 by norm_num]
  intro h
  have hlast := congrArg getLast? h
  rw [H2EncTable.calls_append, plainCalls_append, after_cameRound, plainAfter_cameRound] at hlast
  have hone : ∀ t : H2EncTable, t.calls sampleDates [encodeA] =
      [((t.call sampleDates encodeA).1, (t.call sampleDates encodeA).2.toHpackEncTable)] := fun _ => rfl
  have hone' : ∀ t : HpackEncTable, plainCalls sampleDates t [encodeA] =
      [plainCall sampleDates t encodeA] := fun _ => rfl
  rw [hone, hone', getLast?_concat, getLast?_concat] at hlast
  have hbytes := congrArg Prod.fst (Option.some.inj hlast)
  revert hbytes
  decide +kernel

end AlosHttp.H2

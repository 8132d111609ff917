import Mathlib.Tactic

/-! The packed counter of `ratelimit_engine.go` and the run of one client against one rule.
A word is a natural number below 2^64: bit 63 marks a block, whose deadline is in the other
bits; otherwise bits 39..62 hold the window's epoch and bits 0..38 the count. Times and
durations are the source's `int64` nanoseconds. -/
namespace AlosHttp.RateLimit
open List

def rlCountMask : ℕ := 2 ^ 39 - 1
def rlEpochMask : ℕ := 2 ^ 24 - 1
def rlBlockedFlag : ℕ := 2 ^ 63
def rlRetiredState : ℕ := 2 ^ 64 - 1
def rlMaxBlockDeadline : ℤ := 2 ^ 63 - 2

structure RateLimitRule where
  maxReqs : ℤ
  window : ℤ
  blockFor : ℤ
  deriving DecidableEq, Repr

/-- Go's division truncates; the conversion to `uint64` and the mask keep the quotient
modulo 2^24. -/
def rlEpochOf (now windowNanos : ℤ) : ℕ :=
  let windowNanos := if windowNanos ≤ 0 then 1 else windowNanos
  (now.tdiv windowNanos % (rlEpochMask + 1)).toNat * (rlCountMask + 1)

def rlBlockDeadline (now blockNanos : ℤ) : ℤ := now + min (max blockNanos 0) (rlMaxBlockDeadline - now)

inductive RlOutcome
  | allowed
  | limited
  | retired
  deriving DecidableEq, Repr

structure RlCounter where
  state : ℕ
  reset : ℤ
  deriving DecidableEq, Repr

inductive Move
  /-- Return without a store: the counter is retired. -/
  | retired
  /-- Return without a store: blocked for the given time. -/
  | limited (wait : ℤ)
  /-- Swap in a block and refuse. -/
  | block (word : ℕ) (wait : ℤ)
  /-- Return without a store: the count is full. -/
  | uncounted
  /-- Swap in the word that counts this request; `first` stores the reset time before. -/
  | count (first : Bool) (word : ℕ)
  deriving DecidableEq, Repr

/-- `cur &^ rlCountMask`, `cur & rlCountMask` and the test of bit 63. -/
def epochBits (cur : ℕ) : ℕ := cur - cur % (rlCountMask + 1)
def countBits (cur : ℕ) : ℕ := cur % (rlCountMask + 1)
def isBlocked (cur : ℕ) : Bool := decide (rlBlockedFlag ≤ cur)
def blockedUntil (cur : ℕ) : ℤ := ((cur % rlBlockedFlag : ℕ) : ℤ)

def nextCount (cur epoch : ℕ) : ℕ := if epochBits cur = epoch then countBits cur + 1 else 1

/-- The rest of the loop's body once the word allows another request or a new block. -/
def countMove (cur : ℕ) (now windowNanos maxReqs blockNanos : ℤ) : Move :=
  let epoch := rlEpochOf now windowNanos
  let count := nextCount cur epoch
  if maxReqs < count then
    let blockNanos := if blockNanos ≤ 0 then windowNanos else blockNanos
    .block (rlBlockedFlag + (rlBlockDeadline now blockNanos).toNat) blockNanos
  else if rlCountMask < count then .uncounted
  else .count (count == 1) (epoch + count)

def admitMove (cur : ℕ) (now windowNanos maxReqs blockNanos : ℤ) : Move :=
  if epochBits cur ≠ rlEpochOf now windowNanos ∧ isBlocked cur then
    if cur = rlRetiredState then .retired
    else if now < blockedUntil cur then .limited (blockedUntil cur - now)
    else countMove cur now windowNanos maxReqs blockNanos
  else countMove cur now windowNanos maxReqs blockNanos

/-- A call that no other call interrupts: its first compare-and-swap succeeds. -/
def RlCounter.admit (c : RlCounter) (now windowNanos maxReqs blockNanos : ℤ) : RlCounter × RlOutcome × ℤ :=
  match admitMove c.state now windowNanos maxReqs blockNanos with
  | .retired => (c, .retired, 0)
  | .limited wait => (c, .limited, wait)
  | .block word wait => ({ c with state := word }, .limited, wait)
  | .uncounted => (c, .allowed, 0)
  | .count first word =>
    ({ state := word, reset := if first then now + windowNanos else c.reset }, .allowed, 0)

/-! ### Words -/

section Words

/-- A word that counts `n` requests of the window with index `k`. -/
def countWord (k : ℤ) (n : ℕ) : ℕ := (k % (rlEpochMask + 1)).toNat * (rlCountMask + 1) + n

def blockWord (until' : ℕ) : ℕ := rlBlockedFlag + until'

variable {k now w : ℤ} {n u : ℕ}

theorem rlEpochOf_eq (hw : 0 < w) (hnow : 0 ≤ now) : rlEpochOf now w = countWord (now / w) 0 := by
  unfold rlEpochOf countWord
  rw [if_neg (not_le.mpr hw)]
  dsimp only
  rw [Int.tdiv_eq_ediv_of_nonneg hnow]
  exact (add_zero _).symm

theorem countWord_zero_add : countWord k 0 + n = countWord k n := by
  unfold countWord
  rw [add_zero]

section
variable (hn : n ≤ rlCountMask)
include hn

theorem countWord_lt : countWord k n < rlBlockedFlag := by
  unfold countWord rlCountMask rlBlockedFlag at *
  unfold rlEpochMask at *
  omega

theorem epochBits_countWord : epochBits (countWord k n) = countWord k 0 := by
  unfold epochBits countWord rlCountMask at *
  omega

theorem countBits_countWord : countBits (countWord k n) = n := by
  unfold countBits countWord rlCountMask at *
  omega

end

@[simp] theorem isBlocked_blockWord : isBlocked (blockWord u) = true := by
  simp [isBlocked, blockWord]

theorem isBlocked_countWord (hn : n ≤ rlCountMask) : isBlocked (countWord k n) = false := by
  simpa [isBlocked] using countWord_lt hn

theorem blockedUntil_blockWord (hu : u < rlBlockedFlag) : blockedUntil (blockWord u) = u := by
  unfold blockedUntil blockWord
  rw [Nat.add_mod_left, Nat.mod_eq_of_lt hu]

theorem epochBits_blockWord_ne : epochBits (blockWord u) ≠ countWord k 0 := by
  have hlt := countWord_lt (k := k) (Nat.zero_le rlCountMask)
  unfold epochBits blockWord
  have hge : rlBlockedFlag ≤ rlBlockedFlag + u - (rlBlockedFlag + u) % (rlCountMask + 1) := by
    unfold rlBlockedFlag rlCountMask
    omega
  omega

theorem blockWord_ne_retired (hu : (u : ℤ) ≤ rlMaxBlockDeadline) : blockWord u ≠ rlRetiredState := by
  unfold blockWord rlRetiredState rlBlockedFlag rlMaxBlockDeadline at *
  omega

theorem countWord_ne_retired (hn : n ≤ rlCountMask) : countWord k n ≠ rlRetiredState := by
  have := countWord_lt (k := k) hn
  unfold rlBlockedFlag rlRetiredState at *
  omega

end Words

/-! ### What one call does to each kind of word -/

section Moves
variable {k now w maxReqs blockNanos : ℤ} {n u : ℕ}

theorem admitMove_countWord (hn : n ≤ rlCountMask) : admitMove (countWord k n) now w maxReqs blockNanos =
      countMove (countWord k n) now w maxReqs blockNanos := by
  unfold admitMove
  rw [isBlocked_countWord hn]
  simp

theorem nextCount_countWord (hn : n ≤ rlCountMask) (hw : 0 < w) (hnow : 0 ≤ now) :
    nextCount (countWord k n) (rlEpochOf now w) =
      if countWord k 0 = countWord (now / w) 0 then n + 1 else 1 := by
  unfold nextCount
  rw [epochBits_countWord hn, rlEpochOf_eq hw hnow, countBits_countWord hn]

theorem nextCount_blockWord (hw : 0 < w) (hnow : 0 ≤ now) : nextCount (blockWord u) (rlEpochOf now w) = 1 := by
  unfold nextCount
  rw [rlEpochOf_eq hw hnow, if_neg epochBits_blockWord_ne]

theorem admitMove_blockWord (hu : (u : ℤ) ≤ rlMaxBlockDeadline) (hw : 0 < w) (hnow : 0 ≤ now) :
    admitMove (blockWord u) now w maxReqs blockNanos =
      if now < u then .limited (u - now)
      else countMove (blockWord u) now w maxReqs blockNanos := by
  have hlt : u < rlBlockedFlag := by unfold rlMaxBlockDeadline rlBlockedFlag at *; omega
  unfold admitMove
  rw [isBlocked_blockWord, rlEpochOf_eq hw hnow, if_pos ⟨epochBits_blockWord_ne, rfl⟩,
    if_neg (blockWord_ne_retired hu), blockedUntil_blockWord hlt]

theorem rlBlockDeadline_le (now blockNanos : ℤ) : rlBlockDeadline now blockNanos ≤ rlMaxBlockDeadline := by
  unfold rlBlockDeadline
  omega

theorem rlBlockDeadline_eq (hb : 0 < blockNanos) (h : now + blockNanos ≤ rlMaxBlockDeadline) :
    rlBlockDeadline now blockNanos = now + blockNanos := by
  unfold rlBlockDeadline
  rw [max_eq_left hb.le, min_eq_left (by omega)]

end Moves

/-! ### The run of one client -/

/-- The requests of one client in order, each with its time and answer, and the counter. -/
structure Served where
  counter : RlCounter
  answers : List (ℤ × RlOutcome)
  deriving DecidableEq

def Served.request (rule : RateLimitRule) (s : Served) (now : ℤ) : Served :=
  let r := s.counter.admit now rule.window rule.maxReqs rule.blockFor
  { counter := r.1, answers := s.answers ++ [(now, r.2.1)] }

def serve (rule : RateLimitRule) (times : List ℤ) : Served := times.foldl (Served.request rule)
    { counter := ⟨0, times.headD 0 + rule.window⟩, answers := [] }

def allowedIn (w k : ℤ) (answers : List (ℤ × RlOutcome)) : ℕ :=
  answers.countP fun a => a.2 == .allowed && a.1 / w == k

/-- A refusal after `before` begins a block: the answer before it, if any, was positive. -/
def BeginsBlock (before : List (ℤ × RlOutcome)) : Prop := ∀ a ∈ before.getLast?, a.2 = .allowed

/-- Once a block begins at `t`, everything asked before `t + blockFor` is refused. -/
def BlockHolds (rule : RateLimitRule) (answers : List (ℤ × RlOutcome)) : Prop :=
  ∀ before t after, answers = before ++ (t, RlOutcome.limited) :: after → BeginsBlock before →
    ∀ a ∈ after, a.1 < t + rule.blockFor → a.2 = .limited

/-- The rule's numbers under which a count survives to the end of its window: it fits its
field, and a block outlasts the window it begins in. -/
def RateLimitRule.Sound (rule : RateLimitRule) : Prop :=
  1 ≤ rule.maxReqs ∧ rule.maxReqs ≤ rlCountMask ∧ 0 < rule.window ∧ rule.window ≤ rule.blockFor

@[simp] theorem allowedIn_append (w k : ℤ) (a b : List (ℤ × RlOutcome)) :
    allowedIn w k (a ++ b) = allowedIn w k a + allowedIn w k b := by
  simp [allowedIn]

open RlOutcome

theorem allowedIn_limited (w k t : ℤ) : allowedIn w k [(t, limited)] = 0 := rfl

theorem allowedIn_allowed (w k t : ℤ) : allowedIn w k [(t, allowed)] = if t / w = k then 1 else 0 := by
  simp [allowedIn, countP_cons]

variable {answers : List (ℤ × RlOutcome)}

theorem allowedIn_eq_zero {w k : ℤ} (h : ∀ a ∈ answers, a.2 = .allowed → a.1 / w < k) : allowedIn w k answers = 0 := by
  unfold allowedIn
  rw [countP_eq_zero]
  intro a ha hp
  simp only [Bool.and_eq_true, beq_iff_eq] at hp
  have := h a ha hp.1
  omega

/-- What the counter's word says about the answers given so far. -/
inductive Tracks (rule : RateLimitRule) (last : ℤ) (answers : List (ℤ × RlOutcome)) : ℕ → Prop
  /-- The word counts window `k`, and every block that began is over. -/
  | counting (k : ℤ) (n : ℕ) (hn : (n : ℤ) ≤ rule.maxReqs)
      (hcount : allowedIn rule.window (last / rule.window) answers = 0 ∨
        k = last / rule.window ∧ allowedIn rule.window (last / rule.window) answers ≤ n)
      (hover : ∀ before t after, answers = before ++ (t, RlOutcome.limited) :: after →
        BeginsBlock before → t + rule.blockFor ≤ last) :
      Tracks rule last answers (countWord k n)
  /-- The word is a block that outlasts every window with an allowed request. -/
  | blocked (u : ℕ) (hu : (u : ℤ) ≤ rlMaxBlockDeadline)
      (hwindows : ∀ a ∈ answers, a.2 = .allowed → (a.1 / rule.window + 1) * rule.window ≤ u)
      (hlast : ∃ a ∈ answers.getLast?, a.2 = .limited)
      (hover : ∀ before t after, answers = before ++ (t, RlOutcome.limited) :: after →
        BeginsBlock before → t + rule.blockFor ≤ u) :
      Tracks rule last answers (blockWord u)

/-- The invariant of a run: requests up to the time `last`, answered within the bound. -/
structure Inv (rule : RateLimitRule) (last : ℤ) (s : Served) : Prop where
  last_nonneg : 0 ≤ last
  times : ∀ a ∈ s.answers, a.1 ≤ last
  bound : ∀ k, (allowedIn rule.window k s.answers : ℤ) ≤ rule.maxReqs
  holds : BlockHolds rule s.answers
  word : Tracks rule last s.answers s.counter.state

variable {rule : RateLimitRule} {last now : ℤ} {s : Served}

theorem split_snoc {before after : List (ℤ × RlOutcome)} {x a : ℤ × RlOutcome}
    (h : answers ++ [x] = before ++ a :: after) :
    (∃ rest, after = rest ++ [x] ∧ answers = before ++ a :: rest) ∨ after = [] ∧ answers = before ∧ x = a := by
  rcases eq_nil_or_concat after with rfl | ⟨rest, y, rfl⟩
  · right
    have h' := append_inj' h rfl
    exact ⟨rfl, h'.1, by simpa using h'.2⟩
  left
  have hcons : before ++ a :: (rest ++ [y]) = (before ++ a :: rest) ++ [y] := by simp
  rw [concat_eq_append] at h
  rw [hcons] at h
  have h' := append_inj' h rfl
  have hy : x = y := by simpa using h'.2
  exact ⟨rest, by rw [hy, concat_eq_append], h'.1⟩

theorem BlockHolds.snoc {x : ℤ × RlOutcome} (h : BlockHolds rule answers)
    (hx : ∀ before t after, answers = before ++ (t, limited) :: after →
      BeginsBlock before → x.1 < t + rule.blockFor → x.2 = .limited) :
    BlockHolds rule (answers ++ [x]) := by
  intro before t after heq hbegin a ha hlt
  rcases split_snoc heq with ⟨rest, rfl, hsplit⟩ | ⟨rfl, -, -⟩
  · rcases mem_append.mp ha with hmem | hmem
    · exact h before t rest hsplit hbegin a hmem hlt
    obtain rfl : a = x := by simpa using hmem
    exact hx before t rest hsplit hbegin hlt
  · simp at ha

/-! ### One request -/

theorem countMove_eq (hr : rule.Sound) (hnow : 0 ≤ now) (hfit : now + rule.blockFor ≤ rlMaxBlockDeadline) (cur : ℕ) :
    countMove cur now rule.window rule.maxReqs rule.blockFor =
      if rule.maxReqs < nextCount cur (rlEpochOf now rule.window) then
        .block (blockWord (now + rule.blockFor).toNat) rule.blockFor
      else .count (nextCount cur (rlEpochOf now rule.window) == 1)
        (countWord (now / rule.window) (nextCount cur (rlEpochOf now rule.window))) := by
  obtain ⟨-, _, hw, _⟩ := hr
  have hbpos : 0 < rule.blockFor := by omega
  unfold countMove
  dsimp only
  split_ifs with hmax hblock hfull
  · omega
  · rw [rlBlockDeadline_eq hbpos hfit]
    rfl
  · omega
  · rw [rlEpochOf_eq hw hnow, countWord_zero_add]

theorem Inv.allow (h : Inv rule last s) (hle : last ≤ now) {c : ℕ} (hc : (c : ℤ) ≤ rule.maxReqs)
    (hcount : allowedIn rule.window (now / rule.window) s.answers + 1 ≤ c)
    (hover : ∀ before t after, s.answers = before ++ (t, limited) :: after →
      BeginsBlock before → t + rule.blockFor ≤ now) (reset : ℤ) :
    Inv rule now ⟨⟨countWord (now / rule.window) c, reset⟩, s.answers ++ [(now, .allowed)]⟩ := by
  constructor
  · exact h.last_nonneg.trans hle
  · intro a ha
    rcases mem_append.mp ha with hmem | hmem
    · exact (h.times a hmem).trans hle
    obtain rfl : a = (now, .allowed) := by simpa using hmem
    exact le_rfl
  · intro k
    rw [allowedIn_append, allowedIn_allowed]
    have hk := h.bound k
    split_ifs with heq
    · rw [heq] at hcount
      omega
    · simpa using hk
  · apply h.holds.snoc
    intro before t after hsplit hbegin hlt
    have hend := hover before t after hsplit hbegin
    exact absurd hlt (by dsimp only; omega)
  apply Tracks.counting _ _ hc
  · right
    refine ⟨rfl, ?_⟩
    rw [allowedIn_append, allowedIn_allowed, if_pos rfl]
    exact hcount
  intro before t after heq hbegin
  rcases split_snoc heq with ⟨rest, -, hsplit⟩ | ⟨-, -, hx⟩
  · exact hover before t rest hsplit hbegin
  · simp at hx

theorem Inv.refuse (h : Inv rule last s) (hle : last ≤ now) {c : RlCounter}
    (hword : Tracks rule now (s.answers ++ [(now, .limited)]) c.state) :
    Inv rule now ⟨c, s.answers ++ [(now, .limited)]⟩ := by
  constructor
  · exact h.last_nonneg.trans hle
  · intro a ha
    rcases mem_append.mp ha with hmem | hmem
    · exact (h.times a hmem).trans hle
    obtain rfl : a = (now, .limited) := by simpa using hmem
    exact le_rfl
  · intro k
    rw [allowedIn_append, allowedIn_limited]
    exact h.bound k
  · exact h.holds.snoc fun _ _ _ _ _ _ => rfl
  · exact hword

theorem allowed_of_snoc {a : ℤ × RlOutcome}
    (ha : a ∈ answers ++ [(now, .limited)]) (hallowed : a.2 = .allowed) : a ∈ answers := by
  rcases mem_append.mp ha with hmem | hmem
  · exact hmem
  rw [mem_singleton.mp hmem] at hallowed
  exact noConfusion hallowed

theorem Inv.tracks_block (hr : rule.Sound) (h : Inv rule last s) (hle : last ≤ now)
    (hfit : now + rule.blockFor ≤ rlMaxBlockDeadline)
    (hover : ∀ before t after, s.answers = before ++ (t, limited) :: after →
      BeginsBlock before → t + rule.blockFor ≤ last) :
    Tracks rule now (s.answers ++ [(now, .limited)]) (blockWord (now + rule.blockFor).toNat) := by
  obtain ⟨-, -, hw, _⟩ := hr
  have hnow := h.last_nonneg
  have hu : (((now + rule.blockFor).toNat : ℕ) : ℤ) = now + rule.blockFor := Int.toNat_of_nonneg (by omega)
  constructor
  · rw [hu]
    exact hfit
  · intro a ha hallowed
    have ht := h.times a (allowed_of_snoc ha hallowed)
    have hdiv := Int.ediv_mul_le a.1 hw.ne'
    rw [hu]
    calc (a.1 / rule.window + 1) * rule.window = a.1 / rule.window * rule.window + rule.window := by ring
      _ ≤ now + rule.blockFor := by omega
  · exact ⟨(now, .limited), by simp, rfl⟩
  intro before t after heq hbegin
  rw [hu]
  rcases split_snoc heq with ⟨rest, -, hsplit⟩ | ⟨-, -, hx⟩
  · have := hover before t rest hsplit hbegin
    omega
  obtain rfl : now = t := congrArg Prod.fst hx
  exact le_rfl

theorem Inv.tracks_blocked {u : ℕ} (hu : (u : ℤ) ≤ rlMaxBlockDeadline)
    (hwindows : ∀ a ∈ s.answers, a.2 = .allowed → (a.1 / rule.window + 1) * rule.window ≤ u)
    (hlast : ∃ a ∈ s.answers.getLast?, a.2 = .limited)
    (hover : ∀ before t after, s.answers = before ++ (t, limited) :: after →
      BeginsBlock before → t + rule.blockFor ≤ u) :
    Tracks rule now (s.answers ++ [(now, .limited)]) (blockWord u) := by
  constructor
  · exact hu
  · intro a ha hallowed
    exact hwindows a (allowed_of_snoc ha hallowed) hallowed
  · exact ⟨(now, .limited), by simp, rfl⟩
  intro before t after heq hbegin
  rcases split_snoc heq with ⟨rest, -, hsplit⟩ | ⟨-, hsplit, -⟩
  · exact hover before t rest hsplit hbegin
  · -- the refusal before this one shows that no block begins here
    obtain ⟨a, ha, hlim⟩ := hlast
    rw [hsplit] at ha
    have := hbegin a ha
    rw [hlim] at this
    exact noConfusion this

section
variable (hr : rule.Sound)
include hr

theorem Inv.allowedIn_later (h : Inv rule last s) {k : ℤ}
    (hk : last / rule.window < k) : allowedIn rule.window k s.answers = 0 := by
  apply allowedIn_eq_zero
  intro a ha _
  have := Int.ediv_le_ediv hr.2.2.1 (h.times a ha)
  omega

theorem Inv.request (h : Inv rule last s) (hle : last ≤ now) (hfit : now + rule.blockFor ≤ rlMaxBlockDeadline) :
    Inv rule now (s.request rule now) := by
  have hnow : 0 ≤ now := h.last_nonneg.trans hle
  have hw := hr.2.2.1
  unfold Served.request RlCounter.admit
  have hword := h.word
  generalize hcur : s.counter.state = cur at hword
  cases hword with
  | counting k n hn hcount hover =>
    have hmask : n ≤ rlCountMask := by have := hr.2.1; omega
    rw [admitMove_countWord hmask, countMove_eq hr hnow hfit, nextCount_countWord hmask hw hnow]
    by_cases hmax : rule.maxReqs < ((if countWord k 0 = countWord (now / rule.window) 0 then n + 1 else 1 : ℕ) : ℤ)
    · rw [if_pos hmax]
      exact h.refuse hle (h.tracks_block hr hle hfit hover)
    rw [if_neg hmax]
    apply h.allow hle (by omega)
    · rcases eq_or_ne (allowedIn rule.window (now / rule.window) s.answers) 0 with hz | hpos
      · split_ifs <;> omega
      · -- requests were counted in this window, so it is the window of the word
        have hsame : last / rule.window = now / rule.window := by
          have hmono := Int.ediv_le_ediv hw hle
          by_contra hne
          exact hpos (h.allowedIn_later hr (by omega))
        rcases hcount with hz | ⟨rfl, hcnt⟩
        · rw [hsame] at hz
          exact absurd hz hpos
        rw [hsame] at hcnt ⊢
        rw [if_pos rfl]
        omega
    intro before t after hsplit hbegin
    exact (hover before t after hsplit hbegin).trans hle
  | blocked u hu hwindows hlast hover =>
    rw [admitMove_blockWord hu hw hnow]
    by_cases hlt : now < u
    · rw [if_pos hlt]
      apply h.refuse hle
      rw [hcur]
      exact Inv.tracks_blocked hu hwindows hlast hover
    rw [if_neg hlt, countMove_eq hr hnow hfit, nextCount_blockWord hw hnow, if_neg (by have := hr.1; push_cast; omega)]
    apply h.allow hle (by have := hr.1; push_cast; omega)
    · have hz : allowedIn rule.window (now / rule.window) s.answers = 0 := by
        apply allowedIn_eq_zero
        intro a ha hallowed
        have hend := hwindows a ha hallowed
        have : a.1 / rule.window + 1 ≤ now / rule.window := by
          rw [Int.le_ediv_iff_mul_le hw]
          omega
        omega
      omega
    intro before t after hsplit hbegin
    have := hover before t after hsplit hbegin
    omega

/-- The run lemma: requests in the order of their times keep the invariant. -/
theorem Inv.run {times : List ℤ} (h : Inv rule last s) (hmono : (last :: times).Pairwise (· ≤ ·))
    (hfit : ∀ t ∈ times, t + rule.blockFor ≤ rlMaxBlockDeadline) :
    ∃ last', Inv rule last' (times.foldl (Served.request rule) s) := by
  induction times generalizing last s with
  | nil => exact ⟨last, h⟩
  | cons now times ih =>
    rw [pairwise_cons] at hmono
    have hstep := h.request hr (hmono.1 now (by simp)) (hfit now (by simp))
    exact ih hstep hmono.2 fun t ht => hfit t (by simp [ht])

theorem Inv.init (reset : ℤ) : Inv rule 0 ⟨⟨0, reset⟩, []⟩ := by
  have h1 := hr.1
  constructor
  · exact le_rfl
  · simp
  · intro k
    simp [allowedIn]
    omega
  · intro before t after heq
    simp at heq
  apply Tracks.counting 0 0 (by push_cast; omega)
  · left
    rfl
  intro before t after heq
  simp at heq

end

end AlosHttp.RateLimit

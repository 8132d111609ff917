import Mathlib.Tactic

/-! `TokenBucket` of `ratelimit.go`, one call at a time, in nanoseconds. What is less than one token is
left to accrue, also on a full bucket, which can so grant almost one token above burst and rate. -/
namespace AlosHttp.RateLimit

def nanosPerSecond : ℕ := 10 ^ 9

/-- The product is the two words of `bits.Mul64`; `bits.Div64` gives one word. -/
def mulDivCapped (a b divisor limit : ℕ) : ℕ :=
  let hi := a * b / 2 ^ 64
  let lo := a * b % 2 ^ 64
  if hi ≥ divisor then limit
  else
    let quotient := if hi = 0 then lo / divisor else (hi * 2 ^ 64 + lo) / divisor % 2 ^ 64
    if quotient ≥ limit then limit else quotient

theorem mulDivCapped_eq {a b d limit : ℕ} (hd : 0 < d) (hl : limit < 2 ^ 63) :
    mulDivCapped a b d limit = min limit (a * b / d) := by
  have hsplit := Nat.div_add_mod' (a * b) (2 ^ 64)
  unfold mulDivCapped
  dsimp only
  by_cases hbig : d ≤ a * b / 2 ^ 64
  · have hquot : 2 ^ 64 ≤ a * b / d := by
      rw [Nat.le_div_iff_mul_le hd, mul_comm]
      exact (Nat.le_div_iff_mul_le (by positivity)).mp hbig
    rw [if_pos hbig]
    omega
  have hprod : a * b < d * 2 ^ 64 := (Nat.div_lt_iff_lt_mul (by positivity)).mp (not_le.mp hbig)
  have hquot : a * b / d < 2 ^ 64 := (Nat.div_lt_iff_lt_mul hd).mpr (by omega)
  have hword : (if a * b / 2 ^ 64 = 0 then a * b % 2 ^ 64 / d
      else (a * b / 2 ^ 64 * 2 ^ 64 + a * b % 2 ^ 64) / d % 2 ^ 64) = a * b / d := by
    split_ifs with hzero
    · rw [Nat.mod_eq_of_lt (by omega)]
    · rw [hsplit, Nat.mod_eq_of_lt hquot]
  rw [if_neg hbig, hword]
  split_ifs <;> omega

structure TokenBucket where
  tokens : ℕ
  lastTime : ℕ
  rate : ℕ
  burst : ℕ

/-- A rate or a burst below zero acts as zero. -/
def newTokenBucket (ratePerSec burst now : ℕ) : TokenBucket :=
  let burst := if ratePerSec = 0 then 0 else if burst = 0 then ratePerSec else burst
  ⟨burst, now, ratePerSec, burst⟩

namespace TokenBucket

def refill (tb : TokenBucket) (now : ℕ) : TokenBucket :=
  let tokensToAdd := mulDivCapped (now - tb.lastTime) tb.rate nanosPerSecond tb.burst
  if now ≤ tb.lastTime ∨ tokensToAdd = 0 then tb
  else { tb with
    lastTime := now
    tokens := if tokensToAdd < tb.burst - tb.tokens then tb.tokens + tokensToAdd else tb.burst }

def allow (tb : TokenBucket) (now : ℕ) (tokens : ℤ) : TokenBucket × Bool :=
  if tokens ≤ 0 then (tb, true)
  else if tokens > tb.burst then (tb, tb.burst = 0)
  else
    let tb := tb.refill now
    if tb.tokens < tokens then (tb, false)
    else ({ tb with tokens := tb.tokens - tokens.toNat }, true)

/-- Calls of `Allow`, each with its time, and the tokens they grant in all. -/
def run (tb : TokenBucket) : List (ℕ × ℤ) → TokenBucket × ℕ
  | [] => (tb, 0)
  | (now, tokens) :: calls =>
    let (tb, ok) := tb.allow now tokens
    let (tb, granted) := tb.run calls
    (tb, (if ok then tokens.toNat else 0) + granted)

structure Ok (rate burst : ℕ) (tb : TokenBucket) : Prop where
  tokens : tb.tokens ≤ tb.burst
  rate : tb.rate = rate
  burst : tb.burst = burst
  pos : 0 < tb.burst
  fits : tb.burst < 2 ^ 63

/-- What the bucket could grant at a time, in units of `10⁻⁹` tokens. -/
def credit (tb : TokenBucket) (now : ℕ) : ℕ :=
  min (nanosPerSecond * tb.tokens + (now - tb.lastTime) * tb.rate) (nanosPerSecond * (tb.burst + 1) - 1)

variable {rate burst : ℕ} {tb : TokenBucket}

theorem Ok.credit_le (h : tb.Ok rate burst) {now later : ℕ} (hle : now ≤ later) :
    tb.credit later ≤ tb.credit now + (later - now) * rate := by
  have hspan : (later - tb.lastTime) * rate ≤ (now - tb.lastTime) * rate + (later - now) * rate := by
    rw [← add_mul]
    exact Nat.mul_le_mul_right _ (by omega)
  unfold credit
  rw [h.rate]
  omega

theorem Ok.refill (h : tb.Ok rate burst) (now : ℕ) :
    (tb.refill now).Ok rate burst ∧ nanosPerSecond * (tb.refill now).tokens +
      (now - (tb.refill now).lastTime) * rate ≤ tb.credit now := by
  obtain ⟨htokens, rfl, rfl, hpos, hburst⟩ := h
  have haccrued := Nat.div_add_mod ((now - tb.lastTime) * tb.rate) nanosPerSecond
  have hrest := Nat.mod_lt ((now - tb.lastTime) * tb.rate) (y := nanosPerSecond) (by decide)
  unfold TokenBucket.refill credit
  dsimp only
  rw [mulDivCapped_eq (by decide) hburst]
  unfold nanosPerSecond at *
  split_ifs with hkeep
  · -- nothing is added: what has accrued is less than one token
    refine ⟨⟨htokens, rfl, rfl, hpos, hburst⟩, ?_⟩
    rcases hkeep with hpast | hnone
    · rw [Nat.sub_eq_zero_of_le hpast, zero_mul]
      omega
    · omega
  all_goals
    rw [Nat.sub_self, zero_mul]
    exact ⟨⟨by dsimp only; omega, rfl, rfl, hpos, hburst⟩, by dsimp only; omega⟩

theorem Ok.allow (h : tb.Ok rate burst) (now : ℕ) (tokens : ℤ) :
    (tb.allow now tokens).1.Ok rate burst ∧ nanosPerSecond * (if (tb.allow now tokens).2 then tokens.toNat else 0) +
        (tb.allow now tokens).1.credit now ≤ tb.credit now := by
  obtain ⟨hrefill, hcredit⟩ := h.refill now
  have hrate := hrefill.rate
  generalize hres : tb.allow now tokens = res
  unfold TokenBucket.allow at hres
  dsimp only at hres
  split_ifs at hres with hnone hlarge hpoor <;> subst hres
  · rw [Int.toNat_of_nonpos hnone]
    exact ⟨h, by simp⟩
  · exact ⟨h, by simp [h.pos.ne']⟩
  · refine ⟨hrefill, ?_⟩
    rw [if_neg (by simp), mul_zero, zero_add]
    exact (min_le_left _ _).trans (hrate.symm ▸ hcredit)
  have htokens := hrefill.tokens
  refine ⟨⟨by dsimp only; omega, hrate, hrefill.burst, hrefill.pos, hrefill.fits⟩, ?_⟩
  rw [if_pos rfl]
  refine (Nat.add_le_add_left (min_le_left _ _) _).trans (le_trans ?_ hcredit)
  dsimp only
  rw [hrate]
  unfold nanosPerSecond
  omega

theorem Ok.run (h : tb.Ok rate burst) (calls : List (ℕ × ℤ)) : (tb.run calls).1.Ok rate burst := by
  induction calls generalizing tb with
  | nil => exact h
  | cons call calls ih => exact ih (h.allow call.1 call.2).1

theorem Ok.granted_le (h : tb.Ok rate burst) {calls : List (ℕ × ℤ)} {start stop : ℕ}
    (hsorted : calls.Pairwise (·.1 ≤ ·.1))
    (hin : ∀ call ∈ calls, start ≤ call.1 ∧ call.1 ≤ stop) :
    nanosPerSecond * (tb.run calls).2 ≤ tb.credit start + (stop - start) * rate := by
  induction calls generalizing tb start with
  | nil => simp [TokenBucket.run]
  | cons call calls ih =>
    obtain ⟨now, tokens⟩ := call
    obtain ⟨hfirst, hsorted⟩ := List.pairwise_cons.mp hsorted
    obtain ⟨hstart, hstop⟩ := hin _ List.mem_cons_self
    dsimp only at hfirst hstart hstop
    obtain ⟨hok, hpaid⟩ := h.allow now tokens
    have hrest := ih hok hsorted fun call hcall =>
      ⟨hfirst call hcall, (hin call (List.mem_cons_of_mem _ hcall)).2⟩
    have haccrued := h.credit_le hstart
    have hspan : (now - start) * rate + (stop - now) * rate = (stop - start) * rate := by
      rw [← add_mul]
      congr 1
      omega
    show nanosPerSecond * ((if (tb.allow now tokens).2 then tokens.toNat else 0) +
      ((tb.allow now tokens).1.run calls).2) ≤ _
    rw [mul_add]
    omega

end TokenBucket

/-- Calls between `t₁` and `t₂` grant less than one token above what burst and rate allow. -/
theorem tokenBucket_bound : (∀ (rate burst : ℕ), 1 ≤ rate → 1 ≤ burst → burst < 2 ^ 63 →
    ∀ (created t₁ t₂ : ℕ) (before calls : List (ℕ × ℤ)),
      (before ++ calls).Pairwise (·.1 ≤ ·.1) → (∀ call ∈ calls, t₁ ≤ call.1 ∧ call.1 ≤ t₂) →
      let tb := ((newTokenBucket rate burst created).run before).1
      tb.tokens ≤ burst ∧ nanosPerSecond * (tb.run calls).2 < nanosPerSecond * (burst + 1) + (t₂ - t₁) * rate) ∧
    ∀ a b d limit, 0 < d → limit < 2 ^ 63 → mulDivCapped a b d limit = min limit (a * b / d) := by
  refine ⟨?_, fun a b d limit => mulDivCapped_eq⟩
  intro rate burst hrate hpos hburst created t₁ t₂ before calls hsorted hin tb
  have hnew : (newTokenBucket rate burst created).Ok rate burst := by
    unfold newTokenBucket
    dsimp only
    rw [if_neg (by omega), if_neg (by omega)]
    exact ⟨le_rfl, rfl, rfl, hpos, hburst⟩
  have hok : tb.Ok rate burst := hnew.run before
  have htokens := hok.tokens
  have hgranted := hok.granted_le (List.pairwise_append.mp hsorted).2.1 hin
  have hcredit : tb.credit t₁ ≤ nanosPerSecond * (tb.burst + 1) - 1 := min_le_right _ _
  rw [hok.burst] at htokens hcredit
  unfold nanosPerSecond at *
  omega

def refilled : TokenBucket := ((newTokenBucket 10 5 0).run [(0, 5), (400000000, 2)]).1

theorem tokenBucket_bound_refilled : refilled.tokens ≤ 5 ∧
    nanosPerSecond * (refilled.run [(1000000000, 3), (1000000000, 2), (1200000000, 4)]).2 <
      nanosPerSecond * (5 + 1) + (1200000000 - 1000000000) * 10 :=
  tokenBucket_bound.1 10 5 (by decide) (by decide) (by decide) 0 1000000000 1200000000 [(0, 5), (400000000, 2)]
    [(1000000000, 3), (1000000000, 2), (1200000000, 4)] (by decide) (by decide)

theorem tokenBucket_one_more : ∃ calls : List (ℕ × ℤ),
    calls.Pairwise (·.1 ≤ ·.1) ∧ (∀ call ∈ calls, 900000000 ≤ call.1 ∧ call.1 ≤ 1000000000) ∧
      ¬ nanosPerSecond * ((newTokenBucket 1 1 0).run calls).2 ≤ nanosPerSecond * 1 + (1000000000 - 900000000) * 1 :=
  ⟨[(900000000, 1), (1000000000, 1)], by decide, by decide, by decide⟩

end AlosHttp.RateLimit

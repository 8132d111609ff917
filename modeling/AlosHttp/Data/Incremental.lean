import Mathlib.Tactic

/-! Decoders that are called again and again on the unread part of a growing buffer. A
call returns the new state and either an error or the consumed length and its output; a
call that consumes nothing makes no progress. -/
namespace AlosHttp.Data
open List
variable {σ τ α ο ε : Type*}

structure Drained (σ ο ε : Type*) where
  state : σ
  consumed : ℕ
  out : List ο
  error : Option ε
  deriving DecidableEq

namespace Drained

/-- The same run with `n` consumed items and `o` output before it. -/
def after (r : Drained σ ο ε) (n : ℕ) (o : List ο) : Drained σ ο ε :=
  { r with consumed := n + r.consumed, out := o ++ r.out }

@[simp] theorem after_zero (r : Drained σ ο ε) : r.after 0 [] = r := by simp [after]

theorem after_after (r : Drained σ ο ε) (m n : ℕ) (o p : List ο) :
    (r.after m o).after n p = r.after (n + m) (p ++ o) := by
  simp [after, add_assoc]

def map (f : σ → τ) (r : Drained σ ο ε) : Drained τ ο ε :=
  { state := f r.state, consumed := r.consumed, out := r.out, error := r.error }

end Drained

def drainLoop (step : σ → List α → σ × Except ε (ℕ × List ο)) : ℕ → σ → List α → Drained σ ο ε
  | 0, s, _ => ⟨s, 0, [], none⟩
  | fuel + 1, s, x =>
    match step s x with
    | (s', .error e) => ⟨s', 0, [], some e⟩
    | (s', .ok (n, o)) =>
      if n = 0 then ⟨s', 0, [], none⟩ else (drainLoop step fuel s' (x.drop n)).after n o

/-- Every call but the last consumes, so the fuel covers the buffer. -/
def drain (step : σ → List α → σ × Except ε (ℕ × List ο)) (s : σ) (x : List α) : Drained σ ο ε :=
  drainLoop step (x.length + 1) s x

/-- One buffer that grows by reads; consumed items are dropped from it. -/
structure Feed (σ α ο ε : Type*) where
  result : Drained σ ο ε
  unread : List α

def feed (step : σ → List α → σ × Except ε (ℕ × List ο)) (f : Feed σ α ο ε) (read : List α) : Feed σ α ο ε :=
  let buf := f.unread ++ read
  if f.result.error.isSome then { f with unread := buf }
  else
    let r := drain step f.result.state buf
    { result := r.after f.result.consumed f.result.out, unread := buf.drop r.consumed }

def feedAll (step : σ → List α → σ × Except ε (ℕ × List ο)) (s : σ) (reads : List (List α)) : Feed σ α ο ε :=
  reads.foldl (feed step) { result := ⟨s, 0, [], none⟩, unread := [] }

/-- A call's answer does not change when more input follows, except that it may take more
of it: then a second call on the new input takes the rest. -/
structure Incremental (inv : σ → Prop) (step : σ → List α → σ × Except ε (ℕ × List ο)) : Prop where
  keeps : ∀ {s x s' n o}, inv s → step s x = (s', .ok (n, o)) → inv s'
  stall : ∀ {s x s' o}, inv s → step s x = (s', .ok (0, o)) → s' = s
  nil : ∀ {s}, inv s → step s [] = (s, .ok (0, []))
  bound : ∀ {s x s' n o}, inv s → step s x = (s', .ok (n, o)) → n ≤ x.length
  take : ∀ {s x s' n o}, inv s → step s x = (s', .ok (n, o)) → n ≠ 0 → step s (x.take n) = (s', .ok (n, o))
  error_append : ∀ {s x s' e}, inv s → step s x = (s', .error e) → ∀ y, step s (x ++ y) = (s', .error e)
  ok_append : ∀ {s x s' n o}, inv s → step s x = (s', .ok (n, o)) → n ≠ 0 → ∀ y,
    step s (x ++ y) = (s', .ok (n, o)) ∨ n = x.length ∧ ∃ s'' m p, m ≠ 0 ∧ step s' y = (s'', .ok (m, p)) ∧
        step s (x ++ y) = (s'', .ok (n + m, o ++ p))

namespace Incremental
variable {inv : σ → Prop} {step : σ → List α → σ × Except ε (ℕ × List ο)}
variable {x : List α} {s s' : σ} {o : List ο}

theorem drainLoop_eq (h : Incremental inv step) {fuel : ℕ} (hs : inv s)
    (hf : x.length < fuel) : drainLoop step fuel s x = drain step s x := by
  induction fuel using Nat.strong_induction_on generalizing s x with
  | _ fuel ih =>
    unfold drain
    rcases fuel with _ | fuel
    · omega
    unfold drainLoop
    rcases hstep : step s x with ⟨s', r⟩
    rcases r with e | p
    · rfl
    obtain ⟨n, o⟩ := p
    have hb := h.bound hs hstep
    have hs' := h.keeps hs hstep
    by_cases hn : n = 0
    · simp only [hn, if_true]
    simp only [if_neg hn]
    have hlen : (x.drop n).length < x.length := by rw [length_drop]; omega
    rw [ih fuel (by omega) hs' (by omega)]
    by_cases hx : fuel = x.length
    · rw [← hx, ih fuel (by omega) hs' (by omega)]
    · rw [ih x.length (by omega) hs' hlen]

theorem drain_error {e : ε} (hstep : step s x = (s', .error e)) : drain step s x = ⟨s', 0, [], some e⟩ := by
  unfold drain drainLoop
  rw [hstep]

theorem drain_stall (hstep : step s x = (s', .ok (0, o))) : drain step s x = ⟨s', 0, [], none⟩ := by
  unfold drain drainLoop
  rw [hstep]
  rfl

section
variable (h : Incremental inv step)
include h

theorem drain_ok {n : ℕ} (hs : inv s) (hstep : step s x = (s', .ok (n, o))) (hn : n ≠ 0) :
    drain step s x = (drain step s' (x.drop n)).after n o := by
  have hb := h.bound hs hstep
  unfold drain
  rw [drainLoop, hstep]
  simp only [if_neg hn]
  rw [h.drainLoop_eq (h.keeps hs hstep) (by rw [length_drop]; omega), drain]

theorem drain_nil (hs : inv s) : drain step s [] = ⟨s, 0, [], none⟩ := drain_stall (h.nil hs)

theorem drain_induction {P : σ → List α → Drained σ ο ε → Prop}
    (herror : ∀ s x s' e, inv s → step s x = (s', .error e) → P s x ⟨s', 0, [], some e⟩)
    (hstall : ∀ s x o, inv s → step s x = (s, .ok (0, o)) → P s x ⟨s, 0, [], none⟩)
    (hok : ∀ s x s' n o, inv s → step s x = (s', .ok (n, o)) → n ≠ 0 → inv s' →
      P s' (x.drop n) (drain step s' (x.drop n)) →
      P s x ((drain step s' (x.drop n)).after n o))
    (hs : inv s) (x : List α) : P s x (drain step s x) := by
  induction hx : x.length using Nat.strong_induction_on generalizing s x with
  | _ len ih =>
    rcases hstep : step s x with ⟨s', r⟩
    rcases r with e | p
    · rw [drain_error hstep]
      exact herror s x s' e hs hstep
    obtain ⟨n, o⟩ := p
    by_cases hn : n = 0
    · subst hn
      obtain rfl := h.stall hs hstep
      rw [drain_stall hstep]
      exact hstall s' x o hs hstep
    rw [h.drain_ok hs hstep hn]
    have hb := h.bound hs hstep
    have hs' := h.keeps hs hstep
    apply hok s x s' n o hs hstep hn hs'
    by_cases hlt : (x.drop n).length < len
    · exact ih _ hlt hs' _ rfl
    rw [length_drop] at hlt
    omega

theorem drain_inv (hs : inv s) (x : List α) (hok : (drain step s x).error = none) : inv (drain step s x).state := by
  revert hok
  apply h.drain_induction (P := fun _ _ r => r.error = none → inv r.state) _ _ _ hs x
  · intro s x s' e _ _ he
    simp at he
  · intro s x o hs _ _
    exact hs
  intro s x s' n o _ _ _ _ ih he
  exact ih he

theorem drain_consumed_le (hs : inv s) (x : List α) : (drain step s x).consumed ≤ x.length := by
  apply h.drain_induction (P := fun _ x r => r.consumed ≤ x.length) _ _ _ hs x
  · intro s x s' e _ _
    exact Nat.zero_le _
  · intro s x o _ _
    exact Nat.zero_le _
  intro s x s' n o hs hstep _ _ ih
  have hb := h.bound hs hstep
  rw [length_drop] at ih
  change n + _ ≤ _
  omega

end

section
variable (h : Incremental inv step)
include h

/-- A run over appended input is the run over the first part followed, unless it failed,
by the run over what it left and the rest. -/
theorem drain_append (hs : inv s) (x y : List α) : drain step s (x ++ y) =
      if (drain step s x).error.isSome then drain step s x
      else (drain step (drain step s x).state (x.drop (drain step s x).consumed ++ y)).after
        (drain step s x).consumed (drain step s x).out := by
  apply h.drain_induction (P := fun s x r => drain step s (x ++ y) =
    if r.error.isSome then r
    else (drain step r.state (x.drop r.consumed ++ y)).after r.consumed r.out) _ _ _ hs x
  · intro s x s' e hs hstep
    exact drain_error (h.error_append hs hstep y)
  · intro s x o _ _
    simp
  intro s x s' n o hs hstep hn hs' ih
  have hb := h.bound hs hstep
  rcases h.ok_append hs hstep hn y with hsame | ⟨hall, _, m, p, hm, hmore, hboth⟩
  · rw [h.drain_ok hs hsame hn, drop_append_of_le_length hb, ih]
    rw [drop_drop]
    generalize drain step s' (x.drop n) = r
    change _ = if r.error.isSome then r.after n o
      else (drain step r.state (x.drop (n + r.consumed) ++ y)).after (n + r.consumed) (o ++ r.out)
    split_ifs
    · rfl
    · rw [Drained.after_after]
  · -- the call took all of `x`, so the run over `x` ended there
    have hnil : x.drop n = [] := by rw [hall]; exact drop_length
    rw [h.drain_ok hs hboth (by omega), hnil, h.drain_nil hs', ← drop_drop,
      drop_append_of_le_length hb, hnil, nil_append]
    simp only [Drained.after, Option.isSome_none, Bool.false_eq_true, if_false, add_zero, append_nil, hnil, nil_append]
    rw [h.drain_ok hs' hmore hm]
    simp [Drained.after, add_assoc]

theorem drain_take_step {n : ℕ} (hs : inv s) (hstep : step s x = (s', .ok (n, o))) (hn : n ≠ 0) :
    drain step s (x.take n) = ⟨s', n, o, none⟩ := by
  rw [h.drain_ok hs (h.take hs hstep hn) hn, drop_take, Nat.sub_self, take_zero, h.drain_nil (h.keeps hs hstep)]
  simp [Drained.after]

theorem drain_take (hs : inv s) (x : List α) (hok : (drain step s x).error = none) :
    drain step s (x.take (drain step s x).consumed) = drain step s x := by
  revert hok
  apply h.drain_induction (P := fun s x r => r.error = none → drain step s (x.take r.consumed) = r) _ _ _ hs x
  · intro s x s' e _ _ he
    simp at he
  · intro s x o hs _ _
    simpa using h.drain_nil hs
  intro s x s' n o hs hstep hn _ ih he
  change drain step s (x.take (n + _)) = _
  rw [take_add, h.drain_append hs, h.drain_take_step hs hstep hn]
  simp only [Option.isSome_none, Bool.false_eq_true, if_false, drop_take, Nat.sub_self, take_zero, nil_append]
  rw [ih he]

theorem drain_resume (hs : inv s) (hx : drain step s x = ⟨s', x.length, o, none⟩) (y : List α) :
    drain step s (x ++ y) = (drain step s' y).after x.length o := by
  rw [h.drain_append hs, hx]
  simp

theorem drain_from {k : ℕ} (hs : inv s) (hx : drain step s (x.take k) = ⟨s', k, o, none⟩) :
    k ≤ x.length ∧ inv s' ∧ drain step s x = (drain step s' (x.drop k)).after k o := by
  have hle := h.drain_consumed_le hs (x.take k)
  have hinv := h.drain_inv hs (x.take k) (by rw [hx])
  rw [hx] at hinv
  rw [hx, length_take] at hle
  dsimp only at hle
  have hlen : (x.take k).length = k := by
    rw [length_take]
    omega
  refine ⟨by omega, hinv, ?_⟩
  rw [← hlen] at hx
  have := h.drain_resume hs (by rw [hlen] at hx ⊢; exact hx) (x.drop k)
  rwa [take_append_drop, hlen] at this

theorem drain_take_add {s'' : σ} {p : List ο}
    {k n : ℕ} (hs : inv s) (hx : drain step s (x.take k) = ⟨s', k, o, none⟩)
    (hrest : drain step s' ((x.drop k).take n) = ⟨s'', n, p, none⟩) :
    drain step s (x.take (k + n)) = ⟨s'', k + n, o ++ p, none⟩ := by
  have hpre : (x.take (k + n)).take k = x.take k := by
    rw [take_take, Nat.min_eq_left (Nat.le_add_right k n)]
  rw [(h.drain_from hs (by rw [hpre]; exact hx)).2.2, drop_take, Nat.add_sub_cancel_left,
    hrest]
  rfl

theorem feedAll_eq (hs : inv s) (reads : List (List α)) :
    (feedAll step s reads).result = drain step s reads.flatten := by
  -- the unread part is what the run so far left of the input
  have key : ∀ reads : List (List α), (feedAll step s reads).result = drain step s reads.flatten ∧
      (feedAll step s reads).unread = reads.flatten.drop (drain step s reads.flatten).consumed := by
    intro reads
    induction reads using reverseRecOn with
    | nil =>
      simp [feedAll, h.drain_nil hs]
    | append_singleton reads read ih =>
      obtain ⟨hres, hun⟩ := ih
      have hle := h.drain_consumed_le hs reads.flatten
      have hfold : feedAll step s (reads ++ [read]) = feed step (feedAll step s reads) read := by
        simp [feedAll]
      rw [hfold, flatten_concat, h.drain_append hs]
      unfold feed
      rw [hres, hun]
      split_ifs with herr
      · exact ⟨rfl, (drop_append_of_le_length hle).symm⟩
      refine ⟨rfl, ?_⟩
      simp only [Drained.after]
      rw [← drop_drop, drop_append_of_le_length hle]
  exact (key reads).1

end

end Incremental

theorem drain_map {step : σ → List α → σ × Except ε (ℕ × List ο)}
    {step' : τ → List α → τ × Except ε (ℕ × List ο)} {f : σ → τ}
    (hf : ∀ s x, step' (f s) x = (f (step s x).1, (step s x).2)) (s : σ) (x : List α) :
    drain step' (f s) x = (drain step s x).map f := by
  have key : ∀ fuel s x, drainLoop step' fuel (f s) x = (drainLoop step fuel s x).map f := by
    intro fuel
    induction fuel with
    | zero =>
      intro s x
      rfl
    | succ fuel ih =>
      intro s x
      unfold drainLoop
      rw [hf]
      rcases step s x with ⟨_, e | ⟨n, o⟩⟩
      · rfl
      dsimp only
      split_ifs
      · rfl
      rw [ih]
      rfl
  exact key _ s x

end AlosHttp.Data

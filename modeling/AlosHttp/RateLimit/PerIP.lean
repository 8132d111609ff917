import Mathlib.Tactic

/-! The counters of `perIPLimiter`, one address of its map at a time. -/
namespace AlosHttp.PerIP
open Function Multiset

def ipCounterDead : ℤ := -2 ^ 62

/-- What a call does next: `m.Load`, `m.LoadOrStore`, `n.Load`, `n.CompareAndSwap`,
`m.CompareAndDelete` of `hold`; a hold; `m.Load`, `n.Add(-1)` on `t`, `n.Add(1)` of `release`, for
a hold on `c`; `n.CompareAndSwap`, `m.CompareAndDelete` of `sweep`. -/
inductive Call
  | lookup
  | store
  | load (c : ℕ)
  | swap (c : ℕ) (cur : ℤ)
  | delete (c : ℕ)
  | held (c : ℕ)
  | find (c : ℕ)
  | sub (c t : ℕ)
  | add (t : ℕ)
  | retire (c : ℕ)
  | sweep (c : ℕ)

/-- The map's entry for an address, and its counters by allocation. -/
structure Entry where
  m : Option ℕ := none
  n : ℕ → ℤ := fun _ => 0
  fresh : ℕ := 0

namespace Entry

@[simp] def setN (e : Entry) (c : ℕ) (v : ℤ) : Entry := { e with n := update e.n c v }

def compareAndDelete (e : Entry) (c : ℕ) : Entry := if e.m = some c then { e with m := none } else e

def advance (limit : ℤ) (e : Entry) : Call → Entry × Option Call
  | .lookup => (e, some (e.m.elim .store .load))
  | .store =>
    match e.m with
    | some c => (e, some (.load c))
    | none => ({ m := some e.fresh, n := update e.n e.fresh 0, fresh := e.fresh + 1 }, some (.load e.fresh))
  | .load c =>
    (e, if e.n c < 0 then some (.delete c) else if limit ≤ e.n c then none
      else some (.swap c (e.n c)))
  | .swap c cur =>
    if e.n c = cur then (e.setN c (cur + 1), some (.held c)) else (e, some (.load c))
  | .delete c => (e.compareAndDelete c, some .lookup)
  | .held c => (e, some (.held c))
  | .find c => (e, e.m.map (.sub c))
  | .sub _ t => (e.setN t (e.n t - 1), if e.n t - 1 < 0 then some (.add t) else none)
  | .add t => (e.setN t (e.n t + 1), none)
  | .retire c => if e.n c = 0 then (e.setN c ipCounterDead, some (.sweep c)) else (e, none)
  | .sweep c => (e.compareAndDelete c, none)

end Entry

/-- A release is of a hold, by its address or by its counter; `sweep` visits any counter, also one
that is no longer mapped. -/
inductive Next (limit : ℤ) : Entry × Multiset Call → Entry × Multiset Call → Prop
  | hold {e cs} : Next limit (e, cs) (e, .lookup ::ₘ cs)
  | release {e cs c} : Next limit (e, .held c ::ₘ cs) (e, .find c ::ₘ cs)
  | counterRelease {e cs c} : Next limit (e, .held c ::ₘ cs) (e, .sub c c ::ₘ cs)
  | visit {e cs c} : c < e.fresh → Next limit (e, cs) (e, .retire c ::ₘ cs)
  | step {e cs x} : Next limit (e, x ::ₘ cs) ((e.advance limit x).1, (e.advance limit x).2.elim cs (· ::ₘ cs))

/-- A step on any address; no call with an empty one takes a step. -/
def Step (limit : ℤ) (s s' : String → Entry × Multiset Call) : Prop :=
  ∃ ip ≠ "", ∃ a, Next limit (s ip) a ∧ s' = update s ip a

namespace Call

@[simp] def holding : Call → Option ℕ
  | held c | find c | sub c _ => some c
  | _ => none

@[simp] def Good (limit : ℤ) (e : Entry) : Call → Prop
  | held c | find c => e.m = some c
  | sub c t => e.m = some c ∧ t = c
  | load c | retire c => c < e.fresh
  | swap c cur => c < e.fresh ∧ 0 ≤ cur ∧ cur < limit
  | delete c | sweep c => c < e.fresh ∧ e.n c < 0
  | add _ => False
  | _ => True

end Call

def holds (cs : Multiset Call) : ℕ := cs.countP (·.holding.isSome)

/-- The mapped counter counts the holds, or is dead and there are none; all others are dead. -/
structure Inv (limit : ℤ) (s : Entry × Multiset Call) : Prop where
  dead : ∀ c < s.1.fresh, s.1.m = some c ∨ s.1.n c < 0
  mapped : ∀ c, s.1.m = some c → c < s.1.fresh ∧
    (s.1.n c < 0 ∧ holds s.2 = 0 ∨ s.1.n c = holds s.2 ∧ s.1.n c ≤ limit)
  good : ∀ x ∈ s.2, x.Good limit s.1

variable {limit : ℤ} {e e' : Entry} {cs cs' : Multiset Call} {x y : Call} {c : ℕ} {v : ℤ}

@[simp] theorem holds_cons : holds (x ::ₘ cs) = holds cs + if x.holding.isSome then 1 else 0 := countP_cons ..

theorem Call.Good.mono (hm : x.holding.isSome → e'.m = e.m) (hf : e.fresh ≤ e'.fresh)
    (hn : ∀ c < e.fresh, e.n c < 0 → e'.n c < 0) (h : x.Good limit e) : x.Good limit e' := by
  cases x <;> simp at h hm ⊢ <;> grind

namespace Inv

theorem counts (h : Inv limit (e, cs)) (hx : x ∈ cs) (hc : x.holding = some c) :
    e.m = some c ∧ e.n c = holds cs ∧ 0 < e.n c ∧ e.n c ≤ limit := by
  have hpos : 0 < holds cs := countP_pos.mpr ⟨x, hx, hc ▸ rfl⟩
  have hgood := h.good x hx
  have hm : e.m = some c := by cases x <;> simp_all
  have := h.mapped c hm
  grind

theorem calls (h : Inv limit (e, cs)) (hk : holds cs' = holds cs)
    (hg : ∀ z ∈ cs', z ∈ cs ∨ z.Good limit e) : Inv limit (e, cs') where
  dead := h.dead
  mapped := by simpa [hk] using h.mapped
  good z hz := (hg z hz).elim (h.good z) id

theorem setN (h : Inv limit (e, cs)) (hc : c < e.fresh) (hold : 0 ≤ e.n c)
    (hv : v < 0 ∧ holds cs' = 0 ∨ v = holds cs' ∧ v ≤ limit)
    (hg : ∀ z ∈ cs', z ∈ cs ∨ z.Good limit (e.setN c v)) : Inv limit (e.setN c v, cs') := by
  have hm : e.m = some c := by grind [h.dead c hc]
  constructor
  · intro d hd
    have := h.dead d hd
    simp only [Entry.setN, update_apply]
    grind
  · intro d hd
    obtain rfl : c = d := by simpa [hm] using hd
    simpa [hc] using hv
  intro z hz
  obtain hz | hz := hg z hz
  · have hz : z.Good limit e := h.good z hz
    refine hz.mono ?_ ?_ ?_
    · exact fun _ => rfl
    · exact le_rfl
    intro d _ hn
    change update e.n c v d < 0
    grind
  · exact hz

theorem compareAndDelete (h : Inv limit (e, cs)) (hc : e.n c < 0) : Inv limit (e.compareAndDelete c, cs) := by
  unfold Entry.compareAndDelete
  split_ifs with hm
  · constructor
    · intro d hd
      have := h.dead d hd
      grind
    · simp
    intro z hz
    refine (h.good z hz).mono ?_ (le_refl e.fresh) (fun _ _ h => h)
    intro hs
    obtain ⟨d, hd⟩ := Option.isSome_iff_exists.mp hs
    have := h.counts hz hd
    grind
  · exact h

theorem store (h : Inv limit (e, .store ::ₘ cs)) (hl : 0 < limit) (hm : e.m = none) :
    Inv limit ((e.advance limit .store).1, .load e.fresh ::ₘ cs) := by
  have hnone : ∀ z ∈ cs, ¬ z.holding.isSome := by
    intro z hz hs
    obtain ⟨d, hd⟩ := Option.isSome_iff_exists.mp hs
    have := (h.counts (mem_cons_of_mem hz) hd).1
    grind
  have hzero : holds cs = 0 := countP_eq_zero.mpr hnone
  simp only [Entry.advance, hm]
  constructor
  · intro d hd
    have := h.dead d
    simp only [update_apply] at hd ⊢
    grind
  · simp [hzero, hl.le]
  simp only [mem_cons, forall_eq_or_imp]
  constructor
  · exact Nat.lt_succ_self _
  intro z hz
  refine (h.good z (mem_cons_of_mem hz)).mono (absurd · (hnone z hz)) (Nat.le_succ e.fresh) ?_
  intro d hd hn
  change update e.n e.fresh 0 d < 0
  rwa [update_of_ne hd.ne]

theorem step (hl : 0 < limit) (h : Inv limit (e, x ::ₘ cs)) :
    Inv limit ((e.advance limit x).1, (e.advance limit x).2.elim cs (· ::ₘ cs)) := by
  have hx := h.good x (mem_cons_self x cs)
  have same {y : Call} (hy : y.holding = x.holding) (hg : y.Good limit e) : Inv limit (e, y ::ₘ cs) := by
    apply h.calls
    · rw [holds_cons, hy, holds_cons]
    intro z hz
    obtain rfl | hz := mem_cons.mp hz
    · exact .inr hg
    · exact .inl (mem_cons_of_mem hz)
  have drop (hy : x.holding = none) : Inv limit (e, cs) :=
    h.calls (by rw [holds_cons, hy]; rfl) (fun _ hz => .inl (mem_cons_of_mem hz))
  have hcounts {c} := h.counts (mem_cons_self x cs) (c := c)
  cases x with
  | lookup =>
    cases hm : e.m with
    | none => simpa [Entry.advance, hm] using same (y := .store) rfl trivial
    | some c => simpa [Entry.advance, hm] using same (y := .load c) rfl (h.mapped c hm).1
  | store =>
    cases hm : e.m with
    | none => simpa [Entry.advance, hm] using h.store hl hm
    | some c => simpa [Entry.advance, hm] using same (y := .load c) rfl (h.mapped c hm).1
  | load c =>
    simp only [Entry.advance]
    split_ifs with hneg hfull
    · exact same rfl ⟨hx, hneg⟩
    · exact drop rfl
    · exact same rfl ⟨hx, not_lt.mp hneg, not_le.mp hfull⟩
  | swap c cur =>
    obtain ⟨hc, hcur, hlt⟩ := hx
    simp only [Entry.advance]
    split_ifs with hn
    · subst hn
      have hm := (h.dead c hc).resolve_right hcur.not_gt
      have := h.mapped c hm
      apply h.setN hc hcur
      · simp at this ⊢
        grind
      · simp +contextual [show e.m = some c from hm]
    · exact same rfl hc
  | delete c =>
    change Inv limit (e.compareAndDelete c, .lookup ::ₘ cs)
    apply ((drop rfl).compareAndDelete hx.2).calls
    · simp
    · simp +contextual
  | held c => exact h
  | find c =>
    simp only [Entry.advance, (hcounts rfl).1]
    exact same rfl ⟨hx, rfl⟩
  | sub c t =>
    obtain ⟨hm, rfl⟩ := hx
    obtain ⟨-, hn, hpos, hle⟩ := hcounts rfl
    simp only [Entry.advance, if_neg (show ¬ e.n t - 1 < 0 by omega)]
    apply h.setN (h.mapped t hm).1 hpos.le
    · simp at hn ⊢
      grind
    · simp +contextual
  | add t => exact hx.elim
  | retire c =>
    simp only [Entry.advance]
    split_ifs with hzero
    · have hm := (h.dead c hx).resolve_right hzero.not_lt
      have := h.mapped c hm
      apply h.setN hx hzero.ge
      · simp [ipCounterDead] at this ⊢
        grind
      · simp +contextual [show c < e.fresh from hx, ipCounterDead]
    · exact drop rfl
  | sweep c => exact (drop rfl).compareAndDelete hx.2

theorem next {s s' : Entry × Multiset Call} (hl : 0 < limit) (h : Inv limit s)
    (hs : Next limit s s') : Inv limit s' := by
  cases hs with
  | hold => exact h.calls (by simp) (by simp +contextual)
  | @release e cs c | @counterRelease e cs c =>
    have hc : e.m = some c := h.good _ (mem_cons_self _ _)
    exact h.calls (by simp) (by simp +contextual [hc])
  | visit hc => exact h.calls (by simp) (by simp +contextual [hc])
  | step => exact h.step hl

end Inv

/-- Whatever the interleaving, the holds on an address stay within the limit, and each is counted
in the counter its entry maps, which is alive. -/
theorem holds_within_limit {s : String → Entry × Multiset Call} (hl : 0 < limit)
    (h : Relation.ReflTransGen (Step limit) (fun _ => ({}, 0)) s) (ip : String) :
    holds (s ip).2 ≤ limit ∧ ∀ x ∈ (s ip).2, ∀ c, x.holding = some c →
      (s ip).1.m = some c ∧ (s ip).1.n c = holds (s ip).2 ∧ 0 < (s ip).1.n c := by
  have hinv : Inv limit (s ip) := by
    induction h with
    | refl => constructor <;> simp
    | tail _ hs ih =>
      obtain ⟨ip', _, a, hs, rfl⟩ := hs
      by_cases heq : ip = ip'
      · subst heq
        simpa using ih.next hl hs
      · simpa [heq] using ih
  constructor
  · by_cases hzero : holds (s ip).2 = 0
    · omega
    obtain ⟨x, hx, hs⟩ := countP_pos.mp (Nat.pos_of_ne_zero hzero)
    obtain ⟨c, hc⟩ := Option.isSome_iff_exists.mp hs
    have := hinv.counts hx hc
    omega
  intro x hx c hc
  obtain ⟨hm, hn, hpos, _⟩ := hinv.counts hx hc
  exact ⟨hm, hn, hpos⟩

theorem run_at {ip : String} (hip : ip ≠ "") {a b : Entry × Multiset Call}
    (h : Relation.ReflTransGen (Next limit) a b) {s : String → Entry × Multiset Call} (hs : s ip = a) :
    Relation.ReflTransGen (Step limit) s (update s ip b) := by
  induction h with
  | refl => rw [← hs, update_eq_self]
  | tail _ hnext ih =>
    refine ih.tail ⟨ip, hip, _, ?_, (update_idem ..).symm⟩
    rw [update_self]
    exact hnext

theorem goes_on (h : e.advance limit x = (e', some y)) : Next limit (e, x ::ₘ cs) (e', y ::ₘ cs) := by
  have hstep := @Next.step limit e cs x
  rwa [h] at hstep

theorem returns (h : e.advance limit x = (e', none)) : Next limit (e, x ::ₘ cs) (e', cs) := by
  have hstep := @Next.step limit e cs x
  rwa [h] at hstep

/-- One counter is allocated and mapped, and stands at `v`. -/
def counted (v : ℤ) : Entry := { m := some 0, n := update (fun _ => 0) 0 v, fresh := 1 }

theorem counted_load (h0 : 0 ≤ v) (hl : v < limit) :
    (counted v).advance limit (.load 0) = (counted v, some (.swap 0 v)) := by
  have hvalue : (counted v).n 0 = v := by simp [counted]
  rw [Entry.advance, hvalue, if_neg h0.not_gt, if_neg hl.not_ge]

theorem counted_swap : (counted v).advance limit (.swap 0 v) = (counted (v + 1), some (.held 0)) := by
  simp [counted, Entry.advance]

/-- Two calls race for the first hold, and the swap of one fails. With both holds taken a sweep
passes, one hold is released, and a third call takes its place. -/
theorem contended_run : Relation.ReflTransGen (Next 2) ({}, 0) (counted 2, .held 0 ::ₘ .held 0 ::ₘ 0) := by
  have hlookup (v : ℤ) : (counted v).advance 2 .lookup = (counted v, some (.load 0)) := rfl
  have hstore : ({} : Entry).advance 2 .store = (counted 0, some (.load 0)) := rfl
  have hfail : (counted 1).advance 2 (.swap 0 0) = (counted 1, some (.load 0)) := by simp [counted, Entry.advance]
  have hretire : (counted 2).advance 2 (.retire 0) = (counted 2, none) := by simp [counted, Entry.advance]
  have hsub : (counted 2).advance 2 (.sub 0 0) = (counted 1, none) := by simp [counted, Entry.advance]
  -- the first call allocates the counter, and the second one finds it
  refine .head .hold (.head (goes_on (y := .store) rfl) (.head (goes_on hstore) ?_))
  refine .head .hold (.head (goes_on (hlookup 0)) (.head (goes_on (counted_load le_rfl two_pos)) ?_))
  -- both have read 0; the first one swaps
  rw [cons_swap]
  refine .head (goes_on (counted_load le_rfl two_pos)) (.head (goes_on counted_swap) ?_)
  rw [cons_swap]
  refine .head (goes_on hfail) (.head (goes_on (counted_load one_pos.le one_lt_two)) (.head (goes_on counted_swap) ?_))
  refine .head (.visit one_pos) (.head (returns hretire) ?_)
  refine .head .release (.head (goes_on (y := .sub 0 0) rfl) (.head (returns hsub) ?_))
  exact .head .hold (.head (goes_on (hlookup 1)) (.head (goes_on (counted_load one_pos.le one_lt_two))
    (.head (goes_on counted_swap) .refl)))

theorem holds_within_two : ∃ s, Relation.ReflTransGen (Step 2) (fun _ => ({}, 0)) s ∧ holds (s "::1").2 = 2 ∧
    (s "::1").1.m = some 0 ∧ (s "::1").1.n 0 = 2 := by
  have hrun := run_at (show "::1" ≠ "" by decide) contended_run (s := fun _ => ({}, 0)) rfl
  obtain ⟨-, hcounted⟩ := holds_within_limit two_pos hrun "::1"
  simp only [update_self] at hcounted
  obtain ⟨hm, hn, -⟩ := hcounted (.held 0) (mem_cons_self _ _) 0 rfl
  refine ⟨_, hrun, ?_⟩
  simp only [update_self]
  exact ⟨rfl, hm, hn⟩

end AlosHttp.PerIP

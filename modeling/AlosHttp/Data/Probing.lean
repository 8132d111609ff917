import Mathlib.Data.List.Basic
import Mathlib.Data.Nat.ModEq

/-! Hash tables with open addressing and linear probing that are filled once: a lookup in the
table is a search in the list of the entries. -/
namespace AlosHttp.Data.Probing
open List
variable {κ α : Type}

def slot (T : List (Option (κ × α))) (n : ℕ) : Option (κ × α) := (T[n % T.length]?).join

def firstEmpty (T : List (Option (κ × α))) : ℕ → ℕ → ℕ
  | 0, n => n
  | fuel + 1, n =>
    match slot T n with
    | none => n
    | some _ => firstEmpty T fuel (n + 1)

def insert (hash : κ → ℕ) (T : List (Option (κ × α))) (e : κ × α) : List (Option (κ × α)) :=
  T.set (firstEmpty T T.length (hash e.1) % T.length) (some e)

def lookupLoop [DecidableEq κ] (T : List (Option (κ × α))) (k : κ) : ℕ → ℕ → Option α
  | 0, _ => none
  | fuel + 1, n =>
    match slot T n with
    | none => none
    | some e => if e.1 = k then some e.2 else lookupLoop T k fuel (n + 1)

def lookup [DecidableEq κ] (hash : κ → ℕ) (T : List (Option (κ × α))) (k : κ) : Option α :=
  lookupLoop T k T.length (hash k)

/-- Every entry is reached from where its key belongs over slots that are taken. -/
def Reached (hash : κ → ℕ) (T : List (Option (κ × α))) : Prop :=
  ∀ n e, slot T n = some e → ∃ d < T.length, n % T.length = (hash e.1 + d) % T.length ∧
    ∀ j < d, slot T (hash e.1 + j) ≠ none

variable {T : List (Option (κ × α))}

theorem slot_congr {m n : ℕ} (h : m % T.length = n % T.length) : slot T m = slot T n := by
  unfold slot
  rw [h]

theorem firstEmpty_spec {fuel n q : ℕ} (hle : n ≤ q) (hlt : q < n + fuel) (hq : slot T q = none) :
    slot T (firstEmpty T fuel n) = none ∧ n ≤ firstEmpty T fuel n ∧ firstEmpty T fuel n < n + fuel ∧
      ∀ j, n ≤ j → j < firstEmpty T fuel n → slot T j ≠ none := by
  induction fuel generalizing n with
  | zero => omega
  | succ fuel ih =>
    rw [firstEmpty]
    rcases hn : slot T n with _ | e
    · dsimp only
      exact ⟨hn, le_rfl, by omega, fun j hj hlt => absurd hlt (not_lt.mpr hj)⟩
    dsimp only
    have hne : n ≠ q := by
      rintro rfl
      rw [hn] at hq
      cases hq
    obtain ⟨hempty, _, _, hbefore⟩ := @ih (n + 1) (by omega) (by omega)
    refine ⟨hempty, by omega, by omega, fun j hj hlt => ?_⟩
    by_cases hjn : j = n
    · rw [hjn, hn]
      exact Option.some_ne_none e
    · exact hbefore j (by omega) hlt

theorem exists_empty (h : none ∈ T) (s : ℕ) : ∃ q, s ≤ q ∧ q < s + T.length ∧ slot T q = none := by
  obtain ⟨i, hi, hnone⟩ := mem_iff_getElem.mp h
  have hpos : 0 < T.length := by omega
  have hmod := Nat.mod_lt s hpos
  have hdiv := Nat.div_add_mod s T.length
  have hread (c : ℕ) : slot T (i + T.length * c) = none := by
    unfold slot
    rw [Nat.add_mul_mod_self_left, Nat.mod_eq_of_lt hi, getElem?_eq_getElem hi, hnone]
    rfl
  by_cases hlt : s % T.length ≤ i
  · exact ⟨i + T.length * (s / T.length), by omega, by omega, hread _⟩
  refine ⟨i + T.length * (s / T.length + 1), ?_, ?_, hread _⟩
  · rw [Nat.mul_succ]
    omega
  rw [Nat.mul_succ]
  omega

theorem slot_set (hpos : 0 < T.length) (p n : ℕ) (e : κ × α) :
    slot (T.set (p % T.length) (some e)) n = if n % T.length = p % T.length then some e else slot T n := by
  unfold slot
  rw [length_set, getElem?_set]
  by_cases h : n % T.length = p % T.length
  · rw [if_pos h.symm, if_pos (Nat.mod_lt _ hpos), if_pos h]
    rfl
  · rw [if_neg (Ne.symm h), if_neg h]

section
variable {hash : κ → ℕ} {T : List (Option (κ × α))} {e : κ × α}

theorem insert_spec (hroom : none ∈ T) (e : κ × α) :
    ∃ p, insert hash T e = T.set (p % T.length) (some e) ∧ slot T p = none ∧ hash e.1 ≤ p ∧
      p < hash e.1 + T.length ∧ ∀ j, hash e.1 ≤ j → j < p → slot T j ≠ none := by
  obtain ⟨q, hle, hlt, hq⟩ := exists_empty hroom (hash e.1)
  obtain ⟨hempty, hge, hbound, hbefore⟩ := firstEmpty_spec hle hlt hq
  exact ⟨_, rfl, hempty, hge, hbound, hbefore⟩

theorem Reached.insert (h : Reached hash T) (hroom : none ∈ T) (e : κ × α) : Reached hash (insert hash T e) := by
  have hpos : 0 < T.length := length_pos_of_mem hroom
  obtain ⟨p, hinsert, _, hge, _, hbefore⟩ := @insert_spec κ α hash T hroom e
  rw [hinsert]
  have hkeep {n : ℕ} (hn : slot T n ≠ none) : slot (T.set (p % T.length) (some e)) n ≠ none := by
    rw [slot_set hpos]
    split_ifs
    · exact Option.some_ne_none e
    · exact hn
  intro n x hx
  rw [length_set]
  rw [slot_set hpos] at hx
  split_ifs at hx with hn
  · cases hx
    refine ⟨p - hash e.1, by omega, ?_, fun j hj => hkeep (hbefore _ (by omega) (by omega))⟩
    rw [hn, Nat.add_sub_cancel' hge]
  obtain ⟨d, hd, hmod, hocc⟩ := h n x hx
  exact ⟨d, hd, hmod, fun j hj => hkeep (hocc j hj)⟩

theorem not_behind (h : Reached hash T) {k : κ} {q m : ℕ} (hq : slot T q = none) (hge : hash k ≤ q) (hlt : q < m)
    (hm : m < hash k + T.length) {x : κ × α} (hx : slot T m = some x) : x.1 ≠ k := by
  rintro rfl
  obtain ⟨d, hd, hmod, hocc⟩ := h m x hx
  have hsame : m = hash x.1 + d := by
    have hmod' : (hash x.1 + (m - hash x.1)) % T.length = (hash x.1 + d) % T.length := by
      rw [Nat.add_sub_cancel' (by omega)]
      exact hmod
    have heq : (m - hash x.1) % T.length = d % T.length := Nat.ModEq.add_left_cancel' (hash x.1) hmod'
    rw [Nat.mod_eq_of_lt (by omega), Nat.mod_eq_of_lt hd] at heq
    omega
  apply hocc (q - hash x.1) (by omega)
  rw [Nat.add_sub_cancel' hge]
  exact hq

theorem countP_insert (hroom : none ∈ T) (e : κ × α) :
    T.countP Option.isNone ≤ (insert hash T e).countP Option.isNone + 1 := by
  have hlt := Nat.mod_lt (firstEmpty T T.length (hash e.1)) (length_pos_of_mem hroom)
  unfold insert
  rw [countP_set hlt]
  split_ifs <;> omega

theorem none_mem_of_countP (h : 0 < T.countP Option.isNone) : none ∈ T := by
  obtain ⟨x, hx, hnone⟩ := countP_pos_iff.mp h
  rw [Option.isNone_iff_eq_none] at hnone
  exact hnone ▸ hx

theorem none_mem_foldl {es : List (κ × α)} (hroom : es.length < T.countP Option.isNone) :
    none ∈ es.foldl (insert hash) T := by
  induction es generalizing T with
  | nil => exact none_mem_of_countP hroom
  | cons e es ih =>
    rw [length_cons] at hroom
    have hcount := @countP_insert κ α hash T (none_mem_of_countP (Nat.zero_lt_of_lt hroom)) e
    exact ih (by omega)

variable [DecidableEq κ]

theorem lookupLoop_behind (h : Reached hash T) {p q : ℕ} {k : κ} (hsame : q % T.length = p % T.length)
    (hq : slot T q = none) (hge : hash k ≤ q) {fuel n : ℕ} (hlt : q < n) (hn : n + fuel ≤ hash k + T.length) :
    lookupLoop (T.set (p % T.length) (some e)) k fuel n = none := by
  induction fuel generalizing n with
  | zero => rfl
  | succ fuel ih =>
    have hpos : 0 < T.length := by omega
    have hne : n % T.length ≠ p % T.length := by
      rw [← hsame]
      intro hmod
      have hdvd : (n - q) % T.length = 0 := by
        have hsub := (Nat.modEq_iff_dvd' hlt.le).mp hmod.symm
        exact Nat.mod_eq_zero_of_dvd hsub
      rw [Nat.mod_eq_of_lt (by omega)] at hdvd
      omega
    rw [lookupLoop, slot_set hpos, if_neg hne]
    rcases hx : slot T n with _ | x
    · rfl
    dsimp only
    rw [if_neg (not_behind h hq hge hlt (by omega) hx)]
    exact ih (by omega) (by omega)

theorem lookup_insert (h : Reached hash T) (hroom : none ∈ T) (e : κ × α) (k : κ) :
    lookup hash (insert hash T e) k = (lookup hash T k).or (if e.1 = k then some e.2 else none) := by
  have hpos : 0 < T.length := length_pos_of_mem hroom
  obtain ⟨p, hinsert, hempty, hge, _, hbefore⟩ := @insert_spec κ α hash T hroom e
  obtain ⟨_, hq₀, hq₀lt, hq₀none⟩ := exists_empty hroom (hash k)
  obtain ⟨hq, hqge, hqlt, hqbefore⟩ := firstEmpty_spec hq₀ hq₀lt hq₀none
  generalize firstEmpty T T.length (hash k) = q at hq hqge hqlt hqbefore
  unfold lookup
  rw [hinsert, length_set]
  -- up to the first empty slot both walks see the same entries
  have hwalk : ∀ fuel n, hash k ≤ n → n ≤ q → n + fuel = hash k + T.length →
      lookupLoop (T.set (p % T.length) (some e)) k fuel n =
        (lookupLoop T k fuel n).or (if e.1 = k then some e.2 else none) := by
    intro fuel
    induction fuel with
    | zero =>
      intro n _ hn hsum
      omega
    | succ fuel ih =>
      intro n hstart hn hsum
      rw [lookupLoop, lookupLoop, slot_set hpos]
      by_cases hnq : n = q
      · subst hnq
        rw [hq]
        rw [Option.none_or]
        by_cases hsame : n % T.length = p % T.length
        · rw [if_pos hsame]
          dsimp only
          by_cases hk : e.1 = k
          · rw [if_pos hk, if_pos hk]
          rw [if_neg hk, if_neg hk]
          exact lookupLoop_behind h hsame hq hqge (Nat.lt_succ_self n) (by omega)
        rw [if_neg hsame]
        have hk : e.1 ≠ k := by
          rintro rfl
          -- both are the first empty slot of the same walk
          rcases Nat.lt_trichotomy n p with hlt | heq | hlt
          · exact hbefore n hqge hlt hq
          · exact hsame (by rw [heq])
          · exact hqbefore p hge hlt hempty
        rw [if_neg hk]
      rcases hx : slot T n with _ | x
      · exact absurd hx (hqbefore n hstart (by omega))
      have hne : n % T.length ≠ p % T.length := by
        intro hmod
        rw [slot_congr hmod, hempty] at hx
        cases hx
      rw [if_neg hne]
      dsimp only
      by_cases hk : x.1 = k
      · rw [if_pos hk, if_pos hk]
        rfl
      rw [if_neg hk, if_neg hk]
      exact ih (n + 1) (by omega) (by omega) (by omega)
  exact hwalk T.length (hash k) le_rfl hqge rfl

theorem lookup_foldl (h : Reached hash T) {es : List (κ × α)} (hroom : es.length < T.countP Option.isNone) (k : κ) :
    lookup hash (es.foldl (insert hash) T) k = (lookup hash T k).or ((es.find? fun e => e.1 = k).map Prod.snd) := by
  induction es generalizing T with
  | nil => exact (Option.or_none).symm
  | cons e es ih =>
    rw [length_cons] at hroom
    have hmem := none_mem_of_countP (Nat.zero_lt_of_lt hroom)
    have hcount := @countP_insert κ α hash T hmem e
    rw [foldl_cons, ih (h.insert hmem e) (by omega), lookup_insert h hmem, Option.or_assoc, find?_cons]
    split_ifs with hk
    · rw [decide_eq_true hk]
      rfl
    rw [decide_eq_false hk]
    rfl

end

def fill (hash : κ → ℕ) (size : ℕ) (es : List (κ × α)) : List (Option (κ × α)) :=
  es.foldl (insert hash) (replicate size none)

theorem slot_replicate (size n : ℕ) : slot (replicate size (none : Option (κ × α))) n = none := by
  unfold slot
  rw [getElem?_replicate]
  split_ifs <;> rfl

variable {hash : κ → ℕ} {size : ℕ} {es : List (κ × α)}

theorem room_replicate (hsize : es.length < size) :
    es.length < (replicate size (none : Option (κ × α))).countP Option.isNone := by
  rw [countP_replicate]
  exact hsize

theorem none_mem_fill (hsize : es.length < size) : none ∈ fill hash size es := none_mem_foldl (room_replicate hsize)

theorem lookup_fill [DecidableEq κ] (hsize : es.length < size) (k : κ) :
    lookup hash (fill hash size es) k = (es.find? fun e => e.1 = k).map Prod.snd := by
  have hreached : Reached hash (replicate size (none : Option (κ × α))) := by
    intro n e he
    rw [slot_replicate] at he
    cases he
  have hempty : lookup hash (replicate size (none : Option (κ × α))) k = none := by
    unfold lookup
    rw [length_replicate]
    cases size with
    | zero => rfl
    | succ size => rw [lookupLoop, slot_replicate]
  rw [fill, lookup_foldl hreached (room_replicate hsize), hempty, Option.none_or]

end AlosHttp.Data.Probing

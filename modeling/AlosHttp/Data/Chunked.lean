import Mathlib.Tactic

/-! A sequence held in chunks, with positions into it: the operations on chunks are those on
the sequence that the chunks make up. Also the binary search that finds a position. -/
namespace AlosHttp.Data
open List

/-- The search of Go's `sort` package over the indices below `n`. The interval shrinks in every
round, so its length is enough fuel. -/
def searchLoop (p : ℕ → Bool) : ℕ → ℕ → ℕ → ℕ
  | 0, i, _ => i
  | fuel + 1, i, j =>
    if i < j then
      let h := (i + j) / 2
      if !p h then searchLoop p fuel (h + 1) j else searchLoop p fuel i h
    else i

def search (n : ℕ) (p : ℕ → Bool) : ℕ := searchLoop p n 0 n

theorem searchLoop_spec {p : ℕ → Bool} {n : ℕ} (hmono : ∀ i j, i ≤ j → j < n → p i = true → p j = true)
    {fuel i j : ℕ} (hfuel : j - i ≤ fuel) (hij : i ≤ j) (hj : j ≤ n) (hlow : ∀ k < i, p k = false)
    (hhigh : ∀ k, j ≤ k → k < n → p k = true) :
    searchLoop p fuel i j ≤ n ∧ (∀ k < searchLoop p fuel i j, p k = false) ∧
      ∀ k, searchLoop p fuel i j ≤ k → k < n → p k = true := by
  induction fuel generalizing i j with
  | zero =>
    have heq : i = j := by omega
    subst heq
    exact ⟨hj, hlow, hhigh⟩
  | succ fuel ih =>
    rw [searchLoop]
    split_ifs with hlt
    · dsimp only
      cases hp : p ((i + j) / 2) with
      | false =>
        apply ih (by omega) (by omega) hj _ hhigh
        -- what is below a failing index fails
        intro k hk
        by_contra hne
        have hk' := hmono k ((i + j) / 2) (by omega) (by omega) (Bool.not_eq_false _ ▸ hne)
        rw [hp] at hk'
        cases hk'
      | true =>
        apply ih (by omega) (by omega) (by omega) hlow
        intro k hk hkn
        exact hmono _ k hk hkn hp
    have heq : i = j := by omega
    subst heq
    exact ⟨hj, hlow, hhigh⟩

theorem search_spec {p : ℕ → Bool} {n : ℕ} (hmono : ∀ i j, i ≤ j → j < n → p i = true → p j = true) :
    search n p ≤ n ∧ (∀ k < search n p, p k = false) ∧ ∀ k, search n p ≤ k → k < n → p k = true := by
  apply searchLoop_spec hmono (by omega) (Nat.zero_le n) le_rfl
  · intro k hk
    omega
  intro k hk _
  omega

structure ChunkPos where
  chunk : ℕ
  idx : ℕ := 0
  deriving DecidableEq

namespace Chunked
variable {α : Type*}

def endPos (l : List (List α)) : ChunkPos := ⟨l.length, 0⟩

def get? (l : List (List α)) (p : ChunkPos) : Option α :=
  if p.chunk ≥ l.length then none else (l.getD p.chunk [])[p.idx]?

def beforePos (l : List (List α)) (p : ChunkPos) : Option ChunkPos :=
  if p.idx > 0 then some ⟨p.chunk, p.idx - 1⟩
  else if p.chunk = 0 then none
  else some ⟨p.chunk - 1, (l.getD (p.chunk - 1) []).length - 1⟩

def nextPos (l : List (List α)) (p : ChunkPos) : ChunkPos :=
  if p.idx + 1 < (l.getD p.chunk []).length then ⟨p.chunk, p.idx + 1⟩ else ⟨p.chunk + 1, 0⟩

def modify (l : List (List α)) (p : ChunkPos) (f : α → α) : List (List α) :=
  l.modify p.chunk fun ch => ch.modify p.idx f

def split (half : ℕ) (l : List (List α)) (p : ChunkPos) : List (List α) × ChunkPos :=
  let ch := l.getD p.chunk []
  (l.take p.chunk ++ [ch.take half, ch.drop half] ++ l.drop (p.chunk + 1),
    if p.idx > half then ⟨p.chunk + 1, p.idx - half⟩ else p)

def insertIn (half : ℕ) (l : List (List α)) (p : ChunkPos) (a : α) : List (List α) × ChunkPos :=
  let s := if (l.getD p.chunk []).length = 2 * half then split half l p else (l, p)
  (s.1.modify s.2.chunk fun ch => ch.insertIdx s.2.idx a, s.2)

/-- Insertion at a position; at the end a full last chunk gets a new one behind it. -/
def insert (half : ℕ) (l : List (List α)) (p : ChunkPos) (a : α) : List (List α) × ChunkPos :=
  if l.length = 0 then ([[a]], ⟨0, 0⟩)
  else if p.chunk = l.length then
    let q : ChunkPos := ⟨p.chunk - 1, (l.getD (p.chunk - 1) []).length⟩
    if q.idx = 2 * half then (l ++ [[a]], ⟨q.chunk + 1, 0⟩) else insertIn half l q a
  else insertIn half l p a

def dropFront : List (List α) → ℕ → List (List α)
  | l, 0 => l
  | [], _ + 1 => []
  | ch :: l, k + 1 => if k + 1 < ch.length then ch.drop (k + 1) :: l else dropFront l (k + 1 - ch.length)

def Filled (l : List (List α)) : Prop := ∀ ch ∈ l, ch ≠ []

/-- The position stands between `left` and `right` of the sequence: inside a chunk, at an
element, or at the end. -/
inductive At (l : List (List α)) : ChunkPos → List α → List α → Prop
  | inside (pre : List (List α)) (c₁ c₂ : List α) (post : List (List α)) (h : l = pre ++ (c₁ ++ c₂) :: post)
      (hne : c₂ ≠ []) : At l ⟨pre.length, c₁.length⟩ (pre.flatten ++ c₁) (c₂ ++ post.flatten)
  | ending : At l ⟨l.length, 0⟩ l.flatten []

variable {p : ChunkPos} {l pre post : List (List α)} {left right : List α} {a : α} {q : α → Bool}

theorem At.flatten_eq (h : At l p left right) : l.flatten = left ++ right := by
  cases h with
  | inside pre c₁ c₂ post h hne =>
    subst h
    simp
  | ending => rw [append_nil]

theorem getD_mid (pre post : List (List α)) (ch : List α) : (pre ++ ch :: post).getD pre.length [] = ch := by
  simp

theorem At.get? (h : At l p left right) : get? l p = right.head? := by
  unfold Chunked.get?
  cases h with
  | inside pre c₁ c₂ post h hne =>
    subst h
    obtain ⟨a, c₂, rfl⟩ := exists_cons_of_ne_nil hne
    simp
  | ending => rw [if_pos le_rfl]; rfl

theorem modify_mid {β : Type*} (pre post : List β) (b : β) (f : β → β) :
    (pre ++ b :: post).modify pre.length f = pre ++ f b :: post := by
  induction pre with
  | nil => rfl
  | cons c pre ih => simp [modify_succ_cons, ih]

theorem insertIdx_mid (c₁ c₂ : List α) (a : α) : (c₁ ++ c₂).insertIdx c₁.length a = c₁ ++ a :: c₂ := by
  induction c₁ with
  | nil => rfl
  | cons b c₁ ih => simp [ih]

theorem Filled.eq_nil (h : Filled l) (hl : l.flatten = []) : l = [] := by
  rcases l with _ | ⟨d, l⟩
  · rfl
  rw [flatten_cons, append_eq_nil_iff] at hl
  exact absurd hl.1 (h d mem_cons_self)

theorem Filled.flatten_concat (h : Filled l)
    (hl : l.flatten = left ++ [a]) : ∃ pre c, l = pre ++ [c ++ [a]] ∧ left = pre.flatten ++ c := by
  induction l using reverseRecOn with
  | nil => simp at hl
  | append_singleton pre d _ =>
    have hd : d ≠ [] := h d (by simp)
    obtain ⟨c, b, rfl⟩ := (eq_nil_or_concat' d).resolve_left hd
    rw [flatten_append, flatten_singleton, ← append_assoc] at hl
    obtain ⟨hleft, hb⟩ := append_inj' hl rfl
    rw [← List.cons.inj hb |>.1]
    exact ⟨pre, c, rfl, hleft.symm⟩

theorem At.start (hfill : Filled l) : At l ⟨0, 0⟩ [] l.flatten := by
  cases l with
  | nil => exact At.ending
  | cons d l => exact At.inside [] [] d l rfl (hfill d mem_cons_self)

theorem At.of_chunkEnd {c : List α} (hfill : Filled l)
    (h : l = pre ++ c :: post) : At l ⟨pre.length + 1, 0⟩ (pre.flatten ++ c) post.flatten := by
  rcases post with _ | ⟨d, post⟩
  · have hend := At.ending (l := l)
    rw [h] at hend ⊢
    simpa using hend
  have hd : d ≠ [] := hfill d (by rw [h]; simp)
  have hin := At.inside (pre ++ [c]) [] d post (l := l) (by rw [h]; simp) hd
  simpa using hin

section
variable (hfill : Filled l)
include hfill

theorem At.next (h : At l p left (a :: right)) : At l (nextPos l p) (left ++ [a]) right := by
  generalize hr : a :: right = r at h
  cases h with
  | inside pre c₁ c₂ post h hne =>
    obtain ⟨b, c₂, rfl⟩ := exists_cons_of_ne_nil hne
    obtain ⟨rfl, rfl⟩ := List.cons.inj hr
    unfold nextPos
    have hlen : (l.getD pre.length []).length = c₁.length + 1 + c₂.length := by
      rw [h, getD_mid, length_append, length_cons]
      omega
    dsimp only
    rw [hlen]
    by_cases hc : c₂ = []
    · subst hc
      have hend := At.of_chunkEnd hfill h
      simpa using hend
    have hpos := length_pos_iff.mpr hc
    rw [if_pos (by omega)]
    have hin := At.inside pre (c₁ ++ [a]) c₂ post (l := l) (by rw [h]; simp) hc
    simpa using hin
  | ending => cases hr

theorem At.before (h : At l p (left ++ [a]) right) :
    ∃ q, beforePos l p = some q ∧ At l q left (a :: right) ∧ nextPos l q = p := by
  generalize hl : left ++ [a] = r at h
  cases h with
  | inside pre c₁ c₂ post h hne =>
    obtain rfl | ⟨c, b, rfl⟩ := eq_nil_or_concat' c₁
    · -- the element ends the chunk before
      have hpre : Filled pre := fun ch hch => hfill ch (by rw [h]; simp [hch])
      rw [append_nil] at hl
      obtain ⟨pre, c, rfl, rfl⟩ := hpre.flatten_concat hl.symm
      refine ⟨⟨pre.length, c.length⟩, ?_, ?_, ?_⟩
      · unfold beforePos
        rw [h]
        simp
      · have hin := At.inside pre c [a] (c₂ :: post) (l := l) (by rw [h]; simp) (cons_ne_nil _ _)
        simpa using hin
      unfold nextPos
      rw [h]
      simp
    rw [← append_assoc] at hl
    obtain ⟨rfl, hb⟩ := append_inj' hl rfl
    obtain ⟨rfl, -⟩ := List.cons.inj hb
    refine ⟨⟨pre.length, c.length⟩, ?_, ?_, ?_⟩
    · unfold beforePos
      simp
    · have hin := At.inside pre c (a :: c₂) post (l := l) (by rw [h]; simp) (cons_ne_nil _ _)
      simpa using hin
    have hpos := length_pos_iff.mpr hne
    unfold nextPos
    rw [h]
    simp [hpos]
  | ending =>
    obtain ⟨pre, c, rfl, rfl⟩ := hfill.flatten_concat hl.symm
    refine ⟨⟨pre.length, c.length⟩, ?_, ?_, ?_⟩
    · unfold beforePos
      simp
    · have hin := At.inside pre c [a] [] (l := pre ++ [c ++ [a]]) rfl (cons_ne_nil _ _)
      simpa using hin
    unfold nextPos
    simp

theorem At.before_none (h : At l p [] right) : beforePos l p = none := by
  generalize hleft : ([] : List α) = left at h
  cases h with
  | inside pre c₁ c₂ post h hne =>
    obtain ⟨hnil, hc⟩ := append_eq_nil_iff.mp hleft.symm
    have hpre : Filled pre := fun ch hch => hfill ch (by rw [h]; simp [hch])
    rw [hpre.eq_nil hnil, hc]
    rfl
  | ending =>
    rw [hfill.eq_nil hleft.symm]
    rfl

theorem At.modify (h : At l p left (a :: right)) (f : α → α) :
    Filled (modify l p f) ∧ At (modify l p f) p left (f a :: right) ∧ nextPos (modify l p f) p = nextPos l p := by
  generalize hr : a :: right = r at h
  cases h with
  | inside pre c₁ c₂ post h hne =>
    obtain ⟨b, c₂, rfl⟩ := exists_cons_of_ne_nil hne
    obtain ⟨rfl, rfl⟩ := List.cons.inj hr
    have hmod : Chunked.modify l ⟨pre.length, c₁.length⟩ f = pre ++ (c₁ ++ f a :: c₂) :: post := by
      unfold Chunked.modify
      rw [h, modify_mid, modify_mid]
    rw [hmod]
    refine ⟨?_, ?_, ?_⟩
    · intro ch hch
      rw [mem_append, mem_cons] at hch
      obtain hch | rfl | hch := hch
      · exact hfill ch (by rw [h]; simp [hch])
      · simp
      · exact hfill ch (by rw [h]; simp [hch])
    · exact At.inside pre c₁ (f a :: c₂) post rfl (cons_ne_nil _ _)
    unfold nextPos
    rw [h]
    simp
  | ending => cases hr

end

theorem modify_insertIdx (pre post : List (List α)) (c₁ c₂ : List α) (a : α) :
    (pre ++ (c₁ ++ c₂) :: post).modify pre.length (fun ch => ch.insertIdx c₁.length a) =
      pre ++ (c₁ ++ a :: c₂) :: post := by
  rw [modify_mid, insertIdx_mid]

theorem filled_nil : Filled ([] : List (List α)) := fun _ h => by cases h

theorem Filled.insert_mid (hpre : Filled pre) (hpost : Filled post)
    {c : List α} (hc : c ≠ []) : Filled (pre ++ c :: post) := by
  intro ch hch
  rw [mem_append, mem_cons] at hch
  obtain hch | rfl | hch := hch
  · exact hpre ch hch
  · exact hc
  · exact hpost ch hch

theorem split_mid (half : ℕ) (pre post : List (List α)) (ch : List α) (idx : ℕ) :
    split half (pre ++ ch :: post) ⟨pre.length, idx⟩ = (pre ++ ch.take half :: ch.drop half :: post,
        if idx > half then ⟨pre.length + 1, idx - half⟩ else ⟨pre.length, idx⟩) := by
  have hdrop : (pre ++ ch :: post).drop (pre.length + 1) = post := by simp
  unfold split
  rw [getD_mid, hdrop, take_left]
  dsimp only
  rw [append_assoc]
  rfl

theorem insertIn_spec {half : ℕ} (hhalf : 0 < half) {c₁ c₂ : List α}
    (hfill : Filled l) (h : l = pre ++ (c₁ ++ c₂) :: post) (a : α) :
    Filled (insertIn half l ⟨pre.length, c₁.length⟩ a).1 ∧
      At (insertIn half l ⟨pre.length, c₁.length⟩ a).1 (insertIn half l ⟨pre.length, c₁.length⟩ a).2
        (pre.flatten ++ c₁) (a :: (c₂ ++ post.flatten)) := by
  have hpre : Filled pre := fun ch hch => hfill ch (by rw [h]; simp [hch])
  have hpost : Filled post := fun ch hch => hfill ch (by rw [h]; simp [hch])
  unfold insertIn
  rw [h, getD_mid]
  split_ifs with hfull
  · rw [split_mid]
    by_cases hright : c₁.length > half
    · -- the place is in the second half
      rw [if_pos hright]
      have hfirst : (c₁ ++ c₂).take half = c₁.take half := take_append_of_le_length hright.le
      have hsecond : (c₁ ++ c₂).drop half = c₁.drop half ++ c₂ := drop_append_of_le_length hright.le
      have hins := modify_insertIdx (pre ++ [c₁.take half]) post (c₁.drop half) c₂ a
      rw [length_append, length_singleton, length_drop] at hins
      rw [hfirst, hsecond]
      have hshape : pre ++ c₁.take half :: (c₁.drop half ++ c₂) :: post =
          pre ++ [c₁.take half] ++ (c₁.drop half ++ c₂) :: post := by simp
      dsimp only
      rw [hshape, hins]
      have htake : c₁.take half ≠ [] := by
        apply ne_nil_of_length_pos
        rw [length_take]
        omega
      constructor
      · exact (hpre.insert_mid filled_nil htake).insert_mid hpost (by simp)
      have hin := At.inside (pre ++ [c₁.take half]) (c₁.drop half) (a :: c₂) post rfl (cons_ne_nil _ _)
      simpa [append_assoc] using hin
    rw [if_neg hright]
    have hle := not_lt.mp hright
    have hfirst : (c₁ ++ c₂).take half = c₁ ++ c₂.take (half - c₁.length) := by
      rw [take_append, take_of_length_le hle]
    have hsecond : (c₁ ++ c₂).drop half = c₂.drop (half - c₁.length) := by
      rw [drop_append, drop_eq_nil_of_le hle, nil_append]
    have hins := modify_insertIdx pre (c₂.drop (half - c₁.length) :: post) c₁ (c₂.take (half - c₁.length)) a
    rw [hfirst, hsecond]
    dsimp only
    rw [hins]
    have hdrop : c₂.drop (half - c₁.length) ≠ [] := by
      apply ne_nil_of_length_pos
      rw [length_append] at hfull
      rw [length_drop]
      omega
    constructor
    · exact hpre.insert_mid (filled_nil.insert_mid hpost hdrop) (by simp)
    have hin := At.inside pre c₁ (a :: c₂.take (half - c₁.length))
      (c₂.drop (half - c₁.length) :: post) rfl (cons_ne_nil _ _)
    rw [flatten_cons, cons_append, ← append_assoc, take_append_drop] at hin
    exact hin
  dsimp only
  rw [modify_insertIdx]
  constructor
  · exact hpre.insert_mid hpost (by simp)
  · exact At.inside pre c₁ (a :: c₂) post rfl (cons_ne_nil _ _)

theorem At.insert {half : ℕ} (hhalf : 0 < half) (hfill : Filled l) (h : At l p left right) (a : α) :
    Filled (insert half l p a).1 ∧ At (insert half l p a).1 (insert half l p a).2 left (a :: right) := by
  unfold Chunked.insert
  cases h with
  | inside pre c₁ c₂ post h hne =>
    have hlen : l.length = pre.length + (post.length + 1) := by rw [h]; simp
    dsimp only
    rw [if_neg (by omega), if_neg (by omega)]
    exact insertIn_spec hhalf hfill h a
  | ending =>
    obtain rfl | ⟨pre, c, rfl⟩ := eq_nil_or_concat' l
    · constructor
      · intro _ hch
        rw [mem_singleton.mp hch]
        exact cons_ne_nil _ _
      · exact At.inside [] [] [a] [] rfl (cons_ne_nil _ _)
    have hlen : (pre ++ [c]).length = pre.length + 1 := by simp
    rw [hlen, if_neg (Nat.succ_ne_zero _)]
    dsimp only
    rw [if_pos rfl, Nat.add_sub_cancel, getD_mid]
    split_ifs with hfull
    · constructor
      · exact hfill.insert_mid filled_nil (cons_ne_nil _ _)
      have hin := At.inside (pre ++ [c]) [] [a] [] rfl (cons_ne_nil _ _)
      simpa using hin
    have hspec := insertIn_spec hhalf hfill (show pre ++ [c] = pre ++ (c ++ []) :: [] by rw [append_nil]) a
    simpa using hspec

theorem flatten_dropFront (hfill : Filled l) (k : ℕ) :
    (dropFront l k).flatten = l.flatten.drop k ∧ Filled (dropFront l k) := by
  induction l generalizing k with
  | nil =>
    cases k with
    | zero => exact ⟨rfl, hfill⟩
    | succ k => exact ⟨by simp [dropFront], hfill⟩
  | cons ch l ih =>
    have htail : Filled l := fun c hc => hfill c (mem_cons_of_mem ch hc)
    rcases k with _ | k
    · exact ⟨rfl, hfill⟩
    rw [dropFront, flatten_cons]
    split_ifs with hk
    · constructor
      · rw [flatten_cons, drop_append_of_le_length hk.le]
      intro c hc
      obtain rfl | hc := mem_cons.mp hc
      · exact fun hnil => absurd (drop_eq_nil_iff.mp hnil) (not_le.mpr hk)
      · exact htail c hc
    rw [drop_append, drop_eq_nil_of_le (not_lt.mp hk), nil_append]
    exact ih htail (k + 1 - ch.length)

/-- The first position whose element has the property; chunks are searched by their last
elements, then the chunk by its elements. -/
def firstPos (l : List (List α)) (q : α → Bool) : ChunkPos :=
  match (l.getLastD []).getLast? with
  | none => endPos l
  | some last =>
    if !q last then endPos l
    else
      let c := search l.length fun c => ((l.getD c []).getLast?).any q
      let ch := l.getD c []
      ⟨c, search ch.length fun i => (ch[i]?).any q⟩

open Option

theorem any_last_mono {ch : List α}
    (hmono : ch.Pairwise fun a b => q a = true → q b = true) (ha : a ∈ ch) (hq : q a = true) :
    ch.getLast?.any q = true := by
  obtain ⟨c, b, rfl⟩ := (eq_nil_or_concat' ch).resolve_left (ne_nil_of_mem ha)
  rw [getLast?_concat, any_some]
  obtain ha | ha := mem_append.mp ha
  · exact (pairwise_append.mp hmono).2.2 a ha b mem_cons_self hq
  rw [← mem_singleton.mp ha]
  exact hq

theorem search_chunk {ch : List α}
    (hmono : ch.Pairwise fun a b => q a = true → q b = true) (hlast : ch.getLast?.any q = true) :
    let i := search ch.length fun i => (ch[i]?).any q
    i < ch.length ∧ (∀ a ∈ ch.take i, q a = false) ∧ ∀ a ∈ ch.drop i, q a = true := by
  have hspec := search_spec (n := ch.length) (p := fun i => (ch[i]?).any q) (by
    intro i j hij hj hi
    obtain rfl | hlt := hij.eq_or_lt
    · exact hi
    rw [getElem?_eq_getElem hj, any_some]
    rw [getElem?_eq_getElem (hlt.trans hj), any_some] at hi
    exact pairwise_iff_getElem.mp hmono i j _ hj hlt hi)
  obtain ⟨hle, hlow, hhigh⟩ := hspec
  generalize search ch.length (fun i => (ch[i]?).any q) = i at hle hlow hhigh ⊢
  refine ⟨?_, ?_, ?_⟩
  · obtain _ | hlt := hle.eq_or_lt
    · rw [getLast?_eq_getElem?] at hlast
      have hpos : ch.length ≠ 0 := by
        intro hz
        rw [length_eq_zero_iff.mp hz] at hlast
        cases hlast
      rw [hlow (ch.length - 1) (by omega)] at hlast
      cases hlast
    · exact hlt
  · intro a ha
    obtain ⟨k, hk, rfl⟩ := getElem_of_mem ha
    rw [length_take] at hk
    have hq := hlow k (by omega)
    rw [getElem?_eq_getElem (by omega), any_some] at hq
    rw [getElem_take]
    exact hq
  intro a ha
  obtain ⟨k, hk, rfl⟩ := getElem_of_mem ha
  rw [length_drop] at hk
  have hq := hhigh (i + k) (by omega) (by omega)
  rw [getElem?_eq_getElem (by omega), any_some] at hq
  rw [getElem_drop]
  exact hq

def lastHas (q : α → Bool) (ch : List α) : Bool := ch.getLast?.any q

theorem getD_last (l : List (List α)) (q : α → Bool) (c : ℕ) :
    ((l.getD c []).getLast?).any q = (l[c]?).any (lastHas q) := by
  rw [getD_eq_getElem?_getD]
  cases l[c]? with
  | none | some => rfl

theorem firstPos_spec (hfill : Filled l) (hmono : l.flatten.Pairwise fun a b => q a = true → q b = true) :
    ∃ left right, At l (firstPos l q) left right ∧ (∀ a ∈ left, q a = false) ∧ ∀ a ∈ right, q a = true := by
  obtain ⟨hchunk, hchunks⟩ := pairwise_flatten.mp hmono
  unfold firstPos
  obtain rfl | ⟨_, c, hl⟩ := eq_nil_or_concat' l
  · exact ⟨[], [], At.ending, fun a ha => (by cases ha), fun a ha => (by cases ha)⟩
  have hc : c ≠ [] := hfill c (by rw [hl]; simp)
  obtain ⟨c, last, rfl⟩ := (eq_nil_or_concat' c).resolve_left hc
  have hlast : (l.getLastD []).getLast? = some last := by
    rw [hl, getLastD_concat, getLast?_concat]
  rw [hlast]
  dsimp only
  cases hq : q last with
  | false =>
    refine ⟨_, [], At.ending, ?_, fun a ha => (by cases ha)⟩
    intro a ha
    by_contra hne
    obtain ⟨ch, hch, ha⟩ := mem_flatten.mp ha
    have hany := any_last_mono hmono (mem_flatten.mpr ⟨ch, hch, ha⟩) (Bool.not_eq_false _ ▸ hne)
    rw [hl, flatten_append, flatten_singleton, ← append_assoc, getLast?_concat, any_some, hq] at hany
    cases hany
  | true =>
    simp only [Bool.not_true, Bool.false_eq_true, if_false, getD_last]
    have hlasts : l.Pairwise fun d e => lastHas q d = true → lastHas q e = true := by
      refine hchunks.imp_of_mem fun {d e} hd he hde hlast => ?_
      obtain ⟨d, x, rfl⟩ := (eq_nil_or_concat' d).resolve_left (hfill d hd)
      obtain ⟨e, y, rfl⟩ := (eq_nil_or_concat' e).resolve_left (hfill e he)
      unfold lastHas at hlast ⊢
      rw [getLast?_concat, any_some] at hlast ⊢
      exact hde x (by simp) y (by simp) hlast
    have hfound : l.getLast?.any (lastHas q) = true := by
      rw [hl, getLast?_concat, any_some]
      unfold lastHas
      rw [getLast?_concat, any_some, hq]
    obtain ⟨hlt, hbefore, hafter⟩ := search_chunk hlasts hfound
    generalize search l.length (fun c => (l[c]?).any (lastHas q)) = k at hlt hbefore hafter ⊢
    have hsplit : l = l.take k ++ l[k] :: l.drop (k + 1) := by
      rw [← drop_eq_getElem_cons hlt, take_append_drop]
    have hget : l.getD k [] = l[k] := by
      rw [getD_eq_getElem?_getD, getElem?_eq_getElem hlt, getD_some]
    have hk : lastHas q l[k] = true := hafter _ (by rw [drop_eq_getElem_cons hlt]; exact mem_cons_self)
    obtain ⟨hi, hfirst, hrest⟩ := search_chunk (hchunk _ (getElem_mem hlt)) hk
    rw [hget]
    generalize search l[k].length (fun i => (l[k][i]?).any q) = i at hi hfirst hrest ⊢
    have hne : l[k].drop i ≠ [] := by
      rw [ne_eq, drop_eq_nil_iff]
      exact not_le.mpr hi
    have hat := At.inside (l := l) (l.take k) (l[k].take i) (l[k].drop i) (l.drop (k + 1))
      (by rw [take_append_drop]; exact hsplit) hne
    rw [length_take, length_take, min_eq_left hlt.le, min_eq_left hi.le] at hat
    refine ⟨_, _, hat, ?_, ?_⟩
    · intro a ha
      obtain ha | ha := mem_append.mp ha
      · obtain ⟨d, hd, ha⟩ := mem_flatten.mp ha
        by_contra hqa
        have hany := any_last_mono (hchunk d (mem_of_mem_take hd)) ha (Bool.not_eq_false _ ▸ hqa)
        have hno := hbefore d hd
        unfold lastHas at hno
        rw [hno] at hany
        cases hany
      · exact hfirst a ha
    intro a ha
    obtain ha | ha := mem_append.mp ha
    · exact hrest a ha
    obtain ⟨d, hd, ha⟩ := mem_flatten.mp ha
    obtain ⟨x, hx⟩ := exists_mem_of_ne_nil _ hne
    rw [hsplit] at hchunks
    have hlater := (pairwise_cons.mp (pairwise_append.mp hchunks).2.1).1 d hd
    exact hlater x (mem_of_mem_drop hx) a ha (hrest x hx)

end Chunked
end AlosHttp.Data
